import Gsm.Sftpd.Connections

/-!
# Sessions of the SFTP server

A session is in `sessions` from its sign-in to its end. It is reported as opened after it is listed and as closed after
it is gone from there; a server that is closed opens no more, and hangs up on those it has.
-/

open Machine GoStd

namespace Sftpd

/-- The session whose goroutine this is, while `sessions` holds it -/
def Task.owns : Task → Option ℕ
  | .announcing _ id | .serving _ id | .finishing _ id => some id
  | _ => none

/-- The session whose goroutine this is, until its end is reported -/
def Task.knows : Task → Option ℕ
  | .announcing _ id | .serving _ id | .finishing _ id | .reporting _ id => some id
  | _ => none

/-- What has been emitted of the session by now -/
def Task.told : Task → List Bool
  | .announcing _ _ => []
  | _ => [true]

/-- The events of a session -/
def Server.events (s : Server) (id : ℕ) : List Bool := (s.emitted.filter (·.1 = id)).map (·.2)

/-- The panel has allowed it. -/
def Server.Vouched (s : Server) (p : Permissions) : Prop :=
  ∃ e ∈ s.answered, authenticate e.1 e.2 = some p

/-- The random id of a session is no session's before. -/
def Fresh (s : Server) (_ : List Task) (x : Answer) : Task → Prop
  | .opening _ _ => x.id ∉ s.drawn
  | _ => True

instance (s : Server) (l : List Task) (x : Answer) (t : Task) : Decidable (Fresh s l x t) := by
  unfold Fresh
  split <;> infer_instance

/-- Sessions and goroutines go together, and each session is reported once when it opens and once when it ends. -/
structure Kept (s : Server) (l : List Task) : Prop where
  owned : (l.filterMap Task.owns).Perm (s.sessions.map (·.id))
  nodup : (l.filterMap Task.knows).Nodup
  drawn : ∀ id ∈ l.filterMap Task.knows, id ∈ s.drawn
  told : ∀ t ∈ l, ∀ id, t.knows = some id → s.events id = t.told
  past : ∀ id ∈ s.drawn, id ∉ l.filterMap Task.knows → s.events id = [true, false]
  untold : ∀ id, id ∉ s.drawn → s.events id = []
  opening : ∀ ip p, .opening ip p ∈ l → s.Vouched p
  vouched : ∀ e ∈ s.sessions, s.Vouched e.permissions
  closing : s.closed = true → ∀ e ∈ s.sessions, e.id ∈ s.hungUp ∨ ∃ todo wait, .hangingUp todo wait ∈ l ∧ e.id ∈ todo
  done : ∀ id ∈ s.done, id ∈ s.drawn ∧ id ∉ l.filterMap Task.knows
  quiet : s.ln = true → s.closed = false

section

variable {s s' : Server} {l l' new : List Task} {t : Task} {ip : Str} {x : Answer} {id : ℕ} {b : Bool}

theorem Task.knows_of_owns (h : t.owns = some id) : t.knows = some id := by
  cases t <;> first | exact h | cases h

theorem Kept.perm (hl : l.Perm l') (h : Kept s l) : Kept s l' := by
  have howns := hl.filterMap Task.owns
  have hknows := hl.filterMap Task.knows
  refine ⟨howns.symm.trans h.owned, hknows.nodup_iff.mp h.nodup, fun id hid => ?_, fun t ht => ?_, fun id hid hnot => ?_,
    h.untold, fun ip p ht => ?_, h.vouched, fun hclosed e he => ?_, fun id hid => ?_, h.quiet⟩
  · exact h.drawn id (hknows.mem_iff.mpr hid)
  · exact h.told t (hl.mem_iff.mpr ht)
  · exact h.past id hid fun hmem => hnot (hknows.mem_iff.mp hmem)
  · exact h.opening ip p (hl.mem_iff.mpr ht)
  · rcases h.closing hclosed e he with hup | ⟨todo, wait, ht, hmem⟩
    · exact .inl hup
    · exact .inr ⟨todo, wait, hl.mem_iff.mp ht, hmem⟩
  · exact ⟨(h.done id hid).1, fun hmem => (h.done id hid).2 (hknows.mem_iff.mpr hmem)⟩

theorem Server.Vouched.mono {p : Permissions} (h : s.Vouched p) (hanswered : ∀ e ∈ s.answered, e ∈ s'.answered) :
    s'.Vouched p := by
  obtain ⟨e, he, hp⟩ := h
  exact ⟨e, hanswered e he, hp⟩

theorem mem_knows (ht : t ∈ l) (hid : t.knows = some id) : id ∈ l.filterMap Task.knows :=
  List.mem_filterMap.mpr ⟨t, ht, hid⟩

/-- A goroutine goes on that is about the same session, or about none. -/
theorem Kept.goOn (h : Kept s (t :: l)) (hsessions : s'.sessions = s.sessions) (hdrawn : s'.drawn = s.drawn)
    (hemitted : s'.emitted = s.emitted) (hclosed : s'.closed = s.closed) (hln : s'.ln = s.ln) (hdone : s'.done = s.done)
    (hup : ∀ id ∈ s.hungUp, id ∈ s'.hungUp) (hanswered : ∀ e ∈ s.answered, e ∈ s'.answered)
    (howns : new.filterMap Task.owns = [t].filterMap Task.owns)
    (hknows : new.filterMap Task.knows = [t].filterMap Task.knows)
    (htold : ∀ u ∈ new, ∀ id, u.knows = some id → t.knows = some id ∧ u.told = t.told)
    (hopening : ∀ ip p, .opening ip p ∈ new → s'.Vouched p)
    (hhang : ∀ todo wait, t = .hangingUp todo wait → ∀ id ∈ todo,
      id ∈ s'.hungUp ∨ ∃ todo' wait', .hangingUp todo' wait' ∈ new ∧ id ∈ todo') : Kept s' (new ++ l) := by
  have howns' : (new ++ l).filterMap Task.owns = (t :: l).filterMap Task.owns := by
    rw [List.filterMap_append, howns, ← List.filterMap_append, List.singleton_append]
  have hknows' : (new ++ l).filterMap Task.knows = (t :: l).filterMap Task.knows := by
    rw [List.filterMap_append, hknows, ← List.filterMap_append, List.singleton_append]
  have hevents : ∀ id, s'.events id = s.events id := fun id => by rw [Server.events, hemitted, Server.events]
  refine ⟨?_, ?_, fun id hid => ?_, fun u hu id hid => ?_, fun id hid hnot => ?_, fun id hid => ?_, fun ip p hu => ?_,
    fun e he => ?_, fun hc e he => ?_, fun id hid => ?_, ?_⟩
  · rw [howns', hsessions]
    exact h.owned
  · rw [hknows']
    exact h.nodup
  · rw [hknows'] at hid
    rw [hdrawn]
    exact h.drawn id hid
  · rw [hevents]
    rcases List.mem_append.mp hu with hu | hu
    · obtain ⟨hsame, htold⟩ := htold u hu id hid
      rw [htold]
      exact h.told t List.mem_cons_self id hsame
    · exact h.told u (List.mem_cons_of_mem t hu) id hid
  · rw [hdrawn] at hid
    rw [hknows'] at hnot
    rw [hevents]
    exact h.past id hid hnot
  · rw [hdrawn] at hid
    rw [hevents]
    exact h.untold id hid
  · rcases List.mem_append.mp hu with hu | hu
    · exact hopening ip p hu
    · exact (h.opening ip p (List.mem_cons_of_mem t hu)).mono hanswered
  · rw [hsessions] at he
    exact (h.vouched e he).mono hanswered
  · rw [hclosed] at hc
    rw [hsessions] at he
    rcases h.closing hc e he with hmem | ⟨todo, wait, hu, hmem⟩
    · exact .inl (hup e.id hmem)
    · rcases List.mem_cons.mp hu with heq | hu
      · rcases hhang todo wait heq.symm e.id hmem with hmem | ⟨todo', wait', hu', hmem⟩
        · exact .inl hmem
        · exact .inr ⟨todo', wait', List.mem_append_left l hu', hmem⟩
      · exact .inr ⟨todo, wait, List.mem_append_right new hu, hmem⟩
  · rw [hdone] at hid
    rw [hdrawn, hknows']
    exact h.done id hid
  · rw [hln, hclosed]
    exact h.quiet

/-- A goroutine that knows no session goes on with nothing changed. -/
theorem Kept.same (h : Kept s (t :: l)) (ht : t.knows = none) (hnew : ∀ u ∈ new, u.knows = none)
    (hopening : ∀ ip p, .opening ip p ∉ new)
    (hhang : ∀ todo wait, t = .hangingUp todo wait → ∀ id ∈ todo, ∃ todo' wait', .hangingUp todo' wait' ∈ new ∧ id ∈ todo')
    (hsessions : s'.sessions = s.sessions) (hdrawn : s'.drawn = s.drawn) (hemitted : s'.emitted = s.emitted)
    (hclosed : s'.closed = s.closed) (hln : s'.ln = s.ln) (hdone : s'.done = s.done) (hup : s'.hungUp = s.hungUp)
    (hanswered : s'.answered = s.answered) : Kept s' (new ++ l) := by
  have hnone : ∀ u : Task, u.knows = none → u.owns = none := by
    intro u hu
    rcases howns : u.owns with _ | id
    · rfl
    · exact nomatch hu.symm.trans (Task.knows_of_owns howns)
  refine h.goOn hsessions hdrawn hemitted hclosed hln hdone (fun id hid => hup ▸ hid) (fun e he => hanswered ▸ he) ?_ ?_
    (fun u hu id hid => ?_) (fun ip p hu => absurd hu (hopening ip p)) fun todo wait heq id hid =>
      .inr (hhang todo wait heq id hid)
  · rw [List.filterMap_eq_nil_iff.mpr fun u hu => hnone u (hnew u hu)]
    simp only [List.filterMap_cons, hnone t ht, List.filterMap_nil]
  · rw [List.filterMap_eq_nil_iff.mpr hnew]
    simp only [List.filterMap_cons, ht, List.filterMap_nil]
  · exact nomatch (hnew u hu).symm.trans hid

theorem events_append (hemitted : s'.emitted = s.emitted ++ [(id, b)]) (id' : ℕ) :
    s'.events id' = s.events id' ++ if id' = id then [b] else [] := by
  rw [Server.events, hemitted, List.filter_append, List.map_append, ← Server.events]
  by_cases heq : id' = id
  · rw [if_pos heq, List.filter_cons_of_pos (by simpa using heq.symm)]
    rfl
  · rw [if_neg heq, List.filter_cons_of_neg (by simpa using fun hsym => heq hsym.symm)]
    rfl

/-- What goroutine of a session this is; the others know other sessions. -/
theorem Kept.others (h : Kept s (t :: l)) (ht : t.knows = some id) {u : Task} (hu : u ∈ l) {id' : ℕ}
    (hid : u.knows = some id') : id' ≠ id := by
  rintro rfl
  have hnodup := h.nodup
  rw [List.filterMap_cons, ht] at hnodup
  exact (List.nodup_cons.mp hnodup).1 (mem_knows hu hid)

/-- The sessions of a closed server are being hung up, by whatever goroutine goes on that does not do it. -/
theorem Kept.hanging {u : Task} (h : Kept s (t :: l)) (ht : ∀ todo wait, t ≠ .hangingUp todo wait) (hc : s.closed = true) :
    ∀ e ∈ s.sessions, e.id ∈ s.hungUp ∨ ∃ todo wait, .hangingUp todo wait ∈ u :: l ∧ e.id ∈ todo := by
  intro e he
  rcases h.closing hc e he with hmem | ⟨todo, wait, hu, hmem⟩
  · exact .inl hmem
  · exact .inr ⟨todo, wait, List.mem_cons_of_mem u ((List.mem_cons.mp hu).resolve_left (ht todo wait).symm), hmem⟩

theorem kept_open {p : Permissions} (h : Kept s (.opening ip p :: l)) (hfresh : id ∉ s.drawn)
    (hs : s.openSession ip p id = some s') : Kept s' (.announcing ip id :: l) := by
  rw [Server.openSession] at hs
  split at hs
  · cases hs
  next hallowed =>
  have hnew : s.sessions.filter (·.id ≠ id) = s.sessions := by
    refine List.filter_eq_self.mpr fun e he => decide_eq_true fun heq => hfresh ?_
    have hown := h.owned.mem_iff.mpr (List.mem_map_of_mem (f := Session.id) he)
    obtain ⟨t, ht, howns⟩ := List.mem_filterMap.mp hown
    exact heq ▸ h.drawn _ (mem_knows ht (Task.knows_of_owns howns))
  rw [hnew] at hs
  cases hs
  have hno : id ∉ l.filterMap Task.knows := fun hmem => hfresh (h.drawn id hmem)
  refine ⟨?_, ?_, fun id' hid => ?_, fun u hu id' hid => ?_, fun id' hid hnot => ?_, fun id' hid => ?_,
    fun ip' p' hu => ?_, fun e he => ?_, fun hc => ?_, fun id' hid => ?_, h.quiet⟩
  · have howned := h.owned
    simp only [List.filterMap_cons, Task.owns, List.map_append, List.map_cons, List.map_nil] at howned ⊢
    exact (howned.cons id).trans (List.perm_append_singleton _ _).symm
  · simp only [List.filterMap_cons, Task.knows]
    exact List.nodup_cons.mpr ⟨hno, h.nodup⟩
  · simp only [List.filterMap_cons, Task.knows] at hid
    rcases List.mem_cons.mp hid with rfl | hid
    · exact List.mem_cons_self
    · exact List.mem_cons_of_mem id (h.drawn id' hid)
  · rcases List.mem_cons.mp hu with rfl | hu
    · obtain rfl := Option.some.inj hid
      exact h.untold _ hfresh
    · exact h.told u (List.mem_cons_of_mem _ hu) id' hid
  · simp only [List.filterMap_cons, Task.knows] at hnot
    obtain ⟨hne, hnot⟩ := not_or.mp (fun hor => hnot (List.mem_cons.mpr hor))
    exact h.past id' ((List.mem_cons.mp hid).resolve_left hne) hnot
  · exact h.untold id' fun hmem => hid (List.mem_cons_of_mem id hmem)
  · rcases List.mem_cons.mp hu with heq | hu
    · exact nomatch heq
    · exact h.opening ip' p' (List.mem_cons_of_mem _ hu)
  · rcases List.mem_append.mp he with he | he
    · exact h.vouched e he
    · rw [List.mem_singleton.mp he]
      exact h.opening ip p List.mem_cons_self
  · exact absurd (.inr (.inr hc)) hallowed
  · obtain ⟨hdrawn, hnot⟩ := h.done id' hid
    refine ⟨List.mem_cons_of_mem id hdrawn, fun hmem => ?_⟩
    simp only [List.filterMap_cons, Task.knows] at hmem
    rcases List.mem_cons.mp hmem with rfl | hmem
    · exact hfresh hdrawn
    · exact hnot hmem

theorem kept_announce (h : Kept s (.announcing ip id :: l)) :
    Kept { s with emitted := s.emitted ++ [(id, true)] } (.serving ip id :: l) := by
  have hevents (id' : ℕ) : Server.events { s with emitted := s.emitted ++ [(id, true)] } id' =
      s.events id' ++ if id' = id then [true] else [] := events_append rfl id'
  have hid : id ∈ s.drawn := h.drawn id (mem_knows List.mem_cons_self rfl)
  refine ⟨h.owned, h.nodup, h.drawn, fun u hu id' hid' => ?_, fun id' hid' hnot => ?_, fun id' hid' => ?_,
    fun ip' p hu => ?_, h.vouched, h.hanging nofun, h.done, h.quiet⟩
  · rw [hevents]
    rcases List.mem_cons.mp hu with rfl | hu
    · obtain rfl := Option.some.inj hid'
      rw [if_pos rfl, h.told _ List.mem_cons_self id rfl]
      rfl
    · rw [if_neg (h.others rfl hu hid'), List.append_nil]
      exact h.told u (List.mem_cons_of_mem _ hu) id' hid'
  · rw [hevents, if_neg (fun heq : id' = id => hnot (heq ▸ mem_knows List.mem_cons_self rfl)), List.append_nil]
    exact h.past id' hid' hnot
  · rw [hevents, if_neg (fun heq : id' = id => hid' (heq ▸ hid)), List.append_nil]
    exact h.untold id' hid'
  · exact h.opening ip' p (List.mem_cons_of_mem _ ((List.mem_cons.mp hu).resolve_left nofun))

theorem kept_finish (h : Kept s (.finishing ip id :: l)) :
    Kept { s with sessions := s.sessions.filter (·.id ≠ id) } (.reporting ip id :: l) := by
  refine ⟨?_, h.nodup, h.drawn, fun u hu id' hid => ?_, h.past, h.untold, fun ip' p hu => ?_, fun e he => ?_,
    fun hc e he => h.hanging nofun hc e (List.mem_of_mem_filter he), h.done, h.quiet⟩
  · have howned : (id :: l.filterMap Task.owns).Perm (s.sessions.map (·.id)) := h.owned
    have hnot : id ∉ l.filterMap Task.owns := by
      intro hmem
      obtain ⟨u, hu, howns⟩ := List.mem_filterMap.mp hmem
      exact h.others rfl hu (Task.knows_of_owns howns) rfl
    have hself : (l.filterMap Task.owns).filter (· ≠ id) = l.filterMap Task.owns :=
      List.filter_eq_self.mpr fun id' hid' => decide_eq_true fun heq => hnot (heq ▸ hid')
    have hfilter := howned.filter (· ≠ id)
    rw [List.filter_cons_of_neg (by simp), List.filter_map, hself] at hfilter
    exact hfilter
  · rcases List.mem_cons.mp hu with rfl | hu
    · exact h.told _ List.mem_cons_self id' hid
    · exact h.told u (List.mem_cons_of_mem _ hu) id' hid
  · exact h.opening ip' p (List.mem_cons_of_mem _ ((List.mem_cons.mp hu).resolve_left nofun))
  · exact h.vouched e (List.mem_of_mem_filter he)

theorem kept_report (h : Kept s (.reporting ip id :: l)) :
    Kept { s with done := id :: s.done, emitted := s.emitted ++ [(id, false)] } (.releasing ip :: l) := by
  have hevents (id' : ℕ) : Server.events { s with done := id :: s.done, emitted := s.emitted ++ [(id, false)] } id' =
      s.events id' ++ if id' = id then [false] else [] := events_append rfl id'
  have hid : id ∈ s.drawn := h.drawn id (mem_knows List.mem_cons_self rfl)
  have hnodup : (id :: l.filterMap Task.knows).Nodup := h.nodup
  obtain ⟨hnot, hrest⟩ := List.nodup_cons.mp hnodup
  refine ⟨h.owned, hrest, fun id' hid' => h.drawn id' (List.mem_cons_of_mem id hid'), fun u hu id' hid' => ?_,
    fun id' hid' hnot' => ?_, fun id' hid' => ?_, fun ip' p hu => ?_, h.vouched, h.hanging nofun, fun id' hid' => ?_,
    h.quiet⟩
  · rcases List.mem_cons.mp hu with rfl | hu
    · exact nomatch hid'
    · rw [hevents, if_neg (h.others rfl hu hid'), List.append_nil]
      exact h.told u (List.mem_cons_of_mem _ hu) id' hid'
  · rw [hevents]
    by_cases heq : id' = id
    · rw [if_pos heq, heq, h.told _ List.mem_cons_self id rfl]
      rfl
    · rw [if_neg heq, List.append_nil]
      exact h.past id' hid' fun hmem => (List.mem_cons.mp hmem).elim heq hnot'
  · rw [hevents, if_neg (fun heq : id' = id => hid' (heq ▸ hid)), List.append_nil]
    exact h.untold id' hid'
  · exact h.opening ip' p (List.mem_cons_of_mem _ ((List.mem_cons.mp hu).resolve_left nofun))
  · rcases List.mem_cons.mp hid' with rfl | hid'
    · exact ⟨hid, hnot⟩
    · obtain ⟨hdrawn, hnot'⟩ := h.done id' hid'
      exact ⟨hdrawn, fun hmem => hnot' (List.mem_cons_of_mem id hmem)⟩

theorem kept_resume (hfresh : Fresh s l x t) (h : Kept s (t :: l)) :
    Kept (s.resume x t).1 ((s.resume x t).2 ++ l) := by
  cases t with
  | admitting ip =>
    rw [Server.resume]
    split
    · next s' hs =>
      rw [Server.admitConn] at hs
      split at hs
      · cases hs
      · cases hs
        exact h.same rfl (by simp [Task.knows]) (by simp) nofun rfl rfl rfl rfl rfl rfl rfl rfl
    · exact h.same rfl (by simp) (by simp) nofun rfl rfl rfl rfl rfl rfl rfl rfl
  | handshaking ip =>
    rw [Server.resume]
    split
    · exact h.same rfl (by simp [Task.knows]) (by simp) nofun rfl rfl rfl rfl rfl rfl rfl rfl
    · next method res hauth =>
      refine h.goOn rfl rfl rfl rfl rfl rfl (fun _ hid => hid) (fun e he => List.mem_append_left _ he) ?_ ?_
        (fun u hu id hid => ?_) (fun ip' p hu => ?_) nofun
      · dsimp only
        split <;> rfl
      · dsimp only
        split <;> rfl
      · dsimp only at hu
        split at hu <;> cases List.mem_singleton.mp hu <;> cases hid
      · dsimp only at hu
        split at hu
        · next p' hp =>
          obtain ⟨-, rfl⟩ := Task.opening.inj (List.mem_singleton.mp hu)
          exact ⟨(method, res), List.mem_append_right _ List.mem_cons_self, hp⟩
        · cases List.mem_singleton.mp hu
  | opening ip p =>
    rw [Server.resume]
    split
    · next s' hs => exact kept_open h hfresh hs
    · exact h.same rfl (by simp [Task.knows]) (by simp) nofun rfl rfl rfl rfl rfl rfl rfl rfl
  | announcing ip id => exact kept_announce h
  | serving ip id =>
    refine h.goOn rfl rfl rfl rfl rfl rfl (fun _ hid => hid) (fun _ he => he) ?_ ?_ (fun u hu id' hid => ?_)
      (fun ip' p hu => ?_) nofun
    · simp only [Server.resume]
      split <;> rfl
    · simp only [Server.resume]
      split <;> rfl
    · simp only [Server.resume] at hu
      split at hu <;> cases List.mem_singleton.mp hu <;> exact ⟨hid, rfl⟩
    · simp only [Server.resume] at hu
      split at hu <;> cases List.mem_singleton.mp hu
  | finishing ip id => exact kept_finish h
  | reporting ip id => exact kept_report h
  | releasing ip => exact h.same rfl (by simp [Server.resume]) (by simp [Server.resume]) nofun rfl rfl rfl rfl rfl rfl rfl rfl
  | hangingUp todo wait =>
    cases todo with
    | nil =>
      refine h.same rfl (by simp [Server.resume, Task.knows]) (by simp [Server.resume]) ?_ rfl rfl rfl rfl rfl rfl rfl rfl
      intro todo wait' heq id hid
      cases heq
      exact absurd hid List.not_mem_nil
    | cons id todo =>
      refine h.goOn rfl rfl rfl rfl rfl rfl (fun _ hid => List.mem_cons_of_mem id hid) (fun _ he => he) rfl rfl
        (by simp [Server.resume, Task.knows]) (by simp [Server.resume]) ?_
      intro todo' wait' heq id' hid
      cases heq
      rcases List.mem_cons.mp hid with rfl | hid
      · exact .inl List.mem_cons_self
      · exact .inr ⟨todo, wait, List.mem_cons_self, hid⟩
  | waiting todo =>
    have hnew : ∀ u ∈ (s.resume x (.waiting todo)).2, ∃ todo', u = .waiting todo' := by
      intro u hu
      cases todo with
      | nil => exact absurd hu List.not_mem_nil
      | cons id todo =>
        simp only [Server.resume] at hu
        split at hu
        · exact absurd hu List.not_mem_nil
        · split at hu <;> exact ⟨_, List.mem_singleton.mp hu⟩
    have hsame : (s.resume x (.waiting todo)).1 = s := by cases todo <;> rfl
    rw [hsame]
    refine h.same rfl (fun u hu => ?_) (fun ip p hu => ?_) nofun rfl rfl rfl rfl rfl rfl rfl rfl
    · obtain ⟨todo', rfl⟩ := hnew u hu
      rfl
    · obtain ⟨todo', heq⟩ := hnew _ hu
      cases heq

/-- Goroutines come that know no session, and the listener changes or closes. -/
theorem Kept.come (h : Kept s l) (hsessions : s'.sessions = s.sessions) (hdrawn : s'.drawn = s.drawn)
    (hemitted : s'.emitted = s.emitted) (hdone : s'.done = s.done) (hup : s'.hungUp = s.hungUp)
    (hanswered : s'.answered = s.answered) (hnew : ∀ u ∈ new, u.knows = none) (hopening : ∀ ip p, .opening ip p ∉ new)
    (hclosing : s'.closed = true → s.closed = true ∨ ∀ e ∈ s.sessions, ∃ todo wait, .hangingUp todo wait ∈ new ∧ e.id ∈ todo)
    (hquiet : s'.ln = true → s'.closed = false) : Kept s' (new ++ l) := by
  have hknows : (new ++ l).filterMap Task.knows = l.filterMap Task.knows := by
    rw [List.filterMap_append, List.filterMap_eq_nil_iff.mpr hnew, List.nil_append]
  have howns : (new ++ l).filterMap Task.owns = l.filterMap Task.owns := by
    rw [List.filterMap_append, List.filterMap_eq_nil_iff.mpr, List.nil_append]
    intro u hu
    rcases howns : u.owns with _ | id
    · rfl
    · exact nomatch (hnew u hu).symm.trans (Task.knows_of_owns howns)
  have hevents : ∀ id, s'.events id = s.events id := fun id => by rw [Server.events, hemitted, Server.events]
  refine ⟨?_, hknows ▸ h.nodup, fun id hid => ?_, fun u hu id hid => ?_, fun id hid hnot => ?_, fun id hid => ?_,
    fun ip p hu => ?_, fun e he => ?_, fun hc e he => ?_, fun id hid => ?_, hquiet⟩
  · rw [howns, hsessions]
    exact h.owned
  · rw [hdrawn]
    exact h.drawn id (hknows ▸ hid)
  · rw [hevents]
    rcases List.mem_append.mp hu with hu | hu
    · exact nomatch (hnew u hu).symm.trans hid
    · exact h.told u hu id hid
  · rw [hevents]
    exact h.past id (hdrawn ▸ hid) (hknows ▸ hnot)
  · rw [hevents]
    exact h.untold id (hdrawn ▸ hid)
  · rcases List.mem_append.mp hu with hu | hu
    · exact absurd hu (hopening ip p)
    · exact (h.opening ip p hu).mono fun e he => hanswered ▸ he
  · exact (h.vouched e (hsessions ▸ he)).mono fun e he => hanswered ▸ he
  · rw [hsessions] at he
    rw [hup]
    rcases hclosing hc with hold | hall
    · rcases h.closing hold e he with hmem | ⟨todo, wait, hu, hmem⟩
      · exact .inl hmem
      · exact .inr ⟨todo, wait, List.mem_append_right new hu, hmem⟩
    · obtain ⟨todo, wait, hu, hmem⟩ := hall e he
      exact .inr ⟨todo, wait, List.mem_append_left l hu, hmem⟩
  · rw [hdrawn, hknows]
    exact h.done id (hdone ▸ hid)

theorem kept_arrive (h : Kept s l) (e : Event) : Kept (s.arrive e).1 ((s.arrive e).2 ++ l) := by
  cases e with
  | accept ip =>
    rw [Server.arrive]
    split
    · exact h.come rfl rfl rfl rfl rfl rfl (by simp [Task.knows]) (by simp) .inl h.quiet
    · exact h
  | configure port bind err =>
    have hclosed : (s.configure port bind err).ln = true → s.closed = false := by
      intro hln
      by_contra hc
      rw [Bool.not_eq_false] at hc
      unfold Server.configure at hln
      rw [if_pos hc] at hln
      exact nomatch hc.symm.trans (h.quiet hln)
    obtain ⟨ln, addr, port', lastErr, heq⟩ := s.configure_eq port bind err
    rw [heq] at hclosed
    have hstate : (s.arrive (.configure port bind err)).1 = { s with ln, addr, port := port', lastErr } := heq
    rw [hstate]
    exact h.come rfl rfl rfl rfl rfl rfl (by simp [Server.arrive]) (by simp [Server.arrive]) .inl hclosed
  | disconnect ids =>
    exact h.come rfl rfl rfl rfl rfl rfl (by simp [Server.arrive, Task.knows]) (by simp [Server.arrive]) .inl h.quiet
  | closeInstance uuid =>
    exact h.come rfl rfl rfl rfl rfl rfl (by simp [Server.arrive, Task.knows]) (by simp [Server.arrive]) .inl h.quiet
  | close =>
    refine h.come rfl rfl rfl rfl rfl rfl (by simp [Server.arrive, Task.knows]) (by simp [Server.arrive])
      (fun _ => .inr fun e he => ?_) nofun
    refine ⟨_, _, List.mem_cons_self, List.mem_map_of_mem ?_⟩
    rwa [List.filter_eq_self.mpr fun _ _ => rfl]

/-- In its run a session is not reported as ended before it is; afterwards it has been. -/
theorem Kept.events (h : Kept s l) (id : ℕ) :
    id ∈ l.filterMap Task.knows ∧ s.events id ∈ [[], [true]] ∨
      id ∉ l.filterMap Task.knows ∧ s.events id ∈ [[], [true, false]] := by
  by_cases hid : id ∈ l.filterMap Task.knows
  · obtain ⟨t, ht, hknows⟩ := List.mem_filterMap.mp hid
    have htold : t.told ∈ [[], [true]] := by cases t <;> simp [Task.told]
    exact .inl ⟨hid, h.told t ht id hknows ▸ htold⟩
  · refine .inr ⟨hid, ?_⟩
    by_cases hdrawn : id ∈ s.drawn
    · rw [h.past id hdrawn hid]
      decide
    · rw [h.untold id hdrawn]
      decide

theorem Kept.knows_of_session (h : Kept s l) {e : Session} (he : e ∈ s.sessions) : e.id ∈ l.filterMap Task.knows := by
  obtain ⟨t, ht, howns⟩ := List.mem_filterMap.mp (h.owned.mem_iff.mpr (List.mem_map_of_mem (f := Session.id) he))
  exact mem_knows ht (Task.knows_of_owns howns)

theorem owns_sublist : (l.filterMap Task.owns).Sublist (l.filterMap Task.knows) := by
  induction l with
  | nil => exact .slnil
  | cons t l ih =>
    rw [List.filterMap_cons, List.filterMap_cons]
    rcases howns : t.owns with _ | id
    · rcases t.knows with _ | id
      · exact ih
      · exact ih.cons id
    · rw [Task.knows_of_owns howns]
      exact ih.cons_cons id

end

theorem kept_new (o : Options) : Kept (.new o) [] := by
  refine ⟨.refl _, List.nodup_nil, ?_, ?_, ?_, fun _ _ => rfl, ?_, ?_, ?_, ?_, fun h => (nomatch h)⟩ <;>
    simp [Server.new]

/-- However connections come and go, `sessions` holds each session from its sign-in, which the panel has allowed, to its
end; it is reported once when it opens and once when it has ended. A server that is closed opens none, and hangs up on
all it has. -/
theorem sessions_accounted {o : Options} {s : Shared Server Task} {turns : List (Turn Event Answer)}
    (hrun : exec server.step ⟨.new o, []⟩ turns = some s)
    (hfresh : Along server.step (Service.When Fresh) ⟨.new o, []⟩ turns) :
    (s.rows.sessions.map (·.id)).Perm (s.tasks.filterMap Task.owns) ∧ (s.rows.sessions.map (·.id)).Nodup ∧
      (∀ e ∈ s.rows.sessions, s.rows.Vouched e.permissions) ∧
      (∀ id, s.rows.events id ∈ [[], [true], [true, false]]) ∧
      (∀ e ∈ s.rows.sessions, false ∉ s.rows.events e.id) ∧
      (∀ id ∈ s.rows.done, s.rows.events id = [true, false]) ∧
      (s.rows.closed = true → s.rows.ln = false ∧ ∀ e ∈ s.rows.sessions,
        e.id ∈ s.rows.hungUp ∨ ∃ todo wait, .hangingUp todo wait ∈ s.tasks ∧ e.id ∈ todo) := by
  have hkept : Kept s.rows s.tasks := by
    refine Service.run_invariant (P := Kept) ?_ ?_ ?_ hrun hfresh (kept_new o)
    · exact fun _ _ _ hl h => h.perm hl
    · exact fun _ _ e h => kept_arrive h e
    · exact fun _ _ _ _ hfresh h => kept_resume hfresh h
  refine ⟨hkept.owned.symm, ?_, hkept.vouched, fun id => ?_, fun e he => ?_, fun id hid => ?_, fun hclosed => ⟨?_, ?_⟩⟩
  · exact hkept.owned.nodup_iff.mp (hkept.nodup.sublist owns_sublist)
  · rcases hkept.events id with ⟨-, hmem⟩ | ⟨-, hmem⟩
    · exact List.mem_append_left [[true, false]] hmem
    · rcases List.mem_cons.mp hmem with heq | hmem
      · exact heq ▸ List.mem_cons_self
      · exact List.mem_cons_of_mem _ (List.mem_cons_of_mem _ hmem)
  · rcases hkept.events e.id with ⟨-, hmem⟩ | ⟨hnot, -⟩
    · rcases List.mem_pair.mp hmem with heq | heq <;> rw [heq] <;> decide
    · exact absurd (hkept.knows_of_session he) hnot
  · exact hkept.past id (hkept.done id hid).1 (hkept.done id hid).2
  · rcases hln : s.rows.ln with _ | _
    · rfl
    · exact nomatch hclosed.symm.trans (hkept.quiet hln)
  · exact hkept.closing hclosed

/-- A session on one instance opens, the instance is closed, and the session ends. -/
def opensAndCloses : List (Turn Event Answer) :=
  let allowed : Answer := ⟨some (.password, ⟨true, 3, "00000000".toList, []⟩), 7, false⟩
  [.request (.configure (some 2022) [] none), .request (.accept ['a']), .answer 0 allowed, .answer 0 allowed,
    .answer 0 allowed, .answer 0 allowed, .request (.closeInstance "00000000".toList), .answer 1 allowed,
    .answer 0 allowed, .answer 0 allowed, .answer 0 allowed, .request .close]

theorem sessions_accounted_opensAndCloses : ∃ s, exec server.step ⟨.new ⟨0, 0⟩, []⟩ opensAndCloses = some s ∧
    s.rows.closed = true ∧ s.rows.emitted = [(7, true), (7, false)] ∧ s.rows.ln = false := by
  have hrun : exec server.step ⟨.new ⟨0, 0⟩, []⟩ opensAndCloses = some _ := rfl
  have haccounted := sessions_accounted hrun (by decide)
  exact ⟨_, hrun, rfl, rfl, (haccounted.2.2.2.2.2.2 rfl).1⟩

end Sftpd
