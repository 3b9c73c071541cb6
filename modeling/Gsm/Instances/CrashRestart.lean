import Gsm.Instances.InstallCancel

/-!
# Crash restarts

`watch` grants a restart when an instance crashes, and a goroutine carries it out after a delay. All
that this one looks at then is whether the instance is crashed. As long as the instance has got no
container since, it is crashed only if nobody has started or stopped it either; but a container that
came and crashed since leaves the same state behind.
-/

open GoStd Machine

namespace Instances

variable {r : ℕ} {d : Docker} {i i' : Inst} {ctx : Bool} {spec : InstanceSpec} {x : Reply}
  {e : Move} {h : Holder} {g : Grant} {m m' : Manager} {a : Manager.Action}
  {as : List Manager.Action} {listed : Bool} {uuid : Str}

/-! ## Counting containers -/

/-- Every container that is tracked exits before the next one is. -/
def Inst.Counted (i : Inst) : Prop :=
  i.tracked = i.exits + if i.record.containerID.isSome then 1 else 0

theorem Inst.counted_of (hi : i.Counted) (htracked : i'.tracked = i.tracked)
    (hexits : i'.exits = i.exits) (hid : i'.record.containerID = i.record.containerID) :
    i'.Counted := by
  rw [Counted, htracked, hexits, hid]
  exact hi

theorem workStep_counted (htracks : i.Tracks) (hmu : i.opMu = some h)
    (hs : workStep r d i h x = some e) (hi : i.Counted) : e.inst.Counted := by
  rcases workStep_track hs with hun | ⟨spec, id, hw, rfl⟩
  · exact Inst.counted_of hi hun.tracked hun.exits hun.containerID
  · have hnone := htracks.unsettled h hmu (by rw [hw]; rfl)
    rw [Inst.Counted, hnone] at hi
    show i.tracked + 1 = i.exits + 1
    exact congrArg (· + 1) hi

/-- What the section of an exit leaves of a container that is tracked. -/
theorem exit_fields {id : Str} (code : ℤ) (err : Option Str) (now : ℕ)
    (hid : i.record.containerID = some id) :
    (i.exit id code err now).1.tracked = i.tracked ∧
      (i.exit id code err now).1.exits = i.exits + 1 ∧
      (i.exit id code err now).1.record.containerID = none ∧
      (i.exit id code err now).1.asked = i.asked ∧ (i.exit id code err now).1.opMu = i.opMu := by
  have hrec : (i.record.apply (.exit id code err)).1.containerID = none := by
    rw [Record.apply, if_neg (not_not.mpr hid)]
  simp only [Inst.exit]
  split <;> exact ⟨rfl, rfl, hrec, rfl, rfl⟩

/-- A restart is granted for the exit that has just been recorded. -/
theorem exit_grant {id : Str} {code : ℤ} {err : Option Str} {now : ℕ}
    (hg : (i.exit id code err now).2 = some g) : g = ⟨i.exits + 1, i.asked, i.tracked⟩ := by
  simp only [Inst.exit] at hg
  split at hg
  · simp only at hg
    split at hg
    · exact (Option.some.inj hg).symm
    · cases hg
  · cases hg

/-- What is known of every record. -/
structure Inst.Sound (i : Inst) : Prop where
  tracks : i.Tracks
  held : i.Held
  counted : i.Counted

theorem keeps_sound : Manager.Keeps Inst.Sound where
  new uuid := ⟨keeps_tracks.new uuid, keeps_held.new uuid, rfl⟩
  adopt uuid c stored x := by
    refine ⟨keeps_tracks.adopt uuid c stored x, keeps_held.adopt uuid c stored x, ?_⟩
    simp only [Inst.adopt]
    split
    · split <;> rfl
    · rfl
  lock i q hmu hi := ⟨keeps_tracks.lock i q hmu hi.tracks, keeps_held.lock i q hmu hi.held, hi.counted⟩
  work _ _ _ _ _ _ hmu hs hi :=
    ⟨workStep_tracks hmu hs hi.tracks, workStep_held hmu hs hi.held,
      workStep_counted hi.tracks hmu hs hi.counted⟩
  ready i hi :=
    ⟨keeps_tracks.ready i hi.tracks, keeps_held.ready i hi.held,
      Inst.counted_of hi.counted rfl rfl (Record.containerID_apply rfl)⟩
  exit i id code err now hid hi := by
    refine ⟨exit_tracks hi.tracks, exit_held hi.held, ?_⟩
    obtain ⟨htracked, hexits, hnone, -, -⟩ := exit_fields code err now hid
    have hcounted := hi.counted
    rw [Inst.Counted, hid] at hcounted
    rw [Inst.Counted, htracked, hexits, hnone]
    exact hcounted
  exited i id hi := ⟨keeps_tracks.exited i id hi.tracks, keeps_held.exited i id hi.held, hi.counted⟩
  lockDb i db hmu hi :=
    ⟨keeps_tracks.lockDb i db hmu hi.tracks, keeps_held.lockDb i db hmu hi.held, hi.counted⟩
  database r d i db ctx x pc _ hi := by
    refine ⟨withStep_tracks hi.tracks, withStep_held hi.held, ?_⟩
    rw [withStep_fields]
    exact hi.counted

/-! ## What is granted -/

/-- A grant that is still to be carried out. As long as no container has come since, the instance is
crashed only if it has not been asked for anything either. -/
structure Inst.Granted (i : Inst) (g : Grant) : Prop where
  number : g.exit = g.tracked
  le : g.tracked ≤ i.tracked
  free : g.tracked = i.tracked → i.record.containerID = none
  quiet : g.tracked = i.tracked → i.record.state = .crashed →
    (∀ h, i.opMu = some h → h.work.unsettled = false) → g.asked = i.asked

/-- The instance is crashed, nothing is about to change that, and it was so before. -/
def Inst.StaysCrashed (i i' : Inst) : Prop :=
  i'.record.state = .crashed → (∀ h, i'.opMu = some h → h.work.unsettled = false) →
    i.record.state = .crashed ∧ (∀ h, i.opMu = some h → h.work.unsettled = false) ∧
      i'.asked = i.asked

theorem Inst.Granted.of (hg : i.Granted g) (htracked : i'.tracked = i.tracked)
    (hid : i'.record.containerID = i.record.containerID) (hstays : i.StaysCrashed i') :
    i'.Granted g := by
  refine ⟨hg.number, htracked ▸ hg.le, fun heq => ?_, fun heq hcrashed hset => ?_⟩
  · rw [hid]
    exact hg.free (heq.trans htracked)
  · obtain ⟨hcrashed', hset', hasked⟩ := hstays hcrashed hset
    rw [hasked]
    exact hg.quiet (heq.trans htracked) hcrashed' hset'

/-- Where a container comes or goes, the grant is one of an older container. -/
theorem Inst.Granted.of_lt (hg : i.Granted g) (hlt : g.tracked < i'.tracked) : i'.Granted g :=
  ⟨hg.number, Nat.le_of_lt hlt, fun heq => absurd heq (Nat.ne_of_lt hlt),
    fun heq => absurd heq (Nat.ne_of_lt hlt)⟩

theorem Inst.staysCrashed_of_record (hrec : i'.record = i.record) (hmu : i'.opMu = i.opMu)
    (hasked : i'.asked = i.asked) : i.StaysCrashed i' := by
  intro hcrashed hset
  exact ⟨hrec ▸ hcrashed, hmu ▸ hset, hasked⟩

theorem startStep_crashed {pc : StartPc} (hmu : i.opMu = some ⟨ctx, .start spec pc⟩)
    (hs : startStep r d i ctx spec x pc = some e) : i.StaysCrashed e.inst := by
  intro hcrashed hset
  cases pc with
  | begin =>
    simp only [startStep] at hs
    split at hs
    · cases hs
      exact ⟨hcrashed, fun h' hh' => Option.some.inj (hmu.symm.trans hh') ▸ rfl, rfl⟩
    · cases hs
      exact absurd (hset _ rfl) (by simp [Work.unsettled])
  | fail =>
    cases hs
    cases hcrashed
  | track id =>
    cases hs
    simp only [Inst.unlock, Inst.track, Record.apply] at hcrashed
    split at hcrashed <;> cases hcrashed
  | ensure pc =>
    simp only [startStep] at hs
    split at hs
    · cases hs
    · split at hs <;> cases hs <;> exact absurd (hset _ rfl) (by simp [Work.unsettled])
  | _ =>
    exfalso
    simp only [startStep, Move.of] at hs
    have hnext : ∀ (j : Inst) c pc', pc' ≠ .begin → e.inst = j.next c (.start spec pc') → False := by
      intro j c pc' hpc' he
      have hfalse := hset ⟨c, .start spec pc'⟩ (by rw [he]; rfl)
      simp [Work.unsettled, hpc'] at hfalse
    grind

theorem installStep_crashed {pc : InstallPc} (hmu : i.opMu = some ⟨ctx, .install spec pc⟩)
    {ctx' : Bool} (hs : installStep r d i ctx' spec x pc = some e) : i.StaysCrashed e.inst := by
  intro hcrashed hset
  cases pc with
  | begin =>
    simp only [installStep] at hs
    split at hs
    · cases hs
      exact ⟨hcrashed, fun h' hh' => Option.some.inj (hmu.symm.trans hh') ▸ rfl, rfl⟩
    · cases hs
      exact absurd (hset _ rfl) (by simp [Work.unsettled])
  | finish errMsg id =>
    simp only [installStep] at hs
    split at hs <;> cases hs <;> cases hcrashed
  | cleanup id =>
    cases hs
    exact ⟨hcrashed, fun h' hh' => Option.some.inj (hmu.symm.trans hh') ▸ rfl, rfl⟩
  | _ =>
    exfalso
    simp only [installStep, Inst.failInstall, Move.of] at hs
    have hnext : ∀ (j : Inst) c w, w.unsettled = true → e.inst = j.next c w → False := by
      intro j c w hw he
      have hfalse := hset ⟨c, w⟩ (by rw [he]; rfl)
      rw [hw] at hfalse
      cases hfalse
    grind [Work.unsettled]

/-- After a stop has come to its turn, nothing is crashed. -/
theorem stopStep_crashed {pc : StopPc} {k : Stopping} (hidle : i.record.installing = false)
    (hmu : i.opMu = some ⟨ctx, .stop k pc⟩) (hs : stopStep i ctx k x pc = some e) :
    i.StaysCrashed e.inst := by
  intro hcrashed hset
  have hbefore : ∀ h', i.opMu = some h' → h'.work.unsettled = false := by
    intro h' hh'
    cases hmu.symm.trans hh'
    rfl
  have hstopped : ∀ (j : Inst) ctx' ok, (j.stopped ctx' ok k).record = j.record ∧
      (j.stopped ctx' ok k).asked = j.asked := by
    intro j ctx' ok
    rw [Inst.stopped_eq]
    exact ⟨rfl, rfl⟩
  cases pc with
  | begin force =>
    exfalso
    have hstop : (i.record.apply .stop).1.state ≠ .crashed := by
      rw [Record.apply, if_neg (by simp [hidle])]
      split
      · exact fun hstate => by cases hstate
      · next hnot =>
        split
        · exact hnot
        · exact fun hstate => by cases hstate
    simp only [stopStep, hidle, Move.of] at hs
    grind [Inst.next]
  | _ => simp only [stopStep, waitStep, Move.of] at hs; grind [Inst.next]

theorem workStep_crashed (hheld : i.Held) (hmu : i.opMu = some h)
    (hs : workStep r d i h x = some e) : i.StaysCrashed e.inst := by
  obtain ⟨ctx, work⟩ := h
  have hbefore : work.unsettled = false → ∀ h', i.opMu = some h' → h'.work.unsettled = false := by
    intro hw h' hh'
    cases hmu.symm.trans hh'
    exact hw
  cases work with
  | install spec pc => exact installStep_crashed hmu hs
  | start spec pc => exact startStep_crashed hmu hs
  | stop k pc =>
    refine stopStep_crashed ?_ hmu hs
    by_contra hinst
    obtain ⟨h', hmu', hw⟩ := hheld.holder (by simpa using hinst)
    cases hmu.symm.trans hmu'
    cases hw
  | idle remove pc =>
    intro hcrashed _
    have hidled : (i.idled ctx remove).record = i.record ∧
        (i.idled ctx remove).asked = i.asked := by
      rw [Inst.idled_eq]
      exact ⟨rfl, rfl⟩
    have hsame : e.inst.record = i.record ∧ e.inst.asked = i.asked := by
      simp only [workStep] at hs
      cases pc <;> simp only [idleStep, Move.of] at hs <;> grind [Inst.next]
    exact ⟨hsame.1 ▸ hcrashed, hbefore rfl, hsame.2⟩
  | remove deleteFiles pc =>
    intro hcrashed _
    have hsame : e.inst.record = i.record ∧ e.inst.asked = i.asked := by
      simp only [workStep] at hs
      cases pc <;> simp only [removeStep, Move.of] at hs <;> grind [Inst.next, Inst.unlock]
    exact ⟨hsame.1 ▸ hcrashed, hbefore rfl, hsame.2⟩
  | crash g =>
    cases hs
    intro hcrashed _
    rw [crashStep_eq] at hcrashed ⊢
    exact ⟨hcrashed, hbefore rfl, rfl⟩

theorem workStep_granted (hi : i.Sound) (hmu : i.opMu = some h)
    (hs : workStep r d i h x = some e) (hg : i.Granted g) : e.inst.Granted g := by
  rcases workStep_track hs with hun | ⟨spec, id, -, rfl⟩
  · exact hg.of hun.tracked hun.containerID (workStep_crashed hi.held hmu hs)
  · exact hg.of_lt (Nat.lt_succ_of_le hg.le)

/-- Work that is under way does not become a crash restart. -/
theorem workStep_not_crash {ctx' : Bool} (hs : workStep r d i h x = some e) :
    e.inst.opMu ≠ some ⟨ctx', .crash g⟩ := by
  have hstopped : ∀ (j : Inst) c ok k, (j.stopped c ok k).opMu ≠ some ⟨ctx', .crash g⟩ := by
    intro j c ok k
    cases k <;> simp only [Inst.stopped] <;> split <;> simp
  rw [workStep] at hs
  split at hs
  · next pc _ =>
    cases pc <;> simp only [installStep, Inst.failInstall, Move.of] at hs <;>
      grind [Inst.next, Inst.unlock]
  · next pc _ =>
    cases pc <;> simp only [startStep, Move.of] at hs <;> grind [Inst.next, Inst.unlock]
  · next pc _ =>
    cases pc <;> simp only [stopStep, waitStep, Move.of] at hs <;> grind [Inst.next]
  · next remove pc _ =>
    have hidled : (i.idled h.ctx remove).opMu ≠ some ⟨ctx', .crash g⟩ := by
      cases remove <;> simp [Inst.idled]
    cases pc <;> simp only [idleStep, Move.of] at hs <;> grind [Inst.next]
  · next pc _ =>
    cases pc <;> simp only [removeStep, Move.of] at hs <;> grind [Inst.next, Inst.unlock]
  · cases hs
    simp only [Move.of, crashStep]
    split
    · simp
    · split <;> simp

/-- The grant that is carried out when what holds the lock goes on. -/
def Inst.restarting (i : Inst) : Option Grant :=
  match i.opMu with
  | some ⟨_, .crash g⟩ => if i.spec.isSome ∧ i.record.state = .crashed then some g else none
  | _ => none

theorem eq_of_restarting (hg : g ∈ i.restarting) :
    (∃ ctx, i.opMu = some ⟨ctx, .crash g⟩) ∧ i.record.state = .crashed := by
  rw [Inst.restarting, Option.mem_def] at hg
  split at hg
  · next ctx g' hmu =>
    split at hg
    · next hcrashed =>
      cases hg
      exact ⟨⟨ctx, hmu⟩, hcrashed.2⟩
    · cases hg
  · cases hg

/-! ## Runs -/

namespace Manager

/-- The grant has not been carried out: its goroutine waits, or holds the lock, or is about to be
started by the watcher. -/
inductive Pending (m : Manager) (r : ℕ) (g : Grant) : Prop where
  | queued (hq : (r, .crash g) ∈ m.queue)
  | watched (id : Str) (hw : ⟨r, id, .removing (some g)⟩ ∈ m.watchers)
  | held (ctx : Bool) (hmu : (m.recs r).opMu = some ⟨ctx, .crash g⟩)

/-- What is known in every state a run reaches. -/
structure Restartable (m : Manager) : Prop where
  fresh : m.Fresh
  wf : m.Wf
  sound : ∀ r, (m.recs r).Sound
  granted : ∀ r g, m.Pending r g → (m.recs r).Granted g

theorem Pending.lt (hwf : m.Wf) (hp : m.Pending r g) : r < m.next := by
  cases hp with
  | queued hq => exact hwf.queue r _ hq
  | watched id hw => exact hwf.watchers _ hw
  | held ctx hmu => exact hwf.lt_of_opMu hmu

/-- A step that changes the record `r₀` to `i` keeps what is known of the grants there are, if it
does so in that record, and what is known of it fits the grant it brings. -/
theorem granted_set {r₀ : ℕ} (hp : m'.Pending r g)
    (hm : ∀ r g, m.Pending r g → (m.recs r).Granted g)
    (hrecs : m'.recs = Function.update m.recs r₀ i)
    (hi : ∀ g, (m.recs r₀).Granted g → i.Granted g)
    (hqueue : ∀ r g, (r, .crash g) ∈ m'.queue → m.Pending r g)
    (hwatch : ∀ r id g, ⟨r, id, .removing (some g)⟩ ∈ m'.watchers →
      m.Pending r g ∨ r = r₀ ∧ i.Granted g)
    (hmu : ∀ ctx g, i.opMu = some ⟨ctx, .crash g⟩ → m.Pending r₀ g) : (m'.recs r).Granted g := by
  have hpending : m.Pending r g ∨ r = r₀ ∧ i.Granted g := by
    cases hp with
    | queued hq => exact .inl (hqueue r g hq)
    | watched id hw => exact hwatch r id g hw
    | held ctx hheld =>
      rw [hrecs] at hheld
      by_cases hr : r = r₀
      · subst hr
        rw [Function.update_self] at hheld
        exact .inl (hmu ctx g hheld)
      · rw [Function.update_of_ne hr] at hheld
        exact .inl (.held ctx hheld)
  rw [hrecs]
  by_cases hr : r = r₀
  · subst hr
    rw [Function.update_self]
    rcases hpending with hold | ⟨-, hnew⟩
    · exact hi g (hm r g hold)
    · exact hnew
  · rw [Function.update_of_ne hr]
    exact hm r g (hpending.resolve_right fun hnew => hr hnew.1)

theorem granted_watch {n : ℕ} {w : Watcher} (hm : m.Restartable) (hw : m.watchers[n]? = some w)
    (hs : m.watchStep n w x = some m') (r : ℕ) (g : Grant) (hp : m'.Pending r g) :
    (m'.recs r).Granted g := by
  have hold : ∀ r id g, ⟨r, id, .removing (some g)⟩ ∈ replaceAt m.watchers n [] → m.Pending r g :=
    fun r id g hmem => .watched id ((mem_replaceAt hmem).resolve_right (by simp))
  simp only [watchStep] at hs
  split at hs
  · split at hs
    · cases hs
    · split at hs
      · cases hs
        refine granted_set hp hm.granted rfl (fun g hg => ?_) (fun r g hq => .queued hq)
          (fun r id g hmem => .inl (hold r id g hmem)) (fun ctx g hmu => .held ctx hmu)
        exact hg.of rfl rfl (Inst.staysCrashed_of_record rfl rfl rfl)
      · next hid =>
        cases hs
        have hid := not_not.mp hid
        have hcounted := (hm.sound w.inst).counted
        rw [Inst.Counted, hid] at hcounted
        obtain ⟨htracked, -, hnone, hasked, hmu⟩ := exit_fields x.code
          (if x.answer.ok true then none else some x.text) x.now hid
        refine granted_set hp hm.granted rfl (fun g hg => ?_) (fun r g hq => .queued hq)
          (fun r id g hmem => ?_) (fun ctx g hheld => .held ctx (hmu ▸ hheld))
        · -- a container was tracked, so the older grants are of older ones
          refine hg.of_lt ?_
          rw [htracked]
          refine Nat.lt_of_le_of_ne hg.le fun heq => ?_
          rw [hg.free heq] at hid
          cases hid
        · rcases mem_replaceAt_iff.mp hmem with hmem | hmem
          · exact .inl (hold r id g hmem)
          · obtain ⟨rfl, -, hgrant⟩ := Watcher.mk.inj (List.mem_singleton.mp hmem)
            have hg := exit_grant (WatchPc.removing.inj hgrant).symm
            refine .inr ⟨rfl, ?_⟩
            rw [hg]
            refine ⟨hcounted.symm, Nat.le_of_eq htracked.symm, fun _ => hnone, fun _ _ _ => hasked.symm⟩
  · next restart hpc =>
    cases hs
    refine granted_set hp hm.granted rfl (fun g hg => ?_) (fun r g hq => ?_)
      (fun r id g hmem => .inl (hold r id g hmem)) (fun ctx g hmu => .held ctx hmu)
    · exact hg.of rfl rfl (Inst.staysCrashed_of_record rfl rfl rfl)
    · rcases List.mem_append.mp hq with hq | hq
      · exact .queued hq
      · -- the goroutine of the restart that the watcher starts
        cases restart with
        | none => cases hq
        | some g' =>
          obtain ⟨rfl, hg⟩ := Prod.mk.inj (List.mem_singleton.mp hq)
          cases hg
          refine .watched w.id ?_
          rw [← hpc]
          exact List.mem_of_getElem? hw

theorem granted_get {uuid : Str} (hp : m'.Pending r g) (hm : m.Restartable) (hrecs : m'.recs = (m.get uuid).1.recs)
    (hqueue : ∀ r g, (r, .crash g) ∈ m'.queue → (r, .crash g) ∈ m.queue)
    (hwatchers : m'.watchers = m.watchers) : (m'.recs r).Granted g := by
  have hpending : m.Pending r g := by
    cases hp with
    | queued hq => exact .queued (hqueue r g hq)
    | watched id hw => exact .watched id (hwatchers ▸ hw)
    | held ctx hmu =>
      rw [hrecs] at hmu
      rcases (get_recs : (m.get uuid).1.recs r = m.recs r ∨ _) with hr | hr
      · exact .held ctx (hr ▸ hmu)
      · rw [hr] at hmu
        cases hmu
  rw [hrecs, get_recs_of_lt (hpending.lt hm.wf)]
  exact hm.granted r g hpending

theorem granted_adopt {c : Container} {rest : List Container} {stored : Option InstanceSpec}
    {y : Reply} (hm : m.Restartable) (hc : m.reconcile = c :: rest) (r : ℕ) (g : Grant)
    (hp : (m.adopt c stored x y).Pending r g) : ((m.adopt c stored x y).recs r).Granted g := by
  -- the record that is made for it has no grants
  have hfresh := get_of_none (hm.fresh.unknown c (hc ▸ List.mem_cons_self))
  have hrecs : ∀ r', r' ≠ m.next → (m.adopt c stored x y).recs r' = m.recs r' := by
    intro r' hr'
    rw [adopt_recs, hfresh]
    simp only [Function.update_of_ne hr']
  have hqueue : (m.adopt c stored x y).queue = m.queue := by
    simp only [adopt, hfresh]
    split <;> rfl
  have hwatchers : ∀ id, ⟨r, id, .removing (some g)⟩ ∈ (m.adopt c stored x y).watchers →
      ⟨r, id, .removing (some g)⟩ ∈ m.watchers := by
    intro id hw
    simp only [adopt, hfresh] at hw
    split at hw
    · rcases List.mem_append.mp hw with hw | hw
      · exact hw
      · split at hw
        · cases List.mem_singleton.mp hw
        · cases hw
    · exact hw
  have hpending : m.Pending r g := by
    cases hp with
    | queued hq => exact .queued (hqueue ▸ hq)
    | watched id hw => exact .watched id (hwatchers id hw)
    | held ctx hmu =>
      by_cases hr : r = m.next
      · subst hr
        rw [adopt_recs, hfresh] at hmu
        simp only [Function.update_self, Inst.adopt] at hmu
        split at hmu
        · split at hmu <;> cases hmu
        · cases hmu
      · rw [hrecs r hr] at hmu
        exact .held ctx hmu
  rw [hrecs r (Nat.ne_of_lt (hpending.lt hm.wf))]
  exact hm.granted r g hpending

theorem granted_step (hm : m.Restartable) (hs : m.step a = some m') (r : ℕ) (g : Grant)
    (hp : m'.Pending r g) : (m'.recs r).Granted g := by
  have hwatched : ∀ r id g, ⟨r, id, .removing (some g)⟩ ∈ m.watchers → m.Pending r g :=
    fun r id g hmem => .watched id hmem
  cases a with
  | request uuid q =>
    simp only [step] at hs
    split at hs
    · next hq =>
      cases hs
      refine granted_get hp hm rfl (fun r g hmem => ?_) get_watchers
      rcases List.mem_append.mp hmem with hmem | hmem
      · exact hmem
      · -- no server sends it
        obtain ⟨-, rfl⟩ := Prod.mk.inj (List.mem_singleton.mp hmem)
        cases hq.2
    · cases hs
  | lock n =>
    simp only [step] at hs
    split at hs
    · cases hs
    · next r₀ q hq =>
      split at hs
      · cases hs
      · next hfree =>
        cases hs
        have hnone : (m.recs r₀).opMu = none := by simpa using hfree
        refine granted_set hp hm.granted rfl (fun g hg => ?_)
          (fun r g hmem => .queued ((mem_replaceAt hmem).resolve_right (by simp)))
          (fun r id g hmem => .inl (hwatched r id g hmem)) (fun ctx g hmu => ?_)
        · refine hg.of rfl rfl fun hcrashed _ => ⟨hcrashed, fun h hmu => ?_, rfl⟩
          rw [hnone] at hmu
          cases hmu
        · refine .queued ?_
          have hwork : q.work = .crash g := congrArg Holder.work (Option.some.inj hmu)
          cases q <;> cases hwork
          exact List.mem_of_getElem? hq
  | work r₀ x =>
    simp only [step] at hs
    split at hs
    · cases hs
    · next h hmu =>
      split at hs
      · cases hs
      · next e he =>
        cases hs
        refine granted_set hp hm.granted rfl (fun g hg => workStep_granted (hm.sound r₀) hmu he hg)
          (fun r g hq => .queued hq) (fun r id g hmem => ?_)
          (fun ctx g hheld => absurd hheld (workStep_not_crash he))
        rcases List.mem_append.mp hmem with hmem | hmem
        · exact .inl (hwatched r id g hmem)
        · cases hwatch : e.watch with
          | none => rw [hwatch] at hmem; cases hmem
          | some id' => rw [hwatch] at hmem; cases List.mem_singleton.mp hmem
  | ready r₀ =>
    cases hs
    refine granted_set hp hm.granted rfl (fun g hg => ?_) (fun r g hq => .queued hq)
      (fun r id g hmem => .inl (hwatched r id g hmem)) (fun ctx g hmu => .held ctx hmu)
    refine hg.of rfl (Record.containerID_apply rfl) fun hcrashed hset => ⟨?_, hset, rfl⟩
    simp only [Record.apply] at hcrashed
    split at hcrashed
    · cases hcrashed
    · exact hcrashed
  | watch n x =>
    simp only [step] at hs
    split at hs
    · cases hs
    · next w hw => exact granted_watch hm hw hs r g hp
  | ends name code =>
    cases hs
    cases hp with
    | queued hq => exact hm.granted r g (.queued hq)
    | watched id hw => exact hm.granted r g (.watched id hw)
    | held ctx hmu => exact hm.granted r g (.held ctx hmu)
  | task uuid db =>
    simp only [step] at hs
    split at hs
    · cases hs
      exact granted_get hp hm rfl (fun r g hmem => get_queue ▸ hmem) get_watchers
    · cases hs
  | lockDb n =>
    simp only [step] at hs
    split at hs
    · cases hs
    · split at hs
      · cases hs
      · cases hs
        refine granted_set hp hm.granted rfl (fun g hg => ?_) (fun r g hq => .queued hq)
          (fun r id g hmem => .inl (hwatched r id g hmem)) (fun ctx g hmu => .held ctx hmu)
        exact hg.of rfl rfl (Inst.staysCrashed_of_record rfl rfl rfl)
  | database r₀ x =>
    simp only [step] at hs
    split at hs
    · cases hs
      have hsame := @withStep_fields r₀ m.docker (m.recs r₀)
      refine granted_set hp hm.granted rfl (fun g hg => ?_) (fun r g hq => .queued hq)
        (fun r id g hmem => .inl (hwatched r id g hmem)) (fun ctx g hmu => ?_)
      · rw [hsame]
        exact hg.of rfl rfl (Inst.staysCrashed_of_record rfl rfl rfl)
      · rw [hsame] at hmu
        exact .held ctx hmu
    · cases hs
  | restore uuid =>
    simp only [step] at hs
    split at hs
    · cases hs
      cases hp with
      | queued hq => exact hm.granted r g (.queued hq)
      | watched id hw => exact hm.granted r g (.watched id hw)
      | held ctx hmu => exact hm.granted r g (.held ctx hmu)
    · cases hs
  | restoring n x =>
    simp only [step] at hs
    split at hs
    · cases hs
    · next t _ =>
      cases hs
      have hsame : (m.restoreStep n t x).queue = m.queue ∧
          (m.restoreStep n t x).watchers = m.watchers := by
        rw [restoreStep]
        split <;> exact ⟨rfl, rfl⟩
      rw [restoreStep_frame.2.1]
      cases hp with
      | queued hq => exact hm.granted r g (.queued (hsame.1 ▸ hq))
      | watched id hw => exact hm.granted r g (.watched id (hsame.2 ▸ hw))
      | held ctx hmu =>
        rw [restoreStep_frame.2.1] at hmu
        exact hm.granted r g (.held ctx hmu)
  | restart listed =>
    cases hs
    cases hp with
    | queued hq => cases hq
    | watched id hw => cases hw
    | held ctx hmu => cases hmu
  | adopt stored x y =>
    simp only [step] at hs
    split at hs
    · cases hs
    · next c rest hc =>
      cases hs
      refine granted_adopt hm hc r g ?_
      cases hp with
      | queued hq => exact .queued hq
      | watched id hw => exact .watched id hw
      | held ctx hmu => exact .held ctx hmu

theorem restartable_step (hm : m.Restartable) (hs : m.step a = some m') : m'.Restartable :=
  ⟨fresh_step hm.fresh hs, wf_step hm.wf hs, recs_step keeps_sound hm.fresh hs hm.sound,
    granted_step hm hs⟩

theorem restartable_boot (hd : d.Named) : (boot d listed).Restartable := by
  refine ⟨fresh_boot hd, wf_boot, fun _ => keeps_sound.new [], fun r g hp => ?_⟩
  cases hp with
  | queued hq => cases hq
  | watched id hw => cases hw
  | held ctx hmu => cases hmu

/-! ## Which crash a restart is for -/

/-- A restart is carried out for the instance's last exit, and nobody has started or stopped the
instance since. -/
def RestartsRightly (m : Manager) : Action → Prop
  | .work r _ => ∀ g ∈ (m.recs r).restarting, g.exit = (m.recs r).exits ∧ g.asked = (m.recs r).asked
  | _ => True

/-- An instance that is restarted has got no container since the crash the restart was granted for. -/
def StillDown (m : Manager) : Action → Prop
  | .work r _ => ∀ g ∈ (m.recs r).restarting, g.tracked = (m.recs r).tracked
  | _ => True

instance (m : Manager) (a : Action) : Decidable (m.StillDown a) := by
  apply Action.casesOn (motive := fun a => Decidable (m.StillDown a)) a <;> intros <;>
    dsimp only [StillDown] <;> infer_instance

theorem restartsRightly_iff_stillDown (hm : m.Restartable) (a : Action) :
    m.RestartsRightly a ↔ m.StillDown a := by
  cases a with
  | work r x =>
    refine forall_congr' fun g => forall_congr' fun hg => ?_
    obtain ⟨⟨ctx, hmu⟩, hcrashed⟩ := eq_of_restarting hg
    have hgranted := hm.granted r g (.held ctx hmu)
    have hnumber := hgranted.number
    -- a crashed instance has no container, so exits and containers are as many
    have hnone := (hm.sound r).tracks.record.not_up (by rw [hcrashed]; rfl)
    have hcounted : (m.recs r).tracked = (m.recs r).exits := by
      have := (hm.sound r).counted
      rw [Inst.Counted, hnone] at this
      exact this
    constructor
    · rintro ⟨hexit, -⟩
      omega
    · intro htracked
      refine ⟨by omega, hgranted.quiet htracked hcrashed fun h hh => ?_⟩
      cases hmu.symm.trans hh
      rfl
  | _ => exact Iff.rfl

/-- In every run: each crash restart that is carried out is for the instance's last exit, with nobody
having started or stopped the instance since, if and only if each finds an instance that has got no
container since the crash it was granted for. -/
theorem crash_restarts_rightly (hd : d.Named) (as : List Action) :
    Along step RestartsRightly (boot d listed) as ↔ Along step StillDown (boot d listed) as :=
  along_congr (fun _ _ _ hs hm => restartable_step hm hs)
    (fun _ a hm => restartsRightly_iff_stillDown hm a) (restartable_boot hd)

/-- The instance `a`, whose container goes by this id, crashes, and the exit is recorded. -/
def crashes (id : String) : List Action :=
  [.ends (.game "a".toList) 1, .watch 0 { Reply.fine id with code := 1 }, .watch 0 (.fine id)]

/-- A crash, and the restart when its delay is over. -/
def crashOnce : List Action := starting 0 "1" ++ crashes "1" ++ [.lock 0, .work 0 (.fine "")]

theorem crash_restarts_rightly_once : Along step RestartsRightly (boot [] true) crashOnce :=
  (crash_restarts_rightly Docker.named_nil crashOnce).mpr (by decide +kernel)

/-- While the restart waits, the instance is stopped and started again with crash restarts switched
off, and crashes again. -/
def crashTwice : List Action :=
  starting 0 "1" ++ crashes "1" ++
    [.request "a".toList (.stop false), .lock 1] ++ List.replicate 4 (.work 0 (.fine "")) ++
    [.request "a".toList (.start { game with restartOnCrash := false }), .lock 1] ++
    List.replicate 7 (.work 0 (.fine "2")) ++ crashes "2" ++ [.lock 0]

theorem restart_for_an_older_crash :
    ∃ m, exec step (boot [] true) crashTwice = some m ∧
      ¬ m.RestartsRightly (.work 0 (.fine "3")) := by
  refine ⟨_, rfl, fun hright => ?_⟩
  have hlast := (hright ⟨1, 1, 1⟩ rfl).1
  exact absurd hlast (by decide)

end Manager

end Instances
