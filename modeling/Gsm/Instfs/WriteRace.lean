import Gsm.Instfs.Files
import Gsm.Machine.Tasks

/-!
# Concurrent writes of one file

Each `fs.write` runs in a goroutine of its own: it looks at the file, may read it to compare hashes, fills a
temporary file and renames it into place. The hash is compared once, before the rename; between the two
another request may have put its content there. `writes_once` is about the runs in which it has not.
-/

open Posix GoStd Machine

namespace Instfs

/-- What stands at the path. -/
inductive OnPath where
  | absent
  | file (content : Str)
  /-- No regular file -/
  | other
deriving DecidableEq

/-- The parameters of `fs.write`, but for the path. -/
structure WriteRequest where
  content : Str
  expectSHA : Option Str
  create : Bool
deriving DecidableEq

/-- The next call of a request that has to do with the file. -/
inductive WriteStage where
  | lstat (r : WriteRequest)
  | readFile (r : WriteRequest)
  | rename (r : WriteRequest)
  | stat (r : WriteRequest)
deriving DecidableEq

/-- The file, and the requests that were answered without an error. -/
structure OneFile where
  entry : OnPath
  answered : List WriteRequest
deriving DecidableEq

/-- The hash of the content, if there is a file. -/
def OnPath.sha (hash : Str → Str) : OnPath → Option Str
  | .file cur => some (hash cur)
  | _ => none

namespace OneFile

variable (hash : Str → Str)

/-- The checks of `Write` let the request pass. -/
def passes (r : WriteRequest) : OnPath → Bool
  | .absent => r.create
  | .file cur =>
      !r.create && match r.expectSHA with
        | none => true
        | some sha => hash cur == sha
  | .other => false

/-- A call that fails ends the request; so does one before it that has nothing to do with the file. -/
def resume (t : OneFile) (ok : Bool) (stage : WriteStage) : OneFile × List WriteStage :=
  if !ok then (t, [])
  else
    match stage with
    | .lstat r =>
        match t.entry with
        | .absent => (t, if r.create then [.rename r] else [])
        | .file _ =>
            if r.create then (t, [])
            else if r.expectSHA.isNone then (t, [.rename r])
            else (t, [.readFile r])
        | .other => (t, [])
    | .readFile r =>
        match t.entry with
        | .file cur => (t, if some (hash cur) = r.expectSHA then [.rename r] else [])
        | _ => (t, [])
    | .rename r => ({ t with entry := .file r.content }, [.stat r])
    | .stat r => ({ t with answered := r :: t.answered }, [])

end OneFile

/-- The requests on one path. -/
def writes (hash : Str → Str) : Service OneFile WriteStage WriteRequest Bool where
  arrive t r := (t, [.lstat r])
  resume := OneFile.resume hash

namespace OneFile

section

variable (hash : Str → Str) (start : OnPath)

/-- Of the requests that expect the hash of the file there was one succeeds at most, and so it is of those that
create it where there was none. -/
structure Once (t : OneFile) : Prop where
  expected : ∀ sha, start.sha hash = some sha →
    t.answered.countP (fun r => !r.create && r.expectSHA == some sha) ≤ 1
  created : start = .absent → t.answered.countP (fun r => r.create) ≤ 1

/-- What is renamed into place would pass its checks there still, and does not have the hash of the file there
was. -/
def Fresh (t : OneFile) (_ : List WriteStage) (ok : Bool) : WriteStage → Prop
  | .rename r => ok = true → passes hash r t.entry = true ∧ start.sha hash ≠ some (hash r.content)
  | _ => True

instance (t : OneFile) (l : List WriteStage) (ok : Bool) (stage : WriteStage) :
    Decidable (Fresh hash start t l ok stage) := by
  unfold Fresh
  split <;> infer_instance

end

/-! ## One success for each content -/

/-- In place, but not answered yet. -/
def written (m : WriteRequest → Bool) : WriteStage → Bool
  | .stat r => m r
  | _ => false

/-- The requests of a kind that have put their content in place. -/
def successes (m : WriteRequest → Bool) (t : OneFile) (l : List WriteStage) : ℕ :=
  t.answered.countP m + l.countP (written m)

/-- One of the kind at most, and none while a request of it would pass its checks. -/
structure Single (m : WriteRequest → Bool) (waiting : OnPath → Prop) (t : OneFile) (l : List WriteStage) : Prop where
  le : successes m t l ≤ 1
  none : waiting t.entry → successes m t l = 0

variable {hash : Str → Str} {start : OnPath} {m : WriteRequest → Bool} {waiting : OnPath → Prop} {t : OneFile}
  {l l' : List WriteStage} {ok : Bool} {stage : WriteStage} {r : WriteRequest}

theorem Single.perm (h : Single m waiting t l) (hl : l.Perm l') : Single m waiting t l' := by
  have hsame : successes m t l' = successes m t l := by
    rw [successes, successes, hl.countP_eq]
  exact ⟨hsame ▸ h.le, fun hw => hsame.trans (h.none hw)⟩

/-- A request that goes on to another call, with nothing written, adds none. -/
theorem Single.next (h : Single m waiting t (stage :: l)) {next : List WriteStage}
    (hnext : ∀ s ∈ next, written m s = false) : Single m waiting t (next ++ l) := by
  have hzero : next.countP (written m) = 0 := List.countP_eq_zero.mpr fun s hs => by
    rw [hnext s hs]
    exact Bool.false_ne_true
  have hle : successes m t (next ++ l) ≤ successes m t (stage :: l) := by
    rw [successes, successes, List.countP_append, hzero, List.countP_cons]
    omega
  refine ⟨hle.trans h.le, fun hw => ?_⟩
  have := h.none hw
  omega

/-- The steps that change nothing: a request is checked, or ends without an answer. -/
theorem resume_next (hash : Str → Str) (t : OneFile) (hok : ok = true → (∀ r, stage ≠ .rename r) ∧ ∀ r, stage ≠ .stat r) :
    ∃ next, resume hash t ok stage = (t, next) ∧ ∀ s ∈ next, written m s = false := by
  rcases ok with _ | _
  · exact ⟨[], rfl, fun _ h => (nomatch h)⟩
  obtain ⟨hrename, hstat⟩ := hok rfl
  have hone : ∀ r, ∀ s ∈ [WriteStage.rename r], written m s = false := fun r s hs => by
    rw [List.mem_singleton.mp hs]
    rfl
  rcases stage with r | r | r | r
  · rcases hentry : t.entry with _ | cur | _
    · rcases hcreate : r.create with _ | _
      · exact ⟨[], by simp [resume, hentry, hcreate], fun _ h => (nomatch h)⟩
      · exact ⟨[.rename r], by simp [resume, hentry, hcreate], hone r⟩
    · rcases hcreate : r.create with _ | _
      · rcases hsha : r.expectSHA with _ | sha
        · exact ⟨[.rename r], by simp [resume, hentry, hcreate, hsha], hone r⟩
        · refine ⟨[.readFile r], by simp [resume, hentry, hcreate, hsha], fun s hs => ?_⟩
          rw [List.mem_singleton.mp hs]
          rfl
      · exact ⟨[], by simp [resume, hentry, hcreate], fun _ h => (nomatch h)⟩
    · exact ⟨[], by simp [resume, hentry], fun _ h => (nomatch h)⟩
  · rcases hentry : t.entry with _ | cur | _
    · exact ⟨[], by simp [resume, hentry], fun _ h => (nomatch h)⟩
    · by_cases hsame : some (hash cur) = r.expectSHA
      · exact ⟨[.rename r], by simp [resume, hentry, hsame], hone r⟩
      · exact ⟨[], by simp [resume, hentry, hsame], fun _ h => (nomatch h)⟩
    · exact ⟨[], by simp [resume, hentry], fun _ h => (nomatch h)⟩
  · exact absurd rfl (hrename r)
  · exact absurd rfl (hstat r)

/-- Where requests of the kind pass only while the file waits for one, and nothing that is written makes it wait
again, each step keeps the count. -/
theorem single_resume (hpass : ∀ r, m r = true → passes hash r t.entry = true → waiting t.entry)
    (hwrite : ∀ r, stage = .rename r → ok = true → passes hash r t.entry = true ∧ ¬ waiting (.file r.content))
    (h : Single m waiting t (stage :: l)) :
    Single m waiting (resume hash t ok stage).1 ((resume hash t ok stage).2 ++ l) := by
  by_cases hok : ok = true → (∀ r, stage ≠ .rename r) ∧ ∀ r, stage ≠ .stat r
  · obtain ⟨next, hres, hnext⟩ := resume_next (m := m) hash t hok
    rw [hres]
    exact h.next hnext
  · rw [Classical.not_imp] at hok
    obtain ⟨rfl, hstage⟩ := hok
    rcases stage with r | r | r | r
    · exact absurd ⟨fun _ h => (nomatch h), fun _ h => (nomatch h)⟩ hstage
    · exact absurd ⟨fun _ h => (nomatch h), fun _ h => (nomatch h)⟩ hstage
    · -- the file is replaced
      obtain ⟨hpasses, hno⟩ := hwrite r rfl rfl
      have hbefore : successes m t (.rename r :: l) = t.answered.countP m + l.countP (written m) := rfl
      have hafter : successes m ⟨.file r.content, t.answered⟩ (.stat r :: l) =
          t.answered.countP m + l.countP (written m) + if m r = true then 1 else 0 := by
        rw [successes, List.countP_cons]
        exact (Nat.add_assoc _ _ _).symm
      refine ⟨?_, fun hw => absurd hw hno⟩
      show successes m ⟨.file r.content, t.answered⟩ (.stat r :: l) ≤ 1
      rw [hafter]
      split
      · next hm =>
        have hzero := h.none (hpass r hm hpasses)
        omega
      · have hle := h.le
        omega
    · -- the request is answered
      have hsame : successes m ⟨t.entry, r :: t.answered⟩ l = successes m t (.stat r :: l) := by
        rw [successes, successes, List.countP_cons, List.countP_cons]
        show _ = t.answered.countP m + (l.countP (written m) + if m r = true then 1 else 0)
        omega
      exact ⟨hsame ▸ h.le, fun hw => hsame.trans (h.none hw)⟩

/-- The same along a run. -/
theorem single_run {turns : List (Machine.Turn WriteRequest Bool)} {s : Shared OneFile WriteStage}
    {D : OneFile → List WriteStage → Bool → WriteStage → Prop}
    (hpass : ∀ r e, m r = true → passes hash r e = true → waiting e)
    (hwrite : ∀ t l r, D t l true (.rename r) → passes hash r t.entry = true ∧ ¬ waiting (.file r.content))
    (hrun : exec (writes hash).step ⟨⟨start, []⟩, []⟩ turns = some s)
    (hD : Along (writes hash).step (Service.When D) ⟨⟨start, []⟩, []⟩ turns) : Single m waiting s.rows s.tasks := by
  refine Service.run_invariant (P := Single m waiting) (fun _ _ _ hl h => h.perm hl) (fun t l r h => ?_)
    (fun t l ok stage hd h => ?_) hrun hD ⟨Nat.zero_le _, fun _ => rfl⟩
  · have hsame : successes m t (.lstat r :: l) = successes m t l := rfl
    exact ⟨hsame ▸ h.le, fun hw => hsame.trans (h.none hw)⟩
  · refine single_resume (fun r => hpass r t.entry) ?_ h
    rintro r rfl rfl
    exact hwrite t l r hd

/-- In every run in which no request replaces a file that its checks would refuse by then, and none brings back
the hash there was, one of the requests that expect that hash succeeds at most, and one of those that create the
file. -/
theorem writes_once {turns : List (Machine.Turn WriteRequest Bool)} {s : Shared OneFile WriteStage}
    (hrun : exec (writes hash).step ⟨⟨start, []⟩, []⟩ turns = some s)
    (hfresh : Along (writes hash).step (Service.When (Fresh hash start)) ⟨⟨start, []⟩, []⟩ turns) :
    Once hash start s.rows := by
  refine ⟨fun sha hsha => ?_, fun habsent => ?_⟩
  · have h : Single (fun r => !r.create && r.expectSHA == some sha) (fun e => e.sha hash = some sha) s.rows s.tasks := by
      refine single_run (fun r e hm hpass => ?_) (fun t l r hd => ?_) hrun hfresh
      · rw [Bool.and_eq_true, Bool.not_eq_true', beq_iff_eq] at hm
        rcases e with _ | cur | _
        · rw [passes, hm.1] at hpass
          cases hpass
        · rw [passes, hm.1, hm.2] at hpass
          exact congrArg some (beq_iff_eq.mp hpass)
        · cases hpass
      · obtain ⟨hpass, hsame⟩ := hd rfl
        exact ⟨hpass, fun h => hsame (hsha.trans h.symm)⟩
    exact (Nat.le_add_right _ _).trans h.le
  · have h : Single (fun r => r.create) (fun e => e = .absent) s.rows s.tasks := by
      refine single_run (fun r e hm hpass => ?_) (fun t l r hd => ?_) hrun hfresh
      · rcases e with _ | cur | _
        · rfl
        · rw [passes, hm] at hpass
          cases hpass
        · cases hpass
      · exact ⟨(hd rfl).1, fun h => (nomatch h)⟩
    exact (Nat.le_add_right _ _).trans h.le

/-- Two saves of one file that was opened by both. -/
def mine : WriteRequest := ⟨"mine".toList, some "old".toList, false⟩

def yours : WriteRequest := ⟨"yours".toList, some "old".toList, false⟩

def oldFile : Shared OneFile WriteStage := ⟨⟨.file "old".toList, []⟩, []⟩

/-- One after the other. -/
def inTurn : List (Machine.Turn WriteRequest Bool) :=
  [.request mine, .answer 0 true, .answer 0 true, .answer 0 true, .answer 0 true,
    .request yours, .answer 0 true, .answer 0 true]

/-- The second is refused; texts stand for their hashes. -/
theorem writes_once_inTurn : ∃ s, exec (writes id).step oldFile inTurn = some s ∧ s.tasks = [] ∧
    s.rows.answered = [mine] ∧ Once id (.file "old".toList) s.rows := by
  have hrun : exec (writes id).step oldFile inTurn = some ⟨⟨.file "mine".toList, [mine]⟩, []⟩ := rfl
  exact ⟨_, hrun, rfl, rfl, writes_once hrun (by decide +kernel)⟩

/-- Both are checked before either is renamed. -/
def atOnce : List (Machine.Turn WriteRequest Bool) :=
  [.request mine, .request yours, .answer 0 true, .answer 0 true, .answer 1 true, .answer 1 true,
    .answer 0 true, .answer 0 true, .answer 0 true, .answer 0 true]

/-- Both are answered without an error, and the first save is gone. -/
theorem writes_twice : ∃ s, exec (writes id).step oldFile atOnce = some s ∧ s.tasks = [] ∧
    s.rows = ⟨.file "yours".toList, [yours, mine]⟩ ∧ ¬ Once id (.file "old".toList) s.rows := by
  have hrun : exec (writes id).step oldFile atOnce = some ⟨⟨.file "yours".toList, [yours, mine]⟩, []⟩ := rfl
  refine ⟨_, hrun, rfl, rfl, fun h => ?_⟩
  exact absurd (h.expected "old".toList rfl) (by decide +kernel)

end OneFile

/-! ## The checks as they are made -/

/-- What `Write` finds at its path. -/
def entryAt (t : Tree Name Str) (abs : Path) : OnPath :=
  match t.lstat abs with
  | .found l =>
      match (t.node l).map Node.kind with
      | some (.file data) => .file data
      | _ => .other
  | .absent _ _ => .absent
  | .fail .noent => .absent
  | .fail _ => .other

/-- Run alone, the checks of `Write` are those a request passes on what it finds. -/
theorem checkWrite_iff (lib : Lib) (j : Journal Name Str) (abs c : Path) (r : WriteRequest) :
    (∃ mode j', (checkWrite lib abs c r.expectSHA r.create).run j = (.ok mode, j')) ↔
      OneFile.passes lib.sha256Hex r (entryAt j.tree abs) = true := by
  have hrefused : ∀ {e : Refusal} {j' : Journal Name Str}, ¬ ∃ mode j'', ((.error e, j') : Except Refusal ℕ × _) =
      (.ok mode, j'') := by
    rintro e j' ⟨mode, j'', h⟩
    cases h
  rw [checkWrite, entryAt]
  match hl : j.tree.lstat abs with
  | .absent d n =>
    have hlstat : (Sys.lstat (μ := FsError) abs).run j = (.error (.errno .noent), j) := by
      simp [Sys.lstat, Sys.existing, Sys.run_bind, hl]
    rw [Sys.run_bind, Sys.run_attempt, hlstat]
    rcases hcreate : r.create with _ | _
    · exact iff_of_false hrefused (by simp [OneFile.passes, hcreate])
    · exact iff_of_true ⟨_, _, rfl⟩ (by simp [OneFile.passes, hcreate])
  | .fail e =>
    have hlstat : (Sys.lstat (μ := FsError) abs).run j = (.error (.errno e), j) := by
      simp [Sys.lstat, Sys.existing, Sys.run_bind, hl]
    rw [Sys.run_bind, Sys.run_attempt, hlstat]
    by_cases he : e = .noent
    · subst he
      rcases hcreate : r.create with _ | _
      · exact iff_of_false hrefused (by simp [OneFile.passes, hcreate])
      · exact iff_of_true ⟨_, _, rfl⟩ (by simp [OneFile.passes, hcreate])
    · cases e <;> first | exact absurd rfl he | exact iff_of_false hrefused (by simp [OneFile.passes])
  | .found l =>
    obtain ⟨s, hs⟩ := Tree.lstat_found hl
    obtain ⟨nd, hnd, hshape⟩ := Option.map_eq_some_iff.mp hs
    rw [Sys.run_bind, Sys.run_attempt, Sys.run_lstat_found hl hnd]
    simp only [hnd, Option.map_some]
    rcases hkind : nd.kind with _ | data | target | _
    · rcases hcreate : r.create with _ | _ <;>
        exact iff_of_false (by simp [kindOf]) (by simp [OneFile.passes])
    · rcases hcreate : r.create with _ | _
      · rcases hsha : r.expectSHA with _ | sha
        · exact iff_of_true ⟨perm nd.mode, j, by simp [kindOf]⟩ (by simp [OneFile.passes, hcreate, hsha])
        · -- the file is read where it was found
          have hstat : j.tree.stat abs = .found l := by
            refine Tree.stat_of_lstat hl fun g hg => ?_
            rw [Tree.look, hnd, Option.map_some, Node.shape, hkind] at hg
            cases hg
          have hread := Sys.run_readAll_file (μ := FsError) hstat hnd hkind
          simp only [kindOf, ne_eq, not_true_eq_false, ↓reduceIte, Bool.false_eq_true]
          rw [Sys.run_bind_ok hread]
          by_cases hsame : lib.sha256Hex data = sha
          · rw [if_pos hsame]
            exact iff_of_true ⟨_, _, rfl⟩ (by simp [OneFile.passes, hcreate, hsha, hsame])
          · rw [if_neg hsame]
            exact iff_of_false hrefused (by simp [OneFile.passes, hcreate, hsha, hsame])
      · exact iff_of_false (by simp) (by simp [OneFile.passes, hcreate])
    · rcases hcreate : r.create with _ | _ <;>
        exact iff_of_false (by simp [kindOf]) (by simp [OneFile.passes])
    · rcases hcreate : r.create with _ | _ <;>
        exact iff_of_false (by simp [kindOf]) (by simp [OneFile.passes])

end Instfs
