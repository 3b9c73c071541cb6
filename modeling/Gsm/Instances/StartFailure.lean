import Gsm.Instances.Tracked

/-!
# A start that fails

`startLocked` removes the container it could not start, under the context whose end may be the reason
that it could not. What then matters is the call that starts the container: if the context ends while
this call is under way and the container has come up all the same, the removal fails, and the
container runs while the record tracks nothing.
-/

open GoStd Machine

namespace Instances

variable {r : ℕ} {d : Docker} {i : Inst} {ctx : Bool} {spec : InstanceSpec} {x : Reply} {e : Move}
  {db : DatabaseSpec} {m m' m'' : Manager} {xs : List Reply} {as : List Manager.Action} {listed : Bool}

/-! ## The run of one operation -/

namespace Manager

/-- What holds the record's `opMu` goes on. -/
def goOn (r : ℕ) (m : Manager) (x : Reply) : Option Manager := m.step (.work r x)

/-- The game's container runs, and the record does not track it. -/
def Stray (m : Manager) (r : ℕ) : Prop :=
  ∃ c ∈ m.docker, c.name = .game (m.recs r).uuid ∧ c.status = .running ∧
    (m.recs r).record.containerID ≠ some c.id

/-- `startLocked` has begun. -/
def Begins (m : Manager) (r : ℕ) : Prop := ∃ ctx spec, (m.recs r).opMu = some ⟨ctx, .start spec .begin⟩

/-- What `startLocked` does next is to return an error. -/
def Fails (m : Manager) (r : ℕ) : Prop :=
  (∃ ctx spec, (m.recs r).opMu = some ⟨ctx, .start spec .fail⟩) ∨
    m.Begins r ∧ (m.recs r).record.state = .installing

/-- The call that starts the container takes effect only if it succeeds. -/
def Uncut (r : ℕ) (m : Manager) (x : Reply) : Prop :=
  match (m.recs r).opMu with
  | some ⟨ctx, .start _ (.run _)⟩ => x.answer.effect ctx = true → x.answer.ok ctx = true
  | _ => True

instance (r : ℕ) (m : Manager) (x : Reply) : Decidable (m.Uncut r x) := by
  unfold Uncut
  split <;> infer_instance

/-- The removal of what still has the container's name does not take effect. -/
def Keeping (r : ℕ) (m : Manager) (x : Reply) : Prop :=
  match (m.recs r).opMu with
  | some ⟨ctx, .start _ .removeOld⟩ => x.answer.effect ctx = false
  | _ => True

instance (r : ℕ) (m : Manager) (x : Reply) : Decidable (m.Keeping r x) := by
  unfold Keeping
  split <;> infer_instance

end Manager

/-! ## How a start stands with the containers -/

def Inst.Clean (i : Inst) (d : Docker) : Prop :=
  i.record.containerID = none ∧ ¬ d.Runs (.game i.uuid)

/-- A container of the game runs while nothing is tracked. -/
def Inst.Lost (i : Inst) (d : Docker) : Prop :=
  i.record.containerID = none ∧ d.Runs (.game i.uuid)

/-- What is known at each point of a start that leaves nothing behind. -/
def StartClean (i : Inst) (d : Docker) : StartPc → Prop
  | .begin => i.record.Tracks ∧ ∀ c ∈ d, c.name = .game i.uuid → c.status = .running →
      i.record.containerID = some c.id
  -- the container that is started next is the database's
  | .ensure (.run id) => i.Clean d ∧ ∀ c ∈ d, c.id = id → c.name = .database i.uuid
  | .attach id => i.Clean d ∧ ∃ c ∈ d, c.id = id ∧ c.name = .game i.uuid
  | .run id => i.Clean d ∧ ∃ c ∈ d, c.id = id ∧ c.name = .game i.uuid
  | .track _ => True
  | _ => i.Clean d

/-- What is known while an old container is still there. -/
def StartDirty (i : Inst) (d : Docker) : StartPc → Prop
  | .begin => i.record.Tracks ∧ ∃ c ∈ d, c.name = .game i.uuid ∧ c.status = .running ∧
      i.record.containerID ≠ some c.id
  | .prepare | .lockDb | .ensure _ | .removeOld | .create | .fail => i.Lost d
  | _ => False

/-- What is known once the container has come up in a call that failed. -/
def StartLost (i : Inst) (d : Docker) (ctx : Bool) : StartPc → Prop
  | .cleanup _ => i.Lost d ∧ ctx = false
  | .fail => i.Lost d
  | _ => False

/-- What a step of a start leaves: the lock is free, or the start stands so. -/
def Move.Goes (e : Move) (d : Docker) (S : Inst → Docker → Bool → StartPc → Prop) : Prop :=
  e.inst.opMu = none ∨ ∃ ctx spec pc, e.inst.opMu = some ⟨ctx, .start spec pc⟩ ∧
    S e.inst (d.perform e.call) ctx pc

/-! ## The database server's part -/

theorem ensureStep_not_runs {uuid : Str} {pc : EnsurePc} (hno : ¬ d.Runs (.game uuid))
    (hdb : ∀ id, pc = .run id → ∀ c ∈ d, c.id = id → c.name = .database uuid) :
    ¬ (d.perform (ensureStep r uuid d db ctx x pc).1).Runs (.game uuid) := by
  intro hruns
  refine hno ?_
  cases pc with
  | stop =>
    rw [ensureStep, Docker.perform_calls] at hruns
    split at hruns
    · exact hruns.of_halt
    · exact hruns
  | remove =>
    rw [ensureStep, Docker.perform_calls] at hruns
    split at hruns
    · exact hruns.of_remove
    · exact hruns
  | create =>
    rw [ensureStep] at hruns
    split at hruns
    · rw [Docker.perform_calls] at hruns
      split at hruns
      · exact hruns.of_create rfl
      · exact hruns
    · exact hruns
  | run id =>
    rw [ensureStep, Docker.perform_calls] at hruns
    split at hruns
    · rcases hruns.of_start with hruns | ⟨c, hmem, href, hname⟩
      · exact hruns
      · -- it is a container of the database that has been started
        rw [hdb id rfl c hmem (of_decide_eq_true href)] at hname
        cases hname
    · exact hruns
  | inspect =>
    simp only [ensureStep] at hruns
    repeat' split at hruns
    all_goals exact hruns
  | _ => exact hruns

theorem ensureStep_runs {uuid : Str} {pc : EnsurePc} (hruns : d.Runs (.game uuid)) :
    (d.perform (ensureStep r uuid d db ctx x pc).1).Runs (.game uuid) := by
  have hne : ∀ c ∈ d, c.isRef (.name (.database uuid)) = true → c.name ≠ .game uuid := by
    intro c _ href hname
    rw [Docker.name_of_isRef href] at hname
    cases hname
  cases pc with
  | stop =>
    rw [ensureStep, Docker.perform_calls]
    split
    · exact hruns.halt hne
    · exact hruns
  | remove =>
    rw [ensureStep, Docker.perform_calls]
    split
    · exact hruns.remove hne
    · exact hruns
  | create =>
    rw [ensureStep]
    split
    · rw [Docker.perform_calls]
      split
      · exact hruns.create
      · exact hruns
    · exact hruns
  | run id =>
    rw [ensureStep, Docker.perform_calls]
    split
    · exact hruns.start
    · exact hruns
  | inspect =>
    simp only [ensureStep]
    repeat' split
    all_goals exact hruns
  | _ => exact hruns

/-- What `ensureDatabase` is about to start is the container it has created. -/
theorem ensureStep_created {uuid id : Str} {pc : EnsurePc}
    (hnext : (ensureStep r uuid d db ctx x pc).2 = .next (.run id)) :
    ∀ c ∈ d.perform (ensureStep r uuid d db ctx x pc).1, c.id = id → c.name = .database uuid := by
  intro c hmem hid
  cases pc with
  | create =>
    simp only [ensureStep] at hnext hmem
    split at hnext
    · next hfree =>
      rw [if_pos hfree] at hmem
      split at hnext
      · next hok =>
        cases hnext
        rw [Docker.perform_calls, if_pos (Answer.effect_of_ok hok)] at hmem
        rcases List.mem_append.mp hmem with hold | hnew
        · exact absurd hid (of_decide_eq_true (List.all_eq_true.mp hfree c hold)).2
        · rw [List.mem_singleton.mp hnew]
      · cases hnext
    · cases hnext
  | _ => simp only [ensureStep] at hnext; grind

/-! ## The steps of a start -/

theorem Move.goes_of {S : Inst → Docker → Bool → StartPc → Prop} {ctx' : Bool} {pc : StartPc}
    (hmu : e.inst.opMu = some ⟨ctx', .start spec pc⟩)
    (hS : S e.inst (d.perform e.call) ctx' pc) : e.Goes d S := .inr ⟨ctx', spec, pc, hmu, hS⟩

/-- A start leaves nothing behind if what it starts comes up only in a call that succeeds. -/
theorem startStep_clean {pc : StartPc} (hclean : StartClean i d pc)
    (huncut : ∀ id, pc = .run id → x.answer.effect ctx = true → x.answer.ok ctx = true)
    (hs : startStep r d i ctx spec x pc = some e) :
    e.Goes d fun i d _ pc => StartClean i d pc := by
  cases pc with
  | begin =>
    obtain ⟨htracks, htracked⟩ := hclean
    simp only [startStep] at hs
    split at hs
    · cases hs
      exact .inl rfl
    · next hidle =>
      cases hs
      have hnone := htracks.not_up (by simpa using (not_or.mp hidle).1)
      refine Move.goes_of rfl ⟨(Record.containerID_apply rfl).trans hnone, ?_⟩
      rintro ⟨c, hmem, hname, hrun⟩
      have := htracked c hmem hname hrun
      rw [hnone] at this
      cases this
  | prepare =>
    cases hs
    refine Move.goes_of rfl ?_
    split
    · split <;> exact hclean
    · exact hclean
  | lockDb =>
    simp only [startStep] at hs
    split at hs
    · cases hs
    · cases hs
      exact Move.goes_of rfl hclean
  | ensure pc =>
    have hi : i.Clean d := by
      cases pc with
      | run id => exact hclean.1
      | _ => exact hclean
    have hdb : ∀ id, pc = .run id → ∀ c ∈ d, c.id = id → c.name = .database i.uuid := by
      rintro id rfl
      exact hclean.2
    simp only [startStep] at hs
    split at hs
    · cases hs
    · next db _ =>
      have hno : ¬ (d.perform (ensureStep r i.uuid d db ctx x _).1).Runs (.game i.uuid) :=
        ensureStep_not_runs hi.2 hdb
      split at hs
      · next call pc' heq =>
        cases hs
        rw [heq] at hno
        refine Move.goes_of rfl ?_
        cases pc' with
        | run id =>
          have hid := ensureStep_created (congrArg Prod.snd heq)
          rw [heq] at hid
          exact ⟨⟨hi.1, hno⟩, hid⟩
        | _ => exact ⟨hi.1, hno⟩
      · next heq =>
        cases hs
        rw [heq] at hno
        exact Move.goes_of rfl ⟨hi.1, hno⟩
      · next heq =>
        cases hs
        rw [heq] at hno
        exact Move.goes_of rfl ⟨hi.1, hno⟩
  | removeOld =>
    cases hs
    refine Move.goes_of rfl ⟨hclean.1, fun hruns => hclean.2 ?_⟩
    rw [Docker.perform_calls] at hruns
    split at hruns
    · exact hruns.of_remove
    · exact hruns
  | create =>
    simp only [startStep] at hs
    split at hs
    · cases hs
      have hkeep : i.Clean (d.perform (calls (x.answer.effect ctx)
          (.create ⟨x.id, .game i.uuid, .created, none, r⟩))) := by
        refine ⟨hclean.1, fun hruns => hclean.2 ?_⟩
        rw [Docker.perform_calls] at hruns
        split at hruns
        · exact hruns.of_create rfl
        · exact hruns
      refine Move.goes_of rfl ?_
      dsimp only
      split
      · next hok =>
        refine ⟨hkeep, ⟨x.id, .game i.uuid, .created, none, r⟩, ?_, rfl, rfl⟩
        rw [Docker.perform_calls, if_pos (Answer.effect_of_ok hok)]
        exact List.mem_append_right _ (List.mem_singleton_self _)
      · exact hkeep
    · cases hs
      exact Move.goes_of rfl hclean
  | attach id =>
    cases hs
    refine Move.goes_of rfl ?_
    split
    · exact hclean
    · exact hclean.1
  | run id =>
    cases hs
    refine Move.goes_of rfl ?_
    dsimp only
    split
    · trivial
    · next hok =>
      -- the call has failed, so it has had no effect
      rw [Docker.perform_calls, if_neg fun heffect => hok (huncut id rfl heffect)]
      exact hclean.1
  | cleanup id =>
    cases hs
    refine Move.goes_of rfl ⟨hclean.1, fun hruns => hclean.2 ?_⟩
    rw [Docker.perform_calls] at hruns
    split at hruns
    · exact hruns.of_remove
    · exact hruns
  | fail =>
    cases hs
    exact .inl rfl
  | track id =>
    cases hs
    exact .inl rfl

/-- The call that starts the container takes effect and fails all the same. -/
theorem startStep_cut {id : Str} (hclean : StartClean i d (.run id))
    (heffect : x.answer.effect ctx = true) (hok : x.answer.ok ctx = false)
    (hs : startStep r d i ctx spec x (.run id) = some e) : e.Goes d StartLost := by
  obtain ⟨hi, c, hmem, hid, hname⟩ := hclean
  cases hs
  have hended : x.answer.context ctx = false := by
    cases hx : x.answer with
    | done => rw [hx] at heffect hok; exact absurd (heffect.symm.trans hok) (by decide)
    | failed => rw [hx] at heffect; cases heffect
    | cut effect => rfl
  refine Move.goes_of rfl ?_
  rw [hok, Docker.perform_calls, if_pos heffect]
  exact ⟨⟨hi.1, Docker.runs_start hmem hid hname⟩, hended⟩

/-- Under a context that has ended, the clean-up removes nothing. -/
theorem startStep_lost {pc : StartPc} (hlost : StartLost i d ctx pc)
    (hs : startStep r d i ctx spec x pc = some e) : e.Goes d StartLost := by
  cases pc with
  | cleanup id =>
    obtain ⟨hi, rfl⟩ := hlost
    cases hs
    refine Move.goes_of rfl ?_
    rw [Answer.effect_ended]
    exact hi
  | fail =>
    cases hs
    exact .inl rfl
  | _ => exact hlost.elim

/-- An old container that runs goes with its removal by name, or stays to the end. -/
theorem startStep_dirty {pc : StartPc} (hdirty : StartDirty i d pc)
    (hs : startStep r d i ctx spec x pc = some e) :
    if pc = .removeOld ∧ x.answer.effect ctx = true then e.Goes d fun i d _ pc => StartClean i d pc
    else e.Goes d fun i d _ pc => StartDirty i d pc := by
  cases pc with
  | begin =>
    obtain ⟨htracks, c, hmem, hname, hrun, -⟩ := hdirty
    rw [if_neg (by simp)]
    simp only [startStep] at hs
    split at hs
    · cases hs
      exact .inl rfl
    · next hidle =>
      cases hs
      have hnone := htracks.not_up (by simpa using (not_or.mp hidle).1)
      exact Move.goes_of rfl ⟨(Record.containerID_apply rfl).trans hnone, c, hmem, hname, hrun⟩
  | prepare =>
    rw [if_neg (by simp)]
    cases hs
    refine Move.goes_of rfl ?_
    split
    · split <;> exact hdirty
    · exact hdirty
  | lockDb =>
    rw [if_neg (by simp)]
    simp only [startStep] at hs
    split at hs
    · cases hs
    · cases hs
      exact Move.goes_of rfl hdirty
  | ensure pc =>
    rw [if_neg (by simp)]
    simp only [startStep] at hs
    split at hs
    · cases hs
    · next db _ =>
      have hruns : (d.perform (ensureStep r i.uuid d db ctx x pc).1).Runs (.game i.uuid) :=
        ensureStep_runs hdirty.2
      split at hs
      all_goals
        next heq =>
        cases hs
        rw [heq] at hruns
        exact Move.goes_of rfl ⟨hdirty.1, hruns⟩
  | removeOld =>
    cases hs
    split
    · next heffect =>
      refine Move.goes_of rfl ⟨hdirty.1, ?_⟩
      rw [heffect.2]
      exact Docker.not_runs_remove
    · next heffect =>
      refine Move.goes_of rfl ?_
      rw [Docker.perform_calls, if_neg fun h => heffect ⟨rfl, h⟩]
      exact hdirty
  | create =>
    rw [if_neg (by simp)]
    simp only [startStep] at hs
    rw [Docker.not_free_of_runs hdirty.2] at hs
    cases hs
    exact Move.goes_of rfl hdirty
  | fail =>
    rw [if_neg (by simp)]
    cases hs
    exact .inl rfl
  | _ => exact hdirty.elim

/-! ## A run of a start -/

namespace Manager

theorem goOn_eq_some (hs : m.goOn r x = some m') :
    ∃ h e, (m.recs r).opMu = some h ∧ workStep r m.docker (m.recs r) h x = some e ∧
      m'.recs r = e.inst ∧ m'.docker = m.docker.perform e.call := by
  obtain ⟨h, e, hmu, he, rfl⟩ := work_eq_some hs
  exact ⟨h, e, hmu, he, set_recs_self, rfl⟩

/-- A start holds the lock, and stands so. -/
def Stands (m : Manager) (r : ℕ) (S : Inst → Docker → Bool → StartPc → Prop) : Prop :=
  ∃ ctx spec pc, (m.recs r).opMu = some ⟨ctx, .start spec pc⟩ ∧ S (m.recs r) m.docker ctx pc

def Clean (m : Manager) (r : ℕ) : Prop := m.Stands r fun i d _ pc => StartClean i d pc

def Dirty (m : Manager) (r : ℕ) : Prop := m.Stands r fun i d _ pc => StartDirty i d pc

def Lost (m : Manager) (r : ℕ) : Prop := m.Stands r StartLost

variable {S : Inst → Docker → Bool → StartPc → Prop}

theorem Stands.next {ctx : Bool} {pc : StartPc} (hmu : (m.recs r).opMu = some ⟨ctx, .start spec pc⟩)
    (hs : m.goOn r x = some m') :
    ∃ e, startStep r m.docker (m.recs r) ctx spec x pc = some e ∧
      (e.Goes m.docker S → (m'.recs r).opMu = none ∨ m'.Stands r S) := by
  obtain ⟨h, e, hmu', he, hrec, hdocker⟩ := goOn_eq_some hs
  cases hmu.symm.trans hmu'
  refine ⟨e, he, fun hgoes => ?_⟩
  rw [Stands, hrec, hdocker]
  exact hgoes

/-- Once the operation has returned there is no run of it left, and none that ends with an error. -/
theorem not_fails_of_over (hover : (m.recs r).opMu = none) (hrun : exec (goOn r) m xs = some m') :
    ¬ m'.Fails r := by
  cases xs with
  | nil =>
    cases hrun
    rintro (⟨ctx, spec, hmu⟩ | ⟨⟨ctx, spec, hmu⟩, -⟩) <;> cases hover.symm.trans hmu
  | cons x xs =>
    obtain ⟨m₁, hs, -⟩ := exec_cons_eq_some.mp hrun
    obtain ⟨h, -, hmu, -⟩ := goOn_eq_some hs
    cases hover.symm.trans hmu

/-- A game that runs is a stray one where nothing is tracked. -/
theorem stray_iff_runs (hnone : (m.recs r).record.containerID = none) :
    m.Stray r ↔ m.docker.Runs (.game (m.recs r).uuid) := by
  rw [Stray, hnone, Docker.Runs]
  simp

theorem Clean.step (hm : m.Clean r) (hs : m.goOn r x = some m') :
    if m.Uncut r x then (m'.recs r).opMu = none ∨ m'.Clean r
    else (m'.recs r).opMu = none ∨ m'.Lost r := by
  obtain ⟨ctx, spec, pc, hmu, hclean⟩ := hm
  split
  · next huncut =>
    obtain ⟨e, he, hgoes⟩ := Stands.next (S := fun i d _ pc => StartClean i d pc) hmu hs
    refine hgoes (startStep_clean hclean (fun id hpc => ?_) he)
    rw [Uncut, hmu, hpc] at huncut
    exact huncut
  · next hcut =>
    obtain ⟨e, he, hgoes⟩ := Stands.next (S := StartLost) hmu hs
    refine hgoes ?_
    rw [Uncut, hmu] at hcut
    cases pc with
    | run id =>
      obtain ⟨heffect, hok⟩ := Classical.not_imp.mp hcut
      exact startStep_cut hclean heffect (by simpa using hok) he
    | _ => exact absurd trivial hcut

theorem Lost.step (hm : m.Lost r) (hs : m.goOn r x = some m') :
    (m'.recs r).opMu = none ∨ m'.Lost r := by
  obtain ⟨ctx, spec, pc, hmu, hlost⟩ := hm
  obtain ⟨e, he, hgoes⟩ := Stands.next (S := StartLost) hmu hs
  exact hgoes (startStep_lost hlost he)

theorem Dirty.uncut (hm : m.Dirty r) : m.Uncut r x := by
  obtain ⟨ctx, spec, pc, hmu, hdirty⟩ := hm
  rw [Uncut, hmu]
  cases pc with
  | run id => exact hdirty.elim
  | _ => trivial

theorem Dirty.step (hm : m.Dirty r) (hs : m.goOn r x = some m') :
    if m.Keeping r x then (m'.recs r).opMu = none ∨ m'.Dirty r
    else (m'.recs r).opMu = none ∨ m'.Clean r := by
  obtain ⟨ctx, spec, pc, hmu, hdirty⟩ := hm
  split
  · next hkeep =>
    obtain ⟨e, he, hgoes⟩ := Stands.next (S := fun i d _ pc => StartDirty i d pc) hmu hs
    have hstep := startStep_dirty hdirty he
    rw [if_neg] at hstep
    · exact hgoes hstep
    · rintro ⟨rfl, heffect⟩
      rw [Keeping, hmu] at hkeep
      exact absurd (heffect.symm.trans hkeep) (by decide)
  · next hkeep =>
    obtain ⟨e, he, hgoes⟩ := Stands.next (S := fun i d _ pc => StartClean i d pc) hmu hs
    have hstep := startStep_dirty hdirty he
    rw [if_pos] at hstep
    · exact hgoes hstep
    · rw [Keeping, hmu] at hkeep
      cases pc with
      | removeOld => exact ⟨rfl, by simpa using hkeep⟩
      | _ => exact absurd trivial hkeep

/-! ### Where it ends -/

theorem Clean.not_stray (hm : m.Clean r) (hfails : m.Fails r) : ¬ m.Stray r := by
  obtain ⟨ctx, spec, pc, hmu, hclean⟩ := hm
  rcases hfails with ⟨ctx', spec', hmu'⟩ | ⟨⟨ctx', spec', hmu'⟩, -⟩
  · cases hmu.symm.trans hmu'
    rw [stray_iff_runs hclean.1]
    exact hclean.2
  · cases hmu.symm.trans hmu'
    rintro ⟨c, hmem, hname, hrun, hne⟩
    exact hne (hclean.2 c hmem hname hrun)

theorem Lost.stray (hm : m.Lost r) (hfails : m.Fails r) : m.Stray r := by
  obtain ⟨ctx, spec, pc, hmu, hlost⟩ := hm
  rcases hfails with ⟨ctx', spec', hmu'⟩ | ⟨⟨ctx', spec', hmu'⟩, -⟩
  · cases hmu.symm.trans hmu'
    exact (stray_iff_runs hlost.1).mpr hlost.2
  · cases hmu.symm.trans hmu'
    exact hlost.elim

theorem Dirty.stray (hm : m.Dirty r) (hfails : m.Fails r) : m.Stray r := by
  obtain ⟨ctx, spec, pc, hmu, hdirty⟩ := hm
  rcases hfails with ⟨ctx', spec', hmu'⟩ | ⟨⟨ctx', spec', hmu'⟩, -⟩
  · cases hmu.symm.trans hmu'
    exact (stray_iff_runs hdirty.1).mpr hdirty.2
  · cases hmu.symm.trans hmu'
    exact hdirty.2

/-- The last step changes neither what runs nor what is tracked. -/
theorem stray_of_fails (hfails : m.Fails r) (hs : m.goOn r x = some m') :
    m'.Stray r ↔ m.Stray r := by
  obtain ⟨h, e, hmu, he, hrec, hdocker⟩ := goOn_eq_some hs
  rw [Stray, Stray, hrec, hdocker]
  rcases hfails with ⟨ctx, spec, hmu'⟩ | ⟨⟨ctx, spec, hmu'⟩, hinst⟩
  · cases hmu.symm.trans hmu'
    cases he
    exact Iff.rfl
  · cases hmu.symm.trans hmu'
    simp only [workStep, startStep, hinst, or_true, if_true] at he
    cases he
    exact Iff.rfl

theorem Lost.run (hm : m.Lost r) (hrun : exec (goOn r) m xs = some m') (hfails : m'.Fails r) :
    m'.Stray r := by
  induction xs generalizing m with
  | nil =>
    cases hrun
    exact hm.stray hfails
  | cons x xs ih =>
    obtain ⟨m₁, hs, hrest⟩ := exec_cons_eq_some.mp hrun
    rcases hm.step hs with hover | hlost
    · exact absurd hfails (not_fails_of_over hover hrest)
    · exact ih hlost hrest

theorem Clean.run (hm : m.Clean r) (hrun : exec (goOn r) m xs = some m') (hfails : m'.Fails r) :
    ¬ m'.Stray r ↔ Along (goOn r) (Uncut r) m xs := by
  induction xs generalizing m with
  | nil =>
    cases hrun
    exact iff_of_true (hm.not_stray hfails) trivial
  | cons x xs ih =>
    obtain ⟨m₁, hs, hrest⟩ := exec_cons_eq_some.mp hrun
    have hstep := hm.step hs
    rw [along_cons hs]
    split at hstep
    · next huncut =>
      rcases hstep with hover | hclean
      · exact absurd hfails (not_fails_of_over hover hrest)
      · rw [ih hclean hrest]
        exact (and_iff_right huncut).symm
    · next hcut =>
      rcases hstep with hover | hlost
      · exact absurd hfails (not_fails_of_over hover hrest)
      · exact iff_of_false (not_not.mpr (hlost.run hrest hfails)) fun h => hcut h.1

theorem Dirty.run (hm : m.Dirty r) (hrun : exec (goOn r) m xs = some m') (hfails : m'.Fails r) :
    ¬ m'.Stray r ↔
      ¬ Along (goOn r) (Keeping r) m xs ∧ Along (goOn r) (Uncut r) m xs := by
  induction xs generalizing m with
  | nil =>
    cases hrun
    exact iff_of_false (not_not.mpr (hm.stray hfails)) fun h => h.1 trivial
  | cons x xs ih =>
    obtain ⟨m₁, hs, hrest⟩ := exec_cons_eq_some.mp hrun
    have hstep := hm.step hs
    rw [along_cons hs, along_cons hs, and_iff_right hm.uncut]
    split at hstep
    · next hkeep =>
      rcases hstep with hover | hdirty
      · exact absurd hfails (not_fails_of_over hover hrest)
      · rw [and_iff_right hkeep]
        exact ih hdirty hrest
    · next hkeep =>
      rcases hstep with hover | hclean
      · exact absurd hfails (not_fails_of_over hover hrest)
      · rw [hclean.run hrest hfails]
        exact (and_iff_right fun h => hkeep h.1).symm

/-- Where `startLocked` begins in a reachable state and returns an error, whatever calls have failed
on the way: nothing untracked runs then, if and only if the call that starts the container has taken
effect only where it succeeded, and what may have run untracked at the beginning has been removed. -/
theorem start_failure_leaves_nothing (hd : d.Named)
    (hreach : exec step (boot d listed) as = some m) (hbegins : m.Begins r)
    (hrun : exec (goOn r) m xs = some m') (hfails : m'.Fails r) (hend : m'.goOn r x = some m'') :
    ¬ m''.Stray r ↔
      (m.Stray r → ¬ Along (goOn r) (Keeping r) m xs) ∧ Along (goOn r) (Uncut r) m xs := by
  have htracks := ((recs_run keeps_tracks hd hreach).2 r).record
  obtain ⟨ctx, spec, hmu⟩ := hbegins
  rw [stray_of_fails hfails hend]
  by_cases hstray : m.Stray r
  · have hdirty : m.Dirty r := ⟨ctx, spec, .begin, hmu, htracks, hstray⟩
    rw [hdirty.run hrun hfails]
    simp [hstray]
  · have hclean : m.Clean r := by
      refine ⟨ctx, spec, .begin, hmu, htracks, fun c hmem hname hrunning => ?_⟩
      by_contra hne
      exact hstray ⟨c, hmem, hname, hrunning, hne⟩
    rw [hclean.run hrun hfails]
    simp [hstray]

/-- The answers to a start whose last call is the one that starts the container. -/
def lastCall (last : Answer) : List Reply :=
  List.replicate 5 (.fine "1") ++ [{ Reply.fine "1" with answer := last }, .fine "1"]

/-- Docker refuses to start the container, which is then removed. -/
theorem start_failure_leaves_nothing_refused :
    ∃ m m' m'', exec step (boot [] true) ((starting 0 "1").take 2) = some m ∧
      exec (goOn 0) m (lastCall .failed) = some m' ∧ m'.Fails 0 ∧
      m'.goOn 0 (.fine "1") = some m'' ∧ ¬ m''.Stray 0 := by
  have hreach : exec step (boot [] true) ((starting 0 "1").take 2) = some _ := rfl
  have hiff := start_failure_leaves_nothing Docker.named_nil hreach ⟨true, game, rfl⟩
    (show exec (goOn 0) _ (lastCall .failed) = some _ from rfl) (.inl ⟨true, game, rfl⟩)
    (show goOn 0 _ (.fine "1") = some _ from rfl)
  refine ⟨_, _, _, hreach, rfl, .inl ⟨true, game, rfl⟩, rfl, hiff.mpr ⟨?_, by decide +kernel⟩⟩
  rintro ⟨c, hmem, -⟩
  cases hmem

/-- The connection is lost while Docker starts the container. -/
theorem start_cut_leaves_container :
    ∃ m m' m'', exec step (boot [] true) ((starting 0 "1").take 2) = some m ∧ m.Begins 0 ∧
      exec (goOn 0) m (lastCall (.cut true)) = some m' ∧ m'.Fails 0 ∧
      m'.goOn 0 (.fine "1") = some m'' ∧ m''.Stray 0 := by
  refine ⟨_, _, _, rfl, ⟨true, game, rfl⟩, rfl, .inl ⟨false, game, rfl⟩, rfl, ?_⟩
  exact ⟨⟨"1".toList, .game "a".toList, .running, none, 0⟩, List.mem_singleton_self _, rfl, rfl,
    fun h => nomatch h⟩

end Manager

end Instances
