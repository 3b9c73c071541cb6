import Gsm.Instances.Effects
import Gsm.Instances.Tracked

/-!
# The database of a running game

Dumps and imports start the database for themselves if it does not run and stop it afterwards, unless
a container of the game is tracked then. What keeps it up for a game that starts meanwhile is `dbMu`:
once a start has let go of it the database runs, so a task that gets the lock after that finds it
running and will not stop it.
-/

open GoStd Machine

namespace Instances

/-! ## Where the work stands -/

/-- The work is done under `dbMu`. -/
def Work.usesDb : Work → Bool
  | .start _ pc =>
      match pc with
      | .ensure _ => true
      | _ => false
  | .idle _ pc => pc ≠ .lockDb
  | _ => false

/-- A start that has a database and has let go of `dbMu`. -/
def Work.served : Work → Bool
  | .start spec pc =>
      spec.database.isSome &&
        match pc with
        | .removeOld => true
        | .create => true
        | .attach _ => true
        | .run _ => true
        | .track _ => true
        | _ => false
  | _ => false

/-- The work is part of a `Remove`. -/
def Work.removal : Work → Bool
  | .stop (.remove _) _ => true
  | .idle (some _) _ => true
  | .remove .. => true
  | _ => false

/-- The task is about to stop the database. -/
def WithPc.stops : WithPc → Bool
  | .stopInspect => true
  | .stop => true
  | _ => false

/-- The task has found that the database does not run. -/
def WithPc.down (ctx : Bool) : WithPc → Bool
  | .ensure .network => ctx
  | .ensure .wait => false
  | .ensure _ => true
  | _ => false

/-- The task has not found that the database does not run, or cannot go on. -/
def WithPc.quiet (ctx : Bool) : WithPc → Bool
  | .inspect => true
  | .wait => true
  | .ensure .network => !ctx
  | .use running => running
  | _ => false

/-! ## Ids -/

/-- The containers of the game and of an install that the work speaks of. -/
def Work.ids : Work → List Str
  | .install _ pc =>
      match pc with
      | .attach id => [id]
      | .run id => [id]
      | .wait id => [id]
      | .kill id => [id]
      | .finish _ id => id.toList
      | .cleanup id => [id]
      | _ => []
  | .start _ pc =>
      match pc with
      | .attach id => [id]
      | .run id => [id]
      | .cleanup id => [id]
      | .track id => [id]
      | _ => []
  | .stop _ pc =>
      match pc with
      | .begin _ => []
      | .command id => [id]
      | .signal id => [id]
      | .signalled id => [id]
      | .kill id => [id]
      | .killed id => [id]
  | _ => []

/-- The database container that `ensureDatabase` has made and is about to start. -/
def EnsurePc.ids : EnsurePc → List Str
  | .run id => [id]
  | _ => []

def Work.dbIds : Work → List Str
  | .start _ pc =>
      match pc with
      | .ensure pc => pc.ids
      | _ => []
  | _ => []

def DbHolder.ids : DbHolder → List Str
  | .op => []
  | .task _ _ pc =>
      match pc with
      | .ensure pc => pc.ids
      | _ => []

def Inst.ids (i : Inst) : List Str :=
  i.record.containerID.toList ++ i.opMu.elim [] fun h => h.work.ids

def Inst.dbIds (i : Inst) : List Str :=
  (i.opMu.elim [] fun h => h.work.dbIds) ++ i.dbMu.elim [] DbHolder.ids

variable {r r' : ℕ} {d : Docker} {i : Inst} {ctx : Bool} {spec : InstanceSpec} {x : Reply}
  {e : Move} {w : Work} {h : Holder} {db : DatabaseSpec} {m m' : Manager} {a : Manager.Action}
  {as : List Manager.Action} {listed : Bool} {uuid id : Str} {call : Docker.Call} {ref : Ref}

/-- What the work and its call speak of: what was spoken of before, or has just been created. -/
structure Move.Speaks (e : Move) (uuid : Str) (w : Work) : Prop where
  refs : ∀ call ref, e.call = some call → call.target = some ref →
    (∃ id ∈ w.ids, ref = .id id) ∨ ref = .name (.game uuid) ∨ ref = .name (.install uuid) ∨
      w.usesDb = true ∧ (ref = .name (.database uuid) ∨ ∃ id ∈ w.dbIds, ref = .id id)
  ids : ∀ h, e.inst.opMu = some h → ∀ id ∈ h.work.ids,
    id ∈ w.ids ∨ e.inst.record.containerID = some id ∨
      ∃ c, e.call = some (.create c) ∧ c.id = id ∧ ∀ uuid, c.name ≠ .database uuid
  dbIds : ∀ h, e.inst.opMu = some h → ∀ id ∈ h.work.dbIds,
    ∃ c, e.call = some (.create c) ∧ c.id = id ∧ c.name = .database uuid
  watch : ∀ id, e.watch = some id → id ∈ w.ids
  deleted : e.deleted = false

theorem ensureStep_speaks {pc : EnsurePc} :
    (∀ call ref, (ensureStep r uuid d db ctx x pc).1 = some call → call.target = some ref →
      ref = .name (.database uuid) ∨ ∃ id ∈ pc.ids, ref = .id id) ∧
    ∀ pc', (ensureStep r uuid d db ctx x pc).2 = .next pc' → ∀ id ∈ pc'.ids,
      ∃ c, (ensureStep r uuid d db ctx x pc).1 = some (.create c) ∧ c.id = id ∧
        c.name = .database uuid := by
  have hok := @Answer.effect_of_ok ctx x.answer
  cases pc <;> simp only [ensureStep, calls] <;> refine ⟨?_, ?_⟩ <;>
    grind [Docker.Call.target, EnsurePc.ids]

theorem startStep_refs {pc : StartPc} (hs : startStep r d i ctx spec x pc = some e)
    (hpc : ∀ pc', pc ≠ .ensure pc') :
    (∀ call ref, e.call = some call → call.target = some ref →
      (∃ id ∈ (Work.start spec pc).ids, ref = .id id) ∨ ref = .name (.game i.uuid)) ∧
      (∀ id, e.watch = some id → id ∈ (Work.start spec pc).ids) ∧ e.deleted = false := by
  cases pc with
  | ensure pc => exact absurd rfl (hpc pc)
  | _ =>
    simp only [startStep, Move.of, calls] at hs
    refine ⟨?_, ?_, ?_⟩ <;> grind [Work.ids, Docker.Call.target]

/-- `Start` goes on with the container it has, or with the one it has just created. -/
theorem startStep_ids {pc : StartPc} (hs : startStep r d i ctx spec x pc = some e)
    (hpc : ∀ pc', pc ≠ .ensure pc') (hmu : e.inst.opMu = some h) :
    h.work.dbIds = [] ∧ ∀ id ∈ h.work.ids, id ∈ (Work.start spec pc).ids ∨
      ∃ c, e.call = some (.create c) ∧ c.id = id ∧ ∀ uuid, c.name ≠ .database uuid := by
  have hok := @Answer.effect_of_ok ctx x.answer
  cases pc with
  | ensure pc => exact absurd rfl (hpc pc)
  | _ =>
    simp only [startStep, Move.of, calls] at hs
    grind [Work.ids, Work.dbIds, EnsurePc.ids, Inst.next, Inst.unlock]

theorem startStep_speaks {pc : StartPc} (hs : startStep r d i ctx spec x pc = some e) :
    e.Speaks i.uuid (.start spec pc) := by
  by_cases hpc : ∃ pc', pc = .ensure pc'
  · obtain ⟨pc, rfl⟩ := hpc
    have hok := @Answer.effect_of_ok ctx x.answer
    simp only [startStep] at hs
    split at hs
    · cases hs
    · next db _ =>
      obtain ⟨hrefs, hids⟩ := @ensureStep_speaks r d ctx x db i.uuid pc
      split at hs <;> cases hs <;> constructor <;>
        grind [Work.ids, Work.dbIds, Work.usesDb, Inst.next]
  · have hpc : ∀ pc', pc ≠ .ensure pc' := fun pc' h => hpc ⟨pc', h⟩
    obtain ⟨hrefs, hwatch, hdeleted⟩ := startStep_refs hs hpc
    refine ⟨fun call ref hcall href => ?_, fun h hh id hid => ?_, fun h hh id hid => ?_, hwatch, hdeleted⟩
    · rcases hrefs call ref hcall href with hown | hname
      · exact .inl hown
      · exact .inr (.inl hname)
    · rcases (startStep_ids hs hpc hh).2 id hid with hold | hnew
      · exact .inl hold
      · exact .inr (.inr hnew)
    · rw [(startStep_ids hs hpc hh).1] at hid
      cases hid

theorem installStep_refs {pc : InstallPc} (hs : installStep r d i ctx spec x pc = some e) :
    (∀ call ref, e.call = some call → call.target = some ref →
      (∃ id ∈ (Work.install spec pc).ids, ref = .id id) ∨ ref = .name (.install i.uuid)) ∧
      e.watch = none ∧ e.deleted = false := by
  cases pc <;> simp only [installStep, Move.of, calls] at hs <;> refine ⟨?_, ?_, ?_⟩ <;>
    grind [Work.ids, Docker.Call.target]

/-- `Install` goes on with the container it has, or with the one it has just created. -/
theorem installStep_ids {pc : InstallPc} (hs : installStep r d i ctx spec x pc = some e)
    (hmu : e.inst.opMu = some h) :
    h.work.dbIds = [] ∧ ∀ id ∈ h.work.ids, id ∈ (Work.install spec pc).ids ∨
      ∃ c, e.call = some (.create c) ∧ c.id = id ∧ ∀ uuid, c.name ≠ .database uuid := by
  have hok := @Answer.effect_of_ok ctx x.answer
  have hfail : ∀ ctx' id h, (i.failInstall ctx' spec x id).opMu = some h →
      h.work.ids = id.toList ∧ h.work.dbIds = [] := by
    intro ctx' id h hh
    cases hh
    exact ⟨rfl, rfl⟩
  cases pc <;> simp only [installStep, Move.of, calls] at hs <;>
    grind [Work.ids, Work.dbIds, Inst.next, Inst.unlock]

theorem installStep_speaks {pc : InstallPc} (hs : installStep r d i ctx spec x pc = some e) :
    e.Speaks i.uuid (.install spec pc) := by
  obtain ⟨hrefs, hwatch, hdeleted⟩ := installStep_refs hs
  refine ⟨fun call ref hcall href => ?_, fun h hh id hid => ?_, fun h hh id hid => ?_,
    fun id hid => ?_, hdeleted⟩
  · rcases hrefs call ref hcall href with hown | hname
    · exact .inl hown
    · exact .inr (.inr (.inl hname))
  · rcases (installStep_ids hs hh).2 id hid with hold | hnew
    · exact .inl hold
    · exact .inr (.inr hnew)
  · rw [(installStep_ids hs hh).1] at hid
    cases hid
  · rw [hwatch] at hid
    cases hid

theorem stopped_ids {ok : Bool} {k : Stopping} (hmu : (i.stopped ctx ok k).opMu = some h) :
    h.work.ids = [] ∧ h.work.dbIds = [] := by
  cases k with
  | stop =>
    rw [Inst.stopped] at hmu
    split at hmu <;> cases hmu
    exact ⟨rfl, rfl⟩
  | restart spec =>
    rw [Inst.stopped] at hmu
    split at hmu <;> cases hmu
    exact ⟨rfl, rfl⟩
  | remove deleteFiles =>
    rw [Inst.stopped] at hmu
    cases hmu
    split <;> exact ⟨rfl, rfl⟩

theorem stopStep_speaks {pc : StopPc} {k : Stopping} (hs : stopStep i ctx k x pc = some e) :
    e.Speaks i.uuid (.stop k pc) := by
  have hstopped : ∀ (j : Inst) ctx' ok h, (j.stopped ctx' ok k).opMu = some h →
      h.work.ids = [] ∧ h.work.dbIds = [] := fun _ _ _ _ => stopped_ids
  have hid : (i.record.apply .stop).1.containerID = i.record.containerID :=
    Record.containerID_apply rfl
  cases pc <;> simp only [stopStep, waitStep, Move.of, calls] at hs <;> constructor <;>
    grind [Work.ids, Work.dbIds, Docker.Call.target, Inst.next]

theorem idleStep_speaks {pc : IdlePc} {remove : Option Bool}
    (hs : idleStep d i ctx remove x pc = some e) : e.Speaks i.uuid (.idle remove pc) := by
  have hidled : ∀ h, (i.idled ctx remove).opMu = some h → h.work.ids = [] ∧ h.work.dbIds = [] := by
    intro h hh
    cases remove <;> cases hh
    exact ⟨rfl, rfl⟩
  cases pc <;> simp only [idleStep, Move.of, calls] at hs <;> constructor <;>
    grind [Work.ids, Work.dbIds, Work.usesDb, Docker.Call.target, Inst.next]

theorem crashStep_holder (hmu : (crashStep i).opMu = some h) : ∃ spec, h = ⟨true, .start spec .begin⟩ := by
  rw [crashStep] at hmu
  split at hmu
  · cases hmu
  · split at hmu
    · cases hmu
    · cases hmu
      exact ⟨_, rfl⟩

theorem workStep_speaks (hs : workStep r d i h x = some e) (hno : h.work.removal = false) :
    e.Speaks i.uuid h.work := by
  rw [workStep] at hs
  split at hs
  · next hw => exact hw ▸ installStep_speaks hs
  · next hw => exact hw ▸ startStep_speaks hs
  · next hw => exact hw ▸ stopStep_speaks hs
  · next hw => exact hw ▸ idleStep_speaks hs
  · next hw => rw [hw] at hno; cases hno
  · cases hs
    refine ⟨fun call ref hcall => ?_, fun h hh id hid => ?_, fun h hh id hid => ?_, fun id hid => ?_, rfl⟩
    · cases hcall
    · obtain ⟨spec, rfl⟩ := crashStep_holder hh
      cases hid
    · obtain ⟨spec, rfl⟩ := crashStep_holder hh
      cases hid
    · cases hid

theorem withStep_speaks {pc : WithPc} :
    (∀ call ref, (withStep r d i db ctx x pc).2 = some call → call.target = some ref →
      ref = .name (.database i.uuid) ∨ ∃ id ∈ (DbHolder.task db ctx pc).ids, ref = .id id) ∧
    ∀ id ∈ (withStep r d i db ctx x pc).1.dbMu.elim [] DbHolder.ids,
      ∃ c, (withStep r d i db ctx x pc).2 = some (.create c) ∧ c.id = id ∧
        c.name = .database i.uuid := by
  cases pc with
  | ensure pc =>
    obtain ⟨hrefs, hids⟩ :=
      @ensureStep_speaks r d ctx x db i.uuid pc
    simp only [withStep]
    split <;> refine ⟨?_, ?_⟩ <;> grind [DbHolder.ids]
  | _ =>
    simp only [withStep, calls]
    refine ⟨?_, ?_⟩ <;> grind [DbHolder.ids, Docker.Call.target, EnsurePc.ids]

/-! ## The locks and the database -/

/-- How the record stands with its database, which runs or not. -/
structure Inst.Safe (i : Inst) (up : Prop) : Prop where
  op : ∀ h, i.opMu = some h → h.work.usesDb = true → i.dbMu = some .op
  kept : ∀ h, i.opMu = some h → h.work.removal = false
  spec : ∀ ctx spec pc, i.opMu = some ⟨ctx, .start spec pc⟩ → pc ≠ .begin → i.spec = some spec
  idle : ∀ ctx remove pc, i.opMu = some ⟨ctx, .idle remove pc⟩ → pc = .inspect ∨ pc = .stop →
    i.record.containerID = none
  served : ∀ h, i.opMu = some h → h.work.served = true → up
  quiet : ∀ h db ctx pc, i.opMu = some h → h.work.served = true →
    i.dbMu = some (.task db ctx pc) → pc.quiet ctx = true
  tracked : ∀ db ctx pc, i.record.containerID ≠ none → i.spec.any (·.database.isSome) = true →
    i.dbMu = some (.task db ctx pc) → pc.stops = false
  down : ∀ db ctx pc, i.dbMu = some (.task db ctx pc) →
    (pc.down ctx = true → ¬ up) ∧ pc ≠ .ensure .stop

variable {up up' : Prop}

theorem safe_new : (Inst.new uuid).Safe up := by
  constructor <;> simp [Inst.new]

/-- What only changes the operation, to one that is not with the database. -/
theorem Inst.Safe.plain {i' : Inst} (hi : i.Safe up) (hup : up' ↔ up) (hrec : i'.record.containerID =
    i.record.containerID) (hspec : i'.record.containerID ≠ none → i'.spec = i.spec)
    (hdb : i'.dbMu = i.dbMu)
    (hmu : ∀ h, i'.opMu = some h → h.work.usesDb = false ∧ h.work.removal = false ∧
      h.work.served = false ∧ ∀ ctx spec pc, h = ⟨ctx, .start spec pc⟩ → pc ≠ .begin → i'.spec = some spec) :
    i'.Safe up' := by
  refine ⟨fun h hh huses => ?_, fun h hh => (hmu h hh).2.1, fun ctx spec pc hh => (hmu _ hh).2.2.2 ctx spec pc rfl,
    fun ctx remove pc hh hpc => ?_, fun h hh hserved => ?_, fun h db ctx pc hh hserved => ?_,
    fun db ctx pc htracked hany hh => ?_, fun db ctx pc hh => ?_⟩
  · rw [(hmu h hh).1] at huses
    cases huses
  · have huses := (hmu _ hh).1
    rcases hpc with rfl | rfl <;> cases huses
  · rw [(hmu h hh).2.2.1] at hserved
    cases hserved
  · rw [(hmu h hh).2.2.1] at hserved
    cases hserved
  · rw [hspec htracked] at hany
    exact hi.tracked db ctx pc (hrec ▸ htracked) hany (hdb ▸ hh)
  · rw [hup]
    exact hi.down db ctx pc (hdb ▸ hh)

/-- What follows on a stop is not with the database yet. -/
theorem stopped_plain {ok : Bool} {k : Stopping} (hk : ∀ deleteFiles, k ≠ .remove deleteFiles)
    (hmu : (i.stopped ctx ok k).opMu = some h) :
    h.work.usesDb = false ∧ h.work.removal = false ∧ h.work.served = false ∧
      ∀ ctx spec pc, h = ⟨ctx, .start spec pc⟩ → pc = .begin := by
  cases k with
  | stop =>
    rw [Inst.stopped] at hmu
    split at hmu <;> cases hmu
    exact ⟨rfl, rfl, rfl, fun _ _ _ heq => nomatch heq⟩
  | restart spec =>
    rw [Inst.stopped] at hmu
    split at hmu <;> cases hmu
    refine ⟨rfl, rfl, ?_, fun _ _ _ heq => ?_⟩
    · simp [Work.served]
    · cases heq
      rfl
  | remove deleteFiles => exact absurd rfl (hk deleteFiles)

theorem stopStep_safe {pc : StopPc} {k : Stopping} (hi : i.Safe up) (hup : up' ↔ up)
    (hk : ∀ deleteFiles, k ≠ .remove deleteFiles) (hs : stopStep i ctx k x pc = some e) :
    e.inst.Safe up' := by
  have hstopped : ∀ (j : Inst) ctx' ok, (j.stopped ctx' ok k).record = j.record ∧
      (j.stopped ctx' ok k).spec = j.spec ∧ (j.stopped ctx' ok k).dbMu = j.dbMu := by
    intro j ctx' ok
    rw [Inst.stopped_eq]
    exact ⟨rfl, rfl, rfl⟩
  have hmu : ∀ (j : Inst) ctx' ok h, (j.stopped ctx' ok k).opMu = some h →
      h.work.usesDb = false ∧ h.work.removal = false ∧ h.work.served = false ∧
        ∀ ctx spec pc, h = ⟨ctx, .start spec pc⟩ → pc = .begin :=
    fun _ _ _ _ => stopped_plain hk
  have hnext : ∀ (j : Inst) ctx' (pc' : StopPc) h, (j.next ctx' (.stop k pc')).opMu = some h →
      h.work.usesDb = false ∧ h.work.removal = false ∧ h.work.served = false ∧
        ∀ ctx spec pc, h = ⟨ctx, .start spec pc⟩ → pc = .begin := by
    intro j ctx' pc' h hh
    cases hh
    refine ⟨rfl, ?_, rfl, fun _ _ _ heq => nomatch heq⟩
    cases k with
    | remove deleteFiles => exact absurd rfl (hk deleteFiles)
    | _ => rfl
  have hid : (i.record.apply .stop).1.containerID = i.record.containerID :=
    Record.containerID_apply rfl
  refine hi.plain hup ?_ (fun _ => ?_) ?_ (fun h hh => ?_) <;>
    cases pc <;> simp only [stopStep, waitStep, Move.of] at hs <;> grind [Inst.next]

/-- What no task holds has only its operation to account for. -/
theorem Inst.safe_alone {i' : Inst} (hdb : ∀ db ctx pc, i'.dbMu ≠ some (.task db ctx pc))
    (hop : ∀ h, i'.opMu = some h → h.work.usesDb = true → i'.dbMu = some .op)
    (hkept : ∀ h, i'.opMu = some h → h.work.removal = false)
    (hspec : ∀ ctx spec pc, i'.opMu = some ⟨ctx, .start spec pc⟩ → pc ≠ .begin → i'.spec = some spec)
    (hidle : ∀ ctx remove pc, i'.opMu = some ⟨ctx, .idle remove pc⟩ → pc = .inspect ∨ pc = .stop →
      i'.record.containerID = none)
    (hserved : ∀ h, i'.opMu = some h → h.work.served = true → up) : i'.Safe up :=
  ⟨hop, hkept, hspec, hidle, hserved, fun _ db ctx pc _ _ hh => absurd hh (hdb db ctx pc),
    fun db ctx pc _ _ hh => absurd hh (hdb db ctx pc), fun db ctx pc hh => absurd hh (hdb db ctx pc)⟩

/-- A stop of the database that is part of an operation. -/
theorem idleStep_safe {pc : IdlePc} (hi : i.Safe up)
    (hmu : i.opMu = some ⟨ctx, .idle none pc⟩) (hs : idleStep d i ctx none x pc = some e) :
    e.inst.Safe up' := by
  have hop : pc ≠ .lockDb → i.dbMu = some .op := by
    intro hpc
    refine hi.op _ hmu ?_
    simpa [Work.usesDb] using hpc
  have hnone : pc = .inspect ∨ pc = .stop → i.record.containerID = none := hi.idle ctx none pc hmu
  have hid : i.record.containerID.isSome = false → i.record.containerID = none := by simp
  refine Inst.safe_alone ?_ ?_ ?_ ?_ ?_ ?_ <;>
    cases pc <;> simp only [idleStep, Inst.idled, Move.of] at hs <;>
    grind [Inst.next, Inst.unlock, Work.usesDb, Work.removal, Work.served]

theorem installStep_dbMu {pc : InstallPc} (hs : installStep r d i ctx spec x pc = some e) :
    e.inst.dbMu = i.dbMu := by
  cases pc <;> simp only [installStep, Inst.failInstall, Move.of] at hs <;>
    grind [Inst.next, Inst.unlock]

/-- Only an install of what is not up writes a spec. -/
theorem installStep_spec {pc : InstallPc} (hs : installStep r d i ctx spec x pc = some e) :
    e.inst.spec = i.spec ∨ i.record.state.isUp = false := by
  cases pc with
  | begin =>
    simp only [installStep] at hs
    split at hs
    · cases hs
      exact .inl rfl
    · next hup => exact .inr (by simp_all)
  | _ =>
    left
    simp only [installStep, Inst.failInstall, Move.of] at hs
    grind [Inst.next, Inst.unlock]

theorem installStep_safe {pc : InstallPc} (hi : i.Safe up) (hup : up' ↔ up) (htracks : i.record.Tracks)
    (hs : installStep r d i ctx spec x pc = some e) : e.inst.Safe up' := by
  have hid : e.inst.record.containerID = i.record.containerID := (installStep_untracked hs).containerID
  refine hi.plain hup hid (fun htracked => ?_) (installStep_dbMu hs) (fun h hh => ?_)
  · rcases installStep_spec hs with hspec | hdown
    · exact hspec
    · exact absurd (htracks.not_up hdown) (hid ▸ htracked)
  · obtain ⟨ctx', pc', rfl⟩ := installStep_next hs hh
    exact ⟨rfl, rfl, rfl, fun _ _ _ heq => nomatch heq⟩

theorem crashStep_safe (hi : i.Safe up) (hup : up' ↔ up) : (crashStep i).Safe up' := by
  have heq := crashStep_eq (i := i)
  refine hi.plain hup (by rw [heq]) (fun _ => by rw [heq]) (by rw [heq]) fun h hh => ?_
  obtain ⟨spec, rfl⟩ := crashStep_holder hh
  refine ⟨rfl, rfl, ?_, fun _ _ _ hh' hpc => ?_⟩
  · simp [Work.served]
  · cases hh'
    exact absurd rfl hpc

/-- A start that has left its database behind goes on as served as it was. -/
theorem Inst.Safe.next_start {ctx' : Bool} {pc pc' : StartPc} (hi : i.Safe up)
    (hmu : i.opMu = some ⟨ctx, .start spec pc⟩) (hup : up' ↔ up)
    (huses : (Work.start spec pc').usesDb = false) (hpc : pc ≠ .begin)
    (hserved : (Work.start spec pc').served = true → (Work.start spec pc).served = true) :
    (i.next ctx' (.start spec pc')).Safe up' := by
  refine ⟨fun h hh hu => ?_, fun h hh => ?_, fun _ _ _ hh _ => ?_, fun _ _ _ hh => ?_,
    fun h hh hsv => ?_, fun h db ctx pc hh hsv hdb => ?_, hi.tracked, fun db ctx pc hdb => ?_⟩
  · cases hh
    rw [huses] at hu
    cases hu
  · cases hh
    rfl
  · cases hh
    exact hi.spec ctx spec pc hmu hpc
  · cases hh
  · cases hh
    exact hup.mpr (hi.served _ hmu (hserved hsv))
  · cases hh
    exact hi.quiet _ db ctx pc hmu (hserved hsv) hdb
  · rw [hup]
    exact hi.down db ctx pc hdb

/-- A start goes on with what it has of its database. -/
theorem startStep_safe {pc : StartPc} (hi : i.Safe up) (htracks : i.Tracks)
    (hmu : i.opMu = some ⟨ctx, .start spec pc⟩)
    (hup : (Work.start spec pc).usesDb = false → (up' ↔ up))
    (hensure : ∀ db pc', pc = .ensure pc' → (∃ call, ensureStep r i.uuid d db ctx x pc' = (call, .ok)) → up')
    (hs : startStep r d i ctx spec x pc = some e) : e.inst.Safe up' := by
  have hop := hi.op _ hmu
  have hspec := hi.spec ctx spec pc hmu
  cases pc with
  | begin =>
    have hup := hup rfl
    have hnone := htracks.record.not_up
    refine hi.plain hup ?_ (fun hid => ?_) ?_ (fun h hh => ?_) <;>
      simp only [startStep, Move.of] at hs <;>
      grind [Inst.next, Inst.unlock, Record.containerID_apply, Op.tracks, Work.usesDb, Work.removal,
        Work.served]
  | prepare =>
    cases hs
    refine hi.plain (hup rfl) rfl (fun _ => rfl) rfl fun h hh => ?_
    cases hh
    refine ⟨?_, rfl, ?_, fun _ _ _ heq _ => ?_⟩
    · split
      · split <;> rfl
      · rfl
    · -- without a database there is nothing to wait for
      split
      · split
        · simp [Work.served]
        · next hdb => simp [Work.served, hdb]
      · simp [Work.served]
    · cases heq
      exact hspec (by simp)
  | lockDb =>
    simp only [startStep, Move.of] at hs
    split at hs
    · cases hs
    · cases hs
      refine Inst.safe_alone ?_ ?_ ?_ ?_ ?_ ?_ <;>
        grind [Inst.next, Work.usesDb, Work.removal, Work.served]
  | ensure pc =>
    have hop := hop rfl
    simp only [startStep] at hs
    split at hs
    · cases hs
    · next db hdb =>
      have hensure := hensure db pc rfl
      split at hs <;> cases hs <;> refine Inst.safe_alone ?_ ?_ ?_ ?_ ?_ ?_ <;>
        grind [Inst.next, Work.usesDb, Work.removal, Work.served]
  | fail =>
    cases hs
    refine hi.plain (hup rfl) rfl (fun _ => rfl) rfl fun h hh => by cases hh
  | track id =>
    cases hs
    have hserved : (i.spec.any fun s => s.database.isSome) = true →
        (Work.start spec (.track id)).served = true := by
      rw [hspec (by simp)]
      intro hany
      simpa [Work.served] using hany
    refine ⟨fun h hh => (by cases hh), fun h hh => (by cases hh), fun _ _ _ hh => (by cases hh),
      fun _ _ _ hh => (by cases hh), fun _ hh => (by cases hh), fun _ _ _ _ hh => (by cases hh),
      fun db ctx pc _ hany hdb => ?_, fun db ctx pc hdb => ?_⟩
    · -- a task that has the lock now has found the database running
      have hquiet := hi.quiet _ db ctx pc hmu (hserved hany) hdb
      cases pc <;> first | rfl | cases hquiet
    · rw [hup rfl]
      exact hi.down db ctx pc hdb
  | cleanup id =>
    cases hs
    refine hi.plain (hup rfl) rfl (fun _ => rfl) rfl fun h hh => ?_
    cases hh
    refine ⟨rfl, rfl, by simp [Work.served], fun _ _ _ heq _ => ?_⟩
    cases heq
    exact hspec (by simp)
  | removeOld =>
    cases hs
    exact hi.next_start hmu (hup rfl) rfl (by simp) fun hserved => hserved
  | create =>
    simp only [startStep] at hs
    split at hs
    · cases hs
      refine hi.next_start hmu (hup rfl) ?_ (by simp) fun hserved => ?_
      · split <;> rfl
      · split at hserved
        · exact hserved
        · simp [Work.served] at hserved
    · cases hs
      exact hi.next_start hmu (hup rfl) rfl (by simp) fun hserved => by simp [Work.served] at hserved
  | attach id =>
    cases hs
    refine hi.next_start hmu (hup rfl) ?_ (by simp) fun hserved => ?_
    · split <;> rfl
    · split at hserved
      · exact hserved
      · simp [Work.served] at hserved
  | run id =>
    cases hs
    refine hi.next_start hmu (hup rfl) ?_ (by simp) fun hserved => ?_
    · split <;> rfl
    · split at hserved
      · exact hserved
      · simp [Work.served] at hserved

theorem workStep_safe (hi : i.Safe up) (htracks : i.Tracks) (hmu : i.opMu = some h)
    (hup : h.work.usesDb = false → (up' ↔ up))
    (hensure : ∀ spec db pc, h.work = .start spec (.ensure pc) →
      (∃ call, ensureStep r i.uuid d db h.ctx x pc = (call, .ok)) → up')
    (hs : workStep r d i h x = some e) : e.inst.Safe up' := by
  obtain ⟨ctx, w⟩ := h
  have hkept := hi.kept _ hmu
  rw [workStep] at hs
  split at hs
  · next hw =>
    obtain rfl : w = _ := hw
    exact installStep_safe hi (hup rfl) htracks.record hs
  · next hw =>
    obtain rfl : w = _ := hw
    refine startStep_safe hi htracks hmu hup (fun db pc hpc => ?_) hs
    rw [hpc] at hensure
    exact hensure _ db pc rfl
  · next k pc hw =>
    obtain rfl : w = _ := hw
    refine stopStep_safe hi (hup rfl) (fun deleteFiles hk => ?_) hs
    rw [hk] at hkept
    cases hkept
  · next remove pc hw =>
    obtain rfl : w = _ := hw
    cases remove with
    | none => exact idleStep_safe hi hmu hs
    | some deleteFiles => cases hkept
  · next hw =>
    obtain rfl : w = _ := hw
    cases hkept
  · next hw =>
    obtain rfl : w = _ := hw
    cases hs
    exact crashStep_safe hi (hup rfl)

/-- A section of another goroutine. -/
theorem section_safe {i' : Inst} (hsection : i.Section i') (hi : i.Safe up) (hup : up' ↔ up) :
    i'.Safe up' := by
  rw [hup]
  cases hsection with
  | same => exact hi
  | ready =>
    have hid : (i.record.apply .matchReady).1.containerID = i.record.containerID :=
      Record.containerID_apply rfl
    exact ⟨hi.op, hi.kept, hi.spec, fun ctx remove pc hh hpc => hid.trans (hi.idle ctx remove pc hh hpc),
      hi.served, hi.quiet, fun db ctx pc htracked => hi.tracked db ctx pc (hid ▸ htracked), hi.down⟩
  | exit id code err now hid =>
    have hnone : (i.record.apply (.exit id code err)).1.containerID = none := by
      rw [Record.apply, if_neg (not_not.mpr hid)]
    obtain ⟨hrec, hmu⟩ := @exit_record i id code err now
    have hrest : (i.exit id code err now).1.dbMu = i.dbMu ∧ (i.exit id code err now).1.spec = i.spec := by
      simp only [Inst.exit]
      split <;> exact ⟨rfl, rfl⟩
    refine ⟨?_, ?_, ?_, ?_, ?_, ?_, ?_, ?_⟩
    · rw [hmu, hrest.1]
      exact hi.op
    · rw [hmu]
      exact hi.kept
    · rw [hmu, hrest.2]
      exact hi.spec
    · rw [hrec]
      exact fun _ _ _ _ _ => hnone
    · rw [hmu]
      exact hi.served
    · rw [hmu, hrest.1]
      exact hi.quiet
    · rw [hrec, hnone]
      exact fun _ _ _ htracked => absurd rfl htracked
    · rw [hrest.1]
      exact hi.down
  | exited id => exact ⟨hi.op, hi.kept, hi.spec, hi.idle, hi.served, hi.quiet, hi.tracked, hi.down⟩
  | lockDb db hfree =>
    refine ⟨fun h hh huses => ?_, hi.kept, hi.spec, hi.idle, hi.served, fun h db ctx pc _ _ hh => ?_,
      fun db ctx pc _ _ hh => ?_, fun db ctx pc hh => ?_⟩
    · have hop := hi.op h hh huses
      rw [hfree] at hop
      cases hop
    · cases hh
      rfl
    · cases hh
      rfl
    · cases hh
      exact ⟨(fun hdown => nomatch hdown), fun hpc => nomatch hpc⟩

theorem lock_safe {q : Request} (hi : i.Safe up) (hq : q.work.removal = false) :
    (i.next true q.work).Safe up := by
  refine hi.plain Iff.rfl rfl (fun _ => rfl) rfl fun h hh => ?_
  cases hh
  refine ⟨?_, hq, ?_, fun _ _ _ heq hpc => ?_⟩
  · cases q <;> rfl
  · cases q <;> simp [Request.work, Work.served]
  · cases q <;> cases heq
    exact absurd rfl hpc

theorem runs_of_inspect {c : Container} {name : ContainerName} (hc : d.inspect (.name name) = some c)
    (hrun : c.status = .running) : d.Runs name := by
  have href := List.find?_some (p := fun c : Container => c.isRef (.name name)) hc
  exact ⟨c, List.mem_of_find?_eq_some hc, Docker.name_of_isRef href, hrun⟩

/-- What the task finds out about the database stays true while it has the lock. -/
theorem ensureStep_down {pc pc' : EnsurePc} (hdown : (WithPc.ensure pc).down ctx = true →
      ¬ d.Runs (.database uuid)) (hne : pc ≠ .stop)
    (hnext : (ensureStep r uuid d db ctx x pc).2 = .next pc') :
    ((WithPc.ensure pc').down (x.answer.context ctx) = true →
      ¬ (d.perform (ensureStep r uuid d db ctx x pc).1).Runs (.database uuid)) ∧ pc' ≠ .stop := by
  cases pc with
  | network =>
    simp only [ensureStep] at hnext ⊢
    split at hnext
    · next hok =>
      cases hnext
      exact ⟨fun _ => hdown (Answer.context_of_ok hok).1, by simp⟩
    · cases hnext
  | inspect =>
    have hdown := hdown rfl
    simp only [ensureStep] at hnext ⊢
    split at hnext
    · next hok =>
      rw [if_pos hok]
      split at hnext
      · next hc =>
        cases hnext
        exact ⟨fun _ => hdown, by simp⟩
      · next c hc =>
        split at hnext
        · next hrun => exact absurd (runs_of_inspect hc hrun) hdown
        · next hrun =>
          cases hnext
          simp only [if_neg hrun]
          exact ⟨fun _ => hdown, by simp⟩
    · cases hnext
  | stop => exact absurd rfl hne
  | remove =>
    have hdown := hdown rfl
    simp only [ensureStep] at hnext ⊢
    split at hnext
    · cases hnext
      refine ⟨fun _ hruns => hdown ?_, by simp⟩
      rw [Docker.perform_calls] at hruns
      split at hruns
      · exact hruns.of_remove
      · exact hruns
    · cases hnext
  | image =>
    have hdown := hdown rfl
    simp only [ensureStep] at hnext ⊢
    split at hnext
    · cases hnext
      exact ⟨fun _ => hdown, by simp⟩
    · cases hnext
  | create =>
    have hdown := hdown rfl
    simp only [ensureStep] at hnext ⊢
    split at hnext
    · next hfree =>
      split at hnext
      · cases hnext
        refine ⟨fun _ hruns => hdown ?_, by simp⟩
        rw [if_pos hfree, Docker.perform_calls] at hruns
        split at hruns
        · exact hruns.of_create rfl
        · exact hruns
      · cases hnext
    · cases hnext
  | run id =>
    simp only [ensureStep] at hnext ⊢
    split at hnext
    · cases hnext
      exact ⟨(fun h => nomatch h), by simp⟩
    · cases hnext
  | wait =>
    simp only [ensureStep] at hnext
    split at hnext <;> cases hnext

/-- The task goes on, or returns. -/
theorem Inst.Safe.task {pc : WithPc} {dbMu : Option DbHolder} (hi : i.Safe up)
    (hmu : i.dbMu = some (.task db ctx pc)) (hup : ∀ h, i.opMu = some h → h.work.served = true → up')
    (hnext : ∀ db ctx pc, dbMu = some (.task db ctx pc) →
      (∀ h, i.opMu = some h → h.work.served = true → pc.quiet ctx = true) ∧
      (i.record.containerID ≠ none → i.spec.any (·.database.isSome) = true → pc.stops = false) ∧
      (pc.down ctx = true → ¬ up') ∧ pc ≠ .ensure .stop) :
    ({ i with dbMu := dbMu } : Inst).Safe up' := by
  refine ⟨fun h hh huses => ?_, hi.kept, hi.spec, hi.idle, hup,
    fun h db ctx pc hh hserved hdb => (hnext db ctx pc hdb).1 h hh hserved,
    fun db ctx pc htracked hany hdb => (hnext db ctx pc hdb).2.1 htracked hany,
    fun db ctx pc hdb => (hnext db ctx pc hdb).2.2⟩
  have hop := hi.op h hh huses
  rw [hmu] at hop
  cases hop

theorem withStep_safe {pc : WithPc} (hi : i.Safe (d.Runs (.database i.uuid)))
    (hmu : i.dbMu = some (.task db ctx pc)) (htruthful : pc = .inspect → x.answer ≠ .failed) :
    (withStep r d i db ctx x pc).1.Safe
      ((d.perform (withStep r d i db ctx x pc).2).Runs (.database i.uuid)) := by
  have hserved := hi.served
  have hquiet := fun h => hi.quiet h db ctx pc
  have htracked := fun hid hany => hi.tracked db ctx pc hid hany hmu
  obtain ⟨hdown, hne⟩ := hi.down db ctx pc hmu
  -- where a start relies on the database, the task does not get that far
  have hbusy : pc.quiet ctx = false → ∀ h, i.opMu = some h → h.work.served = true → False := by
    intro hpc h hh hs
    exact absurd (hpc.symm.trans (hquiet h hh hs hmu)) (by decide)
  cases pc with
  | inspect =>
    refine hi.task hmu hserved fun db' ctx' pc' hdb => ?_
    split at hdb
    · cases hdb
      exact ⟨fun _ _ _ => rfl, fun _ _ => rfl, (fun h => nomatch h), by simp⟩
    · next hrunning =>
      cases hdb
      have hended : d.Runs (.database i.uuid) → x.answer.context ctx = false := by
        intro hruns
        cases hx : x.answer with
        | done =>
          rw [hx] at hrunning
          cases ctx with
          | true => exact absurd ⟨rfl, hruns⟩ hrunning
          | false => rfl
        | failed => exact absurd hx (htruthful rfl)
        | cut effect => rfl
      refine ⟨fun h hh hs => ?_, fun _ _ => rfl, fun hctx hruns => ?_, by simp⟩
      · simp [WithPc.quiet, hended (hserved h hh hs)]
      · exact absurd ((hended hruns).symm.trans hctx) (by decide)
  | wait =>
    simp only [withStep]
    split
    · refine hi.task hmu hserved fun db' ctx' pc' hdb => ?_
      cases hdb
      exact ⟨fun _ _ _ => rfl, fun _ _ => rfl, (fun h => nomatch h), by simp⟩
    · exact hi.task hmu hserved fun db' ctx' pc' hdb => nomatch hdb
  | ensure pc =>
    have hup : ∀ h, i.opMu = some h → h.work.served = true →
        (d.perform (ensureStep r i.uuid d db ctx x pc).1).Runs (.database i.uuid) := by
      intro h hh hs
      have hpc := hquiet h hh hs hmu
      cases pc with
      | network => exact hserved h hh hs
      | _ => cases hpc
    have hlast : (ensureStep r i.uuid d db ctx x pc).2 ≠ .failed →
        ∀ h, i.opMu = some h → h.work.served = true → False := by
      intro hfailed h hh hs
      have hpc := hquiet h hh hs hmu
      cases pc with
      | network =>
        obtain rfl : ctx = false := by simpa [WithPc.quiet] using hpc
        simp [ensureStep] at hfailed
      | _ => cases hpc
    have hstep := fun pc' => @ensureStep_down r d ctx x db i.uuid pc pc' hdown
      (fun hpc => hne (congrArg WithPc.ensure hpc))
    simp only [withStep]
    split
    · next call pc' heq =>
      rw [heq] at hup hlast
      have hstep := hstep pc' (by rw [heq])
      rw [heq] at hstep
      refine hi.task hmu hup fun db' ctx' pc'' hdb => ?_
      cases hdb
      refine ⟨fun h hh hs => (hlast (by simp) h hh hs).elim, fun _ _ => rfl, hstep.1, ?_⟩
      simpa using hstep.2
    · next call heq =>
      rw [heq] at hup hlast
      refine hi.task hmu hup fun db' ctx' pc'' hdb => ?_
      cases hdb
      exact ⟨fun h hh hs => (hlast (by simp) h hh hs).elim, fun _ _ => rfl, (fun h => nomatch h), by simp⟩
    · next call heq =>
      rw [heq] at hup
      exact hi.task hmu hup fun db' ctx' pc'' hdb => nomatch hdb
  | use running =>
    simp only [withStep]
    split
    · exact hi.task hmu hserved fun db' ctx' pc' hdb => nomatch hdb
    · next hrunning =>
      refine hi.task hmu hserved fun db' ctx' pc' hdb => ?_
      cases hdb
      refine ⟨fun h hh hs => (hbusy (by simpa [WithPc.quiet] using hrunning) h hh hs).elim, fun _ _ => rfl,
        (fun h => nomatch h), by simp⟩
  | read =>
    simp only [withStep]
    split
    · exact hi.task hmu hserved fun db' ctx' pc' hdb => nomatch hdb
    · next hnone =>
      refine hi.task hmu hserved fun db' ctx' pc' hdb => ?_
      cases hdb
      refine ⟨fun h hh hs => (hbusy rfl h hh hs).elim, fun hid _ => ?_, (fun h => nomatch h), by simp⟩
      exact absurd (by simpa using hnone) hid
  | stopInspect =>
    simp only [withStep]
    split
    · refine hi.task hmu hserved fun db' ctx' pc' hdb => ?_
      cases hdb
      exact ⟨fun h hh hs => (hbusy rfl h hh hs).elim, fun hid hany => (nomatch htracked hid hany),
        (fun h => nomatch h), by simp⟩
    · exact hi.task hmu hserved fun db' ctx' pc' hdb => nomatch hdb
  | stop =>
    exact hi.task hmu (fun h hh hs => (hbusy rfl h hh hs).elim) fun db' ctx' pc' hdb => nomatch hdb

/-! ## Ids across a step -/

theorem section_ids {i' : Inst} (h : i.Section i') :
    (∀ id ∈ i'.ids, id ∈ i.ids) ∧ ∀ id ∈ i'.dbIds, id ∈ i.dbIds := by
  cases h with
  | same => exact ⟨fun _ h => h, fun _ h => h⟩
  | ready =>
    have hid : (i.record.apply .matchReady).1.containerID = i.record.containerID :=
      Record.containerID_apply rfl
    refine ⟨fun id h => ?_, fun _ h => h⟩
    rw [Inst.ids, hid] at h
    exact h
  | exit id code err now hid =>
    obtain ⟨hrec, hmu⟩ := @exit_record i id code err now
    have hdb : (i.exit id code err now).1.dbMu = i.dbMu := by
      simp only [Inst.exit]
      split <;> rfl
    have hnone : (i.record.apply (.exit id code err)).1.containerID = none := by
      rw [Record.apply, if_neg (not_not.mpr hid)]
    refine ⟨fun id' h => ?_, fun id' h => ?_⟩
    · rw [Inst.ids, hrec, hmu, hnone] at h
      exact List.mem_append_right _ h
    · rw [Inst.dbIds, hmu, hdb] at h
      exact h
  | exited id => exact ⟨fun _ h => h, fun _ h => h⟩
  | lockDb db hfree =>
    refine ⟨fun _ h => h, fun id h => ?_⟩
    rcases List.mem_append.mp h with h | h
    · exact List.mem_append_left _ h
    · cases h

theorem adopt_ids {c : Container} {stored : Option InstanceSpec} :
    (∀ id ∈ ((Inst.new uuid).adopt c stored x).ids, id = c.id) ∧
      ((Inst.new uuid).adopt c stored x).dbIds = [] := by
  obtain ⟨hop, hdb⟩ := @adopt_locks x uuid c stored
  refine ⟨fun id hid => ?_, by rw [Inst.dbIds, hop, hdb]; rfl⟩
  rw [Inst.ids, hop] at hid
  have hid : id ∈ ((Inst.new uuid).adopt c stored x).record.containerID.toList := by simpa using hid
  simp only [Inst.adopt] at hid
  split at hid
  · split at hid
    · exact List.mem_singleton.mp hid
    · cases hid
    · cases hid
  · cases hid

theorem adopt_safe {c : Container} {stored : Option InstanceSpec} :
    ((Inst.new uuid).adopt c stored x).Safe up := by
  obtain ⟨hop, hdb⟩ := @adopt_locks x uuid c stored
  refine Inst.safe_alone ?_ ?_ ?_ ?_ ?_ ?_ <;> simp [hop, hdb]

/-- An operation takes `dbMu` or lets go of it, and gives it to no task. -/
theorem workStep_dbMu (hs : workStep r d i h x = some e) :
    e.inst.dbMu = i.dbMu ∨ e.inst.dbMu.elim [] DbHolder.ids = [] := by
  rw [workStep] at hs
  split at hs
  · next pc hw =>
    left
    cases pc <;> simp only [installStep, Inst.failInstall, Move.of] at hs <;>
      grind [Inst.next, Inst.unlock]
  · next pc hw =>
    cases pc with
    | lockDb =>
      simp only [startStep] at hs
      split at hs <;> cases hs
      exact .inr rfl
    | ensure pc =>
      simp only [startStep] at hs
      split at hs
      · cases hs
      · split at hs <;> cases hs
        · exact .inl rfl
        · exact .inr rfl
        · exact .inr rfl
    | _ =>
      left
      simp only [startStep, Move.of] at hs
      grind [Inst.next, Inst.unlock, Inst.track]
  · next k pc hw =>
    have hstopped : ∀ (j : Inst) ctx' ok, (j.stopped ctx' ok k).dbMu = j.dbMu := by
      intro j ctx' ok
      rw [Inst.stopped_eq]
    left
    cases pc <;> simp only [stopStep, waitStep, Move.of] at hs <;> grind [Inst.next]
  · next remove pc hw =>
    have hidled : (i.idled h.ctx remove).dbMu = none := by rw [Inst.idled_eq]
    cases pc with
    | lockDb =>
      simp only [idleStep] at hs
      split at hs <;> cases hs
      exact .inr rfl
    | stop =>
      cases hs
      exact .inr (by rw [hidled]; rfl)
    | _ =>
      simp only [idleStep] at hs
      split at hs <;> cases hs <;>
        first | exact .inl rfl | exact .inr (by simp [Move.of, hidled])
  · next pc hw =>
    left
    cases pc <;> simp only [removeStep, Move.of] at hs <;> grind [Inst.next, Inst.unlock]
  · cases hs
    left
    show (crashStep i).dbMu = i.dbMu
    rw [crashStep_eq]

theorem workStep_ids (hmu : i.opMu = some h) (hno : h.work.removal = false)
    (hs : workStep r d i h x = some e) :
    (∀ id ∈ e.inst.ids, id ∈ i.ids ∨
      ∃ c, e.call = some (.create c) ∧ c.id = id ∧ ∀ uuid, c.name ≠ .database uuid) ∧
    ∀ id ∈ e.inst.dbIds, id ∈ i.dbIds ∨
      ∃ c, e.call = some (.create c) ∧ c.id = id ∧ c.name = .database i.uuid := by
  have hspeaks := workStep_speaks hs hno
  have hwork : ∀ id ∈ h.work.ids, id ∈ i.ids := by
    intro id hid
    rw [Inst.ids, hmu]
    exact List.mem_append_right _ hid
  -- the record's container is the one it had, or the one that the work is about
  have htracked : ∀ id ∈ e.inst.record.containerID.toList, id ∈ i.ids := by
    intro id hid
    rcases workStep_track hs with hun | ⟨spec, id', hw, rfl⟩
    · rw [hun.containerID] at hid
      exact List.mem_append_left _ hid
    · obtain rfl := List.mem_singleton.mp hid
      exact hwork id (by rw [hw]; exact List.mem_singleton_self _)
  refine ⟨fun id hid => ?_, fun id hid => ?_⟩
  · rcases List.mem_append.mp hid with hid | hid
    · exact .inl (htracked id hid)
    · cases hmu' : e.inst.opMu with
      | none => rw [hmu'] at hid; cases hid
      | some h' =>
        rw [hmu'] at hid
        rcases hspeaks.ids h' hmu' id hid with hid | hid | hid
        · exact .inl (hwork id hid)
        · exact .inl (htracked id (by rw [hid]; exact List.mem_singleton_self _))
        · exact .inr hid
  · rcases List.mem_append.mp hid with hid | hid
    · cases hmu' : e.inst.opMu with
      | none => rw [hmu'] at hid; cases hid
      | some h' =>
        rw [hmu'] at hid
        exact .inr (hspeaks.dbIds h' hmu' id hid)
    · rcases workStep_dbMu hs with hdb | hdb
      · rw [hdb] at hid
        exact .inl (List.mem_append_right _ hid)
      · rw [hdb] at hid
        cases hid

/-- The container that a call creates. -/
def Docker.Call.created : Docker.Call → Option Container
  | .create c => some c
  | _ => none

theorem Docker.Call.created_eq_some {c : Container} : call.created = some c ↔ call = .create c := by
  cases call <;> simp [created]

namespace Manager

/-! ## What the agent and its surroundings do -/

/-- The ids that somebody holds on to. -/
def ids (m : Manager) : List Str :=
  (List.range m.next).flatMap (fun r => (m.recs r).ids ++ (m.recs r).dbIds) ++
    m.watchers.map (·.id) ++ m.reconcile.map (·.id)

/-- Docker gives a new container an id that nobody holds on to. -/
def NewIds (m : Manager) : Action → Prop
  | .work r x => ∀ h ∈ (m.recs r).opMu, ∀ e ∈ workStep r m.docker (m.recs r) h x,
      ∀ c ∈ e.call.bind Docker.Call.created, c.id ∉ m.ids
  | .database r x =>
      match (m.recs r).dbMu with
      | some (.task db ctx pc) =>
          ∀ c ∈ (withStep r m.docker (m.recs r) db ctx x pc).2.bind Docker.Call.created, c.id ∉ m.ids
      | _ => True
  | _ => True

/-- The inspection by which a dump or an import finds out whether the database runs does not fail. -/
def Truthful (m : Manager) : Action → Prop
  | .database r x =>
      match (m.recs r).dbMu with
      | some (.task _ _ .inspect) => x.answer ≠ .failed
      | _ => True
  | _ => True

attribute [local instance] lawfulBEq_str

instance (m : Manager) (a : Action) : Decidable (m.NewIds a) := by
  unfold NewIds
  split
  · infer_instance
  · split <;> infer_instance
  · infer_instance

instance (m : Manager) (a : Action) : Decidable (m.Truthful a) := by
  unfold Truthful
  split
  · split <;> infer_instance
  · infer_instance

/-- Nobody removes an instance, no database ends by itself, and the agent goes on running. -/
def Action.leavesDatabase : Action → Bool
  | .request _ q => !q.work.removal
  | .ends (.database _) _ => false
  | .restart _ => false
  | _ => true

structure Guarded (m : Manager) : Prop where
  fresh : m.Fresh
  wf : m.Wf
  tracks : ∀ r, (m.recs r).Tracks
  mapped : ∀ r, r < m.next → m.insts (m.recs r).uuid = some r
  queue : ∀ p ∈ m.queue, p.2.work.removal = false
  safe : ∀ r, (m.recs r).Safe (m.docker.Runs (.database (m.recs r).uuid))
  strange : ∀ c ∈ m.docker, ∀ uuid, c.name = .database uuid →
    (∀ r, c.id ∉ (m.recs r).ids) ∧ (∀ w ∈ m.watchers, w.id ≠ c.id) ∧ ∀ c' ∈ m.reconcile, c'.id ≠ c.id
  made : ∀ r, ∀ id ∈ (m.recs r).dbIds, ∀ c ∈ m.docker, c.id = id →
    c.name = .database (m.recs r).uuid

theorem guarded_boot (hd : d.Named) (hids : (d.map (·.id)).Nodup) : (boot d listed).Guarded := by
  refine ⟨fresh_boot hd, wf_boot, fun _ => keeps_tracks.new [], fun r hr => absurd hr (Nat.not_lt_zero r),
    fun _ h => (nomatch h), fun _ => safe_new, fun c hc uuid hname => ⟨fun r h => (nomatch h),
      fun _ h => (nomatch h), fun c' hc' hid => ?_⟩, fun _ _ h => nomatch h⟩
  have hmem : c' ∈ d ∧ c'.name = .game c'.name.uuid := by
    rw [boot] at hc'
    dsimp only at hc'
    split at hc'
    · exact ⟨(List.mem_filter.mp hc').1, by simpa using (List.mem_filter.mp hc').2⟩
    · cases hc'
  obtain rfl := List.inj_on_of_nodup_map hids hmem.1 hc hid
  rw [hmem.2] at hname
  cases hname

/-- Two records are of two instances. -/
theorem Guarded.uuid_ne (hm : m.Guarded) (hr : r < m.next) (hr' : r' < m.next) (hne : r' ≠ r) :
    (m.recs r').uuid ≠ (m.recs r).uuid := by
  intro heq
  have hmap := hm.mapped r' hr'
  rw [heq, hm.mapped r hr] at hmap
  exact hne (Option.some.inj hmap).symm

theorem mem_ids_of_recs (hr : r < m.next) (hid : id ∈ (m.recs r).ids ∨ id ∈ (m.recs r).dbIds) :
    id ∈ m.ids := by
  refine List.mem_append_left _ (List.mem_append_left _ (List.mem_flatMap.mpr ⟨r, ?_, ?_⟩))
  · exact List.mem_range.mpr hr
  · exact List.mem_append.mpr hid

/-- A record that holds on to something has been made. -/
theorem Wf.lt_of_ids (hwf : m.Wf) (hid : id ∈ (m.recs r).ids ∨ id ∈ (m.recs r).dbIds) : r < m.next := by
  by_contra hle
  rw [hwf.unmade r (Nat.le_of_not_lt hle)] at hid
  rcases hid with hid | hid <;> cases hid

/-! ## What runs across a step -/

theorem aside_runs (hm : m.Guarded) (hleaves : a.leavesDatabase = true) (ha : m.Aside a m') :
    m'.docker.Runs (.database uuid) ↔ m.docker.Runs (.database uuid) := by
  obtain ⟨call, hdocker, hbeside⟩ := ha.docker
  rw [hdocker]
  refine Docker.runs_perform_iff (fun c hc => ?_) fun call' ref hcall href c hc hisref hname => ?_
  · cases hbeside _ hc
  · obtain ⟨-, hwatchers, hlisted⟩ := hm.strange c hc uuid hname
    cases hbeside _ hcall with
    | ends name code =>
      obtain rfl := Option.some.inj href
      rw [Docker.name_of_isRef hisref] at hname
      subst hname
      cases hleaves
    | watched w hw =>
      obtain rfl := Option.some.inj href
      exact hwatchers w hw (of_decide_eq_true hisref).symm
    | listed c' hc' =>
      obtain rfl := Option.some.inj href
      exact hlisted c' hc' (of_decide_eq_true hisref).symm

/-- An operation changes at most whether its own instance's database runs, and this under `dbMu`. -/
theorem works_runs (hm : m.Guarded) (hmu : (m.recs r).opMu = some h)
    (he : workStep r m.docker (m.recs r) h x = some e)
    (hother : h.work.usesDb = false ∨ uuid ≠ (m.recs r).uuid) :
    (m.docker.perform e.call).Runs (.database uuid) ↔ m.docker.Runs (.database uuid) := by
  have hspeaks := workStep_speaks he ((hm.safe r).kept h hmu)
  refine Docker.runs_perform_iff (fun c hc => (workStep_create he hc).status)
    fun call ref hcall href c hc hisref hname => ?_
  rcases hspeaks.refs call ref hcall href with ⟨id, hid, rfl⟩ | rfl | rfl | ⟨huses, hdb⟩
  · refine (hm.strange c hc uuid hname).1 r ?_
    rw [show c.id = id from of_decide_eq_true hisref, Inst.ids, hmu]
    exact List.mem_append_right _ hid
  · rw [Docker.name_of_isRef hisref] at hname
    cases hname
  · rw [Docker.name_of_isRef hisref] at hname
    cases hname
  · have hne : uuid ≠ (m.recs r).uuid := hother.resolve_left (by simp [huses])
    have hown : c.name = .database (m.recs r).uuid := by
      rcases hdb with rfl | ⟨id, hid, rfl⟩
      · exact Docker.name_of_isRef hisref
      · refine hm.made r id ?_ c hc (of_decide_eq_true hisref)
        rw [Inst.dbIds, hmu]
        exact List.mem_append_left _ hid
    rw [hown] at hname
    cases hname
    exact hne rfl

theorem tends_runs {pc : WithPc} (hm : m.Guarded) (hmu : (m.recs r).dbMu = some (.task db ctx pc))
    (hother : uuid ≠ (m.recs r).uuid) :
    (m.docker.perform (withStep r m.docker (m.recs r) db ctx x pc).2).Runs (.database uuid) ↔
      m.docker.Runs (.database uuid) := by
  refine Docker.runs_perform_iff (fun c hc => (withStep_create hc).status)
    fun call ref hcall href c hc hisref hname => ?_
  have hown : c.name = .database (m.recs r).uuid := by
    rcases withStep_speaks.1 call ref hcall href with rfl | ⟨id, hid, rfl⟩
    · exact Docker.name_of_isRef hisref
    · refine hm.made r id ?_ c hc (of_decide_eq_true hisref)
      rw [Inst.dbIds, hmu]
      exact List.mem_append_right _ hid
  rw [hown] at hname
  cases hname
  exact hother rfl

/-! ## What the records hold on to, across a step -/

/-- One record changes, with a call that may create what it then holds on to. -/
structure Holds (m m' : Manager) (r : ℕ) (i : Inst) (call : Option Docker.Call) : Prop where
  recs : m'.recs = Function.update m.recs r i
  uuid : i.uuid = (m.recs r).uuid
  docker : m'.docker = m.docker.perform call
  free : ∀ c, call = some (.create c) → m.docker.free c.name c.id = true ∧ c.id ∉ m.ids
  ids : ∀ id ∈ i.ids, id ∈ (m.recs r).ids ∨
    ∃ c, call = some (.create c) ∧ c.id = id ∧ ∀ uuid, c.name ≠ .database uuid
  dbIds : ∀ id ∈ i.dbIds, id ∈ (m.recs r).dbIds ∨
    ∃ c, call = some (.create c) ∧ c.id = id ∧ c.name = .database (m.recs r).uuid
  watchers : ∀ w ∈ m'.watchers, w ∈ m.watchers ∨ w.id ∈ (m.recs r).ids
  reconcile : m'.reconcile = m.reconcile

variable {c' : Container} {callOpt : Option Docker.Call}

theorem Holds.strange (hh : m.Holds m' r i callOpt) (hm : m.Guarded) (hc' : c' ∈ m'.docker)
    (hname' : c'.name = .database uuid) :
    (∀ r, c'.id ∉ (m'.recs r).ids) ∧ (∀ w ∈ m'.watchers, w.id ≠ c'.id) ∧
      ∀ c ∈ m'.reconcile, c.id ≠ c'.id := by
  rw [hh.docker] at hc'
  rw [hh.recs, hh.reconcile]
  rcases Docker.mem_perform hc' with ⟨c, hc, hid, hname, -⟩ | hcreate
  · obtain ⟨hrecs, hwatchers, hlisted⟩ := hm.strange c hc uuid (hname.symm.trans hname')
    refine ⟨fun r' hmem => ?_, fun w hw heq => ?_, fun c₀ hc₀ => hid ▸ hlisted c₀ hc₀⟩
    · by_cases hr : r' = r
      · subst hr
        rw [Function.update_self] at hmem
        rcases hh.ids _ hmem with hmem | ⟨c₀, hcall, hid₀, -⟩
        · exact hrecs r' (hid ▸ hmem)
        · have hne := (of_decide_eq_true (List.all_eq_true.mp (hh.free c₀ hcall).1 c hc)).2
          exact hne (hid.symm.trans hid₀.symm)
      · rw [Function.update_of_ne hr] at hmem
        exact hrecs r' (hid ▸ hmem)
    · rcases hh.watchers w hw with hw | hw
      · exact hwatchers w hw (heq.trans hid)
      · exact hrecs r (by rw [← hid, ← heq]; exact hw)
  · have hnew := (hh.free c' hcreate).2
    have hold : ∀ r', c'.id ∉ (m.recs r').ids := fun r' hmem =>
      hnew (mem_ids_of_recs (hm.wf.lt_of_ids (.inl hmem)) (.inl hmem))
    refine ⟨fun r' hmem => ?_, fun w hw heq => ?_, fun c₀ hc₀ heq => hnew ?_⟩
    · by_cases hr : r' = r
      · subst hr
        rw [Function.update_self] at hmem
        rcases hh.ids _ hmem with hmem | ⟨c₀, hcall, -, hgame⟩
        · exact hold r' hmem
        · cases hcreate.symm.trans hcall
          exact hgame uuid hname'
      · rw [Function.update_of_ne hr] at hmem
        exact hold r' hmem
    · rcases hh.watchers w hw with hw | hw
      · refine hnew (List.mem_append_left _ (List.mem_append_right _ ?_))
        exact List.mem_map.mpr ⟨w, hw, heq⟩
      · exact hold r (heq ▸ hw)
    · exact List.mem_append_right _ (List.mem_map.mpr ⟨c₀, hc₀, heq⟩)

theorem Holds.made (hh : m.Holds m' r i callOpt) (hm : m.Guarded) (hid : id ∈ (m'.recs r').dbIds)
    (hc' : c' ∈ m'.docker) (hid' : c'.id = id) : c'.name = .database (m'.recs r').uuid := by
  have hold : id ∈ (m.recs r').dbIds → c'.name = .database (m.recs r').uuid := by
    intro hmem
    rw [hh.docker] at hc'
    rcases Docker.mem_perform hc' with ⟨c, hc, hidc, hname, -⟩ | hcreate
    · rw [hname]
      exact hm.made r' id hmem c hc (hidc.symm.trans hid')
    · refine absurd ?_ (hh.free c' hcreate).2
      rw [hid']
      exact mem_ids_of_recs (hm.wf.lt_of_ids (.inr hmem)) (.inr hmem)
  rw [hh.recs] at hid ⊢
  by_cases hr : r' = r
  · subst hr
    rw [Function.update_self] at hid ⊢
    rw [hh.uuid]
    rcases hh.dbIds id hid with hmem | ⟨c₀, hcall, hid₀, hname₀⟩
    · exact hold hmem
    · rw [hh.docker] at hc'
      rcases Docker.mem_perform hc' with ⟨c, hc, hidc, -⟩ | hcreate
      · have hne := (of_decide_eq_true (List.all_eq_true.mp (hh.free c₀ hcall).1 c hc)).2
        exact absurd (hidc.symm.trans (hid'.trans hid₀.symm)) hne
      · cases hcreate.symm.trans hcall
        exact hname₀
  · rw [Function.update_of_ne hr] at hid ⊢
    exact hold hid

/-- What is safe stays so where nothing but one record changes. -/
theorem safe_set (hm : m.Guarded) (hr : r < m.next) (hrecs : m'.recs = Function.update m.recs r i)
    (huuid : i.uuid = (m.recs r).uuid) (hsafe : i.Safe (m'.docker.Runs (.database (m.recs r).uuid)))
    (hruns : ∀ uuid, uuid ≠ (m.recs r).uuid →
      (m'.docker.Runs (.database uuid) ↔ m.docker.Runs (.database uuid))) (r' : ℕ) :
    (m'.recs r').Safe (m'.docker.Runs (.database (m'.recs r').uuid)) := by
  rw [hrecs]
  by_cases heq : r' = r
  · subst heq
    rw [Function.update_self, huuid]
    exact hsafe
  · rw [Function.update_of_ne heq]
    by_cases hlt : r' < m.next
    · exact section_safe .same (hm.safe r') (hruns _ (hm.uuid_ne hr hlt heq))
    · rw [hm.wf.unmade r' (Nat.le_of_not_lt hlt)]
      exact safe_new

theorem mapped_set (hm : m.Guarded) (hrecs : m'.recs = Function.update m.recs r i)
    (huuid : i.uuid = (m.recs r).uuid) (hinsts : m'.insts = m.insts) (hr' : r' < m.next) :
    m'.insts (m'.recs r').uuid = some r' := by
  rw [hrecs, hinsts]
  by_cases heq : r' = r
  · subst heq
    rw [Function.update_self, huuid]
    exact hm.mapped r' hr'
  · rw [Function.update_of_ne heq]
    exact hm.mapped r' hr'

theorem ensureStep_ok {pc : EnsurePc}
    (hok : ∃ call, ensureStep r uuid d db ctx x pc = (call, .ok)) :
    pc = .wait ∧ d.Runs (.database uuid) := by
  obtain ⟨call, hok⟩ := hok
  cases pc with
  | wait =>
    simp only [ensureStep] at hok
    split at hok
    · next h => exact ⟨rfl, h.2⟩
    · cases hok
  | _ => simp only [ensureStep] at hok; grind

theorem startStep_wait (hs : startStep r d i ctx spec x (.ensure .wait) = some e) : e.call = none := by
  simp only [startStep, ensureStep] at hs
  grind

theorem guarded_works (hm : m.Guarded) (hnew : m.NewIds (.work r x))
    (hmu : (m.recs r).opMu = some h) (he : workStep r m.docker (m.recs r) h x = some e)
    (hrecs : m'.recs = Function.update m.recs r e.inst)
    (hdocker : m'.docker = m.docker.perform e.call)
    (hwatchers : m'.watchers = m.watchers ++ (e.watch.map fun id => ⟨r, id, .waiting⟩).toList)
    (hrec : m'.reconcile = m.reconcile) :
    m.Holds m' r e.inst e.call ∧ e.inst.Safe (m'.docker.Runs (.database (m.recs r).uuid)) := by
  have hno := (hm.safe r).kept h hmu
  obtain ⟨hids, hdbIds⟩ := workStep_ids hmu hno he
  refine ⟨⟨hrecs, workStep_uuid he, hdocker, fun c hc => ⟨(workStep_create he hc).free, ?_⟩, hids, hdbIds,
    fun w hw => ?_, hrec⟩, ?_⟩
  · refine hnew h hmu e he c ?_
    rw [hc]
    exact rfl
  · rw [hwatchers] at hw
    rcases List.mem_append.mp hw with hw | hw
    · exact .inl hw
    · cases hwatch : e.watch with
      | none => rw [hwatch] at hw; cases hw
      | some id =>
        rw [hwatch] at hw
        obtain rfl := List.mem_singleton.mp hw
        refine .inr (List.mem_append_right _ ?_)
        rw [hmu]
        exact (workStep_speaks he hno).watch id hwatch
  · rw [hdocker]
    refine workStep_safe (hm.safe r) (hm.tracks r) hmu (fun huses => works_runs hm hmu he (.inl huses))
      (fun spec db pc hw hok => ?_) he
    -- the database has answered, so it runs, and nothing is done to it in this step
    obtain ⟨rfl, hruns⟩ := ensureStep_ok hok
    rw [workStep, hw] at he
    rw [startStep_wait he]
    exact hruns

theorem Action.restarts_of_leaves (hleaves : a.leavesDatabase = true) : a.restarts = false := by
  cases a <;> first | rfl | cases hleaves

theorem guarded_aside (hm : m.Guarded) (hf' : m'.Fresh) (hwf' : m'.Wf)
    (htracks' : ∀ r, (m'.recs r).Tracks) (hleaves : a.leavesDatabase = true) (ha : m.Aside a m') :
    m'.Guarded := by
  have hnewer : ∀ r, ¬ r < m.next → (∃ uuid, m'.recs r = .new uuid) ∨
      ∃ c ∈ m.reconcile, ∃ stored x, m'.recs r = (Inst.new c.name.uuid).adopt c stored x := by
    intro r hr
    by_cases hlt : r < m'.next
    · exact (ha.made r hlt hr).2
    · exact .inl ⟨[], hwf'.unmade r (Nat.le_of_not_lt hlt)⟩
  refine ⟨hf', hwf', htracks', fun r hr => ?_, fun p hp => ?_, fun r => ?_, fun c' hc' uuid hname => ?_,
    fun r id hid c' hc' hid' => ?_⟩
  · by_cases hlt : r < m.next
    · rw [(ha.old r hlt).same_uuid]
      exact ha.insts _ r (hm.mapped r hlt)
    · exact (ha.made r hr hlt).1
  · rcases ha.queue p hp with hp | ⟨uuid, rfl⟩ | ⟨g, hg⟩
    · exact hm.queue p hp
    · simpa [Action.leavesDatabase] using hleaves
    · rw [hg]
      rfl
  · by_cases hlt : r < m.next
    · rw [(ha.old r hlt).same_uuid]
      exact section_safe (ha.old r hlt) (hm.safe r) (aside_runs hm hleaves ha)
    · rcases hnewer r hlt with ⟨uuid, hnew⟩ | ⟨c, -, stored, x, hnew⟩ <;> rw [hnew]
      · exact safe_new
      · exact adopt_safe
  · obtain ⟨c, hc, hid, hname', -⟩ := ha.mem_docker hc'
    obtain ⟨hrecs, hwatchers, hlisted⟩ := hm.strange c hc uuid (hname'.symm.trans hname)
    rw [hid]
    refine ⟨fun r hmem => ?_, fun w hw => ?_, fun c₀ hc₀ => hlisted c₀ (ha.reconcile c₀ hc₀)⟩
    · by_cases hlt : r < m.next
      · exact hrecs r ((section_ids (ha.old r hlt)).1 _ hmem)
      · rcases hnewer r hlt with ⟨uuid, hnew⟩ | ⟨c₀, hc₀, stored, x, hnew⟩ <;> rw [hnew] at hmem
        · cases hmem
        · exact hlisted c₀ hc₀ (adopt_ids.1 _ hmem).symm
    · rcases ha.watchers w hw with ⟨w', hw', hid'⟩ | ⟨c₀, hc₀, hid'⟩
      · exact hid' ▸ hwatchers w' hw'
      · exact hid' ▸ hlisted c₀ hc₀
  · obtain ⟨c, hc, hidc, hname, -⟩ := ha.mem_docker hc'
    by_cases hlt : r < m.next
    · rw [hname, (ha.old r hlt).same_uuid]
      exact hm.made r id ((section_ids (ha.old r hlt)).2 id hid) c hc (hidc.symm.trans hid')
    · rcases hnewer r hlt with ⟨uuid, hnew⟩ | ⟨c₀, hc₀, stored, x, hnew⟩ <;> rw [hnew] at hid
      · cases hid
      · rw [adopt_ids.2] at hid
        cases hid

theorem guarded_step (hleaves : a.leavesDatabase = true) (hnew : m.NewIds a) (htruthful : m.Truthful a)
    (hs : m.step a = some m') (hm : m.Guarded) : m'.Guarded := by
  have hf' := fresh_step hm.fresh hs
  have hwf' := wf_step hm.wf hs
  have htracks' := recs_step keeps_tracks hm.fresh hs hm.tracks
  cases does_of_step hm.fresh (Action.restarts_of_leaves hleaves) hs with
  | aside ha => exact guarded_aside hm hf' hwf' htracks' hleaves ha
  | locks n r q hq hfree hrecs hinsts hnext hdocker hrec hwatchers hqueue =>
    have hmem := List.mem_of_getElem? hq
    have hr := hm.wf.queue r q hmem
    have hplain := hm.queue (r, q) hmem
    have hnone : q.work.ids = [] ∧ q.work.dbIds = [] := by cases q <;> exact ⟨rfl, rfl⟩
    have hholds : m.Holds m' r ((m.recs r).next true q.work) none := by
      refine ⟨hrecs, rfl, hdocker, fun _ h => (nomatch h), fun id hid => .inl ?_, fun id hid => .inl ?_,
        fun w hw => .inl (hwatchers ▸ hw), hrec⟩
      · rcases List.mem_append.mp hid with hid | hid
        · exact List.mem_append_left _ hid
        · have hid : id ∈ q.work.ids := hid
          rw [hnone.1] at hid
          cases hid
      · rcases List.mem_append.mp hid with hid | hid
        · have hid : id ∈ q.work.dbIds := hid
          rw [hnone.2] at hid
          cases hid
        · exact List.mem_append_right _ hid
    refine ⟨hf', hwf', htracks', fun r' hr' => mapped_set hm hrecs rfl hinsts (hnext ▸ hr'),
      fun p hp => ?_, safe_set hm hr hrecs rfl ?_ (fun _ _ => by rw [hdocker]),
      fun c' hc' uuid hname => hholds.strange hm hc' hname, fun r' id hid c' hc' => hholds.made hm hid hc'⟩
    · rw [hqueue] at hp
      exact hm.queue p ((mem_replaceAt hp).resolve_right (by simp))
    · rw [hdocker]
      exact lock_safe (hm.safe r) hplain
  | works r x h e hmu he hrecs hinsts hnext hdocker hrec hwatchers hqueue =>
    obtain ⟨hholds, hsafe⟩ := guarded_works hm hnew hmu he hrecs hdocker hwatchers hrec
    have hdel := (workStep_speaks he ((hm.safe r).kept h hmu)).deleted
    rw [hdel] at hinsts
    refine ⟨hf', hwf', htracks', fun r' hr' => mapped_set hm hrecs hholds.uuid hinsts (hnext ▸ hr'),
      hqueue ▸ hm.queue, safe_set hm (hm.wf.lt_of_opMu hmu) hrecs hholds.uuid hsafe fun uuid hne => ?_,
      fun c' hc' uuid hname => hholds.strange hm hc' hname, fun r' id hid c' hc' => hholds.made hm hid hc'⟩
    rw [hdocker]
    exact works_runs hm hmu he (.inr hne)
  | tends r x db ctx pc hmu hrecs hinsts hnext hdocker hrec hwatchers hqueue =>
    simp only [NewIds, hmu] at hnew
    have hpc : pc = .inspect → x.answer ≠ .failed := by
      rintro rfl
      simpa only [Truthful, hmu] using htruthful
    have hholds : m.Holds m' r (withStep r m.docker (m.recs r) db ctx x pc).1
        (withStep r m.docker (m.recs r) db ctx x pc).2 := by
      refine ⟨hrecs, withStep_uuid, hdocker, fun c hc => ⟨(withStep_create hc).free, hnew c ?_⟩,
        fun id hid => .inl ?_, fun id hid => ?_, fun w hw => .inl (hwatchers ▸ hw), hrec⟩
      · rw [hc]
        exact rfl
      · rw [withStep_fields] at hid
        exact hid
      · rcases List.mem_append.mp hid with hid | hid
        · rw [withStep_fields] at hid
          exact .inl (List.mem_append_left _ hid)
        · exact .inr (withStep_speaks.2 id hid)
    refine ⟨hf', hwf', htracks', fun r' hr' => mapped_set hm hrecs hholds.uuid hinsts (hnext ▸ hr'),
      hqueue ▸ hm.queue, safe_set hm (hm.wf.lt_of_dbMu hmu) hrecs hholds.uuid ?_ fun uuid hne => ?_,
      fun c' hc' uuid hname => hholds.strange hm hc' hname, fun r' id hid c' hc' => hholds.made hm hid hc'⟩
    · rw [hdocker]
      exact withStep_safe (hm.safe r) hmu hpc
    · rw [hdocker]
      exact tends_runs hm hmu hne

/-! ## No stop -/

/-- A task does not stop the database of a game that is tracked. -/
theorem withStep_runs {pc : WithPc} (hstops : pc.stops = false) (hdown : pc.down ctx = true →
      ¬ d.Runs (.database i.uuid)) (hne : pc ≠ .ensure .stop) (hruns : d.Runs (.database i.uuid)) :
    (d.perform (withStep r d i db ctx x pc).2).Runs (.database i.uuid) := by
  cases pc with
  | stop => cases hstops
  | ensure pc =>
    have hcall : (withStep r d i db ctx x (.ensure pc)).2 = (ensureStep r i.uuid d db ctx x pc).1 := by
      simp only [withStep]
      split <;> next heq => rw [heq]
    rw [hcall]
    cases pc with
    | stop => exact absurd rfl hne
    | run id =>
      rw [ensureStep, Docker.perform_calls]
      split
      · exact hruns.start
      · exact hruns
    | network => exact hruns
    | wait => exact hruns
    | _ => exact absurd hruns (hdown rfl)
  | _ =>
    simp only [withStep]
    repeat' split
    all_goals exact hruns

/-- What holds `opMu` and works with the database holds it for a game that is not tracked. -/
theorem Guarded.untracked (hm : m.Guarded) (hmu : (m.recs r).opMu = some h)
    (he : workStep r m.docker (m.recs r) h x = some e) (hid : (m.recs r).record.containerID ≠ none) :
    h.work.usesDb = false ∨ e.call = none := by
  obtain ⟨ctx, w⟩ := h
  cases w with
  | start spec pc =>
    cases pc with
    | ensure pc => exact absurd ((hm.tracks r).unsettled _ hmu rfl) hid
    | _ => exact .inl rfl
  | idle remove pc =>
    cases pc with
    | lockDb => exact .inl rfl
    | read =>
      right
      simp only [workStep, idleStep] at he
      split at he <;> cases he <;> rfl
    | inspect => exact absurd ((hm.safe r).idle ctx remove _ hmu (.inl rfl)) hid
    | stop => exact absurd ((hm.safe r).idle ctx remove _ hmu (.inr rfl)) hid
  | _ => exact .inl rfl

/-- In every run without a `Remove`, in which Docker gives new ids to new containers, in which a
database does not end by itself and in which the inspection before a dump or an import answers: no step
stops the database of an instance while a container of its game is tracked. -/
theorem database_kept (hd : d.Named) (hids : (d.map (·.id)).Nodup)
    (hleaves : ∀ b ∈ as ++ [a], Action.leavesDatabase b = true)
    (hrun : exec step (boot d listed) as = some m)
    (halong : Along step (fun m a => m.NewIds a ∧ m.Truthful a) (boot d listed) (as ++ [a]))
    (hs : m.step a = some m') (hid : (m.recs r).record.containerID ≠ none)
    (hdb : (m.recs r).spec.any (·.database.isSome) = true)
    (hruns : m.docker.Runs (.database (m.recs r).uuid)) :
    m'.docker.Runs (.database (m.recs r).uuid) := by
  obtain ⟨hbefore, hnow⟩ := halong.append hrun
  have hm : m.Guarded :=
    exec_invariant (fun s b s' hC hs hm => guarded_step hC.2 hC.1.1 hC.1.2 hs hm) hrun
      (hbefore.and_forall fun b hb => hleaves b (List.mem_append_left _ hb)) (guarded_boot hd hids)
  have hleaves := hleaves a (by simp)
  have hr : r < m.next := by
    by_contra hle
    rw [hm.wf.unmade r (Nat.le_of_not_lt hle)] at hid
    exact hid rfl
  cases does_of_step hm.fresh (Action.restarts_of_leaves hleaves) hs with
  | aside ha => exact (aside_runs hm hleaves ha).mpr hruns
  | locks n r' q hq hfree hrecs hinsts hnext hdocker =>
    rw [hdocker]
    exact hruns
  | works r' x h e hmu he hrecs hinsts hnext hdocker =>
    rw [hdocker]
    by_cases heq : r = r'
    · subst heq
      rcases hm.untracked hmu he hid with huses | hcall
      · exact (works_runs hm hmu he (.inl huses)).mpr hruns
      · rw [hcall]
        exact hruns
    · have hne := hm.uuid_ne (hm.wf.lt_of_opMu hmu) hr heq
      exact (works_runs hm hmu he (.inr hne)).mpr hruns
  | tends r' x db ctx pc hmu hrecs hinsts hnext hdocker =>
    rw [hdocker]
    by_cases heq : r = r'
    · subst heq
      obtain ⟨hdown, hne⟩ := (hm.safe r).down db ctx pc hmu
      exact withStep_runs ((hm.safe r).tracked db ctx pc hid hdb hmu) hdown hne hruns
    · have hne := hm.uuid_ne (hm.wf.lt_of_dbMu hmu) hr heq
      exact (tends_runs hm hmu hne).mpr hruns

/-- An instance with a database. -/
def served : InstanceSpec := ⟨false, false, false, some ⟨"i".toList, 1⟩⟩

/-- The instance is started, and a dump is asked for while it runs. -/
def dumps : List Action :=
  [.request "a".toList (.start served), .lock 0] ++ List.replicate 9 (.work 0 (.fine "1")) ++
    List.replicate 5 (.work 0 (.fine "2")) ++ [.task "a".toList ⟨"i".toList, 1⟩, .lockDb 0] ++
    List.replicate 2 (.database 0 (.fine ""))

theorem database_kept_dumps :
    ∃ m m', exec step (boot [] true) dumps = some m ∧ m.step (.database 0 (.fine "")) = some m' ∧
      m'.docker.Runs (.database "a".toList) := by
  have hrun : exec step (boot [] true) dumps = some _ := rfl
  refine ⟨_, _, hrun, rfl, ?_⟩
  exact database_kept (r := 0) (a := .database 0 (.fine "")) Docker.named_nil List.nodup_nil (by decide)
    hrun (by decide +kernel) rfl (by decide) rfl (by decide)

end Manager

end Instances
