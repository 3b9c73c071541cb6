import Gsm.Instances.Manager

/-!
# What the manager's steps change

The fields that a step leaves alone, and the calls to Docker it can make. An invariant of the records
is then kept by all steps if the sections keep it (`recs_step`); what a new agent process adopts are
containers of instances it has no record of yet (`Fresh`).
-/

open GoStd Machine

namespace Instances

variable {r r' : ℕ} {d : Docker} {i : Inst} {ctx : Bool} {spec : InstanceSpec} {x : Reply} {e : Move}
  {db : DatabaseSpec} {w : Work} {h : Holder} {m m' : Manager} {uuid : Str}

/-! ## Records -/

namespace Inst

@[simp] theorem next_record : (i.next ctx w).record = i.record := rfl
@[simp] theorem next_opMu : (i.next ctx w).opMu = some ⟨ctx, w⟩ := rfl
@[simp] theorem next_dbMu : (i.next ctx w).dbMu = i.dbMu := rfl
@[simp] theorem unlock_record : i.unlock.record = i.record := rfl
@[simp] theorem unlock_opMu : i.unlock.opMu = none := rfl
@[simp] theorem unlock_dbMu : i.unlock.dbMu = i.dbMu := rfl

/-- What follows on a stop of the game only changes what holds the lock. -/
theorem stopped_eq (ok : Bool) (k : Stopping) :
    i.stopped ctx ok k = { i with opMu := (i.stopped ctx ok k).opMu } := by
  cases k <;> rw [stopped] <;> (try split) <;> rfl

theorem idled_eq (remove : Option Bool) :
    i.idled ctx remove = { i with dbMu := none, opMu := (i.idled ctx remove).opMu } := by
  cases remove <;> rfl

end Inst

/-! ## Sections of other goroutines -/

/-- Under `dbMu` nothing else of the record changes. -/
theorem withStep_fields {db : DatabaseSpec} {pc : WithPc} :
    (withStep r d i db ctx x pc).1 = { i with dbMu := (withStep r d i db ctx x pc).1.dbMu } := by
  cases pc <;> simp only [withStep] <;> (repeat' split) <;> rfl

/-- What `watch` writes of a record and what it leaves alone. -/
theorem exit_record {id : Str} {code : ℤ} {err : Option Str} {now : ℕ} :
    (i.exit id code err now).1.record = (i.record.apply (.exit id code err)).1 ∧
      (i.exit id code err now).1.opMu = i.opMu := by
  simp only [Inst.exit]
  split <;> exact ⟨rfl, rfl⟩

/-! ## Calls -/

/-- Every container that is created has a name that was free, belongs to the record and does not run
yet. -/
structure Docker.Call.Creates (d : Docker) (r : ℕ) (uuid : Str) (c : Container) : Prop where
  free : d.free c.name c.id = true
  owner : c.owner = r
  status : c.status = .created
  uuid : c.name.uuid = uuid

theorem calls_eq_some {effect : Bool} {call call' : Docker.Call}
    (h : calls effect call = some call') : effect = true ∧ call = call' := by
  rw [calls] at h
  split at h
  · next heffect => exact ⟨heffect, Option.some.inj h⟩
  · cases h

theorem Docker.perform_calls {effect : Bool} {call : Docker.Call} :
    d.perform (calls effect call) = if effect then d.perform (some call) else d := by
  cases effect <;> rfl

theorem ensureStep_create {pc : EnsurePc} {c : Container}
    (h : (ensureStep r uuid d db ctx x pc).1 = some (.create c)) :
    Docker.Call.Creates d r uuid c ∧ c.name = .database uuid := by
  cases pc with
  | create =>
    rw [ensureStep] at h
    split at h
    · next hfree =>
      obtain ⟨-, hc⟩ := calls_eq_some h
      cases hc
      exact ⟨⟨hfree, rfl, rfl, rfl⟩, rfl⟩
    · cases h
  | _ => simp only [ensureStep, calls] at h; grind

theorem startStep_create {pc : StartPc} {c : Container}
    (h : startStep r d i ctx spec x pc = some e) (hc : e.call = some (.create c)) :
    Docker.Call.Creates d r i.uuid c := by
  cases pc with
  | create =>
    simp only [startStep] at h
    split at h
    · next hfree =>
      cases h
      obtain ⟨-, hc⟩ := calls_eq_some hc
      cases hc
      exact ⟨hfree, rfl, rfl, rfl⟩
    · cases h
      cases hc
  | ensure pc =>
    simp only [startStep] at h
    split at h
    · cases h
    · next db _ =>
      refine (@ensureStep_create r d ctx x db _ pc _ ?_).1
      split at h <;> cases h <;> simp_all
  | _ => simp only [startStep, Move.of, calls] at h; grind

theorem installStep_create {pc : InstallPc} {c : Container}
    (h : installStep r d i ctx spec x pc = some e) (hc : e.call = some (.create c)) :
    Docker.Call.Creates d r i.uuid c := by
  cases pc with
  | create =>
    simp only [installStep] at h
    split at h
    · next hfree =>
      cases h
      obtain ⟨-, hc⟩ := calls_eq_some hc
      cases hc
      exact ⟨hfree, rfl, rfl, rfl⟩
    · cases h
      cases hc
  | _ => simp only [installStep, Move.of, calls] at h; grind

theorem stopStep_create {pc : StopPc} {k : Stopping} {c : Container}
    (h : stopStep i ctx k x pc = some e) : e.call ≠ some (.create c) := by
  cases pc <;> simp only [stopStep, waitStep, Move.of, calls] at h <;> grind

theorem idleStep_create {pc : IdlePc} {remove : Option Bool} {c : Container}
    (h : idleStep d i ctx remove x pc = some e) : e.call ≠ some (.create c) := by
  cases pc <;> simp only [idleStep, Move.of, calls] at h <;> grind

theorem removeStep_create {pc : RemovePc} {deleteFiles : Bool} {c : Container}
    (h : removeStep i ctx deleteFiles x pc = some e) : e.call ≠ some (.create c) := by
  cases pc <;> simp only [removeStep, Move.of, calls] at h <;> grind

theorem workStep_create {c : Container} (hw : workStep r d i h x = some e)
    (hc : e.call = some (.create c)) : Docker.Call.Creates d r i.uuid c := by
  rw [workStep] at hw
  split at hw
  · exact installStep_create hw hc
  · exact startStep_create hw hc
  · exact absurd hc (stopStep_create hw)
  · exact absurd hc (idleStep_create hw)
  · exact absurd hc (removeStep_create hw)
  · cases hw
    cases hc

theorem withStep_create {pc : WithPc} {c : Container}
    (hc : (withStep r d i db ctx x pc).2 = some (.create c)) :
    Docker.Call.Creates d r i.uuid c := by
  cases pc with
  | ensure pc =>
    refine (@ensureStep_create r d ctx x db _ pc _ ?_).1
    rw [withStep] at hc
    split at hc <;> simp_all
  | _ => simp only [withStep, calls] at hc; grind

theorem Docker.Named.perform {call : Option Docker.Call} (hd : d.Named)
    (hfree : ∀ c, call = some (.create c) → d.free c.name c.id = true) : (d.perform call).Named := by
  match call with
  | none => exact hd
  | some (.create c) => exact hd.create (hfree c rfl)
  | some (.start ref) => exact hd.start
  | some (.halt ref code) => exact hd.halt
  | some (.remove ref) => exact hd.remove

/-! ## Tracking -/

/-- The step leaves alone what is tracked. -/
structure Move.Untracked (e : Move) (i : Inst) : Prop where
  containerID : e.inst.record.containerID = i.record.containerID
  tracked : e.inst.tracked = i.tracked
  exits : e.inst.exits = i.exits
  watch : e.watch = none

/-- The section writes the container's id. -/
def Op.tracks : Op → Bool
  | .track .. => true
  | .exit .. => true
  | _ => false

theorem Record.containerID_apply {rec : Record} {op : Op} (hop : op.tracks = false) :
    (rec.apply op).1.containerID = rec.containerID := by
  cases op <;> grind [Record.apply, Op.tracks]

theorem startStep_track {pc : StartPc} (hs : startStep r d i ctx spec x pc = some e) :
    e.Untracked i ∨ ∃ id, pc = .track id ∧
      e = ⟨(i.track id (!spec.ready) x.now).unlock, none, some id, false⟩ := by
  cases pc with
  | track id =>
    cases hs
    exact .inr ⟨id, rfl, rfl⟩
  | ensure pc =>
    simp only [startStep] at hs
    split at hs
    · cases hs
    · split at hs <;> cases hs <;> exact .inl ⟨rfl, rfl, rfl, rfl⟩
  | _ =>
    left
    simp only [startStep, Move.of] at hs
    constructor <;> grind [Inst.next, Inst.unlock, Record.containerID_apply, Op.tracks]

theorem stopStep_untracked {pc : StopPc} {k : Stopping} (hs : stopStep i ctx k x pc = some e) :
    e.Untracked i := by
  have hstopped : ∀ (j : Inst) ctx' ok, (j.stopped ctx' ok k).record = j.record ∧
      (j.stopped ctx' ok k).tracked = j.tracked ∧ (j.stopped ctx' ok k).exits = j.exits := by
    intro j ctx' ok
    rw [Inst.stopped_eq]
    exact ⟨rfl, rfl, rfl⟩
  cases pc <;> simp only [stopStep, waitStep, Move.of] at hs <;> constructor <;>
    grind [Inst.next, Record.containerID_apply, Op.tracks]

theorem idleStep_untracked {pc : IdlePc} {remove : Option Bool}
    (hs : idleStep d i ctx remove x pc = some e) : e.Untracked i := by
  have hidled : (i.idled ctx remove).record = i.record ∧
      (i.idled ctx remove).tracked = i.tracked ∧ (i.idled ctx remove).exits = i.exits := by
    rw [Inst.idled_eq]
    exact ⟨rfl, rfl, rfl⟩
  cases pc <;> simp only [idleStep, Move.of] at hs <;> constructor <;> grind [Inst.next]

theorem installStep_untracked {pc : InstallPc} (hs : installStep r d i ctx spec x pc = some e) :
    e.Untracked i := by
  cases pc <;> simp only [installStep, Inst.failInstall, Move.of] at hs <;> constructor <;>
    grind [Inst.next, Inst.unlock, Record.containerID_apply, Op.tracks]

theorem removeStep_untracked {pc : RemovePc} {deleteFiles : Bool}
    (hs : removeStep i ctx deleteFiles x pc = some e) : e.Untracked i := by
  cases pc <;> simp only [removeStep, Move.of] at hs <;> constructor <;>
    grind [Inst.next, Inst.unlock]

theorem crashStep_eq : crashStep i = { i with opMu := (crashStep i).opMu } := by
  rw [crashStep]
  split
  · rfl
  · split <;> rfl

/-- Of all the steps under `opMu`, only the last one of a start tracks a container. -/
theorem workStep_track (hs : workStep r d i h x = some e) :
    e.Untracked i ∨ ∃ spec id, h.work = .start spec (.track id) ∧
      e = ⟨(i.track id (!spec.ready) x.now).unlock, none, some id, false⟩ := by
  rw [workStep] at hs
  split at hs
  · exact .inl (installStep_untracked hs)
  · next spec pc hw =>
    rcases startStep_track hs with hun | ⟨id, rfl, he⟩
    · exact .inl hun
    · exact .inr ⟨spec, id, hw, he⟩
  · exact .inl (stopStep_untracked hs)
  · exact .inl (idleStep_untracked hs)
  · exact .inl (removeStep_untracked hs)
  · cases hs
    rw [crashStep_eq]
    exact .inl ⟨rfl, rfl, rfl, rfl⟩

/-- An install stays one until it has come to its end. -/
theorem installStep_next {pc : InstallPc} (hs : installStep r d i ctx spec x pc = some e)
    (hmu : e.inst.opMu = some h) : ∃ ctx' pc', h = ⟨ctx', .install spec pc'⟩ := by
  cases pc <;> simp only [installStep, Inst.failInstall, Move.of] at hs <;>
    grind [Inst.next, Inst.unlock]

/-! ## The uuid -/

theorem startStep_uuid {pc : StartPc} (hs : startStep r d i ctx spec x pc = some e) :
    e.inst.uuid = i.uuid := by
  cases pc <;> simp only [startStep, Move.of] at hs <;> grind [Inst.next, Inst.unlock, Inst.track]

theorem stopStep_uuid {pc : StopPc} {k : Stopping} (hs : stopStep i ctx k x pc = some e) :
    e.inst.uuid = i.uuid := by
  have hstopped : ∀ (j : Inst) ctx' ok, (j.stopped ctx' ok k).uuid = j.uuid := by
    intro j ctx' ok
    rw [Inst.stopped_eq]
  cases pc <;> simp only [stopStep, waitStep, Move.of] at hs <;> grind [Inst.next]

theorem idleStep_uuid {pc : IdlePc} {remove : Option Bool}
    (hs : idleStep d i ctx remove x pc = some e) : e.inst.uuid = i.uuid := by
  have hidled : (i.idled ctx remove).uuid = i.uuid := by rw [Inst.idled_eq]
  cases pc <;> simp only [idleStep, Move.of] at hs <;> grind [Inst.next]

theorem installStep_uuid {pc : InstallPc} (hs : installStep r d i ctx spec x pc = some e) :
    e.inst.uuid = i.uuid := by
  cases pc <;> simp only [installStep, Inst.failInstall, Move.of] at hs <;>
    grind [Inst.next, Inst.unlock]

theorem removeStep_uuid {pc : RemovePc} {deleteFiles : Bool}
    (hs : removeStep i ctx deleteFiles x pc = some e) : e.inst.uuid = i.uuid := by
  cases pc <;> simp only [removeStep, Move.of] at hs <;> grind [Inst.next, Inst.unlock]

theorem crashStep_uuid : (crashStep i).uuid = i.uuid := by
  rw [crashStep_eq]

theorem workStep_uuid (hs : workStep r d i h x = some e) : e.inst.uuid = i.uuid := by
  rw [workStep] at hs
  split at hs
  · exact installStep_uuid hs
  · exact startStep_uuid hs
  · exact stopStep_uuid hs
  · exact idleStep_uuid hs
  · exact removeStep_uuid hs
  · cases hs
    exact crashStep_uuid

theorem withStep_uuid {pc : WithPc} : (withStep r d i db ctx x pc).1.uuid = i.uuid := by
  cases pc <;> simp only [withStep] <;> (repeat' split) <;> rfl

theorem exit_uuid {id : Str} {code : ℤ} {err : Option Str} {now : ℕ} :
    (i.exit id code err now).1.uuid = i.uuid := by
  simp only [Inst.exit]
  split <;> rfl

theorem adopt_uuid {c : Container} {stored : Option InstanceSpec} :
    (i.adopt c stored x).uuid = i.uuid := by
  simp only [Inst.adopt]
  split
  · split <;> rfl
  · rfl

/-! ## The manager -/

namespace Manager

@[simp] theorem set_recs_self : (m.set r i).recs r = i := Function.update_self ..

theorem set_recs_ne (hne : r' ≠ r) : (m.set r i).recs r' = m.recs r' :=
  Function.update_of_ne hne ..

theorem get_of_some (hr : m.insts uuid = some r) : m.get uuid = (m, r) := by
  rw [get, hr]

theorem get_of_none (hr : m.insts uuid = none) :
    m.get uuid = ({ m with
      insts := Function.update m.insts uuid (some m.next)
      recs := Function.update m.recs m.next (.new uuid)
      next := m.next + 1 }, m.next) := by
  rw [get, hr]

@[simp] theorem get_docker : (m.get uuid).1.docker = m.docker := by
  rw [get]
  split <;> rfl

@[simp] theorem get_reconcile : (m.get uuid).1.reconcile = m.reconcile := by
  rw [get]
  split <;> rfl

@[simp] theorem get_queue : (m.get uuid).1.queue = m.queue := by
  rw [get]
  split <;> rfl

@[simp] theorem get_watchers : (m.get uuid).1.watchers = m.watchers := by
  rw [get]
  split <;> rfl

@[simp] theorem get_restores : (m.get uuid).1.restores = m.restores := by
  rw [get]
  split <;> rfl

/-- `get` leads to the record that the map holds then. -/
theorem get_insts : (m.get uuid).1.insts uuid = some (m.get uuid).2 := by
  rw [get]
  split
  · next r hr => exact hr
  · exact Function.update_self ..

/-- A record is the one it was, or a new one. -/
theorem get_recs : (m.get uuid).1.recs r = m.recs r ∨ (m.get uuid).1.recs r = .new uuid := by
  rw [get]
  split
  · exact .inl rfl
  · by_cases hr : r = m.next
    · subst hr
      exact .inr (Function.update_self ..)
    · exact .inl (Function.update_of_ne hr ..)

/-- The step of an operation. -/
theorem work_eq_some (hs : m.step (.work r x) = some m') :
    ∃ h e, (m.recs r).opMu = some h ∧ workStep r m.docker (m.recs r) h x = some e ∧
      m' = { m.set r e.inst with
        docker := m.docker.perform e.call
        watchers := m.watchers ++ (e.watch.map fun id => ⟨r, id, .waiting⟩).toList
        insts := if e.deleted then Function.update m.insts (m.recs r).uuid none else m.insts } := by
  rw [step] at hs
  split at hs
  · cases hs
  · next h hmu =>
    split at hs
    · cases hs
    · next e he =>
      cases hs
      exact ⟨h, e, hmu, he, rfl⟩

/-- What `Reconcile` has not come to are game containers of different instances, which the map does
not know. -/
structure Fresh (m : Manager) : Prop where
  names : m.docker.Named
  once : (m.reconcile.map (·.name)).Nodup
  games : ∀ c ∈ m.reconcile, c.name = .game c.name.uuid
  unknown : ∀ c ∈ m.reconcile, m.insts c.name.uuid = none

theorem fresh_boot {listed : Bool} (hd : d.Named) : (boot d listed).Fresh := by
  refine ⟨hd, ?_, fun c hc => ?_, fun _ _ => rfl⟩
  · rw [boot]
    split
    · exact hd.sublist (List.Sublist.map _ List.filter_sublist)
    · exact List.nodup_nil
  · rw [boot] at hc
    simp only at hc
    split at hc
    · simpa using (List.mem_filter.mp hc).2
    · cases hc

/-- Nothing is left to be adopted, or nothing new is known. -/
theorem Fresh.of (hf : m.Fresh) (hdocker : m'.docker.Named) (hrec : m'.reconcile = m.reconcile)
    (hinsts : m.reconcile = [] ∨ ∀ uuid, m.insts uuid = none → m'.insts uuid = none) : m'.Fresh := by
  refine ⟨hdocker, hrec ▸ hf.once, hrec ▸ hf.games, fun c hc => ?_⟩
  rw [hrec] at hc
  rcases hinsts with hnil | hinsts
  · rw [hnil] at hc
    cases hc
  · exact hinsts _ (hf.unknown c hc)

theorem adopt_insts {c : Container} {spec : Option InstanceSpec} {x y : Reply} :
    (m.adopt c spec x y).insts = (m.get c.name.uuid).1.insts := by
  simp only [adopt]
  split <;> rfl

theorem adopt_recs {c : Container} {spec : Option InstanceSpec} {x y : Reply} :
    (m.adopt c spec x y).recs = Function.update (m.get c.name.uuid).1.recs (m.get c.name.uuid).2
      (((m.get c.name.uuid).1.recs (m.get c.name.uuid).2).adopt c spec x) := by
  simp only [adopt]
  split <;> rfl

theorem adopt_docker {c : Container} {spec : Option InstanceSpec} {x y : Reply} :
    (m.adopt c spec x y).docker = m.docker ∨
      (m.adopt c spec x y).docker = m.docker.remove (.id c.id) := by
  simp only [adopt]
  split
  · exact .inl get_docker
  · rw [calls]
    split
    · exact .inr (congrArg (Docker.remove · _) get_docker)
    · exact .inl get_docker

theorem fresh_adopt {c : Container} {rest : List Container} {spec : Option InstanceSpec}
    {x y : Reply} (hf : m.Fresh) (hc : m.reconcile = c :: rest) :
    { m.adopt c spec x y with reconcile := rest }.Fresh := by
  have honce := hf.once
  rw [hc, List.map_cons, List.nodup_cons] at honce
  have hsub : ∀ c' ∈ rest, c' ∈ m.reconcile := fun c' hc' => hc ▸ List.mem_cons_of_mem _ hc'
  refine ⟨?_, honce.2, fun c' hc' => hf.games c' (hsub c' hc'), fun c' hc' => ?_⟩
  · show (m.adopt c spec x y).docker.Named
    rcases (adopt_docker : (m.adopt c spec x y).docker = m.docker ∨ _) with hd | hd
    · exact hd ▸ hf.names
    · exact hd ▸ hf.names.remove
  · -- both are game containers, so their uuids differ as their names do
    have hne : c'.name.uuid ≠ c.name.uuid := by
      intro heq
      refine honce.1 (List.mem_map.mpr ⟨c', hc', ?_⟩)
      rw [hf.games c' (hsub c' hc'), hf.games c (hc ▸ List.mem_cons_self), heq]
    show (m.adopt c spec x y).insts c'.name.uuid = none
    rw [adopt_insts, get_of_none (hf.unknown c (hc ▸ List.mem_cons_self))]
    exact (Function.update_of_ne hne ..).trans (hf.unknown c' (hsub c' hc'))

theorem watchStep_docker {n : ℕ} {w : Watcher} (hs : m.watchStep n w x = some m') :
    m'.docker = m.docker ∨ m'.docker = m.docker.remove (.id w.id) := by
  simp only [watchStep] at hs
  split at hs
  · split at hs
    · cases hs
    · split at hs <;> cases hs <;> exact .inl rfl
  · cases hs
    simp only [calls]
    split
    · exact .inr rfl
    · exact .inl rfl

theorem watchStep_frame {n : ℕ} {w : Watcher} (hs : m.watchStep n w x = some m') :
    m'.insts = m.insts ∧ m'.reconcile = m.reconcile := by
  simp only [watchStep] at hs
  split at hs
  · split at hs
    · cases hs
    · split at hs <;> cases hs <;> exact ⟨rfl, rfl⟩
  · cases hs
    exact ⟨rfl, rfl⟩

theorem restoreStep_frame {n : ℕ} {t : Restoring} :
    (m.restoreStep n t x).insts = m.insts ∧ (m.restoreStep n t x).recs = m.recs ∧
      (m.restoreStep n t x).docker = m.docker ∧ (m.restoreStep n t x).reconcile = m.reconcile := by
  rw [restoreStep]
  split <;> exact ⟨rfl, rfl, rfl, rfl⟩

theorem fresh_step {a : Action} (hf : m.Fresh) (hs : m.step a = some m') : m'.Fresh := by
  cases a with
  | request uuid q =>
    simp only [step] at hs
    split at hs
    · next hq =>
      cases hs
      exact hf.of (by simpa using hf.names) get_reconcile (.inl hq.1)
    · cases hs
  | lock n =>
    simp only [step] at hs
    split at hs
    · cases hs
    · split at hs
      · cases hs
      · cases hs
        exact hf.of hf.names rfl (.inr fun _ h => h)
  | work r x =>
    simp only [step] at hs
    split at hs
    · cases hs
    · split at hs
      · cases hs
      · next e he =>
        cases hs
        refine hf.of (hf.names.perform fun c hc => (workStep_create he hc).free) rfl (.inr ?_)
        intro uuid hnone
        show (if e.deleted then Function.update m.insts (m.recs r).uuid none else m.insts) uuid = none
        split
        · by_cases huuid : uuid = (m.recs r).uuid
          · rw [huuid]
            exact Function.update_self ..
          · exact (Function.update_of_ne huuid ..).trans hnone
        · exact hnone
  | ready r =>
    cases hs
    exact hf.of hf.names rfl (.inr fun _ h => h)
  | watch n x =>
    simp only [step] at hs
    split at hs
    · cases hs
    · obtain ⟨hinsts, hrec⟩ := watchStep_frame hs
      refine hf.of ?_ hrec (.inr fun uuid hnone => hinsts ▸ hnone)
      rcases watchStep_docker hs with hd | hd
      · exact hd ▸ hf.names
      · exact hd ▸ hf.names.remove
  | ends name code =>
    cases hs
    exact hf.of hf.names.halt rfl (.inr fun _ h => h)
  | task uuid db =>
    simp only [step] at hs
    split at hs
    · next hq =>
      cases hs
      exact hf.of (by simpa using hf.names) get_reconcile (.inl hq)
    · cases hs
  | lockDb n =>
    simp only [step] at hs
    split at hs
    · cases hs
    · split at hs
      · cases hs
      · cases hs
        exact hf.of hf.names rfl (.inr fun _ h => h)
  | database r x =>
    simp only [step] at hs
    split at hs
    · cases hs
      exact hf.of (hf.names.perform fun c hc => (withStep_create hc).free) rfl (.inr fun _ h => h)
    · cases hs
  | restore uuid =>
    simp only [step] at hs
    split at hs
    · cases hs
      exact hf.of hf.names rfl (.inr fun _ h => h)
    · cases hs
  | restoring n x =>
    simp only [step] at hs
    split at hs
    · cases hs
    · cases hs
      obtain ⟨hinsts, -, hdocker, hrec⟩ := restoreStep_frame (m := m)
      exact hf.of (hdocker ▸ hf.names) hrec (.inr fun uuid hnone => hinsts ▸ hnone)
  | restart listed =>
    cases hs
    exact fresh_boot hf.names
  | adopt spec x y =>
    simp only [step] at hs
    split at hs
    · cases hs
    · next c rest hc =>
      cases hs
      exact fresh_adopt hf hc

/-! ## Pointers -/

/-- Whoever knows a record knows one that has been made, and the map knows it by its uuid. -/
structure Wf (m : Manager) : Prop where
  map : ∀ uuid r, m.insts uuid = some r → r < m.next ∧ (m.recs r).uuid = uuid
  queue : ∀ r q, (r, q) ∈ m.queue → r < m.next
  watchers : ∀ w ∈ m.watchers, w.inst < m.next
  tasks : ∀ r db, (r, db) ∈ m.tasks → r < m.next
  unmade : ∀ r, m.next ≤ r → m.recs r = .new []

theorem wf_boot {listed : Bool} : (boot d listed).Wf :=
  ⟨fun _ _ h => (nomatch h), fun _ _ h => (nomatch h), fun _ h => (nomatch h),
    fun _ _ h => (nomatch h), fun _ _ => rfl⟩

theorem get_lt (hwf : m.Wf) : (m.get uuid).2 < (m.get uuid).1.next := by
  rw [get]
  split
  · next r hr => exact (hwf.map uuid r hr).1
  · exact Nat.lt_succ_self _

theorem le_get : m.next ≤ (m.get uuid).1.next := by
  rw [get]
  split
  · exact Nat.le_refl _
  · exact Nat.le_succ _

theorem get_recs_of_lt (hr : r < m.next) : (m.get uuid).1.recs r = m.recs r := by
  rw [get]
  split
  · rfl
  · exact Function.update_of_ne (Nat.ne_of_lt hr) ..

theorem wf_get (hwf : m.Wf) : (m.get uuid).1.Wf := by
  rcases hmap : m.insts uuid with _ | r
  · rw [get_of_none hmap]
    refine ⟨fun uuid' r' hr' => ?_, fun r' q hq => (hwf.queue r' q hq).trans (Nat.lt_succ_self _),
      fun w hw => (hwf.watchers w hw).trans (Nat.lt_succ_self _),
      fun r' db hdb => (hwf.tasks r' db hdb).trans (Nat.lt_succ_self _), fun r' hr' => ?_⟩
    · by_cases huuid : uuid' = uuid
      · subst huuid
        obtain rfl : m.next = r' :=
          Option.some.inj ((Function.update_self uuid' _ m.insts).symm.trans hr')
        refine ⟨Nat.lt_succ_self _, ?_⟩
        show (Function.update m.recs m.next (Inst.new uuid') m.next).uuid = uuid'
        rw [Function.update_self]
        rfl
      · have hold : m.insts uuid' = some r' :=
          (Function.update_of_ne huuid _ m.insts).symm.trans hr'
        obtain ⟨hlt, hu⟩ := hwf.map uuid' r' hold
        refine ⟨hlt.trans (Nat.lt_succ_self _), ?_⟩
        show (Function.update m.recs m.next (Inst.new uuid) r').uuid = uuid'
        rw [Function.update_of_ne (Nat.ne_of_lt hlt)]
        exact hu
    · have hlt : m.next < r' := hr'
      exact (Function.update_of_ne (Nat.ne_of_gt hlt) ..).trans (hwf.unmade r' (Nat.le_of_lt hlt))
  · rw [get_of_some hmap]
    exact hwf

/-- What holds a lock of a record shows that the record has been made. -/
theorem Wf.lt_of_opMu (hwf : m.Wf) (hmu : (m.recs r).opMu = some h) : r < m.next := by
  by_contra hle
  rw [hwf.unmade r (Nat.le_of_not_lt hle)] at hmu
  cases hmu

theorem Wf.lt_of_dbMu {dh : DbHolder} (hwf : m.Wf) (hmu : (m.recs r).dbMu = some dh) :
    r < m.next := by
  by_contra hle
  rw [hwf.unmade r (Nat.le_of_not_lt hle)] at hmu
  cases hmu

/-- A change of one record that has been made, and goroutines that end. -/
theorem Wf.set (hwf : m.Wf) (hr : r < m.next) (hi : i.uuid = (m.recs r).uuid) : (m.set r i).Wf := by
  refine ⟨fun uuid r' hr' => ?_, hwf.queue, hwf.watchers, hwf.tasks, fun r' hr' => ?_⟩
  · obtain ⟨hlt, hu⟩ := hwf.map uuid r' hr'
    refine ⟨hlt, ?_⟩
    by_cases heq : r' = r
    · subst heq
      rw [set_recs_self, hi]
      exact hu
    · rw [set_recs_ne heq]
      exact hu
  · have hle : m.next ≤ r' := hr'
    rw [set_recs_ne (by omega)]
    exact hwf.unmade r' hle

theorem wf_watch {n : ℕ} {w : Watcher} (hwf : m.Wf) (hmem : w ∈ m.watchers)
    (hs : m.watchStep n w x = some m') : m'.Wf := by
  have hlt := hwf.watchers w hmem
  simp only [watchStep] at hs
  split at hs
  · split at hs
    · cases hs
    · split at hs
      · cases hs
        have hset := hwf.set hlt
          (show ({ m.recs w.inst with exited := w.id :: (m.recs w.inst).exited } : Inst).uuid = _
            from rfl)
        refine ⟨hset.map, hset.queue, fun w' hw' => ?_, hset.tasks, hset.unmade⟩
        exact hwf.watchers w' ((mem_replaceAt hw').resolve_right (by simp))
      · cases hs
        have hset := hwf.set (i := ((m.recs w.inst).exit w.id x.code
          (if x.answer.ok true then none else some x.text) x.now).1) hlt exit_uuid
        refine ⟨hset.map, hset.queue, fun w' hw' => ?_, hset.tasks, hset.unmade⟩
        rcases mem_replaceAt hw' with hw' | hw'
        · exact hwf.watchers w' hw'
        · obtain rfl := List.mem_singleton.mp hw'
          exact hlt
  · next restart _ =>
    cases hs
    have hset := hwf.set hlt
      (show ({ m.recs w.inst with exited := w.id :: (m.recs w.inst).exited } : Inst).uuid = _
        from rfl)
    refine ⟨hset.map, fun r q hq => ?_, fun w' hw' => ?_, hset.tasks, hset.unmade⟩
    · rcases List.mem_append.mp hq with hq | hq
      · exact hwf.queue r q hq
      · cases restart with
        | none => cases hq
        | some g =>
          obtain ⟨rfl, -⟩ := Prod.mk.inj (List.mem_singleton.mp hq)
          exact hlt
    · exact hwf.watchers w' ((mem_replaceAt hw').resolve_right (by simp))

theorem wf_adopt {c : Container} {rest : List Container} {stored : Option InstanceSpec} {y : Reply}
    (hwf : m.Wf) : { m.adopt c stored x y with reconcile := rest }.Wf := by
  have hget : (m.get c.name.uuid).1.Wf := wf_get hwf
  have hlt : (m.get c.name.uuid).2 < (m.get c.name.uuid).1.next := get_lt hwf
  have hset := hget.set (i := ((m.get c.name.uuid).1.recs (m.get c.name.uuid).2).adopt c stored x)
    hlt adopt_uuid
  simp only [adopt]
  split
  · refine ⟨hset.map, hset.queue, fun w hw => ?_, hset.tasks, hset.unmade⟩
    rcases List.mem_append.mp hw with hw | hw
    · exact hset.watchers w hw
    · split at hw
      · obtain rfl := List.mem_singleton.mp hw
        exact hlt
      · cases hw
  · exact ⟨hset.map, hset.queue, hset.watchers, hset.tasks, hset.unmade⟩

theorem wf_step {a : Action} (hwf : m.Wf) (hs : m.step a = some m') : m'.Wf := by
  cases a with
  | request uuid q =>
    simp only [step] at hs
    split at hs
    · cases hs
      have hget : (m.get uuid).1.Wf := wf_get hwf
      refine ⟨hget.map, fun r q' hq => ?_, hget.watchers, hget.tasks, hget.unmade⟩
      rcases List.mem_append.mp hq with hq | hq
      · exact Nat.lt_of_lt_of_le (hwf.queue r q' hq) le_get
      · obtain ⟨rfl, -⟩ := Prod.mk.inj (List.mem_singleton.mp hq)
        exact get_lt hwf
    · cases hs
  | lock n =>
    simp only [step] at hs
    split at hs
    · cases hs
    · next r q hq =>
      split at hs
      · cases hs
      · cases hs
        have hset := hwf.set (i := (m.recs r).next true q.work)
          (hwf.queue r q (List.mem_of_getElem? hq)) rfl
        refine ⟨hset.map, fun r' q' hq' => ?_, hset.watchers, hset.tasks, hset.unmade⟩
        exact hwf.queue r' q' ((mem_replaceAt hq').resolve_right (by simp))
  | work r x =>
    simp only [step] at hs
    split at hs
    · cases hs
    · next hmu =>
      split at hs
      · cases hs
      · next e he =>
        cases hs
        have hset := hwf.set (hwf.lt_of_opMu hmu) (workStep_uuid he)
        refine ⟨fun uuid r' hr' => ?_, hset.queue, fun w hw => ?_, hset.tasks, hset.unmade⟩
        · refine hset.map uuid r' ?_
          have hr'' : (if e.deleted then Function.update m.insts (m.recs r).uuid none
            else m.insts) uuid = some r' := hr'
          split at hr''
          · by_cases huuid : uuid = (m.recs r).uuid
            · rw [huuid, Function.update_self] at hr''
              cases hr''
            · rw [Function.update_of_ne huuid] at hr''
              exact hr''
          · exact hr''
        · rcases List.mem_append.mp hw with hw | hw
          · exact hwf.watchers w hw
          · cases hwatch : e.watch with
            | none => rw [hwatch] at hw; cases hw
            | some id =>
              rw [hwatch] at hw
              obtain rfl := List.mem_singleton.mp hw
              exact hwf.lt_of_opMu hmu
  | ready r =>
    cases hs
    by_cases hr : r < m.next
    · exact hwf.set hr rfl
    · -- a record that nobody has made is stopped
      have hsame : m.set r { m.recs r with record := ((m.recs r).record.apply .matchReady).1 } = m := by
        rw [hwf.unmade r (Nat.le_of_not_lt hr)]
        show { m with recs := Function.update m.recs r (.new []) } = m
        rw [← hwf.unmade r (Nat.le_of_not_lt hr), Function.update_eq_self]
      rw [hsame]
      exact hwf
  | watch n x =>
    simp only [step] at hs
    split at hs
    · cases hs
    · next w hw => exact wf_watch hwf (List.mem_of_getElem? hw) hs
  | ends name code =>
    cases hs
    exact ⟨hwf.map, hwf.queue, hwf.watchers, hwf.tasks, hwf.unmade⟩
  | task uuid db =>
    simp only [step] at hs
    split at hs
    · cases hs
      have hget : (m.get uuid).1.Wf := wf_get hwf
      refine ⟨hget.map, hget.queue, hget.watchers, fun r db' hdb => ?_, hget.unmade⟩
      rcases List.mem_append.mp hdb with hdb | hdb
      · exact Nat.lt_of_lt_of_le (hwf.tasks r db' hdb) le_get
      · obtain ⟨rfl, -⟩ := Prod.mk.inj (List.mem_singleton.mp hdb)
        exact get_lt hwf
    · cases hs
  | lockDb n =>
    simp only [step] at hs
    split at hs
    · cases hs
    · next r db hdb =>
      split at hs
      · cases hs
      · cases hs
        have hset := hwf.set (i := { m.recs r with dbMu := some (.task db true .inspect) })
          (hwf.tasks r db (List.mem_of_getElem? hdb)) rfl
        refine ⟨hset.map, hset.queue, hset.watchers, fun r' db' hdb' => ?_, hset.unmade⟩
        exact hwf.tasks r' db' ((mem_replaceAt hdb').resolve_right (by simp))
  | database r x =>
    simp only [step] at hs
    split at hs
    · next db ctx pc hmu =>
      cases hs
      have hset := hwf.set (i := (withStep r m.docker (m.recs r) db ctx x pc).1)
        (hwf.lt_of_dbMu hmu) withStep_uuid
      exact ⟨hset.map, hset.queue, hset.watchers, hset.tasks, hset.unmade⟩
    · cases hs
  | restore uuid =>
    simp only [step] at hs
    split at hs
    · cases hs
      exact ⟨hwf.map, hwf.queue, hwf.watchers, hwf.tasks, hwf.unmade⟩
    · cases hs
  | restoring n x =>
    simp only [step] at hs
    split at hs
    · cases hs
    · next t _ =>
      cases hs
      rw [restoreStep]
      split <;> exact ⟨hwf.map, hwf.queue, hwf.watchers, hwf.tasks, hwf.unmade⟩
  | restart listed =>
    cases hs
    exact wf_boot
  | adopt stored x y =>
    simp only [step] at hs
    split at hs
    · cases hs
    · cases hs
      exact wf_adopt hwf

/-! ## Invariants of the records -/

/-- The sections keep a property of a record. -/
structure Keeps (P : Inst → Prop) : Prop where
  new : ∀ uuid, P (.new uuid)
  adopt : ∀ uuid c spec x, P ((Inst.new uuid).adopt c spec x)
  lock : ∀ i q, i.opMu = none → P i → P (i.next true (Request.work q))
  work : ∀ r d i h x e, i.opMu = some h → workStep r d i h x = some e → P i → P e.inst
  ready : ∀ i, P i → P { i with record := (i.record.apply .matchReady).1 }
  exit : ∀ i id code err now, i.record.containerID = some id → P i → P (i.exit id code err now).1
  exited : ∀ i id, P i → P { i with exited := id :: i.exited }
  lockDb : ∀ i db, i.dbMu = none → P i → P { i with dbMu := some (.task db true .inspect) }
  database : ∀ r d i db ctx x pc, i.dbMu = some (.task db ctx pc) → P i →
    P (withStep r d i db ctx x pc).1

variable {P : Inst → Prop} {a : Action} {as : List Action} {listed : Bool}

theorem forall_set (hP : ∀ r, P (m.recs r)) (hi : P i) (r' : ℕ) : P ((m.set r i).recs r') := by
  by_cases hr : r' = r
  · subst hr
    rw [set_recs_self]
    exact hi
  · rw [set_recs_ne hr]
    exact hP r'

theorem forall_get (hnew : ∀ uuid, P (.new uuid)) (hP : ∀ r, P (m.recs r)) (r : ℕ) :
    P ((m.get uuid).1.recs r) := by
  rcases (get_recs : (m.get uuid).1.recs r = m.recs r ∨ _) with hr | hr
  · rw [hr]
    exact hP r
  · rw [hr]
    exact hnew uuid

theorem recs_watch {n : ℕ} {w : Watcher} (hk : Keeps P) (hs : m.watchStep n w x = some m')
    (hP : ∀ r, P (m.recs r)) : ∀ r, P (m'.recs r) := by
  simp only [watchStep] at hs
  split at hs
  · split at hs
    · cases hs
    · split at hs
      · cases hs
        exact forall_set hP (hk.exited _ _ (hP w.inst))
      · next hid =>
        cases hs
        exact forall_set hP (hk.exit _ _ _ _ _ (not_not.mp hid) (hP w.inst))
  · cases hs
    exact forall_set hP (hk.exited _ _ (hP w.inst))

theorem recs_adopt {c : Container} {rest : List Container} {spec : Option InstanceSpec}
    {x y : Reply} (hk : Keeps P) (hf : m.Fresh) (hc : m.reconcile = c :: rest)
    (hP : ∀ r, P (m.recs r)) (r : ℕ) : P ((m.adopt c spec x y).recs r) := by
  rw [adopt_recs, get_of_none (hf.unknown c (hc ▸ List.mem_cons_self))]
  by_cases hr : r = m.next
  · -- the record is the one that was made for it
    subst hr
    simp only [Function.update_self]
    exact hk.adopt _ c spec x
  · simp only [Function.update_of_ne hr]
    exact hP r

theorem recs_step (hk : Keeps P) (hf : m.Fresh) (hs : m.step a = some m')
    (hP : ∀ r, P (m.recs r)) : ∀ r, P (m'.recs r) := by
  cases a with
  | request uuid q =>
    simp only [step] at hs
    split at hs
    · cases hs
      exact forall_get hk.new hP
    · cases hs
  | lock n =>
    simp only [step] at hs
    split at hs
    · cases hs
    · split at hs
      · cases hs
      · next hnone =>
        cases hs
        exact forall_set hP (hk.lock _ _ (by simpa using hnone) (hP _))
  | work r x =>
    simp only [step] at hs
    split at hs
    · cases hs
    · next hmu =>
      split at hs
      · cases hs
      · next he =>
        cases hs
        exact forall_set hP (hk.work _ _ _ _ _ _ hmu he (hP r))
  | ready r =>
    cases hs
    exact forall_set hP (hk.ready _ (hP r))
  | watch n x =>
    simp only [step] at hs
    split at hs
    · cases hs
    · exact recs_watch hk hs hP
  | ends name code =>
    cases hs
    exact hP
  | task uuid db =>
    simp only [step] at hs
    split at hs
    · cases hs
      exact forall_get hk.new hP
    · cases hs
  | lockDb n =>
    simp only [step] at hs
    split at hs
    · cases hs
    · split at hs
      · cases hs
      · next hnone =>
        cases hs
        exact forall_set hP (hk.lockDb _ _ (by simpa using hnone) (hP _))
  | database r x =>
    simp only [step] at hs
    split at hs
    · next hmu =>
      cases hs
      exact forall_set hP (hk.database _ _ _ _ _ _ _ hmu (hP r))
    · cases hs
  | restore uuid =>
    simp only [step] at hs
    split at hs
    · cases hs
      exact hP
    · cases hs
  | restoring n x =>
    simp only [step] at hs
    split at hs
    · cases hs
    · cases hs
      intro r
      rw [restoreStep_frame.2.1]
      exact hP r
  | restart listed =>
    cases hs
    exact fun _ => hk.new []
  | adopt spec x y =>
    simp only [step] at hs
    split at hs
    · cases hs
    · next hc =>
      cases hs
      exact recs_adopt hk hf hc hP

/-- Such a property holds of all records in every run of an agent process and its successors. -/
theorem recs_run (hk : Keeps P) (hd : d.Named) (hrun : exec step (boot d listed) as = some m) :
    m.Fresh ∧ ∀ r, P (m.recs r) :=
  exec_preserves (P := fun m => m.Fresh ∧ ∀ r, P (m.recs r))
    (fun _ _ _ hs h => ⟨fresh_step h.1 hs, recs_step hk h.1 hs h.2⟩) hrun
    ⟨fresh_boot hd, fun _ => hk.new []⟩

-- the equations that later modules rewrite with, stated here once
attribute [local simp] Instances.Op.tracks

end Manager

end Instances
