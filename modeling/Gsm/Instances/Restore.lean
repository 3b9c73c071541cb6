import Gsm.Instances.DatabaseKept
import Gsm.Instances.Removal

/-!
# Restoring a backup beside the game

`backup.restore` asks once whether the instance runs and then writes its data directory for as long as
that takes, without `opMu`. So a start that begins meanwhile, or one that has begun before and tracks no
container yet, brings the game up under the restore. Nothing else does: a run in which no start begins
between the question and the end of a restore, and in which the question comes while the game is down
and no start is under way, has no restore that writes while the game runs.
-/

open GoStd Machine

namespace Instances

/-! ## What is about to be started -/

/-- A start that has begun. -/
def Work.launches : Work → Bool
  | .start _ pc => pc ≠ .begin
  | _ => false

/-- The container that the work has made and is about to start, with its name. -/
def Work.aims (uuid : Str) : Work → Option (Str × ContainerName)
  | .start _ pc =>
      match pc with
      | .ensure (.run id) => some (id, .database uuid)
      | .attach id => some (id, .game uuid)
      | .run id => some (id, .game uuid)
      | _ => none
  | .install _ pc =>
      match pc with
      | .attach id => some (id, .install uuid)
      | .run id => some (id, .install uuid)
      | _ => none
  | _ => none

def DbHolder.aims (uuid : Str) : DbHolder → Option (Str × ContainerName)
  | .task _ _ (.ensure (.run id)) => some (id, .database uuid)
  | _ => none

def Inst.aims (i : Inst) : List (Str × ContainerName) :=
  (i.opMu.bind fun h => h.work.aims i.uuid).toList ++ (i.dbMu.bind (·.aims i.uuid)).toList

/-- What holds `opMu` is a start that is about to begin, and nothing keeps it from doing so. -/
def Inst.begins (i : Inst) : Bool :=
  match i.opMu with
  | some ⟨_, .start _ .begin⟩ => !i.record.state.isUp && i.record.state ≠ .installing
  | _ => false

variable {r r' : ℕ} {d : Docker} {i : Inst} {ctx : Bool} {spec : InstanceSpec} {x : Reply} {e : Move}
  {w : Work} {h h' : Holder} {db : DatabaseSpec} {m m' : Manager} {a : Manager.Action}
  {as : List Manager.Action} {listed : Bool} {uuid uuid' id : Str} {name : ContainerName}
  {p : Str × ContainerName}

theorem made_eq_aims (uuid : Str) (w : Work) : w.made = (w.aims uuid).map Prod.fst := by
  cases w with
  | start spec pc =>
    cases pc with
    | ensure pc => cases pc <;> rfl
    | _ => rfl
  | install spec pc => cases pc <;> rfl
  | _ => rfl

/-- Only a start that has begun aims at the game. -/
theorem Work.launches_of_aims (haims : w.aims uuid = some (id, .game uuid')) :
    uuid' = uuid ∧ w.launches = true := by
  cases w with
  | start spec pc =>
    cases pc with
    | ensure pc => cases pc <;> cases haims
    | attach id' =>
      cases haims
      exact ⟨rfl, rfl⟩
    | run id' =>
      cases haims
      exact ⟨rfl, rfl⟩
    | _ => cases haims
  | install spec pc => cases pc <;> cases haims
  | _ => cases haims

theorem startStep_aims {pc : StartPc} (hs : startStep r d i ctx spec x pc = some e)
    (hmu : e.inst.opMu = some h') (haims : h'.work.aims i.uuid = some (id, name)) :
    (Work.start spec pc).aims i.uuid = some (id, name) ∨
      ∃ c, e.call = some (.create c) ∧ c.id = id ∧ c.name = name := by
  have hok := @Answer.effect_of_ok ctx x.answer
  cases pc with
  | ensure pc =>
    simp only [startStep] at hs
    split at hs
    · cases hs
    · next db _ =>
      obtain ⟨-, hmade⟩ := @ensureStep_follows r d ctx x i.uuid db pc
      split at hs
      · next call pc' heq =>
        cases hs
        cases hmu
        rw [heq] at hmade
        cases pc' with
        | run id' =>
          cases haims
          obtain ⟨c, hcall, hid⟩ := hmade _ rfl
          have hcreate : (ensureStep r i.uuid d db ctx x pc).1 = some (.create c) := by rw [heq]; exact hcall
          exact .inr ⟨c, hcall, hid, (ensureStep_create hcreate).2⟩
        | _ => cases haims
      all_goals
        cases hs
        cases hmu
        cases haims
  | _ =>
    simp only [startStep, Move.of, calls] at hs
    grind [Work.aims, Inst.next, Inst.unlock]

theorem installStep_aims {pc : InstallPc} (hs : installStep r d i ctx spec x pc = some e)
    (hmu : e.inst.opMu = some h') (haims : h'.work.aims i.uuid = some (id, name)) :
    (Work.install spec pc).aims i.uuid = some (id, name) ∨
      ∃ c, e.call = some (.create c) ∧ c.id = id ∧ c.name = name := by
  have hok := @Answer.effect_of_ok ctx x.answer
  have hfail : ∀ ctx' id h, (i.failInstall ctx' spec x id).opMu = some h →
      h.work.aims i.uuid = none := by
    intro ctx' id h hh
    cases hh
    rfl
  cases pc <;> simp only [installStep, Move.of, calls] at hs <;>
    grind [Work.aims, Inst.next, Inst.unlock]

/-- What the work aims at: what it aimed at before, or what has just been created. -/
theorem workStep_aims (hs : workStep r d i h x = some e) (hmu : e.inst.opMu = some h')
    (haims : h'.work.aims i.uuid = some (id, name)) :
    h.work.aims i.uuid = some (id, name) ∨
      ∃ c, e.call = some (.create c) ∧ c.id = id ∧ c.name = name := by
  have hmade : h'.work.made = some id := by rw [made_eq_aims i.uuid, haims]; rfl
  have hbefore := (workStep_follows hs).made h' id hmu hmade
  rw [workStep] at hs
  split at hs
  · next hw => exact hw ▸ installStep_aims hs hmu haims
  · next hw => exact hw ▸ startStep_aims hs hmu haims
  -- the others neither have made anything nor make it
  · next hw =>
    rw [hw] at hbefore
    rcases hbefore with hbefore | ⟨c, hc, -⟩
    · cases hbefore
    · exact absurd hc (stopStep_create hs)
  · next hw =>
    rw [hw] at hbefore
    rcases hbefore with hbefore | ⟨c, hc, -⟩
    · cases hbefore
    · exact absurd hc (idleStep_create hs)
  · next hw =>
    rw [hw] at hbefore
    rcases hbefore with hbefore | ⟨c, hc, -⟩
    · cases hbefore
    · exact absurd hc (removeStep_create hs)
  · next hw =>
    cases hs
    obtain ⟨spec, rfl⟩ := crashStep_holder hmu
    cases haims

/-! ## When a start begins -/

theorem stopped_launches {ok : Bool} {k : Stopping} (hmu : (i.stopped ctx ok k).opMu = some h) :
    h.work.launches = false := by
  cases k with
  | stop =>
    rw [Inst.stopped] at hmu
    split at hmu <;> cases hmu
    rfl
  | restart spec =>
    rw [Inst.stopped] at hmu
    split at hmu <;> cases hmu
    rfl
  | remove deleteFiles =>
    rw [Inst.stopped] at hmu
    cases hmu
    split <;> rfl

theorem stopStep_launches {pc : StopPc} {k : Stopping} (hs : stopStep i ctx k x pc = some e)
    (hmu : e.inst.opMu = some h) : h.work.launches = false := by
  have hnext : ∀ (j : Inst) ctx' (pc' : StopPc) h, (j.next ctx' (.stop k pc')).opMu = some h →
      h.work.launches = false := by
    intro j ctx' pc' h hh
    cases hh
    rfl
  have hstopped : ∀ (j : Inst) ctx' ok h, (j.stopped ctx' ok k).opMu = some h →
      h.work.launches = false := fun _ _ _ _ => stopped_launches
  cases pc <;> simp only [stopStep, waitStep, Move.of] at hs <;> grind

theorem idleStep_launches {pc : IdlePc} {remove : Option Bool}
    (hs : idleStep d i ctx remove x pc = some e) (hmu : e.inst.opMu = some h) :
    h.work.launches = false := by
  have hnext : ∀ (j : Inst) (pc' : IdlePc) h, (j.next ctx (.idle remove pc')).opMu = some h →
      h.work.launches = false := by
    intro j pc' h hh
    cases hh
    rfl
  have hidled : ∀ h, (i.idled ctx remove).opMu = some h → h.work.launches = false := by
    intro h hh
    cases remove <;> cases hh
    rfl
  cases pc <;> simp only [idleStep, Move.of] at hs <;> grind

theorem removeStep_launches {pc : RemovePc} {deleteFiles : Bool}
    (hs : removeStep i ctx deleteFiles x pc = some e) (hmu : e.inst.opMu = some h) :
    h.work.launches = false := by
  cases pc <;> simp only [removeStep, Move.of] at hs <;>
    grind [Inst.next, Inst.unlock, Work.launches]

/-- A start has begun before, or begins with this step. -/
theorem workStep_launches (hmu : i.opMu = some h) (hs : workStep r d i h x = some e)
    (hmu' : e.inst.opMu = some h') (hlaunches : h'.work.launches = true) :
    h.work.launches = true ∨ i.begins = true := by
  have hcontra : h'.work.launches = false → h.work.launches = true ∨ i.begins = true := fun hno => by
    rw [hno] at hlaunches
    cases hlaunches
  rw [workStep] at hs
  split at hs
  · obtain ⟨ctx', pc', rfl⟩ := installStep_next hs hmu'
    cases hlaunches
  · next spec pc hw =>
    by_cases hpc : pc = .begin
    · subst hpc
      obtain ⟨ctx, w⟩ := h
      obtain rfl : w = _ := hw
      rw [startStep] at hs
      split at hs
      · cases hs
        cases hmu'
      · next hdown =>
        rw [Inst.begins, hmu]
        rw [not_or] at hdown
        simp [hdown.1, hdown.2]
    · rw [hw]
      exact .inl (by simpa [Work.launches] using hpc)
  · exact hcontra (stopStep_launches hs hmu')
  · exact hcontra (idleStep_launches hs hmu')
  · exact hcontra (removeStep_launches hs hmu')
  · cases hs
    obtain ⟨spec, rfl⟩ := crashStep_holder hmu'
    cases hlaunches

theorem launches_work (q : Request) : q.work.launches = false := by
  cases q <;> rfl

/-- What a task aims at has just been created. -/
theorem withStep_aims {pc : WithPc} {dh : DbHolder}
    (hdb : (withStep r d i db ctx x pc).1.dbMu = some dh) (haims : dh.aims i.uuid = some p) :
    ∃ c, (withStep r d i db ctx x pc).2 = some (.create c) ∧ c.id = p.1 ∧ c.name = p.2 := by
  cases pc with
  | ensure pc =>
    obtain ⟨-, hmade⟩ := @ensureStep_follows r d ctx x i.uuid db pc
    simp only [withStep] at hdb ⊢
    split at hdb
    · next call pc' heq =>
      cases hdb
      rw [heq] at hmade
      cases pc' with
      | run id =>
        cases haims
        obtain ⟨c, hcall, hid⟩ := hmade id rfl
        have hcreate : (ensureStep r i.uuid d db ctx x pc).1 = some (.create c) := by rw [heq]; exact hcall
        exact ⟨c, hcall, hid, (ensureStep_create hcreate).2⟩
      | _ => cases haims
    · cases hdb
      cases haims
    · cases hdb
  | inspect =>
    simp only [withStep] at hdb
    cases hdb
    split at haims <;> cases haims
  | stop => cases hdb
  | _ =>
    simp only [withStep] at hdb
    split at hdb <;> cases hdb
    all_goals cases haims

/-- A task starts the database server that it has made. -/
theorem withStep_starts {pc : WithPc} {ref : Ref} (hmu : i.dbMu = some (.task db ctx pc))
    (hcall : (withStep r d i db ctx x pc).2 = some (.start ref)) :
    ∃ id, ref = .id id ∧ (id, ContainerName.database i.uuid) ∈ i.aims := by
  cases pc with
  | ensure pc =>
    obtain ⟨hstarts, -⟩ := @ensureStep_follows r d ctx x i.uuid db pc
    have hcall' : (ensureStep r i.uuid d db ctx x pc).1 = some (.start ref) := by
      simp only [withStep] at hcall
      split at hcall <;> next heq => rw [heq]; exact hcall
    obtain ⟨id, rfl, rfl⟩ := hstarts ref hcall'
    refine ⟨id, rfl, List.mem_append_right _ ?_⟩
    rw [hmu]
    exact List.mem_singleton_self _
  | _ => simp only [withStep, calls] at hcall; grind

theorem mem_aims_of_work (hmu : i.opMu = some h) (haims : h.work.aims i.uuid = some p) :
    p ∈ i.aims := by
  refine List.mem_append_left _ ?_
  rw [hmu, Option.bind_some, haims]
  exact List.mem_singleton_self _

namespace Manager

/-! ## What is started has the name it was made with -/

/-- What is about to be started goes by the name it was made with, and nothing else has its id. -/
structure Aimed (m : Manager) : Prop where
  fresh : m.Fresh
  wf : m.Wf
  aims : ∀ r, ∀ p ∈ (m.recs r).aims, ∀ c ∈ m.docker, c.id = p.1 → c.name = p.2

theorem aimed_boot (hd : d.Named) : (boot d listed).Aimed :=
  ⟨fresh_boot hd, wf_boot, fun _ _ hp => nomatch hp⟩

theorem mem_ids_of_aims (hwf : m.Wf) (hp : p ∈ (m.recs r).aims) : p.1 ∈ m.ids := by
  have hid : p.1 ∈ (m.recs r).ids ∨ p.1 ∈ (m.recs r).dbIds := by
    rcases List.mem_append.mp hp with hp | hp
    · obtain ⟨h, hmu, haims⟩ := Option.bind_eq_some_iff.mp (Option.mem_toList.mp hp)
      have hspeaks : p.1 ∈ h.work.ids ∨ p.1 ∈ h.work.dbIds := by
        rcases hw : h.work with ⟨spec, pc⟩ | ⟨spec, pc⟩ | ⟨k, pc⟩ | ⟨rm, pc⟩ | ⟨df, pc⟩ | g <;>
          rw [hw] at haims
        · cases pc <;> cases haims <;> exact .inl (List.mem_singleton_self _)
        · rcases pc with _ | _ | _ | pc | _ | _ | id | id | _ | _ | _
          case ensure =>
            cases pc <;> cases haims
            exact .inr (List.mem_singleton_self _)
          all_goals cases haims
          all_goals exact .inl (List.mem_singleton_self _)
        all_goals cases haims
      rw [Inst.ids, Inst.dbIds, hmu]
      exact hspeaks.imp (List.mem_append_right _) (List.mem_append_left _)
    · obtain ⟨dh, hmu, haims⟩ := Option.bind_eq_some_iff.mp (Option.mem_toList.mp hp)
      refine .inr ?_
      rw [Inst.dbIds, hmu]
      refine List.mem_append_right _ ?_
      rcases dh with _ | ⟨db, ctx, _ | _ | pc | _ | _ | _ | _⟩
      case task.ensure =>
        cases pc <;> cases haims
        exact List.mem_singleton_self _
      all_goals cases haims
  exact mem_ids_of_recs (hwf.lt_of_ids hid) hid

/-- One record changes, with a call that may create what it then aims at. -/
theorem aims_set (hm : m.Aimed) (call : Option Docker.Call)
    (hrecs : m'.recs = Function.update m.recs r i) (hdocker : m'.docker = m.docker.perform call)
    (hfree : ∀ c, call = some (.create c) → m.docker.free c.name c.id = true ∧ c.id ∉ m.ids)
    (haims : ∀ p ∈ i.aims, p ∈ (m.recs r).aims ∨
      ∃ c, call = some (.create c) ∧ c.id = p.1 ∧ c.name = p.2) :
    ∀ r, ∀ p ∈ (m'.recs r).aims, ∀ c ∈ m'.docker, c.id = p.1 → c.name = p.2 := by
  intro r' p hp c' hc' hid
  -- what was aimed at before keeps its name, and its id is not given away
  have hold : ∀ r, p ∈ (m.recs r).aims → c'.name = p.2 := by
    intro r hp
    rw [hdocker] at hc'
    rcases Docker.mem_perform hc' with ⟨c, hc, hidc, hname, -⟩ | hcreate
    · rw [hname]
      exact hm.aims r p hp c hc (hidc.symm.trans hid)
    · exact absurd (hid ▸ mem_ids_of_aims hm.wf hp) (hfree c' hcreate).2
  rw [hrecs] at hp
  by_cases hr : r' = r
  · subst hr
    rw [Function.update_self] at hp
    rcases haims p hp with hp | ⟨c₀, hcall, hid₀, hname₀⟩
    · exact hold r' hp
    · rw [hdocker] at hc'
      rcases Docker.mem_perform hc' with ⟨c, hc, hidc, -⟩ | hcreate
      · have hne := (of_decide_eq_true (List.all_eq_true.mp (hfree c₀ hcall).1 c hc)).2
        exact absurd (hidc.symm.trans (hid.trans hid₀.symm)) hne
      · cases hcreate.symm.trans hcall
        exact hname₀
  · rw [Function.update_of_ne hr] at hp
    exact hold r' hp

theorem section_aims {i' : Inst} (h : i.Section i') (hp : p ∈ i'.aims) : p ∈ i.aims := by
  rw [Inst.aims, h.same_opMu, h.same_uuid] at hp
  refine (List.mem_append.mp hp).elim (fun hp => List.mem_append_left _ hp) fun hp => ?_
  cases h with
  | exit id code err now hid =>
    have hdb : (i.exit id code err now).1.dbMu = i.dbMu := by
      simp only [Inst.exit]
      split <;> rfl
    rw [hdb] at hp
    exact List.mem_append_right _ hp
  | lockDb db hfree => cases hp
  | _ => exact List.mem_append_right _ hp

theorem lt_of_aims (hwf : m.Wf) (hp : p ∈ (m.recs r).aims) : r < m.next := by
  by_contra hle
  rw [hwf.unmade r (Nat.le_of_not_lt hle)] at hp
  cases hp

theorem aimed_does (hm : m.Aimed) (hnew : m.NewIds a) (hf' : m'.Fresh) (hwf' : m'.Wf)
    (hdoes : m.Does a m') : m'.Aimed := by
  refine ⟨hf', hwf', ?_⟩
  cases hdoes with
  | aside ha =>
    intro r p hp c' hc' hid
    obtain ⟨c, hc, hidc, hname, -⟩ := ha.mem_docker hc'
    rw [hname]
    by_cases hr : r < m.next
    · exact hm.aims r p (section_aims (ha.old r hr) hp) c hc (hidc.symm.trans hid)
    · rcases (ha.made r (lt_of_aims hwf' hp) hr).2 with ⟨uuid, hnew⟩ | ⟨c₀, -, stored, x, hnew⟩
      · rw [hnew] at hp
        cases hp
      · rw [Inst.aims, hnew, adopt_locks.1, adopt_locks.2] at hp
        cases hp
  | locks n r q hq hfree hrecs hinsts hnext hdocker =>
    refine aims_set hm none hrecs hdocker (fun _ h => nomatch h) fun p hp => .inl ?_
    rcases List.mem_append.mp hp with hp | hp
    · cases q <;> cases hp
    · exact List.mem_append_right _ hp
  | works r x h e hmu he hrecs hinsts hnext hdocker =>
    refine aims_set hm _ hrecs hdocker (fun c hc => ?_) fun p hp => ?_
    · refine ⟨(workStep_create he hc).free, ?_⟩
      refine hnew h hmu e he c ?_
      rw [hc]
      rfl
    · have huuid := workStep_uuid he
      rcases List.mem_append.mp hp with hp | hp
      · obtain ⟨h', hmu', haims⟩ := Option.bind_eq_some_iff.mp (Option.mem_toList.mp hp)
        rw [huuid] at haims
        exact (workStep_aims he hmu' haims).imp_left (mem_aims_of_work hmu)
      · obtain ⟨dh, hdb, haims⟩ := Option.bind_eq_some_iff.mp (Option.mem_toList.mp hp)
        rcases workStep_dbMu he with hsame | hnone
        · refine .inl (List.mem_append_right _ ?_)
          rw [← hsame, hdb, Option.bind_some, ← huuid, haims]
          exact List.mem_singleton_self _
        · rw [hdb] at hnone
          rcases dh with _ | ⟨db, ctx, _ | _ | pc | _ | _ | _ | _⟩
          case task.ensure =>
            cases pc with
            | run id => cases hnone
            | _ => cases haims
          all_goals cases haims
  | tends r x db ctx pc hmu hrecs hinsts hnext hdocker =>
    refine aims_set hm _ hrecs hdocker (fun c hc => ?_) fun p hp => ?_
    · refine ⟨(withStep_create hc).free, ?_⟩
      simp only [NewIds, hmu] at hnew
      refine hnew c ?_
      rw [hc]
      rfl
    · rw [Inst.aims, withStep_fields] at hp
      rcases List.mem_append.mp hp with hp | hp
      · exact .inl (List.mem_append_left _ hp)
      · obtain ⟨dh, hdb, haims⟩ := Option.bind_eq_some_iff.mp (Option.mem_toList.mp hp)
        exact .inr (withStep_aims hdb haims)

/-! ## Restores -/

/-- The instance's game is down, and no start of it has begun. -/
def Still (m : Manager) (uuid : Str) : Prop :=
  ¬ m.docker.Runs (.game uuid) ∧ ∀ r, r < m.next → (m.recs r).uuid = uuid →
    ∀ h ∈ (m.recs r).opMu, h.work.launches = false

instance (m : Manager) (uuid : Str) : Decidable (m.Still uuid) := by
  unfold Still
  infer_instance

/-- A restore finds its instance not running only while the game is down and no start has begun; and
no start begins between this and the end of the restore. -/
def Apart (m : Manager) : Action → Prop
  | .restoring n _ => ∀ t ∈ m.restores[n]?, t.pc = .asked → m.isRunning t.uuid = false →
      m.Still t.uuid
  | .work r _ => (m.recs r).begins = true → ∀ t ∈ m.restores, t.uuid = (m.recs r).uuid → t.pc = .asked
  | _ => True

instance (m : Manager) (a : Action) : Decidable (m.Apart a) := by
  apply Action.casesOn (motive := fun a => Decidable (m.Apart a)) a <;> intros <;>
    dsimp only [Apart] <;> infer_instance

theorem watchStep_restores {n : ℕ} {w : Watcher} (hs : m.watchStep n w x = some m') :
    m'.restores = m.restores := by
  simp only [watchStep] at hs
  split at hs
  · split at hs
    · cases hs
    · split at hs <;> cases hs <;> rfl
  · cases hs
    rfl

theorem adopt_restores {c : Container} {stored : Option InstanceSpec} {y : Reply} :
    (m.adopt c stored x y).restores = m.restores := by
  simp only [adopt]
  split <;> exact get_restores

/-- A restore past its question was past it before, or has just got its answer. -/
theorem restores_step {t : Restoring} (hs : m.step a = some m') (ht : t ∈ m'.restores)
    (hpc : t.pc ≠ .asked) :
    (∃ t₀ ∈ m.restores, t₀.uuid = t.uuid ∧ t₀.pc ≠ .asked) ∨
      ∃ n x t₀, a = .restoring n x ∧ m.restores[n]? = some t₀ ∧ t₀.pc = .asked ∧
        m.isRunning t₀.uuid = false ∧ t₀.uuid = t.uuid := by
  have hsame : m'.restores = m.restores → ∃ t₀ ∈ m.restores, t₀.uuid = t.uuid ∧ t₀.pc ≠ .asked :=
    fun heq => ⟨t, heq ▸ ht, rfl, hpc⟩
  cases a with
  | request uuid q =>
    simp only [step] at hs
    split at hs
    · cases hs
      exact .inl (hsame get_restores)
    · cases hs
  | lock n =>
    simp only [step] at hs
    split at hs
    · cases hs
    · split at hs <;> cases hs
      exact .inl (hsame rfl)
  | work r x =>
    obtain ⟨h, e, hmu, he, rfl⟩ := work_eq_some hs
    exact .inl (hsame rfl)
  | ready r =>
    cases hs
    exact .inl (hsame rfl)
  | watch n x =>
    simp only [step] at hs
    split at hs
    · cases hs
    · exact .inl (hsame (watchStep_restores hs))
  | ends name code =>
    cases hs
    exact .inl (hsame rfl)
  | task uuid db =>
    simp only [step] at hs
    split at hs
    · cases hs
      exact .inl (hsame get_restores)
    · cases hs
  | lockDb n =>
    simp only [step] at hs
    split at hs
    · cases hs
    · split at hs <;> cases hs
      exact .inl (hsame rfl)
  | database r x =>
    simp only [step] at hs
    split at hs <;> cases hs
    exact .inl (hsame rfl)
  | restore uuid =>
    simp only [step] at hs
    split at hs
    · cases hs
      rcases List.mem_append.mp ht with ht | ht
      · exact .inl ⟨t, ht, rfl, hpc⟩
      · obtain rfl := List.mem_singleton.mp ht
        exact absurd rfl hpc
    · cases hs
  | restoring n x =>
    simp only [step] at hs
    split at hs
    · cases hs
    · next t₀ ht₀ =>
      cases hs
      have hmem := List.mem_of_getElem? ht₀
      rw [restoreStep] at ht
      rcases hpc₀ : t₀.pc with _ | _ | _ <;> rw [hpc₀] at ht <;> rcases mem_replaceAt ht with ht | ht
      · exact .inl ⟨t, ht, rfl, hpc⟩
      · rcases hrun : m.isRunning t₀.uuid
        · rw [hrun] at ht
          obtain rfl := List.mem_singleton.mp ht
          exact .inr ⟨n, x, t₀, rfl, ht₀, hpc₀, hrun, rfl⟩
        · rw [hrun] at ht
          cases ht
      · exact .inl ⟨t, ht, rfl, hpc⟩
      · split at ht
        · obtain rfl := List.mem_singleton.mp ht
          exact .inl ⟨t₀, hmem, rfl, by rw [hpc₀]; decide⟩
        · cases ht
      · exact .inl ⟨t, ht, rfl, hpc⟩
      · cases ht
  | restart listed =>
    cases hs
    cases ht
  | adopt stored x y =>
    simp only [step] at hs
    split at hs
    · cases hs
    · cases hs
      exact .inl (hsame adopt_restores)

/-- What runs after a call ran before, or is what the call starts. -/
theorem not_runs_perform {call : Option Docker.Call} (hdown : ¬ d.Runs name)
    (hcreate : ∀ c, call = some (.create c) → c.status = .created)
    (hstarts : ∀ ref, call = some (.start ref) → ∀ c ∈ d, c.isRef ref = true → c.name ≠ name) :
    ¬ (d.perform call).Runs name := by
  rintro ⟨c', hc', hname', hup⟩
  rcases Docker.mem_perform hc' with ⟨c, hc, -, hname, -, hrun⟩ | hcall
  · have hcname : c.name = name := hname.symm.trans hname'
    rcases hrun hup with hup | ⟨ref, hcall, href⟩
    · exact hdown ⟨c, hc, hcname, hup⟩
    · exact hstarts ref hcall c hc href hcname
  · rw [hcreate c' hcall] at hup
    cases hup

/-- Where no start of the instance begins, its game stays down. -/
theorem still_step (hm : m.Aimed) (hwf' : m'.Wf) (hdoes : m.Does a m')
    (hbegins : ∀ r x, a = .work r x → (m.recs r).uuid = uuid → (m.recs r).begins = false)
    (hstill : m.Still uuid) : m'.Still uuid := by
  obtain ⟨hdown, hstarts⟩ := hstill
  cases hdoes with
  | aside ha =>
    refine ⟨?_, fun r hr huuid h hmu => ?_⟩
    · rintro ⟨c', hc', hname', hup⟩
      obtain ⟨c, hc, -, hname, -, hrun⟩ := ha.mem_docker hc'
      exact hdown ⟨c, hc, hname.symm.trans hname', hrun hup⟩
    · obtain ⟨hlt, hmu⟩ := ha.opMu hwf' hmu
      exact hstarts r hlt ((ha.old r hlt).same_uuid ▸ huuid) h hmu
  | locks n r₀ q hq hfree hrecs hinsts hnext hdocker =>
    refine ⟨hdocker ▸ hdown, fun r hr huuid h hmu => ?_⟩
    rw [hrecs] at hmu huuid
    by_cases heq : r = r₀
    · subst heq
      rw [Function.update_self] at hmu
      cases hmu
      exact launches_work q
    · rw [Function.update_of_ne heq] at hmu huuid
      exact hstarts r (hnext ▸ hr) huuid h hmu
  | works r₀ x h₀ e hmu₀ he hrecs hinsts hnext hdocker =>
    have hlt₀ : r₀ < m.next := hm.wf.lt_of_opMu hmu₀
    refine ⟨?_, fun r hr huuid h hmu => ?_⟩
    · rw [hdocker]
      refine not_runs_perform hdown (fun c hc => (workStep_create he hc).status)
        fun ref hcall c hc href hname => ?_
      obtain ⟨id, hmade, rfl⟩ := (workStep_follows he).starts ref hcall
      rw [made_eq_aims (m.recs r₀).uuid, Option.map_eq_some_iff] at hmade
      obtain ⟨⟨id', name⟩, haims, rfl⟩ := hmade
      -- it would be a start of this instance that has begun
      have hgame : c.name = name :=
        hm.aims r₀ _ (mem_aims_of_work hmu₀ haims) c hc (of_decide_eq_true href)
      rw [← hgame, hname] at haims
      obtain ⟨rfl, hlaunches⟩ := Work.launches_of_aims haims
      rw [hstarts r₀ hlt₀ rfl h₀ hmu₀] at hlaunches
      cases hlaunches
    · rw [hrecs] at hmu huuid
      by_cases heq : r = r₀
      · subst heq
        rw [Function.update_self] at hmu huuid
        rw [workStep_uuid he] at huuid
        by_contra hlaunches
        rcases workStep_launches hmu₀ he hmu (by simpa using hlaunches) with hlaunched | hbegin
        · rw [hstarts r hlt₀ huuid h₀ hmu₀] at hlaunched
          cases hlaunched
        · rw [hbegins r x rfl huuid] at hbegin
          cases hbegin
      · rw [Function.update_of_ne heq] at hmu huuid
        exact hstarts r (hnext ▸ hr) huuid h hmu
  | tends r₀ x db ctx pc hmu₀ hrecs hinsts hnext hdocker =>
    refine ⟨?_, fun r hr huuid h hmu => ?_⟩
    · rw [hdocker]
      refine not_runs_perform hdown (fun c hc => (withStep_create hc).status)
        fun ref hcall c hc href hname => ?_
      obtain ⟨id, rfl, haims⟩ := withStep_starts hmu₀ hcall
      rw [hm.aims r₀ _ haims c hc (of_decide_eq_true href)] at hname
      cases hname
    · rw [hrecs] at hmu huuid
      by_cases heq : r = r₀
      · subst heq
        rw [Function.update_self, withStep_fields] at hmu huuid
        exact hstarts r (hnext ▸ hr) huuid h hmu
      · rw [Function.update_of_ne heq] at hmu huuid
        exact hstarts r (hnext ▸ hr) huuid h hmu

/-- Where a restore is past its question, the game is down and no start has begun. -/
structure Restored (m : Manager) : Prop where
  aimed : m.Aimed
  still : ∀ t ∈ m.restores, t.pc ≠ .asked → m.Still t.uuid

theorem restored_boot (hd : d.Named) : (boot d listed).Restored :=
  ⟨aimed_boot hd, fun _ ht => nomatch ht⟩

theorem restored_step (hm : m.Restored) (hnew : m.NewIds a) (hapart : m.Apart a)
    (hs : m.step a = some m') : m'.Restored := by
  rcases hrestarts : a.restarts
  · have hdoes := does_of_step hm.aimed.fresh hrestarts hs
    have hwf' := wf_step hm.aimed.wf hs
    refine ⟨aimed_does hm.aimed hnew (fresh_step hm.aimed.fresh hs) hwf' hdoes, fun t ht hpc => ?_⟩
    rcases restores_step hs ht hpc with ⟨t₀, ht₀, huuid, hpc₀⟩ |
      ⟨n, x, t₀, rfl, ht₀, hpc₀, hdown, huuid⟩
    · rw [← huuid]
      refine still_step hm.aimed hwf' hdoes (fun r x ha hr => ?_) (hm.still t₀ ht₀ hpc₀)
      subst ha
      by_contra hbegins
      exact hpc₀ (hapart (by simpa using hbegins) t₀ ht₀ hr.symm)
    · rw [← huuid]
      refine still_step hm.aimed hwf' hdoes (fun _ _ ha => nomatch ha) ?_
      exact hapart t₀ ht₀ hpc₀ hdown
  · cases a with
    | restart listed =>
      cases hs
      exact restored_boot hm.aimed.fresh.names
    | _ => cases hrestarts

/-- In a run in which no start begins while a restore of its instance is past its question, and in
which the question is asked while the game is down and no start has begun, no restore writes while the
game of its instance runs. Docker does not give one id twice while somebody holds on to it. -/
theorem restore_alone (hd : d.Named) (hnew : Along step NewIds (boot d listed) as)
    (hapart : Along step Apart (boot d listed) as)
    (hrun : exec step (boot d listed) as = some m) :
    ∀ t ∈ m.restores, t.pc = .writing → ¬ m.docker.Runs (.game t.uuid) := by
  have hm : m.Restored :=
    exec_invariant (fun s a s' hC hs hm => restored_step hm hC.1 hC.2 hs) hrun
      (hnew.and hapart) (restored_boot hd)
  intro t ht hpc
  exact (hm.still t ht (by rw [hpc]; decide)).1

/-- A restore of `a` that writes, while a start waits for its turn. -/
def restoresOne : List Action :=
  [.restore "a".toList, .restoring 0 (.fine ""), .restoring 0 (.fine "")]

theorem restore_alone_waiting : ∃ m,
    exec step (boot [] true) (restoresOne ++ [.request "a".toList (.start game), .lock 0]) = some m ∧
      ∀ t ∈ m.restores, t.pc = .writing → ¬ m.docker.Runs (.game t.uuid) := by
  have hrun : exec step (boot [] true) (restoresOne ++ [.request "a".toList (.start game), .lock 0]) =
      some _ := rfl
  refine ⟨_, hrun, restore_alone Docker.named_nil ?_ ?_ hrun⟩
  · decide +kernel
  · decide +kernel

/-- The same start goes on while the restore writes. -/
theorem restore_not_alone : ∃ m, exec step (boot [] true) (restoresOne ++ starting 0 "1") = some m ∧
    ∃ t ∈ m.restores, t.pc = .writing ∧ m.docker.Runs (.game t.uuid) := by
  refine ⟨_, rfl, ⟨"a".toList, .writing⟩, List.mem_singleton_self _, rfl, ?_⟩
  exact ⟨⟨"1".toList, .game "a".toList, .running, none, 0⟩, List.mem_singleton_self _, rfl, rfl⟩

end Manager

end Instances
