import Gsm.Instances.Tracked

/-!
# Cancelling an install

`stopGameLocked` cancels an install that is running. But an install holds the operation lock from
before it says that it is running until after it has said that it is not, and every way to
`stopGameLocked` takes that lock first.
-/

open GoStd Machine

namespace Instances

/-- The part of `Install` in which the record says that an install is running. -/
def Work.installs : Work → Bool
  | .install _ pc =>
      match pc with
      | .begin => false
      | .cleanup _ => false
      | _ => true
  | _ => false

/-- The install that the record speaks of holds the lock, and has not been cancelled. -/
structure Inst.Held (i : Inst) : Prop where
  holder : i.record.installing = true → ∃ h, i.opMu = some h ∧ h.work.installs = true
  uncut : i.installCut = false

variable {rec : Record} {r : ℕ} {d : Docker} {i : Inst} {ctx : Bool} {spec : InstanceSpec}
  {x : Reply} {e : Move} {w : Work} {h : Holder} {m : Manager} {as : List Manager.Action}
  {listed : Bool} {op : Op}

/-- Only an install says that one is running. -/
theorem Record.installing_apply (hbegin : op ≠ .beginInstall) (hfinish : ∀ err, op ≠ .finishInstall err) :
    (rec.apply op).1.installing = rec.installing := by
  cases op <;> grind [Record.apply]

namespace Inst

theorem held_idle (hidle : i.record.installing = false) (hcut : i.installCut = false) : i.Held :=
  ⟨fun hinst => absurd hinst (by simp [hidle]), hcut⟩

theorem held_next (hw : w.installs = true) (hcut : i.installCut = false) : (i.next ctx w).Held :=
  ⟨fun _ => ⟨_, rfl, hw⟩, hcut⟩

end Inst

open Inst

/-- The other operations leave alone what says that an install runs. -/
theorem startStep_installing {pc : StartPc} (hs : startStep r d i ctx spec x pc = some e) :
    e.inst.record.installing = i.record.installing ∧ e.inst.installCut = i.installCut := by
  cases pc with
  | ensure pc =>
    simp only [startStep] at hs
    split at hs
    · cases hs
    · split at hs <;> cases hs <;> exact ⟨rfl, rfl⟩
  | _ =>
    simp only [startStep, Move.of] at hs
    grind [Inst.next, Inst.unlock, Inst.track, Record.installing_apply]

/-- A stop cancels an install only if one is running while it holds the lock. -/
theorem stopStep_installing {pc : StopPc} {k : Stopping} (hidle : i.record.installing = false)
    (hs : stopStep i ctx k x pc = some e) :
    e.inst.record.installing = false ∧ e.inst.installCut = i.installCut := by
  have hstopped : ∀ (j : Inst) ctx' ok, (j.stopped ctx' ok k).record = j.record ∧
      (j.stopped ctx' ok k).installCut = j.installCut := by
    intro j ctx' ok
    rw [stopped_eq]
    exact ⟨rfl, rfl⟩
  cases pc <;> simp only [stopStep, waitStep, Move.of, hidle] at hs <;>
    grind [Inst.next, Record.installing_apply]

theorem idleStep_installing {pc : IdlePc} {remove : Option Bool}
    (hs : idleStep d i ctx remove x pc = some e) :
    e.inst.record.installing = i.record.installing ∧ e.inst.installCut = i.installCut := by
  have hidled : (i.idled ctx remove).record = i.record ∧
      (i.idled ctx remove).installCut = i.installCut := by
    rw [idled_eq]
    exact ⟨rfl, rfl⟩
  cases pc <;> simp only [idleStep, Move.of] at hs <;> grind [Inst.next]

theorem removeStep_installing {pc : RemovePc} {deleteFiles : Bool}
    (hs : removeStep i ctx deleteFiles x pc = some e) :
    e.inst.record.installing = i.record.installing ∧ e.inst.installCut = i.installCut := by
  cases pc <;> simp only [removeStep, Move.of] at hs <;> grind [Inst.next, Inst.unlock]

/-- An install keeps the lock for as long as the record says that it runs. -/
theorem installStep_held {pc : InstallPc} (hi : i.Held)
    (hown : i.record.installing = true → (Work.install spec pc).installs = true)
    (hs : installStep r d i ctx spec x pc = some e) : e.inst.Held := by
  cases pc with
  | begin =>
    have hidle : i.record.installing = false := by
      by_contra hinst
      have hbegun : (Work.install spec .begin).installs = true := hown (by simpa using hinst)
      cases hbegun
    simp only [installStep] at hs
    split at hs
    · cases hs
      exact held_idle hidle hi.uncut
    · cases hs
      exact held_next rfl rfl
  | finish errMsg id =>
    have hdone : (i.record.apply (.finishInstall errMsg)).1.installing = false := rfl
    simp only [installStep] at hs
    split at hs
    · cases hs
      exact held_idle hdone hi.uncut
    · cases hs
      exact held_idle hdone hi.uncut
  | cleanup id =>
    cases hs
    refine held_idle ?_ hi.uncut
    by_contra hinst
    have hbegun : (Work.install spec (.cleanup id)).installs = true := hown (by simpa using hinst)
    cases hbegun
  | _ =>
    have hcut := hi.uncut
    simp only [installStep, failInstall, Move.of] at hs
    grind [held_next, Work.installs]

theorem workStep_held (hmu : i.opMu = some h) (hs : workStep r d i h x = some e) (hi : i.Held) :
    e.inst.Held := by
  -- if the record speaks of an install, then this is the one
  have hown : i.record.installing = true → h.work.installs = true := by
    intro hinst
    obtain ⟨h', hmu', hw⟩ := hi.holder hinst
    cases hmu.symm.trans hmu'
    exact hw
  have hidle : h.work.installs = false → i.record.installing = false := by
    intro hw
    by_contra hinst
    rw [hown (by simpa using hinst)] at hw
    cases hw
  rw [workStep] at hs
  split at hs
  · next hw => exact installStep_held hi (hw ▸ hown) hs
  · next hw =>
    obtain ⟨hinst, hcut⟩ := startStep_installing hs
    exact held_idle (hinst.trans (hidle (by rw [hw]; rfl))) (hcut.trans hi.uncut)
  · next hw =>
    obtain ⟨hinst, hcut⟩ := stopStep_installing (hidle (by rw [hw]; rfl)) hs
    exact held_idle hinst (hcut.trans hi.uncut)
  · next hw =>
    obtain ⟨hinst, hcut⟩ := idleStep_installing hs
    exact held_idle (hinst.trans (hidle (by rw [hw]; rfl))) (hcut.trans hi.uncut)
  · next hw =>
    obtain ⟨hinst, hcut⟩ := removeStep_installing hs
    exact held_idle (hinst.trans (hidle (by rw [hw]; rfl))) (hcut.trans hi.uncut)
  · next hw =>
    cases hs
    rw [crashStep_eq]
    exact held_idle (hidle (by rw [hw]; rfl)) hi.uncut

/-- A section of another goroutine keeps it. -/
theorem held_of_record {i' : Inst} (hi : i.Held) (hrec : i'.record.installing = i.record.installing)
    (hmu : i'.opMu = i.opMu) (hcut : i'.installCut = i.installCut) : i'.Held := by
  refine ⟨fun hinst => ?_, hcut.trans hi.uncut⟩
  rw [hmu]
  exact hi.holder (hrec ▸ hinst)

theorem exit_held {id : Str} {code : ℤ} {err : Option Str} {now : ℕ} (hi : i.Held) :
    (i.exit id code err now).1.Held := by
  have hrec : (i.record.apply (.exit id code err)).1.installing = i.record.installing :=
    Record.installing_apply (by simp) (by simp)
  simp only [Inst.exit]
  split <;> exact held_of_record hi hrec rfl rfl

theorem withStep_held {db : DatabaseSpec} {pc : WithPc} (hi : i.Held) :
    (withStep r d i db ctx x pc).1.Held := by
  have hkeep : ∀ dbMu, ({ i with dbMu := dbMu } : Inst).Held := fun _ => ⟨hi.holder, hi.uncut⟩
  cases pc <;> simp only [withStep] <;> (repeat' split) <;> exact hkeep _

theorem adopt_held (uuid : Str) (c : Container) (stored : Option InstanceSpec) (x : Reply) :
    ((Inst.new uuid).adopt c stored x).Held := by
  simp only [adopt]
  split
  · split <;> exact held_idle rfl rfl
  · exact held_idle rfl rfl

theorem keeps_held : Manager.Keeps Inst.Held where
  new _ := held_idle rfl rfl
  adopt := adopt_held
  lock i q hfree hi := by
    refine held_idle ?_ hi.uncut
    by_contra hinst
    obtain ⟨h, hmu, -⟩ := hi.holder (by simpa using hinst)
    rw [hfree] at hmu
    cases hmu
  work _ _ _ _ _ _ hmu hs hi := workStep_held hmu hs hi
  ready _ hi := held_of_record hi (Record.installing_apply (by simp) (by simp)) rfl rfl
  exit _ _ _ _ _ _ hi := exit_held hi
  exited _ _ hi := held_of_record hi rfl rfl rfl
  lockDb _ _ _ hi := held_of_record hi rfl rfl rfl
  database _ _ _ _ _ _ _ _ hi := withStep_held hi

namespace Manager

/-- The install on a record can come to be cancelled, whoever takes whatever steps first. -/
def Cancellable (m : Manager) (r : ℕ) : Prop :=
  ∃ bs m', exec step m bs = some m' ∧ (m'.recs r).installCut = true

/-- A stop or a removal of the instance has been asked for. -/
def StopAsked (m : Manager) (uuid : Str) : Prop :=
  ∃ (n r : ℕ) (q : Request), m.queue[n]? = some (r, q) ∧ (m.recs r).uuid = uuid ∧
    ((∃ force, q = .stop force) ∨ ∃ deleteFiles, q = .remove deleteFiles)

/-- No run gets to the cancelling, from whatever state it starts. -/
theorem not_cancellable (hf : m.Fresh) (hheld : ∀ r, (m.recs r).Held) (r : ℕ) :
    ¬ m.Cancellable r := by
  rintro ⟨bs, m', hrun, hcut⟩
  have hm' := exec_preserves (P := fun m => m.Fresh ∧ ∀ r, (m.recs r).Held)
    (fun _ _ _ hs h => ⟨fresh_step h.1 hs, recs_step keeps_held h.1 hs h.2⟩) hrun ⟨hf, hheld⟩
  rw [(hm'.2 r).uncut] at hcut
  cases hcut

/-- While an install runs, what waits for the record's lock goes on waiting. -/
theorem lock_blocked {n : ℕ} {q : Request} (hheld : (m.recs r).Held)
    (hinst : (m.recs r).record.installing = true) (hq : m.queue[n]? = some (r, q)) :
    m.step (.lock n) = none := by
  obtain ⟨h, hmu, -⟩ := hheld.holder hinst
  simp [step, hq, hmu]

/-- In every reachable state in which an install runs, it cannot be cancelled: no step that has been
asked for, or that may be, leads to it, and what waits for the record's lock is blocked. -/
theorem install_not_cancellable (hd : d.Named) (hrun : exec step (boot d listed) as = some m)
    (hinst : (m.recs r).record.installing = true) :
    ¬ m.Cancellable r ∧ ∀ n q, m.queue[n]? = some (r, q) → m.step (.lock n) = none := by
  obtain ⟨hf, hheld⟩ := recs_run keeps_held hd hrun
  exact ⟨not_cancellable hf hheld r, fun n q hq => lock_blocked (hheld r) hinst hq⟩

/-- An install that has come to its script, and a removal that is asked for then. -/
def hangingInstall : List Action :=
  [.request "a".toList (.install game), .lock 0] ++ List.replicate 8 (.work 0 (.fine "1")) ++
    [.request "a".toList (.remove true)]

theorem install_not_cancellable_hanging :
    ∃ m, exec step (boot [] true) hangingInstall = some m ∧
      (m.recs 0).record.installing = true ∧ ¬ m.Cancellable 0 ∧ m.step (.lock 0) = none := by
  have hrun : exec step (boot [] true) hangingInstall = some _ := rfl
  obtain ⟨hnot, hblocked⟩ := install_not_cancellable (r := 0) Docker.named_nil hrun rfl
  exact ⟨_, hrun, rfl, hnot, hblocked 0 _ rfl⟩

/-- The removal is asked for, and the install cannot be cancelled. -/
theorem hanging_install_not_cancelled :
    ∃ m, exec step (boot [] true) hangingInstall = some m ∧
      (m.recs 0).record.installing = true ∧ m.StopAsked (m.recs 0).uuid ∧ ¬ m.Cancellable 0 := by
  have hrun : exec step (boot [] true) hangingInstall = some _ := rfl
  obtain ⟨hf, hheld⟩ := recs_run keeps_held Docker.named_nil hrun
  refine ⟨_, hrun, rfl, ⟨0, 0, .remove true, rfl, rfl, .inr ⟨true, rfl⟩⟩, ?_⟩
  exact not_cancellable hf hheld 0

end Manager

end Instances
