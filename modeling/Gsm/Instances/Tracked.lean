import Gsm.Instances.Steps

/-!
# The state and the tracked container

A record's state says that something is up exactly when the record tracks a container. The two are
written in the same sections but for two of them, which end an install or a start that has failed;
what keeps these right is that nothing is tracked while the operation that will come to them holds
the lock.
-/

open GoStd Machine

namespace Instances

/-- Something is up exactly when a container is tracked. -/
def Record.Tracks (rec : Record) : Prop := rec.state.isUp = rec.containerID.isSome

/-- The section sets a state without looking at what is tracked. -/
def Op.settles : Op → Bool
  | .finishInstall _ => true
  | .failStart _ => true
  | _ => false

/-- The work has found nothing up, and is to settle the state. -/
def Work.unsettled : Work → Bool
  | .install _ pc =>
      match pc with
      | .begin => false
      | .cleanup _ => false
      | _ => true
  | .start _ pc => pc ≠ .begin
  | _ => false

structure Inst.Tracks (i : Inst) : Prop where
  record : i.record.Tracks
  unsettled : ∀ h, i.opMu = some h → h.work.unsettled = true → i.record.containerID = none

variable {rec : Record} {r : ℕ} {d : Docker} {i : Inst} {ctx : Bool} {spec : InstanceSpec}
  {x : Reply} {e : Move} {w : Work} {h : Holder} {m : Manager} {as : List Manager.Action}
  {listed : Bool}

theorem Record.Tracks.not_up (hrec : rec.Tracks) (hup : rec.state.isUp = false) :
    rec.containerID = none := by
  rw [Tracks, hup] at hrec
  simpa using hrec.symm

theorem Record.Tracks.apply (op : Op) (hrec : rec.Tracks)
    (hnone : op.settles = true → rec.containerID = none) : (rec.apply op).1.Tracks := by
  cases op <;> grind [Record.apply, Record.Tracks, AgentState.isUp, Op.settles]

namespace Inst

theorem tracks_next (hrec : i.record.Tracks)
    (hw : w.unsettled = true → i.record.containerID = none) : (i.next ctx w).Tracks := by
  refine ⟨hrec, fun h' hmu hun => ?_⟩
  cases hmu
  exact hw hun

theorem tracks_unlock (hrec : i.record.Tracks) : i.unlock.Tracks :=
  ⟨hrec, fun _ hmu => nomatch hmu⟩

theorem tracks_stopped {k : Stopping} {ok : Bool} (hrec : i.record.Tracks) :
    (i.stopped ctx ok k).Tracks := by
  cases k with
  | stop =>
    rw [stopped]
    split
    · exact tracks_next hrec fun hun => nomatch hun
    · exact tracks_unlock hrec
  | restart spec =>
    rw [stopped]
    split
    · exact tracks_next hrec fun hun => nomatch hun
    · exact tracks_unlock hrec
  | remove deleteFiles =>
    refine tracks_next hrec fun hun => ?_
    split at hun <;> cases hun

theorem tracks_idled {remove : Option Bool} (hrec : i.record.Tracks) :
    (i.idled ctx remove).Tracks := by
  cases remove with
  | none => exact tracks_unlock hrec
  | some deleteFiles => exact tracks_next hrec fun hun => nomatch hun

/-- What tracks nothing may go on to anything. -/
theorem tracks_settle (hrec : i.record.Tracks) (hnone : i.record.containerID = none) :
    (i.next ctx w).Tracks := tracks_next hrec fun _ => hnone

end Inst

open Inst

/-- Up to its last two sections, `startLocked` goes on with a record that tracks nothing. -/
theorem startStep_tracks {pc : StartPc} (hrec : i.record.Tracks)
    (hnone : pc ≠ .begin → i.record.containerID = none)
    (hs : startStep r d i ctx spec x pc = some e) : e.inst.Tracks := by
  cases pc with
  | begin =>
    simp only [startStep] at hs
    split at hs
    · cases hs
      exact tracks_unlock hrec
    · next hidle =>
      cases hs
      have hup : i.record.state.isUp = false := by simpa using (not_or.mp hidle).1
      refine tracks_settle (hrec.apply .beginStart fun hop => nomatch hop) ?_
      exact (Record.containerID_apply rfl).trans (hrec.not_up hup)
  | fail =>
    cases hs
    exact tracks_unlock (hrec.apply _ fun _ => hnone (by decide))
  | track id =>
    cases hs
    exact tracks_unlock (hrec.apply _ fun hop => nomatch hop)
  | ensure pc =>
    have hnone := hnone (by simp)
    simp only [startStep] at hs
    split at hs
    · cases hs
    · split at hs <;> cases hs <;> exact tracks_settle hrec hnone
  | _ =>
    have hnone := hnone (by simp)
    simp only [startStep, Move.of] at hs
    grind [tracks_settle]

theorem stopStep_tracks {pc : StopPc} {k : Stopping} (hrec : i.record.Tracks)
    (hs : stopStep i ctx k x pc = some e) : e.inst.Tracks := by
  have hstop : (i.record.apply .stop).1.Tracks := hrec.apply .stop fun hop => by cases hop
  cases pc with
  | begin force =>
    simp only [stopStep] at hs
    split at hs
    · cases hs
      exact tracks_stopped hstop
    · split at hs
      · cases hs
        exact tracks_stopped hstop
      · split at hs
        · cases hs
          exact tracks_stopped hstop
        · split at hs
          · cases hs
            exact tracks_stopped hstop
          · cases hs
            exact tracks_next hstop fun hun => by cases hun
  | signal id =>
    cases hs
    exact tracks_next hrec fun hun => by cases hun
  | kill id =>
    cases hs
    exact tracks_next hrec fun hun => by cases hun
  | _ =>
    simp only [stopStep, waitStep, Move.of] at hs
    grind [tracks_stopped, tracks_next, Work.unsettled]

theorem idleStep_tracks {pc : IdlePc} {remove : Option Bool} (hrec : i.record.Tracks)
    (hs : idleStep d i ctx remove x pc = some e) : e.inst.Tracks := by
  cases pc with
  | lockDb =>
    simp only [idleStep] at hs
    split at hs
    · cases hs
    · cases hs
      exact tracks_next hrec fun hun => nomatch hun
  | read =>
    simp only [idleStep] at hs
    split at hs
    · cases hs
      exact tracks_idled hrec
    · cases hs
      exact tracks_next hrec fun hun => nomatch hun
  | inspect =>
    simp only [idleStep] at hs
    split at hs
    · cases hs
      exact tracks_next hrec fun hun => nomatch hun
    · cases hs
      exact tracks_idled hrec
  | stop =>
    cases hs
    exact tracks_idled hrec

/-- An install goes on with a record that tracks nothing until it has finished. -/
theorem installStep_tracks {pc : InstallPc} (hrec : i.record.Tracks)
    (hnone : (Work.install spec pc).unsettled = true → i.record.containerID = none)
    (hs : installStep r d i ctx spec x pc = some e) : e.inst.Tracks := by
  cases pc with
  | begin =>
    simp only [installStep] at hs
    split at hs
    · cases hs
      exact tracks_unlock hrec
    · next hidle =>
      cases hs
      have hup : i.record.state.isUp = false := by simpa using (not_or.mp hidle).1
      refine tracks_settle (hrec.apply .beginInstall fun hop => by cases hop) ?_
      exact (Record.containerID_apply rfl).trans (hrec.not_up hup)
  | finish errMsg id =>
    have hfinish : (i.record.apply (.finishInstall errMsg)).1.Tracks :=
      hrec.apply _ fun _ => hnone rfl
    simp only [installStep] at hs
    split at hs
    · cases hs
      exact tracks_unlock hfinish
    · cases hs
      exact tracks_next hfinish fun hun => by cases hun
  | cleanup id =>
    cases hs
    exact tracks_unlock hrec
  | _ =>
    have hnone := hnone rfl
    simp only [installStep, failInstall, Move.of] at hs
    grind [tracks_settle]

theorem removeStep_tracks {pc : RemovePc} {deleteFiles : Bool} (hrec : i.record.Tracks)
    (hs : removeStep i ctx deleteFiles x pc = some e) : e.inst.Tracks := by
  cases pc with
  | files =>
    simp only [removeStep] at hs
    split at hs
    · cases hs
      exact tracks_unlock hrec
    · cases hs
      exact tracks_next hrec fun hun => nomatch hun
  | delete =>
    cases hs
    exact tracks_unlock hrec
  | _ =>
    cases hs
    exact tracks_next hrec fun hun => nomatch hun

theorem crashStep_tracks (hrec : i.record.Tracks) : (crashStep i).Tracks := by
  rw [crashStep]
  split
  · exact tracks_unlock hrec
  · split
    · exact tracks_unlock hrec
    · exact tracks_next hrec fun hun => nomatch hun

theorem workStep_tracks (hmu : i.opMu = some h) (hs : workStep r d i h x = some e)
    (hi : i.Tracks) : e.inst.Tracks := by
  have hnone := hi.unsettled h hmu
  rw [workStep] at hs
  split at hs
  · next hw => exact installStep_tracks hi.record (hw ▸ hnone) hs
  · next hw =>
    refine startStep_tracks hi.record (fun hpc => hnone ?_) hs
    rw [hw]
    exact decide_eq_true hpc
  · exact stopStep_tracks hi.record hs
  · exact idleStep_tracks hi.record hs
  · exact removeStep_tracks hi.record hs
  · cases hs
    exact crashStep_tracks hi.record

/-- A container that is adopted is tracked, and one that does not run is not. -/
theorem adopt_tracks (uuid : Str) (c : Container) (stored : Option InstanceSpec) (x : Reply) :
    ((Inst.new uuid).adopt c stored x).Tracks := by
  refine ⟨?_, fun h hmu => ?_⟩
  · simp only [adopt]
    split
    · split
      · have hnew : Record.new.Tracks := rfl
        exact hnew.apply (.track c.id true x.now) fun hop => nomatch hop
      · show AgentState.isUp (if _ then _ else _) = false
        split <;> rfl
      · rfl
    · rfl
  · simp only [adopt] at hmu
    split at hmu
    · split at hmu <;> cases hmu
    · cases hmu

/-- Only the section of the exit looks at the container, and it writes both. -/
theorem exit_tracks {id : Str} {code : ℤ} {err : Option Str} {now : ℕ} (hi : i.Tracks) :
    (i.exit id code err now).1.Tracks := by
  have hrec : (i.record.apply (.exit id code err)).1.Tracks :=
    hi.record.apply _ fun hop => nomatch hop
  have hnone : i.record.containerID = none →
      (i.record.apply (.exit id code err)).1.containerID = none := by
    intro hnone
    rw [Record.apply]
    split
    · exact hnone
    · rfl
  simp only [Inst.exit]
  split
  · exact ⟨hrec, fun h' hmu hun => hnone (hi.unsettled h' hmu hun)⟩
  · exact ⟨hrec, fun h' hmu hun => hnone (hi.unsettled h' hmu hun)⟩

/-- The database's lock is another one. -/
theorem withStep_tracks {db : DatabaseSpec} {pc : WithPc} (hi : i.Tracks) :
    (withStep r d i db ctx x pc).1.Tracks := by
  have hkeep : ∀ dbMu, ({ i with dbMu := dbMu } : Inst).Tracks := fun _ => ⟨hi.record, hi.unsettled⟩
  cases pc <;> simp only [withStep] <;> (repeat' split) <;> exact hkeep _

theorem keeps_tracks : Manager.Keeps Inst.Tracks where
  new _ := ⟨rfl, fun _ hmu => nomatch hmu⟩
  adopt := adopt_tracks
  lock i q _ hi := by
    refine tracks_next hi.record fun hun => ?_
    cases q <;> cases hun
  work _ _ _ _ _ _ hmu hs hi := workStep_tracks hmu hs hi
  ready i hi := by
    refine ⟨hi.record.apply _ (fun hop => nomatch hop), fun h hmu hun => ?_⟩
    show (i.record.apply .matchReady).1.containerID = none
    rw [Record.apply]
    split <;> exact hi.unsettled h hmu hun
  exit _ _ _ _ _ _ hi := exit_tracks hi
  exited _ _ hi := ⟨hi.record, hi.unsettled⟩
  lockDb _ _ _ hi := ⟨hi.record, hi.unsettled⟩
  database _ _ _ _ _ _ _ _ hi := withStep_tracks hi

/-- In every reachable state, through any number of agent processes: a record's state is one of
starting, running and stopping exactly when the record tracks a container. -/
theorem state_up_iff_tracked (hd : d.Named)
    (hrun : exec Manager.step (.boot d listed) as = some m) (r : ℕ) :
    (m.recs r).record.state.isUp = true ↔ (m.recs r).record.containerID ≠ none := by
  have hrec := ((Manager.recs_run keeps_tracks hd hrun).2 r).record
  rw [hrec, Option.isSome_iff_ne_none]

/-- An instance that restarts when it crashes. -/
def game : InstanceSpec := ⟨false, true, true, none⟩

/-- All goes well, with this id if a container is made. -/
def Reply.fine (id : String) : Reply := ⟨.done, id.toList, [], 0, 0⟩

/-- A start of `a` with the record `r`, from its place in the queue on. -/
def starting (r : ℕ) (id : String) : List Manager.Action :=
  [.request "a".toList (.start game), .lock 0] ++ List.replicate 7 (.work r (.fine id))

/-- It is started, and adopted by the next agent process. -/
theorem state_up_iff_tracked_adopted :
    ∃ m, exec Manager.step (.boot [] true)
        (starting 0 "1" ++ [.restart true, .adopt (some game) (.fine "") (.fine "")]) = some m ∧
      (m.recs 0).record.state = .running ∧ (m.recs 0).record.containerID ≠ none := by
  have hrun : exec Manager.step (.boot [] true)
      (starting 0 "1" ++ [.restart true, .adopt (some game) (.fine "") (.fine "")]) = some _ := rfl
  exact ⟨_, hrun, rfl, (state_up_iff_tracked Docker.named_nil hrun 0).mp rfl⟩

end Instances
