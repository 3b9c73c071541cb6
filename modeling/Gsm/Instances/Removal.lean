import Gsm.Instances.Effects
import Gsm.Instances.InstallCancel

/-!
# Removing an instance

`Remove` takes the record out of the map while it holds the record's operation lock, but an operation
fetches the record before it waits for this lock. What was asked for before the removal came to an end
may then go on with a record that nobody can reach any more. As long as only stops do so, and the
removal of each container takes effect, what runs belongs to the record in the map.
-/

open GoStd Machine

namespace Instances

/-! ## Records -/

/-- Nothing is tracked, or what is will not have crashed when it exits; so nothing restarts. -/
def Record.Quiet (rec : Record) : Prop :=
  rec.state ≠ .crashed ∧ (rec.containerID = none ∨ rec.stopRequested = true)

/-- The work may start or create something, or takes the record out of the map. -/
def Work.owns : Work → Bool
  | .install .. => true
  | .start .. => true
  | .stop .stop _ => false
  | .stop _ _ => true
  | .idle none _ => false
  | .idle (some _) _ => true
  | .remove .. => true
  | .crash _ => false

/-- The same of what waits for the lock. -/
def Request.owns (q : Request) : Bool := q.work.owns

/-- The work is a `Remove` that has dealt with the game. -/
def Work.removes : Work → Bool
  | .stop (.remove _) pc =>
      match pc with
      | .begin _ => false
      | _ => true
  | .idle (some _) _ => true
  | .remove .. => true
  | _ => false

/-- What a `Remove` has removed so far. -/
def Work.cleared (uuid : Str) : Work → List ContainerName
  | .remove _ pc =>
      match pc with
      | .game => []
      | .install => [.game uuid]
      | .database => [.game uuid, .install uuid]
      | .files => [.game uuid, .install uuid, .database uuid]
      | .delete => [.game uuid, .install uuid, .database uuid]
  | _ => []

/-- The container that the work has made and is about to start. -/
def Work.made : Work → Option Str
  | .start _ pc =>
      match pc with
      | .ensure (.run id) => some id
      | .attach id => some id
      | .run id => some id
      | _ => none
  | .install _ pc =>
      match pc with
      | .attach id => some id
      | .run id => some id
      | _ => none
  | _ => none

/-- What is known of every record. -/
structure Inst.Calm (i : Inst) : Prop where
  tracks : i.Tracks
  held : i.Held
  removing : ∀ h, i.opMu = some h → h.work.removes = true → i.record.Quiet

/-- Nothing will come of the record by itself. -/
structure Inst.Idle (i : Inst) : Prop where
  quiet : i.record.Quiet
  work : ∀ h, i.opMu = some h → h.work.owns = false

variable {rec : Record} {r : ℕ} {d d' : Docker} {i : Inst} {ctx : Bool} {spec : InstanceSpec}
  {x : Reply} {e : Move} {w : Work} {h : Holder} {m m' : Manager} {a : Manager.Action}
  {as : List Manager.Action} {listed : Bool} {uuid : Str}

theorem Record.quiet_matchReady (hq : rec.Quiet) : (rec.apply .matchReady).1.Quiet := by
  rw [apply]
  split
  · exact ⟨by simp, hq.2⟩
  · exact hq

theorem Record.quiet_exit {id : Str} {code : ℤ} {err : Option Str} (hq : rec.Quiet) :
    (rec.apply (.exit id code err)).1.Quiet := by
  rw [apply]
  split
  · exact hq
  · next hid =>
    -- a container that is tracked is one whose stop has been asked for
    have hid := not_not.mp hid
    rcases hq.2 with hnone | hstop
    · rw [hid] at hnone
      cases hnone
    · refine ⟨?_, .inl rfl⟩
      rw [hstop]
      simp

/-- A stop that finds no install leaves the record quiet. -/
theorem Record.quiet_stop (htracks : rec.Tracks) (hidle : rec.installing = false) :
    (rec.apply .stop).1.Quiet := by
  rw [apply, hidle]
  simp only [Bool.false_eq_true, if_false]
  split
  · next hcrashed => exact ⟨by simp, .inr rfl⟩
  · next hcrashed =>
    split
    · next hdown =>
      refine ⟨hcrashed, .inl ?_⟩
      rcases hdown with hnone | hup
      · exact hnone
      · exact htracks.not_up (by simpa using hup)
    · exact ⟨by simp, .inr rfl⟩

/-! ## What the work leads to -/

/-- The removal that the work is about to make. -/
def Work.clears (uuid : Str) : Work → Option ContainerName
  | .remove _ .game => some (.game uuid)
  | .remove _ .install => some (.install uuid)
  | .remove _ .database => some (.database uuid)
  | _ => none

/-- A step starts what its work has made, and claims to have removed what it is to remove. -/
structure Move.Follows (e : Move) (uuid : Str) (w : Work) : Prop where
  starts : ∀ ref, e.call = some (.start ref) → ∃ id, w.made = some id ∧ ref = .id id
  deleted : e.deleted = true →
    (∃ deleteFiles, w = .remove deleteFiles .delete) ∧ e.call = none ∧ e.inst.opMu = none
  made : ∀ h id, e.inst.opMu = some h → h.work.made = some id →
    w.made = some id ∨ ∃ c, e.call = some (.create c) ∧ c.id = id
  cleared : ∀ h name, e.inst.opMu = some h → name ∈ h.work.cleared uuid →
    name ∈ w.cleared uuid ∨ w.clears uuid = some name

/-- The work goes on with nothing made and nothing removed. -/
theorem Move.follows_of_plain (hcall : ∀ ref, e.call ≠ some (.start ref)) (hdel : e.deleted = false)
    (hmu : ∀ h, e.inst.opMu = some h → h.work.made = none ∧ h.work.cleared uuid = []) :
    e.Follows uuid w := by
  refine ⟨fun ref href => absurd href (hcall ref), fun h => ?_, fun h id hh hmade => ?_,
    fun h name hh hname => ?_⟩
  · rw [hdel] at h
    cases h
  · rw [(hmu h hh).1] at hmade
    cases hmade
  · rw [(hmu h hh).2] at hname
    cases hname

theorem ensureStep_follows {db : DatabaseSpec} {pc : EnsurePc} :
    (∀ ref, (ensureStep r uuid d db ctx x pc).1 = some (.start ref) → ∃ id, pc = .run id ∧ ref = .id id) ∧
      ∀ id, (ensureStep r uuid d db ctx x pc).2 = .next (.run id) →
        ∃ c, (ensureStep r uuid d db ctx x pc).1 = some (.create c) ∧ c.id = id := by
  cases pc with
  | create =>
    simp only [ensureStep, calls]
    have heffect := @Answer.effect_of_ok ctx x.answer
    refine ⟨?_, ?_⟩ <;> grind
  | _ => simp only [ensureStep, calls]; refine ⟨?_, ?_⟩ <;> grind

theorem startStep_follows {pc : StartPc} (hs : startStep r d i ctx spec x pc = some e) :
    e.Follows i.uuid (.start spec pc) := by
  have hok := @Answer.effect_of_ok ctx x.answer
  cases pc with
  | ensure pc =>
    simp only [startStep] at hs
    split at hs
    · cases hs
    · next db _ =>
      obtain ⟨hstarts, hmade⟩ :=
        @ensureStep_follows r d ctx x i.uuid db pc
      split at hs
      · next call pc' heq =>
        cases hs
        rw [heq] at hstarts hmade
        refine ⟨fun ref href => ?_, (fun h => nomatch h), fun h id hh hid => ?_,
          fun h name hh hname => ?_⟩
        · obtain ⟨id, rfl, rfl⟩ := hstarts ref href
          exact ⟨id, rfl, rfl⟩
        · cases hh
          cases pc' with
          | run id' =>
            cases hid
            exact .inr (hmade id rfl)
          | _ => cases hid
        · cases hh
          cases hname
      all_goals
        next heq =>
        cases hs
        rw [heq] at hstarts
        refine ⟨fun ref href => ?_, (fun h => nomatch h), fun h id hh hid => ?_,
          fun h name hh hname => ?_⟩
        · obtain ⟨id, rfl, rfl⟩ := hstarts ref href
          exact ⟨id, rfl, rfl⟩
        · cases hh
          cases hid
        · cases hh
          cases hname
  | _ =>
    simp only [startStep, Move.of, calls] at hs
    constructor <;> grind [Work.made, Work.cleared, Inst.next, Inst.unlock]

theorem installStep_starts {pc : InstallPc} (hs : installStep r d i ctx spec x pc = some e) :
    (∀ ref, e.call = some (.start ref) →
      ∃ id, (Work.install spec pc).made = some id ∧ ref = .id id) ∧ e.deleted = false := by
  cases pc <;> simp only [installStep, Move.of, calls] at hs <;> refine ⟨?_, ?_⟩ <;> grind [Work.made]

theorem installStep_made {pc : InstallPc} {id : Str} (hs : installStep r d i ctx spec x pc = some e)
    (hmu : e.inst.opMu = some h) (hmade : h.work.made = some id) :
    (Work.install spec pc).made = some id ∨ ∃ c, e.call = some (.create c) ∧ c.id = id := by
  have hok := @Answer.effect_of_ok ctx x.answer
  have hfail : ∀ ctx' id h, (i.failInstall ctx' spec x id).opMu = some h → h.work.made = none := by
    intro ctx' id h hh
    cases hh
    rfl
  cases pc <;> simp only [installStep, Move.of, calls] at hs <;>
    grind [Work.made, Inst.next, Inst.unlock]

theorem installStep_follows {pc : InstallPc} (hs : installStep r d i ctx spec x pc = some e) :
    e.Follows i.uuid (.install spec pc) := by
  obtain ⟨hstarts, hdeleted⟩ := installStep_starts hs
  refine ⟨hstarts, fun hdel => ?_, fun h id hh hmade => installStep_made hs hh hmade,
    fun h name hh hname => ?_⟩
  · rw [hdeleted] at hdel
    cases hdel
  · obtain ⟨ctx', pc', rfl⟩ := installStep_next hs hh
    cases hname

namespace Inst

/-- What may follow on a stop of the game neither starts what is made nor has removed anything. -/
theorem stopped_opMu {ok : Bool} {k : Stopping} (hmu : (i.stopped ctx ok k).opMu = some h) :
    h.work.made = none ∧ h.work.cleared uuid = [] := by
  cases k with
  | stop =>
    rw [stopped] at hmu
    split at hmu <;> cases hmu
    exact ⟨rfl, rfl⟩
  | restart spec =>
    rw [stopped] at hmu
    split at hmu <;> cases hmu
    exact ⟨rfl, rfl⟩
  | remove deleteFiles =>
    rw [stopped] at hmu
    cases hmu
    split <;> exact ⟨rfl, rfl⟩

theorem idled_opMu {remove : Option Bool} (hmu : (i.idled ctx remove).opMu = some h) :
    h.work.made = none ∧ h.work.cleared uuid = [] := by
  cases remove <;> cases hmu
  exact ⟨rfl, rfl⟩

end Inst

open Inst

theorem stopStep_follows {pc : StopPc} {k : Stopping} (hs : stopStep i ctx k x pc = some e) :
    e.Follows i.uuid (.stop k pc) := by
  have hnext : ∀ (j : Inst) ctx' (pc' : StopPc) h, (j.next ctx' (.stop k pc')).opMu = some h →
      h.work.made = none ∧ h.work.cleared i.uuid = [] := by
    intro j ctx' pc' h hh
    cases hh
    exact ⟨rfl, rfl⟩
  have hstopped : ∀ (j : Inst) ctx' ok h, (j.stopped ctx' ok k).opMu = some h →
      h.work.made = none ∧ h.work.cleared i.uuid = [] := fun _ _ _ _ => stopped_opMu
  refine Move.follows_of_plain ?_ ?_ ?_ <;>
    cases pc <;> simp only [stopStep, waitStep, Move.of, calls] at hs <;> grind

theorem idleStep_follows {pc : IdlePc} {remove : Option Bool}
    (hs : idleStep d i ctx remove x pc = some e) : e.Follows i.uuid (.idle remove pc) := by
  have hnext : ∀ (j : Inst) (pc' : IdlePc) h, (j.next ctx (.idle remove pc')).opMu = some h →
      h.work.made = none ∧ h.work.cleared i.uuid = [] := by
    intro j pc' h hh
    cases hh
    exact ⟨rfl, rfl⟩
  have hidled : ∀ h, (i.idled ctx remove).opMu = some h →
      h.work.made = none ∧ h.work.cleared i.uuid = [] := fun _ => idled_opMu
  refine Move.follows_of_plain ?_ ?_ ?_ <;>
    cases pc <;> simp only [idleStep, Move.of, calls] at hs <;> grind

theorem removeStep_follows {pc : RemovePc} {deleteFiles : Bool}
    (hs : removeStep i ctx deleteFiles x pc = some e) : e.Follows i.uuid (.remove deleteFiles pc) := by
  cases pc <;> simp only [removeStep, Move.of, calls] at hs <;> constructor <;>
    grind [Work.made, Work.cleared, Work.clears, Inst.next, Inst.unlock]

theorem crashStep_opMu (hmu : (crashStep i).opMu = some h) :
    i.record.state = .crashed ∧ ∃ spec, h = ⟨true, .start spec .begin⟩ := by
  rw [crashStep] at hmu
  split at hmu
  · cases hmu
  · split at hmu
    · cases hmu
    · next hcrashed =>
      cases hmu
      exact ⟨not_not.mp hcrashed, _, rfl⟩

theorem workStep_follows (hs : workStep r d i h x = some e) : e.Follows i.uuid h.work := by
  rw [workStep] at hs
  split at hs
  · next hw => exact hw ▸ installStep_follows hs
  · next hw => exact hw ▸ startStep_follows hs
  · next hw => exact hw ▸ stopStep_follows hs
  · next hw => exact hw ▸ idleStep_follows hs
  · next hw => exact hw ▸ removeStep_follows hs
  · cases hs
    refine Move.follows_of_plain (fun _ => by simp [Move.of]) rfl fun h hh => ?_
    obtain ⟨-, spec, rfl⟩ := crashStep_opMu hh
    exact ⟨rfl, rfl⟩

/-- What is to be removed is removed if the call takes effect. -/
theorem workStep_clears {name : ContainerName} (hclears : h.work.clears i.uuid = some name)
    (hs : workStep r d i h x = some e) (heffect : x.answer.effect h.ctx = true) :
    e.call = some (.remove (.name name)) := by
  rw [workStep] at hs
  split at hs
  · next hw => rw [hw] at hclears; cases hclears
  · next hw => rw [hw] at hclears; cases hclears
  · next hw => rw [hw] at hclears; cases hclears
  · next hw => rw [hw] at hclears; cases hclears
  · next deleteFiles pc hw =>
    rw [hw] at hclears
    cases pc with
    | files => cases hclears
    | delete => cases hclears
    | _ =>
      cases hclears
      cases hs
      rw [heffect]
      rfl
  · next hw => rw [hw] at hclears; cases hclears

/-- Only an install or a start creates a container. -/
theorem workStep_maker (uuid : Str) {c : Container} (hs : workStep r d i h x = some e)
    (hc : e.call = some (.create c)) :
    h.work.owns = true ∧ h.work.cleared uuid = [] ∧ h.work.clears uuid = none := by
  rw [workStep] at hs
  split at hs
  · next hw => rw [hw]; exact ⟨rfl, rfl, rfl⟩
  · next hw => rw [hw]; exact ⟨rfl, rfl, rfl⟩
  · exact absurd hc (stopStep_create hs)
  · exact absurd hc (idleStep_create hs)
  · exact absurd hc (removeStep_create hs)
  · cases hs
    cases hc

/-! ## What stays quiet -/

/-- A stop changes the record at its beginning only. -/
theorem stopStep_record {pc : StopPc} {k : Stopping} (hs : stopStep i ctx k x pc = some e) :
    (∃ force, pc = .begin force) ∧ e.inst.record = (i.record.apply .stop).1 ∨
      (∀ force, pc ≠ .begin force) ∧ e.inst.record = i.record := by
  have hstopped : ∀ (j : Inst) ctx' ok, (j.stopped ctx' ok k).record = j.record := by
    intro j ctx' ok
    rw [stopped_eq]
  cases pc <;> simp only [stopStep, waitStep, Move.of] at hs <;> grind [Inst.next]

theorem idleStep_record {pc : IdlePc} {remove : Option Bool}
    (hs : idleStep d i ctx remove x pc = some e) : e.inst.record = i.record := by
  have hidled : (i.idled ctx remove).record = i.record := by rw [idled_eq]
  cases pc <;> simp only [idleStep, Move.of] at hs <;> grind [Inst.next]

theorem removeStep_record {pc : RemovePc} {deleteFiles : Bool}
    (hs : removeStep i ctx deleteFiles x pc = some e) : e.inst.record = i.record := by
  cases pc <;> simp only [removeStep, Move.of] at hs <;> grind [Inst.next, Inst.unlock]

/-- What a stop goes on to is of the kind that it was. -/
theorem stopStep_opMu {pc : StopPc} {k : Stopping} (hs : stopStep i ctx k x pc = some e)
    (hmu : e.inst.opMu = some h) :
    (h.work.removes = true → ∃ deleteFiles, k = .remove deleteFiles) ∧
      (k = .stop → h.work.owns = false) := by
  have hnext : ∀ (j : Inst) ctx' (pc' : StopPc) h, (j.next ctx' (.stop k pc')).opMu = some h →
      (h.work.removes = true → ∃ deleteFiles, k = .remove deleteFiles) ∧
        (k = .stop → h.work.owns = false) := by
    intro j ctx' pc' h hh
    cases hh
    cases k with
    | stop => exact ⟨fun hrem => (nomatch hrem), fun _ => rfl⟩
    | restart spec => exact ⟨fun hrem => (nomatch hrem), fun hk => nomatch hk⟩
    | remove deleteFiles => exact ⟨fun _ => ⟨_, rfl⟩, fun hk => nomatch hk⟩
  have hstopped : ∀ (j : Inst) ctx' ok h, (j.stopped ctx' ok k).opMu = some h →
      (h.work.removes = true → ∃ deleteFiles, k = .remove deleteFiles) ∧
        (k = .stop → h.work.owns = false) := by
    intro j ctx' ok h hh
    cases k with
    | stop =>
      rw [stopped] at hh
      split at hh <;> cases hh
      exact ⟨fun hrem => (nomatch hrem), fun _ => rfl⟩
    | restart spec =>
      rw [stopped] at hh
      split at hh <;> cases hh
      exact ⟨fun hrem => (nomatch hrem), fun hk => nomatch hk⟩
    | remove deleteFiles => exact ⟨fun _ => ⟨_, rfl⟩, fun hk => nomatch hk⟩
  cases pc <;> simp only [stopStep, waitStep, Move.of] at hs <;> grind

theorem idleStep_opMu {pc : IdlePc} {remove : Option Bool}
    (hs : idleStep d i ctx remove x pc = some e) (hmu : e.inst.opMu = some h) :
    remove = none → h.work.owns = false ∧ h.work.removes = false := by
  rintro rfl
  have hnext : ∀ (j : Inst) (pc' : IdlePc) h, (j.next ctx (.idle none pc')).opMu = some h →
      h.work.owns = false ∧ h.work.removes = false := by
    intro j pc' h hh
    cases hh
    exact ⟨rfl, rfl⟩
  have hidled : (i.idled ctx none).opMu = none := rfl
  cases pc <;> simp only [idleStep, Move.of] at hs <;> grind

theorem installStep_opMu {pc : InstallPc} (hs : installStep r d i ctx spec x pc = some e)
    (hmu : e.inst.opMu = some h) : h.work.removes = false := by
  obtain ⟨ctx', pc', rfl⟩ := installStep_next hs hmu
  rfl

theorem startStep_opMu {pc : StartPc} (hs : startStep r d i ctx spec x pc = some e)
    (hmu : e.inst.opMu = some h) : h.work.removes = false := by
  cases pc with
  | ensure pc =>
    simp only [startStep] at hs
    split at hs
    · cases hs
    · split at hs <;> cases hs <;> cases hmu <;> rfl
  | _ =>
    simp only [startStep, Move.of] at hs
    grind [Inst.next, Inst.unlock, Work.removes]

/-- A `Remove` has stopped the game for good, whether the stop succeeded or not. -/
theorem workStep_removing {h' : Holder} (hi : i.Calm) (hmu : i.opMu = some h)
    (hs : workStep r d i h x = some e) (hmu' : e.inst.opMu = some h')
    (hrem : h'.work.removes = true) : e.inst.record.Quiet := by
  have hbefore := hi.removing h hmu
  have hidle : h.work.installs = false → i.record.installing = false := by
    intro hw
    by_contra hinst
    obtain ⟨h₁, hmu₁, hw₁⟩ := hi.held.holder (by simpa using hinst)
    cases hmu.symm.trans hmu₁
    exact absurd (hw.symm.trans hw₁) (by decide)
  rw [workStep] at hs
  split at hs
  · rw [installStep_opMu hs hmu'] at hrem
    cases hrem
  · rw [startStep_opMu hs hmu'] at hrem
    cases hrem
  · next k pc hw =>
    obtain ⟨deleteFiles, rfl⟩ := (stopStep_opMu hs hmu').1 hrem
    rcases stopStep_record hs with ⟨-, hrec⟩ | ⟨hpc, hrec⟩
    · rw [hrec]
      exact Record.quiet_stop hi.tracks.record (hidle (by rw [hw]; rfl))
    · rw [hrec]
      refine hbefore ?_
      rw [hw]
      cases pc with
      | begin force => exact absurd rfl (hpc force)
      | _ => rfl
  · next remove pc hw =>
    cases remove with
    | none =>
      rw [(idleStep_opMu hs hmu' rfl).2] at hrem
      cases hrem
    | some deleteFiles =>
      rw [idleStep_record hs]
      exact hbefore (by rw [hw]; rfl)
  · next hw =>
    rw [removeStep_record hs]
    exact hbefore (by rw [hw]; rfl)
  · cases hs
    obtain ⟨-, spec, rfl⟩ := crashStep_opMu hmu'
    cases hrem

theorem calm_of {i' : Inst} (hi : i.Calm) (htracks : i'.Tracks) (hheld : i'.Held)
    (hmu : i'.opMu = i.opMu) (hquiet : i.record.Quiet → i'.record.Quiet) : i'.Calm :=
  ⟨htracks, hheld, fun h hh hrem => hquiet (hi.removing h (hmu ▸ hh) hrem)⟩

theorem keeps_calm : Manager.Keeps Inst.Calm where
  new uuid := ⟨keeps_tracks.new uuid, keeps_held.new uuid, fun _ hmu => nomatch hmu⟩
  adopt uuid c stored x := by
    refine ⟨keeps_tracks.adopt uuid c stored x, keeps_held.adopt uuid c stored x, fun h hmu => ?_⟩
    simp only [Inst.adopt] at hmu
    split at hmu
    · split at hmu <;> cases hmu
    · cases hmu
  lock i q hmu hi := by
    refine ⟨keeps_tracks.lock i q hmu hi.tracks, keeps_held.lock i q hmu hi.held, fun h hh hrem => ?_⟩
    cases hh
    cases q <;> cases hrem
  work _ _ _ _ _ _ hmu hs hi :=
    ⟨workStep_tracks hmu hs hi.tracks, workStep_held hmu hs hi.held,
      fun _ hmu' hrem => workStep_removing hi hmu hs hmu' hrem⟩
  ready i hi := calm_of hi (keeps_tracks.ready i hi.tracks) (keeps_held.ready i hi.held) rfl
    Record.quiet_matchReady
  exit i id code err now _ hi := by
    obtain ⟨hrec, hmu⟩ := @exit_record i id code err now
    refine calm_of hi (exit_tracks hi.tracks) (exit_held hi.held) hmu fun hquiet => ?_
    rw [hrec]
    exact Record.quiet_exit hquiet
  exited i id hi :=
    calm_of hi (keeps_tracks.exited i id hi.tracks) (keeps_held.exited i id hi.held) rfl fun h => h
  lockDb i db hmu hi :=
    calm_of hi (keeps_tracks.lockDb i db hmu hi.tracks) (keeps_held.lockDb i db hmu hi.held) rfl id
  database r d i db ctx x pc hmu hi := by
    refine calm_of hi (withStep_tracks hi.tracks) (withStep_held hi.held) ?_ ?_ <;> rw [withStep_fields]
    exact id

/-! ## Idle records -/

theorem idle_new : (Inst.new uuid).Idle := ⟨⟨(fun h => nomatch h), .inl rfl⟩, fun _ hmu => nomatch hmu⟩

theorem quiet_section {i' : Inst} (h : i.Section i') (hq : i.record.Quiet) : i'.record.Quiet := by
  cases h with
  | ready => exact Record.quiet_matchReady hq
  | exit id code err now hid =>
    rw [exit_record.1]
    exact Record.quiet_exit hq
  | _ => exact hq

theorem idle_section {i' : Inst} (h : i.Section i') (hi : i.Idle) : i'.Idle :=
  ⟨quiet_section h hi.quiet, fun h' hh => hi.work h' (h.same_opMu ▸ hh)⟩

/-- On an idle record there is only work that ends: a stop, or a restart that finds no crash. -/
theorem workStep_idle (hi : i.Idle) (hcalm : i.Calm) (hmu : i.opMu = some h)
    (hs : workStep r d i h x = some e) : e.inst.Idle := by
  have howns := hi.work h hmu
  have hidle : h.work.installs = false → i.record.installing = false := by
    intro hw
    by_contra hinst
    obtain ⟨h₁, hmu₁, hw₁⟩ := hcalm.held.holder (by simpa using hinst)
    cases hmu.symm.trans hmu₁
    exact absurd (hw.symm.trans hw₁) (by decide)
  rw [workStep] at hs
  split at hs
  · next hw => rw [hw] at howns; cases howns
  · next hw => rw [hw] at howns; cases howns
  · next k pc hw =>
    obtain rfl : k = .stop := by
      rw [hw] at howns
      cases k with
      | stop => rfl
      | restart spec => cases howns
      | remove deleteFiles => cases howns
    refine ⟨?_, fun h' hh' => (stopStep_opMu hs hh').2 rfl⟩
    rcases stopStep_record hs with ⟨-, hrec⟩ | ⟨-, hrec⟩
    · rw [hrec]
      exact Record.quiet_stop hcalm.tracks.record (hidle (by rw [hw]; rfl))
    · rw [hrec]
      exact hi.quiet
  · next remove pc hw =>
    obtain rfl : remove = none := by
      rw [hw] at howns
      cases remove with
      | none => rfl
      | some deleteFiles => cases howns
    refine ⟨?_, fun h' hh' => (idleStep_opMu hs hh' rfl).1⟩
    rw [idleStep_record hs]
    exact hi.quiet
  · next hw => rw [hw] at howns; cases howns
  · cases hs
    refine ⟨?_, fun h' hh' => ?_⟩
    · show (crashStep i).record.Quiet
      rw [crashStep_eq]
      exact hi.quiet
    · exact absurd (crashStep_opMu hh').1 hi.quiet.1

namespace Manager

/-! ## Runs of operations -/

/-- The actions of the operations; nobody asks for anything with the database. -/
def Action.operates (a : Action) : Bool :=
  match a with
  | .task .. => false
  | .lockDb _ => false
  | .database .. => false
  | .restart _ => false
  | _ => true

/-- What comes to its turn and may start something has a record that is still in the map, and what a
`Remove` is to remove goes, if it is there. -/
def Settled (m : Manager) : Action → Prop
  | .lock n => ∀ p ∈ m.queue[n]?, p.2.owns = true → m.insts (m.recs p.1).uuid = some p.1
  | .work r x => ∀ h ∈ (m.recs r).opMu, ∀ name ∈ h.work.clears (m.recs r).uuid,
      x.answer.effect h.ctx = true ∨ ∀ c ∈ m.docker, c.name ≠ name
  | _ => True

instance (m : Manager) (a : Action) : Decidable (m.Settled a) := by
  apply Action.casesOn (motive := fun a => Decidable (m.Settled a)) a <;> intros <;>
    dsimp only [Settled] <;> infer_instance

/-- What holds of the map, the records and the containers. -/
structure Orderly (m : Manager) : Prop where
  fresh : m.Fresh
  wf : m.Wf
  calm : ∀ r, (m.recs r).Calm
  /-- nothing will come of a record that is not in the map -/
  detached : ∀ r, r < m.next → m.insts (m.recs r).uuid ≠ some r → (m.recs r).Idle
  belongs : ∀ c ∈ m.docker,
    (c.status = .running ∨ ∃ r h, (m.recs r).opMu = some h ∧ h.work.made = some c.id) →
      m.insts c.name.uuid = some c.owner
  cleared : ∀ r h, (m.recs r).opMu = some h → ∀ c ∈ m.docker, c.name ∉ h.work.cleared (m.recs r).uuid

theorem orderly_boot (hd : d.Named) (hdown : ∀ c ∈ d, c.status ≠ .running) :
    (boot d listed).Orderly := by
  refine ⟨fresh_boot hd, wf_boot, fun _ => keeps_calm.new [], fun r hr => absurd hr (Nat.not_lt_zero r),
    fun c hc hrun => ?_, fun r h hmu => nomatch hmu⟩
  rcases hrun with hrun | ⟨r, h, hmu, -⟩
  · exact absurd hrun (hdown c hc)
  · cases hmu

/-- Work that may start something is done on the record in the map. -/
theorem Orderly.mapped (hm : m.Orderly) (hmu : (m.recs r).opMu = some h) (howns : h.work.owns = true) :
    m.insts (m.recs r).uuid = some r := by
  by_contra hno
  have hidle := hm.detached r (hm.wf.lt_of_opMu hmu) hno
  rw [hidle.work h hmu] at howns
  cases howns

theorem Work.owns_of_cleared {name : ContainerName} (hname : name ∈ w.cleared uuid) : w.owns = true := by
  cases w with
  | remove deleteFiles pc => rfl
  | _ => cases hname

theorem Work.owns_of_removes (hrem : w.removes = true) : w.owns = true := by
  cases w with
  | stop k pc =>
    cases k with
    | remove deleteFiles => rfl
    | _ => cases hrem
  | idle remove pc =>
    cases remove with
    | none => cases hrem
    | some deleteFiles => rfl
  | remove deleteFiles pc => rfl
  | _ => cases hrem

/-- A record that has been made and is idle stays so, if nothing is to start it. -/
theorem idle_step (hm : m.Orderly) (hops : a.operates = true) (hdoes : m.Does a m') (hr : r < m.next)
    (hidle : (m.recs r).Idle)
    (hlock : ∀ n q, a = .lock n → m.queue[n]? = some (r, q) → q.owns = false) :
    (m'.recs r).Idle := by
  cases hdoes with
  | aside ha => exact idle_section (ha.old r hr) hidle
  | locks n r' q hq hfree hrecs =>
    rw [hrecs]
    by_cases heq : r = r'
    · subst heq
      rw [Function.update_self]
      refine ⟨hidle.quiet, fun h hh => ?_⟩
      cases hh
      exact hlock n q rfl hq
    · rw [Function.update_of_ne heq]
      exact hidle
  | tends r' x db ctx pc hmu => cases hops
  | works r' x h e hmu he hrecs =>
    rw [hrecs]
    by_cases heq : r = r'
    · subst heq
      rw [Function.update_self]
      exact workStep_idle hidle (hm.calm r) hmu he
    · rw [Function.update_of_ne heq]
      exact hidle

/-- The record that a `Remove` takes out of the map is idle then. -/
theorem workStep_deleted (hcalm : i.Calm) (hmu : i.opMu = some h) (hs : workStep r d i h x = some e)
    (hdel : e.deleted = true) : e.inst.Idle := by
  obtain ⟨⟨deleteFiles, hw⟩, -, hfree⟩ := (workStep_follows hs).deleted hdel
  have hquiet := hcalm.removing h hmu (by rw [hw]; rfl)
  rw [workStep, hw] at hs
  refine ⟨?_, fun h' hh' => ?_⟩
  · rw [removeStep_record hs]
    exact hquiet
  · rw [hfree] at hh'
    cases hh'

theorem detached_step (hm : m.Orderly) (hops : a.operates = true) (hdoes : m.Does a m')
    (hsettled : m.Settled a) (hr : r < m'.next)
    (hno : m'.insts (m'.recs r).uuid ≠ some r) : (m'.recs r).Idle := by
  have hlock : m.insts (m.recs r).uuid ≠ some r →
      ∀ n q, a = .lock n → m.queue[n]? = some (r, q) → q.owns = false := by
    rintro hdet n q rfl hq
    by_contra howns
    exact hdet (hsettled (r, q) hq (by simpa using howns))
  have hold : r < m.next → m.insts (m.recs r).uuid ≠ some r → (m'.recs r).Idle := fun hr hdet =>
    idle_step hm hops hdoes hr (hm.detached r hr hdet) (hlock hdet)
  cases hdoes with
  | aside ha =>
    by_cases hlt : r < m.next
    · refine hold hlt fun hmap => hno ?_
      rw [(ha.old r hlt).same_uuid]
      exact ha.insts _ r hmap
    · exact absurd (ha.made r hr hlt).1 hno
  | locks n r' q hq hfree hrecs hinsts hnext =>
    refine hold (hnext ▸ hr) fun hmap => hno ?_
    rw [hinsts, hrecs]
    by_cases heq : r = r'
    · subst heq
      rw [Function.update_self]
      exact hmap
    · rw [Function.update_of_ne heq]
      exact hmap
  | tends r' x db ctx pc hmu => cases hops
  | works r' x h e hmu he hrecs hinsts hnext =>
    have huuid : (m'.recs r).uuid = (m.recs r).uuid := by
      rw [hrecs]
      by_cases heq : r = r'
      · subst heq
        rw [Function.update_self]
        exact workStep_uuid he
      · rw [Function.update_of_ne heq]
    by_cases hmap : m.insts (m.recs r).uuid = some r
    · -- the record has just been taken out
      rw [huuid, hinsts] at hno
      split at hno
      · next hdel =>
        have howns : h.work.owns = true := by
          obtain ⟨⟨deleteFiles, hw⟩, -, -⟩ := (workStep_follows he).deleted hdel
          rw [hw]
          rfl
        have hsame : (m.recs r).uuid = (m.recs r').uuid := by
          by_contra hne
          rw [Function.update_of_ne hne] at hno
          exact hno hmap
        obtain rfl : r = r' := by
          have := hm.mapped hmu howns
          rw [← hsame, hmap] at this
          exact Option.some.inj this
        rw [hrecs, Function.update_self]
        exact workStep_deleted (hm.calm r) hmu he hdel
      · exact absurd hmap hno
    · exact hold (hnext ▸ hr) hmap

theorem belongs_step (hm : m.Orderly) (hops : a.operates = true) (hwf' : m'.Wf) (hdoes : m.Does a m')
    {c' : Container} (hc' : c' ∈ m'.docker)
    (hup : c'.status = .running ∨ ∃ r h, (m'.recs r).opMu = some h ∧ h.work.made = some c'.id) :
    m'.insts c'.name.uuid = some c'.owner := by
  cases hdoes with
  | aside ha =>
    obtain ⟨c, hc, hid, hname, howner, hrun⟩ := ha.mem_docker hc'
    rw [hname, howner]
    refine ha.insts _ _ (hm.belongs c hc ?_)
    rcases hup with hup | ⟨r, h', hmu, hmade⟩
    · exact .inl (hrun hup)
    · exact .inr ⟨r, h', (ha.opMu hwf' hmu).2, hid ▸ hmade⟩
  | locks n r q hq hfree hrecs hinsts hnext hdocker =>
    rw [hdocker] at hc'
    rw [hinsts]
    refine hm.belongs c' hc' ?_
    rcases hup with hup | ⟨r', h', hmu, hmade⟩
    · exact .inl hup
    · rw [hrecs] at hmu
      by_cases hr : r' = r
      · subst hr
        rw [Function.update_self] at hmu
        cases hmu
        cases q <;> cases hmade
      · rw [Function.update_of_ne hr] at hmu
        exact .inr ⟨r', h', hmu, hmade⟩
  | tends r x db ctx pc hmu => cases hops
  | works r x h e hmu he hrecs hinsts hnext hdocker =>
    have hfollows := workStep_follows he
    have hold : m.insts c'.name.uuid = some c'.owner := by
      rw [hdocker] at hc'
      rcases Docker.mem_perform hc' with ⟨c, hc, hid, hname, howner, hrun⟩ | hcreate
      · rw [hname, howner]
        refine hm.belongs c hc ?_
        rcases hup with hup | ⟨r', h', hmu', hmade⟩
        · rcases hrun hup with hrun | ⟨ref, href, hisref⟩
          · exact .inl hrun
          · -- it is the container that the work has made
            obtain ⟨id, hmade, rfl⟩ := hfollows.starts ref href
            have hid : c.id = id := of_decide_eq_true hisref
            exact .inr ⟨r, h, hmu, hid ▸ hmade⟩
        · rw [hrecs] at hmu'
          by_cases hr : r' = r
          · subst hr
            rw [Function.update_self] at hmu'
            rcases hfollows.made h' _ hmu' hmade with hmade | ⟨c₀, hcreate, hid₀⟩
            · exact .inr ⟨r', h, hmu, hid ▸ hmade⟩
            · have hfree := (workStep_create he hcreate).free
              have hne := (of_decide_eq_true (List.all_eq_true.mp hfree c hc)).2
              exact absurd (hid.symm.trans hid₀.symm) hne
          · rw [Function.update_of_ne hr] at hmu'
            exact .inr ⟨r', h', hmu', hid ▸ hmade⟩
      · have hcreates := workStep_create he hcreate
        rw [hcreates.uuid, hcreates.owner]
        exact hm.mapped hmu (workStep_maker [] he hcreate).1
    rw [hinsts]
    split
    · next hdel =>
      -- nothing of the instance is left
      obtain ⟨⟨deleteFiles, hw⟩, hcall, -⟩ := hfollows.deleted hdel
      rw [hdocker, hcall] at hc'
      have hgone := hm.cleared r h hmu c' hc'
      rw [hw] at hgone
      have hne : c'.name.uuid ≠ (m.recs r).uuid := by
        intro heq
        refine hgone ?_
        rw [← heq]
        show c'.name ∈ [ContainerName.game c'.name.uuid, .install c'.name.uuid, .database c'.name.uuid]
        cases c'.name <;> simp [ContainerName.uuid]
      exact (Function.update_of_ne hne ..).trans hold
    · exact hold

theorem Work.uuid_of_cleared {name : ContainerName} (hname : name ∈ w.cleared uuid) : name.uuid = uuid := by
  cases w with
  | remove deleteFiles pc =>
    cases pc <;> simp only [Work.cleared, List.mem_cons, List.not_mem_nil, or_false] at hname
    · exact hname ▸ rfl
    · rcases hname with rfl | rfl <;> rfl
    · rcases hname with rfl | rfl | rfl <;> rfl
    · rcases hname with rfl | rfl | rfl <;> rfl
  | _ => cases hname

theorem cleared_step (hm : m.Orderly) (hops : a.operates = true) (hwf' : m'.Wf)
    (hdoes : m.Does a m') (hsettled : m.Settled a)
    (hmu' : (m'.recs r).opMu = some h) {c' : Container} (hc' : c' ∈ m'.docker) :
    c'.name ∉ h.work.cleared (m'.recs r).uuid := by
  intro hname'
  cases hdoes with
  | aside ha =>
    obtain ⟨hr, hmu⟩ := ha.opMu hwf' hmu'
    obtain ⟨c, hc, -, hname, -⟩ := ha.mem_docker hc'
    rw [(ha.old r hr).same_uuid, hname] at hname'
    exact hm.cleared r h hmu c hc hname'
  | locks n r' q hq hfree hrecs hinsts hnext hdocker =>
    rw [hdocker] at hc'
    rw [hrecs] at hmu' hname'
    by_cases hr : r = r'
    · subst hr
      rw [Function.update_self] at hmu'
      cases hmu'
      cases q <;> cases hname'
    · rw [Function.update_of_ne hr] at hmu' hname'
      exact hm.cleared r h hmu' c' hc' hname'
  | tends r' x db ctx pc hmu => cases hops
  | works r' x h' e hmu he hrecs hinsts hnext hdocker =>
    rw [hdocker] at hc'
    rw [hrecs] at hmu' hname'
    by_cases hr : r = r'
    · subst hr
      rw [Function.update_self] at hmu' hname'
      rw [workStep_uuid he] at hname'
      have hbefore := (workStep_follows he).cleared h _ hmu' hname'
      rcases Docker.mem_perform hc' with ⟨c, hc, -, hname, -⟩ | hcreate
      · rcases hbefore with hbefore | hclears
        · rw [hname] at hbefore
          exact hm.cleared r h' hmu c hc hbefore
        · rcases hsettled h' hmu _ hclears with heffect | hnone
          · rw [workStep_clears hclears he heffect] at hc'
            have hne := (Docker.mem_remove.mp hc').2
            simp [Container.isRef] at hne
          · exact hnone c hc hname.symm
      · obtain ⟨-, hnil, hnone⟩ := workStep_maker (m.recs r).uuid he hcreate
        rw [hnil, hnone] at hbefore
        rcases hbefore with hbefore | hbefore <;> cases hbefore
    · rw [Function.update_of_ne hr] at hmu' hname'
      rcases Docker.mem_perform hc' with ⟨c, hc, -, hname, -⟩ | hcreate
      · exact hm.cleared r h hmu' c hc (hname ▸ hname')
      · -- both records would be the one in the map
        have huuid := Work.uuid_of_cleared hname'
        rw [(workStep_create he hcreate).uuid] at huuid
        have hmapped := hm.mapped hmu' (Work.owns_of_cleared hname')
        have hmapped' := hm.mapped hmu (workStep_maker [] he hcreate).1
        rw [huuid, hmapped] at hmapped'
        exact hr (Option.some.inj hmapped')

theorem Action.restarts_of_operates (hops : a.operates = true) : a.restarts = false := by
  cases a <;> first | rfl | cases hops

theorem orderly_step (hops : a.operates = true) (hsettled : m.Settled a) (hs : m.step a = some m')
    (hm : m.Orderly) : m'.Orderly := by
  have hdoes := does_of_step hm.fresh (Action.restarts_of_operates hops) hs
  have hwf' := wf_step hm.wf hs
  exact ⟨fresh_step hm.fresh hs, hwf', recs_step keeps_calm hm.fresh hs hm.calm,
    fun r hr hno => detached_step hm hops hdoes hsettled hr hno,
    fun c hc hup => belongs_step hm hops hwf' hdoes hc hup,
    fun r h hmu c hc => cleared_step hm hops hwf' hdoes hsettled hmu hc⟩

/-! ## After a removal -/

/-- Nothing is left of the instance, and nothing is to come. -/
structure Down (m : Manager) (uuid : Str) : Prop where
  idle : ∀ r, r < m.next → (m.recs r).uuid = uuid → (m.recs r).Idle
  gone : ∀ c ∈ m.docker, c.name.uuid ≠ uuid
  unlisted : ∀ c ∈ m.reconcile, c.name.uuid ≠ uuid

/-- `Remove` returns, with an error or not. -/
def RemoveReturns (m : Manager) (r : ℕ) (m' : Manager) : Prop :=
  (∃ ctx deleteFiles pc, (m.recs r).opMu = some ⟨ctx, .remove deleteFiles pc⟩) ∧
    (m'.recs r).opMu = none

/-- No request for the instance comes in or to its turn. -/
def Unasked (uuid : Str) (m : Manager) : Action → Prop
  | .request uuid' _ => uuid' ≠ uuid
  | .lock n => ∀ p ∈ m.queue[n]?, p.2.owns = true → (m.recs p.1).uuid ≠ uuid
  | _ => True

instance (uuid : Str) (m : Manager) (a : Action) : Decidable (Unasked uuid m a) := by
  apply Action.casesOn (motive := fun a => Decidable (Unasked uuid m a)) a <;> intros <;>
    dsimp only [Unasked] <;> infer_instance

theorem down_step (hm : m.Orderly) (hops : a.operates = true) (hdoes : m.Does a m')
    (hun : Unasked uuid m a)
    (hdown : m.Down uuid) : m'.Down uuid := by
  have hold : ∀ r, r < m.next → (m.recs r).uuid = uuid → (m'.recs r).Idle := by
    intro r hr huuid
    refine idle_step hm hops hdoes hr (hdown.idle r hr huuid) ?_
    rintro n q rfl hq
    by_contra howns
    exact hun (r, q) hq (by simpa using howns) huuid
  cases hdoes with
  | aside ha =>
    refine ⟨fun r hr huuid => ?_, fun c' hc' => ?_, fun c hc => hdown.unlisted c (ha.reconcile c hc)⟩
    · by_cases hlt : r < m.next
      · exact hold r hlt ((ha.old r hlt).same_uuid ▸ huuid)
      · rcases (ha.made r hr hlt).2 with ⟨uuid', hnew⟩ | ⟨c, hc, stored, x, hnew⟩
        · rw [hnew]
          exact idle_new
        · rw [hnew, adopt_uuid] at huuid
          exact absurd huuid (hdown.unlisted c hc)
    · obtain ⟨c, hc, -, hname, -⟩ := ha.mem_docker hc'
      rw [hname]
      exact hdown.gone c hc
  | locks n r' q hq hfree hrecs hinsts hnext hdocker hrec =>
    refine ⟨fun r hr huuid => hold r (hnext ▸ hr) ?_, hdocker ▸ hdown.gone, hrec ▸ hdown.unlisted⟩
    rw [hrecs] at huuid
    by_cases heq : r = r'
    · subst heq
      rw [Function.update_self] at huuid
      exact huuid
    · rw [Function.update_of_ne heq] at huuid
      exact huuid
  | tends r' x db ctx pc hmu => cases hops
  | works r' x h e hmu he hrecs hinsts hnext hdocker hrec =>
    refine ⟨fun r hr huuid => hold r (hnext ▸ hr) ?_, fun c' hc' => ?_, hrec ▸ hdown.unlisted⟩
    · rw [hrecs] at huuid
      by_cases heq : r = r'
      · subst heq
        rw [Function.update_self, workStep_uuid he] at huuid
        exact huuid
      · rw [Function.update_of_ne heq] at huuid
        exact huuid
    · rw [hdocker] at hc'
      rcases Docker.mem_perform hc' with ⟨c, hc, -, hname, -⟩ | hcreate
      · rw [hname]
        exact hdown.gone c hc
      · -- an idle record creates nothing
        intro huuid
        rw [(workStep_create he hcreate).uuid] at huuid
        have hidle := (hdown.idle r' (hm.wf.lt_of_opMu hmu) huuid).work h hmu
        rw [(workStep_maker [] he hcreate).1] at hidle
        cases hidle

/-- The lock is given back at the end only. -/
theorem removeStep_over {pc : RemovePc} {deleteFiles : Bool}
    (hs : removeStep i ctx deleteFiles x pc = some e) (hover : e.inst.opMu = none) :
    e.call = none ∧ (Work.remove deleteFiles pc).clears i.uuid = none ∧
      (Work.remove deleteFiles pc).cleared i.uuid = [.game i.uuid, .install i.uuid, .database i.uuid] := by
  cases pc with
  | files =>
    simp only [removeStep] at hs
    split at hs <;> cases hs <;> exact ⟨rfl, rfl, rfl⟩
  | delete =>
    cases hs
    exact ⟨rfl, rfl, rfl⟩
  | _ =>
    cases hs
    cases hover

/-- When a `Remove` returns, it has removed everything. -/
theorem down_of_returns (hm : m.Orderly) (hs : m.step (.work r x) = some m')
    (hret : m.RemoveReturns r m') : m'.Orderly ∧ m'.Down (m.recs r).uuid := by
  obtain ⟨⟨ctx, deleteFiles, pc, hmu⟩, hover⟩ := hret
  have hmapped := hm.mapped hmu rfl
  obtain ⟨h, e, hmu', he, hm'⟩ := work_eq_some hs
  cases hmu.symm.trans hmu'
  have hfree : e.inst.opMu = none := by
    rw [← hover, hm']
    exact congrArg Inst.opMu set_recs_self.symm
  obtain ⟨hcall, hclears, hcleared⟩ := removeStep_over he hfree
  have hsettled : m.Settled (.work r x) := by
    intro h hh name hname
    cases hmu.symm.trans hh
    rw [hclears] at hname
    cases hname
  have horderly := orderly_step rfl hsettled hs hm
  refine ⟨horderly, ?_⟩
  subst hm'
  have hidle : e.inst.Idle := by
    refine ⟨?_, fun h hh => ?_⟩
    · rw [removeStep_record he]
      exact (hm.calm r).removing _ hmu rfl
    · rw [hfree] at hh
      cases hh
  refine ⟨fun r' hr' huuid => ?_, fun c hc huuid => ?_, fun c hc huuid => ?_⟩
  · show ((m.set r e.inst).recs r').Idle
    by_cases heq : r' = r
    · subst heq
      rw [set_recs_self]
      exact hidle
    · have huuid : ((m.set r e.inst).recs r').uuid = (m.recs r).uuid := huuid
      rw [set_recs_ne heq] at huuid ⊢
      refine hm.detached r' hr' fun hmap => heq ?_
      rw [huuid, hmapped] at hmap
      exact (Option.some.inj hmap).symm
  · have hc : c ∈ m.docker.perform e.call := hc
    rw [hcall] at hc
    have hgone := hm.cleared r _ hmu c hc
    rw [hcleared, ← huuid] at hgone
    refine hgone ?_
    cases c.name <;> simp [ContainerName.uuid]
  · have hunknown := hm.fresh.unknown c hc
    rw [huuid, hmapped] at hunknown
    cases hunknown

/-- Where what comes to its turn has a record that is in the map, and what is to be removed goes: in
every reachable state a container that runs belongs to the record in the map; and once a `Remove` has
returned, nothing of the instance runs until it is asked for again. -/
theorem running_belongs (hd : d.Named) (hdown : ∀ c ∈ d, c.status ≠ .running)
    (hops : ∀ a ∈ as, Action.operates a = true) (hrun : exec step (boot d listed) as = some m)
    (hsettled : Along step Settled (boot d listed) as) :
    (∀ c ∈ m.docker, c.status = .running → m.insts c.name.uuid = some c.owner) ∧
      ∀ r x m₁ bs m₂, m.step (.work r x) = some m₁ → m.RemoveReturns r m₁ →
        (∀ a ∈ bs, Action.operates a = true) → exec step m₁ bs = some m₂ →
        Along step (fun m' a => m'.Settled a ∧ Unasked (m.recs r).uuid m' a) m₁ bs →
        ∀ c ∈ m₂.docker, c.name.uuid = (m.recs r).uuid → c.status ≠ .running := by
  have hm : m.Orderly :=
    exec_invariant (fun s a s' hC hs hm => orderly_step hC.2 hC.1 hs hm) hrun (hsettled.and_forall hops)
      (orderly_boot hd hdown)
  refine ⟨fun c hc hup => hm.belongs c hc (.inl hup), ?_⟩
  intro r x m₁ bs m₂ hs hret hops' hrun' hlater c hc huuid
  have hm₂ := exec_invariant (P := fun m' => m'.Orderly ∧ m'.Down (m.recs r).uuid)
    (fun s a s' hC hs hP => by
      have hdoes := does_of_step hP.1.fresh (Action.restarts_of_operates hC.2) hs
      exact ⟨orderly_step hC.2 hC.1.1 hs hP.1, down_step hP.1 hC.2 hdoes hC.1.2 hP.2⟩)
    hrun' (hlater.and_forall hops') (down_of_returns hm hs hret)
  exact absurd huuid (hm₂.2.gone c hc)

/-- The instance `a` is started and removed, and a stop that was asked for meanwhile comes to its turn
then. -/
def removes : List Action :=
  starting 0 "1" ++ [.request "a".toList (.remove true), .lock 0, .request "a".toList (.stop false)] ++
    [.work 0 (.fine ""), .work 0 (.fine ""), .watch 0 (.fine ""), .watch 0 (.fine "")] ++
    List.replicate 8 (.work 0 (.fine ""))

theorem running_belongs_removes :
    ∃ m m₁ m₂, exec step (boot [] true) removes = some m ∧ m.step (.work 0 (.fine "")) = some m₁ ∧
      m.RemoveReturns 0 m₁ ∧ exec step m₁ [.lock 0, .work 0 (.fine "")] = some m₂ ∧
      ∀ c ∈ m₂.docker, c.name.uuid = "a".toList → c.status ≠ .running := by
  -- the states stay written as the runs that reach them, so that nothing large is compared
  obtain ⟨m, hm⟩ : ∃ m, m = (exec step (boot [] true) removes).get rfl := ⟨_, rfl⟩
  obtain ⟨m₁, hm₁⟩ : ∃ m₁, m₁ = (m.step (.work 0 (.fine ""))).get (by rw [hm]; rfl) := ⟨_, rfl⟩
  have hrun : exec step (boot [] true) removes = some m := by rw [hm]; exact (Option.some_get _).symm
  have hs : m.step (.work 0 (.fine "")) = some m₁ := by rw [hm₁]; exact (Option.some_get _).symm
  have hrun₂ : exec step m₁ [.lock 0, .work 0 (.fine "")] =
      some ((exec step m₁ [.lock 0, .work 0 (.fine "")]).get (by subst hm₁ hm; rfl)) :=
    (Option.some_get _).symm
  have hret : m.RemoveReturns 0 m₁ := by
    subst hm₁ hm
    exact ⟨⟨true, true, .delete, rfl⟩, rfl⟩
  have huuid : (m.recs 0).uuid = "a".toList := by
    subst hm
    rfl
  obtain ⟨-, hgone⟩ :=
    running_belongs Docker.named_nil (fun _ h => nomatch h) (by decide) hrun (by decide +kernel)
  refine ⟨m, m₁, _, hrun, hs, hret, hrun₂, ?_⟩
  rw [← huuid]
  refine hgone 0 (.fine "") m₁ _ _ hs hret (by decide) hrun₂ ?_
  rw [huuid]
  subst hm₁ hm
  decide +kernel

/-- A start is asked for while a removal is under way, and goes on with the record that has gone. -/
def startsRemoved : List Action :=
  [.request "a".toList (.remove true), .lock 0, .request "a".toList (.start game)] ++
    List.replicate 9 (.work 0 (.fine "")) ++ [.lock 0] ++ List.replicate 7 (.work 0 (.fine "1"))

theorem start_after_removal :
    ∃ m, exec step (boot [] true) startsRemoved = some m ∧
      ∃ c ∈ m.docker, c.status = .running ∧ m.insts c.name.uuid ≠ some c.owner := by
  refine ⟨_, rfl, ⟨"1".toList, .game "a".toList, .running, none, 0⟩, List.mem_singleton_self _, rfl, ?_⟩
  intro h
  cases h

end Manager

end Instances
