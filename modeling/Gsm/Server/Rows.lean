import Gsm.Instances.Record

/-!
# Instance rows

The server keeps a row for each instance (`modules/instances`). A handler loads a copy of the row,
changes the copy and saves the fields it has changed, so what others wrote to the row in between
stays where the copy is unchanged. Here are the changes the handlers make to their copies. What they
tell browsers and other modules afterwards is left out.
-/

open GoStd Instances

namespace Server

/-- `InstanceStatus` -/
inductive Status where
  | installing
  | installFailed
  | stopped
  | starting
  | running
  | stopping
  | crashed
  | unknown
deriving DecidableEq

/-- The columns of an instance row that follow the node. -/
structure Row where
  status : Status
  error : Option Str
  containerId : Option Str
  lastStartedAt : Option ℕ
  installedAt : Option ℕ
deriving DecidableEq

/-- `save` of a copy that was loaded as `before` and is now `after`: the changed columns. -/
def Row.save (row before after : Row) : Row where
  status := if after.status = before.status then row.status else after.status
  error := if after.error = before.error then row.error else after.error
  containerId := if after.containerId = before.containerId then row.containerId else after.containerId
  lastStartedAt :=
    if after.lastStartedAt = before.lastStartedAt then row.lastStartedAt else after.lastStartedAt
  installedAt := if after.installedAt = before.installedAt then row.installedAt else after.installedAt

/-- The status that shows a state the node reports. -/
def ofState : AgentState → Status
  | .stopped => .stopped
  | .starting => .starting
  | .running => .running
  | .stopping => .stopping
  | .crashed => .crashed
  | .installing => .installing

theorem ofState_ne_installFailed (s : AgentState) : ofState s ≠ .installFailed := by
  cases s <;> simp [ofState]

/-- What `applyState` does not apply: while an install runs, a stopped container. -/
def ignores (instance_ : Row) (state : InstanceState) : Bool :=
  instance_.status = .installing ∧ state.state = .stopped ∧ ¬ state.installed

/-- `applyState`, up to saving; `now` is the server's clock. -/
def applyState (instance_ : Row) (state : InstanceState) (now : ℕ) : Row :=
  if ignores instance_ state then instance_
  else
    { status := ofState state.state
      error := state.error
      containerId := state.containerId
      lastStartedAt :=
        if (state.state = .starting ∨ state.state = .running) ∧ instance_.status ≠ .running ∧
            instance_.status ≠ .starting then
          some (state.startedAt.getD now)
        else instance_.lastStartedAt
      installedAt :=
        if state.installed ∧ instance_.installedAt = none then some now else instance_.installedAt }

/-- What `reconcile` makes of a row, given what the node's list says of the instance. -/
def reconcileRow (row : Row) (state : Option InstanceState) (now : ℕ) : Row :=
  match state with
  | some state => applyState row state now
  | none =>
      if row.status ≠ .installing ∧ row.status ≠ .installFailed then
        let status :=
          if row.installedAt.isSome then .stopped
          else if row.status = .unknown then .stopped
          else row.status
        if row.status ≠ status then { row with status := status, containerId := none } else row
      else row

/-- What `markUnknown` makes of a row. -/
def markUnknownRow (row : Row) : Row :=
  if row.status = .unknown ∨ row.status = .installFailed then row else { row with status := .unknown }

/-- `setStatus` -/
def setStatus (i : Row) (status : Status) (error : Option Str := none) : Row :=
  { i with status := status, error := error }

/-- What became of the agent's `inst.install`: the script's exit code, or an error. -/
abbrev InstallResult := Except Str ℤ

def InstallResult.Failed (res : InstallResult) : Prop := res ≠ .ok 0

instance (res : InstallResult) : Decidable res.Failed :=
  inferInstanceAs (Decidable (res ≠ .ok 0))

/-- The end of `install`, on the row loaded afresh. -/
def finishInstall (fresh : Row) (res : InstallResult) (now : ℕ) : Row :=
  match res with
  | .ok code =>
      if code = 0 then setStatus { fresh with installedAt := some now } .stopped
      else setStatus fresh .installFailed
        (some ("The install script exited with code ".toList ++ (toString code).toList))
  | .error err => setStatus fresh .installFailed (some err)

/-! ## What the changes come to -/

variable {row before after : Row} {state : InstanceState} {now : ℕ}

theorem status_save : (row.save before after).status =
    if after.status = before.status then row.status else after.status := rfl

theorem applyState_status (h : ignores row state = false) :
    (applyState row state now).status = ofState state.state := by
  rw [applyState, if_neg (by simp [h])]

theorem status_finishInstall {res : InstallResult} (h : res.Failed) :
    (finishInstall row res now).status = .installFailed := by
  unfold finishInstall
  match res with
  | .ok code =>
    have hcode : code ≠ 0 := fun hc => h (by rw [hc])
    simp [hcode, setStatus]
  | .error err => rfl

/-! Only the end of an install records one as failed: what another handler leaves with that status it
has not changed. -/

theorem applyState_installFailed (h : (applyState row state now).status = .installFailed) :
    applyState row state now = row := by
  unfold applyState at h ⊢
  split at h
  case isTrue hignored => rw [if_pos hignored]
  case isFalse => exact absurd h (ofState_ne_installFailed _)

theorem reconcileRow_installFailed {st : Option InstanceState}
    (h : (reconcileRow row st now).status = .installFailed) : reconcileRow row st now = row := by
  match st with
  | some st => exact applyState_installFailed h
  | none =>
    unfold reconcileRow at h ⊢
    grind

theorem markUnknownRow_installFailed (h : (markUnknownRow row).status = .installFailed) :
    markUnknownRow row = row := by
  unfold markUnknownRow at h ⊢
  grind

/-! `installing` comes from a row that says so or from the agent. -/

theorem ofState_eq_installing {s : AgentState} (h : ofState s = .installing) : s = .installing := by
  cases s <;> simp_all [ofState]

theorem applyState_installing (h : (applyState row state now).status = .installing) :
    row.status = .installing ∨ state.state = .installing := by
  by_cases hignored : ignores row state = true
  · rw [applyState, if_pos hignored] at h
    exact .inl h
  · rw [applyState_status (by simpa using hignored)] at h
    exact .inr (ofState_eq_installing h)

theorem reconcileRow_installing {st : Option InstanceState}
    (h : (reconcileRow row st now).status = .installing) :
    row.status = .installing ∨ ∃ state, st = some state ∧ state.state = .installing := by
  match st with
  | some state =>
    rcases applyState_installing h with h | h
    · exact .inl h
    · exact .inr ⟨state, rfl, h⟩
  | none =>
    unfold reconcileRow at h
    grind

theorem markUnknownRow_installing (h : (markUnknownRow row).status = .installing) :
    row.status = .installing := by
  unfold markUnknownRow at h
  grind

/-- What the node's list says of an instance leaves the status of the row. -/
def KeepsStatus (row : Row) : Option InstanceState → Prop
  | some state => ignores row state ∨ ofState state.state = row.status
  | none =>
      row.status = .installing ∨ row.status = .installFailed ∨ row.status = .stopped ∨
        (row.installedAt = none ∧ row.status ≠ .unknown)

theorem status_reconcileRow_iff {st : Option InstanceState} :
    (reconcileRow row st now).status = row.status ↔ KeepsStatus row st := by
  match st with
  | some st =>
    unfold reconcileRow applyState KeepsStatus
    by_cases hignored : ignores row st = true
    · simp [hignored]
    · simp [hignored]
  | none =>
    unfold reconcileRow KeepsStatus
    grind [Option.isSome_iff_ne_none]

end Server
