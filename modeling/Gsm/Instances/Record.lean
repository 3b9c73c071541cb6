import Gsm.GoStd.Path

/-!
# The agent's record of an instance

What `internal/instances` keeps of an instance and the steps it takes on it, each in one section
under the instance's lock. A step that goes through `setStateLocked` also sends the state to the
server. What the steps do to containers, files and consoles is not part of the record.
-/

open GoStd

namespace Instances

/-- The states the agent reports. -/
inductive AgentState where
  | stopped
  | starting
  | running
  | stopping
  | crashed
  | installing
deriving DecidableEq

/-- The record of one instance, as far as its state depends on it. -/
structure Record where
  state : AgentState
  containerID : Option Str
  exitCode : Option ℤ
  errMsg : Option Str
  startedAt : Option ℕ
  stopRequested : Bool
  installing : Bool
deriving DecidableEq

/-- `get`, for an instance that is not known. -/
def Record.new : Record := ⟨.stopped, none, none, none, none, false, false⟩

/-- `protocol.InstanceState`: what goes over the wire. -/
structure InstanceState where
  uuid : Str
  state : AgentState
  containerId : Option Str
  startedAt : Option ℕ
  exitCode : Option ℤ
  installed : Bool
  error : Option Str
deriving DecidableEq

/-- A container is up, or about to be, or about to go. -/
def AgentState.isUp (s : AgentState) : Bool := s = .running ∨ s = .starting ∨ s = .stopping

/-- `stateLocked`; `installed` says whether the marker is there. -/
def Record.stateLocked (r : Record) (uuid : Str) (installed : Bool) : InstanceState where
  uuid := uuid
  state := r.state
  containerId := r.containerID
  startedAt := if r.state.isUp then r.startedAt else none
  exitCode := r.exitCode
  installed := installed
  error := r.errMsg

/-- One section under the lock. -/
inductive Op where
  /-- the beginning of `Install` -/
  | beginInstall
  /-- the function `finish` of `Install` -/
  | finishInstall (errMsg : Option Str)
  /-- the beginning of `startLocked` -/
  | beginStart
  /-- the function `fail` of `startLocked` -/
  | failStart (err : Str)
  | track (id : Str) (readyNow : Bool) (now : ℕ)
  /-- `pump`, at a line that matches the ready pattern -/
  | matchReady
  /-- `watch`, when the container has exited -/
  | exit (id : Str) (code : ℤ) (err : Option Str)
  /-- `stopGameLocked` -/
  | stop
deriving DecidableEq

/-- The record after a section, and whether the section has sent it. -/
def Record.apply (r : Record) : Op → Record × Bool
  | .beginInstall =>
      if r.state.isUp ∨ r.installing then (r, false)
      else ({ r with installing := true, errMsg := none, state := .installing }, true)
  | .finishInstall errMsg =>
      ({ r with installing := false, errMsg := errMsg <|> r.errMsg, state := .stopped }, true)
  | .beginStart =>
      if r.state.isUp ∨ r.state = .installing then (r, false)
      else ({ r with errMsg := none, exitCode := none, stopRequested := false }, false)
  | .failStart err => ({ r with errMsg := some err, state := .stopped }, true)
  | .track id readyNow now =>
      ({ r with
          containerID := some id
          startedAt := some now
          state := if readyNow then .running else .starting }, true)
  | .matchReady =>
      if r.state = .starting then ({ r with state := .running }, true) else (r, false)
  | .exit id code err =>
      if r.containerID ≠ some id then (r, false)
      else
        ({ r with
            containerID := none
            exitCode := some code
            errMsg := err <|> r.errMsg
            state := if r.stopRequested ∨ (code = 0 ∧ err = none) then .stopped else .crashed },
          true)
  | .stop =>
      if r.installing then (r, false)
      else if r.state = .crashed then ({ r with stopRequested := true, state := .stopped }, true)
      else if r.containerID = none ∨ ¬ r.state.isUp then (r, false)
      else ({ r with stopRequested := true, state := .stopping }, true)

-- the equations that later modules rewrite with, stated here once
attribute [local simp] Instances.Record.apply

end Instances
