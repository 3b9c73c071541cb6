import Gsm.Machine.Exec
import Gsm.Machine.Handlers
import Gsm.Server.Rows

/-!
# One instance between agent and server

The agent holds the record of an instance, the server its row. State changes travel as `inst.status`
events, each written to the socket by a goroutine of its own; responses to `inst.install` and
`inst.list` travel on the same socket. The server starts a handler for each message as it arrives
and does not wait for it: a handler goes on in pieces, between which others run. A handler is given
here by what it waits for, and an action names the party and, by its position, the goroutine or the
handler that takes the next step.
-/

open GoStd Instances Machine Server

namespace Link

/-- What the agent sends. -/
inductive Message where
  | status (state : InstanceState)
  /-- the response to `inst.install` -/
  | installed (id : ℕ) (exitCode : ℤ)
  /-- the response to `inst.list`: what it says of this instance -/
  | listed (id : ℕ) (state : Option InstanceState)
  /-- the response to a request that has failed -/
  | failed (id : ℕ) (err : Str)

/-- A handler of the server, by what it waits for. -/
inductive Task where
  /-- `onState`, for `findOne` -/
  | onState (state : InstanceState)
  /-- `install`, for the agent's response -/
  | installing (id : ℕ)
  /-- `install`, for `get` after the response -/
  | finishing (res : InstallResult)
  /-- `reconcile`, for `findAll` -/
  | reconciling
  /-- `reconcile`, for the agent's list -/
  | listing (id : ℕ) (row : Row)
  /-- `markUnknown`, for `findAll` -/
  | markingUnknown
  /-- any of them, for `save` -/
  | saving (before after : Row)

/-- Agent, socket and server. -/
structure State where
  uuid : Str
  record : Record
  /-- the install marker is in the data directory -/
  marker : Bool
  /-- states whose goroutine has not written them yet -/
  sending : List InstanceState
  /-- the socket is open -/
  isOpen : Bool
  wire : List Message
  helloReceived : Bool
  row : Row
  tasks : List Task
  /-- the id of the server's next request -/
  nextId : ℕ

inductive Action where
  | op (o : Op)
  | mark (marker : Bool)
  /-- the `i`-th goroutine writes its event -/
  | send (i : ℕ)
  /-- a request's handler on the agent writes its response -/
  | reply (m : Message)
  /-- the oldest message arrives -/
  | deliver (now : ℕ)
  /-- the `i`-th handler gets the row it waits for -/
  | load (i : ℕ) (now : ℕ)
  /-- the `i`-th handler's `save` is done -/
  | save (i : ℕ)
  /-- `onOpen` -/
  | connect
  /-- the agent's hello is accepted -/
  | hello
  /-- `onClose`; `changed` says whether the node was not marked offline already -/
  | disconnect (changed : Bool)
  | timeout (id : ℕ) (timeoutMs : ℕ)

/-- A handler that has changed its copy saves it; with nothing changed it is done. -/
def settle (before after : Row) : List Task :=
  if after = before then [] else [.saving before after]

/-- A handler whose request has failed: `install` records it, `reconcile` gives up. -/
def Task.abort (err : Str) : Task → List Task
  | .installing _ => [.finishing (.error err)]
  | .listing _ _ => []
  | task => [task]

/-- The request a handler waits for. -/
def Task.request? : Task → Option ℕ
  | .installing id => some id
  | .listing id _ => some id
  | _ => none

/-- A handler, when a response arrives. -/
def Task.answer (m : Message) (now : ℕ) (task : Task) : List Task :=
  match m, task with
  | .installed id exitCode, .installing id' =>
      if id = id' then [.finishing (.ok exitCode)] else [task]
  | .listed id state, .listing id' row =>
      if id = id' then settle row (reconcileRow row state now) else [task]
  | .failed id err, task => if task.request? = some id then task.abort err else [task]
  | _, _ => [task]

/-- `onMessage`, up to where its handler first waits. -/
def receive (s : State) (m : Message) (now : ℕ) : List Task :=
  match m with
  | .status state => if s.helloReceived then s.tasks ++ [.onState state] else s.tasks
  | m => s.tasks.flatMap (Task.answer m now)

/-- What a handler that has loaded the row goes on with. -/
def loaded (s : State) (now : ℕ) : Task → Option (List Task)
  | .onState state => some (settle s.row (applyState s.row state now))
  | .finishing res => some (settle s.row (finishInstall s.row res now))
  | .reconciling => some (if s.helloReceived then [.listing s.nextId s.row] else [])
  | .markingUnknown => some (settle s.row (markUnknownRow s.row))
  | _ => none

def step (s : State) : Action → Option State
  | .op o =>
      let (record, sent) := s.record.apply o
      some { s with
        record := record
        sending :=
          if sent then s.sending ++ [record.stateLocked s.uuid s.marker] else s.sending }
  | .mark marker => some { s with marker := marker }
  | .send i =>
      match s.sending[i]? with
      | none => none
      | some state =>
          some { s with
            sending := replaceAt s.sending i []
            wire := if s.isOpen then s.wire ++ [.status state] else s.wire }
  | .reply m =>
      match m with
      | .status _ => none
      | m => some { s with wire := if s.isOpen then s.wire ++ [m] else s.wire }
  | .deliver now =>
      match s.wire with
      | [] => none
      | m :: wire => some { s with wire := wire, tasks := receive s m now }
  | .load i now =>
      match s.tasks[i]? with
      | none => none
      | some task =>
          match loaded s now task with
          | none => none
          | some new =>
              some { s with tasks := replaceAt s.tasks i new, nextId := s.nextId + 1 }
  | .save i =>
      match s.tasks[i]? with
      | some (.saving before after) =>
          some { s with row := s.row.save before after, tasks := replaceAt s.tasks i [] }
      | _ => none
  | .connect =>
      some { s with
        isOpen := true
        wire := []
        helloReceived := false
        tasks := s.tasks.flatMap (Task.abort "replaced by a new connection".toList) }
  | .hello =>
      if s.isOpen then some { s with helloReceived := true, tasks := s.tasks ++ [.reconciling] }
      else none
  | .disconnect changed =>
      some { s with
        isOpen := false
        wire := []
        helloReceived := false
        tasks :=
          s.tasks.flatMap (Task.abort "connection closed".toList) ++
            if changed then [.markingUnknown] else [] }
  | .timeout id timeoutMs =>
      let err := "inst.install timed out after ".toList ++ (toString timeoutMs).toList ++ "ms".toList
      some { s with
        tasks := s.tasks.flatMap fun task =>
          if task.request? = some id then task.abort err else [task] }

/-! ## What a step needs and does -/

variable {s s' : State} {i now : ℕ}

theorem step_send_eq_some (h : step s (.send i) = some s') :
    ∃ state, s.sending[i]? = some state ∧ s' = { s with
      sending := replaceAt s.sending i []
      wire := if s.isOpen then s.wire ++ [.status state] else s.wire } := by
  unfold step at h
  dsimp only at h
  split at h
  case h_1 => cases h
  case h_2 state hstate => exact ⟨state, hstate, by simpa using h.symm⟩

theorem step_reply_eq_some {m : Message} (h : step s (.reply m) = some s') :
    s' = { s with wire := if s.isOpen then s.wire ++ [m] else s.wire } := by
  cases m with
  | status state => cases h
  | _ => simpa [step] using h.symm

theorem step_deliver_eq_some (h : step s (.deliver now) = some s') :
    ∃ m wire, s.wire = m :: wire ∧ s' = { s with wire := wire, tasks := receive s m now } := by
  unfold step at h
  dsimp only at h
  split at h
  case h_1 => cases h
  case h_2 m wire hwire => exact ⟨m, wire, hwire, by simpa using h.symm⟩

theorem step_load_eq_some (h : step s (.load i now) = some s') :
    ∃ task new, s.tasks[i]? = some task ∧ loaded s now task = some new ∧
      s' = { s with tasks := replaceAt s.tasks i new, nextId := s.nextId + 1 } := by
  unfold step at h
  dsimp only at h
  split at h
  case h_1 => cases h
  case h_2 task htask =>
    split at h
    case h_1 => cases h
    case h_2 new hnew => exact ⟨task, new, htask, hnew, by simpa using h.symm⟩

theorem step_save_eq_some (h : step s (.save i) = some s') :
    ∃ before after, s.tasks[i]? = some (.saving before after) ∧
      s' = { s with row := s.row.save before after, tasks := replaceAt s.tasks i [] } := by
  unfold step at h
  dsimp only at h
  split at h
  case h_1 before after htask => exact ⟨before, after, htask, by simpa using h.symm⟩
  case h_2 => cases h

end Link
