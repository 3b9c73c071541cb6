import Gsm.Link.System

/-!
# The row's status follows the agent

Events only: the socket stays up, and no handler but `onState` writes the row. Where the sending
goroutines and the handlers keep the order of the events, the row ends with the agent's state. That
rests on `latest`, the status the row has once everything on the way is handled: no step changes it
but a new state of the agent. Nothing in the program keeps that order.
-/

open GoStd Instances Server Machine

namespace Link

variable {s s' : State} {a : Action} {as : List Action}

/-- The step keeps the order of the events and applies them: the goroutines write in the order in
which they were started, no event arrives while the handler of another is under way, and the state a
handler is about to apply is not one that `applyState` ignores. -/
def InOrder (s : State) : Action → Prop
  | .send i => i = 0
  | .deliver _ => s.tasks = []
  | .load i _ => ∀ state, s.tasks[i]? = some (.onState state) → ignores s.row state = false
  | _ => True

/-- Every event was delivered and its handler is done. -/
structure Settled (s : State) : Prop where
  sending : s.sending = []
  wire : s.wire = []
  tasks : s.tasks = []

/-- The socket is open, the agent's hello was accepted. -/
structure Connected (s : State) : Prop where
  isOpen : s.isOpen = true
  helloReceived : s.helloReceived = true

/-- The status a handler gives the row. -/
def Task.shows : Task → Option Status
  | .onState state => some (ofState state.state)
  | .saving _ after => some after.status
  | _ => none

def Message.shows : Message → Option Status
  | .status state => some (ofState state.state)
  | _ => none

/-- The statuses on their way to the row, the latest last. -/
def coming (s : State) : List Status :=
  s.tasks.filterMap Task.shows ++ s.wire.filterMap Message.shows ++
    s.sending.map fun state => ofState state.state

section
attribute [local simp] Link.coming
end

/-- The status of the row once all of them have arrived. -/
def latest (s : State) : Status := (coming s).getLastD s.row.status

section
attribute [local simp] Link.latest
end

end Link
