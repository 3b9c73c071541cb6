import Mathlib.Data.List.Perm.Basic
import Mathlib.Logic.Function.Basic
import Gsm.Instances.Record
import Gsm.Machine.Exec

/-!
# Listing the instances

`Manager.List` takes Docker's list of containers, then the record of each instance on it, one by one
and each under its own lock, then the records of the instances it has not met yet. Between any two of
these the other goroutines move. A record that tracks no container is overruled by what the list says
of one. Here are a node during one call of it and what the call reports.
-/

open GoStd Machine

namespace Instances

/-- `docker.Managed`: a container with the instance label. -/
structure Managed where
  id : Str
  uuid : Str
  state : Str
deriving DecidableEq

/-- Docker's view of an instance, in the agent's words. -/
def Managed.view (c : Managed) : AgentState :=
  if c.state = "running".toList ∨ c.state = "restarting".toList then .running else .stopped

/-- How far a call of `List` is; `todo` is left of its loop. -/
inductive Listing where
  /-- it waits for Docker's list -/
  | asking
  | containers (todo : List Managed) (seen : List Str) (out : List InstanceState)
  | known (todo : List Str) (seen : List Str) (out : List InstanceState)
  | entries (todo : List Str) (seen : List Str) (out : List InstanceState)
  | done (out : List InstanceState)
  | failed

/-- What is reported so far. -/
def Listing.out : Listing → List InstanceState
  | .containers _ _ out => out
  | .known _ _ out => out
  | .entries _ _ out => out
  | .done out => out
  | _ => []

/-- A node during a call of `List`. -/
structure Node where
  /-- the keys of `m.insts` -/
  insts : List Str
  record : Str → Record
  /-- where the install marker is -/
  installed : Str → Bool
  /-- Docker's containers -/
  docker : List Managed
  /-- the names in the state directory -/
  stateDir : List Str
  list : Listing

inductive NodeAction where
  /-- a section of another goroutine, on one record -/
  | op (uuid : Str) (o : Op)
  | mark (uuid : Str) (marker : Bool)
  /-- containers come, go and change -/
  | docker (containers : List Managed)
  | persist (names : List Str)
  /-- `List` goes on; where it ranges over `m.insts`, the keys come in this order -/
  | list (order : List Str)
  /-- the call that `List` makes fails -/
  | listFails

attribute [local instance] lawfulBEq_str

/-- `get` -/
def Node.get (n : Node) (uuid : Str) : Node :=
  if uuid ∈ n.insts then n
  else { n with insts := n.insts ++ [uuid], record := Function.update n.record uuid Record.new }

def Node.stateLocked (n : Node) (uuid : Str) : InstanceState :=
  (n.record uuid).stateLocked uuid (n.installed uuid)

/-- What `List` says of an instance that has a container. -/
def Node.containerState (n : Node) (c : Managed) : InstanceState :=
  let st := n.stateLocked c.uuid
  if (n.record c.uuid).containerID = none then
    { st with containerId := some c.id, state := c.view }
  else st

/-- One round of the loop that `List` is in, or what stands before the loop. -/
def Node.goOn (n : Node) (order : List Str) : Option Node :=
  match n.list with
  | .asking => some { n with list := .containers n.docker [] [] }
  | .containers (c :: todo) seen out =>
      if c.uuid = [] then some { n with list := .containers todo seen out }
      else
        let n := n.get c.uuid
        some { n with list := .containers todo (c.uuid :: seen) (out ++ [n.containerState c]) }
  | .containers [] seen out =>
      if order.Perm n.insts then some { n with list := .known order seen out } else none
  | .known (uuid :: todo) seen out =>
      if uuid ∈ seen then some { n with list := .known todo seen out }
      else some { n with list := .known todo (uuid :: seen) (out ++ [n.stateLocked uuid]) }
  | .known [] seen out => some { n with list := .entries n.stateDir seen out }
  | .entries (entry :: todo) seen out =>
      let uuid := trimSuffix entry ".json".toList
      if uuid = entry ∨ uuid ∈ seen then some { n with list := .entries todo seen out }
      else
        let n := n.get uuid
        some { n with list := .entries todo seen (out ++ [n.stateLocked uuid]) }
  | .entries [] _ out => some { n with list := .done out }
  | .done _ => none
  | .failed => none

def Node.step (n : Node) : NodeAction → Option Node
  | .op uuid o =>
      let n := n.get uuid
      some { n with record := Function.update n.record uuid ((n.record uuid).apply o).1 }
  | .mark uuid marker => some { n with installed := Function.update n.installed uuid marker }
  | .docker containers => some { n with docker := containers }
  | .persist names => some { n with stateDir := names }
  | .list order => n.goOn order
  | .listFails =>
      match n.list with
      | .asking => some { n with list := .failed }
      | .known [] _ out => some { n with list := .done out }
      | _ => none

/-! ## What is reported -/

variable {n n' : Node} {a : NodeAction} {as : List NodeAction} {c : Managed} {st : InstanceState}

/-- When `List` takes the record of an instance that has a container, the record tracks a container,
or Docker's list agrees with it. -/
def Agrees (n : Node) : NodeAction → Prop
  | .list _ => ∀ c todo seen out, n.list = .containers (c :: todo) seen out →
      ((n.get c.uuid).record c.uuid).containerID ≠ none ∨
        c.view = ((n.get c.uuid).record c.uuid).state
  | _ => True

theorem state_containerState (h : (n.record c.uuid).containerID ≠ none ∨
    c.view = (n.record c.uuid).state) :
    (n.containerState c).state = (n.record c.uuid).state ∧ (n.containerState c).uuid = c.uuid := by
  unfold Node.containerState
  split
  case isTrue hnone => exact ⟨h.resolve_left (not_not.mpr hnone), rfl⟩
  case isFalse => exact ⟨rfl, rfl⟩

/-- A report of the state that a record has. -/
def Node.Shows (n : Node) (st : InstanceState) : Prop := (n.record st.uuid).state = st.state

instance : Decidable (n.Shows st) := inferInstanceAs (Decidable (_ = _))

theorem Node.get_list (n : Node) (uuid : Str) : (n.get uuid).list = n.list := by
  unfold Node.get
  split <;> rfl

/-- One round adds at most one report, and that one shows the record as it is then. -/
theorem goOn_out {order : List Str} (ha : Agrees n (.list order)) (hs : n.goOn order = some n')
    (hst : st ∈ n'.list.out) : st ∈ n.list.out ∨ n'.Shows st := by
  unfold Node.goOn at hs
  split at hs
  case h_1 =>
    cases hs
    simp [Listing.out] at hst
  case h_2 c todo seen out hlist =>
    split at hs
    case isTrue =>
      cases hs
      exact .inl (by rwa [hlist])
    case isFalse =>
      cases hs
      obtain ⟨hstate, huuid⟩ := state_containerState (ha c todo seen out hlist)
      obtain hold | hnew := List.mem_append.mp hst
      · exact .inl (by rwa [hlist])
      · obtain rfl := List.mem_singleton.mp hnew
        exact .inr (by rw [Node.Shows, huuid, hstate])
  case h_3 seen out hlist =>
    split at hs
    case isTrue =>
      cases hs
      exact .inl (by rwa [hlist])
    case isFalse => cases hs
  case h_4 uuid todo seen out hlist =>
    split at hs
    case isTrue =>
      cases hs
      exact .inl (by rwa [hlist])
    case isFalse =>
      cases hs
      obtain hold | hnew := List.mem_append.mp hst
      · exact .inl (by rwa [hlist])
      · obtain rfl := List.mem_singleton.mp hnew
        exact .inr rfl
  case h_5 seen out hlist =>
    cases hs
    exact .inl (by rwa [hlist])
  case h_6 entry todo seen out hlist =>
    dsimp only at hs
    split at hs
    case isTrue =>
      cases hs
      exact .inl (by rwa [hlist])
    case isFalse =>
      cases hs
      obtain hold | hnew := List.mem_append.mp hst
      · exact .inl (by rwa [hlist])
      · obtain rfl := List.mem_singleton.mp hnew
        exact .inr rfl
  case h_7 seen out hlist =>
    cases hs
    exact .inl (by rwa [hlist])
  case h_8 => cases hs
  case h_9 => cases hs

theorem step_out (ha : Agrees n a) (hs : n.step a = some n') (hst : st ∈ n'.list.out) :
    st ∈ n.list.out ∨ n'.Shows st := by
  cases a with
  | op uuid o =>
    cases hs
    exact .inl (by rwa [← n.get_list uuid])
  | mark uuid marker =>
    cases hs
    exact .inl hst
  | docker containers =>
    cases hs
    exact .inl hst
  | persist names =>
    cases hs
    exact .inl hst
  | list order => exact goOn_out ha hs hst
  | listFails =>
    rw [Node.step] at hs
    split at hs
    case h_1 =>
      cases hs
      simp [Listing.out] at hst
    case h_2 seen out hlist =>
      cases hs
      exact .inl (by rwa [hlist])
    case h_3 => cases hs

/-- What `List` reports of an instance is a state its record had during the call. -/
theorem list_reports_record {out : List InstanceState} (hstart : n.list = .asking)
    (hrun : exec Node.step n as = some n') (hC : Along Node.step Agrees n as)
    (hdone : n'.list = .done out) (hst : st ∈ out) :
    ∃ m ∈ past Node.step n as ++ [n'], m.Shows st := by
  have h := exec_history
    (P := fun before n => ∀ st ∈ n.list.out, ∃ m ∈ before ++ [n], m.Shows st)
    (fun before n a n' hC hs hP st hst => ?_) [] hrun hC (by simp [hstart, Listing.out])
  · simpa using h st (by rwa [hdone])
  · obtain hold | hnew := step_out hC hs hst
    · obtain ⟨m, hm, hshows⟩ := hP st hold
      exact ⟨m, List.mem_append_left _ hm, hshows⟩
    · exact ⟨n', by simp, hnew⟩

/-! ## An exit recorded in between -/

/-- A game that is starting, with its container; `List` is called. -/
def startingGame : Node where
  insts := ["game".toList]
  record := fun _ => { Record.new with state := .starting, containerID := some "c1".toList }
  installed := fun _ => true
  docker := [⟨"c1".toList, "game".toList, "running".toList⟩]
  stateDir := ["game.json".toList]
  list := .asking

/-- What `List` does on this node, one round after another. -/
def rounds : List NodeAction :=
  [.list ["game".toList], .list [], .list [], .list [], .list []]

theorem startingGame_agrees :
    Along Node.step Agrees startingGame (.list [] :: .list [] :: rounds) := by
  refine ⟨fun c todo seen out h => (by cases h), fun _ h => ?_⟩
  cases h
  refine ⟨fun c todo seen out h => ?_, fun _ h => ?_⟩
  · cases h
    exact .inl (by decide)
  cases h
  refine ⟨fun c todo seen out h => (by cases h), fun _ h => ?_⟩
  cases h
  refine ⟨fun c todo seen out h => (by cases h), fun _ h => ?_⟩
  cases h
  refine ⟨fun c todo seen out h => (by cases h), fun _ h => ?_⟩
  cases h
  refine ⟨fun c todo seen out h => (by cases h), fun _ h => ?_⟩
  cases h
  exact ⟨fun c todo seen out h => (by cases h), fun _ _ => trivial⟩

theorem list_reports_startingGame :
    ∃ n' out st, exec Node.step startingGame (.list [] :: .list [] :: rounds) = some n' ∧
      n'.list = .done out ∧ st ∈ out ∧
      ∃ m ∈ past Node.step startingGame (.list [] :: .list [] :: rounds) ++ [n'], m.Shows st :=
  ⟨_, _, _, rfl, rfl, List.mem_singleton_self _,
    list_reports_record rfl rfl startingGame_agrees rfl (List.mem_singleton_self _)⟩

/-- Docker's list has the container running; then the exit is recorded, then `List` looks at the
record. -/
theorem list_reports_exited_running :
    ∃ n as n' out st, n.list = .asking ∧ exec Node.step n as = some n' ∧ n'.list = .done out ∧
      st ∈ out ∧ st.state = .running ∧ (n'.record st.uuid).state = .crashed ∧
      ∀ m ∈ past Node.step n as ++ [n'], ¬ m.Shows st :=
  ⟨startingGame, .list [] :: .op "game".toList (.exit "c1".toList 1 none) :: .list [] :: rounds, _, _,
    _, rfl, rfl, rfl, List.mem_singleton_self _, rfl, rfl, by decide⟩

end Instances
