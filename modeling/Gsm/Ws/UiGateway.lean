import Gsm.Machine.Tasks
import Mathlib.Logic.Function.Basic

/-!
# UI sockets and revoked access

One user's UI sockets and the changes to what the user may see, taken apart at their awaits. A
connection computes its scope from several queries and registers its socket when it opens; a change
closes the sockets that are registered. A socket whose scope was computed before the change and which
opens after it keeps what the change took away.
-/

open Machine

namespace Ws

/-- `Role` -/
inductive Role where
  | user
  | admin
deriving DecidableEq

/-- `InstanceRole` -/
inductive InstanceRole where
  | viewer
  | operator
  | owner
deriving DecidableEq

/-- The instances a user may see, with the role on each; none for admins. -/
abbrev InstanceScope := Option (ℕ → Option InstanceRole)

/-- The nodes a user owns; none for admins. -/
abbrev NodeScope := Option (List ℕ)

def inScope (scope : InstanceScope) (i : ℕ) : Bool :=
  scope.all fun roles => (roles i).isSome

def inNodeScope (scope : NodeScope) (n : ℕ) : Bool :=
  scope.all (n ∈ ·)

/-- An event, by what `visibleTo` asks of it. -/
inductive UiEvent where
  /-- `instance.console` -/
  | console (instanceId : ℕ)
  /-- the others with an `instanceId` -/
  | ofInstance (instanceId : ℕ)
  /-- those with a `nodeId` -/
  | ofNode (nodeId : ℕ)
  /-- `template.updated` -/
  | template
  | other

def UiEvent.instanceId : UiEvent → Option ℕ
  | .console i => some i
  | .ofInstance i => some i
  | _ => none

structure UiClient where
  id : ℕ
  admin : Bool
  scope : InstanceScope
  nodes : NodeScope
  consoles : List ℕ
  /-- `close` has not been called -/
  isOpen : Bool

def visibleTo (c : UiClient) : UiEvent → Bool
  | .console i => inScope c.scope i && i ∈ c.consoles
  | .ofInstance i => inScope c.scope i
  | .ofNode n => inNodeScope c.nodes n
  | .template => c.admin
  | .other => true

/-- One user's rows and sockets. -/
structure Panel where
  role : Role
  /-- `InstanceUser` -/
  grants : ℕ → Option InstanceRole
  /-- `NodeUser` -/
  nodes : List ℕ
  /-- the instances, each with its node -/
  instances : List (ℕ × ℕ)
  clients : List UiClient
  nextClient : ℕ
  /-- what a change whose revocation has returned took away, and the user has not got back -/
  lost : List ℕ

/-- A connection or a change, by what it waits for. -/
inductive UiTask where
  /-- `resolveSession` -/
  | resolving
  /-- the two queries of `scopeForUser`, with the answers there are -/
  | scoping (grants : Option (ℕ → Option InstanceRole)) (nodes : Option (List ℕ))
  /-- `Instance.findAll`, after them -/
  | owned (grants : ℕ → Option InstanceRole) (nodes : List ℕ)
  /-- `nodeScopeForUser` -/
  | nodeScoping (roles : ℕ → Option InstanceRole)
  /-- `onOpen` -/
  | opening (admin : Bool) (scope : InstanceScope) (nodes : NodeScope)
  /-- `InstanceUser.findOrCreate` of `grant` -/
  | granting (i : ℕ) (role : InstanceRole)
  /-- `row.save`, after it -/
  | regranting (i : ℕ) (role : InstanceRole)
  /-- `InstanceUser.destroy` of `revoke` -/
  | revoking (i : ℕ)
  /-- `get` of `users.update` -/
  | getting (role : Role)
  /-- `user.save`, after it -/
  | saving (role : Role)
  /-- `endSessions` and `adminReset`, after it -/
  | settling (gone : List ℕ)
  /-- `NodeUser.findOrCreate` of `nodes.grant` -/
  | owning (n : ℕ)
  /-- `NodeUser.destroy` of `nodes.revoke` -/
  | disowning (n : ℕ)

inductive UiRequest where
  | connect
  | sub (client i : ℕ)
  | unsub (client i : ℕ)
  | onClose (client : ℕ)
  | grant (i : ℕ) (role : InstanceRole)
  | revoke (i : ℕ)
  | setRole (role : Role)
  | grantNode (n : ℕ)
  | revokeNode (n : ℕ)

namespace Panel

/-- `ownsNode`, for the instance's node -/
def ownsNodeOf (instances : List (ℕ × ℕ)) (nodes : List ℕ) (i : ℕ) : Bool :=
  instances.any fun p => p.1 = i ∧ p.2 ∈ nodes

/-- `roleOn` gives a role. -/
def maySee (s : Panel) (i : ℕ) : Bool :=
  s.role = .admin ∨ (s.grants i).isSome ∨ ownsNodeOf s.instances s.nodes i

/-- `uiGateway.add` -/
def add (s : Panel) (admin : Bool) (scope : InstanceScope) (nodes : NodeScope) : Panel :=
  { s with
    clients := s.clients ++ [⟨s.nextClient, admin, scope, nodes, [], true⟩]
    nextClient := s.nextClient + 1 }

/-- A change of one socket. -/
def editClient (s : Panel) (id : ℕ) (f : UiClient → UiClient) : Panel :=
  { s with clients := s.clients.map fun c => if c.id = id then f c else c }

/-- `broadcast`: the open sockets that are sent the event -/
def recipients (s : Panel) (event : UiEvent) : List UiClient :=
  s.clients.filter fun c => c.isOpen ∧ visibleTo c event

/-- `reconnectUser` -/
def reconnectUser (s : Panel) : Panel :=
  { s with clients := s.clients.map fun c => { c with isOpen := false } }

/-- What the user could see before and cannot now. -/
def dropped (before now : Panel) : List ℕ :=
  (now.instances.map (·.1)).filter fun i => before.maySee i ∧ now.maySee i = false

/-- What was lost before, but for what the user has got back. -/
def stillLost (s : Panel) (gone : List ℕ) : List ℕ :=
  (s.lost ++ gone).filter fun i => s.maySee i = false

/-- The end of a change. -/
def revoked (s : Panel) (gone : List ℕ) : Panel :=
  { s.reconnectUser with lost := s.stillLost gone }

/-- A row of `InstanceUser` written or deleted. -/
def setGrant (s : Panel) (i : ℕ) (role : Option InstanceRole) : Panel :=
  { s with grants := Function.update s.grants i role }

/-- `scopeForUser` goes on when both queries are answered. -/
def bothLoaded : Option (ℕ → Option InstanceRole) → Option (List ℕ) → UiTask
  | some grants, some [] => .nodeScoping grants
  | some grants, some nodes => .owned grants nodes
  | grants, nodes => .scoping grants nodes

/-- The map of `scopeForUser` -/
def scopeMap (instances : List (ℕ × ℕ)) (grants : ℕ → Option InstanceRole) (nodes : List ℕ)
    (i : ℕ) : Option InstanceRole :=
  if ownsNodeOf instances nodes i then some .owner else grants i

def arrive (s : Panel) : UiRequest → Panel × List UiTask
  | .connect => (s, [.resolving])
  | .sub client i => (s.editClient client fun c =>
      if inScope c.scope i then { c with consoles := i :: c.consoles } else c, [])
  | .unsub client i => (s.editClient client fun c =>
      { c with consoles := c.consoles.filter (· ≠ i) }, [])
  | .onClose client => ({ s with clients := s.clients.filter (·.id ≠ client) }, [])
  | .grant i role => (s, [.granting i role])
  | .revoke i => (s, [.revoking i])
  | .setRole role => (s, [.getting role])
  | .grantNode n => (s, [.owning n])
  | .revokeNode n => (s, [.disowning n])

/-- The answer tells which of two queries it is for, that the change is refused, or that more awaits
follow. -/
def resume (s : Panel) (x : Bool) : UiTask → Panel × List UiTask
  | .resolving =>
      (s, [match s.role with
        | .admin => .opening true none none
        | .user => .scoping none none])
  | .scoping grants nodes =>
      (s, [if x then bothLoaded (some (grants.getD s.grants)) nodes
        else bothLoaded grants (some (nodes.getD s.nodes))])
  | .owned grants nodes => (s, [.nodeScoping (scopeMap s.instances grants nodes)])
  | .nodeScoping roles => (s, [.opening false (some roles) (some s.nodes)])
  -- the socket keeps the scope that was computed
  | .opening admin scope nodes => (s.add admin scope nodes, [])
  | .granting i role =>
      match s.grants i with
      | none => ((s.setGrant i (some role)).revoked [], [])
      | some old => if old = role then (s.revoked [], []) else (s, [.regranting i role])
  | .regranting i role => ((s.setGrant i ((s.grants i).map fun _ => role)).revoked [], [])
  | .revoking i =>
      -- the sockets are closed as soon as the row is gone
      if (s.grants i).isSome then
        ((s.setGrant i none).revoked (s.dropped (s.setGrant i none)), [])
      else (s, [])
  | .getting role => (s, if x ∨ role = s.role then [] else [.saving role])
  | .saving role =>
      let now := { s with role := role }
      if x then ({ now with lost := now.stillLost [] }, [.settling (s.dropped now)])
      else (now.revoked (s.dropped now), [])
  | .settling gone => (s.revoked gone, [])
  | .owning n =>
      (revoked { s with nodes := if n ∈ s.nodes then s.nodes else s.nodes ++ [n] } [], [])
  | .disowning n =>
      let now := { s with nodes := s.nodes.filter (· ≠ n) }
      if n ∈ s.nodes then (now.revoked (s.dropped now), []) else (s, [])

end Panel

/-- The connections of one user, and the changes to the user's access. -/
def uiSockets : Service Panel UiTask UiRequest Bool where
  arrive := Panel.arrive
  resume := Panel.resume

/-- What a connection has loaded so far shows it the instance. -/
def UiTask.sees (instances : List (ℕ × ℕ)) (i : ℕ) : UiTask → Bool
  | .scoping grants nodes =>
      grants.any (fun g => (g i).isSome) ∨ nodes.any fun ns => Panel.ownsNodeOf instances ns i
  | .owned grants nodes => (grants i).isSome ∨ Panel.ownsNodeOf instances nodes i
  | .nodeScoping roles => (roles i).isSome
  | .opening _ scope _ => inScope scope i
  | _ => false

namespace Panel

/-- What the revocation of this task takes away. -/
def takes (s : Panel) (x : Bool) : UiTask → List ℕ
  | .revoking i => s.dropped (s.setGrant i none)
  | .saving role => if x then [] else s.dropped { s with role := role }
  | .settling gone => gone.filter fun i => s.maySee i = false
  | .disowning n => s.dropped { s with nodes := s.nodes.filter (· ≠ n) }
  | _ => []

/-- When a change closes the sockets, no connection under way has loaded what shows it an instance
that the change took away. -/
def Clear (s : Panel) (l : List UiTask) (x : Bool) (t : UiTask) : Prop :=
  ∀ i ∈ s.takes x t, ∀ t' ∈ l, t'.sees s.instances i = false

instance (s : Panel) (l : List UiTask) (x : Bool) (t : UiTask) : Decidable (s.Clear l x t) :=
  inferInstanceAs (Decidable (∀ i ∈ s.takes x t, ∀ t' ∈ l, t'.sees s.instances i = false))

/-- No change and no connection under way. -/
structure Start (s : Shared Panel UiTask) : Prop where
  lost : s.rows.lost = []
  tasks : s.tasks = []

/-- What was lost cannot be seen: not by the rows, by an open socket or by a connection. -/
structure Shut (s : Panel) (l : List UiTask) : Prop where
  rows : ∀ i ∈ s.lost, s.maySee i = false
  clients : ∀ i ∈ s.lost, ∀ c ∈ s.clients, c.isOpen = true → inScope c.scope i = false
  tasks : ∀ i ∈ s.lost, ∀ t ∈ l, t.sees s.instances i = false

variable {s s' : Panel} {l l' new : List UiTask} {t : UiTask} {x : Bool} {i n : ℕ}
  {s₀ s₁ : Shared Panel UiTask} {turns : List (Turn UiRequest Bool)}

/-! ## What is seen -/

theorem maySee_eq_false : s.maySee i = false ↔
    s.role ≠ .admin ∧ s.grants i = none ∧ ownsNodeOf s.instances s.nodes i = false := by
  simp [maySee]

theorem mem_dropped : i ∈ s.dropped s' ↔
    i ∈ s'.instances.map (·.1) ∧ s.maySee i = true ∧ s'.maySee i = false := by
  rw [dropped, List.mem_filter, decide_eq_true_eq]

theorem mem_stillLost {gone : List ℕ} :
    i ∈ s.stillLost gone ↔ (i ∈ s.lost ∨ i ∈ gone) ∧ s.maySee i = false := by
  rw [stillLost, List.mem_filter, List.mem_append, decide_eq_true_eq]

/-- What a change has taken away is counted as lost once its revocation has returned. -/
theorem lost_of_dropped (hi : i ∈ s'.instances.map (·.1)) (hbefore : s.maySee i = true)
    (hnow : s'.maySee i = false) : i ∈ (s'.revoked (s.dropped s')).lost :=
  mem_stillLost.mpr ⟨.inr (mem_dropped.mpr ⟨hi, hbefore, hnow⟩), hnow⟩

theorem inScope_scopeMap {instances : List (ℕ × ℕ)} {grants : ℕ → Option InstanceRole}
    {nodes : List ℕ} : (scopeMap instances grants nodes i).isSome =
      ((grants i).isSome || ownsNodeOf instances nodes i) := by
  unfold scopeMap
  split
  · next h => simp [h]
  · next h => simp [h]

/-- Both queries together show what they show. -/
theorem sees_bothLoaded {instances : List (ℕ × ℕ)} {grants : Option (ℕ → Option InstanceRole)}
    {nodes : Option (List ℕ)} : (bothLoaded grants nodes).sees instances i =
      (UiTask.scoping grants nodes).sees instances i := by
  unfold bothLoaded
  split
  · simp [UiTask.sees, ownsNodeOf]
  · simp [UiTask.sees]
  · rfl

theorem visibleTo_eq_false {c : UiClient} {event : UiEvent} (hevent : event.instanceId = some i)
    (h : inScope c.scope i = false) : visibleTo c event = false := by
  cases event with
  | console j =>
    cases hevent
    simp [visibleTo, h]
  | ofInstance j =>
    cases hevent
    exact h
  | ofNode n => cases hevent
  | template => cases hevent
  | other => cases hevent

/-! ## What a turn keeps shut -/

theorem Shut.perm (hl : l.Perm l') (h : s.Shut l) : s.Shut l' :=
  ⟨h.rows, h.clients, fun i hi t ht => h.tasks i hi t (hl.mem_iff.mpr ht)⟩

theorem Shut.tail (h : s.Shut (t :: l)) : s.Shut l :=
  ⟨h.rows, h.clients, fun i hi t ht => h.tasks i hi t (List.mem_cons_of_mem _ ht)⟩

theorem Shut.cons (h : s.Shut l) (ht : ∀ i ∈ s.lost, t.sees s.instances i = false) :
    s.Shut (t :: l) := by
  refine ⟨h.rows, h.clients, fun i hi t' ht' => ?_⟩
  rcases List.mem_cons.mp ht' with rfl | ht'
  · exact ht i hi
  · exact h.tasks i hi t' ht'

/-- Sockets may be closed or change what they follow. -/
theorem Shut.edit {clients : List UiClient} (h : s.Shut l)
    (hclients : ∀ c ∈ clients, c.isOpen = true →
      ∃ row ∈ s.clients, row.isOpen = true ∧ row.scope = c.scope) :
    Shut { s with clients := clients } l := by
  refine ⟨h.rows, fun i hi c hc hopen => ?_, h.tasks⟩
  obtain ⟨row, hrow, hropen, hscope⟩ := hclients c hc hopen
  rw [← hscope]
  exact h.clients i hi row hrow hropen

theorem Shut.editClient {client : ℕ} {f : UiClient → UiClient} (h : s.Shut l)
    (hf : ∀ c, (f c).isOpen = c.isOpen ∧ (f c).scope = c.scope) :
    (s.editClient client f).Shut l := by
  refine h.edit fun c hc hopen => ?_
  obtain ⟨row, hrow, rfl⟩ := List.mem_map.mp hc
  refine ⟨row, hrow, ?_⟩
  split at hopen
  · rw [if_pos ‹_›]
    exact ⟨(hf row).1.symm.trans hopen, (hf row).2.symm⟩
  · rw [if_neg ‹_›]
    exact ⟨hopen, rfl⟩

/-- The rows may change, if what is still counted as lost cannot be seen then. -/
theorem Shut.change {role : Role} {grants : ℕ → Option InstanceRole} {nodes : List ℕ}
    (h : s.Shut l) : Shut { s with
      role := role
      grants := grants
      nodes := nodes
      lost := stillLost { s with role := role, grants := grants, nodes := nodes } [] } l := by
  have hlost : ∀ i ∈ stillLost { s with role := role, grants := grants, nodes := nodes } [],
      i ∈ s.lost ∧ maySee { s with role := role, grants := grants, nodes := nodes } i = false := by
    intro i hi
    obtain ⟨hmem | hmem, hsee⟩ := mem_stillLost.mp hi
    · exact ⟨hmem, hsee⟩
    · cases hmem
  refine ⟨fun i hi => (hlost i hi).2, fun i hi => ?_, fun i hi => ?_⟩
  · exact h.clients i (hlost i hi).1
  · exact h.tasks i (hlost i hi).1

/-- A change ends: no socket is open, and no connection has loaded what it took away. -/
theorem Shut.revoked {gone : List ℕ} (htasks : ∀ i ∈ s.lost, ∀ t ∈ l, t.sees s.instances i = false)
    (hgone : ∀ i ∈ gone, s.maySee i = false → ∀ t ∈ l, t.sees s.instances i = false) :
    (s.revoked gone).Shut l := by
  refine ⟨fun i hi => (mem_stillLost.mp hi).2, fun i _ c hc hopen => ?_, fun i hi => ?_⟩
  · obtain ⟨row, _, rfl⟩ := List.mem_map.mp hc
    cases hopen
  · obtain ⟨hi | hi, hsee⟩ := mem_stillLost.mp hi
    · exact htasks i hi
    · exact hgone i hi hsee

theorem shut_arrive {r : UiRequest} (h : s.Shut l) :
    (s.arrive r).1.Shut ((s.arrive r).2 ++ l) := by
  cases r with
  | connect => exact h.cons fun _ _ => rfl
  | sub client i =>
    refine h.editClient fun c => ?_
    split
    · exact ⟨rfl, rfl⟩
    · exact ⟨rfl, rfl⟩
  | unsub client i => exact h.editClient fun c => ⟨rfl, rfl⟩
  | onClose client =>
    exact h.edit fun c hc hopen => ⟨c, List.mem_of_mem_filter hc, hopen, rfl⟩
  | grant i role => exact h.cons fun _ _ => rfl
  | revoke i => exact h.cons fun _ _ => rfl
  | setRole role => exact h.cons fun _ _ => rfl
  | grantNode n => exact h.cons fun _ _ => rfl
  | revokeNode n => exact h.cons fun _ _ => rfl

/-- A query loads what the user may see at that moment. -/
theorem shut_scoping {grants : Option (ℕ → Option InstanceRole)} {nodes : Option (List ℕ)}
    (h : s.Shut (.scoping grants nodes :: l)) :
    (s.resume x (.scoping grants nodes)).1.Shut ((s.resume x (.scoping grants nodes)).2 ++ l) := by
  refine h.tail.cons fun i hi => ?_
  have hbefore := h.tasks i hi _ List.mem_cons_self
  obtain ⟨-, hgrant, hnode⟩ := maySee_eq_false.mp (h.rows i hi)
  simp only [UiTask.sees, decide_eq_false_iff_not, not_or] at hbefore
  split
  · rw [sees_bothLoaded]
    simp only [UiTask.sees, decide_eq_false_iff_not, not_or]
    refine ⟨?_, hbefore.2⟩
    cases grants with
    | none => simp [hgrant]
    | some g => simpa using hbefore.1
  · rw [sees_bothLoaded]
    simp only [UiTask.sees, decide_eq_false_iff_not, not_or]
    refine ⟨hbefore.1, ?_⟩
    cases nodes with
    | none => simp [hnode]
    | some ns => simpa using hbefore.2

theorem shut_resume (hclear : s.Clear l x t) (h : s.Shut (t :: l)) :
    (s.resume x t).1.Shut ((s.resume x t).2 ++ l) := by
  have hbefore : ∀ i ∈ s.lost, t.sees s.instances i = false :=
    fun i hi => h.tasks i hi t List.mem_cons_self
  cases t with
  | resolving =>
    refine h.tail.cons fun i hi => ?_
    obtain ⟨hrole, -, -⟩ := maySee_eq_false.mp (h.rows i hi)
    -- an admin's scope shows everything, but then nothing is lost
    split
    · next hadmin => exact absurd hadmin hrole
    · rfl
  | scoping grants nodes => exact shut_scoping h
  | owned grants nodes =>
    refine h.tail.cons fun i hi => ?_
    have hnone := hbefore i hi
    simp only [UiTask.sees, decide_eq_false_iff_not, not_or] at hnone
    simp only [UiTask.sees, inScope_scopeMap]
    simpa using hnone
  | nodeScoping roles =>
    refine h.tail.cons fun i hi => ?_
    simpa [UiTask.sees, inScope] using hbefore i hi
  | opening admin scope nodes =>
    -- the new socket sees what its connection saw
    refine ⟨h.rows, fun i hi c hc hopen => ?_, h.tail.tasks⟩
    rcases List.mem_append.mp hc with hc | hc
    · exact h.clients i hi c hc hopen
    · cases List.mem_singleton.mp hc
      exact hbefore i hi
  | granting i role =>
    rw [resume]
    split
    · exact Shut.revoked h.tail.tasks fun i hi => nomatch hi
    · split
      · exact Shut.revoked h.tail.tasks fun i hi => nomatch hi
      · exact h.tail.cons fun _ _ => rfl
  | regranting i role => exact Shut.revoked h.tail.tasks fun i hi => nomatch hi
  | revoking i =>
    rw [resume]
    split
    · exact Shut.revoked h.tail.tasks fun j hj _ => hclear j hj
    · exact h.tail
  | getting role =>
    rw [resume]
    split
    · exact h.tail
    · exact h.tail.cons fun _ _ => rfl
  | saving role =>
    rw [resume]
    split
    -- with more awaits to come, what was taken away is not lost yet
    · exact h.tail.change.cons fun _ _ => rfl
    · next hlast =>
      refine Shut.revoked h.tail.tasks fun j hj _ => hclear j ?_
      rw [takes, if_neg hlast]
      exact hj
  | settling gone =>
    refine Shut.revoked h.tail.tasks fun j hj hsee => hclear j ?_
    exact List.mem_filter.mpr ⟨hj, by simpa using hsee⟩
  | owning n => exact Shut.revoked h.tail.tasks fun i hi => nomatch hi
  | disowning n =>
    rw [resume]
    split
    · exact Shut.revoked h.tail.tasks fun j hj _ => hclear j hj
    · exact h.tail

theorem Start.shut (h : Start s₀) : s₀.rows.Shut s₀.tasks := by
  have hnone : ∀ i, i ∉ s₀.rows.lost := fun i hi => by
    rw [h.lost] at hi
    cases hi
  exact ⟨fun i hi => absurd hi (hnone i), fun i hi => absurd hi (hnone i),
    fun i hi => absurd hi (hnone i)⟩

/-- In every run whose steps meet the condition: no open socket is sent an event of an instance that
a change has taken from the user, once the revocation of that change has returned. -/
theorem lost_not_delivered (hstart : Start s₀) (hrun : exec uiSockets.step s₀ turns = some s₁)
    (hclear : Along uiSockets.step (Service.When Clear) s₀ turns) :
    ∀ i ∈ s₁.rows.lost, ∀ event, event.instanceId = some i → s₁.rows.recipients event = [] := by
  have h : s₁.rows.Shut s₁.tasks := by
    refine Service.run_invariant (P := Shut) ?_ ?_ ?_ hrun hclear hstart.shut
    · exact fun _ _ _ hl h => h.perm hl
    · exact fun _ _ _ h => shut_arrive h
    · exact fun _ _ _ _ hD h => shut_resume hD h
  intro i hi event hevent
  apply List.filter_eq_nil_iff.mpr
  rintro c hc hsent
  obtain ⟨hopen, hvisible⟩ := of_decide_eq_true hsent
  rw [visibleTo_eq_false hevent (h.clients i hi c hc hopen)] at hvisible
  cases hvisible

/-- A viewer of the first two instances, with no socket. -/
def viewer : Shared Panel UiTask where
  rows := {
    role := .user
    grants := fun i => if i = 1 ∨ i = 2 then some .viewer else none
    nodes := []
    instances := [(1, 5), (2, 5)]
    clients := []
    nextClient := 0
    lost := [] }
  tasks := []

theorem start_viewer : Start viewer := ⟨rfl, rfl⟩

/-- A connection whose scope has been computed, to be opened. -/
def connecting : List (Turn UiRequest Bool) :=
  [.request .connect, .answer 0 true, .answer 0 true, .answer 0 false, .answer 0 true]

/-- The first grant is revoked while a socket is open; the browser connects again. -/
def revokedOpen : List (Turn UiRequest Bool) :=
  connecting ++ [.answer 0 true, .request (.revoke 1), .answer 0 true, .request (.onClose 0)] ++
    connecting ++ [.answer 0 true]

theorem lost_not_delivered_revokedOpen :
    ∃ s, exec uiSockets.step viewer revokedOpen = some s ∧ s.rows.lost = [1] ∧
      (s.rows.recipients (.ofInstance 2)).length = 1 ∧ s.rows.recipients (.ofInstance 1) = [] := by
  have hrun : exec uiSockets.step viewer revokedOpen = some _ := rfl
  refine ⟨_, hrun, rfl, rfl, ?_⟩
  exact lost_not_delivered start_viewer hrun (by decide) 1 List.mem_cons_self (.ofInstance 1) rfl

/-- The first grant is revoked while a connection waits to open. -/
def revokedBetween : List (Turn UiRequest Bool) :=
  connecting ++ [.request (.revoke 1), .answer 1 true, .answer 0 true]

/-- The socket opens with the scope from before, and is sent the instance's events. -/
theorem lost_delivered :
    ∃ s, Start viewer ∧ exec uiSockets.step viewer revokedBetween = some s ∧ s.tasks = [] ∧
      s.rows.lost = [1] ∧ s.rows.maySee 1 = false ∧
      (s.rows.recipients (.ofInstance 1)).length = 1 :=
  ⟨_, start_viewer, rfl, rfl, rfl, rfl, rfl⟩

end Panel

end Ws
