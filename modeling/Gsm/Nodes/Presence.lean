import Gsm.Machine.Tasks
import Gsm.Server.Rows

/-!
# The status of a node

What the server stores of one node and of its instances while connections of the agent come and go: `onOpen`,
`onClose` and the hello of `ws/agent-gateway.ts`, `onAgentHello` and `setStatus` of `modules/nodes/service.ts`,
`reconcile` and `markUnknown` of `modules/instances/supervisor.ts`. Each handler is taken apart at its awaits. The
node keeps its instances; what else a handler does (`configureAgent`, auto-start, telling browsers) is left out.
-/

open Machine Instances Server

namespace Nodes

/-- `NodeStatus` -/
inductive NodeStatus where
  | online
  | offline
deriving DecidableEq

structure Presence where
  status : NodeStatus
  /-- the node's instances -/
  ids : List ℕ
  instances : ℕ → Row
  /-- how many connections have been opened; each is known by the number before it -/
  opened : ℕ
  /-- `conns.get` -/
  conn : Option ℕ
  /-- the connections with `helloReceived` -/
  accepted : List ℕ
  /-- what the agent has reported on the current connection -/
  reported : List ℕ

/-- A handler, by what it waits for. -/
inductive PresenceTask where
  /-- `onOpen`, to be called -/
  | opening
  /-- `onAgentHello`, for `findByPk` -/
  | finding (c : ℕ)
  /-- `onAgentHello`, for `save`, with the status that was loaded -/
  | saving (c : ℕ) (loaded : NodeStatus)
  /-- `reconcile`, for `findAll` -/
  | reconciling
  /-- `reconcile`, for the list that is asked for on a connection -/
  | listing (c : ℕ) (rows : List (ℕ × Row))
  /-- `reconcile`, for the `save` of its next row -/
  | settling (todo : List (ℕ × Row × Option InstanceState))
  /-- `setStatus`, for `update` -/
  | leaving
  /-- `setStatus`, for `findByPk` -/
  | naming
  /-- `markUnknown`, for `findAll` -/
  | markingUnknown
  /-- `markUnknown`, for the `save` of its next row -/
  | marking (todo : List (ℕ × Row))
  /-- `onState`, for `findOne` -/
  | event (u : ℕ) (state : InstanceState)
  /-- `onState`, for `save` -/
  | applying (u : ℕ) (loaded : Row) (state : InstanceState)

inductive PresenceEvent where
  | open
  /-- a hello, of a protocol version that the server speaks or not -/
  | hello (c : ℕ) (supported : Bool)
  | status (c u : ℕ) (state : InstanceState)
  | close (c : ℕ)

/-- What a handler is answered: the agent's list, if that is what it waits for, and the time. -/
structure Reply where
  states : Option (ℕ → Option InstanceState)
  now : ℕ

namespace Presence

def snapshot (p : Presence) : List (ℕ × Row) := p.ids.map fun u => (u, p.instances u)

/-- A copy of a row is saved that was loaded as `before`. -/
def saveRow (p : Presence) (u : ℕ) (before after : Row) : Presence :=
  { p with instances := Function.update p.instances u ((p.instances u).save before after) }

def arrive (p : Presence) : PresenceEvent → Presence × List PresenceTask
  | .open => (p, [.opening])
  | .hello c supported => (p, if p.conn = some c ∧ supported then [.finding c] else [])
  | .status c u state =>
      if p.conn = some c ∧ c ∈ p.accepted ∧ u ∈ p.ids then
        ({ p with reported := u :: p.reported }, [.event u state])
      else (p, [])
  | .close c =>
      -- a newer connection may have taken over
      if p.conn = some c then ({ p with conn := none, reported := [] }, [.leaving]) else (p, [])

def resume (p : Presence) (x : Reply) : PresenceTask → Presence × List PresenceTask
  | .opening => ({ p with opened := p.opened + 1, conn := some p.opened, reported := [] }, [])
  | .finding c => (p, [.saving c p.status])
  | .saving c loaded =>
      -- only what has changed on the loaded copy is saved
      ({ p with
        status := if loaded = .online then p.status else .online
        accepted := c :: p.accepted }, [.reconciling])
  | .reconciling =>
      match p.conn with
      | none => (p, [])
      | some c => (p, if c ∈ p.accepted ∧ p.ids ≠ [] then [.listing c p.snapshot] else [])
  | .listing c rows =>
      match x.states with
      | none => (p, [])
      | some states =>
          -- the request is failed with its connection
          if p.conn = some c then
            ({ p with reported := (rows.map Prod.fst).filter (fun u => (states u).isSome) ++ p.reported },
              [.settling (rows.map fun r => (r.1, r.2, states r.1))])
          else (p, [])
  | .settling [] => (p, [])
  | .settling ((u, row, state) :: todo) =>
      (p.saveRow u row (reconcileRow row state x.now), [.settling todo])
  | .leaving => if p.status = .offline then (p, []) else ({ p with status := .offline }, [.naming])
  | .naming => (p, [.markingUnknown])
  | .markingUnknown => (p, [.marking p.snapshot])
  | .marking [] => (p, [])
  | .marking ((u, row) :: todo) => (p.saveRow u row (markUnknownRow row), [.marking todo])
  | .event u state => (p, [.applying u (p.instances u) state])
  | .applying u loaded state => (p.saveRow u loaded (applyState loaded state x.now), [])

/-- A connection whose hello was accepted is open. -/
def Connected (p : Presence) : Prop := ∃ c, p.conn = some c ∧ c ∈ p.accepted

/-- The node is stored as online exactly if it is connected, and then what it has reported is known. -/
structure Settled (p : Presence) : Prop where
  online_iff : p.status = .online ↔ p.Connected
  known : p.Connected → ∀ u ∈ p.reported, (p.instances u).status ≠ .unknown

end Presence

/-- A step of what follows the close of a connection -/
def PresenceTask.Closing : PresenceTask → Prop
  | .leaving | .naming | .markingUnknown | .marking _ => True
  | _ => False

namespace Presence

/-- A hello looks at the node when no close is being handled, and is saved while its connection is the current one.
A connection whose hello was accepted is not replaced. -/
def Orderly (p : Presence) (l : List PresenceTask) (_ : Reply) : PresenceTask → Prop
  | .opening => ¬ p.Connected
  | .finding _ => ∀ t ∈ l, ¬ t.Closing
  | .saving c _ => p.conn = some c
  | _ => True

instance (p : Presence) : Decidable p.Connected :=
  decidable_of_iff (∃ c ∈ p.conn, c ∈ p.accepted) Iff.rfl

instance : (t : PresenceTask) → Decidable t.Closing
  | .leaving | .naming | .markingUnknown | .marking _ => .isTrue trivial
  | .opening | .finding _ | .saving _ _ | .reconciling | .listing _ _ | .settling _ | .event _ _ | .applying _ _ _ =>
      .isFalse id

instance (p : Presence) (l : List PresenceTask) (x : Reply) (t : PresenceTask) : Decidable (p.Orderly l x t) := by
  unfold Orderly
  split <;> infer_instance

/-- No connection yet -/
structure Start (s : Shared Presence PresenceTask) : Prop where
  status : s.rows.status = .offline
  conn : s.rows.conn = none
  accepted : s.rows.accepted = []
  reported : s.rows.reported = []
  tasks : s.tasks = []

/-! ## Rows that are unknown -/

variable {p : Presence} {l l' new : List PresenceTask} {t : PresenceTask} {x : Reply} {u : ℕ} {row : Row}
  {state : InstanceState} {now : ℕ}

theorem ofState_ne_unknown (s : AgentState) : ofState s ≠ .unknown := by
  cases s <;> exact nofun

theorem applyState_known (h : row.status = .unknown) (state : InstanceState) (now : ℕ) :
    (applyState row state now).status ≠ .unknown := by
  have hignores : ignores row state = false := by simp [ignores, h]
  rw [applyState_status hignores]
  exact ofState_ne_unknown _

/-- Only `markUnknown` makes a row unknown. -/
theorem reconcileRow_unknown (st : Option InstanceState) (h : (reconcileRow row st now).status = .unknown) :
    (reconcileRow row st now).status = row.status := by
  rcases st with _ | st
  · unfold reconcileRow at h ⊢
    grind
  · have hignored : ignores row st = true := by
      by_contra hne
      have happly : (reconcileRow row (some st) now).status = ofState st.state :=
        applyState_status (Bool.eq_false_iff.mpr hne)
      exact ofState_ne_unknown _ (happly.symm.trans h)
    rw [reconcileRow, applyState, if_pos hignored]

theorem instances_saveRow_ne {v : ℕ} {before after : Row} (h : v ≠ u) :
    (p.saveRow u before after).instances v = p.instances v := Function.update_of_ne h _ _

theorem status_saveRow_self {before after : Row} : ((p.saveRow u before after).instances u).status =
    if after.status = before.status then (p.instances u).status else after.status := by
  have hrow : (p.saveRow u before after).instances u = (p.instances u).save before after :=
    Function.update_self u _ p.instances
  rw [hrow, status_save]

/-- A save that does not make its row unknown leaves the others and its own known. -/
theorem known_saveRow {before after : Row} (hafter : after.status = .unknown → after.status = before.status) {v : ℕ}
    (h : (p.instances v).status ≠ .unknown) : ((p.saveRow u before after).instances v).status ≠ .unknown := by
  rcases eq_or_ne v u with rfl | hne
  · rw [status_saveRow_self]
    split
    · exact h
    · next hchanged => exact fun hunknown => hchanged (hafter hunknown)
  · rwa [instances_saveRow_ne hne]

/-- A save of a copy that was unknown and is known makes the row known. -/
theorem mended_saveRow {before after : Row} (hbefore : before.status = .unknown) (hafter : after.status ≠ .unknown) :
    ((p.saveRow u before after).instances u).status ≠ .unknown := by
  rw [status_saveRow_self, if_neg fun h => hafter (h.trans hbefore)]
  exact hafter

/-- The task will make the instance known. -/
def Mends (u : ℕ) : PresenceTask → Prop
  | .event v _ => v = u
  | .applying v loaded _ => v = u ∧ loaded.status = .unknown
  | .settling todo => ∃ row st, (u, row, some st) ∈ todo ∧ row.status = .unknown
  | _ => False

/-- The instance is known, or will be. -/
def Shown (p : Presence) (l : List PresenceTask) (u : ℕ) : Prop :=
  (p.instances u).status ≠ .unknown ∨ ∃ t ∈ l, Mends u t

theorem Shown.congr {p' : Presence} (h : p.Shown l u) (hinstances : p'.instances = p.instances)
    (hmends : ∀ t ∈ l, Mends u t → ∃ t' ∈ l', Mends u t') : p'.Shown l' u := by
  rcases h with hknown | ⟨t, ht, hmend⟩
  · exact .inl (by rwa [hinstances])
  · exact .inr (hmends t ht hmend)

/-- What a task has done to make an instance known is not undone, and what it leaves to do is still to be done. -/
theorem Shown.goOn {p' : Presence} (h : p.Shown (t :: l) u)
    (hknown : (p.instances u).status ≠ .unknown → (p'.instances u).status ≠ .unknown)
    (hmends : Mends u t → p'.Shown new u) : p'.Shown (new ++ l) u := by
  rcases h with h | ⟨t', ht', hmend⟩
  · exact .inl (hknown h)
  rcases List.mem_cons.mp ht' with rfl | hmem
  · rcases hmends hmend with h | ⟨t, ht, hmend⟩
    · exact .inl h
    · exact .inr ⟨t, List.mem_append_left l ht, hmend⟩
  · exact .inr ⟨t', List.mem_append_right new hmem, hmend⟩

/-! ## One step -/

/-- What holds in an orderly run. While the node is connected no close is being handled. -/
structure Kept (p : Presence) (l : List PresenceTask) : Prop where
  accepted_lt : ∀ c ∈ p.accepted, c < p.opened
  conn_lt : ∀ c, p.conn = some c → c < p.opened
  finding_lt : ∀ c, .finding c ∈ l → c < p.opened
  saving_lt : ∀ c loaded, .saving c loaded ∈ l → c < p.opened
  listing : ∀ c rows, .listing c rows ∈ l → c ∈ p.accepted
  calm : p.Connected → ∀ t ∈ l, ¬ t.Closing
  saving : ∀ c loaded, .saving c loaded ∈ l → p.conn = some c →
    (∀ t ∈ l, ¬ t.Closing) ∧ (loaded = .online → p.status = .online)
  online : p.Connected → p.status = .online
  offline : p.status = .online → p.Connected ∨ .leaving ∈ l
  listed : ∀ c rows, .listing c rows ∈ l → p.conn = some c → ∀ r ∈ rows, r.2.status ≠ .unknown →
    (p.instances r.1).status ≠ .unknown
  unreported : ¬ p.Connected → p.reported = []
  shown : ∀ u ∈ p.reported, p.Shown l u

theorem Kept.perm (hl : l.Perm l') (h : p.Kept l) : p.Kept l' := by
  have hmem {t : PresenceTask} : t ∈ l' → t ∈ l := fun ht => hl.mem_iff.mpr ht
  refine ⟨h.accepted_lt, h.conn_lt, fun c hc => h.finding_lt c (hmem hc),
    fun c loaded hc => h.saving_lt c loaded (hmem hc), fun c rows hc => h.listing c rows (hmem hc),
    fun hconn t ht => h.calm hconn t (hmem ht), fun c loaded hc hconn => ?_, h.online, fun hstatus => ?_,
    fun c rows hc => h.listed c rows (hmem hc), h.unreported, fun u hu => ?_⟩
  · obtain ⟨hcalm, hloaded⟩ := h.saving c loaded (hmem hc) hconn
    exact ⟨fun t ht => hcalm t (hmem ht), hloaded⟩
  · exact (h.offline hstatus).imp_right hl.mem_iff.mp
  · exact (h.shown u hu).congr rfl fun t ht hmend => ⟨t, hl.mem_iff.mp ht, hmend⟩

/-- The task is neither of a hello nor of a close at its write. -/
def Plain : PresenceTask → Prop
  | .finding _ | .saving _ _ | .listing _ _ | .leaving => False
  | _ => True

/-- A task goes on that changes rows only, with what it has loaded. -/
theorem Kept.goOn {instances : ℕ → Row} (h : p.Kept (t :: l)) (hplain : ∀ t' ∈ new, Plain t')
    (hclosing : ∀ t' ∈ new, t'.Closing → t.Closing) (hleaving : t = .leaving → p.status = .offline)
    (hknown : ¬ t.Closing → ∀ u, (p.instances u).status ≠ .unknown → (instances u).status ≠ .unknown)
    (hmends : ∀ u, Mends u t → Shown { p with instances := instances } new u) :
    Kept { p with instances := instances } (new ++ l) := by
  have hold {t' : PresenceTask} (hnot : ¬ Plain t') (ht' : t' ∈ new ++ l) : t' ∈ t :: l := by
    rcases List.mem_append.mp ht' with hnew | hmem
    · exact absurd (hplain t' hnew) hnot
    · exact List.mem_cons_of_mem t hmem
  have hcalm (hall : ∀ t' ∈ t :: l, ¬ t'.Closing) : ∀ t' ∈ new ++ l, ¬ t'.Closing := by
    intro t' ht' hc
    rcases List.mem_append.mp ht' with hnew | hmem
    · exact hall t List.mem_cons_self (hclosing t' hnew hc)
    · exact hall t' (List.mem_cons_of_mem t hmem) hc
  have hconnected {c : ℕ} {rows : List (ℕ × Row)} (hc : .listing c rows ∈ t :: l) (hconn : p.conn = some c) :
      p.Connected := ⟨c, hconn, h.listing c rows hc⟩
  have hquiet (hconn : p.Connected) : ¬ t.Closing := h.calm hconn t List.mem_cons_self
  refine ⟨h.accepted_lt, h.conn_lt, fun c hc => h.finding_lt c (hold id hc),
    fun c loaded hc => h.saving_lt c loaded (hold id hc), fun c rows hc => h.listing c rows (hold id hc),
    fun hconn => hcalm (h.calm hconn), fun c loaded hc hconn => ?_, h.online, fun hstatus => ?_,
    fun c rows hc hconn r hr hloaded => ?_, h.unreported, fun u hu => ?_⟩
  · obtain ⟨hall, hloaded⟩ := h.saving c loaded (hold id hc) hconn
    exact ⟨hcalm hall, hloaded⟩
  · rcases h.offline hstatus with hconn | hleaves
    · exact .inl hconn
    · rcases List.mem_cons.mp hleaves with heq | hmem
      · exact nomatch hstatus.symm.trans (hleaving heq.symm)
      · exact .inr (List.mem_append_right new hmem)
  · have hmem := hold id hc
    exact hknown (hquiet (hconnected hmem hconn)) r.1 (h.listed c rows hmem hconn r hr hloaded)
  · by_cases hconn : p.Connected
    · exact (h.shown u hu).goOn (hknown (hquiet hconn) u) (hmends u)
    · rw [show p.reported = [] from h.unreported hconn] at hu
      exact absurd hu List.not_mem_nil

/-- A task that ends with nothing changed -/
theorem Kept.tail (h : p.Kept (t :: l)) (hleaving : t = .leaving → p.status = .offline) (hmends : ∀ u, ¬ Mends u t) :
    p.Kept l := by
  have hrest : Kept { p with instances := p.instances } ([] ++ l) :=
    h.goOn (fun t' ht' => absurd ht' List.not_mem_nil) (fun t' ht' => absurd ht' List.not_mem_nil) hleaving
      (fun _ _ => id) fun u hu => absurd hu (hmends u)
  exact hrest

theorem kept_opening (h : p.Kept (.opening :: l)) (hfree : ¬ p.Connected) (x : Reply) :
    (p.resume x .opening).1.Kept ((p.resume x .opening).2 ++ l) := by
  have hl := h.tail (fun heq => nomatch heq) fun _ hmend => hmend
  have hnew : p.opened ∉ p.accepted := fun hmem => lt_irrefl _ (h.accepted_lt _ hmem)
  have hnot : ¬ Connected { p with opened := p.opened + 1, conn := some p.opened, reported := [] } := by
    rintro ⟨c, hc, hmem⟩
    exact hnew (Option.some.inj hc ▸ hmem)
  have hlt {c : ℕ} (hc : c < p.opened) : c < p.opened + 1 := hc.trans (Nat.lt_succ_self _)
  refine ⟨fun c hc => hlt (hl.accepted_lt c hc), fun c hc => ?_, fun c hc => hlt (hl.finding_lt c hc),
    fun c loaded hc => hlt (hl.saving_lt c loaded hc), hl.listing, fun hconn => absurd hconn hnot,
    fun c loaded hc hconn => ?_, fun hconn => absurd hconn hnot, fun hstatus => ?_,
    fun c rows hc hconn => ?_, fun _ => rfl, fun u hu => absurd hu List.not_mem_nil⟩
  · exact Option.some.inj hc ▸ Nat.lt_succ_self _
  · have hself := Option.some.inj hconn
    exact absurd (hl.saving_lt c loaded hc) (by omega)
  · exact .inr ((hl.offline hstatus).resolve_left hfree)
  · have hself := Option.some.inj hconn
    exact absurd (hself ▸ hl.listing c rows hc) hnew

theorem kept_finding {c : ℕ} (h : p.Kept (.finding c :: l)) (hcalm : ∀ t ∈ l, ¬ t.Closing) (x : Reply) :
    (p.resume x (.finding c)).1.Kept ((p.resume x (.finding c)).2 ++ l) := by
  have hl := h.tail (fun heq => nomatch heq) fun _ hmend => hmend
  have hnone : ∀ t ∈ .saving c p.status :: l, ¬ t.Closing := by
    intro t ht
    rcases List.mem_cons.mp ht with rfl | hmem
    · exact id
    · exact hcalm t hmem
  have hold {t : PresenceTask} (hne : t ≠ .saving c p.status) (ht : t ∈ .saving c p.status :: l) : t ∈ l :=
    (List.mem_cons.mp ht).resolve_left hne
  refine ⟨hl.accepted_lt, hl.conn_lt, fun d hd => hl.finding_lt d (hold nofun hd), fun d loaded hd => ?_,
    fun d rows hd => hl.listing d rows (hold nofun hd), fun _ => hnone, fun d loaded hd hconn => ⟨hnone, ?_⟩,
    hl.online, fun hstatus => (hl.offline hstatus).imp_right (List.mem_cons_of_mem _),
    fun d rows hd => hl.listed d rows (hold nofun hd), hl.unreported, fun u hu => ?_⟩
  · rcases List.mem_cons.mp hd with heq | hmem
    · obtain ⟨rfl, -⟩ := PresenceTask.saving.inj heq
      exact h.finding_lt d List.mem_cons_self
    · exact hl.saving_lt d loaded hmem
  · rcases List.mem_cons.mp hd with heq | hmem
    · obtain ⟨-, rfl⟩ := PresenceTask.saving.inj heq
      exact id
    · exact (hl.saving d loaded hmem hconn).2
  · exact (hl.shown u hu).congr rfl fun t ht hmend => ⟨t, List.mem_cons_of_mem _ ht, hmend⟩

/-- The save of a hello connects the node: the loaded status is still the stored one. -/
theorem kept_saving {c : ℕ} {loaded : NodeStatus} (h : p.Kept (.saving c loaded :: l)) (hconn : p.conn = some c)
    (x : Reply) : (p.resume x (.saving c loaded)).1.Kept ((p.resume x (.saving c loaded)).2 ++ l) := by
  have hl := h.tail (fun heq => nomatch heq) fun _ hmend => hmend
  obtain ⟨hcalm, hloaded⟩ := h.saving c loaded List.mem_cons_self hconn
  have hnone : ∀ t ∈ .reconciling :: l, ¬ t.Closing := by
    intro t ht
    rcases List.mem_cons.mp ht with rfl | hmem
    · exact id
    · exact hcalm t (List.mem_cons_of_mem _ hmem)
  have honline : (if loaded = .online then p.status else .online) = NodeStatus.online := by
    split
    · next heq => exact hloaded heq
    · rfl
  have hconnected : Connected { p with
      status := if loaded = .online then p.status else .online, accepted := c :: p.accepted } :=
    ⟨c, hconn, List.mem_cons_self⟩
  have hold {t : PresenceTask} (hne : t ≠ .reconciling) (ht : t ∈ .reconciling :: l) : t ∈ l :=
    (List.mem_cons.mp ht).resolve_left hne
  refine ⟨fun d hd => ?_, hl.conn_lt, fun d hd => hl.finding_lt d (hold nofun hd),
    fun d loaded' hd => hl.saving_lt d loaded' (hold nofun hd), fun d rows hd => ?_, fun _ => hnone,
    fun d loaded' hd _ => ⟨hnone, fun _ => honline⟩, fun _ => honline, fun _ => .inl hconnected,
    fun d rows hd => hl.listed d rows (hold nofun hd), fun hnot => absurd hconnected hnot, fun u hu => ?_⟩
  · rcases List.mem_cons.mp hd with rfl | hmem
    · exact hl.conn_lt d hconn
    · exact hl.accepted_lt d hmem
  · exact List.mem_cons_of_mem c (hl.listing d rows (hold nofun hd))
  · exact (hl.shown u hu).congr rfl fun t ht hmend => ⟨t, List.mem_cons_of_mem _ ht, hmend⟩

theorem kept_reconciling (h : p.Kept (.reconciling :: l)) (x : Reply) :
    (p.resume x .reconciling).1.Kept ((p.resume x .reconciling).2 ++ l) := by
  have hl := h.tail (fun heq => nomatch heq) fun _ hmend => hmend
  rw [resume]
  match hconn : p.conn with
  | none => exact hl
  | some c =>
    dsimp only
    split
    swap
    · exact hl
    next hasks =>
    have hold {t : PresenceTask} (hne : t ≠ .listing c p.snapshot) (ht : t ∈ .listing c p.snapshot :: l) : t ∈ l :=
      (List.mem_cons.mp ht).resolve_left hne
    have hcalm (hall : ∀ t ∈ l, ¬ t.Closing) : ∀ t ∈ .listing c p.snapshot :: l, ¬ t.Closing := by
      intro t ht
      rcases List.mem_cons.mp ht with rfl | hmem
      · exact id
      · exact hall t hmem
    refine ⟨hl.accepted_lt, hl.conn_lt, fun d hd => hl.finding_lt d (hold nofun hd),
      fun d loaded hd => hl.saving_lt d loaded (hold nofun hd), fun d rows hd => ?_,
      fun hconnected => hcalm (hl.calm hconnected), fun d loaded hd hd' => ?_, hl.online,
      fun hstatus => (hl.offline hstatus).imp_right (List.mem_cons_of_mem _), fun d rows hd hd' => ?_, hl.unreported,
      fun u hu => ?_⟩
    · rcases List.mem_cons.mp hd with heq | hmem
      · obtain ⟨rfl, -⟩ := PresenceTask.listing.inj heq
        exact hasks.1
      · exact hl.listing d rows hmem
    · obtain ⟨hall, hloaded⟩ := hl.saving d loaded (hold nofun hd) hd'
      exact ⟨hcalm hall, hloaded⟩
    · rcases List.mem_cons.mp hd with heq | hmem
      · obtain ⟨-, rfl⟩ := PresenceTask.listing.inj heq
        intro r hr hknown
        obtain ⟨u, -, rfl⟩ := List.mem_map.mp hr
        exact hknown
      · exact hl.listed d rows hmem hd'
    · exact (hl.shown u hu).congr rfl fun t ht hmend => ⟨t, List.mem_cons_of_mem _ ht, hmend⟩

/-- The agent's list makes known what is on it: a row that was unknown when it was loaded will be saved. -/
theorem kept_listing {c : ℕ} {rows : List (ℕ × Row)} (h : p.Kept (.listing c rows :: l)) (x : Reply) :
    (p.resume x (.listing c rows)).1.Kept ((p.resume x (.listing c rows)).2 ++ l) := by
  have hl := h.tail (fun heq => nomatch heq) fun _ hmend => hmend
  rw [resume]
  match x.states with
  | none => exact hl
  | some states =>
    dsimp only
    split
    swap
    · exact hl
    next hconn =>
    have hconnected : p.Connected := ⟨c, hconn, h.listing c rows List.mem_cons_self⟩
    have hsettling : Kept { p with instances := p.instances }
        ([.settling (rows.map fun r => (r.1, r.2, states r.1))] ++ l) :=
      h.goOn (fun t' ht' => List.mem_singleton.mp ht' ▸ trivial) (fun t' ht' hc => (List.mem_singleton.mp ht' ▸ hc :))
        (fun heq => nomatch heq) (fun _ _ => id) fun _ hmend => (nomatch hmend)
    refine { hsettling with unreported := fun hnot => absurd hconnected hnot, shown := fun u hu => ?_ }
    rcases List.mem_append.mp hu with hlisted | hreported
    · obtain ⟨hmem, hsome⟩ := List.mem_filter.mp hlisted
      obtain ⟨⟨v, row⟩, hr, rfl⟩ := List.mem_map.mp hmem
      obtain ⟨state, hstate⟩ := Option.isSome_iff_exists.mp hsome
      by_cases hrow : row.status = .unknown
      · refine .inr ⟨_, List.mem_cons_self, row, state, ?_, hrow⟩
        exact List.mem_map.mpr ⟨(v, row), hr, by rw [← hstate]⟩
      · exact .inl (h.listed c rows List.mem_cons_self hconn (v, row) hr hrow)
    · exact hsettling.shown u hreported

/-- A close is written while the node is not connected. -/
theorem kept_leaving (h : p.Kept (.leaving :: l)) (x : Reply) :
    (p.resume x .leaving).1.Kept ((p.resume x .leaving).2 ++ l) := by
  rw [resume]
  split
  · next hoffline => exact h.tail (fun _ => hoffline) fun _ hmend => hmend
  have hnot : ¬ p.Connected := fun hconn => h.calm hconn _ List.mem_cons_self trivial
  have hold {t : PresenceTask} (hne : t ≠ .naming) (ht : t ∈ .naming :: l) : t ∈ .leaving :: l :=
    List.mem_cons_of_mem _ ((List.mem_cons.mp ht).resolve_left hne)
  refine ⟨h.accepted_lt, h.conn_lt, fun d hd => h.finding_lt d (hold nofun hd),
    fun d loaded hd => h.saving_lt d loaded (hold nofun hd), fun d rows hd => h.listing d rows (hold nofun hd),
    fun hconn => absurd hconn hnot, fun d loaded hd hconn => ?_, fun hconn => absurd hconn hnot,
    fun hstatus => (nomatch hstatus), fun d rows hd => h.listed d rows (hold nofun hd), h.unreported, fun u hu => ?_⟩
  · exact absurd trivial ((h.saving d loaded (hold nofun hd) hconn).1 _ List.mem_cons_self)
  · rw [show p.reported = [] from h.unreported hnot] at hu
    exact absurd hu List.not_mem_nil

theorem kept_resume (horderly : p.Orderly l x t) (h : p.Kept (t :: l)) :
    (p.resume x t).1.Kept ((p.resume x t).2 ++ l) := by
  match t with
  | .opening => exact kept_opening h horderly x
  | .finding c => exact kept_finding h horderly x
  | .saving c loaded => exact kept_saving h horderly x
  | .reconciling => exact kept_reconciling h x
  | .listing c rows => exact kept_listing h x
  | .leaving => exact kept_leaving h x
  | .settling [] =>
    refine h.tail (fun heq => nomatch heq) fun u hmend => ?_
    obtain ⟨row, st, hmem, -⟩ := hmend
    exact List.not_mem_nil hmem
  | .settling ((u, row, state) :: todo) =>
    refine h.goOn (fun t' ht' => List.mem_singleton.mp ht' ▸ trivial)
      (fun t' ht' hc => (List.mem_singleton.mp ht' ▸ hc :)) (fun heq => nomatch heq)
      (fun _ v hv => known_saveRow (reconcileRow_unknown state) hv) fun v hmend => ?_
    obtain ⟨row', st, hmem, hrow⟩ := hmend
    rcases List.mem_cons.mp hmem with heq | hmem
    · obtain ⟨rfl, hpair⟩ := Prod.mk.inj heq
      obtain ⟨rfl, rfl⟩ := Prod.mk.inj hpair
      exact .inl (mended_saveRow hrow (applyState_known hrow st x.now))
    · exact .inr ⟨_, List.mem_singleton_self _, row', st, hmem, hrow⟩
  | .naming | .markingUnknown =>
    exact h.goOn (fun t' ht' => List.mem_singleton.mp ht' ▸ trivial) (fun _ _ _ => trivial) (fun heq => nomatch heq)
      (fun _ _ => id) fun _ hmend => (nomatch hmend)
  | .marking [] => exact h.tail (fun heq => nomatch heq) fun _ hmend => hmend
  | .marking ((u, row) :: todo) =>
    exact h.goOn (fun t' ht' => List.mem_singleton.mp ht' ▸ trivial) (fun _ _ _ => trivial) (fun heq => nomatch heq)
      (fun hquiet => absurd trivial hquiet) fun _ hmend => (nomatch hmend)
  | .event u state =>
    refine h.goOn (fun t' ht' => List.mem_singleton.mp ht' ▸ trivial)
      (fun t' ht' hc => (List.mem_singleton.mp ht' ▸ hc :)) (fun heq => nomatch heq) (fun _ _ => id) fun v hmend => ?_
    obtain rfl : u = v := hmend
    by_cases hrow : (p.instances u).status = .unknown
    · exact .inr ⟨_, List.mem_singleton_self _, rfl, hrow⟩
    · exact .inl hrow
  | .applying u loaded state =>
    have hafter : (applyState loaded state x.now).status = .unknown →
        (applyState loaded state x.now).status = loaded.status :=
      fun hunknown => reconcileRow_unknown (some state) hunknown
    refine h.goOn (fun t' ht' => absurd ht' List.not_mem_nil) (fun t' ht' => absurd ht' List.not_mem_nil)
      (fun heq => nomatch heq) (fun _ v hv => known_saveRow hafter hv) fun v hmend => ?_
    obtain ⟨rfl, hrow⟩ := hmend
    exact .inl (mended_saveRow hrow (applyState_known hrow state x.now))

/-- A task comes that is of no close, and of a hello only if its connection is open. -/
theorem Kept.add (h : p.Kept l) (hfinding : ∀ c, t = .finding c → c < p.opened)
    (hsaving : ∀ c loaded, t ≠ .saving c loaded) (hlisting : ∀ c rows, t ≠ .listing c rows) (hcalm : ¬ t.Closing) :
    p.Kept (t :: l) := by
  have hall (h : ∀ t' ∈ l, ¬ t'.Closing) : ∀ t' ∈ t :: l, ¬ t'.Closing := by
    intro t' ht'
    rcases List.mem_cons.mp ht' with rfl | hmem
    · exact hcalm
    · exact h t' hmem
  have hold {t' : PresenceTask} (hne : t ≠ t') (ht' : t' ∈ t :: l) : t' ∈ l :=
    (List.mem_cons.mp ht').resolve_left hne.symm
  refine ⟨h.accepted_lt, h.conn_lt, fun c hc => ?_, fun c loaded hc => h.saving_lt c loaded (hold (hsaving c loaded) hc),
    fun c rows hc => h.listing c rows (hold (hlisting c rows) hc), fun hconn => hall (h.calm hconn),
    fun c loaded hc hconn => ?_, h.online, fun hstatus => (h.offline hstatus).imp_right (List.mem_cons_of_mem t),
    fun c rows hc => h.listed c rows (hold (hlisting c rows) hc), h.unreported, fun u hu => ?_⟩
  · rcases List.mem_cons.mp hc with heq | hmem
    · exact hfinding c heq.symm
    · exact h.finding_lt c hmem
  · obtain ⟨hcalm', hloaded⟩ := h.saving c loaded (hold (hsaving c loaded) hc) hconn
    exact ⟨hall hcalm', hloaded⟩
  · exact (h.shown u hu).congr rfl fun t' ht' hmend => ⟨t', List.mem_cons_of_mem t ht', hmend⟩

theorem kept_close (h : p.Kept l) :
    Kept { p with conn := none, reported := [] } (.leaving :: l) := by
  have hnot : ¬ Connected { p with conn := none, reported := [] } := fun ⟨_, hc, _⟩ => nomatch hc
  have hold {t : PresenceTask} (hne : t ≠ .leaving) (ht : t ∈ .leaving :: l) : t ∈ l :=
    (List.mem_cons.mp ht).resolve_left hne
  exact ⟨h.accepted_lt, fun _ hc => (nomatch hc), fun d hd => h.finding_lt d (hold nofun hd),
    fun d loaded hd => h.saving_lt d loaded (hold nofun hd), fun d rows hd => h.listing d rows (hold nofun hd),
    fun hc => absurd hc hnot, fun _ _ _ hc => (nomatch hc), fun hc => absurd hc hnot,
    fun _ => .inr List.mem_cons_self, fun _ _ _ hc => (nomatch hc), fun _ => rfl,
    fun _ hu => absurd hu List.not_mem_nil⟩

theorem kept_arrive (h : p.Kept l) (e : PresenceEvent) : (p.arrive e).1.Kept ((p.arrive e).2 ++ l) := by
  match e with
  | .open => exact h.add nofun nofun nofun id
  | .hello c supported =>
    rw [arrive]
    split
    · next hspoken =>
      refine h.add (fun d hd => ?_) nofun nofun id
      obtain rfl := PresenceTask.finding.inj hd
      exact h.conn_lt c hspoken.1
    · exact h
  | .status c u state =>
    rw [arrive]
    split
    swap
    · exact h
    next hreported =>
    have hconnected : p.Connected := ⟨c, hreported.1, hreported.2.1⟩
    have hadded := h.add (t := .event u state) nofun nofun nofun id
    refine { hadded with unreported := fun hnot => absurd hconnected hnot, shown := fun v hv => ?_ }
    rcases List.mem_cons.mp hv with rfl | hmem
    · exact .inr ⟨_, List.mem_cons_self, rfl⟩
    · exact hadded.shown v hmem
  | .close c =>
    rw [arrive]
    split
    · exact kept_close h
    · exact h

/-! ## Whole runs -/

variable {s s' : Shared Presence PresenceTask} {turns : List (Turn PresenceEvent Reply)}

theorem Start.kept (h : Start s) : s.rows.Kept s.tasks := by
  have hno {t : PresenceTask} (ht : t ∈ s.tasks) : False := by
    rw [h.tasks] at ht
    exact List.not_mem_nil ht
  have hnot : ¬ s.rows.Connected := by
    rintro ⟨c, hc, -⟩
    exact nomatch h.conn.symm.trans hc
  refine ⟨fun c hc => ?_, fun c hc => (nomatch h.conn.symm.trans hc), fun _ ht => (hno ht).elim,
    fun _ _ ht => (hno ht).elim, fun _ _ ht => (hno ht).elim, fun hc => absurd hc hnot,
    fun _ _ ht => (hno ht).elim, fun hc => absurd hc hnot, fun hstatus => (nomatch h.status.symm.trans hstatus),
    fun _ _ ht => (hno ht).elim, fun _ => h.reported, fun u hu => ?_⟩
  · rw [h.accepted] at hc
    exact absurd hc List.not_mem_nil
  · rw [h.reported] at hu
    exact absurd hu List.not_mem_nil

theorem Kept.settled (h : p.Kept []) : p.Settled := by
  refine ⟨⟨fun hstatus => ?_, h.online⟩, fun _ u hu => ?_⟩
  · exact (h.offline hstatus).resolve_right List.not_mem_nil
  · rcases h.shown u hu with hknown | ⟨t, ht, -⟩
    · exact hknown
    · exact absurd ht List.not_mem_nil

end Presence

end Nodes
