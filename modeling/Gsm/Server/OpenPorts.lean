import Gsm.Firewall.Manager
import Gsm.Machine.Exec
import Gsm.Machine.Handlers

/-!
# Opened ports follow the instance's ports

The server's side of the firewall for one instance: `update` with new ports, `setInstanceFirewall`
and the handler of `instance.ports_changed`, taken apart at their awaits, beside the agent, which
takes the requests it was sent in any order. Each task is given by what it waits for. A handler reads
the ports at its own moment and gives up while the node is offline, so the agent can be left with a
list that is no longer right.
-/

open GoStd Firewall Machine

namespace Server

/-- `InstancePort.protocol` -/
inductive PortProtocol where
  | tcp
  | udp
  | both
deriving DecidableEq

structure InstancePort where
  port : ℕ
  protocol : PortProtocol
deriving DecidableEq

/-- `portsOf` -/
def portsOf (ports : List InstancePort) : List Port :=
  ports.flatMap fun p =>
    match p.protocol with
    | .both => [⟨p.port, .tcp⟩, ⟨p.port, .udp⟩]
    | .tcp => [⟨p.port, .tcp⟩]
    | .udp => [⟨p.port, .udp⟩]

/-- Why the firewall is asked for something. -/
inductive Reason where
  /-- `instance.ports_changed` -/
  | follow
  /-- `setInstanceFirewall` -/
  | set (opened : Bool)
deriving DecidableEq

inductive Task where
  /-- `update`, between the commit of its transaction and the event -/
  | emitting
  /-- waits for `get` -/
  | loading (why : Reason)
  /-- has the row: whether it says open, and the ports -/
  | loaded (why : Reason) (opened : Bool) (ports : List InstancePort)
  /-- waits for the agent to take the list -/
  | asking (opening : Bool) (ports : List Port)
  /-- waits for the agent's answer -/
  | taken (opening : Bool)
  /-- waits for `Instance.update` -/
  | saving (firewall : Option (List FirewallRule))
  /-- a list on its way to the agent whose answer nobody waits for -/
  | stray (ports : List Port)
deriving DecidableEq

/-- `r.state !== "error"` -/
def notError (r : FirewallRule) : Bool :=
  match r.state with
  | .error _ => false
  | _ => true

/-- One instance, its node's connection and the agent's last list. -/
structure Gate where
  /-- its rows of `InstancePort` -/
  ports : List InstancePort
  /-- `firewall` of its row -/
  firewall : Option (List FirewallRule)
  /-- `agentGateway.isConnected` -/
  online : Bool
  /-- the last list that the agent was given for the instance's key -/
  given : Option (List Port)
  tasks : List Task

inductive GateAction where
  /-- `update` commits new ports -/
  | change (ports : List InstancePort)
  /-- `update` emits `instance.ports_changed` -/
  | emit (i : ℕ)
  /-- an install that has ended emits it -/
  | installed
  /-- an owner opens or closes the ports -/
  | set (opened : Bool)
  | read (i : ℕ)
  /-- the task goes on with the row it has read; `managed` is its node's -/
  | resume (i : ℕ) (managed : Bool)
  /-- the agent takes a list -/
  | take (i : ℕ)
  | answer (i : ℕ) (rules : List FirewallRule)
  /-- the request times out or is refused -/
  | fail (i : ℕ)
  /-- a list never reaches the agent -/
  | lose (i : ℕ)
  | save (i : ℕ)
  | hello
  | close

/-- `failAll`: what becomes of a task when the connection ends -/
def Task.cutOff : Task → List Task
  | .asking _ ports => [.stray ports]
  | .taken _ => []
  | t => [t]

namespace Gate

/-- The `i`-th task goes on. -/
def goOn (s : Gate) (i : ℕ) (next : List Task) : Gate :=
  { s with tasks := replaceAt s.tasks i next }

/-- The connection ends. -/
def cut (s : Gate) : Gate := { s with tasks := s.tasks.flatMap Task.cutOff }

/-- What a task does that has the row. -/
def asks (s : Gate) (managed : Bool) (opened : Bool) (ports : List InstancePort) :
    Reason → List Task
  | .follow => if opened ∧ s.online then [.asking true (portsOf ports)] else []
  | .set true => if s.online ∧ managed then [.asking true (portsOf ports)] else []
  | .set false => if s.online then [.asking false []] else []

def step (s : Gate) : GateAction → Option Gate
  | .change ports => some { s with
      ports := ports
      tasks := s.tasks ++ [.emitting] }
  | .emit i =>
      match s.tasks[i]? with
      | some .emitting => some (s.goOn i [.loading .follow])
      | _ => none
  | .installed => some { s with tasks := s.tasks ++ [.loading .follow] }
  | .set opened => some { s with tasks := s.tasks ++ [.loading (.set opened)] }
  | .read i =>
      match s.tasks[i]? with
      | some (.loading why) => some (s.goOn i [.loaded why s.firewall.isSome s.ports])
      | _ => none
  | .resume i managed =>
      match s.tasks[i]? with
      | some (.loaded why opened ports) => some (s.goOn i (s.asks managed opened ports why))
      | _ => none
  | .take i =>
      match s.tasks[i]? with
      | some (.asking opening ports) =>
          some { s.goOn i [.taken opening] with given := some ports }
      | some (.stray ports) => some { s.goOn i [] with given := some ports }
      | _ => none
  | .answer i rules =>
      match s.tasks[i]? with
      | some (.taken opening) =>
          -- only marked open when something is open now
          some (s.goOn i [.saving (if opening ∧ rules.any notError then some rules else none)])
      | _ => none
  | .fail i =>
      match s.tasks[i]? with
      | some (.asking _ ports) => some (s.goOn i [.stray ports])
      | some (.taken _) => some (s.goOn i [])
      | _ => none
  | .lose i =>
      match s.tasks[i]? with
      | some (.stray _) => some (s.goOn i [])
      | _ => none
  | .save i =>
      match s.tasks[i]? with
      | some (.saving firewall) => some { s.goOn i [] with firewall := firewall }
      | _ => none
  | .hello => some { s with online := true }
  | .close => some { s.cut with online := false }

end Gate

/-! ## What is still on its way -/

/-- The task will give the agent these ports, while the node is online. -/
def Task.Brings (ports : List InstancePort) : Task → Prop
  | .emitting => True
  | .loading why => why = .follow ∨ why = .set true
  | .loaded .follow opened ps => opened = true ∧ ps = ports
  | .loaded (.set opened) _ ps => opened = true ∧ ps = ports
  | .asking opening ps => opening = true ∧ ps = portsOf ports
  | _ => False

/-- The task will mark the instance open. -/
def Task.Opens : Task → Prop
  | .saving firewall => firewall.isSome
  | _ => False

/-- The task will mark the instance closed. -/
def Task.Closes : Task → Prop
  | .saving firewall => firewall = none
  | .taken opening => opening = false
  | _ => False

/-- Nobody on the server waits for it. -/
def Task.Strays : Task → Prop
  | .stray _ => True
  | _ => False

namespace Gate

/-- A save that says open is still to come. -/
def Opening (s : Gate) : Prop := ∃ t ∈ s.tasks, t.Opens

/-- The instance says open and will go on saying so. -/
def Exposed (s : Gate) : Prop :=
  s.Opening ∨ s.firewall.isSome ∧ ∀ t ∈ s.tasks, ¬ t.Closes

/-- The agent has the current ports, or something on its way brings them. -/
def Covered (s : Gate) : Prop :=
  s.given = some (portsOf s.ports) ∨ ∃ t ∈ s.tasks, t.Brings s.ports

/-- The state without the `i`-th task. -/
def without (s : Gate) (i : ℕ) : Gate := s.goOn i []

/-- Where the instance says open, a handler does not give up, a request does not fail, the agent
takes no other list than the current one and no answer to such a list marks the instance open,
unless another task brings the current ports; and a handler does not find the row closed that an
earlier answer is about to open. -/
def Follows (s : Gate) : GateAction → Prop
  | .read i => s.tasks[i]? = some (.loading .follow) → s.firewall = none → s.Opening →
      (s.without i).Covered
  | .resume i managed => ∀ why opened ports, s.tasks[i]? = some (.loaded why opened ports) →
      (Task.loaded why opened ports).Brings s.ports → s.asks managed opened ports why = [] →
      s.Exposed → (s.without i).Covered
  | .take i => ∀ opening ports,
      s.tasks[i]? = some (.asking opening ports) ∨ s.tasks[i]? = some (.stray ports) →
      ports ≠ portsOf s.ports →
      (if s.tasks[i]? = some (.asking false ports) then s.Opening else s.Exposed) →
      ∃ t ∈ (s.without i).tasks, t.Brings s.ports
  | .answer i rules => s.tasks[i]? = some (.taken true) → rules.any notError →
      (s.without i).Covered
  | .fail i => (s.without i).Exposed → (s.without i).Covered
  | .close => s.cut.Exposed → s.cut.Covered
  | _ => True

/-! ## What a step leaves on its way -/

variable {s s' s₀ : Gate} {a : GateAction} {as : List GateAction} {i : ℕ} {t u : Task}
  {new : List Task}

theorem mem_goOn (h : t ∈ (s.goOn i new).tasks) : t ∈ (s.without i).tasks ∨ t ∈ new :=
  mem_replaceAt_iff.mp h

theorem mem_of_without (hi : s.tasks[i]? = some u) (h : t ∈ (s.without i).tasks) : t ∈ s.tasks :=
  (mem_iff_replaceAt hi).mpr (.inr h)

/-- What covers the others covers them beside what is put in. -/
theorem Covered.goOn (h : (s.without i).Covered) : (s.goOn i new).Covered := by
  rcases h with h | ⟨t, ht, hb⟩
  · exact .inl h
  · exact .inr ⟨t, mem_replaceAt_iff.mpr (.inl ht), hb⟩

theorem covered_of_brings (ht : t ∈ new) (hb : t.Brings s.ports) : (s.goOn i new).Covered :=
  .inr ⟨t, mem_replaceAt_iff.mpr (.inr ht), hb⟩

theorem Covered.without (hi : s.tasks[i]? = some u) (hu : ¬ u.Brings s.ports) (h : s.Covered) :
    (s.without i).Covered := by
  rcases h with h | ⟨t, ht, hb⟩
  · exact .inl h
  · rcases (mem_iff_replaceAt hi).mp ht with rfl | ht
    · exact absurd hb hu
    · exact .inr ⟨t, ht, hb⟩

theorem Opening.of_without (hi : s.tasks[i]? = some u) (h : (s.without i).Opening) : s.Opening := by
  obtain ⟨t, ht, ho⟩ := h
  exact ⟨t, mem_of_without hi ht, ho⟩

/-- Without a task that does not close, the instance is no more exposed. -/
theorem Exposed.of_without (hi : s.tasks[i]? = some u) (hu : ¬ u.Closes)
    (h : (s.without i).Exposed) : s.Exposed := by
  rcases h with h | ⟨hf, hc⟩
  · exact .inl (h.of_without hi)
  · refine .inr ⟨hf, fun t ht => ?_⟩
    rcases (mem_iff_replaceAt hi).mp ht with rfl | ht
    · exact hu
    · exact hc t ht

/-- Nor with one that does not open. -/
theorem Exposed.of_goOn (hnew : ∀ t ∈ new, ¬ t.Opens) (h : (s.goOn i new).Exposed) :
    (s.without i).Exposed := by
  rcases h with ⟨t, ht, ho⟩ | ⟨hf, hc⟩
  · rcases mem_goOn ht with ht | ht
    · exact .inl ⟨t, ht, ho⟩
    · exact absurd ho (hnew t ht)
  · exact .inr ⟨hf, fun t ht => hc t (mem_replaceAt_iff.mpr (.inl ht))⟩

/-- While a task is there that closes, only a save to come exposes the instance. -/
theorem Exposed.opening (hu : u ∈ s.tasks) (hc : u.Closes) (h : s.Exposed) : s.Opening := by
  rcases h with h | ⟨_, hnone⟩
  · exact h
  · exact absurd hc (hnone u hu)

theorem Opening.of_goOn (hnew : ∀ t ∈ new, ¬ t.Opens) (h : (s.goOn i new).Opening) :
    (s.without i).Opening := by
  obtain ⟨t, ht, ho⟩ := h
  rcases mem_goOn ht with ht | ht
  · exact ⟨t, ht, ho⟩
  · exact absurd ho (hnew t ht)

/-- Where the instance says open, the agent has its ports or something brings them. -/
def Settled (s : Gate) : Prop := s.Exposed → s.Covered

/-- A task goes on that brought nothing and closed nothing. -/
theorem Settled.goOn (h : s.Settled) (hi : s.tasks[i]? = some u) (hb : ¬ u.Brings s.ports)
    (hc : ¬ u.Closes) (hnew : ∀ t ∈ new, ¬ t.Opens) : (s.goOn i new).Settled := by
  intro hexp
  exact ((h ((hexp.of_goOn hnew).of_without hi hc)).without hi hb).goOn

/-- A new task starts. -/
theorem Settled.start (h : s.Settled) (ho : ¬ t.Opens) :
    Settled { s with tasks := s.tasks ++ [t] } := by
  intro hexp
  have hold : s.Exposed := by
    rcases hexp with ⟨u, hu, ho'⟩ | ⟨hf, hc⟩
    · rcases List.mem_append.mp hu with hu | hu
      · exact .inl ⟨u, hu, ho'⟩
      · rw [List.mem_singleton.mp hu] at ho'
        exact absurd ho' ho
    · exact .inr ⟨hf, fun u hu => hc u (List.mem_append_left _ hu)⟩
  rcases h hold with hg | ⟨u, hu, hb⟩
  · exact .inl hg
  · exact .inr ⟨u, List.mem_append_left _ hu, hb⟩

theorem settled_read {why : Reason} (h : s.Settled) (hf : s.Follows (.read i))
    (hi : s.tasks[i]? = some (.loading why)) :
    (s.goOn i [.loaded why s.firewall.isSome s.ports]).Settled := by
  have hnew : ∀ t ∈ [Task.loaded why s.firewall.isSome s.ports], ¬ t.Opens := by
    intro t ht
    rw [List.mem_singleton.mp ht]
    exact id
  cases why with
  | follow =>
    intro hexp
    cases hrow : s.firewall with
    | some rules =>
      apply covered_of_brings (List.mem_singleton_self _)
      exact ⟨rfl, rfl⟩
    | none =>
      rcases hexp.of_goOn hnew with ho | ⟨hsome, _⟩
      · exact (hf hi hrow (ho.of_without hi)).goOn
      · rw [show (s.without i).firewall = none from hrow] at hsome
        cases hsome
  | set opened =>
    cases opened with
    | true => exact fun _ => covered_of_brings (List.mem_singleton_self _) ⟨rfl, rfl⟩
    | false => exact h.goOn hi (by simp [Task.Brings]) id hnew

theorem settled_resume {managed opened : Bool} {why : Reason} {ports : List InstancePort}
    (h : s.Settled) (hf : s.Follows (.resume i managed))
    (hi : s.tasks[i]? = some (.loaded why opened ports)) :
    (s.goOn i (s.asks managed opened ports why)).Settled := by
  have hnew : ∀ t ∈ s.asks managed opened ports why, ¬ t.Opens := by
    intro t ht
    unfold asks at ht
    split at ht <;> split at ht
    all_goals first
      | rw [List.mem_singleton.mp ht]; exact id
      | cases ht
  by_cases hb : Task.Brings s.ports (.loaded why opened ports)
  · by_cases hup : s.asks managed opened ports why = []
    · intro hexp
      exact (hf why opened ports hi hb hup ((hexp.of_goOn hnew).of_without hi id)).goOn
    · -- the current ports are asked for
      have hasks : s.asks managed opened ports why = [.asking true (portsOf s.ports)] := by
        unfold asks at hup ⊢
        cases why with
        | follow =>
          obtain ⟨rfl, rfl⟩ := hb
          exact if_pos (by_contra fun hn => hup (if_neg hn))
        | set opened' =>
          obtain ⟨rfl, rfl⟩ := hb
          exact if_pos (by_contra fun hn => hup (if_neg hn))
      rw [hasks]
      exact fun _ => covered_of_brings (List.mem_singleton_self _) ⟨rfl, rfl⟩
  · exact h.goOn hi hb id hnew

/-- The agent takes a list. -/
theorem settled_take {ports : List Port} (hf : s.Follows (.take i))
    (hu : (∃ opening, u = .asking opening ports ∧ new = [.taken opening]) ∨
      u = .stray ports ∧ new = []) (hi : s.tasks[i]? = some u) :
    Settled { s.goOn i new with given := some ports } := by
  intro hexp
  by_cases hports : ports = portsOf s.ports
  · exact .inl (congrArg some hports)
  · -- something else must bring them
    have hexp' : (s.goOn i new).Exposed := hexp
    have hbrought : ∃ t ∈ (s.without i).tasks, t.Brings s.ports := by
      rcases hu with ⟨opening, rfl, rfl⟩ | ⟨rfl, rfl⟩
      · have hnew : ∀ t ∈ [Task.taken opening], ¬ t.Opens := by
          intro t ht
          rw [List.mem_singleton.mp ht]
          exact id
        apply hf opening ports (.inl hi) hports
        split
        · next hclosing =>
          obtain rfl : opening = false := by
            rw [hi] at hclosing
            cases hclosing
            rfl
          have hmem : Task.taken false ∈ (s.goOn i [.taken false]).tasks :=
            mem_replaceAt_iff.mpr (.inr (List.mem_singleton_self _))
          exact ((hexp'.opening hmem rfl).of_goOn hnew).of_without hi
        · exact (hexp'.of_goOn hnew).of_without hi id
      · apply hf true ports (.inr hi) hports
        rw [if_neg (by rw [hi]; simp)]
        exact (hexp'.of_goOn (by simp)).of_without hi id
    obtain ⟨t, ht, hb⟩ := hbrought
    exact .inr ⟨t, mem_replaceAt_iff.mpr (.inl ht), hb⟩

theorem settled_answer {opening : Bool} {rules : List FirewallRule} (h : s.Settled)
    (hf : s.Follows (.answer i rules)) (hi : s.tasks[i]? = some (.taken opening)) :
    (s.goOn i [.saving (if opening ∧ rules.any notError then some rules else none)]).Settled := by
  intro hexp
  by_cases hopen : opening = true ∧ rules.any notError = true
  · obtain ⟨rfl, hrules⟩ := hopen
    exact (hf hi hrules).goOn
  · rw [if_neg hopen] at hexp ⊢
    have hmem : Task.saving none ∈ (s.goOn i [.saving none]).tasks :=
      mem_replaceAt_iff.mpr (.inr (List.mem_singleton_self _))
    have hop : s.Opening := ((hexp.opening hmem rfl).of_goOn (by simp [Task.Opens])).of_without hi
    exact ((h (.inl hop)).without hi id).goOn

theorem settled_save {firewall : Option (List FirewallRule)} (h : s.Settled)
    (hi : s.tasks[i]? = some (.saving firewall)) :
    Settled { s.goOn i [] with firewall := firewall } := by
  intro hexp
  have hold : s.Exposed := by
    cases firewall with
    | some rules => exact .inl ⟨_, List.mem_of_getElem? hi, rfl⟩
    | none =>
      rcases hexp with ⟨t, ht, ho⟩ | ⟨hf, _⟩
      · exact .inl ⟨t, mem_of_without hi ht, ho⟩
      · cases hf
  rcases (h hold).without hi id with hg | ⟨t, ht, hb⟩
  · exact .inl hg
  · exact .inr ⟨t, ht, hb⟩

theorem settled_step (hf : s.Follows a) (hs : s.step a = some s') (h : s.Settled) :
    s'.Settled := by
  cases a with
  | change ports =>
    cases hs
    exact fun _ => .inr ⟨.emitting, List.mem_append_right _ (List.mem_singleton_self _), trivial⟩
  | emit i =>
    rw [step] at hs
    split at hs
    case h_2 => cases hs
    case h_1 hi =>
      cases hs
      exact fun _ => covered_of_brings (List.mem_singleton_self _) (.inl rfl)
  | installed =>
    cases hs
    exact h.start id
  | set opened =>
    cases hs
    exact h.start id
  | read i =>
    rw [step] at hs
    split at hs
    case h_2 => cases hs
    case h_1 hi =>
      cases hs
      exact settled_read h hf hi
  | resume i managed =>
    rw [step] at hs
    split at hs
    case h_2 => cases hs
    case h_1 hi =>
      cases hs
      exact settled_resume h hf hi
  | take i =>
    rw [step] at hs
    split at hs
    case h_1 hi =>
      cases hs
      exact settled_take hf (.inl ⟨_, rfl, rfl⟩) hi
    case h_2 hi =>
      cases hs
      exact settled_take hf (.inr ⟨rfl, rfl⟩) hi
    case h_3 => cases hs
  | answer i rules =>
    rw [step] at hs
    split at hs
    case h_2 => cases hs
    case h_1 hi =>
      cases hs
      exact settled_answer h hf hi
  | fail i =>
    rw [step] at hs
    split at hs
    case h_1 hi =>
      cases hs
      exact fun hexp => (hf (hexp.of_goOn (by simp [Task.Opens]))).goOn
    case h_2 hi =>
      cases hs
      exact hf
    case h_3 => cases hs
  | lose i =>
    rw [step] at hs
    split at hs
    case h_2 => cases hs
    case h_1 hi =>
      cases hs
      exact h.goOn hi id id (by simp)
  | save i =>
    rw [step] at hs
    split at hs
    case h_2 => cases hs
    case h_1 hi =>
      cases hs
      exact settled_save h hi
  | hello =>
    cases hs
    exact h
  | close =>
    cases hs
    exact hf

/-- Nothing is under way, and where the instance says open the agent has its ports. -/
structure Start (s : Gate) : Prop where
  tasks : s.tasks = []
  given : s.firewall.isSome → s.given = some (portsOf s.ports)

theorem Start.settled (h : s.Start) : s.Settled := by
  rintro (⟨t, ht, _⟩ | ⟨hf, _⟩)
  · rw [h.tasks] at ht
    cases ht
  · exact .inl (h.given hf)

/-- In every run whose steps meet the condition: whenever no handler is under way, whether or not the
node is connected, an instance that says open has its current ports as the last list the agent was
given. -/
theorem open_follows_ports (hstart : s₀.Start) (hrun : exec step s₀ as = some s)
    (hf : Along step Follows s₀ as) (hquiet : ∀ t ∈ s.tasks, t.Strays)
    (hopen : s.firewall.isSome) : s.given = some (portsOf s.ports) := by
  have hsettled : s.Settled :=
    exec_invariant (fun s a s' hf hs h => settled_step hf hs h) hrun hf hstart.settled
  have hexp : s.Exposed := by
    refine .inr ⟨hopen, fun t ht hc => ?_⟩
    have hstray := hquiet t ht
    cases t <;> first | exact hstray | exact hc
  rcases hsettled hexp with hg | ⟨t, ht, hb⟩
  · exact hg
  · have hstray := hquiet t ht
    cases t <;> first | exact hstray.elim | exact hb.elim

/-- An instance whose one port is open in the firewall. -/
def openGate (online : Bool) : Gate where
  ports := [⟨30000, .tcp⟩]
  firewall := some [⟨⟨30000, .tcp⟩, .opened⟩]
  online := online
  given := some [⟨30000, .tcp⟩]
  tasks := []

theorem start_openGate (online : Bool) : (openGate online).Start := ⟨rfl, fun _ => rfl⟩

def moved : List InstancePort := [⟨30100, .both⟩]

/-- The node is connected when the port moves. -/
theorem open_follows_ports_online : ∃ s, exec step (openGate true)
    [.change moved, .emit 0, .read 0, .resume 0 true, .take 0,
      .answer 0 [⟨⟨30100, .tcp⟩, .opened⟩], .save 0] = some s ∧
      s.given = some (portsOf s.ports) := by
  refine ⟨_, rfl, ?_⟩
  have hrun : exec step (openGate true)
    [.change moved, .emit 0, .read 0, .resume 0 true, .take 0,
      .answer 0 [⟨⟨30100, .tcp⟩, .opened⟩], .save 0] = some _ := rfl
  refine open_follows_ports (start_openGate true) hrun ?_ (fun t ht => nomatch ht) rfl
  refine ⟨trivial, fun _ h => ?_⟩; cases h
  refine ⟨trivial, fun _ h => ?_⟩; cases h
  refine ⟨fun _ hnone => (nomatch hnone), fun _ h => ?_⟩; cases h
  refine ⟨?_, fun _ h => ?_⟩
  · intro why opened ports hi _ hasks
    cases hi
    cases hasks
  cases h
  refine ⟨?_, fun _ h => ?_⟩
  · rintro opening ports (hi | hi) hne
    · cases hi
      exact absurd rfl hne
    · cases hi
  cases h
  refine ⟨fun _ _ => .inl rfl, fun _ h => ?_⟩; cases h
  exact ⟨trivial, fun _ _ => trivial⟩

/-- The port moves while the node is offline: the handler gives up, and the next hello changes
nothing. -/
theorem open_left_behind : ∃ s, (openGate false).Start ∧
    exec step (openGate false) [.change moved, .emit 0, .read 0, .resume 0 true, .hello] = some s ∧
      s.tasks = [] ∧ s.online = true ∧ s.firewall.isSome ∧ s.given ≠ some (portsOf s.ports) :=
  ⟨_, start_openGate false, rfl, rfl, rfl, rfl, by decide⟩

end Gate

end Server
