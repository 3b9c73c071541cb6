import Gsm.Machine.Exec
import Gsm.Server.Ports

/-!
# The ports of a node's instances

The rows of `instances` and `instance_ports` beside the nodes, under the requests that change ports:
an instance created, changed or removed, and a node changed. A request that is refused changes nothing
and is no step. Templates can be saved anew in between, with any ports.
-/

open Machine

namespace Server.PortRows

open Ports

structure Node where
  sftpPort : Option ℕ
  pool : Pool

structure Instance where
  id : ℕ
  nodeId : ℕ
  templateId : ℕ

/-- A row of `instance_ports` -/
structure InstancePort extends Allocation where
  instanceId : ℕ
  nodeId : ℕ

structure State where
  nodes : ℕ → Option Node
  /-- The ports of each template -/
  templates : ℕ → Option (List TemplatePort)
  instances : List Instance
  rows : List InstancePort
  /-- The next number the table of instances gives -/
  nextId : ℕ

/-- Ports on the node taken by other instances, and the node's SFTP port. -/
def usedPorts (s : State) (nodeId : ℕ) (exceptInstanceId : Option ℕ) : List ℕ :=
  (s.rows.filter fun r => decide (r.nodeId = nodeId ∧ some r.instanceId ≠ exceptInstanceId)).map (·.port) ++
    (((s.nodes nodeId).bind (·.sftpPort)).filter (· ≠ 0)).toList

/-- `InstancePort.bulkCreate`, which the two unique indexes of the table can refuse. -/
def bulkCreate (rows new : List InstancePort) : Option (List InstancePort) :=
  if ((rows ++ new).map fun r => (r.nodeId, r.port)).Nodup ∧
      ((rows ++ new).map fun r => (r.instanceId, r.name)).Nodup then some (rows ++ new)
  else none

def rowsOf (l : List Allocation) (instanceId nodeId : ℕ) : List InstancePort :=
  l.map fun a => ⟨a, instanceId, nodeId⟩

def State.get (s : State) (id : ℕ) : Option Instance := s.instances.find? (·.id = id)

/-- `create` -/
def create (s : State) (nodeId templateId : ℕ) (choices : List (String × ℕ)) : Option State := do
  let node ← s.nodes nodeId
  let ports ← s.templates templateId
  let l ← (allocatePorts ports choices (usedPorts s nodeId none) node.pool).toOption
  let rows ← bulkCreate s.rows (rowsOf l s.nextId nodeId)
  some { s with
    instances := s.instances ++ [⟨s.nextId, nodeId, templateId⟩]
    rows := rows
    nextId := s.nextId + 1 }

/-- The choices of an update: the current port for every template port the caller did not choose; ports
that follow another move with it. -/
def keepPorts (ports : List TemplatePort) (choices : List (String × ℕ)) (current : List InstancePort) :
    List (String × ℕ) :=
  current.foldl (fun c r =>
    match ports.find? (·.name == r.name) with
    | some tp => if (c.lookup r.name).isNone && tp.follows.isNone then c ++ [(r.name, r.port)] else c
    | none => c) choices

/-- `update`, with `ports` where the request has them. -/
def update (s : State) (id : ℕ) (ports : Option (List (String × ℕ))) : Option State := do
  let i ← s.get id
  match ports with
  | none => some s
  | some input => do
      let node ← s.nodes i.nodeId
      let ports ← s.templates i.templateId
      let choices := keepPorts ports input (s.rows.filter (·.instanceId = i.id))
      let l ← (allocatePorts ports choices (usedPorts s i.nodeId (some i.id)) node.pool).toOption
      let rows ← bulkCreate (s.rows.filter (·.instanceId ≠ i.id)) (rowsOf l i.id i.nodeId)
      some { s with rows := rows }

/-- `remove`: the rows of the instance's ports go with it. -/
def remove (s : State) (id : ℕ) : Option State := do
  let i ← s.get id
  some { s with
    instances := s.instances.filter (·.id ≠ i.id)
    rows := s.rows.filter (·.instanceId ≠ i.id) }

/-- What a change of a node says of its ports; `null` turns SFTP off. -/
structure UpdateNodeBody where
  portRangeStart : Option ℕ
  portRangeEnd : Option ℕ
  sftpPort : Option (Option ℕ)

/-- `update` of a node -/
def updateNode (s : State) (id : ℕ) (input : UpdateNodeBody) : Option State := do
  let n ← s.nodes id
  let start := input.portRangeStart.getD n.pool.start
  let last := input.portRangeEnd.getD n.pool.last
  let sftpPort := input.sftpPort.getD n.sftpPort
  if last < start then none
  else if 20000 < last - start then none
  else if input.sftpPort.isSome && s.rows.any fun r => decide (r.nodeId = id ∧ some r.port = sftpPort) then none
  else if sftpPort.any fun p => decide (start ≤ p ∧ p ≤ last) then none
  else some { s with nodes := fun k => if k = id then some ⟨sftpPort, start, last⟩ else s.nodes k }

inductive Request where
  | create (nodeId templateId : ℕ) (choices : List (String × ℕ))
  | update (id : ℕ) (ports : Option (List (String × ℕ)))
  | remove (id : ℕ)
  | updateNode (id : ℕ) (input : UpdateNodeBody)
  /-- A template is saved with these ports. -/
  | saveTemplate (id : ℕ) (ports : List TemplatePort)

/-- One request that is accepted. -/
def step (s : State) : Request → Option State
  | .create nodeId templateId choices => create s nodeId templateId choices
  | .update id ports => update s id ports
  | .remove id => remove s id
  | .updateNode id input => updateNode s id input
  | .saveTemplate id ports =>
      some { s with templates := fun k => if k = id then some ports else s.templates k }

/-- The ports of all instances of a node. -/
def portsOn (s : State) (nodeId : ℕ) : List ℕ :=
  (s.instances.filter (·.nodeId = nodeId)).flatMap fun i =>
    (s.rows.filter (·.instanceId = i.id)).map (·.port)

/-- What holds of the tables between the requests. -/
structure Sound (s : State) : Prop where
  ids : (s.instances.map (·.id)).Nodup
  fresh : ∀ i ∈ s.instances, i.id < s.nextId
  /-- A row stands on the node of its instance. -/
  owner : ∀ r ∈ s.rows, ∃ i ∈ s.instances, i.id = r.instanceId ∧ i.nodeId = r.nodeId
  ports : (s.rows.map fun r => (r.nodeId, r.port)).Nodup
  sftp : ∀ r ∈ s.rows, ∀ node, s.nodes r.nodeId = some node → node.sftpPort ≠ some r.port

variable {s s' : State} {rows new out : List InstancePort} {l : List Allocation} {i : Instance}
  {id nodeId templateId : ℕ} {node : Node} {ports : List TemplatePort} {choices : List (String × ℕ)}
  {exceptId : Option ℕ}

theorem bulkCreate_eq_some (h : bulkCreate rows new = some out) :
    out = rows ++ new ∧ ((rows ++ new).map fun r => (r.nodeId, r.port)).Nodup := by
  rw [bulkCreate] at h
  split at h
  · next hunique => exact ⟨(Option.some.inj h).symm, hunique.1⟩
  · cases h

theorem ok_of_toOption {ε α : Type} {e : Except ε α} {a : α} (h : e.toOption = some a) : e = .ok a := by
  rcases e with e | b
  · cases h
  · exact congrArg Except.ok (Option.some.inj h)

/-- A port that was allocated is not the node's SFTP port. -/
theorem sftp_allocated (hnode : s.nodes nodeId = some node)
    (h : allocatePorts ports choices (usedPorts s nodeId exceptId) node.pool = .ok l) :
    ∀ r ∈ rowsOf l id nodeId, node.sftpPort ≠ some r.port := by
  intro r hr hsftp
  obtain ⟨a, ha, rfl⟩ := List.mem_map.mp hr
  obtain ⟨hpos, -, hno⟩ := allocatePorts_unused h a ha
  refine hno (List.mem_append_right _ ?_)
  have hne : a.port ≠ 0 := by omega
  have hport : node.sftpPort = some a.port := hsftp
  rw [hnode, Option.bind_some, hport, Option.filter_some]
  simp [hne]

theorem get_eq_some (h : s.get id = some i) : i ∈ s.instances ∧ i.id = id :=
  ⟨List.mem_of_find?_eq_some h, by simpa using List.find?_some h⟩

/-- The instance of a row is the one with its number. -/
theorem Sound.nodeId_eq (h : Sound s) (hi : i ∈ s.instances) {r : InstancePort} (hr : r ∈ s.rows)
    (hid : r.instanceId = i.id) : r.nodeId = i.nodeId := by
  obtain ⟨k, hk, hkid, hknode⟩ := h.owner r hr
  rw [← hknode, List.inj_on_of_nodup_map h.ids hk hi (hkid.trans hid)]

/-- Rows written beside those kept. -/
theorem Sound.write (h : Sound s) {instances : List Instance} {nextId : ℕ}
    (hids : (instances.map (·.id)).Nodup) (hfresh : ∀ k ∈ instances, k.id < nextId)
    (hi : i ∈ instances) (hkept : ∀ r ∈ rows, r ∈ s.rows ∧ ∃ k ∈ instances, k.id = r.instanceId ∧
      k.nodeId = r.nodeId)
    (hnode : s.nodes i.nodeId = some node) (hrun : bulkCreate rows (rowsOf l i.id i.nodeId) = some out)
    (hl : allocatePorts ports choices (usedPorts s i.nodeId exceptId) node.pool = .ok l) :
    Sound { s with instances := instances, rows := out, nextId := nextId } := by
  obtain ⟨rfl, hports⟩ := bulkCreate_eq_some hrun
  refine ⟨hids, hfresh, fun r hr => ?_, hports, fun r hr node' hnode' => ?_⟩
  · rcases List.mem_append.mp hr with hr | hr
    · exact (hkept r hr).2
    · obtain ⟨a, -, rfl⟩ := List.mem_map.mp hr
      exact ⟨i, hi, rfl, rfl⟩
  · rcases List.mem_append.mp hr with hr | hr
    · exact h.sftp r (hkept r hr).1 node' hnode'
    · obtain ⟨a, ha, rfl⟩ := List.mem_map.mp hr
      obtain rfl := Option.some.inj (hnode.symm.trans hnode')
      exact sftp_allocated hnode hl _ hr

theorem create_sound (hrun : create s nodeId templateId choices = some s') (h : Sound s) : Sound s' := by
  obtain ⟨node, hnode, hrun⟩ := Option.bind_eq_some_iff.mp hrun
  obtain ⟨ports, -, hrun⟩ := Option.bind_eq_some_iff.mp hrun
  obtain ⟨l, hl, hrun⟩ := Option.bind_eq_some_iff.mp hrun
  obtain ⟨out, hout, hrun⟩ := Option.bind_eq_some_iff.mp hrun
  obtain rfl := Option.some.inj hrun
  have hfresh : ∀ k ∈ s.instances ++ [(⟨s.nextId, nodeId, templateId⟩ : Instance)], k.id < s.nextId + 1 := by
    intro k hk
    rcases List.mem_append.mp hk with hk | hk
    · exact (h.fresh k hk).trans (Nat.lt_succ_self _)
    · rw [List.mem_singleton.mp hk]
      exact Nat.lt_succ_self _
  have hids : ((s.instances ++ [(⟨s.nextId, nodeId, templateId⟩ : Instance)]).map (·.id)).Nodup := by
    rw [List.map_append]
    refine h.ids.append (List.nodup_singleton _) (List.disjoint_singleton.mpr fun hmem => ?_)
    obtain ⟨k, hk, heq⟩ := List.mem_map.mp hmem
    exact absurd (h.fresh k hk) (by rw [heq]; exact Nat.lt_irrefl _)
  have hl' := ok_of_toOption hl
  refine h.write (i := ⟨s.nextId, nodeId, templateId⟩) hids hfresh (List.mem_append_right _ List.mem_cons_self)
    (fun r hr => ⟨hr, ?_⟩) hnode hout hl'
  obtain ⟨k, hk, hkid⟩ := h.owner r hr
  exact ⟨k, List.mem_append_left _ hk, hkid⟩

theorem update_sound {input : Option (List (String × ℕ))} (hrun : update s id input = some s')
    (h : Sound s) : Sound s' := by
  obtain ⟨i, hi, hrun⟩ := Option.bind_eq_some_iff.mp hrun
  obtain ⟨hmem, -⟩ := get_eq_some hi
  rcases input with _ | input
  · rwa [← Option.some.inj hrun]
  obtain ⟨node, hnode, hrun⟩ := Option.bind_eq_some_iff.mp hrun
  obtain ⟨ports, -, hrun⟩ := Option.bind_eq_some_iff.mp hrun
  obtain ⟨l, hl, hrun⟩ := Option.bind_eq_some_iff.mp hrun
  obtain ⟨out, hout, hrun⟩ := Option.bind_eq_some_iff.mp hrun
  obtain rfl := Option.some.inj hrun
  refine h.write h.ids h.fresh hmem (fun r hr => ?_) hnode hout (ok_of_toOption hl)
  have hr' := (List.mem_filter.mp hr).1
  exact ⟨hr', h.owner r hr'⟩

theorem remove_sound (hrun : remove s id = some s') (h : Sound s) : Sound s' := by
  obtain ⟨i, -, hrun⟩ := Option.bind_eq_some_iff.mp hrun
  obtain rfl := Option.some.inj hrun
  refine ⟨h.ids.sublist (List.filter_sublist.map _), fun k hk => h.fresh k (List.mem_filter.mp hk).1,
    fun r hr => ?_, h.ports.sublist (List.filter_sublist.map _),
    fun r hr => h.sftp r (List.mem_filter.mp hr).1⟩
  obtain ⟨hr, hne⟩ := List.mem_filter.mp hr
  obtain ⟨k, hk, hkid, hknode⟩ := h.owner r hr
  refine ⟨k, List.mem_filter.mpr ⟨hk, ?_⟩, hkid, hknode⟩
  rwa [hkid]

theorem updateNode_sound {input : UpdateNodeBody} (hrun : updateNode s id input = some s')
    (h : Sound s) : Sound s' := by
  obtain ⟨n, hn, hrun⟩ := Option.bind_eq_some_iff.mp hrun
  simp only at hrun
  split at hrun
  · cases hrun
  split at hrun
  · cases hrun
  split at hrun
  · cases hrun
  next hfree =>
  split at hrun
  · cases hrun
  obtain rfl := Option.some.inj hrun
  refine ⟨h.ids, h.fresh, h.owner, h.ports, fun r hr node hnode => ?_⟩
  by_cases hid : r.nodeId = id
  · have hnode' : node = ⟨input.sftpPort.getD n.sftpPort, _, _⟩ :=
      (Option.some.inj ((if_pos hid).symm.trans hnode)).symm
    rw [hnode']
    -- a port that is kept was no row's before, and a new one has been looked for among the rows
    rcases hsftp : input.sftpPort with _ | sftpPort
    · exact h.sftp r hr n (hid ▸ hn)
    · intro heq
      rw [hsftp] at hfree
      refine hfree ?_
      rw [Option.isSome_some, Bool.true_and, List.any_eq_true]
      exact ⟨r, hr, decide_eq_true ⟨hid, heq.symm⟩⟩
  · exact h.sftp r hr node ((if_neg hid).symm.trans hnode)

theorem step_sound {r : Request} (hs : step s r = some s') (h : Sound s) : Sound s' := by
  rcases r with ⟨nodeId, templateId, choices⟩ | ⟨id, ports⟩ | id | ⟨id, input⟩ | ⟨id, ports⟩
  · exact create_sound hs h
  · exact update_sound hs h
  · exact remove_sound hs h
  · exact updateNode_sound hs h
  · obtain rfl := Option.some.inj hs
    exact ⟨h.ids, h.fresh, h.owner, h.ports, h.sftp⟩

theorem mem_portsOn {p : ℕ} (h : p ∈ portsOn s nodeId) :
    ∃ i ∈ s.instances, i.nodeId = nodeId ∧ ∃ r ∈ s.rows, r.instanceId = i.id ∧ r.port = p := by
  obtain ⟨i, hi, hp⟩ := List.mem_flatMap.mp h
  obtain ⟨hi, hnode⟩ := List.mem_filter.mp hi
  obtain ⟨r, hr, rfl⟩ := List.mem_map.mp hp
  obtain ⟨hr, hid⟩ := List.mem_filter.mp hr
  exact ⟨i, hi, of_decide_eq_true hnode, r, hr, of_decide_eq_true hid, rfl⟩

/-- Rows of one node with one port are the same row. -/
theorem Sound.row_eq (h : Sound s) {r r' : InstancePort} (hr : r ∈ s.rows) (hr' : r' ∈ s.rows)
    (hnode : r.nodeId = r'.nodeId) (hport : r.port = r'.port) : r = r' :=
  List.inj_on_of_nodup_map h.ports hr hr' (Prod.ext hnode hport)

theorem Sound.portsOn_nodup (h : Sound s) (nodeId : ℕ) : (portsOn s nodeId).Nodup := by
  rw [portsOn, List.nodup_flatMap]
  refine ⟨fun i hi => ?_, ?_⟩
  · refine List.Nodup.map_on (fun r hr r' hr' hport => ?_) (h.ports.of_map.filter _)
    obtain ⟨hr, hid⟩ := List.mem_filter.mp hr
    obtain ⟨hr', hid'⟩ := List.mem_filter.mp hr'
    have hi' := (List.mem_filter.mp hi).1
    have hnode := h.nodeId_eq hi' hr (of_decide_eq_true hid)
    have hnode' := h.nodeId_eq hi' hr' (of_decide_eq_true hid')
    exact h.row_eq hr hr' (hnode.trans hnode'.symm) hport
  · refine (h.ids.of_map.filter _).imp_of_mem ?_
    intro i k hi hk hne p hp hp'
    obtain ⟨hi, hinode⟩ := List.mem_filter.mp hi
    obtain ⟨hk, hknode⟩ := List.mem_filter.mp hk
    obtain ⟨r, hr, rfl⟩ := List.mem_map.mp hp
    obtain ⟨r', hr', hport⟩ := List.mem_map.mp hp'
    obtain ⟨hr, hid⟩ := List.mem_filter.mp hr
    obtain ⟨hr', hid'⟩ := List.mem_filter.mp hr'
    have hnode := h.nodeId_eq hi hr (of_decide_eq_true hid)
    have hnode' := h.nodeId_eq hk hr' (of_decide_eq_true hid')
    have hsame : i.nodeId = k.nodeId :=
      (of_decide_eq_true hinode).trans (of_decide_eq_true hknode).symm
    obtain rfl := h.row_eq hr hr' (hnode.trans (hsame.trans hnode'.symm)) hport.symm
    exact hne (List.inj_on_of_nodup_map h.ids hi hk
      ((of_decide_eq_true hid).symm.trans (of_decide_eq_true hid')))

/-- After any accepted requests the ports of a node's instances are different from each other, and none
is the node's SFTP port. -/
theorem ports_apart {requests : List Request} (hinstances : s.instances = []) (hrows : s.rows = [])
    (hrun : exec step s requests = some s') (nodeId : ℕ) :
    (portsOn s' nodeId).Nodup ∧
      ∀ node, s'.nodes nodeId = some node → ∀ p ∈ portsOn s' nodeId, node.sftpPort ≠ some p := by
  have hstart : Sound s := by
    refine ⟨?_, ?_, ?_, ?_, ?_⟩
    · rw [hinstances]
      exact List.nodup_nil
    · rw [hinstances]
      exact fun _ hi => absurd hi List.not_mem_nil
    · rw [hrows]
      exact fun _ hr => absurd hr List.not_mem_nil
    · rw [hrows]
      exact List.nodup_nil
    · rw [hrows]
      exact fun _ hr => absurd hr List.not_mem_nil
  have hsound : Sound s' := exec_preserves (fun _ _ _ hs h => step_sound hs h) hrun hstart
  refine ⟨hsound.portsOn_nodup nodeId, fun node hnode p hp => ?_⟩
  obtain ⟨i, hi, rfl, r, hr, hid, rfl⟩ := mem_portsOn hp
  exact hsound.sftp r hr node (by rw [hsound.nodeId_eq hi hr hid, hnode])

/-- One node, and a template with a game port and a query port behind it. -/
def oneNode : State where
  nodes := fun k => if k = 1 then some ⟨some 2022, 30000, 30010⟩ else none
  templates := fun k => if k = 1 then
    some [⟨"game", "Game", .udp, 30000, true, none⟩, ⟨"query", "Query", .udp, 27016, false, some "game"⟩]
    else none
  instances := []
  rows := []
  nextId := 1

/-- Two instances, then SFTP moved, the first one's ports chosen anew and the second removed. -/
theorem ports_apart_twoInstances :
    ∃ s', exec step oneNode [.create 1 1 [], .create 1 1 [],
        .updateNode 1 ⟨none, none, some (some 2023)⟩, .update 1 (some [("game", 30005)]), .remove 2] =
          some s' ∧ portsOn s' 1 = [30005, 30006] ∧ (portsOn s' 1).Nodup ∧
      ∀ node, s'.nodes 1 = some node → ∀ p ∈ portsOn s' 1, node.sftpPort ≠ some p := by
  obtain ⟨s', hs'⟩ : ∃ s', exec step oneNode [.create 1 1 [], .create 1 1 [],
      .updateNode 1 ⟨none, none, some (some 2023)⟩, .update 1 (some [("game", 30005)]), .remove 2] =
        some s' := Option.isSome_iff_exists.mp (by decide +kernel)
  refine ⟨s', hs', ?_, ports_apart rfl rfl hs' 1⟩
  have hports : (exec step oneNode [.create 1 1 [], .create 1 1 [],
      .updateNode 1 ⟨none, none, some (some 2023)⟩, .update 1 (some [("game", 30005)]), .remove 2]).map
        (portsOn · 1) = some [30005, 30006] := by decide +kernel
  rw [hs'] at hports
  exact Option.some.inj hports

end Server.PortRows
