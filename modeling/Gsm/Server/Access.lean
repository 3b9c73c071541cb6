import Gsm.Data.Assoc
import Gsm.Machine.Exec
import Gsm.Ws.UiGateway

/-!
# Who may do what on an instance

The rows that give users access (`modules/instances/access.ts`, `modules/nodes/access.ts`), and every statement that writes
them. A request about one instance asks `roleOn`, a list of instances and a socket ask the scope of `scopeForUser`:
`access_agrees` says that both give the same roles, whatever has been written before.
-/

open Data Machine Ws

namespace Server.Access

structure User where
  id : ℕ
  role : Role
deriving DecidableEq

structure Instance where
  id : ℕ
  nodeId : ℕ
deriving DecidableEq

structure InstanceUser where
  instanceId : ℕ
  userId : ℕ
  role : InstanceRole
deriving DecidableEq

structure NodeUser where
  nodeId : ℕ
  userId : ℕ
deriving DecidableEq

structure Db where
  users : List User := []
  nodes : List ℕ := []
  instances : List Instance := []
  instanceUsers : List InstanceUser := []
  nodeUsers : List NodeUser := []

structure HttpError where
  status : ℕ
  code : String
  message : String
deriving DecidableEq

def notFound (what : String) : HttpError := ⟨404, "not_found", what ++ " not found"⟩

def forbidden (message : String) : HttpError := ⟨403, "forbidden", message⟩

/-! ## Permissions -/

inductive InstancePermission where
  | view
  | console
  | command
  | power
  | files
  | backups
  | settings
  | players
  | access
  | delete
  | reinstall
  | firewall
deriving DecidableEq

/-- `INSTANCE_PERMISSIONS` -/
def instancePermissions : InstancePermission → List InstanceRole
  | .view | .console => [.owner, .operator, .viewer]
  | .command | .power | .files | .backups | .settings | .players => [.owner, .operator]
  | .access | .delete | .reinstall | .firewall => [.owner]

def roleAllows (role : Option InstanceRole) (permission : InstancePermission) : Bool :=
  match role with
  | some role => role ∈ instancePermissions permission
  | none => false

def permissionRole : InstancePermission → InstanceRole
  | .access | .delete | .reinstall | .firewall => .owner
  | .view | .console => .viewer
  | _ => .operator

def roleText : InstanceRole → String
  | .owner => "owner"
  | .operator => "operator"
  | .viewer => "viewer"

/-- More may be done with a higher role. -/
def rank : InstanceRole → ℕ
  | .viewer => 0
  | .operator => 1
  | .owner => 2

theorem rank_le_owner (role : InstanceRole) : rank role ≤ rank .owner := by
  cases role <;> decide

/-- `permissionRole` names the least role that `INSTANCE_PERMISSIONS` allows. -/
theorem roleAllows_iff (role : InstanceRole) (permission : InstancePermission) :
    roleAllows (some role) permission = true ↔ rank (permissionRole permission) ≤ rank role := by
  cases permission <;> cases role <;> decide

/-! ## Scopes and roles -/

/-- `InstanceScope`, its map as a list -/
abbrev Scope := Option (List (ℕ × InstanceRole))

def inScope (scope : Scope) (instanceId : ℕ) : Bool := scope.all fun m => (m.lookup instanceId).isSome

def roleIn (scope : Scope) (instanceId : ℕ) : Option InstanceRole :=
  match scope with
  | none => some .owner
  | some m => m.lookup instanceId

inductive Via where
  | node
  | instance_
deriving DecidableEq

/-- `InstanceAccessDto` -/
structure InstanceAccess where
  userId : ℕ
  role : InstanceRole
  via : Via
deriving DecidableEq

namespace Db

variable (db : Db)

def ownsNode (user : User) (nodeId : ℕ) : Bool :=
  user.role = .admin || 0 < db.nodeUsers.countP fun r => r.userId = user.id ∧ r.nodeId = nodeId

def scopeForUser (user : User) : Scope :=
  if user.role = .admin then none
  else
    let grants := db.instanceUsers.filter (·.userId = user.id)
    let nodes := db.nodeUsers.filter (·.userId = user.id)
    let scope := grants.foldl (fun m g => Assoc.insert m g.instanceId g.role) []
    if nodes = [] then some scope
    else
      let onOwnedNodes := db.instances.filter fun i => i.nodeId ∈ nodes.map (·.nodeId)
      some (onOwnedNodes.foldl (fun m i => Assoc.insert m i.id .owner) scope)

def roleOn (user : User) (instanceId : ℕ) : Option InstanceRole :=
  if user.role = .admin then some .owner
  else
    let grant := db.instanceUsers.find? fun g => g.userId = user.id ∧ g.instanceId = instanceId
    match db.instances.find? (·.id = instanceId) with
    | none => none
    | some i => if db.ownsNode user i.nodeId then some .owner else grant.map (·.role)

def assertInstancePermission (user : User) (instanceId : ℕ) (permission : InstancePermission) :
    Except HttpError InstanceRole :=
  match db.roleOn user instanceId with
  | none => .error (notFound "Instance")
  | some role =>
      if roleAllows (some role) permission then .ok role
      else .error (forbidden ("Requires the " ++ roleText (permissionRole permission) ++ " role on this instance"))

def listAccess (id : ℕ) : Except HttpError (List InstanceAccess) :=
  match db.instances.find? (·.id = id) with
  | none => .error (notFound "Instance")
  | some i =>
      .ok ((db.nodeUsers.filter (·.nodeId = i.nodeId)).map (fun r => ⟨r.userId, .owner, .node⟩) ++
        (db.instanceUsers.filter (·.instanceId = id)).map fun r => ⟨r.userId, r.role, .instance_⟩)

end Db

/-! ## What is written -/

/-- The statements of the services; an id is one that the table has not given before. -/
inductive Write where
  | createUser (user : User)
  /-- `user.save` -/
  | saveUser (user : User)
  | destroyUser (id : ℕ)
  | createNode (id : ℕ)
  | destroyNode (id : ℕ)
  /-- the transaction of `create` -/
  | createInstance (row : Instance) (ownerUserId : Option ℕ)
  | destroyInstance (id : ℕ)
  /-- `InstanceUser.findOrCreate` of `grant` -/
  | grant (row : InstanceUser)
  /-- `row.save`, after it -/
  | regrant (row : InstanceUser)
  | revoke (instanceId userId : ℕ)
  /-- `NodeUser.findOrCreate` of `nodes.grant` -/
  | grantNode (row : NodeUser)
  | revokeNode (nodeId userId : ℕ)

namespace Db

variable (db : Db)

def isUser (id : ℕ) : Bool := db.users.any (·.id = id)

def isInstance (id : ℕ) : Bool := db.instances.any (·.id = id)

/-- `instance_users` has a row for both ids. -/
def granted (instanceId userId : ℕ) : Bool :=
  db.instanceUsers.any fun r => r.instanceId = instanceId ∧ r.userId = userId

/-- What the keys of the tables refuse fails; a deleted row takes with it the rows that refer to it. -/
def write (db : Db) : Write → Option Db
  | .createUser user => if db.isUser user.id then none else some { db with users := db.users ++ [user] }
  | .saveUser user => some { db with users := db.users.map fun u => if u.id = user.id then user else u }
  | .destroyUser id => some { db with
      users := db.users.filter (·.id ≠ id)
      instanceUsers := db.instanceUsers.filter (·.userId ≠ id)
      nodeUsers := db.nodeUsers.filter (·.userId ≠ id) }
  | .createNode id => if id ∈ db.nodes then none else some { db with nodes := db.nodes ++ [id] }
  | .destroyNode id =>
      if db.instances.any (·.nodeId = id) then none
      else some { db with nodes := db.nodes.filter (· ≠ id), nodeUsers := db.nodeUsers.filter (·.nodeId ≠ id) }
  | .createInstance row ownerUserId =>
      if db.isInstance row.id ∨ row.nodeId ∉ db.nodes ∨ ownerUserId.any (!db.isUser ·) then none
      else some { db with
        instances := db.instances ++ [row]
        instanceUsers := db.instanceUsers ++ (ownerUserId.map (⟨row.id, ·, .owner⟩)).toList }
  | .destroyInstance id => some { db with
      instances := db.instances.filter (·.id ≠ id)
      instanceUsers := db.instanceUsers.filter (·.instanceId ≠ id) }
  | .grant row =>
      if db.granted row.instanceId row.userId then some db
      else if db.isInstance row.instanceId ∧ db.isUser row.userId then
        some { db with instanceUsers := db.instanceUsers ++ [row] }
      else none
  | .regrant row => some { db with instanceUsers := db.instanceUsers.map fun r =>
      if r.instanceId = row.instanceId ∧ r.userId = row.userId then row else r }
  | .revoke instanceId userId => some { db with instanceUsers := db.instanceUsers.filter fun r =>
      ¬ (r.instanceId = instanceId ∧ r.userId = userId) }
  | .grantNode row =>
      if row ∈ db.nodeUsers then some db
      else if row.nodeId ∈ db.nodes ∧ db.isUser row.userId then some { db with nodeUsers := db.nodeUsers ++ [row] }
      else none
  | .revokeNode nodeId userId => some { db with nodeUsers := db.nodeUsers.filter fun r =>
      ¬ (r.nodeId = nodeId ∧ r.userId = userId) }

/-- An instance has one row, a user one row for it, and only for an instance that is there. -/
structure Sound (db : Db) : Prop where
  instances : (db.instances.map (·.id)).Nodup
  instanceUsers : (db.instanceUsers.map fun r => (r.instanceId, r.userId)).Nodup
  refers : ∀ r ∈ db.instanceUsers, db.isInstance r.instanceId = true

section

variable {db db' : Db} {w : Write} {user : User} {i : ℕ}

theorem isInstance_iff : db.isInstance i = true ↔ i ∈ db.instances.map (·.id) := by
  rw [isInstance, List.any_eq_true, List.mem_map]
  exact exists_congr fun x => and_congr_right fun _ => decide_eq_true_iff

/-- Rows may go, and instances that have none, or none that stays. -/
theorem Sound.fewer (h : db.Sound) (hinstances : db'.instances.Sublist db.instances)
    (husers : db'.instanceUsers.Sublist db.instanceUsers)
    (hrefers : ∀ r ∈ db'.instanceUsers, db'.isInstance r.instanceId = true) : db'.Sound :=
  ⟨h.instances.sublist (hinstances.map _), h.instanceUsers.sublist (husers.map _), hrefers⟩

theorem Sound.createInstance {row : Instance} {ownerUserId : Option ℕ} (h : db.Sound)
    (hnew : db.isInstance row.id = false) : Sound { db with
      instances := db.instances ++ [row]
      instanceUsers := db.instanceUsers ++ (ownerUserId.map (⟨row.id, ·, .owner⟩)).toList } := by
  have hfresh : row.id ∉ db.instances.map (·.id) := by
    rw [← isInstance_iff, hnew]
    exact Bool.false_ne_true
  have hrefers : ∀ r ∈ db.instanceUsers, r.instanceId ∈ (db.instances ++ [row]).map (·.id) := by
    intro r hr
    rw [List.map_append]
    exact List.mem_append_left _ (isInstance_iff.mp (h.refers r hr))
  refine ⟨?_, ?_, fun r hr => isInstance_iff.mpr ?_⟩
  · rw [List.map_append]
    exact List.nodup_append.mpr ⟨h.instances, List.nodup_singleton _, fun a ha b hb => by
      rintro rfl
      rw [List.mem_singleton.mp hb] at ha
      exact hfresh ha⟩
  · cases ownerUserId with
    | none =>
      rw [Option.map_none, Option.toList_none, List.append_nil]
      exact h.instanceUsers
    | some u =>
      rw [Option.map_some, Option.toList_some, List.map_append]
      refine List.nodup_append.mpr ⟨h.instanceUsers, List.nodup_singleton _, fun a ha b hb => ?_⟩
      rintro rfl
      obtain ⟨r, hr, heq⟩ := List.mem_map.mp ha
      have hid : r.instanceId = row.id := (Prod.mk.inj (heq.trans (List.mem_singleton.mp hb))).1
      exact hfresh (hid ▸ isInstance_iff.mp (h.refers r hr))
  · rcases List.mem_append.mp hr with hr | hr
    · exact hrefers r hr
    · obtain ⟨u, -, rfl⟩ := Option.map_eq_some_iff.mp (Option.mem_toList.mp hr)
      rw [List.map_append]
      exact List.mem_append_right _ List.mem_cons_self

theorem Sound.grant {row : InstanceUser} (h : db.Sound) (hnew : db.granted row.instanceId row.userId = false)
    (hinstance : db.isInstance row.instanceId = true) :
    Sound { db with instanceUsers := db.instanceUsers ++ [row] } := by
  refine ⟨h.instances, ?_, fun r hr => ?_⟩
  · rw [List.map_append]
    refine List.nodup_append.mpr ⟨h.instanceUsers, List.nodup_singleton _, fun a ha b hb => ?_⟩
    rintro rfl
    obtain ⟨r, hr, heq⟩ := List.mem_map.mp ha
    obtain ⟨hid, huser⟩ := Prod.mk.inj (heq.trans (List.mem_singleton.mp hb))
    have hgranted : db.granted row.instanceId row.userId = true :=
      List.any_eq_true.mpr ⟨r, hr, decide_eq_true ⟨hid, huser⟩⟩
    cases hnew.symm.trans hgranted
  · rcases List.mem_append.mp hr with hr | hr
    · exact h.refers r hr
    · rw [List.mem_singleton.mp hr]
      exact hinstance

theorem Sound.regrant {row : InstanceUser} (h : db.Sound) : Sound { db with
    instanceUsers := db.instanceUsers.map fun r =>
      if r.instanceId = row.instanceId ∧ r.userId = row.userId then row else r } := by
  have hkey : ∀ r : InstanceUser, ((if r.instanceId = row.instanceId ∧ r.userId = row.userId then row else r).instanceId,
      (if r.instanceId = row.instanceId ∧ r.userId = row.userId then row else r).userId) = (r.instanceId, r.userId) := by
    intro r
    split
    · next heq => rw [heq.1, heq.2]
    · rfl
  refine ⟨h.instances, ?_, fun r hr => ?_⟩
  · rw [List.map_map, show (fun r : InstanceUser => (r.instanceId, r.userId)) ∘ _ = _ from funext hkey]
    exact h.instanceUsers
  · obtain ⟨r', hr', rfl⟩ := List.mem_map.mp hr
    rw [(Prod.mk.inj (hkey r')).1]
    exact h.refers r' hr'

theorem Sound.write (h : db.Sound) (hw : db.write w = some db') : db'.Sound := by
  cases w with
  | createUser user =>
    rw [Db.write] at hw
    split at hw <;> cases hw
    exact ⟨h.instances, h.instanceUsers, h.refers⟩
  | saveUser user =>
    cases hw
    exact ⟨h.instances, h.instanceUsers, h.refers⟩
  | destroyUser id =>
    cases hw
    exact h.fewer (.refl _) List.filter_sublist fun r hr => h.refers r (List.mem_of_mem_filter hr)
  | createNode id =>
    rw [Db.write] at hw
    split at hw <;> cases hw
    exact ⟨h.instances, h.instanceUsers, h.refers⟩
  | destroyNode id =>
    rw [Db.write] at hw
    split at hw <;> cases hw
    exact ⟨h.instances, h.instanceUsers, h.refers⟩
  | createInstance row ownerUserId =>
    rw [Db.write] at hw
    split at hw <;> cases hw
    next hrefused => exact h.createInstance (Bool.eq_false_iff.mpr fun hid => hrefused (.inl hid))
  | destroyInstance id =>
    cases hw
    refine h.fewer List.filter_sublist List.filter_sublist fun r hr => isInstance_iff.mpr ?_
    obtain ⟨hmem, hne⟩ := List.mem_filter.mp hr
    obtain ⟨x, hx, hid⟩ := List.mem_map.mp (isInstance_iff.mp (h.refers r hmem))
    refine List.mem_map.mpr ⟨x, List.mem_filter.mpr ⟨hx, ?_⟩, hid⟩
    rw [hid]
    exact hne
  | grant row =>
    rw [Db.write] at hw
    split at hw
    · cases hw
      exact h
    split at hw <;> cases hw
    next hnew hrow => exact h.grant (Bool.eq_false_iff.mpr hnew) hrow.1
  | regrant row =>
    cases hw
    exact h.regrant
  | revoke instanceId userId =>
    cases hw
    exact h.fewer (.refl _) List.filter_sublist fun r hr => h.refers r (List.mem_of_mem_filter hr)
  | grantNode row =>
    rw [Db.write] at hw
    split at hw
    · cases hw
      exact h
    split at hw <;> cases hw
    exact ⟨h.instances, h.instanceUsers, h.refers⟩
  | revokeNode nodeId userId =>
    cases hw
    exact ⟨h.instances, h.instanceUsers, h.refers⟩

/-- Where at most one element fits, the search may begin at either end. -/
theorem find?_reverse {α : Type*} {l : List α} {p : α → Bool} (h : ∀ a ∈ l, ∀ b ∈ l, p a → p b → a = b) :
    l.reverse.find? p = l.find? p := by
  rcases hfind : l.find? p with _ | a
  · exact List.find?_eq_none.mpr fun a ha => List.find?_eq_none.mp hfind a (List.mem_reverse.mp ha)
  · rcases hrev : l.reverse.find? p with _ | b
    · exact absurd (List.find?_some hfind)
        (List.find?_eq_none.mp hrev a (List.mem_reverse.mpr (List.mem_of_find?_eq_some hfind)))
    · rw [h b (List.mem_reverse.mp (List.mem_of_find?_eq_some hrev)) a (List.mem_of_find?_eq_some hfind)
        (List.find?_some hrev) (List.find?_some hfind)]

theorem Sound.eq_of_id (h : db.Sound) {x y : Instance} (hx : x ∈ db.instances) (hy : y ∈ db.instances)
    (hid : x.id = y.id) : x = y := List.inj_on_of_nodup_map h.instances hx hy hid

/-- The grants part of the map has the user's row for the instance. -/
theorem Sound.lookup_grants (h : db.Sound) (user : User) (i : ℕ) :
    ((db.instanceUsers.filter (·.userId = user.id)).foldl (fun m g => Assoc.insert m g.instanceId g.role) []).lookup i =
      (db.instanceUsers.find? fun g => g.userId = user.id ∧ g.instanceId = i).map (·.role) := by
  have hone : ∀ a ∈ db.instanceUsers.filter (·.userId = user.id), ∀ b ∈ db.instanceUsers.filter (·.userId = user.id),
      (a.instanceId == i) = true → (b.instanceId == i) = true → a = b := by
    intro a ha b hb hai hbi
    obtain ⟨ha, hau⟩ := List.mem_filter.mp ha
    obtain ⟨hb, hbu⟩ := List.mem_filter.mp hb
    refine List.inj_on_of_nodup_map h.instanceUsers ha hb (Prod.ext ?_ ?_)
    · exact (beq_iff_eq.mp hai).trans (beq_iff_eq.mp hbi).symm
    · exact (of_decide_eq_true hau).trans (of_decide_eq_true hbu).symm
  rw [Assoc.lookup_foldl_insert, List.lookup_nil, Option.or_none, find?_reverse hone, List.find?_filter]
  refine congrArg (Option.map _) (congrArg (List.find? · _) (funext fun g => ?_))
  simp [Bool.decide_and]

theorem ownsNode_iff (hadmin : user.role ≠ .admin) (nodeId : ℕ) : db.ownsNode user nodeId = true ↔
    nodeId ∈ (db.nodeUsers.filter (·.userId = user.id)).map (·.nodeId) := by
  rw [ownsNode, Bool.or_eq_true, decide_eq_true_iff, decide_eq_true_iff, List.countP_pos_iff, List.mem_map]
  constructor
  · rintro (hrole | ⟨r, hr, hkey⟩)
    · exact absurd hrole hadmin
    · obtain ⟨huser, hnode⟩ := of_decide_eq_true hkey
      exact ⟨r, List.mem_filter.mpr ⟨hr, decide_eq_true huser⟩, hnode⟩
  · rintro ⟨r, hr, hnode⟩
    obtain ⟨hr, huser⟩ := List.mem_filter.mp hr
    exact .inr ⟨r, hr, decide_eq_true ⟨of_decide_eq_true huser, hnode⟩⟩

/-- The scope has the instances on the user's nodes, and the user's rows. -/
theorem Sound.roleIn_eq (h : db.Sound) (hadmin : user.role ≠ .admin) (i : ℕ) : roleIn (db.scopeForUser user) i =
    if ∃ x ∈ db.instances, x.id = i ∧ db.ownsNode user x.nodeId = true then some .owner
    else (db.instanceUsers.find? fun g => g.userId = user.id ∧ g.instanceId = i).map (·.role) := by
  rw [scopeForUser, if_neg hadmin]
  dsimp only
  split
  · next hnodes =>
    rw [if_neg, roleIn, h.lookup_grants]
    rintro ⟨x, -, -, howns⟩
    rw [ownsNode_iff hadmin, hnodes] at howns
    cases howns
  · rw [roleIn, Assoc.lookup_foldl_insert, h.lookup_grants]
    split
    · next hex =>
      obtain ⟨x, hx, hid, howns⟩ := hex
      have hsome : ((db.instances.filter fun x => x.nodeId ∈ (db.nodeUsers.filter (·.userId = user.id)).map
          (·.nodeId)).reverse.find? (·.id == i)).isSome = true := by
        rw [List.find?_isSome]
        refine ⟨x, List.mem_reverse.mpr (List.mem_filter.mpr ⟨hx, ?_⟩), beq_iff_eq.mpr hid⟩
        exact decide_eq_true ((ownsNode_iff hadmin _).mp howns)
      obtain ⟨y, hy⟩ := Option.isSome_iff_exists.mp hsome
      rw [hy]
      rfl
    · next hno =>
      rw [List.find?_eq_none.mpr, Option.map_none, Option.none_or]
      intro x hx hid
      obtain ⟨hx, howns⟩ := List.mem_filter.mp (List.mem_reverse.mp hx)
      exact hno ⟨x, hx, beq_iff_eq.mp hid, (ownsNode_iff hadmin _).mpr (of_decide_eq_true howns)⟩

theorem roleOn_none (hadmin : user.role ≠ .admin) (hfind : db.instances.find? (·.id = i) = none) :
    db.roleOn user i = none := by
  rw [roleOn, if_neg hadmin]
  simp only [hfind]

theorem roleOn_some {x : Instance} (hadmin : user.role ≠ .admin) (hfind : db.instances.find? (·.id = i) = some x) :
    db.roleOn user i = if db.ownsNode user x.nodeId then some .owner
      else (db.instanceUsers.find? fun g => g.userId = user.id ∧ g.instanceId = i).map (·.role) := by
  rw [roleOn, if_neg hadmin]
  simp only [hfind]

/-- The scope and the question about one instance give the same role. -/
theorem Sound.roleIn_scopeForUser (h : db.Sound) (user : User) (i : ℕ) :
    roleIn (db.scopeForUser user) i = db.roleOn user i := by
  by_cases hadmin : user.role = .admin
  · rw [scopeForUser, if_pos hadmin, roleOn, if_pos hadmin, roleIn]
  rw [h.roleIn_eq hadmin]
  rcases hfind : db.instances.find? (·.id = i) with _ | x
  · have hnone : ∀ x ∈ db.instances, x.id ≠ i := by
      intro x hx hid
      exact List.find?_eq_none.mp hfind x hx (decide_eq_true hid)
    rw [roleOn_none hadmin hfind, if_neg fun ⟨x, hx, hid, _⟩ => hnone x hx hid, List.find?_eq_none.mpr, Option.map_none]
    intro g hg hkey
    obtain ⟨x, hx, hid⟩ := List.mem_map.mp (isInstance_iff.mp (h.refers g hg))
    exact hnone x hx (hid.trans (of_decide_eq_true hkey).2)
  · have hx := List.mem_of_find?_eq_some hfind
    have hid : x.id = i := by simpa using List.find?_some hfind
    rw [roleOn_some hadmin hfind]
    refine if_congr ⟨?_, fun howns => ⟨x, hx, hid, howns⟩⟩ rfl rfl
    rintro ⟨y, hy, hyid, howns⟩
    rwa [h.eq_of_id hy hx (hyid.trans hid.symm)] at howns

/-- Who is listed for an instance has that role or a higher one, and the role of a user who is no admin is listed. -/
theorem Sound.listAccess_roles {es : List InstanceAccess} (h : db.Sound) (hlist : db.listAccess i = .ok es)
    (hadmin : user.role ≠ .admin) :
    (∀ e ∈ es, e.userId = user.id → ∃ role, db.roleOn user i = some role ∧ rank e.role ≤ rank role) ∧
      ∀ role, db.roleOn user i = some role → ∃ e ∈ es, e.userId = user.id ∧ e.role = role := by
  rcases hfind : db.instances.find? (·.id = i) with _ | x
  · simp only [listAccess, hfind] at hlist
    cases hlist
  simp only [listAccess, hfind] at hlist
  cases hlist
  rw [roleOn_some hadmin hfind]
  have hnode : db.ownsNode user x.nodeId = true ↔ ∃ r ∈ db.nodeUsers, r.userId = user.id ∧ r.nodeId = x.nodeId := by
    rw [ownsNode_iff hadmin, List.mem_map]
    simp only [List.mem_filter, decide_eq_true_eq, and_assoc]
  constructor
  · intro e he huser
    rcases List.mem_append.mp he with he | he
    · obtain ⟨r, hr, rfl⟩ := List.mem_map.mp he
      obtain ⟨hr, hrnode⟩ := List.mem_filter.mp hr
      exact ⟨.owner, if_pos (hnode.mpr ⟨r, hr, huser, of_decide_eq_true hrnode⟩), Nat.le_refl _⟩
    · obtain ⟨r, hr, rfl⟩ := List.mem_map.mp he
      obtain ⟨hr, hri⟩ := List.mem_filter.mp hr
      split
      · exact ⟨.owner, rfl, rank_le_owner r.role⟩
      · rcases hg : db.instanceUsers.find? fun g => g.userId = user.id ∧ g.instanceId = i with _ | g
        · exact absurd (decide_eq_true ⟨huser, of_decide_eq_true hri⟩) (List.find?_eq_none.mp hg r hr)
        · have hkey : g.userId = user.id ∧ g.instanceId = i := by simpa using List.find?_some hg
          have heq : r = g := List.inj_on_of_nodup_map h.instanceUsers hr (List.mem_of_find?_eq_some hg)
            (Prod.ext ((of_decide_eq_true hri).trans hkey.2.symm) (Eq.trans huser hkey.1.symm))
          exact ⟨g.role, congrArg (Option.map (·.role)) hg, heq ▸ Nat.le_refl _⟩
  · intro role hrole
    split at hrole
    · next howns =>
      cases hrole
      obtain ⟨r, hr, huser, hrnode⟩ := hnode.mp howns
      exact ⟨_, List.mem_append_left _ (List.mem_map_of_mem (List.mem_filter.mpr ⟨hr, decide_eq_true hrnode⟩)), huser, rfl⟩
    · obtain ⟨g, hg, rfl⟩ := Option.map_eq_some_iff.mp hrole
      have hkey : g.userId = user.id ∧ g.instanceId = i := by simpa using List.find?_some hg
      exact ⟨_, List.mem_append_right _ (List.mem_map_of_mem
        (List.mem_filter.mpr ⟨List.mem_of_find?_eq_some hg, decide_eq_true hkey.2⟩)), hkey.1, rfl⟩

end

end Db

/-- Whatever has been written: a user's scope and the question about one instance give the same role; a request is refused
as not found where the scope has no role, and as forbidden where it has a lower one than it names; and what is listed for
an instance are the roles that its users have. -/
theorem access_agrees {db : Db} {writes : List Write} (hrun : exec Db.write {} writes = some db) (user : User) (i : ℕ) :
    roleIn (db.scopeForUser user) i = db.roleOn user i ∧
      (∀ permission, db.assertInstancePermission user i permission =
        match roleIn (db.scopeForUser user) i with
        | none => .error (notFound "Instance")
        | some role =>
            if rank (permissionRole permission) ≤ rank role then .ok role
            else .error (forbidden ("Requires the " ++ roleText (permissionRole permission) ++ " role on this instance"))) ∧
      ∀ es, db.listAccess i = .ok es → user.role ≠ .admin →
        (∀ e ∈ es, e.userId = user.id → ∃ role, db.roleOn user i = some role ∧ rank e.role ≤ rank role) ∧
          ∀ role, db.roleOn user i = some role → ∃ e ∈ es, e.userId = user.id ∧ e.role = role := by
  have hsound : db.Sound := by
    refine exec_preserves (P := Db.Sound) (fun _ _ _ hw h => h.write hw) hrun ⟨List.nodup_nil, List.nodup_nil, ?_⟩
    exact List.forall_mem_nil _
  have hagree := hsound.roleIn_scopeForUser user i
  refine ⟨hagree, fun permission => ?_, fun es hlist hadmin => hsound.listAccess_roles hlist hadmin⟩
  rw [hagree, Db.assertInstancePermission]
  split
  · rfl
  · next role _ => exact if_congr (roleAllows_iff role permission) rfl rfl

def sharedTwice : List Write :=
  [.createNode 1, .createUser ⟨1, .user⟩, .createUser ⟨2, .user⟩, .createInstance ⟨1, 1⟩ (some 1),
    .grant ⟨1, 2, .viewer⟩, .regrant ⟨1, 2, .operator⟩, .grantNode ⟨1, 2⟩, .revokeNode 1 2]

theorem access_agrees_sharedTwice : ∃ db, exec Db.write {} sharedTwice = some db ∧
    db.roleOn ⟨2, .user⟩ 1 = some .operator ∧ roleIn (db.scopeForUser ⟨2, .user⟩) 1 = db.roleOn ⟨2, .user⟩ 1 ∧
    db.assertInstancePermission ⟨2, .user⟩ 1 .access =
      .error (forbidden "Requires the owner role on this instance") := by
  have hrun : exec Db.write {} sharedTwice = some _ := rfl
  exact ⟨_, hrun, rfl, (access_agrees hrun ⟨2, .user⟩ 1).1, by decide +kernel⟩

end Server.Access
