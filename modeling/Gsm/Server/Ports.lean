import Gsm.Server.OpenPorts

/-!
# Port allocation on a node's pool

`allocatePorts` gives every port of a template a host port. A port and the ports that follow it are one
block, placed as a whole: the operator's choices first, then the rest, at the template's default or at
the next free place of the pool. `Fits` is what holds while blocks are placed: each lies within the port
numbers, outside the ports already used and apart from the others.
-/

namespace Server.Ports

/-- `TemplatePort` -/
structure TemplatePort where
  name : String
  label : String
  protocol : PortProtocol
  default : ℕ
  primary : Bool
  /-- The name of an earlier port this one always comes right after -/
  follows : Option String
deriving DecidableEq

structure Allocation where
  name : String
  label : String
  protocol : PortProtocol
  port : ℕ
  primary : Bool
deriving DecidableEq

/-- The node's pool, both ends included -/
structure Pool where
  start : ℕ
  last : ℕ

inductive HttpError where
  | badRequest (message : String)
  | conflict (message : String)
deriving DecidableEq

/-- `byName.get(name)`; of two ports with one name the map keeps the later. -/
def byName (ports : List TemplatePort) (name : String) : Option TemplatePort :=
  ports.reverse.find? (·.name == name)

/-- The loop of `headOf`, with what is left of its bound. -/
def headFrom (ports : List TemplatePort) : ℕ → TemplatePort → TemplatePort × ℕ
  | 0, p => (p, 0)
  | steps + 1, p =>
      match p.follows.bind (byName ports) with
      | none => (p, 0)
      | some q => ((headFrom ports steps q).1, (headFrom ports steps q).2 + 1)

/-- The port a port's block starts at, and how far behind it the port is. -/
def headOf (ports : List TemplatePort) (p : TemplatePort) : TemplatePort × ℕ :=
  headFrom ports ports.length p

/-- `Map.set` -/
def setKey (m : List (String × ℕ)) (k : String) (v : ℕ) : List (String × ℕ) :=
  if (m.lookup k).isSome then m.map fun e => if e.1 == k then (k, v) else e else m ++ [(k, v)]

/-- One port counted in the size of its block. -/
def countPort (ports : List TemplatePort) (m : List (String × ℕ)) (p : TemplatePort) : List (String × ℕ) :=
  let (head, offset) := headOf ports p
  setKey m head.name (max ((m.lookup head.name).getD 1) (offset + 1))

/-- Every port's block: the head's name and its size (the head plus its followers). -/
def sizes (ports : List TemplatePort) : List (String × ℕ) := ports.foldl (countPort ports) []

/-- What the blocks placed so far take, and where each of them starts. -/
structure Placed where
  taken : List ℕ
  first : List (String × ℕ)

def blockFree (taken : List ℕ) (start n : ℕ) : Bool :=
  (List.range' start n).all fun x => decide (1 ≤ x) && decide (x ≤ 65535) && !taken.contains x

def Placed.take (s : Placed) (name : String) (start n : ℕ) : Placed :=
  ⟨s.taken ++ List.range' start n, (name, start) :: s.first⟩

/-- The blocks with a port the operator chose. -/
def placeChosen (choices : List (String × ℕ)) : Placed → List (String × ℕ) → Except HttpError Placed
  | s, [] => .ok s
  | s, (name, n) :: rest =>
      match choices.lookup name with
      | none => placeChosen choices s rest
      | some port =>
          if blockFree s.taken port n then placeChosen choices (s.take name port n) rest
          else
            match (List.range' port n).find? s.taken.contains with
            | none => .error (.badRequest s!"Port {port} needs {n} ports in a row")
            | some busy => .error (.conflict s!"Port {busy} is already in use on this node")

/-- The next place of the pool, from `cursor` on, with `n` free ports. -/
def nextFree (taken : List ℕ) (pool : Pool) (cursor n : ℕ) : Option ℕ :=
  (List.range' cursor (pool.last + 2 - n - cursor)).find? fun c => blockFree taken c n

/-- Whether a block fits at the template's default, inside the pool. -/
def defaultFree (taken : List ℕ) (pool : Pool) (wanted n : ℕ) : Bool :=
  decide (pool.start ≤ wanted) && decide (wanted + n - 1 ≤ pool.last) && blockFree taken wanted n

/-- The other blocks. -/
def placeRest (ports : List TemplatePort) (pool : Pool) :
    Placed → ℕ → List (String × ℕ) → Except HttpError Placed
  | s, _, [] => .ok s
  | s, cursor, (name, n) :: rest =>
      if (s.first.lookup name).isSome then placeRest ports pool s cursor rest
      else
        let wanted := ((byName ports name).map (·.default)).getD 0
        if defaultFree s.taken pool wanted n then placeRest ports pool (s.take name wanted n) cursor rest
        else
          match nextFree s.taken pool cursor n with
          | some c => placeRest ports pool (s.take name c n) c rest
          | none =>
              .error (.conflict
                (if 1 < n then
                  s!"The node's port range {pool.start}-{pool.last} has no {n} free ports in a row"
                else s!"The node's port range {pool.start}-{pool.last} has no free ports left"))

/-- The port of one template port, which the operator can have named only as it is. -/
def allocation (ports : List TemplatePort) (choices : List (String × ℕ)) (s : Placed) (p : TemplatePort) :
    Except HttpError Allocation :=
  let (head, offset) := headOf ports p
  let port := (s.first.lookup head.name).getD 0 + offset
  if 0 < offset && ((choices.lookup p.name).any fun chosen => chosen != port) then
    .error (.badRequest s!"Port \"{p.name}\" is always {head.name} + {offset} ({port})")
  else .ok ⟨p.name, p.label, p.protocol, port, p.primary⟩

def allocatePorts (ports : List TemplatePort) (choices : List (String × ℕ)) (used : List ℕ) (pool : Pool) :
    Except HttpError (List Allocation) := do
  match choices.find? fun c => (byName ports c.1).isNone with
  | some (name, _) => .error (.badRequest s!"Unknown port \"{name}\"")
  | none => do
      let s ← placeChosen choices ⟨used, []⟩ (sizes ports)
      let s ← placeRest ports pool s pool.start (sizes ports)
      ports.mapM (allocation ports choices s)

variable {ports : List TemplatePort} {choices : List (String × ℕ)} {used taken : List ℕ} {pool : Pool}
  {s s' : Placed} {m : List (String × ℕ)} {p q : TemplatePort} {k name : String} {n v x start : ℕ}

/-! ## The sizes of the blocks -/

theorem mem_of_lookup (h : m.lookup k = some v) : (k, v) ∈ m := by
  obtain ⟨before, after, rfl, -⟩ := List.lookup_eq_some_iff.mp h
  exact List.mem_append_right _ List.mem_cons_self

theorem lookup_of_mem (hnodup : (m.map Prod.fst).Nodup) (h : (k, v) ∈ m) : m.lookup k = some v := by
  induction m with
  | nil => cases h
  | cons e m ih =>
    obtain ⟨a, b⟩ := e
    rw [List.map_cons, List.nodup_cons] at hnodup
    rcases List.mem_cons.mp h with heq | hmem
    · obtain ⟨rfl, rfl⟩ := Prod.mk.inj heq
      exact List.lookup_cons_self
    · have hne : (k == a) = false :=
        beq_eq_false_iff_ne.mpr fun heq => hnodup.1 (List.mem_map.mpr ⟨(k, v), hmem, heq⟩)
      rw [List.lookup_cons, hne]
      exact ih hnodup.2 hmem

theorem keys_setKey (m : List (String × ℕ)) (k : String) (v : ℕ) :
    (setKey m k v).map Prod.fst = if (m.lookup k).isSome then m.map Prod.fst else m.map Prod.fst ++ [k] := by
  rw [setKey]
  split
  · rw [List.map_map]
    refine List.map_congr_left fun e _ => ?_
    show (if e.1 == k then (k, v) else e).1 = e.1
    split
    · next h => exact (beq_iff_eq.mp h).symm
    · rfl
  · rw [List.map_append]
    rfl

theorem notMem_keys_of_lookup (h : m.lookup k = none) : k ∉ m.map Prod.fst := by
  intro hmem
  obtain ⟨e, he, rfl⟩ := List.mem_map.mp hmem
  exact absurd (List.lookup_eq_none_iff.mp h e he) (by simp)

theorem nodup_setKey (h : (m.map Prod.fst).Nodup) (k : String) (v : ℕ) :
    ((setKey m k v).map Prod.fst).Nodup := by
  rw [keys_setKey]
  rcases hk : m.lookup k with _ | w
  · show (m.map Prod.fst ++ [k]).Nodup
    exact h.append (List.nodup_singleton k)
      (List.disjoint_singleton.mpr (notMem_keys_of_lookup hk))
  · exact h

theorem mem_setKey_self (m : List (String × ℕ)) (k : String) (v : ℕ) : (k, v) ∈ setKey m k v := by
  rw [setKey]
  rcases hk : m.lookup k with _ | w
  · exact List.mem_append_right _ List.mem_cons_self
  · refine List.mem_map.mpr ⟨(k, w), mem_of_lookup hk, ?_⟩
    simp

theorem mem_setKey_of_ne {e : String × ℕ} (h : e ∈ m) (hne : e.1 ≠ k) : e ∈ setKey m k v := by
  rw [setKey]
  split
  · exact List.mem_map.mpr ⟨e, h, if_neg (by simpa using hne)⟩
  · exact List.mem_append_left _ h

/-- Counting further ports never makes a block smaller. -/
theorem block_countPort (h : (m.map Prod.fst).Nodup) (hk : ∃ n, (k, n) ∈ m ∧ v < n) (p : TemplatePort) :
    ∃ n, (k, n) ∈ countPort ports m p ∧ v < n := by
  obtain ⟨n, hn, hv⟩ := hk
  rw [countPort]
  by_cases hne : k = (headOf ports p).1.name
  · subst hne
    refine ⟨_, mem_setKey_self m _ _, ?_⟩
    show v < max ((m.lookup (headOf ports p).1.name).getD 1) _
    rw [lookup_of_mem h hn]
    exact hv.trans_le (le_max_left _ _)
  · exact ⟨n, mem_setKey_of_ne hn hne, hv⟩

theorem sizes_spec (ports : List TemplatePort) : ((sizes ports).map Prod.fst).Nodup ∧
    ∀ p ∈ ports, ∃ n, ((headOf ports p).1.name, n) ∈ sizes ports ∧ (headOf ports p).2 < n := by
  have hfold : ∀ (l : List TemplatePort) (m : List (String × ℕ)), (m.map Prod.fst).Nodup →
      ((l.foldl (countPort ports) m).map Prod.fst).Nodup ∧
        (∀ k v, (∃ n, (k, n) ∈ m ∧ v < n) → ∃ n, (k, n) ∈ l.foldl (countPort ports) m ∧ v < n) ∧
        ∀ p ∈ l, ∃ n, ((headOf ports p).1.name, n) ∈ l.foldl (countPort ports) m ∧
          (headOf ports p).2 < n := by
    intro l
    induction l with
    | nil => exact fun m hm => ⟨hm, fun _ _ h => h, fun _ h => nomatch h⟩
    | cons q l ih =>
      intro m hm
      have hm' : ((countPort ports m q).map Prod.fst).Nodup := nodup_setKey hm _ _
      obtain ⟨hnodup, hkeep, hall⟩ := ih _ hm'
      refine ⟨hnodup, fun k v h => hkeep k v (block_countPort hm h q), fun p hp => ?_⟩
      rcases List.mem_cons.mp hp with rfl | hp
      · exact hkeep _ _ ⟨_, mem_setKey_self m _ _, (Nat.lt_succ_self _).trans_le (le_max_right _ _)⟩
      · exact hall p hp
  obtain ⟨hnodup, -, hall⟩ := hfold ports [] List.nodup_nil
  exact ⟨hnodup, hall⟩

/-! ## Placing the blocks -/

/-- The block of a placed name. -/
def Placed.Holds (s : Placed) (blocks : List (String × ℕ)) (name : String) (x : ℕ) : Prop :=
  ∃ start n, s.first.lookup name = some start ∧ (name, n) ∈ blocks ∧ x ∈ List.range' start n

/-- What is placed lies within the port numbers, outside the used ports, and apart. -/
structure Fits (used : List ℕ) (blocks : List (String × ℕ)) (s : Placed) : Prop where
  used_taken : ∀ x ∈ used, x ∈ s.taken
  taken : ∀ name x, s.Holds blocks name x → x ∈ s.taken
  free : ∀ name x, s.Holds blocks name x → 1 ≤ x ∧ x ≤ 65535 ∧ x ∉ used
  apart : ∀ name name' x, s.Holds blocks name x → s.Holds blocks name' x → name = name'

theorem blockFree_iff : blockFree taken start n = true ↔
    ∀ x ∈ List.range' start n, 1 ≤ x ∧ x ≤ 65535 ∧ x ∉ taken := by
  rw [blockFree, List.all_eq_true]
  refine forall₂_congr fun x _ => ?_
  simp [and_assoc]

theorem fits_start (used : List ℕ) (blocks : List (String × ℕ)) : Fits used blocks ⟨used, []⟩ where
  used_taken := fun _ h => h
  taken := fun _ _ ⟨_, _, h, _⟩ => nomatch h
  free := fun _ _ ⟨_, _, h, _⟩ => nomatch h
  apart := fun _ _ _ ⟨_, _, h, _⟩ => nomatch h

theorem holds_take {blocks : List (String × ℕ)} (hblocks : (blocks.map Prod.fst).Nodup)
    (hn : (name, n) ∈ blocks) (h : (s.take name start n).Holds blocks k x) :
    (k = name ∧ x ∈ List.range' start n) ∨ (k ≠ name ∧ s.Holds blocks k x) := by
  obtain ⟨a, c, hfirst, hc, hx⟩ := h
  by_cases hk : k = name
  · subst hk
    rw [Placed.take, List.lookup_cons_self] at hfirst
    obtain rfl := Option.some.inj hfirst
    obtain rfl := Option.some.inj ((lookup_of_mem hblocks hc).symm.trans (lookup_of_mem hblocks hn))
    exact .inl ⟨rfl, hx⟩
  · rw [Placed.take, List.lookup_cons, beq_eq_false_iff_ne.mpr hk] at hfirst
    exact .inr ⟨hk, a, c, hfirst, hc, hx⟩

/-- Placing a block where it is free. -/
theorem Fits.take {blocks : List (String × ℕ)} (h : Fits used blocks s)
    (hblocks : (blocks.map Prod.fst).Nodup) (hn : (name, n) ∈ blocks)
    (hfree : blockFree s.taken start n = true) : Fits used blocks (s.take name start n) := by
  rw [blockFree_iff] at hfree
  refine ⟨fun x hx => List.mem_append_left _ (h.used_taken x hx), fun k x hk => ?_, fun k x hk => ?_,
    fun k k' x hk hk' => ?_⟩
  · rcases holds_take hblocks hn hk with ⟨-, hx⟩ | ⟨-, hold⟩
    · exact List.mem_append_right _ hx
    · exact List.mem_append_left _ (h.taken k x hold)
  · rcases holds_take hblocks hn hk with ⟨-, hx⟩ | ⟨-, hold⟩
    · obtain ⟨hlow, hhigh, hno⟩ := hfree x hx
      exact ⟨hlow, hhigh, fun hused => hno (h.used_taken x hused)⟩
    · exact h.free k x hold
  · rcases holds_take hblocks hn hk with ⟨rfl, hx⟩ | ⟨-, hold⟩
    · rcases holds_take hblocks hn hk' with ⟨rfl, -⟩ | ⟨-, hold'⟩
      · rfl
      · exact absurd (h.taken k' x hold') (hfree x hx).2.2
    · rcases holds_take hblocks hn hk' with ⟨-, hx⟩ | ⟨-, hold'⟩
      · exact absurd (h.taken k x hold) (hfree x hx).2.2
      · exact h.apart k k' x hold hold'

theorem isSome_lookup_take (h : (s.first.lookup k).isSome) :
    ((s.take name start n).first.lookup k).isSome := by
  rw [Placed.take, List.lookup_cons]
  split
  · rfl
  · exact h

theorem placeChosen_fits {blocks rest : List (String × ℕ)} (hblocks : (blocks.map Prod.fst).Nodup)
    (hrest : ∀ e ∈ rest, e ∈ blocks) (h : Fits used blocks s)
    (hrun : placeChosen choices s rest = .ok s') :
    Fits used blocks s' := by
  induction rest generalizing s with
  | nil =>
    obtain rfl := Except.ok.inj hrun
    exact h
  | cons e rest ih =>
    obtain ⟨name, n⟩ := e
    have hmore : ∀ e ∈ rest, e ∈ blocks := fun e he => hrest e (List.mem_cons_of_mem _ he)
    rw [placeChosen] at hrun
    split at hrun
    · exact ih hmore h hrun
    · split at hrun
      · next hfree => exact ih hmore (h.take hblocks (hrest _ List.mem_cons_self) hfree) hrun
      · split at hrun <;> cases hrun

theorem nextFree_free {cursor : ℕ} (h : nextFree taken pool cursor n = some v) :
    blockFree taken v n = true :=
  List.find?_some (p := fun c => blockFree taken c n) h

/-- The rest is placed without giving up what was. -/
theorem placeRest_fits {blocks rest : List (String × ℕ)} {cursor : ℕ}
    (hblocks : (blocks.map Prod.fst).Nodup) (hrest : ∀ e ∈ rest, e ∈ blocks) (h : Fits used blocks s)
    (hrun : placeRest ports pool s cursor rest = .ok s') :
    Fits used blocks s' ∧ (∀ k, (s.first.lookup k).isSome → (s'.first.lookup k).isSome) ∧
      ∀ e ∈ rest, (s'.first.lookup e.1).isSome := by
  induction rest generalizing s cursor with
  | nil =>
    obtain rfl := Except.ok.inj hrun
    exact ⟨h, fun _ hk => hk, fun _ he => nomatch he⟩
  | cons e rest ih =>
    obtain ⟨name, n⟩ := e
    have hmore : ∀ e ∈ rest, e ∈ blocks := fun e he => hrest e (List.mem_cons_of_mem _ he)
    -- a block placed here stays placed
    have hplaced : ∀ start cursor', blockFree s.taken start n = true →
        placeRest ports pool (s.take name start n) cursor' rest = .ok s' →
        Fits used blocks s' ∧ (∀ k, (s.first.lookup k).isSome → (s'.first.lookup k).isSome) ∧
          ∀ e ∈ (name, n) :: rest, (s'.first.lookup e.1).isSome := by
      intro start cursor' hfree hrun'
      obtain ⟨hfits, hkeep, hall⟩ := ih hmore (h.take hblocks (hrest _ List.mem_cons_self) hfree) hrun'
      refine ⟨hfits, fun k hk => hkeep k (isSome_lookup_take hk), fun e he => ?_⟩
      rcases List.mem_cons.mp he with rfl | he
      · refine hkeep _ ?_
        rw [Placed.take, List.lookup_cons_self]
        rfl
      · exact hall e he
    rw [placeRest] at hrun
    split at hrun
    · next hthere =>
      obtain ⟨hfits, hkeep, hall⟩ := ih hmore h hrun
      refine ⟨hfits, hkeep, fun e he => ?_⟩
      rcases List.mem_cons.mp he with rfl | he
      · exact hkeep _ hthere
      · exact hall e he
    simp only at hrun
    split at hrun
    · next hdefault =>
      rw [defaultFree, Bool.and_eq_true] at hdefault
      exact hplaced _ _ hdefault.2 hrun
    · split at hrun
      · next hnext => exact hplaced _ _ (nextFree_free hnext) hrun
      · cases hrun

/-! ## What `allocatePorts` gives -/

/-- The port a template port gets from the places of the blocks. -/
def placedPort (ports : List TemplatePort) (s : Placed) (p : TemplatePort) : ℕ :=
  (s.first.lookup (headOf ports p).1.name).getD 0 + (headOf ports p).2

theorem allocation_eq_ok {a : Allocation} (h : allocation ports choices s p = .ok a) :
    a = ⟨p.name, p.label, p.protocol, placedPort ports s p, p.primary⟩ := by
  rw [allocation] at h
  simp only at h
  split at h
  · cases h
  · exact (Except.ok.inj h).symm

theorem mapM_eq_ok {α β ε : Type} {f : α → Except ε β} {l : List α} {l' : List β} {g : α → β}
    (hf : ∀ a b, f a = .ok b → b = g a) (h : l.mapM f = .ok l') : l' = l.map g := by
  induction l generalizing l' with
  | nil => exact (Except.ok.inj h).symm
  | cons a l ih =>
    rw [List.mapM_cons] at h
    rcases ha : f a with e | b
    · rw [ha] at h
      cases h
    · rcases hl : l.mapM f with e | t
      · rw [ha, hl] at h
        cases h
      · rw [ha, hl] at h
        rw [← Except.ok.inj h, ih hl, hf a b ha]
        rfl

/-- The ports come from blocks that fit. -/
theorem allocatePorts_fits {l : List Allocation} (h : allocatePorts ports choices used pool = .ok l) :
    ∃ s, Fits used (sizes ports) s ∧
      (∀ p ∈ ports, s.Holds (sizes ports) (headOf ports p).1.name (placedPort ports s p)) ∧
      l = ports.map fun p => ⟨p.name, p.label, p.protocol, placedPort ports s p, p.primary⟩ := by
  obtain ⟨hnodup, hsizes⟩ := sizes_spec ports
  rw [allocatePorts] at h
  split at h
  · cases h
  rcases hchosen : placeChosen choices ⟨used, []⟩ (sizes ports) with e | s₁
  · rw [hchosen] at h
    cases h
  rcases hrest : placeRest ports pool s₁ pool.start (sizes ports) with e | s₂
  · rw [hchosen] at h
    simp only [bind, Except.bind, hrest] at h
    cases h
  have hfits₁ := placeChosen_fits hnodup (fun _ he => he) (fits_start used _) hchosen
  obtain ⟨hfits₂, -, hall⟩ := placeRest_fits hnodup (fun _ he => he) hfits₁ hrest
  refine ⟨s₂, hfits₂, fun p hp => ?_, ?_⟩
  · obtain ⟨n, hn, hlt⟩ := hsizes p hp
    obtain ⟨start, hstart⟩ := Option.isSome_iff_exists.mp (hall _ hn)
    refine ⟨start, n, hstart, hn, ?_⟩
    rw [placedPort, hstart, List.mem_range'_1]
    show start ≤ start + _ ∧ start + _ < start + n
    omega
  · rw [hchosen] at h
    simp only [bind, Except.bind, hrest] at h
    exact mapM_eq_ok (fun _ _ => allocation_eq_ok) h

/-- Every port given is a port number that was not in use. -/
theorem allocatePorts_unused {l : List Allocation} (h : allocatePorts ports choices used pool = .ok l) :
    ∀ a ∈ l, 1 ≤ a.port ∧ a.port ≤ 65535 ∧ a.port ∉ used := by
  obtain ⟨s, hfits, hholds, rfl⟩ := allocatePorts_fits h
  intro a ha
  obtain ⟨p, hp, rfl⟩ := List.mem_map.mp ha
  exact hfits.free _ _ (hholds p hp)

/-! ## Templates the schema accepts -/

/-- The rules of the schema for the ports of a template, from those `before` on. -/
def portsOk (before : List TemplatePort) : List TemplatePort → Bool
  | [] => true
  | p :: rest =>
      !(before.any fun o => o.name == p.name) &&
        (match p.follows with
          | none => true
          | some f =>
              (before.any fun o => o.name == f) && !(before.any fun o => o.follows == some f) && !p.primary) &&
        portsOk (before ++ [p]) rest

/-- The names are different, and no two ports follow the same one. -/
theorem portsOk_spec {before rest : List TemplatePort} (h : portsOk before rest = true) :
    (rest.map (·.name)).Nodup ∧
      (∀ p ∈ rest, ∀ q ∈ before, q.name ≠ p.name ∧ ∀ f, p.follows = some f → q.follows ≠ some f) ∧
      rest.Pairwise fun p q => ∀ f, q.follows = some f → p.follows ≠ some f := by
  induction rest generalizing before with
  | nil => exact ⟨List.nodup_nil, fun _ hp => absurd hp List.not_mem_nil, List.Pairwise.nil⟩
  | cons p rest ih =>
    rw [portsOk, Bool.and_eq_true, Bool.and_eq_true, Bool.not_eq_true', List.any_eq_false] at h
    obtain ⟨⟨hname, hfollow⟩, hmore⟩ := h
    obtain ⟨hnodup, hbefore, hpair⟩ := ih hmore
    refine ⟨?_, fun r hr q hq => ?_, ?_⟩
    · rw [List.map_cons, List.nodup_cons]
      refine ⟨fun hmem => ?_, hnodup⟩
      obtain ⟨r, hr, heq⟩ := List.mem_map.mp hmem
      exact (hbefore r hr p (List.mem_append_right _ List.mem_cons_self)).1 heq.symm
    · rcases List.mem_cons.mp hr with rfl | hr
      · refine ⟨fun heq => hname q hq (beq_iff_eq.mpr heq), fun f hf hqf => ?_⟩
        rw [hf] at hfollow
        simp only [Bool.and_eq_true, Bool.not_eq_true', List.any_eq_false] at hfollow
        exact hfollow.1.2 q hq (beq_iff_eq.mpr hqf)
      · exact hbefore r hr q (List.mem_append_left _ hq)
    · rw [List.pairwise_cons]
      exact ⟨fun r hr f hf => (hbefore r hr p (List.mem_append_right _ List.mem_cons_self)).2 f hf, hpair⟩

theorem eq_of_follows (h : portsOk [] ports = true) (hp : p ∈ ports) (hq : q ∈ ports) {f : String}
    (hpf : p.follows = some f) (hqf : q.follows = some f) : p = q := by
  by_contra hne
  have hsymm : Std.Symm fun p q : TemplatePort => ∀ f, q.follows = some f → p.follows ≠ some f :=
    ⟨fun _ _ hpq f hp hq => hpq f hq hp⟩
  exact (portsOk_spec h).2.2.forall hp hq hne f hqf hpf

theorem eq_of_name (h : portsOk [] ports = true) (hp : p ∈ ports) (hq : q ∈ ports)
    (hname : p.name = q.name) : p = q :=
  List.inj_on_of_nodup_map (portsOk_spec h).1 hp hq hname

theorem of_byName (h : byName ports k = some q) : q ∈ ports ∧ q.name = k :=
  ⟨List.mem_reverse.mp (List.mem_of_find?_eq_some h), by simpa using List.find?_some h⟩

/-- A port is known by the head of its block and its place in it. -/
theorem headFrom_injective (h : portsOk [] ports = true) (steps : ℕ) {p q : TemplatePort} (hp : p ∈ ports)
    (hq : q ∈ ports) (hhead : (headFrom ports steps p).1.name = (headFrom ports steps q).1.name)
    (hoffset : (headFrom ports steps p).2 = (headFrom ports steps q).2) : p = q := by
  induction steps generalizing p q with
  | zero => exact eq_of_name h hp hq hhead
  | succ steps ih =>
    rw [headFrom, headFrom] at hhead hoffset
    rcases hpn : p.follows.bind (byName ports) with _ | p'
    · rcases hqn : q.follows.bind (byName ports) with _ | q'
      · rw [hpn, hqn] at hhead
        exact eq_of_name h hp hq hhead
      · rw [hpn, hqn] at hoffset
        exact absurd hoffset (Nat.succ_ne_zero _).symm
    · rcases hqn : q.follows.bind (byName ports) with _ | q'
      · rw [hpn, hqn] at hoffset
        exact absurd hoffset (Nat.succ_ne_zero _)
      · rw [hpn, hqn] at hhead hoffset
        obtain ⟨f, hf, hpf⟩ := Option.bind_eq_some_iff.mp hpn
        obtain ⟨g, hg, hqg⟩ := Option.bind_eq_some_iff.mp hqn
        obtain ⟨hp', hpname⟩ := of_byName hpf
        obtain ⟨hq', hqname⟩ := of_byName hqg
        -- the ports they come after are the same, and only one port comes after it
        obtain rfl := ih hp' hq' hhead (Nat.succ.inj hoffset)
        rw [← hpname] at hf
        rw [← hqname] at hg
        exact eq_of_follows h hp hq hf hg

/-- For a template the schema accepts no two of the ports are the same: the table's index on node and
port has nothing to refuse. -/
theorem allocatePorts_nodup {l : List Allocation} (hports : portsOk [] ports = true)
    (h : allocatePorts ports choices used pool = .ok l) : (l.map (·.port)).Nodup := by
  obtain ⟨s, hfits, hholds, rfl⟩ := allocatePorts_fits h
  rw [List.map_map]
  refine List.Nodup.map_on (fun p hp q hq hport => ?_) (portsOk_spec hports).1.of_map
  have hport' : placedPort ports s p = placedPort ports s q := hport
  have hhead := hfits.apart _ _ _ (hholds p hp) (hport' ▸ hholds q hq)
  refine headFrom_injective hports _ hp hq hhead ?_
  rw [placedPort, placedPort, hhead] at hport'
  exact Nat.add_left_cancel hport'

-- the equations that later modules rewrite with, stated here once
attribute [local simp] Server.Ports.countPort Server.Ports.setKey

end Server.Ports
