import Gsm.Server.Ports
import Gsm.Data.JsText

/-!
# The blocks of ports, with the names of a plain object's members

`choices[name]` also finds what every plain object inherits. `allocatePorts` is here as it runs with such
a name among the ports: the member goes through the checks of the block, takes no port and ends up,
with the offset behind it, where the port belongs. `constructor` is the one name of the kind the schema
admits. For every other list of ports the allocation is the one of `Server.Ports`, and `Right` says all
that is asked of it.
-/

namespace Server.PortBlocks

open Ports (TemplatePort Pool HttpError Placed headOf sizes byName placeChosen placeRest placedPort
  portsOk Fits)

/-! ## The schema of a template's ports -/

/-- `/^[a-z][a-z0-9_]{0,31}$/` -/
def portName (s : String) : Bool :=
  match s.toList with
  | [] => false
  | c :: rest =>
      c.isLower && decide (rest.length ≤ 31) && rest.all fun c => c.isLower || c.isDigit || c == '_'

/-- The schema of one port. -/
def templatePort (p : TemplatePort) : Bool :=
  portName p.name && decide (1 ≤ (Js.text p.label).length) && decide ((Js.text p.label).length ≤ 80) &&
    decide (1 ≤ p.default) && decide (p.default ≤ 65535) && p.follows.all portName

/-- `ports` of `TemplateDefinition`. -/
def templatePorts (ports : List TemplatePort) : Bool :=
  decide (ports.length ≤ 32) && ports.all templatePort && portsOk [] ports

/-! ## `allocatePorts` -/

/-- `Object.prototype`: its members, each with the text it makes where a string is needed. -/
def objectPrototype : List (String × String) :=
  [("constructor", "function Object() \x7b [native code] \x7d"),
    ("__proto__", "[object Object]")] ++
  ["__defineGetter__", "__defineSetter__", "__lookupGetter__", "__lookupSetter__", "hasOwnProperty",
    "isPrototypeOf", "propertyIsEnumerable", "toLocaleString", "toString", "valueOf"].map
      fun name => (name, "function " ++ name ++ "() \x7b [native code] \x7d")

/-- What `choices[name]` finds where the choices say nothing themselves. -/
def inherited (choices : List (String × ℕ)) (name : String) : Option String :=
  if (choices.lookup name).isSome then none else objectPrototype.lookup name

/-- What the addition of an offset gives: a number, or a text when the port was no number. -/
inductive PortValue where
  | number (n : ℕ)
  | text (s : String)
deriving DecidableEq

def PortValue.toText : PortValue → String
  | .number n => toString n
  | .text s => s

structure Allocation where
  name : String
  label : String
  protocol : PortProtocol
  port : PortValue
  primary : Bool
deriving DecidableEq

/-- `first.get(name)! + offset` -/
def portAt (choices : List (String × ℕ)) (s : Placed) (name : String) (offset : ℕ) : PortValue :=
  match inherited choices name with
  | some member => .text (member ++ toString offset)
  | none => .number ((s.first.lookup name).getD 0 + offset)

/-- `chosen !== undefined && chosen !== port`; a member is never the port. -/
def chosenOther (choices : List (String × ℕ)) (name : String) (port : PortValue) : Bool :=
  match choices.lookup name with
  | some chosen => .number chosen != port
  | none => (objectPrototype.lookup name).isSome

/-- The port of one template port. -/
def allocation (ports : List TemplatePort) (choices : List (String × ℕ)) (s : Placed) (p : TemplatePort) :
    Except HttpError Allocation :=
  let (head, offset) := headOf ports p
  let port := portAt choices s head.name offset
  if 0 < offset && chosenOther choices p.name port then
    .error (.badRequest s!"Port \"{p.name}\" is always {head.name} + {offset} ({port.toText})")
  else .ok ⟨p.name, p.label, p.protocol, port, p.primary⟩

/-- The blocks that are left to the pool, unless they were chosen: a member is no number, so it passes
`blockFree`, adds none to `taken`, and its block counts as placed. -/
def blocks (ports : List TemplatePort) (choices : List (String × ℕ)) : List (String × ℕ) :=
  (sizes ports).filter fun b => (inherited choices b.1).isNone

def allocatePorts (ports : List TemplatePort) (choices : List (String × ℕ)) (used : List ℕ) (pool : Pool) :
    Except HttpError (List Allocation) := do
  match choices.find? fun c => (byName ports c.1).isNone with
  | some (name, _) => .error (.badRequest s!"Unknown port \"{name}\"")
  | none => do
      let s ← placeChosen choices ⟨used, []⟩ (sizes ports)
      let s ← placeRest ports pool s pool.start (blocks ports choices)
      ports.mapM (allocation ports choices s)

variable {ports before after rest : List TemplatePort} {choices : List (String × ℕ)}
  {used taken : List ℕ} {pool : Pool} {s s' : Placed} {p q : TemplatePort} {k name f : String}
  {n v x start cursor steps : ℕ} {l : List Allocation} {e : HttpError}

/-- Of the names of ports only `constructor` is inherited. -/
theorem inherited_iff (hname : portName name = true) :
    (inherited choices name).isSome ↔ name = "constructor" ∧ choices.lookup name = none := by
  have hkeys : ∀ e ∈ objectPrototype, portName e.1 = true → e.1 = "constructor" := by decide +kernel
  rw [inherited]
  rcases hc : choices.lookup name with _ | c
  · show (objectPrototype.lookup name).isSome ↔ _
    constructor
    · intro h
      obtain ⟨member, hm⟩ := Option.isSome_iff_exists.mp h
      obtain ⟨l₁, l₂, heq, -⟩ := List.lookup_eq_some_iff.mp hm
      have hmem : (name, member) ∈ objectPrototype :=
        heq ▸ List.mem_append_right _ List.mem_cons_self
      exact ⟨hkeys _ hmem hname, rfl⟩
    · rintro ⟨rfl, -⟩
      rfl
  · exact ⟨fun h => absurd h (by simp), fun h => nomatch h.2⟩

/-! ## The heads of the blocks -/

theorem templatePorts_spec (h : templatePorts ports = true) :
    ports.length ≤ 32 ∧ (∀ p ∈ ports, templatePort p = true) ∧ portsOk [] ports = true := by
  rw [templatePorts, Bool.and_eq_true, Bool.and_eq_true, List.all_eq_true, decide_eq_true_eq] at h
  exact ⟨h.1.1, h.1.2, h.2⟩

theorem portName_of_templatePort (h : templatePort p = true) : portName p.name = true := by
  simp only [templatePort, Bool.and_eq_true] at h
  exact h.1.1.1.1.1

/-- A port follows an earlier one. -/
theorem exists_followed {l₁ l₂ : List TemplatePort} (h : portsOk before (l₁ ++ p :: l₂) = true)
    (hp : p.follows = some f) : ∃ q ∈ before ++ l₁, q.name = f := by
  induction l₁ generalizing before with
  | nil =>
    rw [List.nil_append, portsOk, Bool.and_eq_true, Bool.and_eq_true, hp] at h
    have hany : (before.any fun o => o.name == f) = true := by
      have hfollow := h.1.2
      simp only [Bool.and_eq_true] at hfollow
      exact hfollow.1.1
    obtain ⟨q, hq, hname⟩ := List.any_eq_true.mp hany
    exact ⟨q, by rwa [List.append_nil], beq_iff_eq.mp hname⟩
  | cons r l₁ ih =>
    rw [List.cons_append, portsOk, Bool.and_eq_true] at h
    obtain ⟨q, hq, hname⟩ := ih h.2
    exact ⟨q, by simpa using hq, hname⟩

theorem byName_of_mem (h : portsOk [] ports = true) (hq : q ∈ ports) : byName ports q.name = some q := by
  rcases hb : byName ports q.name with _ | r
  · exact absurd (List.find?_eq_none.mp hb q (List.mem_reverse.mpr hq)) (by simp)
  · obtain ⟨hr, hname⟩ := Ports.of_byName hb
    rw [Ports.eq_of_name h hr hq hname]

/-- The bound of `headOf` is never reached: with as many steps as there are ports before it, a port's
head is found, and that one follows none. -/
theorem headFrom_settled (h : portsOk [] ports = true) (hports : ports = before ++ p :: after)
    (hsteps : before.length ≤ steps) :
    Ports.headFrom ports (steps + 1) p = Ports.headFrom ports steps p ∧
      (Ports.headFrom ports steps p).1 ∈ ports ∧ (Ports.headFrom ports steps p).1.follows = none := by
  induction hk : before.length using Nat.strong_induction_on generalizing before after p steps with
  | _ k ih =>
    have hp : p ∈ ports := hports ▸ List.mem_append_right _ List.mem_cons_self
    rcases hf : p.follows with _ | f
    · have hstay : ∀ t, Ports.headFrom ports t p = (p, 0) := by
        intro t
        rcases t with _ | t
        · rfl
        · rw [Ports.headFrom, hf]
          rfl
      rw [hstay, hstay]
      exact ⟨rfl, hp, hf⟩
    · obtain ⟨q, hq, rfl⟩ := exists_followed (hports ▸ h) hf
      rw [List.nil_append] at hq
      obtain ⟨b₁, b₂, rfl⟩ := List.append_of_mem hq
      rw [List.length_append, List.length_cons] at hsteps hk
      obtain ⟨t, rfl⟩ : ∃ t, steps = t + 1 := ⟨steps - 1, by omega⟩
      have hqports : ports = b₁ ++ q :: (b₂ ++ p :: after) := by rw [hports]; simp
      have hby : p.follows.bind (byName ports) = some q := by
        rw [hf]
        exact byName_of_mem h (hqports ▸ List.mem_append_right _ List.mem_cons_self)
      have hstep : ∀ t, Ports.headFrom ports (t + 1) p =
          ((Ports.headFrom ports t q).1, (Ports.headFrom ports t q).2 + 1) := by
        intro t
        rw [Ports.headFrom, hby]
      obtain ⟨hsame, hmem, hnone⟩ := ih b₁.length (by omega) hqports (show b₁.length ≤ t by omega) rfl
      rw [hstep, hstep, hsame]
      exact ⟨rfl, hmem, hnone⟩

/-- The head of a block is a port of the template that follows none. -/
theorem headOf_mem (h : portsOk [] ports = true) (hp : p ∈ ports) :
    (headOf ports p).1 ∈ ports ∧ (headOf ports p).1.follows = none := by
  obtain ⟨before, after, hports⟩ := List.append_of_mem hp
  have hlen : before.length ≤ ports.length := by rw [hports, List.length_append]; omega
  exact (headFrom_settled h hports hlen).2

theorem headOf_of_follows_none (hp : p.follows = none) : headOf ports p = (p, 0) := by
  rw [headOf]
  rcases ports.length with _ | t
  · rfl
  · rw [Ports.headFrom, hp]
    rfl

/-- A follower comes one after the port it follows, in the same block. -/
theorem headOf_of_follows (h : portsOk [] ports = true) (hp : p ∈ ports) (hq : q ∈ ports)
    (hf : p.follows = some q.name) :
    headOf ports p = ((headOf ports q).1, (headOf ports q).2 + 1) := by
  obtain ⟨before, after, hports⟩ := List.append_of_mem hp
  obtain ⟨r, hr, hname⟩ := exists_followed (hports ▸ h) hf
  rw [List.nil_append] at hr
  have hrp : r ∈ ports := hports ▸ List.mem_append_left _ hr
  obtain rfl : r = q := Ports.eq_of_name h hrp hq hname
  obtain ⟨b₁, b₂, rfl⟩ := List.append_of_mem hr
  have hrports : ports = b₁ ++ r :: (b₂ ++ p :: after) := by rw [hports]; simp
  obtain ⟨t, ht⟩ : ∃ t, ports.length = t + 1 :=
    ⟨ports.length - 1, by rw [hports, List.length_append, List.length_cons]; omega⟩
  have hlen : b₁.length ≤ t := by
    rw [hrports, List.length_append, List.length_cons] at ht
    omega
  have hby : p.follows.bind (byName ports) = some r := by
    rw [hf]
    exact byName_of_mem h hq
  rw [headOf, headOf, ht, (headFrom_settled h hrports hlen).1, Ports.headFrom, hby]

/-- The size of a block is reached by a port of it. -/
theorem sizes_reached {b : String × ℕ} (hb : b ∈ sizes ports) :
    ∃ p ∈ ports, (headOf ports p).1.name = b.1 ∧ b.2 = (headOf ports p).2 + 1 := by
  have hfold : ∀ (l : List TemplatePort) (m : List (String × ℕ)), (∀ p ∈ l, p ∈ ports) →
      (∀ b ∈ m, ∃ p ∈ ports, (headOf ports p).1.name = b.1 ∧ b.2 = (headOf ports p).2 + 1) →
        ∀ b ∈ l.foldl (Ports.countPort ports) m,
          ∃ p ∈ ports, (headOf ports p).1.name = b.1 ∧ b.2 = (headOf ports p).2 + 1 := by
    intro l
    induction l with
    | nil => exact fun m _ hm => hm
    | cons p l ih =>
      intro m hl hm
      refine ih _ (fun q hq => hl q (List.mem_cons_of_mem _ hq)) fun b hb => ?_
      have hp := hl p List.mem_cons_self
      -- the size that is set is that of the block so far, or up to this port
      have hself : ∃ q ∈ ports, (headOf ports q).1.name = (headOf ports p).1.name ∧
          max ((m.lookup (headOf ports p).1.name).getD 1) ((headOf ports p).2 + 1) = (headOf ports q).2 + 1 := by
        rcases hm' : m.lookup (headOf ports p).1.name with _ | v
        · refine ⟨p, hp, rfl, max_eq_right ?_⟩
          show 1 ≤ _
          omega
        · obtain ⟨q, hq, hname, hv⟩ := hm _ (Ports.mem_of_lookup hm')
          rcases le_total v ((headOf ports p).2 + 1) with hle | hle
          · exact ⟨p, hp, rfl, max_eq_right hle⟩
          · exact ⟨q, hq, hname, (max_eq_left hle).trans hv⟩
      rw [Ports.countPort] at hb
      change b ∈ Ports.setKey m _ _ at hb
      rw [Ports.setKey] at hb
      split at hb
      · obtain ⟨c, hc, rfl⟩ := List.mem_map.mp hb
        split
        · exact hself
        · exact hm c hc
      · rcases List.mem_append.mp hb with hb | hb
        · exact hm b hb
        · rw [List.mem_singleton.mp hb]
          exact hself
  exact hfold ports [] (fun _ hp => hp) (fun _ hb => nomatch hb) b hb

/-- The blocks are those of the heads. -/
theorem mem_sizes {b : String × ℕ} (hb : b ∈ sizes ports) :
    (∃ p ∈ ports, b.1 = (headOf ports p).1.name) ∧ 1 ≤ b.2 ∧ b.2 ≤ ports.length + 1 := by
  have hoffset : ∀ (steps : ℕ) (p : TemplatePort), (Ports.headFrom ports steps p).2 ≤ steps := by
    intro steps
    induction steps with
    | zero => exact fun _ => le_refl 0
    | succ steps ih =>
      intro p
      rw [Ports.headFrom]
      rcases p.follows.bind (byName ports) with _ | q
      · exact Nat.zero_le _
      · exact Nat.succ_le_succ (ih q)
  obtain ⟨p, hp, hname, hsize⟩ := sizes_reached hb
  have hle : (headOf ports p).2 ≤ ports.length := hoffset ports.length p
  exact ⟨⟨p, hp, hname.symm⟩, by omega, by omega⟩

theorem blocks_sublist (ports : List TemplatePort) (choices : List (String × ℕ)) :
    (blocks ports choices).Sublist (sizes ports) :=
  List.filter_sublist

/-! ## Lists of ports without a member's name -/

def Allocation.ofNumber (a : Ports.Allocation) : Allocation :=
  ⟨a.name, a.label, a.protocol, .number a.port, a.primary⟩

theorem mapM_map {α β γ ε : Type} {f : α → Except ε β} {f' : α → Except ε γ} {g : β → γ} {l : List α}
    (hf : ∀ a ∈ l, f' a = (f a).map g) : l.mapM f' = (l.mapM f).map (List.map g) := by
  induction l with
  | nil => rfl
  | cons a l ih =>
    rw [List.mapM_cons, List.mapM_cons, hf a List.mem_cons_self,
      ih fun b hb => hf b (List.mem_cons_of_mem _ hb)]
    rcases f a with e | b
    · rfl
    · rcases l.mapM f with e | t <;> rfl

/-- Where no port is called like an inherited member, the allocation is the one in numbers. -/
theorem allocatePorts_eq (hports : portsOk [] ports = true)
    (hno : ∀ p ∈ ports, inherited choices p.name = none) :
    allocatePorts ports choices used pool =
      (Ports.allocatePorts ports choices used pool).map (List.map Allocation.ofNumber) := by
  have hhead : ∀ p ∈ ports, inherited choices (headOf ports p).1.name = none := fun p hp =>
    hno _ (headOf_mem hports hp).1
  have hblocks : blocks ports choices = sizes ports := by
    refine List.filter_eq_self.mpr fun b hb => ?_
    obtain ⟨⟨p, hp, hname⟩, -⟩ := mem_sizes hb
    rw [hname, hhead p hp]
    rfl
  have hone : ∀ s, ∀ p ∈ ports, allocation ports choices s p =
      (Ports.allocation ports choices s p).map Allocation.ofNumber := by
    intro s p hp
    have hport : portAt choices s (headOf ports p).1.name (headOf ports p).2 =
        .number ((s.first.lookup (headOf ports p).1.name).getD 0 + (headOf ports p).2) := by
      rw [portAt, hhead p hp]
    have hother : ∀ v, chosenOther choices p.name (.number v) =
        (choices.lookup p.name).any fun chosen => chosen != v := by
      intro v
      have hp' := hno p hp
      rw [inherited] at hp'
      rw [chosenOther]
      rcases hc : choices.lookup p.name with _ | c
      · rw [hc] at hp'
        exact Option.isSome_eq_false_iff.mpr (Option.isNone_iff_eq_none.mpr hp')
      · show (PortValue.number c != .number v) = (c != v)
        rw [Bool.eq_iff_iff, bne_iff_ne, bne_iff_ne, ne_eq, PortValue.number.injEq]
    rw [allocation, Ports.allocation]
    simp only [hport, hother]
    split <;> rfl
  rw [allocatePorts, Ports.allocatePorts, hblocks]
  generalize choices.find? (fun c => (byName ports c.1).isNone) = unknown
  rcases unknown with _ | c
  · rcases placeChosen choices ⟨used, []⟩ (sizes ports) with e | s₁
    · rfl
    · rcases hrest : placeRest ports pool s₁ pool.start (sizes ports) with e | s₂
      · simp only [bind, Except.bind, hrest]
        rfl
      · simp only [bind, Except.bind, hrest]
        exact mapM_map (hone s₂)
  · rfl

/-! ## One block of the pool -/

/-- What the loop over the rest does with a block: nothing if it is placed, else it takes the default or
the next free place, where the cursor then stays. -/
theorem placeRest_cons {b : String × ℕ} {rest : List (String × ℕ)}
    (h : placeRest ports pool s cursor (b :: rest) = .ok s') :
    ((s.first.lookup b.1).isSome ∧ placeRest ports pool s cursor rest = .ok s') ∨
      ∃ start cursor', (s.first.lookup b.1).isSome = false ∧ Ports.blockFree s.taken start b.2 = true ∧
        (cursor' = cursor ∧ pool.start ≤ start ∧ start + b.2 - 1 ≤ pool.last ∨
          cursor' = start ∧ cursor ≤ start ∧ start + b.2 ≤ pool.last + 1) ∧
        placeRest ports pool (s.take b.1 start b.2) cursor' rest = .ok s' := by
  obtain ⟨name, n⟩ := b
  rw [placeRest] at h
  split at h
  · next hthere => exact .inl ⟨hthere, h⟩
  · next hthere =>
    have hnew : (s.first.lookup name).isSome = false := Bool.eq_false_iff.mpr hthere
    simp only at h
    split at h
    · next hdefault =>
      rw [Ports.defaultFree, Bool.and_eq_true, Bool.and_eq_true, decide_eq_true_eq,
        decide_eq_true_eq] at hdefault
      exact .inr ⟨_, cursor, hnew, hdefault.2, .inl ⟨rfl, hdefault.1⟩, h⟩
    · split at h
      · next c hnext =>
        refine .inr ⟨c, c, hnew, Ports.nextFree_free hnext, .inr ⟨rfl, ?_⟩, h⟩
        have hc := List.mem_of_find?_eq_some hnext
        rw [List.mem_range'_1] at hc
        omega
      · cases h

/-- The chosen blocks are where they were chosen. -/
theorem placeChosen_first {rest : List (String × ℕ)} (h : placeChosen choices s rest = .ok s') (k : String) :
    s'.first.lookup k =
      if (rest.lookup k).isSome then (choices.lookup k).or (s.first.lookup k) else s.first.lookup k := by
  induction rest generalizing s with
  | nil =>
    obtain rfl := Except.ok.inj h
    rfl
  | cons b rest ih =>
    obtain ⟨name, n⟩ := b
    rw [placeChosen] at h
    rw [List.lookup_cons]
    split at h
    · next hno =>
      rw [ih h]
      rcases hk : k == name with _ | _
      · rfl
      · obtain rfl := beq_iff_eq.mp hk
        rw [hno, Option.none_or]
        simp
    · next port hport =>
      split at h
      · rw [ih h, Placed.take, List.lookup_cons]
        rcases hk : k == name with _ | _
        · rfl
        · obtain rfl := beq_iff_eq.mp hk
          rw [hport]
          simp
      · split at h <;> cases h

/-- What was placed stays; what the pool gives lies inside it. -/
theorem placeRest_first {rest : List (String × ℕ)} (hcursor : pool.start ≤ cursor)
    (h : placeRest ports pool s cursor rest = .ok s') (k : String) :
    s'.first.lookup k = s.first.lookup k ∨ (s.first.lookup k = none ∧ ∃ start n, (k, n) ∈ rest ∧
      s'.first.lookup k = some start ∧ pool.start ≤ start ∧ start + n ≤ pool.last + 1) := by
  induction rest generalizing s cursor with
  | nil =>
    obtain rfl := Except.ok.inj h
    exact .inl rfl
  | cons b rest ih =>
    rcases placeRest_cons h with ⟨-, hrun⟩ | ⟨start, cursor', hnew, -, hwhere, hrun⟩
    · rcases ih hcursor hrun with hsame | ⟨hnone, start, n, hmem, hrest⟩
      · exact .inl hsame
      · exact .inr ⟨hnone, start, n, List.mem_cons_of_mem _ hmem, hrest⟩
    · have hcursor' : pool.start ≤ cursor' := by omega
      by_cases hk : k = b.1
      · subst hk
        have htaken : (s.take b.1 start b.2).first.lookup b.1 = some start := List.lookup_cons_self
        rcases ih hcursor' hrun with hsame | ⟨hnone, -⟩
        · refine .inr ⟨Option.isSome_eq_false_iff.mp hnew |> Option.isNone_iff_eq_none.mp, start, b.2,
            List.mem_cons_self, hsame.trans htaken, ?_⟩
          omega
        · rw [htaken] at hnone
          cases hnone
      · have hother : (s.take b.1 start b.2).first.lookup k = s.first.lookup k := by
          rw [Placed.take, List.lookup_cons, beq_eq_false_iff_ne.mpr hk]
        rcases ih hcursor' hrun with hsame | ⟨hnone, a, n, hmem, hrest⟩
        · exact .inl (hsame.trans hother)
        · exact .inr ⟨hother ▸ hnone, a, n, List.mem_cons_of_mem _ hmem, hrest⟩

/-! ## What `allocatePorts` gives -/

/-- All that is asked of an allocation: one for each port, in order, at ports of their own that nobody
uses, a follower right after its port, every choice as it was made, and what nobody chose in the pool. -/
def Right (ports : List TemplatePort) (choices : List (String × ℕ)) (used : List ℕ) (pool : Pool)
    (l : List Allocation) : Prop :=
  ∃ at' : TemplatePort → ℕ,
    l = ports.map (fun p => ⟨p.name, p.label, p.protocol, .number (at' p), p.primary⟩) ∧
      (ports.map at').Nodup ∧
      (∀ p ∈ ports, 1 ≤ at' p ∧ at' p ≤ 65535 ∧ at' p ∉ used) ∧
      (∀ p ∈ ports, ∀ q ∈ ports, p.follows = some q.name → at' p = at' q + 1) ∧
      (∀ p ∈ ports, ∀ v, choices.lookup p.name = some v → at' p = v) ∧
      ∀ p ∈ ports, choices.lookup (headOf ports p).1.name = none →
        pool.start ≤ at' p ∧ at' p ≤ pool.last

/-- The three loops of a call that returns. -/
theorem allocatePorts_eq_ok (h : allocatePorts ports choices used pool = .ok l) :
    ∃ s₁ s₂, placeChosen choices ⟨used, []⟩ (sizes ports) = .ok s₁ ∧
      placeRest ports pool s₁ pool.start (blocks ports choices) = .ok s₂ ∧
      ports.mapM (allocation ports choices s₂) = .ok l := by
  rw [allocatePorts] at h
  split at h
  · cases h
  rcases hchosen : placeChosen choices ⟨used, []⟩ (sizes ports) with e | s₁
  · rw [hchosen] at h
    cases h
  rcases hrest : placeRest ports pool s₁ pool.start (blocks ports choices) with e | s₂
  · rw [hchosen] at h
    simp only [bind, Except.bind, hrest] at h
    cases h
  · rw [hchosen] at h
    simp only [bind, Except.bind, hrest] at h
    exact ⟨s₁, s₂, rfl, hrest, h⟩

/-- A port is given where its block lies, or as a text where it has a member in place of a block. -/
theorem allocation_eq_ok {a : Allocation} (h : allocation ports choices s p = .ok a) :
    a = ⟨p.name, p.label, p.protocol, portAt choices s (headOf ports p).1.name (headOf ports p).2,
      p.primary⟩ ∧ (0 < (headOf ports p).2 → chosenOther choices p.name
        (portAt choices s (headOf ports p).1.name (headOf ports p).2) = false) := by
  rw [allocation] at h
  simp only at h
  split at h
  · cases h
  · next hno =>
    refine ⟨(Except.ok.inj h).symm, fun hpos => ?_⟩
    rw [Bool.and_eq_true, not_and, Bool.not_eq_true] at hno
    exact hno (decide_eq_true hpos)

theorem mem_of_mapM {α β ε : Type} {f : α → Except ε β} {l : List α} {l' : List β}
    (h : l.mapM f = .ok l') : ∀ a ∈ l, ∃ b, f a = .ok b := by
  induction l generalizing l' with
  | nil => exact fun _ ha => nomatch ha
  | cons a l ih =>
    rw [List.mapM_cons] at h
    rcases ha : f a with e | b
    · rw [ha] at h
      cases h
    · rcases hl : l.mapM f with e | t
      · rw [ha, hl] at h
        cases h
      · intro c hc
        rcases List.mem_cons.mp hc with rfl | hc
        · exact ⟨b, ha⟩
        · exact ih hl c hc

/-- Without a member in place of a block, all is as asked. -/
theorem right_of_noMember (hports : portsOk [] ports = true)
    (h : allocatePorts ports choices used pool = .ok l)
    (hno : ∀ p ∈ ports, p.follows = none → inherited choices p.name = none) :
    Right ports choices used pool l := by
  obtain ⟨s₁, s₂, hchosen, hrest, hmap⟩ := allocatePorts_eq_ok h
  obtain ⟨hnodup, hsizes⟩ := Ports.sizes_spec ports
  have hsub := blocks_sublist ports choices
  have hfits₁ := Ports.placeChosen_fits hnodup (fun _ he => he) (Ports.fits_start used _) hchosen
  obtain ⟨hfits, -, hall⟩ := Ports.placeRest_fits hnodup (fun b hb => hsub.subset hb) hfits₁ hrest
  have hhead : ∀ p ∈ ports, inherited choices (headOf ports p).1.name = none := fun p hp =>
    hno _ (headOf_mem hports hp).1 (headOf_mem hports hp).2
  have hport : ∀ p ∈ ports, portAt choices s₂ (headOf ports p).1.name (headOf ports p).2 =
      .number (placedPort ports s₂ p) := by
    intro p hp
    rw [portAt, hhead p hp]
    rfl
  -- the block of a port, with the place of its start
  have hblock : ∀ p ∈ ports, ∃ start n, s₂.first.lookup (headOf ports p).1.name = some start ∧
      ((headOf ports p).1.name, n) ∈ sizes ports ∧ (headOf ports p).2 < n := by
    intro p hp
    obtain ⟨n, hn, hlt⟩ := hsizes p hp
    have hmem : ((headOf ports p).1.name, n) ∈ blocks ports choices :=
      List.mem_filter.mpr ⟨hn, by rw [hhead p hp]; rfl⟩
    obtain ⟨start, hstart⟩ := Option.isSome_iff_exists.mp (hall _ hmem)
    exact ⟨start, n, hstart, hn, hlt⟩
  have hholds : ∀ p ∈ ports,
      s₂.Holds (sizes ports) (headOf ports p).1.name (placedPort ports s₂ p) := by
    intro p hp
    obtain ⟨start, n, hstart, hn, hlt⟩ := hblock p hp
    refine ⟨start, n, hstart, hn, ?_⟩
    rw [placedPort, hstart, List.mem_range'_1]
    show start ≤ start + _ ∧ start + _ < start + n
    omega
  have hfirst : ∀ k, (∃ n, (k, n) ∈ sizes ports) → s₁.first.lookup k = choices.lookup k := by
    rintro k ⟨n, hn⟩
    rw [placeChosen_first hchosen k, Ports.lookup_of_mem hnodup hn]
    exact Option.or_none
  refine ⟨placedPort ports s₂, ?_, ?_, fun p hp => hfits.free _ _ (hholds p hp), fun p hp q hq hf => ?_,
    fun p hp v hv => ?_, fun p hp hfree => ?_⟩
  · rw [Ports.mapM_eq_ok (fun _ _ ha => (allocation_eq_ok ha).1) hmap]
    exact List.map_congr_left fun p hp => by rw [hport p hp]
  · refine List.Nodup.map_on (fun p hp q hq hsame => ?_) (Ports.portsOk_spec hports).1.of_map
    have hheads := hfits.apart _ _ _ (hholds p hp) (hsame ▸ hholds q hq)
    refine Ports.headFrom_injective hports _ hp hq hheads ?_
    rw [placedPort, placedPort, hheads] at hsame
    exact Nat.add_left_cancel hsame
  · rw [placedPort, placedPort, headOf_of_follows hports hp hq hf, Nat.add_assoc]
  · rcases Nat.eq_zero_or_pos (headOf ports p).2 with hzero | hpos
    · -- a head: its block starts where it was chosen
      obtain ⟨start, n, hstart, hn, -⟩ := hblock p hp
      have hself : (headOf ports p).1 = p := by
        rcases hf : p.follows with _ | f
        · rw [headOf_of_follows_none hf]
        · obtain ⟨before, after, heq⟩ := List.append_of_mem hp
          obtain ⟨q, hq, rfl⟩ := exists_followed (heq ▸ hports) hf
          have hq' : q ∈ ports := heq ▸ List.mem_append_left _ hq
          rw [headOf_of_follows hports hp hq' hf] at hzero
          cases hzero
      rw [hself] at hstart hn
      have hchoice : s₁.first.lookup p.name = some v := (hfirst _ ⟨n, hn⟩).trans hv
      rcases placeRest_first (le_refl _) hrest p.name with hsame | ⟨hnone, -⟩
      · rw [placedPort, hself, hsame, hchoice, hzero]
        rfl
      · rw [hchoice] at hnone
        cases hnone
    · obtain ⟨a, ha⟩ := mem_of_mapM hmap p hp
      have hsame := (allocation_eq_ok ha).2 hpos
      rw [hport p hp, chosenOther, hv] at hsame
      have heq : PortValue.number v = .number (placedPort ports s₂ p) := by simpa using hsame
      exact (PortValue.number.inj heq).symm
  · obtain ⟨start, n, hstart, hn, hlt⟩ := hblock p hp
    rcases placeRest_first (le_refl _) hrest (headOf ports p).1.name with hsame | ⟨-, a, m, hm, ha, hlow, hhigh⟩
    · rw [hfirst _ ⟨n, hn⟩, hfree] at hsame
      rw [hsame] at hstart
      cases hstart
    · obtain rfl := Option.some.inj
        ((Ports.lookup_of_mem hnodup hn).symm.trans (Ports.lookup_of_mem hnodup (hsub.subset hm)))
      rw [placedPort, ha]
      show pool.start ≤ a + _ ∧ a + _ ≤ pool.last
      omega

/-- An allocation is as asked just where no block's first port is called like a member that the choices
inherit: of the names the schema admits, where no such port is called `constructor`, unless its port was
chosen. -/
theorem allocatePorts_right_iff (hports : templatePorts ports = true)
    (h : allocatePorts ports choices used pool = .ok l) :
    Right ports choices used pool l ↔
      ∀ p ∈ ports, p.follows = none → p.name = "constructor" → (choices.lookup p.name).isSome := by
  obtain ⟨-, hschema, hok⟩ := templatePorts_spec hports
  constructor
  · rintro ⟨at', hl, -⟩ p hp hnone hname
    by_contra hfree
    have hmember : (inherited choices p.name).isSome :=
      (inherited_iff (portName_of_templatePort (hschema p hp))).mpr ⟨hname, Option.not_isSome_iff_eq_none.mp hfree⟩
    obtain ⟨member, hm⟩ := Option.isSome_iff_exists.mp hmember
    obtain ⟨-, s₂, -, -, hmap⟩ := allocatePorts_eq_ok h
    -- what it is given is a text
    have hgiven := Ports.mapM_eq_ok (fun _ _ ha => (allocation_eq_ok ha).1) hmap
    rw [hl, List.map_inj_left] at hgiven
    have hp' := congrArg Allocation.port (hgiven p hp)
    rw [headOf_of_follows_none hnone, portAt, hm] at hp'
    cases hp'
  · intro hchosen
    refine right_of_noMember hok h fun p hp hnone => ?_
    rcases hi : inherited choices p.name with _ | member
    · rfl
    · obtain ⟨hname, hfree⟩ := (inherited_iff (portName_of_templatePort (hschema p hp))).mp
        (Option.isSome_iff_exists.mpr ⟨member, hi⟩)
      have := hchosen p hp hnone hname
      rw [hfree] at this
      cases this

/-- A game port and the two after it. -/
def sevenDays : List TemplatePort :=
  [⟨"game", "game", .both, 26900, true, none⟩, ⟨"game_2", "game_2", .udp, 26901, false, some "game"⟩,
    ⟨"game_3", "game_3", .udp, 26902, false, some "game_2"⟩]

theorem allocatePorts_right_sevenDays : ∃ l, allocatePorts sevenDays [] [26902] ⟨26900, 26999⟩ = .ok l ∧
    Right sevenDays [] [26902] ⟨26900, 26999⟩ l := by
  have hrun : allocatePorts sevenDays [] [26902] ⟨26900, 26999⟩ =
      .ok [⟨"game", "game", .both, .number 26903, true⟩, ⟨"game_2", "game_2", .udp, .number 26904, false⟩,
        ⟨"game_3", "game_3", .udp, .number 26905, false⟩] := by decide +kernel
  exact ⟨_, hrun, (allocatePorts_right_iff (by decide +kernel) hrun).mpr (by decide +kernel)⟩

/-- A template's only port, called as the schema allows. -/
def constructorPort : List TemplatePort := [⟨"constructor", "Constructor", .tcp, 30000, true, none⟩]

/-- It is given the text of a function as its port. -/
theorem allocatePorts_not_right : ∃ l, templatePorts constructorPort = true ∧
    allocatePorts constructorPort [] [] ⟨30000, 30099⟩ = .ok l ∧
    l.map (·.port) = [.text "function Object() \x7b [native code] \x7d0"] ∧
    ¬ Right constructorPort [] [] ⟨30000, 30099⟩ l := by
  have hrun : allocatePorts constructorPort [] [] ⟨30000, 30099⟩ = .ok [⟨"constructor", "Constructor", .tcp,
      .text "function Object() \x7b [native code] \x7d0", true⟩] := by decide +kernel
  refine ⟨_, by decide +kernel, hrun, rfl, ?_⟩
  rintro ⟨at', hl, -⟩
  rw [constructorPort, List.map_singleton] at hl
  have hport := congrArg Allocation.port (List.cons.inj hl).1
  cases hport

-- the equations that later modules rewrite with, stated here once
attribute [local simp] Server.PortBlocks.allocatePorts Server.PortBlocks.allocation

end Server.PortBlocks
