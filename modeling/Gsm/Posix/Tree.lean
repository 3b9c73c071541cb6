import Mathlib.Data.List.Dedup
import Mathlib.Data.List.Infix
import Mathlib.Data.List.Induction
import Mathlib.Data.List.Lex
import Mathlib.Data.List.Sort

/-!
# Trees of directories, files and symbolic links

A tree maps places to nodes. A place is the list of names on the way down from `/` through real
directories, so two paths that lead to one node through links still name one place. The structure
keeps the tree closed upwards: whatever exists has directories above it.

Names and file contents are parameters. There are no hard links: a node has one place.
-/

namespace Posix

variable {α β : Type*}

/-- A place in the tree: the names from `/` down, through directories only. -/
abbrev Loc (α : Type*) := List α

/-- A component of a path as it is written. -/
inductive Seg (α : Type*) where
  | here
  | up
  | name (n : α)
deriving DecidableEq

/-- What a symbolic link says. -/
structure Target (α : Type*) where
  absolute : Bool
  segs : List (Seg α)
deriving DecidableEq

inductive Kind (α β : Type*) where
  | dir
  | file (data : β)
  | link (target : Target α)
  | special

/-- The part of a node that path lookup depends on. -/
inductive Shape (α : Type*) where
  | dir
  | leaf
  | link (target : Target α)
deriving DecidableEq

def Kind.shape : Kind α β → Shape α
  | .dir => .dir
  | .file _ => .leaf
  | .link t => .link t
  | .special => .leaf

structure Node (α β : Type*) where
  kind : Kind α β
  mode : ℕ
  uid : ℕ
  gid : ℕ

def Node.shape (nd : Node α β) : Shape α := nd.kind.shape

/-- A finite tree in which every node but the root lies in a directory. -/
structure Tree (α β : Type*) where
  node : Loc α → Option (Node α β)
  keys : List (Loc α)
  mem_keys : ∀ l, node l ≠ none → l ∈ keys
  root_dir : (node []).map Node.shape = some .dir
  parent_dir : ∀ p n, node (p ++ [n]) ≠ none → (node p).map Node.shape = some .dir

namespace Tree

/-- What lookup sees at a place. -/
def look (t : Tree α β) (l : Loc α) : Option (Shape α) := (t.node l).map Node.shape

theorem look_eq_none {t : Tree α β} {l : Loc α} : t.look l = none ↔ t.node l = none := by
  simp [look]

theorem node_ne_none {t : Tree α β} {l : Loc α} {s : Shape α} (h : t.look l = some s) :
    t.node l ≠ none := by
  intro hn
  simp [look, hn] at h

@[simp] theorem look_root (t : Tree α β) : t.look [] = some .dir := t.root_dir

theorem look_parent {t : Tree α β} {p : Loc α} {n : α} (h : t.node (p ++ [n]) ≠ none) :
    t.look p = some .dir := t.parent_dir p n h

/-- Everything above an existing node is a directory. -/
theorem look_above {t : Tree α β} {p q : Loc α} (hq : q ≠ []) (h : t.node (p ++ q) ≠ none) :
    t.look p = some .dir := by
  induction q using List.reverseRecOn with
  | nil => exact absurd rfl hq
  | append_singleton q n ih =>
      rw [← List.append_assoc] at h
      by_cases hnil : q = []
      · subst hnil
        simpa using look_parent h
      · exact ih hnil (node_ne_none (look_parent h))

/-- Below something that is not a directory nothing exists. -/
theorem node_below {t : Tree α β} {p q : Loc α} (hq : q ≠ []) (h : t.look p ≠ some .dir) :
    t.node (p ++ q) = none := by
  by_contra hne
  exact h (look_above hq hne)

/-- `t'` is `t` with some nodes taken away. -/
def Sub (t' t : Tree α β) : Prop := ∀ l, t'.node l = none ∨ t'.node l = t.node l

@[refl] theorem Sub.refl (t : Tree α β) : Sub t t := fun _ => .inr rfl

@[trans] theorem Sub.trans {t₁ t₂ t₃ : Tree α β} (h : Sub t₁ t₂) (h' : Sub t₂ t₃) : Sub t₁ t₃ := by
  intro l
  rcases h l with hl | hl
  · exact .inl hl
  · rw [hl]
    exact h' l

theorem Sub.look {t' t : Tree α β} (h : Sub t' t) {x : Loc α} {s : Shape α}
    (hs : t'.look x = some s) : t.look x = some s := by
  rcases h x with hx | hx
  · exact absurd hx (node_ne_none hs)
  · rwa [Tree.look, ← hx]

/-! ## Changing a tree -/

variable [LinearOrder α]

/-- Change a node in place without changing what lookup sees of it. -/
def alter (t : Tree α β) (l : Loc α) (f : Node α β → Node α β)
    (hf : ∀ nd, (f nd).shape = nd.shape) : Tree α β where
  node x := if x = l then (t.node x).map f else t.node x
  keys := t.keys
  mem_keys x h := by
    refine t.mem_keys x ?_
    split at h <;> simp_all
  root_dir := by
    have hroot := t.root_dir
    split
    · rw [Option.map_map, show Node.shape ∘ f = Node.shape from funext hf]
      exact hroot
    · exact hroot
  parent_dir p n h := by
    have hne : t.node (p ++ [n]) ≠ none := by
      split at h <;> simp_all
    have hp := t.parent_dir p n hne
    split
    · rw [Option.map_map, show Node.shape ∘ f = Node.shape from funext hf]
      exact hp
    · exact hp

/-- Put a new node into a directory under a name that is free; otherwise nothing happens. -/
def create (t : Tree α β) (d : Loc α) (n : α) (nd : Node α β) : Tree α β :=
  if h : t.look d = some .dir ∧ t.node (d ++ [n]) = none then
    { node := fun x => if x = d ++ [n] then some nd else t.node x
      keys := (d ++ [n]) :: t.keys
      mem_keys := fun x hx => by
        by_cases hxd : x = d ++ [n]
        · simp [hxd]
        · simp only [hxd, if_false] at hx
          exact List.mem_cons_of_mem _ (t.mem_keys x hx)
      root_dir := by simpa using t.root_dir
      parent_dir := fun p m hm => by
        have hp : t.look p = some .dir := by
          by_cases hpm : p ++ [m] = d ++ [n]
          · rw [(List.append_inj' hpm rfl).1]
            exact h.1
          · simp only [hpm, if_false] at hm
            exact look_parent hm
        have hne : p ≠ d ++ [n] := fun he => node_ne_none hp (he ▸ h.2)
        simpa [hne, look] using hp }
  else t

/-- Take a node and everything below it out of the tree; the root stays. -/
def remove (t : Tree α β) (l : Loc α) : Tree α β :=
  if hl : l = [] then t else
    { node := fun x => if l <+: x then none else t.node x
      keys := t.keys
      mem_keys := fun x hx => by
        split at hx
        · exact absurd rfl hx
        · exact t.mem_keys x hx
      root_dir := by
        have : ¬ l <+: [] := by simpa using hl
        simpa [this] using t.root_dir
      parent_dir := fun p n hx => by
        split at hx
        · exact absurd rfl hx
        · next hpre =>
          have : ¬ l <+: p := fun hp => hpre (hp.trans (List.prefix_append p [n]))
          simpa [this] using t.parent_dir p n hx }

/-- Where a node at `x` came from when `src` was moved to `dst`. -/
def movedFrom (src dst x : Loc α) : Loc α := src ++ x.drop dst.length

/-- Move a node with everything below it to a free name of a directory outside it; otherwise
nothing happens. -/
def move (t : Tree α β) (src d : Loc α) (n : α) : Tree α β :=
  if h : src ≠ [] ∧ t.look d = some .dir ∧ t.node (d ++ [n]) = none ∧ ¬ src <+: d ++ [n] then
    { node := fun x =>
        if d ++ [n] <+: x then t.node (movedFrom src (d ++ [n]) x)
        else if src <+: x then none else t.node x
      keys := t.keys ++ t.keys.map fun x => d ++ [n] ++ x.drop src.length
      mem_keys := fun x hx => by
        split at hx
        · next hpre =>
          obtain ⟨y, rfl⟩ := hpre
          refine List.mem_append_right _ (List.mem_map.mpr ⟨_, t.mem_keys _ hx, ?_⟩)
          simp [movedFrom]
        · split at hx
          · exact absurd rfl hx
          · exact List.mem_append_left _ (t.mem_keys x hx)
      root_dir := by
        have h1 : ¬ src <+: [] := by simpa using h.1
        simpa [h1] using t.root_dir
      parent_dir := fun p m hx => by
        have hdn : ¬ d ++ [n] <+: d := fun hp => by
          have := hp.length_le
          simp only [List.length_append, List.length_singleton] at this
          omega
        have hsd : ¬ src <+: d := fun hp => h.2.2.2 (hp.trans (List.prefix_append d [n]))
        split at hx
        · next hpre =>
          by_cases hp : d ++ [n] <+: p
          · obtain ⟨y, rfl⟩ := hp
            have hmv : movedFrom src (d ++ [n]) (d ++ [n] ++ y ++ [m]) = src ++ y ++ [m] := by
              simp [movedFrom]
            rw [hmv] at hx
            have := t.parent_dir _ _ hx
            simpa [movedFrom] using this
          · -- only the moved node itself has its parent outside the moved part
            have heq : d ++ [n] = p ++ [m] := by
              rcases List.prefix_concat_iff.mp hpre with he | hp'
              · exact he
              · exact absurd hp' hp
            obtain ⟨rfl, -⟩ := List.append_inj' heq rfl
            simpa [hdn, hsd, look] using h.2.1
        · next hpre =>
          split at hx
          · exact absurd rfl hx
          · next hpre' =>
            have h1 : ¬ d ++ [n] <+: p := fun hp => hpre (hp.trans (List.prefix_append p [m]))
            have h2 : ¬ src <+: p := fun hp => hpre' (hp.trans (List.prefix_append p [m]))
            simpa [h1, h2] using t.parent_dir p m hx }
  else t

/-- Only the root directory. -/
def empty : Tree α β where
  node x := if x = [] then some ⟨.dir, 0o755, 0, 0⟩ else none
  keys := [[]]
  mem_keys x hx := by simpa using hx
  root_dir := rfl
  parent_dir p n hx := by simp at hx

/-- The nodes of a list put into an empty tree, one after another. -/
def build (entries : List (Loc α × α × Node α β)) : Tree α β :=
  entries.foldl (fun t e => t.create e.1 e.2.1 e.2.2) empty

/-! ## What is where afterwards -/

@[simp] theorem node_alter (t : Tree α β) (l x : Loc α) (f : Node α β → Node α β)
    (hf : ∀ nd, (f nd).shape = nd.shape) :
    (t.alter l f hf).node x = if x = l then (t.node x).map f else t.node x := rfl

@[simp] theorem look_alter (t : Tree α β) (l : Loc α) (f : Node α β → Node α β)
    (hf : ∀ nd, (f nd).shape = nd.shape) : (t.alter l f hf).look = t.look := by
  funext x
  simp only [look, node_alter]
  split
  · rw [Option.map_map, show Node.shape ∘ f = Node.shape from funext hf]
  · rfl

theorem node_create {t : Tree α β} {d : Loc α} {n : α} {nd : Node α β}
    (hd : t.look d = some .dir) (hn : t.node (d ++ [n]) = none) (x : Loc α) :
    (t.create d n nd).node x = if x = d ++ [n] then some nd else t.node x := by
  simp only [create, dif_pos (And.intro hd hn)]

theorem look_create {t : Tree α β} {d : Loc α} {n : α} (nd : Node α β)
    (hd : t.look d = some .dir) (hn : t.node (d ++ [n]) = none) (x : Loc α) :
    (t.create d n nd).look x = if x = d ++ [n] then some nd.shape else t.look x := by
  simp only [look, node_create hd hn]
  split <;> rfl

/-- Creating a node leaves everything else as it was, also when it is refused. -/
theorem node_create_ne (t : Tree α β) {d : Loc α} {n : α} (nd : Node α β) {x : Loc α}
    (hx : x ≠ d ++ [n]) : (t.create d n nd).node x = t.node x := by
  by_cases h : t.look d = some .dir ∧ t.node (d ++ [n]) = none
  · rw [node_create h.1 h.2, if_neg hx]
  · simp only [create, dif_neg h]

theorem node_remove_below (t : Tree α β) {l x : Loc α} (hl : l ≠ []) (hx : l <+: x) :
    (t.remove l).node x = none := by
  simp [remove, hl, hx]

theorem node_remove_ne (t : Tree α β) {l x : Loc α} (hx : ¬ l <+: x) :
    (t.remove l).node x = t.node x := by
  by_cases hl : l = []
  · simp [remove, hl]
  · simp [remove, hl, hx]

theorem node_move {t : Tree α β} {src d : Loc α} {n : α}
    (h : src ≠ [] ∧ t.look d = some .dir ∧ t.node (d ++ [n]) = none ∧ ¬ src <+: d ++ [n])
    (x : Loc α) :
    (t.move src d n).node x =
      if d ++ [n] <+: x then t.node (movedFrom src (d ++ [n]) x)
      else if src <+: x then none else t.node x := by
  simp only [move, dif_pos h]

theorem node_move_ne (t : Tree α β) {src d : Loc α} {n : α} {x : Loc α}
    (hs : ¬ src <+: x) (hd : ¬ d ++ [n] <+: x) : (t.move src d n).node x = t.node x := by
  by_cases h : src ≠ [] ∧ t.look d = some .dir ∧ t.node (d ++ [n]) = none ∧ ¬ src <+: d ++ [n]
  · rw [node_move h, if_neg hd, if_neg hs]
  · simp only [move, dif_neg h]

/-- Moving a file leaves no directory and no link where there was none. -/
theorem look_move_file {t : Tree α β} {src d : Loc α} {n : α} {x : Loc α} {s : Shape α}
    (hsrc : t.look src = some .leaf) (h : (t.move src d n).look x = some s) (hs : s ≠ .leaf) :
    t.look x = some s := by
  by_cases hm : src ≠ [] ∧ t.look d = some .dir ∧ t.node (d ++ [n]) = none ∧ ¬ src <+: d ++ [n]
  · rw [look, node_move hm] at h
    split at h
    · next hpre =>
      obtain ⟨y, rfl⟩ := hpre
      have hfrom : movedFrom src (d ++ [n]) (d ++ [n] ++ y) = src ++ y := by simp [movedFrom]
      rw [hfrom] at h
      by_cases hy : y = []
      · subst hy
        rw [List.append_nil] at h
        exact absurd (Option.some.inj (h.symm.trans hsrc)) hs
      · rw [node_below hy (by simp [hsrc])] at h
        cases h
    · split at h
      · cases h
      · exact h
  · rwa [move, dif_neg hm] at h

theorem look_remove {t : Tree α β} {l x : Loc α} {s : Shape α} (h : (t.remove l).look x = some s) :
    t.look x = some s := by
  by_cases hl : l = []
  · simpa [remove, hl] using h
  · by_cases hx : l <+: x
    · rw [look, node_remove_below t hl hx] at h
      cases h
    · rwa [look, node_remove_ne t hx] at h

theorem look_remove_eq (t : Tree α β) {l : Loc α} (hl : l ≠ []) (x : Loc α) :
    (t.remove l).look x = if l <+: x then none else t.look x := by
  split
  · next hx => exact look_eq_none.mpr (node_remove_below t hl hx)
  · next hx => rw [look, look, node_remove_ne t hx]

theorem sub_remove (t : Tree α β) (l : Loc α) : Sub (t.remove l) t := by
  intro x
  by_cases hl : l = []
  · exact .inr (by simp [remove, hl])
  · by_cases hx : l <+: x
    · exact .inl (node_remove_below t hl hx)
    · exact .inr (node_remove_ne t hx)

/-! ## Listing -/

/-- The names in a directory, sorted. -/
def names (t : Tree α β) (d : Loc α) : List α :=
  ((t.keys.filter fun x => x.dropLast = d ∧ x ≠ [] ∧ t.node x ≠ none).filterMap
    List.getLast?).dedup.insertionSort (· ≤ ·)

theorem mem_names {t : Tree α β} {d : Loc α} {n : α} (h : t.node (d ++ [n]) ≠ none) :
    n ∈ t.names d := by
  rw [names, List.mem_insertionSort, List.mem_dedup, List.mem_filterMap]
  exact ⟨d ++ [n], by simp [t.mem_keys _ h, h], by simp⟩

/-- Everything below a place, each directory before its contents and siblings by name. -/
def below (t : Tree α β) (l : Loc α) : List (List α) :=
  ((t.keys.filter fun x => l <+: x ∧ x ≠ l ∧ t.node x ≠ none).map
    fun x => x.drop l.length).dedup.insertionSort (· ≤ ·)

theorem mem_below {t : Tree α β} {l : Loc α} {x : List α} (h : x ∈ t.below l) :
    x ≠ [] ∧ t.node (l ++ x) ≠ none := by
  rw [below, List.mem_insertionSort, List.mem_dedup, List.mem_map] at h
  obtain ⟨y, hy, rfl⟩ := h
  obtain ⟨-, hy⟩ := List.mem_filter.mp hy
  obtain ⟨⟨z, rfl⟩, hne, hn⟩ := of_decide_eq_true hy
  rw [List.drop_left]
  exact ⟨by simpa using hne, hn⟩

theorem mem_below_of_node {t : Tree α β} {l : Loc α} {x : List α} (hx : x ≠ [])
    (hn : t.node (l ++ x) ≠ none) : x ∈ t.below l := by
  rw [below, List.mem_insertionSort, List.mem_dedup, List.mem_map]
  refine ⟨l ++ x, List.mem_filter.mpr ⟨t.mem_keys _ hn, ?_⟩, List.drop_left⟩
  simp [hx, hn]

-- the equations that later modules rewrite with, stated here once
attribute [local simp] Posix.Kind.shape Posix.Node.shape

end Tree

end Posix
