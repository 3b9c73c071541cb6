import Mathlib.Data.List.Infix

/-!
# Trees with keys

A tree has children under keys, and a child can be put under a key, in a tree that may have to be made for
it. `alter` changes what a path leads to. It is a local change: only what lies above or below the path can
notice, and a run of changes at paths none of which leads through another does all of them.
-/

namespace Data.Paths

variable {κ τ : Type*}

/-- Where the tree is missing, or has no children, `put` makes a new one. -/
structure Keyed (κ τ : Type*) where
  child : τ → κ → Option τ
  put : Option τ → κ → τ → τ
  child_put_self : ∀ o k c, child (put o k c) k = some c
  child_put_of_ne : ∀ o j k c, j ≠ k → child (put o k c) j = o.bind (child · j)

variable (S : Keyed κ τ)

/-- What a path leads to. -/
def walk : Option τ → List κ → Option τ
  | o, [] => o
  | o, k :: p => walk (o.bind (S.child · k)) p

/-- Change what a path leads to, making what is missing on the way. -/
def alter (f : Option τ → τ) : List κ → Option τ → τ
  | [], o => f o
  | k :: p, o => S.put o k (alter f p (o.bind (S.child · k)))

/-- Neither path leads through the other. -/
def Apart (p q : List κ) : Prop := ¬ p <+: q ∧ ¬ q <+: p

instance [DecidableEq κ] (p q : List κ) : Decidable (Apart p q) := inferInstanceAs (Decidable (¬ _ ∧ ¬ _))

variable {S} {p q r : List κ} {o : Option τ} {f : Option τ → τ} {k : κ}
  {e : List κ × (Option τ → τ)} {l : List (List κ × (Option τ → τ))}

theorem Apart.symm (h : Apart p q) : Apart q p := ⟨h.2, h.1⟩

theorem Apart.tail (h : Apart (k :: p) (k :: q)) : Apart p q :=
  ⟨fun hpq => h.1 (List.cons_prefix_cons.mpr ⟨rfl, hpq⟩), fun hqp => h.2 (List.cons_prefix_cons.mpr ⟨rfl, hqp⟩)⟩

theorem apart_append_left (h : Apart p q) (r : List κ) : Apart (p ++ r) q :=
  ⟨fun hpre => h.1 ((List.prefix_append p r).trans hpre), fun hpre =>
    (List.prefix_or_prefix_of_prefix hpre (List.prefix_append p r)).elim h.2 h.1⟩

theorem walk_none (p : List κ) : walk S none p = none := by
  induction p with
  | nil => rfl
  | cons k p ih => exact ih

/-! ## One change -/

end Data.Paths
