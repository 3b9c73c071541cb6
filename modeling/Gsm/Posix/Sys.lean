import Gsm.Posix.Journal

/-!
# Programs of system calls

A program runs on a journal and gives a result or a failure and a later journal; the journal is kept
when it fails. The calls are those of a POSIX kernel on absolute paths. `stays_bind` splits the
question where a program reaches into one question for each call, asked on the tree as that call
finds it.
-/

namespace Posix

/-- How a program fails: a call was refused, or the program itself gave up. -/
inductive Failure (μ : Type*) where
  | errno (e : Errno)
  | other (m : μ)
deriving DecidableEq

structure Sys (α β μ γ : Type) where
  run : Journal α β → Except (Failure μ) γ × Journal α β
  later : ∀ j : Journal α β, j.Before (run j).2

namespace Sys

variable {α β μ γ δ : Type}

def ret (a : γ) : Sys α β μ γ where
  run j := (.ok a, j)
  later j := .refl j

def throw (e : Failure μ) : Sys α β μ γ where
  run j := (.error e, j)
  later j := .refl j

def bind (m : Sys α β μ γ) (f : γ → Sys α β μ δ) : Sys α β μ δ where
  run j :=
    match m.run j with
    | (.ok a, j') => (f a).run j'
    | (.error e, j') => (.error e, j')
  later j := by
    have hm := m.later j
    split
    · next a j' hr =>
      rw [hr] at hm
      exact hm.trans ((f a).later j')
    · next e j' hr =>
      rw [hr] at hm
      exact hm

instance : Monad (Sys α β μ) where
  pure := ret
  bind := bind

/-- Run `m` and hand its outcome on, failure or not. -/
def attempt (m : Sys α β μ γ) : Sys α β μ (Except (Failure μ) γ) where
  run j := (.ok (m.run j).1, (m.run j).2)
  later j := m.later j

/-- A call that only looks at the tree. -/
def look (f : Tree α β → Except (Failure μ) γ) : Sys α β μ γ where
  run j := (f j.tree, j)
  later j := .refl j

@[simp] theorem run_pure (a : γ) (j : Journal α β) :
    (pure a : Sys α β μ γ).run j = (.ok a, j) := rfl

@[simp] theorem run_throw (e : Failure μ) (j : Journal α β) :
    (throw e : Sys α β μ γ).run j = (.error e, j) := rfl

@[simp] theorem run_attempt (m : Sys α β μ γ) (j : Journal α β) :
    m.attempt.run j = (.ok (m.run j).1, (m.run j).2) := rfl

@[simp] theorem run_look (f : Tree α β → Except (Failure μ) γ) (j : Journal α β) :
    (look f).run j = (f j.tree, j) := rfl

theorem ext_run {m m' : Sys α β μ γ} (h : ∀ j, m.run j = m'.run j) : m = m' := by
  obtain ⟨run, later⟩ := m
  obtain ⟨run', later'⟩ := m'
  obtain rfl : run = run' := funext h
  rfl

theorem run_bind (m : Sys α β μ γ) (f : γ → Sys α β μ δ) (j : Journal α β) :
    (m >>= f).run j =
      match m.run j with
      | (.ok a, j') => (f a).run j'
      | (.error e, j') => (.error e, j') := rfl

/-- The rest of a program runs where its beginning has succeeded. -/
theorem run_bind_ok {m : Sys α β μ γ} {f : γ → Sys α β μ δ} {j j' : Journal α β} {a : γ}
    (h : m.run j = (.ok a, j')) : (m >>= f).run j = (f a).run j' := by
  rw [run_bind, h]

theorem run_bind_error {m : Sys α β μ γ} {f : γ → Sys α β μ δ} {j j' : Journal α β}
    {e : Failure μ} (h : m.run j = (.error e, j')) : (m >>= f).run j = (.error e, j') := by
  rw [run_bind, h]

/-- A successful run of a sequence, taken apart. -/
theorem run_bind_eq_ok {m : Sys α β μ γ} {f : γ → Sys α β μ δ} {j j'' : Journal α β} {b : δ} :
    (m >>= f).run j = (.ok b, j'') ↔
      ∃ a j', m.run j = (.ok a, j') ∧ (f a).run j' = (.ok b, j'') := by
  rw [run_bind]
  rcases hm : m.run j with ⟨e | a, j'⟩
  · simp
  · constructor
    · exact fun h => ⟨a, j', rfl, h⟩
    · rintro ⟨_, _, h, h'⟩
      cases h
      exact h'

theorem run_bind_assoc {ε : Type} (m : Sys α β μ γ) (f : γ → Sys α β μ δ) (g : δ → Sys α β μ ε)
    (j : Journal α β) : (m >>= f >>= g).run j = (m >>= fun a => f a >>= g).run j := by
  rcases hm : m.run j with ⟨e | a, j'⟩
  · rw [run_bind_error hm, run_bind_error (run_bind_error hm)]
  · rw [run_bind_ok hm, run_bind, run_bind_ok hm, run_bind]

/-- Run `m`, then `c`, whatever came of `m` and of `c`. -/
def deferring (c : Sys α β μ δ) (m : Sys α β μ γ) : Sys α β μ γ where
  run j := ((m.run j).1, (c.run (m.run j).2).2)
  later j := (m.later j).trans (c.later _)

theorem run_deferring_eq_ok {c : Sys α β μ δ} {m : Sys α β μ γ} {j j'' : Journal α β} {a : γ} :
    (deferring c m).run j = (.ok a, j'') ↔
      ∃ j', m.run j = (.ok a, j') ∧ (c.run j').2 = j'' := by
  simp only [deferring, Prod.mk.injEq]
  constructor
  · rintro ⟨h, h'⟩
    exact ⟨(m.run j).2, by rw [← h], h'⟩
  · rintro ⟨j', h, h'⟩
    rw [h]
    exact ⟨rfl, h'⟩

/-! ## Where a program reaches -/

/-- Started on `j`, the program makes its accesses of the given kinds inside `R`. -/
def StaysIn (acts : Act → Prop) (R : Loc α) (m : Sys α β μ γ) (j : Journal α β) : Prop :=
  j.Stays acts R (m.run j).2

variable {acts : Act → Prop} {R : Loc α} {j : Journal α β}

@[simp] theorem staysIn_pure (a : γ) : StaysIn acts R (pure a : Sys α β μ γ) j :=
  Journal.Stays.refl j

@[simp] theorem staysIn_throw (e : Failure μ) : StaysIn acts R (throw e : Sys α β μ γ) j :=
  Journal.Stays.refl j

@[simp] theorem staysIn_look (f : Tree α β → Except (Failure μ) γ) : StaysIn acts R (look f) j :=
  Journal.Stays.refl j

@[simp] theorem staysIn_attempt (m : Sys α β μ γ) :
    StaysIn acts R m.attempt j ↔ StaysIn acts R m j := Iff.rfl

/-- A sequence stays inside exactly when its beginning does and, where that succeeds, the rest. -/
theorem staysIn_bind {m : Sys α β μ γ} {f : γ → Sys α β μ δ} :
    StaysIn acts R (m >>= f) j ↔
      StaysIn acts R m j ∧ ∀ a j', m.run j = (.ok a, j') → StaysIn acts R (f a) j' := by
  unfold StaysIn
  rcases hm : m.run j with ⟨e | a, j'⟩
  · rw [run_bind_error hm]
    simp
  · have hm' := m.later j
    rw [run_bind_ok hm]
    rw [hm] at hm'
    rw [Journal.stays_split hm' ((f a).later j')]
    simp only [Prod.mk.injEq, Except.ok.injEq]
    constructor
    · rintro ⟨h, h'⟩
      exact ⟨h, by rintro _ _ ⟨rfl, rfl⟩; exact h'⟩
    · rintro ⟨h, h'⟩
      exact ⟨h, h' _ _ ⟨rfl, rfl⟩⟩

theorem staysIn_bind_ok {m : Sys α β μ γ} {f : γ → Sys α β μ δ} {j' : Journal α β} {a : γ}
    (h : m.run j = (.ok a, j')) :
    StaysIn acts R (m >>= f) j ↔ StaysIn acts R m j ∧ StaysIn acts R (f a) j' := by
  rw [staysIn_bind, h]
  simp only [Prod.mk.injEq, Except.ok.injEq, and_congr_right_iff]
  refine fun _ => ⟨fun h => h _ _ ⟨rfl, rfl⟩, ?_⟩
  rintro h _ _ ⟨rfl, rfl⟩
  exact h

theorem staysIn_bind_error {m : Sys α β μ γ} {f : γ → Sys α β μ δ} {j' : Journal α β}
    {e : Failure μ} (h : m.run j = (.error e, j')) :
    StaysIn acts R (m >>= f) j ↔ StaysIn acts R m j := by
  rw [staysIn_bind, h]
  simp

/-- Run on a tree, the program accesses only nodes at or below `R` and leaves all others as they
were. -/
def Confined (R : Loc α) (m : Sys α β μ γ) (t : Tree α β) : Prop :=
  m.StaysIn (fun _ => True) R (.of t) ∧ ∀ l, ¬ R <+: l → (m.run (.of t)).2.tree.node l = t.node l

/-- What no access lies outside of is confined: the journal frames the rest. -/
theorem confined_iff {m : Sys α β μ γ} {t : Tree α β} :
    Confined R m t ↔ m.StaysIn (fun _ => True) R (.of t) := by
  refine ⟨And.left, fun h => ⟨h, fun l hl => ?_⟩⟩
  have hin := Journal.stays_of_iff.mp h
  have hstart := (m.later (.of t)).start
  rw [Journal.frame _ (fun a ha _ => hin a ha trivial) hl, hstart]
  rfl

/-- Where the program succeeds, it has changed only nodes at or below `R`. -/
def ErrsOrStays (R : Loc α) (m : Sys α β μ γ) (t : Tree α β) : Prop :=
  ∀ a j', m.run (.of t) = (.ok a, j') →
    (Journal.of t).Stays Act.changes R j' ∧ ∀ l, ¬ R <+: l → j'.tree.node l = t.node l

theorem errsOrStays_iff {m : Sys α β μ γ} {t : Tree α β} :
    ErrsOrStays R m t ↔
      ∀ a j', m.run (.of t) = (.ok a, j') → (Journal.of t).Stays Act.changes R j' := by
  refine ⟨fun h a j' hrun => (h a j' hrun).1, fun h a j' hrun => ⟨h a j' hrun, fun l hl => ?_⟩⟩
  have hin := Journal.stays_of_iff.mp (h a j' hrun)
  have hstart := (m.later (.of t)).start
  rw [hrun] at hstart
  rw [Journal.frame _ hin hl, hstart]
  rfl

/-- The program changes nothing, on whatever it is run. -/
def ReadsOnly (m : Sys α β μ γ) : Prop :=
  ∀ j : Journal α β, j.Quiet (m.run j).2

theorem readsOnly_pure (a : γ) : ReadsOnly (pure a : Sys α β μ γ) := fun j => .refl j

theorem readsOnly_throw (e : Failure μ) : ReadsOnly (throw e : Sys α β μ γ) := fun j => .refl j

theorem readsOnly_look (f : Tree α β → Except (Failure μ) γ) : ReadsOnly (look f) :=
  fun j => .refl j

theorem ReadsOnly.attempt {m : Sys α β μ γ} (h : ReadsOnly m) : ReadsOnly m.attempt := h

theorem ReadsOnly.bind {m : Sys α β μ γ} {f : γ → Sys α β μ δ} (h : ReadsOnly m)
    (hf : ∀ a, ReadsOnly (f a)) : ReadsOnly (m >>= f) := by
  intro j
  have hj := h j
  rw [run_bind]
  rcases hm : m.run j with ⟨e | a, j'⟩ <;> rw [hm] at hj
  · exact hj
  · exact hj.trans (hf a j')

theorem ReadsOnly.run {m : Sys α β μ γ} {j j' : Journal α β} {r : Except (Failure μ) γ}
    (h : ReadsOnly m) (hrun : m.run j = (r, j')) : j.Quiet j' := by
  have := h j
  rwa [hrun] at this

/-- Whatever the program fails with satisfies `P`. -/
def Raises (P : Failure μ → Prop) (m : Sys α β μ γ) : Prop :=
  ∀ j : Journal α β, ∀ e, (m.run j).1 = .error e → P e

section

variable {P : Failure μ → Prop}

theorem raises_pure (a : γ) : Raises P (pure a : Sys α β μ γ) := fun _ _ h => by cases h

theorem raises_throw {e : Failure μ} (h : P e) : Raises P (throw e : Sys α β μ γ) :=
  fun _ _ he => by cases he; exact h

theorem raises_look {f : Tree α β → Except (Failure μ) γ} (h : ∀ t e, f t = .error e → P e) :
    Raises P (look f) := fun j => h j.tree

theorem raises_attempt (m : Sys α β μ γ) : Raises P m.attempt := fun _ _ h => by cases h

theorem Raises.bind {m : Sys α β μ γ} {f : γ → Sys α β μ δ} (h : Raises P m)
    (hf : ∀ a, Raises P (f a)) : Raises P (m >>= f) := by
  intro j e he
  rcases hm : m.run j with ⟨e' | a, j'⟩
  · rw [run_bind_error hm] at he
    cases he
    exact h j e (by rw [hm])
  · rw [run_bind_ok hm] at he
    exact hf a j' e he

end

/-! ## The accesses -/

/-- A program that only steps the journal on. -/
def effect (f : Journal α β → Journal α β) (h : ∀ j : Journal α β, j.Before (f j)) :
    Sys α β μ Unit where
  run j := (.ok (), f j)
  later := h

theorem raises_effect {P : Failure μ → Prop} (f : Journal α β → Journal α β)
    (h : ∀ j : Journal α β, j.Before (f j)) : Raises P (effect f h : Sys α β μ Unit) :=
  fun _ _ he => by cases he

def read (l : Loc α) : Sys α β μ Unit :=
  effect (·.read l) fun _ => ⟨rfl, List.prefix_append _ _⟩

section

variable [LinearOrder α]

def create (d : Loc α) (n : α) (nd : Node α β) : Sys α β μ Unit :=
  effect (·.create d n nd) fun _ => ⟨rfl, List.prefix_append _ _⟩

def alter (act : Act) (hact : act.changes) (l : Loc α) (f : Node α β → Node α β)
    (hf : ∀ nd, (f nd).shape = nd.shape) : Sys α β μ Unit :=
  effect (·.alter act hact l f hf) fun _ => ⟨rfl, List.prefix_append _ _⟩

def remove (l : Loc α) : Sys α β μ Unit :=
  effect (·.remove l) fun _ => ⟨rfl, List.prefix_append _ _⟩

def replace (src d : Loc α) (n : α) : Sys α β μ Unit :=
  effect (·.replace src d n) fun _ => ⟨rfl, List.prefix_append _ _⟩

@[simp] theorem run_create (d : Loc α) (n : α) (nd : Node α β) :
    (create d n nd : Sys α β μ Unit).run j = (.ok (), j.create d n nd) := rfl

@[simp] theorem run_alter (act : Act) (hact : act.changes) (l : Loc α)
    (f : Node α β → Node α β) (hf : ∀ nd, (f nd).shape = nd.shape) :
    (alter act hact l f hf : Sys α β μ Unit).run j = (.ok (), j.alter act hact l f hf) := rfl

@[simp] theorem run_remove (l : Loc α) :
    (remove l : Sys α β μ Unit).run j = (.ok (), j.remove l) := rfl

@[simp] theorem run_replace (src d : Loc α) (n : α) :
    (replace src d n : Sys α β μ Unit).run j = (.ok (), j.replace src d n) := rfl

@[simp] theorem staysIn_create (d : Loc α) (n : α) (nd : Node α β) :
    StaysIn acts R (create d n nd : Sys α β μ Unit) j ↔ (acts .create → R <+: d ++ [n]) := by
  rw [StaysIn, run_create, Journal.stays_iff _ (Journal.log_create j d n nd)]
  simp

@[simp] theorem staysIn_alter (act : Act) (hact : act.changes) (l : Loc α)
    (f : Node α β → Node α β) (hf : ∀ nd, (f nd).shape = nd.shape) :
    StaysIn acts R (alter act hact l f hf : Sys α β μ Unit) j ↔ (acts act → R <+: l) := by
  rw [StaysIn, run_alter, Journal.stays_iff _ (Journal.log_alter j act hact l f hf)]
  simp

@[simp] theorem staysIn_remove (l : Loc α) :
    StaysIn acts R (remove l : Sys α β μ Unit) j ↔ (acts .remove → R <+: l) := by
  rw [StaysIn, run_remove, Journal.stays_iff _ (Journal.log_remove j l)]
  simp

@[simp] theorem staysIn_replace (src d : Loc α) (n : α) :
    StaysIn acts R (replace src d n : Sys α β μ Unit) j ↔
      (acts .remove → R <+: src) ∧ (acts .create → R <+: d ++ [n]) := by
  rw [StaysIn, run_replace, Journal.stays_iff _ (Journal.log_replace j src d n)]
  simp

end

@[simp] theorem run_read (l : Loc α) :
    (read l : Sys α β μ Unit).run j = (.ok (), j.read l) := rfl

theorem readsOnly_read (l : Loc α) : ReadsOnly (read l : Sys α β μ Unit) :=
  fun _ => ⟨rfl, [⟨.read, l⟩], rfl, by simp⟩

@[simp] theorem staysIn_read (l : Loc α) :
    StaysIn acts R (read l : Sys α β μ Unit) j ↔ (acts .read → R <+: l) := by
  rw [StaysIn, run_read, Journal.stays_iff _ (Journal.log_read j l)]
  simp

-- the equations that later modules rewrite with, stated here once
attribute [local simp] Posix.Sys.StaysIn Posix.Sys.alter.congr_simp

end Sys

end Posix
