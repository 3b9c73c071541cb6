import Mathlib.Data.Option.Basic

/-!
# Runs of a state machine

A machine is a partial step function: an action that is not possible in a state gives no next state.
Concurrent parties are one machine whose actions name the party that moves, so a list of actions is
one interleaving. `exec_invariant` carries an invariant along the runs whose steps all meet a
condition; `exec_history` does so for invariants that speak of the states left behind.
-/

namespace Machine

variable {σ α : Type*} {step : σ → α → Option σ} {C : σ → α → Prop} {s s' s'' : σ} {a : α}
  {as bs : List α}

/-- Take the actions in order. -/
def exec (step : σ → α → Option σ) : σ → List α → Option σ
  | s, [] => some s
  | s, a :: as =>
      match step s a with
      | some s' => exec step s' as
      | none => none

/-- Each action of the run is taken in a state in which `C` allows it. -/
def Along (step : σ → α → Option σ) (C : σ → α → Prop) : σ → List α → Prop
  | _, [] => True
  | s, a :: as => C s a ∧ ∀ s', step s a = some s' → Along step C s' as

/-- The states a run leaves behind, in order. -/
def past (step : σ → α → Option σ) : σ → List α → List σ
  | _, [] => []
  | s, a :: as =>
      match step s a with
      | some s' => s :: past step s' as
      | none => [s]

@[simp] theorem exec_nil : exec step s [] = some s := rfl

theorem exec_cons_eq_some :
    exec step s (a :: as) = some s'' ↔ ∃ s', step s a = some s' ∧ exec step s' as = some s'' := by
  rw [exec]
  cases step s a <;> simp

theorem exec_append_eq_some :
    exec step s (as ++ bs) = some s'' ↔
      ∃ s', exec step s as = some s' ∧ exec step s' bs = some s'' := by
  induction as generalizing s with
  | nil => simp
  | cons a as ih =>
    simp only [List.cons_append, exec_cons_eq_some, ih]
    constructor
    · rintro ⟨s₁, h₁, s', h, h'⟩
      exact ⟨s', ⟨s₁, h₁, h⟩, h'⟩
    · rintro ⟨s', ⟨s₁, h₁, h⟩, h'⟩
      exact ⟨s₁, h₁, s', h, h'⟩

theorem Along.tail (h : Along step C s (a :: as)) (hs : step s a = some s') :
    Along step C s' as := h.2 s' hs

theorem along_cons (hs : step s a = some s') :
    Along step C s (a :: as) ↔ C s a ∧ Along step C s' as := by
  refine ⟨fun h => ⟨h.1, h.tail hs⟩, fun h => ⟨h.1, fun s'' hs'' => ?_⟩⟩
  cases hs.symm.trans hs''
  exact h.2

/-- The rest of a run meets the condition too. -/
theorem Along.append (h : Along step C s (as ++ bs)) (hs : exec step s as = some s') :
    Along step C s as ∧ Along step C s' bs := by
  induction as generalizing s with
  | nil =>
    cases hs
    exact ⟨trivial, h⟩
  | cons a as ih =>
    obtain ⟨s₁, h₁, hrest⟩ := exec_cons_eq_some.mp hs
    obtain ⟨hleft, hright⟩ := ih (h.tail h₁) hrest
    refine ⟨⟨h.1, fun s₂ h₂ => ?_⟩, hright⟩
    cases h₁.symm.trans h₂
    exact hleft

instance decidableAlong [∀ s a, Decidable (C s a)] :
    (s : σ) → (as : List α) → Decidable (Along step C s as)
  | _, [] => .isTrue trivial
  | s, a :: as =>
      match h : step s a with
      | none => decidable_of_iff (C s a)
          ⟨fun hC => ⟨hC, fun _ hs => nomatch h.symm.trans hs⟩, fun hC => hC.1⟩
      | some s' =>
          have := decidableAlong s' as
          decidable_of_iff (C s a ∧ Along step C s' as)
            ⟨fun hC => ⟨hC.1, fun _ hs => Option.some.inj (h.symm.trans hs) ▸ hC.2⟩,
              fun hC => ⟨hC.1, hC.2 s' h⟩⟩

theorem Along.and {D : σ → α → Prop} (h : Along step C s as) (h' : Along step D s as) :
    Along step (fun s a => C s a ∧ D s a) s as := by
  induction as generalizing s with
  | nil => trivial
  | cons a as ih => exact ⟨⟨h.1, h'.1⟩, fun s' hs => ih (h.tail hs) (h'.tail hs)⟩

/-- What is true of all actions can be added to the condition. -/
theorem Along.and_forall {D : α → Prop} (h : Along step C s as) (hD : ∀ a ∈ as, D a) :
    Along step (fun s a => C s a ∧ D a) s as := by
  induction as generalizing s with
  | nil => trivial
  | cons a as ih =>
    refine ⟨⟨h.1, hD a (by simp)⟩, fun s' hs => ?_⟩
    exact ih (h.tail hs) fun b hb => hD b (by simp [hb])

/-- What every allowed step preserves, a run of allowed steps preserves. -/
theorem exec_invariant {P : σ → Prop}
    (hstep : ∀ s a s', C s a → step s a = some s' → P s → P s') (hrun : exec step s as = some s')
    (hC : Along step C s as) (hP : P s) : P s' := by
  induction as generalizing s with
  | nil =>
    cases hrun
    exact hP
  | cons a as ih =>
    obtain ⟨s₁, h₁, hrest⟩ := exec_cons_eq_some.mp hrun
    exact ih hrest (hC.tail h₁) (hstep s a s₁ hC.1 h₁ hP)

theorem Along.of_forall (h : ∀ s a, C s a) : Along step C s as := by
  induction as generalizing s with
  | nil => trivial
  | cons a as ih => exact ⟨h s a, fun _ _ => ih⟩

theorem Along.of_mem {D : α → Prop} (h : ∀ a ∈ as, D a) : Along step (fun _ a => D a) s as := by
  induction as generalizing s with
  | nil => trivial
  | cons a as ih => exact ⟨h a List.mem_cons_self, fun _ _ => ih fun b hb => h b (List.mem_cons_of_mem a hb)⟩

/-- What every step preserves, every run preserves. -/
theorem exec_preserves {P : σ → Prop} (hstep : ∀ s a s', step s a = some s' → P s → P s')
    (hrun : exec step s as = some s') (hP : P s) : P s' := by
  refine exec_invariant (C := fun _ _ => True) ?_ hrun (Along.of_forall fun _ _ => trivial) hP
  exact fun s a s' _ => hstep s a s'

/-- Where an action that is not allowed leads to what no action ends, a run that does not end there
has taken allowed actions only. -/
theorem along_of_exec {P Q : σ → Prop} (hstep : ∀ s a s', C s a → step s a = some s' → P s → P s')
    (hleave : ∀ s a s', ¬ C s a → step s a = some s' → P s → Q s')
    (hstay : ∀ s a s', step s a = some s' → Q s → Q s') (hrun : exec step s as = some s')
    (hP : P s) (hQ : ¬ Q s') : Along step C s as := by
  induction as generalizing s with
  | nil => trivial
  | cons a as ih =>
    obtain ⟨s₁, h₁, hrest⟩ := exec_cons_eq_some.mp hrun
    have hC : C s a := by
      by_contra hC
      exact hQ (exec_preserves hstay hrest (hleave s a s₁ hC h₁ hP))
    refine ⟨hC, fun s₂ h₂ => ?_⟩
    cases h₁.symm.trans h₂
    exact ih hrest (hstep s a s₁ hC h₁ hP)

/-- Two conditions that agree in every state a run can reach. -/
theorem along_congr {P : σ → Prop} {D : σ → α → Prop}
    (hstep : ∀ s a s', step s a = some s' → P s → P s') (hCD : ∀ s a, P s → (C s a ↔ D s a))
    (hP : P s) : Along step C s as ↔ Along step D s as := by
  induction as generalizing s with
  | nil => exact Iff.rfl
  | cons a as ih =>
    refine and_congr (hCD s a hP) ?_
    exact forall_congr' fun s' => forall_congr' fun hs => ih (hstep s a s' hs hP)

/-- `exec_invariant` for a property of a state and of the states left behind. -/
theorem exec_history {P : List σ → σ → Prop}
    (hstep : ∀ before s a s', C s a → step s a = some s' → P before s → P (before ++ [s]) s')
    (before : List σ) (hrun : exec step s as = some s') (hC : Along step C s as) (hP : P before s) :
    P (before ++ past step s as) s' := by
  induction as generalizing s before with
  | nil =>
    cases hrun
    simpa [past] using hP
  | cons a as ih =>
    obtain ⟨s₁, h₁, hrest⟩ := exec_cons_eq_some.mp hrun
    have := ih (before ++ [s]) hrest (hC.tail h₁) (hstep before s a s₁ hC.1 h₁ hP)
    rw [past, h₁]
    simpa using this

end Machine
