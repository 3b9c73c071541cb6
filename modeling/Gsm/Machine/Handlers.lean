import Mathlib.Data.List.Basic

/-!
# Handlers under way

Handlers that take turns are a list of what each waits for; one that goes on is taken out of its
place and what it waits for next, if anything, is put there.
-/

namespace Machine

variable {τ : Type*} {l new : List τ} {i : ℕ} {t u : τ}

/-- Put something else in the place of the `i`-th. -/
def replaceAt (l : List τ) (i : ℕ) (new : List τ) : List τ :=
  l.take i ++ new ++ l.drop (i + 1)

theorem replaceAt_eq (h : l[i]? = some t) :
    ∃ a b, l = a ++ t :: b ∧ ∀ new, replaceAt l i new = a ++ new ++ b := by
  obtain ⟨hi, rfl⟩ := List.getElem?_eq_some_iff.mp h
  exact ⟨l.take i, l.drop (i + 1), by simp, fun new => rfl⟩

theorem mem_replaceAt (h : t ∈ replaceAt l i new) :
    t ∈ l ∨ t ∈ new := by
  simp only [replaceAt, List.mem_append] at h
  obtain (h | h) | h := h
  · exact .inl (List.mem_of_mem_take h)
  · exact .inr h
  · exact .inl (List.mem_of_mem_drop h)

theorem mem_replaceAt_nil (h : t ∈ replaceAt l i []) :
    ∃ j, j ≠ i ∧ l[j]? = some t := by
  rw [replaceAt, List.append_nil, List.mem_append] at h
  obtain h | h := h <;> obtain ⟨j, hj⟩ := List.mem_iff_getElem?.mp h
  · rw [List.getElem?_take] at hj
    split at hj
    · exact ⟨j, by omega, hj⟩
    · cases hj
  · rw [List.getElem?_drop] at hj
    exact ⟨i + 1 + j, by omega, hj⟩

/-- What is there afterwards: the others, and what was put in. -/
theorem mem_replaceAt_iff : t ∈ replaceAt l i new ↔ t ∈ replaceAt l i [] ∨ t ∈ new := by
  simp only [replaceAt, List.mem_append, List.not_mem_nil, or_false]
  tauto

/-- What was there before: the others, and the one that goes on. -/
theorem mem_iff_replaceAt (h : l[i]? = some u) : t ∈ l ↔ t = u ∨ t ∈ replaceAt l i [] := by
  obtain ⟨a, b, rfl, hrep⟩ := replaceAt_eq h
  rw [hrep]
  simp only [List.mem_append, List.mem_cons, List.not_mem_nil, or_false]
  tauto

theorem countP_replaceAt (P : τ → Bool) (new : List τ) (h : l[i]? = some u) :
    (replaceAt l i new).countP P + [u].countP P = l.countP P + new.countP P := by
  obtain ⟨a, b, rfl, hrep⟩ := replaceAt_eq h
  simp only [hrep, List.countP_append, List.countP_cons, List.countP_nil]
  omega

end Machine
