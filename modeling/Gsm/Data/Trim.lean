import Mathlib.Data.List.DropRight

/-!
# Lists trimmed at both ends

`trim p` takes away what `p` says at the front and at the back. What is left has ends that `p` does not
take, and a member that `p` would take is left just where something stands on both sides of it.
-/

namespace Data.Trim

variable {α : Type*} {p : α → Bool} {l u w : List α} {a : α}

/-- Nothing but what `p` takes. -/
def Blank (p : α → Bool) (l : List α) : Prop := ∀ a ∈ l, p a = true

/-- The list without what `p` takes at its ends. -/
def trim (p : α → Bool) (l : List α) : List α := (l.dropWhile p).rdropWhile p

theorem blank_append : Blank p (u ++ w) ↔ Blank p u ∧ Blank p w := List.forall_mem_append

theorem blank_nil : Blank p ([] : List α) := fun _ h => nomatch h

theorem exists_of_not_blank (h : ¬ Blank p l) : ∃ a ∈ l, p a = false := by
  simpa [Blank] using h

/-- What is taken away is blank at both ends. -/
theorem exists_trim (p : α → Bool) (l : List α) :
    ∃ u w, Blank p u ∧ Blank p w ∧ l = u ++ trim p l ++ w := by
  refine ⟨l.takeWhile p, (l.dropWhile p).rtakeWhile p, fun a ha => List.mem_takeWhile_imp ha,
    fun a ha => List.mem_rtakeWhile_imp ha, ?_⟩
  rw [trim, List.append_assoc, List.rdropWhile_append_rtakeWhile, List.takeWhile_append_dropWhile]

theorem trim_blank_append (hu : Blank p u) : trim p (u ++ l) = trim p l := by
  rw [trim, List.dropWhile_append_of_pos hu, trim]

theorem trim_append_blank (hw : Blank p w) : trim p (l ++ w) = trim p l := by
  rw [trim, trim, List.dropWhile_append]
  split
  · next hnil =>
    rw [List.isEmpty_iff] at hnil
    rw [hnil, List.dropWhile_eq_nil_iff.mpr hw]
  · rw [List.rdropWhile, List.reverse_append,
      List.dropWhile_append_of_pos fun a ha => hw a (List.mem_reverse.mp ha), List.rdropWhile]

/-- The front is trimmed up to a member that stays. -/
theorem dropWhile_append_cons (ha : p a = false) (u w : List α) :
    (u ++ a :: w).dropWhile p = u.dropWhile p ++ a :: w := by
  rw [List.dropWhile_append]
  split
  · next hnil => rw [List.isEmpty_iff.mp hnil, List.nil_append, List.dropWhile_cons_of_neg (by simp [ha])]
  · rfl

theorem rdropWhile_append_cons (ha : p a = false) (u w : List α) :
    (u ++ a :: w).rdropWhile p = u ++ a :: w.rdropWhile p := by
  rw [List.rdropWhile, List.reverse_append, List.reverse_cons, List.append_assoc, List.singleton_append,
    dropWhile_append_cons ha, List.reverse_append, List.reverse_cons, List.reverse_reverse, List.append_assoc,
    List.singleton_append, List.rdropWhile]

/-- Between two members that stay nothing changes. -/
theorem trim_between (ha : p a = false) {b : α} (hb : p b = false) (m : List α) :
    trim p (u ++ a :: (m ++ b :: w)) = u.dropWhile p ++ a :: (m ++ b :: w.rdropWhile p) := by
  rw [trim, dropWhile_append_cons ha, ← List.cons_append, ← List.append_assoc, rdropWhile_append_cons hb,
    List.append_assoc, List.cons_append]

theorem trim_eq_nil_iff : trim p l = [] ↔ Blank p l := by
  constructor
  · intro h
    obtain ⟨u, w, hu, hw, heq⟩ := exists_trim p l
    rw [heq, h, List.append_nil]
    exact blank_append.mpr ⟨hu, hw⟩
  · intro h
    rw [trim, List.dropWhile_eq_nil_iff.mpr h, List.rdropWhile_nil]

theorem head_trim (h : trim p l = a :: u) : p a = false := by
  rcases hd : l.dropWhile p with _ | ⟨b, t⟩
  · rw [trim, hd, List.rdropWhile_nil] at h
    cases h
  · have hb : p b = false := by
      have := List.head_dropWhile_not p (l := l) (by rw [hd]; exact List.cons_ne_nil _ _)
      simpa [hd] using this
    rw [trim, hd] at h
    obtain ⟨t', ht⟩ := List.rdropWhile_prefix p (b :: t)
    rw [h, List.cons_append] at ht
    rw [(List.cons.inj ht).1]
    exact hb

theorem last_trim (h : trim p l = u ++ [a]) : p a = false := by
  have hne : (l.dropWhile p).rdropWhile p ≠ [] := by
    intro hnil
    rw [trim, hnil] at h
    simp at h
  have hlast := List.rdropWhile_last_not p (l.dropWhile p) hne
  simp only [trim] at h
  simp only [h, List.getLast_append_singleton, Bool.not_eq_true] at hlast
  exact hlast

theorem trim_trim (p : α → Bool) (l : List α) : trim p (trim p l) = trim p l := by
  rcases ht : trim p l with _ | ⟨a, m⟩
  · rfl
  · have hfront : (a :: m).dropWhile p = a :: m := List.dropWhile_cons_of_neg (by simp [head_trim ht])
    rw [trim, hfront, List.rdropWhile_eq_self_iff]
    intro hne
    rw [← List.dropLast_concat_getLast hne] at ht
    simp [last_trim ht]

/-- What `p` would take is left just where something stands before it and behind it. -/
theorem mem_trim_iff (ha : p a = true) : a ∈ trim p l ↔
    ∃ u w, l = u ++ a :: w ∧ ¬ Blank p u ∧ ¬ Blank p w := by
  constructor
  · intro hmem
    obtain ⟨u, w, -, -, heq⟩ := exists_trim p l
    obtain ⟨s, t, hst⟩ := List.append_of_mem hmem
    refine ⟨u ++ s, t ++ w, by rw [heq, hst]; simp, fun hblank => ?_, fun hblank => ?_⟩
    · rcases s with _ | ⟨x, s⟩
      · exact absurd ha (by rw [head_trim hst]; exact Bool.false_ne_true)
      · have := (blank_append.mp hblank).2 x List.mem_cons_self
        rw [head_trim hst] at this
        cases this
    · rcases List.eq_nil_or_concat t with rfl | ⟨t', x, rfl⟩
      · exact absurd ha (by rw [last_trim hst]; exact Bool.false_ne_true)
      · have hx : trim p l = (s ++ a :: t') ++ [x] := by rw [hst]; simp
        have := (blank_append.mp hblank).1 x (by simp)
        rw [last_trim hx] at this
        cases this
  · rintro ⟨u, w, rfl, hu, hw⟩
    obtain ⟨x, hx, hpx⟩ := exists_of_not_blank hu
    obtain ⟨y, hy, hpy⟩ := exists_of_not_blank hw
    obtain ⟨u₁, u₂, rfl⟩ := List.append_of_mem hx
    obtain ⟨w₁, w₂, rfl⟩ := List.append_of_mem hy
    have hshape : u₁ ++ x :: u₂ ++ a :: (w₁ ++ y :: w₂) = u₁ ++ x :: (u₂ ++ a :: w₁ ++ y :: w₂) := by simp
    rw [hshape, trim_between hpx hpy]
    simp

end Data.Trim
