import Mathlib.Data.List.Lex
import Mathlib.Data.Prod.Lex
import Mathlib.Data.Sum.Order
import Mathlib.Order.WithBot
import Mathlib.Algebra.Order.Ring.Int

/-!
# Comparators that answer a number

A comparator of JavaScript answers a negative number, zero or a positive one. `Tells c x y` says that the sign of `c`
is how `x` and `y` stand in a linear order; it is built up along with the order, from numbers to sums, pairs and lists.
-/

namespace Comparator

variable {α β : Type*} [LinearOrder α] [LinearOrder β] {c d : ℤ} {x y z : α} {u v : β}

structure Tells (c : ℤ) (x y : α) : Prop where
  neg_iff : c < 0 ↔ x < y
  pos_iff : 0 < c ↔ y < x

namespace Tells

theorem zero_iff (h : Tells c x y) : c = 0 ↔ x = y := by
  have hneg := h.neg_iff
  have hpos := h.pos_iff
  constructor
  · rintro rfl
    exact le_antisymm (not_lt.mp fun hlt => lt_irrefl _ (hpos.mpr hlt))
      (not_lt.mp fun hlt => lt_irrefl _ (hneg.mpr hlt))
  · rintro rfl
    have hnotNeg : ¬ c < 0 := fun hc => lt_irrefl x (hneg.mp hc)
    have hnotPos : ¬ 0 < c := fun hc => lt_irrefl x (hpos.mp hc)
    omega

theorem nonpos_iff (h : Tells c x y) : c ≤ 0 ↔ x ≤ y := by
  rw [← not_lt, h.pos_iff, not_lt]

/-- Asked the other way round it answers with the other sign. -/
theorem sign_eq (h : Tells c x y) (h' : Tells d y x) : d.sign = -c.sign := by
  rcases lt_trichotomy x y with hlt | heq | hgt
  · rw [Int.sign_eq_neg_one_of_neg (h.neg_iff.mpr hlt), Int.sign_eq_one_of_pos (h'.pos_iff.mpr hlt), neg_neg]
  · rw [h.zero_iff.mpr heq, h'.zero_iff.mpr heq.symm, Int.sign_zero, neg_zero]
  · rw [Int.sign_eq_one_of_pos (h.pos_iff.mpr hgt), Int.sign_eq_neg_one_of_neg (h'.neg_iff.mpr hgt)]

theorem less (h : x < y) : Tells (-1) x y :=
  ⟨iff_of_true (by omega) h, iff_of_false (by omega) h.not_gt⟩

theorem greater (h : y < x) : Tells 1 x y :=
  ⟨iff_of_false (by omega) h.not_gt, iff_of_true (by omega) h⟩

theorem same (x : α) : Tells 0 x x :=
  ⟨iff_of_false (by omega) (lt_irrefl x), iff_of_false (by omega) (lt_irrefl x)⟩

theorem sub (m n : ℕ) : Tells ((m : ℤ) - n) m n :=
  ⟨by omega, by omega⟩

theorem map {f : α → β} (hf : StrictMono f) (h : Tells c x y) : Tells c (f x) (f y) :=
  ⟨h.neg_iff.trans hf.lt_iff_lt.symm, h.pos_iff.trans hf.lt_iff_lt.symm⟩

/-- The second parts count where the first are the same. -/
theorem lex (h : Tells c x y) (h' : x = y → Tells d u v) :
    Tells (if c ≠ 0 then c else d) (toLex (x, u)) (toLex (y, v)) := by
  by_cases hc : c = 0
  · have heq := h.zero_iff.mp hc
    have hd := h' heq
    rw [if_neg (not_not.mpr hc)]
    refine ⟨?_, ?_⟩
    · rw [hd.neg_iff, Prod.Lex.toLex_lt_toLex]
      simp [heq]
    · rw [hd.pos_iff, Prod.Lex.toLex_lt_toLex]
      simp [heq]
  · have hne : x ≠ y := fun heq => hc (h.zero_iff.mpr heq)
    rw [if_pos hc]
    refine ⟨?_, ?_⟩
    · rw [h.neg_iff, Prod.Lex.toLex_lt_toLex]
      simp [hne]
    · rw [h.pos_iff, Prod.Lex.toLex_lt_toLex]
      simp [hne.symm]

/-- The rest of two lists counts where they begin alike. -/
theorem cons {xs ys : List α} (h : Tells c x y) (h' : Tells d xs ys) :
    Tells (if c ≠ 0 then c else d) (x :: xs) (y :: ys) := by
  have hpair := h.lex fun _ => h'
  have hlt {a b : α} {as bs : List α} : toLex (a, as) < toLex (b, bs) ↔ a :: as < b :: bs := by
    rw [Prod.Lex.toLex_lt_toLex, List.cons_lt_cons_iff]
  exact ⟨hpair.neg_iff.trans hlt, hpair.pos_iff.trans hlt⟩

end Tells

end Comparator
