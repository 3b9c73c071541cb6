import Mathlib.Data.List.Basic

/-!
# Wildcard patterns

A pattern is a list of atoms. One atom takes a single letter of a kind, or any number of letters of a
kind; a word matches if the atoms take it apart from left to right. `accepts` tries all the ways to do
so, and `accepts_iff` says that it decides the language. Letters may be characters, or the names in a
path.
-/

namespace Data.Wildcard

variable {σ : Type*}

inductive Atom (σ : Type*) where
  /-- one letter of the kind -/
  | one (p : σ → Bool)
  /-- any number of such letters, none of them included -/
  | many (p : σ → Bool)

/-- The words a pattern stands for. -/
inductive Matches : List (Atom σ) → List σ → Prop
  | nil : Matches [] []
  | one {p : σ → Bool} {ps : List (Atom σ)} {x : σ} {w : List σ} (hx : p x = true)
      (hw : Matches ps w) : Matches (.one p :: ps) (x :: w)
  | many {p : σ → Bool} {ps : List (Atom σ)} {u w : List σ} (hu : ∀ x ∈ u, p x = true)
      (hw : Matches ps w) : Matches (.many p :: ps) (u ++ w)

/-- Whether some rest of the word, behind letters of a kind, is taken by `rest`. -/
def afterMany (p : σ → Bool) (rest : List σ → Bool) : List σ → Bool
  | [] => rest []
  | x :: w => rest (x :: w) || (p x && afterMany p rest w)

def accepts : List (Atom σ) → List σ → Bool
  | [], w => w.isEmpty
  | .one _ :: _, [] => false
  | .one p :: ps, x :: w => p x && accepts ps w
  | .many p :: ps, w => afterMany p (accepts ps) w

variable {p : σ → Bool} {ps qs : List (Atom σ)} {w : List σ} {x : σ}

theorem afterMany_iff {rest : List σ → Bool} :
    afterMany p rest w = true ↔ ∃ u v, w = u ++ v ∧ (∀ x ∈ u, p x = true) ∧ rest v = true := by
  induction w with
  | nil =>
    constructor
    · intro h
      exact ⟨[], [], rfl, by simp, h⟩
    · rintro ⟨u, v, huv, -, hv⟩
      obtain ⟨rfl, rfl⟩ := List.append_eq_nil_iff.mp huv.symm
      exact hv
  | cons x w ih =>
    rw [afterMany, Bool.or_eq_true, Bool.and_eq_true, ih]
    constructor
    · rintro (h | ⟨hx, u, v, rfl, hu, hv⟩)
      · exact ⟨[], x :: w, rfl, by simp, h⟩
      · refine ⟨x :: u, v, rfl, fun y hy => ?_, hv⟩
        rcases List.mem_cons.mp hy with rfl | hy
        · exact hx
        · exact hu y hy
    · rintro ⟨u, v, huv, hu, hv⟩
      rcases u with _ | ⟨y, u⟩
      · exact .inl (by rw [huv]; exact hv)
      · obtain ⟨rfl, rfl⟩ := List.cons.inj huv
        exact .inr ⟨hu _ List.mem_cons_self, u, v, rfl, fun z hz => hu z (List.mem_cons_of_mem _ hz),
          hv⟩

@[simp] theorem matches_nil_iff : Matches ([] : List (Atom σ)) w ↔ w = [] := by
  constructor
  · rintro ⟨⟩
    rfl
  · rintro rfl
    exact .nil

theorem matches_one_iff :
    Matches (.one p :: ps) w ↔ ∃ x v, w = x :: v ∧ p x = true ∧ Matches ps v := by
  constructor
  · rintro (_ | ⟨hx, hw⟩)
    exact ⟨_, _, rfl, hx, hw⟩
  · rintro ⟨x, v, rfl, hx, hv⟩
    exact .one hx hv

theorem matches_many_iff :
    Matches (.many p :: ps) w ↔ ∃ u v, w = u ++ v ∧ (∀ x ∈ u, p x = true) ∧ Matches ps v := by
  constructor
  · rintro (_ | _ | ⟨hu, hv⟩)
    exact ⟨_, _, rfl, hu, hv⟩
  · rintro ⟨u, v, rfl, hu, hv⟩
    exact .many hu hv

/-- The matcher decides the language. -/
theorem accepts_iff : accepts ps w = true ↔ Matches ps w := by
  induction ps generalizing w with
  | nil => simp [accepts]
  | cons a ps ih =>
    cases a with
    | one p =>
      rw [matches_one_iff]
      rcases w with _ | ⟨x, w⟩
      · simp [accepts]
      · rw [accepts, Bool.and_eq_true, ih]
        constructor
        · rintro ⟨hx, hw⟩
          exact ⟨x, w, rfl, hx, hw⟩
        · rintro ⟨_, _, h, hx, hw⟩
          obtain ⟨rfl, rfl⟩ := List.cons.inj h
          exact ⟨hx, hw⟩
    | many p =>
      rw [matches_many_iff, accepts, afterMany_iff]
      simp only [ih]

/-- Any number of any letters takes every word. -/
theorem matches_many_true : Matches [.many fun _ => true] w := by
  have h := Matches.many (p := fun _ => true) (u := w) (by simp) .nil
  rwa [List.append_nil] at h

/-- A pattern of single letters only takes words of its length. -/
theorem Matches.length_eq {ps : List (σ → Bool)} (h : Matches (ps.map .one) w) :
    w.length = ps.length := by
  induction ps generalizing w with
  | nil => simpa using h
  | cons p ps ih =>
    obtain ⟨x, v, rfl, -, hv⟩ := matches_one_iff.mp h
    simp [ih hv]

end Data.Wildcard
