import Gsm.GoStd.Slash
import Mathlib.Data.List.DropRight

/-!
# Texts of lines

The lines of a text as the merges of config files read them, and the text they write from lines. Lines
without a break in them, the last of which is not empty, come back as they were.
-/

namespace GoStd

/-- `strings.Split(strings.TrimRight(text, "\n"), "\n")` -/
def lines (text : Str) : List Str := (text.rdropWhile (· = '\n')).splitOn '\n'

/-- `strings.Join(out, "\n") + "\n"` -/
def unlines (out : List Str) : Str := join ['\n'] out ++ ['\n']

variable {text l : Str} {out : List Str}

theorem join_concat {sep : Str} (hne : out ≠ []) (l : Str) : join sep (out ++ [l]) = join sep out ++ sep ++ l := by
  induction out with
  | nil => exact absurd rfl hne
  | cons a t ih =>
    rcases t with _ | ⟨b, t⟩
    · rfl
    · have hrest : join sep (b :: (t ++ [l])) = join sep (b :: t) ++ sep ++ l := ih (List.cons_ne_nil _ _)
      show a ++ sep ++ join sep (b :: (t ++ [l])) = a ++ sep ++ join sep (b :: t) ++ sep ++ l
      rw [hrest]
      simp

theorem notMem_of_mem_lines (h : l ∈ lines text) : '\n' ∉ l := notMem_of_mem_splitOn h

theorem lines_ne_nil (text : Str) : lines text ≠ [] := List.splitOn_ne_nil _ _

theorem unlines_ne_nil (out : List Str) : unlines out ≠ [] :=
  List.append_ne_nil_of_right_ne_nil _ (List.cons_ne_nil _ _)

/-- The lines of a text that is not empty do not end with an empty one, unless it is all there is. -/
theorem lines_ends (text : Str) : lines text = [[]] ∨ ∃ out l, lines text = out ++ [l] ∧ l ≠ [] := by
  rcases List.eq_nil_or_concat' (lines text) with hnil | ⟨out, l, hlines⟩
  · exact absurd hnil (lines_ne_nil text)
  by_cases hl : l = []
  · subst hl
    rcases List.eq_nil_or_concat' out with rfl | ⟨out', l', rfl⟩
    · exact .inl hlines
    · -- the text would end with a break
      exfalso
      have htext : text.rdropWhile (· = '\n') = join ['\n'] (lines text) := by
        rw [lines, join_eq_intercalate]
        exact (List.intercalate_splitOn '\n').symm
      have hend : ∃ s, join ['\n'] (lines text) = s ++ ['\n'] := by
        rw [hlines, join_concat (List.append_ne_nil_of_right_ne_nil _ (List.cons_ne_nil _ _)), List.append_nil]
        exact ⟨_, rfl⟩
      obtain ⟨s, hs⟩ := hend
      rw [hs] at htext
      have hne : text.rdropWhile (· = '\n') ≠ [] := by
        rw [htext]
        exact List.append_ne_nil_of_right_ne_nil _ (List.cons_ne_nil _ _)
      have hlast := List.rdropWhile_last_not (· = '\n') text hne
      simp [htext] at hlast
  · exact .inr ⟨out, l, hlines, hl⟩

/-- Lines that were written are read back. -/
theorem lines_unlines (hbreak : ∀ l ∈ out, '\n' ∉ l)
    (hends : out = [[]] ∨ ∃ before l, out = before ++ [l] ∧ l ≠ []) : lines (unlines out) = out := by
  have hne : out ≠ [] := by
    rcases hends with rfl | ⟨before, l, rfl, -⟩
    · exact List.cons_ne_nil _ _
    · exact List.append_ne_nil_of_right_ne_nil _ (List.cons_ne_nil _ _)
  have hkeep : (unlines out).rdropWhile (· = '\n') = join ['\n'] out := by
    rw [unlines, List.rdropWhile_concat_pos _ _ _ (by decide)]
    rcases hends with rfl | ⟨before, l, rfl, hl⟩
    · rfl
    · obtain ⟨l', c, rfl⟩ := (List.eq_nil_or_concat' l).resolve_left hl
      have hc : c ≠ '\n' := by
        rintro rfl
        exact hbreak (l' ++ ['\n']) (List.mem_append_right _ List.mem_cons_self) (by simp)
      have hend : ∃ s, join ['\n'] (before ++ [l' ++ [c]]) = s ++ [c] := by
        by_cases hbefore : before = []
        · subst hbefore
          exact ⟨l', rfl⟩
        · rw [join_concat hbefore, ← List.append_assoc]
          exact ⟨_, rfl⟩
      obtain ⟨s, hs⟩ := hend
      rw [hs]
      exact List.rdropWhile_concat_neg _ _ _ (by simpa using hc)
  rw [lines, hkeep, join_eq_intercalate]
  exact List.splitOn_intercalate '\n' hbreak hne

/-! ## Every line of a text -/

theorem splitOn_concat (text : Str) : (text ++ ['\n']).splitOn '\n' = text.splitOn '\n' ++ [[]] := by
  have hne := List.splitOn_ne_nil '\n' text
  have hjoin : text ++ ['\n'] = ['\n'].intercalate (text.splitOn '\n' ++ [[]]) := by
    rw [← join_eq_intercalate, join_concat hne, join_eq_intercalate, List.intercalate_splitOn, List.append_nil]
  rw [hjoin]
  refine List.splitOn_intercalate '\n' (fun l hl => ?_) (List.append_ne_nil_of_left_ne_nil hne _)
  rcases List.mem_append.mp hl with hl | hl
  · exact notMem_of_mem_splitOn hl
  · rw [List.mem_singleton.mp hl]
    exact List.not_mem_nil

variable {β : Type*} {f : Str → List β}

/-- Where an empty line gives nothing, the breaks at the end of a text do not matter. -/
theorem flatMap_splitOn (hf : f [] = []) (text : Str) :
    (text.splitOn '\n').flatMap f = (lines text).flatMap f := by
  induction text using List.reverseRecOn with
  | nil => rfl
  | append_singleton text c ih =>
    by_cases hc : c = '\n'
    · subst hc
      have hlines : lines (text ++ ['\n']) = lines text := by
        rw [lines, List.rdropWhile_concat_pos _ _ _ (by decide), lines]
      rw [splitOn_concat, List.flatMap_append, ih, hlines, List.flatMap_singleton, hf, List.append_nil]
    · rw [lines, List.rdropWhile_concat_neg _ _ _ (by simpa using hc)]

/-- Of lines that were written each is read. -/
theorem flatMap_unlines (hf : f [] = []) (hbreak : ∀ l ∈ out, '\n' ∉ l) :
    ((unlines out).splitOn '\n').flatMap f = out.flatMap f := by
  rw [unlines, splitOn_concat, List.flatMap_append, List.flatMap_singleton, hf, List.append_nil]
  by_cases hne : out = []
  · subst hne
    show ([[]] : List Str).flatMap f = []
    rw [List.flatMap_singleton, hf]
  · rw [join_eq_intercalate, List.splitOn_intercalate '\n' hbreak hne]

end GoStd
