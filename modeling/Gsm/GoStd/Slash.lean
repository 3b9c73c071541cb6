import Gsm.GoStd.Path

/-!
# Relative paths with slashes

A relative path as Go code hands it around: its names with slashes between them. Splitting, trimming
and `path.Base` give the names back.
-/

open Posix

namespace GoStd

/-- A clean relative path, written with slashes. -/
def relText (p : Path) : Str := join ['/'] (p.map Subtype.val)

/-- `strings.Trim(s, "/")` -/
def trimSlashes (s : Str) : Str :=
  ((s.dropWhile (· = '/')).reverse.dropWhile (· = '/')).reverse

/-- `path.Base` -/
def base (s : Str) : Str :=
  if s = [] then ['.']
  else
    let t := (s.reverse.dropWhile (· = '/')).reverse
    if t = [] then ['/'] else (splitSlash t).getLastD []

variable {p q : Path} {n : Name} {s : Str} {names : List Str}

theorem join_eq_intercalate (sep : Str) (names : List Str) : join sep names = sep.intercalate names := by
  induction names with
  | nil => rfl
  | cons s names ih =>
    rcases names with _ | ⟨t, names⟩
    · simp [join]
    · rw [join, ih, List.intercalate_cons_cons]
      simp

theorem splitSlash_join (h : ∀ s ∈ names, '/' ∉ s) (hne : names ≠ []) :
    splitSlash (join ['/'] names) = names := by
  rw [splitSlash, join_eq_intercalate]
  exact List.splitOn_intercalate '/' h hne

theorem splitSlash_relText (hp : p ≠ []) : splitSlash (relText p) = p.map Subtype.val := by
  refine splitSlash_join (fun s hs => ?_) (fun h => hp (List.map_eq_nil_iff.mp h))
  obtain ⟨n, -, rfl⟩ := List.mem_map.mp hs
  exact n.2.2.2.2

theorem splitSlash_of_notMem (h : '/' ∉ s) : splitSlash s = [s] := List.splitOn_eq_singleton h

theorem splitSlash_append (s t : Str) : splitSlash (s ++ '/' :: t) = splitSlash s ++ splitSlash t :=
  List.splitOn_append_cons_self s t

/-- One segment is what there is without a slash. -/
theorem splitSlash_eq_singleton {t : Str} (h : splitSlash s = [t]) : s = t ∧ '/' ∉ s := by
  have hno : '/' ∉ s := by
    intro hmem
    obtain ⟨u, v, rfl⟩ := List.append_of_mem hmem
    have hlen := congrArg List.length h
    have hu : 0 < (splitSlash u).length := List.length_pos_iff.mpr (List.splitOn_ne_nil _ _)
    have hv : 0 < (splitSlash v).length := List.length_pos_iff.mpr (List.splitOn_ne_nil _ _)
    rw [splitSlash_append, List.length_append, List.length_singleton] at hlen
    omega
  rw [splitSlash_of_notMem hno] at h
  exact ⟨(List.cons.inj h).1, hno⟩

/-- No part holds the separator. -/
theorem notMem_of_mem_splitOn {c : Char} {t : Str} (h : t ∈ s.splitOn c) : c ∉ t := by
  induction s generalizing t with
  | nil =>
    rw [List.mem_singleton.mp h]
    exact List.not_mem_nil
  | cons d s ih =>
    rw [List.splitOn_cons_eq_if_modifyHead] at h
    split at h
    · rcases List.mem_cons.mp h with rfl | h
      · exact List.not_mem_nil
      · exact ih h
    · next hd =>
      rcases hs : s.splitOn c with _ | ⟨u, more⟩
      · exact absurd hs (List.splitOn_ne_nil _ _)
      · have hall : ∀ v ∈ u :: more, c ∉ v := fun v hv => ih (by rw [hs]; exact hv)
        rw [hs, List.modifyHead_cons] at h
        rcases List.mem_cons.mp h with rfl | h
        · rintro (_ | ⟨_, hmem⟩)
          · exact hd (beq_self_eq_true _)
          · exact hall u List.mem_cons_self hmem
        · exact hall t (List.mem_cons_of_mem _ h)

/-- No segment holds a slash. -/
theorem notMem_of_mem_splitSlash {t : Str} (h : t ∈ splitSlash s) : '/' ∉ t := notMem_of_mem_splitOn h

theorem render_eq_relText (hp : p ≠ []) : render p = '/' :: relText p := by
  rw [render, if_neg hp]
  induction p with
  | nil => exact absurd rfl hp
  | cons n p ih =>
    rcases p with _ | ⟨m, p⟩
    · simp [renderTail, relText, join]
    · rw [renderTail, ih (List.cons_ne_nil _ _), List.append_cons]
      rfl

theorem foldl_cleanStep_names (p q : Path) : (q.map Seg.name).foldl cleanStep p = p ++ q := by
  induction q generalizing p with
  | nil => exact (List.append_nil p).symm
  | cons n q ih =>
    rw [List.map_cons, List.foldl_cons, ih]
    simp [cleanStep]

/-- A slash and names with slashes between them is what `path.Clean` leaves as it is. -/
theorem render_clean_slash (h : ∀ t ∈ splitSlash s, IsName t) : render (clean ('/' :: s)) = '/' :: s := by
  obtain ⟨p, hp⟩ : ∃ p : Path, splitSlash s = p.map Subtype.val :=
    ⟨(splitSlash s).attach.map fun t => ⟨t.1, h _ t.2⟩, by simp [List.map_map]⟩
  have hne : p ≠ [] := by
    rintro rfl
    exact List.splitOn_ne_nil _ _ hp
  have hs : s = relText p := by
    rw [relText, ← hp, join_eq_intercalate, splitSlash]
    exact (List.intercalate_splitOn '/').symm
  have hsegs : segs ('/' :: s) = .here :: p.map .name := by
    have hsplit : splitSlash ('/' :: s) = [] :: splitSlash s := splitSlash_append [] s
    rw [segs, hsplit, hp, List.map_cons, List.map_map]
    refine congrArg₂ _ (by decide) (List.map_congr_left fun n _ => ?_)
    exact dif_pos n.2
  rw [clean, hsegs, List.foldl_cons, cleanStep, foldl_cleanStep_names, List.nil_append,
    render_eq_relText hne, hs]

theorem relText_concat (p : Path) (n : Name) : ∃ t, relText (p ++ [n]) = t ++ n.1 ∧
    (p ≠ [] → ∃ t', t = t' ++ ['/']) ∧ (p = [] → t = []) := by
  induction p with
  | nil => exact ⟨[], rfl, by simp, by simp⟩
  | cons m p ih =>
    obtain ⟨t, ht, hslash, hnil⟩ := ih
    have hcons : relText (m :: p ++ [n]) = m.1 ++ ['/'] ++ relText (p ++ [n]) := by
      rcases p with _ | ⟨k, p⟩ <;> rfl
    refine ⟨m.1 ++ ['/'] ++ t, by rw [hcons, ht]; simp, fun _ => ?_, by simp⟩
    by_cases hp : p = []
    · exact ⟨m.1, by rw [hnil hp, List.append_nil]⟩
    · obtain ⟨t', rfl⟩ := hslash hp
      exact ⟨m.1 ++ ['/'] ++ t', by simp⟩

theorem relText_ne_nil (hp : p ≠ []) : relText p ≠ [] := by
  obtain ⟨p, n, rfl⟩ := List.eq_nil_or_concat p |>.resolve_left hp
  rw [List.concat_eq_append]
  obtain ⟨t, ht, -⟩ := relText_concat p n
  rw [ht]
  simp [n.2.1]

/-- A relative path does not begin with a slash. -/
theorem head_relText (p : Path) : (relText p).head? ≠ some '/' := by
  rcases p with _ | ⟨n, p⟩
  · simp [relText, join]
  · have hcons : ∃ t, relText (n :: p) = n.1 ++ t := by
      rcases p with _ | ⟨m, p⟩
      · exact ⟨[], by simp [relText, join]⟩
      · exact ⟨['/'] ++ relText (m :: p), by rw [← List.append_assoc]; rfl⟩
    obtain ⟨t, ht⟩ := hcons
    obtain ⟨c, s, hs⟩ := List.exists_cons_of_ne_nil n.2.1
    rw [ht, hs]
    rintro ⟨⟩
    exact n.2.2.2.2 (hs ▸ List.mem_cons_self)

/-- Nor does it end with one. -/
theorem last_relText (p : Path) : (relText p).reverse.head? ≠ some '/' := by
  rcases List.eq_nil_or_concat p with rfl | ⟨p, n, rfl⟩
  · simp [relText, join]
  · rw [List.concat_eq_append]
    obtain ⟨t, ht, -⟩ := relText_concat p n
    rw [ht, List.reverse_append]
    obtain ⟨c, s, hs⟩ := List.exists_cons_of_ne_nil (List.reverse_ne_nil_iff.mpr n.2.1)
    rw [hs]
    rintro ⟨⟩
    refine n.2.2.2.2 (List.mem_reverse.mp ?_)
    rw [hs]
    exact List.mem_cons_self

theorem dropWhile_slash (h : s.head? ≠ some '/') : s.dropWhile (· = '/') = s := by
  rcases s with _ | ⟨c, s⟩
  · rfl
  · have hc : c ≠ '/' := fun hc => h (by rw [hc]; rfl)
    exact List.dropWhile_cons_of_neg (by simpa using hc)

theorem trimSlashes_relText (p : Path) : trimSlashes (relText p) = relText p := by
  rw [trimSlashes, dropWhile_slash (head_relText p), dropWhile_slash (last_relText p),
    List.reverse_reverse]

theorem base_relText (p : Path) (n : Name) : base (relText (p ++ [n])) = n.1 := by
  have hne : relText (p ++ [n]) ≠ [] := relText_ne_nil (by simp)
  rw [base, if_neg hne, dropWhile_slash (last_relText _), List.reverse_reverse]
  show (if relText (p ++ [n]) = [] then ['/'] else _) = n.1
  rw [if_neg hne, splitSlash_relText (by simp), List.map_append]
  simp

theorem relText_injective : Function.Injective fun p : { p : Path // p ≠ [] } => relText p.1 := by
  rintro ⟨p, hp⟩ ⟨q, hq⟩ h
  have hmap : p.map Subtype.val = q.map Subtype.val := by
    rw [← splitSlash_relText hp, ← splitSlash_relText hq]
    exact congrArg splitSlash h
  exact Subtype.ext (List.map_injective_iff.mpr Subtype.val_injective hmap)

end GoStd
