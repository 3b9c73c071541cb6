import Gsm.GoStd.Json
import Gsm.Data.Trim

/-!
# `strings.TrimSpace` and the characters of a string

A character ends before every ASCII byte, so around one a string is read as its two parts
(`chars_append_ascii`). What `trimBlanks` leaves starts with no blank, and a string that starts with none
keeps everything up to an ASCII character that is none.
-/

open Data

namespace GoStd

variable {a b c : Char} {s t : Str} {x y z x' y' z' : Option ℕ} {n : ℕ}

/-! ## Characters in a longer string -/

/-- More bytes behind it do not change a character. -/
theorem withTail_mono {a : ℕ} (hx : x = none ∨ x' = x) (hy : y = none ∨ y' = y) (hz : z = none ∨ z' = z)
    (h : withTail a x y z ≠ (runeError, 1)) : withTail a x' y' z' = withTail a x y z := by
  rcases x with _ | u
  · exact absurd rfl h
  obtain rfl : x' = some u := hx.resolve_left (by simp)
  rcases y with _ | v
  · rw [withTail] at h ⊢
    split at h
    · next htwo =>
      rw [if_pos htwo]
      rcases y' with _ | v
      · rw [withTail, if_pos htwo]
      · rcases z' with _ | w <;> rw [withTail, if_pos htwo]
    · exact absurd rfl h
  obtain rfl : y' = some v := hy.resolve_left (by simp)
  rcases z with _ | w
  · rw [withTail] at h ⊢
    split at h
    · next htwo =>
      rw [if_pos htwo]
      rcases z' with _ | w <;> rw [withTail, if_pos htwo]
    · next htwo =>
      rw [if_neg htwo]
      split at h
      · next hthree =>
        rw [if_pos hthree]
        rcases z' with _ | w <;> rw [withTail, if_neg htwo, if_pos hthree]
      · exact absurd rfl h
  · obtain rfl : z' = some w := hz.resolve_left (by simp)
    rfl

theorem continuing_append {lo hi : ℕ} (s t : Str) (k : ℕ) :
    continuing lo hi (s.drop k) = none ∨ continuing lo hi ((s ++ t).drop k) = continuing lo hi (s.drop k) := by
  rcases hs : s.drop k with _ | ⟨b, r⟩
  · exact .inl rfl
  · have hk : k ≤ s.length := by
      by_contra hlt
      rw [List.drop_eq_nil_of_le (by omega)] at hs
      cases hs
    rw [List.drop_append_of_le_length hk, hs]
    exact .inr rfl

theorem decodeRune_append (h : decodeRune (b :: s) ≠ (runeError, 1)) (t : Str) :
    decodeRune (b :: (s ++ t)) = decodeRune (b :: s) := by
  by_cases hb : b.toNat < 0x80
  · rw [decodeRune_low hb, decodeRune_low hb]
  · rw [decodeRune_high hb] at h ⊢
    rw [decodeRune_high hb]
    exact withTail_mono (continuing_append s t 0) (continuing_append s t 1) (continuing_append s t 2) h

theorem withTail_two {a : ℕ} (h : (withTail a x y z).2 = 2) : withTail a x none none = withTail a x y z := by
  rcases x with _ | u
  · rfl
  rcases y with _ | v
  · rfl
  rcases z with _ | w <;> rw [withTail] at h ⊢ <;> rw [withTail] <;> split
  · rfl
  · next htwo =>
    rw [if_neg htwo] at h
    split at h <;> simp at h
  · rfl
  · next htwo =>
    rw [if_neg htwo] at h
    split at h
    · simp at h
    · split at h <;> simp at h

theorem withTail_three {a : ℕ} (h : (withTail a x y z).2 = 3) : withTail a x y none = withTail a x y z := by
  rcases x with _ | u
  · rfl
  rcases y with _ | v
  · rfl
  rcases z with _ | w
  · rfl
  rw [withTail] at h ⊢
  rw [withTail]
  split
  · rfl
  · next htwo =>
    rw [if_neg htwo] at h
    split
    · rfl
    · next hthree =>
      rw [if_neg hthree] at h
      split at h <;> simp at h

/-- A character by itself is read as it is in the string. -/
theorem decodeRune_take (h : decodeRune s ≠ (runeError, 1)) :
    decodeRune (s.take (decodeRune s).2) = decodeRune s := by
  rcases s with _ | ⟨b, t⟩
  · rfl
  by_cases hb : b.toNat < 0x80
  · rw [decodeRune_low hb]
    exact decodeRune_low hb _
  rw [decodeRune_high hb] at h ⊢
  rcases withTail_cases b.toNat (continuing (secondLow b.toNat) (secondHigh b.toNat) t)
    (continuing 0x80 0xbf (t.drop 1)) (continuing 0x80 0xbf (t.drop 2)) with hn | ⟨hn, hx⟩ | ⟨hn, hx⟩ | ⟨hn, hx⟩
  · exact absurd hn h
  · rcases t with _ | ⟨u, t⟩
    · cases hx
    rw [hn, ← withTail_two hn]
    exact decodeRune_high hb [u]
  · rcases t with _ | ⟨u, _ | ⟨v, t⟩⟩
    · cases hx
    · cases hx
    rw [hn, ← withTail_three hn]
    exact decodeRune_high hb [u, v]
  · rcases t with _ | ⟨u, _ | ⟨v, _ | ⟨w, t⟩⟩⟩
    · cases hx
    · cases hx
    · cases hx
    rw [hn]
    exact decodeRune_high hb [u, v, w]

theorem continuing_stop {lo hi : ℕ} (hc : c.toNat < lo) (s : Str) : continuing lo hi (c :: s) = none :=
  if_neg fun hin => absurd hin.1 (Nat.not_le.mpr hc)

theorem le_secondLow (a : ℕ) : 0x80 ≤ secondLow a := by
  rw [secondLow]
  split
  · decide
  · split <;> decide

/-- A character does not go on with an ASCII byte. -/
theorem decodeRune_ascii (hc : c.toNat < 0x80) (b : Char) (s t : Str) :
    decodeRune (b :: (s ++ c :: t)) = decodeRune (b :: s) := by
  by_cases hb : b.toNat < 0x80
  · rw [decodeRune_low hb, decodeRune_low hb]
  rw [decodeRune_high hb, decodeRune_high hb]
  have hsecond := hc.trans_le (le_secondLow b.toNat)
  rcases s with _ | ⟨u, _ | ⟨v, _ | ⟨w, s⟩⟩⟩
  · rw [List.nil_append, continuing_stop hsecond]
    rfl
  · show withTail _ (continuing _ _ (u :: _)) (continuing _ _ (c :: t)) _ =
      withTail _ (continuing _ _ [u]) (continuing _ _ []) _
    rw [continuing_stop hc]
    show withTail _ (continuing _ _ [u]) none _ = withTail _ (continuing _ _ [u]) none _
    rcases continuing (secondLow b.toNat) (secondHigh b.toNat) [u] with _ | r <;> rfl
  · show withTail _ (continuing _ _ (u :: _)) (continuing _ _ (v :: _)) (continuing _ _ (c :: t)) =
      withTail _ (continuing _ _ [u, v]) (continuing _ _ [v]) (continuing _ _ [])
    rw [continuing_stop hc]
    rfl
  · rfl

theorem charsFrom_eq (s : Str) (k : ℕ) : charsFrom k s = chars (s.drop k) := by
  induction s generalizing k with
  | nil =>
    rw [List.drop_nil]
    rcases k with _ | k <;> rfl
  | cons b s ih =>
    rcases k with _ | k
    · rfl
    · rw [charsFrom, ih, List.drop_succ_cons]

theorem chars_cons (b : Char) (s : Str) : chars (b :: s) =
    (b :: s).take (decodeRune (b :: s)).2 :: chars ((b :: s).drop (decodeRune (b :: s)).2) := by
  obtain ⟨hpos, -, -⟩ := decodeRune_spec b s
  obtain ⟨k, hk⟩ : ∃ k, (decodeRune (b :: s)).2 = k + 1 := ⟨_, (Nat.sub_add_cancel hpos).symm⟩
  rw [chars, charsFrom, charsFrom_eq, hk, List.drop_succ_cons]
  rfl

theorem flatten_chars (s : Str) : (chars s).flatten = s := by
  induction hn : s.length using Nat.strong_induction_on generalizing s with
  | _ n ih =>
    rcases s with _ | ⟨b, s⟩
    · rfl
    · obtain ⟨hpos, -, -⟩ := decodeRune_spec b s
      have hless : ((b :: s).drop (decodeRune (b :: s)).2).length < n := by
        rw [List.length_drop, ← hn, List.length_cons]
        omega
      rw [chars_cons, List.flatten_cons, ih _ hless _ rfl, List.take_append_drop]

/-- Around an ASCII byte the parts of a string are read by themselves. -/
theorem chars_append_ascii (hc : c.toNat < 0x80) (s t : Str) :
    chars (s ++ c :: t) = chars s ++ [c] :: chars t := by
  induction hn : s.length using Nat.strong_induction_on generalizing s with
  | _ n ih =>
    rcases s with _ | ⟨b, s⟩
    · rw [List.nil_append, chars_cons, decodeRune_low hc]
      rfl
    · obtain ⟨hpos, hthere, -⟩ := decodeRune_spec b s
      have hlen : (decodeRune (b :: s)).2 ≤ (b :: s).length := hthere
      have hless : ((b :: s).drop (decodeRune (b :: s)).2).length < n := by
        rw [List.length_drop, ← hn, List.length_cons]
        omega
      rw [List.cons_append, chars_cons, chars_cons, decodeRune_ascii hc, ← List.cons_append,
        List.take_append_of_le_length hlen, List.drop_append_of_le_length hlen, ih _ hless _ rfl,
        List.cons_append]

/-- Behind some of its characters, a string goes on with the others. -/
theorem chars_suffix {u w : List Str} (h : chars s = u ++ w) : chars w.flatten = w := by
  induction u generalizing s with
  | nil =>
    rw [List.nil_append] at h
    rw [← h, flatten_chars]
  | cons d u ih =>
    rcases s with _ | ⟨b, s⟩
    · cases h
    · rw [chars_cons, List.cons_append] at h
      exact ih (List.cons.inj h).2

/-- Cut behind its end, a character is as long as before. -/
theorem decodeRune_cut {b : Char} {s t : Str} (hn : (decodeRune (b :: (s ++ t))).2 ≤ s.length + 1) :
    (decodeRune (b :: s)).2 = (decodeRune (b :: (s ++ t))).2 := by
  by_cases hcut : decodeRune (b :: s) = (runeError, 1)
  · -- with more bytes behind it, it is still no character
    have hwhole : decodeRune (b :: (s ++ t)) = (runeError, 1) := by
      by_contra hvalid
      obtain ⟨hpos, -, -⟩ := decodeRune_spec b (s ++ t)
      obtain ⟨k, hk⟩ : ∃ k, (decodeRune (b :: (s ++ t))).2 = k + 1 := ⟨_, (Nat.sub_add_cancel hpos).symm⟩
      have htake := decodeRune_take hvalid
      rw [hk] at hn
      rw [hk, List.take_succ_cons, List.take_append_of_le_length (by omega)] at htake
      have hfront := decodeRune_append (htake.symm ▸ hvalid) (s.drop k)
      rw [List.take_append_drop, htake] at hfront
      exact hvalid (hfront.symm.trans hcut)
    rw [hcut, hwhole]
  · rw [decodeRune_append hcut]

/-- Some of its characters from the start are those of a string too. -/
theorem chars_prefix {u w : List Str} (h : chars s = u ++ w) : chars u.flatten = u := by
  induction u generalizing s with
  | nil => rfl
  | cons d u ih =>
    rcases s with _ | ⟨b, s⟩
    · cases h
    · have hflat : b :: s = (d :: u).flatten ++ w.flatten := by
        rw [← List.flatten_append, ← h, flatten_chars]
      rw [chars_cons, List.cons_append] at h
      obtain ⟨hd, hrest⟩ := List.cons.inj h
      obtain ⟨hpos, hthere, -⟩ := decodeRune_spec b s
      have hlen : d.length = (decodeRune (b :: s)).2 := by
        rw [← hd, List.length_take]
        exact Nat.min_eq_left hthere
      rcases d with _ | ⟨c, d⟩
      · rw [List.length_nil] at hlen
        omega
      · rw [List.flatten_cons, List.cons_append, List.cons_append, List.append_assoc] at hflat
        obtain ⟨rfl, hs⟩ := List.cons.inj hflat
        have hcut : (decodeRune (b :: (d ++ u.flatten))).2 = (b :: d).length := by
          rw [hs, ← List.append_assoc] at hlen
          rw [hlen]
          refine decodeRune_cut ?_
          rw [← hlen, List.length_cons, List.length_append]
          omega
        rw [List.flatten_cons, List.cons_append, chars_cons, hcut, ← List.cons_append, List.take_left,
          List.drop_left, ih hrest]

/-! ## Blanks -/

theorem ne_runeError_of_isSpace (h : isSpace s = true) : decodeRune s ≠ (runeError, 1) := by
  intro heq
  rw [isSpace, heq] at h
  exact absurd h (by decide)

theorem isSpace_of_eq (h : decodeRune s = decodeRune t) : isSpace s = isSpace t := by
  rw [isSpace, isSpace, h]

theorem isSpace_nil : isSpace [] = false := by decide

/-- A string starts with a blank when a part of it from the start does. -/
theorem isSpace_append (h : isSpace s = true) (t : Str) : isSpace (s ++ t) = true := by
  rcases s with _ | ⟨b, s⟩
  · rw [isSpace_nil] at h
    cases h
  · rw [List.cons_append, isSpace_of_eq (decodeRune_append (ne_runeError_of_isSpace h) t)]
    exact h

/-- The first character of a string says whether the string starts with a blank. -/
theorem isSpace_take (h : isSpace s = true) : isSpace (s.take (decodeRune s).2) = true := by
  rw [isSpace_of_eq (decodeRune_take (ne_runeError_of_isSpace h))]
  exact h

/-! ## `strings.TrimSpace` -/

/-- What is trimmed at the end. -/
def trimRight (s : Str) : Str := ((chars s).rdropWhile isSpace).flatten

theorem trimBlanks_eq (s : Str) : trimBlanks s = (Trim.trim isSpace (chars s)).flatten := rfl

/-- A trimmed string starts with no blank. -/
theorem isSpace_trimBlanks (s : Str) : isSpace (trimBlanks s) = false := by
  rw [trimBlanks_eq]
  rcases htrim : Trim.trim isSpace (chars s) with _ | ⟨d, rest⟩
  · exact isSpace_nil
  · obtain ⟨u, w, -, -, heq⟩ := Trim.exists_trim isSpace (chars s)
    rw [htrim, List.append_assoc] at heq
    have hsuffix := chars_suffix heq
    by_contra hspace
    rw [Bool.not_eq_false] at hspace
    -- then what was there from the first character on started with a blank, and so did that character
    have hlong : isSpace ((d :: rest) ++ w).flatten = true := by
      rw [List.flatten_append]
      exact isSpace_append hspace _
    have hhead := isSpace_take hlong
    rcases hflat : ((d :: rest) ++ w).flatten with _ | ⟨b, t⟩
    · rw [hflat, isSpace_nil] at hlong
      cases hlong
    · rw [hflat, chars_cons, List.cons_append] at hsuffix
      rw [hflat, (List.cons.inj hsuffix).1, Trim.head_trim htrim] at hhead
      cases hhead

theorem dropWhile_chars (hs : isSpace s = false) : (chars s).dropWhile isSpace = chars s := by
  rcases s with _ | ⟨b, r⟩
  · rfl
  · rw [chars_cons]
    refine List.dropWhile_cons_of_neg ?_
    by_contra hhead
    have := isSpace_append hhead ((b :: r).drop (decodeRune (b :: r)).2)
    rw [List.take_append_drop, hs] at this
    cases this

/-- An ASCII character that is no blank does not make one of what stands before it. -/
theorem isSpace_append_ascii (hs : isSpace s = false) (hc : c.toNat < 0x80) (hblank : isSpace [c] = false)
    (t : Str) : isSpace (s ++ c :: t) = false := by
  rcases s with _ | ⟨b, r⟩
  · rw [List.nil_append, isSpace_of_eq ((decodeRune_low hc t).trans (decodeRune_low hc []).symm)]
    exact hblank
  · rw [List.cons_append, isSpace_of_eq (decodeRune_ascii hc b r t)]
    exact hs

theorem trimRight_nil : trimRight [] = [] := rfl

/-- Up to an ASCII character that is no blank everything is kept. -/
theorem trimRight_append (hc : c.toNat < 0x80) (hblank : isSpace [c] = false) (s t : Str) :
    trimRight (s ++ c :: t) = s ++ c :: trimRight t := by
  rw [trimRight, chars_append_ascii hc, Trim.rdropWhile_append_cons hblank, List.flatten_append, flatten_chars,
    List.flatten_cons]
  rfl

/-- What is trimmed at the end is blank. -/
theorem exists_trimRight (s : Str) : ∃ b, s = trimRight s ++ b ∧ trimRight b = [] := by
  have heq : chars s = (chars s).rdropWhile isSpace ++ (chars s).rtakeWhile isSpace :=
    List.rdropWhile_append_rtakeWhile.symm
  refine ⟨((chars s).rtakeWhile isSpace).flatten, ?_, ?_⟩
  · rw [trimRight, ← List.flatten_append, ← heq, flatten_chars]
  · rw [trimRight, chars_suffix heq, List.rdropWhile_eq_nil_iff.mpr fun d hd => List.mem_rtakeWhile_imp hd]
    rfl

/-- The blanks in front aside, trimming is what is done at the end. -/
theorem trimBlanks_eq_trimRight (s : Str) : trimBlanks s = trimRight ((chars s).dropWhile isSpace).flatten := by
  have hsuffix := chars_suffix (List.takeWhile_append_dropWhile (p := isSpace) (l := chars s)).symm
  rw [trimBlanks_eq, Trim.trim, trimRight, hsuffix]

/-- What starts with no blank is kept up to any ASCII character that is none. -/
theorem trimBlanks_append (hs : isSpace s = false) (hc : c.toNat < 0x80) (hblank : isSpace [c] = false)
    (t : Str) : trimBlanks (s ++ c :: t) = s ++ c :: trimRight t := by
  rw [trimBlanks_eq_trimRight, dropWhile_chars (isSpace_append_ascii hs hc hblank t), flatten_chars,
    trimRight_append hc hblank]

/-- The characters of a trimmed string are those that were left. -/
theorem chars_trimBlanks (s : Str) : chars (trimBlanks s) = Trim.trim isSpace (chars s) := by
  obtain ⟨u, w, -, -, heq⟩ := Trim.exists_trim isSpace (chars s)
  rw [List.append_assoc] at heq
  exact chars_prefix (chars_suffix heq)

theorem trimBlanks_idem (s : Str) : trimBlanks (trimBlanks s) = trimBlanks s := by
  rw [trimBlanks_eq, chars_trimBlanks, Trim.trim_trim, trimBlanks_eq]

theorem trimBlanks_infix (s : Str) : ∃ u w, s = u ++ trimBlanks s ++ w := by
  obtain ⟨u, w, -, -, heq⟩ := Trim.exists_trim isSpace (chars s)
  refine ⟨u.flatten, w.flatten, ?_⟩
  rw [trimBlanks_eq, ← List.flatten_append, ← List.flatten_append, ← heq, flatten_chars]

theorem mem_of_mem_trimBlanks (h : c ∈ trimBlanks s) : c ∈ s := by
  obtain ⟨u, w, heq⟩ := trimBlanks_infix s
  rw [heq]
  exact List.mem_append_left _ (List.mem_append_right _ h)

/-! ## ASCII -/

theorem chars_ascii (h : ∀ c ∈ s, c.toNat < 0x80) : chars s = s.map fun c => [c] := by
  induction s with
  | nil => rfl
  | cons c s ih =>
    obtain ⟨hc, hmore⟩ := List.forall_mem_cons.mp h
    rw [chars_cons, decodeRune_low hc, List.map_cons, ← ih hmore]
    rfl

/-- Of an ASCII string the bytes trimmed are blanks. -/
theorem trimBlanks_ascii (h : ∀ c ∈ s, c.toNat < 0x80) :
    ∃ u w, s = u ++ trimBlanks s ++ w ∧ (∀ c ∈ u, isSpace [c] = true) ∧ ∀ c ∈ w, isSpace [c] = true := by
  obtain ⟨u, w, hu, hw, heq⟩ := Trim.exists_trim isSpace (chars s)
  have hpart : ∀ v : List Str, (∀ d ∈ v, d ∈ chars s) → Trim.Blank isSpace v →
      ∀ c ∈ v.flatten, isSpace [c] = true := by
    intro v hsub hblank c hc
    obtain ⟨d, hd, hmem⟩ := List.mem_flatten.mp hc
    have hd' := hsub d hd
    rw [chars_ascii h] at hd'
    obtain ⟨b, -, rfl⟩ := List.mem_map.mp hd'
    rw [List.mem_singleton.mp hmem]
    exact hblank _ hd
  refine ⟨u.flatten, w.flatten, ?_, hpart u (fun d hd => ?_) hu, hpart w (fun d hd => ?_) hw⟩
  · rw [trimBlanks_eq, ← List.flatten_append, ← List.flatten_append, ← heq, flatten_chars]
  · rw [heq]
    exact List.mem_append_left _ (List.mem_append_left _ hd)
  · rw [heq]
    exact List.mem_append_right _ hd

theorem toNat_of_isSpace (hc : c.toNat < 0x80) (h : isSpace [c] = true) : c.toNat ≤ 0x20 := by
  simp [isSpace, decodeRune_low hc] at h
  omega

end GoStd
