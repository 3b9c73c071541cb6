import Mathlib
import Gsm.Data.JsText

/-!
# Percent-encoding

`encodeURIComponent` over the code points of a string, and the bytes that its result stands for. What it gives holds
letters, digits and a few marks only, and the bytes are the UTF-8 of the string; half of a surrogate pair has no UTF-8
and is refused.
-/

namespace Js

/-- What `encodeURIComponent` keeps as it is -/
def isUnreserved (c : Char) : Bool :=
  c.isAlphanum || "-_.!~*'()".toList.contains c

/-- An upper-case hexadecimal digit -/
def percentDigit (n : ℕ) : Char := Char.ofNat (if n < 10 then 48 + n else 55 + n)

def percent (b : UInt8) : List Char := ['%', percentDigit (b.toNat / 16), percentDigit (b.toNat % 16)]

def encodeURIChar (c : Char) : List Char :=
  if isUnreserved c then [c] else (String.utf8EncodeChar c).flatMap percent

def encodeURIPoints : List CodePoint → Option (List Char)
  | [] => some []
  | .lone _ :: _ => none
  | .char c :: l => (encodeURIPoints l).map (encodeURIChar c ++ ·)

def encodeURIComponent (s : Text) : Option (List Char) := encodeURIPoints (codePoints s)

def percentValue (c : Char) : Option ℕ :=
  let n := c.toNat
  if 48 ≤ n ∧ n < 58 then some (n - 48)
  else if 65 ≤ n ∧ n < 71 then some (n - 55)
  else if 97 ≤ n ∧ n < 103 then some (n - 87)
  else none

/-- The bytes that an encoded text stands for -/
def percentBytes : List Char → Option (List UInt8)
  | [] => some []
  | '%' :: h :: l :: rest =>
      match percentValue h, percentValue l, percentBytes rest with
      | some h, some l, some bytes => some (UInt8.ofNat (16 * h + l) :: bytes)
      | _, _, _ => none
  | c :: rest =>
      if c = '%' ∨ 128 ≤ c.toNat then none else (percentBytes rest).map (UInt8.ofNat c.toNat :: ·)

theorem percentValue_digit : ∀ n < 16, percentValue (percentDigit n) = some n := by decide

theorem percentDigit_unreserved : ∀ n < 16, isUnreserved (percentDigit n) = true := by decide

theorem percentBytes_percent (b : UInt8) (rest : List Char) :
    percentBytes (percent b ++ rest) = (percentBytes rest).map (b :: ·) := by
  have hlt : b.toNat < 256 := b.toNat_lt
  have hhigh := percentValue_digit (b.toNat / 16) (by omega)
  have hlow := percentValue_digit (b.toNat % 16) (by omega)
  have hbyte : UInt8.ofNat (16 * (b.toNat / 16) + b.toNat % 16) = b := by
    rw [Nat.div_add_mod, UInt8.ofNat_toNat]
  rw [percent, List.cons_append, List.cons_append, List.cons_append, List.nil_append, percentBytes, hhigh, hlow]
  rcases percentBytes rest with _ | bytes
  · rfl
  · dsimp only
    rw [hbyte, Option.map_some]

theorem percentBytes_percents (b : List UInt8) (rest : List Char) :
    percentBytes (b.flatMap percent ++ rest) = (percentBytes rest).map (b ++ ·) := by
  induction b with
  | nil => exact Option.map_id'.symm
  | cons x b ih =>
    rw [List.flatMap_cons, List.append_assoc, percentBytes_percent, ih, Option.map_map]
    rfl

theorem toNat_unreserved {c : Char} (h : isUnreserved c = true) : c ≠ '%' ∧ 33 ≤ c.toNat ∧ c.toNat < 127 := by
  rw [isUnreserved, Bool.or_eq_true] at h
  rcases h with halnum | hmark
  · have hbounds : 48 ≤ c.toNat ∧ c.toNat ≤ 122 := by
      simp only [Char.isAlphanum, Char.isAlpha, Char.isUpper, Char.isLower, Char.isDigit, Bool.or_eq_true,
        Bool.and_eq_true, decide_eq_true_eq, ge_iff_le, UInt32.le_iff_toNat_le, Char.reduceVal,
        UInt32.reduceToNat] at halnum
      rw [Char.toNat]
      omega
    refine ⟨?_, by omega, by omega⟩
    rintro rfl
    exact absurd hbounds.1 (by decide)
  · have hall : ("-_.!~*'()".toList.all fun d => decide (d ≠ '%' ∧ 33 ≤ d.toNat ∧ d.toNat < 127)) = true := by decide
    exact of_decide_eq_true (List.all_eq_true.mp hall c (List.contains_iff_mem.mp hmark))

theorem percentBytes_unreserved {c : Char} (h : isUnreserved c = true) (rest : List Char) :
    percentBytes (c :: rest) = (percentBytes rest).map (String.utf8EncodeChar c ++ ·) := by
  obtain ⟨hpercent, -, hlt⟩ := toNat_unreserved h
  have hencode : String.utf8EncodeChar c = [UInt8.ofNat c.toNat] := by
    have hval : c.val.toNat ≤ 127 := by
      change c.toNat ≤ 127
      omega
    unfold String.utf8EncodeChar
    dsimp only
    rw [if_pos hval]
    rfl
  have hkept : ¬ (c = '%' ∨ 128 ≤ c.toNat) := by
    rw [not_or, Nat.not_le]
    exact ⟨hpercent, by omega⟩
  rw [hencode, percentBytes, if_neg hkept]
  · rfl
  · exact fun _ _ _ heq => absurd heq hpercent

theorem percentBytes_char (c : Char) (rest : List Char) :
    percentBytes (encodeURIChar c ++ rest) = (percentBytes rest).map (String.utf8EncodeChar c ++ ·) := by
  rw [encodeURIChar]
  split
  · next hkept => exact percentBytes_unreserved hkept rest
  · exact percentBytes_percents _ rest

/-- What an encoded string stands for is the string in UTF-8. -/
theorem percentBytes_encodeURIComponent {s : Text} {e : List Char} (h : encodeURIComponent s = some e) :
    percentBytes e = some (encode s) := by
  rw [encodeURIComponent] at h
  rw [encode]
  generalize codePoints s = points at h ⊢
  induction points generalizing e with
  | nil =>
    cases h
    rfl
  | cons p l ih =>
    rcases p with c | u
    · obtain ⟨rest, hrest, rfl⟩ := Option.map_eq_some_iff.mp h
      rw [percentBytes_char, ih hrest, List.flatMap_cons]
      rfl
    · cases h

theorem mem_encodeURIChar {c d : Char} (h : d ∈ encodeURIChar c) : isUnreserved d = true ∨ d = '%' := by
  rw [encodeURIChar] at h
  split at h
  · next hkept =>
    rw [List.mem_singleton.mp h]
    exact .inl hkept
  · obtain ⟨b, -, hb⟩ := List.mem_flatMap.mp h
    have hlt : b.toNat < 256 := b.toNat_lt
    simp only [percent, List.mem_cons, List.not_mem_nil, or_false] at hb
    rcases hb with rfl | rfl | rfl
    · exact .inr rfl
    · exact .inl (percentDigit_unreserved _ (by omega))
    · exact .inl (percentDigit_unreserved _ (by omega))

theorem mem_encodeURIComponent {s : Text} {e : List Char} (h : encodeURIComponent s = some e) :
    ∀ d ∈ e, isUnreserved d = true ∨ d = '%' := by
  rw [encodeURIComponent] at h
  generalize codePoints s = points at h
  induction points generalizing e with
  | nil =>
    cases h
    exact List.forall_mem_nil _
  | cons p l ih =>
    rcases p with c | u
    · obtain ⟨rest, hrest, rfl⟩ := Option.map_eq_some_iff.mp h
      intro d hd
      rcases List.mem_append.mp hd with hc | hl
      · exact mem_encodeURIChar hc
      · exact ih hrest d hl
    · cases h

/-- Only half of a surrogate pair is refused. -/
theorem encodeURIComponent_isSome (s : Text) :
    (encodeURIComponent s).isSome = true ↔ ∀ p ∈ codePoints s, isLone p = false := by
  rw [encodeURIComponent]
  induction codePoints s with
  | nil => exact ⟨fun _ => List.forall_mem_nil _, fun _ => rfl⟩
  | cons p l ih =>
    rw [List.forall_mem_cons, ← ih]
    rcases p with c | u
    · rw [encodeURIPoints, Option.isSome_map, isLone]
      exact ⟨fun hl => ⟨rfl, hl⟩, And.right⟩
    · exact ⟨nofun, fun hl => nomatch hl.1⟩

end Js
