import Gsm.Data.JsText
import Gsm.GoStd.Match

/-!
# Strings across JSON

What `json.Unmarshal` makes of a string that `JSON.stringify` wrote: the bytes of its text, with the
replacement character for the halves of surrogate pairs. And what `JSON.parse` makes of a string that
`json.Marshal` wrote: the characters its bytes are UTF-8 for (`runes`), with the replacement character for
every byte that is not. It is never longer than the bytes are many.
-/

namespace GoStd

/-- The Go string that a JavaScript string arrives as. -/
def received (s : Js.Text) : Str := (Js.encode s).map fun b => Char.ofNat b.toNat

theorem received_ofChars {a : Str} (h : ∀ c ∈ a, c.toNat < 128) : received (Js.ofChars a) = a := by
  rw [received, Js.encode_ofChars]
  induction a with
  | nil => rfl
  | cons c a ih =>
    have hc := h c List.mem_cons_self
    have hsize : c.utf8Size = 1 := by
      rw [Char.utf8Size_eq_one_iff, UInt32.le_iff_toNat_le]
      exact Nat.le_of_lt_succ hc
    have hbyte : c.val.toUInt8.toNat = c.toNat := by
      rw [UInt32.toNat_toUInt8]
      exact Nat.mod_eq_of_lt (hc.trans (by decide))
    rw [Js.encodeChars, List.flatMap_cons, String.utf8EncodeChar_eq_singleton hsize, List.singleton_append,
      List.map_cons, hbyte, Char.ofNat_toNat]
    exact congrArg _ (ih fun d hd => h d (List.mem_cons_of_mem _ hd))

/-! ## From Go -/

/-- The characters of a string, with how many bytes of the one before are still to come. -/
def runesFrom : ℕ → Str → List Char
  | _, [] => []
  | k + 1, _ :: s => runesFrom k s
  | 0, b :: s => Char.ofNat (decodeRune (b :: s)).1 :: runesFrom ((decodeRune (b :: s)).2 - 1) s

/-- `[]rune(s)` -/
def runes (s : Str) : List Char := runesFrom 0 s

/-- The JavaScript string that a Go string arrives as. -/
def sent (s : Str) : Js.Text := Js.ofChars (runes s)

theorem length_unitsOf_le (c : Char) : (Js.unitsOf c).length ≤ 2 := by
  rw [Js.unitsOf]
  split <;> simp

theorem length_unitsOf_small {c : Char} (h : c.toNat < 0x10000) : (Js.unitsOf c).length = 1 := by
  rw [Js.unitsOf, if_pos h]
  rfl

/-- What `decodeRune` makes of a first byte and what the three bytes behind it hold. -/
def withTail (a : ℕ) (x y z : Option ℕ) : ℕ × ℕ :=
  match x, y, z with
  | some b, none, _ => if 0xc2 ≤ a ∧ a ≤ 0xdf then (a % 0x20 * 0x40 + b, 2) else (runeError, 1)
  | some b, some c, none =>
      if 0xc2 ≤ a ∧ a ≤ 0xdf then (a % 0x20 * 0x40 + b, 2)
      else if 0xe0 ≤ a ∧ a ≤ 0xef then ((a % 0x10 * 0x40 + b) * 0x40 + c, 3)
      else (runeError, 1)
  | some b, some c, some d =>
      if 0xc2 ≤ a ∧ a ≤ 0xdf then (a % 0x20 * 0x40 + b, 2)
      else if 0xe0 ≤ a ∧ a ≤ 0xef then ((a % 0x10 * 0x40 + b) * 0x40 + c, 3)
      else if 0xf0 ≤ a ∧ a ≤ 0xf4 then (((a % 8 * 0x40 + b) * 0x40 + c) * 0x40 + d, 4)
      else (runeError, 1)
  | none, _, _ => (runeError, 1)

/-- The bounds of a second byte -/
def secondLow (a : ℕ) : ℕ := if a = 0xe0 then 0xa0 else if a = 0xf0 then 0x90 else 0x80

def secondHigh (a : ℕ) : ℕ := if a = 0xed then 0x9f else if a = 0xf4 then 0x8f else 0xbf

theorem decodeRune_low {b : Char} (h : b.toNat < 0x80) (s : Str) : decodeRune (b :: s) = (b.toNat, 1) := by
  rw [decodeRune]
  exact if_pos h

theorem decodeRune_high {b : Char} (h : ¬ b.toNat < 0x80) (s : Str) : decodeRune (b :: s) =
    withTail b.toNat (continuing (secondLow b.toNat) (secondHigh b.toNat) s)
      (continuing 0x80 0xbf (s.drop 1)) (continuing 0x80 0xbf (s.drop 2)) := by
  rw [decodeRune]
  exact if_neg h

/-- The bytes a character has are there. -/
theorem withTail_cases (a : ℕ) (x y z : Option ℕ) : withTail a x y z = (runeError, 1) ∨
    ((withTail a x y z).2 = 2 ∧ x.isSome) ∨ ((withTail a x y z).2 = 3 ∧ y.isSome) ∨
      ((withTail a x y z).2 = 4 ∧ z.isSome) := by
  rcases x with _ | b
  · exact .inl rfl
  rcases y with _ | c
  · rw [withTail]
    split
    · exact .inr (.inl ⟨rfl, rfl⟩)
    · exact .inl rfl
  rcases z with _ | d <;> rw [withTail]
  · split
    · exact .inr (.inl ⟨rfl, rfl⟩)
    split
    · exact .inr (.inr (.inl ⟨rfl, rfl⟩))
    · exact .inl rfl
  · split
    · exact .inr (.inl ⟨rfl, rfl⟩)
    split
    · exact .inr (.inr (.inl ⟨rfl, rfl⟩))
    split
    · exact .inr (.inr (.inr ⟨rfl, rfl⟩))
    · exact .inl rfl

theorem continuing_isSome {lo hi k : ℕ} {s : Str} (h : (continuing lo hi (s.drop k)).isSome) :
    k < s.length := by
  by_contra hk
  rw [List.drop_eq_nil_of_le (Nat.le_of_not_lt hk)] at h
  cases h

/-- A character takes no more code units than it has bytes, and its bytes are there. -/
theorem decodeRune_spec (b : Char) (s : Str) : 1 ≤ (decodeRune (b :: s)).2 ∧
    (decodeRune (b :: s)).2 ≤ s.length + 1 ∧
      (Js.unitsOf (Char.ofNat (decodeRune (b :: s)).1)).length ≤ (decodeRune (b :: s)).2 := by
  by_cases hb : b.toNat < 0x80
  · rw [decodeRune_low hb, Char.ofNat_toNat]
    exact ⟨le_refl _, Nat.succ_le_succ (Nat.zero_le _), (length_unitsOf_small (by omega)).le⟩
  · rw [decodeRune_high hb]
    have htwo := length_unitsOf_le (Char.ofNat (withTail b.toNat
      (continuing (secondLow b.toNat) (secondHigh b.toNat) s) (continuing 0x80 0xbf (s.drop 1))
        (continuing 0x80 0xbf (s.drop 2))).1)
    rcases withTail_cases b.toNat (continuing (secondLow b.toNat) (secondHigh b.toNat) s)
      (continuing 0x80 0xbf (s.drop 1)) (continuing 0x80 0xbf (s.drop 2)) with h | ⟨h, hx⟩ | ⟨h, hx⟩ | ⟨h, hx⟩
    · rw [h]
      exact ⟨le_refl _, Nat.succ_le_succ (Nat.zero_le _), (length_unitsOf_small (by decide)).le⟩
    · have hlen := continuing_isSome (k := 0) hx
      rw [h]
      exact ⟨by omega, by omega, htwo⟩
    · have hlen := continuing_isSome hx
      rw [h]
      exact ⟨by omega, by omega, by omega⟩
    · have hlen := continuing_isSome hx
      rw [h]
      exact ⟨by omega, by omega, by omega⟩

theorem length_runesFrom (s : Str) (k : ℕ) (h : k ≤ s.length) :
    (Js.ofChars (runesFrom k s)).length + k ≤ s.length := by
  induction s generalizing k with
  | nil =>
    rw [Nat.le_zero.mp h]
    exact le_refl _
  | cons b s ih =>
    rcases k with _ | k
    · obtain ⟨hpos, hthere, hunits⟩ := decodeRune_spec b s
      have hmore := ih ((decodeRune (b :: s)).2 - 1) (by omega)
      rw [runesFrom, Js.ofChars, List.flatMap_cons, List.length_append, List.length_cons]
      rw [Js.ofChars] at hmore
      omega
    · have hmore := ih k (Nat.le_of_succ_le_succ h)
      rw [runesFrom, List.length_cons]
      omega

/-- A string has at least as many bytes as its text has code units. -/
theorem length_sent_le (s : Str) : (sent s).length ≤ s.length := length_runesFrom s 0 (Nat.zero_le _)

theorem runes_ascii {s : Str} (h : ∀ c ∈ s, c.toNat < 128) : runes s = s := by
  induction s with
  | nil => rfl
  | cons c s ih =>
    rw [runes, runesFrom, decodeRune_low (h c List.mem_cons_self), Char.ofNat_toNat]
    exact congrArg (List.cons c) (ih fun d hd => h d (List.mem_cons_of_mem _ hd))

/-- The byte no character has. -/
def noByte : Char := Char.ofNat 0xFF

theorem continuing_noByte {lo hi : ℕ} (h : hi < 0xFF) (s : Str) : continuing lo hi (noByte :: s) = none :=
  if_neg fun hin => absurd (hin.2.trans_lt h) (by decide)

theorem secondHigh_lt (a : ℕ) : secondHigh a < 0xFF := by
  rw [secondHigh]
  split
  · decide
  · split <;> decide

/-- A character does not go on with such a byte. -/
theorem decodeRune_noByte (b : Char) (s t : Str) :
    decodeRune (b :: (s ++ noByte :: t)) = decodeRune (b :: s) := by
  by_cases hb : b.toNat < 0x80
  · rw [decodeRune_low hb, decodeRune_low hb]
  rw [decodeRune_high hb, decodeRune_high hb]
  have hhigh := secondHigh_lt b.toNat
  rcases s with _ | ⟨x, _ | ⟨y, _ | ⟨z, s⟩⟩⟩
  · rw [List.nil_append, continuing_noByte hhigh]
    rfl
  · show withTail _ (continuing _ _ (x :: _)) (continuing _ _ (noByte :: t)) _ =
      withTail _ (continuing _ _ [x]) (continuing _ _ []) _
    rw [continuing_noByte (by decide)]
    show withTail _ (continuing _ _ [x]) none _ = withTail _ (continuing _ _ [x]) none _
    rcases continuing (secondLow b.toNat) (secondHigh b.toNat) [x] with _ | v <;> rfl
  · show withTail _ (continuing _ _ (x :: _)) (continuing _ _ (y :: _)) (continuing _ _ (noByte :: t)) =
      withTail _ (continuing _ _ [x, y]) (continuing _ _ [y]) (continuing _ _ [])
    rw [continuing_noByte (by decide)]
    rfl
  · rfl

theorem runesFrom_append_noByte (s : Str) (k n : ℕ) (h : k ≤ s.length) :
    runesFrom k (s ++ List.replicate n noByte) = runesFrom k s ++ List.replicate n '\uFFFD' := by
  induction s generalizing k with
  | nil =>
    rw [Nat.le_zero.mp h]
    induction n with
    | zero => rfl
    | succ n ih =>
      have hdecode : decodeRune (noByte :: List.replicate n noByte) = (runeError, 1) := by
        have hhigh : ¬ noByte.toNat < 0x80 := by decide
        rw [decodeRune_high hhigh]
        rcases n with _ | n
        · rfl
        · rw [List.replicate_succ, continuing_noByte (secondHigh_lt _)]
          rfl
      rw [List.nil_append] at ih ⊢
      rw [List.replicate_succ]
      show Char.ofNat (decodeRune (noByte :: List.replicate n noByte)).1 ::
        runesFrom ((decodeRune (noByte :: List.replicate n noByte)).2 - 1) (List.replicate n noByte) = _
      rw [hdecode]
      exact congrArg (List.cons '\uFFFD') ih
  | cons b s ih =>
    rcases k with _ | k
    · obtain ⟨hpos, hthere, -⟩ := decodeRune_spec b s
      have hdecode : decodeRune (b :: (s ++ List.replicate n noByte)) = decodeRune (b :: s) := by
        rcases n with _ | n
        · rw [List.replicate_zero, List.append_nil]
        · rw [List.replicate_succ]
          exact decodeRune_noByte b s _
      rw [List.cons_append, runesFrom, runesFrom, List.cons_append, hdecode, ih _ (by omega)]
    · exact ih k (Nat.le_of_succ_le_succ h)

/-- Each such byte behind a string is one code unit more. -/
theorem length_sent_append_noByte (s : Str) (n : ℕ) :
    (sent (s ++ List.replicate n noByte)).length = (sent s).length + n := by
  have hunits : (Js.ofChars (List.replicate n '\uFFFD')).length = n := by
    induction n with
    | zero => rfl
    | succ n ih =>
      rw [List.replicate_succ, Js.ofChars, List.flatMap_cons, List.length_append,
        length_unitsOf_small (by decide), Nat.add_comm]
      exact congrArg (· + 1) ih
  rw [sent, runes, runesFrom_append_noByte s 0 n (Nat.zero_le _), Js.ofChars_append, List.length_append,
    hunits]
  rfl

end GoStd
