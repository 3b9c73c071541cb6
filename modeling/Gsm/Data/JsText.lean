import Mathlib.Data.Char
import Mathlib.Algebra.BigOperators.Group.List.Basic
import Mathlib.Algebra.Order.Ring.Nat

/-!
# Strings of JavaScript

A string is its UTF-16 code units, so it may hold half of a surrogate pair. `codePoints` reads it as the
language's own iterator does; `TextEncoder` (`encode`) and `JSON.stringify` (`quote`) are written over its
code points. `length_quote` says how much longer than the encoded text its JSON is: only the characters
that JSON escapes, and the halves of pairs, add to it.
-/

namespace Js

/-- A string of JavaScript: its UTF-16 code units. -/
abbrev Text := List UInt16

def isHigh (u : UInt16) : Bool := 0xD800 ≤ u && u < 0xDC00

def isLow (u : UInt16) : Bool := 0xDC00 ≤ u && u < 0xE000

/-- What code units stand for: a character, or a surrogate without its other half. -/
inductive CodePoint
  | char (c : Char)
  | lone (u : UInt16)
  deriving DecidableEq, Repr

/-- The character of a surrogate pair. -/
def pair (u v : UInt16) : Char :=
  Char.ofNat (0x10000 + (u.toNat - 0xD800) * 0x400 + (v.toNat - 0xDC00))

def single (u : UInt16) : CodePoint :=
  if isHigh u || isLow u then .lone u else .char (Char.ofNat u.toNat)

/-- The code points of a string, as its iterator gives them. -/
def codePoints : Text → List CodePoint
  | [] => []
  | [u] => [single u]
  | u :: v :: rest =>
      if isHigh u && isLow v then .char (pair u v) :: codePoints rest
      else single u :: codePoints (v :: rest)

/-- The code units of a character. -/
def unitsOf (c : Char) : Text :=
  if c.toNat < 0x10000 then [UInt16.ofNat c.toNat]
  else [UInt16.ofNat (0xD800 + (c.toNat - 0x10000) / 0x400),
    UInt16.ofNat (0xDC00 + (c.toNat - 0x10000) % 0x400)]

def ofChars (a : List Char) : Text := a.flatMap unitsOf

/-- A string as the source writes it. -/
def text (s : String) : Text := ofChars s.toList

def startsWith (s start : Text) : Bool := start.isPrefixOf s

def endsWith (s ending : Text) : Bool := ending.isSuffixOf s

/-- `s.split("/")` and the like, for a separator of one code unit. -/
def split (s : Text) (sep : UInt16) : List Text := s.splitOn sep

/-- `s.split(sep)`: the part being read, and how much of a separator is still to be left out. -/
def splitTextFrom (sep : Text) : ℕ → Text → Text → List Text
  | _, part, [] => [part]
  | skip + 1, part, _ :: rest => splitTextFrom sep skip part rest
  | 0, part, u :: rest =>
      if startsWith (u :: rest) sep then part :: splitTextFrom sep (sep.length - 1) [] rest
      else splitTextFrom sep 0 (part ++ [u]) rest

/-- `s.split(sep)`, for a separator that is not empty -/
def splitText (s sep : Text) : List Text := splitTextFrom sep 0 [] s

/-- White space and line ends of the language. -/
def isSpace (u : UInt16) : Bool :=
  (9 ≤ u && u ≤ 13) || (0x2000 ≤ u && u ≤ 0x200A) ||
    [0x20, 0xA0, 0x1680, 0x2028, 0x2029, 0x202F, 0x205F, 0x3000, 0xFEFF].contains u

/-- `s.trim()` -/
def trim (s : Text) : Text := ((s.dropWhile isSpace).reverse.dropWhile isSpace).reverse

/-! ## `TextEncoder` -/

def utf8 : CodePoint → List UInt8
  | .char c => String.utf8EncodeChar c
  | .lone _ => String.utf8EncodeChar '\uFFFD'

/-- `new TextEncoder().encode(s)` -/
def encode (s : Text) : List UInt8 := (codePoints s).flatMap utf8

/-- The bytes of a text without halves of pairs. -/
def encodeChars (a : List Char) : List UInt8 := a.flatMap String.utf8EncodeChar

/-! ## `JSON.stringify` -/

def hexDigit (n : ℕ) : Char := Char.ofNat (if n < 10 then 48 + n else 87 + n)

/-- `\uXXXX` -/
def escapeUnit (u : ℕ) : List Char :=
  ['\\', 'u', hexDigit (u / 4096 % 16), hexDigit (u / 256 % 16), hexDigit (u / 16 % 16), hexDigit (u % 16)]

/-- The characters with an escape of two characters, and the second of them. -/
def shortEscape : List (Char × Char) :=
  [(Char.ofNat 8, 'b'), ('\t', 't'), ('\n', 'n'), (Char.ofNat 12, 'f'), ('\r', 'r'), ('"', '"'), ('\\', '\\')]

def quotePoint : CodePoint → List Char
  | .char c =>
      match shortEscape.lookup c with
      | some e => ['\\', e]
      | none => if c.toNat < 32 then escapeUnit c.toNat else [c]
  | .lone u => escapeUnit u.toNat

/-- `JSON.stringify` of a string; its result holds no halves of pairs. -/
def quote (s : Text) : List Char := '"' :: (codePoints s).flatMap quotePoint ++ ['"']

/-- `JSON.stringify` of an object, from the JSON of its values. -/
def object (fields : List (String × List Char)) : List Char :=
  '{' :: [','].intercalate (fields.map fun f => quote (text f.1) ++ ':' :: f.2) ++ ['}']

/-! ## What JSON escapes -/

/-- Characters that take one byte more. -/
def isShort : CodePoint → Bool
  | .char c => (shortEscape.lookup c).isSome
  | .lone _ => false

/-- The other control characters, which take five bytes more. -/
def isControl : CodePoint → Bool
  | .char c => (shortEscape.lookup c).isNone && decide (c.toNat < 32)
  | .lone _ => false

/-- Halves of pairs, which take three bytes more. -/
def isLone : CodePoint → Bool
  | .char _ => false
  | .lone _ => true

/-- How many bytes the JSON of a string has over those of its text, without the quotes. -/
def growth (s : Text) : ℕ :=
  (codePoints s).countP isShort + 5 * (codePoints s).countP isControl + 3 * (codePoints s).countP isLone

variable {s t : Text} {a b : List Char} {u v : UInt16} {c : Char}

theorem encodeChars_append (a b : List Char) : encodeChars (a ++ b) = encodeChars a ++ encodeChars b :=
  List.flatMap_append

theorem length_utf8Char_ascii (h : c.toNat < 128) : (String.utf8EncodeChar c).length = 1 := by
  rw [String.length_utf8EncodeChar, Char.utf8Size_eq_one_iff, UInt32.le_iff_toNat_le]
  exact Nat.le_of_lt_succ h

theorem length_encodeChars_ascii (h : ∀ c ∈ a, c.toNat < 128) : (encodeChars a).length = a.length := by
  induction a with
  | nil => rfl
  | cons c a ih =>
    rw [encodeChars, List.flatMap_cons, List.length_append,
      length_utf8Char_ascii (h c List.mem_cons_self), List.length_cons, Nat.add_comm]
    exact congrArg (· + 1) (ih fun d hd => h d (List.mem_cons_of_mem _ hd))

theorem hexDigit_ascii : ∀ n < 16, (hexDigit n).toNat < 128 := by decide

theorem length_escapeUnit (n : ℕ) : (encodeChars (escapeUnit n)).length = 6 := by
  refine (length_encodeChars_ascii fun c hc => ?_).trans rfl
  rw [escapeUnit] at hc
  simp only [List.mem_cons, List.not_mem_nil, or_false] at hc
  rcases hc with rfl | rfl | rfl | rfl | rfl | rfl
  · decide
  · decide
  all_goals exact hexDigit_ascii _ (Nat.mod_lt _ (by decide))

theorem shortEscape_ascii {e : Char} (h : shortEscape.lookup c = some e) :
    c.toNat < 128 ∧ e.toNat < 128 := by
  obtain ⟨before, after, hsplit, -⟩ := List.lookup_eq_some_iff.mp h
  have hmem : (c, e) ∈ shortEscape := by
    rw [hsplit]
    exact List.mem_append_right _ List.mem_cons_self
  have hall : ∀ f ∈ shortEscape, f.1.toNat < 128 ∧ f.2.toNat < 128 := by decide
  exact hall _ hmem

/-- How many bytes the JSON of a code point has over those of its text. -/
theorem length_quotePoint (p : CodePoint) : (encodeChars (quotePoint p)).length =
    (utf8 p).length + ((if isShort p then 1 else 0) + 5 * (if isControl p then 1 else 0) +
      3 * if isLone p then 1 else 0) := by
  rcases p with c | u
  · rw [quotePoint]
    rcases he : shortEscape.lookup c with _ | e
    · by_cases hc : c.toNat < 32
      · rw [if_pos hc, length_escapeUnit, utf8, length_utf8Char_ascii (by omega)]
        simp [isShort, isControl, isLone, he, hc]
      · rw [if_neg hc]
        simp [isShort, isControl, isLone, he, hc, encodeChars, utf8]
    · obtain ⟨hc, hd⟩ := shortEscape_ascii he
      rw [utf8, length_utf8Char_ascii hc]
      have hboth : (encodeChars ['\\', e]).length = 2 :=
        length_encodeChars_ascii fun d hmem => by
          rcases List.mem_pair.mp hmem with rfl | rfl
          · decide
          · exact hd
      simp [isShort, isControl, isLone, he, hboth]
  · rw [quotePoint, length_escapeUnit]
    rfl

theorem length_quotePoints (l : List CodePoint) : (encodeChars (l.flatMap quotePoint)).length =
    (l.flatMap utf8).length + (l.countP isShort + 5 * l.countP isControl + 3 * l.countP isLone) := by
  induction l with
  | nil => rfl
  | cons p l ih =>
    rw [List.flatMap_cons, List.flatMap_cons, encodeChars_append, List.length_append, ih,
      List.length_append, length_quotePoint, List.countP_cons, List.countP_cons, List.countP_cons]
    omega

/-- The JSON of a string is as long as its text, the quotes, and what JSON escapes in it. -/
theorem length_quote (s : Text) :
    (encodeChars (quote s)).length = (encode s).length + growth s + 2 := by
  rw [quote, List.cons_append, ← List.singleton_append, encodeChars_append, encodeChars_append,
    List.length_append, List.length_append, length_quotePoints]
  show 1 + (_ + 1) = _
  rw [encode, growth]
  omega

theorem length_joinComma (parts : List (List Char)) (h : parts ≠ []) :
    (encodeChars ([','].intercalate parts)).length + 1 =
      (parts.map fun t => (encodeChars t).length + 1).sum := by
  induction parts with
  | nil => exact absurd rfl h
  | cons t parts ih =>
    rcases parts with _ | ⟨u, parts⟩
    · simp
    · rw [List.intercalate_cons_cons, encodeChars_append, encodeChars_append, List.length_append,
        List.length_append, List.map_cons, List.sum_cons, ← ih (List.cons_ne_nil _ _)]
      show _ + 1 + _ + 1 = _
      omega

/-- The JSON of an object: each field with its colon and what stands behind it, and the bracket. -/
theorem length_object (fields : List (String × List Char)) (h : fields ≠ []) :
    (encodeChars (object fields)).length =
      (fields.map fun f => (encodeChars (quote (text f.1))).length + (encodeChars f.2).length + 2).sum + 1 := by
  have hjoin := length_joinComma (fields.map fun f => quote (text f.1) ++ ':' :: f.2)
    (by rwa [ne_eq, List.map_eq_nil_iff])
  have hfield : ∀ f : String × List Char, (encodeChars (quote (text f.1) ++ ':' :: f.2)).length + 1 =
      (encodeChars (quote (text f.1))).length + (encodeChars f.2).length + 2 := by
    intro f
    rw [encodeChars_append, List.length_append]
    show _ + ((encodeChars f.2).length + 1) + 1 = _
    omega
  rw [List.map_map] at hjoin
  simp only [Function.comp_def, hfield] at hjoin
  rw [object, List.cons_append, ← List.singleton_append, encodeChars_append, encodeChars_append,
    List.length_append, List.length_append, ← hjoin]
  show 1 + (_ + 1) = _
  omega

/-! ## Text without halves of pairs -/

theorem toNat_char_lt (c : Char) : c.toNat < 0x110000 := by
  rcases c.valid with h | ⟨-, h⟩
  · exact h.trans (by decide)
  · exact h

theorem codePoints_cons_single (h : isHigh u = false) (s : Text) :
    codePoints (u :: s) = single u :: codePoints s := by
  rcases s with _ | ⟨v, s⟩
  · rfl
  · rw [codePoints, h]
    rfl

theorem codePoints_units (c : Char) (s : Text) : codePoints (unitsOf c ++ s) = .char c :: codePoints s := by
  by_cases hc : c.toNat < 0x10000
  · have hu : (UInt16.ofNat c.toNat).toNat = c.toNat := UInt16.toNat_ofNat_of_lt' hc
    have hvalid : c.toNat < 0xD800 ∨ 0xDFFF < c.toNat := by
      rcases c.valid with h | ⟨h, -⟩
      · exact .inl h
      · exact .inr h
    have hhigh : isHigh (UInt16.ofNat c.toNat) = false := by
      rw [isHigh, Bool.and_eq_false_iff, decide_eq_false_iff_not, decide_eq_false_iff_not,
        UInt16.le_iff_toNat_le, UInt16.lt_iff_toNat_lt, hu]
      show ¬ 0xD800 ≤ _ ∨ ¬ _ < 0xDC00
      omega
    have hlow : isLow (UInt16.ofNat c.toNat) = false := by
      rw [isLow, Bool.and_eq_false_iff, decide_eq_false_iff_not, decide_eq_false_iff_not,
        UInt16.le_iff_toNat_le, UInt16.lt_iff_toNat_lt, hu]
      show ¬ 0xDC00 ≤ _ ∨ ¬ _ < 0xE000
      omega
    rw [unitsOf, if_pos hc, List.singleton_append, codePoints_cons_single hhigh, single, hhigh, hlow, hu,
      Char.ofNat_toNat]
    rfl
  · have hlt := toNat_char_lt c
    set x := c.toNat - 0x10000 with hx
    have hu : (UInt16.ofNat (0xD800 + x / 0x400)).toNat = 0xD800 + x / 0x400 :=
      UInt16.toNat_ofNat_of_lt' (by show _ < 65536; omega)
    have hv : (UInt16.ofNat (0xDC00 + x % 0x400)).toNat = 0xDC00 + x % 0x400 :=
      UInt16.toNat_ofNat_of_lt' (by show _ < 65536; omega)
    have hhigh : isHigh (UInt16.ofNat (0xD800 + x / 0x400)) = true := by
      rw [isHigh, Bool.and_eq_true, decide_eq_true_eq, decide_eq_true_eq, UInt16.le_iff_toNat_le,
        UInt16.lt_iff_toNat_lt, hu]
      show 0xD800 ≤ _ ∧ _ < 0xDC00
      omega
    have hlow : isLow (UInt16.ofNat (0xDC00 + x % 0x400)) = true := by
      rw [isLow, Bool.and_eq_true, decide_eq_true_eq, decide_eq_true_eq, UInt16.le_iff_toNat_le,
        UInt16.lt_iff_toNat_lt, hv]
      show 0xDC00 ≤ _ ∧ _ < 0xE000
      omega
    have hpair : pair (UInt16.ofNat (0xD800 + x / 0x400)) (UInt16.ofNat (0xDC00 + x % 0x400)) = c := by
      rw [pair, hu, hv]
      refine (congrArg Char.ofNat ?_).trans (Char.ofNat_toNat c)
      omega
    rw [unitsOf, if_neg hc, ← hx]
    show codePoints (_ :: _ :: s) = _
    rw [codePoints, hhigh, hlow, hpair]
    rfl

/-- Writing characters as code units and reading them again gives them back. -/
theorem codePoints_ofChars (a : List Char) : codePoints (ofChars a) = a.map .char := by
  induction a with
  | nil => rfl
  | cons c a ih =>
    rw [ofChars, List.flatMap_cons, codePoints_units, List.map_cons]
    exact congrArg _ ih

theorem encode_ofChars (a : List Char) : encode (ofChars a) = encodeChars a := by
  rw [encode, codePoints_ofChars, List.flatMap_map]
  rfl

/-- A text with nothing that JSON escapes is quoted as it stands. -/
theorem quote_ofChars (h : ∀ c ∈ a, shortEscape.lookup c = none ∧ 32 ≤ c.toNat) :
    quote (ofChars a) = '"' :: a ++ ['"'] := by
  have hpoints : (a.map CodePoint.char).flatMap quotePoint = a := by
    induction a with
    | nil => rfl
    | cons c a ih =>
      obtain ⟨hshort, hlow⟩ := h c List.mem_cons_self
      rw [List.map_cons, List.flatMap_cons, ih fun d hd => h d (List.mem_cons_of_mem _ hd), quotePoint, hshort]
      show (if c.toNat < 32 then _ else [c]) ++ a = _
      rw [if_neg (by omega)]
      rfl
  rw [quote, codePoints_ofChars, hpoints]

theorem ofChars_append (a b : List Char) : ofChars (a ++ b) = ofChars a ++ ofChars b :=
  List.flatMap_append

/-- A text of ASCII is written with one code unit for each character. -/
theorem ofChars_ascii (h : ∀ c ∈ a, c.toNat < 128) : ofChars a = a.map fun c => UInt16.ofNat c.toNat := by
  induction a with
  | nil => rfl
  | cons c a ih =>
    have hc := h c List.mem_cons_self
    have hunits : unitsOf c = [UInt16.ofNat c.toNat] := if_pos (by omega)
    rw [ofChars, List.flatMap_cons, hunits, List.map_cons]
    exact congrArg _ (ih fun d hd => h d (List.mem_cons_of_mem _ hd))

theorem toNat_ofNat_ascii {n : ℕ} (h : n < 128) : (Char.ofNat n).toNat = n := by
  rw [Char.ofNat, dif_pos (.inl (by omega))]
  rfl

/-- A string of ASCII code units has its characters. -/
theorem exists_ofChars (h : ∀ u ∈ s, u.toNat < 128) : ∃ a, (∀ c ∈ a, c.toNat < 128) ∧ s = ofChars a := by
  have hback : ∀ c ∈ s.map fun u => Char.ofNat u.toNat, c.toNat < 128 := by
    intro c hc
    obtain ⟨u, hu, rfl⟩ := List.mem_map.mp hc
    rw [toNat_ofNat_ascii (h u hu)]
    exact h u hu
  refine ⟨s.map fun u => Char.ofNat u.toNat, hback, ?_⟩
  rw [ofChars_ascii hback, List.map_map]
  refine (List.map_id s).symm.trans (List.map_congr_left fun u hu => ?_)
  show u = UInt16.ofNat (Char.ofNat u.toNat).toNat
  rw [toNat_ofNat_ascii (h u hu), UInt16.ofNat_toNat]

theorem split_ofChars {d : Char} (h : ∀ c ∈ a, c.toNat < 128) (hd : d.toNat < 128) :
    split (ofChars a) (UInt16.ofNat d.toNat) = (a.splitOn d).map ofChars := by
  induction a with
  | nil => rfl
  | cons c a ih =>
    have hc := h c List.mem_cons_self
    have hrest := ih fun e he => h e (List.mem_cons_of_mem _ he)
    have hunits : unitsOf c = [UInt16.ofNat c.toNat] := if_pos (by omega)
    have hsame : (UInt16.ofNat c.toNat == UInt16.ofNat d.toNat) = (c == d) := by
      rw [Bool.eq_iff_iff, beq_iff_eq, beq_iff_eq]
      constructor
      · intro heq
        have hnat := congrArg UInt16.toNat heq
        rw [UInt16.toNat_ofNat_of_lt' (by show _ < 65536; omega),
          UInt16.toNat_ofNat_of_lt' (by show _ < 65536; omega)] at hnat
        exact Char.toNat_inj.mp hnat
      · rintro rfl
        rfl
    have hcons : ofChars (c :: a) = UInt16.ofNat c.toNat :: ofChars a := by
      rw [ofChars, List.flatMap_cons, hunits]
      rfl
    rw [split] at hrest
    rw [split, hcons, List.splitOn_cons_eq_if_modifyHead, List.splitOn_cons_eq_if_modifyHead, hrest, hsame]
    split
    · rfl
    · rcases a.splitOn d with _ | ⟨t, more⟩
      · rfl
      · rw [List.map_cons, List.modifyHead_cons, List.modifyHead_cons, List.map_cons, ofChars, ofChars,
          List.flatMap_cons, hunits]
        rfl

/-! ## White space -/

theorem isSpace_visible {u : UInt16} (h : 33 ≤ u.toNat) (h' : u.toNat < 128) : isSpace u = false := by
  have hne : ∀ v ∈ ([0x20, 0xA0, 0x1680, 0x2028, 0x2029, 0x202F, 0x205F, 0x3000, 0xFEFF] : Text), u ≠ v := by
    have hall : ([0x20, 0xA0, 0x1680, 0x2028, 0x2029, 0x202F, 0x205F, 0x3000, 0xFEFF] : Text).all
        (fun v => decide (v.toNat < 33 ∨ 128 ≤ v.toNat)) = true := by decide
    rintro v hv rfl
    have hout := of_decide_eq_true (List.all_eq_true.mp hall u hv)
    omega
  have hlist : ([0x20, 0xA0, 0x1680, 0x2028, 0x2029, 0x202F, 0x205F, 0x3000, 0xFEFF] : Text).contains u = false := by
    rw [List.contains_eq_mem, decide_eq_false_iff_not]
    exact fun hmem => hne u hmem rfl
  rw [isSpace, hlist, Bool.or_false, Bool.or_eq_false_iff]
  simp only [Bool.and_eq_false_iff, decide_eq_false_iff_not, UInt16.le_iff_toNat_le]
  have hnine : (9 : UInt16).toNat = 9 := rfl
  have hthirteen : (13 : UInt16).toNat = 13 := rfl
  have hhigh : (0x2000 : UInt16).toNat = 0x2000 := rfl
  omega

/-- A string that neither begins nor ends with white space -/
theorem trim_of_ends {s : Text} (hfirst : ∀ u ∈ s.head?, isSpace u = false)
    (hlast : ∀ u ∈ s.getLast?, isSpace u = false) : trim s = s := by
  have hdrop (w : Text) (hw : ∀ u ∈ w.head?, isSpace u = false) : w.dropWhile isSpace = w := by
    rcases w with _ | ⟨u, w⟩
    · rfl
    · rw [List.dropWhile_cons_of_neg]
      rw [hw u rfl]
      exact Bool.false_ne_true
  rw [trim, hdrop s hfirst, hdrop s.reverse fun u hu => hlast u (List.head?_reverse ▸ hu), List.reverse_reverse]

theorem trim_visible {s : Text} (h : ∀ u ∈ s, isSpace u = false) : trim s = s :=
  trim_of_ends (fun u hu => h u (List.mem_of_head? hu)) fun u hu => h u (List.mem_of_getLast? hu)

/-- `s.split(/\s+/)` -/
def splitSpace : Text → List Text
  | [] => [[]]
  | [u] => if isSpace u then [[], []] else [[u]]
  | u :: v :: rest =>
      if isSpace u then if isSpace v then splitSpace (v :: rest) else [] :: splitSpace (v :: rest)
      else
        match splitSpace (v :: rest) with
        | [] => [[u]]
        | first :: more => (u :: first) :: more

theorem splitSpace_cons {u : UInt16} (hu : isSpace u = false) (s : Text) :
    splitSpace (u :: s) = (u :: (splitSpace s).headD []) :: (splitSpace s).tail := by
  rcases s with _ | ⟨v, s⟩
  · have hsingle : splitSpace [u] = if isSpace u then [[], []] else [[u]] := rfl
    rw [hsingle, if_neg (by simp [hu])]
    rfl
  · rw [splitSpace, if_neg (by simp [hu])]
    rcases splitSpace (v :: s) with _ | ⟨first, more⟩ <;> rfl

theorem splitSpace_visible {s : Text} (h : ∀ u ∈ s, isSpace u = false) : splitSpace s = [s] := by
  induction s with
  | nil => rfl
  | cons u s ih =>
    rw [splitSpace_cons (h u List.mem_cons_self), ih fun v hv => h v (List.mem_cons_of_mem u hv)]
    rfl

/-- Two words with a space between them -/
theorem splitSpace_words {a b : Text} (ha : ∀ u ∈ a, isSpace u = false) (hb : ∀ u ∈ b, isSpace u = false)
    (hne : b ≠ []) : splitSpace (a ++ 0x20 :: b) = [a, b] := by
  induction a with
  | nil =>
    obtain ⟨v, rest, rfl⟩ := List.exists_cons_of_ne_nil hne
    rw [List.nil_append, splitSpace, if_pos (by decide), if_neg (by simp [hb v List.mem_cons_self]),
      splitSpace_visible hb]
  | cons u a ih =>
    rw [List.cons_append, splitSpace_cons (ha u List.mem_cons_self), ih fun v hv => ha v (List.mem_cons_of_mem u hv)]
    rfl

-- the equations that later modules rewrite with, stated here once
attribute [local simp] Js.isLone

end Js
