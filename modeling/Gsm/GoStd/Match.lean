import Gsm.Data.Wildcard
import Gsm.GoStd.Path

/-!
# Go's `path.Match`

Patterns are read character by character, a character being the bytes that `unicode/utf8` takes for
one; a byte that begins none stands for itself. `pathMatch` is the first result of `Match`, which is
false for a malformed pattern.
-/

open Data

namespace GoStd

/-! ## Characters -/

/-- The value of a byte that continues a character, between two bounds. -/
def continuing (lo hi : ℕ) (s : Str) : Option ℕ :=
  match s with
  | [] => none
  | b :: _ => if lo ≤ b.toNat ∧ b.toNat ≤ hi then some (b.toNat % 0x40) else none

def runeError : ℕ := 0xfffd

/-- `utf8.DecodeRuneInString`: the code point at the head of a string and how many bytes it takes. -/
def decodeRune : Str → ℕ × ℕ
  | [] => (runeError, 0)
  | a :: s =>
      let a := a.toNat
      -- the second byte of some leads is bounded, against overlong forms and surrogates
      let lo := if a = 0xe0 then 0xa0 else if a = 0xf0 then 0x90 else 0x80
      let hi := if a = 0xed then 0x9f else if a = 0xf4 then 0x8f else 0xbf
      if a < 0x80 then (a, 1)
      else
        match continuing lo hi s, continuing 0x80 0xbf (s.drop 1), continuing 0x80 0xbf (s.drop 2) with
        | some b, none, _ =>
            if 0xc2 ≤ a ∧ a ≤ 0xdf then (a % 0x20 * 0x40 + b, 2) else (runeError, 1)
        | some b, some c, none =>
            if 0xc2 ≤ a ∧ a ≤ 0xdf then (a % 0x20 * 0x40 + b, 2)
            else if 0xe0 ≤ a ∧ a ≤ 0xef then ((a % 0x10 * 0x40 + b) * 0x40 + c, 3)
            else (runeError, 1)
        | some b, some c, some d =>
            if 0xc2 ≤ a ∧ a ≤ 0xdf then (a % 0x20 * 0x40 + b, 2)
            else if 0xe0 ≤ a ∧ a ≤ 0xef then ((a % 0x10 * 0x40 + b) * 0x40 + c, 3)
            else if 0xf0 ≤ a ∧ a ≤ 0xf4 then
              (((a % 8 * 0x40 + b) * 0x40 + c) * 0x40 + d, 4)
            else (runeError, 1)
        | none, _, _ => (runeError, 1)

/-- The characters of a string, once the `k` bytes are passed that are still of the last one. -/
def charsFrom : ℕ → Str → List Str
  | _, [] => []
  | k + 1, _ :: s => charsFrom k s
  | 0, c :: s =>
      let n := (decodeRune (c :: s)).2
      (c :: s).take n :: charsFrom (n - 1) s

def chars (s : Str) : List Str := charsFrom 0 s

/-- `unicode.IsSpace` of a character. -/
def isSpace (c : Str) : Bool :=
  let r := (decodeRune c).1
  (9 ≤ r ∧ r ≤ 13) ∨ r ∈ [0x20, 0x85, 0xa0, 0x1680, 0x2028, 0x2029, 0x202f, 0x205f, 0x3000] ∨
    (0x2000 ≤ r ∧ r ≤ 0x200a)

/-- `strings.TrimSpace` -/
def trimBlanks (s : Str) : Str :=
  ((((chars s).dropWhile isSpace).reverse.dropWhile isSpace).reverse).flatten

/-! ## Patterns -/

inductive GlobTerm where
  | star
  | any
  | lit (c : Str)
  | cls (negated : Bool) (ranges : List (ℕ × ℕ))
deriving DecidableEq

/-- Where the reader of a pattern is. -/
inductive GlobMode where
  | plain
  | escaped
  /-- behind `[` -/
  | opened
  /-- at a range, behind those in `rs` -/
  | range (negated : Bool) (rs : List (ℕ × ℕ))
  | rangeEscaped (negated : Bool) (rs : List (ℕ × ℕ))
  /-- behind the lower end of a range -/
  | low (negated : Bool) (rs : List (ℕ × ℕ)) (lo : ℕ)
  /-- behind the `-` of a range -/
  | high (negated : Bool) (rs : List (ℕ × ℕ)) (lo : ℕ)
  | highEscaped (negated : Bool) (rs : List (ℕ × ℕ)) (lo : ℕ)
deriving DecidableEq

/-- The code point of a character in a class, if it is one. -/
def classRune (c : Str) : Option ℕ :=
  if decodeRune c = (runeError, 1) then none else some (decodeRune c).1

namespace GlobMode

/-- The start of a range, or the end of the class. -/
def atRange (negated : Bool) (rs : List (ℕ × ℕ)) (c : Str) : Option (GlobMode × Option GlobTerm) :=
  if c = [']'] ∧ rs ≠ [] then some (plain, some (.cls negated rs))
  else if c = ['-'] ∨ c = [']'] then none
  else if c = ['\\'] then some (rangeEscaped negated rs, none)
  else (classRune c).map fun r => (low negated rs r, none)

/-- The upper end of a range. -/
def atHigh (negated : Bool) (rs : List (ℕ × ℕ)) (lo : ℕ) (c : Str) :
    Option (GlobMode × Option GlobTerm) :=
  if c = ['-'] ∨ c = [']'] then none
  else if c = ['\\'] then some (highEscaped negated rs lo, none)
  else (classRune c).map fun r => (range negated (rs ++ [(lo, r)]), none)

/-- One character of a pattern; none is `ErrBadPattern`. -/
def step : GlobMode → Str → Option (GlobMode × Option GlobTerm)
  | plain, c =>
      if c = ['*'] then some (plain, some .star)
      else if c = ['?'] then some (plain, some .any)
      else if c = ['['] then some (opened, none)
      else if c = ['\\'] then some (escaped, none)
      else some (plain, some (.lit c))
  | escaped, c => some (plain, some (.lit c))
  | opened, c => if c = ['^'] then some (range true [], none) else atRange false [] c
  | range negated rs, c => atRange negated rs c
  | rangeEscaped negated rs, c => (classRune c).map fun r => (low negated rs r, none)
  | low negated rs lo, c =>
      if c = ['-'] then some (high negated rs lo, none) else atRange negated (rs ++ [(lo, lo)]) c
  | high negated rs lo, c => atHigh negated rs lo c
  | highEscaped negated rs lo, c =>
      (classRune c).map fun r => (range negated (rs ++ [(lo, r)]), none)

/-- The terms of a pattern that is read on from here. -/
def terms : GlobMode → List Str → Option (List GlobTerm)
  | m, [] => if m = plain then some [] else none
  | m, c :: s =>
      match m.step c with
      | none => none
      | some (m', t) => (m'.terms s).map (t.toList ++ ·)

end GlobMode

/-- What a term takes. -/
def GlobTerm.atom : GlobTerm → Wildcard.Atom Str
  | .star => .many fun c => c ≠ ['/']
  | .any => .one fun c => c ≠ ['/']
  | .lit d => .one fun c => c = d
  | .cls negated rs => .one fun c =>
      (rs.any fun r => r.1 ≤ (decodeRune c).1 ∧ (decodeRune c).1 ≤ r.2) ≠ negated

/-- `path.Match`, without the error. -/
def pathMatch (pattern name : Str) : Bool :=
  match GlobMode.plain.terms (chars pattern) with
  | none => false
  | some ts => Wildcard.accepts (ts.map GlobTerm.atom) (chars name)

/-- The names a pattern stands for: none if it is malformed. -/
def Glob (pattern name : Str) : Prop :=
  ∃ ts, GlobMode.plain.terms (chars pattern) = some ts ∧
    Wildcard.Matches (ts.map GlobTerm.atom) (chars name)

theorem pathMatch_iff {pattern name : Str} : pathMatch pattern name = true ↔ Glob pattern name := by
  rw [pathMatch, Glob]
  rcases GlobMode.plain.terms (chars pattern) with _ | ts
  · simp
  · simp [Wildcard.accepts_iff]

end GoStd
