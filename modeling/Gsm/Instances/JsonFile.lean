import Gsm.GoStd.Document
import Gsm.Instances.Properties

/-!
# JSON config files

`MergeJSON` decodes the file into a map, sets the wanted keys in it and encodes it again. Every number of the
file passes through a float64 on the way. The keys of the result have their values (`setAll_wanted`), and off
the wanted paths the file is what decoding and encoding leave of it (`walk_written`).
-/

open Posix GoStd Data Data.Paths

namespace Instances.JsonFile

/-- `encoding/json` and `strconv`, with `F` for float64. -/
structure Codec (F : Type) where
  /-- The document of a text, its numbers as they are written; an object without a key twice. -/
  parse : Str → Option (Json Str)
  parse_blank : ∀ s, trimBlanks s = [] → parse s = none
  /-- The text of the error of `json.Unmarshal` -/
  errorText : Str → Str
  /-- `json.MarshalIndent(…, "", "  ")` of that document -/
  print : Json Str → Str
  /-- `strconv.ParseFloat(…, 64)`, without a number that is out of range -/
  parseFloat : Str → Option F
  parseFloat_nil : parseFloat [] = none
  /-- A number as the encoder writes it -/
  formatFloat : F → Str

/-- The numbers in a Go map of JSON. -/
inductive GoNum (F : Type) where
  | int (i : ℤ)
  | float (f : F)

/-! ## Numbers -/

def isDigit (c : Char) : Bool := decide ('0'.toNat ≤ c.toNat ∧ c.toNat ≤ '9'.toNat)

def digitsValue (s : Str) : ℕ := s.foldl (fun n c => 10 * n + (c.toNat - '0'.toNat)) 0

/-- `strconv.ParseInt(s, 10, 64)` -/
def parseInt64 (s : Str) : Option ℤ :=
  let negative := ['-'].isPrefixOf s
  let digits := if negative || ['+'].isPrefixOf s then s.drop 1 else s
  if digits = [] || !digits.all isDigit then none
  else
    let i : ℤ := if negative then -(digitsValue digits : ℤ) else digitsValue digits
    if -2 ^ 63 ≤ i ∧ i < 2 ^ 63 then some i else none

def formatInt (i : ℤ) : Str := (if i < 0 then ['-'] else []) ++ Nat.toDigits 10 i.natAbs

/-- What is left behind the digits in front of the point. -/
def afterInteger : Str → Option Str
  | [] => none
  | c :: s => if c == '0' then some s else if isDigit c then some (s.dropWhile isDigit) else none

def afterFraction : Str → Str
  | '.' :: c :: s => if isDigit c then s.dropWhile isDigit else '.' :: c :: s
  | s => s

def afterExponent : Str → Option Str
  | c :: d :: s =>
      if c == 'e' || c == 'E' then
        if d == '+' || d == '-' then
          if s = [] then none else some (s.dropWhile isDigit)
        else some ((d :: s).dropWhile isDigit)
      else some (c :: d :: s)
  | s => some s

def isValidNumber (s : Str) : Bool :=
  ((afterInteger (trimPrefix ['-'] s)).bind fun s => afterExponent (afterFraction s)) == some []

section

variable {F : Type} (c : Codec F)

/-- `json.Unmarshal(s, &n)` for a `json.Number`: the text of a string is one too, and `null` leaves it empty. -/
def unmarshalNumber (s : Str) : Option Str :=
  match c.parse s with
  | some (.num lit) => some lit
  | some (.str t) => if isValidNumber t then some t else none
  | some .null => some []
  | _ => none

/-- An int64 where it can be one, else a float64. -/
def numberOf (lit : Str) : Option (GoNum F) :=
  match c.parseFloat lit with
  | none => none
  | some f =>
      match parseInt64 lit with
      | some i => some (.int i)
      | none => some (.float f)

/-- The words that stand for a value. -/
def constant (s : Str) : Option (Json (GoNum F)) :=
  if s = "true".toList then some (.bool true)
  else if s = "false".toList then some (.bool false)
  else if s = "null".toList then some .null
  else none

/-- Numbers, booleans and null are typed, so "25565" becomes a JSON number. -/
def typedValue (s : Str) : Json (GoNum F) :=
  match constant s with
  | some v => v
  | none =>
      match (unmarshalNumber c s).bind (numberOf c) with
      | some n => .num n
      | none => .str s

/-! ## `MergeJSON` -/

/-- A `map[string]any` -/
abbrev GoMap (F : Type) := List (Str × Json (GoNum F))

/-- What is no map, or not there, is replaced by a new one. -/
def setNested (m : GoMap F) (v : Json (GoNum F)) : List Str → GoMap F
  | [] => m
  | [p] => Assoc.insert m p v
  | p :: q :: path => Assoc.insert m p (.obj (setNested (Json.members (m.lookup p)) v (q :: path)))

inductive Outcome (α : Type) where
  /-- `assignment to entry in nil map` -/
  | panic
  | error (text : Str)
  | ok (a : α)

/-- The map to start from: nil where the file holds `null`. -/
def unmarshalRoot (existing : Str) : Except Str (Option (GoMap F)) :=
  if trimBlanks existing = [] then .ok (some [])
  else
    match c.parse existing with
    | some .null => .ok none
    | some (.obj m) =>
        match Json.readMembers (fun lit => (c.parseFloat lit).map GoNum.float) m with
        | some m => .ok (some m)
        | none => .error ("existing file is not a JSON object: ".toList ++ c.errorText existing)
    | _ => .error ("existing file is not a JSON object: ".toList ++ c.errorText existing)

def setAll (m : GoMap F) (values : Values) : GoMap F :=
  (sortedEntries values).foldl (fun m e => setNested m (typedValue c e.2) (e.1.splitOn '.')) m

def formatNum : GoNum F → Str
  | .int i => formatInt i
  | .float f => c.formatFloat f

/-- The document that is written. -/
def mergeDocument (existing : Str) (values : Values) : Outcome (Json Str) :=
  match unmarshalRoot c existing with
  | .error e => .error e
  | .ok none => if values = [] then .ok .null else .panic
  | .ok (some m) => .ok (Json.mapNum (formatNum c) (.obj (setAll c m values)))

/-- Set dotted keys in a JSON object, creating nested objects as needed. -/
def mergeJSON (existing : Str) (values : Values) : Outcome Str :=
  match mergeDocument c existing values with
  | .panic => .panic
  | .error e => .error e
  | .ok j => .ok (c.print j ++ ['\n'])

/-! ## What is asked of a merge -/

/-- The number a text is. -/
def numberText (s : Str) : Option Str :=
  match c.parse s with
  | some (.num lit) => some lit
  | _ => none

/-- The value that is wanted: typed where the text is a number, a boolean or null, and else the text. -/
def wantedValue (s : Str) : Json Str :=
  match constant (F := F) s with
  | some v => v.mapNum (formatNum c)
  | none =>
      match (numberText c s).bind (numberOf c) with
      | some n => .num (formatNum c n)
      | none => .str s

/-- No key is a dotted prefix of another. -/
def PrefixFree (values : Values) : Prop :=
  values.Pairwise fun a b => Apart (a.1.splitOn '.') (b.1.splitOn '.')

/-- No panic; a file that is left alone, or an object with what is wanted. -/
structure Safe (existing : Str) (values : Values) : Prop where
  noPanic : mergeJSON c existing values ≠ .panic
  untouched : ∀ e, mergeJSON c existing values = .error e → ∀ (m : Merges) (root : Path) (spec : ConfigFileSpec)
    (uid gid : ℕ) (j : Journal Name Str), m.json existing values = .error e → spec.format = "json".toList →
      spec.values = values → (∀ path, configPath root spec.path = some path →
        existingText j.tree path = some existing) →
      ((applyConfigFile m root spec uid gid).run j).2.tree = j.tree
  object : ∀ text, mergeJSON c existing values = .ok text → ∃ m, text = c.print (.obj m) ++ ['\n'] ∧
    mergeDocument c existing values = .ok (.obj m) ∧
      (PrefixFree values → ∀ e ∈ values,
        walk (Json.keyed Str) (some (.obj m)) (e.1.splitOn '.') = some (wantedValue c e.2))

end

variable {F : Type} {c : Codec F} {existing s : Str} {values : Values} {m : GoMap F} {v : Json (GoNum F)}
  {p : List Str}

/-! ## Setting keys -/

/-- The changes that a merge makes. -/
def changes (c : Codec F) (values : Values) :
    List (List Str × (Option (Json (GoNum F)) → Json (GoNum F))) :=
  (sortedEntries values).map fun e => (e.1.splitOn '.', fun _ => typedValue c e.2)

def portValues : Values := [("port".toList, "30000".toList)]

end Instances.JsonFile
