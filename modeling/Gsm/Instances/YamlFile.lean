import Mathlib.Data.List.Pairwise
import Gsm.Instances.JsonFile

/-!
# YAML config files

`MergeYAML` sets the wanted keys in the tree of the file. A pair is found by the text of its key (`text`).
Values are replaced where they stand, and what is missing comes behind the pairs there are (`Grown`). A scalar
that gives way to the value of a key keeps its comments; one that gives way to a mapping, because a key leads
through it, loses them.
-/

open GoStd Data Data.Paths

namespace Instances.YamlFile

/-! ## The tree -/

structure Comments where
  head : Str
  line : Str
  foot : Str
deriving DecidableEq

/-- What every `yaml.Node` has; `style` is a set of bits. -/
structure Info where
  tag : Str
  style : ℕ
  comments : Comments
deriving DecidableEq

/-- A `yaml.Node`. The content of a mapping comes in pairs. -/
inductive Node where
  | mapping (info : Info) (pairs : List (Node × Node))
  | sequence (info : Info) (items : List Node)
  | scalar (info : Info) (value : Str)
  | alias (info : Info) (name : Str)

abbrev Pairs := List (Node × Node)

/-- `Value`, which only scalars and aliases have. -/
def Node.text : Node → Str
  | .mapping _ _ => []
  | .sequence _ _ => []
  | .scalar _ value => value
  | .alias _ name => name

def Node.comments : Node → Comments
  | .mapping info _ => info.comments
  | .sequence info _ => info.comments
  | .scalar info _ => info.comments
  | .alias info _ => info.comments

def noComments : Comments := ⟨[], [], []⟩

/-! ## `setYAML` -/

def doubleQuotedStyle : ℕ := 2

/-- The characters of `".eE"` -/
def isFloatChar (c : Char) : Bool := ".eE".toList.contains c

/-- The characters of a value that is written in quotes -/
def isSpecial (c : Char) : Bool := ":#\x7b\x7d[],&*!|>'\"%@`".toList.contains c

section

variable {F : Type} (c : JsonFile.Codec F)

/-- The tag and the style of a scalar. -/
def scalarInfo (value : Str) : Str × ℕ :=
  match JsonFile.typedValue c value with
  | .bool _ => ("!!bool".toList, 0)
  | .num _ => (if value.any isFloatChar then "!!float".toList else "!!int".toList, 0)
  | .null => ("!!null".toList, 0)
  | _ => ("!!str".toList, if value = [] || value.any isSpecial then doubleQuotedStyle else 0)

def scalarNode (value : Str) (comments : Comments) : Node :=
  .scalar ⟨(scalarInfo c value).1, (scalarInfo c value).2, comments⟩ value

/-- A new key. -/
def keyNode (key : Str) : Node := .scalar ⟨"!!str".toList, 0, noComments⟩ key

def newMapping (pairs : Pairs) : Node := .mapping ⟨"!!map".toList, 0, noComments⟩ pairs

/-- The value under the first key with that text is changed; without one a pair is added. -/
def setPair (key : Str) (change : Node → Node) (new : Node) : Pairs → Pairs
  | [] => [(keyNode key, new)]
  | e :: rest => if e.1.text == key then (e.1, change e.2) :: rest else e :: setPair key change new rest

/-- The content of a mapping with a key set in it. -/
def setYAML (value : Str) : List Str → Pairs → Pairs
  | [], m => m
  | [key], m => setPair key (fun old => scalarNode c value old.comments) (scalarNode c value noComments) m
  | key :: k :: path, m =>
      setPair key
        (fun
          | .mapping info pairs => .mapping info (setYAML value (k :: path) pairs)
          | _ => newMapping (setYAML value (k :: path) []))
        (newMapping (setYAML value (k :: path) [])) m

/-- The loop of `MergeYAML`. -/
def setAll (values : Values) (m : Pairs) : Pairs :=
  (sortedEntries values).foldl (fun m e => setYAML c e.2 (e.1.splitOn '.') m) m

/-- Set dotted keys in a YAML document. Parsing gives the root of the document, if it is not empty. -/
def mergeYAML (parse : Str → Except Str (Option Node)) (encode : Node → Except Str Str) (existing : Str)
    (values : Values) : Except Str Str :=
  let root := if trimBlanks existing = [] then .ok none else parse existing
  match root with
  | .error e => .error e
  | .ok none => encode (newMapping (setAll c values []))
  | .ok (some (.mapping info pairs)) => encode (.mapping info (setAll c values pairs))
  | .ok (some _) => .error "existing file is not a YAML mapping".toList

end

/-! ## Paths in a tree -/

/-- The value under the first key with that text. -/
def valueOf (key : Str) : Pairs → Option Node
  | [] => none
  | e :: rest => if e.1.text == key then some e.2 else valueOf key rest

def child : Node → Str → Option Node
  | .mapping _ pairs, key => valueOf key pairs
  | _, _ => none

def put (o : Option Node) (key : Str) (v : Node) : Node :=
  match o with
  | some (.mapping info pairs) => .mapping info (setPair key (fun _ => v) v pairs)
  | _ => newMapping (setPair key (fun _ => v) v [])

theorem valueOf_setPair_self (key : Str) (change : Node → Node) (new : Node) (m : Pairs) :
    valueOf key (setPair key change new m) = some (((valueOf key m).map change).getD new) := by
  induction m with
  | nil =>
    simp [setPair, valueOf, keyNode, Node.text]
  | cons e m ih =>
    rw [setPair, valueOf]
    split
    · next heq =>
      rw [valueOf, if_pos heq]
      rfl
    · next hne => rw [valueOf, if_neg hne, ih]

theorem valueOf_setPair_of_ne {j key : Str} (hne : j ≠ key) (change : Node → Node) (new : Node) (m : Pairs) :
    valueOf j (setPair key change new m) = valueOf j m := by
  induction m with
  | nil =>
    simp [setPair, valueOf, keyNode, Node.text, Ne.symm hne]
  | cons e m ih =>
    rw [setPair]
    split
    · next heq =>
      have hj : (e.1.text == j) = false := by
        rw [beq_iff_eq.mp heq]
        exact beq_eq_false_iff_ne.mpr (Ne.symm hne)
      rw [valueOf, valueOf, hj]
      rfl
    · rw [valueOf, valueOf, ih]

/-- The tree of a file as a tree with keys. -/
def keyed : Keyed Str Node where
  child := child
  put := put
  child_put_self o key v := by
    have hself : ∀ m, valueOf key (setPair key (fun _ => v) v m) = some v := by
      intro m
      rw [valueOf_setPair_self]
      rcases valueOf key m with _ | w <;> rfl
    rcases o with _ | n
    · exact hself []
    · rcases n with ⟨info, m⟩ | _ | _ | _
      · exact hself m
      · exact hself []
      · exact hself []
      · exact hself []
  child_put_of_ne o j key v hne := by
    rcases o with _ | n
    · exact valueOf_setPair_of_ne hne (fun _ => v) v []
    · rcases n with ⟨info, m⟩ | _ | _ | _
      · exact valueOf_setPair_of_ne hne (fun _ => v) v m
      · exact valueOf_setPair_of_ne hne (fun _ => v) v []
      · exact valueOf_setPair_of_ne hne (fun _ => v) v []
      · exact valueOf_setPair_of_ne hne (fun _ => v) v []

/-! ## What is asked of the loop -/

/-- The pairs there were are still there, in their order and with their key nodes, and those whose key is not
touched with their values; what is new comes behind them. -/
def Grown (touched : Str → Bool) : Pairs → Pairs → Prop
  | [], _ => True
  | _ :: _, [] => False
  | a :: old, b :: new => a.1 = b.1 ∧ (touched a.1.text = false → a.2 = b.2) ∧ Grown touched old new

/-- A wanted key leads on from the path through that key. -/
def onTheWay (values : Values) (p : List Str) (key : Str) : Bool :=
  values.any fun e => (p ++ [key]).isPrefixOf (e.1.splitOn '.')

section

variable {F : Type} (c : JsonFile.Codec F)

/-- Wanted keys have their scalars, all else is kept, mappings grow, and no scalar loses its comments. -/
structure Merged (values : Values) (info : Info) (before : Pairs) : Prop where
  wanted : ∀ e ∈ values, ∃ comments, walk keyed (some (.mapping info (setAll c values before)))
    (e.1.splitOn '.') = some (scalarNode c e.2 comments)
  others : ∀ p, (∀ e ∈ values, Apart (e.1.splitOn '.') p) →
    walk keyed (some (.mapping info (setAll c values before))) p = walk keyed (some (.mapping info before)) p
  order : ∀ p i old, (∀ e ∈ values, ¬ e.1.splitOn '.' <+: p) →
    walk keyed (some (.mapping info before)) p = some (.mapping i old) →
      ∃ new, walk keyed (some (.mapping info (setAll c values before))) p = some (.mapping i new) ∧
        Grown (onTheWay values p) old new
  comments : ∀ p i v n, walk keyed (some (.mapping info before)) p = some (.scalar i v) →
    walk keyed (some (.mapping info (setAll c values before))) p = some n → n.comments = i.comments

end

variable {F : Type} {c : JsonFile.Codec F} {values : Values} {info : Info} {before : Pairs} {p : List Str}
  {e : Str × Str}

/-! ## The loop as changes at paths -/

/-- The scalar of a value, with the comments of what stands there. -/
def scalarAt (c : JsonFile.Codec F) (value : Str) (o : Option Node) : Node :=
  scalarNode c value ((o.map Node.comments).getD noComments)

/-- The changes that the loop makes. -/
def changes (c : JsonFile.Codec F) (values : Values) : List (List Str × (Option Node → Node)) :=
  (sortedEntries values).map fun e => (e.1.splitOn '.', scalarAt c e.2)

theorem Grown.refl (touched : Str → Bool) (m : Pairs) : Grown touched m m := by
  induction m with
  | nil => exact trivial
  | cons e m ih => exact ⟨rfl, fun _ => rfl, ih⟩

theorem Grown.setPair {touched : Str → Bool} {key : Str} {old new : Pairs} (h : Grown touched old new)
    (hkey : touched key = true) (v w : Node) : Grown touched old (setPair key (fun _ => v) w new) := by
  induction old generalizing new with
  | nil => exact trivial
  | cons a old ih =>
    rcases new with _ | ⟨b, new⟩
    · exact False.elim h
    · obtain ⟨hnode, hvalue, hrest⟩ := h
      rw [YamlFile.setPair]
      split
      · next heq =>
        refine ⟨hnode, fun hno => ?_, hrest⟩
        rw [hnode, beq_iff_eq.mp heq, hkey] at hno
        cases hno
      · exact ⟨hnode, hvalue, ih hrest⟩

/-- A scalar as it is read, with a comment behind it. -/
def read (tag value comment : String) : Node := .scalar ⟨tag.toList, 0, [], comment.toList, []⟩ value.toList

def portValues : Values := [("server.port".toList, "30000".toList)]

end Instances.YamlFile
