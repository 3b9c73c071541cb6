import Gsm.Server.PlayerLines
import Gsm.Data.Trim
import Mathlib.Data.Rat.Defs
import Mathlib.Algebra.Order.Ring.Rat
import Mathlib.Algebra.Ring.Parity

/-!
# The command of a player action

`buildActionCommand` fills a template's command with a player and the fields of a request. The fields are
checked before they go in; the player's name is only held against the template's pattern, and the id,
which the lists read as a file has it, against nothing. A line break in one of them ends the command,
unless it stands where the filled text is trimmed.
-/

open Js

namespace Server.Players

/-! ## Placeholders -/

def isUpper (u : UInt16) : Bool := between 0x41 0x5A u

def isNameUnit (u : UInt16) : Bool := isUpper u || between 0x30 0x39 u || u == 0x5F

/-- `[\w.:-]` -/
def isKeyUnit (u : UInt16) : Bool :=
  isNameUnit u || between 0x61 0x7A u || [0x2E, 0x3A, 0x2D].contains u

/-- `\{\{\s*(…)\s*\}\}` at the front: the name in it, which starts with one of `first` and goes on with
`more`, and what comes behind. -/
def placeholder (first more : UInt16 → Bool) (s : Text) : Option (Text × Text) :=
  match s with
  | 0x7B :: 0x7B :: rest =>
      let inner := rest.dropWhile isSpace
      match inner.takeWhile more, (inner.dropWhile more).dropWhile isSpace with
      | u :: name, 0x7D :: 0x7D :: rest => if first u then some (u :: name, rest) else none
      | _, _ => none
  | _ => none

/-- What a match of `replace` is made of. -/
structure Hole where
  space : Bool
  quoted : Bool
  name : Text
  /-- The text that matched -/
  source : Text
deriving DecidableEq

/-- `"{{NAME}}"` or `{{NAME}}`; of the first the quotes belong to it. -/
def quotedOrBare (s : Text) : Option (Bool × Text × Text) :=
  match s with
  | 0x22 :: inner =>
      match placeholder isUpper isNameUnit inner with
      | some (name, 0x22 :: rest) => some (true, name, rest)
      | _ => none
  | s => (placeholder isUpper isNameUnit s).map fun (name, rest) => (false, name, rest)

/-- A placeholder at the front, with the space before it. -/
def hole (s : Text) : Option Hole :=
  match s with
  | 0x20 :: inner => (quotedOrBare inner).map fun (quoted, name, rest) =>
      ⟨true, quoted, name, s.take (s.length - rest.length)⟩
  | s => (quotedOrBare s).map fun (quoted, name, rest) =>
      ⟨false, quoted, name, s.take (s.length - rest.length)⟩

/-- A text as `replace` reads it, with a global pattern: its matches, and what stands between them. -/
def scanFrom {β : Type} (find : Text → Option β) (length : β → ℕ) : ℕ → Text → List (UInt16 ⊕ β)
  | _, [] => []
  | skip + 1, _ :: rest => scanFrom find length skip rest
  | 0, u :: rest =>
      match find (u :: rest) with
      | some b => .inr b :: scanFrom find length (length b - 1) rest
      | none => .inl u :: scanFrom find length 0 rest

abbrev Piece := UInt16 ⊕ Hole

def pieces (command : Text) : List Piece := scanFrom hole (·.source.length) 0 command

/-! ## Players as the list files have them -/

/-- A value of a parsed file; a number by the text `String` makes of it. -/
inductive Value where
  | text (s : Text)
  | number (shown : Text)
  | bool (b : Bool)
  | other

def scalar : Option Value → Text
  | some (.text s) => s
  | some (.number shown) => shown
  | some (.bool b) => text (toString b)
  | _ => []

/-- The keys of a list's entries -/
structure PlayerList where
  nameKey : Text
  idKey : Option Text
  idFormat : Option Text

structure PlayerListEntry where
  name : Text
  id : Option Text
deriving DecidableEq

/-- `{{key}}` in a format, with how long it is -/
def formatKey (s : Text) : Option (Text × ℕ) :=
  (placeholder isKeyUnit isKeyUnit s).map fun (key, rest) => (key, s.length - rest.length)

/-- `idFormat` fills `{{key}}` from the entry (null when one is missing), else `idKey`. -/
def entryId (list : PlayerList) (obj : List (Text × Value)) : Option Text :=
  match list.idFormat with
  | some format =>
      let parts := (scanFrom formatKey (·.2) 0 format).map fun
        | .inl u => [u]
        | .inr (key, _) => scalar (obj.lookup key)
      if parts.contains [] || parts.flatten == [] then none else some parts.flatten
  | none => (list.idKey.map fun key => scalar (obj.lookup key)).filter (· != [])

/-- The entries of a list; what is no object is passed over, and so is one without a name. -/
def listEntries (list : PlayerList) (items : List (Option (List (Text × Value)))) : List PlayerListEntry :=
  items.filterMap fun item => item.bind fun obj =>
    let id := entryId list obj
    let found := scalar (obj.lookup list.nameKey)
    let name := if found = [] then id.getD [] else found
    if name = [] then none else some ⟨name, id⟩

/-- The player of a request: the id that was seen with the name, else the one the game's lists have. -/
def playerOf (js : Builtins) (seen : Option Text) (entries : List PlayerListEntry) (name : Text) : SeenPlayer :=
  let seen := seen.filter (· != [])
  ⟨name, seen.or ((entries.find? fun e => (e.id.filter (· != [])).isSome &&
    js.toLowerCase e.name == js.toLowerCase name).bind (·.id))⟩

/-! ## `checkField` -/

inductive FieldType where
  | text
  | number
  | select
  | player
deriving DecidableEq

structure TemplatePlayerActionField where
  name : Text
  type : FieldType
  required : Bool
  default : Text
  /-- The values of its options -/
  options : List Text
  min : Option ℚ
  max : Option ℚ

structure TemplatePlayerAction where
  command : Text
  fields : List TemplatePlayerActionField

/-- The language's numbers: `Number` where it is finite, and `String`. -/
structure Numbers where
  number : Text → Option ℚ
  shown : ℚ → Text

variable (num : Numbers) (validName : Text → Bool)

/-- `CONTROL` -/
def isControlUnit (u : UInt16) : Bool := u ≤ 0x1F || u == 0x7F

def fieldMaxLength : ℕ := 200

def checkNumber (f : TemplatePlayerActionField) (value : Text) : Option Text :=
  match num.number value with
  | none => some (text "Must be a number")
  | some n =>
      match f.min.filter (n < ·), f.max.filter (· < n) with
      | some min, _ => some (text "Must be at least " ++ num.shown min)
      | none, some max => some (text "Must be at most " ++ num.shown max)
      | none, none => none

/-- Check one field value (already trimmed); returns the problem or null. -/
def checkField (f : TemplatePlayerActionField) (value : Text) : Option Text :=
  if value = [] then if f.required then some (text "Required") else none
  else if value.any isControlUnit then some (text "Must be a single line of text")
  else if fieldMaxLength < value.length then
    some (text "At most " ++ text (toString fieldMaxLength) ++ text " characters")
  else
    match f.type with
    | .number => checkNumber num f value
    | .select => if f.options.contains value then none else some (text "Not one of the options")
    | .player => if validName value then none else some (text "Not a valid player name")
    | .text => none

/-! ## `buildActionCommand` -/

def playerKey : Text := text "PLAYER"

def playerIdKey : Text := text "PLAYER_ID"

/-- The trimmed value of a field. -/
def fieldValue (input : List (Text × Text)) (f : TemplatePlayerActionField) : Text :=
  trim ((input.lookup f.name).getD f.default)

/-- What the placeholders stand for; of two fields with one name the later counts. -/
def valuesOf (action : TemplatePlayerAction) (player : SeenPlayer) (input : List (Text × Text)) :
    List (Text × Text) :=
  action.fields.foldl (fun values f => (f.name, fieldValue input f) :: values)
    [(playerKey, player.name), (playerIdKey, player.id.getD player.name)]

/-- `problems[name] = problem` -/
def setProblem (problems : List (Text × Text)) (name problem : Text) : List (Text × Text) :=
  (problems.filter fun e => e.1 != name) ++ [(name, problem)]

/-- The problems found before anything is filled in. -/
def problemsOf (action : TemplatePlayerAction) (player : SeenPlayer) (input : List (Text × Text)) :
    List (Text × Text) :=
  let problems := if validName player.name then [] else [(playerKey, text "Not a valid player name")]
  let problems := input.foldl (fun problems e =>
    if action.fields.any fun f => f.name == e.1 then problems
    else setProblem problems e.1 (text "Unknown field")) problems
  action.fields.foldl (fun problems f =>
    match checkField num validName f (fieldValue input f) with
    | some problem => setProblem problems f.name problem
    | none => problems) problems

def quoteMark : UInt16 := 0x22

/-- `value.replaceAll('"', "'")` -/
def singleQuotes (value : Text) : Text := value.map fun u => if u == quoteMark then 0x27 else u

/-- One piece of the command, filled in. -/
def fill (values : List (Text × Text)) : Piece → Text
  | .inl u => [u]
  | .inr h =>
      match values.lookup h.name with
      | none => h.source
      | some [] => []
      | some value =>
          (if h.space then [0x20] else []) ++
            if h.quoted then quoteMark :: (singleQuotes value ++ [quoteMark]) else value

/-- Fill an action's command for a player, or say what is wrong with the values. -/
def buildActionCommand (action : TemplatePlayerAction) (player : SeenPlayer) (input : List (Text × Text)) :
    Except (List (Text × Text)) Text :=
  match problemsOf num validName action player input with
  | [] => .ok (trim ((pieces action.command).flatMap (fill (valuesOf action player input))))
  | problems => .error problems

/-! ## The schema of an action -/

/-- `VARIABLE_NAME_RE` -/
def isVariableName (name : Text) : Bool :=
  match name with
  | [] => false
  | u :: rest => isUpper u && decide (rest.length ≤ 63) && rest.all isNameUnit

/-- The schema of a field, with the names the panel fills in. -/
def fieldOk (f : TemplatePlayerActionField) : Bool :=
  isVariableName f.name && decide (f.default.length ≤ 200) && f.options.all (fun o => decide (o.length ≤ 200)) &&
    f.name != playerKey && f.name != playerIdKey

/-- The placeholders of a command, quoted or not -/
def placeholderAt (s : Text) : Option (Text × ℕ) :=
  (placeholder isUpper isNameUnit s).map fun (name, rest) => (name, s.length - rest.length)

/-- The schema of an action's command and fields. -/
def actionOk (a : TemplatePlayerAction) : Bool :=
  a.command != [] && decide (a.command.length ≤ 500) &&
    a.command.all (fun u => !([0x0A, 0x0D, 0x00].contains u)) &&
    decide (a.fields.length ≤ 8) && a.fields.all fieldOk &&
    (scanFrom placeholderAt (·.2) 0 a.command).all fun
      | .inl _ => true
      | .inr (name, _) => name == playerKey || name == playerIdKey || a.fields.any fun f => f.name == name

/-! ## What a command has to be -/

def isLineBreak (u : UInt16) : Bool := u == 0x0A || u == 0x0D

/-- Whether an argument is open behind a text: a double quote opens one, and the next closes it. -/
def openAfter (s : Text) : Bool := s.foldl (fun opened u => if u == quoteMark then !opened else opened) false

/-- What the pieces before a placeholder make of the command. -/
def textBefore (values : List (Text × Text)) (before : List Piece) (h : Hole) : Text :=
  (before.flatMap (fill values) ++ if h.space then [0x20] else []).dropWhile isSpace

/-- One line, in which the value of each quoted placeholder is one argument. -/
structure Safe (action : TemplatePlayerAction) (values : List (Text × Text)) (command : Text) : Prop where
  oneLine : ∀ u ∈ command, isLineBreak u = false
  oneArgument : ∀ before h after value, pieces action.command = before ++ .inr h :: after →
    h.quoted = true → values.lookup h.name = some value → value ≠ [] →
    (∃ rest, command = textBefore values before h ++ quoteMark :: (singleQuotes value ++ quoteMark :: rest)) ∧
      openAfter (textBefore values before h) = false ∧ quoteMark ∉ singleQuotes value

/-- A line break of the player's name or id is put in with something before it and something behind it. -/
def BreaksLine (action : TemplatePlayerAction) (values : List (Text × Text)) : Prop :=
  ∃ before h after u w b, pieces action.command = before ++ .inr h :: after ∧
    (h.name = playerKey ∨ h.name = playerIdKey) ∧ isLineBreak b = true ∧
    fill values (.inr h) = u ++ b :: w ∧
    ¬ Data.Trim.Blank isSpace (before.flatMap (fill values) ++ u) ∧
    ¬ Data.Trim.Blank isSpace (w ++ after.flatMap (fill values))

/-- Text of the template, or a value that is put in without quotes. -/
def loose (values : List (Text × Text)) : Piece → Text
  | .inl u => [u]
  | .inr h =>
      match values.lookup h.name with
      | none => h.source
      | some value => if h.quoted then [] else value

/-- Before each quoted placeholder with a value, the template and the values put in bare have every double
quote closed. -/
def QuotesPaired (action : TemplatePlayerAction) (values : List (Text × Text)) : Prop :=
  ∀ before h after value, pieces action.command = before ++ .inr h :: after → h.quoted = true →
    values.lookup h.name = some value → value ≠ [] →
    Even ((before.flatMap (loose values)).count quoteMark)

variable {num validName} {action : TemplatePlayerAction} {player : SeenPlayer} {input values : List (Text × Text)}
  {command s value name : Text} {u : UInt16} {f : TemplatePlayerActionField}

/-! ## The pieces -/

theorem fill_of_none {h : Hole} (hv : values.lookup h.name = none) : fill values (.inr h) = h.source := by
  rw [fill, hv]

theorem fill_of_nil {h : Hole} (hv : values.lookup h.name = some []) : fill values (.inr h) = [] := by
  rw [fill, hv]

theorem fill_of_some {h : Hole} (hv : values.lookup h.name = some value) (hne : value ≠ []) :
    fill values (.inr h) = (if h.space then [0x20] else []) ++
      if h.quoted then quoteMark :: (singleQuotes value ++ [quoteMark]) else value := by
  rw [fill, hv]
  rcases value with _ | ⟨u, rest⟩
  · exact absurd rfl hne
  · rfl

theorem scanFrom_spec {β : Type} (find : Text → Option β) (length : β → ℕ) (s : Text) (skip : ℕ) :
    (∀ u, .inl u ∈ scanFrom find length skip s → u ∈ s) ∧
      ∀ b, .inr b ∈ scanFrom find length skip s → ∃ t, t ⊆ s ∧ find t = some b := by
  induction s generalizing skip with
  | nil =>
    rcases skip with _ | skip <;> exact ⟨fun _ h => (nomatch h), fun _ h => (nomatch h)⟩
  | cons c rest ih =>
    have hgrow : ∀ skip, (∀ u, .inl u ∈ scanFrom find length skip rest → u ∈ c :: rest) ∧
        ∀ b, .inr b ∈ scanFrom find length skip rest → ∃ t, t ⊆ c :: rest ∧ find t = some b := by
      intro skip
      refine ⟨fun u hu => List.mem_cons_of_mem _ ((ih skip).1 u hu), fun b hb => ?_⟩
      obtain ⟨t, ht, hfind⟩ := (ih skip).2 b hb
      exact ⟨t, List.subset_cons_of_subset c ht, hfind⟩
    rcases skip with _ | skip
    · rw [scanFrom]
      rcases hfind : find (c :: rest) with _ | b
      · refine ⟨fun u hu => ?_, fun b hb => ?_⟩
        · rcases List.mem_cons.mp hu with heq | hu
          · exact Sum.inl.inj heq ▸ List.mem_cons_self
          · exact (hgrow 0).1 u hu
        · rcases List.mem_cons.mp hb with heq | hb
          · cases heq
          · exact (hgrow 0).2 b hb
      · refine ⟨fun u hu => ?_, fun b' hb => ?_⟩
        · rcases List.mem_cons.mp hu with heq | hu
          · cases heq
          · exact (hgrow _).1 u hu
        · rcases List.mem_cons.mp hb with heq | hb
          · exact ⟨c :: rest, fun _ h => h, Sum.inr.inj heq ▸ hfind⟩
          · exact (hgrow _).2 b' hb
    · exact hgrow skip

theorem source_subset {h : Hole} (hs : hole s = some h) : h.source ⊆ s := by
  unfold hole at hs
  split at hs
  · next inner =>
    obtain ⟨⟨quoted, name, rest⟩, -, rfl⟩ := Option.map_eq_some_iff.mp hs
    exact List.take_subset _ _
  · obtain ⟨⟨quoted, name, rest⟩, -, rfl⟩ := Option.map_eq_some_iff.mp hs
    exact List.take_subset _ _

/-- What a placeholder stands for: a field's value, or the player's name or id. -/
theorem lookup_valuesOf (h : (valuesOf action player input).lookup name = some value) :
    (name = playerKey ∨ name = playerIdKey) ∨ ∃ f ∈ action.fields, f.name = name ∧ value = fieldValue input f := by
  have hfold : ∀ (l : List TemplatePlayerActionField) (values : List (Text × Text)),
      (∀ f ∈ l, f ∈ action.fields) →
      (∀ name value, values.lookup name = some value → (name = playerKey ∨ name = playerIdKey) ∨
        ∃ f ∈ action.fields, f.name = name ∧ value = fieldValue input f) →
      ∀ name value, (l.foldl (fun values f => (f.name, fieldValue input f) :: values) values).lookup name =
        some value → (name = playerKey ∨ name = playerIdKey) ∨
          ∃ f ∈ action.fields, f.name = name ∧ value = fieldValue input f := by
    intro l
    induction l with
    | nil => exact fun _ _ h => h
    | cons f l ih =>
      intro values hl hvalues
      refine ih _ (fun g hg => hl g (List.mem_cons_of_mem _ hg)) fun name value hv => ?_
      rw [List.lookup_cons] at hv
      split at hv
      · next heq =>
        exact .inr ⟨f, hl f List.mem_cons_self, (beq_iff_eq.mp heq).symm, (Option.some.inj hv).symm⟩
      · exact hvalues name value hv
  refine hfold action.fields _ (fun _ h => h) (fun name value hv => .inl ?_) name value h
  obtain ⟨l₁, l₂, heq, -⟩ := List.lookup_eq_some_iff.mp hv
  have hmem : (name, value) ∈ [(playerKey, player.name), (playerIdKey, player.id.getD player.name)] :=
    heq ▸ List.mem_append_right _ List.mem_cons_self
  simp only [List.mem_cons, Prod.mk.injEq, List.not_mem_nil, or_false] at hmem
  rcases hmem with ⟨hname, -⟩ | ⟨hname, -⟩
  · exact .inl hname
  · exact .inr hname

/-! ## The checks -/

theorem setProblem_ne_nil (problems : List (Text × Text)) (name problem : Text) :
    setProblem problems name problem ≠ [] := by
  rw [setProblem]
  exact List.append_ne_nil_of_right_ne_nil _ (List.cons_ne_nil _ _)

/-- A request without problems has passed the check of every field. -/
theorem checkField_of_noProblems (h : problemsOf num validName action player input = []) :
    ∀ f ∈ action.fields, checkField num validName f (fieldValue input f) = none := by
  have hfold : ∀ (l : List TemplatePlayerActionField) (problems : List (Text × Text)),
      l.foldl (fun problems f =>
        match checkField num validName f (fieldValue input f) with
        | some problem => setProblem problems f.name problem
        | none => problems) problems = [] →
      problems = [] ∧ ∀ f ∈ l, checkField num validName f (fieldValue input f) = none := by
    intro l
    induction l with
    | nil => exact fun _ h => ⟨h, fun _ hf => nomatch hf⟩
    | cons f l ih =>
      intro problems h
      rw [List.foldl_cons] at h
      obtain ⟨hstart, hall⟩ := ih _ h
      rcases hf : checkField num validName f (fieldValue input f) with _ | problem
      · rw [hf] at hstart
        refine ⟨hstart, fun g hg => ?_⟩
        rcases List.mem_cons.mp hg with rfl | hg
        · exact hf
        · exact hall g hg
      · rw [hf] at hstart
        exact absurd hstart (setProblem_ne_nil _ _ _)
  exact (hfold _ _ h).2

/-- A value that passed is one line. -/
theorem notBreak_of_checkField (h : checkField num validName f value = none) (hu : u ∈ value) :
    isLineBreak u = false := by
  rw [checkField] at h
  split at h
  · next hnil =>
    subst hnil
    cases hu
  split at h
  · cases h
  · next hcontrol =>
    rw [List.any_eq_true, not_exists] at hcontrol
    by_contra hbreak
    refine hcontrol u ⟨hu, ?_⟩
    rw [Bool.not_eq_false, isLineBreak, Bool.or_eq_true, beq_iff_eq, beq_iff_eq] at hbreak
    rcases hbreak with rfl | rfl <;> rfl

theorem buildActionCommand_eq_ok (h : buildActionCommand num validName action player input = .ok command) :
    problemsOf num validName action player input = [] ∧
      command = trim ((pieces action.command).flatMap (fill (valuesOf action player input))) := by
  rw [buildActionCommand] at h
  split at h
  · next hnil => exact ⟨hnil, (Except.ok.inj h).symm⟩
  · cases h

/-! ## Line breaks -/

theorem isSpace_of_isLineBreak (h : isLineBreak u = true) : isSpace u = true := by
  rw [isLineBreak, Bool.or_eq_true, beq_iff_eq, beq_iff_eq] at h
  rcases h with rfl | rfl <;> rfl

/-- The pieces before, at and behind a unit of the text they make. -/
theorem flatMap_eq_append_cons {α β : Type} {f : α → List β} {l : List α} {a b : List β} {x : β}
    (h : l.flatMap f = a ++ x :: b) : ∃ before p after u w, l = before ++ p :: after ∧ f p = u ++ x :: w ∧
      a = before.flatMap f ++ u ∧ b = w ++ after.flatMap f := by
  induction l generalizing a with
  | nil =>
    rw [List.flatMap_nil] at h
    exact absurd h.symm (List.append_ne_nil_of_right_ne_nil _ (List.cons_ne_nil _ _))
  | cons p l ih =>
    rw [List.flatMap_cons] at h
    rcases List.append_eq_append_iff.mp h with ⟨c, rfl, hc⟩ | ⟨c, hp, hc⟩
    · obtain ⟨before, q, after, u, w, rfl, hq, rfl, hb⟩ := ih hc
      exact ⟨p :: before, q, after, u, w, rfl, hq, by rw [List.flatMap_cons, List.append_assoc], hb⟩
    · rcases c with _ | ⟨y, c⟩
      · obtain ⟨before, q, after, u, w, rfl, hq, hu, hb⟩ := ih (a := []) hc.symm
        obtain ⟨hbefore, rfl⟩ := List.append_eq_nil_iff.mp hu.symm
        refine ⟨p :: before, q, after, [], w, rfl, hq, ?_, hb⟩
        rw [List.flatMap_cons, hbefore, List.append_nil, List.append_nil, hp, List.append_nil]
      · obtain ⟨rfl, rfl⟩ := List.cons.inj hc
        exact ⟨[], p, l, a, c, rfl, hp, rfl, rfl⟩

theorem notBreak_of_actionOk (h : actionOk action = true) (hu : u ∈ action.command) :
    isLineBreak u = false := by
  simp only [actionOk, Bool.and_eq_true, List.all_eq_true] at h
  have hno := h.1.1.1.2 u hu
  by_contra hbreak
  rw [Bool.not_eq_false, isLineBreak, Bool.or_eq_true, beq_iff_eq, beq_iff_eq] at hbreak
  rcases hbreak with rfl | rfl <;> exact absurd hno (by decide)

theorem mem_of_mem_singleQuotes (hu : u ∈ singleQuotes value) (hbreak : isLineBreak u = true) : u ∈ value := by
  obtain ⟨v, hv, rfl⟩ := List.mem_map.mp hu
  split at hbreak
  · exact absurd hbreak (by decide)
  · next hno => rwa [if_neg hno]

/-- A line break among the filled pieces comes from the player's name or id. -/
theorem name_of_isLineBreak (haction : actionOk action = true)
    (hchecked : problemsOf num validName action player input = []) {p : Piece}
    (hp : p ∈ pieces action.command) (hu : u ∈ fill (valuesOf action player input) p)
    (hbreak : isLineBreak u = true) :
    ∃ h, p = .inr h ∧ (h.name = playerKey ∨ h.name = playerIdKey) := by
  obtain ⟨hunits, hholes⟩ := scanFrom_spec hole (·.source.length) action.command 0
  have hcommand : ∀ v ∈ action.command, v ≠ u := by
    rintro v hv rfl
    rw [notBreak_of_actionOk haction hv] at hbreak
    cases hbreak
  rcases p with v | h
  · rw [fill, List.mem_singleton] at hu
    exact absurd hu.symm (hcommand v (hunits v hp))
  · refine ⟨h, rfl, ?_⟩
    rcases hlookup : (valuesOf action player input).lookup h.name with _ | value
    · obtain ⟨t, ht, hfind⟩ := hholes h hp
      rw [fill_of_none hlookup] at hu
      exact absurd rfl (hcommand u (ht (source_subset hfind hu)))
    · rcases lookup_valuesOf hlookup with hname | ⟨f, hf, -, rfl⟩
      · exact hname
      · exfalso
        have hvalue : ∀ v ∈ fieldValue input f, v ≠ u := by
          rintro v hv rfl
          rw [notBreak_of_checkField (checkField_of_noProblems hchecked f hf) hv] at hbreak
          cases hbreak
        by_cases hnil : fieldValue input f = []
        · rw [fill_of_nil (hnil ▸ hlookup)] at hu
          cases hu
        · rw [fill_of_some hlookup hnil] at hu
          rcases List.mem_append.mp hu with hspace | hvalue'
          · split at hspace
            · rw [List.mem_singleton.mp hspace] at hbreak
              exact absurd hbreak (by decide)
            · cases hspace
          · split at hvalue'
            · rcases List.mem_cons.mp hvalue' with rfl | hquoted
              · exact absurd hbreak (by decide)
              · rcases List.mem_append.mp hquoted with hin | hend
                · exact hvalue u (mem_of_mem_singleQuotes hin hbreak) rfl
                · rw [List.mem_singleton.mp hend] at hbreak
                  exact absurd hbreak (by decide)
            · exact hvalue u hvalue' rfl

/-- The command is one line just when no line break of the player stands between what is typed. -/
theorem oneLine_iff (haction : actionOk action = true)
    (hchecked : problemsOf num validName action player input = []) :
    (∀ u ∈ trim ((pieces action.command).flatMap (fill (valuesOf action player input))),
      isLineBreak u = false) ↔ ¬ BreaksLine action (valuesOf action player input) := by
  constructor
  · rintro hline ⟨before, h, after, u, w, b, hpieces, -, hb, hfill, hbefore, hafter⟩
    have hin : b ∈ trim ((pieces action.command).flatMap (fill (valuesOf action player input))) := by
      refine (Data.Trim.mem_trim_iff (isSpace_of_isLineBreak hb)).mpr ⟨_, _, ?_, hbefore, hafter⟩
      rw [hpieces, List.flatMap_append, List.flatMap_cons, hfill]
      simp
    rw [hline b hin] at hb
    cases hb
  · intro hno u hu
    by_contra hb
    rw [Bool.not_eq_false] at hb
    obtain ⟨a, c, heq, ha, hc⟩ := (Data.Trim.mem_trim_iff (isSpace_of_isLineBreak hb)).mp hu
    obtain ⟨before, p, after, u', w, hpieces, hp, rfl, rfl⟩ := flatMap_eq_append_cons heq
    have hmem : p ∈ pieces action.command := hpieces ▸ List.mem_append_right _ List.mem_cons_self
    obtain ⟨h, rfl, hname⟩ := name_of_isLineBreak haction hchecked hmem
      (hp ▸ List.mem_append_right _ List.mem_cons_self) hb
    exact hno ⟨before, h, after, u', w, u, hpieces, hname, hb, hp, ha, hc⟩

/-! ## Quotes -/

theorem openAfter_eq_false_iff (s : Text) : openAfter s = false ↔ Even (s.count quoteMark) := by
  have hfold : ∀ (s : Text) (opened : Bool), s.foldl (fun opened u => if u == quoteMark then !opened else opened)
      opened = xor opened (decide (¬ Even (s.count quoteMark))) := by
    intro s
    induction s with
    | nil => intro opened; simp
    | cons u s ih =>
      intro opened
      rw [List.foldl_cons, ih, List.count_cons]
      split
      · by_cases heven : Even (s.count quoteMark) <;> simp [heven, Nat.even_add_one]
      · rw [Nat.add_zero]
  rw [openAfter, hfold]
  simp

theorem notMem_singleQuotes (value : Text) : quoteMark ∉ singleQuotes value := by
  intro hmem
  obtain ⟨u, -, hu⟩ := List.mem_map.mp hmem
  split at hu
  · exact absurd hu (by decide)
  · next hno => exact hno (beq_iff_eq.mpr hu)

theorem loose_of_none {h : Hole} (hv : values.lookup h.name = none) : loose values (.inr h) = h.source := by
  rw [loose, hv]

theorem loose_of_some {h : Hole} (hv : values.lookup h.name = some value) :
    loose values (.inr h) = if h.quoted then [] else value := by
  rw [loose, hv]

/-- A quoted value brings two quotes, so only what is loose counts. -/
theorem even_count_fill (values : List (Text × Text)) (l : List Piece) :
    Even ((l.flatMap (fill values)).count quoteMark) ↔ Even ((l.flatMap (loose values)).count quoteMark) := by
  have hone : ∀ p : Piece, Even ((fill values p).count quoteMark) ↔ Even ((loose values p).count quoteMark) := by
    rintro (u | h)
    · rfl
    · rcases hv : values.lookup h.name with _ | value
      · rw [fill_of_none hv, loose_of_none hv]
      · by_cases hnil : value = []
        · subst hnil
          rw [fill_of_nil hv, loose_of_some hv, ite_self]
        · have hspace : (if h.space then [0x20] else [] : Text).count quoteMark = 0 := by
            split <;> rfl
          rw [fill_of_some hv hnil, loose_of_some hv, List.count_append, hspace, Nat.zero_add]
          split
          · rw [List.count_cons_self, List.count_append, List.count_eq_zero.mpr (notMem_singleQuotes value)]
            exact iff_of_true (by decide) (by decide)
          · rfl
  induction l with
  | nil => rfl
  | cons p l ih =>
    rw [List.flatMap_cons, List.flatMap_cons, List.count_append, List.count_append, Nat.even_add, Nat.even_add]
    exact iff_congr (hone p) ih

theorem even_count_textBefore (values : List (Text × Text)) (before : List Piece) (h : Hole) :
    Even ((textBefore values before h).count quoteMark) ↔
      Even ((before.flatMap (loose values)).count quoteMark) := by
  have hdrop : ∀ s : Text, (s.dropWhile isSpace).count quoteMark = s.count quoteMark := by
    intro s
    conv_rhs => rw [← List.takeWhile_append_dropWhile (p := isSpace) (l := s)]
    have hno : quoteMark ∉ s.takeWhile isSpace := fun hmem =>
      absurd (List.mem_takeWhile_imp hmem) (by decide)
    rw [List.count_append, List.count_eq_zero.mpr hno, Nat.zero_add]
  have hspace : (if h.space then [0x20] else [] : Text).count quoteMark = 0 := by
    split <;> rfl
  rw [textBefore, hdrop, List.count_append, hspace, Nat.add_zero, even_count_fill]

/-- Where a quoted placeholder's value stands in the command. -/
theorem eq_textBefore {before after : List Piece} {h : Hole}
    (hpieces : pieces action.command = before ++ .inr h :: after) (hquoted : h.quoted = true)
    (hv : values.lookup h.name = some value) (hne : value ≠ []) :
    ∃ rest, trim ((pieces action.command).flatMap (fill values)) =
      textBefore values before h ++ quoteMark :: (singleQuotes value ++ quoteMark :: rest) := by
  have hstay : isSpace quoteMark = false := by decide
  refine ⟨(after.flatMap (fill values)).rdropWhile isSpace, ?_⟩
  have hshape : (pieces action.command).flatMap (fill values) =
      (before.flatMap (fill values) ++ if h.space then [0x20] else []) ++
        quoteMark :: (singleQuotes value ++ quoteMark :: after.flatMap (fill values)) := by
    rw [hpieces, List.flatMap_append, List.flatMap_cons, fill_of_some hv hne, if_pos hquoted]
    simp
  rw [hshape]
  exact Data.Trim.trim_between hstay hstay _

/-- A command that was built is one line, and each value in a quoted placeholder one argument, just when
no line break of the player's name or id stands between what is typed, and the quotes before each quoted
placeholder are paired. -/
theorem buildActionCommand_safe_iff (haction : actionOk action = true)
    (h : buildActionCommand num validName action player input = .ok command) :
    Safe action (valuesOf action player input) command ↔
      ¬ BreaksLine action (valuesOf action player input) ∧
        QuotesPaired action (valuesOf action player input) := by
  obtain ⟨hchecked, rfl⟩ := buildActionCommand_eq_ok h
  constructor
  · intro hsafe
    refine ⟨(oneLine_iff haction hchecked).mp hsafe.oneLine, ?_⟩
    intro before hole after value hpieces hquoted hv hne
    have hopen := (hsafe.oneArgument before hole after value hpieces hquoted hv hne).2.1
    exact (even_count_textBefore _ _ _).mp ((openAfter_eq_false_iff _).mp hopen)
  · rintro ⟨hline, hpaired⟩
    refine ⟨(oneLine_iff haction hchecked).mpr hline, ?_⟩
    intro before hole after value hpieces hquoted hv hne
    refine ⟨eq_textBefore hpieces hquoted hv hne, ?_, notMem_singleQuotes value⟩
    have heven := hpaired before hole after value hpieces hquoted hv hne
    exact (openAfter_eq_false_iff _).mpr ((even_count_textBefore _ _ _).mpr heven)

/-- `kick "{{PLAYER_ID}}" "{{REASON}}"` -/
def kick : TemplatePlayerAction where
  command := text "kick \"\x7b\x7bPLAYER_ID\x7d\x7d\" \"\x7b\x7bREASON\x7d\x7d\""
  fields := [⟨text "REASON", .text, false, [], [], none, none⟩]

/-- `^[A-Za-z0-9_]{1,16}$` -/
def plainName (name : Text) : Bool :=
  name != [] && decide (name.length ≤ 16) && name.all fun u => isNameUnit u || between 0x61 0x7A u

/-- Numbers and case as far as these requests need them -/
def noNumbers : Numbers := ⟨fun _ => none, fun _ => []⟩

def asciiCase : Builtins :=
  ⟨fun s => s.map fun u => if isUpper u then u + 0x20 else u, fun _ _ => false⟩

def steve : SeenPlayer := ⟨text "Steve", some (text "76561")⟩

def reason : List (Text × Text) := [(text "REASON", text "be \"nice\"")]

theorem buildActionCommand_safe_kick : ∃ command,
    buildActionCommand noNumbers plainName kick steve reason = .ok command ∧
      command = text "kick \"76561\" \"be 'nice'\"" ∧ Safe kick (valuesOf kick steve reason) command := by
  have hrun : buildActionCommand noNumbers plainName kick steve reason =
      .ok (text "kick \"76561\" \"be 'nice'\"") := by decide +kernel
  refine ⟨_, hrun, rfl, (buildActionCommand_safe_iff (by decide +kernel) hrun).mpr ⟨?_, ?_⟩⟩
  · rintro ⟨before, h, after, u, w, b, hpieces, -, hb, hfill, -⟩
    have hall : ((pieces kick.command).flatMap (fill (valuesOf kick steve reason))).any isLineBreak = false := by
      decide +kernel
    refine List.any_eq_false.mp hall b (List.mem_flatMap.mpr ⟨.inr h, ?_, ?_⟩) hb
    · rw [hpieces]
      exact List.mem_append_right _ List.mem_cons_self
    · rw [hfill]
      exact List.mem_append_right _ List.mem_cons_self
  · intro before h after value hpieces _ _ _
    have hall : ∀ p ∈ pieces kick.command, quoteMark ∉ loose (valuesOf kick steve reason) p := by decide +kernel
    have hno : quoteMark ∉ before.flatMap (loose (valuesOf kick steve reason)) := by
      rw [List.mem_flatMap]
      rintro ⟨p, hp, hin⟩
      exact hall p (hpieces ▸ List.mem_append_left _ hp) hin
    rw [List.count_eq_zero.mpr hno]
    exact Even.zero

/-- The keys of a list of bans. -/
def bans : PlayerList := ⟨text "name", some (text "uuid"), none⟩

/-- An entry of the file whose id holds a line break. -/
def brokenEntry : List (Option (List (Text × Value))) :=
  [some [(text "uuid", .text (text "1\nop Mallory")), (text "name", .text (text "Steve"))]]

/-- With the id of that entry the command types a second one. -/
theorem buildActionCommand_not_safe : ∃ player command, actionOk kick = true ∧
    player = playerOf asciiCase none (listEntries bans brokenEntry) (text "Steve") ∧
    buildActionCommand noNumbers plainName kick player [] = .ok command ∧
    command = text "kick \"1\nop Mallory\"" ∧ ¬ Safe kick (valuesOf kick player []) command := by
  refine ⟨⟨text "Steve", some (text "1\nop Mallory")⟩, _, by decide +kernel, by decide +kernel,
    (by decide +kernel : _ = Except.ok (text "kick \"1\nop Mallory\"")), rfl, fun hsafe => ?_⟩
  have hbreak := hsafe.oneLine 0x0A (by decide +kernel)
  exact absurd hbreak (by decide)

end Server.Players
