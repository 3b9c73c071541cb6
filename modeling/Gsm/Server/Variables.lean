import Gsm.Data.Assoc
import Gsm.Server.PlayerActions
import Gsm.Ws.UiGateway

/-!
# The variables of an instance

`mergeVariables` takes the values of a request over the ones an instance has, and checks each against the template.
The schema of a template lets two variables have one name. The later one's value is then the one kept, so with
neither a submitted nor a current value its default takes the place of the earlier one's (`keeps_iff`).
-/

open Js Ws Data

namespace Server.Variables

open Players (Numbers isVariableName)

/-! ## `validateVariable` -/

inductive VariableType where
  | text
  | number
  | boolean
  | select
  | version
deriving DecidableEq

/-- What is read of a `TemplateVariable`. Its name starts with a capital, as no member of `Object.prototype` does. -/
structure TemplateVariable where
  name : Text
  named : isVariableName name = true
  label : Text
  type : VariableType
  default : Text
  required : Bool
  /-- The values of its options -/
  options : List Text
  allowCustom : Bool
  min : Option ℚ
  max : Option ℚ
  editable : Bool
  pattern : Option Text

/-- The language's regular expressions: `new RegExp(pattern)`, none where that throws, with its `test` -/
abbrev Regexps := Text → Option (Text → Bool)

variable (num : Numbers) (regexps : Regexps)

def numberProblem (v : TemplateVariable) (value : Text) : Option Text :=
  match num.number value with
  | none => some (text "Must be a number")
  | some n =>
      match v.min.filter (n < ·), v.max.filter (· < n) with
      | some min, _ => some (text "Must be at least " ++ num.shown min)
      | none, some max => some (text "Must be at most " ++ num.shown max)
      | none, none => none

/-- The `switch` over the type -/
def typeProblem (v : TemplateVariable) (value : Text) : Option Text :=
  match v.type with
  | .number => numberProblem num v value
  | .boolean => if value != text "true" && value != text "false" then some (text "Must be true or false") else none
  | .select =>
      if !v.allowCustom && !v.options.any (· == value) then some (text "Not one of the options") else none
  | .text | .version => none

/-- A broken pattern does not lock every value out. -/
def patternProblem (v : TemplateVariable) (value : Text) : Option Text :=
  match (v.pattern.filter (· != [])).bind regexps with
  | some test => if !test value then some (text "Does not match the expected format") else none
  | none => none

/-- Check one variable value against its declaration; returns the problem or null. -/
def validateVariable (v : TemplateVariable) (value : Text) : Option Text :=
  if value = [] then if v.required then some (text "Required") else none
  else
    match typeProblem num v value, patternProblem regexps v value with
    | some problem, _ => some problem
    | none, some problem => some problem
    | none, none =>
        if value.any fun u => u == 0x00 || u == 0x0A || u == 0x0D then some (text "Must be a single line") else none

/-! ## `mergeVariables`

A record is its entries, in the order of `Object.keys`.
-/

abbrev Record := List (Text × Text)

inductive HttpError where
  | badRequest (message : Text) (details : Record)
  | forbidden (message : Text)
deriving DecidableEq

variable (current : Option Record) (input : Record) (role : InstanceRole)

/-- `current?.[v.name] ?? v.default` -/
def before (v : TemplateVariable) : Text := (current.bind (·.lookup v.name)).getD v.default

/-- The value of a variable -/
def valueOf (v : TemplateVariable) : Except HttpError Text :=
  match input.lookup v.name with
  | none => .ok (before current v)
  | some value =>
      if value = before current v then .ok (before current v)
      else if !v.editable && role != .owner then
        .error (.forbidden (v.label ++ text " can only be changed by an owner"))
      else .ok value

/-- The loop over the variables, with `out` and `problems` -/
def mergeFrom (out problems : Record) : List TemplateVariable → Except HttpError (Record × Record)
  | [] => .ok (out, problems)
  | v :: rest =>
      match valueOf current input role v with
      | .error e => .error e
      | .ok value =>
          mergeFrom (Assoc.insert out v.name value)
            (match validateVariable num regexps v value with
              | some problem => Assoc.insert problems v.name problem
              | none => problems)
            rest

/-- Merge `input` over `current`, or the defaults of the template with these variables. -/
def mergeVariables (vars : List TemplateVariable) : Except HttpError Record :=
  match input.find? fun e => !vars.any (·.name == e.1) with
  | some e => .error (.badRequest (text "Unknown variable " ++ e.1) [])
  | none =>
      match mergeFrom num regexps current input role [] [] vars with
      | .error e => .error e
      | .ok (out, []) => .ok out
      | .ok (_, problems) => .error (.badRequest (text "Some vars are invalid") problems)

/-! ## What is merged -/

variable {num regexps current input role} {vars : List TemplateVariable} {out out' problems : Record}
  {v w : TemplateVariable} {value : Text}

/-- The submitted value, or the one from before -/
def merged (current : Option Record) (input : Record) (v : TemplateVariable) : Text :=
  (input.lookup v.name).getD (before current v)

section
attribute [local simp] Server.Variables.merged
end

theorem valueOf_ok (h : valueOf current input role v = .ok value) : value = merged current input v := by
  rw [valueOf] at h
  rw [merged]
  split at h
  · next hnone =>
    rw [hnone]
    exact (Except.ok.inj h).symm
  · next submitted hsome =>
    rw [hsome]
    split_ifs at h with hsame
    · exact (Except.ok.inj h).symm.trans hsame.symm
    · exact (Except.ok.inj h).symm

/-- Only owners change what is not editable. -/
theorem merged_readOnly (hrole : role ≠ .owner) (hedit : v.editable = false)
    (h : valueOf current input role v = .ok value) : merged current input v = before current v := by
  rw [valueOf] at h
  rw [merged]
  split at h
  · next hnone => rw [hnone]; rfl
  · next submitted hsome =>
    rw [hsome]
    by_cases hsame : submitted = before current v
    · exact hsame
    · rw [if_neg hsame, if_pos (by simp [hedit, hrole])] at h
      cases h

theorem insert_ne_nil (m : Record) (name problem : Text) : Assoc.insert m name problem ≠ [] := by
  rcases m with _ | ⟨e, m⟩
  · exact nofun
  · rw [Assoc.insert]
    split <;> exact nofun

/-- A loop that ends without problems found none, and put in every variable's value. -/
theorem mergeFrom_ok (h : mergeFrom num regexps current input role out problems vars = .ok (out', [])) :
    problems = [] ∧
      (∀ v ∈ vars, valueOf current input role v = .ok (merged current input v) ∧
        validateVariable num regexps v (merged current input v) = none) ∧
      out' = vars.foldl (fun m v => Assoc.insert m v.name (merged current input v)) out := by
  induction vars generalizing out problems with
  | nil =>
    obtain ⟨rfl, rfl⟩ := Prod.mk.inj (Except.ok.inj h)
    exact ⟨rfl, List.forall_mem_nil _, rfl⟩
  | cons v rest ih =>
    rw [mergeFrom] at h
    split at h
    · cases h
    · next value hvalue =>
      obtain rfl := valueOf_ok hvalue
      obtain ⟨hproblems, hall, rfl⟩ := ih h
      split at hproblems
      · exact absurd hproblems (insert_ne_nil _ _ _)
      · next hvalid =>
        refine ⟨hproblems, ?_, rfl⟩
        rintro w (_ | ⟨_, hmem⟩)
        · exact ⟨hvalue, hvalid⟩
        · exact hall w hmem

theorem mergeVariables_ok (h : mergeVariables num regexps current input role vars = .ok out) :
    (∀ v ∈ vars, valueOf current input role v = .ok (merged current input v) ∧
      validateVariable num regexps v (merged current input v) = none) ∧
      out = vars.foldl (fun m v => Assoc.insert m v.name (merged current input v)) [] := by
  rw [mergeVariables] at h
  split at h
  · cases h
  split at h
  · cases h
  · next hmerge =>
    obtain rfl := Except.ok.inj h
    exact (mergeFrom_ok hmerge).2
  · cases h

/-! ## The variable that counts -/

/-- The last variable of a name -/
def lastOf (vars : List TemplateVariable) (name : Text) : Option TemplateVariable :=
  vars.reverse.find? fun v => v.name == name

theorem mem_of_lastOf {name : Text} (h : lastOf vars name = some w) : w ∈ vars ∧ w.name = name :=
  ⟨List.mem_reverse.mp (List.mem_of_find?_eq_some h),
    beq_iff_eq.mp (List.find?_some (p := fun v : TemplateVariable => v.name == name) h)⟩

theorem exists_lastOf (hv : v ∈ vars) : ∃ w, lastOf vars v.name = some w :=
  Option.isSome_iff_exists.mp (List.find?_isSome.mpr ⟨v, List.mem_reverse.mpr hv, beq_self_eq_true _⟩)

theorem lookup_mergeVariables (h : mergeVariables num regexps current input role vars = .ok out) (name : Text) :
    out.lookup name = (lastOf vars name).map (merged current input) := by
  obtain ⟨-, rfl⟩ := mergeVariables_ok h
  rw [Assoc.lookup_foldl_insert, List.lookup_nil, Option.or_none]
  rfl

/-! ## What a co-user can change -/

/-- What a merge by someone other than an owner has to keep -/
structure Keeps (current : Option Record) (input : Record) (vars : List TemplateVariable) (num : Numbers)
    (regexps : Regexps) (out : Record) : Prop where
  readOnly : ∀ v ∈ vars, v.editable = false → out.lookup v.name = some (before current v)
  keys : ∀ name, (∃ value, out.lookup name = some value) ↔ ∃ v ∈ vars, v.name = name
  valid : ∀ v ∈ vars, ∀ value, out.lookup v.name = some value → validateVariable num regexps v value = none
  taken : ∀ v ∈ vars, v.editable = true → ∀ value, input.lookup v.name = some value → out.lookup v.name = some value

/-- Where neither a submitted nor a current value is there, a variable can live with the default of the last one of
its name. -/
def DefaultsFit (current : Option Record) (input : Record) (vars : List TemplateVariable) (num : Numbers)
    (regexps : Regexps) : Prop :=
  ∀ v ∈ vars, input.lookup v.name = none → current.bind (·.lookup v.name) = none →
    ∀ w, lastOf vars v.name = some w →
      (v.editable = false → w.default = v.default) ∧ validateVariable num regexps v w.default = none

/-- A value that is there is there for every variable of its name. -/
theorem merged_congr (hname : w.name = v.name)
    (h : input.lookup v.name ≠ none ∨ current.bind (·.lookup v.name) ≠ none) :
    merged current input w = merged current input v := by
  rw [merged, merged, before, before, hname]
  rcases hinput : input.lookup v.name with _ | submitted
  · rcases hcurrent : current.bind (·.lookup v.name) with _ | kept
    · exact absurd hcurrent (h.resolve_left (absurd hinput))
    · rfl
  · rfl

theorem merged_default (hinput : input.lookup v.name = none) (hcurrent : current.bind (·.lookup v.name) = none) :
    merged current input v = v.default := by
  rw [merged, hinput, before, hcurrent]
  rfl

/-- A merge by someone other than an owner keeps what it has to exactly when the defaults fit. -/
theorem mergeVariables_keeps_iff (hrole : role ≠ .owner) (h : mergeVariables num regexps current input role vars = .ok out) :
    Keeps current input vars num regexps out ↔ DefaultsFit current input vars num regexps := by
  have hlookup := lookup_mergeVariables h
  obtain ⟨hall, -⟩ := mergeVariables_ok h
  constructor
  · intro hkeeps v hv hinput hcurrent w hw
    obtain ⟨hmem, hname⟩ := mem_of_lastOf hw
    have hout : out.lookup v.name = some w.default := by
      rw [hlookup, hw, Option.map_some, merged_default (hname ▸ hinput) (hname ▸ hcurrent)]
    refine ⟨fun hedit => ?_, hkeeps.valid v hv _ hout⟩
    have hbefore := hkeeps.readOnly v hv hedit
    rw [hout, before, hcurrent] at hbefore
    exact Option.some.inj hbefore
  · intro hfit
    -- the value of a variable is its own, or the last default where no other value is there
    have hvalue : ∀ v ∈ vars, out.lookup v.name = some (merged current input v) ∨
        input.lookup v.name = none ∧ current.bind (·.lookup v.name) = none ∧
          ∃ w, lastOf vars v.name = some w ∧ out.lookup v.name = some w.default := by
      intro v hv
      obtain ⟨w, hw⟩ := exists_lastOf hv
      obtain ⟨hmem, hname⟩ := mem_of_lastOf hw
      rw [hlookup, hw, Option.map_some]
      by_cases hthere : input.lookup v.name ≠ none ∨ current.bind (·.lookup v.name) ≠ none
      · exact .inl (congrArg some (merged_congr hname hthere))
      · obtain ⟨hinput, hcurrent⟩ := not_or.mp hthere
        rw [not_not] at hinput hcurrent
        exact .inr ⟨hinput, hcurrent, w, rfl, congrArg some (merged_default (hname ▸ hinput) (hname ▸ hcurrent))⟩
    constructor
    · intro v hv hedit
      rcases hvalue v hv with hown | ⟨hinput, hcurrent, w, hw, hout⟩
      · rw [hown, merged_readOnly hrole hedit (hall v hv).1]
      · rw [hout, (hfit v hv hinput hcurrent w hw).1 hedit, before, hcurrent]
        rfl
    · intro name
      rw [hlookup]
      constructor
      · rintro ⟨value, hvalue⟩
        obtain ⟨w, hw, -⟩ := Option.map_eq_some_iff.mp hvalue
        exact ⟨w, mem_of_lastOf hw⟩
      · rintro ⟨v, hv, rfl⟩
        obtain ⟨w, hw⟩ := exists_lastOf hv
        exact ⟨_, by rw [hw]; rfl⟩
    · intro v hv value hout
      rcases hvalue v hv with hown | ⟨hinput, hcurrent, w, hw, hdefault⟩
      · rw [hown] at hout
        exact Option.some.inj hout ▸ (hall v hv).2
      · rw [hdefault] at hout
        exact Option.some.inj hout ▸ (hfit v hv hinput hcurrent w hw).2
    · intro v hv _ value hinput
      rcases hvalue v hv with hown | ⟨hnone, -⟩
      · rw [hown, merged, hinput]
        rfl
      · rw [hnone] at hinput
        cases hinput

/-- With no name twice the defaults always fit. -/
theorem defaultsFit_of_nodup (hnodup : (vars.map TemplateVariable.name).Nodup)
    (h : mergeVariables num regexps current input role vars = .ok out) :
    DefaultsFit current input vars num regexps := by
  intro v hv hinput hcurrent w hw
  obtain ⟨hmem, hname⟩ := mem_of_lastOf hw
  obtain rfl := List.inj_on_of_nodup_map hnodup hmem hv hname
  have hvalid := ((mergeVariables_ok h).1 w hv).2
  rw [merged_default hinput hcurrent] at hvalid
  exact ⟨fun _ => rfl, hvalid⟩

/-- A text variable -/
def level (default : Text) (editable : Bool) : TemplateVariable where
  name := text "LEVEL"
  named := by decide
  label := text "Level"
  type := .text
  default := default
  required := false
  options := []
  allowCustom := false
  min := none
  max := none
  editable := editable
  pattern := none

theorem mergeVariables_keeps_iff_level :
    Keeps (some []) [(text "LEVEL", text "7")] [level (text "1") true] Players.noNumbers (fun _ => none)
      [(text "LEVEL", text "7")] :=
  have hmerge : mergeVariables Players.noNumbers (fun _ => none) (some []) [(text "LEVEL", text "7")] .operator
      [level (text "1") true] = .ok [(text "LEVEL", text "7")] := by decide
  (mergeVariables_keeps_iff (by decide) hmerge).2 (defaultsFit_of_nodup (List.nodup_singleton _) hmerge)

/-- Two variables of one name: the second's default takes the place of the first's, which only owners may change. -/
theorem default_replaced :
    mergeVariables Players.noNumbers (fun _ => none) (some []) [] .operator
        [level (text "1") false, level (text "2") true] = .ok [(text "LEVEL", text "2")] ∧
      ¬Keeps (some []) [] [level (text "1") false, level (text "2") true] Players.noNumbers (fun _ => none)
        [(text "LEVEL", text "2")] := by
  refine ⟨by decide, fun hkeeps => ?_⟩
  have hfirst := hkeeps.readOnly (level (text "1") false) List.mem_cons_self rfl
  exact absurd hfirst (by decide)

end Server.Variables
