import Gsm.Data.Comparator
import Gsm.Data.JsText
import Mathlib.Data.List.TakeWhile

/-!
# Versions

`parseVersion` and `compareVersions` of `src/version.ts`, and the pattern of the release importer in
`modules/releases/service.ts`. The order of semver is a linear order on the parts of a version: its three numbers, then
its pre-release, which is a list of identifiers or, for the release itself, the greatest of all.
-/

namespace Shared.Version

open Js Comparator

/-! ## The pattern -/

/-- `\d` -/
def isDigit (u : UInt16) : Bool := 0x30 ≤ u && u ≤ 0x39

/-- `[0-9A-Za-z.\-]` -/
def isIdent (u : UInt16) : Bool :=
  isDigit u || (0x41 ≤ u && u ≤ 0x5A) || (0x61 ≤ u && u ≤ 0x7A) || u = 0x2E || u = 0x2D

/-- `(\d+)` at the start, and what follows -/
def digits (s : Text) : Option (Text × Text) :=
  if s.takeWhile isDigit = [] then none else some (s.takeWhile isDigit, s.dropWhile isDigit)

/-- What follows a code unit at the start -/
def after (c : UInt16) : Text → Option Text
  | [] => none
  | u :: s => if u = c then some s else none

/-- `v?(\d+)\.(\d+)\.(\d+)`, and what follows -/
def numbers (s : Text) : Option (Text × Text × Text × Text) := do
  let (major, s) ← digits ((after 0x76 s).getD s)
  let (minor, s) ← (after 0x2E s).bind digits
  let (patch, s) ← (after 0x2E s).bind digits
  pure (major, minor, patch, s)

/-- `(?:-([0-9A-Za-z.\-]+))?`: the group, or nothing, and what follows -/
def prereleaseGroup (s : Text) : Text × Text :=
  match after 0x2D s with
  | none => ([], s)
  | some r => if r.takeWhile isIdent = [] then ([], s) else (r.takeWhile isIdent, r.dropWhile isIdent)

/-- `(?:\+[0-9A-Za-z.\-]+)?$` -/
def endsBuild (s : Text) : Bool :=
  s = [] || (after 0x2B s).any fun r => r ≠ [] && r.all isIdent

/-- The groups of `VERSION_RE` -/
structure Groups where
  major : Text
  minor : Text
  patch : Text
  prerelease : Text
deriving DecidableEq

/-- `VERSION_RE.exec` -/
def exec (s : Text) : Option Groups :=
  match numbers s with
  | none => none
  | some (major, minor, patch, rest) =>
      if endsBuild (prereleaseGroup rest).2 then some ⟨major, minor, patch, (prereleaseGroup rest).1⟩ else none

/-! ## Comparing -/

/-- The number with 53 binary digits that is nearest to `n`, the even one of two -/
def double (n : ℕ) : ℕ :=
  if n < 2 ^ 53 then n
  else
    let unit := 2 ^ (Nat.log2 n - 52)
    if 2 * (n % unit) < unit ∨ 2 * (n % unit) = unit ∧ n / unit % 2 = 0 then n / unit * unit
    else (n / unit + 1) * unit

def value (d : Text) : ℕ := d.foldl (fun n u => 10 * n + (u.toNat - 0x30)) 0

/-- `Number`, of digits; beyond the range of a double is left out. -/
def number (d : Text) : ℕ := double (value d)

structure ParsedVersion where
  major : ℕ
  minor : ℕ
  patch : ℕ
  prerelease : List Text

def Groups.parsed (m : Groups) : ParsedVersion where
  major := number m.major
  minor := number m.minor
  patch := number m.patch
  prerelease := if m.prerelease = [] then [] else split m.prerelease 0x2E

def parseVersion (v : Option Text) : Option ParsedVersion :=
  match v with
  | none => none
  | some v => if v = [] then none else (exec (trim v)).map Groups.parsed

/-- `/^\d+$/` -/
def isNumeric (s : Text) : Bool := s ≠ [] && s.all isDigit

/-- What the operator `<` compares of strings -/
def units (s : Text) : List ℕ := s.map UInt16.toNat

def cmpIdent (a b : Text) : ℤ :=
  if isNumeric a ∧ isNumeric b then (number a : ℤ) - number b
  else if isNumeric a then -1
  else if isNumeric b then 1
  else if units a < units b then -1
  else if units b < units a then 1
  else 0

/-- The loop over the identifiers of two pre-releases -/
def cmpIdents : List Text → List Text → ℤ
  | [], [] => 0
  | [], _ :: _ => -1
  | _ :: _, [] => 1
  | x :: xs, y :: ys => if cmpIdent x y ≠ 0 then cmpIdent x y else cmpIdents xs ys

def cmpPrerelease (a b : List Text) : ℤ :=
  if a = [] ∧ b = [] then 0
  else if a = [] then 1
  else if b = [] then -1
  else cmpIdents a b

def cmpParsed (pa pb : ParsedVersion) : ℤ :=
  if pa.major ≠ pb.major then (pa.major : ℤ) - pb.major
  else if pa.minor ≠ pb.minor then (pa.minor : ℤ) - pb.minor
  else if pa.patch ≠ pb.patch then (pa.patch : ℤ) - pb.patch
  else cmpPrerelease pa.prerelease pb.prerelease

/-- No answer where one of them does not parse -/
def compareVersions (a b : Option Text) : Option ℤ :=
  match parseVersion a, parseVersion b with
  | some pa, some pb => some (cmpParsed pa pb)
  | _, _ => none

/-- `VERSION_RE` of the release importer: `/^v?\d+\.\d+\.\d+(?:[-+][A-Za-z0-9.\-]+)?$/` -/
def imports (s : Text) : Bool :=
  match numbers s with
  | none => false
  | some (_, _, _, rest) =>
      rest = [] || ((after 0x2D rest).or (after 0x2B rest)).any fun r => r ≠ [] && r.all isIdent

/-! ## The order of semver -/

/-- Numeric identifiers are lower than the others, which stand by their code units. -/
abbrev Identifier := ℕ ⊕ₗ List ℕ

abbrev Precedence := ℕ ×ₗ ℕ ×ₗ ℕ ×ₗ WithTop (List Identifier)

def identifier (s : Text) : Identifier := if isNumeric s then Sum.inlₗ (value s) else Sum.inrₗ (units s)

def Groups.precedence (m : Groups) : Precedence :=
  toLex (value m.major, toLex (value m.minor, toLex (value m.patch,
    if m.prerelease = [] then ⊤ else ((split m.prerelease 0x2E).map identifier : List Identifier))))

/-- The numeric identifiers are below 2^53. -/
structure Groups.Exact (m : Groups) : Prop where
  major : value m.major < 2 ^ 53
  minor : value m.minor < 2 ^ 53
  patch : value m.patch < 2 ^ 53
  prerelease : ∀ s ∈ split m.prerelease 0x2E, isNumeric s = true → value s < 2 ^ 53

/-- A string that `parseVersion` accepts -/
structure Accepted where
  text : Text
  groups : Groups
  parses : exec (trim text) = some groups
  exact : groups.Exact

theorem number_exact {d : Text} (h : value d < 2 ^ 53) : number d = value d := by
  rw [number, double, if_pos h]

theorem cmpIdent_tells {a b : Text} (ha : isNumeric a = true → value a < 2 ^ 53)
    (hb : isNumeric b = true → value b < 2 ^ 53) : Tells (cmpIdent a b) (identifier a) (identifier b) := by
  unfold cmpIdent identifier
  by_cases hna : isNumeric a = true <;> by_cases hnb : isNumeric b = true
  · rw [if_pos ⟨hna, hnb⟩, if_pos hna, if_pos hnb, number_exact (ha hna), number_exact (hb hnb)]
    exact (Tells.sub _ _).map Sum.Lex.inl_strictMono
  · rw [if_neg (by simp [hnb]), if_pos hna, if_pos hna, if_neg hnb]
    exact .less (Sum.Lex.inl_lt_inr _ _)
  · rw [if_neg (by simp [hna]), if_neg hna, if_pos hnb, if_neg hna, if_pos hnb]
    exact .greater (Sum.Lex.inl_lt_inr _ _)
  · rw [if_neg (by simp [hna]), if_neg hna, if_neg hnb, if_neg hna, if_neg hnb]
    rcases lt_trichotomy (units a) (units b) with hlt | heq | hgt
    · rw [if_pos hlt]
      exact (Tells.less hlt).map Sum.Lex.inr_strictMono
    · rw [heq, if_neg (lt_irrefl _), if_neg (lt_irrefl _)]
      exact .same _
    · rw [if_neg hgt.not_gt, if_pos hgt]
      exact (Tells.greater hgt).map Sum.Lex.inr_strictMono

theorem cmpIdents_tells {xs ys : List Text} (hx : ∀ s ∈ xs, isNumeric s = true → value s < 2 ^ 53)
    (hy : ∀ s ∈ ys, isNumeric s = true → value s < 2 ^ 53) :
    Tells (cmpIdents xs ys) (xs.map identifier) (ys.map identifier) := by
  induction xs generalizing ys with
  | nil =>
    rcases ys with _ | ⟨y, ys⟩
    · exact .same _
    · exact .less (List.nil_lt_cons _ _)
  | cons x xs ih =>
    rcases ys with _ | ⟨y, ys⟩
    · exact .greater (List.nil_lt_cons _ _)
    · have hhead := cmpIdent_tells (hx x List.mem_cons_self) (hy y List.mem_cons_self)
      have htail := ih (fun s hs => hx s (List.mem_cons_of_mem x hs)) fun s hs => hy s (List.mem_cons_of_mem y hs)
      exact hhead.cons htail

/-- A version that is no pre-release comes after its pre-releases. -/
theorem cmpPrerelease_tells {a b : Text} (ha : ∀ s ∈ split a 0x2E, isNumeric s = true → value s < 2 ^ 53)
    (hb : ∀ s ∈ split b 0x2E, isNumeric s = true → value s < 2 ^ 53) :
    Tells (cmpPrerelease (if a = [] then [] else split a 0x2E) (if b = [] then [] else split b 0x2E))
      (if a = [] then ⊤ else ((split a 0x2E).map identifier : List Identifier) : WithTop (List Identifier))
      (if b = [] then ⊤ else ((split b 0x2E).map identifier : List Identifier)) := by
  have hne (s : Text) : split s 0x2E ≠ [] := List.splitOn_ne_nil _ _
  unfold cmpPrerelease
  by_cases hna : a = [] <;> by_cases hnb : b = []
  · simp only [hna, hnb, if_true]
    exact .same _
  · simp only [hna, hnb, if_true, if_false, hne, and_false]
    exact .greater (WithTop.coe_lt_top _)
  · simp only [hna, hnb, if_true, if_false, hne, false_and]
    exact .less (WithTop.coe_lt_top _)
  · simp only [hna, hnb, if_false, hne, false_and]
    exact (cmpIdents_tells ha hb).map WithTop.coe_strictMono

/-- A number of two versions is compared first. -/
theorem tells_number {α : Type} [LinearOrder α] {m n : ℕ} {d : ℤ} {u v : α} (h : Tells d u v) :
    Tells (if m ≠ n then (m : ℤ) - n else d) (toLex (m, u)) (toLex (n, v)) := by
  have hzero : ((m : ℤ) - n ≠ 0) = (m ≠ n) := by
    rw [ne_eq, sub_eq_zero, Nat.cast_inj]
  have hlex := (Tells.sub m n).lex fun _ => h
  simpa only [hzero] using hlex

theorem cmpParsed_tells {m n : Groups} (hm : m.Exact) (hn : n.Exact) :
    Tells (cmpParsed m.parsed n.parsed) m.precedence n.precedence := by
  have hrest := cmpPrerelease_tells hm.prerelease hn.prerelease
  have htells := tells_number (m := value m.major) (n := value n.major)
    (tells_number (m := value m.minor) (n := value n.minor)
      (tells_number (m := value m.patch) (n := value n.patch) hrest))
  unfold cmpParsed Groups.parsed
  dsimp only
  rw [number_exact hm.major, number_exact hm.minor, number_exact hm.patch, number_exact hn.major,
    number_exact hn.minor, number_exact hn.patch]
  exact htells

theorem compareVersions_accepted (a b : Accepted) :
    compareVersions (some a.text) (some b.text) = some (cmpParsed a.groups.parsed b.groups.parsed) := by
  have hparse (v : Accepted) : parseVersion (some v.text) = some v.groups.parsed := by
    have hne : v.text ≠ [] := by
      intro hnil
      have hexec := v.parses
      rw [hnil] at hexec
      exact nomatch hexec
    rw [parseVersion, if_neg hne, v.parses, Option.map_some]
  rw [compareVersions, hparse, hparse]

/-! ## What the importer takes -/

theorem isIdent_visible {u : UInt16} (h : isIdent u = true) : isSpace u = false := by
  have hnums : (0x30 : UInt16).toNat = 0x30 ∧ (0x39 : UInt16).toNat = 0x39 ∧ (0x41 : UInt16).toNat = 0x41 ∧
      (0x5A : UInt16).toNat = 0x5A ∧ (0x61 : UInt16).toNat = 0x61 ∧ (0x7A : UInt16).toNat = 0x7A ∧
      (0x2E : UInt16).toNat = 0x2E ∧ (0x2D : UInt16).toNat = 0x2D := ⟨rfl, rfl, rfl, rfl, rfl, rfl, rfl, rfl⟩
  simp only [isIdent, isDigit, Bool.or_eq_true, Bool.and_eq_true, decide_eq_true_eq, UInt16.le_iff_toNat_le,
    ← UInt16.toNat_inj] at h
  apply isSpace_visible <;> omega

theorem isDigit_visible {u : UInt16} (h : isDigit u = true) : isSpace u = false := by
  refine isIdent_visible ?_
  rw [isIdent, h]
  rfl

theorem after_eq_some {c : UInt16} {s r : Text} (h : after c s = some r) : s = c :: r := by
  rcases s with _ | ⟨u, s⟩
  · exact nomatch h
  · rw [after] at h
    split at h
    · next heq => rw [heq, Option.some.inj h]
    · exact nomatch h

theorem of_digits {s d r : Text} (h : digits s = some (d, r)) : s = d ++ r ∧ ∀ u ∈ d, isSpace u = false := by
  rw [digits] at h
  split at h
  · exact nomatch h
  · obtain ⟨rfl, rfl⟩ := Prod.mk.inj (Option.some.inj h)
    exact ⟨List.takeWhile_append_dropWhile.symm, fun u hu => isDigit_visible (List.mem_takeWhile_imp hu)⟩

theorem after_digits {s d r : Text} (h : (after 0x2E s).bind digits = some (d, r)) :
    ∀ u ∈ s, isSpace u = false ∨ u ∈ r := by
  obtain ⟨s', hafter, hdigits⟩ := Option.bind_eq_some_iff.mp h
  obtain ⟨rfl, hvisible⟩ := of_digits hdigits
  rw [after_eq_some hafter]
  intro u hu
  rcases List.mem_cons.mp hu with rfl | hmem
  · exact .inl rfl
  · exact (List.mem_append.mp hmem).imp_left (hvisible u)

/-- White space is only behind the numbers. -/
theorem of_numbers {s major minor patch rest : Text} (h : numbers s = some (major, minor, patch, rest)) :
    ∀ u ∈ s, isSpace u = false ∨ u ∈ rest := by
  unfold numbers at h
  obtain ⟨⟨d₁, s₁⟩, h₁, h⟩ := Option.bind_eq_some_iff.mp h
  obtain ⟨⟨d₂, s₂⟩, h₂, h⟩ := Option.bind_eq_some_iff.mp h
  obtain ⟨⟨d₃, s₃⟩, h₃, h⟩ := Option.bind_eq_some_iff.mp h
  obtain ⟨rfl, rfl, rfl, rfl⟩ : d₁ = major ∧ d₂ = minor ∧ d₃ = patch ∧ s₃ = rest := by
    simpa using Option.some.inj h
  obtain ⟨heq, hvisible⟩ := of_digits h₁
  have hrest : ∀ u ∈ (after 0x76 s).getD s, isSpace u = false ∨ u ∈ s₃ := by
    intro u hu
    rw [heq] at hu
    rcases List.mem_append.mp hu with hd | hmem
    · exact .inl (hvisible u hd)
    rcases after_digits h₂ u hmem with hout | hmem
    · exact .inl hout
    · exact after_digits h₃ u hmem
  intro u hu
  rcases hv : after 0x76 s with _ | r
  · rw [hv] at hrest
    exact hrest u hu
  · rw [hv] at hrest
    rw [after_eq_some hv] at hu
    rcases List.mem_cons.mp hu with rfl | hmem
    · exact .inl rfl
    · exact hrest u hmem

theorem takeWhile_all {r : Text} (h : r.all isIdent = true) : r.takeWhile isIdent = r ∧ r.dropWhile isIdent = [] := by
  rw [List.all_eq_true] at h
  exact ⟨List.takeWhile_eq_self_iff.mpr h, List.dropWhile_eq_nil_iff.mpr h⟩

/-- What the importer takes has no white space, and its end is a pre-release, a build or nothing. -/
theorem imports_spec {s : Text} (h : imports s = true) : trim s = s ∧ (exec s).isSome = true := by
  unfold imports at h
  rcases hn : numbers s with _ | ⟨major, minor, patch, rest⟩
  · rw [hn] at h
    exact nomatch h
  rw [hn] at h
  simp only [Bool.or_eq_true, decide_eq_true_eq] at h
  have hvisible := of_numbers hn
  unfold exec
  rw [hn]
  dsimp only
  have htrim (hrest : ∀ u ∈ rest, isSpace u = false) : trim s = s :=
    trim_visible fun u hu => (hvisible u hu).elim id (hrest u)
  have hident {r : Text} (hr : r.all isIdent = true) : ∀ u ∈ r, isSpace u = false :=
    fun u hu => isIdent_visible (List.all_eq_true.mp hr u hu)
  rcases h with rfl | h
  · exact ⟨htrim fun _ hu => absurd hu List.not_mem_nil, rfl⟩
  have hok {r : Text} (hr : (decide (r ≠ []) && r.all isIdent) = true) : r ≠ [] ∧ r.all isIdent = true := by
    simpa only [Bool.and_eq_true, decide_eq_true_eq] using hr
  rcases hdash : after 0x2D rest with _ | r
  · -- a build
    rw [hdash, Option.none_or, Option.any_eq_true] at h
    obtain ⟨r, hplus, hr⟩ := h
    have hends : endsBuild rest = true := by
      rw [endsBuild, hplus, Option.any_some, hr, Bool.or_true]
    rw [prereleaseGroup, hdash, if_pos hends]
    refine ⟨htrim fun u hu => ?_, rfl⟩
    rw [after_eq_some hplus] at hu
    rcases List.mem_cons.mp hu with rfl | hmem
    · rfl
    · exact hident (hok hr).2 u hmem
  · -- a pre-release
    rw [hdash, Option.some_or, Option.any_some] at h
    obtain ⟨hne, hall⟩ := hok h
    obtain ⟨htake, hdrop⟩ := takeWhile_all hall
    have hgroup : prereleaseGroup rest = (r, []) := by
      rw [prereleaseGroup, hdash]
      dsimp only
      rw [htake, hdrop, if_neg hne]
    have hends : endsBuild [] = true := rfl
    rw [hgroup, if_pos hends]
    refine ⟨htrim fun u hu => ?_, rfl⟩
    rw [after_eq_some hdash] at hu
    rcases List.mem_cons.mp hu with rfl | hmem
    · rfl
    · exact hident hall u hmem

theorem parses_of_imports {s : Text} (h : imports s = true) : (parseVersion (some s)).isSome = true := by
  obtain ⟨htrim, hexec⟩ := imports_spec h
  have hne : s ≠ [] := by
    rintro rfl
    exact nomatch h
  rw [parseVersion, if_neg hne, htrim, Option.isSome_map, hexec]

/-- `compareVersions` is a total preorder on the versions it accepts, the one of semver, and what the importer takes can
always be compared. -/
theorem compareVersions_preorder :
    (∀ a b c : Accepted, ∃ x y z w,
      compareVersions (some a.text) (some b.text) = some x ∧ compareVersions (some b.text) (some a.text) = some y ∧
        compareVersions (some b.text) (some c.text) = some z ∧ compareVersions (some a.text) (some c.text) = some w ∧
        y.sign = -x.sign ∧ (x ≤ 0 → z ≤ 0 → w ≤ 0) ∧ (x = 0 ↔ a.groups.precedence = b.groups.precedence)) ∧
      ∀ s s', imports s = true → imports s' = true → compareVersions (some s) (some s') ≠ none := by
  constructor
  · intro a b c
    have hab := cmpParsed_tells a.exact b.exact
    have hbc := cmpParsed_tells b.exact c.exact
    have hac := cmpParsed_tells a.exact c.exact
    refine ⟨_, _, _, _, compareVersions_accepted a b, compareVersions_accepted b a, compareVersions_accepted b c,
      compareVersions_accepted a c, hab.sign_eq (cmpParsed_tells b.exact a.exact), fun hx hz => ?_, hab.zero_iff⟩
    exact hac.nonpos_iff.mpr ((hab.nonpos_iff.mp hx).trans (hbc.nonpos_iff.mp hz))
  · intro s s' h h'
    obtain ⟨pa, hpa⟩ := Option.isSome_iff_exists.mp (parses_of_imports h)
    obtain ⟨pb, hpb⟩ := Option.isSome_iff_exists.mp (parses_of_imports h')
    rw [compareVersions, hpa, hpb]
    exact nofun

/-- `1.2.3-rc.2` and the release -/
def candidate : Accepted where
  text := text "1.2.3-rc.2"
  groups := ⟨text "1", text "2", text "3", text "rc.2"⟩
  parses := by decide
  exact := by
    have hall : (split (text "rc.2") 0x2E).all (fun s => decide (isNumeric s = true → value s < 2 ^ 53)) = true := by
      decide
    exact ⟨by decide, by decide, by decide, fun s hs => of_decide_eq_true (List.all_eq_true.mp hall s hs)⟩

def release : Accepted where
  text := text " v1.2.3+b7"
  groups := ⟨text "1", text "2", text "3", []⟩
  parses := by decide
  exact := by
    have hall : (split [] 0x2E).all (fun s => decide (isNumeric s = true → value s < 2 ^ 53)) = true := by decide
    exact ⟨by decide, by decide, by decide, fun s hs => of_decide_eq_true (List.all_eq_true.mp hall s hs)⟩

theorem compareVersions_preorder_candidate :
    (∃ w, compareVersions (some candidate.text) (some release.text) = some w ∧ w ≤ 0) ∧
      compareVersions (some (text "1.2.3-rc.2")) (some (text "v1.2.3+b7")) ≠ none := by
  refine ⟨?_, compareVersions_preorder.2 _ _ (by decide) (by decide)⟩
  obtain ⟨x, y, z, w, hx, -, hz, hw, -, htrans, -⟩ := compareVersions_preorder.1 candidate candidate release
  have hself : compareVersions (some candidate.text) (some candidate.text) = some 0 := by decide
  have hless : compareVersions (some candidate.text) (some release.text) = some (-1) := by decide
  obtain rfl := Option.some.inj (hself.symm.trans hx)
  obtain rfl := Option.some.inj (hless.symm.trans hz)
  exact ⟨w, hw, htrans le_rfl (by decide)⟩

end Shared.Version
