import Gsm.GoStd.Json
import Gsm.Instances.Volumes

/-!
# Container paths of templates

`containerPathProblem` is what the server asks before it saves a mount point, `containerPathOK` what the
agent asks before it mounts there. A path the first has nothing against is ASCII, a slash and names, so
the second cleans it to itself and finds none of its own objections.
-/

open GoStd

namespace Shared.Templates

open Js

/-- Directories a volume or mount may not sit in: the kernel's, the instance files', the agent's. -/
def reservedContainerTrees : List Text := ["/proc", "/sys", "/dev", "/data", "/gsm"].map text

/-- Directories a volume or mount may not replace outright; the image cannot work without them. -/
def reservedContainerDirs : List Text :=
  ["/", "/bin", "/boot", "/etc", "/lib", "/lib32", "/lib64", "/run", "/sbin", "/usr", "/var"].map text

def slash : UInt16 := 0x2F

/-- The class of the expression below: letters, digits and `. _ @ + -`, and the slash. -/
def isPathUnit (u : UInt16) : Bool :=
  (0x41 ≤ u && u ≤ 0x5A) || (0x61 ≤ u && u ≤ 0x7A) || (0x30 ≤ u && u ≤ 0x39) ||
    (text "._@+-/").contains u

/-- The test of the expression: a slash, then units of its class up to the end. -/
def isPathText : Text → Bool
  | [] => false
  | u :: rest => u == slash && rest.all isPathUnit

/-- Clean absolute path: no empty, `.` or `..` segments, no trailing slash, no `:` or `,`. -/
def absolutePathProblem (path : Text) : Option Text :=
  if !startsWith path (text "/") then some (text "Must be an absolute path")
  else if path != text "/" && endsWith path (text "/") then some (text "Must not end with a slash")
  else if !isPathText path then some (text "Letters, digits, / and . _ - @ + only")
  else if ((split path slash).drop 1).any
      fun s => s == text "." || s == text ".." || (s == text "" && path != text "/") then
    some (text "Must not contain empty, . or .. parts")
  else none

/-- Why `path` cannot be a mount point inside an instance's container, or none when it can. -/
def containerPathProblem (path : Text) : Option Text :=
  match absolutePathProblem path with
  | some problem => some problem
  | none =>
      if reservedContainerDirs.contains path then some (path ++ text " cannot be replaced")
      else
        match reservedContainerTrees.find? fun r => path == r || startsWith path (r ++ text "/") with
        | some tree => some (tree ++ text " is reserved")
        | none => none

variable {path : Text} {a : Str}

theorem isPathUnit_ascii {u : UInt16} (h : isPathUnit u = true) :
    u.toNat < 128 ∧ u ≠ 0x3A ∧ u ≠ 0x2C := by
  have hall : (text "._@+-/").all (fun v => decide (v.toNat < 128 ∧ v ≠ 0x3A ∧ v ≠ 0x2C)) = true := by decide
  have hmem (v : UInt16) (hv : v ∈ text "._@+-/") : v.toNat < 128 ∧ v ≠ 0x3A ∧ v ≠ 0x2C :=
    of_decide_eq_true (List.all_eq_true.mp hall v hv)
  simp only [isPathUnit, Bool.or_eq_true, Bool.and_eq_true, decide_eq_true_eq, List.contains_iff_mem,
    UInt16.le_iff_toNat_le] at h
  have hrange : (0x41 ≤ u.toNat ∧ u.toNat ≤ 0x5A ∨ 0x61 ≤ u.toNat ∧ u.toNat ≤ 0x7A ∨
      0x30 ≤ u.toNat ∧ u.toNat ≤ 0x39) ∨ u ∈ text "._@+-/" := by
    rcases h with ((h | h) | h) | h
    · exact .inl (.inl h)
    · exact .inl (.inr (.inl h))
    · exact .inl (.inr (.inr h))
    · exact .inr h
  rcases hrange with h | h
  · refine ⟨by omega, ?_, ?_⟩
    · rintro rfl
      exact absurd h (by decide)
    · rintro rfl
      exact absurd h (by decide)
  · exact hmem u h

/-- What is left when there is no objection to a path. -/
theorem of_problem_none (h : containerPathProblem path = none) :
    (∃ rest, path = slash :: rest ∧ rest.all isPathUnit = true) ∧ path ≠ text "/" ∧
      (∀ s ∈ (split path slash).drop 1, s ≠ text "." ∧ s ≠ text ".." ∧ s ≠ text "") ∧
      path ∉ reservedContainerDirs ∧
      ∀ r ∈ reservedContainerTrees, path ≠ r ∧ ¬ r ++ text "/" <+: path := by
  rw [containerPathProblem, absolutePathProblem] at h
  split at h
  · cases h
  next habs =>
  split at habs
  · cases habs
  split at habs
  · cases habs
  split at habs
  · cases habs
  next hre =>
  split at habs
  · cases habs
  next hsegs =>
  split at h
  · cases h
  next hdirs =>
  rw [List.contains_iff_mem] at hdirs
  have hroot : path ≠ text "/" := by
    rintro rfl
    exact hdirs (by decide)
  refine ⟨?_, hroot, ?_, hdirs, ?_⟩
  · rcases path with _ | ⟨u, rest⟩
    · exact absurd rfl hre
    · rw [isPathText, Bool.not_eq_true, Bool.not_eq_false', Bool.and_eq_true, beq_iff_eq] at hre
      exact ⟨rest, by rw [hre.1], hre.2⟩
  · intro s hs
    rw [Bool.not_eq_true, List.any_eq_false] at hsegs
    have hseg := hsegs s hs
    simp only [Bool.or_eq_true, Bool.and_eq_true, beq_iff_eq, bne_iff_ne, not_or, not_and, not_not] at hseg
    exact ⟨hseg.1.1, hseg.1.2, fun hempty => hroot (hseg.2 hempty)⟩
  · intro r hr
    split at h
    · cases h
    next hfind =>
    have hno := List.find?_eq_none.mp hfind r hr
    simp only [Bool.or_eq_true, beq_iff_eq, not_or, startsWith, List.isPrefixOf_iff_prefix] at hno
    exact hno

theorem text_of_received {r : String} (h : received path = r.toList) (hpath : path = ofChars a)
    (hascii : ∀ c ∈ a, c.toNat < 128) : path = text r := by
  rw [hpath, received_ofChars hascii] at h
  rw [hpath, text, h]

/-- A mount point the server saves is one the agent mounts. -/
theorem containerPathOK_of_problem_none (path : Text) (h : containerPathProblem path = none) :
    Instances.Volumes.containerPathOK (received path) = true := by
  obtain ⟨⟨rest, hpath, hunits⟩, hroot, hsegs, hdirs, htrees⟩ := of_problem_none h
  have hascii : ∀ u ∈ rest, u.toNat < 128 := fun u hu =>
    (isPathUnit_ascii (List.all_eq_true.mp hunits u hu)).1
  obtain ⟨b, hb, rfl⟩ := exists_ofChars hascii
  have hall : ∀ c ∈ '/' :: b, c.toNat < 128 := by
    intro c hc
    rcases List.mem_cons.mp hc with rfl | hc
    · decide
    · exact hb c hc
  have hslash : path = ofChars ('/' :: b) := hpath
  have hnames : ∀ t ∈ splitSlash b, IsName t := by
    intro t ht
    have hmem : ofChars t ∈ (split path slash).drop 1 := by
      have hsplit : split path slash = ofChars [] :: (splitSlash b).map ofChars := by
        rw [hslash]
        refine (split_ofChars (d := '/') hall (by decide)).trans ?_
        exact congrArg (List.map ofChars) (splitSlash_append [] b)
      rw [hsplit]
      exact List.mem_map_of_mem ht
    obtain ⟨hdot, hdots, hempty⟩ := hsegs _ hmem
    refine ⟨?_, ?_, ?_, notMem_of_mem_splitSlash ht⟩
    · rintro rfl
      exact hempty rfl
    · rintro rfl
      exact hdot rfl
    · rintro rfl
      exact hdots rfl
  have hread : received path = '/' :: b := by rw [hslash, received_ofChars hall]
  -- nothing the agent compares with is what the server would have refused
  have hne : ∀ r : String, text r ≠ path → received path ≠ r.toList := fun r hr heq =>
    hr (text_of_received heq hslash hall).symm
  simp only [Instances.Volumes.containerPathOK, Bool.and_eq_true, List.all_eq_true]
  refine ⟨⟨⟨⟨⟨?_, ?_⟩, ?_⟩, ?_⟩, ?_⟩, ?_⟩
  · rw [hread]
    exact List.isPrefixOf_iff_prefix.mpr ⟨b, rfl⟩
  · exact decide_eq_true (hne "/" hroot.symm)
  · rw [hread]
    exact decide_eq_true (render_clean_slash hnames)
  · rw [hread, Bool.not_eq_true', Instances.Volumes.hasSeparator, List.any_eq_false]
    intro c hc
    rw [Bool.or_eq_true, decide_eq_true_eq, decide_eq_true_eq]
    rcases List.mem_cons.mp hc with rfl | hc
    · decide
    · have hunit : UInt16.ofNat c.toNat ∈ ofChars b := by
        rw [ofChars_ascii hb]
        exact List.mem_map_of_mem hc
      obtain ⟨-, hcolon, hcomma⟩ := isPathUnit_ascii (List.all_eq_true.mp hunits _ hunit)
      rintro (rfl | rfl)
      · exact hcolon rfl
      · exact hcomma rfl
  · intro r hr
    obtain ⟨hself, hbelow⟩ := htrees _ (List.mem_map_of_mem hr)
    rw [Instances.Volumes.outside, Bool.and_eq_true, Bool.not_eq_true', decide_eq_true_eq]
    refine ⟨hne r hself.symm, ?_⟩
    rw [Bool.eq_false_iff, ne_eq, List.isPrefixOf_iff_prefix]
    rintro ⟨t, ht⟩
    refine hbelow ⟨ofChars t, ?_⟩
    rw [hslash, ← hread, ← ht, ofChars_append, ofChars_append]
    rfl
  · intro r hr
    refine decide_eq_true (hne r ?_)
    rintro rfl
    exact hdirs (List.mem_map_of_mem (List.mem_cons_of_mem _ hr))

/-- `/opt/game/data` passes both. -/
theorem containerPathOK_gameData :
    containerPathProblem (text "/opt/game/data") = none ∧
      Instances.Volumes.containerPathOK (received (text "/opt/game/data")) = true :=
  ⟨by decide +kernel, containerPathOK_of_problem_none (text "/opt/game/data") (by decide +kernel)⟩

end Shared.Templates
