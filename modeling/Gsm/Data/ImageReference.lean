import Gsm.Data.JsText

/-!
# References to images

Docker's grammar of references, `[host[:port]/]path[:tag][@digest]`: each part is a type, and `text` writes it out. A
slash stands behind the domain and between the components of a path and nowhere else, and a path has no colon; so the
first colon of a reference stands before its first slash exactly when the domain has one.
-/

namespace Data.Image

open Js

def colon : UInt16 := 0x3A

def slash : UInt16 := 0x2F

def hyphen : UInt16 := 0x2D

def dot : UInt16 := 0x2E

def inRange (low high u : UInt16) : Bool := low ≤ u && u ≤ high

def isDigit : UInt16 → Bool := inRange 0x30 0x39

def isLower : UInt16 → Bool := inRange 0x61 0x7A

def isLetter (u : UInt16) : Bool := isLower u || inRange 0x41 0x5A u

def isHex (u : UInt16) : Bool := isDigit u || inRange 0x61 0x66 u || inRange 0x41 0x46 u

/-- `\w` -/
def isWord (u : UInt16) : Bool := isLetter u || isDigit u || u == 0x5F

/-- A text of some units, one or more -/
abbrev Units (kind : UInt16 → Bool) := { s : Text // s ≠ [] ∧ s.all kind = true }

/-- `[a-zA-Z0-9]|[a-zA-Z0-9][a-zA-Z0-9-]*[a-zA-Z0-9]` -/
abbrev DomainComponent :=
  { s : Units fun u => isLetter u || isDigit u || u == hyphen //
    s.1.head? ≠ some hyphen ∧ s.1.getLast? ≠ some hyphen }

/-- A host name, which may be an IPv4 address, or an IPv6 address in brackets -/
inductive Host where
  | name (first : DomainComponent) (more : List DomainComponent)
  | ipv6 (address : Units fun u => isHex u || u == colon)

structure Domain where
  host : Host
  port : Option (Units isDigit)

/-- What may stand between two runs of letters and digits in a path -/
inductive Separator where
  | dot
  | underscore
  | underscores
  | hyphens (n : ℕ)

abbrev Run := Units fun u => isLower u || isDigit u

structure PathComponent where
  first : Run
  more : List (Separator × Run)

/-- `[\w][\w.-]{0,127}` -/
abbrev Tag :=
  { s : Units fun u => isWord u || u == dot || u == hyphen // s.1.head?.any isWord = true ∧ s.1.length ≤ 128 }

/-- `[A-Za-z][A-Za-z0-9]*` -/
abbrev AlgorithmComponent := { s : Units fun u => isLetter u || isDigit u // s.1.head?.any isLetter = true }

/-- `[+.-_]`, each for itself -/
abbrev AlgorithmSeparator := { u : UInt16 // [0x2B, dot, hyphen, 0x5F].contains u = true }

structure Digest where
  first : AlgorithmComponent
  more : List (AlgorithmSeparator × AlgorithmComponent)
  hex : { s : Units isHex // 32 ≤ s.1.length }

structure Reference where
  domain : Option Domain
  first : PathComponent
  more : List PathComponent
  tag : Option Tag
  digest : Option Digest

/-- Where images without a host are looked for, `host[:port][/path]`, written with slashes behind -/
structure Registry where
  domain : Domain
  path : List PathComponent
  slashes : ℕ

/-! ## How they are written -/

def Host.text : Host → Text
  | .name first more => first.1.1 ++ more.flatMap fun c => dot :: c.1.1
  | .ipv6 address => 0x5B :: address.1 ++ [0x5D]

def Domain.text (d : Domain) : Text :=
  d.host.text ++ match d.port with
    | none => []
    | some port => colon :: port.1

def Separator.text : Separator → Text
  | .dot => [Image.dot]
  | .underscore => [0x5F]
  | .underscores => [0x5F, 0x5F]
  | .hyphens n => List.replicate n hyphen

def PathComponent.text (c : PathComponent) : Text := c.first.1 ++ c.more.flatMap fun m => m.1.text ++ m.2.1

def Digest.text (d : Digest) : Text :=
  d.first.1.1 ++ (d.more.flatMap fun m => m.1.1 :: m.2.1.1) ++ colon :: d.hex.1.1

/-- What stands behind the path -/
def Reference.suffix (r : Reference) : Text :=
  (match r.tag with
    | none => []
    | some tag => colon :: tag.1.1) ++
  match r.digest with
    | none => []
    | some digest => 0x40 :: digest.text

def Reference.text (r : Reference) : Text :=
  (match r.domain with
    | none => []
    | some d => d.text ++ [slash]) ++
  r.first.text ++ (r.more.flatMap fun c => slash :: c.text) ++ r.suffix

/-- The registry without the slashes behind it -/
def Registry.name (g : Registry) : Text := g.domain.text ++ g.path.flatMap fun c => slash :: c.text

def Registry.text (g : Registry) : Text := g.name ++ List.replicate g.slashes slash

/-- Neither a host nor a path of several components -/
def Reference.Bare (r : Reference) : Prop := r.domain = none ∧ r.more = []

instance (r : Reference) : Decidable r.Bare :=
  decidable_of_iff (r.domain.isNone ∧ r.more.isEmpty) (by simp [Reference.Bare])

/-! ## Where slashes and colons are -/

variable {u : UInt16} {kind : UInt16 → Bool}

theorem notMem_units (s : Units kind) (h : kind u = false) : u ∉ s.1 := by
  intro hmem
  have hin := List.all_eq_true.mp s.2.2 u hmem
  rw [h] at hin
  cases hin

theorem slash_notMem_host (h : Host) : slash ∉ h.text := by
  rcases h with ⟨first, more⟩ | address
  · have hcomponent (c : DomainComponent) : slash ∉ c.1.1 := notMem_units c.1 (by decide)
    simp only [Host.text, List.mem_append, List.mem_flatMap, not_or, not_exists, not_and, List.mem_cons]
    exact ⟨hcomponent first, fun c _ => ⟨by decide, hcomponent c⟩⟩
  · have haddress : slash ∉ address.1 := notMem_units address (by decide)
    simp only [Host.text, List.cons_append, List.mem_cons, List.mem_append, List.not_mem_nil, not_or, or_false]
    exact ⟨by decide, haddress, by decide⟩

theorem slash_notMem_domain (d : Domain) : slash ∉ d.text := by
  rw [Domain.text, List.mem_append, not_or]
  refine ⟨slash_notMem_host d.host, ?_⟩
  rcases d.port with _ | port
  · exact List.not_mem_nil
  · rw [List.mem_cons, not_or]
    exact ⟨by decide, notMem_units port (by decide)⟩

theorem domain_ne_nil (d : Domain) : d.text ≠ [] := by
  have hhost : d.host.text ≠ [] := by
    rcases d.host with ⟨first, more⟩ | address
    · simp [Host.text, first.1.2.1]
    · simp [Host.text]
  simp [Domain.text, hhost]

/-- A separator and the runs beside it have neither. -/
theorem notMem_pathComponent (c : PathComponent) : slash ∉ c.text ∧ colon ∉ c.text := by
  have hseparator (s : Separator) : slash ∉ s.text ∧ colon ∉ s.text := by
    rcases s with _ | _ | _ | n
    · decide
    · decide
    · decide
    · constructor
      · exact fun h => absurd (List.eq_of_mem_replicate h) (by decide)
      · exact fun h => absurd (List.eq_of_mem_replicate h) (by decide)
  have hrun (s : Run) : slash ∉ s.1 ∧ colon ∉ s.1 :=
    ⟨notMem_units s (by decide), notMem_units s (by decide)⟩
  simp only [PathComponent.text, List.mem_append, List.mem_flatMap, not_or, not_exists, not_and]
  exact ⟨⟨(hrun _).1, fun m _ => ⟨(hseparator m.1).1, (hrun m.2).1⟩⟩,
    (hrun _).2, fun m _ => ⟨(hseparator m.1).2, (hrun m.2).2⟩⟩

theorem slash_notMem_digest (d : Digest) : slash ∉ d.text := by
  have halgorithm (c : AlgorithmComponent) : slash ∉ c.1.1 := notMem_units c.1 (by decide)
  have hseparator (s : AlgorithmSeparator) : slash ≠ s.1 := by
    intro h
    have hs := s.2
    rw [← h] at hs
    exact absurd hs (by decide)
  simp only [Digest.text, List.mem_append, List.mem_flatMap, not_or, not_exists, not_and, List.mem_cons]
  exact ⟨⟨halgorithm _, fun m _ => ⟨hseparator m.1, halgorithm m.2⟩⟩, by decide,
    notMem_units d.hex.1 (by decide)⟩

theorem slash_notMem_suffix (r : Reference) : slash ∉ r.suffix := by
  rw [Reference.suffix, List.mem_append, not_or]
  constructor
  · rcases r.tag with _ | tag
    · exact List.not_mem_nil
    · rw [List.mem_cons, not_or]
      exact ⟨by decide, notMem_units tag.1 (by decide)⟩
  · rcases r.digest with _ | digest
    · exact List.not_mem_nil
    · rw [List.mem_cons, not_or]
      exact ⟨by decide, slash_notMem_digest digest⟩

/-- A bare reference has no slash. -/
theorem slash_notMem_bare {r : Reference} (h : r.Bare) : slash ∉ r.text := by
  rw [Reference.text, h.1, h.2, List.nil_append, List.flatMap_nil, List.append_nil, List.mem_append, not_or]
  exact ⟨(notMem_pathComponent r.first).1, slash_notMem_suffix r⟩

/-- Up to its first slash, another one is its domain, or the first component of its path. -/
theorem exists_slash {r : Reference} (h : ¬ r.Bare) : ∃ front back, r.text = front ++ slash :: back ∧
    slash ∉ front ∧ (colon ∈ front ↔ ∃ d, r.domain = some d ∧ colon ∈ d.text) := by
  rcases hd : r.domain with _ | d
  · rcases hm : r.more with _ | ⟨c, more⟩
    · exact absurd ⟨hd, hm⟩ h
    · refine ⟨r.first.text, c.text ++ (more.flatMap fun c => slash :: c.text) ++ r.suffix, ?_,
        (notMem_pathComponent r.first).1, iff_of_false (notMem_pathComponent r.first).2 ?_⟩
      · rw [Reference.text, hd, hm]
        simp
      · rintro ⟨d, hd', -⟩
        cases hd'
  · refine ⟨d.text, r.first.text ++ (r.more.flatMap fun c => slash :: c.text) ++ r.suffix, ?_,
      slash_notMem_domain d, ⟨fun hc => ⟨d, rfl, hc⟩, ?_⟩⟩
    · rw [Reference.text, hd]
      simp
    · rintro ⟨d', hd', hc⟩
      rw [Option.some.inj hd']
      exact hc

/-- The name of a registry does not end with a slash. -/
theorem getLast?_registry (g : Registry) : g.name.getLast? ≠ some slash := by
  have hnotMem : ∀ {front back : Text}, back ≠ [] → slash ∉ back → (front ++ back).getLast? ≠ some slash := by
    intro front back hne hno hlast
    rw [List.getLast?_append_of_ne_nil _ hne] at hlast
    exact hno (List.mem_of_getLast? hlast)
  rcases List.eq_nil_or_concat g.path with hp | ⟨path, c, hp⟩
  · rw [Registry.name, hp, List.flatMap_nil, List.append_nil, ← List.nil_append g.domain.text]
    exact hnotMem (domain_ne_nil _) (slash_notMem_domain _)
  · have hname : g.name = g.domain.text ++ (path.flatMap fun c => slash :: c.text) ++ [slash] ++ c.text := by
      rw [Registry.name, hp, List.concat_eq_append, List.flatMap_append]
      simp
    rw [hname]
    refine hnotMem ?_ (notMem_pathComponent c).1
    simp [PathComponent.text, c.first.2.1]

/-- The colons of a registry's name are those of its domain. -/
theorem colon_mem_registry (g : Registry) : colon ∈ g.name ↔ colon ∈ g.domain.text := by
  rw [Registry.name, List.mem_append, or_iff_left]
  rw [List.mem_flatMap]
  rintro ⟨c, -, hc⟩
  rcases List.mem_cons.mp hc with h | h
  · exact absurd h (by decide)
  · exact (notMem_pathComponent c).2 h

end Data.Image
