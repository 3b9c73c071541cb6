import Gsm.Data.Assoc
import Gsm.GoStd.Blank
import Gsm.GoStd.Lines
import Gsm.Instances.Configfiles

/-!
# `.properties` files

`MergeProperties` rewrites the first line of each wanted key and appends the keys without one. Read back
(`lastValue`), the wanted keys have their values and nothing else has changed, but for two kinds of keys:
those that do not come back as the key of the line they are written to, and those the file assigns again
behind the line that was rewritten.
-/

open GoStd Data

namespace Instances

/-! ## `MergeProperties` -/

/-- The bytes of `"=: \t"` -/
def isSeparator (c : Char) : Bool := c == '=' || c == ':' || c == ' ' || c == '\t'

def propertyKey (line : Str) : Str := line.takeWhile fun c => !isSeparator c

/-- The order of `sort.Strings` -/
def bytesLe : Str → Str → Bool
  | [], _ => true
  | _ :: _, [] => false
  | a :: s, b :: t => if a == b then bytesLe s t else decide (a.toNat < b.toNat)

/-- The entries of a map in the order of `sortedKeys` -/
def sortedEntries (values : Values) : Values := values.mergeSort fun a b => bytesLe a.1 b.1

/-- `key + "=" + value` -/
def assignment (e : Str × Str) : Str := e.1 ++ '=' :: e.2

/-- What stands behind the separator of a line with that key, blanks in front of the line aside. -/
def valueBehind (key line : Str) : Str := (((chars line).dropWhile isSpace).flatten).drop (key.length + 1)

section

variable {k : Str} {c : Char}

theorem isPrefixOf_singleton (c : Char) (s : Str) : [c].isPrefixOf s = (s.head? == some c) := by
  rcases s with _ | ⟨a, s⟩
  · rfl
  · show (c == a && [].isPrefixOf s) = (some a == some c)
    rw [List.isPrefixOf_nil_left, Bool.and_true, Bool.eq_iff_iff, beq_iff_eq, beq_iff_eq, Option.some.injEq]
    exact eq_comm

theorem propertyKey_append (hk : ∀ c ∈ k, isSeparator c = false) (v : Str) :
    propertyKey (k ++ '=' :: v) = k := by
  rw [propertyKey, List.takeWhile_append_of_pos fun c hc => by rw [hk c hc]; rfl,
    List.takeWhile_cons_of_neg (by decide), List.append_nil]

theorem head?_append_eq (k v : Str) (hc : c ≠ '=') (hk : [c].isPrefixOf k = false) :
    [c].isPrefixOf (k ++ '=' :: v) = false := by
  rw [isPrefixOf_singleton] at hk ⊢
  rcases k with _ | ⟨a, k⟩
  · exact beq_eq_false_iff_ne.mpr fun h => hc (Option.some.inj h).symm
  · exact hk

theorem valueBehind_assignment (hk : isSpace k = false) (v : Str) : valueBehind k (assignment (k, v)) = v := by
  rw [valueBehind, assignment, dropWhile_chars (isSpace_append_ascii hk (by decide) (by decide) v), flatten_chars]
  simp

end

namespace Properties

/-- The key a line assigns; none when it is empty or a comment. -/
def keyOf (line : Str) : Option Str :=
  let trimmed := trimBlanks line
  if trimmed = [] || ['#'].isPrefixOf trimmed || ['!'].isPrefixOf trimmed then none
  else some (propertyKey trimmed)

/-- The key of a line with the value that is left for it. -/
def wantedBy (remaining : Values) (line : Str) : Option (Str × Str) :=
  (keyOf line).bind fun key => (remaining.lookup key).map fun v => (key, v)

/-- The lines of the file, and the keys that are left at the end. -/
def mergeLines (remaining : Values) : List Str → List Str × Values
  | [] => ([], remaining)
  | line :: rest =>
      match wantedBy remaining line with
      | some e =>
          let (out, remaining) := mergeLines (Assoc.erase remaining e.1) rest
          (assignment e :: out, remaining)
      | none =>
          let (out, remaining) := mergeLines remaining rest
          (line :: out, remaining)

/-- The lines of a file; one that is empty has none. -/
def readLines (text : Str) : List Str := if text = [] then [] else lines text

/-- The lines `MergeProperties` writes. -/
def mergedLines (existing : Str) (values : Values) : List Str :=
  let (out, remaining) := mergeLines values (readLines existing)
  out ++ (sortedEntries remaining).map assignment

/-- Set keys in a `.properties` file, keeping other lines and comments. -/
def mergeProperties (existing : Str) (values : Values) : Str := unlines (mergedLines existing values)

/-! ## How the file is read -/

/-- A key, and what stands behind the separator. -/
def entry (line : Str) : Option (Str × Str) :=
  (keyOf line).map fun key => (key, valueBehind key line)

/-- What a line gives a key. -/
def assigned (k line : Str) : Option Str := ((entry line).filter (·.1 == k)).map (·.2)

/-- The value of a key: that of the last line that assigns it. -/
def lastValue (k : Str) : List Str → Option Str
  | [] => none
  | line :: rest => (lastValue k rest).or (assigned k line)

/-- How many lines assign a key. -/
def times (k : Str) (l : List Str) : ℕ := l.countP fun line => keyOf line == some k

def isComment (line : Str) : Bool :=
  ['#'].isPrefixOf (trimBlanks line) || ['!'].isPrefixOf (trimBlanks line)

/-- What is asked of a merge. -/
structure Merged (text : Str) (values : Values) : Prop where
  wanted : ∀ e ∈ values, lastValue e.1 (readLines (mergeProperties text values)) = some e.2
  others : ∀ k, values.lookup k = none →
    lastValue k (readLines (mergeProperties text values)) = lastValue k (readLines text)
  comments : (readLines (mergeProperties text values)).filter isComment = (readLines text).filter isComment
  again : mergeProperties (mergeProperties text values) values = mergeProperties text values

/-- A key that a line can start with: without separators and breaks, and with neither a blank nor the sign
of a comment in front. -/
def plainKey (k : Str) : Bool :=
  (k.all fun c => !isSeparator c && c != '\n') && !isSpace k && !(['#'].isPrefixOf k) && !(['!'].isPrefixOf k)

variable {text line k v : Str} {values r : Values} {l out : List Str} {e : Str × Str} {c : Char}

/-! ## One line -/

theorem plainKey_iff : plainKey k = true ↔
    (∀ c ∈ k, isSeparator c = false ∧ c ≠ '\n') ∧ isSpace k = false ∧ ['#'].isPrefixOf k = false ∧
      ['!'].isPrefixOf k = false := by
  simp only [plainKey, Bool.and_eq_true, Bool.not_eq_true', List.all_eq_true, bne_iff_ne, and_assoc]

theorem trimBlanks_assignment (hk : plainKey k = true) (v : Str) :
    trimBlanks (assignment (k, v)) = k ++ '=' :: trimRight v :=
  trimBlanks_append (plainKey_iff.mp hk).2.1 (by decide) (by decide) v

theorem keyOf_assignment (hk : plainKey k = true) (v : Str) : keyOf (assignment (k, v)) = some k := by
  obtain ⟨hall, -, hhash, hbang⟩ := plainKey_iff.mp hk
  rw [keyOf, trimBlanks_assignment hk, head?_append_eq k _ (by decide) hhash,
    head?_append_eq k _ (by decide) hbang, propertyKey_append fun c hc => (hall c hc).1]
  simp

/-- A line that assigns a plain key is read as it was meant. -/
theorem entry_assignment (hk : plainKey k = true) (v : Str) : entry (assignment (k, v)) = some (k, v) := by
  rw [entry, keyOf_assignment hk, Option.map_some, valueBehind_assignment (plainKey_iff.mp hk).2.1]

theorem assigned_assignment (hk : plainKey e.1 = true) (k : Str) :
    assigned k (assignment e) = if e.1 = k then some e.2 else none := by
  rw [assigned, entry_assignment hk e.2]
  by_cases h : e.1 = k <;> simp [h]

theorem assigned_eq_none_iff : assigned k line = none ↔ keyOf line ≠ some k := by
  rw [assigned, entry]
  rcases keyOf line with _ | d
  · simp
  · by_cases h : d = k <;> simp [h]

theorem isComment_assignment (hk : plainKey k = true) (v : Str) : isComment (assignment (k, v)) = false := by
  obtain ⟨-, -, hhash, hbang⟩ := plainKey_iff.mp hk
  rw [isComment, trimBlanks_assignment hk, head?_append_eq k _ (by decide) hhash,
    head?_append_eq k _ (by decide) hbang]
  rfl

theorem not_isComment_of_keyOf (h : keyOf line = some k) : isComment line = false := by
  rw [keyOf] at h
  split at h
  · cases h
  · next hno =>
    simp only [Bool.or_eq_true, not_or, Bool.not_eq_true] at hno
    rw [isComment, hno.1.2, hno.2]
    rfl

/-- What comes back as a key is plain. -/
theorem plainKey_of_keyOf (h : keyOf line = some k) (hk : k ≠ []) (hline : '\n' ∉ line) : plainKey k = true := by
  rw [keyOf] at h
  split at h
  · cases h
  · next hno =>
    simp only [Bool.or_eq_true, not_or, Bool.not_eq_true] at hno
    have hkey := Option.some.inj h
    obtain ⟨more, hmore⟩ : ∃ more, trimBlanks line = k ++ more := by
      rw [← hkey, propertyKey]
      exact ⟨_, List.takeWhile_append_dropWhile.symm⟩
    have hhead : ∀ c, [c].isPrefixOf (trimBlanks line) = false → [c].isPrefixOf k = false := by
      intro c hc
      rw [isPrefixOf_singleton] at hc ⊢
      rcases k with _ | ⟨a, k⟩
      · exact absurd rfl hk
      · rw [hmore] at hc
        exact hc
    refine plainKey_iff.mpr ⟨fun c hc => ⟨?_, ?_⟩, ?_, hhead '#' hno.1.2, hhead '!' hno.2⟩
    · have := List.mem_takeWhile_imp (hkey ▸ hc : c ∈ propertyKey (trimBlanks line))
      rwa [Bool.not_eq_true'] at this
    · rintro rfl
      exact hline (mem_of_mem_trimBlanks (hmore ▸ List.mem_append_left _ hc))
    · by_contra hspace
      rw [Bool.not_eq_false] at hspace
      have := isSpace_append hspace more
      rw [← hmore, isSpace_trimBlanks] at this
      cases this

/-! ## The loop over the lines -/

theorem wantedBy_eq_some (h : wantedBy r line = some e) : keyOf line = some e.1 ∧ r.lookup e.1 = some e.2 := by
  obtain ⟨key, hkey, hmap⟩ := Option.bind_eq_some_iff.mp h
  obtain ⟨v, hv, rfl⟩ := Option.map_eq_some_iff.mp hmap
  exact ⟨hkey, hv⟩

theorem wantedBy_of (hkey : keyOf line = some e.1) (hv : r.lookup e.1 = some e.2) : wantedBy r line = some e := by
  rw [wantedBy, hkey, Option.bind_some, hv]
  rfl

theorem lookup_of_wantedBy_none (h : wantedBy r line = none) (hkey : keyOf line = some k) : r.lookup k = none := by
  rw [wantedBy, hkey, Option.bind_some] at h
  exact Option.map_eq_none_iff.mp h

theorem mergeLines_of_some (h : wantedBy r line = some e) (rest : List Str) : mergeLines r (line :: rest) =
    (assignment e :: (mergeLines (Assoc.erase r e.1) rest).1, (mergeLines (Assoc.erase r e.1) rest).2) := by
  rw [mergeLines, h]

theorem mergeLines_of_none (h : wantedBy r line = none) (rest : List Str) : mergeLines r (line :: rest) =
    (line :: (mergeLines r rest).1, (mergeLines r rest).2) := by
  rw [mergeLines, h]

/-- All keys can be read back. -/
def Plain (r : Values) : Prop := ∀ e ∈ r, plainKey e.1 = true

theorem Plain.erase (hr : Plain r) (k : Str) : Plain (Assoc.erase r k) := fun e he => hr e (Assoc.mem_erase.mp he).1

theorem Plain.of_lookup (hr : Plain r) (h : r.lookup k = some v) : plainKey k = true :=
  hr (k, v) (Assoc.mem_of_lookup h)

theorem mergeLines_append (r : Values) (l l' : List Str) : mergeLines r (l ++ l') =
    ((mergeLines r l).1 ++ (mergeLines (mergeLines r l).2 l').1, (mergeLines (mergeLines r l).2 l').2) := by
  induction l generalizing r with
  | nil => rfl
  | cons line l ih =>
    rw [List.cons_append]
    rcases hw : wantedBy r line with _ | e
    · rw [mergeLines_of_none hw, mergeLines_of_none hw, ih, List.cons_append]
    · rw [mergeLines_of_some hw, mergeLines_of_some hw, ih, List.cons_append]

/-- What is left is what no line assigns. -/
theorem mem_left : e ∈ (mergeLines r l).2 ↔ e ∈ r ∧ ∀ line ∈ l, keyOf line ≠ some e.1 := by
  induction l generalizing r with
  | nil => exact ⟨fun h => ⟨h, fun _ hl => (nomatch hl)⟩, And.left⟩
  | cons line l ih =>
    rw [List.forall_mem_cons]
    rcases hw : wantedBy r line with _ | d
    · rw [mergeLines_of_none hw, ih]
      constructor
      · rintro ⟨he, hall⟩
        refine ⟨he, fun hkey => ?_, hall⟩
        exact Assoc.lookup_eq_none_iff.mp (lookup_of_wantedBy_none hw hkey) (List.mem_map_of_mem he)
      · rintro ⟨he, -, hall⟩
        exact ⟨he, hall⟩
    · obtain ⟨hkey, -⟩ := wantedBy_eq_some hw
      rw [mergeLines_of_some hw, ih, Assoc.mem_erase, hkey]
      constructor
      · rintro ⟨⟨he, hne⟩, hall⟩
        exact ⟨he, fun heq => hne (Option.some.inj heq).symm, hall⟩
      · rintro ⟨he, hne, hall⟩
        exact ⟨⟨he, fun heq => hne (congrArg some heq.symm)⟩, hall⟩

theorem nodup_left (hr : (r.map Prod.fst).Nodup) (l : List Str) : ((mergeLines r l).2.map Prod.fst).Nodup := by
  induction l generalizing r with
  | nil => exact hr
  | cons line l ih =>
    rcases hw : wantedBy r line with _ | d
    · rw [mergeLines_of_none hw]
      exact ih hr
    · rw [mergeLines_of_some hw]
      exact ih (Assoc.nodup_erase hr _)

/-- The lines of a key that is not wanted stay. -/
theorem lastValue_other (hr : Plain r) (hk : r.lookup k = none) :
    lastValue k (mergeLines r l).1 = lastValue k l := by
  induction l generalizing r with
  | nil => rfl
  | cons line l ih =>
    rcases hw : wantedBy r line with _ | d
    · rw [mergeLines_of_none hw, lastValue, lastValue, ih hr hk]
    · obtain ⟨hkey, hv⟩ := wantedBy_eq_some hw
      have hne : d.1 ≠ k := by
        rintro rfl
        rw [hk] at hv
        cases hv
      have hline : assigned k line = none :=
        assigned_eq_none_iff.mpr (by rw [hkey]; exact fun h => hne (Option.some.inj h))
      have hleft : (Assoc.erase r d.1).lookup k = none := by rw [Assoc.lookup_erase_of_ne hne.symm, hk]
      rw [mergeLines_of_some hw, lastValue, lastValue, ih (hr.erase _) hleft,
        assigned_assignment (hr.of_lookup hv), if_neg hne, hline]

theorem lastValue_eq_none_iff : lastValue k l = none ↔ times k l = 0 := by
  induction l with
  | nil => exact iff_of_true rfl rfl
  | cons line l ih =>
    rw [lastValue, Option.or_eq_none_iff, ih, assigned_eq_none_iff]
    simp [times, List.countP_cons]

/-- Of a wanted key the first line is rewritten; the value is that of the last. -/
theorem lastValue_wanted (hr : Plain r) (hk : r.lookup k = some v) : lastValue k (mergeLines r l).1 =
    if times k l = 0 then none else if times k l = 1 then some v else lastValue k l := by
  induction l generalizing r with
  | nil => rfl
  | cons line l ih =>
    by_cases hkey : keyOf line = some k
    · have hw := wantedBy_of (e := (k, v)) hkey hk
      have htimes : times k (line :: l) = times k l + 1 := List.countP_cons_of_pos (by simp [hkey])
      rw [mergeLines_of_some hw, lastValue, lastValue, lastValue_other (hr.erase _) (Assoc.lookup_erase_self r k),
        assigned_assignment (hr.of_lookup hk), if_pos rfl, htimes, if_neg (Nat.succ_ne_zero _)]
      rcases hl : lastValue k l with _ | w
      · rw [if_pos (by rw [lastValue_eq_none_iff.mp hl])]
        rfl
      · have hmore : times k l ≠ 0 := by
          intro hzero
          rw [lastValue_eq_none_iff.mpr hzero] at hl
          cases hl
        rw [if_neg (by omega)]
        rfl
    · have hline := assigned_eq_none_iff.mpr hkey
      have htimes : times k (line :: l) = times k l := List.countP_cons_of_neg (by simpa using hkey)
      rw [lastValue, hline, Option.or_none, htimes]
      rcases hw : wantedBy r line with _ | d
      · rw [mergeLines_of_none hw, lastValue, hline, Option.or_none, ih hr hk]
      · obtain ⟨hd, hv⟩ := wantedBy_eq_some hw
        have hne : d.1 ≠ k := fun h => hkey (h ▸ hd)
        have hleft : (Assoc.erase r d.1).lookup k = some v := by rw [Assoc.lookup_erase_of_ne hne.symm, hk]
        rw [mergeLines_of_some hw, lastValue, assigned_assignment (hr.of_lookup hv), if_neg hne, Option.or_none,
          ih (hr.erase _) hleft]

theorem filter_isComment (hr : Plain r) (l : List Str) :
    (mergeLines r l).1.filter isComment = l.filter isComment := by
  induction l generalizing r with
  | nil => rfl
  | cons line l ih =>
    rcases hw : wantedBy r line with _ | d
    · rw [mergeLines_of_none hw, List.filter_cons, List.filter_cons, ih hr]
    · obtain ⟨hkey, hv⟩ := wantedBy_eq_some hw
      have hnew : isComment (assignment d) = false := isComment_assignment (hr.of_lookup hv) d.2
      rw [mergeLines_of_some hw, List.filter_cons, List.filter_cons, ih (hr.erase _), hnew,
        not_isComment_of_keyOf hkey]
      rfl

/-- The lines that were written are rewritten to what they are. -/
theorem mergeLines_again (hr : Plain r) (l : List Str) : mergeLines r (mergeLines r l).1 = mergeLines r l := by
  induction l generalizing r with
  | nil => rfl
  | cons line l ih =>
    rcases hw : wantedBy r line with _ | d
    · rw [mergeLines_of_none hw, mergeLines_of_none hw, ih hr]
    · obtain ⟨-, hv⟩ := wantedBy_eq_some hw
      have hagain := wantedBy_of (keyOf_assignment (hr.of_lookup hv) d.2) hv
      rw [mergeLines_of_some hw, mergeLines_of_some hagain, ih (hr.erase _)]

/-- So are the lines appended. -/
theorem mergeLines_appended (hr : Plain r) (hnodup : (r.map Prod.fst).Nodup) {l : Values} (hl : r.Perm l) :
    mergeLines r (l.map assignment) = (l.map assignment, []) := by
  induction l generalizing r with
  | nil =>
    rw [hl.eq_nil]
    rfl
  | cons e l ih =>
    obtain ⟨hv, hrest⟩ := Assoc.erase_perm hnodup hl
    have hw := wantedBy_of (keyOf_assignment (hr.of_lookup hv) e.2) hv
    rw [List.map_cons, mergeLines_of_some hw, ih (hr.erase _) (Assoc.nodup_erase hnodup _) hrest]

/-! ## The file that is written -/

theorem notMem_of_mem_readLines (h : line ∈ readLines text) : '\n' ∉ line := by
  rw [readLines] at h
  split at h
  · cases h
  · exact notMem_of_mem_lines h

theorem mem_mergeLines (h : line ∈ (mergeLines r l).1) : line ∈ l ∨ ∃ e ∈ r, line = assignment e := by
  induction l generalizing r with
  | nil => cases h
  | cons first l ih =>
    rcases hw : wantedBy r first with _ | d
    · rw [mergeLines_of_none hw] at h
      rcases List.mem_cons.mp h with rfl | h
      · exact .inl List.mem_cons_self
      · exact (ih h).imp_left (List.mem_cons_of_mem _)
    · rw [mergeLines_of_some hw] at h
      rcases List.mem_cons.mp h with rfl | h
      · exact .inr ⟨d, Assoc.mem_of_lookup (wantedBy_eq_some hw).2, rfl⟩
      · rcases ih h with h | ⟨e, he, rfl⟩
        · exact .inl (List.mem_cons_of_mem _ h)
        · exact .inr ⟨e, (Assoc.mem_erase.mp he).1, rfl⟩

theorem assignment_ne_nil (e : Str × Str) : assignment e ≠ [] :=
  List.append_ne_nil_of_right_ne_nil _ (List.cons_ne_nil _ _)

/-- The last line stays one that is not empty. -/
theorem mergeLines_ends (h : l = [[]] ∨ ∃ before last, l = before ++ [last] ∧ last ≠ []) :
    (mergeLines r l).1 = [[]] ∨ ∃ before last, (mergeLines r l).1 = before ++ [last] ∧ last ≠ [] := by
  rcases h with rfl | ⟨before, last, rfl, hlast⟩
  · exact .inl rfl
  · right
    rw [mergeLines_append]
    rcases hw : wantedBy (mergeLines r before).2 last with _ | d
    · rw [mergeLines_of_none hw]
      exact ⟨_, last, rfl, hlast⟩
    · rw [mergeLines_of_some hw]
      exact ⟨_, assignment d, rfl, assignment_ne_nil d⟩

theorem notMem_assignment (hk : plainKey e.1 = true) (hv : '\n' ∉ e.2) : '\n' ∉ assignment e := by
  rw [assignment, List.mem_append, not_or, List.mem_cons, not_or]
  exact ⟨fun h => ((plainKey_iff.mp hk).1 _ h).2 rfl, by decide, hv⟩

theorem mergedLines_eq (text : Str) (values : Values) : mergedLines text values =
    (mergeLines values (readLines text)).1 ++
      (sortedEntries (mergeLines values (readLines text)).2).map assignment := rfl

theorem perm_sortedEntries (values : Values) : values.Perm (sortedEntries values) :=
  (List.mergeSort_perm _ _).symm

/-- The lines that were written are read back, or nothing was there to be written. -/
theorem readLines_merged (text : Str) (hplain : Plain values) (hlines : ∀ e ∈ values, '\n' ∉ e.2) :
    readLines (mergeProperties text values) = mergedLines text values ∨
      (text = [] ∧ values = []) := by
  have hbreak : ∀ line ∈ mergedLines text values, '\n' ∉ line := by
    intro line hline
    rw [mergedLines_eq] at hline
    rcases List.mem_append.mp hline with h | h
    · rcases mem_mergeLines h with h | ⟨e, he, rfl⟩
      · exact notMem_of_mem_readLines h
      · exact notMem_assignment (hplain e he) (hlines e he)
    · obtain ⟨e, he, rfl⟩ := List.mem_map.mp h
      have he' := (mem_left.mp ((perm_sortedEntries _).mem_iff.mpr he)).1
      exact notMem_assignment (hplain e he') (hlines e he')
  have hwrite : readLines (mergeProperties text values) = lines (mergeProperties text values) :=
    if_neg (unlines_ne_nil _)
  rw [hwrite]
  by_cases hleft : sortedEntries (mergeLines values (readLines text)).2 = []
  · have hout : mergedLines text values = (mergeLines values (readLines text)).1 := by
      rw [mergedLines_eq, hleft, List.map_nil, List.append_nil]
    by_cases htext : text = []
    · right
      subst htext
      have hnone := perm_sortedEntries (mergeLines values (readLines [])).2
      rw [hleft] at hnone
      exact ⟨rfl, hnone.eq_nil⟩
    · refine .inl (lines_unlines hbreak ?_)
      rw [hout]
      refine mergeLines_ends ?_
      rw [readLines, if_neg htext]
      exact lines_ends text
  · obtain ⟨before, e, he⟩ := (List.eq_nil_or_concat' _).resolve_left hleft
    refine .inl (lines_unlines hbreak (.inr ⟨(mergeLines values (readLines text)).1 ++ before.map assignment,
      assignment e, ?_, assignment_ne_nil e⟩))
    rw [mergedLines_eq, he, List.map_append, List.append_assoc]
    rfl

theorem lastValue_append (k : Str) (l l' : List Str) :
    lastValue k (l ++ l') = (lastValue k l').or (lastValue k l) := by
  induction l with
  | nil => exact (Option.or_none).symm
  | cons line l ih => rw [List.cons_append, lastValue, ih, lastValue, Option.or_assoc]

/-- What is appended gives each of its keys its value. -/
theorem lastValue_appended (hr : Plain r) (hnodup : (r.map Prod.fst).Nodup) (k : Str) :
    lastValue k (r.map assignment) = r.lookup k := by
  induction r with
  | nil => rfl
  | cons e r ih =>
    rw [List.map_cons, List.nodup_cons] at hnodup
    have hrest := ih (fun d hd => hr d (List.mem_cons_of_mem _ hd)) hnodup.2
    rw [List.map_cons, lastValue, hrest, assigned_assignment (hr e List.mem_cons_self), List.lookup_cons]
    by_cases hk : e.1 = k
    · subst hk
      rw [Assoc.lookup_eq_none_iff.mpr hnodup.1, if_pos rfl]
      simp
    · rw [if_neg hk, Option.or_none, beq_eq_false_iff_ne.mpr (Ne.symm hk)]

/-- The value of a wanted key in the lines that are written. -/
theorem lastValue_mergedLines (hmap : (values.map Prod.fst).Nodup) (hplain : Plain values) (he : e ∈ values) :
    lastValue e.1 (mergedLines text values) =
      if times e.1 (readLines text) ≤ 1 then some e.2 else lastValue e.1 (readLines text) := by
  have hlook := Assoc.lookup_of_mem hmap he
  have hplain' : Plain (sortedEntries (mergeLines values (readLines text)).2) := fun d hd =>
    hplain d (mem_left.mp ((perm_sortedEntries _).mem_iff.mpr hd)).1
  have hleft := nodup_left hmap (readLines text)
  have hnodup : ((sortedEntries (mergeLines values (readLines text)).2).map Prod.fst).Nodup :=
    ((perm_sortedEntries _).map Prod.fst).nodup_iff.mp hleft
  rw [mergedLines_eq, lastValue_append, lastValue_appended hplain' hnodup, lastValue_wanted hplain hlook]
  by_cases hzero : times e.1 (readLines text) = 0
  · have hmem : e ∈ (mergeLines values (readLines text)).2 := by
      refine mem_left.mpr ⟨he, fun line hline hkey => ?_⟩
      rw [times, List.countP_eq_zero] at hzero
      exact hzero line hline (beq_iff_eq.mpr hkey)
    rw [Assoc.lookup_of_mem hnodup ((perm_sortedEntries _).mem_iff.mp hmem), if_pos hzero, if_pos (by omega)]
    rfl
  · have hno : (sortedEntries (mergeLines values (readLines text)).2).lookup e.1 = none := by
      rw [Assoc.lookup_eq_none_iff]
      intro hmem
      obtain ⟨d, hd, hkey⟩ := List.mem_map.mp hmem
      obtain ⟨-, hall⟩ := mem_left.mp ((perm_sortedEntries _).mem_iff.mpr hd)
      refine hzero (List.countP_eq_zero.mpr fun line hline hsame => ?_)
      exact hall line hline (by rw [hkey]; exact beq_iff_eq.mp hsame)
    rw [hno, Option.none_or, if_neg hzero]
    by_cases hone : times e.1 (readLines text) = 1
    · rw [if_pos hone, if_pos (by omega)]
    · rw [if_neg hone, if_neg (by omega)]

/-- Merging the same values again changes nothing. -/
theorem mergeProperties_again (hmap : (values.map Prod.fst).Nodup) (hplain : Plain values)
    (hread : readLines (mergeProperties text values) = mergedLines text values) :
    mergeProperties (mergeProperties text values) values = mergeProperties text values := by
  have hplain' : Plain (mergeLines values (readLines text)).2 := fun d hd => hplain d (mem_left.mp hd).1
  have happ := mergeLines_appended hplain' (nodup_left hmap (readLines text)) (perm_sortedEntries _)
  have hagain : mergeLines values (mergedLines text values) = (mergedLines text values, []) := by
    rw [mergedLines_eq, mergeLines_append, mergeLines_again hplain, happ]
  rw [mergeProperties, mergedLines_eq, hread, hagain]
  simp [sortedEntries, mergeProperties]

/-- A merge does what is asked just when every wanted key can be read back from its line, and those the file
assigns more than once have their value already. -/
theorem mergeProperties_iff (hmap : (values.map Prod.fst).Nodup) (hkeys : ∀ e ∈ values, e.1 ≠ [])
    (hlines : ∀ e ∈ values, '\n' ∉ e.2) : Merged text values ↔ ∀ e ∈ values, plainKey e.1 = true ∧
      (2 ≤ times e.1 (readLines text) → lastValue e.1 (readLines text) = some e.2) := by
  constructor
  · intro h
    have hplain : Plain values := by
      intro e he
      have hlast := h.wanted e he
      have hmem : ∃ line ∈ readLines (mergeProperties text values), keyOf line = some e.1 := by
        by_contra hno
        rw [lastValue_eq_none_iff.mpr (List.countP_eq_zero.mpr fun line hline hkey =>
          hno ⟨line, hline, beq_iff_eq.mp hkey⟩)] at hlast
        cases hlast
      obtain ⟨line, hline, hkey⟩ := hmem
      exact plainKey_of_keyOf hkey (hkeys e he) (notMem_of_mem_readLines hline)
    refine fun e he => ⟨hplain e he, fun htwo => ?_⟩
    rcases readLines_merged text hplain hlines with hread | ⟨-, rfl⟩
    · have hlast := h.wanted e he
      rwa [hread, lastValue_mergedLines hmap hplain he, if_neg (by omega)] at hlast
    · cases he
  · intro h
    have hplain : Plain values := fun e he => (h e he).1
    rcases readLines_merged text hplain hlines with hread | ⟨rfl, rfl⟩
    · refine ⟨fun e he => ?_, fun k hk => ?_, ?_, mergeProperties_again hmap hplain hread⟩
      · rw [hread, lastValue_mergedLines hmap hplain he]
        split
        · rfl
        · exact (h e he).2 (by omega)
      · have hleft : Plain (sortedEntries (mergeLines values (readLines text)).2) := fun d hd =>
          hplain d (mem_left.mp ((perm_sortedEntries _).mem_iff.mpr hd)).1
        have hnodup : ((sortedEntries (mergeLines values (readLines text)).2).map Prod.fst).Nodup :=
          ((perm_sortedEntries _).map Prod.fst).nodup_iff.mp (nodup_left hmap (readLines text))
        have hno : (sortedEntries (mergeLines values (readLines text)).2).lookup k = none := by
          rw [Assoc.lookup_eq_none_iff] at hk ⊢
          intro hmem
          obtain ⟨d, hd, rfl⟩ := List.mem_map.mp hmem
          exact hk (List.mem_map_of_mem (mem_left.mp ((perm_sortedEntries _).mem_iff.mpr hd)).1)
        rw [hread, mergedLines_eq, lastValue_append, lastValue_appended hleft hnodup, hno, Option.none_or,
          lastValue_other hplain hk]
      · have happended : ((sortedEntries (mergeLines values (readLines text)).2).map assignment).filter isComment =
            [] := by
          refine List.filter_eq_nil_iff.mpr fun line hline => ?_
          obtain ⟨d, hd, rfl⟩ := List.mem_map.mp hline
          have hd' := (mem_left.mp ((perm_sortedEntries _).mem_iff.mpr hd)).1
          rw [isComment_assignment (hplain d hd')]
          exact Bool.false_ne_true
        rw [hread, mergedLines_eq, List.filter_append, happended, List.append_nil, filter_isComment hplain]
    · have hempty : readLines (mergeProperties [] []) = [[]] := by decide +kernel
      refine ⟨fun _ he => (nomatch he), fun k _ => ?_, ?_, by decide +kernel⟩ <;> rw [hempty] <;> rfl

/-- A file with a comment, a key to be set and one to be kept. -/
def serverProperties : Str := "# Minecraft\nserver-port=25565\nmotd: hello\n".toList

def portValues : Values := [("server-port".toList, "30000".toList), ("query.port".toList, "30000".toList)]

theorem mergeProperties_serverPort : Merged serverProperties portValues :=
  (mergeProperties_iff (by decide +kernel) (by decide +kernel) (by decide +kernel)).mpr (by decide +kernel)

/-- A file that assigns the key twice. -/
def twice : Str := "motd=a\nmotd=b\n".toList

/-- Only its first line is rewritten, so the old value stays in force. -/
theorem mergeProperties_twice :
    mergeProperties twice [("motd".toList, "new".toList)] = "motd=new\nmotd=b\n".toList ∧
      ¬ Merged twice [("motd".toList, "new".toList)] := by
  refine ⟨by decide +kernel, fun h => ?_⟩
  have hlast := h.wanted _ List.mem_cons_self
  exact absurd hlast (by decide +kernel)

end Properties

end Instances
