import Gsm.Data.Commands
import Gsm.Instances.Properties

/-!
# Source engine config files

`MergeSourceCfg` rewrites every line that sets a wanted name, but leaves the lines with several commands
alone, and adds at the end the names that no line it rewrites sets. The game takes the statements in order,
whatever line they are on, and the last one of a name stands (`value`). So a name that a line left alone sets
behind the last line rewritten for it has that line's value.

`fold` is `strings.ToLower`, by which the game compares names too.
-/

open GoStd Data Data.Commands

namespace Instances.SourceCfg

/-! ## `MergeSourceCfg` -/

/-- The bytes of `" \t\""` -/
def isCut (c : Char) : Bool := c == ' ' || c == '\t' || c == '"'

/-- The `//` comment that ends a line, with a space before it, outside quotes. -/
def cfgComment (quoted : Bool) : Str → Str
  | [] => []
  | c :: s =>
      if c == '"' then cfgComment (!quoted) s
      else if !quoted && ['/', '/'].isPrefixOf (c :: s) then ' ' :: c :: s
      else cfgComment quoted s

/-- A `;` outside quotes and comments: another command on the same line. -/
def cfgHasSeparator (quoted : Bool) : Str → Bool
  | [] => false
  | c :: s =>
      if c == '"' then cfgHasSeparator (!quoted) s
      else if !quoted && ['/', '/'].isPrefixOf (c :: s) then false
      else if !quoted && c == ';' then true
      else cfgHasSeparator quoted s

/-- A value as the format can hold it. -/
def stripped (v : Str) : Str := v.filter fun c => c != '"' && c != '\r' && c != '\n'

def quote (v : Str) : Str := '"' :: (stripped v ++ ['"'])

section

variable (fold : Str → Str) (values : Values)

def wantedFor (name : Str) : Option (Str × Str) := values.find? fun e => fold e.1 == fold name

/-- The name a line sets, with what is wanted for it, and the rest of the line; none when it is left alone. -/
def recognized (line : Str) : Option (Str × (Str × Str) × Str) :=
  let trimmed := trimBlanks (trimSuffix line ['\r'])
  if trimmed = [] || ['/', '/'].isPrefixOf trimmed then none
  else
    let name := trimmed.takeWhile fun c => !isCut c
    let rest := trimmed.dropWhile fun c => !isCut c
    match wantedFor fold values name with
    | none => none
    | some e => if cfgHasSeparator false rest then none else some (name, e, rest)

def rewrite (line : Str) : Str :=
  match recognized fold values line with
  | some (name, e, rest) => name ++ ' ' :: (quote e.2 ++ cfgComment false rest)
  | none => line

/-- The line is rewritten for that wanted name. -/
def sets (e : Str × Str) (line : Str) : Bool :=
  match recognized fold values line with
  | some (_, d, _) => d.1 == e.1
  | none => false

def mergedLines (existing : Str) : List Str :=
  let l := Properties.readLines existing
  l.map (rewrite fold values) ++
    ((sortedEntries values).filter fun e => !l.any (sets fold values e)).map fun e =>
      e.1 ++ ' ' :: quote e.2

/-- Set `name "value"` lines, keeping every other line. -/
def mergeSourceCfg (existing : Str) : Str := unlines (mergedLines fold values existing)

/-! ## How the game reads the file -/

/-- The arguments a line gives a name, one statement after the other. -/
def assigned (x line : Str) : List (List Str) := (commands line).filterMap fun
  | name :: arg :: args => if fold name = x then some (arg :: args) else none
  | _ => none

/-- What the last statement of a name gives it. -/
def value (x : Str) (l : List Str) : Option (List Str) := (l.flatMap (assigned fold x)).getLast?

/-- What is asked of a merge. -/
structure Merged (text : Str) : Prop where
  wanted : ∀ e ∈ values,
    value fold (fold e.1) ((mergeSourceCfg fold values text).splitOn '\n') = some [stripped e.2]
  others : ∀ x, (∀ e ∈ values, fold e.1 ≠ x) →
    value fold x ((mergeSourceCfg fold values text).splitOn '\n') = value fold x (text.splitOn '\n')

/-- A line that is not rewritten. -/
def leftAlone (line : Str) : Bool := (recognized fold values line).isNone

/-- The lines behind the last one that is rewritten for a name. -/
def behind (e : Str × Str) (l : List Str) : List Str := l.rtakeWhile fun line => !sets fold values e line

end

variable {fold : Str → Str} {values : Values} {text line name rest x v : Str} {l : List Str} {e d : Str × Str}
  {c : Char}

/-! ## One line -/

theorem cfgComment_cases (q : Bool) (s : Str) :
    cfgComment q s = [] ∨ ∃ t, cfgComment q s = ' ' :: '/' :: '/' :: t ∧ ∀ c ∈ t, c ∈ s := by
  induction s generalizing q with
  | nil => exact .inl rfl
  | cons c s ih =>
    have hmore : ∀ q, cfgComment q s = [] ∨
        ∃ t, cfgComment q s = ' ' :: '/' :: '/' :: t ∧ ∀ d ∈ t, d ∈ c :: s := fun q =>
      (ih q).imp_right fun ⟨t, ht, hmem⟩ => ⟨t, ht, fun d hd => List.mem_cons_of_mem _ (hmem d hd)⟩
    rw [cfgComment]
    split
    · exact hmore _
    · split
      · next hslash =>
        rw [Bool.and_eq_true, List.isPrefixOf_iff_prefix] at hslash
        obtain ⟨t, ht⟩ := hslash.2
        refine .inr ⟨t, by rw [← ht]; rfl, fun d hd => ?_⟩
        rw [← ht]
        exact List.mem_append_right _ hd
      · exact hmore _

theorem notMem_stripped (v : Str) : '"' ∉ stripped v ∧ '\n' ∉ stripped v :=
  ⟨fun h => absurd (List.of_mem_filter h) (by decide), fun h => absurd (List.of_mem_filter h) (by decide)⟩

/-- What is known of a line that is rewritten. -/
theorem recognized_spec (h : recognized fold values line = some (name, e, rest)) :
    e ∈ values ∧ fold e.1 = fold name ∧ name ++ rest = trimBlanks (trimSuffix line ['\r']) ∧
      (∀ c t, rest = c :: t → isCut c = true) ∧ cfgHasSeparator false rest = false := by
  rw [recognized] at h
  split at h
  · cases h
  simp only at h
  split at h
  · cases h
  next d hfind =>
  split at h
  · cases h
  next hsep =>
  obtain ⟨rfl, heq⟩ := Prod.mk.inj (Option.some.inj h)
  obtain ⟨rfl, rfl⟩ := Prod.mk.inj heq
  have hfold := List.find?_some hfind
  refine ⟨List.mem_of_find?_eq_some hfind, beq_iff_eq.mp hfold, List.takeWhile_append_dropWhile, ?_,
    Bool.eq_false_iff.mpr hsep⟩
  intro c t ht
  have := List.head_dropWhile_not (fun c => !isCut c) (l := trimBlanks (trimSuffix line ['\r']))
    (by rw [ht]; exact List.cons_ne_nil _ _)
  simpa [ht] using this

theorem mem_of_mem_trimSuffix {s suffix : Str} (h : c ∈ trimSuffix s suffix) : c ∈ s := by
  rw [trimSuffix] at h
  split at h
  · exact List.mem_of_mem_take h
  · exact h

theorem mem_of_mem_recognized (h : recognized fold values line = some (name, e, rest)) (hc : c ∈ name ++ rest) :
    c ∈ line := by
  rw [(recognized_spec h).2.2.1] at hc
  exact mem_of_mem_trimSuffix (mem_of_mem_trimBlanks hc)

/-- Two names that differ in case only are both words, or neither is. -/
def KeepsWords (fold : Str → Str) : Prop := ∀ a b, fold a = fold b → Word a → Word b

/-- A wanted value is all that a line written for it assigns. -/
theorem assigned_setting (hname : Word name) (v x : Str) {s : Str}
    (hs : s = [] ∨ ∃ t, s = ' ' :: '/' :: '/' :: t) :
    assigned fold x (name ++ ' ' :: (quote v ++ s)) = if fold name = x then [[stripped v]] else [] := by
  have hline : name ++ ' ' :: (quote v ++ s) = name ++ ' ' :: '"' :: (stripped v ++ '"' :: s) := by
    rw [quote, List.cons_append, List.append_assoc, List.singleton_append]
  rw [assigned, hline, commands_pair hname (notMem_stripped v).1 hs]
  by_cases h : fold name = x <;> simp [h]

theorem assigned_rewrite (hfold : KeepsWords fold) (hwords : ∀ e ∈ values, Word e.1)
    (h : recognized fold values line = some (name, e, rest)) (x : Str) :
    assigned fold x (rewrite fold values line) = if fold e.1 = x then [[stripped e.2]] else [] := by
  obtain ⟨he, hname, -, -, -⟩ := recognized_spec h
  rw [rewrite, h, hname]
  refine assigned_setting (hfold _ _ hname (hwords e he)) e.2 x ?_
  exact (cfgComment_cases false rest).imp_right fun ⟨t, ht, _⟩ => ⟨t, ht⟩

theorem assigned_nil (x : Str) : assigned fold x [] = [] := rfl

/-! ## The file that is written -/

theorem notMem_of_word (h : Word name) : '\n' ∉ name := fun hmem => absurd (h.plain _ hmem).1 (by decide)

theorem notMem_quote (v : Str) : '\n' ∉ quote v := by
  rw [quote, List.mem_cons, not_or, List.mem_append, not_or]
  exact ⟨by decide, (notMem_stripped v).2, by decide⟩

theorem notMem_rewrite (h : '\n' ∉ line) : '\n' ∉ rewrite fold values line := by
  rw [rewrite]
  split
  · next name e rest hrec =>
    have hpart : '\n' ∉ name ++ rest := fun hmem => h (mem_of_mem_recognized hrec hmem)
    rw [List.mem_append, not_or] at hpart
    rw [List.mem_append, not_or, List.mem_cons, not_or, List.mem_append, not_or]
    refine ⟨hpart.1, by decide, notMem_quote _, ?_⟩
    rcases cfgComment_cases false rest with hnil | ⟨t, ht, hmem⟩
    · rw [hnil]
      exact List.not_mem_nil
    · rw [ht, List.mem_cons, not_or, List.mem_cons, not_or, List.mem_cons, not_or]
      exact ⟨by decide, by decide, by decide, fun h' => hpart.2 (hmem _ h')⟩
  · exact h

theorem notMem_of_mem_mergedLines (hwords : ∀ e ∈ values, Word e.1) (h : line ∈ mergedLines fold values text) :
    '\n' ∉ line := by
  rw [mergedLines] at h
  rcases List.mem_append.mp h with h | h
  · obtain ⟨line, hline, rfl⟩ := List.mem_map.mp h
    exact notMem_rewrite (Properties.notMem_of_mem_readLines hline)
  · obtain ⟨e, he, rfl⟩ := List.mem_map.mp h
    have he' := (Properties.perm_sortedEntries values).mem_iff.mpr (List.mem_filter.mp he).1
    rw [List.mem_append, not_or, List.mem_cons, not_or]
    exact ⟨notMem_of_word (hwords e he'), by decide, notMem_quote _⟩

/-- The game reads the lines that were written. -/
theorem value_merged (hwords : ∀ e ∈ values, Word e.1) (x : Str) :
    value fold x ((mergeSourceCfg fold values text).splitOn '\n') = value fold x (mergedLines fold values text) := by
  rw [value, mergeSourceCfg, flatMap_unlines (assigned_nil x) fun _ h => notMem_of_mem_mergedLines hwords h, value]

theorem value_existing (x text : Str) :
    value fold x (text.splitOn '\n') = value fold x (Properties.readLines text) := by
  rw [value, flatMap_splitOn (assigned_nil x), value, Properties.readLines]
  split
  · next hnil =>
    subst hnil
    rfl
  · rfl

/-- Where no line is rewritten for a name, the lines left alone are all that assigns it. -/
theorem flatMap_rewrite (hfold : KeepsWords fold) (hwords : ∀ e ∈ values, Word e.1)
    (h : ∀ line ∈ l, ∀ name d rest, recognized fold values line = some (name, d, rest) → fold d.1 ≠ x) :
    (l.map (rewrite fold values)).flatMap (assigned fold x) =
      (l.filter (leftAlone fold values)).flatMap (assigned fold x) := by
  induction l with
  | nil => rfl
  | cons line l ih =>
    obtain ⟨hline, hmore⟩ := List.forall_mem_cons.mp h
    rw [List.map_cons, List.flatMap_cons, ih hmore]
    rcases hrec : recognized fold values line with _ | ⟨name, d, rest⟩
    · rw [List.filter_cons_of_pos (by rw [leftAlone, hrec]; rfl), List.flatMap_cons, rewrite, hrec]
    · rw [List.filter_cons_of_neg (by rw [leftAlone, hrec]; exact Bool.false_ne_true),
        assigned_rewrite hfold hwords hrec, if_neg (hline name d rest hrec), List.nil_append]

/-- What is appended for one name. -/
theorem flatMap_appended (hwords : ∀ e ∈ values, Word e.1) (p : Str × Str → Bool) (x : Str) :
    (((sortedEntries values).filter p).map fun e => e.1 ++ ' ' :: quote e.2).flatMap (assigned fold x) =
      ((sortedEntries values).filter fun e => p e && decide (fold e.1 = x)).map fun e => [stripped e.2] := by
  have hline : ∀ e ∈ sortedEntries values, assigned fold x (e.1 ++ ' ' :: quote e.2) =
      if fold e.1 = x then [[stripped e.2]] else [] := by
    intro e he
    have hword := hwords e ((Properties.perm_sortedEntries values).mem_iff.mpr he)
    rw [← List.append_nil (quote e.2)]
    exact assigned_setting hword e.2 x (.inl rfl)
  generalize sortedEntries values = es at hline ⊢
  induction es with
  | nil => rfl
  | cons e es ih =>
    obtain ⟨hfirst, hmore⟩ := List.forall_mem_cons.mp hline
    rcases hp : p e with _ | _
    · rw [List.filter_cons_of_neg (by rw [hp]; exact Bool.false_ne_true), ih hmore,
        List.filter_cons_of_neg (by rw [hp, Bool.false_and]; exact Bool.false_ne_true)]
    · rw [List.filter_cons_of_pos hp, List.map_cons, List.flatMap_cons, hfirst, ih hmore]
      by_cases hx : fold e.1 = x
      · rw [if_pos hx, List.filter_cons_of_pos (by rw [hp, decide_eq_true hx]; rfl)]
        rfl
      · rw [if_neg hx, List.filter_cons_of_neg (by rw [hp, decide_eq_false hx]; exact Bool.false_ne_true)]
        rfl

/-! ## ASCII files

`strings.TrimSpace` takes away blanks the game does not know, so a line may set another name than the one it is
rewritten for. In a file of ASCII bytes none does.
-/

/-- The end of the line up to its comment is one statement, unless there is a separator. -/
theorem statements_uncommented {q : Bool} {s : Str} (h : cfgHasSeparator q s = false) :
    statements q (uncommented q s) = [uncommented q s] := by
  induction s generalizing q with
  | nil => rfl
  | cons c s ih =>
    rw [cfgHasSeparator] at h
    rw [uncommented]
    split at h
    · next hquote =>
      rw [beq_iff_eq] at hquote
      subst hquote
      rw [if_pos (by decide), statements_quote, ih h]
      rfl
    · next hquote =>
      rw [if_neg hquote]
      split at h
      · next hslash =>
        rw [if_pos hslash]
        rfl
      · next hslash =>
        split at h
        · cases h
        · next hsemi =>
          rw [if_neg hslash, statements, if_neg hquote, if_neg hsemi, ih h]
          rfl

theorem cfgHasSeparator_blank {w : Str} (hw : ∀ c ∈ w, isBlank c = true) (q : Bool) :
    cfgHasSeparator q w = false := by
  induction w generalizing q with
  | nil => rfl
  | cons c w ih =>
    obtain ⟨hc, hmore⟩ := List.forall_mem_cons.mp hw
    have hsemi : (c == ';') = false := by
      refine beq_eq_false_iff_ne.mpr ?_
      rintro rfl
      exact absurd hc (by decide)
    rw [cfgHasSeparator, hsemi, Bool.and_false, ih hmore, ih hmore]
    split
    · rfl
    · split <;> rfl

theorem cfgHasSeparator_append {w : Str} (hw : ∀ c ∈ w, isBlank c = true) (q : Bool) (s : Str) :
    cfgHasSeparator q (s ++ w) = cfgHasSeparator q s := by
  induction s generalizing q with
  | nil => exact cfgHasSeparator_blank hw q
  | cons c s ih =>
    have hslash : ['/', '/'].isPrefixOf (c :: (s ++ w)) = ['/', '/'].isPrefixOf (c :: s) := by
      rcases s with _ | ⟨b, s⟩
      · rcases w with _ | ⟨b, w⟩
        · rfl
        · have hb : ('/' == b) = false := by
            refine beq_eq_false_iff_ne.mpr ?_
            rintro rfl
            exact absurd (hw _ List.mem_cons_self) (by decide)
          show ('/' == c && ('/' == b && _)) = ('/' == c && false)
          rw [hb, Bool.false_and]
      · rfl
    rw [List.cons_append, cfgHasSeparator, cfgHasSeparator, ih, ih, hslash]

theorem exists_trimSuffix (s suffix : Str) : ∃ w, s = trimSuffix s suffix ++ w ∧ (w = [] ∨ w = suffix) := by
  rw [trimSuffix]
  split
  · next h =>
    rw [List.isSuffixOf_iff_suffix] at h
    obtain ⟨t, rfl⟩ := h
    refine ⟨suffix, ?_, .inr rfl⟩
    rw [List.length_append, Nat.add_sub_cancel, List.take_left]
  · exact ⟨[], (List.append_nil s).symm, .inl rfl⟩

/-- An ASCII line assigns nothing but the name it is rewritten for. -/
theorem assigned_recognized (hline : ∀ c ∈ line, c.toNat < 0x80) (hname : Word name)
    (h : recognized fold values line = some (name, e, rest)) (hx : fold e.1 ≠ x) : assigned fold x line = [] := by
  obtain ⟨-, hsame, htrim, hcut, hsep⟩ := recognized_spec h
  obtain ⟨w', hsuffix, hw'⟩ := exists_trimSuffix line ['\r']
  have hascii : ∀ c ∈ trimSuffix line ['\r'], c.toNat < 0x80 := fun c hc => hline c (mem_of_mem_trimSuffix hc)
  obtain ⟨u, w, heq, hu, hw⟩ := trimBlanks_ascii hascii
  have hblank : ∀ c ∈ trimSuffix line ['\r'], isSpace [c] = true → isBlank c = true := fun c hc hspace =>
    decide_eq_true (toNat_of_isSpace (hascii c hc) hspace)
  have hu' : ∀ c ∈ u, isBlank c = true := fun c hc => hblank c
    (by rw [heq]; exact List.mem_append_left _ (List.mem_append_left _ hc)) (hu c hc)
  have hend : ∀ c ∈ w ++ w', isBlank c = true := by
    intro c hc
    rcases List.mem_append.mp hc with hc | hc
    · exact hblank c (by rw [heq]; exact List.mem_append_right _ hc) (hw c hc)
    · rcases hw' with rfl | rfl
      · cases hc
      · rw [List.mem_singleton.mp hc]
        rfl
  have hparts : line = u ++ (name ++ (rest ++ (w ++ w'))) := by
    rw [hsuffix, heq, ← htrim]
    simp
  have hstop : EndsWord (rest ++ (w ++ w')) := by
    intro c t hct
    rcases rest with _ | ⟨b, rest⟩
    · exact .inl (hend c (by rw [List.nil_append] at hct; rw [hct]; exact List.mem_cons_self))
    · rw [List.cons_append] at hct
      have hb := hcut b rest rfl
      rw [(List.cons.inj hct).1, isCut, Bool.or_eq_true, Bool.or_eq_true, beq_iff_eq, beq_iff_eq,
        beq_iff_eq] at hb
      rcases hb with (rfl | rfl) | rfl
      · exact .inl (by decide)
      · exact .inl (by decide)
      · exact .inr rfl
  have hone := statements_uncommented ((cfgHasSeparator_append hend false rest).trans hsep)
  obtain ⟨more, hmore⟩ := commands_head hu' hname hstop hone
  rw [assigned, hparts, hmore]
  rcases more with _ | ⟨arg, args⟩
  · rfl
  · rw [hsame] at hx
    simp [hx]

/-- In an ASCII file no name that is not wanted has its value from a line that is rewritten. -/
theorem value_leftAlone (hfold : KeepsWords fold) (hwords : ∀ e ∈ values, Word e.1)
    (hl : ∀ line ∈ l, ∀ c ∈ line, c.toNat < 0x80) (hx : ∀ e ∈ values, fold e.1 ≠ x) :
    value fold x (l.filter (leftAlone fold values)) = value fold x l := by
  refine congrArg List.getLast? ?_
  induction l with
  | nil => rfl
  | cons line l ih =>
    obtain ⟨hline, hmore⟩ := List.forall_mem_cons.mp hl
    rw [List.flatMap_cons, ← ih hmore]
    rcases hrec : recognized fold values line with _ | ⟨name, d, rest⟩
    · rw [List.filter_cons_of_pos (by rw [leftAlone, hrec]; rfl), List.flatMap_cons]
    · obtain ⟨hd, hsame, -⟩ := recognized_spec hrec
      rw [List.filter_cons_of_neg (by rw [leftAlone, hrec]; exact Bool.false_ne_true),
        assigned_recognized hline (hfold _ _ hsame (hwords d hd)) hrec (hx d hd), List.nil_append]

/-! ## What is asked of a merge -/

theorem sets_iff : sets fold values e line = true ↔
    ∃ name d rest, recognized fold values line = some (name, d, rest) ∧ d.1 = e.1 := by
  rw [sets]
  rcases recognized fold values line with _ | ⟨name, d, rest⟩
  · exact ⟨fun h => (nomatch h), fun ⟨_, _, _, h, _⟩ => (nomatch h)⟩
  · refine ⟨fun h => ⟨name, d, rest, rfl, beq_iff_eq.mp h⟩, ?_⟩
    rintro ⟨_, _, _, heq, hname⟩
    rw [(Prod.mk.inj (Prod.mk.inj (Option.some.inj heq)).2).1]
    exact beq_iff_eq.mpr hname

theorem eq_of_fold (hnodup : (values.map fun e => fold e.1).Nodup) (he : e ∈ values) (hd : d ∈ values)
    (h : fold e.1 = fold d.1) : e = d := List.inj_on_of_nodup_map hnodup he hd h

/-- Behind the lines that were rewritten for a name, and for any name among those left alone. -/
theorem flatMap_behind (hfold : KeepsWords fold) (hwords : ∀ e ∈ values, Word e.1)
    (hnodup : (values.map fun e => fold e.1).Nodup) (he : e ∈ values) (l : List Str) :
    ((behind fold values e l).map (rewrite fold values)).flatMap (assigned fold (fold e.1)) =
      ((behind fold values e l).filter (leftAlone fold values)).flatMap (assigned fold (fold e.1)) := by
  refine flatMap_rewrite hfold hwords fun line hline name d rest hrec hsame => ?_
  have hno := List.mem_rtakeWhile_imp hline
  rw [Bool.not_eq_true', ← Bool.not_eq_true] at hno
  refine hno (sets_iff.mpr ⟨name, d, rest, hrec, ?_⟩)
  rw [eq_of_fold hnodup (recognized_spec hrec).1 he hsame]

/-- The value of a wanted name in the lines that are written. -/
theorem value_wanted (hfold : KeepsWords fold) (hwords : ∀ e ∈ values, Word e.1)
    (hnodup : (values.map fun e => fold e.1).Nodup) (he : e ∈ values) :
    value fold (fold e.1) (mergedLines fold values text) =
      if (Properties.readLines text).any (sets fold values e) then
        (value fold (fold e.1) ((behind fold values e (Properties.readLines text)).filter
          (leftAlone fold values))).or (some [stripped e.2])
      else some [stripped e.2] := by
  have hsplit : mergedLines fold values text = (Properties.readLines text).map (rewrite fold values) ++
      ((sortedEntries values).filter fun d => !(Properties.readLines text).any (sets fold values d)).map fun d =>
        d.1 ++ ' ' :: quote d.2 := rfl
  have hmem : e ∈ sortedEntries values := (Properties.perm_sortedEntries values).mem_iff.mp he
  rw [value, hsplit, List.flatMap_append, flatMap_appended hwords]
  split
  · next hset =>
    -- nothing is appended for the name
    have hnone : ((sortedEntries values).filter fun d => !(Properties.readLines text).any (sets fold values d) &&
        decide (fold d.1 = fold e.1)) = [] := by
      refine List.filter_eq_nil_iff.mpr fun d hd hboth => ?_
      rw [Bool.and_eq_true, decide_eq_true_eq] at hboth
      have hd' := (Properties.perm_sortedEntries values).mem_iff.mpr hd
      rw [eq_of_fold hnodup hd' he hboth.2, hset] at hboth
      exact Bool.false_ne_true hboth.1
    rw [hnone, List.map_nil, List.append_nil]
    -- the last line rewritten for it, and the lines behind
    obtain ⟨front, last, hfront⟩ : ∃ front last,
        (Properties.readLines text).rdropWhile (fun line => !sets fold values e line) = front ++ [last] := by
      rcases List.eq_nil_or_concat' ((Properties.readLines text).rdropWhile fun line => !sets fold values e line) with
        hnil | hlast
      · obtain ⟨line, hline, hyes⟩ := List.any_eq_true.mp hset
        have := List.rdropWhile_eq_nil_iff.mp hnil line hline
        rw [hyes] at this
        cases this
      · exact hlast
    have hlast : sets fold values e last = true := by
      have := List.rdropWhile_last_not (fun line => !sets fold values e line) (Properties.readLines text)
        (by rw [hfront]; exact List.append_ne_nil_of_right_ne_nil _ (List.cons_ne_nil _ _))
      simpa [hfront] using this
    obtain ⟨name, d, rest, hrec, hsame⟩ := sets_iff.mp hlast
    have hd : d = e := eq_of_fold hnodup (recognized_spec hrec).1 he (congrArg fold hsame)
    have hparts : Properties.readLines text = front ++ [last] ++ behind fold values e (Properties.readLines text) := by
      rw [← hfront, behind, List.rdropWhile_append_rtakeWhile]
    conv_lhs => rw [hparts]
    rw [List.map_append, List.map_append, List.flatMap_append, List.flatMap_append,
      flatMap_behind hfold hwords hnodup he, List.getLast?_append, List.getLast?_append, List.map_singleton,
      List.flatMap_singleton, assigned_rewrite hfold hwords hrec, hd, if_pos rfl]
    rfl
  · next hset =>
    rw [Bool.not_eq_true] at hset
    -- the name is appended, and nothing else that compares equal
    have hone : e ∈ (sortedEntries values).filter fun d => !(Properties.readLines text).any (sets fold values d) &&
        decide (fold d.1 = fold e.1) := by
      refine List.mem_filter.mpr ⟨hmem, ?_⟩
      rw [hset, decide_eq_true rfl]
      rfl
    obtain ⟨before, last, hlast⟩ := (List.eq_nil_or_concat' _).resolve_left (List.ne_nil_of_mem hone)
    have hin : last ∈ (sortedEntries values).filter fun d => !(Properties.readLines text).any (sets fold values d) &&
        decide (fold d.1 = fold e.1) := by
      rw [hlast]
      exact List.mem_append_right _ List.mem_cons_self
    obtain ⟨hin, hboth⟩ := List.mem_filter.mp hin
    rw [Bool.and_eq_true, decide_eq_true_eq] at hboth
    have heq := eq_of_fold hnodup ((Properties.perm_sortedEntries values).mem_iff.mpr hin) he hboth.2
    rw [hlast, List.map_append, ← List.append_assoc, List.getLast?_append, heq]
    rfl

/-- The value of another name is what the lines left alone give it. -/
theorem value_other (hfold : KeepsWords fold) (hwords : ∀ e ∈ values, Word e.1)
    (hx : ∀ e ∈ values, fold e.1 ≠ x) : value fold x (mergedLines fold values text) =
      value fold x ((Properties.readLines text).filter (leftAlone fold values)) := by
  have hsplit : mergedLines fold values text = (Properties.readLines text).map (rewrite fold values) ++
      ((sortedEntries values).filter fun d => !(Properties.readLines text).any (sets fold values d)).map fun d =>
        d.1 ++ ' ' :: quote d.2 := rfl
  have hnone : ((sortedEntries values).filter fun d => !(Properties.readLines text).any (sets fold values d) &&
      decide (fold d.1 = x)) = [] := by
    refine List.filter_eq_nil_iff.mpr fun d hd hboth => ?_
    rw [Bool.and_eq_true, decide_eq_true_eq] at hboth
    exact hx d ((Properties.perm_sortedEntries values).mem_iff.mpr hd) hboth.2
  rw [value, hsplit, List.flatMap_append, flatMap_appended hwords, hnone, List.map_nil, List.append_nil,
    flatMap_rewrite hfold hwords fun line _ name d rest hrec => hx d (recognized_spec hrec).1, value]

/-- A merge does what is asked just when, behind the last line rewritten for a wanted name, no line left alone
gives it another value, and no other name has its value from a line that is rewritten. -/
theorem mergeSourceCfg_iff (text : Str) (hfold : KeepsWords fold) (hwords : ∀ e ∈ values, Word e.1)
    (hnodup : (values.map fun e => fold e.1).Nodup) : Merged fold values text ↔
      (∀ e ∈ values, (Properties.readLines text).any (sets fold values e) = true →
        ∀ v, value fold (fold e.1) ((behind fold values e (Properties.readLines text)).filter
          (leftAlone fold values)) = some v → v = [stripped e.2]) ∧
      ∀ x, (∀ e ∈ values, fold e.1 ≠ x) →
        value fold x ((Properties.readLines text).filter (leftAlone fold values)) =
          value fold x (Properties.readLines text) := by
  constructor
  · intro h
    refine ⟨fun e he hset v hv => ?_, fun x hx => ?_⟩
    · have hwanted := h.wanted e he
      rw [value_merged hwords, value_wanted hfold hwords hnodup he, if_pos hset, hv] at hwanted
      exact Option.some.inj hwanted
    · rw [← value_other hfold hwords hx, ← value_merged hwords, h.others x hx, value_existing]
  · rintro ⟨hwanted, hothers⟩
    refine ⟨fun e he => ?_, fun x hx => ?_⟩
    · rw [value_merged hwords, value_wanted hfold hwords hnodup he]
      split
      · next hset =>
        rcases hv : value fold (fold e.1) ((behind fold values e (Properties.readLines text)).filter
          (leftAlone fold values)) with _ | v
        · rfl
        · rw [hwanted e he hset v hv]
          rfl
      · rfl
    · rw [value_merged hwords, value_other hfold hwords hx, hothers x hx, value_existing]

/-- A file with a comment, another name and a line of two commands; all in lower case. -/
def serverCfg : Str :=
  "// server config\nhostname \"Old\" // shown\nsv_lan 1; sv_region 3\nexec banned_user.cfg\n".toList

def cfgValues : Values := [("hostname".toList, "My server".toList), ("sv_region".toList, "255".toList)]

theorem mergeSourceCfg_region : Merged id cfgValues serverCfg := by
  have hwords : ∀ e ∈ cfgValues, Word e.1 := by decide +kernel
  have hascii : ((Properties.readLines serverCfg).all fun line => line.all fun c => decide (c.toNat < 0x80)) = true := by
    decide +kernel
  have hfold : KeepsWords id := by
    intro a b h hword
    rwa [show a = b from h] at hword
  -- no line is rewritten for the one, and nothing is left alone behind the line of the other
  have hlines : ∀ e ∈ cfgValues, (Properties.readLines serverCfg).any (sets id cfgValues e) = false ∨
      value id (id e.1) ((behind id cfgValues e (Properties.readLines serverCfg)).filter
        (leftAlone id cfgValues)) = none := by decide +kernel
  refine (mergeSourceCfg_iff serverCfg hfold hwords (by decide +kernel)).mpr ⟨fun e he hset v hv => ?_, fun x hx =>
    value_leftAlone hfold hwords (by simpa using hascii) hx⟩
  rcases hlines e he with h | h
  · rw [h] at hset
    cases hset
  · rw [h] at hv
    cases hv

/-- A name set in its own line and again in one of two commands. -/
def hostnameTwice : Str := "hostname a\nsv_lan 1; hostname b\n".toList

def hostnameNew : Values := [("hostname".toList, "new".toList)]

/-- The second line is left alone and nothing is added behind it, so its value stands. -/
theorem mergeSourceCfg_twice :
    mergeSourceCfg id hostnameNew hostnameTwice = "hostname \"new\"\nsv_lan 1; hostname b\n".toList ∧
      ¬ Merged id hostnameNew hostnameTwice := by
  refine ⟨by decide +kernel, fun h => ?_⟩
  have hvalue := h.wanted _ List.mem_cons_self
  exact absurd hvalue (by decide +kernel)

end Instances.SourceCfg
