import Gsm.Instances.Properties

/-!
# INI files

`MergeINI` goes through the lines with the section it is in, rewrites every line of a wanted key, adds at
the end of a section what is still missing in it, and appends the sections that are not there. The file
it writes is read back section by section (`assignments`). A merge does what is asked of it just when each
wanted key, and its section, comes back from the lines that are written for it (`Writable`).
-/

open GoStd Data

namespace Instances.Ini

/-! ## `MergeINI` -/

/-- The wanted settings: section and key, with the value. -/
abbrev Wanted := List ((Str × Str) × Str)

/-- A wanted name cut at its first dot, unless that comes first. -/
def splitKey (k : Str) : Str × Str :=
  match k.takeWhile (· != '.'), k.dropWhile (· != '.') with
  | c :: section_, _ :: key => (c :: section_, key)
  | _, _ => ([], k)

def wantedOf (values : Values) : Wanted := (sortedEntries values).map fun e => (splitKey e.1, e.2)

inductive Kind where
  | header (name : Str)
  /-- An empty line or a comment -/
  | note
  | key (k : Str)
deriving DecidableEq

def classify (line : Str) : Kind :=
  let trimmed := trimBlanks line
  if ['['].isPrefixOf trimmed && [']'].isSuffixOf trimmed then .header (trimBlanks (trimmed.drop 1).dropLast)
  else if trimmed = [] || ['#'].isPrefixOf trimmed || [';'].isPrefixOf trimmed then .note
  else .key (propertyKey trimmed)

/-- Which of the wanted are in the file; `done` with the section, a dot and the key as one text, which no
two of them share. -/
abbrev Done := Str × Str → Bool

def mark (done : Done) (x : Str × Str) : Done := fun y => y == x || done y

/-- `key + "=" + value` -/
def lineOf (e : (Str × Str) × Str) : Str := assignment (e.1.2, e.2)

def headerOf (name : Str) : Str := '[' :: (name ++ [']'])

/-- What is missing in a section. -/
def flushSection (name : Str) : Wanted → Done → List Str × Done
  | [], done => ([], done)
  | e :: rest, done =>
      if e.1.1 == name && !done e.1 then
        let (out, done) := flushSection name rest (mark done e.1)
        (lineOf e :: out, done)
      else flushSection name rest done

/-- The lines of the file, from one of a section on; and the section at the end, with what is done. -/
def mergeLines (wanted : Wanted) (name : Str) (done : Done) : List Str → List Str × Str × Done
  | [] => ([], name, done)
  | line :: rest =>
      match classify line with
      | .header next =>
          let (missing, done) := flushSection name wanted done
          let (out, last) := mergeLines wanted next done rest
          (missing ++ line :: out, last)
      | .note =>
          let (out, last) := mergeLines wanted name done rest
          (line :: out, last)
      | .key k =>
          match wanted.lookup (name, k) with
          | some v =>
              let (out, last) := mergeLines wanted name (mark done (name, k)) rest
              (assignment (k, v) :: out, last)
          | none =>
              let (out, last) := mergeLines wanted name done rest
              (line :: out, last)

/-- The sections that are not there, each with all that is wanted in it. -/
def appendSections (wanted : Wanted) (seen : List Str) (done : Done) : Wanted → List Str
  | [] => []
  | e :: rest =>
      if done e.1 || seen.contains e.1.1 then appendSections wanted seen done rest
      else
        let (missing, done) := flushSection e.1.1 wanted done
        headerOf e.1.1 :: (missing ++ appendSections wanted (e.1.1 :: seen) done rest)

/-- The sections of the headers among some lines. -/
def headers (l : List Str) : List Str := l.filterMap fun line =>
  match classify line with
  | .header name => some name
  | _ => none

def mergedLines (existing : Str) (values : Values) : List Str :=
  let wanted := wantedOf values
  let (out, last, done) := mergeLines wanted [] (fun _ => false) (Properties.readLines existing)
  let (missing, done) := flushSection last wanted done
  let out := out ++ missing
  out ++ appendSections wanted ([] :: headers out) done wanted

/-- Set keys in an INI file. -/
def mergeINI (existing : Str) (values : Values) : Str := unlines (mergedLines existing values)

/-! ## How the file is read -/

/-- What the lines assign, from one of a section on. -/
def assignments (name : Str) : List Str → List ((Str × Str) × Str)
  | [] => []
  | line :: rest =>
      match classify line with
      | .header next => assignments next rest
      | .note => assignments name rest
      | .key k => ((name, k), valueBehind k line) :: assignments name rest

def sectionAfter (name : Str) (l : List Str) : Str := ((headers l).getLast?).getD name

/-- The lines that do not assign what is wanted. -/
def others (wanted : Wanted) (name : Str) : List Str → List Str
  | [] => []
  | line :: rest =>
      match classify line with
      | .header next => line :: others wanted next rest
      | .note => line :: others wanted name rest
      | .key k =>
          if (wanted.lookup (name, k)).isSome then others wanted name rest
          else line :: others wanted name rest

/-- What is asked of a merge: each wanted key is assigned, to its value and to nothing else. -/
structure Merged (text : Str) (values : Values) : Prop where
  wanted : ∀ e ∈ wantedOf values,
    e ∈ assignments [] (Properties.readLines (mergeINI text values)) ∧
      ∀ v, (e.1, v) ∈ assignments [] (Properties.readLines (mergeINI text values)) → v = e.2
  kept : (others (wantedOf values) [] (Properties.readLines text)).Sublist
    (Properties.readLines (mergeINI text values))
  again : mergeINI (mergeINI text values) values = mergeINI text values

/-- A section that its header brings back, and a key that its line does: without separators and breaks, with
neither a blank nor the sign of a comment in front, and not with the value between brackets. -/
def Writable (e : (Str × Str) × Str) : Prop :=
  trimBlanks e.1.1 = e.1.1 ∧ '\n' ∉ e.1.1 ∧ (∀ c ∈ e.1.2, isSeparator c = false ∧ c ≠ '\n') ∧
    isSpace e.1.2 = false ∧ ['#'].isPrefixOf e.1.2 = false ∧ [';'].isPrefixOf e.1.2 = false ∧
    ¬ (['['].isPrefixOf e.1.2 = true ∧ [']'].isSuffixOf (trimRight e.2) = true)

instance : DecidablePred Writable := fun e =>
  haveI : Decidable (∀ c ∈ e.1.2, isSeparator c = false ∧ c ≠ '\n') := List.decidableBAll _ _
  inferInstanceAs (Decidable (_ ∧ _ ∧ _ ∧ _ ∧ _ ∧ _ ∧ ¬ (_ ∧ _)))

variable {text line name : Str} {values : Values} {wanted ws : Wanted} {done : Done} {l out : List Str}
  {e : (Str × Str) × Str} {x : Str × Str} {k v : Str}

/-! ## One line -/

theorem isSuffixOf_singleton (c : Char) (s : Str) : [c].isSuffixOf s = true ↔ ∃ t, s = t ++ [c] := by
  rw [List.isSuffixOf_iff_suffix]
  exact ⟨fun ⟨t, ht⟩ => ⟨t, ht.symm⟩, fun ⟨t, ht⟩ => ⟨t, ht.symm⟩⟩

theorem classify_lineOf (h : Writable e) : classify (lineOf e) = .key e.1.2 := by
  obtain ⟨-, -, hall, hblank, hhash, hsemi, hbracket⟩ := h
  have htrim : trimBlanks (lineOf e) = e.1.2 ++ '=' :: trimRight e.2 :=
    trimBlanks_append hblank (by decide) (by decide) e.2
  have hheader : (['['].isPrefixOf (e.1.2 ++ '=' :: trimRight e.2) &&
      [']'].isSuffixOf (e.1.2 ++ '=' :: trimRight e.2)) = false := by
    rw [Bool.and_eq_false_iff]
    by_cases hopen : ['['].isPrefixOf e.1.2 = true
    · right
      rw [← Bool.not_eq_true]
      intro hclose
      refine hbracket ⟨hopen, ?_⟩
      obtain ⟨t, ht⟩ := (isSuffixOf_singleton _ _).mp hclose
      rcases List.eq_nil_or_concat' (trimRight e.2) with hnil | ⟨r, c, hr⟩
      · rw [hnil] at ht
        exact absurd (List.append_inj_right' ht rfl) (by decide)
      · rw [hr, ← List.cons_append, ← List.append_assoc] at ht
        rw [hr, (List.cons.inj (List.append_inj_right' ht rfl)).1]
        exact (isSuffixOf_singleton _ _).mpr ⟨r, rfl⟩
    · exact .inl (head?_append_eq _ _ (by decide) (Bool.eq_false_iff.mpr hopen))
  rw [classify, htrim, hheader, head?_append_eq _ _ (by decide) hhash, head?_append_eq _ _ (by decide) hsemi,
    propertyKey_append fun c hc => (hall c hc).1]
  simp

theorem valueBehind_lineOf (h : Writable e) : valueBehind e.1.2 (lineOf e) = e.2 :=
  valueBehind_assignment h.2.2.2.1 e.2

theorem trimBlanks_headerOf (name : Str) : trimBlanks (headerOf name) = headerOf name := by
  have hopen : trimBlanks (headerOf name) = '[' :: trimRight (name ++ [']']) :=
    trimBlanks_append isSpace_nil (by decide) (by decide) _
  rw [hopen, trimRight_append (by decide) (by decide), trimRight_nil, headerOf]

theorem classify_headerOf (h : trimBlanks name = name) : classify (headerOf name) = .header name := by
  have hends : [']'].isSuffixOf (headerOf name) = true := (isSuffixOf_singleton _ _).mpr ⟨'[' :: name, rfl⟩
  rw [classify, trimBlanks_headerOf, hends, headerOf]
  simp [h]

/-! ## What is wanted -/

theorem splitKey_injective : Function.Injective splitKey := by
  -- the two parts make up the name again
  have hback : ∀ k, (if (splitKey k).1 = [] then (splitKey k).2 else (splitKey k).1 ++ '.' :: (splitKey k).2) = k := by
    intro k
    rw [splitKey]
    split
    · next c name d key hname hkey =>
      have hd : d = '.' := by
        have := List.head_dropWhile_not (· != '.') (l := k) (by rw [hkey]; exact List.cons_ne_nil _ _)
        simpa [hkey] using this
      subst hd
      rw [if_neg (List.cons_ne_nil _ _)]
      show c :: name ++ '.' :: key = k
      rw [← hname, ← hkey, List.takeWhile_append_dropWhile]
    · exact if_pos rfl
  intro k k' h
  rw [← hback k, ← hback k', h]

theorem nodup_wantedOf (hmap : (values.map Prod.fst).Nodup) : ((wantedOf values).map Prod.fst).Nodup := by
  have hsorted := ((Properties.perm_sortedEntries values).map Prod.fst).nodup_iff.mp hmap
  rw [wantedOf, List.map_map]
  have hcomp : (Prod.fst ∘ fun e : Str × Str => (splitKey e.1, e.2)) = splitKey ∘ Prod.fst := rfl
  rw [hcomp, ← List.map_map]
  exact hsorted.map splitKey_injective

/-! ## Sections and what is assigned in them -/

theorem headers_append (l l' : List Str) : headers (l ++ l') = headers l ++ headers l' := List.filterMap_append

theorem sectionAfter_cons (name line : Str) (l : List Str) : sectionAfter name (line :: l) =
    sectionAfter (match classify line with | .header next => next | _ => name) l := by
  rw [sectionAfter, headers, List.filterMap_cons]
  rcases classify line with next | _ | k
  · show ((next :: headers l).getLast?).getD name = ((headers l).getLast?).getD next
    rw [List.getLast?_cons]
    rfl
  · rfl
  · rfl

theorem sectionAfter_append (name : Str) (l l' : List Str) :
    sectionAfter name (l ++ l') = sectionAfter (sectionAfter name l) l' := by
  rw [sectionAfter, headers_append, List.getLast?_append, sectionAfter, sectionAfter]
  rcases (headers l').getLast? with _ | last <;> rfl

theorem assignments_append (name : Str) (l l' : List Str) : assignments name (l ++ l') =
    assignments name l ++ assignments (sectionAfter name l) l' := by
  induction l generalizing name with
  | nil => rfl
  | cons line l ih =>
    rw [List.cons_append, assignments, assignments, sectionAfter_cons]
    rcases classify line with next | _ | k
    · exact ih next
    · exact ih name
    · show _ :: assignments name (l ++ l') = _ :: (assignments name l ++ _)
      rw [ih name]

/-- Nothing but its value is assigned to what is wanted. -/
def Right (wanted : Wanted) (a : List ((Str × Str) × Str)) : Prop :=
  ∀ x v, (x, v) ∈ a → ∀ w, wanted.lookup x = some w → v = w

theorem right_append {a b : List ((Str × Str) × Str)} (ha : Right wanted a) (hb : Right wanted b) :
    Right wanted (a ++ b) := fun x v h => (List.mem_append.mp h).elim (ha x v) (hb x v)

/-! ## What is missing in a section -/

/-- Every wanted key can be read back. -/
def AllWritable (wanted : Wanted) : Prop := ∀ e ∈ wanted, Writable e

theorem AllWritable.tail {e : (Str × Str) × Str} (h : AllWritable (e :: ws)) : AllWritable ws :=
  fun d hd => h d (List.mem_cons_of_mem _ hd)

theorem flushSection_cons_pos (h : (e.1.1 == name && !done e.1) = true) (ws : Wanted) :
    flushSection name (e :: ws) done =
      (lineOf e :: (flushSection name ws (mark done e.1)).1, (flushSection name ws (mark done e.1)).2) := by
  rw [flushSection, if_pos h]

theorem flushSection_cons_neg (h : (e.1.1 == name && !done e.1) = false) (ws : Wanted) :
    flushSection name (e :: ws) done = flushSection name ws done := by
  rw [flushSection, if_neg (by rw [h]; exact Bool.false_ne_true)]

theorem mark_of_done (h : done x = true) (y : Str × Str) : mark done y x = true := by
  rw [mark, h, Bool.or_true]

theorem mark_self (done : Done) (x : Str × Str) : mark done x x = true := by
  rw [mark, beq_self_eq_true, Bool.true_or]

theorem flushSection_mono (h : done x = true) : (flushSection name ws done).2 x = true := by
  induction ws generalizing done with
  | nil => exact h
  | cons e ws ih =>
    rcases hif : e.1.1 == name && !done e.1 with _ | _
    · rw [flushSection_cons_neg hif]
      exact ih h
    · rw [flushSection_cons_pos hif]
      exact ih (mark_of_done h _)

/-- Afterwards all that is wanted in the section is done. -/
theorem flushSection_done (he : e ∈ ws) (hname : e.1.1 = name) : (flushSection name ws done).2 e.1 = true := by
  induction ws generalizing done with
  | nil => cases he
  | cons d ws ih =>
    rcases hif : d.1.1 == name && !done d.1 with _ | _
    · rw [flushSection_cons_neg hif]
      rcases List.mem_cons.mp he with rfl | he
      · rw [hname, beq_self_eq_true, Bool.true_and, Bool.not_eq_false'] at hif
        exact flushSection_mono hif
      · exact ih he
    · rw [flushSection_cons_pos hif]
      rcases List.mem_cons.mp he with rfl | he
      · exact flushSection_mono (mark_self done _)
      · exact ih he

/-- With all of it done before, nothing is added. -/
theorem flushSection_nothing (h : ∀ e ∈ ws, e.1.1 = name → done e.1 = true) :
    flushSection name ws done = ([], done) := by
  induction ws with
  | nil => rfl
  | cons e ws ih =>
    have hif : (e.1.1 == name && !done e.1) = false := by
      by_cases hname : e.1.1 = name
      · rw [h e List.mem_cons_self hname, Bool.not_true, Bool.and_false]
      · rw [beq_eq_false_iff_ne.mpr hname, Bool.false_and]
    rw [flushSection_cons_neg hif]
    exact ih fun d hd => h d (List.mem_cons_of_mem _ hd)

theorem mem_flushSection (h : line ∈ (flushSection name ws done).1) :
    ∃ e ∈ ws, e.1.1 = name ∧ line = lineOf e := by
  induction ws generalizing done with
  | nil => cases h
  | cons e ws ih =>
    rcases hif : e.1.1 == name && !done e.1 with _ | _
    · rw [flushSection_cons_neg hif] at h
      obtain ⟨d, hd, hline⟩ := ih h
      exact ⟨d, List.mem_cons_of_mem _ hd, hline⟩
    · rw [flushSection_cons_pos hif] at h
      rcases List.mem_cons.mp h with rfl | h
      · rw [Bool.and_eq_true, beq_iff_eq] at hif
        exact ⟨e, List.mem_cons_self, hif.1, rfl⟩
      · obtain ⟨d, hd, hline⟩ := ih h
        exact ⟨d, List.mem_cons_of_mem _ hd, hline⟩

theorem headers_flushSection (hws : AllWritable ws) : headers (flushSection name ws done).1 = [] := by
  rw [headers, List.filterMap_eq_nil_iff]
  intro line hline
  obtain ⟨e, he, -, rfl⟩ := mem_flushSection hline
  rw [classify_lineOf (hws e he)]

/-- What is added is assigned, and no more is done than that. -/
theorem assignments_flushSection (hws : AllWritable ws) (done : Done) :
    (∀ a ∈ assignments name (flushSection name ws done).1, a ∈ ws) ∧
      ∀ x, (flushSection name ws done).2 x = true → done x = true ∨
        ∃ v, (x, v) ∈ assignments name (flushSection name ws done).1 := by
  induction ws generalizing done with
  | nil => exact ⟨fun _ h => (nomatch h), fun _ h => .inl h⟩
  | cons e ws ih =>
    rcases hif : e.1.1 == name && !done e.1 with _ | _
    · rw [flushSection_cons_neg hif]
      obtain ⟨hmem, hdone⟩ := ih hws.tail done
      exact ⟨fun a ha => List.mem_cons_of_mem _ (hmem a ha), hdone⟩
    · obtain ⟨hmem, hdone⟩ := ih hws.tail (mark done e.1)
      have he := hws e List.mem_cons_self
      rw [flushSection_cons_pos hif]
      rw [Bool.and_eq_true, beq_iff_eq] at hif
      have hfirst : assignments name (lineOf e :: (flushSection name ws (mark done e.1)).1) =
          e :: assignments name (flushSection name ws (mark done e.1)).1 := by
        rw [assignments, classify_lineOf he]
        simp only
        rw [valueBehind_lineOf he, ← hif.1]
      rw [hfirst]
      refine ⟨fun a ha => ?_, fun x hx => ?_⟩
      · rcases List.mem_cons.mp ha with rfl | ha
        · exact List.mem_cons_self
        · exact List.mem_cons_of_mem _ (hmem a ha)
      · rcases hdone x hx with hold | ⟨v, hv⟩
        · rw [mark, Bool.or_eq_true, beq_iff_eq] at hold
          rcases hold with rfl | hold
          · exact .inr ⟨e.2, List.mem_cons_self⟩
          · exact .inl hold
        · exact .inr ⟨v, List.mem_cons_of_mem _ hv⟩

/-! ## The loop over the lines -/

theorem mergeLines_header {next : Str} (h : classify line = .header next) (rest : List Str) :
    mergeLines wanted name done (line :: rest) =
      ((flushSection name wanted done).1 ++
          line :: (mergeLines wanted next (flushSection name wanted done).2 rest).1,
        (mergeLines wanted next (flushSection name wanted done).2 rest).2) := by
  rw [mergeLines, h]

theorem mergeLines_note (h : classify line = .note) (rest : List Str) :
    mergeLines wanted name done (line :: rest) =
      (line :: (mergeLines wanted name done rest).1, (mergeLines wanted name done rest).2) := by
  rw [mergeLines, h]

theorem mergeLines_wanted (h : classify line = .key k) (hv : wanted.lookup (name, k) = some v)
    (rest : List Str) : mergeLines wanted name done (line :: rest) =
      (assignment (k, v) :: (mergeLines wanted name (mark done (name, k)) rest).1,
        (mergeLines wanted name (mark done (name, k)) rest).2) := by
  rw [mergeLines, h]
  simp only
  rw [hv]

theorem mergeLines_other (h : classify line = .key k) (hv : wanted.lookup (name, k) = none)
    (rest : List Str) : mergeLines wanted name done (line :: rest) =
      (line :: (mergeLines wanted name done rest).1, (mergeLines wanted name done rest).2) := by
  rw [mergeLines, h]
  simp only
  rw [hv]

theorem AllWritable.of_lookup (h : AllWritable wanted) (hv : wanted.lookup (name, k) = some v) :
    Writable ((name, k), v) := h _ (Assoc.mem_of_lookup hv)

theorem mergeLines_append (wanted : Wanted) (name : Str) (done : Done) (l l' : List Str) :
    mergeLines wanted name done (l ++ l') =
      ((mergeLines wanted name done l).1 ++
          (mergeLines wanted (mergeLines wanted name done l).2.1 (mergeLines wanted name done l).2.2 l').1,
        (mergeLines wanted (mergeLines wanted name done l).2.1 (mergeLines wanted name done l).2.2 l').2) := by
  induction l generalizing name done with
  | nil => rfl
  | cons line l ih =>
    rw [List.cons_append]
    rcases hc : classify line with next | _ | k
    · rw [mergeLines_header hc, mergeLines_header hc, ih]
      simp
    · rw [mergeLines_note hc, mergeLines_note hc, ih]
      simp
    · rcases hv : wanted.lookup (name, k) with _ | v
      · rw [mergeLines_other hc hv, mergeLines_other hc hv, ih]
        simp
      · rw [mergeLines_wanted hc hv, mergeLines_wanted hc hv, ih]
        simp

/-- The loop ends in the last section, and writes the headers there were. -/
theorem mergeLines_sections (hw : AllWritable wanted) (name : Str) (done : Done) (l : List Str) :
    (mergeLines wanted name done l).2.1 = sectionAfter name l ∧
      headers (mergeLines wanted name done l).1 = headers l := by
  induction l generalizing name done with
  | nil => exact ⟨rfl, rfl⟩
  | cons line l ih =>
    have hcons : headers (line :: l) = headers [line] ++ headers l := headers_append [line] l
    rcases hc : classify line with next | _ | k
    · obtain ⟨hlast, hheaders⟩ := ih next (flushSection name wanted done).2
      rw [mergeLines_header hc, sectionAfter_cons, hc, headers_append, headers_flushSection hw]
      refine ⟨hlast, ?_⟩
      rw [List.nil_append, headers, List.filterMap_cons, hc, headers, List.filterMap_cons, hc]
      exact congrArg (List.cons next) hheaders
    · obtain ⟨hlast, hheaders⟩ := ih name done
      rw [mergeLines_note hc, sectionAfter_cons, hc]
      refine ⟨hlast, ?_⟩
      rw [headers, List.filterMap_cons, hc, headers, List.filterMap_cons, hc]
      exact hheaders
    · rcases hv : wanted.lookup (name, k) with _ | v
      · obtain ⟨hlast, hheaders⟩ := ih name done
        rw [mergeLines_other hc hv, sectionAfter_cons, hc]
        refine ⟨hlast, ?_⟩
        rw [headers, List.filterMap_cons, hc, headers, List.filterMap_cons, hc]
        exact hheaders
      · obtain ⟨hlast, hheaders⟩ := ih name (mark done (name, k))
        have hline : classify (assignment (k, v)) = .key k := classify_lineOf (hw.of_lookup hv)
        rw [mergeLines_wanted hc hv, sectionAfter_cons, hc]
        refine ⟨hlast, ?_⟩
        rw [headers, List.filterMap_cons, hline, headers, List.filterMap_cons, hc]
        exact hheaders

theorem sectionAfter_of_headers (h : headers l = []) (name : Str) : sectionAfter name l = name := by
  rw [sectionAfter, h]
  rfl

/-- What is missing, and then the header it stands before. -/
theorem assignments_missing {next : Str} (hw : AllWritable wanted) (hc : classify line = .header next)
    (name : Str) (done : Done) (l : List Str) :
    assignments name ((flushSection name wanted done).1 ++ line :: l) =
      assignments name (flushSection name wanted done).1 ++ assignments next l := by
  rw [assignments_append, sectionAfter_of_headers (headers_flushSection hw)]
  refine congrArg _ ?_
  rw [assignments, hc]

theorem right_flushSection (hw : AllWritable wanted) (hnodup : (wanted.map Prod.fst).Nodup) (name : Str)
    (done : Done) : Right wanted (assignments name (flushSection name wanted done).1) := by
  intro x v h w hlook
  have hmem := (assignments_flushSection hw done).1 _ h
  exact Option.some.inj ((Assoc.lookup_of_mem hnodup hmem).symm.trans hlook)

/-- Among the lines written nothing else is assigned to what is wanted, and all that is done is assigned. -/
theorem mergeLines_assignments (hw : AllWritable wanted) (hnodup : (wanted.map Prod.fst).Nodup) (name : Str)
    (done : Done) (l : List Str) : Right wanted (assignments name (mergeLines wanted name done l).1) ∧
      ∀ x, (mergeLines wanted name done l).2.2 x = true → done x = true ∨
        ∃ v, (x, v) ∈ assignments name (mergeLines wanted name done l).1 := by
  induction l generalizing name done with
  | nil => exact ⟨fun _ _ h => (nomatch h), fun _ h => .inl h⟩
  | cons line l ih =>
    rcases hc : classify line with next | _ | k
    · obtain ⟨hright, hdone⟩ := ih next (flushSection name wanted done).2
      rw [mergeLines_header hc, assignments_missing hw hc]
      refine ⟨right_append (right_flushSection hw hnodup name done) hright, fun x hx => ?_⟩
      rcases hdone x hx with hflush | ⟨v, hv⟩
      · rcases (assignments_flushSection hw done).2 x hflush with hold | ⟨v, hv⟩
        · exact .inl hold
        · exact .inr ⟨v, List.mem_append_left _ hv⟩
      · exact .inr ⟨v, List.mem_append_right _ hv⟩
    · rw [mergeLines_note hc, assignments, hc]
      exact ih name done
    · rcases hv : wanted.lookup (name, k) with _ | v
      · obtain ⟨hright, hdone⟩ := ih name done
        rw [mergeLines_other hc hv, assignments, hc]
        refine ⟨fun x w hx u hlook => ?_, fun x hx => (hdone x hx).imp_right fun ⟨w, hmem⟩ =>
          ⟨w, List.mem_cons_of_mem _ hmem⟩⟩
        rcases List.mem_cons.mp hx with heq | hx
        · rw [(Prod.mk.inj heq).1, hv] at hlook
          cases hlook
        · exact hright x w hx u hlook
      · obtain ⟨hright, hdone⟩ := ih name (mark done (name, k))
        have hwritable := hw.of_lookup hv
        have hline : classify (assignment (k, v)) = .key k := classify_lineOf hwritable
        have hvalue : valueBehind k (assignment (k, v)) = v := valueBehind_lineOf hwritable
        rw [mergeLines_wanted hc hv, assignments, hline]
        simp only [hvalue]
        refine ⟨fun x w hx u hlook => ?_, fun x hx => ?_⟩
        · rcases List.mem_cons.mp hx with heq | hx
          · obtain ⟨rfl, rfl⟩ := Prod.mk.inj heq
            exact Option.some.inj (hv.symm.trans hlook)
          · exact hright x w hx u hlook
        · rcases hdone x hx with hmark | ⟨w, hmem⟩
          · rw [mark, Bool.or_eq_true, beq_iff_eq] at hmark
            rcases hmark with rfl | hold
            · exact .inr ⟨v, List.mem_cons_self⟩
            · exact .inl hold
          · exact .inr ⟨w, List.mem_cons_of_mem _ hmem⟩

theorem mergeLines_mono (h : done x = true) (name : Str) (l : List Str) :
    (mergeLines wanted name done l).2.2 x = true := by
  induction l generalizing name done with
  | nil => exact h
  | cons line l ih =>
    rcases hc : classify line with next | _ | k
    · rw [mergeLines_header hc]
      exact ih (flushSection_mono h) next
    · rw [mergeLines_note hc]
      exact ih h name
    · rcases hv : wanted.lookup (name, k) with _ | v
      · rw [mergeLines_other hc hv]
        exact ih h name
      · rw [mergeLines_wanted hc hv]
        exact ih (mark_of_done h _) name

/-- At the end of the file all that is wanted in its sections is done. -/
theorem mergeLines_done (done : Done) (he : e ∈ wanted) (hname : e.1.1 ∈ name :: headers l) :
    (flushSection (mergeLines wanted name done l).2.1 wanted (mergeLines wanted name done l).2.2).2 e.1 = true := by
  induction l generalizing name done with
  | nil => exact flushSection_done he (List.mem_singleton.mp hname)
  | cons line l ih =>
    rcases hc : classify line with next | _ | k
    · have hheaders : headers (line :: l) = next :: headers l := by
        rw [headers, List.filterMap_cons, hc]
        rfl
      rw [mergeLines_header hc]
      rw [hheaders] at hname
      rcases List.mem_cons.mp hname with hfirst | hmore
      · exact flushSection_mono (mergeLines_mono (flushSection_done he hfirst) next l)
      · exact ih _ hmore
    · have hheaders : headers (line :: l) = headers l := by
        rw [headers, List.filterMap_cons, hc]
        rfl
      rw [mergeLines_note hc]
      exact ih _ (hheaders ▸ hname)
    · have hheaders : headers (line :: l) = headers l := by
        rw [headers, List.filterMap_cons, hc]
        rfl
      rcases hv : wanted.lookup (name, k) with _ | v
      · rw [mergeLines_other hc hv]
        exact ih _ (hheaders ▸ hname)
      · rw [mergeLines_wanted hc hv]
        exact ih _ (hheaders ▸ hname)

/-- What does not assign a wanted key is kept. -/
theorem mergeLines_kept (wanted : Wanted) (name : Str) (done : Done) (l : List Str) :
    (others wanted name l).Sublist (mergeLines wanted name done l).1 := by
  induction l generalizing name done with
  | nil => exact List.Sublist.refl _
  | cons line l ih =>
    rcases hc : classify line with next | _ | k
    · rw [mergeLines_header hc, others, hc]
      exact ((ih next _).cons_cons line).trans (List.sublist_append_right _ _)
    · rw [mergeLines_note hc, others, hc]
      exact (ih name done).cons_cons line
    · rw [others, hc]
      rcases hv : wanted.lookup (name, k) with _ | v
      · rw [mergeLines_other hc hv]
        simp only [hv]
        exact (ih name done).cons_cons line
      · rw [mergeLines_wanted hc hv]
        simp only [hv]
        exact (ih name _).cons _

/-! ## The file that is written -/

/-- What was added to a section is taken for what is wanted there. -/
theorem mergeLines_missing (hw : AllWritable wanted) (hnodup : (wanted.map Prod.fst).Nodup)
    (hws : ∀ e ∈ ws, e ∈ wanted) (name : Str) (done : Done) (l : List Str) :
    mergeLines wanted name done ((flushSection name ws done).1 ++ l) =
      ((flushSection name ws done).1 ++ (mergeLines wanted name (flushSection name ws done).2 l).1,
        (mergeLines wanted name (flushSection name ws done).2 l).2) := by
  induction ws generalizing done with
  | nil => rfl
  | cons e ws ih =>
    have hmore : ∀ d ∈ ws, d ∈ wanted := fun d hd => hws d (List.mem_cons_of_mem _ hd)
    rcases hif : e.1.1 == name && !done e.1 with _ | _
    · rw [flushSection_cons_neg hif]
      exact ih hmore done
    · rw [flushSection_cons_pos hif]
      rw [Bool.and_eq_true, beq_iff_eq] at hif
      have he := hws e List.mem_cons_self
      have hv : wanted.lookup (name, e.1.2) = some e.2 := by
        rw [← hif.1]
        exact Assoc.lookup_of_mem hnodup he
      have hmark : mark done (name, e.1.2) = mark done e.1 := by rw [← hif.1]
      rw [List.cons_append, mergeLines_wanted (classify_lineOf (hw e he)) hv, hmark, ih hmore]
      rfl

/-- The lines that were written are written again. -/
theorem mergeLines_again (hw : AllWritable wanted) (hnodup : (wanted.map Prod.fst).Nodup) (name : Str)
    (done : Done) (l : List Str) : mergeLines wanted name done (mergeLines wanted name done l).1 =
      mergeLines wanted name done l := by
  induction l generalizing name done with
  | nil => rfl
  | cons line l ih =>
    rcases hc : classify line with next | _ | k
    · have hnothing : flushSection name wanted (flushSection name wanted done).2 =
          ([], (flushSection name wanted done).2) :=
        flushSection_nothing fun e he hname => flushSection_done he hname
      rw [mergeLines_header hc, mergeLines_missing hw hnodup (fun _ he => he), mergeLines_header hc, hnothing,
        ih next]
      rfl
    · rw [mergeLines_note hc, mergeLines_note hc, ih name]
    · rcases hv : wanted.lookup (name, k) with _ | v
      · rw [mergeLines_other hc hv, mergeLines_other hc hv, ih name]
      · have hline : classify (assignment (k, v)) = .key k := classify_lineOf (hw.of_lookup hv)
        rw [mergeLines_wanted hc hv, mergeLines_wanted hline hv, ih name]

/-- With all of it done, no section is appended. -/
theorem appendSections_nothing {seen : List Str} (h : ∀ e ∈ ws, done e.1 = true) :
    appendSections wanted seen done ws = [] := by
  induction ws with
  | nil => rfl
  | cons e ws ih =>
    rw [appendSections, h e List.mem_cons_self, Bool.true_or, if_pos rfl]
    exact ih fun d hd => h d (List.mem_cons_of_mem _ hd)

/-- So are the sections that were appended, behind one with nothing missing; and with them all is done. -/
theorem mergeLines_appended (hw : AllWritable wanted) (hnodup : (wanted.map Prod.fst).Nodup)
    (hws : ∀ e ∈ ws, e ∈ wanted) {seen : List Str} (hseen : ∀ e ∈ wanted, e.1.1 ∈ seen → done e.1 = true)
    (hname : ∀ e ∈ wanted, e.1.1 = name → done e.1 = true) :
    ∃ last done', mergeLines wanted name done (appendSections wanted seen done ws) =
        (appendSections wanted seen done ws, last, done') ∧
      flushSection last wanted done' = ([], done') ∧ (∀ x, done x = true → done' x = true) ∧
        ∀ e ∈ ws, done' e.1 = true := by
  induction ws generalizing name done seen with
  | nil => exact ⟨name, done, rfl, flushSection_nothing hname, fun _ h => h, fun _ h => (nomatch h)⟩
  | cons e ws ih =>
    have hmore : ∀ d ∈ ws, d ∈ wanted := fun d hd => hws d (List.mem_cons_of_mem _ hd)
    have he := hws e List.mem_cons_self
    rw [appendSections]
    split
    · next hskip =>
      obtain ⟨last, done', hrun, hflush, hkeep, hall⟩ := ih hmore hseen hname
      have hdone : done e.1 = true := by
        rw [Bool.or_eq_true, List.contains_iff_mem] at hskip
        exact hskip.elim id fun hmem => hseen e he hmem
      refine ⟨last, done', hrun, hflush, hkeep, fun d hd => ?_⟩
      rcases List.mem_cons.mp hd with rfl | hd
      · exact hkeep _ hdone
      · exact hall d hd
    · have hsection : ∀ d ∈ wanted, d.1.1 = e.1.1 → (flushSection e.1.1 wanted done).2 d.1 = true :=
        fun d hd hsame => flushSection_done hd hsame
      have hseen' : ∀ d ∈ wanted, d.1.1 ∈ e.1.1 :: seen → (flushSection e.1.1 wanted done).2 d.1 = true := by
        intro d hd hmem
        rcases List.mem_cons.mp hmem with hsame | hmem
        · exact hsection d hd hsame
        · exact flushSection_mono (hseen d hd hmem)
      obtain ⟨last, done', hrun, hflush, hkeep, hall⟩ := ih hmore hseen' hsection
      refine ⟨last, done', ?_, hflush, fun x hx => hkeep x (flushSection_mono hx), fun d hd => ?_⟩
      · simp only
        rw [mergeLines_header (classify_headerOf (hw e he).1), flushSection_nothing hname,
          mergeLines_missing hw hnodup (fun _ h => h), hrun]
        rfl
      · rcases List.mem_cons.mp hd with rfl | hd
        · exact hkeep _ (hsection d he rfl)
        · exact hall d hd

theorem mergedLines_eq (text : Str) (values : Values) :
    ∃ out done, mergeLines (wantedOf values) [] (fun _ => false) (Properties.readLines text) = (out, done) ∧
      mergedLines text values = out ++ (flushSection done.1 (wantedOf values) done.2).1 ++
        appendSections (wantedOf values) ([] :: headers (out ++ (flushSection done.1 (wantedOf values) done.2).1))
          (flushSection done.1 (wantedOf values) done.2).2 (wantedOf values) :=
  ⟨_, _, rfl, rfl⟩

/-- Reading what was written, the loop finds all that is wanted and changes nothing. -/
theorem mergeLines_mergedLines (hw : AllWritable (wantedOf values)) (hmap : (values.map Prod.fst).Nodup)
    (text : Str) : ∃ last done, mergeLines (wantedOf values) [] (fun _ => false) (mergedLines text values) =
        (mergedLines text values, last, done) ∧
      flushSection last (wantedOf values) done = ([], done) ∧ ∀ e ∈ wantedOf values, done e.1 = true := by
  have hnodup := nodup_wantedOf hmap
  obtain ⟨out, ⟨last, done⟩, hrun, heq⟩ := mergedLines_eq text values
  obtain ⟨hlast, hheaders⟩ := mergeLines_sections hw [] (fun _ => false) (Properties.readLines text)
  have hagain := mergeLines_again hw hnodup [] (fun _ => false) (Properties.readLines text)
  rw [hrun] at hlast hheaders hagain
  simp only at hlast hheaders hagain heq
  -- the sections there are have nothing missing any more
  have hdone : ∀ e ∈ wantedOf values, e.1.1 ∈ [] :: headers (Properties.readLines text) →
      (flushSection last (wantedOf values) done).2 e.1 = true := by
    intro e he hmem
    have := mergeLines_done (fun _ => false) he hmem
    rwa [hrun] at this
  have hseen : headers (out ++ (flushSection last (wantedOf values) done).1) =
      headers (Properties.readLines text) := by
    rw [headers_append, hheaders, headers_flushSection hw, List.append_nil]
  obtain ⟨last', done', hrun', hflush, -, hall⟩ := mergeLines_appended hw hnodup (fun _ h => h)
    (hseen ▸ hdone) (fun e he hname => flushSection_done he hname)
  refine ⟨last', done', ?_, hflush, hall⟩
  rw [heq, List.append_assoc, mergeLines_append, hagain, mergeLines_missing hw hnodup (fun _ h => h), hrun']

/-! ## The file, read back -/

/-- The lines end with one that is not empty, or there is just an empty one. -/
def Ends (l : List Str) : Prop := l = [[]] ∨ ∃ before last, l = before ++ [last] ∧ last ≠ []

theorem ends_append (h : l = [] ∨ Ends l) (hout : ∀ line ∈ out, line ≠ []) : l ++ out = [] ∨ Ends (l ++ out) := by
  rcases List.eq_nil_or_concat' out with rfl | ⟨before, last, rfl⟩
  · rwa [List.append_nil]
  · right
    right
    exact ⟨l ++ before, last, (List.append_assoc _ _ _).symm,
      hout last (List.mem_append_right _ List.mem_cons_self)⟩

theorem ends_mergeLines (h : Ends l) : Ends (mergeLines wanted name done l).1 := by
  rcases h with rfl | ⟨before, last, rfl, hlast⟩
  · left
    rw [mergeLines_note (by decide +kernel)]
    rfl
  · right
    rw [mergeLines_append]
    rcases hc : classify last with next | _ | k
    · rw [mergeLines_header hc]
      exact ⟨_, last, (List.append_assoc _ _ _).symm, hlast⟩
    · rw [mergeLines_note hc]
      exact ⟨_, last, rfl, hlast⟩
    · rcases hv : wanted.lookup ((mergeLines wanted name done before).2.1, k) with _ | v
      · rw [mergeLines_other hc hv]
        exact ⟨_, last, rfl, hlast⟩
      · rw [mergeLines_wanted hc hv]
        exact ⟨_, assignment (k, v), rfl, Properties.assignment_ne_nil _⟩

theorem mem_mergeLines (h : line ∈ (mergeLines wanted name done l).1) :
    line ∈ l ∨ ∃ e ∈ wanted, line = lineOf e := by
  induction l generalizing name done with
  | nil => cases h
  | cons first l ih =>
    have hmore : (line ∈ l ∨ ∃ e ∈ wanted, line = lineOf e) →
        line ∈ first :: l ∨ ∃ e ∈ wanted, line = lineOf e := Or.imp_left (List.mem_cons_of_mem _)
    rcases hc : classify first with next | _ | k
    · rw [mergeLines_header hc, List.mem_append, List.mem_cons] at h
      rcases h with h | rfl | h
      · obtain ⟨e, he, -, rfl⟩ := mem_flushSection h
        exact .inr ⟨e, he, rfl⟩
      · exact .inl List.mem_cons_self
      · exact hmore (ih h)
    · rw [mergeLines_note hc, List.mem_cons] at h
      rcases h with rfl | h
      · exact .inl List.mem_cons_self
      · exact hmore (ih h)
    · rcases hv : wanted.lookup (name, k) with _ | v
      · rw [mergeLines_other hc hv, List.mem_cons] at h
        rcases h with rfl | h
        · exact .inl List.mem_cons_self
        · exact hmore (ih h)
      · rw [mergeLines_wanted hc hv, List.mem_cons] at h
        rcases h with rfl | h
        · exact .inr ⟨((name, k), v), Assoc.mem_of_lookup hv, rfl⟩
        · exact hmore (ih h)

theorem mem_appendSections {seen : List Str} (h : line ∈ appendSections wanted seen done ws) :
    (∃ e ∈ ws, line = headerOf e.1.1) ∨ ∃ e ∈ wanted, line = lineOf e := by
  induction ws generalizing done seen with
  | nil => cases h
  | cons e ws ih =>
    have hmore : ((∃ d ∈ ws, line = headerOf d.1.1) ∨ ∃ d ∈ wanted, line = lineOf d) →
        (∃ d ∈ e :: ws, line = headerOf d.1.1) ∨ ∃ d ∈ wanted, line = lineOf d :=
      Or.imp_left fun ⟨d, hd, hline⟩ => ⟨d, List.mem_cons_of_mem _ hd, hline⟩
    rw [appendSections] at h
    split at h
    · exact hmore (ih h)
    · rcases List.mem_cons.mp h with rfl | h
      · exact .inl ⟨e, List.mem_cons_self, rfl⟩
      rcases List.mem_append.mp h with h | h
      · obtain ⟨d, hd, -, rfl⟩ := mem_flushSection h
        exact .inr ⟨d, hd, rfl⟩
      · exact hmore (ih h)

theorem value_of_mem_wantedOf (h : e ∈ wantedOf values) : ∃ d ∈ values, d.2 = e.2 := by
  obtain ⟨d, hd, rfl⟩ := List.mem_map.mp h
  exact ⟨d, (Properties.perm_sortedEntries values).mem_iff.mpr hd, rfl⟩

theorem forall_mem_wantedOf {P : (Str × Str) × Str → Prop} :
    (∀ e ∈ wantedOf values, P e) ↔ ∀ e ∈ values, P (splitKey e.1, e.2) := by
  rw [wantedOf, List.forall_mem_map]
  exact forall_congr' fun e => imp_congr_left (Properties.perm_sortedEntries values).mem_iff.symm

theorem notMem_lineOf (h : Writable e) (hv : '\n' ∉ e.2) : '\n' ∉ lineOf e := by
  rw [lineOf, assignment, List.mem_append, not_or, List.mem_cons, not_or]
  exact ⟨fun hmem => (h.2.2.1 _ hmem).2 rfl, by decide, hv⟩

theorem notMem_headerOf (h : Writable e) : '\n' ∉ headerOf e.1.1 := by
  rw [headerOf, List.mem_cons, not_or, List.mem_append, not_or]
  exact ⟨by decide, h.2.1, by decide⟩

/-- No line that is written has a break in it. -/
theorem notMem_of_mem_mergedLines (hw : AllWritable (wantedOf values)) (hlines : ∀ e ∈ values, '\n' ∉ e.2)
    (h : line ∈ mergedLines text values) : '\n' ∉ line := by
  have hline : ∀ e ∈ wantedOf values, '\n' ∉ lineOf e := by
    intro e he
    obtain ⟨d, hd, hvalue⟩ := value_of_mem_wantedOf he
    exact notMem_lineOf (hw e he) (hvalue ▸ hlines d hd)
  rw [mergedLines] at h
  simp only at h
  rcases List.mem_append.mp h with h | h
  · rcases List.mem_append.mp h with h | h
    · rcases mem_mergeLines h with h | ⟨e, he, rfl⟩
      · exact Properties.notMem_of_mem_readLines h
      · exact hline e he
    · obtain ⟨e, he, -, rfl⟩ := mem_flushSection h
      exact hline e he
  · rcases mem_appendSections h with ⟨e, he, rfl⟩ | ⟨e, he, rfl⟩
    · exact notMem_headerOf (hw e he)
    · exact hline e he

theorem ends_mergedLines (text : Str) (values : Values) :
    (text = [] ∧ mergedLines text values = []) ∨ Ends (mergedLines text values) := by
  obtain ⟨out, ⟨last, done⟩, hrun, heq⟩ := mergedLines_eq text values
  have hflush : ∀ line ∈ (flushSection last (wantedOf values) done).1, line ≠ [] := by
    intro line hline
    obtain ⟨e, -, -, rfl⟩ := mem_flushSection hline
    exact Properties.assignment_ne_nil _
  have happend : ∀ line ∈ appendSections (wantedOf values)
      ([] :: headers (out ++ (flushSection last (wantedOf values) done).1))
      (flushSection last (wantedOf values) done).2 (wantedOf values), line ≠ [] := by
    intro line hline
    rcases mem_appendSections hline with ⟨e, -, rfl⟩ | ⟨e, -, rfl⟩
    · exact List.cons_ne_nil _ _
    · exact Properties.assignment_ne_nil _
  have hout : out = (mergeLines (wantedOf values) [] (fun _ => false) (Properties.readLines text)).1 := by
    rw [hrun]
  by_cases htext : text = []
  · subst htext
    have hempty : out = [] := hout
    rcases ends_append (ends_append (.inl hempty) hflush) happend with hnil | hends
    · exact .inl ⟨rfl, heq.trans hnil⟩
    · exact .inr (heq ▸ hends)
  · have hread : Ends (Properties.readLines text) := by
      rw [Properties.readLines, if_neg htext]
      exact lines_ends text
    have hends : Ends out := hout ▸ ends_mergeLines hread
    rcases ends_append (ends_append (.inr hends) hflush) happend with hnil | hends'
    · -- a file with a line keeps one
      rw [List.append_assoc, List.append_eq_nil_iff] at hnil
      rcases hends with hone | ⟨before, line, hlast, -⟩
      · rw [hnil.1] at hone
        cases hone
      · rw [hnil.1] at hlast
        exact absurd hlast.symm (List.append_ne_nil_of_right_ne_nil _ (List.cons_ne_nil _ _))
    · exact .inr (heq ▸ hends')

/-- The lines that were written are read back, or nothing was there to be written. -/
theorem readLines_mergeINI (hw : AllWritable (wantedOf values)) (hmap : (values.map Prod.fst).Nodup)
    (hlines : ∀ e ∈ values, '\n' ∉ e.2) (text : Str) :
    Properties.readLines (mergeINI text values) = mergedLines text values ∨ (text = [] ∧ values = []) := by
  have hwrite : Properties.readLines (mergeINI text values) = lines (mergeINI text values) :=
    if_neg (unlines_ne_nil _)
  rcases ends_mergedLines text values with ⟨rfl, hnil⟩ | hends
  · right
    obtain ⟨last, done, hrun, -, hall⟩ := mergeLines_mergedLines hw hmap []
    rw [hnil] at hrun
    have hdone : done = fun _ => false := (Prod.mk.inj (Prod.mk.inj hrun).2).2.symm
    have hwanted : wantedOf values = [] := by
      refine List.eq_nil_iff_forall_not_mem.mpr fun e he => ?_
      have := hall e he
      rw [hdone] at this
      cases this
    have hsorted := Properties.perm_sortedEntries values
    rw [List.map_eq_nil_iff.mp hwanted] at hsorted
    exact ⟨rfl, hsorted.eq_nil⟩
  · left
    rw [hwrite]
    exact lines_unlines (fun line hline => notMem_of_mem_mergedLines hw hlines hline) hends

/-! ## What comes back from a line -/

/-- What a line assigns can be written again. -/
theorem writable_of_classify (hname : trimBlanks name = name) (hbreak : '\n' ∉ name) (hline : '\n' ∉ line)
    (h : classify line = .key k) : Writable ((name, k), valueBehind k line) := by
  rw [classify] at h
  split at h
  · cases h
  next hheader =>
  split at h
  · cases h
  next hno =>
  simp only [Bool.or_eq_true, not_or, Bool.not_eq_true] at hno
  have hkey : propertyKey (trimBlanks line) = k := Kind.key.inj h
  obtain ⟨more, hmore⟩ : ∃ more, trimBlanks line = k ++ more := by
    rw [← hkey, propertyKey]
    exact ⟨_, List.takeWhile_append_dropWhile.symm⟩
  have hhead : ∀ c, [c].isPrefixOf (trimBlanks line) = false → [c].isPrefixOf k = false := by
    intro c hc
    rw [isPrefixOf_singleton] at hc ⊢
    rcases k with _ | ⟨a, k⟩
    · rfl
    · rw [hmore] at hc
      exact hc
  refine ⟨hname, hbreak, fun c hc => ⟨?_, ?_⟩, ?_, hhead '#' hno.1.2, hhead ';' hno.2, ?_⟩
  · have := List.mem_takeWhile_imp (hkey ▸ hc : c ∈ propertyKey (trimBlanks line))
    rwa [Bool.not_eq_true'] at this
  · rintro rfl
    exact hline (mem_of_mem_trimBlanks (hmore ▸ List.mem_append_left _ hc))
  · by_contra hspace
    rw [Bool.not_eq_false] at hspace
    have := isSpace_append hspace more
    rw [← hmore, isSpace_trimBlanks] at this
    cases this
  · -- with the value the line would end in a bracket, and be a header
    rintro ⟨hopen, hclose⟩
    refine hheader (Bool.and_eq_true_iff.mpr ⟨?_, ?_⟩)
    · by_contra hc
      exact absurd hopen (Bool.eq_false_iff.mp (hhead '[' (Bool.not_eq_true _ ▸ hc)))
    · obtain ⟨y, hy⟩ := (isSuffixOf_singleton _ _).mp hclose
      obtain ⟨b, hvalue, hblank⟩ := exists_trimRight (valueBehind k line)
      rw [show trimRight (valueBehind k line) = y ++ [']'] from hy, List.append_assoc] at hvalue
      have hleft : ((chars line).dropWhile isSpace).flatten =
          (((chars line).dropWhile isSpace).flatten.take (k.length + 1) ++ y) ++ ']' :: b := by
        rw [List.append_assoc]
        exact (List.take_append_drop _ _).symm.trans (congrArg _ hvalue)
      rw [trimBlanks_eq_trimRight, hleft, trimRight_append (by decide) (by decide), hblank]
      exact (isSuffixOf_singleton _ _).mpr ⟨_, rfl⟩

theorem writable_of_mem_assignments (hl : ∀ line ∈ l, '\n' ∉ line) (hname : trimBlanks name = name)
    (hbreak : '\n' ∉ name) (h : e ∈ assignments name l) : Writable e := by
  induction l generalizing name with
  | nil => cases h
  | cons line l ih =>
    have hmore : ∀ d ∈ l, '\n' ∉ d := fun d hd => hl d (List.mem_cons_of_mem _ hd)
    have hline := hl line List.mem_cons_self
    rcases hc : classify line with next | _ | k
    · rw [assignments, hc] at h
      rw [classify] at hc
      split at hc
      · rw [← Kind.header.inj hc] at h
        refine ih hmore (trimBlanks_idem _) (fun hmem => ?_) h
        exact hline (mem_of_mem_trimBlanks
          (List.mem_of_mem_drop (List.mem_of_mem_dropLast (mem_of_mem_trimBlanks hmem))))
      · split at hc <;> cases hc
    · rw [assignments, hc] at h
      exact ih hmore hname hbreak h
    · rw [assignments, hc] at h
      rcases List.mem_cons.mp h with rfl | h
      · exact writable_of_classify hname hbreak hline hc
      · exact ih hmore hname hbreak h

/-! ## What is asked of a merge -/

/-- A merge does what is asked just when every wanted key comes back from the line it is written to. -/
theorem mergeINI_iff (text : Str) (hmap : (values.map Prod.fst).Nodup) (hlines : ∀ e ∈ values, '\n' ∉ e.2) :
    Merged text values ↔ ∀ e ∈ values, Writable (splitKey e.1, e.2) := by
  rw [← forall_mem_wantedOf]
  constructor
  · intro h e he
    refine writable_of_mem_assignments (fun line hline => ?_) (by rfl) (by decide) (h.wanted e he).1
    exact Properties.notMem_of_mem_readLines hline
  · intro hw
    rcases readLines_mergeINI hw hmap hlines text with hread | ⟨rfl, rfl⟩
    · have hnodup := nodup_wantedOf hmap
      obtain ⟨last, done, hrun, hflush, hall⟩ := mergeLines_mergedLines hw hmap text
      obtain ⟨hright, hdone⟩ := mergeLines_assignments hw hnodup [] (fun _ => false) (mergedLines text values)
      rw [hrun] at hright hdone
      refine ⟨fun e he => ?_, ?_, ?_⟩
      · rw [hread]
        have hlook := Assoc.lookup_of_mem hnodup he
        refine ⟨?_, fun v hv => hright e.1 v hv e.2 hlook⟩
        obtain ⟨v, hv⟩ := (hdone e.1 (hall e he)).resolve_left Bool.false_ne_true
        rwa [hright e.1 v hv e.2 hlook] at hv
      · obtain ⟨out, done', hfirst, heq⟩ := mergedLines_eq text values
        have hkept := mergeLines_kept (wantedOf values) [] (fun _ => false) (Properties.readLines text)
        rw [hfirst] at hkept
        rw [hread, heq, List.append_assoc]
        exact hkept.trans (List.sublist_append_left _ _)
      · have hagain : mergedLines (mergeINI text values) values = mergedLines text values := by
          obtain ⟨out, done', hfirst, heq⟩ := mergedLines_eq (mergeINI text values) values
          rw [hread, hrun] at hfirst
          obtain ⟨rfl, rfl⟩ := Prod.mk.inj hfirst
          rw [heq, hflush, appendSections_nothing hall, List.append_nil, List.append_nil]
        rw [mergeINI, hagain, mergeINI]
    · have hnone : wantedOf [] = [] := by decide +kernel
      refine ⟨fun e he => ?_, List.nil_sublist _, by decide +kernel⟩
      rw [hnone] at he
      cases he

/-- A file with settings in front of its sections. -/
def serverIni : Str := "name=old\n\n[server]\nport=1\n".toList

def netValues : Values := [("name".toList, "new".toList), ("server.port".toList, "9".toList), ("net.bind".toList, "0".toList)]

theorem mergeINI_net : Merged serverIni netValues :=
  (mergeINI_iff serverIni (by decide +kernel) (by decide +kernel)).mpr (by decide +kernel)

/-- A key with a blank in it, as the template schema lets through. -/
def maxPlayers : Values := [("server.max players".toList, "8".toList)]

/-- Its line is read as one of another key: the wanted one has no value, and each merge adds the line again. -/
theorem mergeINI_blank : mergeINI "[server]\n".toList maxPlayers = "[server]\nmax players=8\n".toList ∧
    mergeINI "[server]\nmax players=8\n".toList maxPlayers = "[server]\nmax players=8\nmax players=8\n".toList ∧
    ¬ Merged "[server]\n".toList maxPlayers := by
  have hfirst : mergeINI "[server]\n".toList maxPlayers = "[server]\nmax players=8\n".toList := by decide +kernel
  refine ⟨hfirst, by decide +kernel, fun h => ?_⟩
  have hagain := h.again
  rw [hfirst] at hagain
  exact absurd hagain (by decide +kernel)

end Instances.Ini
