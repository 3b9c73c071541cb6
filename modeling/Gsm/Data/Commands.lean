import Mathlib.Data.List.Basic

/-!
# Console commands

A line of console commands: a comment ends it, `;` separates its statements, and a statement is words and
quoted arguments. In quotes neither has a meaning. A word without such characters (`Word`) with a quoted
argument behind it is read as just the two of them.
-/

namespace Data.Commands

/-- White space between arguments: everything up to the space character. -/
def isBlank (c : Char) : Bool := c.toNat ≤ 0x20

/-- The line up to its comment. -/
def uncommented (quoted : Bool) : List Char → List Char
  | [] => []
  | c :: s =>
      if c == '"' then c :: uncommented (!quoted) s
      else if !quoted && ['/', '/'].isPrefixOf (c :: s) then []
      else c :: uncommented quoted s

/-- The parts between separators. -/
def statements (quoted : Bool) : List Char → List (List Char)
  | [] => [[]]
  | c :: s =>
      if c == '"' then (statements (!quoted) s).modifyHead (c :: ·)
      else if !quoted && c == ';' then [] :: statements quoted s
      else (statements quoted s).modifyHead (c :: ·)

inductive Mode where
  | between
  | word
  | quoted
deriving DecidableEq

/-- The arguments of a statement. In a word or in quotes the first of them is the rest of the one that is
being read. -/
def arguments : Mode → List Char → List (List Char)
  | .between, [] => []
  | .word, [] => [[]]
  | .quoted, [] => [[]]
  | .between, c :: s =>
      if isBlank c then arguments .between s
      else if c == '"' then arguments .quoted s
      else (arguments .word s).modifyHead (c :: ·)
  | .word, c :: s =>
      if isBlank c then [] :: arguments .between s
      else if c == '"' then [] :: arguments .quoted s
      else (arguments .word s).modifyHead (c :: ·)
  | .quoted, c :: s =>
      if c == '"' then [] :: arguments .between s
      else (arguments .quoted s).modifyHead (c :: ·)

/-- The statements of a line, each as its arguments. -/
def commands (line : List Char) : List (List (List Char)) :=
  (statements false (uncommented false line)).map (arguments .between)

theorem uncommented_cons (quoted : Bool) (c : Char) (s : List Char) : uncommented quoted (c :: s) =
    if c == '"' then c :: uncommented (!quoted) s
    else if !quoted && ['/', '/'].isPrefixOf (c :: s) then []
    else c :: uncommented quoted s := rfl

theorem statements_cons (quoted : Bool) (c : Char) (s : List Char) : statements quoted (c :: s) =
    if c == '"' then (statements (!quoted) s).modifyHead (c :: ·)
    else if !quoted && c == ';' then [] :: statements quoted s
    else (statements quoted s).modifyHead (c :: ·) := rfl

theorem arguments_between (c : Char) (s : List Char) : arguments .between (c :: s) =
    if isBlank c then arguments .between s
    else if c == '"' then arguments .quoted s
    else (arguments .word s).modifyHead (c :: ·) := rfl

theorem arguments_inWord (c : Char) (s : List Char) : arguments .word (c :: s) =
    if isBlank c then [] :: arguments .between s
    else if c == '"' then [] :: arguments .quoted s
    else (arguments .word s).modifyHead (c :: ·) := rfl

theorem arguments_inQuotes (c : Char) (s : List Char) : arguments .quoted (c :: s) =
    if c == '"' then [] :: arguments .between s
    else (arguments .quoted s).modifyHead (c :: ·) := rfl

/-- A name that stands for itself in a line. -/
structure Word (n : List Char) : Prop where
  nonempty : n ≠ []
  plain : ∀ c ∈ n, isBlank c = false ∧ c ≠ '"' ∧ c ≠ ';'
  whole : uncommented false n = n

def isWord (n : List Char) : Bool :=
  !n.isEmpty && (n.all fun c => !isBlank c && c != '"' && c != ';') && uncommented false n == n

variable {n v s : List Char} {c : Char} {q : Bool}

theorem word_iff : Word n ↔ isWord n = true := by
  simp only [isWord, Bool.and_eq_true, Bool.not_eq_true', List.isEmpty_eq_false_iff, List.all_eq_true, bne_iff_ne,
    beq_iff_eq, and_assoc]
  exact ⟨fun ⟨hne, hplain, hwhole⟩ => ⟨hne, hplain, hwhole⟩, fun ⟨hne, hplain, hwhole⟩ => ⟨hne, hplain, hwhole⟩⟩

instance : DecidablePred Word := fun _ => decidable_of_iff' _ word_iff

/-! ## Comments -/

theorem uncommented_quote (q : Bool) (s : List Char) :
    uncommented q ('"' :: s) = '"' :: uncommented (!q) s := by
  rw [uncommented_cons, if_pos (by decide)]

/-- In quotes nothing starts a comment. -/
theorem uncommented_quoted (hv : '"' ∉ v) (s : List Char) :
    uncommented true (v ++ '"' :: s) = v ++ '"' :: uncommented false s := by
  induction v with
  | nil => exact uncommented_quote true s
  | cons c v ih =>
    rw [List.mem_cons, not_or] at hv
    have hc : (c == '"') = false := beq_eq_false_iff_ne.mpr (Ne.symm hv.1)
    rw [List.cons_append, uncommented_cons, hc]
    show c :: uncommented true (v ++ '"' :: s) = _
    rw [ih hv.2]
    rfl

/-- A text without quotes and comments is kept, up to what starts no comment with its end. -/
theorem uncommented_append (hn : uncommented false n = n) (hquote : '"' ∉ n) (hc : c ≠ '/') (s : List Char) :
    uncommented false (n ++ c :: s) = n ++ uncommented false (c :: s) := by
  induction n with
  | nil => rfl
  | cons a n ih =>
    rw [List.mem_cons, not_or] at hquote
    have ha : (a == '"') = false := beq_eq_false_iff_ne.mpr (Ne.symm hquote.1)
    rw [uncommented_cons, ha] at hn
    rcases hslash : ['/', '/'].isPrefixOf (a :: n) with _ | _
    · rw [hslash] at hn
      have hrest : uncommented false n = n := (List.cons.inj hn).2
      have hmore : ['/', '/'].isPrefixOf (a :: (n ++ c :: s)) = false := by
        rcases n with _ | ⟨b, n⟩
        · have hc' : ('/' == c) = false := beq_eq_false_iff_ne.mpr (Ne.symm hc)
          show ('/' == a && ('/' == c && _)) = false
          rw [hc', Bool.false_and, Bool.and_false]
        · exact hslash
      rw [List.cons_append, uncommented_cons, ha, hmore]
      show a :: uncommented false (n ++ c :: s) = _
      rw [ih hrest hquote.2]
      rfl
    · rw [hslash] at hn
      cases hn

/-! ## Statements -/

theorem statements_ne_nil (q : Bool) (s : List Char) : statements q s ≠ [] := by
  induction s generalizing q with
  | nil => exact List.cons_ne_nil _ _
  | cons c s ih =>
    rw [statements_cons]
    split
    · rw [Ne, List.modifyHead_eq_nil_iff]
      exact ih _
    · split
      · exact List.cons_ne_nil _ _
      · rw [Ne, List.modifyHead_eq_nil_iff]
        exact ih _

/-- Nothing in a text without quotes and separators ends a statement. -/
theorem statements_append (hn : ∀ c ∈ n, c ≠ '"' ∧ (q = false → c ≠ ';')) (s : List Char) :
    statements q (n ++ s) = (statements q s).modifyHead (n ++ ·) := by
  induction n with
  | nil =>
    rw [List.nil_append]
    rcases statements q s with _ | ⟨a, t⟩ <;> rfl
  | cons c n ih =>
    obtain ⟨⟨hquote, hsemi⟩, hmore⟩ := List.forall_mem_cons.mp hn
    have hc : (c == '"') = false := beq_eq_false_iff_ne.mpr hquote
    have hend : (!q && c == ';') = false := by
      rcases q with _ | _
      · rw [beq_eq_false_iff_ne.mpr (hsemi rfl)]
        rfl
      · rfl
    rw [List.cons_append, statements_cons, hc, hend]
    show (statements q (n ++ s)).modifyHead (c :: ·) = _
    rw [ih hmore]
    rcases statements q s with _ | ⟨a, t⟩ <;> rfl

theorem statements_quote (q : Bool) (s : List Char) :
    statements q ('"' :: s) = (statements (!q) s).modifyHead ('"' :: ·) := by
  rw [statements_cons, if_pos (by decide)]

/-! ## Arguments -/

theorem arguments_word (hn : ∀ c ∈ n, isBlank c = false ∧ c ≠ '"') (s : List Char) :
    arguments .word (n ++ s) = (arguments .word s).modifyHead (n ++ ·) := by
  induction n with
  | nil =>
    rw [List.nil_append]
    rcases arguments .word s with _ | ⟨a, t⟩ <;> rfl
  | cons c n ih =>
    obtain ⟨⟨hblank, hquote⟩, hmore⟩ := List.forall_mem_cons.mp hn
    rw [List.cons_append, arguments_inWord, hblank, beq_eq_false_iff_ne.mpr hquote]
    show (arguments .word (n ++ s)).modifyHead (c :: ·) = _
    rw [ih hmore]
    rcases arguments .word s with _ | ⟨a, t⟩ <;> rfl

theorem arguments_quoted (hv : '"' ∉ v) (s : List Char) :
    arguments .quoted (v ++ '"' :: s) = v :: arguments .between s := by
  induction v with
  | nil =>
    rw [List.nil_append, arguments_inQuotes, if_pos (by decide)]
  | cons c v ih =>
    rw [List.mem_cons, not_or] at hv
    rw [List.cons_append, arguments_inQuotes, beq_eq_false_iff_ne.mpr (Ne.symm hv.1)]
    show (arguments .quoted (v ++ '"' :: s)).modifyHead (c :: ·) = _
    rw [ih hv.2]
    rfl

/-- A word and what stands in quotes behind it. -/
theorem arguments_pair (hn : Word n) (hv : '"' ∉ v) (s : List Char) :
    arguments .between (n ++ ' ' :: '"' :: (v ++ '"' :: s)) = n :: v :: arguments .between s := by
  have hquoted : arguments .between ('"' :: (v ++ '"' :: s)) = v :: arguments .between s := by
    rw [arguments_between, if_neg (by decide), if_pos (by decide), arguments_quoted hv]
  have hword : arguments .word (' ' :: '"' :: (v ++ '"' :: s)) = [] :: v :: arguments .between s := by
    rw [arguments_inWord, if_pos (by decide), hquoted]
  obtain ⟨hne, hplain, -⟩ := hn
  rcases n with _ | ⟨c, n⟩
  · exact absurd rfl hne
  obtain ⟨⟨hblank, hquote, -⟩, hmore⟩ := List.forall_mem_cons.mp hplain
  rw [List.cons_append, arguments_between, hblank, beq_eq_false_iff_ne.mpr hquote]
  show (arguments .word (n ++ _)).modifyHead (c :: ·) = _
  rw [arguments_word (fun d hd => ⟨(hmore d hd).1, (hmore d hd).2.1⟩), hword]
  simp

/-- A line of a word and a quoted argument, with nothing or a comment behind it, is one statement. -/
theorem commands_pair (hn : Word n) (hv : '"' ∉ v) (hs : s = [] ∨ ∃ t, s = ' ' :: '/' :: '/' :: t) :
    commands (n ++ ' ' :: '"' :: (v ++ '"' :: s)) = [[n, v]] := by
  have hquote : '"' ∉ n := fun hmem => (hn.plain _ hmem).2.1 rfl
  obtain ⟨b, hb, hrest, hend⟩ : ∃ b, uncommented false s = b ∧ statements false b = [b] ∧
      arguments .between b = [] := by
    rcases hs with rfl | ⟨t, rfl⟩
    · exact ⟨[], rfl, rfl, rfl⟩
    · exact ⟨[' '], by simp [uncommented], by decide, by decide⟩
  have hline : uncommented false (n ++ ' ' :: '"' :: (v ++ '"' :: s)) = n ++ ' ' :: '"' :: (v ++ '"' :: b) := by
    rw [uncommented_append hn.whole hquote (by decide), uncommented_cons, if_neg (by decide), if_neg (by simp),
      uncommented_quote, Bool.not_false, uncommented_quoted hv, hb]
  have hone : statements false (n ++ ' ' :: '"' :: (v ++ '"' :: b)) = [n ++ ' ' :: '"' :: (v ++ '"' :: b)] := by
    rw [statements_append fun c hc => ⟨(hn.plain c hc).2.1, fun _ => (hn.plain c hc).2.2⟩, statements_cons,
      if_neg (by decide), if_neg (by decide), statements_quote, Bool.not_false,
      statements_append (q := true) fun c hc => ⟨fun h => hv (h ▸ hc), fun h => (nomatch h)⟩, statements_quote,
      Bool.not_true, hrest]
    rfl
  rw [commands, hline, hone, List.map_singleton, arguments_pair hn hv, hend]

/-! ## A line of one statement -/

/-- What starts neither a comment nor quotes is kept. -/
theorem uncommented_plain (hn : ∀ c ∈ n, c ≠ '"' ∧ c ≠ '/') (s : List Char) :
    uncommented q (n ++ s) = n ++ uncommented q s := by
  induction n with
  | nil => rfl
  | cons c n ih =>
    obtain ⟨⟨hquote, hslash⟩, hmore⟩ := List.forall_mem_cons.mp hn
    have hno : ['/', '/'].isPrefixOf (c :: (n ++ s)) = false := by
      show ('/' == c && _) = false
      rw [beq_eq_false_iff_ne.mpr (Ne.symm hslash), Bool.false_and]
    rw [List.cons_append, uncommented_cons, beq_eq_false_iff_ne.mpr hquote, hno, Bool.and_false]
    show c :: uncommented q (n ++ s) = _
    rw [ih hmore]
    rfl

theorem arguments_blank (hn : ∀ c ∈ n, isBlank c = true) (s : List Char) :
    arguments .between (n ++ s) = arguments .between s := by
  induction n with
  | nil => rfl
  | cons c n ih =>
    obtain ⟨hc, hmore⟩ := List.forall_mem_cons.mp hn
    rw [List.cons_append, arguments_between, hc, if_pos rfl, ih hmore]

/-- What ends a word, when anything stands behind it. -/
def EndsWord (s : List Char) : Prop := ∀ c t, s = c :: t → isBlank c = true ∨ c = '"'

theorem arguments_head (hn : Word n) (hs : EndsWord s) :
    ∃ more, arguments .between (n ++ s) = n :: more := by
  obtain ⟨more, hmore⟩ : ∃ more, arguments .word s = [] :: more := by
    rcases s with _ | ⟨c, t⟩
    · exact ⟨[], rfl⟩
    · rw [arguments_inWord]
      rcases hs c t rfl with hblank | rfl
      · exact ⟨_, if_pos hblank⟩
      · exact ⟨_, by rw [if_neg (by decide), if_pos (by decide)]⟩
  obtain ⟨hne, hplain, -⟩ := hn
  rcases n with _ | ⟨c, n⟩
  · exact absurd rfl hne
  obtain ⟨⟨hblank, hquote, -⟩, hrest⟩ := List.forall_mem_cons.mp hplain
  refine ⟨more, ?_⟩
  rw [List.cons_append, arguments_between, hblank, beq_eq_false_iff_ne.mpr hquote]
  show (arguments .word (n ++ s)).modifyHead (c :: ·) = _
  rw [arguments_word (fun d hd => ⟨(hrest d hd).1, (hrest d hd).2.1⟩), hmore]
  simp

/-- Blanks, a word, and one statement behind it are one statement that starts with the word. -/
theorem commands_head (hv : ∀ c ∈ v, isBlank c = true) (hn : Word n) (hs : EndsWord s)
    (hone : statements false (uncommented false s) = [uncommented false s]) :
    ∃ more, commands (v ++ (n ++ s)) = [n :: more] := by
  have hblank : ∀ c ∈ v, c ≠ '"' ∧ c ≠ '/' ∧ c ≠ ';' := by
    intro c hc
    refine ⟨?_, ?_, ?_⟩ <;> rintro rfl <;> exact absurd (hv _ hc) (by decide)
  have hquote : '"' ∉ n := fun hmem => (hn.plain _ hmem).2.1 rfl
  -- the comment, if there is one, stands behind the word
  have hend : uncommented false (n ++ s) = n ++ uncommented false s ∧ EndsWord (uncommented false s) := by
    rcases s with _ | ⟨c, t⟩
    · rw [List.append_nil, hn.whole]
      exact ⟨(List.append_nil n).symm, fun _ _ h => (nomatch h)⟩
    · have hc : c ≠ '/' := by
        rintro rfl
        rcases hs _ _ rfl with h | h
        · exact absurd h (by decide)
        · exact absurd h (by decide)
      refine ⟨uncommented_append hn.whole hquote hc t, ?_⟩
      have hkeep : ∃ r, uncommented false (c :: t) = c :: r := by
        have hno : ['/', '/'].isPrefixOf (c :: t) = false := by
          show ('/' == c && _) = false
          rw [beq_eq_false_iff_ne.mpr (Ne.symm hc), Bool.false_and]
        rw [uncommented_cons, hno, Bool.and_false]
        split <;> exact ⟨_, rfl⟩
      obtain ⟨r, hr⟩ := hkeep
      rw [hr]
      intro d u heq
      rw [← (List.cons.inj heq).1]
      exact hs c t rfl
  have hline : uncommented false (v ++ (n ++ s)) = v ++ (n ++ uncommented false s) := by
    rw [uncommented_plain (fun c hc => ⟨(hblank c hc).1, (hblank c hc).2.1⟩), hend.1]
  have hsingle : statements false (v ++ (n ++ uncommented false s)) = [v ++ (n ++ uncommented false s)] := by
    rw [statements_append fun c hc => ⟨(hblank c hc).1, fun _ => (hblank c hc).2.2⟩,
      statements_append fun c hc => ⟨(hn.plain c hc).2.1, fun _ => (hn.plain c hc).2.2⟩, hone]
    rfl
  obtain ⟨more, hmore⟩ := arguments_head hn hend.2
  refine ⟨more, ?_⟩
  rw [commands, hline, hsingle, List.map_singleton, arguments_blank hv, hmore]

end Data.Commands
