import Gsm.Instances.JsonFile

/-!
# The console log

`consoleLog` writes batches of lines to a file and rotates it at a size; `TailFile` reads the file backwards
in chunks, and the previous rotation where that is not enough. What is read are the last lines of the two,
wherever the chunks and the rotation have cut them.

The operations on the files succeed. A file is its bytes, and the files are the log and its old copies.
-/

open GoStd

namespace Instances.ConsoleLog

open JsonFile (formatInt parseInt64 digitsValue isDigit)

def logMaxBytes : ℕ := 10 <<< 20

def logKeep : ℕ := 3

/-- The size of the blocks in which `tailOne` reads -/
def chunk : ℕ := 64 * 1024

/-- `protocol.ConsoleLine`; `At` is an `int64`. -/
structure ConsoleLine where
  time : ℤ
  text : Str
  int64 : -2 ^ 63 ≤ time ∧ time < 2 ^ 63
deriving DecidableEq

/-! ## Lines -/

/-- `formatLine` -/
def formatLine (l : ConsoleLine) : Str := formatInt l.time ++ [' '] ++ l.text ++ ['\n']

/-- `strings.Cut(s, " ")` -/
def cutBlank : Str → Option (Str × Str)
  | [] => none
  | c :: s => if c = ' ' then some ([], s) else (cutBlank s).map fun parts => (c :: parts.1, parts.2)

theorem parseInt64_range {s : Str} {i : ℤ} (h : parseInt64 s = some i) : -2 ^ 63 ≤ i ∧ i < 2 ^ 63 := by
  simp only [parseInt64, Option.ite_none_left_eq_some, Option.ite_none_right_eq_some] at h
  obtain ⟨-, hrange, hi⟩ := h
  rwa [← Option.some.inj hi]

/-- `parseLine` -/
def parseLine (s : Str) : ConsoleLine :=
  match cutBlank s with
  | none => ⟨0, s, by decide⟩
  | some (ts, text) =>
      match h : parseInt64 ts with
      | some time => ⟨time, text, parseInt64_range h⟩
      | none => ⟨0, s, by decide⟩

/-! ## Writing -/

/-- The log and its files: the log itself is 0, its old copies are numbered. -/
structure Log where
  files : ℕ → Option Str
  size : ℕ

/-- `os.Rename`; a file that is not there is left. -/
def rename (files : ℕ → Option Str) (i j : ℕ) : ℕ → Option Str :=
  match files i with
  | some c => Function.update (Function.update files j (some c)) i none
  | none => files

/-- `openConsoleLog` -/
def openConsoleLog (files : ℕ → Option Str) : Log :=
  let c := (files 0).getD []
  ⟨Function.update files 0 (some c), c.length⟩

/-- `rotateLocked` -/
def rotateLocked (l : Log) : Log :=
  let files := Function.update l.files logKeep none
  let files := ((List.range' 1 (logKeep - 1)).reverse).foldl (fun files i => rename files i (i + 1)) files
  let files := rename files 0 1
  ⟨Function.update files 0 (some ((files 0).getD [])), 0⟩

/-- `Write` -/
def write (l : Log) (lines : List ConsoleLine) : Log :=
  let buf := lines.flatMap formatLine
  let l := if logMaxBytes < l.size + buf.length then rotateLocked l else l
  ⟨Function.update l.files 0 (some ((l.files 0).getD [] ++ buf)), l.size + buf.length⟩

/-! ## Reading -/

/-- The loop of `tailOne`, from what is read so far on -/
def tailLoop (c : Str) (n pos : ℕ) (buf : Str) (lines : List Str) : List Str :=
  if 0 < pos ∧ lines.length ≤ n then
    let size := min chunk pos
    let buf := (c.drop (pos - size)).take size ++ buf
    let pieces := buf.splitOn '\n'
    tailLoop c n (pos - size) buf (if 0 < pos - size then pieces.drop 1 else pieces)
  else lines
termination_by pos
decreasing_by
  have hchunk : 0 < chunk := by decide
  omega

/-- `tailOne` of a file that is there -/
def tailOne (c : Str) (n : ℕ) : List Str :=
  let lines := tailLoop c n c.length [] []
  -- the empty tail after the final line break
  let lines := if lines.getLast? = some [] then lines.dropLast else lines
  lines.drop (lines.length - n)

/-- `TailFile` -/
def tailFile (files : ℕ → Option Str) (n : ℕ) : Option (List ConsoleLine) :=
  (files 0).map fun c =>
    let lines := tailOne c n
    let lines :=
      if lines.length < n then
        match files 1 with
        | some c => tailOne c (n - lines.length) ++ lines
        | none => lines
      else lines
    lines.map parseLine

variable {c s t : Str} {n pos : ℕ} {texts : List Str} {files : ℕ → Option Str} {l : ConsoleLine} {log : Log}
  {lines batch : List ConsoleLine} {lines' : List Str} {i : ℤ}

/-! ## What is written of a line is read back -/

theorem digit_of_mem_toDigits {c : Char} {n : ℕ} (h : c ∈ Nat.toDigits 10 n) :
    '0'.toNat ≤ c.toNat ∧ c.toNat ≤ '9'.toNat := by
  have hdigit := Nat.isDigit_of_mem_toDigits (by decide) (by decide) h
  rw [Char.isDigit, Bool.and_eq_true, decide_eq_true_iff, decide_eq_true_iff] at hdigit
  exact ⟨UInt32.le_iff_toNat_le.mp hdigit.1, UInt32.le_iff_toNat_le.mp hdigit.2⟩

theorem digitsValue_toDigits (n : ℕ) : digitsValue (Nat.toDigits 10 n) = n := Nat.ofDigitChars_ten_toDigits

theorem parseInt64_formatInt (h : -2 ^ 63 ≤ i ∧ i < 2 ^ 63) : parseInt64 (formatInt i) = some i := by
  have hall : (Nat.toDigits 10 i.natAbs).all isDigit = true := by
    rw [List.all_eq_true]
    exact fun c hc => decide_eq_true (digit_of_mem_toDigits hc)
  have hne : Nat.toDigits 10 i.natAbs ≠ [] := Nat.toDigits_ne_nil
  by_cases hneg : i < 0
  · have hvalue : -((digitsValue (Nat.toDigits 10 i.natAbs) : ℕ) : ℤ) = i := by
      rw [digitsValue_toDigits]
      omega
    have hsign : ['-'].isPrefixOf ('-' :: Nat.toDigits 10 i.natAbs) = true := rfl
    rw [formatInt, if_pos hneg, List.singleton_append, parseInt64]
    simp only [hsign, Bool.true_or, if_true, List.drop_one, List.tail_cons, hne, hall, Bool.not_true,
      decide_false, Bool.or_false, Bool.false_eq_true, if_false, hvalue, if_pos h]
  · have hvalue : ((digitsValue (Nat.toDigits 10 i.natAbs) : ℕ) : ℤ) = i := by
      rw [digitsValue_toDigits]
      omega
    have hsign : ∀ c, isDigit c = false → [c].isPrefixOf (Nat.toDigits 10 i.natAbs) = false := by
      intro c hc
      obtain ⟨d, ds, hds⟩ := List.exists_cons_of_ne_nil hne
      rw [hds] at hall ⊢
      have hd : isDigit d = true := List.all_eq_true.mp hall d List.mem_cons_self
      rw [List.isPrefixOf, beq_eq_false_iff_ne.mpr, Bool.false_and]
      rintro rfl
      exact absurd (hc.symm.trans hd) Bool.false_ne_true
    rw [formatInt, if_neg hneg, List.nil_append, parseInt64]
    simp only [hsign '-' rfl, hsign '+' rfl, Bool.or_self, Bool.false_eq_true, if_false, hne, hall, Bool.not_true,
      decide_false, hvalue, if_pos h]

theorem formatInt_plain {c : Char} (h : c ∈ formatInt i) : c ≠ ' ' ∧ c ≠ '\n' := by
  rw [formatInt, List.mem_append] at h
  rcases h with h | h
  · split at h
    · rw [List.mem_singleton.mp h]
      decide
    · exact nomatch h
  · have hdigit := (digit_of_mem_toDigits h).1
    constructor <;> rintro rfl <;> exact absurd hdigit (by decide)

theorem cutBlank_append (h : ' ' ∉ s) : cutBlank (s ++ ' ' :: t) = some (s, t) := by
  induction s with
  | nil => rfl
  | cons c s ih =>
    rw [List.mem_cons, not_or] at h
    rw [List.cons_append, cutBlank, if_neg (fun hc => h.1 hc.symm), ih h.2]
    rfl

/-- The text of a line in the file, without its break -/
def lineText (l : ConsoleLine) : Str := formatInt l.time ++ ' ' :: l.text

theorem parseLine_lineText (l : ConsoleLine) : parseLine (lineText l) = l := by
  have hcut : cutBlank (lineText l) = some (formatInt l.time, l.text) :=
    cutBlank_append fun h => (formatInt_plain h).1 rfl
  have hparse := parseInt64_formatInt l.int64
  rw [parseLine, hcut]
  dsimp only
  split
  · next time h =>
    obtain rfl := Option.some.inj (hparse.symm.trans h)
    rfl
  · next h => exact nomatch hparse.symm.trans h

/-! ## The end of a file -/

/-- What is left of a file from some place on splits into the last pieces of it, but for the first. -/
theorem tail_splitOn_suffix (s t : Str) : (t.splitOn '\n').tail <:+ ((s ++ t).splitOn '\n').tail := by
  induction s with
  | nil => exact List.suffix_refl _
  | cons c s ih =>
    rw [List.cons_append, List.splitOn_cons_eq_if_modifyHead]
    split
    · rw [List.tail_cons]
      exact ih.trans (List.tail_suffix _)
    · rw [List.tail_modifyHead]
      exact ih

/-- A file of whole lines -/
def fileOf (texts : List Str) : Str := texts.flatMap fun text => text ++ ['\n']

theorem splitOn_fileOf (h : ∀ text ∈ texts, '\n' ∉ text) : (fileOf texts).splitOn '\n' = texts ++ [[]] := by
  induction texts with
  | nil => rfl
  | cons text texts ih =>
    have hrest := ih fun t ht => h t (List.mem_cons_of_mem _ ht)
    rw [fileOf] at hrest
    rw [fileOf, List.flatMap_cons, List.append_assoc, List.singleton_append, List.splitOn_append_cons_self,
      List.splitOn_eq_singleton (h text List.mem_cons_self), hrest]
    rfl

/-- The loop reads back to some place, where it has enough or all. -/
theorem tailLoop_eq (hpos : pos ≤ c.length) (hlines : lines' = if 0 < pos then ((c.drop pos).splitOn '\n').drop 1
      else (c.drop pos).splitOn '\n') :
    ∃ pos', (pos' = 0 ∨ n < (tailLoop c n pos (c.drop pos) lines').length) ∧
      tailLoop c n pos (c.drop pos) lines' =
        if 0 < pos' then ((c.drop pos').splitOn '\n').drop 1 else (c.drop pos').splitOn '\n' := by
  induction hn : pos using Nat.strong_induction_on generalizing pos lines' with
  | _ m ih =>
    subst hn
    rw [tailLoop]
    split
    · next hmore =>
      have hchunk : 0 < chunk := by decide
      have hbuf : (c.drop (pos - min chunk pos)).take (min chunk pos) ++ c.drop pos =
          c.drop (pos - min chunk pos) := by
        have hback : c.drop pos = (c.drop (pos - min chunk pos)).drop (min chunk pos) := by
          rw [List.drop_drop]
          congr 1
          omega
        rw [hback, List.take_append_drop]
      dsimp only
      rw [hbuf]
      exact ih (pos - min chunk pos) (by omega) (by omega) rfl rfl
    · next hdone =>
      refine ⟨pos, ?_, hlines⟩
      omega

/-- The last lines of a file of whole lines -/
theorem tailOne_fileOf (h : ∀ text ∈ texts, '\n' ∉ text) (n : ℕ) :
    tailOne (fileOf texts) n = texts.drop (texts.length - n) := by
  have hsplit := splitOn_fileOf h
  by_cases hnil : texts = []
  · rw [hnil, tailOne, tailLoop]
    rfl
  have hpos : 0 < (fileOf texts).length := by
    obtain ⟨text, texts, rfl⟩ := List.exists_cons_of_ne_nil hnil
    rw [fileOf, List.flatMap_cons, List.length_append, List.length_append, List.length_singleton]
    omega
  have hend : (fileOf texts).drop (fileOf texts).length = [] := List.drop_length
  have hstart : ([] : List Str) = if 0 < (fileOf texts).length then
      (((fileOf texts).drop (fileOf texts).length).splitOn '\n').drop 1
        else ((fileOf texts).drop (fileOf texts).length).splitOn '\n' := by
    rw [if_pos hpos, hend]
    rfl
  obtain ⟨pos', hstop, hread⟩ := tailLoop_eq (n := n) le_rfl hstart
  rw [hend] at hstop hread
  -- the lines that are read are the last ones, with the empty tail
  have hlast : ∃ u w, texts = u ++ w ∧ tailLoop (fileOf texts) n (fileOf texts).length [] [] = w ++ [[]] ∧
      (u = [] ∨ n ≤ w.length) := by
    rcases Nat.eq_zero_or_pos pos' with hzero | hpos'
    · rw [hzero, if_neg (Nat.lt_irrefl 0), List.drop_zero, hsplit] at hread
      exact ⟨[], texts, rfl, hread, .inl rfl⟩
    · rw [if_pos hpos', List.drop_one] at hread
      have henough := hstop.resolve_left (by omega)
      have hsuffix := tail_splitOn_suffix ((fileOf texts).take pos') ((fileOf texts).drop pos')
      rw [List.take_append_drop, hsplit, ← hread] at hsuffix
      obtain ⟨u, hu⟩ := hsuffix.trans (List.tail_suffix _)
      obtain ⟨w, x, hw⟩ := (List.eq_nil_or_concat' (tailLoop (fileOf texts) n (fileOf texts).length [] [])).resolve_left
        (by intro hnone; rw [hnone] at henough; exact Nat.not_lt_zero _ henough)
      rw [hw, ← List.append_assoc] at hu
      obtain ⟨htexts, hx⟩ := List.append_inj' hu rfl
      rw [hw, List.length_append, List.length_singleton] at henough
      exact ⟨u, w, htexts.symm, by rw [hw, List.cons.inj hx |>.1], .inr (by omega)⟩
  obtain ⟨u, w, hw, hlines, hlen⟩ := hlast
  rw [tailOne, hlines, if_pos (by rw [List.getLast?_append]; rfl), List.dropLast_concat, hw, List.length_append]
  rcases hlen with rfl | hlen
  · rw [List.nil_append, List.length_nil, Nat.zero_add]
  · have hsum : u.length + w.length - n = u.length + (w.length - n) := by omega
    rw [hsum, ← List.drop_drop, List.drop_left]

/-! ## The log and its previous rotation -/

/-- The lines of the previous rotation and of the log -/
structure Kept where
  previous : List ConsoleLine
  current : List ConsoleLine

/-- A batch goes to the log, or to a new one where it would grow too large. -/
def Kept.add (k : Kept) (batch : List ConsoleLine) : Kept :=
  if logMaxBytes < (k.current.flatMap formatLine).length + (batch.flatMap formatLine).length then
    ⟨k.current, batch⟩
  else ⟨k.previous, k.current ++ batch⟩

/-- The files hold these lines. -/
structure Holds (files : ℕ → Option Str) (k : Kept) : Prop where
  current : (files 0).getD [] = k.current.flatMap formatLine
  previous : (files 1).getD [] = k.previous.flatMap formatLine

/-- A log that is open -/
structure Open (log : Log) (k : Kept) : Prop extends Holds log.files k where
  there : (log.files 0).isSome = true
  size : log.size = (k.current.flatMap formatLine).length

theorem open_openConsoleLog {k : Kept} (h : Holds files k) : Open (openConsoleLog files) k := by
  refine ⟨⟨?_, ?_⟩, ?_, ?_⟩
  · exact h.current
  · exact h.previous
  · rfl
  · exact congrArg List.length h.current

theorem rename_of_ne {i j m : ℕ} (hi : m ≠ i) (hj : m ≠ j) : rename files i j m = files m := by
  unfold rename
  rcases files i with _ | c
  · rfl
  · show Function.update (Function.update files j (some c)) i none m = files m
    rw [Function.update_of_ne hi, Function.update_of_ne hj]

/-- After a rotation the log is empty, and its lines are in the previous one. -/
theorem open_rotateLocked {k : Kept} (h : Open log k) : Open (rotateLocked log) ⟨k.current, []⟩ := by
  obtain ⟨c, hc⟩ := Option.isSome_iff_exists.mp h.there
  have hcurrent := h.current
  rw [hc] at hcurrent
  -- the old copies move up, and the log stays until it is renamed itself
  set older := ((List.range' 1 (logKeep - 1)).reverse).foldl (fun files i => rename files i (i + 1))
      (Function.update log.files logKeep none) with hset
  have hstill : older 0 = some c := by
    show rename (rename (Function.update log.files 3 none) 2 3) 1 2 0 = some c
    rw [rename_of_ne (by decide) (by decide), rename_of_ne (by decide) (by decide),
      Function.update_of_ne (by decide), hc]
  have hmoved : rename older 0 1 = Function.update (Function.update older 1 (some c)) 0 none := by
    rw [rename, hstill]
  have hfiles : (rotateLocked log).files = Function.update (rename older 0 1) 0 (some []) := by
    rw [rotateLocked, ← hset, hmoved, Function.update_self]
    rfl
  refine ⟨⟨?_, ?_⟩, ?_, rfl⟩
  · rw [hfiles, Function.update_self]
    rfl
  · rw [hfiles, hmoved, Function.update_of_ne (by decide), Function.update_of_ne (by decide), Function.update_self]
    exact hcurrent
  · rw [hfiles, Function.update_self]
    rfl

/-- A batch behind the lines of the log -/
theorem open_append {k : Kept} (h : Open log k) (batch : List ConsoleLine) :
    Open ⟨Function.update log.files 0 (some ((log.files 0).getD [] ++ batch.flatMap formatLine)),
      log.size + (batch.flatMap formatLine).length⟩ ⟨k.previous, k.current ++ batch⟩ := by
  refine ⟨⟨?_, ?_⟩, rfl, ?_⟩
  · show (log.files 0).getD [] ++ _ = _
    rw [h.current, List.flatMap_append]
  · exact h.previous
  · show log.size + _ = _
    rw [h.size, List.flatMap_append, List.length_append]

theorem open_write {k : Kept} (h : Open log k) (batch : List ConsoleLine) : Open (write log batch) (k.add batch) := by
  rw [write, Kept.add, h.size]
  split
  · exact open_append (open_rotateLocked h) batch
  · exact open_append h batch

theorem Kept.of_mem_add {k : Kept} (h : l ∈ (k.add batch).previous ++ (k.add batch).current) :
    l ∈ k.previous ++ k.current ++ batch := by
  rw [Kept.add] at h
  split at h
  · rw [List.append_assoc]
    exact List.mem_append_right _ h
  · rw [List.append_assoc]
    exact h

/-- The same along all batches. -/
theorem open_writes {k : Kept} (h : Open log k) (batches : List (List ConsoleLine))
    (hbreak : ∀ l ∈ k.previous ++ k.current ++ batches.flatten, '\n' ∉ l.text) :
    Open (batches.foldl write log) (batches.foldl Kept.add k) ∧
      ∀ l ∈ (batches.foldl Kept.add k).previous ++ (batches.foldl Kept.add k).current, '\n' ∉ l.text := by
  induction batches generalizing log k with
  | nil => exact ⟨h, fun l hl => hbreak l (List.mem_append_left _ hl)⟩
  | cons batch batches ih =>
    refine ih (open_write h batch) fun l hl => hbreak l ?_
    rw [List.flatten_cons, ← List.append_assoc]
    rcases List.mem_append.mp hl with hl | hl
    · exact List.mem_append_left _ (Kept.of_mem_add hl)
    · exact List.mem_append_right _ hl

/-! ## What is read of the files -/

theorem flatMap_formatLine (lines : List ConsoleLine) :
    lines.flatMap formatLine = fileOf (lines.map lineText) := by
  rw [fileOf, List.flatMap_map]
  congr 1
  funext l
  rw [formatLine, lineText, List.append_assoc (formatInt l.time), List.singleton_append]

/-- The last lines of the lines in a file, as they stand in it -/
theorem tailOne_lines (h : ∀ l ∈ lines, '\n' ∉ l.text) (n : ℕ) :
    tailOne (lines.flatMap formatLine) n = (lines.drop (lines.length - n)).map lineText := by
  have hplain : ∀ text ∈ lines.map lineText, '\n' ∉ text := by
    intro text htext
    obtain ⟨l, hl, rfl⟩ := List.mem_map.mp htext
    rw [lineText, List.mem_append, List.mem_cons, not_or, not_or]
    exact ⟨fun hmem => (formatInt_plain hmem).2 rfl, by decide, h l hl⟩
  rw [flatMap_formatLine, tailOne_fileOf hplain, List.length_map, List.map_drop]

theorem eq_nil_of_formatLine (h : lines.flatMap formatLine = []) : lines = [] := by
  rcases lines with _ | ⟨l, lines⟩
  · rfl
  · rw [List.flatMap_cons, List.append_eq_nil_iff, formatLine] at h
    exact absurd (List.append_eq_nil_iff.mp h.1).2 (List.cons_ne_nil _ _)

/-- The tail of an open log -/
theorem tailFile_open {k : Kept} (h : Open log k)
    (hbreak : ∀ l ∈ k.previous ++ k.current, '\n' ∉ l.text) (n : ℕ) :
    tailFile log.files n = some ((k.previous ++ k.current).drop ((k.previous ++ k.current).length - n)) := by
  obtain ⟨c, hc⟩ := Option.isSome_iff_exists.mp h.there
  have hcurrent := h.current
  rw [hc, Option.getD_some] at hcurrent
  have hnow : tailOne c n = (k.current.drop (k.current.length - n)).map lineText := by
    rw [hcurrent]
    exact tailOne_lines (fun l hl => hbreak l (List.mem_append_right _ hl)) n
  have hparse : ∀ lines : List ConsoleLine, (lines.map lineText).map parseLine = lines := by
    intro lines
    have hid : parseLine ∘ lineText = id := funext parseLine_lineText
    rw [List.map_map, hid, List.map_id]
  rw [tailFile, hc, Option.map_some, hnow]
  dsimp only
  rw [List.length_map, List.length_drop]
  split
  · next hfew =>
    -- all of the log, and what is missing from the previous rotation
    have hall : k.current.length - n = 0 := by omega
    have hcount : k.current.length - (k.current.length - n) = k.current.length := by omega
    have hsum : (k.previous ++ k.current).length - n = k.previous.length - (n - k.current.length) := by
      rw [List.length_append]
      omega
    have hle : k.previous.length - (n - k.current.length) ≤ k.previous.length := Nat.sub_le _ _
    rw [hcount, hall, List.drop_zero, hsum, List.drop_append_of_le_length hle]
    split
    · next c' hc' =>
      have hprevious := h.previous
      rw [hc', Option.getD_some] at hprevious
      rw [hprevious, tailOne_lines (fun l hl => hbreak l (List.mem_append_left _ hl)), ← List.map_append, hparse]
    · next hnone =>
      have hprevious := h.previous
      rw [hnone, Option.getD_none] at hprevious
      have hnil : k.previous = [] := eq_nil_of_formatLine hprevious.symm
      rw [hnil, List.drop_nil, List.nil_append, hparse]
  · next henough =>
    have hsum : (k.previous ++ k.current).length - n = k.previous.length + (k.current.length - n) := by
      rw [List.length_append]
      omega
    rw [hsum, ← List.drop_drop, List.drop_left, hparse]

/-- Wherever the size limit has put the rotations, the files hold the lines of the previous rotation and of the
log, and the tail of the file are the last of them. -/
theorem tailFile_written {k : Kept} (hstart : Holds files k) (batches : List (List ConsoleLine))
    (hbreak : ∀ l ∈ k.previous ++ k.current ++ batches.flatten, '\n' ∉ l.text) (n : ℕ) :
    Holds (batches.foldl write (openConsoleLog files)).files (batches.foldl Kept.add k) ∧
      tailFile (batches.foldl write (openConsoleLog files)).files n =
        some (let all := (batches.foldl Kept.add k).previous ++ (batches.foldl Kept.add k).current
          all.drop (all.length - n)) := by
  obtain ⟨hopen, hplain⟩ := open_writes (open_openConsoleLog hstart) batches hbreak
  exact ⟨hopen.toHolds, tailFile_open hopen hplain n⟩

/-- A log that is new, and the last of the two lines written to it -/
theorem tailFile_written_two :
    tailFile ([[⟨1, "up".toList, by decide⟩], [⟨2, "player joined".toList, by decide⟩]].foldl write
      (openConsoleLog fun _ => none)).files 1 = some [⟨2, "player joined".toList, by decide⟩] :=
  (@tailFile_written (fun _ => none) ⟨[], []⟩ ⟨rfl, rfl⟩
    [[⟨1, "up".toList, by decide⟩], [⟨2, "player joined".toList, by decide⟩]] (by decide) 1).2.trans (by decide)

end Instances.ConsoleLog
