import Mathlib
import Gsm.GoStd.Bufio
import Gsm.Instances.ConsoleLines

/-!
# The lines of a stream

`readLines` over the buffered reader it makes. The chunks in which the stream comes make no difference, but
the buffer does: where it fills up within a line, what is in it is emitted as if the line ended there. A
carriage return at its end is lost then, and nothing or a carriage return behind its end makes an empty line.
-/

open GoStd GoStd.Bufio

namespace Instances.Console

variable {ε : Type*} {u c rest stream pending line : Str} {out : List Str} {j : ℕ}

/-- A suffix is taken away. -/
theorem trimSuffix_append (s suffix : Str) : trimSuffix (s ++ suffix) suffix = s := by
  rw [trimSuffix, if_pos (List.isSuffixOf_iff_suffix.mpr (List.suffix_append s suffix)), List.length_append,
    Nat.add_sub_cancel, List.take_left]

/-- A line that ends otherwise is not trimmed. -/
theorem trimSuffix_of_getLast {c : Char} {s : Str} (h : s.getLast? ≠ some c) : trimSuffix s [c] = s := by
  have hno : ¬ [c].isSuffixOf s = true := by
    rw [List.isSuffixOf_iff_suffix]
    rintro ⟨u, rfl⟩
    exact h (by rw [List.getLast?_append, List.getLast?_singleton]; rfl)
  rw [trimSuffix, if_neg hno]

/-! ## The loop -/

/-- A slice takes bytes from what is to come, unless it is the last. -/
theorem length_events_of_readSlice {r r' : Reader Char ε} {chunk : Str} {res : SliceEnd ε}
    (h : r.readSlice '\n' = some (chunk, res, r')) (hres : ∀ err, res ≠ .err err) :
    r'.events.length < r.events.length := by
  have hslices := r.slices_readSlice '\n'
  rw [h] at hslices
  rcases res with _ | _ | err
  · obtain ⟨before, rfl, -, -, hevents, -⟩ := hslices
    rw [hevents, List.length_append, List.length_map, List.length_append, List.length_singleton]
    omega
  · obtain ⟨-, hlen, hevents, -⟩ := hslices
    have hpos := r.pos
    rw [hevents, List.length_append, List.length_map]
    omega
  · exact absurd rfl (hres err)

/-- `readLines` with what is pending -/
def readFrom (pending : Str) (r : Reader Char ε) : List Str :=
  match _h : r.readSlice '\n' with
  | none => []
  | some (chunk, .found, r') => emit (trimSuffix (pending ++ chunk) ['\n']) ++ readFrom [] r'
  | some (chunk, .bufferFull, r') =>
      if maxLineBytes ≤ (pending ++ chunk).length then emit (pending ++ chunk) ++ readFrom [] r'
      else readFrom (pending ++ chunk) r'
  | some (chunk, .err _, _) => if pending ++ chunk = [] then [] else emit (pending ++ chunk)
termination_by r.events.length
decreasing_by all_goals exact length_events_of_readSlice _h fun _ => nofun

/-- `readLines` of a reader, by what its calls of `Read` give -/
def readLinesOf (rd : List (Input Char ε)) : List Str :=
  readFrom [] (newReaderSize rd readerSize (by decide))

/-! ## What the chunks make of it -/

/-- A line that has not filled the buffer is pending. -/
theorem readLinesFrom_append (hbreak : '\n' ∉ u) (hlen : pending.length + u.length < readerSize) (rest : Str) :
    readLinesFrom pending (u ++ rest) = readLinesFrom (pending ++ u) rest := by
  induction u generalizing pending with
  | nil => rw [List.nil_append, List.append_nil]
  | cons c u ih =>
    rw [List.length_cons] at hlen
    have hc : c ≠ '\n' := fun h => hbreak (h ▸ List.mem_cons_self)
    have hmore : (pending ++ [c]).length + u.length < readerSize := by
      rw [List.length_append, List.length_singleton]
      omega
    rw [List.cons_append, readLinesFrom, if_neg hc, if_neg (by omega),
      ih (fun h => hbreak (List.mem_cons_of_mem _ h)) hmore, List.append_assoc, List.singleton_append]

/-- A line that fills the buffer is emitted so far. -/
theorem readLinesFrom_full (hbreak : '\n' ∉ u) (hlen : u.length = readerSize) (rest : Str) :
    readLinesFrom [] (u ++ rest) = emit u ++ readLinesFrom [] rest := by
  have hpos : 0 < readerSize := by decide
  obtain ⟨v, c, rfl⟩ := (List.eq_nil_or_concat' u).resolve_left (by rintro rfl; exact hpos.ne hlen)
  rw [List.length_append, List.length_singleton] at hlen
  have hc : c ≠ '\n' := fun h => hbreak (h ▸ List.mem_append_right _ List.mem_cons_self)
  rw [List.append_assoc, readLinesFrom_append (fun h => hbreak (List.mem_append_left _ h))
    (by rw [List.length_nil]; omega), List.singleton_append, List.nil_append, readLinesFrom, if_neg hc,
    if_pos hlen]

theorem readLinesFrom_break (hbreak : '\n' ∉ u) (hlen : u.length < readerSize) (rest : Str) :
    readLinesFrom [] (u ++ '\n' :: rest) = emit u ++ readLinesFrom [] rest := by
  rw [readLinesFrom_append hbreak (by rw [List.length_nil]; omega), List.nil_append, readLinesFrom,
    if_pos rfl]

theorem readLinesFrom_end (hbreak : '\n' ∉ u) (hlen : u.length < readerSize) :
    readLinesFrom [] u = if u = [] then [] else emit u := by
  have hlen' : ([] : Str).length + u.length < readerSize := by rwa [List.length_nil, Nat.zero_add]
  have h := readLinesFrom_append hbreak hlen' []
  rwa [List.append_nil, List.nil_append, readLinesFrom] at h

/-- Bytes that come before all errors are the first of the stream. -/
theorem exists_of_events {a s : Str} {err : ε} {es fs : List (Except ε Char)}
    (h : a.map .ok ++ es = s.map .ok ++ .error err :: fs) :
    ∃ s', s = a ++ s' ∧ es = s'.map .ok ++ .error err :: fs := by
  induction a generalizing s with
  | nil => exact ⟨s, rfl, h⟩
  | cons c a ih =>
    rcases s with _ | ⟨d, s⟩
    · exact nomatch (List.cons.inj h).1
    · obtain ⟨hcd, hrest⟩ := List.cons.inj h
      obtain ⟨s', rfl, hes⟩ := ih hrest
      exact ⟨s', by rw [Except.ok.inj hcd]; rfl, hes⟩

/-- However the stream is cut into chunks, the lines are the same. -/
theorem readFrom_eq {r : Reader Char ε} {err : ε} {es : List (Except ε Char)} (hsize : r.size = readerSize)
    (hevents : r.events = stream.map .ok ++ .error err :: es) :
    readFrom [] r = readLinesFrom [] stream := by
  induction hn : r.events.length using Nat.strong_induction_on generalizing r stream with
  | _ n ih =>
    have hslices := r.slices_readSlice '\n'
    rw [readFrom]
    split
    · next h =>
      rw [h] at hslices
      obtain ⟨chunk, -, -, hall⟩ := hslices
      rw [hall, ← List.append_nil (chunk.map _)] at hevents
      obtain ⟨s', -, hnil⟩ := exists_of_events hevents
      exact absurd hnil.symm (List.append_ne_nil_of_right_ne_nil _ (List.cons_ne_nil _ _))
    · next chunk r' h =>
      have hless := length_events_of_readSlice h fun _ => nofun
      rw [h] at hslices
      obtain ⟨before, rfl, hbreak, hlen, hfirst, hsize'⟩ := hslices
      obtain ⟨s', rfl, hrest⟩ := exists_of_events (hfirst ▸ hevents)
      rw [List.nil_append, trimSuffix_append, List.append_assoc, List.singleton_append, readLinesFrom_break hbreak (hsize ▸ hlen),
        ih _ (hn ▸ hless) (hsize'.trans hsize) hrest rfl]
    · next chunk r' h =>
      have hless := length_events_of_readSlice h fun _ => nofun
      rw [h] at hslices
      obtain ⟨hbreak, hlen, hfirst, hsize'⟩ := hslices
      obtain ⟨s', rfl, hrest⟩ := exists_of_events (hfirst ▸ hevents)
      have hlong : maxLineBytes ≤ ([] ++ chunk).length := by
        rw [List.nil_append, hlen, hsize]
        decide
      rw [if_pos hlong, readLinesFrom_full hbreak (hlen.trans hsize), List.nil_append,
        ih _ (hn ▸ hless) (hsize'.trans hsize) hrest rfl]
    · next chunk err' r' h =>
      rw [h] at hslices
      obtain ⟨hbreak, hlen, hfirst, -⟩ := hslices
      obtain ⟨s', rfl, hrest⟩ := exists_of_events (hfirst ▸ hevents)
      have hs' : s' = [] := by
        rcases s' with _ | ⟨c, s'⟩
        · rfl
        · exact nomatch (List.cons.inj hrest).1
      rw [hs', List.append_nil, List.nil_append]
      rcases Nat.lt_or_ge chunk.length readerSize with hlt | hge
      · exact (readLinesFrom_end hbreak hlt).symm
      · have hfull : chunk.length = readerSize := Nat.le_antisymm (hsize ▸ hlen) hge
        have hne : chunk ≠ [] := by
          rintro rfl
          exact absurd hfull (by decide)
        have h := readLinesFrom_full hbreak hfull []
        rw [List.append_nil] at h
        rw [if_neg hne, h, readLinesFrom, if_pos rfl, List.append_nil]

/-! ## The lines that are meant -/

/-- A line, and whether a break ends it -/
structure Line where
  ended : Bool
  bytes : Str
deriving DecidableEq

/-- The text of a line: one carriage return at its end is removed. -/
def Line.text (l : Line) : Str := trimSuffix l.bytes ['\r']

/-- What stands behind the last break is a line if it is not empty. -/
def linesOfParts : List Str → List Line
  | [] => []
  | [last] => if last = [] then [] else [⟨false, last⟩]
  | part :: parts => ⟨true, part⟩ :: linesOfParts parts

/-- The lines of a stream, split at line breaks -/
def streamLines (stream : Str) : List Line := linesOfParts (stream.splitOn '\n')

/-- A text in consecutive pieces within the limit, none of which is empty unless the text is. -/
structure CutInto (text : Str) (ps : List Str) : Prop where
  flatten : ps.flatten = text
  short : ∀ p ∈ ps, p.length ≤ maxLineBytes
  noExtra : ps = [[]] ∨ ps ≠ [] ∧ [] ∉ ps

/-- Exactly the lines of the stream, each cut into pieces -/
def Exactly (stream : Str) (out : List Str) : Prop :=
  ∃ groups, List.Forall₂ CutInto ((streamLines stream).map Line.text) groups ∧ out = groups.flatten

theorem linesOfParts_cons {parts : List Str} (part : Str) (hne : parts ≠ []) :
    linesOfParts (part :: parts) = ⟨true, part⟩ :: linesOfParts parts := by
  rcases parts with _ | ⟨p, parts⟩
  · exact absurd rfl hne
  · rfl

theorem streamLines_break (hbreak : '\n' ∉ u) (rest : Str) :
    streamLines (u ++ '\n' :: rest) = ⟨true, u⟩ :: streamLines rest := by
  rw [streamLines, List.splitOn_append_cons_self, List.splitOn_eq_singleton hbreak, List.singleton_append,
    linesOfParts_cons u (List.splitOn_ne_nil _ _), streamLines]

theorem streamLines_end (hbreak : '\n' ∉ u) :
    streamLines u = if u = [] then [] else [⟨false, u⟩] := by
  rw [streamLines, List.splitOn_eq_singleton hbreak]
  rfl

/-- A stream is a line with its break and more, or what is behind the last break. -/
theorem stream_cases (stream : Str) :
    (∃ u rest, stream = u ++ '\n' :: rest ∧ '\n' ∉ u) ∨ '\n' ∉ stream := by
  by_cases hmem : '\n' ∈ stream
  · obtain ⟨u, rest, h, hbreak⟩ := List.eq_append_cons_of_mem hmem
    exact .inl ⟨u, rest, h, hbreak⟩
  · exact .inr hmem

/-! ## What is emitted of a line -/

/-- What is emitted of a line: the buffer whenever it is full, then the rest. -/
def emitLine (ended : Bool) (bytes : Str) : List Str :=
  if readerSize ≤ bytes.length then emit (bytes.take readerSize) ++ emitLine ended (bytes.drop readerSize)
  else if bytes = [] ∧ ended = false then [] else emit bytes
termination_by bytes.length
decreasing_by
  rw [List.length_drop]
  have hpos : 0 < readerSize := by decide
  omega

/-- A line is less than the buffer holds, or a full buffer and a line. -/
theorem blocks_induction {P : Str → Prop} (short : ∀ u, u.length < readerSize → P u)
    (full : ∀ b u, b.length = readerSize → P u → P (b ++ u)) (u : Str) : P u := by
  induction hn : u.length using Nat.strong_induction_on generalizing u with
  | _ n ih =>
    rcases Nat.lt_or_ge u.length readerSize with hlt | hge
    · exact short u hlt
    · have hpos : 0 < readerSize := by decide
      have hrest := ih (u.drop readerSize).length (by rw [List.length_drop]; omega) _ rfl
      have hall := full (u.take readerSize) (u.drop readerSize) (List.length_take_of_le hge) hrest
      rwa [List.take_append_drop] at hall

theorem emitLine_short {ended : Bool} (hlen : u.length < readerSize) :
    emitLine ended u = if u = [] ∧ ended = false then [] else emit u := by
  rw [emitLine, if_neg (by omega)]

theorem emitLine_full {ended : Bool} {b : Str} (hb : b.length = readerSize) (u : Str) :
    emitLine ended (b ++ u) = emit b ++ emitLine ended u := by
  rw [emitLine, if_pos (by rw [List.length_append]; omega), List.take_left' hb, List.drop_left' hb]

theorem readLinesFrom_line (hbreak : '\n' ∉ u) (rest : Str) :
    readLinesFrom [] (u ++ '\n' :: rest) = emitLine true u ++ readLinesFrom [] rest := by
  induction u using blocks_induction with
  | short u hlen =>
    rw [readLinesFrom_break hbreak hlen, emitLine_short hlen, if_neg (by simp)]
  | full b u hb ih =>
    rw [List.mem_append, not_or] at hbreak
    rw [List.append_assoc, readLinesFrom_full hbreak.1 hb, ih hbreak.2, emitLine_full hb, List.append_assoc]

theorem readLinesFrom_last (hbreak : '\n' ∉ u) : readLinesFrom [] u = emitLine false u := by
  induction u using blocks_induction with
  | short u hlen =>
    rw [readLinesFrom_end hbreak hlen, emitLine_short hlen]
    simp only [and_true]
  | full b u hb ih =>
    rw [List.mem_append, not_or] at hbreak
    rw [readLinesFrom_full hbreak.1 hb, ih hbreak.2, emitLine_full hb]

/-- What is emitted of a stream is what is emitted of its lines. -/
theorem readLinesFrom_eq (stream : Str) :
    readLinesFrom [] stream = (streamLines stream).flatMap fun l => emitLine l.ended l.bytes := by
  induction hn : stream.length using Nat.strong_induction_on generalizing stream with
  | _ n ih =>
    rcases stream_cases stream with ⟨u, rest, rfl, hbreak⟩ | hbreak
    · rw [List.length_append, List.length_cons] at hn
      rw [readLinesFrom_line hbreak, ih rest.length (by omega) rest rfl, streamLines_break hbreak,
        List.flatMap_cons]
    · rw [readLinesFrom_last hbreak, streamLines_end hbreak]
      split
      · next h =>
        rw [h, emitLine_short (by decide), if_pos ⟨rfl, rfl⟩, List.flatMap_nil]
      · rw [List.flatMap_singleton]

/-! ## When that is the line -/

/-- How a line has to lie in the reader's buffers: none that is full within the line ends in a carriage
return, and what is left for the last one is neither a carriage return alone nor, before a break, nothing. -/
structure Clean (l : Line) : Prop where
  inner : ∀ j, 0 < j → j * readerSize < l.bytes.length → l.bytes[j * readerSize - 1]? ≠ some '\r'
  last : readerSize ≤ l.bytes.length → l.bytes.drop (l.bytes.length / readerSize * readerSize) ≠ ['\r']
  ended : readerSize ≤ l.bytes.length → l.ended = true → l.bytes.length % readerSize ≠ 0

theorem clean_of_short {l : Line} (hlen : l.bytes.length < readerSize) : Clean l := by
  refine ⟨fun j hj hlt => ?_, fun h => absurd h (Nat.not_le_of_lt hlen), fun h => absurd h (Nat.not_le_of_lt hlen)⟩
  have hle : 1 * readerSize ≤ j * readerSize := Nat.mul_le_mul_right _ hj
  omega

/-- A line that ends with a full buffer -/
theorem clean_full {ended : Bool} {b : Str} (hb : b.length = readerSize) :
    Clean ⟨ended, b⟩ ↔ ended = false := by
  have hpos : 0 < readerSize := by decide
  constructor
  · intro h
    have hmod := h.ended (Nat.le_of_eq hb.symm)
    rcases ended with _ | _
    · rfl
    · exact absurd (by rw [hb, Nat.mod_self]) (hmod rfl)
  · rintro rfl
    refine ⟨fun j hj hlt => ?_, fun _ => ?_, fun _ h => nomatch h⟩
    · have hle := Nat.le_mul_of_pos_left readerSize hj
      exact absurd (hb ▸ hlt) (Nat.not_lt_of_le hle)
    · dsimp only
      rw [hb, Nat.div_self hpos, Nat.one_mul, List.drop_of_length_le (Nat.le_of_eq hb)]
      exact (List.cons_ne_nil _ _).symm

/-- A line that goes on behind a full buffer -/
theorem clean_append {ended : Bool} {b : Str} (hb : b.length = readerSize) (hu : u ≠ []) :
    Clean ⟨ended, b ++ u⟩ ↔ b.getLast? ≠ some '\r' ∧ u ≠ ['\r'] ∧ Clean ⟨ended, u⟩ := by
  have hsize : 0 < readerSize := by decide
  have hpos := List.length_pos_iff.mpr hu
  have hlen : (b ++ u).length = readerSize + u.length := by rw [List.length_append, hb]
  have hdiv : (readerSize + u.length) / readerSize * readerSize =
      readerSize + u.length / readerSize * readerSize := by
    rw [Nat.add_div_left _ hsize, Nat.succ_mul, Nat.add_comm]
  -- the bytes at the ends of the buffers, and what is left for the last
  have hfirst : (b ++ u)[1 * readerSize - 1]? = b.getLast? := by
    rw [List.getLast?_eq_getElem?, List.getElem?_append_left (by omega), hb, Nat.one_mul]
  have hnext : ∀ j, 0 < j → (b ++ u)[(j + 1) * readerSize - 1]? = u[j * readerSize - 1]? := by
    intro j hj
    have hle := Nat.le_mul_of_pos_left readerSize hj
    have hback : j * readerSize + readerSize - 1 - readerSize = j * readerSize - 1 := by omega
    rw [Nat.succ_mul, List.getElem?_append_right (by omega), hb, hback]
  have hdrop : (b ++ u).drop ((b ++ u).length / readerSize * readerSize) =
      u.drop (u.length / readerSize * readerSize) := by
    rw [hlen, hdiv, ← hb, ← List.drop_drop, List.drop_left]
  constructor
  · intro h
    have hone : 1 * readerSize < (b ++ u).length := by
      rw [hlen]
      omega
    refine ⟨?_, ?_, fun j hj hlt => ?_, fun hle => ?_, fun hle hended => ?_⟩
    · rw [← hfirst]
      exact h.inner 1 Nat.one_pos hone
    · rintro rfl
      refine h.last (by rw [hlen]; omega) ?_
      dsimp only
      rw [hdrop]
      rfl
    · rw [← hnext j hj]
      refine h.inner (j + 1) (Nat.succ_pos j) ?_
      rw [hlen, Nat.succ_mul]
      dsimp only at hlt
      omega
    · have hlast := h.last (by rw [hlen]; omega)
      dsimp only at hlast ⊢
      rwa [hdrop] at hlast
    · have hmod := h.ended (by rw [hlen]; omega) hended
      rwa [hlen, Nat.add_mod_left] at hmod
  · rintro ⟨hlast, hcr, h⟩
    refine ⟨fun j hj hlt => ?_, fun _ => ?_, fun _ hended => ?_⟩
    · obtain ⟨j, rfl⟩ := Nat.exists_eq_add_of_le' hj
      rcases Nat.eq_zero_or_pos j with rfl | hj'
      · dsimp only
        rw [Nat.zero_add, hfirst]
        exact hlast
      · dsimp only
        rw [hnext j hj']
        rw [hlen, Nat.succ_mul] at hlt
        exact h.inner j hj' (by dsimp only; omega)
    · dsimp only
      rw [hdrop]
      rcases Nat.lt_or_ge u.length readerSize with hlt | hge
      · rw [Nat.div_eq_of_lt hlt, Nat.zero_mul, List.drop_zero]
        exact hcr
      · exact h.last hge
    · rw [hlen, Nat.add_mod_left]
      rcases Nat.lt_or_ge u.length readerSize with hlt | hge
      · rw [Nat.mod_eq_of_lt hlt]
        omega
      · exact h.ended hge hended

/-! ## Bytes lost and lines too many -/

theorem flatten_pieces (line : Str) : (pieces line).flatten = line := by
  induction line using pieces.induct with
  | case1 line hlong ih =>
    rw [pieces, if_pos hlong, List.flatten_cons, ih, List.take_append_drop]
  | case2 line hshort =>
    rw [pieces, if_neg hshort, List.flatten_singleton]

theorem mem_nil_pieces (line : Str) (h : [] ∈ pieces line) : line = [] := by
  induction line using pieces.induct with
  | case1 line hlong ih =>
    have hpos : 0 < maxLineBytes := by decide
    rw [pieces, if_pos hlong, List.mem_cons] at h
    rcases h with h | h
    · have hlen := congrArg List.length h
      rw [List.length_nil, List.length_take] at hlen
      omega
    · have hlen := congrArg List.length (ih h)
      rw [List.length_nil, List.length_drop] at hlen
      omega
  | case2 line hshort =>
    rw [pieces, if_neg hshort, List.mem_singleton] at h
    exact h.symm

theorem pieces_ne_nil (line : Str) : pieces line ≠ [] := by
  rw [pieces]
  split <;> exact List.cons_ne_nil _ _

theorem pieces_nil : pieces [] = [[]] := by
  rw [pieces, if_neg (by decide)]

/-- What the code cuts is cut as it is meant. -/
theorem cutInto_pieces (line : Str) : CutInto line (pieces line) := by
  refine ⟨flatten_pieces line, fun p hp => length_of_mem_pieces line hp, ?_⟩
  by_cases hnil : line = []
  · rw [hnil, pieces_nil]
    exact .inl rfl
  · exact .inr ⟨pieces_ne_nil line, mt (mem_nil_pieces line) hnil⟩

/-- Texts that are not empty are cut one after the other. -/
theorem CutInto.append {s t : Str} {ps qs : List Str} (hs : CutInto s ps) (ht : CutInto t qs)
    (hsne : s ≠ []) (htne : t ≠ []) : CutInto (s ++ t) (ps ++ qs) := by
  have hno : ∀ {t : Str} {qs : List Str}, CutInto t qs → t ≠ [] → qs ≠ [] ∧ [] ∉ qs := by
    intro t qs h hne
    refine h.noExtra.resolve_left ?_
    rintro rfl
    exact hne h.flatten.symm
  refine ⟨by rw [List.flatten_append, hs.flatten, ht.flatten], fun p hp => ?_, .inr ⟨?_, ?_⟩⟩
  · exact (List.mem_append.mp hp).elim (hs.short p) (ht.short p)
  · exact List.append_ne_nil_of_left_ne_nil (hno hs hsne).1 qs
  · rw [List.mem_append, not_or]
    exact ⟨(hno hs hsne).2, (hno ht htne).2⟩

/-- The carriage return at the end of a line is the one byte that is removed. -/
theorem length_trimSuffix (u : Str) :
    (trimSuffix u ['\r']).length + (if u.getLast? = some '\r' then 1 else 0) = u.length := by
  split
  · next h =>
    obtain ⟨v, rfl⟩ := List.getLast?_eq_some_iff.mp h
    rw [trimSuffix_append, List.length_append, List.length_singleton]
  · next h => rw [trimSuffix_of_getLast h, Nat.add_zero]

theorem trimSuffix_concat {c : Char} {b : Str} (hu : u ≠ []) :
    trimSuffix (b ++ u) [c] = b ++ trimSuffix u [c] := by
  have hlast : (b ++ u).getLast? = u.getLast? := by
    rw [List.getLast?_append]
    rcases h : u.getLast? with _ | d
    · exact absurd (List.getLast?_eq_none_iff.mp h) hu
    · rfl
  by_cases h : u.getLast? = some c
  · obtain ⟨v, rfl⟩ := List.getLast?_eq_some_iff.mp h
    rw [← List.append_assoc, trimSuffix_append, trimSuffix_append]
  · rw [trimSuffix_of_getLast h, trimSuffix_of_getLast (hlast ▸ h)]

theorem trimSuffix_eq_nil {c : Char} (hu : u ≠ []) : trimSuffix u [c] = [] ↔ u = [c] := by
  by_cases h : u.getLast? = some c
  · obtain ⟨v, rfl⟩ := List.getLast?_eq_some_iff.mp h
    rw [trimSuffix_append]
    simp
  · rw [trimSuffix_of_getLast h]
    refine ⟨fun hnil => absurd hnil hu, ?_⟩
    rintro rfl
    exact absurd rfl h

theorem count_nil_pieces (line : Str) : (pieces line).count [] = if line = [] then 1 else 0 := by
  split
  · next h => rw [h, pieces_nil, List.count_singleton_self]
  · next h => exact List.count_eq_zero_of_not_mem (mt (mem_nil_pieces line) h)

/-- Of a line bytes are lost or empty pieces are too many, unless it is clean. -/
theorem emitLine_counts {ended : Bool} (hline : ended = true ∨ u ≠ []) :
    (if trimSuffix u ['\r'] = [] then 1 else 0) + (emitLine ended u).flatten.length ≤
        (emitLine ended u).count [] + (trimSuffix u ['\r']).length ∧
      ((emitLine ended u).count [] + (trimSuffix u ['\r']).length ≤
        (if trimSuffix u ['\r'] = [] then 1 else 0) + (emitLine ended u).flatten.length →
          Clean ⟨ended, u⟩) := by
  induction u using blocks_induction with
  | short u hlen =>
    have hout : emitLine ended u = pieces (trimSuffix u ['\r']) := by
      rw [emitLine_short hlen, if_neg]
      · rfl
      · rintro ⟨rfl, rfl⟩
        exact hline.elim (fun h => nomatch h) (fun h => h rfl)
    rw [hout, flatten_pieces, count_nil_pieces]
    exact ⟨Nat.le_refl _, fun _ => clean_of_short hlen⟩
  | full b u hb ih =>
    have hB : readerSize = 65536 := rfl
    have hbtrim := length_trimSuffix b
    have hbne : trimSuffix b ['\r'] ≠ [] := by
      intro h
      rw [h, List.length_nil] at hbtrim
      split at hbtrim <;> omega
    have hbemit : (emit b).flatten = trimSuffix b ['\r'] := flatten_pieces _
    have hbcount : (emit b).count [] = 0 := by
      rw [emit, count_nil_pieces, if_neg hbne]
    rw [emitLine_full hb, List.count_append, List.flatten_append, List.length_append, hbcount, hbemit]
    by_cases hu : u = []
    · subst hu
      rw [List.append_nil, if_neg hbne, emitLine_short (by decide), clean_full hb]
      rcases ended with _ | _
      · rw [if_pos ⟨rfl, rfl⟩]
        exact ⟨Nat.le_of_eq (by simp), fun _ => rfl⟩
      · have hnil : emit [] = [[]] := pieces_nil
        rw [if_neg (by simp), hnil, List.count_singleton_self]
        simp only [List.flatten_cons, List.flatten_nil, List.append_nil, List.length_nil]
        omega
    · obtain ⟨hle, hclean⟩ := ih (.inr hu)
      have hne : b ++ trimSuffix u ['\r'] ≠ [] :=
        List.append_ne_nil_of_left_ne_nil (by rintro rfl; exact absurd hb (by decide)) _
      rw [trimSuffix_concat hu, clean_append hb hu, if_neg hne, List.length_append]
      refine ⟨by omega, fun hge => ?_⟩
      -- what is lost or too many in front cannot be made up for behind
      have hlast : b.getLast? ≠ some '\r' := by
        intro h
        rw [if_pos h] at hbtrim
        omega
      have htext : trimSuffix u ['\r'] ≠ [] := by
        intro h
        rw [if_pos h] at hle
        omega
      rw [if_neg htext] at hle hclean
      exact ⟨hlast, mt (trimSuffix_eq_nil hu).mpr htext, hclean (by omega)⟩

/-- A clean line is cut as it is meant. -/
theorem cutInto_emitLine {ended : Bool} (hline : ended = true ∨ u ≠ []) (h : Clean ⟨ended, u⟩) :
    CutInto (trimSuffix u ['\r']) (emitLine ended u) := by
  induction u using blocks_induction with
  | short u hlen =>
    rw [emitLine_short hlen, if_neg]
    · exact cutInto_pieces _
    · rintro ⟨rfl, rfl⟩
      exact hline.elim (fun h => nomatch h) (fun h => h rfl)
  | full b u hb ih =>
    have hbne : b ≠ [] := by
      rintro rfl
      exact absurd hb (by decide)
    rw [emitLine_full hb]
    by_cases hu : u = []
    · subst hu
      rw [List.append_nil, clean_full hb] at h
      rw [h, emitLine_short (by decide), if_pos ⟨rfl, rfl⟩, List.append_nil, List.append_nil]
      exact cutInto_pieces _
    · obtain ⟨hlast, hcr, hclean⟩ := (clean_append hb hu).mp h
      have hemit : emit b = pieces b := by rw [emit, trimSuffix_of_getLast hlast]
      rw [trimSuffix_concat hu, hemit]
      exact (cutInto_pieces b).append (ih (.inr hu) hclean) hbne (mt (trimSuffix_eq_nil hu).mp hcr)

/-! ## The lines of a stream -/

/-- A line of a stream is not empty unless a break ends it. -/
theorem of_mem_streamLines {l : Line} (h : l ∈ streamLines stream) : l.ended = true ∨ l.bytes ≠ [] := by
  have hparts : ∀ parts : List Str, l ∈ linesOfParts parts → l.ended = true ∨ l.bytes ≠ [] := by
    intro parts
    induction parts with
    | nil => exact fun h => nomatch h
    | cons part parts ih =>
      by_cases hnil : parts = []
      · rw [hnil, linesOfParts]
        split
        · exact fun h => nomatch h
        · next hne =>
          intro h
          rw [List.mem_singleton.mp h]
          exact .inr hne
      · rw [linesOfParts_cons part hnil, List.mem_cons]
        rintro (rfl | h)
        · exact .inl rfl
        · exact ih h
  exact hparts _ h

/-- Each line counts for itself: where nothing is lost or too many in all, nothing is in any line. -/
theorem clean_of_counts {lines : List Line} (hlines : ∀ l ∈ lines, l.ended = true ∨ l.bytes ≠ [])
    (h : (lines.map fun l => (emitLine l.ended l.bytes).count [] + l.text.length).sum ≤
      (lines.map fun l => (if l.text = [] then 1 else 0) + (emitLine l.ended l.bytes).flatten.length).sum) :
    ∀ l ∈ lines, Clean l := by
  have hcounts : ∀ l ∈ lines, (if l.text = [] then 1 else 0) + (emitLine l.ended l.bytes).flatten.length ≤
      (emitLine l.ended l.bytes).count [] + l.text.length := fun l hl => (emitLine_counts (hlines l hl)).1
  have hclean : ∀ l ∈ lines, (emitLine l.ended l.bytes).count [] + l.text.length ≤
      (if l.text = [] then 1 else 0) + (emitLine l.ended l.bytes).flatten.length → Clean l :=
    fun l hl => (emitLine_counts (hlines l hl)).2
  clear hlines
  induction lines with
  | nil => exact fun l hl => nomatch hl
  | cons l lines ih =>
    have hrest := fun l hl => hcounts l (List.mem_cons_of_mem _ hl)
    have hfirst := hcounts l List.mem_cons_self
    have hsum := List.sum_le_sum hrest
    rw [List.map_cons, List.map_cons, List.sum_cons, List.sum_cons] at h
    intro l' hl'
    rcases List.mem_cons.mp hl' with rfl | hl'
    · exact hclean l' List.mem_cons_self (by omega)
    · exact ih (by omega) hrest (fun l hl => hclean l (List.mem_cons_of_mem _ hl)) l' hl'

theorem CutInto.count_nil {text : Str} {ps : List Str} (h : CutInto text ps) :
    ps.count [] = if text = [] then 1 else 0 := by
  rcases h.noExtra with hps | ⟨hne, hno⟩
  · have htext : text = [] := by rw [← h.flatten, hps]; rfl
    rw [hps, if_pos htext, List.count_singleton_self]
  · have htext : text ≠ [] := by
      obtain ⟨p, ps', rfl⟩ := List.exists_cons_of_ne_nil hne
      rw [← h.flatten, List.flatten_cons]
      exact List.append_ne_nil_of_left_ne_nil (fun hp => hno (hp ▸ List.mem_cons_self)) _
    rw [if_neg htext, List.count_eq_zero_of_not_mem hno]

/-- Pieces of texts hold all their bytes, and an empty piece for each that is empty. -/
theorem counts_of_groups {texts : List Str} {groups : List (List Str)}
    (h : List.Forall₂ CutInto texts groups) :
    groups.flatten.count [] = (texts.map fun t => if t = [] then 1 else 0).sum ∧
      groups.flatten.flatten.length = (texts.map List.length).sum := by
  induction h with
  | nil => exact ⟨rfl, rfl⟩
  | cons hcut _ ih =>
    simp only [List.flatten_cons, List.count_append, List.flatten_append, List.length_append, List.map_cons,
      List.sum_cons, hcut.count_nil, hcut.flatten, ih.1, ih.2, and_self]

theorem counts_flatMap (f : Line → List Str) (lines : List Line) :
    (lines.flatMap f).count [] = (lines.map fun l => (f l).count []).sum ∧
      (lines.flatMap f).flatten.length = (lines.map fun l => (f l).flatten.length).sum := by
  induction lines with
  | nil => exact ⟨rfl, rfl⟩
  | cons l lines ih =>
    simp only [List.flatMap_cons, List.count_append, List.flatten_append, List.length_append, List.map_cons,
      List.sum_cons, ih.1, ih.2, and_self]

theorem exactly_iff_clean (stream : Str) :
    Exactly stream (readLinesFrom [] stream) ↔ ∀ l ∈ streamLines stream, Clean l := by
  rw [readLinesFrom_eq]
  constructor
  · rintro ⟨groups, hcut, hflat⟩
    obtain ⟨hblank, hbytes⟩ := counts_of_groups hcut
    refine clean_of_counts (fun l hl => of_mem_streamLines hl) (Nat.le_of_eq ?_)
    obtain ⟨hblank', hbytes'⟩ := counts_flatMap (fun l : Line => emitLine l.ended l.bytes) (streamLines stream)
    rw [hflat, hblank, List.map_map] at hblank'
    rw [hflat, hbytes, List.map_map] at hbytes'
    rw [List.sum_map_add, List.sum_map_add, ← hblank', ← hbytes']
    rfl
  · intro hclean
    refine ⟨(streamLines stream).map fun l => emitLine l.ended l.bytes, ?_, rfl⟩
    rw [List.forall₂_map_left_iff, List.forall₂_map_right_iff, List.forall₂_same]
    exact fun l hl => cutInto_emitLine (of_mem_streamLines hl) (hclean l hl)

/-- The lines are those of the stream, whatever the chunks and the error behind them. -/
theorem readLinesOf_eq {rd : List (Input Char ε)} {err : ε} {es : List (Except ε Char)}
    (h : rd.flatMap Input.events = stream.map .ok ++ .error err :: es) :
    readLinesOf rd = readLinesFrom [] stream :=
  readFrom_eq (r := newReaderSize rd readerSize (by decide)) rfl h

/-- What is read of a stream, in whatever chunks it comes, is exactly its lines, cut into pieces, if and
only if all of them lie well in the reader's buffers. -/
theorem readLines_exactly_iff (rd : List (Input Char ε)) (stream : Str) (err : ε)
    (es : List (Except ε Char)) (h : rd.flatMap Input.events = stream.map .ok ++ .error err :: es) :
    Exactly stream (readLinesOf rd) ↔ ∀ l ∈ streamLines stream, Clean l := by
  rw [readLinesOf_eq h]
  exact exactly_iff_clean stream

/-- Two chunks that part a line break. -/
theorem readLines_exactly_two :
    Exactly "a\r\nb".toList (readLinesOf
      [⟨"a\r".toList, none, .inl (by decide)⟩, ⟨"\nb".toList, some (), .inl (by decide)⟩]) := by
  refine (readLines_exactly_iff _ "a\r\nb".toList () [] rfl).mpr fun l hl => clean_of_short ?_
  have hshort : ∀ l ∈ streamLines "a\r\nb".toList, l.bytes.length < readerSize := by decide
  exact hshort l hl

/-- Behind a line that fills the buffer comes an empty one, and a carriage return that ends a full buffer
is lost. -/
theorem readLines_not_exactly :
    ¬ Exactly (List.replicate readerSize 'x' ++ ['\n']) (readLinesOf
        [⟨List.replicate readerSize 'x' ++ ['\n'], some (), .inr (by simp)⟩]) ∧
      ¬ Exactly (List.replicate (readerSize - 1) 'x' ++ ['\r', 'y']) (readLinesOf
        [⟨List.replicate (readerSize - 1) 'x' ++ ['\r', 'y'], some (), .inr (by simp)⟩]) := by
  have hno : ∀ n, '\n' ∉ List.replicate n 'x' := fun n h => absurd (List.eq_of_mem_replicate h) (by decide)
  have hfull : (List.replicate (readerSize - 1) 'x' ++ ['\r']).length = readerSize := by
    rw [List.length_append, List.length_replicate]
    rfl
  constructor
  · rw [readLinesOf_eq (List.append_nil _), exactly_iff_clean, streamLines_break (hno _)]
    intro h
    exact nomatch (clean_full List.length_replicate).mp (h _ List.mem_cons_self)
  · have hsplit : List.replicate (readerSize - 1) 'x' ++ ['\r', 'y'] =
        List.replicate (readerSize - 1) 'x' ++ ['\r'] ++ ['y'] := by rw [List.append_assoc]; rfl
    have hbreak : '\n' ∉ List.replicate (readerSize - 1) 'x' ++ ['\r', 'y'] := by
      rw [List.mem_append, not_or]
      exact ⟨hno _, by decide⟩
    rw [readLinesOf_eq (List.append_nil _), exactly_iff_clean, streamLines_end hbreak, hsplit, if_neg (by simp)]
    intro h
    have hlast := ((clean_append hfull (List.cons_ne_nil _ _)).mp (h _ List.mem_cons_self)).1
    exact hlast (by rw [List.getLast?_append]; rfl)

end Instances.Console
