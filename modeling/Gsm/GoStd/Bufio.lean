import Mathlib.Data.List.Basic

/-!
# Go's `bufio.Reader`

A reader with a buffer over one that gives bytes in chunks, with errors in between. What matters to
`ReadByte` is only which bytes and errors are to come, in their order. `ReadSlice` also depends on whether
an error has come by the time the buffer is full, and on nothing else of how the bytes are cut.

A call that waits for something that never comes has no result.
-/

namespace GoStd.Bufio

variable {α ε : Type*}

/-- What a call of `Read` on the underlying reader gives: bytes, an error or both. -/
structure Input (α ε : Type*) where
  bytes : List α
  err : Option ε
  gives : bytes ≠ [] ∨ err ≠ none

/-- The bytes and errors of one call, in the order in which they are seen. -/
def Input.events (i : Input α ε) : List (Except ε α) := i.bytes.map .ok ++ i.err.toList.map .error

/-- How `ReadSlice` ends. -/
inductive SliceEnd (ε : Type*) where
  | found
  /-- `bufio.ErrBufferFull` -/
  | bufferFull
  | err (err : ε)

/-- `bufio.Reader` -/
structure Reader (α ε : Type*) where
  size : ℕ
  /-- what is buffered -/
  buf : List α
  err : Option ε
  /-- what the calls of `Read` to come give -/
  rd : List (Input α ε)
  fits : buf.length ≤ size
  pos : 0 < size

/-- `bufio.NewReaderSize` -/
def newReaderSize (rd : List (Input α ε)) (size : ℕ) (pos : 0 < size) : Reader α ε :=
  ⟨size, [], none, rd, Nat.zero_le _, pos⟩

namespace Reader

/-- All that is still to come. -/
def events (r : Reader α ε) : List (Except ε α) :=
  r.buf.map .ok ++ r.err.toList.map .error ++ r.rd.flatMap Input.events

theorem events_newReaderSize (rd : List (Input α ε)) (size : ℕ) (pos : 0 < size) :
    (newReaderSize rd size pos).events = rd.flatMap Input.events := rfl

/-- `n` bytes of the buffer are given away. -/
def advance (r : Reader α ε) (n : ℕ) : Reader α ε :=
  { r with
    buf := r.buf.drop n
    fits := by have := r.fits; rw [List.length_drop]; omega }

/-- `readErr`: an error is given once. -/
def readErr (r : Reader α ε) : Reader α ε := { r with err := none }

variable {r r' : Reader α ε}

/-- What is buffered comes first, then an error that is pending. -/
theorem events_advance_readErr {err : ε} (herr : r.err = some err) :
    r.events = r.buf.map .ok ++ .error err :: (r.advance r.buf.length).readErr.events := by
  simp only [events, advance, readErr, herr, List.drop_length, Option.toList_some, Option.toList_none,
    List.map_cons, List.map_nil, List.append_assoc, List.cons_append, List.nil_append]

theorem events_advance (r : Reader α ε) (n : ℕ) :
    r.events = (r.buf.take n).map .ok ++ (r.advance n).events := by
  simp only [events, advance]
  rw [← List.append_assoc, ← List.append_assoc, ← List.map_append, List.take_append_drop]

/-- `fill` reads a new chunk into the buffer, which has room for some of it. -/
def fill (r : Reader α ε) : Option (Reader α ε) :=
  match r.rd with
  | [] => none
  | i :: rd =>
      if h : r.buf.length + i.bytes.length ≤ r.size then
        some { r with
          buf := r.buf ++ i.bytes
          err := i.err
          rd := rd
          fits := by rw [List.length_append]; exact h }
      else
        let room := r.size - r.buf.length
        some { r with
          buf := r.buf ++ i.bytes.take room
          rd := ⟨i.bytes.drop room, i.err,
            .inl (by have := r.fits; rw [Ne, List.drop_eq_nil_iff]; omega)⟩ :: rd
          fits := by have := r.fits; rw [List.length_append, List.length_take]; omega }

theorem fill_eq_none : r.fill = none ↔ r.rd = [] := by
  unfold fill
  rcases r.rd with _ | ⟨i, rd⟩
  · exact ⟨fun _ => rfl, fun _ => rfl⟩
  · dsimp only
    split <;> exact iff_of_false (Option.some_ne_none _) (List.cons_ne_nil _ _)

/-- What `fill` does when nothing is buffered that could be returned instead. -/
theorem of_fill (herr : r.err = none) (hroom : r.buf.length < r.size) (h : r.fill = some r') :
    r'.events = r.events ∧ r'.size = r.size ∧ r.buf.length ≤ r'.buf.length ∧
      (r.buf.length < r'.buf.length ∨ r'.err ≠ none) := by
  rw [fill] at h
  split at h
  · exact nomatch h
  · next i rd hrd =>
    have hevents : r.events = r.buf.map .ok ++ (i.bytes.map .ok ++ (i.err.toList.map .error ++
        rd.flatMap Input.events)) := by
      simp only [events, herr, hrd, Input.events, List.flatMap_cons, List.append_assoc,
        Option.toList_none, List.map_nil, List.nil_append]
    split at h
    · obtain rfl := Option.some.inj h
      refine ⟨?_, rfl, ?_, ?_⟩
      · rw [hevents]
        simp only [events, List.map_append, List.append_assoc]
      · rw [List.length_append]
        omega
      · rcases i.gives with hne | hne
        · have hpos := List.length_pos_iff.mpr hne
          exact .inl (by rw [List.length_append]; omega)
        · exact .inr hne
    · obtain rfl := Option.some.inj h
      refine ⟨?_, rfl, ?_, .inl ?_⟩
      · have hcut : i.bytes.map (Except.ok (ε := ε)) = (i.bytes.take (r.size - r.buf.length)).map .ok ++
            (i.bytes.drop (r.size - r.buf.length)).map .ok := by
          rw [← List.map_append, List.take_append_drop]
        rw [hevents, hcut]
        simp only [events, herr, Input.events, List.map_append, List.flatMap_cons, List.append_assoc,
          Option.toList_none, List.map_nil, List.nil_append]
      · rw [List.length_append]
        omega
      · rw [List.length_append, List.length_take]
        omega

/-- After `fill` the loops of `ReadByte` and `ReadSlice` have less to wait for. -/
theorem waits_lt (herr : r.err = none) (hroom : r.buf.length < r.size) (h : r.fill = some r') :
    r'.size - r'.buf.length + (if r'.err.isNone then 1 else 0) <
      r.size - r.buf.length + (if r.err.isNone then 1 else 0) := by
  obtain ⟨-, hsize, hle, hgives⟩ := of_fill herr hroom h
  rw [herr, hsize, Option.isNone_none, if_pos rfl]
  rcases hgives with hlt | hne
  · split <;> omega
  · rw [if_neg (mt Option.isNone_iff_eq_none.mp hne)]
    omega

/-! ## One byte -/

/-- `ReadByte` -/
def readByte (r : Reader α ε) : Option (Except ε α × Reader α ε) :=
  match _hbuf : r.buf with
  | c :: _ => some (.ok c, r.advance 1)
  | [] =>
      match _herr : r.err with
      | some err => some (.error err, r.readErr)
      | none =>
          match _hfill : r.fill with
          | none => none
          | some r' => readByte r'
termination_by r.size - r.buf.length + if r.err.isNone then 1 else 0
decreasing_by exact waits_lt _herr (by rw [_hbuf]; exact r.pos) _hfill

/-- What is read is what comes first; nothing is read only where nothing more comes. -/
theorem readByte_events (r : Reader α ε) :
    (r.readByte = none ∧ r.events = []) ∨
      ∃ x r', r.readByte = some (x, r') ∧ r.events = x :: r'.events := by
  fun_induction readByte r with
  | case1 r c buf hbuf =>
    refine .inr ⟨.ok c, r.advance 1, rfl, ?_⟩
    simp only [events, advance, hbuf]
    rfl
  | case2 r hbuf err herr =>
    refine .inr ⟨.error err, r.readErr, rfl, ?_⟩
    simp only [events, readErr, hbuf, herr]
    rfl
  | case3 r hbuf herr hfill =>
    refine .inl ⟨rfl, ?_⟩
    simp only [events, hbuf, herr, fill_eq_none.mp hfill]
    rfl
  | case4 r hbuf herr r' hfill ih =>
    rw [← (of_fill herr (by rw [hbuf]; exact r.pos) hfill).1]
    exact ih

theorem events_of_readByte {x : Except ε α} (h : r.readByte = some (x, r')) : r.events = x :: r'.events := by
  rcases r.readByte_events with ⟨hnone, -⟩ | ⟨y, r'', hsome, hevents⟩
  · exact nomatch hnone.symm.trans h
  · obtain ⟨rfl, rfl⟩ := Prod.mk.inj (Option.some.inj (hsome.symm.trans h))
    exact hevents

theorem events_of_readByte_none (h : r.readByte = none) : r.events = [] := by
  rcases r.readByte_events with ⟨-, hnil⟩ | ⟨y, r'', hsome, -⟩
  · exact hnil
  · exact nomatch h.symm.trans hsome

/-- What is read is not still to come. -/
theorem length_events_of_readByte {x : Except ε α} (h : r.readByte = some (x, r')) :
    r'.events.length < r.events.length := by
  rw [events_of_readByte h]
  exact Nat.lt_succ_self _

/-! ## Up to a delimiter -/

variable [DecidableEq α]

/-- `ReadSlice` -/
def readSlice (delim : α) (r : Reader α ε) : Option (List α × SliceEnd ε × Reader α ε) :=
  if delim ∈ r.buf then
    let i := r.buf.idxOf delim
    some (r.buf.take (i + 1), .found, r.advance (i + 1))
  else
    match _herr : r.err with
    | some err => some (r.buf, .err err, (r.advance r.buf.length).readErr)
    | none =>
        if _hfull : r.size ≤ r.buf.length then some (r.buf, .bufferFull, r.advance r.buf.length)
        else
          match _hfill : r.fill with
          | none => none
          | some r' => readSlice delim r'
termination_by r.size - r.buf.length + if r.err.isNone then 1 else 0
decreasing_by exact waits_lt _herr (Nat.lt_of_not_le _hfull) _hfill

/-- What `ReadSlice` comes to, by what comes first: a delimiter within the size of the buffer, so many
bytes without one, an error before that, or nothing more. -/
def Slices (delim : α) (r : Reader α ε) : Option (List α × SliceEnd ε × Reader α ε) → Prop
  | some (chunk, .found, r') => ∃ before, chunk = before ++ [delim] ∧ delim ∉ before ∧
      before.length < r.size ∧ r.events = chunk.map .ok ++ r'.events ∧ r'.size = r.size
  | some (chunk, .bufferFull, r') => delim ∉ chunk ∧ chunk.length = r.size ∧
      r.events = chunk.map .ok ++ r'.events ∧ r'.size = r.size
  | some (chunk, .err err, r') => delim ∉ chunk ∧ chunk.length ≤ r.size ∧
      r.events = chunk.map .ok ++ .error err :: r'.events ∧ r'.size = r.size
  | none => ∃ chunk : List α, delim ∉ chunk ∧ chunk.length < r.size ∧ r.events = chunk.map .ok

theorem slices_readSlice (delim : α) (r : Reader α ε) : r.Slices delim (r.readSlice delim) := by
  fun_induction readSlice delim r with
  | case1 r hmem i =>
    have hlt : i < r.buf.length := List.idxOf_lt_length_iff.mpr hmem
    have htake : r.buf.take (i + 1) = r.buf.take i ++ [delim] := by
      rw [List.take_succ_eq_append_getElem hlt, List.getElem_idxOf hlt]
    refine ⟨r.buf.take i, htake, ?_, ?_, events_advance r (i + 1), rfl⟩
    · rw [List.mem_take_iff_idxOf_lt hmem]
      exact Nat.lt_irrefl _
    · have hfits := r.fits
      rw [List.length_take]
      omega
  | case2 r hmem err herr => exact ⟨hmem, r.fits, events_advance_readErr herr, rfl⟩
  | case3 r hmem herr hfull =>
    have hall := events_advance r r.buf.length
    rw [List.take_length] at hall
    exact ⟨hmem, Nat.le_antisymm r.fits hfull, hall, rfl⟩
  | case4 r hmem herr hfull hfill =>
    refine ⟨r.buf, hmem, Nat.lt_of_not_le hfull, ?_⟩
    simp only [events, herr, fill_eq_none.mp hfill, Option.toList_none, List.map_nil, List.flatMap_nil,
      List.append_nil]
  | case5 r hmem herr hfull r' hfill ih =>
    obtain ⟨hevents, hsize, -⟩ := of_fill herr (Nat.lt_of_not_le hfull) hfill
    unfold Slices at ih ⊢
    rw [← hevents, ← hsize]
    exact ih

end Reader

end GoStd.Bufio
