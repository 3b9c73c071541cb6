import Gsm.GoStd.Bufio
import Gsm.Instances.ConsoleLines

/-!
# Lines of a telnet stream

`telnetReader` over its buffered reader, with reads that fail at a deadline and are tried again. The bytes
of a pending line are kept when a read fails, but not where the reader is in a command: the next read takes
what is left of one for text. `Plain` has the streams in which that and two other slips do no harm.
-/

open GoStd GoStd.Bufio

namespace Instances.TelnetReader

open Console (trimReturns transportMaxLine telnetIAC Phase)

variable {β ε : Type*}

def telnetSB : Char := Char.ofNat 250

def telnetSE : Char := Char.ofNat 240

def nul : Char := Char.ofNat 0

/-- How a call ends: it waits for a byte, fails or is done; `cur` is the pending line by then. -/
inductive Ends (β ε : Type*) where
  | waits (cur : Str)
  | fails (err : ε) (cur : Str) (r : Reader Char ε)
  | gives (x : β) (cur : Str) (r : Reader Char ε)

/-- What is still to come then. -/
def Ends.left : Ends β ε → List (Except ε Char)
  | waits _ => []
  | fails _ _ r | gives _ _ r => r.events

/-- The loop of `skipCommand` in a subnegotiation -/
def skipSubnegotiation (cur : Str) (prev : Char) (r : Reader Char ε) : Ends Unit ε :=
  match _h : r.readByte with
  | none => .waits cur
  | some (.error err, r') => .fails err cur r'
  | some (.ok b, r') =>
      if prev = telnetIAC ∧ b = telnetSE then .gives () cur r' else skipSubnegotiation cur b r'
termination_by r.events.length
decreasing_by exact Reader.length_events_of_readByte _h

/-- `skipCommand` -/
def skipCommand (cur : Str) (r : Reader Char ε) : Ends Unit ε :=
  match r.readByte with
  | none => .waits cur
  | some (.error err, r) => .fails err cur r
  | some (.ok cmd, r) =>
      if cmd = telnetIAC then .gives () (cur ++ [telnetIAC]) r
      else if 251 ≤ cmd.toNat then
        match r.readByte with
        | none => .waits cur
        | some (.error err, r) => .fails err cur r
        | some (.ok _, r) => .gives () cur r
      else if cmd = telnetSB then skipSubnegotiation cur nul r
      else .gives () cur r

variable {cur : Str} {prev : Char} {r r' : Reader Char ε}

theorem length_left_skipSubnegotiation (cur : Str) (prev : Char) (r : Reader Char ε) :
    (skipSubnegotiation cur prev r).left.length ≤ r.events.length := by
  fun_induction skipSubnegotiation cur prev r with
  | case1 => exact Nat.zero_le _
  | case2 _ _ _ _ h => exact (Reader.length_events_of_readByte h).le
  | case3 _ _ _ _ h => exact (Reader.length_events_of_readByte h).le
  | case4 _ _ _ _ h _ ih => exact ih.trans (Reader.length_events_of_readByte h).le

theorem length_left_skipCommand (cur : Str) (r : Reader Char ε) :
    (skipCommand cur r).left.length ≤ r.events.length := by
  rw [skipCommand]
  rcases h : r.readByte with _ | ⟨err | cmd, r'⟩
  · exact Nat.zero_le _
  · exact (Reader.length_events_of_readByte h).le
  · have hle := (Reader.length_events_of_readByte h).le
    dsimp only
    split
    · exact hle
    split
    · rcases h' : r'.readByte with _ | ⟨err | option, r''⟩
      · exact Nat.zero_le _
      · exact (Reader.length_events_of_readByte h').le.trans hle
      · exact (Reader.length_events_of_readByte h').le.trans hle
    split
    · exact (length_left_skipSubnegotiation cur nul r').trans hle
    · exact hle

/-- A byte of a line; those beyond the limit are dropped. -/
def push (cur : Str) (b : Char) : Str := if cur.length < transportMaxLine then cur ++ [b] else cur

/-- `readLine` -/
def readLine (cur : Str) (r : Reader Char ε) : Ends Str ε :=
  match _h : r.readByte with
  | none => .waits cur
  | some (.error err, r') => .fails err cur r'
  | some (.ok b, r') =>
      if b = telnetIAC then
        match _h' : skipCommand cur r' with
        | .waits cur' => .waits cur'
        | .fails err cur' r'' => .fails err cur' r''
        | .gives _ cur' r'' => readLine cur' r''
      else if b = '\n' then .gives (trimReturns cur) [] r'
      else if b = nul then readLine cur r'
      else readLine (push cur b) r'
termination_by r.events.length
decreasing_by
  · have hle := length_left_skipCommand cur r'
    rw [_h'] at hle
    exact hle.trans_lt (Reader.length_events_of_readByte _h)
  · exact Reader.length_events_of_readByte _h
  · exact Reader.length_events_of_readByte _h

/-- A call that fails or gives a line has read something. -/
theorem length_left_readLine (cur : Str) (r : Reader Char ε) :
    (∃ cur', readLine cur r = .waits cur') ∨ (readLine cur r).left.length < r.events.length := by
  fun_induction readLine cur r with
  | case1 => exact .inl ⟨_, rfl⟩
  | case2 _ _ _ _ h => exact .inr (Reader.length_events_of_readByte h)
  | case3 => exact .inl ⟨_, rfl⟩
  | case4 cur r r' err cur' r'' h' h =>
    have hle := length_left_skipCommand cur r'
    rw [h'] at hle
    exact .inr (hle.trans_lt (Reader.length_events_of_readByte h))
  | case5 cur r r' _ cur' r'' h' h ih =>
    have hle := length_left_skipCommand cur r'
    rw [h'] at hle
    exact ih.imp_right fun hlt => hlt.trans (hle.trans_lt (Reader.length_events_of_readByte h))
  | case6 _ _ _ h => exact .inr (Reader.length_events_of_readByte h)
  | case7 _ _ _ h _ _ ih => exact ih.imp_right fun hlt => hlt.trans (Reader.length_events_of_readByte h)
  | case8 _ _ _ _ h _ _ _ ih => exact ih.imp_right fun hlt => hlt.trans (Reader.length_events_of_readByte h)

/-- Calls of `readLine` one after another, again after those that fail: the lines, and what is pending. -/
def readLines (cur : Str) (r : Reader Char ε) : List Str × Str :=
  match _h : readLine cur r with
  | .waits cur' => ([], cur')
  | .fails _ cur' r' => readLines cur' r'
  | .gives line cur' r' => (line :: (readLines cur' r').1, (readLines cur' r').2)
termination_by r.events.length
decreasing_by
  all_goals
    have hleft := (length_left_readLine cur r).resolve_left (by rw [_h]; exact fun ⟨_, h⟩ => nomatch h)
    rwa [_h] at hleft

/-! ## Bytes and deadlines one by one -/

/-- The reader by the bytes and errors that come: where it is in a command, and its pending line. -/
def run (phase : Phase) (cur : Str) : List (Except ε Char) → List Str × Str
  | [] => ([], cur)
  | .error _ :: es => run .text cur es
  | .ok b :: es =>
      match phase with
      | .text =>
          if b = telnetIAC then run .command cur es
          else if b = '\n' then (trimReturns cur :: (run .text [] es).1, (run .text [] es).2)
          else if b = nul then run .text cur es
          else run .text (push cur b) es
      | .command =>
          if b = telnetIAC then run .text (cur ++ [telnetIAC]) es
          else if 251 ≤ b.toNat then run .option cur es
          else if b = telnetSB then run (.subnegotiation nul) cur es
          else run .text cur es
      | .option => run .text cur es
      | .subnegotiation prev =>
          if prev = telnetIAC ∧ b = telnetSE then run .text cur es else run (.subnegotiation b) cur es

/-- What the calls from then on come to. -/
def Ends.goOn : Ends Unit ε → List Str × Str
  | waits cur => ([], cur)
  | fails _ cur r | gives _ cur r => run .text cur r.events

theorem run_subnegotiation (cur : Str) (prev : Char) (r : Reader Char ε) :
    run (.subnegotiation prev) cur r.events = (skipSubnegotiation cur prev r).goOn := by
  fun_induction skipSubnegotiation cur prev r with
  | case1 prev r h =>
    rw [Reader.events_of_readByte_none h]
    rfl
  | case2 prev r err r' h =>
    rw [Reader.events_of_readByte h]
    rfl
  | case3 prev r b r' h hend =>
    rw [Reader.events_of_readByte h, run]
    exact if_pos hend
  | case4 prev r b r' h hend ih =>
    rw [Reader.events_of_readByte h, run, ← ih]
    exact if_neg hend

theorem run_command (cur : Str) (r : Reader Char ε) :
    run .command cur r.events = (skipCommand cur r).goOn := by
  rw [skipCommand]
  rcases h : r.readByte with _ | ⟨err | cmd, r'⟩
  · rw [Reader.events_of_readByte_none h]
    rfl
  · rw [Reader.events_of_readByte h]
    rfl
  · rw [Reader.events_of_readByte h, run]
    dsimp only
    split
    · rfl
    split
    · rcases h' : r'.readByte with _ | ⟨err | option, r''⟩
      · rw [Reader.events_of_readByte_none h']
        rfl
      · rw [Reader.events_of_readByte h']
        rfl
      · rw [Reader.events_of_readByte h']
        rfl
    split
    · exact run_subnegotiation cur nul r'
    · rfl

/-- What the calls of `readLine` come to, with the calls after them. -/
def Ends.lines : Ends Str ε → List Str × Str
  | waits cur => ([], cur)
  | fails _ cur r => run .text cur r.events
  | gives line cur r => (line :: (run .text cur r.events).1, (run .text cur r.events).2)

theorem run_text (cur : Str) (r : Reader Char ε) : run .text cur r.events = (readLine cur r).lines := by
  fun_induction readLine cur r with
  | case1 cur r h =>
    rw [Reader.events_of_readByte_none h]
    rfl
  | case2 cur r err r' h =>
    rw [Reader.events_of_readByte h]
    rfl
  | case3 cur r r' cur' h' h =>
    have hcommand := run_command cur r'
    rw [h'] at hcommand
    rw [Reader.events_of_readByte h, run]
    exact hcommand
  | case4 cur r r' err cur' r'' h' h =>
    have hcommand := run_command cur r'
    rw [h'] at hcommand
    rw [Reader.events_of_readByte h, run]
    exact hcommand
  | case5 cur r r' _ cur' r'' h' h ih =>
    have hcommand := run_command cur r'
    rw [h'] at hcommand
    rw [Reader.events_of_readByte h, run, ← ih]
    exact hcommand
  | case6 cur r r' h hne =>
    rw [Reader.events_of_readByte h]
    rfl
  | case7 cur r r' h hne hbreak ih =>
    rw [Reader.events_of_readByte h, run, ← ih]
    rfl
  | case8 cur r b r' h hne hbreak hnul ih =>
    rw [Reader.events_of_readByte h, run, ← ih, if_neg hne, if_neg hbreak, if_neg hnul]

/-- However the bytes are cut into chunks, only they and the deadlines between them count. -/
theorem readLines_eq (cur : Str) (r : Reader Char ε) : readLines cur r = run .text cur r.events := by
  fun_induction readLines cur r with
  | case1 cur r cur' h => rw [run_text, h, Ends.lines]
  | case2 cur r err cur' r' h ih => rw [run_text, h, Ends.lines, ih]
  | case3 cur r line cur' r' h ih => rw [run_text, h, Ends.lines, ih]

/-! ## The lines that are meant -/

/-- Where a stream is in a command. -/
inductive Within where
  | text
  /-- behind `IAC` -/
  | command
  /-- behind `WILL`, `WONT`, `DO` or `DONT` -/
  | option
  | subnegotiation
  /-- behind `IAC` in a subnegotiation -/
  | subCommand
  /-- behind `IAC IAC` in a subnegotiation, where it is data -/
  | escaped
deriving DecidableEq

/-- A byte of the stream, and what it adds to the text. -/
def Within.next (w : Within) (b : Char) : Within × Str :=
  match w with
  | .text =>
      if b = telnetIAC then (.command, []) else if b = nul then (.text, []) else (.text, [b])
  | .command =>
      if b = telnetIAC then (.text, [telnetIAC])
      else if 251 ≤ b.toNat then (.option, [])
      else if b = telnetSB then (.subnegotiation, [])
      else (.text, [])
  | .option => (.text, [])
  | .subnegotiation | .escaped => (if b = telnetIAC then .subCommand else .subnegotiation, [])
  | .subCommand =>
      (if b = telnetSE then .text else if b = telnetIAC then .escaped else .subnegotiation, [])

/-- A stream without its commands and NUL bytes -/
def text (w : Within) : Str → Str
  | [] => []
  | b :: stream => (w.next b).2 ++ text (w.next b).1 stream

/-- The lines of a text, each within the limit and without the carriage returns at its end. -/
def linesOfText (text : Str) : List Str :=
  (text.splitOn '\n').dropLast.map fun line => trimReturns (line.take transportMaxLine)

/-- The bytes of a stream, without the deadlines between them -/
def bytesOf (es : List (Except ε Char)) : Str := es.filterMap Except.toOption

/-- No deadline comes within a command, no doubled `IAC` where the line has its full length, and none right
before a byte that would end the subnegotiation it stands in. -/
def Meets (w : Within) (line : Str) : Except ε Char → Prop
  | .error _ => w = .text
  | .ok b =>
      (w = .command → b = telnetIAC → line.length < transportMaxLine) ∧ (w = .escaped → b ≠ telnetSE)

/-- The line that text is added to. -/
def lineAfter (line : Str) (added : Str) : Str := if added = ['\n'] then [] else line ++ added

/-- All of a stream meets the condition, from some place in it and of its line on. -/
def Plain (w : Within) (line : Str) : List (Except ε Char) → Prop
  | [] => True
  | .error err :: es => Meets w line (.error err : Except ε Char) ∧ Plain w line es
  | .ok b :: es =>
      Meets w line (.ok b : Except ε Char) ∧ Plain (w.next b).1 (lineAfter line (w.next b).2) es

instance decidableMeets (w : Within) (line : Str) : (e : Except ε Char) → Decidable (Meets w line e)
  | .error _ => inferInstanceAs (Decidable (w = .text))
  | .ok b => inferInstanceAs (Decidable ((w = .command → b = telnetIAC → line.length < transportMaxLine) ∧
      (w = .escaped → b ≠ telnetSE)))

instance decidablePlain (w : Within) (line : Str) : (es : List (Except ε Char)) → Decidable (Plain w line es)
  | [] => .isTrue trivial
  | .error err :: es =>
      have := decidablePlain w line es
      inferInstanceAs (Decidable (Meets w line (.error err : Except ε Char) ∧ Plain w line es))
  | .ok b :: es =>
      have := decidablePlain (w.next b).1 (lineAfter line (w.next b).2) es
      inferInstanceAs (Decidable (Meets w line (.ok b : Except ε Char) ∧
        Plain (w.next b).1 (lineAfter line (w.next b).2) es))

/-- The reader is where the stream is. -/
def At : Within → Phase → Prop
  | .text, phase => phase = .text
  | .command, phase => phase = .command
  | .option, phase => phase = .option
  | .subnegotiation, phase => ∃ prev, phase = .subnegotiation prev ∧ prev ≠ telnetIAC
  | .subCommand, phase | .escaped, phase => phase = .subnegotiation telnetIAC

/-- The lines of a text that goes on with a line, and the pending one. -/
def linesFrom (line : Str) : Str → List Str × Str
  | [] => ([], line.take transportMaxLine)
  | b :: text =>
      if b = '\n' then (trimReturns (line.take transportMaxLine) :: (linesFrom [] text).1, (linesFrom [] text).2)
      else linesFrom (line ++ [b]) text

variable {w : Within} {phase : Phase} {line : Str} {es : List (Except ε Char)}

theorem push_take (line : Str) (b : Char) :
    push (line.take transportMaxLine) b = (line ++ [b]).take transportMaxLine := by
  rw [push, List.length_take]
  split
  · next hlt =>
    rw [List.take_of_length_le (by omega), List.take_of_length_le]
    rw [List.length_append, List.length_singleton]
    omega
  · next hge =>
    rw [List.take_append_of_le_length (by omega)]

theorem lineAfter_nil (line : Str) : lineAfter line [] = line := by
  rw [lineAfter, if_neg (List.cons_ne_nil _ _).symm, List.append_nil]

/-- A byte that adds nothing -/
theorem linesFrom_skip {b : Char} (hnext : (w.next b).2 = []) (stream : Str) :
    linesFrom line (text w (b :: stream)) = linesFrom line (text (w.next b).1 stream) := by
  rw [text, hnext, List.nil_append]

/-- A byte of the line -/
theorem linesFrom_text {b : Char} (hnext : w.next b = (.text, [b])) (hbreak : b ≠ '\n') (stream : Str) :
    linesFrom line (text w (b :: stream)) = linesFrom (line ++ [b]) (text .text stream) := by
  rw [text, hnext, List.singleton_append, linesFrom, if_neg hbreak]

theorem lineAfter_text {b : Char} (hbreak : b ≠ '\n') : lineAfter line [b] = line ++ [b] :=
  if_neg fun h => hbreak (List.cons.inj h).1

theorem at_subnegotiation (b : Char) :
    At (if b = telnetIAC then .subCommand else .subnegotiation) (.subnegotiation b) := by
  split
  · next h => exact congrArg _ h
  · next h => exact ⟨b, rfl, h⟩

/-- Where a stream meets the condition, the reader delivers its lines. -/
theorem run_eq (hat : At w phase) (hplain : Plain w line es) :
    run phase (line.take transportMaxLine) es = linesFrom line (text w (bytesOf es)) := by
  induction es generalizing w phase line with
  | nil => rfl
  | cons e es ih =>
    rcases e with err | b
    · obtain ⟨rfl, hrest⟩ := hplain
      exact ih rfl hrest
    obtain ⟨⟨hlimit, hend⟩, hrest⟩ := hplain
    have hbytes : bytesOf (.ok b :: es : List (Except ε Char)) = b :: bytesOf es := rfl
    -- a byte that adds nothing leaves the line as it is, another one is its next
    have hskip : ∀ phase', (w.next b).2 = [] → At (w.next b).1 phase' →
        run phase' (line.take transportMaxLine) es = linesFrom line (text w (b :: bytesOf es)) := by
      intro phase' hnone hat'
      rw [hnone, lineAfter_nil] at hrest
      rw [linesFrom_skip hnone]
      exact ih hat' hrest
    have htext : w.next b = (.text, [b]) → b ≠ '\n' →
        run .text ((line ++ [b]).take transportMaxLine) es = linesFrom line (text w (b :: bytesOf es)) := by
      intro hnext hbreak
      rw [hnext, lineAfter_text hbreak] at hrest
      rw [linesFrom_text hnext hbreak]
      exact ih rfl hrest
    rw [hbytes]
    rcases w with _ | _ | _ | _ | _ | _
    · obtain rfl := hat
      rw [run]
      split
      · next h =>
        rw [h] at hskip ⊢
        exact hskip .command rfl rfl
      next hiac =>
      split
      · next h =>
        rw [h] at hrest ⊢
        have htext' : At .text Phase.text := rfl
        have hline := ih htext' hrest
        rw [show lineAfter line (Within.text.next '\n').2 = [] from rfl, List.take_nil] at hline
        rw [hline]
        rfl
      next hbreak =>
      split
      · next h =>
        rw [h] at hskip ⊢
        exact hskip .text rfl rfl
      next hnul =>
      rw [push_take]
      exact htext (by rw [Within.next, if_neg hiac, if_neg hnul]) hbreak
    · obtain rfl := hat
      rw [run]
      split
      · next h =>
        have hfits := List.take_of_length_le (hlimit rfl h).le
        rw [h] at htext ⊢
        have hmore : (line ++ [telnetIAC]).take transportMaxLine = line.take transportMaxLine ++ [telnetIAC] := by
          rw [← push_take, push, if_pos]
          rw [hfits]
          exact hlimit rfl h
        rw [← hmore]
        exact htext rfl (by decide)
      next hiac =>
      split
      · next h => exact hskip .option (by rw [Within.next, if_neg hiac, if_pos h]) (by rw [Within.next, if_neg hiac, if_pos h]; rfl)
      next hopt =>
      split
      · next h =>
        rw [h] at hskip ⊢
        exact hskip (.subnegotiation nul) rfl ⟨nul, rfl, by decide⟩
      next hsb =>
      have hnext : Within.command.next b = (.text, []) := by
        rw [Within.next, if_neg hiac, if_neg hopt, if_neg hsb]
      exact hskip .text (by rw [hnext]) (by rw [hnext]; rfl)
    · obtain rfl := hat
      exact hskip .text rfl rfl
    · obtain ⟨prev, rfl, hprev⟩ := hat
      rw [run, if_neg fun h => hprev h.1]
      exact hskip (.subnegotiation b) rfl (at_subnegotiation b)
    · obtain rfl := hat
      rw [run]
      split
      · next h =>
        rw [h.2] at hskip ⊢
        exact hskip .text rfl rfl
      · next h =>
        have hse : b ≠ telnetSE := fun hb => h ⟨rfl, hb⟩
        refine hskip (.subnegotiation b) rfl ?_
        rw [Within.next, if_neg hse]
        split
        · next hiac => exact congrArg _ hiac
        · next hiac => exact ⟨b, rfl, hiac⟩
    · obtain rfl := hat
      rw [run, if_neg fun h => hend rfl h.2]
      exact hskip (.subnegotiation b) rfl (at_subnegotiation b)

/-- The pending line is within the limit. -/
theorem length_linesFrom (line t : Str) : (linesFrom line t).2.length ≤ transportMaxLine := by
  induction t generalizing line with
  | nil =>
    rw [linesFrom, List.length_take]
    exact Nat.min_le_left _ _
  | cons b t ih =>
    rw [linesFrom]
    split
    · exact ih []
    · exact ih (line ++ [b])

theorem linesFrom_eq (hbreak : '\n' ∉ line) (t : Str) : (linesFrom line t).1 = linesOfText (line ++ t) := by
  induction t generalizing line with
  | nil =>
    rw [linesFrom, linesOfText, List.append_nil, List.splitOn_eq_singleton hbreak]
    rfl
  | cons b t ih =>
    rw [linesFrom]
    split
    · next h =>
      rw [h, linesOfText, List.splitOn_append_cons_self, List.splitOn_eq_singleton hbreak,
        List.singleton_append, List.dropLast_cons_of_ne_nil (List.splitOn_ne_nil _ _), List.map_cons, ih List.not_mem_nil]
      rfl
    · next h =>
      have hmore : '\n' ∉ line ++ [b] := by
        rw [List.mem_append, List.mem_singleton, not_or]
        exact ⟨hbreak, fun hb => h hb.symm⟩
      rw [ih hmore, List.append_assoc, List.singleton_append]

/-- Where no deadline comes within a command, no doubled `IAC` when the pending line is full and none right
before the end of a subnegotiation, the lines are those of the stream, wherever its chunks end and its
deadlines come, and the pending line stays within the limit. -/
theorem readLines_plain (r : Reader Char ε) (hplain : Plain .text [] r.events) :
    (readLines [] r).1 = linesOfText (text .text (bytesOf r.events)) ∧
      (readLines [] r).2.length ≤ transportMaxLine := by
  have hat : At .text Phase.text := rfl
  have hrun := run_eq hat hplain
  rw [List.take_nil] at hrun
  rw [readLines_eq, hrun]
  exact ⟨linesFrom_eq (List.not_mem_nil) _, length_linesFrom [] _⟩

/-- A stream that comes in three chunks, with a deadline before the last. -/
def negotiation : List (Input Char Unit) :=
  [⟨['a', telnetIAC, Char.ofNat 253, Char.ofNat 3, 'b', telnetIAC], none, .inl (by decide)⟩,
    ⟨[telnetSB, Char.ofNat 24, telnetIAC, telnetIAC, Char.ofNat 1, telnetIAC, telnetSE, 'c'], some (),
      .inl (by decide)⟩,
    ⟨[telnetIAC, telnetIAC, '\r', '\n'], none, .inl (by decide)⟩]

theorem readLines_plain_negotiation :
    (readLines [] (newReaderSize negotiation 4096 (by decide))).1 = [['a', 'b', 'c', telnetIAC]] :=
  (readLines_plain (newReaderSize negotiation 4096 (by decide)) (by decide)).1

/-- A line of text is pending. -/
theorem run_replicate {n : ℕ} (hlen : cur.length + n ≤ transportMaxLine) (es : List (Except ε Char)) :
    run .text cur (List.replicate n (.ok 'x') ++ es) = run .text (cur ++ List.replicate n 'x') es := by
  induction n generalizing cur with
  | zero => rw [List.replicate_zero, List.replicate_zero, List.nil_append, List.append_nil]
  | succ n ih =>
    have hmore : (cur ++ ['x']).length + n ≤ transportMaxLine := by
      rw [List.length_append, List.length_singleton]
      omega
    have hpush : push cur 'x' = cur ++ ['x'] := if_pos (by omega)
    rw [List.replicate_succ, List.cons_append, run, if_neg (by decide), if_neg (by decide), if_neg (by decide),
      hpush, ih hmore, List.append_assoc, List.singleton_append, ← List.replicate_succ]

theorem run_doubled (cur : Str) :
    run .text cur [.ok telnetIAC, (.ok telnetIAC : Except ε Char)] = ([], cur ++ [telnetIAC]) := rfl

/-- A deadline behind `IAC` makes text of the rest of the command, a doubled `IAC` before `SE` ends a
subnegotiation, and one behind a full line is pending beyond the limit. -/
theorem readLines_strays :
    (let rd : List (Input Char Unit) :=
      [⟨[telnetIAC], some (), .inl (by decide)⟩, ⟨['a', '\n'], none, .inl (by decide)⟩]
    (readLines [] (newReaderSize rd 4096 (by decide))).1 = [['a']] ∧
      linesOfText (text .text [telnetIAC, 'a', '\n']) = [[]]) ∧
    (let stream := [telnetIAC, telnetSB, telnetIAC, telnetIAC, telnetSE, 'x', '\n']
    let rd : List (Input Char Unit) := [⟨stream, none, .inl (by decide)⟩]
    (readLines [] (newReaderSize rd 4096 (by decide))).1 = [['x']] ∧ linesOfText (text .text stream) = []) ∧
    let rd : List (Input Char Unit) :=
      [⟨List.replicate transportMaxLine 'x' ++ [telnetIAC, telnetIAC], none, .inl (by simp)⟩]
    (readLines [] (newReaderSize rd 4096 (by decide))).2.length = transportMaxLine + 1 := by
  refine ⟨⟨?_, by decide⟩, ⟨?_, by decide⟩, ?_⟩
  · rw [readLines_eq]
    decide
  · rw [readLines_eq]
    decide
  · dsimp only
    have hevents : (newReaderSize [(⟨List.replicate transportMaxLine 'x' ++ [telnetIAC, telnetIAC], none,
        .inl (by simp)⟩ : Input Char Unit)] 4096 (by decide)).events =
          List.replicate transportMaxLine (.ok 'x') ++ [.ok telnetIAC, .ok telnetIAC] := by
      rw [Reader.events_newReaderSize, List.flatMap_singleton, Input.events, List.map_append, List.map_replicate,
        List.map_cons, List.map_cons, List.map_nil, Option.toList_none, List.map_nil, List.append_nil]
    have hroom : ([] : Str).length + transportMaxLine ≤ transportMaxLine := (Nat.zero_add _).le
    rw [readLines_eq, hevents, run_replicate hroom, run_doubled, List.length_append, List.nil_append,
      List.length_replicate, List.length_singleton]

end Instances.TelnetReader
