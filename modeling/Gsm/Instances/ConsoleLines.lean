import Gsm.GoStd.Json
import Gsm.Machine.Exec
import Mathlib.Data.List.DropRight

/-!
# Lines of a game's console

What the agent sends of a game's output, of its answers over RCON and of its telnet console, against the
length that the server's schema allows for a line. The output is cut at `MaxLineBytes`; the telnet reader
stops at the same length, but for bytes that come as a doubled `IAC`; RCON answers are not cut at all.
-/

open GoStd Machine

namespace Instances.Console

/-- `ConsoleLine` of the schema: at most 16 384 code units of text -/
def consoleLineOk (line : Str) : Bool := (sent line).length ≤ 16384

/-! ## Container output -/

/-- `MaxLineBytes` -/
def maxLineBytes : ℕ := 16 * 1024

/-- The buffer of the reader -/
def readerSize : ℕ := 64 * 1024

/-- Longer output is split. -/
def pieces (line : Str) : List Str :=
  if maxLineBytes < line.length then line.take maxLineBytes :: pieces (line.drop maxLineBytes) else [line]
termination_by line.length
decreasing_by
  rw [List.length_drop]
  have hpos : 0 < maxLineBytes := by decide
  omega

def emit (line : Str) : List Str := pieces (trimSuffix line ['\r'])

/-- `readLines` from `pending` on: a line ends at its break, or where the reader's buffer is full. -/
def readLinesFrom (pending : Str) : Str → List Str
  | [] => if pending = [] then [] else emit pending
  | c :: rest =>
      if c = '\n' then emit pending ++ readLinesFrom [] rest
      else if pending.length + 1 = readerSize then emit (pending ++ [c]) ++ readLinesFrom [] rest
      else readLinesFrom (pending ++ [c]) rest

def readLines (stream : Str) : List Str := readLinesFrom [] stream

/-! ## Transports -/

/-- What a transport asks of a line: the template's pattern for lines it leaves out, the answers that mean
the password was wrong, and a prompt for it. -/
structure Patterns where
  ignore : Option (Str → Bool)
  refused : Str → Bool
  asksPassword : Str → Bool

variable (re : Patterns)

/-- `strings.TrimRight(line, "\r")` -/
def trimReturns (line : Str) : Str := line.rdropWhile (· = '\r')

/-- Whether `show` emits a line. -/
def Patterns.shows (line : Str) : Bool :=
  trimBlanks (trimReturns line) ≠ [] && !re.ignore.any fun ignores => ignores (trimReturns line)

/-- `show` emits one answer line unless it is empty or the template ignores it. -/
def Patterns.show_ (line : Str) : List Str := if re.shows line then [trimReturns line] else []

/-! ### Source RCON -/

def le32 (bytes : Str) : ℕ := bytes.foldr (fun c v => c.toNat + 256 * v) 0

/-- A packet with its numbers as they are on the wire -/
structure Packet where
  id : ℕ
  typ : ℕ
  body : Str
deriving DecidableEq

def rconMaxPacket : ℕ := 1 <<< 20

/-- A number below `2 ^ 32`, little-endian -/
def le32Bytes (v : ℕ) : Str :=
  [Char.ofNat (v % 256), Char.ofNat (v / 256 % 256), Char.ofNat (v / 65536 % 256),
    Char.ofNat (v / 16777216 % 256)]

/-- `rconPacket` frames one packet: size, id, type, body and two NUL bytes. -/
def rconPacket (p : Packet) : Str :=
  le32Bytes (10 + p.body.length) ++ (le32Bytes p.id ++ (le32Bytes p.typ ++ (p.body ++
    [Char.ofNat 0, Char.ofNat 0])))

/-- `readRCONPacket`: the packet and what is behind it -/
def readPacket (s : Str) : Option (Packet × Str) :=
  if s.length < 4 then none
  else if le32 (s.take 4) < 10 ∨ rconMaxPacket < le32 (s.take 4) then none
  else if s.length < 4 + le32 (s.take 4) then none
  else
    let buf := (s.drop 4).take (le32 (s.take 4))
    some (⟨le32 (buf.take 4), le32 ((buf.drop 4).take 4),
        (buf.drop 8).rdropWhile (· = Char.ofNat 0)⟩,
      s.drop (4 + le32 (s.take 4)))

theorem le32_bytes {v : ℕ} (h : v < 4294967296) : le32 (le32Bytes v) = v := by
  have hmod : ∀ n : ℕ, (Char.ofNat (n % 256)).toNat = n % 256 := by
    intro n
    have hvalid : (n % 256).isValidChar := .inl (by omega)
    rw [Char.ofNat, dif_pos hvalid]
    rfl
  simp only [le32, le32Bytes, List.foldr_cons, List.foldr_nil, hmod]
  omega

/-- A packet is read back as it was framed. -/
theorem readPacket_rconPacket {p : Packet} (hid : p.id < 4294967296) (htyp : p.typ < 4294967296)
    (hsize : 10 + p.body.length ≤ rconMaxPacket) (hbody : p.body.rdropWhile (· = Char.ofNat 0) = p.body)
    (rest : Str) : readPacket (rconPacket p ++ rest) = some (p, rest) := by
  have hlen : ∀ v, (le32Bytes v).length = 4 := fun _ => rfl
  have hsmall : 10 + p.body.length < 4294967296 := hsize.trans_lt (by decide)
  have htake : ∀ (v : ℕ) (s : Str), (le32Bytes v ++ s).take 4 = le32Bytes v := fun v s => rfl
  have hdrop : ∀ (v : ℕ) (s : Str), (le32Bytes v ++ s).drop 4 = s := fun v s => rfl
  have htotal : (rconPacket p ++ rest).length = 14 + p.body.length + rest.length := by
    simp only [rconPacket, List.length_append, hlen, List.length_cons, List.length_nil]
    omega
  have hhead : le32 ((rconPacket p ++ rest).take 4) = 10 + p.body.length := by
    rw [rconPacket, List.append_assoc, htake, le32_bytes hsmall]
  have hbuf : ((rconPacket p ++ rest).drop 4).take (10 + p.body.length) =
      le32Bytes p.id ++ (le32Bytes p.typ ++ (p.body ++ [Char.ofNat 0, Char.ofNat 0])) := by
    rw [rconPacket, List.append_assoc, hdrop]
    refine List.take_left' ?_
    simp only [List.length_append, hlen, List.length_cons, List.length_nil]
    omega
  have hrest : (rconPacket p ++ rest).drop (4 + (10 + p.body.length)) = rest := by
    refine List.drop_left' ?_
    simp only [rconPacket, List.length_append, hlen, List.length_cons, List.length_nil]
    omega
  have hnuls : (p.body ++ [Char.ofNat 0, Char.ofNat 0]).rdropWhile (· = Char.ofNat 0) = p.body := by
    rw [show p.body ++ [Char.ofNat 0, Char.ofNat 0] = p.body ++ [Char.ofNat 0] ++ [Char.ofNat 0] by simp,
      List.rdropWhile_concat_pos _ _ _ (by decide), List.rdropWhile_concat_pos _ _ _ (by decide), hbody]
  have hdrop8 : (le32Bytes p.id ++ (le32Bytes p.typ ++ (p.body ++ [Char.ofNat 0, Char.ofNat 0]))).drop 8 =
      p.body ++ [Char.ofNat 0, Char.ofNat 0] := rfl
  rw [readPacket, htotal, hhead, if_neg (by omega), if_neg (by omega), if_neg (by omega)]
  dsimp only
  rw [hbuf, hrest, htake, hdrop, htake, le32_bytes hid, le32_bytes htyp, hdrop8, hnuls]

theorem length_readPacket {s rest : Str} {p : Packet} (h : readPacket s = some (p, rest)) :
    rest.length < s.length := by
  rw [readPacket] at h
  split at h
  · cases h
  split at h
  · cases h
  split at h
  · cases h
  obtain ⟨-, rfl⟩ := Prod.mk.inj (Option.some.inj h)
  rw [List.length_drop]
  omega

/-- The packets of a stream, up to its end or the first that is not well formed -/
def packets (s : Str) : List Packet :=
  match _h : readPacket s with
  | some (p, rest) => p :: packets rest
  | none => []
termination_by s.length
decreasing_by exact length_readPacket _h

/-- What comes after the answer to the password, unless it refuses it -/
def signedIn : List Packet → List Packet
  | [] => []
  | p :: rest => if p.typ ≠ 2 then signedIn rest else if p.id = 0xFFFFFFFF then [] else rest

/-- The lines of the answers of an RCON session -/
def answerLines (stream : Str) : List Str :=
  ((signedIn (packets stream)).filter (·.typ = 0)).flatMap fun p => p.body.splitOn '\n'

/-- The console lines of an RCON session -/
def rconLines (stream : Str) : List Str := (answerLines stream).flatMap re.show_

/-! ### telnet -/

/-- `transportMaxLine` -/
def transportMaxLine : ℕ := 16 * 1024

def telnetIAC : Char := Char.ofNat 255

/-- Where the reader is in a command -/
inductive Phase where
  | text
  /-- behind `IAC` -/
  | command
  /-- behind `WILL`, `WONT`, `DO` or `DONT` -/
  | option
  /-- in a subnegotiation -/
  | subnegotiation (prev : Char)
deriving DecidableEq

/-- A telnet session with the lines it has emitted -/
structure Telnet where
  signingIn : Bool
  phase : Phase
  cur : Str
  ended : Bool
  emitted : List Str

/-- A byte, or the deadline that a read has while signing in; and whether the time for that is over. -/
structure Read where
  byte : Option Char
  late : Bool

def Telnet.read (s : Telnet) : Read → Option Telnet
  | ⟨none, late⟩ =>
      if !s.signingIn then none
      else
        -- a command that was being read is forgotten
        let prompt := re.asksPassword s.cur
        some { s with
          phase := .text
          cur := if prompt then [] else s.cur
          signingIn := !(prompt || late) }
  | ⟨some b, late⟩ =>
      match s.phase with
      | .text =>
          if b = telnetIAC then some { s with phase := .command }
          else if b = '\n' then
            let line := trimReturns s.cur
            if re.refused line then some { s with cur := [], ended := true }
            else if s.signingIn then
              let prompt := re.asksPassword line
              some { s with
                cur := []
                emitted := s.emitted ++ if prompt then [] else re.show_ line
                signingIn := !(prompt || late) }
            else some { s with cur := [], emitted := s.emitted ++ re.show_ line }
          else if b = Char.ofNat 0 then some s
          else some { s with cur := if s.cur.length < transportMaxLine then s.cur ++ [b] else s.cur }
      | .command =>
          if b = telnetIAC then some { s with phase := .text, cur := s.cur ++ [telnetIAC] }
          else if 251 ≤ b.toNat then some { s with phase := .option }
          else if b = Char.ofNat 250 then some { s with phase := .subnegotiation (Char.ofNat 0) }
          else some { s with phase := .text }
      | .option => some { s with phase := .text }
      | .subnegotiation prev =>
          if prev = telnetIAC ∧ b = Char.ofNat 240 then some { s with phase := .text }
          else some { s with phase := .subnegotiation b }

/-- One read of a session that is not over -/
def Telnet.step (s : Telnet) (r : Read) : Option Telnet := if s.ended then none else s.read re r

/-- A new session, with a password to sign in with or without -/
def Telnet.start (password : Bool) : Telnet := ⟨password, .text, [], false, []⟩

/-- The lines a session emits, up to its end or the last of `reads` -/
def Telnet.lines (s : Telnet) : List Read → List Str
  | [] => s.emitted
  | r :: reads =>
      match s.step re r with
      | some s' => s'.lines reads
      | none => s.emitted

/-! ## Accepted lines -/

/-- What a game puts on one of the transports -/
inductive Output where
  | container (stream : Str)
  | rcon (stream : Str)
  | telnet (password : Bool) (reads : List Read)

/-- The console lines the agent emits of it -/
def Output.lines : Output → List Str
  | container stream => readLines stream
  | rcon stream => rconLines re stream
  | telnet password reads => (Telnet.start password).lines re reads

/-- The line that a line break ends is shown. -/
def Telnet.Shows (s : Telnet) : Prop :=
  ¬ re.refused (trimReturns s.cur) ∧ ¬ (s.signingIn ∧ re.asksPassword (trimReturns s.cur)) ∧
    re.shows (trimReturns s.cur)

/-- What of a shown line was read up to the cap leaves room for the doubled `IAC`s behind it. -/
def Telnet.Fits (s : Telnet) (r : Read) : Prop :=
  ¬ s.ended → s.phase = .text → r.byte = some '\n' → s.Shows re →
    (sent (s.cur.take transportMaxLine)).length + (s.cur.length - transportMaxLine) ≤ 16384

/-- A game that sends no line too long: nothing is asked of container output, of RCON that no shown line
of an answer is longer than the schema allows, of telnet that each shown line fits. -/
def Output.Fits : Output → Prop
  | container _ => True
  | rcon stream => ∀ line ∈ answerLines stream, re.shows line → (sent (trimReturns line)).length ≤ 16384
  | telnet password reads => Along (Telnet.step re) (Telnet.Fits re) (Telnet.start password) reads

theorem trimReturns_idem (line : Str) : trimReturns (trimReturns line) = trimReturns line :=
  List.rdropWhile_idempotent _ _

theorem consoleLineOk_of_length {line : Str} (h : line.length ≤ 16384) : consoleLineOk line = true :=
  decide_eq_true ((length_sent_le line).trans h)

/-! ### Container output -/

theorem length_of_mem_pieces {piece : Str} (line : Str) (h : piece ∈ pieces line) :
    piece.length ≤ maxLineBytes := by
  induction line using pieces.induct with
  | case1 line hlong ih =>
    rw [pieces, if_pos hlong, List.mem_cons] at h
    rcases h with rfl | hmem
    · rw [List.length_take]
      exact Nat.min_le_left _ _
    · exact ih hmem
  | case2 line hshort =>
    rw [pieces, if_neg hshort, List.mem_singleton] at h
    rw [h]
    exact Nat.le_of_not_lt hshort

theorem length_of_mem_readLinesFrom {line : Str} (stream pending : Str)
    (h : line ∈ readLinesFrom pending stream) : line.length ≤ maxLineBytes := by
  induction stream generalizing pending with
  | nil =>
    rw [readLinesFrom] at h
    split at h
    · cases h
    · exact length_of_mem_pieces _ h
  | cons c rest ih =>
    rw [readLinesFrom] at h
    split at h
    · rcases List.mem_append.mp h with hmem | hmem
      · exact length_of_mem_pieces _ hmem
      · exact ih _ hmem
    split at h
    · rcases List.mem_append.mp h with hmem | hmem
      · exact length_of_mem_pieces _ hmem
      · exact ih _ hmem
    · exact ih _ h

/-! ### RCON -/

theorem rconLines_accepted_iff (stream : Str) : (∀ line ∈ rconLines re stream, consoleLineOk line = true) ↔
    (Output.rcon stream).Fits re := by
  have hshow : ∀ line, (∀ l ∈ re.show_ line, consoleLineOk l = true) ↔
      (re.shows line → (sent (trimReturns line)).length ≤ 16384) := by
    intro line
    rw [Patterns.show_]
    by_cases hs : re.shows line = true
    · simp [hs, consoleLineOk]
    · simp [hs]
  rw [rconLines, List.forall_mem_flatMap]
  exact forall₂_congr fun line _ => hshow line

/-! ### telnet -/

/-- Past the cap there are doubled `IAC`s only. -/
def Telnet.Capped (s : Telnet) : Prop := ∀ c ∈ s.cur.drop transportMaxLine, c = noByte

theorem Telnet.capped_start (password : Bool) : (Telnet.start password).Capped := by
  intro c hc
  cases hc

theorem Telnet.capped_append (s : Telnet) (h : s.Capped) (b : Char)
    (hb : s.cur.length < transportMaxLine ∨ b = noByte) :
    ∀ c ∈ (s.cur ++ [b]).drop transportMaxLine, c = noByte := by
  intro c hc
  rw [List.drop_append, List.mem_append] at hc
  rcases hc with hc | hc
  · exact h c hc
  rcases hb with hroom | rfl
  · have hnone : [b].drop (transportMaxLine - s.cur.length) = [] :=
      List.drop_eq_nil_of_le (by rw [List.length_singleton]; omega)
    rw [hnone] at hc
    cases hc
  · exact List.mem_singleton.mp (List.mem_of_mem_drop hc)

/-- The length of a shown line, as `Fits` has it -/
theorem Telnet.length_sent_cur (s : Telnet) (h : s.Capped) :
    (sent (trimReturns s.cur)).length ≤ 16384 ↔
      (sent (s.cur.take transportMaxLine)).length + (s.cur.length - transportMaxLine) ≤ 16384 := by
  by_cases hlong : transportMaxLine < s.cur.length
  · have hsplit : s.cur.take transportMaxLine ++
        List.replicate (s.cur.length - transportMaxLine) noByte = s.cur := by
      have hdrop : s.cur.drop transportMaxLine =
          List.replicate (s.cur.length - transportMaxLine) noByte := by
        rw [← List.length_drop]
        exact List.eq_replicate_of_mem h
      rw [← hdrop, List.take_append_drop]
    have hkeep : trimReturns s.cur = s.cur := by
      obtain ⟨n, hn⟩ : ∃ n, s.cur.length - transportMaxLine = n + 1 := ⟨_, (Nat.sub_add_cancel (by omega)).symm⟩
      rw [← hsplit, hn, List.replicate_succ', ← List.append_assoc]
      exact List.rdropWhile_concat_neg _ _ _ (by decide)
    rw [hkeep]
    conv_lhs => rw [← hsplit, length_sent_append_noByte]
  · have hshort : s.cur.length ≤ 16384 := Nat.le_of_not_lt hlong
    have htrim : (trimReturns s.cur).length ≤ s.cur.length := by
      have hsplit : (trimReturns s.cur ++ s.cur.rtakeWhile (· = '\r')).length = s.cur.length :=
        congrArg List.length List.rdropWhile_append_rtakeWhile
      rw [List.length_append] at hsplit
      exact Nat.le_of_add_right_le hsplit.le
    have hcap : s.cur.length ≤ transportMaxLine := hshort
    rw [List.take_of_length_le hcap, Nat.sub_eq_zero_of_le hcap, Nat.add_zero]
    exact ⟨fun _ => (length_sent_le _).trans hshort, fun _ => (length_sent_le _).trans (htrim.trans hshort)⟩

/-- What a read does to the lines emitted: only a line break that ends a shown line adds to them. -/
theorem Telnet.step_cases {s s' : Telnet} {r : Read} (h : s.step re r = some s') (hcap : s.Capped) :
    s'.Capped ∧ ((s'.emitted = s.emitted ∧ ¬ (s.phase = .text ∧ r.byte = some '\n' ∧ s.Shows re)) ∨
      (s'.emitted = s.emitted ++ [trimReturns s.cur] ∧ ¬ s.ended ∧ s.phase = .text ∧
        r.byte = some '\n' ∧ s.Shows re)) := by
  have hnil : ∀ c ∈ ([] : Str).drop transportMaxLine, c = noByte := fun c hc => nomatch hc
  have hopen : ¬ s.ended = true := by
    intro hended
    rw [Telnet.step, if_pos hended] at h
    cases h
  rw [Telnet.step, if_neg hopen] at h
  rcases r with ⟨_ | b, late⟩
  · -- the deadline of a read
    rw [Telnet.read] at h
    split at h
    · cases h
    · obtain rfl := Option.some.inj h
      refine ⟨?_, .inl ⟨rfl, fun hline => nomatch hline.2.1⟩⟩
      show ∀ c ∈ (ite _ _ _ : Str).drop transportMaxLine, c = noByte
      split
      · exact hnil
      · exact hcap
  unfold Telnet.read at h
  dsimp only at h
  split at h
  next hphase =>
    split at h
    next hiac =>
      obtain rfl := Option.some.inj h
      refine ⟨hcap, .inl ⟨rfl, fun hline => ?_⟩⟩
      rw [hiac] at hline
      exact absurd (Option.some.inj hline.2.1) (by decide)
    split at h
    next hbreak =>
      -- the end of a line
      split at h
      next hrefused =>
        obtain rfl := Option.some.inj h
        exact ⟨hnil, .inl ⟨rfl, fun hline => hline.2.2.1 hrefused⟩⟩
      next hfine =>
        have hshown : re.show_ (trimReturns s.cur) = (if re.shows (trimReturns s.cur) then
            [trimReturns s.cur] else []) := by
          rw [Patterns.show_, trimReturns_idem]
        split at h
        next hsigning =>
          obtain rfl := Option.some.inj h
          refine ⟨hnil, ?_⟩
          by_cases hprompt : re.asksPassword (trimReturns s.cur) = true
          · refine .inl ⟨?_, fun hline => hline.2.2.2.1 ⟨hsigning, hprompt⟩⟩
            show s.emitted ++ (if _ then _ else _) = _
            rw [if_pos hprompt, List.append_nil]
          show (s.emitted ++ (if _ then _ else _) = _ ∧ _) ∨ (s.emitted ++ (if _ then _ else _) = _ ∧ _)
          rw [if_neg hprompt, hshown]
          by_cases hs : re.shows (trimReturns s.cur) = true
          · rw [if_pos hs]
            exact .inr ⟨rfl, hopen, hphase, congrArg some hbreak, hfine, fun hp => hprompt hp.2, hs⟩
          · rw [if_neg hs, List.append_nil]
            exact .inl ⟨rfl, fun hline => hs hline.2.2.2.2⟩
        next hdone =>
          obtain rfl := Option.some.inj h
          refine ⟨hnil, ?_⟩
          show (s.emitted ++ re.show_ _ = _ ∧ _) ∨ (s.emitted ++ re.show_ _ = _ ∧ _)
          rw [hshown]
          by_cases hs : re.shows (trimReturns s.cur) = true
          · rw [if_pos hs]
            exact .inr ⟨rfl, hopen, hphase, congrArg some hbreak, hfine, fun hp => hdone hp.1, hs⟩
          · rw [if_neg hs, List.append_nil]
            exact .inl ⟨rfl, fun hline => hs hline.2.2.2.2⟩
    next hbreak =>
      have hother : ¬ (s.phase = .text ∧ some b = some '\n' ∧ s.Shows re) :=
        fun hline => hbreak (Option.some.inj hline.2.1)
      split at h
      · obtain rfl := Option.some.inj h
        exact ⟨hcap, .inl ⟨rfl, hother⟩⟩
      · obtain rfl := Option.some.inj h
        refine ⟨?_, .inl ⟨rfl, hother⟩⟩
        show ∀ c ∈ (ite _ _ _ : Str).drop transportMaxLine, c = noByte
        split
        next hroom => exact s.capped_append hcap b (.inl hroom)
        · exact hcap
  next hphase =>
    have hother : ¬ (s.phase = .text ∧ some b = some '\n' ∧ s.Shows re) :=
      fun hline => nomatch hphase.symm.trans hline.1
    split at h
    · obtain rfl := Option.some.inj h
      exact ⟨s.capped_append hcap telnetIAC (.inr rfl), .inl ⟨rfl, hother⟩⟩
    split at h
    · obtain rfl := Option.some.inj h
      exact ⟨hcap, .inl ⟨rfl, hother⟩⟩
    split at h <;> obtain rfl := Option.some.inj h <;> exact ⟨hcap, .inl ⟨rfl, hother⟩⟩
  next hphase =>
    obtain rfl := Option.some.inj h
    exact ⟨hcap, .inl ⟨rfl, fun hline => nomatch hphase.symm.trans hline.1⟩⟩
  next prev hphase =>
    split at h <;> obtain rfl := Option.some.inj h <;>
      exact ⟨hcap, .inl ⟨rfl, fun hline => nomatch hphase.symm.trans hline.1⟩⟩

theorem Telnet.step_break {s : Telnet} {r : Read} (hopen : ¬ s.ended) (hphase : s.phase = .text)
    (hbreak : r.byte = some '\n') : ∃ s', s.step re r = some s' := by
  obtain ⟨byte, late⟩ := r
  obtain rfl : byte = some '\n' := hbreak
  have hno : ¬ '\n' = telnetIAC := by decide
  rw [Telnet.step, if_neg hopen]
  unfold Telnet.read
  dsimp only
  rw [hphase]
  dsimp only
  rw [if_neg hno, if_pos rfl]
  split
  · exact ⟨_, rfl⟩
  split
  · exact ⟨_, rfl⟩
  · exact ⟨_, rfl⟩

theorem Telnet.lines_accepted_iff (s : Telnet) (reads : List Read) (hcap : s.Capped) :
    (∀ line ∈ s.lines re reads, consoleLineOk line = true) ↔
      (∀ line ∈ s.emitted, consoleLineOk line = true) ∧
        Along (Telnet.step re) (Telnet.Fits re) s reads := by
  induction reads generalizing s with
  | nil => exact (iff_of_eq (and_true _)).symm
  | cons r reads ih =>
    rw [Telnet.lines]
    rcases hs : s.step re r with _ | s'
    · have hfits : s.Fits re r := by
        intro hopen hphase hbreak _
        obtain ⟨s', hs'⟩ := Telnet.step_break re hopen hphase hbreak
        cases hs.symm.trans hs'
      refine (and_iff_left ⟨hfits, fun s' hs' => ?_⟩).symm
      cases hs.symm.trans hs'
    · obtain ⟨hcap', hcases⟩ := Telnet.step_cases re hs hcap
      show (∀ line ∈ s'.lines re reads, consoleLineOk line = true) ↔ _
      rw [ih s' hcap', along_cons hs]
      rcases hcases with ⟨hsame, hnot⟩ | ⟨hadded, hopen, hphase, hbreak, hshows⟩
      · have hfits : s.Fits re r := fun _ hphase hbreak hshows => absurd ⟨hphase, hbreak, hshows⟩ hnot
        rw [hsame]
        exact and_congr_right fun _ => (and_iff_right hfits).symm
      · have hfits : s.Fits re r ↔ consoleLineOk (trimReturns s.cur) = true := by
          rw [consoleLineOk, decide_eq_true_iff, s.length_sent_cur hcap]
          exact ⟨fun hf => hf hopen hphase hbreak hshows, fun hf _ _ _ _ => hf⟩
        rw [hadded, List.forall_mem_append, List.forall_mem_singleton, hfits, and_assoc]

/-- The server accepts every console line of a game exactly if the game sends none too long. -/
theorem consoleLines_accepted_iff (o : Output) :
    (∀ line ∈ o.lines re, consoleLineOk line = true) ↔ o.Fits re := by
  rcases o with stream | stream | ⟨password, reads⟩
  · refine iff_of_true (fun line hmem => ?_) trivial
    exact consoleLineOk_of_length (length_of_mem_readLinesFrom stream [] hmem)
  · exact rconLines_accepted_iff re stream
  · have hnone : ∀ line ∈ (Telnet.start password).emitted, consoleLineOk line = true :=
      fun line hmem => nomatch hmem
    show (∀ line ∈ (Telnet.start password).lines re reads, consoleLineOk line = true) ↔ _
    rw [Telnet.lines_accepted_iff re _ reads (Telnet.capped_start password), and_iff_right hnone]
    exact Iff.rfl

/-- A server that takes the password and answers with one line of `n` bytes -/
def answerOf (n : ℕ) : Str :=
  rconPacket ⟨1, 2, []⟩ ++ (rconPacket ⟨7, 0, List.replicate n 'x'⟩ ++ [])

theorem mem_dropWhile {β : Type*} {p : β → Bool} {b : β} {l : List β} (h : b ∈ l) (hp : p b = false) :
    b ∈ l.dropWhile p := by
  rw [← List.takeWhile_append_dropWhile (p := p) (l := l)] at h
  rcases List.mem_append.mp h with htake | hdrop
  · have hyes := List.mem_takeWhile_imp htake
    rw [hp] at hyes
    cases hyes
  · exact hdrop

theorem trimBlanks_ne_nil {c : Char} (hc : c.toNat < 0x80) (hblank : isSpace [c] = false) (s : Str) :
    trimBlanks (c :: s) ≠ [] := by
  have hchars : [c] ∈ chars (c :: s) := by
    rw [chars, charsFrom, decodeRune_low hc]
    exact List.mem_cons_self
  have hkept : [c] ∈ ((((chars (c :: s)).dropWhile isSpace).reverse.dropWhile isSpace).reverse) :=
    List.mem_reverse.mpr (mem_dropWhile (List.mem_reverse.mpr (mem_dropWhile hchars hblank)) hblank)
  exact List.ne_nil_of_mem (List.mem_flatten.mpr ⟨[c], hkept, List.mem_singleton.mpr rfl⟩)

theorem packets_rconPacket {p : Packet} (hid : p.id < 4294967296) (htyp : p.typ < 4294967296)
    (hsize : 10 + p.body.length ≤ rconMaxPacket) (hbody : p.body.rdropWhile (· = Char.ofNat 0) = p.body)
    (rest : Str) : packets (rconPacket p ++ rest) = p :: packets rest := by
  have hread := readPacket_rconPacket hid htyp hsize hbody rest
  rw [packets]
  split
  next q more hq =>
    obtain ⟨rfl, rfl⟩ := Prod.mk.inj (Option.some.inj (hq.symm.trans hread))
    rfl
  next hnone => cases hnone.symm.trans hread

theorem rdropWhile_replicate (p : Char → Bool) (h : ¬ p 'x') (n : ℕ) :
    (List.replicate (n + 1) 'x').rdropWhile p = List.replicate (n + 1) 'x' := by
  rw [List.replicate_succ']
  exact List.rdropWhile_concat_neg _ _ _ h

theorem answerLines_answerOf {n : ℕ} (h : 10 + (n + 1) ≤ rconMaxPacket) :
    answerLines (answerOf (n + 1)) = [List.replicate (n + 1) 'x'] := by
  have hsize : 10 + (List.replicate (n + 1) 'x').length ≤ rconMaxPacket := by
    rw [List.length_replicate]
    exact h
  have hempty : packets [] = [] := by
    rw [packets]
    rfl
  have hid : 7 < 4294967296 := by decide
  have htyp : 0 < 4294967296 := by decide
  have hpackets : packets (answerOf (n + 1)) = [⟨1, 2, []⟩, ⟨7, 0, List.replicate (n + 1) 'x'⟩] := by
    rw [answerOf, packets_rconPacket (by decide) (by decide) (by decide) rfl,
      packets_rconPacket hid htyp hsize (rdropWhile_replicate _ (by decide) n), hempty]
  have hone : (List.replicate (n + 1) 'x').splitOn '\n' = [List.replicate (n + 1) 'x'] :=
    List.splitOn_eq_singleton fun hmem => absurd (List.eq_of_mem_replicate hmem) (by decide)
  rw [answerLines, hpackets]
  show [(List.replicate (n + 1) 'x').splitOn '\n'].flatten = _
  rw [hone]
  rfl

theorem rconLines_answerOf {n : ℕ} (h : 10 + (n + 1) ≤ rconMaxPacket) (hnone : re.ignore = none) :
    rconLines re (answerOf (n + 1)) = [List.replicate (n + 1) 'x'] := by
  have htrim : trimReturns (List.replicate (n + 1) 'x') = List.replicate (n + 1) 'x' :=
    rdropWhile_replicate _ (by decide) n
  have hkept : trimBlanks (List.replicate (n + 1) 'x') ≠ [] := trimBlanks_ne_nil (by decide) (by decide) _
  have hshows : re.shows (List.replicate (n + 1) 'x') = true := by
    rw [Patterns.shows, htrim, hnone]
    simp [hkept]
  rw [rconLines, answerLines_answerOf h, List.flatMap_singleton, Patterns.show_, if_pos hshows, htrim]

theorem length_sent_replicate (n : ℕ) : (sent (List.replicate n 'x')).length = n := by
  have hascii : ∀ c ∈ List.replicate n 'x', c.toNat < 128 := by
    intro c hc
    rw [List.eq_of_mem_replicate hc]
    decide
  rw [sent, runes_ascii hascii, Js.ofChars_ascii hascii, List.length_map, List.length_replicate]

theorem consoleLines_refused_answerOf :
    ¬ ∀ (re : Patterns) (o : Output), ∀ line ∈ o.lines re, consoleLineOk line = true := by
  intro h
  let re : Patterns := ⟨none, fun _ => false, fun _ => false⟩
  have hline := rconLines_answerOf (n := 16384) re (by decide) rfl
  have hmem : List.replicate (16384 + 1) 'x' ∈ rconLines re (answerOf (16384 + 1)) := by
    rw [hline]
    exact List.mem_singleton.mpr rfl
  have hok := h re (.rcon (answerOf (16384 + 1))) (List.replicate (16384 + 1) 'x') hmem
  rw [consoleLineOk, decide_eq_true_iff, length_sent_replicate] at hok
  exact absurd hok (by decide)

end Instances.Console
