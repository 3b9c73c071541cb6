import Gsm.Server.Console

/-!
# What an install prints

The agent's `Install` collects the lines of the script in batches and hands every batch to two paths:
to the stream of the server's request and to an `inst.console` event. The server pushes the lines of
both. So the event alone carries every line once, and each chunk that the pending request takes in
brings its lines a second time.
-/

open GoStd Data Machine Server

namespace Link

inductive InstallMessage where
  /-- a chunk of the request's stream -/
  | chunk (lines : List ConsoleLine)
  /-- an `inst.console` event of the install stream -/
  | event (lines : List ConsoleLine)
deriving DecidableEq

/-- An install on its way from the agent to the server's console. -/
structure InstallRun where
  id : ℕ
  uuid : Str
  /-- the lines in the batcher -/
  lines : List ConsoleLine
  /-- the calls of `flushFn` under way, and whether they have sent the chunk -/
  flushes : List (List ConsoleLine × Bool)
  wire : List InstallMessage
  /-- the server's request is pending -/
  pending : Bool
  server : Console

inductive InstallAction where
  /-- the script prints a line -/
  | print (line : ConsoleLine)
  /-- the batcher's timer fires, or the batcher is closed -/
  | flush
  /-- the `i`-th call of `flushFn` sends its next message -/
  | write (i : ℕ)
  /-- the oldest message arrives -/
  | deliver (now : ℕ)
  /-- the server goes on with its handlers, and with other messages -/
  | server (a : ConsoleAction)
  /-- the request is answered or has timed out -/
  | settle

namespace InstallRun

/-- The lines at which a batch is full. -/
def batchLines : ℕ := 200

/-- `batcher.Add` -/
def add (s : InstallRun) (line : ConsoleLine) : InstallRun :=
  let lines := s.lines ++ [line]
  if batchLines ≤ lines.length then { s with lines := [], flushes := s.flushes ++ [(lines, false)] }
  else { s with lines := lines }

/-- `batcher.Flush` -/
def flush (s : InstallRun) : InstallRun :=
  if s.lines = [] then s else { s with lines := [], flushes := s.flushes ++ [(s.lines, false)] }

/-- The message is not about the console of this install. -/
def isOther (s : InstallRun) (a : ConsoleAction) : Bool :=
  (a.push? s.server.rows).all fun p => ¬ (s.id = p.instanceId ∧ .install = p.stream)

def step (s : InstallRun) : InstallAction → Option InstallRun
  | .print line => some (s.add line)
  | .flush => some s.flush
  | .write i =>
      match s.flushes[i]? with
      | none => none
      | some (lines, false) =>
          some { s with
            flushes := s.flushes.set i (lines, true)
            wire := s.wire ++ [.chunk lines] }
      | some (lines, true) =>
          some { s with flushes := s.flushes.eraseIdx i, wire := s.wire ++ [.event lines] }
  | .deliver now =>
      match s.wire with
      | [] => none
      | .chunk lines :: wire =>
          if s.pending then
            some { s with wire := wire, server := s.server.pushConsole now ⟨s.id, .install, lines⟩ }
          else some { s with wire := wire }
      | .event lines :: wire =>
          some { s with wire := wire, server := s.server.onConsole now s.uuid .install lines }
  | .server a =>
      if s.isOther a then (s.server.step a).map fun server => { s with server := server } else none
  | .settle => some { s with pending := false }

/-- The lines that the step takes in as a chunk of the pending request. -/
def chunkLines (s : InstallRun) : InstallAction → ℕ
  | .deliver _ =>
      match s.wire with
      | .chunk lines :: _ => if s.pending then lines.length else 0
      | _ => 0
  | _ => 0

/-- The lines that a run takes in as chunks of the pending request. -/
def chunked : InstallRun → List InstallAction → ℕ
  | _, [] => 0
  | s, a :: as =>
      match s.step a with
      | some s' => s.chunkLines a + chunked s' as
      | none => 0

def printed : InstallAction → List ConsoleLine
  | .print line => [line]
  | _ => []

/-- The messages of the batches are written in order, and arrive one at a time. -/
def InOrder (s : InstallRun) : InstallAction → Prop
  | .write i => i = 0
  | .deliver _ => s.server.handlers = []
  | .server a => OneAtATime s.server a
  | _ => True

/-- Nothing is on its way. -/
structure Ended (s : InstallRun) : Prop where
  lines : s.lines = []
  flushes : s.flushes = []
  wire : s.wire = []
  handlers : s.server.handlers = []

/-- The install begins: its history is cleared. -/
structure Begins (s : InstallRun) : Prop extends Ended s where
  row : s.server.rows s.uuid = some s.id
  coherent : Coherent s.server
  cleared : s.server.buffers s.id .install = none

/-- The history and the browsers have got exactly these lines, in this order. -/
def Once (s s' : InstallRun) (lines : List ConsoleLine) : Prop :=
  Appended (s.server.buffers s.id .install) (s'.server.buffers s.id .install) lines ∧
    ∃ ps, s'.server.browsers = s.server.browsers ++ ps ∧ linesOf s.id .install ps = lines

/-! ## What the events still carry -/

variable {s s' s'' : InstallRun} {a : InstallAction} {as : List InstallAction}
  {extra : ℕ} {ls : List ConsoleLine} {inOrder : Prop}

def eventLines : InstallMessage → List ConsoleLine
  | .chunk _ => []
  | .event lines => lines

/-- The lines on their way to the history, those in chunks left out. -/
def coming (s : InstallRun) : List ConsoleLine :=
  linesOf s.id .install (Server.pending s.server) ++ s.wire.flatMap eventLines ++
    s.flushes.flatMap Prod.fst ++ s.lines

section
attribute [local simp] Link.InstallRun.coming
end

theorem coming_of_ended (h : Ended s) : s.coming = [] := by
  simp [coming, Server.pending, linesOf, h.lines, h.flushes, h.wire, h.handlers]

theorem length_linesOf_perm {ps qs : List Push} (h : ps.Perm qs) (id : ℕ) (stream : ConsoleStream) :
    (linesOf id stream ps).length = (linesOf id stream qs).length := (h.flatMap_right _).length_eq

/-- From `s` to `s'`, with the lines `ls` printed and `extra` lines taken in as chunks: the lines
pushed and those still coming are as many as there were, and the same in the same order where the
order is kept and nothing came as a chunk. -/
structure Takes (inOrder : Prop) (s s' : InstallRun) (ls : List ConsoleLine) (extra : ℕ)
    (ps : List Push) : Prop where
  id : s'.id = s.id
  uuid : s'.uuid = s.uuid
  rows : s'.server.rows = s.server.rows
  coherent : Coherent s'.server
  pushed : Pushed s.server s'.server ps
  count : s.coming.length + ls.length + extra =
    (linesOf s.id .install ps).length + s'.coming.length
  order : inOrder → extra = 0 → s.coming ++ ls = linesOf s.id .install ps ++ s'.coming ∧
    s'.server.handlers.length ≤ 1

/-- A step of the agent alone. -/
theorem takes_agent (hco : Coherent s.server) (hid : s'.id = s.id) (huuid : s'.uuid = s.uuid)
    (hserver : s'.server = s.server) (hcount : (s.coming ++ ls).length = s'.coming.length)
    (hone : inOrder → s.server.handlers.length ≤ 1)
    (horder : inOrder → s.coming ++ ls = s'.coming) : Takes inOrder s s' ls 0 [] where
  id := hid
  uuid := huuid
  rows := by rw [hserver]
  coherent := hserver ▸ hco
  pushed := pushed_nil (by rw [hserver]) (by rw [hserver]) (by rw [hserver])
  count := by simpa [linesOf] using hcount
  order h _ := ⟨by simpa [linesOf] using horder h, hserver ▸ hone h⟩

/-- A step of the server, which takes a message off the wire. -/
theorem takes_server {one : Prop} {server : Console} {due ps : List Push}
    {wire : List InstallMessage} (h : Handled one s.server server due ps)
    (hs' : s' = { s with wire := wire, server := server })
    (hcount : (linesOf s.id .install due ++ wire.flatMap eventLines).length =
      (linesOf s.id .install (Server.pending s.server) ++ s.wire.flatMap eventLines).length + extra)
    (hdue : extra = 0 → linesOf s.id .install due ++ wire.flatMap eventLines =
      linesOf s.id .install (Server.pending s.server) ++ s.wire.flatMap eventLines)
    (hone : inOrder → one) : Takes inOrder s s' [] extra ps := by
  subst hs'
  have hlen := length_linesOf_perm h.perm s.id .install
  refine ⟨rfl, rfl, h.rows, h.coherent, h.pushed, ?_, fun ho hextra => ?_⟩
  · simp only [linesOf_append, List.length_append] at hlen hcount
    simp only [coming, List.length_append, List.length_nil]
    omega
  · obtain ⟨heq, hhandlers⟩ := h.order (hone ho)
    refine ⟨?_, hhandlers⟩
    simp only [coming, ← hdue hextra, heq, linesOf_append, List.append_assoc, List.append_nil]

theorem takes_print (hco : Coherent s.server) (line : ConsoleLine) :
    Takes (s.server.handlers.length ≤ 1) s (s.add line) [line] 0 [] := by
  have hcoming : s.coming ++ [line] = (s.add line).coming := by
    simp only [add]
    split <;> simp [coming]
  refine takes_agent hco ?_ ?_ ?_ (by rw [hcoming]) (fun h => h) fun _ => hcoming <;>
  · simp only [add]
    split <;> rfl

theorem takes_flush (hco : Coherent s.server) :
    Takes (s.server.handlers.length ≤ 1) s s.flush [] 0 [] := by
  have hcoming : s.coming ++ [] = s.flush.coming := by
    unfold flush
    split <;> simp [coming]
  refine takes_agent hco ?_ ?_ ?_ (by rw [hcoming]) (fun h => h) fun _ => hcoming <;>
  · unfold flush
    split <;> rfl

/-- A call of `flushFn` sends the chunk, which carries nothing that is not in the event, and then the
event. -/
theorem takes_write {i : ℕ} (hco : Coherent s.server) (hs : s.step (.write i) = some s') :
    Takes (s.server.handlers.length ≤ 1 ∧ i = 0) s s' [] 0 [] := by
  rw [step] at hs
  split at hs
  case h_1 => cases hs
  case h_2 lines hflush =>
    cases hs
    have hset : (s.flushes.set i (lines, true)).map Prod.fst = s.flushes.map Prod.fst := by
      refine List.ext_getElem? fun n => ?_
      rw [List.getElem?_map, List.getElem?_map, List.getElem?_set]
      split
      case isTrue hn =>
        obtain ⟨hi, hget⟩ := List.getElem?_eq_some_iff.mp hflush
        simp [← hn, hi, hget]
      case isFalse => rfl
    have hcoming : s.coming ++ [] = coming { s with
        flushes := s.flushes.set i (lines, true)
        wire := s.wire ++ [.chunk lines] } := by
      simp [coming, List.flatMap_def, hset, eventLines]
    exact takes_agent hco rfl rfl rfl (by rw [hcoming]) (fun h => h.1) fun _ => hcoming
  case h_3 lines hflush =>
    cases hs
    refine takes_agent hco rfl rfl rfl ?_ (fun h => h.1) fun ⟨_, h⟩ => ?_
    · obtain ⟨hi, hget⟩ := List.getElem?_eq_some_iff.mp hflush
      have hlen := ((List.getElem_cons_eraseIdx_perm hi).flatMap_right Prod.fst).length_eq
      rw [hget, List.flatMap_cons, List.length_append] at hlen
      simp only [coming, List.length_append, List.flatMap_append, List.length_nil,
        List.flatMap_singleton, eventLines, ← hlen]
      omega
    · subst h
      cases hflushes : s.flushes with
      | nil => simp [hflushes] at hflush
      | cons first rest =>
        rw [hflushes, List.getElem?_cons_zero, Option.some.injEq] at hflush
        simp [coming, hflushes, hflush, eventLines]

/-- A message arrives: an event is one of the lines' own, a chunk that is taken in brings lines a
second time. -/
theorem takes_deliver {now : ℕ} (hco : Coherent s.server)
    (hrow : s.server.rows s.uuid = some s.id) (hs : s.step (.deliver now) = some s') :
    ∃ ps, Takes (s.server.handlers = []) s s' [] (s.chunkLines (.deliver now)) ps := by
  have hone : s.server.handlers = [] → s.server.handlers.length ≤ 1 := fun h => by simp [h]
  simp only [step, chunkLines] at hs ⊢
  split at hs
  case h_1 => cases hs
  case h_2 lines wire hwire =>
    simp only [hwire]
    split at hs
    case isFalse hpending =>
      cases hs
      rw [if_neg hpending]
      exact ⟨[], takes_agent hco rfl rfl rfl (by simp [coming, hwire, eventLines]) hone
        fun _ => by simp [coming, hwire, eventLines]⟩
    case isTrue hpending =>
      cases hs
      rw [if_pos hpending]
      obtain ⟨ps, h⟩ := pushConsole_handled hco now ⟨s.id, .install, lines⟩
      have hdue : linesOf s.id .install (Server.pending s.server ++ [⟨s.id, .install, lines⟩]) =
          linesOf s.id .install (Server.pending s.server) ++ lines := by
        simp [linesOf]
      refine ⟨ps, takes_server h rfl ?_ (fun hextra => ?_) fun h => h⟩
      · simp only [hdue, hwire, eventLines, List.length_append, List.flatMap_cons, List.nil_append]
        omega
      · rw [hdue, List.length_eq_zero_iff.mp hextra, hwire]
        simp [eventLines]
  case h_3 lines wire hwire =>
    cases hs
    simp only [hwire]
    obtain ⟨ps, h⟩ := arrive_handled hco now s.uuid .install lines
    rw [hrow] at h
    have hdue : linesOf s.id .install (Server.pending s.server ++ [⟨s.id, .install, lines⟩]) ++
        wire.flatMap eventLines =
          linesOf s.id .install (Server.pending s.server) ++ s.wire.flatMap eventLines := by
      simp [linesOf, hwire, eventLines]
    exact ⟨ps, takes_server h rfl (by rw [← hdue]; rfl) (fun _ => hdue) fun h => h⟩

/-- The server goes on with what is not about this install, or with a handler. -/
theorem takes_other {b : ConsoleAction} (hco : Coherent s.server)
    (hs : s.step (.server b) = some s') :
    ∃ ps, Takes (s.server.handlers.length ≤ 1 ∧ OneAtATime s.server b) s s' [] 0 ps := by
  rw [step] at hs
  split at hs
  case isFalse => cases hs
  case isTrue hother =>
    obtain ⟨server, hstep, hs'⟩ := Option.map_eq_some_iff.mp hs
    obtain ⟨ps, h⟩ := step_handled hco hstep
    have hnone : linesOf s.id .install (b.push? s.server.rows).toList = [] := by
      cases hb : b.push? s.server.rows with
      | none => rfl
      | some p =>
        have hp : ¬ (s.id = p.instanceId ∧ ConsoleStream.install = p.stream) :=
          not_and_or.mpr (by simpa [isOther, hb] using hother)
        simp [linesOf, hp]
    have hdue : linesOf s.id .install (Server.pending s.server ++ (b.push? s.server.rows).toList) ++
        s.wire.flatMap eventLines =
          linesOf s.id .install (Server.pending s.server) ++ s.wire.flatMap eventLines := by
      rw [linesOf_append, hnone, List.append_nil]
    exact ⟨ps, takes_server h hs'.symm (by rw [hdue]; rfl) (fun _ => hdue) fun h => h⟩

/-! ## A run -/

theorem takes_step (hco : Coherent s.server) (hrow : s.server.rows s.uuid = some s.id)
    (hs : s.step a = some s') :
    ∃ ps, Takes (s.server.handlers.length ≤ 1 ∧ s.InOrder a) s s' (printed a) (s.chunkLines a) ps := by
  have weaken {one one' : Prop} {ls extra ps} (h : Takes one s s' ls extra ps) (hone : one' → one) :
      Takes one' s s' ls extra ps := { h with order := fun h' => h.order (hone h') }
  cases a with
  | print line =>
    cases hs
    exact ⟨[], weaken (takes_print hco line) fun h => h.1⟩
  | flush =>
    cases hs
    exact ⟨[], weaken (takes_flush hco) fun h => h.1⟩
  | write i => exact ⟨[], takes_write hco hs⟩
  | deliver now =>
    obtain ⟨ps, h⟩ := takes_deliver hco hrow hs
    exact ⟨ps, weaken h fun h => h.2⟩
  | server b => exact takes_other hco hs
  | settle =>
    cases hs
    exact ⟨[], takes_agent hco rfl rfl rfl (by simp [coming, printed]) (fun h => h.1)
      fun _ => by simp [coming, printed]⟩

theorem takes_exec (hco : Coherent s.server) (hrow : s.server.rows s.uuid = some s.id)
    (hrun : exec step s as = some s') :
    ∃ ps, Takes (s.server.handlers.length ≤ 1 ∧ Along step InOrder s as) s s' (as.flatMap printed)
      (s.chunked as) ps := by
  induction as generalizing s with
  | nil =>
    cases hrun
    exact ⟨[], takes_agent hco rfl rfl rfl (by simp) (fun h => h.1) fun _ => by simp⟩
  | cons a as ih =>
    obtain ⟨s₁, hs, hrest⟩ := exec_cons_eq_some.mp hrun
    obtain ⟨ps, h⟩ := takes_step hco hrow hs
    obtain ⟨qs, h'⟩ := ih h.coherent (by rw [h.rows, h.uuid, h.id]; exact hrow) hrest
    have hchunked : s.chunked (a :: as) = s.chunkLines a + s₁.chunked as := by rw [chunked, hs]
    refine ⟨ps ++ qs, h'.id.trans h.id, h'.uuid.trans h.uuid, h'.rows.trans h.rows, h'.coherent,
      h.pushed.trans h'.pushed, ?_, fun hone hextra => ?_⟩
    · have hcount := h.count
      have hcount' := h'.count
      rw [h.id] at hcount'
      rw [hchunked, linesOf_append, List.flatMap_cons, List.length_append, List.length_append]
      omega
    · obtain ⟨heq, hone₁⟩ := h.order ⟨hone.1, hone.2.1⟩ (by omega)
      obtain ⟨heq', hone'⟩ := h'.order ⟨hone₁, hone.2.tail hs⟩ (by omega)
      rw [h.id] at heq'
      refine ⟨?_, hone'⟩
      rw [List.flatMap_cons, ← List.append_assoc, heq, List.append_assoc, heq', linesOf_append,
        List.append_assoc]

/-- Where the order is kept and no chunk is taken in, the history and the browsers get each line
once; in no run in which a chunk is taken in do they. -/
theorem install_lines_once (hstart : Begins s) (hrun : exec step s as = some s') (hdone : Ended s') :
    (Along step InOrder s as → s.chunked as = 0 → Once s s' (as.flatMap printed)) ∧
      (s.chunked as ≠ 0 → ¬ Once s s' (as.flatMap printed)) := by
  obtain ⟨ps, h⟩ := takes_exec hstart.coherent hstart.row hrun
  have hbrowsers := h.pushed.browsers
  refine ⟨fun horder hnone => ?_, fun hsome honce => ?_⟩
  · obtain ⟨heq, -⟩ := h.order ⟨by simp [hstart.handlers], horder⟩ hnone
    rw [coming_of_ended hstart.toEnded, coming_of_ended hdone, List.nil_append,
      List.append_nil] at heq
    rw [heq]
    exact ⟨h.pushed.history s.id .install, ps, hbrowsers, rfl⟩
  · obtain ⟨-, qs, hqs, hlines⟩ := honce
    have hps : qs = ps := List.append_cancel_left (hqs.symm.trans hbrowsers)
    have hcount := h.count
    rw [coming_of_ended hstart.toEnded, coming_of_ended hdone, ← hps, hlines] at hcount
    simp only [List.length_nil] at hcount
    omega

/-! ## Each line twice -/

/-- The server has asked the agent to install instance 1. -/
def firstInstall : InstallRun where
  id := 1
  uuid := "game".toList
  lines := []
  flushes := []
  wire := []
  pending := true
  server :=
    { rows := fun uuid => if uuid = "game".toList then some 1 else none
      idByUuid := fun uuid => if uuid = "game".toList then some 1 else none
      capacityLoaded := 0
      capacity := ⟨1000, by decide⟩
      settings := none
      buffers := fun _ _ => none
      browsers := []
      players := []
      handlers := [] }

theorem begins_firstInstall : Begins firstInstall := ⟨⟨rfl, rfl, rfl, rfl⟩, rfl, fun _ _ h => h, rfl⟩

def finished : ConsoleLine := ⟨100, "[GSM] install finished".toList⟩

/-- One line, whose messages arrive after the request has timed out. -/
def lateLine : List InstallAction :=
  [.print finished, .flush, .settle, .write 0, .write 0, .deliver 200, .deliver 201]

theorem lateLine_inOrder : Along step InOrder firstInstall lateLine := by
  refine ⟨trivial, fun _ h => ?_⟩
  cases h
  refine ⟨trivial, fun _ h => ?_⟩
  cases h
  refine ⟨trivial, fun _ h => ?_⟩
  cases h
  refine ⟨rfl, fun _ h => ?_⟩
  cases h
  refine ⟨rfl, fun _ h => ?_⟩
  cases h
  refine ⟨rfl, fun _ h => ?_⟩
  cases h
  exact ⟨rfl, fun _ _ => trivial⟩

theorem install_lines_lateLine :
    ∃ s', exec step firstInstall lateLine = some s' ∧ Once firstInstall s' [finished] :=
  ⟨_, rfl, (install_lines_once begins_firstInstall rfl ⟨rfl, rfl, rfl, rfl⟩).1 lateLine_inOrder rfl⟩

theorem install_lines_twice :
    ∃ s s' as, Begins s ∧ exec step s as = some s' ∧ Ended s' ∧ as.flatMap printed = [finished] ∧
      held (s'.server.buffers s.id .install) = [finished, finished] ∧
      ¬ Once s s' (as.flatMap printed) := by
  refine ⟨firstInstall, _,
    [.print finished, .flush, .write 0, .write 0, .deliver 200, .deliver 201], begins_firstInstall,
    rfl, ⟨rfl, rfl, rfl, rfl⟩, rfl, rfl, ?_⟩
  rintro ⟨⟨h, -⟩, -⟩
  revert h
  decide

end InstallRun

end Link
