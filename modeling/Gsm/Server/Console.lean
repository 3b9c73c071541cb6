import Mathlib.Data.List.Perm.Basic
import Mathlib.Logic.Function.Basic
import Gsm.Data.RingBuffer
import Gsm.GoStd.Path
import Gsm.Machine.Exec

/-!
# Console lines on the server

`onConsole` takes the lines of an `inst.console` event, `pushConsole` those of an install's stream
as well. Each message is handled at once unless its handler has to wait: `instanceIdFor` for the
database when it meets a uuid for the first time, `pushConsole` for the settings now and then. Other
messages are handled meanwhile. What was pushed to the history, to the browsers and to the player
tracker is one sequence of pushes (`Pushed`), in whatever order it came.
-/

open GoStd Data Machine

namespace Server

structure ConsoleLine where
  atMs : ℕ
  text : Str
deriving DecidableEq

inductive ConsoleStream where
  | console
  | install
deriving DecidableEq

/-- The arguments of `pushConsole`. -/
structure Push where
  instanceId : ℕ
  stream : ConsoleStream
  lines : List ConsoleLine
deriving DecidableEq

/-- A handler, by what it waits for. -/
inductive Waiting where
  /-- `instanceIdFor`, for `findOne` -/
  | finding (uuid : Str) (stream : ConsoleStream) (lines : List ConsoleLine)
  /-- `pushConsole`, for `getGeneral` -/
  | settings (p : Push)
deriving DecidableEq

/-- `RingBuffer` capacities; `consoleHistoryLines` is never zero. -/
abbrev Capacity := { n : ℕ // 0 < n }

/-- The buffers of `ConsoleHistory`. -/
abbrev Buffers := ℕ → ConsoleStream → Option (RingBuffer ConsoleLine)

/-- The server, as far as it deals with the console lines of one node. -/
structure Console where
  /-- the ids of the node's instances in the database -/
  rows : Str → Option ℕ
  idByUuid : Str → Option ℕ
  capacityLoaded : ℕ
  capacity : Capacity
  /-- `consoleHistoryLines` of the cached settings, and when they were read -/
  settings : Option (Capacity × ℕ)
  buffers : Buffers
  /-- the `instance.console` broadcasts -/
  browsers : List Push
  /-- the calls of `players.onConsole` -/
  players : List (ℕ × List ConsoleLine)
  handlers : List Waiting

inductive ConsoleAction where
  /-- an `inst.console` event arrives -/
  | arrive (now : ℕ) (uuid : Str) (stream : ConsoleStream) (lines : List ConsoleLine)
  /-- a chunk of a pending install's stream arrives -/
  | chunk (now : ℕ) (id : ℕ) (lines : List ConsoleLine)
  /-- the `i`-th handler gets the id it waits for -/
  | found (i : ℕ) (now : ℕ)
  /-- the `i`-th handler gets the settings it waits for -/
  | general (i : ℕ) (capacity : Capacity) (now : ℕ)

/-- `ConsoleHistory.append` -/
def append (buffers : Buffers) (capacity : Capacity) (p : Push) : Buffers := fun id stream =>
  if id = p.instanceId ∧ stream = p.stream then
    some (((buffers id stream).getD (.empty capacity.1 capacity.2)).pushAll p.lines)
  else buffers id stream

/-- What `pushConsole` hands on to the player tracker. -/
def Push.toPlayers (p : Push) : Option (ℕ × List ConsoleLine) :=
  if p.stream = .console then some (p.instanceId, p.lines) else none

namespace Console

/-- The end of `pushConsole`. -/
def push (s : Console) (p : Push) : Console :=
  { s with
    buffers := append s.buffers s.capacity p
    browsers := s.browsers ++ [p]
    players := s.players ++ p.toPlayers.toList }

def pushConsole (s : Console) (now : ℕ) (p : Push) : Console :=
  if now - s.capacityLoaded > 60000 then
    match s.settings with
    | some (capacity, readAt) =>
        if now - readAt < 15000 then
          { s with capacityLoaded := now, capacity := capacity }.push p
        else { s with capacityLoaded := now, handlers := s.handlers ++ [.settings p] }
    | none => { s with capacityLoaded := now, handlers := s.handlers ++ [.settings p] }
  else s.push p

def onConsole (s : Console) (now : ℕ) (uuid : Str) (stream : ConsoleStream)
    (lines : List ConsoleLine) : Console :=
  match s.idByUuid uuid with
  | some id => s.pushConsole now ⟨id, stream, lines⟩
  | none => { s with handlers := s.handlers ++ [.finding uuid stream lines] }

def step (s : Console) : ConsoleAction → Option Console
  | .arrive now uuid stream lines => some (s.onConsole now uuid stream lines)
  | .chunk now id lines => some (s.pushConsole now ⟨id, .install, lines⟩)
  | .found i now =>
      match s.handlers[i]? with
      | some (.finding uuid stream lines) =>
          let s := { s with handlers := s.handlers.eraseIdx i }
          match s.rows uuid with
          | none => some s
          | some id =>
              some ({ s with idByUuid := Function.update s.idByUuid uuid (some id) }.pushConsole now
                ⟨id, stream, lines⟩)
      | _ => none
  | .general i capacity now =>
      match s.handlers[i]? with
      | some (.settings p) =>
          some ({ s with
            capacity := capacity
            settings := some (capacity, now)
            handlers := s.handlers.eraseIdx i }.push p)
      | _ => none

end Console

/-! ## What was pushed -/

/-- The lines of some pushes that go to one history. -/
def linesOf (id : ℕ) (stream : ConsoleStream) (ps : List Push) : List ConsoleLine :=
  ps.flatMap fun p => if id = p.instanceId ∧ stream = p.stream then p.lines else []

theorem linesOf_append (id : ℕ) (stream : ConsoleStream) (ps qs : List Push) :
    linesOf id stream (ps ++ qs) = linesOf id stream ps ++ linesOf id stream qs :=
  List.flatMap_append

/-- What a history holds, oldest line first. -/
def held (b : Option (RingBuffer ConsoleLine)) : List ConsoleLine := b.elim [] RingBuffer.toArray

/-- A history has taken in some lines: it holds the end of what it held and of them, as many as it
has room for. -/
def Appended (b b' : Option (RingBuffer ConsoleLine)) (lines : List ConsoleLine) : Prop :=
  match b' with
  | none => b = none ∧ lines = []
  | some b' =>
      b'.toArray = (held b ++ lines).rtake b'.capacity ∧
        ∀ b₀, b = some b₀ → b'.capacity = b₀.capacity

theorem Appended.refl (b : Option (RingBuffer ConsoleLine)) : Appended b b [] := by
  cases b with
  | none => exact ⟨rfl, rfl⟩
  | some b => exact ⟨b.toArray_pushAll [], fun b₀ hb => by cases hb; rfl⟩

theorem Appended.trans {b b₁ b₂ : Option (RingBuffer ConsoleLine)} {l₁ l₂ : List ConsoleLine}
    (h₁ : Appended b b₁ l₁) (h₂ : Appended b₁ b₂ l₂) : Appended b b₂ (l₁ ++ l₂) := by
  cases b₁ with
  | none =>
    obtain ⟨rfl, rfl⟩ := h₁
    exact h₂
  | some b₁ =>
    cases b₂ with
    | none => cases h₂.1
    | some b₂ =>
      have hcap := h₂.2 b₁ rfl
      refine ⟨?_, fun b₀ hb => hcap.trans (h₁.2 b₀ hb)⟩
      rw [h₂.1, held, Option.elim_some, h₁.1, ← hcap, rtake_append_rtake, List.append_assoc]

theorem appended_append (buffers : Buffers) (capacity : Capacity) (p : Push) (id : ℕ)
    (stream : ConsoleStream) :
    Appended (buffers id stream) (append buffers capacity p id stream) (linesOf id stream [p]) := by
  rw [append, linesOf, List.flatMap_singleton]
  split
  case isFalse => exact Appended.refl _
  case isTrue =>
    refine ⟨?_, fun b hb => ?_⟩
    · rw [RingBuffer.toArray_pushAll, RingBuffer.capacity_pushAll]
      cases buffers id stream with
      | none => simp [held]
      | some b => rfl
    · rw [RingBuffer.capacity_pushAll, hb, Option.getD_some]

/-- Between two states, these pushes were made, in this order. -/
structure Pushed (s s' : Console) (ps : List Push) : Prop where
  history : ∀ id stream, Appended (s.buffers id stream) (s'.buffers id stream) (linesOf id stream ps)
  browsers : s'.browsers = s.browsers ++ ps
  players : s'.players = s.players ++ ps.filterMap Push.toPlayers

variable {s s' s'' : Console} {ps qs : List Push} {p : Push} {now : ℕ} {a : ConsoleAction}
  {as : List ConsoleAction}

/-- A step that pushes nothing. -/
theorem pushed_nil (hbuffers : s'.buffers = s.buffers) (hbrowsers : s'.browsers = s.browsers)
    (hplayers : s'.players = s.players) : Pushed s s' [] where
  history _ _ := by rw [hbuffers]; exact Appended.refl _
  browsers := by rw [hbrowsers, List.append_nil]
  players := by rw [hplayers]; exact (List.append_nil _).symm

theorem Pushed.trans (h₁ : Pushed s s' ps) (h₂ : Pushed s' s'' qs) : Pushed s s'' (ps ++ qs) where
  history id stream := by
    rw [linesOf_append]
    exact (h₁.history id stream).trans (h₂.history id stream)
  browsers := by rw [h₂.browsers, h₁.browsers, List.append_assoc]
  players := by rw [h₂.players, h₁.players, List.filterMap_append, List.append_assoc]

theorem pushed_push (s : Console) (p : Push) : Pushed s (s.push p) [p] where
  history := appended_append s.buffers s.capacity p
  browsers := rfl
  players := by cases h : p.toPlayers <;> simp [Console.push, h]

/-! ## What is still to be pushed -/

/-- What a handler goes on to push, given the database. -/
def Waiting.push? (rows : Str → Option ℕ) : Waiting → Option Push
  | .finding uuid stream lines => (rows uuid).map fun id => ⟨id, stream, lines⟩
  | .settings p => some p

/-- What a message asks to push. -/
def ConsoleAction.push? (rows : Str → Option ℕ) : ConsoleAction → Option Push
  | .arrive _ uuid stream lines => (rows uuid).map fun id => ⟨id, stream, lines⟩
  | .chunk _ id lines => some ⟨id, .install, lines⟩
  | _ => none

/-- The pushes that the handlers under way will make. -/
def pending (s : Console) : List Push := s.handlers.filterMap (Waiting.push? s.rows)

/-- The cached ids are those of the rows. -/
def Coherent (s : Console) : Prop := ∀ uuid id, s.idByUuid uuid = some id → s.rows uuid = some id

/-- From `s` to `s'`, of what was due `ps` has been pushed and the rest is pending. Where `one` holds,
the order is kept too and at most one handler is left. -/
structure Handled (one : Prop) (s s' : Console) (due ps : List Push) : Prop where
  rows : s'.rows = s.rows
  coherent : Coherent s'
  pushed : Pushed s s' ps
  perm : due.Perm (ps ++ pending s')
  order : one → due = ps ++ pending s' ∧ s'.handlers.length ≤ 1

/-- `pushConsole` makes its push, or leaves it to a handler that comes last. -/
theorem pushConsole_handled (hco : Coherent s) (now : ℕ) (p : Push) :
    ∃ ps, Handled (s.handlers = []) s (s.pushConsole now p) (pending s ++ [p]) ps := by
  have pushes {s' : Console} (hs' : Pushed s s' [p]) (hrows : s'.rows = s.rows)
      (hids : s'.idByUuid = s.idByUuid) (hhandlers : s'.handlers = s.handlers) :
      ∃ ps, Handled (s.handlers = []) s s' (pending s ++ [p]) ps := by
    have hpending : pending s' = pending s := by rw [pending, pending, hrows, hhandlers]
    refine ⟨[p], hrows, fun uuid id h => ?_, hs', ?_, fun hone => ?_⟩
    · rw [hrows]
      exact hco uuid id (hids ▸ h)
    · rw [hpending]
      exact List.perm_append_comm
    · rw [hpending, pending, hhandlers, hone]
      exact ⟨rfl, by simp⟩
  have waits {s' : Console} (hs' : Pushed s s' []) (hrows : s'.rows = s.rows)
      (hids : s'.idByUuid = s.idByUuid) (hhandlers : s'.handlers = s.handlers ++ [.settings p]) :
      ∃ ps, Handled (s.handlers = []) s s' (pending s ++ [p]) ps := by
    have hpending : pending s' = pending s ++ [p] := by
      rw [pending, hrows, hhandlers, List.filterMap_append]
      rfl
    refine ⟨[], hrows, fun uuid id h => ?_, hs', ?_, fun hone => ?_⟩
    · rw [hrows]
      exact hco uuid id (hids ▸ h)
    · rw [hpending, List.nil_append]
    · rw [hpending, hhandlers, hone]
      exact ⟨rfl, by simp⟩
  unfold Console.pushConsole
  split
  case isFalse => exact pushes (pushed_push s p) rfl rfl rfl
  case isTrue =>
    split
    case h_1 capacity readAt _ =>
      split
      case isTrue =>
        have h := pushed_push { s with capacityLoaded := now, capacity := capacity } p
        exact pushes ⟨h.history, h.browsers, h.players⟩ rfl rfl rfl
      case isFalse => exact waits (pushed_nil rfl rfl rfl) rfl rfl rfl
    case h_2 => exact waits (pushed_nil rfl rfl rfl) rfl rfl rfl

/-- A message arrives only when no handler is under way. -/
def OneAtATime (s : Console) : ConsoleAction → Prop
  | .arrive _ _ _ _ => s.handlers = []
  | .chunk _ _ _ => s.handlers = []
  | _ => True

/-- The handler that goes on is taken out. -/
theorem pending_eraseIdx {i : ℕ} {w : Waiting} (h : s.handlers[i]? = some w) :
    (pending s).Perm ((s.handlers.eraseIdx i).filterMap (Waiting.push? s.rows) ++
      (w.push? s.rows).toList) := by
  obtain ⟨hi, rfl⟩ := List.getElem?_eq_some_iff.mp h
  have hperm := (List.getElem_cons_eraseIdx_perm hi).symm.filterMap (Waiting.push? s.rows)
  refine hperm.trans ?_
  cases hw : s.handlers[i].push? s.rows with
  | none => simp [hw]
  | some p => simpa [hw] using (List.perm_append_singleton p _).symm

theorem eraseIdx_eq_nil {i : ℕ} {w : Waiting} (h : s.handlers[i]? = some w)
    (hone : s.handlers.length ≤ 1) : s.handlers.eraseIdx i = [] := by
  obtain ⟨hi, -⟩ := List.getElem?_eq_some_iff.mp h
  rw [← List.length_eq_zero_iff, List.length_eraseIdx_of_lt hi]
  omega

/-- A handler is taken out and goes on. -/
theorem Handled.resume (s : Console) {one : Prop} {due due₁ : List Push} {s₁ : Console}
    (h : Handled one s₁ s' due₁ ps) (hrows : s₁.rows = s.rows) (hbuffers : s₁.buffers = s.buffers)
    (hbrowsers : s₁.browsers = s.browsers) (hplayers : s₁.players = s.players)
    (hperm : due.Perm due₁) {one' : Prop} (hone : one' → one ∧ due = due₁) :
    Handled one' s s' due ps where
  rows := h.rows.trans hrows
  coherent := h.coherent
  pushed := by simpa using (pushed_nil hbuffers hbrowsers hplayers).trans h.pushed
  perm := hperm.trans h.perm
  order h' := by
    obtain ⟨h'', rfl⟩ := hone h'
    exact h.order h''

theorem arrive_handled (hco : Coherent s) (now : ℕ) (uuid : Str) (stream : ConsoleStream)
    (lines : List ConsoleLine) :
    ∃ ps, Handled (s.handlers = []) s (s.onConsole now uuid stream lines)
      (pending s ++ ((s.rows uuid).map fun id => (⟨id, stream, lines⟩ : Push)).toList) ps := by
  unfold Console.onConsole
  split
  case h_1 id hid =>
    rw [hco uuid id hid]
    exact pushConsole_handled hco now ⟨id, stream, lines⟩
  case h_2 =>
    -- the lookup is still to come, and finds the id if there is one
    have hpending : pending { s with handlers := s.handlers ++ [.finding uuid stream lines] } =
        pending s ++ ((s.rows uuid).map fun id => (⟨id, stream, lines⟩ : Push)).toList := by
      rw [pending, List.filterMap_append, pending]
      congr 1
    refine ⟨[], rfl, hco, pushed_nil rfl rfl rfl, ?_, fun hone => ?_⟩
    · rw [hpending, List.nil_append]
    · rw [hpending, hone]
      exact ⟨rfl, by simp⟩

theorem found_handled {i now : ℕ} (hco : Coherent s) (hs : s.step (.found i now) = some s') :
    ∃ ps, Handled (s.handlers.length ≤ 1) s s' (pending s) ps := by
  rw [Console.step] at hs
  split at hs
  case h_2 => cases hs
  case h_1 uuid stream lines hw =>
    have hperm := pending_eraseIdx hw
    rw [Waiting.push?] at hperm
    dsimp only at hs
    split at hs
    case h_1 hrow =>
      cases hs
      rw [hrow, Option.map_none, Option.toList_none, List.append_nil] at hperm
      refine ⟨[], rfl, hco, pushed_nil rfl rfl rfl, hperm, fun hone => ?_⟩
      have hnil := eraseIdx_eq_nil hw hone
      rw [hnil] at hperm
      rw [List.perm_nil.mp hperm, pending, hnil]
      exact ⟨rfl, Nat.zero_le _⟩
    case h_2 id hrow =>
      cases hs
      rw [hrow, Option.map_some, Option.toList_some] at hperm
      have hco' : Coherent { s with
          handlers := s.handlers.eraseIdx i
          idByUuid := Function.update s.idByUuid uuid (some id) } := by
        intro uuid' id' h
        dsimp only at h ⊢
        rw [Function.update_apply] at h
        split at h
        case isTrue huuid => rw [huuid, ← h, hrow]
        case isFalse => exact hco uuid' id' h
      obtain ⟨ps, h⟩ := pushConsole_handled hco' now ⟨id, stream, lines⟩
      refine ⟨ps, h.resume s rfl rfl rfl rfl hperm fun hone => ?_⟩
      have hnil := eraseIdx_eq_nil hw hone
      refine ⟨hnil, ?_⟩
      rw [hnil] at hperm
      rw [List.perm_singleton.mp hperm, pending, hnil]
      rfl

theorem general_handled {i now : ℕ} {capacity : Capacity} (hco : Coherent s)
    (hs : s.step (.general i capacity now) = some s') :
    ∃ ps, Handled (s.handlers.length ≤ 1) s s' (pending s) ps := by
  rw [Console.step] at hs
  split at hs
  case h_2 => cases hs
  case h_1 p hw =>
    cases hs
    have hperm := pending_eraseIdx hw
    rw [Waiting.push?, Option.toList_some] at hperm
    have h := pushed_push { s with
      capacity := capacity
      settings := some (capacity, now)
      handlers := s.handlers.eraseIdx i } p
    refine ⟨[p], rfl, hco, ⟨h.history, h.browsers, h.players⟩,
      hperm.trans List.perm_append_comm, fun hone => ?_⟩
    have hnil := eraseIdx_eq_nil hw hone
    rw [hnil] at hperm
    refine ⟨?_, ?_⟩
    · rw [List.perm_singleton.mp hperm, pending, Console.push, hnil]
      rfl
    · rw [Console.push, hnil]
      exact Nat.zero_le _

/-- One step: what was pending and what arrives has been pushed or is pending. -/
theorem step_handled (hco : Coherent s) (hs : s.step a = some s') :
    ∃ ps, Handled (s.handlers.length ≤ 1 ∧ OneAtATime s a) s s'
      (pending s ++ (a.push? s.rows).toList) ps := by
  cases a with
  | arrive now uuid stream lines =>
    cases hs
    obtain ⟨ps, h⟩ := arrive_handled hco now uuid stream lines
    exact ⟨ps, h.resume s rfl rfl rfl rfl .rfl fun hone => ⟨hone.2, rfl⟩⟩
  | chunk now id lines =>
    cases hs
    obtain ⟨ps, h⟩ := pushConsole_handled hco now ⟨id, .install, lines⟩
    exact ⟨ps, h.resume s rfl rfl rfl rfl .rfl fun hone => ⟨hone.2, rfl⟩⟩
  | found i now =>
    obtain ⟨ps, h⟩ := found_handled hco hs
    refine ⟨ps, h.resume s rfl rfl rfl rfl ?_ fun hone => ⟨hone.1, ?_⟩⟩ <;>
      simp [ConsoleAction.push?]
  | general i capacity now =>
    obtain ⟨ps, h⟩ := general_handled hco hs
    refine ⟨ps, h.resume s rfl rfl rfl rfl ?_ fun hone => ⟨hone.1, ?_⟩⟩ <;>
      simp [ConsoleAction.push?]

theorem exec_handled (hco : Coherent s) (hrun : exec Console.step s as = some s') :
    ∃ ps, Handled (s.handlers.length ≤ 1 ∧ Along Console.step OneAtATime s as) s s'
      (pending s ++ as.filterMap (ConsoleAction.push? s.rows)) ps := by
  induction as generalizing s with
  | nil =>
    cases hrun
    refine ⟨[], rfl, hco, pushed_nil rfl rfl rfl, ?_, fun hone => ?_⟩
    · rw [List.filterMap_nil, List.append_nil, List.nil_append]
    · rw [List.filterMap_nil, List.append_nil, List.nil_append]
      exact ⟨rfl, hone.1⟩
  | cons a as ih =>
    obtain ⟨s₁, hs, hrest⟩ := exec_cons_eq_some.mp hrun
    obtain ⟨ps, h⟩ := step_handled hco hs
    obtain ⟨qs, h'⟩ := ih h.coherent hrest
    have hsplit : pending s ++ (a :: as).filterMap (ConsoleAction.push? s.rows) =
        pending s ++ (a.push? s.rows).toList ++ as.filterMap (ConsoleAction.push? s₁.rows) := by
      rw [h.rows, List.append_assoc]
      congr 1
      cases hp : a.push? s.rows <;> simp [hp]
    rw [hsplit]
    refine ⟨ps ++ qs, h'.rows.trans h.rows, h'.coherent, h.pushed.trans h'.pushed, ?_, ?_⟩
    · refine (h.perm.append_right _).trans ?_
      rw [List.append_assoc, List.append_assoc]
      exact h'.perm.append_left ps
    · rintro ⟨hone, halong⟩
      obtain ⟨heq, hone₁⟩ := h.order ⟨hone, halong.1⟩
      obtain ⟨heq', hone'⟩ := h'.order ⟨hone₁, halong.tail hs⟩
      refine ⟨?_, hone'⟩
      rw [heq, List.append_assoc, heq', List.append_assoc]

end Server
