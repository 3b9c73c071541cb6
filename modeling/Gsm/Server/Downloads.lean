import Gsm.Server.TransferRuns

/-!
# Downloads

The agent posts what it reads and hashes it on the way; the panel counts and hashes what it gets and hands it on to
the browser, but for the last chunk, which it holds back until the agent has compared the two digests. The posts are
those of the relay. Nothing is assumed of the bytes between the two: a chunk that the panel reads is any chunk.

One callback is one action: a write or the end of `produce`, an answer, a read, a timeout, the browser going away.
-/

open Machine

namespace Server.Files

/-- `FileTransferResult` -/
structure TransferResult where
  size : ℕ
  sha256 : String
deriving DecidableEq

/-! ## The agent -/

/-- `postStream` -/
structure Sender where
  /-- What `produce` has written, which is hashed as it is written -/
  written : Bytes
  /-- `result` and `runErr` -/
  result : Option (Except String TransferResult)
  /-- What `Post` gave -/
  posted : Option (Except String String)

/-- What `postStream` returns, once `produce` and `Post` have ended -/
def Sender.outcome (a : Sender) : Option (Except String TransferResult) :=
  match a.result, a.posted with
  | some (.error e), some _ => some (.error e)
  | some (.ok _), some (.error e) => some (.error e)
  | some (.ok r), some (.ok sha) =>
      if sha = r.sha256 then some (.ok r)
      else some (.error ("checksum mismatch: sent " ++ r.sha256 ++ ", the server received " ++ sha))
  | _, _ => none

/-! ## The panel -/

/-- What the browser's stream is in -/
inductive Stream where
  | readable
  | closed
  | errored
  | cancelled
deriving DecidableEq

/-- What a `pull` waits for -/
inductive Pull where
  | reading
  /-- `await rpc`, with the digest that the POST was answered with -/
  | confirming (sha256 : String)

inductive Audit where
  | done (size : ℕ) (sha256 : String)
  | failed (error : String) (bytes : Option ℕ)

/-- A download from the request to the agent on -/
structure Download where
  sender : Sender
  rpc : Deferred TransferResult
  /-- The agent's POST, with the `tally` and what `complete` has answered -/
  post : Option Post
  held : Option Bytes
  pulling : Option Pull
  stream : Stream
  /-- What was enqueued for the browser -/
  handed : Bytes
  /-- How often the agent was asked to cancel -/
  cancels : ℕ
  audits : List Audit

namespace Download

def start : Download := ⟨⟨[], none, none⟩, none, none, none, none, .readable, [], 0, []⟩

/-- `fail` -/
def fail (d : Download) (p : Post) (message : String) : Download :=
  if p.finished then { d with post := some p }
  else
    { d with
      post := some (p.fail message)
      cancels := d.cancels + 1
      audits := d.audits ++ [.failed message (some p.tally.length)] }

section
attribute [local simp] Server.Files.Download.fail
end

/-- `ctrl.error`, which ends the `pull` -/
def error (d : Download) : Download :=
  { d with pulling := none, stream := if d.stream = .readable then .errored else d.stream }

/-- `ctrl.enqueue`, which a stream that has ended refuses -/
def enqueue (d : Download) : Option Bytes → Option Download
  | none => some d
  | some value => if d.stream = .readable then some { d with handed := d.handed ++ value } else none

/-- `ctrl.close` -/
def close (d : Download) : Option Download :=
  if d.stream = .readable then some { d with stream := .closed, pulling := none } else none

variable (sha256 : Bytes → String) (max : ℕ) (refused tooLarge : String)

/-- `pull`, once the agent's body has given something; `max` is `transferMaxBytes`. -/
def read (d : Download) (p : Post) : ReadResult → Download
  | .chunk value =>
      let p := { p with tally := p.tally ++ value }
      if 0 < max ∧ max < p.tally.length then (d.fail p tooLarge).error
      else
        match d.enqueue d.held with
        | none => (d.fail p refused).error
        | some d => { d with post := some p, held := some value, pulling := none }
  | .done => { d with post := some (p.ends sha256), pulling := some (.confirming (sha256 p.tally)) }
  | .error message => (d.fail p message).error

/-- `pull`, once the agent has answered -/
def confirm (d : Download) (p : Post) (sha : String) : Except String TransferResult → Download
  | .error message => (d.fail p message).error
  | .ok res =>
      let p := { p with finished := true }
      match (d.enqueue d.held).bind close with
      | none => (d.fail p refused).error
      | some d => { d with post := some p, audits := d.audits ++ [.done res.size sha] }

inductive Action where
  /-- `produce` writes. -/
  | produce (value : Bytes)
  | produced (err : Option String)
  /-- `Post` returns: with the answer, or for a reason of its own. -/
  | posted (err : Option String)
  /-- The agent answers the request. -/
  | answered
  /-- The request fails: the agent refuses it or is gone, or it took too long. -/
  | rpcFails (message : String)
  | arrive (length : Option ℕ)
  /-- Nothing has arrived, and nothing will. -/
  | giveUp (message : String)
  | pull
  | read (result : ReadResult)
  /-- `await rpc` goes on. -/
  | confirmed
  /-- The browser is gone. -/
  | cancel

def step (d : Download) : Action → Option Download
  | .produce value =>
      match d.sender.result, d.sender.posted with
      | none, none => some { d with sender := { d.sender with written := d.sender.written ++ value } }
      | _, _ => none
  | .produced err =>
      match d.sender.result, err with
      | some _, _ => none
      | none, some e => some { d with sender := { d.sender with result := some (.error e) } }
      | none, none =>
          let r := ⟨d.sender.written.length, sha256 d.sender.written⟩
          some { d with sender := { d.sender with result := some (.ok r) } }
  | .posted err =>
      match d.sender.posted, err, d.post.bind Post.answer with
      | some _, _, _ => none
      | none, some e, _ => some { d with sender := { d.sender with posted := some (.error e) } }
      | none, none, some x => some { d with sender := { d.sender with posted := some x } }
      | none, none, none => none
  | .answered =>
      match d.rpc, d.sender.outcome with
      | none, some x => some { d with rpc := some x }
      | _, _ => none
  | .rpcFails message => some { d with rpc := d.rpc.reject message }
  | .arrive length =>
      match d.post, d.stream with
      | none, .readable => some { d with post := some ⟨length, [], false, false, none, false⟩ }
      | _, _ => none
  | .giveUp message =>
      match d.post, d.stream with
      | none, .readable => some { d with stream := .errored, audits := d.audits ++ [.failed message none] }
      | _, _ => none
  | .pull =>
      match d.post, d.stream, d.pulling with
      | some _, .readable, none => some { d with pulling := some .reading }
      | _, _, _ => none
  | .read result =>
      match d.post, d.pulling with
      | some p, some .reading => some (d.read sha256 max refused tooLarge p result)
      | _, _ => none
  | .confirmed =>
      match d.post, d.pulling, d.rpc with
      | some p, some (.confirming sha), some x => some (d.confirm refused p sha x)
      | _, _, _ => none
  | .cancel =>
      match d.post, d.stream with
      | some p, .readable => some { d.fail p "The browser cancelled the download" with stream := .cancelled }
      | _, _ => none

end Download

/-! ## What the browser gets -/

/-- Something is missing of what was read, if anything was. -/
structure Lacks (handed tally : Bytes) : Prop where
  isPrefix : handed <+: tally
  short : handed = tally → tally = []

theorem Lacks.append {handed tally : Bytes} (h : Lacks handed tally) (value : Bytes) :
    Lacks handed (tally ++ value) := by
  refine ⟨h.isPrefix.trans (List.prefix_append _ _), fun heq => ?_⟩
  have hle := h.isPrefix.length_le
  have hlength := congrArg List.length heq
  rw [List.length_append] at hlength
  obtain rfl : value = [] := List.length_eq_zero_iff.mp (by omega)
  rw [List.append_nil] at heq ⊢
  exact h.short heq

theorem lacks_of_held {handed tally : Bytes} {held : Option Bytes} (hread : handed ++ held.getD [] = tally)
    (hheld : ∀ v ∈ held, v ≠ []) (hnone : held = none → handed = []) : Lacks handed tally := by
  refine ⟨⟨_, hread⟩, fun heq => ?_⟩
  rcases held with _ | v
  · rw [← heq, hnone rfl]
  · rw [Option.getD_some] at hread
    have hlength := congrArg List.length (hread.trans heq.symm)
    rw [List.length_append] at hlength
    exact absurd (List.length_eq_zero_iff.mp (by omega)) (hheld v rfl)

namespace Download

/-- What the agent has of the panel, and the panel of the agent -/
structure Answers (sha256 : Bytes → String) (d : Download) : Prop where
  result : ∀ r, d.sender.result = some (.ok r) → r = ⟨d.sender.written.length, sha256 d.sender.written⟩
  posted : ∀ hex, d.sender.posted = some (.ok hex) → ∃ p, d.post = some p ∧ p.answer = some (.ok hex)
  rpc : ∀ r, d.rpc = some (.ok r) → d.sender.outcome = some (.ok r)

/-- A stream that the browser still reads -/
structure Live (max : ℕ) (d : Download) (p : Post) : Prop where
  finished : p.finished = false
  audits : d.audits = []
  read : d.handed ++ d.held.getD [] = p.tally
  held : ∀ v ∈ d.held, v ≠ []
  nothing : d.held = none → d.handed = []
  within : 0 < max → p.tally.length ≤ max

/-- A stream that was closed -/
structure Whole (sha256 : Bytes → String) (max : ℕ) (d : Download) (p : Post) : Prop where
  rpc : ∃ r, d.rpc = some (.ok r) ∧ d.audits = [.done r.size (sha256 p.tally)]
  read : d.handed = p.tally
  within : 0 < max → p.tally.length ≤ max

/-- What the panel reads of the POST -/
structure Reads (sha256 : Bytes → String) (max : ℕ) (d : Download) (p : Post) : Prop where
  answer : ∀ hex, p.answer = some (.ok hex) → p.ended = true ∧ hex = sha256 p.tally
  reading : d.pulling = some .reading → p.ended = false
  confirming : ∀ sha, d.pulling = some (.confirming sha) → p.ended = true ∧ sha = sha256 p.tally
  idle : d.pulling = none → d.stream = .readable → p.ended = false
  live : d.stream = .readable → d.Live max p
  ended : d.stream ≠ .readable → p.finished = true
  closed : d.stream = .closed → d.Whole sha256 max p ∧ d.pulling = none
  lost : d.stream ≠ .readable → d.stream ≠ .closed → Lacks d.handed p.tally ∧ ∃ m n, d.audits = [.failed m n]

/-- Before the agent posts -/
structure Waits (d : Download) : Prop where
  pulling : d.pulling = none
  held : d.held = none
  handed : d.handed = []
  stream : d.stream = .readable ∧ d.audits = [] ∨ d.stream = .errored ∧ ∃ m, d.audits = [.failed m none]

structure Sound (sha256 : Bytes → String) (max : ℕ) (d : Download) : Prop where
  answers : d.Answers sha256
  waits : d.post = none → d.Waits
  reads : ∀ p, d.post = some p → d.Reads sha256 max p

variable {sha256 : Bytes → String} {max : ℕ} {refused tooLarge : String} {d d' : Download} {p : Post}

theorem outcome_ok {a : Sender} {r : TransferResult} (h : a.outcome = some (.ok r)) :
    a.result = some (.ok r) ∧ a.posted = some (.ok r.sha256) := by
  rw [Sender.outcome] at h
  split at h
  · cases h
  · cases h
  · next r' sha hresult hposted =>
    split at h
    · next heq =>
      cases h
      exact ⟨hresult, by rw [hposted, heq]⟩
    · cases h
  · cases h

@[simp] theorem post_fail (message : String) : (d.fail p message).post = some (p.fail message) := by
  rw [fail, Post.fail]
  split <;> rfl

@[simp] theorem sender_fail (message : String) : (d.fail p message).sender = d.sender := by
  rw [fail]
  split <;> rfl

@[simp] theorem rpc_fail (message : String) : (d.fail p message).rpc = d.rpc := by
  rw [fail]
  split <;> rfl

@[simp] theorem handed_fail (message : String) : (d.fail p message).handed = d.handed := by
  rw [fail]
  split <;> rfl

@[simp] theorem stream_fail (message : String) : (d.fail p message).stream = d.stream := by
  rw [fail]
  split <;> rfl

@[simp] theorem pulling_fail (message : String) : (d.fail p message).pulling = d.pulling := by
  rw [fail]
  split <;> rfl

theorem tally_fail (message : String) : (p.fail message).tally = p.tally := by
  rw [Post.fail]
  split <;> rfl

theorem ended_fail (message : String) : (p.fail message).ended = p.ended := by
  rw [Post.fail]
  split <;> rfl

theorem finished_fail (message : String) : (p.fail message).finished = true := by
  rw [Post.fail]
  split
  · assumption
  · rfl

theorem Answers.congr (h : d.Answers sha256) (hsender : d'.sender = d.sender) (hrpc : d'.rpc = d.rpc)
    (hpost : ∀ p x, d.post = some p → p.answer = some x → ∃ p', d'.post = some p' ∧ p'.answer = some x) :
    d'.Answers sha256 := by
  refine ⟨fun r hr => ?_, fun hex hhex => ?_, fun r hr => ?_⟩
  · rw [hsender] at hr ⊢
    exact h.result r hr
  · rw [hsender] at hhex
    obtain ⟨p, hp, hanswer⟩ := h.posted hex hhex
    exact hpost p _ hp hanswer
  · rw [hrpc] at hr
    rw [hsender]
    exact h.rpc r hr

theorem Answers.of_post (h : d.Answers sha256) {p' : Post} (hp : d.post = some p) (hsender : d'.sender = d.sender)
    (hrpc : d'.rpc = d.rpc) (hp' : d'.post = some p') (hanswer : ∀ x, p.answer = some x → p'.answer = some x) :
    d'.Answers sha256 := by
  refine h.congr hsender hrpc fun q x hq hx => ⟨p', hp', hanswer x ?_⟩
  cases hp.symm.trans hq
  exact hx

/-- A stream that has ended without all of the file -/
theorem Reads.of_lost (hanswer : ∀ hex, p.answer = some (.ok hex) → p.ended = true ∧ hex = sha256 p.tally)
    (hreading : d.pulling = some .reading → p.ended = false)
    (hconfirming : ∀ sha, d.pulling = some (.confirming sha) → p.ended = true ∧ sha = sha256 p.tally)
    (hreadable : d.stream ≠ .readable) (hclosed : d.stream ≠ .closed) (hfinished : p.finished = true)
    (hlacks : Lacks d.handed p.tally) (haudits : ∃ m n, d.audits = [.failed m n]) : d.Reads sha256 max p :=
  ⟨hanswer, hreading, hconfirming, fun _ h => absurd h hreadable, fun h => absurd h hreadable, fun _ => hfinished,
    fun h => absurd h hclosed, fun _ _ => ⟨hlacks, haudits⟩⟩

theorem Reads.lacks (h : d.Reads sha256 max p) (hclosed : d.stream ≠ .closed) : Lacks d.handed p.tally := by
  by_cases hstream : d.stream = .readable
  · have hlive := h.live hstream
    exact lacks_of_held hlive.read hlive.held hlive.nothing
  · exact (h.lost hstream hclosed).1

theorem Reads.unclosed (h : d.Reads sha256 max p) (hpulling : d.pulling ≠ none) : d.stream ≠ .closed :=
  fun hclosed => hpulling (h.closed hclosed).2

/-- A download that fails is noted once. -/
theorem Reads.audits_fail (h : d.Reads sha256 max p) (hclosed : d.stream ≠ .closed) {p' : Post}
    (hsame : p'.finished = p.finished) (message : String) :
    ∃ m n, (d.fail p' message).audits = [.failed m n] := by
  rw [fail]
  by_cases hstream : d.stream = .readable
  · have hlive := h.live hstream
    rw [if_neg (by rw [hsame, hlive.finished]; exact Bool.false_ne_true), hlive.audits]
    exact ⟨_, _, rfl⟩
  · rw [if_pos (hsame.trans (h.ended hstream))]
    exact (h.lost hstream hclosed).2

theorem stream_error : d.error.stream ≠ .readable := by
  rw [error]
  dsimp only
  split
  · exact nofun
  · assumption

theorem stream_error_closed (h : d.stream ≠ .closed) : d.error.stream ≠ .closed := by
  rw [error]
  dsimp only
  split
  · exact nofun
  · exact h

/-- A `pull` that fails, after it may have read one more chunk -/
theorem Sound.fails (h : d.Sound sha256 max) (hp : d.post = some p) (hpulling : d.pulling ≠ none) (p' : Post)
    (value : Bytes) (htally : p'.tally = p.tally ++ value) (hfinished : p'.finished = p.finished)
    (hkept : p'.answer = p.answer)
    (hanswer : ∀ hex, p'.answer = some (.ok hex) → p'.ended = true ∧ hex = sha256 p'.tally) (message : String) :
    (d.fail p' message).error.Sound sha256 max := by
  have hreads := h.reads p hp
  have hclosed := hreads.unclosed hpulling
  have hpost : (d.fail p' message).error.post = some (p'.fail message) := post_fail message
  refine ⟨h.answers.of_post hp (sender_fail message) (rpc_fail message) hpost fun x hx => ?_, fun hnone => ?_,
    fun q hq => ?_⟩
  · exact Post.fail_answer (hkept.trans hx)
  · exact nomatch hpost.symm.trans hnone
  · cases hpost.symm.trans hq
    refine .of_lost (fun hex hhex => ?_) nofun nofun stream_error (stream_error_closed ?_) (finished_fail message) ?_
      (hreads.audits_fail hclosed hfinished message)
    · rw [ended_fail, tally_fail]
      refine hanswer hex ?_
      rw [Post.fail] at hhex
      split at hhex
      · exact hhex
      · exact Deferred.of_reject_ok hhex
    · rw [stream_fail]
      exact hclosed
    · have hhanded : (d.fail p' message).error.handed = d.handed := handed_fail message
      rw [tally_fail, htally, hhanded]
      exact (hreads.lacks hclosed).append value

/-- The agent goes on, or the request fails. -/
theorem Sound.agent (h : d.Sound sha256 max) {a : Sender} {x : Deferred TransferResult}
    (hanswers : Answers sha256 { d with sender := a, rpc := x })
    (hrpc : ∀ r, d.rpc = some (.ok r) → x = some (.ok r)) : Sound sha256 max { d with sender := a, rpc := x } := by
  refine ⟨hanswers, fun hnone => ?_, fun p hp => ?_⟩
  · obtain ⟨hpulling, hheld, hhanded, hstream⟩ := h.waits hnone
    exact ⟨hpulling, hheld, hhanded, hstream⟩
  · have hreads := h.reads p hp
    refine ⟨hreads.answer, hreads.reading, hreads.confirming, hreads.idle, fun hstream => ?_, hreads.ended,
      fun hclosed => ?_, hreads.lost⟩
    · obtain ⟨hfinished, haudits, hread, hheld, hnothing, hwithin⟩ := hreads.live hstream
      exact ⟨hfinished, haudits, hread, hheld, hnothing, hwithin⟩
    · obtain ⟨⟨⟨r, hr, haudits⟩, hread, hwithin⟩, hpulling⟩ := hreads.closed hclosed
      exact ⟨⟨⟨r, hrpc r hr, haudits⟩, hread, hwithin⟩, hpulling⟩

theorem sound_produce {value : Bytes} (h : d.Sound sha256 max)
    (hs : d.step sha256 max refused tooLarge (.produce value) = some d') : d'.Sound sha256 max := by
  unfold step at hs
  dsimp only at hs
  split at hs
  · next hresult hposted =>
    cases hs
    refine h.agent ⟨fun r hr => ?_, h.answers.posted, fun r hr => ?_⟩ fun r hr => hr
    · exact nomatch hresult.symm.trans hr
    · exact nomatch hresult.symm.trans (outcome_ok (h.answers.rpc r hr)).1
  · cases hs

theorem sound_produced {err : Option String} (h : d.Sound sha256 max)
    (hs : d.step sha256 max refused tooLarge (.produced err) = some d') : d'.Sound sha256 max := by
  have hrpc (hresult : d.sender.result = none) (r : TransferResult) : d.rpc ≠ some (.ok r) :=
    fun hr => nomatch hresult.symm.trans (outcome_ok (h.answers.rpc r hr)).1
  unfold step at hs
  dsimp only at hs
  split at hs
  · cases hs
  · next e hresult =>
    cases hs
    exact h.agent ⟨nofun, h.answers.posted, fun r hr => absurd hr (hrpc hresult r)⟩ fun r hr => hr
  · next hresult =>
    cases hs
    refine h.agent ⟨fun r hr => ?_, h.answers.posted, fun r hr => absurd hr (hrpc hresult r)⟩ fun r hr => hr
    cases hr
    rfl

theorem sound_posted {err : Option String} (h : d.Sound sha256 max)
    (hs : d.step sha256 max refused tooLarge (.posted err) = some d') : d'.Sound sha256 max := by
  have hrpc (hposted : d.sender.posted = none) (r : TransferResult) : d.rpc ≠ some (.ok r) :=
    fun hr => nomatch hposted.symm.trans (outcome_ok (h.answers.rpc r hr)).2
  unfold step at hs
  dsimp only at hs
  split at hs
  · cases hs
  · next e hposted =>
    cases hs
    exact h.agent ⟨h.answers.result, nofun, fun r hr => absurd hr (hrpc hposted r)⟩ fun r hr => hr
  · next x hposted hx =>
    cases hs
    obtain ⟨p, hp, hanswer⟩ := Option.bind_eq_some_iff.mp hx
    refine h.agent ⟨h.answers.result, fun hex hhex => ?_, fun r hr => absurd hr (hrpc hposted r)⟩ fun r hr => hr
    cases hhex
    exact ⟨p, hp, hanswer⟩
  · cases hs

theorem sound_answered (h : d.Sound sha256 max)
    (hs : d.step sha256 max refused tooLarge .answered = some d') : d'.Sound sha256 max := by
  unfold step at hs
  dsimp only at hs
  split at hs
  · next x hrpc hx =>
    cases hs
    refine h.agent ⟨h.answers.result, h.answers.posted, fun r hr => ?_⟩ fun r hr => nomatch hrpc.symm.trans hr
    cases hr
    exact hx
  · cases hs

theorem sound_rpcFails {message : String} (h : d.Sound sha256 max)
    (hs : d.step sha256 max refused tooLarge (.rpcFails message) = some d') : d'.Sound sha256 max := by
  cases hs
  refine h.agent ⟨h.answers.result, h.answers.posted, fun r hr => ?_⟩ fun r hr => Deferred.reject_settled hr
  exact h.answers.rpc r (Deferred.of_reject_ok hr)

theorem sound_arrive {length : Option ℕ} (h : d.Sound sha256 max)
    (hs : d.step sha256 max refused tooLarge (.arrive length) = some d') : d'.Sound sha256 max := by
  unfold step at hs
  dsimp only at hs
  split at hs
  · next hpost hstream =>
    cases hs
    obtain ⟨hpulling, hheld, hhanded, hwaits⟩ := h.waits hpost
    have haudits : d.audits = [] := by
      rcases hwaits with ⟨-, haudits⟩ | ⟨herrored, -⟩
      · exact haudits
      · exact nomatch hstream.symm.trans herrored
    refine ⟨h.answers.congr rfl rfl fun p x hp => (nomatch hpost.symm.trans hp), nofun, fun p hp => ?_⟩
    cases hp
    refine ⟨nofun, fun _ => rfl, fun sha hsha => (nomatch hpulling.symm.trans hsha), fun _ _ => rfl, fun _ => ?_,
      fun hnot => absurd hstream hnot, fun hclosed => (nomatch hstream.symm.trans hclosed),
      fun hnot => absurd hstream hnot⟩
    refine ⟨rfl, haudits, ?_, fun v hv => ?_, fun _ => hhanded, fun _ => Nat.zero_le _⟩
    · rw [hhanded, hheld]
      rfl
    · exact nomatch hheld.symm.trans (Option.mem_def.mp hv)
  · cases hs

theorem sound_giveUp {message : String} (h : d.Sound sha256 max)
    (hs : d.step sha256 max refused tooLarge (.giveUp message) = some d') : d'.Sound sha256 max := by
  unfold step at hs
  dsimp only at hs
  split at hs
  · next hpost hstream =>
    cases hs
    obtain ⟨hpulling, hheld, hhanded, hwaits⟩ := h.waits hpost
    refine ⟨h.answers.congr rfl rfl fun p x hp => (nomatch hpost.symm.trans hp), fun _ => ?_,
      fun p hp => (nomatch hpost.symm.trans hp)⟩
    refine ⟨hpulling, hheld, hhanded, .inr ⟨rfl, message, ?_⟩⟩
    rcases hwaits with ⟨-, haudits⟩ | ⟨herrored, -⟩
    · rw [haudits, List.nil_append]
    · exact nomatch hstream.symm.trans herrored
  · cases hs

theorem sound_pull (h : d.Sound sha256 max)
    (hs : d.step sha256 max refused tooLarge .pull = some d') : d'.Sound sha256 max := by
  unfold step at hs
  dsimp only at hs
  split at hs
  · next p hpost hstream hpulling =>
    cases hs
    refine ⟨h.answers.congr rfl rfl fun p x hp hx => ⟨p, hp, hx⟩, fun hnone => (nomatch hpost.symm.trans hnone),
      fun q hq => ?_⟩
    cases hpost.symm.trans hq
    have hreads := h.reads p hpost
    obtain ⟨hfinished, haudits, hread, hheld, hnothing, hwithin⟩ := hreads.live hstream
    exact ⟨hreads.answer, fun _ => hreads.idle hpulling hstream, nofun, nofun,
      fun _ => ⟨hfinished, haudits, hread, hheld, hnothing, hwithin⟩, fun hnot => absurd hstream hnot,
      fun hclosed => (nomatch hstream.symm.trans hclosed), fun hnot => absurd hstream hnot⟩
  · cases hs

theorem enqueue_eq_some {x : Option Bytes} (h : d.enqueue x = some d') :
    d' = { d with handed := d.handed ++ x.getD [] } ∧ (d.stream = .readable ∨ x = none) := by
  rcases x with _ | value
  · cases h
    rw [Option.getD_none, List.append_nil]
    exact ⟨rfl, .inr rfl⟩
  · rw [enqueue] at h
    split at h
    · next hstream =>
      cases h
      exact ⟨rfl, .inl hstream⟩
    · cases h

theorem enqueue_readable {x : Option Bytes} (h : d.stream = .readable) :
    d.enqueue x = some { d with handed := d.handed ++ x.getD [] } := by
  rcases x with _ | value
  · rw [enqueue, Option.getD_none, List.append_nil]
  · rw [enqueue, if_pos h, Option.getD_some]

/-- The file ends for the browser only while the browser reads it. -/
theorem enqueue_close_eq_some {x : Option Bytes} (h : (d.enqueue x).bind close = some d') :
    d.stream = .readable ∧
      d' = { d with handed := d.handed ++ x.getD [], stream := .closed, pulling := none } := by
  obtain ⟨d₁, henqueue, hclose⟩ := Option.bind_eq_some_iff.mp h
  obtain ⟨rfl, -⟩ := enqueue_eq_some henqueue
  rw [close] at hclose
  split at hclose
  · next hstream =>
    cases hclose
    exact ⟨hstream, rfl⟩
  · cases hclose

theorem enqueue_close_eq_none {x : Option Bytes} (h : (d.enqueue x).bind close = none) : d.stream ≠ .readable := by
  intro hstream
  rw [enqueue_readable hstream, Option.bind_some, close, if_pos hstream] at h
  cases h

/-- A chunk that is read takes the place of the one that is held, which goes to the browser. -/
theorem sound_chunk {value : Bytes} (h : d.Sound sha256 max) (hp : d.post = some p)
    (hpulling : d.pulling = some .reading) (hvalue : value ≠ []) :
    (d.read sha256 max refused tooLarge p (.chunk value)).Sound sha256 max := by
  have hreads := h.reads p hp
  have hended := hreads.reading hpulling
  have hpulls : d.pulling ≠ none := by
    rw [hpulling]
    exact nofun
  have hrunning (hex : String) (hhex : p.answer = some (.ok hex)) : False := by
    cases hended.symm.trans (hreads.answer hex hhex).1
  have hfails (message : String) : (d.fail { p with tally := p.tally ++ value } message).error.Sound sha256 max :=
    h.fails hp hpulls { p with tally := p.tally ++ value } value rfl rfl rfl (fun hex hhex => (hrunning hex hhex).elim)
      message
  rw [read]
  split
  · exact hfails tooLarge
  · next hwithin =>
    split
    · exact hfails refused
    · next d₁ henqueue =>
      obtain ⟨rfl, hheld⟩ := enqueue_eq_some henqueue
      refine ⟨h.answers.of_post hp rfl rfl rfl fun x hx => hx, nofun, fun q hq => ?_⟩
      cases hq
      refine ⟨fun hex hhex => (hrunning hex hhex).elim, nofun, nofun, fun _ _ => hended, fun hstream => ?_,
        hreads.ended, fun hclosed => absurd hclosed (hreads.unclosed hpulls), fun hstream hclosed => ?_⟩
      · obtain ⟨hfinished, haudits, hread, -, -, -⟩ := hreads.live hstream
        refine ⟨hfinished, haudits, ?_, ?_, nofun, fun hmax => ?_⟩
        · exact congrArg (· ++ value) hread
        · rintro v hv
          cases hv
          exact hvalue
        · exact Nat.not_lt.mp fun hlt => hwithin ⟨hmax, hlt⟩
      · obtain ⟨hlacks, haudits⟩ := hreads.lost hstream hclosed
        have hnone : d.held = none := hheld.resolve_left hstream
        refine ⟨?_, haudits⟩
        dsimp only
        rw [hnone, Option.getD_none, List.append_nil]
        exact hlacks.append value

/-- The body ends: its POST is answered, unless it was given up before. -/
theorem sound_done (h : d.Sound sha256 max) (hp : d.post = some p) (hpulling : d.pulling = some .reading) :
    (d.read sha256 max refused tooLarge p .done).Sound sha256 max := by
  have hreads := h.reads p hp
  have hended := hreads.reading hpulling
  have hunclosed : d.stream ≠ .closed := by
    refine hreads.unclosed ?_
    rw [hpulling]
    exact nofun
  refine ⟨h.answers.of_post hp rfl rfl rfl fun x hx => Deferred.resolve_settled hx, nofun, fun q hq => ?_⟩
  cases hq
  refine ⟨fun hex hhex => ⟨rfl, ?_⟩, nofun, fun sha hsha => ?_, nofun, fun hstream => ?_, hreads.ended,
    fun hclosed => absurd hclosed hunclosed, hreads.lost⟩
  · rcases Deferred.of_resolve_ok hhex with hold | rfl
    · cases hended.symm.trans (hreads.answer hex hold).1
    · rfl
  · cases hsha
    exact ⟨rfl, rfl⟩
  · obtain ⟨hfinished, haudits, hread, hheld, hnothing, hwithin⟩ := hreads.live hstream
    exact ⟨hfinished, haudits, hread, hheld, hnothing, hwithin⟩

theorem sound_read {result : ReadResult} (hresult : result ≠ .chunk []) (h : d.Sound sha256 max)
    (hs : d.step sha256 max refused tooLarge (.read result) = some d') : d'.Sound sha256 max := by
  unfold step at hs
  dsimp only at hs
  split at hs
  · next p hp hpulling =>
    cases hs
    have hreads := h.reads p hp
    rcases result with value | _ | message
    · exact sound_chunk h hp hpulling fun hnil => hresult (congrArg _ hnil)
    · exact sound_done h hp hpulling
    · refine h.fails hp ?_ p [] (List.append_nil _).symm rfl rfl hreads.answer message
      rw [hpulling]
      exact nofun
  · cases hs

theorem sound_confirmed (h : d.Sound sha256 max)
    (hs : d.step sha256 max refused tooLarge .confirmed = some d') : d'.Sound sha256 max := by
  unfold step at hs
  dsimp only at hs
  split at hs
  · next p sha x hp hpulling hrpc =>
    cases hs
    have hreads := h.reads p hp
    have hpulls : d.pulling ≠ none := by
      rw [hpulling]
      exact nofun
    rcases x with message | res
    · exact h.fails hp hpulls p [] (List.append_nil _).symm rfl rfl hreads.answer message
    rw [confirm]
    split
    · next hnone =>
      -- the browser has gone while the agent was asked, so the failure has been noted
      have hfinished := hreads.ended (enqueue_close_eq_none hnone)
      exact h.fails hp hpulls { p with finished := true } [] (List.append_nil _).symm hfinished.symm rfl hreads.answer
        refused
    · next d₁ hsome =>
      obtain ⟨hstream, rfl⟩ := enqueue_close_eq_some hsome
      obtain ⟨-, haudits, hread, -, -, hwithin⟩ := hreads.live hstream
      refine ⟨h.answers.of_post hp rfl rfl rfl fun x hx => hx, nofun, fun q hq => ?_⟩
      cases hq
      refine ⟨hreads.answer, nofun, nofun, nofun, nofun, fun _ => rfl,
        fun _ => ⟨⟨⟨res, hrpc, ?_⟩, hread, hwithin⟩, rfl⟩, fun _ hclosed => absurd rfl hclosed⟩
      dsimp only
      rw [haudits, (hreads.confirming sha hpulling).2, List.nil_append]
  · cases hs

theorem sound_cancel (h : d.Sound sha256 max)
    (hs : d.step sha256 max refused tooLarge .cancel = some d') : d'.Sound sha256 max := by
  unfold step at hs
  dsimp only at hs
  split at hs
  · next p hp hstream =>
    cases hs
    have hreads := h.reads p hp
    have hclosed : d.stream ≠ .closed := by
      rw [hstream]
      exact nofun
    refine ⟨h.answers.of_post hp (sender_fail _) (rpc_fail _) (post_fail _) fun x hx => Post.fail_answer hx,
      fun hnone => (nomatch (post_fail _).symm.trans hnone), fun q hq => ?_⟩
    cases (post_fail _).symm.trans hq
    refine .of_lost (fun hex hhex => ?_) (fun hpulling => ?_) (fun sha hsha => ?_) nofun nofun (finished_fail _) ?_
      (hreads.audits_fail hclosed rfl _)
    · rw [ended_fail, tally_fail]
      refine hreads.answer hex ?_
      rw [Post.fail] at hhex
      split at hhex
      · exact hhex
      · exact Deferred.of_reject_ok hhex
    · rw [ended_fail]
      exact hreads.reading ((pulling_fail _).symm.trans hpulling)
    · rw [ended_fail, tally_fail]
      exact hreads.confirming sha ((pulling_fail _).symm.trans hsha)
    · dsimp only
      rw [handed_fail, tally_fail]
      exact hreads.lacks hclosed
  · cases hs

theorem sound_step {a : Action} (ha : a ≠ .read (.chunk [])) (hs : d.step sha256 max refused tooLarge a = some d')
    (h : d.Sound sha256 max) : d'.Sound sha256 max := by
  rcases a with _ | _ | _ | _ | _ | _ | _ | _ | result | _ | _
  · exact sound_produce h hs
  · exact sound_produced h hs
  · exact sound_posted h hs
  · exact sound_answered h hs
  · exact sound_rpcFails h hs
  · exact sound_arrive h hs
  · exact sound_giveUp h hs
  · exact sound_pull h hs
  · exact sound_read (fun heq => ha (congrArg _ heq)) h hs
  · exact sound_confirmed h hs
  · exact sound_cancel h hs

theorem sound_start : start.Sound sha256 max :=
  ⟨⟨nofun, nofun, nofun⟩, fun _ => ⟨rfl, rfl, rfl, .inl ⟨rfl, rfl⟩⟩, nofun⟩

theorem sound_run {actions : List Action} (hrun : exec (step sha256 max refused tooLarge) start actions = some d)
    (hchunks : ∀ a ∈ actions, a ≠ .read (.chunk [])) : d.Sound sha256 max := by
  exact exec_invariant (fun _ _ _ ha hs h => sound_step ha hs h) hrun (.of_mem hchunks) sound_start

/-! ## The posts of the relay -/

/-- What the relay sees of an action: the `n`-th transfer is the one that this download waits for. -/
def relayed (max n : ℕ) (token : Token) (node : NodeId) (d : Download) : Action → List Files.Action
  | .arrive length => [.receive token node length]
  | .read (.chunk value) => [.bodyRead n max value]
  | .read .done => [.bodyEnd n]
  | .read (.error message) => [.bodyFail n message]
  | .confirmed =>
      match d.rpc with
      | some (.ok _) => [.rpcDone n]
      | some (.error message) => [.bodyFail n message]
      | none => []
  | .cancel => [.bodyFail n "The browser cancelled the download"]
  | _ => []

theorem post_read_chunk (h : d.Reads sha256 max p) (value : Bytes) :
    (d.read sha256 max refused tooLarge p (.chunk value)).post = some (p.read max tooLarge value) := by
  rw [read, Post.read]
  dsimp only
  split
  · exact post_fail tooLarge
  · split
    · next hnone =>
      have hstream : d.stream ≠ .readable := fun hstream => nomatch hnone.symm.trans (enqueue_readable hstream)
      refine (post_fail refused).trans ?_
      rw [Post.fail, if_pos (h.ended hstream)]
    · rfl

theorem post_confirm_ok (sha : String) (res : TransferResult) :
    (d.confirm refused p sha (.ok res)).post = some { p with finished := true } := by
  rw [confirm]
  split
  · refine (post_fail refused).trans ?_
    rw [Post.fail, if_pos rfl]
  · rfl

/-- What a download does to its POST is what the relay's actions do to it. -/
theorem step_relayed (token : Token) (node : NodeId) {randomId : ℕ → Token} {n : ℕ} {a : Action} {s : Transfers}
    {t : Incoming} (h : d.Sound sha256 max) (hs : d.step sha256 max refused tooLarge a = some d')
    (hp : d.post = some p) (ht : s.made[n]? = some (.inc t)) (hpost : t.post = some p) :
    ∃ s' t', exec (Files.step sha256 randomId refused tooLarge) s (d.relayed max n token node a) = some s' ∧
      s'.made[n]? = some (.inc t') ∧ t'.post = d'.post ∧ d'.post ≠ none := by
  have hreads := h.reads p hp
  obtain ⟨nodeId, claimed, arrival, timer, post⟩ := t
  obtain rfl : post = some p := hpost
  have hquiet (hsame : d'.post = d.post) : ∃ s' t', exec (Files.step sha256 randomId refused tooLarge) s [] = some s' ∧
      s'.made[n]? = some (.inc t') ∧ t'.post = d'.post ∧ d'.post ≠ none :=
    ⟨s, _, rfl, ht, (hsame.trans hp).symm, fun hnone => nomatch (hsame.trans hp).symm.trans hnone⟩
  have hacts (a : Files.Action) (p' : Post) (hp' : d'.post = some p')
      (hstep : Files.step sha256 randomId refused tooLarge s a =
        some (s.put n (.inc ⟨nodeId, claimed, arrival, timer, some p'⟩))) :
      ∃ s' t', exec (Files.step sha256 randomId refused tooLarge) s [a] = some s' ∧
        s'.made[n]? = some (.inc t') ∧ t'.post = d'.post ∧ d'.post ≠ none := by
    refine ⟨_, ⟨nodeId, claimed, arrival, timer, some p'⟩, exec_cons_eq_some.mpr ⟨_, hstep, rfl⟩, made_put ht,
      hp'.symm, fun hnone => ?_⟩
    exact nomatch hp'.symm.trans hnone
  have hgone (message : String) (hp' : d'.post = some (p.fail message)) :=
    hacts (.bodyFail n message) (p.fail message) hp' (by rw [Files.step, ht])
  unfold step at hs
  rcases a with value | err | err | _ | message | length | message | _ | result | _ | _ <;> dsimp only at hs
  · split at hs
    · cases hs
      exact hquiet rfl
    · cases hs
  · split at hs <;> cases hs
    · exact hquiet rfl
    · exact hquiet rfl
  · split at hs <;> cases hs
    · exact hquiet rfl
    · exact hquiet rfl
  · split at hs <;> cases hs
    exact hquiet rfl
  · cases hs
    exact hquiet rfl
  · rw [hp] at hs
    cases hs
  · rw [hp] at hs
    cases hs
  · split at hs <;> cases hs
    exact hquiet rfl
  · split at hs
    · next q hq hpulling =>
      cases hs
      cases hp.symm.trans hq
      have hended := hreads.reading hpulling
      rcases result with value | _ | message
      · refine hacts (.bodyRead n max value) _ (post_read_chunk hreads value) ?_
        rw [Files.step, ht]
        dsimp only
        rw [hended, if_neg Bool.false_ne_true]
      · refine hacts (.bodyEnd n) (p.ends sha256) rfl ?_
        rw [Files.step, ht]
        dsimp only
        rw [hended, if_neg Bool.false_ne_true]
      · exact hgone message (post_fail message)
    · cases hs
  · split at hs
    · next q sha x hq hpulling hrpc =>
      cases hs
      cases hp.symm.trans hq
      have hended := (hreads.confirming sha hpulling).1
      rw [relayed, hrpc]
      rcases x with message | res
      · exact hgone message (post_fail message)
      · refine hacts (.rpcDone n) _ (post_confirm_ok sha res) ?_
        rw [Files.step, ht]
        dsimp only
        rw [hended]
        rfl
    · cases hs
  · split at hs
    · next q hq hstream =>
      cases hs
      cases hp.symm.trans hq
      exact hgone _ (post_fail _)
    · cases hs

theorem post_none (hp : d.post = none) {a : Action} (hs : d.step sha256 max refused tooLarge a = some d') :
    d'.post = none ∨ ∃ length, a = .arrive length ∧ d'.post = some ⟨length, [], false, false, none, false⟩ := by
  unfold step at hs
  rcases a with value | err | err | _ | message | length | message | _ | result | _ | _ <;> dsimp only at hs
  · split at hs <;> cases hs
    exact .inl hp
  · split at hs <;> cases hs
    · exact .inl hp
    · exact .inl hp
  · split at hs <;> cases hs
    · exact .inl hp
    · exact .inl hp
  · split at hs <;> cases hs
    exact .inl hp
  · cases hs
    exact .inl hp
  · split at hs <;> cases hs
    exact .inr ⟨length, rfl, rfl⟩
  · split at hs <;> cases hs
    exact .inl hp
  · rw [hp] at hs
    cases hs
  · rw [hp] at hs
    cases hs
  · rw [hp] at hs
    cases hs
  · rw [hp] at hs
    cases hs

/-- Each download is part of a run of the relay, from the transfer that it waits for on. -/
theorem download_relayed {randomId : ℕ → Token} {n : ℕ} {actions : List Action} {s₀ : Transfers} {t₀ : Incoming}
    (hrun : exec (step sha256 max refused tooLarge) start actions = some d)
    (hchunks : ∀ a ∈ actions, a ≠ .read (.chunk [])) (hget : s₀.get (randomId n) = some (n, .inc t₀))
    (hmade : s₀.made[n]? = some (.inc t₀)) (hclaimed : t₀.claimed = false) (hpost : t₀.post = none) :
    ∃ relay s t, exec (Files.step sha256 randomId refused tooLarge) s₀ relay = some s ∧ s.made[n]? = some (.inc t) ∧
      t.post = d.post := by
  suffices h : d.Sound sha256 max ∧ ∃ relay s t, exec (Files.step sha256 randomId refused tooLarge) s₀ relay = some s ∧
      s.made[n]? = some (.inc t) ∧ t.post = d.post ∧ (d.post = none → s = s₀) by
    obtain ⟨-, relay, s, t, hrelay, ht, hp, -⟩ := h
    exact ⟨relay, s, t, hrelay, ht, hp⟩
  refine exec_invariant (P := fun d => d.Sound sha256 max ∧ ∃ relay s t,
    exec (Files.step sha256 randomId refused tooLarge) s₀ relay = some s ∧ s.made[n]? = some (.inc t) ∧
      t.post = d.post ∧ (d.post = none → s = s₀))
    (fun d a d' ha hs h => ?_) hrun (.of_mem hchunks) ⟨sound_start, [], s₀, t₀, rfl, hmade, hpost, fun _ => rfl⟩
  obtain ⟨hsound, relay, s, t, hrelay, ht, hp, hidle⟩ := h
  refine ⟨sound_step ha hs hsound, ?_⟩
  rcases hd : d.post with _ | p
  · obtain rfl := hidle hd
    rcases post_none hd hs with hnone | ⟨length, rfl, hsome⟩
    · exact ⟨relay, s, t, hrelay, ht, by rw [hp, hd, hnone], fun _ => rfl⟩
    · obtain ⟨s', hreceive, hs'⟩ : ∃ s',
          Files.step sha256 randomId refused tooLarge s (.receive (randomId n) t₀.nodeId length) = some s' ∧
            s'.made[n]? = some (.inc (t₀.receive length)) := by
        refine ⟨{ (s.delete (randomId n)).put n (.inc (t₀.receive length)) with
          served := s.served ++ [(randomId n, t₀.nodeId)] }, ?_, made_put (s := s.delete (randomId n)) hmade⟩
        rw [Files.step, hget]
        dsimp only
        rw [if_neg]
        rintro (hne | hclaims)
        · exact hne rfl
        · cases hclaimed.symm.trans hclaims
      exact ⟨relay ++ [.receive (randomId n) t₀.nodeId length], s', t₀.receive length,
        exec_append_eq_some.mpr ⟨s, hrelay, exec_cons_eq_some.mpr ⟨s', hreceive, rfl⟩⟩, hs', hsome.symm,
        fun hnone => (nomatch hsome.symm.trans hnone)⟩
  · obtain ⟨s', t', hacts, ht', hp', hsome⟩ := step_relayed (randomId n) t₀.nodeId hsound hs hd ht (hp.trans hd)
    exact ⟨relay ++ _, s', t', exec_append_eq_some.mpr ⟨s, hrelay, hacts⟩, ht', hp', fun hnone => absurd hnone hsome⟩

end Download

/-- A browser whose download is closed has got all that the agent counted and hashed, within the limit. To any other
something is missing, if anything was read. Each download that has ended was noted once. -/
theorem download_confirmed {sha256 : Bytes → String} {max : ℕ} {refused tooLarge : String}
    {actions : List Download.Action} {d : Download}
    (hrun : exec (Download.step sha256 max refused tooLarge) .start actions = some d)
    (hchunks : ∀ a ∈ actions, a ≠ .read (.chunk [])) :
    (d.stream = .closed →
      sha256 d.handed = sha256 d.sender.written ∧ (0 < max → d.handed.length ≤ max) ∧
        d.audits = [.done d.sender.written.length (sha256 d.sender.written)]) ∧
      (d.stream ≠ .closed → ∀ p, d.post = some p → Lacks d.handed p.tally) ∧
      (d.stream = .readable → d.audits = []) ∧
      (d.stream ≠ .readable → d.stream ≠ .closed → ∃ message bytes, d.audits = [.failed message bytes]) := by
  have hsound := Download.sound_run hrun hchunks
  refine ⟨fun hclosed => ?_, fun hopen p hp => (hsound.reads p hp).lacks hopen, fun hreadable => ?_,
    fun hreadable hopen => ?_⟩
  · rcases hpost : d.post with _ | p
    · rcases (hsound.waits hpost).stream with ⟨hstream, -⟩ | ⟨hstream, -⟩
      · exact nomatch hclosed.symm.trans hstream
      · exact nomatch hclosed.symm.trans hstream
    · have hreads := hsound.reads p hpost
      obtain ⟨⟨r, hrpc, haudits⟩, hread, hwithin⟩ := (hreads.closed hclosed).1
      obtain ⟨hresult, hposted⟩ := Download.outcome_ok (hsound.answers.rpc r hrpc)
      obtain ⟨q, hq, hanswer⟩ := hsound.answers.posted _ hposted
      cases hpost.symm.trans hq
      obtain ⟨-, hdigest⟩ := hreads.answer _ hanswer
      obtain rfl := hsound.answers.result r hresult
      refine ⟨?_, fun hmax => ?_, ?_⟩
      · rw [hread]
        exact hdigest.symm
      · rw [hread]
        exact hwithin hmax
      · rw [haudits, ← hdigest]
  · rcases hpost : d.post with _ | p
    · rcases (hsound.waits hpost).stream with ⟨-, haudits⟩ | ⟨hstream, -⟩
      · exact haudits
      · exact nomatch hreadable.symm.trans hstream
    · exact ((hsound.reads p hpost).live hreadable).audits
  · rcases hpost : d.post with _ | p
    · rcases (hsound.waits hpost).stream with ⟨hstream, -⟩ | ⟨-, message, haudits⟩
      · exact absurd hstream hreadable
      · exact ⟨message, none, haudits⟩
    · exact ((hsound.reads p hpost).lost hreadable hopen).2

/-- Two chunks, the second of which waits for the agent -/
def twoChunks : List Download.Action :=
  [.arrive (some 2), .produce [1], .pull, .read (.chunk [1]), .produce [2], .produced none, .pull, .read (.chunk [2]),
    .pull, .read .done, .posted none, .answered, .confirmed]

theorem download_confirmed_twoChunks :
    ∃ d, exec (Download.step sha256Upload 0 "" "") .start twoChunks = some d ∧ d.stream = .closed ∧ d.handed = [1, 2] ∧
      (d.stream = .closed →
        sha256Upload d.handed = sha256Upload d.sender.written ∧ (0 < 0 → d.handed.length ≤ 0) ∧
          d.audits = [.done d.sender.written.length (sha256Upload d.sender.written)]) ∧
      (d.stream ≠ .closed → ∀ p, d.post = some p → Lacks d.handed p.tally) ∧
      (d.stream = .readable → d.audits = []) ∧
      (d.stream ≠ .readable → d.stream ≠ .closed → ∃ message bytes, d.audits = [.failed message bytes]) := by
  obtain ⟨d, hrun, hclosed, hhanded⟩ : ∃ d, exec (Download.step sha256Upload 0 "" "") .start twoChunks = some d ∧
      d.stream = .closed ∧ d.handed = [1, 2] := ⟨_, rfl, rfl, rfl⟩
  refine ⟨d, hrun, hclosed, hhanded, download_confirmed hrun fun a ha heq => ?_⟩
  rw [heq] at ha
  simp [twoChunks] at ha

end Server.Files
