import Gsm.GoStd.Path
import Gsm.Machine.Exec

/-!
# Requests of the agent

The client of `internal/transport`: any number of goroutines in `Request` beside the one in `Run`, which
dials, reads, delivers responses and, when a connection ends, fails what is pending. Each critical
section and each operation on a channel is one step, so a run is one interleaving. The server answers an
id at most once, but on whatever connection and whenever it likes.

An id is the number in its text. Decoding of results is left out, and so are the requests that the
server makes.
-/

open GoStd Machine

namespace Transport

/-- An envelope with `T == "res"` -/
structure Response where
  id : ℕ
  ok : Option Bool
  result : Str
  error : Option Str
deriving DecidableEq

/-- How `Request` ends. -/
inductive Outcome where
  /-- it has received the response -/
  | answered (res : Response)
  /-- it has found its channel closed -/
  | closed
  | ctxDone (err : Str)
  /-- `Send` has failed -/
  | unsent (err : Str)
deriving DecidableEq

/-- What `Request` returns. -/
def Outcome.result : Outcome → Except Str Str
  | .answered res =>
      if res.ok = some true then .ok res.result
      else .error (res.error.getD "request failed".toList)
  | .closed => .error "connection closed".toList
  | .ctxDone err | .unsent err => .error err

/-- Where a goroutine is in `Request`. -/
inductive Pc where
  /-- its channel is registered -/
  | registered
  /-- `Send` has read the connection -/
  | writing (conn : ℕ)
  /-- in the `select` -/
  | waiting
  /-- before the deferred `delete` -/
  | leaving (out : Outcome)
  | returned (out : Outcome)
deriving DecidableEq

/-- `Request` has its result. -/
def Pc.over : Pc → Bool
  | .leaving _ | .returned _ => true
  | _ => false

/-- A call of `Request` with its channel, which has room for one response. -/
structure Call where
  id : ℕ
  pc : Pc
  buffer : Option Response
  closed : Bool
deriving DecidableEq

/-- The call has the response: in its channel, received or returned. -/
def Call.Has (c : Call) (res : Response) : Prop :=
  c.buffer = some res ∨ c.pc = .leaving (.answered res) ∨ c.pc = .returned (.answered res)

/-- Where the goroutine of `Run` is. -/
inductive Runner where
  /-- it dials, or waits before it does -/
  | down
  /-- in `OnConnect` or `Read` -/
  | up (conn : ℕ)
  /-- in `deliver`, with the channel of the `call`-th call at hand -/
  | delivering (conn call : ℕ) (res : Response)
  /-- `runOnce` is left; `setConn(nil)` comes next -/
  | closing
  /-- `failPending` comes next -/
  | failing
deriving DecidableEq

structure Client where
  conn : Option ℕ
  /-- connections so far -/
  dialed : ℕ
  /-- ids, with the calls whose channels are registered under them -/
  pending : List (ℕ × ℕ)
  nextID : ℕ
  calls : List Call
  runner : Runner
  /-- the ids that the server has answered -/
  answered : List ℕ
  /-- a send on a closed channel, or a closed channel closed -/
  panicked : Bool
deriving DecidableEq

inductive Action where
  /-- `Request` is called and registers its channel -/
  | request
  /-- `Send` reads the connection -/
  | send (k : ℕ)
  /-- the write succeeds or fails -/
  | written (k : ℕ) (err : Option Str)
  /-- the `select` takes the end of the context -/
  | ctxDone (k : ℕ) (err : Str)
  /-- or what the channel has -/
  | receive (k : ℕ)
  /-- the deferred `delete` -/
  | leave (k : ℕ)
  /-- a dial succeeds, and the connection is set -/
  | connect
  /-- a response is read and its channel looked up -/
  | read (res : Response)
  | deliver
  /-- `Read` or `OnConnect` fails -/
  | lost
  /-- `setConn(nil)` -/
  | unset
  /-- `failPending` -/
  | fail

/-- What the `k`-th call does by itself, and what the goroutine of `Run` does when a connection has
ended. -/
def Action.Own (k : ℕ) : Action → Prop
  | .send l | .written l _ | .receive l | .leave l => l = k
  | .unset | .fail => True
  | _ => False

namespace Client

def setCall (s : Client) (k : ℕ) (f : Call → Call) : Client := { s with calls := s.calls.modify k f }

/-- The goroutine of the `k`-th call goes on. -/
def goto (s : Client) (k : ℕ) (pc : Pc) : Client := s.setCall k fun c => { c with pc := pc }

/-- `close` of a channel. -/
def closeChan (s : Client) (k : ℕ) : Client :=
  match s.calls[k]? with
  | some c => if c.closed then { s with panicked := true } else s.setCall k fun c => { c with closed := true }
  | none => s

/-- `failPending` -/
def failPending (s : Client) : Client :=
  { (s.pending.map Prod.snd).foldl closeChan s with pending := [] }

def stepCall (s : Client) (k : ℕ) (c : Call) : Action → Option Client
  | .send _ =>
      match c.pc, s.conn with
      | .registered, some conn => some (s.goto k (.writing conn))
      | .registered, none => some (s.goto k (.leaving (.unsent "not connected".toList)))
      | _, _ => none
  | .written _ err =>
      match c.pc, err with
      | .writing _, none => some (s.goto k .waiting)
      | .writing _, some err => some (s.goto k (.leaving (.unsent err)))
      | _, _ => none
  | .ctxDone _ err =>
      match c.pc with
      | .waiting => some (s.goto k (.leaving (.ctxDone err)))
      | _ => none
  | .receive _ =>
      match c.pc, c.buffer with
      | .waiting, some res =>
          some (s.setCall k fun c => { c with pc := .leaving (.answered res), buffer := none })
      | .waiting, none => if c.closed then some (s.goto k (.leaving .closed)) else none
      | _, _ => none
  | .leave _ =>
      match c.pc with
      | .leaving out => some { s.goto k (.returned out) with pending := s.pending.filter (·.1 ≠ c.id) }
      | _ => none
  | _ => none

def stepRunner (s : Client) : Runner → Action → Option Client
  | .down, .connect => some { s with conn := some s.dialed, dialed := s.dialed + 1, runner := .up s.dialed }
  | .up conn, .read res =>
      if res.id ∈ s.answered then none
      else some { s with
        answered := res.id :: s.answered
        runner :=
          match s.pending.find? (·.1 = res.id) with
          | some (_, k) => .delivering conn k res
          | none => .up conn }
  | .delivering conn k res, .deliver =>
      match s.calls[k]? with
      | some c =>
          if c.closed then some { s with panicked := true }
          else if c.buffer.isSome then none
          else some { s.setCall k (fun c => { c with buffer := some res }) with runner := .up conn }
      | none => none
  | .up _, .lost => some { s with runner := .closing }
  | .closing, .unset => some { s with conn := none, runner := .failing }
  | .failing, .fail => some { s.failPending with runner := .down }
  | _, _ => none

def step (s : Client) (a : Action) : Option Client :=
  if s.panicked then none
  else
    match a with
    | .request => some { s with
        nextID := s.nextID + 1
        pending := (s.nextID + 1, s.calls.length) :: s.pending.filter (·.1 ≠ s.nextID + 1)
        calls := s.calls ++ [⟨s.nextID + 1, .registered, none, false⟩] }
    | .send k | .written k _ | .ctxDone k _ | .receive k | .leave k =>
        match s.calls[k]? with
        | some c => s.stepCall k c a
        | none => none
    | _ => s.stepRunner s.runner a

/-- `New` -/
def new : Client := ⟨none, 0, [], 0, [], .down, [], false⟩

/-! ## Small facts -/

variable {s s' : Client} {a : Action} {as : List Action} {k l : ℕ} {c : Call} {f : Call → Call}
  {res : Response} {ks : List ℕ}

theorem getElem?_setCall (s : Client) (k l : ℕ) (f : Call → Call) :
    (s.setCall k f).calls[l]? = if k = l then s.calls[l]?.map f else s.calls[l]? := by
  rw [setCall, List.getElem?_modify]
  by_cases h : k = l
  · simp [h]
  · simp [h]

theorem setCall_self (h : s.calls[k]? = some c) : (s.setCall k f).calls[k]? = some (f c) := by
  rw [getElem?_setCall, if_pos rfl, h]
  rfl

theorem setCall_ne (h : k ≠ l) : (s.setCall k f).calls[l]? = s.calls[l]? := by
  rw [getElem?_setCall, if_neg h]

/-- A call after a change of one of them is that one or was there before. -/
theorem setCall_cases (hc : s.calls[k]? = some c) {l : ℕ} {d : Call}
    (hd : (s.setCall k f).calls[l]? = some d) : l = k ∧ d = f c ∨ s.calls[l]? = some d := by
  by_cases hl : k = l
  · subst hl
    rw [setCall_self hc] at hd
    exact .inl ⟨rfl, (Option.some.inj hd).symm⟩
  · rw [setCall_ne hl] at hd
    exact .inr hd

theorem length_setCall (s : Client) (k : ℕ) (f : Call → Call) :
    (s.setCall k f).calls.length = s.calls.length := List.length_modify _ _ _

/-- Closing channels that are all different and open. -/
theorem foldl_closeChan (hnodup : ks.Nodup)
    (hopen : ∀ k ∈ ks, ∀ c, s.calls[k]? = some c → c.closed = false) :
    ks.foldl closeChan s = { s with calls := (ks.foldl closeChan s).calls } ∧
      ∀ l, (ks.foldl closeChan s).calls[l]? =
        if l ∈ ks then s.calls[l]?.map fun c => { c with closed := true } else s.calls[l]? := by
  induction ks generalizing s with
  | nil => exact ⟨rfl, fun l => by simp⟩
  | cons k ks ih =>
    obtain ⟨hk, hnodup⟩ := List.nodup_cons.mp hnodup
    rw [List.foldl_cons]
    rcases hc : s.calls[k]? with _ | c
    · have hclose : s.closeChan k = s := by rw [closeChan, hc]
      rw [hclose]
      obtain ⟨hrest, hcalls⟩ := ih hnodup fun k hk => hopen k (List.mem_cons_of_mem _ hk)
      refine ⟨hrest, fun l => ?_⟩
      rw [hcalls l]
      by_cases hl : l = k
      · subst hl
        rw [if_neg hk, hc, if_pos List.mem_cons_self]
        rfl
      · simp [hl]
    · have hclose : s.closeChan k = s.setCall k fun c => { c with closed := true } := by
        rw [closeChan, hc]
        exact if_neg (by simp [hopen k List.mem_cons_self c hc])
      rw [hclose]
      have hother : ∀ l ∈ ks, (s.setCall k fun c => { c with closed := true }).calls[l]? =
          s.calls[l]? := fun l hl => setCall_ne (fun h => hk (h ▸ hl))
      obtain ⟨hrest, hcalls⟩ := ih (s := s.setCall k fun c => { c with closed := true }) hnodup
        fun l hl c hc => hopen l (List.mem_cons_of_mem _ hl) c (hother l hl ▸ hc)
      refine ⟨hrest, fun l => ?_⟩
      rw [hcalls l, getElem?_setCall]
      by_cases hl : l = k
      · subst hl
        rw [if_neg hk, if_pos rfl, if_pos List.mem_cons_self]
      · rw [if_neg (Ne.symm hl)]
        simp [hl]

/-! ## What holds all the time -/

/-- Ids count the calls; a channel is registered under its call's id from the beginning of the call to
its end, unless it has been closed; a response held by a call is one to its id, and the channel that is
about to get one is open and empty. -/
structure Inv (s : Client) : Prop where
  alive : s.panicked = false
  next : s.nextID = s.calls.length
  ids : ∀ k c, s.calls[k]? = some c → c.id = k + 1
  keys : ∀ p ∈ s.pending, p.1 = p.2 + 1 ∧ p.2 < s.calls.length
  nodup : s.pending.Nodup
  unclosed : ∀ p ∈ s.pending, ∀ c, s.calls[p.2]? = some c → c.closed = false
  waits : ∀ k c, s.calls[k]? = some c → c.closed = false → (∀ out, c.pc ≠ .returned out) →
    (k + 1, k) ∈ s.pending
  got : ∀ (k : ℕ) (c : Call) (res : Response), s.calls[k]? = some c → c.Has res → res.id = c.id ∧ res.id ∈ s.answered
  room : ∀ conn k res, s.runner = .delivering conn k res → res.id = k + 1 ∧ res.id ∈ s.answered ∧
    ∃ c, s.calls[k]? = some c ∧ c.buffer = none ∧ c.closed = false

theorem inv_new : new.Inv where
  alive := rfl
  next := rfl
  ids k c h := by simp [new] at h
  keys p hp := by cases hp
  nodup := List.nodup_nil
  unclosed p hp := by cases hp
  waits k c h := by simp [new] at h
  got k c res h := by simp [new] at h
  room conn k res h := by cases h

/-- The goroutine of a call goes on: it keeps its id and its channel, holds no other response than
before, and puts nothing into the channel. -/
theorem Inv.setCall (h : s.Inv) (hc : s.calls[k]? = some c) (hid : (f c).id = c.id)
    (hclosed : (f c).closed = c.closed) (hhas : ∀ res, (f c).Has res → c.Has res)
    (hempty : c.buffer = none → (f c).buffer = none)
    (hback : ∀ out, c.pc = .returned out → (f c).pc = .returned out) : (s.setCall k f).Inv := by
  have hcase := @setCall_cases s k c f hc
  have hlen := length_setCall s k f
  refine ⟨h.alive, h.next.trans hlen.symm, fun l d hd => ?_, fun p hp => ?_, h.nodup,
    fun p hp d hd => ?_, fun l d hd hdc hpc => ?_, fun l d res hd hres => ?_,
    fun conn l res hr => ?_⟩
  · rcases hcase hd with ⟨rfl, rfl⟩ | hd
    · rw [hid]
      exact h.ids _ _ hc
    · exact h.ids _ _ hd
  · rw [hlen]
    exact h.keys p hp
  · rcases hcase hd with ⟨hpk, rfl⟩ | hd
    · rw [hclosed]
      exact h.unclosed p hp c (hpk ▸ hc)
    · exact h.unclosed p hp d hd
  · rcases hcase hd with ⟨rfl, rfl⟩ | hd
    · exact h.waits _ c hc (hclosed ▸ hdc) fun out hout => hpc out (hback out hout)
    · exact h.waits _ d hd hdc hpc
  · rcases hcase hd with ⟨rfl, rfl⟩ | hd
    · rw [hid]
      exact h.got _ c res hc (hhas res hres)
    · exact h.got _ d res hd hres
  · obtain ⟨hres, hans, d, hd, hbuf, hopen⟩ := h.room conn l res hr
    refine ⟨hres, hans, ?_⟩
    by_cases hl : k = l
    · subst hl
      cases hc.symm.trans hd
      exact ⟨f c, setCall_self hc, hempty hbuf, hclosed.trans hopen⟩
    · exact ⟨d, by rw [setCall_ne hl, hd], hbuf, hopen⟩

/-- A call moves on inside `Request`. -/
theorem Inv.goto {pc : Pc} (h : s.Inv) (hc : s.calls[k]? = some c)
    (hpc : ∀ out, c.pc ≠ .returned out ∧ pc ≠ .returned out)
    (hres : ∀ res, pc ≠ .leaving (.answered res)) : (s.goto k pc).Inv := by
  refine h.setCall hc rfl rfl (fun res hhas => ?_) id fun out hout => absurd hout (hpc out).1
  rcases hhas with hbuf | hl | hr
  · exact .inl hbuf
  · exact absurd hl (hres res)
  · exact absurd hr (hpc _).2

/-- A call ends: its channel is no longer registered. -/
theorem Inv.leave {out : Outcome} (h : s.Inv) (hc : s.calls[k]? = some c) (hpc : c.pc = .leaving out) :
    ({ s.goto k (.returned out) with pending := s.pending.filter (·.1 ≠ c.id) } : Client).Inv := by
  have hid := h.ids k c hc
  have hcase := @setCall_cases s k c ({ · with pc := .returned out }) hc
  have hlen : (s.goto k (.returned out)).calls.length = s.calls.length := length_setCall s k _
  refine ⟨h.alive, h.next.trans hlen.symm, fun l d hd => ?_, fun p hp => ?_, h.nodup.filter _,
    fun p hp d hd => ?_, fun l d hd hdc hpc' => ?_, fun l d res hd hres => ?_,
    fun conn l res hr => ?_⟩
  · rcases hcase hd with ⟨rfl, rfl⟩ | hd
    · exact hid
    · exact h.ids _ _ hd
  · show _ ∧ _ < (s.goto k (.returned out)).calls.length
    rw [hlen]
    exact h.keys p (List.mem_of_mem_filter hp)
  · have hp := List.mem_of_mem_filter hp
    rcases hcase hd with ⟨hpk, rfl⟩ | hd
    · exact h.unclosed p hp c (hpk ▸ hc)
    · exact h.unclosed p hp d hd
  · rcases hcase hd with ⟨rfl, rfl⟩ | hd'
    · exact absurd rfl (hpc' out)
    · refine List.mem_filter.mpr ⟨h.waits l d hd' hdc hpc', ?_⟩
      have hl : l ≠ k := by
        rintro rfl
        rw [show (s.goto l (.returned out)).calls[l]? = _ from setCall_self hc] at hd
        exact hpc' out (Option.some.inj hd ▸ rfl)
      simpa [hid] using hl
  · rcases hcase hd with ⟨rfl, rfl⟩ | hd
    · refine h.got _ c res hc ?_
      rcases hres with hbuf | hl | hr
      · exact .inl hbuf
      · cases hl
      · cases hr
        exact .inr (.inl hpc)
    · exact h.got _ d res hd hres
  · obtain ⟨hres, hans, d, hd, hbuf, hopen⟩ := h.room conn l res hr
    refine ⟨hres, hans, ?_⟩
    by_cases hl : k = l
    · subst hl
      cases hc.symm.trans hd
      exact ⟨_, setCall_self hc, hbuf, hopen⟩
    · exact ⟨d, by
        show (s.goto k _).calls[l]? = _
        rw [Client.goto, setCall_ne hl, hd], hbuf, hopen⟩

/-- A new call registers a channel of its own. -/
theorem Inv.request (h : s.Inv) : ({ s with
    nextID := s.nextID + 1
    pending := (s.nextID + 1, s.calls.length) :: s.pending.filter (·.1 ≠ s.nextID + 1)
    calls := s.calls ++ [⟨s.nextID + 1, .registered, none, false⟩] } : Client).Inv := by
  have hnew : ∀ p ∈ s.pending, p.1 ≠ s.nextID + 1 := by
    intro p hp
    have hkey := h.keys p hp
    have hnext := h.next
    omega
  have hfilter : s.pending.filter (·.1 ≠ s.nextID + 1) = s.pending :=
    List.filter_eq_self.mpr fun p hp => by simpa using hnew p hp
  have hcase : ∀ {l d}, (s.calls ++ [⟨s.nextID + 1, .registered, none, false⟩])[l]? = some d →
      l = s.calls.length ∧ d = ⟨s.nextID + 1, .registered, none, false⟩ ∨ s.calls[l]? = some d := by
    intro l d hd
    rcases Nat.lt_trichotomy l s.calls.length with hl | hl | hl
    · rw [List.getElem?_append_left hl] at hd
      exact .inr hd
    · subst hl
      rw [List.getElem?_append_right le_rfl, Nat.sub_self] at hd
      exact .inl ⟨rfl, (Option.some.inj hd).symm⟩
    · rw [List.getElem?_eq_none (by simp; omega)] at hd
      cases hd
  rw [hfilter]
  refine ⟨h.alive, by simp [h.next], fun l d hd => ?_, fun p hp => ?_, ?_, fun p hp d hd => ?_,
    fun l d hd hdc hpc => ?_, fun l d res hd hres => ?_, fun conn l res hr => ?_⟩
  · rcases hcase hd with ⟨rfl, rfl⟩ | hd
    · rw [← h.next]
    · exact h.ids _ _ hd
  · show _ ∧ _ < (s.calls ++ _).length
    rw [List.length_append, List.length_singleton]
    rcases List.mem_cons.mp hp with rfl | hp
    · exact ⟨by rw [h.next], Nat.lt_succ_self _⟩
    · exact ⟨(h.keys p hp).1, (h.keys p hp).2.trans (Nat.lt_succ_self _)⟩
  · exact List.nodup_cons.mpr ⟨fun hp => hnew _ hp rfl, h.nodup⟩
  · rcases hcase hd with ⟨-, rfl⟩ | hd
    · rfl
    · rcases List.mem_cons.mp hp with rfl | hp
      · rw [List.getElem?_eq_none le_rfl] at hd
        cases hd
      · exact h.unclosed p hp d hd
  · rcases hcase hd with ⟨rfl, rfl⟩ | hd
    · rw [h.next]
      exact List.mem_cons_self
    · exact List.mem_cons_of_mem _ (h.waits l d hd hdc hpc)
  · rcases hcase hd with ⟨rfl, rfl⟩ | hd
    · rcases hres with hbuf | hl | hr
      · cases hbuf
      · cases hl
      · cases hr
    · exact h.got l d res hd hres
  · obtain ⟨hres, hans, d, hd, hbuf, hopen⟩ := h.room conn l res hr
    have hl : l < s.calls.length := (List.getElem?_eq_some_iff.mp hd).1
    exact ⟨hres, hans, d, by rw [List.getElem?_append_left hl, hd], hbuf, hopen⟩

/-- The goroutine of `Run` goes on without touching a channel. -/
theorem Inv.runner {conn : Option ℕ} {dialed : ℕ} {r : Runner} (h : s.Inv)
    (hr : ∀ conn k res, r ≠ .delivering conn k res) :
    ({ s with conn := conn, dialed := dialed, runner := r } : Client).Inv :=
  ⟨h.alive, h.next, h.ids, h.keys, h.nodup, h.unclosed, h.waits, h.got,
    fun conn k res hrun => absurd hrun (hr conn k res)⟩

/-- The channel that is looked up for a response is open and empty: the server has not answered its id
before. -/
theorem Inv.read {conn : ℕ} (h : s.Inv) (hnew : res.id ∉ s.answered) :
    ({ s with
      answered := res.id :: s.answered
      runner :=
        match s.pending.find? (·.1 = res.id) with
        | some (_, k) => .delivering conn k res
        | none => .up conn } : Client).Inv := by
  refine ⟨h.alive, h.next, h.ids, h.keys, h.nodup, h.unclosed, h.waits, fun l d r hd hres => ?_,
    fun conn' k res' hr => ?_⟩
  · obtain ⟨hid, hans⟩ := h.got l d r hd hres
    exact ⟨hid, List.mem_cons_of_mem _ hans⟩
  · match hfind : s.pending.find? (·.1 = res.id) with
    | none =>
      simp only [hfind] at hr
      cases hr
    | some (id, l) =>
      simp only [hfind] at hr
      cases hr
      have hmem := List.mem_of_find?_eq_some hfind
      have hkey : id = res.id := by simpa using List.find?_some hfind
      obtain ⟨hid, hlt⟩ := h.keys _ hmem
      have hd : s.calls[k]? = some s.calls[k] := List.getElem?_eq_getElem hlt
      refine ⟨hkey ▸ hid, List.mem_cons_self, s.calls[k], hd, ?_, h.unclosed _ hmem _ hd⟩
      rcases hbuf : s.calls[k].buffer with _ | old
      · rfl
      · obtain ⟨hold, hans⟩ := h.got k _ old hd (.inl hbuf)
        have hself := h.ids k _ hd
        refine absurd ?_ hnew
        have heq : res.id = old.id := by
          rw [hold, hself, ← hkey]
          exact hid
        rw [heq]
        exact hans

/-- The response goes into the channel of the call with its id. -/
theorem Inv.deliver {conn : ℕ} (h : s.Inv) (hr : s.runner = .delivering conn k res) :
    ({ s.setCall k (fun c => { c with buffer := some res }) with runner := .up conn } : Client).Inv := by
  obtain ⟨hid, hans, c, hc, hbuf, hopen⟩ := h.room conn k res hr
  have hcase := @setCall_cases s k c ({ · with buffer := some res }) hc
  have hlen := length_setCall s k fun c => { c with buffer := some res }
  refine ⟨h.alive, h.next.trans hlen.symm, fun l d hd => ?_, fun p hp => ?_, h.nodup,
    fun p hp d hd => ?_, fun l d hd hdc hpc => ?_, fun l d r hd hres => ?_,
    fun conn l r hr => by cases hr⟩
  · rcases hcase hd with ⟨rfl, rfl⟩ | hd
    · exact h.ids l c hc
    · exact h.ids _ _ hd
  · show _ ∧ _ < (s.setCall k _).calls.length
    rw [hlen]
    exact h.keys p hp
  · rcases hcase hd with ⟨-, rfl⟩ | hd
    · exact hopen
    · exact h.unclosed p hp d hd
  · rcases hcase hd with ⟨rfl, rfl⟩ | hd
    · exact h.waits l c hc hopen hpc
    · exact h.waits _ d hd hdc hpc
  · rcases hcase hd with ⟨rfl, rfl⟩ | hd
    · rcases hres with hb | hl | hr'
      · cases hb
        exact ⟨hid.trans (h.ids l c hc).symm, hans⟩
      · exact h.got l c r hc (.inr (.inl hl))
      · exact h.got l c r hc (.inr (.inr hr'))
    · exact h.got _ d r hd hres

/-- Failing what is pending closes each of these channels, once. -/
theorem Inv.failPending (h : s.Inv) :
    s.failPending = { s with calls := s.failPending.calls, pending := [] } ∧
      ∀ l, s.failPending.calls[l]? = if l ∈ s.pending.map Prod.snd then
        s.calls[l]?.map fun c => { c with closed := true } else s.calls[l]? := by
  have hnodup : (s.pending.map Prod.snd).Nodup := by
    refine List.Nodup.map_on (fun p hp q hq hpq => ?_) h.nodup
    exact Prod.ext (by rw [(h.keys p hp).1, (h.keys q hq).1, hpq]) hpq
  have hopen : ∀ k ∈ s.pending.map Prod.snd, ∀ c, s.calls[k]? = some c → c.closed = false := by
    intro k hk c hc
    obtain ⟨p, hp, rfl⟩ := List.mem_map.mp hk
    exact h.unclosed p hp c hc
  obtain ⟨hrest, hcalls⟩ := foldl_closeChan hnodup hopen
  refine ⟨?_, hcalls⟩
  rw [Client.failPending]
  generalize (s.pending.map Prod.snd).foldl closeChan s = u at hrest ⊢
  rw [hrest]

theorem Inv.fail (h : s.Inv) : ({ s.failPending with runner := .down } : Client).Inv := by
  obtain ⟨hrest, hcalls⟩ := h.failPending
  have hcase : ∀ {l d}, s.failPending.calls[l]? = some d → ∃ c, s.calls[l]? = some c ∧
      (d = c ∧ l ∉ s.pending.map Prod.snd ∨ d = { c with closed := true }) := by
    intro l d hd
    rw [hcalls l] at hd
    split at hd
    · obtain ⟨c, hc, rfl⟩ := Option.map_eq_some_iff.mp hd
      exact ⟨c, hc, .inr rfl⟩
    · next hl => exact ⟨d, hd, .inl ⟨rfl, hl⟩⟩
  have hlen : s.failPending.calls.length = s.calls.length := by
    have hle : ∀ l : ℕ, s.failPending.calls.length ≤ l ↔ s.calls.length ≤ l := by
      intro l
      rw [← List.getElem?_eq_none_iff, ← List.getElem?_eq_none_iff, hcalls l]
      split
      · exact Option.map_eq_none_iff
      · rfl
    exact le_antisymm ((hle _).mpr le_rfl) ((hle _).mp le_rfl)
  rw [hrest]
  refine ⟨h.alive, h.next.trans hlen.symm, fun l d hd => ?_, fun p hp => (by cases hp),
    List.nodup_nil, fun p hp => (by cases hp), fun l d hd hdc hpc => ?_, fun l d r hd hres => ?_,
    fun conn l r hr => by cases hr⟩
  · obtain ⟨c, hc, ⟨rfl, -⟩ | rfl⟩ := hcase hd
    · exact h.ids l _ hc
    · exact h.ids l c hc
  · obtain ⟨c, hc, ⟨rfl, hl⟩ | rfl⟩ := hcase hd
    · exact absurd (List.mem_map.mpr ⟨_, h.waits l _ hc hdc hpc, rfl⟩) hl
    · cases hdc
  · obtain ⟨c, hc, ⟨rfl, -⟩ | rfl⟩ := hcase hd
    · exact h.got l _ r hc hres
    · exact h.got l c r hc hres

theorem Inv.stepCall {s' : Client} (h : s.Inv) (hc : s.calls[k]? = some c)
    (hs : s.stepCall k c a = some s') : s'.Inv := by
  cases a with
  | send l =>
    simp only [Client.stepCall] at hs
    split at hs
    · next hpc hconn =>
      cases hs
      exact h.goto hc (by simp [hpc]) (by simp)
    · next hpc hconn =>
      cases hs
      exact h.goto hc (by simp [hpc]) (by simp)
    · cases hs
  | written l err =>
    simp only [Client.stepCall] at hs
    split at hs
    · next hpc =>
      cases hs
      exact h.goto hc (by simp [hpc]) (by simp)
    · next hpc =>
      cases hs
      exact h.goto hc (by simp [hpc]) (by simp)
    · cases hs
  | ctxDone l err =>
    simp only [Client.stepCall] at hs
    split at hs
    · next hpc =>
      cases hs
      exact h.goto hc (by simp [hpc]) (by simp)
    · cases hs
  | receive l =>
    simp only [Client.stepCall] at hs
    split at hs
    · next res hpc hbuf =>
      cases hs
      refine h.setCall hc rfl rfl (fun r hhas => ?_) (fun _ => rfl)
        fun out hout => by rw [hpc] at hout; cases hout
      -- what it now holds was in its channel
      rcases hhas with hb | hl | hr
      · cases hb
      · cases hl
        exact .inl hbuf
      · cases hr
    · next hpc hbuf =>
      split at hs
      · cases hs
        exact h.goto hc (by simp [hpc]) (by simp)
      · cases hs
    · cases hs
  | leave l =>
    simp only [Client.stepCall] at hs
    split at hs
    · next out hpc =>
      cases hs
      exact h.leave hc hpc
    · cases hs
  | request | connect | read _ | deliver | lost | unset | fail => cases hs

theorem Inv.stepRunner {s' : Client} (h : s.Inv) (hs : s.stepRunner s.runner a = some s') : s'.Inv := by
  unfold Client.stepRunner at hs
  split at hs
  · cases hs
    exact h.runner (by simp)
  · next conn res hr =>
    split at hs
    · cases hs
    · next hnew =>
      cases hs
      exact h.read hnew
  · next conn k res hr =>
    obtain ⟨-, -, c, hc, hbuf, hopen⟩ := h.room conn k res hr
    simp only [hc, hopen, hbuf, Bool.false_eq_true, if_false, Option.isSome_none] at hs
    cases hs
    exact h.deliver hr
  · cases hs
    exact h.runner (by simp)
  · cases hs
    exact h.runner (by simp)
  · cases hs
    exact h.fail
  · cases hs

theorem Inv.step {s' : Client} (h : s.Inv) (hs : s.step a = some s') : s'.Inv := by
  have halive : ¬ s.panicked = true := by simp [h.alive]
  unfold Client.step at hs
  rw [if_neg halive] at hs
  cases a with
  | request =>
    cases hs
    exact h.request
  | send k | written k _ | ctxDone k _ | receive k | leave k =>
    simp only at hs
    split at hs
    · next c hc => exact h.stepCall hc hs
    · cases hs
  | connect | read _ | deliver | lost | unset | fail => exact h.stepRunner hs

theorem inv_exec (hrun : exec step new as = some s) : s.Inv :=
  exec_preserves (fun _ _ _ hs h => Inv.step h hs) hrun inv_new

/-! ## When a connection has ended -/

/-- What a step keeps of a call: a closed channel stays closed, and a result stays. -/
def Keeps (s s' : Client) (k : ℕ) : Prop :=
  ∀ c, s.calls[k]? = some c → ∃ c', s'.calls[k]? = some c' ∧ (c.closed = true → c'.closed = true) ∧
    (c.pc.over = true → c'.pc.over = true)

theorem keeps_same (h : s'.calls = s.calls) : Keeps s s' k := fun c hc =>
  ⟨c, by rw [h, hc], id, id⟩

theorem keeps_setCall {j : ℕ} (hd : s.calls[j]? = some c) (hcalls : s'.calls = (s.setCall j f).calls)
    (hclosed : c.closed = true → (f c).closed = true) (hover : c.pc.over = true → (f c).pc.over = true) :
    Keeps s s' k := by
  intro d hk
  rw [hcalls]
  by_cases hj : j = k
  · subst hj
    cases hd.symm.trans hk
    exact ⟨f c, setCall_self hd, hclosed, hover⟩
  · exact ⟨d, by rw [setCall_ne hj, hk], id, id⟩

/-- A goroutine in `Request` changes its own call only. -/
theorem stepCall_cases {j : ℕ} (hs : s.stepCall j c a = some s') :
    s'.runner = s.runner ∧ ∃ f, s'.calls = (s.setCall j f).calls ∧ (f c).closed = c.closed ∧
      (c.pc.over = true → (f c).pc.over = true) := by
  have hgoto : ∀ pc : Pc, (c.pc.over = true → pc.over = true) → s' = s.goto j pc →
      s'.runner = s.runner ∧ ∃ f, s'.calls = (s.setCall j f).calls ∧ (f c).closed = c.closed ∧
        (c.pc.over = true → (f c).pc.over = true) := by
    rintro pc hover rfl
    exact ⟨rfl, fun c => { c with pc := pc }, rfl, rfl, hover⟩
  cases a with
  | send l =>
    simp only [Client.stepCall] at hs
    split at hs
    · next hpc _ => exact hgoto _ (by simp [hpc, Pc.over]) (Option.some.inj hs).symm
    · exact hgoto _ (fun _ => rfl) (Option.some.inj hs).symm
    · cases hs
  | written l err =>
    simp only [Client.stepCall] at hs
    split at hs
    · next hpc => exact hgoto _ (by simp [hpc, Pc.over]) (Option.some.inj hs).symm
    · exact hgoto _ (fun _ => rfl) (Option.some.inj hs).symm
    · cases hs
  | ctxDone l err =>
    simp only [Client.stepCall] at hs
    split at hs
    · exact hgoto _ (fun _ => rfl) (Option.some.inj hs).symm
    · cases hs
  | receive l =>
    simp only [Client.stepCall] at hs
    split at hs
    · cases hs
      exact ⟨rfl, _, rfl, rfl, fun _ => rfl⟩
    · split at hs
      · exact hgoto _ (fun _ => rfl) (Option.some.inj hs).symm
      · cases hs
    · cases hs
  | leave l =>
    simp only [Client.stepCall] at hs
    split at hs
    · cases hs
      exact ⟨rfl, _, rfl, rfl, fun _ => rfl⟩
    · cases hs
  | request | connect | read _ | deliver | lost | unset | fail => cases hs

theorem keeps_stepCall {j : ℕ} (hd : s.calls[j]? = some c) (hs : s.stepCall j c a = some s') :
    Keeps s s' k := by
  obtain ⟨-, f, hcalls, hclosed, hover⟩ := stepCall_cases hs
  exact keeps_setCall hd hcalls (fun h => hclosed.trans h) hover

theorem keeps_stepRunner (h : s.Inv) (hs : s.stepRunner s.runner a = some s') : Keeps s s' k := by
  unfold Client.stepRunner at hs
  split at hs
  · cases hs
    exact keeps_same rfl
  · split at hs
    · cases hs
    · cases hs
      exact keeps_same rfl
  · next conn l res hr =>
    obtain ⟨-, -, c, hc, hbuf, hopen⟩ := h.room conn l res hr
    simp only [hc, hopen, hbuf, Bool.false_eq_true, if_false, Option.isSome_none] at hs
    cases hs
    exact keeps_setCall hc rfl id id
  · cases hs
    exact keeps_same rfl
  · cases hs
    exact keeps_same rfl
  · cases hs
    intro c hc
    show ∃ c', s.failPending.calls[k]? = some c' ∧ _
    rw [h.failPending.2 k]
    split
    · exact ⟨{ c with closed := true }, by rw [hc, Option.map_some], fun _ => rfl, id⟩
    · exact ⟨c, hc, id, id⟩
  · cases hs

theorem keeps_step (h : s.Inv) (hs : s.step a = some s') : Keeps s s' k := by
  have halive : ¬ s.panicked = true := by simp [h.alive]
  unfold Client.step at hs
  rw [if_neg halive] at hs
  cases a with
  | request =>
    cases hs
    intro c hc
    have hk : k < s.calls.length := (List.getElem?_eq_some_iff.mp hc).1
    exact ⟨c, by rw [List.getElem?_append_left hk, hc], id, id⟩
  | send l | written l _ | ctxDone l _ | receive l | leave l =>
    simp only at hs
    split at hs
    · next d hd => exact keeps_stepCall hd hs
    · cases hs
  | connect | read _ | deliver | lost | unset | fail => exact keeps_stepRunner h hs

/-- The call has been there when a connection ended: it has its result or a closed channel, or its
channel is going to be closed. -/
def CutOff (k : ℕ) (s : Client) : Prop :=
  ∃ c, s.calls[k]? = some c ∧
    (c.pc.over = true ∨ c.closed = true ∨ s.runner = .closing ∨ s.runner = .failing)

/-- Only `failPending` ends the end of a connection. -/
theorem runner_step (hs : s.step a = some s') (hr : s.runner = .closing ∨ s.runner = .failing) :
    s'.runner = .closing ∨ s'.runner = .failing ∨ s' = { s.failPending with runner := .down } := by
  have hsame : s'.runner = s.runner →
      s'.runner = .closing ∨ s'.runner = .failing ∨ s' = { s.failPending with runner := .down } := by
    intro h
    rw [h]
    rcases hr with hr | hr
    · exact .inl hr
    · exact .inr (.inl hr)
  unfold Client.step at hs
  split at hs
  · cases hs
  cases a with
  | request =>
    cases hs
    exact hsame rfl
  | send l | written l _ | ctxDone l _ | receive l | leave l =>
    simp only at hs
    split at hs
    · exact hsame (stepCall_cases hs).1
    · cases hs
  | connect | read _ | deliver | lost =>
    rcases hr with hr | hr <;> simp [hr, Client.stepRunner] at hs
  | unset =>
    rcases hr with hr | hr
    · simp only [hr, Client.stepRunner] at hs
      cases hs
      exact .inr (.inl rfl)
    · simp [hr, Client.stepRunner] at hs
  | fail =>
    rcases hr with hr | hr
    · simp [hr, Client.stepRunner] at hs
    · simp only [hr, Client.stepRunner] at hs
      exact .inr (.inr (Option.some.inj hs).symm)

theorem cutOff_step (h : s.Inv) (hc : CutOff k s) (hs : s.step a = some s') : CutOff k s' := by
  obtain ⟨c, hk, hcut⟩ := hc
  obtain ⟨c', hk', hclosed, hover⟩ := keeps_step h hs c hk
  rcases hcut with ho | hcl | hr
  · exact ⟨c', hk', .inl (hover ho)⟩
  · exact ⟨c', hk', .inr (.inl (hclosed hcl))⟩
  · rcases runner_step hs hr with hr' | hr' | rfl
    · exact ⟨c', hk', .inr (.inr (.inl hr'))⟩
    · exact ⟨c', hk', .inr (.inr (.inr hr'))⟩
    · -- what was still registered has been closed
      refine ⟨c', hk', ?_⟩
      by_cases ho : c.pc.over = true
      · exact .inl (hover ho)
      by_cases hcl : c.closed = true
      · exact .inr (.inl (hclosed hcl))
      have hmem : k ∈ s.pending.map Prod.snd := by
        refine List.mem_map.mpr ⟨_, h.waits k c hk (by simpa using hcl) fun out hout => ho ?_, rfl⟩
        rw [hout]
        rfl
      have hcalls : s.failPending.calls[k]? = some c' := hk'
      rw [h.failPending.2 k, if_pos hmem, hk] at hcalls
      cases hcalls
      exact .inr (.inl rfl)

/-- The call returns by steps of its own, once the end of the connection has been dealt with. -/
def Returns (k : ℕ) (s : Client) : Prop :=
  ∃ own s', (∀ a ∈ own, a.Own k) ∧ exec step s own = some s' ∧
    ∃ c out, s'.calls[k]? = some c ∧ c.pc = .returned out

theorem Returns.cons (ha : a.Own k) (hs : s.step a = some s') (h : Returns k s') : Returns k s := by
  obtain ⟨own, s'', hown, hrun, hret⟩ := h
  refine ⟨a :: own, s'', fun b hb => ?_, exec_cons_eq_some.mpr ⟨s', hs, hrun⟩, hret⟩
  rcases List.mem_cons.mp hb with rfl | hb
  · exact ha
  · exact hown b hb

/-- A step of the call's own. -/
theorem step_own (h : s.Inv) (hc : s.calls[k]? = some c) (hs : s.stepCall k c a = some s')
    (ha : a = .send k ∨ (∃ err, a = .written k err) ∨ a = .receive k ∨ a = .leave k) :
    s.step a = some s' ∧ a.Own k := by
  have halive : ¬ s.panicked = true := by simp [h.alive]
  unfold Client.step
  rw [if_neg halive]
  rcases ha with rfl | ⟨err, rfl⟩ | rfl | rfl
  · exact ⟨by simp only [hc]; exact hs, rfl⟩
  · exact ⟨by simp only [hc]; exact hs, rfl⟩
  · exact ⟨by simp only [hc]; exact hs, rfl⟩
  · exact ⟨by simp only [hc]; exact hs, rfl⟩

theorem returns_over (h : s.Inv) (hc : s.calls[k]? = some c) (ho : c.pc.over = true) : Returns k s := by
  match hpc : c.pc with
  | .returned out => exact ⟨[], s, by simp, rfl, c, out, hc, hpc⟩
  | .leaving out =>
    have hleave : s.stepCall k c (.leave k) = some
        { s.goto k (.returned out) with pending := s.pending.filter (·.1 ≠ c.id) } := by
      simp only [Client.stepCall, hpc]
    obtain ⟨hs, hown⟩ := step_own h hc hleave (.inr (.inr (.inr rfl)))
    refine .cons hown hs ⟨[], _, by simp, rfl, { c with pc := .returned out }, out, ?_, rfl⟩
    exact setCall_self hc
  | .registered | .writing _ | .waiting =>
    rw [hpc] at ho
    cases ho

theorem returns_waiting (h : s.Inv) (hc : s.calls[k]? = some c) (hpc : c.pc = .waiting)
    (hclosed : c.closed = true) : Returns k s := by
  rcases hbuf : c.buffer with _ | res
  · have hrecv : s.stepCall k c (.receive k) = some (s.goto k (.leaving .closed)) := by
      simp only [Client.stepCall, hpc, hbuf, hclosed, if_true]
    obtain ⟨hs, hown⟩ := step_own h hc hrecv (.inr (.inr (.inl rfl)))
    exact .cons hown hs (returns_over (h.step hs) (setCall_self hc) rfl)
  · have hrecv : s.stepCall k c (.receive k) = some
        (s.setCall k fun c => { c with pc := .leaving (.answered res), buffer := none }) := by
      simp only [Client.stepCall, hpc, hbuf]
    obtain ⟨hs, hown⟩ := step_own h hc hrecv (.inr (.inr (.inl rfl)))
    exact .cons hown hs (returns_over (h.step hs) (setCall_self hc) rfl)

theorem returns_writing {conn : ℕ} (h : s.Inv) (hc : s.calls[k]? = some c) (hpc : c.pc = .writing conn)
    (hclosed : c.closed = true) : Returns k s := by
  have hwrite : s.stepCall k c (.written k none) = some (s.goto k .waiting) := by
    simp only [Client.stepCall, hpc]
  obtain ⟨hs, hown⟩ := step_own h hc hwrite (.inr (.inl ⟨none, rfl⟩))
  exact .cons hown hs (returns_waiting (h.step hs) (setCall_self hc) rfl hclosed)

theorem returns_closed (h : s.Inv) (hc : s.calls[k]? = some c) (hclosed : c.closed = true) :
    Returns k s := by
  match hpc : c.pc with
  | .leaving _ | .returned _ => exact returns_over h hc (by rw [hpc]; rfl)
  | .waiting => exact returns_waiting h hc hpc hclosed
  | .writing conn => exact returns_writing h hc hpc hclosed
  | .registered =>
    rcases hconn : s.conn with _ | conn
    · have hsend : s.stepCall k c (.send k) =
          some (s.goto k (.leaving (.unsent "not connected".toList))) := by
        simp only [Client.stepCall, hpc, hconn]
      obtain ⟨hs, hown⟩ := step_own h hc hsend (.inl rfl)
      exact .cons hown hs (returns_over (h.step hs) (setCall_self hc) rfl)
    · have hsend : s.stepCall k c (.send k) = some (s.goto k (.writing conn)) := by
        simp only [Client.stepCall, hpc, hconn]
      obtain ⟨hs, hown⟩ := step_own h hc hsend (.inl rfl)
      exact .cons hown hs (returns_writing (h.step hs) (setCall_self hc) rfl hclosed)

/-- A call that was there when a connection ended returns. -/
theorem returns_of_cutOff (h : s.Inv) (hc : CutOff k s) : Returns k s := by
  have halive : ∀ {s : Client}, s.Inv → ¬ s.panicked = true := fun h => by simp [h.alive]
  have hfail : ∀ {s : Client}, s.Inv → CutOff k s → s.runner = .failing → Returns k s := by
    intro s h hc hr
    have hs : s.step .fail = some { s.failPending with runner := .down } := by
      unfold Client.step
      rw [if_neg (halive h)]
      simp only [hr, Client.stepRunner]
    obtain ⟨c, hk, hcut⟩ := cutOff_step h hc hs
    refine Returns.cons (a := .fail) trivial hs ?_
    rcases hcut with ho | hcl | hr' | hr'
    · exact returns_over (h.step hs) hk ho
    · exact returns_closed (h.step hs) hk hcl
    · cases hr'
    · cases hr'
  obtain ⟨c, hk, hcut⟩ := id hc
  rcases hcut with ho | hcl | hr | hr
  · exact returns_over h hk ho
  · exact returns_closed h hk hcl
  · have hs : s.step .unset = some { s with conn := none, runner := .failing } := by
      unfold Client.step
      rw [if_neg (halive h)]
      simp only [hr, Client.stepRunner]
    exact Returns.cons (a := .unset) trivial hs (hfail (h.step hs) (cutOff_step h hc hs) rfl)
  · exact hfail h hc hr

/-- In every interleaving no response is sent on a closed channel and a response in hand can be sent;
a response reaches the call with its id alone, whose id no other call has; and whenever a connection has
ended, each call that was there then returns by steps of its own and of the end of the connection. -/
theorem request_safe (as : List Action) (s : Client) (hrun : exec step new as = some s) :
    s.panicked = false ∧
    (∀ conn k res, s.runner = .delivering conn k res → (s.step .deliver).isSome) ∧
    (∀ (k l : ℕ) (c d : Call), s.calls[k]? = some c → s.calls[l]? = some d → c.id = d.id → k = l) ∧
    (∀ (k : ℕ) (c : Call) (res : Response), s.calls[k]? = some c → c.Has res → res.id = c.id) ∧
    ∀ before after s₀, as = before ++ .lost :: after → exec step new before = some s₀ →
      ∀ k < s₀.calls.length, ∃ own s', (∀ a ∈ own, a.Own k) ∧ exec step s own = some s' ∧
        ∃ c out, s'.calls[k]? = some c ∧ c.pc = .returned out := by
  have h := inv_exec hrun
  refine ⟨h.alive, fun conn k res hr => ?_, fun k l c d hc hd hid => ?_,
    fun k c res hc hres => (h.got k c res hc hres).1, ?_⟩
  · obtain ⟨-, -, c, hc, hbuf, hopen⟩ := h.room conn k res hr
    unfold Client.step
    rw [if_neg (by simp [h.alive])]
    simp [hr, Client.stepRunner, hc, hbuf, hopen]
  · have h₁ := h.ids k c hc
    have h₂ := h.ids l d hd
    omega
  · rintro before after s₀ rfl hbefore k hk
    obtain ⟨s₁, hs₁, hrest⟩ := exec_append_eq_some.mp hrun
    cases hbefore.symm.trans hs₁
    obtain ⟨s₂, hlost, hafter⟩ := exec_cons_eq_some.mp hrest
    have h₀ := inv_exec hbefore
    have hcut : CutOff k s₂ := by
      obtain ⟨c, hc, -⟩ := keeps_step h₀ hlost s₀.calls[k] (List.getElem?_eq_getElem hk)
      refine ⟨c, hc, .inr (.inr (.inl ?_))⟩
      unfold Client.step at hlost
      rw [if_neg (by simp [h₀.alive])] at hlost
      match hr : s₀.runner with
      | .up conn =>
        simp only [hr, Client.stepRunner] at hlost
        cases hlost
        rfl
      | .down | .delivering _ _ _ | .closing | .failing => simp [hr, Client.stepRunner] at hlost
    have hend : s.Inv ∧ CutOff k s := exec_preserves (P := fun s => s.Inv ∧ CutOff k s)
      (fun _ _ _ hs hp => ⟨hp.1.step hs, cutOff_step hp.1 hp.2 hs⟩) hafter ⟨h₀.step hlost, hcut⟩
    exact returns_of_cutOff hend.1 hend.2

/-- A request is waiting when its connection ends. -/
def cutWhileWaiting : List Action := [.connect, .request, .send 0, .written 0 none]

theorem request_safe_cut : ∃ s, exec step new (cutWhileWaiting ++ [.lost]) = some s ∧
    s.panicked = false ∧ ∃ own s', (∀ a ∈ own, a.Own 0) ∧ exec step s own = some s' ∧
      ∃ c out, s'.calls[0]? = some c ∧ c.pc = .returned out := by
  have hrun : exec step new (cutWhileWaiting ++ [.lost]) =
      some ⟨some 0, 1, [(1, 0)], 1, [⟨1, .waiting, none, false⟩], .closing, [], false⟩ := by decide
  obtain ⟨halive, -, -, -, hreturns⟩ := request_safe _ _ hrun
  exact ⟨_, hrun, halive, hreturns cutWhileWaiting [] _ rfl
    (show exec step new cutWhileWaiting =
      some ⟨some 0, 1, [(1, 0)], 1, [⟨1, .waiting, none, false⟩], .up 0, [], false⟩ by decide) 0
    (by decide)⟩

end Client

end Transport
