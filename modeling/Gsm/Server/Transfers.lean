import Gsm.Machine.Exec
import Mathlib.Data.List.Nodup

/-!
# The byte relay

`Transfers`: one-time tokens for uploads to a node and downloads from one. What a node fetches is streamed
as its source gives it, counted and hashed on the way, and the digest is for the node once exactly the
announced bytes have passed. What a node posts goes to whoever waits for it, and the post is answered with
the digest of all of it.

Every callback (a request, a timer, a read of a stream) is one action, so a run of actions is one order in
which they can fire. The transfers are numbered as they are made; `randomId` gives their tokens.
-/

open Machine

namespace Server.Files

abbrev Token := String
abbrev NodeId := ℕ
abbrev Bytes := List UInt8

/-- A promise: how it was settled, if it is -/
abbrev Deferred (α : Type) := Option (Except String α)

/-- A promise that is settled stays as it is. -/
def Deferred.resolve {α : Type} (d : Deferred α) (v : α) : Deferred α := d.or (some (.ok v))

def Deferred.reject {α : Type} (d : Deferred α) (why : String) : Deferred α := d.or (some (.error why))

variable (sha256 : Bytes → String) (randomId : ℕ → Token)

/-! ## Outgoing transfers -/

/-- The stream that a node fetches. -/
structure Relay where
  /-- What has been read of the source: the bytes of its `Tally` -/
  tally : Bytes
  /-- What was handed on to the node -/
  sent : Bytes
  complete : Bool
  /-- failed, or cancelled by the node -/
  closed : Bool
  pulling : Bool
  /-- The timer that drops the token a minute after the end -/
  drop : Bool

structure Outgoing where
  nodeId : NodeId
  size : ℕ
  claimed : Bool
  digest : Deferred String
  timer : Bool
  relay : Option Relay

/-- What a read of the source gives: a stalled one is an error. -/
inductive ReadResult where
  | chunk (value : Bytes)
  | done
  | error (message : String)

namespace Outgoing

def finish (t : Outgoing) (r : Relay) : Outgoing :=
  { t with
    digest := t.digest.resolve (sha256 r.tally)
    relay := some { r with complete := true, drop := true, pulling := false } }

def serve (t : Outgoing) : Outgoing :=
  let t := { t with claimed := true, timer := false }
  let r : Relay := ⟨[], [], false, false, false, false⟩
  if t.size = 0 then t.finish sha256 r else { t with relay := some r }

/-- `fail`, but for the token -/
def fail (t : Outgoing) (r : Relay) (message : String) : Outgoing :=
  { t with
    digest := t.digest.reject message
    relay := some { r with closed := true, pulling := false } }

/-- What became of a `pull` -/
inductive Pulled where
  | passed (t : Outgoing)
  | failed (t : Outgoing)

/-- `pull` once the source has given something; `refused` is what the runtime says of a stream that takes no
more. -/
def pull (refused : String) (t : Outgoing) (r : Relay) : ReadResult → Pulled
  | .done =>
      .failed (t.fail r
        ("The upload ended after " ++ toString r.tally.length ++ " of " ++ toString t.size ++ " bytes"))
  | .error message => .failed (t.fail r message)
  | .chunk value =>
      let r := { r with tally := r.tally ++ value }
      if t.size < r.tally.length then .failed (t.fail r "The upload is larger than announced")
      else if r.closed then .failed (t.fail r refused)
      else
        let r := { r with sent := r.sent ++ value }
        if r.tally.length = t.size then .passed (t.finish sha256 r)
        else .passed { t with relay := some { r with pulling := false } }

end Outgoing

/-! ## Incoming transfers -/

/-- A node's POST, as the download that waited for it reads it -/
structure Post where
  length : Option ℕ
  tally : Bytes
  /-- The body has ended. -/
  ended : Bool
  finished : Bool
  /-- `complete` settles it. -/
  answer : Deferred String
  replied : Bool

structure Incoming where
  nodeId : NodeId
  claimed : Bool
  /-- With the length that the POST announces -/
  arrival : Deferred (Option ℕ)
  timer : Bool
  post : Option Post

namespace Post

def fail (p : Post) (message : String) : Post :=
  if p.finished then p else { p with finished := true, answer := p.answer.reject message }

/-- A chunk of the body; `max` is `transferMaxBytes`. -/
def read (max : ℕ) (tooLarge : String) (p : Post) (value : Bytes) : Post :=
  let p := { p with tally := p.tally ++ value }
  if 0 < max ∧ max < p.tally.length then p.fail tooLarge else p

/-- The end of the body: the POST is answered with the digest of all of it. -/
def ends (p : Post) : Post :=
  { p with ended := true, answer := p.answer.resolve (sha256 p.tally) }

end Post

def Incoming.receive (t : Incoming) (length : Option ℕ) : Incoming :=
  { t with
    claimed := true
    timer := false
    arrival := t.arrival.resolve length
    post := some ⟨length, [], false, false, none, false⟩ }

/-! ## The relay -/

inductive Transfer where
  | out (t : Outgoing)
  | inc (t : Incoming)

namespace Transfer

def nodeId : Transfer → NodeId
  | out t => t.nodeId
  | inc t => t.nodeId

def claimed : Transfer → Bool
  | out t => t.claimed
  | inc t => t.claimed

def timer : Transfer → Bool
  | out t => t.timer
  | inc t => t.timer

/-- The expiry of a transfer that nobody has claimed -/
def expire : Transfer → Transfer
  | out t => out { t with digest := t.digest.reject "The node never fetched the file" }
  | inc t => inc { t with arrival := t.arrival.reject "The node never sent the file" }

def clearTimer : Transfer → Transfer
  | out t => out { t with timer := false }
  | inc t => inc { t with timer := false }

/-- `cancel`, but for the token -/
def cancel (reason : String) : Transfer → Transfer
  | out t => out { t with timer := false, digest := t.digest.reject reason }
  | inc t => inc { t with timer := false, arrival := t.arrival.reject reason }

end Transfer

/-- The transfers with what the nodes have got of them -/
structure Transfers where
  items : List (Token × ℕ)
  made : List Transfer
  /-- Requests for a digest that wait for it: the transfer, its token and the node -/
  asking : List (ℕ × Token × NodeId)
  /-- Each fetch and each post that a token was good for, with its node -/
  served : List (Token × NodeId)
  /-- Each digest that a node was told, with the token it was for -/
  digests : List (Token × NodeId × String)

def empty : Transfers := ⟨[], [], [], [], []⟩

namespace Transfers

def delete (s : Transfers) (token : Token) : Transfers :=
  { s with items := s.items.filter (·.1 ≠ token) }

def put (s : Transfers) (n : ℕ) (t : Transfer) : Transfers := { s with made := s.made.set n t }

/-- A new transfer, under a new token -/
def add (s : Transfers) (t : Transfer) : Transfers :=
  { s with
    items := (randomId s.made.length, s.made.length) :: s.items
    made := s.made ++ [t] }

/-- `this.items.get(token)` -/
def get (s : Transfers) (token : Token) : Option (ℕ × Transfer) :=
  (s.items.lookup token).bind fun n => s.made[n]?.map fun t => (n, t)

end Transfers

inductive Action where
  | offer (nodeId : NodeId) (size : ℕ)
  | expect (nodeId : NodeId)
  /-- The timer of a transfer fires. -/
  | expire (n : ℕ)
  /-- `cancel` of what `offer` or `expect` gave -/
  | cancel (n : ℕ) (reason : String)
  | serve (token : Token) (node : NodeId)
  /-- The stream of a fetch asks its source for more. -/
  | pull (n : ℕ)
  | read (n : ℕ) (result : ReadResult)
  /-- The node stops reading. -/
  | stop (n : ℕ)
  | drop (n : ℕ)
  | digest (token : Token) (node : NodeId)
  /-- A request for a digest goes on, now that it is settled. -/
  | told (k : ℕ)
  | receive (token : Token) (node : NodeId) (length : Option ℕ)
  | bodyRead (n : ℕ) (max : ℕ) (value : Bytes)
  | bodyEnd (n : ℕ)
  | bodyFail (n : ℕ) (message : String)
  /-- The agent has answered the request of a download. -/
  | rpcDone (n : ℕ)
  /-- A POST is answered. -/
  | answered (n : ℕ)

variable (refused tooLarge : String)

/-- What an action does: `none` where it cannot happen. A request that is refused changes nothing. -/
def step (s : Transfers) : Action → Option Transfers
  | .offer nodeId size => some (s.add randomId (.out ⟨nodeId, size, false, none, true, none⟩))
  | .expect nodeId => some (s.add randomId (.inc ⟨nodeId, false, none, true, none⟩))
  | .expire n =>
      match s.made[n]? with
      | none => none
      | some t =>
          if !t.timer then none
          else
            let s := s.put n t.clearTimer
            match s.get (randomId n) with
            | none => some s
            | some (m, t) => if t.claimed then some s else some ((s.delete (randomId n)).put m t.expire)
  | .cancel n reason =>
      match s.made[n]? with
      | none => none
      | some (.out t) => some ((s.delete (randomId n)).put n (Transfer.cancel reason (.out t)))
      | some (.inc t) =>
          some ((if t.claimed then s else s.delete (randomId n)).put n (Transfer.cancel reason (.inc t)))
  | .serve token node =>
      match s.get token with
      | some (n, .out t) =>
          if t.nodeId ≠ node ∨ t.claimed then some s
          else some { s.put n (.out (t.serve sha256)) with served := s.served ++ [(token, node)] }
      | _ => some s
  | .pull n =>
      match s.made[n]? with
      | some (.out ⟨nodeId, size, claimed, digest, timer, some r⟩) =>
          if r.complete ∨ r.closed ∨ r.pulling then none
          else some (s.put n (.out ⟨nodeId, size, claimed, digest, timer, some { r with pulling := true }⟩))
      | _ => none
  | .read n result =>
      match s.made[n]? with
      | some (.out t) =>
          match t.relay with
          | some r =>
              if !r.pulling then none
              else
                match t.pull sha256 refused r result with
                | .passed t => some (s.put n (.out t))
                | .failed t => some ((s.delete (randomId n)).put n (.out t))
          | none => none
      | _ => none
  | .stop n =>
      match s.made[n]? with
      | some (.out t) =>
          match t.relay with
          | some r =>
              if r.closed then none
              else if r.complete then some (s.put n (.out { t with relay := some { r with closed := true } }))
              else
                -- a read that is under way comes back later
                some ((s.delete (randomId n)).put n (.out
                  { t with
                    digest := t.digest.reject "The node stopped reading"
                    relay := some { r with closed := true } }))
          | none => none
      | _ => none
  | .drop n =>
      match s.made[n]? with
      | some (.out t) =>
          match t.relay with
          | some r =>
              if !r.drop then none
              else some ((s.delete (randomId n)).put n (.out { t with relay := some { r with drop := false } }))
          | none => none
      | _ => none
  | .digest token node =>
      match s.get token with
      | some (n, .out t) =>
          if t.nodeId ≠ node ∨ !t.claimed then some s
          else some { s with asking := s.asking ++ [(n, token, node)] }
      | _ => some s
  | .told k =>
      match s.asking[k]? with
      | none => none
      | some (n, token, node) =>
          match s.made[n]? with
          | some (.out t) =>
              match t.digest with
              | none => none
              | some (.ok hex) =>
                  some { s.delete token with
                    asking := s.asking.eraseIdx k
                    digests := s.digests ++ [(token, node, hex)] }
              | some (.error _) => some { s.delete token with asking := s.asking.eraseIdx k }
          | _ => none
  | .receive token node length =>
      match s.get token with
      | some (n, .inc t) =>
          if t.nodeId ≠ node ∨ t.claimed then some s
          else
            some { (s.delete token).put n (.inc (t.receive length)) with
              served := s.served ++ [(token, node)] }
      | _ => some s
  | .bodyRead n max value =>
      match s.made[n]? with
      | some (.inc ⟨nodeId, claimed, arrival, timer, some p⟩) =>
          if p.ended then none
          else some (s.put n (.inc ⟨nodeId, claimed, arrival, timer, some (p.read max tooLarge value)⟩))
      | _ => none
  | .bodyEnd n =>
      match s.made[n]? with
      | some (.inc ⟨nodeId, claimed, arrival, timer, some p⟩) =>
          if p.ended then none
          else some (s.put n (.inc ⟨nodeId, claimed, arrival, timer, some (p.ends sha256)⟩))
      | _ => none
  | .bodyFail n message =>
      match s.made[n]? with
      | some (.inc ⟨nodeId, claimed, arrival, timer, some p⟩) =>
          some (s.put n (.inc ⟨nodeId, claimed, arrival, timer, some (p.fail message)⟩))
      | _ => none
  | .rpcDone n =>
      match s.made[n]? with
      | some (.inc ⟨nodeId, claimed, arrival, timer, some p⟩) =>
          if !p.ended then none
          else some (s.put n (.inc ⟨nodeId, claimed, arrival, timer, some { p with finished := true }⟩))
      | _ => none
  | .answered n =>
      match s.made[n]? with
      | some (.inc ⟨nodeId, claimed, arrival, timer, some p⟩) =>
          if p.replied then none
          else
            let s' := s.put n (.inc ⟨nodeId, claimed, arrival, timer, some { p with replied := true }⟩)
            match p.answer with
            | none => none
            | some (.ok hex) => some { s' with digests := s.digests ++ [(randomId n, nodeId, hex)] }
            | some (.error _) => some s'
      | _ => none

-- the equations that later modules rewrite with, stated here once
attribute [local simp] Server.Files.Post.fail Server.Files.Post.read

end Server.Files
