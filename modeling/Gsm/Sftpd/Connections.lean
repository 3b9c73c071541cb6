import Gsm.GoStd.Path
import Gsm.Machine.Tasks
import Mathlib.Data.List.Count
import Mathlib.Logic.Function.Basic

/-!
# Connections of the SFTP server

`sftpd/server.go`: the listener, and a goroutine for each connection that it accepts. A goroutine is taken apart where
it takes the lock, waits for its client or reports an event; between these the goroutines go on in any order.
-/

open Machine GoStd

namespace Sftpd

/-- `Options`: the limits -/
structure Options where
  maxConns : ℤ
  maxPerIP : ℤ
deriving DecidableEq

/-- What `New` makes of the limits -/
def Options.withDefaults (o : Options) : Options where
  maxConns := if o.maxConns ≤ 0 then 100 else o.maxConns
  maxPerIP := if o.maxPerIP ≤ 0 then 10 else o.maxPerIP

inductive Method where
  | password
  | publickey
deriving DecidableEq

/-- `SFTPAuthResult` -/
structure AuthResult where
  allowed : Bool
  userID : ℤ
  uuid : Str
  credential : Str
deriving DecidableEq

/-- The extensions of `ssh.Permissions` -/
structure Permissions where
  userID : ℤ
  uuid : Str
  credential : Str
  method : Method
deriving DecidableEq

/-- `validUUID` -/
def validUUID (uuid : Str) : Bool :=
  decide (8 ≤ uuid.length ∧ uuid.length ≤ 64) && uuid.all fun c => c.isDigit ||
    decide ('a' ≤ c ∧ c ≤ 'f') || decide ('A' ≤ c ∧ c ≤ 'F') || c == '-'

/-- `authenticate`, with the answer of the server -/
def authenticate (method : Method) (res : AuthResult) : Option Permissions :=
  if res.allowed = false ∨ res.userID ≤ 0 ∨ validUUID res.uuid = false then none
  else some ⟨res.userID, res.uuid, res.credential, method⟩

/-- `SFTPSessionInfo` -/
structure Session where
  id : ℕ
  permissions : Permissions
  remoteAddress : Str
deriving DecidableEq

structure Server where
  opts : Options
  /-- whether there is a listener -/
  ln : Bool
  /-- where it listens; none for the empty text -/
  addr : Option (Str × ℕ)
  port : Option ℕ
  lastErr : Option Str
  sessions : List Session
  conns : ℤ
  /-- 0 for an address that the map does not hold -/
  perIP : Str → ℤ
  closed : Bool
  /-- the sessions whose connection the server has closed -/
  hungUp : List ℕ
  /-- the sessions with `done` closed -/
  done : List ℕ
  /-- the events `sftp.session`: opened or not -/
  emitted : List (ℕ × Bool)
  /-- what the panel has answered to sign-ins -/
  answered : List (Method × AuthResult)
  /-- the session ids there have been -/
  drawn : List ℕ

/-- A goroutine, by what it does next. -/
inductive Task where
  /-- `handleConn`, for `admit` -/
  | admitting (ip : Str)
  /-- `ssh.NewServerConn` -/
  | handshaking (ip : Str)
  /-- `open` -/
  | opening (ip : Str) (permissions : Permissions)
  /-- `emit` of `open` -/
  | announcing (ip : Str) (id : ℕ)
  /-- the channels of the connection -/
  | serving (ip : Str) (id : ℕ)
  /-- `finish` -/
  | finishing (ip : Str) (id : ℕ)
  /-- `emit` of `finish` -/
  | reporting (ip : Str) (id : ℕ)
  /-- `release` -/
  | releasing (ip : Str)
  /-- the next `Close` of a connection, of `Disconnect`, `CloseInstance` and `Close` -/
  | hangingUp (todo wait : List ℕ)
  /-- `CloseInstance`, for the next session to be done -/
  | waiting (todo : List ℕ)
deriving DecidableEq

inductive Event where
  | accept (ip : Str)
  /-- `Configure`, with the error of `net.Listen` -/
  | configure (port : Option ℕ) (bind : Str) (err : Option Str)
  | disconnect (ids : List ℕ)
  | closeInstance (uuid : Str)
  | close

/-- What a goroutine waits for: the sign-in that its handshake ends with, the id of `newID`, and whether its client has
gone or its time is up. -/
structure Answer where
  auth : Option (Method × AuthResult)
  id : ℕ
  isOver : Bool

namespace Server

/-- `New` -/
def new (o : Options) : Server :=
  ⟨o.withDefaults, false, none, none, none, [], 0, fun _ => 0, false, [], [], [], [], []⟩

/-- `stopLocked` -/
def stopLocked (s : Server) : Server := { s with ln := false, addr := none }

/-- Where `Configure` listens -/
def listenAddr (bind : Str) (p : ℕ) : Str × ℕ := (if bind = [] then "0.0.0.0".toList else bind, p)

/-- `Configure` -/
def configure (s : Server) (port : Option ℕ) (bind : Str) (err : Option Str) : Server :=
  if s.closed then s
  else
    match port with
    | none => { s.stopLocked with port := none, lastErr := none }
    | some p =>
        if s.ln = true ∧ s.addr = some (listenAddr bind p) then { s with port := some p }
        else
          { s.stopLocked with
            port := some p
            addr := some (listenAddr bind p)
            ln := err.isNone
            lastErr := err }

/-- `admit` -/
def admitConn (s : Server) (ip : Str) : Option Server :=
  if s.closed = true ∨ s.opts.maxConns ≤ s.conns ∨ s.opts.maxPerIP ≤ s.perIP ip then none
  else some { s with conns := s.conns + 1, perIP := Function.update s.perIP ip (s.perIP ip + 1) }

/-- `release` -/
def release (s : Server) (ip : Str) : Server :=
  { s with
    conns := s.conns - 1
    perIP := Function.update s.perIP ip (if s.perIP ip - 1 ≤ 0 then 0 else s.perIP ip - 1) }

/-- `open` -/
def openSession (s : Server) (ip : Str) (p : Permissions) (id : ℕ) : Option Server :=
  if p.userID ≤ 0 ∨ validUUID p.uuid = false ∨ s.closed = true then none
  else some { s with
    sessions := s.sessions.filter (·.id ≠ id) ++ [⟨id, p, ip⟩]
    drawn := id :: s.drawn }

/-- The ids of the open sessions that a condition is true of -/
def idsOf (s : Server) (f : Session → Bool) : List ℕ := (s.sessions.filter f).map (·.id)

def arrive (s : Server) : Event → Server × List Task
  | .accept ip => (s, if s.ln then [.admitting ip] else [])
  | .configure port bind err => (s.configure port bind err, [])
  | .disconnect ids => (s, [.hangingUp (s.idsOf (·.id ∈ ids)) []])
  | .closeInstance uuid =>
      (s, [.hangingUp (s.idsOf (·.permissions.uuid = uuid)) (s.idsOf (·.permissions.uuid = uuid))])
  | .close => ({ s.stopLocked with closed := true }, [.hangingUp (s.idsOf fun _ => true) []])

def resume (s : Server) (x : Answer) : Task → Server × List Task
  | .admitting ip =>
      match s.admitConn ip with
      | some s' => (s', [.handshaking ip])
      | none => (s, [])
  | .handshaking ip =>
      match x.auth with
      | none => (s, [.releasing ip])
      | some (method, res) =>
          ({ s with answered := s.answered ++ [(method, res)] },
            match authenticate method res with
            | some p => [.opening ip p]
            | none => [.releasing ip])
  | .opening ip p =>
      match s.openSession ip p x.id with
      | some s' => (s', [.announcing ip x.id])
      | none => (s, [.releasing ip])
  | .announcing ip id => ({ s with emitted := s.emitted ++ [(id, true)] }, [.serving ip id])
  | .serving ip id => (s, if x.isOver = true ∨ id ∈ s.hungUp then [.finishing ip id] else [.serving ip id])
  | .finishing ip id => ({ s with sessions := s.sessions.filter (·.id ≠ id) }, [.reporting ip id])
  | .reporting ip id =>
      ({ s with done := id :: s.done, emitted := s.emitted ++ [(id, false)] }, [.releasing ip])
  | .releasing ip => (s.release ip, [])
  | .hangingUp [] wait => (s, [.waiting wait])
  | .hangingUp (id :: todo) wait => ({ s with hungUp := id :: s.hungUp }, [.hangingUp todo wait])
  | .waiting [] => (s, [])
  | .waiting (id :: todo) =>
      (s, if x.isOver then [] else if id ∈ s.done then [.waiting todo] else [.waiting (id :: todo)])

/-- Configuring is about the listener. -/
theorem configure_eq (s : Server) (port : Option ℕ) (bind : Str) (err : Option Str) :
    ∃ ln addr port' lastErr, s.configure port bind err = { s with ln, addr, port := port', lastErr } := by
  unfold configure
  split
  · exact ⟨_, _, _, _, rfl⟩
  · split
    · exact ⟨_, _, _, _, rfl⟩
    · split <;> exact ⟨_, _, _, _, rfl⟩

end Server

/-- The server, with what goes on over its connections -/
def server : Service Server Task Event Answer := ⟨Server.arrive, Server.resume⟩

/-! ## How many connections there are -/

/-- The address of a connection that has been let in and not given back -/
def Task.admitted : Task → Option Str
  | .handshaking ip | .opening ip _ | .announcing ip _ | .serving ip _ | .finishing ip _ | .reporting ip _ |
    .releasing ip => some ip
  | _ => none

/-- The counts are those of the goroutines that have been let in, and within the limits. -/
structure Counted (o : Options) (s : Server) (l : List Task) : Prop where
  opts : s.opts = o
  conns : s.conns = (l.filterMap Task.admitted).length
  perIP : ∀ ip, s.perIP ip = (l.filterMap Task.admitted).count ip
  maxConns : s.conns ≤ o.maxConns
  maxPerIP : ∀ ip, s.perIP ip ≤ o.maxPerIP

section

variable {o : Options} {s s' : Server} {l l' new : List Task} {t : Task} {ip : Str} {x : Answer}

theorem Counted.perm (hl : l.Perm l') (h : Counted o s l) : Counted o s l' := by
  have hadmitted := hl.filterMap Task.admitted
  refine ⟨h.opts, ?_, fun ip => ?_, h.maxConns, h.maxPerIP⟩
  · rw [h.conns, hadmitted.length_eq]
  · rw [h.perIP, hadmitted.count_eq]

/-- A goroutine goes on that keeps its place. -/
theorem Counted.goOn (h : Counted o s (t :: l)) (hnew : new.filterMap Task.admitted = [t].filterMap Task.admitted)
    (hopts : s'.opts = s.opts) (hconns : s'.conns = s.conns) (hperIP : s'.perIP = s.perIP) :
    Counted o s' (new ++ l) := by
  have hadmitted : (new ++ l).filterMap Task.admitted = (t :: l).filterMap Task.admitted := by
    rw [List.filterMap_append, hnew, ← List.filterMap_append, List.singleton_append]
  refine ⟨hopts.trans h.opts, ?_, fun ip => ?_, hconns ▸ h.maxConns, fun ip => hperIP ▸ h.maxPerIP ip⟩
  · rw [hadmitted, hconns, h.conns]
  · rw [hadmitted, hperIP, h.perIP]

/-- Goroutines come that have no place yet. -/
theorem Counted.come (h : Counted o s l) (hnew : new.filterMap Task.admitted = []) (hopts : s'.opts = s.opts)
    (hconns : s'.conns = s.conns) (hperIP : s'.perIP = s.perIP) : Counted o s' (new ++ l) := by
  have hadmitted : (new ++ l).filterMap Task.admitted = l.filterMap Task.admitted := by
    rw [List.filterMap_append, hnew, List.nil_append]
  refine ⟨hopts.trans h.opts, ?_, fun ip => ?_, hconns ▸ h.maxConns, fun ip => hperIP ▸ h.maxPerIP ip⟩
  · rw [hadmitted, hconns, h.conns]
  · rw [hadmitted, hperIP, h.perIP]

theorem counted_admitConn (h : Counted o s (.admitting ip :: l)) (hs : s.admitConn ip = some s') :
    Counted o s' (.handshaking ip :: l) := by
  rw [Server.admitConn] at hs
  split at hs
  · cases hs
  next hroom =>
  cases hs
  have hconns := h.conns
  have hperIP := h.perIP
  simp only [List.filterMap_cons, Task.admitted] at hconns hperIP
  have hopts := h.opts
  refine ⟨hopts, ?_, fun ip' => ?_, ?_, fun ip' => ?_⟩
  · simp only [List.filterMap_cons, Task.admitted, List.length_cons]
    omega
  · simp only [List.filterMap_cons, Task.admitted, List.count_cons, Function.update_apply, hperIP, beq_iff_eq]
    by_cases heq : ip' = ip
    · rw [if_pos heq, if_pos heq.symm, heq]
      omega
    · rw [if_neg heq, if_neg fun hsym => heq hsym.symm]
      omega
  · rw [hopts] at hroom
    dsimp only
    omega
  · rw [hopts] at hroom
    simp only [Function.update_apply]
    split
    · omega
    · exact h.maxPerIP ip'

theorem counted_release (h : Counted o s (.releasing ip :: l)) : Counted o (s.release ip) l := by
  have hconns := h.conns
  have hperIP := h.perIP
  have hmax := h.maxPerIP
  simp only [List.filterMap_cons, Task.admitted, List.length_cons] at hconns
  simp only [List.filterMap_cons, Task.admitted, List.count_cons, beq_iff_eq] at hperIP
  have hip := hperIP ip
  rw [if_pos rfl] at hip
  refine ⟨h.opts, ?_, fun ip' => ?_, ?_, fun ip' => ?_⟩
  · simp only [Server.release]
    omega
  · simp only [Server.release, Function.update_apply]
    by_cases heq : ip' = ip
    · rw [if_pos heq, heq]
      split <;> omega
    · rw [if_neg heq, hperIP ip', if_neg fun hsym => heq hsym.symm]
      omega
  · have hle := h.maxConns
    simp only [Server.release]
    omega
  · have hle := hmax ip'
    have hle' := hmax ip
    simp only [Server.release, Function.update_apply]
    split
    · split <;> omega
    · exact hle

theorem counted_arrive (h : Counted o s l) (e : Event) : Counted o (s.arrive e).1 ((s.arrive e).2 ++ l) := by
  cases e with
  | accept ip =>
    refine h.come ?_ rfl rfl rfl
    simp only [Server.arrive]
    split <;> rfl
  | configure port bind err =>
    obtain ⟨ln, addr, port', lastErr, heq⟩ := s.configure_eq port bind err
    have hstate : (s.arrive (.configure port bind err)).1 = { s with ln, addr, port := port', lastErr } := heq
    rw [hstate]
    exact h.come rfl rfl rfl rfl
  | disconnect ids => exact h.come rfl rfl rfl rfl
  | closeInstance uuid => exact h.come rfl rfl rfl rfl
  | close => exact h.come rfl rfl rfl rfl

theorem counted_resume (h : Counted o s (t :: l)) : Counted o (s.resume x t).1 ((s.resume x t).2 ++ l) := by
  cases t with
  | admitting ip =>
    rw [Server.resume]
    split
    · next s' hs => exact counted_admitConn h hs
    · exact h.goOn rfl rfl rfl rfl
  | handshaking ip =>
    rw [Server.resume]
    split
    · exact h.goOn rfl rfl rfl rfl
    · refine h.goOn ?_ rfl rfl rfl
      dsimp only
      split <;> rfl
  | opening ip p =>
    rw [Server.resume]
    split
    · next s' hs =>
      rw [Server.openSession] at hs
      split at hs
      · cases hs
      · cases hs
        exact h.goOn rfl rfl rfl rfl
    · exact h.goOn rfl rfl rfl rfl
  | announcing ip id => exact h.goOn rfl rfl rfl rfl
  | serving ip id =>
    refine h.goOn ?_ rfl rfl rfl
    simp only [Server.resume]
    split <;> rfl
  | finishing ip id => exact h.goOn rfl rfl rfl rfl
  | reporting ip id => exact h.goOn rfl rfl rfl rfl
  | releasing ip => exact counted_release h
  | hangingUp todo wait => cases todo <;> exact h.goOn rfl rfl rfl rfl
  | waiting todo =>
    cases todo with
    | nil => exact h.goOn rfl rfl rfl rfl
    | cons id todo =>
      refine h.goOn ?_ rfl rfl rfl
      simp only [Server.resume]
      split
      · rfl
      · split <;> rfl

end

theorem counted_new (o : Options) : Counted o.withDefaults (.new o) [] := by
  refine ⟨rfl, rfl, fun _ => rfl, ?_, fun _ => ?_⟩ <;>
    simp only [Server.new, Options.withDefaults] <;> split <;> omega

/-- However connections come and go and whatever is configured and closed meanwhile, the counts are those of the
connections that there are, and within the limits. -/
theorem connections_bounded {o : Options} {s : Shared Server Task} {turns : List (Turn Event Answer)}
    (hrun : exec server.step ⟨.new o, []⟩ turns = some s) :
    s.rows.conns = (s.tasks.filterMap Task.admitted).length ∧
      (∀ ip, s.rows.perIP ip = (s.tasks.filterMap Task.admitted).count ip) ∧
      s.rows.conns ≤ o.withDefaults.maxConns ∧ ∀ ip, s.rows.perIP ip ≤ o.withDefaults.maxPerIP := by
  have hcounted : Counted o.withDefaults s.rows s.tasks := by
    refine Service.run_always (P := Counted o.withDefaults) ?_ ?_ ?_ hrun (counted_new o)
    · exact fun _ _ _ hl h => h.perm hl
    · exact fun _ _ e h => counted_arrive h e
    · exact fun _ _ _ _ h => counted_resume h
  exact ⟨hcounted.conns, hcounted.perIP, hcounted.maxConns, hcounted.maxPerIP⟩

/-- Two connections of one address that may have one: the second is let in when the first is gone. -/
def takesTurns : List (Turn Event Answer) :=
  [.request (.configure (some 2022) [] none), .request (.accept ['a']), .request (.accept ['a']),
    .answer 0 ⟨none, 0, true⟩, .answer 1 ⟨none, 0, true⟩, .answer 0 ⟨none, 0, true⟩, .answer 0 ⟨none, 0, true⟩,
    .request (.accept ['a']), .answer 0 ⟨none, 0, true⟩]

theorem connections_bounded_takesTurns : ∃ s, exec server.step ⟨.new ⟨0, 1⟩, []⟩ takesTurns = some s ∧
    s.tasks = [.handshaking ['a']] ∧ s.rows.conns = 1 ∧ s.rows.perIP ['a'] ≤ 1 := by
  have hrun : exec server.step ⟨.new ⟨0, 1⟩, []⟩ takesTurns = some _ := rfl
  exact ⟨_, hrun, rfl, rfl, (connections_bounded hrun).2.2.2 ['a']⟩

-- the equations that later modules rewrite with, stated here once
attribute [local simp] Sftpd.Server.admitConn Sftpd.Server.arrive Sftpd.Server.openSession Sftpd.Server.resume

end Sftpd
