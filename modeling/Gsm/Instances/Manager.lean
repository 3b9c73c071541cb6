import Mathlib.Logic.Function.Basic
import Gsm.Instances.Docker
import Gsm.Instances.Record
import Gsm.Machine.Call
import Gsm.Machine.Exec
import Gsm.Machine.Handlers

/-!
# The agent's instance manager

`Manager` as goroutines that take turns, taken apart at the sections under a record's `mu`, at the two
longer locks and at the calls to Docker. What holds a record's `opMu` is part of the record, with the
work it still has to do, and the same goes for `dbMu`; so at most one goroutine holds either lock.
Goroutines in front of a lock, the exit watchers and the restores are lists beside the records.

A record is known by a number, as a pointer is: the map leads from a uuid to one of them, and a
goroutine that fetched another before keeps that one.
-/

open GoStd Machine

namespace Instances

/-- What the operations depend on of `protocol.InstanceSpec`. -/
structure InstanceSpec where
  /-- there is a ready pattern, and it compiles -/
  ready : Bool
  restartOnCrash : Bool
  stopCommand : Bool
  database : Option DatabaseSpec
deriving DecidableEq

/-- `crashRestartAllowed`: whether a restart is within budget, the attempt, the crashes to keep. -/
def crashRestartAllowed (history : List ℕ) (now : ℕ) : Bool × ℕ × List ℕ :=
  let crashBudget := 3
  let crashWindow := 10 * 60 * 1000
  let kept := (history.filter fun t => now - t < crashWindow) ++ [now]
  (kept.length ≤ crashBudget, kept.length, kept)

/-- A crash restart that is granted. The source keeps none of this: the exit it was granted for, and
how often the instance had been asked to start or stop and had got a container by then. -/
structure Grant where
  exit : ℕ
  asked : ℕ
  tracked : ℕ
deriving DecidableEq

/-! ## What holds a lock -/

/-- `ensureDatabase` -/
inductive EnsurePc where
  | network
  | inspect
  | stop
  | remove
  | image
  | create
  | run (id : Str)
  | wait
deriving DecidableEq

/-- `startLocked` -/
inductive StartPc where
  | begin
  /-- folders, marker, console log, image, config files, binds -/
  | prepare
  | lockDb
  | ensure (pc : EnsurePc)
  | removeOld
  | create
  | attach (id : Str)
  | run (id : Str)
  /-- the container goes again, since it could not be attached to or started -/
  | cleanup (id : Str)
  | fail
  | track (id : Str)
deriving DecidableEq

/-- `stopGameLocked` -/
inductive StopPc where
  | begin (force : Bool)
  /-- the stop command, and the wait for what it does -/
  | command (id : Str)
  | signal (id : Str)
  | signalled (id : Str)
  | kill (id : Str)
  | killed (id : Str)
deriving DecidableEq

/-- `stopDatabaseIdle` -/
inductive IdlePc where
  | lockDb
  | read
  | inspect
  | stop
deriving DecidableEq

/-- `Install` -/
inductive InstallPc where
  | begin
  /-- folders, script and log -/
  | prepare
  | setCancel
  /-- images and binds -/
  | images
  | removeOld
  | create
  | attach (id : Str)
  | run (id : Str)
  | wait (id : Str)
  | kill (id : Str)
  | finish (errMsg : Option Str) (id : Option Str)
  /-- the deferred removal of the container -/
  | cleanup (id : Str)
deriving DecidableEq

/-- The rest of `Remove` after `stopLocked`. -/
inductive RemovePc where
  | game
  | install
  | database
  | files
  | delete
deriving DecidableEq

/-- Which operation a stop of the game is part of. -/
inductive Stopping where
  | stop
  | restart (spec : InstanceSpec)
  | remove (deleteFiles : Bool)
deriving DecidableEq

/-- What the goroutine that holds `opMu` still has to do. -/
inductive Work where
  | install (spec : InstanceSpec) (pc : InstallPc)
  | start (spec : InstanceSpec) (pc : StartPc)
  | stop (k : Stopping) (pc : StopPc)
  /-- with `deleteFiles` of the `Remove` it is part of -/
  | idle (remove : Option Bool) (pc : IdlePc)
  | remove (deleteFiles : Bool) (pc : RemovePc)
  /-- the crash restart after its delay -/
  | crash (g : Grant)
deriving DecidableEq

/-- What waits for `opMu`. -/
inductive Request where
  | install (spec : InstanceSpec)
  | start (spec : InstanceSpec)
  | stop (force : Bool)
  | restart (spec : InstanceSpec)
  | remove (deleteFiles : Bool)
  | crash (g : Grant)
deriving DecidableEq

/-- Not the agent's own. -/
def Request.isServers : Request → Bool
  | .crash _ => false
  | _ => true

def Request.work : Request → Work
  | .install spec => .install spec .begin
  | .start spec => .start spec .begin
  | .stop force => .stop .stop (.begin force)
  | .restart spec => .stop (.restart spec) (.begin false)
  | .remove deleteFiles => .stop (.remove deleteFiles) (.begin true)
  | .crash g => .crash g

/-- `ctx` is whether the operation's context is still good. -/
structure Holder where
  ctx : Bool
  work : Work
deriving DecidableEq

/-- `withDatabase` -/
inductive WithPc where
  | inspect
  | wait
  | ensure (pc : EnsurePc)
  /-- the dump or the import; the server was running before or not -/
  | use (running : Bool)
  | read
  | stopInspect
  | stop
deriving DecidableEq

/-- What holds `dbMu`. -/
inductive DbHolder where
  /-- the goroutine that holds `opMu` too -/
  | op
  | task (db : DatabaseSpec) (ctx : Bool) (pc : WithPc)
deriving DecidableEq

/-! ## Records -/

/-- `instance` -/
structure Inst where
  uuid : Str
  record : Record
  spec : Option InstanceSpec
  crashes : List ℕ
  /-- `installCancel` is set -/
  installCancel : Bool
  /-- it has been called -/
  installCut : Bool
  /-- the containers whose `exited` channel is closed -/
  exited : List Str
  opMu : Option Holder
  dbMu : Option DbHolder
  /-- not in the source: exits so far, starts and stops that came to their turn, containers tracked -/
  exits : ℕ
  asked : ℕ
  tracked : ℕ
deriving DecidableEq

/-- What comes from outside with a step. -/
structure Reply where
  answer : Answer
  /-- the id of a new container -/
  id : Str
  /-- the text of an error -/
  text : Str
  code : ℤ
  now : ℕ
deriving DecidableEq

/-- The record that `get` makes. -/
def Inst.new (uuid : Str) : Inst :=
  ⟨uuid, .new, none, [], false, false, [], none, none, 0, 0, 0⟩

namespace Inst

/-- The operation goes on. -/
def next (i : Inst) (ctx : Bool) (work : Work) : Inst := { i with opMu := some ⟨ctx, work⟩ }

/-- The operation returns. -/
def unlock (i : Inst) : Inst := { i with opMu := none }

/-- `track` without its goroutines -/
def track (i : Inst) (id : Str) (readyNow : Bool) (now : ℕ) : Inst :=
  { i with
    record := (i.record.apply (.track id readyNow now)).1
    tracked := i.tracked + 1 }

/-- The section of `watch`, for the container that is tracked. -/
def exit (i : Inst) (id : Str) (code : ℤ) (err : Option Str) (now : ℕ) : Inst × Option Grant :=
  let record := (i.record.apply (.exit id code err)).1
  let i' := { i with record := record, exits := i.exits + 1 }
  if record.state = .crashed ∧ i.spec.any (·.restartOnCrash) then
    let (ok, _, kept) := crashRestartAllowed i.crashes now
    ({ i' with crashes := kept }, if ok then some ⟨i'.exits, i.asked, i.tracked⟩ else none)
  else (i', none)

/-- The record after `Reconcile` has seen a container of it; `spec` is what is stored for the
instance, and the answer is that of the attach or of the inspect. -/
def adopt (i : Inst) (c : Container) (spec : Option InstanceSpec) (x : Reply) : Inst :=
  let i := { i with spec := i.spec <|> spec }
  if x.answer.ok true then
    match c.status with
    | .running => i.track c.id true x.now
    | .exited code =>
        let state := if code = 0 then .stopped else .crashed
        { i with record := { i.record with exitCode := some code, state := state } }
    | .created => { i with record := { i.record with exitCode := some 0, state := .stopped } }
  else i

end Inst

/-- What a step under `opMu` leaves. -/
structure Move where
  inst : Inst
  /-- what it changes at Docker -/
  call : Option Docker.Call
  /-- a container that is tracked now, so that somebody watches it -/
  watch : Option Str
  /-- the uuid is deleted from the map -/
  deleted : Bool

/-- A step that only changes the record. -/
def Move.of (i : Inst) : Move := ⟨i, none, none, false⟩

/-- A call, if it takes effect. -/
def calls (effect : Bool) (call : Docker.Call) : Option Docker.Call :=
  if effect then some call else none

/-! ## The database server -/

inductive EnsureResult where
  | next (pc : EnsurePc)
  | ok
  | failed

/-- `ensureDatabase`, for the record `r` -/
def ensureStep (r : ℕ) (uuid : Str) (d : Docker) (db : DatabaseSpec) (ctx : Bool) (x : Reply) :
    EnsurePc → Option Docker.Call × EnsureResult
  | .network => (none, if x.answer.ok ctx then .next .inspect else .failed)
  | .inspect =>
      if x.answer.ok ctx then
        match d.inspect (.name (.database uuid)) with
        | none => (none, .next .image)
        | some c =>
            if c.status = .running then
              (none, if c.database = some db then .next .wait else .next .stop)
            else (none, .next .remove)
      else (none, .failed)
  | .stop => (calls (x.answer.effect ctx) (.halt (.name (.database uuid)) 0), .next .remove)
  | .remove =>
      (calls (x.answer.effect ctx) (.remove (.name (.database uuid))),
        if x.answer.ok ctx then .next .image else .failed)
  | .image => (none, if x.answer.ok ctx then .next .create else .failed)
  | .create =>
      if d.free (.database uuid) x.id then
        (calls (x.answer.effect ctx) (.create ⟨x.id, .database uuid, .created, some db, r⟩),
          if x.answer.ok ctx then .next (.run x.id) else .failed)
      else (none, .failed)
  | .run id =>
      (calls (x.answer.effect ctx) (.start (.id id)),
        if x.answer.ok ctx then .next .wait else .failed)
  -- a connection is taken by a server that is up
  | .wait => (none, if x.answer.ok ctx ∧ d.Runs (.database uuid) then .ok else .failed)

/-- `withDatabase` and the function it is given, under `dbMu` -/
def withStep (r : ℕ) (d : Docker) (i : Inst) (db : DatabaseSpec) (ctx : Bool) (x : Reply) :
    WithPc → Inst × Option Docker.Call
  | .inspect =>
      let running := x.answer.ok ctx ∧ d.Runs (.database i.uuid)
      let pc := if running then .wait else .ensure .network
      ({ i with dbMu := some (.task db (x.answer.context ctx) pc) }, none)
  | .wait =>
      if x.answer.ok ctx then ({ i with dbMu := some (.task db ctx (.use true)) }, none)
      else ({ i with dbMu := none }, none)
  | .ensure pc =>
      match ensureStep r i.uuid d db ctx x pc with
      | (call, .next pc') =>
          ({ i with dbMu := some (.task db (x.answer.context ctx) (.ensure pc')) }, call)
      | (call, .ok) => ({ i with dbMu := some (.task db ctx (.use false)) }, call)
      | (call, .failed) => ({ i with dbMu := none }, call)
  | .use running =>
      if running then ({ i with dbMu := none }, none)
      else ({ i with dbMu := some (.task db ctx .read) }, none)
  | .read =>
      if i.record.containerID.isSome then ({ i with dbMu := none }, none)
      else ({ i with dbMu := some (.task db ctx .stopInspect) }, none)
  | .stopInspect =>
      if x.answer.ok true ∧ d.Runs (.database i.uuid) then
        ({ i with dbMu := some (.task db ctx .stop) }, none)
      else ({ i with dbMu := none }, none)
  | .stop =>
      ({ i with dbMu := none },
        calls (x.answer.effect true) (.halt (.name (.database i.uuid)) 0))

/-! ## Operations -/

/-- `startLocked` -/
def startStep (r : ℕ) (d : Docker) (i : Inst) (ctx : Bool) (spec : InstanceSpec) (x : Reply) :
    StartPc → Option Move
  | .begin =>
      if i.record.state.isUp ∨ i.record.state = .installing then some (.of i.unlock)
      else
        let i' := { i with
          record := (i.record.apply .beginStart).1
          spec := some spec
          asked := i.asked + 1 }
        some (.of (i'.next ctx (.start spec .prepare)))
  | .prepare =>
      let pc := if x.answer.ok ctx then
          if spec.database.isSome then .lockDb else .removeOld
        else .fail
      some (.of (i.next (x.answer.context ctx) (.start spec pc)))
  | .lockDb =>
      if i.dbMu.isSome then none
      else some (.of ({ i with dbMu := some .op }.next ctx (.start spec (.ensure .network))))
  | .ensure pc =>
      match spec.database with
      | none => none
      | some db =>
          let ctx' := x.answer.context ctx
          match ensureStep r i.uuid d db ctx x pc with
          | (call, .next pc') =>
              some ⟨i.next ctx' (.start spec (.ensure pc')), call, none, false⟩
          | (call, .ok) =>
              some ⟨{ i with dbMu := none }.next ctx' (.start spec .removeOld), call, none, false⟩
          | (call, .failed) =>
              some ⟨{ i with dbMu := none }.next ctx' (.start spec .fail), call, none, false⟩
  | .removeOld =>
      some ⟨i.next (x.answer.context ctx) (.start spec .create),
        calls (x.answer.effect ctx) (.remove (.name (.game i.uuid))), none, false⟩
  | .create =>
      let ctx' := x.answer.context ctx
      if d.free (.game i.uuid) x.id then
        let pc := if x.answer.ok ctx then .attach x.id else .fail
        let call := Docker.Call.create ⟨x.id, .game i.uuid, .created, none, r⟩
        some ⟨i.next ctx' (.start spec pc), calls (x.answer.effect ctx) call, none, false⟩
      else some (.of (i.next ctx' (.start spec .fail)))
  | .attach id =>
      -- not under the operation's context
      let pc := if x.answer.ok true then .run id else .cleanup id
      some (.of (i.next ctx (.start spec pc)))
  | .run id =>
      let pc := if x.answer.ok ctx then .track id else .cleanup id
      some ⟨i.next (x.answer.context ctx) (.start spec pc),
        calls (x.answer.effect ctx) (.start (.id id)), none, false⟩
  | .cleanup id =>
      some ⟨i.next (x.answer.context ctx) (.start spec .fail),
        calls (x.answer.effect ctx) (.remove (.id id)), none, false⟩
  | .fail => some (.of { i with record := (i.record.apply (.failStart x.text)).1 }.unlock)
  | .track id => some ⟨(i.track id (!spec.ready) x.now).unlock, none, some id, false⟩

/-- After `stopGameLocked`, which has succeeded or not. -/
def Inst.stopped (i : Inst) (ctx ok : Bool) : Stopping → Inst
  | .stop => if ok then i.next ctx (.idle none .lockDb) else i.unlock
  | .restart spec => if ok then i.next ctx (.start spec .begin) else i.unlock
  | .remove deleteFiles =>
      i.next ctx (if ok then .idle (some deleteFiles) .lockDb else .remove deleteFiles .game)

attribute [local instance] lawfulBEq_str

/-- A wait of `stopGameLocked`: it ends when the exit has been processed, when its time is up, or
with the context. -/
def waitStep (i : Inst) (ctx : Bool) (k : Stopping) (x : Reply) (id : Str) (late : Inst) :
    Option Move :=
  if x.answer.ok true then
    if id ∈ i.exited then some (.of (i.stopped ctx true k)) else none
  else some (.of late)

/-- `stopGameLocked` -/
def stopStep (i : Inst) (ctx : Bool) (k : Stopping) (x : Reply) : StopPc → Option Move
  | .begin force =>
      let i' := { i with record := (i.record.apply .stop).1, asked := i.asked + 1 }
      if i.record.installing then
        some (.of ({ i' with installCut := i.installCut || i.installCancel }.stopped ctx true k))
      else if i.record.state = .crashed then
        some (.of ({ i' with crashes := [] }.stopped ctx true k))
      else
        match i.record.containerID with
        | none => some (.of (i'.stopped ctx true k))
        | some id =>
            if ¬ i.record.state.isUp then some (.of (i'.stopped ctx true k))
            else
              let pc := if force then .kill id
                else if i.spec.any (·.stopCommand) then .command id
                else .signal id
              some (.of (i'.next ctx (.stop k pc)))
  | .command id => waitStep i ctx k x id (i.next (x.answer.context ctx) (.stop k (.signal id)))
  | .signal id =>
      some ⟨i.next (x.answer.context ctx) (.stop k (.signalled id)),
        calls (x.answer.effect ctx) (.halt (.id id) x.code), none, false⟩
  | .signalled id => waitStep i ctx k x id (i.next (x.answer.context ctx) (.stop k (.kill id)))
  | .kill id =>
      some ⟨i.next (x.answer.context ctx) (.stop k (.killed id)),
        calls (x.answer.effect ctx) (.halt (.id id) x.code), none, false⟩
  | .killed id => waitStep i ctx k x id (i.stopped (x.answer.context ctx) false k)

/-- After `stopDatabaseIdle`. -/
def Inst.idled (i : Inst) (ctx : Bool) : Option Bool → Inst
  | none => { i with dbMu := none }.unlock
  | some deleteFiles => { i with dbMu := none }.next ctx (.remove deleteFiles .game)

/-- `stopDatabaseIdle` -/
def idleStep (d : Docker) (i : Inst) (ctx : Bool) (remove : Option Bool) (x : Reply) :
    IdlePc → Option Move
  | .lockDb =>
      if i.dbMu.isSome then none
      else some (.of ({ i with dbMu := some .op }.next ctx (.idle remove .read)))
  | .read =>
      if i.record.containerID.isSome then some (.of (i.idled ctx remove))
      else some (.of (i.next ctx (.idle remove .inspect)))
  | .inspect =>
      if x.answer.ok true ∧ d.Runs (.database i.uuid) then
        some (.of (i.next ctx (.idle remove .stop)))
      else some (.of (i.idled ctx remove))
  | .stop =>
      some ⟨i.idled ctx remove, calls (x.answer.effect true) (.halt (.name (.database i.uuid)) 0),
        none, false⟩

/-- An install that fails. -/
def Inst.failInstall (i : Inst) (ctx : Bool) (spec : InstanceSpec) (x : Reply) (id : Option Str) :
    Inst := i.next ctx (.install spec (.finish (some x.text) id))

/-- `Install`; `ctx` has ended once `installCancel` has been called. -/
def installStep (r : ℕ) (d : Docker) (i : Inst) (ctx : Bool) (spec : InstanceSpec) (x : Reply) :
    InstallPc → Option Move
  | .begin =>
      if i.record.state.isUp ∨ i.record.installing then some (.of i.unlock)
      else
        let i' := { i with
          record := (i.record.apply .beginInstall).1
          spec := some spec
          installCut := false }
        some (.of (i'.next ctx (.install spec .prepare)))
  | .prepare =>
      if x.answer.ok true then some (.of (i.next ctx (.install spec .setCancel)))
      else some (.of (i.failInstall ctx spec x none))
  | .setCancel =>
      some (.of ({ i with installCancel := true }.next ctx (.install spec .images)))
  | .images =>
      let ctx' := x.answer.context ctx
      if x.answer.ok ctx then some (.of (i.next ctx' (.install spec .removeOld)))
      else some (.of (i.failInstall ctx' spec x none))
  | .removeOld =>
      some ⟨i.next (x.answer.context ctx) (.install spec .create),
        calls (x.answer.effect ctx) (.remove (.name (.install i.uuid))), none, false⟩
  | .create =>
      let ctx' := x.answer.context ctx
      if d.free (.install i.uuid) x.id then
        let call := Docker.Call.create ⟨x.id, .install i.uuid, .created, none, r⟩
        let i' := if x.answer.ok ctx then i.next ctx' (.install spec (.attach x.id))
          else i.failInstall ctx' spec x none
        some ⟨i', calls (x.answer.effect ctx) call, none, false⟩
      else some (.of (i.failInstall ctx' spec x none))
  | .attach id =>
      let ctx' := x.answer.context ctx
      if x.answer.ok ctx then some (.of (i.next ctx' (.install spec (.run id))))
      else some (.of (i.failInstall ctx' spec x (some id)))
  | .run id =>
      let ctx' := x.answer.context ctx
      let i' := if x.answer.ok ctx then i.next ctx' (.install spec (.wait id))
        else i.failInstall ctx' spec x (some id)
      some ⟨i', calls (x.answer.effect ctx) (.start (.id id)), none, false⟩
  | .wait id =>
      let ctx' := x.answer.context ctx
      if x.answer.ok ctx then
        if d.up id then none
        else
          let errMsg := if x.code = 0 then none else some x.text
          some (.of (i.next ctx' (.install spec (.finish errMsg (some id)))))
      else if ctx' then some (.of (i.failInstall ctx' spec x (some id)))
      else some (.of (i.next ctx' (.install spec (.kill id))))
  | .kill id =>
      some ⟨i.failInstall ctx spec x (some id),
        calls (x.answer.effect true) (.halt (.id id) x.code), none, false⟩
  | .finish errMsg id =>
      let i' := { i with
        record := (i.record.apply (.finishInstall errMsg)).1
        installCancel := false }
      match id with
      | none => some (.of i'.unlock)
      | some id => some (.of (i'.next ctx (.install spec (.cleanup id))))
  | .cleanup id =>
      some ⟨i.unlock, calls (x.answer.effect true) (.remove (.id id)), none, false⟩

/-- `Remove`, after the game has been stopped; without `deleteFiles` there is no file to fail on. -/
def removeStep (i : Inst) (ctx deleteFiles : Bool) (x : Reply) : RemovePc → Option Move
  | .game =>
      some ⟨i.next (x.answer.context ctx) (.remove deleteFiles .install),
        calls (x.answer.effect ctx) (.remove (.name (.game i.uuid))), none, false⟩
  | .install =>
      some ⟨i.next (x.answer.context ctx) (.remove deleteFiles .database),
        calls (x.answer.effect ctx) (.remove (.name (.install i.uuid))), none, false⟩
  | .database =>
      some ⟨i.next (x.answer.context ctx) (.remove deleteFiles .files),
        calls (x.answer.effect ctx) (.remove (.name (.database i.uuid))), none, false⟩
  | .files =>
      if deleteFiles ∧ ¬ x.answer.ok true then some (.of i.unlock)
      else some (.of (i.next ctx (.remove deleteFiles .delete)))
  | .delete => some ⟨i.unlock, none, none, true⟩

/-- The crash restart after its delay. -/
def crashStep (i : Inst) : Inst :=
  match i.spec with
  | none => i.unlock
  | some spec =>
      if i.record.state ≠ .crashed then i.unlock else i.next true (.start spec .begin)

/-- The goroutine that holds `opMu` goes on. -/
def workStep (r : ℕ) (d : Docker) (i : Inst) (h : Holder) (x : Reply) : Option Move :=
  match h.work with
  | .install spec pc => installStep r d i (h.ctx && !i.installCut) spec x pc
  | .start spec pc => startStep r d i h.ctx spec x pc
  | .stop k pc => stopStep i h.ctx k x pc
  | .idle remove pc => idleStep d i h.ctx remove x pc
  | .remove deleteFiles pc => removeStep i h.ctx deleteFiles x pc
  | .crash _ => some (.of (crashStep i))

/-! ## The manager -/

inductive WatchPc where
  /-- `ContainerWait` -/
  | waiting
  /-- `ContainerRemove`, after the exit has been recorded -/
  | removing (restart : Option Grant)
deriving DecidableEq

/-- `watch` -/
structure Watcher where
  inst : ℕ
  id : Str
  pc : WatchPc
deriving DecidableEq

/-- The handler of `backup.restore` -/
inductive RestorePc where
  | asked
  /-- the instance was not running -/
  | checked
  /-- it changes the data directory -/
  | writing
deriving DecidableEq

structure Restoring where
  uuid : Str
  pc : RestorePc
deriving DecidableEq

structure Manager where
  /-- `insts` -/
  insts : Str → Option ℕ
  recs : ℕ → Inst
  next : ℕ
  docker : Docker
  /-- what has fetched a record and waits for its `opMu` -/
  queue : List (ℕ × Request)
  watchers : List Watcher
  /-- what has fetched a record and waits for its `dbMu` -/
  tasks : List (ℕ × DatabaseSpec)
  restores : List Restoring
  /-- what `Reconcile` has not come to -/
  reconcile : List Container

namespace Manager

/-- An agent process that starts, with the containers that `Reconcile` gets to see. -/
def boot (d : Docker) (listed : Bool) : Manager where
  insts _ := none
  recs _ := .new []
  next := 0
  docker := d
  queue := []
  watchers := []
  tasks := []
  restores := []
  reconcile := if listed then d.filter fun c => c.name = .game c.name.uuid else []

/-- `get` -/
def get (m : Manager) (uuid : Str) : Manager × ℕ :=
  match m.insts uuid with
  | some r => (m, r)
  | none =>
      ({ m with
        insts := Function.update m.insts uuid (some m.next)
        recs := Function.update m.recs m.next (.new uuid)
        next := m.next + 1 }, m.next)

def set (m : Manager) (r : ℕ) (i : Inst) : Manager :=
  { m with recs := Function.update m.recs r i }

/-- `IsRunning` -/
def isRunning (m : Manager) (uuid : Str) : Bool :=
  match m.insts uuid with
  | none => false
  | some r => (m.recs r).record.containerID.isSome || (m.recs r).record.installing

/-- What `Reconcile` does with one container. -/
def adopt (m : Manager) (c : Container) (spec : Option InstanceSpec) (x y : Reply) : Manager :=
  let (m, r) := m.get c.name.uuid
  let m := m.set r ((m.recs r).adopt c spec x)
  if c.status = .running then
    let watcher : Watcher := ⟨r, c.id, .waiting⟩
    { m with watchers := m.watchers ++ if x.answer.ok true then [watcher] else [] }
  else { m with docker := m.docker.perform (calls (y.answer.effect true) (.remove (.id c.id))) }

/-- `watch`, where the `n`-th watcher goes on -/
def watchStep (m : Manager) (n : ℕ) (w : Watcher) (x : Reply) : Option Manager :=
  let i := m.recs w.inst
  match w.pc with
  | .waiting =>
      if x.answer.ok true && m.docker.up w.id then none
      else if i.record.containerID ≠ some w.id then
        some { m.set w.inst { i with exited := w.id :: i.exited } with
          watchers := replaceAt m.watchers n [] }
      else
        let err := if x.answer.ok true then none else some x.text
        let (i', restart) := i.exit w.id x.code err x.now
        some { m.set w.inst i' with
          watchers := replaceAt m.watchers n [{ w with pc := .removing restart }] }
  | .removing restart =>
      some { m.set w.inst { i with exited := w.id :: i.exited } with
        docker := m.docker.perform (calls (x.answer.effect true) (.remove (.id w.id)))
        watchers := replaceAt m.watchers n []
        queue := m.queue ++ (restart.map fun g => (w.inst, .crash g)).toList }

/-- `backup.restore`; the import it may end with is one of the tasks. -/
def restoreStep (m : Manager) (n : ℕ) (t : Restoring) (x : Reply) : Manager :=
  match t.pc with
  | .asked =>
      let next := if m.isRunning t.uuid then [] else [{ t with pc := .checked }]
      { m with restores := replaceAt m.restores n next }
  | .checked =>
      let next := if x.answer.ok true then [{ t with pc := .writing }] else []
      { m with restores := replaceAt m.restores n next }
  | .writing => { m with restores := replaceAt m.restores n [] }

inductive Action where
  /-- a request for an instance comes in and fetches the record -/
  | request (uuid : Str) (q : Request)
  /-- the `n`-th in the queue gets `opMu` -/
  | lock (n : ℕ)
  /-- what holds the record's `opMu` goes on -/
  | work (r : ℕ) (x : Reply)
  /-- `pump`, at a line that matches the ready pattern -/
  | ready (r : ℕ)
  | watch (n : ℕ) (x : Reply)
  /-- a container ends by itself -/
  | ends (name : ContainerName) (code : ℤ)
  /-- `DumpDatabase` or `ImportDatabase` -/
  | task (uuid : Str) (db : DatabaseSpec)
  | lockDb (n : ℕ)
  /-- the task that holds the record's `dbMu` goes on -/
  | database (r : ℕ) (x : Reply)
  | restore (uuid : Str)
  | restoring (n : ℕ) (x : Reply)
  /-- the agent process ends and another one starts -/
  | restart (listed : Bool)
  | adopt (spec : Option InstanceSpec) (x y : Reply)
deriving DecidableEq

def step (m : Manager) : Action → Option Manager
  | .request uuid q =>
      -- the connection is made after `Reconcile`
      if m.reconcile = [] ∧ q.isServers then
        some { (m.get uuid).1 with queue := m.queue ++ [((m.get uuid).2, q)] }
      else none
  | .lock n =>
      match m.queue[n]? with
      | none => none
      | some (r, q) =>
          if (m.recs r).opMu.isSome then none
          else
            some { m.set r ((m.recs r).next true q.work) with queue := replaceAt m.queue n [] }
  | .work r x =>
      match (m.recs r).opMu with
      | none => none
      | some h =>
          match workStep r m.docker (m.recs r) h x with
          | none => none
          | some e =>
              some { m.set r e.inst with
                docker := m.docker.perform e.call
                watchers := m.watchers ++ (e.watch.map fun id => ⟨r, id, .waiting⟩).toList
                insts := if e.deleted then Function.update m.insts (m.recs r).uuid none
                  else m.insts }
  | .ready r =>
      some (m.set r { m.recs r with record := ((m.recs r).record.apply .matchReady).1 })
  | .watch n x =>
      match m.watchers[n]? with
      | none => none
      | some w => m.watchStep n w x
  | .ends name code => some { m with docker := m.docker.halt (.name name) code }
  | .task uuid db =>
      if m.reconcile = [] then
        some { (m.get uuid).1 with tasks := m.tasks ++ [((m.get uuid).2, db)] }
      else none
  | .lockDb n =>
      match m.tasks[n]? with
      | none => none
      | some (r, db) =>
          if (m.recs r).dbMu.isSome then none
          else
            some { m.set r { m.recs r with dbMu := some (.task db true .inspect) } with
              tasks := replaceAt m.tasks n [] }
  | .database r x =>
      match (m.recs r).dbMu with
      | some (.task db ctx pc) =>
          let (i, call) := withStep r m.docker (m.recs r) db ctx x pc
          some { m.set r i with docker := m.docker.perform call }
      | _ => none
  | .restore uuid =>
      if m.reconcile = [] then some { m with restores := m.restores ++ [⟨uuid, .asked⟩] } else none
  | .restoring n x =>
      match m.restores[n]? with
      | none => none
      | some t => some (m.restoreStep n t x)
  | .restart listed => some (boot m.docker listed)
  | .adopt spec x y =>
      match m.reconcile with
      | [] => none
      | c :: rest => some { m.adopt c spec x y with reconcile := rest }

-- the equations that later modules rewrite with, stated here once
attribute [local simp] Instances.Inst.adopt Instances.Inst.exit Instances.Inst.failInstall Instances.Inst.next
  Instances.Inst.stopped Instances.Inst.unlock Instances.Manager.adopt Instances.Move.of Instances.calls
  Instances.crashStep Instances.ensureStep Instances.idleStep Instances.installStep Instances.removeStep
  Instances.startStep Instances.stopStep Instances.stopStep.match_1.congr_eq_1 Instances.waitStep
  Instances.withStep

end Manager

end Instances
