import Mathlib.Data.Set.Insert
import Gsm.Machine.Exec
import Gsm.Server.PlayerLines

/-!
# Who is online

The rows of `instance_players` of one instance, under the events of its console and of its status. The
table's index compares names without their case, so a table is known by the row it has for each name in
lower case (`Table.at`). Every write is one row's, and every event leaves the players online that the fold
of the events has.
-/

open Js Machine

namespace Server.Players

variable {js : Builtins}

theorem lawfulBEq_units : LawfulBEq (List UInt16) := inferInstance

attribute [local instance] lawfulBEq_units

/-- A row of `instance_players` -/
structure Row where
  id : ℕ
  name : Text
  playerId : Option Text
  online : Bool
  joinedAt : Option ℕ
  firstSeenAt : ℕ
  lastSeenAt : ℕ
deriving DecidableEq

/-- The name as the table's index has it -/
def Row.key (js : Builtins) (r : Row) : Text := js.toLowerCase r.name

/-- The table's rows for the instance, with its primary key and its index on the name. -/
structure Table (js : Builtins) where
  rows : List Row
  nextId : ℕ
  keys : (rows.map (Row.key js)).Nodup
  ids : (rows.map Row.id).Nodup
  fresh : ∀ r ∈ rows, r.id < nextId

/-- `findOne({ where: { instanceId, name } })` -/
def Table.findOne (t : Table js) (name : Text) : Option Row :=
  t.rows.find? fun r => r.key js = js.toLowerCase name

/-- `create`; the index refuses a name that is there. -/
def Table.create (t : Table js) (r : Row) : Option (Table js) :=
  if h : r.key js ∈ t.rows.map (Row.key js) then none
  else some {
    rows := t.rows ++ [{ r with id := t.nextId }]
    nextId := t.nextId + 1
    keys := by
      rw [List.map_append]
      exact t.keys.append (List.nodup_singleton _) (List.disjoint_singleton.mpr h)
    ids := by
      rw [List.map_append]
      refine t.ids.append (List.nodup_singleton _) (List.disjoint_singleton.mpr fun hmem => ?_)
      obtain ⟨o, ho, heq⟩ := List.mem_map.mp hmem
      have hlt := t.fresh o ho
      rw [heq] at hlt
      exact Nat.lt_irrefl _ hlt
    fresh := by
      intro o ho
      rcases List.mem_append.mp ho with ho | ho
      · exact (t.fresh o ho).trans (Nat.lt_succ_self _)
      · rw [List.mem_singleton.mp ho]
        exact Nat.lt_succ_self _ }

/-- What `row.save()` makes of each row. -/
def saved (row r : Row) : Row := if r.id = row.id then row else r

theorem id_saved (row r : Row) : (saved row r).id = r.id := by
  rw [saved]
  split
  · next h => exact h.symm
  · rfl

/-- `row.save()`; the index refuses the name of another row. -/
def Table.save (t : Table js) (row : Row) : Option (Table js) :=
  if h : ((t.rows.map (saved row)).map (Row.key js)).Nodup then
    some {
      rows := t.rows.map (saved row)
      nextId := t.nextId
      keys := h
      ids := by
        rw [List.map_map]
        exact (List.map_congr_left fun r _ => id_saved row r) ▸ t.ids
      fresh := by
        intro o ho
        obtain ⟨r, hr, rfl⟩ := List.mem_map.mp ho
        rw [id_saved]
        exact t.fresh r hr }
  else none

/-- A change of rows that leaves names and numbers as they are -/
def Table.update (t : Table js) (f : Row → Row) (hf : ∀ r, (f r).id = r.id ∧ (f r).name = r.name) :
    Table js where
  rows := t.rows.map f
  nextId := t.nextId
  keys := by
    rw [List.map_map]
    exact (List.map_congr_left fun r _ => congrArg js.toLowerCase (hf r).2) ▸ t.keys
  ids := by
    rw [List.map_map]
    exact (List.map_congr_left fun r _ => (hf r).1) ▸ t.ids
  fresh := by
    intro o ho
    obtain ⟨r, hr, rfl⟩ := List.mem_map.mp ho
    rw [(hf r).1]
    exact t.fresh r hr

/-! ## The events -/

/-- An id waits this long for its join line. -/
def pendingIdMs : ℕ := 5 * 60000

/-- The rows, and `pendingIds` for the instance: name in lower case, id, time. -/
structure Store (js : Builtins) where
  table : Table js
  pendingIds : List (Text × Text × ℕ)

def rememberId (js : Builtins) (ids : List (Text × Text × ℕ)) (now : ℕ) (name id : Text) : List (Text × Text × ℕ) :=
  let kept := if 1000 < ids.length then ids.filter fun e => now - e.2.2 ≤ pendingIdMs else ids
  (js.toLowerCase name, id, now) :: kept.filter fun e => e.1 ≠ js.toLowerCase name

/-- The id, when it is there in time; it is gone either way. -/
def takePendingId (js : Builtins) (ids : List (Text × Text × ℕ)) (now : ℕ) (name : Text) :
    Option Text × List (Text × Text × ℕ) :=
  (((ids.find? fun e => e.1 = js.toLowerCase name).filter fun e => now - e.2.2 < pendingIdMs).map (·.2.1),
    ids.filter fun e => e.1 ≠ js.toLowerCase name)

def markJoined (t : Table js) (now : ℕ) (p : SeenPlayer) : Option (Table js) :=
  match t.findOne p.name with
  | none => t.create ⟨0, p.name, p.id, true, some now, now, now⟩
  | some row =>
      t.save { row with
        name := p.name, playerId := p.id.or row.playerId, online := true, joinedAt := some now,
        lastSeenAt := now }

def markLeft (t : Table js) (now : ℕ) (name : Text) : Option (Table js) :=
  match t.findOne name with
  | none => t.create ⟨0, name, none, false, none, now, now⟩
  | some row => t.save { row with online := false, joinedAt := none, lastSeenAt := now }

/-- One player of a list answer: the table, and the rows that were read for the answer. -/
def listPlayer (now : ℕ) (p : SeenPlayer) (s : Table js × List Row) : Option (Table js × List Row) :=
  match s.2.find? fun r => r.key js = js.toLowerCase p.name with
  | none => (s.1.create ⟨0, p.name, p.id, true, some now, now, now⟩).map (·, s.2)
  | some row =>
      let row' : Row := { row with
        online := true
        joinedAt := if row.online then row.joinedAt else some now
        name := p.name
        playerId := p.id.or row.playerId
        lastSeenAt := now }
      (s.1.save row').map (·, s.2.map (saved row'))

def listPlayers (now : ℕ) : List SeenPlayer → Table js × List Row → Option (Table js × List Row)
  | [], s => some s
  | p :: rest, s => (listPlayer now p s).bind (listPlayers now rest)

/-- The rows that are online and not wanted are turned off. -/
def turnOff (now : ℕ) (wanted : List Text) : List Row → Table js → Option (Table js)
  | [], t => some t
  | row :: rest, t =>
      if row.online && !wanted.contains (row.key js) then
        (t.save { row with online := false, joinedAt := none, lastSeenAt := now }).bind
          (turnOff now wanted rest)
      else turnOff now wanted rest t

/-- A list answer is the whole truth: exactly these players are online. -/
def setOnline (t : Table js) (now : ℕ) (players : List SeenPlayer) : Option (Table js) :=
  let wanted := players.map fun p => js.toLowerCase p.name
  let rows := t.rows.filter fun r => r.online || wanted.contains (r.key js)
  (listPlayers now players (t, rows)).bind fun s => turnOff now wanted s.2 s.1

def markAllOffline (t : Table js) (now : ℕ) : Table js :=
  t.update (fun r => if r.online then { r with online := false, joinedAt := none, lastSeenAt := now } else r)
    fun r => by split <;> exact ⟨rfl, rfl⟩

/-- The id a line names, written to the player's row -/
def identified (js : Builtins) (name id : Text) (r : Row) : Row :=
  if r.key js = js.toLowerCase name then { r with playerId := some id } else r

theorem identified_same (name id : Text) (r : Row) :
    (identified js name id r).id = r.id ∧ (identified js name id r).name = r.name := by
  rw [identified]
  split <;> exact ⟨rfl, rfl⟩

/-- What a line of the console or the instance's status says of its players. -/
inductive Event (js : Builtins) where
  | console (e : PlayerEvent js)
  | nobodyOnline

/-- `apply`, for one event -/
def apply (s : Store js) : ℕ × Event js → Option (Store js)
  | (now, .console (.identify name id)) =>
      some ⟨s.table.update (identified js name id) (identified_same name id),
        rememberId js s.pendingIds now name id⟩
  | (now, .console (.join name id)) =>
      match id with
      | some id => (markJoined s.table now ⟨name, some id⟩).map (⟨·, s.pendingIds⟩)
      | none =>
          let taken := takePendingId js s.pendingIds now name
          (markJoined s.table now ⟨name, taken.1⟩).map (⟨·, taken.2⟩)
  | (now, .console (.leave name)) => (markLeft s.table now name).map (⟨·, s.pendingIds⟩)
  | (now, .console (.list answer)) => (setOnline s.table now answer.players).map (⟨·, s.pendingIds⟩)
  | (_, .console .refresh) => some s
  | (now, .nobodyOnline) => some ⟨markAllOffline s.table now, s.pendingIds⟩

/-! ## What the events say -/

/-- The players stored as online. -/
def Table.online (t : Table js) : Set Text := {k | ∃ r ∈ t.rows, r.online = true ∧ r.key js = k}

variable {t t' : Table js} {row r : Row} {k name : Text} {now : ℕ} {p : SeenPlayer} {s s' : Store js}
  {wanted : List Text} {rows : List Row}

/-! ## A table by its names -/

def Table.at (t : Table js) (k : Text) : Option Row := t.rows.find? fun r => r.key js = k

/-- What holds while the players of an answer are written: `rest` are still to come. -/
structure Listing (t : Table js) (rows : List Row) (wanted rest : List Text) : Prop where
  /-- The rows that were read are those of the table. -/
  inStep : ∀ o ∈ rows, t.at (o.key js) = some o
  keys : (rows.map (Row.key js)).Nodup
  /-- What is online has been read, or is wanted. -/
  covered : ∀ r k, t.at k = some r → r.online = true → r ∈ rows ∨ k ∈ wanted
  /-- What is still to come has been read, if it is there. -/
  read : ∀ k ∈ rest, ∀ r, t.at k = some r → r ∈ rows
  /-- What is wanted and no longer to come is online. -/
  done : ∀ k ∈ wanted, k ∉ rest → k ∈ t.online

end Server.Players
