import Gsm.Data.JsText
import Mathlib.Data.List.Nodup

/-!
# What console lines say about players

`compileMatcher` and what it calls. A template's patterns are given by what they match, case by
`toLowerCase`, and a count by `isNumber`. A list of players never names one twice, however it is written:
`Answer` carries that with it.
-/

open Js

namespace Server.Players

/-- The named groups of a match -/
abbrev Groups := String → Option Text

/-- A compiled pattern, by its `exec` -/
abbrev Regex := Text → Option Groups

structure SeenPlayer where
  name : Text
  id : Option Text
deriving DecidableEq

/-- The language's own functions on strings that the sources use. -/
structure Builtins where
  toLowerCase : Text → Text
  /-- `Number(s) === n` -/
  isNumber : Text → ℕ → Bool

variable (js : Builtins)

/-- Players with names that differ by more than their case. -/
structure Answer where
  players : List SeenPlayer
  distinct : (players.map fun p => js.toLowerCase p.name).Nodup
deriving DecidableEq

/-- What one console line says about players. -/
inductive PlayerEvent where
  | join (name : Text) (id : Option Text)
  | leave (name : Text)
  | identify (name id : Text)
  | list (answer : Answer js)
  | refresh
deriving DecidableEq

/-- The lines of a multi-line list answer so far -/
structure Pending where
  time : ℕ
  players : Answer js

/-- `list` of a template's players -/
structure ListConfig where
  pattern : Regex
  separator : Text
  entry : Option Regex
  line : Option Regex

/-- A template's players, compiled -/
structure TemplatePlayers where
  namePattern : Regex
  join : Option Regex
  leave : Option Regex
  identify : Option Regex
  refresh : Option Regex
  list : Option ListConfig

/-- Lines of a multi-line list answer further apart than this belong to different answers. -/
def listLineGapMs : ℕ := 15000

def listMaxEntries : ℕ := 1000

def between (low high u : UInt16) : Bool := low ≤ u && u ≤ high

/-- How many units of an escape sequence stand at the front, after `ESC [`; 0 when there is none. -/
def ansiLength (s : Text) : ℕ :=
  let parameters := s.takeWhile fun u => between 0x30 0x39 u || u == 0x3B || u == 0x3F
  let rest := s.drop parameters.length
  let intermediates := rest.takeWhile (between 0x20 0x2F)
  match rest.drop intermediates.length with
  | u :: _ => if between 0x40 0x7E u then parameters.length + intermediates.length + 1 else 0
  | [] => 0

/-- `raw.replace(ANSI, "")`, with how many units of a sequence are still to be left out -/
def stripAnsiFrom : ℕ → Text → Text
  | _, [] => []
  | skip + 1, _ :: rest => stripAnsiFrom skip rest
  | 0, u :: rest =>
      match u, rest with
      | 0x1B, 0x5B :: more =>
          if ansiLength more = 0 then u :: stripAnsiFrom 0 rest else stripAnsiFrom (ansiLength more + 1) rest
      | _, _ => u :: stripAnsiFrom 0 rest

def stripAnsi (raw : Text) : Text := stripAnsiFrom 0 raw

/-- `nameValidator` -/
def TemplatePlayers.validName (p : TemplatePlayers) (name : Text) : Bool :=
  name != [] && (p.namePattern name).isSome

/-- `g.name`, when it is a valid name -/
def TemplatePlayers.nameIn (p : TemplatePlayers) (g : Groups) : Option Text :=
  (g "name").filter p.validName

/-- `g.id || null` -/
def idIn (g : Groups) : Option Text := (g "id").filter (· != [])

def groups (r : Option Regex) (line : Text) : Option Groups := r.bind (· line)

/-- A player who joined, left or was named with an id. -/
def TemplatePlayers.connection (p : TemplatePlayers) (line : Text) : Option (PlayerEvent js) :=
  match (groups p.join line).bind fun g => (p.nameIn g).map fun name => (name, g) with
  | some (name, g) => some (.join name (idIn g))
  | none =>
      match (groups p.leave line).bind p.nameIn with
      | some name => some (.leave name)
      | none =>
          match (groups p.identify line).bind fun g =>
              (p.nameIn g).bind fun name => (idIn g).map fun id => (name, id) with
          | some (name, id) => some (.identify name id)
          | none => none

variable {js} in
/-- One more player, unless the name is there already. -/
def Answer.push (a : Answer js) (p : SeenPlayer) : Answer js :=
  if h : js.toLowerCase p.name ∈ a.players.map fun x => js.toLowerCase x.name then a
  else ⟨a.players ++ [p], by
    rw [List.map_append]
    exact a.distinct.append (List.nodup_singleton _) (List.disjoint_singleton.mpr h)⟩

def Answer.empty : Answer js := ⟨[], List.nodup_nil⟩

/-- The players of a list line's answer with the one it names. -/
def TemplatePlayers.collect (p : TemplatePlayers) (a : Answer js) (g : Groups) : Answer js :=
  match p.nameIn g with
  | some name => if a.players.length < listMaxEntries then a.push ⟨name, idIn g⟩ else a
  | none => a

/-- One entry of a list answer; entries that don't parse are dropped. -/
def entryOf (entry : Option Regex) (text : Text) : Option SeenPlayer :=
  if text = [] then none
  else
    match entry with
    | none => some ⟨text, none⟩
    | some r => (r text).bind fun g => (g "name").map fun name => ⟨name, idIn g⟩

/-- Split the `names` part of a list answer into players. -/
def TemplatePlayers.parseListAnswer (p : TemplatePlayers) (list : ListConfig) (names : Text) : Answer js :=
  (splitText names list.separator).foldl (fun a part =>
    match entryOf list.entry (trim part) with
    | some player => if p.validName player.name then a.push player else a
    | none => a) (Answer.empty js)

variable {js} in
/-- The players collected, when the last of their lines is near enough. -/
def fresh (now : ℕ) (pending : Option (Pending js)) : Answer js :=
  match pending with
  | some p => if now - p.time ≤ listLineGapMs then p.players else Answer.empty js
  | none => Answer.empty js

/-- The list that is complete with its last line; another command's summary can look alike, and a count
that disagrees gives it away. -/
def finish (players : Answer js) (g : Groups) : Option (PlayerEvent js) :=
  if ((g "count").all fun count => js.isNumber count players.players.length) then some (.list players)
  else none

/-- What stands behind the list patterns. -/
def TemplatePlayers.refreshed (p : TemplatePlayers) (line : Text) : Option (PlayerEvent js) :=
  (groups p.refresh line).map fun _ => .refresh

/-- `match` -/
def TemplatePlayers.matchLine (p : TemplatePlayers) (now : ℕ) (pending : Option (Pending js)) (raw : Text) :
    Option (PlayerEvent js) × Option (Pending js) :=
  let line := stripAnsi raw
  match p.connection js line with
  | some e => (some e, pending)
  | none =>
      match groups (p.list.bind (·.line)) line with
      | some g => (none, some ⟨now, p.collect js (fresh now pending) g⟩)
      | none =>
          match p.list, p.list.bind fun list => list.pattern line with
          | some list, some g =>
              if list.line.isSome then (finish js (fresh now pending) g, none)
              else
                match g "names" with
                | some names => (some (.list (p.parseListAnswer js list names)), pending)
                | none => (p.refreshed js line, pending)
          | _, _ => (p.refreshed js line, pending)

end Server.Players
