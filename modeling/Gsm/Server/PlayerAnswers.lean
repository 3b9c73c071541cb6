import Gsm.Server.PlayerConsole
import Mathlib.Data.List.Dedup
import Mathlib.Data.List.Induction
import Mathlib.Data.List.Perm.Subperm

/-!
# Answers over several lines

What one matcher says of a template whose list answers have a line for each player. The players of an
answer are those of the player lines since the last closing line, as far back as there is no gap among
them; but no more than the first thousand of them.
-/

open Js

namespace Server.Players

variable {js : Builtins}

/-! ## The lines of an answer -/

/-- What a line is for a list answer; one that names a player who joins, leaves or gets an id is none. -/
inductive LineKind where
  | player (g : Groups)
  | closing (g : Groups)
  | other

/-- What the matcher takes a line for -/
def TemplatePlayers.kind (js : Builtins) (p : TemplatePlayers) (raw : Text) : LineKind :=
  let line := stripAnsi raw
  if (p.connection js line).isSome then .other
  else
    match groups (p.list.bind (·.line)) line, p.list.bind fun list => list.pattern line with
    | some g, _ => .player g
    | none, some g => .closing g
    | none, none => .other

/-- The player lines since the last closing line, each with its time -/
def TemplatePlayers.since (js : Builtins) (p : TemplatePlayers) (lines : List (ℕ × Text)) : List (ℕ × Groups) :=
  lines.foldl (fun l line =>
    match p.kind js line.2 with
    | .player g => l ++ [(line.1, g)]
    | .closing _ => []
    | .other => l) []

/-- From the last line back, as long as each is near the one behind it -/
def backFrom : ℕ → List (ℕ × Groups) → List Groups
  | _, [] => []
  | now, (time, g) :: earlier => if now - time ≤ listLineGapMs then g :: backFrom time earlier else []

/-- The player lines behind the last gap -/
def behindGap (now : ℕ) (l : List (ℕ × Groups)) : List Groups := (backFrom now l.reverse).reverse

/-- The player lines that an answer which is closed now is made of -/
def TemplatePlayers.answerLines (js : Builtins) (p : TemplatePlayers) (now : ℕ) (lines : List (ℕ × Text)) :
    List Groups :=
  behindGap now (p.since js lines)

/-- Names as they are compared -/
def keysOf (js : Builtins) (names : List Text) : List Text := names.map js.toLowerCase

/-- The keys of the valid names on player lines -/
def TemplatePlayers.keysIn (js : Builtins) (p : TemplatePlayers) (l : List Groups) : List Text :=
  keysOf js (l.filterMap p.nameIn)

/-- The keys of the players of an answer -/
def Answer.keys (a : Answer js) : List Text := keysOf js (a.players.map SeenPlayer.name)

/-- The members of a list, each where it is first -/
def distinct (l : List Text) : List Text := l.reverse.dedup.reverse

variable {p : TemplatePlayers} {list : ListConfig} {pending : Option (Pending js)} {now time : ℕ} {raw : Text}
  {lines : List (ℕ × Text)} {l : List (ℕ × Groups)} {g : Groups} {a : Answer js} {gs : List Groups}

theorem behindGap_concat (now time : ℕ) (l : List (ℕ × Groups)) (g : Groups) :
    behindGap now (l ++ [(time, g)]) =
      if now - time ≤ listLineGapMs then behindGap time l ++ [g] else [] := by
  rw [behindGap, List.reverse_concat, backFrom]
  split
  · rw [List.reverse_cons, behindGap]
  · rfl

theorem distinct_concat (l : List Text) (x : Text) :
    distinct (l ++ [x]) = if x ∈ l then distinct l else distinct l ++ [x] := by
  rw [distinct, List.reverse_concat, distinct]
  split
  · next h => rw [List.dedup_cons_of_mem (List.mem_reverse.mpr h)]
  · next h => rw [List.dedup_cons_of_notMem (mt List.mem_reverse.mp h), List.reverse_cons]

theorem mem_distinct {l : List Text} {x : Text} : x ∈ distinct l ↔ x ∈ l := by
  rw [distinct, List.mem_reverse, List.mem_dedup, List.mem_reverse]

/-! ## What the matcher does with a line -/

/-- What is collected of the lines of an answer -/
def TemplatePlayers.collected (js : Builtins) (p : TemplatePlayers) (gs : List Groups) : Answer js :=
  gs.foldl (p.collect js) (Answer.empty js)

/-- Who joins, leaves or gets an id is no list of players. -/
theorem connection_ne_list {line : Text} {e : PlayerEvent js} (h : p.connection js line = some e)
    (a : Answer js) : e ≠ .list a := by
  rw [TemplatePlayers.connection] at h
  split at h
  · rw [← Option.some.inj h]
    exact nofun
  split at h
  · rw [← Option.some.inj h]
    exact nofun
  split at h
  · rw [← Option.some.inj h]
    exact nofun
  · exact nomatch h

theorem refreshed_ne_list {line : Text} (a : Answer js) : p.refreshed js line ≠ some (.list a) := by
  rw [TemplatePlayers.refreshed]
  rcases groups p.refresh line with _ | g
  · exact nofun
  · exact fun h => nomatch Option.some.inj h

/-- A player line adds to what is pending, a closing line ends it, and all others leave it. -/
theorem matchLine_kind (hlist : p.list = some list) (hline : list.line.isSome = true) (now : ℕ)
    (pending : Option (Pending js)) (raw : Text) :
    match p.kind js raw with
    | .player g => p.matchLine js now pending raw = (none, some ⟨now, p.collect js (fresh now pending) g⟩)
    | .closing g => p.matchLine js now pending raw = (finish js (fresh now pending) g, none)
    | .other => (p.matchLine js now pending raw).2 = pending ∧
        ∀ a, (p.matchLine js now pending raw).1 ≠ some (.list a) := by
  rw [TemplatePlayers.kind, TemplatePlayers.matchLine]
  rcases hconn : p.connection js (stripAnsi raw) with _ | e
  · rw [hlist]
    simp only [Option.isSome_none, Bool.false_eq_true, if_false, Option.bind_some]
    rcases groups list.line (stripAnsi raw) with _ | g
    · rcases list.pattern (stripAnsi raw) with _ | g
      · exact ⟨rfl, refreshed_ne_list⟩
      · exact if_pos hline
    · rfl
  · exact ⟨rfl, fun a h => connection_ne_list hconn a (Option.some.inj h)⟩

/-! ## Along the lines -/

theorem since_concat (lines : List (ℕ × Text)) (now : ℕ) (raw : Text) :
    p.since js (lines ++ [(now, raw)]) =
      match p.kind js raw with
      | .player g => p.since js lines ++ [(now, g)]
      | .closing _ => []
      | .other => p.since js lines := by
  rw [TemplatePlayers.since, List.foldl_append]
  rfl

theorem collected_concat (gs : List Groups) (g : Groups) :
    p.collected js (gs ++ [g]) = p.collect js (p.collected js gs) g := by
  rw [TemplatePlayers.collected, List.foldl_append]
  rfl

/-- After any lines the matcher has at hand what is collected of the answer under way. -/
theorem fresh_matchLines (hlist : p.list = some list) (hline : list.line.isSome = true)
    (lines : List (ℕ × Text)) (now : ℕ) :
    fresh now (p.matchLines (none : Option (Pending js)) lines).2 = p.collected js (p.answerLines js now lines) := by
  induction lines using List.reverseRecOn generalizing now with
  | nil => rfl
  | append_singleton lines line ih =>
    obtain ⟨time, raw⟩ := line
    have hstep : (p.matchLines (none : Option (Pending js)) (lines ++ [(time, raw)])).2 =
        (p.matchLine js time (p.matchLines none lines).2 raw).2 := by
      rw [matchLines_append]
      rfl
    have hkind := matchLine_kind hlist hline time (p.matchLines (none : Option (Pending js)) lines).2 raw
    rw [hstep, TemplatePlayers.answerLines, since_concat]
    rcases h : p.kind js raw with g | g | _ <;> rw [h] at hkind <;> dsimp only at hkind ⊢
    · rw [hkind, behindGap_concat, fresh]
      dsimp only
      split
      · rw [ih time, collected_concat]
        rfl
      · rfl
    · rw [hkind]
      rfl
    · rw [hkind.1]
      exact ih now

/-! ## What is collected -/

theorem keys_push (a : Answer js) (x : SeenPlayer) :
    (a.push x).keys = if js.toLowerCase x.name ∈ a.keys then a.keys else a.keys ++ [js.toLowerCase x.name] := by
  have hkeys : a.keys = a.players.map fun y => js.toLowerCase y.name := by
    rw [Answer.keys, keysOf, List.map_map]
    rfl
  rw [Answer.push, hkeys]
  split
  · exact hkeys
  · show keysOf js ((a.players ++ [x]).map SeenPlayer.name) = _
    rw [keysOf, List.map_map, List.map_append]
    rfl

theorem length_keys (a : Answer js) : a.keys.length = a.players.length := by
  rw [Answer.keys, keysOf, List.length_map, List.length_map]

/-- The first thousand names, none twice -/
theorem keys_collected (gs : List Groups) :
    (p.collected js gs).keys = (distinct (p.keysIn js gs)).take listMaxEntries := by
  induction gs using List.reverseRecOn with
  | nil => rfl
  | append_singleton gs g ih =>
    rw [collected_concat, TemplatePlayers.collect, TemplatePlayers.keysIn, keysOf, List.filterMap_append,
      List.map_append]
    rcases hname : p.nameIn g with _ | name
    · simp only [List.filterMap_cons, hname, List.filterMap_nil, List.map_nil, List.append_nil]
      exact ih
    simp only [List.filterMap_cons, hname, List.filterMap_nil, List.map_cons, List.map_nil]
    change _ = (distinct (p.keysIn js gs ++ [js.toLowerCase name])).take listMaxEntries
    rw [distinct_concat]
    have hlen := length_keys (p.collected js gs)
    rw [ih, List.length_take] at hlen
    split
    · next hroom =>
      -- all names so far are in the answer
      have hall : (distinct (p.keysIn js gs)).take listMaxEntries = distinct (p.keysIn js gs) :=
        List.take_of_length_le (by omega)
      rw [keys_push, ih, hall]
      by_cases hmem : js.toLowerCase name ∈ p.keysIn js gs
      · rw [if_pos (mem_distinct.mpr hmem), if_pos hmem, hall]
      · rw [if_neg (mt mem_distinct.mp hmem), if_neg hmem, List.take_of_length_le]
        rw [List.length_append, List.length_singleton]
        omega
    · rw [ih]
      split
      · rfl
      · rw [List.take_append_of_le_length (by omega)]

/-- Each player stands on a line with this name and id. -/
theorem mem_collected {gs : List Groups} {x : SeenPlayer} (hx : x ∈ (p.collected js gs).players) :
    ∃ g ∈ gs, p.nameIn g = some x.name ∧ idIn g = x.id := by
  induction gs using List.reverseRecOn with
  | nil => exact nomatch hx
  | append_singleton gs g ih =>
    have hbefore : x ∈ (p.collected js gs).players → ∃ g' ∈ gs ++ [g], p.nameIn g' = some x.name ∧ idIn g' = x.id := by
      intro h
      obtain ⟨g', hg', hx'⟩ := ih h
      exact ⟨g', List.mem_append_left _ hg', hx'⟩
    rw [collected_concat, TemplatePlayers.collect] at hx
    rcases hname : p.nameIn g with _ | name
    · rw [hname] at hx
      exact hbefore hx
    · rw [hname] at hx
      dsimp only at hx
      split at hx
      · rw [Answer.push] at hx
        split at hx
        · exact hbefore hx
        · rcases List.mem_append.mp hx with hx | hx
          · exact hbefore hx
          · rw [List.mem_singleton.mp hx]
            exact ⟨g, List.mem_append_right _ List.mem_cons_self, hname, rfl⟩
      · exact hbefore hx

/-- A closing line, and a count in it that is the number of players if there is one -/
theorem finish_eq_some {g : Groups} {a a' : Answer js} :
    finish js a' g = some (.list a) ↔
      a = a' ∧ ∀ count, g "count" = some count → js.isNumber count a'.players.length = true := by
  simp only [finish, Option.all_eq_true]
  split
  · next h =>
    rw [Option.some.injEq, PlayerEvent.list.injEq]
    exact ⟨fun heq => ⟨heq.symm, fun count hcount => h count hcount⟩, fun heq => heq.1.symm⟩
  · next h =>
    exact iff_of_false nofun fun heq => h fun count hcount => heq.2 count hcount

/-- A list of players comes with a closing line, if that states no count or just their number, and with no other
line. The players are those of the player lines since the closing line before it, as far back as there is no gap:
each once, whatever the case of the name, in their order, and the first thousand of them at most. -/
theorem listed (hlist : p.list = some list) (hline : list.line.isSome = true) (before : List (ℕ × Text))
    (now : ℕ) (raw : Text) (a : Answer js)
    (h : (p.matchLine js now (p.matchLines none before).2 raw).1 = some (.list a)) :
    (∃ g, p.kind js raw = .closing g ∧
        ∀ count, g "count" = some count → js.isNumber count a.players.length = true) ∧
      a.keys = (distinct (p.keysIn js (p.answerLines js now before))).take listMaxEntries ∧
      ∀ x ∈ a.players, ∃ g ∈ p.answerLines js now before, p.nameIn g = some x.name ∧ idIn g = x.id := by
  have hkind := matchLine_kind hlist hline now (p.matchLines (none : Option (Pending js)) before).2 raw
  rcases hk : p.kind js raw with g | g | _ <;> rw [hk] at hkind <;> dsimp only at hkind
  · rw [hkind] at h
    exact nomatch h
  · rw [hkind, fresh_matchLines hlist hline, finish_eq_some] at h
    obtain ⟨rfl, hcount⟩ := h
    exact ⟨⟨g, rfl, hcount⟩, keys_collected _, fun x hx => mem_collected hx⟩
  · exact absurd h (hkind.2 a)

/-- The line of a player in an answer of `dashList` -/
def dashLine (name : Text) : ℕ × Text := (0, text "- " ++ name)

theorem listed_bob : ∃ a, (dashList.matchLine plainText 10000
      (dashList.matchLines none [dashLine (text "bob")]).2 (text "end")).1 = some (.list a) ∧
    a.keys = [text "bob"] := by
  have hevent : (dashList.matchLine plainText 10000
      (dashList.matchLines none [dashLine (text "bob")]).2 (text "end")).1 = some (.list
        (dashList.collected plainText (dashList.answerLines plainText 10000 [dashLine (text "bob")]))) := by
    decide +kernel
  exact ⟨_, hevent, (listed (p := dashList) rfl rfl _ _ _ _ hevent).2.1⟩

/-! ## More than a thousand players -/

theorem stripAnsi_plain {s : Text} (h : ∀ u ∈ s, u ≠ 0x1B) : stripAnsi s = s := by
  rw [stripAnsi]
  induction s with
  | nil => rfl
  | cons u s ih =>
    have hu := h u List.mem_cons_self
    rw [stripAnsiFrom, ih fun v hv => h v (List.mem_cons_of_mem _ hv)]
    exact fun _ hesc _ => absurd hesc hu

/-- The player lines that are all read at once -/
theorem behindGap_together {l : List (ℕ × Groups)} (h : ∀ x ∈ l, x.1 = now) :
    behindGap now l = l.map Prod.snd := by
  induction l using List.reverseRecOn with
  | nil => rfl
  | append_singleton l x ih =>
    obtain ⟨time, g⟩ := x
    obtain rfl : time = now := h _ (List.mem_append_right _ List.mem_cons_self)
    rw [behindGap_concat, if_pos (by omega), ih fun x hx => h x (List.mem_append_left _ hx), List.map_append]
    rfl

/-- The groups of a line of `dashList` -/
def dashGroups (name : Text) : Groups := fun g => if g = "name" then some name else none

theorem kind_dashLine {name : Text} (h : ∀ u ∈ name, u ≠ 0x1B) :
    dashList.kind plainText (dashLine name).2 = .player (dashGroups name) := by
  have hplain : stripAnsi (dashLine name).2 = text "- " ++ name := by
    refine stripAnsi_plain fun u hu => ?_
    rcases List.mem_append.mp hu with hu | hu
    · have hdash : (text "- ").all (· != 0x1B) = true := by decide
      exact bne_iff_ne.mp (List.all_eq_true.mp hdash u hu)
    · exact h u hu
  have hconn : dashList.connection plainText (text "- " ++ name) = none := rfl
  have hline : groups (dashList.list.bind (·.line)) (text "- " ++ name) = some (dashGroups name) := rfl
  rw [TemplatePlayers.kind, hplain, hconn, hline]
  rfl

/-- One line for each player -/
theorem since_dashLines {names : List Text} (h : ∀ name ∈ names, ∀ u ∈ name, u ≠ 0x1B) :
    dashList.since plainText (names.map dashLine) = names.map fun name => (0, dashGroups name) := by
  induction names using List.reverseRecOn with
  | nil => rfl
  | append_singleton names name ih =>
    have hkind := kind_dashLine (h name (List.mem_append_right _ List.mem_cons_self))
    rw [List.map_append, List.map_append, List.map_cons, List.map_nil, dashLine, since_concat]
    change (match dashList.kind plainText (dashLine name).2 with
      | .player g => dashList.since plainText (names.map dashLine) ++ [(0, g)]
      | .closing _ => []
      | .other => dashList.since plainText (names.map dashLine)) = _
    rw [hkind, ih fun n hn => h n (List.mem_append_left _ hn)]
    rfl

theorem keysIn_dashLines {names : List Text} (h : ∀ name ∈ names, name ≠ [] ∧ ∀ u ∈ name, u ≠ 0x1B) :
    dashList.keysIn plainText (dashList.answerLines plainText 0 (names.map dashLine)) = names := by
  have htogether : ∀ x ∈ names.map fun name => (0, dashGroups name), x.1 = 0 := by
    intro x hx
    obtain ⟨name, -, rfl⟩ := List.mem_map.mp hx
    rfl
  have hnames : (names.map dashGroups).filterMap dashList.nameIn = names := by
    have hname : ∀ name ∈ names, (dashList.nameIn ∘ dashGroups) name = some name := by
      intro name hname
      have hvalid : dashList.validName name = true := by
        rw [TemplatePlayers.validName, bne_iff_ne.mpr (h name hname).1]
        rfl
      exact Option.filter_some_pos hvalid
    rw [List.filterMap_map, List.filterMap_congr hname, List.filterMap_some]
  rw [TemplatePlayers.answerLines, since_dashLines fun name hname => (h name hname).2,
    behindGap_together htogether, List.map_map]
  change keysOf plainText ((names.map dashGroups).filterMap dashList.nameIn) = names
  rw [hnames]
  exact List.map_id names

/-- `a`, `aa` and so on -/
def manyNames : List Text := (List.range (listMaxEntries + 1)).map fun n => List.replicate (n + 1) 97

theorem length_manyNames : manyNames.length = listMaxEntries + 1 := by
  rw [manyNames, List.length_map, List.length_range]

theorem nodup_manyNames : manyNames.Nodup := by
  refine List.Nodup.map (fun n m h => ?_) List.nodup_range
  have hlen := congrArg List.length h
  rw [List.length_replicate, List.length_replicate] at hlen
  omega

theorem of_mem_manyNames {name : Text} (h : name ∈ manyNames) : name ≠ [] ∧ ∀ u ∈ name, u ≠ 0x1B := by
  obtain ⟨n, -, rfl⟩ := List.mem_map.mp h
  refine ⟨nofun, fun u hu => ?_⟩
  rw [List.eq_of_mem_replicate hu]
  decide

/-- A thousand and one players are on the lines of an answer, and not all of them in it. -/
theorem listed_thousand : ∃ (before : List (ℕ × Text)) (a : Answer plainText),
    (dashList.matchLine plainText 0 (dashList.matchLines none before).2 (text "end")).1 = some (.list a) ∧
      ¬ ∀ key, key ∈ a.keys ↔ key ∈ dashList.keysIn plainText (dashList.answerLines plainText 0 before) := by
  set before := manyNames.map dashLine with hbefore
  set a := dashList.collected plainText (dashList.answerLines plainText 0 before) with ha
  refine ⟨before, a, ?_, fun hall => ?_⟩
  · have hend : dashList.kind plainText (text "end") = .closing fun _ => none := by
      rfl
    have hkind := matchLine_kind (p := dashList) rfl rfl 0
      (dashList.matchLines (none : Option (Pending plainText)) before).2 (text "end")
    rw [hend] at hkind
    rw [hkind, fresh_matchLines (p := dashList) rfl rfl, finish_eq_some]
    exact ⟨rfl, fun _ h => nomatch h⟩
  · rw [keysIn_dashLines fun name hname => of_mem_manyNames hname] at hall
    have hsub : manyNames ⊆ a.keys := fun name hname => (hall name).mpr hname
    have hle := (List.subperm_of_subset nodup_manyNames hsub).length_le
    have hfirst : (dashList.collected plainText (dashList.answerLines plainText 0 before)).keys = _ :=
      keys_collected _
    have hkeys := congrArg List.length hfirst
    rw [List.length_take] at hkeys
    rw [length_manyNames] at hle
    change listMaxEntries + 1 ≤ (dashList.collected plainText _).keys.length at hle
    omega

end Server.Players
