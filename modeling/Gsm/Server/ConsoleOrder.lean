import Gsm.Server.Console

/-!
# The order of console lines

Where messages arrive one at a time, each after the handler of the one before is done, the lines
reach the history, the browsers and the player tracker as they came. A message that arrives while a
handler waits can overtake it.
-/

open GoStd Data Machine

namespace Server

variable {s s' : Console} {as : List ConsoleAction}

/-- All messages have been pushed, in the order in which they arrived. -/
theorem console_pushed_in_order (hco : Coherent s) (hidle : s.handlers = [])
    (hrun : exec Console.step s as = some s') (hone : Along Console.step OneAtATime s as)
    (hdone : s'.handlers = []) : Pushed s s' (as.filterMap (ConsoleAction.push? s.rows)) := by
  obtain ⟨ps, h⟩ := exec_handled hco hrun
  have hpending : ∀ {s : Console}, s.handlers = [] → pending s = [] := by
    intro s hs
    rw [pending, hs, List.filterMap_nil]
  have heq := (h.order ⟨by simp [hidle], hone⟩).1
  rw [hpending hidle, hpending hdone, List.nil_append, List.append_nil] at heq
  rw [heq]
  exact h.pushed

theorem second_pos : 0 < 1000 := by decide

/-- Instance 1, whose id is known; it is a while since the settings were read. -/
def quietConsole : Console where
  rows := fun uuid => if uuid = "game".toList then some 1 else none
  idByUuid := fun uuid => if uuid = "game".toList then some 1 else none
  capacityLoaded := 0
  capacity := ⟨1000, second_pos⟩
  settings := none
  buffers := fun _ _ => none
  browsers := []
  players := []
  handlers := []

theorem coherent_quietConsole : Coherent quietConsole := fun _ _ h => h

def joined : List ConsoleLine := [⟨70000, "Steve joined the game".toList⟩]

def left : List ConsoleLine := [⟨70050, "Steve left the game".toList⟩]

/-- The handler of the first message gets the settings before the second message arrives. -/
def oneByOne : List ConsoleAction :=
  [.arrive 70001 "game".toList .console joined, .general 0 ⟨1000, second_pos⟩ 70010,
    .arrive 70051 "game".toList .console left]

theorem oneByOne_oneAtATime : Along Console.step OneAtATime quietConsole oneByOne := by
  refine ⟨rfl, fun _ h => ?_⟩
  cases h
  refine ⟨trivial, fun _ h => ?_⟩
  cases h
  exact ⟨rfl, fun _ _ => trivial⟩

theorem console_pushed_oneByOne :
    ∃ s', exec Console.step quietConsole oneByOne = some s' ∧
      Pushed quietConsole s' [⟨1, .console, joined⟩, ⟨1, .console, left⟩] :=
  ⟨_, rfl, console_pushed_in_order coherent_quietConsole rfl rfl oneByOne_oneAtATime rfl⟩

/-- The second message arrives while the handler of the first waits for the settings. -/
def overtaking : List ConsoleAction :=
  [.arrive 70001 "game".toList .console joined, .arrive 70051 "game".toList .console left,
    .general 0 ⟨1000, second_pos⟩ 70060]

theorem console_overtaken :
    ∃ s s' as, Coherent s ∧ s.handlers = [] ∧ exec Console.step s as = some s' ∧ s'.handlers = [] ∧
      as.filterMap (ConsoleAction.push? s.rows) = [⟨1, .console, joined⟩, ⟨1, .console, left⟩] ∧
      s'.players = [(1, left), (1, joined)] ∧
      held (s'.buffers 1 .console) = left ++ joined ∧
      ¬ Pushed s s' (as.filterMap (ConsoleAction.push? s.rows)) := by
  refine ⟨quietConsole, _, overtaking, coherent_quietConsole, rfl, rfl, rfl, rfl, rfl, rfl,
    fun h => ?_⟩
  have hplayers := h.players
  revert hplayers
  decide

end Server
