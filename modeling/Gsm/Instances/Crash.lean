import Mathlib
import Gsm.Data.SlidingWindow
import Gsm.Instances.Manager

/-!
# The budget of crash restarts

`crash.go` for one instance. `crashRestartAllowed` of the manager's model counts milliseconds; here times
and durations are nanoseconds of the monotonic clock, and the other function is this one at whole
milliseconds.

A crash is recorded whether its restart is granted or not, so a restart is refused for crashes that were
refused as well.
-/

open Data

namespace Instances.Crash

def minDuration : ℤ := -2 ^ 63

def maxDuration : ℤ := 2 ^ 63 - 1

/-- `Time.Sub`: a difference that does not fit is the nearest one that does. -/
def sub (t u : ℤ) : ℤ := max minDuration (min maxDuration (t - u))

def minute : ℤ := 60 * 10 ^ 9

def crashBudget : ℕ := 3

def crashWindow : ℤ := 10 * minute

/-- Whether a crash counts for one that happens now. -/
def within (now t : ℤ) : Bool := sub now t < crashWindow

/-- `crashRestartAllowed`: whether a restart is within budget, the attempt and the pruned history. -/
def crashRestartAllowed (history : List ℤ) (now : ℤ) : Bool × ℕ × List ℤ :=
  let kept := history.filter (within now)
  let kept := kept ++ [now]
  let attempt := kept.length
  (attempt ≤ crashBudget, attempt, kept)

/-- The history after crashes that are fed through one after another. -/
def history (crashes : List ℤ) : List ℤ :=
  crashes.foldl (fun kept now => (crashRestartAllowed kept now).2.2) []

/-- The crashes whose restart is granted, from a history on. -/
def granted (kept : List ℤ) : List ℤ → List ℤ
  | [] => []
  | now :: crashes =>
      let (ok, _, kept) := crashRestartAllowed kept now
      if ok then now :: granted kept crashes else granted kept crashes

variable {crashes : List ℤ} {now t : ℤ}

/-! ## What is within the window -/

/-- The window is much shorter than what a duration can hold. -/
theorem within_iff : within now t = true ↔ now - t < crashWindow := by
  have hmin : minDuration < crashWindow := by decide
  have hmax : crashWindow ≤ maxDuration := by decide
  rw [within, decide_eq_true_iff, sub]
  omega

theorem narrows_within : SlidingWindow.Narrows within := by
  intro t now now' hle hn
  rw [within_iff] at hn ⊢
  omega

/-- The manager's function, on whole milliseconds. -/
theorem crashRestartAllowed_milliseconds (crashes : List ℕ) (now : ℕ) :
    crashRestartAllowed (crashes.map fun t : ℕ => (t : ℤ) * 10 ^ 6) (now * 10 ^ 6) =
      ((Instances.crashRestartAllowed crashes now).1, (Instances.crashRestartAllowed crashes now).2.1,
        (Instances.crashRestartAllowed crashes now).2.2.map fun t : ℕ => (t : ℤ) * 10 ^ 6) := by
  have hwithin : ∀ t : ℕ, within (now * 10 ^ 6) (t * 10 ^ 6) = decide (now - t < 10 * 60 * 1000) := by
    intro t
    rw [Bool.eq_iff_iff, within_iff, decide_eq_true_iff, crashWindow, minute]
    omega
  simp only [crashRestartAllowed, Instances.crashRestartAllowed, List.filter_map, List.map_append,
    List.length_append, List.length_map, Function.comp_def, hwithin]
  rfl

/-! ## What is recorded -/

theorem history_eq : history crashes = SlidingWindow.recorded within crashes := rfl

/-- What is kept is the crash, and every crash within the window before it. -/
theorem kept_eq (hmono : (crashes ++ [now]).Pairwise (· ≤ ·)) :
    (crashRestartAllowed (history crashes) now).2.2 = crashes.filter (within now) ++ [now] :=
  SlidingWindow.record_recorded narrows_within hmono

/-- A restart is granted unless the budget is used up by other crashes within the window. -/
theorem allowed_iff (hmono : (crashes ++ [now]).Pairwise (· ≤ ·)) :
    (crashRestartAllowed (history crashes) now).1 = true ↔
      (crashes.filter (within now)).length < crashBudget := by
  have hok : (crashRestartAllowed (history crashes) now).1 =
      decide ((crashRestartAllowed (history crashes) now).2.2.length ≤ crashBudget) := rfl
  rw [hok, decide_eq_true_iff, kept_eq hmono, List.length_append, List.length_singleton]
  omega

/-! ## Restarts in a window -/

theorem granted_append (kept crashes : List ℤ) (now : ℤ) :
    granted kept (crashes ++ [now]) = granted kept crashes ++
      if (crashRestartAllowed (crashes.foldl (fun kept now => (crashRestartAllowed kept now).2.2) kept)
        now).1 then [now] else [] := by
  induction crashes generalizing kept with
  | nil =>
    simp only [List.nil_append, List.foldl_nil, granted]
    rfl
  | cons c crashes ih =>
    simp only [List.cons_append, List.foldl_cons, granted]
    rw [ih]
    split <;> rfl

theorem granted_sublist (kept crashes : List ℤ) : (granted kept crashes).Sublist crashes := by
  induction crashes generalizing kept with
  | nil => exact List.Sublist.slnil
  | cons c crashes ih =>
    simp only [granted]
    split
    · exact (ih _).cons_cons c
    · exact (ih _).cons c

/-- However a window of time is chosen in which all crashes are within `crashWindow` of each other,
only as many restarts as the budget has are granted in it. -/
theorem granted_le {window : ℤ → Bool}
    (hwindow : ∀ t now, window t = true → window now = true → within now t = true)
    (hmono : crashes.Pairwise (· ≤ ·)) :
    ((granted [] crashes).filter window).length ≤ crashBudget := by
  induction crashes using List.reverseRecOn with
  | nil => exact Nat.zero_le _
  | append_singleton crashes now ih =>
    have hbefore := ih (List.pairwise_append.mp hmono).1
    rw [granted_append, List.filter_append, List.length_append]
    by_cases hok : (crashRestartAllowed (history crashes) now).1 = true ∧ window now = true
    · obtain ⟨hok, hnow⟩ := hok
      -- all crashes of the window count for this one, so there is room for it among them
      have hroom := (allowed_iff hmono).mp hok
      have hsome : ((granted [] crashes).filter window).length ≤ (crashes.filter window).length :=
        ((granted_sublist [] crashes).filter window).length_le
      have hnear : (crashes.filter window).length ≤ (crashes.filter (within now)).length :=
        (List.monotone_filter_right crashes fun t ht => hwindow t now ht hnow).length_le
      have hone : ((if (crashRestartAllowed (history crashes) now).1 = true then [now]
          else []).filter window).length ≤ 1 :=
        (List.length_filter_le _ _).trans (by split <;> simp)
      exact (Nat.add_le_add (hsome.trans hnear) hone).trans hroom
    · have hnone : (if (crashRestartAllowed (history crashes) now).1 = true then [now]
          else []).filter window = [] := by
        split
        · next h =>
          have hout : window now = false := Bool.eq_false_iff.mpr fun hw => hok ⟨h, hw⟩
          rw [List.filter_singleton, hout]
          rfl
        · rfl
      show _ + ((if (crashRestartAllowed (history crashes) now).1 = true then [now]
        else []).filter window).length ≤ _
      rw [hnone]
      exact hbefore

/-- In no window are more restarts granted than the budget has, and a restart is refused just when
the budget is used up by other crashes that lie within the window before it. -/
theorem restarts_within_budget (crashes : List ℤ) (hmono : crashes.Pairwise (· ≤ ·)) :
    (∀ start : ℤ, ((granted [] crashes).filter fun t =>
      start ≤ t ∧ t < start + crashWindow).length ≤ crashBudget) ∧
    (∀ stop : ℤ, ((granted [] crashes).filter fun t =>
      stop - crashWindow < t ∧ t ≤ stop).length ≤ crashBudget) ∧
    ∀ before now after, crashes = before ++ now :: after →
      ((crashRestartAllowed (history before) now).1 = false ↔
        crashBudget ≤ (before.filter fun t => now - t < crashWindow).length) := by
  refine ⟨fun start => granted_le ?_ hmono, fun stop => granted_le ?_ hmono, ?_⟩
  · intro t now ht hnow
    rw [decide_eq_true_iff] at ht hnow
    rw [within_iff]
    omega
  · intro t now ht hnow
    rw [decide_eq_true_iff] at ht hnow
    rw [within_iff]
    omega
  · intro before now after hsplit
    have hpre : (before ++ [now]).Pairwise (· ≤ ·) := by
      rw [hsplit, List.append_cons] at hmono
      exact (List.pairwise_append.mp hmono).1
    have hwithin : (fun t => decide (now - t < crashWindow)) = within now := by
      funext t
      rw [Bool.eq_iff_iff, decide_eq_true_iff, within_iff]
    rw [← Bool.not_eq_true, allowed_iff hpre, hwithin]
    omega

/-- Four crashes in a row, the last of which is refused. -/
theorem restarts_within_budget_four :
    ([0, 1, 2, 3] : List ℤ).Pairwise (· ≤ ·) ∧
      (crashRestartAllowed (history [0, 1, 2]) 3).1 = false := by
  have hmono : ([0, 1, 2, 3] : List ℤ).Pairwise (· ≤ ·) := by decide
  exact ⟨hmono, ((restarts_within_budget [0, 1, 2, 3] hmono).2.2 [0, 1, 2] 3 [] rfl).mpr (by decide)⟩

end Instances.Crash
