import Mathlib.Data.List.Induction
import Mathlib.Order.Basic
import Mathlib.Order.Lattice

/-!
# Events in a sliding window

A list of events that is pruned whenever one more is recorded. As long as time does not go back, nothing
is lost by it: what is too old for one event is too old for every later one. So the pruned list knows of
all that has happened lately.
-/

namespace Data.SlidingWindow

variable {τ : Type*} {near : τ → τ → Bool} {kept l : List τ} {now : τ}

/-- One more event: what is not near it is forgotten. -/
def record (near : τ → τ → Bool) (kept : List τ) (now : τ) : List τ := kept.filter (near now) ++ [now]

/-- What is left of a list of events that are recorded one after another. -/
def recorded (near : τ → τ → Bool) (l : List τ) : List τ := l.foldl (record near) []

theorem recorded_concat : recorded near (l ++ [now]) = record near (recorded near l) now := by
  rw [recorded, List.foldl_append]
  rfl

variable [LinearOrder τ]

/-- What is near an event is near all that happens before it. -/
def Narrows (near : τ → τ → Bool) : Prop :=
  ∀ ⦃t now now' : τ⦄, now ≤ now' → near now' t = true → near now t = true

/-- Among what is kept, an event finds all that is near it. -/
theorem filter_recorded (hnear : Narrows near) (hl : (l ++ [now]).Pairwise (· ≤ ·)) :
    (recorded near l).filter (near now) = l.filter (near now) := by
  induction l using List.reverseRecOn generalizing now with
  | nil => rfl
  | append_singleton l c ih =>
    have hpre : (l ++ [c]).Pairwise (· ≤ ·) := (List.pairwise_append.mp hl).1
    have hle : c ≤ now := (List.pairwise_append.mp hl).2.2 c (by simp) now (by simp)
    have hboth : ∀ t, (near now t && near c t) = near now t := by
      intro t
      rcases hn : near now t with _ | _
      · rfl
      · rw [hnear hle hn]
        rfl
    rw [recorded_concat, record, List.filter_append, List.filter_append, List.filter_filter]
    simp only [hboth]
    congr 1
    -- the same for the list before `c`, whose events `now` comes after as well
    have hskip : (l ++ [now]).Pairwise (· ≤ ·) :=
      hl.sublist ((List.sublist_append_left l [c]).append_right [now])
    exact ih hskip

/-- An event is recorded beside all that is near it. -/
theorem record_recorded (hnear : Narrows near) (hl : (l ++ [now]).Pairwise (· ≤ ·)) :
    record near (recorded near l) now = l.filter (near now) ++ [now] := by
  rw [record, filter_recorded hnear hl]

end Data.SlidingWindow
