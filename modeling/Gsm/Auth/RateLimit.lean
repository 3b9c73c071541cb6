import Mathlib.Data.Nat.Basic
import Mathlib.Order.Basic

/-!
# The fixed-window rate limiter

`createRateLimiter` for one key. The sweep, which forgets entries that have ended, changes nothing
that a key can see.
-/

namespace Auth

/-- The options of `createRateLimiter`. -/
structure RateLimiter where
  windowMs : ℕ
  max : ℕ

/-- The hits of a key, and when they are forgotten. -/
structure Hits where
  count : ℕ
  resetAt : ℕ

structure CheckResult where
  ok : Bool
  retryAfterSeconds : ℕ
deriving DecidableEq

/-- `Math.ceil(ms / 1000)` -/
def ceilSeconds (ms : ℕ) : ℕ := (ms + 999) / 1000

namespace RateLimiter

variable (l : RateLimiter)

/-- A hit now begins a window. -/
def Begins (entry : Option Hits) (now : ℕ) : Prop := ∀ e, entry = some e → e.resetAt ≤ now

instance (entry : Option Hits) (now : ℕ) : Decidable (Begins entry now) :=
  match entry with
  | none => .isTrue fun _ h => nomatch h
  | some e => decidable_of_iff (e.resetAt ≤ now)
      ⟨fun h _ he => Option.some.inj he ▸ h, fun h => h e rfl⟩

/-- `check` -/
def check (entry : Option Hits) (now : ℕ) : CheckResult × Hits :=
  match entry with
  | none => (⟨true, 0⟩, ⟨1, now + l.windowMs⟩)
  | some e =>
      if e.resetAt ≤ now then (⟨true, 0⟩, ⟨1, now + l.windowMs⟩)
      else if l.max < e.count + 1 then
        (⟨false, ceilSeconds (e.resetAt - now)⟩, { e with count := e.count + 1 })
      else (⟨true, 0⟩, { e with count := e.count + 1 })

/-- `retryAfter` -/
def retryAfter (entry : Option Hits) (now : ℕ) : ℕ :=
  match entry with
  | none => 0
  | some e =>
      if e.resetAt ≤ now ∨ e.count < l.max then 0 else ceilSeconds (e.resetAt - now)

variable {l} {entry : Option Hits} {e : Hits} {now now' : ℕ}

theorem check_begins (h : Begins entry now) : (l.check entry now).2 = ⟨1, now + l.windowMs⟩ := by
  cases entry with
  | none => rfl
  | some e =>
    simp only [check]
    rw [if_pos (h e rfl)]

theorem check_goes_on (h : now < e.resetAt) :
    (l.check (some e) now).2 = { e with count := e.count + 1 } := by
  simp only [check]
  rw [if_neg (by omega)]
  split <;> rfl

/-- A hit succeeds when a window begins, or hits are left in the one that goes on. -/
theorem check_ok :
    (l.check entry now).1.ok = true ↔ ∀ e, entry = some e → now < e.resetAt → e.count < l.max := by
  rcases entry with _ | e
  · exact iff_of_true rfl nofun
  rw [check]
  split_ifs with hended hmax
  · refine iff_of_true rfl ?_
    rintro _ ⟨rfl⟩ hnow
    omega
  · refine iff_of_false nofun fun h => ?_
    have := h e rfl (by omega)
    omega
  · refine iff_of_true rfl ?_
    rintro _ ⟨rfl⟩ -
    omega

/-- A key that need not wait has hits left while its window lasts. -/
theorem retryAfter_eq_zero :
    l.retryAfter entry now = 0 ↔ ∀ e, entry = some e → now < e.resetAt → e.count < l.max := by
  cases entry with
  | none => simp [retryAfter]
  | some e =>
    simp only [retryAfter]
    constructor
    · rintro h _ ⟨rfl⟩ hnow
      by_contra hcount
      rw [if_neg (by omega)] at h
      unfold ceilSeconds at h
      omega
    · intro h
      by_cases hnow : e.resetAt ≤ now
      · rw [if_pos (.inl hnow)]
      · rw [if_pos (.inr (h e rfl (by omega)))]

/-- And it need not wait later, as long as it is not hit. -/
theorem retryAfter_mono (h : l.retryAfter entry now = 0) (hle : now ≤ now') :
    l.retryAfter entry now' = 0 := by
  rw [retryAfter_eq_zero] at h ⊢
  intro e he hnow
  exact h e he (by omega)

end RateLimiter

end Auth
