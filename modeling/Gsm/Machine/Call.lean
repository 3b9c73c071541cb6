import Mathlib.Tactic.TypeStar

/-!
# Calls under a context

A call to another process is made under a context that may end, and once it has ended every further
call under it fails. A call that is under way at that moment fails too, and may or may not have taken
effect.
-/

namespace Machine

/-- How a call ends. -/
inductive Answer where
  | done
  /-- it fails, and nothing has happened -/
  | failed
  /-- the context ends while the call is under way -/
  | cut (effect : Bool)
deriving DecidableEq

namespace Answer

variable {ctx : Bool} {x : Answer}

/-- The call has succeeded; `ctx` says whether the context was still good. -/
def ok (ctx : Bool) : Answer → Bool
  | .done => ctx
  | _ => false

/-- The call has taken effect. -/
def effect (ctx : Bool) : Answer → Bool
  | .done => ctx
  | .failed => false
  | .cut effect => ctx && effect

/-- Whether the context is still good afterwards. -/
def context (ctx : Bool) : Answer → Bool
  | .cut _ => false
  | _ => ctx

/-- What has succeeded has taken effect. -/
theorem effect_of_ok (h : x.ok ctx = true) : x.effect ctx = true := by
  cases x with
  | done => exact h
  | failed => cases h
  | cut effect => cases h

/-- Where a call succeeds, its context was good and stays good. -/
theorem context_of_ok (h : x.ok ctx = true) : ctx = true ∧ x.context ctx = true := by
  cases x with
  | done => exact ⟨h, h⟩
  | failed => cases h
  | cut effect => cases h

@[simp] theorem effect_ended : x.effect false = false := by
  cases x <;> rfl

@[simp] theorem ok_ended : x.ok false = false := by
  cases x <;> rfl

@[simp] theorem context_ended : x.context false = false := by
  cases x <;> rfl

/-- A call that takes effect is made under a good context. -/
theorem context_of_effect (h : x.effect ctx = true) : ctx = true := by
  cases ctx with
  | true => rfl
  | false => rw [effect_ended] at h; cases h

end Answer

end Machine
