import Gsm.Auth.RateLimit
import Mathlib.Logic.Function.Basic
import Mathlib.Data.List.Count

/-!
# The rate limiter over a history of calls

`createRateLimiter` with all its keys and its sweep. `call` is what a call does once it has swept. A sweep takes away
entries that have ended, so a limiter that never sweeps answers every call alike (`answers_unswept`), and a window is
counted on that one.
-/

namespace Auth

/-- The entries by key, and the last sweep -/
structure Limiter (κ : Type) where
  hits : κ → Option Hits
  lastSweep : ℕ

/-- A call, with what each `Date.now()` in it answers. -/
inductive Call (κ : Type) where
  | check (key : κ) (sweepAt now : ℕ)
  | reset (key : κ)
  | retryAfter (key : κ) (now : ℕ)

inductive Reply where
  | checked (r : CheckResult)
  | done
  | seconds (n : ℕ)
deriving DecidableEq

/-- Time does not go back. -/
def Ordered {κ : Type} : ℕ → List (Call κ) → Prop
  | _, [] => True
  | t, .check _ sweepAt now :: calls => t ≤ sweepAt ∧ sweepAt ≤ now ∧ Ordered now calls
  | t, .reset _ :: calls => Ordered t calls
  | t, .retryAfter _ now :: calls => t ≤ now ∧ Ordered now calls

theorem Ordered.of_append {κ : Type} {t : ℕ} {calls post : List (Call κ)} (h : Ordered t (calls ++ post)) :
    Ordered t calls := by
  induction calls generalizing t with
  | nil => trivial
  | cons c calls ih =>
    match c with
    | .check _ _ _ => exact ⟨h.1, h.2.1, ih h.2.2⟩
    | .reset _ => exact ih h
    | .retryAfter _ _ => exact ⟨h.1, ih h.2⟩

namespace RateLimiter

variable {κ : Type} [DecidableEq κ] (l : RateLimiter)

def new (κ : Type) (now : ℕ) : Limiter κ := ⟨fun _ => none, now⟩

/-- `sweep` -/
def sweep (s : Limiter κ) (now : ℕ) : Limiter κ :=
  if now < s.lastSweep + l.windowMs then s
  else { lastSweep := now, hits := fun k => (s.hits k).filter fun v => ¬ v.resetAt ≤ now }

/-- A call, after its sweep -/
def call (s : Limiter κ) : Call κ → Limiter κ × Reply
  | .check key _ now =>
      ({ s with hits := Function.update s.hits key (some (l.check (s.hits key) now).2) },
        .checked (l.check (s.hits key) now).1)
  | .reset key => ({ s with hits := Function.update s.hits key none }, .done)
  | .retryAfter key now => (s, .seconds (l.retryAfter (s.hits key) now))

/-- Only a check sweeps. -/
def step (s : Limiter κ) (c : Call κ) : Limiter κ × Reply :=
  match c with
  | .check _ sweepAt _ => l.call (l.sweep s sweepAt) c
  | _ => l.call s c

/-- The calls of a history, one after another -/
def after (f : Limiter κ → Call κ → Limiter κ × Reply) (s : Limiter κ) : List (Call κ) → Limiter κ
  | [] => s
  | c :: calls => after f (f s c).1 calls

def answers (f : Limiter κ → Call κ → Limiter κ × Reply) (s : Limiter κ) : List (Call κ) → List Reply
  | [] => []
  | c :: calls => (f s c).2 :: answers f (f s c).1 calls

/-- How many checks of a key succeed -/
def succeeded (key : κ) : List (Call κ) → List Reply → ℕ
  | .check k _ _ :: calls, .checked r :: rest =>
      (if k = key ∧ r.ok = true then 1 else 0) + succeeded key calls rest
  | _ :: calls, _ :: rest => succeeded key calls rest
  | _, _ => 0

variable {l} {s s' : Limiter κ} {key : κ} {t now sweepAt : ℕ} {calls : List (Call κ)} {entry entry' : Option Hits}

/-! ## Sweeping -/

/-- The entry is the same, or it is gone and had ended by `t`. -/
def Alike (t : ℕ) (entry entry' : Option Hits) : Prop :=
  entry = entry' ∨ entry = none ∧ ∀ v, entry' = some v → v.resetAt ≤ t

theorem Alike.later (h : Alike t entry entry') (hle : t ≤ now) : Alike now entry entry' :=
  h.imp_right fun ⟨hnone, hended⟩ => ⟨hnone, fun v hv => (hended v hv).trans hle⟩

/-- An entry that has ended counts as none. -/
theorem Alike.check_eq (h : Alike now entry entry') : l.check entry now = l.check entry' now := by
  rcases h with rfl | ⟨rfl, hended⟩
  · rfl
  · rcases entry' with _ | v
    · rfl
    · rw [check, check, if_pos (hended v rfl)]

theorem Alike.retryAfter_eq (h : Alike now entry entry') : l.retryAfter entry now = l.retryAfter entry' now := by
  rcases h with rfl | ⟨rfl, hended⟩
  · rfl
  · rcases entry' with _ | v
    · rfl
    · rw [retryAfter, retryAfter, if_pos (.inl (hended v rfl))]

omit [DecidableEq κ] in
theorem alike_sweep (h : ∀ k, Alike t (s.hits k) (s'.hits k)) (hle : t ≤ now) (k : κ) :
    Alike now ((l.sweep s now).hits k) (s'.hits k) := by
  rw [sweep]
  split
  · exact (h k).later hle
  dsimp only
  rcases h k with heq | ⟨hnone, hended⟩
  · rw [← heq]
    rcases hs : s.hits k with _ | v
    · exact .inl rfl
    · by_cases hv : v.resetAt ≤ now
      · exact .inr ⟨by simp [hv], fun w hw => Option.some.inj hw ▸ hv⟩
      · refine .inl ?_
        rw [Option.filter_some, if_pos (decide_eq_true hv)]
  · rw [hnone]
    exact .inr ⟨rfl, fun v hv => (hended v hv).trans hle⟩

theorem alike_update (h : ∀ k, Alike t (s.hits k) (s'.hits k)) (entry : Option Hits) (k : κ) :
    Alike t (Function.update s.hits key entry k) (Function.update s'.hits key entry k) := by
  rcases eq_or_ne k key with rfl | hne
  · rw [Function.update_self, Function.update_self]
    exact .inl rfl
  · rw [Function.update_of_ne hne, Function.update_of_ne hne]
    exact h k

/-- A call gives the same answer with its sweep and without, and leaves the entries alike. -/
theorem step_alike {c : Call κ} (hordered : Ordered t (c :: calls)) (h : ∀ k, Alike t (s.hits k) (s'.hits k)) :
    (l.step s c).2 = (l.call s' c).2 ∧
      ∃ t', Ordered t' calls ∧ ∀ k, Alike t' ((l.step s c).1.hits k) ((l.call s' c).1.hits k) := by
  match c with
  | .check key sweepAt now =>
    obtain ⟨hsweep, hnow, hrest⟩ := hordered
    have hswept := fun k => (alike_sweep (l := l) h hsweep k).later hnow
    have hcheck := (hswept key).check_eq (l := l)
    rw [step, call, call]
    dsimp only
    rw [hcheck]
    exact ⟨rfl, now, hrest, fun k => alike_update hswept _ k⟩
  | .reset key => exact ⟨rfl, t, hordered, fun k => alike_update h none k⟩
  | .retryAfter key now =>
    obtain ⟨hnow, hrest⟩ := hordered
    have hlater := fun k => (h k).later hnow
    exact ⟨congrArg Reply.seconds (hlater key).retryAfter_eq, now, hrest, hlater⟩

/-- Sweeping changes no answer. -/
theorem answers_unswept (hordered : Ordered t calls) (h : ∀ k, Alike t (s.hits k) (s'.hits k)) :
    answers l.step s calls = answers l.call s' calls := by
  induction calls generalizing s s' t with
  | nil => rfl
  | cons c calls ih =>
    obtain ⟨hanswer, t', hrest, hnext⟩ := step_alike (l := l) hordered h
    rw [answers, answers, hanswer, ih hrest hnext]

theorem after_alike {pre : List (Call κ)} (hordered : Ordered t (pre ++ calls))
    (h : ∀ k, Alike t (s.hits k) (s'.hits k)) :
    ∃ t', Ordered t' calls ∧ ∀ k, Alike t' ((after l.step s pre).hits k) ((after l.call s' pre).hits k) := by
  induction pre generalizing s s' t with
  | nil => exact ⟨t, hordered, h⟩
  | cons c pre ih =>
    obtain ⟨-, t', hrest, hnext⟩ := step_alike (l := l) hordered h
    exact ih hrest hnext

/-! ## A window -/

/-- The calls do not reset the key, and check it only before its window ends. -/
def Within (key : κ) (ends : ℕ) (calls : List (Call κ)) : Prop :=
  .reset key ∉ calls ∧ ∀ sweepAt now, .check key sweepAt now ∈ calls → now < ends

omit [DecidableEq κ] in
theorem Within.tail {ends : ℕ} {c : Call κ} (h : Within key ends (c :: calls)) : Within key ends calls :=
  ⟨fun hmem => h.1 (.tail _ hmem), fun sweepAt now hmem => h.2 sweepAt now (.tail _ hmem)⟩

theorem hits_check {v : Hits} (sweepAt : ℕ) (hentry : s.hits key = some v) (hnow : now < v.resetAt) :
    (l.call s (.check key sweepAt now)).1.hits key = some { v with count := v.count + 1 } := by
  rw [call]
  dsimp only
  rw [Function.update_self, hentry, check_goes_on hnow]

theorem hits_check_begins (sweepAt : ℕ) (h : Begins (s.hits key) now) :
    (l.call s (.check key sweepAt now)).1.hits key = some ⟨1, now + l.windowMs⟩ := by
  rw [call]
  dsimp only
  rw [Function.update_self, check_begins h]

theorem hits_check_other {k : κ} (hk : k ≠ key) :
    (l.call s (.check k sweepAt now)).1.hits key = s.hits key :=
  Function.update_of_ne hk.symm _ s.hits

theorem succeeded_check (k : κ) :
    succeeded key (.check k sweepAt now :: calls) (answers l.call s (.check k sweepAt now :: calls)) =
      (if k = key ∧ (l.check (s.hits k) now).1.ok = true then 1 else 0) +
        succeeded key calls (answers l.call (l.call s (.check k sweepAt now)).1 calls) := rfl

/-- With `v.count` hits of the key counted, only so many more succeed as are left. -/
theorem succeeded_le {v : Hits} (hentry : s.hits key = some v) (hwithin : Within key v.resetAt calls) :
    succeeded key calls (answers l.call s calls) ≤ l.max - v.count := by
  induction calls generalizing s v with
  | nil => exact Nat.zero_le _
  | cons c calls ih =>
    match c with
    | .check k sweepAt now =>
      rw [succeeded_check]
      rcases eq_or_ne k key with rfl | hk
      · have hnow : now < v.resetAt := hwithin.2 sweepAt now List.mem_cons_self
        have hrest := ih (hits_check (l := l) sweepAt hentry hnow) hwithin.tail
        dsimp only at hrest
        split_ifs with h
        · have hleft : v.count < l.max := check_ok.1 h.2 v hentry hnow
          omega
        · omega
      · rw [if_neg (fun h => hk h.1), Nat.zero_add]
        exact ih ((hits_check_other hk).trans hentry) hwithin.tail
    | .reset k =>
      have hk : key ≠ k := fun h => hwithin.1 (h ▸ List.mem_cons_self)
      have hkept : (l.call s (.reset k)).1.hits key = some v := by
        rw [call]
        dsimp only
        rw [Function.update_of_ne hk, hentry]
      exact ih hkept hwithin.tail
    | .retryAfter k now => exact ih hentry hwithin.tail

/-- A window has at most `max` hits that succeed, the one that begins it included. -/
theorem succeeded_window (hmax : 1 ≤ l.max) (hbegins : Begins (s.hits key) now)
    (hwithin : Within key (now + l.windowMs) calls) :
    succeeded key (.check key sweepAt now :: calls) (answers l.call s (.check key sweepAt now :: calls)) ≤
      l.max := by
  rw [succeeded_check]
  have hrest := succeeded_le (l := l) (hits_check_begins sweepAt hbegins) hwithin
  dsimp only at hrest
  split_ifs <;> omega

theorem Begins.of_alike (h : Alike t entry entry') (hle : t ≤ now) (hbegins : Begins entry now) :
    Begins entry' now := by
  rcases h with rfl | ⟨-, hended⟩
  · exact hbegins
  · exact fun v hv => (hended v hv).trans hle

/-- Peeking is checking at the same moment, sweep included. -/
theorem retryAfter_iff_check :
    (l.step s (.retryAfter key now)).2 = .seconds 0 ↔
      ∃ r, (l.step s (.check key now now)).2 = .checked r ∧ r.ok = true := by
  have hswept : l.check ((l.sweep s now).hits key) now = l.check (s.hits key) now :=
    (alike_sweep (fun _ => .inl rfl) le_rfl key).check_eq
  have hpeek : (l.step s (.retryAfter key now)).2 = .seconds (l.retryAfter (s.hits key) now) := rfl
  have hcheck : (l.step s (.check key now now)).2 =
      .checked (l.check ((l.sweep s now).hits key) now).1 := rfl
  rw [hpeek, hcheck, hswept, Reply.seconds.injEq, retryAfter_eq_zero, ← check_ok]
  constructor
  · exact fun hok => ⟨_, rfl, hok⟩
  · rintro ⟨_, ⟨rfl⟩, hok⟩
    exact hok

/-- Of a limiter with a maximum of at least one and any history of calls: a window has at most `max` checks that
succeed, unless the key is reset; `retryAfter` is zero exactly when a check at that moment succeeds; and the calls are
answered as if nothing were ever swept. -/
theorem limits (hmax : 1 ≤ l.max) {start : ℕ} (hordered : Ordered start calls) :
    (∀ pre key sweepAt now mid post, calls = pre ++ .check key sweepAt now :: (mid ++ post) →
      Begins ((after l.step (new κ start) pre).hits key) now → Within key (now + l.windowMs) mid →
      succeeded key (.check key sweepAt now :: mid)
        (answers l.step (after l.step (new κ start) pre) (.check key sweepAt now :: mid)) ≤ l.max) ∧
    (∀ pre, pre <+: calls → ∀ key now,
      ((l.step (after l.step (new κ start) pre) (.retryAfter key now)).2 = .seconds 0 ↔
        ∃ r, (l.step (after l.step (new κ start) pre) (.check key now now)).2 = .checked r ∧ r.ok = true)) ∧
    answers l.step (new κ start) calls = answers l.call (new κ start) calls := by
  refine ⟨?_, fun pre _ key now => retryAfter_iff_check, answers_unswept hordered fun _ => .inl rfl⟩
  rintro pre key sweepAt now mid post rfl hbegins hwithin
  have hsame : ∀ k, Alike start ((new κ start).hits k) ((new κ start).hits k) := fun _ => .inl rfl
  obtain ⟨t, hrest, halike⟩ := after_alike (l := l) hordered hsame
  have hwindow : Ordered t (.check key sweepAt now :: mid) := Ordered.of_append hrest
  rw [answers_unswept hwindow halike]
  exact succeeded_window hmax (hbegins.of_alike (halike key) (hrest.1.trans hrest.2.1)) hwithin

/-- Two checks fill a window of two, and the third fails; another key has its own window. -/
theorem limits_two :
    ∃ l : RateLimiter, 1 ≤ l.max ∧ succeeded "a" [.check "a" 5 5, .check "b" 6 6, .check "a" 7 7, .check "a" 8 8]
      (answers l.step (new String 0) [.check "a" 5 5, .check "b" 6 6, .check "a" 7 7, .check "a" 8 8]) ≤ l.max :=
  ⟨⟨60000, 2⟩, by decide,
    (limits (l := ⟨60000, 2⟩) (by decide)
      (show Ordered 0 [.check "a" 5 5, .check "b" 6 6, .check "a" 7 7, .check "a" 8 8, .check "a" 60005 60005] from
        ⟨by omega, by omega, by omega, by omega, by omega, by omega, by omega, by omega, by omega, by omega,
          trivial⟩)).1 [] "a" 5 5 [.check "b" 6 6, .check "a" 7 7, .check "a" 8 8] [.check "a" 60005 60005] rfl
      nofun ⟨by simp, fun sweepAt now hmem => by simp at hmem ⊢; omega⟩⟩

end RateLimiter

end Auth
