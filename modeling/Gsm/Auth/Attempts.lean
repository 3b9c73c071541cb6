import Gsm.Auth.RateLimit
import Gsm.Machine.Exec
import Gsm.Machine.Handlers
import Mathlib.Data.List.Count
import Mathlib.Logic.Function.Basic

/-!
# Wrong codes

`verifyLogin` and `confirmEmail` of one user, taken apart at their awaits: a request loads its
challenge and asks whether the user is blocked, compares the code, and counts a wrong one on the
challenge and on the user. The attempts are read with the challenge and written back after the
comparison, so that both limits hold only where requests do not come between.
-/

open Machine

namespace Auth

/-- `MAX_ATTEMPTS` -/
def maxAttempts : ℕ := 5

/-- `CODE_TTL_MS` -/
def codeTtlMs : ℕ := 10 * 60 * 1000

/-- `userFailures` -/
def userFailures : RateLimiter := ⟨60 * 60 * 1000, 10⟩

/-- `LoginChallenge.purpose` -/
inductive Purpose where
  | login
  | enable
deriving DecidableEq

/-- `LoginChallenge` -/
structure Challenge where
  purpose : Purpose
  attempts : ℕ
  expiresAt : ℕ

/-- A request, by what it waits for. -/
inductive Guess where
  /-- `load` -/
  | loading (c : ℕ) (purpose : Purpose)
  /-- the factor's own check, with the attempts that were loaded -/
  | comparing (c attempts : ℕ)
  /-- `challenge.destroy`, after the right code -/
  | finishing (c : ℕ)
  /-- `challenge.save` or `challenge.destroy` of `reject`, with the attempts counted up -/
  | rejecting (c attempts : ℕ)
  /-- `userFailures.check`, after it -/
  | counting
deriving DecidableEq

/-- One user's challenges and wrong codes. -/
structure Desk where
  challenges : ℕ → Option Challenge
  /-- the next id that no challenge has had -/
  next : ℕ
  /-- the user's entry of `userFailures` -/
  failures : Option Hits
  now : ℕ
  tasks : List Guess
  /-- the wrong codes that were compared, with the challenge and the time -/
  wrong : List (ℕ × ℕ)
  /-- when the windows of `userFailures` began -/
  windows : List ℕ

inductive DeskAction where
  /-- `LoginChallenge.create` -/
  | create (purpose : Purpose)
  /-- `LoginChallenge.destroy` of `newChallenge` -/
  | discard (purpose : Purpose)
  /-- a request arrives -/
  | request (c : ℕ) (purpose : Purpose)
  /-- the `i`-th request has its challenge, if there is one -/
  | load (i : ℕ) (disabled : Bool)
  /-- the code is compared -/
  | compare (i : ℕ) (ok : Bool)
  | store (i : ℕ)
  | count (i : ℕ)
  | finish (i : ℕ)
  | tick (ms : ℕ)

namespace Desk

/-- The `i`-th request goes on. -/
def goOn (s : Desk) (i : ℕ) (next : List Guess) : Desk :=
  { s with tasks := replaceAt s.tasks i next }

/-- `load` and `assertNotBlocked` -/
def loaded (s : Desk) (c : ℕ) (purpose : Purpose) (disabled : Bool) : List Guess :=
  match s.challenges c with
  | none => []
  | some ch =>
      if ch.purpose = purpose ∧ s.now < ch.expiresAt ∧ disabled = false ∧
          userFailures.retryAfter s.failures s.now = 0 then [.comparing c ch.attempts]
      else []

/-- What `reject` makes of the challenge. -/
def rejected (s : Desk) (c attempts : ℕ) : ℕ → Option Challenge :=
  Function.update s.challenges c
    (if maxAttempts ≤ attempts then none
      else (s.challenges c).map fun ch => { ch with attempts := attempts })

def step (s : Desk) : DeskAction → Option Desk
  | .create purpose => some { s with
      challenges := Function.update s.challenges s.next
        (some ⟨purpose, 0, s.now + codeTtlMs⟩)
      next := s.next + 1 }
  | .discard purpose => some { s with
      challenges := fun c => (s.challenges c).filter (·.purpose ≠ purpose) }
  | .request c purpose => some { s with tasks := s.tasks ++ [.loading c purpose] }
  | .load i disabled =>
      match s.tasks[i]? with
      | some (.loading c purpose) => some (s.goOn i (s.loaded c purpose disabled))
      | _ => none
  | .compare i ok =>
      match s.tasks[i]? with
      | some (.comparing c attempts) =>
          if ok then some (s.goOn i [.finishing c])
          else some { s.goOn i [.rejecting c (attempts + 1)] with
            wrong := s.wrong ++ [(c, s.now)] }
      | _ => none
  | .store i =>
      match s.tasks[i]? with
      | some (.rejecting c attempts) =>
          some { s.goOn i [.counting] with challenges := s.rejected c attempts }
      | _ => none
  | .count i =>
      match s.tasks[i]? with
      | some .counting => some { s.goOn i [] with
          failures := some (userFailures.check s.failures s.now).2
          windows := if RateLimiter.Begins s.failures s.now then s.windows ++ [s.now]
            else s.windows }
      | _ => none
  | .finish i =>
      match s.tasks[i]? with
      | some (.finishing c) =>
          some { s.goOn i [] with challenges := Function.update s.challenges c none }
      | _ => none
  | .tick ms => some { s with now := s.now + ms }

end Desk

/-- A wrong code that is not counted yet. -/
def Guess.isRejecting : Guess → Bool
  | .rejecting _ _ => true
  | .counting => true
  | _ => false

/-- A code that is not compared yet. -/
def Guess.isComparing : Guess → Bool
  | .comparing _ _ => true
  | _ => false

namespace Desk

/-- How many wrong codes were compared against the challenge. -/
def against (s : Desk) (c : ℕ) : ℕ := s.wrong.countP (·.1 = c)

/-- How many were compared in the window that began at `w`. -/
def within (s : Desk) (w : ℕ) : ℕ :=
  s.wrong.countP fun x => w ≤ x.2 ∧ x.2 < w + userFailures.windowMs

/-- A challenge is loaded while no wrong code is being counted, and a wrong code is compared while
no other request has a challenge loaded or is counting a wrong code. -/
def Alone (s : Desk) : DeskAction → Prop
  | .load _ _ => ∀ t ∈ s.tasks, t.isRejecting = false
  | .compare i ok => ok = false → ∀ t ∈ replaceAt s.tasks i [],
      t.isComparing = false ∧ t.isRejecting = false
  | _ => True

instance (s : Desk) (a : DeskAction) : Decidable (s.Alone a) :=
  match a with
  | .load _ _ => inferInstanceAs (Decidable (∀ t ∈ s.tasks, t.isRejecting = false))
  | .compare i ok => inferInstanceAs (Decidable (ok = false → ∀ t ∈ replaceAt s.tasks i [],
      t.isComparing = false ∧ t.isRejecting = false))
  | .create _ => .isTrue trivial
  | .discard _ => .isTrue trivial
  | .request _ _ => .isTrue trivial
  | .store _ => .isTrue trivial
  | .count _ => .isTrue trivial
  | .finish _ => .isTrue trivial
  | .tick _ => .isTrue trivial

/-- A server that has just started, and no challenge. -/
structure Start (s : Desk) : Prop where
  challenges : ∀ c, s.challenges c = none
  failures : s.failures = none
  tasks : s.tasks = []
  wrong : s.wrong = []
  windows : s.windows = []

/-- How many wrong codes are not counted yet. -/
def uncounted (s : Desk) : ℕ := s.tasks.countP Guess.isRejecting

/-! ## Attempts on a challenge -/

/-- The attempts of a challenge, as they are stored and as requests have loaded them, are at least
the wrong codes compared against it; where one is still to be stored, its request knows. -/
structure Counted (s : Desk) : Prop where
  fresh : ∀ c, s.next ≤ c → s.challenges c = none ∧ s.against c = 0
  comparing : ∀ c n, .comparing c n ∈ s.tasks → s.against c ≤ n ∧ n < maxAttempts ∧ c < s.next
  rejecting : ∀ c n, .rejecting c n ∈ s.tasks → s.against c ≤ n
  rows : ∀ c ch, s.challenges c = some ch → ch.attempts < maxAttempts ∧
    (s.against c ≤ ch.attempts ∨ ∃ n, .rejecting c n ∈ s.tasks)
  bound : ∀ c, s.against c ≤ maxAttempts
  /-- while a wrong code is being counted, no other request has a challenge loaded -/
  apart : 0 < s.uncounted → ∀ t ∈ s.tasks, t.isComparing = false
  single : s.uncounted ≤ 1

variable {s s' s₀ : Desk} {a : DeskAction} {as : List DeskAction} {i c n : ℕ} {t u : Guess}
  {new : List Guess}

theorem uncounted_goOn (new : List Guess) (hi : s.tasks[i]? = some u) :
    (s.goOn i new).uncounted + [u].countP Guess.isRejecting =
      s.uncounted + new.countP Guess.isRejecting :=
  countP_replaceAt _ _ hi

theorem uncounted_pos : 0 < s.uncounted ↔ ∃ t ∈ s.tasks, t.isRejecting = true :=
  List.countP_pos_iff

/-- A request goes on that compares nothing and counts nothing, to something of that kind. -/
theorem Counted.goOn (h : s.Counted) (hi : s.tasks[i]? = some u) (hu : u.isRejecting = false)
    (hnew : ∀ t ∈ new, t.isComparing = false ∧ t.isRejecting = false) :
    (s.goOn i new).Counted := by
  have hcount : (s.goOn i new).uncounted = s.uncounted := by
    have hcp := uncounted_goOn new hi
    have hnew' : new.countP Guess.isRejecting = 0 :=
      List.countP_eq_zero.mpr fun t ht => by simp [(hnew t ht).2]
    have hu' : [u].countP Guess.isRejecting = 0 := by simp [hu]
    omega
  have hold : ∀ t ∈ (s.goOn i new).tasks, (t.isComparing ∨ t.isRejecting) → t ∈ s.tasks := by
    intro t ht hkind
    rcases mem_replaceAt ht with ht | ht
    · exact ht
    · rcases hkind with hkind | hkind
      · rw [(hnew t ht).1] at hkind
        cases hkind
      · rw [(hnew t ht).2] at hkind
        cases hkind
  constructor
  · exact h.fresh
  · exact fun c n hmem => h.comparing c n (hold _ hmem (.inl rfl))
  · exact fun c n hmem => h.rejecting c n (hold _ hmem (.inr rfl))
  · intro c ch hc
    obtain ⟨hlt, hle | ⟨n, hn⟩⟩ := h.rows c ch hc
    · exact ⟨hlt, .inl hle⟩
    · refine ⟨hlt, .inr ⟨n, mem_replaceAt_iff.mpr (.inl ?_)⟩⟩
      rcases (mem_iff_replaceAt hi).mp hn with rfl | hn
      · cases hu
      · exact hn
  · exact h.bound
  · rw [hcount]
    intro hpos t ht
    by_contra hcmp
    have hcmp' : t.isComparing = true := by simpa using hcmp
    rw [h.apart hpos t (hold t ht (.inl hcmp'))] at hcmp'
    cases hcmp'
  · rw [hcount]
    exact h.single

/-- Challenges that go take nothing away from the counts. -/
theorem Counted.fewer {rest : ℕ → Option Challenge} (h : s.Counted)
    (hrest : ∀ c ch, rest c = some ch → s.challenges c = some ch) :
    Counted { s with challenges := rest } := by
  refine ⟨fun c hc => ⟨?_, (h.fresh c hc).2⟩, h.comparing, h.rejecting, ?_, h.bound, h.apart,
    h.single⟩
  · show rest c = none
    by_contra hne
    obtain ⟨ch, hch⟩ := Option.ne_none_iff_exists'.mp hne
    cases (h.fresh c hc).1.symm.trans (hrest c ch hch)
  · exact fun c ch hc => h.rows c ch (hrest c ch hc)

theorem counted_create {purpose : Purpose} (h : s.Counted) : Counted { s with
    challenges := Function.update s.challenges s.next (some ⟨purpose, 0, s.now + codeTtlMs⟩)
    next := s.next + 1 } := by
  have hother : ∀ c, c ≠ s.next → Function.update s.challenges s.next
      (some ⟨purpose, 0, s.now + codeTtlMs⟩) c = s.challenges c :=
    fun c hc => Function.update_of_ne hc _ _
  refine ⟨?_, ?_, h.rejecting, ?_, h.bound, h.apart, h.single⟩
  · intro c hc
    have hlt : s.next < c := hc
    refine ⟨?_, (h.fresh c (by omega)).2⟩
    exact (hother c (by omega)).trans (h.fresh c (by omega)).1
  · intro c n hmem
    obtain ⟨hle, hn, hc⟩ := h.comparing c n hmem
    exact ⟨hle, hn, show c < s.next + 1 by omega⟩
  · intro c ch hc
    by_cases hnext : c = s.next
    · subst hnext
      cases (Function.update_self s.next _ s.challenges).symm.trans hc
      exact ⟨Nat.zero_lt_succ 4, .inl (Nat.le_of_eq (h.fresh s.next (Nat.le_refl _)).2)⟩
    · exact h.rows c ch ((hother c hnext).symm.trans hc)

theorem counted_load {purpose : Purpose} {disabled : Bool} (h : s.Counted)
    (halone : ∀ t ∈ s.tasks, t.isRejecting = false)
    (hi : s.tasks[i]? = some (.loading c purpose)) :
    (s.goOn i (s.loaded c purpose disabled)).Counted := by
  have hempty : (s.goOn i []).Counted := h.goOn hi rfl (by simp)
  unfold loaded
  split
  · exact hempty
  · next ch hch =>
    split
    · -- no wrong code is being counted, so the challenge's row has them all
      obtain ⟨hlt, hle⟩ := h.rows c ch hch
      have hle : s.against c ≤ ch.attempts := by
        rcases hle with hle | ⟨n, hn⟩
        · exact hle
        · cases halone _ hn
      have hnone : s.uncounted = 0 :=
        List.countP_eq_zero.mpr fun t ht => by simp [halone t ht]
      have hcount : (s.goOn i [.comparing c ch.attempts]).uncounted = 0 := by
        have hcp := uncounted_goOn [.comparing c ch.attempts] hi
        simp only [List.countP_cons, List.countP_nil, Guess.isRejecting] at hcp
        simpa [hnone] using hcp
      refine ⟨h.fresh, ?_, ?_, ?_, h.bound, by omega, by omega⟩
      · intro c' n hmem
        rcases mem_replaceAt hmem with hmem | hmem
        · exact h.comparing c' n hmem
        · cases List.mem_singleton.mp hmem
          refine ⟨hle, hlt, ?_⟩
          show c < s.next
          by_contra hc
          rw [(h.fresh c (by omega)).1] at hch
          cases hch
      · intro c' n hmem
        rcases mem_replaceAt hmem with hmem | hmem
        · exact h.rejecting c' n hmem
        · cases List.mem_singleton.mp hmem
      · intro c' ch' hc'
        obtain ⟨hlt', hle' | ⟨n, hn⟩⟩ := h.rows c' ch' hc'
        · exact ⟨hlt', .inl hle'⟩
        · cases halone _ hn
    · exact hempty

theorem counted_wrong (h : s.Counted)
    (halone : ∀ t ∈ replaceAt s.tasks i [], t.isComparing = false ∧ t.isRejecting = false)
    (hi : s.tasks[i]? = some (.comparing c n)) :
    Counted { s.goOn i [.rejecting c (n + 1)] with wrong := s.wrong ++ [(c, s.now)] } := by
  set s' : Desk := { s.goOn i [.rejecting c (n + 1)] with wrong := s.wrong ++ [(c, s.now)] }
    with hs'
  have hagainst : ∀ c', s'.against c' = s.against c' + if c = c' then 1 else 0 := by
    intro c'
    show (s.wrong ++ [(c, s.now)]).countP _ = _
    rw [List.countP_append, List.countP_cons]
    simp [against]
  obtain ⟨hle, hn, hnext⟩ := h.comparing c n (List.mem_of_getElem? hi)
  have hmem : ∀ t ∈ s'.tasks, t = .rejecting c (n + 1) ∨
      t.isComparing = false ∧ t.isRejecting = false := by
    intro t ht
    rcases mem_replaceAt_iff.mp ht with ht | ht
    · exact .inr (halone t ht)
    · exact .inl (List.mem_singleton.mp ht)
  have hcount : s'.uncounted = 1 := by
    have hrest : (replaceAt s.tasks i []).countP Guess.isRejecting = 0 :=
      List.countP_eq_zero.mpr fun t ht => by simp [(halone t ht).2]
    have hcp := countP_replaceAt Guess.isRejecting [] hi
    have hcp' := uncounted_goOn [.rejecting c (n + 1)] hi
    simp only [List.countP_cons, List.countP_nil, Guess.isRejecting, if_true] at hcp hcp'
    show (s.goOn i [.rejecting c (n + 1)]).uncounted = 1
    unfold uncounted at hcp' ⊢
    simp only [Bool.false_eq_true, if_false] at hcp hcp'
    omega
  refine ⟨?_, ?_, ?_, ?_, ?_, ?_, Nat.le_of_eq hcount⟩
  · intro c' hc'
    have hc' : s.next ≤ c' := hc'
    refine ⟨(h.fresh c' hc').1, ?_⟩
    rw [hagainst, if_neg (by omega), (h.fresh c' hc').2]
  · intro c' n' ht
    rcases hmem _ ht with ht | ⟨ht, _⟩ <;> cases ht
  · intro c' n' ht
    rcases hmem _ ht with ht | ⟨_, ht⟩
    · cases ht
      rw [hagainst, if_pos rfl]
      omega
    · cases ht
  · intro c' ch hc'
    obtain ⟨hlt, hle'⟩ := h.rows c' ch hc'
    refine ⟨hlt, ?_⟩
    by_cases hcc : c = c'
    · subst hcc
      exact .inr ⟨n + 1, mem_replaceAt_iff.mpr (.inr (List.mem_singleton_self _))⟩
    · left
      rw [hagainst, if_neg hcc]
      rcases hle' with hle' | ⟨n', hn'⟩
      · exact hle'
      · rcases (mem_iff_replaceAt hi).mp hn' with hn' | hn'
        · cases hn'
        · cases (halone _ hn').2
  · intro c'
    rw [hagainst]
    by_cases hcc : c = c'
    · subst hcc
      rw [if_pos rfl]
      omega
    · rw [if_neg hcc]
      exact h.bound c'
  · intro _ t ht
    rcases hmem t ht with rfl | ⟨ht, _⟩
    · rfl
    · exact ht

/-- One wrong code is counted at a time. -/
theorem Counted.others (h : s.Counted) (hi : s.tasks[i]? = some u) (hu : u.isRejecting = true) :
    ∀ t ∈ replaceAt s.tasks i [], t.isComparing = false ∧ t.isRejecting = false := by
  have hpos : 0 < s.uncounted := uncounted_pos.mpr ⟨u, List.mem_of_getElem? hi, hu⟩
  have hcp := countP_replaceAt Guess.isRejecting [] hi
  have hu' : [u].countP Guess.isRejecting = 1 := by simp [hu]
  have hsingle : s.tasks.countP Guess.isRejecting ≤ 1 := h.single
  rw [hu', List.countP_nil] at hcp
  intro t ht
  refine ⟨h.apart hpos t ((mem_iff_replaceAt hi).mpr (.inr ht)), ?_⟩
  have hzero : (replaceAt s.tasks i []).countP Guess.isRejecting = 0 := by omega
  simpa using List.countP_eq_zero.mp hzero t ht

theorem counted_store (h : s.Counted) (hi : s.tasks[i]? = some (.rejecting c n)) :
    Counted { s.goOn i [.counting] with challenges := s.rejected c n } := by
  have hothers := h.others hi rfl
  have hle := h.rejecting c n (List.mem_of_getElem? hi)
  have hmem : ∀ t ∈ (s.goOn i [.counting]).tasks,
      t = .counting ∨ t.isComparing = false ∧ t.isRejecting = false := by
    intro t ht
    rcases mem_replaceAt_iff.mp ht with ht | ht
    · exact .inr (hothers t ht)
    · exact .inl (List.mem_singleton.mp ht)
  have hcount : (s.goOn i [.counting]).uncounted = s.uncounted := by
    have hcp := uncounted_goOn [.counting] hi
    simp only [List.countP_cons, List.countP_nil, Guess.isRejecting, if_true] at hcp
    omega
  have hself : s.rejected c n c = if maxAttempts ≤ n then none
      else (s.challenges c).map fun ch => { ch with attempts := n } := Function.update_self _ _ _
  have hne : ∀ c', c' ≠ c → s.rejected c n c' = s.challenges c' :=
    fun c' hc' => Function.update_of_ne hc' _ _
  refine ⟨?_, ?_, ?_, ?_, h.bound, ?_, hcount.trans_le h.single⟩
  · intro c' hc'
    have hc' : s.next ≤ c' := hc'
    refine ⟨?_, (h.fresh c' hc').2⟩
    show s.rejected c n c' = none
    by_cases hcc : c' = c
    · subst hcc
      rw [hself, (h.fresh c' hc').1]
      split <;> rfl
    · rw [hne c' hcc]
      exact (h.fresh c' hc').1
  · intro c' n' ht
    rcases hmem _ ht with ht | ⟨ht, _⟩ <;> cases ht
  · intro c' n' ht
    rcases hmem _ ht with ht | ⟨_, ht⟩ <;> cases ht
  · intro c' ch hc'
    have hc' : s.rejected c n c' = some ch := hc'
    by_cases hcc : c' = c
    · subst hcc
      rw [hself] at hc'
      split at hc'
      · cases hc'
      · next hlt =>
        obtain ⟨ch', _, rfl⟩ := Option.map_eq_some_iff.mp hc'
        exact ⟨by show n < maxAttempts; omega, .inl hle⟩
    · rw [hne c' hcc] at hc'
      obtain ⟨hlt, hle' | ⟨n', hn'⟩⟩ := h.rows c' ch hc'
      · exact ⟨hlt, .inl hle'⟩
      · rcases (mem_iff_replaceAt hi).mp hn' with hn' | hn'
        · cases hn'
          exact absurd rfl hcc
        · cases (hothers _ hn').2
  · intro _ t ht
    rcases hmem t ht with rfl | ⟨ht, _⟩
    · rfl
    · exact ht

theorem counted_count (h : s.Counted) (hi : s.tasks[i]? = some .counting) :
    (s.goOn i []).Counted := by
  have hothers := h.others hi rfl
  have hzero : (s.goOn i []).uncounted = 0 :=
    List.countP_eq_zero.mpr fun t ht => by simp [(hothers t ht).2]
  refine ⟨h.fresh, ?_, ?_, ?_, h.bound, ?_, hzero.trans_le (Nat.zero_le 1)⟩
  · intro c n hmem
    cases (hothers _ hmem).1
  · intro c n hmem
    cases (hothers _ hmem).2
  · intro c ch hc
    obtain ⟨hlt, hle | ⟨n, hn⟩⟩ := h.rows c ch hc
    · exact ⟨hlt, .inl hle⟩
    · rcases (mem_iff_replaceAt hi).mp hn with hn | hn
      · cases hn
      · cases (hothers _ hn).2
  · intro _ t ht
    exact (hothers t ht).1

theorem counted_step (halone : s.Alone a) (hs : s.step a = some s') (h : s.Counted) :
    s'.Counted := by
  cases a with
  | create purpose =>
    cases hs
    exact counted_create h
  | discard purpose =>
    cases hs
    exact h.fewer fun c ch hc => Option.filter_eq_some_iff.mp hc |>.1
  | request c purpose =>
    cases hs
    have hcount : (s.tasks ++ [Guess.loading c purpose]).countP Guess.isRejecting = s.uncounted := by
      rw [List.countP_append, List.countP_cons]
      rfl
    have hold : ∀ t ∈ s.tasks ++ [Guess.loading c purpose], t.isComparing ∨ t.isRejecting →
        t ∈ s.tasks := by
      intro t ht hkind
      rcases List.mem_append.mp ht with ht | ht
      · exact ht
      · rw [List.mem_singleton.mp ht] at hkind
        rcases hkind with hkind | hkind <;> cases hkind
    refine ⟨h.fresh, fun c n hmem => h.comparing c n (hold _ hmem (.inl rfl)),
      fun c n hmem => h.rejecting c n (hold _ hmem (.inr rfl)), ?_, h.bound, ?_,
      hcount.trans_le h.single⟩
    · intro c ch hc
      exact (h.rows c ch hc).imp_right (Or.imp_right fun ⟨n, hn⟩ => ⟨n, List.mem_append_left _ hn⟩)
    · intro hpos t ht
      by_contra hcmp
      have hcmp' : t.isComparing = true := by simpa using hcmp
      have hpos' : 0 < s.uncounted := hcount ▸ hpos
      rw [h.apart hpos' t (hold t ht (.inl hcmp'))] at hcmp'
      cases hcmp'
  | load i disabled =>
    rw [step] at hs
    split at hs
    case h_2 => cases hs
    case h_1 hi =>
      cases hs
      exact counted_load h halone hi
  | compare i ok =>
    rw [step] at hs
    split at hs
    case h_2 => cases hs
    case h_1 hi =>
      split at hs
      · cases hs
        exact h.goOn hi rfl (by simp [Guess.isComparing, Guess.isRejecting])
      · next hok =>
        cases hs
        exact counted_wrong h (halone (by simpa using hok)) hi
  | store i =>
    rw [step] at hs
    split at hs
    case h_2 => cases hs
    case h_1 hi =>
      cases hs
      exact counted_store h hi
  | count i =>
    rw [step] at hs
    split at hs
    case h_2 => cases hs
    case h_1 hi =>
      cases hs
      have hc := counted_count h hi
      exact ⟨hc.fresh, hc.comparing, hc.rejecting, hc.rows, hc.bound, hc.apart, hc.single⟩
  | finish i =>
    rw [step] at hs
    split at hs
    case h_2 => cases hs
    case h_1 c hi =>
      cases hs
      have hgone : (s.goOn i []).Counted := h.goOn hi rfl (by simp)
      refine hgone.fewer fun c' ch hc' => ?_
      by_cases hcc : c' = c
      · subst hcc
        rw [Function.update_self] at hc'
        cases hc'
      · rwa [Function.update_of_ne hcc] at hc'
  | tick ms =>
    cases hs
    exact ⟨h.fresh, h.comparing, h.rejecting, h.rows, h.bound, h.apart, h.single⟩

/-! ## Wrong codes in a window -/

/-- The windows of `userFailures` do not overlap, and the hits of the last one are at least the wrong
codes compared in it; the one that is still to be counted has been let through. -/
structure Windowed (s : Desk) : Prop where
  waits : ∀ c n, .comparing c n ∈ s.tasks → userFailures.retryAfter s.failures s.now = 0
  stamps : ∀ x ∈ s.wrong, x.2 ≤ s.now
  unopened : s.failures = none → s.windows = [] ∧ s.wrong.length ≤ s.uncounted
  last : ∀ e, s.failures = some e → ∃ w, e.resetAt = w + userFailures.windowMs ∧ w ≤ s.now ∧
    s.within w ≤ e.count + s.uncounted ∧
    (s.now < e.resetAt → e.count + s.uncounted ≤ userFailures.max) ∧
    (∀ w' ∈ s.windows, w' ≠ w → w' + userFailures.windowMs ≤ w) ∧
    s.wrong.countP (e.resetAt ≤ ·.2) ≤ s.uncounted
  bound : ∀ w ∈ s.windows, s.within w ≤ userFailures.max

/-- Requests go on, no wrong code is compared or counted. -/
theorem Windowed.congr (h : s.Windowed) (hwrong : s'.wrong = s.wrong)
    (hfailures : s'.failures = s.failures) (hwindows : s'.windows = s.windows)
    (hnow : s.now ≤ s'.now) (hcount : s'.uncounted = s.uncounted)
    (hwaits : ∀ c n, .comparing c n ∈ s'.tasks →
      userFailures.retryAfter s'.failures s'.now = 0) : s'.Windowed := by
  have hwithin : ∀ w, s'.within w = s.within w := fun w => by rw [within, within, hwrong]
  constructor
  · exact hwaits
  · intro x hx
    rw [hwrong] at hx
    exact (h.stamps x hx).trans hnow
  · intro hnone
    rw [hwindows, hwrong, hcount]
    exact h.unopened (hfailures ▸ hnone)
  · intro e he
    obtain ⟨w, hreset, hw, hle, hlt, hclosed, hlate⟩ := h.last e (hfailures ▸ he)
    refine ⟨w, hreset, hw.trans hnow, ?_, ?_, ?_, ?_⟩
    · rwa [hwithin, hcount]
    · intro hnow'
      rw [hcount]
      exact hlt (hnow.trans_lt hnow')
    · rwa [hwindows]
    · rwa [hwrong, hcount]
  · intro w hw
    rw [hwithin]
    exact h.bound w (hwindows ▸ hw)

theorem windowed_wrong (h : s.Windowed) (hcount : s.uncounted = 0)
    (hi : s.tasks[i]? = some (.comparing c n)) (hothers : ∀ t ∈ replaceAt s.tasks i [],
      t.isComparing = false ∧ t.isRejecting = false) :
    Windowed { s.goOn i [.rejecting c (n + 1)] with wrong := s.wrong ++ [(c, s.now)] } := by
  set s' : Desk := { s.goOn i [.rejecting c (n + 1)] with wrong := s.wrong ++ [(c, s.now)] }
    with hs'
  have hwait := h.waits c n (List.mem_of_getElem? hi)
  have hwithin : ∀ w, s'.within w = s.within w +
      if w ≤ s.now ∧ s.now < w + userFailures.windowMs then 1 else 0 := by
    intro w
    show (s.wrong ++ [(c, s.now)]).countP _ = _
    rw [List.countP_append, List.countP_cons]
    simp [within]
  have hcount' : s'.uncounted = 1 := by
    have hcp := uncounted_goOn [.rejecting c (n + 1)] hi
    simp only [List.countP_cons, List.countP_nil, Guess.isRejecting, if_true, Bool.false_eq_true,
      if_false] at hcp
    show (s.goOn i [.rejecting c (n + 1)]).uncounted = 1
    omega
  constructor
  · intro c' n' hmem
    rcases mem_replaceAt_iff.mp hmem with hmem | hmem
    · cases (hothers _ hmem).1
    · cases List.mem_singleton.mp hmem
  · intro x hx
    rcases List.mem_append.mp hx with hx | hx
    · exact h.stamps x hx
    · rw [List.mem_singleton.mp hx]
      exact Nat.le_refl _
  · intro hnone
    obtain ⟨hwindows, hlen⟩ := h.unopened hnone
    refine ⟨hwindows, ?_⟩
    show (s.wrong ++ [(c, s.now)]).length ≤ s'.uncounted
    rw [List.length_append, List.length_singleton]
    omega
  · intro e he
    obtain ⟨w, hreset, hw, hle, hlt, hclosed, hlate⟩ := h.last e he
    refine ⟨w, hreset, hw, ?_, ?_, hclosed, ?_⟩
    · rw [hwithin, hcount']
      split <;> omega
    · intro hnow
      have hroom := RateLimiter.retryAfter_eq_zero.mp hwait e he hnow
      omega
    · show (s.wrong ++ [(c, s.now)]).countP _ ≤ s'.uncounted
      rw [List.countP_append, List.countP_cons, List.countP_nil]
      split <;> omega
  · intro w hw
    rw [hwithin]
    split
    · next hnow =>
      -- the code falls in the last window, which has hits left
      cases hf : s.failures with
      | none =>
        rw [show s'.windows = s.windows from rfl, (h.unopened hf).1] at hw
        cases hw
      | some e =>
        obtain ⟨w₀, hreset, hw₀, hle, hlt, hclosed, hlate⟩ := h.last e hf
        have hwin : w = w₀ := by
          by_contra hne
          have hend := hclosed w hw hne
          omega
        subst hwin
        have hroom := RateLimiter.retryAfter_eq_zero.mp hwait e hf (by omega)
        omega
    · exact h.bound w hw

theorem windowed_count (h : s.Windowed) (hcount : s.uncounted = 1)
    (hi : s.tasks[i]? = some .counting)
    (hothers : ∀ t ∈ replaceAt s.tasks i [], t.isComparing = false ∧ t.isRejecting = false) :
    Windowed { s.goOn i [] with
      failures := some (userFailures.check s.failures s.now).2
      windows := if RateLimiter.Begins s.failures s.now then s.windows ++ [s.now]
        else s.windows } := by
  set s' : Desk := { s.goOn i [] with
    failures := some (userFailures.check s.failures s.now).2
    windows := if RateLimiter.Begins s.failures s.now then s.windows ++ [s.now]
      else s.windows } with hs'
  have hcount' : s'.uncounted = 0 := by
    have hcp := uncounted_goOn [] hi
    simp only [List.countP_cons, List.countP_nil, Guess.isRejecting, if_true] at hcp
    show (s.goOn i []).uncounted = 0
    omega
  have hlater : ∀ r, s.now < r → s.wrong.countP (fun x => r ≤ x.2) = 0 := by
    intro r hr
    apply List.countP_eq_zero.mpr
    intro x hx
    have := h.stamps x hx
    simpa using by omega
  by_cases hb : RateLimiter.Begins s.failures s.now
  · have hfail : s'.failures = some ⟨1, s.now + userFailures.windowMs⟩ := by
      show some (userFailures.check s.failures s.now).2 = _
      rw [RateLimiter.check_begins hb]
    have hwindows : s'.windows = s.windows ++ [s.now] := if_pos hb
    -- the code that begins the window is the only one that no other window has counted
    have hfirst : s'.within s.now ≤ 1 := by
      show s.within s.now ≤ 1
      cases hf : s.failures with
      | none =>
        have hlen := (h.unopened hf).2
        have := List.countP_le_length (l := s.wrong)
          (p := fun x => decide (s.now ≤ x.2 ∧ x.2 < s.now + userFailures.windowMs))
        unfold within
        omega
      | some e =>
        obtain ⟨w, hreset, hw, hle, hlt, hclosed, hlate⟩ := h.last e hf
        have hend := hb e hf
        have hsub : s.within s.now ≤ s.wrong.countP (fun x => e.resetAt ≤ x.2) := by
          apply List.countP_mono_left
          intro x _ hx
          simp only [decide_eq_true_eq] at hx ⊢
          omega
        omega
    have hclosed' : ∀ w ∈ s.windows, w + userFailures.windowMs ≤ s.now := by
      intro w hw
      cases hf : s.failures with
      | none =>
        rw [(h.unopened hf).1] at hw
        cases hw
      | some e =>
        obtain ⟨w₀, hreset, hw₀, hle, hlt, hclosed, hlate⟩ := h.last e hf
        have hend := hb e hf
        by_cases hwin : w = w₀
        · omega
        · have := hclosed w hw hwin
          omega
    refine ⟨?_, h.stamps, ?_, ?_, ?_⟩
    · intro c' n' hmem
      cases (hothers _ hmem).1
    · intro hnone
      rw [hfail] at hnone
      cases hnone
    · intro e he
      rw [hfail] at he
      cases he
      refine ⟨s.now, rfl, Nat.le_refl _, ?_, ?_, ?_, ?_⟩
      · show s'.within s.now ≤ 1 + s'.uncounted
        omega
      · intro _
        show 1 + s'.uncounted ≤ 10
        omega
      · intro w hw hne
        rw [hwindows] at hw
        rcases List.mem_append.mp hw with hw | hw
        · exact hclosed' w hw
        · exact absurd (List.mem_singleton.mp hw) hne
      · show s.wrong.countP (fun x => s.now + userFailures.windowMs ≤ x.2) ≤ s'.uncounted
        have hlasts : s.now < s.now + userFailures.windowMs :=
          Nat.lt_add_of_pos_right (show 0 < 60 * 60 * 1000 by omega)
        rw [hlater _ hlasts]
        exact Nat.zero_le _
    · intro w hw
      rw [hwindows] at hw
      rcases List.mem_append.mp hw with hw | hw
      · exact h.bound w hw
      · rw [List.mem_singleton.mp hw]
        exact hfirst.trans (by decide)
  · obtain ⟨e, hf, hnow⟩ : ∃ e, s.failures = some e ∧ s.now < e.resetAt := by
      unfold RateLimiter.Begins at hb
      push Not at hb
      exact hb
    have hfail : s'.failures = some { e with count := e.count + 1 } := by
      show some (userFailures.check s.failures s.now).2 = _
      rw [hf, RateLimiter.check_goes_on hnow]
    have hwindows : s'.windows = s.windows := if_neg hb
    obtain ⟨w, hreset, hw, hle, hlt, hclosed, hlate⟩ := h.last e hf
    refine ⟨?_, h.stamps, ?_, ?_, ?_⟩
    · intro c' n' hmem
      cases (hothers _ hmem).1
    · intro hnone
      rw [hfail] at hnone
      cases hnone
    · intro e' he'
      rw [hfail] at he'
      cases he'
      refine ⟨w, hreset, hw, ?_, ?_, ?_, ?_⟩
      · show s.within w ≤ e.count + 1 + s'.uncounted
        omega
      · intro _
        show e.count + 1 + s'.uncounted ≤ _
        have := hlt hnow
        omega
      · rwa [hwindows]
      · show s.wrong.countP _ ≤ s'.uncounted
        rw [hlater _ hnow]
        exact Nat.zero_le _
    · intro w' hw'
      rw [hwindows] at hw'
      exact h.bound w' hw'

theorem windowed_step (halone : s.Alone a) (hs : s.step a = some s') (hc : s.Counted)
    (h : s.Windowed) : s'.Windowed := by
  -- a request goes on that is not comparing or counting afterwards, where the time stands still
  have hquiet : ∀ {i : ℕ} {u : Guess} {new : List Guess}, s.tasks[i]? = some u →
      u.isRejecting = new.any Guess.isRejecting → (∀ t ∈ new, t.isComparing = false) →
      new.length ≤ 1 → (s.goOn i new).Windowed := by
    intro i u new hi hu hnew hlen
    refine h.congr rfl rfl rfl (Nat.le_refl _) ?_ ?_
    · have hcp := uncounted_goOn new hi
      match new, hlen with
      | [], _ => simp_all
      | [t], _ => simp_all
    · intro c n hmem
      rcases mem_replaceAt hmem with hmem | hmem
      · exact h.waits c n hmem
      · cases hnew _ hmem
  cases a with
  | create purpose =>
    cases hs
    exact h.congr rfl rfl rfl (Nat.le_refl _) rfl h.waits
  | discard purpose =>
    cases hs
    exact h.congr rfl rfl rfl (Nat.le_refl _) rfl h.waits
  | request c purpose =>
    cases hs
    refine h.congr rfl rfl rfl (Nat.le_refl _) ?_ ?_
    · show (s.tasks ++ [Guess.loading c purpose]).countP Guess.isRejecting = s.uncounted
      rw [List.countP_append, List.countP_cons]
      rfl
    · intro c' n hmem
      rcases List.mem_append.mp hmem with hmem | hmem
      · exact h.waits c' n hmem
      · cases List.mem_singleton.mp hmem
  | load i disabled =>
    rw [step] at hs
    split at hs
    case h_2 => cases hs
    case h_1 c purpose hi =>
      cases hs
      unfold loaded
      split
      · exact hquiet hi rfl (by simp) (by simp)
      · next ch hch =>
        split
        · next hok =>
          refine h.congr rfl rfl rfl (Nat.le_refl _) ?_ fun _ _ _ => hok.2.2.2
          have hcp := uncounted_goOn [.comparing c ch.attempts] hi
          simpa [Guess.isRejecting] using hcp
        · exact hquiet hi rfl (by simp) (by simp)
  | compare i ok =>
    rw [step] at hs
    split at hs
    case h_2 => cases hs
    case h_1 c n hi =>
      split at hs
      · cases hs
        exact hquiet hi rfl (by simp [Guess.isComparing]) (by simp)
      · next hok =>
        cases hs
        have hothers := halone (by simpa using hok)
        refine windowed_wrong h ?_ hi hothers
        apply List.countP_eq_zero.mpr
        intro t ht
        rcases (mem_iff_replaceAt hi).mp ht with rfl | ht
        · simp [Guess.isRejecting]
        · simp [(hothers t ht).2]
  | store i =>
    rw [step] at hs
    split at hs
    case h_2 => cases hs
    case h_1 hi =>
      cases hs
      have hgone : (s.goOn i [.counting]).Windowed :=
        hquiet hi rfl (by simp [Guess.isComparing]) (by simp)
      exact ⟨hgone.waits, hgone.stamps, hgone.unopened, hgone.last, hgone.bound⟩
  | count i =>
    rw [step] at hs
    split at hs
    case h_2 => cases hs
    case h_1 hi =>
      cases hs
      have hpos : 0 < s.uncounted := uncounted_pos.mpr ⟨_, List.mem_of_getElem? hi, rfl⟩
      have hsingle := hc.single
      exact windowed_count h (by omega) hi (hc.others hi rfl)
  | finish i =>
    rw [step] at hs
    split at hs
    case h_2 => cases hs
    case h_1 hi =>
      cases hs
      have hgone : (s.goOn i []).Windowed := hquiet hi rfl (by simp) (by simp)
      exact ⟨hgone.waits, hgone.stamps, hgone.unopened, hgone.last, hgone.bound⟩
  | tick ms =>
    cases hs
    refine h.congr rfl rfl rfl (Nat.le_add_right _ _) rfl fun c n hmem => ?_
    exact RateLimiter.retryAfter_mono (h.waits c n hmem) (Nat.le_add_right _ _)

theorem Start.counted (h : s.Start) : s.Counted := by
  have hagainst : ∀ c, s.against c = 0 := fun c => by rw [against, h.wrong]; rfl
  have hzero : s.uncounted = 0 := by rw [uncounted, h.tasks]; rfl
  have hnone : ∀ t, t ∉ s.tasks := fun t ht => by rw [h.tasks] at ht; cases ht
  refine ⟨fun c _ => ⟨h.challenges c, hagainst c⟩, fun c n hmem => absurd hmem (hnone _),
    fun c n hmem => absurd hmem (hnone _), ?_, ?_, ?_, ?_⟩
  · intro c ch hc
    rw [h.challenges] at hc
    cases hc
  · intro c
    rw [hagainst]
    exact Nat.zero_le _
  · intro _ t ht
    exact absurd ht (hnone t)
  · rw [hzero]
    exact Nat.zero_le _

theorem Start.windowed (h : s.Start) : s.Windowed := by
  refine ⟨fun c n hmem => ?_, fun x hx => ?_, fun _ => ⟨h.windows, ?_⟩, fun e he => ?_,
    fun w hw => ?_⟩
  · rw [h.tasks] at hmem
    cases hmem
  · rw [h.wrong] at hx
    cases hx
  · rw [h.wrong]
    exact Nat.zero_le _
  · rw [h.failures] at he
    cases he
  · rw [h.windows] at hw
    cases hw

/-- In every run whose steps meet the condition: against no challenge are more than `MAX_ATTEMPTS`
wrong codes compared, and in no window of `userFailures` more than its maximum of the user's. -/
theorem wrong_codes_bounded (hstart : s₀.Start) (hrun : exec step s₀ as = some s)
    (halone : Along step Alone s₀ as) :
    (∀ c, s.against c ≤ maxAttempts) ∧ ∀ w ∈ s.windows, s.within w ≤ userFailures.max := by
  have h : s.Counted ∧ s.Windowed := by
    refine exec_invariant (P := fun s => s.Counted ∧ s.Windowed) ?_ hrun halone
      ⟨hstart.counted, hstart.windowed⟩
    rintro s a s' ha hs ⟨hc, hw⟩
    exact ⟨counted_step ha hs hc, windowed_step ha hs hc hw⟩
  exact ⟨h.1.bound, h.2.bound⟩

/-- No challenge and no request. -/
def empty : Desk where
  challenges := fun _ => none
  next := 0
  failures := none
  now := 0
  tasks := []
  wrong := []
  windows := []

theorem start_empty : empty.Start := ⟨fun _ => rfl, rfl, rfl, rfl, rfl⟩

/-- Three wrong codes, one after another. -/
def oneByOne : List DeskAction :=
  .create .login :: (List.replicate 3
    [.request 0 .login, .load 0 false, .compare 0 false, .store 0, .count 0, .tick 1000]).flatten

theorem wrong_codes_bounded_oneByOne : ∃ s, exec step empty oneByOne = some s ∧
    s.wrong.length = 3 ∧ s.against 0 ≤ maxAttempts := by
  have hrun : exec step empty oneByOne = some _ := rfl
  exact ⟨_, hrun, rfl, (wrong_codes_bounded start_empty hrun (by decide)).1 0⟩

/-- Eleven requests at once. -/
def atOnce : List DeskAction :=
  .create .login :: List.replicate 11 (.request 0 .login) ++
    (List.range 11).map (.load · false) ++ (List.range 11).map (.compare · false) ++
    (List.range 11).map .store ++ List.replicate 11 (.count 0)

/-- All of them load the challenge before the first has counted its code, and all are compared. -/
theorem wrong_codes_unbounded : ∃ s, empty.Start ∧ exec step empty atOnce = some s ∧
    maxAttempts < s.against 0 ∧ 0 ∈ s.windows ∧ userFailures.max < s.within 0 := by
  refine ⟨_, start_empty, rfl, ?_⟩
  decide +kernel

end Desk

end Auth
