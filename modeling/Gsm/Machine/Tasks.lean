import Gsm.Machine.Exec
import Gsm.Machine.Handlers
import Mathlib.Data.List.Perm.Basic

/-!
# Tasks over shared rows

A service keeps rows that its requests share. A request is a list of tasks, each named by what it
waits for; when a task is answered it changes the rows and leaves the tasks that come next. Tasks are
answered in any order, so a run is one interleaving of the requests at their awaits.
`Service.run_invariant` reduces an invariant of all runs to one statement for each kind of task.
-/

namespace Machine

variable {ρ τ ε ι : Type*}

/-- What a request brings, and what a task does when it is answered. -/
structure Service (ρ τ ε ι : Type*) where
  arrive : ρ → ε → ρ × List τ
  resume : ρ → ι → τ → ρ × List τ

/-- The rows, and the tasks under way. -/
structure Shared (ρ τ : Type*) where
  rows : ρ
  tasks : List τ

/-- A request arrives, or the `i`-th task is answered. -/
inductive Turn (ε ι : Type*) where
  | request (e : ε)
  | answer (i : ℕ) (x : ι)

namespace Service

variable {S : Service ρ τ ε ι} {D : ρ → List τ → ι → τ → Prop} {P : ρ → List τ → Prop}
  {s s' : Shared ρ τ} {turn : Turn ε ι} {turns : List (Turn ε ι)}

def step (S : Service ρ τ ε ι) (s : Shared ρ τ) : Turn ε ι → Option (Shared ρ τ)
  | .request e => some ⟨(S.arrive s.rows e).1, s.tasks ++ (S.arrive s.rows e).2⟩
  | .answer i x =>
      match s.tasks[i]? with
      | some t => some ⟨(S.resume s.rows x t).1, replaceAt s.tasks i (S.resume s.rows x t).2⟩
      | none => none

/-- A condition on the tasks that are answered, which may look at the rows and the other tasks. -/
def When (D : ρ → List τ → ι → τ → Prop) (s : Shared ρ τ) : Turn ε ι → Prop
  | .request _ => True
  | .answer i x => ∀ t, s.tasks[i]? = some t → D s.rows (replaceAt s.tasks i []) x t

instance decidableWhen [∀ rows l x t, Decidable (D rows l x t)] (s : Shared ρ τ) :
    (turn : Turn ε ι) → Decidable (When D s turn)
  | .request _ => .isTrue trivial
  | .answer i x =>
      match h : s.tasks[i]? with
      | none => .isTrue fun _ ht => nomatch h.symm.trans ht
      | some t => decidable_of_iff (D s.rows (replaceAt s.tasks i []) x t)
          ⟨fun hD _ ht => Option.some.inj (h.symm.trans ht) ▸ hD, fun hD => hD t h⟩

/-- The task that goes on, and the others. -/
theorem perm_replaceAt {l new : List τ} {i : ℕ} {t : τ} (h : l[i]? = some t) :
    l.Perm (t :: replaceAt l i []) ∧ (replaceAt l i new).Perm (new ++ replaceAt l i []) := by
  obtain ⟨a, b, rfl, hrep⟩ := replaceAt_eq h
  rw [hrep, hrep, List.append_nil]
  constructor
  · exact List.perm_middle
  · rw [← List.append_assoc]
    exact List.Perm.append_right b List.perm_append_comm

/-- What one turn does: a request brings its tasks, or one task goes on. -/
theorem step_cases (hs : S.step s turn = some s') :
    (∃ e, turn = .request e ∧ s' = ⟨(S.arrive s.rows e).1, s.tasks ++ (S.arrive s.rows e).2⟩) ∨
      ∃ i x t l, turn = .answer i x ∧ s.tasks[i]? = some t ∧ l = replaceAt s.tasks i [] ∧
        s.tasks.Perm (t :: l) ∧ s'.rows = (S.resume s.rows x t).1 ∧
        s'.tasks.Perm ((S.resume s.rows x t).2 ++ l) := by
  cases turn with
  | request e =>
    cases hs
    exact .inl ⟨e, rfl, rfl⟩
  | answer i x =>
    rw [step] at hs
    split at hs
    · next t ht =>
      cases hs
      obtain ⟨hbefore, hafter⟩ := perm_replaceAt ht
      exact .inr ⟨i, x, t, _, rfl, ht, rfl, hbefore, rfl, hafter⟩
    · cases hs

/-- An invariant that does not look at the order of the tasks is kept by a turn, if each request and
each task on its own keeps it. -/
theorem step_invariant (hperm : ∀ rows l l', List.Perm l l' → P rows l → P rows l')
    (harrive : ∀ rows l e, P rows l → P (S.arrive rows e).1 ((S.arrive rows e).2 ++ l))
    (hresume : ∀ rows l x t, D rows l x t → P rows (t :: l) →
      P (S.resume rows x t).1 ((S.resume rows x t).2 ++ l))
    (hD : When D s turn) (hs : S.step s turn = some s') (hP : P s.rows s.tasks) :
    P s'.rows s'.tasks := by
  obtain ⟨e, rfl, rfl⟩ | ⟨i, x, t, l, rfl, ht, rfl, hbefore, hrows, hafter⟩ := step_cases hs
  · exact hperm _ _ _ List.perm_append_comm (harrive s.rows s.tasks e hP)
  · rw [hrows]
    have hP' := hperm _ _ _ hbefore hP
    exact hperm _ _ _ hafter.symm (hresume s.rows _ x t (hD t ht) hP')

/-- Such an invariant holds along every run. -/
theorem run_invariant (hperm : ∀ rows l l', List.Perm l l' → P rows l → P rows l')
    (harrive : ∀ rows l e, P rows l → P (S.arrive rows e).1 ((S.arrive rows e).2 ++ l))
    (hresume : ∀ rows l x t, D rows l x t → P rows (t :: l) →
      P (S.resume rows x t).1 ((S.resume rows x t).2 ++ l))
    (hrun : exec S.step s turns = some s') (hD : Along S.step (When D) s turns)
    (hP : P s.rows s.tasks) : P s'.rows s'.tasks :=
  exec_invariant (P := fun s => P s.rows s.tasks)
    (fun _ _ _ hC hs hP => step_invariant hperm harrive hresume hC hs hP) hrun hD hP

/-- An invariant that every answer keeps needs no condition on the run. -/
theorem run_always (hperm : ∀ rows l l', List.Perm l l' → P rows l → P rows l')
    (harrive : ∀ rows l e, P rows l → P (S.arrive rows e).1 ((S.arrive rows e).2 ++ l))
    (hresume : ∀ rows l x t, P rows (t :: l) → P (S.resume rows x t).1 ((S.resume rows x t).2 ++ l))
    (hrun : exec S.step s turns = some s') (hP : P s.rows s.tasks) : P s'.rows s'.tasks := by
  refine run_invariant (D := fun _ _ _ _ => True) hperm harrive (fun rows l x t _ => hresume rows l x t) hrun
    (.of_forall fun s turn => ?_) hP
  cases turn with
  | request e => trivial
  | answer i x => exact fun _ _ => trivial

end Service

end Machine
