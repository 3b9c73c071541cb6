import Gsm.Machine.Tasks
import Mathlib.Data.Nat.Basic
import Mathlib.Data.Option.Basic
import Mathlib.Order.Basic

/-!
# Enrollment tokens

`enroll` for one token, taken apart at its awaits: a request loads the token and asks whether it is
usable, and a transaction later stores the node and counts the use. The count is the loaded one plus
one, so it stays right exactly where no other enrollment comes between the two.
-/

open Machine

namespace Nodes

/-- `EnrollmentToken` -/
structure EnrollmentToken where
  maxUses : Option ℕ
  uses : ℕ
  expiresAt : Option ℕ
  revokedAt : Option ℕ
deriving DecidableEq

/-- `isUsable` -/
def EnrollmentToken.isUsable (t : EnrollmentToken) (now : ℕ) : Bool :=
  if t.revokedAt.isSome then false
  else if t.expiresAt.any (· < now) then false
  else if t.maxUses.any (· ≤ t.uses) then false
  else true

/-- What `enroll` looks at and writes of a `Node`. -/
structure Node where
  machineId : ℕ
  agentSecretHash : ℕ
deriving DecidableEq

structure Registry where
  token : EnrollmentToken
  nodes : List Node
  now : ℕ
  /-- the enrollments with this token that have succeeded -/
  enrolled : ℕ

/-- A request, by what it waits for. -/
inductive EnrollTask where
  /-- `EnrollmentToken.findOne` -/
  | finding (node : Node)
  /-- the transaction, with the token that was loaded -/
  | storing (token : EnrollmentToken) (node : Node)
  /-- `token.save` of `revokeEnrollmentToken` -/
  | revoking
deriving DecidableEq

inductive EnrollRequest where
  | enroll (node : Node)
  | revokeEnrollmentToken
  | tick (ms : ℕ)

namespace Registry

/-- The transaction's part on nodes: one with this machine id is re-attached. -/
def storeNode (nodes : List Node) (node : Node) : List Node :=
  if ∃ n ∈ nodes, n.machineId = node.machineId then
    nodes.map fun n => if n.machineId = node.machineId then node else n
  else nodes ++ [node]

def arrive (s : Registry) : EnrollRequest → Registry × List EnrollTask
  | .enroll node => (s, [.finding node])
  | .revokeEnrollmentToken => (s, [.revoking])
  | .tick ms => ({ s with now := s.now + ms }, [])

/-- A transaction that fails is rolled back. -/
def resume (s : Registry) (failed : Bool) : EnrollTask → Registry × List EnrollTask
  | .finding node => (s, if s.token.isUsable s.now then [.storing s.token node] else [])
  | .storing token node =>
      if failed then (s, [])
      else ({ s with
        nodes := storeNode s.nodes node
        -- the row's own count is overwritten
        token := { s.token with uses := token.uses + 1 }
        enrolled := s.enrolled + 1 }, [])
  | .revoking => ({ s with token := { s.token with revokedAt := some s.now } }, [])

end Registry

/-- The requests that present one token. -/
def enrollments : Service Registry EnrollTask EnrollRequest Bool where
  arrive := Registry.arrive
  resume := Registry.resume

namespace Registry

/-- The use is counted on the row that was loaded. -/
def Current (s : Registry) (_ : List EnrollTask) (failed : Bool) : EnrollTask → Prop
  | .storing token _ => failed = false → s.token.uses = token.uses
  | _ => True

instance (s : Registry) (l : List EnrollTask) (failed : Bool) (t : EnrollTask) :
    Decidable (s.Current l failed t) := by
  unfold Current
  split <;> infer_instance

/-- A token that has just been created. -/
structure Start (s : Shared Registry EnrollTask) : Prop where
  uses : s.rows.token.uses = 0
  enrolled : s.rows.enrolled = 0
  tasks : s.tasks = []

/-- The counter is right, and no loaded copy is ahead of it; a loaded copy was usable. -/
structure Counted (s : Registry) (l : List EnrollTask) : Prop where
  counter : s.token.uses = s.enrolled
  bound : ∀ max ∈ s.token.maxUses, s.enrolled ≤ max
  loaded : ∀ token node, .storing token node ∈ l → token.uses ≤ s.enrolled
  usable : ∀ token node, .storing token node ∈ l → ∀ max ∈ s.token.maxUses, token.uses < max

/-- The counter has fallen behind, and so has every loaded copy. -/
structure Behind (s : Registry) (l : List EnrollTask) : Prop where
  counter : s.token.uses < s.enrolled
  loaded : ∀ token node, .storing token node ∈ l → token.uses < s.enrolled

variable {s : Registry} {l l' : List EnrollTask} {t : EnrollTask} {failed : Bool}
  {s₀ s₁ : Shared Registry EnrollTask} {turns : List (Turn EnrollRequest Bool)}

theorem isUsable_uses {token : EnrollmentToken} {now max : ℕ} (h : token.isUsable now = true)
    (hmax : max ∈ token.maxUses) : token.uses < max := by
  unfold EnrollmentToken.isUsable at h
  split at h
  · cases h
  · split at h
    · cases h
    · split at h
      · cases h
      · next hfull =>
        rw [Option.mem_def.mp hmax] at hfull
        simpa using hfull

theorem Counted.perm (hl : l.Perm l') (h : s.Counted l) : s.Counted l' := by
  refine ⟨h.counter, h.bound, fun token node hmem => ?_, fun token node hmem => ?_⟩
  · exact h.loaded token node (hl.mem_iff.mpr hmem)
  · exact h.usable token node (hl.mem_iff.mpr hmem)

theorem Counted.tail (h : s.Counted (t :: l)) : s.Counted l := by
  refine ⟨h.counter, h.bound, fun token node hmem => ?_, fun token node hmem => ?_⟩
  · exact h.loaded token node (List.mem_cons_of_mem _ hmem)
  · exact h.usable token node (List.mem_cons_of_mem _ hmem)

/-- Another task may come that has not loaded the token. -/
theorem Counted.cons (h : s.Counted l) (ht : ∀ token node, t ≠ .storing token node) :
    s.Counted (t :: l) := by
  refine ⟨h.counter, h.bound, fun token node hmem => ?_, fun token node hmem => ?_⟩
  · rcases List.mem_cons.mp hmem with heq | hmem
    · exact absurd heq.symm (ht token node)
    · exact h.loaded token node hmem
  · rcases List.mem_cons.mp hmem with heq | hmem
    · exact absurd heq.symm (ht token node)
    · exact h.usable token node hmem

theorem counted_arrive {r : EnrollRequest} (h : s.Counted l) :
    (s.arrive r).1.Counted ((s.arrive r).2 ++ l) := by
  cases r with
  | enroll node => exact h.cons fun _ _ => by simp
  | revokeEnrollmentToken => exact h.cons fun _ _ => by simp
  | tick ms => exact ⟨h.counter, h.bound, h.loaded, h.usable⟩

theorem counted_load {node : Node} (h : s.Counted l) (husable : s.token.isUsable s.now = true) :
    s.Counted (.storing s.token node :: l) := by
  refine ⟨h.counter, h.bound, fun token node hmem => ?_, fun token node hmem => ?_⟩
  · rcases List.mem_cons.mp hmem with heq | hmem
    · cases heq
      exact Nat.le_of_eq h.counter
    · exact h.loaded token node hmem
  · rcases List.mem_cons.mp hmem with heq | hmem
    · cases heq
      exact fun max hmax => isUsable_uses husable hmax
    · exact h.usable token node hmem

theorem counted_resume (hcurrent : s.Current l failed t) (h : s.Counted (t :: l)) :
    (s.resume failed t).1.Counted ((s.resume failed t).2 ++ l) := by
  cases t with
  | finding node =>
    rw [resume]
    split
    · next husable => exact counted_load h.tail husable
    · exact h.tail
  | storing token node =>
    rw [resume]
    split
    · exact h.tail
    · next hok =>
      have hloaded : s.token.uses = token.uses := hcurrent (by simpa using hok)
      have hcounter := h.counter
      refine ⟨?_, fun max hmax => ?_, fun token' node' hmem => ?_, h.tail.usable⟩
      · show token.uses + 1 = s.enrolled + 1
        omega
      · show s.enrolled + 1 ≤ max
        have hlt := h.usable token node List.mem_cons_self max hmax
        omega
      · exact (h.tail.loaded token' node' hmem).trans (Nat.le_succ _)
  | revoking => exact ⟨h.counter, h.bound, h.tail.loaded, h.tail.usable⟩

/-- A use that is counted on another row than the loaded one leaves the counter behind. -/
theorem behind_resume (hcurrent : ¬ s.Current l failed t) (h : s.Counted (t :: l)) :
    (s.resume failed t).1.Behind ((s.resume failed t).2 ++ l) := by
  cases t with
  | finding node => exact absurd trivial hcurrent
  | storing token node =>
    -- the row has moved on, and the loaded count is never ahead of the enrollments
    obtain ⟨hok, hne⟩ := Classical.not_imp.mp hcurrent
    have hle := h.loaded token node List.mem_cons_self
    have hcounter := h.counter
    rw [resume, hok]
    refine ⟨?_, fun token' node' hmem => ?_⟩
    · show token.uses + 1 < s.enrolled + 1
      omega
    · exact Nat.lt_succ_of_le (h.tail.loaded token' node' hmem)
  | revoking => exact absurd trivial hcurrent

theorem Behind.perm (hl : l.Perm l') (h : s.Behind l) : s.Behind l' :=
  ⟨h.counter, fun token node hmem => h.loaded token node (hl.mem_iff.mpr hmem)⟩

theorem Behind.arrive {r : EnrollRequest} (h : s.Behind l) :
    (s.arrive r).1.Behind ((s.arrive r).2 ++ l) := by
  have hcons : ∀ t : EnrollTask, (∀ token node, t ≠ .storing token node) → s.Behind (t :: l) := by
    refine fun t ht => ⟨h.counter, fun token node hmem => ?_⟩
    rcases List.mem_cons.mp hmem with heq | hmem
    · exact absurd heq.symm (ht token node)
    · exact h.loaded token node hmem
  cases r with
  | enroll node => exact hcons _ fun _ _ => by simp
  | revokeEnrollmentToken => exact hcons _ fun _ _ => by simp
  | tick ms => exact ⟨h.counter, h.loaded⟩

/-- It is never caught up with, since each use counts from a copy that is behind too. -/
theorem Behind.resume (h : s.Behind (t :: l)) :
    (s.resume failed t).1.Behind ((s.resume failed t).2 ++ l) := by
  have hloaded : ∀ token node, .storing token node ∈ l → token.uses < s.enrolled :=
    fun token node hmem => h.loaded token node (List.mem_cons_of_mem _ hmem)
  cases t with
  | finding node =>
    rw [Registry.resume]
    split
    · refine ⟨h.counter, fun token node hmem => ?_⟩
      rcases List.mem_cons.mp hmem with heq | hmem
      · cases heq
        exact h.counter
      · exact hloaded token node hmem
    · exact ⟨h.counter, hloaded⟩
  | storing token node =>
    rw [Registry.resume]
    split
    · exact ⟨h.counter, hloaded⟩
    · refine ⟨Nat.succ_lt_succ (h.loaded token node List.mem_cons_self), fun token' node' hmem => ?_⟩
      exact (hloaded token' node' hmem).trans (Nat.lt_succ_self _)
  | revoking => exact ⟨h.counter, hloaded⟩

theorem Start.counted (h : Start s₀) : s₀.rows.Counted s₀.tasks := by
  refine ⟨h.uses.trans h.enrolled.symm, fun max _ => ?_, fun token node hmem => ?_,
    fun token node hmem => ?_⟩
  · rw [h.enrolled]
    exact Nat.zero_le _
  · rw [h.tasks] at hmem
    cases hmem
  · rw [h.tasks] at hmem
    cases hmem

/-- In every run of a new token: the enrollments that succeed are at most its `maxUses`, and its
counter is their number, if and only if each use was counted on the row that its request had
loaded. -/
theorem enrollments_counted (hstart : Start s₀) (hrun : exec enrollments.step s₀ turns = some s₁) :
    ((∀ max ∈ s₁.rows.token.maxUses, s₁.rows.enrolled ≤ max) ∧
        s₁.rows.token.uses = s₁.rows.enrolled) ↔
      Along enrollments.step (Service.When Current) s₀ turns := by
  constructor
  · rintro ⟨-, hcounter⟩
    refine along_of_exec (P := fun s => s.rows.Counted s.tasks) (Q := fun s => s.rows.Behind s.tasks)
      ?_ ?_ ?_ hrun hstart.counted ?_
    · intro s turn s' hcurrent hs h
      exact Service.step_invariant (fun _ _ _ hl h => h.perm hl) (fun _ _ _ h => counted_arrive h)
        (fun _ _ _ _ hD h => counted_resume hD h) hcurrent hs h
    · intro s turn s' hcurrent hs h
      obtain ⟨e, rfl, -⟩ | ⟨i, x, t, l, rfl, ht, rfl, hbefore, hrows, hafter⟩ :=
        Service.step_cases hs
      · exact absurd trivial hcurrent
      · have hstale : ¬ s.rows.Current (replaceAt s.tasks i []) x t := by
          intro hD
          refine hcurrent fun t' ht' => ?_
          cases ht.symm.trans ht'
          exact hD
        have hbehind := behind_resume hstale (h.perm hbefore)
        rw [hrows]
        exact hbehind.perm hafter.symm
    · intro s turn s' hs h
      have hfree : Service.When (fun _ _ _ _ => True) s turn := by
        cases turn with
        | request e => trivial
        | answer i x => exact fun _ _ => trivial
      exact Service.step_invariant (fun _ _ _ hl h => h.perm hl) (fun _ _ _ h => h.arrive)
        (fun _ _ _ _ _ h => h.resume) hfree hs h
    · intro hbehind
      have hlt := hbehind.counter
      omega
  · intro hcurrent
    have h : s₁.rows.Counted s₁.tasks := by
      refine Service.run_invariant (P := Counted) ?_ ?_ ?_ hrun hcurrent hstart.counted
      · exact fun _ _ _ hl h => h.perm hl
      · exact fun _ _ _ h => counted_arrive h
      · exact fun _ _ _ _ hD h => counted_resume hD h
    exact ⟨h.bound, h.counter⟩

/-- A token for one use, or for as many as `maxUses` says. -/
def newToken (maxUses : ℕ) : Shared Registry EnrollTask :=
  ⟨⟨⟨some maxUses, 0, none, none⟩, [], 0, 0⟩, []⟩

theorem start_newToken (maxUses : ℕ) : Start (newToken maxUses) := ⟨rfl, rfl, rfl⟩

/-- Three machines, one after another. -/
def inTurn : List (Turn EnrollRequest Bool) :=
  [.request (.enroll ⟨1, 10⟩), .answer 0 false, .answer 0 false, .request (.enroll ⟨2, 20⟩),
    .answer 0 false, .answer 0 false, .request (.enroll ⟨3, 30⟩), .answer 0 false]

/-- With a token for two, the third is turned away. -/
theorem enrollments_counted_inTurn :
    ∃ s, exec enrollments.step (newToken 2) inTurn = some s ∧ s.rows.enrolled = 2 ∧
      s.tasks = [] ∧ s.rows.token.uses = s.rows.enrolled := by
  have hrun : exec enrollments.step (newToken 2) inTurn = some _ := rfl
  exact ⟨_, hrun, rfl, rfl, ((enrollments_counted (start_newToken 2) hrun).mpr (by decide)).2⟩

/-- Two machines at once, with a token for one. -/
def overlapping : List (Turn EnrollRequest Bool) :=
  [.request (.enroll ⟨1, 10⟩), .request (.enroll ⟨2, 20⟩), .answer 0 false, .answer 1 false,
    .answer 0 false, .answer 0 false]

/-- Both are enrolled, and one use is counted. -/
theorem enrollments_uncounted :
    ∃ s, Start (newToken 1) ∧ exec enrollments.step (newToken 1) overlapping = some s ∧
      s.rows.token.maxUses = some 1 ∧ s.rows.enrolled = 2 ∧ s.rows.token.uses = 1 :=
  ⟨_, start_newToken 1, rfl, rfl, rfl, rfl⟩

end Registry

end Nodes
