import Gsm.Machine.Tasks

/-!
# The console batcher

Goroutines in `Add`, `Flush` and `Close` of one batcher, a critical section at a time. A batch is taken in
a section and handed to the flush function outside it, so that another may be handed over in between, and
`Close` flushes in one section and marks the batcher closed in the next. `orderly` is about the runs in
which neither does harm.
-/

open Machine

namespace Instances.Batcher

variable {α : Type*}

def batchLines : ℕ := 200

/-- `timer`; a timer that has fired has started `Flush`, which stops it in its section. -/
inductive Timer where
  | off
  | armed
  | fired
deriving DecidableEq

/-- Who has taken a batch. -/
inductive Caller where
  | add
  | timer
  | close
deriving DecidableEq

/-- What a goroutine does next. -/
inductive Task (α : Type*) where
  | add (line : α)
  | flush (caller : Caller)
  /-- `flushFn` of the `n`-th batch that was taken -/
  | handOver (n : ℕ) (lines : List α) (caller : Caller)
  /-- the second section of `Close` -/
  | mark
deriving DecidableEq

/-- The batcher, with what it has accepted and handed over so far. -/
structure State (α : Type*) where
  lines : List α
  timer : Timer
  closed : Bool
  accepted : List α
  handed : List α
  /-- what was handed over after `Close` had returned -/
  late : List α
  taken : ℕ
deriving DecidableEq

inductive Request (α : Type*) where
  | add (line : α)
  | close
  /-- the time of the timer is over -/
  | fire
deriving DecidableEq

/-- What is left to do once a batch is handed over. -/
def Caller.next : Caller → List (Task α)
  | .close => [.mark]
  | _ => []

namespace State

/-- The section of `Flush`, and that of `Add` where the batch is full. -/
def takeBatch (s : State α) (caller : Caller) : State α × List (Task α) :=
  if s.lines = [] then ({ s with timer := .off }, caller.next)
  else
    ({ s with lines := [], timer := .off, taken := s.taken + 1 }, [.handOver s.taken s.lines caller])

/-- The section of `Add` -/
def add (s : State α) (line : α) : State α × List (Task α) :=
  if s.closed then (s, [])
  else
    let s := { s with lines := s.lines ++ [line], accepted := s.accepted ++ [line] }
    if batchLines ≤ s.lines.length then s.takeBatch .add
    else if s.timer = .off then ({ s with timer := .armed }, [])
    else (s, [])

/-- `flushFn` -/
def handOver (s : State α) (lines : List α) : State α :=
  { s with
    handed := s.handed ++ lines
    late := if s.closed then s.late ++ lines else s.late }

def arrive (s : State α) : Request α → State α × List (Task α)
  | .add line => (s, [.add line])
  | .close => (s, [.flush .close])
  | .fire => if s.timer = .armed then ({ s with timer := .fired }, [.flush .timer]) else (s, [])

def resume (s : State α) : Task α → State α × List (Task α)
  | .add line => s.add line
  | .flush caller => s.takeBatch caller
  | .handOver _ lines caller => (s.handOver lines, caller.next)
  | .mark => ({ s with closed := true }, [])

end State

def batcher : Service (State α) (Task α) (Request α) Unit where
  arrive := State.arrive
  resume s _ task := s.resume task

/-- `newBatcher` -/
def newBatcher : Shared (State α) (Task α) := ⟨⟨[], .off, false, [], [], [], 0⟩, []⟩

/-- The batches that are taken and not handed over yet. -/
def inFlight (tasks : List (Task α)) : List (ℕ × List α) :=
  tasks.filterMap fun
    | .handOver n lines _ => some (n, lines)
    | _ => none

/-- Accepted lines are handed over in order, all of them before `Close` returns and none after it; what is
pending has a timer, or a `Flush` that is about to take it. -/
structure Orderly (s : State α) (tasks : List (Task α)) : Prop where
  inOrder : s.handed <+: s.accepted
  pending : s.lines ≠ [] → s.timer = .armed ∨ .flush .timer ∈ tasks
  complete : inFlight tasks = [] → s.lines = [] → s.handed = s.accepted
  closed : s.closed = true → s.handed = s.accepted
  notLate : s.late = []

/-- A batch is handed over only when no older one still has to be, and `Close` marks the batcher closed only
when no line is left. -/
def Timely (s : State α) (tasks : List (Task α)) (_ : Unit) : Task α → Prop
  | .handOver n _ _ => ∀ b ∈ inFlight tasks, n < b.1
  | .mark => s.lines = [] ∧ inFlight tasks = []
  | _ => True

instance (s : State α) (tasks : List (Task α)) (x : Unit) (task : Task α) :
    Decidable (Timely s tasks x task) := by
  unfold Timely
  split <;> infer_instance

variable {s s' : State α} {tasks l l' : List (Task α)} {task : Task α} {line : α} {lines : List α}
  {caller : Caller} {n : ℕ}

theorem inFlight_append (l l' : List (Task α)) : inFlight (l ++ l') = inFlight l ++ inFlight l' :=
  List.filterMap_append

theorem inFlight_next (caller : Caller) : inFlight (caller.next : List (Task α)) = [] := by
  rcases caller with _ | _ | _ <;> rfl

/-! ## Every line is somewhere -/

/-- The lines that are accepted are handed over, in a batch or pending, in this order; none is once the
batcher is closed. -/
structure Stored (s : State α) (tasks : List (Task α)) : Prop where
  batches : ∃ bs, (inFlight tasks).Perm bs ∧ bs.Pairwise (fun b c => b.1 < c.1) ∧ (∀ b ∈ bs, b.1 < s.taken) ∧
    s.accepted = s.handed ++ bs.flatMap Prod.snd ++ s.lines
  closed : s.closed = true → s.lines = [] ∧ inFlight tasks = []
  notLate : s.late = []

/-- And what is pending has a timer, unless it has fired and its `Flush` is under way. -/
structure Kept (s : State α) (tasks : List (Task α)) : Prop extends Stored s tasks where
  timer : s.lines ≠ [] → s.timer ≠ .off
  fired : s.timer = .fired → .flush .timer ∈ tasks

theorem Kept.inOrder (h : Kept s tasks) : Orderly s tasks := by
  obtain ⟨bs, hperm, -, -, haccepted⟩ := h.batches
  have hall : inFlight tasks = [] → s.lines = [] → s.handed = s.accepted := by
    intro hnone hlines
    rw [hnone] at hperm
    rw [haccepted, List.nil_perm.mp hperm, hlines, List.flatMap_nil, List.append_nil, List.append_nil]
  refine ⟨⟨bs.flatMap Prod.snd ++ s.lines, by rw [haccepted, List.append_assoc]⟩, fun hne => ?_, hall,
    fun hclosed => ?_, h.notLate⟩
  · rcases htimer : s.timer with _ | _ | _
    · exact absurd htimer (h.timer hne)
    · exact .inl rfl
    · exact .inr (h.fired htimer)
  · obtain ⟨hlines, hnone⟩ := h.closed hclosed
    exact hall hnone hlines

theorem Stored.perm (h : Stored s l) (hl : (inFlight l).Perm (inFlight l')) : Stored s l' := by
  obtain ⟨bs, hperm, hrest⟩ := h.batches
  refine ⟨⟨bs, hl.symm.trans hperm, hrest⟩, fun hc => ?_, h.notLate⟩
  obtain ⟨hlines, hnone⟩ := h.closed hc
  rw [hnone] at hl
  exact ⟨hlines, List.nil_perm.mp hl⟩

theorem Kept.perm (h : Kept s l) (hl : l.Perm l') : Kept s l' :=
  ⟨h.toStored.perm (hl.filterMap _), h.timer, fun hf => hl.subset (h.fired hf)⟩

/-- Goroutines come that hand nothing over yet. -/
theorem Kept.more (h : Kept s l) (hnew : inFlight l' = []) : Kept s (l' ++ l) := by
  refine ⟨h.toStored.perm ?_, h.timer, fun hf => List.mem_append_right _ (h.fired hf)⟩
  rw [inFlight_append, hnew, List.nil_append]

/-! ## The sections -/

/-- A batch is taken. -/
theorem Stored.takeBatch (h : Stored s l) (caller : Caller) :
    Kept (s.takeBatch caller).1 ((s.takeBatch caller).2 ++ l) := by
  rw [State.takeBatch]
  split
  · next hnil =>
    have hkept : Kept { s with timer := .off } l :=
      ⟨⟨h.batches, h.closed, h.notLate⟩, fun hne => absurd hnil hne, fun hf => nomatch hf⟩
    exact hkept.more (inFlight_next caller)
  · next hne =>
    obtain ⟨bs, hperm, hsorted, hlt, haccepted⟩ := h.batches
    refine ⟨⟨⟨bs ++ [(s.taken, s.lines)], ?_, ?_, ?_, ?_⟩, fun hc => absurd (h.closed hc).1 hne, h.notLate⟩,
      fun hno => absurd rfl hno, fun hf => nomatch hf⟩
    · exact (hperm.cons _).trans (List.perm_append_singleton _ _).symm
    · rw [List.pairwise_append]
      refine ⟨hsorted, List.pairwise_singleton _ _, fun b hb c hc => ?_⟩
      rw [List.mem_singleton.mp hc]
      exact hlt b hb
    · intro b hb
      rcases List.mem_append.mp hb with hb | hb
      · exact Nat.lt_succ_of_lt (hlt b hb)
      · rw [List.mem_singleton.mp hb]
        exact Nat.lt_succ_self _
    · rw [List.flatMap_append, List.flatMap_singleton, List.append_nil, ← List.append_assoc]
      exact haccepted

/-- A line is accepted, with a timer to be armed if there is none. -/
theorem Kept.add (h : Kept s l) (line : α) : Kept (s.add line).1 ((s.add line).2 ++ l) := by
  rw [State.add]
  split
  · exact h
  · next hopen =>
    have hstored : Stored { s with lines := s.lines ++ [line], accepted := s.accepted ++ [line] } l := by
      obtain ⟨bs, hperm, hsorted, hlt, haccepted⟩ := h.batches
      refine ⟨⟨bs, hperm, hsorted, hlt, ?_⟩, fun hc => absurd hc hopen, h.notLate⟩
      show s.accepted ++ [line] = _
      rw [haccepted, List.append_assoc]
    dsimp only
    split
    · exact hstored.takeBatch .add
    · split
      · exact ⟨⟨hstored.batches, hstored.closed, hstored.notLate⟩, fun _ => nofun, fun hf => nomatch hf⟩
      · next hon => exact ⟨hstored, fun _ => hon, h.fired⟩

/-- The oldest batch is handed over. -/
theorem Kept.handOver (h : Kept s (.handOver n lines caller :: l)) (holdest : ∀ b ∈ inFlight l, n < b.1) :
    Kept (s.handOver lines) (caller.next ++ l) := by
  refine Kept.more ?_ (inFlight_next caller)
  have hopen : s.closed = false := by
    rcases hc : s.closed with _ | _
    · rfl
    · exact nomatch (h.closed hc).2
  obtain ⟨bs, hperm, hsorted, hlt, haccepted⟩ := h.batches
  have hfirst : ∃ bs', bs = (n, lines) :: bs' := by
    have hmem : (n, lines) ∈ bs := hperm.subset List.mem_cons_self
    rcases bs with _ | ⟨b, bs'⟩
    · exact nomatch hmem
    · rcases List.mem_cons.mp hmem with rfl | hmem
      · exact ⟨bs', rfl⟩
      · -- the first of them would be older, and still in flight
        exfalso
        have hless := (List.pairwise_cons.mp hsorted).1 _ hmem
        rcases List.mem_cons.mp (hperm.symm.subset List.mem_cons_self) with hb | hb
        · rw [hb] at hless
          exact Nat.lt_irrefl _ hless
        · exact Nat.lt_asymm hless (holdest b hb)
  obtain ⟨bs', rfl⟩ := hfirst
  refine ⟨⟨⟨bs', hperm.cons_inv, (List.pairwise_cons.mp hsorted).2,
    fun b hb => hlt b (List.mem_cons_of_mem _ hb), ?_⟩, fun hc => ?_, ?_⟩, h.timer, fun hf => ?_⟩
  · show s.accepted = s.handed ++ lines ++ bs'.flatMap Prod.snd ++ s.lines
    rw [haccepted, List.flatMap_cons, List.append_assoc s.handed lines]
  · exact absurd (hopen.symm.trans hc) Bool.false_ne_true
  · show (if s.closed then s.late ++ lines else s.late) = []
    rw [hopen]
    exact h.notLate
  · exact (List.mem_cons.mp (h.fired hf)).resolve_left nofun

theorem kept_arrive (h : Kept s l) (e : Request α) : Kept (s.arrive e).1 ((s.arrive e).2 ++ l) := by
  rcases e with line | _ | _
  · exact h.more rfl
  · exact h.more rfl
  · rw [State.arrive]
    split
    · exact ⟨⟨h.batches, h.closed, h.notLate⟩, fun _ => nofun, fun _ => List.mem_cons_self⟩
    · exact h

theorem kept_resume {x : Unit} (hd : Timely s l x task) (h : Kept s (task :: l)) :
    Kept (s.resume task).1 ((s.resume task).2 ++ l) := by
  rcases task with line | caller | ⟨n, lines, caller⟩ | _
  · have hwithout : Kept s l := ⟨h.toStored.perm (List.Perm.refl _), h.timer,
      fun hf => (List.mem_cons.mp (h.fired hf)).resolve_left nofun⟩
    exact hwithout.add line
  · have hperm : (inFlight (Task.flush caller :: l)).Perm (inFlight l) := List.Perm.refl _
    exact (h.toStored.perm hperm).takeBatch caller
  · exact h.handOver hd
  · have hperm : (inFlight (Task.mark :: l)).Perm (inFlight l) := List.Perm.refl _
    have hstored := h.toStored.perm hperm
    exact ⟨⟨hstored.batches, fun _ => hd, hstored.notLate⟩, h.timer,
      fun hf => (List.mem_cons.mp (h.fired hf)).resolve_left nofun⟩

/-! ## Runs -/

/-- In every run in which batches are handed over in the order in which they were taken, and nothing is left
when `Close` marks the batcher closed, every line is handed over once and in order, and none too late. -/
theorem orderly {turns : List (Turn (Request α) Unit)} {s : Shared (State α) (Task α)}
    (hrun : exec batcher.step newBatcher turns = some s)
    (htimely : Along batcher.step (Service.When Timely) newBatcher turns) : Orderly s.rows s.tasks := by
  have hstart : Kept (newBatcher (α := α)).rows [] :=
    ⟨⟨⟨[], List.Perm.refl _, List.Pairwise.nil, fun _ h => (nomatch h), rfl⟩, fun h => (nomatch h), rfl⟩,
      fun h => absurd rfl h, fun h => (nomatch h)⟩
  have hkept := Service.run_invariant (P := Kept) (fun _ _ _ hl h => h.perm hl)
    (fun s l e h => kept_arrive h e) (fun s l x task hd h => kept_resume hd h) hrun htimely hstart
  exact hkept.inOrder

/-- Two lines, the first of which the timer flushes, and the second `Close`. -/
def timerThenClose : List (Turn (Request ℕ) Unit) :=
  [.request (.add 0), .answer 0 (), .request .fire, .answer 0 (), .answer 0 (), .request (.add 1),
    .answer 0 (), .request .close, .answer 0 (), .answer 0 (), .answer 0 ()]

theorem orderly_timerThenClose : ∃ s, exec batcher.step newBatcher timerThenClose = some s ∧
    s.rows.closed = true ∧ s.rows.handed = [0, 1] ∧ Orderly s.rows s.tasks := by
  have hrun : exec batcher.step newBatcher timerThenClose =
      some ⟨⟨[], .off, true, [0, 1], [0, 1], [], 2⟩, []⟩ := rfl
  exact ⟨_, hrun, rfl, rfl, orderly hrun (by decide)⟩

/-- The timer takes two batches one after the other, and the second is handed over first. -/
def overtaken : List (Turn (Request ℕ) Unit) :=
  [.request (.add 0), .answer 0 (), .request .fire, .answer 0 (), .request (.add 1), .answer 1 (),
    .request .fire, .answer 1 (), .answer 1 (), .answer 0 ()]

/-- A line comes between the two sections of `Close`. -/
def between : List (Turn (Request ℕ) Unit) :=
  [.request .close, .answer 0 (), .request (.add 0), .answer 1 (), .answer 0 (), .request .fire,
    .answer 0 (), .answer 0 ()]

/-- Lines are handed over in another order than they were accepted, and after `Close` has returned. -/
theorem not_orderly :
    (∃ s, exec batcher.step newBatcher overtaken = some s ∧ s.rows.accepted = [0, 1] ∧
      s.rows.handed = [1, 0] ∧ ¬ Orderly s.rows s.tasks) ∧
    ∃ s, exec batcher.step newBatcher between = some s ∧ s.rows.late = [0] ∧ ¬ Orderly s.rows s.tasks := by
  refine ⟨⟨_, rfl, rfl, rfl, fun h => ?_⟩, ⟨_, rfl, rfl, fun h => ?_⟩⟩
  · exact absurd h.inOrder (by decide)
  · exact absurd h.notLate (by decide)

end Instances.Batcher
