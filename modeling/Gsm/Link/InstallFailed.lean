import Gsm.Link.System

/-!
# A failed install stays recorded

The server owns the status `install_failed`: `install` records it when the agent's request has
failed, and `reconcile` and `markUnknown` pass over rows that have it. Here it is what the row ends
with and keeps, unless a state the agent reports is applied to the row after the failure: an event
that is handled late, the list that a reconcile asks for, or a change that another handler computed
before and saves after.
-/

open GoStd Instances Server Machine

namespace Link

variable {s s' : State} {a : Action} {as : List Action} {f : Task → List Task} {t : Task} {now : ℕ}

/-- The handler is `install`, or about to record that one has failed. -/
def Task.installs : Task → Bool
  | .installing _ => true
  | .finishing _ => true
  | .saving _ after => after.status = .installFailed
  | _ => false

/-- The install handlers under way. -/
def installs (s : State) : List Task := s.tasks.filter Task.installs

/-- One install is under way: the row says so, and its handler waits for the agent. -/
structure Installing (s : State) : Prop where
  row : s.row.status = .installing
  waits : ∃ id, installs s = [.installing id]
  wire : ∀ id, .installed id 0 ∉ s.wire

/-- The agent answers no install with success. -/
def Fails : Action → Prop
  | .reply (.installed _ exitCode) => exitCode ≠ 0
  | _ => True

/-- The step leaves a recorded failure alone. When the failure is saved, no other handler is about to
save another status; after that, no event is applied to the row, and a list that a reconcile has
asked for agrees with the row the reconcile has loaded. -/
def Undisturbed (s : State) : Action → Prop
  | .save i =>
      ∀ before after, s.tasks[i]? = some (.saving before after) → after.status = .installFailed →
        ∀ j, j ≠ i → ∀ before after, s.tasks[j]? = some (.saving before after) →
          after.status = before.status
  | .load i _ => s.row.status = .installFailed → ∀ state, s.tasks[i]? ≠ some (.onState state)
  | .deliver _ =>
      s.row.status = .installFailed → ∀ id state row, s.wire.head? = some (.listed id state) →
        .listing id row ∈ s.tasks → KeepsStatus row state
  | _ => True

/-! ## The course of the install -/

/-- Where the install is, and what the other handlers may still do to the row. -/
inductive Course (s : State) : Prop
  | waiting (id : ℕ) (hinstalls : installs s = [.installing id])
      (hrow : s.row.status ≠ .installFailed)
  | finishing (res : InstallResult) (hres : res.Failed) (hinstalls : installs s = [.finishing res])
      (hrow : s.row.status ≠ .installFailed)
  | saving (before after : Row) (hbefore : before.status ≠ .installFailed)
      (hinstalls : installs s = [.saving before after]) (hrow : s.row.status ≠ .installFailed)
  | recorded (hinstalls : installs s = []) (hrow : s.row.status = .installFailed)
      (hkeep : ∀ before after, .saving before after ∈ s.tasks → after.status = before.status)

/-- Once the failure is recorded, the changes about to be saved leave the status. -/
theorem Course.keep (h : Course s) (hrow : s.row.status = .installFailed) {before after : Row}
    (ht : .saving before after ∈ s.tasks) : after.status = before.status := by
  cases h with
  | waiting id hinstalls hne => exact absurd hrow hne
  | finishing res hres hinstalls hne => exact absurd hrow hne
  | saving before after hbefore hinstalls hne => exact absurd hrow hne
  | recorded hinstalls hrow hkeep => exact hkeep before after ht

/-- A step that leaves the install where it is. -/
theorem Course.congr (h : Course s) (hinstalls : installs s' = installs s)
    (hrow : s'.row.status = .installFailed ↔ s.row.status = .installFailed)
    (hkeep : s.row.status = .installFailed → ∀ before after, .saving before after ∈ s'.tasks →
      .saving before after ∈ s.tasks ∨ after.status = before.status) : Course s' := by
  cases h with
  | waiting id hi hne => exact .waiting id (hinstalls.trans hi) (mt hrow.mp hne)
  | finishing res hres hi hne => exact .finishing res hres (hinstalls.trans hi) (mt hrow.mp hne)
  | saving before after hbefore hi hne =>
    exact .saving before after hbefore (hinstalls.trans hi) (mt hrow.mp hne)
  | recorded hi hfailed hk =>
    refine .recorded (hinstalls.trans hi) (hrow.mpr hfailed) fun before after ht => ?_
    obtain hold | hnew := hkeep hfailed before after ht
    · exact hk before after hold
    · exact hnew

/-! ## Handlers that are told something -/

/-- What a message or a failure makes of each handler: only `install` goes on to record a failure. -/
structure Tells (f : Task → List Task) : Prop where
  other : ∀ t, t.installs = false → (f t).filter Task.installs = []
  install : ∀ t, t.installs = true →
    f t = [t] ∨ ∃ id res, t = .installing id ∧ InstallResult.Failed res ∧ f t = [.finishing res]

theorem Tells.filter_flatMap (hf : Tells f) (tasks : List Task) :
    (tasks.flatMap f).filter Task.installs = (tasks.filter Task.installs).flatMap f := by
  induction tasks with
  | nil => rfl
  | cons t tasks ih =>
    rw [List.flatMap_cons, List.filter_append, ih]
    cases ht : t.installs with
    | false => rw [hf.other t ht, List.filter_cons_of_neg (by simp [ht]), List.nil_append]
    | true =>
      rw [List.filter_cons_of_pos ht, List.flatMap_cons]
      congr 1
      obtain hsame | ⟨id, res, rfl, -, hfin⟩ := hf.install t ht
      · rw [hsame, List.filter_cons_of_pos ht, List.filter_nil]
      · rw [hfin]
        rfl

/-- All handlers are told, and others begin. -/
theorem Course.tell (h : Course s) (hf : Tells f) (new : List Task)
    (hnew : ∀ t ∈ new, t.installs = false ∧ ∀ before after, t ≠ .saving before after)
    (htasks : s'.tasks = s.tasks.flatMap f ++ new) (hrow : s'.row = s.row)
    (hkeep : s.row.status = .installFailed → ∀ t ∈ s.tasks, ∀ before after,
      .saving before after ∈ f t → t = .saving before after ∨ after.status = before.status) :
    Course s' := by
  have hnone : new.filter Task.installs = [] :=
    List.filter_eq_nil_iff.mpr fun t ht => by simp [(hnew t ht).1]
  have hinstalls : installs s' = (installs s).flatMap f := by
    rw [installs, htasks, List.filter_append, hf.filter_flatMap, hnone, List.append_nil, installs]
  have carry : installs s' = installs s → Course s' := by
    refine fun hsame => h.congr hsame (by rw [hrow]) fun hfailed before after ht => ?_
    rw [htasks, List.mem_append, List.mem_flatMap] at ht
    obtain ⟨t, ht, hft⟩ | ht := ht
    · obtain rfl | hstatus := hkeep hfailed t ht before after hft
      · exact .inl ht
      · exact .inr hstatus
    · exact absurd rfl ((hnew _ ht).2 before after)
  have single : ∀ {t}, installs s = [t] → t.installs = true := by
    intro t ht
    exact (List.mem_filter.mp (ht ▸ List.mem_singleton_self t : t ∈ installs s)).2
  cases h with
  | waiting id hi hne =>
    obtain hsame | ⟨id, res, -, hres, hfin⟩ := hf.install _ (single hi)
    · exact carry (by rw [hinstalls, hi]; simpa using hsame)
    · exact .finishing res hres (by rw [hinstalls, hi]; simpa using hfin) (hrow ▸ hne)
  | finishing res hres hi hne =>
    obtain hsame | ⟨id, res, h, -⟩ := hf.install _ (single hi)
    · exact carry (by rw [hinstalls, hi]; simpa using hsame)
    · cases h
  | saving before after hbefore hi hne =>
    obtain hsame | ⟨id, res, h, -⟩ := hf.install _ (single hi)
    · exact carry (by rw [hinstalls, hi]; simpa using hsame)
    · cases h
  | recorded hi hfailed hk => exact carry (by rw [hinstalls, hi]; rfl)

/-- A handler that leaves failures alone saves none. -/
theorem filter_settle {before after : Row} (h : after.status = .installFailed → after = before) :
    (settle before after).filter Task.installs = [] := by
  unfold settle
  split
  case isTrue => rfl
  case isFalse hne => simp [Task.installs, mt h hne]

theorem tells_abort (err : Str) : Tells (Task.abort err) where
  other t ht := by cases t <;> simp_all [Task.abort, Task.installs]
  install t ht := by
    cases t with
    | installing id => exact .inr ⟨id, _, rfl, by simp [InstallResult.Failed], rfl⟩
    | _ => simp_all [Task.abort, Task.installs]

/-- Only those handlers are told whose request it is. -/
theorem tells_request (id : ℕ) (err : Str) :
    Tells fun t => if t.request? = some id then t.abort err else [t] where
  other t ht := by
    split
    · exact (tells_abort err).other t ht
    · simp [ht]
  install t ht := by
    split
    · exact (tells_abort err).install t ht
    · exact .inl rfl

theorem tells_answer {m : Message} (hm : ∀ id, m ≠ .installed id 0) : Tells (Task.answer m now) := by
  match m with
  | .status state => exact ⟨fun t ht => by simp [Task.answer, ht], fun t _ => .inl rfl⟩
  | .failed id err => exact tells_request id err
  | .installed id exitCode =>
    refine ⟨fun t ht => ?_, fun t ht => ?_⟩
    · cases t <;> simp_all [Task.answer, Task.installs]
    · cases t with
      | installing id' =>
        have hcode : exitCode ≠ 0 := fun h => hm id (by rw [h])
        rw [Task.answer]
        split
        · exact .inr ⟨id', _, rfl, by simpa [InstallResult.Failed] using hcode, rfl⟩
        · exact .inl rfl
      | _ => simp_all [Task.answer, Task.installs]
  | .listed id state =>
    refine ⟨fun t ht => ?_, fun t ht => ?_⟩
    · cases t with
      | listing id' row =>
        rw [Task.answer]
        split
        · exact filter_settle reconcileRow_installFailed
        · rfl
      | _ => simp_all [Task.answer, Task.installs]
    · cases t <;> simp_all [Task.answer, Task.installs]

theorem saving_mem_abort {err : Str} {before after : Row} (h : .saving before after ∈ t.abort err) :
    t = .saving before after := by
  cases t <;> simp_all [Task.abort]

/-- What a handler saves at an answer, it was about to save, or it is a reconcile's change. -/
theorem saving_mem_answer {m : Message} {before after : Row}
    (h : .saving before after ∈ t.answer m now) :
    t = .saving before after ∨
      ∃ id state, m = .listed id state ∧ t = .listing id before ∧
        after = reconcileRow before state now := by
  unfold Task.answer at h
  split at h
  case h_1 =>
    left
    split at h <;> simp_all
  case h_2 id state id' row =>
    split at h
    case isTrue hid =>
      unfold settle at h
      split at h
      · simp at h
      · simp only [List.mem_singleton, Task.saving.injEq] at h
        exact .inr ⟨id, state, rfl, by rw [hid, h.1], by rw [h.2, h.1]⟩
    case isFalse => simp at h
  case h_3 =>
    split at h
    · exact .inl (saving_mem_abort h)
    · exact .inl (by simpa [eq_comm] using h)
  case h_4 => exact .inl (by simpa [eq_comm] using h)

/-! ## One handler -/

variable {i : ℕ} {new : List Task}

/-- A handler other than `install` goes on. -/
theorem installs_replaceAt (h : s.tasks[i]? = some t) (ht : t.installs = false)
    (hnew : new.filter Task.installs = []) (htasks : s'.tasks = replaceAt s.tasks i new) :
    installs s' = installs s := by
  obtain ⟨front, back, hsplit, hreplace⟩ := replaceAt_eq h
  rw [installs, installs, htasks, hreplace, hsplit]
  simp [hnew, ht]

/-- The install goes on. -/
theorem installs_replaceAt_install (h : s.tasks[i]? = some t) (ht : t.installs = true)
    (htasks : s'.tasks = replaceAt s.tasks i new) {u : Task} (hu : installs s = [u]) :
    u = t ∧ installs s' = new.filter Task.installs := by
  obtain ⟨front, back, hsplit, hreplace⟩ := replaceAt_eq h
  rw [installs, hsplit, List.filter_append, List.filter_cons_of_pos ht,
    List.append_eq_singleton_iff] at hu
  obtain ⟨hfront, hback⟩ | ⟨-, hback⟩ := hu
  · obtain ⟨rfl, hnil⟩ := List.cons_eq_cons.mp hback
    refine ⟨rfl, ?_⟩
    rw [installs, htasks, hreplace, List.filter_append, List.filter_append, hfront, hnil,
      List.nil_append, List.append_nil]
  · cases hback

/-- A handler of the kind of `install` is the one the course names. -/
theorem mem_installs (h : s.tasks[i]? = some t) (ht : t.installs = true) : t ∈ installs s :=
  List.mem_filter.mpr ⟨List.mem_of_getElem? h, ht⟩

/-- `install` is about to record the failure. -/
theorem Course.finish {res : InstallResult} (h : Course s)
    (htask : s.tasks[i]? = some (.finishing res)) (hrow : s'.row = s.row)
    (htasks : s'.tasks = replaceAt s.tasks i (settle s.row (finishInstall s.row res now))) :
    Course s' := by
  have hmem := mem_installs htask rfl
  cases h with
  | waiting id hi hne => simp [hi] at hmem
  | saving before after hbefore hi hne => simp [hi] at hmem
  | recorded hi hfailed hk => simp [hi] at hmem
  | finishing res' hres hi hne =>
    obtain ⟨heq, hinstalls⟩ := installs_replaceAt_install htask rfl htasks hi
    cases heq
    have hstatus : (finishInstall s.row res now).status = .installFailed := status_finishInstall hres
    refine .saving s.row (finishInstall s.row res now) hne ?_ (hrow ▸ hne)
    rw [hinstalls, settle, if_neg fun h => hne (by rw [← h, hstatus])]
    simp [Task.installs, hstatus]

/-- A handler goes on with the row it has loaded. -/
theorem Course.load (h : Course s) (hu : Undisturbed s (.load i now))
    (hs : step s (.load i now) = some s') : Course s' := by
  obtain ⟨task, new, htask, hnew, rfl⟩ := step_load_eq_some hs
  have other : task.installs = false → new.filter Task.installs = [] →
      (s.row.status = .installFailed → ∀ before after, .saving before after ∉ new) →
      Course { s with tasks := replaceAt s.tasks i new, nextId := s.nextId + 1 } := by
    intro ht hnew hnone
    refine h.congr (installs_replaceAt htask ht hnew rfl) Iff.rfl fun hfailed before after hmem => ?_
    exact .inl ((mem_replaceAt hmem).resolve_right (hnone hfailed before after))
  cases task with
  | onState state =>
    cases hnew
    refine other rfl (filter_settle applyState_installFailed) fun hfailed => ?_
    exact absurd htask (hu hfailed state)
  | reconciling =>
    cases hnew
    refine other rfl ?_ fun _ before after => ?_ <;> split <;> simp [Task.installs]
  | markingUnknown =>
    cases hnew
    refine other rfl (filter_settle markUnknownRow_installFailed) fun hfailed before after => ?_
    simp [settle, markUnknownRow, hfailed]
  | finishing res =>
    cases hnew
    exact h.finish htask rfl rfl
  | installing id => cases hnew
  | listing id row => cases hnew
  | saving before after => cases hnew

theorem Course.save (h : Course s) (hu : Undisturbed s (.save i))
    (hs : step s (.save i) = some s') : Course s' := by
  obtain ⟨before, after, htask, hs'⟩ := step_save_eq_some hs
  have htasks : s'.tasks = replaceAt s.tasks i [] := by rw [hs']
  have hrow : s'.row = s.row.save before after := by rw [hs']
  by_cases hafter : after.status = .installFailed
  · have hinstall : (Task.saving before after).installs = true := by simp [Task.installs, hafter]
    have hmem := mem_installs htask hinstall
    cases h with
    | waiting id hi hne => simp [hi] at hmem
    | finishing res hres hi hne => simp [hi] at hmem
    | recorded hi hfailed hk => simp [hi] at hmem
    | saving before' after' hbefore hi hne =>
      obtain ⟨heq, hinstalls⟩ := installs_replaceAt_install htask hinstall htasks hi
      cases heq
      refine .recorded hinstalls ?_ fun before' after' hmem => ?_
      · rw [hrow, status_save, if_neg fun h => hbefore (by rw [← h, hafter]), hafter]
      · obtain ⟨j, hj, htask'⟩ := mem_replaceAt_nil (htasks ▸ hmem)
        exact hu before after htask hafter j hj before' after' htask'
  · have hinstall : (Task.saving before after).installs = false := by simp [Task.installs, hafter]
    refine h.congr (installs_replaceAt htask hinstall rfl htasks) ?_ fun _ before after hmem => ?_
    · rw [hrow, status_save]
      split
      case isTrue => rfl
      case isFalse hne =>
        exact ⟨fun h => absurd h hafter,
          fun h' => absurd (h.keep h' (List.mem_of_getElem? htask)) hne⟩
    · obtain ⟨j, -, htask'⟩ := mem_replaceAt_nil (htasks ▸ hmem)
      exact .inl (List.mem_of_getElem? htask')

/-! ## A run -/

structure Failing (s : State) : Prop where
  course : Course s
  wire : ∀ id, .installed id 0 ∉ s.wire

theorem Installing.failing (h : Installing s) : Failing s := by
  obtain ⟨id, hid⟩ := h.waits
  exact ⟨.waiting id hid (by simp [h.row]), h.wire⟩

/-- The oldest message arrives. -/
theorem Failing.deliver (h : Failing s) (hu : Undisturbed s (.deliver now))
    (hs : step s (.deliver now) = some s') : Failing s' := by
  obtain ⟨m, wire, hwire, rfl⟩ := step_deliver_eq_some hs
  have hm : ∀ id, m ≠ .installed id 0 := fun id hm => h.wire id (by simp [hwire, hm])
  refine ⟨?_, fun id hid => h.wire id (by simp [hwire, hid])⟩
  have told (hreceive : receive s m now = s.tasks.flatMap (Task.answer m now)) :
      Course { s with wire := wire, tasks := receive s m now } := by
    refine h.course.tell (tells_answer hm) [] (by simp) (by simpa using hreceive) rfl ?_
    intro hfailed t ht before after hsaving
    obtain hsame | ⟨id, state, rfl, rfl, rfl⟩ := saving_mem_answer hsaving
    · exact .inl hsame
    · exact .inr (status_reconcileRow_iff.mpr (hu hfailed id state before (by simp [hwire]) ht))
  match m with
  | .status state =>
    refine h.course.congr ?_ Iff.rfl fun _ before after ht => ?_
    · rw [installs, installs, receive]
      split <;> simp [Task.installs]
    · left
      rw [receive] at ht
      split at ht <;> simpa using ht
  | .installed id exitCode => exact told rfl
  | .listed id state => exact told rfl
  | .failed id err => exact told rfl

/-- The agent's answers to an install are failures. -/
theorem Failing.reply (h : Failing s) {m : Message} (hm : Fails (.reply m))
    (hs : step s (.reply m) = some s') : Failing s' := by
  have hm' : ∀ id, m ≠ .installed id 0 := by
    rintro id rfl
    exact hm rfl
  obtain rfl := step_reply_eq_some hs
  refine ⟨h.course.congr rfl Iff.rfl fun _ before after ht => .inl ht, fun id hid => ?_⟩
  dsimp only at hid
  split at hid
  · rw [List.mem_append, List.mem_singleton] at hid
    exact hid.elim (h.wire id) fun h => hm' id h.symm
  · exact h.wire id hid

/-- Failed requests and new handlers of the supervisor. -/
theorem Failing.tell (h : Failing s) (hf : Tells f)
    (hsaving : ∀ t before after, .saving before after ∈ f t → t = .saving before after)
    (new : List Task)
    (hnew : ∀ t ∈ new, t.installs = false ∧ ∀ before after, t ≠ .saving before after)
    (htasks : s'.tasks = s.tasks.flatMap f ++ new) (hrow : s'.row = s.row)
    (hwire : ∀ m ∈ s'.wire, m ∈ s.wire) : Failing s' where
  course := h.course.tell hf new hnew htasks hrow fun _ t _ before after ht =>
    .inl (hsaving t before after ht)
  wire id hid := h.wire id (hwire _ hid)

theorem Failing.next (h : Failing s) (ha : Fails a) (hu : Undisturbed s a)
    (hs : step s a = some s') : Failing s' := by
  have still (hinstalls : s'.tasks = s.tasks) (hrow : s'.row = s.row)
      (hwire : ∀ id, .installed id 0 ∈ s'.wire → .installed id 0 ∈ s.wire) : Failing s' := by
    refine ⟨h.course.congr (by rw [installs, installs, hinstalls]) (by rw [hrow]) ?_,
      fun id hid => h.wire id (hwire id hid)⟩
    exact fun _ before after ht => .inl (hinstalls ▸ ht)
  cases a with
  | op o =>
    cases hs
    exact still rfl rfl fun id hid => hid
  | mark marker =>
    cases hs
    exact still rfl rfl fun id hid => hid
  | send i =>
    obtain ⟨state, -, rfl⟩ := step_send_eq_some hs
    refine still rfl rfl fun id hid => ?_
    dsimp only at hid
    split at hid <;> simpa using hid
  | reply m => exact h.reply ha hs
  | deliver now => exact h.deliver hu hs
  | load i now =>
    refine ⟨h.course.load hu hs, fun id hid => ?_⟩
    obtain ⟨task, new, -, -, rfl⟩ := step_load_eq_some hs
    exact h.wire id hid
  | save i =>
    refine ⟨h.course.save hu hs, fun id hid => ?_⟩
    obtain ⟨before, after, -, rfl⟩ := step_save_eq_some hs
    exact h.wire id hid
  | connect =>
    cases hs
    exact h.tell (tells_abort _) (fun _ _ _ => saving_mem_abort) [] (by simp)
      (List.append_nil _).symm rfl (by simp)
  | hello =>
    rw [step] at hs
    split at hs
    case isFalse => cases hs
    case isTrue =>
      cases hs
      exact h.tell ⟨fun t ht => by simp [ht], fun t _ => .inl rfl⟩
        (fun t before after ht => by simpa [eq_comm] using ht) [.reconciling]
        (by simp [Task.installs]) (by simp) rfl (by simp)
  | disconnect changed =>
    cases hs
    refine h.tell (tells_abort _) (fun _ _ _ => saving_mem_abort) _ ?_ rfl rfl (by simp)
    split <;> simp [Task.installs]
  | timeout id timeoutMs =>
    cases hs
    refine h.tell (tells_request id _) (fun t before after ht => ?_) [] (by simp)
      (List.append_nil _).symm rfl (by simp)
    split at ht
    · exact saving_mem_abort ht
    · simpa [eq_comm] using ht

/-- Only a save changes the row. -/
theorem step_row (hs : step s a = some s') (ha : ∀ i, a ≠ .save i) : s'.row = s.row := by
  cases a with
  | save i => exact absurd rfl (ha i)
  | send i =>
    obtain ⟨state, -, rfl⟩ := step_send_eq_some hs
    rfl
  | deliver now =>
    obtain ⟨m, wire, -, rfl⟩ := step_deliver_eq_some hs
    rfl
  | load i now =>
    obtain ⟨task, new, -, -, rfl⟩ := step_load_eq_some hs
    rfl
  | reply m => rw [step_reply_eq_some hs]
  | hello =>
    rw [step] at hs
    split at hs <;> cases hs
    rfl
  | _ =>
    cases hs
    rfl

/-- A recorded failure stays. -/
theorem Failing.keeps (h : Failing s) (hrow : s.row.status = .installFailed)
    (hs : step s a = some s') : s'.row.status = .installFailed := by
  by_cases ha : ∃ i, a = .save i
  · obtain ⟨i, rfl⟩ := ha
    obtain ⟨before, after, htask, rfl⟩ := step_save_eq_some hs
    rw [status_save, if_pos (h.course.keep hrow (List.mem_of_getElem? htask)), hrow]
  · rw [step_row hs fun i hi => ha ⟨i, hi⟩, hrow]

theorem Failing.row (h : Failing s) (hover : installs s = []) : s.row.status = .installFailed := by
  cases h.course with
  | waiting id hi hne => simp [hi] at hover
  | finishing res hres hi hne => simp [hi] at hover
  | saving before after hbefore hi hne => simp [hi] at hover
  | recorded hi hrow hk => exact hrow

end Link
