import Gsm.Instances.Steps

/-!
# What a step of the manager is

A goroutine gets a lock, or one that holds a lock goes on, or something happens beside the operations:
a record is fetched or adopted, a container ends or is removed after its exit, a section changes a
record. `does_of_step` says so once for all actions but the start of a new agent process, and the
invariants of the map, the records and the containers together are derived from it.
-/

open GoStd Machine

namespace Instances

variable {r : ℕ} {d : Docker} {i i' : Inst} {x : Reply} {h : Holder} {m m' : Manager}
  {a : Manager.Action} {uuid : Str}

/-! ## Containers -/

/-- A container after a call was there before, and ran unless the call has started it; or the call has
created it. -/
theorem Docker.mem_perform {call : Option Docker.Call} {c' : Container} (hc' : c' ∈ d.perform call) :
    (∃ c ∈ d, c'.id = c.id ∧ c'.name = c.name ∧ c'.owner = c.owner ∧ (c'.status = .running →
      c.status = .running ∨ ∃ ref, call = some (.start ref) ∧ c.isRef ref = true)) ∨
      call = some (.create c') := by
  match call with
  | none => exact .inl ⟨c', hc', rfl, rfl, rfl, .inl⟩
  | some (.halt ref code) =>
    obtain ⟨c, hc, hid, hname, howner, -, hrun⟩ := mem_halt hc'
    exact .inl ⟨c, hc, hid, hname, howner, fun h => .inl (by rw [(hrun h).1]; exact h)⟩
  | some (.remove ref) => exact .inl ⟨c', (mem_remove.mp hc').1, rfl, rfl, rfl, .inl⟩
  | some (.start ref) =>
    obtain ⟨c, hc, hid, hname, howner, -, heq | ⟨href, -⟩⟩ := mem_start hc'
    · subst heq
      exact .inl ⟨c, hc, rfl, rfl, rfl, .inl⟩
    · exact .inl ⟨c, hc, hid, hname, howner, fun _ => .inr ⟨ref, rfl, href⟩⟩
  | some (.create c) =>
    rcases List.mem_append.mp hc' with hc' | hc'
    · exact .inl ⟨c', hc', rfl, rfl, rfl, .inl⟩
    · rw [List.mem_singleton.mp hc']
      exact .inr rfl

/-! ## Sections -/

/-- A section on a record by a goroutine that does not hold the record's `opMu`. -/
inductive Inst.Section (i : Inst) : Inst → Prop where
  | same : i.Section i
  | ready : i.Section { i with record := (i.record.apply .matchReady).1 }
  | exit (id : Str) (code : ℤ) (err : Option Str) (now : ℕ) (hid : i.record.containerID = some id) :
      i.Section (i.exit id code err now).1
  | exited (id : Str) : i.Section { i with exited := id :: i.exited }
  | lockDb (db : DatabaseSpec) (hfree : i.dbMu = none) :
      i.Section { i with dbMu := some (.task db true .inspect) }

theorem Inst.Section.same_uuid (h : i.Section i') : i'.uuid = i.uuid := by
  cases h with
  | exit id code err now hid => exact exit_uuid
  | _ => rfl

theorem Inst.Section.same_opMu (h : i.Section i') : i'.opMu = i.opMu := by
  cases h with
  | exit id code err now hid => exact exit_record.2
  | _ => rfl

/-- An adopted instance is at rest. -/
theorem adopt_locks {c : Container} {stored : Option InstanceSpec} :
    ((Inst.new uuid).adopt c stored x).opMu = none ∧
      ((Inst.new uuid).adopt c stored x).dbMu = none := by
  simp only [Inst.adopt]
  split
  · split <;> exact ⟨rfl, rfl⟩
  · exact ⟨rfl, rfl⟩

namespace Manager

/-! ## Steps beside the operations -/

/-- What ends or removes a container without an operation. -/
inductive Beside (m : Manager) : Action → Docker.Call → Prop where
  | ends (name : ContainerName) (code : ℤ) : m.Beside (.ends name code) (.halt (.name name) code)
  | watched {a : Action} (w : Watcher) (hw : w ∈ m.watchers) : m.Beside a (.remove (.id w.id))
  | listed {a : Action} (c : Container) (hc : c ∈ m.reconcile) : m.Beside a (.remove (.id c.id))

/-- A step that takes no operation further. -/
structure Aside (m : Manager) (a : Action) (m' : Manager) : Prop where
  le : m.next ≤ m'.next
  insts : ∀ uuid r, m.insts uuid = some r → m'.insts uuid = some r
  old : ∀ r, r < m.next → (m.recs r).Section (m'.recs r)
  made : ∀ r, r < m'.next → ¬ r < m.next → m'.insts (m'.recs r).uuid = some r ∧
    ((∃ uuid, m'.recs r = .new uuid) ∨
      ∃ c ∈ m.reconcile, ∃ stored x, m'.recs r = (Inst.new c.name.uuid).adopt c stored x)
  docker : ∃ call, m'.docker = m.docker.perform call ∧ ∀ c ∈ call, m.Beside a c
  watchers : ∀ w' ∈ m'.watchers,
    (∃ w ∈ m.watchers, w'.id = w.id) ∨ ∃ c ∈ m.reconcile, w'.id = c.id
  queue : ∀ p ∈ m'.queue,
    p ∈ m.queue ∨ (∃ uuid, a = .request uuid p.2) ∨ ∃ g, p.2 = .crash g
  reconcile : ∀ c ∈ m'.reconcile, c ∈ m.reconcile

/-- One record is changed. -/
theorem aside_set (hsection : (m.recs r).Section i) (hrecs : m'.recs = Function.update m.recs r i)
    (hinsts : m'.insts = m.insts) (hnext : m'.next = m.next)
    (hdocker : ∃ call, m'.docker = m.docker.perform call ∧ ∀ c ∈ call, m.Beside a c)
    (hwatchers : ∀ w' ∈ m'.watchers, ∃ w ∈ m.watchers, w'.id = w.id)
    (hqueue : ∀ p ∈ m'.queue, p ∈ m.queue ∨ ∃ g, p.2 = .crash g)
    (hrec : m'.reconcile = m.reconcile) : m.Aside a m' where
  le := hnext ▸ Nat.le_refl _
  insts uuid r' h := hinsts ▸ h
  old r' _ := by
    rw [hrecs]
    by_cases hr : r' = r
    · subst hr
      rw [Function.update_self]
      exact hsection
    · rw [Function.update_of_ne hr]
      exact .same
  made r' h h' := absurd (hnext ▸ h) h'
  docker := hdocker
  watchers w hw := .inl (hwatchers w hw)
  queue p hp := (hqueue p hp).imp_right .inr
  reconcile c hc := hrec ▸ hc

theorem aside_same (hrecs : m'.recs = m.recs) (hinsts : m'.insts = m.insts) (hnext : m'.next = m.next)
    (hdocker : ∃ call, m'.docker = m.docker.perform call ∧ ∀ c ∈ call, m.Beside a c)
    (hwatchers : m'.watchers = m.watchers) (hqueue : m'.queue = m.queue)
    (hrec : m'.reconcile = m.reconcile) : m.Aside a m' := by
  refine aside_set (r := 0) (i := m.recs 0) .same ?_ hinsts hnext hdocker (fun w hw => ?_)
    (fun p hp => .inl (hqueue ▸ hp)) hrec
  · rw [hrecs, Function.update_eq_self]
  · exact ⟨w, hwatchers ▸ hw, rfl⟩

theorem no_call (hdocker : m'.docker = m.docker) :
    ∃ call, m'.docker = m.docker.perform call ∧ ∀ c ∈ call, m.Beside a c :=
  ⟨none, hdocker, fun _ h => nomatch h⟩

/-- A record is fetched, and made if there is none. -/
theorem aside_get (hrecs : m'.recs = (m.get uuid).1.recs) (hinsts : m'.insts = (m.get uuid).1.insts)
    (hnext : m'.next = (m.get uuid).1.next) (hdocker : m'.docker = m.docker)
    (hwatchers : m'.watchers = m.watchers)
    (hqueue : ∀ p ∈ m'.queue, p ∈ m.queue ∨ ∃ uuid, a = .request uuid p.2)
    (hrec : m'.reconcile = m.reconcile) : m.Aside a m' := by
  have hqueue : ∀ p ∈ m'.queue, p ∈ m.queue ∨ (∃ uuid, a = .request uuid p.2) ∨ ∃ g, p.2 = .crash g :=
    fun p hp => (hqueue p hp).imp_right .inl
  have hdocker := no_call (a := a) hdocker
  rcases hmap : m.insts uuid with _ | r
  · rw [get_of_none hmap] at hinsts hnext hrecs
    dsimp only at hrecs hinsts hnext
    refine ⟨by rw [hnext]; exact Nat.le_succ _, fun uuid' r hr => ?_, fun r hr => ?_,
      fun r hr hr' => ?_, hdocker, fun w hw => .inl ⟨w, hwatchers ▸ hw, rfl⟩, hqueue,
      fun c hc => hrec ▸ hc⟩
    · rw [hinsts]
      refine (Function.update_of_ne ?_ ..).trans hr
      rintro rfl
      rw [hmap] at hr
      cases hr
    · rw [hrecs, Function.update_of_ne (Nat.ne_of_lt hr)]
      exact .same
    · obtain rfl : r = m.next := by
        rw [hnext] at hr
        exact Nat.le_antisymm (Nat.le_of_lt_succ hr) (Nat.le_of_not_lt hr')
      rw [hinsts, hrecs, Function.update_self]
      exact ⟨Function.update_self .., .inl ⟨uuid, rfl⟩⟩
  · rw [get_of_some hmap] at hinsts hnext hrecs
    dsimp only at hrecs hinsts hnext
    refine ⟨hnext ▸ Nat.le_refl _, fun uuid r h => hinsts ▸ h, fun r hr => by rw [hrecs]; exact .same,
      fun r hr hr' => absurd (hnext ▸ hr) hr', hdocker, fun w hw => .inl ⟨w, hwatchers ▸ hw, rfl⟩,
      hqueue, fun c hc => hrec ▸ hc⟩

theorem aside_watch {n : ℕ} {w : Watcher} (hmem : w ∈ m.watchers) (hs : m.watchStep n w x = some m') :
    m.Aside a m' := by
  have hrest : ∀ w' ∈ replaceAt m.watchers n [], ∃ w ∈ m.watchers, w'.id = w.id := fun w' hw' =>
    ⟨w', (mem_replaceAt hw').resolve_right (by simp), rfl⟩
  simp only [watchStep] at hs
  split at hs
  · split at hs
    · cases hs
    · split at hs
      · cases hs
        exact aside_set (.exited w.id) rfl rfl rfl (no_call rfl) hrest (fun p hp => .inl hp) rfl
      · next hid =>
        cases hs
        refine aside_set (.exit w.id _ _ _ (not_not.mp hid)) rfl rfl rfl (no_call rfl) (fun w' hw' => ?_)
          (fun p hp => .inl hp) rfl
        rcases mem_replaceAt hw' with hw' | hw'
        · exact ⟨w', hw', rfl⟩
        · obtain rfl := List.mem_singleton.mp hw'
          exact ⟨w, hmem, rfl⟩
  · next restart _ =>
    cases hs
    refine aside_set (.exited w.id) rfl rfl rfl ⟨_, rfl, fun c hc => ?_⟩ hrest (fun p hp => ?_) rfl
    · obtain ⟨-, rfl⟩ := calls_eq_some hc
      exact .watched w hmem
    · rcases List.mem_append.mp hp with hp | hp
      · exact .inl hp
      · cases restart with
        | none => cases hp
        | some g =>
          obtain rfl := List.mem_singleton.mp hp
          exact .inr ⟨g, rfl⟩

theorem aside_adopt {c : Container} {rest : List Container} {stored : Option InstanceSpec} {y : Reply}
    (hf : m.Fresh) (hc : m.reconcile = c :: rest) :
    m.Aside a { m.adopt c stored x y with reconcile := rest } := by
  have hmem : c ∈ m.reconcile := hc ▸ List.mem_cons_self
  have hmap := hf.unknown c hmem
  have hnext : (m.adopt c stored x y).next = m.next + 1 := by
    simp only [adopt, get_of_none hmap]
    split <;> rfl
  have hrecs : (m.adopt c stored x y).recs = Function.update (Function.update m.recs m.next
      (.new c.name.uuid)) m.next ((Inst.new c.name.uuid).adopt c stored x) := by
    rw [adopt_recs, get_of_none hmap]
    simp only [Function.update_self]
  have hinsts : (m.adopt c stored x y).insts = Function.update m.insts c.name.uuid (some m.next) := by
    rw [adopt_insts, get_of_none hmap]
  refine ⟨?_, fun uuid r hr => ?_, fun r hr => ?_, fun r hr hr' => ?_, ?_, fun w hw => ?_,
    fun p hp => .inl ?_, fun c' hc' => hc ▸ List.mem_cons_of_mem c hc'⟩
  · show m.next ≤ (m.adopt c stored x y).next
    rw [hnext]
    exact Nat.le_succ _
  · show (m.adopt c stored x y).insts uuid = some r
    rw [hinsts]
    refine (Function.update_of_ne ?_ ..).trans hr
    rintro rfl
    rw [hmap] at hr
    cases hr
  · show (m.recs r).Section ((m.adopt c stored x y).recs r)
    rw [hrecs, Function.update_of_ne (Nat.ne_of_lt hr), Function.update_of_ne (Nat.ne_of_lt hr)]
    exact .same
  · have hr : r < (m.adopt c stored x y).next := hr
    rw [hnext] at hr
    obtain rfl : r = m.next := Nat.le_antisymm (Nat.le_of_lt_succ hr) (Nat.le_of_not_lt hr')
    have hnew : (m.adopt c stored x y).recs m.next = (Inst.new c.name.uuid).adopt c stored x := by
      rw [hrecs, Function.update_self]
    refine ⟨?_, .inr ⟨c, hmem, stored, x, hnew⟩⟩
    show (m.adopt c stored x y).insts ((m.adopt c stored x y).recs m.next).uuid = some m.next
    rw [hnew, adopt_uuid, hinsts]
    exact Function.update_self ..
  · show ∃ call, (m.adopt c stored x y).docker = _ ∧ _
    simp only [adopt]
    split
    · exact ⟨none, get_docker, fun _ h => nomatch h⟩
    · refine ⟨_, congrArg (fun d => Docker.perform d _) get_docker, fun call hcall => ?_⟩
      obtain ⟨-, rfl⟩ := calls_eq_some hcall
      exact .listed c hmem
  · have hw : w ∈ (m.adopt c stored x y).watchers := hw
    simp only [adopt] at hw
    split at hw
    · rcases List.mem_append.mp hw with hw | hw
      · exact .inl ⟨w, get_watchers ▸ hw, rfl⟩
      · split at hw
        · obtain rfl := List.mem_singleton.mp hw
          exact .inr ⟨c, hmem, rfl⟩
        · cases hw
    · exact .inl ⟨w, get_watchers ▸ hw, rfl⟩
  · have hp : p ∈ (m.adopt c stored x y).queue := hp
    simp only [adopt] at hp
    split at hp <;> exact get_queue ▸ hp

/-! ## All steps -/

/-- Another agent process starts. -/
def Action.restarts : Action → Bool
  | .restart _ => true
  | _ => false

/-- What a step is. -/
inductive Does (m : Manager) : Action → Manager → Prop where
  | aside {a : Action} {m' : Manager} (h : m.Aside a m') : m.Does a m'
  | locks {m' : Manager} (n r : ℕ) (q : Request) (hq : m.queue[n]? = some (r, q))
      (hfree : (m.recs r).opMu = none)
      (hrecs : m'.recs = Function.update m.recs r ((m.recs r).next true q.work))
      (hinsts : m'.insts = m.insts) (hnext : m'.next = m.next) (hdocker : m'.docker = m.docker)
      (hrec : m'.reconcile = m.reconcile) (hwatchers : m'.watchers = m.watchers)
      (hqueue : m'.queue = replaceAt m.queue n []) : m.Does (.lock n) m'
  | works {m' : Manager} (r : ℕ) (x : Reply) (h : Holder) (e : Move)
      (hmu : (m.recs r).opMu = some h) (he : workStep r m.docker (m.recs r) h x = some e)
      (hrecs : m'.recs = Function.update m.recs r e.inst)
      (hinsts : m'.insts = if e.deleted then Function.update m.insts (m.recs r).uuid none else m.insts)
      (hnext : m'.next = m.next) (hdocker : m'.docker = m.docker.perform e.call)
      (hrec : m'.reconcile = m.reconcile)
      (hwatchers : m'.watchers = m.watchers ++ (e.watch.map fun id => ⟨r, id, .waiting⟩).toList)
      (hqueue : m'.queue = m.queue) : m.Does (.work r x) m'
  | tends {m' : Manager} (r : ℕ) (x : Reply) (db : DatabaseSpec) (ctx : Bool) (pc : WithPc)
      (hmu : (m.recs r).dbMu = some (.task db ctx pc))
      (hrecs : m'.recs = Function.update m.recs r (withStep r m.docker (m.recs r) db ctx x pc).1)
      (hinsts : m'.insts = m.insts) (hnext : m'.next = m.next)
      (hdocker : m'.docker = m.docker.perform (withStep r m.docker (m.recs r) db ctx x pc).2)
      (hrec : m'.reconcile = m.reconcile) (hwatchers : m'.watchers = m.watchers)
      (hqueue : m'.queue = m.queue) : m.Does (.database r x) m'

theorem does_of_step (hf : m.Fresh) (hrestarts : a.restarts = false) (hs : m.step a = some m') :
    m.Does a m' := by
  cases a with
  | request uuid q =>
    simp only [step] at hs
    split at hs
    · cases hs
      refine .aside (aside_get rfl rfl rfl get_docker get_watchers (fun p hp => ?_) get_reconcile)
      rcases List.mem_append.mp hp with hp | hp
      · exact .inl hp
      · rw [List.mem_singleton.mp hp]
        exact .inr ⟨uuid, rfl⟩
    · cases hs
  | lock n =>
    simp only [step] at hs
    split at hs
    · cases hs
    · next r q hq =>
      split at hs
      · cases hs
      · next hfree =>
        cases hs
        exact .locks n r q hq (by simpa using hfree) rfl rfl rfl rfl rfl rfl rfl
  | work r x =>
    obtain ⟨h, e, hmu, he, rfl⟩ := work_eq_some hs
    exact .works r x h e hmu he rfl rfl rfl rfl rfl rfl rfl
  | ready r =>
    cases hs
    exact .aside (aside_set .ready rfl rfl rfl (no_call rfl) (fun w hw => ⟨w, hw, rfl⟩) (fun p hp => .inl hp)
      rfl)
  | watch n x =>
    simp only [step] at hs
    split at hs
    · cases hs
    · next hw => exact .aside (aside_watch (List.mem_of_getElem? hw) hs)
  | ends name code =>
    cases hs
    refine .aside (aside_same rfl rfl rfl ⟨some (.halt (.name name) code), rfl, fun c hc => ?_⟩ rfl rfl
      rfl)
    obtain rfl := Option.some.inj hc
    exact .ends name code
  | task uuid db =>
    simp only [step] at hs
    split at hs
    · cases hs
      exact .aside (aside_get rfl rfl rfl get_docker get_watchers
        (fun p hp => .inl (get_queue ▸ hp)) get_reconcile)
    · cases hs
  | lockDb n =>
    simp only [step] at hs
    split at hs
    · cases hs
    · next r db hdb =>
      split at hs
      · cases hs
      · next hfree =>
        cases hs
        exact .aside (aside_set (.lockDb db (by simpa using hfree)) rfl rfl rfl (no_call rfl)
          (fun w hw => ⟨w, hw, rfl⟩) (fun p hp => .inl hp) rfl)
  | database r x =>
    simp only [step] at hs
    split at hs
    · next db ctx pc hmu =>
      cases hs
      exact .tends r x db ctx pc hmu rfl rfl rfl rfl rfl rfl rfl
    · cases hs
  | restore uuid =>
    simp only [step] at hs
    split at hs
    · cases hs
      exact .aside (aside_same rfl rfl rfl (no_call rfl) rfl rfl rfl)
    · cases hs
  | restoring n x =>
    simp only [step] at hs
    split at hs
    · cases hs
    · next t _ =>
      cases hs
      rw [restoreStep]
      split <;> exact .aside (aside_same rfl rfl rfl (no_call rfl) rfl rfl rfl)
  | restart listed => cases hrestarts
  | adopt stored x y =>
    simp only [step] at hs
    split at hs
    · cases hs
    · next c rest hc =>
      cases hs
      exact .aside (aside_adopt hf hc)

/-! ## What follows for records -/

/-- What holds a lock afterwards has held it before, beside the operations. -/
theorem Aside.opMu (ha : m.Aside a m') (hwf' : m'.Wf) (hmu : (m'.recs r).opMu = some h) :
    r < m.next ∧ (m.recs r).opMu = some h := by
  by_cases hr : r < m.next
  · exact ⟨hr, (ha.old r hr).same_opMu ▸ hmu⟩
  · rcases (ha.made r (hwf'.lt_of_opMu hmu) hr).2 with ⟨uuid, hnew⟩ | ⟨c, -, stored, x, hnew⟩
    · rw [hnew] at hmu
      cases hmu
    · rw [hnew, adopt_locks.1] at hmu
      cases hmu

/-- A container that runs has run before, beside the operations. -/
theorem Aside.mem_docker (ha : m.Aside a m') {c' : Container} (hc' : c' ∈ m'.docker) :
    ∃ c ∈ m.docker, c'.id = c.id ∧ c'.name = c.name ∧ c'.owner = c.owner ∧
      (c'.status = .running → c.status = .running) := by
  obtain ⟨call, hdocker, hbeside⟩ := ha.docker
  rw [hdocker] at hc'
  rcases Docker.mem_perform hc' with ⟨c, hc, hid, hname, howner, hrun⟩ | hcreate
  · refine ⟨c, hc, hid, hname, howner, fun hup => ?_⟩
    rcases hrun hup with hrun | ⟨ref, hstart, -⟩
    · exact hrun
    · cases hbeside _ hstart
  · cases hbeside _ hcreate

end Manager

end Instances
