import Gsm.GoStd.Path
import Gsm.Machine.Exec
import Gsm.Machine.Handlers

/-!
# Rows of backups

`create`, `run` and `remove` of `modules/backups` for one instance, taken apart at their awaits, with
the connection of its node. What a request waits for is a task, named by that; a task holds the copy of
the row it works on. A restart of the server ends all tasks, and nothing at start-up looks at the rows,
so a creation that is cut off leaves a row that no later step finishes or removes.

Statements of the database do not fail. Names, owners, the audit log and what browsers are told are left
out, and so is the removal of the whole instance.
-/

open GoStd Machine

namespace Server

inductive BackupStatus where
  | pending
  | running
  | completed
  | failed
deriving DecidableEq

/-- What `remove` accepts. -/
def BackupStatus.final (s : BackupStatus) : Bool := s = .completed ∨ s = .failed

structure BackupResult where
  size : ℕ
  sha256 : Str
  files : ℕ
deriving DecidableEq

/-- A row; its `backupId` is unique. -/
structure Backup where
  backupId : ℕ
  status : BackupStatus
  result : Option BackupResult
  error : Option Str
  progressBytes : ℕ
  completedAt : Option ℕ
deriving DecidableEq

/-- `Backup.create` -/
def Backup.new (backupId : ℕ) : Backup := ⟨backupId, .pending, none, none, 0, none⟩

def Backup.marked (b : Backup) : Backup := { b with status := .running }

def Backup.at (bytes : ℕ) (b : Backup) : Backup := { b with progressBytes := bytes }

/-- A row that is finished. -/
abbrev FinalBackup := { b : Backup // b.status.final = true }

def Backup.completed (b : Backup) (res : BackupResult) (now : ℕ) : FinalBackup :=
  ⟨{ b with
      status := .completed
      result := some res
      progressBytes := res.size
      completedAt := some now }, rfl⟩

def Backup.failed (b : Backup) (err : Str) (now : ℕ) : FinalBackup :=
  ⟨{ b with
      status := .failed
      error := some (err.take 1000)
      completedAt := some now }, rfl⟩

inductive BackupTask where
  /-- `create` waits for `getHistoryRetention` -/
  | retention
  /-- waits for the number of the instance's rows -/
  | counting (limit : ℕ)
  /-- waits for `Backup.create` -/
  | inserting
  /-- waits for `audit.record`; `run` comes next -/
  | auditing (row : Backup)
  /-- `run` waits for the row to be saved as running -/
  | marking (row : Backup)
  /-- waits for the agent -/
  | requesting (row : Backup)
  /-- waits for the last save -/
  | saving (row : FinalBackup)
  /-- `onStream` waits for its save -/
  | progress (backupId bytes : ℕ)
  /-- `remove` waits for `get` -/
  | getting (backupId : ℕ)
  /-- waits for the agent -/
  | deleting (backupId : ℕ)
  /-- waits for `destroy` -/
  | destroying (backupId : ℕ)
deriving DecidableEq

/-- How the agent refuses `backup.delete`. -/
inductive DeleteError where
  | notFound
  | other
deriving DecidableEq

inductive BackupAction where
  /-- a user asks for a backup; `outdated` says that the node's agent cannot dump its database -/
  | create (outdated : Bool)
  | remove (backupId : ℕ)
  /-- `backupsPerInstance` is read -/
  | limit (i n : ℕ)
  /-- a statement of the database is answered -/
  | resume (i now : ℕ)
  /-- the agent answers `backup.create`, or it times out -/
  | result (i now : ℕ) (res : Except Str BackupResult)
  /-- a chunk of its stream; `due` says that the last one was saved two seconds ago -/
  | stream (i bytes : ℕ) (due : Bool)
  /-- the agent answers `backup.delete` -/
  | deleted (i : ℕ) (res : Except DeleteError Unit)
  | hello
  /-- `failAll` -/
  | close (reason : Str) (now : ℕ)
  | restart

/-- The rows of one instance, the next `randomUUID`, the node's connection and what is under way. -/
structure BackupRows where
  rows : List Backup
  next : ℕ
  connected : Bool
  tasks : List BackupTask
deriving DecidableEq

/-- `assertOnline` and `databaseFor` -/
def createCheck (connected outdated : Bool) : Except Str Unit :=
  if !connected then .error "The node is not connected".toList
  else if outdated then
    .error ("Backups of a database need agent 0.6.0 or newer; " ++
      "update the node's agent first").toList
  else .ok ()

/-- Whether a row may be removed, and whether the agent is to be asked before that. -/
def removeCheck (connected : Bool) (status : BackupStatus) : Except Str Bool :=
  if status = .completed ∨ status = .failed then
    if connected then .ok true
    else if status = .completed then
      .error "The node is not connected; the archive cannot be removed right now".toList
    else .ok false
  else .error "The backup is still running".toList

/-- What becomes of a task when the connection ends. -/
def BackupTask.cutOff (reason : Str) (now : ℕ) : BackupTask → List BackupTask
  | .requesting row => [.saving (row.failed reason now)]
  | .deleting _ => []
  | t => [t]

namespace BackupRows

/-- The `i`-th task goes on. -/
def goOn (s : BackupRows) (i : ℕ) (next : List BackupTask) : BackupRows :=
  { s with tasks := replaceAt s.tasks i next }

/-- An update of one row. -/
def update (s : BackupRows) (backupId : ℕ) (f : Backup → Backup) : BackupRows :=
  { s with rows := s.rows.map fun b => if b.backupId = backupId then f b else b }

section
attribute [local simp] Server.BackupRows.update
end

/-- What a statement changes, and what comes after it; nothing for a task that waits for something
else. -/
def answered (s : BackupRows) (now : ℕ) : BackupTask → Option (BackupRows × List BackupTask)
  | .counting limit =>
      -- `This instance already has ... backups`
      some (s, if limit ≤ s.rows.length then [] else [.inserting])
  | .inserting =>
      some ({ s with rows := s.rows ++ [.new s.next], next := s.next + 1 }, [.auditing (.new s.next)])
  | .auditing row => some (s, [.marking row.marked])
  | .marking row =>
      some (s.update row.backupId .marked,
        [if s.connected then .requesting row
          else .saving (row.failed "The node is not connected".toList now)])
  | .saving row => some (s.update row.1.backupId fun _ => row.1, [])
  | .progress backupId bytes => some (s.update backupId (.at bytes), [])
  | .getting backupId =>
      match s.rows.find? (·.backupId = backupId) with
      | none => some (s, [])
      | some b =>
          match removeCheck s.connected b.status with
          | .ok true => some (s, [.deleting backupId])
          | .ok false => some (s, [.destroying backupId])
          | .error _ => some (s, [])
  | .destroying backupId => some ({ s with rows := s.rows.filter (·.backupId ≠ backupId) }, [])
  | .retention | .requesting _ | .deleting _ => none

def step (s : BackupRows) : BackupAction → Option BackupRows
  | .create outdated =>
      match createCheck s.connected outdated with
      | .ok () => some { s with tasks := s.tasks ++ [.retention] }
      | .error _ => some s
  | .remove backupId => some { s with tasks := s.tasks ++ [.getting backupId] }
  | .limit i n =>
      match s.tasks[i]? with
      | some .retention => some (s.goOn i [if 0 < n then .counting n else .inserting])
      | _ => none
  | .resume i now =>
      match s.tasks[i]? with
      | some t => (s.answered now t).map fun r => r.1.goOn i r.2
      | none => none
  | .result i now res =>
      match s.tasks[i]? with
      | some (.requesting row) =>
          match res with
          | .ok r => some (s.goOn i [.saving (row.completed r now)])
          | .error err => some (s.goOn i [.saving (row.failed err now)])
      | _ => none
  | .stream i bytes due =>
      match s.tasks[i]? with
      | some (.requesting row) =>
          some (s.goOn i (.requesting (row.at bytes) ::
            if due then [.progress row.backupId bytes] else []))
      | _ => none
  | .deleted i res =>
      match s.tasks[i]? with
      | some (.deleting backupId) =>
          match res with
          | .ok () | .error .notFound => some (s.goOn i [.destroying backupId])
          | .error .other => some (s.goOn i [])
      | _ => none
  | .hello => some { s with connected := true }
  | .close reason now =>
      some { s with
        connected := false
        tasks := s.tasks.flatMap (BackupTask.cutOff reason now) }
  | .restart => some { s with connected := false, tasks := [] }

end BackupRows

/-! ## Who finishes a row -/

/-- The row that a creation under way has made and is going to finish. -/
def BackupTask.creating : BackupTask → Option ℕ
  | .auditing row | .marking row | .requesting row => some row.backupId
  | .saving row => some row.1.backupId
  | _ => none

/-- The row that a removal has found finished. -/
def BackupTask.removing : BackupTask → Option ℕ
  | .deleting backupId | .destroying backupId => some backupId
  | _ => none

namespace BackupRows

variable {s s' s₀ : BackupRows} {a : BackupAction} {as : List BackupAction} {i now id id' : ℕ}
  {t : BackupTask} {new : List BackupTask} {b row : Backup} {f : Backup → Backup}

/-- Rows with this id. -/
def count (s : BackupRows) (id : ℕ) : ℕ := s.rows.countP fun b => b.backupId = id

section
attribute [local simp] Server.BackupRows.count
end

/-- Rows with this id that are not finished. -/
def opens (s : BackupRows) (id : ℕ) : ℕ :=
  s.rows.countP fun b => b.backupId = id ∧ b.status.final = false

section
attribute [local simp] Server.BackupRows.opens
end

/-- Creations under way that are going to finish this row. -/
def makers (s : BackupRows) (id : ℕ) : ℕ := s.tasks.countP fun t => t.creating = some id

theorem opens_le (s : BackupRows) (id : ℕ) : s.opens id ≤ s.count id := by
  refine List.countP_mono_left fun b _ hb => ?_
  rw [decide_eq_true_eq] at hb ⊢
  exact hb.1

theorem count_update (hf : ∀ b, b.backupId = id → (f b).backupId = id) :
    (s.update id f).count id' = s.count id' := by
  rw [count, count, update, List.countP_map]
  refine List.countP_congr fun b _ => ?_
  rw [Function.comp_apply, decide_eq_true_eq, decide_eq_true_eq]
  split
  · next hb => rw [hf b hb, hb]
  · rfl

/-- An update leaves the other rows as they are. -/
theorem opens_update_ne (hne : id' ≠ id) (hf : ∀ b, b.backupId = id → (f b).backupId = id) :
    (s.update id f).opens id' = s.opens id' := by
  rw [opens, opens, update, List.countP_map]
  refine List.countP_congr fun b _ => ?_
  rw [Function.comp_apply, decide_eq_true_eq, decide_eq_true_eq]
  split
  · next hb =>
    rw [hf b hb, hb]
    exact iff_of_false (fun h => hne h.1.symm) (fun h => hne h.1.symm)
  · exact Iff.rfl

theorem opens_update_final (hf : ∀ b, (f b).status.final = true) : (s.update id f).opens id = 0 := by
  rw [opens, update, List.countP_map, List.countP_eq_zero]
  intro b _
  rw [Function.comp_apply, decide_eq_true_eq]
  split
  · simp [hf]
  · next hb => exact fun h => hb h.1

theorem opens_update_open (hid : ∀ b, b.backupId = id → (f b).backupId = id)
    (hf : ∀ b, (f b).status.final = false) : (s.update id f).opens id = s.count id := by
  rw [opens, count, update, List.countP_map]
  refine List.countP_congr fun b _ => ?_
  rw [Function.comp_apply, decide_eq_true_eq, decide_eq_true_eq]
  split
  · next hb => simp [hid b hb, hf, hb]
  · next hb => exact iff_of_false (fun h => hb h.1) hb

theorem opens_update_same (hid : ∀ b, (f b).backupId = b.backupId)
    (hf : ∀ b, (f b).status = b.status) : (s.update id f).opens id' = s.opens id' := by
  rw [opens, opens, update, List.countP_map]
  refine List.countP_congr fun b _ => ?_
  rw [Function.comp_apply, decide_eq_true_eq, decide_eq_true_eq]
  split
  · rw [hid, hf]
  · exact Iff.rfl

/-- The only row with this id is finished. -/
theorem opens_eq_zero (hu : s.count id ≤ 1) (hb : b ∈ s.rows) (hid : b.backupId = id)
    (hfinal : b.status.final = true) : s.opens id = 0 := by
  rw [opens, List.countP_eq_zero]
  intro c hc hcopen
  rw [decide_eq_true_eq] at hcopen
  obtain ⟨u, v, hrows⟩ := List.append_of_mem hb
  rw [count, hrows, List.countP_append, List.countP_cons_of_pos (by simpa using hid)] at hu
  rw [hrows] at hc
  have hnone : ∀ l : List Backup, (l.countP fun b : Backup => b.backupId = id) = 0 → c ∉ l := by
    intro l hl hmem
    exact List.countP_eq_zero.mp hl c hmem (by simpa using hcopen.1)
  rcases List.mem_append.mp hc with hc | hc
  · exact hnone u (by omega) hc
  · rcases List.mem_cons.mp hc with rfl | hc
    · rw [hfinal] at hcopen
      cases hcopen.2
    · exact hnone v (by omega) hc

/-! ## What a step moves -/

/-- Ids are used once, a creation under way has its row, and what is being removed is finished. -/
structure Wf (s : BackupRows) : Prop where
  unique : ∀ id, s.count id ≤ 1
  fresh : ∀ id, s.next ≤ id → s.count id = 0
  made : ∀ id, s.makers id ≤ s.opens id
  past : ∀ t ∈ s.tasks, ∀ id, t.removing = some id → id < s.next ∧ s.opens id = 0

/-- A row is left to itself exactly as often as before. -/
structure Moves (s s' : BackupRows) : Prop where
  wf : s'.Wf
  delta : ∀ id, s'.makers id + s.opens id = s.makers id + s'.opens id

theorem makers_goOn (new : List BackupTask) (hi : s.tasks[i]? = some t) (id : ℕ) :
    (s.goOn i new).makers id + [t].countP (fun t => t.creating = some id) =
      s.makers id + new.countP fun t => t.creating = some id :=
  countP_replaceAt _ new hi

/-- A task goes on, and the rows change as the creations under way do. -/
theorem Wf.moves {s₁ : BackupRows} (h : s.Wf) (hi : s.tasks[i]? = some t) (htasks : s₁.tasks = s.tasks)
    (hnext : s.next ≤ s₁.next) (hunique : ∀ id, s₁.count id ≤ 1)
    (hfresh : ∀ id, s₁.next ≤ id → s₁.count id = 0)
    (hdelta : ∀ id, new.countP (fun t => t.creating = some id) + s.opens id =
      [t].countP (fun t => t.creating = some id) + s₁.opens id)
    (hkeep : ∀ id, id < s.next → s.opens id = 0 → s₁.opens id = 0)
    (hpast : ∀ u ∈ new, ∀ id, u.removing = some id → id < s.next ∧ s.opens id = 0) :
    Moves s (s₁.goOn i new) := by
  have hi₁ : s₁.tasks[i]? = some t := by rw [htasks, hi]
  have hmove : ∀ id, (s₁.goOn i new).makers id + s.opens id = s.makers id + (s₁.goOn i new).opens id := by
    intro id
    have hgo := makers_goOn (s := s₁) new hi₁ id
    have hsame : s₁.makers id = s.makers id := by rw [makers, makers, htasks]
    have hopens : (s₁.goOn i new).opens id = s₁.opens id := rfl
    have hd := hdelta id
    omega
  refine ⟨⟨hunique, hfresh, fun id => ?_, fun u hu id hrem => ?_⟩, hmove⟩
  · have h₁ := h.made id
    have h₂ := hmove id
    omega
  · have hold : id < s.next ∧ s.opens id = 0 := by
      rcases mem_replaceAt hu with hu | hu
      · exact h.past u (htasks ▸ hu) id hrem
      · exact hpast u hu id hrem
    exact ⟨hold.1.trans_le hnext, hkeep id hold.1 hold.2⟩

/-- A task goes on and no row changes. -/
theorem Wf.moves_same (h : s.Wf) (hi : s.tasks[i]? = some t)
    (hdelta : ∀ id, new.countP (fun t => t.creating = some id) =
      [t].countP fun t => t.creating = some id)
    (hpast : ∀ u ∈ new, ∀ id, u.removing = some id → id < s.next ∧ s.opens id = 0) :
    Moves s (s.goOn i new) :=
  h.moves hi rfl le_rfl h.unique h.fresh (fun id => by rw [hdelta id]) (fun _ _ h => h) hpast

/-- A task goes on and one row is updated. -/
theorem Wf.moves_update {k : ℕ} (h : s.Wf) (hi : s.tasks[i]? = some t)
    (hid : ∀ b, b.backupId = k → (f b).backupId = k)
    (hdelta : ∀ id, new.countP (fun t => t.creating = some id) + s.opens id =
      [t].countP (fun t => t.creating = some id) + (s.update k f).opens id)
    (hkeep : ∀ id, s.opens id = 0 → (s.update k f).opens id = 0)
    (hpast : ∀ u ∈ new, ∀ id, u.removing = some id → id < s.next ∧ s.opens id = 0) :
    Moves s ((s.update k f).goOn i new) := by
  refine h.moves hi rfl le_rfl (fun id => ?_) (fun id hnext => ?_) hdelta
    (fun id _ => hkeep id) hpast
  · rw [count_update hid]
    exact h.unique id
  · rw [count_update hid]
    exact h.fresh id hnext

/-- The row of a creation under way is there, and is not finished. -/
theorem Wf.opens_eq_one (h : s.Wf) (hi : s.tasks[i]? = some t) (ht : t.creating = some id) :
    s.opens id = 1 ∧ s.count id = 1 := by
  have hpos : 0 < s.makers id :=
    List.countP_pos_iff.mpr ⟨t, List.mem_of_getElem? hi, by simpa using ht⟩
  have h₁ := h.made id
  have h₂ := s.opens_le id
  have h₃ := h.unique id
  omega

/-- An answer of the database moves rows and creations together. -/
theorem Wf.moves_answered {s₁ : BackupRows} (h : s.Wf) (hi : s.tasks[i]? = some t)
    (hr : s.answered now t = some (s₁, new)) : Moves s (s₁.goOn i new) := by
  cases t with
  | retention | requesting _ | deleting _ => cases hr
  | counting limit =>
    cases hr
    refine h.moves_same hi (fun id => ?_) fun u hu id hrem => ?_
    · split <;> rfl
    · split at hu
      · cases hu
      · cases List.mem_singleton.mp hu
        cases hrem
  | inserting =>
    cases hr
    have hcount : ∀ id, (s.rows ++ [Backup.new s.next]).countP (fun b => b.backupId = id) =
        s.count id + if s.next = id then 1 else 0 := fun id => by
      rw [List.countP_append, count]
      by_cases hid : s.next = id <;> simp [Backup.new, hid]
    have hopens : ∀ id, (s.rows ++ [Backup.new s.next]).countP
        (fun b => b.backupId = id ∧ b.status.final = false) =
        s.opens id + if s.next = id then 1 else 0 := fun id => by
      rw [List.countP_append, opens]
      by_cases hid : s.next = id <;> simp [Backup.new, BackupStatus.final, hid]
    refine h.moves hi rfl (by simp) (fun id => ?_) (fun id hid => ?_) (fun id => ?_)
      (fun id hid hzero => ?_) fun u hu id hrem => ?_
    · show List.countP _ _ ≤ 1
      rw [hcount]
      split
      · next hid => rw [h.fresh id hid.le]
      · exact h.unique id
    · show List.countP _ _ = 0
      have hid : s.next + 1 ≤ id := hid
      rw [hcount, if_neg (by omega), h.fresh id (by omega)]
    · show _ = _ + List.countP _ _
      rw [hopens]
      by_cases hid : s.next = id <;> simp [BackupTask.creating, Backup.new, hid]
      omega
    · show List.countP _ _ = 0
      rw [hopens, if_neg (by omega), hzero]
    · cases List.mem_singleton.mp hu
      cases hrem
  | auditing row =>
    cases hr
    refine h.moves_same hi (fun id => rfl) fun u hu id hrem => ?_
    cases List.mem_singleton.mp hu
    cases hrem
  | marking row =>
    cases hr
    obtain ⟨hone, hcount⟩ := h.opens_eq_one hi rfl
    have hopens : ∀ id, (s.update row.backupId .marked).opens id = s.opens id := by
      intro id
      by_cases hid : id = row.backupId
      · rw [hid, opens_update_open (f := .marked) (fun _ hb => hb) fun _ => rfl, hone, hcount]
      · exact opens_update_ne (f := .marked) hid fun _ hb => hb
    refine h.moves_update (f := .marked) hi (fun _ hb => hb) (fun id => ?_)
      (fun id hzero => by rw [hopens, hzero]) fun u hu id hrem => ?_
    · rw [hopens]
      split <;> rfl
    · cases List.mem_singleton.mp hu
      split at hrem <;> cases hrem
  | saving row =>
    cases hr
    obtain ⟨hone, -⟩ := h.opens_eq_one hi rfl
    have hself : (s.update row.1.backupId fun _ => row.1).opens row.1.backupId = 0 :=
      opens_update_final fun _ => row.2
    have hother : ∀ id, id ≠ row.1.backupId →
        (s.update row.1.backupId fun _ => row.1).opens id = s.opens id :=
      fun id hid => opens_update_ne hid fun _ _ => rfl
    refine h.moves_update (f := fun _ => row.1) hi (fun _ _ => rfl) (fun id => ?_)
      (fun id hzero => ?_) fun u hu => by cases hu
    · by_cases hid : id = row.1.backupId
      · rw [hid, hself, hone]
        simp [BackupTask.creating]
      · have hid' : ¬ row.1.backupId = id := fun h => hid h.symm
        rw [hother id hid]
        simp [BackupTask.creating, hid']
    · by_cases hid : id = row.1.backupId
      · rw [hid, hself]
      · rw [hother id hid, hzero]
  | progress backupId bytes =>
    cases hr
    have hopens : ∀ id, (s.update backupId (.at bytes)).opens id = s.opens id := fun id =>
      opens_update_same (f := .at bytes) (fun _ => rfl) fun _ => rfl
    refine h.moves_update (f := .at bytes) hi (fun _ hb => hb) (fun id => ?_)
      (fun id hzero => by rw [hopens, hzero]) fun u hu => by cases hu
    rw [hopens]
    rfl
  | getting backupId =>
    rw [answered] at hr
    split at hr
    · cases hr
      exact h.moves_same hi (fun id => rfl) fun u hu => by cases hu
    · next b hfind =>
      have hmem := List.mem_of_find?_eq_some hfind
      have hid : b.backupId = backupId := by simpa using List.find?_some hfind
      -- what is to be removed has been found finished
      have hdone : b.status.final = true → backupId < s.next ∧ s.opens backupId = 0 := by
        intro hfinal
        refine ⟨?_, opens_eq_zero (h.unique _) hmem hid hfinal⟩
        by_contra hnext
        have hzero := h.fresh backupId (by omega)
        rw [count, List.countP_eq_zero] at hzero
        exact hzero b hmem (by simpa using hid)
      have hfinal : ∀ ask, removeCheck s.connected b.status = .ok ask → b.status.final = true := by
        intro ask hcheck
        rw [removeCheck] at hcheck
        split at hcheck
        · next hst => simpa [BackupStatus.final] using hst
        · cases hcheck
      split at hr
      · next hcheck =>
        cases hr
        refine h.moves_same hi (fun id => rfl) fun u hu id hrem => ?_
        cases List.mem_singleton.mp hu
        cases hrem
        exact hdone (hfinal _ hcheck)
      · next hcheck =>
        cases hr
        refine h.moves_same hi (fun id => rfl) fun u hu id hrem => ?_
        cases List.mem_singleton.mp hu
        cases hrem
        exact hdone (hfinal _ hcheck)
      · cases hr
        exact h.moves_same hi (fun id => rfl) fun u hu => by cases hu
  | destroying backupId =>
    cases hr
    obtain ⟨-, hzero⟩ := h.past _ (List.mem_of_getElem? hi) backupId rfl
    have hle : ∀ id, (s.rows.filter (·.backupId ≠ backupId)).countP (fun b => b.backupId = id) ≤
        s.count id := fun id => List.Sublist.countP_le List.filter_sublist
    have hopens : ∀ id, (s.rows.filter (·.backupId ≠ backupId)).countP
        (fun b => b.backupId = id ∧ b.status.final = false) = s.opens id := by
      intro id
      by_cases hid : id = backupId
      · subst hid
        have hsub : (s.rows.filter (·.backupId ≠ id)).countP
            (fun b => b.backupId = id ∧ b.status.final = false) ≤ s.opens id :=
          List.Sublist.countP_le List.filter_sublist
        omega
      · rw [opens, List.countP_filter]
        refine List.countP_congr fun b _ => ?_
        by_cases hb : b.backupId = id <;> simp [hb, hid]
    refine h.moves hi rfl le_rfl (fun id => (hle id).trans (h.unique id)) (fun id hid => ?_)
      (fun id => ?_) (fun id _ hz => ?_) fun u hu => by cases hu
    · have h₁ := hle id
      rw [h.fresh id hid] at h₁
      exact Nat.le_zero.mp h₁
    · show _ = _ + List.countP _ _
      rw [hopens]
      rfl
    · show List.countP _ _ = 0
      rw [hopens, hz]

/-- A request that arrives has made no row yet. -/
theorem Wf.moves_start (h : s.Wf) (hc : t.creating = none) (hr : t.removing = none) :
    Moves s { s with tasks := s.tasks ++ [t] } := by
  have hmakers : ∀ id, (s.tasks ++ [t]).countP (fun t => t.creating = some id) = s.makers id := by
    intro id
    rw [List.countP_append, List.countP_singleton, if_neg (by simp [hc])]
    rfl
  refine ⟨⟨h.unique, h.fresh, fun id => ?_, fun u hu id hrem => ?_⟩, fun id => ?_⟩
  · exact (hmakers id).le.trans (h.made id)
  · rcases List.mem_append.mp hu with hu | hu
    · exact h.past u hu id hrem
    · rw [List.mem_singleton.mp hu, hr] at hrem
      cases hrem
  · show List.countP _ _ + _ = _ + s.opens id
    rw [hmakers]

/-- A connection that ends lets creations fail, and these save that. -/
theorem Wf.moves_close (h : s.Wf) (reason : Str) (now : ℕ) :
    Moves s { s with
      connected := false
      tasks := s.tasks.flatMap (BackupTask.cutOff reason now) } := by
  have hone : ∀ (t : BackupTask) id, (t.cutOff reason now).countP (fun t => t.creating = some id) =
      [t].countP fun t => t.creating = some id := fun t id => by cases t <;> rfl
  have hmakers : ∀ id, (s.tasks.flatMap (BackupTask.cutOff reason now)).countP
      (fun t => t.creating = some id) = s.makers id := by
    intro id
    rw [makers]
    induction s.tasks with
    | nil => rfl
    | cons t tasks ih =>
      rw [List.flatMap_cons, List.countP_append, ih, hone, ← List.countP_append, List.singleton_append]
  refine ⟨⟨h.unique, h.fresh, fun id => (hmakers id).le.trans (h.made id), fun u hu id hrem => ?_⟩,
    fun id => ?_⟩
  · obtain ⟨t, ht, hcut⟩ := List.mem_flatMap.mp hu
    refine h.past t ht id ?_
    cases t <;> simp only [BackupTask.cutOff, List.mem_singleton, List.not_mem_nil] at hcut
    all_goals
      subst hcut
      exact hrem
  · show List.countP _ _ + _ = _ + s.opens id
    rw [hmakers]

/-- Only a restart leaves a row to itself. -/
theorem Wf.moves_step (h : s.Wf) (hs : s.step a = some s') (ha : a ≠ .restart) : Moves s s' := by
  have hsame : Moves s s := ⟨h, fun _ => rfl⟩
  cases a with
  | create outdated =>
    rw [step] at hs
    split at hs
    · cases hs
      exact h.moves_start rfl rfl
    · cases hs
      exact hsame
  | remove backupId =>
    cases hs
    exact h.moves_start rfl rfl
  | limit i n =>
    rw [step] at hs
    split at hs
    · next hi =>
      cases hs
      refine h.moves_same hi (fun id => ?_) fun u hu id hrem => ?_
      · split <;> rfl
      · rw [List.mem_singleton.mp hu] at hrem
        split at hrem <;> cases hrem
    · cases hs
  | resume i now =>
    rw [step] at hs
    split at hs
    · next t hi =>
      obtain ⟨⟨s₁, new⟩, hr, rfl⟩ := Option.map_eq_some_iff.mp hs
      exact h.moves_answered hi hr
    · cases hs
  | result i now res =>
    rw [step] at hs
    split at hs
    · next row hi =>
      split at hs
      · cases hs
        exact h.moves_same hi (fun id => rfl) fun u hu id hrem => by
          rw [List.mem_singleton.mp hu] at hrem
          cases hrem
      · cases hs
        exact h.moves_same hi (fun id => rfl) fun u hu id hrem => by
          rw [List.mem_singleton.mp hu] at hrem
          cases hrem
    · cases hs
  | stream i bytes due =>
    rw [step] at hs
    split at hs
    · next row hi =>
      cases hs
      refine h.moves_same hi (fun id => ?_) fun u hu id hrem => ?_
      · split <;> rfl
      · split at hu <;> simp only [List.mem_cons, List.not_mem_nil, or_false] at hu
        · rcases hu with rfl | rfl <;> cases hrem
        · rw [hu] at hrem
          cases hrem
    · cases hs
  | deleted i res =>
    rw [step] at hs
    split at hs
    · next backupId hi =>
      have hpast := h.past _ (List.mem_of_getElem? hi) backupId rfl
      have hgo : Moves s (s.goOn i [.destroying backupId]) :=
        h.moves_same hi (fun id => rfl) fun u hu id hrem => by
          rw [List.mem_singleton.mp hu] at hrem
          cases hrem
          exact hpast
      split at hs
      · cases hs
        exact hgo
      · cases hs
        exact hgo
      · cases hs
        exact h.moves_same hi (fun id => rfl) fun u hu => by cases hu
    · cases hs
  | hello =>
    cases hs
    exact ⟨⟨h.unique, h.fresh, h.made, h.past⟩, fun _ => rfl⟩
  | close reason now =>
    cases hs
    exact h.moves_close reason now
  | restart => exact absurd rfl ha

theorem Wf.restart (h : s.Wf) : ({ s with connected := false, tasks := [] } : BackupRows).Wf :=
  ⟨h.unique, h.fresh, fun _ => Nat.zero_le _, fun _ ht => by cases ht⟩

theorem Wf.step (h : s.Wf) (hs : s.step a = some s') : s'.Wf := by
  by_cases ha : a = .restart
  · subst ha
    cases hs
    exact h.restart
  · exact (h.moves_step hs ha).wf

/-! ## Rows left behind -/

/-- The server is not restarted while a creation has a row to finish. -/
def Calm (s : BackupRows) (a : BackupAction) : Prop :=
  a = .restart → ∀ t ∈ s.tasks, t.creating = none

/-- Each row that is not finished is one that a creation under way is going to finish. -/
def Kept (s : BackupRows) : Prop :=
  ∀ b ∈ s.rows, b.status.final = true ∨ ∃ t ∈ s.tasks, t.creating = some b.backupId

/-- A row stays unfinished and no task is going to finish it. -/
def Orphaned (s : BackupRows) : Prop := ∃ id, s.makers id < s.opens id

theorem Wf.kept_iff (h : s.Wf) : s.Kept ↔ ∀ id, s.makers id = s.opens id := by
  constructor
  · intro hk id
    refine (h.made id).antisymm ?_
    by_cases hopen : s.opens id = 0
    · omega
    · obtain ⟨b, hb, hopen'⟩ := List.countP_pos_iff.mp (Nat.pos_of_ne_zero hopen)
      rw [decide_eq_true_eq] at hopen'
      rcases hk b hb with hfinal | ⟨t, ht, hc⟩
      · rw [hfinal] at hopen'
        cases hopen'.2
      · have hpos : 0 < s.makers id :=
          List.countP_pos_iff.mpr ⟨t, ht, by simpa [← hopen'.1] using hc⟩
        have h₁ := s.opens_le id
        have h₂ := h.unique id
        omega
  · intro heq b hb
    by_cases hfinal : b.status.final = true
    · exact .inl hfinal
    · right
      have hopen : 0 < s.opens b.backupId :=
        List.countP_pos_iff.mpr ⟨b, hb, by simpa using hfinal⟩
      rw [← heq, makers, List.countP_pos_iff] at hopen
      obtain ⟨t, ht, hc⟩ := hopen
      exact ⟨t, ht, by simpa using hc⟩

theorem Wf.orphaned_iff (h : s.Wf) : s.Orphaned ↔ ¬ s.Kept := by
  rw [h.kept_iff, Orphaned]
  push Not
  exact exists_congr fun id => ⟨fun hlt => hlt.ne, fun hne => lt_of_le_of_ne (h.made id) hne⟩

/-- A calm step leaves no row behind. -/
theorem kept_step (h : s.Wf) (hk : s.Kept) (hc : s.Calm a) (hs : s.step a = some s') : s'.Kept := by
  have hw := h.step hs
  rw [h.kept_iff] at hk
  rw [hw.kept_iff]
  intro id
  by_cases ha : a = .restart
  · subst ha
    cases hs
    have hnone : s.makers id = 0 :=
      List.countP_eq_zero.mpr fun t ht => by simp [hc rfl t ht]
    show 0 = s.opens id
    rw [← hk id, hnone]
  · have hd := (h.moves_step hs ha).delta id
    have hk := hk id
    omega

/-- What is left behind stays behind. -/
theorem orphaned_step (h : s.Wf) (ho : s.Orphaned) (hs : s.step a = some s') : s'.Orphaned := by
  obtain ⟨id, hlt⟩ := ho
  refine ⟨id, ?_⟩
  by_cases ha : a = .restart
  · subst ha
    cases hs
    exact (Nat.zero_le _).trans_lt hlt
  · have hd := (h.moves_step hs ha).delta id
    omega

/-- A restart that is not calm leaves a row behind. -/
theorem orphaned_of_restart (h : s.Wf) (hc : ¬ s.Calm a) (hs : s.step a = some s') :
    s'.Orphaned := by
  rw [Calm] at hc
  push Not at hc
  obtain ⟨rfl, t, ht, hmake⟩ := hc
  obtain ⟨id, hid⟩ := Option.ne_none_iff_exists'.mp hmake
  cases hs
  have hpos : 0 < s.makers id := List.countP_pos_iff.mpr ⟨t, ht, by simpa using hid⟩
  exact ⟨id, hpos.trans_le (h.made id)⟩

/-- The server at its first start. -/
def start : BackupRows := ⟨[], 0, false, []⟩

theorem wf_start : start.Wf :=
  ⟨fun _ => Nat.zero_le _, fun _ _ => rfl, fun _ => le_rfl, fun _ ht => by cases ht⟩

/-- Runs without a restart in the middle of a creation are those after which each row is finished or
going to be. -/
theorem kept_iff_calm (hrun : exec step start as = some s) : s.Kept ↔ Along step Calm start as := by
  have hw : ∀ {u v : BackupRows} {bs}, exec step u bs = some v → u.Wf → v.Wf := fun hrun hu =>
    exec_preserves (fun _ _ _ hs hw => Wf.step hw hs) hrun hu
  constructor
  · intro hk
    refine along_of_exec (P := fun u => u.Wf) (Q := fun u => u.Wf ∧ u.Orphaned)
      (fun u a u' _ hs hu => hu.step hs)
      (fun u a u' hc hs hu => ⟨hu.step hs, orphaned_of_restart hu hc hs⟩)
      (fun u a u' hs hu => ⟨hu.1.step hs, orphaned_step hu.1 hu.2 hs⟩) hrun wf_start ?_
    rintro ⟨hwf, ho⟩
    exact hwf.orphaned_iff.mp ho hk
  · intro hc
    have hinv : s.Wf ∧ s.Kept := exec_invariant (P := fun u => u.Wf ∧ u.Kept)
      (fun u a u' hc hs hu => ⟨hu.1.step hs, kept_step hu.1 hu.2 hc hs⟩) hrun hc
      ⟨wf_start, fun b hb => by cases hb⟩
    exact hinv.2

/-! ## Removing a row -/

/-- The last task goes on. -/
theorem replaceAt_last (l new : List BackupTask) (t : BackupTask) :
    replaceAt (l ++ [t]) l.length new = l ++ new := by
  rw [replaceAt, List.take_left]
  simp

/-- A finished row is removed while the node is connected. -/
theorem remove_final (h : s.Wf) (hb : b ∈ s.rows) (hfinal : b.status.final = true) :
    ∃ more s', exec step s more = some s' ∧ ∀ c ∈ s'.rows, c.backupId ≠ b.backupId := by
  obtain ⟨c, hfind⟩ : ∃ c, s.rows.find? (·.backupId = b.backupId) = some c := by
    rw [← Option.isSome_iff_exists, List.find?_isSome]
    exact ⟨b, hb, by simp⟩
  have hc : removeCheck true c.status = .ok true := by
    have hzero := opens_eq_zero (h.unique _) hb rfl hfinal
    rw [opens, List.countP_eq_zero] at hzero
    have hcfinal := hzero c (List.mem_of_find?_eq_some hfind)
    have hcid : c.backupId = b.backupId := by simpa using List.find?_some hfind
    simp only [hcid, true_and, decide_eq_true_eq, Bool.not_eq_false] at hcfinal
    rw [removeCheck, if_pos (by simpa [BackupStatus.final] using hcfinal), if_pos rfl]
  have hrep := replaceAt_last s.tasks
  let n := s.tasks.length
  refine ⟨[.hello, .remove b.backupId, .resume n 0, .deleted n (.ok ()), .resume n 0],
    { s with
      connected := true
      rows := s.rows.filter (·.backupId ≠ b.backupId)
      tasks := s.tasks ++ [] }, ?_, fun c hc => ?_⟩
  · simp [exec, step, answered, goOn, n, hrep, hfind, hc]
  · simpa using (List.mem_filter.mp hc).2

/-- Exactly in the runs whose restarts come while no creation has a row to finish, each row is finished
or a creation is still going to finish it; a finished row can be removed. -/
theorem backups_settle_iff (as : List BackupAction) (s : BackupRows)
    (hrun : exec step start as = some s) :
    (Along step Calm start as ↔
      ∀ b ∈ s.rows, b.status.final = true ∨ ∃ t ∈ s.tasks, t.creating = some b.backupId) ∧
    ∀ b ∈ s.rows, b.status.final = true →
      ∃ more s', exec step s more = some s' ∧ ∀ c ∈ s'.rows, c.backupId ≠ b.backupId :=
  ⟨(kept_iff_calm hrun).symm, fun _ hb hfinal =>
    remove_final (exec_preserves (fun _ _ _ hs hw => Wf.step hw hs) hrun wf_start) hb hfinal⟩

/-- A backup is asked for and gets as far as the agent. -/
def asked : List BackupAction :=
  [.hello, .create false, .limit 0 5, .resume 0 0, .resume 0 0, .resume 0 0, .resume 0 0]

/-- The row of `asked`. -/
def askedRow : Backup := ⟨0, .running, none, none, 0, none⟩

theorem backups_settle_asked : Along step Calm start asked ↔
    ∀ b ∈ [askedRow], b.status.final = true ∨
      ∃ t ∈ [BackupTask.requesting askedRow], t.creating = some b.backupId :=
  (backups_settle_iff asked ⟨[askedRow], 1, true, [.requesting askedRow]⟩ (by decide)).1

/-- The server is restarted then: nothing is under way any more, and the row says `running`. -/
theorem backup_left_running :
    ¬ ∀ (as : List BackupAction) (s : BackupRows), exec step start as = some s →
      (∀ t ∈ s.tasks, t.creating = none) → ∀ b ∈ s.rows, b.status.final = true := by
  intro h
  have hrun : exec step start (asked ++ [.restart]) = some ⟨[askedRow], 1, false, []⟩ := by decide
  have hfinal := h _ _ hrun (fun t ht => by cases ht) askedRow (List.mem_singleton_self _)
  exact absurd hfinal (by decide)

end BackupRows

end Server
