import Gsm.Data.JsText
import Mathlib.Logic.Function.Basic
import Mathlib.Data.List.Nodup

/-!
# The archive of the audit log

`archiveAndPrune` step by step, with the table and the archive's directory as they are in between. Entries come in at
any time, and a run can end at any step; what it has written by then stays. A run archives a batch under a name with the
id of its first entry and deletes the first entry along with the others, so no later batch has that name.
-/

open Js

namespace Server.AuditArchive

abbrev Str := List Char

/-- What the server runs on: `toISOString`, `CompressionStream("gzip")` with its reading back, and the directory -/
structure Host where
  iso : ℕ → Str
  iso_plain : ∀ t, '_' ∉ iso t
  gzip : List UInt8 → List UInt8
  gunzip : List UInt8 → Option (List UInt8)
  gunzip_gzip : ∀ b, gunzip (gzip b) = some b
  dir : Text

/-! ## Entries and their lines -/

structure Actor where
  id : ℕ
  name : Text
  email : Text

/-- What a new entry says; `details` is its JSON. -/
structure AuditInput where
  actorUserId : Option ℕ
  action : Text
  targetType : Option Text
  targetId : Option ℕ
  details : Option Str
  ip : Option Text

/-- `AuditEntry` -/
structure AuditEntry extends AuditInput where
  id : ℕ
  createdAt : ℕ

/-- An entry as `findAll` gives it, `withActor` -/
abbrev Row := AuditEntry × Option Actor

def number (n : ℕ) : Str := Nat.toDigits 10 n

def orNull {α : Type} (json : α → Str) : Option α → Str
  | none => "null".toList
  | some a => json a

variable (host : Host)

/-- `jsonLine(entryDto(r))` -/
def jsonLine (r : Row) : Str :=
  object [("id", number r.1.id), ("action", quote r.1.action), ("targetType", orNull quote r.1.targetType),
    ("targetId", orNull number r.1.targetId), ("details", orNull id r.1.details), ("ip", orNull quote r.1.ip),
    ("createdAt", quote (ofChars (host.iso r.1.createdAt))),
    ("actor", orNull (fun a => object [("id", number a.id), ("name", quote a.name), ("email", quote a.email)]) r.2)] ++
    ['\n']

def archiveBatch : ℕ := 5000

/-- The rows of a batch, of which there is a first -/
structure Batch where
  first : Row
  rest : List Row

def Batch.rows (b : Batch) : List Row := b.first :: b.rest

def Batch.last (b : Batch) : Row := b.rest.getLast?.getD b.first

def day (t : ℕ) : Str := (host.iso t).take 10

/-- The name of a batch's file -/
def Batch.name (b : Batch) : Str :=
  "audit-".toList ++ (day host b.first.1.createdAt ++ '_' :: (day host b.last.1.createdAt ++ '_' ::
    (number b.first.1.id ++ '-' :: (number b.last.1.id ++ ".jsonl.gz".toList))))

/-- What is compressed -/
def Batch.text (b : Batch) : List UInt8 := encodeChars (b.rows.flatMap (jsonLine host))

def tmp (name : Str) : Str := name ++ ".tmp".toList

/-! ## `archiveAndPrune` -/

inductive Place where
  /-- for `findAll` -/
  | finding
  /-- for `mkdir` -/
  | making (b : Batch)
  /-- for `writeFile` of the file with `.tmp` -/
  | writing (b : Batch)
  /-- for `rename` -/
  | renaming (b : Batch)
  /-- for `destroy` -/
  | destroying (b : Batch)
  /-- for `record` -/
  | recording

/-- A run, by what it waits for. `pruned` is not of the source: the entries the run has deleted. -/
structure Run where
  before : ℕ
  files : List Str
  archived : ℕ
  pruned : List AuditEntry
  place : Place

/-- `created` is not of the source: every entry there has been. `done` is the last run that came to its end. -/
structure State where
  created : List AuditEntry
  rows : List AuditEntry
  nextId : ℕ
  files : Str → Option (List UInt8)
  run : Option Run
  done : Option Run

/-- What a run is answered: who the actors are, how much of the file is written, and what becomes of the entry about the
run, if it is stored at all. -/
structure Reply where
  actors : ℕ → Option Actor
  written : ℕ
  stored : Bool
  now : ℕ
  skipped : ℕ

/-- `AuditEntry.create`, with ids that are left out -/
def State.create (s : State) (e : AuditInput) (now skipped : ℕ) : State :=
  let entry : AuditEntry := { e with id := s.nextId + skipped, createdAt := now }
  { s with created := s.created ++ [entry], rows := s.rows ++ [entry], nextId := s.nextId + skipped + 1 }

def Run.find (r : Run) (rows : List AuditEntry) (actors : ℕ → Option Actor) : List Row :=
  ((rows.filter fun e => decide (e.createdAt < r.before)).take archiveBatch).map fun e =>
    (e, e.actorUserId.bind actors)

/-- The details of `audit.archived` -/
def Run.details (r : Run) : Str :=
  object [("count", number r.archived), ("before", quote (ofChars (host.iso r.before))), ("dir", quote host.dir),
    ("files", '[' :: [','].intercalate (r.files.map fun f => quote (ofChars f)) ++ [']'])]

/-- A run goes on with what it waited for. -/
def State.goOn (s : State) (r : Run) (reply : Reply) : State :=
  match r.place with
  | .finding =>
      match r.find s.rows reply.actors with
      | [] =>
          if r.archived = 0 then { s with run := none, done := some r }
          else { s with run := some { r with place := .recording } }
      | first :: rest => { s with run := some { r with place := .making ⟨first, rest⟩ } }
  | .making b => { s with run := some { r with place := .writing b } }
  | .writing b =>
      let data := host.gzip (b.text host)
      { s with
        files := Function.update s.files (tmp (b.name host)) (some (data.take reply.written))
        run := some { r with place := if data.length ≤ reply.written then .renaming b else .writing b } }
  | .renaming b =>
      { s with
        files := Function.update (Function.update s.files (b.name host) (s.files (tmp (b.name host))))
          (tmp (b.name host)) none
        run := some { r with place := .destroying b } }
  | .destroying b =>
      let ids := b.rows.map fun row => row.1.id
      { s with
        rows := s.rows.filter fun e => !ids.contains e.id
        run := some
          { r with
            files := r.files ++ [b.name host]
            archived := r.archived + b.rows.length
            pruned := r.pruned ++ s.rows.filter fun e => ids.contains e.id
            place := if b.rows.length < archiveBatch then .recording else .finding } }
  | .recording =>
      let s := { s with run := none, done := some r }
      if reply.stored then
        s.create ⟨none, text "audit.archived", none, none, some (r.details host), none⟩ reply.now reply.skipped
      else s

inductive Event where
  /-- `record`, by anyone else -/
  | record (e : AuditInput) (now skipped : ℕ)
  | start (before : ℕ)
  | goOn (reply : Reply)
  /-- The run ends where it is. -/
  | crash

def State.step (s : State) : Event → State
  | .record e now skipped => s.create e now skipped
  | .start before =>
      match s.run with
      | some _ => s
      | none => { s with run := some ⟨before, [], 0, [], .finding⟩ }
  | .goOn reply =>
      match s.run with
      | some r => s.goOn host r reply
      | none => s
  | .crash => { s with run := none }

/-- An empty log and a directory with any files -/
def State.new (files : Str → Option (List UInt8)) : State := ⟨[], [], 1, files, none, none⟩

variable {host} {s s' : State} {b b' : Batch} {e : AuditEntry}

/-! ## Names of files -/

theorem cut_unique {c : Char} {x x' y y' : Str} (h : x ++ c :: y = x' ++ c :: y') (hx : c ∉ x) (hx' : c ∉ x') :
    x = x' ∧ y = y' := by
  have htake (z w : Str) (hz : c ∉ z) : (z ++ c :: w).takeWhile (· ≠ c) = z := by
    have hall : ∀ d ∈ z, decide (d ≠ c) = true := by
      intro d hd
      refine decide_eq_true ?_
      rintro rfl
      exact hz hd
    rw [List.takeWhile_append_of_pos hall, List.takeWhile_cons_of_neg (by simp), List.append_nil]
  have heq : x = x' := by rw [← htake x y hx, h, htake x' y' hx']
  subst heq
  exact ⟨rfl, (List.cons.inj (List.append_cancel_left h)).2⟩

theorem notMem_number {c : Char} (h : c.toNat < 48 ∨ 57 < c.toNat) (n : ℕ) : c ∉ number n := by
  intro hmem
  have hdigit := Nat.isDigit_of_mem_toDigits (by decide) (by decide) hmem
  rw [Char.isDigit, Bool.and_eq_true, decide_eq_true_eq, decide_eq_true_eq] at hdigit
  have hlow : 48 ≤ c.toNat := UInt32.le_iff_toNat_le.mp hdigit.1
  have hhigh : c.toNat ≤ 57 := UInt32.le_iff_toNat_le.mp hdigit.2
  omega

/-- A name tells the id of the first entry. -/
theorem id_of_name (h : b.name host = b'.name host) : b.first.1.id = b'.first.1.id := by
  have hday (t : ℕ) : '_' ∉ day host t := fun hmem => host.iso_plain t (List.mem_of_mem_take hmem)
  obtain ⟨-, hlast⟩ := cut_unique (List.append_cancel_left h) (hday _) (hday _)
  obtain ⟨-, hids⟩ := cut_unique hlast (hday _) (hday _)
  obtain ⟨hid, -⟩ := cut_unique hids (notMem_number (by decide) _) (notMem_number (by decide) _)
  have hread := congrArg (Nat.ofDigitChars 10 · 0) hid
  dsimp only [number] at hread
  rwa [Nat.ofDigitChars_ten_toDigits, Nat.ofDigitChars_ten_toDigits] at hread

theorem name_ne_tmp (b : Batch) (name : Str) : b.name host ≠ tmp name := by
  intro h
  have hlast := congrArg List.getLast? h
  have hname : (b.name host).getLast? = some 'z' := by
    have hsuffix : ".jsonl.gz".toList <:+ b.name host :=
      ((((List.suffix_append _ _).trans (List.suffix_cons _ _)).trans (List.suffix_append _ _)).trans
        (List.suffix_cons _ _)).trans ((List.suffix_append _ _).trans ((List.suffix_cons _ _).trans
          ((List.suffix_append _ _).trans (List.suffix_append _ _))))
    obtain ⟨front, hfront⟩ := hsuffix
    rw [← hfront, List.getLast?_append]
    rfl
  have htmp : (tmp name).getLast? = some 'p' := by
    rw [tmp, List.getLast?_append]
    rfl
  rw [hname, htmp] at hlast
  cases hlast

/-! ## What is kept -/

/-- The file of a batch is there with an entry of it, and will stay: the batch's first entry is gone. -/
structure Archived (host : Host) (s : State) (b : Batch) (e : AuditEntry) : Prop where
  file : s.files (b.name host) = some (host.gzip (b.text host))
  mem : e ∈ b.rows.map Prod.fst
  below : b.first.1.id < s.nextId
  gone : ∀ e' ∈ s.rows, e'.id ≠ b.first.1.id

/-- No step takes away what is archived: new entries have new ids, and only files of batches whose first entry is in
the table are written. -/
structure Later (host : Host) (s s' : State) : Prop where
  nextId : s.nextId ≤ s'.nextId
  rows : ∀ e ∈ s'.rows, e ∈ s.rows ∨ s.nextId ≤ e.id
  files : ∀ b : Batch, (∀ e ∈ s.rows, e.id ≠ b.first.1.id) → s'.files (b.name host) = s.files (b.name host)

theorem Archived.later (h : Archived host s b e) (hlater : Later host s s') : Archived host s' b e where
  file := (hlater.files b h.gone).trans h.file
  mem := h.mem
  below := h.below.trans_le hlater.nextId
  gone := fun e' he' => by
    rcases hlater.rows e' he' with hmem | hnew
    · exact h.gone e' hmem
    · have := h.below
      omega

/-- What holds of a run where it is -/
def Ready (host : Host) (s : State) : Place → Prop
  | .finding | .recording => True
  | .making b | .writing b => ∀ row ∈ b.rows, row.1 ∈ s.rows
  | .renaming b =>
      (∀ row ∈ b.rows, row.1 ∈ s.rows) ∧ s.files (tmp (b.name host)) = some (host.gzip (b.text host))
  | .destroying b =>
      (∀ row ∈ b.rows, row.1 ∈ s.rows) ∧ s.files (b.name host) = some (host.gzip (b.text host))

/-- The entries a run has deleted are in its files. -/
def Moved (host : Host) (s : State) (r : Run) : Prop :=
  ∀ e ∈ r.pruned, ∃ b, Archived host s b e ∧ b.name host ∈ r.files

structure Inv (host : Host) (s : State) : Prop where
  below : ∀ e ∈ s.rows, e.id < s.nextId
  nodup : (s.rows.map (·.id)).Nodup
  kept : ∀ e ∈ s.created, e ∈ s.rows ∨ ∃ b, Archived host s b e
  ready : ∀ r, s.run = some r → Ready host s r.place
  moved : ∀ r, s.run = some r → Moved host s r
  done : ∀ r, s.done = some r → Moved host s r

theorem Moved.later {r : Run} (h : Moved host s r) (hlater : Later host s s') : Moved host s' r := by
  intro e he
  obtain ⟨b, harchived, hmem⟩ := h e he
  exact ⟨b, harchived.later hlater, hmem⟩

theorem Later.of_same (hrows : s'.rows = s.rows) (hid : s'.nextId = s.nextId)
    (hfiles : ∀ b : Batch, (∀ e ∈ s.rows, e.id ≠ b.first.1.id) →
      s'.files (b.name host) = s.files (b.name host)) :
    Later host s s' :=
  ⟨hid.ge, fun _ he => .inl (hrows ▸ he), hfiles⟩

/-- A step that leaves the table as it is, and the files of the batches whose first entry is gone -/
theorem Inv.keep (h : Inv host s) (hcreated : s'.created = s.created) (hrows : s'.rows = s.rows)
    (hid : s'.nextId = s.nextId)
    (hfiles : ∀ b : Batch, (∀ e ∈ s.rows, e.id ≠ b.first.1.id) →
      s'.files (b.name host) = s.files (b.name host))
    (hready : ∀ r, s'.run = some r → Ready host s' r.place)
    (hmoved : ∀ r, s'.run = some r → Moved host s r) (hdone : ∀ r, s'.done = some r → Moved host s r) :
    Inv host s' := by
  have hlater : Later host s s' := .of_same hrows hid hfiles
  refine ⟨?_, hrows ▸ h.nodup, ?_, hready, fun r hr => (hmoved r hr).later hlater,
    fun r hr => (hdone r hr).later hlater⟩
  · rw [hrows, hid]
    exact h.below
  · rw [hcreated, hrows]
    exact fun e he => (h.kept e he).imp_right fun ⟨b, hb⟩ => ⟨b, hb.later hlater⟩

theorem inv_new (files : Str → Option (List UInt8)) : Inv host (State.new files) :=
  ⟨List.forall_mem_nil _, List.nodup_nil, List.forall_mem_nil _, fun _ h => (nomatch h), fun _ h => (nomatch h),
    fun _ h => (nomatch h)⟩

theorem Ready.create {place : Place} (h : Ready host s place) (input : AuditInput) (now skipped : ℕ) :
    Ready host (s.create input now skipped) place := by
  have hmem {a : AuditEntry} (ha : a ∈ s.rows) : a ∈ (s.create input now skipped).rows := List.mem_append_left _ ha
  match place with
  | .finding => trivial
  | .recording => trivial
  | .making b => exact fun row hrow => hmem (h row hrow)
  | .writing b => exact fun row hrow => hmem (h row hrow)
  | .renaming b => exact ⟨fun row hrow => hmem (h.1 row hrow), h.2⟩
  | .destroying b => exact ⟨fun row hrow => hmem (h.1 row hrow), h.2⟩

/-- Entries come in. -/
theorem Inv.create (h : Inv host s) (e : AuditInput) (now skipped : ℕ) : Inv host (s.create e now skipped) := by
  have hlater : Later host s (s.create e now skipped) := by
    refine ⟨by dsimp only [State.create]; omega, fun a ha => ?_, fun b _ => rfl⟩
    rcases List.mem_append.mp ha with ha | ha
    · exact .inl ha
    · rw [List.mem_singleton.mp ha]
      exact .inr (Nat.le_add_right _ _)
  refine ⟨?_, ?_, ?_, fun r hr => (h.ready r hr).create e now skipped, fun r hr => (h.moved r hr).later hlater,
    fun r hr => (h.done r hr).later hlater⟩
  · intro a ha
    rcases List.mem_append.mp ha with ha | ha
    · have := h.below a ha
      dsimp only [State.create]
      omega
    · rw [List.mem_singleton.mp ha]
      exact Nat.lt_succ_self _
  · dsimp only [State.create]
    rw [List.map_append, List.nodup_append]
    refine ⟨h.nodup, List.nodup_singleton _, ?_⟩
    intro i hi j hj
    obtain ⟨a, ha, rfl⟩ := List.mem_map.mp hi
    have hbelow := h.below a ha
    have hj' : j = s.nextId + skipped := List.mem_singleton.mp hj
    omega
  · intro a ha
    rcases List.mem_append.mp ha with ha | ha
    · exact (h.kept a ha).imp (List.mem_append_left _) fun ⟨b, hb⟩ => ⟨b, hb.later hlater⟩
    · exact .inl (List.mem_append_right _ ha)

/-- The first entry of a batch in the table has its name for itself. -/
theorem name_ne (hbatch : ∀ row ∈ b.rows, row.1 ∈ s.rows) (hgone : ∀ e ∈ s.rows, e.id ≠ b'.first.1.id) :
    b'.name host ≠ b.name host := fun hname =>
  hgone b.first.1 (hbatch b.first List.mem_cons_self) (id_of_name hname).symm

theorem mem_of_find {r : Run} {actors : ℕ → Option Actor} {row : Row} (h : row ∈ r.find s.rows actors) :
    row.1 ∈ s.rows := by
  obtain ⟨e, he, rfl⟩ := List.mem_map.mp h
  exact List.mem_of_mem_filter (List.mem_of_mem_take he)

/-- Deleting a batch that is in its file -/
theorem Inv.destroy {r : Run} (h : Inv host s) (hrun : s.run = some r) (hplace : r.place = .destroying b)
    (reply : Reply) : Inv host (s.goOn host r reply) := by
  have hready := h.ready r hrun
  rw [hplace] at hready
  obtain ⟨hbatch, hfile⟩ := hready
  have hstep : s.goOn host r reply =
      { s with
        rows := s.rows.filter fun e => !(b.rows.map fun row => row.1.id).contains e.id
        run := some
          { r with
            files := r.files ++ [b.name host]
            archived := r.archived + b.rows.length
            pruned := r.pruned ++ s.rows.filter fun e => (b.rows.map fun row => row.1.id).contains e.id
            place := if b.rows.length < archiveBatch then .recording else .finding } } := by
    rw [State.goOn, hplace]
  rw [hstep]
  generalize hs' : State.mk _ _ _ _ _ _ = s'
  have hrows (e : AuditEntry) : e ∈ s'.rows ↔ e ∈ s.rows ∧ e.id ∉ b.rows.map fun row => row.1.id := by
    rw [← hs', List.mem_filter, Bool.not_eq_true', List.contains_eq_mem, decide_eq_false_iff_not]
  have hlater : Later host s s' := by
    subst hs'
    exact ⟨le_rfl, fun e he => .inl (List.mem_of_mem_filter he), fun _ _ => rfl⟩
  -- whoever has the id of an entry of the batch is that entry
  have hmoved : ∀ e ∈ s.rows, (e.id ∈ b.rows.map fun row => row.1.id) → Archived host s' b e := by
    intro e he hid
    obtain ⟨row, hrow, heq⟩ := List.mem_map.mp hid
    have hentry : row.1 = e := List.inj_on_of_nodup_map h.nodup (hbatch row hrow) he heq
    refine ⟨by rw [← hs']; exact hfile, List.mem_map.mpr ⟨row, hrow, hentry⟩, ?_, fun e' he' hfirst => ?_⟩
    · rw [← hs']
      exact h.below b.first.1 (hbatch b.first List.mem_cons_self)
    · exact ((hrows e').mp he').2 (List.mem_map.mpr ⟨b.first, List.mem_cons_self, hfirst.symm⟩)
  refine ⟨fun e he => ?_, ?_, fun e he => ?_, fun r' hr' => ?_, fun r' hr' => ?_, fun r' hr' => ?_⟩
  · rw [← hs']
    exact h.below e ((hrows e).mp he).1
  · rw [← hs']
    exact h.nodup.sublist (List.filter_sublist.map _)
  · rw [← hs'] at he
    rcases h.kept e he with hmem | ⟨b', hb'⟩
    · by_cases hid : e.id ∈ b.rows.map fun row => row.1.id
      · exact .inr ⟨b, hmoved e hmem hid⟩
      · exact .inl ((hrows e).mpr ⟨hmem, hid⟩)
    · exact .inr ⟨b', hb'.later hlater⟩
  · rw [← hs'] at hr'
    obtain rfl := Option.some.inj hr'
    dsimp only
    split <;> trivial
  · rw [← hs'] at hr'
    obtain rfl := Option.some.inj hr'
    intro e he
    rcases List.mem_append.mp he with he | he
    · obtain ⟨b', hb', hname⟩ := h.moved r hrun e he
      exact ⟨b', hb'.later hlater, List.mem_append_left _ hname⟩
    · obtain ⟨hmem, hid⟩ := List.mem_filter.mp he
      exact ⟨b, hmoved e hmem (List.contains_iff_mem.mp hid), List.mem_append_right _ List.mem_cons_self⟩
  · rw [← hs'] at hr'
    exact (h.done r' hr').later hlater

theorem Inv.goOn {r : Run} (h : Inv host s) (hrun : s.run = some r) (reply : Reply) :
    Inv host (s.goOn host r reply) := by
  have hready := h.ready r hrun
  have hmoved := h.moved r hrun
  have hrows (b : Batch) (_ : ∀ e ∈ s.rows, e.id ≠ b.first.1.id) :
      s.files (b.name host) = s.files (b.name host) := rfl
  rcases hplace : r.place with _ | b | b | b | b | _
  · rw [State.goOn, hplace]
    dsimp only
    split
    · split
      · refine h.keep rfl rfl rfl hrows (fun _ h => (nomatch h)) (fun _ h => (nomatch h)) fun r' hr' => ?_
        obtain rfl := Option.some.inj hr'
        exact hmoved
      · refine h.keep rfl rfl rfl hrows (fun r' hr' => ?_) (fun r' hr' => ?_) h.done
        · obtain rfl := Option.some.inj hr'
          trivial
        · obtain rfl := Option.some.inj hr'
          exact hmoved
    · next first rest hfind =>
      refine h.keep rfl rfl rfl hrows (fun r' hr' => ?_) (fun r' hr' => ?_) h.done
      · obtain rfl := Option.some.inj hr'
        intro row hrow
        have hfound : row ∈ r.find s.rows reply.actors := by
          rw [hfind]
          exact hrow
        exact mem_of_find hfound
      · obtain rfl := Option.some.inj hr'
        exact hmoved
  · rw [hplace] at hready
    rw [State.goOn, hplace]
    refine h.keep rfl rfl rfl hrows (fun r' hr' => ?_) (fun r' hr' => ?_) h.done
    · obtain rfl := Option.some.inj hr'
      exact hready
    · obtain rfl := Option.some.inj hr'
      exact hmoved
  · rw [hplace] at hready
    rw [State.goOn, hplace]
    refine h.keep rfl rfl rfl (fun b' _ => Function.update_of_ne (name_ne_tmp b' _) _ _) (fun r' hr' => ?_)
      (fun r' hr' => ?_) h.done
    · obtain rfl := Option.some.inj hr'
      dsimp only
      split
      · next hall =>
        refine ⟨hready, ?_⟩
        dsimp only
        rw [Function.update_self, List.take_of_length_le hall]
      · exact hready
    · obtain rfl := Option.some.inj hr'
      exact hmoved
  · rw [hplace] at hready
    rw [State.goOn, hplace]
    refine h.keep rfl rfl rfl (fun b' hgone => ?_) (fun r' hr' => ?_) (fun r' hr' => ?_) h.done
    · dsimp only
      rw [Function.update_of_ne (name_ne_tmp b' _), Function.update_of_ne (name_ne hready.1 hgone)]
    · obtain rfl := Option.some.inj hr'
      refine ⟨hready.1, ?_⟩
      dsimp only
      rw [Function.update_of_ne (name_ne_tmp b _), Function.update_self]
      exact hready.2
    · obtain rfl := Option.some.inj hr'
      exact hmoved
  · exact h.destroy hrun hplace reply
  · have hended : Inv host { s with run := none, done := some r } := by
      refine h.keep rfl rfl rfl hrows (fun _ h => (nomatch h)) (fun _ h => (nomatch h)) fun r' hr' => ?_
      obtain rfl := Option.some.inj hr'
      exact hmoved
    rw [State.goOn, hplace]
    dsimp only
    split
    · exact hended.create _ _ _
    · exact hended

theorem Inv.step (h : Inv host s) (event : Event) : Inv host (s.step host event) := by
  have hrows (b : Batch) (_ : ∀ e ∈ s.rows, e.id ≠ b.first.1.id) :
      s.files (b.name host) = s.files (b.name host) := rfl
  match event with
  | .record e now skipped => exact h.create e now skipped
  | .start before =>
    rw [State.step]
    split
    · exact h
    · refine h.keep rfl rfl rfl hrows (fun r hr => ?_) (fun r hr => ?_) h.done
      · obtain rfl := Option.some.inj hr
        trivial
      · obtain rfl := Option.some.inj hr
        exact List.forall_mem_nil _
  | .goOn reply =>
    rw [State.step]
    split
    · next r hrun => exact h.goOn hrun reply
    · exact h
  | .crash => exact h.keep rfl rfl rfl hrows (fun _ h => (nomatch h)) (fun _ h => (nomatch h)) h.done

theorem inv_run (files : Str → Option (List UInt8)) (events : List Event) :
    Inv host (events.foldl (State.step host) (State.new files)) := by
  have hrun : ∀ s, Inv host s → Inv host (events.foldl (State.step host) s) := by
    induction events with
    | nil => exact fun s h => h
    | cons event events ih => exact fun s h => ih _ (h.step event)
  exact hrun _ (inv_new files)

/-- A file that is complete and can be read has the entry on one of its lines. -/
def Holds (host : Host) (files : Str → Option (List UInt8)) (name : Str) (e : AuditEntry) : Prop :=
  ∃ (data : List UInt8) (rows : List Row), files name = some data ∧
    host.gunzip data = some (encodeChars (rows.flatMap (jsonLine host))) ∧ e ∈ rows.map Prod.fst

theorem Archived.holds (h : Archived host s b e) : Holds host s.files (b.name host) e :=
  ⟨_, b.rows, h.file, host.gunzip_gzip _, h.mem⟩

end Server.AuditArchive
