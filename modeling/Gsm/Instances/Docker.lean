import Gsm.GoStd.Path
import Mathlib.Data.List.Basic
import Mathlib.Data.List.Nodup

/-!
# Docker's containers

The containers on the node as `internal/docker` finds and changes them. Docker gives a name to one
container at a time; a call names a container by its id or by its name.
-/

open GoStd

namespace Instances

/-- What the agent's container names stand for. -/
inductive ContainerName where
  /-- `gsm-<uuid>` -/
  | game (uuid : Str)
  /-- `gsm-install-<uuid>` -/
  | install (uuid : Str)
  /-- `databaseContainer`: `gsm-db-<uuid>` -/
  | database (uuid : Str)
deriving DecidableEq

def ContainerName.uuid : ContainerName → Str
  | .game uuid => uuid
  | .install uuid => uuid
  | .database uuid => uuid

inductive ContainerStatus where
  | created
  | running
  | exited (code : ℤ)
deriving DecidableEq

/-- What `ensureDatabase` compares of `protocol.DatabaseSpec`. -/
structure DatabaseSpec where
  image : Str
  memoryMb : ℕ
deriving DecidableEq

structure Container where
  id : Str
  name : ContainerName
  status : ContainerStatus
  /-- the labels of a database container -/
  database : Option DatabaseSpec
  /-- not Docker's: the record whose operation has created it -/
  owner : ℕ
deriving DecidableEq

/-- How a call names a container. -/
inductive Ref where
  | id (id : Str)
  | name (name : ContainerName)
deriving DecidableEq

def Container.isRef (c : Container) : Ref → Bool
  | .id id => c.id = id
  | .name name => c.name = name

abbrev Docker := List Container

namespace Docker

variable {d : Docker} {c c' : Container} {ref : Ref} {name : ContainerName}

/-- `ContainerInspect` -/
def inspect (d : Docker) (ref : Ref) : Option Container := d.find? (·.isRef ref)

/-- A running container goes by this name. -/
def Runs (d : Docker) (name : ContainerName) : Prop := ∃ c ∈ d, c.name = name ∧ c.status = .running

instance (d : Docker) (name : ContainerName) : Decidable (d.Runs name) :=
  inferInstanceAs (Decidable (∃ c ∈ d, c.name = name ∧ c.status = .running))

/-- The container with this id runs. -/
def up (d : Docker) (id : Str) : Bool := d.any fun c => c.id = id ∧ c.status = .running

/-- `ContainerCreate` succeeds if neither the name nor the id is in use. -/
def free (d : Docker) (name : ContainerName) (id : Str) : Bool := d.all fun c => c.name ≠ name ∧ c.id ≠ id

/-- `ContainerStart` -/
def start (d : Docker) (ref : Ref) : Docker :=
  d.map fun c => if c.isRef ref then { c with status := .running } else c

/-- `ContainerStop`, `ContainerKill`, and a container that ends by itself. -/
def halt (d : Docker) (ref : Ref) (code : ℤ) : Docker :=
  d.map fun c => if c.isRef ref ∧ c.status = .running then { c with status := .exited code } else c

/-- `ContainerRemove`, which forces it. -/
def remove (d : Docker) (ref : Ref) : Docker := d.filter fun c => !c.isRef ref

/-- A call that changes the containers. -/
inductive Call where
  | create (c : Container)
  | start (ref : Ref)
  | halt (ref : Ref) (code : ℤ)
  | remove (ref : Ref)
deriving DecidableEq

/-- What a call that takes effect does. -/
def perform (d : Docker) : Option Call → Docker
  | none => d
  | some (.create c) => d ++ [c]
  | some (.start ref) => d.start ref
  | some (.halt ref code) => d.halt ref code
  | some (.remove ref) => d.remove ref

@[simp] theorem mem_remove : c ∈ d.remove ref ↔ c ∈ d ∧ c.isRef ref = false := by
  simp [remove]

/-- A container after a start: it was there, and at most its status is another. -/
theorem mem_start (h : c ∈ d.start ref) :
    ∃ c' ∈ d, c.id = c'.id ∧ c.name = c'.name ∧ c.owner = c'.owner ∧ c.database = c'.database ∧
      (c' = c ∨ c'.isRef ref = true ∧ c.status = .running) := by
  obtain ⟨c', hmem, rfl⟩ := List.mem_map.mp h
  refine ⟨c', hmem, ?_⟩
  split
  · next href => exact ⟨rfl, rfl, rfl, rfl, .inr ⟨href, rfl⟩⟩
  · exact ⟨rfl, rfl, rfl, rfl, .inl rfl⟩

theorem mem_halt {code : ℤ} (h : c ∈ d.halt ref code) :
    ∃ c' ∈ d, c.id = c'.id ∧ c.name = c'.name ∧ c.owner = c'.owner ∧ c.database = c'.database ∧
      (c.status = .running → c' = c ∧ c.isRef ref = false) := by
  obtain ⟨c', hmem, rfl⟩ := List.mem_map.mp h
  refine ⟨c', hmem, ?_⟩
  split
  · exact ⟨rfl, rfl, rfl, rfl, fun hrun => nomatch hrun⟩
  · next hno =>
    refine ⟨rfl, rfl, rfl, rfl, fun hrun => ⟨rfl, ?_⟩⟩
    simpa [hrun] using hno

/-- What runs after a stop ran before, and is not what was stopped. -/
theorem running_of_halt {code : ℤ} (h : c ∈ d.halt ref code) (hrun : c.status = .running) :
    c ∈ d ∧ c.isRef ref = false := by
  obtain ⟨c', hmem, -, -, -, -, hkeep⟩ := mem_halt h
  obtain ⟨rfl, hno⟩ := hkeep hrun
  exact ⟨hmem, hno⟩

theorem map_name_start : (d.start ref).map (·.name) = d.map (·.name) := by
  rw [start, List.map_map]
  refine List.map_congr_left fun c _ => ?_
  simp only [Function.comp_apply]
  split <;> rfl

theorem map_name_halt {code : ℤ} : (d.halt ref code).map (·.name) = d.map (·.name) := by
  rw [halt, List.map_map]
  refine List.map_congr_left fun c _ => ?_
  simp only [Function.comp_apply]
  split <;> rfl

/-- No two containers have one name. -/
def Named (d : Docker) : Prop := (d.map (·.name)).Nodup

theorem named_nil : Named [] := List.nodup_nil

theorem Named.start (h : d.Named) : (d.start ref).Named := by
  rw [Named, map_name_start]
  exact h

theorem Named.halt {code : ℤ} (h : d.Named) : (d.halt ref code).Named := by
  rw [Named, map_name_halt]
  exact h

theorem Named.remove (h : d.Named) : (d.remove ref).Named :=
  h.sublist (List.Sublist.map _ List.filter_sublist)

theorem Named.create (h : d.Named) (hfree : d.free c.name c.id = true) : (d ++ [c]).Named := by
  have hne : ∀ c' ∈ d, c'.name ≠ c.name := by
    intro c' hmem
    have := List.all_eq_true.mp hfree c' hmem
    exact (of_decide_eq_true this).1
  rw [Named, List.map_append, List.nodup_append]
  refine ⟨h, List.nodup_singleton _, fun a ha b hb => ?_⟩
  obtain ⟨c', hmem, rfl⟩ := List.mem_map.mp ha
  obtain rfl : b = c.name := by simpa using hb
  exact hne c' hmem

theorem Named.eq_of_name (h : d.Named) (hc : c ∈ d) (hc' : c' ∈ d) (hname : c.name = c'.name) :
    c = c' :=
  List.inj_on_of_nodup_map h hc hc' hname

/-! ## What runs under a name -/

variable {call : Option Call}

theorem Runs.of_halt {code : ℤ} (h : (d.halt ref code).Runs name) : d.Runs name := by
  obtain ⟨c, hmem, hname, hrun⟩ := h
  exact ⟨c, (running_of_halt hmem hrun).1, hname, hrun⟩

theorem Runs.of_remove (h : (d.remove ref).Runs name) : d.Runs name := by
  obtain ⟨c, hmem, hname, hrun⟩ := h
  exact ⟨c, (mem_remove.mp hmem).1, hname, hrun⟩

/-- What runs after a start ran before, or goes by what was started. -/
theorem Runs.of_start (h : (d.start ref).Runs name) :
    d.Runs name ∨ ∃ c ∈ d, c.isRef ref = true ∧ c.name = name := by
  obtain ⟨c, hmem, hname, hrun⟩ := h
  obtain ⟨c', hmem', -, hname', -, -, heq | ⟨href, -⟩⟩ := mem_start hmem
  · exact .inl ⟨c', hmem', hname'.symm.trans hname, heq ▸ hrun⟩
  · exact .inr ⟨c', hmem', href, hname'.symm.trans hname⟩

theorem Runs.of_create (hc : c.status = .created) (h : Runs (d ++ [c]) name) : d.Runs name := by
  obtain ⟨c', hmem, hname, hrun⟩ := h
  rcases List.mem_append.mp hmem with hmem | hmem
  · exact ⟨c', hmem, hname, hrun⟩
  · obtain rfl := List.mem_singleton.mp hmem
    rw [hc] at hrun
    cases hrun

theorem not_runs_remove : ¬ (d.remove (.name name)).Runs name := by
  rintro ⟨c, hmem, hname, -⟩
  have href := (mem_remove.mp hmem).2
  rw [Container.isRef, hname] at href
  simp at href

theorem runs_start {id : Str} (hmem : c ∈ d) (hid : c.id = id) (hname : c.name = name) :
    (d.start (.id id)).Runs name := by
  refine ⟨{ c with status := .running }, List.mem_map.mpr ⟨c, hmem, ?_⟩, hname, rfl⟩
  rw [Container.isRef, hid, if_pos (by simp)]

theorem Runs.start (h : d.Runs name) : (d.start ref).Runs name := by
  obtain ⟨c, hmem, hname, hrun⟩ := h
  refine ⟨c, List.mem_map.mpr ⟨c, hmem, ?_⟩, hname, hrun⟩
  split
  · cases c
    cases hrun
    rfl
  · rfl

theorem Runs.halt {code : ℤ} (h : d.Runs name)
    (hne : ∀ c ∈ d, c.isRef ref = true → c.name ≠ name) : (d.halt ref code).Runs name := by
  obtain ⟨c, hmem, hname, hrun⟩ := h
  refine ⟨c, List.mem_map.mpr ⟨c, hmem, ?_⟩, hname, hrun⟩
  rw [if_neg fun href => hne c hmem href.1 hname]

theorem Runs.remove (h : d.Runs name) (hne : ∀ c ∈ d, c.isRef ref = true → c.name ≠ name) :
    (d.remove ref).Runs name := by
  obtain ⟨c, hmem, hname, hrun⟩ := h
  refine ⟨c, mem_remove.mpr ⟨hmem, ?_⟩, hname, hrun⟩
  by_contra href
  exact hne c hmem (by simpa using href) hname

theorem Runs.create (h : d.Runs name) : Runs (d ++ [c]) name := by
  obtain ⟨c, hmem, hc⟩ := h
  exact ⟨c, List.mem_append_left _ hmem, hc⟩

/-- How a call names what it changes. -/
def Call.target : Call → Option Ref
  | .create _ => none
  | .start ref => some ref
  | .halt ref _ => some ref
  | .remove ref => some ref

/-- A call that names nothing by this name leaves alone whether it runs. -/
theorem runs_perform_iff (hcreate : ∀ c, call = some (.create c) → c.status = .created)
    (hne : ∀ call' ref, call = some call' → call'.target = some ref →
      ∀ c ∈ d, c.isRef ref = true → c.name ≠ name) :
    (d.perform call).Runs name ↔ d.Runs name := by
  match call with
  | none => exact Iff.rfl
  | some (.create c) => exact ⟨fun h => h.of_create (hcreate c rfl), fun h => h.create⟩
  | some (.start ref) =>
    refine ⟨fun h => ?_, fun h => h.start⟩
    rcases h.of_start with h | ⟨c, hmem, href, hname⟩
    · exact h
    · exact absurd hname (hne _ ref rfl rfl c hmem href)
  | some (.halt ref code) => exact ⟨fun h => h.of_halt, fun h => h.halt (hne _ ref rfl rfl)⟩
  | some (.remove ref) => exact ⟨fun h => h.of_remove, fun h => h.remove (hne _ ref rfl rfl)⟩

theorem name_of_isRef {name' : ContainerName} (href : c.isRef (.name name') = true) : c.name = name' :=
  of_decide_eq_true href

theorem not_free_of_runs {id : Str} (h : d.Runs name) : d.free name id = false := by
  obtain ⟨c, hmem, hname, -⟩ := h
  by_contra hfree
  have hall : d.free name id = true := by simpa using hfree
  exact (of_decide_eq_true (List.all_eq_true.mp hall c hmem)).1 hname

end Docker

end Instances
