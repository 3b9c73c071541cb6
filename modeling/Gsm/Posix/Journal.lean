import Gsm.Posix.Walk

/-!
# A tree with a journal

A journal holds a tree as it was and as it is and the accesses made in between, with the frame
property as a field: a place that no recorded change is at or above is as it was. Whatever is built
from the operations below has it by construction.
-/

namespace Posix

variable {α β : Type*}

inductive Act where
  | read
  | write
  | create
  | chown
  | chmod
  | remove
deriving DecidableEq

/-- One access to one node. -/
structure Access (α : Type*) where
  act : Act
  loc : Loc α
deriving DecidableEq

/-- Everything but reading. -/
def Act.changes (a : Act) : Prop := a ≠ .read

instance : DecidablePred Act.changes := fun a => inferInstanceAs (Decidable (a ≠ .read))

theorem Act.changes_chown : Act.chown.changes := by decide

theorem Act.changes_chmod : Act.chmod.changes := by decide

/-- What makes, fills or hands over a node. -/
def Act.touches (a : Act) : Prop := a = .create ∨ a = .write ∨ a = .chown

instance : DecidablePred Act.touches := fun a =>
  inferInstanceAs (Decidable (a = .create ∨ a = .write ∨ a = .chown))

structure Journal (α β : Type*) where
  start : Tree α β
  tree : Tree α β
  log : List (Access α)
  framed : ∀ l, (∀ a ∈ log, a.act.changes → ¬ a.loc <+: l) → tree.node l = start.node l

namespace Journal

/-- Nothing accessed yet. -/
def of (t : Tree α β) : Journal α β where
  start := t
  tree := t
  log := []
  framed _ _ := rfl

@[simp] theorem of_tree (t : Tree α β) : (of t).tree = t := rfl

@[simp] theorem of_start (t : Tree α β) : (of t).start = t := rfl

@[simp] theorem of_log (t : Tree α β) : (of t).log = [] := rfl

/-- What lies outside `R` is untouched when every change was made inside it. -/
theorem frame {R : Loc α} (j : Journal α β)
    (h : ∀ a ∈ j.log, a.act.changes → R <+: a.loc) {l : Loc α} (hl : ¬ R <+: l) :
    j.tree.node l = j.start.node l :=
  j.framed l fun a ha hc hal => hl ((h a ha hc).trans hal)

/-- Record that a node was read. -/
def read (j : Journal α β) (l : Loc α) : Journal α β where
  start := j.start
  tree := j.tree
  log := j.log ++ [⟨.read, l⟩]
  framed x h := j.framed x fun a ha => h a (List.mem_append_left _ ha)

@[simp] theorem start_read (j : Journal α β) (l : Loc α) : (j.read l).start = j.start := rfl
@[simp] theorem tree_read (j : Journal α β) (l : Loc α) : (j.read l).tree = j.tree := rfl
@[simp] theorem log_read (j : Journal α β) (l : Loc α) :
    (j.read l).log = j.log ++ [⟨.read, l⟩] := rfl

/-- Change the tree at and below the recorded places only. -/
def change (j : Journal α β) (t : Tree α β) (new : List (Access α))
    (hnew : ∀ a ∈ new, a.act.changes)
    (h : ∀ x, (∀ a ∈ new, ¬ a.loc <+: x) → t.node x = j.tree.node x) : Journal α β where
  start := j.start
  tree := t
  log := j.log ++ new
  framed x hx := by
    rw [h x fun a ha => hx a (List.mem_append_right _ ha) (hnew a ha)]
    exact j.framed x fun a ha => hx a (List.mem_append_left _ ha)

section

variable [LinearOrder α]

def create (j : Journal α β) (d : Loc α) (n : α) (nd : Node α β) : Journal α β :=
  j.change (j.tree.create d n nd) [⟨.create, d ++ [n]⟩] (by simp [Act.changes]) fun x hx =>
    Tree.node_create_ne _ _ fun he => hx _ (List.mem_singleton_self _) (by simp [he])

def alter (j : Journal α β) (act : Act) (hact : act.changes) (l : Loc α)
    (f : Node α β → Node α β) (hf : ∀ nd, (f nd).shape = nd.shape) : Journal α β :=
  j.change (j.tree.alter l f hf) [⟨act, l⟩] (by simpa using hact) fun x hx => by
    have hne : x ≠ l := fun he => hx _ (List.mem_singleton_self _) (by simp [he])
    simp [hne]

def remove (j : Journal α β) (l : Loc α) : Journal α β :=
  j.change (j.tree.remove l) [⟨.remove, l⟩] (by simp [Act.changes]) fun _ hx =>
    Tree.node_remove_ne _ (hx _ (List.mem_singleton_self _))

/-- Move `src` to `d ++ [n]`, in place of what was there. -/
def replace (j : Journal α β) (src d : Loc α) (n : α) : Journal α β :=
  j.change ((j.tree.remove (d ++ [n])).move src d n) [⟨.remove, src⟩, ⟨.create, d ++ [n]⟩]
    (by simp [Act.changes]) fun x hx => by
      have hs : ¬ src <+: x := hx ⟨.remove, src⟩ (by simp)
      have hd : ¬ d ++ [n] <+: x := hx ⟨.create, d ++ [n]⟩ (by simp)
      rw [Tree.node_move_ne _ hs hd, Tree.node_remove_ne _ hd]

variable (j : Journal α β)

@[simp] theorem start_create (d n) (nd : Node α β) : (j.create d n nd).start = j.start := rfl
@[simp] theorem tree_create (d n) (nd : Node α β) :
    (j.create d n nd).tree = j.tree.create d n nd := rfl
@[simp] theorem log_create (d n) (nd : Node α β) :
    (j.create d n nd).log = j.log ++ [⟨.create, d ++ [n]⟩] := rfl

@[simp] theorem start_alter (act h l f hf) : (j.alter act h l f hf).start = j.start := rfl
@[simp] theorem tree_alter (act h l f hf) : (j.alter act h l f hf).tree = j.tree.alter l f hf := rfl
@[simp] theorem log_alter (act h l f hf) :
    (j.alter act h l f hf).log = j.log ++ [⟨act, l⟩] := rfl

@[simp] theorem start_remove (l : Loc α) : (j.remove l).start = j.start := rfl
@[simp] theorem tree_remove (l : Loc α) : (j.remove l).tree = j.tree.remove l := rfl
@[simp] theorem log_remove (l : Loc α) : (j.remove l).log = j.log ++ [⟨.remove, l⟩] := rfl

@[simp] theorem start_replace (s d : Loc α) (n : α) : (j.replace s d n).start = j.start := rfl
@[simp] theorem tree_replace (s d : Loc α) (n : α) :
    (j.replace s d n).tree = (j.tree.remove (d ++ [n])).move s d n := rfl
@[simp] theorem log_replace (s d : Loc α) (n : α) :
    (j.replace s d n).log = j.log ++ [⟨.remove, s⟩, ⟨.create, d ++ [n]⟩] := rfl

end

/-- Putting a file somewhere leaves no directory and no link where there was none. -/
theorem look_replace_file [LinearOrder α] {j : Journal α β} {s d x : Loc α} {n : α} {sh : Shape α}
    (hs : j.tree.look s = some .leaf) (hn : ¬ d ++ [n] <+: s)
    (h : (j.replace s d n).tree.look x = some sh) (hsh : sh ≠ .leaf) :
    j.tree.look x = some sh := by
  refine Tree.look_remove (l := d ++ [n]) (Tree.look_move_file ?_ h hsh)
  rw [Tree.look, Tree.node_remove_ne _ hn]
  exact hs

/-! ## Staying inside a place -/

/-- Between `j` and `j'` the accesses of the given kinds were all made inside `R`. -/
def Stays (acts : Act → Prop) (R : Loc α) (j j' : Journal α β) : Prop :=
  ∃ new, j'.log = j.log ++ new ∧ ∀ a ∈ new, acts a.act → R <+: a.loc

variable {acts : Act → Prop} {R : Loc α} {j j' j'' : Journal α β}

@[refl] theorem Stays.refl (j : Journal α β) : Stays acts R j j := ⟨[], by simp, by simp⟩

@[trans] theorem Stays.trans (h : Stays acts R j j') (h' : Stays acts R j' j'') :
    Stays acts R j j'' := by
  obtain ⟨new, hlog, hnew⟩ := h
  obtain ⟨new', hlog', hnew'⟩ := h'
  refine ⟨new ++ new', by rw [hlog', hlog, List.append_assoc], fun a ha => ?_⟩
  rcases List.mem_append.mp ha with ha | ha
  · exact hnew a ha
  · exact hnew' a ha

theorem Stays.of_log {new : List (Access α)} (hlog : j'.log = j.log ++ new)
    (h : ∀ a ∈ new, acts a.act → R <+: a.loc) : Stays acts R j j' := ⟨new, hlog, h⟩

/-- What stays inside a place stays inside the places above it. -/
theorem Stays.above {P : Loc α} (h : Stays acts P j j') (hRP : R <+: P) : Stays acts R j j' := by
  obtain ⟨new, hlog, hnew⟩ := h
  exact ⟨new, hlog, fun a ha hact => hRP.trans (hnew a ha hact)⟩

/-- From a fresh journal: the whole log stays inside. -/
theorem stays_of_iff {t : Tree α β} :
    Stays acts R (of t) j ↔ ∀ a ∈ j.log, acts a.act → R <+: a.loc := by
  constructor
  · rintro ⟨new, hlog, hnew⟩
    rw [hlog]
    simpa using hnew
  · intro h
    exact ⟨j.log, by simp, h⟩

/-- Between `j` and `j'` nodes were read at most. -/
structure Quiet (j j' : Journal α β) : Prop where
  tree : j'.tree = j.tree
  log : ∃ new, j'.log = j.log ++ new ∧ ∀ a ∈ new, a.act = .read

@[refl] theorem Quiet.refl (j : Journal α β) : Quiet j j := ⟨rfl, [], by simp, by simp⟩

@[trans] theorem Quiet.trans (h : Quiet j j') (h' : Quiet j' j'') : Quiet j j'' := by
  obtain ⟨new, hlog, hnew⟩ := h.log
  obtain ⟨new', hlog', hnew'⟩ := h'.log
  refine ⟨h'.tree.trans h.tree, new ++ new', by rw [hlog', hlog, List.append_assoc], fun a ha => ?_⟩
  rcases List.mem_append.mp ha with ha | ha
  · exact hnew a ha
  · exact hnew' a ha

theorem Quiet.stays_of (h : Quiet j j') (hread : ¬ acts .read) : Stays acts R j j' := by
  obtain ⟨new, hlog, hnew⟩ := h.log
  exact ⟨new, hlog, fun a ha hact => absurd (hnew a ha ▸ hact) hread⟩

theorem Quiet.stays (h : Quiet j j') : Stays Act.changes R j j' := h.stays_of fun hread => hread rfl

/-- `j'` is a later state of `j`: same beginning, and the log has only grown. -/
structure Before (j j' : Journal α β) : Prop where
  start : j'.start = j.start
  log : j.log <+: j'.log

@[refl] theorem Before.refl (j : Journal α β) : Before j j := ⟨rfl, List.prefix_rfl⟩

@[trans] theorem Before.trans (h : Before j j') (h' : Before j' j'') : Before j j'' :=
  ⟨h'.start.trans h.start, h.log.trans h'.log⟩

/-- A run stays inside exactly when its first part and the rest do. -/
theorem stays_split (h : Before j j') (h' : Before j' j'') :
    Stays acts R j j'' ↔ Stays acts R j j' ∧ Stays acts R j' j'' := by
  refine ⟨?_, fun hs => hs.1.trans hs.2⟩
  obtain ⟨new, hnew⟩ := h.log
  obtain ⟨more, hmore⟩ := h'.log
  rintro ⟨all, hall, hin⟩
  have : all = new ++ more := by
    refine @List.append_cancel_left _ j.log _ _ ?_
    rw [← hall, ← hmore, ← hnew, List.append_assoc]
  subst this
  exact ⟨⟨new, hnew.symm, fun a ha => hin a (List.mem_append_left _ ha)⟩,
    ⟨more, hmore.symm, fun a ha => hin a (List.mem_append_right _ ha)⟩⟩

/-- The one-step case: exactly these accesses were added. -/
theorem stays_iff (new : List (Access α)) (hlog : j'.log = j.log ++ new) :
    Stays acts R j j' ↔ ∀ a ∈ new, acts a.act → R <+: a.loc := by
  constructor
  · rintro ⟨all, hall, hin⟩
    rw [hlog] at hall
    rwa [List.append_cancel_left hall]
  · exact Stays.of_log hlog

-- the equations that later modules rewrite with, stated here once
attribute [local simp] Posix.Journal.alter.congr_simp

end Journal

end Posix
