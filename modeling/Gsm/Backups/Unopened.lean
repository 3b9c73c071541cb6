import Gsm.Backups.RoundTrip

/-!
# A backup of files that cannot be opened

The walk of `Create` passes over a file that has gone from the directory, and over one that it cannot
open. The header of the second is written by then, and the tar writer accepts nothing more, its own
end included, before the bytes the header announces. So the backup fails with such a file, unless it is
empty: then the archive holds it.
-/

open Posix GoStd

namespace Backups

/-- What becomes of a regular file between the listing of its directory and the reading. -/
inductive Fate where
  | opens
  | gone
  | closed
deriving DecidableEq

/-- The walk and the bytes the tar writer waits for. -/
structure Writing extends Archived where
  missing : ℕ

/-- `Flush` of the tar writer, with which `WriteHeader` and `Close` begin. -/
def Writing.flush (w : Writing) : Prog Unit :=
  if w.missing = 0 then pure ()
  else Sys.throw (failed ("archive/tar: missed writing ".toList ++ w.missing.repr.toList ++
    " bytes".toList))

def Writing.writeHeader (w : Writing) (e : TarEntry) (size : ℕ) : Prog Writing := do
  w.flush
  pure { w with entries := w.entries ++ [e], missing := size }

/-- `visit`, with the fate of a regular file. -/
def visitFate (m : Matcher) (fate : Path → Fate) (root rel : Path) (w : Writing) : Prog Writing := do
  match ← (Sys.lstat (root ++ rel)).attempt with
  | .error _ => pure w
  | .ok info =>
      let isDir := decide (info.shape = .dir)
      if m.matches (relText rel) isDir then
        pure (if isDir then { w with pruned := rel :: w.pruned } else w)
      else
        match info.kind with
        | .dir => w.writeHeader (dirEntry rel info.mode) 0
        | .file data =>
            match fate rel with
            | .gone => pure w
            | .closed => w.writeHeader (fileEntry rel info.mode []) data.length
            | .opens => do
                w.flush
                let a ← w.copyFile (root ++ rel) rel info.mode data.length
                pure ⟨a, 0⟩
        | _ => pure w

def archiveFromFate (m : Matcher) (fate : Path → Fate) (root : Path) (ctx : ℕ → Bool) :
    List Path → Writing → Prog Writing
  | [], w => pure w
  | rel :: more, w =>
      if w.pruned.any (·.isPrefixOf rel) then archiveFromFate m fate root ctx more w
      else if ctx w.checks then Sys.throw (failed "context canceled".toList)
      else do
        let w ← visitFate m fate root rel { w with checks := w.checks + 1 }
        archiveFromFate m fate root ctx more w

/-- The walk, and `Close` of the tar writer. -/
def archiveFate (m : Matcher) (fate : Path → Fate) (root : Path) (ctx : ℕ → Bool) :
    Prog Archived := do
  match ← (Sys.lstat root).attempt with
  | .error e => Sys.throw e
  | .ok _ =>
      if ctx 0 then Sys.throw (failed "context canceled".toList)
      else do
        let rels ← walkDir root
        let w ← archiveFromFate m fate root ctx rels ⟨⟨[], 1, 0, []⟩, 0⟩
        w.flush
        pure w.toArchived

/-- `Create` where files have a fate. -/
def createFate (lib : Archiver) (fate : Path → Fate) (ctx : ℕ → Bool) (dataDir dir : Path) (n : Name)
    (ignore : List Str) : Prog BackupCreateResult :=
  createWith lib dir n (archiveFate (newMatcher ignore) fate dataDir ctx)

variable {m : Matcher} {fate : Path → Fate} {t : Tree Name Str} {j j' j'' : Journal Name Str}
  {root rel : Path} {R : Loc Name} {w w' : Writing} {nd : Node Name Str} {e : TarEntry} {size : ℕ}
  {rels : List Path} {ctx : ℕ → Bool}

/-! ## Where every file opens -/

theorem run_flush (h : w.missing = 0) (j : Journal Name Str) : w.flush.run j = (.ok (), j) := by
  rw [Writing.flush, if_pos h]
  rfl

theorem run_flush_missing (h : w.missing ≠ 0) (j : Journal Name Str) :
    ∃ e, w.flush.run j = (.error e, j) := by
  rw [Writing.flush, if_neg h]
  exact ⟨_, rfl⟩

/-- A walk that owes nothing, seen as one with a tar writer. -/
def owingNothing : Except (Failure RestoreError) Archived × Journal Name Str →
    Except (Failure RestoreError) Writing × Journal Name Str
  | (.ok a, j) => (.ok ⟨a, 0⟩, j)
  | (.error e, j) => (.error e, j)

theorem run_visitFate_opens (m : Matcher) (root rel : Path) (a : Archived) (j : Journal Name Str) :
    (visitFate m (fun _ => .opens) root rel ⟨a, 0⟩).run j =
      owingNothing ((visit m root rel a).run j) := by
  rw [visitFate, visit, Sys.run_bind_ok (Sys.run_attempt _ _), Sys.run_bind_ok (Sys.run_attempt _ _)]
  rcases (Sys.lstat (μ := RestoreError) (root ++ rel)).run j |>.1 with e | info
  · rfl
  · simp only
    split
    · split <;> rfl
    · rcases hk : info.kind with _ | data | target | _
      · rfl
      · simp only
        rw [Sys.run_bind_ok (run_flush rfl _), Sys.run_bind]
        rcases (a.copyFile (root ++ rel) rel info.mode data.length).run _ with ⟨e | a', j'⟩ <;> rfl
      · rfl
      · rfl

theorem run_archiveFromFate_opens (rels : List Path) (a : Archived) (j : Journal Name Str) :
    (archiveFromFate m (fun _ => .opens) root ctx rels ⟨a, 0⟩).run j =
      owingNothing ((archiveFrom m root ctx rels a).run j) := by
  induction rels generalizing a j with
  | nil => rfl
  | cons rel rels ih =>
    rw [archiveFromFate, archiveFrom]
    split
    · exact ih a j
    · split
      · rfl
      · rw [Sys.run_bind, Sys.run_bind]
        have hvisit := run_visitFate_opens m root rel
          { a with checks := a.checks + 1 } j
        rw [hvisit]
        rcases (visit m root rel { a with checks := a.checks + 1 }).run j with ⟨e | a', j'⟩
        · rfl
        · exact ih a' j'

/-- Where every file opens, this is the walk of `Create`. -/
theorem archiveFate_opens : archiveFate m (fun _ => .opens) root ctx = archive m root ctx := by
  refine Sys.ext_run fun j => ?_
  rw [archiveFate, archive, Sys.run_bind_ok (Sys.run_attempt _ _), Sys.run_bind_ok (Sys.run_attempt _ _)]
  rcases (Sys.lstat (μ := RestoreError) root).run j |>.1 with e | info
  · rfl
  · simp only
    split
    · rfl
    · rw [Sys.run_bind, Sys.run_bind]
      rcases (walkDir root).run _ with ⟨e | rels, j'⟩
      · rfl
      · simp only
        rw [Sys.run_bind, run_archiveFromFate_opens]
        rcases (archiveFrom m root ctx rels ⟨[], 1, 0, []⟩).run j' with ⟨e | a, j''⟩
        · rfl
        · exact Sys.run_bind_ok (run_flush rfl _)

theorem createFate_opens (lib : Archiver) (ctx : ℕ → Bool) (dataDir dir : Path) (n : Name)
    (ignore : List Str) :
    createFate lib (fun _ => .opens) ctx dataDir dir n ignore = create lib ctx dataDir dir n ignore := by
  rw [createFate, archiveFate_opens, create_eq]

/-! ## What the walk comes to -/

/-- The header written at a node that is kept, with the bytes that the tar writer waits for then. -/
def nodeHead (fate : Path → Fate) (rel : Path) (nd : Node Name Str) : Option (TarEntry × ℕ) :=
  match nd.kind with
  | .dir => some (dirEntry rel nd.mode, 0)
  | .file data =>
      match fate rel with
      | .gone => none
      | .closed => some (fileEntry rel nd.mode [], data.length)
      | .opens => some (fileEntry rel nd.mode data, 0)
  | _ => none

def headOf (m : Matcher) (fate : Path → Fate) (t : Tree Name Str) (R : Loc Name) (rel : Path) :
    Option (TarEntry × ℕ) :=
  (t.node (R ++ rel)).bind fun nd => if m.drops rel nd then none else nodeHead fate rel nd

/-- What the walk has left out so far does not depend on the fates. -/
theorem pruned_add (a : Archived) :
    (a.add m rel nd).pruned =
      if m.drops rel nd ∧ nd.shape = .dir then rel :: a.pruned else a.pruned := by
  rw [Archived.add]
  by_cases hdrop : m.drops rel nd = true
  · rw [if_pos hdrop]
    by_cases hdir : nd.shape = .dir
    · rw [if_pos hdir, if_pos ⟨hdrop, hdir⟩]
    · rw [if_neg hdir, if_neg fun h => hdir h.2]
  · rw [if_neg hdrop, if_neg fun h => hdrop h.1]
    cases nd.kind <;> rfl

/-- How one visit ends: it writes no header, or one that the tar writer takes, or one that it
refuses. -/
inductive Visited (m : Matcher) (fate : Path → Fate) (R : Loc Name) (rel : Path)
    (nd : Node Name Str) (w : Writing) (j : Journal Name Str) :
    Except (Failure RestoreError) Writing × Journal Name Str → Prop where
  | nothing (w' : Writing) (j' : Journal Name Str) (head : headOf m fate j.tree R rel = none)
      (quiet : j.Quiet j') (pruned : w'.pruned = (w.add m rel nd).pruned)
      (entries : w'.entries = w.entries) (missing : w'.missing = w.missing) :
      Visited m fate R rel nd w j (.ok w', j')
  | header (e : TarEntry) (size : ℕ) (w' : Writing) (j' : Journal Name Str)
      (head : headOf m fate j.tree R rel = some (e, size)) (paid : w.missing = 0)
      (quiet : j.Quiet j') (pruned : w'.pruned = (w.add m rel nd).pruned)
      (entries : w'.entries = w.entries ++ [e]) (missing : w'.missing = size) :
      Visited m fate R rel nd w j (.ok w', j')
  | refused (e : Failure RestoreError) (j' : Journal Name Str) (owing : w.missing ≠ 0) :
      Visited m fate R rel nd w j (.error e, j')

theorem visited_writeHeader (hhead : headOf m fate j.tree R rel = some (e, size))
    (hpruned : w.pruned = (w.add m rel nd).pruned) :
    Visited m fate R rel nd w j ((w.writeHeader e size).run j) := by
  rw [Writing.writeHeader]
  by_cases hpaid : w.missing = 0
  · rw [Sys.run_bind_ok (run_flush hpaid _)]
    exact .header e size _ j hhead hpaid (.refl j) hpruned rfl rfl
  · obtain ⟨err, hrun⟩ := run_flush_missing hpaid j
    rw [Sys.run_bind_error hrun]
    exact .refused err j hpaid

theorem visited_visitFate (hl : j.tree.lstat (root ++ rel) = .found (R ++ rel))
    (hn : j.tree.node (R ++ rel) = some nd) :
    Visited m fate R rel nd w j ((visitFate m fate root rel w).run j) := by
  have hlstat := Sys.run_lstat_found (μ := RestoreError) hl hn
  rw [visitFate, Sys.run_bind_ok (Sys.run_attempt _ _), hlstat]
  show Visited m fate R rel nd w j
    ((if m.drops rel nd = true then _ else _ : Prog Writing).run j)
  by_cases hdrop : m.drops rel nd = true
  · have hhead : headOf m fate j.tree R rel = none := by
      rw [headOf, hn, Option.bind_some, if_pos hdrop]
    rw [if_pos hdrop]
    refine .nothing _ j hhead (.refl j) ?_ ?_ ?_
    · rw [pruned_add]
      by_cases hdir : nd.shape = .dir
      · simp [hdrop, hdir]
      · simp [hdir]
    · split <;> rfl
    · split <;> rfl
  · have hpruned : w.pruned = (w.add m rel nd).pruned := by
      rw [pruned_add, if_neg fun h => hdrop h.1]
    have hhead : headOf m fate j.tree R rel = nodeHead fate rel nd := by
      rw [headOf, hn, Option.bind_some, if_neg hdrop]
    rw [if_neg hdrop]
    rw [nodeHead] at hhead
    match hk : nd.kind with
    | .dir =>
      rw [hk] at hhead
      exact visited_writeHeader hhead hpruned
    | .link _ =>
      rw [hk] at hhead
      exact .nothing w j hhead (.refl j) hpruned rfl rfl
    | .special =>
      rw [hk] at hhead
      exact .nothing w j hhead (.refl j) hpruned rfl rfl
    | .file data =>
      rw [hk] at hhead
      match hf : fate rel with
      | .gone =>
        simp only [hf] at hhead ⊢
        exact .nothing w j hhead (.refl j) hpruned rfl rfl
      | .closed =>
        simp only [hf] at hhead ⊢
        exact visited_writeHeader hhead hpruned
      | .opens =>
        simp only [hf] at hhead ⊢
        by_cases hpaid : w.missing = 0
        · obtain ⟨j', hcopy, hquiet⟩ := run_copyFile (w := w.toArchived) hl hn hk
          rw [Sys.run_bind_ok (run_flush hpaid _), Sys.run_bind_ok hcopy]
          exact .header _ 0 _ j' hhead hpaid hquiet hpruned rfl rfl
        · obtain ⟨err, hrun⟩ := run_flush_missing hpaid j
          rw [Sys.run_bind_error hrun]
          exact .refused err j hpaid

theorem headOf_pruned {a : Archived} (hp : PrunedBy m t R a) (hn : t.node (R ++ rel) = some nd)
    (h : a.pruned.any (·.isPrefixOf rel) = true) : headOf m fate t R rel = none := by
  rw [headOf, hn, Option.bind_some, if_pos (drops_of_pruned hp hn h)]

/-- The headers written in a walk. -/
def headsOf (m : Matcher) (fate : Path → Fate) (t : Tree Name Str) (R : Loc Name)
    (rels : List Path) : List (TarEntry × ℕ) :=
  rels.filterMap (headOf m fate t R)

theorem headsOf_none (h : headOf m fate t R rel = none) :
    headsOf m fate t R (rel :: rels) = headsOf m fate t R rels :=
  List.filterMap_cons_none h

theorem headsOf_some {head : TarEntry × ℕ} (h : headOf m fate t R rel = some head) :
    headsOf m fate t R (rel :: rels) = head :: headsOf m fate t R rels :=
  List.filterMap_cons_some h

theorem PrunedBy.of_eq {a b : Archived} (hp : PrunedBy m t R a) (h : b.pruned = a.pruned) :
    PrunedBy m t R b := by
  rw [PrunedBy, h]
  exact hp

/-- One step of the walk: it passes over a path, or visits it. -/
theorem run_archiveFromFate_cons (fate : Path → Fate) (rels : List Path) (hrel : rel ≠ [])
    (hne : t.node (R ++ rel) ≠ none) (hroot : t.DirAt root R) (hj : j.tree = t) (hp : PrunedBy m t R w.toArchived) :
    (headOf m fate t R rel = none ∧
      (archiveFromFate m fate root (fun _ => false) (rel :: rels) w).run j =
        (archiveFromFate m fate root (fun _ => false) rels w).run j) ∨
    ∃ nd r, t.node (R ++ rel) = some nd ∧
      Visited m fate R rel nd { w with checks := w.checks + 1 } j r ∧
      (∀ w' j', r = (.ok w', j') →
        (archiveFromFate m fate root (fun _ => false) (rel :: rels) w).run j =
          (archiveFromFate m fate root (fun _ => false) rels w').run j') ∧
      ∀ e j', r = (.error e, j') →
        (archiveFromFate m fate root (fun _ => false) (rel :: rels) w).run j = (.error e, j') := by
  obtain ⟨nd, hn⟩ := Option.ne_none_iff_exists'.mp hne
  by_cases hpruned : w.pruned.any (·.isPrefixOf rel) = true
  · refine .inl ⟨headOf_pruned hp hn hpruned, ?_⟩
    rw [archiveFromFate, if_pos hpruned]
  · have hl : j.tree.lstat (root ++ rel) = .found (R ++ rel) := by
      rw [hj]
      exact hroot.lstat_below hrel hne
    refine .inr ⟨nd, _, hn, visited_visitFate hl (hj ▸ hn), fun w' j' hr => ?_,
      fun e j' hr => ?_⟩
    · rw [archiveFromFate, if_neg hpruned, if_neg (by simp), Sys.run_bind_ok hr]
    · rw [archiveFromFate, if_neg hpruned, if_neg (by simp), Sys.run_bind_error hr]

/-- Where no header announces bytes that do not come, the walk writes them all. -/
theorem run_archiveFromFate (hrels : ∀ rel ∈ rels, rel ≠ [] ∧ t.node (R ++ rel) ≠ none)
    (hroot : t.DirAt root R) (hj : j.tree = t) (hp : PrunedBy m t R w.toArchived)
    (hpaid : w.missing = 0) (hheads : ∀ h ∈ headsOf m fate t R rels, h.2 = 0) :
    ∃ w' j', (archiveFromFate m fate root (fun _ => false) rels w).run j = (.ok w', j') ∧
      j.Quiet j' ∧ w'.missing = 0 ∧
        w'.entries = w.entries ++ (headsOf m fate t R rels).map Prod.fst := by
  induction rels generalizing j w with
  | nil => exact ⟨w, j, rfl, .refl j, hpaid, by simp [headsOf]⟩
  | cons rel rels ih =>
    obtain ⟨⟨hrel, hne⟩, hrels⟩ := List.forall_mem_cons.mp hrels
    rcases run_archiveFromFate_cons fate rels hrel hne hroot hj hp with
      ⟨hhead, hrun⟩ | ⟨nd, r, hn, hvisit, hrun, -⟩
    · rw [headsOf_none hhead] at hheads ⊢
      rw [hrun]
      exact ih hrels hj hp hpaid hheads
    · have hp' := prunedBy_add (w := { w.toArchived with checks := w.checks + 1 }) hp hrel hn
      rcases hvisit with ⟨w₁, j₁, hhead, hquiet, hpruned, hentries, hmissing⟩ |
        ⟨e, size, w₁, j₁, hhead, -, hquiet, hpruned, hentries, hmissing⟩ | ⟨err, j₁, howing⟩
      · rw [headsOf_none (hj ▸ hhead)] at hheads ⊢
        rw [hrun w₁ j₁ rfl]
        obtain ⟨w', j', hrest, hquiet', hmissing', hentries'⟩ := ih hrels (hquiet.tree.trans hj)
          (hp'.of_eq hpruned) (hmissing.trans hpaid) hheads
        refine ⟨w', j', hrest, hquiet.trans hquiet', hmissing', ?_⟩
        rw [hentries', hentries]
      · rw [headsOf_some (hj ▸ hhead)] at hheads ⊢
        obtain ⟨hsize, hheads⟩ := List.forall_mem_cons.mp hheads
        rw [hrun w₁ j₁ rfl]
        obtain ⟨w', j', hrest, hquiet', hmissing', hentries'⟩ := ih hrels (hquiet.tree.trans hj)
          (hp'.of_eq hpruned) (hmissing.trans hsize) hheads
        refine ⟨w', j', hrest, hquiet.trans hquiet', hmissing', ?_⟩
        rw [hentries', hentries, List.map_cons, List.append_assoc]
        rfl
      · exact absurd hpaid howing

/-- A walk that ends owing nothing has owed nothing: who owes writes no header. -/
theorem heads_of_paid (hrels : ∀ rel ∈ rels, rel ≠ [] ∧ t.node (R ++ rel) ≠ none)
    (hroot : t.DirAt root R) (hj : j.tree = t) (hp : PrunedBy m t R w.toArchived)
    (hrun : (archiveFromFate m fate root (fun _ => false) rels w).run j = (.ok w', j'))
    (hpaid : w'.missing = 0) :
    w.missing = 0 ∧ ∀ h ∈ headsOf m fate t R rels, h.2 = 0 := by
  induction rels generalizing j w with
  | nil =>
    cases hrun
    exact ⟨hpaid, by simp [headsOf]⟩
  | cons rel rels ih =>
    obtain ⟨⟨hrel, hne⟩, hrels⟩ := List.forall_mem_cons.mp hrels
    rcases run_archiveFromFate_cons fate rels hrel hne hroot hj hp with
      ⟨hhead, hstep⟩ | ⟨nd, r, hn, hvisit, hstep, herror⟩
    · rw [headsOf_none hhead]
      exact ih hrels hj hp (hstep.symm.trans hrun)
    · have hp' := prunedBy_add (w := { w.toArchived with checks := w.checks + 1 }) hp hrel hn
      rcases hvisit with ⟨w₁, j₁, hhead, hquiet, hpruned, -, hmissing⟩ |
        ⟨e, size, w₁, j₁, hhead, howed, hquiet, hpruned, -, hmissing⟩ | ⟨err, j₁, howing⟩
      · rw [headsOf_none (hj ▸ hhead)]
        rw [hstep w₁ j₁ rfl] at hrun
        obtain ⟨hzero, hrest⟩ := ih hrels (hquiet.tree.trans hj) (hp'.of_eq hpruned) hrun
        exact ⟨hmissing.symm.trans hzero, hrest⟩
      · rw [headsOf_some (hj ▸ hhead)]
        rw [hstep w₁ j₁ rfl] at hrun
        obtain ⟨hzero, hrest⟩ := ih hrels (hquiet.tree.trans hj) (hp'.of_eq hpruned) hrun
        exact ⟨howed, List.forall_mem_cons.mpr ⟨hmissing.symm.trans hzero, hrest⟩⟩
      · rw [herror err j₁ rfl] at hrun
        cases hrun

/-- All headers of a data directory. -/
def allHeads (m : Matcher) (fate : Path → Fate) (t : Tree Name Str) (R : Loc Name) :
    List (TarEntry × ℕ) :=
  headsOf m fate t R (t.below R)

/-- The walk succeeds exactly where no header announces bytes that do not come. -/
theorem run_archiveFate (m : Matcher) (fate : Path → Fate) (hl : j.tree.lstat root = .found R)
    (hR : j.tree.look R = some .dir) :
    ((∀ h ∈ allHeads m fate j.tree R, h.2 = 0) →
      ∃ w j', (archiveFate m fate root (fun _ => false)).run j = (.ok w, j') ∧ j.Quiet j' ∧
        w.entries = (allHeads m fate j.tree R).map Prod.fst) ∧
    ∀ w j', (archiveFate m fate root (fun _ => false)).run j = (.ok w, j') →
      ∀ h ∈ allHeads m fate j.tree R, h.2 = 0 := by
  obtain ⟨nd, hnd, -⟩ := Option.map_eq_some_iff.mp hR
  have hlstat := Sys.run_lstat_found (μ := RestoreError) hl hnd
  have hwalk : (walkDir root).run j = (.ok (j.tree.below R), j) := by
    rw [walkDir, Sys.run_look, hl]
  have hroot : j.tree.DirAt root R := ⟨Tree.stat_of_lstat hl (by simp [hR]), hR⟩
  have hstart : PrunedBy m j.tree R ⟨[], 1, 0, []⟩ := by
    intro q hq
    cases hq
  have hrels : ∀ rel ∈ j.tree.below R, rel ≠ [] ∧ j.tree.node (R ++ rel) ≠ none :=
    fun rel hrel => Tree.mem_below hrel
  have hall : (archiveFate m fate root (fun _ => false)).run j =
      (do
        let w ← archiveFromFate m fate root (fun _ => false) (j.tree.below R)
          ⟨⟨[], 1, 0, []⟩, 0⟩
        w.flush
        pure w.toArchived : Prog Archived).run j := by
    rw [archiveFate, Sys.run_bind_ok (Sys.run_attempt _ _), hlstat]
    exact Sys.run_bind_ok hwalk
  rw [hall]
  constructor
  · intro hheads
    obtain ⟨w', j', hrun, hquiet, hpaid, hentries⟩ := run_archiveFromFate (j := j)
      (w := ⟨⟨[], 1, 0, []⟩, 0⟩) hrels hroot rfl hstart rfl hheads
    refine ⟨w'.toArchived, j', ?_, hquiet, hentries⟩
    rw [Sys.run_bind_ok hrun, Sys.run_bind_ok (run_flush hpaid _)]
    rfl
  · intro w j' hok
    obtain ⟨w', j₁, hrun, hflush⟩ := Sys.run_bind_eq_ok.mp hok
    refine (heads_of_paid hrels hroot rfl hstart hrun ?_).2
    by_contra howing
    obtain ⟨err, herr⟩ := run_flush_missing howing j₁
    rw [Sys.run_bind_error herr] at hflush
    cases hflush

/-! ## What the backup holds -/

theorem mem_allHeads {h : TarEntry × ℕ} : h ∈ allHeads m fate t R ↔ ∃ rel, rel ≠ [] ∧ ∃ nd,
    t.node (R ++ rel) = some nd ∧ m.drops rel nd = false ∧ nodeHead fate rel nd = some h :=
  mem_filterMap_below

theorem allHeads_congr {u : Tree Name Str} (h : ∀ x, u.node (R ++ x) = t.node (R ++ x)) :
    allHeads m fate u R = allHeads m fate t R := by
  have hbelow : u.below R = t.below R := Tree.below_congr fun x _ => by rw [h x]
  rw [allHeads, allHeads, hbelow]
  refine List.filterMap_congr fun x _ => ?_
  rw [headOf, headOf, h x]

/-- A regular file that the patterns keep. -/
def KeptFile (m : Matcher) (t : Tree Name Str) (R : Loc Name) (rel : Path) (mode : ℕ) (data : Str) :
    Prop :=
  rel ≠ [] ∧ m.matches (relText rel) false = false ∧
    ∃ nd, t.node (R ++ rel) = some nd ∧ nd.mode = mode ∧ nd.kind = .file data

theorem drops_file {data : Str} (hk : nd.kind = .file data) :
    m.drops rel nd = m.matches (relText rel) false := by
  have hshape : nd.shape = .leaf := by rw [Node.shape, hk]; rfl
  rw [Matcher.drops, hshape]
  rfl

/-- The file of a regular entry of the archive: it has opened, or is empty and has not. -/
theorem reg_of_head (hhead : (e, 0) ∈ allHeads m fate t R) (hreg : e.typeflag = .reg) :
    ∃ rel mode data, KeptFile m t R rel mode data ∧ fate rel ≠ .gone ∧
      e = fileEntry rel mode data := by
  obtain ⟨rel, hrel, nd, hn, hdrop, hnode⟩ := mem_allHeads.mp hhead
  rw [nodeHead] at hnode
  rcases hk : nd.kind with _ | data | target | _
  · rw [hk] at hnode
    cases hnode
    cases hreg
  · rw [drops_file hk] at hdrop
    refine ⟨rel, nd.mode, data, ⟨hrel, hdrop, nd, hn, rfl, hk⟩, ?_⟩
    rw [hk] at hnode
    rcases hf : fate rel
    · simp only [hf, Option.some.injEq, Prod.mk.injEq] at hnode
      exact ⟨by decide, hnode.1.symm⟩
    · simp only [hf, reduceCtorEq] at hnode
    · simp only [hf, Option.some.injEq, Prod.mk.injEq, List.length_eq_zero_iff] at hnode
      obtain ⟨rfl, rfl⟩ := hnode
      exact ⟨by decide, rfl⟩
  · rw [hk] at hnode
    cases hnode
  · rw [hk] at hnode
    cases hnode

theorem head_of_kept (fate : Path → Fate) {mode : ℕ} {data : Str} (h : KeptFile m t R rel mode data) :
    (fate rel = .opens → (fileEntry rel mode data, 0) ∈ allHeads m fate t R) ∧
      (fate rel = .closed → (fileEntry rel mode [], data.length) ∈ allHeads m fate t R) := by
  obtain ⟨hrel, hmatch, nd, hn, rfl, hk⟩ := h
  have hdrop : m.drops rel nd = false := by rw [drops_file hk, hmatch]
  constructor
  all_goals
    intro hf
    refine mem_allHeads.mpr ⟨rel, hrel, nd, hn, hdrop, ?_⟩
    rw [nodeHead, hk]
    simp only [hf]

/-- `Create` succeeds, and what is read from the backup has exactly the files that are kept and open. -/
def BacksUpOthers (lib : Archiver) (t : Tree Name Str) (fate : Path → Fate) (dataDir dir : Path)
    (R : Loc Name) (n : Name) (ignore : List Str) : Prop :=
  ∃ res j' bytes r entries,
    (createFate lib fate (fun _ => false) dataDir dir n ignore).run (.of t) = (.ok res, j') ∧
      HoldsFile j'.tree (dir ++ [n]) bytes ∧ lib.gunzip bytes = .ok r ∧
        lib.readTar r = ⟨entries, none⟩ ∧
          ∀ e, e ∈ entries ∧ e.typeflag = .reg ↔ ∃ rel mode data,
            KeptFile (newMatcher ignore) t R rel mode data ∧ fate rel = .opens ∧
              e = fileEntry rel mode data

theorem HoldsFile.eq {u : Tree Name Str} {p : Path} {b b' : Str} (h : HoldsFile u p b)
    (h' : HoldsFile u p b') : b = b' := by
  obtain ⟨l, hl, hk⟩ := h
  obtain ⟨l', hl', hk'⟩ := h'
  rw [hl] at hl'
  cases hl'
  rw [hk] at hk'
  cases hk'
  rfl

variable {dataDir dir : Path} {D : Loc Name} {n : Name}

/-- `Create` makes the archive of the headers, where none announces bytes that do not come. -/
theorem run_createFate (lib : Archiver) (fate : Path → Fate) (ignore : List Str)
    (hl : t.lstat dataDir = .found R) (hR : t.look R = some .dir)
    (hD : t.Leads dir D) (hout : ¬ R <+: D) (hnul : hasNul (dir ++ [n]) = false)
    (hn : t.FreeForFile (D ++ [n])) (htmp : t.FreeForFile (D ++ [tmpName n])) :
    (∀ bytes, (∀ h ∈ allHeads (newMatcher ignore) fate t R, h.2 = 0) →
      lib.writeTarGz ((allHeads (newMatcher ignore) fate t R).map Prod.fst) = .ok bytes →
        ∃ res j', (createFate lib fate (fun _ => false) dataDir dir n ignore).run (.of t) =
          (.ok res, j') ∧ HoldsFile j'.tree (dir ++ [n]) bytes) ∧
    ∀ res j', (createFate lib fate (fun _ => false) dataDir dir n ignore).run (.of t) =
        (.ok res, j') → (∀ h ∈ allHeads (newMatcher ignore) fate t R, h.2 = 0) ∧
          ∃ bytes, lib.writeTarGz ((allHeads (newMatcher ignore) fate t R).map Prod.fst) = .ok bytes ∧
            HoldsFile j'.tree (dir ++ [n]) bytes := by
  obtain ⟨j₂, hopened, hstart⟩ := run_createWith_start hl hR hD hout hnul htmp
  have hR₂ : j₂.tree.look R = some .dir := by
    have hsame := hopened.node []
    rw [List.append_nil] at hsame
    rw [Tree.look, hsame, ← Tree.look, hR]
  have hheads₂ : allHeads (newMatcher ignore) fate j₂.tree R = allHeads (newMatcher ignore) fate t R :=
    allHeads_congr hopened.node
  obtain ⟨hgood, hbad⟩ := run_archiveFate (newMatcher ignore) fate hopened.root hR₂
  rw [hheads₂] at hgood hbad
  rw [createFate, hstart]
  constructor
  · intro bytes hzero hwrite
    obtain ⟨w, j₃, harch, hquiet, hentries⟩ := hgood hzero
    exact run_createWith_finish hopened hn harch hquiet (hentries ▸ hwrite)
  · intro res j' hrun
    obtain ⟨j₄, hpack, -⟩ := Sys.run_deferring_eq_ok.mp hrun
    obtain ⟨w, j₃, harch, hpack⟩ := Sys.run_bind_eq_ok.mp hpack
    have hzero := hbad w j₃ harch
    obtain ⟨w', j₃', harch', hquiet, hentries⟩ := hgood hzero
    rw [harch] at harch'
    cases harch'
    rcases hlib : lib.writeTarGz w.entries with e | bytes
    · rw [hlib] at hpack
      cases hpack
    · obtain ⟨res', j'', hrun', hfile⟩ := run_createWith_finish hopened hn harch hquiet hlib
      rw [hrun] at hrun'
      cases hrun'
      exact ⟨hzero, bytes, hentries ▸ hlib, hfile⟩

/-- Of the files that change between their listing and their reading, only those that are still there
and do not open spoil a backup; those that have gone do not. -/
theorem create_unopened_iff (lib : Archiver) (t : Tree Name Str) (fate : Path → Fate)
    (dataDir dir : Path) (R D : Loc Name) (n : Name) (ignore : List Str)
    (hl : t.lstat dataDir = .found R) (hR : t.look R = some .dir) (hD : t.Leads dir D)
    (hout : ¬ R <+: D) (hnul : hasNul (dir ++ [n]) = false) (hn : t.FreeForFile (D ++ [n]))
    (htmp : t.FreeForFile (D ++ [tmpName n]))
    (hread : ∀ entries bytes, lib.writeTarGz entries = .ok bytes → lib.Returns entries bytes)
    (hwrite : ∃ bytes,
      lib.writeTarGz ((allHeads (newMatcher ignore) fate t R).map Prod.fst) = .ok bytes) :
    BacksUpOthers lib t fate dataDir dir R n ignore ↔
      ∀ rel mode data, KeptFile (newMatcher ignore) t R rel mode data → fate rel ≠ .closed := by
  obtain ⟨hgood, hbad⟩ := run_createFate lib fate ignore hl hR hD hout hnul
    hn htmp
  constructor
  · rintro ⟨res, j', bytes, r, entries, hrun, hfile, hgz, htar, hexact⟩ rel mode data hkept hclosed
    -- nothing is missing, so the file is empty, and its header makes it part of the archive
    obtain ⟨hzero, b, hlib, hfile'⟩ := hbad res j' hrun
    obtain ⟨-, r', hgz', htar'⟩ := hread _ _ hlib
    have hbytes : bytes = b := hfile.eq hfile'
    rw [hbytes, hgz'] at hgz
    cases hgz
    rw [htar'] at htar
    cases htar
    have hhead := (head_of_kept fate hkept).2 hclosed
    have hmem := List.mem_map_of_mem (f := Prod.fst) hhead
    obtain ⟨rel', mode', data', hkept', hopens, heq⟩ := (hexact _).mp ⟨hmem, rfl⟩
    have hsame := @relText_injective ⟨rel, hkept.1⟩ ⟨rel', hkept'.1⟩ (congrArg TarEntry.name heq)
    cases hsame
    rw [hclosed] at hopens
    cases hopens
  · intro hopen
    have hzero : ∀ h ∈ allHeads (newMatcher ignore) fate t R, h.2 = 0 := by
      intro h hh
      obtain ⟨rel, hrel, nd, hnd, hdrop, hnode⟩ := mem_allHeads.mp hh
      rw [nodeHead] at hnode
      rcases hk : nd.kind with _ | data | target | _
      · rw [hk] at hnode
        cases hnode
        rfl
      · have hclosed := hopen rel nd.mode data ⟨hrel, drops_file hk ▸ hdrop, nd, hnd, rfl, hk⟩
        rw [hk] at hnode
        rcases hf : fate rel
        · simp only [hf, Option.some.injEq] at hnode
          rw [← hnode]
        · simp only [hf, reduceCtorEq] at hnode
        · exact absurd hf hclosed
      · rw [hk] at hnode
        cases hnode
      · rw [hk] at hnode
        cases hnode
    obtain ⟨bytes, hlib⟩ := hwrite
    obtain ⟨res, j', hrun, hfile⟩ := hgood bytes hzero hlib
    obtain ⟨-, r, hgz, htar⟩ := hread _ _ hlib
    refine ⟨res, j', bytes, r, _, hrun, hfile, hgz, htar, fun e => ?_⟩
    constructor
    · rintro ⟨hmem, hreg⟩
      obtain ⟨⟨e, size⟩, hhead, rfl⟩ := List.mem_map.mp hmem
      obtain rfl : size = 0 := hzero _ hhead
      obtain ⟨rel, mode, data, hkept, hgone, heq⟩ := reg_of_head hhead hreg
      refine ⟨rel, mode, data, hkept, ?_, heq⟩
      have hclosed := hopen rel mode data hkept
      rcases hf : fate rel
      · rfl
      · exact absurd hf hgone
      · exact absurd hf hclosed
    · rintro ⟨rel, mode, data, hkept, hopens, rfl⟩
      exact ⟨List.mem_map_of_mem (f := Prod.fst) ((head_of_kept fate hkept).1 hopens), rfl⟩

theorem saveArchiver_returns {entries : List TarEntry} {bytes : Str}
    (h : saveArchiver.writeTarGz entries = .ok bytes) : saveArchiver.Returns entries bytes := by
  refine ⟨h, ⟨saveTar, none, false⟩, ?_⟩
  by_cases hone : entries = [saveEntry]
  · subst hone
    obtain rfl : saveGz = bytes := Except.ok.inj h
    exact ⟨by decide +kernel, by decide +kernel⟩
  · have herr : saveArchiver.writeTarGz entries = .error "unknown".toList := if_neg hone
    rw [herr] at h
    cases h

/-- A data directory with one file that opens. -/
theorem create_unopened_oneSave :
    BacksUpOthers saveArchiver oneSave (fun _ => .opens) [name "a"] [name "backups"] [name "a"]
        (name "1") [] ↔
      ∀ rel mode data, KeptFile (newMatcher []) oneSave [name "a"] rel mode data →
        (fun _ => Fate.opens) rel ≠ Fate.closed :=
  create_unopened_iff saveArchiver oneSave (fun _ => .opens) [name "a"] [name "backups"] [name "a"]
    [name "backups"] (name "1") [] (by decide) (by decide)
    (.inr ⟨[], name "backups", [], [], rfl, rfl, ⟨Tree.stat_root, Tree.look_root _⟩, by decide⟩)
    (by decide) (by decide) (.inl (by rw [Tree.kindAt_eq_none]; decide))
    (.inl (by rw [Tree.kindAt_eq_none]; decide))
    (fun _ _ => saveArchiver_returns) ⟨saveGz, by decide +kernel⟩

/-- A save that does not open: it is no other file than those left out, and there is no backup. -/
theorem create_unopened_fails :
    KeptFile (newMatcher []) oneSave [name "a"] [name "save"] 0o644 ['x'] ∧
      ¬ ∃ res j', (createFate saveArchiver (fun _ => .closed) (fun _ => false) [name "a"]
        [name "backups"] (name "1") []).run (.of oneSave) = (.ok res, j') := by
  refine ⟨⟨by decide, by decide, _, rfl, rfl, rfl⟩, ?_⟩
  rintro ⟨res, j', hrun⟩
  have herr : ((createFate saveArchiver (fun _ => .closed) (fun _ => false) [name "a"]
      [name "backups"] (name "1") []).run (.of oneSave)).1.isOk = false := by decide +kernel
  rw [hrun] at herr
  cases herr

end Backups
