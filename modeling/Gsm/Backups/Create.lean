import Gsm.Backups.Matcher
import Gsm.Backups.Restore

/-!
# Making a backup

`Create` of `internal/backups`, for a data directory that nothing else changes meanwhile and that the
archive is not put into. A directory that the patterns leave out is not entered. Reports of progress
are left out; a context is given by what its `Err` answers at each entry of the walk.
-/

open Posix GoStd

namespace Backups

/-- The readers of an archive and its writer: the bytes made of some entries, or an error. -/
structure Archiver extends TarGz where
  writeTarGz : List TarEntry → Except Str Str
  sha256Hex : Str → Str

/-- What `filepath.WalkDir` visits below a directory, as paths relative to it. -/
def walkDir (p : Path) : Prog (List Path) :=
  Sys.look fun t =>
    match t.lstat p with
    | .found l => .ok (t.below l)
    | _ => .ok []

/-- What the walk has come to: the directories left out, how often the context was asked, the regular
files archived and all the entries written. -/
structure Archived where
  pruned : List Path
  checks : ℕ
  files : ℕ
  entries : List TarEntry

/-- `tar.FileInfoHeader` with the name of the entry, and what follows the header. -/
def dirEntry (rel : Path) (mode : ℕ) : TarEntry :=
  ⟨relText rel ++ ['/'], .dir, mode % 0o10000, ⟨[], none, false⟩⟩

def fileEntry (rel : Path) (mode : ℕ) (data : Str) : TarEntry :=
  ⟨relText rel, .reg, mode % 0o10000, ⟨data, none, false⟩⟩

def failed (msg : Str) : Refusal := .other (.failed msg)

/-- A regular file of `size` bytes. -/
def Archived.copyFile (w : Archived) (cur rel : Path) (mode size : ℕ) : Prog Archived := do
  match ← (Sys.readAll cur).attempt with
  | .ok data =>
      if data.length < size then
        Sys.throw (failed (relText rel ++ " shrank while being archived".toList))
      else
        pure { w with
          files := w.files + 1
          entries := w.entries ++ [fileEntry rel mode (data.take size)] }
  | .error _ =>
      -- the header is written; the tar writer then waits for the data
      if size = 0 then pure { w with entries := w.entries ++ [fileEntry rel mode []] }
      else Sys.throw (failed "archive/tar: missed writing".toList)

/-- The function `Create` walks the data directory with. -/
def visit (m : Matcher) (root rel : Path) (w : Archived) : Prog Archived := do
  match ← (Sys.lstat (root ++ rel)).attempt with
  | .error _ => pure w
  | .ok info =>
      let isDir := decide (info.shape = .dir)
      if m.matches (relText rel) isDir then
        pure (if isDir then { w with pruned := rel :: w.pruned } else w)
      else
        match info.kind with
        | .dir => pure { w with entries := w.entries ++ [dirEntry rel info.mode] }
        | .file data => w.copyFile (root ++ rel) rel info.mode data.length
        | _ => pure w

/-- The rest of the walk; what lies below a directory left out is not visited. -/
def archiveFrom (m : Matcher) (root : Path) (ctx : ℕ → Bool) : List Path → Archived → Prog Archived
  | [], w => pure w
  | rel :: more, w =>
      if w.pruned.any (·.isPrefixOf rel) then archiveFrom m root ctx more w
      else if ctx w.checks then Sys.throw (failed "context canceled".toList)
      else do
        let w ← visit m root rel { w with checks := w.checks + 1 }
        archiveFrom m root ctx more w

/-- The walk of `Create`, which asks the context at the data directory first. -/
def archive (m : Matcher) (root : Path) (ctx : ℕ → Bool) : Prog Archived := do
  match ← (Sys.lstat root).attempt with
  | .error e => Sys.throw e
  | .ok _ =>
      if ctx 0 then Sys.throw (failed "context canceled".toList)
      else do
        let rels ← walkDir root
        archiveFrom m root ctx rels ⟨[], 1, 0, []⟩

/-- A name with `.tmp` behind it. -/
def tmpName (n : Name) : Name :=
  ⟨n.1 ++ ".tmp".toList, by
    have hlen : 4 ≤ (n.1 ++ ".tmp".toList).length := by simp
    refine ⟨?_, ?_, ?_, ?_⟩
    · intro h
      simp at h
    · intro h
      rw [h] at hlen
      simp at hlen
    · intro h
      rw [h] at hlen
      simp at hlen
    · intro h
      rcases List.mem_append.mp h with h | h
      · exact n.2.2.2.2 h
      · exact absurd h (by decide)⟩

structure BackupCreateResult where
  size : ℕ
  sha256 : Str
  files : ℕ

/-- `Create`, for a backup in the directory `dir` under the name `n`. -/
def create (lib : Archiver) (ctx : ℕ → Bool) (dataDir dir : Path) (n : Name) (ignore : List Str) :
    Prog BackupCreateResult := do
  mkdirs dir
  if hasNul [n] then Sys.throw (.errno .inval)
  else do
    let tmp := dir ++ [tmpName n]
    let out ← Sys.openTrunc tmp 0o666
    Sys.deferring (Sys.unlink tmp) do
      let w ← archive (newMatcher ignore) dataDir ctx
      match lib.writeTarGz w.entries with
      | .error e => Sys.throw (failed e)
      | .ok bytes => do
          Sys.write out bytes
          Sys.rename tmp (dir ++ [n])
          pure ⟨bytes.length, lib.sha256Hex bytes, w.files⟩

/-- What follows the opening of the file, with the walk as a parameter. -/
def pack (lib : Archiver) (dir : Path) (n : Name) (out : Loc Name) (arch : Prog Archived) :
    Prog BackupCreateResult := do
  let w ← arch
  match lib.writeTarGz w.entries with
  | .error e => Sys.throw (failed e)
  | .ok bytes => do
      Sys.write out bytes
      Sys.rename (dir ++ [tmpName n]) (dir ++ [n])
      pure ⟨bytes.length, lib.sha256Hex bytes, w.files⟩

/-- `Create` around a walk. -/
def createWith (lib : Archiver) (dir : Path) (n : Name) (arch : Prog Archived) :
    Prog BackupCreateResult := do
  mkdirs dir
  if hasNul [n] then Sys.throw (.errno .inval)
  else do
    let out ← Sys.openTrunc (dir ++ [tmpName n]) 0o666
    Sys.deferring (Sys.unlink (dir ++ [tmpName n])) (pack lib dir n out arch)

theorem create_eq (lib : Archiver) (ctx : ℕ → Bool) (dataDir dir : Path) (n : Name)
    (ignore : List Str) : create lib ctx dataDir dir n ignore =
      createWith lib dir n (archive (newMatcher ignore) dataDir ctx) := rfl

/-! ## What the walk comes to -/

variable {m : Matcher} {t : Tree Name Str} {j j' : Journal Name Str} {root rel : Path} {R : Loc Name}
  {w w' : Archived} {nd : Node Name Str} {e : TarEntry} {ctx : ℕ → Bool} {rels : List Path}

/-- The entry of a node that is a directory or a regular file. -/
def nodeEntry (rel : Path) (nd : Node Name Str) : Option TarEntry :=
  match nd.kind with
  | .dir => some (dirEntry rel nd.mode)
  | .file data => some (fileEntry rel nd.mode data)
  | _ => none

/-- The matcher takes the path, which is a directory or not as the node is. -/
def Matcher.drops (m : Matcher) (rel : Path) (nd : Node Name Str) : Bool :=
  m.matches (relText rel) (nd.shape = .dir)

/-- One node visited. -/
def Archived.add (m : Matcher) (rel : Path) (nd : Node Name Str) (w : Archived) : Archived :=
  if m.drops rel nd then
    if nd.shape = .dir then { w with pruned := rel :: w.pruned } else w
  else
    match nd.kind with
    | .dir => { w with entries := w.entries ++ [dirEntry rel nd.mode] }
    | .file data =>
        { w with files := w.files + 1, entries := w.entries ++ [fileEntry rel nd.mode data] }
    | _ => w

theorem run_copyFile {data : Str} (hl : j.tree.lstat (root ++ rel) = .found (R ++ rel))
    (hn : j.tree.node (R ++ rel) = some nd) (hk : nd.kind = .file data) :
    ∃ j', (w.copyFile (root ++ rel) rel nd.mode data.length).run j =
      (.ok { w with files := w.files + 1, entries := w.entries ++ [fileEntry rel nd.mode data] }, j') ∧
        j.Quiet j' := by
  have hlook : j.tree.look (R ++ rel) = some .leaf := by
    rw [Tree.look, hn, Option.map_some, Node.shape, hk]
    rfl
  have hstat := Tree.stat_of_lstat hl (by simp [hlook])
  have hread := Sys.run_readAll_file (μ := RestoreError) hstat hn hk
  refine ⟨j.read (R ++ rel), ?_, (Sys.readsOnly_read (μ := RestoreError) _) j⟩
  rw [Archived.copyFile, Sys.run_bind_ok (Sys.run_attempt _ _), hread]
  simp

theorem run_visit (hl : j.tree.lstat (root ++ rel) = .found (R ++ rel))
    (hn : j.tree.node (R ++ rel) = some nd) :
    ∃ j', (visit m root rel w).run j = (.ok (w.add m rel nd), j') ∧ j.Quiet j' := by
  have hlstat := Sys.run_lstat_found (μ := RestoreError) hl hn
  rw [visit, Sys.run_bind_ok (Sys.run_attempt _ _), hlstat]
  show ∃ j', (if m.drops rel nd = true then _ else _ : Prog Archived).run j = _ ∧ _
  rw [Archived.add]
  split
  · refine ⟨j, ?_, .refl j⟩
    simp
  · match hk : nd.kind with
    | .dir => exact ⟨j, rfl, .refl j⟩
    | .link _ => exact ⟨j, rfl, .refl j⟩
    | .special => exact ⟨j, rfl, .refl j⟩
    | .file data => exact run_copyFile hl hn hk

/-- The entry of what the matcher does not take. -/
def keptEntry (m : Matcher) (t : Tree Name Str) (R : Loc Name) (rel : Path) : Option TarEntry :=
  (t.node (R ++ rel)).bind fun nd => if m.drops rel nd then none else nodeEntry rel nd

/-- What `Create` archives of a data directory. -/
def keptEntries (m : Matcher) (t : Tree Name Str) (R : Loc Name) : List TarEntry :=
  (t.below R).filterMap (keptEntry m t R)

theorem entries_add (hn : t.node (R ++ rel) = some nd) :
    (w.add m rel nd).entries = w.entries ++ (keptEntry m t R rel).toList := by
  rw [Archived.add, keptEntry, hn, Option.bind_some, nodeEntry]
  split
  · split <;> simp
  · cases nd.kind <;> simp

/-- What was left out so far is a directory that the matcher takes. -/
def PrunedBy (m : Matcher) (t : Tree Name Str) (R : Loc Name) (w : Archived) : Prop :=
  ∀ q ∈ w.pruned, q ≠ [] ∧ t.look (R ++ q) = some .dir ∧ m.matches (relText q) true = true

/-- What is not visited would not be archived: it lies below a directory that the matcher takes. -/
theorem drops_of_pruned (hp : PrunedBy m t R w) (hn : t.node (R ++ rel) = some nd)
    (h : w.pruned.any (·.isPrefixOf rel) = true) : m.drops rel nd = true := by
  obtain ⟨q, hq, hpre⟩ := List.any_eq_true.mp h
  obtain ⟨hne, hdir, hmatch⟩ := hp q hq
  have hpre := List.isPrefixOf_iff_prefix.mp hpre
  by_cases heq : q = rel
  · subst heq
    have hshape : nd.shape = .dir := by
      rw [Tree.look, hn] at hdir
      exact Option.some.inj hdir
    rw [Matcher.drops, hshape]
    simpa using hmatch
  · exact matches_below hne hpre heq hmatch

theorem prunedBy_add (hp : PrunedBy m t R w) (hrel : rel ≠ []) (hn : t.node (R ++ rel) = some nd) :
    PrunedBy m t R (w.add m rel nd) := by
  rw [Archived.add]
  split
  · next hm =>
    split
    · next hshape =>
      intro q hq
      rcases List.mem_cons.mp hq with rfl | hq
      · refine ⟨hrel, by rw [Tree.look, hn, Option.map_some, hshape], ?_⟩
        rw [Matcher.drops, hshape] at hm
        simpa using hm
      · exact hp q hq
    · exact hp
  · split <;> exact hp

/-- The walk ends with what the matcher does not take, or because the context has ended. -/
theorem run_archiveFrom (hrels : ∀ rel ∈ rels, rel ≠ [] ∧ t.node (R ++ rel) ≠ none)
    (hroot : t.DirAt root R) (hj : j.tree = t) (hp : PrunedBy m t R w) :
    (∃ w' j', (archiveFrom m root ctx rels w).run j = (.ok w', j') ∧ j.Quiet j' ∧
      w'.entries = w.entries ++ rels.filterMap (keptEntry m t R)) ∨
    ∃ i, ctx i = true ∧ ((archiveFrom m root ctx rels w).run j).1 =
      .error (failed "context canceled".toList) := by
  induction rels generalizing j w with
  | nil => exact .inl ⟨w, j, rfl, .refl j, by simp⟩
  | cons rel rels ih =>
    obtain ⟨⟨hrel, hne⟩, hrels⟩ := List.forall_mem_cons.mp hrels
    obtain ⟨nd, hn⟩ := Option.ne_none_iff_exists'.mp hne
    rw [archiveFrom]
    split
    · next hpruned =>
      -- what is skipped would have been left out
      have hskip : keptEntry m t R rel = none := by
        rw [keptEntry, hn, Option.bind_some, if_pos (drops_of_pruned hp hn hpruned)]
      rw [List.filterMap_cons_none hskip]
      exact ih hrels hj hp
    · split
      · next hctx => exact .inr ⟨_, hctx, rfl⟩
      · have hl : j.tree.lstat (root ++ rel) = .found (R ++ rel) := by
          rw [hj]
          exact hroot.lstat_below hrel hne
        obtain ⟨j₁, hvisit, hquiet₁⟩ := run_visit (m := m) (w := { w with checks := w.checks + 1 }) hl
          (hj ▸ hn)
        have hp' : PrunedBy m t R { w with checks := w.checks + 1 } := hp
        rw [Sys.run_bind_ok hvisit]
        rcases ih hrels (hquiet₁.tree.trans hj) (prunedBy_add hp' hrel hn) with
          ⟨w', j', hrun, hquiet, hentries⟩ | hend
        · refine .inl ⟨w', j', hrun, hquiet₁.trans hquiet, ?_⟩
          rw [hentries, entries_add hn, List.append_assoc]
          rcases hkept : keptEntry m t R rel with _ | e
          · rw [List.filterMap_cons_none hkept]
            rfl
          · rw [List.filterMap_cons_some hkept]
            rfl
        · exact .inr hend

/-- The walk over a data directory. -/
theorem run_archive (m : Matcher) (ctx : ℕ → Bool) (hl : j.tree.lstat root = .found R) :
    (∃ w j', (archive m root ctx).run j = (.ok w, j') ∧ j.Quiet j' ∧
      w.entries = keptEntries m j.tree R) ∨
    ∃ i, ctx i = true ∧ ((archive m root ctx).run j).1 = .error (failed "context canceled".toList) := by
  obtain ⟨s, hs⟩ := Tree.lstat_found hl
  obtain ⟨nd, hnd, -⟩ := Option.map_eq_some_iff.mp hs
  have hlstat := Sys.run_lstat_found (μ := RestoreError) hl hnd
  have hwalk : (walkDir root).run j = (.ok (j.tree.below R), j) := by
    rw [walkDir, Sys.run_look, hl]
  rw [archive, Sys.run_bind_ok (Sys.run_attempt _ _), hlstat]
  by_cases hctx : ctx 0 = true
  · refine .inr ⟨0, hctx, ?_⟩
    show ((if ctx 0 = true then _ else _ : Prog Archived).run j).1 = _
    rw [if_pos hctx]
    rfl
  · show (∃ w j', (if ctx 0 = true then _ else _ : Prog Archived).run j = _ ∧ _) ∨
      ∃ i, _ ∧ ((if ctx 0 = true then _ else _ : Prog Archived).run j).1 = _
    rw [if_neg hctx, Sys.run_bind_ok hwalk]
    by_cases hdir : j.tree.look R = some .dir
    · have hroot : j.tree.DirAt root R := ⟨Tree.stat_of_lstat hl (by simp [hdir]), hdir⟩
      exact run_archiveFrom (w := ⟨[], 1, 0, []⟩) (fun rel hrel => Tree.mem_below hrel) hroot rfl
        (by intro q hq; cases hq)
    · -- a data directory that is a link or a file is not entered
      have hnil : j.tree.below R = [] := by
        rw [List.eq_nil_iff_forall_not_mem]
        intro rel hrel
        exact (Tree.mem_below hrel).2 (Tree.node_below (Tree.mem_below hrel).1 hdir)
      rw [keptEntries, hnil]
      exact .inl ⟨_, j, rfl, .refl j, rfl⟩

/-- What is gathered from the nodes that the matcher does not take. -/
theorem mem_filterMap_below {γ : Type} {g : Path → Node Name Str → Option γ} {x : γ} :
    x ∈ (t.below R).filterMap
        (fun rel => (t.node (R ++ rel)).bind fun nd => if m.drops rel nd then none else g rel nd) ↔
      ∃ rel, rel ≠ [] ∧ ∃ nd, t.node (R ++ rel) = some nd ∧ m.drops rel nd = false ∧
        g rel nd = some x := by
  have hkept : ∀ rel, ((t.node (R ++ rel)).bind fun nd =>
      if m.drops rel nd then none else g rel nd) = some x ↔
        ∃ nd, t.node (R ++ rel) = some nd ∧ m.drops rel nd = false ∧ g rel nd = some x := by
    intro rel
    rw [Option.bind_eq_some_iff]
    refine exists_congr fun nd => and_congr_right fun _ => ?_
    split
    · next hdrop => simp [hdrop]
    · next hdrop => simp [hdrop]
  rw [List.mem_filterMap]
  constructor
  · rintro ⟨rel, hrel, he⟩
    exact ⟨rel, (Tree.mem_below hrel).1, (hkept rel).mp he⟩
  · rintro ⟨rel, hrel, nd, hn, hnode⟩
    exact ⟨rel, Tree.mem_below_of_node hrel (by simp [hn]), (hkept rel).mpr ⟨nd, hn, hnode⟩⟩

theorem mem_keptEntries : e ∈ keptEntries m t R ↔ ∃ rel, rel ≠ [] ∧ ∃ nd,
    t.node (R ++ rel) = some nd ∧ m.drops rel nd = false ∧ nodeEntry rel nd = some e :=
  mem_filterMap_below

/-- A regular file is named by its path. -/
theorem nodeEntry_reg (hrel : rel ≠ []) {x : Path} (hx : x ≠ []) :
    (∃ e, nodeEntry x nd = some e ∧ e.typeflag = .reg ∧ e.name = relText rel) ↔
      x = rel ∧ ∃ data, nd.kind = .file data := by
  rw [nodeEntry]
  constructor
  · rintro ⟨e, he, hreg, hname⟩
    split at he
    · cases he
      cases hreg
    · next data hk =>
      cases he
      have hxrel := @relText_injective ⟨x, hx⟩ ⟨rel, hrel⟩ hname
      exact ⟨congrArg Subtype.val hxrel, data, hk⟩
    · cases he
  · rintro ⟨rfl, data, hk⟩
    rw [hk]
    exact ⟨_, rfl, rfl, rfl⟩

/-- Whatever the data directory holds, `Create` archives the regular files whose own path the matcher
does not take: leaving out whole directories neither drops nor keeps another. It can only be kept from
archiving them by a context that ends. -/
theorem archived_files (t : Tree Name Str) (dataDir : Path) (ignore : List Str) (ctx : ℕ → Bool)
    (hl : t.lstat dataDir = .found R) :
    (∃ i, ctx i = true ∧ ((archive (newMatcher ignore) dataDir ctx).run (.of t)).1 =
      .error (failed "context canceled".toList)) ∨
    ∃ w j', (archive (newMatcher ignore) dataDir ctx).run (.of t) = (.ok w, j') ∧
      ∀ rel, rel ≠ [] →
        ((∃ e ∈ w.entries, e.typeflag = .reg ∧ e.name = relText rel) ↔
          (∃ data, (t.node (R ++ rel)).map Node.kind = some (.file data)) ∧
            (newMatcher ignore).matches (relText rel) false = false) := by
  rcases run_archive (j := .of t) (newMatcher ignore) ctx hl with
    ⟨w, j', hrun, -, hentries⟩ | hend
  · refine .inr ⟨w, j', hrun, fun rel hrel => ?_⟩
    rw [hentries]
    constructor
    · rintro ⟨e, he, hreg, hname⟩
      obtain ⟨x, hx, nd, hn, hkeep, hentry⟩ := mem_keptEntries.mp he
      obtain ⟨rfl, data, hk⟩ := (nodeEntry_reg hrel hx).mp ⟨e, hentry, hreg, hname⟩
      have hshape : nd.shape = .leaf := by rw [Node.shape, hk]; rfl
      refine ⟨⟨data, ?_⟩, ?_⟩
      · show (t.node _).map _ = _
        rw [show t.node (R ++ x) = some nd from hn, Option.map_some, hk]
      · rw [Matcher.drops, hshape] at hkeep
        simpa using hkeep
    · rintro ⟨⟨data, hfile⟩, hkeep⟩
      obtain ⟨nd, hn, hk⟩ := Option.map_eq_some_iff.mp hfile
      have hshape : nd.shape = .leaf := by rw [Node.shape, hk]; rfl
      obtain ⟨e, hentry, hreg, hname⟩ := (nodeEntry_reg hrel hrel).mpr ⟨rfl, data, hk⟩
      refine ⟨e, mem_keptEntries.mpr ⟨rel, hrel, nd, hn, ?_, hentry⟩, hreg, hname⟩
      rw [Matcher.drops, hshape]
      simpa using hkeep
  · exact .inl hend

/-- A data directory with a file, and another in a directory that a pattern leaves out. -/
def saveAndLog : Tree Name Str :=
  .build
    [([], name "a", ⟨.dir, 0o755, 1000, 1000⟩),
     ([name "a"], name "save", ⟨.file ['x'], 0o644, 1000, 1000⟩),
     ([name "a"], name "logs", ⟨.dir, 0o755, 1000, 1000⟩),
     ([name "a", name "logs"], name "1", ⟨.file ['y'], 0o644, 1000, 1000⟩)]

theorem archived_files_saveAndLog : ∃ w j',
    (archive (newMatcher ["logs/".toList]) [name "a"] (fun _ => false)).run (.of saveAndLog) =
      (.ok w, j') ∧
    ∀ rel, rel ≠ [] → ((∃ e ∈ w.entries, e.typeflag = .reg ∧ e.name = relText rel) ↔
      (∃ data, (saveAndLog.node ([name "a"] ++ rel)).map Node.kind = some (.file data)) ∧
        (newMatcher ["logs/".toList]).matches (relText rel) false = false) := by
  rcases archived_files saveAndLog [name "a"] ["logs/".toList] (fun _ => false) (R := [name "a"])
    (by decide) with ⟨i, hi, -⟩ | h
  · cases hi
  · exact h

end Backups
