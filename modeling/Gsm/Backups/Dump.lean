import Gsm.Backups.Restore
import Gsm.Backups.Refused
import Gsm.GoStd.Enclosed
import Gsm.Instfs.Resolve

/-!
# The database dump of a backup

`backup.restore` (`cmd/gsm-agent/backups.go`) puts the files back and then imports a dump into the
database: `RestoreBackupDump` (`internal/instances/database.go`) takes the one that lies in the data
directory, whether the archive brought it or not. `backupRestore_imports_iff` says when that is the
archive's. The import itself, with the database's container, is an argument.
-/

open Posix GoStd

namespace Backups

/-! ## `RestoreBackupDump` -/

/-- `BackupDump` -/
def backupDump : Str := ".gsm/database.sql.gz".toList

/-- The path of the dump in the data directory -/
def dumpPath : Path := clean backupDump

/-- `instFS`: the instance's files as the file manager sees them. -/
def Dest.instFS (d : Dest) : Instfs.FS := ⟨d.root, d.uid, d.gid, d.chown⟩

/-- `resolveFile` -/
def Dest.resolveFile (d : Dest) (rel : Str) : Prog Path :=
  Sys.look fun t =>
    match Instfs.resolve t d.instFS rel with
    | .ok (abs, c) =>
        if c = [] then .error (invalid "a file is needed, not the instance's folder") else .ok abs
    | .error (.errno e) => .error (.errno e)
    | .error (.other (.failed msg)) => .error (.other (.failed msg))
    | .error (.other (.invalid msg)) => .error (.other (.invalid msg))
    | .error (.other (.conflict msg)) => .error (.other (.invalid msg))

variable (d : Dest) (fmt : TarGz)

/-- What `ImportDatabase` reads the dump from: a regular file, and gzipped, as its name ends in `.gz`. -/
def Dest.openDump : Prog Str := do
  let abs ← d.resolveFile backupDump
  match ← (Sys.existing (·.stat abs)).attempt with
  | .error (.errno .noent) => Sys.throw (.other (.invalid (backupDump ++ " does not exist".toList)))
  | .error e => Sys.throw e
  | .ok l =>
      match (← Sys.nodeAt l).kind with
      | .file dump => do
          Sys.read l
          match fmt.gunzip dump with
          | .error _ => Sys.throw (.other (.invalid (backupDump ++ " is not gzipped".toList)))
          | .ok _ => pure dump
      | _ => Sys.throw (.other (.invalid (backupDump ++ " is not a file".toList)))

/-- `RemoveBackupDump` -/
def Dest.removeBackupDump : Prog Unit := do
  let _ ← (Sys.unlink (d.root ++ dumpPath)).attempt
  let _ ← (Sys.unlink (d.root ++ dumpPath).dropLast).attempt
  pure ()

/-- The dump that was handed to the database, and what came of it. -/
structure Import (γ : Type) where
  dump : Option Str
  result : Except Refusal γ

/-- `RestoreBackupDump`, which reports whether there was a dump; `database` is what becomes of one. -/
def Dest.restoreBackupDump (database : Str → Except Str Unit) : Prog (Import Bool) := do
  match ← (Sys.lstat (d.root ++ dumpPath)).attempt with
  | .error _ => pure ⟨none, .ok false⟩
  | .ok info =>
      match info.kind with
      | .file _ => do
          match ← (d.openDump fmt).attempt with
          | .error e => pure ⟨none, .error e⟩
          | .ok dump =>
              match database dump with
              | .error e => pure ⟨some dump, .error (.other (.failed e))⟩
              | .ok () => do
                  d.removeBackupDump
                  pure ⟨some dump, .ok true⟩
      | _ => pure ⟨none, .ok false⟩

def importFailed (_ : Refusal) : Refusal :=
  .other (.failed "the files are back, but importing the database failed: ".toList)

/-- The handler of `backup.restore`, for an instance with a database. -/
def Dest.backupRestore (ctx : ℕ → Bool) (running : Bool) (archive : Path) (wipe : Bool)
    (database : Str → Except Str Unit) : Prog (Import ℕ) :=
  if running then Sys.throw (invalid "stop the instance before restoring a backup")
  else do
    let files ← restore d fmt ctx archive wipe
    let found ← d.restoreBackupDump fmt database
    pure ⟨found.dump, (found.result.mapError importFailed).map fun _ => files⟩

/-! ## What a restore leaves in the files -/

variable {d : Dest} {fmt : TarGz} {ctx : ℕ → Bool} {t : Tree Name Str} {j j' j₀ j₁ j₂ : Journal Name Str}
  {p root : Path} {S T : Loc Name} {s : Str} {hdr : TarEntry} {es : List TarEntry}

/-- The bytes of a regular file -/
def fileAt (t : Tree Name Str) (l : Loc Name) : Option Str :=
  match t.kindAt l with
  | some (.file data) => some data
  | _ => none

/-- The file an entry is written to, opened once its directory is there -/
def Dest.written (d : Dest) (j : Journal Name Str) (p : Path) (hdr : TarEntry) : Option (Loc Name × Str) :=
  match hdr.typeflag with
  | .reg =>
      match (d.makeDir p.dropLast).run j with
      | (.ok _, j') => (j'.tree.openTarget p).map fun l => (l, hdr.body.data)
      | (.error _, _) => none
  | _ => none

/-- The files that the entries are written to, in their order -/
def Dest.writes (d : Dest) (j : Journal Name Str) : List TarEntry → List (Loc Name × Str)
  | [] => []
  | hdr :: more =>
      match entryPath d.root hdr.name with
      | .error _ => []
      | .ok p =>
          (d.written j p hdr).toList ++
            match (d.unpack p hdr).run j with
            | (.ok _, j') => d.writes j' more
            | (.error _, _) => []

/-- What some writes put at a place, in their order -/
def writesAt (ws : List (Loc Name × Str)) (l : Loc Name) : List Str :=
  ws.filterMap fun w => if w.1 = l then some w.2 else none

/-- What is at a place after some writes: the last of them, or what was there. -/
def leftAt (t : Tree Name Str) (ws : List (Loc Name × Str)) (l : Loc Name) : Option Str :=
  (writesAt ws l).getLast?.or (fileAt t l)

theorem fileAt_congr {t' : Tree Name Str} (h : t'.kindAt = t.kindAt) : fileAt t' = fileAt t := by
  funext l
  rw [fileAt, fileAt, h]

/-- Owners do not matter. -/
theorem kindAt_own (p : Path) (j : Journal Name Str) : ((d.own p).run j).2.tree.kindAt = j.tree.kindAt := by
  unfold Dest.own Sys.handOver
  match d.owner with
  | none => rfl
  | some (uid, gid) =>
    show ((Sys.lchown p uid gid : Prog Unit).run j).2.tree.kindAt = _
    by_cases h : ∃ l, j.tree.lstat p = .found l
    · obtain ⟨l, hl⟩ := h
      rw [Sys.lchown, Sys.run_touch_found hl]
      exact Tree.kindAt_alter_of_kind (Node.shape_setOwner uid gid) fun _ => rfl
    · push Not at h
      obtain ⟨e, he⟩ := Sys.run_existing_not_found (μ := RestoreError) (f := (·.lstat p)) h
      rw [Sys.lchown, Sys.touch, Sys.run_bind_error he]

/-- What directories are made for is changed nowhere but where nothing was. -/
theorem kindAt_makeDir (p : Path) (j : Journal Name Str) (x : Loc Name) :
    ((d.makeDir p).run j).2.tree.kindAt x = j.tree.kindAt x ∨
      j.tree.kindAt x = none ∧ ((d.makeDir p).run j).2.tree.kindAt x = some .dir := by
  have hmkdir (p : Path) : ((mkdirAll p 0o755 : Prog Unit).run j).2.tree.kindAt x = j.tree.kindAt x ∨
      j.tree.kindAt x = none ∧ ((mkdirAll p 0o755 : Prog Unit).run j).2.tree.kindAt x = some .dir := by
    rcases mkdirAll_cases (μ := RestoreError) j p 0o755 with ⟨D, hD⟩ | ⟨q, c, rest, D, rfl, hq, hc⟩ | ⟨e, he⟩
    · rw [mkdirAll_present hD]
      exact .inl rfl
    · have hnone : j.tree.kindAt (D ++ [c]) = none := Tree.kindAt_eq_none.mpr (Tree.look_eq_none.mp hc)
      rw [mkdirAll_missing hq hc, Journal.kindAt_makeDirs none 0o755 x hq.2 hnone]
      by_cases hx : D ++ [c] <+: x ∧ x <+: D ++ c :: rest
      · obtain ⟨y, rfl⟩ := hx.1
        rw [if_pos hx]
        refine .inr ⟨?_, rfl⟩
        by_cases hy : y = []
        · rw [hy, List.append_nil, hnone]
        · exact Tree.kindAt_eq_none.mpr (Tree.node_below hy (by simp [hc]))
      · rw [if_neg hx]
        exact .inl rfl
    · rw [he]
      exact .inl rfl
  have hmkdirs : ((mkdirs p).run j).2.tree.kindAt = ((mkdirAll (soundPart p) 0o755 : Prog Unit).run j).2.tree.kindAt := by
    rw [mkdirs, Sys.run_bind]
    rcases (mkdirAll (soundPart p) 0o755 : Prog Unit).run j with ⟨e | u, j₁⟩
    · rfl
    · dsimp only
      split <;> rfl
  have hmade : ((d.makeDir p).run j).2.tree.kindAt = ((mkdirs p).run j).2.tree.kindAt := by
    rw [Dest.makeDir, Sys.run_bind]
    rcases (mkdirs p).run j with ⟨e | u, j₁⟩
    · rfl
    · exact kindAt_own p j₁
  rw [hmade, hmkdirs]
  exact hmkdir (soundPart p)

theorem fileAt_makeDir (p : Path) (j : Journal Name Str) :
    fileAt ((d.makeDir p).run j).2.tree = fileAt j.tree := by
  funext l
  rcases kindAt_makeDir (d := d) p j l with hsame | ⟨hnone, hdir⟩
  · rw [fileAt, hsame, fileAt]
  · rw [fileAt, hdir, fileAt, hnone]

theorem leftAt_append (t : Tree Name Str) (ws ws' : List (Loc Name × Str)) (l : Loc Name) :
    leftAt t (ws ++ ws') l = (writesAt ws' l).getLast?.or (leftAt t ws l) := by
  rw [leftAt, leftAt, writesAt, List.filterMap_append, List.getLast?_append, Option.or_assoc]
  rfl

theorem leftAt_of_fileAt {t' : Tree Name Str} {ws : List (Loc Name × Str)} {l : Loc Name}
    (h : fileAt t' l = fileAt t l) : leftAt t' ws l = leftAt t ws l := by rw [leftAt, h, leftAt]

/-- One entry writes one file, or none. -/
theorem fileAt_unpack {n : ℕ} (h : (d.unpack p hdr).run j = (.ok n, j')) (l : Loc Name) :
    fileAt j'.tree l = leftAt j.tree (d.written j p hdr).toList l := by
  have hnone : leftAt j.tree [] l = fileAt j.tree l := rfl
  unfold Dest.unpack at h
  unfold Dest.written
  match hdr.typeflag, h with
  | .other, h =>
    cases h
    rfl
  | .dir, h =>
    obtain ⟨_, j₁, hmade, hrest⟩ := Sys.run_bind_eq_ok.mp h
    cases hrest
    have hfiles := fileAt_makeDir (d := d) p j
    rw [hmade] at hfiles
    exact congrFun hfiles l
  | .reg, h =>
    obtain ⟨_, j₁, hfile, hrest⟩ := Sys.run_bind_eq_ok.mp h
    cases hrest
    obtain ⟨_, j₂, hmade, hwrite⟩ := Sys.run_bind_eq_ok.mp hfile
    have hfiles := fileAt_makeDir (d := d) p.dropLast j
    rw [hmade] at hfiles
    split at hwrite
    · cases hwrite
    obtain ⟨_, j₃, hover, hfinish⟩ := Sys.run_bind_eq_ok.mp hwrite
    rcases hopen : j₂.tree.openTarget p with _ | S
    · obtain ⟨e, he⟩ := Sys.run_overwrite_none (μ := RestoreError) (perm hdr.mode ||| 0o600) hdr.body.data hopen
      cases he.symm.trans hover
    · obtain ⟨j₃', hover', hkind⟩ :=
        run_overwrite_target (μ := RestoreError) (perm hdr.mode ||| 0o600) hdr.body.data hopen
      cases hover'.symm.trans hover
      have hend : j'.tree.kindAt = j₃.tree.kindAt := by
        unfold Dest.finish at hfinish
        split at hfinish
        · cases hfinish
        · have hown := kindAt_own (d := d) p j₃
          rwa [hfinish] at hown
      simp only [hmade, hopen, Option.map_some, Option.toList_some]
      rw [fileAt, hend, hkind, leftAt, writesAt]
      by_cases hl : l = S
      · rw [hl, withFile_self]
        simp
      · rw [withFile_ne hl]
        simp only [List.filterMap_cons, List.filterMap_nil, if_neg (Ne.symm hl)]
        exact congrFun hfiles l

/-- A file that a restore leaves was written by the last of its entries that went there, or was there. -/
theorem fileAt_unpackFrom {err : Option Str} {i files n : ℕ}
    (h : (d.unpackFrom ctx err i files es).run j = (.ok n, j')) (l : Loc Name) :
    fileAt j'.tree l = leftAt j.tree (d.writes j es) l := by
  induction es generalizing i files j with
  | nil =>
    unfold Dest.unpackFrom at h
    split at h
    · cases h
    · split at h <;> cases h
      rfl
  | cons hdr more ih =>
    unfold Dest.unpackFrom at h
    split at h
    · cases h
    unfold Dest.writes
    match entryPath d.root hdr.name, h with
    | .error e, h => cases h
    | .ok p, h =>
      obtain ⟨m, j₁, hunpack, hmore⟩ := Sys.run_bind_eq_ok.mp h
      simp only [hunpack]
      rw [ih hmore, leftAt_append, leftAt, fileAt_unpack hunpack]

/-! ## What the import finds -/

/-- The dump can be unpacked. -/
def Gzipped (fmt : TarGz) (dump : Str) : Prop := ∃ r, fmt.gunzip dump = .ok r

/-- The import looks at this file: there is a regular file at its path in the data directory, and `Resolve`
lets it be opened. -/
structure DumpAt (d : Dest) (t : Tree Name Str) (S : Loc Name) : Prop where
  there : ∃ l, t.lstat (d.root ++ dumpPath) = .found l ∧ ∃ data, t.kindAt l = some (.file data)
  opens : ∃ abs c, Instfs.resolve t d.instFS backupDump = .ok (abs, c) ∧ t.stat abs = .found S

/-- What `Resolve` makes of the path of the dump -/
theorem resolve_backupDump {f : Instfs.FS} {abs c : Path} (h : Instfs.resolve t f backupDump = .ok (abs, c)) :
    c = dumpPath ∧ ∃ R, evalSymlinks t f.root = .ok R ∧ abs = R ++ dumpPath := by
  have hclean : Instfs.cleanRel backupDump = .ok dumpPath := by decide
  rw [Instfs.resolve, hclean] at h
  dsimp only at h
  split at h
  · cases h
  · next R hR =>
    split at h <;> cases h
    exact ⟨rfl, R, hR, rfl⟩

theorem run_resolveFile (j : Journal Name Str) (abs : Path) :
    (∃ j', (d.resolveFile backupDump).run j = (.ok abs, j')) ↔
      ∃ c, Instfs.resolve j.tree d.instFS backupDump = .ok (abs, c) := by
  have hpath : dumpPath ≠ [] := by decide
  rw [Dest.resolveFile, Sys.run_look]
  rcases hres : Instfs.resolve j.tree d.instFS backupDump with e | ⟨abs', c'⟩
  · constructor
    · rintro ⟨j', h⟩
      rcases e with e | (msg | msg | msg) <;> cases h
    · rintro ⟨c, h⟩
      cases h
  · obtain ⟨rfl, -⟩ := resolve_backupDump hres
    dsimp only
    rw [if_neg hpath]
    constructor
    · rintro ⟨j', h⟩
      cases h
      exact ⟨_, rfl⟩
    · rintro ⟨c, h⟩
      cases h
      exact ⟨j, rfl⟩

/-- What `ImportDatabase` takes the dump from -/
theorem run_openDump (j : Journal Name Str) (dump : Str) :
    ((d.openDump fmt).run j).1 = .ok dump ↔
      ∃ S, (∃ abs c, Instfs.resolve j.tree d.instFS backupDump = .ok (abs, c) ∧ j.tree.stat abs = .found S) ∧
        fileAt j.tree S = some dump ∧ Gzipped fmt dump := by
  rw [Dest.openDump]
  rcases hres : (d.resolveFile backupDump).run j with ⟨e | abs, j₁⟩
  · rw [Sys.run_bind_error hres]
    refine iff_of_false nofun ?_
    rintro ⟨S, ⟨abs, c, habs, -⟩, -⟩
    obtain ⟨j', hj'⟩ := (run_resolveFile j abs).mpr ⟨c, habs⟩
    cases hres.symm.trans hj'
  obtain rfl : j₁ = j := by
    have hquiet : ((d.resolveFile backupDump).run j).2 = j := rfl
    rw [hres] at hquiet
    exact hquiet
  obtain ⟨c, habs⟩ := (run_resolveFile j₁ abs).mp ⟨j₁, hres⟩
  rw [Sys.run_bind_ok hres, Sys.run_bind_ok (Sys.run_attempt _ _)]
  by_cases hfound : ∃ S, j₁.tree.stat abs = .found S
  · obtain ⟨S, hS⟩ := hfound
    have honly (S' : Loc Name) (h : ∃ abs c, Instfs.resolve j₁.tree d.instFS backupDump = .ok (abs, c) ∧
        j₁.tree.stat abs = .found S') : S' = S := by
      obtain ⟨abs', c', habs', hS'⟩ := h
      cases habs.symm.trans habs'
      cases hS.symm.trans hS'
      rfl
    obtain ⟨sh, hlook, -⟩ := Tree.stat_found hS
    obtain ⟨nd, hnd, -⟩ := Option.map_eq_some_iff.mp hlook
    have hnode : (Sys.nodeAt S : Prog _).run j₁ = (.ok nd, j₁) := by rw [Sys.nodeAt, Sys.run_look, hnd]
    have hkind : j₁.tree.kindAt S = some nd.kind := by rw [Tree.kindAt, hnd, Option.map_some]
    rw [Sys.run_existing_found (f := (·.stat abs)) hS]
    dsimp only
    rw [Sys.run_bind_ok hnode]
    have hother (h : ∀ data, nd.kind ≠ .file data) : ¬ ∃ S', (∃ abs c,
        Instfs.resolve j₁.tree d.instFS backupDump = .ok (abs, c) ∧ j₁.tree.stat abs = .found S') ∧
        fileAt j₁.tree S' = some dump ∧ Gzipped fmt dump := by
      rintro ⟨S', hS', hfile, -⟩
      obtain rfl := honly S' hS'
      rw [fileAt, hkind] at hfile
      split at hfile
      · next data hk => exact h data (Option.some.inj hk)
      · cases hfile
    match hk : nd.kind with
    | .dir | .link _ | .special => exact iff_of_false nofun (hother (by simp [hk]))
    | .file data =>
      have hfile : fileAt j₁.tree S = some data := by rw [fileAt, hkind, hk]
      dsimp only
      rw [Sys.run_bind_ok (Sys.run_read S)]
      match hgz : fmt.gunzip data with
      | .error e =>
        refine iff_of_false nofun ?_
        rintro ⟨S', hS', hdump, r, hr⟩
        obtain rfl := honly S' hS'
        cases hfile.symm.trans hdump
        cases hgz.symm.trans hr
      | .ok r =>
        constructor
        · intro h
          cases h
          exact ⟨S, ⟨abs, c, habs, hS⟩, hfile, r, hgz⟩
        · rintro ⟨S', hS', hdump, -⟩
          obtain rfl := honly S' hS'
          cases hfile.symm.trans hdump
          rfl
  · push Not at hfound
    obtain ⟨e, he⟩ := Sys.run_existing_not_found (μ := RestoreError) (f := (·.stat abs)) hfound
    rw [he]
    refine iff_of_false ?_ ?_
    · cases e <;> nofun
    · rintro ⟨S, ⟨abs', c', habs', hS⟩, -⟩
      cases habs.symm.trans habs'
      exact hfound S hS

/-- The import takes the file it looks at, if that is gzipped, whoever put it there. -/
theorem run_restoreBackupDump (d : Dest) (fmt : TarGz) (database : Str → Except Str Unit)
    (j : Journal Name Str) :
    ∃ i j', (d.restoreBackupDump fmt database).run j = (.ok i, j') ∧
      ∀ dump, i.dump = some dump ↔
        ∃ S, DumpAt d j.tree S ∧ fileAt j.tree S = some dump ∧ Gzipped fmt dump := by
  rw [Dest.restoreBackupDump, Sys.run_bind_ok (Sys.run_attempt _ _)]
  by_cases hfound : ∃ l, j.tree.lstat (d.root ++ dumpPath) = .found l
  · obtain ⟨l, hl⟩ := hfound
    obtain ⟨sh, hlook⟩ := Tree.lstat_found hl
    obtain ⟨nd, hnd, -⟩ := Option.map_eq_some_iff.mp hlook
    have hkind : j.tree.kindAt l = some nd.kind := by rw [Tree.kindAt, hnd, Option.map_some]
    rw [Sys.run_lstat_found hl hnd]
    dsimp only
    have hother (h : ∀ data, nd.kind ≠ .file data) (dump : Str) : (none : Option Str) = some dump ↔
        ∃ S, DumpAt d j.tree S ∧ fileAt j.tree S = some dump ∧ Gzipped fmt dump := by
      refine iff_of_false nofun ?_
      rintro ⟨S, ⟨⟨l', hl', data, hdata⟩, -⟩, -⟩
      cases hl.symm.trans hl'
      exact h data (Option.some.inj (hkind.symm.trans hdata))
    match hk : nd.kind with
    | .dir | .link _ | .special => exact ⟨_, _, rfl, hother (by simp [hk])⟩
    | .file data =>
      have hthere : ∃ l, j.tree.lstat (d.root ++ dumpPath) = .found l ∧
          ∃ data, j.tree.kindAt l = some (.file data) := ⟨l, hl, data, by rw [hkind, hk]⟩
      have hopen (dump : Str) : ((d.openDump fmt).run j).1 = .ok dump ↔
          ∃ S, DumpAt d j.tree S ∧ fileAt j.tree S = some dump ∧ Gzipped fmt dump := by
        rw [run_openDump]
        exact exists_congr fun S =>
          ⟨fun h => ⟨⟨hthere, h.1⟩, h.2⟩, fun h => ⟨h.1.opens, h.2⟩⟩
      dsimp only
      rw [Sys.run_bind_ok (Sys.run_attempt _ _)]
      rcases hrun : ((d.openDump fmt).run j).1 with e | dump <;> rw [hrun] at hopen
      · refine ⟨_, _, rfl, fun dump => ?_⟩
        rw [← hopen]
        exact iff_of_false nofun nofun
      · have hsame (dump' : Str) : some dump = some dump' ↔
            ∃ S, DumpAt d j.tree S ∧ fileAt j.tree S = some dump' ∧ Gzipped fmt dump' := by
          rw [← hopen, Except.ok.injEq, Option.some.injEq]
        dsimp only
        rcases database dump with e | ⟨⟩
        · exact ⟨_, _, rfl, hsame⟩
        · exact ⟨_, _, rfl, hsame⟩
  · push Not at hfound
    obtain ⟨e, he⟩ := Sys.run_lstat_not_found (μ := RestoreError) hfound
    rw [he]
    refine ⟨_, _, rfl, fun dump => iff_of_false nofun ?_⟩
    rintro ⟨S, ⟨⟨l, hl, -⟩, -⟩, -⟩
    exact hfound l hl

/-! ## The dump of the archive -/

/-- The dump that an entry brings -/
def dumpIn (root : Path) (hdr : TarEntry) : Option Str :=
  match hdr.typeflag, entryPath root hdr.name with
  | .reg, .ok p => if p = root ++ dumpPath then some hdr.body.data else none
  | _, _ => none

/-- The dump that an archive holds; of several entries by that name the last counts. -/
def archivedDump (root : Path) (es : List TarEntry) : Option Str := (es.filterMap (dumpIn root)).getLast?

/-- The stages of a restore that succeeds: the archive holds the entries `es`, the data directory is prepared,
and they are unpacked. -/
def Restored (d : Dest) (fmt : TarGz) (ctx : ℕ → Bool) (archive : Path) (wipe : Bool) (t : Tree Name Str)
    (es : List TarEntry) (files : ℕ) (j₁ j₂ : Journal Name Str) : Prop :=
  ∃ f j₀ gz, (openArchive archive).run (.of t) = (.ok f, j₀) ∧ openGzip fmt f = .ok gz ∧
    (prepare d.root wipe).run j₀ = (.ok (), j₁) ∧ (fmt.readTar gz).entries = es ∧
    (d.unpackFrom ctx (fmt.readTar gz).err 0 0 es).run j₁ = (.ok files, j₂)

variable {archive : Path} {wipe : Bool} {files : ℕ}

theorem run_restore_eq_ok : (restore d fmt ctx archive wipe).run (.of t) = (.ok files, j₂) ↔
    ∃ es j₁, Restored d fmt ctx archive wipe t es files j₁ j₂ := by
  rw [restore]
  simp only [Sys.run_bind_eq_ok]
  constructor
  · rintro ⟨f, j₀, hopen, _, j₁, hprepare, hunpack⟩
    unfold Dest.unpackAll at hunpack
    split at hunpack
    · cases hunpack
    · next gz hgz => exact ⟨_, j₁, f, j₀, gz, hopen, hgz, hprepare, rfl, hunpack⟩
  · rintro ⟨es, j₁, f, j₀, gz, hopen, hgz, hprepare, rfl, hunpack⟩
    refine ⟨f, j₀, hopen, (), j₁, hprepare, ?_⟩
    rw [Dest.unpackAll, hgz]
    exact hunpack

/-- What the restore has put, or left, where the import looks is the dump of the archive. -/
def DumpStands (d : Dest) (fmt : TarGz) (es : List TarEntry) (j₁ : Journal Name Str) (t : Tree Name Str) : Prop :=
  match archivedDump d.root es with
  | some dump => Gzipped fmt dump ∧ ∃ S, DumpAt d t S ∧ leftAt j₁.tree (d.writes j₁ es) S = some dump
  | none => ∀ S dump, DumpAt d t S → leftAt j₁.tree (d.writes j₁ es) S = some dump → ¬ Gzipped fmt dump

/-- The handler imports what the archive held. -/
def ImportsArchived (d : Dest) (fmt : TarGz) (ctx : ℕ → Bool) (archive : Path) (wipe : Bool)
    (database : Str → Except Str Unit) (t : Tree Name Str) (es : List TarEntry) : Prop :=
  ∃ i j', (d.backupRestore fmt ctx false archive wipe database).run (.of t) = (.ok i, j') ∧
    i.dump = archivedDump d.root es

theorem DumpAt.unique {S' : Loc Name} (h : DumpAt d t S) (h' : DumpAt d t S') : S = S' := by
  obtain ⟨abs, c, hres, hS⟩ := h.opens
  obtain ⟨abs', c', hres', hS'⟩ := h'.opens
  cases hres.symm.trans hres'
  exact Walk.found.inj (hS.symm.trans hS')

/-- The dump that is imported after a restore -/
theorem importsArchived_iff (h : Restored d fmt ctx archive wipe t es files j₁ j₂)
    (database : Str → Except Str Unit) :
    ImportsArchived d fmt ctx archive wipe database t es ↔
      ∀ dump, archivedDump d.root es = some dump ↔
        ∃ S, DumpAt d j₂.tree S ∧ fileAt j₂.tree S = some dump ∧ Gzipped fmt dump := by
  obtain ⟨i, j', hrun, hdump⟩ := run_restoreBackupDump d fmt database j₂
  have hfiles := run_restore_eq_ok.mpr ⟨es, j₁, h⟩
  have hhandler : (d.backupRestore fmt ctx false archive wipe database).run (.of t) =
      (.ok ⟨i.dump, (i.result.mapError importFailed).map fun _ => files⟩, j') := by
    rw [Dest.backupRestore, if_neg (by simp), Sys.run_bind_ok hfiles, Sys.run_bind_ok hrun]
    rfl
  constructor
  · rintro ⟨i', j'', hrun', hsame⟩ dump
    cases hhandler.symm.trans hrun'
    rw [← hsame]
    exact hdump dump
  · intro hall
    refine ⟨_, _, hhandler, ?_⟩
    ext dump
    rw [hdump, hall]

theorem importsArchived_iff_stands (h : Restored d fmt ctx archive wipe t es files j₁ j₂)
    (database : Str → Except Str Unit) :
    ImportsArchived d fmt ctx archive wipe database t es ↔ DumpStands d fmt es j₁ j₂.tree := by
  rw [importsArchived_iff h database, DumpStands]
  obtain ⟨f, j₀, gz, -, -, -, -, hunpack⟩ := h
  have hleft (S : Loc Name) := fileAt_unpackFrom hunpack S
  simp only [hleft]
  rcases archivedDump d.root es with _ | dump
  · constructor
    · intro hall S dump hS hdump hgz
      exact nomatch (hall dump).mpr ⟨S, hS, hdump, hgz⟩
    · intro hno dump
      refine iff_of_false nofun ?_
      rintro ⟨S, hS, hdump, hgz⟩
      exact hno S dump hS hdump hgz
  · constructor
    · intro hall
      obtain ⟨S, hS, hdump, hgz⟩ := (hall dump).mp rfl
      exact ⟨hgz, S, hS, hdump⟩
    · rintro ⟨hgz, S, hS, hdump⟩ dump'
      constructor
      · rintro ⟨⟩
        exact ⟨S, hS, hdump, hgz⟩
      · rintro ⟨S', hS', hdump', -⟩
        obtain rfl := hS.unique hS'
        exact hdump.symm.trans hdump'

/-! ## A data directory without links -/

theorem entryPath_below (h : entryPath root s = .ok p) : ∃ rel, p = root ++ rel := by
  unfold entryPath at h
  dsimp only at h
  split at h
  · cases h
  split at h
  · cases h
  split at h <;> cases h
  exact ⟨_, rfl⟩

/-- Making directories and files makes no links. -/
structure Adds (t t' : Tree Name Str) : Prop where
  grows : t.Grows t'
  plain : ∀ x g, t'.look x = some (.link g) → t.look x = some (.link g)

theorem Adds.trans {t t' t'' : Tree Name Str} (h : Adds t t') (h' : Adds t' t'') : Adds t t'' :=
  ⟨h.grows.trans h'.grows, fun x g hx => h.plain x g (h'.plain x g hx)⟩

theorem Adds.of_look {t t' : Tree Name Str} (h : t'.look = t.look) : Adds t t' :=
  ⟨.of_look h, fun x g hx => by rwa [h] at hx⟩

theorem Adds.enclosed {t t' : Tree Name Str} (h : Adds t t') (henc : t.Enclosed p S) : t'.Enclosed p S :=
  ⟨henc.dir.mono h.grows, fun x g hx => henc.plain x g (h.plain _ g hx)⟩

theorem adds_own (p : Path) (j : Journal Name Str) : Adds j.tree ((d.own p).run j).2.tree :=
  .of_look (Tree.look_congr (kindAt_own p j))

theorem adds_makeDir (p : Path) (j : Journal Name Str) : Adds j.tree ((d.makeDir p).run j).2.tree := by
  constructor
  · intro x s hs
    rw [Tree.look_eq_kindAt] at hs ⊢
    rcases kindAt_makeDir (d := d) p j x with hsame | ⟨hnone, -⟩
    · rw [hsame, hs]
    · rw [hnone] at hs
      cases hs
  · intro x g hx
    rw [Tree.look_eq_kindAt] at hx ⊢
    rcases kindAt_makeDir (d := d) p j x with hsame | ⟨-, hdir⟩
    · rw [← hsame, hx]
    · rw [hdir] at hx
      cases hx

theorem adds_overwrite {mode : ℕ} {data : Str} {u : Unit}
    (h : (Sys.overwrite p mode data : Prog Unit).run j = (.ok u, j')) : Adds j.tree j'.tree := by
  rcases hopen : j.tree.openTarget p with _ | l
  · obtain ⟨e, he⟩ := Sys.run_overwrite_none (μ := RestoreError) mode data hopen
    cases he.symm.trans h
  · obtain ⟨j₁, hrun, hkind⟩ := run_overwrite_target (μ := RestoreError) mode data hopen
    cases hrun.symm.trans h
    have hfree : j.tree.FreeForFile l := Tree.freeForFile_openTarget hopen
    refine ⟨look_of_withFile hfree hkind, fun x g hx => ?_⟩
    rw [Tree.look_eq_kindAt, hkind] at hx
    by_cases hxl : x = l
    · rw [hxl, withFile_self] at hx
      cases hx
    · rwa [withFile_ne hxl, ← Tree.look_eq_kindAt] at hx

/-- Where there are no links, an entry is written to the place its name spells. -/
theorem unpack_enclosed {n : ℕ} (henc : j.tree.Enclosed d.root T) (hp : entryPath d.root hdr.name = .ok p)
    (h : (d.unpack p hdr).run j = (.ok n, j')) :
    j'.tree.Enclosed d.root T ∧
      writesAt (d.written j p hdr).toList (T ++ dumpPath) = (dumpIn d.root hdr).toList := by
  unfold Dest.unpack at h
  unfold Dest.written dumpIn
  match hdr.typeflag, h with
  | .other, h =>
    cases h
    exact ⟨henc, rfl⟩
  | .dir, h =>
    obtain ⟨_, j₁, hmade, hrest⟩ := Sys.run_bind_eq_ok.mp h
    cases hrest
    have hadds := adds_makeDir (d := d) p j
    rw [hmade] at hadds
    exact ⟨hadds.enclosed henc, rfl⟩
  | .reg, h =>
    obtain ⟨_, j₁, hfile, hrest⟩ := Sys.run_bind_eq_ok.mp h
    cases hrest
    obtain ⟨_, j₂, hmade, hwrite⟩ := Sys.run_bind_eq_ok.mp hfile
    have hadds := adds_makeDir (d := d) p.dropLast j
    rw [hmade] at hadds
    have henc₂ := hadds.enclosed henc
    split at hwrite
    · cases hwrite
    obtain ⟨_, j₃, hover, hfinish⟩ := Sys.run_bind_eq_ok.mp hwrite
    have henc₃ := (adds_overwrite hover).enclosed henc₂
    have hend : Adds j₃.tree j'.tree := by
      unfold Dest.finish at hfinish
      split at hfinish
      · cases hfinish
      · have hown := adds_own (d := d) p j₃
        rwa [hfinish] at hown
    refine ⟨hend.enclosed henc₃, ?_⟩
    obtain ⟨rel, rfl⟩ := entryPath_below hp
    rcases hopen : j₂.tree.openTarget (d.root ++ rel) with _ | S
    · obtain ⟨e, he⟩ := Sys.run_overwrite_none (μ := RestoreError) (perm hdr.mode ||| 0o600) hdr.body.data hopen
      cases he.symm.trans hover
    · obtain rfl := henc₂.openTarget hopen
      simp only [hmade, hopen, hp, Option.map_some, Option.toList_some, writesAt, List.append_cancel_left_eq]
      by_cases hrel : rel = dumpPath
      · simp [hrel]
      · simp [hrel]

theorem unpackFrom_enclosed {err : Option Str} {i files n : ℕ} (henc : j.tree.Enclosed d.root T)
    (h : (d.unpackFrom ctx err i files es).run j = (.ok n, j')) :
    j'.tree.Enclosed d.root T ∧ writesAt (d.writes j es) (T ++ dumpPath) = es.filterMap (dumpIn d.root) := by
  induction es generalizing i files j with
  | nil =>
    unfold Dest.unpackFrom at h
    split at h
    · cases h
    · split at h <;> cases h
      exact ⟨henc, rfl⟩
  | cons hdr more ih =>
    unfold Dest.unpackFrom at h
    split at h
    · cases h
    unfold Dest.writes
    rcases hp : entryPath d.root hdr.name with e | p
    · rw [hp] at h
      cases h
    · rw [hp] at h
      obtain ⟨m, j₁, hunpack, hmore⟩ := Sys.run_bind_eq_ok.mp h
      obtain ⟨henc₁, hone⟩ := unpack_enclosed henc hp hunpack
      obtain ⟨henc', hall⟩ := ih henc₁ hmore
      refine ⟨henc', ?_⟩
      simp only [hunpack]
      rw [writesAt, List.filterMap_append, ← writesAt, ← writesAt, hone, hall]
      rcases hd : dumpIn d.root hdr with _ | dump
      · rw [List.filterMap_cons_none hd]
        rfl
      · rw [List.filterMap_cons_some hd]
        rfl

/-- Where there are no links, the import looks at the place the path of the dump spells. -/
theorem dumpAt_enclosed (henc : t.Enclosed d.root T) (hT : T ≠ []) (dump : Str) :
    (∃ S, DumpAt d t S ∧ fileAt t S = some dump) ↔ fileAt t (T ++ dumpPath) = some dump := by
  have hroot : evalSymlinks t d.instFS.root = .ok T := evalSymlinks_of_stat henc.dir.1
  constructor
  · rintro ⟨S, ⟨⟨l, hl, data, hdata⟩, abs, c, hres, hS⟩, hdump⟩
    obtain rfl : l = T ++ dumpPath := by
      have h := henc.lstat (y := dumpPath.dropLast) (n := name "database.sql.gz") (l := l) (by
        rw [List.append_assoc]
        exact hl)
      rw [h, List.append_assoc]
      rfl
    obtain ⟨-, R, hR, rfl⟩ := resolve_backupDump hres
    cases hroot.symm.trans hR
    cases (Tree.stat_file hdata).symm.trans hS
    exact hdump
  · intro hdump
    have hdata : t.kindAt (T ++ dumpPath) = some (.file dump) := by
      rw [fileAt] at hdump
      split at hdump
      · next data hk =>
        rw [hk, Option.some.inj hdump]
      · cases hdump
    have hstat := Tree.stat_file hdata
    have hthere : t.node (T ++ dumpPath) ≠ none := by
      rw [ne_eq, ← Tree.kindAt_eq_none, hdata]
      nofun
    refine ⟨T ++ dumpPath, ⟨⟨_, henc.dir.lstat_below (by decide) hthere, dump, hdata⟩, T ++ dumpPath, dumpPath,
      ?_, hstat⟩, hdump⟩
    have hclean : Instfs.cleanRel backupDump = .ok dumpPath := by decide
    have hin : within T (T ++ dumpPath) = true := within_iff.mpr (.inr ⟨hT, List.prefix_append _ _⟩)
    have hprobe : Instfs.probeUp t T (T ++ dumpPath).reverse [] = .ok () := by
      have heval : evalSymlinks t (T ++ dumpPath).reverse.reverse = .ok (T ++ dumpPath) := by
        rw [List.reverse_reverse]
        exact evalSymlinks_of_stat hstat
      unfold Instfs.probeUp
      rw [heval]
      simp [hin]
    rw [Instfs.resolve, hclean]
    dsimp only
    rw [hroot]
    dsimp only
    rw [hprobe]

/-- The archive holds a dump, or no dump is left from before. -/
def ArchiveDecides (d : Dest) (fmt : TarGz) (es : List TarEntry) (t : Tree Name Str) (T : Loc Name) : Prop :=
  match archivedDump d.root es with
  | some dump => Gzipped fmt dump
  | none => ∀ old, fileAt t (T ++ dumpPath) = some old → ¬ Gzipped fmt old

theorem importsArchived_iff_decides (h : Restored d fmt ctx archive wipe t es files j₁ j₂)
    (database : Str → Except Str Unit) (hT : T ≠ []) (henc : j₁.tree.Enclosed d.root T) :
    ImportsArchived d fmt ctx archive wipe database t es ↔ ArchiveDecides d fmt es j₁.tree T := by
  rw [importsArchived_iff h database, ArchiveDecides]
  obtain ⟨f, j₀, gz, -, -, -, -, hunpack⟩ := h
  obtain ⟨henc₂, hwrites⟩ := unpackFrom_enclosed henc hunpack
  have hfile : fileAt j₂.tree (T ++ dumpPath) =
      (archivedDump d.root es).or (fileAt j₁.tree (T ++ dumpPath)) := by
    rw [fileAt_unpackFrom hunpack, leftAt, hwrites, archivedDump]
  have hlooks (dump : Str) : (∃ S, DumpAt d j₂.tree S ∧ fileAt j₂.tree S = some dump ∧ Gzipped fmt dump) ↔
      (archivedDump d.root es).or (fileAt j₁.tree (T ++ dumpPath)) = some dump ∧ Gzipped fmt dump := by
    rw [← hfile, ← dumpAt_enclosed henc₂ hT]
    constructor
    · rintro ⟨S, hS, hdump, hgz⟩
      exact ⟨⟨S, hS, hdump⟩, hgz⟩
    · rintro ⟨⟨S, hS, hdump⟩, hgz⟩
      exact ⟨S, hS, hdump, hgz⟩
  simp only [hlooks]
  rcases archivedDump d.root es with _ | dump
  · constructor
    · intro hall old hold hgz
      exact nomatch (hall old).mpr ⟨hold, hgz⟩
    · intro hno old
      exact iff_of_false nofun fun hold => hno old hold.1 hold.2
  · constructor
    · exact fun hall => ((hall dump).mp rfl).2
    · intro hgz dump'
      constructor
      · rintro ⟨⟩
        exact ⟨rfl, hgz⟩
      · exact fun hdump => hdump.1

/-- After a wipe the archive alone decides. -/
theorem importsArchived_iff_wiped (h : Restored d fmt ctx archive true t es files j₁ j₂)
    (database : Str → Except Str Unit) (hT : T ≠ []) (hdir : j₁.tree.DirAt d.root T) :
    ImportsArchived d fmt ctx archive true database t es ↔
      ∀ dump, archivedDump d.root es = some dump → Gzipped fmt dump := by
  obtain ⟨f, j₀, gz, -, -, hprepare, -, -⟩ := id h
  have hempty := (prepare_prepared hprepare).emptied rfl T hdir
  have henc : j₁.tree.Enclosed d.root T := by
    refine ⟨hdir, fun x g hx => ?_⟩
    by_cases hnil : x = []
    · rw [hnil, List.append_nil, hdir.2] at hx
      cases hx
    · exact Tree.node_ne_none hx (hempty x hnil)
  rw [importsArchived_iff_decides h database hT henc, ArchiveDecides]
  rcases archivedDump d.root es with _ | dump
  · refine iff_of_true (fun old hold => ?_) nofun
    have hnone : j₁.tree.kindAt (T ++ dumpPath) = none := Tree.kindAt_eq_none.mpr (hempty dumpPath (by decide))
    rw [fileAt, hnone] at hold
    cases hold
  · constructor
    · rintro hgz _ ⟨⟩
      exact hgz
    · exact fun hall => hall dump rfl

/-- Once the files are back, the handler imports a dump exactly when the archive held one, and that one,
if and only if what the restore has put or left where the import looks is the archive's dump. In a data
directory without links: if the archive holds a dump that can be unpacked, or none and no such dump is
left from before; after a wipe, whenever the archive's dump can be unpacked. -/
theorem backupRestore_imports_iff (h : Restored d fmt ctx archive wipe t es files j₁ j₂)
    (database : Str → Except Str Unit) :
    (ImportsArchived d fmt ctx archive wipe database t es ↔ DumpStands d fmt es j₁ j₂.tree) ∧
      (∀ T, T ≠ [] → j₁.tree.Enclosed d.root T →
        (ImportsArchived d fmt ctx archive wipe database t es ↔ ArchiveDecides d fmt es j₁.tree T)) ∧
      (wipe = true → ∀ T, T ≠ [] → j₁.tree.DirAt d.root T →
        (ImportsArchived d fmt ctx archive wipe database t es ↔
          ∀ dump, archivedDump d.root es = some dump → Gzipped fmt dump)) := by
  refine ⟨importsArchived_iff_stands h database,
    fun T hT henc => importsArchived_iff_decides h database hT henc, ?_⟩
  rintro rfl T hT hdir
  exact importsArchived_iff_wiped h database hT hdir

/-- A dump left in the data directory, as a gzip stream of one stored block -/
def leftDump : Str :=
  [0x1f, 0x8b, 8, 0, 0, 0, 0, 0, 0, 255, 1, 1, 0, 0xfe, 0xff, 0x78, 0x83, 0x16, 0xdc, 0x8c, 1, 0, 0, 0].map
    Char.ofNat

/-- Readers that know the dump and an archive that holds none -/
def leftDumpReaders : TarGz where
  readTar := (TarGz.only outEvilGz outEvilTar outEvilEntry).readTar
  gunzip s := if s = leftDump then .ok ⟨['x'], none, false⟩ else (TarGz.only outEvilGz outEvilTar outEvilEntry).gunzip s

def leftDumpTree : Tree Name Str :=
  .build
    [([], name "a", ⟨.dir, 0o755, 1000, 1000⟩),
     ([name "a"], name ".gsm", ⟨.dir, 0o755, 1000, 1000⟩),
     ([name "a", name ".gsm"], name "database.sql.gz", ⟨.file leftDump, 0o640, 1000, 1000⟩),
     ([], name "b.tar.gz", ⟨.file outEvilGz, 0o644, 0, 0⟩)]

def leftDumpDest : Dest := ⟨[name "a"], 1000, 1000, true⟩

/-- The stages of the restore, as they are run -/
theorem restored_leftDump (wipe : Bool) (j₀ j₁ : Journal Name Str)
    (h₀ : (openArchive [name "b.tar.gz"]).run (.of leftDumpTree) = (.ok (some outEvilGz), j₀))
    (h₁ : (prepare leftDumpDest.root wipe).run j₀ = (.ok (), j₁))
    (h₂ : ((leftDumpDest.unpackFrom (fun _ => false) none 0 0 [outEvilEntry]).run j₁).1 = .ok 1) :
    Restored leftDumpDest leftDumpReaders (fun _ => false) [name "b.tar.gz"] wipe leftDumpTree [outEvilEntry] 1 j₁
      ((leftDumpDest.unpackFrom (fun _ => false) none 0 0 [outEvilEntry]).run j₁).2 := by
  refine ⟨some outEvilGz, j₀, ⟨outEvilTar, none, false⟩, h₀, ?_, h₁, ?_, ?_⟩
  · decide +kernel
  · decide +kernel
  · have herr : (leftDumpReaders.readTar ⟨outEvilTar, none, false⟩).err = none := by decide +kernel
    rw [herr]
    exact Prod.ext h₂ rfl

theorem backupRestore_imports_wiped : ImportsArchived leftDumpDest leftDumpReaders (fun _ => false)
    [name "b.tar.gz"] true (fun _ => .ok ()) leftDumpTree [outEvilEntry] := by
  have h := restored_leftDump true ((openArchive [name "b.tar.gz"]).run (.of leftDumpTree)).2
    ((prepare leftDumpDest.root true).run ((openArchive [name "b.tar.gz"]).run (.of leftDumpTree)).2).2
    (Prod.ext (by decide +kernel) rfl) (Prod.ext (by decide +kernel) rfl) (by decide +kernel)
  refine ((backupRestore_imports_iff h fun _ => .ok ()).2.2 rfl [name "a"] (by decide) ⟨?_, ?_⟩).mpr ?_
  · decide +kernel
  · decide +kernel
  · have hnone : archivedDump leftDumpDest.root [outEvilEntry] = none := by decide +kernel
    rw [hnone]
    nofun

/-- Without a wipe the dump left in the data directory is imported, though the archive holds none. -/
theorem backupRestore_imports_left :
    ¬ ∀ (d : Dest) (fmt : TarGz) (ctx : ℕ → Bool) (archive : Path) (wipe : Bool) (t : Tree Name Str)
      (es : List TarEntry) (files : ℕ) (j₁ j₂ : Journal Name Str) (database : Str → Except Str Unit),
      Restored d fmt ctx archive wipe t es files j₁ j₂ →
        ImportsArchived d fmt ctx archive wipe database t es := by
  intro hall
  have h := restored_leftDump false ((openArchive [name "b.tar.gz"]).run (.of leftDumpTree)).2
    ((prepare leftDumpDest.root false).run ((openArchive [name "b.tar.gz"]).run (.of leftDumpTree)).2).2
    (Prod.ext (by decide +kernel) rfl) (Prod.ext (by decide +kernel) rfl) (by decide +kernel)
  obtain ⟨i, j', hrun, hdump⟩ := hall _ _ _ _ _ _ _ _ _ _ (fun _ => .ok ()) h
  have hnone : archivedDump leftDumpDest.root [outEvilEntry] = none := by decide +kernel
  have hleft : ((leftDumpDest.backupRestore leftDumpReaders (fun _ => false) false [name "b.tar.gz"] false
      (fun _ => .ok ())).run (.of leftDumpTree)).1.map Import.dump = .ok (some leftDump) := by decide +kernel
  rw [hrun] at hleft
  cases (Except.ok.inj hleft).symm.trans (hdump.trans hnone)

end Backups
