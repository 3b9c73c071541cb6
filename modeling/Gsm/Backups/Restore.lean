import Gsm.GoStd.Os
import Gsm.GoStd.Path
import Gsm.GoStd.Tar

/-!
# Restoring a backup

`Restore` of `internal/backups`. The archive is read through a descriptor, so what it holds does not
change when the data directory is emptied. Reports of progress are left out. A context is given by
what its `Err` answers before each entry.
-/

open Posix GoStd

namespace Backups

inductive RestoreError where
  /-- `InvalidError` -/
  | invalid (msg : Str)
  /-- any other error -/
  | failed (msg : Str)
deriving DecidableEq

abbrev Prog (γ : Type) := Sys Name Str RestoreError γ

abbrev Refusal := Failure RestoreError

def invalid (msg : String) (arg : Str := []) : Refusal := .other (.invalid (msg.toList ++ arg))

/-- Where a backup goes, and who owns what is restored. -/
structure Dest where
  root : Path
  uid : ℕ
  gid : ℕ
  chown : Bool

def Dest.owner (d : Dest) : Option (ℕ × ℕ) := if d.chown then some (d.uid, d.gid) else none

/-- The function `own` of `Restore`. -/
def Dest.own (d : Dest) (p : Path) : Prog Unit := Sys.handOver d.owner p

/-- `os.MkdirAll` on a path that may hold a NUL: what is above it is made. -/
def mkdirs (p : Path) : Prog Unit := do
  mkdirAll (soundPart p) 0o755
  if hasNul p then Sys.throw (.errno .inval) else pure ()

theorem run_mkdirs {p : Path} {j : Journal Name Str} (h : hasNul p = false) :
    (mkdirs p).run j = (mkdirAll p 0o755 : Prog Unit).run j := by
  rw [mkdirs, soundPart_eq h, Sys.run_bind, h]
  rcases hrun : (mkdirAll p 0o755 : Prog Unit).run j with ⟨e | a, j'⟩ <;> rfl

theorem run_mkdirs_nul {p : Path} {j : Journal Name Str} (h : hasNul p) (j' : Journal Name Str) :
    (mkdirs p).run j ≠ (.ok (), j') := by
  intro hrun
  obtain ⟨_, j₁, -, hrest⟩ := Sys.run_bind_eq_ok.mp hrun
  rw [if_pos h] at hrest
  cases hrest

/-- `os.Open` and what can be read from it: nothing if it is a directory. -/
def openArchive (archive : Path) : Prog (Option Str) := do
  match ← (Sys.existing (·.stat archive)).attempt with
  | .error (.errno .noent) => Sys.throw (invalid "the backup archive is not on the node")
  | .error e => Sys.throw e
  | .ok l =>
      match (← Sys.nodeAt l).kind with
      | .file data => do
          Sys.read l
          pure (some data)
      | .dir => pure none
      | _ => Sys.throw (.errno .nxio)

/-- `gzip.NewReader` -/
def openGzip (fmt : TarGz) (f : Option Str) : Except Refusal Body :=
  match f.map fmt.gunzip with
  | some (.ok gz) => .ok gz
  | _ => .error (invalid "the backup is not a gzip archive")

def removeEach (root : Path) : List Name → Prog Unit
  | [] => pure ()
  | n :: more => do
      removeAll (root ++ [n])
      removeEach root more

/-- The data directory is there, and with `wipe` it is empty. -/
def prepare (root : Path) (wipe : Bool) : Prog Unit := do
  mkdirs root
  if wipe then do
    let names ← Sys.readDir root
    removeEach root names
  else pure ()

/-- The path of an archive entry. -/
def entryPath (root : Path) (hdrName : Str) : Except Refusal Path :=
  let name := trimPrefix ['.', '/'] hdrName
  if ['/'].isPrefixOf name then
    .error (invalid "archive entry has an absolute path: " hdrName)
  else if hasDotDot name then
    .error (invalid "archive entry escapes the data directory: " hdrName)
  else if within root (root ++ clean name) then .ok (root ++ clean name)
  else .error (invalid "archive entry escapes the data directory: " hdrName)

variable (d : Dest) (fmt : TarGz) (ctx : ℕ → Bool)

/-- What follows when a file was copied. -/
def Dest.finish (p : Path) (err : Option Str) : Prog Unit :=
  match err with
  | some e => Sys.throw (.other (.failed e))
  | none => d.own p

def Dest.makeDir (p : Path) : Prog Unit := do
  mkdirs p
  d.own p

def Dest.makeFile (p : Path) (mode : ℕ) (tr : Body) : Prog Unit := do
  d.makeDir p.dropLast
  if hasNul p then Sys.throw (.errno .inval)
  else do
    Sys.overwrite p (perm mode ||| 0o600) tr.data
    d.finish p tr.err

/-- One entry, once its path is known; the result counts files. -/
def Dest.unpack (p : Path) (hdr : TarEntry) : Prog ℕ :=
  match hdr.typeflag with
  | .dir => do
      d.makeDir p
      pure 0
  | .reg => do
      d.makeFile p hdr.mode hdr.body
      pure 1
  | .other => pure 0

/-- The loop of `Restore`, at its `i`-th entry and with `files` files restored; `err` is what `Next`
ends with, if not with the end of the archive. -/
def Dest.unpackFrom (err : Option Str) (i files : ℕ) : List TarEntry → Prog ℕ
  | [] =>
      if ctx i then Sys.throw (.other (.failed "context canceled".toList))
      else
        match err with
        | none => pure files
        | some e => Sys.throw (.other (.failed e))
  | hdr :: more =>
      if ctx i then Sys.throw (.other (.failed "context canceled".toList))
      else
        match entryPath d.root hdr.name with
        | .error e => Sys.throw e
        | .ok p => do
            let n ← d.unpack p hdr
            Dest.unpackFrom err (i + 1) (files + n) more

/-- The archive, once it is open and the data directory is there. -/
def Dest.unpackAll (f : Option Str) : Prog ℕ :=
  match openGzip fmt f with
  | .error e => Sys.throw e
  | .ok gz => d.unpackFrom ctx (fmt.readTar gz).err 0 0 (fmt.readTar gz).entries

def restore (archive : Path) (wipe : Bool) : Prog ℕ := do
  let f ← openArchive archive
  prepare d.root wipe
  d.unpackAll fmt ctx f

end Backups
