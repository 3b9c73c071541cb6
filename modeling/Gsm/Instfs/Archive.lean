import Gsm.GoStd.Tar
import Gsm.Instfs.Files
import Mathlib.Algebra.Ring.Nat

/-!
# Archives, uploads and downloads

`internal/instfs/archive.go`. The archive formats are an argument: what a reader yields for a file's
bytes, entry by entry and up to an error, and the bytes a writer makes of a list of entries. A
context is given by what its `Err` answers at each of the checks.
-/

open Posix GoStd

namespace Instfs

structure ZipEntry where
  name : Str
  isDir : Bool
  isSymlink : Bool
  mode : ℕ
  body : Except Str Body

/-- An entry for a writer, a directory if it has no data. -/
structure PackEntry where
  name : Path
  mode : ℕ
  data : Option Str

structure Formats extends TarGz where
  openZip : Str → Except Str (List ZipEntry)
  packZip : List PackEntry → Except Str Str
  packTarGz : List PackEntry → Except Str Str

/-- Whether the context has ended, at each of the checks. -/
abbrev Context := ℕ → Bool

def failed (msg : Str) : Refusal := .other (.failed msg)

/-! ## Extracting -/

/-- `MaxExtractBytes` -/
def maxExtractBytes : ℕ := 20 * 2 ^ 30

/-- `target`: the path of an archive entry. -/
def target (dst : Path) (entry : Str) : Except Refusal Path :=
  let entry := trimPrefix ['.', '/'] entry
  if ['/'].isPrefixOf entry ∨ '\\' ∈ entry then
    .error (invalid "archive entry has an unsafe name: " entry)
  else if hasDotDot entry then
    .error (invalid "archive entry escapes the destination: " entry)
  else if within dst (dst ++ clean entry) then .ok (dst ++ clean entry)
  else .error (invalid "archive entry escapes the destination: " entry)

variable (f : FS) (lib : Lib) (fmts : Formats) (ctx : Context)

/-- `mkdirAllOwned` for an entry, whose name may hold a NUL: what is above it is made. -/
def FS.mkdirEntry (p : Path) : Prog Unit := do
  f.mkdirAllOwned (soundPart p)
  if hasNul p then Sys.throw (.errno .inval) else pure ()

/-- The error of `io.Copy` from an `io.LimitReader`: a reader that gives all the bytes asked for is not asked
again, and its error is seen only if it came with the last of them. -/
def copyErr (r : Body) (limit : ℕ) : Option Str :=
  if r.data.length < limit ∨ r.data.length = limit ∧ r.early then r.err else none

/-- What `writeEntry` does with the file it has copied `data` into. -/
def FS.finishEntry (p : Path) (data : Str) (err : Option Str) (budget : ℕ) : Prog ℕ :=
  match err with
  | some e => Sys.throw (failed e)
  | none =>
      if data.length > budget then do
        let _ ← (Sys.unlink p).attempt
        Sys.throw (invalid "archive exceeds the extraction limit")
      else do
        f.giveAway p
        pure data.length

/-- `writeEntry`; a copy takes one byte more than the budget at most. -/
def FS.writeEntry (p : Path) (r : Body) (mode : ℕ) (budget : ℕ) : Prog ℕ :=
  if budget = 0 then Sys.throw (invalid "archive exceeds the extraction limit")
  else do
    f.mkdirEntry p.dropLast
    if hasNul p then Sys.throw (.errno .inval)
    else do
      Sys.overwrite p (perm mode ||| 0o600) (r.data.take (budget + 1))
      f.finishEntry p (r.data.take (budget + 1)) (copyErr r (budget + 1)) budget

/-- What an archive entry asks for, of either format. -/
inductive EntryKind where
  | dir
  | file (r : Body) (mode : ℕ)
  | unreadable (e : Str)
  | skipped

structure Entry where
  name : Str
  kind : EntryKind

def ZipEntry.entry (zf : ZipEntry) : Entry where
  name := zf.name
  kind :=
    if zf.isDir ∨ ['/'].isSuffixOf zf.name then .dir
    else if zf.isSymlink then .skipped
    else
      match zf.body with
      | .error e => .unreadable e
      | .ok rc => .file rc zf.mode

def TarEntry.entry (hdr : TarEntry) : Entry where
  name := hdr.name
  kind :=
    match hdr.typeflag with
    | .dir => .dir
    | .reg => .file hdr.body hdr.mode
    | .other => .skipped

/-- The loop of `extractZip` and `extractTar`, at its `i`-th entry, with `total` bytes and `n` files
written; `done` follows the last. -/
def FS.unpackFrom (f : FS) (ctx : Context) (dst : Path) (done : ℕ → ℕ → Prog ℕ) (i total n : ℕ) :
    List Entry → Prog ℕ
  | [] => done i n
  | e :: more =>
      if ctx i then Sys.throw (failed "context canceled".toList)
      else
        match target dst e.name with
        | .error err => Sys.throw err
        | .ok p =>
            match e.kind with
            | .dir => do
                f.mkdirEntry p
                f.unpackFrom ctx dst done (i + 1) total n more
            | .file r mode => do
                let written ← f.writeEntry p r mode (maxExtractBytes - total)
                f.unpackFrom ctx dst done (i + 1) (total + written) (n + 1) more
            | .unreadable err => Sys.throw (failed err)
            | .skipped => f.unpackFrom ctx dst done (i + 1) total n more

/-- Whether `zip.OpenReader` opens the file. -/
def readZip (src : Path) : Prog (List ZipEntry) := do
  match ← (Sys.readAll src).attempt with
  | .error _ => Sys.throw (invalid "cannot open zip: ")
  | .ok bytes =>
      match fmts.openZip bytes with
      | .error e => Sys.throw (invalid "cannot open zip: " e)
      | .ok files => pure files

def FS.extractZip (src dst : Path) : Prog ℕ := do
  let files ← readZip fmts src
  f.unpackFrom ctx dst (fun _ n => pure n) 0 0 0 (files.map ZipEntry.entry)

/-- What follows the last entry: the end of the stream, or an error of `Next`. -/
def endOfTar (err : Option Str) (i n : ℕ) : Prog ℕ :=
  if ctx i then Sys.throw (failed "context canceled".toList)
  else
    match err with
    | none => pure n
    | some e => Sys.throw (invalid "cannot read tar: " e)

def readTar (src : Path) (gz : Bool) : Prog TarStream := do
  let file ← Sys.readAll src
  match if gz then fmts.gunzip file else .ok ⟨file, none, false⟩ with
  | .error e => Sys.throw (invalid "cannot open gzip: " e)
  | .ok r => pure (fmts.readTar r)

def FS.extractTar (src dst : Path) (gz : Bool) : Prog ℕ := do
  let tr ← readTar fmts src gz
  f.unpackFrom ctx dst (endOfTar ctx tr.err) 0 0 0 (tr.entries.map TarEntry.entry)

def FS.extract (rel dest : Str) : Prog ℕ := do
  let (src, cleanSrc) ← f.resolve rel
  let (dstAbs, _) ← f.resolve dest
  f.mkdirAllOwned dstAbs
  let name := lib.toLower (text cleanSrc)
  if ".zip".toList.isSuffixOf name then f.extractZip fmts ctx src dstAbs
  else if ".tar.gz".toList.isSuffixOf name ∨ ".tgz".toList.isSuffixOf name then
    f.extractTar fmts ctx src dstAbs true
  else if ".tar".toList.isSuffixOf name then f.extractTar fmts ctx src dstAbs false
  else Sys.throw (invalid "not an archive the agent can unpack: " (text cleanSrc))

/-! ## Compressing -/

/-- What `archiveEntries` has come to: the paths it has handed on, the checks of the context it has
made, and the entries written. -/
structure Walked where
  seen : List Path
  checks : ℕ
  entries : List PackEntry

/-- The inner function of `writeTarGz` and `writeZip`: a directory, or a file with its bytes. -/
def packOne (name cur : Path) (info : Node Name Str) (w : Walked) : Prog Walked :=
  let seen := cur :: w.seen
  if name = [] then pure { w with seen := seen }
  else if kindOf info.kind = .dir then
    pure { w with seen := seen, entries := w.entries ++ [⟨name, perm info.mode, none⟩] }
  else do
    let data ← Sys.readAll cur
    pure { w with seen := seen, entries := w.entries ++ [⟨name, perm info.mode, some data⟩] }

/-- `filepath.WalkDir` in `archiveEntries`, over the paths `rels` below `abs`. -/
def packBelow (ctx : Context) (base abs : Path) (skip : Option Path) :
    List Path → Walked → Prog Walked
  | [], w => pure w
  | rel :: more, w =>
      if ctx w.checks then Sys.throw (failed "context canceled".toList)
      else do
        let w := { w with checks := w.checks + 1 }
        let cur := abs ++ rel
        if some cur = skip ∨ cur ∈ w.seen then packBelow ctx base abs skip more w
        else
          match ← (Sys.lstat cur).attempt with
          | .error _ => packBelow ctx base abs skip more w
          | .ok info =>
              if kindOf info.kind = .dir ∨ kindOf info.kind = .file then do
                packBelow ctx base abs skip more (← packOne (base ++ rel) cur info w)
              else packBelow ctx base abs skip more w

def FS.archiveEntries (f : FS) (ctx : Context) (skip : Option Path) :
    List Str → Walked → Prog Walked
  | [], w => pure w
  | p :: paths, w => do
      let (abs, c) ← f.resolve p
      let base := (c.getLast?.map fun n => [n]).getD []
      match ← (Sys.lstat abs).attempt with
      | .error _ => Sys.throw (invalid "no such file: " (text c))
      | .ok info =>
          if kindOf info.kind = .dir then do
            let w ← packBelow ctx base abs skip ([] :: (← walkDir abs)) w
            f.archiveEntries ctx skip paths w
          else if kindOf info.kind = .file ∧ abs ∉ w.seen ∧ some abs ≠ skip then do
            f.archiveEntries ctx skip paths (← packOne base abs info w)
          else f.archiveEntries ctx skip paths w

structure FileTransferResult where
  path : Path
  size : ℕ
  sha256 : Str

def isZip (name : Str) : Bool := ".zip".toList.isSuffixOf name

/-- `writeZip` and `writeTarGz`: the archive of some paths, written to an open file. -/
def FS.writeArchive (zip : Bool) (paths : List Str) (skip : Option Path) (fd : Loc Name) :
    Prog Str := do
  let w ← f.archiveEntries ctx skip paths ⟨[], 0, []⟩
  match if zip then fmts.packZip w.entries else fmts.packTarGz w.entries with
  | .error e => Sys.throw (failed e)
  | .ok bytes => do
      Sys.write fd bytes
      pure bytes

def FS.compress (temps : List Name) (paths : List Str) (dest : Str) : Prog FileTransferResult := do
  let (dstAbs, cleanDst) ← f.resolve dest
  match ← (Sys.lstat dstAbs).attempt with
  | .ok _ => Sys.throw (invalid "already exists: " (text cleanDst))
  | .error _ =>
      let lower := lib.toLower (text cleanDst)
      if ¬ isZip lower ∧ ¬ ".tar.gz".toList.isSuffixOf lower ∧ ¬ ".tgz".toList.isSuffixOf lower then
        Sys.throw (invalid "destination must end in .zip, .tar.gz or .tgz")
      else do
        f.mkdirAllOwned dstAbs.dropLast
        f.throughTemp temps dstAbs 0o644 (f.writeArchive fmts ctx (isZip lower) paths (some dstAbs))
          fun bytes => pure ⟨cleanDst, bytes.length, lib.sha256Hex bytes⟩

/-! ## Receiving -/

/-- The transfer of `Receive`: all of the body, of the size announced and with a digest `confirm`
accepts. -/
def receiveBody (size : ℕ) (body : Body) (confirm : Str → Except Str Unit) (fd : Loc Name) :
    Prog Unit := do
  Sys.write fd body.data
  match body.err with
  | some e => Sys.throw (failed e)
  | none =>
      if body.data.length ≠ size then
        Sys.throw (failed ("received ".toList ++ (Nat.repr body.data.length).toList ++
          " of ".toList ++ (Nat.repr size).toList ++ " bytes".toList))
      else
        match confirm (lib.sha256Hex body.data) with
        | .error e => Sys.throw (failed e)
        | .ok () => pure ()

/-- The checks of `Receive`. -/
def checkReceive (abs c : Path) (overwrite : Bool) : Prog Unit :=
  if c = [] then Sys.throw (invalid "destination must be a file path")
  else do
    match ← (Sys.lstat abs).attempt with
    | .ok info =>
        if kindOf info.kind = .dir then
          Sys.throw (invalid "destination is a directory: " (text c))
        else if ¬ overwrite then Sys.throw (invalid "already exists: " (text c))
        else pure ()
    | .error _ => pure ()

def FS.receive (temps : List Name) (rel : Str) (size : ℕ) (overwrite : Bool) (body : Body)
    (confirm : Str → Except Str Unit) : Prog FileTransferResult := do
  let (abs, c) ← f.resolve rel
  checkReceive abs c overwrite
  f.mkdirAllOwned abs.dropLast
  f.throughTemp temps abs 0o644 (receiveBody lib size body confirm) fun _ =>
    pure ⟨c, size, lib.sha256Hex body.data⟩

-- the equations that later modules rewrite with, stated here once
attribute [local simp] Instfs.FS.extract Instfs.FS.unpackFrom Instfs.FS.unpackFrom.eq_def

end Instfs
