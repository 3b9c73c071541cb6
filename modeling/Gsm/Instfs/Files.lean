import Gsm.Instfs.Resolve

/-!
# The file manager's operations

`Stat`, `Read`, `Write`, `Mkdir`, `Rename`, `Delete` and `Chmod` of `internal/instfs/instfs.go`.
Times are left out. The names `os.CreateTemp` comes up with are an argument, as are the functions of
the standard library that only look at bytes.
-/

open Posix GoStd

namespace Instfs

/-- What is used of `crypto/sha256`, `unicode/utf8` and `strings`. -/
structure Lib where
  sha256Hex : Str → Str
  utf8Valid : Str → Bool
  toLower : Str → Str

/-! ## Describing files -/

inductive EntryType where
  | file
  | dir
  | symlink
  | other
deriving DecidableEq

def kindOf : Kind Name Str → EntryType
  | .dir => .dir
  | .file _ => .file
  | .link _ => .symlink
  | .special => .other

/-- The size of a regular file; for others the file system's own idea of it is left out. -/
def sizeOf (nd : Node Name Str) : ℕ :=
  match nd.kind with
  | .file data => data.length
  | _ => 0

structure FileEntry where
  name : Str
  size : ℕ
  mode : ℕ
  type : EntryType
  targetType : Option EntryType

/-- What a link leads to, as far as it can be followed. -/
def targetOf (p : Path) (nd : Node Name Str) : Prog (Option EntryType) :=
  match nd.kind with
  | .link _ => do
      match ← (Sys.stat p).attempt with
      | .ok st => pure (some (kindOf st.kind))
      | .error _ => pure none
  | _ => pure none

/-- `entryOf`, for the file with absolute path `p`. -/
def entryOf (p : Path) (nd : Node Name Str) : Prog FileEntry := do
  let target ← targetOf p nd
  pure
    { name := (p.getLast?.map Subtype.val).getD ['/']
      size := sizeOf nd
      mode := perm nd.mode
      type := kindOf nd.kind
      targetType := target }

variable (f : FS) (lib : Lib)

def FS.resolve (rel : Str) : Prog (Path × Path) := Sys.look fun t => Instfs.resolve t f rel

/-- What a call gave, where a missing file is a mistake of the caller. -/
def orMissing {γ : Type} (c : Path) : Except Refusal γ → Prog γ
  | .ok a => pure a
  | .error (.errno .noent) => Sys.throw (invalid "no such file: " (text c))
  | .error e => Sys.throw e

def FS.stat (rel : Str) : Prog (Path × FileEntry) := do
  let (abs, c) ← f.resolve rel
  let info ← orMissing c (← (Sys.lstat abs).attempt)
  pure (c, ← entryOf abs info)

structure FileReadResult where
  path : Path
  size : ℕ
  mode : ℕ
  sha256 : Str := []
  tooLarge : Bool := false
  binary : Bool := false
  content : Option Str := none

/-- `Read`, once the file is known to be a regular one. -/
def readFile (maxBytes : ℕ) (abs c : Path) (info : Node Name Str) : Prog FileReadResult :=
  let res : FileReadResult := { path := c, size := sizeOf info, mode := perm info.mode }
  if sizeOf info > maxBytes then pure { res with tooLarge := true }
  else do
    let data ← Sys.readAll abs
    let res := { res with sha256 := lib.sha256Hex data }
    if Char.ofNat 0 ∈ data.take 8192 ∨ ¬ lib.utf8Valid data then pure { res with binary := true }
    else pure { res with content := some data }

def FS.read (rel : Str) (maxBytes : ℕ) : Prog FileReadResult := do
  let (abs, c) ← f.resolve rel
  let info ← orMissing c (← (Sys.stat abs).attempt)
  if kindOf info.kind ≠ .file then Sys.throw (invalid "not a regular file: " (text c))
  else readFile lib maxBytes abs c info

/-! ## Changing files -/

/-- Fill the temporary file `tmp` and rename it to `abs`; it is removed again in any case. -/
def FS.fillTemp {γ δ : Type} (tmp : Path) (fd : Loc Name) (abs : Path) (mode : ℕ)
    (fill : Loc Name → Prog γ) (done : γ → Prog δ) : Prog δ :=
  Sys.deferring (Sys.unlink tmp) do
    let a ← fill fd
    let _ ← (Sys.chmod tmp mode).attempt
    f.giveAway tmp
    Sys.rename tmp abs
    done a

/-- Put a file at `abs` through a temporary one beside it. -/
def FS.throughTemp {γ δ : Type} (temps : List Name) (abs : Path) (mode : ℕ)
    (fill : Loc Name → Prog γ) (done : γ → Prog δ) : Prog δ := do
  let (tmp, fd) ← createTemp abs.dropLast temps
  f.fillTemp tmp fd abs mode fill done

structure FileWriteResult where
  path : Path
  size : ℕ
  sha256 : Str

/-- The checks of `Write`; they end in the mode of the new file. -/
def checkWrite (abs c : Path) (expectSHA : Option Str) (create : Bool) : Prog ℕ := do
  match ← (Sys.lstat abs).attempt with
  | .ok info =>
      if create then Sys.throw (invalid "already exists: " (text c))
      else if kindOf info.kind ≠ .file then Sys.throw (invalid "not a regular file: " (text c))
      else
        match expectSHA with
        | none => pure (perm info.mode)
        | some sha => do
            let cur ← Sys.readAll abs
            if lib.sha256Hex cur = sha then pure (perm info.mode)
            else Sys.throw (.other (.conflict
              "the file changed on disk since it was opened".toList))
  | .error (.errno .noent) =>
      if create then pure 0o644 else Sys.throw (invalid "no such file: " (text c))
  | .error e => Sys.throw e

def FS.write (temps : List Name) (rel content : Str) (expectSHA : Option Str) (create : Bool) :
    Prog FileWriteResult := do
  let (abs, c) ← f.resolve rel
  let mode ← checkWrite lib abs c expectSHA create
  mkdirAll abs.dropLast 0o755
  f.throughTemp temps abs mode (fun fd => Sys.write fd content) fun _ => do
    let st ← Sys.stat abs
    pure { path := c, size := sizeOf st, sha256 := lib.sha256Hex content }

def FS.mkdir (rel : Str) : Prog Path := do
  let (abs, c) ← f.resolve rel
  if c = [] then Sys.throw (invalid "the root already exists")
  else do
    f.mkdirAllOwned abs
    pure c

def FS.rename (src dst : Str) : Prog Path := do
  let (src, cleanFrom) ← f.resolve src
  let (dst, cleanTo) ← f.resolve dst
  if cleanFrom = [] ∨ cleanTo = [] then Sys.throw (invalid "cannot rename the root")
  else
    match ← (Sys.lstat src).attempt with
    | .error _ => Sys.throw (invalid "no such file: " (text cleanFrom))
    | .ok _ =>
        match ← (Sys.lstat dst).attempt with
        | .ok _ => Sys.throw (invalid "already exists: " (text cleanTo))
        | .error _ => do
            f.mkdirAllOwned dst.dropLast
            Sys.rename src dst
            pure cleanTo

def FS.delete (f : FS) : List Str → Prog ℕ
  | [] => pure 0
  | p :: paths => do
      let (abs, c) ← f.resolve p
      if c = [] then Sys.throw (invalid "cannot delete the instance root")
      else
        match ← (Sys.lstat abs).attempt with
        | .error (.errno .noent) => f.delete paths
        | .error e => Sys.throw e
        | .ok _ => do
            removeAll abs
            let n ← f.delete paths
            pure (n + 1)

/-- The inner function of `Chmod`. -/
def applyMode (mode : ℕ) (p : Path) (info : Node Name Str) : Prog ℕ :=
  match info.kind with
  | .link _ => pure 0
  | _ => do
      match ← (Sys.chmod p (perm mode)).attempt with
      | .ok _ => pure 1
      | .error _ => pure 0

/-- What `filepath.WalkDir` visits below a directory, as paths relative to it. -/
def walkDir (p : Path) : Prog (List Path) :=
  Sys.look fun t =>
    match t.lstat p with
    | .found l => .ok (t.below l)
    | _ => .ok []

/-- The function `Chmod` walks a directory with. -/
def applyEntry (mode : ℕ) (p : Path) : Prog ℕ := do
  match ← (Sys.lstat p).attempt with
  | .ok info => applyMode mode p info
  | .error _ => pure 0

def applyBelow (mode : ℕ) (abs : Path) : List Path → Prog ℕ
  | [] => pure 0
  | rel :: more => do
      let n ← applyEntry mode (abs ++ rel)
      let m ← applyBelow mode abs more
      pure (n + m)

/-- `Chmod` on one path. -/
def applyTree (mode : ℕ) (recursive : Bool) (abs : Path) (info : Node Name Str) : Prog ℕ := do
  let n ← applyMode mode abs info
  if recursive ∧ kindOf info.kind = .dir then do
    let m ← applyBelow mode abs (← walkDir abs)
    pure (n + m)
  else pure n

def FS.chmodAll (f : FS) (mode : ℕ) (recursive : Bool) : List Str → Prog ℕ
  | [] => pure 0
  | p :: paths => do
      let (abs, c) ← f.resolve p
      match ← (Sys.lstat abs).attempt with
      | .error _ => Sys.throw (invalid "no such file: " (text c))
      | .ok info => do
          let n ← applyTree mode recursive abs info
          let k ← f.chmodAll mode recursive paths
          pure (n + k)

-- the equations that later modules rewrite with, stated here once
attribute [local simp] Instfs.FS.resolve Instfs.FS.throughTemp Instfs.checkWrite Instfs.kindOf

end Instfs
