import Gsm.Instfs.NamedLinks

/-!
# Steps that fail

`Write` and `Receive` put a file in place through a temporary one beside it. Any of their steps may also fail for
a reason that the tree does not show, such as a full disk; such a failure is an argument here. Without any, these
are the operations themselves.
-/

open Posix GoStd

namespace Instfs

/-- What each step fails with, besides what the tree makes of it. The directories fail after some of them, and
the copy after some of its bytes. -/
structure Faults where
  resolve : Option Str := none
  lstat : Option Str := none
  readFile : Option Str := none
  mkdirAll : Option (ℕ × Str) := none
  createTemp : Option Str := none
  copy : Option (ℕ × Str) := none
  close : Option Str := none
  chmod : Option Str := none
  chown : Option Str := none
  rename : Option Str := none

/-- A step that may fail before it does anything -/
def step {γ : Type} (fault : Option Str) (m : Prog γ) : Prog γ :=
  match fault with
  | some e => Sys.throw (failed e)
  | none => m

variable (f : FS) (lib : Lib) (x : Faults)

/-- The checks of `Write` -/
def checkWriteUnder (abs c : Path) (expectSHA : Option Str) (create : Bool) : Prog ℕ := do
  match ← (step x.lstat (Sys.lstat abs)).attempt with
  | .ok info =>
      if create then Sys.throw (invalid "already exists: " (text c))
      else if kindOf info.kind ≠ .file then Sys.throw (invalid "not a regular file: " (text c))
      else
        match expectSHA with
        | none => pure (perm info.mode)
        | some sha => do
            let cur ← step x.readFile (Sys.readAll abs)
            if lib.sha256Hex cur = sha then pure (perm info.mode)
            else Sys.throw (.other (.conflict
              "the file changed on disk since it was opened".toList))
  | .error (.errno .noent) =>
      if create then pure 0o644 else Sys.throw (invalid "no such file: " (text c))
  | .error e => Sys.throw e

/-- Missing directories, all of them or those of the first names -/
def mkdirUnder (make : Path → Prog Unit) (p : Path) : Prog Unit :=
  match x.mkdirAll with
  | some (k, e) => do
      make (p.take k)
      Sys.throw (failed e)
  | none => make p

/-- `chown` -/
def FS.giveUnder (p : Path) : Prog Unit := if x.chown.isSome then pure () else f.giveAway p

/-- What goes through a temporary file -/
def FS.throughTempUnder {γ δ : Type} (temps : List Name) (abs : Path) (mode : ℕ) (fill : Loc Name → Prog γ)
    (done : γ → Prog δ) : Prog δ := do
  let (tmp, fd) ← step x.createTemp (createTemp abs.dropLast temps)
  Sys.deferring (Sys.unlink tmp) do
    let a ← fill fd
    let _ ← (step x.chmod (Sys.chmod tmp mode)).attempt
    f.giveUnder x tmp
    step x.rename (Sys.rename tmp abs)
    done a

/-- `WriteString` and `Close` -/
def writeStringUnder (content : Str) (fd : Loc Name) : Prog Unit :=
  match x.copy, x.close with
  | some (k, e), _ => do
      Sys.write fd (content.take k)
      Sys.throw (failed e)
  | none, some e => do
      Sys.write fd content
      Sys.throw (failed e)
  | none, none => Sys.write fd content

def FS.writeUnder (temps : List Name) (rel content : Str) (expectSHA : Option Str) (create : Bool) :
    Prog FileWriteResult := do
  let (abs, c) ← step x.resolve (f.resolve rel)
  let mode ← checkWriteUnder lib x abs c expectSHA create
  mkdirUnder x (fun p => mkdirAll p 0o755) abs.dropLast
  f.throughTempUnder x temps abs mode (writeStringUnder x content) fun _ => do
    let st ← Sys.stat abs
    pure { path := c, size := sizeOf st, sha256 := lib.sha256Hex content }

/-- The checks of `Receive`; a failure of `Lstat` is taken for a missing file. -/
def checkReceiveUnder (abs c : Path) (overwrite : Bool) : Prog Unit :=
  if c = [] then Sys.throw (invalid "destination must be a file path")
  else do
    match ← (step x.lstat (Sys.lstat abs)).attempt with
    | .ok info =>
        if kindOf info.kind = .dir then
          Sys.throw (invalid "destination is a directory: " (text c))
        else if ¬ overwrite then Sys.throw (invalid "already exists: " (text c))
        else pure ()
    | .error _ => pure ()

/-- The transfer of `Receive` -/
def receiveBodyUnder (size : ℕ) (body : Body) (confirm : Str → Except Str Unit) (fd : Loc Name) : Prog Unit :=
  match x.copy with
  | some (k, e) => do
      Sys.write fd (body.data.take k)
      Sys.throw (failed e)
  | none => do
      Sys.write fd body.data
      match body.err with
      | some e => Sys.throw (failed e)
      | none =>
          step x.close <|
            if body.data.length ≠ size then
              Sys.throw (failed ("received ".toList ++ (Nat.repr body.data.length).toList ++
                " of ".toList ++ (Nat.repr size).toList ++ " bytes".toList))
            else
              match confirm (lib.sha256Hex body.data) with
              | .error e => Sys.throw (failed e)
              | .ok () => pure ()

def FS.receiveUnder (temps : List Name) (rel : Str) (size : ℕ) (overwrite : Bool) (body : Body)
    (confirm : Str → Except Str Unit) : Prog FileTransferResult := do
  let (abs, c) ← step x.resolve (f.resolve rel)
  checkReceiveUnder x abs c overwrite
  mkdirUnder x f.mkdirAllOwned abs.dropLast
  f.throughTempUnder x temps abs 0o644 (receiveBodyUnder lib x size body confirm) fun _ =>
    pure ⟨c, size, lib.sha256Hex body.data⟩

variable {f : FS} {lib : Lib} {temps : List Name}

theorem writeUnder_none (rel content : Str) (sha : Option Str) (create : Bool) :
    f.writeUnder lib {} temps rel content sha create = f.write lib temps rel content sha create := rfl

theorem receiveUnder_none (rel : Str) (size : ℕ) (overwrite : Bool) (body : Body) (confirm : Str → Except Str Unit) :
    f.receiveUnder lib {} temps rel size overwrite body confirm =
      f.receive lib temps rel size overwrite body confirm := rfl

end Instfs
