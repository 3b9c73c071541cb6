import Gsm.Backups.Create
import Gsm.Backups.Dump
import Gsm.Backups.Links
import Gsm.Instfs.Confinement

/-!
# Dumping a database into the files

`DumpDatabase` of `internal/instances/database.go` writes a dump beside its target and renames it. The target
is looked at by `Resolve`; the name beside it is opened with what stands there. `staysIn_dumpDatabase` says
where on a tree it makes, writes and hands over. The dump itself, with the database's container, is an argument,
and of the result the path is left out.
-/

open Posix GoStd

namespace Backups

/-- What `mariadb-dump` comes to: the bytes that reach the file, gzipped, and an error. -/
structure Dumped where
  data : Str
  err : Option Str

/-- `abs + ".gsm-tmp"`, for the last name of `abs` -/
def dumpTmpName (n : Name) : Name :=
  ⟨n.1 ++ ".gsm-tmp".toList, by simp, fun h => by simpa using congrArg List.length h,
    fun h => by simpa using congrArg List.length h, fun h => by
      rcases List.mem_append.mp h with h | h
      · exact n.2.2.2.2 h
      · exact absurd h (by decide)⟩

def besideDump (abs : Path) : Path :=
  match abs.getLast? with
  | none => []
  | some n => abs.dropLast ++ [dumpTmpName n]

variable (d : Dest)

/-- The directories from `dir` up that lie below the instance's as texts -/
def Dest.handed (dir : Path) : List Path :=
  dir.inits.reverse.takeWhile fun p =>
    decide ((render d.root).length < (render p).length) && (render d.root).isPrefixOf (render p)

/-- `chownTo` on some paths -/
def Dest.ownEach (d : Dest) : List Path → Prog Unit
  | [] => pure ()
  | p :: more => do
      d.own p
      d.ownEach more

/-- What follows the opening of the temporary file `fd`. -/
def Dest.fillDump (tmp abs : Path) (fd : Loc Name) (run : Dumped) : Prog ℕ := do
  Sys.write fd run.data
  match run.err with
  | some e => Sys.throw (failed e)
  | none => do
      Sys.rename tmp abs
      d.own abs
      let info ← Sys.stat abs
      pure (Instfs.sizeOf info)

def Dest.dumpThrough (tmp abs : Path) (run : Dumped) : Prog ℕ := do
  let f ← Sys.openTrunc tmp 0o640
  Sys.deferring (Sys.unlink tmp) (d.fillDump tmp abs f run)

/-- `DumpDatabase`, once the path is known -/
def Dest.dumpAt (abs : Path) (run : Dumped) : Prog ℕ := do
  mkdirAll abs.dropLast 0o755
  d.ownEach (d.handed abs.dropLast)
  d.dumpThrough (besideDump abs) abs run

/-- `DumpDatabase`; the result is the size of the dump. -/
def Dest.dumpDatabase (rel : Str) (run : Dumped) : Prog ℕ := do
  let abs ← d.resolveFile rel
  d.dumpAt abs run

variable {d : Dest} {run : Dumped} {j : Journal Name Str} {t : Tree Name Str} {R D l : Loc Name}
  {p q abs : Path} {m n : Name} {rel : Str}

/-- The directory of the dump is there, or can be made. -/
def Makes (t : Tree Name Str) (q : Path) : Prop :=
  (∃ D, t.DirAt q D) ∨ ∃ p c rest D, q = p ++ c :: rest ∧ t.DirAt p D ∧ t.look (D ++ [c]) = none

/-- What a dump to `n` in the directory `q` reaches on this tree lies at or below `R`. -/
structure DumpInside (d : Dest) (t : Tree Name Str) (R : Loc Name) (run : Dumped) (q : Path) (n : Name) : Prop where
  /-- the directories that are handed over, as they are named -/
  handed : d.chown = true → Makes t q → ∀ p ∈ d.handed q, ∀ S, t.lstat p = .found S → R <+: S
  /-- what the temporary name leads to -/
  opened : ∀ l, t.openTarget (q ++ [dumpTmpName n]) = some l → R <+: l
  /-- where the dump is put, if it comes to that -/
  renamed : ∀ D l, t.DirAt q D → t.openTarget (q ++ [dumpTmpName n]) = some l → run.err = none →
    t.look (D ++ [n]) ≠ some .dir → R <+: D ++ [n]

end Backups
