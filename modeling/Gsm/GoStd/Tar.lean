import Gsm.GoStd.Path

/-!
# Go's `archive/tar` and `compress/gzip`

What the readers yield of a file's bytes, entry by entry and up to an error. The two decoders are an
argument of the functions that use them: what holds for all of them holds also of an archive that is
overwritten while it is read.
-/

namespace GoStd

/-- What a reader yields: some bytes, and then the end or an error. The error may come from the `Read` that also
gives the last bytes. -/
structure Body where
  data : Str
  err : Option Str
  early : Bool
deriving DecidableEq

inductive TarType where
  | dir
  | reg
  | other
deriving DecidableEq

structure TarEntry where
  name : Str
  typeflag : TarType
  mode : ℕ
  body : Body
deriving DecidableEq

/-- The entries `Next` yields, and the error it ends with, if not at the end. -/
structure TarStream where
  entries : List TarEntry
  err : Option Str
deriving DecidableEq

structure TarGz where
  readTar : Body → TarStream
  gunzip : Str → Except Str Body

/-! ## A tar file, byte by byte -/

/-- Decoders that know one gzip file and the tar file in it, with one entry. -/
def TarGz.only (gz tar : Str) (e : TarEntry) : TarGz where
  readTar r :=
    if r.data = tar then ⟨[e], r.err⟩ else ⟨[], some "archive/tar: invalid tar header".toList⟩
  gunzip s := if s = gz then .ok ⟨tar, none, false⟩ else .error "gzip: invalid header".toList

/-- `s` in a field of `n` bytes. -/
def field (n : ℕ) (s : Str) : Str := s ++ List.replicate (n - s.length) (Char.ofNat 0)

/-- The tar file that holds `out/evil` with the one byte `x`. -/
def outEvilTar : Str :=
  field 512 (field 100 "out/evil".toList ++ field 8 "0000644".toList ++ field 8 "0000000".toList ++
    field 8 "0000000".toList ++ field 12 "00000000001".toList ++ field 12 "00000000000".toList ++
    field 7 "006206".toList ++ " 0".toList) ++ field 1536 ['x']

def outEvilEntry : TarEntry := ⟨"out/evil".toList, .reg, 0o644, ⟨['x'], none, false⟩⟩

/-- The same as a gzip stream of one stored block. -/
def outEvilGz : Str :=
  [0x1f, 0x8b, 8, 0, 0, 0, 0, 0, 0, 255, 1, 0, 8, 255, 0xf7].map Char.ofNat ++ outEvilTar ++
    [0x28, 0xfe, 0xe9, 0x5d, 0, 8, 0, 0].map Char.ofNat

end GoStd
