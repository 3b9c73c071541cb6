import Mathlib.Data.Int.Notation
import Mathlib.Data.List.TakeDrop
import Mathlib.Tactic.Common
import Mathlib.Algebra.Ring.Nat

/-!
# Go's `encoding/binary` and `io.ReadFull`

Little-endian words of 32 bits and a reader that has so many bytes to come. A signed word is the same
bits as an unsigned one.
-/

namespace GoStd

/-- The bytes of a string or a slice. -/
abbrev ByteString := List UInt8

/-- `binary.LittleEndian.PutUint32` -/
def putUint32 (v : BitVec 32) : ByteString :=
  [UInt8.ofNat v.toNat, UInt8.ofNat (v.toNat / 2 ^ 8), UInt8.ofNat (v.toNat / 2 ^ 16),
    UInt8.ofNat (v.toNat / 2 ^ 24)]

/-- `binary.LittleEndian.Uint32`. It panics where there are not four bytes. -/
def uint32 : ByteString → BitVec 32
  | b₀ :: b₁ :: b₂ :: b₃ :: _ =>
      BitVec.ofNat 32 (b₀.toNat + 2 ^ 8 * b₁.toNat + 2 ^ 16 * b₂.toNat + 2 ^ 24 * b₃.toNat)
  | _ => 0

/-- Why a read fails. -/
inductive ReadError where
  /-- `io.EOF` -/
  | eof
  /-- `io.ErrUnexpectedEOF` -/
  | unexpectedEOF
  | other (text : String)
deriving DecidableEq

/-- `io.ReadFull` of `n` bytes, and what is still to come then. -/
def readFull (n : ℕ) (r : ByteString) : Except ReadError ByteString × ByteString :=
  if n ≤ r.length then (.ok (r.take n), r.drop n)
  else if r = [] then (.error .eof, [])
  else (.error .unexpectedEOF, [])

@[simp] theorem length_putUint32 (v : BitVec 32) : (putUint32 v).length = 4 := rfl

/-- A word is read back from its bytes. -/
@[simp] theorem uint32_putUint32 (v : BitVec 32) (rest : ByteString) :
    uint32 (putUint32 v ++ rest) = v := by
  have hlt := v.isLt
  apply BitVec.eq_of_toNat_eq
  simp only [putUint32, uint32, List.cons_append, BitVec.toNat_ofNat, UInt8.toNat_ofNat']
  omega

theorem readFull_append (a rest : ByteString) : readFull a.length (a ++ rest) = (.ok a, rest) := by
  rw [readFull, if_pos (by rw [List.length_append]; omega), List.take_left, List.drop_left]

/-- A read that succeeds gives so many bytes, those that come first. -/
theorem of_readFull {n : ℕ} {r a r' : ByteString} (h : readFull n r = (.ok a, r')) :
    a.length = n ∧ r = a ++ r' := by
  rw [readFull] at h
  split at h
  · next hle =>
    obtain ⟨ha, hr⟩ := Prod.mk.inj h
    rw [← Except.ok.inj ha, ← hr, List.length_take, List.take_append_drop]
    exact ⟨Nat.min_eq_left hle, rfl⟩
  · split at h <;> exact (nomatch (Prod.mk.inj h).1)

/-- A reader gives no more than it is asked for. -/
theorem length_readFull (n : ℕ) (r : ByteString) : r.length ≤ n + (readFull n r).2.length := by
  rw [readFull]
  split
  · rw [List.length_drop]
    omega
  · split <;> simp only [List.length_nil] <;> omega

end GoStd
