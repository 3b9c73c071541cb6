import Mathlib.Data.List.DropRight

/-!
# Ring buffers

A buffer of a fixed capacity in which a new item takes the place of the oldest one. What it holds,
oldest first, is the end of everything that was pushed (`toArray_pushAll`).
-/

namespace Data

variable {α : Type*}

/-- The last `n` of more than `n` items are among the new ones and the last `n` of the old ones. -/
theorem rtake_append_rtake (l m : List α) (n : ℕ) : (l.rtake n ++ m).rtake n = (l ++ m).rtake n := by
  simp only [List.rtake, List.length_append, List.length_drop]
  rcases le_total l.length n with hle | hle
  · rw [Nat.sub_eq_zero_of_le hle, List.drop_zero, Nat.sub_zero]
  · rw [← List.drop_append_of_le_length (by omega), List.drop_drop]
    congr 1
    omega

structure RingBuffer (α : Type*) where
  items : List α
  /-- where the oldest item is, once the buffer is full -/
  start : ℕ
  capacity : ℕ
  pos : 0 < capacity
  length_le : items.length ≤ capacity
  start_lt : start < capacity
  start_eq : items.length < capacity → start = 0

namespace RingBuffer

def empty (capacity : ℕ) (pos : 0 < capacity) : RingBuffer α where
  items := []
  start := 0
  capacity := capacity
  pos := pos
  length_le := Nat.zero_le _
  start_lt := pos
  start_eq _ := rfl

def push (b : RingBuffer α) (item : α) : RingBuffer α :=
  if h : b.items.length < b.capacity then
    { b with
      items := b.items ++ [item]
      length_le := by
        rw [List.length_append]
        exact h
      start_eq := fun _ => b.start_eq h }
  else
    { b with
      items := b.items.set b.start item
      start := (b.start + 1) % b.capacity
      length_le := by simpa using b.length_le
      start_lt := Nat.mod_lt _ b.pos
      start_eq := fun h' => absurd (by simpa using h') h }

/-- Oldest first. -/
def toArray (b : RingBuffer α) : List α :=
  if b.items.length < b.capacity then b.items else b.items.drop b.start ++ b.items.take b.start

def pushAll (b : RingBuffer α) (items : List α) : RingBuffer α := items.foldl push b

variable {b : RingBuffer α}

/-- Before the buffer is full, its items stand from the start on. -/
theorem toArray_eq (b : RingBuffer α) : b.toArray = b.items.drop b.start ++ b.items.take b.start := by
  unfold toArray
  split
  case isTrue h => rw [b.start_eq h, List.drop_zero, List.take_zero, List.append_nil]
  case isFalse => rfl

theorem length_toArray (b : RingBuffer α) : b.toArray.length = b.items.length := by
  rw [toArray_eq, List.length_append, List.length_drop, List.length_take]
  omega

@[simp] theorem toArray_empty {capacity : ℕ} {pos : 0 < capacity} :
    (empty capacity pos : RingBuffer α).toArray = [] := by
  simp [toArray_eq, empty]

@[simp] theorem capacity_push (item : α) : (b.push item).capacity = b.capacity := by
  unfold push
  split <;> rfl

/-- A new item comes last; from a full buffer, the oldest one goes. -/
theorem toArray_push (b : RingBuffer α) (item : α) :
    (b.push item).toArray = (b.toArray ++ [item]).rtake b.capacity := by
  rw [toArray_eq (b.push item), push]
  split
  case isTrue h =>
    have hstart := b.start_eq h
    have hlen : (b.toArray ++ [item]).length - b.capacity = 0 := by
      rw [List.length_append, length_toArray, List.length_singleton]
      omega
    rw [List.rtake, hlen, toArray_eq b]
    simp [hstart]
  case isFalse h =>
    have hfull : b.items.length = b.capacity := le_antisymm b.length_le (not_lt.mp h)
    have hlt : b.start < b.items.length := hfull ▸ b.start_lt
    have hlen : (b.toArray ++ [item]).length - b.capacity = 1 := by
      rw [List.length_append, length_toArray, List.length_singleton]
      omega
    have hset : b.items.set b.start item =
        b.items.take b.start ++ item :: b.items.drop (b.start + 1) :=
      List.set_eq_take_append_cons_drop.trans (if_pos hlt)
    rw [List.rtake, hlen, toArray_eq b, List.drop_eq_getElem_cons hlt]
    simp only [List.cons_append, List.drop_succ_cons, List.drop_zero, List.append_assoc]
    rcases Nat.lt_or_ge (b.start + 1) b.capacity with hnext | hnext
    · -- the oldest item is the next one
      have hdrop : (b.items.take b.start).drop (b.start + 1) = [] :=
        List.drop_eq_nil_of_le (by rw [List.length_take]; omega)
      have htake : (b.items.take b.start).take (b.start + 1) = b.items.take b.start :=
        List.take_of_length_le (by rw [List.length_take]; omega)
      rw [Nat.mod_eq_of_lt hnext, hset, List.drop_append, List.take_append, hdrop, htake]
      simp [List.length_take, min_eq_left hlt.le]
    · -- the oldest item is the first one again
      have hmod : (b.start + 1) % b.capacity = 0 := by
        rw [le_antisymm b.start_lt hnext, Nat.mod_self]
      have hnil : b.items.drop (b.start + 1) = [] := List.drop_eq_nil_of_le (by omega)
      rw [hmod, hset, hnil]
      simp

theorem capacity_pushAll (items : List α) : (b.pushAll items).capacity = b.capacity := by
  induction items generalizing b with
  | nil => rfl
  | cons item items ih => rw [pushAll, List.foldl_cons, ← pushAll, ih, capacity_push]

theorem toArray_pushAll (b : RingBuffer α) (items : List α) :
    (b.pushAll items).toArray = (b.toArray ++ items).rtake b.capacity := by
  induction items generalizing b with
  | nil =>
    have hlen : b.toArray.length - b.capacity = 0 := by
      rw [length_toArray]
      exact Nat.sub_eq_zero_of_le b.length_le
    rw [pushAll, List.foldl_nil, List.append_nil, List.rtake, hlen, List.drop_zero]
  | cons item items ih =>
    rw [pushAll, List.foldl_cons, ← pushAll, ih, capacity_push, toArray_push, rtake_append_rtake,
      List.append_assoc, List.singleton_append]

end RingBuffer

end Data
