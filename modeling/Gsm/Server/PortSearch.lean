import Gsm.Server.PortBlocks
import Mathlib.Data.List.Chain
import Mathlib.Data.Finset.Card
import Mathlib.Algebra.Order.BigOperators.Group.List
import Mathlib.Algebra.Order.Ring.Nat

/-!
# The search of the pool, with one cursor for blocks of every size

The blocks are placed one after the other, and the cursor stays where the last one was found. What lies
behind it had no room for that block, so it has none for a block as large (`Swept`). A smaller block
after a larger one is refused with a gap free behind the cursor: for every list of ports with such a
pair there is a pool where it happens.
-/

namespace Server.PortSearch

open Ports (TemplatePort Pool HttpError Placed sizes byName placeChosen placeRest blockFree nextFree
  defaultFree)
open PortBlocks (templatePorts blocks allocatePorts)

/-- A pool the node's settings accept. -/
def poolOk (pool : Pool) : Prop :=
  1024 ≤ pool.start ∧ pool.start ≤ pool.last ∧ pool.last ≤ 65535 ∧ pool.last - pool.start ≤ 20000

/-- One round of the loop over the pool's blocks; `none` where the block has no place from the cursor on. -/
def placeBlock (ports : List TemplatePort) (pool : Pool) (s : Placed) (cursor : ℕ) (b : String × ℕ) :
    Option (Placed × ℕ) :=
  if (s.first.lookup b.1).isSome then some (s, cursor)
  else
    let wanted := ((byName ports b.1).map (·.default)).getD 0
    if defaultFree s.taken pool wanted b.2 then some (s.take b.1 wanted b.2, cursor)
    else (nextFree s.taken pool cursor b.2).map fun c => (s.take b.1 c b.2, c)

/-- The block that could not be placed, with what was taken by then. -/
def stuckAt (ports : List TemplatePort) (pool : Pool) :
    Placed → ℕ → List (String × ℕ) → Option (Placed × String × ℕ)
  | _, _, [] => none
  | s, cursor, b :: rest =>
      match placeBlock ports pool s cursor b with
      | some (s', cursor') => stuckAt ports pool s' cursor' rest
      | none => some (s, b)

/-- No `n` ports in a row of the pool are free. -/
def NoRoom (pool : Pool) (taken : List ℕ) (n : ℕ) : Prop :=
  ∀ x, pool.start ≤ x → x + n ≤ pool.last + 1 → ∃ y ∈ List.range' x n, y ∈ taken

/-- `no free ports` is thrown only for a block the pool has no room for. -/
def ThrowsRightly (ports : List TemplatePort) (used : List ℕ) (pool : Pool) : Prop :=
  ∀ m, allocatePorts ports [] used pool = .error (.conflict m) →
    ∃ s b, stuckAt ports pool ⟨used, []⟩ pool.start (blocks ports []) = some (s, b) ∧
      NoRoom pool s.taken b.2

variable {ports : List TemplatePort} {used taken : List ℕ} {pool : Pool} {s s' : Placed}
  {cursor cursor' n m lo hi u next : ℕ} {b b' : String × ℕ} {rest l : List (String × ℕ)}

/-! ## One round -/

theorem blockFree_false_iff : blockFree taken lo n = false ↔
    ∃ y ∈ List.range' lo n, ¬ (1 ≤ y ∧ y ≤ 65535 ∧ y ∉ taken) := by
  rw [← Bool.not_eq_true, Ports.blockFree_iff, not_forall]
  exact exists_congr fun y => Classical.not_imp

/-- Every place before the end of the search had no room for `m` ports. -/
def Swept (taken : List ℕ) (lo hi m : ℕ) : Prop :=
  ∀ x, lo ≤ x → x < hi → blockFree taken x m = false

theorem Swept.mono (h : Swept taken lo hi m) (hm : m ≤ n) (hsub : ∀ x ∈ taken, x ∈ used) :
    Swept used lo hi n := by
  intro x hlo hhi
  obtain ⟨y, hy, hbad⟩ := blockFree_false_iff.mp (h x hlo hhi)
  rw [List.mem_range'_1] at hy
  refine blockFree_false_iff.mpr ⟨y, List.mem_range'_1.mpr (by omega), fun hgood => hbad ?_⟩
  exact ⟨hgood.1, hgood.2.1, fun hmem => hgood.2.2 (hsub y hmem)⟩

theorem placeBlock_eq_some (h : placeBlock ports pool s cursor b = some (s', cursor')) :
    (s' = s ∧ cursor' = cursor) ∨ ∃ start, s' = s.take b.1 start b.2 ∧
      (cursor' = cursor ∨ cursor' = start ∧ cursor ≤ start ∧ Swept s.taken cursor start b.2) := by
  rw [placeBlock] at h
  split at h
  · obtain ⟨rfl, rfl⟩ := Prod.mk.inj (Option.some.inj h)
    exact .inl ⟨rfl, rfl⟩
  simp only at h
  split at h
  · obtain ⟨rfl, rfl⟩ := Prod.mk.inj (Option.some.inj h)
    exact .inr ⟨_, rfl, .inl rfl⟩
  · obtain ⟨c, hc, heq⟩ := Option.map_eq_some_iff.mp h
    obtain ⟨rfl, rfl⟩ := Prod.mk.inj heq
    obtain ⟨-, hmem, hbefore⟩ := List.find?_range'_eq_some.mp hc
    rw [List.mem_range'_1] at hmem
    exact .inr ⟨c, rfl, .inr ⟨rfl, hmem.1, fun x hlo hhi => by simpa using hbefore x hlo hhi⟩⟩

theorem placeBlock_eq_none (h : placeBlock ports pool s cursor b = none) :
    Swept s.taken cursor (pool.last + 2 - b.2) b.2 := by
  rw [placeBlock] at h
  split at h
  · cases h
  simp only at h
  split at h
  · cases h
  · have hnone := List.find?_range'_eq_none.mp (Option.map_eq_none_iff.mp h)
    intro x hlo hhi
    simpa using hnone x hlo (by omega)

/-! ## The loop -/

/-- A block that is stuck is what the loop throws for. -/
theorem placeRest_of_stuck (h : stuckAt ports pool s cursor l = some (s', b)) :
    ∃ m, placeRest ports pool s cursor l = .error (.conflict m) := by
  induction l generalizing s cursor with
  | nil => cases h
  | cons e rest ih =>
    obtain ⟨name, n⟩ := e
    rw [stuckAt, placeBlock] at h
    rw [placeRest]
    simp only at h ⊢
    split
    · next hthere =>
      rw [if_pos hthere] at h
      exact ih h
    · next hthere =>
      rw [if_neg hthere] at h
      split
      · next hdefault =>
        rw [if_pos hdefault] at h
        exact ih h
      · next hdefault =>
        rw [if_neg hdefault] at h
        rcases hnext : nextFree s.taken pool cursor n with _ | c
        · exact ⟨_, rfl⟩
        · rw [hnext] at h
          exact ih h

theorem placeRest_of_notStuck (h : stuckAt ports pool s cursor l = none) :
    ∃ s', placeRest ports pool s cursor l = .ok s' := by
  induction l generalizing s cursor with
  | nil => exact ⟨s, rfl⟩
  | cons e rest ih =>
    obtain ⟨name, n⟩ := e
    rw [stuckAt, placeBlock] at h
    rw [placeRest]
    simp only at h ⊢
    split
    · next hthere =>
      rw [if_pos hthere] at h
      exact ih h
    · next hthere =>
      rw [if_neg hthere] at h
      split
      · next hdefault =>
        rw [if_pos hdefault] at h
        exact ih h
      · next hdefault =>
        rw [if_neg hdefault] at h
        rcases hnext : nextFree s.taken pool cursor n with _ | c
        · rw [hnext] at h
          cases h
        · rw [hnext] at h
          exact ih h

theorem placeChosen_nil (s : Placed) (l : List (String × ℕ)) : placeChosen [] s l = .ok s := by
  induction l with
  | nil => rfl
  | cons b rest ih => exact ih

/-- Without choices `no free ports` is thrown just when a block is stuck. -/
theorem allocatePorts_conflict_iff :
    (∃ m, allocatePorts ports [] used pool = .error (.conflict m)) ↔
      ∃ s b, stuckAt ports pool ⟨used, []⟩ pool.start (blocks ports []) = some (s, b) := by
  have hrun : allocatePorts ports [] used pool =
      (placeRest ports pool ⟨used, []⟩ pool.start (blocks ports [])).bind fun s =>
        ports.mapM (PortBlocks.allocation ports [] s) := by
    rw [allocatePorts]
    simp only [List.find?_nil, placeChosen_nil]
    rfl
  rw [hrun]
  rcases hstuck : stuckAt ports pool ⟨used, []⟩ pool.start (blocks ports []) with _ | ⟨s, b⟩
  · -- what is left is the followers' check, which answers with `badRequest`
    obtain ⟨s, hs⟩ := placeRest_of_notStuck hstuck
    rw [hs]
    refine iff_of_false (fun ⟨m, hm⟩ => ?_) (by rintro ⟨_, _, h⟩; cases h)
    have hbad : ∀ (l : List TemplatePort),
        l.mapM (PortBlocks.allocation ports [] s) ≠ .error (.conflict m) := by
      intro l
      induction l with
      | nil => exact fun h => nomatch h
      | cons p l ih =>
        intro h
        rw [List.mapM_cons] at h
        rcases hp : PortBlocks.allocation ports [] s p with e | a
        · rw [hp] at h
          rw [PortBlocks.allocation] at hp
          simp only at hp
          split at hp
          · obtain rfl := Except.error.inj hp
            cases h
          · cases hp
        · rcases hl : l.mapM (PortBlocks.allocation ports [] s) with e | t
          · rw [hp, hl] at h
            exact ih (hl.trans h)
          · rw [hp, hl] at h
            cases h
    exact hbad ports hm
  · obtain ⟨m, hm⟩ := placeRest_of_stuck hstuck
    rw [hm]
    exact iff_of_true ⟨m, rfl⟩ ⟨s, b, rfl⟩

/-! ## Blocks in the order of their sizes -/

/-- With no block smaller than one before it, what is behind the cursor has no room for any that is
left. -/
theorem swept_of_stuck (hsizes : (l.map Prod.snd).Pairwise (· ≤ ·)) (hall : ∀ b ∈ l, m ≤ b.2)
    (hswept : Swept s.taken pool.start cursor m)
    (h : stuckAt ports pool s cursor l = some (s', b)) :
    Swept s'.taken pool.start (pool.last + 2 - b.2) b.2 := by
  induction l generalizing s cursor m with
  | nil => cases h
  | cons e rest ih =>
    rw [List.map_cons, List.pairwise_cons] at hsizes
    have hrest : ∀ b ∈ rest, e.2 ≤ b.2 := fun b hb => hsizes.1 _ (List.mem_map_of_mem hb)
    have hm := hall e List.mem_cons_self
    rw [stuckAt] at h
    rcases hplace : placeBlock ports pool s cursor e with _ | ⟨s₁, cursor₁⟩
    · rw [hplace] at h
      obtain ⟨rfl, rfl⟩ := Prod.mk.inj (Option.some.inj h)
      intro x hlo hhi
      rcases Nat.lt_or_ge x cursor with hlt | hge
      · exact hswept.mono hm (fun _ hx => hx) x hlo hlt
      · exact placeBlock_eq_none hplace x hge hhi
    · rw [hplace] at h
      have hold : Swept s.taken pool.start cursor e.2 := hswept.mono hm fun _ hx => hx
      rcases placeBlock_eq_some hplace with ⟨rfl, rfl⟩ | ⟨start, rfl, rfl | ⟨rfl, -, hnew⟩⟩
      · exact ih hsizes.2 hrest hold h
      · exact ih hsizes.2 hrest (hold.mono le_rfl fun _ hx => List.mem_append_left _ hx) h
      · have hbehind : Swept s.taken pool.start cursor₁ e.2 := by
          intro x hlo hhi
          rcases Nat.lt_or_ge x cursor with hlt | hge
          · exact hold x hlo hlt
          · exact hnew x hge hhi
        exact ih hsizes.2 hrest (hbehind.mono le_rfl fun _ hx => List.mem_append_left _ hx) h

theorem noRoom_of_swept (hpool : poolOk pool)
    (h : Swept taken pool.start (pool.last + 2 - n) n) : NoRoom pool taken n := by
  intro x hlo hhi
  obtain ⟨y, hy, hbad⟩ := blockFree_false_iff.mp (h x hlo (by omega))
  have hy' := List.mem_range'_1.mp hy
  obtain ⟨hstart, -, hlast, -⟩ := hpool
  refine ⟨y, hy, ?_⟩
  by_contra hfree
  exact hbad ⟨by omega, by omega, hfree⟩

/-! ## A smaller block after a larger one -/

/-- No port of the template has its default in the pool. -/
def Apart (ports : List TemplatePort) (pool : Pool) : Prop :=
  ∀ p ∈ ports, p.default < pool.start ∨ pool.last < p.default

/-- The ports taken so far are those from the pool's start up to `next`, and one further, `u`. -/
structure InRow (pool : Pool) (u : ℕ) (s : Placed) (cursor next : ℕ) : Prop where
  mem_taken : ∀ x, x ∈ s.taken ↔ x = u ∨ (pool.start ≤ x ∧ x < next)
  start_le : pool.start ≤ cursor
  le_next : cursor ≤ next

theorem defaultFree_of_apart (hpool : poolOk pool) (hapart : Apart ports pool) (name : String)
    (hn : 1 ≤ n) :
    defaultFree taken pool (((byName ports name).map (·.default)).getD 0) n = false := by
  have hlow : (((byName ports name).map (·.default)).getD 0) < pool.start ∨
      pool.last < ((byName ports name).map (·.default)).getD 0 := by
    rcases hb : byName ports name with _ | p
    · exact .inl (by rw [Option.map_none, Option.getD_none]; exact Nat.lt_of_lt_of_le (by decide) hpool.1)
    · exact hapart p (Ports.of_byName hb).1
  rw [defaultFree, Bool.eq_false_iff, ne_eq, Bool.and_eq_true, Bool.and_eq_true, decide_eq_true_eq,
    decide_eq_true_eq]
  omega

/-- A block goes to the first place from the cursor on that is free. -/
theorem placeBlock_at (hpool : poolOk pool) (hapart : Apart ports pool)
    (hnew : s.first.lookup b.1 = none) (hn : 1 ≤ b.2) {c : ℕ} (hc : cursor ≤ c)
    (hlast : c + b.2 ≤ pool.last + 1) (hswept : Swept s.taken cursor c b.2) (hlow : pool.start ≤ c)
    (hfree : ∀ x, c ≤ x → x < c + b.2 → x ∉ s.taken) :
    placeBlock ports pool s cursor b = some (s.take b.1 c b.2, c) := by
  have hnext : nextFree s.taken pool cursor b.2 = some c := by
    refine List.find?_range'_eq_some.mpr ⟨?_, List.mem_range'_1.mpr (by omega), fun j hj hlt => ?_⟩
    · refine Ports.blockFree_iff.mpr fun x hx => ?_
      rw [List.mem_range'_1] at hx
      obtain ⟨hstart, -, hhigh, -⟩ := hpool
      exact ⟨by omega, by omega, hfree x hx.1 hx.2⟩
    · rw [hswept j hj hlt]
      rfl
  rw [placeBlock, hnew]
  simp only [Option.isSome_none, Bool.false_eq_true, if_false,
    defaultFree_of_apart hpool hapart b.1 hn, hnext, Option.map_some]

/-- In a row, the next block goes right behind the last. -/
theorem placeBlock_inRow (hpool : poolOk pool) (hapart : Apart ports pool)
    (hrow : InRow pool u s cursor next) (hnew : s.first.lookup b.1 = none) (hn : 1 ≤ b.2)
    (hu : next + b.2 ≤ u) (hlast : u ≤ pool.last) :
    placeBlock ports pool s cursor b = some (s.take b.1 next b.2, next) ∧
      InRow pool u (s.take b.1 next b.2) next (next + b.2) := by
  obtain ⟨hmem, hlo, hle⟩ := hrow
  refine ⟨placeBlock_at hpool hapart hnew hn hle (by omega) ?_ (hlo.trans hle) ?_,
    fun x => ?_, hlo.trans hle, Nat.le_add_right _ _⟩
  · intro x hx hlt
    refine blockFree_false_iff.mpr ⟨x, List.mem_range'_1.mpr (by omega), fun hgood => hgood.2.2 ?_⟩
    exact (hmem x).mpr (.inr ⟨hlo.trans hx, hlt⟩)
  · intro x hx hlt hin
    rcases (hmem x).mp hin with rfl | ⟨-, hback⟩ <;> omega
  · rw [Placed.take, List.mem_append, hmem, List.mem_range'_1]
    omega

/-- All the ports of some blocks. -/
def total (l : List (String × ℕ)) : ℕ := (l.map Prod.snd).sum

theorem total_append (l l' : List (String × ℕ)) : total (l ++ l') = total l + total l' := by
  rw [total, List.map_append, List.sum_append]
  rfl

theorem total_cons (b : String × ℕ) (l : List (String × ℕ)) : total (b :: l) = b.2 + total l := by
  rw [total, List.map_cons, List.sum_cons]
  rfl

theorem lookup_take_of_ne {k name : String} {start : ℕ} (hne : k ≠ name) :
    (s.take name start n).first.lookup k = s.first.lookup k := by
  rw [Placed.take, List.lookup_cons, beq_eq_false_iff_ne.mpr hne]

/-- A row of blocks is passed, with the others still to be placed. -/
theorem stuckAt_inRow (hpool : poolOk pool) (hapart : Apart ports pool) (hlast : u ≤ pool.last)
    (rest : List (String × ℕ)) (hnodup : ((l ++ rest).map Prod.fst).Nodup)
    (hnew : ∀ b ∈ l ++ rest, s.first.lookup b.1 = none) (hpos : ∀ b ∈ l, 1 ≤ b.2)
    (hrow : InRow pool u s cursor next) (hu : next + total l ≤ u) :
    ∃ s' cursor', stuckAt ports pool s cursor (l ++ rest) = stuckAt ports pool s' cursor' rest ∧
      InRow pool u s' cursor' (next + total l) ∧ ∀ b ∈ rest, s'.first.lookup b.1 = none := by
  induction l generalizing s cursor next with
  | nil => exact ⟨s, cursor, rfl, hrow, hnew⟩
  | cons b l ih =>
    rw [total_cons] at hu
    rw [List.cons_append, List.map_cons, List.nodup_cons] at hnodup
    obtain ⟨hplace, hrow'⟩ := placeBlock_inRow hpool hapart hrow (hnew b List.mem_cons_self)
      (hpos b List.mem_cons_self) (by omega) hlast
    have hother : ∀ c ∈ l ++ rest, (s.take b.1 next b.2).first.lookup c.1 = none := by
      intro c hc
      have hne : c.1 ≠ b.1 := fun heq => hnodup.1 (List.mem_map.mpr ⟨c, hc, heq⟩)
      rw [lookup_take_of_ne hne]
      exact hnew c (List.mem_cons_of_mem _ hc)
    obtain ⟨s', cursor', hstuck, hend, hkeep⟩ := ih hnodup.2 hother
      (fun c hc => hpos c (List.mem_cons_of_mem _ hc)) hrow' (by omega)
    refine ⟨s', cursor', ?_, ?_, hkeep⟩
    · rw [List.cons_append, stuckAt, hplace]
      exact hstuck
    · rw [total_cons, ← Nat.add_assoc]
      exact hend

/-- Of two blocks the second is smaller: where a gap of its size is followed by a used port and by room
for the first alone, it is stuck with the gap free. -/
theorem stuckAt_smaller (hpool : poolOk pool) (hapart : Apart ports pool)
    (hnew : ∀ c ∈ b :: b' :: rest, s.first.lookup c.1 = none) (hne : b'.1 ≠ b.1) (hpos : 1 ≤ b'.2)
    (hless : b'.2 < b.2) (hrow : InRow pool u s cursor next) (hu : u = next + b'.2)
    (hlast : pool.last = u + b.2) :
    ∃ s', stuckAt ports pool s cursor (b :: b' :: rest) = some (s', b') ∧
      ¬ NoRoom pool s'.taken b'.2 := by
  obtain ⟨hmem, hlo, hle⟩ := hrow
  have hfirst : placeBlock ports pool s cursor b = some (s.take b.1 (u + 1) b.2, u + 1) := by
    refine placeBlock_at hpool hapart (hnew b List.mem_cons_self) (by omega) (by omega) (by omega) ?_
      (by omega) ?_
    · intro x hx hlt
      -- a place before the used port would have it in its middle
      rcases Nat.lt_or_ge x next with hback | hgap
      · refine blockFree_false_iff.mpr ⟨x, List.mem_range'_1.mpr (by omega), fun hgood => hgood.2.2 ?_⟩
        exact (hmem x).mpr (.inr ⟨hlo.trans hx, hback⟩)
      · refine blockFree_false_iff.mpr ⟨u, List.mem_range'_1.mpr (by omega), fun hgood => hgood.2.2 ?_⟩
        exact (hmem u).mpr (.inl rfl)
    · intro x hx hlt hin
      rcases (hmem x).mp hin with rfl | ⟨-, hback⟩ <;> omega
  have hfull : nextFree (s.take b.1 (u + 1) b.2).taken pool (u + 1) b'.2 = none := by
    refine List.find?_range'_eq_none.mpr fun x hx hlt => ?_
    rw [Bool.not_eq_true', blockFree_false_iff]
    refine ⟨x, List.mem_range'_1.mpr (by omega), fun hgood => hgood.2.2 ?_⟩
    exact List.mem_append_right _ (List.mem_range'_1.mpr (by omega))
  have hsecond : placeBlock ports pool (s.take b.1 (u + 1) b.2) (u + 1) b' = none := by
    rw [placeBlock, lookup_take_of_ne hne, hnew b' (List.mem_cons_of_mem _ List.mem_cons_self)]
    simp only [Option.isSome_none, Bool.false_eq_true, if_false,
      defaultFree_of_apart hpool hapart b'.1 hpos, hfull, Option.map_none]
  refine ⟨s.take b.1 (u + 1) b.2, by rw [stuckAt, hfirst]; simp only; rw [stuckAt, hsecond], fun hno => ?_⟩
  obtain ⟨y, hy, htaken⟩ := hno next (by omega) (by omega)
  rw [List.mem_range'_1] at hy
  rcases List.mem_append.mp htaken with hold | hblock
  · rcases (hmem y).mp hold with rfl | ⟨-, hback⟩ <;> omega
  · rw [List.mem_range'_1] at hblock
    omega

/-- There are more places for a pool than ports: one of them has no port's default in it. -/
theorem exists_apart (hcount : ports.length ≤ 32) {w : ℕ} (hw : 1 ≤ w) (hsmall : w ≤ 1500) :
    ∃ lo, 1024 ≤ lo ∧ lo + w ≤ 65535 ∧ Apart ports ⟨lo, lo + w - 1⟩ := by
  have hcard : ((ports.map fun p => (p.default - 1024) / w).toFinset).card < (Finset.range 33).card := by
    refine (List.toFinset_card_le _).trans_lt ?_
    rw [List.length_map, Finset.card_range]
    omega
  obtain ⟨t, ht, hno⟩ := Finset.exists_mem_notMem_of_card_lt_card hcard
  rw [Finset.mem_range] at ht
  have htw : t * w ≤ 32 * 1500 := Nat.mul_le_mul (by omega) hsmall
  refine ⟨1024 + t * w, Nat.le_add_right _ _, by omega, fun p hp => ?_⟩
  by_contra hin
  rw [not_or, Nat.not_lt, Nat.not_lt] at hin
  obtain ⟨hlow, hhigh⟩ := hin
  refine hno (List.mem_toFinset.mpr (List.mem_map.mpr ⟨p, hp, ?_⟩))
  show (p.default - 1024) / w = t
  rw [Nat.div_eq_iff (by omega)]
  change 1024 + t * w ≤ p.default at hlow
  change p.default ≤ 1024 + t * w + w - 1 at hhigh
  omega

theorem total_blocks_le (hports : Ports.portsOk [] ports = true) (hcount : ports.length ≤ 32)
    (choices : List (String × ℕ)) : total (blocks ports choices) ≤ 1056 := by
  have hsub := PortBlocks.blocks_sublist ports choices
  have hnodup : ((blocks ports choices).map Prod.fst).Nodup :=
    (Ports.sizes_spec ports).1.sublist (hsub.map _)
  have hkeys : ((blocks ports choices).map Prod.fst) ⊆ ports.map (·.name) := by
    intro k hk
    obtain ⟨b, hb, rfl⟩ := List.mem_map.mp hk
    obtain ⟨⟨p, hp, hname⟩, -⟩ := PortBlocks.mem_sizes (hsub.subset hb)
    exact List.mem_map.mpr ⟨_, (PortBlocks.headOf_mem hports hp).1, hname.symm⟩
  have hlen := (List.subperm_of_subset hnodup hkeys).length_le
  rw [List.length_map, List.length_map] at hlen
  have hsum : total (blocks ports choices) ≤ ((blocks ports choices).map Prod.snd).length • 33 := by
    refine List.sum_le_card_nsmul _ _ fun n hn => ?_
    obtain ⟨b, hb, rfl⟩ := List.mem_map.mp hn
    have := (PortBlocks.mem_sizes (hsub.subset hb)).2.2
    omega
  rw [List.length_map, nsmul_eq_mul, Nat.cast_id] at hsum
  omega

/-- `no free ports` is thrown only where the pool has no room, in every pool and whatever is used, just
when no block of the template is smaller than one before it. -/
theorem allocatePorts_throws_iff (hports : templatePorts ports = true) :
    (∀ pool used, poolOk pool → ThrowsRightly ports used pool) ↔
      ((blocks ports []).map Prod.snd).Pairwise (· ≤ ·) := by
  obtain ⟨hcount, -, hok⟩ := PortBlocks.templatePorts_spec hports
  have hsub := PortBlocks.blocks_sublist ports []
  have hpos : ∀ b ∈ blocks ports [], 1 ≤ b.2 := fun b hb =>
    (PortBlocks.mem_sizes (hsub.subset hb)).2.1
  constructor
  · intro hall
    by_contra hdown
    -- two blocks next to each other, the second smaller
    rw [← List.isChain_iff_pairwise, List.isChain_iff_forall_rel_of_append_cons_cons] at hdown
    obtain ⟨n, m, l₁, l₂, heq, hless⟩ : ∃ n m l₁ l₂,
        (blocks ports []).map Prod.snd = l₁ ++ n :: m :: l₂ ∧ m < n := by
      by_contra hno
      refine hdown fun n m l₁ l₂ heq => ?_
      by_contra hlt
      exact hno ⟨n, m, l₁, l₂, heq, Nat.lt_of_not_le hlt⟩
    obtain ⟨k, tail, hblocks, -, htail⟩ := List.map_eq_append_iff.mp heq
    obtain ⟨b, tail', rfl, rfl, htail'⟩ := List.map_eq_cons_iff.mp htail
    obtain ⟨b', rest, rfl, rfl, -⟩ := List.map_eq_cons_iff.mp htail'
    have hbig := total_blocks_le hok hcount []
    rw [hblocks, total_append, total_cons, total_cons] at hbig
    obtain ⟨lo, hlo, hhi, hapart⟩ :=
      exists_apart hcount (show 1 ≤ total k + b'.2 + b.2 + 1 by omega) (by omega)
    have hnodup : ((blocks ports []).map Prod.fst).Nodup :=
      (Ports.sizes_spec ports).1.sublist (hsub.map _)
    rw [hblocks] at hnodup hpos
    have hpool : poolOk ⟨lo, lo + (total k + b'.2 + b.2 + 1) - 1⟩ := by
      refine ⟨hlo, ?_, ?_, ?_⟩ <;> simp only <;> omega
    have hrow : InRow ⟨lo, lo + (total k + b'.2 + b.2 + 1) - 1⟩ (lo + total k + b'.2)
        ⟨[lo + total k + b'.2], []⟩ lo lo :=
      ⟨fun x => by rw [List.mem_singleton]; simp only; omega, le_rfl, le_rfl⟩
    obtain ⟨s, cursor, hstuck, hend, hnew⟩ := stuckAt_inRow hpool hapart (by simp only; omega)
      (b :: b' :: rest) hnodup (fun _ _ => rfl) (fun c hc => hpos c (List.mem_append_left _ hc)) hrow
      (by omega)
    have hne : b'.1 ≠ b.1 := by
      rw [List.map_append, List.nodup_append] at hnodup
      have hpair := hnodup.2.1
      rw [List.map_cons, List.map_cons, List.nodup_cons] at hpair
      exact fun heq => hpair.1 (heq ▸ List.mem_cons_self)
    obtain ⟨s', hstuck', hroom⟩ := stuckAt_smaller hpool hapart hnew hne
      (hpos b' (List.mem_append_right _ (List.mem_cons_of_mem _ List.mem_cons_self))) hless hend rfl
      (by simp only; omega)
    have hstop := hstuck.trans hstuck'
    rw [← hblocks] at hstop
    obtain ⟨e, he⟩ := allocatePorts_conflict_iff.mpr ⟨s', b', hstop⟩
    obtain ⟨s₂, b₂, hsame, hno⟩ := hall _ _ hpool e he
    obtain ⟨rfl, rfl⟩ := Prod.mk.inj (Option.some.inj (hsame.symm.trans hstop))
    exact hroom hno
  · intro hsizes pool used hpool m hm
    obtain ⟨s, b, hstuck⟩ := allocatePorts_conflict_iff.mp ⟨m, hm⟩
    refine ⟨s, b, hstuck, noRoom_of_swept hpool ?_⟩
    refine swept_of_stuck hsizes hpos (fun x hlo hhi => ?_) hstuck
    exact absurd hhi (Nat.not_lt.mpr hlo)

/-- A port by itself and then a game's port with the one after it. -/
def queryFirst : List TemplatePort :=
  [⟨"query", "Query", .udp, 27015, false, none⟩, ⟨"game", "Game", .both, 26900, true, none⟩,
    ⟨"game_2", "Game 2", .udp, 26901, false, some "game"⟩]

theorem allocatePorts_throws_queryFirst : ThrowsRightly queryFirst [30001] ⟨30000, 30003⟩ :=
  (allocatePorts_throws_iff (by decide +kernel)).mpr (by decide +kernel) _ _
    ⟨by decide, by decide, by decide, by decide⟩

/-- The same ports with the pair first. -/
def gameFirst : List TemplatePort :=
  [⟨"game", "Game", .both, 26900, true, none⟩, ⟨"game_2", "Game 2", .udp, 26901, false, some "game"⟩,
    ⟨"query", "Query", .udp, 27015, false, none⟩]

/-- With 30001 in use of four ports, the pair goes to the last two, and `query` is refused though 30000 is
free. -/
theorem allocatePorts_throws_gameFirst : templatePorts gameFirst = true ∧ poolOk ⟨30000, 30003⟩ ∧
    allocatePorts gameFirst [] [30001] ⟨30000, 30003⟩ =
      .error (.conflict "The node's port range 30000-30003 has no free ports left") ∧
    ¬ ThrowsRightly gameFirst [30001] ⟨30000, 30003⟩ := by
  have hrun : allocatePorts gameFirst [] [30001] ⟨30000, 30003⟩ =
      .error (.conflict "The node's port range 30000-30003 has no free ports left") := by decide +kernel
  refine ⟨by decide +kernel, ⟨by decide, by decide, by decide, by decide⟩, hrun, fun hright => ?_⟩
  obtain ⟨s, b, hstuck, hno⟩ := hright _ hrun
  have hwhere : (stuckAt gameFirst ⟨30000, 30003⟩ ⟨[30001], []⟩ 30000 (blocks gameFirst [])).map
      (fun r => (r.1.taken, r.2)) = some ([30001, 30002, 30003], "query", 1) := by decide +kernel
  rw [hstuck] at hwhere
  obtain ⟨htaken, rfl⟩ := Prod.mk.inj (Option.some.inj hwhere)
  obtain ⟨y, hy, hin⟩ := hno 30000 le_rfl (by decide)
  rw [htaken] at hin
  rw [List.mem_range'_1] at hy
  simp only [List.mem_cons, List.not_mem_nil, or_false] at hin
  omega

end Server.PortSearch
