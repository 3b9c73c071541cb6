import Mathlib.Data.List.Nodup
import Mathlib.Data.List.Perm.Basic

/-!
# Maps as lists of keys and values

A map is a list without a key twice. `lookup` finds what is in it, and `erase` takes a key away.
-/

namespace Data.Assoc

variable {κ α : Type*} [BEq κ] [LawfulBEq κ] {m : List (κ × α)} {k k' : κ} {v : α}

theorem mem_of_lookup (h : m.lookup k = some v) : (k, v) ∈ m := by
  obtain ⟨before, after, rfl, -⟩ := List.lookup_eq_some_iff.mp h
  exact List.mem_append_right _ List.mem_cons_self

theorem lookup_eq_none_iff : m.lookup k = none ↔ k ∉ m.map Prod.fst := by
  rw [List.lookup_eq_none_iff, List.mem_map]
  constructor
  · rintro hall ⟨e, he, rfl⟩
    exact absurd (hall e he) (by simp)
  · intro hno e he
    exact bne_iff_ne.mpr fun heq => hno ⟨e, he, heq.symm⟩

theorem lookup_of_mem (hnodup : (m.map Prod.fst).Nodup) (h : (k, v) ∈ m) : m.lookup k = some v := by
  induction m with
  | nil => cases h
  | cons e m ih =>
    obtain ⟨a, b⟩ := e
    rw [List.map_cons, List.nodup_cons] at hnodup
    rcases List.mem_cons.mp h with heq | hmem
    · obtain ⟨rfl, rfl⟩ := Prod.mk.inj heq
      exact List.lookup_cons_self
    · have hne : (k == a) = false :=
        beq_eq_false_iff_ne.mpr fun heq => hnodup.1 (List.mem_map.mpr ⟨(k, v), hmem, heq⟩)
      rw [List.lookup_cons, hne]
      exact ih hnodup.2 hmem

/-- `delete(m, k)` -/
def erase (m : List (κ × α)) (k : κ) : List (κ × α) := m.filter fun e => !(e.1 == k)

theorem mem_erase {e : κ × α} : e ∈ erase m k ↔ e ∈ m ∧ e.1 ≠ k := by
  rw [erase, List.mem_filter, Bool.not_eq_true', beq_eq_false_iff_ne]

omit [LawfulBEq κ] in
theorem nodup_erase (h : (m.map Prod.fst).Nodup) (k : κ) : ((erase m k).map Prod.fst).Nodup :=
  h.sublist (List.filter_sublist.map _)

theorem lookup_erase_self (m : List (κ × α)) (k : κ) : (erase m k).lookup k = none := by
  rw [lookup_eq_none_iff]
  intro hmem
  obtain ⟨e, he, hk⟩ := List.mem_map.mp hmem
  exact (mem_erase.mp he).2 hk

theorem lookup_erase_of_ne (hne : k ≠ k') : (erase m k').lookup k = m.lookup k := by
  induction m with
  | nil => rfl
  | cons e m ih =>
    obtain ⟨a, b⟩ := e
    rw [erase, List.filter_cons]
    by_cases ha : a = k'
    · subst ha
      rw [if_neg (by simp), List.lookup_cons, beq_eq_false_iff_ne.mpr hne]
      exact ih
    · rw [if_pos (by simpa using ha), List.lookup_cons, List.lookup_cons]
      split
      · rfl
      · exact ih

theorem erase_of_lookup (h : m.lookup k = none) : erase m k = m := by
  rw [lookup_eq_none_iff] at h
  refine List.filter_eq_self.mpr fun e he => ?_
  rw [Bool.not_eq_true', beq_eq_false_iff_ne]
  exact fun heq => h (List.mem_map.mpr ⟨e, he, heq⟩)

/-- Of a map's entries in another order, the first can be looked up, and the others are what is left. -/
theorem erase_perm {e : κ × α} {l : List (κ × α)} (hnodup : (m.map Prod.fst).Nodup) (h : m.Perm (e :: l)) :
    m.lookup e.1 = some e.2 ∧ (erase m e.1).Perm l := by
  refine ⟨lookup_of_mem hnodup (h.mem_iff.mpr List.mem_cons_self), ?_⟩
  have hrest := h.filter fun x => !(x.1 == e.1)
  rw [List.filter_cons, if_neg (by simp)] at hrest
  have hnodup' := (h.map Prod.fst).nodup_iff.mp hnodup
  rw [List.map_cons, List.nodup_cons] at hnodup'
  have hkeep : l.filter (fun x => !(x.1 == e.1)) = l := by
    refine List.filter_eq_self.mpr fun x hx => ?_
    rw [Bool.not_eq_true', beq_eq_false_iff_ne]
    exact fun heq => hnodup'.1 (List.mem_map.mpr ⟨x, hx, heq⟩)
  rw [hkeep] at hrest
  exact hrest

/-- `m[k] = v` -/
def insert (m : List (κ × α)) (k : κ) (v : α) : List (κ × α) :=
  match m with
  | [] => [(k, v)]
  | e :: m => if e.1 == k then (k, v) :: m else e :: insert m k v

theorem lookup_insert_self (m : List (κ × α)) (k : κ) (v : α) : (insert m k v).lookup k = some v := by
  induction m with
  | nil => exact List.lookup_cons_self
  | cons e m ih =>
    obtain ⟨a, b⟩ := e
    rw [insert]
    split
    · exact List.lookup_cons_self
    · next hne =>
      have hka : (k == a) = false := beq_eq_false_iff_ne.mpr fun heq => hne (beq_iff_eq.mpr heq.symm)
      rw [List.lookup_cons, hka]
      exact ih

theorem lookup_insert_of_ne (hne : k' ≠ k) (m : List (κ × α)) (v : α) :
    (insert m k v).lookup k' = m.lookup k' := by
  have hk : (k' == k) = false := beq_eq_false_iff_ne.mpr hne
  induction m with
  | nil => rw [insert, List.lookup_cons, hk]
  | cons e m ih =>
    obtain ⟨a, b⟩ := e
    rw [insert]
    split
    · next heq =>
      have ha : a = k := beq_iff_eq.mp heq
      rw [List.lookup_cons, List.lookup_cons, ha, hk]
    · rw [List.lookup_cons, List.lookup_cons, ih]

/-- What is put in for a key last is what is found. -/
theorem lookup_foldl_insert {β : Type*} (f : β → κ) (g : β → α) (l : List β) (m : List (κ × α)) (k : κ) :
    (l.foldl (fun m x => insert m (f x) (g x)) m).lookup k =
      ((l.reverse.find? fun x => f x == k).map g).or (m.lookup k) := by
  induction l generalizing m with
  | nil => rfl
  | cons x l ih =>
    rw [List.foldl_cons, ih, List.reverse_cons, List.find?_append, List.find?_singleton]
    rcases l.reverse.find? fun x => f x == k with _ | y
    · by_cases hx : f x = k
      · rw [hx, lookup_insert_self, beq_self_eq_true]
        rfl
      · rw [lookup_insert_of_ne (Ne.symm hx), beq_eq_false_iff_ne.mpr hx]
        rfl
    · rfl

-- the equations that later modules rewrite with, stated here once
attribute [local simp] Data.Assoc.insert Data.Assoc.insert.eq_def

end Data.Assoc
