import Gsm.Data.Assoc
import Gsm.Data.Paths
import Gsm.GoStd.Path

/-!
# JSON documents

A document over the numbers `N`: the literals of a text, or the numbers of a program. Decoding reads each
literal and encoding writes each number, and the rest of the document stays as it is.
-/

open Data Data.Paths

namespace GoStd

inductive Json (N : Type) where
  | null
  | bool (b : Bool)
  | num (n : N)
  | str (s : Str)
  | arr (l : List (Json N))
  | obj (m : List (Str × Json N))

namespace Json

variable {N M : Type}

mutual

/-- The document with its numbers written another way. -/
def mapNum (g : N → M) : Json N → Json M
  | .null => .null
  | .bool b => .bool b
  | .num n => .num (g n)
  | .str s => .str s
  | .arr l => .arr (mapElems g l)
  | .obj m => .obj (mapMembers g m)

def mapElems (g : N → M) : List (Json N) → List (Json M)
  | [] => []
  | j :: l => mapNum g j :: mapElems g l

def mapMembers (g : N → M) : List (Str × Json N) → List (Str × Json M)
  | [] => []
  | (k, j) :: m => (k, mapNum g j) :: mapMembers g m

end

mutual

/-- The document with its numbers read, if all of them can be. -/
def readNum (g : N → Option M) : Json N → Option (Json M)
  | .null => some .null
  | .bool b => some (.bool b)
  | .num n => (g n).map .num
  | .str s => some (.str s)
  | .arr l => (readElems g l).map .arr
  | .obj m => (readMembers g m).map .obj

def readElems (g : N → Option M) : List (Json N) → Option (List (Json M))
  | [] => some []
  | j :: l => (readNum g j).bind fun v => (readElems g l).map (v :: ·)

def readMembers (g : N → Option M) : List (Str × Json N) → Option (List (Str × Json M))
  | [] => some []
  | (k, j) :: m => (readNum g j).bind fun v => (readMembers g m).map ((k, v) :: ·)

end

mutual

/-- The numbers in a document. -/
def numbers : Json N → List N
  | .null => []
  | .bool _ => []
  | .num n => [n]
  | .str _ => []
  | .arr l => elemNumbers l
  | .obj m => memberNumbers m

def elemNumbers : List (Json N) → List N
  | [] => []
  | j :: l => numbers j ++ elemNumbers l

def memberNumbers : List (Str × Json N) → List N
  | [] => []
  | (_, j) :: m => numbers j ++ memberNumbers m

end

/-! ## Objects -/

def members : Option (Json N) → List (Str × Json N)
  | some (.obj m) => m
  | _ => []

def child : Json N → Str → Option (Json N)
  | .obj m, k => m.lookup k
  | _, _ => none

/-- What is no object is replaced by one. -/
def put (o : Option (Json N)) (k : Str) (v : Json N) : Json N := .obj (Assoc.insert (members o) k v)

theorem bind_child (o : Option (Json N)) (k : Str) : o.bind (child · k) = (members o).lookup k := by
  rcases o with _ | j
  · rfl
  · rcases j with _ | _ | _ | _ | _ | _ <;> rfl

/-- Documents as trees with keys. -/
def keyed (N : Type) : Keyed Str (Json N) where
  child := child
  put := put
  child_put_self _ _ _ := Assoc.lookup_insert_self _ _ _
  child_put_of_ne o j k v hne := by
    rw [bind_child]
    exact Assoc.lookup_insert_of_ne hne _ _

variable {g : N → M} {r : N → Option M} {w : M → N} {j : Json N} {v : Json M} {k : Str}
  {m : List (Str × Json N)} {m' : List (Str × Json M)}

/-! ## Writing numbers -/

mutual

/-- Written again, a document is what was read, just when each of its numbers is. -/
theorem mapNum_readNum (w : M → N) : ∀ (j : Json N) (v : Json M), readNum r j = some v →
    (mapNum w v = j ↔ ∀ n ∈ numbers j, ∀ f, r n = some f → w f = n)
  | .null, v, h => by
    cases h
    exact iff_of_true rfl fun _ h => (nomatch h)
  | .bool b, v, h => by
    cases h
    exact iff_of_true rfl fun _ h => (nomatch h)
  | .num n, v, h => by
    obtain ⟨f, hf, rfl⟩ := Option.map_eq_some_iff.mp h
    rw [mapNum, numbers]
    constructor
    · intro heq d hd f' hf'
      rw [List.mem_singleton.mp hd] at hf' ⊢
      rw [← Option.some.inj (hf.symm.trans hf')]
      exact Json.num.inj heq
    · intro hall
      rw [hall n List.mem_cons_self f hf]
  | .str s, v, h => by
    cases h
    exact iff_of_true rfl fun _ h => (nomatch h)
  | .arr l, v, h => by
    obtain ⟨l', hl, rfl⟩ := Option.map_eq_some_iff.mp h
    rw [mapNum, numbers, ← mapElems_readElems w l l' hl]
    exact ⟨fun heq => Json.arr.inj heq, fun heq => congrArg Json.arr heq⟩
  | .obj m, v, h => by
    obtain ⟨m', hm, rfl⟩ := Option.map_eq_some_iff.mp h
    rw [mapNum, numbers, ← mapMembers_readMembers w m m' hm]
    exact ⟨fun heq => Json.obj.inj heq, fun heq => congrArg Json.obj heq⟩

theorem mapElems_readElems (w : M → N) : ∀ (l : List (Json N)) (l' : List (Json M)), readElems r l = some l' →
    (mapElems w l' = l ↔ ∀ n ∈ elemNumbers l, ∀ f, r n = some f → w f = n)
  | [], l', h => by
    cases h
    exact iff_of_true rfl fun _ h => (nomatch h)
  | j :: l, l', h => by
    obtain ⟨v, hv, hmap⟩ := Option.bind_eq_some_iff.mp h
    obtain ⟨l'', hl, rfl⟩ := Option.map_eq_some_iff.mp hmap
    rw [mapElems, elemNumbers, List.forall_mem_append, ← mapNum_readNum w j v hv,
      ← mapElems_readElems w l l'' hl, List.cons.injEq]

theorem mapMembers_readMembers (w : M → N) : ∀ (m : List (Str × Json N)) (m' : List (Str × Json M)),
    readMembers r m = some m' → (mapMembers w m' = m ↔ ∀ n ∈ memberNumbers m, ∀ f, r n = some f → w f = n)
  | [], m', h => by
    cases h
    exact iff_of_true rfl fun _ h => (nomatch h)
  | (k, j) :: m, m', h => by
    obtain ⟨v, hv, hmap⟩ := Option.bind_eq_some_iff.mp h
    obtain ⟨m'', hm, rfl⟩ := Option.map_eq_some_iff.mp hmap
    rw [mapMembers, memberNumbers, List.forall_mem_append, ← mapNum_readNum w j v hv,
      ← mapMembers_readMembers w m m'' hm, List.cons.injEq, Prod.mk.injEq, and_iff_right rfl]

end

/-! ## Where the numbers are -/

end Json

end GoStd
