import Gsm.Posix.Tree

/-!
# Path lookup

`walk` follows a path through a tree the way a kernel does: component by component, expanding
symbolic links where they stand, giving up after a fixed number of links. It is parameterised by
what lookup sees (`look`), by whether a link in the last component is followed, and by the number
of links allowed, so one definition serves `stat`, `lstat` and user-space resolvers with their own
limit.
-/

namespace Posix

variable {α β : Type*}

inductive Errno where
  | noent
  | exist
  | notDir
  | isDir
  | inval
  | notEmpty
  | loop
  | nxio
deriving DecidableEq

/-- Where a walk ends: at a node, at a free name of a directory, or with an error. -/
inductive Walk (α : Type*) where
  | found (l : Loc α)
  | absent (d : Loc α) (n : α)
  | fail (e : Errno)
deriving DecidableEq

/-- The walk up to the next link; `onLink` continues behind it. -/
def walkSegs (look : Loc α → Option (Shape α)) (follow : Bool)
    (onLink : Loc α → List (Seg α) → Walk α) : Loc α → List (Seg α) → Walk α
  | cur, [] => .found cur
  | cur, .here :: rest => walkSegs look follow onLink cur rest
  | cur, .up :: rest => walkSegs look follow onLink cur.dropLast rest
  | cur, .name n :: rest =>
      match look (cur ++ [n]) with
      | none => if rest = [] then .absent cur n else .fail .noent
      | some .dir => walkSegs look follow onLink (cur ++ [n]) rest
      | some .leaf => if rest = [] then .found (cur ++ [n]) else .fail .notDir
      | some (.link t) =>
          if rest = [] ∧ follow = false then .found (cur ++ [n])
          else onLink (if t.absolute then [] else cur) (t.segs ++ rest)

/-- Lookup with at most `k` links expanded. -/
def walk (look : Loc α → Option (Shape α)) (follow : Bool) : ℕ → Loc α → List (Seg α) → Walk α
  | 0 => walkSegs look follow fun _ _ => .fail .loop
  | k + 1 => walkSegs look follow (walk look follow k)

/-- What `walk k` does behind a link. -/
def behindLink (look : Loc α → Option (Shape α)) (follow : Bool) :
    ℕ → Loc α → List (Seg α) → Walk α
  | 0 => fun _ _ => .fail .loop
  | k + 1 => walk look follow k

theorem walk_eq (look : Loc α → Option (Shape α)) (follow : Bool) (k : ℕ) :
    walk look follow k = walkSegs look follow (behindLink look follow k) := by
  cases k <;> rfl

variable {look look' : Loc α → Option (Shape α)} {follow : Bool} {k : ℕ} {cur : Loc α}
  {rest todo : List (Seg α)}

@[simp] theorem walk_nil : walk look follow k cur [] = .found cur := by
  rw [walk_eq]
  rfl

@[simp] theorem walk_here : walk look follow k cur (.here :: rest) = walk look follow k cur rest := by
  rw [walk_eq]
  rfl

@[simp] theorem walk_up :
    walk look follow k cur (.up :: rest) = walk look follow k cur.dropLast rest := by
  rw [walk_eq]
  rfl

theorem walk_name {n : α} : walk look follow k cur (.name n :: rest) =
    match look (cur ++ [n]) with
    | none => if rest = [] then .absent cur n else .fail .noent
    | some .dir => walk look follow k (cur ++ [n]) rest
    | some .leaf => if rest = [] then .found (cur ++ [n]) else .fail .notDir
    | some (.link t) =>
        if rest = [] ∧ follow = false then .found (cur ++ [n])
        else behindLink look follow k (if t.absolute then [] else cur) (t.segs ++ rest) := by
  rw [walk_eq]
  rfl

theorem walk_none {n : α} (h : look (cur ++ [n]) = none) :
    walk look follow k cur (.name n :: rest) =
      if rest = [] then .absent cur n else .fail .noent := by
  rw [walk_name, h]

theorem walk_dir {n : α} (h : look (cur ++ [n]) = some .dir) :
    walk look follow k cur (.name n :: rest) = walk look follow k (cur ++ [n]) rest := by
  rw [walk_name, h]

theorem walk_leaf {n : α} (h : look (cur ++ [n]) = some .leaf) :
    walk look follow k cur (.name n :: rest) =
      if rest = [] then .found (cur ++ [n]) else .fail .notDir := by
  rw [walk_name, h]

theorem walk_link {n : α} {t : Target α} (h : look (cur ++ [n]) = some (.link t)) :
    walk look follow k cur (.name n :: rest) =
      if rest = [] ∧ follow = false then .found (cur ++ [n])
      else behindLink look follow k (if t.absolute then [] else cur) (t.segs ++ rest) := by
  rw [walk_name, h]

/-- Induction along a walk: the four plain moves, and a link expanded with one less allowed. -/
theorem walk_induction (look : Loc α → Option (Shape α))
    {motive : ℕ → Loc α → List (Seg α) → Prop}
    (nil : ∀ k cur, motive k cur [])
    (here : ∀ k cur rest, motive k cur rest → motive k cur (.here :: rest))
    (up : ∀ k cur rest, motive k cur.dropLast rest → motive k cur (.up :: rest))
    (none : ∀ k cur n rest, look (cur ++ [n]) = none → motive k cur (.name n :: rest))
    (dir : ∀ k cur n rest, look (cur ++ [n]) = some .dir → motive k (cur ++ [n]) rest →
      motive k cur (.name n :: rest))
    (leaf : ∀ k cur n rest, look (cur ++ [n]) = some .leaf → motive k cur (.name n :: rest))
    (link : ∀ k cur n t rest, look (cur ++ [n]) = some (.link t) →
      (∀ j, k = j + 1 → motive j (if t.absolute then [] else cur) (t.segs ++ rest)) →
      motive k cur (.name n :: rest))
    (k : ℕ) (cur : Loc α) (todo : List (Seg α)) : motive k cur todo := by
  induction k using Nat.strong_induction_on generalizing cur todo with
  | _ k ihk =>
    induction todo generalizing cur with
    | nil => exact nil k cur
    | cons s rest ih =>
      cases s with
      | here => exact here k cur rest (ih cur)
      | up => exact up k cur rest (ih _)
      | name n =>
        match hl : look (cur ++ [n]) with
        | Option.none => exact none k cur n rest hl
        | some .dir => exact dir k cur n rest hl (ih _)
        | some .leaf => exact leaf k cur n rest hl
        | some (.link t) =>
          exact link k cur n t rest hl fun j hj => ihk j (by omega) _ _

/-- A walk that did not run out of links ends the same with more of them allowed. -/
theorem walk_more (j : ℕ) : ∀ k cur todo, walk look follow k cur todo ≠ .fail .loop →
    walk look follow (k + j) cur todo = walk look follow k cur todo := by
  intro k cur todo
  induction k, cur, todo using walk_induction look with
  | nil _ _ => simp
  | here _ _ _ ih => simpa using ih
  | up _ _ _ ih => simpa using ih
  | none k cur n rest hl =>
    intro _
    rw [walk_none hl, walk_none hl]
  | dir k cur n rest hl ih =>
    intro h
    rw [walk_dir hl] at h
    rw [walk_dir hl, walk_dir hl, ih h]
  | leaf k cur n rest hl =>
    intro _
    rw [walk_leaf hl, walk_leaf hl]
  | link k cur n t rest hl ih =>
    intro h
    rw [walk_link hl] at h
    rw [walk_link hl, walk_link hl]
    split
    · rfl
    · next hlast =>
      rw [if_neg hlast] at h
      cases k with
      | zero => exact absurd rfl h
      | succ k =>
        rw [show k + 1 + j = k + j + 1 by omega]
        exact ih k rfl h

/-- Looking up never fails with `EEXIST`. -/
theorem walk_ne_exist : ∀ k cur todo, walk look follow k cur todo ≠ .fail .exist := by
  intro k cur todo
  induction k, cur, todo using walk_induction look with
  | nil _ _ => simp
  | here _ _ _ ih => simpa using ih
  | up _ _ _ ih => simpa using ih
  | none k cur n rest hl => rw [walk_none hl]; split <;> simp
  | dir k cur n rest hl ih => rwa [walk_dir hl]
  | leaf k cur n rest hl => rw [walk_leaf hl]; split <;> simp
  | link k cur n t rest hl ih =>
    rw [walk_link hl]
    split
    · simp
    · cases k with
      | zero => simp [behindLink]
      | succ k => exact ih k rfl

/-- What was found stays found when nodes are added. -/
theorem walk_mono (hle : ∀ x s, look x = some s → look' x = some s) {l : Loc α} :
    ∀ k cur todo, walk look follow k cur todo = .found l →
      walk look' follow k cur todo = .found l := by
  intro k cur todo
  induction k, cur, todo using walk_induction look with
  | nil _ _ => simp
  | here _ _ _ ih => simpa using ih
  | up _ _ _ ih => simpa using ih
  | none k cur n rest hl =>
    intro h
    rw [walk_none hl] at h
    split at h <;> cases h
  | dir k cur n rest hl ih =>
    intro h
    rw [walk_dir hl] at h
    rw [walk_dir (hle _ _ hl)]
    exact ih h
  | leaf k cur n rest hl =>
    intro h
    rw [walk_leaf hl] at h
    rwa [walk_leaf (hle _ _ hl)]
  | link k cur n t rest hl ih =>
    intro h
    rw [walk_link hl] at h
    rw [walk_link (hle _ _ hl)]
    split
    · next hlast => rwa [if_pos hlast] at h
    · next hlast =>
      rw [if_neg hlast] at h
      cases k with
      | zero => cases h
      | succ k => exact ih k rfl h

/-- A directory reached was reached before files were added and nodes taken away. -/
theorem walk_thin (hle : ∀ x s, look' x = some s → s ≠ .leaf → look x = some s) {l : Loc α}
    (hl : look' l ≠ some .leaf) : ∀ k cur todo, walk look' follow k cur todo = .found l →
      walk look follow k cur todo = .found l := by
  intro k cur todo
  induction k, cur, todo using walk_induction look' with
  | nil _ _ => simp
  | here _ _ _ ih => simpa using ih
  | up _ _ _ ih => simpa using ih
  | none k cur n rest hn =>
    intro h
    rw [walk_none hn] at h
    split at h <;> cases h
  | dir k cur n rest hn ih =>
    intro h
    rw [walk_dir hn] at h
    rw [walk_dir (hle _ _ hn (by simp))]
    exact ih h
  | leaf k cur n rest hn =>
    intro h
    rw [walk_leaf hn] at h
    split at h
    · cases h
      exact absurd hn hl
    · cases h
  | link k cur n t rest hn ih =>
    intro h
    rw [walk_link hn] at h
    rw [walk_link (hle _ _ hn (by simp))]
    split
    · next hlast => rwa [if_pos hlast] at h
    · next hlast =>
      rw [if_neg hlast] at h
      cases k with
      | zero => cases h
      | succ k => exact ih k rfl h

/-- A walk that stopped before a free name finds a file put there. -/
theorem walk_fill (hle : ∀ x s, look x = some s → look' x = some s) {d : Loc α} {m : α}
    (hnew : look' (d ++ [m]) = some .leaf) :
    ∀ k cur todo, walk look follow k cur todo = .absent d m →
      walk look' follow k cur todo = .found (d ++ [m]) := by
  intro k cur todo
  induction k, cur, todo using walk_induction look with
  | nil k cur => simp
  | here _ _ _ ih => simpa using ih
  | up _ _ _ ih => simpa using ih
  | none k cur n rest hl =>
    intro h
    rw [walk_none hl] at h
    split at h
    · next hr =>
      cases h
      rw [walk_leaf hnew, if_pos hr]
    · cases h
  | dir k cur n rest hl ih =>
    intro h
    rw [walk_dir hl] at h
    rw [walk_dir (hle _ _ hl)]
    exact ih h
  | leaf k cur n rest hl =>
    intro h
    rw [walk_leaf hl] at h
    split at h <;> cases h
  | link k cur n t rest hl ih =>
    intro h
    rw [walk_link hl] at h
    rw [walk_link (hle _ _ hl)]
    split
    · next hlast =>
      rw [if_pos hlast] at h
      cases h
    · next hlast =>
      rw [if_neg hlast] at h
      cases k with
      | zero => cases h
      | succ k => exact ih k rfl h

/-- A walk that gets as far as its last name has been through a directory before it. -/
theorem walk_init {c : α} : ∀ k cur todo, look cur = some .dir →
    (∀ e, walk look follow k cur (todo ++ [.name c]) ≠ .fail e) →
    (∀ l, look l = some .dir → look l.dropLast = some .dir) → look [] = some .dir →
      ∃ d, walk look true k cur todo = .found d ∧ look d = some .dir := by
  intro k cur todo
  induction k, cur, todo using walk_induction look with
  | nil k cur => exact fun hcur _ _ _ => ⟨cur, by simp, hcur⟩
  | here _ _ _ ih => simpa using ih
  | up k cur rest ih =>
    intro hcur h hup hroot
    simp only [List.cons_append, walk_up] at h ⊢
    exact ih (hup _ hcur) h hup hroot
  | none k cur n rest hl =>
    intro _ h
    exact absurd (by rw [List.cons_append, walk_none hl, if_neg (by simp)]) (h .noent)
  | dir k cur n rest hl ih =>
    intro _ h hup hroot
    rw [List.cons_append, walk_dir hl] at h
    rw [walk_dir hl]
    exact ih hl h hup hroot
  | leaf k cur n rest hl =>
    intro _ h
    exact absurd (by rw [List.cons_append, walk_leaf hl, if_neg (by simp)]) (h .notDir)
  | link k cur n t rest hl ih =>
    intro hcur h hup hroot
    rw [List.cons_append, walk_link hl, if_neg (by simp), ← List.append_assoc] at h
    rw [walk_link hl, if_neg (by simp)]
    cases k with
    | zero => exact absurd rfl (h .loop)
    | succ k =>
      refine ih k rfl ?_ h hup hroot
      split
      · exact hroot
      · exact hcur

/-! ## Walks in a tree -/

variable {t : Tree α β}

theorem look_dropLast {l : Loc α} (h : t.look l = some .dir) : t.look l.dropLast = some .dir := by
  rcases List.eq_nil_or_concat l with rfl | ⟨p, n, rfl⟩
  · simp
  · simp only [List.concat_eq_append, List.dropLast_concat] at h ⊢
    exact Tree.look_parent (Tree.node_ne_none h)

/-- A walk from a directory ends where something is. -/
theorem walk_found {l : Loc α} : ∀ k cur todo, t.look cur = some .dir →
    walk t.look follow k cur todo = .found l →
      ∃ s, t.look l = some s ∧ (follow = true → ∀ g, s ≠ .link g) := by
  intro k cur todo
  induction k, cur, todo using walk_induction t.look with
  | nil k cur =>
    intro hcur h
    cases (walk_nil.symm.trans h)
    exact ⟨_, hcur, by simp⟩
  | here k cur rest ih =>
    intro hcur h
    exact ih hcur (by simpa using h)
  | up k cur rest ih =>
    intro hcur h
    exact ih (look_dropLast hcur) (by simpa using h)
  | none k cur n rest hl =>
    intro _ h
    rw [walk_none hl] at h
    split at h <;> cases h
  | dir k cur n rest hl ih =>
    intro _ h
    rw [walk_dir hl] at h
    exact ih hl h
  | leaf k cur n rest hl =>
    intro _ h
    rw [walk_leaf hl] at h
    split at h <;> cases h
    exact ⟨_, hl, by simp⟩
  | link k cur n g rest hl ih =>
    intro hcur h
    rw [walk_link hl] at h
    split at h
    · next hlast =>
      cases h
      exact ⟨_, hl, by simp [hlast.2]⟩
    · cases k with
      | zero => cases h
      | succ k =>
        refine ih k rfl ?_ h
        split
        · simp
        · exact hcur

/-- A walk that stops before a free name stops in a directory. -/
theorem walk_absent {d : Loc α} {m : α} : ∀ k cur todo, t.look cur = some .dir →
    walk t.look follow k cur todo = .absent d m →
      t.look d = some .dir ∧ t.look (d ++ [m]) = none := by
  intro k cur todo
  induction k, cur, todo using walk_induction t.look with
  | nil k cur =>
    intro hcur h
    cases (walk_nil.symm.trans h)
  | here k cur rest ih =>
    intro hcur h
    exact ih hcur (by simpa using h)
  | up k cur rest ih =>
    intro hcur h
    exact ih (look_dropLast hcur) (by simpa using h)
  | none k cur n rest hl =>
    intro hcur h
    rw [walk_none hl] at h
    split at h <;> cases h
    exact ⟨hcur, hl⟩
  | dir k cur n rest hl ih =>
    intro _ h
    rw [walk_dir hl] at h
    exact ih hl h
  | leaf k cur n rest hl =>
    intro _ h
    rw [walk_leaf hl] at h
    split at h <;> cases h
  | link k cur n g rest hl ih =>
    intro hcur h
    rw [walk_link hl] at h
    split at h
    · cases h
    · cases k with
      | zero => cases h
      | succ k =>
        refine ih k rfl ?_ h
        split
        · simp
        · exact hcur

/-- The place a walk ends at, whether something is there or not. -/
def Walk.place : Walk α → Except Errno (Loc α)
  | .found l => .ok l
  | .absent d n => .ok (d ++ [n])
  | .fail e => .error e

/-- Looking a last name up where a walk has ended. -/
def Walk.enter (look : Loc α → Option (Shape α)) (c : α) : Walk α → Walk α
  | .found d =>
      match look d with
      | some .dir =>
          match look (d ++ [c]) with
          | none => .absent d c
          | some _ => .found (d ++ [c])
      | _ => .fail .notDir
  | .absent _ _ => .fail .noent
  | .fail e => .fail e

/-- A path with one more name: walk the rest of it, following links, then look the name up. Only
a link in that last place, if it has to be followed, leads elsewhere. -/
theorem walk_concat (c : α) : ∀ k cur todo, t.look cur = some .dir →
    (follow = true → ∀ d, walk t.look true k cur todo = .found d →
      ∀ g, t.look (d ++ [c]) ≠ some (.link g)) →
    walk t.look follow k cur (todo ++ [.name c]) = (walk t.look true k cur todo).enter t.look c := by
  intro k cur todo
  induction k, cur, todo using walk_induction t.look with
  | nil k cur =>
    intro hcur hlast
    simp only [List.nil_append, walk_nil, Walk.enter, hcur]
    match hl : t.look (cur ++ [c]) with
    | none => simp [walk_none hl]
    | some .dir => simp [walk_dir hl]
    | some .leaf => simp [walk_leaf hl]
    | some (.link g) =>
      have hf : follow = false := by
        by_contra hne
        exact hlast (by simpa using hne) cur (by simp) g hl
      simp [walk_link hl, hf]
  | here k cur rest ih =>
    intro hcur hlast
    simp only [List.cons_append, walk_here]
    exact ih hcur (by simpa using hlast)
  | up k cur rest ih =>
    intro hcur hlast
    simp only [List.cons_append, walk_up]
    exact ih (look_dropLast hcur) (by simpa using hlast)
  | none k cur n rest hl =>
    intro _ _
    rw [List.cons_append, walk_none hl, walk_none hl]
    by_cases hr : rest = [] <;> simp [hr, Walk.enter]
  | dir k cur n rest hl ih =>
    intro _ hlast
    rw [List.cons_append, walk_dir hl, walk_dir hl]
    exact ih hl (by simpa only [walk_dir hl] using hlast)
  | leaf k cur n rest hl =>
    intro _ _
    rw [List.cons_append, walk_leaf hl, walk_leaf hl]
    by_cases hr : rest = [] <;> simp [hr, Walk.enter, hl]
  | link k cur n g rest hl ih =>
    intro hcur hlast
    have hstart : t.look (if g.absolute then [] else cur) = some .dir := by
      split
      · simp
      · exact hcur
    have hlink : walk t.look true k cur (.name n :: rest) =
        behindLink t.look true k (if g.absolute then [] else cur) (g.segs ++ rest) := by
      rw [walk_link hl, if_neg (by simp)]
    rw [List.cons_append, walk_link hl, if_neg (by simp), hlink, ← List.append_assoc]
    rw [hlink] at hlast
    cases k with
    | zero => rfl
    | succ k => exact ih k rfl hstart hlast

-- the equations that later modules rewrite with, stated here once
attribute [local simp] Posix.Walk.enter

end Posix
