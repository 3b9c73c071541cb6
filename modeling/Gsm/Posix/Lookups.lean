import Gsm.Posix.Calls

/-!
# Lookups that stay in a part of the tree

A lookup depends on no more of a tree than the places it looks at. `looksWithin` says that all of them lie in a
given part; two trees that agree there cannot be told apart by it.
-/

namespace Posix

variable {α β : Type}

/-- `walkSegs`, following links, looks at places in `P` only. -/
def segsWithin (look : Loc α → Option (Shape α)) (P : Loc α → Prop) (onLink : Loc α → List (Seg α) → Prop) :
    Loc α → List (Seg α) → Prop
  | _, [] => True
  | cur, .here :: rest => segsWithin look P onLink cur rest
  | cur, .up :: rest => segsWithin look P onLink cur.dropLast rest
  | cur, .name n :: rest =>
      P (cur ++ [n]) ∧
        match look (cur ++ [n]) with
        | some .dir => segsWithin look P onLink (cur ++ [n]) rest
        | some (.link t) => onLink (if t.absolute then [] else cur) (t.segs ++ rest)
        | _ => True

/-- `walk`, following links, looks at places in `P` only. -/
def looksWithin (look : Loc α → Option (Shape α)) (P : Loc α → Prop) : ℕ → Loc α → List (Seg α) → Prop
  | 0 => segsWithin look P fun _ _ => True
  | k + 1 => segsWithin look P (looksWithin look P k)

/-- What `looksWithin k` asks for behind a link -/
def looksWithinLink (look : Loc α → Option (Shape α)) (P : Loc α → Prop) : ℕ → Loc α → List (Seg α) → Prop
  | 0 => fun _ _ => True
  | k + 1 => looksWithin look P k

variable {look look' : Loc α → Option (Shape α)} {P : Loc α → Prop} {k : ℕ} {cur : Loc α} {rest todo : List (Seg α)}
  {n : α}

theorem looksWithin_eq (look : Loc α → Option (Shape α)) (P : Loc α → Prop) (k : ℕ) :
    looksWithin look P k = segsWithin look P (looksWithinLink look P k) := by
  rcases k with _ | k <;> rfl

theorem looksWithin_name (h : looksWithin look P k cur (.name n :: rest)) : P (cur ++ [n]) := by
  rw [looksWithin_eq, segsWithin] at h
  exact h.1

theorem looksWithin_dir (h : looksWithin look P k cur (.name n :: rest)) (hn : look (cur ++ [n]) = some .dir) :
    looksWithin look P k (cur ++ [n]) rest := by
  rw [looksWithin_eq, segsWithin, hn] at h
  rw [looksWithin_eq]
  exact h.2

theorem looksWithin_link {t : Target α} (h : looksWithin look P (k + 1) cur (.name n :: rest))
    (hn : look (cur ++ [n]) = some (.link t)) :
    looksWithin look P k (if t.absolute then [] else cur) (t.segs ++ rest) := by
  rw [looksWithin_eq, segsWithin, hn] at h
  exact h.2

/-- Where the trees agree on what the lookup looks at, it ends in the same way. -/
theorem walk_of_looksWithin (hsame : ∀ l, P l → look l = look' l) :
    ∀ k cur todo, looksWithin look P k cur todo → walk look true k cur todo = walk look' true k cur todo := by
  refine walk_induction look ?_ ?_ ?_ ?_ ?_ ?_ ?_
  · intro k cur _
    rw [walk_nil, walk_nil]
  · intro k cur rest ih h
    rw [looksWithin_eq, segsWithin, ← looksWithin_eq] at h
    rw [walk_here, walk_here, ih h]
  · intro k cur rest ih h
    rw [looksWithin_eq, segsWithin, ← looksWithin_eq] at h
    rw [walk_up, walk_up, ih h]
  · intro k cur n rest hn h
    have hn' := hsame _ (looksWithin_name h)
    rw [walk_none hn, walk_none (hn' ▸ hn)]
  · intro k cur n rest hn ih h
    have hn' := hsame _ (looksWithin_name h)
    rw [walk_dir hn, walk_dir (hn' ▸ hn), ih (looksWithin_dir h hn)]
  · intro k cur n rest hn h
    have hn' := hsame _ (looksWithin_name h)
    rw [walk_leaf hn, walk_leaf (hn' ▸ hn)]
  · intro k cur n t rest hn ih h
    have hn' := hsame _ (looksWithin_name h)
    have hfollow : ¬ (rest = [] ∧ true = false) := by simp
    rw [walk_link hn, walk_link (hn' ▸ hn), if_neg hfollow, if_neg hfollow]
    rcases k with _ | k
    · rfl
    · exact ih k rfl (looksWithin_link h hn)

/-- A lookup that stays in a part ends in it. -/
theorem mem_of_looksWithin {l : Loc α} (hroot : P []) (hup : ∀ l, P l → P l.dropLast) :
    ∀ k cur todo, P cur → looksWithin look P k cur todo → walk look true k cur todo = .found l → P l := by
  refine walk_induction look ?_ ?_ ?_ ?_ ?_ ?_ ?_
  · intro k cur hcur _ hfound
    rw [walk_nil] at hfound
    rwa [← Walk.found.inj hfound]
  · intro k cur rest ih hcur h hfound
    rw [looksWithin_eq, segsWithin, ← looksWithin_eq] at h
    rw [walk_here] at hfound
    exact ih hcur h hfound
  · intro k cur rest ih hcur h hfound
    rw [looksWithin_eq, segsWithin, ← looksWithin_eq] at h
    rw [walk_up] at hfound
    exact ih (hup cur hcur) h hfound
  · intro k cur n rest hn _ h hfound
    rw [walk_none hn] at hfound
    split at hfound <;> exact nomatch hfound
  · intro k cur n rest hn ih _ h hfound
    rw [walk_dir hn] at hfound
    exact ih (looksWithin_name h) (looksWithin_dir h hn) hfound
  · intro k cur n rest hn _ h hfound
    rw [walk_leaf hn] at hfound
    split at hfound
    · rw [← Walk.found.inj hfound]
      exact looksWithin_name h
    · exact nomatch hfound
  · intro k cur n t rest hn ih hcur h hfound
    have hfollow : ¬ (rest = [] ∧ true = false) := by simp
    rw [walk_link hn, if_neg hfollow] at hfound
    rcases k with _ | k
    · exact nomatch hfound
    · refine ih k rfl ?_ (looksWithin_link h hn) hfound
      split
      · exact hroot
      · exact hcur

namespace Tree

variable {t t' : Tree α β} {p : List α} {d l : Loc α}

/-- `stat` of `p` looks at places in `P` only. -/
def StatWithin (t : Tree α β) (P : Loc α → Prop) (p : List α) : Prop := looksWithin t.look P maxLinks [] (p.map .name)

theorem StatWithin.stat (h : t.StatWithin P p) (hsame : ∀ l, P l → t.look l = t'.look l) : t.stat p = t'.stat p :=
  walk_of_looksWithin hsame _ _ _ h

theorem StatWithin.mem (h : t.StatWithin P p) (hroot : P []) (hup : ∀ l, P l → P l.dropLast)
    (hfound : t.stat p = .found l) : P l := mem_of_looksWithin hroot hup _ _ _ hroot h hfound

section

variable [LinearOrder α]

theorem node_of_mem_names (h : n ∈ t.names d) : t.node (d ++ [n]) ≠ none := by
  rw [names, List.mem_insertionSort, List.mem_dedup, List.mem_filterMap] at h
  obtain ⟨x, hx, hlast⟩ := h
  obtain ⟨hdrop, hne, hnode⟩ := of_decide_eq_true (List.mem_filter.mp hx).2
  have hx' : d ++ [n] = x := by
    rw [← hdrop, ← List.dropLast_append_getLast hne, List.dropLast_concat]
    rw [List.getLast?_eq_getLast_of_ne_nil hne] at hlast
    rw [Option.some.inj hlast]
  rwa [hx']

/-- The names in a directory depend on its nodes only. -/
theorem names_congr (h : ∀ n, t.node (d ++ [n]) = t'.node (d ++ [n])) : t.names d = t'.names d := by
  have hmem : ∀ n, n ∈ t.names d ↔ n ∈ t'.names d := fun n =>
    ⟨fun hn => mem_names (h n ▸ node_of_mem_names hn), fun hn => mem_names (h n ▸ node_of_mem_names hn)⟩
  have hsorted : ∀ t : Tree α β, (t.names d).Pairwise (· ≤ ·) := fun t => List.pairwise_insertionSort _ _
  have hnodup : ∀ t : Tree α β, (t.names d).Nodup := fun t =>
    (List.perm_insertionSort _ _).nodup_iff.mpr (List.nodup_dedup _)
  exact List.Perm.eq_of_pairwise (fun _ _ _ _ => le_antisymm) (hsorted t) (hsorted t')
    ((List.perm_ext_iff_of_nodup (hnodup t) (hnodup t')).mpr hmem)

end

end Tree

theorem Sys.run_readDir {μ : Type} [LinearOrder α] {j : Journal α β} {p : List α} {d : Loc α} (h : j.tree.DirAt p d) :
    (Sys.readDir p : Sys α β μ _).run j = (.ok (j.tree.names d), j.read d) := by
  obtain ⟨nd, hnd, hshape⟩ := Option.map_eq_some_iff.mp h.2
  have hnode : (Sys.nodeAt d : Sys α β μ _).run (j.read d) = (.ok nd, j.read d) := by
    rw [Sys.nodeAt, Sys.run_look, Journal.tree_read, hnd]
  rw [Sys.readDir, Sys.run_bind_ok (Sys.run_existing_found (f := (·.stat p)) h.1), Sys.run_bind_ok (Sys.run_read d),
    Sys.run_bind_ok hnode]
  rw [Node.shape] at hshape
  match hk : nd.kind with
  | .dir => rfl
  | .file _ | .link _ | .special =>
    rw [hk] at hshape
    exact nomatch hshape

end Posix
