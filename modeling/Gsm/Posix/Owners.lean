import Gsm.GoStd.Os
import Mathlib.Data.Set.Insert

/-!
# Who owns what is made

A program that runs as root makes nodes that are root's and hands them over. `Handing own P Q` says of two
trees that outside `P`, the nodes that are still to be handed over, whatever is there belongs to `own` or to
whom it belonged before, and that outside `Q` nobody has gained or lost anything.
-/

namespace Posix

variable {α β μ γ δ : Type}

def Node.owner (nd : Node α β) : ℕ × ℕ := (nd.uid, nd.gid)

namespace Tree

def owner (t : Tree α β) (l : Loc α) : Option (ℕ × ℕ) := (t.node l).map Node.owner

/-- What was not there belongs to `own`. -/
def NewOwned (own : ℕ × ℕ) (t t' : Tree α β) : Prop :=
  ∀ l o, t.owner l = none → t'.owner l = some o → o = own

structure Handing (own : ℕ × ℕ) (P Q : Set (Loc α)) (t t' : Tree α β) : Prop where
  handed : ∀ l ∉ P, ∀ o, t'.owner l = some o → o = own ∨ t.owner l = some o
  kept : ∀ l ∉ Q, t'.owner l = t.owner l

variable {own : ℕ × ℕ} {P P' Q Q' : Set (Loc α)} {t t' t'' : Tree α β} {l d : Loc α} {n : α}

@[refl] theorem Handing.refl (t : Tree α β) : Handing own P Q t t := ⟨fun _ _ _ => .inr, fun _ _ => rfl⟩

theorem Handing.of_owner_eq (h : t'.owner = t.owner) : Handing own P Q t t' := by
  refine ⟨fun l _ o ho => .inr ?_, fun l _ => congrFun h l⟩
  rw [← congrFun h l]
  exact ho

theorem Handing.trans (h : Handing own P Q t t') (h' : Handing own P Q t' t'') : Handing own P Q t t'' := by
  refine ⟨fun l hl o ho => ?_, fun l hl => (h'.kept l hl).trans (h.kept l hl)⟩
  rcases h'.handed l hl o ho with hown | hold
  · exact .inl hown
  · exact h.handed l hl o hold

theorem Handing.mono (h : Handing own P Q t t') (hP : P ⊆ P') (hQ : Q ⊆ Q') : Handing own P' Q' t t' :=
  ⟨fun l hl => h.handed l fun hp => hl (hP hp), fun l hl => h.kept l fun hq => hl (hQ hq)⟩

/-- With nothing left to hand over, what is new belongs to `own`. -/
theorem Handing.newOwned (h : Handing own ∅ Q t t') : NewOwned own t t' := by
  intro l o hnone ho
  rcases h.handed l (Set.notMem_empty l) o ho with hown | hold
  · exact hown
  · cases hnone.symm.trans hold

theorem owner_eq_none : t.owner l = none ↔ t.look l = none := by
  rw [owner, look, Option.map_eq_none_iff, Option.map_eq_none_iff]

theorem look_below_none {x : Loc α} (h : t.look l = none) (hx : l <+: x) : t.look x = none := by
  obtain ⟨y, rfl⟩ := hx
  by_cases hy : y = []
  · rwa [hy, List.append_nil]
  · exact look_eq_none.mpr (node_below hy (by simp [h]))

/-- What is new and belongs to somebody else -/
def unowned (own : ℕ × ℕ) (t t' : Tree α β) : Set (Loc α) :=
  {l | t.owner l = none ∧ ∃ o, t'.owner l = some o ∧ o ≠ own}

theorem newOwned_iff : NewOwned own t t' ↔ unowned own t t' = ∅ := by
  rw [Set.eq_empty_iff_forall_notMem]
  constructor
  · rintro h l ⟨hnone, o, ho, hne⟩
    exact hne (h l o hnone ho)
  · intro h l o hnone ho
    by_contra hne
    exact h l ⟨hnone, o, ho, hne⟩

@[simp] theorem unowned_self : unowned own t t = ∅ := by
  refine Set.eq_empty_iff_forall_notMem.mpr ?_
  rintro l ⟨hnone, o, ho, -⟩
  cases hnone.symm.trans ho

theorem unowned_congr (h : t''.owner = t'.owner) : unowned own t t'' = unowned own t t' := by
  rw [unowned, h, unowned]

/-- What hands over all it makes changes nothing of this, unless it takes hold of it. -/
theorem Handing.unowned_eq (h : Handing own ∅ Q t' t'') (hQ : ∀ x ∈ unowned own t t', x ∉ Q) :
    unowned own t t'' = unowned own t t' := by
  ext x
  constructor
  · rintro ⟨hnone, o, ho, hne⟩
    rcases h.handed x (Set.notMem_empty x) o ho with rfl | hold
    · exact absurd rfl hne
    · exact ⟨hnone, o, hold, hne⟩
  · intro hx
    obtain ⟨hnone, o, ho, hne⟩ := hx
    exact ⟨hnone, o, (h.kept x (hQ x ⟨hnone, o, ho, hne⟩)).trans ho, hne⟩

section

variable [LinearOrder α]

theorem owner_alter {g : Node α β → Node α β} (hg : ∀ nd, (g nd).shape = nd.shape)
    (h : ∀ nd, (g nd).owner = nd.owner) : (t.alter l g hg).owner = t.owner := by
  funext x
  rw [owner, owner, node_alter]
  split
  · rw [Option.map_map]
    exact congrArg (Option.map · _) (funext h)
  · rfl

theorem owner_setOwner (x : Loc α) {uid gid : ℕ} :
    (t.alter l (Node.setOwner uid gid) (Node.shape_setOwner uid gid)).owner x =
      if x = l then (t.owner x).map fun _ => (uid, gid) else t.owner x := by
  rw [owner, owner, node_alter]
  split
  · rw [Option.map_map, Option.map_map]
    rfl
  · rfl

theorem owner_create (nd : Node α β) (hd : t.look d = some .dir) (hn : t.look (d ++ [n]) = none)
    (x : Loc α) : (t.create d n nd).owner x = if x = d ++ [n] then some nd.owner else t.owner x := by
  rw [owner, node_create hd (look_eq_none.mp hn)]
  split <;> rfl

theorem unowned_create {nd : Node α β} (hnd : nd.owner ≠ own) (hd : t'.look d = some .dir)
    (hn : t'.look (d ++ [n]) = none) (hnew : t.look (d ++ [n]) = none) :
    unowned own t (t'.create d n nd) = insert (d ++ [n]) (unowned own t t') := by
  ext x
  rw [unowned, Set.mem_ofPred_eq, owner_create nd hd hn, Set.mem_insert_iff]
  by_cases hx : x = d ++ [n]
  · subst hx
    rw [if_pos rfl]
    exact iff_of_true ⟨owner_eq_none.mpr hnew, _, rfl, hnd⟩ (.inl rfl)
  · rw [if_neg hx]
    exact ⟨.inr, fun h => h.resolve_left hx⟩

theorem unowned_setOwner :
    unowned own t (t'.alter l (Node.setOwner own.1 own.2) (Node.shape_setOwner own.1 own.2)) =
      unowned own t t' \ {l} := by
  ext x
  rw [unowned, Set.mem_ofPred_eq, owner_setOwner, Set.mem_sdiff, Set.mem_singleton_iff]
  by_cases hx : x = l
  · rw [if_pos hx]
    refine iff_of_false ?_ fun h => h.2 hx
    rintro ⟨-, o, ho, hne⟩
    obtain ⟨_, -, rfl⟩ := Option.map_eq_some_iff.mp ho
    exact hne rfl
  · rw [if_neg hx]
    exact ⟨fun h => ⟨h, hx⟩, fun h => h.1⟩

/-- Nothing lies below what is no directory. -/
theorem unowned_remove (hl : l ≠ []) (hdir : t'.look l ≠ some .dir) :
    unowned own t (t'.remove l) = unowned own t t' \ {l} := by
  ext x
  rw [unowned, Set.mem_ofPred_eq, Set.mem_sdiff, Set.mem_singleton_iff]
  by_cases hx : l <+: x
  · obtain ⟨y, rfl⟩ := hx
    rw [owner, owner, node_remove_below t' hl (List.prefix_append _ _)]
    refine iff_of_false (fun h => ?_) ?_
    · obtain ⟨-, o, ho, -⟩ := h
      cases ho
    · rintro ⟨⟨-, o, ho, -⟩, hne⟩
      have hy : y ≠ [] := by
        rintro rfl
        exact hne (List.append_nil l)
      rw [owner, node_below hy hdir] at ho
      cases ho
  · have hne : x ≠ l := by
      rintro rfl
      exact hx List.prefix_rfl
    have hsame : (t'.remove l).owner x = t'.owner x := by rw [owner, node_remove_ne t' hx, owner]
    rw [hsame]
    exact ⟨fun h => ⟨h, hne⟩, fun h => h.1⟩

/-- A new node is to be handed over. -/
theorem handing_create (nd : Node α β) (hQ : d ++ [n] ∈ Q) (hP : d ++ [n] ∈ P) :
    Handing own P Q t (t.create d n nd) := by
  have hsame (x : Loc α) (hx : x ≠ d ++ [n]) : (t.create d n nd).owner x = t.owner x := by
    rw [owner, owner, node_create_ne t nd hx]
  constructor
  · intro x hx o ho
    have hne : x ≠ d ++ [n] := by
      rintro rfl
      exact hx hP
    rw [hsame x hne] at ho
    exact .inr ho
  · intro x hx
    refine hsame x ?_
    rintro rfl
    exact hx hQ

/-- A node is handed over. -/
theorem Handing.setOwner (h : Handing own P Q t t') (hl : l ∈ Q) : Handing own (P \ {l}) Q t
    (t'.alter l (Node.setOwner own.1 own.2) (Node.shape_setOwner own.1 own.2)) := by
  refine ⟨fun x hx o ho => ?_, fun x hx => ?_⟩
  · rw [owner_setOwner] at ho
    split at ho
    · obtain ⟨_, -, rfl⟩ := Option.map_eq_some_iff.mp ho
      exact .inl rfl
    · next hne => exact h.handed x (fun hp => hx ⟨hp, hne⟩) o ho
  · have hne : x ≠ l := by
      rintro rfl
      exact hx hl
    rw [owner_setOwner, if_neg hne]
    exact h.kept x hx

theorem owner_remove_below (hl : l ≠ []) {x : Loc α} (hx : l <+: x) : (t.remove l).owner x = none := by
  rw [owner, node_remove_below t hl hx]
  rfl

theorem owner_remove_ne {x : Loc α} (hx : ¬ l <+: x) : (t.remove l).owner x = t.owner x := by
  rw [owner, owner, node_remove_ne t hx]

/-- What is taken away need not be handed over. -/
theorem Handing.remove (h : Handing own P Q t t') (hl : l ≠ []) (hQ : ∀ x, l <+: x → x ∈ Q) :
    Handing own {x | x ∈ P ∧ ¬ l <+: x} Q t (t'.remove l) := by
  refine ⟨fun x hx o ho => ?_, fun x hx => ?_⟩
  · by_cases hpre : l <+: x
    · rw [owner_remove_below hl hpre] at ho
      cases ho
    · rw [owner_remove_ne hpre] at ho
      exact h.handed x (fun hp => hx ⟨hp, hpre⟩) o ho
  · rw [owner_remove_ne fun hpre => hx (hQ x hpre)]
    exact h.kept x hx

/-- A file of `own` that is moved stays theirs. -/
theorem handing_move {s : Loc α} (hs : t.look s = some .leaf) (hown : t.owner s = some own)
    (hsQ : ∀ x, s <+: x → x ∈ Q) (hdQ : ∀ x, d ++ [n] <+: x → x ∈ Q) :
    Handing own P Q t ((t.remove (d ++ [n])).move s d n) := by
  have hgone (x : Loc α) : (t.remove (d ++ [n])).owner x = t.owner x ∨
      (t.remove (d ++ [n])).owner x = none := by
    by_cases hpre : d ++ [n] <+: x
    · exact .inr (owner_remove_below (by simp) hpre)
    · exact .inl (owner_remove_ne hpre)
  by_cases hm : s ≠ [] ∧ (t.remove (d ++ [n])).look d = some .dir ∧
      (t.remove (d ++ [n])).node (d ++ [n]) = none ∧ ¬ s <+: d ++ [n]
  · refine ⟨fun x _ o ho => ?_, fun x hx => ?_⟩
    · rw [owner, node_move hm] at ho
      split at ho
      · next hpre =>
        obtain ⟨y, rfl⟩ := hpre
        have hfrom : movedFrom s (d ++ [n]) (d ++ [n] ++ y) = s ++ y := by simp [movedFrom]
        rw [hfrom] at ho
        rcases hgone (s ++ y) with hold | hnone
        · have ho : t.owner (s ++ y) = some o := hold ▸ ho
          by_cases hy : y = []
          · rw [hy, List.append_nil, hown] at ho
            exact .inl (Option.some.inj ho).symm
          · rw [owner, node_below hy (by rw [hs]; simp)] at ho
            cases ho
        · cases hnone.symm.trans ho
      · split at ho
        · cases ho
        · rcases hgone x with hold | hnone
          · exact .inr (hold ▸ ho)
          · cases hnone.symm.trans ho
    · rw [owner, node_move_ne _ (fun hpre => hx (hsQ x hpre)) (fun hpre => hx (hdQ x hpre)), ← owner,
        owner_remove_ne fun hpre => hx (hdQ x hpre)]
  · rw [move, dif_neg hm]
    exact ((Handing.refl t).remove (by simp) hdQ).mono (fun x hx => hx.1) subset_rfl

end

end Tree

open Posix.Tree

namespace Journal

variable [LinearOrder α] {own : ℕ × ℕ} {P Q : Set (Loc α)} {j : Journal α β} {d l : Loc α}

theorem handing_give {t : Tree α β} (h : Handing own P Q t j.tree) (hl : l ∈ Q) :
    Handing own (P \ {l}) Q t (j.give (some own) l).tree := h.setOwner hl

/-- The owners after the chain was made: the new directories are `own`'s, or root's. -/
theorem owner_makeDirs (own : Option (ℕ × ℕ)) (mode : ℕ) {c : α} (hd : j.tree.look d = some .dir)
    (hc : j.tree.look (d ++ [c]) = none) (names : List α) (x : Loc α) :
    (j.makeDirs own mode d (c :: names)).tree.owner x =
      if d ++ [c] <+: x ∧ x <+: d ++ c :: names then some (own.getD (0, 0)) else j.tree.owner x := by
  have hone (j : Journal α β) {d : Loc α} {c : α} (x : Loc α) (hd : j.tree.look d = some .dir)
      (hc : j.tree.look (d ++ [c]) = none) :
      ((j.create d c ⟨.dir, mode, 0, 0⟩).give own (d ++ [c])).tree.owner x =
        if x = d ++ [c] then some (own.getD (0, 0)) else j.tree.owner x := by
    have hcreate := owner_create ⟨.dir, mode, 0, 0⟩ hd hc x
    match own with
    | none => exact hcreate
    | some (uid, gid) =>
      rw [give, tree_alter, owner_setOwner, tree_create, hcreate]
      split <;> rfl
  induction names generalizing j d c with
  | nil =>
    rw [makeDirs, makeDirs, hone j x hd hc]
    refine if_congr ⟨?_, fun h => h.2.eq_of_length_le h.1.length_le⟩ rfl rfl
    rintro rfl
    exact ⟨List.prefix_rfl, List.prefix_rfl⟩
  | cons b rest ih =>
    have hd' := look_makeDir own mode (d ++ [c]) hd hc
    have hb' := look_makeDir own mode (d ++ [c] ++ [b]) hd hc
    have hb : j.tree.look (d ++ [c] ++ [b]) = none :=
      Tree.look_eq_none.mpr (Tree.node_below (by simp) (by simp [hc]))
    rw [if_pos rfl] at hd'
    rw [if_neg (by simp), hb] at hb'
    rw [makeDirs, ih hd' hb', hone j x hd hc, ← ite_or]
    exact if_congr chain_cons rfl rfl

/-- Directories that are handed over as they are made -/
theorem handing_makeDirs (mode : ℕ) {c : α} (hd : j.tree.look d = some .dir)
    (hc : j.tree.look (d ++ [c]) = none) (names : List α) :
    Handing own ∅ {x | d ++ [c] <+: x} j.tree (j.makeDirs (some own) mode d (c :: names)).tree := by
  constructor
  · intro x _ o ho
    rw [owner_makeDirs (some own) mode hd hc] at ho
    split at ho
    · exact .inl (Option.some.inj ho).symm
    · exact .inr ho
  · intro x hx
    rw [owner_makeDirs (some own) mode hd hc, if_neg fun h => hx h.1]

/-- What is left to hand over of the directories that `MkdirAll` makes -/
theorem unowned_makeDirs_none {t : Tree α β} (mode : ℕ) {c : α} (hd : j.tree.look d = some .dir)
    (hc : j.tree.look (d ++ [c]) = none) (names : List α)
    (hroot : own ≠ (0, 0)) (hthere : ∀ x, t.look x ≠ none → j.tree.look x ≠ none) :
    unowned own t (j.makeDirs none mode d (c :: names)).tree =
      unowned own t j.tree ∪ {x | d ++ [c] <+: x ∧ x <+: d ++ c :: names} := by
  ext x
  rw [unowned, Set.mem_ofPred_eq, owner_makeDirs none mode hd hc]
  by_cases hx : d ++ [c] <+: x ∧ x <+: d ++ c :: names
  · rw [if_pos hx]
    have hnew : t.owner x = none := by
      by_contra hne
      exact hthere x (fun h => hne (owner_eq_none.mpr h)) (look_below_none hc hx.1)
    exact iff_of_true ⟨hnew, _, rfl, hroot.symm⟩ (.inr hx)
  · rw [if_neg hx]
    exact ⟨.inl, fun h => h.resolve_right hx⟩

end Journal

/-! ## Programs -/

namespace Sys

variable {μ : Type} {own : ℕ × ℕ} {P Q : Set (Loc α)} {j j' : Journal α β} {p : List α} {l : Loc α}

/-- Whatever comes of it, the program hands over what it makes. -/
def Hands (own : ℕ × ℕ) (Q : Set (Loc α)) (m : Sys α β μ γ) (j : Journal α β) : Prop :=
  Handing own ∅ Q j.tree (m.run j).2.tree

theorem ReadsOnly.hands {m : Sys α β μ γ} (h : m.ReadsOnly) : Hands own Q m j := by
  rw [Hands, (h j).tree]

theorem Hands.attempt {m : Sys α β μ γ} (h : Hands own Q m j) : Hands own Q m.attempt j := h

theorem Hands.bind {m : Sys α β μ γ} {k : γ → Sys α β μ δ} (h : Hands own Q m j)
    (hk : ∀ a j', m.run j = (.ok a, j') → Hands own Q (k a) j') : Hands own Q (m >>= k) j := by
  rw [Hands, run_bind]
  rw [Hands] at h
  rcases hm : m.run j with ⟨e | a, j'⟩ <;> rw [hm] at h
  · exact h
  · exact h.trans (hk a j' hm)

section

variable [LinearOrder α]

/-- A change of a node that leaves its owner alone -/
theorem owner_touch (look : Tree α β → Walk α) {act : Act} {hact : act.changes}
    {g : Node α β → Node α β} {hg : ∀ nd, (g nd).shape = nd.shape} (hown : ∀ nd, (g nd).owner = nd.owner)
    (j : Journal α β) : ((touch look act hact g hg : Sys α β μ _).run j).2.tree.owner = j.tree.owner := by
  by_cases h : ∃ l, look j.tree = .found l
  · obtain ⟨l, hl⟩ := h
    rw [run_touch_found hl]
    exact owner_alter hg hown
  · push Not at h
    obtain ⟨e, he⟩ := run_existing_not_found (μ := μ) h
    rw [touch, run_bind_error he]

theorem owner_write {fd : Loc α} {data : β} (j : Journal α β) :
    ((write fd data : Sys α β μ _).run j).2.tree.owner = j.tree.owner := by
  refine owner_alter (Node.shape_setData data) fun nd => ?_
  rw [Node.setData]
  split <;> rfl

/-- A file that is there keeps its owner when it is written. -/
theorem run_overwrite_found [EmptyCollection β] (mode : ℕ) (data : β) (hs : j.tree.stat p = .found l)
    (h : j.tree.openTarget p = some l) : ∃ j', (overwrite p mode data : Sys α β μ _).run j = (.ok (), j') ∧
      j'.tree.owner = j.tree.owner ∧ j'.tree.look = j.tree.look := by
  have hdata (nd : Node α β) (data : β) : (nd.setData data).owner = nd.owner := by
    rw [Node.setData]
    split <;> rfl
  rw [Tree.openTarget, hs] at h
  dsimp only at h
  split at h <;> cases h
  next file hk =>
  obtain ⟨nd, hnd, hkind⟩ := Option.map_eq_some_iff.mp hk
  have hopen : (openTrunc p mode : Sys α β μ _).run j =
      (.ok l, j.alter .write (by decide) l (Node.setData ∅) (Node.shape_setData ∅)) := by
    simp only [openTrunc, peek, nodeAt, run_bind, run_look, hs, hnd, hkind]
    rfl
  refine ⟨_, by rw [overwrite, run_bind_ok hopen, run_write], ?_, ?_⟩
  · exact (owner_alter (Node.shape_setData data) fun nd => hdata nd data).trans
      (owner_alter (Node.shape_setData ∅) fun nd => hdata nd ∅)
  · rw [Journal.tree_alter, look_alter, Journal.tree_alter, look_alter]

/-- A file that is made is root's. -/
theorem run_overwrite_absent [EmptyCollection β] (mode : ℕ) (data : β) {d : Loc α} {n : α}
    (hs : j.tree.stat p = .absent d n) : ∃ j', (overwrite p mode data : Sys α β μ _).run j = (.ok (), j') ∧
      j'.tree.owner = (j.tree.create d n ⟨.file ∅, mode, 0, 0⟩).owner ∧
      j'.tree.look = (j.tree.create d n ⟨.file ∅, mode, 0, 0⟩).look := by
  have hopen : (openTrunc p mode : Sys α β μ _).run j =
      (.ok (d ++ [n]), j.create d n ⟨.file ∅, mode, 0, 0⟩) := by
    simp only [openTrunc, peek, run_bind, run_look, hs]
    rfl
  refine ⟨_, by rw [overwrite, run_bind_ok hopen, run_write], ?_, ?_⟩
  · refine owner_alter (Node.shape_setData data) fun nd => ?_
    rw [Node.setData]
    split <;> rfl
  · rw [Journal.tree_alter, look_alter, Journal.tree_create]

/-- Writing a file leaves the owners of all others. -/
theorem owner_overwrite_ne [EmptyCollection β] {mode : ℕ} {data : β} {u : Unit}
    (h : j.tree.openTarget p = some l) (hrun : (overwrite p mode data : Sys α β μ _).run j = (.ok u, j'))
    {x : Loc α} (hx : x ≠ l) : j'.tree.owner x = j.tree.owner x := by
  rcases hs : j.tree.stat p with l' | ⟨d, n⟩ | e
  · obtain rfl : l' = l := by
      rw [Tree.openTarget, hs] at h
      dsimp only at h
      split at h <;> cases h
      rfl
    obtain ⟨j₁, hrun₁, howner, -⟩ := run_overwrite_found (μ := μ) mode data hs h
    cases hrun₁.symm.trans hrun
    rw [howner]
  · rw [Tree.openTarget, hs] at h
    cases h
    obtain ⟨j₁, hrun₁, howner, -⟩ := run_overwrite_absent (μ := μ) mode data hs
    cases hrun₁.symm.trans hrun
    obtain ⟨hd, hn⟩ := Tree.stat_absent hs
    rw [howner, owner_create _ hd hn, if_neg hx]
  · rw [Tree.openTarget, hs] at h
    cases h

/-- What was opened to be written holds the data. Nothing else changes. -/
theorem kind_overwrite [EmptyCollection β] {mode : ℕ} {data : β} {u : Unit} (h : j.tree.openTarget p = some l)
    (hrun : (overwrite p mode data : Sys α β μ _).run j = (.ok u, j')) (x : Loc α) :
    (j'.tree.node x).map Node.kind = if x = l then some (.file data) else (j.tree.node x).map Node.kind := by
  obtain ⟨fd, j₁, hopen, hwrite⟩ := run_bind_eq_ok.mp hrun
  rw [run_write] at hwrite
  cases hwrite
  rw [Journal.tree_alter, Tree.node_alter]
  unfold Tree.openTarget at h
  split at h
  · next l' hs =>
    split at h <;> cases h
    next old hk =>
    obtain ⟨nd, hnd, hkind⟩ := Option.map_eq_some_iff.mp hk
    have hopened : (openTrunc p mode : Sys α β μ _).run j =
        (.ok l, j.alter .write (by decide) l (Node.setData ∅) (Node.shape_setData ∅)) := by
      simp only [openTrunc, peek, nodeAt, run_bind, run_look, hs, hnd, hkind]
      rfl
    cases hopened.symm.trans hopen
    by_cases hx : x = l
    · simp only [hx, if_true, Journal.tree_alter, Tree.node_alter, hnd, Option.map_some, Node.setData, hkind]
    · simp only [hx, if_false, Journal.tree_alter, Tree.node_alter]
  · next d n hs =>
    cases h
    have hopened : (openTrunc p mode : Sys α β μ _).run j =
        (.ok (d ++ [n]), j.create d n ⟨.file ∅, mode, 0, 0⟩) := by
      simp only [openTrunc, peek, run_bind, run_look, hs]
      rfl
    cases hopened.symm.trans hopen
    obtain ⟨hd, hn⟩ := Tree.stat_absent hs
    rw [Journal.tree_create, Tree.node_create hd (Tree.look_eq_none.mp hn)]
    by_cases hx : x = d ++ [n]
    · simp only [hx, if_true, Option.map_some, Node.setData]
    · simp only [hx, if_false]
  · cases h

/-- What was opened to be written is a file. -/
theorem look_overwrite [EmptyCollection β] {mode : ℕ} {data : β} {u : Unit}
    (h : j.tree.openTarget p = some l) (hrun : (overwrite p mode data : Sys α β μ _).run j = (.ok u, j')) :
    j'.tree.look l = some .leaf := by
  have hkind := kind_overwrite h hrun l
  rw [if_pos rfl] at hkind
  obtain ⟨nd, hnd, hk⟩ := Option.map_eq_some_iff.mp hkind
  rw [Tree.look, hnd, Option.map_some, Node.shape, hk]
  rfl

/-- `unlink` takes away the node it finds, or nothing. -/
theorem unlink_cases (p : List α) (j : Journal α β) : ((unlink p : Sys α β μ _).run j).2 = j ∨
    ∃ l, j.tree.lstat p = .found l ∧ l ≠ [] ∧ ((unlink p : Sys α β μ _).run j).2 = j.remove l := by
  by_cases hs : ∃ l, j.tree.lstat p = .found l
  · obtain ⟨l, hs⟩ := hs
    obtain ⟨sh, hl⟩ := Tree.lstat_found hs
    obtain ⟨nd, hn, hshape⟩ := Option.map_eq_some_iff.mp hl
    have hnode : (nodeAt l : Sys α β μ _).run j = (.ok nd, j) := by rw [nodeAt, run_look, hn]
    rw [unlink, run_bind_ok (run_existing_found (f := (·.lstat p)) hs), run_bind_ok hnode]
    match hk : nd.kind with
    | .dir =>
      dsimp only
      by_cases hroot : l = []
      · rw [if_pos hroot]
        exact .inl rfl
      · rw [if_neg hroot]
        by_cases hnames : j.tree.names l = []
        · refine .inr ⟨l, hs, hroot, ?_⟩
          simp [run_bind, hnames]
        · refine .inl ?_
          simp [run_bind, hnames]
    | .file _ | .link _ | .special =>
      refine .inr ⟨l, hs, ?_, rfl⟩
      rintro rfl
      have hroot := Tree.look_root j.tree
      rw [Tree.look, hn, Option.map_some, Node.shape, hk] at hroot
      cases hroot
  · push Not at hs
    obtain ⟨e, he⟩ := run_existing_not_found (μ := μ) (f := (·.lstat p)) hs
    rw [unlink, run_bind_error he]
    exact .inl rfl

/-- What is no directory is taken away. -/
theorem run_unlink (hs : j.tree.lstat p = .found l) (hl : j.tree.look l ≠ some .dir) :
    (unlink p : Sys α β μ _).run j = (.ok (), j.remove l) := by
  obtain ⟨sh, hlook⟩ := Tree.lstat_found hs
  obtain ⟨nd, hn, hshape⟩ := Option.map_eq_some_iff.mp hlook
  have hnode : (nodeAt l : Sys α β μ _).run j = (.ok nd, j) := by rw [nodeAt, run_look, hn]
  rw [unlink, run_bind_ok (run_existing_found (f := (·.lstat p)) hs), run_bind_ok hnode]
  match hk : nd.kind with
  | .file _ | .special | .link _ => rfl
  | .dir =>
    rw [Node.shape, hk] at hshape
    exact absurd (hlook.trans (congrArg some hshape.symm)) hl

/-- A `rename` that is refused changes nothing. -/
theorem run_rename_error {src dst : List α} {e : Failure μ}
    (h : (rename src dst : Sys α β μ _).run j = (.error e, j')) : j' = j := by
  have hquiet {γ : Type} {m : Sys α β μ γ} (hm : ∀ j, (m.run j).2 = j) {k : γ → Sys α β μ Unit}
      (hk : ∀ a e j', (k a).run j = (.error e, j') → j' = j) {e : Failure μ} {j' : Journal α β}
      (h : (m >>= k).run j = (.error e, j')) : j' = j := by
    have hj := hm j
    rcases hr : m.run j with ⟨e₁ | a, j₁⟩ <;> rw [hr] at hj
    · rw [run_bind_error hr] at h
      cases h
      exact hj
    · obtain rfl : j₁ = j := hj
      rw [run_bind_ok hr] at h
      exact hk a _ _ h
  have hexisting (look : Tree α β → Walk α) (j : Journal α β) : ((existing look : Sys α β μ _).run j).2 = j := by
    by_cases hs : ∃ l, look j.tree = .found l
    · obtain ⟨l, hs⟩ := hs
      rw [run_existing_found hs]
    · push Not at hs
      obtain ⟨e, he⟩ := run_existing_not_found (μ := μ) hs
      rw [he]
  have hnode (l : Loc α) (j : Journal α β) : ((nodeAt l : Sys α β μ _).run j).2 = j := rfl
  refine hquiet (hexisting _) (fun s e₁ j₁ h₁ => ?_) h
  refine hquiet (hnode s) (fun nd e₂ j₂ h₂ => ?_) h₁
  refine hquiet (fun _ => rfl) (fun x e₃ j₃ h₃ => ?_) h₂
  unfold renameTo at h₃
  split at h₃
  · cases h₃
  split at h₃
  · cases h₃
    rfl
  refine hquiet (fun _ => rfl) (fun _ e₄ j₄ h₄ => ?_) h₃
  split at h₄ <;> cases h₄
  rfl

/-- Moving a file of `own` -/
theorem hands_rename {src dst : List α} (hs : j.tree.lstat src = .found l)
    (hleaf : j.tree.look l = some .leaf) (hown : j.tree.owner l = some own)
    (hsQ : ∀ x, l <+: x → x ∈ Q)
    (hdQ : ∀ y, (j.tree.lstat dst).place = .ok y → ∀ x, y <+: x → x ∈ Q) :
    Hands own Q (rename src dst : Sys α β μ _) j := by
  rw [Hands]
  rcases hrun : (rename src dst : Sys α β μ _).run j with ⟨e | a, j'⟩
  · rw [run_rename_error hrun]
  · obtain ⟨s, nd, x, hs', -, hx, hend⟩ := run_rename_eq_ok.mp hrun
    cases hs.symm.trans hs'
    rcases hend with ⟨-, rfl⟩ | ⟨-, -, d, n, rfl, rfl⟩
    · exact .refl _
    · exact handing_move hleaf hown hsQ (hdQ _ hx)

-- the equations that later modules rewrite with, stated here once
attribute [local simp] Posix.Sys.Hands Posix.Tree.owner Posix.Tree.unowned

end

end Sys

end Posix
