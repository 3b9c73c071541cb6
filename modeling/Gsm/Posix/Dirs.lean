import Gsm.Posix.Calls

/-!
# Chains of new directories

`makeDirs` makes one directory inside another, the effect of the user-space functions that create
the missing part of a path. Everything it accesses lies at or below the first of them.
-/

namespace Posix

variable {α β : Type} [LinearOrder α]

namespace Journal

/-- Hand a node to an owner, if one is wanted. -/
def give (own : Option (ℕ × ℕ)) (j : Journal α β) (l : Loc α) : Journal α β :=
  match own with
  | none => j
  | some (uid, gid) => j.alter .chown Act.changes_chown l (Node.setOwner uid gid)
    (Node.shape_setOwner uid gid)

/-- Make directories below `d`, each inside the one before and handed to `own` as it is made. -/
def makeDirs (own : Option (ℕ × ℕ)) (mode : ℕ) (j : Journal α β) (d : Loc α) :
    List α → Journal α β
  | [] => j
  | c :: rest =>
      makeDirs own mode ((j.create d c ⟨.dir, mode, 0, 0⟩).give own (d ++ [c])) (d ++ [c]) rest

variable {acts : Act → Prop} {R d l x : Loc α} {c : α} {own : Option (ℕ × ℕ)} {mode : ℕ}
  {j : Journal α β}

@[simp] theorem look_give : (j.give own l).tree.look = j.tree.look := by
  cases own <;> simp [give]

@[simp] theorem stat_give {p : List α} : (j.give own l).tree.stat p = j.tree.stat p := by
  rw [Tree.stat, look_give]
  rfl

theorem before_give : j.Before (j.give own l) := by
  cases own
  · exact .refl j
  · exact ⟨rfl, List.prefix_append _ _⟩

theorem stays_give : j.Stays acts R (j.give own l) ↔ (own.isSome → acts .chown → R <+: l) := by
  cases own with
  | none => simpa [give] using Stays.refl j
  | some o =>
    rw [give, stays_iff _ (log_alter _ _ _ _ _ _)]
    simp

theorem stays_create {nd : Node α β} :
    j.Stays acts R (j.create d c nd) ↔ (acts .create → R <+: d ++ [c]) := by
  rw [stays_iff _ (log_create _ _ _ _)]
  simp

theorem before_create {nd : Node α β} : j.Before (j.create d c nd) :=
  ⟨rfl, List.prefix_append _ _⟩

theorem before_makeDirs (names : List α) : j.Before (j.makeDirs own mode d names) := by
  induction names generalizing j d with
  | nil => exact .refl j
  | cons c rest ih => exact (before_create.trans before_give).trans ih

/-- One directory more at the end of the chain. -/
theorem makeDirs_concat (own : Option (ℕ × ℕ)) (mode : ℕ) (j : Journal α β) (d : Loc α) (c : α)
    (names : List α) :
    j.makeDirs own mode d (names ++ [c]) =
      ((j.makeDirs own mode d names).create (d ++ names) c ⟨.dir, mode, 0, 0⟩).give own
        (d ++ names ++ [c]) := by
  induction names generalizing j d with
  | nil => simp [makeDirs]
  | cons a rest ih =>
    rw [List.cons_append, makeDirs, ih, makeDirs]
    simp

/-- The whole chain stays inside when its first directory does. -/
theorem stays_makeDirs (names : List α) :
    j.Stays acts R (j.makeDirs own mode d (c :: names)) ↔
      (acts .create → R <+: d ++ [c]) ∧ (own.isSome → acts .chown → R <+: d ++ [c]) := by
  have hfirst : j.Stays acts R ((j.create d c ⟨.dir, mode, 0, 0⟩).give own (d ++ [c])) ↔
      (acts .create → R <+: d ++ [c]) ∧ (own.isSome → acts .chown → R <+: d ++ [c]) := by
    rw [stays_split before_create before_give, stays_create, stays_give]
  rw [makeDirs, stays_split (before_create.trans before_give) (before_makeDirs names), hfirst]
  refine and_iff_left_of_imp ?_
  induction names generalizing j d c with
  | nil => exact fun _ => Stays.refl _
  | cons b rest ih =>
    intro h
    have hb : (acts .create → R <+: d ++ [c] ++ [b]) ∧
        (own.isSome → acts .chown → R <+: d ++ [c] ++ [b]) :=
      ⟨fun ha => (h.1 ha).trans (List.prefix_append _ _),
        fun ho ha => (h.2 ho ha).trans (List.prefix_append _ _)⟩
    rw [makeDirs, stays_split (before_create.trans before_give) (before_makeDirs rest)]
    refine ⟨?_, ih (by rw [stays_split before_create before_give, stays_create, stays_give]) hb⟩
    rw [stays_split before_create before_give, stays_create, stays_give]
    exact hb

theorem look_makeDir (own : Option (ℕ × ℕ)) (mode : ℕ) (x : Loc α)
    (hd : j.tree.look d = some .dir) (hc : j.tree.look (d ++ [c]) = none) :
    ((j.create d c ⟨.dir, mode, 0, 0⟩).give own (d ++ [c])).tree.look x =
      if x = d ++ [c] then some .dir else j.tree.look x := by
  rw [look_give, tree_create, Tree.look_create _ hd (Tree.look_eq_none.mp hc)]
  rfl

/-- The directories of a chain are its first and those of the chain below. -/
theorem chain_cons {b : α} {rest : List α} :
    (d ++ [c] ++ [b] <+: x ∧ x <+: d ++ [c] ++ b :: rest) ∨ x = d ++ [c] ↔
      d ++ [c] <+: x ∧ x <+: d ++ c :: b :: rest := by
  have happ : d ++ [c] ++ b :: rest = d ++ c :: b :: rest := by simp
  rw [happ]
  constructor
  · rintro (⟨h1, h2⟩ | rfl)
    · exact ⟨(List.prefix_append _ _).trans h1, h2⟩
    · exact ⟨List.prefix_rfl, by simp⟩
  · rintro ⟨h1, h2⟩
    -- a prefix of the chain that is longer than its first directory reaches the second
    by_cases hx : x = d ++ [c]
    · exact Or.inr hx
    · refine Or.inl ⟨List.prefix_of_prefix_length_le (by simp) h2 ?_, h2⟩
      have hlt : (d ++ [c]).length ≠ x.length := fun he => hx (h1.eq_of_length he).symm
      have hle := h1.length_le
      simp only [List.length_append, List.length_singleton] at hlt hle ⊢
      omega

/-- What is where after the chain was made: the new directories, and all else as before. -/
theorem look_makeDirs (own : Option (ℕ × ℕ)) (mode : ℕ) (x : Loc α)
    (hd : j.tree.look d = some .dir) (hc : j.tree.look (d ++ [c]) = none) (names : List α) :
    (j.makeDirs own mode d (c :: names)).tree.look x =
      if d ++ [c] <+: x ∧ x <+: d ++ c :: names then some .dir else j.tree.look x := by
  induction names generalizing j d c with
  | nil =>
    rw [makeDirs, makeDirs, look_makeDir own mode x hd hc]
    refine if_congr ⟨?_, fun h => h.2.eq_of_length_le h.1.length_le⟩ rfl rfl
    rintro rfl
    exact ⟨List.prefix_rfl, List.prefix_rfl⟩
  | cons b rest ih =>
    have hd' := look_makeDir own mode (d ++ [c]) hd hc
    have hb' := look_makeDir own mode (d ++ [c] ++ [b]) hd hc
    have hb : j.tree.look (d ++ [c] ++ [b]) = none :=
      Tree.look_eq_none.mpr (Tree.node_below (by simp) (by simp [hc]))
    rw [if_pos rfl] at hd'
    rw [if_neg (by simp), hb] at hb'
    rw [makeDirs, ih hd' hb', look_makeDir own mode x hd hc, ← ite_or]
    exact if_congr chain_cons rfl rfl

/-- Nothing lies below the last of the new directories. -/
theorem node_below_makeDirs (own : Option (ℕ × ℕ)) (mode : ℕ) (hd : j.tree.look d = some .dir)
    (hc : j.tree.look (d ++ [c]) = none) (names : List α) {y : List α} (hy : y ≠ []) :
    (j.makeDirs own mode d (c :: names)).tree.node (d ++ c :: names ++ y) = none := by
  rw [← Tree.look_eq_none, look_makeDirs own mode _ hd hc, if_neg, Tree.look_eq_none]
  · have happ : d ++ c :: names ++ y = d ++ [c] ++ (names ++ y) := by simp
    rw [happ]
    exact Tree.node_below (by simp [hy]) (by simp [hc])
  · rintro ⟨-, h⟩
    have := h.length_le
    have hpos := List.length_pos_iff.mpr hy
    simp only [List.length_append] at this
    omega

/-- Nothing that was there changes its shape. -/
theorem look_makeDirs_mono (own : Option (ℕ × ℕ)) (mode : ℕ) (hd : j.tree.look d = some .dir)
    (hc : j.tree.look (d ++ [c]) = none) (names : List α) {s : Shape α}
    (hs : j.tree.look x = some s) :
    (j.makeDirs own mode d (c :: names)).tree.look x = some s := by
  rw [look_makeDirs own mode x hd hc, if_neg, hs]
  rintro ⟨⟨y, rfl⟩, -⟩
  by_cases hy : y = []
  · simp [hy, hc] at hs
  · exact Tree.node_ne_none hs (Tree.node_below hy (by simp [hc]))

/-- A path that led to `d` leads, with the new names behind it, to the end of the chain. -/
theorem dirAt_makeDirs {p : List α} (own : Option (ℕ × ℕ)) (mode : ℕ) (h : j.tree.DirAt p d)
    (hc : j.tree.look (d ++ [c]) = none) (names : List α) :
    (j.makeDirs own mode d (c :: names)).tree.DirAt (p ++ c :: names) (d ++ c :: names) := by
  have hle (x : Loc α) (s : Shape α) (hs : j.tree.look x = some s) :=
    look_makeDirs_mono own mode h.2 hc names hs
  have hnew (ys : List α) (hpre : c :: ys <+: c :: names) :
      (j.makeDirs own mode d (c :: names)).tree.DirAt (p ++ c :: ys) (d ++ c :: ys) := by
    induction ys using List.reverseRecOn with
    | nil =>
      refine (h.mono hle).concat ?_
      rw [look_makeDirs own mode _ h.2 hc, if_pos ⟨List.prefix_rfl, by simp⟩]
    | append_singleton ys y ih =>
      have ih := ih ((List.prefix_append (c :: ys) [y]).trans hpre)
      have happ (q : List α) : q ++ c :: (ys ++ [y]) = q ++ c :: ys ++ [y] := by simp
      rw [happ, happ]
      refine ih.concat ?_
      rw [look_makeDirs own mode _ h.2 hc, if_pos]
      refine ⟨by simp, ?_⟩
      rw [← happ]
      exact (List.prefix_append_right_inj d).mpr hpre
  exact hnew names List.prefix_rfl

theorem lstat_makeDirs {p : List α} (own : Option (ℕ × ℕ)) (mode : ℕ) (h : j.tree.DirAt p d)
    (hc : j.tree.look (d ++ [c]) = none) (names : List α) :
    (j.makeDirs own mode d (c :: names)).tree.lstat (p ++ c :: names) = .found (d ++ c :: names) :=
  (h.mono fun _ _ => look_makeDirs_mono own mode h.2 hc names).lstat_below (by simp)
    (Tree.node_ne_none (dirAt_makeDirs own mode h hc names).2)

/-- In a directory just made a file is new. -/
theorem stat_makeDirs {q rest : List α} {n : α} (own : Option (ℕ × ℕ)) (mode : ℕ)
    (hq : j.tree.DirAt q d) (hc : j.tree.look (d ++ [c]) = none) :
    (j.makeDirs own mode d (c :: rest)).tree.stat (q ++ c :: rest ++ [n]) =
      .absent (d ++ c :: rest) n := by
  have hdir := dirAt_makeDirs own mode hq hc rest
  have hfree := Tree.look_eq_none.mpr (node_below_makeDirs own mode hq.2 hc rest (y := [n])
    (by simp))
  rw [hdir.stat_concat fun g => by rw [hfree]; simp, hfree]
  rfl

theorem openTarget_makeDirs {q rest : List α} {n : α} (own : Option (ℕ × ℕ)) (mode : ℕ)
    (hq : j.tree.DirAt q d) (hc : j.tree.look (d ++ [c]) = none) :
    (j.makeDirs own mode d (c :: rest)).tree.openTarget (q ++ c :: rest ++ [n]) =
      some (d ++ c :: rest ++ [n]) := by
  rw [Tree.openTarget, stat_makeDirs own mode hq hc]

/-- A file in directories made inside is inside. -/
theorem opensInside_makeDirs {q rest : List α} {n : α} {handed : Prop} (own : Option (ℕ × ℕ))
    (mode : ℕ) (hq : j.tree.DirAt q d) (hc : j.tree.look (d ++ [c]) = none) (hin : R <+: d ++ [c]) :
    (j.makeDirs own mode d (c :: rest)).tree.OpensInside R (q ++ c :: rest ++ [n]) handed := by
  have hin : R <+: d ++ c :: rest ++ [n] := hin.trans (by simp)
  intro l hl
  rw [openTarget_makeDirs own mode hq hc] at hl
  cases hl
  refine ⟨hin, fun _ S hS => ?_⟩
  rw [(dirAt_makeDirs own mode hq hc rest).lstat_concat] at hS
  split at hS <;> cases hS <;> exact hin

theorem openTarget_give {p : List α} :
    (j.give own l).tree.openTarget p = j.tree.openTarget p := by
  cases own
  · rfl
  · exact Tree.openTarget_setOwner p

/-- Owners do not matter to where a file is opened. -/
theorem opensInside_give {p : List α} {handed : Prop} :
    (j.give own l).tree.OpensInside R p handed ↔ j.tree.OpensInside R p handed := by
  have hlstat : (j.give own l).tree.lstat p = j.tree.lstat p := Tree.lstat_congr look_give
  unfold Tree.OpensInside
  rw [openTarget_give, hlstat]

end Journal

namespace Sys

variable {μ : Type}

/-- Hand a node over, if an owner is wanted, whatever comes of it. -/
def handOver (own : Option (ℕ × ℕ)) (p : List α) : Sys α β μ Unit :=
  match own with
  | none => pure ()
  | some (uid, gid) => do
      let _ ← (lchown p uid gid).attempt
      pure ()

theorem run_handOver {own : Option (ℕ × ℕ)} {p : List α} {l : Loc α} {j : Journal α β}
    (h : j.tree.lstat p = .found l) :
    (handOver own p : Sys α β μ Unit).run j = (.ok (), j.give own l) := by
  match own with
  | none => rfl
  | some (uid, gid) =>
    rw [handOver, run_bind, run_attempt, lchown, run_touch_found (f := (·.lstat p)) h]
    rfl

theorem raises_handOver {P : Failure μ → Prop} (own : Option (ℕ × ℕ)) (p : List α) :
    Raises P (handOver own p : Sys α β μ Unit) := by
  match own with
  | none => exact raises_pure _
  | some (uid, gid) => exact (raises_attempt _).bind fun _ => raises_pure _

-- the equations that later modules rewrite with, stated here once
attribute [local simp] Posix.Journal.makeDirs Posix.Journal.makeDirs.eq_def

end Sys

end Posix
