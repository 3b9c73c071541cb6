import Gsm.GoStd.Os

/-!
# What a tree holds

`kindAt` is what is at a place: a directory, a file with its bytes, a link or something else. Owners
and modes are left out. Where nothing is in the way, making directories, overwriting a file and renaming
one come down to changing this function at the places they are about.
-/

namespace Posix.Tree

variable {α β : Type} {t t' : Tree α β} {p q l d : List α} {c : α}

def kindAt (t : Tree α β) (l : Loc α) : Option (Kind α β) := (t.node l).map Node.kind

theorem look_eq_kindAt (t : Tree α β) (l : Loc α) : t.look l = (t.kindAt l).map Kind.shape := by
  rw [look, kindAt, Option.map_map]
  rfl

theorem kindAt_eq_none : t.kindAt l = none ↔ t.node l = none := by
  rw [kindAt, Option.map_eq_none_iff]

theorem kindAt_eq_dir : t.kindAt l = some .dir ↔ t.look l = some .dir := by
  rw [look_eq_kindAt]
  rcases t.kindAt l with _ | k
  · simp
  · cases k <;> simp [Kind.shape]

theorem look_congr (h : t.kindAt = t'.kindAt) : t.look = t'.look := by
  funext l
  rw [look_eq_kindAt, look_eq_kindAt, h]

/-- A real directory is reached by its names. -/
theorem dirAt_self (h : t.look p = some .dir) : t.DirAt p p := by
  have hroot : t.DirAt [] [] := ⟨stat_root, t.look_root⟩
  exact hroot.append (q := p) h

theorem look_ancestor (hpre : q <+: p) (h : t.look p = some .dir) : t.look q = some .dir := by
  obtain ⟨rest, rfl⟩ := hpre
  by_cases hrest : rest = []
  · rwa [hrest, List.append_nil] at h
  · exact look_above hrest (node_ne_none h)

/-- What is there is found where its names lead. -/
theorem lstat_self (h : t.kindAt p ≠ none) : t.lstat p = .found p := by
  by_cases hp : p = []
  · subst hp
    exact lstat_root
  · exact (dirAt_self t.look_root).lstat_below hp fun hn => h (kindAt_eq_none.mpr hn)

theorem stat_self (h : t.kindAt p ≠ none) (hg : ∀ g, t.look p ≠ some (.link g)) :
    t.stat p = .found p := stat_of_lstat (lstat_self h) hg

theorem stat_file {data : β} (h : t.kindAt p = some (.file data)) : t.stat p = .found p := by
  refine stat_self (by simp [h]) fun g hg => ?_
  rw [look_eq_kindAt, h] at hg
  cases hg

/-- As far as anything is there on the way to a place, it is a directory. -/
def Real (t : Tree α β) (p : Loc α) : Prop := ∀ q, q <+: p → t.look q = none ∨ t.look q = some .dir

theorem Real.above (h : t.Real p) (hpre : q <+: p) : t.Real q := fun r hr => h r (hr.trans hpre)

theorem real_of_dir (h : t.look p = some .dir) : t.Real p := fun _ hq => .inr (look_ancestor hq h)

/-- A directory that a path leads to, or that `MkdirAll` makes of it. -/
def Leads (t : Tree α β) (p : List α) (P : Loc α) : Prop :=
  t.DirAt p P ∨
    ∃ q c rest d, p = q ++ c :: rest ∧ P = d ++ c :: rest ∧ t.DirAt q d ∧ t.look (d ++ [c]) = none

theorem Leads.dirAt (h : t.Leads p l) (hl : t.look l = some .dir) : t.DirAt p l := by
  rcases h with h | ⟨q, c, rest, d, rfl, rfl, -, hc⟩
  · exact h
  · have hmade := look_ancestor (q := d ++ [c]) (by simp) hl
    rw [hc] at hmade
    cases hmade

theorem Leads.congr {P : Loc α} (h : t.Leads p P) (hl : t.look = t'.look) : t'.Leads p P := by
  rcases h with h | ⟨q, c, rest, d, hp, hP, hd, hc⟩
  · exact .inl (h.congr hl)
  · exact .inr ⟨q, c, rest, d, hp, hP, hd.congr hl, by rw [← hl, hc]⟩

/-- Below a directory reached, names lead on as far as nothing else is in the way. -/
theorem DirAt.leads (h : t.DirAt p l) (hreal : t.Real (l ++ q)) : t.Leads (p ++ q) (l ++ q) := by
  induction q using List.reverseRecOn with
  | nil => exact .inl (by simpa using h)
  | append_singleton q c ih =>
    rw [← List.append_assoc] at hreal
    rw [← List.append_assoc, ← List.append_assoc]
    rcases ih (hreal.above (List.prefix_append _ _)) with hq | ⟨q', b, rest, d, hp, hl, hd, hb⟩
    · rcases hreal _ List.prefix_rfl with hc | hc
      · exact .inr ⟨p ++ q, c, [], l ++ q, rfl, rfl, hq, hc⟩
      · exact .inl (hq.concat hc)
    · exact .inr ⟨q', b, rest ++ [c], d, by rw [hp]; simp, by rw [hl]; simp, hd, hb⟩

theorem Real.leads (h : t.Real p) : t.Leads p p := by
  have hroot : t.DirAt [] [] := ⟨stat_root, t.look_root⟩
  exact hroot.leads (q := p) h

/-- The path leads to the directory whatever that directory holds. -/
def LeadsPast (t : Tree α β) (p : List α) (P : Loc α) : Prop :=
  ∀ t' : Tree α β, (∀ x, x = P ∨ ¬ P <+: x → t'.look x = t.look x) → t'.Leads p P

theorem Real.leadsPast (h : t.Real p) : t.LeadsPast p p := by
  intro t' hsame
  refine Real.leads fun q hq => ?_
  have hq' : q = p ∨ ¬ p <+: q := by
    by_cases hpre : p <+: q
    · exact .inl (hq.eq_of_length_le hpre.length_le)
    · exact .inr hpre
  rw [hsame q hq']
  exact h q hq

/-- A place where a file can be put: free, or a file. -/
def FreeForFile (t : Tree α β) (l : Loc α) : Prop :=
  t.kindAt l = none ∨ ∃ old, t.kindAt l = some (.file old)

theorem FreeForFile.look (h : t.FreeForFile l) :
    t.look l = none ∨ t.look l = some .leaf := by
  rw [look_eq_kindAt]
  rcases h with h | ⟨old, h⟩
  · exact .inl (by rw [h]; rfl)
  · exact .inr (by rw [h]; rfl)

/-- Where a file is opened, there is none yet, or a file. -/
theorem freeForFile_openTarget (h : t.openTarget p = some l) : t.FreeForFile l := by
  unfold openTarget at h
  split at h
  · next l' hs =>
    split at h <;> cases h
    next data hk => exact .inr ⟨data, hk⟩
  · next d n hs =>
    cases h
    exact .inl (kindAt_eq_none.mpr (look_eq_none.mp (stat_absent hs).2))
  · cases h

variable [LinearOrder α]

theorem kindAt_create {nd : Node α β} (hd : t.look d = some .dir) (hn : t.kindAt (d ++ [c]) = none)
    (x : Loc α) :
    (t.create d c nd).kindAt x = if x = d ++ [c] then some nd.kind else t.kindAt x := by
  rw [kindAt, node_create hd (kindAt_eq_none.mp hn)]
  split <;> rfl

theorem kindAt_alter_of_kind {f : Node α β → Node α β} (hf : ∀ nd, (f nd).shape = nd.shape)
    (hkind : ∀ nd, (f nd).kind = nd.kind) : (t.alter l f hf).kindAt = t.kindAt := by
  funext x
  rw [kindAt, node_alter]
  split
  · rw [Option.map_map, kindAt]
    exact congrArg (fun g => Option.map g (t.node x)) (funext hkind)
  · rfl

theorem kindAt_setData {data old : β} (h : t.kindAt l = some (.file old)) (x : Loc α) :
    (t.alter l (Node.setData data) (Node.shape_setData data)).kindAt x =
      if x = l then some (.file data) else t.kindAt x := by
  rw [kindAt, node_alter]
  split
  · next hx =>
    subst hx
    obtain ⟨nd, hnd, hk⟩ := Option.map_eq_some_iff.mp h
    rw [hnd, Option.map_some, Option.map_some, Node.setData, hk]
  · rfl

/-- The same names in the same order wherever the same is there. -/
theorem below_congr (h : ∀ x, x ≠ [] → (t.node (l ++ x) = none ↔ t'.node (l ++ x) = none)) :
    t.below l = t'.below l := by
  have hmem : ∀ x, x ∈ t.below l ↔ x ∈ t'.below l := by
    intro x
    constructor
    · intro hx
      obtain ⟨hne, hn⟩ := mem_below hx
      exact mem_below_of_node hne fun hn' => hn ((h x hne).mpr hn')
    · intro hx
      obtain ⟨hne, hn⟩ := mem_below hx
      exact mem_below_of_node hne fun hn' => hn ((h x hne).mp hn')
  have hsorted : ∀ u : Tree α β, (u.below l).Pairwise (· ≤ ·) := fun u =>
    List.pairwise_insertionSort _ _
  have hnodup : ∀ u : Tree α β, (u.below l).Nodup := fun u =>
    (List.perm_insertionSort _ _).nodup_iff.mpr (List.nodup_dedup _)
  exact ((List.perm_ext_iff_of_nodup (hnodup t) (hnodup t')).mpr hmem).eq_of_pairwise
    (fun a b _ _ => le_antisymm) (hsorted t) (hsorted t')

end Posix.Tree

namespace Posix.Journal

variable {α β : Type} [LinearOrder α] {j : Journal α β} {d x : Loc α} {c : α}
  {own : Option (ℕ × ℕ)} {mode : ℕ}

@[simp] theorem kindAt_give {l : Loc α} : (j.give own l).tree.kindAt = j.tree.kindAt := by
  match own with
  | none => rfl
  | some (uid, gid) => exact Tree.kindAt_alter_of_kind (Node.shape_setOwner uid gid) fun _ => rfl

theorem kindAt_makeDirs (own : Option (ℕ × ℕ)) (mode : ℕ) (x : Loc α)
    (hd : j.tree.look d = some .dir) (hc : j.tree.kindAt (d ++ [c]) = none) (names : List α) :
    (j.makeDirs own mode d (c :: names)).tree.kindAt x =
      if d ++ [c] <+: x ∧ x <+: d ++ c :: names then some .dir else j.tree.kindAt x := by
  have hlook : j.tree.look (d ++ [c]) = none := by rw [Tree.look_eq_kindAt, hc]; rfl
  by_cases hx : d ++ [c] <+: x ∧ x <+: d ++ c :: names
  · rw [if_pos hx, Tree.kindAt_eq_dir, look_makeDirs own mode x hd hlook, if_pos hx]
  · rw [if_neg hx]
    clear hlook
    induction names generalizing j d c with
    | nil =>
      have hne : x ≠ d ++ [c] := fun he => hx ⟨he ▸ List.prefix_rfl, he ▸ List.prefix_rfl⟩
      rw [makeDirs, makeDirs, kindAt_give, tree_create, Tree.kindAt_create hd hc, if_neg hne]
    | cons b rest ih =>
      have hd' := look_makeDir own mode (d ++ [c]) hd (by rw [Tree.look_eq_kindAt, hc]; rfl)
      rw [if_pos rfl] at hd'
      have hk : ∀ y, ((j.create d c ⟨.dir, mode, 0, 0⟩).give own (d ++ [c])).tree.kindAt y =
          if y = d ++ [c] then some .dir else j.tree.kindAt y := fun y => by
        rw [kindAt_give, tree_create, Tree.kindAt_create hd hc]
      have hb : j.tree.kindAt (d ++ [c] ++ [b]) = none := by
        rw [Tree.kindAt_eq_none]
        refine Tree.node_below (by simp) ?_
        rw [Tree.look_eq_kindAt, hc]
        simp
      have hne : x ≠ d ++ [c] := fun he => hx ⟨he ▸ List.prefix_rfl, he ▸ by simp⟩
      rw [makeDirs, ih hd' (by rw [hk, if_neg (by simp), hb]), hk, if_neg hne]
      rintro ⟨h1, h2⟩
      exact hx ⟨(List.prefix_append _ _).trans h1, by simpa using h2⟩

end Posix.Journal

namespace GoStd

open Posix

variable {α β μ : Type} [LinearOrder α] {j : Journal α β} {p : List α} {mode : ℕ}

/-- What there is once the directories of a path have been made. -/
def withDirs (p : List α) (k : Loc α → Option (Kind α β)) (x : Loc α) : Option (Kind α β) :=
  if x <+: p then some .dir else k x

/-- What there is once a file has been put at a place. -/
def withFile (l : Loc α) (data : β) (k : Loc α → Option (Kind α β)) (x : Loc α) :
    Option (Kind α β) :=
  if x = l then some (.file data) else k x

/-- What there is once a place is free. -/
def without (l : Loc α) (k : Loc α → Option (Kind α β)) (x : Loc α) : Option (Kind α β) :=
  if x = l then none else k x

variable {k : Loc α → Option (Kind α β)} {l x : Loc α} {data : β}

theorem withDirs_above (h : x <+: p) : withDirs p k x = some .dir := if_pos h

theorem withDirs_of_not (h : ¬ x <+: p) : withDirs p k x = k x := if_neg h

@[simp] theorem withFile_self : withFile l data k l = some (.file data) := if_pos rfl

theorem withFile_ne (h : x ≠ l) : withFile l data k x = k x := if_neg h

@[simp] theorem without_self : without l k l = none := if_pos rfl

theorem without_ne (h : x ≠ l) : without l k x = k x := if_neg h

/-- The missing directories of a path made, in whatever way. -/
theorem kindAt_makeDirs_withDirs {q rest : List α} {c : α} (own : Option (ℕ × ℕ))
    (hq : j.tree.look q = some .dir) (hc : j.tree.look (q ++ [c]) = none) :
    (j.makeDirs own mode q (c :: rest)).tree.kindAt = withDirs (q ++ c :: rest) j.tree.kindAt := by
  funext x
  have hkc : j.tree.kindAt (q ++ [c]) = none := by
    rw [Tree.kindAt_eq_none, ← Tree.look_eq_none]
    exact hc
  rw [Journal.kindAt_makeDirs own mode x hq hkc, withDirs]
  by_cases hx : x <+: q ++ c :: rest
  · rw [if_pos hx]
    by_cases hlong : q ++ [c] <+: x
    · rw [if_pos ⟨hlong, hx⟩]
    · -- a shorter part of the path was there
      have hxq : x <+: q := by
        refine List.prefix_of_prefix_length_le hx (List.prefix_append _ _) ?_
        by_contra hlen
        refine hlong (List.prefix_of_prefix_length_le ?_ hx ?_)
        · simp
        · rw [List.length_append, List.length_singleton]
          omega
      rw [if_neg fun h => hlong h.1, Tree.kindAt_eq_dir]
      exact Tree.look_ancestor hxq hq
  · rw [if_neg hx, if_neg fun h => hx h.2]

theorem kindAt_withDirs_self (h : j.tree.look p = some .dir) :
    withDirs p j.tree.kindAt = j.tree.kindAt := by
  funext x
  rw [withDirs]
  split
  · next hx => exact (Tree.kindAt_eq_dir.mpr (Tree.look_ancestor hx h)).symm
  · rfl

/-- Beside the path nothing changes. -/
theorem node_makeDirs_ne {x : Loc α} {q rest : List α} (hx : ¬ x <+: q ++ rest) :
    (j.makeDirs none mode q rest).tree.node x = j.tree.node x := by
  induction rest generalizing j q with
  | nil => rfl
  | cons c rest ih =>
    have hne : x ≠ q ++ [c] := by
      rintro rfl
      exact hx (by simp)
    rw [Journal.makeDirs, ih (by simpa using hx)]
    exact Tree.node_create_ne _ _ hne

/-- `MkdirAll` adds the directories of the path and nothing else. -/
theorem run_mkdirAll_leads {P : Loc α} (mode : ℕ) (h : j.tree.Leads p P) :
    ∃ j', (mkdirAll p mode : Sys α β μ Unit).run j = (.ok (), j') ∧ j'.tree.DirAt p P ∧
      j'.tree.kindAt = withDirs P j.tree.kindAt ∧
      (∀ x s, j.tree.look x = some s → j'.tree.look x = some s) ∧
      ∀ x, ¬ x <+: P → j'.tree.node x = j.tree.node x := by
  rcases h with hp | ⟨q, c, rest, d, rfl, rfl, hq, hc⟩
  · exact ⟨j, mkdirAll_present hp, hp, (kindAt_withDirs_self hp.2).symm, fun _ _ hx => hx,
      fun _ _ => rfl⟩
  · exact ⟨_, mkdirAll_missing hq hc rest, Journal.dirAt_makeDirs none mode hq hc rest,
      kindAt_makeDirs_withDirs none hq.2 hc,
      fun _ _ => Journal.look_makeDirs_mono none mode hq.2 hc rest, fun _ hx => node_makeDirs_ne hx⟩

/-- Putting a file where there was none or another keeps what lookup sees. -/
theorem look_of_withFile {t t' : Tree α β} (hl : t.FreeForFile l)
    (hk : t'.kindAt = withFile l data t.kindAt) (x : Loc α) (s : Shape α)
    (hs : t.look x = some s) : t'.look x = some s := by
  rw [Tree.look_eq_kindAt, hk]
  by_cases hx : x = l
  · subst hx
    rw [withFile_self]
    rcases hl.look with hnone | hleaf
    · rw [hnone] at hs
      cases hs
    · rw [hleaf] at hs
      cases hs
      rfl
  · rw [withFile_ne hx, ← Tree.look_eq_kindAt, hs]

variable {P : Loc α} {n : α}

/-- A file in a directory, opened to be written: free before, or a file. -/
theorem run_openTrunc_file [EmptyCollection β] (mode : ℕ) (hp : j.tree.DirAt p P)
    (hn : j.tree.FreeForFile (P ++ [n])) :
    ∃ j', (Sys.openTrunc (p ++ [n]) mode : Sys α β μ _).run j = (.ok (P ++ [n]), j') ∧
      j'.tree.kindAt = withFile (P ++ [n]) ∅ j.tree.kindAt ∧
      ∀ x, x ≠ P ++ [n] → j'.tree.node x = j.tree.node x := by
  have hstat := hp.stat_concat (c := n) fun g hg => by
    rcases hn.look with h | h <;> rw [h] at hg <;> cases hg
  rcases hn with hn | ⟨old, hn⟩
  · have hlook : j.tree.look (P ++ [n]) = none := by rw [Tree.look_eq_kindAt, hn]; rfl
    rw [hlook] at hstat
    refine ⟨j.create P n ⟨.file ∅, mode, 0, 0⟩, ?_, ?_, fun x hx => Tree.node_create_ne _ _ hx⟩
    · simp only [Sys.openTrunc, Sys.peek, Sys.run_bind, Sys.run_look, hstat]
      rfl
    · exact funext fun x => Tree.kindAt_create hp.2 hn x
  · obtain ⟨nd, hnd, hk⟩ := Option.map_eq_some_iff.mp hn
    have hlook : j.tree.look (P ++ [n]) = some .leaf := by rw [Tree.look_eq_kindAt, hn]; rfl
    rw [hlook] at hstat
    refine ⟨j.alter .write (by decide) (P ++ [n]) (Node.setData ∅) (Node.shape_setData ∅), ?_, ?_,
      fun x hx => if_neg hx⟩
    · simp only [Sys.openTrunc, Sys.peek, Sys.nodeAt, Sys.run_bind, Sys.run_look, hstat,
        Option.isNone_some, Bool.false_eq_true, if_false, hnd, hk]
      rfl
    · exact funext fun x => Tree.kindAt_setData hn x

/-- A file is opened where the path leads to, be it through a link, and emptied. -/
theorem run_openTrunc_target [EmptyCollection β] (mode : ℕ) (h : j.tree.openTarget p = some l) :
    ∃ j', (Sys.openTrunc p mode : Sys α β μ _).run j = (.ok l, j') ∧
      j'.tree.kindAt = withFile l ∅ j.tree.kindAt := by
  unfold Tree.openTarget at h
  split at h
  · next l' hs =>
    split at h <;> cases h
    next old hold =>
    obtain ⟨nd, hnd, hkind⟩ := Option.map_eq_some_iff.mp hold
    refine ⟨j.alter .write (by decide) l (Node.setData ∅) (Node.shape_setData ∅), ?_, ?_⟩
    · simp only [Sys.openTrunc, Sys.peek, Sys.nodeAt, Sys.run_bind, Sys.run_look, hs, hnd, hkind]
      rfl
    · exact funext fun x => Tree.kindAt_setData hold x
  · next d n hs =>
    cases h
    obtain ⟨hd, hn⟩ := Tree.stat_absent hs
    refine ⟨j.create d n ⟨.file ∅, mode, 0, 0⟩, ?_, ?_⟩
    · simp only [Sys.openTrunc, Sys.peek, Sys.run_bind, Sys.run_look, hs]
      rfl
    · exact funext fun x =>
        Tree.kindAt_create hd (Tree.kindAt_eq_none.mpr (Tree.look_eq_none.mp hn)) x
  · cases h

/-- A file is written where the path leads to. -/
theorem run_overwrite_target [EmptyCollection β] (mode : ℕ) (data : β) (h : j.tree.openTarget p = some l) :
    ∃ j', (Sys.overwrite p mode data : Sys α β μ _).run j = (.ok (), j') ∧
      j'.tree.kindAt = withFile l data j.tree.kindAt := by
  obtain ⟨j₁, hopen, hk⟩ := run_openTrunc_target (μ := μ) mode h
  have hfile : j₁.tree.kindAt l = some (.file ∅) := by rw [hk, withFile_self]
  refine ⟨_, by rw [Sys.overwrite, Sys.run_bind_ok hopen, Sys.run_write], ?_⟩
  funext x
  rw [Journal.tree_alter, Tree.kindAt_setData hfile, hk]
  by_cases hx : x = l
  · rw [if_pos hx, hx, withFile_self]
  · rw [if_neg hx, withFile_ne hx, withFile_ne hx]

/-- The same in a directory, for a name that is free before, or a file. -/
theorem run_overwrite_file [EmptyCollection β] (mode : ℕ) (data : β) (hp : j.tree.DirAt p P)
    (hn : j.tree.FreeForFile (P ++ [n])) :
    ∃ j', (Sys.overwrite (p ++ [n]) mode data : Sys α β μ _).run j = (.ok (), j') ∧
      j'.tree.kindAt = withFile (P ++ [n]) data j.tree.kindAt := by
  refine run_overwrite_target (μ := μ) mode data ?_
  have hstat := hp.stat_concat (c := n) fun g hg => by
    rcases hn.look with h | h <;> rw [h] at hg <;> cases hg
  rcases hn with hn | ⟨old, hn⟩
  · have hlook : j.tree.look (P ++ [n]) = none := by rw [Tree.look_eq_kindAt, hn]; rfl
    rw [Tree.openTarget, hstat, hlook]
    rfl
  · have hlook : j.tree.look (P ++ [n]) = some .leaf := by rw [Tree.look_eq_kindAt, hn]; rfl
    have hkind : (j.tree.node (P ++ [n])).map Node.kind = some (.file old) := hn
    rw [hlook] at hstat
    rw [Tree.openTarget, hstat]
    simp [hkind]

/-- One file of a directory renamed over another of it, or to a free name. -/
theorem run_rename_file {a b : α} (hp : j.tree.DirAt p P) (hab : a ≠ b)
    (ha : j.tree.kindAt (P ++ [a]) = some (.file data)) (hb : j.tree.FreeForFile (P ++ [b])) :
    ∃ j', (Sys.rename (p ++ [a]) (p ++ [b]) : Sys α β μ _).run j = (.ok (), j') ∧
      j'.tree.kindAt = withFile (P ++ [b]) data (without (P ++ [a]) j.tree.kindAt) := by
  obtain ⟨nd, hnd, hkind⟩ := Option.map_eq_some_iff.mp ha
  have hlooka : j.tree.look (P ++ [a]) = some .leaf := by rw [Tree.look_eq_kindAt, ha]; rfl
  have hshape : nd.shape = .leaf := by rw [Node.shape, hkind]; rfl
  have hnpre : ¬ P ++ [a] <+: P ++ [b] := by
    rw [List.prefix_append_right_inj]
    simpa using hab
  have hnpre' : ¬ P ++ [b] <+: P ++ [a] := by
    rw [List.prefix_append_right_inj]
    simpa using hab.symm
  have hplace : (j.tree.lstat (p ++ [b])).place = .ok (P ++ [b]) := by
    rw [hp.lstat_concat]
    split <;> rfl
  have hfound : j.tree.lstat (p ++ [a]) = .found (P ++ [a]) := by
    rw [hp.lstat_concat, hlooka]
    rfl
  have hmay : Sys.mayReplace j.tree nd.shape (P ++ [b]) = .ok () := by
    rw [hshape]
    rcases hb.look with h | h <;> simp [Sys.mayReplace, h]
  refine ⟨j.replace (P ++ [a]) P b, Sys.run_rename_eq_ok.mpr ⟨_, nd, _, hfound, hnd, hplace,
    .inr ⟨hnpre, hmay, P, b, rfl, rfl⟩⟩, ?_⟩
  have hremove : ∀ x, ¬ P ++ [b] <+: x →
      (j.tree.remove (P ++ [b])).node x = j.tree.node x := fun x => Tree.node_remove_ne _
  have hgone : (j.tree.remove (P ++ [b])).node (P ++ [b]) = none :=
    Tree.node_remove_below _ (by simp) List.prefix_rfl
  have hdir : (j.tree.remove (P ++ [b])).look P = some .dir := by
    rw [Tree.look, hremove P (by
      intro hpre
      have := hpre.length_le
      simp only [List.length_append, List.length_singleton] at this
      omega)]
    exact hp.2
  have hmove := Tree.node_move ⟨(by simp : P ++ [a] ≠ []), hdir, hgone, hnpre⟩
  -- nothing lies below the two files
  have hbelow : ∀ y, y ≠ [] → j.tree.node (P ++ [a] ++ y) = none := fun y hy =>
    Tree.node_below hy (by simp [hlooka])
  have hbelow' : ∀ y, y ≠ [] → j.tree.node (P ++ [b] ++ y) = none := fun y hy =>
    Tree.node_below hy (by rcases hb.look with h | h <;> simp [h])
  funext x
  rw [Tree.kindAt, Journal.tree_replace, hmove]
  by_cases hxb : P ++ [b] <+: x
  · obtain ⟨y, rfl⟩ := hxb
    have hfrom : Tree.movedFrom (P ++ [a]) (P ++ [b]) (P ++ [b] ++ y) = P ++ [a] ++ y := by
      simp [Tree.movedFrom]
    have hsrc : ¬ P ++ [b] <+: P ++ [a] ++ y := by
      rw [List.append_assoc, List.prefix_append_right_inj]
      simpa using hab.symm
    rw [if_pos (List.prefix_append _ _), hfrom, hremove _ hsrc]
    by_cases hy : y = []
    · subst hy
      rw [List.append_nil, List.append_nil, withFile_self, hnd, Option.map_some, hkind]
    · have hne : P ++ [b] ++ y ≠ P ++ [b] := by simpa using hy
      have hne' : P ++ [b] ++ y ≠ P ++ [a] := fun h => hnpre' (h ▸ List.prefix_append _ _)
      rw [withFile_ne hne, without_ne hne', hbelow y hy, Tree.kindAt, hbelow' y hy]
  · have hne : x ≠ P ++ [b] := fun h => hxb (h ▸ List.prefix_rfl)
    rw [if_neg hxb, withFile_ne hne]
    by_cases hxa : P ++ [a] <+: x
    · obtain ⟨y, rfl⟩ := hxa
      rw [if_pos (List.prefix_append _ _)]
      by_cases hy : y = []
      · rw [hy, List.append_nil, without_self]
        rfl
      · have hne' : P ++ [a] ++ y ≠ P ++ [a] := by simpa using hy
        rw [without_ne hne', Tree.kindAt, hbelow y hy]
    · have hne' : x ≠ P ++ [a] := fun h => hxa (h ▸ List.prefix_rfl)
      rw [if_neg hxa, without_ne hne', hremove x hxb]
      rfl

theorem run_handOver_kind (own : Option (ℕ × ℕ)) (h : j.tree.lstat p = .found P) :
    ∃ j', (Sys.handOver own p : Sys α β μ Unit).run j = (.ok (), j') ∧
      j'.tree.kindAt = j.tree.kindAt :=
  ⟨_, Sys.run_handOver h, Journal.kindAt_give⟩

-- the equations that later modules rewrite with, stated here once
attribute [local simp] Posix.Tree.kindAt

end GoStd
