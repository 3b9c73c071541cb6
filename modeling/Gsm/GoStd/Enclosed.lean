import Gsm.GoStd.Contents

/-!
# Work below a directory without links

Where nothing below a directory is a link, names lead on from it to the places they spell. A program
that only makes directories, writes files and hands nodes over under such names reaches no other part of
the tree, and what it leaves is a directory without links again.
-/

open Posix

namespace Posix.Tree

variable {α β : Type} {t t' t'' : Tree α β}

/-- Whatever was there is there still, of the same shape. -/
def Grows (t t' : Tree α β) : Prop := ∀ x s, t.look x = some s → t'.look x = some s

@[refl] theorem Grows.refl (t : Tree α β) : Grows t t := fun _ _ h => h

@[trans] theorem Grows.trans (h : Grows t t') (h' : Grows t' t'') : Grows t t'' :=
  fun x s hs => h' x s (h x s hs)

theorem Grows.of_look (h : t'.look = t.look) : Grows t t' := fun x s hs => by rw [h, hs]

/-- A directory that a path leads to, with no link below it. -/
structure Enclosed (t : Tree α β) (p : List α) (P : Loc α) : Prop where
  dir : t.DirAt p P
  plain : ∀ x g, t.look (P ++ x) ≠ some (.link g)

variable {p y : List α} {P d : Loc α} {n : α}

theorem Enclosed.congr (h : t.Enclosed p P) (hl : t.look = t'.look) : t'.Enclosed p P :=
  ⟨h.dir.congr hl, hl ▸ h.plain⟩

/-- The directories below it are reached by their names only. -/
theorem Enclosed.dirAt (h : t.Enclosed p P) (hd : t.DirAt (p ++ y) d) : d = P ++ y := by
  induction y using List.reverseRecOn generalizing d with
  | nil =>
    rw [List.append_nil] at hd ⊢
    exact hd.unique h.dir
  | append_singleton y n ih =>
    rw [← List.append_assoc] at hd ⊢
    obtain ⟨d', hd'⟩ := dirAt_of_stat_concat (t := t) (p := p ++ y) (c := n) fun e he => by
      rw [hd.1] at he
      cases he
    obtain rfl := ih hd'
    have hstat := hd'.stat_concat (c := n) fun g => by
      rw [List.append_assoc]
      exact h.plain _ g
    rw [hd.1] at hstat
    split at hstat
    · cases hstat
    · exact Walk.found.inj hstat

/-- What is missing on the way to a name below it is missing below it. -/
theorem Enclosed.missing {q rest : List α} {c : α} (h : t.Enclosed p P)
    (hq : p ++ y = q ++ c :: rest) (hd : t.DirAt q d) (hc : t.look (d ++ [c]) = none) :
    P <+: d := by
  rcases List.append_eq_append_iff.mp hq with ⟨z, rfl, -⟩ | ⟨z, rfl, hz⟩
  · rw [h.dirAt hd]
    exact List.prefix_append _ _
  · rcases z with _ | ⟨b, z⟩
    · rw [List.append_nil] at h
      rw [hd.unique h.dir]
    · obtain ⟨rfl, -⟩ := List.cons.inj hz
      exact absurd h.dir.1 (hd.stat_missing hc z P)

/-- A name below it is that of a place below it. -/
theorem Enclosed.lstat {l : Loc α} (h : t.Enclosed p P) (hl : t.lstat (p ++ y ++ [n]) = .found l) :
    l = P ++ y ++ [n] := by
  obtain ⟨d, hd, rfl, -⟩ := lstat_concat_eq_found.mp hl
  rw [h.dirAt hd]

/-- A file below it is opened under its own name. -/
theorem Enclosed.openTarget {l : Loc α} (h : t.Enclosed p P) (hl : t.openTarget (p ++ y) = some l) :
    l = P ++ y := by
  rcases List.eq_nil_or_concat y with rfl | ⟨y, n, rfl⟩
  · obtain ⟨nd, hnd, hshape⟩ := Option.map_eq_some_iff.mp h.dir.2
    have hkind : nd.kind = .dir := by
      match hk : nd.kind with
      | .dir => rfl
      | .file _ | .link _ | .special =>
        rw [Node.shape, hk] at hshape
        cases hshape
    rw [List.append_nil, Tree.openTarget, h.dir.1] at hl
    simp [hnd, hkind] at hl
  · rw [List.concat_eq_append, ← List.append_assoc] at hl ⊢
    have hgoes : ∀ e, t.stat (p ++ y ++ [n]) ≠ .fail e := by
      intro e he
      rw [Tree.openTarget, he] at hl
      cases hl
    obtain ⟨d, hd⟩ := dirAt_of_stat_concat hgoes
    obtain rfl := h.dirAt hd
    have hstat := hd.stat_concat (c := n) fun g => by
      rw [List.append_assoc]
      exact h.plain _ g
    rw [Tree.openTarget, hstat] at hl
    by_cases hn : (t.look (P ++ y ++ [n])).isNone
    · rw [if_pos hn] at hl
      exact (Option.some.inj hl).symm
    · rw [if_neg hn] at hl
      dsimp only at hl
      split at hl <;> cases hl
      rfl

end Posix.Tree

namespace GoStd

variable {α β μ γ δ : Type} {p : List α} {P : Loc α}

/-- Wherever `p` leads to the directory `P` and no link is below it, the program makes, fills and hands
over nodes below it only, adds to the tree only, and no link. -/
def WorksIn (p : List α) (P : Loc α) (m : Sys α β μ γ) : Prop :=
  ∀ j : Journal α β, j.tree.Enclosed p P →
    m.StaysIn Act.touches P j ∧ (m.run j).2.tree.Enclosed p P ∧ j.tree.Grows (m.run j).2.tree

theorem worksIn_pure (a : γ) : WorksIn p P (pure a : Sys α β μ γ) :=
  fun j h => ⟨Sys.staysIn_pure a, h, .refl j.tree⟩

theorem worksIn_throw (e : Failure μ) : WorksIn p P (Sys.throw e : Sys α β μ γ) :=
  fun j h => ⟨Sys.staysIn_throw e, h, .refl j.tree⟩

theorem WorksIn.attempt {m : Sys α β μ γ} (h : WorksIn p P m) : WorksIn p P m.attempt := h

theorem WorksIn.bind {m : Sys α β μ γ} {f : γ → Sys α β μ δ} (h : WorksIn p P m)
    (hf : ∀ a, WorksIn p P (f a)) : WorksIn p P (m >>= f) := by
  intro j hj
  obtain ⟨hstays, henc, hgrows⟩ := h j hj
  rcases hm : m.run j with ⟨e | a, j'⟩
  · rw [hm] at henc hgrows
    rw [Sys.staysIn_bind_error hm, Sys.run_bind_error hm]
    exact ⟨hstays, henc, hgrows⟩
  · rw [hm] at henc hgrows
    obtain ⟨hstays', henc', hgrows'⟩ := hf a j' henc
    rw [Sys.staysIn_bind_ok hm, Sys.run_bind_ok hm]
    exact ⟨⟨hstays, hstays'⟩, henc', hgrows.trans hgrows'⟩

variable [LinearOrder α]

theorem worksIn_mkdirAll (y : List α) (mode : ℕ) :
    WorksIn p P (mkdirAll (p ++ y) mode : Sys α β μ Unit) := by
  intro j h
  refine ⟨staysIn_mkdirAll.mpr fun _ q c rest d hq hd hc =>
    (h.missing hq hd hc).trans (List.prefix_append _ _), ?_⟩
  rcases mkdirAll_cases (μ := μ) j (p ++ y) mode with ⟨d, hd⟩ | ⟨q, c, rest, d, hq, hd, hc⟩ | ⟨e, he⟩
  · rw [mkdirAll_present hd]
    exact ⟨h, .refl _⟩
  · rw [hq, mkdirAll_missing hd hc rest]
    have hgrows : j.tree.Grows (j.makeDirs none mode d (c :: rest)).tree :=
      fun _ _ => Journal.look_makeDirs_mono none mode hd.2 hc rest
    refine ⟨⟨h.dir.mono hgrows, fun x g => ?_⟩, hgrows⟩
    rw [Journal.look_makeDirs none mode _ hd.2 hc]
    split
    · exact fun hg => nomatch hg
    · exact h.plain x g
  · rw [he]
    exact ⟨h, .refl _⟩

theorem worksIn_handOver (own : Option (ℕ × ℕ)) (y : List α) (n : α) :
    WorksIn p P (Sys.handOver own (p ++ y ++ [n]) : Sys α β μ Unit) := by
  intro j h
  match own with
  | none => exact worksIn_pure () j h
  | some (uid, gid) =>
    have hlook : ((Sys.lchown (p ++ y ++ [n]) uid gid : Sys α β μ Unit).run j).2.tree.look =
        j.tree.look := Sys.look_touch _ j
    refine ⟨?_, h.congr hlook.symm, .of_look hlook⟩
    refine Sys.staysIn_bind.mpr ⟨(Sys.staysIn_touch _).mpr fun _ l hl => ?_, fun _ _ _ =>
      Sys.staysIn_pure ()⟩
    rw [h.lstat hl, List.append_assoc]
    exact List.prefix_append _ _

theorem worksIn_chown (uid gid : ℕ) : WorksIn p P (Sys.chown p uid gid : Sys α β μ Unit) := by
  intro j h
  have hlook : ((Sys.chown p uid gid : Sys α β μ Unit).run j).2.tree.look = j.tree.look :=
    Sys.look_touch _ j
  refine ⟨(Sys.staysIn_touch _).mpr fun _ l hl => ?_, h.congr hlook.symm, .of_look hlook⟩
  cases h.dir.1.symm.trans hl
  exact List.prefix_rfl

theorem worksIn_overwrite [EmptyCollection β] (y : List α) (n : α) (mode : ℕ) (data : β) :
    WorksIn p P (Sys.overwrite (p ++ y ++ [n]) mode data : Sys α β μ Unit) := by
  intro j h
  match htarget : j.tree.openTarget (p ++ y ++ [n]) with
  | none =>
    obtain ⟨e, he⟩ := Sys.run_overwrite_none (μ := μ) mode data htarget
    rw [Sys.StaysIn, he]
    exact ⟨.refl j, h, .refl _⟩
  | some l =>
    have hl := h.openTarget (y := y ++ [n]) (by rwa [← List.append_assoc])
    rw [← List.append_assoc] at hl
    subst hl
    obtain ⟨j', hrun, hkind⟩ := run_overwrite_target (μ := μ) mode data htarget
    have hfree : j.tree.FreeForFile (P ++ y ++ [n]) := Tree.freeForFile_openTarget htarget
    have hgrows : j.tree.Grows j'.tree := look_of_withFile hfree hkind
    refine ⟨(Sys.staysIn_overwrite (.inr (.inl rfl)) (.inl rfl)).mpr fun l hl => ?_, ?_⟩
    · rw [htarget] at hl
      cases hl
      rw [List.append_assoc]
      exact List.prefix_append _ _
    · rw [hrun]
      refine ⟨⟨h.dir.mono hgrows, fun x g => ?_⟩, hgrows⟩
      rw [Tree.look_eq_kindAt, hkind]
      by_cases hx : P ++ x = P ++ y ++ [n]
      · rw [hx, withFile_self]
        exact fun hg => nomatch hg
      · rw [withFile_ne hx, ← Tree.look_eq_kindAt]
        exact h.plain x g

/-! ## A folder made anew -/

/-- From `j`, where nothing is at `D ++ [c]` any more, to `j₁`, where the path `V/c` is an empty folder.
In `j₀` all but the folder itself was made; it lies in `D'`. -/
structure Remade (j j₀ j₁ : Journal α β) (V : List α) (D D' : Loc α) (c : α) : Prop where
  place : D' = D ∧ j.tree.DirAt V D ∨ D ++ [c] <+: D'
  parent : j₀.tree.DirAt V D'
  free : ∀ x, j.tree.look (D ++ [x]) = none → j₀.tree.look (D' ++ [x]) = none
  grows : j₀.tree.Grows j₁.tree
  folder : j₁.tree.Enclosed (V ++ [c]) (D' ++ [c])
  stays : ∀ R, j.Stays Act.touches R j₁ ↔ R <+: D ++ [c]
  leads : j.tree.Leads (V ++ [c]) (D' ++ [c])

/-- `MkdirAll` of a folder that has just been taken away: the first it makes is where that was. -/
theorem run_remake {t : Tree α β} {j : Journal α β} {V : List α} {D : Loc α} {c : α} (mode : ℕ)
    (h : t.DirAt V D) (hlook : j.tree.look = (t.remove (D ++ [c])).look) :
    ((∃ e, (mkdirAll (V ++ [c]) mode : Sys α β μ Unit).run j = (.error e, j)) ∧
      ∀ P, ¬ j.tree.Leads (V ++ [c]) P) ∨
    ∃ D' j₀ j₁, (mkdirAll (V ++ [c]) mode : Sys α β μ Unit).run j = (.ok (), j₁) ∧
      Remade j j₀ j₁ V D D' c := by
  have hthin : ∀ x s, j.tree.look x = some s → s ≠ .leaf → t.look x = some s := fun x s hx _ =>
    Tree.look_remove (l := D ++ [c]) (by rwa [← hlook])
  have hgone : ∀ x, D ++ [c] <+: x → j.tree.look x = none := fun x hx => by
    rw [hlook, Tree.look, Tree.node_remove_below _ (by simp) hx]
    rfl
  rcases mkdirAll_cases (μ := μ) j (V ++ [c]) mode with
    ⟨P, hP⟩ | ⟨q, b, rest, d, hV, hq, hb⟩ | ⟨e, he⟩
  · -- it is not there any more
    obtain ⟨D', hD'⟩ := Tree.dirAt_of_stat_concat (t := j.tree) (p := V) (c := c) fun e he => by
      rw [hP.1] at he
      cases he
    obtain rfl : D' = D := (hD'.thin hthin).unique h
    exact absurd hP.1 (hD'.stat_missing (hgone _ List.prefix_rfl) [] P)
  · obtain ⟨names, hnames⟩ : ∃ names, b :: rest = names ++ [c] := by
      obtain ⟨names, a, ha⟩ := List.eq_nil_or_concat (b :: rest) |>.resolve_left (by simp)
      rw [List.concat_eq_append] at ha
      rw [ha, ← List.append_assoc] at hV
      obtain ⟨-, hca⟩ := List.append_inj' hV rfl
      exact ⟨names, by rw [ha, List.cons.inj hca |>.1]⟩
    have hVq : V = q ++ names := by
      rw [hnames, ← List.append_assoc] at hV
      exact (List.append_inj' hV rfl).1
    have hfirst : names = [] ∨ ∃ more, names = b :: more := by
      rcases names with _ | ⟨a, more⟩
      · exact .inl rfl
      · exact .inr ⟨more, by rw [(List.cons.inj hnames).1]⟩
    have hjoin : d ++ b :: rest = d ++ names ++ [c] := by rw [hnames, List.append_assoc]
    have hplace : d ++ [b] = D ++ [c] := by
      rcases hfirst with rfl | ⟨more, rfl⟩
      · rw [List.append_nil] at hVq
        subst hVq
        rw [(hq.thin hthin).unique h, (List.cons.inj hnames).1]
      · -- what was there before was at or below the place that was cleared
        subst hVq
        have hthere : t.look (d ++ [b]) ≠ none := fun hnone =>
          (hq.thin hthin).stat_missing hnone more D h.1
        have hpre : D ++ [c] <+: d ++ [b] := by
          by_contra hpre
          rw [hlook, Tree.look, Tree.node_remove_ne _ hpre] at hb
          exact hthere hb
        rcases List.prefix_concat_iff.mp hpre with heq | hpre
        · exact heq.symm
        · have := hgone d hpre
          rw [hq.2] at this
          cases this
    have hchain := Journal.makeDirs_concat none mode j d c names
    rw [← hnames] at hchain
    have hparent : (j.makeDirs none mode d names).tree.DirAt V (d ++ names) := by
      subst hVq
      rcases hfirst with rfl | ⟨more, rfl⟩
      · simpa [Journal.makeDirs] using hq
      · exact Journal.dirAt_makeDirs none mode hq hb more
    have hfree : ∀ x, j.tree.look (D ++ [x]) = none →
        (j.makeDirs none mode d names).tree.look (d ++ names ++ [x]) = none := by
      intro x hx
      rcases hfirst with rfl | ⟨more, rfl⟩
      · rw [(List.append_inj' hplace rfl).1, List.append_nil]
        exact hx
      · exact Tree.look_eq_none.mpr
          (Journal.node_below_makeDirs none mode hq.2 hb more (by simp))
    refine .inr ⟨d ++ names, j.makeDirs none mode d names, j.makeDirs none mode d (b :: rest), ?_,
      ?_, hparent, hfree, ?_, ⟨?_, ?_⟩, fun R => ?_, .inr ⟨q, b, rest, d, hV, hjoin.symm, hq, hb⟩⟩
    · rw [hV]
      exact mkdirAll_missing hq hb rest
    · rcases hfirst with rfl | ⟨more, rfl⟩
      · obtain rfl := (List.append_inj' hplace rfl).1
        rw [List.append_nil] at hVq
        subst hVq
        exact .inl ⟨List.append_nil d, hq⟩
      · exact .inr (by rw [← hplace]; simp)
    · intro x s hx
      rw [hchain, Journal.look_makeDir none mode x hparent.2 (hfree c (hgone _ List.prefix_rfl))]
      split
      · next heq =>
        rw [heq, hfree c (hgone _ List.prefix_rfl)] at hx
        cases hx
      · exact hx
    · rw [hV, ← hjoin]
      exact Journal.dirAt_makeDirs none mode hq hb rest
    · intro x g
      rw [← hjoin]
      by_cases hx : x = []
      · have := (Journal.dirAt_makeDirs none mode hq hb rest).2
        rw [hx, List.append_nil, this]
        exact fun hg => nomatch hg
      · rw [Tree.look_eq_none.mpr (Journal.node_below_makeDirs none mode hq.2 hb rest hx)]
        exact fun hg => nomatch hg
    · rw [Journal.stays_makeDirs, hplace]
      exact ⟨fun hR => hR.1 (.inl rfl), fun hR => ⟨fun _ => hR, fun hn => nomatch hn⟩⟩
  · refine .inl ⟨⟨_, he⟩, fun P hP => ?_⟩
    obtain ⟨j₁, hrun, -⟩ := run_mkdirAll_leads (μ := μ) mode hP
    rw [he] at hrun
    cases hrun

end GoStd
