import Gsm.Instfs.Faults
import Gsm.Instfs.Owners

/-!
# All or nothing

Up to the rename a failure of `Write` or `Receive` leaves the destination as it was and no temporary file, and
success leaves all of the content. A failure of `chmod` or `chown` is ignored. A new file that is called as its
temporary file would be is lost.
-/

open Posix GoStd Posix.Tree

namespace Instfs

variable {f : FS} {lib : Lib} {x : Faults} {t t₁ t' : Tree Name Str} {j j' : Journal Name Str} {p q abs c : Path}
  {D d l : Loc Name} {m n : Name} {γ δ : Type} {data : Str} {temps : List Name} {mode : ℕ}

/-! ## Missing directories -/

/-- Nothing is lost, and what is new are directories. A link may have changed hands. -/
structure Grown (t t' : Tree Name Str) : Prop where
  kept : ∀ l nd, t.node l = some nd → ∃ nd', t'.node l = some nd' ∧ nd'.kind = nd.kind ∧ nd'.mode = nd.mode
  new : ∀ l, t.node l = none → t'.node l = none ∨ t'.look l = some .dir

theorem Grown.of_node (h : ∀ l, t'.node l = t.node l) : Grown t t' :=
  ⟨fun l nd hnd => ⟨nd, (h l).trans hnd, rfl, rfl⟩, fun l hl => .inl ((h l).trans hl)⟩

theorem grown_give (own : Option (ℕ × ℕ)) (l : Loc Name) : Grown j.tree (j.give own l).tree := by
  rcases own with _ | ⟨uid, gid⟩
  · exact .of_node fun _ => rfl
  · refine ⟨fun y nd hnd => ?_, fun y hy => .inl ?_⟩
    · by_cases hyl : y = l
      · refine ⟨nd.setOwner uid gid, ?_, rfl, rfl⟩
        rw [Journal.give, Journal.tree_alter, Tree.node_alter, if_pos hyl, hnd, Option.map_some]
      · refine ⟨nd, ?_, rfl, rfl⟩
        rw [Journal.give, Journal.tree_alter, Tree.node_alter, if_neg hyl, hnd]
    · rw [Journal.give, Journal.tree_alter, Tree.node_alter, hy, Option.map_none, ite_self]

theorem node_makeDir_ne (own : Option (ℕ × ℕ)) (mode : ℕ) {y : Loc Name} {k : Name} (hy : y ≠ d ++ [k]) :
    ((j.create d k ⟨.dir, mode, 0, 0⟩).give own (d ++ [k])).tree.node y = j.tree.node y := by
  have hcreate : (j.create d k ⟨.dir, mode, 0, 0⟩).tree.node y = j.tree.node y := Tree.node_create_ne _ _ hy
  rcases own with _ | ⟨uid, gid⟩
  · exact hcreate
  · rw [Journal.give, Journal.tree_alter, Tree.node_alter, if_neg hy, hcreate]

theorem node_makeDirs_ne (own : Option (ℕ × ℕ)) (mode : ℕ) {y : Loc Name} {k : Name} (rest : List Name)
    (hy : ¬ d ++ [k] <+: y) : (j.makeDirs own mode d (k :: rest)).tree.node y = j.tree.node y := by
  have hne {k : Name} {d : Loc Name} (hy : ¬ d ++ [k] <+: y) : y ≠ d ++ [k] := fun h => hy (h ▸ List.prefix_rfl)
  induction rest generalizing j d k with
  | nil => exact node_makeDir_ne own mode (hne hy)
  | cons b rest ih =>
    have hy' : ¬ d ++ [k] ++ [b] <+: y := fun h => hy ((List.prefix_append _ _).trans h)
    rw [Journal.makeDirs, ih hy', node_makeDir_ne own mode (hne hy)]

theorem grown_makeDirs (own : Option (ℕ × ℕ)) (mode : ℕ) {k : Name} (rest : List Name)
    (hd : j.tree.look d = some .dir) (hk : j.tree.look (d ++ [k]) = none) :
    Grown j.tree (j.makeDirs own mode d (k :: rest)).tree := by
  refine ⟨fun y nd hnd => ⟨nd, ?_, rfl, rfl⟩, fun y hy => ?_⟩
  · rw [node_makeDirs_ne own mode rest, hnd]
    rintro ⟨z, rfl⟩
    by_cases hz : z = []
    · rw [hz, List.append_nil, Tree.look_eq_none.mp hk] at hnd
      exact nomatch hnd
    · rw [Tree.node_below hz (by simp [hk])] at hnd
      exact nomatch hnd
  · have hlook := Journal.look_makeDirs own mode y hd hk rest
    split at hlook
    · exact .inr hlook
    · rw [Tree.look_eq_none.mpr hy] at hlook
      exact .inl (Tree.look_eq_none.mp hlook)

/-- Nothing lies at the end of a path through a chain that was just made. -/
theorem lstat_makeDirs_not_found (own : Option (ℕ × ℕ)) (mode : ℕ) {k : Name} (rest z : List Name)
    (h : j.tree.DirAt q d) (hk : j.tree.look (d ++ [k]) = none) (S : Loc Name) :
    (j.makeDirs own mode d (k :: rest)).tree.lstat (q ++ k :: rest ++ z ++ [n]) ≠ .found S := by
  have hdir := Journal.dirAt_makeDirs own mode h hk rest
  have hfree (y : Name) : (j.makeDirs own mode d (k :: rest)).tree.look (d ++ k :: rest ++ [y]) = none :=
    Tree.look_eq_none.mpr (Journal.node_below_makeDirs own mode h.2 hk rest (List.cons_ne_nil _ _))
  rcases z with _ | ⟨b, z⟩
  · rw [List.append_nil, hdir.lstat_concat, hfree]
    exact nofun
  · rw [lstat_missing hdir (hfree b)]
    exact nofun

/-- What is known of a function that makes directories -/
structure MakesDirs (make : Path → Prog Unit) : Prop where
  present : ∀ j q d, j.tree.DirAt q d → (make q).run j = (.ok (), j)
  grown : ∀ j q, Grown j.tree ((make q).run j).2.tree
  missing : ∀ j q z n, (∀ S, j.tree.lstat (q ++ z ++ [n]) ≠ .found S) →
    ∀ S, ((make q).run j).2.tree.lstat (q ++ z ++ [n]) ≠ .found S

theorem makesDirs_mkdirAll (mode : ℕ) : MakesDirs fun p => mkdirAll p mode := by
  refine ⟨fun j q d hd => mkdirAll_present hd, fun j q => ?_, fun j q z n hno S => ?_⟩
  · rcases mkdirAll_cases (μ := FsError) j q mode with ⟨d, hd⟩ | ⟨q, k, rest, d, rfl, hq, hk⟩ | ⟨e, he⟩
    · rw [mkdirAll_present hd]
      exact .of_node fun _ => rfl
    · rw [mkdirAll_missing hq hk]
      exact grown_makeDirs none mode rest hq.2 hk
    · rw [he]
      exact .of_node fun _ => rfl
  · rcases mkdirAll_cases (μ := FsError) j q mode with ⟨d, hd⟩ | ⟨q, k, rest, d, rfl, hq, hk⟩ | ⟨e, he⟩
    · rw [mkdirAll_present hd]
      exact hno S
    · rw [mkdirAll_missing hq hk]
      exact lstat_makeDirs_not_found none mode rest z hq hk S
    · rw [he]
      exact hno S

theorem makesDirs_mkdirAllOwned (f : FS) : MakesDirs f.mkdirAllOwned := by
  have hgive (j : Journal Name Str) (q : Path) (z : Path) (n : Name) (l S : Loc Name)
      (hno : ∀ S, j.tree.lstat (q ++ z ++ [n]) ≠ .found S) :
      (j.give f.own l).tree.lstat (q ++ z ++ [n]) ≠ .found S := by
    rw [Tree.lstat_congr Journal.look_give]
    exact hno S
  refine ⟨fun j q d hd => mkdirAllOwned_present hd.1, fun j q => ?_, fun j q z n hno S => ?_⟩
  · rcases mkdirAllOwned_cases f j q with ⟨l, hl⟩ | ⟨q, k, rest, d, rfl, hq, hk⟩ |
      ⟨q, k, rest, d, rfl, hq, hk, hlink⟩ | ⟨e, he⟩
    · rw [mkdirAllOwned_present hl]
      exact .of_node fun _ => rfl
    · rw [mkdirAllOwned_missing hq hk]
      exact grown_makeDirs f.own 0o755 rest hq.2 hk
    · rcases rest with _ | ⟨b, rest⟩
      · rw [mkdirAllOwned_blocked hq hk hlink]
        exact grown_give _ _
      · obtain ⟨e, he⟩ := mkdirAllOwned_blocked_cons (f := f) hq hk hlink b rest
        rw [he]
        exact grown_give _ _
    · rw [he]
      exact .of_node fun _ => rfl
  · rcases mkdirAllOwned_cases f j q with ⟨l, hl⟩ | ⟨q, k, rest, d, rfl, hq, hk⟩ |
      ⟨q, k, rest, d, rfl, hq, hk, hlink⟩ | ⟨e, he⟩
    · rw [mkdirAllOwned_present hl]
      exact hno S
    · rw [mkdirAllOwned_missing hq hk]
      exact lstat_makeDirs_not_found f.own 0o755 rest z hq hk S
    · rcases rest with _ | ⟨b, rest⟩
      · rw [mkdirAllOwned_blocked hq hk hlink]
        exact hgive j _ z n _ S hno
      · obtain ⟨e, he⟩ := mkdirAllOwned_blocked_cons (f := f) hq hk hlink b rest
        rw [he]
        exact hgive j _ z n _ S hno
    · rw [he]
      exact hno S

/-- The way to something that is there leads through directories. -/
theorem dirAt_of_prefix (h : t.DirAt p D) (hq : q <+: p) : ∃ d, t.DirAt q d := by
  obtain ⟨z, rfl⟩ := hq
  rcases z with _ | ⟨b, z⟩
  · exact ⟨D, by rwa [List.append_nil] at h⟩
  · have hno (e : Errno) (he : t.stat (q ++ [b]) = .fail e) : ∀ l, t.stat (q ++ [b]) ≠ .found l :=
      fun l hl => nomatch he.symm.trans hl
    refine Tree.dirAt_of_stat_concat (c := b) fun e he => Tree.stat_append_not_found (hno e he) z D ?_
    rw [List.append_assoc, List.singleton_append]
    exact h.1

/-! ## The temporary file -/

/-- The tree is `t₁` with a file `m` put in the directory `D`. -/
structure Temp (t₁ : Tree Name Str) (D : Loc Name) (m : Name) (data : Str) (t : Tree Name Str) : Prop where
  file : (t.node (D ++ [m])).map Node.kind = some (.file data)
  off : ∀ l, l ≠ D ++ [m] → t.node l = t₁.node l

theorem Temp.look (h : Temp t₁ D m data t) : t.look (D ++ [m]) = some .leaf := by
  obtain ⟨nd, hnd, hk⟩ := Option.map_eq_some_iff.mp h.file
  rw [Tree.look, hnd, Option.map_some, Node.shape, hk]
  rfl

theorem Temp.dirAt (h : Temp t₁ D m data t) (hfree : t₁.look (D ++ [m]) = none ∨ t₁.look (D ++ [m]) = some .leaf)
    {q : Path} {e : Loc Name} (hq : t₁.DirAt q e) : t.DirAt q e := by
  refine hq.mono fun y s hy => ?_
  by_cases hym : y = D ++ [m]
  · rw [hym] at hy ⊢
    rcases hfree with hfree | hfree
    · rw [hfree] at hy
      exact nomatch hy
    · rw [h.look, ← hfree, hy]
  · rwa [Tree.look, h.off y hym]

theorem Temp.beside (h : Temp t₁ D m data t) (hD : t₁.DirAt p D) (hfree : t₁.look (D ++ [m]) = none) :
    Beside t p D m := ⟨h.dirAt (.inl hfree) hD, h.look⟩

theorem temp_create (hD : t₁.look D = some .dir) (hfree : t₁.look (D ++ [m]) = none) :
    Temp t₁ D m [] (t₁.create D m ⟨.file ∅, 0o600, 0, 0⟩) := by
  have hnode (l : Loc Name) : (t₁.create D m ⟨.file ∅, 0o600, 0, 0⟩).node l = _ :=
    Tree.node_create hD (Tree.look_eq_none.mp hfree) l
  refine ⟨?_, fun l hl => ?_⟩
  · rw [hnode, if_pos rfl]
    rfl
  · rw [hnode, if_neg hl]

theorem Temp.write (h : Temp t₁ D m data j.tree) (data' : Str) :
    Temp t₁ D m data' ((Sys.write (D ++ [m]) data' : Prog Unit).run j).2.tree := by
  obtain ⟨nd, hnd, hk⟩ := Option.map_eq_some_iff.mp h.file
  rw [Sys.run_write, Journal.tree_alter]
  refine ⟨?_, fun l hl => ?_⟩
  · rw [Tree.node_alter, if_pos rfl, hnd, Option.map_some, Option.map_some, Node.setData, hk]
  · rw [Tree.node_alter, if_neg hl, h.off l hl]

/-- A change of its mode or its owner -/
theorem Temp.alter (h : Temp t₁ D m data j.tree) {act : Act} (hact : act.changes) {g : Node Name Str → Node Name Str}
    {hg : ∀ nd, (g nd).shape = nd.shape} (hkind : ∀ nd, (g nd).kind = nd.kind) :
    Temp t₁ D m data (j.alter act hact (D ++ [m]) g hg).tree := by
  obtain ⟨nd, hnd, hk⟩ := Option.map_eq_some_iff.mp h.file
  rw [Journal.tree_alter]
  refine ⟨?_, fun l hl => ?_⟩
  · rw [Tree.node_alter, if_pos rfl, hnd, Option.map_some, Option.map_some, hkind, hk]
  · rw [Tree.node_alter, if_neg hl, h.off l hl]

theorem Temp.give (h : Temp t₁ D m data j.tree) (own : Option (ℕ × ℕ)) :
    Temp t₁ D m data (j.give own (D ++ [m])).tree := by
  rcases own with _ | ⟨uid, gid⟩
  · exact h
  · exact h.alter (by decide) fun _ => rfl

/-- Taken away again, it was never there. -/
theorem Temp.remove (h : Temp t₁ D m data t) (hfree : t₁.look (D ++ [m]) = none) (l : Loc Name) :
    (t.remove (D ++ [m])).node l = t₁.node l := by
  by_cases hl : D ++ [m] <+: l
  · rw [Tree.node_remove_below t (by simp) hl]
    obtain ⟨z, rfl⟩ := hl
    by_cases hz : z = []
    · rw [hz, List.append_nil, Tree.look_eq_none.mp hfree]
    · rw [Tree.node_below hz (by simp [hfree])]
  · rw [Tree.node_remove_ne t hl, h.off l fun heq => hl (heq ▸ List.prefix_rfl)]

theorem Temp.unlink (h : Temp t₁ D m data j.tree) (hD : t₁.DirAt p D) (hfree : t₁.look (D ++ [m]) = none)
    (l : Loc Name) : ((Sys.unlink (p ++ [m]) : Prog Unit).run j).2.tree.node l = t₁.node l := by
  rw [Sys.run_unlink (h.beside hD hfree).lstat (by simp [h.look]), Journal.tree_remove]
  exact h.remove hfree l

/-- Renamed, it is a file of the other name, with what it holds. -/
theorem Temp.rename (h : Temp t₁ D m data j.tree) (hD : t₁.DirAt p D) (hfree : t₁.look (D ++ [m]) = none)
    (hrun : (Sys.rename (p ++ [m]) (p ++ [n]) : Prog Unit).run j = (.ok (), j')) : Temp t₁ D n data j'.tree := by
  have hbeside := h.beside hD hfree
  obtain ⟨s, nd, y, hs, hnd, hy, hend⟩ := Sys.run_rename_eq_ok.mp hrun
  obtain rfl := Walk.found.inj (hbeside.lstat.symm.trans hs)
  obtain rfl := Except.ok.inj ((place_beside hbeside.dir).symm.trans hy)
  rcases hend with ⟨hsame, rfl⟩ | ⟨hpre, hmay, d, k, hdk, rfl⟩
  · obtain rfl : m = n := List.singleton_inj.mp (List.append_cancel_left hsame)
    exact h
  obtain ⟨rfl, hk⟩ := List.append_inj' hdk rfl
  obtain rfl := List.singleton_inj.mp hk
  have hmn : m ≠ n := fun hmn => hpre (hmn ▸ List.prefix_rfl)
  have hpre' : ¬ D ++ [n] <+: D ++ [m] := fun hpre' => hmn (by simpa using (hpre'.eq_of_length (by simp)).symm)
  have hnode : nd.kind = .file data := by
    have hfile := h.file
    rw [hnd, Option.map_some] at hfile
    exact Option.some.inj hfile
  -- what it takes the place of is no directory, so nothing lies below
  have hleaf : t₁.look (D ++ [n]) ≠ some .dir := by
    intro hdir
    have hdir' : j.tree.look (D ++ [n]) = some .dir := by
      rwa [Tree.look, h.off _ fun heq => hmn (List.singleton_inj.mp (List.append_cancel_left heq)).symm]
    have hshape : nd.shape = .leaf := by
      rw [Node.shape, hnode]
      rfl
    unfold Sys.mayReplace at hmay
    rw [hshape, hdir'] at hmay
    exact nomatch hmay
  have hmove : D ++ [m] ≠ [] ∧ (j.tree.remove (D ++ [n])).look D = some .dir ∧
      (j.tree.remove (D ++ [n])).node (D ++ [n]) = none ∧ ¬ D ++ [m] <+: D ++ [n] := by
    refine ⟨by simp, ?_, Tree.node_remove_below _ (by simp) List.prefix_rfl, hpre⟩
    rw [Tree.look, Tree.node_remove_ne _ fun h => absurd h.length_le (by simp)]
    exact hbeside.dir.2
  have hmoved (l : Loc Name) := Tree.node_move hmove l
  rw [Journal.tree_replace]
  refine ⟨?_, fun l hl => ?_⟩
  · rw [hmoved, if_pos List.prefix_rfl, movedFrom, List.drop_length, List.append_nil, Tree.node_remove_ne _ hpre', hnd,
      Option.map_some, hnode]
  · rw [hmoved]
    split
    · next hin =>
      obtain ⟨z, rfl⟩ := hin
      have hz : z ≠ [] := fun hz => hl (by rw [hz, List.append_nil])
      have hpre'' : ¬ D ++ [n] <+: D ++ [m] ++ z := by
        intro hin
        have hnm : n = m := by simpa using hin
        exact hmn hnm.symm
      rw [movedFrom, List.drop_left, Tree.node_remove_ne _ hpre'', Tree.node_below hz (by simp [h.look]),
        Tree.node_below hz hleaf]
    · next hout =>
      split
      · next hin =>
        obtain ⟨z, rfl⟩ := hin
        by_cases hz : z = []
        · rw [hz, List.append_nil, Tree.look_eq_none.mp hfree]
        · rw [Tree.node_below hz (by simp [hfree])]
      · next hin =>
        rw [Tree.node_remove_ne _ hout, h.off l fun heq => hin (heq ▸ List.prefix_rfl)]

/-- `fill` makes one write, of `data` if it succeeds, and then `Q` holds. -/
def FillsWith (data : Str) (Q : Prop) (fill : Loc Name → Prog γ) : Prop :=
  ∀ fd j, ∃ data', ((fill fd).run j).2 = ((Sys.write fd data' : Prog Unit).run j).2 ∧
    ∀ a, ((fill fd).run j).1 = .ok a → data' = data ∧ Q

variable {fill : Loc Name → Prog γ} {done : γ → Prog δ} {Q : Prop}

/-- What becomes of a temporary file that is there: it is still there, or it has taken its place. -/
theorem run_fillUnder (mode : ℕ) (hfill : FillsWith data Q fill) (hD : t₁.DirAt p D) (hfree : t₁.look (D ++ [m]) = none)
    (hdone : ∀ a j, Temp t₁ D n data j.tree → ∃ b, (done a).run j = (.ok b, j)) {data₀ : Str}
    (h : Temp t₁ D m data₀ j.tree) :
    let body : Prog δ := do
      let a ← fill (D ++ [m])
      let _ ← (step x.chmod (Sys.chmod (p ++ [m]) mode)).attempt
      f.giveUnder x (p ++ [m])
      step x.rename (Sys.rename (p ++ [m]) (p ++ [n]))
      done a
    (∃ e data' j', body.run j = (.error e, j') ∧ Temp t₁ D m data' j'.tree) ∨
      ∃ b j', body.run j = (.ok b, j') ∧ Q ∧ x.rename = none ∧ Temp t₁ D n data j'.tree ∧
        ∀ D', j'.tree.DirAt p D' → D' = D := by
  intro body
  obtain ⟨data', hwritten, hok⟩ := hfill (D ++ [m]) j
  have hfilled : Temp t₁ D m data' ((fill (D ++ [m])).run j).2.tree := hwritten ▸ h.write data'
  rcases hrun : (fill (D ++ [m])).run j with ⟨e | a, j₂⟩ <;> rw [hrun] at hfilled hok
  · exact .inl ⟨e, data', j₂, Sys.run_bind_error hrun, hfilled⟩
  obtain ⟨rfl, hQ⟩ := hok a rfl
  -- its mode and its owner
  obtain ⟨r, j₃, hchmod, h₃⟩ : ∃ r j₃, (step x.chmod (Sys.chmod (p ++ [m]) mode)).attempt.run j₂ = (.ok r, j₃) ∧
      Temp t₁ D m data' j₃.tree := by
    rcases x.chmod with _ | e
    · refine ⟨_, _, Sys.run_attempt _ j₂, ?_⟩
      rw [step, Sys.chmod, Sys.run_touch_found (f := (·.stat (p ++ [m]))) (hfilled.beside hD hfree).stat]
      exact hfilled.alter (by decide) fun _ => rfl
    · exact ⟨_, _, rfl, hfilled⟩
  obtain ⟨j₄, hchown, h₄⟩ : ∃ j₄, (f.giveUnder x (p ++ [m])).run j₃ = (.ok (), j₄) ∧ Temp t₁ D m data' j₄.tree := by
    rw [FS.giveUnder]
    split
    · exact ⟨j₃, rfl, h₃⟩
    · exact ⟨_, run_giveAway (h₃.beside hD hfree).lstat, h₃.give f.own⟩
  have hsofar : body.run j = (do step x.rename (Sys.rename (p ++ [m]) (p ++ [n])); done a : Prog δ).run j₄ := by
    show (fill (D ++ [m]) >>= _ : Prog δ).run j = _
    rw [Sys.run_bind_ok hrun, Sys.run_bind_ok hchmod, Sys.run_bind_ok hchown]
  rw [hsofar]
  rcases hx : x.rename with _ | e
  · rcases hrename : (Sys.rename (p ++ [m]) (p ++ [n]) : Prog Unit).run j₄ with ⟨e | u, j₅⟩
    · refine .inl ⟨e, data', j₄, ?_, h₄⟩
      obtain rfl : j₅ = j₄ := Sys.run_rename_error hrename
      exact Sys.run_bind_error hrename
    · have hplaced := h₄.rename hD hfree hrename
      obtain ⟨b, hb⟩ := hdone a j₅ hplaced
      refine .inr ⟨b, j₅, ?_, hQ, rfl, hplaced, fun D' hD' => rename_beside_dir (h₄.beside hD hfree) hrename hD'⟩
      rw [← hb]
      exact Sys.run_bind_ok hrename
  · exact .inl ⟨failed e, data', j₄, rfl, h₄⟩

/-- Through a temporary file: nothing changes, or the content is in place. -/
theorem run_throughTempUnder (temps : List Name) (mode : ℕ) (hfill : FillsWith data Q fill)
    (hdone : ∀ D a j', j.tree.DirAt p D → Temp j.tree D n data j'.tree → ∃ b, (done a).run j' = (.ok b, j')) :
    (∃ e j', (f.throughTempUnder x temps (p ++ [n]) mode fill done).run j = (.error e, j') ∧
        ∀ l, j'.tree.node l = j.tree.node l) ∨
      ∃ b j' D m, (f.throughTempUnder x temps (p ++ [n]) mode fill done).run j = (.ok b, j') ∧ Q ∧
        x.createTemp = none ∧ x.rename = none ∧ j.tree.DirAt p D ∧ m ∈ temps ∧ j.tree.look (D ++ [m]) = none ∧
          (m ≠ n → Temp j.tree D n data j'.tree) := by
  rw [FS.throughTempUnder, List.dropLast_concat]
  rcases x.createTemp with _ | e
  · rcases hrun : (createTemp p temps : Prog _).run j with ⟨e | ⟨tmp, fd⟩, j₁⟩
    · refine .inl ⟨e, j, ?_, fun _ => rfl⟩
      rw [run_createTemp_error hrun] at hrun
      exact Sys.run_bind_error hrun
    obtain ⟨D, m, hD, hm, hfree, rfl, rfl, rfl⟩ := createTemp_eq_ok hrun
    have hmade : Temp j.tree D m [] (j.create D m ⟨.file ∅, 0o600, 0, 0⟩).tree := temp_create hD.2 hfree
    have hbody := run_fillUnder (f := f) (x := x) mode hfill hD hfree (fun a j' => hdone D a j' hD) hmade
    dsimp only at hbody
    rw [step, Sys.run_bind_ok hrun]
    rcases hbody with ⟨e, data', j₂, hbody, htemp⟩ | ⟨b, j₂, hbody, hQ, hrename, htemp, hdir⟩
    · have hfailed := congrArg Prod.fst hbody
      have hremoved := congrArg (fun r => ((Sys.unlink (p ++ [m]) : Prog Unit).run r.2).2) hbody
      exact .inl ⟨e, ((Sys.unlink (p ++ [m]) : Prog Unit).run j₂).2, Prod.ext hfailed hremoved, htemp.unlink hD hfree⟩
    · refine .inr ⟨b, ((Sys.unlink (p ++ [m]) : Prog Unit).run j₂).2, D, m, ?_, hQ, rfl, hrename, hD, hm, hfree,
        fun hmn => ?_⟩
      · exact Sys.run_deferring_eq_ok.mpr ⟨j₂, hbody, rfl⟩
      · rcases Sys.unlink_cases (μ := FsError) (p ++ [m]) j₂ with hnone | ⟨l, hl, -, -⟩
        · rwa [hnone]
        · -- the temporary file is gone from where its name leads
          obtain ⟨D', hD', rfl, hthere⟩ := Tree.lstat_concat_eq_found.mp hl
          rw [hdir D' hD', Tree.look, htemp.off _ fun heq => hmn (List.singleton_inj.mp (List.append_cancel_left heq)),
            ← Tree.look] at hthere
          exact absurd hfree hthere
  · exact .inl ⟨failed e, j, rfl, fun _ => rfl⟩

/-! ## What is promised -/

/-- After a failure the destination is as it was, be it there or not, and there is no temporary file. -/
structure Unharmed (t : Tree Name Str) (abs : Path) (t' : Tree Name Str) : Prop extends Grown t t' where
  there : ∀ S, t.lstat abs = .found S → ∀ l, t'.node l = t.node l
  missing : (∀ S, t.lstat abs ≠ .found S) → ∀ S, t'.lstat abs ≠ .found S

/-- The place of the destination holds all of the content, and there is no temporary file. -/
structure Placed (t : Tree Name Str) (abs : Path) (data : Str) (t' : Tree Name Str) (S : Loc Name) : Prop where
  place : t.lstat abs = .found S ∨ (∀ S, t.lstat abs ≠ .found S) ∧ t'.lstat abs = .found S
  file : (t'.node S).map Node.kind = some (.file data)
  kept : ∀ l nd, l ≠ S → t.node l = some nd → ∃ nd', t'.node l = some nd' ∧ nd'.kind = nd.kind ∧ nd'.mode = nd.mode
  new : ∀ l, l ≠ S → t.node l = none → t'.node l = none ∨ t'.look l = some .dir

theorem Unharmed.of_node (h : ∀ l, t'.node l = t.node l) : Unharmed t abs t' := by
  have hlook : t'.look = t.look := funext fun l => by rw [Tree.look, Tree.look, h l]
  refine ⟨.of_node h, fun _ _ => h, fun hno S => ?_⟩
  rw [Tree.lstat_congr hlook]
  exact hno S

theorem Unharmed.congr (h : Unharmed t abs t₁) (hsame : ∀ l, t'.node l = t₁.node l) : Unharmed t abs t' := by
  have hlook : t'.look = t₁.look := funext fun l => by rw [Tree.look, Tree.look, hsame l]
  refine ⟨⟨fun l nd hnd => ?_, fun l hl => ?_⟩, fun S hS l => ?_, fun hno S => ?_⟩
  · rw [hsame l]
    exact h.kept l nd hnd
  · rw [hsame l, hlook]
    exact h.new l hl
  · rw [hsame l, h.there S hS l]
  · rw [Tree.lstat_congr hlook]
    exact h.missing hno S

/-- Making the directories harms nothing. -/
theorem unharmed_mkdirUnder {make : Path → Prog Unit} (hmake : MakesDirs make) (j : Journal Name Str) :
    Unharmed j.tree (p ++ [n]) ((mkdirUnder x make p).run j).2.tree := by
  have hpart (q : Path) (hq : q <+: p) : Unharmed j.tree (p ++ [n]) ((make q).run j).2.tree := by
    refine ⟨hmake.grown j q, fun S hS l => ?_, fun hno S => ?_⟩
    · obtain ⟨D, hD, -, -⟩ := Tree.lstat_concat_eq_found.mp hS
      obtain ⟨d, hd⟩ := dirAt_of_prefix hD hq
      rw [hmake.present j q d hd]
    · obtain ⟨z, rfl⟩ := hq
      exact hmake.missing j q z n hno S
  rw [mkdirUnder]
  rcases x.mkdirAll with _ | ⟨k, e⟩
  · exact hpart p List.prefix_rfl
  · have hquit : ((do make (p.take k); Sys.throw (failed e) : Prog Unit).run j).2 = ((make (p.take k)).run j).2 := by
      rcases hrun : (make (p.take k)).run j with ⟨e' | u, j'⟩
      · rw [Sys.run_bind_error hrun]
      · rw [Sys.run_bind_ok hrun]
        rfl
    rw [hquit]
    exact hpart _ (List.take_prefix k p)

/-- The rest of both operations, from the directories on -/
theorem run_placeUnder (temps : List Name) (mode : ℕ) {make : Path → Prog Unit} (hmake : MakesDirs make) (hfill : FillsWith data Q fill)
    (hdone : ∀ t₁ D a j', Unharmed j.tree (p ++ [n]) t₁ → t₁.DirAt p D → Temp t₁ D n data j'.tree →
      ∃ b, (done a).run j' = (.ok b, j')) :
    let rest : Prog δ := do
      mkdirUnder x make (p ++ [n]).dropLast
      f.throughTempUnder x temps (p ++ [n]) mode fill done
    (∃ e j', rest.run j = (.error e, j') ∧ Unharmed j.tree (p ++ [n]) j'.tree) ∨
      ∃ b j', rest.run j = (.ok b, j') ∧ Q ∧ x.mkdirAll = none ∧ x.createTemp = none ∧ x.rename = none ∧
        ((∃ S, j.tree.lstat (p ++ [n]) = .found S) ∨ n ∉ temps → ∃ S, Placed j.tree (p ++ [n]) data j'.tree S) := by
  intro rest
  have hdirs := unharmed_mkdirUnder (x := x) (n := n) hmake j (p := p)
  have hstart : rest.run j = (do
      mkdirUnder x make p
      f.throughTempUnder x temps (p ++ [n]) mode fill done : Prog δ).run j := by
    show (mkdirUnder x make (p ++ [n]).dropLast >>= _ : Prog δ).run j = _
    rw [List.dropLast_concat]
  rw [hstart]
  rcases hrun : (mkdirUnder x make p).run j with ⟨e | u, j₁⟩ <;> rw [hrun] at hdirs
  · exact .inl ⟨e, j₁, Sys.run_bind_error hrun, hdirs⟩
  rw [Sys.run_bind_ok hrun]
  have hnone : x.mkdirAll = none := by
    rcases hx : x.mkdirAll with _ | ⟨k, e⟩
    · rfl
    · rw [mkdirUnder, hx] at hrun
      obtain ⟨_, _, -, hquit⟩ := Sys.run_bind_eq_ok.mp hrun
      exact nomatch hquit
  rcases run_throughTempUnder (f := f) (x := x) (j := j₁) temps mode hfill
      (fun D a j' hD htemp => hdone j₁.tree D a j' hdirs hD htemp) with
    ⟨e, j', hend, hsame⟩ | ⟨b, j', D, m, hend, hQ, hcreate, hrename, hD, hm, hfree, hplaced⟩
  · exact .inl ⟨e, j', hend, hdirs.congr hsame⟩
  refine .inr ⟨b, j', hend, hQ, hnone, hcreate, hrename, fun hname => ⟨D ++ [n], ?_⟩⟩
  -- where something was, it is in the same directory
  have hfound (S : Loc Name) (hS : j.tree.lstat (p ++ [n]) = .found S) :
      S = D ++ [n] ∧ j₁.tree.look (D ++ [n]) ≠ none := by
    have hlook : j.tree.look = j₁.tree.look := funext fun l => by rw [Tree.look, Tree.look, hdirs.there S hS l]
    obtain ⟨D', hD', rfl, hthere⟩ := Tree.lstat_concat_eq_found.mp hS
    obtain rfl := (hD'.congr hlook).unique hD
    exact ⟨rfl, hlook ▸ hthere⟩
  have hmn : m ≠ n := by
    rintro rfl
    rcases hname with ⟨S, hS⟩ | hname
    · exact (hfound S hS).2 hfree
    · exact hname hm
  have htemp := hplaced hmn
  refine ⟨?_, htemp.file, fun l nd hl hnd => ?_, fun l hl hnone => ?_⟩
  · by_cases hS : ∃ S, j.tree.lstat (p ++ [n]) = .found S
    · obtain ⟨S, hS⟩ := hS
      exact .inl (hS.trans (congrArg Walk.found (hfound S hS).1))
    · push Not at hS
      have hno := hdirs.missing hS
      have hfree' : j₁.tree.look (D ++ [n]) = none := by
        by_contra hthere
        exact hno _ (Tree.lstat_concat_eq_found.mpr ⟨D, hD, rfl, hthere⟩)
      exact .inr ⟨hS, (htemp.beside hD hfree').lstat⟩
  · rw [htemp.off l hl]
    exact hdirs.kept l nd hnd
  · rw [Tree.look, htemp.off l hl, ← Tree.look]
    exact hdirs.new l hnone

/-- No step that is heeded fails. -/
structure Faults.Passes (x : Faults) : Prop where
  resolve : x.resolve = none
  mkdirAll : x.mkdirAll = none
  createTemp : x.createTemp = none
  copy : x.copy = none
  close : x.close = none
  rename : x.rename = none

/-- The program fails and harms nothing, or `Q` holds and the content is in place; of a new file that is called as
the temporary one would be, nothing is said. -/
def AllOrNothing (f : FS) (t : Tree Name Str) (temps : List Name) (rel data : Str) (Q : Prop) (prog : Prog γ) : Prop :=
  (∃ e j', prog.run (.of t) = (.error e, j') ∧
      (j'.tree = t ∨ ∃ abs c, resolve t f rel = .ok (abs, c) ∧ Unharmed t abs j'.tree)) ∨
    ∃ r j' abs c, prog.run (.of t) = (.ok r, j') ∧ resolve t f rel = .ok (abs, c) ∧ Q ∧
      ((∃ S, t.lstat abs = .found S) ∨ (∀ n, abs.getLast? = some n → n ∉ temps) →
        ∃ S, Placed t abs data j'.tree S)

theorem fillsWith_writeString (content : Str) :
    FillsWith content (x.copy = none ∧ x.close = none) (writeStringUnder x content) := by
  intro fd j
  unfold writeStringUnder
  split
  · next k e hcopy => exact ⟨content.take k, rfl, fun _ hok => (nomatch hok)⟩
  · next e hcopy hclose => exact ⟨content, rfl, fun _ hok => (nomatch hok)⟩
  · next hcopy hclose => exact ⟨content, rfl, fun _ _ => ⟨rfl, hcopy, hclose⟩⟩

theorem fillsWith_receiveBody {size : ℕ} {body : Body} {confirm : Str → Except Str Unit} :
    FillsWith body.data (x.copy = none ∧ x.close = none ∧ Complete lib size body confirm)
      (receiveBodyUnder lib x size body confirm) := by
  intro fd j
  unfold receiveBodyUnder
  split
  · next k e hcopy => exact ⟨body.data.take k, rfl, fun _ hok => (nomatch hok)⟩
  next hcopy =>
  refine ⟨body.data, ?_⟩
  rw [Sys.run_bind_ok Sys.run_write, Sys.run_write]
  split
  · next e herr => exact ⟨rfl, fun _ hok => (nomatch hok)⟩
  next herr =>
  rcases hclose : x.close with _ | e
  · rw [step]
    split
    · next hlen => exact ⟨rfl, fun _ hok => (nomatch hok)⟩
    next hlen =>
    split
    · next e hconfirm => exact ⟨rfl, fun _ hok => (nomatch hok)⟩
    · next hconfirm => exact ⟨rfl, fun _ _ => ⟨rfl, hcopy, rfl, herr, not_not.mp hlen, hconfirm⟩⟩
  · exact ⟨rfl, fun _ hok => (nomatch hok)⟩

theorem readsOnly_step {prog : Prog γ} (h : prog.ReadsOnly) (fault : Option Str) : (step fault prog).ReadsOnly := by
  rcases fault with _ | e
  · exact h
  · exact Sys.readsOnly_throw _

theorem readsOnly_checkWriteUnder {sha : Option Str} {create : Bool} :
    (checkWriteUnder lib x abs c sha create).ReadsOnly := by
  unfold checkWriteUnder
  refine (readsOnly_step (Sys.readsOnly_lstat _) _).attempt.bind fun r => ?_
  split
  · split
    · exact Sys.readsOnly_throw _
    split
    · exact Sys.readsOnly_throw _
    split
    · exact Sys.readsOnly_pure _
    · refine (readsOnly_step (Sys.readsOnly_readAll _) _).bind fun cur => ?_
      split
      · exact Sys.readsOnly_pure _
      · exact Sys.readsOnly_throw _
  · split
    · exact Sys.readsOnly_pure _
    · exact Sys.readsOnly_throw _
  · exact Sys.readsOnly_throw _

/-- `Write` goes on where the path names a regular file or, to create one, nothing. -/
theorem checkWriteUnder_ok {sha : Option Str} {create : Bool}
    (h : (checkWriteUnder lib x abs c sha create).run j = (.ok mode, j')) :
    x.lstat = none ∧ (create = false → sha.isSome = true → x.readFile = none) ∧
      ∀ S, j.tree.lstat abs = .found S → j.tree.look S = some .leaf := by
  rw [checkWriteUnder] at h
  rcases hx : x.lstat with _ | e
  swap
  · rw [hx] at h
    exact nomatch h
  rw [hx, step] at h
  refine ⟨rfl, ?_⟩
  by_cases hs : ∃ S, j.tree.lstat abs = .found S
  · obtain ⟨S, hS⟩ := hs
    obtain ⟨s, hlook⟩ := Tree.lstat_found hS
    obtain ⟨info, hinfo, hshape⟩ := Option.map_eq_some_iff.mp hlook
    have hlstat : (Sys.lstat abs : Prog _).attempt.run j = (.ok (.ok info), j) := by
      rw [Sys.run_attempt, Sys.run_lstat_found hS hinfo]
    rw [Sys.run_bind_ok hlstat] at h
    dsimp only at h
    split at h
    · exact nomatch h
    split at h
    · exact nomatch h
    next hcreate hkind =>
    refine ⟨fun _ hsha => ?_, fun S' hS' => ?_⟩
    · obtain ⟨sha, rfl⟩ := Option.isSome_iff_exists.mp hsha
      rcases hread : x.readFile with _ | e
      · rfl
      · rw [hread] at h
        exact nomatch h
    · obtain rfl := Walk.found.inj (hS.symm.trans hS')
      rw [Tree.look, hinfo, Option.map_some, Node.shape]
      match hk : info.kind with
      | .file _ => rfl
      | .dir | .link _ | .special => exact absurd (by rw [hk]; exact nofun) hkind
  · push Not at hs
    obtain ⟨e, he⟩ := Sys.run_lstat_not_found (μ := FsError) hs
    have hlstat : (Sys.lstat abs : Prog _).attempt.run j = (.ok (.error (.errno e)), j) := by
      rw [Sys.run_attempt, he]
    rw [Sys.run_bind_ok hlstat] at h
    refine ⟨fun hcreate => ?_, fun S hS => absurd hS (hs S)⟩
    rw [hcreate] at h
    rcases e with _ | _ | _ | _ | _ | _ | _ | _ <;> exact nomatch h

theorem readsOnly_checkReceiveUnder {overwrite : Bool} : (checkReceiveUnder x abs c overwrite).ReadsOnly := by
  unfold checkReceiveUnder
  split
  · exact Sys.readsOnly_throw _
  refine (readsOnly_step (Sys.readsOnly_lstat _) _).attempt.bind fun r => ?_
  split
  · split
    · exact Sys.readsOnly_throw _
    split
    · exact Sys.readsOnly_throw _
    · exact Sys.readsOnly_pure _
  · exact Sys.readsOnly_pure _

theorem run_step_resolve (f : FS) (t : Tree Name Str) (rel : Str) :
    (∃ e, (step x.resolve (f.resolve rel)).run (.of t) = (.error e, .of t)) ∨
      ∃ abs c, (step x.resolve (f.resolve rel)).run (.of t) = (.ok (abs, c), .of t) ∧
        resolve t f rel = .ok (abs, c) ∧ x.resolve = none := by
  rcases x.resolve with _ | e
  · rw [step, FS.resolve, Sys.run_look]
    rcases hres : resolve t f rel with e | ⟨abs, c⟩
    · exact .inl ⟨e, by rw [Journal.of_tree, hres]⟩
    · exact .inr ⟨abs, c, by rw [Journal.of_tree, hres], rfl, rfl⟩
  · exact .inl ⟨failed e, rfl⟩

/-- The final `Stat` of `Write` finds the file. -/
theorem run_stat_placed {result : Node Name Str → δ} (hleaf : ∀ S, t.lstat (p ++ [n]) = .found S → t.look S = some .leaf)
    (h : Unharmed t (p ++ [n]) t₁) (hD : t₁.DirAt p D) (htemp : Temp t₁ D n data j.tree) :
    ∃ b, (do let st ← Sys.stat (p ++ [n]); pure (result st) : Prog δ).run j = (.ok b, j) := by
  have hfree : t₁.look (D ++ [n]) = none ∨ t₁.look (D ++ [n]) = some .leaf := by
    by_cases hS : ∃ S, t.lstat (p ++ [n]) = .found S
    · obtain ⟨S, hS⟩ := hS
      have hlook : t.look = t₁.look := funext fun l => by rw [Tree.look, Tree.look, h.there S hS l]
      obtain ⟨D', hD', rfl, -⟩ := Tree.lstat_concat_eq_found.mp hS
      obtain rfl := (hD'.congr hlook).unique hD
      exact .inr (hlook ▸ hleaf _ hS)
    · push Not at hS
      refine .inl ?_
      by_contra hthere
      exact h.missing hS _ (Tree.lstat_concat_eq_found.mpr ⟨D, hD, rfl, hthere⟩)
  have hbeside : Beside j.tree p D n := ⟨htemp.dirAt hfree hD, htemp.look⟩
  obtain ⟨st, hst, -⟩ := Option.map_eq_some_iff.mp hbeside.file
  exact ⟨result st, by rw [Sys.run_bind_ok (Sys.run_stat_found hbeside.stat hst)]; rfl⟩

theorem write_allOrNothing (rel content : Str) (sha : Option Str) (create : Bool) (t : Tree Name Str) :
    AllOrNothing f t temps rel content
      (x.Passes ∧ x.lstat = none ∧ (create = false → sha.isSome = true → x.readFile = none))
      (f.writeUnder lib x temps rel content sha create) := by
  rw [AllOrNothing, FS.writeUnder]
  rcases run_step_resolve (x := x) f t rel with ⟨e, hres⟩ | ⟨abs, c, hrun, hres, hx⟩
  · exact .inl ⟨e, .of t, Sys.run_bind_error hres, .inl rfl⟩
  rw [Sys.run_bind_ok hrun]
  dsimp only
  have hreads : (checkWriteUnder lib x abs c sha create).ReadsOnly := readsOnly_checkWriteUnder
  have hquiet := hreads (.of t)
  rcases hcheck : (checkWriteUnder lib x abs c sha create).run (.of t) with ⟨e | mode, j₁⟩ <;> rw [hcheck] at hquiet
  · exact .inl ⟨e, j₁, Sys.run_bind_error hcheck, .inl hquiet.tree⟩
  obtain ⟨hlstat, hread, hleaf⟩ := checkWriteUnder_ok hcheck
  have htree : j₁.tree = t := hquiet.tree
  rw [Journal.of_tree] at hleaf
  obtain ⟨p, n, rfl⟩ : ∃ p n, abs = p ++ [n] := by
    rcases List.eq_nil_or_concat' abs with rfl | h
    · have hroot := hleaf [] Tree.lstat_root
      rw [Tree.look_root] at hroot
      exact nomatch hroot
    · exact h
  rw [Sys.run_bind_ok hcheck]
  let result (st : Node Name Str) : FileWriteResult := ⟨c, sizeOf st, lib.sha256Hex content⟩
  have hdone (t₁ : Tree Name Str) (D : Loc Name) (_ : Unit) (j : Journal Name Str)
      (h : Unharmed j₁.tree (p ++ [n]) t₁) (hD : t₁.DirAt p D) (htemp : Temp t₁ D n content j.tree) :
      ∃ b, (do let st ← Sys.stat (p ++ [n]); pure (result st) : Prog FileWriteResult).run j = (.ok b, j) := by
    rw [htree] at h
    exact run_stat_placed hleaf h hD htemp
  rcases run_placeUnder (f := f) (x := x) (p := p) (n := n) (j := j₁) temps mode (makesDirs_mkdirAll 0o755)
      (fillsWith_writeString content) hdone with
    ⟨e, j', hend, hharm⟩ | ⟨r, j', hend, ⟨hcopy, hclose⟩, hdirs, hcreate, hrename, hplaced⟩
  · rw [htree] at hharm
    exact .inl ⟨e, j', hend, .inr ⟨p ++ [n], c, hres, hharm⟩⟩
  · rw [htree] at hplaced
    refine .inr ⟨r, j', p ++ [n], c, hend, hres, ⟨⟨hx, hdirs, hcreate, hcopy, hclose, hrename⟩, hlstat, hread⟩, ?_⟩
    rintro (hS | hname)
    · exact hplaced (.inl hS)
    · exact hplaced (.inr (hname n (List.getLast?_concat ..)))

/-- `Receive` goes on with a destination that is not the root. -/
theorem checkReceiveUnder_ok {overwrite : Bool} (h : (checkReceiveUnder x abs c overwrite).run j = (.ok (), j')) :
    c ≠ [] := by
  rintro rfl
  exact nomatch h

theorem receive_allOrNothing (rel : Str) (size : ℕ) (overwrite : Bool) (body : Body)
    (confirm : Str → Except Str Unit) (t : Tree Name Str) :
    AllOrNothing f t temps rel body.data (x.Passes ∧ Complete lib size body confirm)
      (f.receiveUnder lib x temps rel size overwrite body confirm) := by
  rw [AllOrNothing, FS.receiveUnder]
  rcases run_step_resolve (x := x) f t rel with ⟨e, hres⟩ | ⟨abs, c, hrun, hres, hx⟩
  · exact .inl ⟨e, .of t, Sys.run_bind_error hres, .inl rfl⟩
  rw [Sys.run_bind_ok hrun]
  dsimp only
  have hreads : (checkReceiveUnder x abs c overwrite).ReadsOnly := readsOnly_checkReceiveUnder
  have hquiet := hreads (.of t)
  rcases hcheck : (checkReceiveUnder x abs c overwrite).run (.of t) with ⟨e | u, j₁⟩ <;> rw [hcheck] at hquiet
  · exact .inl ⟨e, j₁, Sys.run_bind_error hcheck, .inl hquiet.tree⟩
  have htree : j₁.tree = t := hquiet.tree
  obtain ⟨p, n, rfl⟩ := resolve_concat hres (checkReceiveUnder_ok hcheck)
  rw [Sys.run_bind_ok hcheck]
  have hfill : FillsWith body.data _ (receiveBodyUnder lib x size body confirm) := fillsWith_receiveBody
  have hdone (_ : Unit) (j : Journal Name Str) : ∃ b,
      (pure ⟨c, size, lib.sha256Hex body.data⟩ : Prog FileTransferResult).run j = (.ok b, j) := ⟨_, rfl⟩
  rcases run_placeUnder (f := f) (x := x) (p := p) (n := n) (j := j₁) temps 0o644 (makesDirs_mkdirAllOwned f)
      hfill fun _ _ a j' _ _ _ => hdone a j' with
    ⟨e, j', hend, hharm⟩ | ⟨r, j', hend, ⟨hcopy, hclose, hcomplete⟩, hdirs, hcreate, hrename, hplaced⟩
  · rw [htree] at hharm
    exact .inl ⟨e, j', hend, .inr ⟨p ++ [n], c, hres, hharm⟩⟩
  · rw [htree] at hplaced
    refine .inr ⟨r, j', p ++ [n], c, hend, hres, ⟨⟨hx, hdirs, hcreate, hcopy, hclose, hrename⟩, hcomplete⟩, ?_⟩
    rintro (hS | hname)
    · exact hplaced (.inl hS)
    · exact hplaced (.inr (hname n (List.getLast?_concat ..)))

/-- `Write` and `Receive` place all of the content or harm nothing, and they succeed only if no step has failed but
`chmod` and `chown`, and for `Receive` the look at what is there. -/
theorem place_or_harm_nothing (f : FS) (lib : Lib) (x : Faults) (temps : List Name) (rel content : Str)
    (sha : Option Str) (create : Bool) (size : ℕ) (overwrite : Bool) (body : Body)
    (confirm : Str → Except Str Unit) (t : Tree Name Str) :
    AllOrNothing f t temps rel content
        (x.Passes ∧ x.lstat = none ∧ (create = false → sha.isSome = true → x.readFile = none))
        (f.writeUnder lib x temps rel content sha create) ∧
      AllOrNothing f t temps rel body.data (x.Passes ∧ Complete lib size body confirm)
        (f.receiveUnder lib x temps rel size overwrite body confirm) :=
  ⟨write_allOrNothing rel content sha create t, receive_allOrNothing rel size overwrite body confirm t⟩

/-- A `chmod` that fails does not keep the destination as it was, and a new file called as its temporary file is lost
again by a `Write` that succeeds. -/
theorem chmod_ignored_and_file_lost :
    (¬ ∀ (f : FS) (lib : Lib) (x : Faults) (temps : List Name) (rel content : Str) (t : Tree Name Str),
        x.chmod.isSome = true → ∀ l,
          ((f.writeUnder lib x temps rel content none false).run (.of t)).2.tree.node l = t.node l) ∧
      ¬ ∀ (f : FS) (lib : Lib) (temps : List Name) (rel content : Str) (t : Tree Name Str) (r : FileWriteResult)
        (j' : Journal Name Str), (f.writeUnder lib {} temps rel content none true).run (.of t) = (.ok r, j') →
          ∃ abs c, resolve t f rel = .ok (abs, c) ∧ ∃ S, Placed t abs content j'.tree S := by
  constructor
  · intro h
    have hsame := h firstInstance plainLib { chmod := some "operation not permitted".toList } [name "t"] "x".toList
      "new".toList twoInstances rfl [name "a", name "x"]
    exact absurd (congrArg (Option.map sizeOf) hsame) (by decide +kernel)
  · intro h
    have hgone : (((firstInstance.writeUnder plainLib {} [name "n"] "n".toList "new".toList none true).run
        (.of twoInstances)).2.tree.lstat [name "a", name "n"]) = .absent [name "a"] (name "n") := by decide +kernel
    have hsucceeds : ((firstInstance.writeUnder plainLib {} [name "n"] "n".toList "new".toList none true).run
        (.of twoInstances)).1.isOk = true := by decide +kernel
    have hpath : resolve twoInstances firstInstance "n".toList = .ok ([name "a", name "n"], [name "n"]) := by
      decide +kernel
    have hnew : twoInstances.lstat [name "a", name "n"] = .absent [name "a"] (name "n") := by decide +kernel
    rcases hrun : (firstInstance.writeUnder plainLib {} [name "n"] "n".toList "new".toList none true).run
      (.of twoInstances) with ⟨e | r, j'⟩ <;> rw [hrun] at hgone hsucceeds
    · exact nomatch hsucceeds
    · obtain ⟨abs, c, hres, S, hplaced⟩ := h _ _ _ _ _ _ r j' hrun
      obtain ⟨rfl, rfl⟩ := Prod.mk.inj (Except.ok.inj (hpath.symm.trans hres))
      rcases hplaced.place with hS | ⟨-, hS⟩
      · exact nomatch hnew.symm.trans hS
      · exact nomatch hgone.symm.trans hS

end Instfs
