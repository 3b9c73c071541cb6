import Gsm.Backups.Create
import Gsm.Backups.Refused
import Gsm.GoStd.Contents

/-!
# A backup made and restored

`Create` names an entry by its path below the data directory, a directory with a slash behind it;
`entryPath` gives that path back. Emptying the data directory and then restoring the entries, whatever
their order, therefore comes to the tree that was archived: `Restoring` is what holds in between.
-/

open Posix GoStd

namespace Backups

variable {d : Dest} {t u : Tree Name Str} {R T D P : Loc Name} {j j' : Journal Name Str}
  {root p rel dir : Path} {n : Name} {m : Matcher} {nd : Node Name Str} {e : TarEntry} {s : Str}

/-! ## The names of the entries -/

theorem segOf_name (n : Name) : segOf n.1 = .name n := dif_pos n.2

/-- What splits into the names of a path, perhaps with an empty part behind them, is that path. -/
structure NamesPath (s : Str) (rel : Path) : Prop where
  split : splitSlash s = rel.map Subtype.val ∨ splitSlash s = rel.map Subtype.val ++ [[]]

theorem namesPath_relText (hrel : rel ≠ []) : NamesPath (relText rel) rel :=
  ⟨.inl (splitSlash_relText hrel)⟩

theorem namesPath_dir (hrel : rel ≠ []) : NamesPath (relText rel ++ ['/']) rel := by
  refine ⟨.inr ?_⟩
  rw [splitSlash_append, splitSlash_relText hrel]
  rfl

theorem NamesPath.clean (h : NamesPath s rel) : clean s = rel := by
  have hnames : ∀ (p q : Path), (p.map Seg.name).foldl cleanStep q = q ++ p := by
    intro p
    induction p with
    | nil => simp
    | cons n p ih =>
      intro q
      rw [List.map_cons, List.foldl_cons, ih, cleanStep, List.append_assoc]
      rfl
  have hsegs : (rel.map Subtype.val).map segOf = rel.map Seg.name := by
    rw [List.map_map]
    exact List.map_congr_left fun n _ => segOf_name n
  rw [GoStd.clean, segs]
  rcases h.split with h | h
  · rw [h, hsegs, hnames, List.nil_append]
  · have hhere : segOf [] = .here := rfl
    rw [h, List.map_append, hsegs, List.foldl_append, hnames, List.map_singleton, hhere]
    simp [cleanStep]

/-- The parts before the first slash of what names a path. -/
theorem NamesPath.mem (h : NamesPath s rel) {c : Str} (hc : c ∈ splitSlash s) :
    c = [] ∨ IsName c := by
  have hnames : c ∈ rel.map Subtype.val → IsName c := by
    intro hmem
    obtain ⟨n, -, rfl⟩ := List.mem_map.mp hmem
    exact n.2
  rcases h.split with h | h
  · rw [h] at hc
    exact .inr (hnames hc)
  · rw [h] at hc
    rcases List.mem_append.mp hc with hc | hc
    · exact .inr (hnames hc)
    · exact .inl (List.mem_singleton.mp hc)

/-- An entry that `Create` has named is restored where it was. -/
theorem NamesPath.entryPath (h : NamesPath s rel) (hrel : rel ≠ []) (hroot : root ≠ []) :
    entryPath root s = .ok (root ++ rel) := by
  obtain ⟨n, rest, rfl⟩ := List.exists_cons_of_ne_nil hrel
  have hhead : (splitSlash s).take 1 = [n.1] := by
    rcases h.split with h | h <;> rw [h] <;> rfl
  -- the first part is a name, so neither empty nor a dot
  have hfirst : ∀ a b : Str, '/' ∉ a → s = a ++ '/' :: b → n.1 = a := by
    intro a b ha hs
    rw [hs, splitSlash_append, splitSlash_of_notMem ha] at hhead
    exact (List.cons.inj hhead).1.symm
  have hdot : ¬ ['.', '/'].isPrefixOf s = true := by
    intro hpre
    obtain ⟨b, hb⟩ := List.isPrefixOf_iff_prefix.mp hpre
    exact n.2.2.1 (hfirst ['.'] b (by decide) hb.symm)
  have habs : ¬ ['/'].isPrefixOf s = true := by
    intro hpre
    obtain ⟨b, hb⟩ := List.isPrefixOf_iff_prefix.mp hpre
    exact n.2.1 (hfirst [] b (by decide) hb.symm)
  have hdots : hasDotDot s = false := by
    rw [hasDotDot, List.any_eq_false]
    intro c hc hcc
    rcases h.mem hc with rfl | hname
    · exact absurd hcc (by decide)
    · exact hname.2.2.1 (of_decide_eq_true hcc)
  have hin : within root (root ++ n :: rest) = true :=
    within_iff.mpr (.inr ⟨hroot, List.prefix_append _ _⟩)
  have htrim : trimPrefix ['.', '/'] s = s := if_neg hdot
  rw [Backups.entryPath]
  simp only [htrim, if_neg habs, hdots, h.clean, hin, Bool.false_eq_true, if_false, if_true]

/-! ## One entry restored -/

theorem hasNul_append {p q : Path} : hasNul (p ++ q) = (hasNul p || hasNul q) := by
  rw [hasNul, List.any_append]
  rfl

theorem run_makeDir (h : j.tree.Leads p P) (hn : hasNul p = false) :
    ∃ j', (d.makeDir p).run j = (.ok (), j') ∧ j'.tree.DirAt p P ∧
      j'.tree.kindAt = withDirs P j.tree.kindAt ∧
      ∀ x s, j.tree.look x = some s → j'.tree.look x = some s := by
  obtain ⟨j₁, hmk, hdir, hkind, hlook, -⟩ := run_mkdirAll_leads 0o755 h
  obtain ⟨S, hS⟩ := hdir.exists_lstat
  obtain ⟨j₂, hown, hkind'⟩ := run_handOver_kind (μ := RestoreError) d.owner hS
  have hsame := Tree.look_congr hkind'
  refine ⟨j₂, ?_, hdir.congr hsame.symm, hkind'.trans hkind, fun x s hx => ?_⟩
  · rw [Dest.makeDir, Sys.run_bind_ok ((run_mkdirs hn).trans hmk)]
    exact hown
  · rw [hsame]
    exact hlook x s hx

theorem run_makeFile (mode : ℕ) (data : Str) (h : j.tree.Leads p P) (hn : hasNul (p ++ [n]) = false)
    (hfree : j.tree.FreeForFile (P ++ [n])) :
    ∃ j', (d.makeFile (p ++ [n]) mode ⟨data, none, false⟩).run j = (.ok (), j') ∧ j'.tree.DirAt p P ∧
      j'.tree.kindAt = withFile (P ++ [n]) data (withDirs P j.tree.kindAt) ∧
      ∀ x s, j.tree.look x = some s → j'.tree.look x = some s := by
  have hnp : hasNul p = false := by
    rw [hasNul_append, Bool.or_eq_false_iff] at hn
    exact hn.1
  obtain ⟨j₁, hmk, hdir, hkind, hlook⟩ := run_makeDir (d := d) h hnp
  have hne : ¬ P ++ [n] <+: P := fun hpre => by
    have := hpre.length_le
    simp only [List.length_append, List.length_singleton] at this
    omega
  have hfree' : j₁.tree.FreeForFile (P ++ [n]) := by
    rw [Tree.FreeForFile, hkind, withDirs_of_not hne]
    exact hfree
  obtain ⟨j₂, hwrite, hkind₂⟩ :=
    run_overwrite_file (μ := RestoreError) (perm mode ||| 0o600) data hdir hfree'
  have hlook₂ := look_of_withFile hfree' hkind₂
  have hdir₂ : j₂.tree.DirAt p P := hdir.mono hlook₂
  have hfile : j₂.tree.look (P ++ [n]) = some .leaf := by
    rw [Tree.look_eq_kindAt, hkind₂, withFile_self]
    rfl
  have hl : j₂.tree.lstat (p ++ [n]) = .found (P ++ [n]) := by
    rw [hdir₂.lstat_concat, hfile]
    rfl
  obtain ⟨j₃, hown, hkind₃⟩ := run_handOver_kind (μ := RestoreError) d.owner hl
  have hsame := Tree.look_congr hkind₃
  refine ⟨j₃, ?_, hdir₂.congr hsame.symm, ?_, fun x s hx => ?_⟩
  · rw [Dest.makeFile, List.dropLast_concat, Sys.run_bind_ok hmk, if_neg (by simp [hn]),
      Sys.run_bind_ok hwrite]
    exact hown
  · rw [hkind₃, hkind₂, hkind]
  · rw [hsame]
    exact hlook₂ x s (hlook x s hx)

/-- Part of what lies below `R` in `t` stands below `T`, and all that is named by `done`. -/
structure Restoring (t : Tree Name Str) (R : Loc Name) (root : Path) (T : Loc Name)
    (done : List Path) (u : Tree Name Str) : Prop where
  dir : u.DirAt root T
  part : ∀ x, x ≠ [] → u.kindAt (T ++ x) = none ∨ u.kindAt (T ++ x) = t.kindAt (R ++ x)
  full : ∀ x ∈ done, u.kindAt (T ++ x) = t.kindAt (R ++ x)

/-- The way to what lies in a directory is free. -/
theorem Restoring.real {done : List Path} (h : Restoring t R root T done u)
    (hrel : t.look (R ++ rel) = some .dir) : u.Real (T ++ rel) := by
  intro q hq
  by_cases hqT : q <+: T
  · exact .inr (Tree.look_ancestor hqT h.dir.2)
  · have hTq : T <+: q := (List.prefix_or_prefix_of_prefix hq (List.prefix_append T rel)).resolve_left hqT
    obtain ⟨x, rfl⟩ := hTq
    have hx : x <+: rel := (List.prefix_append_right_inj T).mp hq
    by_cases hnil : x = []
    · rw [hnil, List.append_nil]
      exact .inr h.dir.2
    · have hdir : t.look (R ++ x) = some .dir :=
        Tree.look_ancestor ((List.prefix_append_right_inj R).mpr hx) hrel
      rw [Tree.look_eq_kindAt]
      rcases h.part x hnil with hk | hk
      · exact .inl (by rw [hk]; rfl)
      · exact .inr (by rw [hk, ← Tree.look_eq_kindAt, hdir])

/-- Directories made on the way to what lies in the data directory are part of it. -/
theorem withDirs_below (hdir : t.look (R ++ rel) = some .dir) (x : Path) :
    withDirs (T ++ rel) u.kindAt (T ++ x) = u.kindAt (T ++ x) ∨
      withDirs (T ++ rel) u.kindAt (T ++ x) = t.kindAt (R ++ x) := by
  by_cases hpre : x <+: rel
  · right
    rw [withDirs_above ((List.prefix_append_right_inj T).mpr hpre), eq_comm, Tree.kindAt_eq_dir]
    exact Tree.look_ancestor ((List.prefix_append_right_inj R).mpr hpre) hdir
  · exact .inl (withDirs_of_not fun h => hpre ((List.prefix_append_right_inj T).mp h))

/-- Below the data directory there are directories and regular files, and no name has a NUL. -/
structure DataTree (t : Tree Name Str) (R : Loc Name) : Prop where
  dir : t.look R = some .dir
  plain : ∀ x nd, x ≠ [] → t.node (R ++ x) = some nd → nd.kind = .dir ∨ ∃ data, nd.kind = .file data
  named : ∀ x, t.node (R ++ x) ≠ none → hasNul x = false

/-- One entry restored. -/
theorem run_unpack {done : List Path} (h : Restoring t R d.root T done j.tree)
    (hroot : d.root ≠ [] ∧ hasNul d.root = false) (hdata : DataTree t R) (hrel : rel ≠ [])
    (hn : t.node (R ++ rel) = some nd) (he : nodeEntry rel nd = some e) :
    entryPath d.root e.name = .ok (d.root ++ rel) ∧
      ∃ files j', (d.unpack (d.root ++ rel) e).run j = (.ok files, j') ∧
        Restoring t R d.root T (rel :: done) j'.tree := by
  have hnul : hasNul (d.root ++ rel) = false := by
    rw [hasNul_append, hroot.2, hdata.named rel (by simp [hn])]
    rfl
  have hkind : t.kindAt (R ++ rel) = some nd.kind := by
    rw [Tree.kindAt, hn]
    rfl
  -- what stands there keeps to what it was or to what it is to be
  have hrest : ∀ u' : Tree Name Str, u'.DirAt d.root T →
      u'.kindAt (T ++ rel) = t.kindAt (R ++ rel) →
      (∀ x, x ≠ [] → u'.kindAt (T ++ x) = j.tree.kindAt (T ++ x) ∨
        u'.kindAt (T ++ x) = t.kindAt (R ++ x)) → Restoring t R d.root T (rel :: done) u' := by
    intro u' hdir hself hother
    refine ⟨hdir, fun x hx => ?_, fun x hx => ?_⟩
    · rcases hother x hx with hsame | hnew
      · rw [hsame]
        exact h.part x hx
      · exact .inr hnew
    · rcases List.mem_cons.mp hx with rfl | hx
      · exact hself
      · by_cases hnil : x = []
        · have hT := Tree.kindAt_eq_dir.mpr hdir.2
          have hR := Tree.kindAt_eq_dir.mpr hdata.dir
          rw [hnil, List.append_nil, List.append_nil, hT, hR]
        · rcases hother x hnil with hsame | hnew
          · rw [hsame]
            exact h.full x hx
          · exact hnew
  rw [nodeEntry] at he
  split at he
  · next hk =>
    cases he
    refine ⟨(namesPath_dir hrel).entryPath hrel hroot.1, ?_⟩
    have hdir : t.look (R ++ rel) = some .dir := by rw [← Tree.kindAt_eq_dir, hkind, hk]
    obtain ⟨j', hrun, -, hkind', hlook⟩ := run_makeDir (d := d) (h.dir.leads (h.real hdir)) hnul
    refine ⟨0, j', ?_, hrest j'.tree (h.dir.mono hlook) ?_ fun x hx => ?_⟩
    · show (do d.makeDir (d.root ++ rel); pure 0 : Prog ℕ).run j = _
      rw [Sys.run_bind_ok hrun]
      rfl
    · rw [hkind', withDirs_above List.prefix_rfl, hkind, hk]
    · rw [hkind']
      exact withDirs_below hdir x
  · next data hk =>
    cases he
    refine ⟨(namesPath_relText hrel).entryPath hrel hroot.1, ?_⟩
    obtain ⟨q, n, rfl⟩ := List.eq_nil_or_concat rel |>.resolve_left hrel
    simp only [List.concat_eq_append, ← List.append_assoc] at hn hkind hnul hrest ⊢
    have hdir : t.look (R ++ q) = some .dir := by
      refine Tree.look_parent (n := n) ?_
      rw [hn]
      simp
    have hfree : j.tree.FreeForFile (T ++ q ++ [n]) := by
      rw [List.append_assoc]
      rcases h.part (q ++ [n]) (by simp) with hnone | hthere
      · exact .inl hnone
      · refine .inr ⟨data, ?_⟩
        rw [hthere, ← List.append_assoc, hkind, hk]
    obtain ⟨j', hrun, -, hkind', hlook⟩ :=
      run_makeFile (d := d) (nd.mode % 0o10000) data
        (h.dir.leads (h.real hdir)) hnul hfree
    refine ⟨1, j', ?_, hrest j'.tree (h.dir.mono hlook) ?_ fun x hx => ?_⟩
    · show (do d.makeFile (d.root ++ q ++ [n]) (nd.mode % 0o10000) ⟨data, none, false⟩; pure 1 : Prog ℕ).run j = _
      rw [Sys.run_bind_ok hrun]
      rfl
    · rw [hkind', withFile_self, hkind, hk]
    · rw [hkind']
      by_cases hself : T ++ x = T ++ q ++ [n]
      · right
        rw [List.append_assoc] at hself
        rw [List.append_cancel_left hself, ← List.append_assoc, ← List.append_assoc, withFile_self,
          hkind, hk]
      · rw [withFile_ne hself]
        exact withDirs_below hdir x
  · cases he

/-- What `Create` archives of it, when nothing is ignored, is restored entry by entry. -/
theorem run_unpackFrom {done : List Path} (rels : List Path) (h : Restoring t R d.root T done j.tree)
    (hroot : d.root ≠ [] ∧ hasNul d.root = false) (hdata : DataTree t R)
    (hkeep : ∀ x nd, x ≠ [] → t.node (R ++ x) = some nd → m.drops x nd = false)
    (hrels : ∀ rel ∈ rels, rel ≠ [] ∧ t.node (R ++ rel) ≠ none) (i files : ℕ) :
    ∃ files' j', (d.unpackFrom (fun _ => false) none i files (rels.filterMap (keptEntry m t R))).run j =
      (.ok files', j') ∧ Restoring t R d.root T (rels ++ done) j'.tree := by
  induction rels generalizing j i files done with
  | nil => exact ⟨files, j, rfl, h⟩
  | cons rel rels ih =>
    obtain ⟨⟨hrel, hne⟩, hrels⟩ := List.forall_mem_cons.mp hrels
    obtain ⟨nd, hn⟩ := Option.ne_none_iff_exists'.mp hne
    have hentry : ∃ e, nodeEntry rel nd = some e := by
      rcases hdata.plain rel nd hrel hn with hk | ⟨data, hk⟩ <;> simp [nodeEntry, hk]
    obtain ⟨e, he⟩ := hentry
    have hkept : keptEntry m t R rel = some e := by
      rw [keptEntry, hn, Option.bind_some, if_neg (by simp [hkeep rel nd hrel hn]), he]
    obtain ⟨hpath, k, j₁, hunpack, h₁⟩ := run_unpack h hroot hdata hrel hn he
    obtain ⟨files', j', hrun, h'⟩ := ih h₁ hrels (i + 1) (files + k)
    refine ⟨files', j', ?_, ⟨h'.dir, h'.part, fun x hx => h'.full x ?_⟩⟩
    · rw [List.filterMap_cons_some hkept, Dest.unpackFrom, if_neg (by simp), hpath]
      simp only
      rw [Sys.run_bind_ok hunpack]
      exact hrun
    · simp only [List.cons_append, List.mem_cons, List.mem_append] at hx ⊢
      tauto

/-! ## The data directory emptied -/

/-- In an empty directory there is nothing to remove. -/
theorem run_removeEach_empty {names : List Name} (hdir : j.tree.DirAt root T)
    (hT : ∀ n, j.tree.look (T ++ [n]) = none) : (removeEach root names).run j = (.ok (), j) := by
  induction names with
  | nil => rfl
  | cons n names ih => rw [removeEach, Sys.run_bind_ok (run_removeAll_entry hdir), if_pos (hT n), ih]

/-- While the directory is emptied it stays reached. -/
theorem run_removeEach (names : List Name) (hpast : u.LeadsPast root T) (hT : u.look T = some .dir)
    (hsame : ∀ x, x = T ∨ ¬ T <+: x → j.tree.look x = u.look x) :
    ∃ j', (removeEach root names).run j = (.ok (), j') ∧
      ∀ x, x = T ∨ ¬ T <+: x → j'.tree.look x = u.look x := by
  induction names generalizing j with
  | nil => exact ⟨j, rfl, hsame⟩
  | cons n names ih =>
    have hdir : j.tree.DirAt root T := (hpast j.tree hsame).dirAt (by rw [hsame T (.inl rfl), hT])
    have hrun := run_removeAll_entry (μ := RestoreError) (c := n) hdir
    generalize hj₁ : (if j.tree.look (T ++ [n]) = none then j else j.remove (T ++ [n])) = j₁ at hrun
    have hsame₁ : ∀ x, x = T ∨ ¬ T <+: x → j₁.tree.look x = u.look x := by
      intro x hx
      have hpre : ¬ T ++ [n] <+: x := by
        intro hpre
        rcases hx with rfl | hx
        · have := hpre.length_le
          simp only [List.length_append, List.length_singleton] at this
          omega
        · exact hx ((List.prefix_append T [n]).trans hpre)
      rw [← hsame x hx, ← hj₁]
      split
      · rfl
      · rw [Tree.look, Journal.tree_remove, Tree.node_remove_ne _ hpre]
        rfl
    obtain ⟨j', hrest, hsame'⟩ := ih hsame₁
    exact ⟨j', by rw [removeEach, Sys.run_bind_ok hrun, hrest], hsame'⟩

theorem run_prepare_wipe (hpast : j.tree.LeadsPast root T) (hn : hasNul root = false) :
    ∃ j', (prepare root true).run j = (.ok (), j') ∧ j'.tree.DirAt root T ∧
      ∀ x, x ≠ [] → j'.tree.kindAt (T ++ x) = none := by
  have hleads : j.tree.Leads root T := hpast j.tree fun _ _ => rfl
  obtain ⟨j₁, hmk, hdir, hkind, hlook, -⟩ :=
    run_mkdirAll_leads (μ := RestoreError) 0o755 hleads
  have hmk' : (mkdirs root).run j = (.ok (), j₁) := (run_mkdirs hn).trans hmk
  obtain ⟨nd, hnd, hshape⟩ := Option.map_eq_some_iff.mp hdir.2
  have hk : nd.kind = .dir := by
    have h := Tree.kindAt_eq_dir.mpr hdir.2
    rw [Tree.kindAt, hnd] at h
    exact Option.some.inj h
  have hread : (Sys.readDir root : Prog _).run j₁ = (.ok (j₁.tree.names T), j₁.read T) := by
    rw [Sys.readDir, Sys.run_bind_ok (Sys.run_existing_found (f := (·.stat root)) hdir.1),
      Sys.run_bind_ok (Sys.run_read T), Sys.run_bind_ok (show (Sys.nodeAt T : Prog _).run _ = _ by
        rw [Sys.nodeAt, Sys.run_look, Journal.tree_read, hnd])]
    simp only [hk]
    rfl
  have hclear : ∃ j', (removeEach root (j₁.tree.names T)).run (j₁.read T) = (.ok (), j') ∧
      j'.tree.DirAt root T := by
    rcases hleads with hthere | ⟨q, c, rest, D, rfl, rfl, hq, hc⟩
    · -- the directory was there, and stays reached while it is emptied
      have hsame : ∀ x, x = T ∨ ¬ T <+: x → (j₁.read T).tree.look x = j.tree.look x := by
        intro x hx
        rw [Journal.tree_read, Tree.look_eq_kindAt, hkind, Tree.look_eq_kindAt]
        rw [kindAt_withDirs_self hthere.2]
      obtain ⟨j', hrun, hsame'⟩ := run_removeEach (j₁.tree.names T) hpast hthere.2 hsame
      exact ⟨j', hrun, (hpast _ hsame').dirAt (by rw [hsame' T (.inl rfl), hthere.2])⟩
    · -- a directory just made is empty
      refine ⟨j₁.read _, run_removeEach_empty hdir fun n => ?_, hdir⟩
      have hfree : j.tree.node (D ++ c :: rest ++ [n]) = none := by
        rw [show D ++ c :: rest ++ [n] = D ++ [c] ++ (rest ++ [n]) by simp]
        exact Tree.node_below (by simp) (by simp [hc])
      rw [Journal.tree_read, Tree.look_eq_kindAt, hkind, withDirs_of_not, Tree.kindAt, hfree]
      · rfl
      · intro hpre
        have := hpre.length_le
        simp only [List.length_append, List.length_singleton] at this
        omega
  obtain ⟨j', hremove, hdir'⟩ := hclear
  have hrun : (prepare root true).run j = (.ok (), j') := by
    rw [prepare, Sys.run_bind_ok hmk']
    show (do let names ← Sys.readDir root; removeEach root names : Prog Unit).run j₁ = _
    rw [Sys.run_bind_ok hread, hremove]
  refine ⟨j', hrun, hdir', fun x hx => ?_⟩
  rw [Tree.kindAt_eq_none]
  exact (prepare_prepared hrun).emptied rfl T hdir' x hx

/-! ## The round trip -/

/-- The reader returns the entries that were written. -/
def Archiver.Returns (lib : Archiver) (entries : List TarEntry) (bytes : Str) : Prop :=
  lib.writeTarGz entries = .ok bytes ∧
    ∃ r, lib.gunzip bytes = .ok r ∧ lib.readTar r = ⟨entries, none⟩

/-- The path leads to a file with these bytes. -/
def HoldsFile (t : Tree Name Str) (p : Path) (bytes : Str) : Prop :=
  ∃ l, t.stat p = .found l ∧ t.kindAt l = some (.file bytes)

theorem run_openArchive {archive : Path} {bytes : Str} (h : HoldsFile j.tree archive bytes) :
    ∃ j', (openArchive archive).run j = (.ok (some bytes), j') ∧ j'.tree = j.tree := by
  obtain ⟨l, hl, hk⟩ := h
  obtain ⟨nd, hnd, hkind⟩ := Option.map_eq_some_iff.mp hk
  have hnode : (Sys.nodeAt l : Prog _).run j = (.ok nd, j) := by rw [Sys.nodeAt, Sys.run_look, hnd]
  refine ⟨j.read l, ?_, rfl⟩
  rw [openArchive, Sys.run_bind_ok (Sys.run_attempt _ _), Sys.run_existing_found (f := (·.stat archive)) hl]
  simp only
  rw [Sys.run_bind_ok hnode, hkind]
  rfl

theorem restore_entries {lib : Archiver} {archive : Path} {bytes : Str}
    (hdata : DataTree t R)
    (hkeep : ∀ x nd, x ≠ [] → t.node (R ++ x) = some nd → m.drops x nd = false)
    (hlib : lib.Returns (keptEntries m t R) bytes) (hfile : HoldsFile u archive bytes)
    (hroot : d.root ≠ [] ∧ hasNul d.root = false) (hpast : u.LeadsPast d.root T) :
    ∃ files j', (restore d lib.toTarGz (fun _ => false) archive true).run (.of u) = (.ok files, j') ∧
      j'.tree.DirAt d.root T ∧ ∀ x, x ≠ [] → j'.tree.kindAt (T ++ x) = t.kindAt (R ++ x) := by
  obtain ⟨j₀, hopen, htree⟩ := run_openArchive (j := .of u) hfile
  obtain ⟨j₁, hprep, hdir, hempty⟩ := run_prepare_wipe (j := j₀) (by rw [htree]; exact hpast) hroot.2
  have hstart : Restoring t R d.root T [] j₁.tree :=
    ⟨hdir, fun x hx => .inl (hempty x hx), by simp⟩
  obtain ⟨-, r, hgz, htar⟩ := hlib
  obtain ⟨files, j', hrun, hend⟩ := run_unpackFrom (t.below R) hstart hroot hdata hkeep
    (fun rel hrel => Tree.mem_below hrel) 0 0
  refine ⟨files, j', ?_, hend.dir, fun x hx => ?_⟩
  · have hgzip : openGzip lib.toTarGz (some bytes) = .ok r := by
      rw [openGzip, Option.map_some, hgz]
    rw [restore, Sys.run_bind_ok hopen, Sys.run_bind_ok hprep, Dest.unpackAll, hgzip]
    simp only
    rw [htar]
    exact hrun
  · by_cases hn : t.node (R ++ x) = none
    · have hnone : t.kindAt (R ++ x) = none := Tree.kindAt_eq_none.mpr hn
      rcases hend.part x hx with h | h
      · rw [h, hnone]
      · exact h
    · exact hend.full x (List.mem_append_left _ (Tree.mem_below_of_node hx hn))

/-- The tree `Create` walks over: there is its directory, with an empty file for the archive. -/
structure Opened (t : Tree Name Str) (dataDir dir : Path) (R D : Loc Name) (n : Name)
    (u : Tree Name Str) : Prop where
  dir : u.DirAt dir D
  kind : u.kindAt = withFile (D ++ [tmpName n]) ∅ (withDirs D t.kindAt)
  root : u.lstat dataDir = .found R
  node : ∀ y, u.node (R ++ y) = t.node (R ++ y)

theorem tmpName_ne (n : Name) : tmpName n ≠ n := fun h => by
  have := congrArg (fun m : Name => m.1.length) h
  simp [tmpName] at this

theorem not_concat_above (m : Name) : ¬ D ++ [m] <+: D := fun hpre => by
  have := hpre.length_le
  simp only [List.length_append, List.length_singleton] at this
  omega

/-- Whatever the walk is, `Create` reaches it with the data directory as it was. -/
theorem run_createWith_start {dataDir : Path} (hl : t.lstat dataDir = .found R)
    (hR : t.look R = some .dir) (hD : t.Leads dir D) (hout : ¬ R <+: D)
    (hnul : hasNul (dir ++ [n]) = false) (htmp : t.FreeForFile (D ++ [tmpName n])) :
    ∃ j₂, Opened t dataDir dir R D n j₂.tree ∧ ∀ (lib : Archiver) (arch : Prog Archived),
      (createWith lib dir n arch).run (.of t) = (Sys.deferring (Sys.unlink (dir ++ [tmpName n]))
        (pack lib dir n (D ++ [tmpName n]) arch)).run j₂ := by
  have hnn : hasNul dir = false ∧ hasNul [n] = false := by
    rw [hasNul_append, Bool.or_eq_false_iff] at hnul
    exact hnul
  obtain ⟨j₁, hmk, hdir, hkind₁, hlook₁, hframe₁⟩ :=
    run_mkdirAll_leads (μ := RestoreError) (j := .of t) 0o755 hD
  have htmp₁ : j₁.tree.FreeForFile (D ++ [tmpName n]) := by
    rw [Tree.FreeForFile, hkind₁, withDirs_of_not (not_concat_above _)]
    exact htmp
  obtain ⟨j₂, hopen, hkind₂, hframe₂⟩ :=
    run_openTrunc_file (μ := RestoreError) 0o666 hdir htmp₁
  have hlook₂ := look_of_withFile htmp₁ hkind₂
  -- the data directory is as it was
  have hsame : ∀ y, j₂.tree.node (R ++ y) = t.node (R ++ y) := by
    intro y
    have hnot : ¬ R ++ y <+: D := fun h => hout ((List.prefix_append R y).trans h)
    have hother : R ++ y ≠ D ++ [tmpName n] := by
      intro heq
      by_cases hy : y = []
      · rw [hy, List.append_nil] at heq
        rw [heq] at hR
        rcases htmp.look with h | h <;> rw [h] at hR <;> cases hR
      · obtain ⟨y, c, rfl⟩ := List.eq_nil_or_concat y |>.resolve_left hy
        rw [List.concat_eq_append, ← List.append_assoc] at heq
        exact hout ⟨y, (List.append_inj' heq rfl).1⟩
    rw [hframe₂ _ hother, hframe₁ _ hnot]
    rfl
  have hl₂ : j₂.tree.lstat dataDir = .found R := walk_mono hlook₂ _ _ _ (walk_mono hlook₁ _ _ _ hl)
  refine ⟨j₂, ⟨hdir.mono hlook₂, by rw [hkind₂, hkind₁]; rfl, hl₂, hsame⟩, fun lib arch => ?_⟩
  rw [createWith, Sys.run_bind_ok ((run_mkdirs hnn.1).trans hmk), if_neg (by simp [hnn.2]),
    Sys.run_bind_ok hopen]

/-- A walk that succeeds is put into the backup. -/
theorem run_createWith_finish {lib : Archiver} {dataDir : Path} {arch : Prog Archived} {w : Archived}
    {j₂ j₃ : Journal Name Str} {bytes : Str} (h : Opened t dataDir dir R D n j₂.tree)
    (hn : t.FreeForFile (D ++ [n])) (harch : arch.run j₂ = (.ok w, j₃)) (hquiet : j₂.Quiet j₃)
    (hlib : lib.writeTarGz w.entries = .ok bytes) :
    ∃ res j', (Sys.deferring (Sys.unlink (dir ++ [tmpName n]))
      (pack lib dir n (D ++ [tmpName n]) arch)).run j₂ = (.ok res, j') ∧
        HoldsFile j'.tree (dir ++ [n]) bytes := by
  have hne := tmpName_ne n
  have hdir₃ : j₃.tree.DirAt dir D := by
    rw [hquiet.tree]
    exact h.dir
  have hfile₃ : j₃.tree.kindAt (D ++ [tmpName n]) = some (.file ∅) := by
    rw [hquiet.tree, h.kind, withFile_self]
  -- the archive is written and takes its name
  have hwrite : (Sys.write (D ++ [tmpName n]) bytes : Prog Unit).run j₃ = _ := Sys.run_write
  generalize hj₄ : j₃.alter .write (by decide) (D ++ [tmpName n]) (Node.setData bytes)
    (Node.shape_setData bytes) = j₄ at hwrite
  have hkind₄ : j₄.tree.kindAt = withFile (D ++ [tmpName n]) bytes j₃.tree.kindAt := by
    rw [← hj₄]
    exact funext fun x => Tree.kindAt_setData hfile₃ x
  have hdir₄ : j₄.tree.DirAt dir D := hdir₃.mono (look_of_withFile (.inr ⟨_, hfile₃⟩) hkind₄)
  have hfree₄ : j₄.tree.FreeForFile (D ++ [n]) := by
    have hnt : D ++ [n] ≠ D ++ [tmpName n] := by simpa using hne.symm
    rw [Tree.FreeForFile, hkind₄, withFile_ne hnt, hquiet.tree, h.kind, withFile_ne hnt,
      withDirs_of_not (not_concat_above n)]
    exact hn
  have htmp₄ : j₄.tree.kindAt (D ++ [tmpName n]) = some (.file bytes) := by
    rw [hkind₄, withFile_self]
  obtain ⟨j₅, hrename, hkind₅⟩ := run_rename_file (μ := RestoreError) hdir₄ hne htmp₄ hfree₄
  have hdir₅ : j₅.tree.DirAt dir D := by
    refine hdir₄.thin fun x s hx hs => ?_
    have hxn : x ≠ D ++ [n] := by
      rintro rfl
      rcases hfree₄.look with h | h <;> rw [h] at hx <;> cases hx
      exact hs rfl
    have hxt : x ≠ D ++ [tmpName n] := by
      rintro rfl
      rw [Tree.look_eq_kindAt, htmp₄] at hx
      cases hx
      exact hs rfl
    rw [Tree.look_eq_kindAt, hkind₅, withFile_ne hxn, without_ne hxt, ← Tree.look_eq_kindAt, hx]
  have habsent : j₅.tree.look (D ++ [tmpName n]) = none := by
    have hnt : D ++ [tmpName n] ≠ D ++ [n] := by simpa using hne
    rw [Tree.look_eq_kindAt, hkind₅, withFile_ne hnt, without_self]
    rfl
  have hfile₅ : j₅.tree.kindAt (D ++ [n]) = some (.file bytes) := by rw [hkind₅, withFile_self]
  have hlook₅ : j₅.tree.look (D ++ [n]) = some .leaf := by rw [Tree.look_eq_kindAt, hfile₅]; rfl
  refine ⟨⟨bytes.length, lib.sha256Hex bytes, w.files⟩, j₅, ?_, D ++ [n], ?_, hfile₅⟩
  · rw [Sys.run_deferring_eq_ok]
    refine ⟨j₅, ?_, ?_⟩
    · rw [pack, Sys.run_bind_ok harch, hlib]
      simp only
      rw [Sys.run_bind_ok hwrite, Sys.run_bind_ok hrename]
      rfl
    · have hl₅ : j₅.tree.lstat (dir ++ [tmpName n]) = .absent D (tmpName n) := by
        rw [hdir₅.lstat_concat, habsent]
        rfl
      rw [Sys.unlink, Sys.run_bind_error (Sys.run_existing_absent (f := (·.lstat _)) hl₅)]
  · rw [hdir₅.stat_concat (by simp [hlook₅]), hlook₅]
    rfl

theorem keptEntries_congr {u : Tree Name Str} (h : ∀ x, u.node (R ++ x) = t.node (R ++ x)) :
    keptEntries m u R = keptEntries m t R := by
  have hbelow : u.below R = t.below R := Tree.below_congr fun x _ => by rw [h x]
  rw [keptEntries, keptEntries, hbelow]
  refine List.filterMap_congr fun x _ => ?_
  rw [keptEntry, keptEntry, h x]

/-- What `Create` makes, for a data directory that the backup is not put into. -/
theorem run_create {lib : Archiver} {dataDir : Path} {ignore : List Str} {bytes : Str}
    (hl : t.lstat dataDir = .found R) (hR : t.look R = some .dir) (hD : t.Leads dir D)
    (hout : ¬ R <+: D) (hnul : hasNul (dir ++ [n]) = false) (hn : t.FreeForFile (D ++ [n]))
    (htmp : t.FreeForFile (D ++ [tmpName n]))
    (hlib : lib.writeTarGz (keptEntries (newMatcher ignore) t R) = .ok bytes) :
    ∃ res j', (create lib (fun _ => false) dataDir dir n ignore).run (.of t) = (.ok res, j') ∧
      HoldsFile j'.tree (dir ++ [n]) bytes := by
  obtain ⟨j₂, hopened, hstart⟩ := run_createWith_start hl hR hD hout hnul htmp
  rcases run_archive (newMatcher ignore) (fun _ => false) hopened.root with
    ⟨w, j₃, harch, hquiet, hw⟩ | ⟨i, hi, -⟩
  · rw [create_eq, hstart]
    refine run_createWith_finish hopened hn harch hquiet ?_
    rw [hw, keptEntries_congr hopened.node, hlib]
  · cases hi

/-- A backup made of a data directory without ignored entries and restored into an emptied directory,
there or not, gives the directories and files with their contents; nothing else of what is there later
matters but the archive. A data directory is never the root of the file system. -/
theorem create_restore (lib : Archiver) (t : Tree Name Str) (dataDir dir : Path) (R D : Loc Name)
    (n : Name) (ignore : List Str) (bytes : Str) (hl : t.lstat dataDir = .found R)
    (hdata : DataTree t R)
    (hkeep : ∀ x nd, x ≠ [] → t.node (R ++ x) = some nd → (newMatcher ignore).drops x nd = false)
    (hD : t.Leads dir D) (hout : ¬ R <+: D) (hnul : hasNul (dir ++ [n]) = false)
    (hn : t.FreeForFile (D ++ [n])) (htmp : t.FreeForFile (D ++ [tmpName n]))
    (hlib : lib.Returns (keptEntries (newMatcher ignore) t R) bytes) :
    ∃ res j', (create lib (fun _ => false) dataDir dir n ignore).run (.of t) = (.ok res, j') ∧
      HoldsFile j'.tree (dir ++ [n]) bytes ∧
      ∀ (d : Dest) (T : Loc Name) (u : Tree Name Str), HoldsFile u (dir ++ [n]) bytes →
        d.root ≠ [] ∧ hasNul d.root = false → u.LeadsPast d.root T →
          ∃ files j'', (restore d lib.toTarGz (fun _ => false) (dir ++ [n]) true).run (.of u) =
            (.ok files, j'') ∧ j''.tree.DirAt d.root T ∧
              ∀ x, x ≠ [] → j''.tree.kindAt (T ++ x) = t.kindAt (R ++ x) := by
  obtain ⟨res, j', hrun, hfile⟩ := run_create hl hdata.dir hD hout hnul hn htmp hlib.1
  exact ⟨res, j', hrun, hfile, fun d T u hu hroot hpast =>
    restore_entries hdata hkeep hlib hu hroot hpast⟩

/-- A data directory with one file. -/
def oneSave : Tree Name Str :=
  .build
    [([], name "a", ⟨.dir, 0o755, 1000, 1000⟩),
     ([name "a"], name "save", ⟨.file ['x'], 0o644, 1000, 1000⟩)]

def saveEntry : TarEntry := fileEntry [name "save"] 0o644 ['x']

def saveTar : Str :=
  field 512 (field 100 "save".toList ++ field 8 "0000644".toList ++ field 8 "0000000".toList ++
    field 8 "0000000".toList ++ field 12 "00000000001".toList ++ field 12 "00000000000".toList ++
    field 7 "005376".toList ++ " 0".toList) ++ field 1536 ['x']

def saveGz : Str :=
  [0x1f, 0x8b, 8, 0, 0, 0, 0, 0, 0, 255, 1, 0, 8, 255, 0xf7].map Char.ofNat ++ saveTar ++
    [0xd4, 0x9c, 0xe7, 0x77, 0, 8, 0, 0].map Char.ofNat

/-- A writer and readers that know this one file. -/
def saveArchiver : Archiver where
  toTarGz := .only saveGz saveTar saveEntry
  writeTarGz entries := if entries = [saveEntry] then .ok saveGz else .error "unknown".toList
  sha256Hex _ := []

/-- The backup, and a directory with something else in it. -/
def afterSave (bytes : Str) : Tree Name Str :=
  .build
    [([], name "backups", ⟨.dir, 0o755, 0, 0⟩),
     ([name "backups"], name "1", ⟨.file bytes, 0o644, 0, 0⟩),
     ([], name "b", ⟨.dir, 0o755, 1000, 1000⟩),
     ([name "b"], name "old", ⟨.file ['y'], 0o644, 1000, 1000⟩)]

theorem below_oneSave : oneSave.below [name "a"] = [[name "save"]] := by decide +kernel

theorem node_oneSave {x : Path} {nd : Node Name Str} (hx : x ≠ [])
    (hn : oneSave.node ([name "a"] ++ x) = some nd) :
    x = [name "save"] ∧ nd = ⟨.file ['x'], 0o644, 1000, 1000⟩ := by
  have hmem := Tree.mem_below_of_node hx (show oneSave.node _ ≠ none by rw [hn]; simp)
  rw [below_oneSave, List.mem_singleton] at hmem
  subst hmem
  refine ⟨rfl, ?_⟩
  cases hn
  rfl

theorem holdsFile_afterSave (bytes : Str) :
    HoldsFile (afterSave bytes) [name "backups", name "1"] bytes :=
  ⟨[name "backups", name "1"], rfl, rfl⟩

theorem create_restore_oneSave : ∃ res j',
    (create saveArchiver (fun _ => false) [name "a"] [name "backups"] (name "1") []).run (.of oneSave) =
      (.ok res, j') ∧ HoldsFile j'.tree ([name "backups"] ++ [name "1"]) saveGz ∧
    ∃ files j'', (restore ⟨[name "b"], 1000, 1000, true⟩ saveArchiver.toTarGz (fun _ => false)
      ([name "backups"] ++ [name "1"]) true).run (.of (afterSave saveGz)) = (.ok files, j'') ∧
        ∀ x, x ≠ [] → j''.tree.kindAt ([name "b"] ++ x) = oneSave.kindAt ([name "a"] ++ x) := by
  have hdata : DataTree oneSave [name "a"] := by
    refine ⟨by decide, fun x nd hx hn => ?_, fun x hx => ?_⟩
    · exact .inr ⟨_, congrArg Node.kind (node_oneSave hx hn).2⟩
    · by_cases hnil : x = []
      · rw [hnil]
        rfl
      · obtain ⟨nd, hn⟩ := Option.ne_none_iff_exists'.mp hx
        rw [(node_oneSave hnil hn).1]
        decide
  obtain ⟨res, j', hrun, hfile, hrestore⟩ := create_restore saveArchiver oneSave [name "a"]
    [name "backups"] [name "a"] [name "backups"] (name "1") [] saveGz (by decide) hdata
    (fun x nd hx hn => rfl) (.inr ⟨[], name "backups", [], [], rfl, rfl,
      ⟨Tree.stat_root, Tree.look_root _⟩, by decide⟩) (by decide)
    (by decide) (.inl (by rw [Tree.kindAt_eq_none]; decide)) (.inl (by rw [Tree.kindAt_eq_none]; decide))
    ⟨by decide +kernel, ⟨saveTar, none, false⟩, by decide +kernel, by decide +kernel⟩
  have hlook : ∀ bytes, (afterSave bytes).look [name "b"] = some .dir := fun _ => rfl
  have hreal : (afterSave saveGz).LeadsPast [name "b"] [name "b"] :=
    (Tree.real_of_dir (hlook saveGz)).leadsPast
  have hroot : [name "b"] ≠ [] ∧ hasNul [name "b"] = false := by decide
  obtain ⟨files, j'', hrun', -, hsame⟩ := hrestore ⟨[name "b"], 1000, 1000, true⟩ [name "b"] _
    (holdsFile_afterSave saveGz) hroot hreal
  refine ⟨res, j', hrun, hfile, files, j'', ?_, hsame⟩
  with_reducible exact hrun'

end Backups
