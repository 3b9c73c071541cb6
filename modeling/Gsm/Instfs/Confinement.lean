import Gsm.Instfs.Archive

/-!
# Where the file manager's operations stay

`Resolve` checks where a request path leads, and most operations act there: on a node that is not a
link, or below the deepest directory there is. The exceptions act on the node the path names, in the
directory its last link lies in, which `Resolve` has not looked at. Each theorem says for one
operation when it keeps to the instance's directory.
-/

open Posix GoStd

namespace Instfs

variable {f : FS} {t : Tree Name Str} {j j' : Journal Name Str} {R D l : Loc Name} {p abs : Path}
  {n m : Name} {γ δ : Type}

/-! ## Programs that change no shape -/

/-- The program changes nodes at or below `R` only, and nothing that lookup sees. -/
structure Keeps (R : Loc Name) (m : Prog γ) (j : Journal Name Str) : Prop where
  stays : m.StaysIn Act.changes R j
  look : (m.run j).2.tree.look = j.tree.look

theorem Keeps.of_readsOnly {m : Prog γ} (h : m.ReadsOnly) : Keeps R m j :=
  ⟨(h j).stays, congrArg Tree.look (h j).tree⟩

theorem Keeps.attempt {m : Prog γ} (h : Keeps R m j) : Keeps R m.attempt j := ⟨h.stays, h.look⟩

theorem Keeps.bind {m : Prog γ} {k : γ → Prog δ} (h : Keeps R m j)
    (hk : ∀ a j', m.run j = (.ok a, j') → Keeps R (k a) j') : Keeps R (m >>= k) j := by
  refine ⟨Sys.staysIn_bind.mpr ⟨h.stays, fun a j' hrun => (hk a j' hrun).stays⟩, ?_⟩
  have hlook := h.look
  rw [Sys.run_bind]
  rcases hrun : m.run j with ⟨e | a, j'⟩ <;> rw [hrun] at hlook
  · exact hlook
  · exact (hk a j' hrun).look.trans hlook

theorem Keeps.errsOrStays {m : Prog γ} (h : Keeps R m (.of t)) : m.ErrsOrStays R t := by
  refine Sys.errsOrStays_iff.mpr fun a j' hrun => ?_
  have hstays := h.stays
  rwa [Sys.StaysIn, hrun] at hstays

theorem keeps_touch (lookup : Tree Name Str → Walk Name) {act : Act} {hact : act.changes}
    {g : Node Name Str → Node Name Str} {hg : ∀ nd, (g nd).shape = nd.shape}
    (h : ∀ l, lookup j.tree = .found l → R <+: l) :
    Keeps R (Sys.touch lookup act hact g hg : Prog Unit) j :=
  ⟨(Sys.staysIn_touch lookup).mpr fun _ => h, Sys.look_touch lookup j⟩

/-! ## Temporary files -/

/-- What fills a temporary file touches nothing else. -/
def Fills (fill : Loc Name → Prog γ) : Prop := ∀ fd R j, R <+: fd → Keeps R (fill fd) j

/-- A file `m` in the directory `D` that `p` leads to. -/
structure Beside (t : Tree Name Str) (p : Path) (D : Loc Name) (m : Name) : Prop where
  dir : t.DirAt p D
  file : t.look (D ++ [m]) = some .leaf

theorem Beside.congr {t' : Tree Name Str} (h : Beside t p D m) (hl : t.look = t'.look) :
    Beside t' p D m := ⟨h.dir.congr hl, hl ▸ h.file⟩

theorem Beside.lstat (h : Beside t p D m) : t.lstat (p ++ [m]) = .found (D ++ [m]) :=
  Tree.lstat_concat_eq_found.mpr ⟨D, h.dir, rfl, by simp [h.file]⟩

theorem Beside.stat (h : Beside t p D m) : t.stat (p ++ [m]) = .found (D ++ [m]) :=
  Tree.stat_of_lstat h.lstat (by simp [h.file])

theorem Beside.create (h : t.DirAt p D) (hm : t.look (D ++ [m]) = none) {data : Str} {mode : ℕ} :
    Beside (t.create D m ⟨.file data, mode, 0, 0⟩) p D m := by
  have hnew (x : Loc Name) := Tree.look_create (⟨.file data, mode, 0, 0⟩ : Node Name Str) h.2
    (Tree.look_eq_none.mp hm) x
  refine ⟨h.mono fun x s hx => ?_, by rw [hnew, if_pos rfl]; rfl⟩
  rw [hnew, if_neg, hx]
  rintro rfl
  rw [hm] at hx
  cases hx

/-- The place a rename from beside to `p ++ [n]` puts the file. -/
theorem place_beside (h : t.DirAt p D) : (t.lstat (p ++ [n])).place = .ok (D ++ [n]) := by
  rw [h.lstat_concat]
  split <;> rfl

/-- After the rename the directory's path leads to the same directory or to none. -/
theorem rename_beside_dir (h : Beside j.tree p D m)
    (hrun : (Sys.rename (p ++ [m]) (p ++ [n]) : Prog Unit).run j = (.ok (), j')) {D' : Loc Name}
    (hD' : j'.tree.DirAt p D') : D' = D := by
  obtain ⟨s, nd, x, hs, -, hx, hend⟩ := Sys.run_rename_eq_ok.mp hrun
  cases h.lstat.symm.trans hs
  cases (place_beside h.dir).symm.trans hx
  rcases hend with ⟨-, rfl⟩ | ⟨hne, -, d, n', hdn, rfl⟩
  · exact hD'.unique h.dir
  · obtain ⟨rfl, hn⟩ := List.append_inj' hdn rfl
    cases hn
    have hpre : ¬ D ++ [n] <+: D ++ [m] := fun hpre =>
      hne (hpre.eq_of_length (by simp) ▸ List.prefix_rfl)
    exact (hD'.thin fun x s hx hsh => Journal.look_replace_file h.file hpre hx hsh).unique h.dir

theorem rename_beside_stays (h : Beside j.tree p D m) (hin : R <+: D)
    (hrun : (Sys.rename (p ++ [m]) (p ++ [n]) : Prog Unit).run j = (.ok (), j')) :
    j.Stays Act.changes R j' := by
  obtain ⟨s, nd, x, hs, -, hx, hend⟩ := Sys.run_rename_eq_ok.mp hrun
  cases h.lstat.symm.trans hs
  cases (place_beside h.dir).symm.trans hx
  rcases hend with ⟨-, rfl⟩ | ⟨-, -, d, n', hdn, rfl⟩
  · rfl
  · refine Journal.Stays.of_log (Journal.log_replace ..) ?_
    rw [← hdn]
    simp [hin.trans (List.prefix_append _ _)]

/-- Filling a temporary file in a directory inside and renaming it stays inside. -/
theorem fillTemp_stays {mode : ℕ} {fill : Loc Name → Prog γ} {done : γ → Prog δ} {b : δ}
    (hfill : Fills fill) (hdone : ∀ a, (done a).ReadsOnly) (h₁ : Beside j.tree p D m)
    (hin : R <+: D)
    (hrun : (f.fillTemp (p ++ [m]) (D ++ [m]) (p ++ [n]) mode fill done).run j = (.ok b, j')) :
    j.Stays Act.changes R j' := by
  have hR : R <+: D ++ [m] := hin.trans (List.prefix_append _ _)
  obtain ⟨j₅, hbody, rfl⟩ := Sys.run_deferring_eq_ok.mp hrun
  obtain ⟨a, j₂, hfillrun, hbody₂⟩ := Sys.run_bind_eq_ok.mp hbody
  obtain ⟨hfilled, hlook⟩ := hfill (D ++ [m]) R j hR
  rw [Sys.StaysIn, hfillrun] at hfilled
  rw [hfillrun] at hlook
  have h₂ : Beside j₂.tree p D m := h₁.congr hlook.symm
  obtain ⟨_, j₃, hchmod, hbody₃⟩ := Sys.run_bind_eq_ok.mp hbody₂
  have hj₃ : j₃ = ((Sys.chmod (p ++ [m]) mode : Prog Unit).run j₂).2 := (Prod.mk.inj hchmod).2.symm
  obtain ⟨hchmoded, hlook₃⟩ : Keeps R (Sys.chmod (p ++ [m]) mode : Prog Unit) j₂ :=
    keeps_touch (·.stat (p ++ [m])) fun l hl => by
      cases h₂.stat.symm.trans hl
      exact hR
  rw [Sys.StaysIn, ← hj₃] at hchmoded
  rw [← hj₃] at hlook₃
  have h₃ : Beside j₃.tree p D m := h₂.congr hlook₃.symm
  obtain ⟨_, j₄, hgive, hbody₄⟩ := Sys.run_bind_eq_ok.mp hbody₃
  rw [run_giveAway h₃.lstat] at hgive
  cases hgive
  have hgiven : j₃.Stays Act.changes R (j₃.give f.own (D ++ [m])) :=
    Journal.stays_give.mpr fun _ _ => hR
  have h₄ : Beside (j₃.give f.own (D ++ [m])).tree p D m := h₃.congr Journal.look_give.symm
  obtain ⟨_, j₄', hrename, hbody₅⟩ := Sys.run_bind_eq_ok.mp hbody₄
  have hrenamed := rename_beside_stays h₄ hin hrename
  have hquiet := (hdone a).run hbody₅
  have hunlinked : j₅.Stays Act.changes R ((Sys.unlink (p ++ [m]) : Prog Unit).run j₅).2 :=
    Sys.staysIn_unlink fun _ l hl => by
      obtain ⟨D', hD', rfl, -⟩ := Tree.lstat_concat_eq_found.mp hl
      rw [hquiet.tree] at hD'
      rw [rename_beside_dir h₄ hrename hD']
      exact hR
  exact hfilled.trans <| hchmoded.trans <| hgiven.trans <| hrenamed.trans <|
    hquiet.stays.trans hunlinked

/-- What goes through a temporary file stays inside when its directory does. -/
theorem throughTemp_stays {temps : List Name} {mode : ℕ} {fill : Loc Name → Prog γ}
    {done : γ → Prog δ} {b : δ} (hfill : Fills fill) (hdone : ∀ a, (done a).ReadsOnly)
    (hin : ∀ D, j.tree.DirAt p D → R <+: D)
    (hrun : (f.throughTemp temps (p ++ [n]) mode fill done).run j = (.ok b, j')) :
    j.Stays Act.changes R j' := by
  rw [FS.throughTemp, List.dropLast_concat] at hrun
  obtain ⟨⟨tmp, fd⟩, j₁, htemp, hrest⟩ := Sys.run_bind_eq_ok.mp hrun
  obtain ⟨D, m, hD, -, hm, rfl, rfl, rfl⟩ := createTemp_eq_ok htemp
  have hcreated : j.Stays Act.changes R (j.create D m ⟨.file ∅, 0o600, 0, 0⟩) :=
    Journal.stays_create.mpr fun _ => (hin D hD).trans (List.prefix_append _ _)
  exact hcreated.trans (fillTemp_stays hfill hdone (Beside.create hD hm) (hin D hD) hrest)

/-! ## Missing directories -/

/-- Where a path accepted by `Resolve` names nothing, its missing directories are made inside, and
what they are made for has its place inside. -/
theorem mkdirAllOwned_stays (hg : Guarded j.tree R (p ++ [n]))
    (hfree : ∀ l, j.tree.lstat (p ++ [n]) ≠ .found l)
    (hrun : (f.mkdirAllOwned p).run j = (.ok (), j')) (hD : j'.tree.DirAt p D) :
    j.Stays Act.changes R j' ∧ R <+: D ∧ j'.tree.look (D ++ [n]) = none := by
  rcases mkdirAllOwned_cases f j p with ⟨l, hl⟩ | ⟨q, c, rest, d, rfl, hq, hc⟩ |
    ⟨q, c, rest, d, rfl, hq, hc, hno⟩ | ⟨e, he⟩
  · rw [mkdirAllOwned_present hl] at hrun
    cases hrun
    have hn : j.tree.look (D ++ [n]) = none := by
      by_contra hn
      exact hfree _ (Tree.lstat_concat_eq_found.mpr ⟨D, hD, rfl, hn⟩)
    exact ⟨.refl j, hg.missing hD hn, hn⟩
  · rw [mkdirAllOwned_missing hq hc] at hrun
    cases hrun
    have hin : R <+: d ++ [c] := by
      rw [List.append_assoc, List.cons_append] at hg
      exact (hg.missing hq hc).trans (List.prefix_append _ _)
    obtain rfl := hD.unique (Journal.dirAt_makeDirs f.own 0o755 hq hc rest)
    refine ⟨(Journal.stays_makeDirs rest).mpr ⟨fun _ => hin, fun _ _ => hin⟩,
      hin.trans (by simp), ?_⟩
    exact Tree.look_eq_none.mpr
      (Journal.node_below_makeDirs f.own 0o755 hq.2 hc rest (y := [n]) (by simp))
  · cases rest with
    | nil =>
      rw [mkdirAllOwned_blocked hq hc hno] at hrun
      cases hrun
      exact absurd (Journal.stat_give.symm.trans hD.1) (hno D)
    | cons b rest =>
      obtain ⟨e, he⟩ := mkdirAllOwned_blocked_cons (f := f) hq hc hno b rest
      rw [he] at hrun
      cases hrun
  · rw [he] at hrun
    cases hrun

/-- The same for `os.MkdirAll`. -/
theorem mkdirAll_stays {mode : ℕ} (hg : Guarded j.tree R (p ++ [n]))
    (hfree : ∀ l, j.tree.lstat (p ++ [n]) ≠ .found l)
    (hrun : (mkdirAll p mode : Prog Unit).run j = (.ok (), j')) (hD : j'.tree.DirAt p D) :
    j.Stays Act.changes R j' ∧ R <+: D := by
  rcases mkdirAll_cases (μ := FsError) j p mode with ⟨l, hl⟩ | ⟨q, c, rest, d, rfl, hq, hc⟩ | ⟨e, he⟩
  · rw [mkdirAll_present hl] at hrun
    cases hrun
    refine ⟨.refl j, hg.missing (c := n) hD ?_⟩
    by_contra hn
    exact hfree _ (Tree.lstat_concat_eq_found.mpr ⟨D, hD, rfl, hn⟩)
  · rw [mkdirAll_missing hq hc] at hrun
    cases hrun
    have hin : R <+: d ++ [c] := by
      rw [List.append_assoc, List.cons_append] at hg
      exact (hg.missing hq hc).trans (List.prefix_append _ _)
    obtain rfl := hD.unique (Journal.dirAt_makeDirs none mode hq hc rest)
    exact ⟨(Journal.stays_makeDirs rest).mpr ⟨fun _ => hin, fun _ _ => hin⟩, hin.trans (by simp)⟩
  · rw [he] at hrun
    cases hrun

/-! ## Reading -/

variable {rel : Str} {c : Path}

theorem run_resolve_eq_ok : (f.resolve rel).run j = (.ok (abs, c), j') ↔
    resolve j.tree f rel = .ok (abs, c) ∧ j' = j := by
  rw [FS.resolve, Sys.run_look, Prod.mk.injEq, eq_comm (a := j)]

theorem resolve_guarded (hR : evalSymlinks t f.root = .ok R)
    (h : resolve t f rel = .ok (abs, c)) : Guarded t R abs := by
  obtain ⟨R', hR', -, -, hg⟩ := resolve_ok h
  cases hR.symm.trans hR'
  exact hg

theorem readsOnly_orMissing (r : Except Refusal γ) : (orMissing c r).ReadsOnly := by
  unfold orMissing
  split
  · exact Sys.readsOnly_pure _
  · exact Sys.readsOnly_throw _
  · exact Sys.readsOnly_throw _

theorem staysIn_orMissing {acts : Act → Prop} (r : Except Refusal γ) :
    (orMissing c r).StaysIn acts R j := by
  unfold orMissing
  split <;> simp

theorem staysIn_stat {acts : Act → Prop} : (Sys.stat p : Prog _).StaysIn acts R j :=
  Sys.staysIn_existing.mpr fun _ _ => Sys.staysIn_look _

theorem staysIn_lstat {acts : Act → Prop} : (Sys.lstat p : Prog _).StaysIn acts R j :=
  Sys.staysIn_existing.mpr fun _ _ => Sys.staysIn_look _

theorem staysIn_entryOf {acts : Act → Prop} {info : Node Name Str} :
    (entryOf p info).StaysIn acts R j := by
  refine Sys.staysIn_bind.mpr ⟨?_, fun _ _ _ => Sys.staysIn_pure _⟩
  unfold targetOf
  split
  · refine Sys.staysIn_bind.mpr ⟨staysIn_stat, fun r j' _ => ?_⟩
    split <;> simp
  · exact Sys.staysIn_pure _

/-- `Stat` opens nothing. -/
theorem stat_stays : (f.stat rel).StaysIn (fun _ => True) R j := by
  refine Sys.staysIn_bind.mpr ⟨Sys.staysIn_look _, fun x j' _ => ?_⟩
  refine Sys.staysIn_bind.mpr ⟨staysIn_lstat, fun r j' _ => ?_⟩
  refine Sys.staysIn_bind.mpr ⟨staysIn_orMissing r, fun info j' _ => ?_⟩
  exact Sys.staysIn_bind.mpr ⟨staysIn_entryOf, fun _ _ _ => Sys.staysIn_pure _⟩

theorem staysIn_readFile (lib : Lib) (maxBytes : ℕ) {info : Node Name Str}
    (h : ∀ l, j.tree.stat abs = .found l → R <+: l) :
    (readFile lib maxBytes abs c info).StaysIn (fun _ => True) R j := by
  unfold readFile
  split
  · exact Sys.staysIn_pure _
  · refine Sys.staysIn_bind.mpr ⟨Sys.staysIn_readAll.mpr fun _ => h, fun data j' _ => ?_⟩
    simp only
    split <;> simp

/-- What `Read` opens is inside. -/
theorem read_stays (lib : Lib) (maxBytes : ℕ) (hR : evalSymlinks t f.root = .ok R) :
    (f.read lib rel maxBytes).StaysIn (fun _ => True) R (.of t) := by
  refine Sys.staysIn_bind.mpr ⟨Sys.staysIn_look _, ?_⟩
  rintro ⟨abs, c⟩ j₁ hrun
  obtain ⟨hres, rfl⟩ := run_resolve_eq_ok.mp hrun
  refine Sys.staysIn_bind.mpr ⟨staysIn_stat, fun r j₂ hstat => ?_⟩
  have hquiet := (Sys.readsOnly_stat (μ := FsError) abs).attempt.run hstat
  refine Sys.staysIn_bind.mpr ⟨staysIn_orMissing r, fun info j₃ hinfo => ?_⟩
  have hquiet := hquiet.trans ((readsOnly_orMissing r).run hinfo)
  split
  · exact Sys.staysIn_throw _
  · refine staysIn_readFile lib maxBytes fun l hl => ?_
    rw [hquiet.tree] at hl
    exact (resolve_guarded hR hres).stat hl

theorem run_readFile_content {lib : Lib} {maxBytes : ℕ} {info : Node Name Str} {r : FileReadResult}
    {s : Str} (h : (readFile lib maxBytes abs c info).run j = (.ok r, j'))
    (hs : r.content = some s) :
    ∃ l, j.tree.stat abs = .found l ∧ (j.tree.node l).map Node.kind = some (.file s) := by
  unfold readFile at h
  split at h
  · cases h
    cases hs
  · obtain ⟨data, j₁, hread, h⟩ := Sys.run_bind_eq_ok.mp h
    simp only at h
    split at h
    · cases h
      cases hs
    · cases h
      cases hs
      exact Sys.run_readAll_eq_ok hread

/-- The text `Read` returns is that of a file inside. -/
theorem read_content {lib : Lib} {maxBytes : ℕ} {r : FileReadResult} {s : Str}
    (hR : evalSymlinks t f.root = .ok R)
    (h : (f.read lib rel maxBytes).run (.of t) = (.ok r, j')) (hs : r.content = some s) :
    ∃ l, R <+: l ∧ (t.node l).map Node.kind = some (.file s) := by
  obtain ⟨⟨abs, c⟩, j₁, hrun, h⟩ := Sys.run_bind_eq_ok.mp h
  obtain ⟨hres, rfl⟩ := run_resolve_eq_ok.mp hrun
  obtain ⟨r, j₂, hstat, h⟩ := Sys.run_bind_eq_ok.mp h
  have hquiet := (Sys.readsOnly_stat (μ := FsError) abs).attempt.run hstat
  obtain ⟨info, j₃, hinfo, h⟩ := Sys.run_bind_eq_ok.mp h
  have hquiet := hquiet.trans ((readsOnly_orMissing r).run hinfo)
  split at h
  · cases h
  · obtain ⟨l, hl, hfile⟩ := run_readFile_content h hs
    rw [hquiet.tree] at hl hfile
    exact ⟨l, (resolve_guarded hR hres).stat hl, hfile⟩

/-! ## Operations that always stay inside -/

/-- `Write` goes on where the path names a regular file or nothing. -/
theorem run_checkWrite_eq_ok {lib : Lib} {sha : Option Str} {create : Bool} {mode : ℕ}
    (h : (checkWrite lib abs c sha create).run j = (.ok mode, j')) :
    j.Quiet j' ∧ ((∃ l, j.tree.lstat abs = .found l ∧ j.tree.look l = some .leaf) ∨
      ∀ l, j.tree.lstat abs ≠ .found l) := by
  rw [checkWrite, Sys.run_bind, Sys.run_attempt] at h
  by_cases hs : ∃ l, j.tree.lstat abs = .found l
  · obtain ⟨l, hs⟩ := hs
    obtain ⟨sh, hl⟩ := Tree.lstat_found hs
    obtain ⟨nd, hn, -⟩ := Option.map_eq_some_iff.mp hl
    rw [Sys.run_lstat_found hs hn] at h
    simp only at h
    split at h
    · cases h
    · split at h
      · cases h
      · next hkind =>
        have hleaf : j.tree.look l = some .leaf := by
          rw [Tree.look, hn, Option.map_some, Node.shape]
          cases hk : nd.kind with
          | file _ => rfl
          | dir => simp [kindOf, hk] at hkind
          | link _ => simp [kindOf, hk] at hkind
          | special => simp [kindOf, hk] at hkind
        refine ⟨?_, .inl ⟨l, hs, hleaf⟩⟩
        split at h
        · cases h
          exact .refl j
        · obtain ⟨data, j₁, hread, h⟩ := Sys.run_bind_eq_ok.mp h
          have hquiet := (Sys.readsOnly_readAll abs).run hread
          split at h
          · cases h
            exact hquiet
          · cases h
  · push Not at hs
    obtain ⟨e, he⟩ := Sys.run_lstat_not_found (μ := FsError) hs
    rw [he] at h
    cases e <;> simp only at h <;> first | cases h | skip
    split at h
    · cases h
      exact ⟨.refl j, .inr hs⟩
    · cases h

theorem fills_write (data : Str) : Fills fun fd => (Sys.write fd data : Prog Unit) :=
  fun _ _ _ hin => ⟨(Sys.staysIn_alter ..).mpr fun _ => hin,
    Tree.look_alter _ _ _ (Node.shape_setData data)⟩

/-- What lies inside and is not a directory has its directory inside. -/
theorem parent_inside (hdir : t.look R = some .dir) (hin : R <+: D ++ [n])
    (hn : t.look (D ++ [n]) ≠ some .dir) : R <+: D := by
  rcases List.prefix_concat_iff.mp hin with rfl | hin
  · exact absurd hdir hn
  · exact hin

/-- What goes through a temporary file has found a directory, a free name and been filled in. -/
theorem throughTemp_dir {temps : List Name} {mode : ℕ} {fill : Loc Name → Prog γ}
    {done : γ → Prog δ} {b : δ}
    (hrun : (f.throughTemp temps (p ++ [n]) mode fill done).run j = (.ok b, j')) :
    ∃ D, j.tree.DirAt p D ∧ (∃ m ∈ temps, j.tree.look (D ++ [m]) = none) ∧
      ∃ fd j₁ a j₂, (fill fd).run j₁ = (.ok a, j₂) := by
  rw [FS.throughTemp, List.dropLast_concat] at hrun
  obtain ⟨⟨tmp, fd⟩, j₁, htemp, hrest⟩ := Sys.run_bind_eq_ok.mp hrun
  obtain ⟨D, m, hD, hm, hfree, -⟩ := createTemp_eq_ok htemp
  obtain ⟨j₅, hbody, -⟩ := Sys.run_deferring_eq_ok.mp hrest
  obtain ⟨a, j₂, hfill, -⟩ := Sys.run_bind_eq_ok.mp hbody
  exact ⟨D, hD, ⟨m, hm, hfree⟩, fd, j₁, a, j₂, hfill⟩

/-- `Write` changes what the path names or makes it in a directory inside. -/
theorem write_errsOrStays (lib : Lib) (temps : List Name) (content : Str) (sha : Option Str)
    (create : Bool) (hR : evalSymlinks t f.root = .ok R) (hdir : t.look R = some .dir) :
    (f.write lib temps rel content sha create).ErrsOrStays R t := by
  refine Sys.errsOrStays_iff.mpr fun r j' h => ?_
  obtain ⟨⟨abs, c⟩, j₁, hrun, h⟩ := Sys.run_bind_eq_ok.mp h
  obtain ⟨hres, rfl⟩ := run_resolve_eq_ok.mp hrun
  have hg := resolve_guarded hR hres
  obtain ⟨mode, j₂, hcheck, h⟩ := Sys.run_bind_eq_ok.mp h
  obtain ⟨hquiet, hnamed⟩ := run_checkWrite_eq_ok hcheck
  obtain ⟨_, j₃, hmk, h⟩ := Sys.run_bind_eq_ok.mp h
  obtain ⟨p, n, rfl⟩ : ∃ p n, abs = p ++ [n] := by
    rcases List.eq_nil_or_concat abs with rfl | ⟨p, n, rfl⟩
    · rcases hnamed with ⟨l, hl, hleaf⟩ | hno
      · cases Tree.lstat_root.symm.trans hl
        cases (Tree.look_root _).symm.trans hleaf
      · exact absurd Tree.lstat_root (hno [])
    · exact ⟨p, n, by simp⟩
  rw [List.dropLast_concat] at hmk
  have hdone (a : Unit) : (do
      let st ← Sys.stat (p ++ [n])
      pure ⟨c, sizeOf st, lib.sha256Hex content⟩ : Prog FileWriteResult).ReadsOnly :=
    (Sys.readsOnly_stat _).bind fun _ => Sys.readsOnly_pure _
  refine hquiet.stays.trans ?_
  have htree : j₂.tree = t := hquiet.tree
  rw [Journal.of_tree, ← htree] at hnamed
  rw [← htree] at hg hdir
  rcases hnamed with ⟨l, hl, hleaf⟩ | hno
  · obtain ⟨D, hD, rfl, -⟩ := Tree.lstat_concat_eq_found.mp hl
    have hin := parent_inside hdir (hg.lstat hl (by simp [hleaf])) (by simp [hleaf])
    rw [mkdirAll_present hD] at hmk
    cases hmk
    exact throughTemp_stays (fills_write content) hdone (fun D' hD' => hD.unique hD' ▸ hin) h
  · obtain ⟨D, hD, -⟩ := throughTemp_dir h
    obtain ⟨hstays, hin⟩ := mkdirAll_stays hg hno hmk hD
    exact hstays.trans
      (throughTemp_stays (fills_write content) hdone (fun D' hD' => hD.unique hD' ▸ hin) h)

/-- `Chmod` passes over links; what it changes is what a path names. -/
theorem keeps_applyMode {mode : ℕ} {info : Node Name Str} (hl : j.tree.lstat p = .found l)
    (hn : j.tree.node l = some info)
    (hin : (∀ g, j.tree.look l ≠ some (.link g)) → R <+: l) : Keeps R (applyMode mode p info) j := by
  unfold applyMode
  split
  · exact .of_readsOnly (Sys.readsOnly_pure _)
  · next hkind =>
    have hlink (g : Target Name) : j.tree.look l ≠ some (.link g) := by
      rw [Tree.look, hn, Option.map_some, Node.shape]
      match hk : info.kind with
      | .link _ => exact absurd hk (hkind _)
      | .dir => simp [Kind.shape]
      | .file _ => simp [Kind.shape]
      | .special => simp [Kind.shape]
    have hstat := Tree.stat_of_lstat hl hlink
    have hchmod : Keeps R (Sys.chmod p (perm mode) : Prog Unit) j :=
      keeps_touch (·.stat p) fun l' hl' => by
        cases hstat.symm.trans hl'
        exact hin hlink
    refine hchmod.attempt.bind fun r j' _ => ?_
    split <;> exact .of_readsOnly (Sys.readsOnly_pure _)

/-- What a path names, followed unless it is a link, lies inside. -/
def NamesInside (t : Tree Name Str) (R : Loc Name) (p : Path) : Prop :=
  ∀ l, t.lstat p = .found l → (∀ g, t.look l ≠ some (.link g)) → R <+: l

theorem NamesInside.congr {t' : Tree Name Str} (h : NamesInside t R p) (hl : t'.look = t.look) :
    NamesInside t' R p := fun l hs hg =>
  h l (by rwa [← Tree.lstat_congr hl]) (by rwa [hl] at hg)

/-- A call on what `lstat` gave. -/
theorem Keeps.lstat_bind {k : Except Refusal (Node Name Str) → Prog γ}
    (hok : ∀ l info, j.tree.lstat p = .found l → j.tree.node l = some info →
      Keeps R (k (.ok info)) j)
    (herr : ∀ e, (∀ l, j.tree.lstat p ≠ .found l) → Keeps R (k (.error (.errno e))) j) :
    Keeps R ((Sys.lstat p).attempt >>= k) j := by
  refine (Keeps.of_readsOnly (Sys.readsOnly_lstat p)).attempt.bind fun r j' hrun => ?_
  by_cases hs : ∃ l, j.tree.lstat p = .found l
  · obtain ⟨l, hs⟩ := hs
    obtain ⟨s, hl⟩ := Tree.lstat_found hs
    obtain ⟨info, hn, -⟩ := Option.map_eq_some_iff.mp hl
    rw [Sys.run_attempt, Sys.run_lstat_found hs hn] at hrun
    cases hrun
    exact hok l info hs hn
  · push Not at hs
    obtain ⟨e, he⟩ := Sys.run_lstat_not_found (μ := FsError) hs
    rw [Sys.run_attempt, he] at hrun
    cases hrun
    exact herr e hs

theorem keeps_applyEntry {mode : ℕ} (h : NamesInside j.tree R p) :
    Keeps R (applyEntry mode p) j :=
  Keeps.lstat_bind (fun _ _ hl hn => keeps_applyMode hl hn (h _ hl))
    fun _ _ => .of_readsOnly (Sys.readsOnly_pure _)

theorem keeps_applyBelow {mode : ℕ} {rels : List Path}
    (h : ∀ rel ∈ rels, NamesInside j.tree R (abs ++ rel)) :
    Keeps R (applyBelow mode abs rels) j := by
  induction rels generalizing j with
  | nil => exact .of_readsOnly (Sys.readsOnly_pure _)
  | cons rel more ih =>
    have hentry : Keeps R (applyEntry mode (abs ++ rel)) j :=
      keeps_applyEntry (h rel List.mem_cons_self)
    refine hentry.bind fun n j' hrun => ?_
    have hlook := hentry.look
    rw [hrun] at hlook
    have hmore : Keeps R (applyBelow mode abs more) j' :=
      ih fun r hr => (h r (List.mem_cons_of_mem _ hr)).congr hlook
    exact hmore.bind fun _ _ _ => .of_readsOnly (Sys.readsOnly_pure _)

/-- Everything in a directory inside is inside. -/
theorem keeps_applyTree {mode : ℕ} {recursive : Bool} {info : Node Name Str}
    (hl : j.tree.lstat abs = .found l) (hn : j.tree.node l = some info)
    (hin : (∀ g, j.tree.look l ≠ some (.link g)) → R <+: l) :
    Keeps R (applyTree mode recursive abs info) j := by
  have hmode : Keeps R (applyMode mode abs info) j := keeps_applyMode hl hn hin
  refine hmode.bind fun n j₁ hrun => ?_
  have hlook : j₁.tree.look = j.tree.look := by
    have := hmode.look
    rwa [hrun] at this
  split
  · next hrec =>
    have hdir : j₁.tree.look l = some .dir := by
      rw [hlook, Tree.look, hn, Option.map_some, Node.shape]
      match hk : info.kind with
      | .dir => rfl
      | .file _ => simp [kindOf, hk] at hrec
      | .link _ => simp [kindOf, hk] at hrec
      | .special => simp [kindOf, hk] at hrec
    have hl₁ : j₁.tree.lstat abs = .found l := (Tree.lstat_congr hlook).trans hl
    have hat : j₁.tree.DirAt abs l := ⟨Tree.stat_of_lstat hl₁ (by simp [hdir]), hdir⟩
    refine (Keeps.of_readsOnly (Sys.readsOnly_look _)).bind fun rels j₂ hwalk => ?_
    rw [Sys.run_look, hl₁] at hwalk
    cases hwalk
    have hbelow : Keeps R (applyBelow mode abs (j₁.tree.below l)) j₁ := by
      refine keeps_applyBelow fun rel hrel x hx _ => ?_
      obtain ⟨hne, hnode⟩ := Tree.mem_below hrel
      cases (hat.lstat_below hne hnode).symm.trans hx
      exact (hin (by simp [← hlook, hdir])).trans (List.prefix_append _ _)
    exact hbelow.bind fun _ _ _ => .of_readsOnly (Sys.readsOnly_pure _)
  · exact .of_readsOnly (Sys.readsOnly_pure _)

/-- `Chmod` changes nodes inside only. -/
theorem keeps_chmodAll {mode : ℕ} {recursive : Bool} {paths : List Str}
    (hR : evalSymlinks j.tree f.root = .ok R) : Keeps R (f.chmodAll mode recursive paths) j := by
  induction paths generalizing j with
  | nil => exact .of_readsOnly (Sys.readsOnly_pure _)
  | cons p paths ih =>
    refine (Keeps.of_readsOnly (Sys.readsOnly_look _)).bind ?_
    rintro ⟨abs, c⟩ j₁ hrun
    obtain ⟨hres, rfl⟩ := run_resolve_eq_ok.mp hrun
    refine Keeps.lstat_bind (fun l info hl hn => ?_)
      fun _ _ => .of_readsOnly (Sys.readsOnly_throw _)
    have htree : Keeps R (applyTree mode recursive abs info) j₁ :=
      keeps_applyTree hl hn fun hg => (resolve_guarded hR hres).lstat hl hg
    refine htree.bind fun n j₂ hrun => ?_
    have hlook := htree.look
    rw [hrun] at hlook
    have hmore : Keeps R (f.chmodAll mode recursive paths) j₂ :=
      ih ((evalSymlinks_congr hlook _).trans hR)
    exact hmore.bind fun _ _ _ => .of_readsOnly (Sys.readsOnly_pure _)

/-! ## Archives -/

theorem readsOnly_packOne {name cur : Path} {info : Node Name Str} {w : Walked} :
    (packOne name cur info w).ReadsOnly := by
  unfold packOne
  split
  · exact Sys.readsOnly_pure _
  · split
    · exact Sys.readsOnly_pure _
    · exact (Sys.readsOnly_readAll _).bind fun _ => Sys.readsOnly_pure _

theorem readsOnly_packBelow {ctx : Context} {base : Path} {skip : Option Path} {rels : List Path}
    {w : Walked} : (packBelow ctx base abs skip rels w).ReadsOnly := by
  induction rels generalizing w with
  | nil => exact Sys.readsOnly_pure _
  | cons rel more ih =>
    rw [packBelow]
    split
    · exact Sys.readsOnly_throw _
    · simp only
      split
      · exact ih
      · refine (Sys.readsOnly_lstat _).attempt.bind fun r => ?_
        split
        · exact ih
        · split
          · exact readsOnly_packOne.bind fun _ => ih
          · exact ih

theorem readsOnly_archiveEntries {ctx : Context} {skip : Option Path} {paths : List Str}
    {w : Walked} : (f.archiveEntries ctx skip paths w).ReadsOnly := by
  induction paths generalizing w with
  | nil => exact Sys.readsOnly_pure _
  | cons p paths ih =>
    refine (Sys.readsOnly_look _).bind fun x => ?_
    refine (Sys.readsOnly_lstat _).attempt.bind fun r => ?_
    split
    · exact Sys.readsOnly_throw _
    · split
      · exact (Sys.readsOnly_look _).bind fun _ => readsOnly_packBelow.bind fun _ => ih
      · split
        · exact readsOnly_packOne.bind fun _ => ih
        · exact ih

theorem fills_writeArchive {fmts : Formats} {ctx : Context} {zip : Bool} {paths : List Str}
    {skip : Option Path} : Fills (f.writeArchive fmts ctx zip paths skip) := by
  intro fd R j hin
  refine (Keeps.of_readsOnly readsOnly_archiveEntries).bind fun w j' _ => ?_
  split
  · exact .of_readsOnly (Sys.readsOnly_throw _)
  · next bytes _ =>
    exact (fills_write bytes fd R j' hin).bind fun _ _ _ => .of_readsOnly (Sys.readsOnly_pure _)

/-- `Compress` makes its archive in a directory inside. -/
theorem compress_errsOrStays (lib : Lib) (fmts : Formats) (ctx : Context) (temps : List Name)
    (paths : List Str) (dest : Str) (hR : evalSymlinks t f.root = .ok R) :
    (f.compress lib fmts ctx temps paths dest).ErrsOrStays R t := by
  refine Sys.errsOrStays_iff.mpr fun r j' h => ?_
  obtain ⟨⟨abs, c⟩, j₁, hrun, h⟩ := Sys.run_bind_eq_ok.mp h
  obtain ⟨hres, rfl⟩ := run_resolve_eq_ok.mp hrun
  have hg := resolve_guarded hR hres
  obtain ⟨info, j₂, hlstat, h⟩ := Sys.run_bind_eq_ok.mp h
  by_cases hs : ∃ l, t.lstat abs = .found l
  · obtain ⟨l, hs⟩ := hs
    obtain ⟨s, hl⟩ := Tree.lstat_found hs
    obtain ⟨nd, hn, -⟩ := Option.map_eq_some_iff.mp hl
    rw [Sys.run_attempt, Sys.run_lstat_found hs hn] at hlstat
    cases hlstat
    cases h
  · push Not at hs
    obtain ⟨e, he⟩ := Sys.run_lstat_not_found (μ := FsError) (j := .of t) hs
    rw [Sys.run_attempt, he] at hlstat
    cases hlstat
    obtain ⟨p, n, rfl⟩ : ∃ p n, abs = p ++ [n] := by
      rcases List.eq_nil_or_concat abs with rfl | ⟨p, n, rfl⟩
      · exact absurd Tree.lstat_root (hs [])
      · exact ⟨p, n, by simp⟩
    simp only [List.dropLast_concat] at h
    split at h
    · cases h
    · obtain ⟨_, j₃, hmk, h⟩ := Sys.run_bind_eq_ok.mp h
      obtain ⟨D, hD, -⟩ := throughTemp_dir h
      obtain ⟨hstays, hin, -⟩ := mkdirAllOwned_stays hg hs hmk hD
      exact hstays.trans (throughTemp_stays fills_writeArchive (fun _ => Sys.readsOnly_pure _)
        (fun D' hD' => hD.unique hD' ▸ hin) h)

end Instfs
