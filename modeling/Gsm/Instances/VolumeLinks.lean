import Gsm.Instances.SeedTree

/-!
# Where `mountBinds` reaches

The folders of the volumes lie in a directory that the game and its users fill, and `mountBinds` makes
them and hands them over before `volumeRealPath` looks where they are. Once `volumes` leads into the
instance's directory, all that follows stays there: what a seed brings lies in a folder just made, without
links, and each new folder takes its place beside it. Where `volumes` leads outside, the directory it leads
to is handed over, and the folder of the first volume is made in it.
-/

open Posix GoStd

namespace Instances.Volumes

variable {m : Manager} {image : Str → Copied} {v : VolumeSpec} {n : Name} {spec : MountSpec}
  {t : Tree Name Str} {j j' : Journal Name Str} {D P R : Loc Name} {dir : Path}
  {taken : List Str}

/-! ## The copying of a seed -/

theorem worksIn_seedFromImage (image : Str → Copied) (src : Str) :
    WorksIn dir P (m.seedFromImage image src dir) := by
  rw [Manager.seedFromImage]
  split
  · exact worksIn_throw _
  · exact worksIn_pure 0
  · exact worksIn_extractFrom _ _

theorem worksIn_giveFolder : WorksIn dir P (m.chown dir) := by
  rw [Manager.chown]
  split
  · exact (worksIn_chown _ _).attempt.bind fun _ => worksIn_pure ()
  · exact worksIn_pure ()

/-- A seed that cannot be copied is taken away again; what could be is in the folder. -/
theorem seedVolume_reach (image : Str → Copied) (v : VolumeSpec)
    (h : j.tree.Enclosed dir P) :
    (m.seedVolume image v dir).StaysIn Act.touches P j ∧
      ∀ j', (m.seedVolume image v dir).run j = (.ok (), j') →
        j'.tree.Enclosed dir P ∧ j.tree.Grows j'.tree := by
  rw [Manager.seedVolume]
  split
  swap
  · refine ⟨Sys.staysIn_pure (), fun j' hrun => ?_⟩
    obtain rfl : j' = j := (Prod.mk.inj hrun).2.symm
    exact ⟨h, .refl _⟩
  obtain ⟨hstays, hfolder, hgrows⟩ := worksIn_seedFromImage (m := m) image v.path j h
  rcases hseed : (m.seedFromImage image v.path dir).run j with ⟨r, j₁⟩
  have hattempt : ((m.seedFromImage image v.path dir).attempt).run j = (.ok r, j₁) := by
    rw [Sys.run_attempt, hseed]
  rw [hseed] at hfolder hgrows
  rw [Sys.staysIn_bind_ok hattempt, Sys.run_bind_ok hattempt]
  rcases r with e | k
  · refine ⟨⟨hstays, Sys.staysIn_bind.mpr ⟨?_, fun _ _ _ => Sys.staysIn_throw _⟩⟩, fun j' hrun => ?_⟩
    · exact (Sys.staysIn_attempt _).mpr (staysIn_removeAll fun hact => absurd hact (by decide))
    · cases hrun
  · refine ⟨⟨hstays, Sys.staysIn_pure ()⟩, fun j' hrun => ?_⟩
    obtain rfl : j' = j₁ := (Prod.mk.inj hrun).2.symm
    exact ⟨hfolder, hgrows⟩

/-! ## A new volume -/

theorem tmpName_ne : tmpName n ≠ n := by
  intro h
  have hlen := congrArg (fun k : Name => k.1.length) h
  simp [tmpName] at hlen

theorem lstat_volumeDir (h : j.tree.DirAt m.volumes D) : j.tree.lstat (m.volumeDir n) =
    if (j.tree.look (D ++ [n])).isNone then .absent D n else .found (D ++ [n]) := h.lstat_concat

theorem run_removeTmp (h : j.tree.DirAt m.volumes D) :
    ∃ j₁, ((removeAll (m.volumeDir n)).attempt : Prog _).run j = (.ok (.ok ()), j₁) ∧
      j₁.tree.look = (j.tree.remove (D ++ [n])).look ∧ ∀ R, j.Stays Act.touches R j₁ := by
  have hrun := run_removeAll_entry (μ := MountError) (c := n) h
  refine ⟨_, by rw [Sys.run_attempt, Manager.volumeDir, hrun], ?_, fun R => ?_⟩
  · split
    · next hnone =>
      -- nothing is there to be removed
      funext x
      show j.tree.look x = _
      by_cases hx : D ++ [n] <+: x
      · have hgone : (j.tree.remove (D ++ [n])).look x = none :=
          Tree.look_eq_none.mpr (Tree.node_remove_below _ (by simp) hx)
        rw [hgone]
        obtain ⟨y, rfl⟩ := hx
        by_cases hy : y = []
        · rw [hy, List.append_nil, hnone]
        · exact Tree.look_eq_none.mpr (Tree.node_below hy (by rw [hnone]; simp))
      · rw [Tree.look, Tree.look, Tree.node_remove_ne _ hx]
    · rfl
  · split
    · exact .refl j
    · refine .of_log (Journal.log_remove j _) fun a ha hact => ?_
      rw [List.mem_singleton.mp ha] at hact
      rcases hact with h | h | h <;> cases h

/-- The new folder is handed over, filled and renamed where it was made, in `D'`. -/
theorem fillVolume_reach {j₀ j₁ : Journal Name Str} {D' : Loc Name}
    (h : Remade j j₀ j₁ m.volumes D D' (tmpName n)) (hn : j.tree.look (D ++ [n]) = none)
    (htmp : j.tree.look (D ++ [tmpName n]) = none) (hR : R <+: D') :
    let fill : Prog Unit := do
      m.chown (m.volumeDir (tmpName n))
      m.seedVolume image v (m.volumeDir (tmpName n))
      Sys.rename (m.volumeDir (tmpName n)) (m.volumeDir n)
    fill.StaysIn Act.touches R j₁ ∧
      ∀ j', fill.run j₁ = (.ok (), j') → j'.tree.DirAt m.volumes D' := by
  have hRP : R <+: D' ++ [tmpName n] := hR.trans (List.prefix_append _ _)
  obtain ⟨hgive, hfolder₂, hgrows₂⟩ :
      (m.chown (m.volumeDir (tmpName n))).StaysIn Act.touches (D' ++ [tmpName n]) j₁ ∧
        ((m.chown (m.volumeDir (tmpName n))).run j₁).2.tree.Enclosed (m.volumeDir (tmpName n))
          (D' ++ [tmpName n]) ∧ j₁.tree.Grows ((m.chown (m.volumeDir (tmpName n))).run j₁).2.tree :=
    worksIn_giveFolder j₁ h.folder
  -- the state the rename finds
  have hrename : ∀ j₃ : Journal Name Str, j₃.tree.Enclosed (m.volumeDir (tmpName n)) (D' ++ [tmpName n]) →
      j₀.tree.Grows j₃.tree →
      (Sys.rename (m.volumeDir (tmpName n)) (m.volumeDir n) : Prog Unit).StaysIn Act.touches R j₃ ∧
        ∀ j', (Sys.rename (m.volumeDir (tmpName n)) (m.volumeDir n) : Prog Unit).run j₃ = (.ok (), j') →
          j'.tree.DirAt m.volumes D' := by
    intro j₃ hfolder hgrows
    have hparent : j₃.tree.DirAt m.volumes D' := h.parent.mono hgrows
    have hsrc : j₃.tree.lstat (m.volumeDir (tmpName n)) = .found (D' ++ [tmpName n]) := by
      rw [lstat_volumeDir hparent, hfolder.dir.2]
      rfl
    have hdst : ∀ x, (j₃.tree.lstat (m.volumeDir n)).place = .ok x → x = D' ++ [n] := by
      intro x hx
      rw [lstat_volumeDir hparent] at hx
      split at hx
      · exact (Except.ok.inj hx).symm
      · exact (Except.ok.inj hx).symm
    refine ⟨Sys.staysIn_rename (fun hact => absurd hact (by decide)) fun _ x hx => ?_, fun j' hrun => ?_⟩
    · rw [hdst x hx]
      exact hR.trans (List.prefix_append _ _)
    · obtain ⟨s, nd, x, hs, -, hx, hcase⟩ := Sys.run_rename_eq_ok.mp hrun
      cases hsrc.symm.trans hs
      obtain rfl := hdst x hx
      rcases hcase with ⟨heq, -⟩ | ⟨-, -, d, k, heq, rfl⟩
      · exact absurd (List.cons.inj (List.append_inj' heq rfl).2).1 tmpName_ne
      obtain ⟨rfl, hk⟩ := List.append_inj' heq rfl
      obtain rfl : n = k := (List.cons.inj hk).1
      -- what was there before the folder was made is not moved
      refine h.parent.mono fun x s hx => ?_
      have hout : ∀ c, j.tree.look (D ++ [c]) = none → ¬ D' ++ [c] <+: x := by
        rintro c hc ⟨y, rfl⟩
        have hnone := h.free c hc
        by_cases hy : y = []
        · rw [hy, List.append_nil, hnone] at hx
          cases hx
        · exact Tree.node_ne_none hx (Tree.node_below hy (by rw [hnone]; simp))
      rw [Journal.tree_replace, Tree.look, Tree.node_move_ne _ (hout _ htmp) (hout _ hn),
        Tree.node_remove_ne _ (hout _ hn)]
      exact hgrows x s hx
  constructor
  · refine Sys.staysIn_bind.mpr ⟨hgive.above hRP, fun _ j₂ hrun₂ => ?_⟩
    rw [hrun₂] at hfolder₂ hgrows₂
    obtain ⟨hseed, hfilled⟩ := seedVolume_reach (m := m) image v hfolder₂
    refine Sys.staysIn_bind.mpr ⟨hseed.above hRP, fun _ j₃ hrun₃ => ?_⟩
    obtain ⟨hfolder₃, hgrows₃⟩ := hfilled j₃ hrun₃
    exact (hrename j₃ hfolder₃ ((h.grows.trans hgrows₂).trans hgrows₃)).1
  · intro j' hrun
    obtain ⟨_, j₂, hrun₂, hrun⟩ := Sys.run_bind_eq_ok.mp hrun
    rw [hrun₂] at hfolder₂ hgrows₂
    obtain ⟨_, j₃, hrun₃, hrun⟩ := Sys.run_bind_eq_ok.mp hrun
    obtain ⟨hfolder₃, hgrows₃⟩ := (seedVolume_reach image v hfolder₂).2 j₃ hrun₃
    exact (hrename j₃ hfolder₃ ((h.grows.trans hgrows₂).trans hgrows₃)).2 j' hrun

/-- What `createVolume` reaches is inside exactly when the place of its temporary folder is, unless that
cannot be made; and then the volumes still lie inside. -/
theorem createVolume_reach (image : Str → Copied) (v : VolumeSpec)
    (hD : j.tree.DirAt m.volumes D) (hn : j.tree.look (D ++ [n]) = none)
    (hR : R <+: D ∨ j.tree.DirAt m.dataDir R) :
    ((m.createVolume image v n).StaysIn Act.touches R j ↔ R <+: D ++ [tmpName n] ∨
      ∀ P, ¬ (j.tree.remove (D ++ [tmpName n])).Leads (m.volumeDir (tmpName n)) P) ∧
    ∀ j', (m.createVolume image v n).run j = (.ok (), j') →
      (∃ P, (j.tree.remove (D ++ [tmpName n])).Leads (m.volumeDir (tmpName n)) P) ∧
        (R <+: D ++ [tmpName n] → ∃ D', j'.tree.DirAt m.volumes D' ∧ R <+: D') := by
  obtain ⟨j₁, hremove, hlook, hstays⟩ := run_removeTmp (n := tmpName n) hD
  have hgone : ∀ x, D ++ [tmpName n] <+: x → j₁.tree.look x = none := by
    intro x hx
    rw [hlook, Tree.look, Tree.node_remove_below _ (by simp) hx]
    rfl
  have hthin : ∀ x s, j₁.tree.look x = some s → s ≠ .leaf → j.tree.look x = some s := fun x s hx _ =>
    Tree.look_remove (l := D ++ [tmpName n]) (by rwa [← hlook])
  have hn₁ : j₁.tree.look (D ++ [n]) = none := by
    rcases hnone : j₁.tree.look (D ++ [n]) with _ | s
    · rfl
    · rw [hlook] at hnone
      rw [Tree.look_remove hnone] at hn
      cases hn
  have hdir : m.volumes ++ [tmpName n] = m.volumeDir (tmpName n) := rfl
  rw [Manager.createVolume, Sys.staysIn_bind_ok hremove, Sys.run_bind_ok hremove]
  rcases run_remake (μ := MountError) 0o755 hD hlook with ⟨⟨e, he⟩, hno⟩ | ⟨D', j₀, j₂, hmake, h⟩
  · rw [hdir] at he
    rw [Sys.staysIn_bind_error he, Sys.run_bind_error he, Sys.StaysIn, Sys.StaysIn, hremove, he]
    refine ⟨iff_of_true ⟨hstays R, .refl j₁⟩ (.inr fun P hP => hno P (hP.congr hlook.symm)), ?_⟩
    intro j' hrun
    cases hrun
  rw [hdir] at hmake
  rw [Sys.staysIn_bind_ok hmake, Sys.run_bind_ok hmake, Sys.StaysIn, Sys.StaysIn, hremove, hmake,
    h.stays R]
  -- the folder's parent is inside when the folder is
  have hparent : R <+: D ++ [tmpName n] → R <+: D' := by
    intro hin
    rcases h.place with ⟨rfl, hV⟩ | hX
    · rcases hR with hR | hI
      · exact hR
      · rcases List.prefix_concat_iff.mp hin with rfl | hR
        · -- the data directory itself would have been taken away
          obtain ⟨E, hE⟩ := Tree.dirAt_of_stat_concat (t := j₁.tree) (p := m.dataDir)
            (c := volumesDir) fun e he => by
              rw [show j₁.tree.stat (m.dataDir ++ [volumesDir]) = _ from hV.1] at he
              cases he
          rw [(hE.thin hthin).unique hI] at hE
          have hnone := hgone _ List.prefix_rfl
          rw [hE.2] at hnone
          cases hnone
        · exact hR
    · exact hin.trans hX
  constructor
  · constructor
    · exact fun hin => .inl hin.2.1
    · rintro (hin | hno)
      · exact ⟨hstays R, hin, (fillVolume_reach h hn₁ (hgone _ List.prefix_rfl) (hparent hin)).1⟩
      · exact absurd (h.leads.congr hlook) (hno _)
  · exact fun j' hrun => ⟨⟨_, h.leads.congr hlook⟩, fun hin =>
      ⟨D', (fillVolume_reach h hn₁ (hgone _ List.prefix_rfl) (hparent hin)).2 j' hrun, hparent hin⟩⟩

/-- The folder a seed is copied into was just made, without links. -/
theorem enclosed_newFolder (hD : j.tree.DirAt m.volumes D)
    (hrun : (do
      let _ ← (removeAll (m.volumeDir (tmpName n))).attempt
      mkdirAll (m.volumeDir (tmpName n)) 0o755
      m.chown (m.volumeDir (tmpName n)) : Prog Unit).run j = (.ok (), j')) :
    ∃ P, j'.tree.Enclosed (m.volumeDir (tmpName n)) P := by
  obtain ⟨j₁, hremove, hlook, -⟩ := run_removeTmp (n := tmpName n) hD
  rw [Sys.run_bind_ok hremove] at hrun
  have hdir : m.volumes ++ [tmpName n] = m.volumeDir (tmpName n) := rfl
  rcases run_remake (μ := MountError) 0o755 hD hlook with ⟨⟨e, he⟩, -⟩ | ⟨D', j₀, j₂, hmake, h⟩
  · rw [← hdir, Sys.run_bind_error he] at hrun
    cases hrun
  · rw [← hdir, Sys.run_bind_ok hmake] at hrun
    obtain ⟨-, hfolder, -⟩ := worksIn_giveFolder (m := m) j₂ h.folder
    rw [hrun] at hfolder
    exact ⟨_, hfolder⟩

/-! ## All volumes -/

theorem not_touches_read : ¬ Act.read.touches := by decide

theorem readsOnly_volumeRealPath : (m.volumeRealPath n).ReadsOnly := by
  refine (Sys.readsOnly_look _).bind fun _ => (Sys.readsOnly_look _).bind fun real =>
    (Sys.readsOnly_stat real).bind fun info => ?_
  split
  · exact Sys.readsOnly_throw _
  · exact Sys.readsOnly_pure _

theorem readsOnly_allowedHostPath (p : Str) : (m.allowedHostPath p).ReadsOnly := by
  rw [Manager.allowedHostPath]
  split
  · exact Sys.readsOnly_throw _
  split
  · exact Sys.readsOnly_throw _
  refine (Sys.readsOnly_look _).attempt.bind fun r => ?_
  split
  · exact Sys.readsOnly_throw _
  · refine (Sys.readsOnly_look _).bind fun allowed => ?_
    split
    · exact Sys.readsOnly_pure _
    · exact Sys.readsOnly_throw _

theorem readsOnly_mountHosts (mounts : List HostMountSpec) :
    (m.mountHosts taken mounts).ReadsOnly := by
  induction mounts generalizing taken with
  | nil => exact Sys.readsOnly_pure _
  | cons mt more ih =>
    rw [Manager.mountHosts]
    split
    · split
      · exact Sys.readsOnly_throw _
      · exact (readsOnly_allowedHostPath _).bind fun _ => ih.bind fun _ => Sys.readsOnly_pure _
    · exact Sys.readsOnly_throw _

/-- A volume that is there is left alone. -/
theorem run_ensureVolume_there (hD : j.tree.DirAt m.volumes D) (hn : j.tree.look (D ++ [n]) ≠ none) :
    (m.ensureVolume image v n).run j = (.ok (), j) := by
  obtain ⟨s, hs⟩ := Option.ne_none_iff_exists'.mp hn
  obtain ⟨nd, hnd, -⟩ := Option.map_eq_some_iff.mp hs
  have hl : j.tree.lstat (m.volumeDir n) = .found (D ++ [n]) := by
    rw [lstat_volumeDir hD, hs]
    rfl
  rw [Manager.ensureVolume, Sys.run_bind_ok (by rw [Sys.run_attempt, Sys.run_lstat_found hl hnd])]
  rfl

/-- One that is not there is created. -/
theorem run_ensureVolume_absent (hD : j.tree.DirAt m.volumes D) (hn : j.tree.look (D ++ [n]) = none) :
    (m.ensureVolume image v n).run j = (do
      match ← (m.createVolume image v n).attempt with
      | .ok _ => pure ()
      | .error e => Sys.throw (wrap ("volume ".toList ++ v.name ++ ": ".toList) e) : Prog Unit).run j := by
  have hl : j.tree.lstat (m.volumeDir n) = .absent D n := by
    rw [lstat_volumeDir hD, hn]
    rfl
  have hrun : (Sys.lstat (m.volumeDir n) : Prog _).run j = (.error (.errno .noent), j) :=
    Sys.run_bind_error (Sys.run_existing_absent (f := (·.lstat (m.volumeDir n))) hl)
  rw [Manager.ensureVolume]
  exact Sys.run_bind_ok (by rw [Sys.run_attempt, hrun])

/-- Where the volumes lie inside, a volume is made inside, and they still lie inside afterwards. -/
theorem ensureVolume_reach (image : Str → Copied) (v : VolumeSpec)
    (hD : j.tree.DirAt m.volumes D) (hR : R <+: D) :
    (m.ensureVolume image v n).StaysIn Act.touches R j ∧
      ∀ j', (m.ensureVolume image v n).run j = (.ok (), j') →
        ∃ D', j'.tree.DirAt m.volumes D' ∧ R <+: D' := by
  by_cases hn : j.tree.look (D ++ [n]) = none
  · obtain ⟨hstays, hafter⟩ := createVolume_reach image v hD hn (.inl hR)
    have hin : R <+: D ++ [tmpName n] := hR.trans (List.prefix_append _ _)
    have hcreate := hstays.mpr (.inl hin)
    rw [Sys.StaysIn, run_ensureVolume_absent hD hn]
    constructor
    · refine Sys.staysIn_bind.mpr ⟨hcreate, fun r j₁ _ => ?_⟩
      split
      · exact Sys.staysIn_pure ()
      · exact Sys.staysIn_throw _
    · intro j' hrun
      obtain ⟨r, j₁, hattempt, hrun⟩ := Sys.run_bind_eq_ok.mp hrun
      obtain ⟨hr, hj₁⟩ := Prod.mk.inj hattempt
      rcases r with e | _
      · cases hrun
      · cases hrun
        exact (hafter _ (Prod.ext (Except.ok.inj hr) hj₁)).2 hin
  · rw [Sys.StaysIn, run_ensureVolume_there hD hn]
    refine ⟨.refl j, fun j' hrun => ?_⟩
    obtain rfl : j' = j := (Prod.mk.inj hrun).2.symm
    exact ⟨D, hD, hR⟩

theorem mountVolumes_reach (volumes : List VolumeSpec) (hD : j.tree.DirAt m.volumes D) (hR : R <+: D) :
    (m.mountVolumes image taken volumes).StaysIn Act.touches R j := by
  induction volumes generalizing taken j D with
  | nil => exact Sys.staysIn_pure _
  | cons v more ih =>
    rw [Manager.mountVolumes]
    split
    swap
    · exact Sys.staysIn_throw _
    next hok =>
    simp only
    split
    · exact Sys.staysIn_throw _
    obtain ⟨hstays, hafter⟩ := ensureVolume_reach image v hD hR
    refine Sys.staysIn_bind.mpr ⟨hstays, fun _ j₁ hrun => ?_⟩
    obtain ⟨D₁, hD₁, hR₁⟩ := hafter j₁ hrun
    have hreal := readsOnly_volumeRealPath (m := m) (n := ⟨v.name, isName_of_volumeNameOk hok.1⟩) j₁
    refine Sys.staysIn_bind.mpr ⟨hreal.stays_of not_touches_read, fun real j₂ hrun₂ => ?_⟩
    rw [hrun₂] at hreal
    refine Sys.staysIn_bind.mpr ⟨ih (hD₁.congr (by rw [hreal.tree])) hR₁, fun _ _ _ => ?_⟩
    exact Sys.staysIn_pure _

/-- Where the volumes lie outside the instance's directory, no volume is accepted. -/
theorem volumeRealPath_outside (hI : j.tree.DirAt m.dataDir R) (hD : j.tree.DirAt m.volumes D)
    (hout : ¬ R <+: D) (real : Path) (j' : Journal Name Str) :
    (m.volumeRealPath n).run j ≠ (.ok real, j') := by
  intro hrun
  obtain ⟨root, j₁, hroot, hrun₁⟩ := Sys.run_bind_eq_ok.mp hrun
  obtain ⟨found, j₂, hfound, hrun₂⟩ := Sys.run_bind_eq_ok.mp hrun₁
  obtain ⟨info, j₃, -, hcheck⟩ := Sys.run_bind_eq_ok.mp hrun₂
  rw [evalPath, Sys.run_look, evalSymlinks_of_stat hI.1] at hroot
  cases hroot
  rw [evalPath, Sys.run_look] at hfound
  rcases heval : evalSymlinks j.tree (m.volumeDir n) with e | l
  · rw [heval] at hfound
    cases hfound
  rw [heval] at hfound
  cases hfound
  split at hcheck
  · cases hcheck
  · next hsame =>
    -- then `volumes` is a real folder of the data directory
    obtain ⟨s, hs, -⟩ := walk_found _ _ _ (by simp) (evalSymlinks_eq_ok.mp heval)
    have hl : found = R ++ [volumesDir] ++ [n] := by
      push Not at hsame
      rw [hsame.1, List.append_assoc]
      rfl
    rw [hl] at hs
    have hreal := hI.concat (Tree.look_parent (Tree.node_ne_none hs))
    rw [hD.unique hreal] at hout
    exact hout (List.prefix_append _ _)

/-- A volume whose name and path are right and which is not there, with the folder that is made for it
outside `R`. -/
def Manager.MakesOutside (m : Manager) (t : Tree Name Str) (R D : Loc Name) (v : VolumeSpec) : Prop :=
  ∃ n : Name, v.name = n.1 ∧ volumeNameOk v.name ∧ containerPathOK v.path ∧
    t.look (D ++ [n]) = none ∧ ¬ R <+: D ++ [tmpName n] ∧
    ∃ P, (t.remove (D ++ [tmpName n])).Leads (m.volumeDir (tmpName n)) P

theorem mountVolumes_outside (more : List VolumeSpec) (hI : j.tree.DirAt m.dataDir R)
    (hD : j.tree.DirAt m.volumes D) (hout : ¬ R <+: D) :
    (m.mountVolumes image ["/data".toList] (v :: more)).StaysIn Act.touches R j ↔
      ¬ m.MakesOutside j.tree R D v := by
  rw [Manager.mountVolumes]
  split
  swap
  · next hbad =>
    exact iff_of_true (Sys.staysIn_throw _) fun ⟨n, _, hname, hpath, _⟩ => hbad ⟨hname, hpath⟩
  next hok =>
  have hclaim : claim ["/data".toList] v.path = .ok [v.path, "/data".toList] := by
    rw [claim, if_neg]
    intro hmem
    have hpath := hok.2
    rw [List.mem_singleton.mp hmem] at hpath
    exact absurd hpath (by decide)
  simp only [hclaim]
  have hread : ∀ j₁ : Journal Name Str, j₁.tree.DirAt m.dataDir R → j₁.tree.DirAt m.volumes D →
      ∀ f : Path → Prog (List Str × List Bind),
        (m.volumeRealPath ⟨v.name, isName_of_volumeNameOk hok.1⟩ >>= f).StaysIn Act.touches R j₁ :=
    fun j₁ hI₁ hD₁ f => Sys.staysIn_bind.mpr
      ⟨(readsOnly_volumeRealPath j₁).stays_of not_touches_read, fun real j₂ hrun =>
        absurd hrun (volumeRealPath_outside hI₁ hD₁ hout real j₂)⟩
  generalize hn : (⟨v.name, isName_of_volumeNameOk hok.1⟩ : Name) = n at hread
  have hname : v.name = n.1 := by rw [← hn]
  by_cases hfree : j.tree.look (D ++ [n]) = none
  · obtain ⟨hstays, hafter⟩ := createVolume_reach image v hD hfree (.inr hI)
    have hmakes : ¬ m.MakesOutside j.tree R D v ↔ R <+: D ++ [tmpName n] ∨
        ∀ P, ¬ (j.tree.remove (D ++ [tmpName n])).Leads (m.volumeDir (tmpName n)) P := by
      constructor
      · intro hno
        by_contra hboth
        push Not at hboth
        exact hno ⟨n, hname, hok.1, hok.2, hfree, hboth.1, hboth.2⟩
      · rintro hin ⟨k, hk, -, -, -, hkout, P, hP⟩
        obtain rfl : n = k := Subtype.ext (hname.symm.trans hk)
        rcases hin with hin | hno
        · exact hkout hin
        · exact hno P hP
    rw [hmakes, ← hstays]
    have hensure : (m.ensureVolume image v n).StaysIn Act.touches R j ↔
        (m.createVolume image v n).StaysIn Act.touches R j := by
      rw [Sys.StaysIn, run_ensureVolume_absent hD hfree]
      refine Sys.staysIn_bind.trans (and_iff_left fun r j₁ _ => ?_)
      split
      · exact Sys.staysIn_pure ()
      · exact Sys.staysIn_throw _
    refine Sys.staysIn_bind.trans ((and_congr_left' hensure).trans
      (and_iff_left_of_imp fun hcreate _ j₁ hrun => ?_))
    have hdone : (m.createVolume image v n).run j = (.ok (), j₁) := by
      rw [run_ensureVolume_absent hD hfree] at hrun
      obtain ⟨r, j₂, hattempt, hrun⟩ := Sys.run_bind_eq_ok.mp hrun
      obtain ⟨hr, hj₂⟩ := Prod.mk.inj hattempt
      rcases r with e | _
      · cases hrun
      · cases hrun
        exact Prod.ext (Except.ok.inj hr) hj₂
    obtain ⟨⟨P, hP⟩, hinside⟩ := hafter j₁ hdone
    rcases hstays.mp hcreate with hin | hno
    · obtain ⟨D₁, hD₁, hR₁⟩ := hinside hin
      have hreal := readsOnly_volumeRealPath (m := m) (n := n) j₁
      refine Sys.staysIn_bind.mpr ⟨hreal.stays_of not_touches_read, fun real j₂ hrun₂ => ?_⟩
      rw [hrun₂] at hreal
      refine Sys.staysIn_bind.mpr ⟨mountVolumes_reach more (hD₁.congr (by rw [hreal.tree])) hR₁, ?_⟩
      exact fun _ _ _ => Sys.staysIn_pure _
    · exact absurd hP (hno P)
  · rw [Sys.staysIn_bind_ok (run_ensureVolume_there hD hfree)]
    refine iff_of_true ⟨?_, hread j hI hD _⟩ ?_
    · rw [Sys.StaysIn, run_ensureVolume_there hD hfree]
    · rintro ⟨k, hk, -, -, hnone, -⟩
      obtain rfl : n = k := Subtype.ext (hname.symm.trans hk)
      exact hfree hnone

/-! ## The whole of it -/

/-- `volumes` leads to a directory outside `R`, which is handed over, or in which the folder of the first
volume is made. -/
def Manager.Strays (m : Manager) (spec : MountSpec) (t : Tree Name Str) (R : Loc Name) : Prop :=
  ∃ v more D, spec.volumes = v :: more ∧ t.DirAt m.volumes D ∧ ¬ R <+: D ∧
    (m.root = true ∨ m.MakesOutside t R D v)

theorem staysIn_giveVolumes (hD : j.tree.DirAt m.volumes D) :
    (m.chown m.volumes).StaysIn Act.touches R j ↔ (m.root = true → R <+: D) := by
  rw [Manager.chown]
  split
  · next hroot =>
    have hchown : (Sys.chown m.volumes m.uid m.gid : Prog Unit).StaysIn Act.touches R j ↔ R <+: D := by
      refine (Sys.staysIn_touch _).trans ⟨fun h => h (.inr (.inr rfl)) D hD.1, fun h _ l hl => ?_⟩
      cases hD.1.symm.trans hl
      exact h
    refine Sys.staysIn_bind.trans ((and_congr_left' hchown).trans ?_)
    exact ⟨fun h _ => h.1, fun h => ⟨h hroot, fun _ _ _ => Sys.staysIn_pure ()⟩⟩
  · next hroot => exact iff_of_true (Sys.staysIn_pure ()) fun h => absurd h hroot

theorem run_giveVolumes : ∃ j₁, (m.chown m.volumes).run j = (.ok (), j₁) ∧ j₁.tree.look = j.tree.look := by
  rw [Manager.chown]
  split
  · exact ⟨_, rfl, Sys.look_touch _ j⟩
  · exact ⟨j, rfl, rfl⟩

/-- From the volumes' folder on. -/
theorem mountAll_inside_iff (hvolumes : spec.volumes ≠ []) (hI : j.tree.DirAt m.dataDir R)
    (hD : j.tree.DirAt m.volumes D) :
    (do m.chown m.volumes; m.mountVolumes image ["/data".toList] spec.volumes :
        Prog (List Str × List Bind)).StaysIn Act.touches R j ↔
      (¬ R <+: D → m.root = false ∧ ∀ v more, spec.volumes = v :: more → ¬ m.MakesOutside j.tree R D v) := by
  obtain ⟨j₁, hgive, hlook⟩ := run_giveVolumes (m := m) (j := j)
  obtain ⟨v, more, hspec⟩ := List.exists_cons_of_ne_nil hvolumes
  have hI₁ := hI.congr hlook.symm
  have hD₁ := hD.congr hlook.symm
  have hmakes : m.MakesOutside j₁.tree R D v ↔ m.MakesOutside j.tree R D v := by
    have hremove : ∀ n, (j₁.tree.remove (D ++ [tmpName n])).look = (j.tree.remove (D ++ [tmpName n])).look := by
      intro n
      funext x
      rw [Tree.look_remove_eq _ (by simp), Tree.look_remove_eq _ (by simp), hlook]
    constructor
    · rintro ⟨n, hn, hname, hpath, hfree, hout, P, hP⟩
      exact ⟨n, hn, hname, hpath, by rw [← hlook, hfree], hout, P, hP.congr (hremove n)⟩
    · rintro ⟨n, hn, hname, hpath, hfree, hout, P, hP⟩
      exact ⟨n, hn, hname, hpath, by rw [hlook, hfree], hout, P, hP.congr (hremove n).symm⟩
  rw [Sys.staysIn_bind_ok hgive, staysIn_giveVolumes hD]
  by_cases hR : R <+: D
  · exact iff_of_true ⟨fun _ => hR, mountVolumes_reach _ hD₁ hR⟩ fun hout => absurd hR hout
  · rw [hspec, mountVolumes_outside more hI₁ hD₁ hR, hmakes]
    constructor
    · rintro ⟨hroot, hno⟩ -
      refine ⟨by_contra fun h => hR (hroot (by simpa using h)), fun v' more' heq => ?_⟩
      obtain ⟨rfl, -⟩ := List.cons.inj heq
      exact hno
    · intro h
      obtain ⟨hroot, hno⟩ := h hR
      exact ⟨fun h => absurd (hroot.symm.trans h) (by decide), hno v more rfl⟩

theorem staysIn_mountBinds (hR : j.tree.DirAt m.dataDir R) :
    (m.mountBinds image spec).StaysIn Act.touches R j ↔ ¬ m.Strays spec j.tree R := by
  have hrest : ∀ j : Journal Name Str, (m.mountBinds image spec).StaysIn Act.touches R j ↔
      (do m.prepare spec; m.mountVolumes image ["/data".toList] spec.volumes :
        Prog (List Str × List Bind)).StaysIn Act.touches R j := by
    intro j
    rw [Manager.mountBinds, Sys.staysIn_bind, Sys.staysIn_bind]
    refine and_congr_right fun _ => forall₃_congr fun _ j₁ _ => Sys.staysIn_bind.trans ?_
    refine and_iff_left fun _ j₂ _ => Sys.staysIn_bind.mpr ?_
    exact ⟨(readsOnly_mountHosts _ j₂).stays_of not_touches_read, fun _ _ _ => Sys.staysIn_pure _⟩
  rw [hrest, Manager.prepare]
  by_cases hvolumes : spec.volumes = []
  · rw [if_pos hvolumes, hvolumes]
    refine iff_of_true (Sys.staysIn_bind.mpr ⟨Sys.staysIn_pure (), fun _ _ _ => Sys.staysIn_pure _⟩) ?_
    rintro ⟨v, more, D, hspec, -⟩
    rw [hvolumes] at hspec
    cases hspec
  rw [if_neg hvolumes]
  have hassoc : ∀ j : Journal Name Str,
      (do
        (do mkdirAll m.volumes 0o755; m.chown m.volumes)
        m.mountVolumes image ["/data".toList] spec.volumes : Prog (List Str × List Bind)).StaysIn
          Act.touches R j ↔
      (do
        mkdirAll m.volumes 0o755
        (do m.chown m.volumes; m.mountVolumes image ["/data".toList] spec.volumes) :
          Prog (List Str × List Bind)).StaysIn Act.touches R j := by
    intro j
    rw [Sys.StaysIn, Sys.StaysIn, Sys.run_bind_assoc]
  rw [hassoc]
  rcases mkdirAll_cases (μ := MountError) j m.volumes 0o755 with
    ⟨D, hD⟩ | ⟨q, c, rest, d, hV, hq, hc⟩ | ⟨e, he⟩
  · -- the folder is there, or what `volumes` leads to
    have hthere : (mkdirAll m.volumes 0o755 : Prog Unit).run j = (.ok (), j) :=
      mkdirAll_present hD
    rw [Sys.staysIn_bind_ok hthere, mountAll_inside_iff hvolumes hR hD, Sys.StaysIn, hthere]
    constructor
    · rintro ⟨-, h⟩ ⟨v, more, D', hspec, hD', hout, hstray⟩
      obtain rfl := hD'.unique hD
      obtain ⟨hroot, hno⟩ := h hout
      rcases hstray with hroot' | hmakes
      · exact absurd (hroot.symm.trans hroot') (by decide)
      · exact hno v more hspec hmakes
    · refine fun h => ⟨.refl _, fun hout => ⟨?_, fun v more hspec hmakes => ?_⟩⟩
      · obtain ⟨v, more, hspec⟩ := List.exists_cons_of_ne_nil hvolumes
        by_contra hroot
        exact h ⟨v, more, D, hspec, hD, hout, .inl (by simpa using hroot)⟩
      · exact h ⟨v, more, D, hspec, hD, hout, .inr hmakes⟩
  · -- it is made in the data directory
    have hin : R <+: d := by
      rcases List.append_eq_append_iff.mp hV with ⟨z, rfl, hz⟩ | ⟨z, hz, hc'⟩
      · rcases z with _ | ⟨b, z⟩
        · rw [List.append_nil] at hq
          rw [hq.unique hR]
        · simp at hz
      · rcases z with _ | ⟨b, z⟩
        · rw [List.append_nil] at hz
          rw [hz] at hR
          rw [hq.unique hR]
        · obtain ⟨rfl, -⟩ := List.cons.inj hc'
          rw [hz] at hR
          exact absurd hR.1 (hq.stat_missing hc z R)
    have hmade : (mkdirAll (q ++ c :: rest) 0o755 : Prog Unit).run j =
        (.ok (), j.makeDirs none 0o755 d (c :: rest)) := mkdirAll_missing hq hc rest
    rw [← hV] at hmade
    have hdir := Journal.dirAt_makeDirs none 0o755 hq hc rest
    rw [← hV] at hdir
    have hI := hR.mono fun x s => Journal.look_makeDirs_mono none 0o755 hq.2 hc rest
    rw [Sys.staysIn_bind_ok hmade, mountAll_inside_iff hvolumes hI hdir, Sys.StaysIn, hmade,
      Journal.stays_makeDirs]
    refine iff_of_true ⟨⟨fun _ => hin.trans (List.prefix_append _ _), fun h => nomatch h⟩, ?_⟩ ?_
    · exact fun hout => absurd (hin.trans (List.prefix_append _ _)) hout
    · rintro ⟨v, more, D, -, hD, -⟩
      rw [hV] at hD
      exact hq.stat_missing hc rest D hD.1
  · rw [Sys.staysIn_bind_error he, Sys.StaysIn, he]
    refine iff_of_true (.refl _) ?_
    rintro ⟨v, more, D, -, hD, -⟩
    rw [mkdirAll_present hD] at he
    cases he

/-- `mountBinds` creates and hands over nothing outside the instance's directory exactly when `volumes`
does not stray. -/
theorem mountBinds_inside_iff (m : Manager) (image : Str → Copied) (spec : MountSpec)
    (t : Tree Name Str) (R : Loc Name) (hR : t.DirAt m.dataDir R) :
    (m.mountBinds image spec).StaysIn Act.touches R (.of t) ↔ ¬ m.Strays spec t R :=
  staysIn_mountBinds (j := .of t) hR

/-- An instance with no folder for its volumes yet. -/
def plainInstance : Tree Name Str := .build [([], name "a", ⟨.dir, 0o755, 1000, 1000⟩)]

theorem mountBinds_inside_plain :
    (Manager.mountBinds ⟨[name "a"], 1000, 1000, true, []⟩ (fun _ => .notFound)
      ⟨[⟨"data".toList, "/opt/game/data".toList, true⟩], []⟩).StaysIn Act.touches [name "a"]
        (.of plainInstance) := by
  have hdir : plainInstance.DirAt [name "a"] [name "a"] := by
    constructor <;> decide
  refine (mountBinds_inside_iff ⟨[name "a"], 1000, 1000, true, []⟩ _ _ _ _ hdir).mpr ?_
  rintro ⟨v, more, D, -, hD, -⟩
  have hnone : plainInstance.stat [name "a", volumesDir] = .absent [name "a"] volumesDir := by decide
  exact nomatch hnone.symm.trans hD.1

/-- `volumes` is a link to a directory beside the data directory. -/
def linkedVolumes : Tree Name Str :=
  .build
    [([], name "a", ⟨.dir, 0o755, 1000, 1000⟩),
     ([], name "b", ⟨.dir, 0o755, 0, 0⟩),
     ([name "a"], volumesDir, ⟨.link ⟨false, [.up, .name (name "b")]⟩, 0o777, 1000, 1000⟩)]

/-- The directory beside it is handed over, and a folder made in it, before the volume is refused. -/
theorem mountBinds_outside :
    ¬ ∀ (m : Manager) (image : Str → Copied) (spec : MountSpec) (t : Tree Name Str) (R : Loc Name),
      t.DirAt m.dataDir R → (m.mountBinds image spec).StaysIn Act.touches R (.of t) := by
  intro h
  have hdir : linkedVolumes.DirAt [name "a"] [name "a"] := by
    constructor <;> decide
  have hstays := h ⟨[name "a"], 1000, 1000, true, []⟩ (fun _ => .notFound)
    ⟨[⟨"data".toList, "/opt/game/data".toList, false⟩], []⟩ linkedVolumes [name "a"] hdir
  have hin := Journal.stays_of_iff.mp hstays ⟨.chown, [name "b"]⟩ (by decide +kernel)
    (.inr (.inr rfl))
  exact absurd hin (by decide)

end Instances.Volumes
