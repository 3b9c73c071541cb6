import Gsm.Instances.VolumeLinks

/-!
# What `mountBinds` hands to the container

When it succeeds: each container path is taken once and none is reserved, each volume is a real folder of
the instance's directory, and each host mount lies under a directory the node allows. The claims on paths
are a list that grows by one path at a time; the checks on the host side are read off the calls that made
them.
-/

open Posix GoStd

namespace Instances.Volumes

variable {m : Manager} {image : Str → Copied} {v : VolumeSpec} {n : Name} {spec : MountSpec}
  {t : Tree Name Str} {j j' : Journal Name Str} {taken taken' : List Str} {p : Str} {real p' : Path}
  {binds : List Bind}

theorem claim_eq_ok : claim taken p = .ok taken' ↔ p ∉ taken ∧ taken' = p :: taken := by
  rw [claim]
  split
  · next h => simp [h]
  · next h => simp [h, eq_comm]

theorem run_evalPath (p : Path) (j : Journal Name Str) :
    (evalPath p).run j = ((evalSymlinks j.tree p).mapError .errno, j) := rfl

theorem evalPath_ok {q : Path} (h : (evalPath p').run j = (.ok q, j')) :
    j' = j ∧ evalSymlinks j.tree p' = .ok q := by
  rw [run_evalPath] at h
  rcases he : evalSymlinks j.tree p' with e | l
  · rw [he] at h
    cases h
  · rw [he] at h
    cases h
    exact ⟨rfl, rfl⟩

/-- `volumeRealPath` has seen a real folder of the instance's directory. -/
theorem volumeRealPath_ok (hrun : (m.volumeRealPath n).run j = (.ok real, j')) :
    j'.tree = j.tree ∧ ∃ R, evalSymlinks j.tree m.dataDir = .ok R ∧
      evalSymlinks j.tree (m.volumeDir n) = .ok (R ++ [volumesDir, n]) ∧
      j.tree.look (R ++ [volumesDir, n]) = some .dir ∧ real = R ++ [volumesDir, n] := by
  refine ⟨(readsOnly_volumeRealPath.run hrun).tree, ?_⟩
  obtain ⟨R, j₁, hroot, hrun₁⟩ := Sys.run_bind_eq_ok.mp hrun
  obtain ⟨found, j₂, hfound, hrun₂⟩ := Sys.run_bind_eq_ok.mp hrun₁
  obtain ⟨info, j₃, hinfo, hcheck⟩ := Sys.run_bind_eq_ok.mp hrun₂
  obtain ⟨rfl, hR⟩ := evalPath_ok hroot
  obtain ⟨rfl, hreal⟩ := evalPath_ok hfound
  split at hcheck
  · cases hcheck
  next hsame =>
  push Not at hsame
  obtain ⟨heq, hdir⟩ := hsame
  cases hcheck
  rw [heq] at hreal hinfo
  refine ⟨R, hR, hreal, ?_, heq⟩
  -- the real path is where `stat` finds it
  obtain ⟨s, hs, hlink⟩ := walk_found _ _ _ (by simp) (evalSymlinks_eq_ok.mp hreal)
  obtain ⟨nd, hnd, hshape⟩ := Option.map_eq_some_iff.mp hs
  have hstat := Tree.stat_self (t := j₂.tree) (p := R ++ [volumesDir, n])
    (fun hk => by rw [Tree.kindAt_eq_none, hnd] at hk; cases hk)
    (fun g hg => hlink rfl g (Option.some.inj (hs.symm.trans hg)))
  rw [Sys.run_stat_found hstat hnd] at hinfo
  cases hinfo
  have : info.shape = .dir := by simpa [isDir] using hdir
  rw [Tree.look, hnd, Option.map_some, this]

/-! ## The volumes -/

/-- The bind of a volume, as it is made in a tree: its host is the real path of the volume, which is a
folder of the instance's directory. -/
def Manager.ShowsVolume (m : Manager) (t : Tree Name Str) (v : VolumeSpec) (b : Bind) : Prop :=
  ∃ (n : Name) (R : Path), v.name = n.1 ∧ evalSymlinks t m.dataDir = .ok R ∧
    evalSymlinks t (m.volumeDir n) = .ok b.host ∧ b.host = R ++ [volumesDir, n] ∧
    t.look b.host = some .dir ∧ b.container = v.path ∧ b.readOnly = false

/-- One turn of the loop. -/
theorem mountVolumes_cons_ok {more : List VolumeSpec}
    (hrun : (m.mountVolumes image taken (v :: more)).run j = (.ok (taken', binds), j')) :
    containerPathOK v.path ∧ v.path ∉ taken ∧ ∃ b bs j₁, binds = b :: bs ∧
      m.ShowsVolume j₁.tree v b ∧
      (m.mountVolumes image (v.path :: taken) more).run j₁ = (.ok (taken', bs), j') ∧
      ∀ vs taken₂ bs₂ j₂, (m.mountVolumes image (v.path :: taken) vs).run j₁ = (.ok (taken₂, bs₂), j₂) →
        (m.mountVolumes image taken (v :: vs)).run j = (.ok (taken₂, b :: bs₂), j₂) := by
  by_cases hok : volumeNameOk v.name ∧ containerPathOK v.path
  swap
  · rw [Manager.mountVolumes, dif_neg hok] at hrun
    cases hrun
  by_cases htaken : v.path ∈ taken
  · rw [Manager.mountVolumes, dif_pos hok] at hrun
    simp only [claim, if_pos htaken] at hrun
    cases hrun
  have hclaim : claim taken v.path = .ok (v.path :: taken) := claim_eq_ok.mpr ⟨htaken, rfl⟩
  rw [Manager.mountVolumes, dif_pos hok] at hrun
  simp only [hclaim] at hrun
  obtain ⟨_, j₁, hensure, hrun₁⟩ := Sys.run_bind_eq_ok.mp hrun
  obtain ⟨real, j₂, hreal, hrun₂⟩ := Sys.run_bind_eq_ok.mp hrun₁
  obtain ⟨⟨taken₁, bs⟩, j₃, hmore, hend⟩ := Sys.run_bind_eq_ok.mp hrun₂
  cases hend
  obtain ⟨htree, R, hR, hfound, hdir, rfl⟩ := volumeRealPath_ok hreal
  refine ⟨hok.2, htaken, _, bs, j₂, rfl, ⟨⟨v.name, isName_of_volumeNameOk hok.1⟩, R, rfl, ?_, ?_, rfl, ?_,
    rfl, rfl⟩, hmore, fun vs taken₂ bs₂ j₄ hvs => ?_⟩
  · rw [htree, hR]
  · rw [htree, hfound]
  · rw [htree, hdir]
  · rw [Manager.mountVolumes, dif_pos hok]
    simp only [hclaim]
    rw [Sys.run_bind_ok hensure, Sys.run_bind_ok hreal, Sys.run_bind_ok hvs]
    rfl

/-- The loop has made one bind for each volume, in the tree it had come to, and claimed its path. -/
theorem mountVolumes_ok (volumes : List VolumeSpec)
    (hrun : (m.mountVolumes image taken volumes).run j = (.ok (taken', binds), j')) :
    taken' = (binds.map Bind.container).reverse ++ taken ∧
      ((binds.map Bind.container).Nodup ∧ ∀ b ∈ binds, b.container ∉ taken) ∧
      (∀ b ∈ binds, containerPathOK b.container) ∧ binds.length = volumes.length ∧
      ∀ i v b, volumes[i]? = some v → binds[i]? = some b → ∃ j₁,
        (∃ r, (m.mountVolumes image taken (volumes.take (i + 1))).run j = (.ok r, j₁)) ∧
          m.ShowsVolume j₁.tree v b := by
  induction volumes generalizing taken j binds with
  | nil =>
    cases hrun
    simp
  | cons v more ih =>
    obtain ⟨hpath, hfree, b, bs, j₁, rfl, hshows, hmore, hcons⟩ := mountVolumes_cons_ok hrun
    obtain ⟨htaken, ⟨hnodup, hnew⟩, hok, hlen, hall⟩ := ih hmore
    have hb : b.container = v.path := by
      obtain ⟨-, -, -, -, -, -, -, h, -⟩ := hshows
      exact h
    refine ⟨?_, ⟨?_, ?_⟩, ?_, ?_, ?_⟩
    · rw [htaken, List.map_cons, List.reverse_cons, hb, List.append_assoc]
      rfl
    · rw [List.map_cons, List.nodup_cons]
      refine ⟨fun hmem => ?_, hnodup⟩
      obtain ⟨b', hb', heq⟩ := List.mem_map.mp hmem
      exact hnew b' hb' (by rw [heq, hb]; exact List.mem_cons_self)
    · rintro b' hb'
      rcases List.mem_cons.mp hb' with rfl | hb'
      · rw [hb]
        exact hfree
      · exact fun hmem => hnew b' hb' (List.mem_cons_of_mem _ hmem)
    · rintro b' hb'
      rcases List.mem_cons.mp hb' with rfl | hb'
      · rw [hb]
        exact hpath
      · exact hok b' hb'
    · rw [List.length_cons, List.length_cons, hlen]
    · intro i v' b' hv' hb'
      rcases i with _ | i
      · cases hv'
        cases hb'
        exact ⟨j₁, ⟨_, hcons [] _ [] j₁ rfl⟩, hshows⟩
      · obtain ⟨j₂, ⟨⟨taken₂, bs₂⟩, hrun₂⟩, hshows'⟩ := hall i v' b' hv' hb'
        exact ⟨j₂, ⟨_, hcons _ _ _ _ hrun₂⟩, hshows'⟩

/-! ## The host mounts -/

/-- The bind of a host mount: its host is the real path of the mount and under the real path of an allowed
root. -/
def Manager.ShowsMount (m : Manager) (t : Tree Name Str) (mt : HostMountSpec) (b : Bind) : Prop :=
  ∃ root ∈ m.hostMountRoots, ∃ r, evalSymlinks t root = .ok r ∧
    evalSymlinks t (clean mt.hostPath) = .ok b.host ∧ r <+: b.host ∧
    b.container = mt.containerPath ∧ b.readOnly = mt.readOnly

theorem allowedHostPath_ok (hrun : (m.allowedHostPath p).run j = (.ok real, j')) :
    evalSymlinks j.tree (clean p) = .ok real ∧
      ∃ root ∈ m.hostMountRoots, ∃ r, evalSymlinks j.tree root = .ok r ∧ r <+: real := by
  rw [Manager.allowedHostPath] at hrun
  split at hrun
  · cases hrun
  split at hrun
  · cases hrun
  rw [Sys.run_bind_ok (Sys.run_attempt _ _), run_evalPath] at hrun
  rcases heval : evalSymlinks j.tree (clean p) with e | l
  · rw [heval] at hrun
    cases hrun
  rw [heval] at hrun
  have hlook : (Sys.look fun t => .ok (m.underRoot t l) : Prog Bool).run j =
      (.ok (m.underRoot j.tree l), j) := rfl
  replace hrun : (do if ← Sys.look fun t => .ok (m.underRoot t l) then pure l else Sys.throw _ :
      Prog Path).run j = _ := hrun
  rw [Sys.run_bind_ok hlook] at hrun
  split at hrun
  · next hunder =>
    cases hrun
    refine ⟨rfl, ?_⟩
    obtain ⟨root, hmem, hroot⟩ := List.any_eq_true.mp hunder
    rcases hr : evalSymlinks j.tree root with e | r
    · rw [hr] at hroot
      cases hroot
    · rw [hr] at hroot
      refine ⟨root, hmem, r, hr, ?_⟩
      rcases within_iff.mp hroot with rfl | ⟨-, hpre⟩
      · exact List.prefix_rfl
      · exact hpre
  · cases hrun

theorem mountHosts_ok (mounts : List HostMountSpec)
    (hrun : (m.mountHosts taken mounts).run j = (.ok binds, j')) :
    ((binds.map Bind.container).Nodup ∧ ∀ b ∈ binds, b.container ∉ taken) ∧
      (∀ b ∈ binds, containerPathOK b.container) ∧
      List.Forall₂ (m.ShowsMount j.tree) mounts binds := by
  induction mounts generalizing taken j binds with
  | nil =>
    cases hrun
    simp
  | cons mt more ih =>
    rw [Manager.mountHosts] at hrun
    split at hrun
    swap
    · cases hrun
    next hpath =>
    split at hrun
    · cases hrun
    next taken₁ hclaim =>
    obtain ⟨hfree, rfl⟩ := claim_eq_ok.mp hclaim
    obtain ⟨host, j₁, hhost, hrun₁⟩ := Sys.run_bind_eq_ok.mp hrun
    obtain ⟨bs, j₂, hmore, hend⟩ := Sys.run_bind_eq_ok.mp hrun₁
    cases hend
    obtain ⟨heval, root, hroot, r, hr, hunder⟩ := allowedHostPath_ok hhost
    obtain ⟨⟨hnodup, hnew⟩, hok, hall⟩ := ih hmore
    have htree : j₁.tree = j.tree := ((readsOnly_allowedHostPath _).run hhost).tree
    rw [htree] at hall
    refine ⟨⟨?_, ?_⟩, ?_, .cons ⟨root, hroot, r, hr, heval, hunder, rfl, rfl⟩ hall⟩
    · rw [List.map_cons, List.nodup_cons]
      refine ⟨fun hmem => ?_, hnodup⟩
      obtain ⟨b', hb', heq⟩ := List.mem_map.mp hmem
      exact hnew b' hb' (by rw [heq]; exact List.mem_cons_self)
    · rintro b' hb'
      rcases List.mem_cons.mp hb' with rfl | hb'
      · exact hfree
      · exact fun hmem => hnew b' hb' (List.mem_cons_of_mem _ hmem)
    · rintro b' hb'
      rcases List.mem_cons.mp hb' with rfl | hb'
      · exact hpath
      · exact hok b' hb'

/-! ## All binds -/

/-- What `mountBinds` returns: the data directory, the volumes, the host mounts. The container paths are all
different and, but for `/data` of the first, not reserved. When the bind of a volume was made, in the
state in which `mountBinds` on the volumes up to it ends, its host was the real path of the volume and a
folder of the instance's directory; the host of a mount is its real path, under an allowed root. -/
theorem binds_allowed (m : Manager) (image : Str → Copied) (spec : MountSpec) (t : Tree Name Str)
    (binds : List Bind) (j' : Journal Name Str)
    (hrun : (m.mountBinds image spec).run (.of t) = (.ok binds, j')) :
    (binds.map Bind.container).Nodup ∧
      ∃ volumes hosts, binds = m.dataBind :: (volumes ++ hosts) ∧
        (∀ b ∈ volumes ++ hosts, containerPathOK b.container) ∧
        volumes.length = spec.volumes.length ∧
        (∀ i v b, spec.volumes[i]? = some v → volumes[i]? = some b → ∃ j₁,
          (∃ r, (m.mountBinds image ⟨spec.volumes.take (i + 1), []⟩).run (.of t) = (.ok r, j₁)) ∧
            m.ShowsVolume j₁.tree v b) ∧
        List.Forall₂ (m.ShowsMount j'.tree) spec.mounts hosts := by
  obtain ⟨_, j₁, hprepare, hrun₁⟩ := Sys.run_bind_eq_ok.mp hrun
  obtain ⟨⟨taken, volumes⟩, j₂, hvolumes, hrun₂⟩ := Sys.run_bind_eq_ok.mp hrun₁
  obtain ⟨hosts, j₃, hhosts, hend⟩ := Sys.run_bind_eq_ok.mp hrun₂
  cases hend
  have htree : j'.tree = j₂.tree := ((readsOnly_mountHosts _).run hhosts).tree
  obtain ⟨rfl, ⟨hnodup, hnew⟩, hok, hlen, hall⟩ := mountVolumes_ok _ hvolumes
  obtain ⟨⟨hnodup', hnew'⟩, hok', hmounts⟩ := mountHosts_ok _ hhosts
  refine ⟨?_, volumes, hosts, rfl, ?_, hlen, ?_, by rw [htree]; exact hmounts⟩
  · rw [List.map_cons, List.map_append, List.nodup_cons, List.nodup_append]
    refine ⟨?_, hnodup, hnodup', ?_⟩
    · rw [List.mem_append]
      rintro (hmem | hmem)
      · obtain ⟨b, hb, heq⟩ := List.mem_map.mp hmem
        exact hnew b hb (by rw [heq]; exact List.mem_singleton_self _)
      · obtain ⟨b, hb, heq⟩ := List.mem_map.mp hmem
        refine hnew' b hb ?_
        rw [heq]
        exact List.mem_append_right _ (List.mem_singleton_self _)
    · rintro x hx y hy rfl
      obtain ⟨b, hb, heq⟩ := List.mem_map.mp hy
      refine hnew' b hb ?_
      rw [heq]
      exact List.mem_append_left _ (List.mem_reverse.mpr hx)
  · intro b hb
    rcases List.mem_append.mp hb with hb | hb
    · exact hok b hb
    · exact hok' b hb
  · intro i v b hv hb
    obtain ⟨j₄, ⟨⟨taken₄, bs⟩, hupto⟩, hshows⟩ := hall i v b hv hb
    refine ⟨j₄, ⟨m.dataBind :: (bs ++ []), ?_⟩, hshows⟩
    have hsame : m.prepare ⟨spec.volumes.take (i + 1), []⟩ = m.prepare spec := by
      obtain ⟨v', more, hspec⟩ : ∃ v' more, spec.volumes = v' :: more := by
        rcases hvs : spec.volumes with _ | ⟨v', more⟩
        · rw [hvs] at hv
          cases hv
        · exact ⟨v', more, rfl⟩
      rw [Manager.prepare, Manager.prepare, if_neg (by simp [hspec]), if_neg (by simp [hspec])]
    rw [Manager.mountBinds, hsame, Sys.run_bind_ok hprepare, Sys.run_bind_ok hupto]
    rfl

/-- A node with a directory that instances may mount, and a link in it. -/
def sharedNode : Tree Name Str :=
  .build
    [([], name "a", ⟨.dir, 0o755, 1000, 1000⟩),
     ([], name "b", ⟨.dir, 0o755, 0, 0⟩),
     ([name "b"], name "maps", ⟨.dir, 0o755, 0, 0⟩),
     ([name "b"], name "latest", ⟨.link ⟨false, [.name (name "maps")]⟩, 0o777, 0, 0⟩)]

theorem binds_allowed_shared :
    ([⟨[name "a"], "/data".toList, false⟩, ⟨[name "a", volumesDir, name "data"], "/opt/data".toList, false⟩,
      ⟨[name "b", name "maps"], "/opt/maps".toList, true⟩].map Bind.container).Nodup := by
  have hrun : ((Manager.mountBinds ⟨[name "a"], 1000, 1000, true, [[name "b"]]⟩ (fun _ => .notFound)
      ⟨[⟨"data".toList, "/opt/data".toList, true⟩],
        [⟨"/b/latest".toList, "/opt/maps".toList, true⟩]⟩).run (.of sharedNode)).1 =
      .ok [⟨[name "a"], "/data".toList, false⟩,
        ⟨[name "a", volumesDir, name "data"], "/opt/data".toList, false⟩,
        ⟨[name "b", name "maps"], "/opt/maps".toList, true⟩] := by decide +kernel
  exact (binds_allowed _ _ _ _ _ _ (Prod.ext hrun rfl)).1

end Instances.Volumes
