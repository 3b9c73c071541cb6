import Gsm.Instances.Configfiles
import Gsm.Instfs.ExtractOwners

/-!
# Who owns what is made in an instance's directory

`ApplyConfigFile` makes missing directories with `os.MkdirAll`, as root's, and hands over the last of them.
`creation_newOwned_iff` says of each request that creates files or directories when all it makes belongs to
the user of the container.
-/

open Posix GoStd Posix.Tree

namespace Instances

variable {own : ℕ × ℕ} {t : Tree Name Str} {j : Journal Name Str} {path : Path}

/-! ## `ApplyConfigFile` -/

/-- Two directories of a path are missing, one in the other, with nothing in the way. -/
def TwoMissing (t : Tree Name Str) (p : Path) : Prop :=
  ∃ q c b rest d, p = q ++ c :: b :: rest ∧ t.DirAt q d ∧ t.look (d ++ [c]) = none

theorem twoMissing_iff {q rest : Path} {c : Name} {d : Loc Name} (hq : t.DirAt q d)
    (hc : t.look (d ++ [c]) = none) : TwoMissing t (q ++ c :: rest) ↔ rest ≠ [] := by
  constructor
  · rintro ⟨q', c', b, rest', d', hp, hq', hc'⟩ rfl
    -- the path to the first missing directory is no longer than `q`, which is there
    have hpre : q' <+: q := by
      have hlen := congrArg List.length hp
      simp only [List.length_append, List.length_cons, List.length_nil] at hlen
      refine List.prefix_of_prefix_length_le ?_ (List.prefix_append q [c]) (by omega)
      rw [hp]
      exact List.prefix_append _ _
    obtain ⟨y, rfl⟩ := hpre
    rw [List.append_assoc, List.append_cancel_left_eq] at hp
    rcases y with _ | ⟨a, y⟩
    · simp at hp
    · obtain ⟨rfl, -⟩ := List.cons.inj hp
      exact hq'.stat_missing hc' y d hq.1
  · intro hrest
    obtain ⟨b, rest, rfl⟩ := List.exists_cons_of_ne_nil hrest
    exact ⟨q, c, b, rest, d, rfl, hq, hc⟩

/-- With the directory of the file there, that directory and the file are handed over, and nothing else is
made. -/
theorem unowned_writeInDir {D : Loc Name} (hD : j.tree.DirAt path.dropLast D) (out : Str) :
    unowned own t ((writeInDir path out own.1 own.2).run j).2.tree =
      (unowned own t j.tree \ {D}) \ {l | j.tree.openTarget path = some l} := by
  have htarget := Sys.openTarget_chown (μ := ConfigError) own.1 own.2 j path.dropLast path
  have hchown : unowned own t ((Sys.chown (μ := ConfigError) path.dropLast own.1 own.2).run j).2.tree =
      unowned own t j.tree \ {D} := by
    rw [Sys.chown, Sys.run_touch_found (f := (·.stat path.dropLast)) hD.1]
    exact unowned_setOwner
  rw [writeInDir, Sys.run_bind_ok (Sys.run_attempt _ _), ← hchown, ← htarget]
  generalize ((Sys.chown (μ := ConfigError) path.dropLast own.1 own.2).run j).2 = j₁
  rw [writeFile]
  match ht : j₁.tree.openTarget path with
  | none =>
    obtain ⟨e, he⟩ := Sys.run_overwrite_none (μ := ConfigError) 0o644 out ht
    have hempty : {l : Loc Name | none = some l} = (∅ : Set (Loc Name)) := by
      ext l
      simp
    rw [Sys.run_bind_error he, hempty, Set.sdiff_empty]
  | some l =>
    obtain ⟨j₂, hrun, hstat, -⟩ := Sys.run_overwrite (μ := ConfigError) 0o644 out ht
    have hsingle : {l' : Loc Name | some l = some l'} = {l} := by
      ext l'
      simp [eq_comm]
    rw [Sys.run_bind_ok hrun, hsingle, Sys.chown, Sys.run_touch_found (f := (·.stat path)) hstat]
    show unowned own t (j₂.tree.alter l (Node.setOwner own.1 own.2) (Node.shape_setOwner own.1 own.2)) = _
    rw [unowned_setOwner]
    ext x
    rw [Set.mem_sdiff, Set.mem_sdiff]
    refine and_congr_left fun hx => ?_
    rw [unowned, unowned, Set.mem_ofPred_eq, Set.mem_ofPred_eq,
      Sys.owner_overwrite_ne ht hrun fun hxl => hx hxl]

/-- Once it writes, what `ApplyConfigFile` leaves to hand over is the missing directories but the last. -/
theorem newOwned_mkdirAll_writeInDir (hroot : own ≠ (0, 0)) (path : Path) (out : Str)
    (j : Journal Name Str) :
    NewOwned own j.tree ((do mkdirAll path.dropLast 0o755; writeInDir path out own.1 own.2).run j).2.tree ↔
      ¬ TwoMissing j.tree path.dropLast := by
  rw [newOwned_iff]
  rcases mkdirAll_cases (μ := ConfigError) j path.dropLast 0o755 with
    ⟨D, hD⟩ | ⟨q, c, rest, d, hpath, hq, hc⟩ | ⟨e, he⟩
  · rw [Sys.run_bind_ok (mkdirAll_present hD), unowned_writeInDir hD, unowned_self, Set.empty_sdiff,
      Set.empty_sdiff]
    refine iff_of_true rfl ?_
    rintro ⟨q, c, b, rest, d, hpath, hq, hc⟩
    rw [hpath] at hD
    exact hq.stat_missing hc (b :: rest) D hD.1
  · -- the missing directories are root's, but the last
    have hdir := Journal.dirAt_makeDirs (j := j) none 0o755 hq hc rest
    rw [← hpath] at hdir
    have hchain : unowned own j.tree (j.makeDirs none 0o755 d (c :: rest)).tree =
        {x | d ++ [c] <+: x ∧ x <+: d ++ c :: rest} := by
      rw [Journal.unowned_makeDirs_none 0o755 hq.2 hc rest hroot fun _ => id, unowned_self, Set.empty_union]
    have hmake : (mkdirAll path.dropLast 0o755 : Sys Name Str ConfigError Unit).run j =
        (.ok (), j.makeDirs none 0o755 d (c :: rest)) := by
      rw [hpath]
      exact mkdirAll_missing (μ := ConfigError) hq hc rest
    rw [Sys.run_bind_ok hmake, unowned_writeInDir hdir, hchain]
    obtain ⟨init, n, rfl⟩ : ∃ init n, path = init ++ [n] := by
      rcases List.eq_nil_or_concat path with rfl | ⟨init, n, rfl⟩
      · simp at hpath
      · exact ⟨init, n, by simp⟩
    rw [List.dropLast_concat] at hpath ⊢
    have htarget : (j.makeDirs none 0o755 d (c :: rest)).tree.openTarget (init ++ [n]) =
        some (d ++ c :: rest ++ [n]) := by
      rw [hpath]
      exact Journal.openTarget_makeDirs none 0o755 hq hc
    rw [htarget]
    rw [hpath, twoMissing_iff hq hc, not_not]
    constructor
    · intro hempty
      by_contra hrest
      -- the first missing directory is not the last
      refine Set.eq_empty_iff_forall_notMem.mp hempty (d ++ [c]) ⟨⟨⟨List.prefix_rfl, by simp⟩, ?_⟩, ?_⟩
      · intro he
        have hlen := congrArg List.length he
        have := List.length_pos_iff.mpr hrest
        simp only [List.length_append, List.length_cons, List.length_nil] at hlen
        omega
      · intro he
        have hlen := congrArg List.length (Option.some.inj he)
        simp only [List.length_append, List.length_cons, List.length_nil] at hlen
        omega
    · rintro rfl
      refine Set.eq_empty_iff_forall_notMem.mpr ?_
      rintro x ⟨⟨⟨hpre, hpre'⟩, hne⟩, -⟩
      exact hne (hpre'.eq_of_length_le hpre.length_le)
  · rw [Sys.run_bind_error he, unowned_self]
    refine iff_of_true rfl ?_
    rintro ⟨q, c, b, rest, d, hpath, hq, hc⟩
    rw [hpath, mkdirAll_missing (μ := ConfigError) hq hc] at he
    cases he

/-- `ApplyConfigFile` hands over all it makes unless it gets as far as writing with two directories
missing. -/
theorem applyConfigFile_newOwned_iff (m : Merges) (root : Path) (spec : ConfigFileSpec)
    (hroot : own ≠ (0, 0)) (t : Tree Name Str) :
    NewOwned own t ((applyConfigFile m root spec own.1 own.2).run (.of t)).2.tree ↔
      ∀ path, configPath root spec.path = some path → Proceeds m spec t path →
        ¬ TwoMissing t path.dropLast := by
  have hself : NewOwned own t t := newOwned_iff.mpr unowned_self
  rw [applyConfigFile]
  match configPath root spec.path with
  | none => exact iff_of_true hself nofun
  | some path =>
    simp only [Option.some.injEq, forall_eq']
    obtain ⟨j', htree, hrun⟩ := run_readExisting (.of t) path
    rw [Journal.of_tree] at htree hrun
    rw [applyAt]
    match htext : existingText t path with
    | none =>
      rw [htext] at hrun
      obtain ⟨e, he⟩ := hrun
      rw [Sys.run_bind_error he, htree]
      refine iff_of_true hself ?_
      rintro ⟨text, out, h, -⟩
      cases htext.symm.trans h
    | some text =>
      rw [htext] at hrun
      dsimp only at hrun
      rw [Sys.run_bind_ok hrun]
      match hmerge : mergeConfig m spec text with
      | .error e =>
        have hno : ¬ Proceeds m spec t path := by
          rintro ⟨text', out, h, h'⟩
          cases htext.symm.trans h
          cases hmerge.symm.trans h'
        refine iff_of_true ?_ fun h => absurd h hno
        show NewOwned own t j'.tree
        rw [htree]
        exact hself
      | .ok out =>
        have hgo : Proceeds m spec t path := ⟨text, out, htext, hmerge⟩
        have hwrites := newOwned_mkdirAll_writeInDir hroot path out j'
        rw [htree] at hwrites
        exact hwrites.trans ⟨fun h _ => h, fun h => h hgo⟩

/-! ## All requests -/

/-- The requests that create files or directories in an instance's directory -/
inductive Creation where
  | write (temps : List Name) (rel content : Str) (sha : Option Str) (create : Bool)
  | mkdir (rel : Str)
  | extract (ctx : Instfs.Context) (rel dest : Str)
  | receive (temps : List Name) (rel : Str) (size : ℕ) (overwrite : Bool) (body : Body)
      (confirm : Str → Except Str Unit)
  | applyConfigFile (root : Path) (spec : ConfigFileSpec)

section

variable (f : Instfs.FS) (lib : Instfs.Lib) (fmts : Instfs.Formats) (m : Merges) (own : ℕ × ℕ) (t : Tree Name Str)

/-- The tree after a request -/
def Creation.run : Creation → Tree Name Str
  | write temps rel content sha create => ((f.write lib temps rel content sha create).run (.of t)).2.tree
  | mkdir rel => ((f.mkdir rel).run (.of t)).2.tree
  | extract ctx rel dest => ((f.extract lib fmts ctx rel dest).run (.of t)).2.tree
  | receive temps rel size overwrite body confirm =>
      ((f.receive lib temps rel size overwrite body confirm).run (.of t)).2.tree
  | applyConfigFile root spec => ((Instances.applyConfigFile m root spec own.1 own.2).run (.of t)).2.tree

/-- When a request hands over all it makes -/
def Creation.HandsOver : Creation → Prop
  | write _ rel _ _ create =>
      ¬ (create = true ∧ ∃ abs c, Instfs.resolve t f rel = .ok (abs, c) ∧ Instfs.MissingDir t abs.dropLast)
  | mkdir _ => True
  | extract ctx rel dest => Instfs.ExtractHanded lib fmts ctx f t rel dest
  | receive .. => True
  | applyConfigFile root spec =>
      ∀ path, configPath root spec.path = some path → Proceeds m spec t path → ¬ TwoMissing t path.dropLast

/-- The nodes a request makes belong to the user of the container, who is not root, except: a directory that
`Write` makes for a new file; a file that `Extract` makes behind a link or whose bytes break off, unless
a later entry hands it over; any but the last of the directories that `ApplyConfigFile` makes. -/
theorem creation_newOwned_iff (hown : f.own = some own) (hroot : own ≠ (0, 0)) (c : Creation) :
    NewOwned own t (c.run f lib fmts m own t) ↔ c.HandsOver f lib fmts m t := by
  cases c with
  | write temps rel content sha create =>
    exact Instfs.write_newOwned_iff hown hroot lib temps rel content sha create t
  | mkdir rel => exact iff_of_true (Instfs.hands_mkdir hown rel (.of t)).newOwned trivial
  | extract ctx rel dest => exact Instfs.extract_newOwned_iff lib fmts ctx hown hroot t rel dest
  | receive temps rel size overwrite body confirm =>
    exact iff_of_true (Instfs.hands_receive hown lib temps rel size overwrite body confirm t).newOwned trivial
  | applyConfigFile root spec => exact applyConfigFile_newOwned_iff m root spec hroot t

end

/-- An instance's directory with nothing in it -/
def emptyInstance : Tree Name Str := .build [([], name "data", ⟨.dir, 0o755, 1000, 1000⟩)]

def plainMerges : Merges :=
  ⟨fun s _ => s, fun s _ => .ok s, fun s _ => s, fun s _ => .ok s, fun s _ => s, fun s _ => s⟩

theorem creation_newOwned_mkdir : NewOwned (1000, 1000) emptyInstance
    ((Creation.mkdir "a/b".toList).run ⟨[name "data"], 1000, 1000, true⟩ ⟨id, fun _ => true, id⟩
      Instfs.outEvilFormats plainMerges (1000, 1000) emptyInstance) :=
  (creation_newOwned_iff _ _ _ _ _ _ rfl (by decide) _).mpr trivial

/-- `Write` makes `a/b.txt`; the directory `a` is root's. -/
theorem creation_leaves_root :
    ¬ ∀ (f : Instfs.FS) (lib : Instfs.Lib) (fmts : Instfs.Formats) (m : Merges) (own : ℕ × ℕ)
      (t : Tree Name Str), f.own = some own → own ≠ (0, 0) → ∀ c : Creation,
        NewOwned own t (c.run f lib fmts m own t) := by
  intro h
  have hnew := h ⟨[name "data"], 1000, 1000, true⟩ ⟨id, fun _ => true, id⟩ Instfs.outEvilFormats plainMerges
    (1000, 1000) emptyInstance rfl (by decide) (.write [name "t"] "a/b.txt".toList [] none true)
  exact absurd (hnew [name "data", name "a"] (0, 0) (by decide +kernel) (by decide +kernel)) (by decide)

end Instances
