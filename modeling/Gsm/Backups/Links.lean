import Gsm.Backups.Restore

/-!
# Where `Restore` writes

Entry names are checked as texts, while the data directory may hold links from before. Without
`wipe` they are still there, and each result says exactly when a step keeps to a place `R`: what it
makes, opens and hands over, in the tree it finds, lies at or below `R`.
-/

open Posix GoStd

namespace Backups

variable {d : Dest} {fmt : TarGz} {ctx : ℕ → Bool} {t : Tree Name Str} {R l : Loc Name}
  {j j' : Journal Name Str} {p : Path} {n : Name} {tr : Body}

theorem run_own (h : j.tree.lstat p = .found l) :
    (d.own p).run j = (.ok (), j.give d.owner l) := Sys.run_handOver h

theorem stays_give : j.Stays Act.touches R (j.give d.owner l) ↔ (d.chown → R <+: l) := by
  have htouch : Act.chown.touches := .inr (.inr rfl)
  rw [Journal.stays_give]
  by_cases hc : d.chown <;> simp [Dest.owner, hc, htouch]

theorem staysIn_own (h : j.tree.lstat p = .found l) :
    (d.own p).StaysIn Act.touches R j ↔ (d.chown → R <+: l) := by
  rw [Sys.StaysIn, run_own h, stays_give]

/-! ## Directories -/

theorem staysIn_mkdirs :
    (mkdirs p).StaysIn Act.touches R j ↔ j.tree.MakesInside R (soundPart p) := by
  rw [mkdirs, Sys.staysIn_bind, staysIn_mkdirAll]
  refine (and_iff_left fun a j' _ => ?_).trans ⟨fun h => h (.inl rfl), fun h _ => h⟩
  split
  · exact Sys.staysIn_throw _
  · exact Sys.staysIn_pure _

/-- What is made for a directory is inside, and so is the node its path names. -/
structure DirInside (d : Dest) (t : Tree Name Str) (R : Loc Name) (p : Path) : Prop where
  made : t.MakesInside R (soundPart p)
  owned : hasNul p = false → d.chown → ∀ D S, t.DirAt p D → t.lstat p = .found S → R <+: S

theorem staysIn_makeDir : (d.makeDir p).StaysIn Act.touches R j ↔ DirInside d j.tree R p := by
  rw [Dest.makeDir, Sys.staysIn_bind, staysIn_mkdirs]
  refine Iff.trans (and_congr_right fun hmade => ?_)
    ⟨fun h => ⟨h.1, h.2⟩, fun h => ⟨h.made, h.owned⟩⟩
  by_cases hn : hasNul p
  · simp [hn, run_mkdirs_nul hn]
  have hn : hasNul p = false := by simpa using hn
  rw [soundPart_eq hn] at hmade
  simp only [hn, true_imp_iff, run_mkdirs hn]
  rcases mkdirAll_cases (μ := RestoreError) j p 0o755 with
    ⟨D, hD⟩ | ⟨q, c, rest, D, rfl, hq, hc⟩ | ⟨e, he⟩
  · obtain ⟨S, hS⟩ := hD.exists_lstat
    rw [mkdirAll_present hD]
    constructor
    · intro h howned D' S' _ hS'
      cases hS.symm.trans hS'
      exact (staysIn_own hS).mp (h () j rfl) howned
    · rintro h a j' hrun
      cases hrun
      exact (staysIn_own hS).mpr fun howned => h howned D S hD hS
  · -- a directory that was made lies where the first one does
    rw [mkdirAll_missing hq hc]
    refine iff_of_true ?_ fun _ D' _ hD' => absurd hD'.1 (hq.stat_missing hc rest D')
    rintro a j' hrun
    cases hrun
    refine (staysIn_own (Journal.lstat_makeDirs none 0o755 hq hc rest)).mpr fun _ => ?_
    exact (hmade q c rest D rfl hq hc).trans (by simp)
  · rw [he]
    refine iff_of_true (fun a j' hrun => by cases hrun) fun _ D S hD _ => ?_
    rw [mkdirAll_present hD] at he
    cases he

/-! ## Files -/

/-- Once its directory was made, a file opens inside exactly when it did before. -/
theorem opensInside_makeDir {handed : Prop} (hn : hasNul p = false) (hin : DirInside d j.tree R p) :
    (∀ a j', (d.makeDir p).run j = (.ok a, j') → j'.tree.OpensInside R (p ++ [n]) handed) ↔
      j.tree.OpensInside R (p ++ [n]) handed := by
  have hmade := hin.made
  rw [soundPart_eq hn] at hmade
  simp only [Dest.makeDir, Sys.run_bind_eq_ok, run_mkdirs hn]
  rcases mkdirAll_cases (μ := RestoreError) j p 0o755 with
    ⟨D, hD⟩ | ⟨q, c, rest, D, rfl, hq, hc⟩ | ⟨e, he⟩
  · obtain ⟨S, hS⟩ := hD.exists_lstat
    rw [mkdirAll_present hD]
    constructor
    · intro h
      exact Journal.opensInside_give.mp (h () _ ⟨(), j, rfl, run_own hS⟩)
    · rintro h a j' ⟨_, j₁, hrun₁, hrun₂⟩
      cases hrun₁
      rw [run_own hS] at hrun₂
      cases hrun₂
      exact Journal.opensInside_give.mpr h
  · have hnone : j.tree.openTarget (q ++ c :: rest ++ [n]) = none :=
      Tree.openTarget_of_not_dir fun D' hD' => hq.stat_missing hc rest D' hD'.1
    refine iff_of_true ?_ (Tree.opensInside_of_none hnone)
    rw [mkdirAll_missing hq hc]
    rintro a j' ⟨_, j₁, hrun₁, hrun₂⟩
    cases hrun₁
    rw [run_own (Journal.lstat_makeDirs none 0o755 hq hc rest)] at hrun₂
    cases hrun₂
    exact Journal.opensInside_give.mpr
      (Journal.opensInside_makeDirs none 0o755 hq hc (hmade q c rest D rfl hq hc))
  · have hD (D : Loc Name) : ¬ j.tree.DirAt p D := fun hD => by
      rw [mkdirAll_present hD] at he
      cases he
    rw [he]
    refine iff_of_true ?_ (Tree.opensInside_of_none (Tree.openTarget_of_not_dir hD))
    rintro a j' ⟨_, j₁, hrun₁, -⟩
    cases hrun₁

/-- What is made, opened and handed over for a file is inside. -/
structure FileInside (d : Dest) (t : Tree Name Str) (R : Loc Name) (p : Path) (tr : Body) :
    Prop where
  dir : DirInside d t R p.dropLast
  file : hasNul p = false → t.OpensInside R p (d.chown ∧ tr.err = none)

theorem staysIn_finish (hl : j.tree.lstat p = .found l) :
    (d.finish p tr.err).StaysIn Act.touches R j ↔ (d.chown ∧ tr.err = none → R <+: l) := by
  unfold Dest.finish
  match tr.err with
  | some e => simp
  | none => simpa using staysIn_own hl

theorem staysIn_makeFile {mode : ℕ} :
    (d.makeFile p mode tr).StaysIn Act.touches R j ↔ FileInside d j.tree R p tr := by
  rw [Dest.makeFile, Sys.staysIn_bind, staysIn_makeDir]
  refine Iff.trans (and_congr_right fun hdir => ?_) ⟨fun h => ⟨h.1, h.2⟩, fun h => ⟨h.dir, h.file⟩⟩
  by_cases hn : hasNul p
  · simp [hn]
  have hn : hasNul p = false := by simpa using hn
  simp only [hn, true_imp_iff, Bool.false_eq_true, if_false,
    Sys.staysIn_overwrite_bind (.inr (.inl rfl)) (.inl rfl) fun _ _ => staysIn_finish]
  rcases List.eq_nil_or_concat p with rfl | ⟨q, n, rfl⟩
  · have hroot (t : Tree Name Str) : t.OpensInside R [] (d.chown ∧ tr.err = none) :=
      Tree.opensInside_of_none Tree.openTarget_root
    exact iff_of_true (fun _ _ _ => hroot _) (hroot _)
  · have hnq := hasNul_dropLast hn
    rw [List.concat_eq_append] at hdir hnq ⊢
    rw [List.dropLast_concat] at hdir hnq ⊢
    exact opensInside_makeDir hnq hdir

/-! ## The loop over the entries -/

/-- What is done for one entry keeps inside. -/
def EntryInside (d : Dest) (t : Tree Name Str) (R : Loc Name) (p : Path) (hdr : TarEntry) : Prop :=
  match hdr.typeflag with
  | .dir => DirInside d t R p
  | .reg => FileInside d t R p hdr.body
  | .other => True

theorem staysIn_unpack {hdr : TarEntry} :
    (d.unpack p hdr).StaysIn Act.touches R j ↔ EntryInside d j.tree R p hdr := by
  unfold Dest.unpack EntryInside
  match hdr.typeflag with
  | .dir => simp [Sys.staysIn_bind, staysIn_makeDir]
  | .reg => simp [Sys.staysIn_bind, staysIn_makeFile]
  | .other => simp

/-- Each entry that is reached keeps inside, in the tree that the entries before it have left. -/
def EntriesInside (d : Dest) (ctx : ℕ → Bool) (R : Loc Name) (i : ℕ) (j : Journal Name Str) :
    List TarEntry → Prop
  | [] => True
  | hdr :: more =>
      ctx i = false → ∀ p, entryPath d.root hdr.name = .ok p →
        EntryInside d j.tree R p hdr ∧
          ∀ n j', (d.unpack p hdr).run j = (.ok n, j') → EntriesInside d ctx R (i + 1) j' more

theorem staysIn_unpackFrom {err : Option Str} (entries : List TarEntry) (i files : ℕ) :
    (d.unpackFrom ctx err i files entries).StaysIn Act.touches R j ↔
      EntriesInside d ctx R i j entries := by
  induction entries generalizing i files j with
  | nil =>
    refine iff_of_true ?_ trivial
    unfold Dest.unpackFrom
    split
    · exact Sys.staysIn_throw _
    · split <;> simp
  | cons hdr more ih =>
    rw [Dest.unpackFrom, EntriesInside]
    by_cases hctx : ctx i
    · simp [hctx]
    have hctx : ctx i = false := by simpa using hctx
    simp only [hctx, Bool.false_eq_true, if_false, true_imp_iff]
    match entryPath d.root hdr.name with
    | .error e => simp
    | .ok p => simp only [Except.ok.injEq, forall_eq', Sys.staysIn_bind, staysIn_unpack, ih]

/-! ## The whole of it -/

end Backups
