import Gsm.Backups.Restore

/-!
# What a refused restore leaves behind

`Restore` refuses an archive that is missing, is no gzip stream or has an entry that would leave the
data directory. By then it may have emptied the directory and restored the entries before the one
refused; `restore_refused` says which of these it has done.
-/

open Posix GoStd

namespace Backups

variable {d : Dest} {fmt : TarGz} {ctx : ℕ → Bool} {t : Tree Name Str} {D l : Loc Name}
  {j j' : Journal Name Str} {p root archive : Path} {n : Name} {names : List Name} {msg : Str}

/-! ## Preparing the data directory -/

/-- Removing one entry of the data directory. -/
theorem run_removeAll_child (h : (removeAll (root ++ [n]) : Prog Unit).run j = (.ok (), j')) :
    (∃ E, j.tree.DirAt root E ∧ j' = j.remove (E ++ [n])) ∨
      (∀ E, j.tree.DirAt root E → j.tree.node (E ++ [n]) = none) ∧ j' = j := by
  rcases run_removeAll_eq_ok h with ⟨l, -, hl, rfl⟩ | ⟨hno, rfl⟩
  · obtain ⟨E, hE, rfl, -⟩ := Tree.lstat_concat_eq_found.mp hl
    exact .inl ⟨E, hE, rfl⟩
  · refine .inr ⟨fun E hE => ?_, rfl⟩
    by_contra hne
    exact hno _ (Tree.lstat_concat_eq_found.mpr ⟨E, hE, rfl, fun hn => hne (Tree.look_eq_none.mp hn)⟩)

theorem sub_removeEach (h : (removeEach root names).run j = (.ok (), j')) :
    j'.tree.Sub j.tree := by
  induction names generalizing j with
  | nil =>
    cases h
    rfl
  | cons m more ih =>
    obtain ⟨_, j₁, hremove, hmore⟩ := Sys.run_bind_eq_ok.mp h
    refine (ih hmore).trans ?_
    rcases run_removeAll_child hremove with ⟨E, -, rfl⟩ | ⟨-, rfl⟩
    · exact Tree.sub_remove _ _
    · rfl

/-- Nodes are taken away below the data directory only. -/
theorem node_removeEach (hD : ∀ E, j.tree.DirAt root E → E = D) (hl : ∀ x, x ≠ [] → l ≠ D ++ x)
    (h : (removeEach root names).run j = (.ok (), j')) : j'.tree.node l = j.tree.node l := by
  induction names generalizing j with
  | nil =>
    cases h
    rfl
  | cons m more ih =>
    obtain ⟨_, j₁, hremove, hmore⟩ := Sys.run_bind_eq_ok.mp h
    rcases run_removeAll_child hremove with ⟨E, hE, rfl⟩ | ⟨-, rfl⟩
    · obtain rfl := hD E hE
      rw [ih (fun E' hE' => hD E' (hE'.of_sub (Tree.sub_remove _ _))) hmore]
      refine Tree.node_remove_ne _ ?_
      rintro ⟨y, rfl⟩
      exact hl (m :: y) (by simp) (by simp)
    · exact ih hD hmore

/-- What was to be removed is gone, if the data directory can still be reached. -/
theorem gone_removeEach (hD : j'.tree.DirAt root D)
    (h : (removeEach root names).run j = (.ok (), j')) :
    ∀ n ∈ names, j'.tree.node (D ++ [n]) = none := by
  induction names generalizing j with
  | nil => simp
  | cons m more ih =>
    obtain ⟨_, j₁, hremove, hmore⟩ := Sys.run_bind_eq_ok.mp h
    have hsub := sub_removeEach hmore
    rintro n (_ | ⟨_, hn⟩)
    · have hnone : j₁.tree.node (D ++ [m]) = none := by
        rcases run_removeAll_child hremove with ⟨E, hE, rfl⟩ | ⟨hno, rfl⟩
        · obtain rfl := hE.unique ((hD.of_sub hsub).of_sub (Tree.sub_remove _ _))
          exact Tree.node_remove_below _ (by simp) List.prefix_rfl
        · exact hno D (hD.of_sub hsub)
      rcases hsub (D ++ [m]) with hx | hx
      · exact hx
      · rw [hx, hnone]
    · exact ih hmore n hn

/-- What preparing leaves of a tree: a data directory that was there is kept, or emptied. -/
structure Prepared (root : Path) (wipe : Bool) (t t' : Tree Name Str) : Prop where
  kept : wipe = false → ∀ D, t.DirAt root D → t' = t
  emptied : wipe = true → ∀ D, t'.DirAt root D → ∀ x, x ≠ [] → t'.node (D ++ x) = none
  beside : ∀ D, t.DirAt root D → ∀ l, (∀ x, x ≠ [] → l ≠ D ++ x) → t'.node l = t.node l

/-- A data directory that is there is left alone. -/
theorem run_mkdirs_present (hD : j.tree.DirAt root D)
    (h : (mkdirs root).run j = (.ok (), j')) : j' = j := by
  have hnul : hasNul root = false := by
    by_contra hn
    exact run_mkdirs_nul (by simpa using hn) j' h
  rw [run_mkdirs hnul, mkdirAll_present hD] at h
  cases h
  rfl

theorem prepare_prepared {wipe : Bool} (h : (prepare root wipe).run j = (.ok (), j')) :
    Prepared root wipe j.tree j'.tree := by
  obtain ⟨_, j₁, hmk, hwipe⟩ := Sys.run_bind_eq_ok.mp h
  cases wipe with
  | false =>
    cases hwipe
    refine ⟨fun _ D hD => ?_, by simp, fun D hD l _ => ?_⟩ <;> rw [run_mkdirs_present hD hmk]
  | true =>
    obtain ⟨names, j₂, hread, hremove⟩ := Sys.run_bind_eq_ok.mp hwipe
    obtain ⟨E, hE, rfl, rfl⟩ := Sys.run_readDir_eq_ok hread
    have hsub : j'.tree.Sub j₁.tree := sub_removeEach (j := j₁.read E) hremove
    refine ⟨by simp, fun _ D hD x hx => ?_, fun D hD l hl => ?_⟩
    · obtain rfl := hE.unique (hD.of_sub hsub)
      obtain ⟨n, x, rfl⟩ := List.exists_cons_of_ne_nil hx
      by_contra hne
      -- something left below an entry would keep the entry
      have hn : j'.tree.node (E ++ [n]) ≠ none := by
        by_cases hnil : x = []
        · rwa [hnil] at hne
        · rw [show E ++ n :: x = E ++ [n] ++ x by simp] at hne
          exact Tree.node_ne_none (Tree.look_above hnil hne)
      refine hn (gone_removeEach hD hremove n (Tree.mem_names ?_))
      rcases hsub (E ++ [n]) with hgone | hsame
      · exact absurd hgone hn
      · rwa [← hsame]
    · have hj₁ := run_mkdirs_present hD hmk
      subst hj₁
      exact node_removeEach (j := j₁.read E) (fun E' hE' => hE'.unique hD) hl hremove

/-! ## Where a refusal comes from -/

/-- Not an `InvalidError`. -/
def NotInvalid (e : Refusal) : Prop := ∀ msg, e ≠ .other (.invalid msg)

theorem notInvalid_errno (e : Errno) : NotInvalid (.errno e) := fun _ h => by cases h

theorem notInvalid_failed (e : Str) : NotInvalid (.other (.failed e)) := fun _ h => by cases h

theorem raises_mkdirs (p : Path) : (mkdirs p).Raises NotInvalid := by
  refine (raises_mkdirAll notInvalid_errno _ _).bind fun _ => ?_
  split
  · exact Sys.raises_throw (notInvalid_errno _)
  · exact Sys.raises_pure _

theorem raises_removeEach (root : Path) (names : List Name) :
    (removeEach root names).Raises NotInvalid := by
  induction names with
  | nil => exact Sys.raises_pure _
  | cons n more ih => exact (raises_removeAll notInvalid_errno _).bind fun _ => ih

theorem raises_prepare (root : Path) (wipe : Bool) : (prepare root wipe).Raises NotInvalid := by
  refine (raises_mkdirs root).bind fun _ => ?_
  split
  · exact (Sys.raises_readDir notInvalid_errno _).bind fun _ => raises_removeEach _ _
  · exact Sys.raises_pure _

theorem raises_makeDir (p : Path) : (d.makeDir p).Raises NotInvalid :=
  (raises_mkdirs p).bind fun _ => Sys.raises_handOver _ _

theorem raises_finish (p : Path) (err : Option Str) : (d.finish p err).Raises NotInvalid := by
  unfold Dest.finish
  split
  · exact Sys.raises_throw (notInvalid_failed _)
  · exact Sys.raises_handOver _ _

theorem raises_unpack (p : Path) (hdr : TarEntry) : (d.unpack p hdr).Raises NotInvalid := by
  unfold Dest.unpack
  split
  · exact (raises_makeDir p).bind fun _ => Sys.raises_pure _
  · refine Sys.Raises.bind ?_ fun _ => Sys.raises_pure _
    refine (raises_makeDir _).bind fun _ => ?_
    split
    · exact Sys.raises_throw (notInvalid_errno _)
    · exact (Sys.raises_overwrite notInvalid_errno _ _ _).bind fun _ => raises_finish _ _
  · exact Sys.raises_pure _

/-- Opening the archive changes nothing, and is refused only where nothing is there. -/
theorem quiet_openArchive (archive : Path) : (openArchive archive).ReadsOnly := by
  refine ((Sys.readsOnly_existing _).attempt).bind fun r => ?_
  split
  · exact Sys.readsOnly_throw _
  · exact Sys.readsOnly_throw _
  · refine (Sys.readsOnly_nodeAt _).bind fun nd => ?_
    split
    · exact (Sys.readsOnly_read _).bind fun _ => Sys.readsOnly_pure _
    · exact Sys.readsOnly_pure _
    · exact Sys.readsOnly_throw _

theorem openArchive_invalid
    (h : (openArchive archive).run j = (.error (.other (.invalid msg)), j')) :
    ∀ l, j.tree.stat archive ≠ .found l := by
  intro l hl
  rw [openArchive, Sys.run_bind_ok (by rw [Sys.run_attempt, Sys.run_existing_found hl])] at h
  refine absurd rfl ((Sys.Raises.bind (Sys.raises_nodeAt notInvalid_errno l) fun nd => ?_) j _
    (congrArg Prod.fst h) msg)
  split
  · exact (Sys.raises_effect _ _).bind fun _ => Sys.raises_pure _
  · exact Sys.raises_pure _
  · exact Sys.raises_throw (notInvalid_errno _)

/-- A refusal in the loop is that of an entry's name; the entries before it have been restored. -/
theorem unpackFrom_invalid {err : Option Str} {entries : List TarEntry} {i files : ℕ}
    (h : (d.unpackFrom ctx err i files entries).run j = (.error (.other (.invalid msg)), j')) :
    ∃ before hdr after n, entries = before ++ hdr :: after ∧
      entryPath d.root hdr.name = .error (.other (.invalid msg)) ∧
        (d.unpackFrom ctx none i files before).run j = (.ok n, j') := by
  induction entries generalizing i files j with
  | nil =>
    unfold Dest.unpackFrom at h
    split at h
    · cases h
    · split at h <;> cases h
  | cons hdr more ih =>
    rw [Dest.unpackFrom] at h
    split at h
    · cases h
    next hctx =>
    match hp : entryPath d.root hdr.name with
    | .error e =>
      rw [hp] at h
      cases h
      exact ⟨[], hdr, more, files, rfl, hp, by simp [Dest.unpackFrom, hctx]⟩
    | .ok p =>
      simp only [hp] at h
      rcases hrun : (d.unpack p hdr).run j with ⟨e | k, j₁⟩
      · rw [Sys.run_bind_error hrun] at h
        cases h
        exact absurd rfl (raises_unpack p hdr j _ (by rw [hrun]) msg)
      · rw [Sys.run_bind_ok hrun] at h
        obtain ⟨before, hdr', after, n, rfl, hpath, hbefore⟩ := ih h
        refine ⟨hdr :: before, hdr', after, n, rfl, hpath, ?_⟩
        rw [Dest.unpackFrom, if_neg hctx]
        simp only [hp]
        rw [Sys.run_bind_ok hrun, hbefore]

/-! ## What is left -/

/-- What a refused restore leaves: the tree as it was, if the archive is missing; as it was prepared,
if that is no gzip stream; or else as restoring the entries before the refused one has left it. -/
def LeftByRefusal (d : Dest) (fmt : TarGz) (ctx : ℕ → Bool) (archive : Path) (wipe : Bool)
    (t : Tree Name Str) (msg : Str) (j' : Journal Name Str) : Prop :=
  (∀ l, t.stat archive ≠ .found l) ∧ j'.tree = t ∨
  ∃ f j₀ j₁, (openArchive archive).run (.of t) = (.ok f, j₀) ∧
    (prepare d.root wipe).run j₀ = (.ok (), j₁) ∧ Prepared d.root wipe t j₁.tree ∧
    ((∀ gz, openGzip fmt f ≠ .ok gz) ∧ j'.tree = j₁.tree ∨
      ∃ gz before hdr after n, openGzip fmt f = .ok gz ∧
        (fmt.readTar gz).entries = before ++ hdr :: after ∧
        entryPath d.root hdr.name = .error (.other (.invalid msg)) ∧
        (d.unpackFrom ctx none 0 0 before).run j₁ = (.ok n, j'))

theorem restore_refused (d : Dest) (fmt : TarGz) (ctx : ℕ → Bool) (archive : Path) (wipe : Bool)
    (t : Tree Name Str) (msg : Str) (j' : Journal Name Str)
    (h : (restore d fmt ctx archive wipe).run (.of t) = (.error (.other (.invalid msg)), j')) :
    LeftByRefusal d fmt ctx archive wipe t msg j' := by
  rw [restore] at h
  rcases hopen : (openArchive archive).run (.of t) with ⟨e | f, j₀⟩
  · rw [Sys.run_bind_error hopen] at h
    cases h
    exact .inl ⟨openArchive_invalid hopen, ((quiet_openArchive archive).run hopen).tree⟩
  have htree : j₀.tree = t := ((quiet_openArchive archive).run hopen).tree
  rw [Sys.run_bind_ok hopen] at h
  rcases hprep : (prepare d.root wipe).run j₀ with ⟨e | a, j₁⟩
  · rw [Sys.run_bind_error hprep] at h
    cases h
    exact absurd rfl (raises_prepare _ _ j₀ _ (by rw [hprep]) msg)
  rw [Sys.run_bind_ok hprep] at h
  refine .inr ⟨f, j₀, j₁, hopen, hprep, htree ▸ prepare_prepared hprep, ?_⟩
  unfold Dest.unpackAll at h
  match hgz : openGzip fmt f with
  | .error e =>
    rw [hgz] at h
    cases h
    exact .inl ⟨by simp, rfl⟩
  | .ok gz =>
    rw [hgz] at h
    obtain ⟨before, hdr, after, n, hentries, hpath, hbefore⟩ := unpackFrom_invalid h
    exact .inr ⟨gz, before, hdr, after, n, rfl, hentries, hpath, hbefore⟩

/-- A data directory with one file, and an archive that is none. -/
def badArchive : Tree Name Str :=
  .build
    [([], name "a", ⟨.dir, 0o755, 1000, 1000⟩),
     ([name "a"], name "save", ⟨.file ['1'], 0o644, 1000, 1000⟩),
     ([], name "x.tar.gz", ⟨.file ['x'], 0o644, 0, 0⟩)]

def gzipOnly : TarGz := .only outEvilGz outEvilTar outEvilEntry

def intoA : Dest := ⟨[name "a"], 1000, 1000, true⟩

theorem restore_refused_badArchive :
    LeftByRefusal intoA gzipOnly (fun _ => false) [name "x.tar.gz"] false badArchive
      "the backup is not a gzip archive".toList
      ((restore intoA gzipOnly (fun _ => false) [name "x.tar.gz"] false).run (.of badArchive)).2 :=
  restore_refused _ _ _ _ _ _ _ _ (Prod.ext (by decide +kernel) rfl)

/-- With `wipe` the file is gone although the archive was refused. -/
theorem restore_wipes_before_refusing :
    ¬ ∀ (fmt : TarGz) (ctx : ℕ → Bool) (d : Dest) (archive : Path) (wipe : Bool) (R : Loc Name)
      (t : Tree Name Str) (msg : Str) (j' : Journal Name Str), t.DirAt d.root R →
        (restore d fmt ctx archive wipe).run (.of t) = (.error (.other (.invalid msg)), j') →
          ∀ l, R <+: l → j'.tree.node l = t.node l := by
  intro h
  have hdir : badArchive.DirAt [name "a"] [name "a"] := by
    constructor <;> decide
  have hrun : ((restore intoA gzipOnly (fun _ => false) [name "x.tar.gz"] true).run
      (.of badArchive)).1 =
        .error (.other (.invalid "the backup is not a gzip archive".toList)) := by
    decide +kernel
  have hkept := h gzipOnly (fun _ => false) intoA [name "x.tar.gz"] true [name "a"] badArchive _ _
    hdir (Prod.ext hrun rfl) [name "a", name "save"] (by decide)
  exact absurd (congrArg Option.isSome hkept) (by decide +kernel)

end Backups
