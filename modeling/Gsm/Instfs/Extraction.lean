import Gsm.Instfs.Confinement

/-!
# Where `Extract` writes

`target` compares names, while directories and files are made through the kernel. Each result here
says exactly when a step of the extraction keeps to a directory `R`: in the tree the step finds,
every directory it makes, every file it opens and every node it hands over lies at or below `R`. Up
to `extract_stays_iff`, which says it of the whole extraction, the steps are taken in the order of
the archive's entries.
-/

open Posix GoStd

namespace Instfs

variable {f : FS} {t : Tree Name Str} {R l : Loc Name} {j j' : Journal Name Str} {p : Path}
  {n : Name} {r : Body} {budget : ℕ}

/-! ## Directories -/

/-- What `mkdirAllOwned` makes or hands over on the way to `p` is inside. -/
structure MakesInside (f : FS) (t : Tree Name Str) (R : Loc Name) (p : Path) : Prop where
  /-- the first directory that is missing -/
  made : t.MakesInside R p
  /-- a link that leads nowhere, in the way of the next one -/
  handed : f.chown → ∀ q c rest d, p = q ++ c :: rest → t.DirAt q d → t.look (d ++ [c]) ≠ none →
    (∀ l, t.stat (q ++ [c]) ≠ .found l) → R <+: d ++ [c]

theorem staysIn_mkdirAllOwned :
    (f.mkdirAllOwned p).StaysIn Act.touches R j ↔ MakesInside f j.tree R p := by
  have hown : f.own.isSome = f.chown := by
    unfold FS.own
    split <;> simp_all
  have htouch : Act.chown.touches := .inr (.inr rfl)
  constructor
  · intro h
    constructor
    · rintro q c rest d rfl hq hc
      rw [Sys.StaysIn, mkdirAllOwned_missing hq hc, Journal.stays_makeDirs] at h
      exact h.1 (.inl rfl)
    · rintro howned q c rest d rfl hq hc hno
      cases rest with
      | nil =>
        rw [Sys.StaysIn, mkdirAllOwned_blocked hq hc hno, Journal.stays_give] at h
        exact h (hown ▸ howned) htouch
      | cons b rest =>
        obtain ⟨e, he⟩ := mkdirAllOwned_blocked_cons (f := f) hq hc hno b rest
        rw [Sys.StaysIn, he, Journal.stays_give] at h
        exact h (hown ▸ howned) htouch
  · intro h
    rcases mkdirAllOwned_cases f j p with ⟨l, hl⟩ | ⟨q, c, rest, d, rfl, hq, hc⟩ |
      ⟨q, c, rest, d, rfl, hq, hc, hno⟩ | ⟨e, he⟩
    · rw [Sys.StaysIn, mkdirAllOwned_present hl]
    · rw [Sys.StaysIn, mkdirAllOwned_missing hq hc, Journal.stays_makeDirs]
      have hin := h.made q c rest d rfl hq hc
      exact ⟨fun _ => hin, fun _ _ => hin⟩
    · have hgive : j.Stays Act.touches R (j.give f.own (d ++ [c])) :=
        Journal.stays_give.mpr fun howned _ => h.handed (hown ▸ howned) q c rest d rfl hq hc hno
      cases rest with
      | nil => rwa [Sys.StaysIn, mkdirAllOwned_blocked hq hc hno]
      | cons b rest =>
        obtain ⟨e, he⟩ := mkdirAllOwned_blocked_cons (f := f) hq hc hno b rest
        rwa [Sys.StaysIn, he]
    · rw [Sys.StaysIn, he]

theorem staysIn_mkdirEntry :
    (f.mkdirEntry p).StaysIn Act.touches R j ↔ MakesInside f j.tree R (soundPart p) := by
  rw [FS.mkdirEntry, Sys.staysIn_bind, staysIn_mkdirAllOwned]
  refine and_iff_left_of_imp fun _ a j' _ => ?_
  split
  · exact Sys.staysIn_throw _
  · exact Sys.staysIn_pure _

theorem run_mkdirEntry (h : hasNul p = false) :
    (f.mkdirEntry p).run j = (f.mkdirAllOwned p).run j := by
  rw [FS.mkdirEntry, soundPart_eq h, Sys.run_bind, h]
  rcases hrun : (f.mkdirAllOwned p).run j with ⟨e | a, j'⟩ <;> rfl

/-! ## Files -/

/-- All of the body comes, and it is within the budget. -/
def Fits (r : Body) (budget : ℕ) : Prop := r.data.length ≤ budget ∧ r.err = none

theorem copyErr_of_le (h : r.data.length ≤ budget) : copyErr r (budget + 1) = r.err :=
  if_pos (.inl (Nat.lt_succ_of_le h))

theorem staysIn_finishEntry (hl : j.tree.lstat p = .found l) :
    (f.finishEntry p (r.data.take (budget + 1)) (copyErr r (budget + 1)) budget).StaysIn Act.touches R j ↔
      (f.chown ∧ Fits r budget → R <+: l) := by
  have hlen : (r.data.take (budget + 1)).length > budget ↔ ¬ r.data.length ≤ budget := by
    rw [List.length_take]
    omega
  unfold FS.finishEntry Fits
  by_cases hfit : r.data.length ≤ budget
  · have hshort : ¬ (r.data.take (budget + 1)).length > budget := fun h => hlen.mp h hfit
    rw [copyErr_of_le hfit]
    match r.err with
    | some e => simp
    | none =>
      dsimp only
      rw [if_neg hshort, Sys.staysIn_bind_ok (run_giveAway hl), Sys.StaysIn, run_giveAway hl, Journal.stays_give]
      have htouch : Act.chown.touches := .inr (.inr rfl)
      by_cases hc : f.chown <;> simp [FS.own, hc, hfit, htouch]
  · match copyErr r (budget + 1) with
    | some e => exact iff_of_true (Sys.staysIn_throw _) fun h => absurd h.2.1 hfit
    | none =>
      dsimp only
      rw [if_pos (hlen.mpr hfit), Sys.staysIn_bind]
      refine iff_of_true ⟨?_, fun _ _ _ => Sys.staysIn_throw _⟩ fun h => absurd h.2.1 hfit
      exact Sys.staysIn_unlink fun h => absurd h (by decide)

/-- Once its directory was made, a file opens inside exactly when it did before: a directory that
had to be made is empty. -/
theorem opensInside_mkdirAllOwned {handed : Prop} (hmade : MakesInside f j.tree R p) :
    (∀ a j', (f.mkdirAllOwned p).run j = (.ok a, j') →
        j'.tree.OpensInside R (p ++ [n]) handed) ↔ j.tree.OpensInside R (p ++ [n]) handed := by
  by_cases hD : ∃ d, j.tree.DirAt p d
  · obtain ⟨d, hd⟩ := hD
    rw [mkdirAllOwned_present hd.1]
    simp
  · push Not at hD
    have hnone := Tree.openTarget_of_not_dir (c := n) hD
    refine iff_of_true (fun a j' hrun => ?_) (Tree.opensInside_of_none hnone)
    rcases mkdirAllOwned_cases f j p with ⟨l, hl⟩ | ⟨q, c, rest, d, rfl, hq, hc⟩ |
      ⟨q, c, rest, d, rfl, hq, hc, hno⟩ | ⟨e, he⟩
    · rw [mkdirAllOwned_present hl] at hrun
      cases hrun
      exact Tree.opensInside_of_none hnone
    · rw [mkdirAllOwned_missing hq hc] at hrun
      cases hrun
      exact Journal.opensInside_makeDirs f.own 0o755 hq hc (hmade.made q c rest d rfl hq hc)
    · have hblocked (d' : Loc Name) : ¬ j'.tree.DirAt (q ++ c :: rest) d' := by
        cases rest with
        | nil =>
          rw [mkdirAllOwned_blocked hq hc hno] at hrun
          cases hrun
          exact fun hd' => hno d' (Journal.stat_give.symm.trans hd'.1)
        | cons b rest =>
          obtain ⟨e, he⟩ := mkdirAllOwned_blocked_cons (f := f) hq hc hno b rest
          rw [he] at hrun
          cases hrun
      exact Tree.opensInside_of_none (Tree.openTarget_of_not_dir hblocked)
    · rw [he] at hrun
      cases hrun

/-- What `writeEntry` does for a file keeps inside. -/
structure WritesInside (f : FS) (t : Tree Name Str) (R : Loc Name) (p : Path) (r : Body)
    (budget : ℕ) : Prop where
  dir : MakesInside f t R (soundPart p.dropLast)
  file : hasNul p = false → t.OpensInside R p (f.chown ∧ Fits r budget)

theorem staysIn_writeEntry {mode : ℕ} :
    (f.writeEntry p r mode budget).StaysIn Act.touches R j ↔
      (budget ≠ 0 → WritesInside f j.tree R p r budget) := by
  unfold FS.writeEntry
  by_cases hb : budget = 0
  · simp [hb]
  rw [if_neg hb, Sys.staysIn_bind, staysIn_mkdirEntry]
  simp only [ne_eq, hb, not_false_eq_true, true_imp_iff]
  refine Iff.trans (and_congr_right fun hdir => ?_) ⟨fun h => ⟨h.1, h.2⟩, fun h => ⟨h.dir, h.file⟩⟩
  by_cases hn : hasNul p
  · simp [hn]
  have hn : hasNul p = false := by simpa using hn
  simp only [hn, true_imp_iff, Bool.false_eq_true, if_false, run_mkdirEntry (hasNul_dropLast hn),
    Sys.staysIn_overwrite_bind (.inr (.inl rfl)) (.inl rfl) fun _ _ => staysIn_finishEntry]
  rw [soundPart_eq (hasNul_dropLast hn)] at hdir
  rcases List.eq_nil_or_concat p with rfl | ⟨q, n, rfl⟩
  · -- the root is no file
    have hroot (t : Tree Name Str) : t.OpensInside R [] (f.chown ∧ Fits r budget) :=
      Tree.opensInside_of_none Tree.openTarget_root
    exact iff_of_true (fun _ _ _ => hroot _) (hroot _)
  · rw [List.concat_eq_append] at hdir ⊢
    rw [List.dropLast_concat] at hdir ⊢
    exact opensInside_mkdirAllOwned hdir

/-! ## The loop over the entries -/

/-- Each entry that is reached keeps inside, in the tree that the entries before it have left. -/
def FS.EntriesInside (f : FS) (ctx : Context) (dst : Path) (R : Loc Name) (i total : ℕ)
    (j : Journal Name Str) : List Entry → Prop
  | [] => True
  | e :: more =>
      ctx i = false → ∀ p, target dst e.name = .ok p →
        match e.kind with
        | .dir =>
            MakesInside f j.tree R (soundPart p) ∧
              ∀ a j', (f.mkdirEntry p).run j = (.ok a, j') →
                f.EntriesInside ctx dst R (i + 1) total j' more
        | .file r mode =>
            (maxExtractBytes - total ≠ 0 →
              WritesInside f j.tree R p r (maxExtractBytes - total)) ∧
              ∀ written j', (f.writeEntry p r mode (maxExtractBytes - total)).run j =
                (.ok written, j') → f.EntriesInside ctx dst R (i + 1) (total + written) j' more
        | .unreadable _ => True
        | .skipped => f.EntriesInside ctx dst R (i + 1) total j more

theorem staysIn_unpackFrom {ctx : Context} {dst : Path} {done : ℕ → ℕ → Prog ℕ}
    (hdone : ∀ i n, (done i n).ReadsOnly) (entries : List Entry) (i total n : ℕ) :
    (f.unpackFrom ctx dst done i total n entries).StaysIn Act.touches R j ↔
      f.EntriesInside ctx dst R i total j entries := by
  have htouch (a : Act) (h : a.touches) : a.changes := by
    rcases h with rfl | rfl | rfl <;> decide
  induction entries generalizing i total n j with
  | nil =>
    obtain ⟨new, hlog, hread⟩ := (hdone i n j).log
    exact iff_of_true ⟨new, hlog, fun a ha h => absurd (hread a ha) (htouch _ h)⟩ trivial
  | cons e more ih =>
    rw [FS.unpackFrom, FS.EntriesInside]
    by_cases hctx : ctx i
    · simp [hctx]
    have hctx : ctx i = false := by simpa using hctx
    simp only [hctx, Bool.false_eq_true, if_false, true_imp_iff]
    cases htarget : target dst e.name with
    | error err => simp
    | ok p =>
      simp only [Except.ok.injEq, forall_eq']
      cases hkind : e.kind with
      | dir =>
        simp only [Sys.staysIn_bind, staysIn_mkdirEntry, ih]
      | file r mode =>
        simp only [Sys.staysIn_bind, staysIn_writeEntry, ih]
      | unreadable err => simp
      | skipped => exact ih (i + 1) total n

/-! ## The whole extraction -/

variable (lib : Lib) (fmts : Formats) (ctx : Context)

/-- The entries of the archive `src`, whose name says what it is. -/
def entriesOf (src c : Path) : Prog (List Entry) :=
  let name := lib.toLower (text c)
  if ".zip".toList.isSuffixOf name then do
    let files ← readZip fmts src
    pure (files.map ZipEntry.entry)
  else if ".tar.gz".toList.isSuffixOf name ∨ ".tgz".toList.isSuffixOf name then do
    let tr ← readTar fmts src true
    pure (tr.entries.map TarEntry.entry)
  else if ".tar".toList.isSuffixOf name then do
    let tr ← readTar fmts src false
    pure (tr.entries.map TarEntry.entry)
  else Sys.throw (invalid "not an archive the agent can unpack: " (text c))

theorem staysIn_readZip {src : Path} : (readZip fmts src).StaysIn Act.touches R j := by
  refine Sys.staysIn_bind.mpr ⟨Sys.staysIn_readAll.mpr fun h => absurd h (by decide), ?_⟩
  intro bytes j' _
  split
  · exact Sys.staysIn_throw _
  · split <;> simp

theorem staysIn_readTar {src : Path} {gz : Bool} :
    (readTar fmts src gz).StaysIn Act.touches R j := by
  refine Sys.staysIn_bind.mpr ⟨Sys.staysIn_readAll.mpr fun h => absurd h (by decide), ?_⟩
  intro bytes j' _
  split <;> simp

theorem readsOnly_endOfTar {err : Option Str} {i n : ℕ} : (endOfTar ctx err i n).ReadsOnly := by
  unfold endOfTar
  split
  · exact Sys.readsOnly_throw _
  · split
    · exact Sys.readsOnly_pure _
    · exact Sys.readsOnly_throw _

theorem staysIn_extractZip {src dst : Path} :
    (f.extractZip fmts ctx src dst).StaysIn Act.touches R j ↔
      ∀ files j', (readZip fmts src).run j = (.ok files, j') →
        f.EntriesInside ctx dst R 0 0 j' (files.map ZipEntry.entry) := by
  rw [FS.extractZip, Sys.staysIn_bind]
  simp only [staysIn_readZip, true_and,
    staysIn_unpackFrom fun _ n => Sys.readsOnly_pure (μ := FsError) n]

theorem staysIn_extractTar {src dst : Path} {gz : Bool} :
    (f.extractTar fmts ctx src dst gz).StaysIn Act.touches R j ↔
      ∀ tr j', (readTar fmts src gz).run j = (.ok tr, j') →
        f.EntriesInside ctx dst R 0 0 j' (tr.entries.map TarEntry.entry) := by
  rw [FS.extractTar, Sys.staysIn_bind]
  simp only [staysIn_readTar, true_and, staysIn_unpackFrom fun _ _ => readsOnly_endOfTar ctx]

/-- Unpacking one archive stays inside when its entries do. -/
theorem staysIn_unpack {src c dst : Path} :
    (let name := lib.toLower (text c)
      if ".zip".toList.isSuffixOf name then f.extractZip fmts ctx src dst
      else if ".tar.gz".toList.isSuffixOf name ∨ ".tgz".toList.isSuffixOf name then
        f.extractTar fmts ctx src dst true
      else if ".tar".toList.isSuffixOf name then f.extractTar fmts ctx src dst false
      else Sys.throw (invalid "not an archive the agent can unpack: " (text c))).StaysIn
        Act.touches R j ↔
      ∀ entries j', (entriesOf lib fmts src c).run j = (.ok entries, j') →
        f.EntriesInside ctx dst R 0 0 j' entries := by
  have hmap {γ : Type} {m : Prog γ} {g : γ → List Entry} {P : Journal Name Str → List Entry → Prop} :
      (∀ a j', m.run j = (.ok a, j') → P j' (g a)) ↔
        ∀ es j', (do let a ← m; pure (g a) : Prog _).run j = (.ok es, j') → P j' es := by
    simp only [Sys.run_bind_eq_ok]
    constructor
    · rintro h es j' ⟨a, j₁, hm, hg⟩
      cases hg
      exact h a _ hm
    · exact fun h a j' hm => h (g a) j' ⟨a, j', hm, rfl⟩
  unfold entriesOf
  simp only
  split
  · rw [staysIn_extractZip]
    exact hmap (P := fun j' es => f.EntriesInside ctx dst R 0 0 j' es)
  split
  · rw [staysIn_extractTar]
    exact hmap (P := fun j' es => f.EntriesInside ctx dst R 0 0 j' es)
  split
  · rw [staysIn_extractTar]
    exact hmap (P := fun j' es => f.EntriesInside ctx dst R 0 0 j' es)
  · simp

def outEvilFormats : Formats where
  toTarGz := .only outEvilGz outEvilTar outEvilEntry
  openZip _ := .error "zip: not a valid zip file".toList
  packZip _ := .ok []
  packTarGz _ := .ok []

end Instfs
