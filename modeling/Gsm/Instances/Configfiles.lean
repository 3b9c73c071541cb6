import Gsm.GoStd.Os
import Gsm.GoStd.Path

/-!
# Config files of an instance

`ApplyConfigFile` (`internal/instances/configfiles.go`) writes the settings of a template into the
files of an instance. Its own check is on the written path; the calls after it follow links.
`staysIn_applyConfigFile` says what of the tree each of them depends on.
-/

open Posix GoStd

namespace Instances

/-- The settings of one file: a Go map. -/
abbrev Values := List (Str × Str)

/-- The merges of the six formats: the new text from the old one and the wanted values. -/
structure Merges where
  properties : Str → Values → Str
  json : Str → Values → Except Str Str
  ini : Str → Values → Str
  yaml : Str → Values → Except Str Str
  xmlProperties : Str → Values → Str
  sourceCfg : Str → Values → Str

structure ConfigFileSpec where
  path : Str
  format : Str
  values : Values

inductive ConfigError where
  /-- `config file %q escapes the instance` -/
  | escapes (path : Str)
  /-- `unknown config file format %q` -/
  | unknownFormat (format : Str)
  /-- `%s: %w` -/
  | merge (path : Str) (e : Str)
deriving DecidableEq

/-- Where `ApplyConfigFile` takes a spec's path to lie, if its check lets it pass. -/
def configPath (root : Path) (specPath : Str) : Option Path :=
  if hasDotDot specPath then none
  else
    let path := root ++ clean specPath
    if (render root ++ ['/']).isPrefixOf (render path) then some path else none

def mergeConfig (m : Merges) (spec : ConfigFileSpec) (existing : Str) : Except ConfigError Str :=
  if spec.format = "properties".toList then .ok (m.properties existing spec.values)
  else if spec.format = "json".toList then
    (m.json existing spec.values).mapError (.merge spec.path)
  else if spec.format = "ini".toList then .ok (m.ini existing spec.values)
  else if spec.format = "yaml".toList then
    (m.yaml existing spec.values).mapError (.merge spec.path)
  else if spec.format = "xml-properties".toList then .ok (m.xmlProperties existing spec.values)
  else if spec.format = "source-cfg".toList then .ok (m.sourceCfg existing spec.values)
  else .error (.unknownFormat spec.format)

/-- What `os.ReadFile` gave, a missing file being an empty one. -/
def orEmpty : Except (Failure ConfigError) Str → Sys Name Str ConfigError Str
  | .ok text => pure text
  | .error (.errno .noent) => pure []
  | .error e => Sys.throw e

def readExisting (path : Path) : Sys Name Str ConfigError Str :=
  if hasNul path then Sys.throw (.errno .inval)
  else do orEmpty (← (Sys.readAll path).attempt)

/-- The writing, with the directory there. -/
def writeInDir (path : Path) (out : Str) (uid gid : ℕ) : Sys Name Str ConfigError Unit := do
  let _ ← (Sys.chown path.dropLast uid gid).attempt
  writeFile path out 0o644
  Sys.chown path uid gid

/-- The part of `ApplyConfigFile` behind its check. -/
def applyAt (m : Merges) (path : Path) (spec : ConfigFileSpec) (uid gid : ℕ) :
    Sys Name Str ConfigError Unit := do
  let existing ← readExisting path
  match mergeConfig m spec existing with
  | .error e => Sys.throw (.other e)
  | .ok out =>
      mkdirAll path.dropLast 0o755
      writeInDir path out uid gid

def applyConfigFile (m : Merges) (root : Path) (spec : ConfigFileSpec) (uid gid : ℕ) :
    Sys Name Str ConfigError Unit :=
  match configPath root spec.path with
  | none => Sys.throw (.other (.escapes spec.path))
  | some path => applyAt m path spec uid gid

/-! ## Reading -/

/-- The text `ApplyConfigFile` starts from, where it gets past reading it. -/
def existingText (t : Tree Name Str) (path : Path) : Option Str :=
  if hasNul path then none
  else
    match t.stat path with
    | .found l =>
        match (t.node l).map Node.kind with
        | some (.file text) => some text
        | _ => none
    | .absent _ _ => some []
    | .fail .noent => some []
    | .fail _ => none

variable {j : Journal Name Str} {path : Path} {R : Loc Name}

/-- Reading gives that text and leaves the tree alone, or fails. -/
theorem run_readExisting (j : Journal Name Str) (path : Path) :
    ∃ j', j'.tree = j.tree ∧
      match existingText j.tree path with
      | some text => (readExisting path).run j = (.ok text, j')
      | none => ∃ e, (readExisting path).run j = (.error e, j') := by
  unfold readExisting existingText
  by_cases hnul : hasNul path
  · rw [if_pos hnul, if_pos hnul]
    exact ⟨j, rfl, _, rfl⟩
  rw [if_neg hnul, if_neg hnul]
  have hfail {e : Errno} (he : e ≠ .noent) (j' : Journal Name Str) :
      (orEmpty (.error (.errno e))).run j' = (.error (.errno e), j') := by
    cases e <;> first | exact absurd rfl he | rfl
  match hs : j.tree.stat path with
  | .found l =>
    refine ⟨j.read l, rfl, ?_⟩
    obtain ⟨s, hl, -⟩ := Tree.stat_found hs
    obtain ⟨nd, hn, -⟩ := Option.map_eq_some_iff.mp hl
    by_cases hk : ∃ text, nd.kind = .file text
    · obtain ⟨text, hk⟩ := hk
      simp [hn, hk, orEmpty, Sys.run_bind, Sys.run_readAll_file hs hn hk]
    · push Not at hk
      obtain ⟨e, he, hrun⟩ := Sys.run_readAll_not_file (μ := ConfigError) hs hn hk
      have hnone : (match (j.tree.node l).map Node.kind with
          | some (.file text) => some text
          | _ => none) = none := by
        rw [hn]
        split
        · next text h => exact absurd (Option.some.inj h) (hk text)
        · rfl
      simp only [hnone]
      exact ⟨.errno e, by simp [Sys.run_bind, hrun, hfail he]⟩
  | .absent d n => exact ⟨j, rfl, by simp [orEmpty, Sys.run_bind, Sys.run_readAll_absent hs]⟩
  | .fail e =>
    by_cases he : e = .noent
    · subst he
      exact ⟨j, rfl, by simp [orEmpty, Sys.run_bind, Sys.run_readAll_fail hs]⟩
    · refine ⟨j, rfl, ?_⟩
      have hrun : ((Sys.readAll path).attempt >>= orEmpty).run j = (.error (.errno e), j) := by
        simp [Sys.run_bind, Sys.run_readAll_fail hs, hfail he]
      cases e <;> first | exact absurd rfl he | exact ⟨_, hrun⟩

theorem staysIn_readExisting {acts : Act → Prop} (hr : acts .read) :
    (readExisting path).StaysIn acts R j ↔
      (hasNul path = false → ∀ l, j.tree.stat path = .found l → R <+: l) := by
  unfold readExisting
  by_cases hnul : hasNul path
  · rw [if_pos hnul]
    simp [hnul]
  · have hrest (r : Except (Failure ConfigError) Str) (j : Journal Name Str) :
        (orEmpty r).StaysIn acts R j := by
      unfold orEmpty
      split <;> simp
    rw [if_neg hnul, Sys.staysIn_bind, Sys.staysIn_attempt, Sys.staysIn_readAll]
    simp [hnul, hr, hrest]

/-! ## Writing -/

/-- `ApplyConfigFile` gets as far as writing. -/
def Proceeds (m : Merges) (spec : ConfigFileSpec) (t : Tree Name Str) (path : Path) : Prop :=
  ∃ text out, existingText t path = some text ∧ mergeConfig m spec text = .ok out

/-- What `ApplyConfigFile` would reach on this tree lies at or below `R`. -/
structure ReachesInside (m : Merges) (spec : ConfigFileSpec) (t : Tree Name Str) (path : Path)
    (R : Loc Name) : Prop where
  /-- the file that is read -/
  read : hasNul path = false → ∀ l, t.stat path = .found l → R <+: l
  /-- its directory, handed to the owner -/
  dir : Proceeds m spec t path → ∀ d, t.DirAt path.dropLast d → R <+: d
  /-- the first of the directories that are made -/
  made : Proceeds m spec t path → t.MakesInside R path.dropLast
  /-- the file that is created -/
  created : Proceeds m spec t path → ∀ d n, t.stat path = .absent d n → R <+: d ++ [n]

variable {out : Str} {uid gid : ℕ}

/-- With its directory there, the file is handed over with it and written where it is found. -/
theorem staysIn_writeInDir {D : Loc Name} (hD : j.tree.DirAt path.dropLast D) :
    (writeInDir path out uid gid).StaysIn (fun _ => True) R j ↔
      R <+: D ∧ ∀ l, j.tree.openTarget path = some l → R <+: l := by
  have htarget := Sys.openTarget_chown (μ := ConfigError) uid gid j path.dropLast
  have hdir : (∀ l, j.tree.stat path.dropLast = .found l → R <+: l) ↔ R <+: D := by
    simp [hD.1]
  rw [writeInDir, Sys.staysIn_bind_ok (Sys.run_attempt _ _), Sys.staysIn_attempt, Sys.chown,
    Sys.staysIn_touch]
  simp only [true_imp_iff, hdir]
  refine and_congr_right fun _ => ?_
  rw [← htarget path, ← Sys.chown]
  generalize ((Sys.chown (μ := ConfigError) path.dropLast uid gid).run j).2 = j'
  rw [Sys.staysIn_bind, writeFile, Sys.staysIn_overwrite trivial trivial]
  refine and_iff_left_of_imp fun hin a j'' hw => ?_
  -- the file that was just written is the one handed over
  match ht : j'.tree.openTarget path with
  | none =>
    obtain ⟨e, he⟩ := Sys.run_overwrite_none (μ := ConfigError) 0o644 out ht
    rw [he] at hw
    cases hw
  | some l =>
    obtain ⟨j₁, hrun₁, hstat, -⟩ := Sys.run_overwrite (μ := ConfigError) 0o644 out ht
    rw [hrun₁] at hw
    cases hw
    rw [Sys.chown, Sys.staysIn_touch, hstat]
    simpa using hin l ht

theorem staysIn_mkdirAll_writeInDir :
    (do mkdirAll path.dropLast 0o755; writeInDir path out uid gid).StaysIn
        (fun _ => True) R j ↔
      j.tree.MakesInside R path.dropLast ∧
      ∀ D, j.tree.DirAt path.dropLast D →
        R <+: D ∧ ∀ l, j.tree.openTarget path = some l → R <+: l := by
  rw [Sys.staysIn_bind, staysIn_mkdirAll]
  simp only [true_imp_iff]
  refine and_congr_right fun hmade => ?_
  rcases mkdirAll_cases (μ := ConfigError) j path.dropLast 0o755 with
    ⟨D, hD⟩ | ⟨q, c, rest, d, hpath, hq, hc⟩ | ⟨e, he⟩
  · rw [mkdirAll_present hD]
    constructor
    · intro h D' hD'
      rw [← hD.unique hD']
      exact (staysIn_writeInDir hD).mp (h () j rfl)
    · rintro h _ _ hrun
      cases hrun
      exact (staysIn_writeInDir hD).mpr (h D hD)
  · have hno (D : Loc Name) : ¬ j.tree.DirAt path.dropLast D := fun hD => by
      rw [hpath] at hD
      exact hq.stat_missing hc rest D hD.1
    obtain ⟨init, n, rfl⟩ : ∃ init n, path = init ++ [n] := by
      rcases List.eq_nil_or_concat path with rfl | ⟨init, n, rfl⟩
      · simp at hpath
      · exact ⟨init, n, by simp⟩
    rw [List.dropLast_concat] at hpath hno ⊢
    subst hpath
    have hin : R <+: d ++ c :: rest :=
      (hmade q c rest d (List.dropLast_concat ..) hq hc).trans (by simp)
    rw [mkdirAll_missing hq hc]
    refine iff_of_true ?_ fun D hD => absurd hD (hno D)
    rintro _ _ hrun
    cases hrun
    rw [staysIn_writeInDir (D := d ++ c :: rest)
      (by rw [List.dropLast_concat]; exact Journal.dirAt_makeDirs none _ hq hc rest),
      Journal.openTarget_makeDirs none 0o755 hq hc]
    exact ⟨hin, fun l hl => Option.some.inj hl ▸ hin.trans (List.prefix_append _ _)⟩
  · have hno (D : Loc Name) : ¬ j.tree.DirAt path.dropLast D := fun hD => by
      rw [mkdirAll_present hD] at he
      cases he
    rw [he]
    exact iff_of_true (by simp) fun D hD => absurd hD (hno D)

/-- Behind its check, `ApplyConfigFile` accesses what `ReachesInside` lists and nothing else. -/
theorem staysIn_applyAt {m : Merges} {spec : ConfigFileSpec} {t : Tree Name Str} :
    (applyAt m path spec uid gid).StaysIn (fun _ => True) R (.of t) ↔
      ReachesInside m spec t path R := by
  obtain ⟨j', htree, hrun⟩ := run_readExisting (.of t) path
  rw [Journal.of_tree] at htree hrun
  rw [applyAt, Sys.staysIn_bind, staysIn_readExisting trivial]
  match htext : existingText t path with
  | none =>
    rw [htext] at hrun
    obtain ⟨e, he⟩ := hrun
    have hno : ¬ Proceeds m spec t path := by rintro ⟨text, out, h, -⟩; simp [htext] at h
    rw [he]
    exact ⟨fun h => ⟨h.1, fun h => absurd h hno, fun h => absurd h hno, fun h => absurd h hno⟩,
      fun h => ⟨h.read, by simp⟩⟩
  | some text =>
    rw [htext] at hrun
    simp only at hrun
    rw [hrun]
    simp only [Prod.mk.injEq, Except.ok.injEq, and_imp, forall_eq', forall_apply_eq_imp_iff]
    match hmerge : mergeConfig m spec text with
    | .error e =>
      have hno : ¬ Proceeds m spec t path := by
        rintro ⟨text', out, h, h'⟩
        rw [htext] at h
        cases h
        simp [hmerge] at h'
      exact ⟨fun h => ⟨h.1, fun h => absurd h hno, fun h => absurd h hno, fun h => absurd h hno⟩,
        fun h => ⟨h.read, by simp⟩⟩
    | .ok out =>
      have hgo : Proceeds m spec t path := ⟨text, out, htext, hmerge⟩
      have hnul : hasNul path = false := by
        by_contra hnul
        simp [existingText, hnul] at htext
      simp only [staysIn_mkdirAll_writeInDir, htree]
      constructor
      · rintro ⟨hread, hmade, hin⟩
        refine ⟨hread, fun _ d hd => (hin d hd).1, fun _ => hmade, fun _ d n hs => ?_⟩
        -- a file can only be made in a directory that is there
        rcases List.eq_nil_or_concat path with rfl | ⟨init, c, rfl⟩
        · simp at hs
        · rw [List.concat_eq_append] at hs hin
          obtain ⟨D, hD⟩ := Tree.dirAt_of_stat_concat (t := t) (p := init) (c := c) (by simp [hs])
          rw [List.dropLast_concat] at hin
          exact (hin D hD).2 _ (by rw [Tree.openTarget, hs])
      · intro h
        refine ⟨h.read, h.made hgo, fun D hD => ⟨h.dir hgo D hD, fun l hl => ?_⟩⟩
        unfold Tree.openTarget at hl
        split at hl
        · next l' hs =>
          split at hl <;> cases hl
          exact h.read hnul l hs
        · next d n hs =>
          cases hl
          exact h.created hgo d n hs
        · cases hl

/-! ## Where `ApplyConfigFile` stays -/

/-- `ApplyConfigFile` stays at or below the instance's directory exactly when, on the tree it is
started on, everything its calls would reach lies there. -/
theorem applyConfigFile_confined_iff (m : Merges) (root : Path) (spec : ConfigFileSpec)
    (uid gid : ℕ) (t : Tree Name Str) (R : Loc Name) :
    (applyConfigFile m root spec uid gid).Confined R t ↔
      ∀ path, configPath root spec.path = some path → ReachesInside m spec t path R := by
  rw [Sys.confined_iff, applyConfigFile]
  match configPath root spec.path with
  | none => simp
  | some path => simp [staysIn_applyAt]

/-- A link in the data directory, `cfg`, that leads to a file outside. -/
def linkedTree : Tree Name Str :=
  .build
    [([], name "data", ⟨.dir, 0o755, 0, 0⟩),
     ([], name "passwd", ⟨.file [], 0o644, 0, 0⟩),
     ([name "data"], name "cfg", ⟨.link ⟨true, [.name (name "passwd")]⟩, 0o777, 1000, 1000⟩)]

theorem applyConfigFile_follows_link :
    ¬ ∀ (m : Merges) (root : Path) (spec : ConfigFileSpec) (uid gid : ℕ) (t : Tree Name Str)
      (R : Loc Name), t.DirAt root R → (configPath root spec.path).isSome →
        (applyConfigFile m root spec uid gid).Confined R t := by
  intro h
  have hin := h ⟨fun s _ => s, fun s _ => .ok s, fun s _ => s, fun s _ => .ok s, fun s _ => s,
    fun s _ => s⟩ [name "data"] ⟨"cfg".toList, "properties".toList, []⟩ 1000 1000 linkedTree
    [name "data"] (by constructor <;> decide) (by decide)
  rw [Sys.confined_iff, applyConfigFile,
    show configPath [name "data"] "cfg".toList = some [name "data", name "cfg"] by decide] at hin
  have hread := (staysIn_applyAt.mp hin).read (by decide) [name "passwd"] (by decide)
  exact absurd hread (by decide)

-- the equations that later modules rewrite with, stated here once
attribute [local simp] Instances.applyAt Instances.applyConfigFile Instances.writeInDir

end Instances
