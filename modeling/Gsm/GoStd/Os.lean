import Gsm.Posix.Dirs

/-!
# Go's `os` and `path/filepath` over the system calls

The functions of the standard library that the agent uses, with their documented behaviour, and for
`MkdirAll` the three ways it can go: the directory is there, a tail of the path is missing and gets
made, or something stands in the way and nothing changes.
-/

open Posix

namespace GoStd

variable {α β μ : Type}

/-- `fs.FileMode.Perm` -/
def perm (mode : ℕ) : ℕ := mode % 0o1000

/-- `filepath.EvalSymlinks` gives up after this many links. -/
def evalLinks : ℕ := 255

/-- `filepath.EvalSymlinks`. -/
def evalSymlinks (t : Tree α β) (p : List α) : Except Errno (Loc α) :=
  match walk t.look true evalLinks [] (p.map .name) with
  | .found l => .ok l
  | .absent _ _ => .error .noent
  | .fail e => .error e

theorem evalSymlinks_eq_ok {t : Tree α β} {p : List α} {l : Loc α} :
    evalSymlinks t p = .ok l ↔ walk t.look true evalLinks [] (p.map .name) = .found l := by
  unfold evalSymlinks
  split <;> simp_all

/-- What the kernel finds, `EvalSymlinks` finds: it follows more links. -/
theorem evalSymlinks_of_stat {t : Tree α β} {p : List α} {l : Loc α} (h : t.stat p = .found l) :
    evalSymlinks t p = .ok l := by
  have hmore : walk t.look true (maxLinks + (evalLinks - maxLinks)) [] (p.map .name) = _ :=
    walk_more (evalLinks - maxLinks) maxLinks [] (p.map .name) (by rw [show walk _ _ _ _ _ = t.stat p from rfl, h]; simp)
  rw [evalSymlinks_eq_ok, ← h]
  exact hmore

theorem evalSymlinks_congr {t t' : Tree α β} (h : t.look = t'.look) (p : List α) :
    evalSymlinks t p = evalSymlinks t' p := by rw [evalSymlinks, evalSymlinks, h]

/-- Below a free name `EvalSymlinks` finds nothing. -/
theorem evalSymlinks_missing {t : Tree α β} {p : List α} {c : α} {d : Loc α} (h : t.DirAt p d)
    (hc : t.look (d ++ [c]) = none) (rest : List α) (l : Loc α) :
    evalSymlinks t (p ++ c :: rest) ≠ .ok l := by
  have hp := evalSymlinks_eq_ok.mp (evalSymlinks_of_stat h.1)
  induction rest using List.reverseRecOn generalizing l with
  | nil =>
    rw [ne_eq, evalSymlinks_eq_ok, List.map_append, List.map_singleton,
      walk_concat c _ _ _ (by simp) (by simp [hp, hc]), hp, Walk.enter, h.2]
    simp [hc]
  | append_singleton rest b ih =>
    have happ : p ++ c :: (rest ++ [b]) = p ++ c :: rest ++ [b] := by simp
    have ih (l : Loc α) : walk t.look true evalLinks [] ((p ++ c :: rest).map .name) ≠ .found l :=
      fun hl => ih l (evalSymlinks_eq_ok.mpr hl)
    rw [happ, ne_eq, evalSymlinks_eq_ok, List.map_append, List.map_singleton,
      walk_concat b _ _ _ (by simp) fun _ d' hd' => absurd hd' (ih d')]
    match hs : walk t.look true evalLinks [] ((p ++ c :: rest).map .name) with
    | .found d' => exact absurd hs (ih d')
    | .absent _ _ => simp [Walk.enter]
    | .fail e => simp [Walk.enter]

section

variable [LinearOrder α]

def isDir (nd : Node α β) : Bool := nd.shape = .dir

/-- `os.MkdirAll`, on the components in reverse. -/
def mkdirAllRev (mode : ℕ) : List α → Sys α β μ Unit
  | [] => pure ()
  | c :: up => do
      match ← (Sys.stat (c :: up).reverse).attempt with
      | .ok nd => if isDir nd then pure () else Sys.throw (.errno .notDir)
      | .error _ =>
          mkdirAllRev mode up
          match ← (Sys.mkdir (c :: up).reverse mode).attempt with
          | .ok _ => pure ()
          | .error e =>
              match ← (Sys.lstat (c :: up).reverse).attempt with
              | .ok nd => if isDir nd then pure () else Sys.throw e
              | .error _ => Sys.throw e

/-- `os.MkdirAll`. -/
def mkdirAll (p : List α) (mode : ℕ) : Sys α β μ Unit := mkdirAllRev mode p.reverse

theorem mkdirAll_concat (p : List α) (c : α) (mode : ℕ) :
    (mkdirAll (p ++ [c]) mode : Sys α β μ Unit) = (do
      match ← (Sys.stat (p ++ [c])).attempt with
      | .ok nd => if isDir nd then pure () else Sys.throw (.errno .notDir)
      | .error _ =>
          mkdirAll p mode
          match ← (Sys.mkdir (p ++ [c]) mode).attempt with
          | .ok _ => pure ()
          | .error e =>
              match ← (Sys.lstat (p ++ [c])).attempt with
              | .ok nd => if isDir nd then pure () else Sys.throw e
              | .error _ => Sys.throw e) := by
  have hrev : (p ++ [c]).reverse = c :: p.reverse := by simp
  have hback : (c :: p.reverse).reverse = p ++ [c] := by simp
  rw [mkdirAll, hrev, mkdirAllRev, hback]
  rfl

variable {j : Journal α β} {p q : List α} {d : Loc α} {c : α} {mode : ℕ}

/-- Nothing happens when the directory is there. -/
theorem mkdirAll_present (h : j.tree.DirAt p d) :
    (mkdirAll p mode : Sys α β μ Unit).run j = (.ok (), j) := by
  rcases List.eq_nil_or_concat p with rfl | ⟨q, c, rfl⟩
  · rfl
  · rw [List.concat_eq_append] at h ⊢
    obtain ⟨nd, hnd, hs⟩ := Option.map_eq_some_iff.mp h.2
    rw [mkdirAll_concat, Sys.run_bind, Sys.run_attempt, Sys.run_stat_found h.1 hnd]
    simp [isDir, hs]

/-- A missing tail of the path is made, all of it. -/
theorem mkdirAll_missing (h : j.tree.DirAt q d) (hc : j.tree.look (d ++ [c]) = none)
    (rest : List α) :
    (mkdirAll (q ++ c :: rest) mode : Sys α β μ Unit).run j =
      (.ok (), j.makeDirs none mode d (c :: rest)) := by
  induction rest using List.reverseRecOn with
  | nil =>
    obtain ⟨e, he⟩ := Sys.run_stat_not_found (μ := μ) (h.stat_missing hc [])
    have hl : j.tree.lstat (q ++ [c]) = .absent d c := by rw [h.lstat_concat, hc]; rfl
    rw [mkdirAll_concat, Sys.run_bind, Sys.run_attempt, he]
    simp [Sys.run_bind, mkdirAll_present h, Sys.run_mkdir_absent hl, Journal.makeDirs,
      Journal.give]
  | append_singleton rest b ih =>
    have happ : q ++ c :: (rest ++ [b]) = q ++ c :: rest ++ [b] := by simp
    obtain ⟨e, he⟩ := Sys.run_stat_not_found (μ := μ) (h.stat_missing hc (rest ++ [b]))
    rw [happ] at he ⊢
    have hdir := Journal.dirAt_makeDirs none mode h hc rest
    have hfree := Journal.node_below_makeDirs none mode h.2 hc rest
      (y := [b]) (by simp)
    have hl : (j.makeDirs none mode d (c :: rest)).tree.lstat (q ++ c :: rest ++ [b]) =
        .absent (d ++ c :: rest) b := by
      rw [hdir.lstat_concat, Tree.look_eq_none.mpr hfree]; rfl
    have hchain := Journal.makeDirs_concat none mode j d b (c :: rest)
    rw [mkdirAll_concat, Sys.run_bind_ok (by rw [Sys.run_attempt, he]), Sys.run_bind_ok ih,
      Sys.run_bind_ok (by rw [Sys.run_attempt, Sys.run_mkdir_absent hl])]
    exact congrArg (Prod.mk _) hchain.symm

/-- The three ways it can go. Only a missing tail changes anything. -/
theorem mkdirAll_cases (j : Journal α β) (p : List α) (mode : ℕ) :
    (∃ d, j.tree.DirAt p d) ∨
    (∃ q c rest d, p = q ++ c :: rest ∧ j.tree.DirAt q d ∧ j.tree.look (d ++ [c]) = none) ∨
    ∃ e, (mkdirAll p mode : Sys α β μ Unit).run j = (.error (.errno e), j) := by
  induction p using List.reverseRecOn with
  | nil => exact .inl ⟨[], by simp [Tree.DirAt]⟩
  | append_singleton q c ih =>
    by_cases hs : ∃ l, j.tree.stat (q ++ [c]) = .found l
    · obtain ⟨l, hl⟩ := hs
      obtain ⟨s, hls, hlink⟩ := Tree.stat_found hl
      by_cases hd : s = .dir
      · exact .inl ⟨l, hl, hd ▸ hls⟩
      · obtain ⟨nd, hnd, rfl⟩ := Option.map_eq_some_iff.mp hls
        refine .inr (.inr ⟨.notDir, ?_⟩)
        rw [mkdirAll_concat, Sys.run_bind, Sys.run_attempt, Sys.run_stat_found hl hnd]
        simp [isDir, hd]
    · have hno : ∀ l, j.tree.stat (q ++ [c]) ≠ .found l := fun l hl => hs ⟨l, hl⟩
      obtain ⟨e, he⟩ := Sys.run_stat_not_found (μ := μ) hno
      rcases ih with ⟨d, hq⟩ | ⟨q', c', rest, d, rfl, hq, hc⟩ | ⟨e', hq⟩
      · match hlook : j.tree.look (d ++ [c]) with
        | none => exact .inr (.inl ⟨q, c, [], d, rfl, hq, hlook⟩)
        | some .dir => exact absurd (hq.concat hlook).1 (hno _)
        | some .leaf =>
          refine absurd ?_ (hno (d ++ [c]))
          rw [hq.stat_concat (by simp [hlook]), hlook]
          rfl
        | some (.link g) =>
          -- a link that leads nowhere: it can be neither entered nor made
          have hl : j.tree.lstat (q ++ [c]) = .found (d ++ [c]) := by
            rw [hq.lstat_concat, hlook]; rfl
          obtain ⟨nd, hnd, hshape⟩ := Option.map_eq_some_iff.mp hlook
          refine .inr (.inr ⟨.exist, ?_⟩)
          rw [mkdirAll_concat, Sys.run_bind, Sys.run_attempt, he]
          simp [Sys.run_bind, mkdirAll_present hq, Sys.run_mkdir_found hl,
            Sys.run_lstat_found hl hnd, isDir, hshape]
      · exact .inr (.inl ⟨q', c', rest ++ [c], d, by simp, hq, hc⟩)
      · refine .inr (.inr ⟨e', ?_⟩)
        rw [mkdirAll_concat, Sys.run_bind, Sys.run_attempt, he]
        simp [Sys.run_bind, hq]

/-- Where `MkdirAll` makes directories: nowhere but below the deepest part of the path that is
there. -/
theorem staysIn_mkdirAll {acts : Act → Prop} {R : Loc α} :
    (mkdirAll p mode : Sys α β μ Unit).StaysIn acts R j ↔
      (acts .create → j.tree.MakesInside R p) := by
  constructor
  · rintro h ha q c rest d rfl hq hc
    rw [Sys.StaysIn, mkdirAll_missing hq hc, Journal.stays_makeDirs] at h
    exact h.1 ha
  · intro h
    rcases mkdirAll_cases (μ := μ) j p mode with ⟨d, hd⟩ | ⟨q, c, rest, d, rfl, hq, hc⟩ | ⟨e, he⟩
    · rw [Sys.StaysIn, mkdirAll_present hd]
    · rw [Sys.StaysIn, mkdirAll_missing hq hc, Journal.stays_makeDirs]
      exact ⟨fun ha => h ha q c rest d rfl hq hc, by simp⟩
    · rw [Sys.StaysIn, he]

/-- `os.WriteFile`. -/
def writeFile [EmptyCollection β] (p : List α) (data : β) (mode : ℕ) : Sys α β μ Unit :=
  Sys.overwrite p mode data

/-- `os.CreateTemp`, with the names it comes up with: the first that is free. -/
def createTemp [EmptyCollection β] (dir : List α) : List α → Sys α β μ (List α × Loc α)
  | [] => Sys.throw (.errno .exist)
  | n :: more => do
      match ← (Sys.openExcl (dir ++ [n]) 0o600).attempt with
      | .ok fd => pure (dir ++ [n], fd)
      | .error (.errno .exist) => createTemp dir more
      | .error e => Sys.throw e

/-- A temporary file is a new one, in the directory it was wanted in. -/
theorem createTemp_eq_ok [EmptyCollection β] {names tmp : List α} {fd : Loc α} {j' : Journal α β}
    (h : (createTemp p names : Sys α β μ _).run j = (.ok (tmp, fd), j')) :
    ∃ d n, j.tree.DirAt p d ∧ n ∈ names ∧ j.tree.look (d ++ [n]) = none ∧ tmp = p ++ [n] ∧
      fd = d ++ [n] ∧ j' = j.create d n ⟨.file ∅, 0o600, 0, 0⟩ := by
  induction names with
  | nil => cases h
  | cons n more ih =>
    rw [createTemp, Sys.run_bind, Sys.run_attempt] at h
    match hs : j.tree.lstat (p ++ [n]) with
    | .found l =>
      have hrun : (Sys.openExcl (p ++ [n]) 0o600 : Sys α β μ _).run j =
          (.error (.errno .exist), j) := by simp [Sys.openExcl, Sys.peek, Sys.run_bind, hs]
      rw [hrun] at h
      obtain ⟨d, m, hd, hm, hrest⟩ := ih h
      exact ⟨d, m, hd, List.mem_cons_of_mem _ hm, hrest⟩
    | .absent d m =>
      obtain ⟨hd, rfl, hn⟩ := Tree.lstat_concat_eq_absent.mp hs
      have hrun : (Sys.openExcl (p ++ [m]) 0o600 : Sys α β μ _).run j =
          (.ok (d ++ [m]), j.create d m ⟨.file ∅, 0o600, 0, 0⟩) := by
        simp [Sys.openExcl, Sys.peek, Sys.run_bind, hs]
      rw [hrun] at h
      cases h
      exact ⟨d, m, hd, List.mem_cons_self, hn, rfl, rfl, rfl⟩
    | .fail e =>
      have hrun : (Sys.openExcl (p ++ [n]) 0o600 : Sys α β μ _).run j = (.error (.errno e), j) := by
        simp [Sys.openExcl, Sys.peek, Sys.run_bind, hs]
      have he : e ≠ .exist := by
        rintro rfl
        exact walk_ne_exist _ _ _ hs
      rw [hrun] at h
      cases e <;> first | exact absurd rfl he | cases h

/-- One is made if some name is free. -/
theorem createTemp_run [EmptyCollection β] {names : List α} (hd : j.tree.DirAt p d)
    (h : ∃ n ∈ names, j.tree.look (d ++ [n]) = none) :
    ∃ n, j.tree.look (d ++ [n]) = none ∧ (createTemp p names : Sys α β μ _).run j =
      (.ok (p ++ [n], d ++ [n]), j.create d n ⟨.file ∅, 0o600, 0, 0⟩) := by
  induction names with
  | nil => simp at h
  | cons n more ih =>
    rw [createTemp, Sys.run_bind, Sys.run_attempt]
    by_cases hn : j.tree.look (d ++ [n]) = none
    · have hs := Tree.lstat_concat_eq_absent.mpr ⟨hd, rfl, hn⟩
      exact ⟨n, hn, by simp [Sys.openExcl, Sys.peek, Sys.run_bind, hs]⟩
    · have hs := Tree.lstat_concat_eq_found.mpr ⟨d, hd, rfl, hn⟩
      have hmore : ∃ n ∈ more, j.tree.look (d ++ [n]) = none := by
        obtain ⟨m, hm, hfree⟩ := h
        rcases List.mem_cons.mp hm with rfl | hm
        · exact absurd hfree hn
        · exact ⟨m, hm, hfree⟩
      obtain ⟨m, hm, hrun⟩ := ih hmore
      refine ⟨m, hm, ?_⟩
      rw [show (Sys.openExcl (p ++ [n]) 0o600 : Sys α β μ _).run j = (.error (.errno .exist), j) by
        simp [Sys.openExcl, Sys.peek, Sys.run_bind, hs]]
      exact hrun

/-- `os.RemoveAll`: a missing node is no error, a link is removed and not followed. -/
def removeAll (p : List α) : Sys α β μ Unit := do
  match ← Sys.peek (·.lstat p) with
  | .found l => if l = [] then Sys.throw (.errno .inval) else Sys.remove l
  | .absent _ _ => pure ()
  | .fail .noent => pure ()
  | .fail e => Sys.throw (.errno e)

theorem raises_mkdirAll {P : Failure μ → Prop} (hP : ∀ e, P (.errno e)) (p : List α) (mode : ℕ) :
    Sys.Raises P (mkdirAll p mode : Sys α β μ Unit) := by
  intro j e h
  rcases mkdirAll_cases (μ := μ) j p mode with ⟨d, hd⟩ | ⟨q, c, rest, d, rfl, hq, hc⟩ | ⟨e', he⟩
  · rw [mkdirAll_present hd] at h
    cases h
  · rw [mkdirAll_missing hq hc] at h
    cases h
  · rw [he] at h
    cases h
    exact hP _

theorem raises_removeAll {P : Failure μ → Prop} (hP : ∀ e, P (.errno e)) (p : List α) :
    Sys.Raises P (removeAll p : Sys α β μ Unit) := by
  refine Sys.Raises.bind (Sys.raises_look fun _ _ h => by cases h) fun w => ?_
  split
  · split
    · exact Sys.raises_throw (hP _)
    · exact Sys.raises_effect _ _
  · exact Sys.raises_pure _
  · exact Sys.raises_pure _
  · exact Sys.raises_throw (hP _)

theorem staysIn_removeAll {acts : Act → Prop} {R : Loc α}
    (h : acts .remove → ∀ l, j.tree.lstat p = .found l → R <+: l) :
    (removeAll p : Sys α β μ Unit).StaysIn acts R j := by
  rw [removeAll, Sys.staysIn_bind]
  refine ⟨Sys.staysIn_look _, fun w j₁ hw => ?_⟩
  obtain ⟨hl, rfl⟩ := Prod.mk.inj hw
  split
  · split
    · exact Sys.staysIn_throw _
    · exact (Sys.staysIn_remove _).mpr fun hact => h hact _ (Except.ok.inj hl)
  · exact Sys.staysIn_pure ()
  · exact Sys.staysIn_pure ()
  · exact Sys.staysIn_throw _

/-- An entry of a directory goes, if it is there. -/
theorem run_removeAll_entry (h : j.tree.DirAt p d) : (removeAll (p ++ [c]) : Sys α β μ Unit).run j =
    (.ok (), if j.tree.look (d ++ [c]) = none then j else j.remove (d ++ [c])) := by
  have hpeek : (Sys.peek (·.lstat (p ++ [c])) : Sys α β μ (Walk α)).run j =
      (.ok (j.tree.lstat (p ++ [c])), j) := rfl
  rw [removeAll, Sys.run_bind_ok hpeek, h.lstat_concat]
  by_cases hc : j.tree.look (d ++ [c]) = none
  · rw [if_pos hc, if_pos (by simp [hc])]
    rfl
  · rw [if_neg hc, if_neg (by simpa using hc)]
    simp

/-- A successful `RemoveAll` takes away what the path names, if anything. -/
theorem run_removeAll_eq_ok {j' : Journal α β}
    (h : (removeAll p : Sys α β μ Unit).run j = (.ok (), j')) :
    (∃ l, l ≠ [] ∧ j.tree.lstat p = .found l ∧ j' = j.remove l) ∨
      (∀ l, j.tree.lstat p ≠ .found l) ∧ j' = j := by
  have hpeek : (Sys.peek (·.lstat p) : Sys α β μ (Walk α)).run j = (.ok (j.tree.lstat p), j) := rfl
  rw [removeAll, Sys.run_bind_ok hpeek] at h
  match hl : j.tree.lstat p with
  | .found l =>
    simp only [hl] at h
    split at h
    · cases h
    · next hne =>
      cases h
      exact .inl ⟨l, hne, rfl, rfl⟩
  | .absent d n =>
    simp only [hl] at h
    cases h
    exact .inr ⟨by simp, rfl⟩
  | .fail e =>
    refine .inr ⟨by simp, ?_⟩
    cases e <;> simp only [hl] at h <;> cases h
    rfl

-- the equations that later modules rewrite with, stated here once
attribute [local simp] GoStd.createTemp GoStd.createTemp._sparseCasesOn_1.else_eq
  GoStd.createTemp._sparseCasesOn_2.else_eq GoStd.createTemp.eq_def GoStd.removeAll
  GoStd.removeAll._sparseCasesOn_1.else_eq GoStd.writeFile

end

end GoStd
