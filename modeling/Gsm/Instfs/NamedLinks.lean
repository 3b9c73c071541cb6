import Gsm.Instfs.Confinement

/-!
# Operations on links that lie elsewhere

`Mkdir`, `Rename`, `Delete` and `Receive` act on the node a path names, which may be a link that
`Resolve` has followed. When another link of the path leads out of the instance, that node lies
outside, although what it leads to lies inside. Each result here says exactly when an operation goes
wrong this way.
-/

open Posix GoStd

namespace Instfs

variable {f : FS} {t : Tree Name Str} {R : Loc Name} {j j' : Journal Name Str} {abs c : Path}
  {rel : Str}

/-- A path accepted for something in the root has a last name. -/
theorem resolve_concat (h : resolve t f rel = .ok (abs, c)) (hc : c ≠ []) :
    ∃ p n, abs = p ++ [n] := by
  obtain ⟨R, -, -, rfl, -⟩ := resolve_ok h
  obtain ⟨c, n, rfl⟩ := List.eq_nil_or_concat c |>.resolve_left hc
  exact ⟨R ++ c, n, by simp⟩

/-! ## Mkdir -/

/-- A link that cannot be followed is what `Mkdir` hands over; it has to lie inside. -/
def MkdirInside (f : FS) (t : Tree Name Str) (R : Loc Name) (rel : Str) : Prop :=
  ∀ abs c, resolve t f rel = .ok (abs, c) → c ≠ [] → f.chown → (∀ l, t.stat abs ≠ .found l) →
    ∀ S, t.lstat abs = .found S → R <+: S

theorem mkdir_errsOrStays_iff (hR : evalSymlinks t f.root = .ok R) :
    (f.mkdir rel).ErrsOrStays R t ↔ MkdirInside f t R rel := by
  rw [Sys.errsOrStays_iff]
  constructor
  · intro h abs c hres hc hown hno S hS
    obtain ⟨p, n, rfl⟩ := resolve_concat hres hc
    obtain ⟨D, hD, rfl, hl⟩ := Tree.lstat_concat_eq_found.mp hS
    have hrun : (f.mkdir rel).run (.of t) = (.ok c, (Journal.of t).give f.own (D ++ [n])) := by
      rw [FS.mkdir, Sys.run_bind_ok (run_resolve_eq_ok.mpr ⟨hres, rfl⟩)]
      simp only [if_neg hc]
      rw [Sys.run_bind_ok (mkdirAllOwned_blocked hD hl hno)]
      rfl
    exact Journal.stays_give.mp (h c _ hrun) (by simp [FS.own, hown]) (by decide)
  · intro h r j' hrun
    obtain ⟨⟨abs, c⟩, j₁, hget, hrun⟩ := Sys.run_bind_eq_ok.mp hrun
    obtain ⟨hres, rfl⟩ := run_resolve_eq_ok.mp hget
    have hg := resolve_guarded hR hres
    simp only at hrun
    split at hrun
    · cases hrun
    next hc =>
    obtain ⟨_, j₂, hmk, hrun⟩ := Sys.run_bind_eq_ok.mp hrun
    cases hrun
    rcases mkdirAllOwned_cases f (.of t) abs with ⟨l, hl⟩ | ⟨q, n, rest, d, rfl, hq, hn⟩ |
      ⟨q, n, rest, d, rfl, hq, hn, hno⟩ | ⟨e, he⟩
    · rw [mkdirAllOwned_present hl] at hmk
      cases hmk
      rfl
    · rw [mkdirAllOwned_missing hq hn] at hmk
      cases hmk
      have hin := (hg.missing hq hn).trans (List.prefix_append d [n])
      exact (Journal.stays_makeDirs rest).mpr ⟨fun _ => hin, fun _ _ => hin⟩
    · cases rest with
      | nil =>
        rw [mkdirAllOwned_blocked hq hn hno] at hmk
        cases hmk
        refine Journal.stays_give.mpr fun hown _ => ?_
        have hchown : f.chown := by
          by_contra hf
          simp [FS.own, hf] at hown
        exact h _ _ hres hc hchown hno _ (Tree.lstat_concat_eq_found.mpr ⟨d, hq, rfl, hn⟩)
      | cons b rest =>
        obtain ⟨e, he⟩ := mkdirAllOwned_blocked_cons (f := f) hq hn hno b rest
        rw [he] at hmk
        cases hmk
    · rw [he] at hmk
      cases hmk

/-! ## Rename -/

/-- `D` is the directory a path leads to once its missing part was made. -/
def Makes (t : Tree Name Str) (p : Path) (D : Loc Name) : Prop :=
  t.DirAt p D ∨ ∃ q c rest d, p = q ++ c :: rest ∧ t.DirAt q d ∧ t.look (d ++ [c]) = none ∧
    D = d ++ c :: rest

/-- What is moved lies inside, if the two paths allow it to be moved. -/
def RenameInside (f : FS) (t : Tree Name Str) (R : Loc Name) (src dst : Str) : Prop :=
  ∀ s c p n c' S D, resolve t f src = .ok (s, c) → resolve t f dst = .ok (p ++ [n], c') →
    c ≠ [] → c' ≠ [] → t.lstat s = .found S → (∀ l, t.lstat (p ++ [n]) ≠ .found l) →
      Makes t p D → ¬ S <+: D ++ [n] → R <+: S

theorem run_mkdirAllOwned_makes {p : Path} {D : Loc Name} (h : Makes j.tree p D) :
    ∃ j', (f.mkdirAllOwned p).run j = (.ok (), j') ∧ j'.tree.DirAt p D ∧
      ∀ x s, j.tree.look x = some s → j'.tree.look x = some s := by
  rcases h with hD | ⟨q, c, rest, d, rfl, hq, hc, rfl⟩
  · exact ⟨j, mkdirAllOwned_present hD.1, hD, fun _ _ => id⟩
  · refine ⟨_, mkdirAllOwned_missing hq hc rest, Journal.dirAt_makeDirs f.own 0o755 hq hc rest,
      fun x s hx => ?_⟩
    rw [Journal.look_makeDirs f.own 0o755 x hq.2 hc, if_neg, hx]
    rintro ⟨⟨y, rfl⟩, -⟩
    by_cases hy : y = []
    · simp [hy, hc] at hx
    · exact Tree.node_ne_none hx (Tree.node_below hy (by simp [hc]))

/-- Where it succeeds and leads to a directory, it is the one expected. -/
theorem makes_of_run {p : Path} {D : Loc Name} (hrun : (f.mkdirAllOwned p).run j = (.ok (), j'))
    (hD : j'.tree.DirAt p D) : Makes j.tree p D := by
  rcases mkdirAllOwned_cases f j p with ⟨l, hl⟩ | ⟨q, c, rest, d, rfl, hq, hc⟩ |
    ⟨q, c, rest, d, rfl, hq, hc, hno⟩ | ⟨e, he⟩
  · rw [mkdirAllOwned_present hl] at hrun
    cases hrun
    exact .inl hD
  · rw [mkdirAllOwned_missing hq hc] at hrun
    cases hrun
    exact .inr ⟨q, c, rest, d, rfl, hq, hc,
      hD.unique (Journal.dirAt_makeDirs f.own 0o755 hq hc rest)⟩
  · cases rest with
    | nil =>
      rw [mkdirAllOwned_blocked hq hc hno] at hrun
      cases hrun
      exact absurd (Journal.stat_give.symm.trans hD.1) (hno D)
    | cons b rest =>
      obtain ⟨e, he⟩ := mkdirAllOwned_blocked_cons (f := f) hq hc hno b rest
      rw [he] at hrun
      cases hrun
  · rw [he] at hrun
    cases hrun

/-- The checks of `Rename` between `Resolve` and the move, passed. -/
theorem run_rename_checked {src dst : Str} {s d c c' : Path} {S : Loc Name}
    (hs : resolve j.tree f src = .ok (s, c)) (hd : resolve j.tree f dst = .ok (d, c'))
    (hc : c ≠ []) (hc' : c' ≠ []) (hS : j.tree.lstat s = .found S)
    (hfree : ∀ l, j.tree.lstat d ≠ .found l) :
    (f.rename src dst).run j =
      (do f.mkdirAllOwned d.dropLast; Sys.rename s d; pure c' : Prog Path).run j := by
  obtain ⟨sh, hl⟩ := Tree.lstat_found hS
  obtain ⟨nd, hn, -⟩ := Option.map_eq_some_iff.mp hl
  obtain ⟨e, he⟩ := Sys.run_lstat_not_found (μ := FsError) hfree
  rw [FS.rename, Sys.run_bind_ok (run_resolve_eq_ok.mpr ⟨hs, rfl⟩)]
  simp only
  rw [Sys.run_bind_ok (run_resolve_eq_ok.mpr ⟨hd, rfl⟩)]
  simp only [hc, hc', or_self, if_false]
  rw [Sys.run_bind_ok (by rw [Sys.run_attempt, Sys.run_lstat_found hS hn])]
  simp only
  rw [Sys.run_bind_ok (by rw [Sys.run_attempt, he])]

/-- `Rename` succeeds only past its checks. -/
theorem rename_checked_of_ok {src dst : Str} {r : Path}
    (h : (f.rename src dst).run j = (.ok r, j')) :
    ∃ s c p n c' S, resolve j.tree f src = .ok (s, c) ∧ resolve j.tree f dst = .ok (p ++ [n], c') ∧
      c ≠ [] ∧ c' ≠ [] ∧ j.tree.lstat s = .found S ∧ ∀ l, j.tree.lstat (p ++ [n]) ≠ .found l := by
  obtain ⟨⟨s, c⟩, j₁, hget, h₁⟩ := Sys.run_bind_eq_ok.mp h
  obtain ⟨hs, rfl⟩ := run_resolve_eq_ok.mp hget
  obtain ⟨⟨d, c'⟩, j₂, hget', h₂⟩ := Sys.run_bind_eq_ok.mp h₁
  obtain ⟨hd, rfl⟩ := run_resolve_eq_ok.mp hget'
  simp only at h₂
  split at h₂
  · cases h₂
  next hcs =>
  push Not at hcs
  obtain ⟨p, n, rfl⟩ := resolve_concat hd hcs.2
  obtain ⟨r₁, j₃, hsrc, h₃⟩ := Sys.run_bind_eq_ok.mp h₂
  by_cases hS : ∃ S, j₂.tree.lstat s = .found S
  · obtain ⟨S, hS⟩ := hS
    obtain ⟨sh, hl⟩ := Tree.lstat_found hS
    obtain ⟨nd, hn, -⟩ := Option.map_eq_some_iff.mp hl
    rw [Sys.run_attempt, Sys.run_lstat_found hS hn] at hsrc
    cases hsrc
    refine ⟨s, c, p, n, c', S, hs, hd, hcs.1, hcs.2, hS, fun l hl => ?_⟩
    obtain ⟨sh', hl'⟩ := Tree.lstat_found hl
    obtain ⟨nd', hn', -⟩ := Option.map_eq_some_iff.mp hl'
    simp only at h₃
    rw [Sys.run_bind_ok (by rw [Sys.run_attempt, Sys.run_lstat_found hl hn'])] at h₃
    cases h₃
  · push Not at hS
    obtain ⟨e, he⟩ := Sys.run_lstat_not_found (μ := FsError) hS
    rw [Sys.run_attempt, he] at hsrc
    cases hsrc
    cases h₃

theorem place_eq_ok {p : Path} {n : Name} {x : Loc Name} (h : (t.lstat (p ++ [n])).place = .ok x) :
    ∃ D, t.DirAt p D ∧ x = D ++ [n] := by
  match hs : t.lstat (p ++ [n]) with
  | .found l =>
    rw [hs] at h
    cases h
    obtain ⟨D, hD, rfl, -⟩ := Tree.lstat_concat_eq_found.mp hs
    exact ⟨D, hD, rfl⟩
  | .absent D m =>
    rw [hs] at h
    cases h
    obtain ⟨hD, rfl, -⟩ := Tree.lstat_concat_eq_absent.mp hs
    exact ⟨D, hD, rfl⟩
  | .fail e =>
    rw [hs] at h
    cases h

theorem rename_errsOrStays_iff {src dst : Str} (hR : evalSymlinks t f.root = .ok R) :
    (f.rename src dst).ErrsOrStays R t ↔ RenameInside f t R src dst := by
  rw [Sys.errsOrStays_iff]
  constructor
  · intro h s c p n c' S D hs hd hc hc' hS hfree hmakes hpre
    obtain ⟨j₁, hmk, hD, hle⟩ := run_mkdirAllOwned_makes (f := f) (j := .of t) hmakes
    obtain ⟨-, -, hnew⟩ := mkdirAllOwned_stays (resolve_guarded hR hd) hfree hmk hD
    have hS₁ : j₁.tree.lstat s = .found S := walk_mono hle _ _ _ hS
    obtain ⟨sh, hl⟩ := Tree.lstat_found hS₁
    obtain ⟨nd, hnd, -⟩ := Option.map_eq_some_iff.mp hl
    have hmay : Sys.mayReplace j₁.tree nd.shape (D ++ [n]) = .ok () := by
      simp [Sys.mayReplace, hnew]
    have hmove : (Sys.rename s (p ++ [n]) : Prog Unit).run j₁ = (.ok (), j₁.replace S D n) :=
      Sys.run_rename_eq_ok.mpr
        ⟨S, nd, D ++ [n], hS₁, hnd, place_beside hD, .inr ⟨hpre, hmay, D, n, rfl, rfl⟩⟩
    have hrun : (f.rename src dst).run (.of t) = (.ok c', j₁.replace S D n) := by
      rw [run_rename_checked hs hd hc hc' hS hfree, List.dropLast_concat, Sys.run_bind_ok hmk,
        Sys.run_bind_ok hmove]
      rfl
    exact Journal.stays_of_iff.mp (h c' _ hrun) ⟨.remove, S⟩ (by simp)
      (by simp [Act.changes])
  · intro h r j' hrun
    obtain ⟨s, c, p, n, c', S, hs, hd, hc, hc', hS, hfree⟩ := rename_checked_of_ok hrun
    rw [run_rename_checked hs hd hc hc' hS hfree, List.dropLast_concat] at hrun
    obtain ⟨_, j₁, hmk, hrun⟩ := Sys.run_bind_eq_ok.mp hrun
    obtain ⟨_, j₂, hmove, hrun⟩ := Sys.run_bind_eq_ok.mp hrun
    cases hrun
    obtain ⟨S', nd, x, hS', -, hx, hend⟩ := Sys.run_rename_eq_ok.mp hmove
    obtain ⟨D, hD, rfl⟩ := place_eq_ok hx
    have hmakes := makes_of_run hmk hD
    obtain ⟨hstays, hin, -⟩ := mkdirAllOwned_stays (resolve_guarded hR hd) hfree hmk hD
    obtain ⟨j₁', hmk', -, hle⟩ := run_mkdirAllOwned_makes (f := f) hmakes
    cases hmk.symm.trans hmk'
    cases (walk_mono hle _ _ _ hS).symm.trans hS'
    rcases hend with ⟨-, rfl⟩ | ⟨hpre, -, d, m, hdm, rfl⟩
    · exact hstays
    · refine hstays.trans (Journal.Stays.of_log (Journal.log_replace ..) ?_)
      rw [← hdm]
      have hS := h s c p n _ S D hs hd hc hc' hS hfree hmakes hpre
      simp [hS, hin.trans (List.prefix_append _ _)]

/-! ## Delete -/

/-- What `Delete` does about one path: give up, pass over what is missing, or remove a node. -/
inductive Turn where
  | refused
  | missing
  | removes (S : Loc Name)
deriving DecidableEq

def turn (f : FS) (t : Tree Name Str) (rel : Str) : Turn :=
  match resolve t f rel with
  | .error _ => .refused
  | .ok (abs, c) =>
      if c = [] then .refused
      else
        match t.lstat abs with
        | .found S => if S = [] then .refused else .removes S
        | .absent _ _ => .missing
        | .fail .noent => .missing
        | .fail _ => .refused

/-- One of the paths is refused, on the tree as it is when its turn comes. -/
def DeleteRefused (f : FS) : Tree Name Str → List Str → Prop
  | _, [] => False
  | t, rel :: paths =>
      match turn f t rel with
      | .refused => True
      | .missing => DeleteRefused f t paths
      | .removes S => DeleteRefused f (t.remove S) paths

/-- What each path names, on the tree as it is when its turn comes, lies inside. -/
def DeleteInside (f : FS) (R : Loc Name) : Tree Name Str → List Str → Prop
  | _, [] => True
  | t, rel :: paths =>
      match turn f t rel with
      | .refused => True
      | .missing => DeleteInside f R t paths
      | .removes S => R <+: S ∧ DeleteInside f R (t.remove S) paths

theorem run_delete_cons (f : FS) (j : Journal Name Str) (rel : Str) (paths : List Str) :
    match turn f j.tree rel with
    | .refused => ∃ e, (f.delete (rel :: paths)).run j = (.error e, j)
    | .missing => (f.delete (rel :: paths)).run j = (f.delete paths).run j
    | .removes S => (f.delete (rel :: paths)).run j =
        (do let n ← f.delete paths; pure (n + 1) : Prog ℕ).run (j.remove S) := by
  unfold turn
  rw [FS.delete]
  match hres : resolve j.tree f rel with
  | .error e => exact ⟨e, by rw [Sys.run_bind, FS.resolve, Sys.run_look, hres]⟩
  | .ok (abs, c) =>
    have hget : (f.resolve rel).run j = (.ok (abs, c), j) := run_resolve_eq_ok.mpr ⟨hres, rfl⟩
    rw [Sys.run_bind_ok hget]
    by_cases hc : c = []
    · simp only [hc, if_true]
      exact ⟨_, rfl⟩
    · simp only [hc, if_false]
      match hs : j.tree.lstat abs with
      | .found S =>
        obtain ⟨sh, hl⟩ := Tree.lstat_found hs
        obtain ⟨nd, hn, -⟩ := Option.map_eq_some_iff.mp hl
        simp only
        rw [Sys.run_bind_ok (by rw [Sys.run_attempt, Sys.run_lstat_found hs hn])]
        by_cases hS : S = []
        · subst hS
          simp [removeAll, Sys.peek, Sys.run_bind, hs]
        · simp only [hS, if_false]
          have hremove : (removeAll abs : Prog Unit).run j = (.ok (), j.remove S) := by
            simp [removeAll, Sys.peek, Sys.run_bind, hs, hS]
          exact Sys.run_bind_ok hremove
      | .absent d n =>
        simp only
        rw [Sys.run_bind_ok (by rw [Sys.run_attempt, Sys.lstat,
          Sys.run_bind_error (Sys.run_existing_absent (f := (·.lstat abs)) hs)])]
      | .fail e =>
        have hfail : (Sys.lstat abs : Prog _).attempt.run j = (.ok (.error (.errno e)), j) := by
          rw [Sys.run_attempt, Sys.lstat,
            Sys.run_bind_error (Sys.run_existing_fail (f := (·.lstat abs)) hs)]
        rw [Sys.run_bind_ok hfail]
        cases e <;> first | rfl | exact ⟨_, rfl⟩

theorem run_delete_refused {paths : List Str} (h : DeleteRefused f j.tree paths) :
    ∃ e j', (f.delete paths).run j = (.error e, j') := by
  induction paths generalizing j with
  | nil => exact h.elim
  | cons rel paths ih =>
    have hrun := run_delete_cons f j rel paths
    rw [DeleteRefused] at h
    match ht : turn f j.tree rel with
    | .refused =>
      rw [ht] at hrun
      obtain ⟨e, he⟩ := hrun
      exact ⟨e, j, he⟩
    | .missing =>
      rw [ht] at h hrun
      obtain ⟨e, j', he⟩ := ih h
      exact ⟨e, j', hrun.trans he⟩
    | .removes S =>
      rw [ht] at h hrun
      obtain ⟨e, j', he⟩ := ih (j := j.remove S) h
      exact ⟨e, j', hrun.trans (Sys.run_bind_error he)⟩

/-- Without a refusal everything named is removed. -/
theorem run_delete_accepted {paths : List Str} (h : ¬ DeleteRefused f j.tree paths) :
    ∃ n j', (f.delete paths).run j = (.ok n, j') ∧
      (j.Stays Act.changes R j' ↔ DeleteInside f R j.tree paths) := by
  induction paths generalizing j with
  | nil => exact ⟨0, j, rfl, iff_of_true (.refl j) trivial⟩
  | cons rel paths ih =>
    have hrun := run_delete_cons f j rel paths
    rw [DeleteRefused] at h
    rw [DeleteInside]
    match ht : turn f j.tree rel with
    | .refused =>
      rw [ht] at h
      exact absurd trivial h
    | .missing =>
      rw [ht] at h hrun
      obtain ⟨n, j', hmore, hiff⟩ := ih h
      exact ⟨n, j', hrun.trans hmore, hiff⟩
    | .removes S =>
      rw [ht] at h hrun
      obtain ⟨n, j', hmore, hiff⟩ := ih (j := j.remove S) h
      refine ⟨n + 1, j', hrun.trans (Sys.run_bind_ok hmore), ?_⟩
      have hbefore : j.Before (j.remove S) := ⟨rfl, List.prefix_append _ _⟩
      have hlater : (j.remove S).Before j' := by
        have := (f.delete paths).later (j.remove S)
        rwa [hmore] at this
      rw [Journal.stays_split hbefore hlater, hiff, Journal.stays_iff _ (Journal.log_remove j S)]
      simp [Act.changes]

theorem delete_errsOrStays_iff {paths : List Str} :
    (f.delete paths).ErrsOrStays R t ↔ DeleteRefused f t paths ∨ DeleteInside f R t paths := by
  rw [Sys.errsOrStays_iff]
  by_cases h : DeleteRefused f t paths
  · obtain ⟨e, j', he⟩ := run_delete_refused (j := .of t) h
    rw [he]
    simp [h]
  · obtain ⟨n, j', hrun, hiff⟩ := run_delete_accepted (j := .of t) (R := R) h
    rw [hrun]
    simp [h, hiff]

/-! ## Receive -/

theorem rename_beside_run {p : Path} {D : Loc Name} {m n : Name} (h : Beside j.tree p D m)
    (hn : j.tree.look (D ++ [n]) ≠ some .dir) :
    ∃ j', (Sys.rename (p ++ [m]) (p ++ [n]) : Prog Unit).run j = (.ok (), j') := by
  obtain ⟨nd, hnd, hshape⟩ := Option.map_eq_some_iff.mp h.file
  by_cases hmn : m = n
  · subst hmn
    exact ⟨j, Sys.run_rename_eq_ok.mpr
      ⟨_, nd, _, h.lstat, hnd, place_beside h.dir, .inl ⟨rfl, rfl⟩⟩⟩
  · have hpre : ¬ D ++ [m] <+: D ++ [n] := fun hpre =>
      hmn (by simpa using hpre.eq_of_length (by simp))
    have hmay : Sys.mayReplace j.tree nd.shape (D ++ [n]) = .ok () := by
      rw [hshape]
      unfold Sys.mayReplace
      match hl : j.tree.look (D ++ [n]) with
      | none => rfl
      | some .dir => exact absurd hl hn
      | some .leaf => rfl
      | some (.link _) => rfl
    exact ⟨_, Sys.run_rename_eq_ok.mpr
      ⟨_, nd, _, h.lstat, hnd, place_beside h.dir, .inr ⟨hpre, hmay, D, n, rfl, rfl⟩⟩⟩

/-- Nothing but the filling of a temporary file can fail. -/
theorem fillTemp_run {γ δ : Type} {p : Path} {D : Loc Name} {m n : Name} {mode : ℕ}
    {fill : Loc Name → Prog γ} {done : γ → Prog δ} (hfills : Fills fill)
    (hfill : ∀ fd j, ∃ a j', (fill fd).run j = (.ok a, j'))
    (hdone : ∀ a j, ∃ b j', (done a).run j = (.ok b, j')) (h₁ : Beside j.tree p D m)
    (hn : j.tree.look (D ++ [n]) ≠ some .dir) :
    ∃ b j', (f.fillTemp (p ++ [m]) (D ++ [m]) (p ++ [n]) mode fill done).run j = (.ok b, j') := by
  obtain ⟨a, j₂, hfillrun⟩ := hfill (D ++ [m]) j
  have hlook := (hfills (D ++ [m]) (D ++ [m]) j List.prefix_rfl).look
  rw [hfillrun] at hlook
  have hlook₃ : ((Sys.chmod (p ++ [m]) mode : Prog Unit).run j₂).2.tree.look = j.tree.look :=
    (Sys.look_touch _ j₂).trans hlook
  have hchmod := Sys.run_attempt (Sys.chmod (p ++ [m]) mode : Prog Unit) j₂
  generalize ((Sys.chmod (p ++ [m]) mode : Prog Unit).run j₂).2 = j₃ at hlook₃ hchmod
  have h₃ : Beside j₃.tree p D m := h₁.congr hlook₃.symm
  have h₄ : Beside (j₃.give f.own (D ++ [m])).tree p D m := h₃.congr Journal.look_give.symm
  obtain ⟨j₅, hrename⟩ := rename_beside_run h₄ (n := n) (by rwa [Journal.look_give, hlook₃])
  obtain ⟨b, j₆, hdonerun⟩ := hdone a j₅
  refine ⟨b, _, Sys.run_deferring_eq_ok.mpr ⟨j₆, ?_, rfl⟩⟩
  rw [Sys.run_bind_ok hfillrun, Sys.run_bind_ok hchmod, Sys.run_bind_ok (run_giveAway h₃.lstat),
    Sys.run_bind_ok hrename, hdonerun]

/-- With a free name for it, a temporary file is made where the path leads. -/
theorem throughTemp_run {γ δ : Type} {p : Path} {D : Loc Name} {n : Name} {temps : List Name}
    {mode : ℕ} {fill : Loc Name → Prog γ} {done : γ → Prog δ} (hfills : Fills fill)
    (hfill : ∀ fd j, ∃ a j', (fill fd).run j = (.ok a, j'))
    (hdone : ∀ a j, ∃ b j', (done a).run j = (.ok b, j')) (hD : j.tree.DirAt p D)
    (hfree : ∃ m ∈ temps, j.tree.look (D ++ [m]) = none)
    (hn : j.tree.look (D ++ [n]) ≠ some .dir) :
    ∃ b j' m, (f.throughTemp temps (p ++ [n]) mode fill done).run j = (.ok b, j') ∧
      j.tree.look (D ++ [m]) = none ∧ ⟨.create, D ++ [m]⟩ ∈ j'.log := by
  obtain ⟨m, hm, htemp⟩ := createTemp_run (μ := FsError) hD hfree
  have hlook (x : Loc Name) := Tree.look_create (⟨.file ∅, 0o600, 0, 0⟩ : Node Name Str) hD.2
    (Tree.look_eq_none.mp hm) x
  have hn₁ : (j.create D m ⟨.file ∅, 0o600, 0, 0⟩).tree.look (D ++ [n]) ≠ some .dir := by
    rw [Journal.tree_create, hlook]
    split
    · simp [Node.shape, Kind.shape]
    · exact hn
  obtain ⟨b, j', hrun⟩ : ∃ b j', (f.fillTemp (p ++ [m]) (D ++ [m]) (p ++ [n]) mode fill done).run
      (j.create D m ⟨.file ∅, 0o600, 0, 0⟩) = (.ok b, j') :=
    fillTemp_run hfills hfill hdone (Beside.create hD hm) hn₁
  refine ⟨b, j', m, ?_, hm, ?_⟩
  · rw [FS.throughTemp, List.dropLast_concat, Sys.run_bind_ok htemp]
    exact hrun
  · have hlater := (f.fillTemp (p ++ [m]) (D ++ [m]) (p ++ [n]) mode fill done).later
      (j.create D m ⟨.file ∅, 0o600, 0, 0⟩)
    rw [hrun] at hlater
    exact hlater.log.subset (by simp)

/-- All of the body arrives, of the size announced and with the digest expected. -/
structure Complete (lib : Lib) (size : ℕ) (body : Body) (confirm : Str → Except Str Unit) :
    Prop where
  err : body.err = none
  length : body.data.length = size
  digest : confirm (lib.sha256Hex body.data) = .ok ()

theorem fills_receiveBody {lib : Lib} {size : ℕ} {body : Body} {confirm : Str → Except Str Unit} :
    Fills (receiveBody lib size body confirm) := by
  intro fd R j hin
  refine (fills_write body.data fd R j hin).bind fun _ j' _ => .of_readsOnly ?_
  split
  · exact Sys.readsOnly_throw _
  · split
    · exact Sys.readsOnly_throw _
    · split
      · exact Sys.readsOnly_throw _
      · exact Sys.readsOnly_pure _

theorem run_receiveBody {lib : Lib} {size : ℕ} {body : Body} {confirm : Str → Except Str Unit}
    {fd : Loc Name} :
    (∃ a j', (receiveBody lib size body confirm fd).run j = (.ok a, j')) ↔
      Complete lib size body confirm := by
  rw [receiveBody, Sys.run_bind_ok Sys.run_write]
  match herr : body.err with
  | some e =>
    refine iff_of_false ?_ fun h => by simp [h.err] at herr
    rintro ⟨a, j', h⟩
    cases h
  | none =>
    by_cases hlen : body.data.length = size
    · simp only [hlen, ne_eq, not_true_eq_false, if_false]
      match hconf : confirm (lib.sha256Hex body.data) with
      | .ok () => exact iff_of_true ⟨(), _, rfl⟩ ⟨herr, hlen, hconf⟩
      | .error e =>
        refine iff_of_false ?_ fun h => by simp [h.digest] at hconf
        rintro ⟨a, j', h⟩
        cases h
    · simp only [hlen, ne_eq, not_false_eq_true, if_true]
      refine iff_of_false ?_ fun h => hlen h.length
      rintro ⟨a, j', h⟩
      cases h

/-- The link that a complete upload replaces lies inside. -/
def ReceiveInside (f : FS) (lib : Lib) (t : Tree Name Str) (R : Loc Name) (temps : List Name)
    (rel : Str) (size : ℕ) (overwrite : Bool) (body : Body) (confirm : Str → Except Str Unit) :
    Prop :=
  ∀ abs c S, resolve t f rel = .ok (abs, c) → c ≠ [] → t.lstat abs = .found S →
    t.look S ≠ some .dir → overwrite → Complete lib size body confirm →
      (∃ m ∈ temps, t.look (S.dropLast ++ [m]) = none) → R <+: S

theorem kindOf_eq_dir {nd : Node Name Str} : kindOf nd.kind = .dir ↔ nd.shape = .dir := by
  rw [Node.shape]
  cases nd.kind <;> simp [kindOf, Kind.shape]

/-- `Receive` goes on unless the path names a directory or something that is to be kept. -/
theorem run_checkReceive_eq_ok {overwrite : Bool} :
    (checkReceive abs c overwrite).run j = (.ok (), j') ↔
      j' = j ∧ c ≠ [] ∧ ∀ S, j.tree.lstat abs = .found S → j.tree.look S ≠ some .dir ∧ overwrite := by
  unfold checkReceive
  by_cases hc : c = []
  · simp [hc]
  rw [if_neg hc]
  by_cases hs : ∃ S, j.tree.lstat abs = .found S
  · obtain ⟨S, hs⟩ := hs
    obtain ⟨sh, hl⟩ := Tree.lstat_found hs
    obtain ⟨nd, hn, -⟩ := Option.map_eq_some_iff.mp hl
    have hlook : j.tree.look S = some nd.shape := by rw [Tree.look, hn, Option.map_some]
    rw [Sys.run_bind_ok (by rw [Sys.run_attempt, Sys.run_lstat_found hs hn])]
    simp only [hs, Walk.found.injEq, forall_eq', hlook, ne_eq, Option.some.injEq,
      ← kindOf_eq_dir, hc, not_false_eq_true, true_and]
    by_cases hd : kindOf nd.kind = .dir <;> cases overwrite <;> simp [hd, eq_comm]
  · push Not at hs
    obtain ⟨e, he⟩ := Sys.run_lstat_not_found (μ := FsError) hs
    rw [Sys.run_bind_ok (by rw [Sys.run_attempt, he])]
    simp [hs, hc, eq_comm]

theorem receive_errsOrStays_iff {lib : Lib} {temps : List Name} {size : ℕ} {overwrite : Bool}
    {body : Body} {confirm : Str → Except Str Unit} (hR : evalSymlinks t f.root = .ok R)
    (hdir : t.look R = some .dir) :
    (f.receive lib temps rel size overwrite body confirm).ErrsOrStays R t ↔
      ReceiveInside f lib t R temps rel size overwrite body confirm := by
  rw [Sys.errsOrStays_iff]
  constructor
  · intro h abs c S hres hc hS hSdir how hcomplete hfree
    obtain ⟨p, n, rfl⟩ := resolve_concat hres hc
    obtain ⟨D, hD, rfl, -⟩ := Tree.lstat_concat_eq_found.mp hS
    rw [List.dropLast_concat] at hfree
    have hcheck : (checkReceive (p ++ [n]) c overwrite).run (.of t) = (.ok (), .of t) :=
      run_checkReceive_eq_ok.mpr ⟨rfl, hc, fun S' hS' => by
        cases hS.symm.trans hS'
        exact ⟨hSdir, how⟩⟩
    have hdone (_ : Unit) (j : Journal Name Str) : ∃ b j',
        (pure ⟨c, size, lib.sha256Hex body.data⟩ : Prog FileTransferResult).run j = (.ok b, j') :=
      ⟨_, j, rfl⟩
    obtain ⟨b, j', m, hrun, hm, hlog⟩ := throughTemp_run (f := f) (j := .of t) (n := n)
      fills_receiveBody (fun _ _ => run_receiveBody.mpr hcomplete) hdone hD hfree hSdir
    have hall : (f.receive lib temps rel size overwrite body confirm).run (.of t) = (.ok b, j') := by
      rw [FS.receive, Sys.run_bind_ok (run_resolve_eq_ok.mpr ⟨hres, rfl⟩)]
      simp only [List.dropLast_concat]
      rw [Sys.run_bind_ok hcheck, Sys.run_bind_ok (mkdirAllOwned_present hD.1)]
      exact hrun
    -- the temporary file was made beside the link
    have hin : R <+: D ++ [m] :=
      Journal.stays_of_iff.mp (h b j' hall) _ hlog (by simp [Act.changes])
    exact (parent_inside hdir hin (hm ▸ by simp)).trans (List.prefix_append _ _)
  · intro h r j' hrun
    obtain ⟨⟨abs, c⟩, j₁, hget, hrun₁⟩ := Sys.run_bind_eq_ok.mp hrun
    obtain ⟨hres, rfl⟩ := run_resolve_eq_ok.mp hget
    obtain ⟨_, j₂, hcheck, hrun₂⟩ := Sys.run_bind_eq_ok.mp hrun₁
    obtain ⟨rfl, hc, hnamed⟩ := run_checkReceive_eq_ok.mp hcheck
    obtain ⟨p, n, rfl⟩ := resolve_concat hres hc
    have hg := resolve_guarded hR hres
    simp only [List.dropLast_concat] at hrun₂
    obtain ⟨_, j₃, hmk, hrun₃⟩ := Sys.run_bind_eq_ok.mp hrun₂
    obtain ⟨D, hD, hfree, fd, j₄, a, j₅, hfill⟩ := throughTemp_dir hrun₃
    have hcomplete := run_receiveBody.mp ⟨a, j₅, hfill⟩
    have hdone (_ : Unit) :
        (pure ⟨c, size, lib.sha256Hex body.data⟩ : Prog FileTransferResult).ReadsOnly :=
      Sys.readsOnly_pure _
    by_cases hS : ∃ S, t.lstat (p ++ [n]) = .found S
    · obtain ⟨S, hS⟩ := hS
      obtain ⟨hSdir, how⟩ := hnamed S hS
      obtain ⟨D', hD', rfl, -⟩ := Tree.lstat_concat_eq_found.mp hS
      rw [mkdirAllOwned_present hD'.1] at hmk
      cases hmk
      obtain rfl := hD.unique hD'
      have hin := parent_inside hdir
        (h _ c _ hres hc hS hSdir how hcomplete (by rwa [List.dropLast_concat])) hSdir
      exact throughTemp_stays fills_receiveBody hdone (fun D' hD' => hD.unique hD' ▸ hin) hrun₃
    · push Not at hS
      obtain ⟨hstays, hin, -⟩ := mkdirAllOwned_stays hg hS hmk hD
      exact hstays.trans
        (throughTemp_stays fills_receiveBody hdone (fun D' hD' => hD.unique hD' ▸ hin) hrun₃)

/-! ## All operations -/

/-- A request to the file manager, with what the operation draws on from outside. -/
inductive Request where
  | stat (rel : Str)
  | read (rel : Str) (maxBytes : ℕ)
  | write (temps : List Name) (rel content : Str) (expectSHA : Option Str) (create : Bool)
  | mkdir (rel : Str)
  | rename (src dst : Str)
  | delete (paths : List Str)
  | chmod (mode : ℕ) (recursive : Bool) (paths : List Str)
  | receive (temps : List Name) (rel : Str) (size : ℕ) (overwrite : Bool) (body : Body)
      (confirm : Str → Except Str Unit)
  | compress (ctx : Context) (temps : List Name) (paths : List Str) (dest : Str)

/-- Carried out on `t`, the request fails or changes nodes at or below `R` only, and what it reads
lies there. -/
def Request.Confined (f : FS) (lib : Lib) (fmts : Formats) (t : Tree Name Str) (R : Loc Name) :
    Request → Prop
  | .stat rel => (f.stat rel).StaysIn (fun _ => True) R (.of t)
  | .read rel maxBytes =>
      (f.read lib rel maxBytes).StaysIn (fun _ => True) R (.of t) ∧
        ∀ r j' s, (f.read lib rel maxBytes).run (.of t) = (.ok r, j') → r.content = some s →
          ∃ l, R <+: l ∧ (t.node l).map Node.kind = some (.file s)
  | .write temps rel content sha create =>
      (f.write lib temps rel content sha create).ErrsOrStays R t
  | .mkdir rel => (f.mkdir rel).ErrsOrStays R t
  | .rename src dst => (f.rename src dst).ErrsOrStays R t
  | .delete paths => (f.delete paths).ErrsOrStays R t
  | .chmod mode recursive paths => (f.chmodAll mode recursive paths).ErrsOrStays R t
  | .receive temps rel size overwrite body confirm =>
      (f.receive lib temps rel size overwrite body confirm).ErrsOrStays R t
  | .compress ctx temps paths dest => (f.compress lib fmts ctx temps paths dest).ErrsOrStays R t

/-- The node the request acts on by its name lies at or below `R`, where that makes a difference. -/
def Request.NamesInside (f : FS) (lib : Lib) (t : Tree Name Str) (R : Loc Name) : Request → Prop
  | .mkdir rel => MkdirInside f t R rel
  | .rename src dst => RenameInside f t R src dst
  | .delete paths => DeleteRefused f t paths ∨ DeleteInside f R t paths
  | .receive temps rel size overwrite body confirm =>
      ReceiveInside f lib t R temps rel size overwrite body confirm
  | _ => True

theorem request_confined_iff (f : FS) (lib : Lib) (fmts : Formats) (t : Tree Name Str)
    (R : Loc Name) (hR : evalSymlinks t f.root = .ok R) (hdir : t.look R = some .dir)
    (q : Request) : q.Confined f lib fmts t R ↔ q.NamesInside f lib t R := by
  cases q with
  | stat rel => exact iff_of_true stat_stays trivial
  | read rel maxBytes =>
    exact iff_of_true ⟨read_stays lib maxBytes hR, fun r j' s h hs => read_content hR h hs⟩ trivial
  | write temps rel content sha create =>
    exact iff_of_true (write_errsOrStays lib temps content sha create hR hdir) trivial
  | mkdir rel => exact mkdir_errsOrStays_iff hR
  | rename src dst => exact rename_errsOrStays_iff hR
  | delete paths => exact delete_errsOrStays_iff
  | chmod mode recursive paths =>
    exact iff_of_true (keeps_chmodAll (j := .of t) hR).errsOrStays trivial
  | receive temps rel size overwrite body confirm => exact receive_errsOrStays_iff hR hdir
  | compress ctx temps paths dest =>
    exact iff_of_true (compress_errsOrStays lib fmts ctx temps paths dest hR) trivial

/-- Two instances: a link in the first leads to the second, and one there leads back. -/
def twoInstances : Tree Name Str :=
  .build
    [([], name "a", ⟨.dir, 0o755, 1000, 1000⟩),
     ([], name "b", ⟨.dir, 0o755, 1000, 1000⟩),
     ([name "a"], name "out", ⟨.link ⟨false, [.up, .name (name "b")]⟩, 0o777, 1000, 1000⟩),
     ([name "a"], name "x", ⟨.file [], 0o644, 1000, 1000⟩),
     ([name "b"], name "l",
       ⟨.link ⟨false, [.up, .name (name "a"), .name (name "x")]⟩, 0o777, 1000, 1000⟩)]

def firstInstance : FS := ⟨[name "a"], 1000, 1000, true⟩

/-- Bytes taken as they are, for the examples. -/
def plainLib : Lib := ⟨id, fun _ => true, id⟩

def plainFormats : Formats where
  readTar _ := ⟨[], none⟩
  gunzip s := .ok ⟨s, none, false⟩
  openZip _ := .error []
  packZip _ := .ok []
  packTarGz _ := .ok []

theorem request_confined_iff_twoInstances :
    (Request.chmod 0o700 true ["x".toList]).Confined firstInstance plainLib plainFormats
      twoInstances [name "a"] :=
  (request_confined_iff firstInstance plainLib plainFormats twoInstances [name "a"] (by decide)
    (by decide) _).mpr trivial

/-- `Delete` of `out/l` in the first instance removes the link that lies in the second. -/
theorem delete_removes_outside_link :
    ¬ ∀ (f : FS) (lib : Lib) (fmts : Formats) (t : Tree Name Str) (R : Loc Name),
      evalSymlinks t f.root = .ok R → t.look R = some .dir →
        ∀ q : Request, q.Confined f lib fmts t R := by
  intro h
  have hdelete : (firstInstance.delete ["out/l".toList]).ErrsOrStays [name "a"] twoInstances :=
    h firstInstance plainLib plainFormats twoInstances [name "a"] (by decide) (by decide)
      (.delete ["out/l".toList])
  have hturn : turn firstInstance twoInstances "out/l".toList =
      .removes [name "b", name "l"] := by decide +kernel
  rcases delete_errsOrStays_iff.mp hdelete with hrefused | hinside
  · rw [DeleteRefused, hturn] at hrefused
    exact hrefused
  · rw [DeleteInside, hturn] at hinside
    exact absurd hinside.1 (by decide)

end Instfs
