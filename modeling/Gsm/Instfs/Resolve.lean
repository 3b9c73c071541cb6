import Gsm.GoStd.Os
import Gsm.GoStd.Path

/-!
# Paths of the file manager

`internal/instfs` works inside the data directory of one instance. `Resolve` turns a request path
into an absolute one and follows the links on its deepest part that exists; `Guarded` is what it has
checked when it accepts. `mkdirAllOwned` makes missing directories and hands them to the owner.
-/

open Posix GoStd

namespace Instfs

/-- `FS`: where the instance's data lies and who owns what is created there. -/
structure FS where
  root : Path
  uid : ℕ
  gid : ℕ
  chown : Bool

inductive FsError where
  /-- `InvalidError`, a mistake of the caller -/
  | invalid (msg : Str)
  /-- the `InvalidError` that carries `conflict` -/
  | conflict (msg : Str)
  /-- any other error -/
  | failed (msg : Str)
deriving DecidableEq

/-- The calls of this package on the host's tree. -/
abbrev Prog (γ : Type) := Sys Name Str FsError γ

abbrev Refusal := Failure FsError

def invalid (msg : String) (arg : Str := []) : Refusal := .other (.invalid (msg.toList ++ arg))

/-- The owner of what is created, if it is handed over. -/
def FS.own (f : FS) : Option (ℕ × ℕ) := if f.chown then some (f.uid, f.gid) else none

/-- `Clean`: the names of a relative path. -/
def cleanRel (rel : Str) : Except Refusal Path :=
  if Char.ofNat 0 ∈ rel then .error (invalid "path contains NUL")
  else if ['/'].isPrefixOf rel then .error (invalid "path must be relative to the instance")
  else if hasDotDot rel then .error (invalid "path may not contain ..")
  else .ok (clean rel)

/-- A clean relative path as it is shown. -/
def text (c : Path) : Str := (renderTail c).drop 1

/-- The loop of `Resolve`: the deepest ancestor that resolves must do so inside the root. The probe
is given in reverse, `rest` is what was taken off it. -/
def probeUp (t : Tree Name Str) (root : Path) : List Name → Path → Except Refusal Unit
  | probe, rest =>
    match evalSymlinks t probe.reverse with
    | .ok resolved =>
        if within root resolved && within root (resolved ++ rest) then .ok ()
        else .error (invalid "path resolves outside the instance")
    | .error .noent =>
        match probe with
        | [] => .error (invalid "path resolves outside the instance")
        | base :: parent => probeUp t root parent (base :: rest)
    | .error e => .error (.errno e)

/-- `Resolve`: the absolute path and the clean relative one. -/
def resolve (t : Tree Name Str) (f : FS) (rel : Str) : Except Refusal (Path × Path) :=
  match cleanRel rel with
  | .error e => .error e
  | .ok c =>
      match evalSymlinks t f.root with
      | .error _ => .error (.other (.failed "instance root: ".toList))
      | .ok root =>
          match probeUp t root (root ++ c).reverse [] with
          | .error e => .error e
          | .ok () => .ok (root ++ c, c)

/-! ## What `Resolve` has checked -/

/-- The deepest part of `p` that resolves does so inside `R`. -/
def Guarded (t : Tree Name Str) (R : Loc Name) (p : Path) : Prop :=
  ∃ q rest L, p = q ++ rest ∧ evalSymlinks t q = .ok L ∧ R <+: L ∧
    ∀ r, r ≠ [] → r <+: rest → evalSymlinks t (q ++ r) = .error .noent

variable {t : Tree Name Str} {R d l : Loc Name} {p q : Path} {c : Name} {f : FS} {rel : Str}

theorem probeUp_ok {probe rest : Path} (h : probeUp t R probe rest = .ok ()) :
    Guarded t R probe.reverse := by
  induction probe generalizing rest with
  | nil =>
    have hroot : evalSymlinks t [] = .ok [] := evalSymlinks_eq_ok.mpr walk_nil
    simp only [probeUp, List.reverse_nil, hroot] at h
    split at h
    · next hw =>
      have hin := within_iff.mp (Bool.and_eq_true_iff.mp hw).1
      refine ⟨[], [], [], rfl, hroot, ?_, fun r hr hpre => absurd (List.prefix_nil.mp hpre) hr⟩
      rcases hin with rfl | ⟨-, hin⟩
      · rfl
      · exact hin
    · cases h
  | cons base parent ih =>
    rw [probeUp] at h
    match he : evalSymlinks t (base :: parent).reverse with
    | .ok L =>
      simp only [he] at h
      split at h
      · next hw =>
        refine ⟨_, [], L, by simp, he, ?_, fun r hr hpre => absurd (List.prefix_nil.mp hpre) hr⟩
        rcases within_iff.mp (Bool.and_eq_true_iff.mp hw).1 with rfl | ⟨-, hin⟩
        · rfl
        · exact hin
      · cases h
    | .error e =>
      cases e <;> simp only [he] at h <;> try cases h
      obtain ⟨q, r, L, hq, hL, hin, hr⟩ := ih h
      refine ⟨q, r ++ [base], L, by simp [hq], hL, hin, fun x hx hpre => ?_⟩
      rcases List.prefix_concat_iff.mp hpre with rfl | hpre
      · rw [← he, List.reverse_cons, hq, List.append_assoc]
      · exact hr x hx hpre

theorem resolve_ok {abs c : Path} (h : resolve t f rel = .ok (abs, c)) :
    ∃ R, evalSymlinks t f.root = .ok R ∧ cleanRel rel = .ok c ∧ abs = R ++ c ∧
      Guarded t R abs := by
  unfold resolve at h
  split at h
  · cases h
  · next c' hc =>
    split at h
    · cases h
    · next R hR =>
      split at h
      · cases h
      · next hprobe =>
        cases h
        have := probeUp_ok hprobe
        rw [List.reverse_reverse] at this
        exact ⟨R, hR, hc, rfl, this⟩

/-- What the path leads to is inside. -/
theorem Guarded.stat (h : Guarded t R p) (hs : t.stat p = .found l) : R <+: l := by
  obtain ⟨q, rest, L, rfl, hL, hin, hrest⟩ := h
  by_cases hr : rest = []
  · subst hr
    rw [List.append_nil] at hs
    cases hL.symm.trans (evalSymlinks_of_stat hs)
    exact hin
  · have := hrest rest hr List.prefix_rfl
    rw [evalSymlinks_of_stat hs] at this
    cases this

/-- Where the first missing directory would be made is inside. -/
theorem Guarded.missing {rest : Path} (h : Guarded t R (p ++ c :: rest)) (hd : t.DirAt p d)
    (hc : t.look (d ++ [c]) = none) : R <+: d := by
  obtain ⟨q, r, L, hq, hL, hin, hrest⟩ := h
  rcases List.append_eq_append_iff.mp hq.symm with ⟨x, hp, hr⟩ | ⟨x, hp, hr⟩
  · -- the part that resolves is `p` or above it
    by_cases hx : x = []
    · subst hx
      rw [List.append_nil] at hp
      subst hp
      cases hL.symm.trans (evalSymlinks_of_stat hd.1)
      exact hin
    · have := hrest x hx ⟨c :: rest, hr.symm⟩
      rw [← hp, evalSymlinks_of_stat hd.1] at this
      cases this
  · cases x with
    | nil =>
      rw [List.append_nil] at hp
      subst hp
      cases hL.symm.trans (evalSymlinks_of_stat hd.1)
      exact hin
    | cons b x =>
      -- below the free name nothing resolves
      obtain ⟨rfl, -⟩ : c = b ∧ rest = x ++ r := by simpa using hr
      rw [hp] at hL
      exact absurd hL (evalSymlinks_missing hd hc x L)

/-- What the path names is inside, unless it is a link. -/
theorem Guarded.lstat (h : Guarded t R p) (hs : t.lstat p = .found l)
    (hg : ∀ g, t.look l ≠ some (.link g)) : R <+: l :=
  h.stat (Tree.stat_of_lstat hs hg)

/-! ## Making directories -/

/-- `chown`: hand a node over, whatever comes of it. -/
def FS.giveAway (f : FS) (p : Path) : Prog Unit := Sys.handOver f.own p

/-- `os.Mkdir`, where an entry that is there is no error, and `chown`. -/
def FS.makeOwned (f : FS) (p : Path) : Prog Unit := do
  match ← (Sys.mkdir p 0o755).attempt with
  | .ok _ => f.giveAway p
  | .error (.errno .exist) => f.giveAway p
  | .error e => Sys.throw e

/-- `mkdirAllOwned`, on the components in reverse. -/
def FS.mkdirAllOwnedRev (f : FS) : List Name → Prog Unit
  | [] => pure ()
  | c :: up => do
      match ← (Sys.stat (c :: up).reverse).attempt with
      | .ok _ => pure ()
      | .error _ =>
          f.mkdirAllOwnedRev up
          f.makeOwned (c :: up).reverse

def FS.mkdirAllOwned (f : FS) (p : Path) : Prog Unit := f.mkdirAllOwnedRev p.reverse

theorem mkdirAllOwned_concat (p : Path) (c : Name) :
    f.mkdirAllOwned (p ++ [c]) = (do
      match ← (Sys.stat (p ++ [c])).attempt with
      | .ok _ => pure ()
      | .error _ =>
          f.mkdirAllOwned p
          f.makeOwned (p ++ [c])) := by
  have hrev : (p ++ [c]).reverse = c :: p.reverse := by simp
  have hback : (c :: p.reverse).reverse = p ++ [c] := by simp
  rw [FS.mkdirAllOwned, hrev, FS.mkdirAllOwnedRev, hback]
  rfl

variable {j : Journal Name Str} {rest : Path} {g : Target Name}

theorem run_giveAway (h : j.tree.lstat p = .found l) :
    (f.giveAway p).run j = (.ok (), j.give f.own l) := Sys.run_handOver h

/-- A free name becomes a directory. -/
theorem run_makeOwned (h : j.tree.DirAt p d) (hc : j.tree.look (d ++ [c]) = none) :
    (f.makeOwned (p ++ [c])).run j =
      (.ok (), (j.create d c ⟨.dir, 0o755, 0, 0⟩).give f.own (d ++ [c])) := by
  have habsent : j.tree.lstat (p ++ [c]) = .absent d c :=
    Tree.lstat_concat_eq_absent.mpr ⟨h, rfl, hc⟩
  have hnew (x : Loc Name) := Tree.look_create (⟨.dir, 0o755, 0, 0⟩ : Node Name Str) h.2
    (Tree.look_eq_none.mp hc) x
  have hfound : (j.create d c ⟨.dir, 0o755, 0, 0⟩).tree.lstat (p ++ [c]) = .found (d ++ [c]) := by
    refine Tree.lstat_concat_eq_found.mpr ⟨d, h.mono fun x s hx => ?_, rfl, ?_⟩
    · rw [Journal.tree_create, hnew, if_neg, hx]
      rintro rfl
      rw [hc] at hx
      cases hx
    · rw [Journal.tree_create, hnew, if_pos rfl]
      simp
  rw [FS.makeOwned, Sys.run_bind_ok (by rw [Sys.run_attempt, Sys.run_mkdir_absent habsent])]
  exact run_giveAway hfound

/-- What is there already, if only as a link, is handed over. -/
theorem run_makeOwned_exist (h : j.tree.lstat p = .found l) :
    (f.makeOwned p).run j = (.ok (), j.give f.own l) := by
  rw [FS.makeOwned, Sys.run_bind_ok (by rw [Sys.run_attempt, Sys.run_mkdir_found h])]
  exact run_giveAway h

theorem run_makeOwned_fail {e : Errno} (h : j.tree.lstat p = .fail e) :
    (f.makeOwned p).run j = (.error (.errno e), j) := by
  have he : e ≠ .exist := by
    rintro rfl
    exact walk_ne_exist _ _ _ h
  rw [FS.makeOwned, Sys.run_bind_ok (by rw [Sys.run_attempt, Sys.run_mkdir_fail h])]
  cases e <;> first | exact absurd rfl he | rfl

theorem mkdirAllOwned_present (h : j.tree.stat p = .found l) :
    (f.mkdirAllOwned p).run j = (.ok (), j) := by
  rcases List.eq_nil_or_concat p with rfl | ⟨q, c, rfl⟩
  · rfl
  · rw [List.concat_eq_append] at h ⊢
    obtain ⟨s, hs, -⟩ := Tree.stat_found h
    obtain ⟨nd, hnd, -⟩ := Option.map_eq_some_iff.mp hs
    rw [mkdirAllOwned_concat, Sys.run_bind, Sys.run_attempt, Sys.run_stat_found h hnd]
    rfl

/-- Without the directory, the parents come first. -/
theorem run_mkdirAllOwned_concat (hno : ∀ l, j.tree.stat (p ++ [c]) ≠ .found l) :
    (f.mkdirAllOwned (p ++ [c])).run j =
      (do f.mkdirAllOwned p; f.makeOwned (p ++ [c]) : Prog Unit).run j := by
  obtain ⟨e, he⟩ := Sys.run_stat_not_found (μ := FsError) hno
  rw [mkdirAllOwned_concat, Sys.run_bind, Sys.run_attempt, he]

/-- A missing tail of the path is made and handed over, all of it. -/
theorem mkdirAllOwned_missing (h : j.tree.DirAt q d) (hc : j.tree.look (d ++ [c]) = none)
    (rest : Path) :
    (f.mkdirAllOwned (q ++ c :: rest)).run j =
      (.ok (), j.makeDirs f.own 0o755 d (c :: rest)) := by
  induction rest using List.reverseRecOn with
  | nil =>
    rw [run_mkdirAllOwned_concat (h.stat_missing hc []),
      Sys.run_bind_ok (mkdirAllOwned_present h.1), run_makeOwned h hc]
    rfl
  | append_singleton rest b ih =>
    have happ (x : Path) : x ++ c :: (rest ++ [b]) = x ++ c :: rest ++ [b] := by simp
    have hno := h.stat_missing hc (rest ++ [b])
    rw [happ] at hno ⊢
    have hdir := Journal.dirAt_makeDirs f.own 0o755 h hc rest
    have hfree := Tree.look_eq_none.mpr (Journal.node_below_makeDirs f.own 0o755 h.2 hc rest
      (y := [b]) (by simp))
    rw [run_mkdirAllOwned_concat hno, Sys.run_bind_ok ih, run_makeOwned hdir hfree,
      ← List.cons_append, Journal.makeDirs_concat]

/-- A link that leads nowhere is handed over. -/
theorem mkdirAllOwned_blocked (h : j.tree.DirAt q d) (hc : j.tree.look (d ++ [c]) ≠ none)
    (hno : ∀ l, j.tree.stat (q ++ [c]) ≠ .found l) :
    (f.mkdirAllOwned (q ++ [c])).run j = (.ok (), j.give f.own (d ++ [c])) := by
  have hfound : j.tree.lstat (q ++ [c]) = .found (d ++ [c]) :=
    Tree.lstat_concat_eq_found.mpr ⟨d, h, rfl, hc⟩
  rw [run_mkdirAllOwned_concat hno, Sys.run_bind_ok (mkdirAllOwned_present h.1),
    run_makeOwned_exist hfound]

/-- Nothing can be made behind it. -/
theorem mkdirAllOwned_blocked_cons (h : j.tree.DirAt q d) (hc : j.tree.look (d ++ [c]) ≠ none)
    (hno : ∀ l, j.tree.stat (q ++ [c]) ≠ .found l) (b : Name) (rest : Path) :
    ∃ e, (f.mkdirAllOwned (q ++ c :: b :: rest)).run j = (.error e, j.give f.own (d ++ [c])) := by
  induction rest using List.reverseRecOn with
  | nil =>
    have happ : q ++ [c, b] = q ++ [c] ++ [b] := by simp
    obtain ⟨e, he⟩ := Tree.lstat_concat_of_not_dir (t := (j.give f.own (d ++ [c])).tree)
      (p := q ++ [c]) (c := b) fun d' hd' => hno d' (by simpa using hd'.1)
    rw [happ, run_mkdirAllOwned_concat (Tree.stat_append_not_found hno [b]),
      Sys.run_bind_ok (mkdirAllOwned_blocked h hc hno), run_makeOwned_fail he]
    exact ⟨_, rfl⟩
  | append_singleton rest a ih =>
    obtain ⟨e, he⟩ := ih
    have happ : q ++ c :: b :: (rest ++ [a]) = q ++ c :: b :: rest ++ [a] := by simp
    have hno' : ∀ l, j.tree.stat (q ++ c :: b :: rest ++ [a]) ≠ .found l := by
      simpa using Tree.stat_append_not_found hno (b :: rest ++ [a])
    rw [happ, run_mkdirAllOwned_concat hno', Sys.run_bind_error he]
    exact ⟨_, rfl⟩

/-- The ways it can go: something is there, a tail is missing, a link is in the way, or nothing
changes. -/
theorem mkdirAllOwned_cases (f : FS) (j : Journal Name Str) (p : Path) :
    (∃ l, j.tree.stat p = .found l) ∨
    (∃ q c rest d, p = q ++ c :: rest ∧ j.tree.DirAt q d ∧ j.tree.look (d ++ [c]) = none) ∨
    (∃ q c rest d, p = q ++ c :: rest ∧ j.tree.DirAt q d ∧ j.tree.look (d ++ [c]) ≠ none ∧
      ∀ l, j.tree.stat (q ++ [c]) ≠ .found l) ∨
    ∃ e, (f.mkdirAllOwned p).run j = (.error e, j) := by
  induction p using List.reverseRecOn with
  | nil => exact .inl ⟨[], Tree.stat_root⟩
  | append_singleton q c ih =>
    by_cases hno : ∀ l, j.tree.stat (q ++ [c]) ≠ .found l
    · rcases ih with ⟨l, hl⟩ | ⟨q', c', rest, d, rfl, hq, hc⟩ | ⟨q', c', rest, d, rfl, hq, hc, hb⟩ |
        ⟨e, he⟩
      · obtain ⟨s, hs, hlink⟩ := Tree.stat_found hl
        by_cases hdir : s = .dir
        · subst hdir
          by_cases hc : j.tree.look (l ++ [c]) = none
          · exact .inr (.inl ⟨q, c, [], l, rfl, ⟨hl, hs⟩, hc⟩)
          · exact .inr (.inr (.inl ⟨q, c, [], l, rfl, ⟨hl, hs⟩, hc, hno⟩))
        · -- a file where a directory should be
          obtain ⟨e, he⟩ := Tree.lstat_concat_of_not_dir (t := j.tree) (p := q) (c := c)
            fun d hd => by
              cases hl.symm.trans hd.1
              exact hdir (Option.some.inj (hs.symm.trans hd.2))
          refine .inr (.inr (.inr ⟨.errno e, ?_⟩))
          rw [run_mkdirAllOwned_concat hno, Sys.run_bind_ok (mkdirAllOwned_present hl),
            run_makeOwned_fail he]
      · exact .inr (.inl ⟨q', c', rest ++ [c], d, by simp, hq, hc⟩)
      · exact .inr (.inr (.inl ⟨q', c', rest ++ [c], d, by simp, hq, hc, hb⟩))
      · refine .inr (.inr (.inr ⟨e, ?_⟩))
        rw [run_mkdirAllOwned_concat hno, Sys.run_bind_error he]
    · push Not at hno
      exact .inl hno

end Instfs
