import Gsm.GoStd.Os
import Gsm.GoStd.Path
import Gsm.Posix.Rooted

/-!
# Go's `os.Root`

The methods of an open directory. A name with a NUL is refused before any system call, a path that would leave the
directory by the lookup. Permissions of the caller, the umask and times are left out.
-/

open Posix

namespace GoStd

/-- The flags of `OpenFile`; without `write` the file is opened for reading. -/
structure OpenFlags where
  write : Bool := false
  creat : Bool := false
  trunc : Bool := false
  excl : Bool := false
  directory : Bool := false

/-- `FileMode.IsRegular` -/
def isRegular {α β : Type} (nd : Node α β) : Bool :=
  match nd.kind with
  | .file _ => true
  | _ => false

namespace Root

variable {μ γ : Type} (R : Loc Name)

def sound (p : Path) (m : Sys Name Str μ γ) : Sys Name Str μ γ :=
  if hasNul p then Sys.throw (.errno .inval) else m

section
attribute [local simp] GoStd.Root.sound
end

def stat (p : Path) : Sys Name Str μ (Node Name Str) :=
  sound p do Sys.nodeAt (← Sys.existing (·.rootStat R p))

def lstat (p : Path) : Sys Name Str μ (Node Name Str) :=
  sound p do Sys.nodeAt (← Sys.existing (·.rootLstat R p))

def readlink (p : Path) : Sys Name Str μ (Target Name) :=
  sound p do
    match (← Sys.nodeAt (← Sys.existing (·.rootLstat R p))).kind with
    | .link target => pure target
    | _ => Sys.throw (.errno .inval)

def chmod (p : Path) (mode : ℕ) : Sys Name Str μ Unit :=
  sound p (Sys.touch (·.rootStat R p) .chmod Act.changes_chmod (Node.setMode mode) (Node.shape_setMode mode))

def lchown (p : Path) (uid gid : ℕ) : Sys Name Str μ Unit :=
  sound p (Sys.touch (·.rootLstat R p) .chown Act.changes_chown (Node.setOwner uid gid) (Node.shape_setOwner uid gid))

def mkdir (p : Path) (mode : ℕ) : Sys Name Str μ Unit :=
  sound p do
    match ← Sys.peek (·.rootLstat R p) with
    | .found _ => Sys.throw (.errno .exist)
    | .absent d n => Sys.create d n ⟨.dir, mode, 0, 0⟩
    | .fail e => Sys.throw (.errno e)

/-- An `open` that finds something. -/
def openFound (o : OpenFlags) (l : Loc Name) : Sys Name Str μ (Loc Name) := do
  match (← Sys.nodeAt l).kind with
  | .file _ =>
      if o.directory then Sys.throw (.errno .notDir)
      else if o.trunc then do
        Sys.write l []
        pure l
      else pure l
  | .dir => if o.write || o.creat then Sys.throw (.errno .isDir) else pure l
  | _ => if o.directory then Sys.throw (.errno .notDir) else if o.write then Sys.throw (.errno .nxio) else pure l

/-- `OpenFile`; the place stands for the descriptor. A dangling link is followed and its target created. -/
def openFile (p : Path) (o : OpenFlags) (mode : ℕ) : Sys Name Str μ (Loc Name) :=
  sound p do
    match ← Sys.peek (fun t => if o.creat && o.excl then t.rootLstat R p else t.rootStat R p) with
    | .found l => if o.creat && o.excl then Sys.throw (.errno .exist) else openFound o l
    | .absent d n =>
        if o.creat then do
          Sys.create d n ⟨.file [], mode, 0, 0⟩
          pure (d ++ [n])
        else Sys.throw (.errno .noent)
    | .fail e => Sys.throw (.errno e)

def remove (p : Path) : Sys Name Str μ Unit :=
  sound p do
    let l ← Sys.existing (·.rootLstat R p)
    match (← Sys.nodeAt l).kind with
    | .dir =>
        if (← Sys.look fun t => .ok (t.names l)) = [] then Sys.remove l else Sys.throw (.errno .notEmpty)
    | _ => Sys.remove l

def rename (src dst : Path) : Sys Name Str μ Unit :=
  sound src <| sound dst do
    let s ← Sys.existing (·.rootLstat R src)
    let nd ← Sys.nodeAt s
    let x ← Sys.look fun t => (t.rootLstat R dst).place.mapError .errno
    Sys.renameTo s nd x

/-! ## What they do to the tree -/

variable {R} {W : Rework Name Str} {j j' : Journal Name Str} {p src dst : Path} {l : Loc Name} {o : OpenFlags} {mode : ℕ}

theorem readsOnly_sound {m : Sys Name Str μ γ} (h : m.ReadsOnly) : (sound p m).ReadsOnly := by
  rw [sound]
  split
  · exact Sys.readsOnly_throw _
  · exact h

theorem reworks_sound {m : Sys Name Str μ γ} (h : m.Reworks W R j) : (sound p m).Reworks W R j := by
  rw [sound]
  split
  · exact .refl _
  · exact h

theorem readsOnly_stat : (stat R p : Sys Name Str μ _).ReadsOnly :=
  readsOnly_sound ((Sys.readsOnly_existing _).bind fun _ => Sys.readsOnly_nodeAt _)

theorem readsOnly_lstat : (lstat R p : Sys Name Str μ _).ReadsOnly :=
  readsOnly_sound ((Sys.readsOnly_existing _).bind fun _ => Sys.readsOnly_nodeAt _)

theorem readsOnly_readlink : (readlink R p : Sys Name Str μ _).ReadsOnly := by
  refine readsOnly_sound ((Sys.readsOnly_existing _).bind fun _ => (Sys.readsOnly_nodeAt _).bind fun _ => ?_)
  split
  · exact Sys.readsOnly_pure _
  · exact Sys.readsOnly_throw _

theorem reworks_chmod (hkeep : ∀ nd, W.keep nd (nd.setMode mode)) :
    (chmod R p mode : Sys Name Str μ _).Reworks W R j :=
  reworks_sound (Sys.reworks_touch _ (fun _ hl => Tree.rootStat_found hl) hkeep)

/-- An `open` without a file to create only empties what it finds. -/
theorem reworks_openFound (hl : R <+: l) (hkeep : ∀ nd, W.keep nd (nd.setData [])) :
    (openFound o l : Sys Name Str μ _).Reworks W R j := by
  refine .bind_of_readsOnly (Sys.readsOnly_nodeAt l) fun nd j' _ _ => ?_
  split
  · split
    · exact .refl _
    split
    · exact .alter (Node.shape_setData []) hl fun nd _ => hkeep nd
    · exact .refl _
  · split <;> exact .refl _
  · split
    · exact .refl _
    split <;> exact .refl _

/-- An `open` makes nothing, where what it looks up is not a free name. -/
theorem reworks_openFile (hkeep : ∀ nd, W.keep nd (nd.setData []))
    (hfree : o.creat = true → hasNul p = false →
      ∀ d n, j.tree.rootLstat R p ≠ .absent d n ∧ j.tree.rootStat R p ≠ .absent d n) :
    (openFile R p o mode : Sys Name Str μ _).Reworks W R j := by
  rw [openFile, sound]
  split
  · exact .refl _
  next hnul =>
  refine .bind_peek ?_
  split
  · next l hl =>
    split
    · exact .refl _
    · next hexcl =>
      rw [if_neg hexcl] at hl
      exact reworks_openFound (Tree.rootStat_found hl) hkeep
  · next d n hw =>
    split
    · next hcreat =>
      have hnot := hfree hcreat (Bool.eq_false_iff.mpr hnul) d n
      split at hw
      · exact absurd hw hnot.1
      · exact absurd hw hnot.2
    · exact .refl _
  · exact .refl _

theorem openFound_eq_ok {x : Loc Name} (h : (openFound o l : Sys Name Str μ _).run j = (.ok x, j')) : x = l := by
  obtain ⟨nd, j₁, -, hrest⟩ := Sys.run_bind_eq_ok.mp h
  split at hrest
  · split at hrest
    · cases hrest
    split at hrest
    · obtain ⟨_, j₂, -, hpure⟩ := Sys.run_bind_eq_ok.mp hrest
      cases hpure
      rfl
    · cases hrest
      rfl
  · split at hrest <;> cases hrest
    rfl
  · split at hrest
    · cases hrest
    split at hrest <;> cases hrest
    rfl

/-- What is opened lies inside. -/
theorem openFile_inside {x : Loc Name} (h : (openFile R p o mode : Sys Name Str μ _).run j = (.ok x, j')) : R <+: x := by
  rw [openFile, sound] at h
  split at h
  · cases h
  obtain ⟨w, j₁, hpeek, hrest⟩ := Sys.run_bind_eq_ok.mp h
  obtain ⟨hw, rfl⟩ : (if o.creat && o.excl then j.tree.rootLstat R p else j.tree.rootStat R p) = w ∧ j = j₁ := by
    cases hpeek
    exact ⟨rfl, rfl⟩
  split at hrest
  · next l =>
    split at hrest
    · cases hrest
    · next hexcl =>
      rw [if_neg hexcl] at hw
      rw [openFound_eq_ok hrest]
      exact Tree.rootStat_found hw
  · next d n =>
    split at hrest
    · cases hrest
      refine (?_ : R <+: d).trans (List.prefix_append _ _)
      split at hw
      · exact Tree.rootLstat_absent hw
      · exact Tree.rootStat_absent hw
    · cases hrest
  · cases hrest

/-- A directory is made where its name is free, or nothing. -/
theorem run_mkdir_cases (R : Loc Name) (p : Path) (mode : ℕ) (j : Journal Name Str) :
    (∃ e, (mkdir R p mode : Sys Name Str μ _).run j = (.error e, j)) ∨
    hasNul p = false ∧ ∃ d n, j.tree.rootLstat R p = .absent d n ∧
      (mkdir R p mode : Sys Name Str μ _).run j = (.ok (), j.create d n ⟨.dir, mode, 0, 0⟩) := by
  rw [mkdir, sound]
  split
  · exact .inl ⟨_, rfl⟩
  next hnul =>
  have hrun : (Sys.peek (·.rootLstat R p) : Sys Name Str μ _).run j = (.ok (j.tree.rootLstat R p), j) := rfl
  rw [Sys.run_bind_ok hrun]
  split
  · exact .inl ⟨_, rfl⟩
  · next d n hw => exact .inr ⟨Bool.eq_false_iff.mpr hnul, d, n, hw, rfl⟩
  · exact .inl ⟨_, rfl⟩

/-- Where nothing has the name a file is made under it, or nothing. -/
theorem run_openFile_cases (o : OpenFlags) (mode : ℕ) (hw : ∀ l, j.tree.rootLstat R p ≠ .found l) :
    (∃ e, (openFile R p o mode : Sys Name Str μ _).run j = (.error e, j)) ∨
      hasNul p = false ∧ ∃ d n, j.tree.rootLstat R p = .absent d n ∧
        (openFile R p o mode : Sys Name Str μ _).run j = (.ok (d ++ [n]), j.create d n ⟨.file [], mode, 0, 0⟩) := by
  have hstat : j.tree.rootStat R p = j.tree.rootLstat R p :=
    Tree.rootStat_of_rootLstat fun l hl => absurd hl (hw l)
  have hpeek : (if o.creat && o.excl then j.tree.rootLstat R p else j.tree.rootStat R p) = j.tree.rootLstat R p := by
    rw [hstat, ite_self]
  rw [openFile, sound]
  split
  · exact .inl ⟨_, rfl⟩
  next hnul =>
  have hrun : (Sys.peek fun t => if o.creat && o.excl then t.rootLstat R p else t.rootStat R p : Sys Name Str μ _).run j =
      (.ok (j.tree.rootLstat R p), j) := by
    rw [Sys.peek, Sys.run_look, hpeek]
  rw [Sys.run_bind_ok hrun]
  split
  · next l hl => exact absurd hl (hw l)
  · next d n hfree =>
    split
    · exact .inr ⟨Bool.eq_false_iff.mpr hnul, d, n, hfree, rfl⟩
    · exact .inl ⟨_, rfl⟩
  · exact .inl ⟨_, rfl⟩

/-- What is made under a name that was free is handed over under that name. -/
theorem run_lchown_made {d : Loc Name} {n : Name} {nd : Node Name Str} {uid gid : ℕ} (hR : j.tree.look R = some .dir)
    (hnul : hasNul p = false) (hw : j.tree.rootLstat R p = .absent d n) :
    (lchown R p uid gid : Sys Name Str μ _).run (j.create d n nd) = (.ok (), (j.create d n nd).alter .chown Act.changes_chown
      (d ++ [n]) (Node.setOwner uid gid) (Node.shape_setOwner uid gid)) := by
  obtain ⟨hdir, hfree⟩ := Tree.free_of_rootLstat hR hw
  have hlook := Tree.look_create nd hdir (Tree.look_eq_none.mp hfree)
  have hfill : (j.create d n nd).tree.rootLstat R p = .found (d ++ [n]) := by
    refine Tree.rootLstat_fill (fun x s hx => ?_) ((hlook _).trans (if_pos rfl)) hw
    rw [Journal.tree_create, hlook, if_neg, hx]
    rintro rfl
    cases hfree.symm.trans hx
  rw [lchown, sound, hnul]
  exact Sys.run_touch_found hfill

theorem reworks_remove (hp : p ≠ []) : (remove R p : Sys Name Str μ _).Reworks W R j := by
  refine reworks_sound (.bind_existing fun l hl => ?_)
  obtain ⟨d, c, hd, rfl⟩ := Tree.rootLstat_found hp hl
  refine .bind_look fun nd _ => ?_
  split
  · refine .bind_look fun names _ => ?_
    split
    · exact .remove hd
    · exact .refl _
  · exact .remove hd

theorem reworks_rename (hsrc : src ≠ []) (hdst : dst ≠ []) :
    (rename R src dst : Sys Name Str μ _).Reworks W R j := by
  refine reworks_sound (reworks_sound (.bind_existing fun s hs => .bind_look fun nd _ => .bind_look fun x hx => ?_))
  obtain ⟨d, m, hd, rfl⟩ := Tree.rootLstat_found hsrc hs
  have hplace : (j.tree.rootLstat R dst).place = .ok x := by
    rcases hw : (j.tree.rootLstat R dst).place with e | y
    · rw [hw] at hx
      cases hx
    · rw [hw] at hx
      exact congrArg Except.ok (Except.ok.inj hx)
  obtain ⟨d', n, hd', rfl⟩ := Tree.rootLstat_place hdst hplace
  exact Sys.reworks_renameTo hd hd'

end Root

end GoStd
