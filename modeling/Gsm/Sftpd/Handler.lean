import Mathlib
import Gsm.GoStd.Root
import Gsm.Machine.Exec
import Gsm.Posix.Owners

/-!
# What an SFTP session may do

The requests of one channel on the tree of the node (`internal/sftpd/fs.go`). The bytes that go through an open file,
times and the session's counters are left out.
-/

open Machine Posix GoStd

namespace Sftpd

/-- `handler` -/
structure Handler where
  root : Loc Name
  uid : ℕ
  gid : ℕ
  chown : Bool

inductive HandlerError where
  /-- `errPermission` -/
  | permission
  /-- `"%s: %w"`, with `fs.ErrExist` -/
  | exist (target : Str)
  /-- `"%s is a directory"` -/
  | isDirectory (filepath : Str)
  /-- `"%s is not a directory"` -/
  | notDirectory (filepath : Str)
  /-- `sftp.ErrSSHFxOpUnsupported` -/
  | unsupported
deriving DecidableEq

abbrev HandlerProg (γ : Type) := Sys Name Str HandlerError γ

/-- What is used of `sftp.FileOpenFlags`. -/
structure Pflags where
  creat : Bool
  trunc : Bool
  excl : Bool

/-- The attributes that are set, by their flags. -/
structure Attrs where
  size : Option ℕ
  mode : Option ℕ
  acmodtime : Bool

inductive Request where
  | fileread (filepath : Str)
  | filewrite (filepath : Str) (pflags : Pflags)
  | openFile (filepath : Str) (pflags : Pflags)
  /-- without attributes if those sent cannot be read -/
  | setstat (filepath : Str) (attributes : Option Attrs)
  | rename (filepath target : Str)
  | mkdir (filepath : Str)
  | rmdir (filepath : Str)
  | remove (filepath : Str)
  | symlink (filepath target : Str)
  | link (filepath target : Str)
  | posixRename (filepath target : Str)
  | list (filepath : Str)
  | stat (filepath : Str)
  | lstat (filepath : Str)
  | readlink (filepath : Str)
  /-- any other method -/
  | other

inductive Reply where
  | opened (fd : Loc Name)
  | done
  | infos (infos : List (Name × Node Name Str))
  | info (info : Node Name Str)
  | target (target : Target Name)

/-- `relPath`: the names of the path inside the root, none for `.` -/
def relPath (p : Str) : Path := clean p

def permission {γ : Type} : HandlerProg γ := Sys.throw (.other .permission)

/-- Bytes of a file cut off, or filled up with zeros. -/
def resize (size : ℕ) (data : Str) : Str := data.take size ++ List.replicate (size - data.length) (Char.ofNat 0)

/-- `Truncate`; a size that is negative as a signed number is refused. -/
def truncate (fd : Loc Name) (size : ℕ) : HandlerProg Unit := do
  if 2 ^ 63 ≤ size then Sys.throw (.errno .inval)
  else
    match (← Sys.nodeAt fd).kind with
    | .file data => Sys.write fd (resize size data)
    | _ => Sys.throw (.errno .inval)

namespace Handler

variable (h : Handler)

/-- What `openRegular` looks at before it opens anything -/
def seemsRegular (name : Path) (creating : Bool) : HandlerProg Bool :=
  if creating then pure true
  else do
    match ← (Root.stat h.root name : HandlerProg _).attempt with
    | .ok fi => pure (isRegular fi)
    | .error _ => pure true

def openRegular (name : Path) (flags : OpenFlags) (creating : Bool) : HandlerProg (Loc Name) := do
  if ← h.seemsRegular name creating then do
    let f ← Root.openFile h.root name flags 0o644
    let fi ← Sys.nodeAt f
    if isRegular fi then pure f else permission
  else permission

/-- The entry has been made by this request: it goes to the container user. -/
def handOver (name : Path) : HandlerProg Unit :=
  if h.chown then do
    let _ ← (Root.lchown h.root name h.uid h.gid : HandlerProg Unit).attempt
    pure ()
  else pure ()

/-- `errors.Is(statErr, fs.ErrNotExist)` -/
def isMissing (name : Path) : HandlerProg Bool := do
  match ← (Root.lstat h.root name : HandlerProg _).attempt with
  | .error (.errno .noent) => pure true
  | _ => pure false

def openWrite (filepath : Str) (pf : Pflags) : HandlerProg (Loc Name) :=
  let name := relPath filepath
  let flags : OpenFlags := { write := true, creat := pf.creat, trunc := pf.trunc, excl := pf.excl }
  if name = [] then permission
  else do
    let created ← h.isMissing name
    let f ← h.openRegular name flags created
    if created then do
      h.handOver name
      pure f
    else pure f

def setSize (name : Path) : Option ℕ → HandlerProg Unit
  | none => pure ()
  | some size => do
      let f ← h.openRegular name { write := true } false
      truncate f size

def setMode (name : Path) : Option ℕ → HandlerProg Unit
  | none => pure ()
  | some mode => Root.chmod h.root name (mode &&& 0o777)

def setstat (name : Path) : Option Attrs → HandlerProg Unit
  | none => pure ()
  | some a => do
      h.setSize name a.size
      h.setMode name a.mode
      if a.acmodtime then do
        let _ ← (Root.stat h.root name : HandlerProg _)
        pure ()
      else pure ()

def rename (filepath target : Str) : HandlerProg Unit :=
  if relPath filepath = [] ∨ relPath target = [] then permission
  else do
    match ← (Root.lstat h.root (relPath target) : HandlerProg _).attempt with
    | .ok _ => Sys.throw (.other (.exist target))
    | .error _ => Root.rename h.root (relPath filepath) (relPath target)

def mkdir (name : Path) : HandlerProg Unit := do
  Root.mkdir h.root name 0o755
  h.handOver name

/-- `Rmdir` and `Remove` -/
def remove (filepath : Str) (rmdir : Bool) : HandlerProg Unit :=
  let name := relPath filepath
  if name = [] then permission
  else do
    let fi ← Root.lstat h.root name
    if isDir fi ≠ rmdir then
      Sys.throw (.other (if isDir fi then .isDirectory filepath else .notDirectory filepath))
    else Root.remove h.root name

def posixRename (filepath target : Str) : HandlerProg Unit :=
  if relPath filepath = [] ∨ relPath target = [] then permission
  else Root.rename h.root (relPath filepath) (relPath target)

/-- The entries by name -/
def list (name : Path) : HandlerProg (List (Name × Node Name Str)) := do
  let d ← Root.openFile h.root name { directory := true } 0
  Sys.look fun t => .ok ((t.names d).filterMap fun n => (t.node (d ++ [n])).map (n, ·))

def serve : Request → HandlerProg Reply
  | .fileread filepath => return .opened (← h.openRegular (relPath filepath) {} false)
  | .filewrite filepath pflags | .openFile filepath pflags => return .opened (← h.openWrite filepath pflags)
  | .setstat filepath attributes => do
      h.setstat (relPath filepath) attributes
      pure .done
  | .rename filepath target => do
      h.rename filepath target
      pure .done
  | .mkdir filepath => do
      h.mkdir (relPath filepath)
      pure .done
  | .rmdir filepath => do
      h.remove filepath true
      pure .done
  | .remove filepath => do
      h.remove filepath false
      pure .done
  | .symlink _ _ | .link _ _ => permission
  | .posixRename filepath target => do
      h.posixRename filepath target
      pure .done
  | .list filepath => return .infos (← h.list (relPath filepath))
  | .stat filepath => return .info (← Root.stat h.root (relPath filepath))
  | .lstat filepath => return .info (← Root.lstat h.root (relPath filepath))
  | .readlink filepath => return .target (← Root.readlink h.root (relPath filepath))
  | .other => Sys.throw (.other .unsupported)

/-- A request is served, whatever it is answered. -/
def step (t : Tree Name Str) (r : Request) : Option (Tree Name Str) := some ((h.serve r).run (.of t)).2.tree

end Handler

/-! ## What a request may do -/

/-- The same directory, file, link or device, with the owner it had; no mode with special bits is set. -/
structure SameFile (nd nd' : Node Name Str) : Prop where
  kind : nd'.kind = nd.kind ∨ isRegular nd = true ∧ isRegular nd' = true
  owner : nd'.owner = nd.owner
  mode : nd'.mode = nd.mode ∨ nd'.mode < 0o1000

/-- A directory or a regular file of the owner. -/
structure MadeFor (own : ℕ × ℕ) (nd : Node Name Str) : Prop where
  kind : nd.kind = .dir ∨ isRegular nd = true
  owner : nd.owner = own
  mode : nd.mode < 0o1000

theorem isRegular_congr {nd nd' : Node Name Str} (h : nd'.kind = nd.kind) : isRegular nd' = isRegular nd := by
  unfold isRegular
  rw [h]

theorem SameFile.trans {nd nd' nd'' : Node Name Str} (h : SameFile nd nd') (h' : SameFile nd' nd'') :
    SameFile nd nd'' := by
  refine ⟨?_, h'.owner.trans h.owner, ?_⟩
  · rcases h'.kind with hkind' | ⟨hreg', hreg''⟩
    · rcases h.kind with hkind | ⟨hreg, hreg'⟩
      · exact .inl (hkind'.trans hkind)
      · exact .inr ⟨hreg, (isRegular_congr hkind').trans hreg'⟩
    · rcases h.kind with hkind | ⟨hreg, -⟩
      · exact .inr ⟨(isRegular_congr hkind).symm.trans hreg', hreg''⟩
      · exact .inr ⟨hreg, hreg''⟩
  · rcases h'.mode with hmode' | hmode'
    · rw [hmode']
      exact h.mode
    · exact .inr hmode'

theorem MadeFor.keep {own : ℕ × ℕ} {nd nd' : Node Name Str} (h : MadeFor own nd) (h' : SameFile nd nd') :
    MadeFor own nd' := by
  refine ⟨?_, h'.owner.trans h.owner, ?_⟩
  · rcases h'.kind with hkind | ⟨-, hreg⟩
    · rw [hkind, isRegular_congr hkind]
      exact h.kind
    · exact .inr hreg
  · rcases h'.mode with hmode | hmode
    · rw [hmode]
      exact h.mode
    · exact hmode

def reworkFor (own : ℕ × ℕ) : Rework Name Str where
  made := MadeFor own
  keep := SameFile
  refl _ := ⟨.inl rfl, rfl, .inl rfl⟩
  trans := SameFile.trans
  made_of_keep := MadeFor.keep

namespace Handler

variable {h : Handler} {j j' : Journal Name Str} {name : Path} {filepath : Str} {t t' : Tree Name Str}

/-- Who owns what a session makes. -/
def own (h : Handler) : ℕ × ℕ := if h.chown then (h.uid, h.gid) else (0, 0)

/-- The name is a link that leads nowhere. -/
def dangling (h : Handler) (t : Tree Name Str) (name : Path) : Bool :=
  match t.rootLstat h.root name with
  | .found l =>
      match t.look l with
      | some (.link _) =>
          match t.rootStat h.root name with
          | .found _ => false
          | _ => true
      | _ => false
  | _ => false

/-- No file is created where a link leads nowhere. -/
def Plain (h : Handler) (t : Tree Name Str) : Request → Prop
  | .filewrite filepath pflags | .openFile filepath pflags =>
      pflags.creat = true → h.dangling t (relPath filepath) = false
  | _ => True

theorem sameFile_setData (data : Str) (nd : Node Name Str) : SameFile nd (nd.setData data) := by
  unfold Node.setData
  split
  · next data' hkind => exact ⟨.inr ⟨by rw [isRegular, hkind], rfl⟩, rfl, .inl rfl⟩
  · exact ⟨.inl rfl, rfl, .inl rfl⟩

theorem sameFile_setMode (mode : ℕ) (nd : Node Name Str) : SameFile nd (nd.setMode (mode &&& 0o777)) :=
  ⟨.inl rfl, rfl, .inr (Nat.and_lt_two_pow _ (by decide : 0o777 < 2 ^ 9))⟩

/-- Where a name is found, or is no free name, nothing can be made by opening it. -/
theorem not_absent_of_plain (hplain : h.dangling t name = false) (hw : ∀ d n, t.rootLstat h.root name ≠ .absent d n)
    (d : Loc Name) (n : Name) : t.rootStat h.root name ≠ .absent d n := by
  intro hs
  unfold dangling at hplain
  by_cases hlink : ∀ l, t.rootLstat h.root name = .found l → ∀ g, t.look l ≠ some (.link g)
  · exact hw d n ((Tree.rootStat_of_rootLstat hlink).symm.trans hs)
  · push Not at hlink
    obtain ⟨l, hl, g, hg⟩ := hlink
    simp only [hl, hg, hs] at hplain
    cases hplain

theorem readsOnly_seemsRegular {creating : Bool} : (h.seemsRegular name creating).ReadsOnly := by
  rw [seemsRegular]
  split
  · exact Sys.readsOnly_pure _
  · refine Root.readsOnly_stat.attempt.bind fun r => ?_
    split <;> exact Sys.readsOnly_pure _

theorem readsOnly_isMissing : (h.isMissing name).ReadsOnly := by
  refine Root.readsOnly_lstat.attempt.bind fun r => ?_
  split <;> exact Sys.readsOnly_pure _

theorem reworks_openRegular {flags : OpenFlags} {creating : Bool} {own : ℕ × ℕ}
    (hfree : flags.creat = true → hasNul name = false →
      ∀ d n, j.tree.rootLstat h.root name ≠ .absent d n ∧ j.tree.rootStat h.root name ≠ .absent d n) :
    (h.openRegular name flags creating).Reworks (reworkFor own) h.root j := by
  refine .bind_of_readsOnly readsOnly_seemsRegular fun fits j₁ _ htree => ?_
  rw [← htree] at hfree
  split
  · refine (Root.reworks_openFile (sameFile_setData []) hfree).bind fun f j₂ _ => .bind_look fun nd _ => ?_
    split <;> exact .refl _
  · exact .refl _

/-- An entry that was made under a free name and handed over belongs to the owner. -/
theorem reworked_handOver {d : Loc Name} {n : Name} (nd : Node Name Str) (hR : j.tree.look h.root = some .dir)
    (hnul : hasNul name = false) (hw : j.tree.rootLstat h.root name = .absent d n)
    (hnd : nd.kind = .dir ∨ isRegular nd = true) (hown : nd.owner = (0, 0)) (hmode : nd.mode < 0o1000) :
    Reworked (reworkFor h.own) h.root j.tree ((h.handOver name).run (j.create d n nd)).2.tree := by
  obtain ⟨hdir, hfree⟩ := Tree.free_of_rootLstat hR hw
  have hnode : ∀ x, (j.tree.create d n nd).node x = _ := Tree.node_create hdir (Tree.look_eq_none.mp hfree)
  have hd := Tree.rootLstat_absent hw
  unfold handOver
  split
  · next hchown =>
    have hrun : (Root.lchown h.root name h.uid h.gid : HandlerProg Unit).run (j.create d n nd) = _ :=
      Root.run_lchown_made hR hnul hw
    rw [Sys.run_bind_ok (by rw [Sys.run_attempt, hrun])]
    refine .insert n (nd.setOwner h.uid h.gid) hd ⟨hnd, ?_, hmode⟩ ?_ fun x hx => ?_
    · rw [own, if_pos hchown]
      rfl
    · simp only [Sys.run_pure, Journal.tree_alter, Tree.node_alter, Journal.tree_create, hnode, if_true,
        Option.map_some]
    · simp only [Sys.run_pure, Journal.tree_alter, Tree.node_alter, Journal.tree_create, hnode, if_neg hx]
  · next hchown =>
    refine .insert n nd hd ⟨hnd, ?_, hmode⟩ ((hnode _).trans (if_pos rfl)) fun x hx => (hnode x).trans (if_neg hx)
    rw [own, if_neg hchown, hown]

theorem reworks_mkdir (hR : j.tree.look h.root = some .dir) :
    (h.mkdir name).Reworks (reworkFor h.own) h.root j := by
  unfold Sys.Reworks
  obtain ⟨e, he⟩ | ⟨hnul, d, n, hw, hrun⟩ := Root.run_mkdir_cases (μ := HandlerError) h.root name 0o755 j
  · rw [mkdir, Sys.run_bind_error he]
  · rw [mkdir, Sys.run_bind_ok hrun]
    exact reworked_handOver _ hR hnul hw (.inl rfl) rfl (by decide)

/-- The first look of `openWrite` tells whether the name is free. -/
theorem run_isMissing (name : Path) (hR : j.tree.look h.root = some .dir) :
    ∃ b, (h.isMissing name).run j = (.ok b, j) ∧ (b = true → ∀ l, j.tree.rootLstat h.root name ≠ .found l) ∧
      (b = false → hasNul name = false → ∀ d n, j.tree.rootLstat h.root name ≠ .absent d n) := by
  unfold isMissing Root.lstat Root.sound
  split
  · next hnul => exact ⟨false, rfl, fun hb => (nomatch hb), fun _ hnot => (nomatch hnul.symm.trans hnot)⟩
  match hw : j.tree.rootLstat h.root name with
  | .found l =>
    obtain ⟨nd, hnd⟩ := Tree.node_of_rootLstat hR hw
    have hrun : (do Sys.nodeAt (← Sys.existing (·.rootLstat h.root name)) : HandlerProg _).run j = (.ok nd, j) := by
      rw [Sys.run_bind_ok (Sys.run_existing_found (f := (·.rootLstat h.root name)) hw), Sys.nodeAt, Sys.run_look, hnd]
    refine ⟨false, ?_, fun hb => (nomatch hb), fun _ _ _ _ hw' => (nomatch hw')⟩
    rw [Sys.run_bind_ok (by rw [Sys.run_attempt, hrun])]
    rfl
  | .absent d n =>
    have hrun : (do Sys.nodeAt (← Sys.existing (·.rootLstat h.root name)) : HandlerProg _).run j =
        (.error (.errno .noent), j) :=
      Sys.run_bind_error (Sys.run_existing_absent (f := (·.rootLstat h.root name)) hw)
    refine ⟨true, ?_, fun _ _ hw' => (nomatch hw'), fun hb => (nomatch hb)⟩
    rw [Sys.run_bind_ok (by rw [Sys.run_attempt, hrun])]
    rfl
  | .fail e =>
    have hrun : (do Sys.nodeAt (← Sys.existing (·.rootLstat h.root name)) : HandlerProg _).run j =
        (.error (.errno e), j) :=
      Sys.run_bind_error (Sys.run_existing_fail (f := (·.rootLstat h.root name)) hw)
    refine ⟨decide (e = .noent), ?_, fun _ _ hw' => (nomatch hw'), fun _ _ _ _ hw' => (nomatch hw')⟩
    rw [Sys.run_bind_ok (by rw [Sys.run_attempt, hrun])]
    cases e <;> rfl

/-- A file is made where nothing has the name, or nothing. -/
theorem run_openRegular_cases (flags : OpenFlags) (hR : j.tree.look h.root = some .dir)
    (hw : ∀ l, j.tree.rootLstat h.root name ≠ .found l) :
    (∃ e, (h.openRegular name flags true).run j = (.error e, j)) ∨
      hasNul name = false ∧ ∃ d n, j.tree.rootLstat h.root name = .absent d n ∧
        (h.openRegular name flags true).run j = (.ok (d ++ [n]), j.create d n ⟨.file [], 0o644, 0, 0⟩) := by
  have hseems : (h.seemsRegular name true).run j = (.ok true, j) := rfl
  rw [openRegular, Sys.run_bind_ok hseems, if_pos rfl]
  obtain ⟨e, he⟩ | ⟨hnul, d, n, hfree, hrun⟩ := Root.run_openFile_cases (μ := HandlerError) flags 0o644 hw
  · exact .inl ⟨e, Sys.run_bind_error he⟩
  · refine .inr ⟨hnul, d, n, hfree, ?_⟩
    obtain ⟨hdir, hnone⟩ := Tree.free_of_rootLstat hR hfree
    have hnode : (j.create d n ⟨.file [], 0o644, 0, 0⟩).tree.node (d ++ [n]) = some ⟨.file [], 0o644, 0, 0⟩ :=
      (Tree.node_create hdir (Tree.look_eq_none.mp hnone) _).trans (if_pos rfl)
    rw [Sys.run_bind_ok hrun, Sys.run_bind_ok (by rw [Sys.nodeAt, Sys.run_look, hnode])]
    rfl

theorem reworks_openWrite {pf : Pflags} (hR : j.tree.look h.root = some .dir)
    (hplain : pf.creat = true → h.dangling j.tree (relPath filepath) = false) :
    (h.openWrite filepath pf).Reworks (reworkFor h.own) h.root j := by
  unfold openWrite
  dsimp only
  split
  · exact .refl _
  obtain ⟨created, hmissing, hfound, hfree⟩ := run_isMissing (relPath filepath) hR
  unfold Sys.Reworks
  rw [Sys.run_bind_ok hmissing]
  cases created with
  | false =>
    refine Sys.Reworks.bind (reworks_openRegular fun hcreat hnul d n => ?_) fun f j' _ => .refl _
    exact ⟨hfree rfl hnul d n, not_absent_of_plain (hplain hcreat) (hfree rfl hnul) d n⟩
  | true =>
    obtain ⟨e, he⟩ | ⟨hnul, d, n, hw, hopen⟩ := run_openRegular_cases
      { write := true, creat := pf.creat, trunc := pf.trunc, excl := pf.excl } hR (hfound rfl)
    · rw [Sys.run_bind_error he]
    · rw [Sys.run_bind_ok hopen, if_pos rfl]
      have hmade := reworked_handOver ⟨.file [], 0o644, 0, 0⟩ hR hnul hw (.inr rfl) rfl (by decide)
      rw [Sys.run_bind]
      split <;> next hrun => rwa [hrun] at hmade

theorem reworks_truncate {fd : Loc Name} {size : ℕ} {own : ℕ × ℕ} (hfd : h.root <+: fd) :
    (truncate fd size).Reworks (reworkFor own) h.root j := by
  unfold truncate
  split
  · exact .refl _
  refine .bind_look fun nd _ => ?_
  split
  · next data _ => exact .alter (Node.shape_setData _) hfd fun nd _ => sameFile_setData _ nd
  · exact .refl _

theorem openRegular_inside {flags : OpenFlags} {creating : Bool} {f : Loc Name}
    (hrun : (h.openRegular name flags creating).run j = (.ok f, j')) : h.root <+: f := by
  obtain ⟨fits, j₁, -, hrest⟩ := Sys.run_bind_eq_ok.mp hrun
  split at hrest
  · obtain ⟨f', j₂, hopen, hrest⟩ := Sys.run_bind_eq_ok.mp hrest
    obtain ⟨fi, j₃, -, hrest⟩ := Sys.run_bind_eq_ok.mp hrest
    split at hrest <;> cases hrest
    exact Root.openFile_inside hopen
  · cases hrest

theorem reworks_setstat {own : ℕ × ℕ} (attributes : Option Attrs) :
    (h.setstat name attributes).Reworks (reworkFor own) h.root j := by
  cases attributes with
  | none => exact .refl _
  | some a =>
    have hsize : ∀ j, (h.setSize name a.size).Reworks (reworkFor own) h.root j := by
      intro j
      unfold setSize
      split
      · exact .refl _
      · exact .bind (reworks_openRegular fun hcreat => (nomatch hcreat)) fun f j' hrun =>
          reworks_truncate (openRegular_inside hrun)
    have hmode : ∀ j, (h.setMode name a.mode).Reworks (reworkFor own) h.root j := by
      intro j
      unfold setMode
      split
      · exact .refl _
      · exact Root.reworks_chmod (sameFile_setMode _)
    refine (hsize j).bind fun _ j₁ _ => (hmode j₁).bind fun _ j₂ _ => ?_
    split
    · exact .bind_of_readsOnly Root.readsOnly_stat fun _ _ _ _ => .refl _
    · exact .refl _

theorem reworks_rename {own : ℕ × ℕ} (filepath target : Str) :
    (h.rename filepath target).Reworks (reworkFor own) h.root j := by
  unfold rename
  split
  · exact .refl _
  · next hnames =>
    push Not at hnames
    refine .bind_of_readsOnly Root.readsOnly_lstat.attempt fun r j' _ _ => ?_
    split
    · exact .refl _
    · exact Root.reworks_rename hnames.1 hnames.2

theorem reworks_posixRename {own : ℕ × ℕ} (filepath target : Str) :
    (h.posixRename filepath target).Reworks (reworkFor own) h.root j := by
  unfold posixRename
  split
  · exact .refl _
  · next hnames =>
    push Not at hnames
    exact Root.reworks_rename hnames.1 hnames.2

theorem reworks_remove {own : ℕ × ℕ} (filepath : Str) (rmdir : Bool) :
    (h.remove filepath rmdir).Reworks (reworkFor own) h.root j := by
  unfold remove
  dsimp only
  split
  · exact .refl _
  · next hname =>
    refine .bind_of_readsOnly Root.readsOnly_lstat fun fi j' _ _ => ?_
    split
    · exact .refl _
    · exact Root.reworks_remove hname

theorem reworks_list {own : ℕ × ℕ} : (h.list name).Reworks (reworkFor own) h.root j :=
  .bind (Root.reworks_openFile (sameFile_setData []) fun hcreat => (nomatch hcreat)) fun _ _ _ => .refl _

/-- One request, on any tree that has the root -/
theorem reworks_serve (r : Request) (hR : j.tree.look h.root = some .dir) (hplain : h.Plain j.tree r) :
    (h.serve r).Reworks (reworkFor h.own) h.root j := by
  cases r with
  | fileread filepath => exact .bind (reworks_openRegular fun hcreat => (nomatch hcreat)) fun _ _ _ => .refl _
  | filewrite filepath pflags => exact .bind (reworks_openWrite hR hplain) fun _ _ _ => .refl _
  | openFile filepath pflags => exact .bind (reworks_openWrite hR hplain) fun _ _ _ => .refl _
  | setstat filepath attributes => exact .bind (reworks_setstat attributes) fun _ _ _ => .refl _
  | rename filepath target => exact .bind (reworks_rename filepath target) fun _ _ _ => .refl _
  | mkdir filepath => exact .bind (reworks_mkdir hR) fun _ _ _ => .refl _
  | rmdir filepath => exact .bind (reworks_remove filepath true) fun _ _ _ => .refl _
  | remove filepath => exact .bind (reworks_remove filepath false) fun _ _ _ => .refl _
  | symlink filepath target => exact .refl _
  | link filepath target => exact .refl _
  | posixRename filepath target => exact .bind (reworks_posixRename filepath target) fun _ _ _ => .refl _
  | list filepath => exact .bind reworks_list fun _ _ _ => .refl _
  | stat filepath => exact .bind_of_readsOnly Root.readsOnly_stat fun _ _ _ _ => .refl _
  | lstat filepath => exact .bind_of_readsOnly Root.readsOnly_lstat fun _ _ _ _ => .refl _
  | readlink filepath => exact .bind_of_readsOnly Root.readsOnly_readlink fun _ _ _ _ => .refl _
  | other => exact .refl _

end Handler

/-- Whatever the requests of a session do: nothing outside the instance's directory changes, the directory stays, and what
is in it is what was there, its owners and special bits included, or plain directories and files of the container's user.
So no link and no device comes in, and none is taken for another's. -/
theorem session_confined {h : Handler} {t t' : Tree Name Str} {requests : List Request}
    (hR : t.look h.root = some .dir) (hrun : exec h.step t requests = some t')
    (hplain : Along h.step h.Plain t requests) :
    (∀ l, ¬ h.root <+: l → t'.node l = t.node l) ∧ t'.look h.root = some .dir ∧
      ∀ l nd', t'.node l = some nd' → MadeFor h.own nd' ∨
        ∃ l₀ nd, t.node l₀ = some nd ∧ (h.root <+: l₀ ↔ h.root <+: l) ∧ SameFile nd nd' := by
  have hreworked : Reworked (reworkFor h.own) h.root t t' := by
    refine exec_invariant (P := fun t' => Reworked (reworkFor h.own) h.root t t') ?_ hrun hplain (.refl t)
    intro t₁ r t₂ hplain hs hP
    cases hs
    have hserved : (h.serve r).Reworks (reworkFor h.own) h.root (.of t₁) :=
      Handler.reworks_serve r (hP.root.trans hR) hplain
    exact hP.trans hserved
  exact ⟨hreworked.outside, hreworked.root.trans hR, hreworked.nodes⟩

instance (h : Handler) (t : Tree Name Str) (r : Request) : Decidable (h.Plain t r) := by
  unfold Handler.Plain
  split <;> infer_instance

def srv : Name := name "srv"

/-- A link out of the directory leads nowhere; a file is made, opened up and moved. -/
def linkOut : Tree Name Str :=
  .build [([], srv, ⟨.dir, 0o755, 0, 0⟩), ([], name "etc", ⟨.dir, 0o755, 0, 0⟩),
    ([srv], name "out", ⟨.link ⟨true, [.name (name "etc")]⟩, 0o777, 7, 7⟩)]

def sessionRequests : List Request :=
  [.filewrite "out/a".toList ⟨true, true, false⟩, .mkdir "/x/../b".toList, .filewrite "b/a".toList ⟨true, true, false⟩,
    .setstat "b/a".toList (some ⟨some 2, some 0o4777, false⟩), .rename "b".toList "c".toList,
    .posixRename "c/a".toList "out".toList]

theorem session_confined_linkOut : ∃ t', exec (⟨[srv], 7, 7, true⟩ : Handler).step linkOut sessionRequests = some t' ∧
    t'.node [name "etc", name "a"] = none ∧
    t'.node [srv, name "out"] = some ⟨.file [Char.ofNat 0, Char.ofNat 0], 0o777, 7, 7⟩ ∧
    t'.node [srv, name "c"] = some ⟨.dir, 0o755, 7, 7⟩ ∧ t'.look [srv] = some .dir := by
  have hrun : exec (⟨[srv], 7, 7, true⟩ : Handler).step linkOut sessionRequests = some _ := rfl
  have hconfined := session_confined rfl hrun (by decide +kernel)
  exact ⟨_, hrun, rfl, rfl, rfl, hconfined.2.1⟩

end Sftpd
