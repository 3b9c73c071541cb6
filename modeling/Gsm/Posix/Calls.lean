import Gsm.Posix.Sys

/-!
# The system calls

Calls on absolute paths without `.` and `..`, given as lists of names. `stat` and `lstat` are the
two lookups, with and without following a link in the last place; a call creates, changes or removes
the node its lookup ends at. Permission checks are left out (the programs run as root), as are the
umask and time stamps; what a call creates belongs to root.
-/

namespace Posix

variable {α β μ : Type}

/-- How many links a kernel expands in one lookup. -/
def maxLinks : ℕ := 40

namespace Tree

/-- Where an absolute path leads, a link in the last place followed. -/
def stat (t : Tree α β) (p : List α) : Walk α := walk t.look true maxLinks [] (p.map .name)

/-- The node an absolute path names, a link in the last place being that node. -/
def lstat (t : Tree α β) (p : List α) : Walk α := walk t.look false maxLinks [] (p.map .name)

/-- The directory a path leads to is `d`. -/
def DirAt (t : Tree α β) (p : List α) (d : Loc α) : Prop :=
  t.stat p = .found d ∧ t.look d = some .dir

variable {t : Tree α β} {p q : List α} {c : α} {d l : Loc α}

@[simp] theorem stat_root : t.stat [] = .found [] := walk_nil

theorem stat_found (h : t.stat p = .found l) : ∃ s, t.look l = some s ∧ ∀ g, s ≠ .link g := by
  obtain ⟨s, hs, hg⟩ := walk_found _ _ _ (by simp) h
  exact ⟨s, hs, hg rfl⟩

theorem lstat_found (h : t.lstat p = .found l) : ∃ s, t.look l = some s := by
  obtain ⟨s, hs, -⟩ := walk_found _ _ _ (by simp) h
  exact ⟨s, hs⟩

theorem stat_absent (h : t.stat p = .absent d c) :
    t.look d = some .dir ∧ t.look (d ++ [c]) = none := walk_absent _ _ _ (by simp) h

theorem lstat_concat : t.lstat (p ++ [c]) = (t.stat p).enter t.look c := by
  rw [lstat, List.map_append, List.map_singleton]
  exact walk_concat c _ _ _ (by simp) (by simp)

theorem stat_concat (h : ∀ d, t.stat p = .found d → ∀ g, t.look (d ++ [c]) ≠ some (.link g)) :
    t.stat (p ++ [c]) = (t.stat p).enter t.look c := by
  rw [stat, List.map_append, List.map_singleton]
  exact walk_concat c _ _ _ (by simp) fun _ => h

/-- In a directory that a path leads to, the last name decides. -/
theorem DirAt.lstat_concat (h : t.DirAt p d) :
    t.lstat (p ++ [c]) = if (t.look (d ++ [c])).isNone then .absent d c else .found (d ++ [c]) := by
  rw [Tree.lstat_concat, h.1, Walk.enter, h.2]
  cases t.look (d ++ [c]) <;> rfl

theorem DirAt.stat_concat (h : t.DirAt p d) (hg : ∀ g, t.look (d ++ [c]) ≠ some (.link g)) :
    t.stat (p ++ [c]) = if (t.look (d ++ [c])).isNone then .absent d c else .found (d ++ [c]) := by
  rw [Tree.stat_concat, h.1, Walk.enter, h.2]
  · cases t.look (d ++ [c]) <;> rfl
  · intro d' hd'
    cases h.1.symm.trans hd'
    exact hg

/-- A last name that is found without following it lies in the directory before it. -/
theorem lstat_concat_eq_found :
    t.lstat (p ++ [c]) = .found l ↔ ∃ d, t.DirAt p d ∧ l = d ++ [c] ∧ t.look l ≠ none := by
  constructor
  · intro h
    rw [Tree.lstat_concat] at h
    match hs : t.stat p with
    | .absent _ _ => simp [hs, Walk.enter] at h
    | .fail _ => simp [hs, Walk.enter] at h
    | .found d =>
      match hd : t.look d with
      | none => simp [hs, Walk.enter, hd] at h
      | some .leaf => simp [hs, Walk.enter, hd] at h
      | some (.link _) => simp [hs, Walk.enter, hd] at h
      | some .dir =>
        match hl : t.look (d ++ [c]) with
        | none => simp [hs, Walk.enter, hd, hl] at h
        | some s =>
          simp only [hs, Walk.enter, hd, hl, Walk.found.injEq] at h
          exact ⟨d, ⟨hs, hd⟩, h.symm, by rw [← h, hl]; simp⟩
  · rintro ⟨d, hd, rfl, hl⟩
    rw [hd.lstat_concat, if_neg (by simpa using hl)]

/-- A free last name is one of the directory before it. -/
theorem lstat_concat_eq_absent {n : α} :
    t.lstat (p ++ [c]) = .absent d n ↔ t.DirAt p d ∧ n = c ∧ t.look (d ++ [c]) = none := by
  constructor
  · intro h
    rw [Tree.lstat_concat] at h
    match hs : t.stat p with
    | .absent _ _ => simp [hs, Walk.enter] at h
    | .fail _ => simp [hs, Walk.enter] at h
    | .found d' =>
      match hd : t.look d' with
      | none => simp [hs, Walk.enter, hd] at h
      | some .leaf => simp [hs, Walk.enter, hd] at h
      | some (.link _) => simp [hs, Walk.enter, hd] at h
      | some .dir =>
        match hl : t.look (d' ++ [c]) with
        | some s => simp [hs, Walk.enter, hd, hl] at h
        | none =>
          simp only [hs, Walk.enter, hd, hl, Walk.absent.injEq] at h
          obtain ⟨rfl, rfl⟩ := h
          exact ⟨⟨hs, hd⟩, rfl, hl⟩
  · rintro ⟨hd, rfl, hl⟩
    rw [hd.lstat_concat, hl]
    rfl

@[simp] theorem lstat_root : t.lstat [] = .found [] := walk_nil

/-- Following makes no difference where there is no link. -/
theorem stat_of_lstat (h : t.lstat p = .found l) (hg : ∀ g, t.look l ≠ some (.link g)) :
    t.stat p = .found l := by
  rcases List.eq_nil_or_concat p with rfl | ⟨q, c, rfl⟩
  · rwa [lstat_root, ← stat_root (t := t)] at h
  · rw [List.concat_eq_append] at h ⊢
    obtain ⟨d, hd, rfl, hl⟩ := lstat_concat_eq_found.mp h
    rw [hd.stat_concat hg, if_neg (by simpa using hl)]

theorem DirAt.concat (h : t.DirAt p d) (hc : t.look (d ++ [c]) = some .dir) :
    t.DirAt (p ++ [c]) (d ++ [c]) :=
  ⟨by rw [h.stat_concat (by simp [hc]), hc]; rfl, hc⟩

/-- Below a directory reached, real directories are reached by their names. -/
theorem DirAt.append {q : List α} (h : t.DirAt p d) (hq : t.look (d ++ q) = some .dir) :
    t.DirAt (p ++ q) (d ++ q) := by
  induction q using List.reverseRecOn with
  | nil => simpa using h
  | append_singleton q c ih =>
    rw [← List.append_assoc] at hq
    rw [← List.append_assoc, ← List.append_assoc]
    exact (ih (look_parent (node_ne_none hq))).concat hq

/-- What lies below a directory reached is found by its names. -/
theorem DirAt.lstat_below {q : List α} (h : t.DirAt p d) (hq : q ≠ [])
    (hn : t.node (d ++ q) ≠ none) : t.lstat (p ++ q) = .found (d ++ q) := by
  obtain ⟨q, c, rfl⟩ := List.eq_nil_or_concat q |>.resolve_left hq
  rw [List.concat_eq_append, ← List.append_assoc] at hn
  rw [List.concat_eq_append, ← List.append_assoc, ← List.append_assoc]
  exact lstat_concat_eq_found.mpr
    ⟨d ++ q, h.append (look_parent hn), rfl, fun hl => hn (look_eq_none.mp hl)⟩

theorem stat_congr {t' : Tree α β} (h : t.look = t'.look) : t.stat p = t'.stat p := by
  rw [stat, stat, h]

theorem lstat_congr {t' : Tree α β} (h : t.look = t'.look) : t.lstat p = t'.lstat p := by
  rw [lstat, lstat, h]

theorem DirAt.congr {t' : Tree α β} (hd : t.DirAt p d) (h : t.look = t'.look) : t'.DirAt p d :=
  ⟨by rw [← stat_congr h, hd.1], by rw [← h, hd.2]⟩

theorem DirAt.unique (h : t.DirAt p d) (h' : t.DirAt p l) : d = l := by
  cases h.1.symm.trans h'.1
  rfl

/-- A path that gets as far as its last name goes through a directory before it. -/
theorem dirAt_of_stat_concat (h : ∀ e, t.stat (p ++ [c]) ≠ .fail e) : ∃ d, t.DirAt p d := by
  rw [stat, List.map_append, List.map_singleton] at h
  exact walk_init _ _ _ (by simp) h (fun _ => look_dropLast) (by simp)

/-- The first directory that is missing on the way to `p` has its place inside `R`. -/
def MakesInside (t : Tree α β) (R : Loc α) (p : List α) : Prop :=
  ∀ q c rest d, p = q ++ c :: rest → t.DirAt q d → t.look (d ++ [c]) = none → R <+: d ++ [c]

/-- What a path leads to has a name there. -/
theorem exists_lstat (h : t.stat p = .found l) : ∃ S, t.lstat p = .found S := by
  rcases List.eq_nil_or_concat p with rfl | ⟨q, c, rfl⟩
  · exact ⟨[], lstat_root⟩
  · rw [List.concat_eq_append] at h ⊢
    obtain ⟨d', hd'⟩ := dirAt_of_stat_concat (t := t) (p := q) (c := c) (by simp [h])
    refine ⟨d' ++ [c], lstat_concat_eq_found.mpr ⟨d', hd', rfl, fun hc => ?_⟩⟩
    rw [hd'.stat_concat (by simp [hc]), hc] at h
    cases h

theorem DirAt.exists_lstat (h : t.DirAt p d) : ∃ S, t.lstat p = .found S := Tree.exists_lstat h.1

/-- Where an `open` that may create the file ends up: a dangling link in the last place leads to
the place its target would have. -/
def openTarget (t : Tree α β) (p : List α) : Option (Loc α) :=
  match t.stat p with
  | .found l =>
      match (t.node l).map Node.kind with
      | some (.file _) => some l
      | _ => none
  | .absent d n => some (d ++ [n])
  | .fail _ => none

/-- A file that was opened to be written is named by its path, at the place its path named before:
the file's own, or that of the link that leads to it. -/
theorem lstat_of_openTarget {t' : Tree α β} (h : t.openTarget p = some l)
    (hle : ∀ x s, t.look x = some s → t'.look x = some s) (hs : t'.stat p = .found l) :
    ∃ S, (t.lstat p).place = .ok S ∧ t'.lstat p = .found S := by
  rcases List.eq_nil_or_concat p with rfl | ⟨q, c, rfl⟩
  · exact ⟨[], by rw [lstat_root]; rfl, lstat_root⟩
  · rw [List.concat_eq_append] at h hs ⊢
    have hgoes : ∀ e, t.stat (q ++ [c]) ≠ .fail e := by
      intro e he
      rw [openTarget, he] at h
      cases h
    obtain ⟨d, hd⟩ := dirAt_of_stat_concat hgoes
    have hd' : t'.DirAt q d := ⟨walk_mono hle _ _ _ hd.1, hle _ _ hd.2⟩
    have hc : t'.look (d ++ [c]) ≠ none := by
      intro hc
      rw [hd'.stat_concat (by simp [hc]), hc] at hs
      cases hs
    refine ⟨d ++ [c], ?_, ?_⟩
    · rw [hd.lstat_concat]
      split <;> rfl
    · rw [hd'.lstat_concat, if_neg (by simpa using hc)]

/-- A path of which a part cannot be entered leads nowhere. -/
theorem lstat_concat_of_not_dir (h : ∀ d, ¬ t.DirAt p d) : ∃ e, t.lstat (p ++ [c]) = .fail e := by
  rw [Tree.lstat_concat]
  match hs : t.stat p with
  | .found d =>
    have hd : t.look d ≠ some .dir := fun hd => h d ⟨hs, hd⟩
    refine ⟨.notDir, ?_⟩
    simp only [Walk.enter]
  | .absent _ _ => exact ⟨.noent, rfl⟩
  | .fail e => exact ⟨e, rfl⟩

/-- In a directory that is not there no file is opened. -/
theorem openTarget_of_not_dir (h : ∀ d, ¬ t.DirAt p d) : t.openTarget (p ++ [c]) = none := by
  have hfail : ∃ e, t.stat (p ++ [c]) = .fail e := by
    by_contra hne
    push Not at hne
    obtain ⟨d, hd⟩ := dirAt_of_stat_concat hne
    exact h d hd
  obtain ⟨e, he⟩ := hfail
  rw [openTarget, he]

@[simp] theorem openTarget_root : t.openTarget [] = none := by
  obtain ⟨nd, hnd, hshape⟩ := Option.map_eq_some_iff.mp t.look_root
  rw [openTarget, stat_root]
  simp only [hnd, Option.map_some]
  match hk : nd.kind with
  | .dir | .link _ | .special => rfl
  | .file data =>
    rw [Node.shape, hk] at hshape
    cases hshape

/-- The file that opening `p` to write it ends up at is inside `R`, and so is the node that `p`
names, if it is handed over afterwards. -/
def OpensInside (t : Tree α β) (R : Loc α) (p : List α) (handed : Prop) : Prop :=
  ∀ l, t.openTarget p = some l →
    R <+: l ∧ (handed → ∀ S, (t.lstat p).place = .ok S → R <+: S)

theorem opensInside_of_none {R : Loc α} {handed : Prop} (h : t.openTarget p = none) :
    t.OpensInside R p handed := by
  intro l hl
  rw [h] at hl
  cases hl

/-- A path that leads nowhere leads nowhere with more names behind it. -/
theorem stat_append_not_found (h : ∀ l, t.stat p ≠ .found l) (rest : List α) :
    ∀ l, t.stat (p ++ rest) ≠ .found l := by
  induction rest using List.reverseRecOn with
  | nil => rwa [List.append_nil]
  | append_singleton rest b ih =>
    intro l
    rw [← List.append_assoc, Tree.stat_concat fun d' hd' => absurd hd' (ih d')]
    match hs : t.stat (p ++ rest) with
    | .found d' => exact absurd hs (ih d')
    | .absent _ _ => simp [Walk.enter]
    | .fail e => simp [Walk.enter]

/-- Nodes taken away and files added open no way to a directory. -/
theorem DirAt.thin {t' : Tree α β} (h : t'.DirAt p d)
    (hle : ∀ x s, t'.look x = some s → s ≠ .leaf → t.look x = some s) : t.DirAt p d :=
  ⟨walk_thin hle (by simp [h.2]) _ _ _ h.1, hle _ _ h.2 (by simp)⟩

theorem DirAt.of_sub [LinearOrder α] {t' : Tree α β} (h : t'.DirAt p d) (hsub : t'.Sub t) :
    t.DirAt p d := h.thin fun _ _ hx _ => hsub.look hx

/-- Below a free name a path leads nowhere. -/
theorem DirAt.stat_missing (h : t.DirAt p d) (hc : t.look (d ++ [c]) = none) (rest : List α) :
    ∀ l, t.stat (p ++ c :: rest) ≠ .found l := by
  have hno : ∀ l, t.stat (p ++ [c]) ≠ .found l := by
    rw [h.stat_concat (by simp [hc]), hc]
    simp
  simpa using stat_append_not_found hno rest

/-- A directory reached stays reached when nodes are added. -/
theorem DirAt.mono {t' : Tree α β} (h : t.DirAt p d)
    (hle : ∀ x s, t.look x = some s → t'.look x = some s) : t'.DirAt p d :=
  ⟨walk_mono hle _ _ _ h.1, hle _ _ h.2⟩

end Tree

/-! ## Calls -/

def Node.setData (data : β) (nd : Node α β) : Node α β :=
  match nd.kind with
  | .file _ => { nd with kind := .file data }
  | _ => nd

def Node.setMode (mode : ℕ) (nd : Node α β) : Node α β := { nd with mode := mode }

def Node.setOwner (uid gid : ℕ) (nd : Node α β) : Node α β := { nd with uid := uid, gid := gid }

@[simp] theorem Node.shape_setData (data : β) (nd : Node α β) :
    (nd.setData data).shape = nd.shape := by
  unfold Node.setData Node.shape
  split
  · next h => rw [h]; rfl
  · rfl

@[simp] theorem Node.shape_setMode (mode : ℕ) (nd : Node α β) :
    (nd.setMode mode).shape = nd.shape := rfl

@[simp] theorem Node.shape_setOwner (uid gid : ℕ) (nd : Node α β) :
    (nd.setOwner uid gid).shape = nd.shape := rfl

/-- Owners do not matter to where an `open` ends up. -/
theorem Tree.openTarget_setOwner [LinearOrder α] {t : Tree α β} {l : Loc α} {uid gid : ℕ}
    (p : List α) :
    (t.alter l (Node.setOwner uid gid) (Node.shape_setOwner uid gid)).openTarget p =
      t.openTarget p := by
  have hstat : (t.alter l (Node.setOwner uid gid) (Node.shape_setOwner uid gid)).stat p =
      t.stat p := by rw [Tree.stat, Tree.look_alter]; rfl
  have hkind (x : Loc α) :
      ((t.alter l (Node.setOwner uid gid) (Node.shape_setOwner uid gid)).node x).map Node.kind =
        (t.node x).map Node.kind := by
    rw [Tree.node_alter]
    split
    · rw [Option.map_map]
      rfl
    · rfl
  unfold Tree.openTarget
  simp only [hstat, hkind]

namespace Sys

/-- A lookup, made on the tree as it is at that moment. -/
def peek (f : Tree α β → Walk α) : Sys α β μ (Walk α) := look fun t => .ok (f t)

/-- The node at a place. -/
def nodeAt (l : Loc α) : Sys α β μ (Node α β) :=
  look fun t =>
    match t.node l with
    | some nd => .ok nd
    | none => .error (.errno .noent)

/-- The place a lookup has to end at for a call that needs an existing node. -/
def existing (f : Tree α β → Walk α) : Sys α β μ (Loc α) :=
  look fun t =>
    match f t with
    | .found l => .ok l
    | .absent _ _ => .error (.errno .noent)
    | .fail e => .error (.errno e)

def stat (p : List α) : Sys α β μ (Node α β) := do
  nodeAt (← existing (·.stat p))

def lstat (p : List α) : Sys α β μ (Node α β) := do
  nodeAt (← existing (·.lstat p))

variable {j : Journal α β} {p : List α} {l d : Loc α} {n : α} {nd : Node α β} {e : Errno}

theorem run_existing_found {f : Tree α β → Walk α} (h : f j.tree = .found l) :
    (existing f : Sys α β μ _).run j = (.ok l, j) := by
  rw [existing, run_look, h]

theorem run_existing_absent {f : Tree α β → Walk α} (h : f j.tree = .absent d n) :
    (existing f : Sys α β μ _).run j = (.error (.errno .noent), j) := by
  rw [existing, run_look, h]

theorem run_existing_fail {f : Tree α β → Walk α} (h : f j.tree = .fail e) :
    (existing f : Sys α β μ _).run j = (.error (.errno e), j) := by
  rw [existing, run_look, h]

theorem run_existing_not_found {f : Tree α β → Walk α} (h : ∀ l, f j.tree ≠ .found l) :
    ∃ e, (existing f : Sys α β μ _).run j = (.error (.errno e), j) := by
  match hf : f j.tree with
  | .found l => exact absurd hf (h l)
  | .absent _ _ => exact ⟨.noent, run_existing_absent hf⟩
  | .fail e => exact ⟨e, run_existing_fail hf⟩

/-- A call that needs an existing node does the rest on it, or nothing. -/
theorem staysIn_existing {acts : Act → Prop} {R : Loc α} {γ : Type} {f : Tree α β → Walk α}
    {m : Loc α → Sys α β μ γ} :
    (existing f >>= m).StaysIn acts R j ↔ ∀ l, f j.tree = .found l → (m l).StaysIn acts R j := by
  by_cases h : ∃ l, f j.tree = .found l
  · obtain ⟨l, hl⟩ := h
    rw [staysIn_bind_ok (run_existing_found hl), hl]
    simp [existing]
  · push Not at h
    obtain ⟨e, he⟩ := run_existing_not_found (μ := μ) h
    rw [staysIn_bind_error he]
    simp [existing, h]

theorem run_stat_found (h : j.tree.stat p = .found l) (hn : j.tree.node l = some nd) :
    (stat p : Sys α β μ _).run j = (.ok nd, j) := by
  simp [stat, existing, nodeAt, run_bind, h, hn]

theorem run_stat_not_found (h : ∀ l, j.tree.stat p ≠ .found l) :
    ∃ e, (stat p : Sys α β μ _).run j = (.error (.errno e), j) := by
  match hs : j.tree.stat p with
  | .found l => exact absurd hs (h l)
  | .absent _ _ => exact ⟨.noent, by simp [stat, existing, run_bind, hs]⟩
  | .fail e => exact ⟨e, by simp [stat, existing, run_bind, hs]⟩

theorem run_lstat_found (h : j.tree.lstat p = .found l) (hn : j.tree.node l = some nd) :
    (lstat p : Sys α β μ _).run j = (.ok nd, j) := by
  simp [lstat, existing, nodeAt, run_bind, h, hn]

theorem run_lstat_not_found (h : ∀ l, j.tree.lstat p ≠ .found l) :
    ∃ e, (lstat p : Sys α β μ _).run j = (.error (.errno e), j) := by
  match hs : j.tree.lstat p with
  | .found l => exact absurd hs (h l)
  | .absent _ _ => exact ⟨.noent, by simp [lstat, existing, run_bind, hs]⟩
  | .fail e => exact ⟨e, by simp [lstat, existing, run_bind, hs]⟩

/-- `open` for reading, and all of the file's data. -/
def readAll (p : List α) : Sys α β μ β := do
  let l ← existing (·.stat p)
  read l
  match (← nodeAt l).kind with
  | .file data => pure data
  | .dir => throw (.errno .isDir)
  | _ => throw (.errno .nxio)

theorem run_readAll_absent (h : j.tree.stat p = .absent d n) :
    (readAll p : Sys α β μ _).run j = (.error (.errno .noent), j) :=
  run_bind_error (run_existing_absent (f := (·.stat p)) h)

theorem run_readAll_fail (h : j.tree.stat p = .fail e) :
    (readAll p : Sys α β μ _).run j = (.error (.errno e), j) :=
  run_bind_error (run_existing_fail (f := (·.stat p)) h)

theorem run_readAll_file {data : β} (h : j.tree.stat p = .found l) (hn : j.tree.node l = some nd)
    (hk : nd.kind = .file data) : (readAll p : Sys α β μ _).run j = (.ok data, j.read l) := by
  rw [readAll, run_bind_ok (run_existing_found h), run_bind_ok (run_read l)]
  simp [nodeAt, run_bind, hn, hk]

theorem run_readAll_not_file (h : j.tree.stat p = .found l) (hn : j.tree.node l = some nd)
    (hk : ∀ data, nd.kind ≠ .file data) :
    ∃ e, e ≠ .noent ∧ (readAll p : Sys α β μ _).run j = (.error (.errno e), j.read l) := by
  rw [readAll, run_bind_ok (run_existing_found h), run_bind_ok (run_read l)]
  match hkind : nd.kind with
  | .file data => exact absurd hkind (hk data)
  | .dir => exact ⟨.isDir, by simp, by simp [nodeAt, run_bind, hn, hkind]⟩
  | .link _ => exact ⟨.nxio, by simp, by simp [nodeAt, run_bind, hn, hkind]⟩
  | .special => exact ⟨.nxio, by simp, by simp [nodeAt, run_bind, hn, hkind]⟩

/-- Reading succeeds on a file and gives its data. -/
theorem run_readAll_eq_ok {data : β} {j' : Journal α β}
    (h : (readAll p : Sys α β μ _).run j = (.ok data, j')) :
    ∃ l, j.tree.stat p = .found l ∧ (j.tree.node l).map Node.kind = some (.file data) := by
  match hs : j.tree.stat p with
  | .absent d n =>
    rw [run_readAll_absent hs] at h
    cases h
  | .fail e =>
    rw [run_readAll_fail hs] at h
    cases h
  | .found l =>
    obtain ⟨s, hl, -⟩ := Tree.stat_found hs
    obtain ⟨nd, hn, -⟩ := Option.map_eq_some_iff.mp hl
    by_cases hk : ∃ data, nd.kind = .file data
    · obtain ⟨data', hk⟩ := hk
      rw [run_readAll_file hs hn hk] at h
      cases h
      exact ⟨l, rfl, by rw [hn, Option.map_some, hk]⟩
    · push Not at hk
      obtain ⟨e, -, he⟩ := run_readAll_not_file (μ := μ) hs hn hk
      rw [he] at h
      cases h

theorem raises_existing {P : Failure μ → Prop} (hP : ∀ e, P (.errno e))
    (f : Tree α β → Walk α) :
    Raises P (existing f : Sys α β μ _) := by
  refine raises_look fun t e h => ?_
  split at h <;> cases h <;> exact hP _

theorem raises_nodeAt {P : Failure μ → Prop} (hP : ∀ e, P (.errno e)) (l : Loc α) :
    Raises P (nodeAt l : Sys α β μ _) := by
  refine raises_look fun t e h => ?_
  split at h <;> cases h
  exact hP _

theorem readsOnly_existing (f : Tree α β → Walk α) : ReadsOnly (existing f : Sys α β μ _) :=
  readsOnly_look _

theorem readsOnly_nodeAt (l : Loc α) : ReadsOnly (nodeAt l : Sys α β μ _) := readsOnly_look _

theorem readsOnly_stat (p : List α) : ReadsOnly (stat p : Sys α β μ _) :=
  (readsOnly_existing _).bind readsOnly_nodeAt

theorem readsOnly_lstat (p : List α) : ReadsOnly (lstat p : Sys α β μ _) :=
  (readsOnly_existing _).bind readsOnly_nodeAt

theorem readsOnly_readAll (p : List α) : ReadsOnly (readAll p : Sys α β μ _) := by
  refine (readsOnly_existing _).bind fun l => (readsOnly_read l).bind fun _ =>
    (readsOnly_nodeAt l).bind fun nd => ?_
  split
  · exact readsOnly_pure _
  · exact readsOnly_throw _
  · exact readsOnly_throw _

/-- Reading accesses the node the path leads to. -/
theorem staysIn_readAll {acts : Act → Prop} {R : Loc α} :
    (readAll p : Sys α β μ _).StaysIn acts R j ↔
      (acts .read → ∀ l, j.tree.stat p = .found l → R <+: l) := by
  have hrest (l : Loc α) (j : Journal α β) :
      (do match (← nodeAt l).kind with
          | .file data => pure data
          | .dir => throw (.errno .isDir)
          | _ => throw (.errno .nxio) : Sys α β μ β).StaysIn acts R j := by
    rw [staysIn_bind]
    refine ⟨staysIn_look _, fun nd j' _ => ?_⟩
    split <;> simp
  rw [readAll, staysIn_existing]
  constructor
  · intro h ha l hl
    exact (staysIn_read l).mp (staysIn_bind.mp (h l hl)).1 ha
  · intro h l hl
    rw [staysIn_bind_ok (run_read l), staysIn_read]
    exact ⟨fun ha => h ha l hl, hrest l _⟩

variable [LinearOrder α]

def mkdir (p : List α) (mode : ℕ) : Sys α β μ Unit := do
  match ← peek (·.lstat p) with
  | .found _ => throw (.errno .exist)
  | .absent d n => create d n ⟨.dir, mode, 0, 0⟩
  | .fail e => throw (.errno e)

def readDir (p : List α) : Sys α β μ (List α) := do
  let l ← existing (·.stat p)
  read l
  match (← nodeAt l).kind with
  | .dir => look fun t => .ok (t.names l)
  | _ => throw (.errno .notDir)

/-- `open` with `O_CREAT | O_WRONLY | O_TRUNC`: a dangling link in the last place is followed and
its target created. The place stands for the descriptor. -/
def openTrunc [EmptyCollection β] (p : List α) (mode : ℕ) : Sys α β μ (Loc α) := do
  match ← peek (·.stat p) with
  | .found l =>
      match (← nodeAt l).kind with
      | .file _ =>
          alter .write (by decide) l (Node.setData ∅) (Node.shape_setData ∅)
          pure l
      | .dir => throw (.errno .isDir)
      | _ => throw (.errno .nxio)
  | .absent d n =>
      create d n ⟨.file ∅, mode, 0, 0⟩
      pure (d ++ [n])
  | .fail e => throw (.errno e)

/-- `open` with `O_CREAT | O_EXCL`: nothing may be there, not even a link. -/
def openExcl [EmptyCollection β] (p : List α) (mode : ℕ) : Sys α β μ (Loc α) := do
  match ← peek (·.lstat p) with
  | .found _ => throw (.errno .exist)
  | .absent d n =>
      create d n ⟨.file ∅, mode, 0, 0⟩
      pure (d ++ [n])
  | .fail e => throw (.errno e)

/-- Write through a descriptor. -/
def write (fd : Loc α) (data : β) : Sys α β μ Unit :=
  alter .write (by decide) fd (Node.setData data) (Node.shape_setData data)

/-- Change a node that a lookup finds, in place. -/
def touch (f : Tree α β → Walk α) (act : Act) (hact : act.changes) (g : Node α β → Node α β)
    (hg : ∀ nd, (g nd).shape = nd.shape) : Sys α β μ Unit := do
  alter act hact (← existing f) g hg

def chown (p : List α) (uid gid : ℕ) : Sys α β μ Unit :=
  touch (·.stat p) .chown Act.changes_chown (Node.setOwner uid gid) (Node.shape_setOwner uid gid)

def lchown (p : List α) (uid gid : ℕ) : Sys α β μ Unit :=
  touch (·.lstat p) .chown Act.changes_chown (Node.setOwner uid gid) (Node.shape_setOwner uid gid)

def chmod (p : List α) (mode : ℕ) : Sys α β μ Unit :=
  touch (·.stat p) .chmod Act.changes_chmod (Node.setMode mode) (Node.shape_setMode mode)

/-- `unlink`, or `rmdir` for a directory. -/
def unlink (p : List α) : Sys α β μ Unit := do
  let l ← existing (·.lstat p)
  match (← nodeAt l).kind with
  | .dir =>
      if l = [] then throw (.errno .inval)
      else if (← look fun t => .ok (t.names l)) = [] then remove l
      else throw (.errno .notEmpty)
  | _ => remove l

/-- Whether a node of shape `s` may take the place of what is at `x`. -/
def mayReplace (t : Tree α β) (s : Shape α) (x : Loc α) : Except Errno Unit :=
  match s, t.look x with
  | _, none => .ok ()
  | .dir, some .dir => if t.names x = [] then .ok () else .error .notEmpty
  | .dir, some _ => .error .notDir
  | _, some .dir => .error .isDir
  | _, some _ => .ok ()

/-- Put node `s` at place `x`, if it may stand there. -/
def renameTo (s : Loc α) (nd : Node α β) (x : Loc α) : Sys α β μ Unit :=
  if s = x then pure ()
  else if s <+: x then throw (.errno .inval)
  else do
    look fun t => (mayReplace t nd.shape x).mapError .errno
    match x.getLast? with
    | none => throw (.errno .inval)
    | some n => replace s x.dropLast n

def rename (src dst : List α) : Sys α β μ Unit := do
  let s ← existing (·.lstat src)
  let nd ← nodeAt s
  let x ← look fun t => (t.lstat dst).place.mapError .errno
  renameTo s nd x

/-! ## How they end -/

theorem run_mkdir_absent {mode : ℕ} (h : j.tree.lstat p = .absent d n) :
    (mkdir p mode : Sys α β μ _).run j = (.ok (), j.create d n ⟨.dir, mode, 0, 0⟩) := by
  simp [mkdir, peek, run_bind, h]

theorem run_mkdir_found {mode : ℕ} (h : j.tree.lstat p = .found l) :
    (mkdir p mode : Sys α β μ _).run j = (.error (.errno .exist), j) := by
  simp [mkdir, peek, run_bind, h]

theorem run_mkdir_fail {mode : ℕ} (h : j.tree.lstat p = .fail e) :
    (mkdir p mode : Sys α β μ _).run j = (.error (.errno e), j) := by
  simp [mkdir, peek, run_bind, h]

theorem run_write {fd : Loc α} {data : β} : (write fd data : Sys α β μ _).run j =
    (.ok (), j.alter .write (by decide) fd (Node.setData data) (Node.shape_setData data)) := rfl

theorem run_touch_found {f : Tree α β → Walk α} {act : Act} {hact : act.changes}
    {g : Node α β → Node α β} {hg : ∀ nd, (g nd).shape = nd.shape} (h : f j.tree = .found l) :
    (touch f act hact g hg : Sys α β μ _).run j = (.ok (), j.alter act hact l g hg) := by
  rw [touch, run_bind_ok (run_existing_found h), run_alter]

theorem look_touch (f : Tree α β → Walk α) {act : Act} {hact : act.changes}
    {g : Node α β → Node α β} {hg : ∀ nd, (g nd).shape = nd.shape} (j : Journal α β) :
    ((touch f act hact g hg : Sys α β μ _).run j).2.tree.look = j.tree.look := by
  by_cases h : ∃ l, f j.tree = .found l
  · obtain ⟨l, hl⟩ := h
    rw [run_touch_found hl]
    exact Tree.look_alter _ _ _ hg
  · push Not at h
    obtain ⟨e, he⟩ := run_existing_not_found (μ := μ) h
    rw [touch, run_bind_error he]

theorem staysIn_touch {acts : Act → Prop} {R : Loc α} (f : Tree α β → Walk α) {act : Act}
    {hact : act.changes} {g : Node α β → Node α β} {hg : ∀ nd, (g nd).shape = nd.shape} :
    (touch f act hact g hg : Sys α β μ _).StaysIn acts R j ↔
      (acts act → ∀ l, f j.tree = .found l → R <+: l) := by
  rw [touch, staysIn_existing]
  simp only [staysIn_alter]
  exact ⟨fun h ha l hl => h l hl ha, fun h l hl ha => h ha l hl⟩

theorem staysIn_unlink {acts : Act → Prop} {R : Loc α}
    (h : acts .remove → ∀ l, j.tree.lstat p = .found l → R <+: l) :
    (unlink p : Sys α β μ _).StaysIn acts R j := by
  rw [unlink, staysIn_existing]
  intro l hl
  have hremove : (remove l : Sys α β μ _).StaysIn acts R j :=
    (staysIn_remove l).mpr fun ha => h ha l hl
  rw [staysIn_bind]
  refine ⟨staysIn_look _, fun nd j' hn => ?_⟩
  obtain rfl : j' = j := (Prod.mk.inj hn).2.symm
  split
  · split
    · exact staysIn_throw _
    · rw [staysIn_bind]
      refine ⟨staysIn_look _, fun names j'' hnames => ?_⟩
      cases hnames
      split
      · exact hremove
      · exact staysIn_throw _
  · exact hremove

/-- Handing a node over does not change where an `open` ends up. -/
theorem openTarget_chown (uid gid : ℕ) (j : Journal α β) (p q : List α) :
    ((chown p uid gid : Sys α β μ _).run j).2.tree.openTarget q = j.tree.openTarget q := by
  by_cases h : ∃ l, j.tree.stat p = .found l
  · obtain ⟨l, hl⟩ := h
    rw [chown, run_touch_found hl]
    exact Tree.openTarget_setOwner q
  · push Not at h
    obtain ⟨e, he⟩ := run_existing_not_found (μ := μ) (f := (·.stat p)) h
    rw [chown, touch, run_bind_error he]

theorem run_renameTo_eq_ok {s x : Loc α} {j' : Journal α β} :
    (renameTo s nd x : Sys α β μ _).run j = (.ok (), j') ↔
      s = x ∧ j' = j ∨ ¬ s <+: x ∧ mayReplace j.tree nd.shape x = .ok () ∧
        ∃ d n, x = d ++ [n] ∧ j' = j.replace s d n := by
  unfold renameTo
  split
  · next hsx => simp [hsx, eq_comm]
  split
  · next hsx hpre => simp [hsx, hpre]
  · next hsx hpre =>
    simp only [hsx, hpre, false_and, not_false_eq_true, true_and, false_or]
    match hm : mayReplace j.tree nd.shape x with
    | .error e => simp [run_bind, hm, Except.mapError]
    | .ok () =>
      rcases List.eq_nil_or_concat x with rfl | ⟨d, n, rfl⟩
      · simp [run_bind, hm, Except.mapError]
      · rw [List.concat_eq_append] at hm ⊢
        simp only [run_bind, run_look, hm, Except.mapError, List.getLast?_concat,
          List.dropLast_concat, run_replace, Prod.mk.injEq, true_and]
        constructor
        · rintro rfl
          exact ⟨d, n, rfl, rfl⟩
        · rintro ⟨d', n', hx, rfl⟩
          obtain ⟨rfl, hn⟩ := List.append_inj' hx rfl
          cases hn
          rfl

/-- A `rename` that succeeds moves the node, or source and destination are one place. -/
theorem run_rename_eq_ok {src dst : List α} {j' : Journal α β} :
    (rename src dst : Sys α β μ _).run j = (.ok (), j') ↔
      ∃ s nd x, j.tree.lstat src = .found s ∧ j.tree.node s = some nd ∧
        (j.tree.lstat dst).place = .ok x ∧
        (s = x ∧ j' = j ∨ ¬ s <+: x ∧ mayReplace j.tree nd.shape x = .ok () ∧
          ∃ d n, x = d ++ [n] ∧ j' = j.replace s d n) := by
  unfold rename
  by_cases hs : ∃ s, j.tree.lstat src = .found s
  · obtain ⟨s, hs⟩ := hs
    obtain ⟨sh, hl⟩ := Tree.lstat_found hs
    obtain ⟨nd, hn, -⟩ := Option.map_eq_some_iff.mp hl
    rw [run_bind_ok (run_existing_found (f := (·.lstat src)) hs)]
    match hx : (j.tree.lstat dst).place with
    | .error e => simp [run_bind, nodeAt, hn, hx, Except.mapError]
    | .ok x =>
      rw [run_bind_ok (by rw [nodeAt, run_look, hn]), run_bind_ok (by rw [run_look, hx]; rfl),
        run_renameTo_eq_ok]
      constructor
      · exact fun h => ⟨s, nd, x, hs, hn, rfl, h⟩
      · rintro ⟨s', nd', x', hs', hn', hx', h⟩
        cases hs.symm.trans hs'
        cases hn.symm.trans hn'
        cases hx'
        exact h
  · push Not at hs
    obtain ⟨e, he⟩ := run_existing_not_found (μ := μ) (f := (·.lstat src)) hs
    rw [run_bind_error he]
    simp [hs]

/-- A `rename` takes away the node its source names and puts it where its destination is. -/
theorem staysIn_rename {acts : Act → Prop} {R : Loc α} {src dst : List α}
    (hsrc : acts .remove → ∀ s, j.tree.lstat src = .found s → R <+: s)
    (hdst : acts .create → ∀ x, (j.tree.lstat dst).place = .ok x → R <+: x) :
    (rename src dst : Sys α β μ _).StaysIn acts R j := by
  rw [rename, staysIn_existing]
  intro s hs
  rw [staysIn_bind]
  refine ⟨staysIn_look _, fun nd j₁ hnd => ?_⟩
  obtain rfl : j₁ = j := (Prod.mk.inj hnd).2.symm
  rw [staysIn_bind]
  refine ⟨staysIn_look _, fun x j₂ hx => ?_⟩
  obtain rfl : j₂ = j₁ := (Prod.mk.inj hx).2.symm
  have hplace : (j₂.tree.lstat dst).place = .ok x := by
    match hw : (j₂.tree.lstat dst).place with
    | .ok y =>
      rw [run_look, hw] at hx
      exact congrArg Except.ok (Except.ok.inj (Prod.mk.inj hx).1)
    | .error e =>
      rw [run_look, hw] at hx
      cases hx
  unfold renameTo
  split
  · exact staysIn_pure ()
  split
  · exact staysIn_throw _
  rw [staysIn_bind]
  refine ⟨staysIn_look _, fun _ j₃ hmay => ?_⟩
  obtain rfl : j₃ = j₂ := (Prod.mk.inj hmay).2.symm
  split
  · exact staysIn_throw _
  · next n hn =>
    obtain ⟨d, rfl⟩ : ∃ d, x = d ++ [n] := List.getLast?_eq_some_iff.mp hn
    rw [List.dropLast_concat, staysIn_replace]
    exact ⟨fun ha => hsrc ha s hs, fun ha => hdst ha _ hplace⟩

/-- Opening a file to write it accesses the one node it ends up at, which the path then leads
to; all else is where it was. -/
theorem run_openTrunc [EmptyCollection β] (mode : ℕ) (h : j.tree.openTarget p = some l) :
    ∃ act j', act ∈ [Act.write, Act.create] ∧
      (openTrunc p mode : Sys α β μ _).run j = (.ok l, j') ∧
      j'.log = j.log ++ [⟨act, l⟩] ∧ j'.tree.stat p = .found l ∧
      ∀ x s, j.tree.look x = some s → j'.tree.look x = some s := by
  unfold Tree.openTarget at h
  split at h
  · next l' hs =>
    split at h <;> cases h
    next data hk =>
    obtain ⟨nd, hnd, hkind⟩ := Option.map_eq_some_iff.mp hk
    refine ⟨.write, j.alter .write (by decide) l (Node.setData ∅) (Node.shape_setData ∅), by simp,
      ?_, rfl, ?_, ?_⟩
    · simp only [openTrunc, peek, nodeAt, run_bind, run_look, hs, hnd, hkind]
      rfl
    · rw [Tree.stat, Journal.tree_alter, Tree.look_alter]
      exact hs
    · rw [Journal.tree_alter, Tree.look_alter]
      exact fun _ _ hx => hx
  · next d n hs =>
    cases h
    obtain ⟨hd, hn⟩ := Tree.stat_absent hs
    have hlook := Tree.look_create ⟨.file ∅, mode, 0, 0⟩ hd (Tree.look_eq_none.mp hn)
    have hle (x : Loc α) (s : Shape α) (hx : j.tree.look x = some s) :
        (j.create d n ⟨.file ∅, mode, 0, 0⟩).tree.look x = some s := by
      rw [Journal.tree_create, hlook, if_neg, hx]
      rintro rfl
      rw [hn] at hx
      cases hx
    refine ⟨.create, j.create d n ⟨.file ∅, mode, 0, 0⟩, by simp, ?_, rfl,
      walk_fill hle ?_ _ _ _ hs, hle⟩
    · simp only [openTrunc, peek, run_bind, run_look, hs]
      rfl
    · rw [Journal.tree_create, hlook, if_pos rfl]
      rfl
  · cases h

theorem run_openTrunc_none [EmptyCollection β] (mode : ℕ) (h : j.tree.openTarget p = none) :
    ∃ e, (openTrunc p mode : Sys α β μ _).run j = (.error e, j) := by
  unfold Tree.openTarget at h
  split at h
  · next l hs =>
    obtain ⟨s, hl, hlink⟩ := Tree.stat_found hs
    obtain ⟨nd, hnd, rfl⟩ := Option.map_eq_some_iff.mp hl
    rw [hnd] at h
    match hk : nd.kind with
    | .file _ => simp [hk] at h
    | .dir => exact ⟨.errno .isDir, by simp [openTrunc, peek, nodeAt, run_bind, hs, hnd, hk]⟩
    | .link g => exact absurd (by rw [Node.shape, hk]; rfl) (hlink g)
    | .special => exact ⟨.errno .nxio, by simp [openTrunc, peek, nodeAt, run_bind, hs, hnd, hk]⟩
  · cases h
  · next e hs => exact ⟨.errno e, by simp [openTrunc, peek, run_bind, hs]⟩

/-- Open a file, cut off what was in it, and write. -/
def overwrite [EmptyCollection β] (p : List α) (mode : ℕ) (data : β) : Sys α β μ Unit := do
  let fd ← openTrunc p mode
  write fd data

/-- Overwriting a file is an access to one node, and the path then leads to it. -/
theorem run_overwrite [EmptyCollection β] (mode : ℕ) (data : β)
    (h : j.tree.openTarget p = some l) :
    ∃ j', (overwrite p mode data : Sys α β μ _).run j = (.ok (), j') ∧ j'.tree.stat p = .found l ∧
      (∃ S, (j.tree.lstat p).place = .ok S ∧ j'.tree.lstat p = .found S) ∧
      ∀ {acts : Act → Prop} {R : Loc α}, acts .write → acts .create →
        (j.Stays acts R j' ↔ R <+: l) := by
  obtain ⟨act, j', hact, hrun, hlog, hstat, hle⟩ := run_openTrunc (μ := μ) mode h
  have hlook := Tree.look_alter j'.tree l (Node.setData data) (Node.shape_setData data)
  refine ⟨_, by rw [overwrite, run_bind_ok hrun, run_write], ?_, ?_, fun {acts R} hw hc => ?_⟩
  · rw [Tree.stat, Journal.tree_alter, hlook]
    exact hstat
  · obtain ⟨S, hplace, hS⟩ := Tree.lstat_of_openTarget h hle hstat
    refine ⟨S, hplace, ?_⟩
    rw [Tree.lstat, Journal.tree_alter, hlook]
    exact hS
  · have hacts : acts act := by
      rcases List.mem_pair.mp hact with rfl | rfl
      · exact hw
      · exact hc
    rw [Journal.stays_iff [⟨act, l⟩, ⟨.write, l⟩] (by simp [hlog])]
    simp [hacts, hw]

theorem run_overwrite_none [EmptyCollection β] (mode : ℕ) (data : β)
    (h : j.tree.openTarget p = none) :
    ∃ e, (overwrite p mode data : Sys α β μ _).run j = (.error e, j) := by
  obtain ⟨e, he⟩ := run_openTrunc_none (μ := μ) mode h
  exact ⟨e, run_bind_error he⟩

theorem staysIn_overwrite [EmptyCollection β] {acts : Act → Prop} {R : Loc α} {mode : ℕ} {data : β}
    (hw : acts .write) (hc : acts .create) :
    (overwrite p mode data : Sys α β μ _).StaysIn acts R j ↔
      ∀ l, j.tree.openTarget p = some l → R <+: l := by
  match h : j.tree.openTarget p with
  | none =>
    obtain ⟨e, he⟩ := run_overwrite_none (μ := μ) mode data h
    rw [StaysIn, he]
    exact iff_of_true (.refl j) (by simp)
  | some l =>
    obtain ⟨j', hrun, -, -, hstays⟩ := run_overwrite (μ := μ) mode data h
    rw [StaysIn, hrun, hstays hw hc]
    simp

/-- The same with something done to the file afterwards, under the name it was opened by. -/
theorem staysIn_overwrite_bind [EmptyCollection β] {γ : Type} {acts : Act → Prop} {R : Loc α}
    {mode : ℕ} {data : β} {k : Sys α β μ γ} {handed : Prop} (hw : acts .write) (hc : acts .create)
    (hk : ∀ (j : Journal α β) (S : Loc α), j.tree.lstat p = .found S →
      (k.StaysIn acts R j ↔ (handed → R <+: S))) :
    (do overwrite p mode data; k).StaysIn acts R j ↔ j.tree.OpensInside R p handed := by
  unfold Tree.OpensInside
  match h : j.tree.openTarget p with
  | none =>
    obtain ⟨e, he⟩ := run_overwrite_none (μ := μ) mode data h
    rw [staysIn_bind_error he, StaysIn, he]
    exact iff_of_true (.refl j) (by simp)
  | some l =>
    obtain ⟨j', hrun, -, ⟨S, hplace, hS⟩, hstays⟩ := run_overwrite (μ := μ) mode data h
    rw [staysIn_bind_ok hrun, StaysIn, hrun, hstays hw hc, hk j' S hS]
    simp [hplace]

theorem run_readDir_eq_ok {names : List α} {j' : Journal α β}
    (h : (readDir p : Sys α β μ _).run j = (.ok names, j')) :
    ∃ l, j.tree.DirAt p l ∧ names = j.tree.names l ∧ j' = j.read l := by
  obtain ⟨l, j₁, hfind, h⟩ := run_bind_eq_ok.mp h
  match hs : j.tree.stat p with
  | .absent d n =>
    rw [run_existing_absent (f := (·.stat p)) hs] at hfind
    cases hfind
  | .fail e =>
    rw [run_existing_fail (f := (·.stat p)) hs] at hfind
    cases hfind
  | .found l' =>
    rw [run_existing_found (f := (·.stat p)) hs] at hfind
    cases hfind
    obtain ⟨s, hl, -⟩ := Tree.stat_found hs
    obtain ⟨nd, hnd, -⟩ := Option.map_eq_some_iff.mp hl
    have hnode : (nodeAt l : Sys α β μ _).run (j.read l) = (.ok nd, j.read l) := by
      rw [nodeAt, run_look, Journal.tree_read, hnd]
    rw [run_bind_ok (run_read l), run_bind_ok hnode] at h
    match hk : nd.kind with
    | .dir =>
      rw [hk] at h
      cases h
      exact ⟨l, ⟨hs, by rw [Tree.look, hnd, Option.map_some, Node.shape, hk]; rfl⟩, rfl, rfl⟩
    | .file _ | .link _ | .special =>
      rw [hk] at h
      cases h

/-! ## What they fail with -/

section

variable {P : Failure μ → Prop}

theorem raises_readDir (hP : ∀ e, P (.errno e)) (p : List α) :
    Raises P (readDir p : Sys α β μ _) := by
  refine (raises_existing hP _).bind fun l => (raises_effect _ _).bind fun _ =>
    (raises_nodeAt hP l).bind fun nd => ?_
  split
  · exact raises_look fun _ _ h => by cases h
  · exact raises_throw (hP _)

theorem raises_openTrunc [EmptyCollection β] (hP : ∀ e, P (.errno e)) (p : List α) (mode : ℕ) :
    Raises P (openTrunc p mode : Sys α β μ _) := by
  refine Raises.bind (raises_look fun _ _ h => by cases h) fun w => ?_
  split
  · refine (raises_nodeAt hP _).bind fun nd => ?_
    split
    · exact (raises_effect _ _).bind fun _ => raises_pure _
    · exact raises_throw (hP _)
    · exact raises_throw (hP _)
  · exact (raises_effect _ _).bind fun _ => raises_pure _
  · exact raises_throw (hP _)

theorem raises_overwrite [EmptyCollection β] (hP : ∀ e, P (.errno e)) (p : List α) (mode : ℕ)
    (data : β) : Raises P (overwrite p mode data : Sys α β μ _) :=
  (raises_openTrunc hP p mode).bind fun _ => raises_effect _ _

-- the equations that later modules rewrite with, stated here once
attribute [local simp] Posix.Sys.chown Posix.Sys.lstat Posix.Sys.nodeAt Posix.Sys.openExcl Posix.Sys.openTrunc
  Posix.Sys.peek Posix.Sys.readAll._sparseCasesOn_1.else_eq Posix.Sys.unlink Posix.Tree.openTarget
  Posix.Tree.openTarget._sparseCasesOn_1.else_eq

end

end Sys

end Posix
