import Mathlib
import Gsm.Instfs.Atomic
import Gsm.Instfs.ExtractOwners

/-!
# How much an extraction writes

An entry is copied up to one byte past what is left of `MaxExtractBytes`. The copy that takes that byte is an error,
and its file is removed by the path of the entry. The file stays where that path is a link, and where the reader fails
with that very byte. The tree has no hard links.
-/

open Posix GoStd Posix.Tree

namespace Instfs

variable {f : FS} {t t' t₁ : Tree Name Str} {j j₁ : Journal Name Str} {p : Path} {l S : Loc Name} {n m : ℕ}

/-! ## What files hold -/

def sizeAt (t : Tree Name Str) (l : Loc Name) : ℕ := ((t.node l).map sizeOf).getD 0

/-- The bytes that lie at some places -/
def held (t : Tree Name Str) (files : Finset (Loc Name)) : ℕ := ∑ l ∈ files, sizeAt t l

/-- `l` holds `n` bytes now, and every other file what it held. -/
structure Sized (t : Tree Name Str) (l : Loc Name) (n : ℕ) (t' : Tree Name Str) : Prop where
  size : sizeAt t' l = n
  off : ∀ x, x ≠ l → t.look x = some .leaf → t'.look x = some .leaf ∧ sizeAt t' x = sizeAt t x

variable {files : Finset (Loc Name)}

theorem Sized.held_insert (h : Sized t l n t') (hfiles : ∀ x ∈ files, t.look x = some .leaf) :
    held t' (insert l files) = held t (files.erase l) + n := by
  have hothers : ∑ x ∈ files.erase l, sizeAt t' x = ∑ x ∈ files.erase l, sizeAt t x := by
    refine Finset.sum_congr rfl fun x hx => ?_
    obtain ⟨hne, hmem⟩ := Finset.mem_erase.mp hx
    exact (h.off x hne (hfiles x hmem)).2
  have hinsert : insert l files = insert l (files.erase l) := by
    ext x
    rw [Finset.mem_insert, Finset.mem_insert, Finset.mem_erase]
    tauto
  rw [held, hinsert, Finset.sum_insert (Finset.notMem_erase l files), h.size, hothers, held, Nat.add_comm]

theorem held_erase_le (t : Tree Name Str) (files : Finset (Loc Name)) (l : Loc Name) :
    held t (files.erase l) ≤ held t files :=
  Finset.sum_le_sum_of_subset (Finset.erase_subset l files)

theorem sizeAt_congr (h : (t'.node l).map Node.kind = (t.node l).map Node.kind) : sizeAt t' l = sizeAt t l := by
  have hsize (o : Option (Node Name Str)) :
      (o.map sizeOf).getD 0 = ((o.map Node.kind).map fun k => sizeOf ⟨k, 0, 0, 0⟩).getD 0 := by
    rw [Option.map_map]
    rfl
  rw [sizeAt, sizeAt, hsize, hsize, h]

theorem look_congr_kind (h : (t'.node l).map Node.kind = (t.node l).map Node.kind) : t'.look l = t.look l := by
  have hshape (o : Option (Node Name Str)) : o.map Node.shape = (o.map Node.kind).map Kind.shape := by
    rw [Option.map_map]
    rfl
  rw [Tree.look, Tree.look, hshape, hshape, h]

/-- New directories leave every file as it was. -/
theorem Grown.file (h : Grown t t') (hl : t.look l = some .leaf) :
    t'.look l = some .leaf ∧ sizeAt t' l = sizeAt t l := by
  obtain ⟨nd, hnd, -⟩ := Option.map_eq_some_iff.mp hl
  obtain ⟨nd', hnd', hkind, -⟩ := h.kept l nd hnd
  have hsame : (t'.node l).map Node.kind = (t.node l).map Node.kind := by
    rw [hnd, hnd', Option.map_some, Option.map_some, hkind]
  exact ⟨(look_congr_kind hsame).trans hl, sizeAt_congr hsame⟩

theorem Grown.held_eq (h : Grown t t') (hfiles : ∀ x ∈ files, t.look x = some .leaf) :
    held t' files = held t files :=
  Finset.sum_congr rfl fun x hx => (h.file (hfiles x hx)).2

theorem Grown.sized (h : Grown t t₁) (hs : Sized t₁ l n t') : Sized t l n t' := by
  refine ⟨hs.size, fun x hne hx => ?_⟩
  obtain ⟨hleaf, hsize⟩ := h.file hx
  rw [← hsize]
  exact hs.off x hne hleaf

theorem Sized.grown (h : Sized t l n t₁) (hl : t₁.look l = some .leaf) (hg : Grown t₁ t') : Sized t l n t' := by
  refine ⟨(hg.file hl).2.trans h.size, fun x hne hx => ?_⟩
  obtain ⟨hleaf, hsize⟩ := h.off x hne hx
  rw [← hsize]
  exact hg.file hleaf

/-- The file that was opened holds the data. -/
theorem sized_overwrite {mode : ℕ} {data : Str} (h : j.tree.openTarget p = some l)
    (hrun : (Sys.overwrite p mode data : Prog Unit).run j = (.ok (), j₁)) :
    Sized j.tree l data.length j₁.tree := by
  have hkind := Sys.kind_overwrite h hrun
  refine ⟨?_, fun x hne hx => ?_⟩
  · have hl := hkind l
    rw [if_pos rfl] at hl
    obtain ⟨nd, hnd, hk⟩ := Option.map_eq_some_iff.mp hl
    rw [sizeAt, hnd, Option.map_some, sizeOf, hk]
    rfl
  · have hsame := hkind x
    rw [if_neg hne] at hsame
    exact ⟨(look_congr_kind hsame).trans hx, sizeAt_congr hsame⟩

/-- What is removed is the file, or a link. -/
theorem Sized.remove (h : Sized t l n t₁) (hl : t₁.look l = some .leaf) (hS : S ≠ [])
    (hdir : t₁.look S ≠ some .dir) (hfile : S ≠ l → t₁.look S ≠ some .leaf) :
    Sized t l (if S = l then 0 else n) (t₁.remove S) := by
  have hoff (x : Loc Name) (hx : t₁.look x = some .leaf) (hne : x ≠ S) :
      (t₁.remove S).look x = some .leaf ∧ sizeAt (t₁.remove S) x = sizeAt t₁ x := by
    have hnot : ¬ S <+: x := by
      rintro ⟨z, rfl⟩
      have hz : z ≠ [] := by
        rintro rfl
        exact hne (List.append_nil S)
      have hnone := Tree.node_below hz hdir
      rw [Tree.look, hnone] at hx
      exact nomatch hx
    have hnode := Tree.node_remove_ne t₁ hnot
    exact ⟨by rw [Tree.look, hnode, ← Tree.look, hx], by rw [sizeAt, hnode, ← sizeAt]⟩
  refine ⟨?_, fun x hne hx => ?_⟩
  · split
    · next heq =>
      rw [heq, sizeAt, Tree.node_remove_below t₁ (heq ▸ hS) List.prefix_rfl]
      rfl
    · next hne => exact (hoff l hl (Ne.symm hne)).2.trans h.size
  · obtain ⟨hleaf, hsize⟩ := h.off x hne hx
    have hxS : x ≠ S := by
      rintro rfl
      exact hfile hne hleaf
    obtain ⟨hleaf', hsize'⟩ := hoff x hleaf hxS
    exact ⟨hleaf', hsize'.trans hsize⟩

/-! ## One entry -/

/-- The file that `writeEntry` opens, on the tree it opens it in -/
def FS.opens (f : FS) (j : Journal Name Str) (p : Path) (budget : ℕ) : Option (Tree Name Str × Loc Name) :=
  if budget = 0 ∨ hasNul p = true then none
  else
    match (f.mkdirEntry p.dropLast).run j with
    | (.error _, _) => none
    | (.ok _, j') => (j'.tree.openTarget p).map fun l => (j'.tree, l)

/-- A file that `Extract` has copied to, and how many bytes. -/
structure Copy where
  place : Loc Name
  bytes : ℕ

def FS.copyOf (f : FS) (j : Journal Name Str) (p : Path) (r : Body) (budget : ℕ) : Option Copy :=
  (f.opens j p budget).map fun opened => ⟨opened.2, min r.data.length (budget + 1)⟩

/-- The copy ends without an error, and the path it is removed by is that of the file itself. -/
def RemovedAgain (t : Tree Name Str) (p : Path) (l : Loc Name) (r : Body) (budget : ℕ) : Prop :=
  copyErr r (budget + 1) = none ∧ (t.lstat p).place = .ok l

variable {r : Body} {mode budget : ℕ}

theorem grown_mkdirEntry (f : FS) (j : Journal Name Str) (p : Path) :
    Grown j.tree ((f.mkdirEntry p).run j).2.tree := by
  have hdirs := (makesDirs_mkdirAllOwned f).grown j (soundPart p)
  rw [FS.mkdirEntry, Sys.run_bind]
  rcases hrun : (f.mkdirAllOwned (soundPart p)).run j with ⟨e | u, j₁⟩ <;> rw [hrun] at hdirs
  · exact hdirs
  · dsimp only
    split <;> exact hdirs

/-- An entry that opens no file fails. -/
theorem writeEntry_none (mode : ℕ) (r : Body) (h : f.opens j p budget = none) :
    ∃ e j', (f.writeEntry p r mode budget).run j = (.error e, j') ∧ Grown j.tree j'.tree := by
  rw [FS.opens] at h
  unfold FS.writeEntry
  by_cases hb : budget = 0
  · rw [if_pos hb]
    exact ⟨_, j, rfl, .of_node fun _ => rfl⟩
  rw [if_neg hb]
  have hdirs := grown_mkdirEntry f j p.dropLast
  rcases hrun : (f.mkdirEntry p.dropLast).run j with ⟨e | u, j₁⟩ <;> rw [hrun] at hdirs
  · exact ⟨e, j₁, Sys.run_bind_error hrun, hdirs⟩
  rw [Sys.run_bind_ok hrun]
  by_cases hnul : hasNul p = true
  · rw [if_pos hnul]
    exact ⟨_, j₁, rfl, hdirs⟩
  rw [if_neg hnul]
  rw [if_neg (by simp [hb, hnul]), hrun] at h
  obtain ⟨e, he⟩ := Sys.run_overwrite_none (μ := FsError) (perm mode ||| 0o600) (r.data.take (budget + 1))
    (Option.map_eq_none_iff.mp h)
  exact ⟨e, j₁, Sys.run_bind_error he, hdirs⟩

/-- How `writeEntry` ends, with what in the file. -/
inductive EntryEnd (r : Body) (budget : ℕ) (t : Tree Name Str) (p : Path) (l : Loc Name) :
    Except Refusal ℕ → ℕ → Prop
  | copied (h : r.data.length ≤ budget) : EntryEnd r budget t p l (.ok r.data.length) r.data.length
  | broken (e : Refusal) (h : r.data.length ≤ budget) : EntryEnd r budget t p l (.error e) r.data.length
  | removed (e : Refusal) (h : budget < r.data.length) (hgone : RemovedAgain t p l r budget) :
      EntryEnd r budget t p l (.error e) 0
  | left (e : Refusal) (h : budget < r.data.length) (hstays : ¬ RemovedAgain t p l r budget) :
      EntryEnd r budget t p l (.error e) (budget + 1)

theorem length_take_budget (r : Body) (budget : ℕ) :
    (r.data.take (budget + 1)).length = min r.data.length (budget + 1) := by
  rw [List.length_take, Nat.min_comm]

theorem finishEntry_end {data : Str} (hdata : data = r.data.take (budget + 1)) (hstat : j.tree.stat p = .found l)
    (hl : j.tree.look l = some .leaf) (hS : j.tree.lstat p = .found S) (hplace : (t₁.lstat p).place = .ok S)
    (hs : Sized t l data.length j.tree) :
    ∃ out j' n, (f.finishEntry p data (copyErr r (budget + 1)) budget).run j = (out, j') ∧
      EntryEnd r budget t₁ p l out n ∧ Sized t l n j'.tree ∧ (out.isOk = true → j'.tree.look l = some .leaf) := by
  have hlen : data.length = min r.data.length (budget + 1) := by rw [hdata, length_take_budget]
  unfold FS.finishEntry
  match herr : copyErr r (budget + 1) with
  | some e =>
    by_cases hfits : r.data.length ≤ budget
    · rw [hlen, min_eq_left (by omega)] at hs
      exact ⟨_, j, _, rfl, .broken _ hfits, hs, nofun⟩
    · rw [hlen, min_eq_right (by omega)] at hs
      refine ⟨_, j, _, rfl, .left _ (by omega) ?_, hs, nofun⟩
      rintro ⟨hnone, -⟩
      exact nomatch herr.symm.trans hnone
  | none =>
    dsimp only
    by_cases hfits : r.data.length ≤ budget
    · rw [hlen, min_eq_left (by omega)] at hs ⊢
      rw [if_neg (by omega), Sys.run_bind_ok (run_giveAway hS)]
      have hg := grown_give (j := j) f.own S
      exact ⟨_, _, _, rfl, .copied hfits, hs.grown hl hg, fun _ => (hg.file hl).1⟩
    · rw [hlen, min_eq_right (by omega)] at hs ⊢
      rw [if_pos (by omega)]
      have hdir : j.tree.look S ≠ some .dir := by
        intro hdir
        have hfound := Tree.stat_of_lstat hS (by simp [hdir])
        obtain rfl := Walk.found.inj (hstat.symm.trans hfound)
        exact nomatch hl.symm.trans hdir
      have hroot : S ≠ [] := by
        rintro rfl
        exact hdir (look_root j.tree)
      have hfile : S ≠ l → j.tree.look S ≠ some .leaf := by
        intro hne hleaf
        have hfound := Tree.stat_of_lstat hS (by simp [hleaf])
        exact hne (Walk.found.inj (hfound.symm.trans hstat))
      have hattempt : ((Sys.unlink p : Prog Unit).attempt).run j = (.ok (.ok ()), j.remove S) := by
        rw [Sys.run_attempt, Sys.run_unlink hS hdir]
      rw [Sys.run_bind_ok hattempt]
      have hremoved := hs.remove hl hroot hdir hfile
      refine ⟨_, j.remove S, _, rfl, ?_, hremoved, nofun⟩
      split
      · next heq =>
        subst heq
        exact .removed _ (by omega) ⟨herr, hplace⟩
      · next hne =>
        refine .left _ (by omega) ?_
        rintro ⟨-, hself⟩
        exact hne (Except.ok.inj (hplace.symm.trans hself))

/-- An entry that opens a file leaves it copied, broken off, removed or too long. -/
theorem writeEntry_some (mode : ℕ) (r : Body) (h : f.opens j p budget = some (t₁, l)) :
    ∃ out j' n, (f.writeEntry p r mode budget).run j = (out, j') ∧ EntryEnd r budget t₁ p l out n ∧
      Sized j.tree l n j'.tree ∧ (out.isOk = true → j'.tree.look l = some .leaf) := by
  rw [FS.opens] at h
  split at h
  · exact nomatch h
  next hcan =>
  push Not at hcan
  obtain ⟨hb, hnul⟩ := hcan
  have hdirs := grown_mkdirEntry f j p.dropLast
  rcases hrun : (f.mkdirEntry p.dropLast).run j with ⟨e | u, j₁⟩ <;> rw [hrun] at hdirs h
  · exact nomatch h
  obtain ⟨l', hopen, heq⟩ := Option.map_eq_some_iff.mp h
  obtain ⟨rfl, rfl⟩ := Prod.mk.inj heq
  obtain ⟨j₂, hwrite, hstat, ⟨S, hplace, hS⟩, -⟩ := Sys.run_overwrite (μ := FsError) (perm mode ||| 0o600)
    (r.data.take (budget + 1)) hopen
  unfold FS.writeEntry
  rw [if_neg hb, Sys.run_bind_ok hrun, if_neg hnul, Sys.run_bind_ok hwrite]
  exact finishEntry_end rfl hstat (Sys.look_overwrite hopen hwrite) hS hplace
    (hdirs.sized (sized_overwrite hopen hwrite))

/-! ## The loop over the entries -/

def bytesOf (copies : List Copy) : ℕ := (copies.map Copy.bytes).sum

def places (copies : List Copy) : Finset (Loc Name) := (copies.map Copy.place).toFinset

/-- The bytes an entry has for the file it asks for -/
def Entry.bytes (e : Entry) : ℕ :=
  match e.kind with
  | .file r _ => r.data.length
  | _ => 0

def contents (entries : List Entry) : ℕ := (entries.map Entry.bytes).sum

/-- The copies the loop makes, with `total` bytes copied before -/
def FS.copies (f : FS) (ctx : Context) (dst : Path) (i total : ℕ) (j : Journal Name Str) : List Entry → List Copy
  | [] => []
  | e :: more =>
      if ctx i then []
      else
        match target dst e.name with
        | .error _ => []
        | .ok p =>
            match e.kind with
            | .dir =>
                match (f.mkdirEntry p).run j with
                | (.error _, _) => []
                | (.ok _, j') => f.copies ctx dst (i + 1) total j' more
            | .file r mode =>
                (f.copyOf j p r (maxExtractBytes - total)).toList ++
                  match (f.writeEntry p r mode (maxExtractBytes - total)).run j with
                  | (.error _, _) => []
                  | (.ok written, j') => f.copies ctx dst (i + 1) (total + written) j' more
            | .unreadable _ => []
            | .skipped => f.copies ctx dst (i + 1) total j more

/-- An entry that is longer than the budget is removed again, or one of the files before it was cut off by a later
entry, so that the others hold less than was copied. -/
def FS.OverrunRemoved (f : FS) (j : Journal Name Str) (p : Path) (r : Body) (total : ℕ) (before : List Copy) :
    Prop :=
  ∀ t₁ l, f.opens j p (maxExtractBytes - total) = some (t₁, l) → maxExtractBytes - total < r.data.length →
    RemovedAgain t₁ p l r (maxExtractBytes - total) ∨ held j.tree ((places before).erase l) < total

/-- The same of every entry the loop comes to -/
def FS.OverrunsRemoved (f : FS) (ctx : Context) (dst : Path) (i total : ℕ) (j : Journal Name Str)
    (before : List Copy) : List Entry → Prop
  | [] => True
  | e :: more =>
      if ctx i then True
      else
        match target dst e.name with
        | .error _ => True
        | .ok p =>
            match e.kind with
            | .dir =>
                match (f.mkdirEntry p).run j with
                | (.error _, _) => True
                | (.ok _, j') => f.OverrunsRemoved ctx dst (i + 1) total j' before more
            | .file r mode =>
                f.OverrunRemoved j p r total before ∧
                  match (f.writeEntry p r mode (maxExtractBytes - total)).run j with
                  | (.error _, _) => True
                  | (.ok written, j') => f.OverrunsRemoved ctx dst (i + 1) (total + written) j'
                      (before ++ (f.copyOf j p r (maxExtractBytes - total)).toList) more
            | .unreadable _ => True
            | .skipped => f.OverrunsRemoved ctx dst (i + 1) total j before more

/-- These copies have been made, and the files are all there. -/
structure Copied (t : Tree Name Str) (before : List Copy) (total : ℕ) : Prop where
  bytes : bytesOf before = total
  held_le : held t (places before) ≤ total
  files : ∀ x ∈ places before, t.look x = some .leaf
  total_le : total ≤ maxExtractBytes

variable {before : List Copy} {total : ℕ}

theorem places_concat (before : List Copy) (c : Copy) : places (before ++ [c]) = insert c.place (places before) := by
  ext x
  simp only [places, List.map_append, List.map_singleton, List.mem_toFinset, List.mem_append, List.mem_singleton,
    Finset.mem_insert]
  exact or_comm

theorem bytesOf_concat (before : List Copy) (c : Copy) : bytesOf (before ++ [c]) = bytesOf before + c.bytes := by
  rw [bytesOf, List.map_append, List.sum_append, List.map_singleton, List.sum_singleton, bytesOf]

theorem contents_cons (e : Entry) (more : List Entry) : contents (e :: more) = e.bytes + contents more := by
  rw [contents, List.map_cons, List.sum_cons, contents]

theorem Copied.grown (h : Copied t before total) (hg : Grown t t') : Copied t' before total := by
  refine ⟨h.bytes, ?_, fun x hx => (hg.file (h.files x hx)).1, h.total_le⟩
  rw [hg.held_eq h.files]
  exact h.held_le

/-- A whole entry more -/
theorem Copied.concat (h : Copied t before total) (hs : Sized t l n t') (hl : t'.look l = some .leaf)
    (hn : total + n ≤ maxExtractBytes) : Copied t' (before ++ [⟨l, n⟩]) (total + n) := by
  have herase := held_erase_le t (places before) l
  have hheld := h.held_le
  refine ⟨?_, ?_, fun x hx => ?_, hn⟩
  · rw [bytesOf_concat, h.bytes]
  · rw [places_concat, hs.held_insert h.files]
    omega
  · rw [places_concat, Finset.mem_insert] at hx
    rcases eq_or_ne x l with rfl | hne
    · exact hl
    · exact (hs.off x hne (h.files x (hx.resolve_left hne))).1

/-- How the loop ends: what has been copied by then, and what lies there -/
structure LoopEnd (out : Except Refusal ℕ) (t : Tree Name Str) (copies : List Copy) (bound : ℕ) (removed : Prop) :
    Prop where
  success : out.isOk = true → bytesOf copies = bound ∧ bound ≤ maxExtractBytes
  held_le : held t (places copies) ≤ bound
  held_iff : held t (places copies) ≤ maxExtractBytes ↔ removed

/-- The loop breaks off before the next entry is opened. -/
theorem Copied.loopEnd (h : Copied t before total) (e : Refusal) (more : ℕ) :
    LoopEnd (.error e) t (before ++ []) (total + more) True := by
  have hheld := h.held_le
  have htotal := h.total_le
  rw [List.append_nil]
  exact ⟨nofun, by omega, iff_of_true (by omega) trivial⟩

theorem unpackFrom_loopEnd (f : FS) (ctx : Context) (dst : Path) {done : ℕ → ℕ → Prog ℕ}
    (hdone : ∀ i n, (done i n).ReadsOnly) (entries : List Entry) (i total n : ℕ) (h : Copied j.tree before total) :
    LoopEnd ((f.unpackFrom ctx dst done i total n entries).run j).1
      ((f.unpackFrom ctx dst done i total n entries).run j).2.tree
      (before ++ f.copies ctx dst i total j entries) (total + contents entries)
      (f.OverrunsRemoved ctx dst i total j before entries) := by
  induction entries generalizing i total n j before with
  | nil =>
    have hheld := h.held_le
    have htotal := h.total_le
    rw [FS.unpackFrom, FS.copies, FS.OverrunsRemoved, (hdone i n j).tree, List.append_nil]
    exact ⟨fun _ => ⟨h.bytes, htotal⟩, hheld, iff_of_true (hheld.trans htotal) trivial⟩
  | cons e more ih =>
    rw [FS.unpackFrom, FS.copies, FS.OverrunsRemoved, contents_cons]
    by_cases hctx : ctx i
    · rw [if_pos hctx, if_pos hctx, if_pos hctx]
      exact h.loopEnd _ _
    rw [if_neg hctx, if_neg hctx, if_neg hctx]
    match target dst e.name with
    | .error err => exact h.loopEnd _ _
    | .ok p =>
      dsimp only
      match hkind : e.kind with
      | .dir =>
        have hbytes : e.bytes = 0 := by rw [Entry.bytes, hkind]
        have hdirs := h.grown (grown_mkdirEntry f j p)
        dsimp only
        rcases hrun : (f.mkdirEntry p).run j with ⟨err | u, j'⟩ <;> rw [hrun] at hdirs
        · rw [Sys.run_bind_error hrun]
          exact hdirs.loopEnd _ _
        · rw [Sys.run_bind_ok hrun, hbytes, Nat.zero_add]
          exact ih (i + 1) total n hdirs
      | .unreadable err => exact h.loopEnd _ _
      | .skipped =>
        have hbytes : e.bytes = 0 := by rw [Entry.bytes, hkind]
        rw [hbytes, Nat.zero_add]
        exact ih (i + 1) total n h
      | .file r mode =>
        have hbytes : e.bytes = r.data.length := by rw [Entry.bytes, hkind]
        have hheld := h.held_le
        have htotal := h.total_le
        rw [hbytes]
        dsimp only
        rcases hopens : f.opens j p (maxExtractBytes - total) with _ | ⟨t₁, l⟩
        · -- nothing is opened
          obtain ⟨err, j', hrun, hg⟩ := writeEntry_none mode r hopens
          have hwithin : f.OverrunRemoved j p r total before := by
            intro t₁ l hsome
            exact nomatch hopens.symm.trans hsome
          rw [Sys.run_bind_error hrun, FS.copyOf, hopens, hrun]
          simp only [hwithin, true_and]
          exact (h.grown hg).loopEnd _ _
        · obtain ⟨out, j', k, hrun, hend, hs, hl⟩ := writeEntry_some mode r hopens
          rw [FS.copyOf, hopens, hrun, Option.map_some, Option.toList_some]
          have hplaced : held j'.tree (places (before ++ [⟨l, min r.data.length (maxExtractBytes - total + 1)⟩])) =
              held j.tree ((places before).erase l) + k := by
            rw [places_concat]
            exact hs.held_insert h.files
          have hothers := held_erase_le j.tree (places before) l
          have hwithin : f.OverrunRemoved j p r total before ↔ (maxExtractBytes - total < r.data.length →
              RemovedAgain t₁ p l r (maxExtractBytes - total) ∨
                held j.tree ((places before).erase l) < total) := by
            constructor
            · exact fun hall => hall t₁ l hopens
            · intro hall t₂ l₂ hsome
              obtain ⟨rfl, rfl⟩ := Prod.mk.inj (Option.some.inj (hopens.symm.trans hsome))
              exact hall
          rw [hwithin]
          cases hend with
          | copied hfits =>
            have hnext := h.concat hs (hl rfl) (by omega)
            rw [Sys.run_bind_ok hrun, min_eq_left (by omega), ← Nat.add_assoc, ← List.append_assoc]
            simp only [hfits.not_gt, false_imp_iff, true_and]
            exact ih (i + 1) (total + r.data.length) (n + 1) hnext
          | broken err hfits =>
            rw [Sys.run_bind_error hrun]
            simp only [hfits.not_gt, false_imp_iff, true_and, List.append_nil]
            exact ⟨nofun, by omega, iff_of_true (by omega) trivial⟩
          | removed err hlong hgone =>
            rw [Sys.run_bind_error hrun]
            simp only [hgone, true_or, implies_true, true_and, List.append_nil]
            exact ⟨nofun, by omega, iff_of_true (by omega) trivial⟩
          | left err hlong hstays =>
            rw [Sys.run_bind_error hrun]
            simp only [hlong, hstays, false_or, true_imp_iff, and_true, List.append_nil]
            exact ⟨nofun, by omega, by omega⟩

/-! ## The whole extraction -/

variable (lib : Lib) (fmts : Formats) (ctx : Context)

/-- Where the entries of the archive go, and what is there when the first of them is unpacked. Without an archive that
can be opened there are none. -/
def FS.opened (f : FS) (t : Tree Name Str) (rel dest : Str) :
    Except Refusal (Path × List Entry) × Journal Name Str :=
  (do
    let (src, c) ← f.resolve rel
    let (dst, _) ← f.resolve dest
    f.mkdirAllOwned dst
    let entries ← entriesOf lib fmts src c
    pure (dst, entries) : Prog (Path × List Entry)).run (.of t)

/-- The copies that `Extract` makes -/
def FS.extractCopies (f : FS) (t : Tree Name Str) (rel dest : Str) : List Copy :=
  match f.opened lib fmts t rel dest with
  | (.error _, _) => []
  | (.ok (dst, entries), j) => f.copies ctx dst 0 0 j entries

/-- The limit is kept: by what is written, by failing, and in what is left. -/
structure LimitKept (f : FS) (t : Tree Name Str) (rel dest : Str) : Prop where
  success : ∀ n j', (f.extract lib fmts ctx rel dest).run (.of t) = (.ok n, j') →
    bytesOf (f.extractCopies lib fmts ctx t rel dest) ≤ maxExtractBytes
  exceeding : ∀ dst entries j, f.opened lib fmts t rel dest = (.ok (dst, entries), j) →
    maxExtractBytes < contents entries →
      ∃ e j', (f.extract lib fmts ctx rel dest).run (.of t) = (.error e, j') ∧
        held j'.tree (places (f.extractCopies lib fmts ctx t rel dest)) ≤ maxExtractBytes

variable {lib fmts ctx} {rel dest : Str}

/-- The loop runs over the entries of the archive, if it can be opened. -/
theorem run_unpack (f : FS) (ctx : Context) (src c dst : Path) (j : Journal Name Str) :
    ∀ unpack : Prog ℕ, unpack = (let name := lib.toLower (text c)
        if ".zip".toList.isSuffixOf name then f.extractZip fmts ctx src dst
        else if ".tar.gz".toList.isSuffixOf name ∨ ".tgz".toList.isSuffixOf name then
          f.extractTar fmts ctx src dst true
        else if ".tar".toList.isSuffixOf name then f.extractTar fmts ctx src dst false
        else Sys.throw (invalid "not an archive the agent can unpack: " (text c))) →
      (∃ e j', (entriesOf lib fmts src c).run j = (.error e, j') ∧ unpack.run j = (.error e, j')) ∨
        ∃ entries j' done, (entriesOf lib fmts src c).run j = (.ok entries, j') ∧
          (∀ i n, (done i n : Prog ℕ).ReadsOnly) ∧
          unpack.run j = (f.unpackFrom ctx dst done 0 0 0 entries).run j' := by
  have hread {γ : Type} {m : Prog γ} {g : γ → List Entry} {k : γ → ℕ → ℕ → Prog ℕ}
      (hk : ∀ a i n, (k a i n).ReadsOnly) :
      (∃ e j', (do let a ← m; pure (g a) : Prog _).run j = (.error e, j') ∧
          (do let a ← m; f.unpackFrom ctx dst (k a) 0 0 0 (g a) : Prog ℕ).run j = (.error e, j')) ∨
        ∃ entries j' done, (do let a ← m; pure (g a) : Prog _).run j = (.ok entries, j') ∧
          (∀ i n, (done i n : Prog ℕ).ReadsOnly) ∧
          (do let a ← m; f.unpackFrom ctx dst (k a) 0 0 0 (g a) : Prog ℕ).run j =
            (f.unpackFrom ctx dst done 0 0 0 entries).run j' := by
    rcases hrun : m.run j with ⟨e | a, j₁⟩
    · exact .inl ⟨e, j₁, Sys.run_bind_error hrun, Sys.run_bind_error hrun⟩
    · exact .inr ⟨g a, j₁, k a, Sys.run_bind_ok hrun, hk a, Sys.run_bind_ok hrun⟩
  rintro unpack rfl
  unfold entriesOf
  dsimp only
  split
  · exact hread fun _ _ n => Sys.readsOnly_pure n
  split
  · exact hread fun _ _ _ => readsOnly_endOfTar ctx
  split
  · exact hread fun _ _ _ => readsOnly_endOfTar ctx
  · exact .inl ⟨_, j, rfl, rfl⟩

/-- `Extract` fails before the first entry, or runs the loop over the entries. -/
theorem extract_run (lib : Lib) (fmts : Formats) (ctx : Context) (f : FS) (t : Tree Name Str) (rel dest : Str) :
    (∃ e j', f.opened lib fmts t rel dest = (.error e, j') ∧
        (f.extract lib fmts ctx rel dest).run (.of t) = (.error e, j')) ∨
      ∃ dst entries j done, f.opened lib fmts t rel dest = (.ok (dst, entries), j) ∧
        (∀ i n, (done i n : Prog ℕ).ReadsOnly) ∧
        (f.extract lib fmts ctx rel dest).run (.of t) = (f.unpackFrom ctx dst done 0 0 0 entries).run j := by
  rw [FS.opened, FS.extract]
  rcases hsrc : (f.resolve rel).run (.of t) with ⟨e | ⟨src, c⟩, j₁⟩
  · exact .inl ⟨e, j₁, Sys.run_bind_error hsrc, Sys.run_bind_error hsrc⟩
  rw [Sys.run_bind_ok hsrc, Sys.run_bind_ok hsrc]
  dsimp only
  rcases hdst : (f.resolve dest).run j₁ with ⟨e | ⟨dst, d⟩, j₂⟩
  · exact .inl ⟨e, j₂, Sys.run_bind_error hdst, Sys.run_bind_error hdst⟩
  rw [Sys.run_bind_ok hdst, Sys.run_bind_ok hdst]
  dsimp only
  rcases hdirs : (f.mkdirAllOwned dst).run j₂ with ⟨e | u, j₃⟩
  · exact .inl ⟨e, j₃, Sys.run_bind_error hdirs, Sys.run_bind_error hdirs⟩
  rw [Sys.run_bind_ok hdirs, Sys.run_bind_ok hdirs]
  rcases run_unpack f ctx src c dst j₃ _ rfl with ⟨e, j₄, hrun, hall⟩ | ⟨entries, j₄, done, hrun, hdone, hall⟩
  · exact .inl ⟨e, j₄, Sys.run_bind_error hrun, hall⟩
  · exact .inr ⟨dst, entries, j₄, done, Sys.run_bind_ok hrun, hdone, hall⟩

theorem copied_nil (t : Tree Name Str) : Copied t [] 0 :=
  ⟨rfl, le_rfl, fun x hx => absurd hx (Finset.notMem_empty x), Nat.zero_le _⟩

/-- Every entry that the loop comes to and that is too long is removed again. -/
def OverrunsGone (lib : Lib) (fmts : Formats) (ctx : Context) (f : FS) (t : Tree Name Str) (rel dest : Str) : Prop :=
  ∀ dst entries j, f.opened lib fmts t rel dest = (.ok (dst, entries), j) →
    f.OverrunsRemoved ctx dst 0 0 j [] entries

/-- What the loop comes to is the outcome of `Extract`. -/
theorem extract_loopEnd (ctx : Context) {dst : Path} {entries : List Entry}
    (h : f.opened lib fmts t rel dest = (.ok (dst, entries), j)) :
    LoopEnd ((f.extract lib fmts ctx rel dest).run (.of t)).1 ((f.extract lib fmts ctx rel dest).run (.of t)).2.tree
      (f.extractCopies lib fmts ctx t rel dest) (contents entries) (f.OverrunsRemoved ctx dst 0 0 j [] entries) := by
  have hcopies : f.extractCopies lib fmts ctx t rel dest = f.copies ctx dst 0 0 j entries := by
    rw [FS.extractCopies, h]
  rcases extract_run lib fmts ctx f t rel dest with ⟨e, j', hfail, -⟩ | ⟨dst', entries', j', done, hopened, hdone, hrun⟩
  · exact nomatch h.symm.trans hfail
  obtain ⟨hpair, rfl⟩ := Prod.mk.inj (h.symm.trans hopened)
  obtain ⟨rfl, rfl⟩ := Prod.mk.inj (Except.ok.inj hpair)
  have hend := unpackFrom_loopEnd f ctx dst hdone entries 0 0 0 (copied_nil j.tree)
  rwa [← hrun, List.nil_append, ← hcopies, Nat.zero_add] at hend

theorem LimitKept.overrunsRemoved {dst : Path} {entries : List Entry} (hkept : LimitKept lib fmts ctx f t rel dest)
    (h : f.opened lib fmts t rel dest = (.ok (dst, entries), j)) : f.OverrunsRemoved ctx dst 0 0 j [] entries := by
  have hend := extract_loopEnd ctx h
  refine hend.held_iff.mp ?_
  by_cases hmax : maxExtractBytes < contents entries
  · obtain ⟨e, j', hrun, hheld⟩ := hkept.exceeding dst entries j h hmax
    rwa [hrun]
  · exact hend.held_le.trans (not_lt.mp hmax)

/-- `Extract` keeps its limit unless a file is left that is longer than what was left of it. -/
theorem extract_limitKept_iff (lib : Lib) (fmts : Formats) (ctx : Context) (f : FS) (t : Tree Name Str)
    (rel dest : Str) : LimitKept lib fmts ctx f t rel dest ↔ OverrunsGone lib fmts ctx f t rel dest := by
  refine ⟨fun hkept dst entries j h => hkept.overrunsRemoved h, fun hgone => ⟨fun n j' hrun => ?_, ?_⟩⟩
  · rcases extract_run lib fmts ctx f t rel dest with
      ⟨e, j, -, hfail⟩ | ⟨dst, entries, j, done, hopened, -, -⟩
    · exact nomatch hfail.symm.trans hrun
    · have hend := extract_loopEnd ctx hopened
      rw [hrun] at hend
      obtain ⟨hbytes, hle⟩ := hend.success rfl
      exact hbytes.trans_le hle
  · intro dst entries j h hmax
    have hend := extract_loopEnd ctx h
    rcases hrun : (f.extract lib fmts ctx rel dest).run (.of t) with ⟨e | n, j'⟩ <;> rw [hrun] at hend
    · exact ⟨e, j', rfl, hend.held_iff.mpr (hgone dst entries j h)⟩
    · obtain ⟨-, hle⟩ := hend.success rfl
      exact absurd hmax (not_lt.mpr hle)

/-- A link in the instance leads to a file that is not there yet; the archive has an entry by its name. -/
def linkedFile : Tree Name Str :=
  .build
    [([], name "a", ⟨.dir, 0o755, 1000, 1000⟩),
     ([name "a"], name "x", ⟨.link ⟨false, [.name (name "y")]⟩, 0o777, 1000, 1000⟩),
     ([name "a"], name "z.zip", ⟨.file [], 0o644, 1000, 1000⟩)]

def oneFile (r : Body) : Formats where
  toTarGz := ⟨fun _ => ⟨[], none⟩, fun _ => .error []⟩
  openZip _ := .ok [⟨"x".toList, false, false, 0o644, .ok r⟩]
  packZip _ := .ok []
  packTarGz _ := .ok []

theorem opens_behind_link (r : Body) :
    ∃ j, (⟨[name "a"], 1000, 1000, true⟩ : FS).opened plainLib (oneFile r) linkedFile "z.zip".toList [] =
        (.ok ([name "a"], [⟨"x".toList, .file r 0o644⟩]), j) ∧
      ∃ t₁, (⟨[name "a"], 1000, 1000, true⟩ : FS).opens j [name "a", name "x"] (maxExtractBytes - 0) =
          some (t₁, [name "a", name "y"]) ∧ (t₁.lstat [name "a", name "x"]).place = .ok [name "a", name "x"] :=
  ⟨_, rfl, _, rfl, rfl⟩

/-- One byte too many stays in the file behind the link. -/
theorem overrun_left_behind_link :
    ¬ ∀ (lib : Lib) (fmts : Formats) (ctx : Context) (f : FS) (t : Tree Name Str) (rel dest : Str),
      LimitKept lib fmts ctx f t rel dest := by
  intro h
  obtain ⟨r, hlen⟩ : ∃ r : Body, maxExtractBytes < r.data.length :=
    ⟨⟨List.replicate (maxExtractBytes + 1) 'a', none, false⟩, by rw [List.length_replicate]; exact Nat.lt_succ_self _⟩
  obtain ⟨j, hopened, t₁, hopens, hplace⟩ := opens_behind_link r
  have hkept := h plainLib (oneFile r) (fun _ => false) ⟨[name "a"], 1000, 1000, true⟩ linkedFile "z.zip".toList []
  have hall := hkept.overrunsRemoved hopened
  have htarget : target [name "a"] "x".toList = .ok [name "a", name "x"] := by decide
  rw [FS.OverrunsRemoved, if_neg Bool.false_ne_true] at hall
  dsimp only at hall
  rw [htarget] at hall
  rcases hall.1 t₁ [name "a", name "y"] hopens hlen with ⟨-, hself⟩ | hfew
  · exact absurd (hplace.symm.trans hself) (by decide)
  · exact absurd hfew (Nat.not_lt_zero _)

end Instfs
