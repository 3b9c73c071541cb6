import Gsm.Instfs.Extraction
import Gsm.Instfs.Owners

/-!
# Who owns what `Extract` makes

`writeEntry` hands over the path of an entry once it has copied the entry's bytes: not the file behind it,
if the path is a link, and not a file whose bytes break off. `leftBy` follows the files that are left so
from one entry to the next, as a later entry may still hand one over.
-/

open Posix GoStd Posix.Tree

namespace Instfs

variable {f : FS} {own : ℕ × ℕ} {t : Tree Name Str} {j : Journal Name Str} {p : Path}

/-! ## What one entry leaves -/

/-- The file that is made when `p` is opened to be written -/
def madeFor (t : Tree Name Str) (p : Path) : Set (Loc Name) :=
  {l | ∃ d n, t.stat p = .absent d n ∧ l = d ++ [n]}

/-- What `writeEntry` hands over or takes away once it has copied: what lies at `p` itself. A copy that
breaks off is left. -/
def settledFor (t : Tree Name Str) (p : Path) (r : Body) (budget : ℕ) : Set (Loc Name) :=
  {S | t.openTarget p ≠ none ∧ (t.lstat p).place = .ok S ∧ copyErr r (budget + 1) = none}

/-- The files that are still to be handed over after `writeEntry`, when before it these were -/
def FS.leftBy (f : FS) (j : Journal Name Str) (p : Path) (r : Body) (budget : ℕ)
    (left : Set (Loc Name)) : Set (Loc Name) :=
  if budget = 0 ∨ hasNul p = true then left
  else
    match (f.mkdirEntry p.dropLast).run j with
    | (.error _, _) => left
    | (.ok _, j') => (left ∪ madeFor j'.tree p) \ settledFor j'.tree p r budget

/-- What began on `t` has still to hand over these files, and has taken nothing away. -/
structure Leaves (own : ℕ × ℕ) (t : Tree Name Str) (left : Set (Loc Name)) (t' : Tree Name Str) : Prop where
  left_eq : unowned own t t' = left
  file : ∀ l ∈ left, t'.look l = some .leaf
  there : ∀ l, t.look l ≠ none → t'.look l ≠ none

variable {left : Set (Loc Name)} {r : Body} {budget : ℕ}

theorem Leaves.refl (t : Tree Name Str) : Leaves own t ∅ t := ⟨unowned_self, nofun, fun _ => id⟩

theorem Leaves.give (h : Leaves own t left j.tree) (hown : f.own = some own) (x : Loc Name) :
    Leaves own t (left \ {x}) (j.give f.own x).tree := by
  have hlook : (j.give f.own x).tree.look = j.tree.look := Journal.look_give
  refine ⟨?_, fun l hl => ?_, fun l hl => ?_⟩
  · rw [hown, Journal.give, Journal.tree_alter, unowned_setOwner, h.left_eq]
  · rw [hlook]
    exact h.file l hl.1
  · rw [hlook]
    exact h.there l hl

/-- The directories of an entry are handed over. -/
theorem Leaves.mkdirAllOwned (h : Leaves own t left j.tree) (hown : f.own = some own) (p : Path) :
    Leaves own t left ((f.mkdirAllOwned p).run j).2.tree := by
  rcases mkdirAllOwned_cases f j p with ⟨l, hl⟩ | ⟨q, c, rest, d, rfl, hq, hc⟩ |
    ⟨q, c, rest, d, rfl, hq, hc, hno⟩ | ⟨e, he⟩
  · rwa [mkdirAllOwned_present hl]
  · rw [mkdirAllOwned_missing hq hc, hown]
    have hmono (l : Loc Name) (s : Shape Name) (hs : j.tree.look l = some s) :=
      Journal.look_makeDirs_mono (some own) 0o755 hq.2 hc rest hs
    refine ⟨?_, fun l hl => hmono l _ (h.file l hl), fun l hl => ?_⟩
    · rw [(Journal.handing_makeDirs 0o755 hq.2 hc rest).unowned_eq, h.left_eq]
      intro x hx hpre
      rw [h.left_eq] at hx
      cases (h.file x hx).symm.trans (look_below_none hc hpre)
    · obtain ⟨s, hs⟩ := Option.ne_none_iff_exists'.mp (h.there l hl)
      show (j.makeDirs (some own) 0o755 d (c :: rest)).tree.look l ≠ none
      rw [hmono l s hs]
      nofun
  · -- a link that leads nowhere is handed over
    have hgive : Leaves own t left (j.give f.own (d ++ [c])).tree := by
      have hlink : d ++ [c] ∉ left := by
        intro hleft
        have hleaf := h.file _ hleft
        refine hno (d ++ [c]) ?_
        rw [hq.stat_concat (by simp [hleaf]), if_neg (by simp [hleaf])]
      have := h.give hown (d ++ [c])
      rwa [Set.sdiff_singleton_eq_self hlink] at this
    rcases rest with _ | ⟨b, rest⟩
    · rw [mkdirAllOwned_blocked hq hc hno]
      exact hgive
    · obtain ⟨e, he⟩ := mkdirAllOwned_blocked_cons (f := f) hq hc hno b rest
      rw [he]
      exact hgive
  · rwa [he]

theorem Leaves.mkdirEntry (h : Leaves own t left j.tree) (hown : f.own = some own) (p : Path) :
    Leaves own t left ((f.mkdirEntry p).run j).2.tree := by
  have hdirs := h.mkdirAllOwned hown (soundPart p)
  rw [FS.mkdirEntry, Sys.run_bind]
  rcases hrun : (f.mkdirAllOwned (soundPart p)).run j with ⟨e | u, j₁⟩ <;> rw [hrun] at hdirs
  · exact hdirs
  · dsimp only
    split <;> exact hdirs

/-- The file of an entry is root's when it is made. -/
theorem Leaves.overwrite (h : Leaves own t left j.tree) (hroot : own ≠ (0, 0)) {l : Loc Name}
    (hl : j.tree.openTarget p = some l) (mode : ℕ) (data : Str) :
    Leaves own t (left ∪ madeFor j.tree p) ((Sys.overwrite p mode data : Prog Unit).run j).2.tree := by
  rcases hs : j.tree.stat p with l' | ⟨d, m⟩ | e
  · -- it was there
    have hsame : l' = l := by
      rw [Tree.openTarget, hs] at hl
      dsimp only at hl
      split at hl <;> cases hl
      rfl
    subst hsame
    have hnone : madeFor j.tree p = ∅ := by
      refine Set.eq_empty_iff_forall_notMem.mpr ?_
      rintro x ⟨d, m, habsent, -⟩
      cases hs.symm.trans habsent
    obtain ⟨j', hrun, howner, hlook⟩ := Sys.run_overwrite_found (μ := FsError) mode data hs hl
    rw [hnone, Set.union_empty, hrun]
    refine ⟨?_, fun x hx => ?_, fun x hx => ?_⟩
    · rw [unowned_congr howner, h.left_eq]
    · rw [hlook]
      exact h.file x hx
    · rw [hlook]
      exact h.there x hx
  · obtain ⟨hd, hm⟩ := Tree.stat_absent hs
    have hmade : madeFor j.tree p = {d ++ [m]} := by
      ext x
      constructor
      · rintro ⟨d', m', habsent, rfl⟩
        cases hs.symm.trans habsent
        rfl
      · rintro rfl
        exact ⟨d, m, hs, rfl⟩
    obtain ⟨j', hrun, howner, hlook⟩ := Sys.run_overwrite_absent (μ := FsError) mode data hs
    rw [hmade, hrun]
    have hnew : t.look (d ++ [m]) = none := by
      by_contra hne
      exact h.there _ hne hm
    have hself : j'.tree.look (d ++ [m]) = some .leaf := by
      rw [hlook, look_create _ hd (look_eq_none.mp hm), if_pos rfl]
      rfl
    have hother (x : Loc Name) (hx : x ≠ d ++ [m]) : j'.tree.look x = j.tree.look x := by
      rw [hlook, look_create _ hd (look_eq_none.mp hm), if_neg hx]
    refine ⟨?_, fun x hx => ?_, fun x hx => ?_⟩
    · have hnd : (⟨.file ∅, mode, 0, 0⟩ : Node Name Str).owner ≠ own := hroot.symm
      rw [unowned_congr howner, unowned_create hnd hd hm hnew, h.left_eq, Set.union_comm]
      rfl
    · rcases eq_or_ne x (d ++ [m]) with rfl | hne
      · exact hself
      · rw [hother x hne]
        exact h.file x (hx.resolve_right hne)
    · rcases eq_or_ne x (d ++ [m]) with rfl | hne
      · exact absurd hnew hx
      · rw [hother x hne]
        exact h.there x hx
  · rw [Tree.openTarget, hs] at hl
    cases hl

/-- What lies at the path of the entry is handed over, or taken away, or left. -/
theorem Leaves.finishEntry (h : Leaves own t left j.tree) (hown : f.own = some own) {S l : Loc Name}
    (hstat : j.tree.stat p = .found l) (hl : j.tree.look l = some .leaf) (hS : j.tree.lstat p = .found S) :
    unowned own t ((f.finishEntry p (r.data.take (budget + 1)) (copyErr r (budget + 1)) budget).run j).2.tree =
        left \ {x | x = S ∧ copyErr r (budget + 1) = none} ∧
      ∀ n j', (f.finishEntry p (r.data.take (budget + 1)) (copyErr r (budget + 1)) budget).run j = (.ok n, j') →
        Leaves own t (left \ {x | x = S ∧ copyErr r (budget + 1) = none}) j'.tree := by
  have hsettled : {x | x = S ∧ (none : Option Str) = none} = ({S} : Set (Loc Name)) := by
    ext x
    exact ⟨fun hx => hx.1, fun hx => ⟨hx, rfl⟩⟩
  have hdir : j.tree.look S ≠ some .dir := by
    intro hdir
    have hfound := Tree.stat_of_lstat hS (by simp [hdir])
    cases hstat.symm.trans hfound
    cases hl.symm.trans hdir
  have hne : S ≠ [] := by
    rintro rfl
    exact hdir (look_root j.tree)
  unfold FS.finishEntry
  match copyErr r (budget + 1) with
  | some e =>
    have hnone : {x | x = S ∧ some e = none} = (∅ : Set (Loc Name)) := by
      refine Set.eq_empty_iff_forall_notMem.mpr ?_
      rintro x ⟨-, hx⟩
      exact nomatch hx
    rw [hnone, Set.sdiff_empty]
    exact ⟨h.left_eq, nofun⟩
  | none =>
    rw [hsettled]
    dsimp only
    split
    · -- more than the budget: it is taken away
      have hrun := Sys.run_unlink (μ := FsError) hS hdir
      have hattempt : ((Sys.unlink p : Prog Unit).attempt).run j = (.ok (.ok ()), j.remove S) := by
        rw [Sys.run_attempt, hrun]
      rw [Sys.run_bind_ok hattempt]
      refine ⟨?_, nofun⟩
      show unowned own t (j.tree.remove S) = _
      rw [unowned_remove hne hdir, h.left_eq]
    · have hgiven := h.give hown S
      rw [Sys.run_bind_ok (run_giveAway hS)]
      refine ⟨hgiven.left_eq, ?_⟩
      rintro n j' hrun
      cases hrun
      exact hgiven

theorem Leaves.writeEntry (h : Leaves own t left j.tree) (hown : f.own = some own) (hroot : own ≠ (0, 0))
    (p : Path) (r : Body) (mode budget : ℕ) :
    unowned own t ((f.writeEntry p r mode budget).run j).2.tree = f.leftBy j p r budget left ∧
      ∀ n j', (f.writeEntry p r mode budget).run j = (.ok n, j') →
        Leaves own t (f.leftBy j p r budget left) j'.tree := by
  unfold FS.writeEntry FS.leftBy
  by_cases hb : budget = 0
  · rw [if_pos hb, if_pos (.inl hb)]
    exact ⟨h.left_eq, nofun⟩
  rw [if_neg hb]
  have hdirs := h.mkdirEntry hown p.dropLast
  rcases hrun : (f.mkdirEntry p.dropLast).run j with ⟨e | u, j₁⟩ <;> rw [hrun] at hdirs
  · rw [Sys.run_bind_error hrun]
    dsimp only
    rw [ite_self]
    exact ⟨hdirs.left_eq, nofun⟩
  rw [Sys.run_bind_ok hrun]
  dsimp only at hdirs ⊢
  by_cases hnul : hasNul p = true
  · rw [if_pos hnul, if_pos (.inr hnul)]
    exact ⟨hdirs.left_eq, nofun⟩
  rw [if_neg hnul, if_neg (by simp [hb, hnul])]
  rcases hopen : j₁.tree.openTarget p with _ | l
  · -- nothing is opened
    have hmade : madeFor j₁.tree p = ∅ := by
      refine Set.eq_empty_iff_forall_notMem.mpr ?_
      rintro x ⟨d, m, habsent, -⟩
      rw [Tree.openTarget, habsent] at hopen
      cases hopen
    have hsettled : settledFor j₁.tree p r budget = ∅ :=
      Set.eq_empty_iff_forall_notMem.mpr fun x hx => hx.1 hopen
    obtain ⟨e, he⟩ := Sys.run_overwrite_none (μ := FsError) (perm mode ||| 0o600)
      (r.data.take (budget + 1)) hopen
    rw [Sys.run_bind_error he, hmade, hsettled, Set.union_empty, Set.sdiff_empty]
    exact ⟨hdirs.left_eq, nofun⟩
  · obtain ⟨j₂, hwrite, hstat, ⟨S, hplace, hS⟩, -⟩ := Sys.run_overwrite (μ := FsError) (perm mode ||| 0o600)
      (r.data.take (budget + 1)) hopen
    have hover := hdirs.overwrite hroot hopen (perm mode ||| 0o600) (r.data.take (budget + 1))
    rw [hwrite] at hover
    have hleaf : j₂.tree.look l = some .leaf := Sys.look_overwrite hopen hwrite
    have hsettled : settledFor j₁.tree p r budget =
        {x | x = S ∧ copyErr r (budget + 1) = none} := by
      ext x
      constructor
      · rintro ⟨-, hx, hwhole⟩
        exact ⟨(Except.ok.inj (hplace.symm.trans hx)).symm, hwhole⟩
      · rintro ⟨rfl, hwhole⟩
        exact ⟨by simp [hopen], hplace, hwhole⟩
    rw [Sys.run_bind_ok hwrite, hsettled]
    exact hover.finishEntry hown hstat hleaf hS

/-! ## The loop over the entries -/

/-- Nothing is left when the entries are done, or the extraction breaks off: `left` were left before. -/
def FS.EntriesHanded (f : FS) (ctx : Context) (dst : Path) (i total : ℕ) (j : Journal Name Str)
    (left : Set (Loc Name)) : List Entry → Prop
  | [] => left = ∅
  | e :: more =>
      if ctx i then left = ∅
      else
        match target dst e.name with
        | .error _ => left = ∅
        | .ok p =>
            match e.kind with
            | .dir =>
                match (f.mkdirEntry p).run j with
                | (.error _, _) => left = ∅
                | (.ok _, j') => f.EntriesHanded ctx dst (i + 1) total j' left more
            | .file r mode =>
                match (f.writeEntry p r mode (maxExtractBytes - total)).run j with
                | (.error _, _) => f.leftBy j p r (maxExtractBytes - total) left = ∅
                | (.ok written, j') => f.EntriesHanded ctx dst (i + 1) (total + written) j'
                    (f.leftBy j p r (maxExtractBytes - total) left) more
            | .unreadable _ => left = ∅
            | .skipped => f.EntriesHanded ctx dst (i + 1) total j left more

theorem newOwned_unpackFrom_iff {ctx : Context} {dst : Path} {done : ℕ → ℕ → Prog ℕ} (hown : f.own = some own)
    (hroot : own ≠ (0, 0)) (hdone : ∀ i n, (done i n).ReadsOnly) (entries : List Entry) (i total n : ℕ)
    (h : Leaves own t left j.tree) :
    NewOwned own t ((f.unpackFrom ctx dst done i total n entries).run j).2.tree ↔
      f.EntriesHanded ctx dst i total j left entries := by
  have hhere {left : Set (Loc Name)} {t' : Tree Name Str} (h : unowned own t t' = left) :
      NewOwned own t t' ↔ left = ∅ := by
    rw [newOwned_iff, h]
  induction entries generalizing i total n j left with
  | nil =>
    have hquiet := hdone i n j
    rw [FS.unpackFrom, FS.EntriesHanded, hquiet.tree]
    exact hhere h.left_eq
  | cons e more ih =>
    rw [FS.unpackFrom, FS.EntriesHanded]
    by_cases hctx : ctx i
    · rw [if_pos hctx, if_pos hctx]
      exact hhere h.left_eq
    rw [if_neg hctx, if_neg hctx]
    match target dst e.name with
    | .error err => exact hhere h.left_eq
    | .ok p =>
      dsimp only
      match e.kind with
      | .dir =>
        have hdirs := h.mkdirEntry hown p
        dsimp only
        rcases hrun : (f.mkdirEntry p).run j with ⟨err | u, j'⟩ <;> rw [hrun] at hdirs
        · rw [Sys.run_bind_error hrun]
          exact hhere hdirs.left_eq
        · rw [Sys.run_bind_ok hrun]
          exact ih (i + 1) total n hdirs
      | .file r mode =>
        obtain ⟨hall, hok⟩ := h.writeEntry hown hroot p r mode (maxExtractBytes - total)
        dsimp only
        rcases hrun : (f.writeEntry p r mode (maxExtractBytes - total)).run j with ⟨err | written, j'⟩
        · rw [hrun] at hall
          rw [Sys.run_bind_error hrun]
          exact hhere hall
        · rw [Sys.run_bind_ok hrun]
          exact ih (i + 1) (total + written) (n + 1) (hok written j' hrun)
      | .unreadable err => exact hhere h.left_eq
      | .skipped => exact ih (i + 1) total n h

/-! ## The whole extraction -/

variable (lib : Lib) (fmts : Formats) (ctx : Context)

/-- Whatever is left of the entries of the archive is handed over. -/
def ExtractHanded (f : FS) (t : Tree Name Str) (rel dest : Str) : Prop :=
  ∀ src c dst d, resolve t f rel = .ok (src, c) → resolve t f dest = .ok (dst, d) →
    ∀ a j₁, (f.mkdirAllOwned dst).run (.of t) = (.ok a, j₁) →
      ∀ entries j₂, (entriesOf lib fmts src c).run j₁ = (.ok entries, j₂) →
        f.EntriesHanded ctx dst 0 0 j₂ ∅ entries

theorem readsOnly_readZip {src : Path} : (readZip fmts src).ReadsOnly := by
  refine (Sys.readsOnly_readAll _).attempt.bind fun bytes => ?_
  split
  · exact Sys.readsOnly_throw _
  · split
    · exact Sys.readsOnly_throw _
    · exact Sys.readsOnly_pure _

theorem readsOnly_readTar {src : Path} {gz : Bool} : (readTar fmts src gz).ReadsOnly := by
  refine (Sys.readsOnly_readAll _).bind fun bytes => ?_
  split
  · exact Sys.readsOnly_throw _
  · exact Sys.readsOnly_pure _

/-- Unpacking one archive hands over what it makes when its entries do. -/
theorem newOwned_unpack_iff {src c dst : Path} (hown : f.own = some own) (hroot : own ≠ (0, 0))
    (h : Leaves own t ∅ j.tree) :
    NewOwned own t ((let name := lib.toLower (text c)
      if ".zip".toList.isSuffixOf name then f.extractZip fmts ctx src dst
      else if ".tar.gz".toList.isSuffixOf name ∨ ".tgz".toList.isSuffixOf name then
        f.extractTar fmts ctx src dst true
      else if ".tar".toList.isSuffixOf name then f.extractTar fmts ctx src dst false
      else Sys.throw (invalid "not an archive the agent can unpack: " (text c)) : Prog ℕ).run j).2.tree ↔
      ∀ entries j', (entriesOf lib fmts src c).run j = (.ok entries, j') →
        f.EntriesHanded ctx dst 0 0 j' ∅ entries := by
  have hread {γ : Type} {m : Prog γ} {g : γ → List Entry} {k : γ → ℕ → ℕ → Prog ℕ} (hm : m.ReadsOnly)
      (hk : ∀ a i n, (k a i n).ReadsOnly) :
      NewOwned own t ((do let a ← m; f.unpackFrom ctx dst (k a) 0 0 0 (g a) : Prog ℕ).run j).2.tree ↔
        ∀ es j', (do let a ← m; pure (g a) : Prog _).run j = (.ok es, j') →
          f.EntriesHanded ctx dst 0 0 j' ∅ es := by
    have hquiet := hm j
    rcases hrun : m.run j with ⟨e | a, j₁⟩ <;> rw [hrun] at hquiet
    · rw [Sys.run_bind_error hrun, Sys.run_bind_error hrun]
      refine iff_of_true ?_ nofun
      rw [hquiet.tree, newOwned_iff]
      exact h.left_eq
    · rw [Sys.run_bind_ok hrun, Sys.run_bind_ok hrun]
      have h₁ : Leaves own t ∅ j₁.tree := by rwa [hquiet.tree]
      rw [newOwned_unpackFrom_iff hown hroot (hk a) (g a) 0 0 0 h₁]
      constructor
      · rintro hall es j' hes
        cases hes
        exact hall
      · exact fun hall => hall _ _ rfl
  unfold entriesOf
  dsimp only
  split
  · exact hread (readsOnly_readZip fmts) fun _ _ n => Sys.readsOnly_pure n
  split
  · exact hread (readsOnly_readTar fmts) fun _ _ _ => readsOnly_endOfTar ctx
  split
  · exact hread (readsOnly_readTar fmts) fun _ _ _ => readsOnly_endOfTar ctx
  · refine iff_of_true ?_ nofun
    rw [newOwned_iff]
    exact h.left_eq

/-- `Extract` hands over all it makes unless a file is left: one made behind a link that its entry names,
or one whose bytes break off. -/
theorem extract_newOwned_iff (hown : f.own = some own) (hroot : own ≠ (0, 0)) (t : Tree Name Str)
    (rel dest : Str) :
    NewOwned own t ((f.extract lib fmts ctx rel dest).run (.of t)).2.tree ↔
      ExtractHanded lib fmts ctx f t rel dest := by
  have hself : NewOwned own t t := newOwned_iff.mpr unowned_self
  rw [FS.extract]
  rcases hsrc : resolve t f rel with e | ⟨src, c⟩
  · have hrun : (f.resolve rel).run (.of t) = (.error e, .of t) := by
      rw [FS.resolve, Sys.run_look]
      exact congrArg (·, _) hsrc
    rw [Sys.run_bind_error hrun]
    refine iff_of_true hself fun src' c' _ _ h => ?_
    cases hsrc.symm.trans h
  rw [Sys.run_bind_ok (run_resolve_eq_ok.mpr ⟨hsrc, rfl⟩)]
  rcases hdst : resolve t f dest with e | ⟨dst, d⟩
  · have hrun : (f.resolve dest).run (.of t) = (.error e, .of t) := by
      rw [FS.resolve, Sys.run_look]
      exact congrArg (·, _) hdst
    rw [Sys.run_bind_error hrun]
    refine iff_of_true hself fun _ _ dst' d' _ h => ?_
    cases hdst.symm.trans h
  rw [Sys.run_bind_ok (run_resolve_eq_ok.mpr ⟨hdst, rfl⟩)]
  have hstart : Leaves own t ∅ (Journal.of t).tree := .refl t
  have hmade := hstart.mkdirAllOwned hown dst
  have hcases : ExtractHanded lib fmts ctx f t rel dest ↔
      ∀ a j₁, (f.mkdirAllOwned dst).run (.of t) = (.ok a, j₁) →
        ∀ entries j₂, (entriesOf lib fmts src c).run j₁ = (.ok entries, j₂) →
          f.EntriesHanded ctx dst 0 0 j₂ ∅ entries := by
    constructor
    · exact fun h => h src c dst d hsrc hdst
    · rintro h src' c' dst' d' hsrc' hdst'
      cases hsrc.symm.trans hsrc'
      cases hdst.symm.trans hdst'
      exact h
  rw [hcases]
  dsimp only
  rcases hrun : (f.mkdirAllOwned dst).run (.of t) with ⟨e | u, j₁⟩ <;> rw [hrun] at hmade
  · rw [Sys.run_bind_error hrun]
    exact iff_of_true (newOwned_iff.mpr hmade.left_eq) nofun
  · rw [Sys.run_bind_ok hrun]
    refine (newOwned_unpack_iff lib fmts ctx hown hroot hmade).trans ⟨?_, fun h => h u j₁ rfl⟩
    rintro h u' j' hj
    cases hj
    exact h

end Instfs
