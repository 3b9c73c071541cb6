import Gsm.Posix.Lookups
import Gsm.Instfs.NamedLinks

/-!
# What a listing tells

`List` and `Stat` of `internal/instfs/instfs.go` describe a link by what `os.Stat` finds behind it. `Stat` has
checked that this lies inside the instance, as `Resolve` follows the path it is given. `List` has checked the
directory only: of a link in it that leads outside, it tells what is there.
-/

open Posix GoStd

namespace Instfs

/-- `FileListMax` -/
def fileListMax : ℕ := 10000

structure FileListResult where
  path : Path
  entries : List FileEntry
  truncated : Bool

/-- The loop of `List`, over the names that `os.ReadDir` gives -/
def listFrom (abs : Path) : List Name → List FileEntry → Prog (List FileEntry × Bool)
  | [], entries => pure (entries, false)
  | n :: more, entries =>
      if fileListMax ≤ entries.length then pure (entries, true)
      else do
        match ← (Sys.lstat (abs ++ [n])).attempt with
        | .error _ => listFrom abs more entries
        | .ok info => do
            let e ← entryOf (abs ++ [n]) info
            listFrom abs more (entries ++ [e])

variable (f : FS) (lib : Lib)

/-- Directories first, then by name -/
def FileEntry.less (a b : FileEntry) : Bool :=
  if decide (a.type = .dir) ≠ decide (b.type = .dir) then a.type = .dir
  else lib.toLower a.name < lib.toLower b.name

def FS.list (rel : Str) : Prog FileListResult := do
  let (abs, c) ← f.resolve rel
  match ← (Sys.readDir abs).attempt with
  | .error (.errno .noent) => Sys.throw (invalid "no such directory: " (text c))
  | .error e => Sys.throw e
  | .ok names => do
      let (entries, truncated) ← listFrom abs names []
      pure
        { path := c
          entries := entries.mergeSort fun a b => !FileEntry.less lib b a
          truncated := truncated }

variable {f : FS} {lib : Lib} {t t' : Tree Name Str} {j j' : Journal Name Str} {R d l : Loc Name} {abs c p : Path}
  {nd : Node Name Str} {rel : Str} {n : Name} {e : FileEntry} {r : FileListResult}

/-! ## What is reported -/

/-- The type of what the path leads to -/
def behind (t : Tree Name Str) (p : Path) : Option EntryType :=
  match t.stat p with
  | .found l => (t.node l).map fun st => kindOf st.kind
  | _ => none

/-- What `entryOf` tells of the target of a link -/
def targetIn (t : Tree Name Str) (p : Path) (nd : Node Name Str) : Option EntryType :=
  match nd.kind with
  | .link _ => behind t p
  | _ => none

def described (t : Tree Name Str) (p : Path) (nd : Node Name Str) : FileEntry where
  name := (p.getLast?.map Subtype.val).getD ['/']
  size := sizeOf nd
  mode := perm nd.mode
  type := kindOf nd.kind
  targetType := targetIn t p nd

theorem run_targetOf : (targetOf p nd).run j = (.ok (targetIn j.tree p nd), j) := by
  rw [targetOf, targetIn]
  match nd.kind with
  | .link _ =>
    dsimp only
    by_cases hs : ∃ l, j.tree.stat p = .found l
    · obtain ⟨l, hs⟩ := hs
      obtain ⟨s, hl, -⟩ := Tree.stat_found hs
      obtain ⟨st, hst, -⟩ := Option.map_eq_some_iff.mp hl
      have hrun : (Sys.stat p : Prog _).attempt.run j = (.ok (.ok st), j) := by
        rw [Sys.run_attempt, Sys.run_stat_found hs hst]
      rw [Sys.run_bind_ok hrun, behind, hs]
      dsimp only
      rw [hst]
      rfl
    · push Not at hs
      obtain ⟨e, he⟩ := Sys.run_stat_not_found (μ := FsError) hs
      have hrun : (Sys.stat p : Prog _).attempt.run j = (.ok (.error (.errno e)), j) := by
        rw [Sys.run_attempt, he]
      have hnone : behind j.tree p = none := by
        rw [behind]
        split
        · next l hl => exact absurd hl (hs l)
        · rfl
      rw [Sys.run_bind_ok hrun, hnone]
      rfl
  | .dir | .file _ | .special => rfl

theorem run_entryOf : (entryOf p nd).run j = (.ok (described j.tree p nd), j) := by
  rw [entryOf, Sys.run_bind_ok run_targetOf]
  rfl

/-- What is reported of some names in the directory `d` -/
def reported (t : Tree Name Str) (abs : Path) (d : Loc Name) (names : List Name) : List FileEntry :=
  names.filterMap fun n => (t.node (d ++ [n])).map (described t (abs ++ [n]))

theorem reported_cons {names : List Name} (hn : t.node (d ++ [n]) = some nd) :
    reported t abs d (n :: names) = described t (abs ++ [n]) nd :: reported t abs d names := by
  rw [reported, List.filterMap_cons, hn]
  rfl

theorem run_listFrom (hd : j.tree.DirAt abs d) (names : List Name)
    (hnames : ∀ n ∈ names, j.tree.node (d ++ [n]) ≠ none) (entries : List FileEntry)
    (hroom : entries.length ≤ fileListMax) :
    (listFrom abs names entries).run j =
      (.ok (entries ++ reported j.tree abs d (names.take (fileListMax - entries.length)),
        decide (fileListMax < entries.length + names.length)), j) := by
  induction names generalizing entries with
  | nil =>
    have hall : ¬ fileListMax < entries.length + ([] : List Name).length := by
      rw [List.length_nil]
      omega
    rw [listFrom, List.take_nil, reported, List.filterMap_nil, List.append_nil, decide_eq_false hall]
    rfl
  | cons n names ih =>
    rw [listFrom]
    split
    · next hfull =>
      have hnone : fileListMax - entries.length = 0 := by omega
      have hmore : fileListMax < entries.length + (n :: names).length := by
        rw [List.length_cons]
        omega
      rw [hnone, List.take_zero, reported, List.filterMap_nil, List.append_nil, decide_eq_true hmore]
      rfl
    · next hfew =>
      obtain ⟨nd, hnd⟩ := Option.ne_none_iff_exists'.mp (hnames n List.mem_cons_self)
      have hfound : j.tree.lstat (abs ++ [n]) = .found (d ++ [n]) :=
        Tree.lstat_concat_eq_found.mpr ⟨d, hd, rfl, fun h => by
          rw [Tree.look_eq_none.mp h] at hnd
          exact nomatch hnd⟩
      have hrun : (Sys.lstat (abs ++ [n]) : Prog _).attempt.run j = (.ok (.ok nd), j) := by
        rw [Sys.run_attempt, Sys.run_lstat_found hfound hnd]
      have hlen : (entries ++ [described j.tree (abs ++ [n]) nd]).length = entries.length + 1 := by
        rw [List.length_append, List.length_singleton]
      have hroom' : fileListMax - entries.length = fileListMax - (entries.length + 1) + 1 := by omega
      have hcount : entries.length + 1 + names.length = entries.length + (n :: names).length := by
        rw [List.length_cons]
        omega
      rw [Sys.run_bind_ok hrun]
      dsimp only
      rw [Sys.run_bind_ok run_entryOf, ih (fun m hm => hnames m (List.mem_cons_of_mem _ hm)) _ (by omega), hlen,
        hroom', List.take_succ_cons, reported_cons hnd, hcount, List.append_assoc, List.singleton_append]

/-- What `List` gives of a directory -/
def listing (lib : Lib) (t : Tree Name Str) (abs c : Path) (d : Loc Name) : FileListResult where
  path := c
  entries := (reported t abs d ((t.names d).take fileListMax)).mergeSort fun a b => !FileEntry.less lib b a
  truncated := decide (fileListMax < (t.names d).length)

theorem run_list (hres : resolve j.tree f rel = .ok (abs, c)) (hd : j.tree.DirAt abs d) :
    (f.list lib rel).run j = (.ok (listing lib j.tree abs c d), j.read d) := by
  have hread : (Sys.readDir abs : Prog _).attempt.run j = (.ok (.ok (j.tree.names d)), j.read d) := by
    rw [Sys.run_attempt, Sys.run_readDir hd]
  have hloop := run_listFrom (j := j.read d) hd (j.tree.names d) (fun n hn => Tree.node_of_mem_names hn) []
    (Nat.zero_le _)
  rw [List.nil_append, List.length_nil, Nat.zero_add, Nat.sub_zero] at hloop
  rw [FS.list, Sys.run_bind_ok (run_resolve_eq_ok.mpr ⟨hres, rfl⟩)]
  dsimp only
  rw [Sys.run_bind_ok hread]
  dsimp only
  rw [Sys.run_bind_ok hloop]
  rfl

theorem list_eq_ok (h : (f.list lib rel).run j = (.ok r, j')) :
    ∃ abs d, resolve j.tree f rel = .ok (abs, r.path) ∧ j.tree.DirAt abs d ∧ r = listing lib j.tree abs r.path d := by
  obtain ⟨⟨abs, c⟩, j₁, hget, h₁⟩ := Sys.run_bind_eq_ok.mp h
  obtain ⟨hres, rfl⟩ := run_resolve_eq_ok.mp hget
  rcases hread : (Sys.readDir abs : Prog _).run j₁ with ⟨e | names, j₂⟩
  · rw [Sys.run_bind_ok (by rw [Sys.run_attempt, hread])] at h₁
    dsimp only at h₁
    split at h₁
    · exact nomatch h₁
    · exact nomatch h₁
    · next heq => exact nomatch heq
  · obtain ⟨d, hd, -, -⟩ := Sys.run_readDir_eq_ok hread
    have hall : (f.list lib rel).run j₁ = _ := run_list hres hd
    rw [h] at hall
    obtain rfl := Except.ok.inj (Prod.mk.inj hall).1
    exact ⟨abs, d, hres, hd, rfl⟩

/-- The entries of a listing are those of the first names. -/
theorem mem_listing : e ∈ (listing lib t abs c d).entries ↔
    ∃ n ∈ (t.names d).take fileListMax, ∃ nd, t.node (d ++ [n]) = some nd ∧ e = described t (abs ++ [n]) nd := by
  rw [listing, List.mem_mergeSort, reported, List.mem_filterMap]
  constructor
  · rintro ⟨n, hn, he⟩
    obtain ⟨nd, hnd, rfl⟩ := Option.map_eq_some_iff.mp he
    exact ⟨n, hn, nd, hnd, rfl⟩
  · rintro ⟨n, hn, nd, hnd, rfl⟩
    exact ⟨n, hn, by rw [hnd, Option.map_some]⟩

/-! ## Links that lead outside -/

/-- Of a link that leads to nothing, or out of `R`, the entry tells nothing. -/
def Hides (t : Tree Name Str) (R : Loc Name) (p : Path) (e : FileEntry) : Prop :=
  e.type = .symlink → (∀ l, t.stat p = .found l → ¬ R <+: l) → e.targetType = none

def ListHides (f : FS) (lib : Lib) (t : Tree Name Str) (R : Loc Name) (rel : Str) : Prop :=
  ∀ r j', (f.list lib rel).run (.of t) = (.ok r, j') →
    ∀ e ∈ r.entries, ∀ n : Name, e.name = n.val → Hides t R (R ++ r.path ++ [n]) e

def StatHides (f : FS) (t : Tree Name Str) (R : Loc Name) (rel : Str) : Prop :=
  ∀ c e j', (f.stat rel).run (.of t) = (.ok (c, e), j') → Hides t R (R ++ c) e

/-- The links that a listing shows lead nowhere but to places inside. -/
def LinksInside (f : FS) (t : Tree Name Str) (R : Loc Name) (rel : Str) : Prop :=
  ∀ abs c d, resolve t f rel = .ok (abs, c) → t.DirAt abs d → ∀ n ∈ (t.names d).take fileListMax,
    (∃ g, t.look (d ++ [n]) = some (.link g)) → ∀ l, t.stat (abs ++ [n]) = .found l → R <+: l

theorem kindOf_eq_symlink : kindOf nd.kind = .symlink ↔ ∃ g, nd.shape = .link g := by
  rw [Node.shape]
  match nd.kind with
  | .link g => exact iff_of_true rfl ⟨g, rfl⟩
  | .dir | .file _ | .special => simp [kindOf, Kind.shape]

theorem targetIn_eq_none (h : ∀ l, t.stat p ≠ .found l) : targetIn t p nd = none := by
  have hnone : behind t p = none := by
    rw [behind]
    split
    · next l hl => exact absurd hl (h l)
    · rfl
  rw [targetIn, hnone]
  split <;> rfl

/-- Of a link that leads somewhere, the entry tells what is there. -/
theorem targetIn_link {g : Target Name} (hg : nd.shape = .link g) (hs : t.stat p = .found l) :
    targetIn t p nd ≠ none := by
  obtain ⟨s, hl, -⟩ := Tree.stat_found hs
  obtain ⟨st, hst, -⟩ := Option.map_eq_some_iff.mp hl
  rw [Node.shape] at hg
  rw [targetIn]
  match hk : nd.kind with
  | .link _ =>
    dsimp only
    rw [behind, hs]
    dsimp only
    rw [hst]
    exact nofun
  | .dir | .file _ | .special =>
    rw [hk] at hg
    exact nomatch hg

/-- `Resolve` follows the link itself, and refuses one that leads outside. -/
theorem statHides (hR : evalSymlinks t f.root = .ok R) : StatHides f t R rel := by
  intro c e j' hrun htype hout
  obtain ⟨⟨abs, c'⟩, j₁, hget, h₁⟩ := Sys.run_bind_eq_ok.mp hrun
  obtain ⟨hres, rfl⟩ := run_resolve_eq_ok.mp hget
  obtain ⟨R', hR', -, habs, hg⟩ := resolve_ok hres
  obtain rfl := Except.ok.inj (hR.symm.trans hR')
  obtain ⟨found, j₂, hfound, h₂⟩ := Sys.run_bind_eq_ok.mp h₁
  obtain ⟨info, j₃, hinfo, h₃⟩ := Sys.run_bind_eq_ok.mp h₂
  obtain ⟨e', j₄, he, h₄⟩ := Sys.run_bind_eq_ok.mp h₃
  rw [run_entryOf] at he
  obtain rfl := Except.ok.inj (Prod.mk.inj he).1
  obtain ⟨rfl, rfl⟩ := Prod.mk.inj (Except.ok.inj (Prod.mk.inj h₄).1)
  have htree : j₃.tree = t := by
    have hquiet₂ := (Sys.readsOnly_lstat abs).attempt.run hfound
    have hquiet₃ := (readsOnly_orMissing _).run hinfo
    rw [hquiet₃.tree, hquiet₂.tree]
    rfl
  rw [htree, described]
  refine targetIn_eq_none fun l hl => hout l ?_ ?_
  · rwa [← habs]
  · exact hg.stat hl

theorem listHides_iff (hR : evalSymlinks t f.root = .ok R) : ListHides f lib t R rel ↔ LinksInside f t R rel := by
  constructor
  · intro h abs c d hres hd n hn hlink l hl
    by_contra hout
    obtain ⟨R', hR', -, habs, -⟩ := resolve_ok hres
    obtain rfl := Except.ok.inj (hR.symm.trans hR')
    obtain ⟨g, hg⟩ := hlink
    obtain ⟨nd, hnd, hshape⟩ := Option.map_eq_some_iff.mp hg
    have hmem : described t (abs ++ [n]) nd ∈ (listing lib t abs c d).entries :=
      mem_listing.mpr ⟨n, hn, nd, hnd, rfl⟩
    have hname : (described t (abs ++ [n]) nd).name = n.val := by
      rw [described, List.getLast?_concat]
      rfl
    have hnone := h _ _ (run_list (j := .of t) hres hd) _ hmem n hname (kindOf_eq_symlink.mpr ⟨g, hshape⟩)
    refine targetIn_link hshape hl (hnone fun l' hl' => ?_)
    change t.stat (R ++ c ++ [n]) = .found l' at hl'
    rw [← habs] at hl'
    rwa [← Walk.found.inj (hl.symm.trans hl')]
  · intro h r j' hrun e he n hname htype hout
    obtain ⟨abs, d, hres, hd, hr⟩ := list_eq_ok hrun
    obtain ⟨R', hR', -, habs, -⟩ := resolve_ok hres
    obtain rfl := Except.ok.inj (hR.symm.trans hR')
    rw [hr] at he
    obtain ⟨m, hm, nd, hnd, rfl⟩ := mem_listing.mp he
    have hsame : m = n := by
      rw [described, List.getLast?_concat] at hname
      exact Subtype.ext hname
    obtain rfl := hsame
    obtain ⟨g, hg⟩ := kindOf_eq_symlink.mp htype
    rw [← habs] at hout
    refine targetIn_eq_none fun l hl => hout l hl (h abs r.path d hres hd m hm ⟨g, ?_⟩ l hl)
    rw [Journal.of_tree] at hnd
    rw [Tree.look, hnd, Option.map_some, hg]

/-! ## Two worlds outside -/

/-- `l` lies in `R` or above it. -/
def Near (R l : Loc Name) : Prop := R <+: l ∨ l <+: R

/-- Two trees with the same instance at `R` -/
structure SameInside (R : Loc Name) (t t' : Tree Name Str) : Prop where
  node : ∀ l, R <+: l → t.node l = t'.node l
  there : t.node R ≠ none

/-- All that a listing looks up lies in or above the instance. -/
def LooksInside (f : FS) (t : Tree Name Str) (R : Loc Name) (rel : Str) : Prop :=
  ∀ abs c d, resolve t f rel = .ok (abs, c) → t.DirAt abs d → t.StatWithin (Near R) abs ∧
    ∀ n ∈ (t.names d).take fileListMax, (∃ g, t.look (d ++ [n]) = some (.link g)) → t.StatWithin (Near R) (abs ++ [n])

theorem Near.dropLast (h : Near R l) : Near R l.dropLast := by
  rcases h with ⟨rest, rfl⟩ | h
  · rcases List.eq_nil_or_concat' rest with rfl | ⟨rest, n, rfl⟩
    · rw [List.append_nil]
      exact .inr (List.dropLast_prefix R)
    · rw [← List.append_assoc, List.dropLast_concat]
      exact .inl (List.prefix_append _ _)
  · exact .inr ((List.dropLast_prefix l).trans h)

theorem SameInside.symm (h : SameInside R t t') : SameInside R t' t :=
  ⟨fun l hl => (h.node l hl).symm, h.node R List.prefix_rfl ▸ h.there⟩

/-- What lies above a place that is there -/
theorem look_dir_above (h : t.node R ≠ none) (hl : l <+: R) (hne : l ≠ R) : t.look l = some .dir := by
  obtain ⟨rest, rfl⟩ := hl
  refine Tree.look_above (fun hrest => hne ?_) h
  rw [hrest, List.append_nil]

theorem SameInside.look (h : SameInside R t t') (hl : Near R l) : t.look l = t'.look l := by
  by_cases hin : R <+: l
  · rw [Tree.look, Tree.look, h.node l hin]
  · have habove := hl.resolve_left hin
    have hne : l ≠ R := fun heq => hin (heq ▸ List.prefix_rfl)
    rw [look_dir_above h.there habove hne, look_dir_above h.symm.there habove hne]

theorem kindOf_of_look {t : Tree Name Str} (h : t.look l = some .dir) :
    (t.node l).map (fun st => kindOf st.kind) = some .dir := by
  obtain ⟨nd, hnd, hshape⟩ := Option.map_eq_some_iff.mp h
  rw [hnd, Option.map_some, kindOf_eq_dir.mpr hshape]

theorem SameInside.kind (h : SameInside R t t') (hl : Near R l) :
    (t.node l).map (fun st => kindOf st.kind) = (t'.node l).map fun st => kindOf st.kind := by
  by_cases hin : R <+: l
  · rw [h.node l hin]
  · have habove := hl.resolve_left hin
    have hne : l ≠ R := fun heq => hin (heq ▸ List.prefix_rfl)
    rw [kindOf_of_look (look_dir_above h.there habove hne), kindOf_of_look (look_dir_above h.symm.there habove hne)]

/-- What a link leads to, where its lookup stays near the instance -/
theorem SameInside.behind (h : SameInside R t t') (hp : t.StatWithin (Near R) p) : behind t p = Instfs.behind t' p := by
  have hstat := hp.stat fun l hl => h.look hl
  rw [Instfs.behind, Instfs.behind, ← hstat]
  split
  · next l hl => exact h.kind (hp.mem (.inr (List.nil_prefix)) (fun _ => Near.dropLast) hl)
  · rfl

/-- `Resolve` accepts what it has accepted, where it still leads to the same place. -/
theorem resolve_of_stat (h : resolve t f rel = .ok (abs, c)) (hR : evalSymlinks t f.root = .ok R)
    (hR' : evalSymlinks t' f.root = .ok R) (hs : t.stat abs = .found l) (hs' : t'.stat abs = .found l) :
    resolve t' f rel = .ok (abs, c) := by
  rw [resolve] at h ⊢
  split at h
  · cases h
  · next c' hc =>
    rw [hR] at h
    rw [hR']
    dsimp only at h ⊢
    have hpath : R ++ c' = abs := by
      split at h
      · cases h
      · exact congrArg Prod.fst (Except.ok.inj h)
    have hprobe : probeUp t' R (R ++ c').reverse [] = probeUp t R (R ++ c').reverse [] := by
      rw [hpath, probeUp.eq_def, probeUp.eq_def t]
      dsimp only
      rw [List.reverse_reverse, evalSymlinks_of_stat hs, evalSymlinks_of_stat hs']
    rwa [hprobe]

/-- What is reported of a node does not depend on the world outside. -/
theorem SameInside.described (h : SameInside R t t') (hp : (∃ g, nd.shape = .link g) → t.StatWithin (Near R) p) :
    described t p nd = Instfs.described t' p nd := by
  have htarget : targetIn t p nd = targetIn t' p nd := by
    by_cases hlink : ∃ g, nd.shape = .link g
    · rw [targetIn, targetIn, h.behind (hp hlink)]
    · rw [← kindOf_eq_symlink] at hlink
      rw [targetIn, targetIn]
      match hk : nd.kind with
      | .link _ => exact absurd (by rw [hk]; rfl) hlink
      | .dir | .file _ | .special => rfl
  rw [Instfs.described, Instfs.described, htarget]

theorem SameInside.reported (h : SameInside R t t') (hd : R <+: d) {names : List Name}
    (hnames : ∀ n ∈ names, (∃ g, t.look (d ++ [n]) = some (.link g)) → t.StatWithin (Near R) (abs ++ [n])) :
    reported t abs d names = Instfs.reported t' abs d names := by
  refine List.filterMap_congr fun n hn => ?_
  rw [← h.node (d ++ [n]) (hd.trans (List.prefix_append _ _))]
  rcases hnd : t.node (d ++ [n]) with _ | nd
  · rfl
  · rw [Option.map_some, Option.map_some, h.described]
    rintro ⟨g, hg⟩
    refine hnames n hn ⟨g, ?_⟩
    rw [Tree.look, hnd, Option.map_some, hg]

/-- In two worlds that differ outside the instance only, a listing that looks at nothing there is the same. -/
theorem list_sameInside (h : SameInside R t t') (hR : evalSymlinks t f.root = .ok R)
    (hR' : evalSymlinks t' f.root = .ok R) (hnear : LooksInside f t R rel)
    (hrun : (f.list lib rel).run (.of t) = (.ok r, j')) : ((f.list lib rel).run (.of t')).1 = .ok r := by
  obtain ⟨abs, d, hres, hd, hr⟩ := list_eq_ok hrun
  rw [Journal.of_tree] at hres hd hr
  obtain ⟨hpath, hlinks⟩ := hnear abs r.path d hres hd
  have hstat := hpath.stat fun l hl => h.look hl
  have hin : R <+: d := (resolve_guarded hR hres).stat hd.1
  have hd' : t'.DirAt abs d := ⟨hstat ▸ hd.1, h.look (.inl hin) ▸ hd.2⟩
  have hnames : t.names d = t'.names d :=
    Tree.names_congr fun n => h.node _ (hin.trans (List.prefix_append _ _))
  rw [run_list (j := .of t') (resolve_of_stat hres hR hR' hd.1 hd'.1) hd', Journal.of_tree, hr, listing, listing,
    ← hnames, ← h.reported hin hlinks]

/-- The entries of `List` and `Stat` tell nothing of links that are broken or lead outside exactly where no link
in the directory leads outside. Where all that is looked up lies near the instance, the world outside does not
matter at all. -/
theorem entries_hide_iff (f : FS) (lib : Lib) (t : Tree Name Str) (R : Loc Name) (rel : Str)
    (hR : evalSymlinks t f.root = .ok R) :
    (ListHides f lib t R rel ∧ StatHides f t R rel ↔ LinksInside f t R rel) ∧
      ∀ t', SameInside R t t' → evalSymlinks t' f.root = .ok R → LooksInside f t R rel →
        ∀ r j', (f.list lib rel).run (.of t) = (.ok r, j') → ((f.list lib rel).run (.of t')).1 = .ok r := by
  refine ⟨?_, fun t' h hR' hnear r j' hrun => list_sameInside h hR hR' hnear hrun⟩
  rw [listHides_iff hR]
  exact and_iff_left (statHides hR)

theorem entries_hide_iff_secondInstance :
    ListHides ⟨[name "b"], 1000, 1000, true⟩ plainLib twoInstances [name "b"] [] ∧
      StatHides ⟨[name "b"], 1000, 1000, true⟩ twoInstances [name "b"] [] ↔
        LinksInside ⟨[name "b"], 1000, 1000, true⟩ twoInstances [name "b"] [] :=
  (entries_hide_iff ⟨[name "b"], 1000, 1000, true⟩ plainLib twoInstances [name "b"] [] (by decide)).1

/-- The listing of the first instance tells that there is a directory behind its link `out`. -/
theorem entries_tell_outside :
    ¬ ∀ (f : FS) (lib : Lib) (t : Tree Name Str) (R : Loc Name) (rel : Str), evalSymlinks t f.root = .ok R →
      ListHides f lib t R rel ∧ StatHides f t R rel := by
  intro h
  obtain ⟨hlist, -⟩ := h firstInstance plainLib twoInstances [name "a"] [] (by decide)
  have hinside := (listHides_iff (by decide)).mp hlist
  have hnone := hinside [name "a"] [] [name "a"] (by decide +kernel) ⟨by decide, by decide⟩ (name "out")
    (by decide +kernel) ⟨⟨false, [.up, .name (name "b")]⟩, by decide⟩ [name "b"] (by decide)
  exact absurd hnone (by decide)

end Instfs
