import Gsm.GoStd.Filled
import Gsm.Instances.Volumes

/-!
# What a seed leaves

`extractTree` takes names from an image, so they may be absolute, climb with `..`, repeat or turn a directory into
a file. `path.Clean` leaves the ups of such a name in front, and there the checks refuse them. What is left is plain
names, and under plain names nothing leads out of a directory without links.
-/

open Posix GoStd

namespace Instances.Volumes

variable {m : Manager} {P : Loc Name} {dir names : Path} {hdr : TarEntry} {top rel : Str}

/-! ## The names of an entry -/

/-- What `path.Clean` goes through on a path without a slash in front: ups, and names behind them. -/
def upsThen (k : ℕ) (names : Path) : List (Seg Name) := List.replicate k .up ++ names.map .name

theorem cleanRelStep_upsThen (k : ℕ) (names : Path) (s : Seg Name) :
    ∃ k' names', cleanRelStep (upsThen k names) s = upsThen k' names' := by
  rcases s with _ | _ | n
  · exact ⟨k, names, rfl⟩
  · rcases List.eq_nil_or_concat names with rfl | ⟨names, n, rfl⟩
    · refine ⟨k + 1, [], ?_⟩
      rcases k with _ | k
      · rfl
      · have hlast : (upsThen (k + 1) []).getLast? = some .up := by simp [upsThen, List.getLast?_replicate]
        rw [cleanRelStep, hlast]
        simp [upsThen, List.replicate_succ' (n := k + 1)]
    · refine ⟨k, names, ?_⟩
      have hsplit : upsThen k (names.concat n) = upsThen k names ++ [.name n] := by simp [upsThen]
      rw [hsplit, cleanRelStep, List.getLast?_concat, List.dropLast_concat]
  · exact ⟨k, names ++ [n], by simp [upsThen, cleanRelStep]⟩

theorem foldl_cleanRelStep (l : List (Seg Name)) :
    ∃ k names, l.foldl cleanRelStep [] = upsThen k names := by
  induction l using List.reverseRecOn with
  | nil => exact ⟨0, [], rfl⟩
  | append_singleton l s ih =>
    obtain ⟨k, names, hl⟩ := ih
    rw [List.foldl_append, hl]
    exact cleanRelStep_upsThen k names s

theorem notMem_segText (s : Seg Name) : '/' ∉ segText s := by
  rcases s with _ | _ | n
  · decide
  · decide
  · exact n.2.2.2.2

theorem splitSlash_join_segText {parts : List (Seg Name)} (h : parts ≠ []) :
    splitSlash (join ['/'] (parts.map segText)) = parts.map segText := by
  refine splitSlash_join (fun s hs => ?_) fun hnil => h (List.map_eq_nil_iff.mp hnil)
  obtain ⟨p, -, rfl⟩ := List.mem_map.mp hs
  exact notMem_segText p

theorem suffix_upsThen {k : ℕ} {l : List Str} (h : l <:+ (upsThen k names).map segText) :
    ∃ k' names', l = (upsThen k' names').map segText := by
  obtain ⟨i, rfl⟩ : ∃ i, l = ((upsThen k names).map segText).drop i := ⟨_, List.suffix_iff_eq_drop.mp h⟩
  refine ⟨k - i, names.drop (i - k), ?_⟩
  rw [← List.map_drop, upsThen, List.drop_append, List.drop_replicate, List.length_replicate, ← List.map_drop]
  rfl

/-- What a cleaned path has behind a slash is ups with names behind them. -/
theorem splitSlash_behind {s t u : Str} (h : cleanText s = t ++ '/' :: u) (hu : u ≠ []) :
    ∃ k names, splitSlash u = (upsThen k names).map segText := by
  have hsplit : splitSlash (cleanText s) = splitSlash t ++ splitSlash u := by rw [h, splitSlash_append]
  rw [cleanText] at h hsplit
  split at hsplit
  · next habs =>
    rw [if_pos habs] at h
    by_cases hp : clean s = []
    · -- the root alone has nothing behind its slash
      have hlen := congrArg List.length h
      have hpos := List.length_pos_iff.mpr hu
      rw [hp, render, List.length_append, List.length_cons] at hlen
      simp at hlen
      omega
    · rw [render_eq_relText hp, ← List.nil_append ('/' :: relText _), splitSlash_append,
        splitSlash_relText hp] at hsplit
      obtain ⟨c, l, hl⟩ := List.exists_cons_of_ne_nil (List.splitOn_ne_nil '/' t)
      rw [show splitSlash t = c :: l from hl, show splitSlash [] = [[]] from rfl] at hsplit
      have hmap : (upsThen 0 (clean s)).map segText = (clean s).map Subtype.val := by simp [upsThen, segText]
      have hsuffix : splitSlash u <:+ (upsThen 0 (clean s)).map segText := by
        rw [hmap]
        exact ⟨l, (List.cons.inj hsplit).2.symm⟩
      exact suffix_upsThen hsuffix
  · next habs =>
    rw [if_neg habs] at h
    obtain ⟨k, names, hfold⟩ := foldl_cleanRelStep (segs s)
    rw [hfold] at h hsplit
    split at hsplit
    · next hnil =>
      simp only [hnil] at h
      have hmem : '/' ∈ ['.'] := by
        rw [h]
        simp
      exact absurd hmem (by decide)
    · next hne =>
      rw [splitSlash_join_segText hne] at hsplit
      exact suffix_upsThen ⟨splitSlash t, hsplit.symm⟩

/-- The entry's name, cleaned, is that of `top` with these names below it. -/
def Asks (top : Str) (hdr : TarEntry) (names : Path) : Prop :=
  names ≠ [] ∧ cleanText (trimPrefix ['.', '/'] hdr.name) = top ++ '/' :: relText names

/-- What is left behind the checks is plain names. -/
theorem asks_of_entryBelow (h : entryBelow top hdr.name = some rel) :
    ∃ names, rel = relText names ∧ Asks top hdr names := by
  rw [entryBelow] at h
  simp only at h
  split at h
  · cases h
  split at h
  swap
  · cases h
  next hpre =>
  split at h
  · cases h
  next hchecks =>
  obtain ⟨u, hu⟩ := List.isPrefixOf_iff_prefix.mp hpre
  have hrel : u = rel := by
    rw [← Option.some.inj h, trimPrefix, if_pos hpre, ← hu, List.drop_left]
  subst hrel
  rw [Option.some.inj h] at hchecks
  push Not at hchecks
  obtain ⟨hne, -, hup, hups, -⟩ := hchecks
  have hclean : cleanText (trimPrefix ['.', '/'] hdr.name) = top ++ '/' :: u := by
    rw [← hu, List.append_assoc]
    rfl
  obtain ⟨k, names, hsplit⟩ := splitSlash_behind hclean hne
  have htext : u = join ['/'] ((upsThen k names).map segText) := by
    rw [← hsplit, join_eq_intercalate, splitSlash]
    exact (List.intercalate_splitOn '/').symm
  rcases k with _ | k
  · have hmap : (upsThen 0 names).map segText = names.map Subtype.val := by simp [upsThen, segText]
    rw [hmap] at htext hsplit
    refine ⟨names, htext, ?_, by rwa [htext] at hclean⟩
    rintro rfl
    exact List.splitOn_ne_nil _ _ hsplit
  · rcases hrest : upsThen k names with _ | ⟨s, more⟩
    · refine absurd ?_ hup
      rw [htext, upsThen, List.replicate_succ, List.cons_append, ← upsThen, hrest]
      rfl
    · refine absurd (List.isPrefixOf_iff_prefix.mpr ?_) hups
      rw [htext, upsThen, List.replicate_succ, List.cons_append, ← upsThen, hrest]
      exact ⟨_, rfl⟩

theorem joinPath_relText (h : names ≠ []) : joinPath dir (relText names) = dir ++ names := by
  have hsegs : segs (relText names) = names.map .name := by
    rw [segs, splitSlash_relText h, List.map_map]
    exact List.map_congr_left fun n _ => dif_pos n.2
  rw [joinPath, hsegs, foldl_cleanStep_names]

/-! ## The copying of a seed -/

theorem worksIn_extractEntry (h : names ≠ []) : WorksIn dir P (m.extractEntry (dir ++ names) hdr) := by
  obtain ⟨y, n, rfl⟩ := List.eq_nil_or_concat names |>.resolve_left h
  rw [List.concat_eq_append, Manager.extractEntry, ← List.append_assoc, List.dropLast_concat]
  split
  · refine WorksIn.bind ?_ fun _ => (worksIn_handOver _ y n).bind fun _ => worksIn_pure 0
    rw [List.append_assoc]
    exact worksIn_mkdirAll _ _
  · refine (worksIn_mkdirAll y _).bind fun _ => (worksIn_overwrite y n _ _).bind fun _ => ?_
    split
    · exact worksIn_throw _
    · exact (worksIn_handOver _ y n).bind fun _ => worksIn_pure 1
  · exact worksIn_pure 0

theorem worksIn_extractFrom {err : Option Str} (files : ℕ) (entries : List TarEntry) :
    WorksIn dir P (m.extractFrom top dir err files entries) := by
  induction entries generalizing files with
  | nil =>
    rcases err with _ | e
    · exact worksIn_pure files
    · exact worksIn_throw _
  | cons hdr more ih =>
    rw [Manager.extractFrom]
    split
    · exact ih files
    · next rel hrel =>
      obtain ⟨names, rfl, hne, -⟩ := asks_of_entryBelow hrel
      rw [joinPath_relText hne]
      exact (worksIn_extractEntry hne).bind fun k => ih (files + k)

/-! ## What it leaves -/

/-- A folder of a seed, by its names: one an entry asks for, or one on the way to what an entry asks for. -/
def SeedDir (top : Str) (entries : List TarEntry) (y : Path) : Prop :=
  y ≠ [] ∧ ∃ hdr ∈ entries, ∃ names, Asks top hdr names ∧
    (hdr.typeflag = .dir ∧ y <+: names ∨ hdr.typeflag = .reg ∧ y <+: names.dropLast)

/-- A file of a seed. -/
def SeedFile (top : Str) (entries : List TarEntry) (y : Path) : Prop :=
  ∃ hdr ∈ entries, Asks top hdr y ∧ hdr.typeflag = .reg

theorem fills_extractEntry {entries : List TarEntry} (hmem : hdr ∈ entries) (h : Asks top hdr names) :
    Fills dir P (SeedDir top entries) (SeedFile top entries) (m.extractEntry (dir ++ names) hdr) := by
  obtain ⟨y, n, rfl⟩ := List.eq_nil_or_concat names |>.resolve_left h.1
  rw [List.concat_eq_append] at h
  rw [List.concat_eq_append, Manager.extractEntry, ← List.append_assoc, List.dropLast_concat]
  split
  · next hdir =>
    have hfolder : ∀ z, z ≠ [] → z <+: y ++ [n] → SeedDir top entries z :=
      fun z hz hpre => ⟨hz, hdr, hmem, _, h, .inl ⟨hdir, hpre⟩⟩
    refine Fills.bind ?_ ?_ fun _ => ?_
    · rw [List.append_assoc]
      exact fills_mkdirAll _ hfolder
    · rw [List.append_assoc]
      exact worksIn_mkdirAll _ _
    · have hlast : SeedDir top entries (y ++ [n]) := hfolder _ (by simp) List.prefix_rfl
      exact (fills_handOver _ y n (.inl hlast)).bind (worksIn_handOver _ y n) fun _ => fills_pure 0
  · next hreg =>
    have hfile : SeedFile top entries (y ++ [n]) := ⟨hdr, hmem, h, hreg⟩
    refine (fills_mkdirAll _ fun z hz hpre => ?_).bind (worksIn_mkdirAll y _) fun _ => ?_
    · exact ⟨hz, hdr, hmem, _, h, .inr ⟨hreg, by rwa [List.dropLast_concat]⟩⟩
    refine Fills.bind ?_ (worksIn_overwrite y n _ _) fun _ => ?_
    · rw [List.append_assoc]
      exact fills_overwrite _ _ _ hfile
    split
    · exact fills_throw _
    · exact (fills_handOver _ y n (.inr hfile)).bind (worksIn_handOver _ y n) fun _ => fills_pure 1
  · exact fills_pure 0

theorem fills_extractFrom {err : Option Str} {entries : List TarEntry} (files : ℕ) {rest : List TarEntry}
    (h : ∀ hdr ∈ rest, hdr ∈ entries) : Fills dir P (SeedDir top entries) (SeedFile top entries)
      (m.extractFrom top dir err files rest) := by
  induction rest generalizing files with
  | nil =>
    rcases err with _ | e
    · exact fills_pure files
    · exact fills_throw _
  | cons hdr more ih =>
    rw [Manager.extractFrom]
    have hmore : ∀ e ∈ more, e ∈ entries := fun e he => h e (List.mem_cons_of_mem _ he)
    split
    · exact ih files hmore
    · next rel hrel =>
      obtain ⟨names, rfl, hasks⟩ := asks_of_entryBelow hrel
      rw [joinPath_relText hasks.1]
      exact (fills_extractEntry (h hdr List.mem_cons_self) hasks).bind (worksIn_extractEntry hasks.1)
        fun k => ih (files + k) hmore

/-- Whether an entry puts anything on the disk. -/
def Materialised (top : Str) (hdr : TarEntry) : Bool :=
  decide (hdr.typeflag ≠ .other) && (entryBelow top hdr.name).isSome

/-- The others might as well not be there. -/
theorem run_extractFrom_filter {err : Option Str} (files : ℕ) (entries : List TarEntry) (j : Journal Name Str) :
    (m.extractFrom top dir err files (entries.filter (Materialised top))).run j =
      (m.extractFrom top dir err files entries).run j := by
  induction entries generalizing files j with
  | nil => rfl
  | cons hdr more ih =>
    rcases hrel : entryBelow top hdr.name with _ | rel
    · have hout : ¬ Materialised top hdr = true := by simp [Materialised, hrel]
      rw [List.filter_cons_of_neg hout, ih, Manager.extractFrom, hrel]
    by_cases hkind : hdr.typeflag = .other
    · have hout : ¬ Materialised top hdr = true := by simp [Materialised, hkind]
      have hnone : m.extractEntry (joinPath dir rel) hdr = pure 0 := by rw [Manager.extractEntry, hkind]
      rw [List.filter_cons_of_neg hout, ih, Manager.extractFrom, hrel]
      simp only [hnone]
      rfl
    · have hin : Materialised top hdr = true := by simp [Materialised, hrel, hkind]
      rw [List.filter_cons_of_pos hin, Manager.extractFrom, Manager.extractFrom, hrel]
      simp only
      rw [Sys.run_bind, Sys.run_bind]
      split
      · exact ih _ _
      · rfl

/-- What a tar leaves in a directory without links: nothing outside it is changed, all that is made in it is the
folders and the files that its entries ask for, and entries of another kind or from elsewhere do nothing. -/
theorem extractTree_confined (m : Manager) (src : TarStream) (top : Str) (dir : Path) (P : Loc Name)
    (t : Tree Name Str) (h : t.Enclosed dir P) :
    let j := ((m.extractTree src top dir).run (.of t)).2
    (∀ a ∈ j.log, a.act.changes →
      ∃ y, (SeedDir top src.entries y ∨ SeedFile top src.entries y) ∧ P ++ y <+: a.loc) ∧
    (∀ x, (∀ y ≠ [], x ≠ P ++ y) → j.tree.node x = t.node x) ∧
    (∀ x, j.tree.kindAt x = t.kindAt x ∨ ∃ y, x = P ++ y ∧
      (SeedDir top src.entries y ∧ j.tree.kindAt x = some .dir ∨
        SeedFile top src.entries y ∧ ∃ data, j.tree.kindAt x = some (.file data))) ∧
    (m.extractTree src top dir).run (.of t) = (m.extractTree
      { src with entries := src.entries.filter (Materialised top) } top dir).run (.of t) := by
  intro j
  have hfilled : Filled P (SeedDir top src.entries) (SeedFile top src.entries) (.of t) j :=
    fills_extractFrom 0 (fun _ he => he) (.of t) h
  obtain ⟨new, hlog, hnew⟩ := hfilled.log
  have hlog : j.log = new := hlog
  have hchanges : ∀ a ∈ j.log, a.act.changes →
      ∃ y, (SeedDir top src.entries y ∨ SeedFile top src.entries y) ∧ P ++ y <+: a.loc := by
    rw [hlog]
    exact hnew
  refine ⟨hchanges, fun x hx => ?_, hfilled.kind, (run_extractFrom_filter 0 src.entries _).symm⟩
  have hstart : j.start = t := ((m.extractTree src top dir).later (.of t)).start
  rw [← hstart]
  refine j.framed x fun a ha hact hloc => ?_
  obtain ⟨y, hy, ⟨z, hz⟩⟩ := hchanges a ha hact
  obtain ⟨w, rfl⟩ := hloc
  have hne : y ≠ [] := by
    rcases hy with hy | ⟨hdr, -, hasks, -⟩
    · exact hy.1
    · exact hasks.1
  refine hx (y ++ z ++ w) (by simp [hne]) ?_
  rw [← hz]
  simp

/-- An empty directory for a seed -/
def emptyDir : Tree Name Str := .build [([], name "d", ⟨.dir, 0o755, 0, 0⟩)]

/-- The maps of an image: two folders, two files, a link, and two entries from elsewhere -/
def mapsTar : TarStream where
  entries :=
    [⟨"maps/".toList, .dir, 0o755, ⟨[], none, false⟩⟩,
     ⟨"maps/gm_construct.bsp".toList, .reg, 0o644, ⟨"bsp".toList, none, false⟩⟩,
     ⟨"maps/graphs/gm_construct.ain".toList, .reg, 0o644, ⟨"ain".toList, none, false⟩⟩,
     ⟨"maps/passwd".toList, .other, 0o777, ⟨[], none, false⟩⟩,
     ⟨"maps/../escape".toList, .reg, 0o644, ⟨"no".toList, none, false⟩⟩,
     ⟨"other/file".toList, .reg, 0o644, ⟨"no".toList, none, false⟩⟩]
  err := none

theorem extractTree_confined_maps :
    let m : Manager := ⟨[], 0, 0, false, []⟩
    let j := ((m.extractTree mapsTar "maps".toList [name "d"]).run (.of emptyDir)).2
    j.tree.node [name "escape"] = emptyDir.node [name "escape"] ∧
      j.tree.look [name "d", name "graphs", name "gm_construct.ain"] = some .leaf := by
  have hdir : emptyDir.DirAt [name "d"] [name "d"] := by
    constructor <;> decide
  have hplain : ∀ x g, emptyDir.look ([name "d"] ++ x) ≠ some (.link g) := by
    intro x g hg
    have hkeys : [name "d"] ++ x ∈ [[name "d"], []] := emptyDir.mem_keys _ (Tree.node_ne_none hg)
    rcases List.mem_pair.mp hkeys with hx | hx
    · rw [hx, hdir.2] at hg
      cases hg
    · cases hx
  refine ⟨(extractTree_confined _ mapsTar _ [name "d"] [name "d"] emptyDir ⟨hdir, hplain⟩).2.1 _ ?_, ?_⟩
  · rintro y - h
    exact absurd (List.cons.inj h).1 (by decide)
  · decide +kernel

end Instances.Volumes
