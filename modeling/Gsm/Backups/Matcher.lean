import Gsm.GoStd.Match
import Gsm.GoStd.Slash

/-!
# The ignore patterns of a backup

`Matcher` of `internal/backups`. The comment on `NewMatcher` documents a language of patterns in the
manner of gitignore; `Rule` reads one pattern of it and `Excluded` says which paths a list of them
leaves out. `NewMatcher` takes a leading slash off, and a pattern that has no other slash then matches
at any depth, where the language has it match at the top only.
-/

open Posix GoStd Data

namespace Backups

/-! ## The code -/

/-- `Matcher`: its patterns. -/
abbrev Matcher := List Str

def newMatcher (patterns : List Str) : Matcher :=
  patterns.filterMap fun p =>
    let p := trimBlanks p
    if p = [] ∨ ['#'].isPrefixOf p then none else some (trimPrefix ['/'] p)

def matchSegs : List Str → List Str → Bool
  | [], s => s.isEmpty
  | p :: ps, s =>
      if p = ['*', '*'] then
        if ps = [] then true
        else (List.range (s.length + 1)).any fun i => matchSegs ps (s.drop i)
      else
        match s with
        | [] => false
        | x :: xs => pathMatch p x && matchSegs ps xs

def matchGlob (pattern rel : Str) : Bool :=
  if '/' ∉ pattern then pathMatch pattern (base rel)
  else matchSegs (splitSlash pattern) (splitSlash rel)

/-- `Match` -/
def Matcher.matches (m : Matcher) (rel : Str) (isDir : Bool) : Bool :=
  let segs := splitSlash (trimSlashes rel)
  m.any fun p =>
    let dirOnly := ['/'].isSuffixOf p
    let p := trimSuffix p ['/']
    -- the path itself and each ancestor directory
    ((List.range segs.length).map (· + 1)).reverse.any fun i =>
      let candidate := join ['/'] (segs.take i)
      let candIsDir := isDir || i < segs.length
      (!dirOnly || candIsDir) && matchGlob p candidate

/-! ## The language -/

instance (pattern name : Str) : Decidable (Glob pattern name) := decidable_of_iff _ pathMatch_iff

/-- What a segment of an anchored pattern takes: `**` any number of names, others one. -/
def segment (s : Str) : Wildcard.Atom Str :=
  if s = ['*', '*'] then .many fun _ => true else .one fun x => decide (Glob s x)

/-- A pattern as it is documented. -/
structure Rule where
  /-- a trailing slash: for directories -/
  dirOnly : Bool
  /-- another slash, a leading one too: at the data directory, not at any depth -/
  anchored : Bool
  segs : List Str
deriving DecidableEq

/-- The rule of a pattern; blank ones and comments have none. -/
def Rule.ofPattern (pattern : Str) : Option Rule :=
  let p := trimBlanks pattern
  if p = [] ∨ ['#'].isPrefixOf p then none
  else
    let body := trimSuffix p ['/']
    some ⟨['/'].isSuffixOf p, '/' ∈ body, splitSlash (trimPrefix ['/'] body)⟩

/-- The rule takes this path itself. -/
def Rule.Covers (r : Rule) (q : Path) : Prop :=
  if r.anchored then Wildcard.Matches (r.segs.map segment) (q.map Subtype.val)
  else ∃ s ∈ r.segs, ∃ n ∈ q.getLast?, Glob s n.1

/-- Some pattern takes the path or a directory it lies in. -/
def Excluded (patterns : List Str) (rel : Path) (isDir : Bool) : Prop :=
  ∃ pattern ∈ patterns, ∃ r, Rule.ofPattern pattern = some r ∧
    ∃ q, q ≠ [] ∧ q <+: rel ∧ (r.dirOnly = true → q = rel → isDir = true) ∧ r.Covers q

/-- The pattern is anchored with its leading slash only, and its name is that of the path, or of a
directory the path lies in, below the top. -/
def Misplaced (pattern : Str) (rel : Path) (isDir : Bool) : Prop :=
  ∃ r s, Rule.ofPattern pattern = some r ∧ r.anchored = true ∧ r.segs = [s] ∧
    ∃ p n, p ≠ [] ∧ p ++ [n] <+: rel ∧ (r.dirOnly = true → p ++ [n] = rel → isDir = true) ∧
      Glob s n.1

variable {patterns : List Str} {m : Matcher} {p q rel : Path} {n : Name} {s pattern : Str}
  {ps ss : List Str} {isDir : Bool}

/-! ## Segments -/

theorem matchSegs_iff : matchSegs ps ss = true ↔ Wildcard.Matches (ps.map segment) ss := by
  induction ps generalizing ss with
  | nil => simp [matchSegs]
  | cons p ps ih =>
    rw [List.map_cons, segment]
    simp only [matchSegs]
    by_cases hp : p = ['*', '*']
    · rw [if_pos hp, if_pos hp]
      by_cases hps : ps = []
      · subst hps
        rw [if_pos rfl]
        exact iff_of_true rfl Wildcard.matches_many_true
      · rw [if_neg hps, List.any_eq_true, Wildcard.matches_many_iff]
        constructor
        · rintro ⟨i, -, hi⟩
          exact ⟨ss.take i, ss.drop i, (List.take_append_drop i ss).symm, by simp, ih.mp hi⟩
        · rintro ⟨u, v, rfl, -, hv⟩
          refine ⟨u.length, ?_, ?_⟩
          · rw [List.mem_range, List.length_append]
            omega
          · rw [List.drop_left]
            exact ih.mpr hv
    · rw [if_neg hp, if_neg hp, Wildcard.matches_one_iff]
      rcases ss with _ | ⟨x, xs⟩
      · simp
      · simp only [Bool.and_eq_true, pathMatch_iff, ih, decide_eq_true_eq]
        constructor
        · rintro ⟨hx, hxs⟩
          exact ⟨x, xs, rfl, hx, hxs⟩
        · rintro ⟨_, _, h, hx, hxs⟩
          obtain ⟨rfl, rfl⟩ := List.cons.inj h
          exact ⟨hx, hxs⟩

theorem matchGlob_slash (hs : '/' ∈ s) (hq : q ≠ []) : matchGlob s (relText q) = true ↔
    Wildcard.Matches ((splitSlash s).map segment) (q.map Subtype.val) := by
  rw [matchGlob, if_neg (not_not.mpr hs), splitSlash_relText hq, matchSegs_iff]

theorem matchGlob_base (hs : '/' ∉ s) : matchGlob s (relText (p ++ [n])) = true ↔ Glob s n.1 := by
  rw [matchGlob, if_pos hs, base_relText, pathMatch_iff]

/-! ## Candidates -/

/-- `Match` tries each pattern on the path and on the directories above it. -/
theorem matches_iff (hrel : rel ≠ []) : m.matches (relText rel) isDir = true ↔
    ∃ s ∈ m, ∃ q, q ≠ [] ∧ q <+: rel ∧ (['/'].isSuffixOf s = true → q = rel → isDir = true) ∧
      matchGlob (trimSuffix s ['/']) (relText q) = true := by
  have htake : ∀ i, join ['/'] ((rel.map Subtype.val).take i) = relText (rel.take i) := by
    intro i
    rw [relText, List.map_take]
  rw [Matcher.matches, trimSlashes_relText, splitSlash_relText hrel, List.any_eq_true]
  refine exists_congr fun s => and_congr_right fun _ => ?_
  rw [List.any_eq_true]
  constructor
  · rintro ⟨i, hi, hmatch⟩
    obtain ⟨k, hk, rfl⟩ := List.mem_map.mp (List.mem_reverse.mp hi)
    rw [List.mem_range, List.length_map] at hk
    obtain ⟨hdir, hglob⟩ := Bool.and_eq_true_iff.mp hmatch
    rw [htake] at hglob
    refine ⟨rel.take (k + 1), ?_, List.take_prefix _ _, fun hs heq => ?_, hglob⟩
    · rw [ne_eq, List.take_eq_nil_iff]
      simpa using hrel
    · -- the whole path is no ancestor
      have hlen : ¬ k + 1 < rel.length := by
        intro hlt
        have := congrArg List.length heq
        rw [List.length_take] at this
        omega
      simpa [hs, hlen] using hdir
  · rintro ⟨q, hq, hpre, hdir, hglob⟩
    obtain ⟨rest, rfl⟩ := hpre
    have hlen : 0 < q.length := List.length_pos_iff.mpr hq
    refine ⟨q.length, List.mem_reverse.mpr (List.mem_map.mpr ⟨q.length - 1, ?_, by omega⟩), ?_⟩
    · rw [List.mem_range, List.length_map, List.length_append]
      omega
    · rw [htake, List.take_left, Bool.and_eq_true]
      refine ⟨?_, hglob⟩
      by_cases hs : ['/'].isSuffixOf s = true
      · by_cases hrest : rest = []
        · simp [hdir hs (by simp [hrest])]
        · have : 0 < rest.length := List.length_pos_iff.mpr hrest
          simp [this]
      · simp [hs]

/-- What lies below a directory that matches, matches. -/
theorem matches_below (hp : p ≠ []) (hpre : p <+: rel) (hne : p ≠ rel)
    (h : m.matches (relText p) true = true) : m.matches (relText rel) isDir = true := by
  have hrel : rel ≠ [] := by
    rintro rfl
    exact hp (List.prefix_nil.mp hpre)
  obtain ⟨s, hs, q, hq, hqp, -, hglob⟩ := (matches_iff hp).mp h
  refine (matches_iff hrel).mpr ⟨s, hs, q, hq, hqp.trans hpre, fun _ heq => ?_, hglob⟩
  subst heq
  exact absurd (hpre.eq_of_length (le_antisymm hpre.length_le hqp.length_le)) hne

/-! ## Patterns one by one -/

theorem chars_mem {k : ℕ} {t c : Str} (hc : c ∈ charsFrom k t) : ∀ b ∈ c, b ∈ t := by
  induction t generalizing k with
  | nil =>
    cases k <;> cases hc
  | cons b t ih =>
    cases k with
    | succ k =>
      rw [charsFrom] at hc
      exact fun b' hb' => List.mem_cons_of_mem _ (ih hc b' hb')
    | zero =>
      rw [charsFrom] at hc
      rcases List.mem_cons.mp hc with rfl | hc
      · exact fun b' hb' => List.mem_of_mem_take hb'
      · exact fun b' hb' => List.mem_cons_of_mem _ (ih hc b' hb')

/-- `**` in a name is a `*`, and takes every name. -/
theorem glob_stars (n : Name) : Glob ['*', '*'] n.1 := by
  refine ⟨[.star, .star], by decide, ?_⟩
  have hall : ∀ c ∈ chars n.1, decide (c ≠ ['/']) = true := by
    intro c hc
    rw [decide_eq_true_eq]
    rintro rfl
    exact n.2.2.2.2 (chars_mem hc '/' (List.mem_singleton_self _))
  have hempty : Wildcard.Matches [GlobTerm.star.atom] [] := Wildcard.Matches.many (u := []) (by simp) .nil
  have hmany := Wildcard.Matches.many hall hempty
  rwa [List.append_nil] at hmany

theorem not_glob_nil (n : Name) : ¬ Glob [] n.1 := by
  rintro ⟨ts, hts, hmatch⟩
  cases hts
  obtain ⟨b, t, ht⟩ := List.exists_cons_of_ne_nil n.2.1
  rw [ht, chars, charsFrom] at hmatch
  cases hmatch

/-- A pattern of one segment takes a path of one name. -/
theorem matches_segment (hs : s ≠ ['*', '*']) :
    Wildcard.Matches ([s].map segment) (q.map Subtype.val) ↔ ∃ n, q = [n] ∧ Glob s n.1 := by
  rw [List.map_singleton, segment, if_neg hs, Wildcard.matches_one_iff]
  constructor
  · rintro ⟨x, v, hq, hx, hv⟩
    rw [Wildcard.matches_nil_iff] at hv
    subst hv
    obtain ⟨n, rfl, rfl⟩ := List.map_eq_singleton_iff.mp hq
    exact ⟨n, rfl, by simpa using hx⟩
  · rintro ⟨n, rfl, hn⟩
    exact ⟨n.1, [], rfl, by simpa using hn, .nil⟩

theorem mem_newMatcher : s ∈ newMatcher patterns ↔ ∃ pattern ∈ patterns,
    (∃ r, Rule.ofPattern pattern = some r) ∧ s = trimPrefix ['/'] (trimBlanks pattern) := by
  rw [newMatcher, List.mem_filterMap]
  refine exists_congr fun pattern => and_congr_right fun _ => ?_
  rw [Rule.ofPattern]
  by_cases hblank : trimBlanks pattern = [] ∨ ['#'].isPrefixOf (trimBlanks pattern) = true
  · simp only [if_pos hblank]
    exact ⟨fun h => (by cases h), fun h => (by obtain ⟨⟨r, hr⟩, -⟩ := h; cases hr)⟩
  · simp only [if_neg hblank]
    exact ⟨fun h => ⟨⟨_, rfl⟩, (Option.some.inj h).symm⟩, fun h => congrArg some h.2.symm⟩

/-- The rule of a pattern against what `NewMatcher` keeps of it. -/
theorem rule_cases {r : Rule} (hr : Rule.ofPattern pattern = some r)
    (hs : s = trimPrefix ['/'] (trimBlanks pattern)) :
    s = [] ∧ r = ⟨true, false, [[]]⟩ ∨
      r.dirOnly = ['/'].isSuffixOf s ∧ r.segs = splitSlash (trimSuffix s ['/']) ∧
        ('/' ∈ trimSuffix s ['/'] → r.anchored = true) := by
  rw [Rule.ofPattern] at hr
  split at hr
  · cases hr
  · next hblank =>
    have hne : trimBlanks pattern ≠ [] := fun h => hblank (.inl h)
    obtain ⟨c, t, ht⟩ := List.exists_cons_of_ne_nil hne
    cases hr
    rw [ht] at hs ⊢
    by_cases hc : c = '/'
    · subst hc
      have hst : s = t := by
        rw [hs, trimPrefix, if_pos (by simp [List.isPrefixOf])]
        rfl
      subst hst
      rcases List.eq_nil_or_concat s with rfl | ⟨u, b, rfl⟩
      · exact .inl ⟨rfl, by decide⟩
      · -- the last letter is not the slash in front
        right
        rw [List.concat_eq_append]
        have hsuffix : ∀ v : Str, ['/'].isSuffixOf (v ++ [b]) = decide (b = '/') := by
          intro v
          rw [Bool.eq_iff_iff, List.isSuffixOf_iff_suffix, decide_eq_true_eq]
          constructor
          · rintro ⟨w, hw⟩
            exact (List.cons.inj (List.append_inj' hw rfl).2).1.symm
          · rintro rfl
            exact ⟨v, rfl⟩
        have hcons : '/' :: (u ++ [b]) = ('/' :: u) ++ [b] := rfl
        by_cases hb : b = '/'
        · subst hb
          have htrim : ∀ v : Str, trimSuffix (v ++ ['/']) ['/'] = v := by
            intro v
            rw [trimSuffix, if_pos (by rw [hsuffix]; simp)]
            simp
          rw [hcons, htrim, htrim, hsuffix, hsuffix]
          refine ⟨rfl, ?_, fun _ => by simp⟩
          rw [trimPrefix, if_pos (by simp [List.isPrefixOf])]
          rfl
        · have htrim : ∀ v : Str, trimSuffix (v ++ [b]) ['/'] = v ++ [b] := by
            intro v
            rw [trimSuffix, if_neg (by rw [hsuffix]; simpa using hb)]
          rw [hcons, htrim, htrim, hsuffix, hsuffix]
          refine ⟨rfl, ?_, fun _ => by simp⟩
          rw [trimPrefix, if_pos (by simp [List.isPrefixOf])]
          rfl
    · right
      have hfirst : ¬ ['/'].isPrefixOf (c :: t) = true := by
        simpa [List.isPrefixOf] using Ne.symm hc
      have hst : s = c :: t := by rw [hs, trimPrefix, if_neg hfirst]
      subst hst
      refine ⟨rfl, ?_, fun hslash => by simpa using hslash⟩
      have hbody : ¬ ['/'].isPrefixOf (trimSuffix (c :: t) ['/']) = true := by
        rw [trimSuffix]
        split
        · rcases t with _ | ⟨b, t⟩
          · simp
          · simpa [List.isPrefixOf] using Ne.symm hc
        · exact hfirst
      show splitSlash (trimPrefix ['/'] _) = _
      rw [trimPrefix, if_neg hbody]

/-- Without a slash the rule's one segment is the pattern. -/
theorem covers_base {r : Rule} (hsegs : r.segs = [s]) :
    r.Covers (p ++ [n]) ↔ Glob s n.1 ∧ (r.anchored = true → p = [] ∨ s = ['*', '*']) := by
  rw [Rule.Covers, hsegs]
  by_cases hanch : r.anchored = true
  · rw [if_pos hanch]
    by_cases hs : s = ['*', '*']
    · subst hs
      refine iff_of_true ?_ ⟨glob_stars n, fun _ => .inr rfl⟩
      exact Wildcard.matches_many_true
    · rw [matches_segment hs]
      constructor
      · rintro ⟨m, hm, hglob⟩
        obtain ⟨rfl, rfl⟩ : p = [] ∧ n = m := by
          rw [← List.nil_append [m]] at hm
          obtain ⟨hp, hnm⟩ := List.append_inj' hm rfl
          exact ⟨hp, List.head_eq_of_cons_eq hnm⟩
        exact ⟨hglob, fun _ => .inl rfl⟩
      · rintro ⟨hglob, hp⟩
        rcases hp hanch with rfl | hstars
        · exact ⟨n, rfl, hglob⟩
        · exact absurd hstars hs
  · rw [if_neg hanch]
    simp [hanch]

/-- What a pattern takes by the documented language, `Match` takes, and no more unless the pattern is
misplaced. -/
theorem matchGlob_rule {r : Rule} (hr : Rule.ofPattern pattern = some r)
    (hs : s = trimPrefix ['/'] (trimBlanks pattern)) (hpre : p ++ [n] <+: rel)
    (hdir : r.dirOnly = true → p ++ [n] = rel → isDir = true) :
    (r.Covers (p ++ [n]) → matchGlob (trimSuffix s ['/']) (relText (p ++ [n])) = true) ∧
      (matchGlob (trimSuffix s ['/']) (relText (p ++ [n])) = true →
        r.Covers (p ++ [n]) ∨ Misplaced pattern rel isDir) := by
  rcases rule_cases hr hs with ⟨rfl, rfl⟩ | ⟨-, hsegs, hanch⟩
  · -- the pattern is a slash and takes nothing
    have hnil : trimSuffix ([] : Str) ['/'] = [] := rfl
    rw [hnil, matchGlob_base (by simp), covers_base rfl]
    exact ⟨fun h => h.1, fun h => absurd h (not_glob_nil n)⟩
  · by_cases hslash : '/' ∈ trimSuffix s ['/']
    · have hcovers : r.Covers (p ++ [n]) ↔ matchGlob (trimSuffix s ['/']) (relText (p ++ [n])) = true := by
        rw [Rule.Covers, if_pos (hanch hslash), matchGlob_slash hslash (by simp), hsegs]
      exact ⟨hcovers.mp, fun h => .inl (hcovers.mpr h)⟩
    · rw [splitSlash_of_notMem hslash] at hsegs
      rw [matchGlob_base hslash, covers_base hsegs]
      refine ⟨fun h => h.1, fun h => ?_⟩
      by_cases hbelow : r.anchored = true ∧ p ≠ []
      · exact .inr ⟨r, _, hr, hbelow.1, hsegs, p, n, hbelow.2, hpre, hdir, h⟩
      · exact .inl ⟨h, fun ha => .inl (by_contra fun hp => hbelow ⟨ha, hp⟩)⟩

/-- Every path that the language leaves out, `Match` reports. -/
theorem matches_of_excluded (hrel : rel ≠ []) (h : Excluded patterns rel isDir) :
    (newMatcher patterns).matches (relText rel) isDir = true := by
  obtain ⟨pattern, hmem, r, hr, q, hq, hpre, hdir, hcovers⟩ := h
  obtain ⟨p, n, rfl⟩ := (List.eq_nil_or_concat q).resolve_left hq
  rw [List.concat_eq_append] at *
  refine (matches_iff hrel).mpr ⟨_, mem_newMatcher.mpr ⟨pattern, hmem, ⟨r, hr⟩, rfl⟩, _, hq, hpre, ?_,
    (matchGlob_rule hr rfl hpre hdir).1 hcovers⟩
  rcases rule_cases hr rfl with ⟨hnil, rfl⟩ | ⟨hd, -, -⟩
  · exact fun hsuffix => by rw [hnil] at hsuffix; cases hsuffix
  · rw [← hd]
    exact hdir

/-- What `Match` reports, the language leaves out, or a misplaced pattern is the cause. -/
theorem excluded_of_matches (hrel : rel ≠ [])
    (h : (newMatcher patterns).matches (relText rel) isDir = true) :
    Excluded patterns rel isDir ∨ ∃ pattern ∈ patterns, Misplaced pattern rel isDir := by
  obtain ⟨s, hs, q, hq, hpre, hdir, hglob⟩ := (matches_iff hrel).mp h
  obtain ⟨pattern, hmem, ⟨r, hr⟩, rfl⟩ := mem_newMatcher.mp hs
  obtain ⟨p, n, rfl⟩ := (List.eq_nil_or_concat q).resolve_left hq
  rw [List.concat_eq_append] at *
  rcases rule_cases hr rfl with ⟨hnil, -⟩ | ⟨hd, -, -⟩
  · rw [hnil] at hglob
    rw [show trimSuffix ([] : Str) ['/'] = [] from rfl, matchGlob_base (by simp)] at hglob
    exact absurd hglob (not_glob_nil n)
  · rw [← hd] at hdir
    rcases (matchGlob_rule hr rfl hpre hdir).2 hglob with hcovers | hmis
    · exact .inl ⟨pattern, hmem, r, hr, _, hq, hpre, hdir, hcovers⟩
    · exact .inr ⟨pattern, hmem, hmis⟩

/-- `Match` agrees with the documented language on a path exactly when every misplaced pattern there
goes with one that leaves the path out. -/
theorem match_agrees_iff (patterns : List Str) (p : Path) (n : Name) (isDir : Bool) :
    ((newMatcher patterns).matches (relText (p ++ [n])) isDir = true ↔
      Excluded patterns (p ++ [n]) isDir) ↔
    ((∃ pattern ∈ patterns, Misplaced pattern (p ++ [n]) isDir) →
      Excluded patterns (p ++ [n]) isDir) := by
  have hne : p ++ [n] ≠ [] := by simp
  constructor
  · rintro hagree ⟨pattern, hmem, hmis⟩
    refine hagree.mp ?_
    obtain ⟨r, s, hr, -, hsegs, q, k, -, hpre, hdir, hglob⟩ := hmis
    rcases rule_cases hr rfl with ⟨-, rfl⟩ | ⟨hd, hsegs', -⟩
    · cases hsegs
      exact absurd hglob (not_glob_nil k)
    · have hbody := splitSlash_eq_singleton (hsegs'.symm.trans hsegs)
      refine (matches_iff hne).mpr ⟨_, mem_newMatcher.mpr ⟨pattern, hmem, ⟨r, hr⟩, rfl⟩, q ++ [k],
        by simp, hpre, hd ▸ hdir, ?_⟩
      rw [matchGlob_base hbody.2, hbody.1]
      exact hglob
  · intro hcond
    refine ⟨fun h => ?_, matches_of_excluded hne⟩
    rcases excluded_of_matches hne h with hex | hmis
    · exact hex
    · exact hcond hmis

/-- A file below the top is left out by a pattern for the top. -/
theorem match_unanchored :
    ¬ ((newMatcher ["/a".toList]).matches (relText [name "b", name "a"]) false = true ↔
      Excluded ["/a".toList] [name "b", name "a"] false) := by
  intro hagree
  obtain ⟨pattern, hmem, r, hr, q, -, hpre, -, hcovers⟩ := hagree.mp (by decide)
  obtain rfl := List.mem_singleton.mp hmem
  obtain rfl : r = ⟨false, true, ["a".toList]⟩ := Option.some.inj (hr.symm.trans (by decide))
  obtain ⟨n, rfl, hglob⟩ := (matches_segment (by decide)).mp hcovers
  have hn : n = name "b" := by
    rcases hpre with ⟨rest, hrest⟩
    exact (List.cons.inj hrest).1
  subst hn
  exact absurd hglob (by decide)

end Backups
