import Mathlib.Data.Char
import Mathlib.Data.List.TakeWhile
import Mathlib.Order.Lattice
import Gsm.Posix.Tree

/-!
# Go's `strings`, `path` and `path/filepath`

A Go string is a list of characters, one for each byte. An absolute path that `filepath.Clean` has
cleaned is the list of its names (`render` writes it out again); joining such a path with cleaned
names is appending, `filepath.Dir` drops the last name. `hasPrefix_render` ties the prefix tests of
the sources, which are made on the written paths, to prefixes of these lists.
-/

open Posix

namespace GoStd

/-- A Go string, one character for each byte. -/
abbrev Str := List Char

theorem lawfulBEq_str : LawfulBEq Str := inferInstance

/-- Whether a path component names something: not empty, `.` or `..`, and without a slash. -/
def IsName (s : Str) : Prop := s ≠ [] ∧ s ≠ ['.'] ∧ s ≠ ['.', '.'] ∧ '/' ∉ s

instance : DecidablePred IsName := fun s =>
  inferInstanceAs (Decidable (s ≠ [] ∧ s ≠ ['.'] ∧ s ≠ ['.', '.'] ∧ '/' ∉ s))

/-- A name of a directory entry. -/
abbrev Name := { s : Str // IsName s }

def name (s : String) (h : decide (IsName s.toList) = true := by exact Eq.refl true) : Name :=
  ⟨s.toList, of_decide_eq_true h⟩

/-- A clean absolute path. -/
abbrev Path := List Name

/-- `strings.Split(s, "/")`. -/
def splitSlash (s : Str) : List Str := s.splitOn '/'

/-- What a component between two slashes means. -/
def segOf (s : Str) : Seg Name :=
  if h : IsName s then .name ⟨s, h⟩ else if s = ['.', '.'] then .up else .here

def segs (s : Str) : List (Seg Name) := (splitSlash s).map segOf

/-- One component taken by `path.Clean` on a rooted path. -/
def cleanStep (p : Path) : Seg Name → Path
  | .here => p
  | .up => p.dropLast
  | .name n => p ++ [n]

/-- `path.Clean("/" + s)`. -/
def clean (s : Str) : Path := (segs s).foldl cleanStep []

/-- Whether some component is `..`. -/
def hasDotDot (s : Str) : Bool := (splitSlash s).any (· = ['.', '.'])

/-- Whether a path holds a NUL: `os` refuses it before any system call. -/
def hasNul (p : Path) : Bool := p.any fun n => Char.ofNat 0 ∈ n.1

/-- The components before the first with a NUL. -/
def soundPart (p : Path) : Path := p.takeWhile fun n => Char.ofNat 0 ∉ n.1

theorem soundPart_eq {p : Path} (h : hasNul p = false) : soundPart p = p := by
  unfold hasNul at h
  refine List.takeWhile_eq_self_iff.mpr fun n hn => ?_
  simpa using List.any_eq_false.mp h n hn

theorem hasNul_dropLast {p : Path} (h : hasNul p = false) : hasNul p.dropLast = false := by
  unfold hasNul at h ⊢
  exact List.any_eq_false.mpr fun n hn => List.any_eq_false.mp h n (List.mem_of_mem_dropLast hn)

/-- `strings.TrimPrefix`. -/
def trimPrefix (pre s : Str) : Str := if pre.isPrefixOf s then s.drop pre.length else s

/-- `strings.TrimSuffix` -/
def trimSuffix (s suffix : Str) : Str :=
  if suffix.isSuffixOf s then s.take (s.length - suffix.length) else s

/-- `strings.TrimSpace`, for the blanks that commands print -/
def trimSpace (s : Str) : Str :=
  ((s.dropWhile Char.isWhitespace).reverse.dropWhile Char.isWhitespace).reverse

/-- `strings.Join` -/
def join (sep : Str) : List Str → Str
  | [] => []
  | [s] => s
  | s :: t => s ++ sep ++ join sep t

/-- The components of a path behind its slashes. -/
def renderTail : Path → Str
  | [] => []
  | n :: p => '/' :: (n.1 ++ renderTail p)

/-- A clean absolute path written out. -/
def render (p : Path) : Str := if p = [] then ['/'] else renderTail p

/-- Two names with slashes behind them, one text a prefix of the other, are the same name. -/
theorem name_eq_of_prefix {n m : Str} (hn : '/' ∉ n) (hm : '/' ∉ m) {s t : Str}
    (ht : t = [] ∨ ∃ t', t = '/' :: t') (h : n ++ '/' :: s <+: m ++ t) :
    n = m ∧ '/' :: s <+: t := by
  induction n generalizing m with
  | nil =>
    cases m with
    | nil => exact ⟨rfl, h⟩
    | cons b m =>
      rw [List.nil_append, List.cons_append, List.cons_prefix_cons] at h
      exact absurd (h.1 ▸ List.mem_cons_self) hm
  | cons a n ih =>
    cases m with
    | nil =>
      rcases ht with rfl | ⟨t', rfl⟩
      · simp at h
      · rw [List.cons_append, List.nil_append, List.cons_prefix_cons] at h
        exact absurd (h.1 ▸ List.mem_cons_self) hn
    | cons b m =>
      rw [List.cons_append, List.cons_append, List.cons_prefix_cons] at h
      obtain ⟨rfl, h⟩ := h
      obtain ⟨rfl, h'⟩ := ih (fun hx => hn (List.mem_cons_of_mem _ hx))
        (fun hx => hm (List.mem_cons_of_mem _ hx)) h
      exact ⟨rfl, h'⟩

theorem renderTail_cases (p : Path) : renderTail p = [] ∨ ∃ t, renderTail p = '/' :: t := by
  cases p with
  | nil => exact .inl rfl
  | cons n p => exact .inr ⟨_, rfl⟩

/-- `strings.HasPrefix(path, root + "/")`: the path is strictly below a root other than `/`. -/
theorem hasPrefix_render {root p : Path} :
    render root ++ ['/'] <+: render p ↔ root ≠ [] ∧ ∃ n rest, p = root ++ n :: rest := by
  by_cases hroot : root = []
  · subst hroot
    simp only [render, if_true, ne_eq, not_true_eq_false, false_and, iff_false]
    cases p with
    | nil => simp
    | cons n p =>
      obtain ⟨s, hs⟩ := n
      rw [if_neg (by simp), renderTail]
      cases s with
      | nil => exact absurd rfl hs.1
      | cons c s =>
        intro h
        simp only [List.cons_append, List.cons_prefix_cons, true_and] at h
        rw [List.nil_append, List.cons_prefix_cons] at h
        exact hs.2.2.2 (h.1 ▸ List.mem_cons_self)
  · rw [render, if_neg hroot]
    simp only [ne_eq, hroot, not_false_eq_true, true_and]
    have hgen (q r : Path) : renderTail q ++ ['/'] <+: renderTail r ↔
        ∃ n rest, r = q ++ n :: rest := by
      induction q generalizing r with
      | nil =>
        cases r with
        | nil => simp [renderTail]
        | cons n r => simp [renderTail]
      | cons a q ih =>
        cases r with
        | nil => simp [renderTail]
        | cons b r =>
          simp only [renderTail, List.cons_append, List.append_assoc, List.cons_prefix_cons,
            true_and, List.cons.injEq]
          constructor
          · intro h
            have hq : renderTail q ++ ['/'] = '/' :: (renderTail q ++ ['/']).tail := by
              rcases renderTail_cases q with hq | ⟨t, hq⟩ <;> simp [hq]
            rw [hq] at h
            obtain ⟨hab, h⟩ := name_eq_of_prefix a.2.2.2.2 b.2.2.2.2 (renderTail_cases r) h
            rw [← hq, ih] at h
            obtain ⟨n, rest, rfl⟩ := h
            exact ⟨n, rest, Subtype.ext hab.symm, rfl⟩
          · rintro ⟨n, rest, rfl, rfl⟩
            refine (List.prefix_append_right_inj _).mpr ?_
            rw [ih]
            exact ⟨n, rest, rfl⟩
    by_cases hp : p = []
    · subst hp
      rw [show render [] = ['/'] from rfl]
      obtain ⟨a, q, rfl⟩ := List.exists_cons_of_ne_nil hroot
      simp [renderTail]
    · rw [render, if_neg hp, hgen]

/-- `p == root || strings.HasPrefix(p, root + "/")`, on the written paths. -/
def within (root p : Path) : Bool :=
  render p = render root || (render root ++ ['/']).isPrefixOf (render p)

theorem renderTail_injective : Function.Injective renderTail := by
  intro p q h
  induction p generalizing q with
  | nil =>
    cases q with
    | nil => rfl
    | cons b q => simp [renderTail] at h
  | cons a p ih =>
    cases q with
    | nil => simp [renderTail] at h
    | cons b q =>
      simp only [renderTail, List.cons.injEq, true_and] at h
      have hab : a.1 = b.1 ∧ renderTail p = renderTail q := by
        rcases renderTail_cases p with hp | ⟨s, hp⟩
        · rcases renderTail_cases q with hq | ⟨t, hq⟩
          · simpa [hp, hq] using h
          · rw [hp, hq, List.append_nil] at h
            exact absurd (h ▸ by simp : '/' ∈ a.1) a.2.2.2.2
        · have hpre : a.1 ++ '/' :: s <+: b.1 ++ renderTail q := by rw [← hp, h]
          obtain ⟨he, -⟩ := name_eq_of_prefix a.2.2.2.2 b.2.2.2.2 (renderTail_cases q) hpre
          rw [he] at h
          exact ⟨he, List.append_cancel_left h⟩
      rw [Subtype.ext hab.1, ih hab.2]

theorem render_injective : Function.Injective render := by
  intro p q h
  have hslash (r : Path) (hr : r ≠ []) : renderTail r ≠ ['/'] := by
    obtain ⟨n, r, rfl⟩ := List.exists_cons_of_ne_nil hr
    have := n.2.1
    simp [renderTail, this]
  unfold render at h
  split at h <;> split at h
  · simp_all
  · next hq => exact absurd h.symm (hslash q hq)
  · next hp _ => exact absurd h (hslash p hp)
  · exact renderTail_injective h

theorem within_iff {root p : Path} : within root p ↔ p = root ∨ root ≠ [] ∧ root <+: p := by
  rw [within, Bool.or_eq_true, decide_eq_true_iff, List.isPrefixOf_iff_prefix, hasPrefix_render,
    render_injective.eq_iff]
  constructor
  · rintro (h | ⟨hr, n, rest, rfl⟩)
    · exact .inl h
    · exact .inr ⟨hr, List.prefix_append _ _⟩
  · rintro (h | ⟨hr, rest, rfl⟩)
    · exact .inl h
    · cases rest with
      | nil => exact .inl (by simp)
      | cons n rest => exact .inr ⟨hr, n, rest, rfl⟩

end GoStd
