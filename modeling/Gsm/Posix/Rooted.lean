import Gsm.Posix.Calls

/-!
# Lookup inside one directory

A resolver that never leaves the directory `R` it starts from: it goes from name to name as the kernel does, and gives up
where a link is absolute or a way up would lead out of `R`. `rooted_inside` says that it stays inside, `rooted_eq_walk`
that it finds what the kernel finds, unless it gives up.

`Reworked` is what programs over such a resolver do to a tree: outside `R` nothing, and inside every node is one that was
there, perhaps elsewhere, or one of those that they make.
-/

namespace Posix

variable {α β : Type*}

section

variable [DecidableEq α]

/-- The walk up to the next link. A walk that would leave `R` fails with `inval`. -/
def rootedSegs (look : Loc α → Option (Shape α)) (R : Loc α) (follow : Bool)
    (onLink : Loc α → List (Seg α) → Walk α) : Loc α → List (Seg α) → Walk α
  | cur, [] => .found cur
  | cur, .here :: rest => rootedSegs look R follow onLink cur rest
  | cur, .up :: rest => if cur = R then .fail .inval else rootedSegs look R follow onLink cur.dropLast rest
  | cur, .name n :: rest =>
      match look (cur ++ [n]) with
      | none => if rest = [] then .absent cur n else .fail .noent
      | some .dir => rootedSegs look R follow onLink (cur ++ [n]) rest
      | some .leaf => if rest = [] then .found (cur ++ [n]) else .fail .notDir
      | some (.link t) =>
          if rest = [] ∧ follow = false then .found (cur ++ [n])
          else if t.absolute then .fail .inval else onLink cur (t.segs ++ rest)

/-- Where a walk ends, or the directory it would put something in, lies inside `R`. -/
def Walk.Inside (R : Loc α) : Walk α → Prop
  | .found l => R <+: l
  | .absent d _ => R <+: d
  | .fail _ => True

/-- Lookup with at most `k` links expanded. -/
def rooted (look : Loc α → Option (Shape α)) (R : Loc α) (follow : Bool) : ℕ → Loc α → List (Seg α) → Walk α
  | 0 => rootedSegs look R follow fun _ _ => .fail .loop
  | k + 1 => rootedSegs look R follow (rooted look R follow k)

/-- What `rooted k` does behind a link. -/
def behindRooted (look : Loc α → Option (Shape α)) (R : Loc α) (follow : Bool) :
    ℕ → Loc α → List (Seg α) → Walk α
  | 0 => fun _ _ => .fail .loop
  | k + 1 => rooted look R follow k

variable {look look' : Loc α → Option (Shape α)} {R cur : Loc α} {follow : Bool} {k : ℕ} {n : α}
  {rest : List (Seg α)}

theorem rooted_eq (look : Loc α → Option (Shape α)) (R : Loc α) (follow : Bool) (k : ℕ) :
    rooted look R follow k = rootedSegs look R follow (behindRooted look R follow k) := by
  cases k <;> rfl

@[simp] theorem rooted_nil : rooted look R follow k cur [] = .found cur := by
  rw [rooted_eq]
  rfl

@[simp] theorem rooted_here : rooted look R follow k cur (.here :: rest) = rooted look R follow k cur rest := by
  rw [rooted_eq]
  rfl

theorem rooted_up : rooted look R follow k cur (.up :: rest) =
    if cur = R then .fail .inval else rooted look R follow k cur.dropLast rest := by
  rw [rooted_eq]
  rfl

theorem rooted_name : rooted look R follow k cur (.name n :: rest) =
    match look (cur ++ [n]) with
    | none => if rest = [] then .absent cur n else .fail .noent
    | some .dir => rooted look R follow k (cur ++ [n]) rest
    | some .leaf => if rest = [] then .found (cur ++ [n]) else .fail .notDir
    | some (.link t) =>
        if rest = [] ∧ follow = false then .found (cur ++ [n])
        else if t.absolute then .fail .inval else behindRooted look R follow k cur (t.segs ++ rest) := by
  rw [rooted_eq]
  rfl

theorem rooted_none (h : look (cur ++ [n]) = none) :
    rooted look R follow k cur (.name n :: rest) = if rest = [] then .absent cur n else .fail .noent := by
  rw [rooted_name, h]

theorem rooted_dir (h : look (cur ++ [n]) = some .dir) :
    rooted look R follow k cur (.name n :: rest) = rooted look R follow k (cur ++ [n]) rest := by
  rw [rooted_name, h]

theorem rooted_leaf (h : look (cur ++ [n]) = some .leaf) :
    rooted look R follow k cur (.name n :: rest) =
      if rest = [] then .found (cur ++ [n]) else .fail .notDir := by
  rw [rooted_name, h]

theorem rooted_link {t : Target α} (h : look (cur ++ [n]) = some (.link t)) :
    rooted look R follow k cur (.name n :: rest) =
      if rest = [] ∧ follow = false then .found (cur ++ [n])
      else if t.absolute then .fail .inval else behindRooted look R follow k cur (t.segs ++ rest) := by
  rw [rooted_name, h]

omit [DecidableEq α] in
/-- Induction along such a walk. -/
theorem rooted_induction (look : Loc α → Option (Shape α)) (R : Loc α)
    {motive : ℕ → Loc α → List (Seg α) → Prop}
    (nil : ∀ k cur, motive k cur [])
    (here : ∀ k cur rest, motive k cur rest → motive k cur (.here :: rest))
    (up : ∀ k cur rest, (cur ≠ R → motive k cur.dropLast rest) → motive k cur (.up :: rest))
    (none : ∀ k cur n rest, look (cur ++ [n]) = none → motive k cur (.name n :: rest))
    (dir : ∀ k cur n rest, look (cur ++ [n]) = some .dir → motive k (cur ++ [n]) rest →
      motive k cur (.name n :: rest))
    (leaf : ∀ k cur n rest, look (cur ++ [n]) = some .leaf → motive k cur (.name n :: rest))
    (link : ∀ k cur n t rest, look (cur ++ [n]) = some (.link t) →
      (t.absolute = false → ∀ j, k = j + 1 → motive j cur (t.segs ++ rest)) → motive k cur (.name n :: rest))
    (k : ℕ) (cur : Loc α) (todo : List (Seg α)) : motive k cur todo := by
  induction k, cur, todo using walk_induction look with
  | nil k cur => exact nil k cur
  | here k cur rest ih => exact here k cur rest ih
  | up k cur rest ih => exact up k cur rest fun _ => ih
  | none k cur n rest hl => exact none k cur n rest hl
  | dir k cur n rest hl ih => exact dir k cur n rest hl ih
  | leaf k cur n rest hl => exact leaf k cur n rest hl
  | link k cur n t rest hl ih =>
    refine link k cur n t rest hl fun habs j hj => ?_
    have hbehind := ih j hj
    rwa [habs] at hbehind

/-- The walk is the kernel's, unless it gives up. -/
theorem rooted_eq_walk : ∀ k cur todo, rooted look R follow k cur todo ≠ .fail .inval →
    rooted look R follow k cur todo = walk look follow k cur todo := by
  intro k cur todo
  induction k, cur, todo using rooted_induction look R with
  | nil _ _ => simp
  | here _ _ _ ih => simpa using ih
  | up _ _ _ ih =>
    rw [rooted_up, walk_up]
    split
    · exact fun h => absurd rfl h
    · next hne => exact ih hne
  | none k cur n rest hl =>
    rw [rooted_none hl, walk_none hl]
    exact fun _ => rfl
  | dir k cur n rest hl ih =>
    rw [rooted_dir hl, walk_dir hl]
    exact ih
  | leaf k cur n rest hl =>
    rw [rooted_leaf hl, walk_leaf hl]
    exact fun _ => rfl
  | link k cur n t rest hl ih =>
    rw [rooted_link hl, walk_link hl]
    split
    · exact fun _ => rfl
    rcases habs : t.absolute
    · cases k with
      | zero => exact fun _ => rfl
      | succ k => exact ih habs k rfl
    · exact fun h => absurd rfl h

/-- Where such a walk ends, or would put something, is inside. -/
theorem rooted_inside : ∀ k cur todo, R <+: cur → (rooted look R follow k cur todo).Inside R := by
  intro k cur todo
  induction k, cur, todo using rooted_induction look R with
  | nil k cur =>
    rw [rooted_nil]
    exact id
  | here _ _ _ ih =>
    rw [rooted_here]
    exact ih
  | up k cur rest ih =>
    intro hin
    rw [rooted_up]
    split
    · trivial
    · next hne =>
      refine ih hne ?_
      obtain ⟨x, rfl⟩ := hin
      have hx : x ≠ [] := fun h => hne (by rw [h, List.append_nil])
      rw [List.dropLast_append_of_ne_nil hx]
      exact List.prefix_append _ _
  | none k cur n rest hl =>
    intro hin
    rw [rooted_none hl]
    split
    · exact hin
    · trivial
  | dir k cur n rest hl ih =>
    intro hin
    rw [rooted_dir hl]
    exact ih (hin.trans (List.prefix_append _ _))
  | leaf k cur n rest hl =>
    intro hin
    rw [rooted_leaf hl]
    split
    · exact hin.trans (List.prefix_append _ _)
    · trivial
  | link k cur n t rest hl ih =>
    intro hin
    rw [rooted_link hl]
    split
    · exact hin.trans (List.prefix_append _ _)
    rcases habs : t.absolute
    · cases k with
      | zero => trivial
      | succ k => exact ih habs k rfl hin
    · trivial

/-- Following the last link makes a difference only where there is one. -/
theorem rooted_follow : ∀ k cur todo,
    (∀ l, rooted look R false k cur todo = .found l → ∀ g, look l ≠ some (.link g)) →
      rooted look R true k cur todo = rooted look R false k cur todo := by
  intro k cur todo
  induction k, cur, todo using rooted_induction look R with
  | nil _ _ => simp
  | here _ _ _ ih => simpa using ih
  | up _ _ _ ih =>
    rw [rooted_up, rooted_up]
    split
    · exact fun _ => rfl
    · next hne => exact ih hne
  | none k cur n rest hl =>
    rw [rooted_none hl, rooted_none hl]
    exact fun _ => rfl
  | dir k cur n rest hl ih =>
    rw [rooted_dir hl, rooted_dir hl]
    exact ih
  | leaf k cur n rest hl =>
    rw [rooted_leaf hl, rooted_leaf hl]
    exact fun _ => rfl
  | link k cur n t rest hl ih =>
    rw [rooted_link hl, rooted_link hl]
    intro h
    by_cases hrest : rest = []
    · rw [if_pos ⟨hrest, rfl⟩] at h
      exact absurd hl (h _ rfl t)
    · rw [if_neg fun hlast => hrest hlast.1] at h
      rw [if_neg (fun hlast : rest = [] ∧ true = false => hrest hlast.1),
        if_neg (fun hlast : rest = [] ∧ false = false => hrest hlast.1)]
      rcases habs : t.absolute
      · rw [habs, if_neg Bool.false_ne_true] at h
        rw [if_neg Bool.false_ne_true, if_neg Bool.false_ne_true]
        cases k with
        | zero => rfl
        | succ k => exact ih habs k rfl h
      · rfl

/-- A walk that stopped before a free name finds what is put there. -/
theorem rooted_fill (hle : ∀ x s, look x = some s → look' x = some s) {d : Loc α} {m : α} {s : Shape α}
    (hnew : look' (d ++ [m]) = some s) :
    ∀ k cur todo, rooted look R false k cur todo = .absent d m →
      rooted look' R false k cur todo = .found (d ++ [m]) := by
  intro k cur todo
  induction k, cur, todo using rooted_induction look R with
  | nil _ _ => simp
  | here _ _ _ ih => simpa using ih
  | up _ _ _ ih =>
    rw [rooted_up, rooted_up]
    split
    · exact fun h => nomatch h
    · next hne => exact ih hne
  | none k cur n rest hl =>
    intro h
    rw [rooted_none hl] at h
    split at h
    · next hrest =>
      cases h
      subst hrest
      match s with
      | .dir => rw [rooted_dir hnew, rooted_nil]
      | .leaf => rw [rooted_leaf hnew, if_pos rfl]
      | .link t => rw [rooted_link hnew, if_pos ⟨rfl, rfl⟩]
    · cases h
  | dir k cur n rest hl ih =>
    rw [rooted_dir hl, rooted_dir (hle _ _ hl)]
    exact ih
  | leaf k cur n rest hl =>
    rw [rooted_leaf hl]
    split <;> exact fun h => nomatch h
  | link k cur n t rest hl ih =>
    rw [rooted_link hl, rooted_link (hle _ _ hl)]
    split
    · exact fun h => nomatch h
    rcases habs : t.absolute
    · cases k with
      | zero => exact fun h => nomatch h
      | succ k => exact ih habs k rfl
    · exact fun h => nomatch h

/-- What a last name that is not followed ends at is an entry of a directory inside. -/
theorem rooted_entry {c : α} {l : Loc α} : ∀ k cur todo, R <+: cur →
    rooted look R false k cur (todo ++ [.name c]) = .found l → ∃ d, R <+: d ∧ l = d ++ [c] := by
  intro k cur todo
  induction k, cur, todo using rooted_induction look R with
  | nil k cur =>
    intro hin h
    rw [List.nil_append] at h
    refine ⟨cur, hin, ?_⟩
    match hl : look (cur ++ [c]) with
    | none => rw [rooted_none hl, if_pos rfl] at h; cases h
    | some .dir => rw [rooted_dir hl, rooted_nil] at h; cases h; rfl
    | some .leaf => rw [rooted_leaf hl, if_pos rfl] at h; cases h; rfl
    | some (.link t) => rw [rooted_link hl, if_pos ⟨rfl, rfl⟩] at h; cases h; rfl
  | here _ _ _ ih =>
    rw [List.cons_append, rooted_here]
    exact ih
  | up k cur rest ih =>
    intro hin h
    rw [List.cons_append, rooted_up] at h
    split at h
    · cases h
    · next hne =>
      obtain ⟨x, rfl⟩ := hin
      have hx : x ≠ [] := fun h => hne (by rw [h, List.append_nil])
      refine ih hne ?_ h
      rw [List.dropLast_append_of_ne_nil hx]
      exact List.prefix_append _ _
  | none k cur n rest hl =>
    intro _ h
    rw [List.cons_append, rooted_none hl, if_neg (by simp)] at h
    cases h
  | dir k cur n rest hl ih =>
    intro hin h
    rw [List.cons_append, rooted_dir hl] at h
    exact ih (hin.trans (List.prefix_append _ _)) h
  | leaf k cur n rest hl =>
    intro _ h
    rw [List.cons_append, rooted_leaf hl, if_neg (by simp)] at h
    cases h
  | link k cur n t rest hl ih =>
    intro hin h
    rw [List.cons_append, rooted_link hl, if_neg (by simp), ← List.append_assoc] at h
    rcases habs : t.absolute <;> rw [habs] at h
    · cases k with
      | zero => cases h
      | succ k => exact ih habs k rfl hin h
    · cases h

end

/-! ## What is done to a tree from inside -/

/-- What is made, and what a node may turn into. -/
structure Rework (α β : Type*) where
  made : Node α β → Prop
  keep : Node α β → Node α β → Prop
  refl : ∀ nd, keep nd nd
  trans : ∀ {nd nd' nd''}, keep nd nd' → keep nd' nd'' → keep nd nd''
  made_of_keep : ∀ {nd nd'}, made nd → keep nd nd' → made nd'

/-- Outside `R` nothing has changed, `R` is there, and each node is one that was there, on the same side of `R`, or one that
was made. -/
structure Reworked (W : Rework α β) (R : Loc α) (t t' : Tree α β) : Prop where
  outside : ∀ l, ¬ R <+: l → t'.node l = t.node l
  root : t'.look R = t.look R
  nodes : ∀ l nd', t'.node l = some nd' →
    W.made nd' ∨ ∃ l₀ nd, t.node l₀ = some nd ∧ (R <+: l₀ ↔ R <+: l) ∧ W.keep nd nd'

namespace Reworked

variable {W : Rework α β} {R d l : Loc α} {t t' t'' : Tree α β} {n : α}

@[refl] theorem refl (t : Tree α β) : Reworked W R t t :=
  ⟨fun _ _ => rfl, rfl, fun l nd h => .inr ⟨l, nd, h, .rfl, W.refl nd⟩⟩

@[trans] theorem trans (h : Reworked W R t t') (h' : Reworked W R t' t'') : Reworked W R t t'' := by
  refine ⟨fun l hl => (h'.outside l hl).trans (h.outside l hl), h'.root.trans h.root, fun l nd'' hnd'' => ?_⟩
  rcases h'.nodes l nd'' hnd'' with hmade | ⟨l', nd', hnd', hside', hkeep'⟩
  · exact .inl hmade
  · rcases h.nodes l' nd' hnd' with hmade | ⟨l₀, nd, hnd, hside, hkeep⟩
    · exact .inl (W.made_of_keep hmade hkeep')
    · exact .inr ⟨l₀, nd, hnd, hside.trans hside', W.trans hkeep hkeep'⟩

theorem not_prefix_entry (hd : R <+: d) : ¬ d ++ [n] <+: R := by
  intro h
  have := (h.trans hd).length_le
  rw [List.length_append, List.length_singleton] at this
  omega

variable [LinearOrder α]

theorem alter {f : Node α β → Node α β} (hf : ∀ nd, (f nd).shape = nd.shape) (hl : R <+: l)
    (hkeep : ∀ nd, t.node l = some nd → W.keep nd (f nd)) : Reworked W R t (t.alter l f hf) := by
  refine ⟨fun x hx => ?_, congrFun (Tree.look_alter t l f hf) R, fun x nd' hnd' => ?_⟩
  · rw [Tree.node_alter, if_neg]
    rintro rfl
    exact hx hl
  · rw [Tree.node_alter] at hnd'
    split at hnd'
    · next heq =>
      obtain ⟨nd, hnd, rfl⟩ := Option.map_eq_some_iff.mp hnd'
      exact .inr ⟨x, nd, hnd, .rfl, hkeep nd (heq ▸ hnd)⟩
    · exact .inr ⟨x, nd', hnd', .rfl, W.refl nd'⟩

omit [LinearOrder α] in
/-- A node is put into a directory inside. -/
theorem insert (n : α) (nd : Node α β) (hd : R <+: d) (hmade : W.made nd) (hnew : t'.node (d ++ [n]) = some nd)
    (hother : ∀ x, x ≠ d ++ [n] → t'.node x = t.node x) : Reworked W R t t' := by
  refine ⟨fun x hx => hother x ?_, ?_, fun x nd' hnd' => ?_⟩
  · rintro rfl
    exact hx (hd.trans (List.prefix_append _ _))
  · rw [Tree.look, hother, Tree.look]
    rintro rfl
    exact not_prefix_entry hd List.prefix_rfl
  · by_cases hx : x = d ++ [n]
    · rw [hx, hnew] at hnd'
      cases hnd'
      exact .inl hmade
    · rw [hother x hx] at hnd'
      exact .inr ⟨x, nd', hnd', .rfl, W.refl nd'⟩

theorem remove (hd : R <+: d) : Reworked W R t (t.remove (d ++ [n])) := by
  refine ⟨fun x hx => ?_, ?_, fun x nd' hnd' => ?_⟩
  · exact Tree.node_remove_ne t fun h => hx (hd.trans ((List.prefix_append _ _).trans h))
  · rw [Tree.look, Tree.node_remove_ne t (not_prefix_entry hd), Tree.look]
  · rcases Tree.sub_remove t (d ++ [n]) x with hnone | hsame
    · cases hnone.symm.trans hnd'
    · exact .inr ⟨x, nd', hsame.symm.trans hnd', .rfl, W.refl nd'⟩

/-- An entry of one directory inside becomes an entry of another. -/
theorem move {s : Loc α} {m : α} (hs : R <+: s) (hd : R <+: d) :
    Reworked W R t (t.move (s ++ [m]) d n) := by
  by_cases h : s ++ [m] ≠ [] ∧ t.look d = some .dir ∧ t.node (d ++ [n]) = none ∧ ¬ s ++ [m] <+: d ++ [n]
  swap
  · rw [Tree.move, dif_neg h]
  have hnode := Tree.node_move h
  refine ⟨fun x hx => Tree.node_move_ne t ?_ ?_, ?_, fun x nd' hnd' => ?_⟩
  · exact fun hpre => hx (hs.trans ((List.prefix_append _ _).trans hpre))
  · exact fun hpre => hx (hd.trans ((List.prefix_append _ _).trans hpre))
  · rw [Tree.look, Tree.node_move_ne t (not_prefix_entry hs) (not_prefix_entry hd), Tree.look]
  · rw [hnode] at hnd'
    split at hnd'
    · next hpre =>
      have hin : R <+: Tree.movedFrom (s ++ [m]) (d ++ [n]) x :=
        hs.trans ((List.prefix_append _ _).trans (List.prefix_append _ _))
      exact .inr ⟨_, nd', hnd', iff_of_true hin (hd.trans ((List.prefix_append _ _).trans hpre)), W.refl nd'⟩
    split at hnd'
    · cases hnd'
    · exact .inr ⟨x, nd', hnd', .rfl, W.refl nd'⟩

end Reworked

/-! ## Lookups and programs -/

/-- How many links such a resolver expands. -/
def maxRootLinks : ℕ := 8

namespace Tree

variable [DecidableEq α]

/-- Where a path from `R` on leads, a link in the last place followed. -/
def rootStat (t : Tree α β) (R : Loc α) (p : List α) : Walk α := rooted t.look R true maxRootLinks R (p.map .name)

/-- The node that such a path names. -/
def rootLstat (t : Tree α β) (R : Loc α) (p : List α) : Walk α := rooted t.look R false maxRootLinks R (p.map .name)

variable {t t' : Tree α β} {R d l : Loc α} {p : List α} {n : α}

theorem rootStat_found (h : t.rootStat R p = .found l) : R <+: l := by
  have hin : (t.rootStat R p).Inside R := rooted_inside _ _ _ List.prefix_rfl
  rw [h] at hin
  exact hin

theorem rootStat_absent (h : t.rootStat R p = .absent d n) : R <+: d := by
  have hin : (t.rootStat R p).Inside R := rooted_inside _ _ _ List.prefix_rfl
  rw [h] at hin
  exact hin

theorem rootLstat_absent (h : t.rootLstat R p = .absent d n) : R <+: d := by
  have hin : (t.rootLstat R p).Inside R := rooted_inside _ _ _ List.prefix_rfl
  rw [h] at hin
  exact hin

/-- What such a lookup finds, or finds free, the kernel finds so. -/
theorem rootLstat_eq_walk (h : t.rootLstat R p ≠ .fail .inval) :
    t.rootLstat R p = walk t.look false maxRootLinks R (p.map .name) := rooted_eq_walk _ _ _ h

/-- A free name that was found is one of a directory. -/
theorem free_of_rootLstat (hR : t.look R = some .dir) (h : t.rootLstat R p = .absent d n) :
    t.look d = some .dir ∧ t.look (d ++ [n]) = none := by
  have heq : t.rootLstat R p = _ := rootLstat_eq_walk (by rw [h]; exact fun h => nomatch h)
  exact walk_absent _ _ _ hR (heq.symm.trans h)

theorem node_of_rootLstat (hR : t.look R = some .dir) (h : t.rootLstat R p = .found l) : ∃ nd, t.node l = some nd := by
  have heq : t.rootLstat R p = _ := rootLstat_eq_walk (by rw [h]; exact fun h => nomatch h)
  obtain ⟨s, hs, -⟩ := walk_found _ _ _ hR (heq.symm.trans h)
  obtain ⟨nd, hnd, -⟩ := Option.map_eq_some_iff.mp hs
  exact ⟨nd, hnd⟩

theorem rootLstat_found (hp : p ≠ []) (h : t.rootLstat R p = .found l) : ∃ d c, R <+: d ∧ l = d ++ [c] := by
  obtain ⟨q, c, rfl⟩ := (List.eq_nil_or_concat p).resolve_left hp
  rw [rootLstat, List.concat_eq_append, List.map_append, List.map_singleton] at h
  obtain ⟨d, hd, rfl⟩ := rooted_entry _ _ _ List.prefix_rfl h
  exact ⟨d, c, hd, rfl⟩

/-- Where a path other than the root's ends is an entry of a directory inside. -/
theorem rootLstat_place (hp : p ≠ []) (h : (t.rootLstat R p).place = .ok l) : ∃ d c, R <+: d ∧ l = d ++ [c] := by
  match hw : t.rootLstat R p with
  | .found x =>
    rw [hw] at h
    cases h
    exact rootLstat_found hp hw
  | .absent d n =>
    rw [hw] at h
    cases h
    exact ⟨d, n, rootLstat_absent hw, rfl⟩
  | .fail e =>
    rw [hw] at h
    cases h

theorem rootStat_of_rootLstat (h : ∀ l, t.rootLstat R p = .found l → ∀ g, t.look l ≠ some (.link g)) :
    t.rootStat R p = t.rootLstat R p := rooted_follow _ _ _ h

theorem rootLstat_fill (hle : ∀ x s, t.look x = some s → t'.look x = some s) {s : Shape α}
    (hnew : t'.look (d ++ [n]) = some s) (h : t.rootLstat R p = .absent d n) :
    t'.rootLstat R p = .found (d ++ [n]) := rooted_fill hle hnew _ _ _ h

end Tree

namespace Sys

variable {α β μ γ δ : Type} {W : Rework α β} {R : Loc α} {j : Journal α β}

/-- Run on `j`, the program reworks the tree inside `R`. -/
def Reworks (W : Rework α β) (R : Loc α) (m : Sys α β μ γ) (j : Journal α β) : Prop :=
  Reworked W R j.tree (m.run j).2.tree

theorem reworks_of_readsOnly {m : Sys α β μ γ} (h : m.ReadsOnly) : Reworks W R m j := by
  unfold Reworks
  rw [(h j).tree]

theorem Reworks.attempt {m : Sys α β μ γ} (h : Reworks W R m j) : Reworks W R m.attempt j := h

theorem Reworks.bind {m : Sys α β μ γ} {f : γ → Sys α β μ δ} (h : Reworks W R m j)
    (hf : ∀ a j', m.run j = (.ok a, j') → Reworks W R (f a) j') : Reworks W R (m >>= f) j := by
  unfold Reworks at h ⊢
  rw [run_bind]
  rcases hm : m.run j with ⟨e | a, j'⟩ <;> rw [hm] at h
  · exact h
  · exact h.trans (hf a j' hm)

/-- The rest of a program that has only looked runs on the same tree. -/
theorem Reworks.bind_of_readsOnly {m : Sys α β μ γ} {f : γ → Sys α β μ δ} (h : m.ReadsOnly)
    (hf : ∀ a j', m.run j = (.ok a, j') → j'.tree = j.tree → Reworks W R (f a) j') : Reworks W R (m >>= f) j :=
  (reworks_of_readsOnly h).bind fun a j' hrun => hf a j' hrun (h.run hrun).tree

theorem Reworks.bind_peek {lookup : Tree α β → Walk α} {f : Walk α → Sys α β μ δ}
    (h : Reworks W R (f (lookup j.tree)) j) : Reworks W R (peek lookup >>= f) j := h

theorem Reworks.bind_existing {lookup : Tree α β → Walk α} {f : Loc α → Sys α β μ δ}
    (h : ∀ l, lookup j.tree = .found l → Reworks W R (f l) j) : Reworks W R (existing lookup >>= f) j := by
  by_cases hl : ∃ l, lookup j.tree = .found l
  · obtain ⟨l, hl⟩ := hl
    unfold Reworks
    rw [run_bind_ok (run_existing_found hl)]
    exact h l hl
  · push Not at hl
    obtain ⟨e, he⟩ := run_existing_not_found (μ := μ) hl
    unfold Reworks
    rw [run_bind_error he]

theorem Reworks.bind_look {g : Tree α β → Except (Failure μ) γ} {f : γ → Sys α β μ δ}
    (h : ∀ a, g j.tree = .ok a → Reworks W R (f a) j) : Reworks W R (look g >>= f) j := by
  unfold Reworks
  rw [run_bind, run_look]
  rcases ha : g j.tree with e | a
  · exact .refl _
  · exact h a ha

theorem reworks_touch [LinearOrder α] (lookup : Tree α β → Walk α) {act : Act} {hact : act.changes}
    {g : Node α β → Node α β} {hg : ∀ nd, (g nd).shape = nd.shape}
    (hin : ∀ l, lookup j.tree = .found l → R <+: l) (hkeep : ∀ nd, W.keep nd (g nd)) :
    Reworks W R (touch lookup act hact g hg : Sys α β μ Unit) j :=
  .bind_existing fun l hl => .alter hg (hin l hl) fun nd _ => hkeep nd

/-- An entry of a directory inside is put elsewhere inside. -/
theorem reworks_renameTo [LinearOrder α] {s d : Loc α} {nd : Node α β} {m n : α} (hs : R <+: s) (hd : R <+: d) :
    Reworks W R (renameTo (s ++ [m]) nd (d ++ [n]) : Sys α β μ Unit) j := by
  unfold renameTo
  split
  · exact .refl _
  split
  · exact .refl _
  refine .bind_look fun _ _ => ?_
  rw [List.getLast?_concat, List.dropLast_concat]
  exact (Reworked.remove hd).trans (.move hs hd)

end Sys

end Posix
