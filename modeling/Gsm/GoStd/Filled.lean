import Gsm.GoStd.Enclosed

/-!
# What a directory without links is filled with

`WorksIn` says that a program stays below a directory. `Fills` says what it leaves there: every change is at or below
one of the places it may fill, and whatever is of another kind than before is one of its directories or its files.
-/

open Posix

namespace Posix.Tree

variable {α β : Type} {t : Tree α β} {p y : List α} {P d : Loc α}

/-- What is missing on the way to a name below it, by its names -/
theorem Enclosed.missing_eq {q rest : List α} {c : α} (h : t.Enclosed p P) (hq : p ++ y = q ++ c :: rest)
    (hd : t.DirAt q d) (hc : t.look (d ++ [c]) = none) : ∃ z, y = z ++ c :: rest ∧ d = P ++ z := by
  rcases List.append_eq_append_iff.mp hq with ⟨z, rfl, hz⟩ | ⟨z, rfl, hz⟩
  · exact ⟨z, hz, h.dirAt hd⟩
  · rcases z with _ | ⟨b, z⟩
    · rw [List.append_nil] at h
      exact ⟨[], hz.symm, by rw [hd.unique h.dir, List.append_nil]⟩
    · obtain ⟨rfl, -⟩ := List.cons.inj hz
      exact absurd h.dir.1 (hd.stat_missing hc z P)

end Posix.Tree

namespace GoStd

variable {α β μ γ δ : Type} {p y : List α} {P : Loc α} {dirs files dirs' files' : List α → Prop}
  {j j' j'' : Journal α β}

/-- From `j` to `j'` the directory was filled: with directories in `dirs`, by their names below it, and files in
`files`. -/
structure Filled (P : Loc α) (dirs files : List α → Prop) (j j' : Journal α β) : Prop where
  log : ∃ new, j'.log = j.log ++ new ∧
    ∀ a ∈ new, a.act.changes → ∃ y, (dirs y ∨ files y) ∧ P ++ y <+: a.loc
  kind : ∀ x, j'.tree.kindAt x = j.tree.kindAt x ∨ ∃ y, x = P ++ y ∧
    (dirs y ∧ j'.tree.kindAt x = some .dir ∨ files y ∧ ∃ data, j'.tree.kindAt x = some (.file data))

@[refl] theorem Filled.refl (j : Journal α β) : Filled P dirs files j j :=
  ⟨⟨[], by simp, by simp⟩, fun _ => .inl rfl⟩

@[trans] theorem Filled.trans (h : Filled P dirs files j j') (h' : Filled P dirs files j' j'') :
    Filled P dirs files j j'' := by
  obtain ⟨new, hlog, hnew⟩ := h.log
  obtain ⟨new', hlog', hnew'⟩ := h'.log
  constructor
  · refine ⟨new ++ new', by rw [hlog', hlog, List.append_assoc], fun a ha => ?_⟩
    rcases List.mem_append.mp ha with ha | ha
    · exact hnew a ha
    · exact hnew' a ha
  · intro x
    rcases h'.kind x with hsame | hmade
    · rw [hsame]
      exact h.kind x
    · exact .inr hmade

/-- Changes below one place that may be filled, with nothing of another kind there than before -/
theorem Filled.of_stays (hy : dirs y ∨ files y) (h : j.Stays Act.changes (P ++ y) j')
    (hkind : j'.tree.kindAt = j.tree.kindAt) : Filled P dirs files j j' := by
  obtain ⟨new, hlog, hnew⟩ := h
  exact ⟨⟨new, hlog, fun a ha hact => ⟨y, hy, hnew a ha hact⟩⟩, fun x => .inl (by rw [hkind])⟩

/-- Wherever `p` leads to the directory `P` and no link is below it, the program fills it with these. -/
def Fills (p : List α) (P : Loc α) (dirs files : List α → Prop) (m : Sys α β μ γ) : Prop :=
  ∀ j : Journal α β, j.tree.Enclosed p P → Filled P dirs files j (m.run j).2

theorem fills_pure (a : γ) : Fills p P dirs files (pure a : Sys α β μ γ) := fun j _ => .refl j

theorem fills_throw (e : Failure μ) : Fills p P dirs files (Sys.throw e : Sys α β μ γ) := fun j _ => .refl j

theorem Fills.bind {m : Sys α β μ γ} {f : γ → Sys α β μ δ} (h : Fills p P dirs files m) (hm : WorksIn p P m)
    (hf : ∀ a, Fills p P dirs files (f a)) : Fills p P dirs files (m >>= f) := by
  intro j hj
  have hfilled := h j hj
  obtain ⟨-, henc, -⟩ := hm j hj
  rcases hrun : m.run j with ⟨e | a, j'⟩
  · rw [hrun] at hfilled
    rw [Sys.run_bind_error hrun]
    exact hfilled
  · rw [hrun] at hfilled henc
    rw [Sys.run_bind_ok hrun]
    exact hfilled.trans (hf a j' henc)

variable [LinearOrder α]

theorem fills_mkdirAll (mode : ℕ) (h : ∀ z, z ≠ [] → z <+: y → dirs z) :
    Fills p P dirs files (mkdirAll (p ++ y) mode : Sys α β μ Unit) := by
  intro j hj
  rcases mkdirAll_cases (μ := μ) j (p ++ y) mode with ⟨d, hd⟩ | ⟨q, c, rest, d, hq, hd, hc⟩ | ⟨e, he⟩
  · rw [mkdirAll_present hd]
  · obtain ⟨z, rfl, rfl⟩ := hj.missing_eq hq hd hc
    rw [hq, mkdirAll_missing hd hc rest]
    have hstays : j.Stays Act.changes (P ++ (z ++ [c])) (j.makeDirs none mode (P ++ z) (c :: rest)) := by
      rw [Journal.stays_makeDirs, List.append_assoc]
      exact ⟨fun _ => List.prefix_rfl, fun hnone => nomatch hnone⟩
    obtain ⟨new, hlog, hnew⟩ := hstays
    constructor
    · refine ⟨new, hlog, fun a ha hact => ⟨z ++ [c], .inl (h _ (by simp) ?_), hnew a ha hact⟩⟩
      exact (List.prefix_append_right_inj z).mpr ⟨rest, rfl⟩
    · intro x
      have hfree : j.tree.kindAt (P ++ z ++ [c]) = none := by
        rw [Tree.kindAt_eq_none, ← Tree.look_eq_none]
        exact hc
      rw [Journal.kindAt_makeDirs none mode x hd.2 hfree]
      split
      · next hx =>
        obtain ⟨⟨w, hw⟩, hx⟩ := hx
        refine .inr ⟨z ++ [c] ++ w, by rw [← hw]; simp, .inl ⟨h _ (by simp) ?_, rfl⟩⟩
        rw [← hw, List.append_assoc, List.append_assoc, List.append_assoc, List.prefix_append_right_inj,
          List.prefix_append_right_inj] at hx
        rw [List.append_assoc, List.prefix_append_right_inj]
        exact hx
      · exact .inl rfl
  · rw [he]

/-- Handing a node over changes the kind of none. -/
theorem kindAt_handOver (own : Option (ℕ × ℕ)) (q : List α) (j : Journal α β) :
    ((Sys.handOver own q : Sys α β μ Unit).run j).2.tree.kindAt = j.tree.kindAt := by
  by_cases hfound : ∃ l, j.tree.lstat q = .found l
  · obtain ⟨l, hl⟩ := hfound
    rw [Sys.run_handOver hl]
    exact Journal.kindAt_give
  · push Not at hfound
    obtain ⟨e, he⟩ := Sys.run_existing_not_found (μ := μ) (f := (·.lstat q)) hfound
    match own with
    | none => rfl
    | some (uid, gid) => rw [Sys.handOver, Sys.run_bind, Sys.run_attempt, Sys.lchown, Sys.touch,
        Sys.run_bind_error he]; rfl

theorem fills_handOver (own : Option (ℕ × ℕ)) (y : List α) (n : α) (h : dirs (y ++ [n]) ∨ files (y ++ [n])) :
    Fills p P dirs files (Sys.handOver own (p ++ y ++ [n]) : Sys α β μ Unit) := by
  intro j hj
  match own with
  | none => exact .refl j
  | some (uid, gid) =>
    refine .of_stays h ?_ (kindAt_handOver _ _ j)
    refine Sys.staysIn_bind.mpr ⟨(Sys.staysIn_touch _).mpr fun _ l hl => ?_, fun _ _ _ => Sys.staysIn_pure ()⟩
    rw [hj.lstat hl, List.append_assoc]

theorem fills_overwrite [EmptyCollection β] (y : List α) (mode : ℕ) (data : β) (h : files y) :
    Fills p P dirs files (Sys.overwrite (p ++ y) mode data : Sys α β μ Unit) := by
  intro j hj
  match htarget : j.tree.openTarget (p ++ y) with
  | none =>
    obtain ⟨e, he⟩ := Sys.run_overwrite_none (μ := μ) mode data htarget
    rw [he]
  | some l =>
    obtain rfl := hj.openTarget htarget
    obtain ⟨j', hrun, -, -, hstays⟩ := Sys.run_overwrite (μ := μ) mode data htarget
    obtain ⟨j'', hrun', hkind⟩ := run_overwrite_target (μ := μ) mode data htarget
    obtain rfl : j'' = j' := (Prod.mk.inj (hrun'.symm.trans hrun)).2
    have hin : j.Stays Act.changes (P ++ y) j'' := (hstays (by decide) (by decide)).mpr List.prefix_rfl
    obtain ⟨new, hlog, hnew⟩ := hin
    rw [hrun]
    constructor
    · exact ⟨new, hlog, fun a ha hact => ⟨y, .inr h, hnew a ha hact⟩⟩
    · intro x
      rw [hkind]
      by_cases hx : x = P ++ y
      · exact .inr ⟨y, hx, .inr ⟨h, data, by rw [hx, withFile_self]⟩⟩
      · exact .inl (withFile_ne hx)

end GoStd
