import Gsm.Posix.Owners
import Gsm.Instfs.NamedLinks

/-!
# Who owns what the file manager makes

`Mkdir` and `Receive` hand over whatever they make. `Write` makes missing directories with `os.MkdirAll`,
which hands nothing over.
-/

open Posix GoStd Posix.Tree

namespace Instfs

variable {f : FS} {own : ℕ × ℕ} {t : Tree Name Str} {j j' : Journal Name Str} {p abs c : Path}
  {D l : Loc Name} {n m : Name} {γ δ : Type} {Q : Set (Loc Name)}

/-! ## Directories -/

theorem hands_mkdirAllOwned (hown : f.own = some own) (p : Path) (j : Journal Name Str) :
    Sys.Hands own Set.univ (f.mkdirAllOwned p) j := by
  have hgive (x : Loc Name) : Handing own ∅ Set.univ j.tree (j.give f.own x).tree := by
    rw [hown]
    have hone : Handing own (∅ \ {x}) Set.univ j.tree (j.give (some own) x).tree :=
      Journal.handing_give (.refl _) (Set.mem_univ x)
    exact hone.mono (fun _ hx => hx.1) subset_rfl
  rcases mkdirAllOwned_cases f j p with ⟨l, hl⟩ | ⟨q, c, rest, d, rfl, hq, hc⟩ |
    ⟨q, c, rest, d, rfl, hq, hc, hno⟩ | ⟨e, he⟩
  · rw [Sys.Hands, mkdirAllOwned_present hl]
  · rw [Sys.Hands, mkdirAllOwned_missing hq hc, hown]
    exact (Journal.handing_makeDirs 0o755 hq.2 hc rest).mono subset_rfl (Set.subset_univ _)
  · rcases rest with _ | ⟨b, rest⟩
    · rw [Sys.Hands, mkdirAllOwned_blocked hq hc hno]
      exact hgive _
    · obtain ⟨e, he⟩ := mkdirAllOwned_blocked_cons (f := f) hq hc hno b rest
      rw [Sys.Hands, he]
      exact hgive _
  · rw [Sys.Hands, he]

/-! ## Temporary files -/

/-- What lies at or below an entry of `D` -/
def entriesOfDir (D : Loc Name) : Set (Loc Name) := {x | ∃ n, D ++ [n] <+: x}

theorem mem_entriesOfDir (n : Name) {x : Loc Name} (h : D ++ [n] <+: x) : x ∈ entriesOfDir D := ⟨n, h⟩

/-- What fills a temporary file leaves all owners as they are. -/
def FillsOnly (fill : Loc Name → Prog γ) : Prop :=
  ∀ fd j, ((fill fd).run j).2.tree.owner = j.tree.owner

/-- Taken away, a temporary file need not be handed over. -/
theorem handing_unlink (h : Handing own {D ++ [m]} (entriesOfDir D) t j.tree) (hbeside : Beside j.tree p D m) :
    Handing own ∅ (entriesOfDir D) t ((Sys.unlink (p ++ [m]) : Prog Unit).run j).2.tree := by
  rw [Sys.run_unlink hbeside.lstat (by simp [hbeside.file]), Journal.tree_remove]
  refine (h.remove (by simp) fun x => mem_entriesOfDir m).mono ?_ subset_rfl
  rintro x ⟨rfl, hpre⟩
  exact absurd List.prefix_rfl hpre

/-- A temporary file is handed over, or it is gone. -/
theorem handing_fillTemp (hown : f.own = some own) {fill : Loc Name → Prog γ} {done : γ → Prog δ} {mode : ℕ}
    (hfills : Fills fill) (hfill : FillsOnly fill) (hdone : ∀ a, (done a).ReadsOnly)
    (h : Handing own {D ++ [m]} (entriesOfDir D) t j.tree) (hthere : j.tree.owner (D ++ [m]) ≠ none)
    (hbeside : Beside j.tree p D m) :
    Handing own ∅ (entriesOfDir D) t
      ((f.fillTemp (p ++ [m]) (D ++ [m]) (p ++ [n]) mode fill done).run j).2.tree := by
  have hmem (x : Loc Name) (hx : D ++ [m] <+: x) : x ∈ entriesOfDir D := mem_entriesOfDir m hx
  obtain ⟨-, hlook⟩ := hfills (D ++ [m]) (D ++ [m]) j List.prefix_rfl
  have hsame := hfill (D ++ [m]) j
  rw [FS.fillTemp]
  show Handing own ∅ _ t ((Sys.unlink (p ++ [m]) : Prog Unit).run (Sys.run _ j).2).2.tree
  rcases hrun : (fill (D ++ [m])).run j with ⟨e | a, j₂⟩ <;> rw [hrun] at hlook hsame
  · -- it was not filled
    rw [Sys.run_bind_error hrun]
    exact handing_unlink (h.trans (.of_owner_eq hsame)) (hbeside.congr hlook.symm)
  have h₂ : Beside j₂.tree p D m := hbeside.congr hlook.symm
  have hmode : ∀ nd : Node Name Str, (nd.setMode mode).owner = nd.owner := fun _ => rfl
  have hlook₃ : ((Sys.chmod (p ++ [m]) mode : Prog Unit).run j₂).2.tree.look = j₂.tree.look :=
    Sys.look_touch _ j₂
  have hsame₃ : ((Sys.chmod (p ++ [m]) mode : Prog Unit).run j₂).2.tree.owner = j₂.tree.owner :=
    Sys.owner_touch _ hmode j₂
  have hchmod := Sys.run_attempt (Sys.chmod (p ++ [m]) mode : Prog Unit) j₂
  rw [Sys.run_bind_ok hrun, Sys.run_bind_ok hchmod]
  generalize ((Sys.chmod (p ++ [m]) mode : Prog Unit).run j₂).2 = j₃ at hlook₃ hsame₃ ⊢
  have h₃ : Beside j₃.tree p D m := h₂.congr hlook₃.symm
  have howner₃ : j₃.tree.owner = j.tree.owner := hsame₃.trans hsame
  have hhanding₃ : Handing own {D ++ [m]} (entriesOfDir D) t j₃.tree := h.trans (.of_owner_eq howner₃)
  -- it is handed over
  have h₄ : Beside (j₃.give f.own (D ++ [m])).tree p D m := h₃.congr Journal.look_give.symm
  rw [Sys.run_bind_ok (run_giveAway h₃.lstat)]
  have hgiven : Handing own ∅ (entriesOfDir D) t (j₃.give f.own (D ++ [m])).tree := by
    have hgive := Journal.handing_give hhanding₃ (hmem _ List.prefix_rfl)
    rwa [Set.sdiff_self, ← hown] at hgive
  have howned : (j₃.give f.own (D ++ [m])).tree.owner (D ++ [m]) = some own := by
    obtain ⟨o, ho⟩ := Option.ne_none_iff_exists'.mp hthere
    rw [hown, Journal.give, Journal.tree_alter, owner_setOwner, if_pos rfl, howner₃, ho]
    rfl
  generalize j₃.give f.own (D ++ [m]) = j₄ at h₄ hgiven howned ⊢
  -- it takes its place
  have hrename : Sys.Hands own (entriesOfDir D) (Sys.rename (p ++ [m]) (p ++ [n]) : Prog Unit) j₄ := by
    refine Sys.hands_rename h₄.lstat h₄.file howned hmem fun y hy x hx => ?_
    obtain rfl := Except.ok.inj ((place_beside h₄.dir).symm.trans hy)
    exact mem_entriesOfDir n hx
  rw [Sys.Hands] at hrename
  rcases hren : (Sys.rename (p ++ [m]) (p ++ [n]) : Prog Unit).run j₄ with ⟨e | u, j₅⟩ <;> rw [hren] at hrename
  · obtain rfl : j₅ = j₄ := Sys.run_rename_error hren
    rw [Sys.run_bind_error hren]
    exact handing_unlink (hgiven.mono (Set.empty_subset _) subset_rfl) h₄
  rw [Sys.run_bind_ok hren]
  have hquiet := hdone a j₅
  generalize ((done a).run j₅).2 = j₆ at hquiet ⊢
  have hend : Handing own ∅ (entriesOfDir D) t j₆.tree := by
    rw [hquiet.tree]
    exact hgiven.trans hrename
  rcases Sys.unlink_cases (μ := FsError) (p ++ [m]) j₆ with hnone | ⟨l, hl, hne, hgone⟩
  · rw [hnone]
    exact hend
  · rw [hgone, Journal.tree_remove]
    obtain ⟨D', hD', rfl, -⟩ := Tree.lstat_concat_eq_found.mp hl
    rw [hquiet.tree] at hD'
    obtain rfl := rename_beside_dir h₄ hren hD'
    exact (hend.remove hne hmem).mono (fun _ hx => hx.1) subset_rfl

/-- Without a free name or a directory nothing is made. -/
theorem run_createTemp_error {names : List Name} {e : Refusal}
    (h : (createTemp p names : Prog _).run j = (.error e, j')) : j' = j := by
  induction names with
  | nil =>
    cases h
    rfl
  | cons n more ih =>
    rw [createTemp, Sys.run_bind, Sys.run_attempt] at h
    match hs : j.tree.lstat (p ++ [n]) with
    | .found l =>
      have hrun : (Sys.openExcl (p ++ [n]) 0o600 : Prog _).run j = (.error (.errno .exist), j) := by
        simp [Sys.openExcl, Sys.peek, Sys.run_bind, hs]
      rw [hrun] at h
      exact ih h
    | .absent d m =>
      have hrun : (Sys.openExcl (p ++ [n]) 0o600 : Prog _).run j =
          (.ok (d ++ [m]), j.create d m ⟨.file ∅, 0o600, 0, 0⟩) := by
        simp [Sys.openExcl, Sys.peek, Sys.run_bind, hs]
      rw [hrun] at h
      cases h
    | .fail e =>
      have hrun : (Sys.openExcl (p ++ [n]) 0o600 : Prog _).run j = (.error (.errno e), j) := by
        simp [Sys.openExcl, Sys.peek, Sys.run_bind, hs]
      have he : e ≠ .exist := by
        rintro rfl
        exact walk_ne_exist _ _ _ hs
      rw [hrun] at h
      cases e <;> first | exact absurd rfl he | (cases h; rfl)

theorem hands_throughTemp (hown : f.own = some own) {temps : List Name} {fill : Loc Name → Prog γ}
    {done : γ → Prog δ} {mode : ℕ} (hfills : Fills fill) (hfill : FillsOnly fill)
    (hdone : ∀ a, (done a).ReadsOnly) (hQ : ∀ D, j.tree.DirAt p D → entriesOfDir D ⊆ Q) :
    Sys.Hands own Q (f.throughTemp temps (p ++ [n]) mode fill done) j := by
  rw [FS.throughTemp, List.dropLast_concat, Sys.Hands]
  rcases hrun : (createTemp p temps : Prog _).run j with ⟨e | ⟨tmp, fd⟩, j₁⟩
  · rw [Sys.run_bind_error hrun, run_createTemp_error hrun]
  · obtain ⟨D, m, hD, -, hm, rfl, rfl, rfl⟩ := createTemp_eq_ok hrun
    rw [Sys.run_bind_ok hrun]
    have hnew : Handing own {D ++ [m]} (entriesOfDir D) j.tree
        (j.create D m ⟨.file ∅, 0o600, 0, 0⟩).tree :=
      handing_create _ (mem_entriesOfDir m List.prefix_rfl) (Set.mem_singleton _)
    have hthere : (j.create D m ⟨.file ∅, 0o600, 0, 0⟩).tree.owner (D ++ [m]) ≠ none := by
      rw [Journal.tree_create, owner, node_create hD.2 (look_eq_none.mp hm), if_pos rfl]
      nofun
    exact (handing_fillTemp hown hfills hfill hdone hnew hthere (Beside.create hD hm)).mono subset_rfl
      (hQ D hD)

/-! ## Requests that hand over all they make -/

theorem hands_mkdir (hown : f.own = some own) (rel : Str) (j : Journal Name Str) :
    Sys.Hands own Set.univ (f.mkdir rel) j := by
  refine (Sys.readsOnly_look _).hands.bind fun ⟨abs, c⟩ j' _ => ?_
  dsimp only
  split
  · exact (Sys.readsOnly_throw _).hands
  · exact (hands_mkdirAllOwned hown abs j').bind fun _ _ _ => (Sys.readsOnly_pure _).hands

theorem fillsOnly_write (data : Str) : FillsOnly fun fd => (Sys.write fd data : Prog Unit) :=
  fun _ j => Sys.owner_write j

theorem fillsOnly_receiveBody {lib : Lib} {size : ℕ} {body : Body} {confirm : Str → Except Str Unit} :
    FillsOnly (receiveBody lib size body confirm) := by
  intro fd j
  have hwrite : ((Sys.write fd body.data : Prog Unit).run j).2.tree.owner = j.tree.owner := Sys.owner_write j
  rw [receiveBody, Sys.run_bind_ok Sys.run_write]
  split
  · exact hwrite
  · split
    · exact hwrite
    · split <;> exact hwrite

theorem readsOnly_checkReceive {overwrite : Bool} : (checkReceive abs c overwrite).ReadsOnly := by
  unfold checkReceive
  split
  · exact Sys.readsOnly_throw _
  · refine (Sys.readsOnly_lstat _).attempt.bind fun r => ?_
    split
    · split
      · exact Sys.readsOnly_throw _
      · split
        · exact Sys.readsOnly_throw _
        · exact Sys.readsOnly_pure _
    · exact Sys.readsOnly_pure _

theorem hands_receive (hown : f.own = some own) (lib : Lib) (temps : List Name) (rel : Str) (size : ℕ)
    (overwrite : Bool) (body : Body) (confirm : Str → Except Str Unit) (t : Tree Name Str) :
    Sys.Hands own Set.univ (f.receive lib temps rel size overwrite body confirm) (.of t) := by
  refine (Sys.readsOnly_look _).hands.bind fun ⟨abs, c⟩ j₁ hrun => ?_
  obtain ⟨hres, rfl⟩ := run_resolve_eq_ok.mp hrun
  refine readsOnly_checkReceive.hands.bind fun _ j₂ hcheck => ?_
  obtain ⟨rfl, hc, -⟩ := run_checkReceive_eq_ok.mp hcheck
  obtain ⟨p, n, rfl⟩ := resolve_concat hres hc
  refine (hands_mkdirAllOwned hown _ _).bind fun _ j₃ _ => ?_
  exact hands_throughTemp hown fills_receiveBody fillsOnly_receiveBody (fun _ => Sys.readsOnly_pure _)
    fun _ _ => Set.subset_univ _

/-! ## Writing -/

/-- Part of the path to a directory is missing, with nothing in the way. -/
def MissingDir (t : Tree Name Str) (p : Path) : Prop :=
  ∃ q c rest d, p = q ++ c :: rest ∧ t.DirAt q d ∧ t.look (d ++ [c]) = none

theorem lstat_missing {q rest : Path} {c n : Name} {d : Loc Name} (hq : t.DirAt q d)
    (hc : t.look (d ++ [c]) = none) : t.lstat (q ++ c :: rest ++ [n]) = .fail .noent := by
  have hstat (rest : Path) : (t.stat (q ++ c :: rest) = .absent d c) ∨ t.stat (q ++ c :: rest) = .fail .noent := by
    induction rest using List.reverseRecOn with
    | nil =>
      refine .inl ?_
      rw [hq.stat_concat (by simp [hc]), hc]
      rfl
    | append_singleton rest b ih =>
      have happ : q ++ c :: (rest ++ [b]) = q ++ c :: rest ++ [b] := by simp
      have hno := hq.stat_missing hc rest
      refine .inr ?_
      rw [happ, Tree.stat_concat fun e he => absurd he (hno e)]
      rcases ih with ih | ih <;> rw [ih] <;> rfl
  rw [Tree.lstat_concat]
  rcases hstat rest with h | h <;> rw [h] <;> rfl

theorem readsOnly_checkWrite {lib : Lib} {sha : Option Str} {create : Bool} :
    (checkWrite lib abs c sha create).ReadsOnly := by
  unfold checkWrite
  refine (Sys.readsOnly_lstat _).attempt.bind fun r => ?_
  split
  · split
    · exact Sys.readsOnly_throw _
    split
    · exact Sys.readsOnly_throw _
    split
    · exact Sys.readsOnly_pure _
    · refine (Sys.readsOnly_readAll _).bind fun cur => ?_
      split
      · exact Sys.readsOnly_pure _
      · exact Sys.readsOnly_throw _
  · split
    · exact Sys.readsOnly_pure _
    · exact Sys.readsOnly_throw _
  · exact Sys.readsOnly_throw _

/-- Where nothing is, `Write` goes on only if it may create the file. -/
theorem checkWrite_create {lib : Lib} {sha : Option Str} {create : Bool} {mode : ℕ}
    (hno : ∀ l, j.tree.lstat abs ≠ .found l)
    (h : (checkWrite lib abs c sha create).run j = (.ok mode, j')) : create = true := by
  obtain ⟨e, he⟩ := Sys.run_lstat_not_found (μ := FsError) hno
  rw [checkWrite, Sys.run_bind, Sys.run_attempt, he] at h
  rcases create with _ | _
  · cases e <;> cases h
  · rfl

/-- `Write` hands over all it makes unless it is to create a file and a directory of its path is missing:
`MkdirAll` makes that one as root's. -/
theorem write_newOwned_iff (hown : f.own = some own) (hroot : own ≠ (0, 0)) (lib : Lib) (temps : List Name)
    (rel content : Str) (sha : Option Str) (create : Bool) (t : Tree Name Str) :
    NewOwned own t ((f.write lib temps rel content sha create).run (.of t)).2.tree ↔
      ¬ (create = true ∧ ∃ abs c, resolve t f rel = .ok (abs, c) ∧ MissingDir t abs.dropLast) := by
  have hdone (p c : Path) (_ : Unit) : (do
      let st ← Sys.stat p
      pure ⟨c, sizeOf st, lib.sha256Hex content⟩ : Prog FileWriteResult).ReadsOnly :=
    (Sys.readsOnly_stat _).bind fun _ => Sys.readsOnly_pure _
  constructor
  · rintro hnew ⟨rfl, abs, c, hres, q, a, rest, d, hp, hq, ha⟩
    obtain ⟨p, n, rfl⟩ : ∃ p n, abs = p ++ [n] := by
      rcases List.eq_nil_or_concat abs with rfl | ⟨p, n, rfl⟩
      · simp at hp
      · exact ⟨p, n, by simp⟩
    rw [List.dropLast_concat] at hp
    subst hp
    have hcheck : (checkWrite lib (q ++ a :: rest ++ [n]) c sha true).run (.of t) = (.ok 0o644, .of t) := by
      have hlstat : (Sys.lstat (q ++ a :: rest ++ [n]) : Prog _).run (.of t) =
          (.error (.errno .noent), .of t) := by
        rw [Sys.lstat]
        exact Sys.run_bind_error (Sys.run_existing_fail (f := (·.lstat _)) (lstat_missing hq ha))
      rw [checkWrite, Sys.run_bind, Sys.run_attempt, hlstat]
      rfl
    have hmake : (mkdirAll (q ++ a :: rest) 0o755 : Prog Unit).run (.of t) =
        (.ok (), (Journal.of t).makeDirs none 0o755 d (a :: rest)) := mkdirAll_missing hq ha rest
    have hdir := Journal.dirAt_makeDirs (j := .of t) none 0o755 hq ha rest
    have hroots : ((Journal.of t).makeDirs none 0o755 d (a :: rest)).tree.owner (d ++ [a]) = some (0, 0) := by
      rw [Journal.owner_makeDirs none 0o755 hq.2 ha, if_pos ⟨List.prefix_rfl, by simp⟩]
      rfl
    rw [FS.write, Sys.run_bind_ok (run_resolve_eq_ok.mpr ⟨hres, rfl⟩), Sys.run_bind_ok hcheck] at hnew
    simp only [List.dropLast_concat] at hnew
    rw [Sys.run_bind_ok hmake] at hnew
    generalize (Journal.of t).makeDirs none 0o755 d (a :: rest) = j₁ at hdir hroots hnew
    have hthrough : Sys.Hands own (entriesOfDir (d ++ a :: rest)) (f.throughTemp temps (q ++ a :: rest ++ [n])
        0o644 (fun fd => Sys.write fd content) fun _ => (do
          let st ← Sys.stat (q ++ a :: rest ++ [n])
          pure ⟨c, sizeOf st, lib.sha256Hex content⟩ : Prog FileWriteResult)) j₁ :=
      hands_throughTemp hown (fills_write content) (fillsOnly_write content) (hdone _ c)
        fun D hD => by rw [hD.unique hdir]
    have hkept := hthrough.kept (d ++ [a]) ?_
    · refine hroot (hnew (d ++ [a]) (0, 0) ?_ (hkept.trans hroots)).symm
      exact owner_eq_none.mpr ha
    · rintro ⟨b, hpre⟩
      have := hpre.length_le
      simp only [List.length_append, List.length_cons, List.length_nil] at this
      omega
  · intro h
    have hall : Sys.Hands own Set.univ (f.write lib temps rel content sha create) (.of t) := by
      refine (Sys.readsOnly_look _).hands.bind fun ⟨abs, c⟩ j₁ hrun => ?_
      obtain ⟨hres, rfl⟩ := run_resolve_eq_ok.mp hrun
      refine readsOnly_checkWrite.hands.bind fun mode j₂ hcheck => ?_
      obtain ⟨hquiet, hnamed⟩ := run_checkWrite_eq_ok hcheck
      obtain ⟨p, n, rfl⟩ : ∃ p n, abs = p ++ [n] := by
        rcases List.eq_nil_or_concat abs with rfl | ⟨p, n, rfl⟩
        · rcases hnamed with ⟨l, hl, hleaf⟩ | hno
          · cases Tree.lstat_root.symm.trans hl
            cases (Tree.look_root _).symm.trans hleaf
          · exact absurd Tree.lstat_root (hno [])
        · exact ⟨p, n, by simp⟩
      have hthrough (j : Journal Name Str) : Sys.Hands own Set.univ (f.throughTemp temps (p ++ [n]) mode
          (fun fd => Sys.write fd content) fun _ => (do
            let st ← Sys.stat (p ++ [n])
            pure ⟨c, sizeOf st, lib.sha256Hex content⟩ : Prog FileWriteResult)) j :=
        hands_throughTemp hown (fills_write content) (fillsOnly_write content) (hdone _ c)
          fun _ _ => Set.subset_univ _
      have htree : j₂.tree = t := hquiet.tree
      simp only [List.dropLast_concat]
      refine Sys.Hands.bind ?_ fun _ j₃ _ => hthrough j₃
      rcases mkdirAll_cases (μ := FsError) j₂ p 0o755 with ⟨D, hD⟩ | ⟨q, a, rest, d, rfl, hq, ha⟩ | ⟨e, he⟩
      · rw [Sys.Hands, mkdirAll_present hD]
      · rw [htree] at hq ha
        have hno : ∀ l, t.lstat (q ++ a :: rest ++ [n]) ≠ .found l := by
          intro l hl
          cases (lstat_missing hq ha).symm.trans hl
        refine absurd ⟨checkWrite_create hno hcheck, _, c, hres, ?_⟩ h
        rw [List.dropLast_concat]
        exact ⟨q, a, rest, d, rfl, hq, ha⟩
      · rw [Sys.Hands, he]
    exact hall.newOwned

end Instfs
