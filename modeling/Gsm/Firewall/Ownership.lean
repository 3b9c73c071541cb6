import Gsm.Firewall.Apply
import Gsm.Machine.Exec

/-!
# Whose rules are in the firewall

With commands and writes that succeed, the tables hold what they held before the agent's first call
and the rules that the agent has recorded as its own. `Tracks` says so of one key's list while
`apply` is at work on it, beside the rules of the other keys; `Owned` says so between the calls.
-/

open GoStd Machine

namespace Firewall

/-- The tables before the agent's first call. -/
abbrev Tables := Table → Finset Allow

/-- The agent's state records the rule as one that it added. -/
def Node.Owns (n : Node) (t : Table) (x : Allow) : Prop :=
  ∃ k, ∃ r ∈ n.rulesOf k, r.existing = false ∧ r.backend = t.backend ∧ x = r.port.rule

/-- The tables hold the rules of the beginning and those recorded as added: one key's, which are
`mine`, and the others'. -/
structure Tracks (first : Tables) (others : Rule → Prop) (mine : List Rule) (net : Net) :
    Prop where
  tables : ∀ t x, x ∈ net.rules t ↔ x ∈ first t ∨
    ∃ r, (others r ∨ r ∈ mine) ∧ r.existing = false ∧ r.backend = t.backend ∧ x = r.port.rule
  new : ∀ r, others r ∨ r ∈ mine → r.existing = false → ∀ t, t.backend = r.backend →
    r.port.rule ∉ first t
  apart : ∀ r ∈ mine, r.existing = false → ∀ r', others r' → r'.existing = false →
    r'.port ≠ r.port
  once : mine.Pairwise fun r r' => r.existing = false → r'.existing = false → r.port ≠ r'.port
  active : ∀ r, others r ∨ r ∈ mine → net.active = some r.backend

variable {first : Tables} {others : Rule → Prop} {mine mine' pre rs keep : List Rule} {net : Net}
  {n n' n₀ : Node} {env : Env} {k k' : Key} {p : Port} {r : Rule} {b : Backend} {t : Table}
  {x : Allow} {ports : List Port} {found : Option Backend × Option Str}
  {res : FirewallRule × List Rule × Node}

namespace Tracks

theorem perm (h : Tracks first others mine net) (hp : mine.Perm mine') :
    Tracks first others mine' net := by
  have hmem : ∀ r, others r ∨ r ∈ mine' ↔ others r ∨ r ∈ mine :=
    fun r => or_congr_right hp.mem_iff.symm
  constructor
  · simpa only [hmem] using h.tables
  · simpa only [hmem] using h.new
  · intro r hr
    exact h.apart r (hp.mem_iff.mpr hr)
  · exact hp.pairwise h.once fun h ho' ho => (h ho ho').symm
  · simpa only [hmem] using h.active

/-- A rule that was there before the agent looked can be forgotten. -/
theorem forget (h : Tracks first others (r :: mine) net) (hr : r.existing = true) :
    Tracks first others mine net := by
  have hmem : ∀ r', others r' ∨ r' ∈ mine → others r' ∨ r' ∈ r :: mine :=
    fun r' => Or.imp_right (List.mem_cons_of_mem r)
  constructor
  · intro t x
    rw [h.tables t x]
    apply or_congr_right
    constructor
    · rintro ⟨r', hr', hown, hb⟩
      refine ⟨r', hr'.imp_right fun hmine => ?_, hown, hb⟩
      rcases List.mem_cons.mp hmine with rfl | hmine
      · rw [hr] at hown
        cases hown
      · exact hmine
    · rintro ⟨r', hr', hown⟩
      exact ⟨r', hmem r' hr', hown⟩
  · exact fun r' hr' => h.new r' (hmem r' hr')
  · exact fun r' hr' => h.apart r' (List.mem_cons_of_mem r hr')
  · exact (List.pairwise_cons.mp h.once).2
  · exact fun r' hr' => h.active r' (hmem r' hr')

/-- A rule of the agent is closed, and the tables hold the others. -/
theorem closed (h : Tracks first others (r :: mine) n.net) (hr : r.existing = false)
    (henv : env.Sound) : Tracks first others mine (n.closePort env r).2.net := by
  have hmem : ∀ r', others r' ∨ r' ∈ mine → others r' ∨ r' ∈ r :: mine :=
    fun r' => Or.imp_right (List.mem_cons_of_mem r)
  have hok : (n.closePort env r).1 = none :=
    Node.closePort_sound henv (h.active r (.inr List.mem_cons_self))
  have hport : ∀ r', others r' ∨ r' ∈ mine → r'.existing = false → r'.port ≠ r.port := by
    rintro r' (hr' | hr') hown
    · exact h.apart r List.mem_cons_self hr r' hr' hown
    · exact ((List.pairwise_cons.mp h.once).1 r' hr' hr hown).symm
  constructor
  · intro t x
    constructor
    · intro hx
      rcases (h.tables t x).mp (Node.closePort_removes hx) with hfirst | ⟨r', hr', hown, hb, rfl⟩
      · exact .inl hfirst
      · refine .inr ⟨r', hr'.imp_right fun hmine => ?_, hown, hb, rfl⟩
        rcases List.mem_cons.mp hmine with rfl | hmine
        · exact absurd hx (Node.closePort_ok hok hb.symm)
        · exact hmine
    · rintro (hfirst | ⟨r', hr', hown, hb, rfl⟩)
      · apply Node.closePort_keeps ((h.tables t x).mpr (.inl hfirst))
        rintro ⟨hb, rfl⟩
        exact h.new r (.inr List.mem_cons_self) hr t hb hfirst
      · apply Node.closePort_keeps ((h.tables t _).mpr (.inr ⟨r', hmem r' hr', hown, hb, rfl⟩))
        rintro ⟨_, hx⟩
        exact hport r' hr' hown (Port.rule_injective hx)
  · exact fun r' hr' => h.new r' (hmem r' hr')
  · exact fun r' hr' => h.apart r' (List.mem_cons_of_mem r hr')
  · exact (List.pairwise_cons.mp h.once).2
  · intro r' hr'
    rw [Node.closePort_framed.active]
    exact h.active r' (hmem r' hr')

/-- A port that another rule allows is noted. -/
theorem noted (h : Tracks first others mine net) (hb : net.active = some b) :
    Tracks first others (⟨p, b, true⟩ :: mine) net := by
  constructor
  · intro t x
    rw [h.tables t x]
    apply or_congr_right
    constructor
    · rintro ⟨r, hr, hown⟩
      exact ⟨r, hr.imp_right (List.mem_cons_of_mem _), hown⟩
    · rintro ⟨r, hr, hown, hb⟩
      refine ⟨r, hr.imp_right fun hmine => ?_, hown, hb⟩
      rcases List.mem_cons.mp hmine with rfl | hmine
      · cases hown
      · exact hmine
  · rintro r (hr | hr) hown
    · exact h.new r (.inl hr) hown
    · rcases List.mem_cons.mp hr with rfl | hr
      · cases hown
      · exact h.new r (.inr hr) hown
  · intro r hr hown
    rcases List.mem_cons.mp hr with rfl | hr
    · cases hown
    · exact h.apart r hr hown
  · exact List.pairwise_cons.mpr ⟨fun _ _ hown => (nomatch hown), h.once⟩
  · rintro r (hr | hr)
    · exact h.active r (.inl hr)
    · rcases List.mem_cons.mp hr with rfl | hr
      · exact hb
      · exact h.active r (.inr hr)

/-- A port that no rule allows is opened, and its rule is recorded. -/
theorem opened (h : Tracks first others mine n.net) (hb : n.net.active = some b)
    (hp : ¬ n.net.Covers b p) (henv : env.Sound) :
    Tracks first others (⟨p, b, false⟩ :: mine) (n.openPort env b k p).2.net := by
  have hok : (n.openPort env b k p).1 = none := Node.openPort_sound henv hb
  have hnew : ∀ t, t.backend = b → p.rule ∉ n.net.rules t :=
    fun t ht hx => hp ⟨t, ht, _, hx, Port.rule_covers.mpr rfl⟩
  -- no rule that the agent has recorded is one for this port
  have hport : ∀ r, others r ∨ r ∈ mine → r.existing = false → r.port ≠ p := by
    rintro r hr hown rfl
    have hrb : r.backend = b := Option.some.inj ((h.active r hr).symm.trans hb)
    obtain ⟨t, ht⟩ : ∃ t : Table, t.backend = b := by
      cases b with
      | ufw => exact ⟨.ufw, rfl⟩
      | firewalld => exact ⟨.firewalld true, rfl⟩
    exact hnew t ht ((h.tables t _).mpr (.inr ⟨r, hr, hown, hrb.trans ht.symm, rfl⟩))
  constructor
  · intro t x
    constructor
    · intro hx
      rcases Node.openPort_adds hx with hx | ⟨ht, rfl⟩
      · rcases (h.tables t x).mp hx with hfirst | ⟨r, hr, hown⟩
        · exact .inl hfirst
        · exact .inr ⟨r, hr.imp_right (List.mem_cons_of_mem _), hown⟩
      · exact .inr ⟨_, .inr List.mem_cons_self, rfl, ht.symm, rfl⟩
    · rintro (hfirst | ⟨r, hr, hown, hrb, rfl⟩)
      · exact Node.openPort_keeps ((h.tables t x).mpr (.inl hfirst))
      · rcases hr with hr | hr
        · exact Node.openPort_keeps ((h.tables t _).mpr (.inr ⟨r, .inl hr, hown, hrb, rfl⟩))
        · rcases List.mem_cons.mp hr with rfl | hr
          · exact Node.openPort_ok hok hrb.symm
          · exact Node.openPort_keeps ((h.tables t _).mpr (.inr ⟨r, .inr hr, hown, hrb, rfl⟩))
  · rintro r (hr | hr) hown t ht
    · exact h.new r (.inl hr) hown t ht
    · rcases List.mem_cons.mp hr with rfl | hr
      · exact fun hfirst => hnew t ht ((h.tables t _).mpr (.inl hfirst))
      · exact h.new r (.inr hr) hown t ht
  · intro r hr hown r' hr' hown'
    rcases List.mem_cons.mp hr with rfl | hr
    · exact hport r' (.inl hr') hown'
    · exact h.apart r hr hown r' hr' hown'
  · refine List.pairwise_cons.mpr ⟨fun r hr _ hown => ?_, h.once⟩
    exact (hport r (.inr hr) hown).symm
  · rintro r (hr | hr) <;> rw [Node.openPort_framed.active]
    · exact h.active r (.inl hr)
    · rcases List.mem_cons.mp hr with rfl | hr
      · exact hb
      · exact h.active r (.inr hr)

/-- The first loop of `apply`, with the rules `pre` kept so far. -/
theorem keepRules (h : Tracks first others (pre ++ rs) n.net) (henv : env.Sound) :
    Tracks first others (pre ++ (Node.keepRules env ports rs n).1)
      (Node.keepRules env ports rs n).2.net := by
  induction rs generalizing pre n with
  | nil => exact h
  | cons r rs ih =>
    have hkeep : Tracks first others (pre ++ [r] ++ rs) n.net := by
      rwa [List.append_assoc]
    have hfirst : Tracks first others (r :: (pre ++ rs)) n.net := h.perm List.perm_middle
    simp only [Node.keepRules]
    split
    · have hrest := ih hkeep
      rwa [List.append_assoc] at hrest
    · split
      · next hr => exact ih (hfirst.forget hr)
      · next hr =>
        have hown : r.existing = false := by simpa using hr
        have hok := Node.closePort_sound henv (hfirst.active r (.inr List.mem_cons_self))
        rw [hok, if_neg (by simp)]
        exact ih (hfirst.closed hown henv)

/-- A turn of the second loop. -/
theorem turn (h : Tracks first others keep n.net) (henv : env.Sound)
    (hfound : ∀ b, found.1 = some b → n.net.active = some b)
    (hturn : Node.Turn env k found p keep n res) : Tracks first others res.2.1 res.2.2.net := by
  cases hturn with
  | kept => exact h
  | refused _ e n' _ hnet =>
    show Tracks first others keep n'.net
    rwa [hnet]
  | found _ _ b hb =>
    show Tracks first others (keep ++ _) (n.isThere env b p).2.net
    rw [Node.isThere_net]
    exact (h.noted (hfound b hb)).perm (List.perm_append_singleton _ _).symm
  | unopened _ _ b hb _ e hopen =>
    have hactive : (n.isThere env b p).2.net.active = some b := by
      rw [Node.isThere_net]
      exact hfound b hb
    rw [Node.openPort_sound henv hactive] at hopen
    cases hopen
  | opened _ _ b hb hthere =>
    have hactive := hfound b hb
    obtain ⟨v, hv, hcovers⟩ := Node.isThere_sound (p := p) henv hactive
    have hnot : ¬ n.net.Covers b p := by
      intro hc
      rw [hcovers.mpr hc, hthere] at hv
      cases hv
    have hnet : (n.isThere env b p).2.net = n.net := Node.isThere_net
    rw [← hnet] at h hactive hnot
    exact (h.opened hactive hnot henv).perm (List.perm_append_singleton _ _).symm

/-- The second loop. -/
theorem wantPorts (h : Tracks first others keep n.net) (henv : env.Sound)
    (hfound : ∀ b, found.1 = some b → n.net.active = some b) :
    Tracks first others (Node.wantPorts env k found ports keep n).2.1
      (Node.wantPorts env k found ports keep n).2.2.net := by
  induction ports generalizing keep n with
  | nil => exact h
  | cons p ps ih =>
    apply ih (h.turn henv hfound Node.wantPort_turn)
    intro b hb
    rw [Node.wantPort_framed.active]
    exact hfound b hb

end Tracks

/-! ## Between the calls -/

/-- The tables hold the rules of the beginning and the agent's own, each of them once. -/
structure Owned (first : Tables) (n : Node) : Prop where
  tables : ∀ t x, x ∈ n.net.rules t ↔ x ∈ first t ∨ n.Owns t x
  new : ∀ k, ∀ r ∈ n.rulesOf k, r.existing = false → ∀ t, t.backend = r.backend →
    r.port.rule ∉ first t
  apart : ∀ k k', k ≠ k' → ∀ r ∈ n.rulesOf k, r.existing = false → ∀ r' ∈ n.rulesOf k',
    r'.existing = false → r'.port ≠ r.port
  once : ∀ k, (n.rulesOf k).Pairwise fun r r' =>
    r.existing = false → r'.existing = false → r.port ≠ r'.port
  active : ∀ k, ∀ r ∈ n.rulesOf k, n.net.active = some r.backend
  /-- the state file says the same -/
  file : n.file.getD ∅ = n.rules

/-- The rules of the other keys. -/
def Node.Others (n : Node) (k : Key) (r : Rule) : Prop := ∃ k', k' ≠ k ∧ r ∈ n.rulesOf k'

theorem others_or_mine : n.Others k r ∨ r ∈ n.rulesOf k ↔ ∃ k', r ∈ n.rulesOf k' := by
  constructor
  · rintro (⟨k', _, hr⟩ | hr)
    · exact ⟨k', hr⟩
    · exact ⟨k, hr⟩
  · rintro ⟨k', hr⟩
    by_cases hk : k' = k
    · exact .inr (hk ▸ hr)
    · exact .inl ⟨k', hk, hr⟩

theorem Owned.tracks (h : Owned first n) (k : Key) :
    Tracks first (n.Others k) (n.rulesOf k) n.net := by
  constructor
  · intro t x
    rw [h.tables t x]
    apply or_congr_right
    constructor
    · rintro ⟨k', r, hr, hown⟩
      exact ⟨r, others_or_mine.mpr ⟨k', hr⟩, hown⟩
    · rintro ⟨r, hr, hown⟩
      obtain ⟨k', hr⟩ := others_or_mine.mp hr
      exact ⟨k', r, hr, hown⟩
  · intro r hr
    obtain ⟨k', hr⟩ := others_or_mine.mp hr
    exact h.new k' r hr
  · rintro r hr hown r' ⟨k', hk', hr'⟩
    exact h.apart k k' hk'.symm r hr hown r' hr'
  · exact h.once k
  · intro r hr
    obtain ⟨k', hr⟩ := others_or_mine.mp hr
    exact h.active k' r hr

/-- A list that is tracked beside the other keys' rules is recorded. -/
theorem Owned.of_tracks (h : Owned first n) (hk : ∀ k', k' ≠ k → n'.rulesOf k' = n.rulesOf k')
    (hfile : n'.file.getD ∅ = n'.rules)
    (htracks : Tracks first (n.Others k) (n'.rulesOf k) n'.net) : Owned first n' := by
  have hall : ∀ r, n.Others k r ∨ r ∈ n'.rulesOf k ↔ ∃ k', r ∈ n'.rulesOf k' := by
    intro r
    rw [← others_or_mine]
    apply or_congr_left
    constructor <;> rintro ⟨k', hne, hr⟩
    · exact ⟨k', hne, by rwa [hk k' hne]⟩
    · exact ⟨k', hne, by rwa [hk k' hne] at hr⟩
  constructor
  · intro t x
    rw [htracks.tables t x]
    apply or_congr_right
    constructor
    · rintro ⟨r, hr, hown⟩
      obtain ⟨k', hr⟩ := (hall r).mp hr
      exact ⟨k', r, hr, hown⟩
    · rintro ⟨k', r, hr, hown⟩
      exact ⟨r, (hall r).mpr ⟨k', hr⟩, hown⟩
  · intro k' r hr
    exact htracks.new r ((hall r).mpr ⟨k', hr⟩)
  · intro k₁ k₂ hne r hr hown r' hr' hown'
    by_cases h₁ : k₁ = k
    · subst h₁
      rw [hk k₂ hne.symm] at hr'
      exact htracks.apart r hr hown r' ⟨k₂, hne.symm, hr'⟩ hown'
    · rw [hk k₁ h₁] at hr
      by_cases h₂ : k₂ = k
      · subst h₂
        exact (htracks.apart r' hr' hown' r ⟨k₁, h₁, hr⟩ hown).symm
      · rw [hk k₂ h₂] at hr'
        exact h.apart k₁ k₂ hne r hr hown r' hr' hown'
  · intro k'
    by_cases h' : k' = k
    · subst h'
      exact htracks.once
    · rw [hk k' h']
      exact h.once k'
  · intro k' r hr
    exact htracks.active r ((hall r).mpr ⟨k', hr⟩)
  · exact hfile

/-- The agent has never been called. -/
structure Node.Fresh (n : Node) : Prop where
  rules : n.rules = ∅
  file : n.file = none

theorem Node.Fresh.rulesOf (h : n.Fresh) (k : Key) : n.rulesOf k = [] := by
  rw [Node.rulesOf, h.rules]
  rfl

theorem Node.Fresh.owned (h : n.Fresh) : Owned n.net.rules n := by
  constructor
  · intro t x
    constructor
    · exact .inl
    · rintro (hx | ⟨k, r, hr, _⟩)
      · exact hx
      · rw [h.rulesOf] at hr
        cases hr
  · intro k r hr
    rw [h.rulesOf] at hr
    cases hr
  · intro k k' _ r hr
    rw [h.rulesOf] at hr
    cases hr
  · intro k
    rw [h.rulesOf]
    exact .nil
  · intro k r hr
    rw [h.rulesOf] at hr
    cases hr
  · rw [h.file, h.rules]
    rfl

/-- Only the key and its rules matter to `Owned`. -/
theorem Owned.congr (h : Owned first n) (hnet : n'.net = n.net) (hrules : n'.rules = n.rules)
    (hfile : n'.file.getD ∅ = n'.rules) : Owned first n' := by
  have hof : ∀ k, n'.rulesOf k = n.rulesOf k := fun k => by rw [Node.rulesOf, Node.rulesOf, hrules]
  refine h.of_tracks (k := sftpKey) (fun k _ => hof k) hfile ?_
  rw [hof, hnet]
  exact h.tracks sftpKey

namespace Node

variable (henv : env.Sound)

include henv

theorem apply_owned (h : Owned first n) : Owned first (n.apply env k ports).2 := by
  have hkeep : Tracks first (n.Others k) (keepRules env ports (n.rulesOf k) n).1
      (keepRules env ports (n.rulesOf k) n).2.net := by
    rw [← List.nil_append (keepRules env ports (n.rulesOf k) n).1]
    exact Tracks.keepRules (h.tracks k) henv
  apply h.of_tracks fun k' hk' => apply_rulesOf_ne hk'
  · show (if env.written _ then some _ else _).getD ∅ = _
    rw [henv.written, if_pos rfl]
    rfl
  · rw [apply_rulesOf_self]
    apply Tracks.wantPorts _ henv
    · exact detectFor_sound henv
    · rwa [detectFor_net]

/-- Nothing is kept for a key that wants nothing. -/
theorem apply_nil_rulesOf (h : Owned first n) : (n.apply env k []).2.rulesOf k = [] := by
  rw [apply_rulesOf_self]
  show (keepRules env [] (n.rulesOf k) n).1 = []
  apply List.eq_nil_iff_forall_not_mem.mpr
  intro r hr
  exact List.not_mem_nil (keepRules_sound henv (h.active k) hr)

theorem remove_owned (h : Owned first n) : Owned first (n.remove env k) := by
  rw [remove]
  split
  · exact apply_owned henv h
  · exact h

/-- Every key of the walk loses its rules. -/
theorem applyAll_owned (order : List Key) (h : Owned first n) :
    Owned first (order.foldl (fun n k => (n.apply env k []).2) n) ∧
      ∀ k, (k ∈ order ∨ n.rulesOf k = []) →
        (order.foldl (fun n k => (n.apply env k []).2) n).rulesOf k = [] := by
  induction order generalizing n with
  | nil => exact ⟨h, fun k hk => hk.resolve_left (by simp)⟩
  | cons k₀ order ih =>
    have hfirst : Owned first (n.apply env k₀ []).2 := apply_owned henv h
    obtain ⟨howned, hrest⟩ := ih hfirst
    refine ⟨howned, fun k hk => hrest k ?_⟩
    by_cases hkey : k = k₀
    · exact .inr (hkey ▸ apply_nil_rulesOf henv h)
    · rw [apply_rulesOf_ne hkey]
      exact hk.imp_left fun hk => (List.mem_cons.mp hk).resolve_left hkey

theorem configure_owned (managed : Bool) (sftpPort : Option ℕ) (order : List Key)
    (h : Owned first n) : Owned first (n.configure env managed sftpPort order).2 := by
  have hset : Owned first { n with managed := managed } := h.congr rfl rfl h.file
  have hdetect : ∀ m : Node, Owned first m → Owned first (m.detect env).2 := by
    intro m hm
    have hframe : m.Framed (m.detect env).2 := detect_framed
    refine hm.congr detect_net hframe.rules ?_
    rw [hframe.file, hframe.rules]
    exact hm.file
  apply hdetect
  cases managed with
  | true => exact apply_owned henv hset
  | false => exact (applyAll_owned henv order hset).1

/-- Turned off, no key keeps a rule. -/
theorem configure_off_rulesOf (sftpPort : Option ℕ) {order : List Key}
    (horder : order.Perm n.rules.keys) (h : Owned first n) (k : Key) :
    (n.configure env false sftpPort order).2.rulesOf k = [] := by
  have hset : Owned first { n with managed := false } := h.congr rfl rfl h.file
  show (detect _ env).2.rulesOf k = []
  rw [detect_framed.rulesOf]
  apply (applyAll_owned henv order hset).2 k
  by_cases hk : k ∈ n.rules
  · exact .inl (horder.mem_iff.mpr (AList.mem_keys.mp hk))
  · right
    show (n.rules.lookup k).getD [] = []
    rw [AList.lookup_eq_none.mpr hk]
    rfl

/-- Each call keeps what is recorded and what is in the firewall together. -/
theorem step_owned {c : Call} (hstep : n.step env c = some n') (h : Owned first n) :
    Owned first n' := by
  cases c with
  | apply k ports =>
    cases hstep
    exact apply_owned henv h
  | remove k =>
    cases hstep
    exact remove_owned henv h
  | configure managed sftpPort order =>
    rw [step] at hstep
    split at hstep
    · cases hstep
      exact configure_owned henv managed sftpPort order h
    · cases hstep
  | restart =>
    cases hstep
    refine h.congr rfl h.file ?_
    show n.file.getD ∅ = n.file.getD ∅
    rfl

theorem exec_owned {calls : List Call} (hn₀ : n₀.Fresh)
    (hrun : exec (Node.step env) n₀ calls = some n) : Owned n₀.net.rules n :=
  exec_preserves (fun _ _ _ hs h => step_owned henv hs h) hrun hn₀.owned

omit henv in
/-- With commands and writes that succeed, after any calls and restarts of a new agent the tables
hold what they held at first and the rules that the agent's state records as added, in memory as in
the file. What was there at first has stayed, and is all that is left once management is turned
off. -/
theorem initial_and_own (henv : env.Sound) (hn₀ : n₀.Fresh) {calls : List Call}
    (hrun : exec (Node.step env) n₀ calls = some n) :
    (∀ t x, x ∈ n.net.rules t ↔ x ∈ n₀.net.rules t ∨ n.Owns t x) ∧ n.file.getD ∅ = n.rules ∧
      (∀ t, n₀.net.rules t ⊆ n.net.rules t) ∧
      ∀ sftpPort order n', n.step env (.configure false sftpPort order) = some n' →
        ∀ t, n'.net.rules t = n₀.net.rules t := by
  have howned := exec_owned henv hn₀ hrun
  refine ⟨howned.tables, howned.file, ?_, ?_⟩
  · intro t x hx
    exact (howned.tables t x).mpr (.inl hx)
  · intro sftpPort order n' hstep t
    have horder : order.Perm n.rules.keys := by
      rw [step] at hstep
      split at hstep
      · next h => simpa using h
      · cases hstep
    have hoff : ∀ k, n'.rulesOf k = [] := by
      rw [step, if_pos (.inr horder)] at hstep
      cases hstep
      exact configure_off_rulesOf henv sftpPort horder howned
    ext x
    rw [(step_owned henv hstep howned).tables t x]
    apply or_iff_left
    rintro ⟨k, r, hr, _⟩
    rw [hoff] at hr
    cases hr

end Node

/-- A node with ufw, where a rule of its own allows 25565/tcp. -/
def ufwNode : Node where
  net := {
    ufw := some true
    firewalld := none
    rules := fun t => if t = .ufw then {(Port.mk 25565 .tcp).rule} else ∅ }

/-- Nothing fails. -/
def allWell : Env := ⟨fun _ => none, fun _ => true⟩

/-- An instance gets two ports, one of which was open; the agent starts again. -/
def twoPorts : List Call :=
  [.configure true (some 2022) [],
    .apply "instance:3f9a2c1b".toList [⟨30000, .tcp⟩, ⟨25565, .tcp⟩], .restart]

theorem Node.initial_and_own_twoPorts :
    ∃ n, exec (Node.step allWell) ufwNode twoPorts = some n ∧
      ∀ t x, x ∈ n.net.rules t ↔ x ∈ ufwNode.net.rules t ∨ n.Owns t x := by
  obtain ⟨n, hrun⟩ : ∃ n, exec (Node.step allWell) ufwNode twoPorts = some n := ⟨_, rfl⟩
  exact ⟨n, hrun, (Node.initial_and_own ⟨fun _ => rfl, fun _ => rfl⟩ ⟨rfl, rfl⟩ hrun).1⟩

end Firewall
