import Gsm.Firewall.Ownership

/-!
# Ports that several keys want

A key that finds its port open records it as existing, whoever opened it. Where it was another key
of the agent, the port goes with that key. It stays as long as a call drops a rule of the agent's
only when no other key has recorded one for the same port.
-/

open GoStd Machine

namespace Firewall

variable {n n' n₀ n₁ n₂ : Node} {env : Env} {k k' : Key} {p : Port} {r : Rule} {t : Table}
  {ports : List Port} {keep : List Rule} {found : Option Backend × Option Str} {c : Call}
  {res : FirewallRule × List Rule × Node}

/-- What a call applies for a key, while management stays on. -/
def Call.applied (c : Call) (k : Key) : Option (List Port) :=
  match c with
  | .apply k' ports => if k' = k then some ports else none
  | .remove k' => if k' = k then some [] else none
  | .configure true sftpPort _ => if k = sftpKey then some (sftpPorts sftpPort) else none
  | _ => none

theorem Call.applied_configure (sftpPort : Option ℕ) (order : List Key) :
    (Call.configure true sftpPort order).applied sftpKey = some (sftpPorts sftpPort) := by
  rw [Call.applied, if_pos rfl]

/-- The call turns management off. -/
def Call.TurnsOff : Call → Prop
  | .configure managed _ _ => managed = false
  | _ => False

instance : DecidablePred Call.TurnsOff
  | .apply _ _ => .isFalse id
  | .remove _ => .isFalse id
  | .configure managed _ _ => inferInstanceAs (Decidable (managed = false))
  | .restart => .isFalse id

/-- What a call reports of the ports of a key. -/
def Node.reported (n : Node) (env : Env) (c : Call) (k : Key) : List FirewallRule :=
  match c with
  | .apply k' ports => if k' = k then (n.apply env k ports).1.rules else []
  | .configure managed sftpPort order =>
      if k = sftpKey then (n.configure env managed sftpPort order).1.sftp else []
  | _ => []

/-- A rule of the agent's that the call drops is for a port that no other key has a rule for. -/
def Lone (n : Node) (c : Call) : Prop :=
  ∀ k ports, c.applied k = some ports → ∀ r ∈ n.rulesOf k, r.existing = false → r.port ∉ ports →
    ∀ k', k' ≠ k → ∀ r' ∈ n.rulesOf k', r'.port ≠ r.port

theorem lone_iff : Lone n c ↔ ∀ k ∈ n.rules.keys, ∀ ports ∈ c.applied k, ∀ r ∈ n.rulesOf k,
    r.existing = false → r.port ∉ ports →
      ∀ k' ∈ n.rules.keys, k' ≠ k → ∀ r' ∈ n.rulesOf k', r'.port ≠ r.port := by
  constructor
  · intro h k _ ports hk r hr hown hports k' _ hne
    exact h k ports hk r hr hown hports k' hne
  · intro h k ports hk r hr hown hports k' hne r' hr'
    exact h k (Node.mem_keys_of_rulesOf hr) ports hk r hr hown hports k' (Node.mem_keys_of_rulesOf hr') hne
      r' hr'

instance : Decidable (Lone n c) := decidable_of_iff' _ lone_iff

/-- A rule of the table allows the port. -/
def Net.CoversIn (net : Net) (t : Table) (p : Port) : Prop := ∃ a ∈ net.rules t, a.Covers p

namespace Node

theorem apply_coversIn (h : n.net.CoversIn t p)
    (hp : ∀ r ∈ n.rulesOf k, r.existing = false → r.port ∉ ports → r.port ≠ p) :
    (n.apply env k ports).2.net.CoversIn t p := by
  obtain ⟨a, ha, hcovers⟩ := h
  refine ⟨a, apply_keeps ha ?_, hcovers⟩
  rintro r hr hown hports ⟨_, rfl⟩
  exact hp r hr hown hports (Port.rule_covers.mp hcovers).symm

/-- A rule that a turn adds to the list is for a port that is allowed then. -/
theorem Turn.covers (h : Turn env k found p keep n res) (henv : env.Sound)
    (hfound : ∀ b, found.1 = some b → n.net.active = some b) (hr : r ∈ res.2.1)
    (hnew : r ∉ keep) : res.2.2.net.Covers r.backend r.port := by
  cases h with
  | kept => exact absurd hr hnew
  | refused => exact absurd hr hnew
  | found _ _ b hb hthere =>
    rcases List.mem_append.mp hr with hr | hr
    · exact absurd hr hnew
    · cases List.mem_singleton.mp hr
      obtain ⟨v, hv, hcovers⟩ := isThere_sound (p := p) henv (hfound b hb)
      rw [hthere] at hv
      cases hv
      rw [isThere_net]
      exact hcovers.mp rfl
  | unopened => exact absurd hr hnew
  | opened _ _ b hb hthere hopen =>
    rcases List.mem_append.mp hr with hr | hr
    · exact absurd hr hnew
    · cases List.mem_singleton.mp hr
      have htable : ∃ t : Table, t.backend = b := by
        cases b with
        | ufw => exact ⟨.ufw, rfl⟩
        | firewalld => exact ⟨.firewalld true, rfl⟩
      obtain ⟨t, ht⟩ := htable
      exact ⟨t, ht, p.rule, openPort_ok hopen ht, Port.rule_covers.mpr rfl⟩

theorem wantPorts_covers (henv : env.Sound)
    (hfound : ∀ b, found.1 = some b → n.net.active = some b)
    (hr : r ∈ (wantPorts env k found ports keep n).2.1) (hnew : r ∉ keep) :
    (wantPorts env k found ports keep n).2.2.net.Covers r.backend r.port := by
  induction ports generalizing keep n with
  | nil => exact absurd hr hnew
  | cons p ps ih =>
    have hturn : Turn env k found p keep n (n.wantPort env k found p keep) := wantPort_turn
    by_cases hfirst : r ∈ (n.wantPort env k found p keep).2.1
    · obtain ⟨t, ht, a, ha, hcovers⟩ := hturn.covers henv hfound hfirst hnew
      have hrest : a ∈ (wantPorts env k found ps (n.wantPort env k found p keep).2.1
          (n.wantPort env k found p keep).2.2).2.2.net.rules t := wantPorts_keeps ha
      exact ⟨t, ht, a, hrest, hcovers⟩
    · apply ih _ hr hfirst
      intro b hb
      rw [wantPort_framed.active]
      exact hfound b hb

/-- What every key has recorded is allowed. -/
def AllAllowed (n : Node) : Prop := ∀ k, ∀ r ∈ n.rulesOf k, n.net.Covers r.backend r.port

theorem apply_allAllowed (henv : env.Sound) (howned : Owned n₀.net.rules n) (h : n.AllAllowed)
    (hlone : ∀ r ∈ n.rulesOf k, r.existing = false → r.port ∉ ports →
      ∀ k', k' ≠ k → ∀ r' ∈ n.rulesOf k', r'.port ≠ r.port) :
    (n.apply env k ports).2.AllAllowed := by
  -- what was recorded before stays allowed, unless the key drops the port
  have hold : ∀ k', ∀ r ∈ n.rulesOf k',
      (∀ r₀ ∈ n.rulesOf k, r₀.existing = false → r₀.port ∉ ports → r₀.port ≠ r.port) →
      (n.apply env k ports).2.net.Covers r.backend r.port := by
    intro k' r hr hne
    obtain ⟨t, ht, hcovers⟩ := h k' r hr
    exact ⟨t, ht, apply_coversIn hcovers hne⟩
  intro k' r hr
  by_cases hk : k' = k
  · subst hk
    rw [apply_rulesOf_self] at hr
    by_cases hkept : r ∈ (keepRules env ports (n.rulesOf k') n).1
    · have hwanted : r.port ∈ ports := keepRules_sound henv (howned.active k') hkept
      apply hold k' r (keepRules_subset hkept)
      rintro r₀ _ _ hports hport
      exact hports (hport ▸ hwanted)
    · exact wantPorts_covers henv (detectFor_sound henv) hr hkept
  · rw [apply_rulesOf_ne hk] at hr
    apply hold k' r hr
    intro r₀ hr₀ hown hports
    exact (hlone r₀ hr₀ hown hports k' hk r hr).symm

theorem AllAllowed.congr (h : n.AllAllowed) (hnet : n'.net = n.net) (hrules : n'.rules = n.rules) :
    n'.AllAllowed := by
  intro k r hr
  rw [hnet]
  exact h k r (by rwa [rulesOf, ← hrules])

theorem step_allAllowed (henv : env.Sound) (howned : Owned n₀.net.rules n) (h : n.AllAllowed)
    (hlone : Lone n c) (hstep : n.step env c = some n') : n'.AllAllowed := by
  cases c with
  | apply k ports =>
    cases hstep
    exact apply_allAllowed henv howned h (hlone k ports (if_pos rfl))
  | remove k =>
    cases hstep
    rw [remove]
    split
    · exact apply_allAllowed henv howned h (hlone k [] (if_pos rfl))
    · exact h
  | configure managed sftpPort order =>
    rw [step] at hstep
    split at hstep
    · next horder =>
      cases hstep
      cases managed with
      | true =>
        have hset : AllAllowed { n with managed := true } := h.congr rfl rfl
        have howned' : Owned n₀.net.rules { n with managed := true } :=
          howned.congr rfl rfl howned.file
        have happly := apply_allAllowed henv howned' hset (hlone sftpKey _ (Call.applied_configure _ _))
        exact happly.congr detect_net detect_framed.rules
      | false =>
        intro k r hr
        rw [configure_off_rulesOf henv sftpPort (by simpa using horder) howned] at hr
        cases hr
    · cases hstep
  | restart =>
    cases hstep
    exact h.congr rfl howned.file

/-- Calls that apply nothing for a key leave its rules alone. -/
theorem step_rulesOf (howned : Owned n₀.net.rules n) (hstep : n.step env c = some n')
    (hk : c.applied k = none) (hon : ¬ c.TurnsOff) : n'.rulesOf k = n.rulesOf k := by
  cases c with
  | apply k' ports =>
    cases hstep
    refine apply_rulesOf_ne ?_
    rintro rfl
    simp [Call.applied] at hk
  | remove k' =>
    cases hstep
    rw [remove]
    split
    · refine apply_rulesOf_ne ?_
      rintro rfl
      simp [Call.applied] at hk
    · rfl
  | configure managed sftpPort order =>
    rw [step] at hstep
    split at hstep
    · cases hstep
      cases managed with
      | true =>
        show (detect _ env).2.rulesOf k = _
        rw [detect_framed.rulesOf]
        refine apply_rulesOf_ne ?_
        rintro rfl
        simp [Call.applied] at hk
      | false => exact absurd rfl hon
    · cases hstep
  | restart =>
    cases hstep
    rw [rulesOf, rulesOf]
    exact congrArg (fun rules : Rules => (rules.lookup k).getD []) howned.file

/-- What a key has recorded stays allowed where other keys are served. -/
theorem step_coversIn (hlone : Lone n c) (hstep : n.step env c = some n')
    (hk : c.applied k = none) (hon : ¬ c.TurnsOff) (hr : r ∈ n.rulesOf k)
    (h : n.net.CoversIn t r.port) : n'.net.CoversIn t r.port := by
  have happly : ∀ k' ports (m : Node), m.rules = n.rules → m.net = n.net →
      c.applied k' = some ports → (m.apply env k' ports).2.net.CoversIn t r.port := by
    intro k' ports m hrules hnet happlied
    apply apply_coversIn (by rwa [hnet])
    intro r₀ hr₀ hown hports
    have hne : k ≠ k' := by
      rintro rfl
      rw [hk] at happlied
      cases happlied
    rw [rulesOf, hrules] at hr₀
    exact (hlone k' ports happlied r₀ hr₀ hown hports k hne r hr).symm
  cases c with
  | apply k' ports =>
    cases hstep
    exact happly k' ports n rfl rfl (if_pos rfl)
  | remove k' =>
    cases hstep
    rw [remove]
    split
    · exact happly k' [] n rfl rfl (if_pos rfl)
    · exact h
  | configure managed sftpPort order =>
    rw [step] at hstep
    split at hstep
    · cases hstep
      cases managed with
      | true =>
        show (detect _ env).2.net.CoversIn t r.port
        rw [detect_net]
        exact happly sftpKey _ { n with managed := true } rfl rfl (Call.applied_configure _ _)
      | false => exact absurd rfl hon
    · cases hstep
  | restart =>
    cases hstep
    exact h

/-- What is reported open or existing is recorded. -/
theorem reported_recorded {f : FirewallRule} (hstep : n.step env c = some n')
    (hf : f ∈ n.reported env c k) (hs : ∀ e, f.state ≠ .error e) :
    ∃ r ∈ n'.rulesOf k, r.port = f.port := by
  cases c with
  | apply k' ports =>
    cases hstep
    rw [reported] at hf
    split at hf
    · next hk =>
      subst hk
      exact apply_reported hf hs
    · cases hf
  | remove k' => cases hf
  | configure managed sftpPort order =>
    rw [reported] at hf
    split at hf
    · next hk =>
      subst hk
      rw [step] at hstep
      split at hstep
      · cases hstep
        cases managed with
        | true =>
          show ∃ r ∈ (detect _ env).2.rulesOf sftpKey, _
          rw [detect_framed.rulesOf]
          exact apply_reported hf hs
        | false => cases hf
      · cases hstep
    · cases hf
  | restart => cases hf

/-- With commands and writes that succeed, and where each call that drops a rule of the agent's
finds no other key with a rule for the same port: what a key is reported open or existing is allowed
for as long as nothing else is applied for the key and management is not turned off, in every table
that allowed it then. -/
theorem reported_stays_allowed (henv : env.Sound) (hn₀ : n₀.Fresh) {before after : List Call}
    (hbefore : exec (Node.step env) n₀ before = some n) (hstep : n.step env c = some n₁)
    (hafter : exec (Node.step env) n₁ after = some n₂)
    (hlone : Along (Node.step env) Lone n₀ (before ++ c :: after))
    (hk : ∀ d ∈ after, d.applied k = none ∧ ¬ d.TurnsOff) {f : FirewallRule}
    (hf : f ∈ n.reported env c k) (hs : ∀ e, f.state ≠ .error e) :
    (∃ b, n₂.net.active = some b ∧ n₂.net.Covers b f.port) ∧
      ∀ t, n₁.net.CoversIn t f.port → n₂.net.CoversIn t f.port := by
  obtain ⟨hlone₀, hlone⟩ := hlone.append hbefore
  -- between the calls the agent's record is right, and what is recorded is allowed
  have hn : Owned n₀.net.rules n ∧ n.AllAllowed := by
    refine exec_invariant (P := fun s => Owned n₀.net.rules s ∧ s.AllAllowed) ?_ hbefore hlone₀ ?_
    · rintro s c s' hc hs ⟨howned, hall⟩
      exact ⟨step_owned henv hs howned, step_allAllowed henv howned hall hc hs⟩
    · refine ⟨hn₀.owned, fun k r hr => ?_⟩
      rw [hn₀.rulesOf] at hr
      cases hr
  obtain ⟨r, hr, hport⟩ := reported_recorded hstep hf hs
  have hn₂ : Owned n₀.net.rules n₂ ∧ n₂.AllAllowed ∧ r ∈ n₂.rulesOf k ∧
      ∀ t, n₁.net.CoversIn t r.port → n₂.net.CoversIn t r.port := by
    refine exec_invariant (P := fun s => Owned n₀.net.rules s ∧ s.AllAllowed ∧ r ∈ s.rulesOf k ∧
      ∀ t, n₁.net.CoversIn t r.port → s.net.CoversIn t r.port) ?_ hafter
      ((hlone.tail hstep).and_forall hk) ?_
    · rintro s d s' ⟨hd, happlied, hon⟩ hs ⟨howned, hall, hrs, hcovers⟩
      refine ⟨step_owned henv hs howned, step_allAllowed henv howned hall hd hs, ?_, ?_⟩
      · rwa [step_rulesOf howned hs happlied hon]
      · exact fun t ht => step_coversIn hd hs happlied hon hrs (hcovers t ht)
    · exact ⟨step_owned henv hstep hn.1, step_allAllowed henv hn.1 hn.2 hlone.1 hstep, hr,
        fun _ h => h⟩
  obtain ⟨howned, hall, hr₂, hcovers⟩ := hn₂
  rw [← hport]
  exact ⟨⟨r.backend, howned.active k r hr₂, hall k r hr₂⟩, hcovers⟩

end Node

/-- Two instances that want the same port. -/
def left : Key := "instance:3f9a2c1b".toList

def right : Key := "instance:7d0e4a55".toList

def shared : Port := ⟨30000, .udp⟩

/-- The first of them has it. -/
def leftNode : Node :=
  ((ufwNode.configure allWell true none []).2.apply allWell left [shared]).2

/-- Where each call drops only rules that no other key has, the port stays. -/
theorem Node.reported_stays_allowed_apart : ∃ n₂,
    exec (Node.step allWell) leftNode [.apply right [⟨30001, .udp⟩], .remove right, .restart] =
      some n₂ ∧ ∃ b, n₂.net.active = some b ∧ n₂.net.Covers b shared := by
  refine ⟨_, rfl, ?_⟩
  have hbefore : exec (Node.step allWell) ufwNode [.configure true none []] = some _ := rfl
  have hstep : Node.step allWell (ufwNode.configure allWell true none []).2
    (.apply left [shared]) = some leftNode := rfl
  have hafter : exec (Node.step allWell) leftNode
    [.apply right [⟨30001, .udp⟩], .remove right, .restart] = some _ := rfl
  have hopened : (⟨shared, .opened⟩ : FirewallRule) ∈ Node.reported
    (ufwNode.configure allWell true none []).2 allWell (.apply left [shared]) left := by
    decide +kernel
  exact (Node.reported_stays_allowed ⟨fun _ => rfl, fun _ => rfl⟩ ⟨rfl, rfl⟩ hbefore hstep hafter
    (by decide +kernel) (by decide) hopened (by simp)).1

/-- The port that two keys want goes with the first of them. -/
theorem Node.reported_closed : ∃ n₁ n₂,
    exec (Node.step allWell) ufwNode [.configure true none [], .apply left [shared]] =
        some leftNode ∧
      leftNode.step allWell (.apply right [shared]) = some n₁ ∧
      exec (Node.step allWell) n₁ [.remove left] = some n₂ ∧
      (⟨shared, .existing⟩ : FirewallRule) ∈
        leftNode.reported allWell (.apply right [shared]) right ∧
      (Call.remove left).applied right = none ∧ n₂.managed = true ∧
      ¬ ∃ b, n₂.net.Covers b shared := by
  refine ⟨_, _, rfl, rfl, rfl, by decide +kernel, by decide, rfl, ?_⟩
  have hgone : ¬ ∃ a ∈ ((leftNode.apply allWell right [shared]).2.remove allWell left).net.rules
      .ufw, a.Covers shared := by
    decide +kernel
  rintro ⟨b, t, _, a, ha⟩
  cases t with
  | ufw => exact hgone ⟨a, ha⟩
  | firewalld => cases ha.1

end Firewall
