import Gsm.Firewall.Ownership

/-!
# Commands that fail during `apply`

With firewalld a port is opened by two commands. Where the second fails, the rule of the first
stays and nothing records it. `Opening` says when `apply` comes to open a port; what it adds is
recorded exactly where each opening that fails has added nothing or is made good.
-/

open GoStd

namespace Firewall

variable {n n' m : Node} {env : Env} {k : Key} {p q : Port} {r : Rule} {b : Backend} {t : Table}
  {x : Allow} {ports : List Port} {found : Option Backend × Option Str} {keep keep' : List Rule}
  {res : FirewallRule × List Rule × Node}

namespace Node

/-- The second loop comes to the port `p` with the rules `keep'`, in the state `n'`. -/
inductive Comes (env : Env) (k : Key) (found : Option Backend × Option Str) :
    List Port → List Rule → Node → Port → List Rule → Node → Prop where
  | here {p : Port} {ps : List Port} {keep : List Rule} {n : Node} :
      Comes env k found (p :: ps) keep n p keep n
  | later {p q : Port} {ps : List Port} {keep keep' : List Rule} {n n' : Node}
      (h : Comes env k found ps (n.wantPort env k found p keep).2.1
        (n.wantPort env k found p keep).2.2 q keep' n') :
      Comes env k found (p :: ps) keep n q keep' n'

theorem Comes.mem (h : Comes env k found ports keep n p keep' n') : p ∈ ports := by
  induction h with
  | here => exact List.mem_cons_self
  | later _ ih => exact List.mem_cons_of_mem _ ih

theorem Comes.rules_keep (h : Comes env k found ports keep n p keep' n') (hr : r ∈ keep) :
    r ∈ keep' := by
  induction h with
  | here => exact hr
  | later _ ih => exact ih (wantPort_turn.keep_subset hr)

theorem Comes.keeps (h : Comes env k found ports keep n p keep' n') (hx : x ∈ n.net.rules t) :
    x ∈ n'.net.rules t := by
  induction h with
  | here => exact hx
  | later _ ih => exact ih (wantPort_turn.keeps hx)

/-- What a turn has recorded stays recorded. -/
theorem Comes.recorded (h : Comes env k found ports keep n p keep' n')
    (hr : r ∈ (n'.wantPort env k found p keep').2.1) :
    r ∈ (wantPorts env k found ports keep n).2.1 := by
  induction h with
  | here =>
    rw [wantPorts]
    exact wantPorts_keep_subset hr
  | later _ ih => exact ih hr

/-- What a turn has added to a table stays there. -/
theorem Comes.added (h : Comes env k found ports keep n p keep' n')
    (hx : x ∈ (n'.wantPort env k found p keep').2.2.net.rules t) :
    x ∈ (wantPorts env k found ports keep n).2.2.net.rules t := by
  induction h with
  | here =>
    rw [wantPorts]
    exact wantPorts_keeps hx
  | later _ ih => exact ih hx

/-- A new rule of the list is the work of one turn. -/
theorem comes_of_recorded (hr : r ∈ (wantPorts env k found ports keep n).2.1) (hnew : r ∉ keep) :
    ∃ p keep' n', Comes env k found ports keep n p keep' n' ∧ r ∉ keep' ∧
      r ∈ (n'.wantPort env k found p keep').2.1 := by
  induction ports generalizing keep n with
  | nil => exact absurd hr hnew
  | cons p ps ih =>
    by_cases hfirst : r ∈ (n.wantPort env k found p keep).2.1
    · exact ⟨p, keep, n, .here, hnew, hfirst⟩
    · obtain ⟨q, keep', n', hcomes, hturn⟩ := ih hr hfirst
      exact ⟨q, keep', n', .later hcomes, hturn⟩

/-- So is a new rule of a table. -/
theorem comes_of_added (hx : x ∈ (wantPorts env k found ports keep n).2.2.net.rules t)
    (hnew : x ∉ n.net.rules t) :
    ∃ p keep' n', Comes env k found ports keep n p keep' n' ∧ x ∉ n'.net.rules t ∧
      x ∈ (n'.wantPort env k found p keep').2.2.net.rules t := by
  induction ports generalizing keep n with
  | nil => exact absurd hx hnew
  | cons p ps ih =>
    by_cases hfirst : x ∈ (n.wantPort env k found p keep).2.2.net.rules t
    · exact ⟨p, keep, n, .here, hnew, hfirst⟩
    · obtain ⟨q, keep', n', hcomes, hturn⟩ := ih hx hfirst
      exact ⟨q, keep', n', .later hcomes, hturn⟩

/-- The first loop of an `apply`. -/
abbrev kept (n : Node) (env : Env) (k : Key) (ports : List Port) : List Rule × Node :=
  keepRules env ports (n.rulesOf k) n

/-- The firewall that an `apply` finds. -/
abbrev foundBy (n : Node) (env : Env) (k : Key) (ports : List Port) :
    (Option Backend × Option Str) × Node :=
  (n.kept env k ports).2.detectFor env ports

/-- An `apply` comes to open the port, in the state `m`: the key has no rule for it, and the
firewall says that there is none. -/
def Opening (n : Node) (env : Env) (k : Key) (ports : List Port) (p : Port) (b : Backend)
    (m : Node) : Prop :=
  ∃ keep' n', Comes env k (n.foundBy env k ports).1 ports (n.kept env k ports).1
      (n.foundBy env k ports).2 p keep' n' ∧
    (∀ r ∈ keep', r.port ≠ p) ∧ n'.managed = true ∧ (n.foundBy env k ports).1.1 = some b ∧
    (n'.isThere env b p).1 = .ok false ∧ m = (n'.isThere env b p).2

/-- Opening the port fails and leaves a rule behind. -/
def HalfOpened (env : Env) (k : Key) (p : Port) (b : Backend) (m : Node) : Prop :=
  (m.openPort env b k p).1 ≠ none ∧
    ∃ t, p.rule ∉ m.net.rules t ∧ p.rule ∈ (m.openPort env b k p).2.net.rules t

/-- No port is left half opened by this `apply`. -/
def OpensWhole (n : Node) (env : Env) (k : Key) (ports : List Port) : Prop :=
  ∀ p b m, n.Opening env k ports p b m → HalfOpened env k p b m →
    ∃ b' m', n.Opening env k ports p b' m' ∧ (m'.openPort env b' k p).1 = none

/-- What the `apply` added is recorded as the agent's own. -/
def Accounted (n : Node) (env : Env) (k : Key) (ports : List Port) : Prop :=
  ∀ t x, x ∈ (n.apply env k ports).2.net.rules t → x ∉ n.net.rules t →
    ∃ r ∈ (n.apply env k ports).2.rulesOf k,
      r.existing = false ∧ r.backend = t.backend ∧ x = r.port.rule

/-- A turn that adds to a table opens the port. -/
theorem Turn.opens (h : Turn env k found p keep n res) (hx : x ∈ res.2.2.net.rules t)
    (hnew : x ∉ n.net.rules t) :
    x = p.rule ∧ (∀ r ∈ keep, r.port ≠ p) ∧ n.managed = true ∧ found.1 = some t.backend ∧
      (n.isThere env t.backend p).1 = .ok false ∧
      res.2.2 = ((n.isThere env t.backend p).2.openPort env t.backend k p).2 := by
  cases h with
  | kept => exact absurd hx hnew
  | refused _ e n' _ hnet =>
    refine absurd ?_ hnew
    rw [← hnet]
    exact hx
  | found => exact absurd (by rwa [isThere_net] at hx) hnew
  | unopened hkeep hm b hb hthere =>
    obtain ⟨rfl, hp⟩ := (openPort_adds hx).resolve_left (by rwa [isThere_net])
    exact ⟨hp, hkeep, hm, hb, hthere, rfl⟩
  | opened hkeep hm b hb hthere =>
    obtain ⟨rfl, hp⟩ := (openPort_adds hx).resolve_left (by rwa [isThere_net])
    exact ⟨hp, hkeep, hm, hb, hthere, rfl⟩

/-- A turn that records a rule as the agent's has opened the port. -/
theorem Turn.opens_of_recorded (h : Turn env k found p keep n res) (hr : r ∈ res.2.1)
    (hnew : r ∉ keep) (hown : r.existing = false) :
    r.port = p ∧ (∀ r ∈ keep, r.port ≠ p) ∧ n.managed = true ∧ found.1 = some r.backend ∧
      (n.isThere env r.backend p).1 = .ok false ∧
      ((n.isThere env r.backend p).2.openPort env r.backend k p).1 = none := by
  cases h with
  | kept => exact absurd hr hnew
  | refused => exact absurd hr hnew
  | found =>
    rcases List.mem_append.mp hr with hr | hr
    · exact absurd hr hnew
    · cases List.mem_singleton.mp hr
      cases hown
  | unopened => exact absurd hr hnew
  | opened hkeep hm b hb hthere hopen =>
    rcases List.mem_append.mp hr with hr | hr
    · exact absurd hr hnew
    · cases List.mem_singleton.mp hr
      exact ⟨rfl, hkeep, hm, hb, hthere, hopen⟩

/-- The turn that comes to open a port. -/
theorem wantPort_opening (hkeep : ∀ r ∈ keep, r.port ≠ p) (hm : n.managed = true)
    (hfound : found.1 = some b) (hthere : (n.isThere env b p).1 = .ok false) :
    (n.wantPort env k found p keep).2.2 = ((n.isThere env b p).2.openPort env b k p).2 ∧
      (((n.isThere env b p).2.openPort env b k p).1 = none →
        ⟨p, b, false⟩ ∈ (n.wantPort env k found p keep).2.1) := by
  obtain ⟨_, err⟩ := found
  cases hfound
  have hnone : keep.find? (·.port = p) = none := by simpa using hkeep
  unfold wantPort
  simp only [hnone, hm, hthere, not_true_eq_false, if_false]
  split
  · next e he => exact ⟨rfl, fun h => by cases he.symm.trans h⟩
  · exact ⟨rfl, fun _ => List.mem_append_right _ (List.mem_singleton_self _)⟩

/-- What an `apply` wants is not taken away by its first loop. -/
theorem kept_wanted (hp : p ∈ ports) (hx : p.rule ∈ n.net.rules t) :
    p.rule ∈ (n.kept env k ports).2.net.rules t := by
  refine keepRules_keeps hx ?_
  rintro r _ _ hports ⟨_, hrule⟩
  exact hports (Port.rule_injective hrule ▸ hp)

theorem accounted_iff_opensWhole : n.Accounted env k ports ↔ n.OpensWhole env k ports := by
  constructor
  · rintro h p b m ⟨keep', n', hcomes, hkeep', hm, hfound, hthere, rfl⟩ ⟨hfail, t, hnew, hadded⟩
    obtain ⟨e, hopen⟩ := Option.ne_none_iff_exists'.mp hfail
    -- the rule left behind is there when the `apply` returns, and was not before
    have hturn : (n'.wantPort env k (n.foundBy env k ports).1 p keep').2.2 =
        ((n'.isThere env b p).2.openPort env b k p).2 :=
      (wantPort_opening hkeep' hm hfound hthere).1
    have hafter : p.rule ∈ (n.apply env k ports).2.net.rules t := by
      show p.rule ∈ (wantPorts _ _ _ _ _ _).2.2.net.rules t
      apply hcomes.added
      rwa [hturn]
    have hbefore : p.rule ∉ n.net.rules t := by
      intro hx
      apply hnew
      rw [isThere_net]
      apply hcomes.keeps
      rw [detectFor_net]
      exact kept_wanted hcomes.mem hx
    obtain ⟨r, hr, hown, hb, hrule⟩ := h t p.rule hafter hbefore
    obtain rfl : r.port = p := Port.rule_injective hrule.symm
    -- so it was recorded by a turn of its own
    rw [apply_rulesOf_self] at hr
    have hr' : r ∉ (n.kept env k ports).1 :=
      fun hr => hkeep' r (hcomes.rules_keep hr) rfl
    obtain ⟨q, keep₁, n₁, hcomes₁, hnew₁, hr₁⟩ := comes_of_recorded hr hr'
    obtain ⟨rfl, hkeep₁, hm₁, hfound₁, hthere₁, hopen₁⟩ :=
      wantPort_turn.opens_of_recorded hr₁ hnew₁ hown
    exact ⟨r.backend, _, ⟨keep₁, n₁, hcomes₁, hkeep₁, hm₁, hfound₁, hthere₁, rfl⟩, hopen₁⟩
  · intro h t x hafter hbefore
    have hkept : x ∉ (n.foundBy env k ports).2.net.rules t := by
      rw [detectFor_net]
      exact fun hx => hbefore (keepRules_removes hx)
    obtain ⟨p, keep', n', hcomes, hnew, hadded⟩ := comes_of_added hafter hkept
    obtain ⟨rfl, hkeep', hm, hfound, hthere, hturn⟩ := wantPort_turn.opens hadded hnew
    have hopening : n.Opening env k ports p t.backend (n'.isThere env t.backend p).2 :=
      ⟨keep', n', hcomes, hkeep', hm, hfound, hthere, rfl⟩
    -- the port is opened without an error, here or in another turn
    have hopened : ∃ m', n.Opening env k ports p t.backend m' ∧
        (m'.openPort env t.backend k p).1 = none := by
      by_cases hopen : ((n'.isThere env t.backend p).2.openPort env t.backend k p).1 = none
      · exact ⟨_, hopening, hopen⟩
      · have hhalf : HalfOpened env k p t.backend (n'.isThere env t.backend p).2 := by
          refine ⟨hopen, t, ?_, ?_⟩
          · rwa [isThere_net]
          · rwa [← hturn]
        obtain ⟨b', m', hopening', hopen'⟩ := h p t.backend _ hopening hhalf
        obtain rfl : b' = t.backend := by
          obtain ⟨_, _, _, _, _, hfound', _⟩ := hopening'
          exact Option.some.inj (hfound'.symm.trans hfound)
        exact ⟨m', hopening', hopen'⟩
    obtain ⟨_, ⟨keep₁, n₁, hcomes₁, hkeep₁, hm₁, hfound₁, hthere₁, rfl⟩, hopen₁⟩ := hopened
    refine ⟨⟨p, t.backend, false⟩, ?_, rfl, rfl, rfl⟩
    rw [apply_rulesOf_self]
    exact hcomes₁.recorded ((wantPort_opening hkeep₁ hm₁ hfound₁ hthere₁).2 hopen₁)

/-! ## What is recorded can be taken away -/

/-- Applied for nothing, a key loses the rules of the agent that can be closed. -/
theorem apply_nil_takes (henv : env.Sound) (hr : r ∈ n.rulesOf k) (hown : r.existing = false)
    (hactive : n.net.active = some r.backend) (ht : t.backend = r.backend) :
    r.port.rule ∉ (n.apply env k []).2.net.rules t := by
  have hkeep : ∀ rs (m : Node), r ∈ rs → m.net.active = some r.backend →
      r.port.rule ∉ (keepRules env [] rs m).2.net.rules t := by
    intro rs
    induction rs with
    | nil => exact fun _ hr => nomatch hr
    | cons r' rs ih =>
      intro m hr hm
      simp only [keepRules, List.not_mem_nil, if_false]
      rcases List.mem_cons.mp hr with rfl | hr
      · rw [if_neg (by simp [hown]), closePort_sound henv hm, if_neg (by simp)]
        exact fun hx => closePort_ok (closePort_sound henv hm) ht (keepRules_removes hx)
      · split
        · exact ih m hr hm
        · have hrest := ih (m.closePort env r').2 hr (by rwa [closePort_framed.active])
          split <;> exact hrest
  exact hkeep _ n hr hactive

theorem apply_nil_active : (n.apply env k []).2.net.active = n.net.active :=
  apply_framed.active

theorem apply_nil_removes (h : x ∈ (n.apply env k []).2.net.rules t) : x ∈ n.net.rules t :=
  keepRules_removes h

theorem applyAll_takes (henv : env.Sound) {order : List Key} (hk : k ∈ order)
    (hr : r ∈ n.rulesOf k) (hown : r.existing = false)
    (hactive : n.net.active = some r.backend) (ht : t.backend = r.backend) :
    r.port.rule ∉ (order.foldl (fun n k => (n.apply env k []).2) n).net.rules t := by
  have hgone : ∀ (order : List Key) (m : Node), r.port.rule ∉ m.net.rules t →
      r.port.rule ∉ (order.foldl (fun n k => (n.apply env k []).2) m).net.rules t := by
    intro order
    induction order with
    | nil => exact fun _ h => h
    | cons k order ih => exact fun m h => ih _ fun hx => h (apply_nil_removes hx)
  induction order generalizing n with
  | nil => cases hk
  | cons k' order ih =>
    rw [List.foldl_cons]
    by_cases hkey : k = k'
    · subst hkey
      exact hgone order _ (apply_nil_takes henv hr hown hactive ht)
    · refine ih ((List.mem_cons.mp hk).resolve_left hkey) ?_ ?_
      · rwa [apply_rulesOf_ne hkey]
      · rwa [apply_nil_active]

/-- What an `apply` adds to the tables and leaves there is recorded as the agent's own exactly
where each port that it leaves half opened is opened again without an error. And what is recorded so
goes with a `Remove` of the key or when management is turned off, once commands succeed. -/
theorem added_is_recorded : (n.Accounted env k ports ↔ n.OpensWhole env k ports) ∧
    ∀ env', Env.Sound env' → ∀ r ∈ (n.apply env k ports).2.rulesOf k, r.existing = false →
      (n.apply env k ports).2.net.active = some r.backend → ∀ t, t.backend = r.backend →
      r.port.rule ∉ ((n.apply env k ports).2.remove env' k).net.rules t ∧
        ∀ sftpPort order, order.Perm (n.apply env k ports).2.rules.keys →
          r.port.rule ∉
            ((n.apply env k ports).2.configure env' false sftpPort order).2.net.rules t := by
  refine ⟨accounted_iff_opensWhole, ?_⟩
  intro env' henv r hr hown hactive t ht
  have hk := mem_keys_of_rulesOf hr
  constructor
  · rw [remove, if_pos (AList.mem_keys.mpr hk)]
    exact apply_nil_takes henv hr hown hactive ht
  · intro sftpPort order horder
    show r.port.rule ∉ (detect _ env').2.net.rules t
    rw [detect_net]
    exact applyAll_takes (n := { (n.apply env k ports).2 with managed := false }) henv
      (horder.mem_iff.mpr hk) hr hown hactive ht

end Node

/-- firewalld with no rules, on a node that allows its management. -/
def firewalldNode : Node where
  net := {
    ufw := none
    firewalld := some true
    rules := fun _ => ∅ }
  managed := true

/-- The sixth command fails: it would add the runtime rule. -/
def runtimeFails : Env where
  fault n := if n = 5 then
      some { out := "ERROR: timed out".toList, err := .exit "exit status 1".toList, done := false }
    else none
  written _ := true

/-- The permanent rule stays, nothing records it, and a `Remove` leaves it alone. -/
theorem Node.added_unrecorded :
    ¬ firewalldNode.Accounted runtimeFails "instance:3f9a2c1b".toList [⟨30000, .tcp⟩] ∧
      (Port.mk 30000 .tcp).rule ∈
        ((firewalldNode.apply runtimeFails "instance:3f9a2c1b".toList [⟨30000, .tcp⟩]).2.remove
          runtimeFails "instance:3f9a2c1b".toList).net.rules (.firewalld true) := by
  constructor
  · intro h
    obtain ⟨r, hr, _⟩ := h (.firewalld true) (Port.mk 30000 .tcp).rule (by decide +kernel)
      (by decide)
    cases hr
  · decide +kernel

end Firewall
