import Gsm.Firewall.Manager

/-!
# What `apply` does

The two loops of `apply`, each by what one turn does: `Turn` lists the outcomes of `wantPort`. The
second part is about commands that do not fail: then the tools answer what is so, and only the rules
that are no longer wanted are dropped.
-/

open GoStd

namespace Firewall

variable {n n' : Node} {env : Env} {k k' : Key} {p : Port} {r : Rule} {b : Backend} {t : Table}
  {x : Allow} {ports : List Port} {found : Option Backend × Option Str} {keep rs : List Rule}
  {res : FirewallRule × List Rule × Node}

namespace Node

/-! ## The first loop -/

theorem keepRules_subset (h : r ∈ (keepRules env ports rs n).1) : r ∈ rs := by
  induction rs generalizing n with
  | nil => exact h
  | cons r' rs ih =>
    simp only [keepRules] at h
    split at h
    · rcases List.mem_cons.mp h with rfl | h
      · exact List.mem_cons_self
      · exact List.mem_cons_of_mem _ (ih h)
    · split at h
      · exact List.mem_cons_of_mem _ (ih h)
      · split at h
        · rcases List.mem_cons.mp h with rfl | h
          · exact List.mem_cons_self
          · exact List.mem_cons_of_mem _ (ih h)
        · exact List.mem_cons_of_mem _ (ih h)

theorem keepRules_removes (h : x ∈ (keepRules env ports rs n).2.net.rules t) :
    x ∈ n.net.rules t := by
  induction rs generalizing n with
  | nil => exact h
  | cons r rs ih =>
    simp only [keepRules] at h
    split at h
    · exact ih h
    · split at h
      · exact ih h
      · split at h <;> exact closePort_removes (ih h)

/-- Only rules of the agent that are no longer wanted are taken away. -/
theorem keepRules_keeps (h : x ∈ n.net.rules t)
    (hx : ∀ r ∈ rs, r.existing = false → r.port ∉ ports →
      ¬ (t.backend = r.backend ∧ x = r.port.rule)) :
    x ∈ (keepRules env ports rs n).2.net.rules t := by
  induction rs generalizing n with
  | nil => exact h
  | cons r rs ih =>
    have hrest : ∀ r' ∈ rs, r'.existing = false → r'.port ∉ ports →
        ¬ (t.backend = r'.backend ∧ x = r'.port.rule) :=
      fun r' hr' => hx r' (List.mem_cons_of_mem _ hr')
    simp only [keepRules]
    split
    · exact ih h hrest
    · next hp =>
      split
      · exact ih h hrest
      · next hown =>
        have hclosed : x ∈ (n.closePort env r).2.net.rules t :=
          closePort_keeps h (hx r List.mem_cons_self (by simpa using hown) hp)
        split <;> exact ih hclosed hrest

/-! ## The second loop -/

/-- What one turn of the second loop can do. -/
inductive Turn (env : Env) (k : Key) (found : Option Backend × Option Str) (p : Port)
    (keep : List Rule) (n : Node) : FirewallRule × List Rule × Node → Prop where
  /-- the port has a rule already -/
  | kept (r : Rule) (hr : r ∈ keep) (hp : r.port = p) : Turn env k found p keep n
      (r.ruleState, keep, n)
  /-- nothing was tried, or the firewall did not say what is there -/
  | refused (hnew : ∀ r ∈ keep, r.port ≠ p) (e : Str) (n' : Node) (hn : n.Framed n')
      (hnet : n'.net = n.net) : Turn env k found p keep n (failed p e, keep, n')
  /-- another rule allows the port -/
  | found (hnew : ∀ r ∈ keep, r.port ≠ p) (hm : n.managed = true) (b : Backend)
      (hb : found.1 = some b) (hthere : (n.isThere env b p).1 = .ok true) :
      Turn env k found p keep n
        (⟨p, .existing⟩, keep ++ [⟨p, b, true⟩], (n.isThere env b p).2)
  /-- opening the port fails -/
  | unopened (hnew : ∀ r ∈ keep, r.port ≠ p) (hm : n.managed = true) (b : Backend)
      (hb : found.1 = some b) (hthere : (n.isThere env b p).1 = .ok false) (e : Str)
      (hopen : ((n.isThere env b p).2.openPort env b k p).1 = some e) :
      Turn env k found p keep n
        (failed p e, keep, ((n.isThere env b p).2.openPort env b k p).2)
  /-- the port is opened -/
  | opened (hnew : ∀ r ∈ keep, r.port ≠ p) (hm : n.managed = true) (b : Backend)
      (hb : found.1 = some b) (hthere : (n.isThere env b p).1 = .ok false)
      (hopen : ((n.isThere env b p).2.openPort env b k p).1 = none) :
      Turn env k found p keep n
        (⟨p, .opened⟩, keep ++ [⟨p, b, false⟩], ((n.isThere env b p).2.openPort env b k p).2)

theorem wantPort_turn : Turn env k found p keep n (n.wantPort env k found p keep) := by
  unfold wantPort
  split
  · next r hr =>
    exact .kept r (List.mem_of_find?_eq_some hr) (by simpa using List.find?_some hr)
  · next hr =>
    have hnew : ∀ r ∈ keep, r.port ≠ p := by simpa using hr
    split
    · exact .refused hnew _ n (Framed.refl n) rfl
    · next hm =>
      split
      · exact .refused hnew _ n (Framed.refl n) rfl
      · exact .refused hnew _ n (Framed.refl n) rfl
      · next b _ =>
        simp only
        split
        · exact .refused hnew _ _ isThere_framed isThere_net
        · next hthere => exact .found hnew (by simpa using hm) b rfl hthere
        · next hthere =>
          split
          · next hopen => exact .unopened hnew (by simpa using hm) b rfl hthere _ hopen
          · next hopen => exact .opened hnew (by simpa using hm) b rfl hthere hopen

theorem Turn.keep_subset (h : Turn env k found p keep n res) (hr : r ∈ keep) : r ∈ res.2.1 := by
  cases h with
  | kept => exact hr
  | refused => exact hr
  | found => exact List.mem_append_left _ hr
  | unopened => exact hr
  | opened => exact List.mem_append_left _ hr

theorem Turn.keeps (h : Turn env k found p keep n res) (hx : x ∈ n.net.rules t) :
    x ∈ res.2.2.net.rules t := by
  cases h with
  | kept => exact hx
  | refused _ e n' _ hnet =>
    show x ∈ n'.net.rules t
    rw [hnet]
    exact hx
  | found => rwa [isThere_net]
  | unopened => exact openPort_keeps (by rwa [isThere_net])
  | opened => exact openPort_keeps (by rwa [isThere_net])

/-- What is reported open or existing has a rule in the list. -/
theorem Turn.reported (h : Turn env k found p keep n res) (hs : ∀ e, res.1.state ≠ .error e) :
    res.1.port = p ∧ ∃ r ∈ res.2.1, r.port = p := by
  cases h with
  | kept r hr hp => exact ⟨hp, r, hr, hp⟩
  | refused _ e => exact absurd rfl (hs e)
  | found => exact ⟨rfl, _, List.mem_append_right _ (List.mem_singleton_self _), rfl⟩
  | unopened _ _ _ _ _ e => exact absurd rfl (hs e)
  | opened => exact ⟨rfl, _, List.mem_append_right _ (List.mem_singleton_self _), rfl⟩

theorem wantPorts_keep_subset (hr : r ∈ keep) :
    r ∈ (wantPorts env k found ports keep n).2.1 := by
  induction ports generalizing keep n with
  | nil => exact hr
  | cons p ps ih => exact ih (wantPort_turn.keep_subset hr)

theorem wantPorts_keeps (hx : x ∈ n.net.rules t) :
    x ∈ (wantPorts env k found ports keep n).2.2.net.rules t := by
  induction ports generalizing keep n with
  | nil => exact hx
  | cons p ps ih => exact ih (wantPort_turn.keeps hx)

theorem wantPorts_reported {f : FirewallRule}
    (hf : f ∈ (wantPorts env k found ports keep n).1) (hs : ∀ e, f.state ≠ .error e) :
    ∃ r ∈ (wantPorts env k found ports keep n).2.1, r.port = f.port := by
  induction ports generalizing keep n with
  | nil => cases hf
  | cons p ps ih =>
    rcases List.mem_cons.mp hf with rfl | hf
    · obtain ⟨hp, r, hr, hrp⟩ := wantPort_turn.reported hs
      have hkeep : r ∈ (wantPorts env k found ps (n.wantPort env k found p keep).2.1
          (n.wantPort env k found p keep).2.2).2.1 := wantPorts_keep_subset hr
      exact ⟨r, hkeep, hrp.trans hp.symm⟩
    · exact ih hf

/-! ## The rules of the other keys -/

theorem mem_keys_of_rulesOf (h : r ∈ n.rulesOf k) : k ∈ n.rules.keys := by
  rw [← AList.mem_keys, ← AList.lookup_isSome]
  rw [rulesOf] at h
  cases hlookup : n.rules.lookup k with
  | none =>
    rw [hlookup] at h
    cases h
  | some rs => rfl

theorem record_rulesOf :
    (n.record k keep).rulesOf k' = if k' = k then keep else n.rulesOf k' := by
  rw [rulesOf, record]
  split
  · next hkeep =>
    split
    · next hk => rw [hk, AList.lookup_erase, hkeep]; rfl
    · next hk =>
      rw [AList.lookup_erase_ne hk]
      rfl
  · split
    · next hk => rw [hk, AList.lookup_insert]; rfl
    · next hk =>
      rw [AList.lookup_insert_ne hk]
      rfl

theorem apply_rulesOf_self : (n.apply env k ports).2.rulesOf k =
    (wantPorts env k ((keepRules env ports (n.rulesOf k) n).2.detectFor env ports).1 ports
      (keepRules env ports (n.rulesOf k) n).1
      ((keepRules env ports (n.rulesOf k) n).2.detectFor env ports).2).2.1 := by
  show (record _ k _).rulesOf k = _
  rw [record_rulesOf, if_pos rfl]

/-- The commands of an `apply`. -/
theorem apply_framed : n.Framed
    (wantPorts env k ((keepRules env ports (n.rulesOf k) n).2.detectFor env ports).1 ports
      (keepRules env ports (n.rulesOf k) n).1
      ((keepRules env ports (n.rulesOf k) n).2.detectFor env ports).2).2.2 :=
  (keepRules_framed.trans detectFor_framed).trans wantPorts_framed

theorem apply_rulesOf_ne (h : k' ≠ k) : (n.apply env k ports).2.rulesOf k' = n.rulesOf k' := by
  show (record _ k _).rulesOf k' = _
  rw [record_rulesOf, if_neg h, apply_framed.rulesOf]

/-- Only rules of the agent that are no longer wanted for the key are taken away. -/
theorem apply_keeps (h : x ∈ n.net.rules t)
    (hx : ∀ r ∈ n.rulesOf k, r.existing = false → r.port ∉ ports →
      ¬ (t.backend = r.backend ∧ x = r.port.rule)) :
    x ∈ (n.apply env k ports).2.net.rules t := by
  show x ∈ (wantPorts _ _ _ _ _ _).2.2.net.rules t
  apply wantPorts_keeps
  rw [detectFor_net]
  exact keepRules_keeps h hx

theorem apply_reported {f : FirewallRule} (hf : f ∈ (n.apply env k ports).1.rules)
    (hs : ∀ e, f.state ≠ .error e) : ∃ r ∈ (n.apply env k ports).2.rulesOf k, r.port = f.port := by
  rw [apply_rulesOf_self]
  exact wantPorts_reported hf hs

end Node

/-! ## Commands that do not fail -/

/-- The firewall that `detect` finds. -/
def Net.active (net : Net) : Option Backend :=
  if net.ufw = some true then some .ufw
  else if net.firewalld = some true then some .firewalld else none

/-- Some rule of the firewall allows the port. -/
def Net.Covers (net : Net) (b : Backend) (p : Port) : Prop :=
  ∃ t, t.backend = b ∧ ∃ a ∈ net.rules t, a.Covers p

namespace Node

theorem Framed.active (h : n.Framed n') : n'.net.active = n.net.active := by
  rw [Net.active, Net.active, h.ufw, h.firewalld]

theorem run_sound (henv : env.Sound) (c : Cmd) : (n.run env c).1 = n.net.answer c := by
  rw [run, henv.fault]

theorem active_eq_ufw : n.net.active = some .ufw ↔ n.net.ufw = some true := by
  rw [Net.active]
  split
  · next h => simp [h]
  · next h => split <;> simp [h]

theorem active_eq_firewalld :
    n.net.active = some .firewalld ↔ n.net.ufw ≠ some true ∧ n.net.firewalld = some true := by
  rw [Net.active]
  split
  · next h => simp [h]
  · next h => split <;> simp_all

theorem ufwStatus_sound (henv : env.Sound) :
    ((n.run env .ufwStatus).1.err.isNone ∧
        "Status: active".toList <:+: (n.run env .ufwStatus).1.out ↔ n.net.ufw = some true) ∧
      (n.run env .ufwStatus).1.problem = none := by
  rw [run_sound henv, Net.answer, Net.ufwReply]
  have hactive : "Status: active".toList <:+: "Status: active\n".toList := by decide
  have hinactive : ¬ "Status: active".toList <:+: "Status: inactive\n".toList := by decide
  cases n.net.ufw with
  | none => exact ⟨iff_of_false (fun h => nomatch h.1) nofun, rfl⟩
  | some active =>
    cases active with
    | false => exact ⟨iff_of_false (fun h => hinactive h.2) nofun, rfl⟩
    | true => exact ⟨iff_of_true ⟨rfl, hactive⟩ rfl, rfl⟩

theorem fwState_sound (henv : env.Sound) :
    (trimSpace (n.run env .fwState).1.out = "running".toList ↔ n.net.firewalld = some true) ∧
      ("not running".toList <:+: (n.run env .fwState).1.out ∨
        (n.run env .fwState).1.problem = none) := by
  rw [run_sound henv, Net.answer, Net.fwReply]
  cases n.net.firewalld with
  | none => exact ⟨by decide, .inr rfl⟩
  | some running =>
    cases running with
    | false => exact ⟨by decide, .inl (by decide)⟩
    | true => exact ⟨by decide, .inr rfl⟩

theorem detect_sound (henv : env.Sound) : (n.detect env).1 = (n.net.active, none) := by
  have hufw := ufwStatus_sound (n := n) henv
  have hfw := fwState_sound (n := (n.run env .ufwStatus).2) henv
  have hframe : n.Framed (n.run env .ufwStatus).2 := run_framed
  rw [hframe.firewalld] at hfw
  rw [detect, Net.active]
  simp only
  by_cases h : n.net.ufw = some true
  · rw [if_pos (hufw.1.mpr h), if_pos h]
  · rw [if_neg fun h' => h (hufw.1.mp h'), if_neg h]
    by_cases h' : n.net.firewalld = some true
    · rw [if_pos (hfw.1.mpr h'), if_pos h']
    · rw [if_neg fun h'' => h' (hfw.1.mp h''), if_neg h']
      rcases hfw.2 with hout | hprob
      · rw [hufw.2, if_pos hout]
        rfl
      · rw [hufw.2, hprob]
        split <;> rfl

/-- A backend that was found, where one was asked for, is the active one. -/
theorem detectFor_sound (henv : env.Sound) (b : Backend)
    (h : (n.detectFor env ports).1.1 = some b) :
    (n.detectFor env ports).2.net.active = some b := by
  rw [detectFor] at h
  split at h
  · cases h
  · rw [detect_sound henv] at h
    rw [detectFor_framed.active]
    exact h

/-- Asked whether a port is allowed, the active firewall says what is so. -/
theorem isThere_sound (henv : env.Sound) (hb : n.net.active = some b) :
    ∃ v, (n.isThere env b p).1 = .ok v ∧ (v = true ↔ n.net.Covers b p) := by
  cases b with
  | ufw =>
    have hreply : (n.run env .ufwStatus).1 =
        { out := "Status: active\n".toList, rows := n.net.rules .ufw } := by
      rw [run_sound henv, Net.answer, Net.ufwReply, active_eq_ufw.mp hb]
      rfl
    refine ⟨decide (∃ a ∈ n.net.rules .ufw, a.Covers p), ?_, ?_⟩
    · rw [isThere]
      simp only [hreply, Reply.error, Option.map_none]
    · rw [decide_eq_true_iff]
      constructor
      · exact fun h => ⟨.ufw, rfl, h⟩
      · rintro ⟨t, ht, h⟩
        cases t with
        | ufw => exact h
        | firewalld => cases ht
  | firewalld =>
    have hquery : ∀ m : Node, m.net = n.net → ∀ permanent,
        trimSpace (m.run env (.fwQuery permanent p)).1.out = "yes".toList ↔
          ∃ a ∈ n.net.rules (.firewalld permanent), a.Covers p := by
      intro m hm permanent
      rw [run_sound henv, Net.answer, Net.fwReply, hm, (active_eq_firewalld.mp hb).2]
      by_cases h : ∃ a ∈ n.net.rules (.firewalld permanent), a.Covers p
      · simp only [h, iff_true]
        decide
      · simp only [h, iff_false]
        decide
    have hruntime := hquery n rfl false
    have hasks : (n.run env (.fwQuery false p)).2.net = n.net := run_net_of_asks rfl
    have hpermanent := hquery _ hasks true
    rw [isThere]
    simp only
    by_cases h : ∃ a ∈ n.net.rules (.firewalld false), a.Covers p
    · rw [if_pos (hruntime.mpr h)]
      exact ⟨true, rfl, by simpa using ⟨.firewalld false, rfl, h⟩⟩
    · rw [if_neg fun h' => h (hruntime.mp h')]
      refine ⟨_, rfl, ?_⟩
      rw [decide_eq_true_iff, hpermanent]
      constructor
      · exact fun h => ⟨.firewalld true, rfl, h⟩
      · rintro ⟨t, ht, h'⟩
        rcases t with _ | permanent
        · cases ht
        · cases permanent with
          | false => exact absurd h' h
          | true => exact h'

theorem openPort_sound (henv : env.Sound) (hb : n.net.active = some b) :
    (n.openPort env b k p).1 = none := by
  cases b with
  | ufw =>
    show (n.run env _).1.error = none
    rw [run_sound henv, Net.answer, Net.ufwReply, active_eq_ufw.mp hb]
    rfl
  | firewalld =>
    have hrun : ∀ m : Node, m.net.firewalld = n.net.firewalld → ∀ permanent,
        (m.run env (.fwAdd permanent p)).1.error = none := by
      intro m hm permanent
      rw [run_sound henv, Net.answer, Net.fwReply, hm, (active_eq_firewalld.mp hb).2]
      rfl
    simp only [openPort, hrun n rfl true]
    exact hrun _ run_framed.firewalld false

theorem closePort_sound (henv : env.Sound) (hb : n.net.active = some r.backend) :
    (n.closePort env r).1 = none := by
  rw [closePort]
  split
  · next hr =>
    rw [hr] at hb
    show (n.run env _).1.error = none
    rw [run_sound henv, Net.answer, Net.ufwReply, active_eq_ufw.mp hb]
    rfl
  · next hr =>
    rw [hr] at hb
    have hrun : ∀ m : Node, m.net.firewalld = n.net.firewalld → ∀ permanent,
        (m.run env (.fwRemove permanent r.port)).1.error = none := by
      intro m hm permanent
      rw [run_sound henv, Net.answer, Net.fwReply, hm, (active_eq_firewalld.mp hb).2]
      rfl
    simp only [hrun n rfl true, hrun _ run_framed.firewalld false]
    rfl

/-- Only what is wanted is kept. -/
theorem keepRules_sound (henv : env.Sound) (hactive : ∀ r ∈ rs, n.net.active = some r.backend)
    (hr : r ∈ (keepRules env ports rs n).1) : r.port ∈ ports := by
  induction rs generalizing n with
  | nil => cases hr
  | cons r' rs ih =>
    have hrest : ∀ r ∈ rs, n.net.active = some r.backend :=
      fun r hr => hactive r (List.mem_cons_of_mem r' hr)
    simp only [keepRules] at hr
    split at hr
    · next hp =>
      rcases List.mem_cons.mp hr with rfl | hr
      · exact hp
      · exact ih hrest hr
    · split at hr
      · exact ih hrest hr
      · rw [closePort_sound henv (hactive r' List.mem_cons_self), if_neg (by simp)] at hr
        apply ih _ hr
        rwa [closePort_framed.active]

end Node

end Firewall
