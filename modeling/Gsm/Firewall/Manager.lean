import Mathlib.Data.List.Perm.Basic
import Gsm.Firewall.Node

/-!
# The agent's firewall manager

`apply`, `remove` and `configure` as the agent runs them, one after another under its mutex, and
`restart`, which reads the state file again. The keys of the state file are walked in any order.
-/

open GoStd

namespace Firewall

abbrev Key := Str

/-- `SFTPKey` -/
def sftpKey : Key := "sftp".toList

/-- `rule` -/
structure Rule where
  port : Port
  backend : Backend
  /-- it was there before the agent looked -/
  existing : Bool
deriving DecidableEq

abbrev Rules := AList fun _ : Key => List Rule

/-- The agent's `Manager`, the firewall it works on and the state file. -/
structure Node where
  net : Net
  /-- how many commands have been run -/
  ran : ℕ := 0
  managed : Bool := false
  rules : Rules := ∅
  /-- the state file, where it can be read -/
  file : Option Rules := none
  /-- how often the state file has been written -/
  saves : ℕ := 0

/-- `m.rules[key]` -/
def Node.rulesOf (n : Node) (k : Key) : List Rule := (n.rules.lookup k).getD []

/-- Run a command. -/
def Node.run (n : Node) (env : Env) (c : Cmd) : Reply × Node :=
  match env.fault n.ran with
  | some f => ({ out := f.out, err := some f.err },
      { n with
        ran := n.ran + 1
        net := if f.done then n.net.effect c else n.net })
  | none => (n.net.answer c,
      { n with
        ran := n.ran + 1
        net := if (n.net.answer c).err.isSome then n.net else n.net.effect c })

/-- `detect`: the active firewall, or why none could be asked -/
def Node.detect (n : Node) (env : Env) : (Option Backend × Option Str) × Node :=
  let ufw := n.run env .ufwStatus
  if ufw.1.err.isNone ∧ "Status: active".toList <:+: ufw.1.out then ((some .ufw, none), ufw.2)
  else
    let fw := ufw.2.run env .fwState
    if trimSpace fw.1.out = "running".toList then ((some .firewalld, none), fw.2)
    else
      let problems := (ufw.1.problem.map ("ufw: ".toList ++ ·)).toList ++
        if "not running".toList <:+: fw.1.out then []
        else (fw.1.problem.map ("firewalld: ".toList ++ ·)).toList
      ((none, if problems = [] then none else some (join "; ".toList problems)), fw.2)

/-- `exists` -/
def Node.isThere (n : Node) (env : Env) (b : Backend) (p : Port) : Except Str Bool × Node :=
  match b with
  | .ufw =>
      let status := n.run env .ufwStatus
      match status.1.error with
      | some e => (.error e, status.2)
      | none => (.ok (∃ a ∈ status.1.rows, a.Covers p), status.2)
  | .firewalld =>
      let runtime := n.run env (.fwQuery false p)
      if trimSpace runtime.1.out = "yes".toList then (.ok true, runtime.2)
      else
        let permanent := runtime.2.run env (.fwQuery true p)
        (.ok (trimSpace permanent.1.out = "yes".toList), permanent.2)

/-- `open`, and the error it returns -/
def Node.openPort (n : Node) (env : Env) (b : Backend) (k : Key) (p : Port) : Option Str × Node :=
  match b with
  | .ufw =>
      let allow := n.run env (.ufwAllow p ("gsm ".toList ++ k))
      (allow.1.error, allow.2)
  | .firewalld =>
      let permanent := n.run env (.fwAdd true p)
      match permanent.1.error with
      | some e => (some e, permanent.2)
      | none =>
          let runtime := permanent.2.run env (.fwAdd false p)
          (runtime.1.error, runtime.2)

/-- `close`, and the error it returns -/
def Node.closePort (n : Node) (env : Env) (r : Rule) : Option Str × Node :=
  match r.backend with
  | .ufw =>
      let delete := n.run env (.ufwDelete r.port)
      (delete.1.error, delete.2)
  | .firewalld =>
      let permanent := n.run env (.fwRemove true r.port)
      let runtime := permanent.2.run env (.fwRemove false r.port)
      let errs := permanent.1.error.toList ++ runtime.1.error.toList
      (if errs = [] then none else some (join "; ".toList errs), runtime.2)

/-- The `state` and `error` of a `protocol.FirewallRule` -/
inductive RuleState where
  | opened
  | existing
  | error (text : Str)
deriving DecidableEq

/-- `protocol.FirewallRule` -/
structure FirewallRule where
  port : Port
  state : RuleState
deriving DecidableEq

/-- `ruleState` -/
def Rule.ruleState (r : Rule) : FirewallRule :=
  ⟨r.port, if r.existing then .existing else .opened⟩

/-- `failed` -/
def failed (p : Port) (text : Str) : FirewallRule := ⟨p, .error text⟩

/-- `protocol.FirewallApplyResult` -/
structure ApplyResult where
  backend : Option Backend
  rules : List FirewallRule
deriving DecidableEq

/-- The first loop of `apply`: which rules of the key are kept. -/
def Node.keepRules (env : Env) (ports : List Port) : List Rule → Node → List Rule × Node
  | [], n => ([], n)
  | r :: rs, n =>
      if r.port ∈ ports then
        let rest := keepRules env ports rs n
        (r :: rest.1, rest.2)
      else if r.existing then keepRules env ports rs n
      else
        let closed := n.closePort env r
        let rest := keepRules env ports rs closed.2
        -- what could not be removed is tried again next time
        if closed.1.isSome then (r :: rest.1, rest.2) else rest

/-- One turn of the second loop: what is reported of a port, and the rules that are kept then. -/
def Node.wantPort (env : Env) (k : Key) (found : Option Backend × Option Str) (p : Port)
    (keep : List Rule) (n : Node) : FirewallRule × List Rule × Node :=
  match keep.find? (·.port = p) with
  | some r => (r.ruleState, keep, n)
  | none =>
      if ¬ n.managed then
        (failed p "Firewall management is off on this node".toList, keep, n)
      else
        match found with
        | (none, some e) => (failed p e, keep, n)
        | (none, none) =>
            (failed p "No ufw or firewalld is active on this node".toList, keep, n)
        | (some b, _) =>
            let there := n.isThere env b p
            match there.1 with
            | .error e => (failed p e, keep, there.2)
            | .ok true =>
                let r : Rule := ⟨p, b, true⟩
                (r.ruleState, keep ++ [r], there.2)
            | .ok false =>
                let opened := there.2.openPort env b k p
                match opened.1 with
                | some e => (failed p e, keep, opened.2)
                | none =>
                    let r : Rule := ⟨p, b, false⟩
                    (r.ruleState, keep ++ [r], opened.2)

/-- The second loop of `apply`. -/
def Node.wantPorts (env : Env) (k : Key) (found : Option Backend × Option Str) :
    List Port → List Rule → Node → List FirewallRule × List Rule × Node
  | [], keep, n => ([], keep, n)
  | p :: ps, keep, n =>
      let first := n.wantPort env k found p keep
      let rest := wantPorts env k found ps first.2.1 first.2.2
      (first.1 :: rest.1, rest.2)

/-- `save` -/
def Node.save (n : Node) (env : Env) : Node :=
  { n with
    file := if env.written n.saves then some n.rules else n.file
    saves := n.saves + 1 }

/-- `m.rules[key] = keep`, or the key goes -/
def Node.record (n : Node) (k : Key) (keep : List Rule) : Node :=
  { n with rules := if keep = [] then n.rules.erase k else n.rules.insert k keep }

/-- Ask for the firewall only where some port is wanted. -/
def Node.detectFor (n : Node) (env : Env) (ports : List Port) :
    (Option Backend × Option Str) × Node :=
  if ports = [] then ((none, none), n) else n.detect env

def Node.apply (n : Node) (env : Env) (k : Key) (ports : List Port) : ApplyResult × Node :=
  let kept := Node.keepRules env ports (n.rulesOf k) n
  let found := kept.2.detectFor env ports
  let wanted := Node.wantPorts env k found.1 ports kept.1 found.2
  (⟨found.1.1, wanted.1⟩, (wanted.2.2.record k wanted.2.1).save env)

/-- `Remove` -/
def Node.remove (n : Node) (env : Env) (k : Key) : Node :=
  if k ∈ n.rules then (n.apply env k []).2 else n

/-- `protocol.FirewallStatus` -/
structure FirewallStatus where
  managed : Bool
  backend : Option Backend
  error : Option Str
  sftp : List FirewallRule

/-- The ports that the SFTP key gets. -/
def sftpPorts (sftpPort : Option ℕ) : List Port := (sftpPort.map (⟨·, .tcp⟩)).toList

/-- `Configure`, with the order in which it walks the keys -/
def Node.configure (n : Node) (env : Env) (managed : Bool) (sftpPort : Option ℕ)
    (order : List Key) : FirewallStatus × Node :=
  let n := { n with managed := managed }
  let applied := if managed then n.apply env sftpKey (sftpPorts sftpPort)
    else (⟨none, []⟩, order.foldl (fun n k => (n.apply env k []).2) n)
  let found := applied.2.detect env
  (⟨managed, found.1.1, found.1.2, applied.1.rules⟩, found.2)

/-- `New`, after the agent has stopped -/
def Node.restart (n : Node) : Node :=
  { n with
    managed := false
    rules := n.file.getD ∅ }

/-- A call of the manager, or a restart of the agent. -/
inductive Call where
  | apply (k : Key) (ports : List Port)
  | remove (k : Key)
  | configure (managed : Bool) (sftpPort : Option ℕ) (order : List Key)
  | restart

/-- The state after a call. Turned off, the keys are walked in the order that the call gives. -/
def Node.step (env : Env) (n : Node) : Call → Option Node
  | .apply k ports => some (n.apply env k ports).2
  | .remove k => some (n.remove env k)
  | .configure managed sftpPort order =>
      if managed ∨ order.Perm n.rules.keys then some (n.configure env managed sftpPort order).2
      else none
  | .restart => some n.restart

/-! ## What the commands leave alone -/

/-- Commands have been run, and nothing else has happened. -/
structure Node.Framed (n n' : Node) : Prop where
  ufw : n'.net.ufw = n.net.ufw
  firewalld : n'.net.firewalld = n.net.firewalld
  managed : n'.managed = n.managed
  rules : n'.rules = n.rules
  file : n'.file = n.file
  saves : n'.saves = n.saves

variable {n n' n'' : Node} {env : Env} {c : Cmd} {k k' : Key} {p : Port} {r : Rule} {b : Backend}
  {t : Table} {x : Allow} {ports : List Port} {found : Option Backend × Option Str}
  {keep rs : List Rule}

namespace Node

theorem Framed.refl (n : Node) : n.Framed n := ⟨rfl, rfl, rfl, rfl, rfl, rfl⟩

theorem Framed.trans (h : n.Framed n') (h' : n'.Framed n'') : n.Framed n'' :=
  ⟨h'.ufw.trans h.ufw, h'.firewalld.trans h.firewalld, h'.managed.trans h.managed,
    h'.rules.trans h.rules, h'.file.trans h.file, h'.saves.trans h.saves⟩

theorem Framed.rulesOf (h : n.Framed n') : n'.rulesOf k = n.rulesOf k := by
  rw [Node.rulesOf, Node.rulesOf, h.rules]

theorem run_net (n : Node) (env : Env) (c : Cmd) :
    (n.run env c).2.net = n.net ∨ (n.run env c).2.net = n.net.effect c := by
  rw [run]
  split
  · next f _ =>
    by_cases h : f.done
    · right
      show (if f.done then _ else _) = _
      rw [if_pos h]
    · left
      show (if f.done then _ else _) = _
      rw [if_neg h]
  · by_cases h : (n.net.answer c).err.isSome
    · left
      show (if _ then _ else _) = _
      rw [if_pos h]
    · right
      show (if _ then _ else _) = _
      rw [if_neg h]

/-- A command that reports no error has had its effect. -/
theorem run_net_of_ok (h : (n.run env c).1.error = none) :
    (n.run env c).2.net = n.net.effect c := by
  rw [run] at h ⊢
  split at h
  · simp [Reply.error] at h
  · show (if _ then _ else _) = _
    rw [if_neg]
    simpa [Reply.error] using h

theorem run_framed : n.Framed (n.run env c).2 := by
  have hnet : (n.net.effect c).ufw = n.net.ufw ∧ (n.net.effect c).firewalld = n.net.firewalld := by
    cases c <;> exact ⟨rfl, rfl⟩
  constructor
  · rcases run_net n env c with h | h <;> rw [h]
    exact hnet.1
  · rcases run_net n env c with h | h <;> rw [h]
    exact hnet.2
  all_goals
    rw [run]
    split <;> rfl

theorem detect_framed : n.Framed (n.detect env).2 := by
  rw [detect]
  simp only
  split
  · exact run_framed
  · split <;> exact run_framed.trans run_framed

theorem detectFor_framed : n.Framed (n.detectFor env ports).2 := by
  rw [detectFor]
  split
  · exact Framed.refl n
  · exact detect_framed

theorem isThere_framed : n.Framed (n.isThere env b p).2 := by
  cases b with
  | ufw =>
    simp only [isThere]
    split <;> exact run_framed
  | firewalld =>
    simp only [isThere]
    split
    · exact run_framed
    · exact run_framed.trans run_framed

theorem openPort_framed : n.Framed (n.openPort env b k p).2 := by
  cases b with
  | ufw => exact run_framed
  | firewalld =>
    simp only [openPort]
    split
    · exact run_framed
    · exact run_framed.trans run_framed

theorem closePort_framed : n.Framed (n.closePort env r).2 := by
  rw [closePort]
  split
  · exact run_framed
  · exact run_framed.trans run_framed

theorem keepRules_framed : n.Framed (keepRules env ports rs n).2 := by
  induction rs generalizing n with
  | nil => exact Framed.refl n
  | cons r rs ih =>
    simp only [keepRules]
    split
    · exact ih
    · split
      · exact ih
      · split <;> exact closePort_framed.trans ih

theorem wantPort_framed : n.Framed (n.wantPort env k found p keep).2.2 := by
  unfold wantPort
  split
  · exact Framed.refl n
  · split
    · exact Framed.refl n
    · split
      · exact Framed.refl n
      · exact Framed.refl n
      · simp only
        split
        · exact isThere_framed
        · exact isThere_framed
        · split <;> exact isThere_framed.trans openPort_framed

theorem wantPorts_framed : n.Framed (wantPorts env k found ports keep n).2.2 := by
  induction ports generalizing keep n with
  | nil => exact Framed.refl n
  | cons p ps ih => exact wantPort_framed.trans ih

/-! ## What they change in the tables -/

theorem mem_run_of_mem (hc : x ∈ n.net.rules t → x ∈ (n.net.effect c).rules t)
    (h : x ∈ n.net.rules t) : x ∈ (n.run env c).2.net.rules t := by
  rcases run_net n env c with hr | hr <;> rw [hr]
  · exact h
  · exact hc h

theorem mem_of_mem_run {Q : Prop} (hc : x ∈ (n.net.effect c).rules t → x ∈ n.net.rules t ∨ Q)
    (h : x ∈ (n.run env c).2.net.rules t) : x ∈ n.net.rules t ∨ Q := by
  rcases run_net n env c with hr | hr <;> rw [hr] at h
  · exact .inl h
  · exact hc h

/-- A command that asks changes no table. -/
theorem run_net_of_asks (hc : n.net.effect c = n.net) : (n.run env c).2.net = n.net := by
  rcases run_net n env c with h | h
  · exact h
  · rw [h, hc]

theorem detect_net : (n.detect env).2.net = n.net := by
  rw [detect]
  simp only
  split
  · exact run_net_of_asks rfl
  · split <;> exact (run_net_of_asks rfl).trans (run_net_of_asks rfl)

theorem detectFor_net : (n.detectFor env ports).2.net = n.net := by
  rw [detectFor]
  split
  · rfl
  · exact detect_net

theorem isThere_net : (n.isThere env b p).2.net = n.net := by
  cases b with
  | ufw =>
    simp only [isThere]
    split <;> exact run_net_of_asks rfl
  | firewalld =>
    simp only [isThere]
    split
    · exact run_net_of_asks rfl
    · exact (run_net_of_asks rfl).trans (run_net_of_asks rfl)

/-- Opening a port takes no rule away. -/
theorem openPort_keeps (h : x ∈ n.net.rules t) : x ∈ (n.openPort env b k p).2.net.rules t := by
  have hadd : ∀ m : Node, ∀ c, (∀ net : Net, x ∈ net.rules t → x ∈ (net.effect c).rules t) →
      x ∈ m.net.rules t → x ∈ (m.run env c).2.net.rules t :=
    fun m c hc => mem_run_of_mem (hc m.net)
  cases b with
  | ufw => exact hadd n _ (fun net hx => Net.mem_add.mpr (.inl hx)) h
  | firewalld =>
    have hfirst := hadd n (.fwAdd true p) (fun net hx => Net.mem_add.mpr (.inl hx)) h
    simp only [openPort]
    split
    · exact hfirst
    · exact hadd _ _ (fun net hx => Net.mem_add.mpr (.inl hx)) hfirst

/-- Opening a port adds its own rule at most, in the tables of its firewall. -/
theorem openPort_adds (h : x ∈ (n.openPort env b k p).2.net.rules t) :
    x ∈ n.net.rules t ∨ t.backend = b ∧ x = p.rule := by
  cases b with
  | ufw =>
    refine mem_of_mem_run (fun hx => ?_) h
    exact (Net.mem_add.mp hx).imp_right fun ⟨ht, hp⟩ => ⟨ht ▸ rfl, hp⟩
  | firewalld =>
    have hadd : ∀ m : Node, ∀ permanent, x ∈ (m.run env (.fwAdd permanent p)).2.net.rules t →
        x ∈ m.net.rules t ∨ t.backend = .firewalld ∧ x = p.rule := by
      intro m permanent hx
      refine mem_of_mem_run (fun hx => ?_) hx
      exact (Net.mem_add.mp hx).imp_right fun ⟨ht, hp⟩ => ⟨ht ▸ rfl, hp⟩
    simp only [openPort] at h
    split at h
    · exact hadd n true h
    · rcases hadd _ false h with h | h
      · exact hadd n true h
      · exact .inr h

/-- A port that was opened without an error has its rule in each of the tables. -/
theorem openPort_ok (h : (n.openPort env b k p).1 = none) (ht : t.backend = b) :
    p.rule ∈ (n.openPort env b k p).2.net.rules t := by
  cases t with
  | ufw =>
    subst ht
    show p.rule ∈ (n.run env _).2.net.rules .ufw
    rw [run_net_of_ok h]
    exact Net.mem_add.mpr (.inr ⟨rfl, rfl⟩)
  | firewalld permanent =>
    subst ht
    simp only [openPort, Table.backend] at h ⊢
    split at h
    · cases h
    · next hfirst =>
      rw [run_net_of_ok h]
      apply Net.mem_add.mpr
      cases permanent with
      | false => exact .inr ⟨rfl, rfl⟩
      | true =>
        left
        rw [run_net_of_ok hfirst]
        exact Net.mem_add.mpr (.inr ⟨rfl, rfl⟩)

/-- Closing adds no rule. -/
theorem closePort_removes (h : x ∈ (n.closePort env r).2.net.rules t) : x ∈ n.net.rules t := by
  have hremove : ∀ m : Node, ∀ c, (∀ net : Net, x ∈ (net.effect c).rules t → x ∈ net.rules t) →
      x ∈ (m.run env c).2.net.rules t → x ∈ m.net.rules t := by
    intro m c hc hx
    exact (mem_of_mem_run (fun h => .inl (hc m.net h)) hx).elim id False.elim
  rw [closePort] at h
  split at h
  · exact hremove n _ (fun net hx => (Net.mem_remove.mp hx).1) h
  · apply hremove n (.fwRemove true r.port) fun net hx => (Net.mem_remove.mp hx).1
    exact hremove _ _ (fun net hx => (Net.mem_remove.mp hx).1) h

/-- Closing takes one rule away at most. -/
theorem closePort_keeps (h : x ∈ n.net.rules t)
    (hx : ¬ (t.backend = r.backend ∧ x = r.port.rule)) :
    x ∈ (n.closePort env r).2.net.rules t := by
  rw [closePort]
  split
  · next hb =>
    refine mem_run_of_mem (fun h => Net.mem_remove.mpr ⟨h, ?_⟩) h
    rintro ⟨rfl, rfl⟩
    exact hx ⟨hb.symm, rfl⟩
  · next hb =>
    have hother : ∀ permanent, ¬ (t = .firewalld permanent ∧ x = r.port.rule) := by
      rintro permanent ⟨rfl, rfl⟩
      exact hx ⟨hb.symm, rfl⟩
    have hfirst : x ∈ (n.run env (.fwRemove true r.port)).2.net.rules t :=
      mem_run_of_mem (fun h => Net.mem_remove.mpr ⟨h, hother true⟩) h
    exact mem_run_of_mem (fun h => Net.mem_remove.mpr ⟨h, hother false⟩) hfirst

/-- A rule that was closed without an error is in none of the tables. -/
theorem closePort_ok (h : (n.closePort env r).1 = none) (ht : t.backend = r.backend) :
    r.port.rule ∉ (n.closePort env r).2.net.rules t := by
  intro hx
  rw [closePort] at h hx
  cases t with
  | ufw =>
    rw [← ht] at h hx
    simp only [Table.backend] at h hx
    rw [run_net_of_ok h] at hx
    exact (Net.mem_remove.mp hx).2 ⟨rfl, rfl⟩
  | firewalld permanent =>
    rw [← ht] at h hx
    simp only [Table.backend] at h hx
    -- both commands have ended well, for their errors are joined
    have herrs : (n.run env (.fwRemove true r.port)).1.error = none ∧
        ((n.run env (.fwRemove true r.port)).2.run env (.fwRemove false r.port)).1.error = none := by
      simpa [Option.toList_eq_nil_iff] using h
    rw [run_net_of_ok herrs.2] at hx
    obtain ⟨hx, hfalse⟩ := Net.mem_remove.mp hx
    cases permanent with
    | false => exact hfalse ⟨rfl, rfl⟩
    | true =>
      rw [run_net_of_ok herrs.1] at hx
      exact (Net.mem_remove.mp hx).2 ⟨rfl, rfl⟩

end Node

end Firewall
