import Mathlib.Data.Finset.Insert
import Mathlib.Data.Finset.Erase
import Mathlib.Data.List.AList
import Mathlib.Data.List.Infix
import Gsm.GoStd.Path

/-!
# The firewall of a node

ufw and firewalld as tables of rules, and the commands that the agent runs on them. A rule allows a
range of ports from anywhere; adding a rule that is there and removing one that is not change
nothing. A command can fail, and `Env` says which do: a failing command may have had its effect.
-/

open GoStd

namespace Firewall

inductive Proto where
  | tcp
  | udp
deriving DecidableEq

/-- `protocol.FirewallPort` -/
structure Port where
  port : ℕ
  protocol : Proto
deriving DecidableEq

/-- A rule that allows ports from anywhere, for one protocol or for both. -/
structure Allow where
  lo : ℕ
  hi : ℕ
  protocol : Option Proto
deriving DecidableEq

/-- The rule covers the port. -/
def Allow.Covers (a : Allow) (p : Port) : Prop :=
  a.lo ≤ p.port ∧ p.port ≤ a.hi ∧ (a.protocol = none ∨ a.protocol = some p.protocol)

instance (a : Allow) (p : Port) : Decidable (a.Covers p) :=
  inferInstanceAs (Decidable (_ ∧ _ ∧ _))

/-- The rule for one port, as the agent writes it (`spec`). -/
def Port.rule (p : Port) : Allow := ⟨p.port, p.port, some p.protocol⟩

theorem Port.rule_covers {p q : Port} : p.rule.Covers q ↔ q = p := by
  obtain ⟨n, a⟩ := p
  obtain ⟨m, b⟩ := q
  simp only [Allow.Covers, Port.rule, reduceCtorEq, false_or, Option.some.injEq, Port.mk.injEq]
  constructor
  · rintro ⟨h₁, h₂, h₃⟩
    exact ⟨by omega, h₃.symm⟩
  · rintro ⟨rfl, rfl⟩
    exact ⟨le_rfl, le_rfl, rfl⟩

theorem Port.rule_injective : Function.Injective Port.rule := by
  intro p q h
  exact Port.rule_covers.mp (h ▸ Port.rule_covers.mpr rfl)

inductive Backend where
  | ufw
  | firewalld
deriving DecidableEq

/-- Where rules stand: ufw has one table, firewalld a permanent and a runtime one. -/
inductive Table where
  | ufw
  | firewalld (permanent : Bool)
deriving DecidableEq

def Table.backend : Table → Backend
  | .ufw => .ufw
  | .firewalld _ => .firewalld

/-- The two tools. -/
structure Net where
  /-- whether ufw is active; none when it is not installed -/
  ufw : Option Bool
  /-- whether firewalld is running; none when it is not installed -/
  firewalld : Option Bool
  rules : Table → Finset Allow

inductive Cmd where
  /-- `ufw status` -/
  | ufwStatus
  /-- `ufw allow` -/
  | ufwAllow (p : Port) (comment : Str)
  /-- `ufw delete allow` -/
  | ufwDelete (p : Port)
  /-- `firewall-cmd --state` -/
  | fwState
  /-- `firewall-cmd --query-port`, with `--permanent` or without -/
  | fwQuery (permanent : Bool) (p : Port)
  /-- `firewall-cmd --add-port` -/
  | fwAdd (permanent : Bool) (p : Port)
  /-- `firewall-cmd --remove-port` -/
  | fwRemove (permanent : Bool) (p : Port)

inductive Err where
  /-- `exec.ErrNotFound` -/
  | notFound (text : Str)
  | exit (text : Str)

/-- `err.Error()` -/
def Err.text : Err → Str
  | .notFound text => text
  | .exit text => text

/-- What a command printed and how it ended. -/
structure Reply where
  out : Str
  /-- the rows of `ufw status` that `ufwAllowRE` matches -/
  rows : Finset Allow := ∅
  err : Option Err := none

/-- `firstLine` -/
def firstLine (out : Str) (err : Err) : Str :=
  if trimSpace out ≠ [] then (trimSpace out).takeWhile (· ≠ '\n') else err.text

/-- The text of the error that the reply gives, if any. -/
def Reply.error (r : Reply) : Option Str := r.err.map (firstLine r.out)

/-- The tool could not be asked. -/
def Reply.problem (r : Reply) : Option Str :=
  match r.err with
  | some (.exit text) => some (firstLine r.out (.exit text))
  | _ => none

namespace Net

def add (net : Net) (t : Table) (p : Port) : Net :=
  { net with rules := Function.update net.rules t (insert p.rule (net.rules t)) }

def remove (net : Net) (t : Table) (p : Port) : Net :=
  { net with rules := Function.update net.rules t ((net.rules t).erase p.rule) }

/-- What a command does. -/
def effect (net : Net) : Cmd → Net
  | .ufwAllow p _ => net.add .ufw p
  | .ufwDelete p => net.remove .ufw p
  | .fwAdd permanent p => net.add (.firewalld permanent) p
  | .fwRemove permanent p => net.remove (.firewalld permanent) p
  | _ => net

theorem mem_add {net : Net} {t t' : Table} {p : Port} {x : Allow} :
    x ∈ (net.add t p).rules t' ↔ x ∈ net.rules t' ∨ t' = t ∧ x = p.rule := by
  by_cases h : t' = t
  · subst h
    simp [add, or_comm]
  · simp [add, h]

theorem mem_remove {net : Net} {t t' : Table} {p : Port} {x : Allow} :
    x ∈ (net.remove t p).rules t' ↔ x ∈ net.rules t' ∧ ¬ (t' = t ∧ x = p.rule) := by
  by_cases h : t' = t
  · subst h
    simp [remove, and_comm]
  · simp [remove, h]

/-- What a tool says that is not installed. -/
def missing (tool : String) : Reply where
  out := []
  err := some (.notFound ("exec: ".toList ++ tool.toList ++
    ": executable file not found in $PATH".toList))

/-- What ufw says, where it has something else to say than that it is missing. -/
def ufwReply (net : Net) (r : Bool → Reply) : Reply :=
  match net.ufw with
  | none => missing "ufw"
  | some active => r active

/-- What firewalld says while it is running. -/
def fwReply (net : Net) (r : Reply) : Reply :=
  match net.firewalld with
  | none => missing "firewall-cmd"
  | some false => { out := "not running\n".toList, err := some (.exit "exit status 252".toList) }
  | some true => r

/-- What the tools say to a command that does not fail of itself. -/
def answer (net : Net) : Cmd → Reply
  | .ufwStatus => net.ufwReply fun active =>
      if active then { out := "Status: active\n".toList, rows := net.rules .ufw }
      else { out := "Status: inactive\n".toList }
  | .ufwAllow _ _ => net.ufwReply fun _ => { out := "Rule added\n".toList }
  | .ufwDelete _ => net.ufwReply fun _ => { out := "Rule deleted\n".toList }
  | .fwState => net.fwReply { out := "running\n".toList }
  | .fwQuery permanent p => net.fwReply
      (if ∃ a ∈ net.rules (.firewalld permanent), a.Covers p then { out := "yes\n".toList }
      else { out := "no\n".toList, err := some (.exit "exit status 1".toList) })
  | .fwAdd _ _ => net.fwReply { out := "success\n".toList }
  | .fwRemove _ _ => net.fwReply { out := "success\n".toList }

end Net

/-- A command that fails of itself. -/
structure Fault where
  out : Str
  err : Err
  /-- it has had its effect all the same -/
  done : Bool

/-- What is outside the agent. -/
structure Env where
  /-- what becomes of the `n`-th command, where it fails -/
  fault : ℕ → Option Fault
  /-- whether the `n`-th write of the state file succeeds -/
  written : ℕ → Bool

/-- Nothing fails. -/
structure Env.Sound (env : Env) : Prop where
  fault : ∀ n, env.fault n = none
  written : ∀ n, env.written n = true

end Firewall
