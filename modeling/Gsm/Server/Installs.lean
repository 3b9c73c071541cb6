import Gsm.Machine.Exec
import Gsm.Machine.Handlers
import Gsm.Server.Rows

/-!
# Installs on the server

`install` from its first await to its last, beside the other handlers that write the row of an
instance: `onState`, `reconcile` and `markUnknown`. What the agent reports and answers is arbitrary
here. Every handler is given by what it waits for; it can be cut short by an error, and all of them
by a restart of the server. A row that says `installing` is left alone by the other handlers in some
cases, so an install that ends without a last save can leave it that way.
-/

open GoStd Instances Machine

namespace Server

/-- A handler, by what it waits for. -/
inductive Handler where
  /-- `install`, for `get` -/
  | opening
  /-- `install`, for `getGeneral` and `resolveInstall` -/
  | resolving (i : Row)
  /-- `install`, for the save of `installing` -/
  | marking (before after : Row)
  /-- `install`, for `audit.record` and `specFor` -/
  | preparing
  /-- `install`, for the agent's response -/
  | requesting
  /-- `install`, for `get` after the response -/
  | finishing (res : InstallResult)
  /-- `install`, for its last save -/
  | recording (before after : Row)
  /-- `onState`, for `findOne` -/
  | event (state : InstanceState)
  /-- the `n`-th `reconcile`, for `findAll` -/
  | reconciling (n : ℕ)
  /-- the `n`-th `reconcile`, for the agent's list -/
  | listing (n : ℕ) (row : Row)
  /-- the `n`-th `reconcile`, for its save -/
  | settling (n : ℕ) (before after : Row)
  /-- `markUnknown`, for `findAll` -/
  | markingUnknown
  /-- `onState` or `markUnknown`, for its save -/
  | saving (before after : Row)

/-- One instance on the server. -/
structure Office where
  row : Row
  handlers : List Handler
  /-- `agentGateway.isConnected` -/
  online : Bool
  /-- how many reconciles have begun -/
  hellos : ℕ
  /-- the reconciles that ran to their end -/
  reconciled : List ℕ

inductive OfficeAction where
  /-- an install is requested -/
  | install
  /-- the `i`-th handler gets the row it waits for -/
  | load (i : ℕ) (now : ℕ)
  /-- `getGeneral` and `resolveInstall` are done, or have failed -/
  | resolved (i : ℕ) (err : Option Str)
  /-- `audit.record` and `specFor` are done, or one of them has failed -/
  | prepared (i : ℕ) (ok : Bool)
  /-- the agent's response to `inst.install`, or what became of the request -/
  | answered (i : ℕ) (res : InstallResult)
  /-- what the agent's list says of the instance -/
  | listed (i : ℕ) (state : Option InstanceState) (now : ℕ)
  /-- the request of a reconcile fails -/
  | dropped (i : ℕ)
  /-- the `i`-th handler's save is done -/
  | saved (i : ℕ)
  | event (state : InstanceState)
  | hello
  /-- `onClose`; `changed` says whether the node was not marked offline already -/
  | close (changed : Bool)
  | restart

/-- `RUNNING` -/
def Status.isRunning (s : Status) : Bool :=
  s = .running ∨ s = .starting ∨ s = .stopping ∨ s = .installing

namespace Office

/-- The save that a changed copy asks for. -/
def whenChanged (before after : Row) (save : Row → Row → Handler) : List Handler :=
  if after = before then [] else [save before after]

/-- What a handler that has loaded the row waits for next. -/
def loaded (s : Office) (now : ℕ) : Handler → Option (List Handler)
  | .opening => some (if s.online ∧ ¬ s.row.status.isRunning then [.resolving s.row] else [])
  | .finishing res => some (whenChanged s.row (finishInstall s.row res now) .recording)
  | .event state => some (whenChanged s.row (applyState s.row state now) .saving)
  | .reconciling n => some (if s.online then [.listing n s.row] else [])
  | .markingUnknown => some (whenChanged s.row (markUnknownRow s.row) .saving)
  | _ => none

/-- What a handler waits for whose request is cut off with the connection. -/
def cutOff : Handler → List Handler
  | .requesting => [.finishing (.error "connection closed".toList)]
  | .listing _ _ => []
  | h => [h]

/-- The `i`-th handler goes on. -/
def goOn (s : Office) (i : ℕ) (next : List Handler) : Office :=
  { s with handlers := replaceAt s.handlers i next }

def step (s : Office) : OfficeAction → Option Office
  | .install => some { s with handlers := s.handlers ++ [.opening] }
  | .load i now =>
      match s.handlers[i]? with
      | none => none
      | some h => (s.loaded now h).map (s.goOn i)
  | .resolved i err =>
      match s.handlers[i]? with
      | some (.resolving row) =>
          match err with
          | none => some (s.goOn i [.marking row (setStatus row .installing)])
          | some err => some (s.goOn i
              (whenChanged row (setStatus row .installFailed (some err)) .recording))
      | _ => none
  | .prepared i ok =>
      match s.handlers[i]? with
      | some .preparing =>
          some (s.goOn i
            (if ¬ ok then []
              else if s.online then [.requesting]
              else [.finishing (.error "The node is not connected".toList)]))
      | _ => none
  | .answered i res =>
      match s.handlers[i]? with
      | some .requesting => some (s.goOn i [.finishing res])
      | _ => none
  | .listed i state now =>
      match s.handlers[i]? with
      | some (.listing n row) =>
          if reconcileRow row state now = row then
            some { s.goOn i [] with reconciled := s.reconciled ++ [n] }
          else some (s.goOn i [.settling n row (reconcileRow row state now)])
      | _ => none
  | .dropped i =>
      match s.handlers[i]? with
      | some (.listing _ _) => some (s.goOn i [])
      | _ => none
  | .saved i =>
      match s.handlers[i]? with
      | some (.marking before after) =>
          some { s.goOn i [.preparing] with row := s.row.save before after }
      | some (.recording before after) => some { s.goOn i [] with row := s.row.save before after }
      | some (.saving before after) => some { s.goOn i [] with row := s.row.save before after }
      | some (.settling n before after) =>
          some { s.goOn i [] with
            row := s.row.save before after
            reconciled := s.reconciled ++ [n] }
      | _ => none
  | .event state => some { s with handlers := s.handlers ++ [.event state] }
  | .hello => some { s with
      online := true
      handlers := s.handlers ++ [.reconciling s.hellos]
      hellos := s.hellos + 1 }
  | .close changed => some { s with
      online := false
      handlers := s.handlers.flatMap cutOff ++ if changed then [.markingUnknown] else [] }
  | .restart => some { s with online := false, handlers := [] }

end Office

/-- The handler is an `install`. -/
def Handler.installs : Handler → Bool
  | .opening => true
  | .resolving _ => true
  | .marking _ _ => true
  | .preparing => true
  | .requesting => true
  | .finishing _ => true
  | .recording _ _ => true
  | _ => false

/-- No install is under way. -/
def Office.NoInstall (s : Office) : Prop := ∀ h ∈ s.handlers, h.installs = false

/-- Reports that the agent is installing are applied to rows that say so; and where the row says
`installing` though no install is under way, a reconcile is told something else that is applied. -/
def Office.Repairs (s : Office) : OfficeAction → Prop
  | .load i _ => ∀ state, s.handlers[i]? = some (.event state) → state.state = .installing →
      s.row.status = .installing
  | .listed i state _ => ∀ n row, s.handlers[i]? = some (.listing n row) →
      (∀ st, state = some st → st.state = .installing → row.status = .installing) ∧
        (s.NoInstall → s.row.status = .installing → row.status = .installing →
          ∃ st, state = some st ∧ ignores row st = false ∧ st.state ≠ .installing)
  | _ => True

/-! ## What a step can start -/

variable {s s' s₀ s₁ : Office} {a : OfficeAction} {as bs : List OfficeAction} {h h' : Handler}
  {i n c now : ℕ} {next : List Handler}

namespace Office

/-- The handlers that a step starts or takes further. -/
inductive Fresh (s : Office) : OfficeAction → Handler → Prop
  | install : Fresh s .install .opening
  /-- an install goes on -/
  | call {a : OfficeAction} {h h' : Handler} (hmem : h ∈ s.handlers) (hh : h.installs = true)
      (hh' : h'.installs = true) : Fresh s a h'
  | applied {i now : ℕ} {state : InstanceState} (hi : s.handlers[i]? = some (.event state))
      (hne : applyState s.row state now ≠ s.row) :
      Fresh s (.load i now) (.saving s.row (applyState s.row state now))
  | listing {i now n : ℕ} (hi : s.handlers[i]? = some (.reconciling n)) :
      Fresh s (.load i now) (.listing n s.row)
  | unknown {i now : ℕ} : Fresh s (.load i now) (.saving s.row (markUnknownRow s.row))
  | listed {i now n : ℕ} {state : Option InstanceState} {row : Row}
      (hi : s.handlers[i]? = some (.listing n row)) (hne : reconcileRow row state now ≠ row) :
      Fresh s (.listed i state now) (.settling n row (reconcileRow row state now))
  | event (state : InstanceState) : Fresh s (.event state) (.event state)
  | hello : Fresh s .hello (.reconciling s.hellos)
  | close {changed : Bool} : Fresh s (.close changed) .markingUnknown

theorem mem_whenChanged {before after : Row} {save : Row → Row → Handler}
    (hmem : h ∈ whenChanged before after save) : h = save before after ∧ after ≠ before := by
  unfold whenChanged at hmem
  split at hmem
  case isTrue => simp at hmem
  case isFalse hne => exact ⟨List.mem_singleton.mp hmem, hne⟩

/-- A handler that has loaded the row. -/
theorem fresh_loaded (hi : s.handlers[i]? = some h) (hnext : s.loaded now h = some next)
    (hmem : h' ∈ next) : Fresh s (.load i now) h' := by
  have hold : h ∈ s.handlers := List.mem_of_getElem? hi
  cases h with
  | opening =>
    cases hnext
    split at hmem
    · rw [List.mem_singleton.mp hmem]
      exact .call hold rfl rfl
    · cases hmem
  | finishing res =>
    cases hnext
    rw [(mem_whenChanged hmem).1]
    exact .call hold rfl rfl
  | event state =>
    cases hnext
    obtain ⟨rfl, hne⟩ := mem_whenChanged hmem
    exact .applied hi hne
  | reconciling n =>
    cases hnext
    split at hmem
    · rw [List.mem_singleton.mp hmem]
      exact .listing hi
    · cases hmem
  | markingUnknown =>
    cases hnext
    rw [(mem_whenChanged hmem).1]
    exact .unknown
  | _ => cases hnext

/-- After a step, a handler is one from before or one that the step can start. -/
theorem mem_step (hs : s.step a = some s') (hmem : h ∈ s'.handlers) :
    h ∈ s.handlers ∨ Fresh s a h := by
  -- of an install's own handlers, only that they are an install's matters
  have calls {i : ℕ} {h₀ : Handler} {next : List Handler} (hi : s.handlers[i]? = some h₀)
      (hh : h₀.installs = true) (hnext : ∀ h ∈ next, h.installs = true)
      (hmem : h ∈ replaceAt s.handlers i next) : h ∈ s.handlers ∨ Fresh s a h := by
    rcases mem_replaceAt hmem with hold | hnew
    · exact .inl hold
    · exact .inr (.call (List.mem_of_getElem? hi) hh (hnext h hnew))
  have gone {i : ℕ} (hmem : h ∈ replaceAt s.handlers i []) : h ∈ s.handlers ∨ Fresh s a h :=
    .inl ((mem_replaceAt hmem).resolve_right (by simp))
  cases a with
  | install =>
    cases hs
    rcases List.mem_append.mp hmem with hold | hnew
    · exact .inl hold
    · rw [List.mem_singleton.mp hnew]
      exact .inr .install
  | load i now =>
    rw [step] at hs
    split at hs
    case h_1 => cases hs
    case h_2 h₀ hi =>
      obtain ⟨next, hnext, rfl⟩ := Option.map_eq_some_iff.mp hs
      rcases mem_replaceAt hmem with hold | hnew
      · exact .inl hold
      · exact .inr (fresh_loaded hi hnext hnew)
  | resolved i err =>
    rw [step] at hs
    split at hs
    case h_2 => cases hs
    case h_1 row hi =>
      split at hs
      case h_1 =>
        cases hs
        exact calls hi rfl (by simp [Handler.installs]) hmem
      case h_2 err =>
        cases hs
        refine calls hi rfl (fun h hh => ?_) hmem
        rw [(mem_whenChanged hh).1]
        rfl
  | prepared i ok =>
    rw [step] at hs
    split at hs
    case h_2 => cases hs
    case h_1 hi =>
      cases hs
      refine calls hi rfl (fun h hh => ?_) hmem
      split at hh
      · cases hh
      · split at hh <;> rw [List.mem_singleton.mp hh] <;> rfl
  | answered i res =>
    rw [step] at hs
    split at hs
    case h_2 => cases hs
    case h_1 hi =>
      cases hs
      exact calls hi rfl (by simp [Handler.installs]) hmem
  | listed i state now =>
    rw [step] at hs
    split at hs
    case h_2 => cases hs
    case h_1 n row hi =>
      split at hs
      case isTrue =>
        cases hs
        exact gone hmem
      case isFalse hne =>
        cases hs
        rcases mem_replaceAt hmem with hold | hnew
        · exact .inl hold
        · rw [List.mem_singleton.mp hnew]
          exact .inr (.listed hi hne)
  | dropped i =>
    rw [step] at hs
    split at hs
    case h_2 => cases hs
    case h_1 =>
      cases hs
      exact gone hmem
  | saved i =>
    rw [step] at hs
    split at hs
    case h_1 before after hi =>
      cases hs
      exact calls hi rfl (by simp [Handler.installs]) hmem
    case h_5 => cases hs
    all_goals
      cases hs
      exact gone hmem
  | event state =>
    cases hs
    rcases List.mem_append.mp hmem with hold | hnew
    · exact .inl hold
    · rw [List.mem_singleton.mp hnew]
      exact .inr (.event state)
  | hello =>
    cases hs
    rcases List.mem_append.mp hmem with hold | hnew
    · exact .inl hold
    · rw [List.mem_singleton.mp hnew]
      exact .inr .hello
  | close changed =>
    cases hs
    rcases List.mem_append.mp hmem with hcut | hnew
    · obtain ⟨h₀, hold, hcut⟩ := List.mem_flatMap.mp hcut
      by_cases hh : h₀ = .requesting
      · subst hh
        rw [List.mem_singleton.mp hcut]
        exact .inr (.call hold rfl rfl)
      · left
        cases h₀ <;> simp_all [cutOff]
    · split at hnew
      · rw [List.mem_singleton.mp hnew]
        exact .inr .close
      · cases hnew
  | restart =>
    cases hs
    cases hmem

/-! ## Nothing but an install sets `installing` -/

/-- A handler other than `install` that is about to save `installing` has loaded it. -/
def Steady (s : Office) : Prop := ∀ n before after,
  (.saving before after ∈ s.handlers ∨ .settling n before after ∈ s.handlers) →
    after.status = .installing → before.status = .installing

theorem Steady.step (hst : Steady s) (hr : s.Repairs a) (hs : s.step a = some s') : Steady s' := by
  intro n before after hmem hafter
  rcases hmem with hmem | hmem <;> rcases mem_step hs hmem with hold | hnew
  · exact hst n before after (.inl hold) hafter
  · cases hnew with
    | call _ _ hh => cases hh
    | applied hi =>
      rcases applyState_installing hafter with hrow | hstate
      · exact hrow
      · exact hr _ hi hstate
    | unknown => exact markUnknownRow_installing hafter
  · exact hst n before after (.inr hold) hafter
  · cases hnew with
    | call _ _ hh => cases hh
    | listed hi =>
      rcases reconcileRow_installing hafter with hrow | ⟨state, hst, hstate⟩
      · exact hrow
      · exact (hr _ _ hi).1 state hst hstate

theorem NoInstall.step (h : NoInstall s) (ha : a ≠ .install) (hs : s.step a = some s') :
    NoInstall s' := by
  intro h' hmem
  rcases mem_step hs hmem with hold | hnew
  · exact h h' hold
  · cases hnew with
    | install => exact absurd rfl ha
    | call hmem hh => rw [h _ hmem] at hh; cases hh
    | _ => rfl

/-- What a step does beside starting and ending handlers. -/
inductive Effect (s s' : Office) : OfficeAction → Prop
  | none {a : OfficeAction} (hrow : s'.row = s.row) (hdone : s'.reconciled = s.reconciled)
      (hhellos : s'.hellos = s.hellos) : Effect s s' a
  | hello (hrow : s'.row = s.row) (hdone : s'.reconciled = s.reconciled)
      (hhellos : s'.hellos = s.hellos + 1) : Effect s s' .hello
  /-- a reconcile has nothing to save -/
  | agreed {i now n : ℕ} {state : Option InstanceState} {row : Row}
      (hi : s.handlers[i]? = some (.listing n row)) (hsame : reconcileRow row state now = row)
      (hrow : s'.row = s.row) (hdone : s'.reconciled = s.reconciled ++ [n])
      (hhellos : s'.hellos = s.hellos) : Effect s s' (.listed i state now)
  | saved {i : ℕ} {h : Handler} {before after : Row} (hi : s.handlers[i]? = some h)
      (hh : h.installs = true ∨ h = .saving before after)
      (hrow : s'.row = s.row.save before after) (hdone : s'.reconciled = s.reconciled)
      (hhellos : s'.hellos = s.hellos) : Effect s s' (.saved i)
  | settled {i n : ℕ} {before after : Row} (hi : s.handlers[i]? = some (.settling n before after))
      (hrow : s'.row = s.row.save before after) (hdone : s'.reconciled = s.reconciled ++ [n])
      (hhellos : s'.hellos = s.hellos) : Effect s s' (.saved i)

theorem step_effect (hs : s.step a = some s') : Effect s s' a := by
  cases a with
  | saved i =>
    rw [Office.step] at hs
    split at hs
    case h_1 hi =>
      cases hs
      exact .saved hi (.inl rfl) rfl rfl rfl
    case h_2 hi =>
      cases hs
      exact .saved hi (.inl rfl) rfl rfl rfl
    case h_3 hi =>
      cases hs
      exact .saved hi (.inr rfl) rfl rfl rfl
    case h_4 hi =>
      cases hs
      exact .settled hi rfl rfl rfl
    case h_5 => cases hs
  | listed i state now =>
    rw [Office.step] at hs
    split at hs
    case h_1 n row hi =>
      split at hs
      case isTrue hsame =>
        cases hs
        exact .agreed hi hsame rfl rfl rfl
      case isFalse =>
        cases hs
        exact .none rfl rfl rfl
    case h_2 => cases hs
  | hello =>
    cases hs
    exact .hello rfl rfl rfl
  | load i now =>
    rw [Office.step] at hs
    split at hs
    case h_1 => cases hs
    case h_2 =>
      obtain ⟨next, -, rfl⟩ := Option.map_eq_some_iff.mp hs
      exact .none rfl rfl rfl
  | resolved i err =>
    rw [Office.step] at hs
    split at hs
    case h_1 => split at hs <;> cases hs <;> exact .none rfl rfl rfl
    case h_2 => cases hs
  | prepared i ok =>
    rw [Office.step] at hs
    split at hs <;> cases hs
    exact .none rfl rfl rfl
  | answered i res =>
    rw [Office.step] at hs
    split at hs <;> cases hs
    exact .none rfl rfl rfl
  | dropped i =>
    rw [Office.step] at hs
    split at hs <;> cases hs
    exact .none rfl rfl rfl
  | _ =>
    cases hs
    exact .none rfl rfl rfl

/-- A handler other than `install` saves: a row that says something else does not come to say
`installing`. -/
theorem save_ne_installing {row before after : Row} (hrow : row.status ≠ .installing)
    (hsteady : after.status = .installing → before.status = .installing) :
    (row.save before after).status ≠ .installing := by
  rw [status_save]
  split
  case isTrue => exact hrow
  case isFalse hne => exact fun h => hne (h.trans (hsteady h).symm)

/-- So it stays that way while no install is under way. -/
theorem leaves_installing (hst : Steady s) (hno : NoInstall s) (hrow : s.row.status ≠ .installing)
    (hs : s.step a = some s') : s'.row.status ≠ .installing := by
  cases step_effect hs with
  | none heq => rwa [heq]
  | hello heq => rwa [heq]
  | agreed _ _ heq => rwa [heq]
  | saved hi hh heq =>
    have hmem := List.mem_of_getElem? hi
    rcases hh with hh | rfl
    · rw [hno _ hmem] at hh
      cases hh
    · rw [heq]
      exact save_ne_installing hrow (hst 0 _ _ (.inl hmem))
  | settled hi heq =>
    rw [heq]
    exact save_ne_installing hrow (hst _ _ _ (.inr (List.mem_of_getElem? hi)))

/-! ## Reconciles by their numbers -/

/-- The number of a reconcile. -/
def number? : Handler → Option ℕ
  | .reconciling n => some n
  | .listing n _ => some n
  | .settling n _ _ => some n
  | _ => none

/-- Reconciles are numbered in the order in which they begin. -/
structure Numbered (s : Office) : Prop where
  done : ∀ n ∈ s.reconciled, n < s.hellos
  handlers : ∀ h ∈ s.handlers, ∀ n, number? h = some n → n < s.hellos

theorem number_install (hh : h.installs = true) : number? h = none := by
  cases h <;> simp_all [Handler.installs, number?]

theorem Numbered.step (hnum : Numbered s) (hs : s.step a = some s') : Numbered s' := by
  have hle : s.hellos ≤ s'.hellos := by
    cases step_effect hs <;> omega
  refine ⟨fun n hn => ?_, fun h hmem n hn => ?_⟩
  · cases step_effect hs with
    | none _ hdone hhellos => rw [hdone] at hn; rw [hhellos]; exact hnum.done n hn
    | hello _ hdone => rw [hdone] at hn; exact lt_of_lt_of_le (hnum.done n hn) hle
    | saved _ _ _ hdone => rw [hdone] at hn; exact lt_of_lt_of_le (hnum.done n hn) hle
    | agreed hi _ _ hdone =>
      rw [hdone] at hn
      rcases List.mem_append.mp hn with hold | hnew
      · exact lt_of_lt_of_le (hnum.done n hold) hle
      · rw [List.mem_singleton.mp hnew]
        exact lt_of_lt_of_le (hnum.handlers _ (List.mem_of_getElem? hi) _ rfl) hle
    | settled hi _ hdone =>
      rw [hdone] at hn
      rcases List.mem_append.mp hn with hold | hnew
      · exact lt_of_lt_of_le (hnum.done n hold) hle
      · rw [List.mem_singleton.mp hnew]
        exact lt_of_lt_of_le (hnum.handlers _ (List.mem_of_getElem? hi) _ rfl) hle
  · rcases mem_step hs hmem with hold | hnew
    · exact lt_of_lt_of_le (hnum.handlers h hold n hn) hle
    · cases hnew with
      | call _ _ hh => rw [number_install hh] at hn; cases hn
      | listing hi =>
        cases hn
        exact lt_of_lt_of_le (hnum.handlers _ (List.mem_of_getElem? hi) _ rfl) hle
      | listed hi =>
        cases hn
        exact lt_of_lt_of_le (hnum.handlers _ (List.mem_of_getElem? hi) _ rfl) hle
      | hello =>
        cases hn
        cases hs
        exact Nat.lt_succ_self _
      | _ => cases hn

/-! ## The next reconcile -/

/-- A handler of a reconcile with number `c` or later has found the row saying `installing` and, when
it saves, saves something else. -/
def Finds (c : ℕ) : Handler → Prop
  | .listing n row => c ≤ n → row.status = .installing
  | .settling n before after => c ≤ n → before.status = .installing ∧ after.status ≠ .installing
  | _ => True

/-- The row has been repaired, or no reconcile from number `c` on has ended and all of those under
way are going to repair it. -/
def Mending (c : ℕ) (s : Office) : Prop :=
  s.row.status ≠ .installing ∨
    (∀ n ∈ s.reconciled, n < c) ∧ ∀ h ∈ s.handlers, Finds c h

/-- A reconcile that has found `installing` is told something else. -/
theorem repaired {row : Row} {state : Option InstanceState} (hr : s.Repairs (.listed i state now))
    (hi : s.handlers[i]? = some (.listing n row)) (hno : NoInstall s)
    (hrow : s.row.status = .installing) (hfound : row.status = .installing) :
    (reconcileRow row state now).status ≠ .installing := by
  obtain ⟨st, rfl, hignored, hst⟩ := (hr n row hi).2 hno hrow hfound
  show (applyState row st now).status ≠ .installing
  rw [applyState_status hignored]
  exact fun h => hst (ofState_eq_installing h)

theorem Mending.step (hm : Mending c s) (hst : Steady s) (hno : NoInstall s) (hr : s.Repairs a)
    (hs : s.step a = some s') : Mending c s' := by
  by_cases hrow : s.row.status = .installing
  case neg => exact .inl (leaves_installing hst hno hrow hs)
  case pos =>
    obtain ⟨hdone, hfinds⟩ := hm.resolve_left (not_not.mpr hrow)
    have hfinds' : ∀ h ∈ s'.handlers, Finds c h := by
      intro h hmem
      rcases mem_step hs hmem with hold | hnew
      · exact hfinds h hold
      · cases hnew with
        | call _ _ hh => cases h <;> simp_all [Handler.installs, Finds]
        | listing hi => exact fun _ => hrow
        | listed hi =>
          intro hc
          have hfound := hfinds _ (List.mem_of_getElem? hi) hc
          exact ⟨hfound, repaired hr hi hno hrow hfound⟩
        | _ => trivial
    have ends {n : ℕ} (hn : n < c) : ∀ m ∈ s.reconciled ++ [n], m < c := by
      intro m hm
      rcases List.mem_append.mp hm with hold | hnew
      · exact hdone m hold
      · rwa [List.mem_singleton.mp hnew]
    cases step_effect hs with
    | none _ hsame => exact .inr ⟨hsame ▸ hdone, hfinds'⟩
    | hello _ hsame => exact .inr ⟨hsame ▸ hdone, hfinds'⟩
    | saved _ _ _ hsame => exact .inr ⟨hsame ▸ hdone, hfinds'⟩
    | @agreed i now n state row hi hsame _ hnew =>
      refine .inr ⟨hnew ▸ ends (not_le.mp fun hc => ?_), hfinds'⟩
      have hfound := hfinds _ (List.mem_of_getElem? hi) hc
      exact repaired hr hi hno hrow hfound (by rw [hsame]; exact hfound)
    | @settled i n before after hi hsave hnew =>
      by_cases hc : c ≤ n
      case neg => exact .inr ⟨hnew ▸ ends (not_le.mp hc), hfinds'⟩
      case pos =>
        -- this save is the repair
        obtain ⟨hbefore, hafter⟩ := hfinds _ (List.mem_of_getElem? hi) hc
        left
        rw [hsave, status_save, if_neg fun h => hafter (h.trans hbefore)]
        exact hafter

/-! ## Runs -/

end Office

end Server
