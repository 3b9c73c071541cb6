import Gsm.Auth.Account

/-!
# Completed sign-ins

A second step is used up by three different writes: a TOTP step is claimed by a conditional update, a
recovery code is marked by another, and an e-mailed code goes with the challenge, whose deletion is
not checked. Each is used at most once where a request that was accepted still finds its challenge,
and the later save of the user does not take `totpLastStep` back.
-/

open Machine

namespace Auth

/-- The challenge and the evidence that a request has been accepted for. -/
def Task.presents : Task → Option (ℕ × Evidence)
  | .second ch (.accepted evidence) => some (ch.id, evidence)
  | .entering via _ => via
  | _ => none

/-- A request that is about to sign in, with the challenge it has deleted. -/
def Task.takes (c : ℕ) : Task → Bool
  | .entering (some (c', _)) _ => c' = c
  | _ => false

def Task.holds (evidence : Evidence) (t : Task) : Bool :=
  t.presents.any (·.2 = evidence)

/-- An e-mailed code is one of the challenge. -/
def Evidence.Of (c : ℕ) : Evidence → Prop
  | .email mail => mail.challenge = c
  | _ => True

namespace Account

/-- The sign-ins completed with the challenge, and those about to be. -/
def taken (s : Account) (l : List Task) (c : ℕ) : ℕ :=
  s.signIns.countP (·.1 = c) + l.countP (Task.takes c)

/-- The sign-ins completed with the evidence, and the requests accepted for it. -/
def used (s : Account) (l : List Task) (evidence : Evidence) : ℕ :=
  s.signIns.countP (·.2 = evidence) + l.countP (Task.holds evidence)

/-- A request whose code was right deletes its challenge itself, and the step that is saved with the
user is not older than the row's. -/
def Sole (s : Account) (_ : List Task) (_ : Answer) : Task → Prop
  | .second ch (.accepted _) => ∃ row ∈ s.challenges, row.id = ch.id
  | .saving (some step) => ∀ last ∈ s.totpLastStep, last ≤ step
  | _ => True

instance (s : Account) (l : List Task) (x : Answer) (t : Task) : Decidable (s.Sole l x t) := by
  unfold Sole
  split <;> infer_instance

/-- A challenge that was taken is gone. -/
structure TakenOnce (s : Account) (l : List Task) : Prop where
  ids : ∀ ch ∈ s.challenges, ch.id < s.nextChallenge
  unborn : ∀ c, s.nextChallenge ≤ c → s.taken l c = 0
  opened : ∀ ch ∈ s.challenges, s.taken l ch.id = 0
  challenge : ∀ c, s.taken l c ≤ 1

/-- A TOTP step that was used is not newer than the user's last one, and a recovery code that was
used is marked. -/
structure UsedOnce (s : Account) (l : List Task) : Prop where
  step : ∀ n, s.used l (.totp n) ≤ 1
  lastStep : ∀ n, 0 < s.used l (.totp n) → ∃ last, s.totpLastStep = some last ∧ n ≤ last
  code : ∀ id, s.used l (.recovery id) ≤ 1
  marked : ∀ id, 0 < s.used l (.recovery id) → ∀ r ∈ s.recoveryCodes, r.id = id → r.used = true

/-- What is used up is recorded, and an e-mailed code is used with its own challenge. -/
structure Once (s : Account) (l : List Task) : Prop where
  challenges : s.TakenOnce l
  evidence : s.UsedOnce l
  signed : ∀ x ∈ s.signIns, x.2.Of x.1
  presented : ∀ t ∈ l, ∀ x ∈ t.presents, x.2.Of x.1

variable {s s' : Account} {l l' new : List Task} {t : Task} {x : Answer} {ch : LoginChallenge}
  {e : Evidence} {s₀ s₁ : Shared Account Task} {turns : List (Turn Request Answer)}

/-! ## Counting -/

theorem takes_eq_false (h : t.presents = none) (c : ℕ) : t.takes c = false := by
  unfold Task.takes
  split
  · cases h
  · rfl

theorem holds_eq_false (h : t.presents = none) (e : Evidence) : t.holds e = false := by
  rw [Task.holds, h]
  rfl

theorem taken_append (h : ∀ t ∈ new, t.presents = none) (c : ℕ) :
    s.taken (new ++ l) c = s.taken l c := by
  have hzero : new.countP (Task.takes c) = 0 :=
    List.countP_eq_zero.mpr fun t ht => by simp [takes_eq_false (h t ht) c]
  rw [taken, taken, List.countP_append, hzero, Nat.zero_add]

theorem used_append (h : ∀ t ∈ new, t.presents = none) (e : Evidence) :
    s.used (new ++ l) e = s.used l e := by
  have hzero : new.countP (Task.holds e) = 0 :=
    List.countP_eq_zero.mpr fun t ht => by simp [holds_eq_false (h t ht) e]
  rw [used, used, List.countP_append, hzero, Nat.zero_add]

theorem taken_cons (c : ℕ) : s.taken (t :: l) c = s.taken l c + if t.takes c then 1 else 0 := by
  rw [taken, List.countP_cons, ← Nat.add_assoc]
  rfl

theorem used_cons (e : Evidence) :
    s.used (t :: l) e = s.used l e + if t.holds e then 1 else 0 := by
  rw [used, List.countP_cons, ← Nat.add_assoc]
  rfl

/-- Less may be taken, and challenges may go or change. -/
theorem TakenOnce.mono (h : s.TakenOnce l) (htaken : ∀ c, s'.taken l' c ≤ s.taken l c)
    (hnext : s'.nextChallenge = s.nextChallenge)
    (hrows : ∀ ch ∈ s'.challenges, ∃ row ∈ s.challenges, row.id = ch.id) : s'.TakenOnce l' := by
  constructor
  · intro ch hch
    obtain ⟨row, hrow, hid⟩ := hrows ch hch
    rw [hnext, ← hid]
    exact h.ids row hrow
  · rw [hnext]
    exact fun c hc => Nat.le_zero.mp ((htaken c).trans_eq (h.unborn c hc))
  · intro ch hch
    obtain ⟨row, hrow, hid⟩ := hrows ch hch
    rw [← hid]
    exact Nat.le_zero.mp ((htaken row.id).trans_eq (h.opened row hrow))
  · exact fun c => (htaken c).trans (h.challenge c)

/-- Less may be used of what is recorded with the user. -/
theorem UsedOnce.mono (h : s.UsedOnce l)
    (hused : ∀ e, (∀ mail, e ≠ .email mail) → s'.used l' e ≤ s.used l e)
    (hlast : s'.totpLastStep = s.totpLastStep) (hcodes : s'.recoveryCodes = s.recoveryCodes) :
    s'.UsedOnce l' := by
  have hstep : ∀ n, s'.used l' (.totp n) ≤ s.used l (.totp n) := fun n => hused _ (by simp)
  have hcode : ∀ id, s'.used l' (.recovery id) ≤ s.used l (.recovery id) :=
    fun id => hused _ (by simp)
  constructor
  · exact fun n => (hstep n).trans (h.step n)
  · rw [hlast]
    exact fun n hn => h.lastStep n (hn.trans_le (hstep n))
  · exact fun id => (hcode id).trans (h.code id)
  · rw [hcodes]
    exact fun id hid => h.marked id (hid.trans_le (hcode id))

/-! ## The tasks that use nothing up -/

theorem Once.perm (hl : l.Perm l') (h : s.Once l) : s.Once l' := by
  have htaken : ∀ c, s.taken l' c = s.taken l c := fun c => by rw [taken, taken, hl.countP_eq]
  have hused : ∀ e, s.used l' e = s.used l e := fun e => by rw [used, used, hl.countP_eq]
  constructor
  · exact h.challenges.mono (fun c => Nat.le_of_eq (htaken c)) rfl fun ch hch => ⟨ch, hch, rfl⟩
  · exact h.evidence.mono (fun e _ => Nat.le_of_eq (hused e)) rfl rfl
  · exact h.signed
  · exact fun t ht => h.presented t (hl.mem_iff.mpr ht)

/-- A task that ends uses nothing up. -/
theorem Once.tail (h : s.Once (t :: l)) : s.Once l := by
  have htaken : ∀ c, s.taken l c ≤ s.taken (t :: l) c := fun c => by
    rw [taken_cons]
    omega
  have hused : ∀ e, s.used l e ≤ s.used (t :: l) e := fun e => by
    rw [used_cons]
    omega
  constructor
  · exact h.challenges.mono htaken rfl fun ch hch => ⟨ch, hch, rfl⟩
  · exact h.evidence.mono (fun e _ => hused e) rfl rfl
  · exact h.signed
  · exact fun t ht => h.presented t (List.mem_cons_of_mem _ ht)

/-- Tasks that have not been accepted for anything may come, and challenges may go or change. -/
theorem Once.quiet (h : s.Once l) (hnew : ∀ t ∈ new, t.presents = none)
    (hsigned : s'.signIns = s.signIns) (hnext : s'.nextChallenge = s.nextChallenge)
    (hrows : ∀ ch ∈ s'.challenges, ∃ row ∈ s.challenges, row.id = ch.id)
    (hlast : s'.totpLastStep = s.totpLastStep) (hcodes : s'.recoveryCodes = s.recoveryCodes) :
    s'.Once (new ++ l) := by
  have htaken : ∀ c, s'.taken (new ++ l) c = s.taken l c := fun c => by
    rw [taken_append hnew, taken, taken, hsigned]
  have hused : ∀ e, s'.used (new ++ l) e = s.used l e := fun e => by
    rw [used_append hnew, used, used, hsigned]
  constructor
  · exact h.challenges.mono (fun c => Nat.le_of_eq (htaken c)) hnext hrows
  · exact h.evidence.mono (fun e _ => Nat.le_of_eq (hused e)) hlast hcodes
  · rw [hsigned]
    exact h.signed
  · intro t ht y hy
    rcases List.mem_append.mp ht with ht | ht
    · rw [hnew t ht] at hy
      cases hy
    · exact h.presented t ht y hy

theorem Once.fewer (h : s.Once l) (hnew : ∀ t ∈ new, t.presents = none)
    (P : LoginChallenge → Bool) :
    Once { s with challenges := s.challenges.filter P } (new ++ l) :=
  h.quiet hnew rfl rfl (fun ch hch => ⟨ch, List.mem_of_mem_filter hch, rfl⟩) rfl rfl

theorem Once.saved {c : ℕ} {f : LoginChallenge → LoginChallenge} (h : s.Once l)
    (hf : ∀ row, (f row).id = row.id) : (s.saveChallenge c f).Once l := by
  have hnone : ∀ t ∈ ([] : List Task), t.presents = none := fun t ht => nomatch ht
  refine h.quiet hnone rfl rfl (fun ch hch => ?_) rfl rfl
  obtain ⟨row, hrow, rfl⟩ := List.mem_map.mp hch
  refine ⟨row, hrow, ?_⟩
  split
  · exact (hf row).symm
  · rfl

theorem once_create (hash : Hash) (h : s.Once l) : (s.createChallenge hash).Once l := by
  have hrow : ∀ ch ∈ (s.createChallenge hash).challenges,
      ch ∈ s.challenges ∨ ch.id = s.nextChallenge := by
    intro ch hch
    rcases List.mem_append.mp hch with hch | hch
    · exact .inl hch
    · cases List.mem_singleton.mp hch
      exact .inr rfl
  refine ⟨⟨?_, ?_, ?_, h.challenges.challenge⟩, ?_, h.signed, h.presented⟩
  · intro ch hch
    show ch.id < s.nextChallenge + 1
    rcases hrow ch hch with hch | hch
    · exact (h.challenges.ids ch hch).trans (Nat.lt_succ_self _)
    · omega
  · exact fun c hc => h.challenges.unborn c ((Nat.le_succ _).trans hc)
  · intro ch hch
    rcases hrow ch hch with hch | hch
    · exact h.challenges.opened ch hch
    · exact h.challenges.unborn ch.id (Nat.le_of_eq hch.symm)
  · exact h.evidence.mono (fun _ _ => Nat.le_refl _) rfl rfl

/-! ## The tasks that use something up -/

/-- A request is accepted for evidence that is counted from now on. -/
theorem Once.accept (h : s.Once l) (hof : e.Of ch.id) (hsigned : s'.signIns = s.signIns)
    (hnext : s'.nextChallenge = s.nextChallenge) (hrows : s'.challenges = s.challenges)
    (hevidence : (∀ e', s'.used (.second ch (.accepted e) :: l) e' =
      s.used l e' + if e = e' then 1 else 0) → s'.UsedOnce (.second ch (.accepted e) :: l)) :
    s'.Once (.second ch (.accepted e) :: l) := by
  constructor
  · refine h.challenges.mono (fun c => ?_) hnext fun row hrow => ⟨row, hrows ▸ hrow, rfl⟩
    rw [taken_cons, taken, taken, hsigned]
    exact Nat.le_refl _
  · refine hevidence fun e' => ?_
    rw [used_cons, used, used, hsigned]
    simp [Task.holds, Task.presents]
  · rw [hsigned]
    exact h.signed
  · intro t ht y hy
    rcases List.mem_cons.mp ht with rfl | ht
    · cases hy
      exact hof
    · exact h.presented t ht y hy

/-- A step is claimed only when it is newer than all that were used. -/
theorem once_claim {step : ℤ} (h : s.Once (.second ch (.claiming step) :: l))
    (hclaim : s.claimStep step = some s') :
    s'.Once (.second ch (.accepted (.totp step)) :: l) := by
  unfold claimStep at hclaim
  split at hclaim
  case isFalse => cases hclaim
  case isTrue hnewer =>
  cases hclaim
  have h := h.tail
  have hold := h.evidence
  -- a step that was used would not be newer than the last one
  have hunused : s.used l (.totp step) = 0 := by
    by_contra hpos
    obtain ⟨last, hlast, hle⟩ := hold.lastStep step (Nat.pos_of_ne_zero hpos)
    have hlt := hnewer last hlast
    omega
  refine h.accept trivial rfl rfl rfl fun hused => ⟨fun n => ?_, fun n hn => ?_, fun id => ?_,
    fun id hid => ?_⟩
  · rw [hused]
    have hle := hold.step n
    split
    · next heq =>
      cases heq
      omega
    · omega
  · rw [hused] at hn
    refine ⟨step, rfl, ?_⟩
    by_cases hpos : 0 < s.used l (.totp n)
    · obtain ⟨last, hlast, hle⟩ := hold.lastStep n hpos
      have hlt := hnewer last hlast
      omega
    · split at hn
      · next heq =>
        cases heq
        exact Int.le_refl _
      · omega
  · rw [hused, if_neg (by simp)]
    exact hold.code id
  · rw [hused, if_neg (by simp)] at hid
    exact hold.marked id hid

/-- A recovery code is used only while it is not marked. -/
theorem once_recovery {id : ℕ} (h : s.Once (.second ch (.marking id) :: l))
    (huse : s.useRecoveryCode id = some s') :
    s'.Once (.second ch (.accepted (.recovery id)) :: l) := by
  unfold useRecoveryCode at huse
  split at huse
  case isFalse => cases huse
  case isTrue hunmarked =>
  cases huse
  have h := h.tail
  have hold := h.evidence
  have hunused : s.used l (.recovery id) = 0 := by
    by_contra hpos
    obtain ⟨r, hr, hid, hfalse⟩ := hunmarked
    have htrue := hold.marked id (Nat.pos_of_ne_zero hpos) r hr hid
    rw [hfalse] at htrue
    cases htrue
  refine h.accept trivial rfl rfl rfl fun hused => ⟨fun n => ?_, fun n hn => ?_, fun id' => ?_,
    fun id' hid r' hr' hr'id => ?_⟩
  · rw [hused, if_neg (by simp)]
    exact hold.step n
  · rw [hused, if_neg (by simp)] at hn
    exact hold.lastStep n hn
  · rw [hused]
    have hle := hold.code id'
    split
    · next heq =>
      cases heq
      omega
    · omega
  · obtain ⟨r, hr, rfl⟩ := List.mem_map.mp hr'
    by_cases hrid : r.id = id
    · rw [if_pos hrid]
    · rw [if_neg hrid] at hr'id ⊢
      have hne : Evidence.recovery id ≠ .recovery id' := by
        intro heq
        cases heq
        exact hrid hr'id
      rw [hused, if_neg hne, Nat.add_zero] at hid
      exact hold.marked id' hid r hr hr'id

/-- An e-mailed code that is accepted is not used up before its challenge is. -/
theorem once_mailed {mail : Mail} (h : s.Once l) (hof : mail.challenge = ch.id) :
    s.Once (.second ch (.accepted (.email mail)) :: l) := by
  refine h.accept hof rfl rfl rfl fun hused => h.evidence.mono (fun e he => ?_) rfl rfl
  rw [hused, if_neg (Ne.symm (he mail)), Nat.add_zero]

/-- A challenge that is still there has not been taken. -/
theorem once_destroy (hrow : ∃ row ∈ s.challenges, row.id = ch.id)
    (h : s.Once (.second ch (.accepted e) :: l)) :
    (s.destroyChallenge ch.id).Once (.entering (some (ch.id, e)) ch.openedWith :: l) := by
  obtain ⟨row, hrow, hid⟩ := hrow
  have hold := h.tail.challenges
  -- the row that is there is the reason why no other request has taken it
  have huntaken : s.taken l ch.id = 0 := by
    rw [← hid]
    exact hold.opened row hrow
  have htaken : ∀ c, (s.destroyChallenge ch.id).taken
      (.entering (some (ch.id, e)) ch.openedWith :: l) c =
        s.taken l c + if ch.id = c then 1 else 0 := fun c => by
    rw [taken_cons]
    simp [Task.takes, taken, destroyChallenge]
  have hleft : ∀ row ∈ (s.destroyChallenge ch.id).challenges, row ∈ s.challenges ∧
      row.id ≠ ch.id := fun row hrow => by
    obtain ⟨hmem, hne⟩ := List.mem_filter.mp hrow
    exact ⟨hmem, by simpa using hne⟩
  refine ⟨⟨?_, ?_, ?_, ?_⟩, ?_, h.signed, fun t ht y hy => ?_⟩
  · exact fun row hrow => hold.ids row (hleft row hrow).1
  · intro c hc
    have hlt := hold.ids row hrow
    have hnext : s.nextChallenge ≤ c := hc
    rw [htaken, if_neg (by omega), hold.unborn c hc]
  · intro row hrow
    obtain ⟨hmem, hne⟩ := hleft row hrow
    rw [htaken, if_neg (Ne.symm hne), hold.opened row hmem]
  · intro c
    rw [htaken]
    have hle := hold.challenge c
    split
    · next heq =>
      subst heq
      omega
    · omega
  · refine h.evidence.mono (fun e' _ => ?_) rfl rfl
    rw [used_cons, used_cons]
    exact Nat.le_refl _
  · rcases List.mem_cons.mp ht with rfl | ht
    · exact h.presented _ List.mem_cons_self y hy
    · exact h.presented t (List.mem_cons_of_mem _ ht) y hy

/-- The sign-in is counted where its request was. -/
theorem once_enter {via : Option (ℕ × Evidence)} {hash : Hash}
    (h : s.Once (.entering via hash :: l)) :
    Once { s.createSession hash with signIns := s.signIns ++ via.toList }
      (.saving (assignedStep via) :: l) := by
  set s' : Account := { s.createSession hash with signIns := s.signIns ++ via.toList } with hs'
  have hused : ∀ e, s'.used (.saving (assignedStep via) :: l) e =
      s.used (.entering via hash :: l) e := fun e => by
    rw [used_cons, used_cons]
    cases via with
    | none => simp [used, hs', Task.holds, Task.presents]
    | some y =>
      simp [used, hs', Task.holds, Task.presents, List.countP_cons]
      omega
  have htaken : ∀ c, s'.taken (.saving (assignedStep via) :: l) c =
      s.taken (.entering via hash :: l) c := fun c => by
    rw [taken_cons, taken_cons]
    cases via with
    | none => simp [taken, hs', Task.takes]
    | some y =>
      simp [taken, hs', Task.takes, List.countP_cons]
      omega
  refine ⟨?_, ?_, fun y hy => ?_, fun t ht y hy => ?_⟩
  · exact h.challenges.mono (fun c => Nat.le_of_eq (htaken c)) rfl fun ch hch => ⟨ch, hch, rfl⟩
  · exact h.evidence.mono (fun e _ => Nat.le_of_eq (hused e)) rfl rfl
  · rcases List.mem_append.mp hy with hy | hy
    · exact h.signed y hy
    · refine h.presented _ List.mem_cons_self y ?_
      show via = some y
      simpa using hy
  · rcases List.mem_cons.mp ht with rfl | ht
    · cases hy
    · exact h.presented t (List.mem_cons_of_mem _ ht) y hy

/-- A step that is saved again is none that is older than the row's. -/
theorem once_save {step : ℤ} (hle : ∀ last ∈ s.totpLastStep, last ≤ step) (h : s.Once l) :
    Once { s with totpLastStep := some step } l := by
  have hold := h.evidence
  refine ⟨h.challenges.mono (fun _ => Nat.le_refl _) rfl fun ch hch => ⟨ch, hch, rfl⟩,
    ⟨hold.step, fun n hn => ?_, hold.code, hold.marked⟩, h.signed, h.presented⟩
  obtain ⟨last, hlast, hn⟩ := hold.lastStep n hn
  have hstep := hle last hlast
  exact ⟨step, rfl, by omega⟩

/-! ## All tasks -/

theorem once_arrive {r : Request} (h : s.Once l) :
    (s.arrive r).1.Once ((s.arrive r).2 ++ l) := by
  have hsame : ∀ new : List Task, (∀ t ∈ new, t.presents = none) → s.Once (new ++ l) :=
    fun new hnew => h.quiet hnew rfl rfl (fun ch hch => ⟨ch, hch, rfl⟩) rfl rfl
  have hnone : ∀ t ∈ ([] : List Task), t.presents = none := fun t ht => nomatch ht
  cases r with
  | login password => exact hsame _ (by simp [arrive, Task.presents])
  | resend c => exact hsame _ (by simp [arrive, Task.presents])
  | verify c code method => exact hsame _ (by simp [arrive, Task.presents])
  | changePassword session current new =>
    refine hsame _ fun t ht => ?_
    simp only [arrive] at ht
    split at ht
    · cases List.mem_singleton.mp ht
      rfl
    · cases ht
  | resetPassword token new => exact hsame _ (by simp [arrive, Task.presents])
  | issue token => exact h.quiet hnone rfl rfl (fun ch hch => ⟨ch, hch, rfl⟩) rfl rfl
  | logout session => exact h.quiet hnone rfl rfl (fun ch hch => ⟨ch, hch, rfl⟩) rfl rfl
  | purgeExpiredChallenges => exact h.fewer hnone _
  | tick ms => exact h.quiet hnone rfl rfl (fun ch hch => ⟨ch, hch, rfl⟩) rfl rfl

theorem once_reject (h : s.Once l) : (s.reject ch).Once l := by
  have hnone : ∀ t ∈ ([] : List Task), t.presents = none := fun t ht => nomatch ht
  unfold reject
  split
  · exact h.fewer hnone _
  · exact h.saved fun _ => rfl

theorem once_verify {stage : Stage} (hsole : s.Sole l x (.second ch stage))
    (h : s.Once (.second ch stage :: l)) :
    (s.verify x ch stage).1.Once ((s.verify x ch stage).2 ++ l) := by
  have hsame : ∀ new : List Task, (∀ t ∈ new, t.presents = none) → s.Once (new ++ l) :=
    fun new hnew => h.tail.quiet hnew rfl rfl (fun ch hch => ⟨ch, hch, rfl⟩) rfl rfl
  have hreject : s.Once (.second ch .rejecting :: l) := hsame [_] (by simp [Task.presents])
  cases stage with
  | matching code =>
    rw [verify]
    split
    · exact hsame [_] (by simp [Task.presents])
    · exact hreject
  | claiming step =>
    rw [verify]
    split
    · next s' hclaim => exact once_claim h hclaim
    · exact hreject
  | comparing code =>
    rw [verify]
    split
    case h_2 => exact hreject
    case h_1 mail hmail =>
      -- the code that matches is one of the challenge, and nothing is used up before it is deleted
      have hof : mail.challenge = ch.id := by
        unfold emailCodeMatches at hmail
        split at hmail
        · have hfilter := (Option.filter_eq_some_iff.mp hmail).2
          simp only [decide_eq_true_eq] at hfilter
          exact hfilter.1
        · cases hmail
      exact once_mailed h.tail hof
  | looking text =>
    rw [verify]
    split
    · exact hsame [_] (by simp [Task.presents])
    · exact hreject
  | marking id =>
    rw [verify]
    split
    · next s' huse => exact once_recovery h huse
    · exact hreject
  | rejecting => exact once_reject h.tail
  | accepted e => exact once_destroy hsole h

theorem once_resume (hsole : s.Sole l x t) (h : s.Once (t :: l)) :
    (s.resume x t).1.Once ((s.resume x t).2 ++ l) := by
  have hsame : ∀ new : List Task, (∀ t ∈ new, t.presents = none) → s.Once (new ++ l) :=
    fun new hnew => h.tail.quiet hnew rfl rfl (fun ch hch => ⟨ch, hch, rfl⟩) rfl rfl
  have hnone : ∀ t ∈ ([] : List Task), t.presents = none := fun t ht => nomatch ht
  cases t with
  | finding password => exact hsame [_] (by simp [Task.presents])
  | verifying hash password =>
    refine hsame _ fun t ht => ?_
    simp only [resume] at ht
    split at ht
    · cases List.mem_singleton.mp ht
      split <;> rfl
    · cases ht
  | replacing hash =>
    refine h.tail.quiet (fun t ht => ?_) rfl rfl (fun ch hch => nomatch hch) rfl rfl
    cases List.mem_singleton.mp ht
    rfl
  | creating hash =>
    have hcreated := once_create hash h.tail
    rw [resume]
    split
    · refine hcreated.quiet (fun t ht => ?_) rfl rfl (fun ch hch => ⟨ch, hch, rfl⟩) rfl rfl
      cases List.mem_singleton.mp ht
      rfl
    · exact hcreated
  | sending mail sends =>
    exact h.tail.saved fun _ => rfl
  | reloading c =>
    rw [resume]
    split
    · split
      · refine h.tail.quiet (fun t ht => ?_) rfl rfl (fun ch hch => ⟨ch, hch, rfl⟩) rfl rfl
        cases List.mem_singleton.mp ht
        rfl
      · exact h.tail
    · exact h.tail
  | loading c code method =>
    rw [resume]
    split
    · refine hsame [_] fun t ht => ?_
      cases List.mem_singleton.mp ht
      unfold secondStep
      split <;> split <;> rfl
    · exact h.tail
  | second ch stage => exact once_verify hsole h
  | entering via hash => exact once_enter h
  | saving step =>
    cases step with
    | none => exact h.tail
    | some step => exact once_save hsole h.tail
  | checking session hash current new =>
    refine hsame _ fun t ht => ?_
    simp only [resume] at ht
    split at ht
    · cases List.mem_singleton.mp ht
      rfl
    · cases ht
  | storing session new =>
    refine h.tail.quiet (fun t ht => ?_) rfl rfl (fun ch hch => ⟨ch, hch, rfl⟩) rfl rfl
    cases List.mem_singleton.mp ht
    rfl
  | ending session old =>
    exact h.tail.quiet hnone rfl rfl (fun ch hch => ⟨ch, hch, rfl⟩) rfl rfl
  | seeking token new =>
    refine hsame _ fun t ht => ?_
    simp only [resume] at ht
    split at ht
    · cases List.mem_singleton.mp ht
      rfl
    · cases ht
  | resetting token new =>
    rw [resume]
    split
    · exact h.tail.quiet hnone rfl rfl (fun ch hch => nomatch hch) rfl rfl
    · exact h.tail

theorem Start.once (h : Start s₀) : s₀.rows.Once s₀.tasks := by
  have htaken : ∀ c, s₀.rows.taken s₀.tasks c = 0 := fun c => by
    rw [taken, h.signIns, h.tasks]
    rfl
  have hused : ∀ e, s₀.rows.used s₀.tasks e = 0 := fun e => by
    rw [used, h.signIns, h.tasks]
    rfl
  refine ⟨⟨h.ids, fun c _ => htaken c, fun ch _ => htaken ch.id, fun c => ?_⟩,
    ⟨fun n => ?_, fun n hn => ?_, fun id => ?_, fun id hid => ?_⟩, ?_, ?_⟩
  · exact (htaken c).trans_le (Nat.zero_le _)
  · exact (hused _).trans_le (Nat.zero_le _)
  · rw [hused] at hn
    omega
  · exact (hused _).trans_le (Nat.zero_le _)
  · rw [hused] at hid
    omega
  · rw [h.signIns]
    exact fun x hx => nomatch hx
  · rw [h.tasks]
    exact fun t ht => nomatch ht

/-- An e-mailed code is used up with its challenge. -/
theorem Once.mail (h : s.Once l) (mail : Mail) :
    s.signIns.countP (·.2 = .email mail) ≤ s.signIns.countP (·.1 = mail.challenge) := by
  refine List.countP_mono_left fun x hx heq => ?_
  have hof := h.signed x hx
  simp only [decide_eq_true_eq] at heq ⊢
  rw [heq] at hof
  exact hof.symm

/-- In every run whose steps meet the condition, each challenge completes at most one sign-in, and
so does each e-mailed code, each TOTP step and each recovery code. -/
theorem signs_in_once (hstart : Start s₀) (hrun : exec accounts.step s₀ turns = some s₁)
    (hsole : Along accounts.step (Service.When Sole) s₀ turns) :
    (∀ c, s₁.rows.signIns.countP (·.1 = c) ≤ 1) ∧
      ∀ e, s₁.rows.signIns.countP (·.2 = e) ≤ 1 := by
  have h : s₁.rows.Once s₁.tasks := by
    refine Service.run_invariant (P := Once) ?_ ?_ ?_ hrun hsole hstart.once
    · exact fun s l l' hl h => h.perm hl
    · exact fun s l r h => once_arrive h
    · exact fun s l x t hD h => once_resume hD h
  have hchallenge : ∀ c, s₁.rows.signIns.countP (·.1 = c) ≤ 1 :=
    fun c => (Nat.le_add_right _ _).trans (h.challenges.challenge c)
  refine ⟨hchallenge, fun e => ?_⟩
  cases e with
  | totp step => exact (Nat.le_add_right _ _).trans (h.evidence.step step)
  | email mail => exact (h.mail mail).trans (hchallenge _)
  | recovery id => exact (Nat.le_add_right _ _).trans (h.evidence.code id)

/-- Two sign-ins with the codes of the app, one after the other. -/
def oneByOne : List (Turn Request Answer) :=
  .request (.login 7) :: goes 0 4 ++ .request (.verify 0 (.six 10) none) :: goes 0 6 ++
    .request (.login 7) :: goes 0 4 ++ .request (.verify 1 (.six 11) none) :: goes 0 6

theorem signs_in_once_oneByOne :
    ∃ s, exec accounts.step ⟨newAccount true false, []⟩ oneByOne = some s ∧
      s.rows.signIns = [(0, .totp 10), (1, .totp 11)] ∧
      s.rows.signIns.countP (·.2 = .totp 11) ≤ 1 := by
  have hrun : exec accounts.step ⟨newAccount true false, []⟩ oneByOne = some _ := rfl
  have hstart := start_newAccount true false
  exact ⟨_, hrun, rfl, (signs_in_once hstart hrun (by decide)).2 _⟩

/-- Two requests with the same e-mailed code, taking turns. -/
def atOnce : List (Turn Request Answer) :=
  .request (.login 7) :: goes 0 5 ++
    [.request (.verify 0 (.six 123456) none), .request (.verify 0 (.six 123456) none)] ++
    (List.replicate 4 (goes 0 1 ++ goes 1 1)).flatten

/-- A request with the code of step 10 saves the user after another has signed in with step 11; then
a third sends the code of step 11 again. -/
def savedLate : List (Turn Request Answer) :=
  .request (.login 7) :: goes 0 4 ++ .request (.verify 0 (.six 10) none) :: goes 0 4 ++
    .request (.login 7) :: goes 1 4 ++ .request (.verify 1 (.six 11) none) :: goes 1 6 ++
    goes 0 2 ++
    .request (.login 7) :: goes 0 4 ++ .request (.verify 2 (.six 11) none) :: goes 0 6

/-- One challenge and one e-mailed code complete two sign-ins; and one TOTP step does. -/
theorem signs_in_twice :
    (∃ s, exec accounts.step ⟨newAccount false true, []⟩ atOnce = some s ∧
      1 < s.rows.signIns.countP (·.1 = 0) ∧
      1 < s.rows.signIns.countP (·.2 = .email ⟨0, 0, 123456⟩)) ∧
    ∃ s, exec accounts.step ⟨newAccount true false, []⟩ savedLate = some s ∧
      1 < s.rows.signIns.countP (·.2 = .totp 11) := by
  refine ⟨⟨_, rfl, ?_⟩, _, rfl, ?_⟩
  · decide
  · decide

end Account

end Auth
