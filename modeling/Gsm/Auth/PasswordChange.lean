import Gsm.Auth.Account

/-!
# Sessions of an old password

A password change ends the sessions there are; `resetPassword` also drops the pending challenges. What
a sign-in request has loaded before stays with it: a hash that it has verified, or a challenge. So
no session of the old password comes after the change where none of these is left at that moment.
-/

open Machine

namespace Auth

/-- A sign-in request that rests on a password verified against the hash. -/
def Task.restsOn (h : Hash) : Task → Bool
  | .verifying hash password => hash = h ∧ password = h.password
  | .replacing hash => hash = h
  | .creating hash => hash = h
  | .second ch _ => ch.openedWith = h
  | .entering _ hash => hash = h
  | _ => false

/-- The hash that a password change has replaced, while its sessions are still to be ended. -/
def Task.replaced : Task → Option Hash
  | .ending _ old => some old
  | _ => none

namespace Account

/-- When a change ends the sessions, no sign-in request rests on the old password, and
`changePassword`, which leaves the challenges, finds none that was opened with it. -/
def Settled (s : Account) (l : List Task) (_ : Answer) : Task → Prop
  | .ending _ old => (∀ t ∈ l, t.restsOn old = false) ∧ ∀ ch ∈ s.challenges, ch.openedWith ≠ old
  | .resetting token _ => token ∈ s.resets → ∀ t ∈ l, t.restsOn s.passwordHash = false
  | _ => True

instance (s : Account) (l : List Task) (x : Answer) (t : Task) : Decidable (s.Settled l x t) := by
  unfold Settled
  split <;> infer_instance

/-- Nothing of a password that was changed is left: it is older than the user's, no request and no
challenge rests on it, and no session but the one that made the change. -/
structure Changed (s : Account) (l : List Task) : Prop where
  older : ∀ c ∈ s.changes, c.old.salt < s.passwordHash.salt
  pending : ∀ t ∈ l, ∀ old ∈ t.replaced, old.salt < s.passwordHash.salt
  tasks : ∀ c ∈ s.changes, ∀ t ∈ l, t.restsOn c.old = false
  challenges : ∀ c ∈ s.changes, ∀ ch ∈ s.challenges, ch.openedWith ≠ c.old
  sessions : ∀ c ∈ s.changes, ∀ x ∈ s.sessions, x.startedWith = c.old → c.keep = some x.id

variable {s s' : Account} {l l' new : List Task} {t : Task} {x : Answer} {ch : LoginChallenge}
  {hash : Hash} {s₀ s₁ : Shared Account Task} {turns : List (Turn Request Answer)}

theorem Changed.perm (hl : l.Perm l') (h : s.Changed l) : s.Changed l' := by
  refine ⟨h.older, fun t ht => ?_, fun c hc t ht => ?_, h.challenges, h.sessions⟩
  · exact h.pending t (hl.mem_iff.mpr ht)
  · exact h.tasks c hc t (hl.mem_iff.mpr ht)

/-- A task that ends leaves nothing behind. -/
theorem Changed.tail (h : s.Changed (t :: l)) : s.Changed l := by
  refine ⟨h.older, fun t ht => ?_, fun c hc t ht => ?_, h.challenges, h.sessions⟩
  · exact h.pending t (List.mem_cons_of_mem _ ht)
  · exact h.tasks c hc t (List.mem_cons_of_mem _ ht)

/-- A new challenge and a new session do not rest on an old password, no more than their request. -/
theorem Changed.opens (h : s.Changed l) (hhash : ∀ c ∈ s.changes, hash ≠ c.old) :
    (s.createChallenge hash).Changed l ∧ (s.createSession hash).Changed l := by
  constructor
  · refine ⟨h.older, h.pending, h.tasks, fun c hc ch hch => ?_, h.sessions⟩
    rcases List.mem_append.mp hch with hch | hch
    · exact h.challenges c hc ch hch
    · cases List.mem_singleton.mp hch
      exact hhash c hc
  · refine ⟨h.older, h.pending, h.tasks, h.challenges, fun c hc x hx hstarted => ?_⟩
    rcases List.mem_append.mp hx with hx | hx
    · exact h.sessions c hc x hx hstarted
    · cases List.mem_singleton.mp hx
      exact absurd hstarted (hhash c hc)

/-- Tasks that rest on no old password may come; challenges and sessions may go. -/
theorem Changed.quiet (h : s.Changed l)
    (hnew : ∀ t ∈ new, t.replaced = none ∧ ∀ c ∈ s.changes, t.restsOn c.old = false)
    (hchanges : s'.changes = s.changes) (hhash : s'.passwordHash = s.passwordHash)
    (hrows : ∀ ch ∈ s'.challenges, ∃ row ∈ s.challenges, row.openedWith = ch.openedWith)
    (hsessions : ∀ x ∈ s'.sessions, x ∈ s.sessions) : s'.Changed (new ++ l) := by
  constructor
  · rw [hchanges, hhash]
    exact h.older
  · intro t ht old hold
    rw [hhash]
    rcases List.mem_append.mp ht with ht | ht
    · rw [(hnew t ht).1] at hold
      cases hold
    · exact h.pending t ht old hold
  · rw [hchanges]
    intro c hc t ht
    rcases List.mem_append.mp ht with ht | ht
    · exact (hnew t ht).2 c hc
    · exact h.tasks c hc t ht
  · rw [hchanges]
    intro c hc ch hch
    obtain ⟨row, hrow, hopened⟩ := hrows ch hch
    rw [← hopened]
    exact h.challenges c hc row hrow
  · rw [hchanges]
    exact fun c hc x hx => h.sessions c hc x (hsessions x hx)

theorem Changed.same (h : s.Changed l) (new : List Task)
    (hnew : ∀ t ∈ new, t.replaced = none ∧ ∀ c ∈ s.changes, t.restsOn c.old = false) :
    s.Changed (new ++ l) :=
  h.quiet hnew rfl rfl (fun ch hch => ⟨ch, hch, rfl⟩) fun _ hx => hx

/-- The user's hash is newer than every one that was changed. -/
theorem Changed.current (h : s.Changed l) (c : PasswordChange) (hc : c ∈ s.changes) :
    s.passwordHash ≠ c.old := by
  intro heq
  have hlt := h.older c hc
  rw [heq] at hlt
  exact Nat.lt_irrefl _ hlt

/-! ## The two ways to change it -/

theorem changed_end {session : ℕ} {old : Hash} (h : s.Changed (.ending session old :: l))
    (htasks : ∀ t ∈ l, t.restsOn old = false) (hopen : ∀ ch ∈ s.challenges, ch.openedWith ≠ old) :
    (s.endSessions (some session) old).Changed l := by
  have hkept : ∀ y ∈ (s.endSessions (some session) old).sessions,
      y ∈ s.sessions ∧ some session = some y.id := fun y hy => by
    obtain ⟨hmem, hkeep⟩ := List.mem_filter.mp hy
    exact ⟨hmem, of_decide_eq_true hkeep⟩
  have hmem : ∀ c ∈ (s.endSessions (some session) old).changes,
      c ∈ s.changes ∨ c = ⟨old, some session⟩ := fun c hc => by
    simpa [endSessions] using hc
  constructor
  · intro c hc
    rcases hmem c hc with hc | rfl
    · exact h.older c hc
    · exact h.pending _ List.mem_cons_self old rfl
  · exact h.tail.pending
  · intro c hc t ht
    rcases hmem c hc with hc | rfl
    · exact h.tail.tasks c hc t ht
    · exact htasks t ht
  · intro c hc ch hch
    rcases hmem c hc with hc | rfl
    · exact h.challenges c hc ch hch
    · exact hopen ch hch
  · intro c hc y hy hstarted
    rcases hmem c hc with hc | rfl
    · exact h.sessions c hc y (hkept y hy).1 hstarted
    · exact (hkept y hy).2

theorem changed_reset {new : ℕ} {rest : List ℕ} (h : s.Changed l)
    (htasks : ∀ t ∈ l, t.restsOn s.passwordHash = false) :
    Changed { (s.storePassword new).endSessions none s.passwordHash with
      resets := rest
      challenges := [] } l := by
  have hmem : ∀ c ∈ ((s.storePassword new).endSessions none s.passwordHash).changes,
      c ∈ s.changes ∨ c = ⟨s.passwordHash, none⟩ := fun c hc => by
    simpa [endSessions, storePassword] using hc
  refine ⟨fun c hc => ?_, fun t ht old hold => ?_, fun c hc t ht => ?_, fun c hc ch hch => ?_,
    fun c hc y hy => ?_⟩
  · show c.old.salt < s.passwordHash.salt + 1
    rcases hmem c hc with hc | rfl
    · exact (h.older c hc).trans (Nat.lt_succ_self _)
    · exact Nat.lt_succ_self _
  · exact (h.pending t ht old hold).trans (Nat.lt_succ_self _)
  · rcases hmem c hc with hc | rfl
    · exact h.tasks c hc t ht
    · exact htasks t ht
  · cases hch
  · have hnone := (List.mem_filter.mp hy).2
    simp at hnone

theorem changed_store {session new : ℕ} (h : s.Changed l) :
    (s.storePassword new).Changed (.ending session s.passwordHash :: l) := by
  refine ⟨fun c hc => ?_, fun t ht old hold => ?_, fun c hc t ht => ?_, h.challenges, h.sessions⟩
  · exact (h.older c hc).trans (Nat.lt_succ_self _)
  · show old.salt < s.passwordHash.salt + 1
    rcases List.mem_cons.mp ht with rfl | ht
    · cases hold
      exact Nat.lt_succ_self _
    · exact (h.pending t ht old hold).trans (Nat.lt_succ_self _)
  · rcases List.mem_cons.mp ht with rfl | ht
    · rfl
    · exact h.tasks c hc t ht

/-! ## All tasks -/

theorem changed_arrive {r : Request} (h : s.Changed l) :
    (s.arrive r).1.Changed ((s.arrive r).2 ++ l) := by
  have hnone : ∀ t ∈ ([] : List Task), t.replaced = none ∧
      ∀ c ∈ s.changes, t.restsOn c.old = false := fun t ht => nomatch ht
  cases r with
  | login password => exact h.same _ (by simp [arrive, Task.replaced, Task.restsOn])
  | resend c => exact h.same _ (by simp [arrive, Task.replaced, Task.restsOn])
  | verify c code method => exact h.same _ (by simp [arrive, Task.replaced, Task.restsOn])
  | changePassword session current new =>
    refine h.same _ fun t ht => ?_
    simp only [arrive] at ht
    split at ht
    · cases List.mem_singleton.mp ht
      exact ⟨rfl, fun _ _ => rfl⟩
    · cases ht
  | resetPassword token new => exact h.same _ (by simp [arrive, Task.replaced, Task.restsOn])
  | issue token => exact h.quiet hnone rfl rfl (fun ch hch => ⟨ch, hch, rfl⟩) fun _ hy => hy
  | logout session =>
    exact h.quiet hnone rfl rfl (fun ch hch => ⟨ch, hch, rfl⟩) fun _ => List.mem_of_mem_filter
  | purgeExpiredChallenges =>
    exact h.quiet hnone rfl rfl (fun ch hch => ⟨ch, List.mem_of_mem_filter hch, rfl⟩) fun _ hy => hy
  | tick ms => exact h.quiet hnone rfl rfl (fun ch hch => ⟨ch, hch, rfl⟩) fun _ hy => hy

theorem Changed.saved {c : ℕ} {f : LoginChallenge → LoginChallenge} (h : s.Changed l)
    (hf : ∀ row, (f row).openedWith = row.openedWith) : (s.saveChallenge c f).Changed l := by
  refine ⟨h.older, h.pending, h.tasks, fun d hd ch hch => ?_, h.sessions⟩
  obtain ⟨row, hrow, rfl⟩ := List.mem_map.mp hch
  have hold := h.challenges d hd row hrow
  split
  · rwa [hf row]
  · exact hold

theorem Changed.destroyed {c : ℕ} (h : s.Changed l) : (s.destroyChallenge c).Changed l :=
  ⟨h.older, h.pending, h.tasks,
    fun d hd ch hch => h.challenges d hd ch (List.mem_of_mem_filter hch), h.sessions⟩

/-- A second step goes on with its challenge, and signs in with the hash it was opened with. -/
theorem changed_verify {stage : Stage} (h : s.Changed (.second ch stage :: l)) :
    (s.verify x ch stage).1.Changed ((s.verify x ch stage).2 ++ l) := by
  have hrests : ∀ c ∈ s.changes, (Task.second ch stage).restsOn c.old = false :=
    fun c hc => h.tasks c hc _ List.mem_cons_self
  have hnext : ∀ next : Stage, s.Changed (.second ch next :: l) := fun next => by
    refine h.tail.same [_] fun t ht => ?_
    cases List.mem_singleton.mp ht
    exact ⟨rfl, hrests⟩
  cases stage with
  | matching code =>
    rw [verify]
    split
    · exact hnext _
    · exact hnext _
  | claiming step =>
    rw [verify]
    split
    · next s' hclaim =>
      unfold claimStep at hclaim
      split at hclaim
      · cases hclaim
        have h' := hnext (.accepted (.totp step))
        exact ⟨h'.older, h'.pending, h'.tasks, h'.challenges, h'.sessions⟩
      · cases hclaim
    · exact hnext _
  | comparing code =>
    rw [verify]
    split
    · exact hnext _
    · exact hnext _
  | looking text =>
    rw [verify]
    split
    · exact hnext _
    · exact hnext _
  | marking id =>
    rw [verify]
    split
    · next s' huse =>
      unfold useRecoveryCode at huse
      split at huse
      · cases huse
        have h' := hnext (.accepted (.recovery id))
        exact ⟨h'.older, h'.pending, h'.tasks, h'.challenges, h'.sessions⟩
      · cases huse
    · exact hnext _
  | rejecting =>
    show (s.reject ch).Changed l
    unfold reject
    split
    · exact h.tail.destroyed
    · exact h.tail.saved fun _ => rfl
  | accepted e =>
    refine h.tail.destroyed.same [_] fun t ht => ?_
    cases List.mem_singleton.mp ht
    exact ⟨rfl, hrests⟩

theorem changed_resume (hsettled : s.Settled l x t) (h : s.Changed (t :: l)) :
    (s.resume x t).1.Changed ((s.resume x t).2 ++ l) := by
  have hrests : ∀ c ∈ s.changes, t.restsOn c.old = false :=
    fun c hc => h.tasks c hc t List.mem_cons_self
  have hsend : ∀ (s' : Account) (c sends digits : ℕ), s'.Changed l →
      (s'.sendEmailCode c sends digits).1.Changed ((s'.sendEmailCode c sends digits).2 ++ l) := by
    intro s' c sends digits h'
    refine h'.quiet (fun t ht => ?_) rfl rfl (fun ch hch => ⟨ch, hch, rfl⟩) fun _ hy => hy
    cases List.mem_singleton.mp ht
    exact ⟨rfl, fun _ _ => rfl⟩
  cases t with
  | finding password =>
    refine h.tail.same [_] fun t ht => ?_
    cases List.mem_singleton.mp ht
    refine ⟨rfl, fun c hc => ?_⟩
    -- what is loaded now is the user's hash, which no change has replaced
    have hne := h.current c hc
    simp [Task.restsOn, hne]
  | verifying hash password =>
    refine h.tail.same _ fun t ht => ?_
    simp only [resume] at ht
    split at ht
    · next hok =>
      -- the password was right, so the request rests on the hash from here on
      have hne : ∀ c ∈ s.changes, hash ≠ c.old := by
        rintro c hc rfl
        have hrest := hrests c hc
        simp [Task.restsOn, hok.1] at hrest
      cases List.mem_singleton.mp ht
      split
      · exact ⟨rfl, fun c hc => by simpa [Task.restsOn] using hne c hc⟩
      · exact ⟨rfl, fun c hc => by simpa [Task.restsOn] using hne c hc⟩
    · cases ht
  | replacing hash =>
    refine h.tail.quiet (fun t ht => ?_) rfl rfl (fun ch hch => nomatch hch) fun _ hy => hy
    cases List.mem_singleton.mp ht
    exact ⟨rfl, hrests⟩
  | creating hash =>
    have hne : ∀ c ∈ s.changes, hash ≠ c.old := fun c hc => by
      simpa [Task.restsOn] using hrests c hc
    have hcreated := (h.tail.opens hne).1
    rw [resume]
    split
    · exact hsend _ _ _ _ hcreated
    · exact hcreated
  | sending mail sends => exact h.tail.saved fun _ => rfl
  | reloading c =>
    rw [resume]
    split
    · split
      · exact hsend _ _ _ _ h.tail
      · exact h.tail
    · exact h.tail
  | loading c code method =>
    rw [resume]
    split
    · next ch hch =>
      refine h.tail.same [_] fun t ht => ?_
      cases List.mem_singleton.mp ht
      refine ⟨rfl, fun d hd => ?_⟩
      -- no challenge that is still open was opened with an old password
      have hne := h.challenges d hd ch (load_mem hch)
      simpa [Task.restsOn] using hne
    · exact h.tail
  | second ch stage => exact changed_verify h
  | entering via hash =>
    have hne : ∀ c ∈ s.changes, hash ≠ c.old := fun c hc => by
      simpa [Task.restsOn] using hrests c hc
    refine (h.tail.opens hne).2.quiet (fun t ht => ?_) rfl rfl (fun ch hch => ⟨ch, hch, rfl⟩)
      fun _ hy => hy
    cases List.mem_singleton.mp ht
    exact ⟨rfl, fun _ _ => rfl⟩
  | saving step => exact ⟨h.older, h.tail.pending, h.tail.tasks, h.challenges, h.sessions⟩
  | checking session hash current new =>
    refine h.tail.same _ fun t ht => ?_
    simp only [resume] at ht
    split at ht
    · cases List.mem_singleton.mp ht
      exact ⟨rfl, fun _ _ => rfl⟩
    · cases ht
  | storing session new => exact changed_store h.tail
  | ending session old => exact changed_end h hsettled.1 hsettled.2
  | seeking token new =>
    refine h.tail.same _ fun t ht => ?_
    simp only [resume] at ht
    split at ht
    · cases List.mem_singleton.mp ht
      exact ⟨rfl, fun _ _ => rfl⟩
    · cases ht
  | resetting token new =>
    rw [resume]
    split
    · next htoken => exact changed_reset h.tail (hsettled htoken)
    · exact h.tail

theorem Start.changed (h : Start s₀) : s₀.rows.Changed s₀.tasks := by
  have hnone : ∀ c, c ∉ s₀.rows.changes := fun c hc => by
    rw [h.changes] at hc
    cases hc
  refine ⟨fun c hc => absurd hc (hnone c), fun t ht => ?_, fun c hc => absurd hc (hnone c),
    fun c hc => absurd hc (hnone c), fun c hc => absurd hc (hnone c)⟩
  rw [h.tasks] at ht
  cases ht

/-- In every run whose steps meet the condition: once a password change has ended, there is no
session of the old password, nor of a challenge opened with it, but the one that made the change. -/
theorem old_password_ends (hstart : Start s₀) (hrun : exec accounts.step s₀ turns = some s₁)
    (hsettled : Along accounts.step (Service.When Settled) s₀ turns) :
    ∀ c ∈ s₁.rows.changes, ∀ x ∈ s₁.rows.sessions,
      x.startedWith = c.old → c.keep = some x.id := by
  have h : s₁.rows.Changed s₁.tasks := by
    refine Service.run_invariant (P := Changed) ?_ ?_ ?_ hrun hsettled hstart.changed
    · exact fun s l l' hl h => h.perm hl
    · exact fun s l r h => changed_arrive h
    · exact fun s l x t hD h => changed_resume hD h
  exact h.sessions

/-- A change with two sessions open, and sign-ins with both passwords afterwards. -/
def changedAlone : List (Turn Request Answer) :=
  .request (.login 7) :: goes 0 4 ++ .request (.login 7) :: goes 0 4 ++
    .request (.changePassword 0 7 8) :: goes 0 3 ++
    .request (.login 7) :: goes 0 2 ++ .request (.login 8) :: goes 0 4

theorem old_password_ends_changedAlone :
    ∃ s, exec accounts.step ⟨newAccount false false, []⟩ changedAlone = some s ∧
      s.rows.changes = [⟨⟨0, 7⟩, some 0⟩] ∧
      s.rows.sessions = [⟨0, ⟨0, 7⟩⟩, ⟨2, ⟨1, 8⟩⟩] ∧
      ∀ x ∈ s.rows.sessions, x.startedWith = ⟨0, 7⟩ → some 0 = some x.id := by
  have hrun : exec accounts.step ⟨newAccount false false, []⟩ changedAlone = some _ := rfl
  have hstart := start_newAccount false false
  refine ⟨_, hrun, rfl, rfl, ?_⟩
  exact old_password_ends hstart hrun (by decide) ⟨⟨0, 7⟩, some 0⟩ List.mem_cons_self

/-- The password is changed while a challenge is open, which is then completed. -/
def challengeKept : List (Turn Request Answer) :=
  .request (.login 7) :: goes 0 4 ++ .request (.verify 0 (.six 10) none) :: goes 0 6 ++
    .request (.login 7) :: goes 0 4 ++ .request (.changePassword 0 7 8) :: goes 0 3 ++
    .request (.verify 1 (.six 11) none) :: goes 0 6

/-- The password is reset between a login's verification of it and its session. -/
def resetBetween : List (Turn Request Answer) :=
  .request (.issue 5) :: .request (.login 7) :: goes 0 2 ++
    .request (.resetPassword 5 8) :: goes 1 2 ++ goes 0 2

/-- Sessions of the old password that come after either change. -/
theorem old_password_stays :
    (∃ s, exec accounts.step ⟨newAccount true false, []⟩ challengeKept = some s ∧
      ∃ c ∈ s.rows.changes, ∃ x ∈ s.rows.sessions, x.startedWith = c.old ∧ c.keep ≠ some x.id) ∧
    ∃ s, exec accounts.step ⟨newAccount false false, []⟩ resetBetween = some s ∧
      ∃ c ∈ s.rows.changes, ∃ x ∈ s.rows.sessions, x.startedWith = c.old ∧ c.keep ≠ some x.id := by
  refine ⟨⟨_, rfl, ?_⟩, _, rfl, ?_⟩
  · decide
  · decide

end Account

end Auth
