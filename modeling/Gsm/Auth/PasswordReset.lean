import Gsm.Auth.RateLimit
import Gsm.GoStd.Path
import Gsm.Machine.Tasks
import Mathlib.Logic.Function.Basic

/-!
# Password reset links

`auth/password-reset.ts` for all users: links are asked for, sent, used, replaced, purged and expire, each request taken
apart at its awaits. A transaction is one step, which may fail and then changes nothing.
-/

open Machine GoStd

namespace Auth.PasswordReset

/-- `RESET_TTL_MS` -/
def resetTtlMs : ℕ := 30 * 60 * 1000

/-- `perAccount` -/
def perAccount : RateLimiter := ⟨60_000, 1⟩

structure User where
  id : ℕ
  email : Str
  disabled : Bool
  passwordHash : Str
deriving DecidableEq

/-- `PasswordReset` -/
structure Reset where
  tokenHash : Str
  userId : ℕ
  expiresAt : ℕ
deriving DecidableEq

/-- A link that has been stored, and when. -/
structure Issued where
  token : Str
  userId : ℕ
  issuedAt : ℕ
deriving DecidableEq

/-- A link that has set a password: when it was looked up, and what had been issued when it was used. -/
structure Use where
  token : Str
  userId : ℕ
  foundAt : ℕ
  issued : List Issued

structure Rows where
  users : List User
  resets : List Reset
  /-- `isAvailable` -/
  smtp : Bool
  perAccount : ℕ → Option Hits
  now : ℕ
  /-- the requests that `perAccount` has let pass, with their times -/
  passed : List (ℕ × ℕ)
  /-- the tokens that `randomId` has given -/
  drawn : List Str
  issued : List Issued
  uses : List Use

/-- A request, by what it waits for. -/
inductive Task where
  /-- `isAvailable` of `requestReset` -/
  | asking (email : Str)
  /-- `User.findOne`, after it -/
  | finding (email : Str)
  /-- the transaction of `issue` -/
  | issuing (userId : ℕ) (token : Str)
  /-- `PasswordReset.findOne` of `resetPassword` -/
  | seeking (token : Str)
  /-- `hashPassword`, after it; the time is that of the lookup -/
  | hashing (token : Str) (userId foundAt : ℕ)
  /-- the transaction of `resetPassword` -/
  | resetting (token : Str) (userId foundAt : ℕ) (passwordHash : Str)
deriving DecidableEq

inductive Event where
  /-- with the address in lower case -/
  | requestReset (email : Str)
  | resetPassword (token : Str)
  | purgeExpiredResets
  /-- the user's row is written, or made -/
  | save (user : User)
  /-- the user's row is deleted, and with it what refers to it -/
  | delete (userId : ℕ)
  | setSmtp (smtp : Bool)
  | tick (ms : ℕ)

/-- What an answer brings: the token of `randomId`, the hash of `hashPassword`, and whether a transaction fails. -/
structure Answer where
  token : Str
  passwordHash : Str
  fails : Bool

variable (sha256Hex : Str → Str)

/-- `tokenHash` -/
def tokenHash (token : Str) : Str := sha256Hex ("password-reset:".toList ++ token)

namespace Rows

/-- `PasswordReset.findOne` of `resetPassword`, with its user -/
def find (s : Rows) (token : Str) : Option (Reset × User) :=
  match s.resets.find? fun r => decide (r.tokenHash = tokenHash sha256Hex token ∧ s.now < r.expiresAt) with
  | some r =>
      match s.users.find? (·.id = r.userId) with
      | some u => if u.disabled then none else some (r, u)
      | none => none
  | none => none

/-- The rest of `requestReset`: the limiter is asked, and the token drawn, before anything else is waited for. -/
def ask (s : Rows) (userId : ℕ) (token : Str) : Rows × List Task :=
  let (result, hits) := PasswordReset.perAccount.check (s.perAccount userId) s.now
  let s' := { s with perAccount := Function.update s.perAccount userId (some hits) }
  if result.ok then
    ({ s' with passed := s.passed ++ [(userId, s.now)], drawn := token :: s.drawn }, [.issuing userId token])
  else (s', [])

/-- The transaction of `issue` -/
def issue (s : Rows) (userId : ℕ) (token : Str) : Rows :=
  { s with
    resets := s.resets.filter (·.userId ≠ userId) ++
      [⟨tokenHash sha256Hex token, userId, s.now + resetTtlMs⟩]
    issued := s.issued ++ [⟨token, userId, s.now⟩] }

/-- The transaction of `resetPassword`: deleting the row claims the token. -/
def resetPassword (s : Rows) (token : Str) (userId foundAt : ℕ) (passwordHash : Str) : Rows :=
  if s.resets.countP (·.tokenHash = tokenHash sha256Hex token) = 1 then
    { s with
      resets := s.resets.filter (·.tokenHash ≠ tokenHash sha256Hex token)
      users := s.users.map fun u => if u.id = userId then { u with passwordHash } else u
      uses := s.uses ++ [⟨token, userId, foundAt, s.issued⟩] }
  else s

def arrive (s : Rows) : Event → Rows × List Task
  | .requestReset email => (s, [.asking email])
  | .resetPassword token => (s, [.seeking token])
  | .purgeExpiredResets => ({ s with resets := s.resets.filter (s.now ≤ ·.expiresAt) }, [])
  | .save user => ({ s with users := s.users.filter (·.id ≠ user.id) ++ [user] }, [])
  | .delete userId =>
      ({ s with users := s.users.filter (·.id ≠ userId), resets := s.resets.filter (·.userId ≠ userId) }, [])
  | .setSmtp smtp => ({ s with smtp }, [])
  | .tick ms => ({ s with now := s.now + ms }, [])

def resume (s : Rows) (x : Answer) : Task → Rows × List Task
  | .asking email => (s, if s.smtp then [.finding email] else [])
  | .finding email =>
      match s.users.find? (·.email = email) with
      | none => (s, [])
      | some u => if u.disabled then (s, []) else s.ask u.id x.token
  | .issuing userId token =>
      if x.fails = true ∨ ∀ u ∈ s.users, u.id ≠ userId then (s, []) else (s.issue sha256Hex userId token, [])
  | .seeking token =>
      match s.find sha256Hex token with
      | some (_, u) => (s, [.hashing token u.id s.now])
      | none => (s, [])
  | .hashing token userId foundAt => (s, [.resetting token userId foundAt x.passwordHash])
  | .resetting token userId foundAt passwordHash =>
      (if x.fails then s else s.resetPassword sha256Hex token userId foundAt passwordHash, [])

end Rows

def passwordReset : Service Rows Task Event Answer := ⟨Rows.arrive, Rows.resume sha256Hex⟩

/-- `randomId` gives a token that it has not given before. -/
def Fresh (s : Rows) (_ : List Task) (x : Answer) : Task → Prop
  | .finding _ => x.token ∉ s.drawn
  | _ => True

instance (s : Rows) (l : List Task) (x : Answer) (t : Task) : Decidable (Fresh s l x t) := by
  unfold Fresh
  split <;> infer_instance

/-! ## What is kept -/

/-- The token that is drawn and not yet stored -/
def Task.token : Task → Option Str
  | .issuing _ token => some token
  | _ => none

/-- The token, user and time of a lookup -/
def Task.found : Task → Option (Str × ℕ × ℕ)
  | .hashing token userId foundAt | .resetting token userId foundAt _ => some (token, userId, foundAt)
  | _ => none

/-- The link was issued to the user, and had not expired at the time. -/
def Valid (issued : List Issued) (token : Str) (userId foundAt : ℕ) : Prop :=
  ∃ e ∈ issued, e.token = token ∧ e.userId = userId ∧ foundAt < e.issuedAt + resetTtlMs

/-- The last link that was issued to the user -/
def lastOf (issued : List Issued) (userId : ℕ) : Option Issued := (issued.filter (·.userId = userId)).getLast?

/-- A link that has set a password was the last that its user had been issued, and had not expired when it was looked up. -/
def Use.Right (u : Use) : Prop :=
  ∃ e, lastOf u.issued u.userId = some e ∧ e.token = u.token ∧ u.foundAt < e.issuedAt + resetTtlMs

structure Kept (s : Rows) (l : List Task) : Prop where
  one : (s.resets.map (·.userId)).Nodup
  latest : ∀ r ∈ s.resets, ∃ e, lastOf s.issued r.userId = some e ∧ tokenHash sha256Hex e.token = r.tokenHash ∧
    r.expiresAt = e.issuedAt + resetTtlMs
  tokens : (l.filterMap Task.token ++ s.issued.map (·.token)).Nodup
  drawn : ∀ token ∈ l.filterMap Task.token ++ s.issued.map (·.token), token ∈ s.drawn
  found : ∀ t ∈ l, ∀ f, t.found = some f → Valid s.issued f.1 f.2.1 f.2.2
  once : (s.uses.map (·.token)).Nodup
  spent : ∀ u ∈ s.uses, (∃ e ∈ s.issued, e.token = u.token) ∧ ∀ r ∈ s.resets, r.tokenHash ≠ tokenHash sha256Hex u.token
  right : ∀ u ∈ s.uses, u.Right

section

variable {sha256Hex} {s s' : Rows} {l l' : List Task} {issued : List Issued} {e : Issued} {token : Str} {userId foundAt : ℕ}

theorem tokenHash_injective (hhash : sha256Hex.Injective) : (tokenHash sha256Hex).Injective :=
  fun _ _ h => List.append_cancel_left (hhash h)

theorem mem_of_lastOf (h : lastOf issued userId = some e) : e ∈ issued ∧ e.userId = userId := by
  have hmem := List.mem_filter.mp (List.mem_of_getLast? h)
  exact ⟨hmem.1, of_decide_eq_true hmem.2⟩

theorem lastOf_append_self (e : Issued) : lastOf (issued ++ [e]) e.userId = some e := by
  rw [lastOf, List.filter_append, List.filter_cons_of_pos (by simp), List.filter_nil, List.getLast?_append]
  rfl

theorem lastOf_append_of_ne (h : e.userId ≠ userId) : lastOf (issued ++ [e]) userId = lastOf issued userId := by
  rw [lastOf, List.filter_append, List.filter_cons_of_neg (by simpa using h), List.filter_nil, List.append_nil, lastOf]

theorem Valid.append (h : Valid issued token userId foundAt) (e : Issued) : Valid (issued ++ [e]) token userId foundAt := by
  obtain ⟨e', he, hvalid⟩ := h
  exact ⟨e', List.mem_append_left _ he, hvalid⟩

/-- A link is known by its token. -/
theorem Kept.eq_of_token (h : Kept sha256Hex s l) {e e' : Issued} (he : e ∈ s.issued) (he' : e' ∈ s.issued)
    (htoken : e.token = e'.token) : e = e' :=
  List.inj_on_of_nodup_map (List.nodup_append.mp h.tokens).2.1 he he' htoken

theorem Kept.perm (hl : l.Perm l') (h : Kept sha256Hex s l) : Kept sha256Hex s l' := by
  have htokens : (l.filterMap Task.token ++ s.issued.map (·.token)).Perm
      (l'.filterMap Task.token ++ s.issued.map (·.token)) := (hl.filterMap Task.token).append_right _
  exact { h with
    tokens := htokens.nodup_iff.mp h.tokens
    drawn := fun token hmem => h.drawn token (htokens.mem_iff.mpr hmem)
    found := fun t ht => h.found t (hl.mem_iff.mpr ht) }

/-- Links may go, and requests go on that have drawn no token and found no link but what is there. -/
theorem Kept.mono (h : Kept sha256Hex s l) (hresets : s'.resets.Sublist s.resets) (hissued : s'.issued = s.issued)
    (hdrawn : s'.drawn = s.drawn) (huses : s'.uses = s.uses)
    (htokens : (l'.filterMap Task.token).Sublist (l.filterMap Task.token))
    (hfound : ∀ t ∈ l', ∀ f, t.found = some f → Valid s.issued f.1 f.2.1 f.2.2) : Kept sha256Hex s' l' := by
  have hsub := htokens.append_right (s.issued.map (·.token))
  refine ⟨h.one.sublist (hresets.map _), fun r hr => ?_, ?_, fun token hmem => ?_, ?_, ?_, fun u hu => ?_, ?_⟩
  · rw [hissued]
    exact h.latest r (hresets.subset hr)
  · rw [hissued]
    exact h.tokens.sublist hsub
  · rw [hissued] at hmem
    rw [hdrawn]
    exact h.drawn token (hsub.subset hmem)
  · rw [hissued]
    exact hfound
  · rw [huses]
    exact h.once
  · rw [huses] at hu
    rw [hissued]
    exact ⟨(h.spent u hu).1, fun r hr => (h.spent u hu).2 r (hresets.subset hr)⟩
  · rw [huses]
    exact h.right

/-- The requests that were there have found what they have found. -/
theorem Kept.found_tail {t : Task} (h : Kept sha256Hex s (t :: l)) :
    ∀ u ∈ l, ∀ f, u.found = some f → Valid s.issued f.1 f.2.1 f.2.2 :=
  fun u hu => h.found u (List.mem_cons_of_mem t hu)

/-- A request ends, and with it what it has drawn. -/
theorem Kept.ends {t : Task} (h : Kept sha256Hex s (t :: l)) (hresets : s'.resets.Sublist s.resets)
    (hissued : s'.issued = s.issued) (hdrawn : s'.drawn = s.drawn) (huses : s'.uses = s.uses) : Kept sha256Hex s' l :=
  h.mono hresets hissued hdrawn huses ((List.sublist_cons_self t l).filterMap Task.token) h.found_tail

theorem kept_ask {t : Task} (h : Kept sha256Hex s (t :: l)) (hfresh : token ∉ s.drawn) :
    Kept sha256Hex (s.ask userId token).1 ((s.ask userId token).2 ++ l) := by
  have hends : Kept sha256Hex s l := h.ends (.refl _) rfl rfl rfl
  rw [Rows.ask]
  dsimp only
  split
  swap
  · exact h.ends (.refl _) rfl rfl rfl
  refine { hends with tokens := ?_, drawn := ?_, found := ?_ }
  · refine List.nodup_cons.mpr ⟨fun hmem => hfresh (hends.drawn token hmem), hends.tokens⟩
  · intro token' hmem
    rcases List.mem_cons.mp hmem with rfl | hmem
    · exact List.mem_cons_self
    · exact List.mem_cons_of_mem _ (hends.drawn token' hmem)
  · intro u hu f hf
    rcases List.mem_cons.mp hu with rfl | hu
    · exact nomatch hf
    · exact hends.found u hu f hf

theorem kept_issue (hhash : sha256Hex.Injective) (h : Kept sha256Hex s (.issuing userId token :: l)) :
    Kept sha256Hex (s.issue sha256Hex userId token) l := by
  have htokens : (token :: (l.filterMap Task.token ++ s.issued.map (·.token))).Nodup := h.tokens
  have hnew : ∀ e ∈ s.issued, e.token ≠ token := by
    rintro e he rfl
    exact (List.nodup_cons.mp htokens).1 (List.mem_append_right _ (List.mem_map_of_mem he))
  have hperm : (l.filterMap Task.token ++ (s.issued ++ [(⟨token, userId, s.now⟩ : Issued)]).map (·.token)).Perm
      (token :: (l.filterMap Task.token ++ s.issued.map (·.token))) := by
    rw [List.map_append, ← List.append_assoc]
    exact List.perm_append_singleton _ _
  refine ⟨?_, fun r hr => ?_, hperm.nodup_iff.mpr htokens, fun token' hmem => ?_, fun t ht f hf => ?_, h.once,
    fun u hu => ⟨?_, fun r hr => ?_⟩, h.right⟩
  · simp only [Rows.issue]
    rw [List.map_append, List.nodup_append]
    refine ⟨h.one.sublist (List.filter_sublist.map _), List.nodup_singleton _, fun id hid id' hid' => ?_⟩
    obtain ⟨r, hr, rfl⟩ := List.mem_map.mp hid
    rw [List.mem_singleton.mp hid']
    exact of_decide_eq_true (List.mem_filter.mp hr).2
  · rcases List.mem_append.mp hr with hr | hr
    · obtain ⟨e, hlast, hrest⟩ := h.latest r (List.mem_of_mem_filter hr)
      refine ⟨e, ?_, hrest⟩
      rw [← hlast]
      exact lastOf_append_of_ne fun heq : userId = r.userId => of_decide_eq_true (List.mem_filter.mp hr).2 heq.symm
    · rw [List.mem_singleton.mp hr]
      exact ⟨_, lastOf_append_self _, rfl, rfl⟩
  · exact h.drawn token' (hperm.mem_iff.mp hmem)
  · exact (h.found_tail t ht f hf).append _
  · obtain ⟨e, he, htoken⟩ := (h.spent u hu).1
    exact ⟨e, List.mem_append_left _ he, htoken⟩
  · rcases List.mem_append.mp hr with hr | hr
    · exact (h.spent u hu).2 r (List.mem_of_mem_filter hr)
    · rw [List.mem_singleton.mp hr]
      obtain ⟨e, he, htoken⟩ := (h.spent u hu).1
      exact fun heq => hnew e he (htoken.trans (tokenHash_injective hhash heq).symm)

theorem kept_seek (hhash : sha256Hex.Injective) (h : Kept sha256Hex s (.seeking token :: l)) {r : Reset} {u : User}
    (hfind : s.find sha256Hex token = some (r, u)) : Kept sha256Hex s (.hashing token u.id s.now :: l) := by
  rw [Rows.find] at hfind
  split at hfind
  swap
  · cases hfind
  next r' hr =>
  split at hfind
  swap
  · cases hfind
  next u' hu =>
  split at hfind
  · cases hfind
  cases hfind
  have hrow : r.tokenHash = tokenHash sha256Hex token ∧ s.now < r.expiresAt := by simpa using List.find?_some hr
  obtain ⟨e, hlast, htoken, hexpires⟩ := h.latest r (List.mem_of_find?_eq_some hr)
  obtain ⟨he, huser⟩ := mem_of_lastOf hlast
  have huid : u.id = r.userId := by simpa using List.find?_some hu
  refine h.mono (.refl _) rfl rfl rfl (.refl _) fun t ht f hf => ?_
  rcases List.mem_cons.mp ht with rfl | ht
  · obtain rfl := Option.some.inj hf
    refine ⟨e, he, tokenHash_injective hhash (htoken.trans hrow.1), huser.trans huid.symm, ?_⟩
    rw [← hexpires]
    exact hrow.2
  · exact h.found_tail t ht f hf

theorem kept_reset {passwordHash : Str} (hhash : sha256Hex.Injective)
    (h : Kept sha256Hex s (.resetting token userId foundAt passwordHash :: l)) :
    Kept sha256Hex (s.resetPassword sha256Hex token userId foundAt passwordHash) l := by
  have hends : Kept sha256Hex s l := h.ends (.refl _) rfl rfl rfl
  rw [Rows.resetPassword]
  split
  swap
  · exact hends
  next hclaimed =>
  -- the row that is deleted is that of the link that was looked up
  obtain ⟨r, hr, hrow⟩ := List.countP_pos_iff.mp (by rw [hclaimed]; exact Nat.one_pos)
  obtain ⟨e, hlast, htoken, -⟩ := h.latest r hr
  obtain ⟨he, huser⟩ := mem_of_lastOf hlast
  have hetoken : e.token = token := tokenHash_injective hhash (htoken.trans (of_decide_eq_true hrow))
  obtain ⟨e', he', htoken', huser', hvalid⟩ := h.found _ List.mem_cons_self _ rfl
  obtain rfl : e = e' := h.eq_of_token he he' (hetoken.trans htoken'.symm)
  have hnew : ∀ u ∈ s.uses, u.token ≠ token := by
    rintro u hu rfl
    exact (h.spent u hu).2 r hr (of_decide_eq_true hrow)
  refine { hends with
    one := hends.one.sublist (List.filter_sublist.map _)
    latest := fun r hr => hends.latest r (List.mem_of_mem_filter hr)
    once := ?_, spent := ?_, right := ?_ }
  · rw [List.map_append, List.nodup_append]
    refine ⟨hends.once, List.nodup_singleton _, fun t ht t' ht' => ?_⟩
    obtain ⟨u, hu, rfl⟩ := List.mem_map.mp ht
    rw [List.mem_singleton.mp ht']
    exact hnew u hu
  · intro u hu
    rcases List.mem_append.mp hu with hu | hu
    · exact ⟨(hends.spent u hu).1, fun r hr => (hends.spent u hu).2 r (List.mem_of_mem_filter hr)⟩
    · rw [List.mem_singleton.mp hu]
      exact ⟨⟨e, he, hetoken⟩, fun r hr => of_decide_eq_true (List.mem_filter.mp hr).2⟩
  · intro u hu
    rcases List.mem_append.mp hu with hu | hu
    · exact hends.right u hu
    · rw [List.mem_singleton.mp hu]
      refine ⟨e, ?_, hetoken, hvalid⟩
      have hid : e.userId = userId := huser'
      rw [← hid, huser]
      exact hlast

theorem kept_arrive (e : Event) (h : Kept sha256Hex s l) :
    Kept sha256Hex (s.arrive e).1 ((s.arrive e).2 ++ l) := by
  cases e with
  | requestReset email =>
    refine h.mono (.refl _) rfl rfl rfl (.refl _) fun t ht f hf => ?_
    rcases List.mem_cons.mp ht with rfl | ht
    · exact nomatch hf
    · exact h.found t ht f hf
  | resetPassword token =>
    refine h.mono (.refl _) rfl rfl rfl (.refl _) fun t ht f hf => ?_
    rcases List.mem_cons.mp ht with rfl | ht
    · exact nomatch hf
    · exact h.found t ht f hf
  | purgeExpiredResets => exact h.mono List.filter_sublist rfl rfl rfl (.refl _) h.found
  | save user => exact h.mono (.refl _) rfl rfl rfl (.refl _) h.found
  | delete userId => exact h.mono List.filter_sublist rfl rfl rfl (.refl _) h.found
  | setSmtp smtp => exact h.mono (.refl _) rfl rfl rfl (.refl _) h.found
  | tick ms => exact h.mono (.refl _) rfl rfl rfl (.refl _) h.found

theorem kept_resume {x : Answer} (hhash : sha256Hex.Injective) (t : Task) (hfresh : Fresh s l x t)
    (h : Kept sha256Hex s (t :: l)) :
    Kept sha256Hex (s.resume sha256Hex x t).1 ((s.resume sha256Hex x t).2 ++ l) := by
  have hends : Kept sha256Hex s l := h.ends (.refl _) rfl rfl rfl
  cases t with
  | asking email =>
    rw [Rows.resume]
    split
    · refine h.mono (.refl _) rfl rfl rfl (.refl _) fun t ht f hf => ?_
      rcases List.mem_cons.mp ht with rfl | ht
      · exact nomatch hf
      · exact h.found_tail t ht f hf
    · exact hends
  | finding email =>
    rw [Rows.resume]
    split
    · exact hends
    split
    · exact hends
    · exact kept_ask h hfresh
  | issuing userId token =>
    rw [Rows.resume]
    split
    · exact hends
    · exact kept_issue hhash h
  | seeking token =>
    rw [Rows.resume]
    split
    · next r u hfind => exact kept_seek hhash h hfind
    · exact hends
  | hashing token userId foundAt =>
    refine h.mono (.refl _) rfl rfl rfl (.refl _) fun t ht f hf => ?_
    rcases List.mem_cons.mp ht with rfl | ht
    · exact h.found _ List.mem_cons_self f hf
    · exact h.found_tail t ht f hf
  | resetting token userId foundAt passwordHash =>
    rw [Rows.resume]
    split
    · exact hends
    · exact kept_reset hhash h

end

/-! ## How often a link is sent -/

/-- Requests that have been let pass for one account stand a window apart: none passes while the window of the last goes
on, as every window that is known has its hit. -/
structure Spaced (s : Rows) : Prop where
  apart : s.passed.Pairwise fun p q => p.1 = q.1 → p.2 + PasswordReset.perAccount.windowMs ≤ q.2
  hit : ∀ userId e, s.perAccount userId = some e → 1 ≤ e.count
  window : ∀ p ∈ s.passed, ∃ e, s.perAccount p.1 = some e ∧ p.2 + PasswordReset.perAccount.windowMs ≤ e.resetAt

section

variable {sha256Hex} {s : Rows} {turns : List (Turn Event Answer)}

/-- Only the account that is asked for has its window changed. -/
theorem Spaced.update (userId : ℕ) (hits : Hits) (h : Spaced s) (hcount : 1 ≤ hits.count)
    (hle : ∀ e, s.perAccount userId = some e → e.resetAt ≤ hits.resetAt) :
    Spaced { s with perAccount := Function.update s.perAccount userId (some hits) } := by
  refine ⟨h.apart, fun id e he => ?_, fun p hp => ?_⟩ <;> dsimp only at *
  · rcases eq_or_ne id userId with rfl | hid
    · rw [Function.update_self] at he
      rw [← Option.some.inj he]
      exact hcount
    · rw [Function.update_of_ne hid] at he
      exact h.hit id e he
  · obtain ⟨e, he, hwindow⟩ := h.window p hp
    rcases eq_or_ne p.1 userId with hid | hid
    · rw [hid] at he ⊢
      exact ⟨hits, Function.update_self .., hwindow.trans (hle e he)⟩
    · exact ⟨e, (Function.update_of_ne hid ..).trans he, hwindow⟩

theorem spaced_ask (userId : ℕ) (token : Str) (h : Spaced s) : Spaced (s.ask userId token).1 := by
  by_cases hbegins : RateLimiter.Begins (s.perAccount userId) s.now
  · have hupdate := h.update userId ⟨1, s.now + PasswordReset.perAccount.windowMs⟩ le_rfl
      fun e he => (hbegins e he).trans (Nat.le_add_right _ _)
    have hpassed : (PasswordReset.perAccount.check (s.perAccount userId) s.now).1.ok = true := by
      refine RateLimiter.check_ok.mpr fun e he hnow => ?_
      have := hbegins e he
      omega
    rw [Rows.ask]
    dsimp only
    rw [hpassed, if_pos rfl, RateLimiter.check_begins hbegins]
    refine ⟨List.pairwise_append.mpr ⟨h.apart, List.pairwise_singleton _ _, ?_⟩, hupdate.hit, fun p hp => ?_⟩
    · intro p hp q hq hid
      rw [List.mem_singleton.mp hq] at hid ⊢
      obtain ⟨e, he, hle⟩ := h.window p hp
      rw [hid] at he
      exact hle.trans (hbegins e he)
    · rcases List.mem_append.mp hp with hp | hp
      · exact hupdate.window p hp
      · rw [List.mem_singleton.mp hp]
        exact ⟨_, Function.update_self .., le_rfl⟩
  · unfold RateLimiter.Begins at hbegins
    push Not at hbegins
    obtain ⟨e, he, hnow⟩ := hbegins
    have hdenied : (PasswordReset.perAccount.check (s.perAccount userId) s.now).1.ok = false := by
      rw [Bool.eq_false_iff]
      intro hok
      have hleft : e.count < 1 := RateLimiter.check_ok.mp hok e he hnow
      have := h.hit userId e he
      omega
    rw [Rows.ask]
    dsimp only
    rw [hdenied, if_neg Bool.false_ne_true]
    refine h.update userId _ ?_ fun e' he' => ?_
    · rw [he, RateLimiter.check_goes_on hnow]
      exact Nat.le_add_left 1 _
    · rw [he, RateLimiter.check_goes_on hnow, ← Option.some.inj (he.symm.trans he')]

/-- Nothing else hits the limiter. -/
theorem spaced_resume {x : Answer} (t : Task) (h : Spaced s) : Spaced (s.resume sha256Hex x t).1 := by
  have hsame : ∀ s' : Rows, s'.perAccount = s.perAccount → s'.passed = s.passed → Spaced s' := by
    rintro s' hper hpassed
    constructor
    · rw [hpassed]
      exact h.apart
    · rw [hper]
      exact h.hit
    · rw [hper, hpassed]
      exact h.window
  unfold Rows.resume
  split
  · exact h
  · split
    · exact h
    split
    · exact h
    · exact spaced_ask _ _ h
  · split
    · exact h
    · exact hsame _ rfl rfl
  · split <;> exact h
  · exact h
  · split
    · exact h
    rw [Rows.resetPassword]
    split
    · exact hsame _ rfl rfl
    · exact h

/-! ## Every run -/

/-- The server begins, with the users of its database and no link. -/
structure Rows.New (s : Rows) : Prop where
  resets : s.resets = []
  perAccount : ∀ userId, s.perAccount userId = none
  passed : s.passed = []
  issued : s.issued = []
  uses : s.uses = []

theorem kept_new (h : s.New) : Kept sha256Hex s [] := by
  refine ⟨?_, ?_, ?_, ?_, List.forall_mem_nil _, ?_, ?_, ?_⟩
  · rw [h.resets]
    exact List.nodup_nil
  · rw [h.resets]
    exact List.forall_mem_nil _
  · rw [h.issued]
    exact List.nodup_nil
  · rw [h.issued]
    exact List.forall_mem_nil _
  · rw [h.uses]
    exact List.nodup_nil
  · rw [h.uses]
    exact List.forall_mem_nil _
  · rw [h.uses]
    exact List.forall_mem_nil _

theorem spaced_new (h : s.New) : Spaced s := by
  refine ⟨?_, fun userId e he => ?_, ?_⟩
  · rw [h.passed]
    exact List.Pairwise.nil
  · rw [h.perAccount] at he
    cases he
  · rw [h.passed]
    exact List.forall_mem_nil _

/-- However its requests take turns: a user has one link at most, a link sets a password once at most, it is then the
last that its user was sent and had not expired when it was looked up, and the links for one account are sent a minute
apart. -/
theorem resets_safe {s' : Shared Rows Task} (hhash : sha256Hex.Injective) (hs : s.New)
    (hrun : exec (passwordReset sha256Hex).step ⟨s, []⟩ turns = some s')
    (hfresh : Along (passwordReset sha256Hex).step (Service.When Fresh) ⟨s, []⟩ turns) :
    (s'.rows.resets.map (·.userId)).Nodup ∧ (s'.rows.uses.map (·.token)).Nodup ∧ (∀ u ∈ s'.rows.uses, u.Right) ∧
      s'.rows.passed.Pairwise fun p q => p.1 = q.1 → p.2 + 60_000 ≤ q.2 := by
  have hinv := Service.run_invariant (P := fun rows l => Kept sha256Hex rows l ∧ Spaced rows)
    (fun _ _ _ hl h => ⟨h.1.perm hl, h.2⟩) (fun _ _ e h => ⟨kept_arrive e h.1, ?_⟩)
    (fun _ _ _ t hD h => ⟨kept_resume hhash t hD h.1, spaced_resume t h.2⟩) hrun hfresh ⟨kept_new hs, spaced_new hs⟩
  · exact ⟨hinv.1.one, hinv.1.once, hinv.1.right, hinv.2.apart⟩
  · cases e <;> exact ⟨h.2.apart, h.2.hit, h.2.window⟩

end

/-- A second link replaces the first, and is used twice at a time. -/
def linkReplaced : List (Turn Event Answer) :=
  let asks (token : Str) : List (Turn Event Answer) :=
    [.request (.requestReset ['a']), .answer 0 ⟨token, [], false⟩, .answer 0 ⟨token, [], false⟩,
      .answer 0 ⟨token, [], false⟩]
  asks ['x'] ++ [.request (.tick 60_000)] ++ asks ['y'] ++
    [.request (.resetPassword ['x']), .answer 0 ⟨[], [], false⟩, .request (.resetPassword ['y']),
      .request (.resetPassword ['y']), .answer 0 ⟨[], ['p'], false⟩, .answer 1 ⟨[], ['q'], false⟩,
      .answer 0 ⟨[], ['p'], false⟩, .answer 1 ⟨[], ['q'], false⟩, .answer 1 ⟨[], [], false⟩,
      .answer 0 ⟨[], [], false⟩]

def oneUser : Rows := ⟨[⟨1, ['a'], false, []⟩], [], true, fun _ => none, 0, [], [], [], []⟩

theorem resets_safe_linkReplaced : ∃ s', exec (passwordReset id).step ⟨oneUser, []⟩ linkReplaced = some s' ∧
    s'.rows.users = [⟨1, ['a'], false, ['q']⟩] ∧ s'.rows.uses.map (·.token) = [['y']] ∧
    s'.rows.passed = [(1, 0), (1, 60_000)] ∧ (s'.rows.uses.map (·.token)).Nodup := by
  have hrun : exec (passwordReset id).step ⟨oneUser, []⟩ linkReplaced = some _ := rfl
  have hsafe := resets_safe Function.injective_id ⟨rfl, fun _ => rfl, rfl, rfl, rfl⟩ hrun (by decide +kernel)
  exact ⟨_, hrun, rfl, rfl, rfl, hsafe.2.1⟩

end Auth.PasswordReset
