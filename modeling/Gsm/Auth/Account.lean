import Gsm.Auth.Attempts
import Gsm.Machine.Tasks

/-!
# Signing in

One user's rows, and the requests that sign the user in or change the password, taken apart at their
awaits: `authenticate` and `startLogin`, `resend`, `verifyLogin` and `completeLogin`,
`changePassword` and `resetPassword`. Each database operation is one task, and so is a transaction. A
task keeps the copies that its request has loaded; a save writes what the request has assigned.
-/

open Machine

namespace Auth

/-- `MAX_SENDS` -/
def maxSends : ℕ := 3

/-- `SecondFactor` -/
inductive SecondFactor where
  | totp
  | email
  | recovery
deriving DecidableEq

/-- A code as it was typed, normalised: six digits, or anything else. -/
inductive Code where
  | six (digits : ℕ)
  | other (text : ℕ)
deriving DecidableEq

/-- An e-mailed code; `codeHash` hashes its digits with the challenge. The serial number tells two
mails with the same digits apart. -/
structure Mail where
  challenge : ℕ
  serial : ℕ
  digits : ℕ
deriving DecidableEq

/-- A `passwordHash`: what it verifies, and its salt. The salts are numbered in the order in which
the hashes were stored. -/
structure Hash where
  salt : ℕ
  password : ℕ
deriving DecidableEq

/-- `LoginChallenge` of purpose login, with the hash that its password was verified against. -/
structure LoginChallenge where
  id : ℕ
  codeHash : Option Mail
  attempts : ℕ
  sends : ℕ
  expiresAt : ℕ
  openedWith : Hash
deriving DecidableEq

/-- `RecoveryCode` -/
structure RecoveryCode where
  id : ℕ
  code : ℕ
  used : Bool
deriving DecidableEq

/-- `Session`, with the hash that its password was verified against. -/
structure Session where
  id : ℕ
  startedWith : Hash
deriving DecidableEq

/-- What a second step was accepted for. -/
inductive Evidence where
  | totp (step : ℤ)
  | email (mail : Mail)
  | recovery (id : ℕ)
deriving DecidableEq

/-- A password change that has ended the sessions it ends: the hash it replaced, and the session
that made it. -/
structure PasswordChange where
  old : Hash
  keep : Option ℕ
deriving DecidableEq

/-- One user's rows. -/
structure Account where
  passwordHash : Hash
  totpEnabled : Bool
  twoFactorEmail : Bool
  /-- the codes of the authenticator app -/
  hotp : ℤ → ℕ
  totpLastStep : Option ℤ
  recoveryCodes : List RecoveryCode
  challenges : List LoginChallenge
  /-- the next id that no challenge has had -/
  nextChallenge : ℕ
  nextMail : ℕ
  sessions : List Session
  nextSession : ℕ
  /-- the tokens of `PasswordReset` -/
  resets : List ℕ
  now : ℕ
  /-- the sign-ins that a second step has completed -/
  signIns : List (ℕ × Evidence)
  changes : List PasswordChange

/-- Where `verifyLogin` stands, with its challenge loaded. -/
inductive Stage where
  /-- `totpSecret` and `matchStep` -/
  | matching (code : Code)
  /-- `User.update` of `claimStep` -/
  | claiming (step : ℤ)
  /-- `codeHash` of `emailCodeMatches` -/
  | comparing (code : Code)
  /-- `RecoveryCode.findOne` of `useRecoveryCode` -/
  | looking (text : ℕ)
  /-- `RecoveryCode.update`, after it -/
  | marking (id : ℕ)
  /-- `challenge.save` or `challenge.destroy` of `reject` -/
  | rejecting
  /-- `challenge.destroy`, after the right code -/
  | accepted (evidence : Evidence)
deriving DecidableEq

/-- A request, by what it waits for. -/
inductive Task where
  /-- `User.findOne` of `authenticate` -/
  | finding (password : ℕ)
  /-- `verifyPassword`, after it -/
  | verifying (hash : Hash) (password : ℕ)
  /-- `LoginChallenge.destroy` of `newChallenge` -/
  | replacing (hash : Hash)
  /-- `LoginChallenge.create`, after it -/
  | creating (hash : Hash)
  /-- `challenge.save` of `sendEmailCode` -/
  | sending (mail : Mail) (sends : ℕ)
  /-- `load` of `resend` -/
  | reloading (c : ℕ)
  /-- `load` of `verifyLogin` -/
  | loading (c : ℕ) (code : Code) (method : Option SecondFactor)
  | second (challenge : LoginChallenge) (stage : Stage)
  /-- `Session.create` of `completeLogin` -/
  | entering (via : Option (ℕ × Evidence)) (hash : Hash)
  /-- `user.save`, after it, with the `totpLastStep` that was assigned -/
  | saving (step : Option ℤ)
  /-- `verifyPassword` of `changePassword` -/
  | checking (session : ℕ) (hash : Hash) (current new : ℕ)
  /-- `user.save`, after it -/
  | storing (session new : ℕ)
  /-- `endSessions`, after it -/
  | ending (session : ℕ) (old : Hash)
  /-- `PasswordReset.findOne` of `resetPassword` -/
  | seeking (token new : ℕ)
  /-- the transaction, after it -/
  | resetting (token new : ℕ)
deriving DecidableEq

/-- What comes with an answer: that the user is disabled or blocked, a limit refuses the request, the
link has expired or the seed cannot be opened; and the digits that `generateCode` draws. -/
structure Answer where
  refused : Bool
  digits : ℕ

inductive Request where
  | login (password : ℕ)
  | resend (c : ℕ)
  | verify (c : ℕ) (code : Code) (method : Option SecondFactor)
  | changePassword (session current new : ℕ)
  | resetPassword (token new : ℕ)
  /-- `issue` of a reset token -/
  | issue (token : ℕ)
  | logout (session : ℕ)
  | purgeExpiredChallenges
  | tick (ms : ℕ)

/-- `totp.matchStep` -/
def matchStep (hotp : ℤ → ℕ) (code : Code) (now : ℕ) : Option ℤ :=
  let current : ℤ := (now / 1000 / 30 : ℕ)
  match code with
  | .six digits => [current - 1, current, current + 1].find? (hotp · = digits)
  | .other _ => none

namespace Account

/-- `twoFactorMethods` -/
def twoFactorMethods (s : Account) : List SecondFactor :=
  (if s.totpEnabled then [.totp] else []) ++ if s.twoFactorEmail then [.email] else []

/-- `guessFactor` -/
def guessFactor (s : Account) : Code → SecondFactor
  | .six _ => if .totp ∈ s.twoFactorMethods then .totp else .email
  | .other _ => .recovery

/-- `load` -/
def load (s : Account) (c : ℕ) (refused : Bool) : Option LoginChallenge :=
  if refused then none else s.challenges.find? fun ch => ch.id = c ∧ s.now < ch.expiresAt

theorem load_mem {s : Account} {ch : LoginChallenge} {c : ℕ} {refused : Bool}
    (h : s.load c refused = some ch) :
    ch ∈ s.challenges := by
  unfold load at h
  split at h
  · cases h
  · exact List.mem_of_find?_eq_some h

/-- A save of the challenge's row, if it is still there. -/
def saveChallenge (s : Account) (c : ℕ) (f : LoginChallenge → LoginChallenge) : Account :=
  { s with challenges := s.challenges.map fun ch => if ch.id = c then f ch else ch }

/-- `challenge.destroy` -/
def destroyChallenge (s : Account) (c : ℕ) : Account :=
  { s with challenges := s.challenges.filter (·.id ≠ c) }

/-- `sendEmailCode`, up to its save -/
def sendEmailCode (s : Account) (c sends digits : ℕ) : Account × List Task :=
  ({ s with nextMail := s.nextMail + 1 }, [.sending ⟨c, s.nextMail, digits⟩ (sends + 1)])

/-- `LoginChallenge.create` -/
def createChallenge (s : Account) (hash : Hash) : Account :=
  { s with
    challenges := s.challenges ++ [⟨s.nextChallenge, none, 0, 0, s.now + codeTtlMs, hash⟩]
    nextChallenge := s.nextChallenge + 1 }

/-- Where `verifyLogin` goes with its challenge. -/
def secondStep (s : Account) (code : Code) (method : Option SecondFactor) : Stage :=
  match method.getD (s.guessFactor code) with
  | .totp => if s.totpEnabled then .matching code else .rejecting
  | .email => if s.twoFactorEmail then .comparing code else .rejecting
  | .recovery =>
      match code with
      | .other text => .looking text
      | .six _ => .rejecting

/-- `emailCodeMatches` -/
def emailCodeMatches (ch : LoginChallenge) (code : Code) : Option Mail :=
  match code with
  | .six digits => ch.codeHash.filter fun mail => mail.challenge = ch.id ∧ mail.digits = digits
  | .other _ => none

/-- `claimStep` -/
def claimStep (s : Account) (step : ℤ) : Option Account :=
  if ∀ last ∈ s.totpLastStep, last < step then some { s with totpLastStep := some step } else none

/-- The `update` of `useRecoveryCode` -/
def useRecoveryCode (s : Account) (id : ℕ) : Option Account :=
  if ∃ r ∈ s.recoveryCodes, r.id = id ∧ r.used = false then
    some { s with
      recoveryCodes := s.recoveryCodes.map fun r => if r.id = id then { r with used := true } else r }
  else none

/-- `reject` -/
def reject (s : Account) (ch : LoginChallenge) : Account :=
  if maxAttempts ≤ ch.attempts + 1 then s.destroyChallenge ch.id
  else s.saveChallenge ch.id fun row => { row with attempts := ch.attempts + 1 }

/-- `createSession` -/
def createSession (s : Account) (hash : Hash) : Account :=
  { s with
    sessions := s.sessions ++ [⟨s.nextSession, hash⟩]
    nextSession := s.nextSession + 1 }

/-- `user.save` with a new `passwordHash` -/
def storePassword (s : Account) (new : ℕ) : Account :=
  { s with passwordHash := ⟨s.passwordHash.salt + 1, new⟩ }

/-- The end of a password change; only the audit entry follows. -/
def endSessions (s : Account) (keep : Option ℕ) (old : Hash) : Account :=
  { s with
    sessions := s.sessions.filter fun session => keep = some session.id
    changes := s.changes ++ [⟨old, keep⟩] }

/-- What the request's own step was, to be saved with the user. -/
def assignedStep : Option (ℕ × Evidence) → Option ℤ
  | some (_, .totp step) => some step
  | _ => none

def arrive (s : Account) : Request → Account × List Task
  | .login password => (s, [.finding password])
  | .resend c => (s, [.reloading c])
  | .verify c code method => (s, [.loading c code method])
  | .changePassword session current new =>
      -- the middleware loads the session with its user
      (s, if ∃ x ∈ s.sessions, x.id = session then [.checking session s.passwordHash current new]
        else [])
  | .resetPassword token new => (s, [.seeking token new])
  | .issue token => ({ s with resets := [token] }, [])
  | .logout session => ({ s with sessions := s.sessions.filter (·.id ≠ session) }, [])
  | .purgeExpiredChallenges =>
      ({ s with challenges := s.challenges.filter (s.now ≤ ·.expiresAt) }, [])
  | .tick ms => ({ s with now := s.now + ms }, [])

/-- `verifyLogin`, with its challenge loaded. -/
def verify (s : Account) (x : Answer) (ch : LoginChallenge) : Stage → Account × List Task
  | .matching code =>
      match if x.refused then none else matchStep s.hotp code s.now with
      | some step => (s, [.second ch (.claiming step)])
      | none => (s, [.second ch .rejecting])
  | .claiming step =>
      match s.claimStep step with
      | some s' => (s', [.second ch (.accepted (.totp step))])
      | none => (s, [.second ch .rejecting])
  | .comparing code =>
      match emailCodeMatches ch code with
      | some mail => (s, [.second ch (.accepted (.email mail))])
      | none => (s, [.second ch .rejecting])
  | .looking text =>
      match s.recoveryCodes.find? fun r => r.code = text ∧ r.used = false with
      | some r => (s, [.second ch (.marking r.id)])
      | none => (s, [.second ch .rejecting])
  | .marking id =>
      match s.useRecoveryCode id with
      | some s' => (s', [.second ch (.accepted (.recovery id))])
      | none => (s, [.second ch .rejecting])
  | .rejecting => (s.reject ch, [])
  | .accepted evidence =>
      -- how many rows the destroy has deleted is not looked at
      (s.destroyChallenge ch.id, [.entering (some (ch.id, evidence)) ch.openedWith])

def resume (s : Account) (x : Answer) : Task → Account × List Task
  -- the hash is the loaded one from here on
  | .finding password => (s, [.verifying s.passwordHash password])
  | .verifying hash password =>
      (s, if password = hash.password ∧ x.refused = false then
          [if s.twoFactorMethods = [] then .entering none hash else .replacing hash]
        else [])
  | .replacing hash => ({ s with challenges := [] }, [.creating hash])
  | .creating hash =>
      if s.twoFactorMethods.head? = some .email then
        (s.createChallenge hash).sendEmailCode s.nextChallenge 0 x.digits
      else (s.createChallenge hash, [])
  | .sending mail sends => (s.saveChallenge mail.challenge fun row =>
      { row with codeHash := some mail, sends := sends }, [])
  | .reloading c =>
      match s.load c x.refused with
      | some ch =>
          if s.twoFactorEmail ∧ ch.sends < maxSends then s.sendEmailCode c ch.sends x.digits
          else (s, [])
      | none => (s, [])
  | .loading c code method =>
      match s.load c x.refused with
      | some ch => (s, [.second ch (s.secondStep code method)])
      | none => (s, [])
  | .second ch stage => s.verify x ch stage
  | .entering via hash => ({ s.createSession hash with signIns := s.signIns ++ via.toList },
      [.saving (assignedStep via)])
  -- without a look at the step that the row has by now
  | .saving step => ({ s with totpLastStep := step <|> s.totpLastStep }, [])
  | .checking session hash current new =>
      (s, if current = hash.password then [.storing session new] else [])
  -- the sessions are still there until the next answer, and the challenges stay
  | .storing session new => (s.storePassword new, [.ending session s.passwordHash])
  | .ending session old => (s.endSessions (some session) old, [])
  | .seeking token new =>
      (s, if token ∈ s.resets ∧ x.refused = false then [.resetting token new] else [])
  | .resetting token new =>
      -- deleting the row claims the token
      if token ∈ s.resets then
        ({ (s.storePassword new).endSessions none s.passwordHash with
          resets := s.resets.erase token
          challenges := [] }, [])
      else (s, [])

end Account

/-- The requests of one user. -/
def accounts : Service Account Task Request Answer where
  arrive := Account.arrive
  resume := Account.resume

namespace Account

/-- Nothing under way, and nothing recorded yet. -/
structure Start (s : Shared Account Task) : Prop where
  tasks : s.tasks = []
  signIns : s.rows.signIns = []
  changes : s.rows.changes = []
  ids : ∀ ch ∈ s.rows.challenges, ch.id < s.rows.nextChallenge

/-- A user with an authenticator app or with e-mailed codes, and no challenge yet. -/
def newAccount (totp email : Bool) : Account where
  passwordHash := ⟨0, 7⟩
  totpEnabled := totp
  twoFactorEmail := email
  hotp := Int.toNat
  totpLastStep := none
  recoveryCodes := []
  challenges := []
  nextChallenge := 0
  nextMail := 0
  sessions := []
  nextSession := 0
  resets := []
  now := 300000
  signIns := []
  changes := []

theorem start_newAccount (totp email : Bool) : Start ⟨newAccount totp email, []⟩ :=
  ⟨rfl, rfl, rfl, fun _ hch => nomatch hch⟩

/-- The `i`-th task goes on `n` times. -/
def goes (i n : ℕ) : List (Turn Request Answer) :=
  List.replicate n (.answer i ⟨false, 123456⟩)

end Account

end Auth
