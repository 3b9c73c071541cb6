import Mathlib
import Gsm.Data.Base64

/-!
# SFTP keys and user names

`keys.ts`, and how the server picks a user's SFTP name. A public key is read from a line of an `authorized_keys` file
and stored without its comment; a user name is an SFTP name and the first part of an instance's id.
-/

open Js

namespace Server.SftpKeys

/-! ## Public keys -/

/-- Key types the agent's SSH server accepts. -/
def sshKeyTypes : List Text :=
  ["ssh-ed25519", "ecdsa-sha2-nistp256", "ecdsa-sha2-nistp384", "ecdsa-sha2-nistp521",
    "sk-ssh-ed25519@openssh.com", "sk-ecdsa-sha2-nistp256@openssh.com", "ssh-rsa"].map text

def minRsaBits : ℕ := 2048

structure ParsedKey where
  type : Text
  blob : List UInt8
  comment : Text
deriving DecidableEq

/-- `getUint32`, the first byte the highest -/
def getUint32 (b : List UInt8) : ℕ := b.foldl (fun n x => n * 256 + x.toNat) 0

/-- The string at an offset, and where the next one starts -/
def readString (buf : List UInt8) (offset : ℕ) : Option (List UInt8 × ℕ) :=
  if buf.length < offset + 4 then none
  else
    let len := getUint32 ((buf.drop offset).take 4)
    if buf.length < offset + 4 + len then none
    else some ((buf.drop (offset + 4)).take len, offset + 4 + len)

def bitLength (mpint : List UInt8) : ℕ :=
  match mpint.dropWhile (· == 0) with
  | [] => 0
  | x :: rest => rest.length * 8 + x.toNat.size

/-- `decode` is `new TextDecoder().decode`. -/
def keyProblem (decode : List UInt8 → Text) (type : Text) (blob : List UInt8) : Option Text :=
  match readString blob 0 with
  | none => some (text "The key data does not match its type")
  | some (inner, next) =>
      if decode inner != type then some (text "The key data does not match its type")
      else if type == text "ssh-rsa" then
        match (readString blob next).bind fun e => readString blob e.2 with
        | none => some (text "The key data is incomplete")
        | some (n, _) =>
            if bitLength n < minRsaBits then
              some (text "RSA keys need at least " ++ text (toString minRsaBits) ++ text " bits")
            else none
      else if (readString blob next).isNone then some (text "The key data is incomplete")
      else none

/-- Parse one authorized_keys line ("type base64 [comment]"); an error message when it is not one. -/
def parsePublicKey (decode : List UInt8 → Text) (line : Text) : Except Text ParsedKey :=
  let s := trim line
  if text "PRIVATE KEY" <:+: s then
    .error (text "That is a private key. Paste the public one (the .pub file) instead")
  else
    match splitSpace s with
    | type :: b64 :: rest =>
        if type = [] ∨ b64 = [] then .error (text "Paste a public key such as \"ssh-ed25519 AAAA… you@laptop\"")
        else if !sshKeyTypes.contains type then
          .error (text "Unsupported key type " ++ type ++ text "; use ed25519, ECDSA or RSA")
        else
          match atob b64 with
          | none => .error (text "The key is not valid base64")
          | some blob =>
              match keyProblem decode type blob with
              | some problem => .error problem
              | none => .ok ⟨type, blob, [0x20].intercalate rest⟩
    | _ => .error (text "Paste a public key such as \"ssh-ed25519 AAAA… you@laptop\"")

/-- OpenSSH's fingerprint: "SHA256:" and the unpadded base64 of the key blob's SHA-256. -/
def fingerprint (sha256 : List UInt8 → List UInt8) (blob : List UInt8) : Text :=
  text "SHA256:" ++ (btoa (sha256 blob)).rdropWhile (· == padUnit)

/-- The stored form: type and key, no comment. -/
def canonicalKey (key : ParsedKey) : Text := key.type ++ 0x20 :: btoa key.blob

variable {decode : List UInt8 → Text} {line type : Text} {blob b : List UInt8} {key : ParsedKey}

/-- What is accepted is one of the types with data that fits it. -/
theorem parsePublicKey_ok (h : parsePublicKey decode line = .ok key) :
    key.type ∈ sshKeyTypes ∧ keyProblem decode key.type key.blob = none := by
  rw [parsePublicKey] at h
  split at h
  · cases h
  split at h
  · split at h
    · cases h
    split at h
    · cases h
    next htype =>
    split at h
    · cases h
    split at h
    · cases h
    next hproblem =>
    obtain rfl := Except.ok.inj h
    rw [Bool.not_eq_true, Bool.not_eq_false', List.contains_iff_mem] at htype
    exact ⟨htype, hproblem⟩
  · cases h

theorem type_visible (h : type ∈ sshKeyTypes) {u : UInt16} (hu : u ∈ type) : isSpace u = false := by
  have hall : sshKeyTypes.all (·.all fun u => decide (33 ≤ u.toNat ∧ u.toNat < 128)) = true := by decide
  obtain ⟨hlow, hhigh⟩ := of_decide_eq_true (List.all_eq_true.mp (List.all_eq_true.mp hall type h) u hu)
  exact isSpace_visible hlow hhigh

theorem btoa_ne_nil (h : b ≠ []) : btoa b ≠ [] := by
  intro hnil
  have hread := atob_btoa b
  rw [hnil] at hread
  exact h (Option.some.inj hread).symm

theorem btoa_not_space {u : UInt16} (hu : u ∈ btoa b) : isSpace u = false :=
  isSpace_visible (btoa_visible hu).1 (btoa_visible hu).2

/-- No stored key looks like a private one. -/
theorem not_private (h : type ∈ sshKeyTypes) (b : List UInt8) :
    ¬text "PRIVATE KEY" <:+: type ++ 0x20 :: btoa b := by
  rintro ⟨before, after, heq⟩
  have hsplit : text "PRIVATE KEY" = text "PRIVATE" ++ 0x20 :: text "KEY" := by decide
  rw [hsplit, List.append_assoc, List.append_assoc, List.cons_append, ← List.append_assoc] at heq
  -- the space between the words is the only one
  obtain ⟨htype, -⟩ := (List.append_cons_inj_of_notMem (fun hmem => absurd (type_visible h hmem) (by decide))
    (fun hmem => absurd (btoa_not_space hmem) (by decide))).mp heq.symm
  have hall : sshKeyTypes.all (fun t => !endsWith t (text "PRIVATE")) = true := by decide
  have hend := List.all_eq_true.mp hall type h
  rw [Bool.not_eq_true', endsWith, htype] at hend
  exact absurd (List.isSuffixOf_iff_suffix.mpr ⟨before, rfl⟩) (by rw [hend]; exact Bool.false_ne_true)

/-- The stored form of a key is read as that key, without its comment. -/
theorem parsePublicKey_canonicalKey (h : parsePublicKey decode line = .ok key) :
    parsePublicKey decode (canonicalKey key) = .ok { key with comment := [] } := by
  obtain ⟨htype, hproblem⟩ := parsePublicKey_ok h
  have hblob : key.blob ≠ [] := by
    intro hnil
    rw [hnil] at hproblem
    cases hproblem
  have hb64 := btoa_ne_nil hblob
  have htype' : key.type ≠ [] := by
    rintro hnil
    rw [hnil] at htype
    exact absurd htype (by decide)
  have hwords := splitSpace_words (fun u hu => type_visible htype hu) (fun u hu => btoa_not_space hu) hb64
  have htrim : trim (canonicalKey key) = canonicalKey key := by
    refine trim_of_ends (fun u hu => ?_) fun u hu => ?_
    · obtain ⟨v, rest, hcons⟩ := List.exists_cons_of_ne_nil htype'
      rw [canonicalKey, hcons, List.cons_append, List.head?_cons, Option.mem_some_iff] at hu
      subst hu
      exact type_visible htype (hcons ▸ List.mem_cons_self)
    · rw [canonicalKey, List.getLast?_append, List.getLast?_cons, List.getLast?_eq_some_getLast hb64] at hu
      obtain rfl := Option.some.inj hu
      exact btoa_not_space (List.getLast_mem hb64)
  have hpublic : ¬text "PRIVATE KEY" <:+: canonicalKey key := not_private htype key.blob
  rw [parsePublicKey, htrim, if_neg hpublic, canonicalKey, hwords]
  dsimp only
  rw [if_neg (by simp [htype', hb64]), if_neg (by simp [htype]), atob_btoa]
  dsimp only
  rw [hproblem]
  rfl

/-! ## User names -/

/-- `toLowerCase` of an ASCII unit -/
def lowerUnit (u : UInt16) : UInt16 := if 0x41 ≤ u && u ≤ 0x5A then u + 0x20 else u

/-- `toLowerCase`, of which only what it does to ASCII text is asked. -/
structure LowerCase where
  lower : Text → Text
  ascii : ∀ s, (∀ u ∈ s, u.toNat < 128) → lower s = s.map lowerUnit

def hyphen : UInt16 := 0x2D

def point : UInt16 := 0x2E

/-- `[0-9a-f]` -/
def isHexUnit (u : UInt16) : Bool := (0x30 ≤ u && u ≤ 0x39) || (0x61 ≤ u && u ≤ 0x66)

/-- `[a-z0-9_-]` -/
def isNameUnit (u : UInt16) : Bool :=
  (0x61 ≤ u && u ≤ 0x7A) || (0x30 ≤ u && u ≤ 0x39) || u == 0x5F || u == hyphen

/-- `.replace(/[^a-z0-9_-]+/g, "-")` -/
def hyphened : Text → Text
  | [] => []
  | [u] => if isNameUnit u then [u] else [hyphen]
  | u :: v :: rest =>
      if isNameUnit u then u :: hyphened (v :: rest)
      else if isNameUnit v then hyphen :: hyphened (v :: rest)
      else hyphened (v :: rest)

variable (lc : LowerCase)

/-- An SFTP name from an email: its local part, lowercased, letters, digits, `_` and `-` only. -/
def sftpNameBase (email : Text) : Text :=
  let l := lc.lower ((split email 0x40).headD [])
  let l := (((hyphened l).dropWhile (· == hyphen)).rdropWhile (· == hyphen)).take 32
  if l = [] then text "user" else l

/-- The `n`-th name that `ensureSftpName` tries -/
def candidate (email : Text) (n : ℕ) : Text :=
  if n = 1 then sftpNameBase lc email
  else (sftpNameBase lc email).take 34 ++ hyphen :: text (toString n)

/-- A try of `ensureSftpName` that gets as far as its update -/
structure Attempt where
  user : ℕ
  email : Text
  n : ℕ
  tried : 1 ≤ n ∧ n < 1000

/-- `User.update` of a user without a name; the index lets no name be there twice. -/
def assign (names : List (ℕ × Text)) (a : Attempt) : List (ℕ × Text) :=
  if names.any fun e => e.1 == a.user || e.2 == candidate lc a.email a.n then names
  else (a.user, candidate lc a.email a.n) :: names

/-- What `crypto.randomUUID` gives: 32 digits in five groups -/
structure Uuid where
  digits : Text
  length : digits.length = 32
  hex : digits.all isHexUnit = true

def Uuid.text (uuid : Uuid) : Text :=
  uuid.digits.take 8 ++ hyphen :: ((uuid.digits.drop 8).take 4 ++ hyphen :: ((uuid.digits.drop 12).take 4 ++
    hyphen :: ((uuid.digits.drop 16).take 4 ++ hyphen :: uuid.digits.drop 20)))

/-- The instance part of an SFTP username. -/
def shortId (uuid : Text) : Text := uuid.take 8

/-- `<sftp name>.<short instance id>`, case-insensitively; null when it is not one. -/
def parseSftpUsername (username : Text) : Option (Text × Text) :=
  let s := lc.lower (trim username)
  match s.takeWhile isNameUnit, s.dropWhile isNameUnit with
  | name, 0x2E :: id =>
      if 1 ≤ name.length ∧ name.length ≤ 40 ∧ id.length = 8 ∧ id.all isHexUnit = true then some (name, id) else none
  | _, _ => none

/-- The name of `instanceSftp`'s answer -/
def sftpUsername (name uuid : Text) : Text := name ++ point :: shortId uuid

variable {lc} {email name s : Text} {n : ℕ}

theorem isHexUnit_iff {u : UInt16} :
    isHexUnit u = true ↔ 0x30 ≤ u.toNat ∧ u.toNat ≤ 0x39 ∨ 0x61 ≤ u.toNat ∧ u.toNat ≤ 0x66 := by
  simp [isHexUnit, UInt16.le_iff_toNat_le]

theorem isNameUnit_iff {u : UInt16} :
    isNameUnit u = true ↔ 0x61 ≤ u.toNat ∧ u.toNat ≤ 0x7A ∨ 0x30 ≤ u.toNat ∧ u.toNat ≤ 0x39 ∨ u.toNat = 0x5F ∨
      u.toNat = 0x2D := by
  simp [isNameUnit, hyphen, UInt16.le_iff_toNat_le, ← UInt16.toNat_inj, or_assoc]

/-- The sign stays as it is in lower case, and can be seen. -/
structure Plain (u : UInt16) : Prop where
  ascii : u.toNat < 128
  lower : lowerUnit u = u
  visible : isSpace u = false

theorem Plain.of_toNat {u : UInt16} (h : 33 ≤ u.toNat ∧ u.toNat < 128 ∧ ¬(0x41 ≤ u.toNat ∧ u.toNat ≤ 0x5A)) :
    Plain u := by
  refine ⟨h.2.1, ?_, isSpace_visible h.1 h.2.1⟩
  rw [lowerUnit, if_neg]
  rw [Bool.and_eq_true, decide_eq_true_eq, decide_eq_true_eq, UInt16.le_iff_toNat_le, UInt16.le_iff_toNat_le]
  exact h.2.2

theorem plain_of_isNameUnit {u : UInt16} (h : isNameUnit u = true) : Plain u := by
  rw [isNameUnit_iff] at h
  exact .of_toNat (by omega)

theorem plain_of_isHexUnit {u : UInt16} (h : isHexUnit u = true) : Plain u := by
  rw [isHexUnit_iff] at h
  exact .of_toNat (by omega)

theorem lower_plain (h : ∀ u ∈ s, Plain u) : lc.lower s = s := by
  rw [lc.ascii s fun u hu => (h u hu).ascii, List.map_congr_left fun u hu => (h u hu).lower, List.map_id']

/-- A name of the right length, of the signs that names are made of -/
structure IsSftpName (name : Text) : Prop where
  units : ∀ u ∈ name, isNameUnit u = true
  pos : 1 ≤ name.length
  le : name.length ≤ 40

theorem mem_hyphened {u : UInt16} (hu : u ∈ hyphened s) : isNameUnit u = true := by
  have hhyphen : isNameUnit hyphen = true := by decide
  induction s using hyphened.induct with
  | case1 => cases hu
  | case2 v hv =>
    rw [hyphened, if_pos hv, List.mem_singleton] at hu
    rwa [hu]
  | case3 v hv =>
    rw [hyphened, if_neg hv, List.mem_singleton] at hu
    rwa [hu]
  | case4 v w rest hv ih =>
    rw [hyphened, if_pos hv] at hu
    rcases List.mem_cons.mp hu with rfl | hu
    · exact hv
    · exact ih hu
  | case5 v w rest hv hw ih =>
    rw [hyphened, if_neg hv, if_pos hw] at hu
    rcases List.mem_cons.mp hu with rfl | hu
    · exact hhyphen
    · exact ih hu
  | case6 v w rest hv hw ih =>
    rw [hyphened, if_neg hv, if_neg hw] at hu
    exact ih hu

theorem isSftpName_base (lc : LowerCase) (email : Text) :
    (∀ u ∈ sftpNameBase lc email, isNameUnit u = true) ∧ 1 ≤ (sftpNameBase lc email).length ∧
      (sftpNameBase lc email).length ≤ 32 := by
  rw [sftpNameBase]
  split
  · exact ⟨fun u hu => List.all_eq_true.mp (by decide : (text "user").all isNameUnit = true) u hu, by decide, by decide⟩
  · next hne =>
    refine ⟨fun u hu => ?_, List.length_pos_iff.mpr hne, List.length_take_le _ _⟩
    have htake := List.mem_of_mem_take hu
    have hdrop := (List.rdropWhile_prefix _ _).subset htake
    exact mem_hyphened ((List.dropWhile_suffix _).subset hdrop)

theorem digits_units (n : ℕ) : (∀ u ∈ text (toString n), isNameUnit u = true) ∧
    (text (toString n)).length = (Nat.toDigits 10 n).length := by
  have hdigit : ∀ c ∈ Nat.toDigits 10 n, 48 ≤ c.toNat ∧ c.toNat ≤ 57 := by
    intro c hc
    have h := Nat.isDigit_of_mem_toDigits (by decide) (by decide) hc
    rw [Char.isDigit, Bool.and_eq_true, decide_eq_true_eq, decide_eq_true_eq] at h
    exact h
  have htext : text (toString n) = (Nat.toDigits 10 n).map fun c => UInt16.ofNat c.toNat := by
    rw [text, Nat.toString_eq_ofList_toDigits, String.toList_ofList,
      ofChars_ascii fun c hc => by have := hdigit c hc; omega]
  rw [htext, List.length_map]
  refine ⟨fun u hu => ?_, rfl⟩
  obtain ⟨c, hc, rfl⟩ := List.mem_map.mp hu
  have h := hdigit c hc
  rw [isNameUnit_iff, UInt16.toNat_ofNat']
  omega

/-- Every name that is tried is one that can be parsed. -/
theorem isSftpName_candidate (h : n < 1000) : IsSftpName (candidate lc email n) := by
  obtain ⟨hunits, hpos, hle⟩ := isSftpName_base lc email
  rw [candidate]
  split
  · exact ⟨hunits, hpos, by omega⟩
  · obtain ⟨hdigits, hlength⟩ := digits_units n
    have hthree : (Nat.toDigits 10 n).length ≤ 3 := (Nat.length_toDigits_le_iff (by decide) (by decide)).mpr h
    have htake := List.length_take_le 34 (sftpNameBase lc email)
    constructor
    · intro u hu
      rcases List.mem_append.mp hu with hu | hu
      · exact hunits u (List.mem_of_mem_take hu)
      rcases List.mem_cons.mp hu with rfl | hu
      · decide
      · exact hdigits u hu
    · rw [List.length_append, List.length_cons]
      omega
    · rw [List.length_append, List.length_cons]
      omega

/-- Users only ever get such names. -/
theorem isSftpName_assigned {names : List (ℕ × Text)} (h : ∀ e ∈ names, IsSftpName e.2) (attempts : List Attempt) :
    ∀ e ∈ attempts.foldl (assign lc) names, IsSftpName e.2 := by
  induction attempts generalizing names with
  | nil => exact h
  | cons a attempts ih =>
    apply ih
    rw [assign]
    split
    · exact h
    · intro e he
      rcases List.mem_cons.mp he with rfl | he
      · exact isSftpName_candidate a.tried.2
      · exact h e he

theorem shortId_uuid (uuid : Uuid) :
    (shortId uuid.text).length = 8 ∧ (shortId uuid.text).all isHexUnit = true := by
  have hlength := uuid.length
  have hshort : shortId uuid.text = uuid.digits.take 8 := by
    rw [shortId, Uuid.text, List.take_left' (by rw [List.length_take]; omega)]
  rw [hshort]
  refine ⟨by rw [List.length_take]; omega, ?_⟩
  rw [List.all_eq_true]
  exact fun u hu => List.all_eq_true.mp uuid.hex u (List.mem_of_mem_take hu)

theorem parseSftpUsername_sftpUsername (hname : IsSftpName name) (uuid : Uuid) :
    parseSftpUsername lc (sftpUsername name uuid.text) = some (name, shortId uuid.text) := by
  obtain ⟨hlength, hhex⟩ := shortId_uuid uuid
  have hpoint : isNameUnit point = false := by decide
  have hplain : ∀ u ∈ sftpUsername name uuid.text, Plain u := by
    intro u hu
    rcases List.mem_append.mp hu with hu | hu
    · exact plain_of_isNameUnit (hname.units u hu)
    rcases List.mem_cons.mp hu with rfl | hu
    · exact .of_toNat (by decide)
    · exact plain_of_isHexUnit (List.all_eq_true.mp hhex u hu)
  have htake : (sftpUsername name uuid.text).takeWhile isNameUnit = name := by
    rw [sftpUsername, List.takeWhile_append_of_pos hname.units, List.takeWhile_cons_of_neg (by simp [hpoint]),
      List.append_nil]
  have hdrop : (sftpUsername name uuid.text).dropWhile isNameUnit = point :: shortId uuid.text := by
    rw [sftpUsername, List.dropWhile_append_of_pos hname.units, List.dropWhile_cons_of_neg (by simp [hpoint])]
  rw [parseSftpUsername, trim_visible fun u hu => (hplain u hu).visible, lower_plain hplain, htake, hdrop]
  exact if_pos ⟨hname.pos, hname.le, hlength, hhex⟩

/-- Every SFTP user name that the server hands out is parsed back, and every public key that is accepted is read from
its stored form as the same key with the same fingerprint. -/
theorem round_trips (lc : LowerCase) (decode : List UInt8 → Text) (sha256 : List UInt8 → List UInt8) :
    (∀ (attempts : List Attempt) (user : ℕ) (name : Text) (uuid : Uuid),
      (user, name) ∈ attempts.foldl (assign lc) [] →
        parseSftpUsername lc (sftpUsername name uuid.text) = some (name, shortId uuid.text)) ∧
    ∀ (line : Text) (key : ParsedKey), parsePublicKey decode line = .ok key →
      ∃ key', parsePublicKey decode (canonicalKey key) = .ok key' ∧ key'.type = key.type ∧ key'.blob = key.blob ∧
        fingerprint sha256 key'.blob = fingerprint sha256 key.blob := by
  constructor
  · intro attempts user name uuid hassigned
    have hnone : ∀ e ∈ ([] : List (ℕ × Text)), IsSftpName e.2 := nofun
    exact parseSftpUsername_sftpUsername (isSftpName_assigned hnone attempts _ hassigned) uuid
  · intro line key h
    exact ⟨_, parsePublicKey_canonicalKey h, rfl, rfl, rfl⟩

/-- ASCII letters in lower case -/
def asciiLower : LowerCase := ⟨fun s => s.map lowerUnit, fun _ _ => rfl⟩

def someUuid : Uuid := ⟨text "3f9a2c1b000040008000000000000000", by decide, by decide⟩

def aliceLine : Text :=
  text "ssh-ed25519 AAAAC3NzaC1lZDI1NTE5AAAAIFql4NfbKiEZdoGJoH4S3wPJRDeX27tnttmWFMZgEnLA tester@laptop"

/-- The bytes as a text of ASCII -/
def asciiText (b : List UInt8) : Text := b.map fun x => UInt16.ofNat x.toNat

def aliceKey : ParsedKey :=
  match parsePublicKey asciiText aliceLine with
  | .ok key => key
  | .error _ => ⟨[], [], []⟩

/-- The SHA-256 of this key -/
def aliceDigest (_ : List UInt8) : List UInt8 :=
  (atob (text "rNv55uuVS9D4EbCtNrr3DjYOoNmaawLKiP2xfhax67c")).getD []

theorem round_trips_alice :
    parseSftpUsername asciiLower (sftpUsername (text "alice") someUuid.text) =
        some (text "alice", text "3f9a2c1b") ∧
      ∃ key', parsePublicKey asciiText (canonicalKey aliceKey) = .ok key' ∧ key'.type = aliceKey.type ∧
        key'.blob = aliceKey.blob ∧ fingerprint aliceDigest key'.blob = fingerprint aliceDigest aliceKey.blob :=
  ⟨((round_trips asciiLower asciiText aliceDigest).1 [⟨1, text "alice@example.com", 1, by decide⟩] 1 (text "alice") someUuid
      (by decide +kernel)).trans (by decide +kernel),
    (round_trips asciiLower asciiText aliceDigest).2 aliceLine aliceKey (by decide +kernel)⟩

end Server.SftpKeys
