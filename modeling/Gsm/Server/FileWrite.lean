import Gsm.Data.JsText

/-!
# Saving a file through the agent

`write` measures the text it is given against the view limit; the agent measures the frame it is sent in
against the read limit of its connection. What JSON escapes in the text and in the path lies between the
two, so a text well within the one limit can be beyond the other.
-/

open Js

namespace Server.FileWrite

/-- Settings → General → Files. -/
structure FilesSettings where
  /-- Largest file the browser opens, edits or saves -/
  viewMaxBytes : ℕ
  min_le : 4096 ≤ viewMaxBytes
  le_max : viewMaxBytes ≤ 10 <<< 20

def slash : UInt16 := 0x2F

/-- `InstancePath`, at most `FILE_PATH_MAX` code units -/
def isInstancePath (p : Text) : Bool :=
  decide (p.length ≤ 1024) && !p.contains 0 && !(split p slash).contains (text "..") &&
    !startsWith p (text "/")

/-- `/^[a-f0-9]{64}$/` -/
def isSha256 (s : List Char) : Bool := s.length == 64 && s.all "0123456789abcdef".toList.contains

/-- `InstanceUuid` -/
def isUuid (s : List Char) : Bool := s.length == 36 && s.all "0123456789abcdefABCDEF-".toList.contains

/-- What `randomId(9)` gives: nine bytes in the alphabet for URLs. -/
def isRequestId (s : List Char) : Bool :=
  s.length == 12 &&
    s.all "ABCDEFGHIJKLMNOPQRSTUVWXYZabcdefghijklmnopqrstuvwxyz0123456789-_".toList.contains

structure WriteBody where
  path : Text
  content : Text
  expectSha256 : Option (List Char)
  create : Bool

def WriteBody.valid (b : WriteBody) : Bool := isInstancePath b.path && b.expectSha256.all isSha256

inductive HttpError where
  /-- 400, the body is not a `WriteBody` -/
  | invalid
  /-- 413 -/
  | tooLarge (limit : ℕ)
deriving DecidableEq

/-- `params` of `fs.write` -/
def params (uuid : List Char) (b : WriteBody) : List Char :=
  object [
    ("uuid", quote (ofChars uuid)),
    ("path", quote b.path),
    ("content", quote b.content),
    ("expectSha256",
      match b.expectSha256 with
      | some hash => quote (ofChars hash)
      | none => "null".toList),
    ("create", if b.create then "true".toList else "false".toList)]

/-- `encodeEnvelope` of a request. -/
def encodeRequest (id : List Char) (method : String) (params : List Char) : List Char :=
  object [("t", quote (text "req")), ("id", quote (ofChars id)), ("method", quote (text method)),
    ("params", params)]

/-- `PUT /content`, up to the frame it sends to the agent. -/
def write (s : FilesSettings) (uuid id : List Char) (b : WriteBody) : Except HttpError (List UInt8) :=
  if !b.valid then .error .invalid
  else if s.viewMaxBytes < (encode b.content).length then .error (.tooLarge s.viewMaxBytes)
  else .ok (encodeChars (encodeRequest id "fs.write" (params uuid b)))

/-- `conn.SetReadLimit(16 << 20)`: the longest message the agent reads; at a longer one it closes. -/
def readLimit : ℕ := 16 <<< 20

/-- The bytes of a text within a frame, the quotes left out. -/
def quoted (s : Text) : ℕ := (encode s).length + growth s

/-- The bytes of a frame that are neither the path nor the text. -/
def overhead (b : WriteBody) : ℕ :=
  157 + (if b.expectSha256.isSome then 66 else 4) + (if b.create then 4 else 5)

variable {s : FilesSettings} {uuid id : List Char} {b : WriteBody} {frame : List UInt8} {a : List Char}

/-- A text with nothing to escape takes a byte for each character. -/
def Plain (a : List Char) : Prop := ∀ c ∈ a, shortEscape.lookup c = none ∧ 32 ≤ c.toNat ∧ c.toNat < 128

theorem length_quote_plain (h : Plain a) : (encodeChars (quote (ofChars a))).length = a.length + 2 := by
  rw [quote_ofChars fun c hc => ⟨(h c hc).1, (h c hc).2.1⟩, length_encodeChars_ascii]
  · simp
  · intro c hc
    rcases List.mem_append.mp hc with hc | hc
    · rcases List.mem_cons.mp hc with rfl | hc
      · decide
      · exact (h c hc).2.2
    · rw [List.mem_singleton.mp hc]
      decide

theorem plain_of_all {alphabet : List Char} (hall : Plain alphabet) (h : a.all alphabet.contains = true) :
    Plain a :=
  fun c hc => hall c (List.contains_iff_mem.mp (List.all_eq_true.mp h c hc))

instance (a : List Char) : Decidable (Plain a) :=
  List.decidableBAll (fun c => shortEscape.lookup c = none ∧ 32 ≤ c.toNat ∧ c.toNat < 128) a

theorem length_quote_uuid (h : isUuid a = true) : (encodeChars (quote (ofChars a))).length = 38 := by
  rw [isUuid, Bool.and_eq_true, beq_iff_eq] at h
  rw [length_quote_plain (plain_of_all (by decide) h.2), h.1]

theorem length_quote_requestId (h : isRequestId a = true) :
    (encodeChars (quote (ofChars a))).length = 14 := by
  rw [isRequestId, Bool.and_eq_true, beq_iff_eq] at h
  rw [length_quote_plain (plain_of_all (by decide) h.2), h.1]

theorem length_quote_sha256 (h : isSha256 a = true) : (encodeChars (quote (ofChars a))).length = 66 := by
  rw [isSha256, Bool.and_eq_true, beq_iff_eq] at h
  rw [length_quote_plain (plain_of_all (by decide) h.2), h.1]

/-- The length of a frame: the text and the path, what JSON escapes in them, and the rest. -/
theorem length_frame (hid : isRequestId id = true) (huuid : isUuid uuid = true) (hb : b.valid = true) :
    (encodeChars (encodeRequest id "fs.write" (params uuid b))).length =
      quoted b.content + quoted b.path + overhead b := by
  have hhash : ∀ hash, b.expectSha256 = some hash → isSha256 hash = true := by
    intro hash hsome
    rw [WriteBody.valid, hsome, Bool.and_eq_true] at hb
    exact hb.2
  have hnames : (encodeChars (quote (text "t"))).length = 3 ∧ (encodeChars (quote (text "id"))).length = 4 ∧
      (encodeChars (quote (text "method"))).length = 8 ∧ (encodeChars (quote (text "params"))).length = 8 ∧
      (encodeChars (quote (text "req"))).length = 5 ∧
      (encodeChars (quote (text "fs.write"))).length = 10 := by decide
  have hfields : (encodeChars (quote (text "uuid"))).length = 6 ∧
      (encodeChars (quote (text "path"))).length = 6 ∧
      (encodeChars (quote (text "content"))).length = 9 ∧
      (encodeChars (quote (text "expectSha256"))).length = 14 ∧
      (encodeChars (quote (text "create"))).length = 8 := by decide
  obtain ⟨ht, hidName, hmethod, hparams, hreq, hwrite⟩ := hnames
  obtain ⟨huuidName, hpath, hcontent, hexpect, hcreate⟩ := hfields
  have hcreateValue : (encodeChars (if b.create then "true".toList else "false".toList)).length =
      if b.create then 4 else 5 := by
    split <;> rfl
  have hexpectValue : (encodeChars (match b.expectSha256 with
      | some hash => quote (ofChars hash)
      | none => "null".toList)).length = if b.expectSha256.isSome then 66 else 4 := by
    rcases h : b.expectSha256 with _ | hash
    · rfl
    · exact length_quote_sha256 (hhash hash h)
  rw [encodeRequest, length_object _ (List.cons_ne_nil _ _)]
  simp only [List.map_cons, List.map_nil, List.sum_cons, List.sum_nil, ht, hidName, hmethod, hparams, hreq,
    hwrite, length_quote_requestId hid]
  rw [params, length_object _ (List.cons_ne_nil _ _)]
  simp only [List.map_cons, List.map_nil, List.sum_cons, List.sum_nil, huuidName, hpath, hcontent, hexpect,
    hcreate, length_quote_uuid huuid, length_quote b.path, length_quote b.content, hcreateValue, hexpectValue]
  rw [quoted, quoted, overhead]
  omega

/-- Saving sends a frame the agent reads exactly when the bytes of the text and of the path, and what JSON
escapes in them, leave room for the rest of the frame. -/
theorem write_fits_iff (s : FilesSettings) (hid : isRequestId id = true) (huuid : isUuid uuid = true)
    (hrun : write s uuid id b = .ok frame) :
    frame.length ≤ readLimit ↔
      (encode b.content).length + growth b.content + ((encode b.path).length + growth b.path) +
        overhead b ≤ 16 * 2 ^ 20 := by
  rw [write] at hrun
  split at hrun
  · cases hrun
  next hvalid =>
  split at hrun
  · cases hrun
  obtain rfl := Except.ok.inj hrun
  rw [length_frame hid huuid (by simpa using hvalid), quoted, quoted]
  rfl

/-- `a` saved with the SHA-256 it had. -/
theorem write_fits_plain :
    let uuid := "00000000-0000-4000-8000-000000000001".toList
    let body : WriteBody := ⟨text "server.properties", text "a\n", none, true⟩
    ∃ frame, write ⟨4096, by decide, by decide⟩ uuid "AAAAAAAAAAAA".toList body = .ok frame ∧
      (frame.length ≤ readLimit ↔
        (encode body.content).length + growth body.content + ((encode body.path).length + growth body.path) +
          overhead body ≤ 16 * 2 ^ 20) :=
  ⟨_, rfl, write_fits_iff ⟨4096, by decide, by decide⟩ (by decide) (by decide) rfl⟩

/-- A new file of `n` line ends. -/
def lineEnds (n : ℕ) : WriteBody := ⟨text "a", ofChars (List.replicate n '\n'), none, true⟩

theorem length_encode_lineEnds (n : ℕ) : (encode (lineEnds n).content).length = n := by
  show (encode (ofChars _)).length = n
  rw [encode_ofChars, length_encodeChars_ascii, List.length_replicate]
  intro c hc
  rw [List.eq_of_mem_replicate hc]
  decide

theorem growth_lineEnds (n : ℕ) : growth (lineEnds n).content = n := by
  show growth (ofChars _) = n
  rw [growth, codePoints_ofChars, List.map_replicate, List.countP_replicate, List.countP_replicate,
    List.countP_replicate, if_pos (by decide), if_neg (by decide), if_neg (by decide)]
  omega

theorem length_frame_lineEnds {n : ℕ} (hid : isRequestId id = true) (huuid : isUuid uuid = true)
    (hn : n ≤ s.viewMaxBytes) : ∃ frame, write s uuid id (lineEnds n) = .ok frame ∧ 2 * n < frame.length := by
  have hvalid : (lineEnds n).valid = true := by
    show (isInstancePath (text "a") && true) = true
    decide
  refine ⟨encodeChars (encodeRequest id "fs.write" (params uuid (lineEnds n))), ?_, ?_⟩
  · rw [write, hvalid, length_encode_lineEnds, if_neg (show ¬ (!true) = true by decide),
      if_neg (by omega)]
  · rw [length_frame hid huuid hvalid, quoted, length_encode_lineEnds, growth_lineEnds, overhead]
    omega

/-- Ten MiB of line ends are a text within the largest view limit, in a frame beyond what the agent
reads. -/
theorem write_lineEnds_too_long :
    ∃ (s : FilesSettings) (uuid id : List Char) (b : WriteBody) (frame : List UInt8),
      isRequestId id = true ∧ isUuid uuid = true ∧ write s uuid id b = .ok frame ∧
        ¬ frame.length ≤ readLimit := by
  have hid : isRequestId "AAAAAAAAAAAA".toList = true := by decide
  have huuid : isUuid "00000000-0000-4000-8000-000000000001".toList = true := by decide
  obtain ⟨frame, hrun, hlong⟩ :=
    length_frame_lineEnds (s := ⟨10 <<< 20, by decide, le_refl _⟩) hid huuid (le_refl _)
  have hlimit : readLimit < 2 * (10 <<< 20) := by decide
  exact ⟨_, _, _, _, frame, hid, huuid, hrun, Nat.not_le.mpr (hlimit.trans hlong)⟩

end Server.FileWrite
