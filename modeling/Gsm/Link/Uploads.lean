import Gsm.Instfs.Atomic
import Gsm.Server.TransferRuns

/-!
# Uploads

The panel offers the body of a browser's upload through the relay and asks the agent to store it. The agent fetches the
bytes, writes them beside the destination and asks for the digest of what the panel has sent, before it renames the file
into place. `upload_stored` joins the two: nothing is assumed of the bytes between them.
-/

open GoStd Instfs Machine Posix

namespace Server.Files

/-- `FsUploadParams` -/
structure FsUploadParams where
  opId : Str
  token : Token
  uuid : Str
  path : Str
  size : ℕ
  overwrite : Bool

/-- The check of `decode`; a size below zero is no `ℕ`. -/
def FsUploadParams.valid (p : FsUploadParams) : Bool := p.opId ≠ [] && p.token ≠ "" && p.uuid ≠ []

/-- `confirm`, with what `Digest` gives -/
def confirm (digest : Except Str String) (sha : Str) : Except Str Unit :=
  match digest with
  | .error e => .error e
  | .ok want =>
      if want.toList = sha then .ok ()
      else .error ("checksum mismatch: received ".toList ++ sha ++ ", the server sent ".toList ++ want.toList)

/-- The handler of `fs.upload`, with what `Get` and `Digest` give -/
def fsUpload (f : FS) (lib : Lib) (x : Faults) (temps : List Name) (p : FsUploadParams) (get : Except Str Body)
    (digest : Except Str String) : Prog FileTransferResult :=
  if ¬ p.valid then Sys.throw (failed "invalid params".toList)
  else
    match get with
    | .error e => Sys.throw (failed e)
    | .ok body => f.receiveUnder lib x temps p.path p.size p.overwrite body (confirm digest)

theorem confirm_ok {digest : Except Str String} {sha : Str} (h : confirm digest sha = .ok ()) :
    ∃ hex, digest = .ok hex ∧ hex.toList = sha := by
  unfold confirm at h
  split at h
  · cases h
  · next hex =>
    split at h
    · next heq => exact ⟨hex, rfl, heq⟩
    · cases h

variable {sha256 : Bytes → String} {randomId : ℕ → Token} {refused tooLarge : String} {s : Transfers} {n : ℕ}
  {o : Outgoing}

/-- A node is told the digest of a fetch of its own only when all of it has passed. -/
theorem passed_of_digest (hids : randomId.Injective) (h : Inv sha256 randomId s) (hoffer : s.made[n]? = some (.out o))
    {node : NodeId} {hex : String} (htold : (randomId n, node, hex) ∈ s.digests) :
    o.nodeId = node ∧ ∃ r, o.relay = some r ∧ r.sent = r.tally ∧ r.sent.length = o.size ∧ hex = sha256 r.sent := by
  obtain ⟨m, t, ht, htoken, hnode, hgives⟩ := h.digests _ htold
  obtain rfl := hids htoken
  cases hoffer.symm.trans ht
  have hok : o.Ok sha256 := h.ok hoffer
  obtain ⟨r, hr, hcomplete, hhex⟩ := hok.digest _ hgives
  obtain ⟨-, hsent, hsize⟩ := (hok.streams r hr).whole hcomplete
  exact ⟨hnode, r, hr, hsent, hsize, hhex⟩

/-- An upload that the agent reports as stored was offered to its node, and the file at its destination has the size and
the digest of all that was read from the browser. Any other has harmed nothing. -/
theorem upload_stored {actions : List Action} (hids : randomId.Injective)
    (hrun : exec (step sha256 randomId refused tooLarge) empty actions = some s)
    (hbodies : Along (step sha256 randomId refused tooLarge) BodiesWhole empty actions)
    (f : FS) (lib : Lib) (x : Faults) (temps : List Name) (p : FsUploadParams) (get : Except Str Body)
    (digest : Except Str String) (node : NodeId) (t : Tree Name Str)
    (hoffer : s.made[n]? = some (.out o)) (htoken : p.token = randomId n) (hsize : p.size = o.size)
    (hdigest : ∀ hex, digest = .ok hex → (p.token, node, hex) ∈ s.digests) :
    (∃ e j', (fsUpload f lib x temps p get digest).run (.of t) = (.error e, j') ∧
        (j'.tree = t ∨ ∃ abs c, resolve t f p.path = .ok (abs, c) ∧ Unharmed t abs j'.tree)) ∨
      ∃ result j' abs c body r, (fsUpload f lib x temps p get digest).run (.of t) = (.ok result, j') ∧
        get = .ok body ∧ resolve t f p.path = .ok (abs, c) ∧ o.nodeId = node ∧ o.relay = some r ∧
        r.sent = r.tally ∧ body.data.length = r.sent.length ∧ lib.sha256Hex body.data = (sha256 r.sent).toList ∧
        ((∃ S, t.lstat abs = .found S) ∨ (∀ m, abs.getLast? = some m → m ∉ temps) →
          ∃ S, Placed t abs body.data j'.tree S) := by
  unfold fsUpload
  split
  · exact .inl ⟨_, .of t, rfl, .inl rfl⟩
  rcases get with e | body
  · exact .inl ⟨_, .of t, rfl, .inl rfl⟩
  dsimp only
  have hreceive : AllOrNothing f t temps p.path body.data (x.Passes ∧ Complete lib p.size body (confirm digest))
      (f.receiveUnder lib x temps p.path p.size p.overwrite body (confirm digest)) :=
    receive_allOrNothing p.path p.size p.overwrite body (confirm digest) t
  rcases hreceive with hfails | ⟨result, j', abs, c, hstored, hres, ⟨-, hcomplete⟩, hplaced⟩
  · exact .inl hfails
  obtain ⟨hex, hok, hhex⟩ := confirm_ok hcomplete.digest
  have htold := hdigest hex hok
  rw [htoken] at htold
  obtain ⟨hnode, r, hr, hsent, hlength, rfl⟩ := passed_of_digest hids (inv_run hids hrun hbodies) hoffer htold
  refine .inr ⟨result, j', abs, c, body, r, hstored, rfl, hres, hnode, hr, hsent, ?_, hhex.symm, hplaced⟩
  rw [hcomplete.length, hsize, hlength]

/-- `sha256Upload` on the agent -/
def uploadLib : Lib where
  sha256Hex data := if data = [Char.ofNat 1, Char.ofNat 2] then (sha256Upload [1, 2]).toList else []
  utf8Valid _ := true
  toLower := id

def uploadTokens (n : ℕ) : Token := String.ofList (List.replicate (n + 1) 'A')

/-- Two bytes for the file `x` of the first instance -/
def twoBytes : FsUploadParams := ⟨"op".toList, "A", "uuid".toList, "x".toList, 2, true⟩

def twoBytesBody : Body := ⟨[Char.ofNat 1, Char.ofNat 2], none, false⟩

theorem upload_stored_twoBytes :
    ∃ s o, exec (step sha256Upload uploadTokens "" "") empty
        [.offer 1 2, .serve "A" 1, .pull 0, .read 0 (.chunk [1, 2]), .digest "A" 1, .told 0] = some s ∧
      s.made[0]? = some (.out o) ∧
      ((∃ e j', (fsUpload firstInstance uploadLib {} [name "t"] twoBytes (.ok twoBytesBody)
            (.ok (sha256Upload [1, 2]))).run (.of twoInstances) = (.error e, j') ∧
          (j'.tree = twoInstances ∨ ∃ abs c, resolve twoInstances firstInstance "x".toList = .ok (abs, c) ∧
            Unharmed twoInstances abs j'.tree)) ∨
        ∃ result j' abs c body r,
          (fsUpload firstInstance uploadLib {} [name "t"] twoBytes (.ok twoBytesBody)
            (.ok (sha256Upload [1, 2]))).run (.of twoInstances) = (.ok result, j') ∧
          (.ok twoBytesBody : Except Str Body) = .ok body ∧
          resolve twoInstances firstInstance "x".toList = .ok (abs, c) ∧ o.nodeId = 1 ∧ o.relay = some r ∧
          r.sent = r.tally ∧ body.data.length = r.sent.length ∧
          uploadLib.sha256Hex body.data = (sha256Upload r.sent).toList ∧
          ((∃ S, twoInstances.lstat abs = .found S) ∨ (∀ m, abs.getLast? = some m → m ∉ [name "t"]) →
            ∃ S, Placed twoInstances abs body.data j'.tree S)) := by
  have hids : Function.Injective uploadTokens := by
    intro m n h
    have hlength := congrArg List.length (String.ofList_injective h)
    rw [List.length_replicate, List.length_replicate] at hlength
    omega
  obtain ⟨s, o, hrun, hoffer, hsize, htold⟩ : ∃ s o, exec (step sha256Upload uploadTokens "" "") empty
      [.offer 1 2, .serve "A" 1, .pull 0, .read 0 (.chunk [1, 2]), .digest "A" 1, .told 0] = some s ∧
      s.made[0]? = some (.out o) ∧ o.size = 2 ∧ s.digests = [("A", 1, sha256Upload [1, 2])] :=
    ⟨_, _, rfl, rfl, rfl, rfl⟩
  have hbodies : Along (step sha256Upload uploadTokens "" "") BodiesWhole empty
      [.offer 1 2, .serve "A" 1, .pull 0, .read 0 (.chunk [1, 2]), .digest "A" 1, .told 0] := by
    -- no post ends in this run
    iterate 6 refine ⟨nofun, fun _ _ => ?_⟩
    trivial
  refine ⟨s, o, hrun, hoffer, upload_stored hids hrun hbodies firstInstance uploadLib {} [name "t"] twoBytes
    (.ok twoBytesBody) (.ok (sha256Upload [1, 2])) 1 twoInstances hoffer rfl hsize.symm fun hex hhex => ?_⟩
  cases hhex
  rw [htold]
  exact List.mem_singleton_self _

end Server.Files
