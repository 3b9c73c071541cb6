import Gsm.GoStd.Os
import Gsm.GoStd.Slash
import Gsm.GoStd.Tar

/-!
# Volumes and host mounts

What `volumes.go` of `internal/instances` does for one instance: `mountBinds` prepares the folders of
the volumes and checks the host mounts, and returns the binds for the container. What the image holds at
a path is given by a function; lines for the console are left out.
-/

open Posix GoStd

namespace Instances.Volumes

inductive MountError where
  /-- `InvalidError` -/
  | invalid (msg : Str)
  /-- any other error -/
  | failed (msg : Str)
deriving DecidableEq

abbrev Prog (γ : Type) := Sys Name Str MountError γ

abbrev Refusal := Failure MountError

def invalid (msg : Str) : Refusal := .other (.invalid msg)

/-- `fmt.Errorf` with a text before `%w` -/
def wrap (text : Str) : Refusal → Refusal
  | .errno e => .errno e
  | .other (.invalid msg) => .other (.invalid (text ++ msg))
  | .other (.failed msg) => .other (.failed (text ++ msg))

/-- `%q`, of a text in which nothing is escaped -/
def quoted (s : Str) : Str := ['"'] ++ s ++ ['"']

structure VolumeSpec where
  name : Str
  path : Str
  seed : Bool

structure HostMountSpec where
  hostPath : Str
  containerPath : Str
  readOnly : Bool

/-- The part of `InstanceSpec` that says what is mounted. -/
structure MountSpec where
  volumes : List VolumeSpec
  mounts : List HostMountSpec

/-- The `Manager` as one instance sees it: its data directory, its owner (`Owner`), whether the agent
runs as root and so hands files over, and the roots of the config, which are clean. -/
structure Manager where
  dataDir : Path
  uid : ℕ
  gid : ℕ
  root : Bool
  hostMountRoots : List Path

/-- One bind as Docker is given it. -/
structure Bind where
  host : Path
  container : Str
  readOnly : Bool
deriving DecidableEq

def Bind.text (b : Bind) : Str :=
  render b.host ++ [':'] ++ b.container ++ if b.readOnly then ":ro".toList else []

/-- What `CopyFrom` of a container of the image gives. -/
inductive Copied where
  | failed (msg : Str)
  | notFound
  | tar (src : TarStream)

def volumesDir : Name := name "volumes"

/-- A character of a volume's name behind the first. -/
def nameChar (c : Char) : Bool := c.isLower || c.isDigit || c = '_' || c = '-'

/-- `volumeNameRe` -/
def volumeNameOk : Str → Bool
  | [] => false
  | c :: rest => c.isLower && decide (rest.length ≤ 31) && rest.all nameChar

theorem isName_of_volumeNameOk {s : Str} (h : volumeNameOk s) : IsName s := by
  rcases s with _ | ⟨c, rest⟩
  · cases h
  rw [volumeNameOk, Bool.and_eq_true, Bool.and_eq_true] at h
  obtain ⟨⟨hc, -⟩, hrest⟩ := h
  have hne : ∀ x : Char, x.isLower = false → c ≠ x := by
    rintro x hx rfl
    rw [hc] at hx
    cases hx
  refine ⟨by simp, fun hs => ?_, fun hs => ?_, fun hs => ?_⟩
  · exact hne '.' rfl (List.cons.inj hs).1
  · exact hne '.' rfl (List.cons.inj hs).1
  · rcases List.mem_cons.mp hs with hs | hs
    · exact hne '/' rfl hs.symm
    · have := List.all_eq_true.mp hrest _ hs
      exact absurd this (by decide)

/-- `dir + ".gsm-new"`, for the last name of `dir` -/
def tmpName (n : Name) : Name :=
  ⟨n.1 ++ ".gsm-new".toList, by simp, fun h => by simpa using congrArg List.length h,
    fun h => by simpa using congrArg List.length h, fun h => by
      rcases List.mem_append.mp h with h | h
      · exact n.2.2.2.2 h
      · exact absurd h (by decide)⟩

/-- `strings.ContainsAny(p, ":,")` -/
def hasSeparator (p : Str) : Bool := p.any fun c => c = ':' || c = ','

/-- A path that is not `r` and not below it. -/
def outside (r : String) (p : Str) : Bool :=
  decide (p ≠ r.toList) && !(r.toList ++ ['/']).isPrefixOf p

def containerPathOK (p : Str) : Bool :=
  ['/'].isPrefixOf p && decide (p ≠ ['/']) && decide (render (clean p) = p) && !hasSeparator p &&
    ["/proc", "/sys", "/dev", "/data", "/gsm"].all (outside · p) &&
    ["/bin", "/boot", "/etc", "/lib", "/lib32", "/lib64", "/run", "/sbin", "/usr", "/var"].all
      fun r => decide (p ≠ r.toList)

/-- `filepath.EvalSymlinks`, on the tree as it is at that moment -/
def evalPath (p : Path) : Prog Path := Sys.look fun t => (evalSymlinks t p).mapError .errno

/-! ## What a tar of the image holds below its folder -/

/-- One component taken by `path.Clean` on a path without a slash in front. -/
def cleanRelStep (p : List (Seg Name)) : Seg Name → List (Seg Name)
  | .here => p
  | .up =>
      match p.getLast? with
      | some (.name _) => p.dropLast
      | _ => p ++ [.up]
  | .name n => p ++ [.name n]

def segText : Seg Name → Str
  | .here => ['.']
  | .up => ['.', '.']
  | .name n => n.1

/-- `path.Clean` -/
def cleanText (s : Str) : Str :=
  if ['/'].isPrefixOf s then render (clean s)
  else
    match (segs s).foldl cleanRelStep [] with
    | [] => ['.']
    | parts => join ['/'] (parts.map segText)

/-- The `rel` of an entry of `extractTree`. An entry that is not below `top` or leaves it is skipped. -/
def entryBelow (top hdrName : Str) : Option Str :=
  let name := cleanText (trimPrefix ['.', '/'] hdrName)
  if name = top then none
  else if (top ++ ['/']).isPrefixOf name then
    let rel := trimPrefix (top ++ ['/']) name
    if rel = [] ∨ ['/'].isPrefixOf rel ∨ rel = ['.', '.'] ∨ "../".toList.isPrefixOf rel ∨
        "/../".toList <:+: rel then
      none
    else some rel
  else none

/-- `filepath.Join` of a directory and a relative path -/
def joinPath (dir : Path) (rel : Str) : Path := (segs rel).foldl cleanStep dir

variable (m : Manager)

/-- The owner of what is copied, if it is handed over. -/
def Manager.owner : Option (ℕ × ℕ) := if m.root then some (m.uid, m.gid) else none

/-- One entry of `extractTree`, at its `target`; the result counts files. -/
def Manager.extractEntry (target : Path) (hdr : TarEntry) : Prog ℕ :=
  match hdr.typeflag with
  | .dir => do
      mkdirAll target 0o755
      Sys.handOver m.owner target
      pure 0
  | .reg => do
      mkdirAll target.dropLast 0o755
      Sys.overwrite target (perm hdr.mode ||| 0o600) hdr.body.data
      match hdr.body.err with
      | some e => Sys.throw (.other (.failed e))
      | none => do
          Sys.handOver m.owner target
          pure 1
  | .other => pure 0

/-- The loop of `extractTree`, with `files` files copied. -/
def Manager.extractFrom (top : Str) (dir : Path) (err : Option Str) (files : ℕ) :
    List TarEntry → Prog ℕ
  | [] =>
      match err with
      | none => pure files
      | some e => Sys.throw (.other (.failed e))
  | hdr :: more =>
      match entryBelow top hdr.name with
      | none => Manager.extractFrom top dir err files more
      | some rel => do
          let n ← m.extractEntry (joinPath dir rel) hdr
          Manager.extractFrom top dir err (files + n) more

def Manager.extractTree (src : TarStream) (top : Str) (dir : Path) : Prog ℕ :=
  m.extractFrom top dir src.err 0 src.entries

/-! ## Preparing the volumes -/

variable (image : Str → Copied)

/-- `seedFromImage` -/
def Manager.seedFromImage (src : Str) (dir : Path) : Prog ℕ :=
  match image src with
  | .failed msg => Sys.throw (.other (.failed msg))
  | .notFound => pure 0
  | .tar s => m.extractTree s (base src) dir

/-- `chown`, which follows links, whatever comes of it -/
def Manager.chown (p : Path) : Prog Unit :=
  if m.root then do
    let _ ← (Sys.chown p m.uid m.gid).attempt
    pure ()
  else pure ()

/-- Where the volumes lie. -/
def Manager.volumes : Path := m.dataDir ++ [volumesDir]

/-- `VolumeDir` -/
def Manager.volumeDir (n : Name) : Path := m.volumes ++ [n]

/-- The copying of `createVolume`, when the volume has a seed. -/
def Manager.seedVolume (v : VolumeSpec) (tmp : Path) : Prog Unit :=
  if v.seed then do
    match ← (m.seedFromImage image v.path tmp).attempt with
    | .ok _ => pure ()
    | .error e => do
        let _ ← (removeAll tmp).attempt
        Sys.throw (wrap ("copying ".toList ++ v.path ++ " from the image: ".toList) e)
  else pure ()

def Manager.createVolume (v : VolumeSpec) (n : Name) : Prog Unit := do
  let _ ← (removeAll (m.volumeDir (tmpName n))).attempt
  mkdirAll (m.volumeDir (tmpName n)) 0o755
  m.chown (m.volumeDir (tmpName n))
  m.seedVolume image v (m.volumeDir (tmpName n))
  Sys.rename (m.volumeDir (tmpName n)) (m.volumeDir n)

def Manager.volumeRealPath (n : Name) : Prog Path := do
  let root ← evalPath m.dataDir
  let real ← evalPath (m.volumeDir n)
  let info ← Sys.stat real
  if real ≠ root ++ [volumesDir, n] ∨ isDir info = false then
    Sys.throw (invalid ("volumes/".toList ++ n.1 ++ " must be a folder, not a link or a file".toList))
  else pure real

attribute [local instance] lawfulBEq_str

/-- The function `claim` of `mountBinds`: the paths taken afterwards. -/
def claim (taken : List Str) (p : Str) : Except Refusal (List Str) :=
  if p ∈ taken then .error (invalid ("two mounts for ".toList ++ p)) else .ok (p :: taken)

/-- A volume that is not there yet is created. -/
def Manager.ensureVolume (v : VolumeSpec) (n : Name) : Prog Unit := do
  match ← (Sys.lstat (m.volumeDir n)).attempt with
  | .ok _ => pure ()
  | .error (.errno .noent) =>
      match ← (m.createVolume image v n).attempt with
      | .ok _ => pure ()
      | .error e => Sys.throw (wrap ("volume ".toList ++ v.name ++ ": ".toList) e)
  | .error e => Sys.throw e

/-- The loop over the volumes, with the container paths taken so far. -/
def Manager.mountVolumes (taken : List Str) : List VolumeSpec → Prog (List Str × List Bind)
  | [] => pure (taken, [])
  | v :: more =>
      if h : volumeNameOk v.name ∧ containerPathOK v.path then
        let n : Name := ⟨v.name, isName_of_volumeNameOk h.1⟩
        match claim taken v.path with
        | .error e => Sys.throw e
        | .ok taken => do
            m.ensureVolume image v n
            let real ← m.volumeRealPath n
            let (taken, binds) ← Manager.mountVolumes taken more
            pure (taken, ⟨real, v.path, false⟩ :: binds)
      else
        Sys.throw (invalid
          ("volume ".toList ++ quoted v.name ++ ": bad name or path ".toList ++ quoted v.path))

/-! ## Host mounts -/

/-- Whether a real path is an allowed root or below one; roots that do not resolve are skipped. -/
def Manager.underRoot (t : Tree Name Str) (real : Path) : Bool :=
  m.hostMountRoots.any fun root =>
    match evalSymlinks t root with
    | .ok r => within r real
    | .error _ => false

def Manager.allowedHostPath (p : Str) : Prog Path :=
  if m.hostMountRoots = [] then
    Sys.throw (invalid "this node allows no host mounts (host_mounts in the agent's config)".toList)
  else if ['/'].isPrefixOf p = false ∨ render (clean p) ≠ p ∨ hasSeparator p then
    Sys.throw (invalid ("host mount ".toList ++ quoted p ++ " is not a clean absolute path".toList))
  else do
    match ← (evalPath (clean p)).attempt with
    | .error _ => Sys.throw (invalid ("host mount ".toList ++ p ++ ": ".toList))
    | .ok real =>
        if ← Sys.look fun t => .ok (m.underRoot t real) then pure real
        else
          Sys.throw (invalid ("host mount ".toList ++ p ++
            " is not under a directory this node allows (".toList ++
            join ", ".toList (m.hostMountRoots.map render) ++ ")".toList))

def Manager.mountHosts (taken : List Str) : List HostMountSpec → Prog (List Bind)
  | [] => pure []
  | mt :: more =>
      if containerPathOK mt.containerPath then
        match claim taken mt.containerPath with
        | .error e => Sys.throw e
        | .ok taken => do
            let host ← m.allowedHostPath mt.hostPath
            let binds ← Manager.mountHosts taken more
            pure (⟨host, mt.containerPath, mt.readOnly⟩ :: binds)
      else
        Sys.throw (invalid ("host mount: bad container path ".toList ++ quoted mt.containerPath))

/-- The folder of the volumes, if there are any. -/
def Manager.prepare (spec : MountSpec) : Prog Unit :=
  if spec.volumes = [] then pure ()
  else do
    mkdirAll m.volumes 0o755
    m.chown m.volumes

def Manager.dataBind : Bind := ⟨m.dataDir, "/data".toList, false⟩

def Manager.mountBinds (spec : MountSpec) : Prog (List Bind) := do
  m.prepare spec
  let (taken, volumes) ← m.mountVolumes image ["/data".toList] spec.volumes
  let hosts ← m.mountHosts taken spec.mounts
  pure (m.dataBind :: (volumes ++ hosts))

end Instances.Volumes
