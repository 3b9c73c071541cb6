import Gsm.Data.ImageReference
import Gsm.Server.OpenPorts
import Gsm.Server.Variables

/-!
# What the agent is sent for an instance

`buildSpec` and `buildInstall` make the container spec and the install spec, and `qualifyImage` puts the registry in
front of an image that is named without one. It looks for a slash before the first colon only. The colon of a port
stands before the slash, so an image on `host:port` is taken for a bare one, and so is what a registry on `host:port`
has been put in front of.
-/

open Js Data Data.Image

namespace Server.Spec

open Variables (Record TemplateVariable)

/-! ## Images -/

/-- `registry.replace(/\/+$/, "")` -/
def trimSlashes (registry : Text) : Text := (registry.reverse.dropWhile (· == slash)).reverse

/-- `gsm-java:21` → `<registry>/gsm-java:21`; refs that already name a path or host are kept. -/
def qualifyImage (ref registry : Text) : Text :=
  let head :=
    match ref.idxOf? colon with
    | none => ref
    | some firstColon => ref.take firstColon
  if head.contains slash || registry == [] then ref else trimSlashes registry ++ slash :: ref

/-! ## Secrets -/

/-- `createHmac("sha256", config.SESSION_SECRET)` of a text, as base64url -/
abbrev Hmac := Text → Text

variable (hmac : Hmac)

/-- A secret for one instance and purpose -/
def instanceSecret (uuid purpose : Text) (length : ℕ) : Text := (hmac (purpose ++ text ":" ++ uuid)).take length

def consolePassword (uuid : Text) : Text := instanceSecret hmac uuid (text "console-password") 24

structure DatabasePasswords where
  password : Text
  rootPassword : Text

def databasePasswords (uuid : Text) : DatabasePasswords where
  password := instanceSecret hmac uuid (text "db-password") 32
  rootPassword := instanceSecret hmac uuid (text "db-root-password") 32

/-! ## Instances and templates -/

structure ResourceLimits where
  memoryMb : ℕ
  cpuCores : ℚ
  diskMb : ℕ
deriving Inhabited

structure HostMountSpec where
  hostPath : Text
  containerPath : Text
  readOnly : Bool

/-- What is read of an `Instance` -/
structure Instance where
  uuid : Text
  name : Text
  image : Text
  vars : Record
  limits : ResourceLimits
  restartOnCrash : Bool
  startupOverride : Option Text
  mounts : Option (List HostMountSpec)
deriving Inhabited

structure InstancePort where
  name : Text
  protocol : PortProtocol
  port : ℕ

inductive StopSignal where
  | sigterm
  | sigint
  | sigkill
deriving Inhabited

structure Stop where
  command : Option Text
  signal : StopSignal
  timeoutSeconds : ℕ
deriving Inhabited

inductive ConsoleTransportKind where
  | telnet
  | rcon
  | fifo

structure TemplateTransport where
  kind : ConsoleTransportKind
  port : Option ℕ
  path : Option Text
  password : Text
  ignore : Option Text

inductive ConfigFileFormat where
  | properties
  | json
  | ini
  | yaml
  | xmlProperties
  | sourceCfg

/-- A config file, as the template has it and as the agent is sent it -/
structure ConfigFileSpec where
  path : Text
  format : ConfigFileFormat
  values : Record

structure VolumeSpec where
  name : Text
  path : Text
  seed : Bool

structure ContainerUser where
  uid : ℕ
  gid : ℕ

inductive ImagePullPolicy where
  | missing
  | always
deriving Inhabited

structure TemplateContainer where
  entrypoint : Option (List Text)
  user : Option ContainerUser
  pull : ImagePullPolicy
  seccompUnconfined : Bool
deriving Inhabited

inductive DatabaseEngine where
  | mariadb

structure TemplateDatabase where
  engine : DatabaseEngine
  image : Text
  name : Text
  memoryMb : ℕ
  enabledBy : Option Text

structure TemplateInstall where
  image : Option Text
  script : Text
  timeoutSeconds : ℕ
deriving Inhabited

/-- What is read of a `TemplateDefinition` -/
structure TemplateDefinition where
  install : TemplateInstall
  startup : Text
  stop : Stop
  readyPattern : Option Text
  transport : Option TemplateTransport
  vars : List TemplateVariable
  files : List ConfigFileSpec
  env : Record
  volumes : List VolumeSpec
  container : TemplateContainer
  database : Option TemplateDatabase
deriving Inhabited

/-! ## The environment -/

/-- The name in a placeholder of `substitute`, and the text that matched -/
def placeholderAt (s : Text) : Option (Text × Text) :=
  (Players.placeholder Players.isUpper Players.isNameUnit s).map fun (name, rest) =>
    (name, s.take (s.length - rest.length))

/-- Substitute `{{NAME}}` placeholders; unknown names are left as they are. -/
def substitute (s : Text) (vars : Record) : Text :=
  (Players.scanFrom placeholderAt (·.2.length) 0 s).flatMap fun
    | .inl u => [u]
    | .inr (name, source) => (vars.lookup name).getD source

/-- The JVM heap to give a container with `memoryMb` of memory (0 = unlimited). -/
def heapForMemory (memoryMb : ℕ) : ℕ :=
  if memoryMb = 0 then 2048
  else if memoryMb ≤ 1024 then max 256 (memoryMb * 3 / 4)
  else memoryMb - min 1024 (max 384 (memoryMb * 15 / 100))

/-- Whether an instance with these variables has the template's database turned on. -/
def databaseEnabled (template : TemplateDefinition) (vars : Record) : Bool :=
  match template.database with
  | none => false
  | some db =>
      match db.enabledBy with
      | none => true
      | some by_ =>
          ((vars.lookup by_).or ((template.vars.find? (·.name == by_)).map (·.default))) == some (text "true")

def databaseHost : Text := text "db"

def databasePort : ℕ := 3306

/-- The name of a port, which is ASCII, in capitals -/
def toUpperCase (name : Text) : Text := name.map fun u => if Players.between 0x61 0x7A u then u - 0x20 else u

/-- `String` of a whole number -/
def shown (n : ℕ) : Text := text (toString n)

/-- `env[k] = v` for each of them -/
def setAll (env entries : Record) : Record := entries.foldl (fun env e => Assoc.insert env e.1 e.2) env

/-- The facts about the database, empty while it is turned off -/
def databaseFacts (i : Instance) (template : TemplateDefinition) (db : TemplateDatabase) : Record :=
  let on := databaseEnabled template i.vars
  [(text "GSM_DB_HOST", if on then databaseHost else []),
    (text "GSM_DB_PORT", if on then shown databasePort else []),
    (text "GSM_DB_NAME", if on then db.name else []),
    (text "GSM_DB_USER", if on then db.name else []),
    (text "GSM_DB_PASSWORD", if on then (databasePasswords hmac i.uuid).password else [])]

/-- The environment: the instance's variables, the platform's facts, then the template's own `env` with placeholders
filled, which may not replace those. -/
def buildEnv (i : Instance) (ports : List InstancePort) (template : TemplateDefinition) : Record :=
  let env := setAll [] i.vars
  let env := setAll env
    [(text "GSM_INSTANCE_UUID", i.uuid), (text "GSM_INSTANCE_NAME", i.name),
      (text "GSM_MEMORY_MB", shown i.limits.memoryMb),
      (text "GSM_HEAP_MB", shown (heapForMemory i.limits.memoryMb)),
      (text "GSM_BIND", text "0.0.0.0"), (text "GSM_CONSOLE_PASSWORD", consolePassword hmac i.uuid)]
  let env := setAll env (ports.map fun p => (text "GSM_PORT_" ++ toUpperCase p.name, shown p.port))
  let facts := setAll env ((template.database.map (databaseFacts hmac i template)).getD [])
  setAll facts ((template.env.filter fun e => !startsWith e.1 (text "GSM_")).map fun e => (e.1, substitute e.2 facts))

/-! ## The specs -/

structure DatabaseSpec where
  engine : DatabaseEngine
  image : Text
  name : Text
  user : Text
  passwords : DatabasePasswords
  memoryMb : ℕ

/-- The instance's database server, or null when its template has none or it is turned off. -/
def databaseSpec (i : Instance) (template : TemplateDefinition) : Option DatabaseSpec :=
  match template.database with
  | none => none
  | some db =>
      if databaseEnabled template i.vars then
        some ⟨db.engine, db.image, db.name, db.name, databasePasswords hmac i.uuid, db.memoryMb⟩
      else none

inductive BindingProtocol where
  | tcp
  | udp

structure PortBinding where
  name : Text
  protocol : BindingProtocol
  host : ℕ
  container : ℕ

def portBindings (ports : List InstancePort) : List PortBinding :=
  ports.flatMap fun p =>
    (match p.protocol with
      | .both => [.tcp, .udp]
      | .tcp => [.tcp]
      | .udp => [.udp] : List BindingProtocol).map fun protocol => ⟨p.name, protocol, p.port, p.port⟩

structure ConsoleTransport where
  kind : ConsoleTransportKind
  port : ℕ
  path : Option Text
  password : Text
  ignore : Option Text

structure InstanceSpec where
  uuid : Text
  name : Text
  image : Text
  startup : Text
  env : Record
  ports : List PortBinding
  bindAddress : Text
  limits : ResourceLimits
  stop : Stop
  readyPattern : Option Text
  transport : Option ConsoleTransport
  files : List ConfigFileSpec
  restartOnCrash : Bool
  user : ContainerUser
  entrypoint : Option (List Text)
  volumes : List VolumeSpec
  mounts : List HostMountSpec
  pull : ImagePullPolicy
  seccompUnconfined : Bool
  database : Option DatabaseSpec

/-- `CONTAINER_USER` -/
def containerUser : ContainerUser := ⟨1500, 1500⟩

def buildSpec (i : Instance) (template : TemplateDefinition) (bindAddress : Text) (ports : List InstancePort)
    (registry : Text) : InstanceSpec :=
  let env := buildEnv hmac i ports template
  { uuid := i.uuid
    name := i.name
    image := qualifyImage i.image registry
    startup := substitute ((i.startupOverride.filter (· != [])).getD template.startup) env
    env := env
    ports := portBindings ports
    bindAddress := bindAddress
    limits := i.limits
    stop := template.stop
    readyPattern := template.readyPattern
    transport := template.transport.map fun t =>
      ⟨t.kind, t.port.getD 0, t.path, substitute t.password env, t.ignore⟩
    files := template.files.map fun f => { f with values := f.values.map fun e => (e.1, substitute e.2 env) }
    restartOnCrash := i.restartOnCrash
    user := template.container.user.getD containerUser
    entrypoint := template.container.entrypoint
    volumes := template.volumes
    mounts := i.mounts.getD []
    pull := template.container.pull
    seccompUnconfined := template.container.seccompUnconfined
    database := databaseSpec hmac i template }

structure InstallSpec where
  image : Option Text
  script : Text
  env : Record
  timeoutSeconds : ℕ

def buildInstall (template : TemplateDefinition) (resolved : Record) (registry : Text) : InstallSpec where
  image := (template.install.image.filter (· != [])).map (qualifyImage · registry)
  script := template.install.script
  env := resolved
  timeoutSeconds := template.install.timeoutSeconds

/-! ## Which references are taken for bare ones -/

variable {hmac} {r : Reference} {g : Registry} {ref registry front back : Text}

theorem takeWhile_before (h : colon ∉ front) :
    (front ++ back).takeWhile (· != colon) = front ++ back.takeWhile (· != colon) := by
  refine List.takeWhile_append_of_pos fun u hu => bne_iff_ne.mpr ?_
  rintro rfl
  exact h hu

theorem head_qualifyImage (ref : Text) :
    (match ref.idxOf? colon with
      | none => ref
      | some firstColon => ref.take firstColon) = ref.takeWhile (· != colon) := by
  induction ref with
  | nil => rfl
  | cons u ref ih =>
    rw [List.idxOf?_cons]
    by_cases hu : u = colon
    · subst hu
      rfl
    · have hkeep : (u :: ref).takeWhile (· != colon) = u :: ref.takeWhile (· != colon) :=
        List.takeWhile_cons_of_pos (bne_iff_ne.mpr hu)
      rw [hkeep, ← ih, if_neg (by simpa using hu)]
      rcases ref.idxOf? colon with _ | i
      · rfl
      · rfl

theorem qualifyImage_of_mem (h : slash ∈ ref.takeWhile (· != colon)) : qualifyImage ref registry = ref := by
  rw [qualifyImage, head_qualifyImage]
  exact if_pos (by rw [List.contains_iff_mem.mpr h, Bool.true_or])

theorem qualifyImage_of_notMem (h : slash ∉ ref.takeWhile (· != colon)) (hregistry : registry ≠ []) :
    qualifyImage ref registry = trimSlashes registry ++ slash :: ref := by
  rw [qualifyImage, head_qualifyImage]
  exact if_neg (by simp [hregistry, h])

/-- What counts is whether the first colon stands before the first slash. -/
theorem slash_mem_head (hfront : slash ∉ front) :
    slash ∈ (front ++ slash :: back).takeWhile (· != colon) ↔ colon ∉ front := by
  constructor
  · intro hmem hcolon
    obtain ⟨a, b, rfl, ha⟩ := List.eq_append_cons_of_mem hcolon
    rw [List.append_assoc, takeWhile_before ha] at hmem
    have hhead : slash ∈ a := by simpa using hmem
    exact hfront (List.mem_append_left _ hhead)
  · intro hcolon
    rw [takeWhile_before hcolon]
    exact List.mem_append_right _ List.mem_cons_self

theorem trimSlashes_registry (g : Registry) : trimSlashes g.text = g.name := by
  have hlast : ∀ u ∈ g.name.reverse.head?, ¬ (u == slash) = true := by
    intro u hu heq
    rw [List.head?_reverse, beq_iff_eq.mp heq] at hu
    exact getLast?_registry g hu
  have hname : g.name.reverse.dropWhile (· == slash) = g.name.reverse := by
    rcases hrev : g.name.reverse with _ | ⟨u, l⟩
    · rfl
    · rw [hrev] at hlast
      exact List.dropWhile_cons_of_neg (hlast u rfl)
  rw [trimSlashes, Registry.text, List.reverse_append, List.reverse_replicate,
    List.dropWhile_append_of_pos fun u hu => beq_iff_eq.mpr (List.eq_of_mem_replicate hu), hname,
    List.reverse_reverse]

theorem registry_ne_nil (g : Registry) : g.text ≠ [] := by
  simp [Registry.text, Registry.name, domain_ne_nil g.domain]

/-- What the agent is to be handed: a reference with a host or a path as it is, a bare one behind the registry -/
def wanted (r : Reference) (g : Registry) : Text := if r.Bare then g.name ++ slash :: r.text else r.text

theorem qualifyImage_wanted_iff (r : Reference) (g : Registry) :
    qualifyImage r.text g.text = wanted r g ↔ ∀ d, r.domain = some d → colon ∉ d.text := by
  rw [wanted]
  split
  · next hbare =>
    refine iff_of_true ?_ fun d hd => ?_
    · have hhead : slash ∉ r.text.takeWhile (· != colon) :=
        fun h => slash_notMem_bare hbare (List.takeWhile_subset _ h)
      rw [qualifyImage_of_notMem hhead (registry_ne_nil g), trimSlashes_registry]
    · rw [hbare.1] at hd
      cases hd
  · next hnamed =>
    obtain ⟨front, back, htext, hslash, hcolon⟩ := exists_slash hnamed
    by_cases hport : colon ∈ front
    · refine iff_of_false (fun hkept => ?_) fun hno => ?_
      · have hhead : slash ∉ r.text.takeWhile (· != colon) := by
          rw [htext, slash_mem_head hslash]
          exact not_not_intro hport
        rw [qualifyImage_of_notMem hhead (registry_ne_nil g)] at hkept
        have hlen := congrArg List.length hkept
        rw [List.length_append, List.length_cons] at hlen
        omega
      · obtain ⟨d, hd, hin⟩ := hcolon.mp hport
        exact hno d hd hin
    · refine iff_of_true ?_ fun d hd hin => hport (hcolon.mpr ⟨d, hd, hin⟩)
      refine qualifyImage_of_mem ?_
      rw [htext, slash_mem_head hslash]
      exact hport

/-- What is asked of one reference and one registry, whatever the instance and the template are -/
structure HandsOver (hmac : Hmac) (r : Reference) (g : Registry) : Prop where
  spec : ∀ (i : Instance) (template : TemplateDefinition) (bindAddress : Text) (ports : List InstancePort),
    i.image = r.text → (buildSpec hmac i template bindAddress ports g.text).image = wanted r g
  install : ∀ (template : TemplateDefinition) (resolved : Record),
    template.install.image = some r.text → (buildInstall template resolved g.text).image = some (wanted r g)
  again : qualifyImage (qualifyImage r.text g.text) g.text = qualifyImage r.text g.text

theorem text_ne_nil (r : Reference) : r.text ≠ [] := by
  have hfirst : r.first.text ≠ [] := by simp [PathComponent.text, r.first.first.2.1]
  simp [Reference.text, hfirst]

theorem handsOver_of (h : qualifyImage r.text g.text = wanted r g)
    (hagain : qualifyImage (wanted r g) g.text = wanted r g) : HandsOver hmac r g where
  spec i template bindAddress ports himage := by
    show qualifyImage i.image g.text = wanted r g
    rw [himage, h]
  install template resolved himage := by
    have hfilter : (some r.text).filter (· != []) = some r.text := by simp [text_ne_nil r]
    rw [buildInstall, himage, hfilter, Option.map_some, h]
  again := by rw [h, hagain]

/-- What the registry was put in front of is kept unless the registry's host has a colon. -/
theorem qualifyImage_again_iff (g : Registry) (ref : Text) :
    qualifyImage (g.name ++ slash :: ref) g.text = g.name ++ slash :: ref ↔ colon ∉ g.domain.text := by
  have hsplit : ∃ back, g.name ++ slash :: ref = g.domain.text ++ slash :: back := by
    rcases hp : g.path with _ | ⟨c, path⟩
    · exact ⟨ref, by rw [Registry.name, hp, List.flatMap_nil, List.append_nil]⟩
    · exact ⟨c.text ++ (path.flatMap fun c => slash :: c.text) ++ slash :: ref, by simp [Registry.name, hp]⟩
  obtain ⟨back, hback⟩ := hsplit
  have hhead : slash ∈ (g.name ++ slash :: ref).takeWhile (· != colon) ↔ colon ∉ g.domain.text := by
    rw [hback]
    exact slash_mem_head (slash_notMem_domain g.domain)
  by_cases hport : colon ∈ g.domain.text
  · refine iff_of_false (fun hkept => ?_) (not_not_intro hport)
    rw [qualifyImage_of_notMem (fun hmem => hhead.mp hmem hport) (registry_ne_nil g)] at hkept
    have hlen := congrArg List.length hkept
    rw [List.length_append, List.length_cons, trimSlashes_registry] at hlen
    have hname : g.name ≠ [] := by simp [Registry.name, domain_ne_nil g.domain]
    have hpos := List.length_pos_iff.mpr hname
    omega
  · exact iff_of_true (qualifyImage_of_mem (hhead.mpr hport)) hport

/-- A reference and a registry are handled as they should be exactly when no host has a colon where it counts: not
the reference's, and for a bare reference not the registry's. -/
theorem handsOver_iff (hmac : Hmac) (r : Reference) (g : Registry) :
    HandsOver hmac r g ↔ (∀ d, r.domain = some d → colon ∉ d.text) ∧ (r.Bare → colon ∉ g.domain.text) := by
  constructor
  · intro h
    -- some template names the image
    let template : TemplateDefinition := { (default : TemplateDefinition) with install := ⟨some r.text, [], 0⟩ }
    have hfilter : (some r.text).filter (· != []) = some r.text := by simp [text_ne_nil r]
    have hinstall : (buildInstall template [] g.text).image = some (qualifyImage r.text g.text) := by
      show ((some r.text).filter (· != [])).map (qualifyImage · g.text) = _
      rw [hfilter, Option.map_some]
    have hwanted : qualifyImage r.text g.text = wanted r g :=
      Option.some.inj (hinstall.symm.trans (h.install template [] rfl))
    refine ⟨(qualifyImage_wanted_iff r g).mp hwanted, fun hbare => ?_⟩
    have hagain := h.again
    rw [hwanted, wanted, if_pos hbare] at hagain
    exact (qualifyImage_again_iff g r.text).mp hagain
  · rintro ⟨hdomain, hregistry⟩
    have hwanted := (qualifyImage_wanted_iff r g).mpr hdomain
    refine handsOver_of hwanted ?_
    by_cases hbare : r.Bare
    · rw [wanted, if_pos hbare]
      exact (qualifyImage_again_iff g r.text).mpr (hregistry hbare)
    · rw [wanted, if_neg hbare] at hwanted ⊢
      exact hwanted

/-- `localhost:5000/gsm-java:21` -/
def localImage : Reference where
  domain := some ⟨.name ⟨⟨text "localhost", by decide⟩, by decide⟩ [], some ⟨text "5000", by decide⟩⟩
  first := ⟨⟨text "gsm", by decide⟩, [(.hyphens 1, ⟨text "java", by decide⟩)]⟩
  more := []
  tag := some ⟨⟨text "21", by decide⟩, by decide⟩
  digest := none

/-- `ghcr.io/ionnet-dev` -/
def ghcr : Registry where
  domain := ⟨.name ⟨⟨text "ghcr", by decide⟩, by decide⟩ [⟨⟨text "io", by decide⟩, by decide⟩], none⟩
  path := [⟨⟨text "ionnet", by decide⟩, [(.hyphens 1, ⟨text "dev", by decide⟩)]⟩]
  slashes := 0

/-- The registry is put in front of an image that has a host. -/
theorem registry_before_host : localImage.text = text "localhost:5000/gsm-java:21" ∧
    ghcr.text = text "ghcr.io/ionnet-dev" ∧
    qualifyImage localImage.text ghcr.text = text "ghcr.io/ionnet-dev/localhost:5000/gsm-java:21" ∧
    ¬ ∀ (hmac : Hmac) (r : Reference) (g : Registry), HandsOver hmac r g := by
  refine ⟨by decide +kernel, by decide +kernel, by decide +kernel, fun h => ?_⟩
  let template : TemplateDefinition :=
    { (default : TemplateDefinition) with install := ⟨some localImage.text, [], 0⟩ }
  have hinstall := (h id localImage ghcr).install template [] rfl
  have hcheck : (buildInstall template [] ghcr.text).image ≠ some (wanted localImage ghcr) := by decide +kernel
  exact hcheck hinstall

end Server.Spec
