import Gsm.GoStd.Path
import Gsm.Machine.Exec
import Mathlib.Data.List.Infix

/-!
# A log that starts over

`RotatingFile` keeps a log and one older copy of it. Each call of the system may fail: which of them do is part of the
action. Whatever fails, the two files hold the end of what was logged, in order; `log_keeps_latest` adds how much of it
they hold when nothing fails.
-/

open GoStd Machine

namespace Logging

/-- The file, the copy beside it and the handle -/
structure RotatingFile where
  maxBytes : ℕ
  size : ℕ
  /-- `r.f` is not closed. -/
  isOpen : Bool
  /-- What is at `path` -/
  file : Option Str
  /-- What is at `path.1` -/
  copy : Option Str
  /-- All that `Write` was answered for -/
  logged : Str

/-- What comes of the calls of a `Write`, with how many of the bytes are written -/
structure Faults where
  remove : Bool := false
  rename : Bool := false
  openFile : Bool := false
  written : ℕ

namespace RotatingFile

/-- `OpenRotatingFile`, over what is on the disk -/
def openRotatingFile (maxBytes : ℕ) (file copy : Option Str) : RotatingFile :=
  ⟨maxBytes, (file.getD []).length, true, some (file.getD []), copy, []⟩

/-- The file starts over, unless it cannot be opened again. -/
def rotate (r : RotatingFile) (x : Faults) : RotatingFile :=
  let r := { r with isOpen := false, copy := if x.remove then r.copy else none }
  let r :=
    match r.file, x.rename with
    | some data, false => { r with copy := some data, file := none }
    | _, _ => r
  if x.openFile then r else { r with isOpen := true, size := 0, file := some (r.file.getD []) }

/-- `r.f.Write` -/
def append (r : RotatingFile) (p : Str) (x : Faults) : RotatingFile :=
  if r.isOpen then
    let data := p.take x.written
    { r with file := r.file.map (· ++ data), size := r.size + data.length, logged := r.logged ++ data }
  else r

/-- `Write` -/
def write (r : RotatingFile) (p : Str) (x : Faults) : RotatingFile :=
  if r.maxBytes < r.size + p.length then
    let r := r.rotate x
    if x.openFile then r else r.append p x
  else r.append p x

inductive Action where
  | write (p : Str) (x : Faults)
  | close

def step (r : RotatingFile) : Action → Option RotatingFile
  | .write p x => some (r.write p x)
  | .close => some { r with isOpen := false }

/-- What the two files hold -/
def held (r : RotatingFile) : Str := r.copy.getD [] ++ r.file.getD []

/-- Every call succeeds, and all of the bytes are written. -/
def Quiet : Action → Prop
  | .write p x => x.remove = false ∧ x.rename = false ∧ x.openFile = false ∧ p.length ≤ x.written
  | .close => True

variable {r r' : RotatingFile} {p : Str} {x : Faults} {before : Str} {limit : ℕ}

/-! ## What is held is the end of what was logged -/

/-- The files hold the end of what was there before and has been logged since, and an open handle has its file. -/
structure Kept (before : Str) (r : RotatingFile) : Prop where
  held : r.held <:+ before ++ r.logged
  file : r.isOpen = true → r.file ≠ none

/-- Starting over forgets the older copy, or nothing. -/
theorem held_rotate (r : RotatingFile) (x : Faults) : (r.rotate x).held <:+ r.held := by
  obtain ⟨maxBytes, size, isOpen, file, copy, logged⟩ := r
  obtain ⟨remove, rename, openFile, written⟩ := x
  have hcopy : (if remove then copy else none).getD [] <:+ copy.getD [] := by
    rcases remove with _ | _
    · exact List.nil_suffix
    · exact List.suffix_rfl
  have hkept : (if remove then copy else none).getD [] ++ file.getD [] <:+ copy.getD [] ++ file.getD [] := by
    obtain ⟨dropped, hdropped⟩ := hcopy
    exact ⟨dropped, by rw [← List.append_assoc, hdropped]⟩
  have hmoved (data : Str) : data ++ [] <:+ copy.getD [] ++ data := by
    rw [List.append_nil]
    exact List.suffix_append _ _
  rcases file with _ | data
  · rcases openFile with _ | _ <;> exact hkept
  · rcases rename with _ | _ <;> rcases openFile with _ | _
    · exact hmoved data
    · exact hmoved data
    · exact hkept
    · exact hkept

theorem logged_rotate (r : RotatingFile) (x : Faults) : (r.rotate x).logged = r.logged := by
  obtain ⟨maxBytes, size, isOpen, file, copy, logged⟩ := r
  obtain ⟨remove, rename, openFile, written⟩ := x
  rcases file with _ | data <;> rcases rename with _ | _ <;> rcases openFile with _ | _ <;> rfl

theorem file_rotate (hopen : (r.rotate x).isOpen = true) : (r.rotate x).file ≠ none := by
  obtain ⟨maxBytes, size, isOpen, file, copy, logged⟩ := r
  obtain ⟨remove, rename, openFile, written⟩ := x
  rcases openFile with _ | _
  · exact nofun
  · rcases file with _ | data <;> rcases rename with _ | _ <;> cases hopen

theorem Kept.rotate (h : r.Kept before) (x : Faults) : (r.rotate x).Kept before := by
  refine ⟨?_, file_rotate⟩
  rw [logged_rotate]
  exact (held_rotate r x).trans h.held

theorem held_append (hfile : r.file ≠ none) (hopen : r.isOpen = true) :
    (r.append p x).held = r.held ++ p.take x.written ∧ (r.append p x).logged = r.logged ++ p.take x.written := by
  obtain ⟨data, hdata⟩ := Option.ne_none_iff_exists'.mp hfile
  rw [append, if_pos hopen]
  refine ⟨?_, rfl⟩
  rw [held, held, hdata, List.append_assoc]
  rfl

theorem Kept.append (h : r.Kept before) (p : Str) (x : Faults) : (r.append p x).Kept before := by
  rcases hopen : r.isOpen with _ | _
  · rw [RotatingFile.append, if_neg (by rw [hopen]; exact Bool.false_ne_true)]
    exact h
  · have hfile := h.file hopen
    obtain ⟨hheld, hlogged⟩ := held_append (p := p) (x := x) hfile hopen
    refine ⟨?_, fun _ => ?_⟩
    · rw [hheld, hlogged, ← List.append_assoc]
      obtain ⟨dropped, hdropped⟩ := h.held
      exact ⟨dropped, by rw [← List.append_assoc, hdropped]⟩
    · rw [RotatingFile.append, if_pos hopen]
      obtain ⟨data, hdata⟩ := Option.ne_none_iff_exists'.mp hfile
      rw [hdata]
      exact nofun

theorem Kept.write (h : r.Kept before) (p : Str) (x : Faults) : (r.write p x).Kept before := by
  rw [RotatingFile.write]
  split
  · dsimp only
    split
    · exact h.rotate x
    · exact (h.rotate x).append p x
  · exact h.append p x

theorem kept_step {a : Action} (hs : r.step a = some r') (h : r.Kept before) : r'.Kept before := by
  rcases a with ⟨p, x⟩ | _ <;> cases hs
  · exact h.write p x
  · exact ⟨h.held, nofun⟩

/-! ## How much is held when nothing fails -/

/-- Nothing is lost before the files hold more than `maxBytes`, and neither is larger than the limit. -/
structure Full (maxBytes : ℕ) (before : Str) (limit : ℕ) (r : RotatingFile) : Prop where
  bound : r.maxBytes = maxBytes
  present : r.file ≠ none
  size : r.size = (r.file.getD []).length
  file : (r.file.getD []).length ≤ limit
  copy : (r.copy.getD []).length ≤ limit
  enough : r.held = before ++ r.logged ∨ maxBytes < r.held.length

variable {maxBytes : ℕ}

theorem rotate_quiet {data : Str} (hfile : r.file = some data) (hx : x.rename = false) (hx' : x.openFile = false) :
    r.rotate x = { r with isOpen := true, size := 0, file := some [], copy := some data } := by
  rw [rotate, hfile, hx, hx']
  rfl

theorem append_quiet {data : Str} (hfile : r.file = some data) (hopen : r.isOpen = true) (hp : p.length ≤ x.written) :
    r.append p x = { r with file := some (data ++ p), size := r.size + p.length, logged := r.logged ++ p } := by
  rw [append, if_pos hopen, hfile, List.take_of_length_le hp]
  rfl

/-- A `Write` that starts over leaves what was there in the copy. -/
theorem Full.over (h : r.Full maxBytes before limit) (hp : p.length ≤ limit) (hx : x.rename = false)
    (hx' : x.openFile = false) (hwritten : p.length ≤ x.written) (hfull : r.maxBytes < r.size + p.length) :
    ((r.rotate x).append p x).Full maxBytes before limit := by
  obtain ⟨data, hdata⟩ := Option.ne_none_iff_exists'.mp h.present
  have hsize := h.size
  have hfile := h.file
  rw [hdata, Option.getD_some] at hsize hfile
  rw [rotate_quiet hdata hx hx', append_quiet rfl rfl hwritten]
  refine ⟨h.bound, nofun, ?_, hp, hfile, .inr ?_⟩
  · exact Nat.zero_add _
  · rw [← h.bound]
    change r.maxBytes < (data ++ p).length
    rw [List.length_append]
    omega

theorem Full.append (h : r.Full maxBytes before limit) (hlimit : maxBytes ≤ limit) (hwritten : p.length ≤ x.written)
    (hfits : ¬ r.maxBytes < r.size + p.length) : (r.append p x).Full maxBytes before limit := by
  rcases hopen : r.isOpen with _ | _
  · rw [RotatingFile.append, if_neg (by rw [hopen]; exact Bool.false_ne_true)]
    exact h
  obtain ⟨data, hdata⟩ := Option.ne_none_iff_exists'.mp h.present
  have hsize := h.size
  have henough := h.enough
  rw [held, hdata, Option.getD_some] at henough
  rw [hdata, Option.getD_some] at hsize
  have hbound := h.bound
  rw [append_quiet hdata hopen hwritten]
  refine ⟨hbound, nofun, ?_, ?_, h.copy, ?_⟩
  · dsimp only
    rw [Option.getD_some, List.length_append, hsize]
  · rw [Option.getD_some, List.length_append]
    omega
  · rw [held]
    dsimp only
    rw [Option.getD_some, ← List.append_assoc, ← List.append_assoc]
    rcases henough with hall | hmore
    · exact .inl (congrArg (· ++ p) hall)
    · refine .inr (hmore.trans_le ?_)
      exact (List.prefix_append _ p).length_le

theorem full_step {a : Action} (hlimit : maxBytes ≤ limit) (hquiet : Quiet a)
    (hp : ∀ p x, a = .write p x → p.length ≤ limit) (hs : r.step a = some r') (h : r.Full maxBytes before limit) :
    r'.Full maxBytes before limit := by
  rcases a with ⟨p, x⟩ | _ <;> cases hs
  · obtain ⟨-, hrename, hopen, hwritten⟩ := hquiet
    rw [RotatingFile.write]
    split
    · next hfull =>
      dsimp only
      rw [if_neg (by rw [hopen]; exact Bool.false_ne_true)]
      exact h.over (hp p x rfl) hrename hopen hwritten hfull
    · next hfits => exact h.append hlimit hwritten hfits
  · exact ⟨h.bound, h.present, h.size, h.file, h.copy, h.enough⟩

theorem exists_limit (actions : List Action) : ∃ limit, ∀ p x, .write p x ∈ actions → p.length ≤ limit := by
  induction actions with
  | nil => exact ⟨0, nofun⟩
  | cons a actions ih =>
    obtain ⟨limit, hlimit⟩ := ih
    rcases a with ⟨q, y⟩ | _
    · refine ⟨max q.length limit, fun p x hmem => ?_⟩
      rcases List.mem_cons.mp hmem with heq | hmem
      · cases heq
        exact Nat.le_max_left _ _
      · exact (hlimit p x hmem).trans (Nat.le_max_right _ _)
    · refine ⟨limit, fun p x hmem => ?_⟩
      rcases List.mem_cons.mp hmem with heq | hmem
      · cases heq
      · exact hlimit p x hmem

end RotatingFile

/-- Whatever fails, the two files hold the end of what was there and has been logged since, in order. When nothing fails
they hold all of it or more than `maxBytes` of it, and neither is larger than `maxBytes`, what was there and one `Write`
allow. -/
theorem log_keeps_latest {maxBytes : ℕ} {file copy : Option Str} {actions : List RotatingFile.Action}
    {r : RotatingFile}
    (hrun : exec RotatingFile.step (.openRotatingFile maxBytes file copy) actions = some r) :
    r.held <:+ copy.getD [] ++ file.getD [] ++ r.logged ∧
      ((∀ a ∈ actions, RotatingFile.Quiet a) →
        (r.held = copy.getD [] ++ file.getD [] ++ r.logged ∨ maxBytes < r.held.length) ∧
        ∀ limit, maxBytes ≤ limit → (file.getD []).length ≤ limit → (copy.getD []).length ≤ limit →
          (∀ p x, .write p x ∈ actions → p.length ≤ limit) →
            (r.file.getD []).length ≤ limit ∧ (r.copy.getD []).length ≤ limit) := by
  have hkept : r.Kept (copy.getD [] ++ file.getD []) := by
    refine exec_preserves (fun _ _ _ hs h => RotatingFile.kept_step hs h) hrun ⟨?_, nofun⟩
    rw [RotatingFile.openRotatingFile, List.append_nil]
    exact List.suffix_rfl
  refine ⟨hkept.held, fun hquiet => ?_⟩
  have hfull (limit : ℕ) (hlimit : maxBytes ≤ limit) (hfile : (file.getD []).length ≤ limit)
      (hcopy : (copy.getD []).length ≤ limit) (hwrites : ∀ p x, .write p x ∈ actions → p.length ≤ limit) :
      r.Full maxBytes (copy.getD [] ++ file.getD []) limit := by
    refine exec_invariant (fun _ _ _ ha hs h => RotatingFile.full_step hlimit ha.1 ha.2 hs h) hrun
      (.of_mem (D := fun a => RotatingFile.Quiet a ∧ ∀ p x, a = .write p x → p.length ≤ limit)
        fun a ha => ⟨hquiet a ha, fun p x heq => hwrites p x (heq ▸ ha)⟩) ?_
    exact ⟨rfl, nofun, rfl, hfile, hcopy, .inl (List.append_nil _).symm⟩
  refine ⟨?_, fun limit hlimit hfile hcopy hwrites => ?_⟩
  · obtain ⟨limit, hlimit⟩ := RotatingFile.exists_limit actions
    let all := maxBytes + (file.getD []).length + (copy.getD []).length + limit
    exact (hfull all (by omega) (by omega) (by omega) fun p x hmem => (hlimit p x hmem).trans (by omega)).enough
  · have h := hfull limit hlimit hfile hcopy hwrites
    exact ⟨h.file, h.copy⟩

/-- Two lines of three bytes in a log of five, and a third that cannot be written -/
def startedOver : List RotatingFile.Action :=
  [.write "one".toList { written := 3 }, .write "two".toList { written := 3 },
    .write "six".toList { rename := true, openFile := true, written := 3 }]

theorem log_keeps_latest_startedOver :
    ∃ r, exec RotatingFile.step (.openRotatingFile 5 none none) startedOver = some r ∧ r.held = "two".toList ∧
      r.held <:+ [] ++ [] ++ r.logged ∧
      ((∀ a ∈ startedOver, RotatingFile.Quiet a) →
        (r.held = [] ++ [] ++ r.logged ∨ 5 < r.held.length) ∧
        ∀ limit, 5 ≤ limit → ([] : Str).length ≤ limit → ([] : Str).length ≤ limit →
          (∀ p x, .write p x ∈ startedOver → p.length ≤ limit) →
            (r.file.getD []).length ≤ limit ∧ (r.copy.getD []).length ≤ limit) := by
  obtain ⟨r, hrun, hheld⟩ : ∃ r, exec RotatingFile.step (.openRotatingFile 5 none none) startedOver = some r ∧
      r.held = "two".toList := ⟨_, rfl, rfl⟩
  exact ⟨r, hrun, hheld, log_keeps_latest hrun⟩

end Logging
