import Gsm.Machine.Exec
import Gsm.Server.PlayerLines

/-!
# The matcher of an instance

`onConsole` hands each batch of lines to the instance's matcher, which holds the lines of a list answer
until its last. The matcher is compiled anew once a minute, whatever it holds. As long as it holds no
players of an answer then, the events are those of one matcher over all lines: two matchers that have the
same players at hand from now on (`Alike`) say the same of every line.
-/

open Js Machine

namespace Server.Players

variable {js : Builtins}

/-- Template edits reach the console matcher within this long. -/
def matcherTtlMs : ℕ := 60000

/-- An entry of `matchers` -/
structure Cached (js : Builtins) where
  time : ℕ
  pending : Option (Pending js)

/-- One `inst.console` message: when its job asks for the matcher, when it has it, and its lines. -/
structure Batch where
  asked : ℕ
  now : ℕ
  lines : List Text

/-- `matchers` for the instance, and the events found so far. -/
structure Console (js : Builtins) where
  cache : Option (Cached js)
  found : List (PlayerEvent js)

/-- `matcherFor`: what is compiled anew holds nothing. -/
def matcherFor (cache : Option (Cached js)) (b : Batch) : Cached js :=
  match cache with
  | some hit => if b.asked - hit.time < matcherTtlMs then hit else ⟨b.now, none⟩
  | none => ⟨b.now, none⟩

/-- One matcher over lines, each with the time it is read at. -/
def TemplatePlayers.matchLines (p : TemplatePlayers) :
    Option (Pending js) → List (ℕ × Text) → List (PlayerEvent js) × Option (Pending js)
  | pending, [] => ([], pending)
  | pending, (now, raw) :: rest =>
      let (e, pending) := p.matchLine js now pending raw
      let (found, pending) := p.matchLines pending rest
      (e.toList ++ found, pending)

/-- The lines of a batch, with their time -/
def Batch.timed (b : Batch) : List (ℕ × Text) := b.lines.map fun raw => (b.now, raw)

/-- `onConsole`, for a template's players or none; its job is never refused. -/
def onConsole (players : Option TemplatePlayers) (s : Console js) (b : Batch) : Option (Console js) :=
  let hit := matcherFor s.cache b
  match players with
  | none => some { s with cache := some hit }
  | some p =>
      let (found, pending) := p.matchLines hit.pending b.timed
      some ⟨some ⟨hit.time, pending⟩, s.found ++ found⟩

/-- A matcher is compiled anew only when the one before holds no players of a list answer. -/
def NothingHeld (s : Console js) (b : Batch) : Prop :=
  ∀ hit, s.cache = some hit → matcherTtlMs ≤ b.asked - hit.time → (fresh b.now hit.pending).players = []

/-- From `now` on the two have the same players at hand. -/
def Alike (now : ℕ) (pending pending' : Option (Pending js)) : Prop :=
  ∀ t, now ≤ t → fresh t pending = fresh t pending'

variable {p : TemplatePlayers} {pending pending' : Option (Pending js)} {now t : ℕ} {raw : Text}
  {lines : List (ℕ × Text)} {s s' : Console js} {b : Batch} {batches : List Batch}

theorem Alike.refl (now : ℕ) (pending : Option (Pending js)) : Alike now pending pending := fun _ _ => rfl

theorem Alike.later (h : Alike now pending pending') (ht : now ≤ t) : Alike t pending pending' :=
  fun u hu => h u (ht.trans hu)

/-- What holds no players now will hold none. -/
theorem alike_none (h : (fresh now pending).players = []) : Alike now none pending := by
  intro t ht
  rcases pending with _ | q
  · rfl
  · rw [fresh] at h ⊢
    rw [fresh]
    by_cases hq : t - q.time ≤ listLineGapMs
    · rw [if_pos hq]
      rw [if_pos (by omega)] at h
      obtain ⟨time, players, hdistinct⟩ := q
      exact congrArg (fun l => l) (by cases h; rfl)
    · rw [if_neg hq]

/-- Matchers that are alike say the same of a line, and are alike afterwards. -/
theorem matchLine_alike (raw : Text) (h : Alike now pending pending') :
    (p.matchLine js now pending raw).1 = (p.matchLine js now pending' raw).1 ∧
      Alike now (p.matchLine js now pending raw).2 (p.matchLine js now pending' raw).2 := by
  have hfresh : fresh now pending = fresh now pending' := h now (le_refl _)
  rw [TemplatePlayers.matchLine, TemplatePlayers.matchLine, hfresh]
  split
  · exact ⟨rfl, h⟩
  split
  · exact ⟨rfl, .refl _ _⟩
  split
  · split
    · exact ⟨rfl, .refl _ _⟩
    · split
      · exact ⟨rfl, h⟩
      · exact ⟨rfl, h⟩
  · exact ⟨rfl, h⟩

theorem matchLines_append (pending : Option (Pending js)) (l m : List (ℕ × Text)) :
    p.matchLines pending (l ++ m) =
      ((p.matchLines pending l).1 ++ (p.matchLines (p.matchLines pending l).2 m).1,
        (p.matchLines (p.matchLines pending l).2 m).2) := by
  induction l generalizing pending with
  | nil => rfl
  | cons a l ih =>
    rw [List.cons_append, TemplatePlayers.matchLines, TemplatePlayers.matchLines]
    simp only [ih, List.append_assoc]

theorem matchLines_alike (h : Alike now pending pending') (hlines : ∀ l ∈ lines, l.1 = now) :
    (p.matchLines pending lines).1 = (p.matchLines pending' lines).1 ∧
      Alike now (p.matchLines pending lines).2 (p.matchLines pending' lines).2 := by
  induction lines generalizing pending pending' with
  | nil => exact ⟨rfl, h⟩
  | cons l lines ih =>
    obtain ⟨time, raw⟩ := l
    obtain rfl : time = now := hlines _ List.mem_cons_self
    obtain ⟨hevent, halike⟩ := matchLine_alike (p := p) raw h
    obtain ⟨hfound, hafter⟩ := ih halike fun l hl => hlines l (List.mem_cons_of_mem _ hl)
    rw [TemplatePlayers.matchLines, TemplatePlayers.matchLines]
    simp only
    exact ⟨by rw [hevent, hfound], hafter⟩

/-- What a batch finds, when the matcher is alike one that was never compiled anew. -/
theorem onConsole_alike (hheld : NothingHeld s b) (hcache : ∀ hit, s.cache = some hit →
      Alike b.now hit.pending pending) (hempty : s.cache = none → pending = none)
    (hrun : onConsole (some p) s b = some s') :
    s'.found = s.found ++ (p.matchLines pending b.timed).1 ∧
      ∃ hit, s'.cache = some hit ∧ Alike b.now hit.pending (p.matchLines pending b.timed).2 := by
  have hmatcher : Alike b.now (matcherFor s.cache b).pending pending := by
    rcases hs : s.cache with _ | hit
    · rw [hempty hs]
      exact .refl _ _
    · rw [matcherFor]
      split
      · exact hcache hit hs
      · next hold =>
        intro t ht
        rw [← hcache hit hs t ht]
        exact alike_none (hheld hit hs (by omega)) t ht
  have htimes : ∀ l ∈ b.timed, l.1 = b.now := by
    intro l hl
    obtain ⟨raw, -, rfl⟩ := List.mem_map.mp hl
    rfl
  obtain ⟨hfound, hafter⟩ := matchLines_alike (p := p) hmatcher htimes
  obtain rfl := Option.some.inj hrun
  exact ⟨congrArg (s.found ++ ·) hfound, _, rfl, hafter⟩

theorem exec_alike {players : TemplatePlayers} (now : ℕ) (pending : Option (Pending js))
    (hsorted : batches.Pairwise fun b b' => b.now ≤ b'.now)
    (hstart : ∀ b ∈ batches, now ≤ b.now)
    (hcache : ∀ hit, s.cache = some hit → Alike now hit.pending pending)
    (hempty : s.cache = none → pending = none)
    (hheld : Along (onConsole (some players)) NothingHeld s batches)
    (hrun : exec (onConsole (some players)) s batches = some s') :
    s'.found = s.found ++ (players.matchLines pending (batches.flatMap Batch.timed)).1 := by
  induction batches generalizing s now pending with
  | nil =>
    obtain rfl := Option.some.inj hrun
    exact (List.append_nil _).symm
  | cons b batches ih =>
    obtain ⟨hnext, hsorted⟩ := List.pairwise_cons.mp hsorted
    obtain ⟨s₁, hstep, hrest⟩ := exec_cons_eq_some.mp hrun
    have hnow := hstart b List.mem_cons_self
    obtain ⟨hfound, hit, hcache₁, halike⟩ :=
      onConsole_alike hheld.1 (fun hit hs => (hcache hit hs).later hnow) hempty hstep
    rw [ih b.now (players.matchLines pending b.timed).2 hsorted hnext
        (fun hit' hs => by rw [← Option.some.inj (hcache₁.symm.trans hs)]; exact halike)
        (fun hs => absurd (hcache₁.symm.trans hs) (by simp)) (hheld.tail hstep) hrest,
      hfound, List.flatMap_cons, matchLines_append, List.append_assoc]

/-- Nothing has been read yet. -/
def atFirst (js : Builtins) : Console js := ⟨none, []⟩

/-- Where no list answer is under way when the matcher is compiled anew, the batches give the events of one
matcher over all lines. -/
theorem onConsole_found (players : Option TemplatePlayers)
    (hsorted : batches.Pairwise fun b b' => b.now ≤ b'.now)
    (hheld : Along (onConsole players) NothingHeld (atFirst js) batches)
    (hrun : exec (onConsole players) (atFirst js) batches = some s) :
    s.found = (players.map fun p => (p.matchLines none (batches.flatMap Batch.timed)).1).getD [] := by
  rcases players with _ | p
  · have hnone : ∀ (s : Console js) b s', onConsole none s b = some s' → s.found = [] → s'.found = [] := by
      intro s b s' hstep hs
      obtain rfl := Option.some.inj hstep
      exact hs
    exact exec_preserves (P := fun s => s.found = []) hnone hrun rfl
  · exact exec_alike 0 none hsorted (fun b _ => Nat.zero_le _) (fun _ h => absurd h (by simp [atFirst]))
      (fun _ => rfl) hheld hrun

/-- A game that answers with a line `- name` for each player and a line `end`. -/
def dashList : TemplatePlayers where
  namePattern := fun _ => some fun _ => none
  join := none
  leave := none
  identify := none
  refresh := none
  list := some {
    pattern := fun s => if s = text "end" then some fun _ => none else none
    separator := text ","
    entry := none
    line := some fun s =>
      if startsWith s (text "- ") then some fun g => if g = "name" then some (s.drop 2) else none else none }

/-- The built-ins, as they are for text in lower case without numbers. -/
def plainText : Builtins := ⟨id, fun _ _ => false⟩

/-- A batch whose lines are read as it arrives -/
def batchAt (now : ℕ) (lines : List String) : Batch := ⟨now, now, lines.map text⟩

theorem onConsole_found_bob :
    ∃ s, exec (onConsole (some dashList)) (atFirst plainText)
        [batchAt 0 ["- bob"], batchAt 10000 ["- eve", "end"]] = some s ∧
      s.found = ((some dashList).map fun p =>
        (p.matchLines (none : Option (Pending plainText))
          ([batchAt 0 ["- bob"], batchAt 10000 ["- eve", "end"]].flatMap Batch.timed)).1).getD [] := by
  refine ⟨_, rfl, onConsole_found (some dashList) (by simp [batchAt]) ?_ rfl⟩
  refine ⟨fun _ h => absurd h (by simp [atFirst]), fun s₁ hs₁ => ⟨fun hit hhit hold => ?_, fun _ _ => trivial⟩⟩
  obtain rfl := Option.some.inj hs₁
  obtain rfl := Option.some.inj hhit
  exact absurd hold (by decide)

/-- `bob` is read just before a minute is over, and lost with the matcher that holds him: the answer that
ends with the next batch has nobody. -/
theorem onConsole_loses_bob :
    ∃ (players : TemplatePlayers) (batches : List Batch) (s : Console plainText),
      (batches.Pairwise fun b b' => b.now ≤ b'.now) ∧
      (batches.IsChain fun b b' => b'.now - b.now < listLineGapMs) ∧
      exec (onConsole (some players)) (atFirst plainText) batches = some s ∧
        s.found ≠ (players.matchLines none (batches.flatMap Batch.timed)).1 := by
  refine ⟨dashList, [batchAt 0 ["x"], batchAt 14000 ["x"], batchAt 28000 ["x"], batchAt 42000 ["x"],
    batchAt 56000 ["- bob"], batchAt 61000 ["end"]], _, ?_, ?_, rfl, ?_⟩
  · simp [batchAt]
  · simp [batchAt, listLineGapMs]
  · decide +kernel

end Server.Players
