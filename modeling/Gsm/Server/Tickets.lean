import Gsm.Data.Percent
import Gsm.Machine.Exec
import Mathlib.Data.List.Nodup
import Mathlib.Logic.Function.Basic

/-!
# Download tickets

A ticket is reserved for the user who asked for a download and works once, within a minute. Tickets that have expired
are swept out whenever one is issued; `ticket_good_once` says that nobody can tell, and what each claim is answered
with. The name of the file goes into a header, which `contentDisposition_sound` reads back.
-/

open Js Machine

namespace Server.Files

/-! ## Tickets -/

inductive TicketKind where
  | files (uuid : String) (paths : List String)
  | backup (uuid backupId : String)
deriving DecidableEq

structure Ticket where
  userId : ℕ
  instanceId : ℕ
  nodeId : ℕ
  filename : Text
  size : Option ℕ
  archive : Bool
  kind : TicketKind
  expiresAt : ℕ
deriving DecidableEq

/-- `TICKET_MS` -/
def ticketMs : ℕ := 60_000

structure Tickets where
  now : ℕ
  /-- The map `tickets` -/
  tickets : String → Option Ticket
  /-- Each ticket that was issued, under its id -/
  issued : List (String × Ticket)
  /-- Each ticket that a claim was answered with -/
  claimed : List (String × Ticket)

namespace Tickets

def empty (now : ℕ) : Tickets := ⟨now, fun _ => none, [], []⟩

variable (randomId : ℕ → String)

def issueTicket (s : Tickets) (t : Ticket) : Tickets :=
  let swept := fun k => (s.tickets k).filter fun v => !decide (v.expiresAt < s.now)
  let id := randomId s.issued.length
  let ticket := { t with expiresAt := s.now + ticketMs }
  { s with
    tickets := Function.update swept id (some ticket)
    issued := s.issued ++ [(id, ticket)] }

def claimTicket (s : Tickets) (id : String) (userId : ℕ) : Option Ticket × Tickets :=
  match s.tickets id with
  | none => (none, s)
  | some t =>
      if t.expiresAt < s.now ∨ t.userId ≠ userId then (none, s)
      else
        (some t, { s with
          tickets := Function.update s.tickets id none
          claimed := s.claimed ++ [(id, t)] })

inductive Action where
  | issue (t : Ticket)
  | claim (id : String) (userId : ℕ)
  | tick (ms : ℕ)

def step (s : Tickets) : Action → Option Tickets
  | .issue t => some (s.issueTicket randomId t)
  | .claim id userId => some (s.claimTicket id userId).2
  | .tick ms => some { s with now := s.now + ms }

/-- A ticket that can still be claimed -/
def Open (s : Tickets) (id : String) (t : Ticket) : Prop :=
  (id, t) ∈ s.issued ∧ id ∉ s.claimed.map Prod.fst

/-- The map holds tickets that are open, and all of them that have not expired. -/
structure Kept (s : Tickets) : Prop where
  ids : s.issued.map Prod.fst = (List.range s.issued.length).map randomId
  held : ∀ id t, s.tickets id = some t → s.Open id t
  open_ : ∀ id t, s.Open id t → s.now ≤ t.expiresAt → s.tickets id = some t
  claimed : ∀ e ∈ s.claimed, e ∈ s.issued
  once : (s.claimed.map Prod.fst).Nodup

variable {randomId} {s s' : Tickets}

theorem Kept.fresh (h : s.Kept randomId) (hids : randomId.Injective) :
    randomId s.issued.length ∉ s.issued.map Prod.fst := by
  rw [h.ids, List.mem_map]
  rintro ⟨k, hk, heq⟩
  obtain rfl := hids heq
  exact absurd (List.mem_range.mp hk) (Nat.lt_irrefl _)

theorem Kept.nodup (h : s.Kept randomId) (hids : randomId.Injective) : (s.issued.map Prod.fst).Nodup := by
  rw [h.ids]
  exact List.nodup_range.map hids

/-- Nothing but the ticket that is issued is new. -/
theorem kept_issue (hids : randomId.Injective) (h : s.Kept randomId) (t : Ticket) :
    (s.issueTicket randomId t).Kept randomId := by
  have hfresh := h.fresh hids
  have hunclaimed : randomId s.issued.length ∉ s.claimed.map Prod.fst := by
    intro hmem
    obtain ⟨e, he, heq⟩ := List.mem_map.mp hmem
    exact hfresh (heq ▸ List.mem_map_of_mem (h.claimed e he))
  refine ⟨?_, fun id v hv => ?_, fun id v hopen hnow => ?_, fun e he => ?_, h.once⟩
  · rw [issueTicket, List.map_append, h.ids, List.length_append, List.length_singleton, List.range_succ,
      List.map_append]
    rfl
  · dsimp only [issueTicket] at hv
    by_cases hid : id = randomId s.issued.length
    · subst hid
      rw [Function.update_self] at hv
      cases hv
      exact ⟨List.mem_append_right _ (List.mem_singleton_self _), hunclaimed⟩
    · rw [Function.update_of_ne hid] at hv
      obtain ⟨hissued, hopen⟩ := h.held id v (Option.filter_eq_some_iff.mp hv).1
      exact ⟨List.mem_append_left _ hissued, hopen⟩
  · dsimp only [issueTicket] at hnow ⊢
    rcases List.mem_append.mp hopen.1 with hold | hnew
    · have hid : id ≠ randomId s.issued.length := by
        rintro rfl
        exact hfresh (List.mem_map_of_mem hold)
      rw [Function.update_of_ne hid, h.open_ id v ⟨hold, hopen.2⟩ hnow, Option.filter_some, if_pos]
      rw [decide_eq_false (Nat.not_lt.mpr hnow)]
      rfl
    · obtain ⟨rfl, rfl⟩ := Prod.mk.inj (List.mem_singleton.mp hnew)
      rw [Function.update_self]
  · exact List.mem_append_left _ (h.claimed e he)

/-- A claim is answered with an open ticket of the user, if it has not expired. -/
theorem claimTicket_eq_some (h : s.Kept randomId) {id : String} {userId : ℕ} {t : Ticket} :
    (s.claimTicket id userId).1 = some t ↔ s.Open id t ∧ t.userId = userId ∧ s.now ≤ t.expiresAt := by
  rw [claimTicket]
  constructor
  · intro hclaim
    split at hclaim
    · cases hclaim
    · next v hv =>
      split at hclaim
      · cases hclaim
      · next hright =>
        rw [not_or, not_lt, not_not] at hright
        cases hclaim
        exact ⟨h.held id t hv, hright.2, hright.1⟩
  · rintro ⟨hopen, huser, hnow⟩
    rw [h.open_ id t hopen hnow]
    dsimp only
    rw [if_neg]
    rw [not_or, not_lt, not_not]
    exact ⟨hnow, huser⟩

theorem kept_claim (h : s.Kept randomId) (id : String) (userId : ℕ) :
    (s.claimTicket id userId).2.Kept randomId := by
  rw [claimTicket]
  split
  · exact h
  · next t ht =>
    split
    · exact h
    · obtain ⟨hissued, hunclaimed⟩ := h.held id t ht
      refine ⟨h.ids, fun k v hv => ?_, fun k v hopen hnow => ?_, fun e he => ?_, ?_⟩
      · dsimp only at hv
        by_cases hk : k = id
        · rw [hk, Function.update_self] at hv
          cases hv
        · rw [Function.update_of_ne hk] at hv
          obtain ⟨hin, hout⟩ := h.held k v hv
          refine ⟨hin, fun hmem => ?_⟩
          rw [List.map_append, List.mem_append] at hmem
          rcases hmem with hmem | hmem
          · exact hout hmem
          · exact hk (List.mem_singleton.mp hmem)
      · obtain ⟨hin, hout⟩ := hopen
        rw [List.map_append, List.mem_append, not_or] at hout
        dsimp only
        rw [Function.update_of_ne fun heq => hout.2 (List.mem_singleton.mpr heq)]
        exact h.open_ k v ⟨hin, hout.1⟩ hnow
      · rcases List.mem_append.mp he with hold | hnew
        · exact h.claimed e hold
        · rw [List.mem_singleton.mp hnew]
          exact hissued
      · rw [List.map_append]
        exact List.Nodup.append h.once (List.nodup_singleton _)
          fun k hk hk' => hunclaimed ((List.mem_singleton.mp hk' : k = id) ▸ hk)

theorem kept_tick (h : s.Kept randomId) (ms : ℕ) : Kept randomId { s with now := s.now + ms } :=
  ⟨h.ids, h.held, fun id t hopen hnow => h.open_ id t hopen ((Nat.le_add_right _ _).trans hnow), h.claimed, h.once⟩

theorem kept_step (hids : randomId.Injective) {a : Action} (hs : s.step randomId a = some s') (h : s.Kept randomId) :
    s'.Kept randomId := by
  rcases a with t | ⟨id, userId⟩ | ms <;> cases hs
  · exact kept_issue hids h t
  · exact kept_claim h id userId
  · exact kept_tick h ms

theorem kept_empty (now : ℕ) : (empty now).Kept randomId :=
  ⟨rfl, nofun, fun _ _ hopen => absurd hopen.1 List.not_mem_nil, nofun, List.nodup_nil⟩

end Tickets

/-- A claim is answered with the ticket as it was issued, if it is the user's, not older than a minute and has not been
claimed before, and with nothing else; so each is claimed at most once. -/
theorem ticket_good_once {randomId : ℕ → String} {now : ℕ} {actions : List Tickets.Action} {s : Tickets}
    (hids : randomId.Injective) (hrun : exec (Tickets.step randomId) (.empty now) actions = some s) :
    (s.claimed.map Prod.fst).Nodup ∧ (∀ e ∈ s.claimed, e ∈ s.issued) ∧
      ∀ id userId t, (s.claimTicket id userId).1 = some t ↔
        (id, t) ∈ s.issued ∧ id ∉ s.claimed.map Prod.fst ∧ t.userId = userId ∧ s.now ≤ t.expiresAt := by
  have hkept := exec_preserves (fun _ _ _ hs h => Tickets.kept_step hids hs h) hrun (Tickets.kept_empty now)
  refine ⟨hkept.once, hkept.claimed, fun id userId t => ?_⟩
  rw [Tickets.claimTicket_eq_some hkept, Tickets.Open, and_assoc]

/-- A ticket that is claimed at the last moment, and once more -/
def claimedLate : List Tickets.Action :=
  [.issue ⟨1, 2, 3, text "world.zip", some 5, false, .files "uuid" ["world.zip"], 0⟩, .tick 60_000, .claim "" 1,
    .claim "" 1]

theorem ticket_good_once_claimedLate :
    ∃ s, exec (Tickets.step fun n => String.ofList (List.replicate n 'A')) (.empty 7) claimedLate = some s ∧
      s.claimed.length = 1 ∧ (s.claimed.map Prod.fst).Nodup ∧ (∀ e ∈ s.claimed, e ∈ s.issued) ∧
      ∀ id userId t, (s.claimTicket id userId).1 = some t ↔
        (id, t) ∈ s.issued ∧ id ∉ s.claimed.map Prod.fst ∧ t.userId = userId ∧ s.now ≤ t.expiresAt := by
  have hids : Function.Injective fun n => String.ofList (List.replicate n 'A') := by
    intro m n h
    have hlength := congrArg List.length (String.ofList_injective h)
    rwa [List.length_replicate, List.length_replicate] at hlength
  obtain ⟨s, hrun, hclaimed⟩ : ∃ s,
      exec (Tickets.step fun n => String.ofList (List.replicate n 'A')) (.empty 7) claimedLate = some s ∧
        s.claimed.length = 1 := ⟨_, rfl, rfl⟩
  exact ⟨s, hrun, hclaimed, ticket_good_once hids hrun⟩

/-! ## The header -/

/-- `filename.replace(/[^\x20-\x7e]|["\\]/g, "_")` -/
def asciiName (filename : Text) : List Char :=
  filename.map fun u =>
    if u < 0x20 ∨ 0x7e < u ∨ u = 0x22 ∨ u = 0x5c then '_' else Char.ofNat u.toNat

/-- `contentDisposition`, which throws where `encodeURIComponent` does -/
def contentDisposition (filename : Text) : Option (List Char) :=
  (encodeURIComponent filename).map fun encoded =>
    "attachment; filename=\"".toList ++ asciiName filename ++ "\"; filename*=UTF-8''".toList ++ encoded

def isPrintable (c : Char) : Bool := decide (32 ≤ c.toNat ∧ c.toNat ≤ 126)

theorem mem_asciiName {filename : Text} {c : Char} (h : c ∈ asciiName filename) :
    32 ≤ c.toNat ∧ c.toNat ≤ 126 ∧ c ≠ '"' ∧ c ≠ '\\' := by
  obtain ⟨u, -, rfl⟩ := List.mem_map.mp h
  split
  · decide
  · next hkept =>
    rw [not_or, not_or, not_or] at hkept
    obtain ⟨hlow, hhigh, hquote, hslash⟩ := hkept
    have hlow' : 32 ≤ u.toNat := Nat.not_lt.mp fun hlt => hlow (UInt16.lt_iff_toNat_lt.mpr hlt)
    have hhigh' : u.toNat ≤ 126 := Nat.not_lt.mp fun hlt => hhigh (UInt16.lt_iff_toNat_lt.mpr hlt)
    have htoNat : (Char.ofNat u.toNat).toNat = u.toNat := toNat_ofNat_ascii (by omega)
    refine ⟨hlow'.trans_eq htoNat.symm, htoNat.trans_le hhigh', fun heq => hquote ?_, fun heq => hslash ?_⟩
    · exact UInt16.toNat_inj.mp (htoNat.symm.trans (congrArg Char.toNat heq))
    · exact UInt16.toNat_inj.mp (htoNat.symm.trans (congrArg Char.toNat heq))

/-- The header is one of printable ASCII whose quotes are its own, and its last part stands for the name; only a name
with half of a surrogate pair has none. -/
theorem contentDisposition_sound (filename : Text) :
    ((contentDisposition filename).isSome = true ↔ ∀ p ∈ codePoints filename, isLone p = false) ∧
      ∀ header, contentDisposition filename = some header →
        (∀ c ∈ header, 32 ≤ c.toNat ∧ c.toNat ≤ 126) ∧
          ∃ name encoded, header =
              "attachment; filename=\"".toList ++ name ++ "\"; filename*=UTF-8''".toList ++ encoded ∧
            (∀ c ∈ name, c ≠ '"' ∧ c ≠ '\\') ∧ (∀ c ∈ encoded, isUnreserved c = true ∨ c = '%') ∧
            percentBytes encoded = some (encode filename) := by
  refine ⟨?_, fun header hheader => ?_⟩
  · rw [contentDisposition, Option.isSome_map]
    exact encodeURIComponent_isSome filename
  obtain ⟨encoded, hencoded, rfl⟩ := Option.map_eq_some_iff.mp hheader
  have hunreserved := mem_encodeURIComponent hencoded
  refine ⟨fun c hc => ?_, asciiName filename, encoded, rfl, fun c hc => (mem_asciiName hc).2.2, hunreserved,
    percentBytes_encodeURIComponent hencoded⟩
  rcases List.mem_append.mp hc with hc | hc
  · rcases List.mem_append.mp hc with hc | hc
    · rcases List.mem_append.mp hc with hc | hc
      · have hall : "attachment; filename=\"".toList.all isPrintable = true := by decide
        exact of_decide_eq_true (List.all_eq_true.mp hall c hc)
      · exact ⟨(mem_asciiName hc).1, (mem_asciiName hc).2.1⟩
    · have hall : "\"; filename*=UTF-8''".toList.all isPrintable = true := by decide
      exact of_decide_eq_true (List.all_eq_true.mp hall c hc)
  · rcases hunreserved c hc with hkept | rfl
    · have := toNat_unreserved hkept
      omega
    · decide

end Server.Files
