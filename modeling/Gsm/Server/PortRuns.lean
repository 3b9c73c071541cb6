import Gsm.Server.PortBlocks

/-!
# The runs of ports

`portRun`, which the panel shares, walks from a port back to the head of its run by name, and `headOf` of the
allocator does so by its own map. The schema lets a port follow an earlier one only, and one port only one other, so
walking forward ends too: the ports of a list fall into runs, one for each head, in which the two agree on every
port's place.
-/

namespace Server.PortRuns

open Ports (TemplatePort headOf sizes portsOk)
open PortBlocks (templatePort)

/-- What `portRun` gives: the head's name and how far behind it the port is. -/
structure PortRun where
  head : String
  offset : ℕ
deriving DecidableEq

/-- The loop of `portRun`; an empty `follows` is none. -/
def portRunFrom (ports : List TemplatePort) (head : String) (offset : ℕ) : PortRun :=
  match (ports.find? (·.name == head)).bind (·.follows) with
  | none => ⟨head, offset⟩
  | some follows =>
      if follows = "" ∨ ports.length ≤ offset then ⟨head, offset⟩
      else portRunFrom ports follows (offset + 1)
termination_by ports.length - offset

/-- The port a port's run starts at (itself unless it follows one) and how far after it it is. -/
def portRun (ports : List TemplatePort) (name : String) : PortRun := portRunFrom ports name 0

/-- Walking forward from `p`, from each port to the one that follows it, to the last. -/
inductive Forward (ports : List TemplatePort) : TemplatePort → List TemplatePort → Prop
  | last {p : TemplatePort} (hp : p ∈ ports) (hend : ∀ q ∈ ports, q.follows ≠ some p.name) : Forward ports p [p]
  | next {p q : TemplatePort} {l : List TemplatePort} (hp : p ∈ ports) (hq : q.follows = some p.name)
      (h : Forward ports q l) : Forward ports p (p :: l)

variable {ports before after l l' : List TemplatePort} {p q head : TemplatePort} {i k offset : ℕ}

/-! ## Walking back -/

/-- A port is at most as far behind its head as there are ports before it. -/
theorem offset_le_before (h : portsOk [] ports = true) (hports : ports = before ++ p :: after) :
    (headOf ports p).2 ≤ before.length := by
  induction hk : before.length using Nat.strong_induction_on generalizing before after p with
  | _ k ih =>
    have hp : p ∈ ports := hports ▸ List.mem_append_right _ List.mem_cons_self
    rcases hf : p.follows with _ | f
    · rw [PortBlocks.headOf_of_follows_none hf]
      exact Nat.zero_le _
    · obtain ⟨q, hq, rfl⟩ := PortBlocks.exists_followed (hports ▸ h) hf
      rw [List.nil_append] at hq
      obtain ⟨b₁, b₂, rfl⟩ := List.append_of_mem hq
      rw [List.length_append, List.length_cons] at hk
      have hqports : ports = b₁ ++ q :: (b₂ ++ p :: after) := by rw [hports]; simp
      have hqmem : q ∈ ports := hqports ▸ List.mem_append_right _ List.mem_cons_self
      have hq := ih b₁.length (by omega) hqports rfl
      rw [PortBlocks.headOf_of_follows h hp hqmem hf]
      show (headOf ports q).2 + 1 ≤ k
      omega

theorem offset_lt_length (h : portsOk [] ports = true) (hp : p ∈ ports) :
    (headOf ports p).2 < ports.length := by
  obtain ⟨before, after, hports⟩ := List.append_of_mem hp
  have hle := offset_le_before h hports
  have hlen : ports.length = before.length + (after.length + 1) := by
    rw [hports, List.length_append, List.length_cons]
  omega

/-- The port before one that is not a head -/
theorem exists_previous (h : portsOk [] ports = true) (hp : p ∈ ports) (hk : (headOf ports p).2 = k + 1) :
    ∃ q ∈ ports, p.follows = some q.name ∧ headOf ports q = ((headOf ports p).1, k) := by
  obtain ⟨before, after, hports⟩ := List.append_of_mem hp
  rcases hf : p.follows with _ | f
  · rw [PortBlocks.headOf_of_follows_none hf] at hk
    exact absurd hk (by simp)
  · obtain ⟨q, hq, rfl⟩ := PortBlocks.exists_followed (hports ▸ h) hf
    rw [List.nil_append] at hq
    have hqmem : q ∈ ports := hports ▸ List.mem_append_left _ hq
    have hstep := PortBlocks.headOf_of_follows h hp hqmem hf
    rw [hstep] at hk
    refine ⟨q, hqmem, rfl, ?_⟩
    rw [hstep]
    exact Prod.ext rfl (Nat.succ.inj hk)

theorem find?_name (h : portsOk [] ports = true) (hp : p ∈ ports) :
    ports.find? (·.name == p.name) = some p := by
  rcases hfind : ports.find? (·.name == p.name) with _ | q
  · exact absurd (List.find?_eq_none.mp hfind p hp) (by simp)
  · have hname : q.name = p.name := by simpa using List.find?_some hfind
    rw [hfind, Ports.eq_of_name h (List.mem_of_find?_eq_some hfind) hp hname]

theorem follows_ne_empty (hports : ports.all templatePort = true) (hp : p ∈ ports) : p.follows ≠ some "" := by
  intro hempty
  have hport := List.all_eq_true.mp hports p hp
  rw [templatePort, Bool.and_eq_true, hempty] at hport
  exact absurd hport.2 (by decide)

theorem portRunFrom_eq (hports : ports.all templatePort = true) (h : portsOk [] ports = true) (hp : p ∈ ports)
    (hk : offset + (headOf ports p).2 < ports.length) :
    portRunFrom ports p.name offset = ⟨(headOf ports p).1.name, offset + (headOf ports p).2⟩ := by
  induction hplace : (headOf ports p).2 generalizing p offset with
  | zero =>
    rcases hf : p.follows with _ | f
    · rw [portRunFrom, find?_name h hp, Option.bind_some, hf, PortBlocks.headOf_of_follows_none hf]
      rfl
    · obtain ⟨before, after, hsplit⟩ := List.append_of_mem hp
      obtain ⟨q, hq, rfl⟩ := PortBlocks.exists_followed (hsplit ▸ h) hf
      have hqmem : q ∈ ports := hsplit ▸ List.mem_append_left _ hq
      rw [PortBlocks.headOf_of_follows h hp hqmem hf] at hplace
      exact absurd hplace (by simp)
  | succ k ih =>
    obtain ⟨q, hq, hf, hhead⟩ := exists_previous h hp hplace
    have hgo : ¬ (q.name = "" ∨ ports.length ≤ offset) := by
      rintro (hempty | hlen)
      · exact follows_ne_empty hports hp (by rw [hf, hempty])
      · omega
    have hplaceq : (headOf ports q).2 = k := by rw [hhead]
    have hqrun : portRunFrom ports q.name (offset + 1) = ⟨(headOf ports q).1.name, offset + 1 + k⟩ :=
      ih hq (by omega) hplaceq
    rw [portRunFrom, find?_name h hp, Option.bind_some, hf]
    simp only [if_neg hgo]
    rw [hqrun, hhead]
    congr 1
    omega

/-! ## Walking forward -/

theorem Forward.mem (h : Forward ports p l) (hq : q ∈ l) : q ∈ ports := by
  induction h with
  | last hp _ => exact List.mem_singleton.mp hq ▸ hp
  | next hp _ _ ih =>
    rcases List.mem_cons.mp hq with rfl | hq
    · exact hp
    · exact ih hq

theorem Forward.first (h : Forward ports p l) : l[0]? = some p := by
  rcases h with _ | _
  · rfl
  · rfl

/-- The walk ends: the next port is further down the list. -/
theorem exists_forward (h : portsOk [] ports = true) (hports : ports = before ++ p :: after) :
    ∃ l, Forward ports p l := by
  induction hk : after.length using Nat.strong_induction_on generalizing before after p with
  | _ k ih =>
    have hp : p ∈ ports := hports ▸ List.mem_append_right _ List.mem_cons_self
    by_cases hend : ∀ q ∈ ports, q.follows ≠ some p.name
    · exact ⟨[p], .last hp hend⟩
    push Not at hend
    obtain ⟨q, hq, hf⟩ := hend
    obtain ⟨b, a, hsplit⟩ := List.append_of_mem hq
    obtain ⟨r, hr, hname⟩ := PortBlocks.exists_followed (hsplit ▸ h) hf
    rw [List.nil_append] at hr
    obtain rfl := Ports.eq_of_name h (hsplit ▸ List.mem_append_left _ hr) hp hname
    obtain ⟨b₁, b₂, rfl⟩ := List.append_of_mem hr
    -- names are different, so that is where `r` is
    have hafter : after = b₂ ++ q :: a := by
      have hnodup : ports.Nodup := (Ports.portsOk_spec h).1.of_map
      have hsame : before ++ r :: after = b₁ ++ r :: (b₂ ++ q :: a) := by rw [← hports, hsplit]; simp
      rw [hports, List.nodup_middle, List.nodup_cons, List.mem_append, not_or] at hnodup
      exact ((List.append_cons_inj_of_notMem hnodup.1.1 hnodup.1.2).mp hsame).2.2
    obtain ⟨l, hl⟩ := ih a.length (by rw [hafter, List.length_append, List.length_cons] at hk; omega) hsplit rfl
    exact ⟨r :: l, .next hp hf hl⟩

/-- There is one way forward only. -/
theorem Forward.unique (h : portsOk [] ports = true) (hl : Forward ports p l) (hl' : Forward ports p l') :
    l = l' := by
  induction hl generalizing l' with
  | last hp hend =>
    rcases hl' with _ | ⟨-, hq, hrest⟩
    · rfl
    · exact absurd hq (hend _ (hrest.mem (List.mem_of_getElem? hrest.first)))
  | next hp hq hrest ih =>
    have hqmem := hrest.mem (List.mem_of_getElem? hrest.first)
    rcases hl' with ⟨-, hend⟩ | ⟨-, hq', hrest'⟩
    · exact absurd hq (hend _ hqmem)
    · obtain rfl := Ports.eq_of_follows h hqmem (hrest'.mem (List.mem_of_getElem? hrest'.first)) hq hq'
      rw [ih hrest']

/-- Each port on the way is one further from the head. -/
theorem Forward.headOf_getElem (h : portsOk [] ports = true) (hl : Forward ports p l) (hi : l[i]? = some q) :
    headOf ports q = ((headOf ports p).1, (headOf ports p).2 + i) := by
  induction hl generalizing i with
  | last hp _ =>
    rcases i with _ | i
    · cases hi
      rfl
    · cases hi
  | next hp hnext hrest ih =>
    rcases i with _ | i
    · cases hi
      rfl
    · rw [List.getElem?_cons_succ] at hi
      have hmem := hrest.mem (List.mem_of_getElem? hrest.first)
      rw [ih hi, PortBlocks.headOf_of_follows h hmem hp hnext]
      exact Prod.ext rfl (by show _ + 1 + i = _ + (i + 1); omega)

/-- And no port that follows one on the way is left out. -/
theorem Forward.getElem_succ (h : portsOk [] ports = true) (hl : Forward ports p l) (hi : l[i]? = some q)
    {r : TemplatePort} (hr : r ∈ ports) (hf : r.follows = some q.name) : l[i + 1]? = some r := by
  induction hl generalizing i with
  | last hp hend =>
    rcases i with _ | i
    · cases hi
      exact absurd hf (hend r hr)
    · cases hi
  | next hp hnext hrest ih =>
    rw [List.getElem?_cons_succ]
    rcases i with _ | i
    · cases hi
      rw [hrest.first, Ports.eq_of_follows h hr (hrest.mem (List.mem_of_getElem? hrest.first)) hf hnext]
    · exact ih hi

/-- The run of a head: what `headOf` says of a port is its place in it. -/
theorem Forward.getElem_iff (h : portsOk [] ports = true) (hhead : head.follows = none)
    (hl : Forward ports head l) : l[i]? = some q ↔ q ∈ ports ∧ headOf ports q = (head, i) := by
  constructor
  · intro hi
    have hplace := hl.headOf_getElem h hi
    rw [PortBlocks.headOf_of_follows_none hhead, Nat.zero_add] at hplace
    exact ⟨hl.mem (List.mem_of_getElem? hi), hplace⟩
  · rintro ⟨hq, hplace⟩
    induction i generalizing q with
    | zero =>
      have hheadOf : headOf ports head = (head, 0) := PortBlocks.headOf_of_follows_none hhead
      have hmem : head ∈ ports := hl.mem (List.mem_of_getElem? hl.first)
      have hsame : q = head := Ports.headFrom_injective h ports.length hq hmem
        (by rw [← headOf, ← headOf, hplace, hheadOf]) (by rw [← headOf, ← headOf, hplace, hheadOf])
      rw [hsame]
      exact hl.first
    | succ i ih =>
      obtain ⟨r, hr, hf, hprev⟩ := exists_previous h hq (k := i) (by rw [hplace])
      rw [hplace] at hprev
      exact hl.getElem_succ h (ih hr hprev) hq hf

/-! ## The blocks -/

/-- The block of a head is as long as its run. -/
theorem lookup_sizes (h : portsOk [] ports = true) (hhead : head.follows = none) (hl : Forward ports head l) :
    (sizes ports).lookup head.name = some l.length := by
  obtain ⟨hnodup, hall⟩ := Ports.sizes_spec ports
  have hlen : 0 < l.length := List.length_pos_of_mem (List.mem_of_getElem? hl.first)
  have hlast : l[l.length - 1]? = some l[l.length - 1] := List.getElem?_eq_getElem _
  obtain ⟨hmem, hplace⟩ := (hl.getElem_iff h hhead).mp hlast
  obtain ⟨n, hn, hlt⟩ := hall _ hmem
  rw [hplace] at hn hlt
  obtain ⟨q, hq, hname, hsize⟩ := PortBlocks.sizes_reached hn
  have hqhead : (headOf ports q).1 = head :=
    Ports.eq_of_name h (PortBlocks.headOf_mem h hq).1 (hl.mem (List.mem_of_getElem? hl.first)) hname
  have hqplace : l[(headOf ports q).2]? = some q := (hl.getElem_iff h hhead).mpr ⟨hq, Prod.ext hqhead rfl⟩
  have hbound := (List.getElem?_eq_some_iff.mp hqplace).1
  have hexact : n = l.length := by
    have hsize : n = (headOf ports q).2 + 1 := hsize
    have hlt : l.length - 1 < n := hlt
    omega
  rw [Ports.lookup_of_mem hnodup hn, hexact]

/-- For ports the schema accepts, a list of any length: walking back from a port ends at a head, a port that follows
none, where the bounds of the loops do not cut it short, and `portRun` and `headOf` give the same; walking forward
ends as well, and there is one way only; the ports on the way from a head are those whose place `headOf` gives, the
block the allocator places for it is as long, and every port is on the way from exactly one head. -/
theorem portRun_agrees (hports : ports.all templatePort = true) (h : portsOk [] ports = true) :
    (∀ p ∈ ports, portRun ports p.name = ⟨(headOf ports p).1.name, (headOf ports p).2⟩ ∧
      (headOf ports p).1 ∈ ports ∧ (headOf ports p).1.follows = none ∧ (headOf ports p).2 < ports.length) ∧
    (∀ p ∈ ports, ∃! l, Forward ports p l) ∧
    (∀ head ∈ ports, head.follows = none → ∀ l, Forward ports head l →
      (sizes ports).lookup head.name = some l.length ∧
        ∀ i q, l[i]? = some q ↔ q ∈ ports ∧ headOf ports q = (head, i)) ∧
    (∀ b ∈ sizes ports, ∃ head ∈ ports, head.follows = none ∧ head.name = b.1) ∧
    ∀ q ∈ ports, ∃! head, head ∈ ports ∧ head.follows = none ∧ ∃ l, Forward ports head l ∧ q ∈ l := by
  refine ⟨fun p hp => ?_, fun p hp => ?_, fun head _ hhead l hl => ?_, fun b hb => ?_, fun q hq => ?_⟩
  · have hlt := offset_lt_length h hp
    have hrun : portRun ports p.name = ⟨_, 0 + (headOf ports p).2⟩ := portRunFrom_eq hports h hp (by omega)
    rw [Nat.zero_add] at hrun
    exact ⟨hrun, (PortBlocks.headOf_mem h hp).1, (PortBlocks.headOf_mem h hp).2, hlt⟩
  · obtain ⟨before, after, hsplit⟩ := List.append_of_mem hp
    obtain ⟨l, hl⟩ := exists_forward h hsplit
    exact ⟨l, hl, fun l' hl' => hl'.unique h hl⟩
  · exact ⟨lookup_sizes h hhead hl, fun i q => hl.getElem_iff h hhead⟩
  · obtain ⟨p, hp, hname, -⟩ := PortBlocks.sizes_reached hb
    exact ⟨_, (PortBlocks.headOf_mem h hp).1, (PortBlocks.headOf_mem h hp).2, hname⟩
  · obtain ⟨hmem, hhead⟩ := PortBlocks.headOf_mem h hq
    obtain ⟨before, after, hsplit⟩ := List.append_of_mem hmem
    obtain ⟨l, hl⟩ := exists_forward h hsplit
    have hin : l[(headOf ports q).2]? = some q := (hl.getElem_iff h hhead).mpr ⟨hq, rfl⟩
    refine ⟨_, ⟨hmem, hhead, l, hl, List.mem_of_getElem? hin⟩, ?_⟩
    rintro head' ⟨-, hhead', l', hl', hq'⟩
    obtain ⟨i, hi⟩ := List.mem_iff_getElem?.mp hq'
    rw [((hl'.getElem_iff h hhead').mp hi).2]

open PortBlocks (sevenDays) in
theorem portRun_agrees_sevenDays : portRun sevenDays "game_3" = ⟨"game", 2⟩ := by
  have hmem : ⟨"game_3", "game_3", .udp, 26902, false, some "game_2"⟩ ∈ sevenDays := by decide +kernel
  have hrun := ((portRun_agrees (by decide +kernel) (by decide +kernel)).1 _ hmem).1
  exact hrun.trans (by decide +kernel)

end Server.PortRuns
