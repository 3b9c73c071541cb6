import Gsm.Server.Transfers

/-!
# What the relay promises

`transfers_safe`: in whatever order its callbacks fire, a token is good for one fetch or post, by the node
it was made for, and a digest that a node is told is that of the bytes that passed, which are as many as
were announced.
-/

open Machine

namespace Server.Files

variable (sha256 : Bytes → String) (randomId : ℕ → Token) (refused tooLarge : String)

namespace Deferred

variable {α : Type} {d : Deferred α} {v w : α} {why : String} {x : Except String α}

theorem resolve_settled (h : d = some x) : d.resolve v = some x := by
  rw [h]
  rfl

theorem reject_settled (h : d = some x) : d.reject why = some x := by
  rw [h]
  rfl

theorem of_reject_ok (h : d.reject why = some (.ok w)) : d = some (.ok w) := by
  rcases d with _ | x
  · cases h
  · exact h

theorem of_resolve_ok (h : d.resolve v = some (.ok w)) : d = some (.ok w) ∨ w = v := by
  rcases d with _ | x
  · cases h
    exact .inr rfl
  · exact .inl h

end Deferred

/-! ## Single transfers -/

namespace Outgoing

/-- What was read was handed on, unless the stream has failed, and a complete stream had the size. -/
structure Streams (t : Outgoing) (r : Relay) : Prop where
  claimed : t.claimed = true
  handed : r.closed = false → r.sent = r.tally
  whole : r.complete = true → r.pulling = false ∧ r.sent = r.tally ∧ r.sent.length = t.size

/-- A digest is that of a complete stream. -/
structure Ok (t : Outgoing) : Prop where
  streams : ∀ r, t.relay = some r → t.Streams r
  digest : ∀ hex, t.digest = some (.ok hex) →
    ∃ r, t.relay = some r ∧ r.complete = true ∧ hex = sha256 r.sent

end Outgoing

namespace Post

structure Ok (p : Post) : Prop where
  answer : ∀ hex, p.answer = some (.ok hex) →
    p.ended = true ∧ hex = sha256 p.tally ∧ ∀ n ∈ p.length, p.tally.length = n
  settled : p.ended = true ∨ p.finished = true → p.answer ≠ none

end Post

structure Incoming.Ok (t : Incoming) : Prop where
  claimed : ∀ p, t.post = some p → t.claimed = true
  post : ∀ p, t.post = some p → p.Ok sha256

namespace Transfer

def Ok : Transfer → Prop
  | out t => t.Ok sha256
  | inc t => t.Ok sha256

/-- The node has been told, or may be told, this digest. -/
def Gives (hex : String) : Transfer → Prop
  | out t => t.digest = some (.ok hex)
  | inc t => ∃ p, t.post = some p ∧ p.answer = some (.ok hex)

/-- What no callback takes back -/
structure Later (t t' : Transfer) : Prop where
  nodeId : t'.nodeId = t.nodeId
  isOut : (∃ o, t = out o) → ∃ o, t' = out o
  claimed : t.claimed = true → t'.claimed = true
  gives : ∀ hex, t.Gives hex → t'.Gives hex

theorem Later.refl (t : Transfer) : t.Later t := ⟨rfl, id, id, fun _ => id⟩

end Transfer

namespace Outgoing

variable {sha256} {t t' : Outgoing} {r r' : Relay} {why : String} {b : Bool}

theorem later (hnode : t'.nodeId = t.nodeId) (hcl : t.claimed = true → t'.claimed = true)
    (hdigest : ∀ x, t.digest = some x → t'.digest = some x) : (Transfer.out t).Later (.out t') :=
  ⟨hnode, fun _ => ⟨t', rfl⟩, hcl, fun _ => hdigest _⟩

/-- A digest that is refused leaves the stream alone. -/
theorem Ok.reject (h : t.Ok sha256) : ({ t with timer := b, digest := t.digest.reject why }).Ok sha256 := by
  refine ⟨fun r hr => ?_, fun hex hhex => h.digest hex (Deferred.of_reject_ok hhex)⟩
  exact ⟨(h.streams r hr).claimed, (h.streams r hr).handed, (h.streams r hr).whole⟩

/-- The stream goes on; what a complete one has sent stays. -/
theorem Ok.relay (h : t.Ok sha256) (hr : t.relay = some r) (hstreams : t.Streams r')
    (hsame : r.complete = true → r'.complete = true ∧ r'.sent = r.sent) :
    ({ t with relay := some r' }).Ok sha256 := by
  refine ⟨fun q hq => ?_, fun hex hhex => ?_⟩
  · cases hq
    exact ⟨hstreams.claimed, hstreams.handed, hstreams.whole⟩
  · obtain ⟨q, hq, hcomplete, rfl⟩ := h.digest hex hhex
    cases hr.symm.trans hq
    obtain ⟨hcomplete', hsent⟩ := hsame hcomplete
    exact ⟨r', rfl, hcomplete', by rw [hsent]⟩

/-- The stream fails. -/
theorem Ok.fail (h : t.Ok sha256) (hr : t.relay = some r) (hidle : r.complete = false)
    (hidle' : r'.complete = false) (hclosed : r'.closed = true) :
    ({ t with digest := t.digest.reject why, relay := some r' }).Ok sha256 := by
  refine ⟨fun q hq => ?_, fun hex hhex => ?_⟩
  · cases hq
    refine ⟨(h.streams r hr).claimed, fun hopen => ?_, fun hcomplete => ?_⟩
    · cases hopen.symm.trans hclosed
    · cases hcomplete.symm.trans hidle'
  · obtain ⟨q, hq, hcomplete, -⟩ := h.digest hex (Deferred.of_reject_ok hhex)
    cases hr.symm.trans hq
    cases hcomplete.symm.trans hidle

/-- All of the stream has passed. -/
theorem Ok.finish (hcl : t.claimed = true) (hdigest : ∀ hex, t.digest ≠ some (.ok hex))
    (hsent : r.sent = r.tally) (hsize : r.sent.length = t.size) : (t.finish sha256 r).Ok sha256 := by
  refine ⟨fun q hq => ?_, fun hex hhex => ?_⟩
  · cases hq
    exact ⟨hcl, fun _ => hsent, fun _ => ⟨rfl, hsent, hsize⟩⟩
  · rcases Deferred.of_resolve_ok hhex with hold | rfl
    · exact absurd hold (hdigest hex)
    · exact ⟨_, rfl, rfl, congrArg sha256 hsent.symm⟩

theorem later_finish : (Transfer.out t).Later (.out (t.finish sha256 r)) :=
  later rfl id fun _ hx => Deferred.resolve_settled hx

/-- A transfer that nobody has claimed has no stream, and no digest yet. -/
theorem Ok.unclaimed (h : t.Ok sha256) (hcl : t.claimed = false) (hex : String) :
    t.digest ≠ some (.ok hex) := by
  intro hhex
  obtain ⟨r, hr, -⟩ := h.digest hex hhex
  cases hcl.symm.trans (h.streams r hr).claimed

theorem Ok.serve (h : t.Ok sha256) (hcl : t.claimed = false) :
    (t.serve sha256).Ok sha256 ∧ (Transfer.out t).Later (.out (t.serve sha256)) ∧
      (t.serve sha256).claimed = true := by
  have hnone := h.unclaimed hcl
  rw [Outgoing.serve]
  dsimp only
  split
  next hzero =>
    exact ⟨Ok.finish rfl hnone rfl hzero.symm,
      later rfl (fun _ => rfl) fun _ hx => Deferred.resolve_settled hx, rfl⟩
  next =>
    refine ⟨⟨fun q hq => ?_, fun hex hhex => absurd hhex (hnone hex)⟩, later rfl (fun _ => rfl) fun _ => id, rfl⟩
    cases hq
    exact ⟨rfl, fun _ => rfl, nofun⟩

/-- What comes of a read -/
theorem Ok.pull (h : t.Ok sha256) (hr : t.relay = some r) (hpulling : r.pulling = true) (result : ReadResult) :
    ∀ u, t.pull sha256 refused r result = .passed u ∨ t.pull sha256 refused r result = .failed u →
      u.Ok sha256 ∧ (Transfer.out t).Later (.out u) := by
  have hstreams := h.streams r hr
  have hidle : r.complete = false := by
    rcases hcomplete : r.complete with _ | _
    · rfl
    · cases (hstreams.whole hcomplete).1.symm.trans hpulling
  have hfails : ∀ (q : Relay) why, q.complete = false →
      (t.fail q why).Ok sha256 ∧ (Transfer.out t).Later (.out (t.fail q why)) := by
    intro q why hq
    exact ⟨h.fail hr hidle hq rfl, later rfl id fun _ hx => Deferred.reject_settled hx⟩
  intro u hu
  rcases result with value | _ | message
  · rw [Outgoing.pull] at hu
    dsimp only at hu
    split at hu
    next =>
      rcases hu with hu | hu <;> cases hu
      exact hfails _ _ hidle
    split at hu
    next =>
      rcases hu with hu | hu <;> cases hu
      exact hfails _ _ hidle
    next hopen =>
      have hsent : r.sent ++ value = r.tally ++ value := by
        rw [hstreams.handed (Bool.eq_false_iff.mpr hopen)]
      split at hu
      next hsize =>
        rcases hu with hu | hu <;> cases hu
        have hnone : ∀ hex, t.digest ≠ some (.ok hex) := by
          intro hex hhex
          obtain ⟨q, hq, hcomplete, -⟩ := h.digest hex hhex
          cases hr.symm.trans hq
          cases hcomplete.symm.trans hidle
        refine ⟨Ok.finish hstreams.claimed hnone hsent ?_, later_finish⟩
        rw [← hsize]
        exact congrArg List.length hsent
      next =>
        rcases hu with hu | hu <;> cases hu
        refine ⟨h.relay hr ⟨hstreams.claimed, fun _ => hsent, fun hcomplete => ?_⟩ fun hcomplete => ?_,
          later rfl id fun _ => id⟩
        · cases hidle.symm.trans hcomplete
        · cases hidle.symm.trans hcomplete
  · rcases hu with hu | hu <;> cases hu
    exact hfails _ _ hidle
  · rcases hu with hu | hu <;> cases hu
    exact hfails _ _ hidle

end Outgoing

namespace Post

variable {sha256} {p : Post}

theorem Ok.fail (h : p.Ok sha256) (message : String) : (p.fail message).Ok sha256 := by
  rw [Post.fail]
  split
  · exact h
  · exact ⟨fun hex hhex => h.answer hex (Deferred.of_reject_ok hhex),
      fun _ => by rcases ha : p.answer with _ | x <;> simp [Deferred.reject]⟩

/-- As long as the body has not ended, its POST is not answered with a digest. -/
theorem Ok.running (h : p.Ok sha256) (hended : p.ended = false) (hex : String) :
    p.answer ≠ some (.ok hex) := by
  intro hhex
  cases hended.symm.trans (h.answer hex hhex).1

theorem Ok.read (h : p.Ok sha256) (hended : p.ended = false) (max : ℕ) (value : Bytes) :
    (p.read max tooLarge value).Ok sha256 := by
  have hmore : ({ p with tally := p.tally ++ value }).Ok sha256 :=
    ⟨fun hex hhex => absurd hhex (h.running hended hex), h.settled⟩
  rw [Post.read]
  dsimp only
  split
  · exact hmore.fail tooLarge
  · exact hmore

/-- The end of a body that is whole, or that was given up before -/
theorem Ok.ends (h : p.Ok sha256) (hended : p.ended = false)
    (hwhole : p.finished = false → ∀ n ∈ p.length, p.tally.length = n) : (p.ends sha256).Ok sha256 := by
  refine ⟨fun hex hhex => ?_, fun _ => ?_⟩
  · rcases hfin : p.finished with _ | _
    · rcases Deferred.of_resolve_ok hhex with hold | rfl
      · exact absurd hold (h.running hended hex)
      · exact ⟨rfl, rfl, hwhole hfin⟩
    · rcases ha : p.answer with _ | x
      · exact absurd ha (h.settled (.inr hfin))
      · rw [Post.ends] at hhex
        rw [Deferred.resolve_settled ha] at hhex
        exact absurd (ha.trans hhex) (h.running hended hex)
  · rcases ha : p.answer with _ | x <;> simp [Post.ends, Deferred.resolve, ha]

theorem fail_answer {x : Except String String} {message : String} (h : p.answer = some x) :
    (p.fail message).answer = some x := by
  rw [Post.fail]
  split
  · exact h
  · exact Deferred.reject_settled h

theorem read_answer {x : Except String String} {max : ℕ} {value : Bytes} (h : p.answer = some x) :
    (p.read max tooLarge value).answer = some x := by
  rw [Post.read]
  dsimp only
  split
  · exact fail_answer h
  · exact h

end Post

namespace Incoming

variable {sha256} {t : Incoming} {p p' : Post}

theorem Ok.reading (h : t.Ok sha256) (ht : t.post = some p) (hp : p'.Ok sha256)
    (hanswer : ∀ x, p.answer = some x → p'.answer = some x) :
    ({ t with post := some p' }).Ok sha256 ∧ (Transfer.inc t).Later (.inc { t with post := some p' }) := by
  refine ⟨⟨fun q _ => h.claimed p ht, fun q hq => ?_⟩, rfl, ?_, id, ?_⟩
  · cases hq
    exact hp
  · rintro ⟨o, ho⟩
    cases ho
  · rintro hex ⟨q, hq, hhex⟩
    cases ht.symm.trans hq
    exact ⟨p', rfl, hanswer _ hhex⟩

/-- What happens to the promise and the timer is no matter of the POST. -/
theorem Ok.waiting (h : t.Ok sha256) {arrival : Deferred (Option ℕ)} {timer : Bool} :
    ({ t with arrival := arrival, timer := timer }).Ok sha256 ∧
      (Transfer.inc t).Later (.inc { t with arrival := arrival, timer := timer }) := by
  refine ⟨⟨h.claimed, h.post⟩, rfl, ?_, id, fun _ => id⟩
  rintro ⟨o, ho⟩
  cases ho

theorem Ok.receive (h : t.Ok sha256) (hcl : t.claimed = false) (length : Option ℕ) :
    (t.receive length).Ok sha256 ∧ (Transfer.inc t).Later (.inc (t.receive length)) := by
  refine ⟨⟨fun _ _ => rfl, fun q hq => ?_⟩, rfl, ?_, fun _ => rfl, ?_⟩
  · cases hq
    exact ⟨nofun, fun hdone => by rcases hdone with hdone | hdone <;> cases hdone⟩
  · rintro ⟨o, ho⟩
    cases ho
  · rintro hex ⟨q, hq, -⟩
    cases hcl.symm.trans (h.claimed q hq)

end Incoming

namespace Transfer

variable {sha256} {t : Transfer}

theorem Ok.clearTimer (h : t.Ok sha256) : t.clearTimer.Ok sha256 ∧ t.Later t.clearTimer := by
  rcases t with t | t
  · refine ⟨⟨fun r hr => ?_, h.digest⟩, Outgoing.later rfl id fun _ => id⟩
    exact ⟨(h.streams r hr).claimed, (h.streams r hr).handed, (h.streams r hr).whole⟩
  · exact Incoming.Ok.waiting h

theorem Ok.cancel (h : t.Ok sha256) (reason : String) :
    (t.cancel reason).Ok sha256 ∧ t.Later (t.cancel reason) := by
  rcases t with t | t
  · exact ⟨Outgoing.Ok.reject h, Outgoing.later rfl id fun _ hx => Deferred.reject_settled hx⟩
  · exact Incoming.Ok.waiting h

theorem Ok.expire (h : t.Ok sha256) : t.expire.Ok sha256 ∧ t.Later t.expire := by
  rcases t with t | t
  · exact ⟨Outgoing.Ok.reject h, Outgoing.later rfl id fun _ hx => Deferred.reject_settled hx⟩
  · exact Incoming.Ok.waiting h

end Transfer

/-! ## The relay -/

/-- The invariant: tokens are those of their transfers, and what the nodes have got was theirs. -/
structure Inv (s : Transfers) : Prop where
  items : ∀ e ∈ s.items, e.1 = randomId e.2
  made : ∀ t ∈ s.made, t.Ok sha256
  asking : ∀ c ∈ s.asking, ∃ t, s.made[c.1]? = some t ∧ (∃ o, t = .out o) ∧ c.2.1 = randomId c.1 ∧
    t.nodeId = c.2.2
  served : ∀ e ∈ s.served, ∃ n t, s.made[n]? = some t ∧ e.1 = randomId n ∧ t.nodeId = e.2 ∧ t.claimed = true
  once : (s.served.map (·.1)).Nodup
  digests : ∀ e ∈ s.digests, ∃ n t, s.made[n]? = some t ∧ e.1 = randomId n ∧ t.nodeId = e.2.1 ∧
    t.Gives e.2.2

/-- Transfers go on, and new ones come behind them. -/
def Forward (s s' : Transfers) : Prop :=
  ∀ (n : ℕ) (t : Transfer), s.made[n]? = some t → ∃ t', s'.made[n]? = some t' ∧ t.Later t'

section

variable {sha256 randomId} {s s' : Transfers} {n : ℕ} {t t' : Transfer}

theorem Inv.forward (h : Inv sha256 randomId s) (hfwd : Forward s s') (hmade : ∀ t ∈ s'.made, t.Ok sha256)
    (hitems : ∀ e ∈ s'.items, e.1 = randomId e.2) (hasking : s'.asking = s.asking)
    (hserved : s'.served = s.served) (hdigests : s'.digests = s.digests) : Inv sha256 randomId s' := by
  refine ⟨hitems, hmade, ?_, ?_, ?_, ?_⟩
  · intro c hc
    rw [hasking] at hc
    obtain ⟨t, ht, hout, htok, hnode⟩ := h.asking c hc
    obtain ⟨t', ht', hlater⟩ := hfwd _ _ ht
    exact ⟨t', ht', hlater.isOut hout, htok, hlater.nodeId.trans hnode⟩
  · intro e he
    rw [hserved] at he
    obtain ⟨n, t, ht, htok, hnode, hcl⟩ := h.served e he
    obtain ⟨t', ht', hlater⟩ := hfwd _ _ ht
    exact ⟨n, t', ht', htok, hlater.nodeId.trans hnode, hlater.claimed hcl⟩
  · rw [hserved]
    exact h.once
  · intro e he
    rw [hdigests] at he
    obtain ⟨n, t, ht, htok, hnode, hgives⟩ := h.digests e he
    obtain ⟨t', ht', hlater⟩ := hfwd _ _ ht
    exact ⟨n, t', ht', htok, hlater.nodeId.trans hnode, hlater.gives _ hgives⟩

theorem made_put (ht : s.made[n]? = some t) : (s.put n t').made[n]? = some t' := by
  obtain ⟨hn, -⟩ := List.getElem?_eq_some_iff.mp ht
  rw [Transfers.put, List.getElem?_set_self hn]

theorem forward_put (ht : s.made[n]? = some t) (hlater : t.Later t') : Forward s (s.put n t') := by
  intro m u hu
  by_cases hm : n = m
  · subst hm
    cases ht.symm.trans hu
    exact ⟨t', made_put ht, hlater⟩
  · refine ⟨u, ?_, .refl u⟩
    rw [Transfers.put, List.getElem?_set_ne hm]
    exact hu

theorem Inv.delete (h : Inv sha256 randomId s) (token : Token) : Inv sha256 randomId (s.delete token) :=
  h.forward (fun _ t ht => ⟨t, ht, .refl t⟩) h.made
    (fun e he => h.items e (List.mem_of_mem_filter he)) rfl rfl rfl

theorem Inv.put (h : Inv sha256 randomId s) (ht : s.made[n]? = some t) (hok : t'.Ok sha256)
    (hlater : t.Later t') : Inv sha256 randomId (s.put n t') := by
  refine h.forward (forward_put ht hlater) ?_ h.items rfl rfl rfl
  intro u hu
  rcases List.mem_or_eq_of_mem_set hu with hmem | rfl
  · exact h.made u hmem
  · exact hok

theorem Inv.add (h : Inv sha256 randomId s) (hok : t.Ok sha256) : Inv sha256 randomId (s.add randomId t) := by
  refine h.forward (fun m u hu => ⟨u, ?_, .refl u⟩) ?_ ?_ rfl rfl rfl
  · obtain ⟨hm, -⟩ := List.getElem?_eq_some_iff.mp hu
    rw [Transfers.add, List.getElem?_append_left hm]
    exact hu
  · intro u hu
    rcases List.mem_append.mp hu with hmem | hmem
    · exact h.made u hmem
    · rw [List.mem_singleton.mp hmem]
      exact hok
  · intro e he
    rcases List.mem_cons.mp he with rfl | hmem
    · rfl
    · exact h.items e hmem

theorem Inv.of_get {token : Token} (h : Inv sha256 randomId s) (hget : s.get token = some (n, t)) :
    token = randomId n ∧ s.made[n]? = some t := by
  obtain ⟨m, hm, hmap⟩ := Option.bind_eq_some_iff.mp hget
  obtain ⟨u, hu, heq⟩ := Option.map_eq_some_iff.mp hmap
  obtain ⟨rfl, rfl⟩ := Prod.mk.inj heq
  refine ⟨?_, hu⟩
  obtain ⟨before, after, hsplit, -⟩ := List.lookup_eq_some_iff.mp hm
  refine h.items (token, m) ?_
  rw [hsplit]
  exact List.mem_append_right _ List.mem_cons_self

/-- A POST goes on; its answer stays. -/
theorem Inv.posts (h : Inv sha256 randomId s) {i : Incoming} {p p' : Post} (ht : s.made[n]? = some (.inc i))
    (hpost : i.post = some p) (hok : p.Ok sha256 → p'.Ok sha256)
    (hanswer : ∀ x, p.answer = some x → p'.answer = some x) :
    Inv sha256 randomId (s.put n (.inc { i with post := some p' })) := by
  have hi : i.Ok sha256 := h.made _ (List.mem_of_getElem? ht)
  obtain ⟨hok', hlater⟩ := hi.reading hpost (hok (hi.post p hpost)) hanswer
  exact h.put ht hok' hlater

/-- A token that is not claimed has not been good for anything yet. -/
theorem Inv.fresh (h : Inv sha256 randomId s) (hids : randomId.Injective) (ht : s.made[n]? = some t)
    (hcl : t.claimed = false) : randomId n ∉ s.served.map (·.1) := by
  intro hmem
  obtain ⟨e, he, htok⟩ := List.mem_map.mp hmem
  obtain ⟨m, u, hu, hown, -, hclaimed⟩ := h.served e he
  obtain rfl := hids (htok.symm.trans hown)
  cases ht.symm.trans hu
  cases hcl.symm.trans hclaimed

/-- A token is good for something once: its transfer is claimed from then on. -/
theorem Inv.serves (h : Inv sha256 randomId s) (hids : randomId.Injective) (ht : s.made[n]? = some t)
    (hcl : t.claimed = false) (hok : t'.Ok sha256) (hlater : t.Later t') (hnow : t'.claimed = true) :
    Inv sha256 randomId { s.put n t' with served := s.served ++ [(randomId n, t.nodeId)] } := by
  have hput := h.put ht hok hlater
  have hnew := h.fresh hids ht hcl
  refine ⟨hput.items, hput.made, hput.asking, ?_, ?_, hput.digests⟩
  · intro e he
    rcases List.mem_append.mp he with hmem | hmem
    · exact hput.served e hmem
    · rw [List.mem_singleton.mp hmem]
      exact ⟨n, t', made_put ht, rfl, hlater.nodeId, hnow⟩
  · rw [List.map_append]
    refine List.nodup_append.mpr ⟨h.once, List.nodup_singleton _, ?_⟩
    rintro token htoken _ hlast rfl
    rw [List.mem_singleton.mp hlast] at htoken
    exact hnew htoken

theorem Inv.tells (h : Inv sha256 randomId s) {hex : String} (ht : s.made[n]? = some t) (hgives : t.Gives hex) :
    Inv sha256 randomId { s with digests := s.digests ++ [(randomId n, t.nodeId, hex)] } := by
  refine ⟨h.items, h.made, h.asking, h.served, h.once, ?_⟩
  intro e he
  rcases List.mem_append.mp he with hmem | hmem
  · exact h.digests e hmem
  · rw [List.mem_singleton.mp hmem]
    exact ⟨n, t, ht, rfl, rfl, hgives⟩

theorem Inv.asks (h : Inv sha256 randomId s) {o : Outgoing} (ht : s.made[n]? = some (.out o)) :
    Inv sha256 randomId { s with asking := s.asking ++ [(n, randomId n, o.nodeId)] } := by
  refine ⟨h.items, h.made, ?_, h.served, h.once, h.digests⟩
  intro c hc
  rcases List.mem_append.mp hc with hmem | hmem
  · exact h.asking c hmem
  · rw [List.mem_singleton.mp hmem]
    exact ⟨.out o, ht, ⟨o, rfl⟩, rfl, rfl⟩

theorem Inv.asked (h : Inv sha256 randomId s) (k : ℕ) :
    Inv sha256 randomId { s with asking := s.asking.eraseIdx k } :=
  ⟨h.items, h.made, fun c hc => h.asking c (List.mem_of_mem_eraseIdx hc), h.served, h.once, h.digests⟩

theorem Inv.ok (h : Inv sha256 randomId s) (ht : s.made[n]? = some t) : t.Ok sha256 :=
  h.made t (List.mem_of_getElem? ht)

end

/-- HTTP ends a body that came with a length only after that many bytes, unless it was given up; a body
that breaks off is an error. -/
def BodiesWhole (s : Transfers) (a : Action) : Prop :=
  ∀ n, a = .bodyEnd n → ∀ t p, s.made[n]? = some (.inc t) → t.post = some p → p.finished = false →
    ∀ m ∈ p.length, p.tally.length = m

section

variable {sha256 randomId refused tooLarge} {s s' : Transfers} {a : Action}

/-- A timer fires, or a transfer is cancelled. -/
theorem inv_expire {n : ℕ} (hstep : step sha256 randomId refused tooLarge s (.expire n) = some s')
    (h : Inv sha256 randomId s) : Inv sha256 randomId s' := by
  unfold step at hstep
  dsimp only at hstep
  split at hstep
  next => cases hstep
  next t ht =>
    have hclear := h.put ht (h.ok ht).clearTimer.1 (h.ok ht).clearTimer.2
    split at hstep
    · cases hstep
    split at hstep
    next =>
      cases hstep
      exact hclear
    next m u hget =>
      obtain ⟨-, hu⟩ := hclear.of_get hget
      split at hstep
      · cases hstep
        exact hclear
      · cases hstep
        exact (hclear.delete _).put hu (hclear.ok hu).expire.1 (hclear.ok hu).expire.2

theorem inv_cancel {n : ℕ} {reason : String}
    (hstep : step sha256 randomId refused tooLarge s (.cancel n reason) = some s')
    (h : Inv sha256 randomId s) : Inv sha256 randomId s' := by
  unfold step at hstep
  dsimp only at hstep
  split at hstep
  next => cases hstep
  next t ht =>
    cases hstep
    obtain ⟨hok, hlater⟩ := (h.ok ht).cancel reason
    exact (h.delete _).put ht hok hlater
  next t ht =>
    cases hstep
    obtain ⟨hok, hlater⟩ := (h.ok ht).cancel reason
    split
    · exact h.put ht hok hlater
    · exact (h.delete _).put ht hok hlater

/-- A node fetches. -/
theorem inv_serve {token : Token} {node : NodeId} (hids : randomId.Injective)
    (hstep : step sha256 randomId refused tooLarge s (.serve token node) = some s')
    (h : Inv sha256 randomId s) : Inv sha256 randomId s' := by
  unfold step at hstep
  dsimp only at hstep
  split at hstep
  next n t hget =>
    obtain ⟨rfl, ht⟩ := h.of_get hget
    split at hstep
    next =>
      cases hstep
      exact h
    next hmay =>
      cases hstep
      obtain ⟨hnode, hclaimed⟩ := not_or.mp hmay
      obtain rfl := not_not.mp hnode
      have hcl : t.claimed = false := Bool.eq_false_iff.mpr hclaimed
      obtain ⟨hok, hlater, hnow⟩ := Outgoing.Ok.serve (h.ok ht) hcl
      have hok : (Transfer.out (t.serve sha256)).Ok sha256 := hok
      exact h.serves hids ht hcl hok hlater hnow
  next =>
    cases hstep
    exact h

/-- A node posts. -/
theorem inv_receive {token : Token} {node : NodeId} {length : Option ℕ} (hids : randomId.Injective)
    (hstep : step sha256 randomId refused tooLarge s (.receive token node length) = some s')
    (h : Inv sha256 randomId s) : Inv sha256 randomId s' := by
  unfold step at hstep
  dsimp only at hstep
  split at hstep
  next n t hget =>
    obtain ⟨rfl, ht⟩ := h.of_get hget
    split at hstep
    next =>
      cases hstep
      exact h
    next hmay =>
      cases hstep
      obtain ⟨hnode, hclaimed⟩ := not_or.mp hmay
      obtain rfl := not_not.mp hnode
      have hcl : t.claimed = false := Bool.eq_false_iff.mpr hclaimed
      obtain ⟨hok, hlater⟩ := Incoming.Ok.receive (h.ok ht) hcl length
      have hok : (Transfer.inc (t.receive length)).Ok sha256 := hok
      exact (h.delete _).serves hids ht hcl hok hlater rfl
  next =>
    cases hstep
    exact h

/-- A node asks for a digest. -/
theorem inv_digest {token : Token} {node : NodeId}
    (hstep : step sha256 randomId refused tooLarge s (.digest token node) = some s')
    (h : Inv sha256 randomId s) : Inv sha256 randomId s' := by
  unfold step at hstep
  dsimp only at hstep
  split at hstep
  next n t hget =>
    obtain ⟨rfl, ht⟩ := h.of_get hget
    split at hstep
    next =>
      cases hstep
      exact h
    next hmay =>
      cases hstep
      obtain rfl := not_not.mp (not_or.mp hmay).1
      exact h.asks ht
  next =>
    cases hstep
    exact h

/-- A node is told the digest it asked for. -/
theorem inv_told {k : ℕ} (hstep : step sha256 randomId refused tooLarge s (.told k) = some s')
    (h : Inv sha256 randomId s) : Inv sha256 randomId s' := by
  unfold step at hstep
  dsimp only at hstep
  split at hstep
  next => cases hstep
  next n token node hask =>
    obtain ⟨u, hu, -, htok, hnode⟩ := h.asking _ (List.mem_of_getElem? hask)
    dsimp only at hu htok hnode
    split at hstep
    next t ht =>
      cases ht.symm.trans hu
      split at hstep
      next => cases hstep
      next hex hdigest =>
        cases hstep
        subst htok hnode
        exact ((h.delete (randomId n)).asked k).tells ht hdigest
      next =>
        cases hstep
        exact (h.delete token).asked k
    next => cases hstep

/-- The stream of a fetch: a step of its own -/
theorem inv_pull {n : ℕ} (hstep : step sha256 randomId refused tooLarge s (.pull n) = some s')
    (h : Inv sha256 randomId s) : Inv sha256 randomId s' := by
  unfold step at hstep
  dsimp only at hstep
  split at hstep
  next nodeId size claimed digest timer r ht =>
    split at hstep
    next => cases hstep
    next hidle =>
      cases hstep
      have hok := h.ok ht
      have hstreams := hok.streams r rfl
      have hcomplete : r.complete = false := Bool.eq_false_iff.mpr (not_or.mp hidle).1
      refine h.put ht (Outgoing.Ok.relay hok rfl ?_ fun _ => ⟨‹_›, rfl⟩) (Outgoing.later rfl id fun _ => id)
      exact ⟨hstreams.claimed, hstreams.handed, fun hdone => nomatch hcomplete.symm.trans hdone⟩
  next => cases hstep

theorem inv_read {n : ℕ} {result : ReadResult}
    (hstep : step sha256 randomId refused tooLarge s (.read n result) = some s')
    (h : Inv sha256 randomId s) : Inv sha256 randomId s' := by
  unfold step at hstep
  dsimp only at hstep
  split at hstep
  next t ht =>
    split at hstep
    next r hr =>
      split at hstep
      next => cases hstep
      next hpulling =>
        have hpulling : r.pulling = true := by simpa using hpulling
        have hread := Outgoing.Ok.pull refused (h.ok ht) hr hpulling result
        split at hstep
        next u hu =>
          cases hstep
          obtain ⟨hok, hlater⟩ := hread u (.inl hu)
          exact h.put ht hok hlater
        next u hu =>
          cases hstep
          obtain ⟨hok, hlater⟩ := hread u (.inr hu)
          exact (h.delete _).put ht hok hlater
    next => cases hstep
  next => cases hstep

theorem inv_stop {n : ℕ} (hstep : step sha256 randomId refused tooLarge s (.stop n) = some s')
    (h : Inv sha256 randomId s) : Inv sha256 randomId s' := by
  unfold step at hstep
  dsimp only at hstep
  split at hstep
  next t ht =>
    split at hstep
    next r hr =>
      have hok := h.ok ht
      have hstreams := hok.streams r hr
      split at hstep
      next => cases hstep
      split at hstep
      next hcomplete =>
        cases hstep
        refine h.put ht (Outgoing.Ok.relay hok hr ?_ fun _ => ⟨hcomplete, rfl⟩) (Outgoing.later rfl id fun _ => id)
        exact ⟨hstreams.claimed, nofun, hstreams.whole⟩
      next hidle =>
        cases hstep
        have hidle : r.complete = false := Bool.eq_false_iff.mpr hidle
        exact (h.delete _).put ht (Outgoing.Ok.fail hok hr hidle hidle rfl)
          (Outgoing.later rfl id fun _ hx => Deferred.reject_settled hx)
    next => cases hstep
  next => cases hstep

theorem inv_drop {n : ℕ} (hstep : step sha256 randomId refused tooLarge s (.drop n) = some s')
    (h : Inv sha256 randomId s) : Inv sha256 randomId s' := by
  unfold step at hstep
  dsimp only at hstep
  split at hstep
  next t ht =>
    split at hstep
    next r hr =>
      have hok := h.ok ht
      have hstreams := hok.streams r hr
      split at hstep
      next => cases hstep
      next =>
        cases hstep
        exact (h.delete _).put ht
          (Outgoing.Ok.relay hok hr ⟨hstreams.claimed, hstreams.handed, hstreams.whole⟩ fun hdone => ⟨hdone, rfl⟩)
          (Outgoing.later rfl id fun _ => id)
    next => cases hstep
  next => cases hstep

/-- The body of a POST, up to its end -/
theorem inv_bodyRead {n max : ℕ} {value : Bytes}
    (hstep : step sha256 randomId refused tooLarge s (.bodyRead n max value) = some s')
    (h : Inv sha256 randomId s) : Inv sha256 randomId s' := by
  unfold step at hstep
  dsimp only at hstep
  split at hstep
  next nodeId claimed arrival timer p ht =>
    split at hstep
    next => cases hstep
    next hrunning =>
      cases hstep
      have hended : p.ended = false := Bool.eq_false_iff.mpr hrunning
      exact h.posts ht rfl (fun hp => hp.read tooLarge hended max value) fun _ hx => Post.read_answer tooLarge hx
  next => cases hstep

theorem inv_bodyEnd {n : ℕ} (hbody : BodiesWhole s (.bodyEnd n))
    (hstep : step sha256 randomId refused tooLarge s (.bodyEnd n) = some s')
    (h : Inv sha256 randomId s) : Inv sha256 randomId s' := by
  unfold step at hstep
  dsimp only at hstep
  split at hstep
  next nodeId claimed arrival timer p ht =>
    split at hstep
    next => cases hstep
    next hrunning =>
      cases hstep
      have hended : p.ended = false := Bool.eq_false_iff.mpr hrunning
      have hwhole := hbody n rfl _ p ht rfl
      exact h.posts ht rfl (fun hp => hp.ends hended hwhole) fun _ hx => Deferred.resolve_settled hx
  next => cases hstep

theorem inv_bodyFail {n : ℕ} {message : String}
    (hstep : step sha256 randomId refused tooLarge s (.bodyFail n message) = some s')
    (h : Inv sha256 randomId s) : Inv sha256 randomId s' := by
  unfold step at hstep
  dsimp only at hstep
  split at hstep
  next nodeId claimed arrival timer p ht =>
    cases hstep
    exact h.posts ht rfl (fun hp => hp.fail message) fun _ hx => Post.fail_answer hx
  next => cases hstep

theorem inv_rpcDone {n : ℕ} (hstep : step sha256 randomId refused tooLarge s (.rpcDone n) = some s')
    (h : Inv sha256 randomId s) : Inv sha256 randomId s' := by
  unfold step at hstep
  dsimp only at hstep
  split at hstep
  next nodeId claimed arrival timer p ht =>
    split at hstep
    next => cases hstep
    next hrunning =>
      cases hstep
      have hended : p.ended = true := by simpa using hrunning
      exact h.posts ht rfl (fun hp => ⟨hp.answer, fun _ => hp.settled (.inl hended)⟩) fun _ => id
  next => cases hstep

theorem inv_answered {n : ℕ} (hstep : step sha256 randomId refused tooLarge s (.answered n) = some s')
    (h : Inv sha256 randomId s) : Inv sha256 randomId s' := by
  unfold step at hstep
  dsimp only at hstep
  split at hstep
  next nodeId claimed arrival timer p ht =>
    split at hstep
    next => cases hstep
    have hput : Inv sha256 randomId
        (s.put n (.inc ⟨nodeId, claimed, arrival, timer, some { p with replied := true }⟩)) :=
      h.posts ht rfl (fun hp => ⟨hp.answer, hp.settled⟩) fun _ => id
    split at hstep
    next => cases hstep
    next hex hanswer =>
      cases hstep
      exact hput.tells (made_put ht) ⟨_, rfl, hanswer⟩
    next =>
      cases hstep
      exact hput
  next => cases hstep

theorem inv_step (hids : randomId.Injective) (hbody : BodiesWhole s a)
    (hstep : step sha256 randomId refused tooLarge s a = some s') (h : Inv sha256 randomId s) :
    Inv sha256 randomId s' := by
  rcases a with ⟨node, size⟩ | node | n | ⟨n, reason⟩ | ⟨token, node⟩ | n | ⟨n, result⟩ | n | n |
    ⟨token, node⟩ | k | ⟨token, node, length⟩ | ⟨n, max, value⟩ | n | ⟨n, message⟩ | n | n
  · -- offer
    cases hstep
    exact h.add ⟨fun _ h => (nomatch h), fun _ h => (nomatch h)⟩
  · -- expect
    cases hstep
    exact h.add ⟨fun _ h => (nomatch h), fun _ h => (nomatch h)⟩
  · exact inv_expire hstep h
  · exact inv_cancel hstep h
  · exact inv_serve hids hstep h
  · exact inv_pull hstep h
  · exact inv_read hstep h
  · exact inv_stop hstep h
  · exact inv_drop hstep h
  · exact inv_digest hstep h
  · exact inv_told hstep h
  · exact inv_receive hids hstep h
  · exact inv_bodyRead hstep h
  · exact inv_bodyEnd hbody hstep h
  · exact inv_bodyFail hstep h
  · exact inv_rpcDone hstep h
  · exact inv_answered hstep h

/-- In every run -/
theorem inv_run {actions : List Action} (hids : randomId.Injective)
    (hrun : exec (step sha256 randomId refused tooLarge) empty actions = some s)
    (hbodies : Along (step sha256 randomId refused tooLarge) BodiesWhole empty actions) :
    Inv sha256 randomId s :=
  exec_invariant (fun _ _ _ hbody hstep h => inv_step hids hbody hstep h) hrun hbodies
    ⟨List.forall_mem_nil _, List.forall_mem_nil _, List.forall_mem_nil _, List.forall_mem_nil _, List.nodup_nil,
      List.forall_mem_nil _⟩

end

/-- All of the transfer passed, and this is its digest: of what a node fetched, which was all that was read
of the source and as much as was offered, or of what it posted, which was as much as it announced. -/
def Transfer.Passed (hex : String) : Transfer → Prop
  | .out t => ∃ r, t.relay = some r ∧ r.sent = r.tally ∧ r.sent.length = t.size ∧ hex = sha256 r.sent
  | .inc t => ∃ p, t.post = some p ∧ p.ended = true ∧ (∀ n ∈ p.length, p.tally.length = n) ∧
      hex = sha256 p.tally

/-- A token is good once and for the node that its transfer was made for, and a node is told a digest only
of a transfer of its own that has passed whole. -/
theorem transfers_safe {actions : List Action} {s : Transfers} (hids : randomId.Injective)
    (hrun : exec (step sha256 randomId refused tooLarge) empty actions = some s)
    (hbodies : Along (step sha256 randomId refused tooLarge) BodiesWhole empty actions) :
    (s.served.map (·.1)).Nodup ∧
      (∀ e ∈ s.served, ∃ n t, s.made[n]? = some t ∧ e.1 = randomId n ∧ t.nodeId = e.2) ∧
        ∀ e ∈ s.digests, ∃ n t, s.made[n]? = some t ∧ e.1 = randomId n ∧ t.nodeId = e.2.1 ∧
          t.Passed sha256 e.2.2 := by
  have hinv := inv_run hids hrun hbodies
  refine ⟨hinv.once, fun e he => ?_, fun e he => ?_⟩
  · obtain ⟨n, t, ht, htok, hnode, -⟩ := hinv.served e he
    exact ⟨n, t, ht, htok, hnode⟩
  · obtain ⟨n, t, ht, htok, hnode, hgives⟩ := hinv.digests e he
    refine ⟨n, t, ht, htok, hnode, ?_⟩
    have hok := hinv.ok ht
    rcases t with t | t
    · obtain ⟨r, hr, hcomplete, hhex⟩ := Outgoing.Ok.digest hok _ hgives
      obtain ⟨-, hsent, hsize⟩ := (Outgoing.Ok.streams hok r hr).whole hcomplete
      exact ⟨r, hr, hsent, hsize, hhex⟩
    · obtain ⟨p, hp, hanswer⟩ := hgives
      obtain ⟨hended, hhex, hlength⟩ := ((Incoming.Ok.post hok) p hp).answer _ hanswer
      exact ⟨p, hp, hended, hlength, hhex⟩

/-- An upload of two bytes, fetched and its digest asked for by node 1 -/
def upload : List Action :=
  [.offer 1 2, .serve "" 1, .pull 0, .read 0 (.chunk [1, 2]), .digest "" 1, .told 0]

def sha256Upload (bytes : Bytes) : String :=
  if bytes = [1, 2] then "a12871fee210fb8619291eaea194581cbd2531e4b23759d225f6806923f63222" else ""

theorem transfers_safe_upload :
    ∃ s, exec (step sha256Upload (fun n => String.ofList (List.replicate n 'A')) "" "") empty upload = some s ∧
      s.digests = [("", 1, sha256Upload [1, 2])] ∧
      (s.served.map (·.1)).Nodup ∧
      (∀ e ∈ s.served, ∃ n t, s.made[n]? = some t ∧ e.1 = String.ofList (List.replicate n 'A') ∧
        t.nodeId = e.2) ∧
      ∀ e ∈ s.digests, ∃ n t, s.made[n]? = some t ∧ e.1 = String.ofList (List.replicate n 'A') ∧
        t.nodeId = e.2.1 ∧ t.Passed sha256Upload e.2.2 := by
  have hids : Function.Injective fun n => String.ofList (List.replicate n 'A') := by
    intro m n h
    have hlen := congrArg List.length (String.ofList_injective h)
    rwa [List.length_replicate, List.length_replicate] at hlen
  obtain ⟨s, hrun, htold⟩ :
      ∃ s, exec (step sha256Upload (fun n => String.ofList (List.replicate n 'A')) "" "") empty upload = some s ∧
        s.digests = [("", 1, sha256Upload [1, 2])] := ⟨_, rfl, rfl⟩
  refine ⟨s, hrun, htold, transfers_safe _ _ _ _ hids hrun ?_⟩
  -- no post ends in this run
  iterate 6 refine ⟨nofun, fun _ _ => ?_⟩
  trivial

end Server.Files
