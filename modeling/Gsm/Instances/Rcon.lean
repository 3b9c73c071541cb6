import Mathlib.Data.List.DropRight
import Gsm.GoStd.Binary

/-!
# RCON packets

`rconPacket` and `readRCONPacket` of `transport.go`. The size in front of a packet does not count itself:
it is the two words of the header, the body and two NUL bytes.

A read says which buffers it has made, by their sizes.
-/

open GoStd

namespace Instances.Rcon

def rconMaxPacket : ℕ := 1 <<< 20

structure Packet where
  id : BitVec 32
  typ : BitVec 32
  body : ByteString
deriving DecidableEq

/-- `rconPacket` -/
def rconPacket (p : Packet) : ByteString :=
  putUint32 (BitVec.ofNat 32 (10 + p.body.length)) ++ putUint32 p.id ++ putUint32 p.typ ++ p.body ++ [0, 0]

/-- What a read of a packet comes to. -/
structure Read where
  result : Except ReadError Packet
  /-- the bytes still to come -/
  rest : ByteString
  allocated : List ℕ

/-- `fmt.Errorf("rcon: bad packet size %d", size)` -/
def badSize (size : ℤ) : ReadError := .other ("rcon: bad packet size " ++ toString size)

/-- `strings.TrimRight(s, "\x00")` -/
def trimNuls (s : ByteString) : ByteString := s.rdropWhile (· == 0)

/-- `readRCONPacket` -/
def readRCONPacket (r : ByteString) : Read :=
  match readFull 4 r with
  | (.error err, r) => ⟨.error err, r, [4]⟩
  | (.ok head, r) =>
      let size := (uint32 head).toInt
      if size < 10 ∨ size > rconMaxPacket then ⟨.error (badSize size), r, [4]⟩
      else
        match readFull size.toNat r with
        | (.error err, r) => ⟨.error err, r, [4, size.toNat]⟩
        | (.ok buf, r) =>
            let text := buf.drop 8
            ⟨.ok ⟨uint32 (buf.take 4), uint32 ((buf.drop 4).take 4), trimNuls text⟩, r,
              [4, size.toNat, text.length]⟩

variable {p : Packet} {r : ByteString}

/-! ## What is read back -/

theorem trimNuls_append (h : (0 : UInt8) ∉ r) : trimNuls (r ++ [0, 0]) = r := by
  have hnone : r.rdropWhile (· == 0) = r := by
    rw [List.rdropWhile_eq_self_iff]
    intro hne
    have hlast : r.getLast hne ≠ 0 := fun h0 => h (h0 ▸ List.getLast_mem hne)
    simpa using hlast
  rw [trimNuls, List.append_cons, List.rdropWhile_concat_pos _ _ _ rfl,
    List.rdropWhile_concat_pos _ _ _ rfl, hnone]

/-- The size of a packet within the limit is a positive number of 32 bits. -/
theorem toInt_size (hlen : 10 + p.body.length ≤ rconMaxPacket) :
    (BitVec.ofNat 32 (10 + p.body.length)).toInt = (10 + p.body.length : ℕ) := by
  have hmax : rconMaxPacket = 2 ^ 20 := rfl
  rw [BitVec.toInt_ofNat', Int.bmod_def]
  omega

/-- A packet is read back, and what comes after it is left. -/
theorem readRCONPacket_rconPacket (hnul : (0 : UInt8) ∉ p.body)
    (hlen : 10 + p.body.length ≤ rconMaxPacket) (rest : ByteString) :
    (readRCONPacket (rconPacket p ++ rest)).result = .ok p ∧
      (readRCONPacket (rconPacket p ++ rest)).rest = rest := by
  set head := putUint32 (BitVec.ofNat 32 (10 + p.body.length)) with hhead
  set buf := putUint32 p.id ++ (putUint32 p.typ ++ (p.body ++ [0, 0])) with hbuf
  have hbytes : rconPacket p ++ rest = head ++ (buf ++ rest) := by
    simp only [rconPacket, hbuf, hhead, List.append_assoc]
  have hsize : (uint32 head).toInt = (10 + p.body.length : ℕ) := by
    rw [← List.append_nil head, hhead, uint32_putUint32, toInt_size hlen]
  have hbuflen : buf.length = 10 + p.body.length := by
    simp only [hbuf, List.length_append, length_putUint32, List.length_cons, List.length_nil]
    omega
  have hfour : readFull 4 (head ++ (buf ++ rest)) = (.ok head, buf ++ rest) :=
    readFull_append head (buf ++ rest)
  have hall : readFull (10 + p.body.length) (buf ++ rest) = (.ok buf, rest) :=
    hbuflen ▸ readFull_append buf rest
  have hid : uint32 (buf.take 4) = p.id := by
    rw [hbuf, List.take_left' (length_putUint32 _), ← List.append_nil (putUint32 p.id), uint32_putUint32]
  have hafter : buf.drop 4 = putUint32 p.typ ++ (p.body ++ [0, 0]) := by
    rw [hbuf, List.drop_left' (length_putUint32 _)]
  have htyp : uint32 ((buf.drop 4).take 4) = p.typ := by
    rw [hafter, List.take_left' (length_putUint32 _), ← List.append_nil (putUint32 p.typ), uint32_putUint32]
  have hbody : buf.drop 8 = p.body ++ [0, 0] := by
    rw [show buf.drop 8 = (buf.drop 4).drop 4 by rw [List.drop_drop], hafter,
      List.drop_left' (length_putUint32 _)]
  have hfits : ¬ (((10 + p.body.length : ℕ) : ℤ) < 10 ∨ ((10 + p.body.length : ℕ) : ℤ) > rconMaxPacket) := by
    omega
  rw [hbytes]
  simp only [readRCONPacket, hfour, hsize, if_neg hfits, Int.toNat_natCast, hall, hid, htyp, hbody,
    trimNuls_append hnul, and_self]

/-! ## What is rejected -/

/-- A size that is not admissible is all that is read of its packet. -/
theorem readRCONPacket_badSize (hfour : 4 ≤ r.length)
    (hsize : (uint32 (r.take 4)).toInt < 10 ∨ (uint32 (r.take 4)).toInt > rconMaxPacket) :
    readRCONPacket r = ⟨.error (badSize (uint32 (r.take 4)).toInt), r.drop 4, [4]⟩ := by
  have hread : readFull 4 r = (.ok (r.take 4), r.drop 4) := if_pos hfour
  rw [readRCONPacket, hread]
  exact if_pos hsize

/-- Whatever is received, a read makes no buffer beyond the limit and takes no more than a packet. -/
theorem readRCONPacket_bounded (r : ByteString) :
    (∀ n ∈ (readRCONPacket r).allocated, n ≤ rconMaxPacket) ∧
      r.length ≤ 4 + rconMaxPacket + (readRCONPacket r).rest.length := by
  have hmax : rconMaxPacket = 2 ^ 20 := rfl
  have hfour := length_readFull 4 r
  simp only [readRCONPacket]
  rcases hhead : readFull 4 r with ⟨_ | head, r'⟩ <;> rw [hhead] at hfour <;> dsimp only at hfour ⊢
  · exact ⟨by simp [hmax], by omega⟩
  · split
    · exact ⟨by simp [hmax], by dsimp only; omega⟩
    · next hsize =>
      rw [not_or] at hsize
      have hbuf := length_readFull (uint32 head).toInt.toNat r'
      rcases hread : readFull (uint32 head).toInt.toNat r' with ⟨_ | buf, r''⟩ <;> rw [hread] at hbuf <;>
        dsimp only at hbuf ⊢
      · exact ⟨by simp only [List.mem_cons, List.not_mem_nil, or_false]; omega, by omega⟩
      · have hlen := (of_readFull hread).1
        refine ⟨fun n hn => ?_, by omega⟩
        simp only [List.mem_cons, List.not_mem_nil, or_false, List.length_drop] at hn
        omega

/-! ## Packets one after another -/

/-- A packet that is read has taken at least its size. -/
theorem length_rest {rest : ByteString} {allocated : List ℕ}
    (h : readRCONPacket r = ⟨.ok p, rest, allocated⟩) : rest.length < r.length := by
  simp only [readRCONPacket] at h
  rcases hhead : readFull 4 r with ⟨_ | head, r'⟩ <;> rw [hhead] at h <;> dsimp only at h
  · exact nomatch (Read.mk.inj h).1
  · split at h
    · exact nomatch (Read.mk.inj h).1
    · rcases hread : readFull (uint32 head).toInt.toNat r' with ⟨_ | buf, r''⟩ <;> rw [hread] at h <;>
        dsimp only at h
      · exact nomatch (Read.mk.inj h).1
      · obtain ⟨hfour, hr⟩ := of_readFull hhead
        rw [← (Read.mk.inj h).2.1, hr, (of_readFull hread).2, List.length_append, List.length_append]
        omega

/-- The packets that a session reads until a read fails, and how that one fails. -/
def readRCONPackets (r : ByteString) : List Packet × ReadError :=
  match _h : readRCONPacket r with
  | ⟨.error err, _, _⟩ => ([], err)
  | ⟨.ok p, rest, _⟩ => (p :: (readRCONPackets rest).1, (readRCONPackets rest).2)
termination_by r.length
decreasing_by all_goals exact length_rest _h

theorem readRCONPackets_of_ok {rest : ByteString} {allocated : List ℕ}
    (h : readRCONPacket r = ⟨.ok p, rest, allocated⟩) :
    readRCONPackets r = (p :: (readRCONPackets rest).1, (readRCONPackets rest).2) := by
  rw [readRCONPackets]
  split
  · next h' => exact nomatch (Read.mk.inj (h.symm.trans h')).1
  · next h' =>
    obtain ⟨hp, hrest, -⟩ := Read.mk.inj (h.symm.trans h')
    rw [Except.ok.inj hp, hrest]

theorem readRCONPackets_nil : readRCONPackets [] = ([], .eof) := by
  have hnil : readRCONPacket [] = ⟨.error .eof, [], [4]⟩ := rfl
  rw [readRCONPackets]
  split
  · next h =>
    rw [Except.error.inj (Read.mk.inj (hnil.symm.trans h)).1]
  · next h => exact nomatch (Read.mk.inj (hnil.symm.trans h)).1

/-- Packets that are written one after another are read back in order, with nothing left over; and
whatever the bytes, a size that is not admissible is rejected with only its four bytes read. -/
theorem rconPacket_round_trip :
    (∀ packets : List Packet,
      (∀ p ∈ packets, (0 : UInt8) ∉ p.body ∧ 10 + p.body.length ≤ rconMaxPacket) →
        readRCONPackets (packets.flatMap rconPacket) = (packets, .eof)) ∧
    ∀ r : ByteString,
      (4 ≤ r.length → ((uint32 (r.take 4)).toInt < 10 ∨ (uint32 (r.take 4)).toInt > rconMaxPacket) →
        readRCONPacket r = ⟨.error (badSize (uint32 (r.take 4)).toInt), r.drop 4, [4]⟩) ∧
      (∀ n ∈ (readRCONPacket r).allocated, n ≤ rconMaxPacket) ∧
      r.length ≤ 4 + rconMaxPacket + (readRCONPacket r).rest.length := by
  refine ⟨fun packets hframed => ?_, fun r => ⟨readRCONPacket_badSize, readRCONPacket_bounded r⟩⟩
  induction packets with
  | nil => exact readRCONPackets_nil
  | cons p packets ih =>
    obtain ⟨hnul, hlen⟩ := hframed p (List.mem_cons_self ..)
    have hread := readRCONPacket_rconPacket hnul hlen (packets.flatMap rconPacket)
    have hrest := ih fun q hq => hframed q (List.mem_cons_of_mem _ hq)
    rw [List.flatMap_cons]
    rcases hr : readRCONPacket (rconPacket p ++ packets.flatMap rconPacket) with ⟨result, rest, allocated⟩
    rw [hr] at hread
    obtain ⟨rfl, rfl⟩ := hread
    rw [readRCONPackets_of_ok hr, hrest]

/-- The packets of a sign-in, and a size that is negative. -/
theorem rconPacket_round_trip_sign_in :
    readRCONPackets ([⟨1, 3, [112, 119]⟩, ⟨2, 2, []⟩].flatMap rconPacket) =
      ([⟨1, 3, [112, 119]⟩, ⟨2, 2, []⟩], .eof) ∧
    readRCONPacket [255, 255, 255, 255, 7] = ⟨.error (badSize (-1)), [7], [4]⟩ :=
  ⟨rconPacket_round_trip.1 [⟨1, 3, [112, 119]⟩, ⟨2, 2, []⟩] (by decide),
    (rconPacket_round_trip.2 [255, 255, 255, 255, 7]).1 (by decide) (by decide)⟩

end Instances.Rcon
