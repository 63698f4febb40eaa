/-
**What the encoders write is read back alike.**

The decoders do not agree on every byte string, but they do on all that an encoder writes from 2026
on: such a wire is short, and its milliseconds are few.  If moreover the fields of an id have their
widths and its time is in whole milliseconds, the id itself is read back.  Compaction makes the time
whole and the node a synthetic one, so a compacted id is written in the compact layout and survives.

Main results:

* `Cuuid.Prototype.agree_of_encode` — **the decoders agree on the wires of the encoders**;
* `Cuuid.Prototype.encode_round_trip_iff` — **which ids are read back**: those in whole milliseconds;
* `Cuuid.Prototype.decode_crush` — **a compacted id is written compactly, and read back**.
-/

import Cuuid.Prototype.Encoders

set_option relaxedAutoImplicit false
set_option autoImplicit false

namespace Cuuid.Prototype

open BitField LengthFold

variable {id : Cpp.Id}

/-! ### The wires of the encoders -/

/-- The wire of an id has at most sixteen bytes, and is decoded to the number of its content. -/
theorem decode_of_encode (h : id.From2026) {w : Bytes} (hw : Cpp.encode id = .ok w) :
    vlTable.decode w = some ((Cpp.contentOf id).number, []) ∧ w.length ≤ 16 := by
  have hms : (Cpp.gregToV2ms id.time).toNat < 2 ^ 60 := by
    have hlt := toNat_v2ms_lt h
    omega
  have hextra : ∀ s ∈ vlTable.slots, s.extra ≤ 15 := by decide +kernel
  obtain ⟨s, hfit, hencode⟩ := Cpp.encode_eq hms
  obtain ⟨hs, hroom, -⟩ := Table.fit_eq_some_iff.1 hfit
  rw [hw, Except.ok.injEq] at hencode
  have hdec := Table.decode_wire hs hroom []
  have hlen := hextra s hs
  rw [List.append_nil] at hdec
  rw [hencode, Slot.length_wire]
  exact ⟨hdec, by omega⟩

/-- **The decoders agree on the wires of the encoders.** -/
theorem agree_of_encode (h : id.From2026) {w : Bytes} (hw : Cpp.encode id = .ok w) : Agree w := by
  obtain ⟨hdec, hlen⟩ := decode_of_encode h hw
  have hsize := Cpp.sizeToInt_of_lt (show w.length < 2 ^ 31 by omega)
  refine (agree_iff_of_decode hdec).2 ⟨?_, ?_⟩
  · rw [hsize, List.length_nil]
    omega
  · rw [Content.ofNumber_number, Cpp.v2ms_contentOf]
    exact toNat_v2ms_lt h

/-! ### Ids that are read back -/

/-- An id that the format can carry: from 2026 on, in whole milliseconds, with fields of their
widths. -/
structure Cpp.Id.Whole (id : Cpp.Id) : Prop where
  /-- The time is one that the prototypes are for. -/
  from2026 : id.From2026
  /-- The time has no digits below the millisecond. -/
  time : (id.time.toNat - 0x01b21dd213814000) % 10000 = 0
  /-- The clock has 14 bits. -/
  clock : id.clock.toNat < 2 ^ 14
  /-- The node has 48 bits. -/
  node : id.node.toNat < 2 ^ 48

/-- The milliseconds of a whole time give it back. -/
theorem v2msToGreg_gregToV2ms (h : id.Whole) : Cpp.v2msToGreg (Cpp.gregToV2ms id.time) = id.time := by
  have hstart := h.from2026.1
  have hwhole := h.time
  apply UInt64.toNat_inj.1
  rw [Cpp.toNat_v2msToGreg (toNat_v2ms_lt h.from2026), Cpp.toNat_gregToV2ms hstart]
  omega

/-- The content of a whole id is that of no other id. -/
theorem ofContent_contentOf (h : id.Whole) : Cpp.ofContent (Cpp.contentOf id) = id := by
  have hclockLt := h.clock
  have hnodeLt := h.node
  have htime := v2msToGreg_gregToV2ms h
  have hclock : UInt16.ofNat (BitVec.ofNat 14 id.clock.toNat).toNat = id.clock := by
    rw [BitVec.toNat_ofNat, Nat.mod_eq_of_lt hclockLt, UInt16.ofNat_toNat]
  have hsalt : UInt8.ofNat (BitVec.ofNat 7 id.node.toNat).toNat =
      (id.node &&& Cpp.saltMask).toUInt8 := by
    apply UInt8.toNat_inj.1
    rw [UInt8.toNat_ofNat', BitVec.toNat_ofNat, UInt64.toNat_toUInt8,
      toNat_and_two_pow_sub_one _ _ 7 (by decide)]
  have hnode : UInt64.ofNat (BitVec.ofNat 48 id.node.toNat).toNat = id.node := by
    rw [BitVec.toNat_ofNat, Nat.mod_eq_of_lt hnodeLt, UInt64.ofNat_toNat]
  simp only [Cpp.contentOf]
  obtain ⟨time, clock, node⟩ := id
  dsimp only at htime hclock hsalt hnode ⊢
  split_ifs with hcompact
  · simp only [Cpp.ofContent, UInt64.ofNat_toNat, htime, hclock, hsalt, ← hcompact]
  · simp only [Cpp.ofContent, UInt64.ofNat_toNat, htime, hclock, hnode]

/-- A reconstructed node has 48 bits, and its salt in the low seven. -/
theorem toNat_reconstructNode (v2ms : UInt64) (clock : UInt16) {salt : UInt8}
    (h : salt.toNat < 2 ^ 7) : (Cpp.reconstructNode v2ms clock salt).toNat < 2 ^ 48 ∧
      (Cpp.reconstructNode v2ms clock salt).toNat % 2 ^ 7 = salt.toNat := by
  have hmask : (Cpp.nodeMask &&& ~~~Cpp.saltMask).toNat = 2 ^ 48 - 2 ^ 7 := by decide
  have hmulticast : Cpp.multicast.toNat = 2 ^ 40 := rfl
  simp only [Cpp.reconstructNode]
  generalize Cpp.splitmix64 (Cpp.splitmix64 _) = x
  rw [UInt64.toNat_or, UInt64.toNat_or, UInt64.toNat_and, UInt8.toNat_toUInt64, hmask, hmulticast,
    and_two_pow_sub_two_pow _ (by decide), or_eq_add _ salt.toNat 7 (by omega) h]
  constructor
  · exact Nat.or_lt_two_pow (by omega) (by decide)
  · rw [Nat.or_mod_two_pow]
    have hzero : 2 ^ 40 % 2 ^ 7 = 0 := rfl
    rw [hzero, Nat.or_zero]
    omega

/-- An id with the content of a whole one is that one, so no other id is read back. -/
theorem ofContent_contentOf_iff (h : id.From2026) :
    Cpp.ofContent (Cpp.contentOf id) = id ↔ id.Whole := by
  constructor
  · intro heq
    have hclock : (Cpp.ofContent (Cpp.contentOf id)).clock.toNat = id.clock.toNat % 2 ^ 14 := by
      simp only [Cpp.contentOf]
      split_ifs <;> simp only [Cpp.ofContent, UInt16.toNat_ofNat', BitVec.toNat_ofNat] <;> omega
    have htime : (Cpp.ofContent (Cpp.contentOf id)).time = Cpp.v2msToGreg (Cpp.gregToV2ms id.time) := by
      simp only [Cpp.contentOf]
      split_ifs <;> simp only [Cpp.ofContent, UInt64.ofNat_toNat]
    have hnode : (Cpp.ofContent (Cpp.contentOf id)).node.toNat < 2 ^ 48 := by
      cases Cpp.contentOf id with
      | compact ms c s =>
          refine (toNat_reconstructNode _ _ ?_).1
          have hs := s.isLt
          rw [UInt8.toNat_ofNat']
          omega
      | expanded ms c n =>
          have hn := n.isLt
          rw [Cpp.ofContent, UInt64.toNat_ofNat']
          omega
    rw [heq] at hclock htime hnode
    have hgreg := congrArg UInt64.toNat htime
    rw [Cpp.toNat_v2msToGreg (toNat_v2ms_lt h)] at hgreg
    exact ⟨h, by omega, by omega, hnode⟩
  · exact ofContent_contentOf

/-- What is encoded from 2026 on is decoded to the id of its content. -/
theorem decode_encode (h : id.From2026) :
    ∃ w, Cpp.encode id = .ok w ∧ Cpp.decode w = .ok (Cpp.ofContent (Cpp.contentOf id)) := by
  obtain ⟨w, hw, -⟩ := encode_agree h
  obtain ⟨hdec, hlen⟩ := decode_of_encode h hw
  have hsize := Cpp.sizeToInt_of_lt (show w.length < 2 ^ 31 by omega)
  have hcpp := Cpp.decode_eq w
  rw [hdec] at hcpp
  refine ⟨w, hw, ?_⟩
  rw [hcpp.trans (if_pos (by rw [hsize, List.length_nil]; omega)), Content.ofNumber_number]

/-- **Which ids are read back.**  An id from 2026 on comes back from its wire exactly when it is in
whole milliseconds and its clock and node have their widths. -/
theorem encode_round_trip_iff (h : id.From2026) :
    ∃ w, Cpp.encode id = .ok w ∧ Agree w ∧ (Cpp.decode w = .ok id ↔ id.Whole) := by
  obtain ⟨w, hw, hread⟩ := decode_encode h
  refine ⟨w, hw, agree_of_encode h hw, ?_⟩
  rw [hread, Except.ok.injEq, ofContent_contentOf_iff h]

/-- An id in the first millisecond of 2026 and a tick later, which the wire does not keep. -/
theorem encode_round_trip_first_tick :
    ∃ w, Cpp.encode ⟨0x01b21dd213814000 + 17672256000000001, 5, 0x001122334455⟩ = .ok w ∧
      Agree w ∧ Cpp.decode w ≠ .ok ⟨0x01b21dd213814000 + 17672256000000001, 5, 0x001122334455⟩ := by
  obtain ⟨w, hw, hagree, hiff⟩ := @encode_round_trip_iff
    ⟨0x01b21dd213814000 + 17672256000000001, 5, 0x001122334455⟩ (by decide)
  exact ⟨w, hw, hagree, fun hread => absurd (hiff.1 hread).time (by decide)⟩

/-! ### Compaction -/

theorem toNat_nodeSalt_lt (node : UInt64) : (Cpp.nodeSalt node).toNat < 2 ^ 7 := by
  have hlow (x : UInt64) : (x &&& Cpp.saltMask).toUInt8.toNat < 2 ^ 7 := by
    rw [UInt64.toNat_toUInt8, toNat_and_two_pow_sub_one _ _ 7 (by decide)]
    omega
  simp only [Cpp.nodeSalt]
  split_ifs
  · exact hlow _
  · exact hlow _

/-- A compacted id is one that the format can carry. -/
theorem whole_crush (h : id.From2026) (hclock : id.clock.toNat < 2 ^ 14) :
    (Cpp.crush id).Whole := by
  have htime := Cpp.toNat_v2msToGreg (toNat_v2ms_lt h)
  have hcrush : (Cpp.crush id).time = Cpp.v2msToGreg (Cpp.gregToV2ms id.time) := rfl
  obtain ⟨hnode, -⟩ := toNat_reconstructNode (Cpp.gregToV2ms id.time) id.clock
    (toNat_nodeSalt_lt id.node)
  exact ⟨from2026_crush h, by rw [hcrush, htime]; omega, by cases id; exact hclock,
    by cases id; exact hnode⟩

/-- The content of a compacted id is compact: its node is reconstructed from its own time and salt. -/
theorem contentOf_crush (h : id.From2026) : Cpp.contentOf (Cpp.crush id) =
    .compact (Cpp.gregToV2ms id.time).toNat (BitVec.ofNat 14 id.clock.toNat)
      (BitVec.ofNat 7 (Cpp.nodeSalt id.node).toNat) := by
  have hlt := toNat_v2ms_lt h
  have hms : Cpp.gregToV2ms (Cpp.v2msToGreg (Cpp.gregToV2ms id.time)) = Cpp.gregToV2ms id.time := by
    have htime := Cpp.toNat_v2msToGreg hlt
    apply UInt64.toNat_inj.1
    rw [Cpp.toNat_gregToV2ms (by omega), htime]
    omega
  have hsaltLt := toNat_nodeSalt_lt id.node
  obtain ⟨-, hlow⟩ := toNat_reconstructNode (Cpp.gregToV2ms id.time) id.clock hsaltLt
  have hsalt : (Cpp.reconstructNode (Cpp.gregToV2ms id.time) id.clock (Cpp.nodeSalt id.node) &&&
      Cpp.saltMask).toUInt8 = Cpp.nodeSalt id.node := by
    apply UInt8.toNat_inj.1
    rw [UInt64.toNat_toUInt8, toNat_and_two_pow_sub_one _ _ 7 (by decide), hlow]
    omega
  have hbits : BitVec.ofNat 7 (Cpp.reconstructNode (Cpp.gregToV2ms id.time) id.clock
      (Cpp.nodeSalt id.node)).toNat = BitVec.ofNat 7 (Cpp.nodeSalt id.node).toNat := by
    rw [← BitVec.toNat_inj, BitVec.toNat_ofNat, BitVec.toNat_ofNat, hlow, Nat.mod_eq_of_lt hsaltLt]
  obtain ⟨time, clock, node⟩ := id
  dsimp only at hms hsalt hbits
  refine (if_pos ?_).trans ?_
  · dsimp only [Cpp.crush]
    rw [hms, hsalt]
  · dsimp only [Cpp.crush]
    rw [hms, hbits]

/-- **A compacted id is written compactly, and read back.** -/
theorem decode_crush (h : id.From2026) (hclock : id.clock.toNat < 2 ^ 14) :
    ∃ w, Cpp.encode (Cpp.crush id) = .ok w ∧ compactWire w = true ∧
      Cpp.decode w = .ok (Cpp.crush id) := by
  obtain ⟨w, hw, hread⟩ := decode_encode (from2026_crush h)
  rw [ofContent_contentOf (whole_crush h hclock)] at hread
  obtain ⟨hdec, -⟩ := decode_of_encode (from2026_crush h) hw
  obtain ⟨s, hs, -, hwire⟩ := Table.decode_eq_some_iff.1 hdec
  have hodd : (Cpp.contentOf (Cpp.crush id)).number % 2 = 1 := by
    rw [contentOf_crush h, Content.number]
    omega
  refine ⟨w, hw, ?_, hread⟩
  rw [hwire, List.append_nil, compactWire_slot hs, hodd]
  rfl

/-- An id in the first millisecond of 2026 and a tick later. -/
theorem decode_crush_first_tick : ∃ w,
    Cpp.encode (Cpp.crush ⟨0x01b21dd213814000 + 17672256000000001, 5, 0x001122334455⟩) = .ok w ∧
      Cpp.decode w =
        .ok (Cpp.crush ⟨0x01b21dd213814000 + 17672256000000001, 5, 0x001122334455⟩) := by
  obtain ⟨w, hw, -, hread⟩ := @decode_crush
    ⟨0x01b21dd213814000 + 17672256000000001, 5, 0x001122334455⟩ (by decide) (by decide)
  exact ⟨w, hw, hread⟩

end Cuuid.Prototype
