/-
**The first bytes of wires.**

The length folded into the first byte tells how a wire is read, and `tag_space_report` of `analysis.py`
asks which first bytes are left over for a tag.  It lists those at which no row of the table matches,
and that is the zero byte alone.  But the encoder writes a number in the first slot with room for it,
so it also leaves out the first bytes behind which there are only numbers that a smaller slot holds,
and those behind which there is no number of 123 bits.  The reader accepts them all the same.

Main definitions:

* `Cuuid.analysisVl`, `Cuuid.validV1` — the table of the report, and whether a row of it matches a first
  byte;
* `Cuuid.neverWritten` — the first bytes of no wire.

Main results:

* `Cuuid.exists_wire` — every other first byte of a slot is that of an id;
* `Cuuid.first_byte_iff` — **which first bytes are read, and which are written**.
-/

import Cuuid.Form
import Cuuid.Migration
import Cuuid.Canonical

set_option relaxedAutoImplicit false
set_option autoImplicit false

namespace Cuuid

open BigEndian LengthFold

/-! ### The report -/

/-- The table `vl` of `analysis.py`, a copy of the one in the library. -/
def analysisVl : List ((UInt8 × UInt8) × (UInt8 × UInt8)) :=
  [((0x1c, 0xfc), (0x1c, 0xfc)),
    ((0x18, 0xfc), (0x18, 0xfc)),
    ((0x14, 0xfc), (0x14, 0xfc)),
    ((0x10, 0xfc), (0x10, 0xfc)),
    ((0x04, 0xfc), (0x40, 0xc0)),
    ((0x0a, 0xfe), (0xa0, 0xe0)),
    ((0x08, 0xfe), (0x80, 0xe0)),
    ((0x02, 0xff), (0x20, 0xf0)),
    ((0x03, 0xff), (0x30, 0xf0)),
    ((0x0c, 0xff), (0xc0, 0xf0)),
    ((0x0d, 0xff), (0xd0, 0xf0)),
    ((0x0e, 0xff), (0xe0, 0xf0)),
    ((0x0f, 0xff), (0xf0, 0xf0))]

/-- `valid_v1` of `analysis.py`: the byte is that of the full form, or some row matches it. -/
def validV1 (b : UInt8) : Bool :=
  if b = 0x01 then true
  else
    let q := b &&& 0xf0 != 0
    analysisVl.any fun row =>
      let (pref, mask) := if q then row.2 else row.1
      pref == b &&& mask

/-- The copy has the prefixes and masks of the library. -/
theorem analysisVl_eq : analysisVl = (List.range 13).map fun i =>
    (((cellAt i false).pfx, (cellAt i false).mask), ((cellAt i true).pfx, (cellAt i true).mask)) := by
  decide +kernel

/-- The first bytes that no wire begins with. -/
def neverWritten : List UInt8 :=
  [0x00, 0x20, 0x30, 0x40, 0x41, 0x42, 0x43, 0x80, 0x81, 0xa0, 0xa1, 0xc0, 0xd0, 0xe0, 0xf0,
    0xf8, 0xf9, 0xfa, 0xfb, 0xfc, 0xfd, 0xfe, 0xff]

/-! ### First bytes of slots -/

/-- Whether some number of 123 bits is written behind a first byte. -/
def writable (b : UInt8) : Bool :=
  match vlTable.slotOf b with
  | some s => decide (vlTable.leastOf s b.toNat < 2 ^ 123)  &&
      decide (vlTable.leastOf s b.toNat < (b.toNat - s.lead + 1) * 256 ^ s.extra)
  | none => false

/-- The list is that of the bytes behind which there is no number; the full form begins with 1. -/
theorem writable_iff : ∀ n < 256, writable (UInt8.ofNat n) = true ↔
    UInt8.ofNat n ∉ neverWritten ∧ n ≠ 1 := by
  decide +kernel

/-- The least numbers behind the first bytes, as far as they matter: they have the flag of an expanded
layout, the large ones are whole multiples of its time, and none of them is the one that has no time. -/
theorem leastOf_table : ∀ n < 256, ∀ s ∈ vlTable.slots, s.Covers n →
    vlTable.leastOf s n % 2 = 0 ∧ (n - s.lead + 1) * 256 ^ s.extra % 2 = 0 ∧
      (2 ^ 68 ≤ vlTable.leastOf s n → vlTable.leastOf s n % 2 ^ 63 = 0 ∧
        vlTable.leastOf s n / 2 ^ 63 ≠ 2 ^ 60 - initial) := by
  decide +kernel

/-! ### Ids for first bytes -/

/-- An id with the wire of a small odd number. -/
theorem exists_compact {P : ℕ} (heven : P % 2 = 0) (hP : P < 2 ^ 68) :
    ∃ u, u.isRfc 6 = true ∧ (Codec.v6.layout u).payload = P + 1 := by
  have hw : (BitVec.ofNat 60 (P / 2 ^ 22)).toNat = P / 2 ^ 22 := by
    rw [BitVec.toNat_ofNat]
    omega
  refine ⟨Codec.v6.ofLayout (.compact (BitVec.ofNat 60 (P / 2 ^ 22)) (BitVec.ofNat 14 (P / 2 ^ 8))
    (BitVec.ofNat 7 (P / 2 ^ 1))), Codec.isRfc_ofLayout .v6 _, ?_⟩
  rw [Codec.layout, Codec.fields_ofLayout, layoutOf_fields_compact _ (by rw [hw]; omega),
    Layout.payload, hw, BitVec.toNat_ofNat, BitVec.toNat_ofNat]
  omega

/-- An id with a real node, and the wire of a large number. -/
theorem exists_expanded {P : ℕ} (hwhole : P % 2 ^ 63 = 0) (hlo : 2 ^ 68 ≤ P) (hP : P < 2 ^ 123)
    (htime : P / 2 ^ 63 ≠ 2 ^ 60 - initial) :
    ∃ u, u.isRfc 6 = true ∧ (Codec.v6.layout u).payload = P := by
  obtain ⟨T, rfl⟩ : ∃ T, P = T * 2 ^ 63 := ⟨P / 2 ^ 63, by omega⟩
  rw [Nat.mul_div_cancel _ (by decide)] at htime
  have hlt := unbase_lt T
  have hback : rebase (unbase T) = T := by
    unfold initial at htime
    unfold rebase unbase initial
    split_ifs <;> omega
  have htoNat : (UInt64.ofNat (unbase T)).toNat = unbase T := by
    rw [UInt64.toNat_ofNat']
    omega
  have hrange : Fields.InRange ⟨UInt64.ofNat (unbase T), 0, 0⟩ :=
    ⟨lt_of_eq_of_lt htoNat hlt, Nat.two_pow_pos 14, Nat.two_pow_pos 48⟩
  have hread : Codec.v6.fields (V6.fromFields ⟨UInt64.ofNat (unbase T), 0, 0⟩) =
      ⟨UInt64.ofNat (unbase T), 0, 0⟩ := V6.fields_fromFields hrange
  refine ⟨V6.fromFields ⟨UInt64.ofNat (unbase T), 0, 0⟩, V6.isRfc_fromFields _, ?_⟩
  rw [Codec.layout, hread, layoutOf, if_neg (ne_compactedNode UInt64.zero_and _),
    if_pos UInt64.zero_and, htoNat, hback,
    Layout.payload, BitVec.toNat_ofNat, Nat.mod_eq_of_lt (by omega)]
  simp

/-- **A first byte that is not left out is that of an id.** -/
theorem exists_wire {b : UInt8} (h : writable b = true) : ∃ u w, serialise u = .ok (b :: w) := by
  unfold writable at h
  split at h
  · rename_i s hslot
    obtain ⟨hs, hcover⟩ := Table.slotOf_eq_some_iff.1 hslot
    rw [Bool.and_eq_true, decide_eq_true_eq, decide_eq_true_eq] at h
    obtain ⟨hbits, hroom⟩ := h
    obtain ⟨heven, hend, hlarge⟩ := leastOf_table b.toNat b.toNat_lt s hs hcover
    -- an id with a number behind the first byte
    obtain ⟨u, hu, hlo, hhi⟩ : ∃ u, u.isRfc 6 = true ∧
        vlTable.leastOf s b.toNat ≤ (Codec.v6.layout u).payload ∧
        (Codec.v6.layout u).payload < (b.toNat - s.lead + 1) * 256 ^ s.extra := by
      rcases Nat.lt_or_ge (vlTable.leastOf s b.toNat) (2 ^ 68) with hsmall | hge
      · obtain ⟨u, hu, hP⟩ := exists_compact heven hsmall
        exact ⟨u, hu, by omega, by omega⟩
      · obtain ⟨hwhole, htime⟩ := hlarge hge
        obtain ⟨u, hu, hP⟩ := exists_expanded hwhole hge hbits htime
        exact ⟨u, hu, by omega, by omega⟩
    obtain ⟨hfit, hdigit⟩ := (Table.fit_digit_iff hs hcover).2 ⟨hlo, hhi⟩
    refine ⟨u, toBytes s.extra (Codec.v6.layout u).payload, ?_⟩
    rw [@serialise_of_isRfc .v6 u hu, Layout.wire, hfit]
    simp only [Slot.wire_eq_cons, hdigit, UInt8.ofNat_toNat]
  · cases h

/-- The first byte of a condensed wire is not left out. -/
theorem writable_of_wire {L : Layout} {b : UInt8} {w : Bytes} (h : L.wire = b :: w) :
    writable b = true := by
  obtain ⟨s, hfit, hwire, -⟩ := L.serialise_condenser
  obtain ⟨hs, hroom, -⟩ := Table.fit_eq_some_iff.1 hfit
  have hcover := Slot.covers_digit hroom
  have hbyte := vlTable.byteSized s hs
  rw [hwire, Slot.wire_eq_cons] at h
  have hb : b.toNat = s.lead + L.payload / 256 ^ s.extra := by
    rw [← (List.cons.inj h).1, UInt8.toNat_ofNat']
    obtain ⟨-, hlt⟩ := hcover
    exact Nat.mod_eq_of_lt (by omega)
  rw [← hb] at hcover
  obtain ⟨hlo, hhi⟩ := (Table.fit_digit_iff hs hcover).1 ⟨hfit, hb.symm⟩
  have hslot := Table.slotOf_eq_some_iff.2 ⟨hs, hcover⟩
  rw [writable, hslot]
  simp only [Bool.and_eq_true, decide_eq_true_eq]
  exact ⟨lt_of_le_of_lt hlo L.payload_lt, lt_of_le_of_lt hlo hhi⟩

/-! ### Which first bytes are read, and which are written -/

/-- The report lists the first bytes that the reader refuses: the zero byte alone. -/
theorem validV1_iff : ∀ n < 256, (validV1 (UInt8.ofNat n) = true ↔ n ≠ 0) ∧
    (n ≠ 0 → n ≠ 1 → (vlTable.slotOf (UInt8.ofNat n)).isSome = true) := by
  decide +kernel

/-- **Which first bytes are read, and which are written.**  Some row of the table matches every first
byte but zero, and under either codec some byte string with that first byte is read.  The encoder
begins a wire with every first byte but the 23 that are listed. -/
theorem first_byte_iff (b : UInt8) :
    (validV1 b = true ↔ b ≠ 0) ∧
    (∀ codec, (∃ w u, unserialiseView codec (b :: w) = .ok u) ↔ b ≠ 0) ∧
    ((∃ u w, serialise u = .ok (b :: w)) ↔ b ∉ neverWritten) := by
  obtain ⟨hvalid, hslots⟩ := validV1_iff b.toNat b.toNat_lt
  have hwritable := writable_iff b.toNat b.toNat_lt
  rw [UInt8.ofNat_toNat] at hvalid hslots hwritable
  have hzero : b.toNat ≠ 0 ↔ b ≠ 0 := by rw [ne_eq, ne_eq, ← UInt8.toNat_inj]; rfl
  have hone : b.toNat ≠ 1 ↔ b ≠ 1 := by rw [ne_eq, ne_eq, ← UInt8.toNat_inj]; rfl
  rw [hzero] at hvalid hslots
  rw [hone] at hslots hwritable
  refine ⟨hvalid, fun codec => ?_, ?_⟩
  · constructor
    · rintro ⟨w, u, hread⟩ rfl
      cases w with
      | nil =>
          obtain ⟨m, hm⟩ := @unserialise_short codec [0] (by decide)
          rw [unserialiseView, hm] at hread
          cases hread
      | cons c l =>
          have hdec : vlTable.decode (0 :: c :: l) = none := by
            have hslot : vlTable.slotOf 0 = none := by decide +kernel
            rw [Table.decode, hslot]
          rw [unserialiseView, unserialise_condensed codec (by decide), hdec] at hread
          cases hread
    · intro hb
      by_cases hfull : b = 1
      · have hread := (frames_full codec ⟨Vector.replicate 16 0⟩).read_whole
        rw [UUID.serialiseFull] at hread
        exact ⟨_, _, by rw [hfull, unserialiseView, hread]⟩
      · obtain ⟨s, hslot⟩ := Option.isSome_iff_exists.1 (hslots hb hfull)
        obtain ⟨hs, hcover⟩ := Table.slotOf_eq_some_iff.1 hslot
        obtain ⟨hroom, hwire⟩ := Slot.wire_of_covers hcover
          (List.length_replicate (n := s.extra) (a := (0 : UInt8)))
        have hdec := Table.decode_wire hs hroom []
        rw [hwire, List.append_nil] at hdec
        exact ⟨_, _, by rw [unserialiseView, unserialise_of_decode codec hdec]⟩
  · constructor
    · rintro ⟨u, w, hu⟩
      rw [serialise_eq_wireOf, Except.ok.injEq] at hu
      cases hcodec : u.codec? with
      | some codec =>
          rw [wireOf, hcodec] at hu
          exact (hwritable.1 (writable_of_wire hu)).1
      | none =>
          rw [wireOf, hcodec] at hu
          rw [← (List.cons.inj hu).1]
          decide
    · intro hb
      by_cases hfull : b = 1
      · have hnone : ∀ codec : Codec, (UUID.mk (Vector.replicate 16 0)).isRfc codec.version = false := by
          intro codec
          cases codec <;> decide
        exact ⟨_, _, by rw [serialise_of_not_isRfc hnone, hfull]; rfl⟩
      · exact exists_wire (hwritable.2 ⟨hb, hfull⟩)

end Cuuid
