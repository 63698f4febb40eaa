/-
**The order of the wires of the second format.**

The number on a compact wire has the milliseconds first, then the clock, then the salt.  The framing
keeps the order of the numbers as long as the first bytes of two wires come from slots in the order of
their sizes, which fails where the time grows by one bit out of a slot.  So the wires of compacted ids
sort by the prefix of their time first, and by time, clock and salt where the prefixes are the same,
as they are for all times from 2028 to 2060.

Main definitions:

* `Cuuid.Prototype.crushKey`, `Cuuid.Prototype.crushWire` — what the wire of a compacted id carries,
  and the wire.

Main results:

* `Cuuid.Prototype.crush_encode_lt_iff` — **the order of compact wires**, and their lengths;
* `Cuuid.Prototype.crush_count` — **how many compacted ids a millisecond has**, over all nodes.
-/

import Mathlib.SetTheory.Cardinal.Finite
import Mathlib.Data.Set.Card
import Cuuid.Order
import Cuuid.Prototype.RoundTrip

set_option relaxedAutoImplicit false
set_option autoImplicit false

namespace Cuuid.Prototype

open LengthFold

/-! ### What a compact wire carries -/

/-- The time, clock and salt of an id that is compacted. -/
def crushKey (id : Cpp.Id) : ℕ × ℕ × ℕ :=
  ((Cpp.gregToV2ms id.time).toNat, id.clock.toNat % 2 ^ 14, (Cpp.nodeSalt id.node).toNat)

/-- Keys compare by their components, from the first one on. -/
def KeyBefore (k k' : ℕ × ℕ × ℕ) : Prop :=
  k.1 < k'.1 ∨ k.1 = k'.1 ∧ (k.2.1 < k'.2.1 ∨ k.2.1 = k'.2.1 ∧ k.2.2 < k'.2.2)

instance (k k' : ℕ × ℕ × ℕ) : Decidable (KeyBefore k k') := inferInstanceAs (Decidable (_ ∨ _))

/-- The number of a key. -/
def crushNumber (id : Cpp.Id) : ℕ :=
  (crushKey id).1 * 2 ^ 22 + ((crushKey id).2.1 * 2 ^ 8 + (crushKey id).2.2 * 2 ^ 1 + 1)

/-- The slot of the wire of a compacted id. -/
def crushSlot (id : Cpp.Id) : Slot := (vlTable.fit (crushNumber id)).getD ⟨0, 0, 0⟩

def crushWire (id : Cpp.Id) : Bytes := (crushSlot id).wire (crushNumber id)

variable {id id' : Cpp.Id}

/-- The salt and the clock of a key have their widths. -/
theorem crushKey_lt (id : Cpp.Id) : (crushKey id).2.2 < 2 ^ 7 ∧ (crushKey id).2.1 < 2 ^ 14 :=
  ⟨toNat_nodeSalt_lt id.node, Nat.mod_lt _ (Nat.two_pow_pos 14)⟩

/-- The milliseconds of an id from 2026 on have 47 bits. -/
theorem v2ms_lt_two_pow (h : id.From2026) : (Cpp.gregToV2ms id.time).toNat < 2 ^ 47 := by
  rw [Cpp.toNat_gregToV2ms h.1]
  have hend := h.2
  omega

/-- The number of a compacted id. -/
theorem number_contentOf_crush (h : id.From2026) :
    (Cpp.contentOf (Cpp.crush id)).number = crushNumber id := by
  have hsalt := toNat_nodeSalt_lt id.node
  rw [contentOf_crush h, Content.number, BitVec.toNat_ofNat, BitVec.toNat_ofNat,
    Nat.mod_eq_of_lt hsalt]
  simp only [crushNumber, crushKey]
  omega

/-- **The wire of a compacted id** is in the slot of its time. -/
theorem encode_crush (h : id.From2026) : vlTable.fit (crushNumber id) = some (crushSlot id) ∧
    (crushSlot id).lead = leadOf (crushKey id).1 ∧
    (crushSlot id).extra = extraOf (crushKey id).1 ∧
    Cpp.encode (Cpp.crush id) = .ok (crushWire id) := by
  obtain ⟨hsalt, hclock⟩ := crushKey_lt id
  have hms : (Cpp.gregToV2ms (Cpp.crush id).time).toNat < 2 ^ 60 := by
    have hlt := v2ms_lt_two_pow (from2026_crush h)
    omega
  obtain ⟨s, hfit, hwire⟩ := Cpp.encode_eq hms
  rw [number_contentOf_crush h] at hfit hwire
  have hslot : crushSlot id = s := by rw [crushSlot, hfit, Option.getD_some]
  obtain ⟨t, hfit', hlead, hextra⟩ := fit_compact (v2ms_lt_two_pow h)
    (show (crushKey id).2.1 * 2 ^ 8 + (crushKey id).2.2 * 2 ^ 1 + 1 < 2 ^ 22 by omega)
  obtain rfl : s = t := Option.some.inj (hfit.symm.trans hfit')
  rw [crushWire, hslot]
  exact ⟨hfit, hlead, hextra, hwire⟩

/-! ### The order -/

/-- Numbers of keys compare as the keys do. -/
theorem crushNumber_lt_iff (id id' : Cpp.Id) :
    crushNumber id < crushNumber id' ↔ KeyBefore (crushKey id) (crushKey id') := by
  have hkey := crushKey_lt id
  have hkey' := crushKey_lt id'
  rw [crushNumber, crushNumber, KeyBefore]
  omega

/-- A number tells its key. -/
theorem crushNumber_eq_iff (id id' : Cpp.Id) :
    crushNumber id = crushNumber id' ↔ crushKey id = crushKey id' := by
  have hkey := crushKey_lt id
  have hkey' := crushKey_lt id'
  rw [crushNumber, crushNumber, Prod.ext_iff, Prod.ext_iff]
  omega

/-- **The order of compact wires.**  From 2026 on, the wires of two compacted ids have the length of
their times, at most nine bytes, and compare by the prefixes of their times first, and inside one
prefix by time, clock and salt. -/
theorem crush_encode_lt_iff (h : id.From2026) (h' : id'.From2026) :
    ∃ w w', Cpp.encode (Cpp.crush id) = .ok w ∧ Cpp.encode (Cpp.crush id') = .ok w' ∧
      w.length = extraOf (crushKey id).1 + 1 ∧
      (w < w' ↔ leadOf (crushKey id).1 < leadOf (crushKey id').1 ∨
        leadOf (crushKey id).1 = leadOf (crushKey id').1 ∧ KeyBefore (crushKey id) (crushKey id')) ∧
      (w = w' ↔ crushKey id = crushKey id') := by
  obtain ⟨hfit, hlead, hextra, hw⟩ := encode_crush h
  obtain ⟨hfit', hlead', -, hw'⟩ := encode_crush h'
  obtain ⟨hs, hroom, -⟩ := Table.fit_eq_some_iff.1 hfit
  obtain ⟨hs', hroom', -⟩ := Table.fit_eq_some_iff.1 hfit'
  refine ⟨_, _, hw, hw', by rw [crushWire, Slot.length_wire, hextra], ?_, ?_⟩
  · rw [crushWire, crushWire, Table.wire_lt_wire_iff_lead hs hs' hroom hroom', hlead, hlead',
      crushNumber_lt_iff]
  · rw [← crushNumber_eq_iff]
    constructor
    · intro heq
      have hdec := Table.decode_wire hs hroom []
      rw [← crushWire, heq, crushWire, Table.decode_wire hs' hroom' [], Option.some.injEq,
        Prod.mk.injEq] at hdec
      exact hdec.1.symm
    · intro heq
      rw [crushWire, crushWire, crushSlot, crushSlot, heq]

/-- Two ids of 2030, a millisecond apart, whose clocks are in the other order. -/
theorem crush_encode_lt_2030 : ∃ w w', Cpp.encode (Cpp.crush
      ⟨0x01b21dd213814000 + 18900000000000000, 9, 0x001122334455⟩) = .ok w ∧
    Cpp.encode (Cpp.crush ⟨0x01b21dd213814000 + 18900000000010000, 5, 0x665544332211⟩) = .ok w' ∧
    w.length = 8 ∧ w < w' := by
  obtain ⟨w, w', hw, hw', hlen, hlt, -⟩ := @crush_encode_lt_iff
    ⟨0x01b21dd213814000 + 18900000000000000, 9, 0x001122334455⟩
    ⟨0x01b21dd213814000 + 18900000000010000, 5, 0x665544332211⟩ (by decide) (by decide)
  have hextra : extraOf (crushKey
      ⟨0x01b21dd213814000 + 18900000000000000, 9, 0x001122334455⟩).1 = 7 := by decide
  exact ⟨w, w', hw, hw', by rw [hlen, hextra], hlt.2 (Or.inr (by decide))⟩

/-! ### The ids of one millisecond -/

/-- An id is compacted to what its key tells. -/
theorem crush_eq_iff_key (h : id.From2026) (h' : id'.From2026) (hclock : id.clock.toNat < 2 ^ 14)
    (hclock' : id'.clock.toNat < 2 ^ 14) :
    Cpp.crush id = Cpp.crush id' ↔ crushKey id = crushKey id' := by
  constructor
  · intro heq
    rw [← crushNumber_eq_iff, ← number_contentOf_crush h, ← number_contentOf_crush h', heq]
  · intro hkey
    simp only [crushKey, Prod.mk.injEq, Nat.mod_eq_of_lt hclock, Nat.mod_eq_of_lt hclock'] at hkey
    obtain ⟨hms, hc, hsalt⟩ := hkey
    cases id
    cases id'
    obtain rfl := UInt16.toNat_inj.1 hc
    simp only [Cpp.crush, UInt64.toNat_inj.1 hms, UInt8.toNat_inj.1 hsalt]

/-- The id of a clock and a salt, at a time. -/
def ofKey (time : UInt64) (p : Fin (2 ^ 14) × Fin (2 ^ 7)) : Cpp.Id :=
  ⟨time, UInt16.ofNat p.1, Cpp.multicast ||| UInt64.ofNat p.2⟩

theorem crushKey_ofKey (time : UInt64) (p : Fin (2 ^ 14) × Fin (2 ^ 7)) :
    (ofKey time p).clock.toNat < 2 ^ 14 ∧
      crushKey (ofKey time p) = ((Cpp.gregToV2ms time).toNat, p.1.val, p.2.val) := by
  obtain ⟨⟨c, hc⟩, s, hs⟩ := p
  have hclock : (UInt16.ofNat c).toNat = c := by
    rw [UInt16.toNat_ofNat']
    omega
  have hmulticast : ∀ s < 2 ^ 7, Cpp.nodeSalt (Cpp.multicast ||| UInt64.ofNat s) = UInt8.ofNat s := by
    decide +kernel
  have hsalt : (UInt8.ofNat s).toNat = s := by
    rw [UInt8.toNat_ofNat']
    omega
  refine ⟨lt_of_eq_of_lt hclock hc, ?_⟩
  simp only [crushKey, ofKey, hclock, hmulticast s hs, hsalt, Nat.mod_eq_of_lt hc]

/-- **How many compacted ids a millisecond has**: over all nodes and clocks, `2 ^ 21`. -/
theorem crush_count (h : id.From2026) :
    {c | ∃ id' : Cpp.Id, id'.From2026 ∧ id'.clock.toNat < 2 ^ 14 ∧
      Cpp.gregToV2ms id'.time = Cpp.gregToV2ms id.time ∧ Cpp.crush id' = c}.ncard = 2 ^ 21 := by
  have hfrom : ∀ p, (ofKey id.time p).From2026 := fun p => h
  have hinj : Function.Injective fun p => Cpp.crush (ofKey id.time p) := by
    intro p q heq
    obtain ⟨hp, hkey⟩ := crushKey_ofKey id.time p
    obtain ⟨hq, hkey'⟩ := crushKey_ofKey id.time q
    rw [crush_eq_iff_key (hfrom p) (hfrom q) hp hq, hkey, hkey', Prod.mk.injEq, Prod.mk.injEq] at heq
    exact Prod.ext (Fin.ext heq.2.1) (Fin.ext heq.2.2)
  have hrange : {c | ∃ id' : Cpp.Id, id'.From2026 ∧ id'.clock.toNat < 2 ^ 14 ∧
      Cpp.gregToV2ms id'.time = Cpp.gregToV2ms id.time ∧ Cpp.crush id' = c} =
      Set.range fun p => Cpp.crush (ofKey id.time p) := by
    ext c
    constructor
    · rintro ⟨id', h', hclock', hms, rfl⟩
      refine ⟨(⟨id'.clock.toNat, hclock'⟩, ⟨_, toNat_nodeSalt_lt id'.node⟩), ?_⟩
      obtain ⟨hp, hkey⟩ := crushKey_ofKey id.time
        (⟨id'.clock.toNat, hclock'⟩, ⟨_, toNat_nodeSalt_lt id'.node⟩)
      rw [crush_eq_iff_key (hfrom _) h' hp hclock', hkey, crushKey, hms, Nat.mod_eq_of_lt hclock']
    · rintro ⟨p, rfl⟩
      exact ⟨ofKey id.time p, hfrom p, (crushKey_ofKey id.time p).1, rfl, rfl⟩
  rw [hrange, ← Nat.card_coe_set_eq, Nat.card_range_of_injective hinj, Nat.card_prod, Nat.card_fin,
    Nat.card_fin]
  norm_num

/-- The first millisecond of 2026. -/
theorem crush_count_first : {c | ∃ id' : Cpp.Id, id'.From2026 ∧ id'.clock.toNat < 2 ^ 14 ∧
    Cpp.gregToV2ms id'.time = Cpp.gregToV2ms (0x01b21dd213814000 + 17672256000000000) ∧
      Cpp.crush id' = c}.ncard = 2 ^ 21 :=
  @crush_count ⟨0x01b21dd213814000 + 17672256000000000, 0, 0⟩ (by decide)

end Cuuid.Prototype
