/-
**The three encoders agree.**

From 2026 on, and as long as the time has the sixty bits of a UUID, no step of the C++ encoder wraps
around unless the ports cut to 64 bits there as well.  So the three prototypes make the same number of
an id, compacted first or not, and frame it in the same bytes.

Main definitions:

* `Cuuid.Prototype.Cpp.Id.From2026` — the times that the prototypes are for.

Main results:

* `Cuuid.Prototype.valueOf_eq` — the ports write the number of the content that C++ writes;
* `Cuuid.Prototype.crush_eq` — **compaction** gives the same id;
* `Cuuid.Prototype.encode_agree`, `Cuuid.Prototype.encoders_agree` — **encoding** gives the same wire.
-/

import Cuuid.Prototype.Decoders

set_option relaxedAutoImplicit false
set_option autoImplicit false

namespace Cuuid.Prototype

open LengthFold Unbounded

/-- From 2026 on: the time of an id is at least the start of 2026, and below `2 ^ 60` as in a UUID. -/
def Cpp.Id.From2026 (id : Cpp.Id) : Prop :=
  0x01b21dd213814000 + 1767225600000 * 10000 ≤ id.time.toNat ∧ id.time.toNat < 2 ^ 60

instance (id : Cpp.Id) : Decidable id.From2026 := inferInstanceAs (Decidable (_ ∧ _))

variable {id : Cpp.Id}

/-- Its milliseconds are those of the time, and few. -/
theorem toNat_v2ms_lt (h : id.From2026) :
    (Cpp.gregToV2ms id.time).toNat < 1830687888970956 := by
  obtain ⟨hstart, hend⟩ := h
  rw [Cpp.toNat_gregToV2ms hstart]
  omega

/-- It is no earlier than the Gregorian epoch, from which on the divisions of the ports agree. -/
theorem gregEpoch_le (h : id.From2026) : Python.gregEpoch100ns ≤ id.time.toNat := by
  have hstart := h.1
  rw [Python.gregEpoch100ns]
  omega

/-- The ports write the number of the content that C++ writes. -/
theorem valueOf_eq (h : id.From2026) :
    Python.valueOf id.time.toNat id.clock.toNat id.node.toNat = ((Cpp.contentOf id).number : ℤ) := by
  have hms := gregToV2ms_isWord h.1
  have hsalt := land_saltMask (isWord_toNat id.node)
  have hnode := reconstructNode_isWord hms.hasLow id.clock (id.node &&& Cpp.saltMask).toUInt8
  have hlow : (id.node &&& Cpp.saltMask).toUInt8.toNat = id.node.toNat % 2 ^ 7 := by
    rw [UInt64.toNat_toUInt8, BitField.toNat_and_two_pow_sub_one _ _ 7 (by decide)]
    omega
  have hclock : Int.land (id.clock.toNat : ℤ) Python.clockMask =
      ((id.clock.toNat % 2 ^ 14 : ℕ) : ℤ) := land_mask_natCast _ 14 rfl
  have hlast : Int.land (id.node.toNat : ℤ) Python.nodeMask =
      ((id.node.toNat % 2 ^ 48 : ℕ) : ℤ) := land_mask_natCast _ 48 rfl
  simp only [Python.valueOf, hsalt, (isWord_toNat id.node).eq_iff hnode, Cpp.contentOf]
  rw [hms, hclock, hlast, hlow]
  split_ifs
  · rw [← Content.or_eq_number_compact, BitVec.toNat_ofNat, BitVec.toNat_ofNat]
    simp only [shiftLeft_natCast, lor_natCast]
    rfl
  · rw [← Content.or_eq_number_expanded, BitVec.toNat_ofNat, BitVec.toNat_ofNat]
    simp only [shiftLeft_natCast, lor_natCast]

/-- An id from 2026 on is encoded alike, whether its wire is compact or expanded. -/
theorem encode_agree (h : id.From2026) : ∃ w, Cpp.encode id = .ok w ∧
    Python.encode id.time.toNat id.clock.toNat id.node.toNat = .ok w ∧
    JavaScript.encode id.time.toNat id.clock.toNat id.node.toNat = .ok w := by
  have hepoch := gregEpoch_le h
  have hms : (Cpp.gregToV2ms id.time).toNat < 2 ^ 60 := by
    have hlt := toNat_v2ms_lt h
    omega
  have hlt := Cpp.number_contentOf_lt hms
  obtain ⟨s, hfit, hcpp⟩ := Cpp.encode_eq hms
  obtain ⟨s', hfit', hpython⟩ := Python.putVl_eq hlt
  obtain ⟨s'', hfit'', hjs⟩ := JavaScript.putVl_eq hlt
  rw [hfit, Option.some.injEq] at hfit' hfit''
  refine ⟨_, hcpp, ?_, ?_⟩
  · rw [Python.encode, valueOf_eq h, hpython, hfit']
  · rw [JavaScript.encode, JavaScript.valueOf_eq hepoch, valueOf_eq h, hjs, hfit'']

/-- **Compaction** gives the same id. -/
theorem crush_eq (h : id.From2026) :
    Python.crush id.time.toNat id.clock.toNat id.node.toNat = some (Cpp.crush id).fields := by
  have hlt := toNat_v2ms_lt h
  have hms := gregToV2ms_isWord h.1
  have hsmall : Python.v2msToGreg (Python.gregToV2ms id.time.toNat) < 2 ^ 64 := by
    rw [hms, Python.v2msToGreg, Python.epoch2026Ms, Python.gregEpoch100ns]
    omega
  have htime := (v2msToGreg_hasLow hms.hasLow).isWord_iff.2 hsmall
  have hnode := reconstructNode_isWord hms.hasLow id.clock (Cpp.nodeSalt id.node)
  simp only [Python.crush, nodeSalt_eq, bind, Option.bind]
  rw [htime, hnode]
  cases id
  rfl

/-- Compaction moves the time back to a whole millisecond, which is from 2026 on as well. -/
theorem from2026_crush (h : id.From2026) : (Cpp.crush id).From2026 := by
  have htime := Cpp.toNat_v2msToGreg (toNat_v2ms_lt h)
  have hcrush : (Cpp.crush id).time = Cpp.v2msToGreg (Cpp.gregToV2ms id.time) := rfl
  obtain ⟨hstart, hend⟩ := h
  rw [Cpp.toNat_gregToV2ms hstart, ← hcrush] at htime
  exact ⟨by omega, by omega⟩

/-- **The three encoders agree.**  From 2026 on, and up to a time of sixty bits, whatever the clock and
the node are, an id is encoded in the same bytes by all three, and so is the id that it is compacted
to. -/
theorem encoders_agree (h : id.From2026) :
    (∃ w, Cpp.encode id = .ok w ∧
      Python.encode id.time.toNat id.clock.toNat id.node.toNat = .ok w ∧
      JavaScript.encode id.time.toNat id.clock.toNat id.node.toNat = .ok w) ∧
    ∃ w time clock node, Cpp.encode (Cpp.crush id) = .ok w ∧
      Python.crush id.time.toNat id.clock.toNat id.node.toNat = some (time, clock, node) ∧
      Python.encode time clock node = .ok w ∧
      JavaScript.crush id.time.toNat id.clock.toNat id.node.toNat = some (time, clock, node) ∧
      JavaScript.encode time clock node = .ok w := by
  obtain ⟨w, hcpp, hpython, hjs⟩ := encode_agree (from2026_crush h)
  have hcrush := crush_eq h
  have hepoch := gregEpoch_le h
  exact ⟨encode_agree h, w, _, _, _, hcpp, hcrush, hpython,
    (JavaScript.crush_eq hepoch _ _).trans hcrush, hjs⟩

/-- An id with a real node, one tick after the start of 2026.  Its wire is expanded, and that of the id
it is compacted to is compact. -/
theorem encoders_agree_first_tick :
    Cpp.encode ⟨139865184000000001, 5, 0x001122334455⟩ =
      .ok [0x04, 0x0a, 0x00, 0x22, 0x44, 0x66, 0x88, 0xaa] ∧
    Python.encode 139865184000000001 5 0x001122334455 =
      .ok [0x04, 0x0a, 0x00, 0x22, 0x44, 0x66, 0x88, 0xaa] ∧
    JavaScript.encode 139865184000000001 5 0x001122334455 =
      .ok [0x04, 0x0a, 0x00, 0x22, 0x44, 0x66, 0x88, 0xaa] ∧
    ∃ time clock node,
      Cpp.encode (Cpp.crush ⟨139865184000000001, 5, 0x001122334455⟩) = .ok [0x1c, 0x00, 0x05, 0xf7] ∧
      Python.crush 139865184000000001 5 0x001122334455 = some (time, clock, node) ∧
      Python.encode time clock node = .ok [0x1c, 0x00, 0x05, 0xf7] ∧
      JavaScript.crush 139865184000000001 5 0x001122334455 = some (time, clock, node) ∧
      JavaScript.encode time clock node = .ok [0x1c, 0x00, 0x05, 0xf7] := by
  have hwire : Cpp.encode ⟨139865184000000001, 5, 0x001122334455⟩ =
      .ok [0x04, 0x0a, 0x00, 0x22, 0x44, 0x66, 0x88, 0xaa] := rfl
  have hcrushed : Cpp.encode (Cpp.crush ⟨139865184000000001, 5, 0x001122334455⟩) =
      .ok [0x1c, 0x00, 0x05, 0xf7] := rfl
  have h : Cpp.Id.From2026 ⟨139865184000000001, 5, 0x001122334455⟩ := by decide
  obtain ⟨⟨w, hcpp, hpython, hjs⟩, w', time, clock, node, hcpp', hcrush, hpython', hcrush', hjs'⟩ :=
    encoders_agree h
  rw [hwire, Except.ok.injEq] at hcpp
  rw [hcrushed, Except.ok.injEq] at hcpp'
  subst hcpp hcpp'
  exact ⟨hwire, hpython, hjs, time, clock, node, hcrushed, hcrush, hpython', hcrush', hjs'⟩

end Cuuid.Prototype
