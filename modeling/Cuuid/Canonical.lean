/-
**Wires that no encoder writes.**

The decoders do not ask whether a wire is the one that an encoder would write: a payload may stand in
a slot that is larger than necessary, and a compact payload may have a time of 60 bits, where a
compaction only fills in the 46 bits of a window.  Such a time loses its upper bits when it is put
back, but the node is still reconstructed from all of them.  This module shows that the wire which is
written is the shortest of those that are read as the same words, and says which compact wires are
decoded to a compacted id.

Main definitions:

* `Cuuid.UUIDCondenser.reduced` — the condenser with the bits of the time that are kept.

Main results:

* `Cuuid.Codec.crush_ofLayout_iff` — which compact layouts are fixed by compaction;
* `Cuuid.UUIDCondenser.serialise_shortest` — **the wire that is written is the shortest one**, and
  grows with the payload;
* `Cuuid.compact_wire_iff` — **when a compact wire is decoded to a compacted id**, which then has a
  compact wire no longer than the one it was decoded from.
-/

import Cuuid.Condenser
import Cuuid.Packed
import Cuuid.Compaction

set_option relaxedAutoImplicit false
set_option autoImplicit false

namespace Cuuid

open LengthFold

/-! ### The time of a compact condenser -/

namespace UUIDCondenser

/-- The condenser with its compact time reduced to the 46 bits of a window. -/
def reduced (c : UUIDCondenser) : UUIDCondenser :=
  c.setCompactTime (c.compactTime &&& 0x3fffffffffff)

theorem layout_reduced {c : UUIDCondenser} {t : BitVec 60} {k : BitVec 14} {s : BitVec 7}
    (h : c.layout = .compact t k s) :
    c.reduced.layout = .compact (BitVec.ofNat 60 (t.toNat % 2 ^ 46)) k s := by
  obtain ⟨ht, hk, hs⟩ := getters_of_compact h
  have hflag := isCompact_layout c
  rw [h] at hflag
  have hmask : (c.compactTime &&& 0x3fffffffffff).toNat = t.toNat % 2 ^ 46 := by
    rw [BitField.toNat_and_two_pow_sub_one _ _ 46 (by decide), ht]
  have htime : c.reduced.compactTime.toNat = t.toNat % 2 ^ 46 := by
    rw [toNat_compactTime, reduced, setCompactTime, BitField.toNat_set _ _ (by decide) (by decide),
      hmask]
    simp only [timeBits]
    omega
  -- the flag, the clock and the salt are in the other word
  have hset : c.reduced.compactCompacted ≠ 0 := bne_iff_ne.1 hflag.symm
  have hclock : c.reduced.compactClock = c.compactClock := rfl
  have hsalt : c.reduced.compactSalt = c.compactSalt := rfl
  rw [layout, if_pos hset, htime, hclock, hsalt, hk, hs, BitVec.ofNat_toNat, BitVec.ofNat_toNat,
    BitVec.setWidth_eq, BitVec.setWidth_eq]

end UUIDCondenser

/-! ### Compaction of what was decoded -/

namespace Codec

/-- A layout is determined by its fields. -/
theorem ofLayout_eq_iff (codec : Codec) (L M : Layout) :
    codec.ofLayout L = codec.ofLayout M ↔ L.fields codec.expand = M.fields codec.expand := by
  constructor
  · intro h
    rw [← fields_ofLayout, h, fields_ofLayout]
  · intro h
    refine codec.ext_fields (isRfc_ofLayout codec L) (isRfc_ofLayout codec M) ?_
    rw [fields_ofLayout, fields_ofLayout, h]

/-- **Which compact layouts are fixed by compaction**: those with the time of a window, and those
for which neither the time nor the node shows the bits above it. -/
theorem crush_ofLayout_iff (codec : Codec) (localNodeHash : Option UInt64) (t : BitVec 60)
    (k : BitVec 14) (s : BitVec 7) :
    codec.crush localNodeHash (codec.ofLayout (.compact t k s)) =
        codec.ofLayout (.compact t k s) ↔
      t.toNat < 2 ^ 46 ∨ t.toNat % 2 ^ 46 ≠ 0 ∧
        nodeOf codec.expand (BitVec.ofNat 60 (t.toNat % 2 ^ 46)) k s =
          nodeOf codec.expand t k s := by
  have ht := t.isLt
  have htime : UInt64.ofNat (windowTime (t.toNat % 2 ^ 46)) = UInt64.ofNat (windowTime t.toNat) ↔
      t.toNat < 2 ^ 46 ∨ t.toNat % 2 ^ 46 ≠ 0 := by
    rw [← windowTime_mod_iff, ← UInt64.toNat_inj, toNat_windowTime, toNat_windowTime]
  have hnode : t.toNat < 2 ^ 46 → BitVec.ofNat 60 (t.toNat % 2 ^ 46) = t := by
    intro hlt
    rw [Nat.mod_eq_of_lt hlt, BitVec.ofNat_toNat, BitVec.setWidth_eq]
  rw [crush_ofLayout, ofLayout_eq_iff]
  simp only [Layout.fields, toNat_ofNat_mod, Fields.mk.injEq, htime, true_and]
  constructor
  · rintro ⟨hlt | hne, hcollide⟩
    · exact Or.inl hlt
    · exact Or.inr ⟨hne, hcollide⟩
  · rintro (hlt | ⟨hne, hcollide⟩)
    · exact ⟨Or.inl hlt, by rw [hnode hlt]⟩
    · exact ⟨Or.inr hne, hcollide⟩

end Codec

/-! ### Wires -/

/-- What the condenser accepts is what the table decodes. -/
theorem decode_of_unserialise {w r : Bytes} {c : UUIDCondenser}
    (h : UUIDCondenser.unserialise w = .ok c r) :
    ∃ P, vlTable.decode w = some (P, r) ∧ c = UUIDCondenser.ofPayload P := by
  cases w with
  | nil =>
      have hnil : UUIDCondenser.unserialise [] = .error .outOfRange [] := rfl
      rw [hnil] at h
      injection h
  | cons b l =>
      rw [UUIDCondenser.unserialise_eq] at h
      cases hdec : vlTable.decode (b :: l) with
      | none =>
          rw [hdec] at h
          injection h
      | some p =>
          rw [hdec] at h
          injection h with hc hr
          exact ⟨p.1, by rw [← hr], hc.symm⟩

/-- Either codec assembles its UUID from the fields of the condenser. -/
theorem unserialise_of_decode (codec : Codec) {w r : Bytes} {P : ℕ}
    (h : vlTable.decode w = some (P, r)) :
    unserialise codec w = .ok (codec.ofLayout (Layout.ofPayload P)) r := by
  obtain ⟨b, l, rfl, -, hone, hlen⟩ := UUIDCondenser.head_of_decode h
  cases l with
  | nil => simp at hlen
  | cons b' l => rw [unserialise_condensed codec hone, h]

namespace Layout

/-- Reading a number as a layout drops its upper bits. -/
theorem payload_ofPayload_le (P : ℕ) : (ofPayload P).payload ≤ P := by
  unfold ofPayload
  split_ifs
  · simp only [payload, BitVec.toNat_ofNat]
    omega
  · simp only [payload, BitVec.toNat_ofNat]
    omega

/-- A smaller payload has no longer a wire. -/
theorem length_wire_le_of_decode {M : Layout} {w r : Bytes} {P : ℕ}
    (h : vlTable.decode w = some (P, r)) (hP : M.payload ≤ P) : M.wire.length ≤ w.length := by
  obtain ⟨s, hs, hroom, rfl⟩ := Table.decode_eq_some_iff.1 h
  have hle := length_wire_le_of_lt_cap hs (lt_of_le_of_lt hP hroom)
  rw [List.length_append, Slot.length_wire]
  omega

theorem length_wire_mono {L M : Layout} (h : L.payload ≤ M.payload) :
    L.wire.length ≤ M.wire.length := by
  have hdec := M.decode_wire []
  rw [List.append_nil] at hdec
  exact length_wire_le_of_decode hdec h

end Layout

namespace UUIDCondenser

/-- **The wire that is written is the shortest one.**  It is unpacked into the words that it was
packed from.  No wire that is unpacked into the same words, or into words that are laid out as the
same condenser, is shorter, and the length grows with the words. -/
theorem serialise_shortest {c : UUIDCondenser} (hc : c.ZeroPadding) :
    ∃ w b₀ b₁, c.serialise = .ok w ∧ c.buffers = .ok (b₀, b₁) ∧
      unserialise w = .ok (ofBuffers b₀ b₁) [] ∧
      (∀ w', unserialise w' = .ok (ofBuffers b₀ b₁) [] → w.length ≤ w'.length) ∧
      ∀ d : UUIDCondenser, d.ZeroPadding → ∃ x d₀ d₁, d.serialise = .ok x ∧
        d.buffers = .ok (d₀, d₁) ∧
        (b₀.toNat * 2 ^ 64 + b₁.toNat ≤ d₀.toNat * 2 ^ 64 + d₁.toNat → w.length ≤ x.length) := by
  obtain ⟨b₀, b₁, hbuffers, hpayload⟩ := buffers_of_zeroPadding hc
  refine ⟨_, b₀, b₁, serialise_of_zeroPadding hc, hbuffers, ?_, fun w' hw' => ?_, fun d hd => ?_⟩
  · have hread := unserialise_wire_eq c.layout []
    rwa [List.append_nil, ← hpayload, ofPayload_words] at hread
  · -- the payload of any other wire has the layout of the words, so it is no smaller
    obtain ⟨P, hdec, hsame⟩ := decode_of_unserialise hw'
    have hlayout := congrArg layout hsame
    rw [Layout.layout_ofBuffers, hpayload, Layout.ofPayload_payload,
      layout_ofPayload (payload_lt_of_decode hdec)] at hlayout
    refine Layout.length_wire_le_of_decode hdec ?_
    rw [hlayout]
    exact Layout.payload_ofPayload_le P
  · obtain ⟨d₀, d₁, hbuffers', hpayload'⟩ := buffers_of_zeroPadding hd
    refine ⟨_, d₀, d₁, serialise_of_zeroPadding hd, hbuffers', fun hle => ?_⟩
    rw [hpayload, hpayload'] at hle
    exact Layout.length_wire_mono hle

/-- The window 5 is read from its wire of four bytes, and from one of nine bytes. -/
theorem serialise_shortest_overlong : ∃ w, UUIDCondenser.serialise ⟨5, 1⟩ = .ok w ∧
    unserialise w = .ok (ofBuffers 0 0x1400001) [] ∧
    unserialise [0xa0, 0, 0, 0, 0, 1, 0x40, 0, 1] = .ok (ofBuffers 0 0x1400001) [] ∧
    w.length ≤ [0xa0, 0, 0, 0, 0, 1, 0x40, 0, 1].length := by
  have hbuffers : UUIDCondenser.buffers ⟨5, 1⟩ = .ok (0, 0x1400001) := rfl
  have hlong : unserialise [0xa0, 0, 0, 0, 0, 1, 0x40, 0, 1] = .ok (ofBuffers 0 0x1400001) [] := rfl
  obtain ⟨w, b₀, b₁, hw, hb, hread, hshort, -⟩ := serialise_shortest (c := ⟨5, 1⟩) (by decide)
  rw [hbuffers] at hb
  obtain ⟨rfl, rfl⟩ := Prod.mk.inj (Except.ok.inj hb)
  exact ⟨w, hw, hread, hlong, hshort _ hlong⟩

end UUIDCondenser

/-- **When a compact wire is decoded to a compacted id.**  The id is fixed by the compaction of its
codec, and has a compact wire that is no longer and is decoded to it again, exactly when the time on
the wire is below `2 ^ 46`, as in all wires that are written, or when neither the time nor the node
shows the bits above that. -/
theorem compact_wire_iff (codec : Codec) (localNodeHash : Option UInt64) {w : Bytes}
    {c : UUIDCondenser} (hc : UUIDCondenser.unserialise w = .ok c [])
    (hflag : c.compactCompacted ≠ 0) :
    (∃ u, unserialise codec w = .ok u [] ∧ codec.crush localNodeHash u = u ∧
      ∃ w', serialise u = .ok w' ∧ compactWire w' = true ∧ w'.length ≤ w.length ∧
        unserialise codec w' = .ok u []) ↔
      c.compactTime.toNat < 2 ^ 46 ∨ c.compactTime.toNat % 2 ^ 46 ≠ 0 ∧
        calculateNode c.reduced codec.expand = calculateNode c codec.expand := by
  obtain ⟨P, hdec, rfl⟩ := decode_of_unserialise hc
  have hlayout := UUIDCondenser.layout_ofPayload (UUIDCondenser.payload_lt_of_decode hdec)
  have hcompact := isCompact_layout (UUIDCondenser.ofPayload P)
  have hread := unserialise_of_decode codec hdec
  have hpayload := Layout.payload_ofPayload_le P
  cases hL : Layout.ofPayload P with
  | expanded t k n =>
      simp [hlayout, hL, Layout.isCompact, hflag] at hcompact
  | compact t k s =>
      rw [hL] at hlayout hread hpayload
      obtain ⟨ht, -, -⟩ := getters_of_compact hlayout
      rw [ht, calculateNode_eq (UUIDCondenser.layout_reduced hlayout), calculateNode_eq hlayout,
        ← Codec.crush_ofLayout_iff codec localNodeHash]
      constructor
      · rintro ⟨u, hu, hfix, -⟩
        rw [hread] at hu
        injection hu with hu
        rw [hu]
        exact hfix
      · intro hfix
        -- the id is that of the reduced layout, whose wire is the one that is written
        have hsame := hfix
        rw [Codec.crush_ofLayout] at hsame
        have hmod := Nat.mod_lt t.toNat (Nat.two_pow_pos 46)
        refine ⟨_, hread, hfix, (Layout.compact (BitVec.ofNat 60 (t.toNat % 2 ^ 46)) k s).wire,
          ?_, ?_, ?_, ?_⟩
        · rw [← hsame, serialise_of_isRfc (Codec.isRfc_ofLayout codec _), Codec.layout,
            Codec.fields_ofLayout, layoutOf_fields_compact _ (by rw [toNat_ofNat_mod]; exact hmod)]
        · rw [Layout.compactWire_wire]
          rfl
        · refine Layout.length_wire_le_of_decode hdec (le_trans ?_ hpayload)
          have hle := Nat.mod_le t.toNat (2 ^ 46)
          simp only [Layout.payload, toNat_ofNat_mod]
          omega
        · have hwire := unserialise_wire codec (.compact (BitVec.ofNat 60 (t.toNat % 2 ^ 46)) k s) []
          rw [List.append_nil] at hwire
          rw [hwire, hsame]

/-- A wire of nine bytes for the window 5 is decoded to the compacted id of that window. -/
theorem compact_wire_overlong : ∃ u, unserialise .v6 [0xa0, 0, 0, 0, 0, 1, 0x40, 0, 1] = .ok u [] ∧
    Codec.crush .v6 none u = u ∧ ∃ w', serialise u = .ok w' ∧ compactWire w' = true ∧
      w'.length ≤ 9 ∧ unserialise .v6 w' = .ok u [] :=
  (compact_wire_iff .v6 none (w := [0xa0, 0, 0, 0, 0, 1, 0x40, 0, 1])
    (c := ⟨5, 2 ^ 42 + 1⟩) rfl (by decide)).2 (Or.inl (by decide))

/-- The wire of the window `2 ^ 46` is decoded to an id with the time of the start of 2016, which
compaction replaces by no time. -/
theorem compact_wire_not_compacted : ¬ ∀ (codec : Codec) (localNodeHash : Option UInt64) (w : Bytes)
    (c : UUIDCondenser), UUIDCondenser.unserialise w = .ok c [] → c.compactCompacted ≠ 0 →
    ∃ u, unserialise codec w = .ok u [] ∧ codec.crush localNodeHash u = u ∧
      ∃ w', serialise u = .ok w' ∧ compactWire w' = true ∧ w'.length ≤ w.length ∧
        unserialise codec w' = .ok u [] := by
  intro h
  have hdec : UUIDCondenser.unserialise [0xb0, 0, 0, 0, 0, 0, 0, 0, 1] =
      .ok ⟨2 ^ 46, 2 ^ 42 + 1⟩ [] := rfl
  obtain ⟨u, hu, hfix, -⟩ := h .v6 none _ _ hdec (by decide)
  have htable : vlTable.decode [0xb0, 0, 0, 0, 0, 0, 0, 0, 1] = some (2 ^ 68 + 1, []) := rfl
  rw [unserialise_of_decode .v6 htable] at hu
  injection hu with hu
  have hL : Layout.ofPayload (2 ^ 68 + 1) = .compact (BitVec.ofNat 60 (2 ^ 46)) 0 0 := rfl
  rw [← hu, hL, Codec.crush_ofLayout_iff] at hfix
  rcases hfix with hlt | ⟨hne, -⟩
  · exact absurd hlt (by decide)
  · exact absurd hne (by decide)

end Cuuid
