/-
**The form of a wire.**

Readers tell the kinds of wires apart by the first byte, and the text form of a wire drops leading
zeros.  This module says what a wire can look like.

Main results:

* `Cuuid.serialise_form` — **the form of every wire**: 4 to 16 bytes, at most 9 of them when the
  layout is compact, with a first byte that is neither 0 nor 1; or the full form behind a 1.
-/

import Cuuid.RoundTrip
import Cuuid.Packed

set_option relaxedAutoImplicit false
set_option autoImplicit false

namespace Cuuid

/-! ### Lengths and first bytes -/

namespace Layout

/-- The first byte of a wire is neither of the two that mark something else. -/
theorem head_wire (L : Layout) : ∃ b l, L.wire = b :: l ∧ b ≠ 0 ∧ b ≠ 1 := by
  have hdec := L.decode_wire []
  rw [List.append_nil] at hdec
  obtain ⟨b, l, hbl, hzero, hone, -⟩ := UUIDCondenser.head_of_decode hdec
  exact ⟨b, l, hbl, hzero, hone⟩

end Layout

/-- A compact layout that is encoded is one that a compaction fills in. -/
theorem length_wire_layoutOf_le {expand : NodeExpander} {f : Fields}
    (h : (layoutOf expand f).isCompact = true) : (layoutOf expand f).wire.length ≤ 9 := by
  unfold layoutOf at h ⊢
  split at h
  · rw [if_pos ‹_›]
    exact (crush_wire _ _ _).2.2
  · simp [Layout.isCompact] at h

/-- **The form of every wire.**  A UUID of either codec has a wire of 4 to 16 bytes, at most 9 when
its layout is compact, whose first byte is neither 0 nor 1.  Any other UUID has a wire that starts
with 1 and goes on with its own bytes, and that decodes to it under both codecs. -/
theorem serialise_form (u : UUID) : ∃ w, serialise u = .ok w ∧ w.head? ≠ some 0 ∧
    (∀ codec : Codec, u.isRfc codec.version = true → 4 ≤ w.length ∧ w.length ≤ 16 ∧
      w.head? ≠ some 1 ∧
      ((condenserOf codec.expand (codec.fields u)).compactCompacted ≠ 0 → w.length ≤ 9)) ∧
    ((∀ codec : Codec, u.isRfc codec.version = false) → w = 1 :: u.bytes.toList ∧
      ∀ codec, unserialiseView codec w = .ok u) := by
  by_cases h : ∃ codec : Codec, u.isRfc codec.version = true
  · obtain ⟨c, hc⟩ := h
    have hser := serialise_of_isRfc hc
    obtain ⟨b, l, hbl, hzero, hone⟩ := (c.layout u).head_wire
    refine ⟨_, hser, by simpa [hbl] using hzero, fun codec hcodec => ?_, fun hnone => ?_⟩
    · refine ⟨Layout.four_le_length_wire _, Layout.length_wire_le_sixteen _,
        by simpa [hbl] using hone, fun hflag => ?_⟩
      -- both versions cannot be meant, but the wire is the same one anyway
      have hsame : (c.layout u).wire = (codec.layout u).wire := by
        have hother := serialise_of_isRfc hcodec
        rw [hser] at hother
        injection hother
      have hcompact : (codec.layout u).isCompact = true := by
        rw [Codec.layout, ← Layout.flag_condenser, ← condenserOf_eq]
        exact bne_iff_ne.2 hflag
      rw [hsame]
      exact length_wire_layoutOf_le hcompact
    · rw [hnone c] at hc
      exact absurd hc (by decide)
  · have hnone : ∀ codec : Codec, u.isRfc codec.version = false := by
      intro codec
      exact Bool.eq_false_iff.2 fun hcodec => h ⟨codec, hcodec⟩
    refine ⟨_, serialise_of_not_isRfc hnone, by simp [UUID.serialiseFull], fun codec hcodec => ?_,
      fun _ => ⟨rfl, fun codec => ?_⟩⟩
    · exact absurd ⟨codec, hcodec⟩ h
    · rw [unserialiseView, (frames_full codec u).read_whole]

end Cuuid
