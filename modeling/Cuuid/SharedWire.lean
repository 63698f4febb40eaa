/-
**One wire for both codecs.**

The two codecs assemble and take apart the sixteen bytes of a UUID with code of their own, and
reconstruct nodes with expanders of their own, but they share the condenser.  This module says what
follows for a wire that is written by one and read by the other.

Main results:

* `Cuuid.Layout.fields_expand` — the expander shows in nothing but a reconstructed node;
* `Cuuid.shared_wire` — **v1 and v6 share one wire**: compacting the same fields gives the same wire
  in both codecs, and a condensed wire is read with the same time, clock and, where it is stored,
  node.
-/

import Cuuid.Packed

set_option relaxedAutoImplicit false
set_option autoImplicit false

namespace Cuuid

open LengthFold

/-- The expander shows in nothing but a reconstructed node. -/
theorem Layout.fields_expand (e₁ e₂ : NodeExpander) (L : Layout) :
    (L.fields e₁).time = (L.fields e₂).time ∧ (L.fields e₁).clock = (L.fields e₂).clock ∧
      (L.isCompact = false → (L.fields e₁).node = (L.fields e₂).node) := by
  cases L with
  | compact t k s => exact ⟨rfl, rfl, fun h => by simp [isCompact] at h⟩
  | expanded t k n => exact ⟨rfl, rfl, fun _ => rfl⟩

/-- A layout that a payload unpacks to is compact when the flag is set. -/
theorem Layout.isCompact_ofPayload (P : ℕ) :
    (Layout.ofPayload P).isCompact = decide (P % 2 = 1) := by
  by_cases h : P % 2 = 1
  · simp [ofPayload, isCompact, h]
  · simp [ofPayload, isCompact, h]

/-- A condensed wire that a codec accepts is a number written in a slot, and is decoded to the
layout of the number, under either codec. -/
theorem exists_layout_of_unserialise {codec : Codec} {w r : Bytes} {u : UUID}
    (hhead : w.head? ≠ some 1) (h : unserialise codec (w ++ r) = .ok u r) :
    ∃ L : Layout, compactWire w = L.isCompact ∧ u = codec.ofLayout L ∧
      UUID.unserialise (w ++ r) = .ok (UUID.ofLayout L) r ∧
      V6.unserialise (w ++ r) = .ok (V6.ofLayout L) r := by
  have hrest := elementRest_of_ok h
  have hlt := length_lt_of_elementRest hrest
  cases w with
  | nil => simp at hlt
  | cons b w =>
      have hb : b ≠ 1 := by simpa using hhead
      rw [List.cons_append, elementRest, if_neg hb] at hrest
      obtain ⟨⟨P, r'⟩, hdec, rfl⟩ := Option.map_eq_some_iff.1 hrest
      dsimp only at h hdec
      obtain ⟨s, hs, hP, hwire⟩ := Table.decode_eq_some_iff.1 hdec
      rw [← List.cons_append, List.append_cancel_right_eq] at hwire
      obtain ⟨_, l, hbl, -, -, hlen⟩ := UUIDCondenser.head_of_decode hdec
      obtain ⟨c, l', hcl⟩ : ∃ c l', w ++ r' = c :: l' := by
        rw [List.cons.injEq] at hbl
        exact List.exists_cons_of_ne_nil (by rw [hbl.2]; intro hnil; simp [hnil] at hlen)
      have hread : ∀ codec : Codec, unserialise codec (b :: w ++ r') =
          .ok (codec.ofLayout (Layout.ofPayload P)) r' := by
        intro codec
        rw [List.cons_append, hcl, unserialise_condensed codec hb, ← hcl, hdec]
      refine ⟨Layout.ofPayload P, ?_, ?_, hread .v1, ?_⟩
      · rw [hwire, compactWire_slot hs, Layout.isCompact_ofPayload]
      · rw [hread codec] at h
        injection h with hu
        exact hu.symm
      · have hv6 := hread .v6
        rw [List.cons_append, unserialise_v6_cons, if_neg hb] at hv6
        exact hv6

/-- **v1 and v6 share one wire.**  Compacting the same fields gives the same wire in both codecs,
which either reads back as its own id.  Any condensed wire is accepted by both or by neither; they
consume the same bytes, give ids of their own versions with the same time and the same clock, and
with the same node when it is stored. -/
theorem shared_wire :
    (∀ (localNodeHash : Option UInt64) (f : Fields) (v : UUID), v.isRfc 1 = true → v.fields = f →
      ∃ w, (v.compactCrush localNodeHash).serialise = .ok w ∧
        V6.serialise (V6.make localNodeHash f) = .ok w ∧
        UUID.unserialise w = .ok (v.compactCrush localNodeHash) [] ∧
        V6.unserialise w = .ok (V6.make localNodeHash f) []) ∧
    (∀ f : Fields, f.InRange → ∃ v : UUID, v.isRfc 1 = true ∧ v.fields = f) ∧
    (∀ (w r : Bytes) (u : UUID), w.head? ≠ some 1 → UUID.unserialise (w ++ r) = .ok u r →
      ∃ u', V6.unserialise (w ++ r) = .ok u' r ∧ u.isRfc 1 = true ∧ u'.isRfc 6 = true ∧
        u.uuid1Time = (fromV6Bytes u'.bytes).time ∧
        u.uuid1ClockSeq = (fromV6Bytes u'.bytes).clock ∧
        (compactWire w = false → u.uuid1Node = (fromV6Bytes u'.bytes).node)) ∧
    (∀ (w r : Bytes) (u' : UUID), w ≠ [] → w.head? ≠ some 1 → V6.unserialise (w ++ r) = .ok u' r →
      ∃ u, UUID.unserialise (w ++ r) = .ok u r) := by
  refine ⟨?_, ?_, ?_, ?_⟩
  · rintro localNodeHash f v hv rfl
    refine ⟨_, UUID.serialise_compactCrush localNodeHash hv, V6.serialise_make localNodeHash _, ?_,
      ?_⟩
    · have hread := UUID.unserialise_wire (crushLayout v.uuid1Time.toNat v.uuid1ClockSeq.toNat
        (crushSalt localNodeHash v.uuid1Node).toNat) []
      rw [List.append_nil, ← UUID.compactCrush_eq localNodeHash hv] at hread
      exact hread
    · have hread := V6.unserialise_wire (crushLayout v.fields.time.toNat v.fields.clock.toNat
        (crushSalt localNodeHash v.fields.node).toNat) []
      rw [List.append_nil, ← V6.make_eq] at hread
      exact hread
  · intro f hf
    exact ⟨UUID.ofCondensed f, UUID.isRfc_ofCondensed hf, UUID.fields_ofCondensed hf⟩
  · intro w r u hhead hu
    have hv1 : unserialise .v1 (w ++ r) = .ok u r := hu
    obtain ⟨L, hflag, rfl, -, hv6⟩ := exists_layout_of_unserialise hhead hv1
    obtain ⟨htime, hclock, hnode⟩ := L.fields_expand expandMtCompute expandSplitmix
    have hfields := UUID.fields_ofLayout L
    have hfields' := V6.fields_ofLayout L
    refine ⟨_, hv6, UUID.isRfc_ofLayout L, V6.isRfc_fromFields _, ?_, ?_, ?_⟩
    · rw [hfields', ← htime]
      exact congrArg Fields.time hfields
    · rw [hfields', ← hclock]
      exact congrArg Fields.clock hfields
    · intro hexpanded
      rw [hfields', ← hnode (by rw [← hflag, hexpanded])]
      exact congrArg Fields.node hfields
  · intro w r u' hne hhead hu
    obtain ⟨b, l, hbl⟩ := List.exists_cons_of_ne_nil hne
    have hb : b ≠ 1 := by
      rw [hbl] at hhead
      simpa using hhead
    have hv6 : unserialise .v6 (w ++ r) = .ok u' r := by
      rw [hbl, List.cons_append, unserialise_v6_cons, if_neg hb, ← List.cons_append, ← hbl]
      exact hu
    obtain ⟨L, -, -, hv1, -⟩ := exists_layout_of_unserialise hhead hv6
    exact ⟨_, hv1⟩

end Cuuid
