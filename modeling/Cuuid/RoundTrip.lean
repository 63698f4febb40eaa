/-
**Which ids survive the wire.**

Encoding an id and decoding it again gives the id back or not, depending on its time and on the
layout that `condense` picks.  The compact layout has no room for the tick inside a window, and both
layouts write the start of 2016 as "no time"; this module says exactly what that costs, for either
codec, and that compacted ids pay nothing.

Main results:

* `Cuuid.compact_exact_iff` — an id in the compact layout decodes to itself exactly when it has no
  time, or one that is the start of a window after the first; the others share their wire with
  another id;
* `Cuuid.compacted_round_trip` — **every compacted id** is written in 4 to 9 bytes and decodes to
  itself;
* `Cuuid.expanded_exact_iff` — an id in the expanded layout decodes to itself except at the start of
  2016.
-/

import Cuuid.Dispatch

set_option relaxedAutoImplicit false
set_option autoImplicit false

namespace Cuuid

/-! ### The compact layout -/

/-- A time that the compact layout can hold: no time, or the start of a window other than the one
at the start of 2016. -/
def WindowStart (time : UInt64) : Prop :=
  time = 0 ∨ time ≠ uuidTimeInitial ∧ (time - uuidTimeInitial) &&& clockMask = 0

instance (time : UInt64) : Decidable (WindowStart time) := inferInstanceAs (Decidable (_ ∨ _))

theorem windowStart_iff (time : UInt64) :
    WindowStart time ↔ tickOf time.toNat = 0 ∧ time.toNat ≠ initial := by
  have htime := time.toNat_lt
  have hmask : ((time - uuidTimeInitial) &&& clockMask).toNat =
      (time.toNat + (2 ^ 64 - initial)) % 2 ^ 64 % 2 ^ 14 := by
    rw [BitField.toNat_and_two_pow_sub_one _ _ 14 (by decide), UInt64.toNat_sub,
      toNat_uuidTimeInitial]
    congr 2
    unfold initial
    omega
  simp only [WindowStart, ne_eq, ← UInt64.toNat_inj, toNat_uuidTimeInitial, hmask,
    UInt64.toNat_zero]
  unfold tickOf rebase
  unfold initial
  split_ifs with h
  · simp [h]
  · omega

/-- The layout is compact when the node is the reconstructed one. -/
theorem isCompact_layoutOf (expand : NodeExpander) (f : Fields) :
    (layoutOf expand f).isCompact = true ↔ f.node = compactedNode expand f := by
  by_cases h : f.node = compactedNode expand f
  · rw [layoutOf, if_pos h]
    simp [crushLayout, Layout.isCompact, h]
  · rw [layoutOf, if_neg h]
    simp [Layout.isCompact, h]

/-- What a layout decodes to, when it is compact, can be held by the compact layout. -/
theorem windowStart_fields_crush (expand : NodeExpander) (time clock salt : ℕ) :
    WindowStart ((crushLayout time clock salt).fields expand).time := by
  have hrange := Layout.fields_inRange expand (crushLayout time clock salt)
  have hround := layoutOf_fields_crush expand time clock salt
  have hcompact : ((crushLayout time clock salt).fields expand).node =
      compactedNode expand ((crushLayout time clock salt).fields expand) := by
    rw [← isCompact_layoutOf, hround]
    rfl
  rw [windowStart_iff, ← fields_layoutOf_compact_iff hrange hcompact, hround]

/-- An id decodes to itself when its fields survive the layout. -/
theorem unserialise_layout_iff (codec : Codec) {u : UUID} (hu : u.isRfc codec.version = true)
    (r : Bytes) : unserialise codec ((codec.layout u).wire ++ r) = .ok u r ↔
      (codec.layout u).fields codec.expand = codec.fields u := by
  rw [unserialise_wire]
  constructor
  · intro h
    injection h with h
    rw [← Codec.fields_ofLayout, h]
  · intro h
    rw [codec.ext_fields (codec.isRfc_ofLayout _) hu (by rw [Codec.fields_ofLayout, h])]

/-- **The compact layout**: for fields in range that `condense` writes compactly, the wire decodes
to the same fields exactly when there is no time, or it is the start of a window after the first. -/
theorem uncondense_condense_compact_iff (expand : NodeExpander) {f : Fields} (hf : f.InRange) :
    ∃ w, condense expand f = .ok w ∧
      (compactWire w = true ↔ f.node = compactedNode expand f) ∧
      (compactWire w = true → (uncondense expand w = .ok f [] ↔ WindowStart f.time)) := by
  refine ⟨_, condense_eq expand f, ?_, ?_⟩
  · rw [Layout.compactWire_wire, isCompact_layoutOf]
  · intro hcompact
    rw [Layout.compactWire_wire, isCompact_layoutOf] at hcompact
    have hdec := uncondense_wire expand (layoutOf expand f) []
    rw [List.append_nil] at hdec
    rw [hdec, windowStart_iff, ← fields_layoutOf_compact_iff hf hcompact, EStateM.Result.ok.injEq]
    exact and_iff_left rfl

/-- Two ids that the compact layout can hold are told apart by it. -/
theorem eq_of_compact_wire (codec : Codec) {u v : UUID} {w : Bytes}
    (hu : u.isRfc codec.version = true) (hv : v.isRfc codec.version = true)
    (huw : serialise u = .ok w) (hvw : serialise v = .ok w) (hcompact : compactWire w = true)
    (hut : WindowStart (codec.fields u).time) (hvt : WindowStart (codec.fields v).time) : u = v := by
  have hdec : ∀ x : UUID, x.isRfc codec.version = true → serialise x = .ok w →
      WindowStart (codec.fields x).time → unserialise codec w = .ok x [] := by
    intro x hx hxw hxt
    rw [serialise_of_isRfc hx] at hxw
    injection hxw with hxw
    have hnode : (codec.fields x).node = compactedNode codec.expand (codec.fields x) := by
      rw [← isCompact_layoutOf, ← Layout.compactWire_wire]
      exact hxw ▸ hcompact
    rw [← hxw, ← List.append_nil (codec.layout x).wire, unserialise_layout_iff codec hx]
    exact (fields_layoutOf_compact_iff (codec.fields_inRange x) hnode).2 ((windowStart_iff _).1 hxt)
  have hd := (hdec u hu huw hut).symm.trans (hdec v hv hvw hvt)
  injection hd

/-- An id that the compact layout cannot hold shares its wire with one that it can. -/
theorem exists_ne_of_compact_wire (codec : Codec) {u : UUID} {w : Bytes}
    (hu : u.isRfc codec.version = true) (huw : serialise u = .ok w)
    (hcompact : compactWire w = true) (hut : ¬ WindowStart (codec.fields u).time) :
    ∃ v, v ≠ u ∧ v.isRfc codec.version = true ∧ serialise v = .ok w ∧
      WindowStart (codec.fields v).time := by
  rw [serialise_of_isRfc hu] at huw
  injection huw with huw
  have hnode : (codec.fields u).node = compactedNode codec.expand (codec.fields u) := by
    rw [← isCompact_layoutOf, ← Layout.compactWire_wire]
    exact huw ▸ hcompact
  have hL : codec.layout u = crushLayout (codec.fields u).time.toNat
      (codec.fields u).clock.toNat (codec.fields u).node.toNat := if_pos hnode
  have hv := codec.isRfc_ofLayout (codec.layout u)
  have htime : WindowStart (codec.fields (codec.ofLayout (codec.layout u))).time := by
    rw [codec.fields_ofLayout, hL]
    exact windowStart_fields_crush codec.expand _ _ _
  -- the other id is the one that the wire decodes to
  refine ⟨codec.ofLayout (codec.layout u), ?_, hv, ?_, htime⟩
  · intro heq
    exact hut (heq ▸ htime)
  · have hround : codec.layout (codec.ofLayout (codec.layout u)) = codec.layout u := by
      rw [hL, codec.layout_ofLayout_crushLayout]
    rw [serialise_of_isRfc hv, hround, huw]

/-- **Which ids the compact layout keeps.**  For fields in range that `condense` writes compactly,
with the expander of either codec, the wire decodes to the same fields exactly when there is no time
(a time of 0), or it is the start of a window after the first.  No two UUIDs of one version with such
times share a compact wire, and every other UUID with a compact wire shares it with one of them. -/
theorem compact_exact_iff (codec : Codec) :
    (∀ f : Fields, f.InRange → ∃ w, condense codec.expand f = .ok w ∧
      (compactWire w = true ↔ f.node = compactedNode codec.expand f) ∧
      (compactWire w = true → (uncondense codec.expand w = .ok f [] ↔ WindowStart f.time))) ∧
    (∀ (u v : UUID) (w : Bytes), u.isRfc codec.version = true → v.isRfc codec.version = true →
      serialise u = .ok w → serialise v = .ok w → compactWire w = true →
      WindowStart (codec.fields u).time → WindowStart (codec.fields v).time → u = v) ∧
    (∀ (u : UUID) (w : Bytes), u.isRfc codec.version = true → serialise u = .ok w →
      compactWire w = true → ¬ WindowStart (codec.fields u).time →
      ∃ v, v ≠ u ∧ v.isRfc codec.version = true ∧ serialise v = .ok w ∧
        WindowStart (codec.fields v).time) := by
  refine ⟨fun f hf => uncondense_condense_compact_iff codec.expand hf, ?_, ?_⟩
  · intro u v w hu hv huw hvw hcompact hut hvt
    exact eq_of_compact_wire codec hu hv huw hvw hcompact hut hvt
  · intro u w hu huw hcompact hut
    exact exists_ne_of_compact_wire codec hu huw hcompact hut

/-- One tick after the start of 2016, with the clock that the tick is folded into.  The compact layout
writes it as the fields that are all zero. -/
def sharedFields : Fields := ⟨uuidTimeInitial + 1, 1, multicastBit⟩

/-- The compact layout loses the tick of `sharedFields`, whose wire then belongs to two ids. -/
theorem compact_not_exact :
    (¬ ∀ (f : Fields) (w : Bytes), f.InRange → condense expandMtCompute f = .ok w →
      compactWire w = true → uncondense expandMtCompute w = .ok f []) ∧
    (¬ ∀ (f : Fields) (w : Bytes), f.InRange → condense expandSplitmix f = .ok w →
      compactWire w = true → uncondense expandSplitmix w = .ok f []) ∧
    (¬ ∀ (u v : UUID) (w : Bytes), u.isRfc 1 = true → v.isRfc 1 = true → serialise u = .ok w →
      serialise v = .ok w → compactWire w = true → u = v) ∧
    (¬ ∀ (u v : UUID) (w : Bytes), u.isRfc 6 = true → v.isRfc 6 = true → serialise u = .ok w →
      serialise v = .ok w → compactWire w = true → u = v) := by
  refine ⟨?_, ?_, ?_, ?_⟩
  · intro h
    have hdec := h sharedFields [28, 0, 0, 1] ⟨by decide, by decide, by decide⟩ rfl rfl
    injection hdec with hdec
    exact absurd hdec (by decide)
  · intro h
    have hdec := h sharedFields [28, 0, 0, 1] ⟨by decide, by decide, by decide⟩ rfl rfl
    injection hdec with hdec
    exact absurd hdec (by decide)
  · intro h
    have heq := h (UUID.ofCondensed sharedFields) (UUID.ofCondensed ⟨0, 0, multicastBit⟩)
      [28, 0, 0, 1] rfl rfl rfl rfl rfl
    exact absurd heq (by decide)
  · intro h
    have heq := h (V6.fromFields sharedFields) (V6.fromFields ⟨0, 0, multicastBit⟩) [28, 0, 0, 1]
      rfl rfl rfl rfl rfl
    exact absurd heq (by decide)

/-- The start of the second window, with the node that is reconstructed from it. -/
def secondWindowFields : Fields := ⟨uuidTimeInitial + 0x4000, 1, 87843945488778⟩

/-- The compact layout keeps the start of the second window; the wire of `sharedFields` is shared. -/
theorem compact_exact_second_window :
    condense expandSplitmix secondWindowFields = .ok [0x1c, 0x40, 0x01, 0x15] ∧
    compactWire [0x1c, 0x40, 0x01, 0x15] = true ∧
    uncondense expandSplitmix [0x1c, 0x40, 0x01, 0x15] = .ok secondWindowFields [] ∧
    ∃ v, v ≠ V6.fromFields sharedFields ∧ serialise v = .ok [0x1c, 0, 0, 1] := by
  have hwire : condense expandSplitmix secondWindowFields = .ok [0x1c, 0x40, 0x01, 0x15] := rfl
  have hcompact : compactWire [0x1c, 0x40, 0x01, 0x15] = true := rfl
  obtain ⟨hkept, -, hshared⟩ := compact_exact_iff .v6
  obtain ⟨w, hw, -, hexact⟩ := hkept secondWindowFields ⟨by decide, by decide, by decide⟩
  rw [Codec.expand, hwire, Except.ok.injEq] at hw
  subst hw
  obtain ⟨v, hv, -, hserialise, -⟩ :=
    hshared (V6.fromFields sharedFields) [0x1c, 0, 0, 1] rfl rfl rfl (by decide)
  exact ⟨hwire, hcompact, (hexact hcompact).2 (by decide), v, hv, hserialise⟩

/-! ### Compacted ids -/

/-- The layout of a compaction has at most 68 bits: 46 of them are the window. -/
theorem payload_crushLayout_lt (time clock salt : ℕ) :
    (crushLayout time clock salt).payload < 2 ^ 68 := by
  have h := Layout.payload_compact_lt (BitVec.ofNat 14 (clock ^^^ tickOf time)) (BitVec.ofNat 7 salt)
    (show (BitVec.ofNat 60 (windowOf time)).toNat < 2 ^ 46 by
      rw [toNat_windowOf]
      exact windowOf_lt time)
  rw [crushLayout]
  omega

/-- The wire of a compaction is compact, and short. -/
theorem crush_wire (time clock salt : ℕ) :
    compactWire (crushLayout time clock salt).wire = true ∧
      4 ≤ (crushLayout time clock salt).wire.length ∧
      (crushLayout time clock salt).wire.length ≤ 9 := by
  refine ⟨?_, Layout.four_le_length_wire _, Layout.length_wire_le ?_⟩
  · rw [Layout.compactWire_wire]
    rfl
  · have h := payload_crushLayout_lt time clock salt
    omega

/-- **Every compacted id survives.**  For any time, clock and node, and whatever the local node hash
is, the v6 id that `make` builds, and the v1 id that `compact_crush` leaves, are written compactly in
4 to 9 bytes, and decode to themselves whatever follows. -/
theorem compacted_round_trip (localNodeHash : Option UInt64) :
    (∀ f : Fields, ∃ w, V6.serialise (V6.make localNodeHash f) = .ok w ∧ compactWire w = true ∧
      4 ≤ w.length ∧ w.length ≤ 9 ∧
      ∀ r, V6.unserialise (w ++ r) = .ok (V6.make localNodeHash f) r) ∧
    (∀ v : UUID, v.isRfc 1 = true → ∃ w, (v.compactCrush localNodeHash).serialise = .ok w ∧
      compactWire w = true ∧ 4 ≤ w.length ∧ w.length ≤ 9 ∧
      ∀ r, UUID.unserialise (w ++ r) = .ok (v.compactCrush localNodeHash) r) := by
  constructor
  · intro f
    obtain ⟨hcompact, hmin, hmax⟩ := crush_wire f.time.toNat f.clock.toNat
      (crushSalt localNodeHash f.node).toNat
    refine ⟨_, V6.serialise_make localNodeHash f, hcompact, hmin, hmax, ?_⟩
    intro r
    rw [V6.make_eq]
    exact V6.unserialise_wire _ r
  · intro v hv
    obtain ⟨hcompact, hmin, hmax⟩ := crush_wire v.uuid1Time.toNat v.uuid1ClockSeq.toNat
      (crushSalt localNodeHash v.uuid1Node).toNat
    refine ⟨_, UUID.serialise_compactCrush localNodeHash hv, hcompact, hmin, hmax, ?_⟩
    intro r
    rw [UUID.compactCrush_eq localNodeHash hv]
    exact UUID.unserialise_wire _ r

/-- A version-1 id that is compacted survives. -/
theorem compacted_round_trip_v1 : ∃ w,
    ((UUID.ofCondensed ⟨uuidTimeInitial + 5, 3, 0x1234⟩).compactCrush (some 7)).serialise = .ok w ∧
      w.length ≤ 9 ∧ UUID.unserialise w =
        .ok ((UUID.ofCondensed ⟨uuidTimeInitial + 5, 3, 0x1234⟩).compactCrush (some 7)) [] := by
  obtain ⟨w, hw, -, -, hmax, hdec⟩ := (compacted_round_trip (some 7)).2
    (UUID.ofCondensed ⟨uuidTimeInitial + 5, 3, 0x1234⟩) rfl
  have hround := hdec []
  rw [List.append_nil] at hround
  exact ⟨w, hw, hmax, hround⟩

/-! ### The expanded layout -/

/-- A reconstructed node is multicast, so other nodes are never written compactly. -/
theorem ne_compactedNode {f : Fields} (h : f.node &&& multicastBit = 0) (expand : NodeExpander) :
    f.node ≠ compactedNode expand f := by
  intro heq
  rw [heq, compactedNode_eq] at h
  exact (nodeOf_spec expand _ _ _).2.1 h

/-- The fields that the expanded layout keeps, in the words of the source. -/
theorem fields_layoutOf_expanded_iff' {expand : NodeExpander} {f : Fields} (hf : f.InRange)
    (hnode : f.node ≠ compactedNode expand f) : (layoutOf expand f).fields expand = f ↔
      f.node &&& multicastBit ≠ 0 ∨ f.time ≠ uuidTimeInitial := by
  rw [fields_layoutOf_expanded_iff hf hnode, ne_eq f.time, eq_initial_iff]

/-- **Which ids the expanded layout keeps.**  Fields in range whose node is not the reconstructed
one survive, with any expander and through either codec, exactly when the node is multicast or the
time is not the start of 2016.  Nodes that are not multicast are always written this way. -/
theorem expanded_exact_iff (f : Fields) (hf : f.InRange) :
    (∀ expand : NodeExpander, f.node ≠ compactedNode expand f →
      ∃ w, condense expand f = .ok w ∧ compactWire w = false ∧
        (uncondense expand w = .ok f [] ↔
          f.node &&& multicastBit ≠ 0 ∨ f.time ≠ uuidTimeInitial)) ∧
    (f.node ≠ compactedNode expandSplitmix f →
      ∃ w, V6.serialise (V6.fromFields f) = .ok w ∧
        (V6.unserialise w = .ok (V6.fromFields f) [] ↔
          f.node &&& multicastBit ≠ 0 ∨ f.time ≠ uuidTimeInitial)) ∧
    (∀ u : UUID, u.isRfc 1 = true → u.fields = f → f.node ≠ compactedNode expandMtCompute f →
      ∃ w, u.serialise = .ok w ∧
        (UUID.unserialise w = .ok u [] ↔
          f.node &&& multicastBit ≠ 0 ∨ f.time ≠ uuidTimeInitial)) ∧
    (f.node &&& multicastBit = 0 → ∀ expand : NodeExpander, f.node ≠ compactedNode expand f) := by
  refine ⟨?_, ?_, ?_, ?_⟩
  · intro expand hnode
    refine ⟨_, condense_eq expand f, ?_, ?_⟩
    · rw [Layout.compactWire_wire, ← Bool.not_eq_true, isCompact_layoutOf]
      exact hnode
    · have hdec := uncondense_wire expand (layoutOf expand f) []
      rw [List.append_nil] at hdec
      rw [hdec, ← fields_layoutOf_expanded_iff' hf hnode, EStateM.Result.ok.injEq]
      exact and_iff_left rfl
  · intro hnode
    have hdec := V6.unserialise_wire (V6.layout (V6.fromFields f)) []
    rw [List.append_nil] at hdec
    refine ⟨_, V6.serialise_eq _, ?_⟩
    rw [hdec, V6.layout, V6.fields_fromFields hf, V6.ofLayout,
      ← fields_layoutOf_expanded_iff' hf hnode,
      ← V6.fromFields_inj (Layout.fields_inRange expandSplitmix _) hf, EStateM.Result.ok.injEq]
    exact and_iff_left rfl
  · rintro u hu rfl hnode
    have hround := unserialise_layout_iff .v1 hu []
    rw [List.append_nil, unserialise_v1] at hround
    refine ⟨_, UUID.serialise_eq hu, hround.trans ?_⟩
    exact fields_layoutOf_expanded_iff' hf hnode
  · intro h expand
    exact ne_compactedNode h expand

/-- The start of 2016 with a node that is not multicast: both expanders leave the node alone. -/
def startFields : Fields := ⟨uuidTimeInitial, 0, 0x001122334400⟩

/-- The expanded layout writes the start of 2016 as no time. -/
theorem expanded_not_exact :
    (¬ ∀ (f : Fields) (w : Bytes), f.InRange → f.node ≠ compactedNode expandMtCompute f →
      condense expandMtCompute f = .ok w → uncondense expandMtCompute w = .ok f []) ∧
    (¬ ∀ (f : Fields) (w : Bytes), f.InRange → f.node ≠ compactedNode expandSplitmix f →
      condense expandSplitmix f = .ok w → uncondense expandSplitmix w = .ok f []) ∧
    (¬ ∀ (f : Fields) (w : Bytes), f.InRange → f.node ≠ compactedNode expandSplitmix f →
      V6.serialise (V6.fromFields f) = .ok w → V6.unserialise w = .ok (V6.fromFields f) []) ∧
    (¬ ∀ (u : UUID) (w : Bytes), u.isRfc 1 = true →
      u.uuid1Node ≠ compactedNode expandMtCompute u.fields → u.serialise = .ok w →
      UUID.unserialise w = .ok u []) := by
  refine ⟨?_, ?_, ?_, ?_⟩
  · intro h
    have hdec := h startFields [20, 34, 68, 102, 136, 0] ⟨by decide, by decide, by decide⟩
      (ne_compactedNode rfl _) rfl
    injection hdec with hdec
    exact absurd hdec (by decide)
  · intro h
    have hdec := h startFields [20, 34, 68, 102, 136, 0] ⟨by decide, by decide, by decide⟩
      (ne_compactedNode rfl _) rfl
    injection hdec with hdec
    exact absurd hdec (by decide)
  · intro h
    have hdec := h startFields [20, 34, 68, 102, 136, 0] ⟨by decide, by decide, by decide⟩
      (ne_compactedNode rfl _) rfl
    injection hdec with hdec
    exact absurd hdec (by decide)
  · intro h
    have hdec := h (UUID.ofCondensed startFields) [20, 34, 68, 102, 136, 0] rfl
      (ne_compactedNode (f := (UUID.ofCondensed startFields).fields) rfl expandMtCompute) rfl
    injection hdec with hdec
    exact absurd hdec (by decide)

/-- One tick later the same node survives, in both codecs. -/
theorem expanded_exact_tick_later :
    (∃ w, V6.serialise (V6.fromFields ⟨uuidTimeInitial + 1, 0, 0x001122334400⟩) = .ok w ∧
      V6.unserialise w = .ok (V6.fromFields ⟨uuidTimeInitial + 1, 0, 0x001122334400⟩) []) ∧
    ∃ w, (UUID.ofCondensed ⟨uuidTimeInitial + 1, 0, 0x001122334400⟩).serialise = .ok w ∧
      UUID.unserialise w = .ok (UUID.ofCondensed ⟨uuidTimeInitial + 1, 0, 0x001122334400⟩) [] := by
  obtain ⟨-, hv6, hv1, hnode⟩ := expanded_exact_iff ⟨uuidTimeInitial + 1, 0, 0x001122334400⟩
    ⟨by decide, by decide, by decide⟩
  constructor
  · obtain ⟨w, hw, hexact⟩ := hv6 (hnode rfl _)
    exact ⟨w, hw, hexact.2 (Or.inr (by decide))⟩
  · obtain ⟨w, hw, hexact⟩ := hv1 (UUID.ofCondensed ⟨uuidTimeInitial + 1, 0, 0x001122334400⟩) rfl
      (by decide +kernel) (hnode rfl _)
    exact ⟨w, hw, hexact.2 (Or.inr (by decide))⟩

end Cuuid
