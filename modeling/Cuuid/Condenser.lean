/-
**Condensers with zero padding.**

The union of the source has more values than the wire has room for: `serialise` asserts that the
padding is zero.  A condenser with zero padding is the condenser of its layout.  Its wire is read back
with the same fields, but not always with zero padding.

Main definitions:

* `Cuuid.UUIDCondenser.ZeroPadding` — what the assertions of `serialise` ask for.

Main results:

* `Cuuid.UUIDCondenser.condenser_layout` — a condenser with zero padding is that of its layout;
* `Cuuid.UUIDCondenser.frame_exact` — **the framing is exact**: writing succeeds within the buffer
  and the table, and reading gives the fields back, whatever follows;
* `Cuuid.UUIDCondenser.decoded_zeroPadding_iff` — **when the padding stays zero**, so that what was
  read can be written again: in the expanded layout only.
-/

import Cuuid.Condense

set_option relaxedAutoImplicit false
set_option autoImplicit false

namespace Cuuid

namespace UUIDCondenser

/-! ### Padding -/

/-- The assertions of `serialise`, for the layout that the flag names. -/
def ZeroPadding (c : UUIDCondenser) : Prop :=
  if c.compactCompacted ≠ 0 then c.compactPadding0 = 0 ∧ c.compactPadding1 = 0
  else c.expandedPadding0 = 0 ∧ c.expandedPadding1 = 0

instance (c : UUIDCondenser) : Decidable c.ZeroPadding :=
  inferInstanceAs (Decidable (if c.compactCompacted ≠ 0 then
    c.compactPadding0 = 0 ∧ c.compactPadding1 = 0
    else c.expandedPadding0 = 0 ∧ c.expandedPadding1 = 0))

/-- The padding as numbers. -/
theorem zeroPadding_iff (c : UUIDCondenser) : c.ZeroPadding ↔ c.val0.toNat < 2 ^ 60 ∧
    if c.compactCompacted ≠ 0 then c.val1.toNat / 2 % 2 ^ 42 = 0 else c.val1.toNat / 2 % 2 = 0 := by
  unfold ZeroPadding
  rw [expandedPadding0_eq]
  simp only [← UInt64.toNat_inj, toNat_compactPadding0, toNat_compactPadding1,
    toNat_expandedPadding1, UInt64.toNat_zero]
  split_ifs <;> constructor <;> rintro ⟨h₀, h₁⟩ <;> exact ⟨by omega, h₁⟩

/-- **A condenser with zero padding is that of its layout.** -/
theorem condenser_layout {c : UUIDCondenser} (h : c.ZeroPadding) : c.layout.condenser = c := by
  obtain ⟨h₀, h₁⟩ := (zeroPadding_iff c).1 h
  have hv₁ := c.val1.toNat_lt
  unfold layout
  split_ifs at h₁ ⊢ with hc
  · rw [compactCompacted_ne_zero_iff] at hc
    apply ext_toNat
    · rw [Layout.toNat_val0_compact, BitVec.toNat_ofNat, toNat_compactTime]
      omega
    · rw [Layout.toNat_val1_compact, BitVec.toNat_ofNat, BitVec.toNat_ofNat, toNat_compactClock,
        toNat_compactSalt]
      omega
  · rw [compactCompacted_ne_zero_iff] at hc
    apply ext_toNat
    · rw [Layout.toNat_val0_expanded, BitVec.toNat_ofNat, expandedTime_eq, toNat_compactTime]
      omega
    · rw [Layout.toNat_val1_expanded, BitVec.toNat_ofNat, BitVec.toNat_ofNat, expandedClock_eq,
        toNat_compactClock, toNat_expandedNode]
      omega

/-- The condenser of a layout has zero padding. -/
theorem zeroPadding_condenser (L : Layout) : L.condenser.ZeroPadding := by
  have hflag := Layout.flag_condenser L
  rw [zeroPadding_iff]
  cases L with
  | compact t k s =>
      have ht := t.isLt
      have hk := k.isLt
      have hs := s.isLt
      rw [if_pos (by simpa [Layout.isCompact] using hflag), Layout.toNat_val0_compact,
        Layout.toNat_val1_compact]
      omega
  | expanded t k n =>
      have ht := t.isLt
      have hk := k.isLt
      have hn := n.isLt
      rw [if_neg (by simpa [Layout.isCompact] using hflag), Layout.toNat_val0_expanded,
        Layout.toNat_val1_expanded]
      omega

/-- The condensers that the codec fills in itself have zero padding. -/
theorem zeroPadding_condenserOf (expand : NodeExpander) (f : Fields) :
    (condenserOf expand f).ZeroPadding := by
  rw [condenserOf_eq]
  exact zeroPadding_condenser _

/-! ### The framing -/

/-- **`serialise` succeeds** on zero padding, and writes the wire of the layout. -/
theorem serialise_of_zeroPadding {c : UUIDCondenser} (h : c.ZeroPadding) :
    c.serialise = .ok c.layout.wire := by
  conv_lhs => rw [← condenser_layout h]
  exact Layout.serialise_eq c.layout

/-- The words that it is packed into hold the payload of the layout. -/
theorem buffers_of_zeroPadding {c : UUIDCondenser} (h : c.ZeroPadding) : ∃ b₀ b₁ : UInt64,
    c.buffers = .ok (b₀, b₁) ∧ b₀.toNat * 2 ^ 64 + b₁.toNat = c.layout.payload := by
  have hbuffers := Layout.buffers_condenser c.layout
  rwa [condenser_layout h] at hbuffers

/-- **Which layouts are unpacked with zero padding**: the expanded ones.  The flag of a compact
layout, which is the lowest bit of the payload, is shifted into the top of the padding. -/
theorem zeroPadding_ofPayload_iff (L : Layout) :
    (ofPayload L.payload).ZeroPadding ↔ L.isCompact = false := by
  have hP := L.payload_lt
  have hflag := isCompact_layout (ofPayload L.payload)
  rw [layout_ofPayload_payload] at hflag
  have hb₀ : (UInt64.ofNat (L.payload / 2 ^ 64)).toNat = L.payload / 2 ^ 64 := by
    rw [UInt64.toNat_ofNat']
    omega
  have hb₁ : (UInt64.ofNat L.payload).toNat = L.payload % 2 ^ 64 := UInt64.toNat_ofNat'
  have hparity := L.payload_mod_two
  rw [zeroPadding_iff]
  cases hL : L.isCompact with
  | true =>
      rw [hL, if_pos rfl] at hparity
      obtain ⟨-, hv₁⟩ := Layout.toNat_ofBuffers_odd (UInt64.ofNat (L.payload / 2 ^ 64))
        (show (UInt64.ofNat L.payload).toNat % 2 = 1 by omega)
      rw [hb₁] at hv₁
      rw [if_pos (by simpa [hL] using hflag), ofPayload, hv₁]
      simp only [Bool.true_eq_false, iff_false, not_and]
      intro _
      omega
  | false =>
      rw [hL, if_neg (by decide)] at hparity
      obtain ⟨hv₀, hv₁⟩ := Layout.toNat_ofBuffers_even (UInt64.ofNat (L.payload / 2 ^ 64))
        (show (UInt64.ofNat L.payload).toNat % 2 = 0 by omega)
      rw [hb₀, hb₁] at hv₀
      rw [hb₁] at hv₁
      rw [if_neg (by simpa [hL] using hflag), ofPayload, hv₀, hv₁]
      simp only [iff_true]
      omega

/-- The flag is one bit. -/
theorem compacted_eq_of_isCompact {c d : UUIDCondenser}
    (h : c.layout.isCompact = d.layout.isCompact) : c.compactCompacted = d.compactCompacted := by
  have hc := toNat_compactCompacted c
  have hd := toNat_compactCompacted d
  have hiff : c.compactCompacted.toNat = 0 ↔ d.compactCompacted.toNat = 0 := by
    rw [isCompact_layout, isCompact_layout, Bool.eq_iff_iff, bne_iff_ne, bne_iff_ne,
      not_iff_not, ← UInt64.toNat_inj, ← UInt64.toNat_inj] at h
    exact h
  apply UInt64.toNat_inj.1
  omega

/-- **The framing is exact.**  A condenser with zero padding is written without leaving the buffer
or the table, and reading its wire, whatever follows, moves past it and gives back the flag, the
time, the clock, and the salt or the node. -/
theorem frame_exact {c : UUIDCondenser} (h : c.ZeroPadding) :
    ∃ w, c.serialise = .ok w ∧ ∀ r, ∃ d, unserialise (w ++ r) = .ok d r ∧
      d.compactCompacted = c.compactCompacted ∧
      (c.compactCompacted ≠ 0 → d.compactTime = c.compactTime ∧
        d.compactClock = c.compactClock ∧ d.compactSalt = c.compactSalt) ∧
      (c.compactCompacted = 0 → d.expandedTime = c.expandedTime ∧
        d.expandedClock = c.expandedClock ∧ d.expandedNode = c.expandedNode) := by
  refine ⟨_, serialise_of_zeroPadding h, fun r => ⟨_, unserialise_wire_eq c.layout r, ?_⟩⟩
  have hlayout := layout_ofPayload_payload c.layout
  generalize ofPayload c.layout.payload = d at hlayout
  have hflag := compacted_eq_of_isCompact (congrArg Layout.isCompact hlayout)
  have hcompact := isCompact_layout c
  refine ⟨hflag, fun hset => ?_, fun hclear => ?_⟩
  · cases hL : c.layout with
    | compact t k s =>
        obtain ⟨ht, hk, hs⟩ := getters_of_compact hL
        obtain ⟨ht', hk', hs'⟩ := getters_of_compact (hlayout.trans hL)
        exact ⟨UInt64.toNat_inj.1 (ht'.trans ht.symm), UInt64.toNat_inj.1 (hk'.trans hk.symm),
          UInt64.toNat_inj.1 (hs'.trans hs.symm)⟩
    | expanded t k n =>
        simp [hL, Layout.isCompact, hset] at hcompact
  · cases hL : c.layout with
    | compact t k s =>
        simp [hL, Layout.isCompact, hclear] at hcompact
    | expanded t k n =>
        obtain ⟨ht, hk, hn⟩ := getters_of_expanded hL
        obtain ⟨ht', hk', hn'⟩ := getters_of_expanded (hlayout.trans hL)
        exact ⟨UInt64.toNat_inj.1 (ht'.trans ht.symm), UInt64.toNat_inj.1 (hk'.trans hk.symm),
          UInt64.toNat_inj.1 (hn'.trans hn.symm)⟩

/-- The framing of a compact condenser with all 60 bits of time, in front of another byte. -/
theorem frame_exact_compact : ∃ w, UUIDCondenser.serialise ⟨0xfffffffffffffff, 0x14000000000001⟩ =
    .ok w ∧ ∀ r, ∃ d, unserialise (w ++ r) = .ok d r ∧ d.compactTime = 0xfffffffffffffff := by
  obtain ⟨w, hw, hread⟩ := frame_exact
    (c := ⟨0xfffffffffffffff, 0x14000000000001⟩) (by decide)
  refine ⟨w, hw, fun r => ?_⟩
  obtain ⟨d, hd, -, hfields, -⟩ := hread r
  exact ⟨d, hd, (hfields (by decide)).1⟩

/-- **When the padding stays zero.**  What is read from a wire that `serialise` produced passes the
assertions of `serialise` again, which then gives back the wire, exactly when it is expanded. -/
theorem decoded_zeroPadding_iff {c : UUIDCondenser} (h : c.ZeroPadding) {w : Bytes}
    (hw : c.serialise = .ok w) : (∃ d, unserialise w = .ok d [] ∧ d.ZeroPadding ∧
      (∃ p, d.buffers = .ok p) ∧ d.serialise = .ok w) ↔ c.compactCompacted = 0 := by
  have hwire := serialise_of_zeroPadding h
  rw [hw] at hwire
  injection hwire with hwire
  have hread := unserialise_wire_eq c.layout []
  rw [List.append_nil, ← hwire] at hread
  have hflag := isCompact_layout c
  constructor
  · rintro ⟨d, hd, hzero, -, -⟩
    rw [hread] at hd
    injection hd with hd
    rw [← hd, zeroPadding_ofPayload_iff, hflag] at hzero
    exact bne_eq_false_iff_eq.1 hzero
  · intro hclear
    have hzero : (ofPayload c.layout.payload).ZeroPadding := by
      rw [zeroPadding_ofPayload_iff, hflag, hclear]
      rfl
    have hcondenser := condenser_layout hzero
    rw [layout_ofPayload_payload] at hcondenser
    obtain ⟨b₀, b₁, hbuffers, -⟩ := Layout.buffers_condenser c.layout
    refine ⟨_, hread, hzero, ⟨(b₀, b₁), ?_⟩, ?_⟩
    · rw [← hcondenser, hbuffers]
    · rw [← hcondenser, Layout.serialise_eq, hwire]

/-- The expanded condenser with all fields zero is read back with zero padding. -/
theorem decoded_zeroPadding_zero : ∃ d, unserialise [0x1c, 0, 0, 0] = .ok d [] ∧ d.ZeroPadding ∧
    (∃ p, d.buffers = .ok p) ∧ d.serialise = .ok [0x1c, 0, 0, 0] :=
  (decoded_zeroPadding_iff (c := ⟨0, 0⟩) (by decide) rfl).2 (by decide)

/-- The compact condenser with all fields zero is read back with a bit in its padding, on which the
assertions of `serialise` fail. -/
theorem decoded_padding_not_zero : ¬ ∀ (c : UUIDCondenser) (w : Bytes), c.ZeroPadding →
    c.serialise = .ok w → ∃ d, unserialise w = .ok d [] ∧ d.ZeroPadding ∧
      (∃ p, d.buffers = .ok p) ∧ d.serialise = .ok w := by
  intro h
  have hok : UUIDCondenser.serialise ⟨0, 1⟩ = .ok [0x1c, 0, 0, 1] := rfl
  have hread : unserialise [0x1c, 0, 0, 1] = .ok ⟨0, 2 ^ 42 + 1⟩ [] := rfl
  obtain ⟨d, hd, hzero, -⟩ := h ⟨0, 1⟩ [0x1c, 0, 0, 1] (by decide) hok
  rw [hread] at hd
  injection hd with hd
  rw [← hd] at hzero
  exact absurd hzero (by decide)

end UUIDCondenser

end Cuuid
