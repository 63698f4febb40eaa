/-
**What a condenser holds: the compact and the expanded layout.**

The union `UUIDCondenser` is two 64-bit words, and most of their values are never written by the
codec.  This module introduces the values that are meant: a layout is either compact or expanded,
and each of its fields has exactly the width that the source reserves for it.  The model is
connected to the union in both directions: `Layout.condenser` is the condenser of a layout, with
zero padding, and `UUIDCondenser.layout` reads the fields of any condenser.

Main definitions:

* `Cuuid.Layout` — the two layouts;
* `Cuuid.Layout.payload`, `Cuuid.Layout.ofPayload` — the layout as one number, which the wire
  writes, and back;
* `Cuuid.Layout.condenser`, `Cuuid.UUIDCondenser.layout`.

Main results:

* `Cuuid.Layout.ofPayload_payload` — a layout is determined by its payload;
* `Cuuid.Layout.buffers_condenser` — **the packing of `serialise` computes the payload**;
* `Cuuid.Layout.layout_ofBuffers` — **the unpacking of `unserialise` inverts it**, for any payload.
-/

import Cuuid.Window

set_option relaxedAutoImplicit false
set_option autoImplicit false

namespace Cuuid

open BitField

/-- The fields of a condenser. -/
inductive Layout
  /-- The node is reconstructed from the other fields. -/
  | compact (time : BitVec 60) (clock : BitVec 14) (salt : BitVec 7)
  /-- The node is stored. -/
  | expanded (time : BitVec 60) (clock : BitVec 14) (node : BitVec 48)
deriving DecidableEq, Repr

namespace Layout

/-! ### The payload -/

/-- The layout as one number, most significant field first, and the layout's flag last. -/
def payload : Layout → ℕ
  | compact t c s => t.toNat * 2 ^ 22 + c.toNat * 2 ^ 8 + s.toNat * 2 ^ 1 + 1
  | expanded t c n => t.toNat * 2 ^ 63 + c.toNat * 2 ^ 49 + n.toNat * 2 ^ 1

/-- The layout of a number; bits above the time field are dropped. -/
def ofPayload (p : ℕ) : Layout :=
  if p % 2 = 1 then
    compact (BitVec.ofNat 60 (p / 2 ^ 22)) (BitVec.ofNat 14 (p / 2 ^ 8)) (BitVec.ofNat 7 (p / 2 ^ 1))
  else
    expanded (BitVec.ofNat 60 (p / 2 ^ 63)) (BitVec.ofNat 14 (p / 2 ^ 49))
      (BitVec.ofNat 48 (p / 2 ^ 1))

/-- Whether the layout is compact. -/
def isCompact : Layout → Bool
  | compact .. => true
  | expanded .. => false

/-- The flag is the lowest bit of the payload. -/
theorem payload_mod_two (L : Layout) : L.payload % 2 = if L.isCompact then 1 else 0 := by
  cases L with
  | compact t c s =>
      simp only [payload, isCompact, if_true]
      omega
  | expanded t c n =>
      simp only [payload, isCompact, Bool.false_eq_true, if_false]
      omega

/-- **A layout is determined by its payload.** -/
theorem ofPayload_payload (L : Layout) : ofPayload L.payload = L := by
  cases L with
  | compact t c s =>
      have ht := t.isLt
      have hc := c.isLt
      have hs := s.isLt
      rw [ofPayload, if_pos (by simp only [payload]; omega)]
      simp only [payload, compact.injEq, ← BitVec.toNat_inj, BitVec.toNat_ofNat]
      omega
  | expanded t c n =>
      have ht := t.isLt
      have hc := c.isLt
      have hn := n.isLt
      rw [ofPayload, if_neg (by simp only [payload]; omega)]
      simp only [payload, expanded.injEq, ← BitVec.toNat_inj, BitVec.toNat_ofNat]
      omega

theorem payload_injective : Function.Injective payload :=
  Function.LeftInverse.injective ofPayload_payload

/-- A compact payload has as many bits as its time has, and 22 more. -/
theorem payload_compact_lt {t : BitVec 60} (c : BitVec 14) (s : BitVec 7) {k : ℕ}
    (h : t.toNat < k) : (compact t c s).payload < k * 2 ^ 22 := by
  have hc := c.isLt
  have hs := s.isLt
  simp only [payload]
  omega

/-- Every payload fits in 123 bits. -/
theorem payload_lt (L : Layout) : L.payload < 2 ^ 123 := by
  cases L with
  | compact t c s =>
      have h := payload_compact_lt c s t.isLt
      omega
  | expanded t c n =>
      have ht := t.isLt
      have hc := c.isLt
      have hn := n.isLt
      simp only [payload]
      omega

/-! ### The condenser of a layout -/

/-- The condenser with the fields of the layout and zero padding. -/
def condenser : Layout → UUIDCondenser
  | compact t c s =>
      ⟨UInt64.ofNat t.toNat, UInt64.ofNat (c.toNat * 2 ^ 50 + s.toNat * 2 ^ 43 + 1)⟩
  | expanded t c n =>
      ⟨UInt64.ofNat t.toNat, UInt64.ofNat (c.toNat * 2 ^ 50 + n.toNat * 2 ^ 2)⟩

end Layout

namespace UUIDCondenser

/-- The fields of a condenser; the padding is forgotten. -/
def layout (c : UUIDCondenser) : Layout :=
  if c.compactCompacted ≠ 0 then
    .compact (BitVec.ofNat 60 c.compactTime.toNat) (BitVec.ofNat 14 c.compactClock.toNat)
      (BitVec.ofNat 7 c.compactSalt.toNat)
  else
    .expanded (BitVec.ofNat 60 c.expandedTime.toNat) (BitVec.ofNat 14 c.expandedClock.toNat)
      (BitVec.ofNat 48 c.expandedNode.toNat)

/-! The getters as numbers. -/

theorem toNat_compactTime (c : UUIDCondenser) : c.compactTime.toNat = c.val0.toNat % 2 ^ 60 := by
  rw [compactTime, toNat_get _ (by decide) (by decide)]
  simp only [timeBits]
  omega

theorem toNat_compactPadding0 (c : UUIDCondenser) :
    c.compactPadding0.toNat = c.val0.toNat / 2 ^ 60 := by
  have h := c.val0.toNat_lt
  rw [compactPadding0, toNat_get _ (by decide) (by decide)]
  simp only [timeBits, paddingC0Bits]
  omega

theorem toNat_compactCompacted (c : UUIDCondenser) :
    c.compactCompacted.toNat = c.val1.toNat % 2 := by
  rw [compactCompacted, toNat_get _ (by decide) (by decide)]
  simp only [compactedBits]
  omega

/-- The flag is the lowest bit of the second word. -/
theorem compactCompacted_ne_zero_iff (c : UUIDCondenser) :
    c.compactCompacted ≠ 0 ↔ c.val1.toNat % 2 = 1 := by
  rw [ne_eq, eq_zero_iff, toNat_compactCompacted]
  omega

theorem toNat_compactPadding1 (c : UUIDCondenser) :
    c.compactPadding1.toNat = c.val1.toNat / 2 % 2 ^ 42 := by
  rw [compactPadding1, toNat_get _ (by decide) (by decide)]
  rfl

theorem toNat_compactSalt (c : UUIDCondenser) :
    c.compactSalt.toNat = c.val1.toNat / 2 ^ 43 % 2 ^ 7 := by
  rw [compactSalt, toNat_get _ (by decide) (by decide)]
  rfl

theorem toNat_compactClock (c : UUIDCondenser) :
    c.compactClock.toNat = c.val1.toNat / 2 ^ 50 := by
  have h := c.val1.toNat_lt
  rw [compactClock, toNat_get _ (by decide) (by decide)]
  simp only [compactedBits, paddingC1Bits, saltBits, clockBits]
  omega

theorem toNat_expandedPadding1 (c : UUIDCondenser) :
    c.expandedPadding1.toNat = c.val1.toNat / 2 % 2 := by
  rw [expandedPadding1, toNat_get _ (by decide) (by decide)]
  rfl

theorem toNat_expandedNode (c : UUIDCondenser) :
    c.expandedNode.toNat = c.val1.toNat / 2 ^ 2 % 2 ^ 48 := by
  rw [expandedNode, toNat_get _ (by decide) (by decide)]
  rfl

/-! The two layouts share time, padding, flag and clock. -/

theorem expandedTime_eq (c : UUIDCondenser) : c.expandedTime = c.compactTime := rfl

theorem expandedPadding0_eq (c : UUIDCondenser) : c.expandedPadding0 = c.compactPadding0 := rfl

theorem expandedClock_eq (c : UUIDCondenser) : c.expandedClock = c.compactClock := rfl

end UUIDCondenser

namespace Layout

open UUIDCondenser

/-! The words of the condenser of a layout. -/

theorem toNat_val0_compact (t : BitVec 60) (c : BitVec 14) (s : BitVec 7) :
    (compact t c s).condenser.val0.toNat = t.toNat := by
  have ht := t.isLt
  simp only [condenser, UInt64.toNat_ofNat']
  omega

theorem toNat_val1_compact (t : BitVec 60) (c : BitVec 14) (s : BitVec 7) :
    (compact t c s).condenser.val1.toNat = c.toNat * 2 ^ 50 + s.toNat * 2 ^ 43 + 1 := by
  have hc := c.isLt
  have hs := s.isLt
  simp only [condenser, UInt64.toNat_ofNat']
  omega

theorem toNat_val0_expanded (t : BitVec 60) (c : BitVec 14) (n : BitVec 48) :
    (expanded t c n).condenser.val0.toNat = t.toNat := by
  have ht := t.isLt
  simp only [condenser, UInt64.toNat_ofNat']
  omega

theorem toNat_val1_expanded (t : BitVec 60) (c : BitVec 14) (n : BitVec 48) :
    (expanded t c n).condenser.val1.toNat = c.toNat * 2 ^ 50 + n.toNat * 2 ^ 2 := by
  have hc := c.isLt
  have hn := n.isLt
  simp only [condenser, UInt64.toNat_ofNat']
  omega

/-- The fields of the condenser of a layout are the layout. -/
@[simp] theorem layout_condenser (L : Layout) : L.condenser.layout = L := by
  cases L with
  | compact t c s =>
      have h₀ := toNat_val0_compact t c s
      have h₁ := toNat_val1_compact t c s
      have ht := t.isLt
      have hc := c.isLt
      have hs := s.isLt
      have hflag : (compact t c s).condenser.compactCompacted ≠ 0 := by
        rw [compactCompacted_ne_zero_iff, h₁]
        omega
      rw [layout, if_pos hflag]
      simp only [compact.injEq, ← BitVec.toNat_inj, BitVec.toNat_ofNat, toNat_compactTime,
        toNat_compactClock, toNat_compactSalt, h₀, h₁]
      omega
  | expanded t c n =>
      have h₀ := toNat_val0_expanded t c n
      have h₁ := toNat_val1_expanded t c n
      have ht := t.isLt
      have hc := c.isLt
      have hn := n.isLt
      have hflag : ¬ (expanded t c n).condenser.compactCompacted ≠ 0 := by
        rw [compactCompacted_ne_zero_iff, h₁]
        omega
      rw [layout, if_neg hflag]
      simp only [expanded.injEq, ← BitVec.toNat_inj, BitVec.toNat_ofNat, expandedTime_eq,
        expandedClock_eq, toNat_compactTime, toNat_compactClock, toNat_expandedNode, h₀, h₁]
      omega

/-- The flag of the condenser of a layout. -/
theorem flag_condenser (L : Layout) :
    (L.condenser.compactCompacted != 0) = L.isCompact := by
  cases L with
  | compact t c s =>
      rw [isCompact, bne_iff_ne, compactCompacted_ne_zero_iff, toNat_val1_compact]
      omega
  | expanded t c n =>
      rw [isCompact, bne_eq_false_iff_eq, eq_zero_iff, toNat_compactCompacted,
        toNat_val1_expanded]
      omega

/-- **The packing of `serialise` computes the payload**, and its assertions hold. -/
theorem buffers_condenser (L : Layout) : ∃ b₀ b₁ : UInt64,
    L.condenser.buffers = .ok (b₀, b₁) ∧ b₀.toNat * 2 ^ 64 + b₁.toNat = L.payload := by
  have hflag := flag_condenser L
  cases L with
  | compact t c s =>
      have h₀ := toNat_val0_compact t c s
      have h₁ := toNat_val1_compact t c s
      have ht := t.isLt
      have hc := c.isLt
      have hs := s.isLt
      -- the two assertions of the compact branch
      have hp₀ : ((compact t c s).condenser.compactPadding0 != 0) = false := by
        simp only [bne_eq_false_iff_eq, ← UInt64.toNat_inj, toNat_compactPadding0, h₀,
          UInt64.reduceToNat]
        omega
      have hp₁ : ((compact t c s).condenser.compactPadding1 != 0) = false := by
        simp only [bne_eq_false_iff_eq, ← UInt64.toNat_inj, toNat_compactPadding1, h₁,
          UInt64.reduceToNat]
        omega
      refine ⟨_, _, by rw [buffers, hflag, hp₀, hp₁]; rfl, ?_⟩
      simp only [paddingC1Bits, compactedBits, saltBits, clockBits, Nat.reduceSub, UInt64.toNat_or]
      rw [toNat_shiftRight_ofNat _ _ (by decide), toNat_shiftRight_ofNat _ _ (by decide),
        toNat_shiftLeft_ofNat _ _ (by decide), h₀, h₁,
        or_eq_add (t.toNat * 2 ^ 22 % 2 ^ 64) _ 22 (by omega) (by omega),
        or_eq_add _ _ 1 (by omega) (by decide)]
      simp only [payload, UInt64.reduceToNat]
      omega
  | expanded t c n =>
      have h₀ := toNat_val0_expanded t c n
      have h₁ := toNat_val1_expanded t c n
      have ht := t.isLt
      have hc := c.isLt
      have hn := n.isLt
      -- the two assertions of the expanded branch
      have hp₀ : ((expanded t c n).condenser.expandedPadding0 != 0) = false := by
        rw [expandedPadding0_eq]
        simp only [bne_eq_false_iff_eq, ← UInt64.toNat_inj, toNat_compactPadding0, h₀,
          UInt64.reduceToNat]
        omega
      have hp₁ : ((expanded t c n).condenser.expandedPadding1 != 0) = false := by
        simp only [bne_eq_false_iff_eq, ← UInt64.toNat_inj, toNat_expandedPadding1, h₁,
          UInt64.reduceToNat]
        omega
      refine ⟨_, _, by rw [buffers, hflag, hp₀, hp₁]; rfl, ?_⟩
      simp only [paddingE1Bits, compactedBits, nodeBits, clockBits, Nat.reduceSub, UInt64.toNat_or]
      rw [toNat_shiftRight_ofNat _ _ (by decide), toNat_shiftRight_ofNat _ _ (by decide),
        toNat_shiftLeft_ofNat _ _ (by decide), h₀, h₁, or_eq_add _ _ 63 (by omega) (by omega)]
      simp only [payload]
      omega

/-- The words that are unpacked when the flag is clear: both move up by the padding of the expanded
layout. -/
theorem toNat_ofBuffers_even (b₀ : UInt64) {b₁ : UInt64} (h : b₁.toNat % 2 = 0) :
    (ofBuffers b₀ b₁).val0.toNat = b₀.toNat * 2 ^ 1 % 2 ^ 64 + b₁.toNat / 2 ^ 63 ∧
      (ofBuffers b₀ b₁).val1.toNat = b₁.toNat * 2 ^ 1 % 2 ^ 64 := by
  have h₁ := b₁.toNat_lt
  have hbit : (b₁ &&& 1).toNat = b₁.toNat % 2 := by
    rw [UInt64.toNat_and]
    exact Nat.and_one_is_mod _
  have hflag : (b₁ &&& 1 != 0) = false := by
    simp only [bne_eq_false_iff_eq, ← UInt64.toNat_inj, hbit, h, UInt64.reduceToNat]
  rw [ofBuffers, hflag]
  simp only [Bool.false_eq_true, if_false, paddingE1Bits, compactedBits, nodeBits, clockBits,
    Nat.reduceSub, UInt64.toNat_or]
  rw [toNat_shiftRight_ofNat _ _ (by decide), toNat_shiftLeft_ofNat _ _ (by decide),
    toNat_shiftLeft_ofNat _ _ (by decide)]
  exact ⟨or_eq_add _ _ 1 (by omega) (by omega), rfl⟩

/-- The words that are unpacked when the flag is set: the shift drops it, and the source sets it
again. -/
theorem toNat_ofBuffers_odd (b₀ : UInt64) {b₁ : UInt64} (h : b₁.toNat % 2 = 1) :
    (ofBuffers b₀ b₁).val0.toNat = b₀.toNat * 2 ^ 42 % 2 ^ 64 + b₁.toNat / 2 ^ 22 ∧
      (ofBuffers b₀ b₁).val1.toNat = b₁.toNat * 2 ^ 42 % 2 ^ 64 + 1 := by
  have h₁ := b₁.toNat_lt
  have hbit : (b₁ &&& 1).toNat = b₁.toNat % 2 := by
    rw [UInt64.toNat_and]
    exact Nat.and_one_is_mod _
  have hflag : (b₁ &&& 1 != 0) = true := by
    simp only [bne_iff_ne, ne_eq, ← UInt64.toNat_inj, hbit, h, UInt64.reduceToNat]
    omega
  rw [ofBuffers, hflag]
  simp only [if_true, paddingC1Bits, compactedBits, saltBits, clockBits, Nat.reduceSub,
    UInt64.toNat_or]
  rw [toNat_shiftRight_ofNat _ _ (by decide), toNat_shiftLeft_ofNat _ _ (by decide),
    toNat_shiftLeft_ofNat _ _ (by decide)]
  exact ⟨or_eq_add _ _ 42 (by omega) (by omega), or_eq_add _ _ 42 (by omega) (by decide)⟩

/-- **The unpacking of `unserialise` inverts the packing**, for any payload. -/
theorem layout_ofBuffers (b₀ b₁ : UInt64) :
    (ofBuffers b₀ b₁).layout = ofPayload (b₀.toNat * 2 ^ 64 + b₁.toNat) := by
  have h₀ := b₀.toNat_lt
  have h₁ := b₁.toNat_lt
  rcases Nat.mod_two_eq_zero_or_one b₁.toNat with hodd | hodd
  · obtain ⟨hv₀, hv₁⟩ := toNat_ofBuffers_even b₀ hodd
    have hc : ¬ (ofBuffers b₀ b₁).compactCompacted ≠ 0 := by
      rw [compactCompacted_ne_zero_iff, hv₁]
      omega
    rw [layout, if_neg hc, ofPayload, if_neg (by omega)]
    simp only [expanded.injEq, ← BitVec.toNat_inj, BitVec.toNat_ofNat, expandedTime_eq,
      expandedClock_eq, toNat_compactTime, toNat_compactClock, toNat_expandedNode, hv₀, hv₁]
    omega
  · obtain ⟨hv₀, hv₁⟩ := toNat_ofBuffers_odd b₀ hodd
    have hc : (ofBuffers b₀ b₁).compactCompacted ≠ 0 := by
      rw [compactCompacted_ne_zero_iff, hv₁]
      omega
    rw [layout, if_pos hc, ofPayload, if_pos (by omega)]
    simp only [compact.injEq, ← BitVec.toNat_inj, BitVec.toNat_ofNat, toNat_compactTime,
      toNat_compactClock, toNat_compactSalt, hv₀, hv₁]
    omega

end Layout

end Cuuid
