/-
**Fields and layouts.**

`crush_fields` and `condense` turn the fields of a UUID into a condenser and `uncondense` turns a
condenser into fields.  This module states both directions between `Fields` and `Layout`, where the
machine words are gone, and proves what is lost on the way.

Main definitions:

* `Cuuid.nodeOf` — the node that is reconstructed for a compact layout;
* `Cuuid.crushLayout`, `Cuuid.layoutOf` — the layout that `crush_fields`, and `condense`, fill in;
* `Cuuid.Layout.fields` — the fields that a layout is decoded to.

Main results:

* `Cuuid.condense_eq`, `Cuuid.uncondense_wire`, `Cuuid.crushFields_eq` — the functions of the source
  in terms of layouts;
* `Cuuid.layoutOf_fields_compact` — **compaction is exact on what it produces**: the fields of a
  compact layout are encoded as that layout;
* `Cuuid.time_eq_of_crushLayout_eq` — **compaction under one clock keeps times apart**;
* `Cuuid.fields_layoutOf_compact_iff`, `Cuuid.fields_layoutOf_expanded_iff` — **which fields survive
  the round trip**, in either layout.
-/

import Mathlib.Data.Nat.Bitwise
import Cuuid.Wire

set_option relaxedAutoImplicit false
set_option autoImplicit false

namespace Cuuid

open BitField

/-! ### The reconstructed node -/

/-- The node that is reconstructed for a compact layout. -/
def nodeOf (expand : NodeExpander) (t : BitVec 60) (k : BitVec 14) (s : BitVec 7) : UInt64 :=
  calculateNode (Layout.compact t k s).condenser expand

/-- The getters of a condenser with a compact layout. -/
theorem getters_of_compact {c : UUIDCondenser} {t : BitVec 60} {k : BitVec 14} {s : BitVec 7}
    (h : c.layout = .compact t k s) : c.compactTime.toNat = t.toNat ∧
      c.compactClock.toNat = k.toNat ∧ c.compactSalt.toNat = s.toNat := by
  have h₁ := c.val1.toNat_lt
  unfold UUIDCondenser.layout at h
  split at h
  · simp only [Layout.compact.injEq, ← BitVec.toNat_inj, BitVec.toNat_ofNat] at h
    rw [UUIDCondenser.toNat_compactTime, UUIDCondenser.toNat_compactClock,
      UUIDCondenser.toNat_compactSalt] at *
    omega
  · simp at h

/-- The getters of a condenser with an expanded layout. -/
theorem getters_of_expanded {c : UUIDCondenser} {t : BitVec 60} {k : BitVec 14} {n : BitVec 48}
    (h : c.layout = .expanded t k n) : c.compactTime.toNat = t.toNat ∧
      c.compactClock.toNat = k.toNat ∧ c.expandedNode.toNat = n.toNat := by
  have h₁ := c.val1.toNat_lt
  unfold UUIDCondenser.layout at h
  split at h
  · simp at h
  · rw [UUIDCondenser.expandedTime_eq, UUIDCondenser.expandedClock_eq] at h
    simp only [Layout.expanded.injEq, ← BitVec.toNat_inj, BitVec.toNat_ofNat] at h
    rw [UUIDCondenser.toNat_compactTime, UUIDCondenser.toNat_compactClock,
      UUIDCondenser.toNat_expandedNode] at *
    omega

/-- `calculate_node` only reads the three fields of a compact layout. -/
theorem calculateNode_eq {c : UUIDCondenser} {t : BitVec 60} {k : BitVec 14} {s : BitVec 7}
    (h : c.layout = .compact t k s) (expand : NodeExpander) :
    calculateNode c expand = nodeOf expand t k s := by
  obtain ⟨ht, hk, hs⟩ := getters_of_compact h
  obtain ⟨ht', hk', hs'⟩ := getters_of_compact (Layout.layout_condenser (.compact t k s))
  have htime := UInt64.toNat_inj.1 (ht.trans ht'.symm)
  have hclock := UInt64.toNat_inj.1 (hk.trans hk'.symm)
  have hsalt := UInt64.toNat_inj.1 (hs.trans hs'.symm)
  simp only [nodeOf, calculateNode, htime, hclock, hsalt]

/-- Setting the salt and the multicast bit in the other bits of a node. -/
theorem salted_node_spec (x s : UInt64) (hs : s.toNat < 2 ^ 7) :
    let node := (x &&& (nodeMask &&& ~~~saltMask)) ||| s ||| multicastBit
    node.toNat % 2 ^ 7 = s.toNat ∧ node &&& multicastBit ≠ 0 ∧ node.toNat < 2 ^ 48 := by
  have hmask : (nodeMask &&& ~~~saltMask).toNat = 2 ^ 48 - 2 ^ 7 := rfl
  have hbit : multicastBit.toNat = 2 ^ 40 := rfl
  refine ⟨?_, ?_, ?_⟩
  · -- neither the masked node nor the multicast bit reaches the salt
    have hhigh : x.toNat &&& (2 ^ 48 - 2 ^ 7) &&& (2 ^ 7 - 1) = 0 := by
      rw [Nat.and_assoc, show (2 ^ 48 - 2 ^ 7) &&& (2 ^ 7 - 1) = 0 from rfl, Nat.and_zero]
    have hlow : s.toNat &&& (2 ^ 7 - 1) = s.toNat := by
      rw [Nat.and_two_pow_sub_one_eq_mod, Nat.mod_eq_of_lt hs]
    rw [UInt64.toNat_or, UInt64.toNat_or, UInt64.toNat_and, hmask, hbit,
      ← Nat.and_two_pow_sub_one_eq_mod, Nat.and_or_distrib_right, Nat.and_or_distrib_right, hhigh,
      hlow, Nat.zero_or]
    exact Nat.or_zero _
  · intro hzero
    have hnat := congrArg UInt64.toNat hzero
    rw [UInt64.toNat_and, UInt64.toNat_or, hbit, Nat.and_or_distrib_right, Nat.and_self,
      UInt64.toNat_zero, Nat.or_eq_zero_iff] at hnat
    omega
  · rw [UInt64.toNat_or, UInt64.toNat_or, UInt64.toNat_and, hmask, hbit]
    refine Nat.or_lt_two_pow (Nat.or_lt_two_pow ?_ (by omega)) (by decide)
    exact lt_of_le_of_lt Nat.and_le_right (by decide)

/-- A reconstructed node ends in the salt, has the multicast bit, and fits in 48 bits. -/
theorem nodeOf_spec (expand : NodeExpander) (t : BitVec 60) (k : BitVec 14) (s : BitVec 7) :
    (nodeOf expand t k s).toNat % 2 ^ 7 = s.toNat ∧ nodeOf expand t k s &&& multicastBit ≠ 0 ∧
      (nodeOf expand t k s).toNat < 2 ^ 48 := by
  obtain ⟨ht, hk, hs⟩ := getters_of_compact (Layout.layout_condenser (.compact t k s))
  have hsalt := s.isLt
  unfold nodeOf calculateNode
  split
  · -- all fields zero: the node is the multicast bit alone
    rename_i hzero
    rw [hzero.2.2] at hs
    refine ⟨?_, by decide, by decide⟩
    rw [← hs]
    rfl
  · dsimp only
    have hnode := fun x => salted_node_spec x _ (hs ▸ hsalt)
    simp only [hs] at hnode
    exact hnode _

/-! ### Compact layouts -/

/-- The time since 2016, as the source computes it. -/
theorem toNat_rebase (time : UInt64) :
    (if time != 0 then (time - uuidTimeInitial) &&& timeMask else time).toNat =
      rebase time.toNat := by
  have htime := time.toNat_lt
  unfold rebase
  by_cases h : time = 0
  · simp [h]
  · rw [if_pos (by simpa using h), if_neg (by rwa [← eq_zero_iff]),
      toNat_and_two_pow_sub_one _ _ 60 (by decide), UInt64.toNat_sub, toNat_uuidTimeInitial]
    unfold initial
    omega

theorem UUIDCondenser.ext_toNat {c d : UUIDCondenser} (h₀ : c.val0.toNat = d.val0.toNat)
    (h₁ : c.val1.toNat = d.val1.toNat) : c = d := by
  cases c
  cases d
  rw [UUIDCondenser.mk.injEq]
  exact ⟨UInt64.toNat_inj.1 h₀, UInt64.toNat_inj.1 h₁⟩

/-- Filling in the four fields of a compact condenser. -/
theorem setCompact_eq (t k s : UInt64) :
    (((UUIDCondenser.zero.setCompactCompacted 1).setCompactClock k).setCompactTime t).setCompactSalt
        s = (Layout.compact (BitVec.ofNat 60 t.toNat) (BitVec.ofNat 14 k.toNat)
          (BitVec.ofNat 7 s.toNat)).condenser := by
  apply UUIDCondenser.ext_toNat
  · simp only [UUIDCondenser.zero, UUIDCondenser.setCompactCompacted,
      UUIDCondenser.setCompactClock, UUIDCondenser.setCompactTime, UUIDCondenser.setCompactSalt,
      Layout.toNat_val0_compact, BitVec.toNat_ofNat, timeBits]
    rw [toNat_set _ _ (by decide) (by decide)]
    simp only [UInt64.reduceToNat]
    omega
  · simp only [UUIDCondenser.zero, UUIDCondenser.setCompactCompacted,
      UUIDCondenser.setCompactClock, UUIDCondenser.setCompactTime, UUIDCondenser.setCompactSalt,
      Layout.toNat_val1_compact, BitVec.toNat_ofNat, compactedBits, paddingC1Bits, saltBits,
      clockBits, Nat.reduceSub, Nat.reduceAdd]
    rw [toNat_set _ _ (by decide) (by decide), toNat_set _ _ (by decide) (by decide),
      toNat_set _ _ (by decide) (by decide)]
    simp only [UInt64.reduceToNat]
    omega

/-- Overwriting the fields of a compact condenser with those of an expanded one: the salt and the
padding below it become the node. -/
theorem setExpanded_eq (t₀ : BitVec 60) (k₀ : BitVec 14) (s₀ : BitVec 7) (t k n : UInt64) :
    ((((Layout.compact t₀ k₀ s₀).condenser.setExpandedCompacted 0).setExpandedClock k).setExpandedTime
        t).setExpandedNode n = (Layout.expanded (BitVec.ofNat 60 t.toNat) (BitVec.ofNat 14 k.toNat)
          (BitVec.ofNat 48 n.toNat)).condenser := by
  have h₀ := Layout.toNat_val0_compact t₀ k₀ s₀
  have h₁ := Layout.toNat_val1_compact t₀ k₀ s₀
  have ht := t₀.isLt
  have hk := k₀.isLt
  have hs := s₀.isLt
  apply UUIDCondenser.ext_toNat
  · simp only [UUIDCondenser.setExpandedCompacted, UUIDCondenser.setExpandedClock,
      UUIDCondenser.setExpandedTime, UUIDCondenser.setExpandedNode, Layout.toNat_val0_expanded,
      BitVec.toNat_ofNat, timeBits]
    rw [toNat_set _ _ (by decide) (by decide), h₀]
    omega
  · simp only [UUIDCondenser.setExpandedCompacted, UUIDCondenser.setExpandedClock,
      UUIDCondenser.setExpandedTime, UUIDCondenser.setExpandedNode, Layout.toNat_val1_expanded,
      BitVec.toNat_ofNat, compactedBits, paddingE1Bits, nodeBits, clockBits, Nat.reduceSub,
      Nat.reduceAdd]
    rw [toNat_set _ _ (by decide) (by decide), toNat_set _ _ (by decide) (by decide),
      toNat_set _ _ (by decide) (by decide), h₁]
    simp only [UInt64.reduceToNat]
    omega

/-- The layout that `crush_fields` fills in, and `condense` too when it finds it compact. -/
def crushLayout (time : ℕ) (clock : ℕ) (salt : ℕ) : Layout :=
  .compact (BitVec.ofNat 60 (windowOf time)) (BitVec.ofNat 14 (clock ^^^ tickOf time))
    (BitVec.ofNat 7 salt)

/-- A window fits in the time of a layout. -/
theorem toNat_ofNat_mod (w : ℕ) : (BitVec.ofNat 60 (w % 2 ^ 46)).toNat = w % 2 ^ 46 := by
  rw [BitVec.toNat_ofNat]
  omega

theorem toNat_windowOf (t : ℕ) : (BitVec.ofNat 60 (windowOf t)).toNat = windowOf t := by
  have h := windowOf_lt t
  rw [BitVec.toNat_ofNat, Nat.mod_eq_of_lt (by omega)]

/-- **Compaction is injective in the time** under a common clock, whatever the salts: inside a
window the ticks differ, and so do the clocks that they are folded into. -/
theorem time_eq_of_crushLayout_eq {clock t₁ t₂ s₁ s₂ : ℕ} (hclock : clock < 2 ^ 14) (h₁ : 0 < t₁)
    (h₂ : 0 < t₂) (h₁' : t₁ < 2 ^ 60) (h₂' : t₂ < 2 ^ 60)
    (h : crushLayout t₁ clock s₁ = crushLayout t₂ clock s₂) : t₁ = t₂ := by
  rw [crushLayout, crushLayout, Layout.compact.injEq, ← BitVec.toNat_inj, ← BitVec.toNat_inj,
    toNat_windowOf, toNat_windowOf, BitVec.toNat_ofNat, BitVec.toNat_ofNat,
    Nat.mod_eq_of_lt (Nat.xor_lt_two_pow hclock (tickOf_lt t₁)),
    Nat.mod_eq_of_lt (Nat.xor_lt_two_pow hclock (tickOf_lt t₂))] at h
  obtain ⟨hwindow, hfold, -⟩ := h
  exact eq_of_windowOf_tickOf h₁ h₂ h₁' h₂' hwindow (Nat.xor_right_inj.1 hfold)

/-- So the wires of later compactions under the same clock are other ones. -/
theorem crushLayout_wire_ne {clock : UInt16} (hclock : clock.toNat < 2 ^ 14) {t₁ t₂ : UInt64}
    (hpos : 0 < t₁) (hlt : t₁ < t₂) (h₂ : t₂.toNat < 2 ^ 60) (s₁ s₂ : ℕ) :
    (crushLayout t₁.toNat clock.toNat s₁).wire ≠ (crushLayout t₂.toNat clock.toNat s₂).wire := by
  intro heq
  rw [UInt64.lt_iff_toNat_lt] at hpos hlt
  rw [UInt64.toNat_zero] at hpos
  have htime := time_eq_of_crushLayout_eq hclock hpos (by omega) (by omega) h₂
    (Layout.wire_injective heq)
  omega

theorem compactCondenser_eq (time : UInt64) (clock : UInt16) (salt : UInt64) :
    compactCondenser time clock salt =
      (crushLayout time.toNat clock.toNat salt.toNat).condenser := by
  have hrebase := toNat_rebase time
  have hw := windowOf_lt time.toNat
  have hlt := rebase_lt time.toNat
  have hclock := clock.toNat_lt
  unfold compactCondenser
  dsimp only
  generalize (if time != 0 then (time - uuidTimeInitial) &&& timeMask else time) = e at hrebase ⊢
  have htick : (e &&& clockMask).toNat = tickOf time.toNat := by
    rw [toNat_and_two_pow_sub_one _ _ 14 (by decide), hrebase]
    rfl
  have hwindow : (e >>> UInt64.ofNat clockBits).toNat = windowOf time.toNat := by
    rw [toNat_shiftRight_ofNat _ _ (by decide), hrebase]
    rfl
  have hxor : (clock.toUInt64 ^^^ (e &&& clockMask)).toNat = clock.toNat ^^^ tickOf time.toNat := by
    rw [UInt64.toNat_xor, htick, UInt16.toNat_toUInt64]
  rw [setCompact_eq, hxor, hwindow]
  rfl

theorem layout_compactCondenser (time : UInt64) (clock : UInt16) (salt : UInt64) :
    (compactCondenser time clock salt).layout =
      crushLayout time.toNat clock.toNat salt.toNat := by
  rw [compactCondenser_eq, Layout.layout_condenser]

/-- The salt field only holds the low seven bits, so the mask makes no difference. -/
theorem ofNat_and_saltMask (node : UInt64) :
    BitVec.ofNat 7 (node &&& saltMask).toNat = BitVec.ofNat 7 node.toNat := by
  rw [← BitVec.toNat_inj, BitVec.toNat_ofNat, BitVec.toNat_ofNat,
    toNat_and_two_pow_sub_one _ _ 7 (by decide), Nat.mod_mod]

/-! ### Decoding -/

/-- The fields that a layout is decoded to. -/
def Layout.fields (expand : NodeExpander) : Layout → Fields
  | compact t k s => ⟨UInt64.ofNat (windowTime t.toNat), UInt16.ofNat k.toNat, nodeOf expand t k s⟩
  | expanded t k n =>
      ⟨UInt64.ofNat (if UInt64.ofNat n.toNat &&& multicastBit = 0 then unbase t.toNat else t.toNat),
        UInt16.ofNat k.toNat, UInt64.ofNat n.toNat⟩

/-- The time of a window, as the source computes it. -/
theorem windowTime_eq (t : UInt64) :
    (if t != 0 then ((t <<< UInt64.ofNat clockBits) + uuidTimeInitial) &&& timeMask else t) =
      UInt64.ofNat (windowTime t.toNat) := by
  have ht := t.toNat_lt
  apply UInt64.toNat_inj.1
  rw [toNat_windowTime]
  unfold windowTime unbase
  by_cases h : t = 0
  · simp [h]
  · rw [if_pos (by simpa using h), if_neg (by rw [eq_zero_iff] at h; omega),
      toNat_and_two_pow_sub_one _ _ 60 (by decide), UInt64.toNat_add, toNat_uuidTimeInitial,
      toNat_shiftLeft_ofNat _ _ (by decide)]
    simp only [clockBits]
    omega

/-- A time since 2016, put back, as the source computes it. -/
theorem unbase_eq (t : UInt64) :
    (if t != 0 then (t + uuidTimeInitial) &&& timeMask else t) = UInt64.ofNat (unbase t.toNat) := by
  have ht := t.toNat_lt
  have hlt := unbase_lt t.toNat
  apply UInt64.toNat_inj.1
  rw [UInt64.toNat_ofNat', Nat.mod_eq_of_lt (by omega)]
  unfold unbase
  by_cases h : t = 0
  · simp [h]
  · rw [if_pos (by simpa using h), if_neg (by rwa [← eq_zero_iff]),
      toNat_and_two_pow_sub_one _ _ 60 (by decide), UInt64.toNat_add, toNat_uuidTimeInitial]
    omega

/-- The flag of a condenser tells its layout. -/
theorem isCompact_layout (c : UUIDCondenser) :
    c.layout.isCompact = (c.compactCompacted != 0) := by
  unfold UUIDCondenser.layout
  split
  · rename_i h
    simp [Layout.isCompact, h]
  · rename_i h
    simp [Layout.isCompact, not_not.1 h]

/-- **The fields of a decoded condenser** are those of its layout. -/
theorem fieldsOf_eq (expand : NodeExpander) (c : UUIDCondenser) :
    fieldsOf expand c = c.layout.fields expand := by
  have hflag := isCompact_layout c
  cases hL : c.layout with
  | compact t k s =>
      obtain ⟨ht, hk, -⟩ := getters_of_compact hL
      rw [hL, Layout.isCompact] at hflag
      simp only [fieldsOf, ← hflag, if_true, Layout.fields, windowTime_eq, ht, ← hk,
        calculateNode_eq hL]
      rfl
  | expanded t k n =>
      obtain ⟨ht, hk, hn⟩ := getters_of_expanded hL
      rw [hL, Layout.isCompact] at hflag
      simp only [fieldsOf, ← hflag, Layout.fields, ← ht, ← hk, ← hn, UInt64.ofNat_toNat,
        Bool.false_eq_true, if_false, beq_iff_eq]
      by_cases hnode : c.expandedNode &&& multicastBit = 0
      · simp only [hnode, if_true, unbase_eq]
        rfl
      · simp only [hnode, if_false, ite_self, UInt64.ofNat_toNat]
        rfl

/-- **Reading a wire** gives the fields of the layout that was written, whatever follows. -/
theorem uncondense_wire (expand : NodeExpander) (L : Layout) (r : Bytes) :
    uncondense expand (L.wire ++ r) = .ok (L.fields expand) r := by
  obtain ⟨c, hc, hL⟩ := UUIDCondenser.unserialise_wire L r
  have hstep : uncondense expand (L.wire ++ r) = .ok (fieldsOf expand c) r := by
    simp only [uncondense, bind, EStateM.bind, hc]
    rfl
  rw [hstep, fieldsOf_eq, hL]

/-! ### Encoding -/

/-- **Compaction** goes through the compact layout of the salt. -/
theorem crushFields_eq (localNodeHash : Option UInt64) (expand : NodeExpander) (f : Fields) :
    crushFields localNodeHash expand f = (crushLayout f.time.toNat f.clock.toNat
      (crushSalt localNodeHash f.node).toNat).fields expand := by
  have hL := layout_compactCondenser f.time f.clock (crushSalt localNodeHash f.node)
  obtain ⟨ht, hk, -⟩ := getters_of_compact hL
  simp only [crushFields, windowTime_eq, ht, calculateNode_eq hL]
  simp only [crushLayout, Layout.fields, ← hk]
  rfl

/-- The node that `condense` compares with is that of the layout it filled in. -/
theorem compactedNode_eq (expand : NodeExpander) (f : Fields) : compactedNode expand f =
    nodeOf expand (BitVec.ofNat 60 (windowOf f.time.toNat))
      (BitVec.ofNat 14 (f.clock.toNat ^^^ tickOf f.time.toNat)) (BitVec.ofNat 7 f.node.toNat) := by
  have hL := layout_compactCondenser f.time f.clock (f.node &&& saltMask)
  rw [crushLayout, ofNat_and_saltMask] at hL
  exact calculateNode_eq hL expand

/-- The layout that `condense` writes. -/
def layoutOf (expand : NodeExpander) (f : Fields) : Layout :=
  if f.node = compactedNode expand f then
    crushLayout f.time.toNat f.clock.toNat f.node.toNat
  else
    .expanded
      (BitVec.ofNat 60 (if f.node &&& multicastBit = 0 then rebase f.time.toNat else f.time.toNat))
      (BitVec.ofNat 14 f.clock.toNat) (BitVec.ofNat 48 f.node.toNat)

theorem condenserOf_eq (expand : NodeExpander) (f : Fields) :
    condenserOf expand f = (layoutOf expand f).condenser := by
  have hc := compactCondenser_eq f.time f.clock (f.node &&& saltMask)
  rw [crushLayout, ofNat_and_saltMask, ← crushLayout] at hc
  by_cases hnode : f.node = compactedNode expand f
  · simp only [condenserOf, layoutOf, ← hnode, bne_self_eq_false, Bool.false_eq_true, if_false,
      if_true, hc]
  · have htime : (if f.node &&& multicastBit == 0 then
        if f.time != 0 then (f.time - uuidTimeInitial) &&& timeMask else f.time
        else f.time).toNat =
          if f.node &&& multicastBit = 0 then rebase f.time.toNat else f.time.toNat := by
      by_cases hbit : f.node &&& multicastBit = 0
      · simp only [hbit, beq_self_eq_true, if_true, toNat_rebase]
      · simp only [hbit, beq_iff_eq, if_false]
    simp only [condenserOf, layoutOf]
    rw [if_pos (by simpa using hnode), if_neg hnode, hc, crushLayout, setExpanded_eq, htime,
      UInt16.toNat_toUInt64]

/-- **`condense` writes the wire of its layout**, without a fault. -/
theorem condense_eq (expand : NodeExpander) (f : Fields) :
    condense expand f = .ok (layoutOf expand f).wire := by
  rw [condense, condenserOf_eq, Layout.serialise_eq]

/-! ### What survives -/

/-- What is decoded is in range. -/
theorem Layout.fields_inRange (expand : NodeExpander) (L : Layout) : (L.fields expand).InRange := by
  cases L with
  | compact t k s =>
      have hk := k.isLt
      obtain ⟨-, -, hnode⟩ := nodeOf_spec expand t k s
      refine ⟨?_, ?_, hnode⟩
      · simp only [fields, toNat_windowTime]
        exact windowTime_lt t.toNat
      · simp only [fields, UInt16.toNat_ofNat']
        omega
  | expanded t k n =>
      have ht := t.isLt
      have hu := unbase_lt t.toNat
      have hk := k.isLt
      have hn := n.isLt
      refine ⟨?_, ?_, ?_⟩
      · simp only [fields, UInt64.toNat_ofNat']
        split_ifs <;> omega
      · simp only [fields, UInt16.toNat_ofNat']
        omega
      · simp only [fields, UInt64.toNat_ofNat']
        omega

/-- Compacting the fields of a compact layout fills in the layout again, with the time reduced modulo
the number of windows. -/
theorem crushLayout_fields_compact (expand : NodeExpander) (w : BitVec 60) (k : BitVec 14)
    (s : BitVec 7) (salt : ℕ) :
    crushLayout ((Layout.compact w k s).fields expand).time.toNat
        ((Layout.compact w k s).fields expand).clock.toNat salt =
      .compact (BitVec.ofNat 60 (w.toNat % 2 ^ 46)) k (BitVec.ofNat 7 salt) := by
  have hk := k.isLt
  have hclock : (UInt16.ofNat k.toNat).toNat = k.toNat := by
    rw [UInt16.toNat_ofNat', Nat.mod_eq_of_lt (by omega)]
  simp only [crushLayout, Layout.fields, toNat_windowTime, hclock, windowOf_windowTime,
    tickOf_windowTime, Nat.xor_zero, BitVec.ofNat_toNat, BitVec.setWidth_eq]

/-- **Compaction is exact on what it produces**: the fields of a compact layout are encoded as that
layout.  The window has to be one that a time can have. -/
theorem layoutOf_fields_compact (expand : NodeExpander) {w : BitVec 60} (hw : w.toNat < 2 ^ 46)
    (k : BitVec 14) (s : BitVec 7) :
    layoutOf expand ((Layout.compact w k s).fields expand) = .compact w k s := by
  obtain ⟨hsalt, -, -⟩ := nodeOf_spec expand w k s
  have hw' : BitVec.ofNat 60 (w.toNat % 2 ^ 46) = w := by rw [Nat.mod_eq_of_lt hw]; simp
  have hs' : BitVec.ofNat 7 (nodeOf expand w k s).toNat = s := by
    rw [← BitVec.toNat_inj, BitVec.toNat_ofNat, hsalt]
  have hcrush := crushLayout_fields_compact expand w k s (nodeOf expand w k s).toNat
  rw [hw', hs'] at hcrush
  -- the node that is compared with is reconstructed from the same layout
  have hnode : (Layout.compact w k s |>.fields expand).node =
      compactedNode expand (Layout.compact w k s |>.fields expand) := by
    have hfill := hcrush
    rw [crushLayout, hs', Layout.compact.injEq] at hfill
    rw [compactedNode_eq, hfill.1, hfill.2.1]
    exact congrArg (nodeOf expand w k) hs'.symm
  rw [layoutOf, if_pos hnode]
  exact hcrush

theorem layoutOf_fields_crush (expand : NodeExpander) (time clock salt : ℕ) :
    layoutOf expand ((crushLayout time clock salt).fields expand) = crushLayout time clock salt :=
  layoutOf_fields_compact expand (by rw [toNat_windowOf]; exact windowOf_lt time) _ _

/-- **Which fields survive the compact layout**: those at the start of a window, unless the window
is the one at the start of 2016, which is written as no time. -/
theorem fields_layoutOf_compact_iff {expand : NodeExpander} {f : Fields} (hf : f.InRange)
    (hnode : f.node = compactedNode expand f) : (layoutOf expand f).fields expand = f ↔
      tickOf f.time.toNat = 0 ∧ f.time.toNat ≠ initial := by
  obtain ⟨htime, hclock, -⟩ := hf
  have htime_iff : UInt64.ofNat (windowTime (windowOf f.time.toNat)) = f.time ↔
      windowTime (windowOf f.time.toNat) = f.time.toNat := by
    rw [← UInt64.toNat_inj, toNat_windowTime]
  have hnode' : nodeOf expand (BitVec.ofNat 60 (windowOf f.time.toNat))
      (BitVec.ofNat 14 (f.clock.toNat ^^^ tickOf f.time.toNat)) (BitVec.ofNat 7 f.node.toNat) =
        f.node := by
    rw [← compactedNode_eq, ← hnode]
  rw [layoutOf, if_pos hnode, ← windowTime_windowOf_iff htime, ← htime_iff]
  simp only [crushLayout, Layout.fields, toNat_windowOf, hnode']
  constructor
  · intro h
    exact congrArg Fields.time h
  · intro h
    have htick := ((windowTime_windowOf_iff htime).1 (htime_iff.1 h)).1
    have hclock' : UInt16.ofNat (BitVec.ofNat 14 (f.clock.toNat ^^^ tickOf f.time.toNat)).toNat =
        f.clock := by
      rw [htick, Nat.xor_zero, BitVec.toNat_ofNat, Nat.mod_eq_of_lt hclock, UInt16.ofNat_toNat]
    rw [h, hclock']

/-- **Which fields survive the expanded layout**: all but those at the start of 2016 with a node
that is not multicast, whose time is rebased to no time. -/
theorem fields_layoutOf_expanded_iff {expand : NodeExpander} {f : Fields} (hf : f.InRange)
    (hnode : f.node ≠ compactedNode expand f) : (layoutOf expand f).fields expand = f ↔
      f.node &&& multicastBit ≠ 0 ∨ f.time.toNat ≠ initial := by
  obtain ⟨htime, hclock, hnode48⟩ := hf
  have hr := rebase_lt f.time.toNat
  have hu := unbase_lt (rebase f.time.toNat)
  have hclock' : UInt16.ofNat (f.clock.toNat % 2 ^ 14) = f.clock := by
    rw [Nat.mod_eq_of_lt hclock, UInt16.ofNat_toNat]
  have hnode' : UInt64.ofNat (f.node.toNat % 2 ^ 48) = f.node := by
    rw [Nat.mod_eq_of_lt hnode48, UInt64.ofNat_toNat]
  rw [layoutOf, if_neg hnode]
  simp only [Layout.fields, BitVec.toNat_ofNat, hclock', hnode']
  by_cases hbit : f.node &&& multicastBit = 0
  · have htime_iff : UInt64.ofNat (unbase (rebase f.time.toNat)) = f.time ↔
        unbase (rebase f.time.toNat) = f.time.toNat := by
      rw [← UInt64.toNat_inj, UInt64.toNat_ofNat', Nat.mod_eq_of_lt (by omega)]
    simp only [hbit, if_true, Nat.mod_eq_of_lt hr, ne_eq, not_true_eq_false, false_or]
    rw [← ne_eq, ← unbase_rebase_iff htime, ← htime_iff]
    exact ⟨congrArg Fields.time, fun h => by rw [h]⟩
  · simp only [hbit, if_false, Nat.mod_eq_of_lt htime, UInt64.ofNat_toNat, ne_eq, not_false_eq_true,
      true_or]

end Cuuid
