/-
**How ids sort.**

Compaction keeps the window of a time and writes it first, in the canonical bytes of a v6 id and on
the condensed wire.  The canonical bytes therefore sort by window.  On the wire the length is folded
into the first byte, in front of the window, by prefixes that do not grow with the length: the wire
sorts by window inside a length, and across lengths only where the prefixes happen to grow too.
Inside a length this holds of all wires, and of the whole payload.

Main definitions:

* `Cuuid.Fields.Before` — the lexicographic order of time, clock and node;
* `Cuuid.leadOf` — the prefix of the wire of a window.

Main results:

* `Cuuid.serialise_lt_iff` — **inside a length, the wire sorts by payload**;
* `Cuuid.v6_layout` — **the v6 layout is a bijection and keeps the order** of the fields;
* `Cuuid.make_bytes_lt` — **the canonical bytes sort by window**;
* `Cuuid.make_wire_lt_iff` — **when the wire sorts by window**: exactly when the prefix of the later
  window is not below that of the earlier one.
-/

import Cuuid.Dispatch
import Cuuid.Condenser

set_option relaxedAutoImplicit false
set_option autoImplicit false

namespace Cuuid

open BigEndian LengthFold

/-! ### Wires of one length -/

/-- **Inside a length, the wire sorts by payload.**  The wires of two condensers with zero padding,
of either layout, compare as the packed words do when they have the same number of bytes. -/
theorem serialise_lt_iff {c d : UUIDCondenser} (hc : c.ZeroPadding) (hd : d.ZeroPadding) :
    ∃ w x b₀ b₁ d₀ d₁, c.serialise = .ok w ∧ d.serialise = .ok x ∧ c.buffers = .ok (b₀, b₁) ∧
      d.buffers = .ok (d₀, d₁) ∧ (w.length = x.length →
        (w < x ↔ b₀.toNat * 2 ^ 64 + b₁.toNat < d₀.toNat * 2 ^ 64 + d₁.toNat)) := by
  obtain ⟨s, hs, hwire, hserialise⟩ := Layout.serialise_condenser c.layout
  obtain ⟨t, ht, hwire', hserialise'⟩ := Layout.serialise_condenser d.layout
  obtain ⟨b₀, b₁, hbuffers, hpayload⟩ := UUIDCondenser.buffers_of_zeroPadding hc
  obtain ⟨d₀, d₁, hbuffers', hpayload'⟩ := UUIDCondenser.buffers_of_zeroPadding hd
  rw [UUIDCondenser.condenser_layout hc] at hserialise
  rw [UUIDCondenser.condenser_layout hd] at hserialise'
  refine ⟨_, _, b₀, b₁, d₀, d₁, hserialise, hserialise', hbuffers, hbuffers', fun hlen => ?_⟩
  rw [hwire, hwire', Slot.length_wire, Slot.length_wire, Nat.add_right_cancel_iff] at hlen
  have hlead := leads_table s (Table.fit_eq_some_iff.1 hs).1 t (Table.fit_eq_some_iff.1 ht).1 hlen
  rw [hwire, hwire', hpayload, hpayload']
  exact Table.wire_lt_wire_iff_of_fit hs ht hlead

/-- A compact and an expanded condenser, whose wires have four bytes and compare as the words `1` and
`2` do. -/
theorem serialise_lt_four_bytes : UUIDCondenser.serialise ⟨0, 1⟩ = .ok [0x1c, 0, 0, 1] ∧
    UUIDCondenser.serialise ⟨0, 4⟩ = .ok [0x1c, 0, 0, 2] ∧
    UUIDCondenser.buffers ⟨0, 1⟩ = .ok (0, 1) ∧ UUIDCondenser.buffers ⟨0, 4⟩ = .ok (0, 2) ∧
    ([0x1c, 0, 0, 1] : Bytes) < [0x1c, 0, 0, 2] := by
  have hserialise : UUIDCondenser.serialise ⟨0, 1⟩ = .ok [0x1c, 0, 0, 1] := rfl
  have hserialise' : UUIDCondenser.serialise ⟨0, 4⟩ = .ok [0x1c, 0, 0, 2] := rfl
  have hbuffers : UUIDCondenser.buffers ⟨0, 1⟩ = .ok (0, 1) := rfl
  have hbuffers' : UUIDCondenser.buffers ⟨0, 4⟩ = .ok (0, 2) := rfl
  obtain ⟨w, x, b₀, b₁, d₀, d₁, hw, hx, hb, hd, hlt⟩ :=
    serialise_lt_iff (c := ⟨0, 1⟩) (d := ⟨0, 4⟩) (by decide) (by decide)
  rw [hserialise, Except.ok.injEq] at hw
  rw [hserialise', Except.ok.injEq] at hx
  rw [hbuffers, Except.ok.injEq, Prod.mk.injEq] at hb
  rw [hbuffers', Except.ok.injEq, Prod.mk.injEq] at hd
  obtain ⟨rfl, rfl⟩ := hb
  obtain ⟨rfl, rfl⟩ := hd
  subst hw hx
  exact ⟨hserialise, hserialise', hbuffers, hbuffers', (hlt rfl).2 (by decide)⟩

/-! ### Windows since 2016 -/

/-- The window of a time from 2016 on, as a shift. -/
theorem windowOf_eq_shift {t : UInt64} (h : uuidTimeInitial ≤ t) (ht : t.toNat < 2 ^ 60) :
    windowOf t.toNat = ((t - uuidTimeInitial) >>> 14).toNat := by
  have hle := (initial_le_iff t).1 h
  have hshift : ((t - uuidTimeInitial) >>> 14).toNat = (t - uuidTimeInitial).toNat / 2 ^ 14 :=
    BitField.toNat_shiftRight_ofNat _ 14 (by decide)
  rw [hshift, UInt64.toNat_sub_of_le _ _ h, toNat_uuidTimeInitial, windowOf, rebase_of_le hle ht]

/-- A window since 2016 does not wrap. -/
theorem window_no_wrap {t : UInt64} (h : uuidTimeInitial ≤ t) (ht : t.toNat < 2 ^ 60) :
    windowOf t.toNat * 2 ^ 14 + initial < 2 ^ 60 := by
  have hle := (initial_le_iff t).1 h
  rw [windowOf, rebase_of_le hle ht]
  omega

/-! ### The canonical bytes -/

/-- The lexicographic order of time, clock and node. -/
def Fields.Before (f g : Fields) : Prop :=
  f.time < g.time ∨ f.time = g.time ∧ (f.clock < g.clock ∨ f.clock = g.clock ∧ f.node < g.node)

/-- The number that the canonical bytes write has the time in front, then the clock, then the
node. -/
theorem v6Number_lt_iff {f g : Fields} (hf : f.InRange) (hg : g.InRange) :
    v6Number f < v6Number g ↔ f.Before g := by
  obtain ⟨hft, hfk, hfn⟩ := hf
  obtain ⟨hgt, hgk, hgn⟩ := hg
  simp only [Fields.Before, v6Number, UInt64.lt_iff_toNat_lt, UInt16.lt_iff_toNat_lt,
    ← UInt64.toNat_inj, ← UInt16.toNat_inj]
  omega

/-- The canonical bytes compare as the fields do. -/
theorem toV6Bytes_lt_iff {f g : Fields} (hf : f.InRange) (hg : g.InRange) :
    (toV6Bytes f).toList < (toV6Bytes g).toList ↔ f.Before g := by
  rw [toList_toV6Bytes, toList_toV6Bytes, toBytes_lt_toBytes_iff (v6Number_lt _) (v6Number_lt _),
    v6Number_lt_iff hf hg]

/-- **The v6 layout is a bijection and keeps the order.**  Fields in range are read back from the
bytes that they are stored in, bytes of version 6 and the RFC-4122 variant are stored back from the
fields that are read off them, and the bytes compare as time, clock and node do. -/
theorem v6_layout : (∀ f : Fields, f.InRange → fromV6Bytes (toV6Bytes f) = f) ∧
    (∀ b : Vector UInt8 16, b.get 6 >>> 4 = 6 → b.get 8 >>> 6 = 2 →
      toV6Bytes (fromV6Bytes b) = b) ∧
    ∀ f g : Fields, f.InRange → g.InRange →
      ((toV6Bytes f).toList < (toV6Bytes g).toList ↔ f.Before g) := by
  refine ⟨fun f hf => fromV6Bytes_toV6Bytes hf, fun b hversion hvariant => ?_,
    fun f g hf hg => toV6Bytes_lt_iff hf hg⟩
  -- the two top bits are the variant that the class reads with its mask
  have hmask : (UUID.mk b).uuidVariant = 0x80 := by
    have htop := congrArg UInt8.toNat hvariant
    rw [UInt8.toNat_shiftRight, Nat.shiftRight_eq_div_pow] at htop
    apply UInt8.toNat_inj.1
    rw [UUID.toNat_uuidVariant]
    exact congrArg (· * 2 ^ 6) htop
  exact toV6Bytes_fromV6Bytes (u := ⟨b⟩) ((UUID.isRfc_iff _ 6).2 ⟨hmask, hversion⟩)

/-- **The canonical bytes of v6 ids sort by window**, whatever the clocks and the nodes are. -/
theorem make_bytes_lt (lnh₁ lnh₂ : Option UInt64) (f₁ f₂ : Fields)
    (h₁ : uuidTimeInitial ≤ f₁.time) (h₁₂ : f₁.time < f₂.time) (h₂ : f₂.time.toNat < 2 ^ 60)
    (hw : (f₁.time - uuidTimeInitial) >>> 14 ≠ (f₂.time - uuidTimeInitial) >>> 14) :
    (V6.make lnh₁ f₁).bytes.toList < (V6.make lnh₂ f₂).bytes.toList := by
  have hlt := UInt64.lt_iff_toNat_lt.1 h₁₂
  have h₂' : uuidTimeInitial ≤ f₂.time := UInt64.le_trans h₁ (UInt64.le_of_lt h₁₂)
  have hw₁ := windowOf_eq_shift h₁ (by omega)
  have hw₂ := windowOf_eq_shift h₂' h₂
  have hle : windowOf f₁.time.toNat ≤ windowOf f₂.time.toNat := by
    have hi₁ := (initial_le_iff f₁.time).1 h₁
    rw [windowOf, windowOf, rebase_of_le hi₁ (by omega), rebase_of_le (by omega) h₂]
    omega
  have hne : windowOf f₁.time.toNat ≠ windowOf f₂.time.toNat := by
    intro heq
    rw [hw₁, hw₂] at heq
    exact hw (UInt64.toNat_inj.1 heq)
  rw [V6.make_eq, V6.make_eq]
  simp only [V6.ofLayout, V6.fromFields]
  rw [toV6Bytes_lt_iff (Layout.fields_inRange _ _) (Layout.fields_inRange _ _)]
  -- the times differ already
  left
  have hmono := windowTime_lt_windowTime (lt_of_le_of_ne hle hne) (window_no_wrap h₂' h₂)
  simp only [crushLayout, Layout.fields, toNat_windowOf, UInt64.lt_iff_toNat_lt, toNat_windowTime]
  exact hmono

/-- The bytes sort across the first window, whose time is written as zero. -/
theorem make_bytes_lt_first_window :
    (V6.make none ⟨uuidTimeInitial + 1, 0x3fff, 0x1234⟩).bytes.toList <
      (V6.make (some 9) ⟨uuidTimeInitial + 0x4000, 0, multicastBit⟩).bytes.toList :=
  make_bytes_lt none (some 9) _ _ (by decide) (by decide) (by decide) (by decide)

/-! ### The wire -/

/-- The prefix of the wire of a window: the least first byte of the slot that holds it. -/
def leadOf (w : ℕ) : ℕ :=
  if w < 2 ^ 4 then 0x1c
  else if w < 2 ^ 12 then 0x18
  else if w < 2 ^ 20 then 0x14
  else if w < 2 ^ 28 then 0x10
  else if w < 2 ^ 36 then 0x04
  else if w < 2 ^ 40 then 0x40
  else if w < 2 ^ 43 then 0x0a
  else 0xa0

/-- A window whose numbers lie between the slots below and the end of a slot is held by it. -/
theorem fit_band (i : ℕ) (q : Bool) (lo hi : ℕ) (hrow : i < 13)
    (hlo : ∀ t ∈ vlTable.slots, t.cap < (vlSlot i q).cap → t.cap ≤ lo * 2 ^ 22)
    (hhi : (vlSlot i q).cap = hi * 2 ^ 22) {w rest : ℕ} (hge : lo ≤ w) (hlt : w < hi)
    (hrest : rest < 2 ^ 22) : vlTable.fit (w * 2 ^ 22 + rest) = some (vlSlot i q) :=
  fit_of_le (vlSlot_mem i hrow q) hlo (by omega) (by omega)

/-- The number of bytes behind the first one in the wire of a window. -/
def extraOf (w : ℕ) : ℕ :=
  if w < 2 ^ 4 then 3
  else if w < 2 ^ 12 then 4
  else if w < 2 ^ 20 then 5
  else if w < 2 ^ 28 then 6
  else if w < 2 ^ 40 then 7
  else 8

/-- **The slot of a compact number** has the prefix and the length of its time, up to 47 bits. -/
theorem fit_compact {w rest : ℕ} (hw : w < 2 ^ 47) (hrest : rest < 2 ^ 22) :
    ∃ s, vlTable.fit (w * 2 ^ 22 + rest) = some s ∧ s.lead = leadOf w ∧ s.extra = extraOf w := by
  unfold leadOf extraOf
  split_ifs with h₀ h₁ h₂ h₃ h₄ h₅ h₆ h₇
  · exact ⟨_, fit_band 0 false 0 (2 ^ 4) (by decide) (by decide +kernel) (by decide) (by omega) h₀
      hrest, rfl, rfl⟩
  · exact ⟨_, fit_band 1 false (2 ^ 4) (2 ^ 12) (by decide) (by decide +kernel) (by decide)
      (by omega) h₁ hrest, rfl, rfl⟩
  · exact ⟨_, fit_band 2 false (2 ^ 12) (2 ^ 20) (by decide) (by decide +kernel) (by decide)
      (by omega) h₂ hrest, rfl, rfl⟩
  · exact ⟨_, fit_band 3 false (2 ^ 20) (2 ^ 28) (by decide) (by decide +kernel) (by decide)
      (by omega) h₃ hrest, rfl, rfl⟩
  · exact ⟨_, fit_band 4 false (2 ^ 28) (2 ^ 36) (by decide) (by decide +kernel) (by decide)
      (by omega) h₄ hrest, rfl, rfl⟩
  · omega
  · exact ⟨_, fit_band 4 true (2 ^ 36) (2 ^ 40) (by decide) (by decide +kernel) (by decide)
      (by omega) h₆ hrest, rfl, rfl⟩
  · exact ⟨_, fit_band 5 false (2 ^ 40) (2 ^ 43) (by decide) (by decide +kernel) (by decide)
      (by omega) h₇ hrest, rfl, rfl⟩
  · exact ⟨_, fit_band 5 true (2 ^ 43) (2 ^ 47) (by decide) (by decide +kernel) (by decide)
      (by omega) hw hrest, rfl, rfl⟩

/-- **The slot of a compaction has the prefix of its window.** -/
theorem fit_window {w rest : ℕ} (hw : w < 2 ^ 46) (hrest : rest < 2 ^ 22) :
    ∃ s, vlTable.fit (w * 2 ^ 22 + rest) = some s ∧ s.lead = leadOf w := by
  obtain ⟨s, hfit, hlead, -⟩ := fit_compact (by omega : w < 2 ^ 47) hrest
  exact ⟨s, hfit, hlead⟩

/-- The payload of a compaction: the window, and 22 bits for the rest. -/
theorem payload_crushLayout (time clock salt : ℕ) : ∃ rest < 2 ^ 22,
    (crushLayout time clock salt).payload = windowOf time * 2 ^ 22 + rest := by
  have hk := (BitVec.ofNat 14 (clock ^^^ tickOf time)).isLt
  have hs := (BitVec.ofNat 7 salt).isLt
  refine ⟨(BitVec.ofNat 14 (clock ^^^ tickOf time)).toNat * 2 ^ 8 +
    (BitVec.ofNat 7 salt).toNat * 2 ^ 1 + 1, by omega, ?_⟩
  simp only [crushLayout, Layout.payload, toNat_windowOf]
  ring

theorem window_first {w₁ w₂ r₁ r₂ : ℕ} (hw : w₁ < w₂) (hr : r₁ < 2 ^ 22) :
    w₁ * 2 ^ 22 + r₁ < w₂ * 2 ^ 22 + r₂ := by
  omega

/-- **Wires of compactions** in different windows compare as the prefixes of the windows, when these
differ, and else as the windows. -/
theorem crush_wire_lt_iff {t₁ t₂ : ℕ} (c₁ c₂ s₁ s₂ : ℕ) (h : windowOf t₁ < windowOf t₂) :
    (crushLayout t₁ c₁ s₁).wire < (crushLayout t₂ c₂ s₂).wire ↔
      leadOf (windowOf t₁) ≤ leadOf (windowOf t₂) := by
  obtain ⟨r₁, hr₁, hP₁⟩ := payload_crushLayout t₁ c₁ s₁
  obtain ⟨r₂, hr₂, hP₂⟩ := payload_crushLayout t₂ c₂ s₂
  obtain ⟨a, hfit₁, hlead₁⟩ := fit_window (windowOf_lt t₁) hr₁
  obtain ⟨b, hfit₂, hlead₂⟩ := fit_window (windowOf_lt t₂) hr₂
  obtain ⟨ha, hroom₁, -⟩ := Table.fit_eq_some_iff.1 hfit₁
  obtain ⟨hb, hroom₂, -⟩ := Table.fit_eq_some_iff.1 hfit₂
  have hwire₁ : (crushLayout t₁ c₁ s₁).wire = a.wire (windowOf t₁ * 2 ^ 22 + r₁) := by
    rw [Layout.wire, hP₁, hfit₁]
  have hwire₂ : (crushLayout t₂ c₂ s₂).wire = b.wire (windowOf t₂ * 2 ^ 22 + r₂) := by
    rw [Layout.wire, hP₂, hfit₂]
  rw [hwire₁, hwire₂, Table.wire_lt_wire_iff ha hb hroom₁ hroom₂, hlead₁, hlead₂]
  constructor
  · rintro (hlt | ⟨rfl, -⟩)
    · exact hlt.le
    · rw [← hlead₁, ← hlead₂]
  · intro hle
    rcases hle.lt_or_eq with hlt | heq
    · exact Or.inl hlt
    · -- one prefix belongs to one slot
      have hlead : b.lead = a.lead := by rw [hlead₁, hlead₂, heq]
      have hcover : b.Covers a.lead := hlead ▸ Slot.covers_lead hroom₂
      exact Or.inr ⟨Table.eq_of_covers ha hb (Slot.covers_lead hroom₁) hcover,
        window_first h hr₁⟩

/-- **When the wire sorts by time.**  For times from 2016 on in different windows, and any clocks
and nodes, the wire of the earlier compacted id is smaller exactly when the prefix of its window is
not above that of the later one. -/
theorem make_wire_lt_iff (lnh₁ lnh₂ : Option UInt64) (f₁ f₂ : Fields)
    (h₁ : uuidTimeInitial ≤ f₁.time) (h₁₂ : f₁.time < f₂.time) (h₂ : f₂.time.toNat < 2 ^ 60)
    (hw : (f₁.time - uuidTimeInitial) >>> 14 < (f₂.time - uuidTimeInitial) >>> 14) :
    ∃ w₁ w₂, V6.serialise (V6.make lnh₁ f₁) = .ok w₁ ∧ V6.serialise (V6.make lnh₂ f₂) = .ok w₂ ∧
      (w₁ < w₂ ↔ leadOf ((f₁.time - uuidTimeInitial) >>> 14).toNat ≤
        leadOf ((f₂.time - uuidTimeInitial) >>> 14).toNat) := by
  have hlt := UInt64.lt_iff_toNat_lt.1 h₁₂
  have hw₁ := windowOf_eq_shift h₁ (by omega)
  have hw₂ := windowOf_eq_shift (UInt64.le_trans h₁ (UInt64.le_of_lt h₁₂)) h₂
  have hwindow : windowOf f₁.time.toNat < windowOf f₂.time.toNat := by
    rw [hw₁, hw₂]
    exact UInt64.lt_iff_toNat_lt.1 hw
  refine ⟨_, _, V6.serialise_make lnh₁ f₁, V6.serialise_make lnh₂ f₂, ?_⟩
  rw [crush_wire_lt_iff _ _ _ _ hwindow, hw₁, hw₂]

/-- From the seventeenth window on the wire has five bytes, and a smaller prefix. -/
theorem make_wire_not_sorted : ¬ ∀ (f₁ f₂ : Fields) (w₁ w₂ : Bytes),
    uuidTimeInitial ≤ f₁.time → f₁.time < f₂.time → f₂.time.toNat < 2 ^ 60 →
    (f₁.time - uuidTimeInitial) >>> 14 < (f₂.time - uuidTimeInitial) >>> 14 →
    V6.serialise (V6.make none f₁) = .ok w₁ → V6.serialise (V6.make none f₂) = .ok w₂ →
    w₁ < w₂ := by
  intro h
  have hlt := h ⟨uuidTimeInitial + 5 * 0x4000, 0, multicastBit⟩
    ⟨uuidTimeInitial + 16 * 0x4000, 0, multicastBit⟩ [29, 64, 0, 1] [24, 4, 0, 0, 1]
    (by decide) (by decide) (by decide) (by decide) rfl rfl
  exact absurd hlt (by decide)

/-- Two ids of 2020, which have wires of one length, sort by time. -/
theorem make_wire_lt_same_length :
    ∃ w₁ w₂, V6.serialise (V6.make none ⟨uuidTimeInitial + 0x4800000000000, 5, 0x1234⟩) = .ok w₁ ∧
      V6.serialise (V6.make none ⟨uuidTimeInitial + 0x5800000000000, 0, multicastBit⟩) = .ok w₂ ∧
      w₁ < w₂ := by
  obtain ⟨w₁, w₂, hw₁, hw₂, hsorted⟩ := make_wire_lt_iff none none
    ⟨uuidTimeInitial + 0x4800000000000, 5, 0x1234⟩
    ⟨uuidTimeInitial + 0x5800000000000, 0, multicastBit⟩ (by decide) (by decide) (by decide)
    (by decide)
  exact ⟨w₁, w₂, hw₁, hw₂, hsorted.2 (by decide)⟩

end Cuuid
