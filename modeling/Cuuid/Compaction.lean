/-
**What compaction does to a UUID.**

Compaction moves the time back to the start of its window, folds the tick into the clock and
replaces the node by one that is reconstructed from the rest.  This module says how far the time
moves, that distinct times stay distinct under one clock, and that a second compaction does nothing.

Main definitions:

* `Cuuid.Codec.crush` — the compaction of a codec.

Main results:

* `Cuuid.crushFields_time_iff` — **when compaction moves a time by less than a window**;
* `Cuuid.crush_ne` — **compaction keeps ids of one process apart**;
* `Cuuid.crush_idem` — **compaction is idempotent** and leaves everything else alone.
-/

import Cuuid.Dispatch

set_option relaxedAutoImplicit false
set_option autoImplicit false

namespace Cuuid

/-! ### The time -/

/-- The time that `crush_fields` returns is that of the window. -/
theorem toNat_time_crushFields (localNodeHash : Option UInt64) (expand : NodeExpander) (f : Fields) :
    (crushFields localNodeHash expand f).time.toNat = windowTime (windowOf f.time.toNat) := by
  rw [crushFields_eq]
  simp only [crushLayout, Layout.fields, toNat_windowOf, toNat_windowTime]

/-- **When compaction moves a time by less than a window**: always, except in the window at the
start of 2016, which is written as no time, and in the first 2048 ticks, which belong to the window
that wraps around. -/
theorem crushFields_time_iff (localNodeHash : Option UInt64) (expand : NodeExpander) {f : Fields}
    (hpos : 0 < f.time) (htime : f.time.toNat < 2 ^ 60) :
    (crushFields localNodeHash expand f).time ≤ f.time ∧
        f.time - (crushFields localNodeHash expand f).time < 0x4000 ↔
      2048 ≤ f.time ∧ ¬ (uuidTimeInitial ≤ f.time ∧ f.time < uuidTimeInitial + 0x4000) := by
  have hcrush := toNat_time_crushFields localNodeHash expand f
  generalize (crushFields localNodeHash expand f).time = t at hcrush ⊢
  have hclose := windowTime_close_iff (UInt64.lt_iff_toNat_lt.1 hpos) htime
  rw [← hcrush] at hclose
  have hend : (uuidTimeInitial + 0x4000).toNat = initial + 2 ^ 14 := by decide
  have hfirst : (2048 : UInt64).toNat = 2048 := rfl
  have hwidth : (0x4000 : UInt64).toNat = 2 ^ 14 := rfl
  rw [initial_le_iff, UInt64.le_iff_toNat_le, UInt64.le_iff_toNat_le, UInt64.lt_iff_toNat_lt,
    UInt64.lt_iff_toNat_lt, hend, hfirst, hwidth, ← hclose]
  constructor
  · rintro ⟨hle, hlt⟩
    rw [UInt64.toNat_sub_of_le _ _ (UInt64.le_iff_toNat_le.2 hle)] at hlt
    exact ⟨hle, hlt⟩
  · rintro ⟨hle, hlt⟩
    rw [UInt64.toNat_sub_of_le _ _ (UInt64.le_iff_toNat_le.2 hle)]
    exact ⟨hle, hlt⟩

/-- A time of 2020 is moved back by less than a window. -/
theorem crushFields_time_2020 :
    (crushFields none expandSplitmix ⟨uuidTimeInitial + 0x4800000000001, 5, 0x1234⟩).time ≤
        uuidTimeInitial + 0x4800000000001 ∧
      uuidTimeInitial + 0x4800000000001 -
        (crushFields none expandSplitmix ⟨uuidTimeInitial + 0x4800000000001, 5, 0x1234⟩).time <
          0x4000 :=
  (crushFields_time_iff none expandSplitmix (f := ⟨_, 5, 0x1234⟩) (by decide) (by decide)).2
    (by decide)

/-- The start of 2016 is moved to no time. -/
theorem crushFields_time_not_close : ¬ ∀ (localNodeHash : Option UInt64) (expand : NodeExpander)
    (f : Fields), 0 < f.time → f.time.toNat < 2 ^ 60 →
    (crushFields localNodeHash expand f).time ≤ f.time ∧
      f.time - (crushFields localNodeHash expand f).time < 0x4000 := by
  intro h
  have hzero : (crushFields none expandSplitmix ⟨uuidTimeInitial, 0, 0⟩).time = 0 := rfl
  have hclose := (h none expandSplitmix ⟨uuidTimeInitial, 0, 0⟩ (by decide) (by decide)).2
  rw [hzero] at hclose
  exact absurd hclose (by decide)

/-! ### The UUID -/

namespace Codec

/-- The compaction of a codec. -/
def crush : Codec → Option UInt64 → UUID → UUID
  | v1, localNodeHash, u => u.compactCrush localNodeHash
  | v6, localNodeHash, u => V6.make localNodeHash (fromV6Bytes u.bytes)

/-- Compaction builds the UUID of a compact layout, under either codec. -/
theorem crush_eq (codec : Codec) (localNodeHash : Option UInt64) {u : UUID}
    (hu : u.isRfc codec.version = true) : codec.crush localNodeHash u =
      codec.ofLayout (crushLayout (codec.fields u).time.toNat (codec.fields u).clock.toNat
        (crushSalt localNodeHash (codec.fields u).node).toNat) := by
  cases codec with
  | v1 => exact UUID.compactCrush_eq localNodeHash hu
  | v6 => exact V6.make_eq localNodeHash _

/-- The layout that a compact UUID is compacted to: its own, with the time reduced modulo the number
of windows. -/
theorem crush_ofLayout (codec : Codec) (localNodeHash : Option UInt64) (t : BitVec 60)
    (k : BitVec 14) (s : BitVec 7) :
    codec.crush localNodeHash (codec.ofLayout (.compact t k s)) =
      codec.ofLayout (.compact (BitVec.ofNat 60 (t.toNat % 2 ^ 46)) k s) := by
  obtain ⟨hsalt, hbit, -⟩ := nodeOf_spec codec.expand t k s
  -- the node is multicast, so that the salt is read back from it
  have hread : (crushSalt localNodeHash (nodeOf codec.expand t k s)).toNat = s.toNat := by
    rw [crushSalt, if_pos (bne_iff_ne.2 hbit), BitField.toNat_and_two_pow_sub_one _ _ 7 (by decide),
      hsalt]
  rw [crush_eq codec localNodeHash (isRfc_ofLayout codec _), fields_ofLayout,
    crushLayout_fields_compact]
  simp only [Layout.fields, hread, BitVec.ofNat_toNat, BitVec.setWidth_eq]

/-- What a compaction has built is compacted to itself. -/
theorem crush_ofLayout_crushLayout (codec : Codec) (localNodeHash : Option UInt64)
    (time clock salt : ℕ) :
    codec.crush localNodeHash (codec.ofLayout (crushLayout time clock salt)) =
      codec.ofLayout (crushLayout time clock salt) := by
  have hw := windowOf_lt time
  rw [crushLayout, crush_ofLayout, toNat_windowOf, Nat.mod_eq_of_lt hw]

/-- The layout is not lost. -/
theorem ofLayout_crushLayout_ne (codec : Codec) {time₁ clock₁ salt₁ time₂ clock₂ salt₂ : ℕ}
    (h : crushLayout time₁ clock₁ salt₁ ≠ crushLayout time₂ clock₂ salt₂) :
    codec.ofLayout (crushLayout time₁ clock₁ salt₁) ≠
      codec.ofLayout (crushLayout time₂ clock₂ salt₂) := by
  intro heq
  have hsame := congrArg codec.layout heq
  rw [layout_ofLayout_crushLayout, layout_ofLayout_crushLayout] at hsame
  exact h hsame

end Codec

/-- **Compaction keeps ids of one process apart.**  Under one clock, distinct times give distinct
v6 ids with distinct condensed wires, whatever the nodes are, and so do version-1 UUIDs with these
times and this clock once they are compacted. -/
theorem crush_ne (lnh₁ lnh₂ : Option UInt64) {clock : UInt16} (hclock : clock.toNat < 2 ^ 14)
    {t₁ t₂ : UInt64} (h₁ : 1 ≤ t₁) (h₂ : 1 ≤ t₂) (h₁' : t₁.toNat < 2 ^ 60) (h₂' : t₂.toNat < 2 ^ 60)
    (hne : t₁ ≠ t₂) :
    (∀ n₁ n₂ : UInt64,
      V6.make lnh₁ ⟨t₁, clock, n₁⟩ ≠ V6.make lnh₂ ⟨t₂, clock, n₂⟩ ∧
      ∃ w₁ w₂, V6.serialise (V6.make lnh₁ ⟨t₁, clock, n₁⟩) = .ok w₁ ∧
        V6.serialise (V6.make lnh₂ ⟨t₂, clock, n₂⟩) = .ok w₂ ∧ w₁ ≠ w₂) ∧
    ∀ u v : UUID, u.isRfc 1 = true → v.isRfc 1 = true → u.uuid1Time = t₁ → v.uuid1Time = t₂ →
      u.uuid1ClockSeq = clock → v.uuid1ClockSeq = clock →
      u.compactCrush lnh₁ ≠ v.compactCrush lnh₂ ∧
      ∃ w₁ w₂, (u.compactCrush lnh₁).serialise = .ok w₁ ∧
        (v.compactCrush lnh₂).serialise = .ok w₂ ∧ w₁ ≠ w₂ := by
  have hpos : ∀ t : UInt64, 1 ≤ t → 0 < t.toNat := by
    intro t ht
    exact UInt64.le_iff_toNat_le.1 ht
  have hlayout : ∀ s₁ s₂ : ℕ,
      crushLayout t₁.toNat clock.toNat s₁ ≠ crushLayout t₂.toNat clock.toNat s₂ := by
    intro s₁ s₂ heq
    exact hne (UInt64.toNat_inj.1
      (time_eq_of_crushLayout_eq hclock (hpos t₁ h₁) (hpos t₂ h₂) h₁' h₂' heq))
  constructor
  · intro n₁ n₂
    refine ⟨?_, _, _, V6.serialise_make lnh₁ _, V6.serialise_make lnh₂ _,
      Layout.wire_injective.ne (hlayout _ _)⟩
    rw [V6.make_eq, V6.make_eq]
    exact Codec.ofLayout_crushLayout_ne .v6 (hlayout _ _)
  · intro u v hu hv hut hvt huc hvc
    have hlayout' : crushLayout u.uuid1Time.toNat u.uuid1ClockSeq.toNat
          (crushSalt lnh₁ u.uuid1Node).toNat ≠
        crushLayout v.uuid1Time.toNat v.uuid1ClockSeq.toNat
          (crushSalt lnh₂ v.uuid1Node).toNat := by
      rw [hut, hvt, huc, hvc]
      exact hlayout _ _
    refine ⟨?_, _, _, UUID.serialise_compactCrush lnh₁ hu, UUID.serialise_compactCrush lnh₂ hv,
      Layout.wire_injective.ne hlayout'⟩
    rw [UUID.compactCrush_eq lnh₁ hu, UUID.compactCrush_eq lnh₂ hv]
    exact Codec.ofLayout_crushLayout_ne .v1 hlayout'

/-- Two times of one window, with nodes that have the same salt. -/
theorem crush_ne_same_window :
    V6.make none ⟨uuidTimeInitial + 0x4001, 7, multicastBit⟩ ≠
      V6.make none ⟨uuidTimeInitial + 0x4002, 7, multicastBit + 0x80⟩ :=
  ((crush_ne none none (show (7 : UInt16).toNat < 2 ^ 14 by decide)
    (show 1 ≤ uuidTimeInitial + 0x4001 by decide) (show 1 ≤ uuidTimeInitial + 0x4002 by decide)
    (by decide) (by decide) (by decide)).1 multicastBit (multicastBit + 0x80)).1

/-- **Compaction is idempotent** for a local node hash that stays the same, keeps the version and the
variant, and only changes version-1 UUIDs of the RFC-4122 variant.  Building a v6 id of any time,
clock and node, and again of the fields of that id, gives the same id. -/
theorem crush_idem (localNodeHash : Option UInt64) :
    (∀ u : UUID, (u.compactCrush localNodeHash).compactCrush localNodeHash =
        u.compactCrush localNodeHash ∧
      (u.compactCrush localNodeHash).uuidVersion = u.uuidVersion ∧
      (u.compactCrush localNodeHash).uuidVariant = u.uuidVariant ∧
      (u.isRfc 1 = false → u.compactCrush localNodeHash = u)) ∧
    ∀ f : Fields, V6.make localNodeHash (fromV6Bytes (V6.make localNodeHash f).bytes) =
      V6.make localNodeHash f := by
  constructor
  · intro u
    by_cases hu : u.isRfc 1 = true
    · have hcrush := UUID.compactCrush_eq localNodeHash hu
      have hrfc : (u.compactCrush localNodeHash).isRfc 1 = true := by
        rw [hcrush]
        exact UUID.isRfc_ofLayout _
      obtain ⟨hvariant, hversion⟩ := (UUID.isRfc_iff _ _).1 hu
      obtain ⟨hvariant', hversion'⟩ := (UUID.isRfc_iff _ _).1 hrfc
      refine ⟨?_, hversion'.trans hversion.symm, hvariant'.trans hvariant.symm, fun hnot => ?_⟩
      · rw [hcrush]
        exact Codec.crush_ofLayout_crushLayout .v1 localNodeHash _ _ _
      · rw [hnot] at hu
        exact absurd hu (by decide)
    · have hid : u.compactCrush localNodeHash = u := by
        rw [UUID.compactCrush, if_neg hu]
      rw [hid]
      exact ⟨hid, rfl, rfl, fun _ => rfl⟩
  · intro f
    rw [V6.make_eq localNodeHash f]
    exact Codec.crush_ofLayout_crushLayout .v6 localNodeHash _ _ _

end Cuuid
