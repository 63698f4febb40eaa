/-
**The compacted ids.**

Compaction keeps three things of an id: the window of its time, the clock sequence with the tick
inside the window folded into it, and a salt of the node.  This module says that it keeps nothing
else: two ids are compacted to the same one, and have the same wire then, exactly when these three
agree.  So the compacted ids of a version can be counted, and an id of which the clock sequence of
its process is known gives its time back.

Main definitions:

* `Cuuid.Codec.Compacted` — the ids of a version that compaction leaves alone;
* `Cuuid.claimedTime` — the time that an id was made for, from the clock sequence of its process.

Main results:

* `Cuuid.crush_eq_iff` — **what compaction keeps**;
* `Cuuid.compacted_count` — **there are `2 ^ 67` compacted ids** of either version, and they have
  the same wires;
* `Cuuid.claimedTime_make_iff` — **the time can be recovered**, outside the first window.
-/

import Mathlib.SetTheory.Cardinal.Finite
import Mathlib.Data.Set.Card
import Cuuid.Compaction
import Cuuid.SharedWire

set_option relaxedAutoImplicit false
set_option autoImplicit false

namespace Cuuid

/-! ### What compaction keeps -/

/-- A salt has seven bits. -/
theorem crushSalt_lt (localNodeHash : Option UInt64) (node : UInt64) :
    (crushSalt localNodeHash node).toNat < 2 ^ 7 := by
  have hmask : ∀ x : UInt64, (x &&& saltMask).toNat < 2 ^ 7 := by
    intro x
    rw [BitField.toNat_and_two_pow_sub_one x _ 7 (by decide)]
    exact Nat.mod_lt _ (by decide)
  unfold crushSalt
  split_ifs
  · exact hmask _
  · exact hmask _

/-- Two compactions fill in one layout when the window, the folded clock and the salt agree. -/
theorem crushLayout_eq_iff {t₁ t₂ k₁ k₂ s₁ s₂ : ℕ} (hk₁ : k₁ < 2 ^ 14) (hk₂ : k₂ < 2 ^ 14)
    (hs₁ : s₁ < 2 ^ 7) (hs₂ : s₂ < 2 ^ 7) : crushLayout t₁ k₁ s₁ = crushLayout t₂ k₂ s₂ ↔
      windowOf t₁ = windowOf t₂ ∧ k₁ ^^^ tickOf t₁ = k₂ ^^^ tickOf t₂ ∧ s₁ = s₂ := by
  rw [crushLayout, crushLayout, Layout.compact.injEq, ← BitVec.toNat_inj, ← BitVec.toNat_inj,
    ← BitVec.toNat_inj, toNat_windowOf, toNat_windowOf, BitVec.toNat_ofNat, BitVec.toNat_ofNat,
    BitVec.toNat_ofNat, BitVec.toNat_ofNat,
    Nat.mod_eq_of_lt (Nat.xor_lt_two_pow hk₁ (tickOf_lt t₁)),
    Nat.mod_eq_of_lt (Nat.xor_lt_two_pow hk₂ (tickOf_lt t₂)), Nat.mod_eq_of_lt hs₁,
    Nat.mod_eq_of_lt hs₂]

/-- Under one clock, the layout that a compaction fills in tells the time and the salt. -/
theorem crushLayout_eq_iff_of_clock {clock t₁ t₂ s₁ s₂ : ℕ} (hclock : clock < 2 ^ 14)
    (h₁ : 0 < t₁) (h₂ : 0 < t₂) (h₁' : t₁ < 2 ^ 60) (h₂' : t₂ < 2 ^ 60) (hs₁ : s₁ < 2 ^ 7)
    (hs₂ : s₂ < 2 ^ 7) :
    crushLayout t₁ clock s₁ = crushLayout t₂ clock s₂ ↔ t₁ = t₂ ∧ s₁ = s₂ := by
  constructor
  · intro h
    exact ⟨time_eq_of_crushLayout_eq hclock h₁ h₂ h₁' h₂' h,
      ((crushLayout_eq_iff hclock hclock hs₁ hs₂).1 h).2.2⟩
  · rintro ⟨rfl, rfl⟩
    rfl

namespace Codec

theorem ofLayout_crushLayout_inj (codec : Codec) {t₁ t₂ k₁ k₂ s₁ s₂ : ℕ} :
    codec.ofLayout (crushLayout t₁ k₁ s₁) = codec.ofLayout (crushLayout t₂ k₂ s₂) ↔
      crushLayout t₁ k₁ s₁ = crushLayout t₂ k₂ s₂ := by
  constructor
  · intro h
    by_contra hne
    exact codec.ofLayout_crushLayout_ne hne h
  · intro h
    rw [h]

theorem isRfc_crush (codec : Codec) (localNodeHash : Option UInt64) {u : UUID}
    (hu : u.isRfc codec.version = true) :
    (codec.crush localNodeHash u).isRfc codec.version = true := by
  rw [codec.crush_eq localNodeHash hu]
  exact codec.isRfc_ofLayout _

/-- The wire of what an id is compacted to. -/
theorem serialise_crush (codec : Codec) (localNodeHash : Option UInt64) {u : UUID}
    (hu : u.isRfc codec.version = true) : serialise (codec.crush localNodeHash u) =
      .ok (crushLayout (codec.fields u).time.toNat (codec.fields u).clock.toNat
        (crushSalt localNodeHash (codec.fields u).node).toNat).wire := by
  rw [serialise_of_isRfc (codec.isRfc_crush localNodeHash hu), codec.crush_eq localNodeHash hu,
    layout_ofLayout_crushLayout]

end Codec

/-- **What compaction keeps.**  Two ids of a version are compacted to the same id exactly when their
times are in one window, their clock sequences agree after the ticks are folded into them, and their
nodes have the same salt; and that is also when the compacted ids have the same wire. -/
theorem crush_eq_iff (codec : Codec) (lnh₁ lnh₂ : Option UInt64) {u v : UUID}
    (hu : u.isRfc codec.version = true) (hv : v.isRfc codec.version = true) :
    (codec.crush lnh₁ u = codec.crush lnh₂ v ↔
      windowOf (codec.fields u).time.toNat = windowOf (codec.fields v).time.toNat ∧
      (codec.fields u).clock.toNat ^^^ tickOf (codec.fields u).time.toNat =
        (codec.fields v).clock.toNat ^^^ tickOf (codec.fields v).time.toNat ∧
      crushSalt lnh₁ (codec.fields u).node = crushSalt lnh₂ (codec.fields v).node) ∧
    (serialise (codec.crush lnh₁ u) = serialise (codec.crush lnh₂ v) ↔
      codec.crush lnh₁ u = codec.crush lnh₂ v) := by
  have hsame : codec.crush lnh₁ u = codec.crush lnh₂ v ↔
      crushLayout (codec.fields u).time.toNat (codec.fields u).clock.toNat
          (crushSalt lnh₁ (codec.fields u).node).toNat =
        crushLayout (codec.fields v).time.toNat (codec.fields v).clock.toNat
          (crushSalt lnh₂ (codec.fields v).node).toNat := by
    rw [codec.crush_eq lnh₁ hu, codec.crush_eq lnh₂ hv, codec.ofLayout_crushLayout_inj]
  constructor
  · rw [hsame, crushLayout_eq_iff (codec.fields_inRange u).clock_lt
      (codec.fields_inRange v).clock_lt (crushSalt_lt _ _) (crushSalt_lt _ _), UInt64.toNat_inj]
  · rw [hsame, codec.serialise_crush lnh₁ hu, codec.serialise_crush lnh₂ hv, Except.ok.injEq,
      Layout.wire_injective.eq_iff]

/-- One window and one folded clock, from two clock sequences: the ids collide. -/
theorem crush_eq_iff_folded :
    (Codec.crush .v6 none (V6.fromFields ⟨uuidTimeInitial + 0x4001, 7, multicastBit⟩) =
      Codec.crush .v6 none (V6.fromFields ⟨uuidTimeInitial + 0x4002, 4, multicastBit⟩)) :=
  (crush_eq_iff .v6 none none (V6.isRfc_fromFields _) (V6.isRfc_fromFields _)).1.2
    (by decide +kernel)

/-! ### Counting -/

/-- The ids of a version that compaction leaves alone. -/
def Codec.Compacted (codec : Codec) (localNodeHash : Option UInt64) : Set UUID :=
  {u | u.isRfc codec.version = true ∧ codec.crush localNodeHash u = u}

namespace Codec

/-- The compacted id of a window, a folded clock and a salt. -/
def compactedId (codec : Codec) (p : Fin (2 ^ 46) × Fin (2 ^ 14) × Fin (2 ^ 7)) : UUID :=
  codec.ofLayout (.compact (BitVec.ofNat 60 p.1) (BitVec.ofNat 14 p.2.1) (BitVec.ofNat 7 p.2.2))

theorem toNat_window (w : Fin (2 ^ 46)) : (BitVec.ofNat 60 w).toNat = w := by
  rw [BitVec.toNat_ofNat, Nat.mod_eq_of_lt (by have := w.isLt; omega)]

/-- The layout is read back from the id. -/
theorem layout_compactedId (codec : Codec) (p : Fin (2 ^ 46) × Fin (2 ^ 14) × Fin (2 ^ 7)) :
    codec.layout (codec.compactedId p) =
      .compact (BitVec.ofNat 60 p.1) (BitVec.ofNat 14 p.2.1) (BitVec.ofNat 7 p.2.2) := by
  rw [layout, compactedId, fields_ofLayout]
  exact layoutOf_fields_compact codec.expand (by rw [toNat_window]; exact p.1.isLt) _ _

theorem compactedId_injective (codec : Codec) : Function.Injective codec.compactedId := by
  intro p q h
  have hlayout := congrArg codec.layout h
  rw [layout_compactedId, layout_compactedId, Layout.compact.injEq, ← BitVec.toNat_inj,
    ← BitVec.toNat_inj, ← BitVec.toNat_inj, toNat_window, toNat_window, BitVec.toNat_ofNat,
    BitVec.toNat_ofNat, BitVec.toNat_ofNat, BitVec.toNat_ofNat, Nat.mod_eq_of_lt p.2.1.isLt,
    Nat.mod_eq_of_lt q.2.1.isLt, Nat.mod_eq_of_lt p.2.2.isLt, Nat.mod_eq_of_lt q.2.2.isLt] at hlayout
  obtain ⟨hw, hk, hs⟩ := hlayout
  exact Prod.ext (Fin.ext hw) (Prod.ext (Fin.ext hk) (Fin.ext hs))

theorem compactedId_mem (codec : Codec) (localNodeHash : Option UInt64)
    (p : Fin (2 ^ 46) × Fin (2 ^ 14) × Fin (2 ^ 7)) :
    codec.compactedId p ∈ codec.Compacted localNodeHash := by
  refine ⟨codec.isRfc_ofLayout _, ?_⟩
  rw [compactedId, crush_ofLayout, toNat_window, Nat.mod_eq_of_lt p.1.isLt]

/-- Compaction gives the compacted id of what it keeps. -/
theorem exists_compactedId (codec : Codec) (localNodeHash : Option UInt64) {u : UUID}
    (hu : u.isRfc codec.version = true) :
    ∃ p, codec.crush localNodeHash u = codec.compactedId p := by
  refine ⟨⟨⟨windowOf (codec.fields u).time.toNat, windowOf_lt _⟩,
    ⟨(codec.fields u).clock.toNat ^^^ tickOf (codec.fields u).time.toNat,
      Nat.xor_lt_two_pow (codec.fields_inRange u).clock_lt (tickOf_lt _)⟩,
    ⟨(crushSalt localNodeHash (codec.fields u).node).toNat, crushSalt_lt _ _⟩⟩, ?_⟩
  rw [codec.crush_eq localNodeHash hu]
  rfl

/-- The compacted ids are those of the windows, folded clocks and salts. -/
theorem compacted_eq_range (codec : Codec) (localNodeHash : Option UInt64) :
    codec.Compacted localNodeHash = Set.range codec.compactedId := by
  ext u
  constructor
  · rintro ⟨hu, hcrush⟩
    obtain ⟨p, hp⟩ := codec.exists_compactedId localNodeHash hu
    exact ⟨p, hp.symm.trans hcrush⟩
  · rintro ⟨p, rfl⟩
    exact codec.compactedId_mem localNodeHash p

theorem serialise_compactedId (codec : Codec) (p : Fin (2 ^ 46) × Fin (2 ^ 14) × Fin (2 ^ 7)) :
    serialise (codec.compactedId p) = .ok (Layout.compact (BitVec.ofNat 60 p.1)
      (BitVec.ofNat 14 p.2.1) (BitVec.ofNat 7 p.2.2)).wire := by
  have hrfc : (codec.compactedId p).isRfc codec.version = true := codec.isRfc_ofLayout _
  rw [serialise_of_isRfc hrfc, layout_compactedId]

end Codec

/-- **The compacted ids, counted.**  Of the ids of a version, compaction leaves `2 ^ 67` alone, the
same ones for every local node hash; they are what it turns all others into, and the v1 and v6 ones
have the same wires. -/
theorem compacted_count (localNodeHash : Option UInt64) :
    (∀ codec : Codec, (codec.Compacted localNodeHash).ncard = 2 ^ 67 ∧
      codec.Compacted localNodeHash = codec.Compacted none ∧
      codec.crush localNodeHash '' {u | u.isRfc codec.version = true} =
        codec.Compacted localNodeHash) ∧
    serialise '' Codec.v1.Compacted localNodeHash = serialise '' Codec.v6.Compacted localNodeHash := by
  constructor
  · intro codec
    refine ⟨?_, ?_, ?_⟩
    · rw [codec.compacted_eq_range, ← Nat.card_coe_set_eq,
        Nat.card_range_of_injective codec.compactedId_injective, Nat.card_prod, Nat.card_prod,
        Nat.card_fin, Nat.card_fin, Nat.card_fin]
      norm_num
    · rw [codec.compacted_eq_range, codec.compacted_eq_range]
    · ext u
      constructor
      · rintro ⟨v, hv, rfl⟩
        obtain ⟨p, hp⟩ := codec.exists_compactedId localNodeHash hv
        rw [hp]
        exact codec.compactedId_mem localNodeHash p
      · rintro ⟨hu, hcrush⟩
        exact ⟨u, hu, hcrush⟩
  · rw [Codec.compacted_eq_range, Codec.compacted_eq_range, ← Set.range_comp, ← Set.range_comp]
    refine congrArg Set.range (funext fun p => ?_)
    rw [Function.comp_apply, Function.comp_apply, Codec.serialise_compactedId,
      Codec.serialise_compactedId]

/-! ### Recovering the time -/

/-- The time that a v6 id was made for, where the clock sequence of its process is known: the window
is in the time, and the tick is in the clock. -/
def claimedTime (u : UUID) (processClock : UInt16) : UInt64 :=
  let f := fromV6Bytes u.bytes
  let window := ((f.time - uuidTimeInitial) &&& timeMask) >>> UInt64.ofNat clockBits
  let low14 := (f.clock ^^^ processClock).toUInt64 &&& clockMask
  (uuidTimeInitial + ((window <<< UInt64.ofNat clockBits) ||| low14)) &&& timeMask

/-- The arithmetic of `claimedTime`. -/
theorem toNat_claimedTime (u : UUID) (processClock : UInt16) :
    (claimedTime u processClock).toNat =
      (initial + (((fromV6Bytes u.bytes).time.toNat + (2 ^ 60 - initial)) % 2 ^ 60 / 2 ^ 14 * 2 ^ 14 +
        ((fromV6Bytes u.bytes).clock.toNat ^^^ processClock.toNat) % 2 ^ 14)) % 2 ^ 60 := by
  have htime := (fromV6Bytes_inRange u.bytes).time_lt
  unfold claimedTime
  dsimp only
  generalize fromV6Bytes u.bytes = f at htime ⊢
  have hwindow : (((f.time - uuidTimeInitial) &&& timeMask) >>> UInt64.ofNat clockBits).toNat =
      (f.time.toNat + (2 ^ 60 - initial)) % 2 ^ 60 / 2 ^ 14 := by
    rw [BitField.toNat_shiftRight_ofNat _ _ (by decide),
      BitField.toNat_and_two_pow_sub_one _ _ 60 (by decide), UInt64.toNat_sub,
      toNat_uuidTimeInitial]
    simp only [clockBits]
    unfold initial
    omega
  have hlow : ((f.clock ^^^ processClock).toUInt64 &&& clockMask).toNat =
      (f.clock.toNat ^^^ processClock.toNat) % 2 ^ 14 := by
    rw [BitField.toNat_and_two_pow_sub_one _ _ 14 (by decide), UInt16.toNat_toUInt64,
      UInt16.toNat_xor]
  generalize ((f.time - uuidTimeInitial) &&& timeMask) >>> UInt64.ofNat clockBits = w at hwindow ⊢
  generalize (f.clock ^^^ processClock).toUInt64 &&& clockMask = k at hlow ⊢
  have hshift : (w <<< UInt64.ofNat clockBits).toNat = w.toNat * 2 ^ 14 := by
    rw [BitField.toNat_shiftLeft_ofNat _ _ (by decide)]
    simp only [clockBits]
    omega
  have hor : (w.toNat * 2 ^ 14) ||| k.toNat = w.toNat * 2 ^ 14 + k.toNat :=
    BitField.or_eq_add _ _ 14 (by omega) (by omega)
  rw [BitField.toNat_and_two_pow_sub_one _ _ 60 (by decide), UInt64.toNat_add, UInt64.toNat_or,
    hshift, hor, toNat_uuidTimeInitial, hwindow, hlow]
  unfold initial
  omega

/-- The fields of what `make` builds. -/
theorem fields_make (localNodeHash : Option UInt64) {f : Fields} (hclock : f.clock.toNat < 2 ^ 14) :
    (fromV6Bytes (V6.make localNodeHash f).bytes).time.toNat =
        windowTime (windowOf f.time.toNat) ∧
      (fromV6Bytes (V6.make localNodeHash f).bytes).clock.toNat =
        f.clock.toNat ^^^ tickOf f.time.toNat := by
  have hfold := Nat.xor_lt_two_pow hclock (tickOf_lt f.time.toNat)
  rw [V6.make_eq, V6.fields_ofLayout]
  constructor
  · rw [crushLayout, Layout.fields, toNat_windowOf, toNat_windowTime]
  · have hk : (BitVec.ofNat 14 (f.clock.toNat ^^^ tickOf f.time.toNat)).toNat =
        f.clock.toNat ^^^ tickOf f.time.toNat := by
      rw [BitVec.toNat_ofNat, Nat.mod_eq_of_lt hfold]
    rw [crushLayout, Layout.fields, hk, UInt16.toNat_ofNat', Nat.mod_eq_of_lt (by omega)]

/-- **The time can be recovered.**  The clock sequence that an id was made with gives the time that
it was made for, exactly when that time is outside the window at the start of 2016. -/
theorem claimedTime_make_iff (localNodeHash : Option UInt64) {f : Fields} (hf : f.InRange) :
    claimedTime (V6.make localNodeHash f) f.clock = f.time ↔
      f.time ≠ 0 ∧ ¬ (initial ≤ f.time.toNat ∧ f.time.toNat < initial + 2 ^ 14) := by
  obtain ⟨htime, hclock⟩ := fields_make localNodeHash hf.clock_lt
  have hround := hf.time_lt
  have hsplit := windowOf_mul_add_tickOf f.time.toNat
  have htick := tickOf_lt f.time.toNat
  -- folding the clock sequence in twice leaves the tick
  have hxor : (f.clock.toNat ^^^ tickOf f.time.toNat) ^^^ f.clock.toNat = tickOf f.time.toNat := by
    rw [Nat.xor_comm, ← Nat.xor_assoc, Nat.xor_self, Nat.zero_xor]
  rw [← UInt64.toNat_inj, toNat_claimedTime, htime, hclock, hxor, Nat.mod_eq_of_lt htick, ne_eq,
    ← UInt64.toNat_inj, UInt64.toNat_zero]
  generalize f.time.toNat = t at hround hsplit htick ⊢
  generalize windowOf t = w at hsplit ⊢
  generalize tickOf t = k at hsplit htick ⊢
  rcases Nat.eq_zero_or_pos t with rfl | hpos
  · -- no time is in the first window, and is decoded to itself
    rw [rebase_zero] at hsplit
    obtain ⟨rfl, rfl⟩ : w = 0 ∧ k = 0 := by omega
    decide
  · have hr : rebase t = (t + (2 ^ 60 - initial)) % 2 ^ 60 := if_neg (by omega)
    rw [hr] at hsplit
    rcases Nat.eq_zero_or_pos w with rfl | hw
    · have ht : t = initial + k := by
        unfold initial at *
        omega
      simp only [windowTime_zero, ht, initial]
      omega
    · have ht : windowTime w = (w * 2 ^ 14 + initial) % 2 ^ 60 := if_neg (by omega)
      have hback : ((w * 2 ^ 14 + initial) % 2 ^ 60 + (2 ^ 60 - initial)) % 2 ^ 60 = w * 2 ^ 14 := by
        unfold initial at *
        omega
      rw [ht, hback, Nat.mul_div_cancel _ (by decide)]
      unfold initial at *
      omega

end Cuuid
