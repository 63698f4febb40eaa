/-
**What the synthetic node mixes.**

The node of a compacted id is drawn from one word, in which the milliseconds, the clock and the salt
are put side by side and mixed twice.  The mixer can be undone, so two ids draw the same word exactly
when they put the same one in.  Clock and salt are not quite side by side: the highest bit of the one
and the lowest bit of the other share bit 57, so two ids that differ in these two bits and in no other
draw the same word, and their nodes differ in the salt alone.

Main definitions:

* `Cuuid.Prototype.Cpp.seed`, `Cuuid.Prototype.Cpp.draw` — the word that is mixed, and what comes out.

Main results:

* `Cuuid.Prototype.Cpp.splitmix64_injective` — **the mixer can be undone**;
* `Cuuid.Prototype.draw_eq_iff` — **which ids draw the same word**.
-/

import Cuuid.Lib.Mixing
import Cuuid.Prototype.Arithmetic

set_option relaxedAutoImplicit false
set_option autoImplicit false

namespace Cuuid.Prototype

open BitField

namespace Cpp

/-! ### The mixer -/

/-- **The mixer can be undone.** -/
theorem splitmix64_injective {x y : UInt64} (h : splitmix64 x = splitmix64 y) : x = y := by
  have hfirst : (0xbf58476d1ce4e5b9 : UInt64) * 0x96de1b173f119089 = 1 := rfl
  have hsecond : (0x94d049bb133111eb : UInt64) * 0x319642b2d24d8ec3 = 1 := rfl
  simp only [splitmix64] at h
  have h₃ := Mixing.xorShiftRight_injective_word (k := 31) (by decide) (by decide) h
  have h₂ := Mixing.xorShiftRight_injective_word (k := 27) (by decide) (by decide)
    (Mixing.mul_injective_word hsecond h₃)
  have h₁ := Mixing.xorShiftRight_injective_word (k := 30) (by decide) (by decide)
    (Mixing.mul_injective_word hfirst h₂)
  exact (UInt64.add_left_inj _).1 h₁

/-- The word that the fields of an id are put in. -/
def seed (v2ms : UInt64) (clock : UInt16) (salt : UInt8) : UInt64 :=
  v2ms ^^^ (clock.toUInt64 <<< 44) ^^^ (salt.toUInt64 <<< 57)

/-- The word that the node is drawn from. -/
def draw (v2ms : UInt64) (clock : UInt16) (salt : UInt8) : UInt64 :=
  splitmix64 (splitmix64 (seed v2ms clock salt))

theorem reconstructNode_eq (v2ms : UInt64) (clock : UInt16) (salt : UInt8) :
    reconstructNode v2ms clock salt =
      (draw v2ms clock salt &&& (nodeMask &&& ~~~saltMask)) ||| salt.toUInt64 ||| multicast := rfl

end Cpp

/-! ### The word that is put in -/

/-- Numbers are the same when their low bits are, and the rest. -/
theorem eq_iff_mod_div (a b k : ℕ) : a = b ↔ a % 2 ^ k = b % 2 ^ k ∧ a / 2 ^ k = b / 2 ^ k := by
  constructor
  · rintro rfl
    exact ⟨rfl, rfl⟩
  · rintro ⟨hmod, hdiv⟩
    rw [← Nat.div_add_mod a (2 ^ k), ← Nat.div_add_mod b (2 ^ k), hmod, hdiv]

/-- Adding a number without carry that starts at bit `k`. -/
theorem xor_mul_two_pow (a b k : ℕ) : (a ^^^ (b * 2 ^ k)) % 2 ^ k = a % 2 ^ k ∧
    (a ^^^ (b * 2 ^ k)) / 2 ^ k = a / 2 ^ k ^^^ b := by
  constructor
  · rw [Nat.xor_mod_two_pow, Nat.mul_mod_left, Nat.xor_zero]
  · rw [← Nat.shiftRight_eq_div_pow, Nat.shiftRight_xor_distrib, Nat.shiftRight_eq_div_pow,
      Nat.shiftRight_eq_div_pow, Nat.mul_div_cancel _ (Nat.two_pow_pos k)]

/-- Below 44 bits of time, the seed has the time in its low bits, and above it the clock and the salt,
which overlap in one bit. -/
theorem toNat_seed {v2ms : UInt64} {clock : UInt16} {salt : UInt8} (hms : v2ms.toNat < 2 ^ 44)
    (hclock : clock.toNat < 2 ^ 14) (hsalt : salt.toNat < 2 ^ 7) : (Cpp.seed v2ms clock salt).toNat =
      v2ms.toNat + (clock.toNat ^^^ (salt.toNat * 2 ^ 13)) * 2 ^ 44 := by
  have hclock' : (clock.toUInt64 <<< 44).toNat = clock.toNat * 2 ^ 44 := by
    have hshift := toNat_shiftLeft_ofNat clock.toUInt64 44 (by decide)
    rw [UInt16.toNat_toUInt64] at hshift
    exact hshift.trans (Nat.mod_eq_of_lt (by omega))
  have hsalt' : (salt.toUInt64 <<< 57).toNat = salt.toNat * 2 ^ 13 * 2 ^ 44 := by
    have hshift := toNat_shiftLeft_ofNat salt.toUInt64 57 (by decide)
    rw [UInt8.toNat_toUInt64] at hshift
    refine hshift.trans ((Nat.mod_eq_of_lt (by omega)).trans ?_)
    ring
  obtain ⟨hmod, hdiv⟩ := xor_mul_two_pow v2ms.toNat clock.toNat 44
  obtain ⟨hmod', hdiv'⟩ := xor_mul_two_pow (v2ms.toNat ^^^ (clock.toNat * 2 ^ 44))
    (salt.toNat * 2 ^ 13) 44
  rw [Cpp.seed, UInt64.toNat_xor, UInt64.toNat_xor, hclock', hsalt', eq_iff_mod_div _ _ 44, hmod',
    hdiv', hmod, hdiv, Nat.div_eq_of_lt hms, Nat.zero_xor, Nat.add_mul_mod_self_right,
    Nat.add_mul_div_right _ _ (by decide), Nat.div_eq_of_lt hms, Nat.zero_add]
  exact ⟨rfl, rfl⟩

/-- Two clocks, with a salt each on top of their highest bit. -/
theorem overlap_iff {c c' s s' : ℕ} (hc : c < 2 ^ 14) (hc' : c' < 2 ^ 14) :
    c ^^^ (s * 2 ^ 13) = c' ^^^ (s' * 2 ^ 13) ↔
      c = c' ∧ s = s' ∨ c' = c ^^^ 2 ^ 13 ∧ s' = s ^^^ 1 := by
  obtain ⟨hmod, hdiv⟩ := xor_mul_two_pow c s 13
  obtain ⟨hmod', hdiv'⟩ := xor_mul_two_pow c' s' 13
  obtain ⟨hflip, hflip'⟩ := xor_mul_two_pow c 1 13
  rw [Nat.one_mul] at hflip hflip'
  rw [eq_iff_mod_div _ _ 13, hmod, hmod', hdiv, hdiv', eq_iff_mod_div c c' 13,
    eq_iff_mod_div c' _ 13, hflip, hflip']
  have hcancel : c / 2 ^ 13 ^^^ s = c' / 2 ^ 13 ^^^ s' ↔ s' = s ^^^ (c / 2 ^ 13 ^^^ c' / 2 ^ 13) := by
    constructor
    · intro h
      rw [← Nat.xor_assoc, Nat.xor_comm s, h, Nat.xor_comm, ← Nat.xor_assoc, Nat.xor_self,
        Nat.zero_xor]
    · rintro rfl
      rw [Nat.xor_comm (c / 2 ^ 13) (c' / 2 ^ 13), Nat.xor_comm s, ← Nat.xor_assoc, ← Nat.xor_assoc,
        Nat.xor_self, Nat.zero_xor]
  rw [hcancel]
  have hbit : c / 2 ^ 13 = 0 ∨ c / 2 ^ 13 = 1 := by omega
  have hbit' : c' / 2 ^ 13 = 0 ∨ c' / 2 ^ 13 = 1 := by omega
  -- the two clocks have the same highest bit, or not
  rcases hbit with h | h <;> rcases hbit' with h' | h' <;> rw [h, h'] <;> simp [eq_comm]

/-- The lowest bit of a word that is joined to others which do not have it. -/
theorem flip_low_bit (x y : UInt64) {m k : UInt64} (hm : m.toNat.testBit 0 = false)
    (hk : k.toNat.testBit 0 = false) :
    (x &&& m) ||| (y ^^^ 1) ||| k = ((x &&& m) ||| y ||| k) ^^^ 1 := by
  apply UInt64.toNat_inj.1
  refine Nat.eq_of_testBit_eq fun i => ?_
  simp only [UInt64.toNat_xor, UInt64.toNat_or, UInt64.toNat_and, UInt64.toNat_one,
    Nat.testBit_xor, Nat.testBit_or, Nat.testBit_and]
  cases i with
  | zero => rw [hm, hk, Bool.and_false, Bool.false_or, Bool.or_false, Bool.or_false, Bool.false_or]
  | succ i =>
      have hone : Nat.testBit 1 (i + 1) = false := by simp [Nat.testBit_succ]
      rw [hone, Bool.xor_false, Bool.xor_false]

/-- **Which ids draw the same word.**  Up to 44 bits of time, two ids draw the same word exactly when
they agree in time, clock and salt, or agree in time and differ in the highest bit of the clock and
the lowest of the salt.  With any time, clock and salt, turning these two bits over turns over the
lowest bit of the node, and no other. -/
theorem draw_eq_iff :
    (∀ (v2ms v2ms' : UInt64) (clock clock' : UInt16) (salt salt' : UInt8),
      v2ms.toNat < 2 ^ 44 → v2ms'.toNat < 2 ^ 44 → clock.toNat < 2 ^ 14 → clock'.toNat < 2 ^ 14 →
      salt.toNat < 2 ^ 7 → salt'.toNat < 2 ^ 7 →
      (Cpp.draw v2ms clock salt = Cpp.draw v2ms' clock' salt' ↔
        v2ms = v2ms' ∧ (clock = clock' ∧ salt = salt' ∨
          clock' = clock ^^^ 0x2000 ∧ salt' = salt ^^^ 1))) ∧
    ∀ (v2ms : UInt64) (clock : UInt16) (salt : UInt8),
      Cpp.reconstructNode v2ms (clock ^^^ 0x2000) (salt ^^^ 1) =
        Cpp.reconstructNode v2ms clock salt ^^^ 1 := by
  constructor
  · intro v2ms v2ms' clock clock' salt salt' hms hms' hclock hclock' hsalt hsalt'
    have hseed : Cpp.draw v2ms clock salt = Cpp.draw v2ms' clock' salt' ↔
        Cpp.seed v2ms clock salt = Cpp.seed v2ms' clock' salt' := by
      constructor
      · intro h
        exact Cpp.splitmix64_injective (Cpp.splitmix64_injective h)
      · intro h
        rw [Cpp.draw, Cpp.draw, h]
    have hflip : clock' = clock ^^^ 0x2000 ↔ clock'.toNat = clock.toNat ^^^ 2 ^ 13 := by
      rw [← UInt16.toNat_inj, UInt16.toNat_xor]
      rfl
    have hflip' : salt' = salt ^^^ 1 ↔ salt'.toNat = salt.toNat ^^^ 1 := by
      rw [← UInt8.toNat_inj, UInt8.toNat_xor]
      rfl
    rw [hseed, ← UInt64.toNat_inj, toNat_seed hms hclock hsalt, toNat_seed hms' hclock' hsalt',
      hflip, hflip', ← UInt64.toNat_inj, ← UInt16.toNat_inj, ← UInt8.toNat_inj,
      ← overlap_iff hclock hclock']
    omega
  · intro v2ms clock salt
    -- both bits are put in at bit 57, where they cancel
    have hbits : ((0x2000 : UInt16).toUInt64 <<< 44) ^^^ ((1 : UInt8).toUInt64 <<< 57) = 0 := rfl
    have hseed : Cpp.seed v2ms (clock ^^^ 0x2000) (salt ^^^ 1) = Cpp.seed v2ms clock salt ^^^
        (((0x2000 : UInt16).toUInt64 <<< 44) ^^^ ((1 : UInt8).toUInt64 <<< 57)) := by
      rw [Cpp.seed, Cpp.seed, UInt16.toUInt64_xor, UInt8.toUInt64_xor, UInt64.shiftLeft_xor,
        UInt64.shiftLeft_xor]
      generalize clock.toUInt64 <<< 44 = a
      generalize salt.toUInt64 <<< 57 = b
      generalize (0x2000 : UInt16).toUInt64 <<< 44 = c
      generalize (1 : UInt8).toUInt64 <<< 57 = d
      ac_rfl
    rw [hbits, UInt64.xor_zero] at hseed
    rw [Cpp.reconstructNode_eq, Cpp.reconstructNode_eq, Cpp.draw, hseed, ← Cpp.draw,
      UInt8.toUInt64_xor]
    exact flip_low_bit _ _ rfl rfl

end Cuuid.Prototype
