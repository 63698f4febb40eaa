/-
**Bit fields of a 64-bit word.**

A bit field occupies `len` bits of a word from bit `off` on, counted from the least significant
one.  Reading a field shifts and masks; writing one clears the bits and inserts the new ones.
This module states what both do to the *number* the word holds, so that a proof about packed
words becomes a proof in linear arithmetic with division by literals.  It names no program.

Main definitions:

* `BitField.get`, `BitField.set` — reading and writing a field.

Main results:

* `BitField.toNat_get`, `BitField.toNat_set` — **reading and writing as arithmetic**;
* `BitField.and_two_pow_sub_two_pow`, `BitField.or_eq_add` — a mask clears digits, and joining two
  disjoint numbers is addition.
-/

import Mathlib.Data.Nat.Basic
import Mathlib.Tactic.Linarith
import Mathlib.Tactic.Ring

set_option relaxedAutoImplicit false
set_option autoImplicit false

namespace BitField

/-! ### Masks and disjoint numbers -/

/-- Masking the bits from `k` on below `n` is clearing the low digits. -/
theorem and_two_pow_sub_two_pow (x : ℕ) {k n : ℕ} (h : k ≤ n) :
    x &&& (2 ^ n - 2 ^ k) = x % 2 ^ n / 2 ^ k * 2 ^ k := by
  have hmask : 2 ^ n - 2 ^ k = 2 ^ k * (2 ^ (n - k) - 1) := by
    rw [Nat.mul_sub, ← pow_add, Nat.add_sub_cancel' h, Nat.mul_one]
  refine Nat.eq_of_testBit_eq fun i => ?_
  rw [hmask, Nat.testBit_and, Nat.testBit_two_pow_mul, Nat.testBit_two_pow_sub_one,
    Nat.mul_comm (_ / _), Nat.testBit_two_pow_mul, Nat.testBit_div_two_pow,
    Nat.testBit_mod_two_pow]
  by_cases hk : k ≤ i
  · by_cases hn : i < n
    · simp [hk, hn, show i - k < n - k by omega, Nat.sub_add_cancel hk]
    · simp [hk, hn, show ¬ i - k < n - k by omega, Nat.sub_add_cancel hk]
  · simp [hk]

/-- Joining a multiple of `2 ^ k` with a number below `2 ^ k` is adding them. -/
theorem or_eq_add (a b k : ℕ) (ha : a % 2 ^ k = 0) (hb : b < 2 ^ k) : a ||| b = a + b := by
  have hdiv : a = 2 ^ k * (a / 2 ^ k) := by
    have h := Nat.div_add_mod a (2 ^ k)
    omega
  rw [hdiv, Nat.two_pow_add_eq_or_of_lt hb]

/-- A word is zero when its number is. -/
theorem eq_zero_iff {x : UInt64} : x = 0 ↔ x.toNat = 0 := by
  rw [← UInt64.toNat_inj]
  rfl

/-- Masking the low `k` bits of a word is taking the remainder. -/
theorem toNat_and_two_pow_sub_one (w m : UInt64) (k : ℕ) (hm : m.toNat = 2 ^ k - 1) :
    (w &&& m).toNat = w.toNat % 2 ^ k := by
  rw [UInt64.toNat_and, hm, Nat.and_two_pow_sub_one_eq_mod]

theorem toNat_shiftRight_ofNat (w : UInt64) (k : ℕ) (hk : k < 64) :
    (w >>> UInt64.ofNat k).toNat = w.toNat / 2 ^ k := by
  have hmod : k % 2 ^ 64 % 64 = k := by omega
  rw [UInt64.toNat_shiftRight, UInt64.toNat_ofNat', hmod, Nat.shiftRight_eq_div_pow]

theorem toNat_shiftLeft_ofNat (w : UInt64) (k : ℕ) (hk : k < 64) :
    (w <<< UInt64.ofNat k).toNat = w.toNat * 2 ^ k % 2 ^ 64 := by
  have hmod : k % 2 ^ 64 % 64 = k := by omega
  rw [UInt64.toNat_shiftLeft, UInt64.toNat_ofNat', hmod, Nat.shiftLeft_eq]

/-! ### Reading and writing -/

/-- The word with ones in the low `len` bits. -/
def mask (len : ℕ) : UInt64 := UInt64.ofNat (2 ^ len - 1)

/-- Reads the field of `len` bits at offset `off`. -/
def get (w : UInt64) (off len : ℕ) : UInt64 := (w >>> UInt64.ofNat off) &&& mask len

/-- Writes the low `len` bits of `v` into the field at offset `off`. -/
def set (w : UInt64) (off len : ℕ) (v : UInt64) : UInt64 :=
  (w &&& ~~~(mask len <<< UInt64.ofNat off)) ||| ((v &&& mask len) <<< UInt64.ofNat off)

theorem toNat_mask {len : ℕ} (h : len ≤ 64) : (mask len).toNat = 2 ^ len - 1 := by
  have hpos : 0 < 2 ^ len := Nat.two_pow_pos len
  have hle : 2 ^ len ≤ 2 ^ 64 := Nat.pow_le_pow_right (by omega) h
  rw [mask, UInt64.toNat_ofNat', Nat.mod_eq_of_lt (by omega)]

/-- **Reading a field** is dividing and taking the remainder. -/
theorem toNat_get (w : UInt64) {off len : ℕ} (h : off + len ≤ 64) (ho : off < 64) :
    (get w off len).toNat = w.toNat / 2 ^ off % 2 ^ len := by
  rw [get, toNat_and_two_pow_sub_one _ _ len (toNat_mask (by omega)),
    toNat_shiftRight_ofNat _ _ ho]

theorem testBit_mask {len : ℕ} (h : len ≤ 64) (i : ℕ) :
    (mask len).toNat.testBit i = decide (i < len) := by
  rw [toNat_mask h, Nat.testBit_two_pow_sub_one]

/-- Bit by bit, writing a field replaces the bits of the field and keeps the others. -/
theorem testBit_set (w v : UInt64) {off len : ℕ} (h : off + len ≤ 64) (ho : off < 64) (i : ℕ)
    (hi : i < 64) : (set w off len v).toNat.testBit i =
      if off ≤ i ∧ i < off + len then v.toNat.testBit (i - off) else w.toNat.testBit i := by
  have hoff : off % 2 ^ 64 % 64 = off := by omega
  have hnot : (~~~(mask len <<< UInt64.ofNat off)).toNat.testBit i =
      !((mask len <<< UInt64.ofNat off).toNat.testBit i) := by
    simp only [← UInt64.toNat_toBitVec, UInt64.toBitVec_not, BitVec.testBit_toNat,
      BitVec.getLsbD_not, hi, decide_true, Bool.true_and]
  have hshift : ∀ x : UInt64, (x <<< UInt64.ofNat off).toNat.testBit i =
      (decide (off ≤ i) && x.toNat.testBit (i - off)) := by
    intro x
    rw [UInt64.toNat_shiftLeft, UInt64.toNat_ofNat', hoff, Nat.testBit_mod_two_pow,
      Nat.testBit_shiftLeft]
    simp [hi]
  rw [set, UInt64.toNat_or, UInt64.toNat_and, Nat.testBit_or, Nat.testBit_and, hnot, hshift,
    hshift, UInt64.toNat_and, Nat.testBit_and, testBit_mask (by omega)]
  by_cases h₁ : off ≤ i
  · by_cases h₂ : i < off + len
    · simp [h₁, h₂, show i - off < len by omega]
    · simp [h₁, h₂, show ¬ i - off < len by omega]
  · simp [h₁]

/-- **Writing a field** replaces its digits and keeps what is below and above. -/
theorem toNat_set (w v : UInt64) {off len : ℕ} (h : off + len ≤ 64) (ho : off < 64) :
    (set w off len v).toNat = w.toNat / 2 ^ (off + len) * 2 ^ (off + len) +
      v.toNat % 2 ^ len * 2 ^ off + w.toNat % 2 ^ off := by
  have hlow : w.toNat % 2 ^ off < 2 ^ off := Nat.mod_lt _ (Nat.two_pow_pos _)
  have hmid : v.toNat % 2 ^ len < 2 ^ len := Nat.mod_lt _ (Nat.two_pow_pos _)
  have hform : w.toNat / 2 ^ (off + len) * 2 ^ (off + len) + v.toNat % 2 ^ len * 2 ^ off +
      w.toNat % 2 ^ off = 2 ^ off * (2 ^ len * (w.toNat / 2 ^ (off + len)) + v.toNat % 2 ^ len) +
        w.toNat % 2 ^ off := by
    rw [pow_add]
    ring
  rw [hform]
  refine Nat.eq_of_testBit_eq fun i => ?_
  rw [Nat.testBit_two_pow_mul_add _ hlow]
  rcases Nat.lt_or_ge i 64 with hi | hi
  · rw [testBit_set w v h ho i hi]
    by_cases h₁ : i < off
    · simp [h₁, show ¬ off ≤ i by omega]
    · rw [if_neg h₁, Nat.testBit_two_pow_mul_add _ hmid]
      by_cases h₂ : i - off < len
      · simp [h₂, show off ≤ i by omega, show i < off + len by omega]
      · simp [h₂, show ¬ i < off + len by omega, Nat.testBit_div_two_pow,
          show i - off - len + (off + len) = i by omega]
  · -- both numbers are below `2 ^ 64`
    have hw := w.toNat_lt
    have hlt : (set w off len v).toNat < 2 ^ i :=
      lt_of_lt_of_le (UInt64.toNat_lt _) (Nat.pow_le_pow_right (by omega) hi)
    rw [Nat.testBit_lt_two_pow hlt, if_neg (by omega), Nat.testBit_two_pow_mul_add _ hmid,
      if_neg (by omega), Nat.testBit_div_two_pow]
    symm
    refine Nat.testBit_lt_two_pow (lt_of_lt_of_le hw (Nat.pow_le_pow_right (by omega) ?_))
    omega

end BitField
