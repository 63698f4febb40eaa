/-
**Unbounded integers that stand for 64-bit words.**

A program on unbounded integers repeats the arithmetic of machine words by cutting its results to 64
bits.  It need not cut each of them: sums, products, left shifts and bitwise operations of integers
with the right low bits have the right low bits again.  Only a right shift and a comparison need the
integer itself, so the program has to cut before these, and when it does not, the two may differ.

This module is general: it relates an integer to the word it stands for, exactly or in its low bits
only, and says how the operations act on the two relations.

Main definitions:

* `Unbounded.IsWord` — the integer is the number that the word holds;
* `Unbounded.HasLow` — the word holds the low 64 bits of the integer.

Main results:

* `Unbounded.HasLow.mask` — **cutting to 64 bits makes the integer exact**;
* `Unbounded.HasLow.isWord_iff` — **without a cut it is exact when it is below `2 ^ 64`**.
-/

import Mathlib.Data.Int.Bitwise
import Cuuid.Lib.BitField

set_option relaxedAutoImplicit false
set_option autoImplicit false

namespace Unbounded

/-! ### Bitwise operations on natural numbers -/

theorem land_natCast (m n : ℕ) : Int.land (m : ℤ) (n : ℤ) = ((m &&& n : ℕ) : ℤ) := rfl

theorem lor_natCast (m n : ℕ) : Int.lor (m : ℤ) (n : ℤ) = ((m ||| n : ℕ) : ℤ) := rfl

theorem xor_natCast (m n : ℕ) : Int.xor (m : ℤ) (n : ℤ) = ((m ^^^ n : ℕ) : ℤ) := rfl

theorem shiftLeft_natCast (m k : ℕ) : (m : ℤ) <<< k = ((m * 2 ^ k : ℕ) : ℤ) := by
  rw [← Int.natCast_shiftLeft, Nat.shiftLeft_eq]

theorem shiftRight_natCast (m k : ℕ) : (m : ℤ) >>> k = ((m / 2 ^ k : ℕ) : ℤ) := by
  rw [← Int.natCast_shiftRight, Nat.shiftRight_eq_div_pow]

/-- Cutting a natural number to `k` bits. -/
theorem land_mask_natCast (m k : ℕ) {mask : ℤ} (h : mask = ((2 ^ k - 1 : ℕ) : ℤ)) :
    Int.land (m : ℤ) mask = ((m % 2 ^ k : ℕ) : ℤ) := by
  rw [h, land_natCast, Nat.and_two_pow_sub_one_eq_mod]

/-! ### The two relations -/

/-- The integer is the number that the word holds. -/
def IsWord (z : ℤ) (w : UInt64) : Prop := z = (w.toNat : ℤ)

/-- The integer is natural, and the word holds its low 64 bits. -/
def HasLow (z : ℤ) (w : UInt64) : Prop := ∃ n : ℕ, z = (n : ℤ) ∧ UInt64.ofNat n = w

/-- The number of a word stands for it. -/
theorem isWord_toNat (w : UInt64) : IsWord (w.toNat : ℤ) w := rfl

/-- Every natural number has low bits. -/
theorem hasLow_natCast (n : ℕ) : HasLow (n : ℤ) (UInt64.ofNat n) := ⟨n, rfl, rfl⟩

theorem IsWord.hasLow {z : ℤ} {w : UInt64} (h : IsWord z w) : HasLow z w :=
  ⟨w.toNat, h, UInt64.ofNat_toNat⟩

/-- Integers that stand for words are equal when the words are. -/
theorem IsWord.eq_iff {x y : ℤ} {a b : UInt64} (hx : IsWord x a) (hy : IsWord y b) :
    x = y ↔ a = b := by
  rw [hx, hy, Int.natCast_inj, UInt64.toNat_inj]

/-- **Cutting to 64 bits makes the integer exact.** -/
theorem HasLow.mask {z mask : ℤ} {w : UInt64} (h : HasLow z w)
    (hmask : mask = ((2 ^ 64 - 1 : ℕ) : ℤ)) : IsWord (Int.land z mask) w := by
  obtain ⟨n, rfl, rfl⟩ := h
  rw [IsWord, land_mask_natCast n 64 hmask, UInt64.toNat_ofNat']

/-- **Without a cut** it is exact when it is below `2 ^ 64`. -/
theorem HasLow.isWord_iff {z : ℤ} {w : UInt64} (h : HasLow z w) : IsWord z w ↔ z < 2 ^ 64 := by
  obtain ⟨n, rfl, rfl⟩ := h
  rw [IsWord, UInt64.toNat_ofNat', Int.natCast_inj]
  omega

/-! ### Operations on the low bits -/

section

variable {x y : ℤ} {a b : UInt64}

theorem HasLow.add (hx : HasLow x a) (hy : HasLow y b) : HasLow (x + y) (a + b) := by
  obtain ⟨m, rfl, rfl⟩ := hx
  obtain ⟨n, rfl, rfl⟩ := hy
  exact ⟨m + n, (Int.natCast_add m n).symm, UInt64.ofNat_add m n⟩

theorem HasLow.mul (hx : HasLow x a) (hy : HasLow y b) : HasLow (x * y) (a * b) := by
  obtain ⟨m, rfl, rfl⟩ := hx
  obtain ⟨n, rfl, rfl⟩ := hy
  exact ⟨m * n, (Int.natCast_mul m n).symm, UInt64.ofNat_mul m n⟩

theorem HasLow.xor (hx : HasLow x a) (hy : HasLow y b) : HasLow (Int.xor x y) (a ^^^ b) := by
  obtain ⟨m, rfl, rfl⟩ := hx
  obtain ⟨n, rfl, rfl⟩ := hy
  refine ⟨m ^^^ n, rfl, ?_⟩
  rw [← UInt64.toNat_inj, UInt64.toNat_xor, UInt64.toNat_ofNat', UInt64.toNat_ofNat',
    UInt64.toNat_ofNat', Nat.xor_mod_two_pow]

theorem HasLow.shiftLeft (hx : HasLow x a) {k : ℕ} (hk : k < 64) :
    HasLow (x <<< k) (a <<< UInt64.ofNat k) := by
  obtain ⟨m, rfl, rfl⟩ := hx
  refine ⟨m * 2 ^ k, shiftLeft_natCast m k, ?_⟩
  rw [← UInt64.toNat_inj, BitField.toNat_shiftLeft_ofNat _ _ hk, UInt64.toNat_ofNat',
    UInt64.toNat_ofNat', Nat.mod_mul_mod]

/-! ### Operations on whole words -/

theorem IsWord.land (hx : IsWord x a) (hy : IsWord y b) : IsWord (Int.land x y) (a &&& b) := by
  rw [hx, hy, IsWord, land_natCast, UInt64.toNat_and]

theorem IsWord.lor (hx : IsWord x a) (hy : IsWord y b) : IsWord (Int.lor x y) (a ||| b) := by
  rw [hx, hy, IsWord, lor_natCast, UInt64.toNat_or]

theorem IsWord.xor (hx : IsWord x a) (hy : IsWord y b) : IsWord (Int.xor x y) (a ^^^ b) := by
  rw [hx, hy, IsWord, xor_natCast, UInt64.toNat_xor]

theorem IsWord.shiftRight (hx : IsWord x a) {k : ℕ} (hk : k < 64) :
    IsWord (x >>> k) (a >>> UInt64.ofNat k) := by
  rw [hx, IsWord, shiftRight_natCast, BitField.toNat_shiftRight_ofNat _ _ hk]

end

end Unbounded
