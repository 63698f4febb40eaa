/-
**Steps of a mixer that lose nothing.**

A mixer spreads the bits of a word by a few kinds of step: it adds a constant, it adds to the word
without carry the word shifted to the right, and it multiplies by an odd number.  Each of them can be
undone, so words that come out the same went in the same.

Main results:

* `Mixing.xorShiftRight_injective` — **the shift** to the right, added without carry;
* `Mixing.mul_injective` — **the product** by a number that has an inverse.
-/

import Mathlib.Data.BitVec
import Mathlib.Data.UInt

set_option relaxedAutoImplicit false
set_option autoImplicit false

namespace Mixing

/-- **The shift** to the right, added without carry: the topmost bits are those that went in, and each
bit below is found from one above it. -/
theorem xorShiftRight_injective {w k : ℕ} (hk : 0 < k) {x y : BitVec w}
    (h : x ^^^ (x >>> k) = y ^^^ (y >>> k)) : x = y := by
  have hbit : ∀ i, xor (x.getLsbD i) (x.getLsbD (k + i)) =
      xor (y.getLsbD i) (y.getLsbD (k + i)) := by
    intro i
    have hi := congrArg (fun z : BitVec w => z.getLsbD i) h
    simpa using hi
  -- from the top downwards: `n` is the number of bits above the one that is compared
  have hdown : ∀ n i, w ≤ i + n → x.getLsbD i = y.getLsbD i := by
    intro n
    induction n with
    | zero =>
        intro i hi
        rw [BitVec.getLsbD_of_ge x i hi, BitVec.getLsbD_of_ge y i hi]
    | succ n ih =>
        intro i hi
        have habove := ih (k + i) (by omega)
        have hone := hbit i
        rw [habove] at hone
        exact Bool.xor_left_inj.1 hone
  exact BitVec.eq_of_getLsbD_eq fun i hi => hdown w i (by omega)

/-- **The product** by a number that has an inverse. -/
theorem mul_injective {w : ℕ} {c d : BitVec w} (hcd : c * d = 1) {x y : BitVec w}
    (h : x * c = y * c) : x = y := by
  calc x = x * (c * d) := by rw [hcd, mul_one]
    _ = y * (c * d) := by rw [← mul_assoc, h, mul_assoc]
    _ = y := by rw [hcd, mul_one]

/-! ### Machine words -/

theorem xorShiftRight_injective_word {k : ℕ} (hk : 0 < k) (hlt : k < 64) {x y : UInt64}
    (h : x ^^^ (x >>> UInt64.ofNat k) = y ^^^ (y >>> UInt64.ofNat k)) : x = y := by
  have hshift : ∀ z : UInt64, (z >>> UInt64.ofNat k).toBitVec = z.toBitVec >>> k := by
    intro z
    apply BitVec.toNat_inj.1
    rw [UInt64.toNat_toBitVec, UInt64.toNat_shiftRight, BitVec.toNat_ushiftRight,
      UInt64.toNat_ofNat', UInt64.toNat_toBitVec]
    congr 1
    omega
  have hbits := congrArg UInt64.toBitVec h
  rw [UInt64.toBitVec_xor, UInt64.toBitVec_xor, hshift, hshift] at hbits
  exact UInt64.toBitVec_inj.1 (xorShiftRight_injective hk hbits)

theorem mul_injective_word {c d : UInt64} (hcd : c * d = 1) {x y : UInt64} (h : x * c = y * c) :
    x = y := by
  have hbits := congrArg UInt64.toBitVec h
  rw [UInt64.toBitVec_mul, UInt64.toBitVec_mul] at hbits
  exact UInt64.toBitVec_inj.1 (mul_injective (congrArg UInt64.toBitVec hcd) hbits)

end Mixing
