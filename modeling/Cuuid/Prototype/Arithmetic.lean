/-
**The arithmetic of the ports against that of C++.**

The ports compute on integers without a width what the C++ prototype computes on words of 64 bits, and
cut to 64 bits where they mean to repeat it.  This module says which of their functions do repeat it:
all but `v2ms_to_greg`, which is not cut.

Main results:

* `Cuuid.Prototype.reconstructNode_isWord` — **the node** is the same for any time, of which C++ keeps
  the low 64 bits only;
* `Cuuid.Prototype.nodeSalt_eq` — **the salt** is the same, and the loops of the ports end;
* `Cuuid.Prototype.v2msToGreg_isWord_iff` — **the time** is the same when it is below `2 ^ 64`;
* `Cuuid.Prototype.gregToV2ms_isWord` — the milliseconds of a time from 2026 on are the same.
-/

import Cuuid.Prototype.Cpp
import Cuuid.Prototype.JavaScript

set_option relaxedAutoImplicit false
set_option autoImplicit false

namespace Cuuid.Prototype

open BitField Unbounded

/-! ### Nodes -/

/-- Each round of the mixer is cut before its result is shifted right. -/
theorem splitmix64_isWord {x : ℤ} {a : UInt64} (h : IsWord x a) :
    IsWord (Python.splitmix64 x) (Cpp.splitmix64 a) := by
  have hadd {y : ℤ} {b : UInt64} (hy : IsWord y b) (c : UInt64) :
      IsWord (Int.land (y + c.toNat) Python.mask64) (b + c) :=
    (hy.hasLow.add (isWord_toNat c).hasLow).mask rfl
  have hmul {y : ℤ} {b : UInt64} (hy : IsWord y b) (c : UInt64) :
      IsWord (Int.land (y * c.toNat) Python.mask64) (b * c) :=
    (hy.hasLow.mul (isWord_toNat c).hasLow).mask rfl
  have hmix {y : ℤ} {b : UInt64} (hy : IsWord y b) {k : ℕ} (hk : k < 64) :
      IsWord (Int.xor y (y >>> k)) (b ^^^ (b >>> UInt64.ofNat k)) := hy.xor (hy.shiftRight hk)
  have h₁ := hadd h 0x9e3779b97f4a7c15
  have h₂ := hmul (hmix h₁ (k := 30) (by decide)) 0xbf58476d1ce4e5b9
  have h₃ := hmul (hmix h₂ (k := 27) (by decide)) 0x94d049bb133111eb
  exact hmix h₃ (k := 31) (by decide)

/-- **The node** is the same for any time of which C++ has the low 64 bits. -/
theorem reconstructNode_isWord {x : ℤ} {a : UInt64} (h : HasLow x a) (clock : UInt16)
    (salt : UInt8) : IsWord (Python.reconstructNode x clock.toNat salt.toNat)
      (Cpp.reconstructNode a clock salt) := by
  have hclock : IsWord clock.toNat clock.toUInt64 := by
    rw [IsWord, UInt16.toNat_toUInt64]
  have hsalt : IsWord salt.toNat salt.toUInt64 := by
    rw [IsWord, UInt8.toNat_toUInt64]
  -- the seed is cut, so only the low bits of what is mixed into it matter
  have hseed : IsWord (Int.land (Int.xor (Int.xor x ((clock.toNat : ℤ) <<< (44 : ℕ)))
      ((salt.toNat : ℤ) <<< (57 : ℕ))) Python.mask64)
      (a ^^^ (clock.toUInt64 <<< 44) ^^^ (salt.toUInt64 <<< 57)) :=
    ((h.xor (hclock.hasLow.shiftLeft (k := 44) (by decide))).xor
      (hsalt.hasLow.shiftLeft (k := 57) (by decide))).mask rfl
  have hmask : IsWord (Int.land Python.nodeMask (Int.lnot Python.saltMask))
      (Cpp.nodeMask &&& ~~~Cpp.saltMask) := by
    rw [IsWord]
    decide +kernel
  have hmulticast : IsWord Python.multicast Cpp.multicast := rfl
  have hnode := splitmix64_isWord (splitmix64_isWord hseed)
  exact ((hnode.land hmask).lor hsalt).lor hmulticast

/-! ### Salts -/

/-- The loop of `fnv_1a` ends within the turns that it is given, with the hash. -/
theorem fnvLoop_eq (k n : ℕ) (fnv num : UInt64) (hk : num.toNat < 256 ^ k) (hn : num.toNat < n) :
    Python.fnvLoop n fnv.toNat num.toNat = some ((fnvLoop k fnv num).toNat : ℤ) := by
  -- induction on the bytes that the number still has
  induction k generalizing n fnv num with
  | zero =>
      have hnum : num.toNat = 0 := by simpa using hk
      obtain ⟨n, rfl⟩ : ∃ m, n = m + 1 := ⟨n - 1, by omega⟩
      rw [Python.fnvLoop, fnvLoop, if_pos (by rw [hnum]; rfl)]
  | succ k ih =>
      obtain ⟨n, rfl⟩ : ∃ m, n = m + 1 := ⟨n - 1, by omega⟩
      by_cases hnum : num = 0
      · rw [Python.fnvLoop, fnvLoop, if_pos (by rw [hnum]; rfl), if_pos hnum]
      · have hpos : num.toNat ≠ 0 := fun h => hnum (eq_zero_iff.2 h)
        have hshift : (num >>> 8).toNat = num.toNat / 2 ^ 8 :=
          toNat_shiftRight_ofNat num 8 (by decide)
        have hnext : IsWord ((num.toNat : ℤ) >>> (8 : ℕ)) (num >>> 8) :=
          (isWord_toNat num).shiftRight (k := 8) (by decide)
        have hbyte : IsWord (Int.land (num.toNat : ℤ) 0xFF) (num &&& 0xff) :=
          (isWord_toNat num).land (isWord_toNat 0xff)
        have hhash : IsWord (Int.land (Int.xor fnv.toNat (Int.land (num.toNat : ℤ) 0xFF) *
            0x100000001B3) Python.mask64) ((fnv ^^^ (num &&& 0xff)) * 0x100000001b3) :=
          ((((isWord_toNat fnv).xor hbyte).hasLow).mul
            (isWord_toNat 0x100000001b3).hasLow).mask rfl
        rw [pow_succ] at hk
        rw [Python.fnvLoop, fnvLoop, if_neg (by omega), if_neg hnum, hnext, hhash]
        exact ih _ _ _ (by omega) (by omega)

/-- The loop of `xor_fold` ends within the turns that it is given, as long as it shifts. -/
theorem xorFoldLoop_eq {bits : ℕ} (hbits : 0 < bits) (hlt : bits < 64) (k n : ℕ)
    (folded num : UInt64) (hk : num.toNat < 2 ^ k) (hn : num.toNat < n) :
    Python.xorFoldLoop bits n folded.toNat num.toNat =
      some ((xorFoldLoop bits k folded num).toNat : ℤ) := by
  -- induction on the bits that the number still has at most
  induction k generalizing n folded num with
  | zero =>
      have hnum : num.toNat = 0 := by simpa using hk
      obtain ⟨n, rfl⟩ : ∃ m, n = m + 1 := ⟨n - 1, by omega⟩
      rw [Python.xorFoldLoop, xorFoldLoop, if_pos (by rw [hnum]; rfl)]
  | succ k ih =>
      obtain ⟨n, rfl⟩ : ∃ m, n = m + 1 := ⟨n - 1, by omega⟩
      by_cases hnum : num = 0
      · rw [Python.xorFoldLoop, xorFoldLoop, if_pos (by rw [hnum]; rfl), if_pos hnum]
      · have hpos : num.toNat ≠ 0 := fun h => hnum (eq_zero_iff.2 h)
        have hshift : (num >>> UInt64.ofNat bits).toNat = num.toNat / 2 ^ bits :=
          toNat_shiftRight_ofNat num bits hlt
        have hhalf : num.toNat / 2 ^ bits ≤ num.toNat / 2 :=
          Nat.div_le_div_left (Nat.le_self_pow (by omega) 2) (by decide)
        have hnext := (isWord_toNat num).shiftRight hlt
        have hfold := (isWord_toNat folded).xor (isWord_toNat num)
        rw [pow_succ] at hk
        rw [Python.xorFoldLoop, xorFoldLoop, if_neg (by omega), if_neg hnum, hnext, hfold]
        exact ih _ _ _ (by omega) (by omega)

/-- The low bits of a word as a salt. -/
theorem land_saltMask {x : ℤ} {a : UInt64} (h : IsWord x a) :
    Int.land x Python.saltMask = ((a &&& Cpp.saltMask).toUInt8.toNat : ℤ) := by
  have hmask : (a &&& Cpp.saltMask).toNat = a.toNat % 2 ^ 7 :=
    toNat_and_two_pow_sub_one _ _ 7 (by decide)
  have hsalt : IsWord Python.saltMask Cpp.saltMask := rfl
  rw [h.land hsalt, UInt64.toNat_toUInt8, hmask]
  congr 1
  omega

/-- **The salt** is the same, and the loops of the ports end. -/
theorem nodeSalt_eq (node : UInt64) :
    Python.nodeSalt node.toNat = some ((Cpp.nodeSalt node).toNat : ℤ) := by
  have hmulticast : Int.land (node.toNat : ℤ) Python.multicast = 0 ↔
      node &&& Cpp.multicast = 0 :=
    ((isWord_toNat node).land (b := Cpp.multicast) rfl).eq_iff (b := 0) rfl
  simp only [Python.nodeSalt, Cpp.nodeSalt, bne_iff_ne, ne_eq, hmulticast]
  split_ifs with hreal
  · have hfnv : Python.fnv1a node.toNat = some ((Cpp.fnv1a node).toNat : ℤ) :=
      fnvLoop_eq 8 _ 0xcbf29ce484222325 node node.toNat_lt (by omega)
    have hfold : Python.xorFold (Cpp.fnv1a node).toNat Python.saltBits =
        some ((Cpp.xorFold (Cpp.fnv1a node) Cpp.saltBits).toNat : ℤ) :=
      xorFoldLoop_eq (by decide) (by decide) 64 _ 0 _ (Cpp.fnv1a node).toNat_lt (by omega)
    rw [hfnv]
    simp only [bind, Option.bind, hfold, land_saltMask (isWord_toNat _)]
  · rw [land_saltMask (isWord_toNat node)]

/-! ### Times -/

/-- The time is not cut: its low 64 bits are those of C++. -/
theorem v2msToGreg_hasLow {x : ℤ} {a : UInt64} (h : HasLow x a) :
    HasLow (Python.v2msToGreg x) (Cpp.v2msToGreg a) :=
  ((h.add (isWord_toNat Cpp.epoch2026Ms).hasLow).mul (isWord_toNat 10000).hasLow).add
    (isWord_toNat Cpp.gregEpoch100ns).hasLow

/-- **The time** is the same up to the last millisecond that has 64 bits as a Gregorian time. -/
theorem v2msToGreg_isWord_iff (ms : ℕ) :
    IsWord (Python.v2msToGreg ms) (Cpp.v2msToGreg (UInt64.ofNat ms)) ↔ ms < 1830687888970956 := by
  rw [(v2msToGreg_hasLow (hasLow_natCast ms)).isWord_iff, Python.v2msToGreg, Python.epoch2026Ms,
    Python.gregEpoch100ns]
  omega

/-- The milliseconds of a time from 2026 on are the same, and no difference wraps around. -/
theorem gregToV2ms_isWord {greg : UInt64}
    (h : 0x01b21dd213814000 + 1767225600000 * 10000 ≤ greg.toNat) :
    IsWord (Python.gregToV2ms greg.toNat) (Cpp.gregToV2ms greg) := by
  have hfloor : Int.fdiv ((greg.toNat : ℤ) - Python.gregEpoch100ns) 10000 =
      ((greg.toNat : ℤ) - 0x01b21dd213814000) / 10000 :=
    Int.fdiv_eq_ediv_of_nonneg _ (by decide)
  rw [IsWord, Cpp.toNat_gregToV2ms h, Python.gregToV2ms, hfloor, Python.epoch2026Ms]
  omega

end Cuuid.Prototype
