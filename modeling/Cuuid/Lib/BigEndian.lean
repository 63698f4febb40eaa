/-
**Fixed-width big-endian bytes of a natural number.**

A natural number below `256 ^ k` is written as exactly `k` bytes, most significant first.  This
module is about that writing alone: it names no program, and is meant to be lifted out.

Main definitions:

* `BigEndian.toBytes`, `BigEndian.ofBytes` — the `k` big-endian bytes of a number, and the number
  that a list of bytes writes.

Main results:

* `BigEndian.ofBytes_toBytes`, `BigEndian.toBytes_ofBytes` — the two are inverse to each other;
* `BigEndian.toBytes_add` — concatenation;
* `BigEndian.toBytes_lt_toBytes_iff` — **numbers of one width compare as their bytes do**.
-/

import Mathlib.Data.Nat.Basic
import Mathlib.Data.List.Basic
import Mathlib.Tactic.Linarith
import Mathlib.Tactic.Ring
import Mathlib.Tactic.Positivity

set_option relaxedAutoImplicit false
set_option autoImplicit false

namespace BigEndian

/-- The number written by a list of bytes, most significant first. -/
def ofBytes : List UInt8 → ℕ
  | [] => 0
  | b :: l => b.toNat * 256 ^ l.length + ofBytes l

/-- The last `k` big-endian bytes of a number. -/
def toBytes : ℕ → ℕ → List UInt8
  | 0, _ => []
  | k + 1, n => UInt8.ofNat (n / 256 ^ k) :: toBytes k n

@[simp] theorem ofBytes_nil : ofBytes [] = 0 := rfl

theorem ofBytes_cons (b : UInt8) (l : List UInt8) :
    ofBytes (b :: l) = b.toNat * 256 ^ l.length + ofBytes l := rfl

@[simp] theorem toBytes_zero (n : ℕ) : toBytes 0 n = [] := rfl

theorem toBytes_succ (k n : ℕ) :
    toBytes (k + 1) n = UInt8.ofNat (n / 256 ^ k) :: toBytes k n := rfl

@[simp] theorem length_toBytes (k n : ℕ) : (toBytes k n).length = k := by
  induction k with
  | zero => rfl
  | succ k ih => simp [toBytes_succ, ih]

theorem ofBytes_lt (l : List UInt8) : ofBytes l < 256 ^ l.length := by
  induction l with
  | nil => simp
  | cons b l ih =>
      have hb : b.toNat + 1 ≤ 256 := b.toNat_lt
      have hmul := Nat.mul_le_mul_right (256 ^ l.length) hb
      rw [ofBytes_cons, List.length_cons, pow_succ]
      linarith

/-- Reading back what was written gives the number modulo the width. -/
theorem ofBytes_toBytes (k n : ℕ) : ofBytes (toBytes k n) = n % 256 ^ k := by
  induction k with
  | zero => simp [Nat.mod_one]
  | succ k ih =>
      have hpow : 256 ^ (k + 1) = 256 ^ k * 256 := pow_succ 256 k
      rw [toBytes_succ, ofBytes_cons, ih, length_toBytes, hpow, Nat.mod_mul, UInt8.toNat_ofNat']
      ring

theorem ofBytes_toBytes_of_lt {k n : ℕ} (h : n < 256 ^ k) : ofBytes (toBytes k n) = n := by
  rw [ofBytes_toBytes, Nat.mod_eq_of_lt h]

/-- The bytes of a number only depend on it modulo the width. -/
theorem toBytes_mod (k n : ℕ) : toBytes k (n % 256 ^ k) = toBytes k n := by
  induction k generalizing n with
  | zero => rfl
  | succ k ih =>
      have hmod : n % 256 ^ (k + 1) % 256 ^ k = n % 256 ^ k :=
        Nat.mod_mod_of_dvd n (pow_dvd_pow 256 (Nat.le_succ k))
      have htail : toBytes k (n % 256 ^ (k + 1)) = toBytes k n := by
        rw [← ih, hmod, ih]
      have hhead : n % 256 ^ (k + 1) / 256 ^ k % 256 = n / 256 ^ k % 256 := by
        rw [pow_succ, Nat.mod_mul_right_div_self, Nat.mod_mod]
      rw [toBytes_succ, toBytes_succ, htail]
      congr 1
      apply UInt8.toNat_inj.1
      simpa using hhead

/-- A list of bytes is the writing of the number it writes. -/
theorem toBytes_ofBytes (l : List UInt8) : toBytes l.length (ofBytes l) = l := by
  induction l with
  | nil => rfl
  | cons b l ih =>
      have hlt := ofBytes_lt l
      have hdiv : (b.toNat * 256 ^ l.length + ofBytes l) / 256 ^ l.length = b.toNat := by
        rw [Nat.mul_comm, Nat.mul_add_div (by positivity), Nat.div_eq_of_lt hlt, Nat.add_zero]
      have hmod : (b.toNat * 256 ^ l.length + ofBytes l) % 256 ^ l.length = ofBytes l := by
        rw [Nat.mul_comm, Nat.mul_add_mod, Nat.mod_eq_of_lt hlt]
      rw [List.length_cons, toBytes_succ, ofBytes_cons, hdiv, UInt8.ofNat_toNat]
      rw [← toBytes_mod, hmod, ih]

/-- Bytes of a known number are determined by the number that they write. -/
theorem eq_of_ofBytes_eq {l l' : List UInt8} (h : ofBytes l = ofBytes l')
    (hlen : l.length = l'.length) : l = l' := by
  rw [← toBytes_ofBytes l, ← toBytes_ofBytes l', hlen, h]

/-- Zeros in front do not change the number. -/
theorem ofBytes_replicate_zero_append (k : ℕ) (l : List UInt8) :
    ofBytes (List.replicate k 0 ++ l) = ofBytes l := by
  induction k with
  | zero => rfl
  | succ k ih =>
      rw [List.replicate_succ, List.cons_append, ofBytes_cons, ih]
      simp

/-- The first `j` of `j + k` bytes write the number without its last `k` bytes. -/
theorem toBytes_add (j k n : ℕ) : toBytes (j + k) n = toBytes j (n / 256 ^ k) ++ toBytes k n := by
  induction j with
  | zero => simp
  | succ j ih =>
      rw [Nat.succ_add, toBytes_succ, toBytes_succ, ih, Nat.div_div_eq_div_mul, ← pow_add,
        Nat.add_comm k j, List.cons_append]

theorem drop_toBytes (j k n : ℕ) : (toBytes (j + k) n).drop j = toBytes k n := by
  rw [toBytes_add, List.drop_left' (length_toBytes j _)]

/-- The bytes in the middle. -/
theorem take_drop_toBytes (i j k n : ℕ) :
    ((toBytes (i + (j + k)) n).drop i).take j = toBytes j (n / 256 ^ k) := by
  rw [drop_toBytes, toBytes_add, List.take_left' (length_toBytes j _)]

theorem getElem?_toBytes (k n i : ℕ) (h : i < k) :
    (toBytes k n)[i]? = some (UInt8.ofNat (n / 256 ^ (k - 1 - i))) := by
  induction k generalizing i with
  | zero => omega
  | succ k ih =>
      cases i with
      | zero => simp [toBytes_succ]
      | succ i =>
          have hexp : k + 1 - 1 - (i + 1) = k - 1 - i := by omega
          rw [toBytes_succ, List.getElem?_cons_succ, ih i (by omega), hexp]

/-- **Numbers of one width compare as their bytes do.** -/
theorem toBytes_lt_toBytes_iff {k m n : ℕ} (hm : m < 256 ^ k) (hn : n < 256 ^ k) :
    toBytes k m < toBytes k n ↔ m < n := by
  induction k generalizing m n with
  | zero =>
      have hm0 : m = 0 := by simpa using hm
      have hn0 : n = 0 := by simpa using hn
      simp [hm0, hn0]
  | succ k ih =>
      have hpos : 0 < 256 ^ k := by positivity
      have hpow : 256 ^ (k + 1) = 256 ^ k * 256 := pow_succ 256 k
      have hmq : m / 256 ^ k < 256 := Nat.div_lt_of_lt_mul (hpow ▸ hm)
      have hnq : n / 256 ^ k < 256 := Nat.div_lt_of_lt_mul (hpow ▸ hn)
      have htail := ih (Nat.mod_lt m hpos) (Nat.mod_lt n hpos)
      rw [toBytes_mod, toBytes_mod] at htail
      have hlt : UInt8.ofNat (m / 256 ^ k) < UInt8.ofNat (n / 256 ^ k) ↔
          m / 256 ^ k < n / 256 ^ k := by
        rw [UInt8.lt_iff_toNat_lt, UInt8.toNat_ofNat', UInt8.toNat_ofNat',
          Nat.mod_eq_of_lt hmq, Nat.mod_eq_of_lt hnq]
      have heq : UInt8.ofNat (m / 256 ^ k) = UInt8.ofNat (n / 256 ^ k) ↔
          m / 256 ^ k = n / 256 ^ k := by
        rw [← UInt8.toNat_inj, UInt8.toNat_ofNat', UInt8.toNat_ofNat',
          Nat.mod_eq_of_lt hmq, Nat.mod_eq_of_lt hnq]
      have hmdm := Nat.div_add_mod m (256 ^ k)
      have hndm := Nat.div_add_mod n (256 ^ k)
      rw [toBytes_succ, toBytes_succ, List.cons_lt_cons_iff, hlt, heq, htail]
      constructor
      · rintro (h | ⟨h, hrest⟩)
        · exact lt_of_not_ge fun hge => absurd (Nat.div_le_div_right hge) (not_le.2 h)
        · rw [h] at hmdm
          omega
      · intro h
        rcases Nat.lt_or_ge (m / 256 ^ k) (n / 256 ^ k) with hq | hq
        · exact Or.inl hq
        · have hqe : m / 256 ^ k = n / 256 ^ k :=
            le_antisymm (Nat.div_le_div_right h.le) hq
          refine Or.inr ⟨hqe, ?_⟩
          rw [hqe] at hmdm
          omega

end BigEndian
