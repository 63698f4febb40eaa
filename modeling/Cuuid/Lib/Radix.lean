/-
**Positional numerals in two bases.**

A text form of bytes reads them as one number in base 256 and writes the digits of that number in
another base.  This module is about the numerals alone, most significant digit first as a program
reads them: Mathlib's digits are the other way round.  A reader that accumulates digits may be handed
a negative one, and then the sign of what it has accumulated is that of the first digit that counts.

Main definitions:

* `Radix.horner` — the number that a reader accumulates from its digits.

Main results:

* `Radix.horner_neg_iff` — **the sign of a numeral** is that of its first digit other than zero;
* `Radix.horner_digits` — the digits of a number accumulate to it;
* `Radix.digits_ofBytes` — **the base 256 digits of the number of some bytes** are these bytes without
  the zeros in front.
-/

import Mathlib.Data.Nat.Digits.Defs
import Mathlib.Data.List.DropRight
import Mathlib.Tactic.Linarith
import Cuuid.Lib.BigEndian

set_option relaxedAutoImplicit false
set_option autoImplicit false

namespace Radix

open BigEndian

/-- The number that a reader accumulates from its digits, from `acc` on. -/
def horner (b : ℤ) (acc : ℤ) (ds : List ℤ) : ℤ := ds.foldl (fun acc d => acc * b + d) acc

@[simp] theorem horner_nil (b acc : ℤ) : horner b acc [] = acc := rfl

@[simp] theorem horner_cons (b acc d : ℤ) (ds : List ℤ) :
    horner b acc (d :: ds) = horner b (acc * b + d) ds := rfl

/-! ### The sign of a numeral -/

section

variable {b : ℤ} {ds : List ℤ}

/-- Digits below the base do not change a positive sign. -/
theorem horner_pos (hds : ∀ d ∈ ds, -b < d ∧ d < b) {acc : ℤ} (hacc : 0 < acc) :
    0 < horner b acc ds := by
  induction ds generalizing acc with
  | nil => exact hacc
  | cons d ds ih =>
      obtain ⟨hlo, hhi⟩ := hds d (List.mem_cons_self ..)
      have hmul : b ≤ acc * b := by nlinarith
      exact ih (fun e he => hds e (List.mem_cons_of_mem _ he)) (by linarith)

/-- Digits below the base do not change a negative sign. -/
theorem horner_neg (hds : ∀ d ∈ ds, -b < d ∧ d < b) {acc : ℤ} (hacc : acc < 0) :
    horner b acc ds < 0 := by
  induction ds generalizing acc with
  | nil => exact hacc
  | cons d ds ih =>
      obtain ⟨hlo, hhi⟩ := hds d (List.mem_cons_self ..)
      have hmul : acc * b ≤ -b := by nlinarith
      exact ih (fun e he => hds e (List.mem_cons_of_mem _ he)) (by linarith)

/-- **The sign of a numeral** is that of its first digit other than zero. -/
theorem horner_neg_iff (hds : ∀ d ∈ ds, -b < d ∧ d < b) :
    horner b 0 ds < 0 ↔ ∃ d, (ds.dropWhile (· = 0)).head? = some d ∧ d < 0 := by
  induction ds with
  | nil => simp
  | cons d ds ih =>
      have htail : ∀ e ∈ ds, -b < e ∧ e < b := fun e he => hds e (List.mem_cons_of_mem _ he)
      rw [horner_cons, Int.zero_mul, Int.zero_add]
      rcases lt_trichotomy d 0 with hneg | rfl | hpos
      · rw [List.dropWhile_cons_of_neg (by simpa using hneg.ne)]
        exact iff_of_true (horner_neg htail hneg) ⟨d, rfl, hneg⟩
      · rw [List.dropWhile_cons_of_pos (by simp)]
        exact ih htail
      · rw [List.dropWhile_cons_of_neg (by simpa using hpos.ne')]
        have hlt := horner_pos htail hpos
        refine iff_of_false (by omega) ?_
        rintro ⟨e, he, hneg⟩
        cases he
        omega

end

/-! ### Numerals of natural numbers -/

theorem horner_natCast (b acc : ℕ) (ds : List ℕ) :
    horner b acc (ds.map Nat.cast) = ((acc * b ^ ds.length + Nat.ofDigits b ds.reverse : ℕ) : ℤ) := by
  induction ds generalizing acc with
  | nil => simp
  | cons d ds ih =>
      have hstep : (acc : ℤ) * b + d = ((acc * b + d : ℕ) : ℤ) := by push_cast; rfl
      rw [List.map_cons, horner_cons, hstep, ih, Nat.ofDigits_reverse_cons, List.length_cons, pow_succ]
      congr 1
      ring

/-- The digits of a number accumulate to it. -/
theorem horner_digits (b n : ℕ) : horner b 0 ((Nat.digits b n).reverse.map Nat.cast) = n := by
  have hcast := horner_natCast b 0 (Nat.digits b n).reverse
  rw [List.reverse_reverse, Nat.ofDigits_digits, Nat.zero_mul, Nat.zero_add] at hcast
  exact_mod_cast hcast

/-! ### Bytes -/

theorem ofBytes_eq_ofDigits (l : List UInt8) :
    ofBytes l = Nat.ofDigits 256 (l.map UInt8.toNat).reverse := by
  induction l with
  | nil => rfl
  | cons b l ih =>
      rw [ofBytes_cons, List.map_cons, Nat.ofDigits_reverse_cons, List.length_map, ih]
      ring

/-- The number of some bytes is that of these bytes without the zeros in front. -/
theorem ofBytes_dropWhile (l : List UInt8) : ofBytes (l.dropWhile (· = 0)) = ofBytes l := by
  induction l with
  | nil => rfl
  | cons b l ih =>
      by_cases hb : b = 0
      · rw [List.dropWhile_cons_of_pos (by simpa using hb), ih, ofBytes_cons, hb]
        simp
      · rw [List.dropWhile_cons_of_neg (by simpa using hb)]

/-- **The base 256 digits of the number of some bytes** are these bytes without the zeros in front. -/
theorem digits_ofBytes (l : List UInt8) :
    (Nat.digits 256 (ofBytes l)).reverse = (l.dropWhile (· = 0)).map UInt8.toNat := by
  have hbyte : ∀ d ∈ ((l.dropWhile (· = 0)).map UInt8.toNat).reverse, d < 256 := by
    intro d hd
    obtain ⟨b, -, rfl⟩ := List.mem_map.1 (List.mem_reverse.1 hd)
    exact b.toNat_lt
  have hfirst : ∀ h : ((l.dropWhile (· = 0)).map UInt8.toNat).reverse ≠ [],
      (((l.dropWhile (· = 0)).map UInt8.toNat).reverse).getLast h ≠ 0 := by
    intro h hzero
    rw [List.getLast_reverse, List.head_map] at hzero
    have hne : l.dropWhile (fun b => decide (b = 0)) ≠ [] := by simpa using h
    have hhead := List.head_dropWhile_not (fun b => decide (b = 0)) hne
    rw [decide_eq_false_iff_not] at hhead
    exact hhead (UInt8.toNat_inj.1 hzero)
  rw [← ofBytes_dropWhile, ofBytes_eq_ofDigits, Nat.digits_ofDigits 256 (by decide) _ hbyte hfirst,
    List.reverse_reverse]

end Radix
