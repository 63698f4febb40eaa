/-
**The content of a wire of the second format.**

A wire of the second format frames one number.  The number has a time in milliseconds, a clock, and
either the salt from which a node is reconstructed or the node itself, with a flag in its lowest bit;
the time comes first and has no fixed width.  This module says what the numbers mean, apart from the
integers that a program reads them with.

Main definitions:

* `Cuuid.Prototype.Content` — the fields that a wire carries;
* `Cuuid.Prototype.Content.number`, `Cuuid.Prototype.Content.ofNumber` — the number of the fields, and
  the fields of a number.

Main results:

* `Cuuid.Prototype.Content.ofNumber_number` — the fields are determined by their number;
* `Cuuid.Prototype.Content.number_lt` — up to 60 bits of time, the number fits the framing.
-/

import Mathlib.Data.BitVec
import Cuuid.Lib.BitField

set_option relaxedAutoImplicit false
set_option autoImplicit false

namespace Cuuid.Prototype

open BitField

/-- The fields that a wire carries; the time is in milliseconds since the start of 2026. -/
inductive Content
  /-- The node is reconstructed from the other fields. -/
  | compact (v2ms : ℕ) (clock : BitVec 14) (salt : BitVec 7)
  /-- The node is stored. -/
  | expanded (v2ms : ℕ) (clock : BitVec 14) (node : BitVec 48)
deriving DecidableEq, Repr

namespace Content

/-- The time of the fields. -/
def v2ms : Content → ℕ
  | compact ms _ _ => ms
  | expanded ms _ _ => ms

/-- The fields as one number, the time first and the flag last. -/
def number : Content → ℕ
  | compact ms c s => ms * 2 ^ 22 + c.toNat * 2 ^ 8 + s.toNat * 2 ^ 1 + 1
  | expanded ms c n => ms * 2 ^ 63 + c.toNat * 2 ^ 49 + n.toNat * 2 ^ 1

/-! A program joins the fields with a bitwise or. -/

theorem or_eq_number_compact (ms : ℕ) (c : BitVec 14) (s : BitVec 7) :
    ms * 2 ^ 22 ||| c.toNat * 2 ^ 8 ||| s.toNat * 2 ^ 1 ||| 1 = (compact ms c s).number := by
  have hc := c.isLt
  have hs := s.isLt
  rw [or_eq_add (ms * 2 ^ 22) (c.toNat * 2 ^ 8) 22 (by omega) (by omega),
    or_eq_add _ (s.toNat * 2 ^ 1) 8 (by omega) (by omega), or_eq_add _ 1 1 (by omega) (by decide)]
  rfl

theorem or_eq_number_expanded (ms : ℕ) (c : BitVec 14) (n : BitVec 48) :
    ms * 2 ^ 63 ||| c.toNat * 2 ^ 49 ||| n.toNat * 2 ^ 1 = (expanded ms c n).number := by
  have hc := c.isLt
  have hn := n.isLt
  rw [or_eq_add (ms * 2 ^ 63) (c.toNat * 2 ^ 49) 63 (by omega) (by omega),
    or_eq_add _ (n.toNat * 2 ^ 1) 49 (by omega) (by omega)]
  rfl

/-- The fields of a number. -/
def ofNumber (v : ℕ) : Content :=
  if v % 2 = 1 then compact (v / 2 ^ 22) (BitVec.ofNat 14 (v / 2 ^ 8)) (BitVec.ofNat 7 (v / 2 ^ 1))
  else expanded (v / 2 ^ 63) (BitVec.ofNat 14 (v / 2 ^ 49)) (BitVec.ofNat 48 (v / 2 ^ 1))

/-- **The fields are determined by their number.** -/
theorem ofNumber_number (c : Content) : ofNumber c.number = c := by
  cases c with
  | compact ms c s =>
      have hc := c.isLt
      have hs := s.isLt
      rw [ofNumber, if_pos (by simp only [number]; omega)]
      simp only [number, compact.injEq, ← BitVec.toNat_inj, BitVec.toNat_ofNat]
      omega
  | expanded ms c n =>
      have hc := c.isLt
      have hn := n.isLt
      rw [ofNumber, if_neg (by simp only [number]; omega)]
      simp only [number, expanded.injEq, ← BitVec.toNat_inj, BitVec.toNat_ofNat]
      omega

/-- Up to 60 bits of time, the number fits the framing. -/
theorem number_lt {c : Content} (h : c.v2ms < 2 ^ 60) : c.number < 2 ^ 123 := by
  cases c with
  | compact ms c s =>
      have hc := c.isLt
      have hs := s.isLt
      simp only [v2ms] at h
      simp only [number]
      omega
  | expanded ms c n =>
      have hc := c.isLt
      have hn := n.isLt
      simp only [v2ms] at h
      simp only [number]
      omega

end Content

end Cuuid.Prototype
