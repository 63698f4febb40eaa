/-
**Compaction windows.**

Compaction counts time from the start of 2016, modulo `2 ^ 60`, in windows of `2 ^ 14` ticks: the
window is kept and the tick inside the window is folded into the clock sequence.  Zero stands for
"no time" on both sides and is never rebased.  This module is about that arithmetic on natural
numbers, apart from any machine word.

Everything here rests on one numerical accident: the start of 2016 is not a multiple of `2 ^ 14`
ticks, so that a window other than the first never rebases to time zero.

Main definitions:

* `Cuuid.initial` — the start of 2016;
* `Cuuid.rebase`, `Cuuid.windowOf`, `Cuuid.tickOf` — the time since 2016, its window, and the tick
  inside the window;
* `Cuuid.unbase`, `Cuuid.windowTime` — the time that a time since 2016, and a window, is decoded to.

Main results:

* `Cuuid.windowOf_windowTime`, `Cuuid.tickOf_windowTime` — **decoding a window and rebasing it
  gives the window back**, modulo the number of windows;
* `Cuuid.windowTime_close_iff` — which times are decoded to one less than a window before;
* `Cuuid.unbase_rebase_iff`, `Cuuid.windowTime_windowOf_iff` — which times are decoded exactly;
* `Cuuid.rebase_injOn` — distinct nonzero times stay distinct;
* `Cuuid.windowTime_lt_windowTime` — later windows decode to later times.
-/

import Mathlib.Tactic.SplitIfs
import Cuuid.Common

set_option relaxedAutoImplicit false
set_option autoImplicit false

namespace Cuuid

/-- The start of 2016, in ticks since 1582. -/
def initial : ℕ := 136709125920000000

theorem toNat_uuidTimeInitial : uuidTimeInitial.toNat = initial := by decide

theorem initial_le_iff (t : UInt64) : uuidTimeInitial ≤ t ↔ initial ≤ t.toNat := by
  rw [UInt64.le_iff_toNat_le, toNat_uuidTimeInitial]

theorem eq_initial_iff (t : UInt64) : t = uuidTimeInitial ↔ t.toNat = initial := by
  rw [← UInt64.toNat_inj, toNat_uuidTimeInitial]

/-- The time since 2016, modulo `2 ^ 60`; zero stays zero. -/
def rebase (t : ℕ) : ℕ := if t = 0 then 0 else (t + (2 ^ 60 - initial)) % 2 ^ 60

/-- The window of a time. -/
def windowOf (t : ℕ) : ℕ := rebase t / 2 ^ 14

/-- The tick inside the window. -/
def tickOf (t : ℕ) : ℕ := rebase t % 2 ^ 14

/-- The time that a time since 2016 is decoded to; zero stays zero. -/
def unbase (e : ℕ) : ℕ := if e = 0 then 0 else (e + initial) % 2 ^ 60

/-- The time that a window is decoded to; the first window is decoded to zero. -/
def windowTime (w : ℕ) : ℕ := unbase (w * 2 ^ 14)

@[simp] theorem rebase_zero : rebase 0 = 0 := rfl

@[simp] theorem unbase_zero : unbase 0 = 0 := rfl

@[simp] theorem windowTime_zero : windowTime 0 = 0 := rfl

theorem rebase_lt (t : ℕ) : rebase t < 2 ^ 60 := by
  unfold rebase
  split_ifs <;> omega

theorem windowOf_lt (t : ℕ) : windowOf t < 2 ^ 46 := by
  have h := rebase_lt t
  unfold windowOf
  omega

theorem tickOf_lt (t : ℕ) : tickOf t < 2 ^ 14 := Nat.mod_lt _ (by decide)

theorem unbase_lt (e : ℕ) : unbase e < 2 ^ 60 := by
  unfold unbase
  split_ifs <;> omega

theorem windowTime_lt (w : ℕ) : windowTime w < 2 ^ 60 := unbase_lt _

/-- The time of a window fits in a word. -/
theorem toNat_windowTime (w : ℕ) : (UInt64.ofNat (windowTime w)).toNat = windowTime w := by
  have h := windowTime_lt w
  rw [UInt64.toNat_ofNat', Nat.mod_eq_of_lt (by omega)]

/-- A window and a tick determine the rebased time. -/
theorem windowOf_mul_add_tickOf (t : ℕ) : windowOf t * 2 ^ 14 + tickOf t = rebase t :=
  Nat.div_add_mod' _ _

/-- Rebasing the time of a window gives the start of the window, modulo the number of windows. -/
theorem rebase_windowTime (w : ℕ) : rebase (windowTime w) = w % 2 ^ 46 * 2 ^ 14 := by
  unfold windowTime unbase
  split_ifs with h₀
  · obtain rfl : w = 0 := by omega
    rfl
  · -- the time is not zero, since `initial` is not a multiple of `2 ^ 14`
    have hne : (w * 2 ^ 14 + initial) % 2 ^ 60 ≠ 0 := by
      unfold initial
      omega
    rw [rebase, if_neg hne]
    unfold initial
    omega

theorem windowOf_windowTime (w : ℕ) : windowOf (windowTime w) = w % 2 ^ 46 := by
  rw [windowOf, rebase_windowTime]
  omega

theorem tickOf_windowTime (w : ℕ) : tickOf (windowTime w) = 0 := by
  rw [tickOf, rebase_windowTime]
  omega

/-- **Which windows are decoded to the time of their remainder**: those with a nonzero one, besides
those that are their own remainder. -/
theorem windowTime_mod_iff (w : ℕ) :
    windowTime (w % 2 ^ 46) = windowTime w ↔ w < 2 ^ 46 ∨ w % 2 ^ 46 ≠ 0 := by
  unfold windowTime unbase initial
  split_ifs <;> omega

/-- **Which times are decoded exactly** from the time since 2016: all but the start of 2016 itself,
which is decoded to zero. -/
theorem unbase_rebase_iff {t : ℕ} (ht : t < 2 ^ 60) : unbase (rebase t) = t ↔ t ≠ initial := by
  rcases Nat.eq_zero_or_pos t with rfl | hpos
  · simp [initial]
  · have hr : rebase t = (t + (2 ^ 60 - initial)) % 2 ^ 60 := if_neg (by omega)
    unfold unbase
    unfold initial at *
    split_ifs with h₀ <;> omega

/-- **Which times a window decodes to exactly**: those at the start of a window, except for the
start of 2016 itself, whose window is decoded to zero. -/
theorem windowTime_windowOf_iff {t : ℕ} (ht : t < 2 ^ 60) :
    windowTime (windowOf t) = t ↔ tickOf t = 0 ∧ t ≠ initial := by
  have hsplit := windowOf_mul_add_tickOf t
  have htick := tickOf_lt t
  rcases Nat.eq_zero_or_pos t with rfl | hpos
  · simp [windowOf, tickOf, initial]
  · have hr : rebase t = (t + (2 ^ 60 - initial)) % 2 ^ 60 := if_neg (by omega)
    unfold windowTime unbase
    unfold initial at *
    split_ifs with h₀ <;> omega

/-- **Which times a window moves back by less than its width**: all but those of the first window,
which is decoded to zero, and those before the first start of a window, which wrap around. -/
theorem windowTime_close_iff {t : ℕ} (hpos : 0 < t) (ht : t < 2 ^ 60) :
    windowTime (windowOf t) ≤ t ∧ t - windowTime (windowOf t) < 2 ^ 14 ↔
      2048 ≤ t ∧ ¬ (initial ≤ t ∧ t < initial + 2 ^ 14) := by
  have hsplit := windowOf_mul_add_tickOf t
  have htick := tickOf_lt t
  have hr : rebase t = (t + (2 ^ 60 - initial)) % 2 ^ 60 := if_neg (by omega)
  generalize windowOf t = w at *
  generalize tickOf t = k at *
  unfold windowTime unbase
  unfold initial at *
  split_ifs with h₀ <;> omega

/-- Distinct nonzero times stay distinct when they are rebased. -/
theorem rebase_injOn {t₁ t₂ : ℕ} (h₁ : 0 < t₁) (h₂ : 0 < t₂) (h₁' : t₁ < 2 ^ 60)
    (h₂' : t₂ < 2 ^ 60) (h : rebase t₁ = rebase t₂) : t₁ = t₂ := by
  rw [rebase, rebase, if_neg (by omega), if_neg (by omega)] at h
  unfold initial at h
  omega

/-- A window and a tick determine a nonzero time. -/
theorem eq_of_windowOf_tickOf {t₁ t₂ : ℕ} (h₁ : 0 < t₁) (h₂ : 0 < t₂) (h₁' : t₁ < 2 ^ 60)
    (h₂' : t₂ < 2 ^ 60) (hw : windowOf t₁ = windowOf t₂) (ht : tickOf t₁ = tickOf t₂) :
    t₁ = t₂ := by
  apply rebase_injOn h₁ h₂ h₁' h₂'
  rw [← windowOf_mul_add_tickOf, ← windowOf_mul_add_tickOf, hw, ht]

/-- From 2016 on, rebasing subtracts. -/
theorem rebase_of_le {t : ℕ} (h : initial ≤ t) (ht : t < 2 ^ 60) : rebase t = t - initial := by
  unfold initial at h
  rw [rebase, if_neg (by omega)]
  unfold initial
  omega

/-- Later windows decode to later times, as long as the time does not wrap. -/
theorem windowTime_lt_windowTime {w₁ w₂ : ℕ} (h : w₁ < w₂) (hw : w₂ * 2 ^ 14 + initial < 2 ^ 60) :
    windowTime w₁ < windowTime w₂ := by
  unfold windowTime unbase
  unfold initial at *
  split_ifs <;> omega

end Cuuid
