/-
**Bisection.**

A search for the first number of an interval that has a property, for a property that every number
has after the first one that has it.  The interval is halved at the number in its middle, and the
search keeps the half that begins after a number without the property or ends at one that has it.

Main definitions:

* `Bisect.search` — the search.

Main results:

* `Bisect.search_spec` — **what the search separates**;
* `Bisect.isLeast_search` — **it finds the first number**, if there is one before the end.
-/

import Mathlib.Order.Bounds.Basic

set_option relaxedAutoImplicit false
set_option autoImplicit false

namespace Bisect

/-- The search from `lo` on, which gives up at `hi`. -/
def search (p : ℕ → Bool) (lo hi : ℕ) : ℕ :=
  if lo < hi then
    let mid := (lo + hi) / 2
    if p mid then search p lo mid else search p (mid + 1) hi
  else lo
termination_by hi - lo

variable {p : ℕ → Bool}

/-- The numbers after one that has the property have it. -/
def Upward (p : ℕ → Bool) : Prop := ∀ m n, m ≤ n → p m = true → p n = true

/-- **What the search separates**: nothing before its result has the property, and everything from
there to the end does. -/
theorem search_spec (hp : Upward p) (lo hi : ℕ) (hle : lo ≤ hi) :
    lo ≤ search p lo hi ∧ search p lo hi ≤ hi ∧
      (∀ n, lo ≤ n → n < search p lo hi → p n = false) ∧
      ∀ n, search p lo hi ≤ n → n < hi → p n = true := by
  induction lo, hi using search.induct p with
  | case1 lo hi hlt mid hmid ih =>
      -- the middle has the property, so everything from there on does
      obtain ⟨hlo, hhi, hbelow, habove⟩ := ih (by omega)
      have hstep : search p lo hi = search p lo mid := by
        rw [search, if_pos hlt, if_pos hmid]
      rw [hstep]
      refine ⟨hlo, by omega, hbelow, fun n hn _ => ?_⟩
      rcases Nat.lt_or_ge n mid with hbefore | hafter
      · exact habove n hn hbefore
      · exact hp mid n hafter hmid
  | case2 lo hi hlt mid hmid ih =>
      -- the middle does not, so nothing before it does
      obtain ⟨hlo, hhi, hbelow, habove⟩ := ih (by omega)
      have hstep : search p lo hi = search p (mid + 1) hi := by
        rw [search, if_pos hlt, if_neg hmid]
      rw [hstep]
      refine ⟨by omega, hhi, fun n _ hn' => ?_, habove⟩
      rcases Nat.lt_or_ge mid n with hafter | hbefore
      · exact hbelow n hafter hn'
      · rw [Bool.eq_false_iff]
        exact fun hn => hmid (hp n mid hbefore hn)
  | case3 lo hi hlt =>
      rw [search, if_neg hlt]
      exact ⟨le_rfl, hle, fun n h h' => absurd h' (by omega), fun n h h' => absurd h' (by omega)⟩

/-- **The first number** with the property is found, if it is before the end. -/
theorem isLeast_search (hp : Upward p) {hi m : ℕ} (hm : m < hi) (hpm : p m = true) :
    IsLeast {n | p n = true} (search p 0 hi) := by
  obtain ⟨-, -, hbelow, habove⟩ := search_spec hp 0 hi (Nat.zero_le _)
  have hfound : search p 0 hi ≤ m := by
    by_contra hlt
    have hnot := hbelow m (Nat.zero_le _) (by omega)
    rw [hpm] at hnot
    cases hnot
  refine ⟨habove _ le_rfl (by omega), fun n hn => ?_⟩
  by_contra hlt
  have hnot := hbelow n (Nat.zero_le _) (by omega)
  have hn' : p n = true := hn
  rw [hnot] at hn'
  cases hn'

end Bisect
