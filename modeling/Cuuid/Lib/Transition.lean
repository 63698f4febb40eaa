/-
**Runs of a transition system.**

A transition system is a partial step function, which answers `none` to an action that is not
possible in a state.  A run is a list of actions that are all possible, one after the other.

Some invariants only hold as long as a quantity that never shrinks has not grown too large.  What is
known then is a bound at the *end* of the run, and `run_induction` carries it back through the run.

Main definitions:

* `Transition.run` — the state after a list of actions, if they are all possible.

Main results:

* `Transition.run_cons_iff`, `Transition.run_append_iff` — how runs are put together;
* `Transition.run_invariant` — **the invariant rule**;
* `Transition.run_induction` — **the invariant rule under a bound** on the last state;
* `Transition.bound_of_run` — a bound on the last state holds of every state of the run;
* `Transition.run_project` — a run of a system with records is one of the system without them.
-/

import Mathlib.Data.Option.Basic

set_option relaxedAutoImplicit false
set_option autoImplicit false

namespace Transition

variable {σ α : Type*}

/-- The state after a list of actions, if each is possible in its turn. -/
def run (step : σ → α → Option σ) : σ → List α → Option σ
  | s, [] => some s
  | s, a :: as => (step s a).bind fun s' => run step s' as

variable {step : σ → α → Option σ}

theorem run_cons_iff {s s'' : σ} {a : α} {as : List α} :
    run step s (a :: as) = some s'' ↔ ∃ s', step s a = some s' ∧ run step s' as = some s'' :=
  Option.bind_eq_some_iff

/-- A run of two parts stops between them. -/
theorem run_append_iff {s s'' : σ} {as bs : List α} :
    run step s (as ++ bs) = some s'' ↔
      ∃ s', run step s as = some s' ∧ run step s' bs = some s'' := by
  induction as generalizing s with
  | nil => simp [run]
  | cons a as ih =>
      rw [List.cons_append, run_cons_iff]
      constructor
      · rintro ⟨s₁, hstep, hrun⟩
        obtain ⟨s', has, hbs⟩ := ih.1 hrun
        exact ⟨s', run_cons_iff.2 ⟨s₁, hstep, has⟩, hbs⟩
      · rintro ⟨s', has, hbs⟩
        obtain ⟨s₁, hstep, has⟩ := run_cons_iff.1 has
        exact ⟨s₁, hstep, ih.2 ⟨s', has, hbs⟩⟩

/-- **The invariant rule**: what every step preserves, every run preserves. -/
theorem run_invariant {I : σ → Prop}
    (hstep : ∀ {s a s'}, step s a = some s' → I s → I s') {s s' : σ} {as : List α} (hs : I s)
    (hrun : run step s as = some s') : I s' := by
  induction as generalizing s with
  | nil =>
      rw [run, Option.some.injEq] at hrun
      rwa [← hrun]
  | cons a as ih =>
      obtain ⟨s₁, hfirst, hrest⟩ := run_cons_iff.1 hrun
      exact ih (hstep hfirst hs) hrest

/-- A bound that every step reflects holds of every state before one that it holds of. -/
theorem bound_of_run {B : σ → Prop} (hback : ∀ {s a s'}, step s a = some s' → B s' → B s)
    {s s' : σ} {as : List α} (hrun : run step s as = some s') (hB : B s') : B s := by
  -- the rule for the invariant "if the bound holds now, it held at the start"
  have hinv : B s' → B s :=
    run_invariant (I := fun t => B t → B s) (fun hstep hs ht => hs (hback hstep ht)) id hrun
  exact hinv hB

/-- **The invariant rule under a bound** on the last state, where every step reflects the bound. -/
theorem run_induction {B I : σ → Prop} (hback : ∀ {s a s'}, step s a = some s' → B s' → B s)
    (hstep : ∀ {s a s'}, step s a = some s' → B s' → I s → I s') {s s' : σ} {as : List α}
    (hs : I s) (hrun : run step s as = some s') (hB : B s') : I s' := by
  have hinv : B s' → I s' :=
    run_invariant (I := fun t => B t → I t)
      (fun hst hI ht => hstep hst ht (hI (hback hst ht))) (fun _ => hs) hrun
  exact hinv hB

/-- A system that keeps records of another system runs when that system runs. -/
theorem run_project {τ : Type*} {step' : τ → α → Option τ} {π : σ → τ}
    (hstep : ∀ {s a s'}, step s a = some s' → step' (π s) a = some (π s')) {s s' : σ} {as : List α}
    (hrun : run step s as = some s') : run step' (π s) as = some (π s') := by
  induction as generalizing s with
  | nil =>
      rw [run, Option.some.injEq] at hrun
      rw [hrun, run]
  | cons a as ih =>
      obtain ⟨s₁, hfirst, hrest⟩ := run_cons_iff.1 hrun
      exact run_cons_iff.2 ⟨π s₁, hstep hfirst, ih hrest⟩

end Transition
