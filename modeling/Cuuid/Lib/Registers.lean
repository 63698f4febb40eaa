/-
**Registers that are written independently.**

A state holds a value in each of several registers.  Writing a register stores a normal form of the
value that is given, and leaves the other registers alone; a state is known when all of its registers
are.  Where the registers are in memory does not matter here: this module only uses these laws, for
any type of states, and names no program.

Main definitions:

* `Registers.Laws` — the laws of reading and writing;
* `Registers.run`, `Registers.last` — a sequence of writes, and the last value written to a register.

Main results:

* `Registers.Laws.get_run` — **after any writes, a register holds the last value written to it**;
* `Registers.Laws.set_comm` — writes of different registers commute;
* `Registers.Laws.ext_iff` — states are equal when their registers are.
-/

import Mathlib.Data.List.Induction

set_option relaxedAutoImplicit false
set_option autoImplicit false

namespace Registers

variable {ι σ : Type} {β : ι → Type}

/-- The laws of reading and writing registers. -/
structure Laws (get : ∀ i, σ → β i) (set : ∀ i, β i → σ → σ) (norm : ∀ i, β i → β i) : Prop where
  /-- A register holds the normal form of what was written to it. -/
  get_set_self : ∀ i v s, get i (set i v s) = norm i v
  /-- The other registers are left alone. -/
  get_set_of_ne : ∀ {i j}, i ≠ j → ∀ v s, get i (set j v s) = get i s
  /-- A state is known when its registers are. -/
  ext : ∀ {s t}, (∀ i, get i s = get i t) → s = t

/-- A sequence of writes, the first one first. -/
def run (set : ∀ i, β i → σ → σ) (ws : List (Σ i, β i)) (s : σ) : σ :=
  ws.foldl (fun s w => set w.1 w.2 s) s

section

variable [DecidableEq ι]

/-- The value of a write, if it is to register `i`. -/
def arg (i : ι) (w : Σ i, β i) : Option (β i) := if h : w.1 = i then some (h ▸ w.2) else none

/-- The last value written to register `i`. -/
def last (i : ι) (ws : List (Σ i, β i)) : Option (β i) := (ws.filterMap (arg i)).getLast?

theorem arg_self (i : ι) (v : β i) : arg i ⟨i, v⟩ = some v := by
  simp [arg]

theorem arg_of_ne {i j : ι} (h : j ≠ i) (v : β j) : arg i ⟨j, v⟩ = none := by
  simp [arg, h]

theorem last_append_singleton (i : ι) (ws : List (Σ i, β i)) (w : Σ i, β i) :
    last i (ws ++ [w]) = (arg i w).or (last i ws) := by
  cases h : arg i w with
  | none => simp [last, h]
  | some v => simp [last, h]

end

namespace Laws

variable {get : ∀ i, σ → β i} {set : ∀ i, β i → σ → σ} {norm : ∀ i, β i → β i}

/-- **After any writes, a register holds the last value written to it**, or what it held before. -/
theorem get_run [DecidableEq ι] (L : Laws get set norm) (i : ι) (ws : List (Σ i, β i)) (s : σ) :
    get i (run set ws s) = ((last i ws).map (norm i)).getD (get i s) := by
  -- induction from the end: the write that decides is the last one to the register
  induction ws using List.reverseRecOn with
  | nil => rfl
  | append_singleton ws w ih =>
      obtain ⟨j, v⟩ := w
      have hrun : run set (ws ++ [⟨j, v⟩]) s = set j v (run set ws s) := by
        simp [run, List.foldl_append]
      rw [hrun, last_append_singleton]
      by_cases hij : j = i
      · subst hij
        rw [L.get_set_self, arg_self]
        rfl
      · rw [L.get_set_of_ne (Ne.symm hij), arg_of_ne hij, ih]
        rfl

/-- Writes of different registers commute. -/
theorem set_comm (L : Laws get set norm) {i j : ι} (h : i ≠ j) (v : β i) (w : β j) (s : σ) :
    set j w (set i v s) = set i v (set j w s) := by
  apply L.ext
  intro k
  by_cases hki : k = i
  · subst hki
    rw [L.get_set_of_ne h, L.get_set_self, L.get_set_self]
  · by_cases hkj : k = j
    · subst hkj
      rw [L.get_set_self, L.get_set_of_ne hki, L.get_set_self]
    · rw [L.get_set_of_ne hkj, L.get_set_of_ne hki, L.get_set_of_ne hki, L.get_set_of_ne hkj]

theorem ext_iff (L : Laws get set norm) (s t : σ) : s = t ↔ ∀ i, get i s = get i t := by
  constructor
  · intro h i
    rw [h]
  · exact L.ext

end Laws

end Registers
