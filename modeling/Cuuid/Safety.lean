/-
**Reads stay inside the input.**

Every read of the input, of the buffer and of the table is a partial operation of the model, and one
that is out of range ends the call with a fault of its own.  This module says which calls can end
so.  The decoders check the size of their input at different places: `UUID::unserialise` before it
reads anything, the umbrella before it looks at the first byte, and the condenser only once it has
the length from there.  Whoever calls the condenser has to know that the input is not empty, and
`cuuid_v6::unserialise` passes its own input on.

Main definitions:

* `Cuuid.EntryPoint`, `Cuuid.EntryPoint.fault` — the public decoders, and how a call of one ends;
* `Cuuid.EntryPoint.Safe` — the call returns a value or throws a `SerialisationError`.

Main results:

* `Cuuid.safe_iff` — **which calls are safe**: all but those of the condenser, and of the v6 decoder,
  on an empty input.
-/

import Cuuid.Packed

set_option relaxedAutoImplicit false
set_option autoImplicit false

namespace Cuuid

open Framing

/-! ### Entry points -/

/-- The public decoders. -/
inductive EntryPoint
  /-- `UUID::unserialise`, for one element. -/
  | uuid
  /-- `UUID::unserialise`, for a packed list. -/
  | uuidList
  /-- `cuuid_v6::unserialise`. -/
  | v6
  /-- `cuuid::unserialise`, for one element. -/
  | cuuid (codec : Codec)
  /-- `cuuid::unserialise`, for a packed list. -/
  | cuuidList (codec : Codec)
  /-- `UUIDCondenser::unserialise`. -/
  | condenser
deriving DecidableEq, Repr

/-- The fault that a call ended with, if it did not return a value. -/
def faultOf {α : Type} : EStateM.Result Fault Bytes α → Option Fault
  | .ok _ _ => none
  | .error e _ => some e

namespace EntryPoint

/-- The fault that a call ends with, or `none` when the fuel of a list was not enough. -/
def fault (fuel : ℕ) (b : Bytes) : EntryPoint → Option (Option Fault)
  | uuid => some (faultOf (UUID.unserialise b))
  | uuidList => (UUID.unserialiseList fuel b).map Outcome.err
  | v6 => some (faultOf (V6.unserialise b))
  | cuuid codec => some (faultOf (unserialise codec b))
  | cuuidList codec => (unserialiseList codec fuel b).map Outcome.err
  | condenser => some (faultOf (UUIDCondenser.unserialise b))

/-- The call ends, with fuel for one element per byte, and no read of it was out of range: it
returned a value, or threw a `SerialisationError`. -/
def Safe (d : EntryPoint) (b : Bytes) : Prop :=
  ∀ fuel, b.length < fuel → ∃ f, d.fault fuel b = some f ∧
    ∀ e, f = some e → ∃ message, e = .serialisationError message

end EntryPoint

/-! ### One call -/

/-- Under either codec a call either returns or throws a `SerialisationError`. -/
theorem safe_cuuid (codec : Codec) (b : Bytes) : (EntryPoint.cuuid codec).Safe b := by
  intro fuel _
  refine ⟨_, rfl, fun e he => ?_⟩
  cases h : unserialise codec b with
  | ok u r => simp [h, faultOf] at he
  | error e' s =>
      rw [h, faultOf, Option.some.injEq] at he
      exact he ▸ (unserialise_error h).2

/-- A loop over a packed list only calls the decoder while there is input. -/
theorem safe_cuuidList (codec : Codec) (b : Bytes) : (EntryPoint.cuuidList codec).Safe b := by
  intro fuel hfuel
  obtain ⟨o, ho⟩ := drain_terminates (consumes_unserialise codec) fuel b hfuel
  obtain ⟨-, hend⟩ := drain_spec (clean_unserialise codec) fuel b o ho
  have ho' : unserialiseList codec fuel b = some o := ho
  refine ⟨o.err, by rw [EntryPoint.fault, ho', Option.map_some], fun e he => ?_⟩
  rcases hend with ⟨hnone, -⟩ | ⟨e', he', -, hthrow⟩
  · simp [hnone] at he
  · rw [he, Option.some.injEq] at he'
    exact he' ▸ (unserialise_error hthrow).2

theorem safe_condenser_cons (x : UInt8) (l : Bytes) : EntryPoint.condenser.Safe (x :: l) := by
  intro fuel _
  refine ⟨_, rfl, fun e he => ?_⟩
  rw [UUIDCondenser.unserialise_eq] at he
  cases hdec : vlTable.decode (x :: l) with
  | none =>
      simp only [hdec, faultOf, Option.some.injEq] at he
      exact ⟨_, he.symm⟩
  | some p => simp [hdec, faultOf] at he

theorem safe_v6_cons (x : UInt8) (l : Bytes) : EntryPoint.v6.Safe (x :: l) := by
  intro fuel _
  refine ⟨_, rfl, fun e he => ?_⟩
  simp only [V6.unserialise, bind, EStateM.bind, uncondense_cons] at he
  cases hdec : vlTable.decode (x :: l) with
  | none =>
      simp only [hdec, faultOf, Option.some.injEq] at he
      exact ⟨_, he.symm⟩
  | some p => simp [hdec, faultOf, pure, EStateM.pure] at he

/-- The first byte is read before the size is checked. -/
theorem not_safe_of_fault {d : EntryPoint} {b : Bytes}
    (h : ∀ fuel, d.fault fuel b = some (some .outOfRange)) : ¬ d.Safe b := by
  intro hsafe
  obtain ⟨f, hf, herr⟩ := hsafe (b.length + 1) (Nat.lt_succ_self _)
  rw [h, Option.some.injEq] at hf
  obtain ⟨message, hmessage⟩ := herr _ hf.symm
  injection hmessage

/-- **Which calls are safe**: all of them, except the calls of the condenser and of the v6 decoder
on an empty input, which read a byte that is not there. -/
theorem safe_iff (d : EntryPoint) (b : Bytes) :
    d.Safe b ↔ b ≠ [] ∨ d ≠ .v6 ∧ d ≠ .condenser := by
  cases d with
  | uuid => exact iff_of_true (safe_cuuid .v1 b) (Or.inr (by decide))
  | uuidList => exact iff_of_true (safe_cuuidList .v1 b) (Or.inr (by decide))
  | cuuid codec => exact iff_of_true (safe_cuuid codec b) (Or.inr (by simp))
  | cuuidList codec => exact iff_of_true (safe_cuuidList codec b) (Or.inr (by simp))
  | v6 =>
      cases b with
      | nil => exact iff_of_false (not_safe_of_fault fun _ => rfl) (by simp)
      | cons x l => exact iff_of_true (safe_v6_cons x l) (Or.inl (by simp))
  | condenser =>
      cases b with
      | nil => exact iff_of_false (not_safe_of_fault fun _ => rfl) (by simp)
      | cons x l => exact iff_of_true (safe_condenser_cons x l) (Or.inl (by simp))

/-- The v6 decoder reads past the end of an empty input. -/
theorem not_safe_v6_nil : ¬ ∀ (d : EntryPoint) (b : Bytes), d.Safe b := by
  intro h
  exact not_safe_of_fault (d := .v6) (b := []) (fun _ => rfl) (h .v6 [])

end Cuuid
