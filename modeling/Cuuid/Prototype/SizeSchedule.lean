/-
**When the wires of the second format grow.**

The analysis of the second format prints from which millisecond on a compact wire has a number of
bytes.  It searches for the first millisecond whose smallest number, behind one byte for the length,
takes so many bytes.  The encoder has no byte for the length: it folds the length into the first byte,
as long as there is room.  This module shows what the search finds, and how the lengths of the wires
follow the schedule: later, by the bits that the first byte has left over.

Main definitions:

* `Cuuid.Prototype.totalSize`, `Cuuid.Prototype.firstV2ms` — the schedule.

Main results:

* `Cuuid.Prototype.firstV2ms_least` — **what the search finds**;
* `Cuuid.Prototype.wire_schedule` — **when a wire grows**.
-/

import Mathlib.Data.Nat.Size
import Cuuid.Lib.Bisect
import Cuuid.Prototype.WireOrder

set_option relaxedAutoImplicit false
set_option autoImplicit false

namespace Cuuid.Prototype

open Bisect LengthFold

/-- `total_size`: one byte for the length, and the bytes of the number. -/
def totalSize (v2ms : ℕ) : ℕ :=
  let value := (v2ms <<< 22) ||| 1
  1 + (value.size + 7) / 8

/-- `first_v2ms`. -/
def firstV2ms (target : ℕ) : ℕ := search (fun mid => totalSize mid ≥ target) 0 (1 <<< 62)

/-- A total size is reached with the number that needs its last byte. -/
theorem le_totalSize_iff (v2ms k : ℕ) : k + 2 ≤ totalSize v2ms ↔ 2 ^ (8 * k) ≤ v2ms * 2 ^ 22 + 1 := by
  have hvalue : (v2ms <<< 22) ||| 1 = v2ms * 2 ^ 22 + 1 := by
    rw [Nat.shiftLeft_eq]
    exact BitField.or_eq_add _ _ 22 (by omega) (by decide)
  rw [totalSize, hvalue, ← Nat.lt_size]
  omega

/-- Later numbers do not take less. -/
theorem upward_totalSize (target : ℕ) : Upward fun v2ms => totalSize v2ms ≥ target := by
  intro m n hle hm
  have hm' := of_decide_eq_true hm
  refine decide_eq_true ?_
  rcases Nat.lt_or_ge target 2 with hsmall | hlarge
  · have hone : 1 ≤ totalSize n := Nat.le_add_right _ _
    omega
  · obtain ⟨k, rfl⟩ := Nat.exists_eq_add_of_le' hlarge
    rw [ge_iff_le, le_totalSize_iff] at hm' ⊢
    exact hm'.trans (Nat.add_le_add_right (Nat.mul_le_mul_right _ hle) 1)

theorem firstV2ms_isLeast {target v2ms : ℕ} (hlt : v2ms < 2 ^ 62) (hsize : target ≤ totalSize v2ms) :
    IsLeast {v | target ≤ totalSize v} (firstV2ms target) := by
  have hend : v2ms < 1 <<< 62 := by
    rw [Nat.shiftLeft_eq]
    omega
  have hfound := isLeast_search (upward_totalSize target) hend (decide_eq_true hsize)
  simpa only [firstV2ms, decide_eq_true_eq, ge_iff_le] using hfound

/-- From five bytes on a size is reached by the time alone, whatever the other bits are. -/
theorem firstV2ms_eq {target : ℕ} (h₅ : 5 ≤ target) (h₁₂ : target ≤ 12) :
    firstV2ms target = 2 ^ (8 * target - 38) := by
  obtain ⟨k, rfl⟩ := Nat.exists_eq_add_of_le' (show 2 ≤ target by omega)
  have hiff : ∀ v, k + 2 ≤ totalSize v ↔ 2 ^ (8 * (k + 2) - 38) ≤ v := by
    intro v
    have hpow : 2 ^ (8 * k) = 2 ^ (8 * (k + 2) - 38) * 2 ^ 22 := by
      rw [← pow_add]
      congr 1
      omega
    rw [le_totalSize_iff, hpow]
    omega
  have hpow : 2 ^ (8 * (k + 2) - 38) < 2 ^ 62 := Nat.pow_lt_pow_right (by decide) (by omega)
  have hmin := firstV2ms_isLeast hpow ((hiff _).2 le_rfl)
  exact hmin.unique ⟨(hiff _).2 le_rfl, fun v hv => (hiff v).1 hv⟩

/-- **What the search finds**: for every size that a millisecond before the end has, the first one
that has it.  From five bytes to twelve that is a power of two, two hundred and fifty-six times as late
for every byte. -/
theorem firstV2ms_least :
    (∀ target v2ms, v2ms < 2 ^ 62 → target ≤ totalSize v2ms →
      IsLeast {v | target ≤ totalSize v} (firstV2ms target)) ∧
    ∀ target, 5 ≤ target → target ≤ 12 → firstV2ms target = 2 ^ (8 * target - 38) :=
  ⟨fun _ _ hlt hsize => firstV2ms_isLeast hlt hsize, fun _ h₅ h₁₂ => firstV2ms_eq h₅ h₁₂⟩

/-- The lengths of the slots follow the schedule. -/
theorem extraOf_schedule (ms : ℕ) : 4 ≤ extraOf ms + 1 ∧ extraOf ms + 1 ≤ 9 ∧
    ∀ n, 5 ≤ n → n ≤ 9 →
      (n ≤ extraOf ms + 1 ↔ (if n = 9 then 64 else 4) * firstV2ms n ≤ ms) := by
  unfold extraOf
  refine ⟨?_, ?_, fun n h₅ h₉ => ?_⟩
  · split_ifs <;> decide
  · split_ifs <;> decide
  · rw [firstV2ms_eq h₅ (by omega)]
    interval_cases n <;> split_ifs <;> omega

/-- **When a wire grows.**  The wire of a compacted id from 2026 on has four to nine bytes.  It has at
least five, six, seven or eight bytes from the fourfold time on that the schedule has for that size,
and nine bytes from the sixty-fourfold time on. -/
theorem wire_schedule {id : Cpp.Id} (h : id.From2026) : ∃ w, Cpp.encode (Cpp.crush id) = .ok w ∧
    4 ≤ w.length ∧ w.length ≤ 9 ∧ ∀ n, 5 ≤ n → n ≤ 9 →
      (n ≤ w.length ↔
        (if n = 9 then 64 else 4) * firstV2ms n ≤ (Cpp.gregToV2ms id.time).toNat) := by
  obtain ⟨-, -, hextra, hw⟩ := encode_crush h
  have hlen : (crushWire id).length = extraOf (Cpp.gregToV2ms id.time).toNat + 1 := by
    rw [crushWire, Slot.length_wire, hextra]
    rfl
  refine ⟨_, hw, ?_⟩
  rw [hlen]
  exact extraOf_schedule _

/-- The first millisecond that the schedule gives nine bytes, in July of 2026: the wire has eight. -/
theorem wire_schedule_july : ∃ w,
    Cpp.encode (Cpp.crush ⟨0x01b21dd213814000 + 17672256000000000 + 171798691840000, 5, 0⟩) = .ok w ∧
      ¬ 9 ≤ w.length := by
  obtain ⟨w, hw, -, -, hiff⟩ := @wire_schedule
    ⟨0x01b21dd213814000 + 17672256000000000 + 171798691840000, 5, 0⟩ (by decide)
  refine ⟨w, hw, fun hlen => ?_⟩
  have hms := (hiff 9 (by decide) le_rfl).1 hlen
  rw [firstV2ms_eq (by decide) (by decide)] at hms
  exact absurd hms (by decide)

end Cuuid.Prototype
