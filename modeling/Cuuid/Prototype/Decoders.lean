/-
**When the three decoders agree.**

All three prototypes accept what starts with a number written in a slot of the table, and read the same
content off it.  They return the same clock and node always, but not the same time: a wire of sixteen
bytes has room for a count of milliseconds whose Gregorian time has more than 64 bits, and there C++
wraps around while the ports, which cut every other result to 64 bits, do not.  C++ also refuses a
wire whose size is lost in the conversion to `int`.

Main definitions:

* `Cuuid.Prototype.Agree` — the three decoders agree on a byte string.

Main results:

* `Cuuid.Prototype.ofContent_eq_iff` — **the ids of a content** are the same exactly when its time is;
* `Cuuid.Prototype.agree_iff` — **when the decoders agree**;
* `Cuuid.Prototype.not_agree` — they do not agree on every byte string.
-/

import Cuuid.Prototype.Arithmetic

set_option relaxedAutoImplicit false
set_option autoImplicit false

namespace Cuuid.Prototype

open LengthFold Unbounded

/-- The fields of an id, as the ports return them. -/
def Cpp.Id.fields (id : Cpp.Id) : ℤ × ℤ × ℤ := (id.time.toNat, id.clock.toNat, id.node.toNat)

/-- The decoders agree on a byte string: all three refuse it, or all three accept it with the same
time, clock and node. -/
def Agree (w : Bytes) : Prop :=
  Rejects (Cpp.decode w) ∧ Rejects (Python.decode w) ∧ Rejects (JavaScript.decode w) ∨
    ∃ id : Cpp.Id, Cpp.decode w = .ok id ∧ Python.decode w = .ok id.fields ∧
      JavaScript.decode w = .ok id.fields

/-- **The ids of a content** are the same exactly when its time has 64 bits as a Gregorian time. -/
theorem ofContent_eq_iff (c : Content) :
    Python.ofContent c = (Cpp.ofContent c).fields ↔ c.v2ms < 1830687888970956 := by
  have hclock (k : BitVec 14) : (UInt16.ofNat k.toNat).toNat = k.toNat := by
    have hk := k.isLt
    rw [UInt16.toNat_ofNat', Nat.mod_eq_of_lt (by omega)]
  cases c with
  | compact ms k s =>
      have hs := s.isLt
      have hsalt : (UInt8.ofNat s.toNat).toNat = s.toNat := by
        rw [UInt8.toNat_ofNat', Nat.mod_eq_of_lt (by omega)]
      have hnode := reconstructNode_isWord (hasLow_natCast ms) (UInt16.ofNat k.toNat)
        (UInt8.ofNat s.toNat)
      rw [hclock, hsalt] at hnode
      simp only [Python.ofContent, Cpp.ofContent, Cpp.Id.fields, Prod.mk.injEq, hclock, Content.v2ms]
      rw [← v2msToGreg_isWord_iff]
      exact ⟨fun h => h.1, fun h => ⟨h, trivial, hnode⟩⟩
  | expanded ms k n =>
      have hn := n.isLt
      have hnode : (UInt64.ofNat n.toNat).toNat = n.toNat := by
        rw [UInt64.toNat_ofNat', Nat.mod_eq_of_lt (by omega)]
      simp only [Python.ofContent, Cpp.ofContent, Cpp.Id.fields, Prod.mk.injEq, hclock, hnode,
        Content.v2ms]
      rw [← v2msToGreg_isWord_iff]
      exact ⟨fun h => h.1, fun h => ⟨h, trivial⟩⟩

/-- On what does not start with a number written in a slot, all three agree to refuse. -/
theorem agree_of_decode_eq_none {w : Bytes} (h : vlTable.decode w = none) : Agree w := by
  left
  refine ⟨⟨"v6: bad VL length", ?_⟩, ⟨"v6: bad VL length", ?_⟩, ⟨"v6: bad VL length", ?_⟩⟩
  · rw [Cpp.decode_eq, h]
  · rw [Python.decode_eq, h]
  · rw [JavaScript.decode_eq, h]

/-- On a number, the ports agree, and C++ does with them when it reads it and has room for its
time. -/
theorem agree_iff_of_decode {w r : Bytes} {P : ℕ} (h : vlTable.decode w = some (P, r)) :
    Agree w ↔ (w.length : ℤ) - r.length ≤ Cpp.sizeToInt w.length ∧
      (Content.ofNumber P).v2ms < 1830687888970956 := by
  have hcpp := Cpp.decode_eq w
  have hpython := Python.decode_eq w
  have hjs := JavaScript.decode_eq w
  rw [h] at hcpp hpython hjs
  rw [← ofContent_eq_iff]
  constructor
  · rintro (⟨-, ⟨message, hrejects⟩, -⟩ | ⟨id, hid, hfields, -⟩)
    · rw [hpython] at hrejects
      cases hrejects
    · by_cases hroom : (w.length : ℤ) - r.length ≤ Cpp.sizeToInt w.length
      · rw [hcpp.trans (if_pos hroom), Except.ok.injEq] at hid
        rw [hpython, Except.ok.injEq, ← hid] at hfields
        exact ⟨hroom, hfields⟩
      · rw [hcpp.trans (if_neg hroom)] at hid
        cases hid
  · rintro ⟨hroom, hfields⟩
    right
    refine ⟨_, hcpp.trans (if_pos hroom), ?_, ?_⟩
    · rw [hpython, ← hfields]
    · rw [hjs, ← hfields]

/-- **When the decoders agree**: on what does not start with a number written in a slot, and on a
number if the size of the wire as an `int` has room for the slot and the milliseconds are below the
first count whose Gregorian time has more than 64 bits. -/
theorem agree_iff (w : Bytes) : Agree w ↔
    ∀ s ∈ vlTable.slots, ∀ (P : ℕ) (r : Bytes), P < s.cap → w = s.wire P ++ r →
      (s.extra : ℤ) + 1 ≤ Cpp.sizeToInt w.length ∧
        (Content.ofNumber P).v2ms < 1830687888970956 := by
  have hlength {s : Slot} {P : ℕ} {r : Bytes} (hw : w = s.wire P ++ r) :
      (w.length : ℤ) - r.length = s.extra + 1 := by
    rw [hw, List.length_append, Slot.length_wire]
    omega
  constructor
  · intro hagree s hs P r hP hw
    have hdec := Table.decode_wire hs hP r
    rw [← hw] at hdec
    rw [← hlength hw]
    exact (agree_iff_of_decode hdec).1 hagree
  · intro hnumber
    cases hdec : vlTable.decode w with
    | none => exact agree_of_decode_eq_none hdec
    | some p =>
        obtain ⟨s, hs, hP, hw⟩ := Table.decode_eq_some_iff.1 hdec
        refine (agree_iff_of_decode hdec).2 ?_
        rw [hlength hw]
        exact hnumber s hs _ _ hP hw

/-- The decoders do not agree on the greatest first byte with fifteen zeros, which the ports read as a
time of 75 bits. -/
theorem not_agree : ¬ ∀ w, Agree w := by
  intro h
  have hpython : Python.decode (0xff :: List.replicate 15 0) =
      .ok ((15 * 2 ^ 57 + 1767225600000) * 10000 + 0x01b21dd213814000, 0, 0) := by
    decide +kernel
  rcases h (0xff :: List.replicate 15 0) with ⟨-, ⟨message, hrejects⟩, -⟩ | ⟨id, -, hfields, -⟩
  · rw [hpython] at hrejects
    cases hrejects
  · have htime := id.time.toNat_lt
    rw [hpython, Except.ok.injEq, Cpp.Id.fields, Prod.mk.injEq] at hfields
    omega

end Cuuid.Prototype
