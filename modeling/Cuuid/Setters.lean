/-
**A UUID is its five fields.**

The setters of `UUID` write words of different sizes over shared bytes: the version is stored above
the time in byte 6, the variant above the clock sequence in byte 8, and the clock sequence in front of
the node in one 64-bit word.  This module shows that they behave as five independent registers all the
same, and what follows from that for any sequence of calls.

Main definitions:

* `Cuuid.Field` — the five fields, with the types of their getters and setters;
* `Cuuid.UUID.getField`, `Cuuid.UUID.setField` — the getter and the setter of a field.

Main results:

* `Cuuid.UUID.registers` — the five fields are registers;
* `Cuuid.setters_spec` — **a UUID is its five fields**: after any calls, each getter returns what its
  own setter was last given, setters of different fields commute, and no two UUIDs have the same
  fields;
* `Cuuid.UUID.fromBytes_little` — the first half of a little-endian UUID is one word, of the version
  and the time.
-/

import Cuuid.Lib.Registers
import Cuuid.Uuid

set_option relaxedAutoImplicit false
set_option autoImplicit false

namespace Cuuid

open BitField Registers

/-! ### The fields -/

/-- The fields of a UUID. -/
inductive Field
  | time
  | clockSeq
  | node
  | variant
  | version
deriving DecidableEq, Repr

namespace Field

/-- The type that the getter returns and the setter takes. -/
def Word : Field → Type
  | time => UInt64
  | clockSeq => UInt16
  | node => UInt64
  | variant => UInt8
  | version => UInt8

/-- An argument masked to the width of the field. -/
def masked : (f : Field) → f.Word → f.Word
  | time, (v : UInt64) => v &&& 0xfffffffffffffff
  | clockSeq, (v : UInt16) => v &&& 0x3fff
  | node, (v : UInt64) => v &&& 0xffffffffffff
  | variant, (v : UInt8) => v &&& 0xc0
  | version, (v : UInt8) => v &&& 0x0f

end Field

namespace UUID

/-- The getter of a field. -/
def getField : (f : Field) → UUID → f.Word
  | .time, u => u.uuid1Time
  | .clockSeq, u => u.uuid1ClockSeq
  | .node, u => u.uuid1Node
  | .variant, u => u.uuidVariant
  | .version, u => u.uuidVersion

/-- The setter of a field. -/
def setField : (f : Field) → f.Word → UUID → UUID
  | .time, v, u => u.setUuid1Time v
  | .clockSeq, v, u => u.setUuid1ClockSeq v
  | .node, v, u => u.setUuid1Node v
  | .variant, v, u => u.setUuidVariant v
  | .version, v, u => u.setUuidVersion v

end UUID

/-! ### The laws

The getters and setters act on the view, where the five fields are apart. -/

namespace Field

/-- What the getter of a field returns, read off the view. -/
def ofView : (f : Field) → UUID.View → f.Word
  | time, s => UInt64.ofNat s.time.toNat
  | clockSeq, s => UInt16.ofNat s.clock.toNat
  | node, s => UInt64.ofNat s.node.toNat
  | variant, s => UInt8.ofNat (s.variant.toNat * 2 ^ 6)
  | version, s => UInt8.ofNat s.version.toNat

/-- What the setter of a field does to the view. -/
def setView : (f : Field) → f.Word → UUID.View → UUID.View
  | time, (v : UInt64), s => { s with time := BitVec.ofNat 60 v.toNat }
  | clockSeq, (v : UInt16), s => { s with clock := BitVec.ofNat 14 v.toNat }
  | node, (v : UInt64), s => { s with node := BitVec.ofNat 48 v.toNat }
  | variant, (v : UInt8), s => { s with variant := BitVec.ofNat 2 (v.toNat / 2 ^ 6) }
  | version, (v : UInt8), s => { s with version := BitVec.ofNat 4 v.toNat }

/-! Storing an argument cuts it to the width of the field. -/

theorem ofNat_mask {k : ℕ} (v m : UInt64) (hm : m.toNat = 2 ^ k - 1) :
    UInt64.ofNat (BitVec.ofNat k v.toNat).toNat = v &&& m := by
  have hv := v.toNat_lt
  have hle := Nat.mod_le v.toNat (2 ^ k)
  apply UInt64.toNat_inj.1
  rw [toNat_and_two_pow_sub_one _ _ k hm, BitVec.toNat_ofNat, UInt64.toNat_ofNat',
    Nat.mod_eq_of_lt (by omega)]

theorem ofNat_clockSeq (v : UInt16) :
    UInt16.ofNat (BitVec.ofNat 14 v.toNat).toNat = v &&& 0x3fff := by
  apply UInt16.toNat_inj.1
  simp only [BitVec.toNat_ofNat, UInt16.toNat_ofNat', UInt16.toNat_and, UInt16.reduceToNat, and_3fff]
  omega

theorem ofNat_variant (v : UInt8) :
    UInt8.ofNat ((BitVec.ofNat 2 (v.toNat / 2 ^ 6)).toNat * 2 ^ 6) = v &&& 0xc0 := by
  apply UInt8.toNat_inj.1
  simp only [BitVec.toNat_ofNat, UInt8.toNat_ofNat', UInt8.toNat_and, UInt8.reduceToNat, and_c0]
  omega

theorem ofNat_version (v : UInt8) :
    UInt8.ofNat (BitVec.ofNat 4 v.toNat).toNat = v &&& 0x0f := by
  apply UInt8.toNat_inj.1
  simp only [BitVec.toNat_ofNat, UInt8.toNat_ofNat', UInt8.toNat_and, UInt8.reduceToNat, and_f]
  omega

/-- The field that was set is the argument, masked. -/
theorem ofView_setView_self (f : Field) (v : f.Word) (s : UUID.View) :
    f.ofView (f.setView v s) = f.masked v := by
  cases f with
  | time => exact ofNat_mask v _ (by decide)
  | clockSeq => exact ofNat_clockSeq v
  | node => exact ofNat_mask v _ (by decide)
  | variant => exact ofNat_variant v
  | version => exact ofNat_version v

/-- The other fields are kept. -/
theorem ofView_setView_of_ne {f g : Field} (h : f ≠ g) (v : g.Word) (s : UUID.View) :
    f.ofView (g.setView v s) = f.ofView s := by
  cases f <;> cases g <;> first
    | exact absurd rfl h
    | rfl

end Field

namespace UUID

theorem getField_eq (f : Field) (u : UUID) : getField f u = f.ofView u.view := by
  cases f with
  | time => exact uuid1Time_eq u
  | clockSeq => exact uuid1ClockSeq_eq u
  | node => exact uuid1Node_eq u
  | variant => exact uuidVariant_eq u
  | version => exact uuidVersion_eq u

theorem view_setField (f : Field) (v : f.Word) (u : UUID) :
    (setField f v u).view = f.setView v u.view := by
  cases f with
  | time => exact view_setUuid1Time u v
  | clockSeq => exact view_setUuid1ClockSeq u v
  | node => exact view_setUuid1Node u v
  | variant => exact view_setUuidVariant u v
  | version => exact view_setUuidVersion u v

/-- **The five fields are registers.** -/
theorem registers : Laws getField setField Field.masked where
  get_set_self f v u := by
    rw [getField_eq, view_setField, Field.ofView_setView_self]
  get_set_of_ne h v u := by
    rw [getField_eq, getField_eq, view_setField, Field.ofView_setView_of_ne h]
  ext {u v} h := by
    have htime := congrArg UInt64.toNat (h .time)
    have hclock := congrArg UInt16.toNat (h .clockSeq)
    have hnode := congrArg UInt64.toNat (h .node)
    have hvariant := congrArg UInt8.toNat (h .variant)
    have hversion := congrArg UInt8.toNat (h .version)
    exact ext_view ((view_eq_iff u v).2 ⟨htime, hclock, hnode, hvariant, hversion⟩)

end UUID

/-- **A UUID is its five fields.**  After any calls of the setters, in any order, each getter returns
the argument of the last call of its own setter, masked to the width of the field, or what it returned
before; setters of different fields commute; and UUIDs are equal when their five getters agree. -/
theorem setters_spec :
    (∀ (u : UUID) (calls : List (Σ f : Field, f.Word)) (f : Field),
      (run UUID.setField calls u).getField f =
        ((last f calls).map f.masked).getD (u.getField f)) ∧
    (∀ (u : UUID) (f g : Field) (v : f.Word) (w : g.Word), f ≠ g →
      UUID.setField g w (UUID.setField f v u) = UUID.setField f v (UUID.setField g w u)) ∧
    ∀ u v : UUID, u = v ↔ ∀ f, u.getField f = v.getField f := by
  refine ⟨fun u calls f => ?_, fun u f g v w h => ?_, UUID.registers.ext_iff⟩
  · exact UUID.registers.get_run f calls u
  · exact UUID.registers.set_comm h v w u

/-! ### Little-endian bytes -/

namespace UUID

/-- The bytes of a little-endian UUID, one by one. -/
theorem getElem_fromBytes_little (b : Vector UInt8 16) {i : ℕ} (hi : i < 16) :
    (fromBytes b true).bytes[i] =
      byteAt b (if i < 4 then 3 - i else if i < 6 then 9 - i else if i < 8 then 13 - i else i) := by
  simp only [fromBytes, if_true]
  interval_cases i <;> simp [byteAt_eq]

/-- **The first half of a little-endian UUID is one word**, of the version and the time; the fields
of the second half are the ones of the bytes, and the little-endian bytes of the UUID are the
bytes. -/
theorem fromBytes_little (b : Vector UInt8 16) :
    (fromBytes b true).uuidVersion.toNat * 2 ^ 60 + (fromBytes b true).uuid1Time.toNat =
      BigEndian.ofBytes (b.toList.take 8).reverse ∧
    (fromBytes b true).uuid1ClockSeq = (fromBytes b false).uuid1ClockSeq ∧
    (fromBytes b true).uuid1Node = (fromBytes b false).uuid1Node ∧
    (fromBytes b true).uuidVariant = (fromBytes b false).uuidVariant ∧
    fromBytes (fromBytes b true).bytes true = ⟨b⟩ := by
  have hbyte : ∀ i, (hi : i < 16) → (fromBytes b true).bytes[i] = byteAt b
      (if i < 4 then 3 - i else if i < 6 then 9 - i else if i < 8 then 13 - i else i) :=
    fun i hi => getElem_fromBytes_little b hi
  have hplain : ∀ i, (hi : i < 16) → (fromBytes b false).bytes[i] = byteAt b i :=
    fun i hi => (byteAt_eq b hi).symm
  refine ⟨?_, ?_, ?_, ?_, ?_⟩
  · have hfirst : (b.toList.take 8).reverse = [byteAt b 7, byteAt b 6, byteAt b 5, byteAt b 4,
        byteAt b 3, byteAt b 2, byteAt b 1, byteAt b 0] := by
      rw [toList_eq]
      rfl
    have h7 := (byteAt b 7).toNat_lt
    rw [hfirst, toNat_uuidVersion, toNat_uuid1Time]
    simp only [hbyte, BigEndian.ofBytes, List.length_cons, List.length_nil]
    norm_num
    omega
  · simp only [uuid1ClockSeq, hbyte, hplain]
    rfl
  · simp only [uuid1Node, hbyte, hplain]
    rfl
  · simp only [uuidVariant, hbyte, hplain]
    rfl
  · have hround : (fromBytes (fromBytes b true).bytes true).bytes = b := by
      ext i hi
      rw [getElem_fromBytes_little _ hi]
      interval_cases i <;> simp [byteAt_eq, hbyte]
    exact congrArg UUID.mk hround

end UUID

end Cuuid
