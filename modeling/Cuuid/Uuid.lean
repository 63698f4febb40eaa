/-
**The UUID container.**

This module embeds the class `UUID` of `cuuid_v1.hh` without its codec: sixteen bytes, the getters
and setters of the version-1 fields, and the stores that the condensed decoder ends with.  The source
reads and writes the fields through 16-, 32- and 64-bit words in network byte order; the conversions
of `endian.hh` are the standard big-endian ones.

Main definitions:

* `Cuuid.UUID` — sixteen bytes;
* `Cuuid.UUID.uuid1Time`, `Cuuid.UUID.setUuid1Time` and their siblings — the fields;
* `Cuuid.UUID.ofCondensed`, `Cuuid.UUID.fromBytes` — the UUIDs that are assembled from decoded fields
  and from bytes;
* `Cuuid.UUID.isRfc` — whether a UUID is an RFC-4122 one of a given version;
* `Cuuid.UUID.View`, `Cuuid.UUID.view` — the five fields, each of its own width.

Main results:

* `Cuuid.UUID.toNat_uuid1Time` and its siblings — the getters as numbers;
* `Cuuid.UUID.ext_view` — **a UUID is determined by its five fields**;
* `Cuuid.UUID.view_setUuid1Time` and its siblings — **a setter replaces one field** and keeps the
  other four.
-/

import Mathlib.Tactic.IntervalCases
import Cuuid.Lib.BigEndian
import Cuuid.Common

set_option relaxedAutoImplicit false
set_option autoImplicit false

namespace Cuuid

open BigEndian BitField

/-! ### Words in network byte order -/

/-- `be16toh` of two bytes. -/
def be16 (b0 b1 : UInt8) : UInt16 := (b0.toUInt16 <<< 8) ||| b1.toUInt16

/-- `be32toh` of four bytes. -/
def be32 (b0 b1 b2 b3 : UInt8) : UInt32 :=
  ((be16 b0 b1).toUInt32 <<< 16) ||| (be16 b2 b3).toUInt32

/-- `be64toh` of eight bytes. -/
def be64 (b0 b1 b2 b3 b4 b5 b6 b7 : UInt8) : UInt64 :=
  ((be32 b0 b1 b2 b3).toUInt64 <<< 32) ||| (be32 b4 b5 b6 b7).toUInt64

/-- Stores `htobe16(w)` at index `i`. -/
def store16 (b : Vector UInt8 16) (i : ℕ) (w : UInt16) (h : i + 1 < 16 := by decide) :
    Vector UInt8 16 :=
  (b.set i (w >>> 8).toUInt8).set (i + 1) w.toUInt8

/-- Stores `htobe32(w)` at index `i`. -/
def store32 (b : Vector UInt8 16) (i : ℕ) (w : UInt32) (h : i + 3 < 16 := by decide) :
    Vector UInt8 16 :=
  store16 (store16 b i (w >>> 16).toUInt16 (by omega)) (i + 2) w.toUInt16 (by omega)

/-- Stores `htobe64(w)` at index `i`. -/
def store64 (b : Vector UInt8 16) (i : ℕ) (w : UInt64) (h : i + 7 < 16 := by decide) :
    Vector UInt8 16 :=
  store32 (store32 b i (w >>> 32).toUInt32 (by omega)) (i + 4) w.toUInt32 (by omega)

theorem toNat_be16 (b0 b1 : UInt8) : (be16 b0 b1).toNat = b0.toNat * 2 ^ 8 + b1.toNat := by
  have h0 := b0.toNat_lt
  have h1 := b1.toNat_lt
  rw [be16, UInt16.toNat_or, UInt16.toNat_shiftLeft, UInt8.toNat_toUInt16, UInt8.toNat_toUInt16]
  simp only [UInt16.reduceToNat, Nat.reduceMod, Nat.shiftLeft_eq, Nat.reducePow]
  rw [or_eq_add _ _ 8 (by omega) (by omega)]
  omega

theorem toNat_be32 (b0 b1 b2 b3 : UInt8) : (be32 b0 b1 b2 b3).toNat =
    (be16 b0 b1).toNat * 2 ^ 16 + (be16 b2 b3).toNat := by
  have h0 := (be16 b0 b1).toNat_lt
  have h1 := (be16 b2 b3).toNat_lt
  rw [be32, UInt32.toNat_or, UInt32.toNat_shiftLeft, UInt16.toNat_toUInt32, UInt16.toNat_toUInt32]
  simp only [UInt32.reduceToNat, Nat.reduceMod, Nat.shiftLeft_eq, Nat.reducePow]
  rw [or_eq_add _ _ 16 (by omega) (by omega)]
  omega

theorem toNat_be64 (b0 b1 b2 b3 b4 b5 b6 b7 : UInt8) : (be64 b0 b1 b2 b3 b4 b5 b6 b7).toNat =
    (be32 b0 b1 b2 b3).toNat * 2 ^ 32 + (be32 b4 b5 b6 b7).toNat := by
  have h0 := (be32 b0 b1 b2 b3).toNat_lt
  have h1 := (be32 b4 b5 b6 b7).toNat_lt
  rw [be64, UInt64.toNat_or, UInt64.toNat_shiftLeft, UInt32.toNat_toUInt64, UInt32.toNat_toUInt64]
  simp only [UInt64.reduceToNat, Nat.reduceMod, Nat.shiftLeft_eq, Nat.reducePow]
  rw [or_eq_add _ _ 32 (by omega) (by omega)]
  omega

/-- Byte `i` of sixteen; zero past the end, where the source never reads. -/
def byteAt (b : Vector UInt8 16) (i : ℕ) : UInt8 := b.toArray.getD i 0

theorem byteAt_eq (b : Vector UInt8 16) {i : ℕ} (h : i < 16) : byteAt b i = b[i] := by
  rw [byteAt, Array.getD, dif_pos (by simpa using h)]
  rfl

/-- The `n` bytes from index `i` on. -/
def bytesAt (b : Vector UInt8 16) (i n : ℕ) : Bytes := (List.range' i n).map (byteAt b)

@[simp] theorem length_bytesAt (b : Vector UInt8 16) (i n : ℕ) : (bytesAt b i n).length = n := by
  simp [bytesAt]

/-- The sixteen bytes, one by one. -/
theorem toList_eq (b : Vector UInt8 16) : b.toList = bytesAt b 0 16 := by
  apply List.ext_getElem
  · simp [bytesAt]
  · intro i hi hi'
    simp only [Vector.length_toList] at hi
    simp only [bytesAt, List.getElem_map, List.getElem_range', Vector.getElem_toList,
      byteAt_eq b hi, Nat.zero_add, Nat.one_mul]

theorem bytesAt_add (b : Vector UInt8 16) (i m n : ℕ) :
    bytesAt b i (m + n) = bytesAt b i m ++ bytesAt b (i + m) n := by
  simp only [bytesAt, ← List.map_append]
  rw [List.range'_append_1]

/-! The masks of the source, as remainders and cleared digits. -/

theorem and_fff (x : ℕ) : x &&& 0xfff = x % 2 ^ 12 := Nat.and_two_pow_sub_one_eq_mod x 12
theorem and_ffff (x : ℕ) : x &&& 0xffff = x % 2 ^ 16 := Nat.and_two_pow_sub_one_eq_mod x 16
theorem and_f (x : ℕ) : x &&& 0xf = x % 2 ^ 4 := Nat.and_two_pow_sub_one_eq_mod x 4
theorem and_ff (x : ℕ) : x &&& 0xff = x % 2 ^ 8 := Nat.and_two_pow_sub_one_eq_mod x 8
theorem and_3f (x : ℕ) : x &&& 0x3f = x % 2 ^ 6 := Nat.and_two_pow_sub_one_eq_mod x 6
theorem and_3fff (x : ℕ) : x &&& 0x3fff = x % 2 ^ 14 := Nat.and_two_pow_sub_one_eq_mod x 14
theorem and_ffffffff (x : ℕ) : x &&& 0xffffffff = x % 2 ^ 32 :=
  Nat.and_two_pow_sub_one_eq_mod x 32
theorem and_ffffffffffff (x : ℕ) : x &&& 0xffffffffffff = x % 2 ^ 48 :=
  Nat.and_two_pow_sub_one_eq_mod x 48
theorem and_c0 (x : ℕ) : x &&& 0xc0 = x % 2 ^ 8 / 2 ^ 6 * 2 ^ 6 :=
  and_two_pow_sub_two_pow x (show 6 ≤ 8 by omega)
theorem and_f000 (x : ℕ) : x &&& 0xf000 = x % 2 ^ 16 / 2 ^ 12 * 2 ^ 12 :=
  and_two_pow_sub_two_pow x (show 12 ≤ 16 by omega)
theorem and_ffff000000000000 (x : ℕ) :
    x &&& 0xffff000000000000 = x % 2 ^ 64 / 2 ^ 48 * 2 ^ 48 :=
  and_two_pow_sub_two_pow x (show 48 ≤ 64 by omega)

/-! ### The class -/

/-- The class `UUID`: sixteen bytes. -/
structure UUID where
  /-- The member `_bytes`. -/
  bytes : Vector UInt8 16
deriving DecidableEq, Repr

namespace UUID

/-- The empty UUID. -/
def empty : UUID := ⟨Vector.replicate 16 0⟩

/-- The UUID whose bytes are copied from a buffer. -/
def copyFrom (l : Bytes) : Except Fault UUID :=
  if h : l.length = 16 then .ok ⟨⟨l.toArray, by simpa using h⟩⟩ else .error .outOfRange

/-! The getters. -/

def uuid1Node (u : UUID) : UInt64 :=
  be64 u.bytes[8] u.bytes[9] u.bytes[10] u.bytes[11] u.bytes[12] u.bytes[13] u.bytes[14]
    u.bytes[15] &&& 0xffffffffffff

def uuid1Time (u : UUID) : UInt64 :=
  let time := (be16 u.bytes[6] u.bytes[7] &&& 0xfff).toUInt64
  let time := time <<< 16
  let time := time ||| (be16 u.bytes[4] u.bytes[5]).toUInt64
  let time := time <<< 32
  time ||| (be32 u.bytes[0] u.bytes[1] u.bytes[2] u.bytes[3]).toUInt64

def uuid1ClockSeq (u : UUID) : UInt16 := be16 u.bytes[8] u.bytes[9] &&& 0x3fff

def uuidVariant (u : UUID) : UInt8 := u.bytes[8] &&& 0xc0

def uuidVersion (u : UUID) : UInt8 := u.bytes[6] >>> 4

/-! The setters. -/

def setUuid1Node (u : UUID) (node : UInt64) : UUID :=
  let hnode := be64 u.bytes[8] u.bytes[9] u.bytes[10] u.bytes[11] u.bytes[12] u.bytes[13]
    u.bytes[14] u.bytes[15] &&& 0xffff000000000000
  ⟨store64 u.bytes 8 (hnode ||| (node &&& 0xffffffffffff))⟩

def setUuid1Time (u : UUID) (time : UInt64) : UUID :=
  let timeLow := (time &&& 0xffffffff).toUInt32
  let timeMid := ((time >>> 32) &&& 0xffff).toUInt16
  let timeHiVersion := ((time >>> 48) &&& 0xfff).toUInt16
  let timeHiVersion := timeHiVersion ||| (be16 u.bytes[6] u.bytes[7] &&& 0xf000)
  ⟨store16 (store16 (store32 u.bytes 0 timeLow) 4 timeMid) 6 timeHiVersion⟩

def setUuid1ClockSeq (u : UUID) (clockSeq : UInt16) : UUID :=
  let clockSeqLow := (clockSeq &&& 0xff).toUInt8
  let clockSeqHiVariant := ((clockSeq >>> 8) &&& 0x3f).toUInt8
  let clockSeqHiVariant := clockSeqHiVariant ||| (u.bytes[8] &&& 0xc0)
  ⟨(u.bytes.set 8 clockSeqHiVariant).set 9 clockSeqLow⟩

def setUuidVariant (u : UUID) (variant : UInt8) : UUID :=
  let clockSeqHiVariant := variant &&& 0xc0
  let clockSeqHiVariant := clockSeqHiVariant ||| (u.bytes[8] &&& 0x3f)
  ⟨u.bytes.set 8 clockSeqHiVariant⟩

def setUuidVersion (u : UUID) (version : UInt8) : UUID :=
  let timeHi : UInt8 := u.bytes[6] &&& 0x0f
  ⟨u.bytes.set 6 (timeHi ||| ((version &&& 0x0f) <<< 4))⟩

/-- The bytes that `unserialise_condensed` assembles: version 1, variant RFC 4122. -/
def ofCondensed (f : Fields) : UUID :=
  let timeLow := (f.time &&& 0xffffffff).toUInt32
  let timeMid := ((f.time >>> 32) &&& 0xffff).toUInt16
  let timeHiVersion := ((f.time >>> 48) &&& 0xfff).toUInt16
  let timeHiVersion := timeHiVersion ||| 0x1000
  let clockSeqHiVariant := ((f.clock >>> 8) ||| 0x80).toUInt8
  let clockSeqLow := (f.clock &&& 0xff).toUInt8
  let out := empty.bytes
  let out := store16 (store16 (store32 out 0 timeLow) 4 timeMid) 6 timeHiVersion
  let out := store64 out 8 f.node
  ⟨(out.set 8 clockSeqHiVariant).set 9 clockSeqLow⟩

/-- The test `uuid_variant() == 0x80 && uuid_version() == version`. -/
def isRfc (u : UUID) (version : UInt8) : Bool :=
  u.uuidVariant == 0x80 && u.uuidVersion == version

/-- The three fields that the codec works on. -/
def fields (u : UUID) : Fields := ⟨u.uuid1Time, u.uuid1ClockSeq, u.uuid1Node⟩

/-- The constructor from bytes, of which the first half may be little-endian. -/
def fromBytes (bytes : Vector UInt8 16) (littleEndian : Bool) : UUID :=
  if littleEndian then
    let b := bytes.swap 0 3
    let b := b.swap 1 2
    let b := b.swap 4 5
    ⟨b.swap 6 7⟩
  else ⟨bytes⟩

/-! ### The getters as numbers -/

theorem toNat_uuid1Time (u : UUID) : u.uuid1Time.toNat =
    (u.bytes[6].toNat % 2 ^ 4 * 2 ^ 8 + u.bytes[7].toNat) * 2 ^ 48 +
      (u.bytes[4].toNat * 2 ^ 8 + u.bytes[5].toNat) * 2 ^ 32 +
      (u.bytes[0].toNat * 2 ^ 8 + u.bytes[1].toNat) * 2 ^ 16 +
      (u.bytes[2].toNat * 2 ^ 8 + u.bytes[3].toNat) := by
  have h6 := u.bytes[6].toNat_lt
  have h7 := u.bytes[7].toNat_lt
  have hmid := (be16 u.bytes[4] u.bytes[5]).toNat_lt
  have hlow := (be32 u.bytes[0] u.bytes[1] u.bytes[2] u.bytes[3]).toNat_lt
  have hmid' := toNat_be16 u.bytes[4] u.bytes[5]
  have hlow' := toNat_be32 u.bytes[0] u.bytes[1] u.bytes[2] u.bytes[3]
  rw [toNat_be16, toNat_be16] at hlow'
  simp only [uuid1Time, UInt64.toNat_or, UInt64.toNat_shiftLeft, UInt16.toNat_toUInt64,
    UInt32.toNat_toUInt64, UInt16.toNat_and, UInt64.reduceToNat, Nat.reduceMod, UInt16.reduceToNat,
    Nat.shiftLeft_eq, and_fff, toNat_be16 u.bytes[6]]
  rw [or_eq_add _ _ 32 (by omega) (by omega), or_eq_add _ _ 16 (by omega) (by omega)]
  omega

theorem toNat_uuid1Node (u : UUID) : u.uuid1Node.toNat =
    (u.bytes[10].toNat * 2 ^ 8 + u.bytes[11].toNat) * 2 ^ 32 +
      (u.bytes[12].toNat * 2 ^ 8 + u.bytes[13].toNat) * 2 ^ 16 +
      (u.bytes[14].toNat * 2 ^ 8 + u.bytes[15].toNat) := by
  have h8 := u.bytes[8].toNat_lt
  have h9 := u.bytes[9].toNat_lt
  have h10 := u.bytes[10].toNat_lt
  have h11 := u.bytes[11].toNat_lt
  have hlow := (be32 u.bytes[12] u.bytes[13] u.bytes[14] u.bytes[15]).toNat_lt
  have hlow' := toNat_be32 u.bytes[12] u.bytes[13] u.bytes[14] u.bytes[15]
  rw [toNat_be16, toNat_be16] at hlow'
  simp only [uuid1Node, UInt64.toNat_and, toNat_be64, UInt64.reduceToNat, and_ffffffffffff,
    toNat_be32 u.bytes[8], toNat_be16 u.bytes[8], toNat_be16 u.bytes[10]]
  omega

theorem toNat_uuid1ClockSeq (u : UUID) :
    u.uuid1ClockSeq.toNat = u.bytes[8].toNat % 2 ^ 6 * 2 ^ 8 + u.bytes[9].toNat := by
  have h8 := u.bytes[8].toNat_lt
  have h9 := u.bytes[9].toNat_lt
  simp only [uuid1ClockSeq, UInt16.toNat_and, toNat_be16, UInt16.reduceToNat, and_3fff]
  omega

theorem toNat_uuidVariant (u : UUID) :
    u.uuidVariant.toNat = u.bytes[8].toNat / 2 ^ 6 * 2 ^ 6 := by
  have h8 := u.bytes[8].toNat_lt
  simp only [uuidVariant, UInt8.toNat_and, UInt8.reduceToNat, and_c0]
  omega

theorem toNat_uuidVersion (u : UUID) : u.uuidVersion.toNat = u.bytes[6].toNat / 2 ^ 4 := by
  simp only [uuidVersion, UInt8.toNat_shiftRight, UInt8.reduceToNat, Nat.reduceMod,
    Nat.shiftRight_eq_div_pow]

/-! The bytes that a getter reads, most significant one first. -/

theorem toNat_uuid1Time_eq_ofBytes (u : UUID) : u.uuid1Time.toNat =
    ofBytes [u.bytes[6] &&& 0x0f, u.bytes[7], u.bytes[4], u.bytes[5], u.bytes[0], u.bytes[1],
      u.bytes[2], u.bytes[3]] := by
  rw [toNat_uuid1Time]
  simp only [ofBytes, UInt8.toNat_and, UInt8.reduceToNat, and_f, List.length_cons, List.length_nil]
  ring

theorem toNat_uuid1ClockSeq_eq_ofBytes (u : UUID) :
    u.uuid1ClockSeq.toNat = ofBytes [u.bytes[8] &&& 0x3f, u.bytes[9]] := by
  rw [toNat_uuid1ClockSeq]
  simp only [ofBytes, UInt8.toNat_and, UInt8.reduceToNat, and_3f, List.length_cons, List.length_nil]
  ring

theorem toNat_uuid1Node_eq_ofBytes (u : UUID) : u.uuid1Node.toNat =
    ofBytes [u.bytes[10], u.bytes[11], u.bytes[12], u.bytes[13], u.bytes[14], u.bytes[15]] := by
  rw [toNat_uuid1Node]
  simp only [ofBytes, List.length_cons, List.length_nil]
  ring

/-! ### The five fields -/

/-- The five fields of a UUID, each of its own width. -/
structure View where
  /-- The 60-bit time. -/
  time : BitVec 60
  /-- The 14-bit clock sequence. -/
  clock : BitVec 14
  /-- The 48-bit node. -/
  node : BitVec 48
  /-- The top two bits of byte 8. -/
  variant : BitVec 2
  /-- The top four bits of byte 6. -/
  version : BitVec 4
deriving DecidableEq, Repr

/-- What the five getters return. -/
def view (u : UUID) : View where
  time := BitVec.ofNat 60 u.uuid1Time.toNat
  clock := BitVec.ofNat 14 u.uuid1ClockSeq.toNat
  node := BitVec.ofNat 48 u.uuid1Node.toNat
  variant := BitVec.ofNat 2 (u.uuidVariant.toNat / 2 ^ 6)
  version := BitVec.ofNat 4 u.uuidVersion.toNat

theorem uuid1Time_lt (u : UUID) : u.uuid1Time.toNat < 2 ^ 60 := by
  have hlow := ofBytes_lt [u.bytes[7], u.bytes[4], u.bytes[5], u.bytes[0], u.bytes[1], u.bytes[2],
    u.bytes[3]]
  rw [toNat_uuid1Time_eq_ofBytes, ofBytes_cons, UInt8.toNat_and]
  simp only [UInt8.reduceToNat, and_f, List.length_cons, List.length_nil] at hlow ⊢
  omega

theorem uuid1ClockSeq_lt (u : UUID) : u.uuid1ClockSeq.toNat < 2 ^ 14 := by
  have h9 := u.bytes[9].toNat_lt
  rw [toNat_uuid1ClockSeq]
  omega

theorem uuid1Node_lt (u : UUID) : u.uuid1Node.toNat < 2 ^ 48 := by
  have h := ofBytes_lt [u.bytes[10], u.bytes[11], u.bytes[12], u.bytes[13], u.bytes[14],
    u.bytes[15]]
  rw [toNat_uuid1Node_eq_ofBytes]
  simp only [List.length_cons, List.length_nil] at h
  omega

/-- Two views are the same when the five getters agree as numbers. -/
theorem view_eq_iff (u v : UUID) : u.view = v.view ↔
    u.uuid1Time.toNat = v.uuid1Time.toNat ∧ u.uuid1ClockSeq.toNat = v.uuid1ClockSeq.toNat ∧
      u.uuid1Node.toNat = v.uuid1Node.toNat ∧ u.uuidVariant.toNat = v.uuidVariant.toNat ∧
      u.uuidVersion.toNat = v.uuidVersion.toNat := by
  have hu1 := u.uuid1Time_lt
  have hu2 := u.uuid1ClockSeq_lt
  have hu3 := u.uuid1Node_lt
  have hv1 := v.uuid1Time_lt
  have hv2 := v.uuid1ClockSeq_lt
  have hv3 := v.uuid1Node_lt
  have hu8 := u.bytes[8].toNat_lt
  have hv8 := v.bytes[8].toNat_lt
  have hu6 := u.bytes[6].toNat_lt
  have hv6 := v.bytes[6].toNat_lt
  simp only [view, View.mk.injEq, ← BitVec.toNat_inj, BitVec.toNat_ofNat, toNat_uuidVariant,
    toNat_uuidVersion]
  omega

/-- **A UUID is determined by its five fields.** -/
theorem ext_view {u v : UUID} (h : u.view = v.view) : u = v := by
  obtain ⟨htime, hclock, hnode, hvariant, hversion⟩ := (view_eq_iff u v).1 h
  rw [toNat_uuid1Time_eq_ofBytes, toNat_uuid1Time_eq_ofBytes] at htime
  rw [toNat_uuid1ClockSeq_eq_ofBytes, toNat_uuid1ClockSeq_eq_ofBytes] at hclock
  rw [toNat_uuid1Node_eq_ofBytes, toNat_uuid1Node_eq_ofBytes] at hnode
  rw [toNat_uuidVariant, toNat_uuidVariant] at hvariant
  rw [toNat_uuidVersion, toNat_uuidVersion] at hversion
  have htime' := eq_of_ofBytes_eq htime rfl
  have hclock' := eq_of_ofBytes_eq hclock rfl
  have hnode' := eq_of_ofBytes_eq hnode rfl
  simp only [List.cons.injEq, and_true] at htime' hclock' hnode'
  obtain ⟨h6, h7, h4, h5, h0, h1, h2, h3⟩ := htime'
  obtain ⟨h8, h9⟩ := hclock'
  obtain ⟨h10, h11, h12, h13, h14, h15⟩ := hnode'
  -- the version is stored above the time in byte 6, and the variant above the clock in byte 8
  have h6' : u.bytes[6] = v.bytes[6] := by
    have hlow := congrArg UInt8.toNat h6
    simp only [UInt8.toNat_and, UInt8.reduceToNat, and_f] at hlow
    apply UInt8.toNat_inj.1
    omega
  have h8' : u.bytes[8] = v.bytes[8] := by
    have hlow := congrArg UInt8.toNat h8
    simp only [UInt8.toNat_and, UInt8.reduceToNat, and_3f] at hlow
    apply UInt8.toNat_inj.1
    omega
  have hbytes : u.bytes = v.bytes := by
    ext i hi
    interval_cases i <;> exact congrArg UInt8.toNat (by assumption)
  cases u
  cases v
  exact congrArg UUID.mk hbytes

/-! Each getter reads its own field of the view. -/

theorem uuid1Time_eq (u : UUID) : u.uuid1Time = UInt64.ofNat u.view.time.toNat := by
  apply UInt64.toNat_inj.1
  have h := u.uuid1Time_lt
  simp only [view, BitVec.toNat_ofNat, UInt64.toNat_ofNat']
  omega

theorem uuid1ClockSeq_eq (u : UUID) : u.uuid1ClockSeq = UInt16.ofNat u.view.clock.toNat := by
  apply UInt16.toNat_inj.1
  have h := u.uuid1ClockSeq_lt
  simp only [view, BitVec.toNat_ofNat, UInt16.toNat_ofNat']
  omega

theorem uuid1Node_eq (u : UUID) : u.uuid1Node = UInt64.ofNat u.view.node.toNat := by
  apply UInt64.toNat_inj.1
  have h := u.uuid1Node_lt
  simp only [view, BitVec.toNat_ofNat, UInt64.toNat_ofNat']
  omega

theorem uuidVariant_eq (u : UUID) : u.uuidVariant = UInt8.ofNat (u.view.variant.toNat * 2 ^ 6) := by
  apply UInt8.toNat_inj.1
  have h := u.bytes[8].toNat_lt
  simp only [view, BitVec.toNat_ofNat, UInt8.toNat_ofNat', toNat_uuidVariant]
  omega

theorem uuidVersion_eq (u : UUID) : u.uuidVersion = UInt8.ofNat u.view.version.toNat := by
  apply UInt8.toNat_inj.1
  have h := u.bytes[6].toNat_lt
  simp only [view, BitVec.toNat_ofNat, UInt8.toNat_ofNat', toNat_uuidVersion]
  omega

/-! ### The setters

Each setter replaces one field of the view and keeps the other four. -/

@[simp] theorem view_setUuid1Time (u : UUID) (t : UInt64) :
    (u.setUuid1Time t).view = { u.view with time := BitVec.ofNat 60 t.toNat } := by
  have h6 := u.bytes[6].toNat_lt
  have h7 := u.bytes[7].toNat_lt
  simp only [view, View.mk.injEq, ← BitVec.toNat_inj, BitVec.toNat_ofNat, toNat_uuid1Time,
    toNat_uuid1ClockSeq, toNat_uuid1Node, toNat_uuidVariant, toNat_uuidVersion]
  simp [setUuid1Time, store32, store16, and_ff, and_fff, and_ffff, and_ffffffff, and_f000,
    Nat.shiftRight_eq_div_pow, toNat_be16]
  rw [Nat.or_comm, or_eq_add _ _ 12 (by omega) (by omega)]
  omega

@[simp] theorem view_setUuid1ClockSeq (u : UUID) (c : UInt16) :
    (u.setUuid1ClockSeq c).view = { u.view with clock := BitVec.ofNat 14 c.toNat } := by
  have h8 := u.bytes[8].toNat_lt
  simp only [view, View.mk.injEq, ← BitVec.toNat_inj, BitVec.toNat_ofNat, toNat_uuid1Time,
    toNat_uuid1ClockSeq, toNat_uuid1Node, toNat_uuidVariant, toNat_uuidVersion]
  simp [setUuid1ClockSeq, and_ff, and_3f, and_c0, Nat.shiftRight_eq_div_pow]
  rw [Nat.or_comm, or_eq_add _ _ 6 (by omega) (by omega)]
  omega

@[simp] theorem view_setUuid1Node (u : UUID) (n : UInt64) :
    (u.setUuid1Node n).view = { u.view with node := BitVec.ofNat 48 n.toNat } := by
  have h8 := u.bytes[8].toNat_lt
  have h9 := u.bytes[9].toNat_lt
  have hmid := (be16 u.bytes[10] u.bytes[11]).toNat_lt
  have hlow := (be32 u.bytes[12] u.bytes[13] u.bytes[14] u.bytes[15]).toNat_lt
  have hword := toNat_be64 u.bytes[8] u.bytes[9] u.bytes[10] u.bytes[11] u.bytes[12] u.bytes[13]
    u.bytes[14] u.bytes[15]
  rw [toNat_be32 u.bytes[8], toNat_be16 u.bytes[8]] at hword
  simp only [view, View.mk.injEq, ← BitVec.toNat_inj, BitVec.toNat_ofNat, toNat_uuid1Time,
    toNat_uuid1ClockSeq, toNat_uuid1Node, toNat_uuidVariant, toNat_uuidVersion]
  simp [setUuid1Node, store64, store32, store16, and_ff, and_ffff, and_ffffffff,
    and_ffffffffffff, and_ffff000000000000, Nat.shiftRight_eq_div_pow]
  rw [or_eq_add _ _ 48 (by omega) (by omega)]
  omega

@[simp] theorem view_setUuidVariant (u : UUID) (v : UInt8) :
    (u.setUuidVariant v).view =
      { u.view with variant := BitVec.ofNat 2 (v.toNat / 2 ^ 6) } := by
  have h8 := u.bytes[8].toNat_lt
  have hv := v.toNat_lt
  simp only [view, View.mk.injEq, ← BitVec.toNat_inj, BitVec.toNat_ofNat, toNat_uuid1Time,
    toNat_uuid1ClockSeq, toNat_uuid1Node, toNat_uuidVariant, toNat_uuidVersion]
  simp [setUuidVariant, and_3f, and_c0]
  rw [or_eq_add _ _ 6 (by omega) (by omega)]
  omega

@[simp] theorem view_setUuidVersion (u : UUID) (v : UInt8) :
    (u.setUuidVersion v).view = { u.view with version := BitVec.ofNat 4 v.toNat } := by
  have h6 := u.bytes[6].toNat_lt
  have hv := v.toNat_lt
  simp only [view, View.mk.injEq, ← BitVec.toNat_inj, BitVec.toNat_ofNat, toNat_uuid1Time,
    toNat_uuid1ClockSeq, toNat_uuid1Node, toNat_uuidVariant, toNat_uuidVersion]
  simp [setUuidVersion, and_f, Nat.shiftLeft_eq]
  rw [Nat.or_comm, or_eq_add _ _ 4 (by omega) (by omega)]
  omega

/-! ### The codec's fields -/

theorem fields_inRange (u : UUID) : u.fields.InRange :=
  ⟨u.uuid1Time_lt, u.uuid1ClockSeq_lt, u.uuid1Node_lt⟩

theorem isRfc_iff (u : UUID) (version : UInt8) :
    u.isRfc version = true ↔ u.uuidVariant = 0x80 ∧ u.uuidVersion = version := by
  simp [isRfc]

/-- Two RFC-4122 UUIDs of one version with the same fields are the same. -/
theorem ext_fields {u v : UUID} {version : UInt8} (hu : u.isRfc version = true)
    (hv : v.isRfc version = true) (h : u.fields = v.fields) : u = v := by
  obtain ⟨huv, huk⟩ := (isRfc_iff u version).1 hu
  obtain ⟨hvv, hvk⟩ := (isRfc_iff v version).1 hv
  simp only [fields, Fields.mk.injEq] at h
  obtain ⟨htime, hclock, hnode⟩ := h
  apply ext_view
  rw [view_eq_iff, htime, hclock, hnode, huv, hvv, huk, hvk]
  simp

/-- Setting the three fields of the codec keeps variant and version. -/
theorem isRfc_setFields (u : UUID) (f : Fields) (version : UInt8) :
    (((u.setUuid1Node f.node).setUuid1ClockSeq f.clock).setUuid1Time f.time).isRfc version =
      u.isRfc version := by
  simp [isRfc, uuidVariant_eq, uuidVersion_eq]

/-- Setting the three fields of the codec sets them, when they are in range. -/
theorem fields_setFields (u : UUID) {f : Fields} (hf : f.InRange) :
    (((u.setUuid1Node f.node).setUuid1ClockSeq f.clock).setUuid1Time f.time).fields = f := by
  obtain ⟨htime, hclock, hnode⟩ := hf
  simp only [fields, uuid1Time_eq, uuid1ClockSeq_eq, uuid1Node_eq, view_setUuid1Time,
    view_setUuid1ClockSeq, view_setUuid1Node, BitVec.toNat_ofNat, Nat.mod_eq_of_lt htime,
    Nat.mod_eq_of_lt hclock, Nat.mod_eq_of_lt hnode, UInt64.ofNat_toNat, UInt16.ofNat_toNat]

end UUID

end Cuuid
