/-
**The v6 codec.**

This module embeds `cuuid_v6.cc` without `generate()`: the canonical bytes of a version-6 UUID and
back, and the codec over the shared condenser with the splitmix64 expander.

Main definitions:

* `Cuuid.toV6Bytes`, `Cuuid.fromV6Bytes` — the layout, timestamp first;
* `Cuuid.V6.fromFields`, `Cuuid.V6.make`, `Cuuid.V6.serialise`, `Cuuid.V6.unserialise`.

Main results:

* `Cuuid.toList_toV6Bytes` — **the canonical bytes write one number**, time first;
* `Cuuid.fromV6Bytes_toV6Bytes`, `Cuuid.toV6Bytes_fromV6Bytes` — the layout loses nothing;
* `Cuuid.V6.serialise_eq`, `Cuuid.V6.unserialise_wire`, `Cuuid.V6.make_eq` — the codec in terms of
  layouts.
-/

import Cuuid.Expander
import Cuuid.Uuid
import Cuuid.Condense

set_option relaxedAutoImplicit false
set_option autoImplicit false

namespace Cuuid

open BigEndian BitField

/-! ### The codec -/

/-- `to_v6_bytes`, with its loop over the six bytes of the node written out. -/
def toV6Bytes (f : Fields) : Vector UInt8 16 :=
  let timeHigh := ((f.time >>> 28) &&& 0xffffffff).toUInt32
  let timeMid := ((f.time >>> 12) &&& 0xffff).toUInt16
  let timeLow := (f.time &&& 0x0fff).toUInt16
  #v[(timeHigh >>> 24).toUInt8,
    (timeHigh >>> 16).toUInt8,
    (timeHigh >>> 8).toUInt8,
    timeHigh.toUInt8,
    (timeMid >>> 8).toUInt8,
    timeMid.toUInt8,
    ((0x60 : UInt16) ||| (timeLow >>> 8)).toUInt8,
    timeLow.toUInt8,
    ((0x80 : UInt16) ||| ((f.clock >>> 8) &&& 0x3f)).toUInt8,
    f.clock.toUInt8,
    (f.node >>> 40).toUInt8,
    (f.node >>> 32).toUInt8,
    (f.node >>> 24).toUInt8,
    (f.node >>> 16).toUInt8,
    (f.node >>> 8).toUInt8,
    f.node.toUInt8]

/-- `from_v6_bytes`. -/
def fromV6Bytes (b : Vector UInt8 16) : Fields :=
  let timeHigh := ((byteAt b 0).toUInt64 <<< 24) ||| ((byteAt b 1).toUInt64 <<< 16) |||
    ((byteAt b 2).toUInt64 <<< 8) ||| (byteAt b 3).toUInt64
  let timeMid := ((byteAt b 4).toUInt64 <<< 8) ||| (byteAt b 5).toUInt64
  let timeLow := ((byteAt b 6 &&& 0x0f).toUInt64 <<< 8) ||| (byteAt b 7).toUInt64
  { time := (timeHigh <<< 28) ||| (timeMid <<< 12) ||| timeLow
    clock := ((byteAt b 8 &&& 0x3f).toUInt16 <<< 8) ||| (byteAt b 9).toUInt16
    node := (bytesAt b 10 6).foldl (fun node x => (node <<< 8) ||| x.toUInt64) 0 }

namespace V6

def fromFields (f : Fields) : UUID := ⟨toV6Bytes f⟩

def make (localNodeHash : Option UInt64) (f : Fields) : UUID :=
  ⟨toV6Bytes (crushFields localNodeHash expandSplitmix f)⟩

def serialise (u : UUID) : Except Fault Bytes := condense expandSplitmix (fromV6Bytes u.bytes)

def unserialise : Reader UUID := do
  let f ← uncondense expandSplitmix
  return ⟨toV6Bytes f⟩

end V6

/-! ### The canonical bytes -/

/-- The number that the canonical bytes write: time, version, time, variant, clock and node. -/
def v6Number (f : Fields) : ℕ :=
  f.time.toNat % 2 ^ 60 / 2 ^ 12 * 2 ^ 80 + (6 * 2 ^ 12 + f.time.toNat % 2 ^ 12) * 2 ^ 64 +
    (2 * 2 ^ 14 + f.clock.toNat % 2 ^ 14) * 2 ^ 48 + f.node.toNat % 2 ^ 48

theorem v6Number_lt (f : Fields) : v6Number f < 256 ^ 16 := by
  unfold v6Number
  omega

/-- The bytes of the number, in the groups that the source fills in. -/
theorem toBytes_v6Number (f : Fields) : toBytes 16 (v6Number f) =
    toBytes 6 (f.time.toNat / 2 ^ 12) ++ (toBytes 2 (6 * 2 ^ 12 + f.time.toNat % 2 ^ 12) ++
      (toBytes 2 (2 * 2 ^ 14 + f.clock.toNat % 2 ^ 14) ++ toBytes 6 f.node.toNat)) := by
  have h₁ : v6Number f / 256 ^ 10 % 256 ^ 6 = f.time.toNat / 2 ^ 12 % 256 ^ 6 := by
    unfold v6Number
    omega
  have h₂ : v6Number f / 256 ^ 8 % 256 ^ 2 = (6 * 2 ^ 12 + f.time.toNat % 2 ^ 12) % 256 ^ 2 := by
    unfold v6Number
    omega
  have h₃ : v6Number f / 256 ^ 6 % 256 ^ 2 = (2 * 2 ^ 14 + f.clock.toNat % 2 ^ 14) % 256 ^ 2 := by
    unfold v6Number
    omega
  have h₄ : v6Number f % 256 ^ 6 = f.node.toNat % 256 ^ 6 := by
    unfold v6Number
    omega
  rw [toBytes_add 6 10, toBytes_add 2 8, toBytes_add 2 6, ← toBytes_mod 6 (_ / _), h₁,
    ← toBytes_mod 2 (_ / 256 ^ 8), h₂, ← toBytes_mod 2 (_ / 256 ^ 6), h₃,
    ← toBytes_mod 6 (v6Number f), h₄, toBytes_mod, toBytes_mod, toBytes_mod, toBytes_mod]

/-- **The canonical bytes write one number**, time first. -/
theorem toList_toV6Bytes (f : Fields) : (toV6Bytes f).toList = toBytes 16 (v6Number f) := by
  have h6 : 96 ||| f.time.toNat % 4096 / 256 % 256 = 96 + f.time.toNat % 4096 / 256 := by
    rw [or_eq_add _ _ 4 (by decide) (by omega)]
    omega
  have h8 : 128 ||| f.clock.toNat / 256 % 64 = 128 + f.clock.toNat / 256 % 64 :=
    or_eq_add _ _ 6 (by decide) (by omega)
  rw [toBytes_v6Number]
  simp only [toV6Bytes, Vector.toList_mk, toBytes, List.cons_append, List.nil_append,
    List.cons.injEq, ← UInt8.toNat_inj]
  simp [and_ff, and_fff, and_ffff, and_ffffffff, and_3f, Nat.shiftRight_eq_div_pow]
  simp only [h6, h8]
  omega

/-- The fields as numbers, read off the groups of bytes. -/
theorem toNat_fromV6Bytes (b : Vector UInt8 16) :
    (fromV6Bytes b).time.toNat = ofBytes (bytesAt b 0 6) * 2 ^ 12 +
        (byteAt b 6).toNat % 2 ^ 4 * 2 ^ 8 + (byteAt b 7).toNat ∧
      (fromV6Bytes b).clock.toNat = (byteAt b 8).toNat % 2 ^ 6 * 2 ^ 8 + (byteAt b 9).toNat ∧
      (fromV6Bytes b).node.toNat = ofBytes (bytesAt b 10 6) := by
  have h0 := (byteAt b 0).toNat_lt
  have h1 := (byteAt b 1).toNat_lt
  have h2 := (byteAt b 2).toNat_lt
  have h3 := (byteAt b 3).toNat_lt
  have h4 := (byteAt b 4).toNat_lt
  have h5 := (byteAt b 5).toNat_lt
  have h7 := (byteAt b 7).toNat_lt
  have h9 := (byteAt b 9).toNat_lt
  refine ⟨?_, ?_, ?_⟩
  · simp [fromV6Bytes, bytesAt, List.range', ofBytes, and_f, Nat.shiftLeft_eq]
    rw [or_eq_add _ ((byteAt b 1).toNat * 65536 % _) 24 (by omega) (by omega),
      or_eq_add _ ((byteAt b 2).toNat * 256 % _) 16 (by omega) (by omega),
      or_eq_add _ (byteAt b 3).toNat 8 (by omega) (by omega),
      or_eq_add _ (byteAt b 5).toNat 8 (by omega) (by omega),
      or_eq_add _ (byteAt b 7).toNat 8 (by omega) (by omega),
      or_eq_add _ (((byteAt b 4).toNat * 256 % _ + (byteAt b 5).toNat) * 4096 % _) 28 (by omega)
        (by omega),
      or_eq_add _ _ 12 (by omega) (by omega)]
    omega
  · simp [fromV6Bytes, and_3f, Nat.shiftLeft_eq]
    rw [or_eq_add _ _ 8 (by omega) (by omega)]
    omega
  · have hfold := toNat_foldl_shiftIn (bytesAt b 10 6) 0 0 (by decide) (by simp)
    rw [UInt64.toNat_zero, Nat.zero_mul, Nat.zero_add] at hfold
    exact hfold

/-- The number of sixteen bytes, in the same groups. -/
theorem ofBytes_toList (b : Vector UInt8 16) : ofBytes b.toList =
    ofBytes (bytesAt b 0 6) * 2 ^ 80 + ((byteAt b 6).toNat * 2 ^ 8 + (byteAt b 7).toNat) * 2 ^ 64 +
      ((byteAt b 8).toNat * 2 ^ 8 + (byteAt b 9).toNat) * 2 ^ 48 + ofBytes (bytesAt b 10 6) := by
  rw [toList_eq]
  simp only [bytesAt, List.range', List.map_cons, List.map_nil, ofBytes, List.length_cons,
    List.length_nil, Nat.reduceAdd]
  ring

/-- The fields that are read off the canonical bytes are in range. -/
theorem fromV6Bytes_inRange (b : Vector UInt8 16) : (fromV6Bytes b).InRange := by
  have h7 := (byteAt b 7).toNat_lt
  have h9 := (byteAt b 9).toNat_lt
  have hhigh := ofBytes_lt (bytesAt b 0 6)
  have hnode := ofBytes_lt (bytesAt b 10 6)
  obtain ⟨ht, hk, hn⟩ := toNat_fromV6Bytes b
  rw [length_bytesAt] at hhigh hnode
  refine ⟨?_, ?_, ?_⟩
  · rw [ht]
    omega
  · rw [hk]
    omega
  · rw [hn]
    omega

/-- The groups of a number are determined by it. -/
theorem groups_unique {a b c d a' b' c' d' : ℕ} (hb : b < 2 ^ 16) (hb' : b' < 2 ^ 16)
    (hc : c < 2 ^ 16) (hc' : c' < 2 ^ 16) (hd : d < 2 ^ 48) (hd' : d' < 2 ^ 48)
    (h : a * 2 ^ 80 + b * 2 ^ 64 + c * 2 ^ 48 + d = a' * 2 ^ 80 + b' * 2 ^ 64 + c' * 2 ^ 48 + d') :
    a = a' ∧ b = b' ∧ c = c' ∧ d = d' := by
  omega

/-- The groups of the canonical bytes. -/
theorem groups_toV6Bytes (f : Fields) (b : Vector UInt8 16) (hb : toV6Bytes f = b) :
    ofBytes (bytesAt b 0 6) = f.time.toNat % 2 ^ 60 / 2 ^ 12 ∧
      (byteAt b 6).toNat * 2 ^ 8 + (byteAt b 7).toNat = 6 * 2 ^ 12 + f.time.toNat % 2 ^ 12 ∧
      (byteAt b 8).toNat * 2 ^ 8 + (byteAt b 9).toNat = 2 * 2 ^ 14 + f.clock.toNat % 2 ^ 14 ∧
      ofBytes (bytesAt b 10 6) = f.node.toNat % 2 ^ 48 := by
  have h6 := (byteAt b 6).toNat_lt
  have h7 := (byteAt b 7).toNat_lt
  have h8 := (byteAt b 8).toNat_lt
  have h9 := (byteAt b 9).toNat_lt
  have hlow := ofBytes_lt (bytesAt b 10 6)
  rw [length_bytesAt] at hlow
  refine groups_unique (by omega) (by omega) (by omega) (by omega) (by omega) (by omega) ?_
  rw [← ofBytes_toList, ← hb, toList_toV6Bytes, ofBytes_toBytes_of_lt (v6Number_lt f), v6Number]

/-- A byte with a tag above its low `m` bits, and the byte after it. -/
theorem untag {m t x b c : ℕ} (hc : c < 2 ^ 8) (hx : x < 2 ^ m * 2 ^ 8)
    (h : b * 2 ^ 8 + c = t * (2 ^ m * 2 ^ 8) + x) :
    b % 2 ^ m * 2 ^ 8 + c = x ∧ b / 2 ^ m = t := by
  have hpos : 0 < 2 ^ m * 2 ^ 8 := by positivity
  have hlow : b % 2 ^ m * 2 ^ 8 + c < 2 ^ m * 2 ^ 8 := by
    have hb := Nat.mod_lt b (Nat.two_pow_pos m)
    omega
  have hsplit : b / 2 ^ m * (2 ^ m * 2 ^ 8) + (b % 2 ^ m * 2 ^ 8 + c) =
      t * (2 ^ m * 2 ^ 8) + x := by
    rw [← h]
    conv_rhs => rw [← Nat.div_add_mod' b (2 ^ m)]
    ring
  have hmod := congrArg (· % (2 ^ m * 2 ^ 8)) hsplit
  have hdiv := congrArg (· / (2 ^ m * 2 ^ 8)) hsplit
  simp only [Nat.mul_add_mod_self_right, Nat.mod_eq_of_lt hlow, Nat.mod_eq_of_lt hx] at hmod
  rw [Nat.mul_comm, Nat.mul_comm t] at hdiv
  simp only [Nat.mul_add_div hpos, Nat.div_eq_of_lt hlow, Nat.div_eq_of_lt hx, Nat.add_zero] at hdiv
  exact ⟨hmod, hdiv⟩

theorem Fields.ext_toNat {f g : Fields} (htime : f.time.toNat = g.time.toNat)
    (hclock : f.clock.toNat = g.clock.toNat) (hnode : f.node.toNat = g.node.toNat) : f = g := by
  cases f
  cases g
  rw [Fields.mk.injEq]
  exact ⟨UInt64.toNat_inj.1 htime, UInt16.toNat_inj.1 hclock, UInt64.toNat_inj.1 hnode⟩

/-- **Fields in range survive the canonical bytes.** -/
theorem fromV6Bytes_toV6Bytes {f : Fields} (hf : f.InRange) : fromV6Bytes (toV6Bytes f) = f := by
  obtain ⟨htime, hclock, hnode⟩ := hf
  generalize hb : toV6Bytes f = b
  have h7 := (byteAt b 7).toNat_lt
  have h9 := (byteAt b 9).toNat_lt
  obtain ⟨hhigh, hmid, hseq, hlow⟩ := groups_toV6Bytes f b hb
  obtain ⟨ht, hk, hn⟩ := toNat_fromV6Bytes b
  obtain ⟨hmid', -⟩ := untag (m := 4) (t := 6) h7 (Nat.mod_lt _ (by decide)) hmid
  obtain ⟨hseq', -⟩ := untag (m := 6) (t := 2) h9 (Nat.mod_lt _ (by decide)) hseq
  apply Fields.ext_toNat
  · rw [ht, hhigh, Nat.add_assoc, hmid', Nat.mod_eq_of_lt htime]
    exact Nat.div_add_mod' _ _
  · rw [hk, hseq']
    exact Nat.mod_eq_of_lt hclock
  · rw [hn, hlow, Nat.mod_eq_of_lt hnode]

/-- **A version-6 RFC-4122 UUID** is the canonical bytes of its fields. -/
theorem toV6Bytes_fromV6Bytes {u : UUID} (hu : u.isRfc 6 = true) :
    toV6Bytes (fromV6Bytes u.bytes) = u.bytes := by
  obtain ⟨hvariant, hversion⟩ := (UUID.isRfc_iff u 6).1 hu
  have h6 := UUID.toNat_uuidVersion u
  have h8 := UUID.toNat_uuidVariant u
  rw [hversion] at h6
  rw [hvariant] at h8
  rw [← byteAt_eq u.bytes (by decide : 6 < 16)] at h6
  rw [← byteAt_eq u.bytes (by decide : 8 < 16)] at h8
  simp only [UInt8.reduceToNat] at h6 h8
  have h7 := (byteAt u.bytes 7).toNat_lt
  have h9 := (byteAt u.bytes 9).toNat_lt
  have hhigh := ofBytes_lt (bytesAt u.bytes 0 6)
  have hlow := ofBytes_lt (bytesAt u.bytes 10 6)
  rw [length_bytesAt] at hhigh hlow
  obtain ⟨ht, hk, hn⟩ := toNat_fromV6Bytes u.bytes
  have hnumber : v6Number (fromV6Bytes u.bytes) = ofBytes u.bytes.toList := by
    rw [v6Number, ofBytes_toList, ht, hk, hn]
    omega
  have hround := toBytes_ofBytes u.bytes.toList
  rw [Vector.length_toList] at hround
  rw [← Vector.toList_inj, toList_toV6Bytes, hnumber, hround]

namespace V6

/-- Every UUID that the codec builds has version 6 and the RFC-4122 variant. -/
theorem isRfc_fromFields (f : Fields) : (fromFields f).isRfc 6 = true := by
  generalize hu : fromFields f = u
  have h7 := (byteAt u.bytes 7).toNat_lt
  have h9 := (byteAt u.bytes 9).toNat_lt
  obtain ⟨-, hmid, hseq, -⟩ := groups_toV6Bytes f u.bytes (by rw [← hu, fromFields])
  rw [UUID.isRfc_iff, ← UInt8.toNat_inj, ← UInt8.toNat_inj, UUID.toNat_uuidVersion,
    UUID.toNat_uuidVariant, ← byteAt_eq u.bytes (by decide : 6 < 16),
    ← byteAt_eq u.bytes (by decide : 8 < 16),
    (untag (m := 4) (t := 6) h7 (Nat.mod_lt _ (by decide)) hmid).2,
    (untag (m := 6) (t := 2) h9 (Nat.mod_lt _ (by decide)) hseq).2]
  decide

/-! ### The codec, in terms of layouts -/

/-- The layout that `serialise` writes. -/
def layout (u : UUID) : Layout := layoutOf expandSplitmix (fromV6Bytes u.bytes)

/-- **`serialise` writes the wire of the layout**, without a fault. -/
theorem serialise_eq (u : UUID) : serialise u = .ok (layout u).wire :=
  condense_eq expandSplitmix _

/-- The UUID that a layout is decoded to. -/
def ofLayout (L : Layout) : UUID := fromFields (L.fields expandSplitmix)

/-- **Reading a wire** gives the UUID of its layout, whatever follows. -/
theorem unserialise_wire (L : Layout) (r : Bytes) :
    unserialise (L.wire ++ r) = .ok (ofLayout L) r := by
  simp only [unserialise, bind, EStateM.bind, uncondense_wire]
  rfl

theorem make_eq (localNodeHash : Option UInt64) (f : Fields) : make localNodeHash f =
    ofLayout (crushLayout f.time.toNat f.clock.toNat (crushSalt localNodeHash f.node).toNat) := by
  rw [make, crushFields_eq, ofLayout, fromFields]

theorem fields_fromFields {f : Fields} (hf : f.InRange) :
    fromV6Bytes (fromFields f).bytes = f := fromV6Bytes_toV6Bytes hf

/-- Fields in range are determined by the UUID that is built from them. -/
theorem fromFields_inj {f g : Fields} (hf : f.InRange) (hg : g.InRange) :
    fromFields f = fromFields g ↔ f = g := by
  constructor
  · intro h
    rw [← fields_fromFields hf, h, fields_fromFields hg]
  · intro h
    rw [h]

theorem fields_ofLayout (L : Layout) :
    fromV6Bytes (ofLayout L).bytes = L.fields expandSplitmix :=
  fromV6Bytes_toV6Bytes (L.fields_inRange expandSplitmix)

/-- **The wire of a compacted id** is that of the layout it was compacted to. -/
theorem serialise_make (localNodeHash : Option UInt64) (f : Fields) :
    serialise (make localNodeHash f) = .ok (crushLayout f.time.toNat f.clock.toNat
      (crushSalt localNodeHash f.node).toNat).wire := by
  rw [make_eq, serialise_eq, layout, fields_ofLayout, layoutOf_fields_crush]

end V6

end Cuuid
