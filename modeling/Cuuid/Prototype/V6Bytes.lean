/-
**The canonical bytes in the prototypes.**

Beside its codec, each prototype writes the sixteen bytes of a version-6 UUID, and the C++ one reads
them.  The fields are cut to their widths on the way, so the ports, which take integers without a
width, write what C++ writes for their low bits.  The library writes the same bytes for the same
fields.

Main definitions:

* `Cuuid.Prototype.Cpp.toV6Bytes`, `Cuuid.Prototype.Cpp.fromV6Bytes`;
* `Cuuid.Prototype.Python.toV6Bytes`, `Cuuid.Prototype.JavaScript.toV6Bytes`.

Main results:

* `Cuuid.Prototype.v6_bytes_agree` — **the same bytes** come out of every prototype and of the
  library, and they sort by time;
* `Cuuid.Prototype.v6_bytes_round_trip` — **what is read back**, from fields and from bytes.
-/

import Cuuid.Order
import Cuuid.Prototype.Arithmetic

set_option relaxedAutoImplicit false
set_option autoImplicit false

namespace Cuuid.Prototype

open BigEndian BitField Unbounded

/-! ### The three programs -/

namespace Cpp

/-- `to_v6_bytes`, with its loop over the six bytes of the node written out. -/
def toV6Bytes (id : Id) : Vector UInt8 16 :=
  let timeHigh := ((id.time >>> 28) &&& 0xffffffff).toUInt32
  let timeMid := ((id.time >>> 12) &&& 0xffff).toUInt16
  let timeLow := (id.time &&& 0x0fff).toUInt16
  #v[(timeHigh >>> 24).toUInt8,
    (timeHigh >>> 16).toUInt8,
    (timeHigh >>> 8).toUInt8,
    timeHigh.toUInt8,
    (timeMid >>> 8).toUInt8,
    timeMid.toUInt8,
    ((0x60 : UInt16) ||| (timeLow >>> 8)).toUInt8,
    timeLow.toUInt8,
    ((0x80 : UInt16) ||| ((id.clock >>> 8) &&& 0x3f)).toUInt8,
    id.clock.toUInt8,
    (id.node >>> 40).toUInt8,
    (id.node >>> 32).toUInt8,
    (id.node >>> 24).toUInt8,
    (id.node >>> 16).toUInt8,
    (id.node >>> 8).toUInt8,
    id.node.toUInt8]

/-- `from_v6_bytes`. -/
def fromV6Bytes (b : Vector UInt8 16) : Id :=
  let timeHigh := ((byteAt b 0).toUInt64 <<< 24) ||| ((byteAt b 1).toUInt64 <<< 16) |||
    ((byteAt b 2).toUInt64 <<< 8) ||| (byteAt b 3).toUInt64
  let timeMid := ((byteAt b 4).toUInt64 <<< 8) ||| (byteAt b 5).toUInt64
  let timeLow := ((byteAt b 6 &&& 0x0f).toUInt64 <<< 8) ||| (byteAt b 7).toUInt64
  { time := (timeHigh <<< 28) ||| (timeMid <<< 12) ||| timeLow
    clock := ((byteAt b 8 &&& 0x3f).toUInt16 <<< 8) ||| (byteAt b 9).toUInt16
    node := (bytesAt b 10 6).foldl (fun node x => (node <<< 8) ||| x.toUInt64) 0 }

end Cpp

/-- An entry of a byte array of a port; what is stored has been cut to a byte. -/
def entry (x : ℤ) : UInt8 := UInt8.ofNat x.toNat

/-- The bytes of the port to Python. -/
def Python.toV6Bytes (time clock node : ℤ) : Bytes :=
  let th := Int.land (time >>> (28 : ℕ)) 0xFFFFFFFF
  let tm := Int.land (time >>> (12 : ℕ)) 0xFFFF
  let tl := Int.land time 0x0FFF
  [entry (Int.land (th >>> (24 : ℕ)) 0xFF), entry (Int.land (th >>> (16 : ℕ)) 0xFF),
    entry (Int.land (th >>> (8 : ℕ)) 0xFF), entry (Int.land th 0xFF),
    entry (Int.land (tm >>> (8 : ℕ)) 0xFF), entry (Int.land tm 0xFF),
    entry (Int.lor 0x60 (tl >>> (8 : ℕ))), entry (Int.land tl 0xFF),
    entry (Int.lor 0x80 (Int.land (clock >>> (8 : ℕ)) 0x3F)), entry (Int.land clock 0xFF)] ++
  (List.range 6).map fun i : ℕ => entry (Int.land (node >>> ((5 - i) * 8 : ℕ)) 0xFF)

/-- The bytes of the port to JavaScript. -/
def JavaScript.toV6Bytes (time clock node : ℤ) : Bytes :=
  let th := Int.land (time >>> (28 : ℕ)) 0xffffffff
  let tm := Int.land (time >>> (12 : ℕ)) 0xffff
  let tl := Int.land time 0x0fff
  [entry (Int.land (th >>> (24 : ℕ)) 0xff), entry (Int.land (th >>> (16 : ℕ)) 0xff),
    entry (Int.land (th >>> (8 : ℕ)) 0xff), entry (Int.land th 0xff),
    entry (Int.land (tm >>> (8 : ℕ)) 0xff), entry (Int.land tm 0xff),
    entry (Int.lor 0x60 (tl >>> (8 : ℕ))), entry (Int.land tl 0xff),
    entry (Int.lor 0x80 (Int.land (clock >>> (8 : ℕ)) 0x3f)), entry (Int.land clock 0xff)] ++
  (List.range 6).map fun i : ℕ => entry (Int.land (node >>> ((5 - i) * 8 : ℕ)) 0xff)

/-! ### The same bytes -/

/-- The fields of an id, as the library has them. -/
def Cpp.Id.toFields (id : Cpp.Id) : Fields := ⟨id.time, id.clock, id.node⟩

theorem Cpp.toV6Bytes_eq (id : Cpp.Id) : Cpp.toV6Bytes id = Cuuid.toV6Bytes id.toFields := rfl

theorem Cpp.toFields_fromV6Bytes (b : Vector UInt8 16) :
    (Cpp.fromV6Bytes b).toFields = Cuuid.fromV6Bytes b := rfl

/-- The id that has the low bits of three numbers. -/
def Cpp.Id.ofNat (time clock node : ℕ) : Cpp.Id :=
  ⟨UInt64.ofNat time, UInt16.ofNat clock, UInt64.ofNat node⟩

/-- The ports write what C++ writes for the low bits. -/
theorem Python.toV6Bytes_natCast (time clock node : ℕ) :
    Python.toV6Bytes time clock node = (Cpp.toV6Bytes (Cpp.Id.ofNat time clock node)).toList := by
  have hlow (n k : ℕ) {mask : ℤ} (h : mask = ((2 ^ k - 1 : ℕ) : ℤ)) :
      Int.land (n : ℤ) mask = ((n % 2 ^ k : ℕ) : ℤ) := land_mask_natCast n k h
  have hversion : Int.lor 0x60 ((time % 2 ^ 12 / 2 ^ 8 : ℕ) : ℤ) =
      ((6 * 2 ^ 4 + time % 2 ^ 12 / 2 ^ 8 : ℕ) : ℤ) := by
    rw [← or_eq_add _ _ 4 (by decide) (by omega)]
    rfl
  have hvariant : Int.lor 0x80 ((clock / 2 ^ 8 % 2 ^ 6 : ℕ) : ℤ) =
      ((2 * 2 ^ 6 + clock / 2 ^ 8 % 2 ^ 6 : ℕ) : ℤ) := by
    rw [← or_eq_add _ _ 6 (by decide) (by omega)]
    rfl
  have hnode : ((List.range 6).map fun i : ℕ =>
      entry (Int.land ((node : ℤ) >>> ((5 - i) * 8 : ℕ)) 0xFF)) = toBytes 6 (node % 2 ^ 64) := by
    have hcut : node % 2 ^ 64 % 256 ^ 6 = node % 256 ^ 6 :=
      Nat.mod_mod_of_dvd node (by decide)
    rw [← toBytes_mod, hcut, toBytes_mod]
    exact List.map_congr_left fun i _ => Python.byteOf_natCast node (5 - i)
  rw [Cpp.toV6Bytes_eq, toList_toV6Bytes, toBytes_v6Number, Python.toV6Bytes, hnode]
  simp only [entry, shiftRight_natCast, hlow _ 8 (show (0xFF : ℤ) = _ from rfl),
    hlow _ 32 (show (0xFFFFFFFF : ℤ) = _ from rfl), hlow _ 16 (show (0xFFFF : ℤ) = _ from rfl),
    hlow _ 12 (show (0x0FFF : ℤ) = _ from rfl), hlow _ 6 (show (0x3F : ℤ) = _ from rfl),
    hversion, hvariant, Int.toNat_natCast, Cpp.Id.toFields, Cpp.Id.ofNat, UInt64.toNat_ofNat',
    UInt16.toNat_ofNat', toBytes, List.cons_append, List.nil_append, List.cons.injEq,
    ← UInt8.toNat_inj, UInt8.toNat_ofNat', and_true]
  omega

theorem JavaScript.toV6Bytes_eq : JavaScript.toV6Bytes = Python.toV6Bytes := rfl

/-- The fields, cut to the widths that they have in the bytes. -/
def Cpp.Id.cut (id : Cpp.Id) : Cpp.Id :=
  Cpp.Id.ofNat (id.time.toNat % 2 ^ 60) (id.clock.toNat % 2 ^ 14) (id.node.toNat % 2 ^ 48)

theorem Cpp.Id.toNat_cut (id : Cpp.Id) : id.cut.time.toNat = id.time.toNat % 2 ^ 60 ∧
    id.cut.clock.toNat = id.clock.toNat % 2 ^ 14 ∧ id.cut.node.toNat = id.node.toNat % 2 ^ 48 := by
  simp only [Cpp.Id.cut, Cpp.Id.ofNat, UInt64.toNat_ofNat', UInt16.toNat_ofNat']
  omega

theorem Cpp.Id.cut_inRange (id : Cpp.Id) : id.cut.toFields.InRange := by
  obtain ⟨ht, hc, hn⟩ := id.toNat_cut
  refine ⟨?_, ?_, ?_⟩
  · exact lt_of_eq_of_lt ht (Nat.mod_lt _ (by decide))
  · exact lt_of_eq_of_lt hc (Nat.mod_lt _ (by decide))
  · exact lt_of_eq_of_lt hn (Nat.mod_lt _ (by decide))

theorem Cpp.Id.toFields_inj {id id' : Cpp.Id} (h : id.toFields = id'.toFields) : id = id' := by
  cases id
  cases id'
  simpa [Cpp.Id.toFields] using h

theorem Cpp.Id.cut_eq_iff (id : Cpp.Id) : id.cut = id ↔ id.toFields.InRange := by
  constructor
  · intro h
    rw [← h]
    exact id.cut_inRange
  · rintro ⟨htime, hclock, hnode⟩
    obtain ⟨ht, hc, hn⟩ := id.toNat_cut
    refine Cpp.Id.toFields_inj (Fields.ext_toNat ?_ ?_ ?_)
    · exact ht.trans (Nat.mod_eq_of_lt htime)
    · exact hc.trans (Nat.mod_eq_of_lt hclock)
    · exact hn.trans (Nat.mod_eq_of_lt hnode)

/-- The number of the bytes only depends on the low bits of the fields. -/
theorem v6Number_congr {f g : Fields} (ht : f.time.toNat % 2 ^ 60 = g.time.toNat % 2 ^ 60)
    (hc : f.clock.toNat % 2 ^ 14 = g.clock.toNat % 2 ^ 14)
    (hn : f.node.toNat % 2 ^ 48 = g.node.toNat % 2 ^ 48) : v6Number f = v6Number g := by
  have hlow : f.time.toNat % 2 ^ 12 = g.time.toNat % 2 ^ 12 := by omega
  rw [v6Number, v6Number, ht, hc, hn, hlow]

/-- The bytes only depend on the fields as cut. -/
theorem Cpp.toV6Bytes_cut (id : Cpp.Id) : Cpp.toV6Bytes id.cut = Cpp.toV6Bytes id := by
  obtain ⟨ht, hc, hn⟩ := id.toNat_cut
  have hnumber : v6Number id.cut.toFields = v6Number id.toFields := by
    refine v6Number_congr ?_ ?_ ?_
    · exact (congrArg (· % 2 ^ 60) ht).trans (Nat.mod_mod _ _)
    · exact (congrArg (· % 2 ^ 14) hc).trans (Nat.mod_mod _ _)
    · exact (congrArg (· % 2 ^ 48) hn).trans (Nat.mod_mod _ _)
  rw [← Vector.toList_inj, Cpp.toV6Bytes_eq, Cpp.toV6Bytes_eq, toList_toV6Bytes, toList_toV6Bytes,
    hnumber]

/-- **The same bytes** come out of the three prototypes for the fields of an id, and for any integers
with the same low bits; the library writes them too; and they sort as the fields do that they hold,
the time first. -/
theorem v6_bytes_agree :
    (∀ time clock node : ℕ,
      Python.toV6Bytes time clock node = (Cpp.toV6Bytes (Cpp.Id.ofNat time clock node)).toList ∧
      JavaScript.toV6Bytes time clock node =
        (Cpp.toV6Bytes (Cpp.Id.ofNat time clock node)).toList) ∧
    (∀ id : Cpp.Id, (V6.fromFields id.toFields).bytes = Cpp.toV6Bytes id) ∧
    ∀ id id' : Cpp.Id, (Cpp.toV6Bytes id).toList < (Cpp.toV6Bytes id').toList ↔
      id.cut.toFields.Before id'.cut.toFields := by
  refine ⟨fun time clock node => ?_, fun id => rfl, fun id id' => ?_⟩
  · rw [JavaScript.toV6Bytes_eq]
    exact ⟨Python.toV6Bytes_natCast time clock node, Python.toV6Bytes_natCast time clock node⟩
  · rw [← Cpp.toV6Bytes_cut id, ← Cpp.toV6Bytes_cut id', Cpp.toV6Bytes_eq, Cpp.toV6Bytes_eq]
    exact toV6Bytes_lt_iff id.cut_inRange id'.cut_inRange

/-- **What is read back.**  From the bytes of an id come its fields as cut, so the id itself exactly
when its fields have their widths; and the bytes come back from the id that is read off them exactly
when they are those of a version-6 UUID. -/
theorem v6_bytes_round_trip :
    (∀ id : Cpp.Id, Cpp.fromV6Bytes (Cpp.toV6Bytes id) = id.cut ∧
      (Cpp.fromV6Bytes (Cpp.toV6Bytes id) = id ↔ id.toFields.InRange)) ∧
    ∀ b : Vector UInt8 16, Cpp.toV6Bytes (Cpp.fromV6Bytes b) = b ↔ (UUID.mk b).isRfc 6 = true := by
  constructor
  · intro id
    have hread : Cpp.fromV6Bytes (Cpp.toV6Bytes id) = id.cut := by
      apply Cpp.Id.toFields_inj
      rw [← Cpp.toV6Bytes_cut, Cpp.toFields_fromV6Bytes, Cpp.toV6Bytes_eq,
        fromV6Bytes_toV6Bytes id.cut_inRange]
    exact ⟨hread, by rw [hread, Cpp.Id.cut_eq_iff]⟩
  · intro b
    have hbytes : Cpp.toV6Bytes (Cpp.fromV6Bytes b) = (V6.fromFields (fromV6Bytes b)).bytes := rfl
    rw [hbytes]
    constructor
    · intro h
      have hrfc := V6.isRfc_fromFields (fromV6Bytes b)
      rwa [show V6.fromFields (fromV6Bytes b) = ⟨b⟩ from congrArg UUID.mk h] at hrfc
    · intro h
      exact toV6Bytes_fromV6Bytes h

end Cuuid.Prototype
