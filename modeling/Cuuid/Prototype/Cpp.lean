/-
**The C++ prototype of the second format.**

This module embeds the codec of `cuuid_v2.hh`, on 64-bit words that wrap around and with the 128-bit
word `v`, and says what it computes in terms of the content of a wire.

The size of a wire is a `size_t` that the source converts to an `int`, so the reader works with the
size modulo `2 ^ 32`, as a signed number.

Main definitions:

* `Cuuid.Prototype.Cpp.Id`, `Cuuid.Prototype.Cpp.crush`;
* `Cuuid.Prototype.Cpp.encode`, `Cuuid.Prototype.Cpp.decode`.

Main results:

* `Cuuid.Prototype.Cpp.encode_eq` — **encoding** writes the number of the content;
* `Cuuid.Prototype.Cpp.decode_eq` — **decoding** reads the content of the number, with the time modulo
  `2 ^ 64`, provided that the size of the wire survives its conversion.
-/

import Cuuid.Prototype.Format
import Cuuid.Prototype.Framing

set_option relaxedAutoImplicit false
set_option autoImplicit false

namespace Cuuid.Prototype.Cpp

open BigEndian BitField LengthFold

/-! ### Time base -/

def gregEpoch100ns : UInt64 := 0x01b21dd213814000
def epoch2026Ms : UInt64 := 1767225600000

def clockBits : ℕ := 14
def nodeBits : ℕ := 48
def saltBits : ℕ := 7
def clockMask : UInt64 := (1 <<< UInt64.ofNat clockBits) - 1
def nodeMask : UInt64 := (1 <<< UInt64.ofNat nodeBits) - 1
def saltMask : UInt64 := (1 <<< UInt64.ofNat saltBits) - 1
def multicast : UInt64 := 0x010000000000

/-- Gregorian 100ns to milliseconds since 2026. -/
def gregToV2ms (greg : UInt64) : UInt64 :=
  let unixMs := (greg - gregEpoch100ns) / 10000
  unixMs - epoch2026Ms

/-- Milliseconds since 2026 to Gregorian 100ns. -/
def v2msToGreg (v2ms : UInt64) : UInt64 :=
  let unixMs := v2ms + epoch2026Ms
  unixMs * 10000 + gregEpoch100ns

/-! ### Node reconstruction and compaction -/

def splitmix64 (x : UInt64) : UInt64 :=
  let x := x + 0x9e3779b97f4a7c15
  let x := (x ^^^ (x >>> 30)) * 0xbf58476d1ce4e5b9
  let x := (x ^^^ (x >>> 27)) * 0x94d049bb133111eb
  x ^^^ (x >>> 31)

/-- A UUID as its three fields. -/
structure Id where
  /-- 60-bit Gregorian 100ns. -/
  time : UInt64
  /-- 14-bit. -/
  clock : UInt16
  /-- 48-bit. -/
  node : UInt64
deriving DecidableEq, Repr

/-- The loop is that of the condenser's hash. -/
def fnv1a (num : UInt64) : UInt64 := fnvLoop 8 0xcbf29ce484222325 num

def xorFold (num : UInt64) (bits : ℕ) : UInt64 := xorFoldLoop bits 64 0 num

/-- The synthetic node of a compacted id. -/
def reconstructNode (v2ms : UInt64) (clock : UInt16) (salt : UInt8) : UInt64 :=
  let seed := splitmix64 (v2ms ^^^ (clock.toUInt64 <<< 44) ^^^ (salt.toUInt64 <<< 57))
  let node := splitmix64 seed
  let node := node &&& (nodeMask &&& ~~~saltMask)
  let node := node ||| salt.toUInt64
  node ||| multicast

/-- The salt of a node: its low bits when it is synthetic already, a hash of it otherwise. -/
def nodeSalt (node : UInt64) : UInt8 :=
  if node &&& multicast != 0 then (node &&& saltMask).toUInt8
  else (xorFold (fnv1a node) saltBits &&& saltMask).toUInt8

/-- Makes the node of an id synthetic, and its time one in whole milliseconds. -/
def crush (id : Id) : Id :=
  let salt := nodeSalt id.node
  let v2ms := gregToV2ms id.time
  { id with time := v2msToGreg v2ms, node := reconstructNode v2ms id.clock salt }

/-! ### Framing -/

def vl : VlTable :=
  [ (⟨0x1c, 0xfc⟩, ⟨0x1c, 0xfc⟩), (⟨0x18, 0xfc⟩, ⟨0x18, 0xfc⟩), (⟨0x14, 0xfc⟩, ⟨0x14, 0xfc⟩),
    (⟨0x10, 0xfc⟩, ⟨0x10, 0xfc⟩), (⟨0x04, 0xfc⟩, ⟨0x40, 0xc0⟩), (⟨0x0a, 0xfe⟩, ⟨0xa0, 0xe0⟩),
    (⟨0x08, 0xfe⟩, ⟨0x80, 0xe0⟩), (⟨0x02, 0xff⟩, ⟨0x20, 0xf0⟩), (⟨0x03, 0xff⟩, ⟨0x30, 0xf0⟩),
    (⟨0x0c, 0xff⟩, ⟨0xc0, 0xf0⟩), (⟨0x0d, 0xff⟩, ⟨0xd0, 0xf0⟩), (⟨0x0e, 0xff⟩, ⟨0xe0, 0xf0⟩),
    (⟨0x0f, 0xff⟩, ⟨0xf0, 0xf0⟩) ]

/-- The bytes that `put_vl` stores of a word. -/
def wordBytes (x : UInt64) : Bytes :=
  (List.range 8).map fun i => (x >>> UInt64.ofNat ((7 - i) * 8)).toUInt8

/-- Appends the wire of the number `hi * 2 ^ 64 + lo`. -/
def putVl (out : Bytes) (hi lo : UInt64) : Except Failure Bytes := do
  let buf := 0 :: (wordBytes hi ++ wordBytes lo)
  let wire ← guarded (foldWire vl buf)
  .ok (out ++ wire)

/-- `static_cast<int>` of a size. -/
def sizeToInt (size : ℕ) : ℤ := Int.bmod size 0x100000000

def getVl (wire : Bytes) : Except Failure (UInt64 × UInt64) := do
  let size := sizeToInt wire.length
  let l ← if 0 < size then guarded (readAt wire 0) else .ok 0
  let buf ← readBuffer vl size l wire
  let hi ← guarded (unpack buf 1)
  let lo ← guarded (unpack buf 9)
  .ok (hi, lo)

/-! ### The codec -/

/-- `static_cast<__uint128_t>`. -/
def toU128 (x : UInt64) : BitVec 128 := x.toBitVec.setWidth 128

/-- `static_cast<uint64_t>` of a 128-bit word. -/
def toU64 (v : BitVec 128) : UInt64 := UInt64.ofBitVec (v.setWidth 64)

/-- The 128-bit word that `encode` writes. -/
def valueOf (id : Id) : BitVec 128 :=
  let salt := (id.node &&& saltMask).toUInt8
  let v2ms := gregToV2ms id.time
  let compact := id.node == reconstructNode v2ms id.clock salt
  if compact then
    (toU128 v2ms <<< 22) ||| (toU128 (id.clock.toUInt64 &&& clockMask) <<< 8) |||
      (toU128 salt.toUInt64 <<< 1) ||| 1
  else
    (toU128 v2ms <<< 63) ||| (toU128 (id.clock.toUInt64 &&& clockMask) <<< 49) |||
      (toU128 (id.node &&& nodeMask) <<< 1) ||| 0

def encode (id : Id) : Except Failure Bytes :=
  let v := valueOf id
  putVl [] (toU64 (v >>> 64)) (toU64 v)

/-- The id that `decode` makes of the two words. -/
def idOf (hi lo : UInt64) : Id :=
  let v := (toU128 hi <<< 64) ||| toU128 lo
  let compact := toU64 v &&& 1 != 0
  if compact then
    let salt := (toU64 ((v >>> 1) &&& toU128 saltMask)).toUInt8
    let clk := toU64 ((v >>> 8) &&& toU128 clockMask)
    let v2ms := toU64 (v >>> 22)
    { time := v2msToGreg v2ms
      clock := clk.toUInt16
      node := reconstructNode v2ms clk.toUInt16 salt }
  else
    let node := toU64 ((v >>> 1) &&& toU128 nodeMask)
    let clk := toU64 ((v >>> 49) &&& toU128 clockMask)
    let v2ms := toU64 (v >>> 63)
    { time := v2msToGreg v2ms
      clock := clk.toUInt16
      node := node }

def decode (wire : Bytes) : Except Failure Id := do
  let (hi, lo) ← getVl wire
  .ok (idOf hi lo)

/-! ### Words of 128 bits -/

/-- The table is that of the condenser. -/
theorem vl_eq : vl = Cuuid.vl := rfl

theorem toNat_toU128 (x : UInt64) : (toU128 x).toNat = x.toNat := by
  have hx := x.toNat_lt
  rw [toU128, BitVec.toNat_setWidth, UInt64.toNat_toBitVec]
  omega

theorem toNat_toU64 (v : BitVec 128) : (toU64 v).toNat = v.toNat % 2 ^ 64 := by
  rw [toU64, UInt64.toNat_ofBitVec, BitVec.toNat_setWidth]

/-- A shift that loses no bit. -/
theorem toNat_toU128_shiftLeft (x : UInt64) {k : ℕ} (hk : k ≤ 64) :
    (toU128 x <<< k).toNat = x.toNat * 2 ^ k := by
  have hx := x.toNat_lt
  have hpow : 2 ^ k ≤ 2 ^ 64 := Nat.pow_le_pow_right (by decide) hk
  have hlt : x.toNat * 2 ^ k < 2 ^ 64 * 2 ^ 64 :=
    Nat.mul_lt_mul_of_lt_of_le hx hpow (by decide)
  rw [BitVec.toNat_shiftLeft, toNat_toU128, Nat.shiftLeft_eq, Nat.mod_eq_of_lt (by omega)]

theorem toNat_shiftRight_and (v : BitVec 128) (k j : ℕ) {mask : UInt64}
    (h : mask.toNat = 2 ^ j - 1) : ((v >>> k) &&& toU128 mask).toNat = v.toNat / 2 ^ k % 2 ^ j := by
  rw [BitVec.toNat_and, BitVec.toNat_ushiftRight, toNat_toU128, h, Nat.shiftRight_eq_div_pow,
    Nat.and_two_pow_sub_one_eq_mod]

/-- The two words of a number. -/
theorem toNat_join {P : ℕ} (hP : P < 2 ^ 128) :
    ((toU128 (UInt64.ofNat (P / 2 ^ 64)) <<< 64) ||| toU128 (UInt64.ofNat P)).toNat = P := by
  rw [BitVec.toNat_or, toNat_toU128_shiftLeft _ le_rfl, toNat_toU128, UInt64.toNat_ofNat',
    UInt64.toNat_ofNat', or_eq_add _ _ 64 (by omega) (by omega)]
  omega

/-! ### Times without a wrap -/

/-- The milliseconds of a time from 2026 on. -/
theorem toNat_gregToV2ms {greg : UInt64}
    (h : 0x01b21dd213814000 + 1767225600000 * 10000 ≤ greg.toNat) :
    (gregToV2ms greg).toNat = (greg.toNat - 0x01b21dd213814000) / 10000 - 1767225600000 := by
  have hgregEpoch : gregEpoch100ns.toNat = 0x01b21dd213814000 := rfl
  have hepoch : epoch2026Ms.toNat = 1767225600000 := rfl
  have hdiv : ((greg - gregEpoch100ns) / 10000).toNat =
      (greg.toNat - 0x01b21dd213814000) / 10000 := by
    rw [UInt64.toNat_div, UInt64.toNat_sub_of_le _ _ (UInt64.le_iff_toNat_le.2 (by omega)),
      hgregEpoch]
    rfl
  rw [gregToV2ms, UInt64.toNat_sub_of_le _ _ (UInt64.le_iff_toNat_le.2 (by omega)), hdiv, hepoch]

/-- The Gregorian time of a count of milliseconds that has one of 64 bits. -/
theorem toNat_v2msToGreg {v2ms : UInt64} (h : v2ms.toNat < 1830687888970956) :
    (v2msToGreg v2ms).toNat = (v2ms.toNat + 1767225600000) * 10000 + 0x01b21dd213814000 := by
  have hgregEpoch : gregEpoch100ns.toNat = 0x01b21dd213814000 := rfl
  have hepoch : epoch2026Ms.toNat = 1767225600000 := rfl
  have hten : (10000 : UInt64).toNat = 10000 := rfl
  rw [v2msToGreg, UInt64.toNat_add, UInt64.toNat_mul, UInt64.toNat_add, hgregEpoch, hepoch, hten]
  omega

/-! ### Encoding -/

theorem wordBytes_eq (x : UInt64) : wordBytes x = toBytes 8 x.toNat := by
  have hreverse : wordBytes x = (leBytes x).reverse := rfl
  rw [hreverse, leBytes_eq, List.reverse_reverse]

/-- The content of the wire of an id. -/
def contentOf (id : Id) : Content :=
  let v2ms := gregToV2ms id.time
  if id.node = reconstructNode v2ms id.clock (id.node &&& saltMask).toUInt8 then
    .compact v2ms.toNat (BitVec.ofNat 14 id.clock.toNat) (BitVec.ofNat 7 id.node.toNat)
  else
    .expanded v2ms.toNat (BitVec.ofNat 14 id.clock.toNat) (BitVec.ofNat 48 id.node.toNat)

/-- The value is the number of the content. -/
theorem toNat_valueOf (id : Id) : (valueOf id).toNat = (contentOf id).number := by
  have hms := (gregToV2ms id.time).toNat_lt
  have hclock : (id.clock.toUInt64 &&& clockMask).toNat = id.clock.toNat % 2 ^ 14 := by
    rw [toNat_and_two_pow_sub_one _ _ 14 (by decide), UInt16.toNat_toUInt64]
  have hsalt : (id.node &&& saltMask).toUInt8.toUInt64.toNat = id.node.toNat % 2 ^ 7 := by
    rw [UInt8.toNat_toUInt64, UInt64.toNat_toUInt8, toNat_and_two_pow_sub_one _ _ 7 (by decide)]
    omega
  have hnode : (id.node &&& nodeMask).toNat = id.node.toNat % 2 ^ 48 :=
    toNat_and_two_pow_sub_one _ _ 48 (by decide)
  simp only [valueOf, contentOf, beq_iff_eq]
  split_ifs with hcompact
  · rw [← Content.or_eq_number_compact, BitVec.toNat_ofNat, BitVec.toNat_ofNat, BitVec.toNat_or,
      BitVec.toNat_or, BitVec.toNat_or, toNat_toU128_shiftLeft _ (by decide),
      toNat_toU128_shiftLeft _ (by decide), toNat_toU128_shiftLeft _ (by decide), hclock, hsalt]
    rfl
  · rw [← Content.or_eq_number_expanded, BitVec.toNat_ofNat, BitVec.toNat_ofNat, BitVec.toNat_or,
      BitVec.toNat_or, BitVec.toNat_or, toNat_toU128_shiftLeft _ (by decide),
      toNat_toU128_shiftLeft _ (by decide), toNat_toU128_shiftLeft _ (by decide), hclock, hnode]
    exact Nat.or_zero _

/-- The milliseconds of the content are those of the id. -/
theorem v2ms_contentOf (id : Id) : (contentOf id).v2ms = (gregToV2ms id.time).toNat := by
  simp only [contentOf]
  split_ifs <;> rfl

/-- Up to 60 bits of milliseconds, the value fits the framing. -/
theorem number_contentOf_lt {id : Id} (h : (gregToV2ms id.time).toNat < 2 ^ 60) :
    (contentOf id).number < 2 ^ 123 := by
  apply Content.number_lt
  rw [v2ms_contentOf]
  exact h

/-- **Encoding** writes the number of the content in the first slot with room for it. -/
theorem encode_eq {id : Id} (h : (gregToV2ms id.time).toNat < 2 ^ 60) :
    ∃ s, vlTable.fit (contentOf id).number = some s ∧
      encode id = .ok (s.wire (contentOf id).number) := by
  have hlt := number_contentOf_lt h
  obtain ⟨s, hfit, hfold⟩ := foldWire_eq hlt
  have hvalue := toNat_valueOf id
  -- the buffer of the source: a zero and the two words of the value
  have hbuf : (0 : UInt8) :: (wordBytes (toU64 (valueOf id >>> 64)) ++ wordBytes (toU64 (valueOf id))) =
      toBytes 17 (contentOf id).number := by
    have hhi : (toU64 (valueOf id >>> 64)).toNat = (contentOf id).number / 256 ^ 8 := by
      rw [toNat_toU64, BitVec.toNat_ushiftRight, Nat.shiftRight_eq_div_pow, hvalue]
      omega
    have hlo : toBytes 8 (toU64 (valueOf id)).toNat = toBytes 8 (contentOf id).number := by
      rw [toNat_toU64, hvalue]
      exact toBytes_mod 8 _
    have hzero : (contentOf id).number / 256 ^ 16 = 0 := by omega
    rw [wordBytes_eq, wordBytes_eq, hhi, hlo, ← toBytes_add 8 8, toBytes_succ 16, hzero]
    rfl
  refine ⟨s, hfit, ?_⟩
  simp only [encode, putVl, hbuf, vl_eq, hfold]
  rfl

/-! ### Decoding -/

/-- The id of the content of a wire. -/
def ofContent : Content → Id
  | .compact ms c s =>
      { time := v2msToGreg (UInt64.ofNat ms)
        clock := UInt16.ofNat c.toNat
        node := reconstructNode (UInt64.ofNat ms) (UInt16.ofNat c.toNat) (UInt8.ofNat s.toNat) }
  | .expanded ms c n =>
      { time := v2msToGreg (UInt64.ofNat ms)
        clock := UInt16.ofNat c.toNat
        node := UInt64.ofNat n.toNat }

/-- The two words of a number are read as its content. -/
theorem idOf_eq {P : ℕ} (hP : P < 2 ^ 128) :
    idOf (UInt64.ofNat (P / 2 ^ 64)) (UInt64.ofNat P) = ofContent (Content.ofNumber P) := by
  have hjoin := toNat_join hP
  unfold idOf
  generalize (toU128 (UInt64.ofNat (P / 2 ^ 64)) <<< 64) ||| toU128 (UInt64.ofNat P) = v at hjoin
  have hflag : (toU64 v &&& 1 != 0) = decide (P % 2 = 1) := by
    rw [Bool.eq_iff_iff, bne_iff_ne, ne_eq, eq_zero_iff,
      toNat_and_two_pow_sub_one _ _ 1 (by decide), toNat_toU64, hjoin, decide_eq_true_iff]
    omega
  have hshift : ∀ k, toU64 (v >>> k) = UInt64.ofNat (P / 2 ^ k) := by
    intro k
    rw [← UInt64.toNat_inj, toNat_toU64, BitVec.toNat_ushiftRight, hjoin,
      Nat.shiftRight_eq_div_pow, UInt64.toNat_ofNat']
  have hclock : ∀ k, (toU64 ((v >>> k) &&& toU128 clockMask)).toUInt16 =
      UInt16.ofNat (BitVec.ofNat 14 (P / 2 ^ k)).toNat := by
    intro k
    rw [← UInt16.toNat_inj, UInt64.toNat_toUInt16, toNat_toU64,
      toNat_shiftRight_and v k 14 (by decide), hjoin, UInt16.toNat_ofNat', BitVec.toNat_ofNat]
    omega
  have hsalt : (toU64 ((v >>> 1) &&& toU128 saltMask)).toUInt8 =
      UInt8.ofNat (BitVec.ofNat 7 (P / 2 ^ 1)).toNat := by
    rw [← UInt8.toNat_inj, UInt64.toNat_toUInt8, toNat_toU64,
      toNat_shiftRight_and v 1 7 (by decide), hjoin, UInt8.toNat_ofNat', BitVec.toNat_ofNat]
    omega
  have hnode : toU64 ((v >>> 1) &&& toU128 nodeMask) =
      UInt64.ofNat (BitVec.ofNat 48 (P / 2 ^ 1)).toNat := by
    rw [← UInt64.toNat_inj, toNat_toU64, toNat_shiftRight_and v 1 48 (by decide), hjoin,
      UInt64.toNat_ofNat', BitVec.toNat_ofNat]
  simp only [hflag, hshift, hclock, hsalt, hnode, Content.ofNumber, decide_eq_true_eq]
  split_ifs <;> rfl

/-- The words that the reader shifts in from the buffer of a number. -/
theorem unpack_toBytes (P : ℕ) : unpack (toBytes 17 P) 1 = .ok (UInt64.ofNat (P / 2 ^ 64)) ∧
    unpack (toBytes 17 P) 9 = .ok (UInt64.ofNat P) := by
  have hword : ∀ x, (toBytes 8 x).foldl shiftIn 0 = UInt64.ofNat x := by
    intro x
    rw [← UInt64.toNat_inj, toNat_foldl_shiftIn _ 0 0 (by decide) (by simp), ofBytes_toBytes,
      UInt64.toNat_zero, Nat.zero_mul, Nat.zero_add, UInt64.toNat_ofNat']
    rfl
  constructor
  · rw [unpack, readRange, if_pos (by simp), take_drop_toBytes 1 8 8]
    exact congrArg Except.ok (hword _)
  · rw [unpack, readRange, if_pos (by simp), take_drop_toBytes 9 8 0, pow_zero, Nat.div_one]
    exact congrArg Except.ok (hword _)

/-- The conversion of a size never makes it larger. -/
theorem bmod_le_natCast (n m : ℕ) : Int.bmod n m ≤ n := by
  have hmod := Nat.mod_le n m
  rw [Int.bmod_def]
  split_ifs <;> omega

theorem sizeToInt_le (size : ℕ) : sizeToInt size ≤ size := bmod_le_natCast size _

/-- A size of fewer than 31 bits is kept. -/
theorem sizeToInt_of_lt {size : ℕ} (h : size < 2 ^ 31) : sizeToInt size = size := by
  have hbmod (m : ℕ) (hm : 2 * size < m) : Int.bmod size m = size := by
    rw [Int.bmod_def, Int.emod_eq_of_lt (by omega) (by omega), if_pos (by omega)]
  exact hbmod _ (by omega)

/-- **Reading the number** of a wire, provided that its size survives the conversion. -/
theorem getVl_eq (w : Bytes) : getVl w =
    match vlTable.decode w with
    | some (P, r) =>
        if (w.length : ℤ) - r.length ≤ sizeToInt w.length then
          .ok (UInt64.ofNat (P / 2 ^ 64), UInt64.ofNat P)
        else .error (.thrown "v6: bad VL length")
    | none => .error (.thrown "v6: bad VL length") := by
  have hle := sizeToInt_le w.length
  rw [getVl]
  generalize sizeToInt w.length = size at hle ⊢
  rcases lt_or_ge 0 size with hpos | hneg
  · cases w with
    | nil =>
        rw [List.length_nil] at hle
        omega
    | cons b l =>
        have hread : guarded (readAt (b :: l) 0) = .ok b := rfl
        have hbuffer := readBuffer_eq hle
        simp only [if_pos hpos, hread, vl_eq, bind, Except.bind]
        cases hdec : vlTable.decode (b :: l) with
        | none =>
            rw [hdec] at hbuffer
            rw [hbuffer]
        | some p =>
            obtain ⟨P, r⟩ := p
            obtain ⟨hhi, hlo⟩ := unpack_toBytes P
            rw [hdec] at hbuffer
            by_cases hroom : ((b :: l).length : ℤ) - r.length ≤ size
            · rw [hbuffer.trans (if_pos hroom)]
              simp only [hhi, hlo]
              exact (if_pos hroom).symm
            · rw [hbuffer.trans (if_neg hroom)]
              exact (if_neg hroom).symm
  · -- the byte that is looked up is zero, which no slot has
    have hzero : vlTable.slotOf 0 = none := by decide +kernel
    simp only [if_neg (not_lt.2 hneg), vl_eq, bind, Except.bind,
      readBuffer_of_slotOf_eq_none hzero]
    cases hdec : vlTable.decode w with
    | none => rfl
    | some p =>
        obtain ⟨P, r⟩ := p
        obtain ⟨s, -, -, hw⟩ := Table.decode_eq_some_iff.1 hdec
        have hlen : w.length = s.extra + 1 + r.length := by
          rw [hw, List.length_append, Slot.length_wire]
        exact (if_neg (by omega)).symm

/-- **Decoding** reads the content of the number. -/
theorem decode_eq (w : Bytes) : decode w =
    match vlTable.decode w with
    | some (P, r) =>
        if (w.length : ℤ) - r.length ≤ sizeToInt w.length then .ok (ofContent (Content.ofNumber P))
        else .error (.thrown "v6: bad VL length")
    | none => .error (.thrown "v6: bad VL length") := by
  rw [decode, getVl_eq]
  cases hdec : vlTable.decode w with
  | none => rfl
  | some p =>
      obtain ⟨P, r⟩ := p
      dsimp only
      split_ifs
      · simp only [bind, Except.bind, idOf_eq (UUIDCondenser.payload_lt_of_decode hdec)]
      · rfl

end Cuuid.Prototype.Cpp
