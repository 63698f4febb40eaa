/-
**The Python port of the second format.**

This module embeds the codec of `cuuid_v2.py`, on integers without a width, and says what it computes
in terms of the content of a wire.

The loops of `fnv_1a` and `xor_fold` run while their number is not zero.  A natural number is used up
after as many turns at most, whereas the shifts of a negative one never reach zero; so a loop is
given one turn more than its number, and ends in `none` when it does not end.

Main definitions:

* `Cuuid.Prototype.Python.crush`;
* `Cuuid.Prototype.Python.encode`, `Cuuid.Prototype.Python.decode`.

Main results:

* `Cuuid.Prototype.Python.putVl_eq` — **framing** writes a natural number;
* `Cuuid.Prototype.Python.decode_eq` — **decoding** reads the content of the number.
-/

import Cuuid.Lib.Unbounded
import Cuuid.Prototype.Format
import Cuuid.Prototype.Framing

set_option relaxedAutoImplicit false
set_option autoImplicit false

namespace Cuuid.Prototype.Python

open BigEndian LengthFold Unbounded

/-! ### Time base -/

def mask64 : ℤ := (1 <<< (64 : ℕ)) - 1
def gregEpoch100ns : ℤ := 0x01B21DD213814000
def epoch2026Ms : ℤ := 1767225600000

def clockBits : ℕ := 14
def nodeBits : ℕ := 48
def saltBits : ℕ := 7
def clockMask : ℤ := (1 <<< clockBits) - 1
def nodeMask : ℤ := (1 <<< nodeBits) - 1
def saltMask : ℤ := (1 <<< saltBits) - 1
def multicast : ℤ := 0x010000000000

/-- Gregorian 100ns to milliseconds since 2026; `//` rounds down. -/
def gregToV2ms (greg : ℤ) : ℤ := Int.fdiv (greg - gregEpoch100ns) 10000 - epoch2026Ms

/-- Milliseconds since 2026 to Gregorian 100ns. -/
def v2msToGreg (v2ms : ℤ) : ℤ := (v2ms + epoch2026Ms) * 10000 + gregEpoch100ns

/-! ### Node reconstruction and compaction -/

def splitmix64 (x : ℤ) : ℤ :=
  let x := Int.land (x + 0x9E3779B97F4A7C15) mask64
  let x := Int.land (Int.xor x (x >>> (30 : ℕ)) * 0xBF58476D1CE4E5B9) mask64
  let x := Int.land (Int.xor x (x >>> (27 : ℕ)) * 0x94D049BB133111EB) mask64
  Int.xor x (x >>> (31 : ℕ))

/-- The synthetic node of a compacted id. -/
def reconstructNode (v2ms clock salt : ℤ) : ℤ :=
  let seed := splitmix64
    (Int.land (Int.xor (Int.xor v2ms (clock <<< (44 : ℕ))) (salt <<< (57 : ℕ))) mask64)
  let node := splitmix64 seed
  let node := Int.land node (Int.land nodeMask (Int.lnot saltMask))
  let node := Int.lor node salt
  Int.lor node multicast

/-- The loop of `fnv_1a`. -/
def fnvLoop : ℕ → ℤ → ℤ → Option ℤ
  | 0, _, _ => none
  | n + 1, fnv, num =>
      if num = 0 then some fnv
      else
        fnvLoop n (Int.land (Int.xor fnv (Int.land num 0xFF) * 0x100000001B3) mask64)
          (num >>> (8 : ℕ))

def fnv1a (num : ℤ) : Option ℤ := fnvLoop (num.toNat + 1) 0xCBF29CE484222325 num

/-- The loop of `xor_fold`. -/
def xorFoldLoop (bits : ℕ) : ℕ → ℤ → ℤ → Option ℤ
  | 0, _, _ => none
  | n + 1, folded, num =>
      if num = 0 then some folded
      else xorFoldLoop bits n (Int.xor folded num) (num >>> bits)

def xorFold (num : ℤ) (bits : ℕ) : Option ℤ := xorFoldLoop bits (num.toNat + 1) 0 num

/-- The salt of a node: its low bits when it is synthetic already, a hash of it otherwise. -/
def nodeSalt (node : ℤ) : Option ℤ :=
  if Int.land node multicast ≠ 0 then some (Int.land node saltMask)
  else do
    let fnv ← fnv1a node
    let folded ← xorFold fnv saltBits
    some (Int.land folded saltMask)

/-- Makes the node of an id synthetic, and its time one in whole milliseconds. -/
def crush (time clock node : ℤ) : Option (ℤ × ℤ × ℤ) := do
  let salt ← nodeSalt node
  let v2ms := gregToV2ms time
  some (v2msToGreg v2ms, clock, reconstructNode v2ms clock salt)

/-! ### Framing -/

def vl : VlTable :=
  [ (⟨0x1C, 0xFC⟩, ⟨0x1C, 0xFC⟩),
    (⟨0x18, 0xFC⟩, ⟨0x18, 0xFC⟩),
    (⟨0x14, 0xFC⟩, ⟨0x14, 0xFC⟩),
    (⟨0x10, 0xFC⟩, ⟨0x10, 0xFC⟩),
    (⟨0x04, 0xFC⟩, ⟨0x40, 0xC0⟩),
    (⟨0x0A, 0xFE⟩, ⟨0xA0, 0xE0⟩),
    (⟨0x08, 0xFE⟩, ⟨0x80, 0xE0⟩),
    (⟨0x02, 0xFF⟩, ⟨0x20, 0xF0⟩),
    (⟨0x03, 0xFF⟩, ⟨0x30, 0xF0⟩),
    (⟨0x0C, 0xFF⟩, ⟨0xC0, 0xF0⟩),
    (⟨0x0D, 0xFF⟩, ⟨0xD0, 0xF0⟩),
    (⟨0x0E, 0xFF⟩, ⟨0xE0, 0xF0⟩),
    (⟨0x0F, 0xFF⟩, ⟨0xF0, 0xF0⟩) ]

/-- The byte `(v >> shift) & 0xFF`. -/
def byteOf (v : ℤ) (shift : ℕ) : UInt8 := UInt8.ofNat (Int.land (v >>> shift) 0xFF).toNat

/-- The wire of a number. -/
def putVl (v : ℤ) : Except Failure Bytes :=
  let buf := 0 :: ((List.range 8).map (fun i => byteOf v ((15 - i) * 8)) ++
    (List.range 8).map fun i => byteOf v ((7 - i) * 8))
  guarded (foldWire vl buf)

def getVl (wire : Bytes) : Except Failure ℤ := do
  let lead := wire.headD 0
  let buf ← readBuffer vl wire.length lead wire
  .ok (ofBytes ((buf.drop 1).take 16))

/-! ### The codec -/

/-- The number that `encode` writes. -/
def valueOf (time clock node : ℤ) : ℤ :=
  let salt := Int.land node saltMask
  let v2ms := gregToV2ms time
  if node = reconstructNode v2ms clock salt then
    Int.lor (Int.lor (Int.lor (v2ms <<< (22 : ℕ)) (Int.land clock clockMask <<< (8 : ℕ)))
      (salt <<< (1 : ℕ))) 1
  else
    Int.lor (Int.lor (v2ms <<< (63 : ℕ)) (Int.land clock clockMask <<< (49 : ℕ)))
      (Int.land node nodeMask <<< (1 : ℕ))

def encode (time clock node : ℤ) : Except Failure Bytes := putVl (valueOf time clock node)

/-- The time, clock and node that `decode` makes of the number. -/
def idOf (v : ℤ) : ℤ × ℤ × ℤ :=
  if Int.land v 1 ≠ 0 then
    let salt := Int.land (v >>> (1 : ℕ)) saltMask
    let clock := Int.land (v >>> (8 : ℕ)) clockMask
    let v2ms := v >>> (22 : ℕ)
    (v2msToGreg v2ms, clock, reconstructNode v2ms clock salt)
  else
    let node := Int.land (v >>> (1 : ℕ)) nodeMask
    let clock := Int.land (v >>> (49 : ℕ)) clockMask
    let v2ms := v >>> (63 : ℕ)
    (v2msToGreg v2ms, clock, node)

def decode (wire : Bytes) : Except Failure (ℤ × ℤ × ℤ) := do
  let v ← getVl wire
  .ok (idOf v)

/-! ### Framing a natural number -/

/-- The table is that of the condenser. -/
theorem vl_eq : vl = Cuuid.vl := rfl

theorem byteOf_natCast (P k : ℕ) : byteOf P (k * 8) = UInt8.ofNat (P / 256 ^ k) := by
  have hpow : 2 ^ (k * 8) = 256 ^ k := by
    rw [Nat.mul_comm, pow_mul]
    rfl
  have hlow : Int.land ((P / 256 ^ k : ℕ) : ℤ) 0xFF = ((P / 256 ^ k % 2 ^ 8 : ℕ) : ℤ) :=
    land_mask_natCast _ 8 rfl
  rw [byteOf, shiftRight_natCast, hpow, hlow, Int.toNat_natCast]
  apply UInt8.toNat_inj.1
  rw [UInt8.toNat_ofNat', UInt8.toNat_ofNat', Nat.mod_mod]

/-- **Framing** writes a natural number in the first slot with room for it. -/
theorem putVl_eq {P : ℕ} (hP : P < 2 ^ 123) :
    ∃ s, vlTable.fit P = some s ∧ putVl P = .ok (s.wire P) := by
  obtain ⟨s, hfit, hfold⟩ := foldWire_eq hP
  have hbuf : (0 : UInt8) :: ((List.range 8).map (fun i => byteOf P ((15 - i) * 8)) ++
      (List.range 8).map fun i => byteOf P ((7 - i) * 8)) = toBytes 17 P := by
    have hzero : P / 256 ^ 16 = 0 := by omega
    simp only [byteOf_natCast]
    rw [toBytes_succ 16, hzero]
    rfl
  refine ⟨s, hfit, ?_⟩
  simp only [putVl, hbuf, vl_eq, hfold]
  rfl

/-- The reader accepts what starts with a number written in a slot, and reads the number. -/
theorem getVl_eq (w : Bytes) : getVl w =
    match vlTable.decode w with
    | some (P, _) => .ok (P : ℤ)
    | none => .error (.thrown "v6: bad VL length") := by
  have hbuffer := readBuffer_whole w
  simp only [getVl, vl_eq, bind, Except.bind]
  cases hdec : vlTable.decode w with
  | none =>
      rw [hdec] at hbuffer
      rw [hbuffer]
  | some p =>
      have hP := UUIDCondenser.payload_lt_of_decode hdec
      rw [hdec] at hbuffer
      rw [hbuffer]
      simp only [take_drop_toBytes 1 16 0, ofBytes_toBytes, pow_zero, Nat.div_one]
      rw [Nat.mod_eq_of_lt (by omega)]

/-! ### Decoding -/

/-- The time, clock and node of the content of a wire. -/
def ofContent : Content → ℤ × ℤ × ℤ
  | .compact ms c s => (v2msToGreg ms, c.toNat, reconstructNode ms c.toNat s.toNat)
  | .expanded ms c n => (v2msToGreg ms, c.toNat, n.toNat)

theorem idOf_eq (P : ℕ) : idOf P = ofContent (Content.ofNumber P) := by
  have hflag : Int.land (P : ℤ) 1 = ((P % 2 ^ 1 : ℕ) : ℤ) := land_mask_natCast P 1 rfl
  have hmask : ∀ (k j : ℕ) {mask : ℤ}, mask = ((2 ^ j - 1 : ℕ) : ℤ) →
      Int.land (((P / 2 ^ k : ℕ) : ℤ)) mask = ((BitVec.ofNat j (P / 2 ^ k)).toNat : ℤ) := by
    intro k j mask h
    rw [land_mask_natCast _ j h, BitVec.toNat_ofNat]
  unfold idOf Content.ofNumber
  simp only [shiftRight_natCast, hmask 1 7 (show saltMask = _ from rfl),
    hmask 8 14 (show clockMask = _ from rfl), hmask 1 48 (show nodeMask = _ from rfl),
    hmask 49 14 (show clockMask = _ from rfl), hflag]
  rcases Nat.mod_two_eq_zero_or_one P with hparity | hparity
  · rw [if_neg (by omega), if_neg (by omega)]
    rfl
  · rw [if_pos (by omega), if_pos hparity]
    rfl

/-- **Decoding** reads the content of the number. -/
theorem decode_eq (w : Bytes) : decode w =
    match vlTable.decode w with
    | some (P, _) => .ok (ofContent (Content.ofNumber P))
    | none => .error (.thrown "v6: bad VL length") := by
  rw [decode, getVl_eq]
  cases hdec : vlTable.decode w with
  | none => rfl
  | some p => exact congrArg Except.ok (idOf_eq p.1)

end Cuuid.Prototype.Python
