/-
**The JavaScript port of the second format.**

This module embeds the codec of `cuuid_v2.mjs`, whose `BigInt` is an integer without a width, and says
what it computes in terms of the content of a wire.  Its loops are modelled as those of the Python
port are.  Apart from the division, which rounds towards zero, its arithmetic is the same as there,
and so is what it makes of the number of a wire; the bytes of a number are its own.

Main definitions:

* `Cuuid.Prototype.JavaScript.crush`;
* `Cuuid.Prototype.JavaScript.encode`, `Cuuid.Prototype.JavaScript.decode`.

Main results:

* `Cuuid.Prototype.JavaScript.putVl_eq` — **framing** writes a natural number;
* `Cuuid.Prototype.JavaScript.decode_eq` — **decoding** reads the content of the number.
-/

import Cuuid.Prototype.Python

set_option relaxedAutoImplicit false
set_option autoImplicit false

namespace Cuuid.Prototype.JavaScript

open BigEndian BitField LengthFold Unbounded

/-! ### Time base -/

def mask64 : ℤ := (1 <<< (64 : ℕ)) - 1
def gregEpoch100ns : ℤ := 0x01b21dd213814000
def epoch2026Ms : ℤ := 1767225600000

def clockMask : ℤ := (1 <<< (14 : ℕ)) - 1
def nodeMask : ℤ := (1 <<< (48 : ℕ)) - 1
def saltMask : ℤ := (1 <<< (7 : ℕ)) - 1
def multicast : ℤ := 0x010000000000

/-- Gregorian 100ns to milliseconds since 2026; `/` rounds towards zero. -/
def gregToV2ms (greg : ℤ) : ℤ := Int.tdiv (greg - gregEpoch100ns) 10000 - epoch2026Ms

/-- Milliseconds since 2026 to Gregorian 100ns. -/
def v2msToGreg (v2ms : ℤ) : ℤ := (v2ms + epoch2026Ms) * 10000 + gregEpoch100ns

/-! ### Node reconstruction and compaction -/

def splitmix64 (x : ℤ) : ℤ :=
  let x := Int.land (x + 0x9e3779b97f4a7c15) mask64
  let x := Int.land (Int.xor x (x >>> (30 : ℕ)) * 0xbf58476d1ce4e5b9) mask64
  let x := Int.land (Int.xor x (x >>> (27 : ℕ)) * 0x94d049bb133111eb) mask64
  Int.xor x (x >>> (31 : ℕ))

/-- The synthetic node of a compacted id. -/
def reconstructNode (v2ms clock salt : ℤ) : ℤ :=
  let seed := splitmix64
    (Int.land (Int.xor (Int.xor v2ms (clock <<< (44 : ℕ))) (salt <<< (57 : ℕ))) mask64)
  let node := splitmix64 seed
  let node := Int.land node (Int.land nodeMask (Int.lnot saltMask))
  let node := Int.lor node salt
  Int.lor node multicast

/-- The loop of `fnv1a`. -/
def fnvLoop : ℕ → ℤ → ℤ → Option ℤ
  | 0, _, _ => none
  | n + 1, fnv, num =>
      if num = 0 then some fnv
      else
        fnvLoop n (Int.land (Int.xor fnv (Int.land num 0xff) * 0x100000001b3) mask64)
          (num >>> (8 : ℕ))

def fnv1a (num : ℤ) : Option ℤ := fnvLoop (num.toNat + 1) 0xcbf29ce484222325 num

/-- The loop of `xorFold`. -/
def xorFoldLoop (bits : ℕ) : ℕ → ℤ → ℤ → Option ℤ
  | 0, _, _ => none
  | n + 1, folded, num =>
      if num = 0 then some folded
      else xorFoldLoop bits n (Int.xor folded num) (num >>> bits)

def xorFold (num : ℤ) (bits : ℕ) : Option ℤ := xorFoldLoop bits (num.toNat + 1) 0 num

/-- The salt of a node: its low bits when it is synthetic already, a hash of it otherwise. -/
def nodeSalt (node : ℤ) : Option ℤ :=
  if Int.land node multicast ≠ 0 then some (Int.land node saltMask)
  else do
    let fnv ← fnv1a node
    let folded ← xorFold fnv 7
    some (Int.land folded saltMask)

/-- Makes the node of an id synthetic, and its time one in whole milliseconds. -/
def crush (time clock node : ℤ) : Option (ℤ × ℤ × ℤ) := do
  let salt ← nodeSalt node
  let v2ms := gregToV2ms time
  some (v2msToGreg v2ms, clock, reconstructNode v2ms clock salt)

/-! ### Framing -/

/-- The loop of `big16be`: stores the low byte in front of what is stored, then shifts it out. -/
def bigBeLoop : ℕ → ℤ → Bytes → Bytes
  | 0, _, b => b
  | i + 1, v, b => bigBeLoop i (v >>> (8 : ℕ)) (UInt8.ofNat (Int.land v 0xff).toNat :: b)

def big16be (v : ℤ) : Bytes := bigBeLoop 16 v []

def vl : VlTable :=
  [ (⟨0x1c, 0xfc⟩, ⟨0x1c, 0xfc⟩), (⟨0x18, 0xfc⟩, ⟨0x18, 0xfc⟩), (⟨0x14, 0xfc⟩, ⟨0x14, 0xfc⟩),
    (⟨0x10, 0xfc⟩, ⟨0x10, 0xfc⟩), (⟨0x04, 0xfc⟩, ⟨0x40, 0xc0⟩), (⟨0x0a, 0xfe⟩, ⟨0xa0, 0xe0⟩),
    (⟨0x08, 0xfe⟩, ⟨0x80, 0xe0⟩), (⟨0x02, 0xff⟩, ⟨0x20, 0xf0⟩), (⟨0x03, 0xff⟩, ⟨0x30, 0xf0⟩),
    (⟨0x0c, 0xff⟩, ⟨0xc0, 0xf0⟩), (⟨0x0d, 0xff⟩, ⟨0xd0, 0xf0⟩), (⟨0x0e, 0xff⟩, ⟨0xe0, 0xf0⟩),
    (⟨0x0f, 0xff⟩, ⟨0xf0, 0xf0⟩) ]

/-- The wire of a number. -/
def putVl (v : ℤ) : Except Failure Bytes :=
  let buf := 0 :: big16be v
  guarded (foldWire vl buf)

/-- Shifts the next byte into the number that `getVl` reads. -/
def shiftIn (v : ℤ) (b : UInt8) : ℤ := Int.lor (v <<< (8 : ℕ)) b.toNat

def getVl (wire : Bytes) : Except Failure ℤ := do
  let lead := if wire.length ≠ 0 then wire.headD 0 else 0
  let buf ← readBuffer vl wire.length lead wire
  .ok (((buf.drop 1).take 16).foldl shiftIn 0)

/-! ### The codec -/

/-- The number that `encode` writes. -/
def valueOf (time clock node : ℤ) : ℤ :=
  let salt := Int.land node saltMask
  let v2ms := gregToV2ms time
  if node = reconstructNode v2ms clock salt then
    Int.lor (Int.lor (Int.lor (v2ms <<< (22 : ℕ)) (Int.land clock clockMask <<< (8 : ℕ)))
      (salt <<< (1 : ℕ))) 1
  else
    Int.lor (Int.lor (v2ms <<< (63 : ℕ)) (Int.land clock clockMask <<< (49 : ℕ)))
      (Int.land node nodeMask <<< (1 : ℕ))

def encode (time clock node : ℤ) : Except Failure Bytes := putVl (valueOf time clock node)

/-- The time, clock and node that `decode` makes of the number. -/
def idOf (v : ℤ) : ℤ × ℤ × ℤ :=
  if Int.land v 1 ≠ 0 then
    let salt := Int.land (v >>> (1 : ℕ)) saltMask
    let clock := Int.land (v >>> (8 : ℕ)) clockMask
    let v2ms := v >>> (22 : ℕ)
    (v2msToGreg v2ms, clock, reconstructNode v2ms clock salt)
  else
    let node := Int.land (v >>> (1 : ℕ)) nodeMask
    let clock := Int.land (v >>> (49 : ℕ)) clockMask
    let v2ms := v >>> (63 : ℕ)
    (v2msToGreg v2ms, clock, node)

def decode (wire : Bytes) : Except Failure (ℤ × ℤ × ℤ) := do
  let v ← getVl wire
  .ok (idOf v)

/-! ### What is the same as in the Python port -/

/-- The table is that of the condenser. -/
theorem vl_eq : vl = Cuuid.vl := rfl

theorem fnvLoop_eq (n : ℕ) (fnv num : ℤ) : fnvLoop n fnv num = Python.fnvLoop n fnv num := by
  induction n generalizing fnv num with
  | zero => rfl
  | succ n ih => rw [fnvLoop, Python.fnvLoop, ih]; rfl

theorem xorFoldLoop_eq (bits n : ℕ) (folded num : ℤ) :
    xorFoldLoop bits n folded num = Python.xorFoldLoop bits n folded num := by
  induction n generalizing folded num with
  | zero => rfl
  | succ n ih => rw [xorFoldLoop, Python.xorFoldLoop, ih]

theorem nodeSalt_eq : nodeSalt = Python.nodeSalt := by
  have hfnv : fnv1a = Python.fnv1a := funext fun num => fnvLoop_eq _ _ num
  have hfold : xorFold = Python.xorFold := funext fun num => funext fun bits =>
    xorFoldLoop_eq bits _ _ num
  unfold nodeSalt Python.nodeSalt
  rw [hfnv, hfold]
  rfl

theorem idOf_eq : idOf = Python.idOf := rfl

/-- The divisions agree on times after the Gregorian epoch. -/
theorem gregToV2ms_eq {greg : ℤ} (h : Python.gregEpoch100ns ≤ greg) :
    gregToV2ms greg = Python.gregToV2ms greg := by
  have hnonneg : 0 ≤ greg - Python.gregEpoch100ns := by omega
  have hdiv : Int.tdiv (greg - Python.gregEpoch100ns) 10000 =
      Int.fdiv (greg - Python.gregEpoch100ns) 10000 := by
    rw [Int.tdiv_eq_ediv_of_nonneg hnonneg, Int.fdiv_eq_ediv_of_nonneg _ (by decide)]
  exact congrArg (· - epoch2026Ms) hdiv

/-- What is encoded depends on the division only. -/
theorem valueOf_eq {time : ℤ} (h : Python.gregEpoch100ns ≤ time) (clock node : ℤ) :
    valueOf time clock node = Python.valueOf time clock node := by
  unfold valueOf Python.valueOf
  rw [gregToV2ms_eq h]
  rfl

theorem crush_eq {time : ℤ} (h : Python.gregEpoch100ns ≤ time) (clock node : ℤ) :
    crush time clock node = Python.crush time clock node := by
  unfold crush Python.crush
  rw [gregToV2ms_eq h, nodeSalt_eq]
  rfl

/-! ### Framing a natural number -/

theorem bigBeLoop_natCast (k P : ℕ) (b : Bytes) : bigBeLoop k P b = toBytes k P ++ b := by
  induction k generalizing P b with
  | zero => rfl
  | succ k ih =>
      have hlow : Int.land (P : ℤ) 0xff = ((P % 2 ^ 8 : ℕ) : ℤ) := land_mask_natCast P 8 rfl
      have hbyte : UInt8.ofNat (P % 2 ^ 8) = UInt8.ofNat (P / 256 ^ 0) := by
        apply UInt8.toNat_inj.1
        rw [UInt8.toNat_ofNat', UInt8.toNat_ofNat', Nat.mod_mod, pow_zero, Nat.div_one]
      rw [bigBeLoop, shiftRight_natCast, ih, hlow, Int.toNat_natCast, hbyte, toBytes_add k 1,
        List.append_assoc]
      rfl

/-- **Framing** writes a natural number in the first slot with room for it. -/
theorem putVl_eq {P : ℕ} (hP : P < 2 ^ 123) :
    ∃ s, vlTable.fit P = some s ∧ putVl P = .ok (s.wire P) := by
  obtain ⟨s, hfit, hfold⟩ := foldWire_eq hP
  have hbuf : (0 : UInt8) :: big16be P = toBytes 17 P := by
    have hzero : P / 256 ^ 16 = 0 := by omega
    rw [big16be, bigBeLoop_natCast, List.append_nil, toBytes_succ 16, hzero]
    rfl
  refine ⟨s, hfit, ?_⟩
  simp only [putVl, hbuf, vl_eq, hfold]
  rfl

/-- Shifting in a list of bytes appends them. -/
theorem foldl_shiftIn (l : Bytes) (v : ℕ) :
    l.foldl shiftIn v = ((v * 256 ^ l.length + ofBytes l : ℕ) : ℤ) := by
  induction l generalizing v with
  | nil => simp
  | cons b l ih =>
      have hb := b.toNat_lt
      have hstep : shiftIn v b = ((v * 2 ^ 8 + b.toNat : ℕ) : ℤ) := by
        rw [shiftIn, shiftLeft_natCast, lor_natCast, or_eq_add _ _ 8 (by omega) (by omega)]
      rw [List.foldl_cons, hstep, ih, ofBytes_cons, List.length_cons, pow_succ]
      congr 1
      ring

/-- The reader accepts what starts with a number written in a slot, and reads the number. -/
theorem getVl_eq (w : Bytes) : getVl w =
    match vlTable.decode w with
    | some (P, _) => .ok (P : ℤ)
    | none => .error (.thrown "v6: bad VL length") := by
  have hlead : (if w.length ≠ 0 then w.headD 0 else 0) = w.headD 0 := by
    cases w <;> rfl
  have hbuffer := readBuffer_whole w
  simp only [getVl, hlead, vl_eq, bind, Except.bind]
  cases hdec : vlTable.decode w with
  | none =>
      rw [hdec] at hbuffer
      rw [hbuffer]
  | some p =>
      have hP := UUIDCondenser.payload_lt_of_decode hdec
      have hnumber := foldl_shiftIn (toBytes 16 p.1) 0
      rw [Nat.zero_mul, Nat.zero_add, ofBytes_toBytes, Nat.mod_eq_of_lt (by omega)] at hnumber
      rw [hdec] at hbuffer
      rw [hbuffer]
      simp only [take_drop_toBytes 1 16 0, pow_zero, Nat.div_one]
      exact congrArg Except.ok hnumber

/-- **Decoding** reads the content of the number, as the Python port does. -/
theorem decode_eq (w : Bytes) : decode w =
    match vlTable.decode w with
    | some (P, _) => .ok (Python.ofContent (Content.ofNumber P))
    | none => .error (.thrown "v6: bad VL length") := by
  rw [decode, getVl_eq, idOf_eq]
  cases hdec : vlTable.decode w with
  | none => rfl
  | some p => exact congrArg Except.ok (Python.idOf_eq p.1)

end Cuuid.Prototype.JavaScript
