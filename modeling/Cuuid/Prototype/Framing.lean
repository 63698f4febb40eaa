/-
**What the three prototypes frame alike.**

The second format of the condensed wire exists as a prototype in C++, with a port to Python and one to
JavaScript.  Each of the three carries a copy of the table `VL` and of the two routines of the
condenser that fold a length into the first byte of a number and read it back.  From the buffer of
seventeen bytes on, the copies differ in nothing but notation, so they are modelled once here, over
the table; how the buffer is filled from a number, and what number is read off it, is each program's
own.

In the ports, as in C++, `skipZeros` has moved the index past the first byte before a zero in front of
it is borrowed, so no index is ever negative.  A read beyond the buffer or the table is undefined in
C++, an `IndexError` in Python and a `TypeError` in JavaScript; all three are the fault
`Fault.outOfRange`.

Main definitions:

* `Cuuid.Prototype.Failure` — what a prototype ends in instead of a value;
* `Cuuid.Prototype.foldWire` — the wire of a buffer;
* `Cuuid.Prototype.readBuffer` — the buffer of a wire.

Main results:

* `Cuuid.Prototype.foldWire_eq` — **the writer** writes a number in the first slot with room for it;
* `Cuuid.Prototype.readBuffer_eq` — **the reader** fills the buffer with the number that it decodes.
-/

import Cuuid.Wire

set_option relaxedAutoImplicit false
set_option autoImplicit false

namespace Cuuid.Prototype

open BigEndian LengthFold

/-- What a prototype ends in instead of a value. -/
inductive Failure
  /-- An access out of range. -/
  | fault (f : Fault)
  /-- An exception with a message. -/
  | thrown (message : String)
deriving DecidableEq, Repr

/-- Whether a call throws. -/
def Rejects {α : Type} (r : Except Failure α) : Prop := ∃ message, r = .error (.thrown message)

/-- An access that may be out of range. -/
def guarded {α : Type} (r : Except Fault α) : Except Failure α := r.mapError .fault

/-- A table of the form of `VL`. -/
abbrev VlTable := List (VlEntry × VlEntry)

/-- The partial read `table[i][q]`. -/
def tableAt (table : VlTable) (i : ℕ) (q : Bool) : Except Fault VlEntry :=
  match table[i]? with
  | some row => .ok (vlCell row q)
  | none => .error .outOfRange

/-! ### Writing -/

/-- Folds the length into the byte at `ptr`, or, when neither column of the row has room, into a zero
byte borrowed in front of it. -/
def foldLength (table : VlTable) (buf : Bytes) (ptr length : ℕ) : Except Fault Bytes := do
  let b ← readAt buf ptr
  let e0 ← tableAt table length false
  if b &&& e0.mask != 0 then
    let e1 ← tableAt table length true
    if b &&& e1.mask != 0 then
      if ptr = 0 then
        .error .outOfRange
      else
        let z ← readAt buf (ptr - 1)
        let e ← tableAt table (length + 1) false
        let buf ← writeAt buf (ptr - 1) (z ||| e.pfx)
        readRange buf (ptr - 1) (length + 1 + 4)
    else
      let buf ← writeAt buf ptr (b ||| e1.pfx)
      readRange buf ptr (length + 4)
  else
    let buf ← writeAt buf ptr (b ||| e0.pfx)
    readRange buf ptr (length + 4)

/-- The wire of a buffer: skips the zeros in front of the last four bytes, and folds the length of
what remains into it.  The buffer has 17 bytes, so its `end` is 13. -/
def foldWire (table : VlTable) (buf : Bytes) : Except Fault Bytes := do
  let ptr ← UUIDCondenser.skipZeros buf 13 0
  foldLength table buf ptr (13 - ptr)

/-- Over the table of the condenser, the length is folded as the condenser folds it. -/
theorem foldLength_vl : foldLength vl = UUIDCondenser.foldLength := rfl

/-- **The writer** writes a number in the first slot with room for it. -/
theorem foldWire_eq {P : ℕ} (hP : P < 2 ^ 123) :
    ∃ s, vlTable.fit P = some s ∧ foldWire vl (toBytes 17 P) = .ok (s.wire P) := by
  obtain ⟨s, ptr, hfit, hskip, hfold⟩ := skip_and_fold hP
  refine ⟨s, hfit, ?_⟩
  rw [foldWire, foldLength_vl, hskip]
  exact hfold

/-! ### Reading -/

/-- The row loop of the reader: the first row whose column `q` matches the first byte, or `13` when
the loop runs to its end. -/
def lengthRow (table : VlTable) (l : UInt8) (q : Bool) : ℕ :=
  (table.findIdx? fun row => (vlCell row q).pfx == l &&& (vlCell row q).mask).getD 13

/-- The buffer of a wire: copies `i + 4` bytes to the end of 17 zeros, and clears the length bits of
row `i` in the first of them. -/
def unfoldWire (table : VlTable) (wire : Bytes) (i : ℕ) (q : Bool) : Except Fault Bytes := do
  let length := i + 4
  let src ← readRange wire 0 length
  let start := 17 - length
  let buf := List.replicate start 0 ++ src
  let e ← tableAt table i q
  let b ← readAt buf start
  writeAt buf start (b &&& ~~~e.mask)

/-- The part of a reader in front of the number: finds the length in the first byte `l`, compares it
with the size, and fills the buffer. -/
def readBuffer (table : VlTable) (size : ℤ) (l : UInt8) (wire : Bytes) : Except Failure Bytes :=
  let q := l &&& 0xf0 != 0
  let i := lengthRow table l q
  let length := i + 4
  if i = 13 ∨ size < length then .error (.thrown "v6: bad VL length")
  else guarded (unfoldWire table wire i q)

/-- A byte that no slot has is refused. -/
theorem readBuffer_of_slotOf_eq_none {l : UInt8} (h : vlTable.slotOf l = none) (size : ℤ)
    (wire : Bytes) : readBuffer vl size l wire = .error (.thrown "v6: bad VL length") := by
  exact if_pos (Or.inl (vlRow_of_slotOf_eq_none h))

/-- Filling the buffer for the row that the first byte names. -/
theorem unfoldWire_eq (b : UInt8) {l : Bytes} {i : ℕ} (q : Bool) (hi : i < 13)
    (hlen : i + 3 ≤ l.length) : unfoldWire vl (b :: l) i q =
      .ok (toBytes 17 ((b &&& ~~~(cellAt i q).mask).toNat * 256 ^ (i + 3) +
        ofBytes (l.take (i + 3)))) := by
  obtain ⟨hsrc, hread, hwrite⟩ := UUIDCondenser.copy_and_mask b hi hlen
  have hcell : tableAt vl i q = .ok (cellAt i q) := vlAt_eq hi q
  simp only [unfoldWire, hsrc, hcell, hread, hwrite, bind, Except.bind]

/-- **The reader** fills the buffer with the number that it decodes, provided that the size it was
given has room for the bytes of the number. -/
theorem readBuffer_eq {b : UInt8} {l : Bytes} {size : ℤ} (hsize : size ≤ (b :: l).length) :
    readBuffer vl size b (b :: l) =
      match vlTable.decode (b :: l) with
      | some (P, r) =>
          if ((b :: l).length : ℤ) - r.length ≤ size then .ok (toBytes 17 P)
          else .error (.thrown "v6: bad VL length")
      | none => .error (.thrown "v6: bad VL length") := by
  cases hslot : vlTable.slotOf b with
  | none =>
      rw [readBuffer_of_slotOf_eq_none hslot]
      simp only [Table.decode, hslot]
  | some s =>
      obtain ⟨hi, hextra, hmask⟩ := vlRow_of_slotOf hslot
      have hrow : lengthRow vl b (b &&& 0xf0 != 0) = vlRow b (b &&& 0xf0 != 0) := rfl
      simp only [readBuffer, hrow, Table.decode, hslot, hextra]
      generalize vlRow b (b &&& 0xf0 != 0) = i at hi hextra hmask
      rw [List.length_cons] at hsize ⊢
      rcases Nat.lt_or_ge l.length (i + 3) with hshort | hlen
      · rw [if_pos (Or.inr (by omega)), if_neg (by omega)]
      · rw [if_pos hlen]
        simp only [List.length_drop]
        rcases lt_or_ge size (i + 4) with hsmall | hlarge
        · rw [if_pos (Or.inr (by omega)), if_neg (by omega)]
        · rw [if_neg (by omega), if_pos (by omega), unfoldWire_eq b _ hi hlen, hmask]
          rfl

/-- Given the size of the wire itself, there is room for what is decoded. -/
theorem readBuffer_whole (wire : Bytes) : readBuffer vl wire.length (wire.headD 0) wire =
    match vlTable.decode wire with
    | some (P, _) => .ok (toBytes 17 P)
    | none => .error (.thrown "v6: bad VL length") := by
  cases wire with
  | nil => rfl
  | cons b l =>
      have hbuffer := readBuffer_eq (b := b) (l := l) le_rfl
      cases hdec : vlTable.decode (b :: l) with
      | none =>
          rw [hdec] at hbuffer
          exact hbuffer
      | some p =>
          rw [hdec] at hbuffer
          exact hbuffer.trans (if_pos (by omega))

end Cuuid.Prototype
