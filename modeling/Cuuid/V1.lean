/-
**The v1 codec.**

This module embeds the codec of `cuuid_v1.cc`: compaction, the full and the condensed wire of a
`UUID`, and the validator of packed lists.  The value of the host's `local_node_hash()` is an
argument.  The loop over a packed list runs the element function until the input is used up, with
`none` for a loop that did not end within its fuel.

Main definitions:

* `Cuuid.UUID.compactCrush`, `Cuuid.UUID.serialise`, `Cuuid.UUID.unserialise`;
* `Cuuid.UUID.isSerialisedElement`, `Cuuid.UUID.isSerialised` — the validator.

Main results:

* `Cuuid.UUID.serialise_eq`, `Cuuid.UUID.unserialise_wire`, `Cuuid.UUID.compactCrush_eq` — the
  codec in terms of layouts.
-/

import Cuuid.Lib.Framing
import Cuuid.Expander
import Cuuid.Uuid
import Cuuid.Condense

set_option relaxedAutoImplicit false
set_option autoImplicit false

namespace Cuuid

namespace UUID

/-! ### Encoding -/

def compactCrush (localNodeHash : Option UInt64) (u : UUID) : UUID :=
  if u.isRfc 1 then
    let f := crushFields localNodeHash expandMtCompute u.fields
    ((u.setUuid1Node f.node).setUuid1ClockSeq f.clock).setUuid1Time f.time
  else u

def serialiseFull (u : UUID) : Bytes := 0x01 :: u.bytes.toList

def serialiseCondensed (u : UUID) : Except Fault Bytes := condense expandMtCompute u.fields

def serialise (u : UUID) : Except Fault Bytes :=
  if u.isRfc 1 then u.serialiseCondensed else .ok u.serialiseFull

/-! ### Decoding -/

def unserialiseFull : Reader UUID := do
  let ptr ← get
  if ptr.length < 17 then
    throw (.serialisationError "Bad encoded UUID")
  else
    let src ← Reader.access (readRange ptr 1 16)
    let out ← Reader.access (copyFrom src)
    set (ptr.drop 17)
    return out

def unserialiseCondensed : Reader UUID := do
  let f ← uncondense expandMtCompute
  return ofCondensed f

def unserialise : Reader UUID := do
  let ptr ← get
  if ptr.length < 2 then
    throw (.serialisationError "Bad encoded UUID")
  else
    let b ← Reader.access (readAt ptr 0)
    if b = 1 then unserialiseFull else unserialiseCondensed

/-- The overload for a packed list. -/
def unserialiseList (fuel : ℕ) (b : Bytes) : Option (Framing.Outcome UInt8 Fault UUID) :=
  Framing.drain unserialise fuel b

/-! ### Validation -/

/-- `_is_serialised`: whether one element is complete; moves `*ptr` past it if so. -/
def isSerialisedElement : Reader Bool := do
  let ptr ← get
  let size := ptr.length
  if size < 2 then
    return false
  else
    let l ← Reader.access (readAt ptr 0)
    let length :=
      if l = 1 then 17
      else
        let q := (l &&& 0xf0) != 0
        let i := vlRow l q
        if i < 13 then i + 4 else size + 1
    if size < length then
      return false
    else
      set (ptr.drop length)
      return true

/-- One turn of the loop of `is_serialised`, which stops at the first `false`. -/
def isSerialisedTurn : EStateM (Option Fault) Bytes Unit := fun ptr =>
  match isSerialisedElement ptr with
  | .ok true rest => .ok () rest
  | .ok false rest => .error none rest
  | .error e rest => .error (some e) rest

/-- `is_serialised`: the elements up to the first that is not complete.  The answer is `true` when
none stopped the loop. -/
def isSerialised (fuel : ℕ) (b : Bytes) : Option (Framing.Outcome UInt8 (Option Fault) Unit) :=
  Framing.drain isSerialisedTurn fuel b

end UUID

/-! ### The codec, in terms of layouts -/

namespace UUID

open BitField

/-- The view of an assembled UUID. -/
theorem view_ofCondensed {f : Fields} (hf : f.InRange) : (ofCondensed f).view =
    ⟨BitVec.ofNat 60 f.time.toNat, BitVec.ofNat 14 f.clock.toNat, BitVec.ofNat 48 f.node.toNat,
      2, 1⟩ := by
  obtain ⟨htime, hclock, hnode⟩ := hf
  simp only [view, View.mk.injEq, ← BitVec.toNat_inj, BitVec.toNat_ofNat, toNat_uuid1Time,
    toNat_uuid1ClockSeq, toNat_uuid1Node, toNat_uuidVariant, toNat_uuidVersion]
  simp [ofCondensed, store64, store32, store16, and_ff, and_fff, and_ffff, and_ffffffff,
    Nat.shiftRight_eq_div_pow]
  rw [Nat.or_comm _ 4096, or_eq_add 4096 _ 12 (by decide) (by omega), Nat.or_comm _ 128,
    or_eq_add 128 _ 6 (by decide) (by omega)]
  omega

/-- **An assembled UUID** has version 1 and the RFC-4122 variant. -/
theorem isRfc_ofCondensed {f : Fields} (hf : f.InRange) : (ofCondensed f).isRfc 1 = true := by
  rw [isRfc_iff, uuidVariant_eq, uuidVersion_eq, view_ofCondensed hf]
  exact ⟨rfl, rfl⟩

/-- The fields of an assembled UUID. -/
theorem fields_ofCondensed {f : Fields} (hf : f.InRange) : (ofCondensed f).fields = f := by
  have hview := view_ofCondensed hf
  obtain ⟨htime, hclock, hnode⟩ := hf
  simp only [fields, uuid1Time_eq, uuid1ClockSeq_eq, uuid1Node_eq, hview, BitVec.toNat_ofNat,
    Nat.mod_eq_of_lt htime, Nat.mod_eq_of_lt hclock, Nat.mod_eq_of_lt hnode, UInt64.ofNat_toNat,
    UInt16.ofNat_toNat]

/-- The layout that `serialise_condensed` writes. -/
def layout (u : UUID) : Layout := layoutOf expandMtCompute u.fields

/-- **`serialise` writes the wire of the layout** of a version-1 UUID, without a fault. -/
theorem serialise_eq {u : UUID} (hu : u.isRfc 1 = true) : u.serialise = .ok u.layout.wire := by
  rw [serialise, if_pos hu, serialiseCondensed, condense_eq, layout]

/-- The UUID that a layout is decoded to. -/
def ofLayout (L : Layout) : UUID := ofCondensed (L.fields expandMtCompute)

theorem isRfc_ofLayout (L : Layout) : (ofLayout L).isRfc 1 = true :=
  isRfc_ofCondensed (L.fields_inRange expandMtCompute)

theorem fields_ofLayout (L : Layout) : (ofLayout L).fields = L.fields expandMtCompute :=
  fields_ofCondensed (L.fields_inRange expandMtCompute)

/-- Compaction builds the UUID of a compact layout. -/
theorem compactCrush_eq (localNodeHash : Option UInt64) {u : UUID} (hu : u.isRfc 1 = true) :
    u.compactCrush localNodeHash = ofLayout (crushLayout u.uuid1Time.toNat u.uuid1ClockSeq.toNat
      (crushSalt localNodeHash u.uuid1Node).toNat) := by
  have hcrush := crushFields_eq localNodeHash expandMtCompute u.fields
  have hrange := Layout.fields_inRange expandMtCompute (crushLayout u.uuid1Time.toNat
    u.uuid1ClockSeq.toNat (crushSalt localNodeHash u.uuid1Node).toNat)
  rw [compactCrush, if_pos hu]
  dsimp only
  rw [hcrush]
  refine ext_fields (by rw [isRfc_setFields]; exact hu) (isRfc_ofLayout _) ?_
  rw [fields_ofLayout]
  exact fields_setFields u hrange

/-- **The wire of a compacted UUID** is that of the layout it was compacted to. -/
theorem serialise_compactCrush (localNodeHash : Option UInt64) {u : UUID}
    (hu : u.isRfc 1 = true) : (u.compactCrush localNodeHash).serialise =
      .ok (crushLayout u.uuid1Time.toNat u.uuid1ClockSeq.toNat
        (crushSalt localNodeHash u.uuid1Node).toNat).wire := by
  rw [compactCrush_eq localNodeHash hu, serialise_eq (isRfc_ofLayout _), layout, fields_ofLayout,
    layoutOf_fields_crush]

/-! ### Reading -/

theorem unserialise_singleton (b : UInt8) :
    unserialise [b] = .error (.serialisationError "Bad encoded UUID") [b] := rfl

/-- From two bytes on, the first byte tells the two wires apart. -/
theorem unserialise_cons_cons (b c : UInt8) (l : Bytes) : unserialise (b :: c :: l) =
    if b = 1 then unserialiseFull (b :: c :: l) else unserialiseCondensed (b :: c :: l) := by
  have hlen : ¬ (b :: c :: l).length < 2 := by simp
  unfold unserialise
  dsimp only [bind, EStateM.bind, MonadState.get, getThe, MonadStateOf.get, EStateM.get]
  rw [if_neg hlen]
  dsimp only [bind, EStateM.bind, Reader.access, readAt, List.getElem?_cons_zero, pure,
    EStateM.pure]
  split_ifs <;> rfl

/-- An input that starts with a condensed wire goes to the condensed decoder. -/
theorem unserialise_of_decode {bs r : Bytes} {P : ℕ} (h : vlTable.decode bs = some (P, r)) :
    unserialise bs = unserialiseCondensed bs := by
  obtain ⟨b, l, rfl, -, hone, hlen⟩ := UUIDCondenser.head_of_decode h
  cases l with
  | nil => simp at hlen
  | cons c l => rw [unserialise_cons_cons, if_neg hone]

/-- **Reading a wire** gives the UUID of its layout, whatever follows. -/
theorem unserialise_wire (L : Layout) (r : Bytes) :
    unserialise (L.wire ++ r) = .ok (ofLayout L) r := by
  rw [unserialise_of_decode (L.decode_wire r)]
  simp only [unserialiseCondensed, bind, EStateM.bind, uncondense_wire]
  rfl

end UUID

end Cuuid
