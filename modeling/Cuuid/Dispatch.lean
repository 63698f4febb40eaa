/-
**The umbrella entry points.**

This module embeds `cuuid.hh`.  A UUID is encoded by the codec that its version nibble names; a
wire carries no version marker, so the running codec decodes it.

Main definitions:

* `Cuuid.Codec` — the running codec;
* `Cuuid.serialise`, `Cuuid.unserialise` — one element;
* `Cuuid.unserialiseView`, `Cuuid.unserialiseList` — the overloads for a whole string and for a
  packed list;
* `Cuuid.Codec.fields`, `Cuuid.Codec.ofLayout` — the fields of a UUID as a codec reads them, and the
  UUID that a codec decodes a layout to.

Main results:

* `Cuuid.serialise_of_isRfc`, `Cuuid.unserialise_wire` — the two entry points in terms of layouts,
  for either codec.
-/

import Cuuid.V1
import Cuuid.V6

set_option relaxedAutoImplicit false
set_option autoImplicit false

namespace Cuuid

/-- The running codec. -/
inductive Codec
  | v1
  | v6
deriving DecidableEq, Repr

/-- Encodes a version-6 UUID with the v6 codec and everything else with the v1 one. -/
def serialise (u : UUID) : Except Fault Bytes :=
  if u.isRfc 6 then V6.serialise u else u.serialise

/-- Decodes one element.  Only a condensed wire under `Codec.v6` goes to the v6 decoder. -/
def unserialise (codec : Codec) : Reader UUID := do
  let ptr ← get
  if codec = .v6 ∧ ptr.length ≠ 0 then
    let b ← Reader.access (readAt ptr 0)
    if b ≠ 0x01 then V6.unserialise else UUID.unserialise
  else UUID.unserialise

/-- The overload for a whole string, which drops the bytes that remain. -/
def unserialiseView (codec : Codec) (b : Bytes) : Except Fault UUID :=
  match unserialise codec b with
  | .ok u _ => .ok u
  | .error e _ => .error e

/-- The overload for a packed list. -/
def unserialiseList (codec : Codec) (fuel : ℕ) (b : Bytes) :
    Option (Framing.Outcome UInt8 Fault UUID) :=
  Framing.drain (unserialise codec) fuel b

/-! ### What a codec contributes

Everything below this point only knows a codec by its version, its expander and its canonical
bytes. -/

namespace Codec

/-- The version that the codec's UUIDs carry. -/
def version : Codec → UInt8
  | v1 => 1
  | v6 => 6

/-- The codec's node expander. -/
def expand : Codec → NodeExpander
  | v1 => expandMtCompute
  | v6 => expandSplitmix

/-- The fields of a UUID, as the codec's canonical bytes hold them. -/
def fields : Codec → UUID → Fields
  | v1, u => u.fields
  | v6, u => fromV6Bytes u.bytes

/-- The UUID that the codec decodes a layout to. -/
def ofLayout : Codec → Layout → UUID
  | v1, L => UUID.ofLayout L
  | v6, L => V6.ofLayout L

theorem isRfc_ofLayout (codec : Codec) (L : Layout) :
    (codec.ofLayout L).isRfc codec.version = true := by
  cases codec with
  | v1 => exact UUID.isRfc_ofLayout L
  | v6 => exact V6.isRfc_fromFields _

theorem fields_ofLayout (codec : Codec) (L : Layout) :
    codec.fields (codec.ofLayout L) = L.fields codec.expand := by
  cases codec with
  | v1 => exact UUID.fields_ofLayout L
  | v6 => exact V6.fields_ofLayout L

theorem fields_inRange (codec : Codec) (u : UUID) : (codec.fields u).InRange := by
  cases codec with
  | v1 => exact u.fields_inRange
  | v6 => exact fromV6Bytes_inRange u.bytes

/-- A UUID of the codec's version is determined by its fields. -/
theorem ext_fields (codec : Codec) {u v : UUID} (hu : u.isRfc codec.version = true)
    (hv : v.isRfc codec.version = true) (h : codec.fields u = codec.fields v) : u = v := by
  cases codec with
  | v1 => exact UUID.ext_fields hu hv h
  | v6 =>
      have hbytes : u.bytes = v.bytes := by
        rw [← toV6Bytes_fromV6Bytes hu, ← toV6Bytes_fromV6Bytes hv]
        exact congrArg toV6Bytes h
      cases u
      cases v
      exact congrArg UUID.mk hbytes

/-- The layout of a UUID. -/
def layout (codec : Codec) (u : UUID) : Layout := layoutOf codec.expand (codec.fields u)

/-- The layout of what a compaction has built. -/
theorem layout_ofLayout_crushLayout (codec : Codec) (time clock salt : ℕ) :
    codec.layout (codec.ofLayout (crushLayout time clock salt)) = crushLayout time clock salt := by
  rw [layout, fields_ofLayout, layoutOf_fields_crush]

end Codec

/-- **A UUID of a codec's version is encoded as the wire of its layout.** -/
theorem serialise_of_isRfc {codec : Codec} {u : UUID} (hu : u.isRfc codec.version = true) :
    serialise u = .ok (codec.layout u).wire := by
  cases codec with
  | v1 =>
      have hu6 : u.isRfc 6 = false := by
        have hversion := ((UUID.isRfc_iff u 1).1 hu).2
        simp [UUID.isRfc, hversion]
      rw [serialise, hu6, if_neg (by decide)]
      exact UUID.serialise_eq hu
  | v6 =>
      have hu6 : u.isRfc 6 = true := hu
      rw [serialise, if_pos hu6]
      exact V6.serialise_eq u

/-- A UUID of neither codec is encoded in full. -/
theorem serialise_of_not_isRfc {u : UUID} (h : ∀ codec : Codec, u.isRfc codec.version = false) :
    serialise u = .ok u.serialiseFull := by
  have h6 : u.isRfc 6 = false := h .v6
  have h1 : u.isRfc 1 = false := h .v1
  rw [serialise, h6, if_neg (by decide), UUID.serialise, h1, if_neg (by decide)]

theorem unserialise_v1 (bs : Bytes) : unserialise .v1 bs = UUID.unserialise bs := rfl

/-- Under the v6 codec only the first byte of a full wire goes to the v1 decoder. -/
theorem unserialise_v6_cons (b : UInt8) (l : Bytes) : unserialise .v6 (b :: l) =
    if b = 1 then UUID.unserialise (b :: l) else V6.unserialise (b :: l) := by
  have hcond : Codec.v6 = Codec.v6 ∧ (b :: l).length ≠ 0 := by simp
  unfold unserialise
  dsimp only [bind, EStateM.bind, MonadState.get, getThe, MonadStateOf.get, EStateM.get]
  rw [if_pos hcond]
  dsimp only [bind, EStateM.bind, Reader.access, readAt, List.getElem?_cons_zero, pure,
    EStateM.pure]
  by_cases hb : b = 1
  · rw [if_neg (not_not.2 hb), if_pos hb]
  · rw [if_pos hb, if_neg hb]

/-- **An encoded layout is decoded to the codec's UUID of it**, whatever follows. -/
theorem unserialise_wire (codec : Codec) (L : Layout) (r : Bytes) :
    unserialise codec (L.wire ++ r) = .ok (codec.ofLayout L) r := by
  cases codec with
  | v1 => exact UUID.unserialise_wire L r
  | v6 =>
      obtain ⟨b, l, hbl, -, hone, -⟩ := UUIDCondenser.head_of_decode (L.decode_wire r)
      rw [hbl, unserialise_v6_cons, if_neg hone, ← hbl]
      exact V6.unserialise_wire L r

end Cuuid
