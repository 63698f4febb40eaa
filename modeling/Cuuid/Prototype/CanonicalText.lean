/-
**The canonical text in the prototypes.**

The text of a version-6 UUID is printed by the prototypes from the hexadecimal form of the sixteen
bytes, cut at fixed positions.  It is the text that the library prints for the same fields, so the
library's parser reads it, and texts of ids sort as the ids do.

Main definitions:

* `Cuuid.Prototype.Python.v6String` — the text.

Main results:

* `Cuuid.Prototype.v6_string_library` — **the library prints and parses the same text**.
-/

import Cuuid.Sorting
import Cuuid.Prototype.V6Bytes

set_option relaxedAutoImplicit false
set_option autoImplicit false

namespace Cuuid.Prototype

open Hex

namespace Python

/-- `bytes.hex()`. -/
def hex (b : Bytes) : Bytes := b.flatMap fun x => [digit (x.toNat / 16), digit (x.toNat % 16)]

/-- The slice `h[i:j]`. -/
def slice (h : Bytes) (i j : ℕ) : Bytes := (h.take j).drop i

/-- `v6_string`. -/
def v6String (time clock node : ℤ) : Bytes :=
  let h := hex (toV6Bytes time clock node)
  slice h 0 8 ++ dash :: (slice h 8 12 ++ dash :: (slice h 12 16 ++ dash ::
    (slice h 16 20 ++ dash :: slice h 20 32)))

theorem length_hex (b : Bytes) : (hex b).length = 2 * b.length := by
  induction b with
  | nil => rfl
  | cons x b ih =>
      rw [hex, List.flatMap_cons, List.length_append, ← hex, ih]
      simp only [List.length_cons, List.length_nil]
      omega

theorem hex_append (a b : Bytes) : hex (a ++ b) = hex a ++ hex b := List.flatMap_append

/-- A slice between two bytes is the hexadecimal form of the bytes between. -/
theorem slice_hex (a b c : Bytes) :
    slice (hex (a ++ (b ++ c))) (2 * a.length) (2 * (a.length + b.length)) = hex b := by
  have htake : (hex a ++ hex b).length = 2 * (a.length + b.length) := by
    rw [List.length_append, length_hex, length_hex]
    omega
  rw [hex_append, hex_append, slice, ← List.append_assoc, List.take_left' htake,
    List.drop_left' (length_hex a)]

end Python

/-- The text of a UUID, from its bytes as hexadecimal digits. -/
theorem toText_eq_slices {cc : CharClassify} (h : cc.Documented) (u : UUID) :
    u.toText cc = Python.slice (Python.hex u.bytes.toList) 0 8 ++ dash ::
      (Python.slice (Python.hex u.bytes.toList) 8 12 ++ dash ::
        (Python.slice (Python.hex u.bytes.toList) 12 16 ++ dash ::
          (Python.slice (Python.hex u.bytes.toList) 16 20 ++ dash ::
            Python.slice (Python.hex u.bytes.toList) 20 32))) := by
  have hcut (i n k : ℕ) (hk : i + (n + k) = 16) :
      Python.slice (Python.hex u.bytes.toList) (2 * i) (2 * (i + n)) = u.charReprs cc i n := by
    have hsplit : u.bytes.toList = bytesAt u.bytes 0 i ++ (bytesAt u.bytes i n ++
        bytesAt u.bytes (i + n) k) := by
      rw [toList_eq, ← hk, bytesAt_add, Nat.zero_add, bytesAt_add]
    have hslice := Python.slice_hex (bytesAt u.bytes 0 i) (bytesAt u.bytes i n)
      (bytesAt u.bytes (i + n) k)
    rw [length_bytesAt, length_bytesAt] at hslice
    rw [hsplit, hslice, UUID.charReprs, funext h.charRepr_eq, Python.hex]
  rw [UUID.toText, ← hcut 0 4 12 rfl, ← hcut 4 2 10 rfl, ← hcut 6 2 8 rfl, ← hcut 8 2 6 rfl,
    ← hcut 10 6 0 rfl]

/-- **The library prints and parses the same text.**  For any fields, the text of the prototype is
what `to_string` prints for the version-6 UUID that the library builds from their low bits; the
constructor from a string gives that UUID back; and two such texts sort as the fields do that the
UUIDs hold. -/
theorem v6_string_library {cc : CharClassify} (h : cc.Documented) :
    (∀ time clock node : ℕ, Python.v6String time clock node =
        (V6.fromFields (Cpp.Id.ofNat time clock node).toFields).toText cc ∧
      UUID.ofString cc (Python.v6String time clock node) =
        .ok (V6.fromFields (Cpp.Id.ofNat time clock node).toFields)) ∧
    ∀ id id' : Cpp.Id,
      (Python.v6String id.time.toNat id.clock.toNat id.node.toNat <
          Python.v6String id'.time.toNat id'.clock.toNat id'.node.toNat ↔
        id.cut.toFields.Before id'.cut.toFields) := by
  have hprint : ∀ time clock node : ℕ, Python.v6String time clock node =
      (V6.fromFields (Cpp.Id.ofNat time clock node).toFields).toText cc := by
    intro time clock node
    rw [toText_eq_slices h, Python.v6String, Python.toV6Bytes_natCast]
    rfl
  have hfields : ∀ id : Cpp.Id, Python.v6String id.time.toNat id.clock.toNat id.node.toNat =
      (V6.fromFields id.toFields).toText cc := by
    intro id
    have hid : Cpp.Id.ofNat id.time.toNat id.clock.toNat id.node.toNat = id := by
      rw [Cpp.Id.ofNat, UInt64.ofNat_toNat, UInt16.ofNat_toNat, UInt64.ofNat_toNat]
    exact (hprint _ _ _).trans (congrArg (fun i : Cpp.Id =>
      (V6.fromFields i.toFields).toText cc) hid)
  refine ⟨fun time clock node => ⟨hprint time clock node, ?_⟩, fun id id' => ?_⟩
  · rw [hprint]
    exact UUID.ofString_text h _
  · have hbytes : ∀ id : Cpp.Id, (V6.fromFields id.toFields).bytes = Cpp.toV6Bytes id.cut :=
      fun id => (Cpp.toV6Bytes_cut id).symm
    rw [hfields id, hfields id', UUID.toText_lt_iff h, hbytes id, hbytes id',
      Cpp.toV6Bytes_eq, Cpp.toV6Bytes_eq]
    exact toV6Bytes_lt_iff id.cut_inRange id'.cut_inRange

/-- The start of 2026, for the character functions of ASCII. -/
theorem v6_string_library_2026 :
    UUID.ofString .ascii (Python.v6String (139863888000000000 : ℕ) (5 : ℕ) (0x1234 : ℕ)) =
      .ok (V6.fromFields ⟨139863888000000000, 5, 0x1234⟩) :=
  ((v6_string_library CharClassify.documented_ascii).1 139863888000000000 5 0x1234).2

end Cuuid.Prototype
