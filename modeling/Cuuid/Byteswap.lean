/-
**The byteswap fast path.**

`pack` and `unpack` move a number between a word and memory in network byte order, by a loop over its
bytes.  For 64-bit words they are specialised: a conditional byteswap and a copy in the order of the
host.  This module follows both through memory, with the pointer that they advance, and shows that
they do the same on every host.

Main definitions:

* `Cuuid.Cursor` — memory, and the pointer into it that a call advances;
* `Cuuid.Cursor.pack`, `Cuuid.Cursor.unpack` — the generic loops;
* `Cuuid.Cursor.pack64`, `Cuuid.Cursor.unpack64` — the specialisations.

Main results:

* `Cuuid.packTurns_eq`, `Cuuid.unpackTurns_eq` — what any number of turns of the loops does;
* `Cuuid.byteswap_eq` — **the fast path equals the byte loop**, and reading inverts writing.
-/

import Cuuid.Wire

set_option relaxedAutoImplicit false
set_option autoImplicit false

namespace Cuuid

open BigEndian BitField

/-! ### Memory -/

/-- Memory, and the pointer `*p` into it. -/
structure Cursor where
  /-- The bytes of the memory. -/
  mem : Bytes
  /-- The index that the pointer is at. -/
  p : ℕ
deriving DecidableEq, Repr

/-- The turns of the loop of `pack`: stores the low byte at `*--ptr`, then shifts it out. -/
def packTurns : ℕ → ℕ → UInt64 → Bytes → Except Fault Bytes
  | 0, _, _, mem => .ok mem
  | n + 1, ptr, num, mem => do
      let mem ← writeAt mem (ptr - 1) (num &&& 0xff).toUInt8
      packTurns n (ptr - 1) (num >>> 8) mem

/-- The turns of the loop of `unpack`: makes room for a byte and joins the one at `*ptr++`. -/
def unpackTurns : ℕ → ℕ → UInt64 → Bytes → Except Fault (UInt64 × ℕ)
  | 0, ptr, num, _ => .ok (num, ptr)
  | n + 1, ptr, num, mem => do
      let b ← readAt mem ptr
      unpackTurns n (ptr + 1) ((num <<< 8) ||| b.toUInt64) mem

/-- `memcpy` into memory. -/
def writeRange (mem : Bytes) (i : ℕ) (l : Bytes) : Except Fault Bytes :=
  if i + l.length ≤ mem.length then .ok (mem.take i ++ l ++ mem.drop (i + l.length))
  else .error .outOfRange

namespace Cursor

/-- The generic `pack` of a 64-bit word. -/
def pack (c : Cursor) (num : UInt64) : Except Fault Cursor := do
  let fin := c.p + 8
  let mem ← packTurns 8 fin num c.mem
  .ok ⟨mem, fin⟩

/-- The generic `unpack` of a 64-bit word. -/
def unpack (c : Cursor) : Except Fault (UInt64 × Cursor) := do
  let (num, ptr) ← unpackTurns 8 c.p 0 c.mem
  .ok (num, ⟨c.mem, ptr⟩)

/-- The specialisation `pack<uint64_t>`. -/
def pack64 (h : HostOrder) (c : Cursor) (num : UInt64) : Except Fault Cursor := do
  let be := toBe64 h num
  let mem ← writeRange c.mem c.p (h.store be)
  .ok ⟨mem, c.p + 8⟩

/-- The specialisation `unpack<uint64_t>`. -/
def unpack64 (h : HostOrder) (c : Cursor) : Except Fault (UInt64 × Cursor) := do
  let l ← readRange c.mem c.p 8
  let be := h.load l
  .ok (toBe64 h be, ⟨c.mem, c.p + 8⟩)

end Cursor

/-! ### The loops -/

/-- Copying a list is storing its last byte, then copying what is in front of it. -/
theorem writeRange_append_singleton {mem : Bytes} {i : ℕ} {l : Bytes} (b : UInt8)
    (hroom : i + l.length < mem.length) :
    writeRange mem i (l ++ [b]) = (do
      let mem ← writeAt mem (i + l.length) b
      writeRange mem i l) := by
  have htake : (mem.set (i + l.length) b).take i = mem.take i := List.take_set_of_le (by omega)
  have hdrop : (mem.set (i + l.length) b).drop (i + l.length) =
      b :: mem.drop (i + l.length + 1) := by
    rw [List.drop_eq_getElem_cons (by simpa using hroom), List.getElem_set_self,
      List.drop_set_of_lt (by omega)]
  rw [writeAt, if_pos hroom]
  simp only [bind, Except.bind, writeRange, List.length_append, List.length_singleton,
    List.length_set, htake, hdrop]
  rw [if_pos (by omega), if_pos (by omega), ← Nat.add_assoc]
  simp

/-- The bytes that the loop of `pack` puts in front are those of the number. -/
theorem packLoop_eq (n : ℕ) (num : UInt64) (acc : Bytes) :
    packLoop n num acc = toBytes n num.toNat ++ acc := by
  induction n generalizing num acc with
  | zero => rfl
  | succ n ih =>
      have hshift : (num >>> 8).toNat = num.toNat / 256 ^ 1 :=
        toNat_shiftRight_ofNat num 8 (by decide)
      have hlow : (num &&& 0xff).toUInt8 = UInt8.ofNat (num.toNat / 256 ^ 0) := by
        apply UInt8.toNat_inj.1
        rw [UInt64.toNat_toUInt8, toNat_and_two_pow_sub_one _ _ 8 (by decide), UInt8.toNat_ofNat']
        omega
      rw [packLoop, ih, hshift, toBytes_add n 1, hlow, List.append_assoc]
      rfl

/-- **The loop of `pack`** stores these bytes, from the last one to the first. -/
theorem packTurns_eq (n p : ℕ) (num : UInt64) {mem : Bytes} (hroom : p + n ≤ mem.length) :
    packTurns n (p + n) num mem = writeRange mem p (packLoop n num []) := by
  induction n generalizing num mem with
  | zero =>
      rw [Nat.add_zero] at hroom
      simp [packTurns, packLoop, writeRange, hroom]
  | succ n ih =>
      have hlast : packLoop (n + 1) num [] =
          packLoop n (num >>> 8) [] ++ [(num &&& 0xff).toUInt8] := by
        rw [packLoop, packLoop_eq, packLoop_eq n _ [], List.append_nil]
      have hlen : (packLoop n (num >>> 8) []).length = n := by
        rw [packLoop_eq, List.append_nil, length_toBytes]
      rw [hlast, writeRange_append_singleton _ (by omega), hlen, packTurns]
      simp only [writeAt, ← Nat.add_assoc, Nat.add_sub_cancel]
      rw [if_pos (by omega)]
      exact ih _ (by rw [List.length_set]; omega)

/-- **The loop of `unpack`** shifts in the bytes that it reads, from the first one to the last. -/
theorem unpackTurns_eq (n p : ℕ) (num : UInt64) {mem : Bytes} (hroom : p + n ≤ mem.length) :
    unpackTurns n p num mem = .ok (((mem.drop p).take n).foldl shiftIn num, p + n) := by
  induction n generalizing p num with
  | zero => simp [unpackTurns]
  | succ n ih =>
      have hp : p < mem.length := by omega
      rw [unpackTurns, readAt, List.getElem?_eq_getElem hp, List.drop_eq_getElem_cons hp]
      simp only [bind, Except.bind]
      rw [ih (p + 1) _ (by omega), Nat.add_right_comm]
      rfl

/-! ### The fast path -/

namespace Cursor

variable {c : Cursor}

/-- The memory after eight bytes were copied to the pointer. -/
def stored (c : Cursor) (l : Bytes) : Bytes := c.mem.take c.p ++ l ++ c.mem.drop (c.p + 8)

theorem pack_eq (hroom : c.p + 8 ≤ c.mem.length) (x : UInt64) :
    c.pack x = .ok ⟨c.stored (toBytes 8 x.toNat), c.p + 8⟩ := by
  rw [pack, packTurns_eq 8 c.p x hroom, packLoop_eq, List.append_nil, writeRange, length_toBytes,
    if_pos hroom]
  rfl

theorem pack64_eq (h : HostOrder) (hroom : c.p + 8 ≤ c.mem.length) (x : UInt64) :
    c.pack64 h x = .ok ⟨c.stored (toBytes 8 x.toNat), c.p + 8⟩ := by
  have hbytes : h.store (toBe64 h x) = toBytes 8 x.toNat := Cuuid.pack64_eq h x
  simp only [pack64, hbytes, writeRange, length_toBytes]
  rw [if_pos hroom]
  rfl

theorem unpack_eq (hroom : c.p + 8 ≤ c.mem.length) :
    c.unpack = .ok (UInt64.ofNat (ofBytes ((c.mem.drop c.p).take 8)), ⟨c.mem, c.p + 8⟩) := by
  have hfold := toNat_foldl_shiftIn ((c.mem.drop c.p).take 8) 0 0 (by decide) (by simp)
  rw [UInt64.toNat_zero, Nat.zero_mul, Nat.zero_add] at hfold
  rw [unpack, unpackTurns_eq 8 c.p 0 hroom, ← hfold, UInt64.ofNat_toNat]
  rfl

theorem unpack64_eq (h : HostOrder) (hroom : c.p + 8 ≤ c.mem.length) :
    c.unpack64 h = .ok (UInt64.ofNat (ofBytes ((c.mem.drop c.p).take 8)), ⟨c.mem, c.p + 8⟩) := by
  have hword := Cuuid.unpack64_eq h hroom
  simp only [Cuuid.unpack64, readRange, if_pos hroom, Except.map, Except.ok.injEq] at hword
  simp only [unpack64, readRange, if_pos hroom, bind, Except.bind, hword]

/-- The bytes that were stored are read back, and nothing else has changed. -/
theorem take_drop_stored (hroom : c.p + 8 ≤ c.mem.length) {l : Bytes} (hl : l.length = 8) :
    ((c.stored l).drop c.p).take 8 = l ∧ (c.stored l).length = c.mem.length := by
  have htake : (c.mem.take c.p).length = c.p := by simp; omega
  constructor
  · rw [stored, List.append_assoc, List.drop_left' htake, List.take_left' hl]
  · simp only [stored, List.length_append, htake, hl, List.length_drop]
    omega

theorem stored_self : c.stored ((c.mem.drop c.p).take 8) = c.mem := by
  rw [stored, ← List.drop_drop, List.append_assoc, List.take_append_drop, List.take_append_drop]

end Cursor

/-- **The byteswap fast path equals the byte loop**, on either host: `pack` leaves the same memory and
`unpack` reads the same value, both move the pointer by eight, and each undoes the other. -/
theorem byteswap_eq (h : HostOrder) {c : Cursor} (hroom : c.p + 8 ≤ c.mem.length) :
    (∀ x, ∃ mem, c.pack64 h x = .ok ⟨mem, c.p + 8⟩ ∧ c.pack x = .ok ⟨mem, c.p + 8⟩ ∧
      Cursor.unpack64 h ⟨mem, c.p⟩ = .ok (x, ⟨mem, c.p + 8⟩)) ∧
    ∃ x, c.unpack64 h = .ok (x, ⟨c.mem, c.p + 8⟩) ∧ c.unpack = .ok (x, ⟨c.mem, c.p + 8⟩) ∧
      c.pack64 h x = .ok ⟨c.mem, c.p + 8⟩ := by
  constructor
  · intro x
    obtain ⟨hread, hlen⟩ := Cursor.take_drop_stored hroom (length_toBytes 8 x.toNat)
    refine ⟨_, Cursor.pack64_eq h hroom x, Cursor.pack_eq hroom x, ?_⟩
    rw [Cursor.unpack64_eq h (by rw [hlen]; exact hroom), hread,
      ofBytes_toBytes_of_lt x.toNat_lt, UInt64.ofNat_toNat]
  · refine ⟨_, Cursor.unpack64_eq h hroom, Cursor.unpack_eq hroom, ?_⟩
    have hlen : ((c.mem.drop c.p).take 8).length = 8 := by simp; omega
    have hlt := ofBytes_lt ((c.mem.drop c.p).take 8)
    have hround := toBytes_ofBytes ((c.mem.drop c.p).take 8)
    rw [hlen] at hlt hround
    have hword : (UInt64.ofNat (ofBytes ((c.mem.drop c.p).take 8))).toNat =
        ofBytes ((c.mem.drop c.p).take 8) := UInt64.toNat_ofNat_of_lt hlt
    rw [Cursor.pack64_eq h hroom, hword, hround, Cursor.stored_self]

/-- A word in the middle of ten bytes. -/
theorem byteswap_eq_ten_bytes : ∃ x, Cursor.unpack64 .little ⟨[9, 1, 2, 3, 4, 5, 6, 7, 8, 9], 1⟩ =
    .ok (x, ⟨[9, 1, 2, 3, 4, 5, 6, 7, 8, 9], 9⟩) := by
  obtain ⟨-, x, hx, -⟩ :=
    byteswap_eq .little (c := ⟨[9, 1, 2, 3, 4, 5, 6, 7, 8, 9], 1⟩) (by decide)
  exact ⟨x, hx⟩

end Cuuid
