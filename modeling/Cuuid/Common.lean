/-
**The condenser: the format-agnostic core of both codecs.**

This module embeds `cuuid_common.h` and `cuuid_common.cc`: the constants, the hash and packing
primitives, the 128-bit union `UUIDCondenser` with its variable-length wire, and the functions
`calculate_node`, `crush_fields`, `condense` and `uncondense` that the v1 and v6 codecs share.  It
holds definitions only; what they compute is proved in the modules that follow.

A C++ range `[*ptr, end)` is the list of bytes that remain, and a decoder is a computation on that
list as state, so that the value of `*ptr` is visible after an exception as well.  Reads of a
range, of the 17-byte buffer and of the table `VL` are partial: one that is out of range ends in
`Fault.outOfRange`, which no source expression throws.  The bit fields of the union are those of a
little-endian host, as the comments of the source draw them, so the condenser packs its words as
such a host does.

Main definitions:

* `Cuuid.UUIDCondenser` — the union, as its two 64-bit words, with the bit fields of both layouts
  in the little-endian order drawn in the comments of the source;
* `Cuuid.UUIDCondenser.serialise`, `Cuuid.UUIDCondenser.unserialise` — the condensed wire;
* `Cuuid.calculateNode`, `Cuuid.crushFields`, `Cuuid.condense`, `Cuuid.uncondense`.
-/

import Cuuid.Lib.BitField

set_option relaxedAutoImplicit false
set_option autoImplicit false

namespace Cuuid

/-! ### Faults and partial reads -/

/-- What a call can end in instead of a value. -/
inductive Fault
  /-- A read or write outside its object: undefined behaviour, not an exception. -/
  | outOfRange
  /-- A failed `assert`. -/
  | assertion
  /-- `THROW(SerialisationError, message)`. -/
  | serialisationError (message : String)
deriving DecidableEq, Repr

/-- A byte string. -/
abbrev Bytes := List UInt8

/-- A decoder that moves `*ptr`: the state is the range `[*ptr, end)`. -/
abbrev Reader (α : Type) := EStateM Fault Bytes α

/-- Reads one byte of a buffer. -/
def readAt (buf : Bytes) (i : ℕ) : Except Fault UInt8 :=
  match buf[i]? with
  | some b => .ok b
  | none => .error .outOfRange

/-- Reads `n` bytes of a buffer from index `i` on. -/
def readRange (buf : Bytes) (i n : ℕ) : Except Fault Bytes :=
  if i + n ≤ buf.length then .ok ((buf.drop i).take n) else .error .outOfRange

/-- Writes one byte of a buffer. -/
def writeAt (buf : Bytes) (i : ℕ) (b : UInt8) : Except Fault Bytes :=
  if i < buf.length then .ok (buf.set i b) else .error .outOfRange

/-- An access that does not move `*ptr`. -/
def Reader.access {α : Type} : Except Fault α → Reader α
  | .ok a => pure a
  | .error e => throw e

/-! ### Constants -/

def uuidTimeEpoch : UInt64 := 0x01b21dd213814000
def uuidTimeYear : UInt64 := 0x00011f0241243c00
def uuidTimeInitial : UInt64 := uuidTimeEpoch + (2016 - 1970) * uuidTimeYear
def uuidMaxSerialisedLength : ℕ := 17

def timeBits : ℕ := 60
def paddingC0Bits : ℕ := 64 - timeBits
def paddingE0Bits : ℕ := 64 - timeBits
def compactedBits : ℕ := 1
def saltBits : ℕ := 7
def clockBits : ℕ := 14
def nodeBits : ℕ := 48
def paddingC1Bits : ℕ := 64 - compactedBits - saltBits - clockBits
def paddingE1Bits : ℕ := 64 - compactedBits - nodeBits - clockBits

def timeMask : UInt64 := (1 <<< UInt64.ofNat timeBits) - 1
def saltMask : UInt64 := (1 <<< UInt64.ofNat saltBits) - 1
def clockMask : UInt64 := (1 <<< UInt64.ofNat clockBits) - 1
def nodeMask : UInt64 := (1 <<< UInt64.ofNat nodeBits) - 1

/-- A condensed node always carries the multicast bit, so that a reconstructed node is
distinguishable from a real (globally administered) MAC address. -/
def multicastBit : UInt64 := 0x010000000000

/-- One cell of the table `VL`: the bits that name a length, and the mask they are read with. -/
structure VlEntry where
  /-- The bits to set. -/
  pfx : UInt8
  /-- The bits to compare. -/
  mask : UInt8
deriving DecidableEq, Repr

/-- The variable-length encoding table `VL`: row `i` is for wires of `i + 4` bytes, and its two
columns are for a first byte below and from `0x10` on. -/
def vl : List (VlEntry × VlEntry) :=
  [ (⟨0x1c, 0xfc⟩, ⟨0x1c, 0xfc⟩),
    (⟨0x18, 0xfc⟩, ⟨0x18, 0xfc⟩),
    (⟨0x14, 0xfc⟩, ⟨0x14, 0xfc⟩),
    (⟨0x10, 0xfc⟩, ⟨0x10, 0xfc⟩),
    (⟨0x04, 0xfc⟩, ⟨0x40, 0xc0⟩),
    (⟨0x0a, 0xfe⟩, ⟨0xa0, 0xe0⟩),
    (⟨0x08, 0xfe⟩, ⟨0x80, 0xe0⟩),
    (⟨0x02, 0xff⟩, ⟨0x20, 0xf0⟩),
    (⟨0x03, 0xff⟩, ⟨0x30, 0xf0⟩),
    (⟨0x0c, 0xff⟩, ⟨0xc0, 0xf0⟩),
    (⟨0x0d, 0xff⟩, ⟨0xd0, 0xf0⟩),
    (⟨0x0e, 0xff⟩, ⟨0xe0, 0xf0⟩),
    (⟨0x0f, 0xff⟩, ⟨0xf0, 0xf0⟩) ]

/-- The cell of a row in column `q`. -/
def vlCell (row : VlEntry × VlEntry) (q : Bool) : VlEntry := if q then row.2 else row.1

/-- The partial read `VL[i][q]`. -/
def vlAt (i : ℕ) (q : Bool) : Except Fault VlEntry :=
  match vl[i]? with
  | some row => .ok (vlCell row q)
  | none => .error .outOfRange

/-- The row loop of `unserialise` and of `_is_serialised`: the first row whose column `q` matches the
first byte `l`, or `13` when the loop runs to its end.  The byte is a `char` in one and a `uint8_t` in
the other, and both loops find the same row, as no mask has more than eight bits. -/
def vlRow (l : UInt8) (q : Bool) : ℕ :=
  (vl.findIdx? fun row => (vlCell row q).pfx == l &&& (vlCell row q).mask).getD 13

/-! ### Packing and hashing -/

/-- The loop of `pack`: stores the low byte in front of what is stored, then shifts it out. -/
def packLoop : ℕ → UInt64 → Bytes → Bytes
  | 0, _, acc => acc
  | n + 1, num, acc => packLoop n (num >>> 8) ((num &&& 0xff).toUInt8 :: acc)

/-- The bytes that the generic `pack` stores for a 64-bit word. -/
def pack (num : UInt64) : Bytes := packLoop 8 num []

/-- The generic `unpack` of a 64-bit word at index `p`: shifts the bytes in, first one first. -/
def unpack (buf : Bytes) (p : ℕ) : Except Fault UInt64 :=
  (readRange buf p 8).map fun l => l.foldl (fun num b => (num <<< 8) ||| b.toUInt64) 0

/-- The byte order of the host. -/
inductive HostOrder
  | little
  | big
deriving DecidableEq, Repr

/-- The bytes of a word from the lowest to the highest. -/
def leBytes (x : UInt64) : Bytes :=
  (List.range 8).map fun i => (x >>> UInt64.ofNat (8 * i)).toUInt8

/-- The word with the given bytes, from the lowest to the highest. -/
def leWord (l : Bytes) : UInt64 := l.foldr (fun b num => (num <<< 8) ||| b.toUInt64) 0

/-- What `memcpy` stores of a word in the memory of the host. -/
def HostOrder.store (h : HostOrder) (x : UInt64) : Bytes :=
  match h with
  | .little => leBytes x
  | .big => (leBytes x).reverse

/-- The word that `memcpy` loads from the memory of the host. -/
def HostOrder.load (h : HostOrder) (l : Bytes) : UInt64 :=
  match h with
  | .little => leWord l
  | .big => leWord l.reverse

/-- `__builtin_bswap64`: the same bytes in reverse order. -/
def bswap64 (x : UInt64) : UInt64 := leWord (leBytes x).reverse

def toBe64 (h : HostOrder) (x : UInt64) : UInt64 :=
  match h with
  | .big => x
  | .little => bswap64 x

/-- The specialisation `pack<uint64_t>`. -/
def pack64 (h : HostOrder) (num : UInt64) : Bytes := h.store (toBe64 h num)

/-- The specialisation `unpack<uint64_t>`, at index `p`. -/
def unpack64 (h : HostOrder) (buf : Bytes) (p : ℕ) : Except Fault UInt64 :=
  (readRange buf p 8).map fun l => toBe64 h (h.load l)

/-- The loop of `fnv_1a`.  A 64-bit word is used up after eight turns. -/
def fnvLoop : ℕ → UInt64 → UInt64 → UInt64
  | 0, fnv, _ => fnv
  | n + 1, fnv, num =>
      if num = 0 then fnv else fnvLoop n ((fnv ^^^ (num &&& 0xff)) * 0x100000001b3) (num >>> 8)

/-- The FNV-1a hash of the bytes of a word, low byte first, down to its highest nonzero byte. -/
def fnv1a (num : UInt64) : UInt64 := fnvLoop 8 0xcbf29ce484222325 num

/-- The loop of `xor_fold`.  A 64-bit word is used up after 64 turns, however few bits a turn
shifts out. -/
def xorFoldLoop (bits : ℕ) : ℕ → UInt64 → UInt64 → UInt64
  | 0, folded, _ => folded
  | n + 1, folded, num =>
      if num = 0 then folded
      else xorFoldLoop bits n (folded ^^^ num) (num >>> UInt64.ofNat bits)

def xorFold (num : UInt64) (bits : ℕ) : UInt64 := xorFoldLoop bits 64 0 num

/-- splitmix64: a cheap, deterministic 64-bit mixer. -/
def splitmix64 (x : UInt64) : UInt64 :=
  let x := x + 0x9e3779b97f4a7c15
  let x := (x ^^^ (x >>> 30)) * 0xbf58476d1ce4e5b9
  let x := (x ^^^ (x >>> 27)) * 0x94d049bb133111eb
  x ^^^ (x >>> 31)

/-! ### The union -/

/-- The union `UUIDCondenser`, as the words of its member `value`. -/
structure UUIDCondenser where
  /-- Time and padding. -/
  val0 : UInt64
  /-- The flag, padding, salt or node, and clock. -/
  val1 : UInt64
deriving DecidableEq, Repr

namespace UUIDCondenser

/-- The default constructor clears all fields. -/
def zero : UUIDCondenser := ⟨0, 0⟩

/-! The fields of `compact`. -/

def compactTime (c : UUIDCondenser) : UInt64 := BitField.get c.val0 0 timeBits
def compactPadding0 (c : UUIDCondenser) : UInt64 := BitField.get c.val0 timeBits paddingC0Bits
def compactCompacted (c : UUIDCondenser) : UInt64 := BitField.get c.val1 0 compactedBits
def compactPadding1 (c : UUIDCondenser) : UInt64 :=
  BitField.get c.val1 compactedBits paddingC1Bits
def compactSalt (c : UUIDCondenser) : UInt64 :=
  BitField.get c.val1 (compactedBits + paddingC1Bits) saltBits
def compactClock (c : UUIDCondenser) : UInt64 :=
  BitField.get c.val1 (compactedBits + paddingC1Bits + saltBits) clockBits

def setCompactTime (c : UUIDCondenser) (v : UInt64) : UUIDCondenser :=
  { c with val0 := BitField.set c.val0 0 timeBits v }
def setCompactCompacted (c : UUIDCondenser) (v : UInt64) : UUIDCondenser :=
  { c with val1 := BitField.set c.val1 0 compactedBits v }
def setCompactSalt (c : UUIDCondenser) (v : UInt64) : UUIDCondenser :=
  { c with val1 := BitField.set c.val1 (compactedBits + paddingC1Bits) saltBits v }
def setCompactClock (c : UUIDCondenser) (v : UInt64) : UUIDCondenser :=
  { c with val1 := BitField.set c.val1 (compactedBits + paddingC1Bits + saltBits) clockBits v }

/-! The fields of `expanded`. -/

def expandedTime (c : UUIDCondenser) : UInt64 := BitField.get c.val0 0 timeBits
def expandedPadding0 (c : UUIDCondenser) : UInt64 := BitField.get c.val0 timeBits paddingE0Bits
def expandedCompacted (c : UUIDCondenser) : UInt64 := BitField.get c.val1 0 compactedBits
def expandedPadding1 (c : UUIDCondenser) : UInt64 :=
  BitField.get c.val1 compactedBits paddingE1Bits
def expandedNode (c : UUIDCondenser) : UInt64 :=
  BitField.get c.val1 (compactedBits + paddingE1Bits) nodeBits
def expandedClock (c : UUIDCondenser) : UInt64 :=
  BitField.get c.val1 (compactedBits + paddingE1Bits + nodeBits) clockBits

def setExpandedTime (c : UUIDCondenser) (v : UInt64) : UUIDCondenser :=
  { c with val0 := BitField.set c.val0 0 timeBits v }
def setExpandedCompacted (c : UUIDCondenser) (v : UInt64) : UUIDCondenser :=
  { c with val1 := BitField.set c.val1 0 compactedBits v }
def setExpandedNode (c : UUIDCondenser) (v : UInt64) : UUIDCondenser :=
  { c with val1 := BitField.set c.val1 (compactedBits + paddingE1Bits) nodeBits v }
def setExpandedClock (c : UUIDCondenser) (v : UInt64) : UUIDCondenser :=
  { c with val1 := BitField.set c.val1 (compactedBits + paddingE1Bits + nodeBits) clockBits v }

/-! ### The wire -/

/-- The first half of `serialise`: the words `buf0` and `buf1`, with the padding squeezed out. -/
def buffers (c : UUIDCondenser) : Except Fault (UInt64 × UInt64) :=
  if c.compactCompacted != 0 then
    if c.compactPadding0 != 0 then .error .assertion
    else if c.compactPadding1 != 0 then .error .assertion
    else
      .ok (c.val0 >>> UInt64.ofNat paddingC1Bits,
        (c.val0 <<< UInt64.ofNat (64 - paddingC1Bits)) ||| (c.val1 >>> UInt64.ofNat paddingC1Bits)
          ||| 1)
  else
    if c.expandedPadding0 != 0 then .error .assertion
    else if c.expandedPadding1 != 0 then .error .assertion
    else
      .ok (c.val0 >>> UInt64.ofNat paddingE1Bits,
        (c.val0 <<< UInt64.ofNat (64 - paddingE1Bits)) ||| (c.val1 >>> UInt64.ofNat paddingE1Bits))

/-- The loop `while (ptr != end && (*++ptr == 0))`, where `end - ptr` is the first argument. -/
def skipZeros (buf : Bytes) : ℕ → ℕ → Except Fault ℕ
  | 0, ptr => .ok ptr
  | n + 1, ptr => do
      let b ← readAt buf (ptr + 1)
      if b = 0 then skipZeros buf n (ptr + 1) else .ok (ptr + 1)

/-- The second half of `serialise`: folds the length into the byte at `ptr`, or, when neither
column of the row has room, into a zero byte borrowed in front of it. -/
def foldLength (buf : Bytes) (ptr length : ℕ) : Except Fault Bytes := do
  let b ← readAt buf ptr
  let e0 ← vlAt length false
  if b &&& e0.mask != 0 then
    let e1 ← vlAt length true
    if b &&& e1.mask != 0 then
      if ptr = 0 then
        .error .outOfRange
      else
        let z ← readAt buf (ptr - 1)
        let e ← vlAt (length + 1) false
        let buf ← writeAt buf (ptr - 1) (z ||| e.pfx)
        readRange buf (ptr - 1) (length + 1 + 4)
    else
      let buf ← writeAt buf ptr (b ||| e1.pfx)
      readRange buf ptr (length + 4)
  else
    let buf ← writeAt buf ptr (b ||| e0.pfx)
    readRange buf ptr (length + 4)

/-- The condensed wire of a condenser.  The buffer holds `1 + 8 + 8` bytes, and the last four are
never stripped. -/
def serialise (c : UUIDCondenser) : Except Fault Bytes := do
  let (buf0, buf1) ← c.buffers
  let buf := 0 :: (pack64 .little buf0 ++ pack64 .little buf1)
  let fin := buf.length - 4
  let ptr ← skipZeros buf fin 0
  foldLength buf ptr (fin - ptr)

/-- The condenser whose words were packed as `buf0` and `buf1`. -/
def ofBuffers (buf0 buf1 : UInt64) : UUIDCondenser :=
  if buf1 &&& 1 != 0 then
    { val0 := (buf0 <<< UInt64.ofNat paddingC1Bits) ||| (buf1 >>> UInt64.ofNat (64 - paddingC1Bits))
      val1 := (buf1 <<< UInt64.ofNat paddingC1Bits) ||| 1 }
  else
    { val0 := (buf0 <<< UInt64.ofNat paddingE1Bits) ||| (buf1 >>> UInt64.ofNat (64 - paddingE1Bits))
      val1 := buf1 <<< UInt64.ofNat paddingE1Bits }

/-- The part of `unserialise` after the size check: copies `length` bytes to the end of the
zeroed buffer, clears the length bits of row `i` and unpacks the two words. -/
def unfold (ptr : Bytes) (i : ℕ) (q : Bool) (length : ℕ) : Except Fault UUIDCondenser := do
  let src ← readRange ptr 0 length
  if uuidMaxSerialisedLength < length then
    .error .outOfRange
  else
    let start := uuidMaxSerialisedLength - length
    let buf := List.replicate start 0 ++ src
    let e ← vlAt i q
    let b ← readAt buf start
    let buf ← writeAt buf start (b &&& ~~~e.mask)
    let buf0 ← unpack64 .little buf 1
    let buf1 ← unpack64 .little buf 9
    .ok (ofBuffers buf0 buf1)

/-- Reads a condenser off its wire.  When no row matches, `length` stays at `size + 1`, which the
size check rejects. -/
def unserialise : Reader UUIDCondenser := do
  let ptr ← get
  let size := ptr.length
  let l ← Reader.access (readAt ptr 0)
  let q := (l &&& 0xf0) != 0
  let i := vlRow l q
  let length := if i < 13 then i + 4 else size + 1
  if size < length then
    throw (.serialisationError "Bad condensed UUID")
  else
    let condenser ← Reader.access (unfold ptr i q length)
    set (ptr.drop length)
    return condenser

end UUIDCondenser

/-! ### Node reconstruction, compaction and the condensed form -/

/-- Turns the 32-bit FNV seed into the 64 raw bits of a node. -/
abbrev NodeExpander := UInt32 → UInt64

/-- Reconstructs a compacted node from the time, clock and salt of a condenser. -/
def calculateNode (condenser : UUIDCondenser) (expand : NodeExpander) : UInt64 :=
  if condenser.compactTime = 0 ∧ condenser.compactClock = 0 ∧ condenser.compactSalt = 0 then
    multicastBit
  else
    let seed : UInt32 := 0
    let seed := (seed.toUInt64 ^^^ fnv1a condenser.compactTime).toUInt32
    let seed := (seed.toUInt64 ^^^ fnv1a condenser.compactClock).toUInt32
    let seed := (seed.toUInt64 ^^^ fnv1a condenser.compactSalt).toUInt32
    let node := expand seed
    let node := node &&& (nodeMask &&& ~~~saltMask)
    let node := node ||| condenser.compactSalt
    node ||| multicastBit

/-- The three values that the functions below take and return by reference. -/
structure Fields where
  /-- The 60-bit time, in 100 ns ticks. -/
  time : UInt64
  /-- The 14-bit clock sequence. -/
  clock : UInt16
  /-- The 48-bit node. -/
  node : UInt64
deriving DecidableEq, Repr

/-- Fields of the widths that a UUID can hold. -/
structure Fields.InRange (f : Fields) : Prop where
  time_lt : f.time.toNat < 2 ^ 60
  clock_lt : f.clock.toNat < 2 ^ 14
  node_lt : f.node.toNat < 2 ^ 48

/-- The compact condenser that `crush_fields` and `condense` both fill in: the time since 2016,
modulo 2^60, without its low 14 bits, which are XORed into the clock. -/
def compactCondenser (time : UInt64) (clock : UInt16) (salt : UInt64) : UUIDCondenser :=
  let compactedTime := if time != 0 then (time - uuidTimeInitial) &&& timeMask else time
  let compactedTimeClock := compactedTime &&& clockMask
  let compactedTime := compactedTime >>> UInt64.ofNat clockBits
  (((UUIDCondenser.zero.setCompactCompacted 1).setCompactClock
    (clock.toUInt64 ^^^ compactedTimeClock)).setCompactTime compactedTime).setCompactSalt salt

/-- The salt that `crush_fields` gives a node: read back from a multicast node, hashed together
with the local node hash otherwise. -/
def crushSalt (localNodeHash : Option UInt64) (node : UInt64) : UInt64 :=
  if node &&& multicastBit != 0 then node &&& saltMask
  else
    let salt := fnv1a (localNodeHash.getD 0 ||| node)
    let salt := xorFold salt saltBits
    salt &&& saltMask

/-- Compacts the fields: the node becomes one that can be reconstructed. -/
def crushFields (localNodeHash : Option UInt64) (expand : NodeExpander) (f : Fields) : Fields :=
  let condenser := compactCondenser f.time f.clock (crushSalt localNodeHash f.node)
  let t := condenser.compactTime
  { time := if t != 0 then ((t <<< UInt64.ofNat clockBits) + uuidTimeInitial) &&& timeMask else t
    clock := condenser.compactClock.toUInt16
    node := calculateNode condenser expand }

/-- The node that `condense` compares the given one with. -/
def compactedNode (expand : NodeExpander) (f : Fields) : UInt64 :=
  calculateNode (compactCondenser f.time f.clock (f.node &&& saltMask)) expand

/-- The condenser that `condense` serialises: the compact one when the node is the one it would
be decoded to, and otherwise an expanded one with the node itself. -/
def condenserOf (expand : NodeExpander) (f : Fields) : UUIDCondenser :=
  let condenser := compactCondenser f.time f.clock (f.node &&& saltMask)
  if f.node != compactedNode expand f then
    let condenser := condenser.setExpandedCompacted 0
    let time :=
      if f.node &&& multicastBit == 0 then
        if f.time != 0 then (f.time - uuidTimeInitial) &&& timeMask else f.time
      else f.time
    ((condenser.setExpandedClock f.clock.toUInt64).setExpandedTime time).setExpandedNode f.node
  else condenser

/-- `(time, clock, node)` to the condensed wire. -/
def condense (expand : NodeExpander) (f : Fields) : Except Fault Bytes :=
  (condenserOf expand f).serialise

/-- The fields of a decoded condenser. -/
def fieldsOf (expand : NodeExpander) (condenser : UUIDCondenser) : Fields :=
  let n :=
    if condenser.compactCompacted != 0 then calculateNode condenser expand
    else condenser.expandedNode
  let t := condenser.compactTime
  let t :=
    if t != 0 then
      if condenser.compactCompacted != 0 then
        ((t <<< UInt64.ofNat clockBits) + uuidTimeInitial) &&& timeMask
      else if n &&& multicastBit == 0 then (t + uuidTimeInitial) &&& timeMask
      else t
    else t
  { time := t, clock := condenser.compactClock.toUInt16, node := n }

/-- The condensed wire to `(time, clock, node)`. -/
def uncondense (expand : NodeExpander) : Reader Fields := do
  let condenser ← UUIDCondenser.unserialise
  return fieldsOf expand condenser

end Cuuid
