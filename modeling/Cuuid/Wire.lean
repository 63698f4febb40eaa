/-
**The condensed wire.**

`UUIDCondenser::serialise` strips the leading zeros of seventeen bytes and folds the number of bytes
that remain into the first of them, by the table `VL`.  This module shows that it is the writer of
`Cuuid.Lib.LengthFold` over the slots of that table, and that `UUIDCondenser::unserialise` is its
reader.  All that is particular to the table is checked here, by evaluation over its 26 cells and
the 256 first bytes; what follows from it is the general theory's.

Main definitions:

* `Cuuid.vlTable` — the table `VL`, as slots in order of capacity;
* `Cuuid.Layout.wire` — the wire of a layout: its payload, in the first slot with room for it.

Main results:

* `Cuuid.pack64_eq`, `Cuuid.unpack64_eq` — a word is stored as its eight bytes, most significant
  first, on either host;
* `Cuuid.Layout.serialise_condenser` — **`serialise` writes the wire**, without a fault;
* `Cuuid.UUIDCondenser.unserialise_eq` — **`unserialise` decodes by the table**: it succeeds exactly
  on the numbers written in a slot, and leaves its input alone otherwise.
-/

import Mathlib.Data.List.Dedup
import Cuuid.Lib.LengthFold
import Cuuid.Layout

set_option relaxedAutoImplicit false
set_option autoImplicit false

namespace Cuuid

open BigEndian BitField LengthFold

/-! ### Packing a word -/

/-- The next byte of a word that is shifted in. -/
def shiftIn (num : UInt64) (b : UInt8) : UInt64 := (num <<< 8) ||| b.toUInt64

theorem toNat_shiftIn {num : UInt64} (h : num.toNat < 2 ^ 56) (b : UInt8) :
    (shiftIn num b).toNat = num.toNat * 256 + b.toNat := by
  have hb := b.toNat_lt
  have hshift : (num <<< 8).toNat = num.toNat * 2 ^ 8 % 2 ^ 64 :=
    toNat_shiftLeft_ofNat num 8 (by decide)
  rw [shiftIn, UInt64.toNat_or, hshift, UInt8.toNat_toUInt64,
    or_eq_add _ _ 8 (by omega) (by omega)]
  omega

/-- Shifting in a list of bytes appends them, as long as there is room for all of them. -/
theorem toNat_foldl_shiftIn (l : Bytes) : ∀ (num : UInt64) (j : ℕ), num.toNat < 256 ^ j →
    j + l.length ≤ 8 → (l.foldl shiftIn num).toNat = num.toNat * 256 ^ l.length + ofBytes l := by
  induction l with
  | nil => intro num j _ _; simp
  | cons b l ih =>
      intro num j hnum hj
      rw [List.length_cons] at hj
      have hb := b.toNat_lt
      have hroom : 256 ^ j ≤ 256 ^ 7 := Nat.pow_le_pow_right (by decide) (by omega)
      have hstep : (shiftIn num b).toNat = num.toNat * 256 + b.toNat :=
        toNat_shiftIn (by omega) b
      have hnext : (shiftIn num b).toNat < 256 ^ (j + 1) := by
        rw [hstep, pow_succ]
        omega
      rw [List.foldl_cons, ih _ (j + 1) hnext (by omega), hstep, ofBytes_cons, List.length_cons,
        pow_succ]
      ring

theorem toNat_leWord {l : Bytes} (h : l.length = 8) : (leWord l).toNat = ofBytes l.reverse := by
  have hfold : leWord l = l.reverse.foldl shiftIn 0 := by
    rw [List.foldl_reverse]
    rfl
  rw [hfold, toNat_foldl_shiftIn _ 0 0 (by decide) (by simp [h])]
  simp

theorem leBytes_eq (x : UInt64) : leBytes x = (toBytes 8 x.toNat).reverse := by
  have hbyte : ∀ i < 8, (x >>> UInt64.ofNat (8 * i)).toUInt8 = UInt8.ofNat (x.toNat / 256 ^ i) := by
    intro i hi
    apply UInt8.toNat_inj.1
    rw [UInt64.toNat_toUInt8, toNat_shiftRight_ofNat _ _ (by omega), UInt8.toNat_ofNat', pow_mul]
    rfl
  simp only [leBytes, List.range, List.range.loop, List.map_cons, List.map_nil, toBytes,
    List.reverse_cons, List.reverse_nil, List.nil_append, List.cons_append]
  rw [hbyte 0 (by decide), hbyte 1 (by decide), hbyte 2 (by decide), hbyte 3 (by decide),
    hbyte 4 (by decide), hbyte 5 (by decide), hbyte 6 (by decide), hbyte 7 (by decide)]

theorem length_leBytes (x : UInt64) : (leBytes x).length = 8 := by
  simp [leBytes_eq]

theorem leBytes_leWord {l : Bytes} (h : l.length = 8) : leBytes (leWord l) = l := by
  have hround := toBytes_ofBytes l.reverse
  rw [List.length_reverse, h] at hround
  rw [leBytes_eq, toNat_leWord h, hround, List.reverse_reverse]

theorem toNat_bswap64_leWord {l : Bytes} (h : l.length = 8) :
    (bswap64 (leWord l)).toNat = ofBytes l := by
  rw [bswap64, leBytes_leWord h, toNat_leWord (by simp [h]), List.reverse_reverse]

/-- **A word is stored most significant byte first**, on either host. -/
theorem pack64_eq (h : HostOrder) (x : UInt64) : pack64 h x = toBytes 8 x.toNat := by
  cases h with
  | little =>
      have hround : leBytes (bswap64 x) = (leBytes x).reverse :=
        leBytes_leWord (by simp [length_leBytes])
      simp only [pack64, toBe64, HostOrder.store]
      rw [hround, leBytes_eq, List.reverse_reverse]
  | big =>
      simp only [pack64, toBe64, HostOrder.store]
      rw [leBytes_eq, List.reverse_reverse]

/-- A word is loaded from the eight bytes at the index, in the same order. -/
theorem unpack64_eq (h : HostOrder) {buf : Bytes} {p : ℕ} (hp : p + 8 ≤ buf.length) :
    unpack64 h buf p = .ok (UInt64.ofNat (ofBytes ((buf.drop p).take 8))) := by
  have hlen : ((buf.drop p).take 8).length = 8 := by simp; omega
  have hword : (toBe64 h (h.load ((buf.drop p).take 8))).toNat =
      ofBytes ((buf.drop p).take 8) := by
    cases h with
    | little => exact toNat_bswap64_leWord hlen
    | big =>
        simp only [toBe64, HostOrder.load]
        rw [toNat_leWord (by simp [hlen]), List.reverse_reverse]
  rw [unpack64, readRange, if_pos hp, ← hword, UInt64.ofNat_toNat]
  rfl

/-! ### The table -/

/-- The slot of a cell in row `i`.  The bits outside the mask are free, so the slot has as many
first bytes as the mask leaves, and they start at the cell's bits. -/
def VlEntry.slot (e : VlEntry) (i : ℕ) : Slot := ⟨i + 3, e.pfx.toNat, 256 - e.mask.toNat⟩

/-- The slots of `VL`, without the duplicates of the rows whose columns agree. -/
def vlSlots : List Slot := (vl.zipIdx.flatMap fun (row, i) => [row.1.slot i, row.2.slot i]).dedup

/-- The table `VL`, as slots in order of capacity. -/
def vlTable : Table where
  slots := vlSlots
  byteSized := by decide +kernel
  disjoint := by decide +kernel
  increasing := by decide +kernel

/-- The cell of row `i` in column `q`; the row exists for `i < 13`. -/
def cellAt (i : ℕ) (q : Bool) : VlEntry := vlCell (vl.getD i (⟨0, 0⟩, ⟨0, 0⟩)) q

/-- The slot of row `i` in column `q`. -/
def vlSlot (i : ℕ) (q : Bool) : Slot := (cellAt i q).slot i

theorem vlSlot_mem : ∀ i < 13, ∀ q, vlSlot i q ∈ vlTable.slots := by decide +kernel

theorem free_pos : ∀ i < 13, ∀ q, 0 < (vlSlot i q).free := by decide +kernel

theorem extra_vlSlot (i : ℕ) (q : Bool) : (vlSlot i q).extra = i + 3 := rfl

/-- What the masks and bits of a cell do to a first byte: the mask tests whether the byte is beyond
the free ones, and the bits are added to a free byte. -/
theorem cell_table : ∀ n < 256, ∀ i < 13, ∀ q,
    (UInt8.ofNat n &&& (cellAt i q).mask ≠ 0 ↔ (vlSlot i q).free ≤ n) ∧
      (n < (vlSlot i q).free →
        UInt8.ofNat n ||| (cellAt i q).pfx = UInt8.ofNat ((vlSlot i q).lead + n)) := by
  decide +kernel

/-- The writer tries the columns of a row in order, then the row below: at each, no smaller slot
has room. -/
theorem order_table : (∀ t ∈ vlTable.slots, (vlSlot 0 false).cap ≤ t.cap) ∧
    (∀ k < 13, ∀ t ∈ vlTable.slots, t.cap < (vlSlot k false).cap → t.cap ≤ 256 ^ (k + 3)) ∧
    (∀ k < 13, ∀ t ∈ vlTable.slots, t.cap < (vlSlot k true).cap → t.cap ≤ (vlSlot k false).cap) ∧
    (∀ k < 12, ∀ t ∈ vlTable.slots, t.cap < (vlSlot (k + 1) false).cap →
      t.cap ≤ (vlSlot k true).cap) := by
  decide +kernel

/-- Every slot is for four bytes or more. -/
theorem three_le_extra : ∀ s ∈ vlTable.slots, 3 ≤ s.extra := by decide +kernel

/-- Larger slots are for no shorter wires. -/
theorem extra_le_extra : ∀ s ∈ vlTable.slots, ∀ t ∈ vlTable.slots, s.cap ≤ t.cap →
    s.extra ≤ t.extra := by
  decide +kernel

/-- Among the slots of one length, the leads grow with the capacities. -/
theorem leads_table : ∀ s ∈ vlTable.slots, ∀ t ∈ vlTable.slots, s.extra = t.extra →
    (s.lead < t.lead ↔ s.cap < t.cap) := by
  decide +kernel

theorem vlAt_eq {i : ℕ} (hi : i < 13) (q : Bool) : vlAt i q = .ok (cellAt i q) := by
  have hlen : i < vl.length := hi
  simp [vlAt, cellAt, hlen]

/-! ### Writing -/

/-- A slot is the one chosen for a number when no smaller slot reaches a lower bound of it. -/
theorem fit_of_le {s : Slot} (hs : s ∈ vlTable.slots) {P lo : ℕ}
    (hlo : ∀ t ∈ vlTable.slots, t.cap < s.cap → t.cap ≤ lo) (hge : lo ≤ P) (hlt : P < s.cap) :
    vlTable.fit P = some s := by
  refine Table.fit_eq_some_iff.2 ⟨hs, hlt, fun t ht hPt => ?_⟩
  by_contra hsmall
  have hcap := hlo t ht (by omega)
  omega

/-- Marking the digit and copying the rest writes the number in the slot. -/
theorem write_slot {i P : ℕ} (hi : i ≤ 13) {b : UInt8} {s : Slot} (hs : s.extra = i + 3)
    (hb : b = UInt8.ofNat (s.lead + P / 256 ^ (i + 3))) :
    (do
      let buf ← writeAt (toBytes 17 P) (13 - i) b
      readRange buf (13 - i) (i + 4)) = Except.ok (s.wire P) := by
  have hsplit : toBytes 17 P = toBytes (13 - i) (P / 256 ^ (i + 4)) ++ toBytes (i + 4) P := by
    rw [← toBytes_add]
    congr 1
    omega
  have hpre : (toBytes (13 - i) (P / 256 ^ (i + 4))).length = 13 - i := length_toBytes _ _
  have hset : (toBytes 17 P).set (13 - i) b =
      toBytes (13 - i) (P / 256 ^ (i + 4)) ++ b :: toBytes (i + 3) P := by
    rw [hsplit, List.set_append_right _ _ (by omega), hpre, Nat.sub_self, toBytes_succ,
      List.set_cons_zero]
  have hwire : s.wire P = b :: toBytes (i + 3) P := by
    rw [Slot.wire_eq_cons, hs, hb]
  rw [writeAt, if_pos (by simp; omega), hset, hwire]
  simp only [bind, Except.bind, readRange]
  rw [if_pos (by simp), List.drop_left' hpre, List.take_of_length_le (by simp)]

/-- **Folding the length** into the first nonzero byte, or in front of it, writes the number in the
first slot with room for it. -/
theorem foldLength_spec {P k : ℕ} (hP : P < 2 ^ 123) (hk : k < 13) (hlt : P < 256 ^ (k + 4))
    (hge : k = 0 ∨ 256 ^ (k + 3) ≤ P) : ∃ s, vlTable.fit P = some s ∧
      UUIDCondenser.foldLength (toBytes 17 P) (13 - k) k = .ok (s.wire P) := by
  obtain ⟨hfirst, hcol₀, hcol₁, hborrow⟩ := order_table
  have hdigit : P / 256 ^ (k + 3) < 256 := Nat.div_lt_of_lt_mul (by rw [← pow_succ]; exact hlt)
  have hread : readAt (toBytes 17 P) (13 - k) = .ok (UInt8.ofNat (P / 256 ^ (k + 3))) := by
    have hexp : 17 - 1 - (13 - k) = k + 3 := by omega
    rw [readAt, getElem?_toBytes _ _ _ (by omega), hexp]
  obtain ⟨htest₀, hmark₀⟩ := cell_table _ hdigit k hk false
  obtain ⟨htest₁, hmark₁⟩ := cell_table _ hdigit k hk true
  simp only [UUIDCondenser.foldLength, hread, vlAt_eq hk, bind, Except.bind, bne_iff_ne]
  rcases Nat.lt_or_ge (P / 256 ^ (k + 3)) (vlSlot k false).free with hroom₀ | hfull₀
  · -- the first column has room
    refine ⟨vlSlot k false, ?_, ?_⟩
    · rcases hge with rfl | hge
      · exact fit_of_le (vlSlot_mem 0 hk false)
          (fun t ht hsmall => absurd (hfirst t ht) (not_le.2 hsmall)) (Nat.zero_le _)
          (Slot.lt_cap_iff.2 hroom₀)
      · exact fit_of_le (vlSlot_mem k hk false) (hcol₀ k hk) hge (Slot.lt_cap_iff.2 hroom₀)
    · rw [if_neg (fun h => absurd (htest₀.1 h) (by omega))]
      exact write_slot (by omega) rfl (hmark₀ hroom₀)
  · rw [if_pos (htest₀.2 hfull₀)]
    have hge₀ : (vlSlot k false).cap ≤ P := by
      have hfull := mt Slot.lt_cap_iff.1 (not_lt.2 hfull₀)
      omega
    rcases Nat.lt_or_ge (P / 256 ^ (k + 3)) (vlSlot k true).free with hroom₁ | hfull₁
    · -- the second column has room
      refine ⟨vlSlot k true, ?_, ?_⟩
      · exact fit_of_le (vlSlot_mem k hk true) (hcol₁ k hk) hge₀ (Slot.lt_cap_iff.2 hroom₁)
      · rw [if_neg (fun h => absurd (htest₁.1 h) (by omega))]
        exact write_slot (by omega) rfl (hmark₁ hroom₁)
    · -- the row below has room, with a zero digit
      have hge₁ : (vlSlot k true).cap ≤ P := by
        have hfull := mt Slot.lt_cap_iff.1 (not_lt.2 hfull₁)
        omega
      have hk' : k < 12 := by
        rcases Nat.lt_or_ge k 12 with h | h
        · exact h
        · obtain rfl : k = 12 := by omega
          have hfree : (vlSlot 12 true).free = 16 := rfl
          omega
      have hzero : P / 256 ^ (k + 4) = 0 := Nat.div_eq_of_lt hlt
      have hindex : 13 - k - 1 = 13 - (k + 1) := by omega
      have hread' : readAt (toBytes 17 P) (13 - (k + 1)) = .ok (UInt8.ofNat 0) := by
        have hexp : 17 - 1 - (13 - (k + 1)) = k + 4 := by omega
        rw [readAt, getElem?_toBytes _ _ _ (by omega), hexp, hzero]
      have hrow : vlAt (k + 1) false = .ok (cellAt (k + 1) false) := vlAt_eq (by omega) false
      have hroom₂ : 0 < (vlSlot (k + 1) false).free := free_pos (k + 1) (by omega) false
      have hmark₂ := (cell_table 0 (by decide) (k + 1) (by omega) false).2 hroom₂
      refine ⟨vlSlot (k + 1) false, ?_, ?_⟩
      · exact fit_of_le (vlSlot_mem _ (by omega) false) (hborrow k hk') hge₁
          (Slot.lt_cap_iff.2 (by rw [extra_vlSlot, hzero]; exact hroom₂))
      · rw [if_pos (htest₁.2 hfull₁), if_neg (by omega), hindex, hread']
        simp only [hrow, hmark₂]
        exact write_slot (by omega) rfl (by rw [hzero])

/-- Skipping the zeros in front of the last four bytes. -/
theorem skipZeros_spec {P : ℕ} : ∀ n ≤ 13, P < 256 ^ (n + 3) →
    ∃ k < 13, UUIDCondenser.skipZeros (toBytes 17 P) n (13 - n) = .ok (13 - k) ∧
      P < 256 ^ (k + 4) ∧ (k = 0 ∨ 256 ^ (k + 3) ≤ P) := by
  -- induction on the bytes that may still be skipped, with all of them known to be zero so far
  intro n
  induction n with
  | zero =>
      intro _ hP
      exact ⟨0, by decide, rfl, by omega, Or.inl rfl⟩
  | succ n ih =>
      intro hn hP
      have hexp : 17 - 1 - (13 - (n + 1) + 1) = n + 3 := by omega
      have hindex : 13 - (n + 1) + 1 = 13 - n := by omega
      have hdigit : P / 256 ^ (n + 3) < 256 := Nat.div_lt_of_lt_mul (by rw [← pow_succ]; exact hP)
      have hread : readAt (toBytes 17 P) (13 - (n + 1) + 1) =
          .ok (UInt8.ofNat (P / 256 ^ (n + 3))) := by
        rw [readAt, getElem?_toBytes _ _ _ (by omega), hexp]
      have hzero : UInt8.ofNat (P / 256 ^ (n + 3)) = 0 ↔ P / 256 ^ (n + 3) = 0 := by
        rw [← UInt8.toNat_inj, UInt8.toNat_ofNat', Nat.mod_eq_of_lt hdigit]
        rfl
      simp only [UUIDCondenser.skipZeros, hread, bind, Except.bind, hzero]
      rw [hindex]
      split_ifs with hz
      · exact ih (by omega) ((Nat.div_eq_zero_iff_lt (by positivity)).1 hz)
      · refine ⟨n, by omega, rfl, hP, Or.inr ?_⟩
        by_contra hsmall
        exact hz (Nat.div_eq_of_lt (by omega))

/-- **Skipping and folding** writes a number in the first slot with room for it. -/
theorem skip_and_fold {P : ℕ} (hP : P < 2 ^ 123) : ∃ s ptr, vlTable.fit P = some s ∧
    UUIDCondenser.skipZeros (toBytes 17 P) 13 0 = .ok ptr ∧
      UUIDCondenser.foldLength (toBytes 17 P) ptr (13 - ptr) = .ok (s.wire P) := by
  obtain ⟨k, hk, hskip, hlt, hge⟩ := skipZeros_spec 13 le_rfl (show P < 256 ^ (13 + 3) by omega)
  obtain ⟨s, hfit, hfold⟩ := foldLength_spec hP hk hlt hge
  have hlen : 13 - (13 - k) = k := by omega
  refine ⟨s, 13 - k, hfit, hskip, ?_⟩
  rw [hlen]
  exact hfold

/-- The flag of a wire: the lowest bit of its last byte. -/
def compactWire (w : Bytes) : Bool := w.getLastD 0 &&& 1 != 0

/-- The flag is the lowest bit of the payload, in any slot. -/
theorem compactWire_slot {s : Slot} (hs : s ∈ vlTable.slots) (P : ℕ) :
    compactWire (s.wire P) = decide (P % 2 = 1) := by
  have hextra := three_le_extra s hs
  have hlast : (s.wire P).getLastD 0 = UInt8.ofNat (s.lead * 256 ^ s.extra + P) := by
    rw [Slot.wire, Nat.add_comm s.extra 1, Nat.add_comm 1 s.extra, toBytes_add s.extra 1]
    simp [toBytes]
  have heven : 2 ∣ s.lead * 256 ^ s.extra :=
    Dvd.dvd.mul_left (dvd_pow (by decide) (by omega)) _
  have hbit : (UInt8.ofNat (s.lead * 256 ^ s.extra + P) &&& 1).toNat = P % 2 := by
    rw [UInt8.toNat_and, UInt8.toNat_ofNat']
    simp only [UInt8.reduceToNat, Nat.and_one_is_mod]
    omega
  rw [compactWire, hlast]
  rcases Nat.mod_two_eq_zero_or_one P with hflag | hflag
  · have hzero : UInt8.ofNat (s.lead * 256 ^ s.extra + P) &&& 1 = 0 := by
      rw [← UInt8.toNat_inj, hbit, hflag]
      rfl
    rw [hzero, hflag]
    rfl
  · have hone : UInt8.ofNat (s.lead * 256 ^ s.extra + P) &&& 1 = 1 := by
      rw [← UInt8.toNat_inj, hbit, hflag]
      rfl
    rw [hone, hflag]
    rfl

namespace Layout

/-- The wire of a layout: its payload, in the first slot with room for it. -/
def wire (L : Layout) : Bytes :=
  match vlTable.fit L.payload with
  | some s => s.wire L.payload
  | none => []

/-- **`serialise` writes the wire**, and every layout has one. -/
theorem serialise_condenser (L : Layout) : ∃ s, vlTable.fit L.payload = some s ∧
    L.wire = s.wire L.payload ∧ L.condenser.serialise = .ok L.wire := by
  obtain ⟨b₀, b₁, hbuffers, hpayload⟩ := buffers_condenser L
  have hP := L.payload_lt
  have hb₁ := b₁.toNat_lt
  -- the buffer of the source: a zero and the two packed words
  have hbuf : (0 : UInt8) :: (pack64 .little b₀ ++ pack64 .little b₁) = toBytes 17 L.payload := by
    have hhigh : L.payload / 256 ^ 8 = b₀.toNat := by omega
    have hlow : toBytes 8 L.payload = toBytes 8 b₁.toNat := by
      rw [← toBytes_mod 8 L.payload]
      congr 1
      omega
    have hzero : L.payload / 256 ^ 16 = 0 := by omega
    rw [pack64_eq, pack64_eq, toBytes_succ 16, hzero, toBytes_add 8 8, hhigh, hlow]
    rfl
  obtain ⟨s, ptr, hfit, hskip, hfold⟩ := skip_and_fold hP
  have hwire : L.wire = s.wire L.payload := by rw [wire, hfit]
  refine ⟨s, hfit, hwire, ?_⟩
  simp only [UUIDCondenser.serialise, hbuffers, hbuf, bind, Except.bind, length_toBytes,
    Nat.reduceSub]
  rw [hskip, hwire, ← hfold]

theorem serialise_eq (L : Layout) : L.condenser.serialise = .ok L.wire :=
  let ⟨_, _, _, h⟩ := serialise_condenser L
  h

/-- The slot that a layout is written in. -/
theorem wire_eq (L : Layout) :
    ∃ s ∈ vlTable.slots, L.payload < s.cap ∧ L.wire = s.wire L.payload := by
  obtain ⟨s, hfit, hwire, -⟩ := serialise_condenser L
  obtain ⟨hs, hroom, -⟩ := Table.fit_eq_some_iff.1 hfit
  exact ⟨s, hs, hroom, hwire⟩

theorem four_le_length_wire (L : Layout) : 4 ≤ L.wire.length := by
  obtain ⟨s, hs, -, hwire⟩ := wire_eq L
  have hextra := three_le_extra s hs
  rw [hwire, Slot.length_wire]
  omega

/-- A wire is no longer than any slot with room for the payload. -/
theorem length_wire_le_of_lt_cap {L : Layout} {t : Slot} (ht : t ∈ vlTable.slots)
    (h : L.payload < t.cap) : L.wire.length ≤ t.extra + 1 := by
  obtain ⟨s, hfit, hwire, -⟩ := serialise_condenser L
  have hle := extra_le_extra s (Table.fit_eq_some_iff.1 hfit).1 t ht (Table.cap_le_of_fit hfit ht h)
  rw [hwire, Slot.length_wire]
  omega

/-- The slots of nine bytes hold numbers of 69 bits. -/
theorem length_wire_le {L : Layout} (h : L.payload < 2 ^ 69) : L.wire.length ≤ 9 :=
  length_wire_le_of_lt_cap (vlSlot_mem 5 (by decide) true) (lt_of_lt_of_le h (by decide))

/-- The last slot has room for every payload. -/
theorem length_wire_le_sixteen (L : Layout) : L.wire.length ≤ 16 :=
  length_wire_le_of_lt_cap (vlSlot_mem 12 (by decide) true)
    (lt_of_lt_of_le L.payload_lt (by decide))

/-- The flag of the wire of a layout is that of the layout. -/
theorem compactWire_wire (L : Layout) : compactWire L.wire = L.isCompact := by
  obtain ⟨s, hs, -, hwire⟩ := wire_eq L
  rw [hwire, compactWire_slot hs, payload_mod_two]
  cases L.isCompact <;> rfl

theorem decode_wire (L : Layout) (r : Bytes) : vlTable.decode (L.wire ++ r) = some (L.payload, r) := by
  obtain ⟨s, hs, hroom, hwire⟩ := wire_eq L
  rw [hwire]
  exact Table.decode_wire hs hroom r

/-- Distinct layouts have distinct wires. -/
theorem wire_injective : Function.Injective wire := by
  intro L L' h
  have hdec := decode_wire L []
  rw [h, decode_wire L' []] at hdec
  simp only [Option.some.injEq, Prod.mk.injEq, and_true] at hdec
  exact payload_injective hdec.symm

end Layout

/-! ### Reading -/

/-- What the first byte of a wire tells the reader: the row loop finds the row of the slot that
covers the byte, and the mask removes the lead; when no slot does, the loop runs to its end. -/
theorem first_byte_table : ∀ n < 256,
    let q := UInt8.ofNat n &&& 0xf0 != 0
    let i := vlRow (UInt8.ofNat n) q
    (vlTable.slotOf (UInt8.ofNat n) = none → i = 13) ∧
      ∀ s ∈ vlTable.slotOf (UInt8.ofNat n), i < 13 ∧ s.extra = i + 3 ∧
        UInt8.ofNat n &&& ~~~(cellAt i q).mask = UInt8.ofNat (n - s.lead) := by
  decide +kernel

theorem vlRow_of_slotOf_eq_none {b : UInt8} (h : vlTable.slotOf b = none) :
    vlRow b (b &&& 0xf0 != 0) = 13 := by
  obtain ⟨hnone, -⟩ := first_byte_table b.toNat b.toNat_lt
  rw [UInt8.ofNat_toNat] at hnone
  exact hnone h

theorem vlRow_of_slotOf {b : UInt8} {s : Slot} (h : vlTable.slotOf b = some s) :
    vlRow b (b &&& 0xf0 != 0) < 13 ∧ s.extra = vlRow b (b &&& 0xf0 != 0) + 3 ∧
      (b &&& ~~~(cellAt (vlRow b (b &&& 0xf0 != 0)) (b &&& 0xf0 != 0)).mask).toNat =
        b.toNat - s.lead := by
  have hb := b.toNat_lt
  obtain ⟨-, hsome⟩ := first_byte_table b.toNat hb
  simp only [UInt8.ofNat_toNat] at hsome
  obtain ⟨hi, hextra, hmask⟩ := hsome s h
  refine ⟨hi, hextra, ?_⟩
  rw [hmask, UInt8.toNat_ofNat', Nat.mod_eq_of_lt (by omega)]

namespace UUIDCondenser

/-- The condenser whose packed words are the high and the low half of a payload. -/
def ofPayload (P : ℕ) : UUIDCondenser := ofBuffers (UInt64.ofNat (P / 2 ^ 64)) (UInt64.ofNat P)

/-- Two words are the halves of the number that they write. -/
theorem ofPayload_words (b₀ b₁ : UInt64) :
    ofPayload (b₀.toNat * 2 ^ 64 + b₁.toNat) = ofBuffers b₀ b₁ := by
  have hb₀ := b₀.toNat_lt
  have hb₁ := b₁.toNat_lt
  have hhigh : UInt64.ofNat ((b₀.toNat * 2 ^ 64 + b₁.toNat) / 2 ^ 64) = b₀ := by
    rw [← UInt64.toNat_inj, UInt64.toNat_ofNat']
    omega
  have hlow : UInt64.ofNat (b₀.toNat * 2 ^ 64 + b₁.toNat) = b₁ := by
    rw [← UInt64.toNat_inj, UInt64.toNat_ofNat']
    omega
  rw [ofPayload, hhigh, hlow]

/-- The fields of a payload of at most 128 bits. -/
theorem layout_ofPayload {P : ℕ} (h : P < 2 ^ 128) : (ofPayload P).layout = Layout.ofPayload P := by
  rw [ofPayload, Layout.layout_ofBuffers]
  congr 1
  simp only [UInt64.toNat_ofNat']
  omega

/-- What is unpacked from the payload of a layout has its fields. -/
theorem layout_ofPayload_payload (L : Layout) : (ofPayload L.payload).layout = L := by
  have hP := L.payload_lt
  rw [layout_ofPayload (by omega), Layout.ofPayload_payload]

/-- Unpacking the two words of the 17 bytes of a payload. -/
theorem unpack64_toBytes (P : ℕ) :
    unpack64 .little (toBytes 17 P) 1 = .ok (UInt64.ofNat (P / 2 ^ 64)) ∧
      unpack64 .little (toBytes 17 P) 9 = .ok (UInt64.ofNat P) := by
  have hmod : ∀ x : ℕ, UInt64.ofNat (x % 256 ^ 8) = UInt64.ofNat x := by
    intro x
    apply UInt64.toNat_inj.1
    simp only [UInt64.toNat_ofNat']
    omega
  constructor
  · rw [unpack64_eq _ (by simp), take_drop_toBytes 1 8 8, ofBytes_toBytes, hmod]
    rfl
  · rw [unpack64_eq _ (by simp), take_drop_toBytes 9 8 0, ofBytes_toBytes, hmod, pow_zero,
      Nat.div_one]

/-- What the reader does to its buffer: it copies the wire behind zeros, and replaces the first byte
of the copy by one without the length bits.  The buffer then holds the number of these bytes. -/
theorem copy_and_mask (b : UInt8) {l : Bytes} {i : ℕ} (hi : i < 13) (hlen : i + 3 ≤ l.length) :
    readRange (b :: l) 0 (i + 4) = .ok (b :: l.take (i + 3)) ∧
      readAt (List.replicate (17 - (i + 4)) 0 ++ b :: l.take (i + 3)) (17 - (i + 4)) = .ok b ∧
      ∀ d, writeAt (List.replicate (17 - (i + 4)) 0 ++ b :: l.take (i + 3)) (17 - (i + 4)) d =
        .ok (toBytes 17 (d.toNat * 256 ^ (i + 3) + ofBytes (l.take (i + 3)))) := by
  have htake : (l.take (i + 3)).length = i + 3 := by simp [hlen]
  have hstart : (List.replicate (17 - (i + 4)) (0 : UInt8)).length = 17 - (i + 4) := by simp
  refine ⟨?_, ?_, fun d => ?_⟩
  · rw [readRange, if_pos (by simp; omega)]
    rfl
  · rw [readAt, List.getElem?_append_right (by simp), hstart, Nat.sub_self]
    rfl
  · have hset : (List.replicate (17 - (i + 4)) 0 ++ b :: l.take (i + 3)).set (17 - (i + 4)) d =
        List.replicate (17 - (i + 4)) 0 ++ d :: l.take (i + 3) := by
      rw [List.set_append_right _ _ (by simp), hstart, Nat.sub_self, List.set_cons_zero]
    have hvalue : ofBytes (List.replicate (17 - (i + 4)) 0 ++ d :: l.take (i + 3)) =
        d.toNat * 256 ^ (i + 3) + ofBytes (l.take (i + 3)) := by
      rw [ofBytes_replicate_zero_append, ofBytes_cons, htake]
    have hround := toBytes_ofBytes (List.replicate (17 - (i + 4)) 0 ++ d :: l.take (i + 3))
    have hseventeen : (List.replicate (17 - (i + 4)) 0 ++ d :: l.take (i + 3)).length = 17 := by
      simp only [List.length_append, hstart, List.length_cons, htake]
      omega
    rw [hvalue, hseventeen] at hround
    rw [writeAt, if_pos (by simp), hset, hround]

/-- **The reader's buffer** holds the number that the slot of the first byte writes. -/
theorem unfold_eq (b : UInt8) {l : Bytes} {i : ℕ} (q : Bool) (hi : i < 13)
    (hlen : i + 3 ≤ l.length) : unfold (b :: l) i q (i + 4) =
      .ok (ofPayload ((b &&& ~~~(cellAt i q).mask).toNat * 256 ^ (i + 3) +
        ofBytes (l.take (i + 3)))) := by
  obtain ⟨hsrc, hread, hwrite⟩ := copy_and_mask b hi hlen
  obtain ⟨hword₀, hword₁⟩ := unpack64_toBytes
    ((b &&& ~~~(cellAt i q).mask).toNat * 256 ^ (i + 3) + ofBytes (l.take (i + 3)))
  have hmax : uuidMaxSerialisedLength = 17 := rfl
  have hroom : ¬ uuidMaxSerialisedLength < i + 4 := by omega
  simp only [unfold, hsrc, bind, Except.bind]
  rw [if_neg hroom, hmax]
  simp only [vlAt_eq hi, hread, hwrite, hword₀, hword₁]
  rfl

/-- The steps of `unserialise` on a nonempty input. -/
theorem unserialise_cons (b : UInt8) (l : Bytes) : unserialise (b :: l) =
    let q := b &&& 0xf0 != 0
    let i := vlRow b q
    let length := if i < 13 then i + 4 else l.length + 1 + 1
    if l.length + 1 < length then
      .error (.serialisationError "Bad condensed UUID") (b :: l)
    else
      match unfold (b :: l) i q length with
      | .ok c => .ok c ((b :: l).drop length)
      | .error e => .error e (b :: l) := by
  unfold unserialise
  dsimp only [bind, EStateM.bind, MonadState.get, getThe, MonadStateOf.get, EStateM.get,
    Reader.access, readAt, List.getElem?_cons_zero, pure, EStateM.pure]
  rw [List.length_cons]
  generalize (if vlRow b (b &&& 0xf0 != 0) < 13 then vlRow b (b &&& 0xf0 != 0) + 4
    else l.length + 1 + 1) = length
  split_ifs with hshort
  · rfl
  · generalize unfold (b :: l) (vlRow b (b &&& 0xf0 != 0)) (b &&& 0xf0 != 0) length = result
    cases result <;> rfl

/-- **`unserialise` decodes by the table**, and leaves its input alone when it fails. -/
theorem unserialise_eq (b : UInt8) (l : Bytes) : unserialise (b :: l) =
    match vlTable.decode (b :: l) with
    | some (P, r) => .ok (ofPayload P) r
    | none => .error (.serialisationError "Bad condensed UUID") (b :: l) := by
  rw [unserialise_cons]
  cases hslot : vlTable.slotOf b with
  | none =>
      -- no row matches, and the length stays beyond the input
      simp only [Table.decode, hslot, vlRow_of_slotOf_eq_none hslot]
      rw [if_pos (by simp)]
  | some s =>
      obtain ⟨hi, hextra, hmask⟩ := vlRow_of_slotOf hslot
      simp only [Table.decode, hslot, hextra]
      rw [if_pos hi]
      rcases Nat.lt_or_ge l.length (vlRow b (b &&& 0xf0 != 0) + 3) with hshort | hlen
      · rw [if_pos (by omega), if_neg (by omega)]
      · rw [if_neg (by omega), if_pos hlen, unfold_eq b _ hi hlen, hmask]
        rfl

/-- An accepted payload has at most 128 bits. -/
theorem payload_lt_of_decode {bs r : Bytes} {P : ℕ} (h : vlTable.decode bs = some (P, r)) :
    P < 2 ^ 128 := by
  obtain ⟨s, hs, hP, -⟩ := Table.decode_eq_some_iff.1 h
  have hcap : ∀ s ∈ vlTable.slots, s.cap ≤ 2 ^ 128 := by decide +kernel
  exact lt_of_lt_of_le hP (hcap s hs)

/-- An accepted payload starts with neither of the bytes 0 and 1, and has at least four bytes. -/
theorem head_of_decode {bs r : Bytes} {P : ℕ} (h : vlTable.decode bs = some (P, r)) :
    ∃ b l, bs = b :: l ∧ b ≠ 0 ∧ b ≠ 1 ∧ 3 ≤ l.length := by
  have hzero : vlTable.slotOf 0 = none := by decide +kernel
  have hone : vlTable.slotOf 1 = none := by decide +kernel
  cases bs with
  | nil => simp [Table.decode] at h
  | cons b l =>
      cases hslot : vlTable.slotOf b with
      | none => simp [Table.decode, hslot] at h
      | some s =>
          obtain ⟨hs, -⟩ := Table.slotOf_eq_some_iff.1 hslot
          have hlen : s.extra ≤ l.length := by
            by_contra hshort
            simp [Table.decode, hslot, hshort] at h
          refine ⟨b, l, rfl, ?_, ?_, (three_le_extra s hs).trans hlen⟩
          · rintro rfl
            simp [hzero] at hslot
          · rintro rfl
            simp [hone] at hslot

/-- **Reading a wire** gives the condenser of its payload, whatever follows. -/
theorem unserialise_wire_eq (L : Layout) (r : Bytes) :
    unserialise (L.wire ++ r) = .ok (ofPayload L.payload) r := by
  have hdec := L.decode_wire r
  obtain ⟨b, l, hbl, -⟩ := head_of_decode hdec
  rw [hbl, unserialise_eq, ← hbl, hdec]

/-- That condenser has the fields that were written. -/
theorem unserialise_wire (L : Layout) (r : Bytes) :
    ∃ c, unserialise (L.wire ++ r) = .ok c r ∧ c.layout = L :=
  ⟨_, unserialise_wire_eq L r, layout_ofPayload_payload L⟩

end UUIDCondenser

end Cuuid
