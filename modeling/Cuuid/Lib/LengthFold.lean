/-
**Numbers whose length is folded into their first byte.**

A number is written big-endian in one of several *slots*.  A slot fixes how many bytes follow the
first one and reserves an interval of first bytes for itself; the position inside the interval
carries the highest digit of the number.  When the intervals of the slots are disjoint, the first
byte tells the slot, hence the length, and no separate length byte is needed.

A writer takes the first slot that is large enough, so a table is ordered by capacity.  This
module is a general one: a table is any list of slots with disjoint intervals.

Main definitions:

* `LengthFold.Slot`, `LengthFold.Slot.wire` — a slot, and a number written in it;
* `LengthFold.Table` — slots with disjoint intervals, in order of capacity;
* `LengthFold.Table.fit`, `LengthFold.Table.slotOf` — the slot chosen for a number, and the slot
  named by a first byte;
* `LengthFold.Table.decode` — reading a number off the front of a list of bytes.

Main results:

* `LengthFold.Table.decode_wire`, `LengthFold.Table.decode_eq_some_iff` — **decoding inverts
  writing**, and accepts nothing but numbers written in a slot;
* `LengthFold.Table.wire_lt_wire_iff` — two wires compare by slot first and by number inside a
  slot: **the order of the numbers is kept exactly when the slots are in the order of their
  leads**;
* `LengthFold.Table.wire_lt_wire_iff_of_fit` — two wires in the slots chosen for them compare as the
  numbers do, as long as these slots are in the order of their leads;
* `LengthFold.Table.take_wire_eq_iff` — **when wires begin alike**;
* `LengthFold.Table.fit_digit_iff` — **the numbers behind a first byte**, if there are any.
-/

import Mathlib.Data.List.Pairwise
import Cuuid.Lib.BigEndian

set_option relaxedAutoImplicit false
set_option autoImplicit false

namespace LengthFold

open BigEndian

/-! ### Slots -/

/-- A slot: `extra` bytes after the first, and the first bytes `lead, …, lead + free - 1`. -/
structure Slot where
  /-- The number of bytes after the first one. -/
  extra : ℕ
  /-- The least first byte of the slot. -/
  lead : ℕ
  /-- The number of first bytes of the slot. -/
  free : ℕ
deriving DecidableEq, Repr

namespace Slot

/-- The numbers below the capacity are those the slot can hold. -/
def cap (s : Slot) : ℕ := s.free * 256 ^ s.extra

/-- Whether a first byte belongs to the slot. -/
def Covers (s : Slot) (b : ℕ) : Prop := s.lead ≤ b ∧ b < s.lead + s.free

instance (s : Slot) (b : ℕ) : Decidable (s.Covers b) :=
  inferInstanceAs (Decidable (_ ∧ _))

/-- Whether two slots have no first byte in common. -/
def Apart (s t : Slot) : Prop := s.lead + s.free ≤ t.lead ∨ t.lead + t.free ≤ s.lead

instance (s t : Slot) : Decidable (s.Apart t) := inferInstanceAs (Decidable (_ ∨ _))

instance : Std.Symm Apart where
  symm _ _ h := h.symm

/-- The number `n` written in the slot. -/
def wire (s : Slot) (n : ℕ) : List UInt8 :=
  toBytes (s.extra + 1) (s.lead * 256 ^ s.extra + n)

@[simp] theorem length_wire (s : Slot) (n : ℕ) : (s.wire n).length = s.extra + 1 := by
  simp [wire]

/-- A slot has room for a number when it has a first byte for the number's digit. -/
theorem lt_cap_iff {s : Slot} {n : ℕ} : n < s.cap ↔ n / 256 ^ s.extra < s.free :=
  (Nat.div_lt_iff_lt_mul (by positivity)).symm

theorem covers_digit {s : Slot} {n : ℕ} (hn : n < s.cap) :
    s.Covers (s.lead + n / 256 ^ s.extra) :=
  ⟨Nat.le_add_right _ _, Nat.add_lt_add_left (lt_cap_iff.1 hn) _⟩

theorem covers_lead {s : Slot} {n : ℕ} (hn : n < s.cap) : s.Covers s.lead := by
  have hfree : 0 < s.free := Nat.zero_lt_of_lt (lt_cap_iff.1 hn)
  exact ⟨le_rfl, Nat.lt_add_of_pos_right hfree⟩

/-- The first byte of a wire is the lead plus the highest digit; the rest are the low bytes. -/
theorem wire_eq_cons (s : Slot) (n : ℕ) :
    s.wire n = UInt8.ofNat (s.lead + n / 256 ^ s.extra) :: toBytes s.extra n := by
  have hpos : 0 < 256 ^ s.extra := by positivity
  have hdiv : (s.lead * 256 ^ s.extra + n) / 256 ^ s.extra = s.lead + n / 256 ^ s.extra := by
    rw [Nat.mul_comm, Nat.mul_add_div hpos]
  have hmod : (s.lead * 256 ^ s.extra + n) % 256 ^ s.extra = n % 256 ^ s.extra := by
    rw [Nat.mul_comm, Nat.mul_add_mod]
  rw [wire, toBytes_succ, hdiv, ← toBytes_mod s.extra (_ + n), hmod, toBytes_mod]

/-- Any bytes of the right number after a first byte of the slot write a number in it. -/
theorem wire_of_covers {s : Slot} {b : UInt8} {u : List UInt8} (hb : s.Covers b.toNat)
    (hu : u.length = s.extra) :
    (b.toNat - s.lead) * 256 ^ s.extra + ofBytes u < s.cap ∧
      s.wire ((b.toNat - s.lead) * 256 ^ s.extra + ofBytes u) = b :: u := by
  obtain ⟨hlead, hfree⟩ := hb
  have hpos : 0 < 256 ^ s.extra := by positivity
  have hlow := ofBytes_lt u
  rw [hu] at hlow
  have hdig : ((b.toNat - s.lead) * 256 ^ s.extra + ofBytes u) / 256 ^ s.extra =
      b.toNat - s.lead := by
    rw [Nat.mul_comm, Nat.mul_add_div hpos, Nat.div_eq_of_lt hlow, Nat.add_zero]
  have hrest : toBytes s.extra ((b.toNat - s.lead) * 256 ^ s.extra + ofBytes u) = u := by
    have hmod : ((b.toNat - s.lead) * 256 ^ s.extra + ofBytes u) % 256 ^ s.extra = ofBytes u := by
      rw [Nat.mul_comm, Nat.mul_add_mod, Nat.mod_eq_of_lt hlow]
    have hround := toBytes_ofBytes u
    rw [hu] at hround
    rw [← toBytes_mod, hmod, hround]
  constructor
  · rw [lt_cap_iff, hdig]
    omega
  · rw [wire_eq_cons, hdig, hrest, Nat.add_sub_cancel' hlead, UInt8.ofNat_toNat]

/-- Inside one slot the wires compare as the numbers do. -/
theorem wire_lt_wire_iff_of_eq {s : Slot} (hs : s.lead + s.free ≤ 256) {m n : ℕ} (hm : m < s.cap)
    (hn : n < s.cap) : s.wire m < s.wire n ↔ m < n := by
  have hbound : ∀ k, k < s.cap → s.lead * 256 ^ s.extra + k < 256 ^ (s.extra + 1) := by
    intro k hk
    calc s.lead * 256 ^ s.extra + k < s.lead * 256 ^ s.extra + s.free * 256 ^ s.extra :=
          Nat.add_lt_add_left hk _
      _ = (s.lead + s.free) * 256 ^ s.extra := by ring
      _ ≤ 256 * 256 ^ s.extra := Nat.mul_le_mul_right _ hs
      _ = 256 ^ (s.extra + 1) := by ring
  rw [wire, wire, toBytes_lt_toBytes_iff (hbound m hm) (hbound n hn)]
  omega

end Slot

/-! ### Tables -/

/-- Slots with disjoint intervals of first bytes, listed in order of capacity. -/
structure Table where
  /-- The slots. -/
  slots : List Slot
  /-- Every first byte is a byte. -/
  byteSized : ∀ s ∈ slots, s.lead + s.free ≤ 256
  /-- A first byte belongs to one slot at most. -/
  disjoint : slots.Pairwise Slot.Apart
  /-- Later slots hold more. -/
  increasing : slots.Pairwise fun s t => s.cap < t.cap

namespace Table

variable (T : Table)

/-- The first slot that can hold `n`. -/
def fit (n : ℕ) : Option Slot := T.slots.find? fun s => decide (n < s.cap)

/-- The slot named by a first byte. -/
def slotOf (b : UInt8) : Option Slot := T.slots.find? fun s => decide (s.Covers b.toNat)

/-- Reads a number off the front of a list of bytes, returning the bytes after it. -/
def decode : List UInt8 → Option (ℕ × List UInt8)
  | [] => none
  | b :: l =>
      match T.slotOf b with
      | none => none
      | some s =>
          if s.extra ≤ l.length then
            some ((b.toNat - s.lead) * 256 ^ s.extra + ofBytes (l.take s.extra), l.drop s.extra)
          else none

variable {T}

/-- Two slots of a table that cover a common byte are the same. -/
theorem eq_of_covers {s t : Slot} (hs : s ∈ T.slots) (ht : t ∈ T.slots) {b : ℕ}
    (hbs : s.Covers b) (hbt : t.Covers b) : s = t := by
  by_contra hne
  obtain ⟨h₁, h₂⟩ := hbs
  obtain ⟨h₃, h₄⟩ := hbt
  rcases T.disjoint.forall hs ht hne with h | h <;> omega

/-- A table has one slot of each capacity. -/
theorem eq_of_cap_eq {s t : Slot} (hs : s ∈ T.slots) (ht : t ∈ T.slots) (h : s.cap = t.cap) :
    s = t := by
  by_contra hne
  have hcaps : T.slots.Pairwise fun x y => x.cap ≠ y.cap := T.increasing.imp ne_of_lt
  have : Std.Symm fun x y : Slot => x.cap ≠ y.cap := ⟨fun _ _ hxy => hxy.symm⟩
  exact hcaps.forall hs ht hne h

theorem slotOf_eq_some_iff {b : UInt8} {s : Slot} :
    T.slotOf b = some s ↔ s ∈ T.slots ∧ s.Covers b.toNat := by
  constructor
  · intro h
    exact ⟨List.mem_of_find?_eq_some h, by simpa using List.find?_some h⟩
  · rintro ⟨hs, hb⟩
    cases h : T.slotOf b with
    | none => exact absurd hb (by simpa using List.find?_eq_none.1 h s hs)
    | some t =>
        have ht : t.Covers b.toNat := by simpa using List.find?_some h
        rw [eq_of_covers (List.mem_of_find?_eq_some h) hs ht hb]

theorem slotOf_digit {s : Slot} (hs : s ∈ T.slots) {n : ℕ} (hn : n < s.cap) :
    T.slotOf (UInt8.ofNat (s.lead + n / 256 ^ s.extra)) = some s := by
  have hcov := Slot.covers_digit hn
  have hbyte := T.byteSized s hs
  refine slotOf_eq_some_iff.2 ⟨hs, ?_⟩
  rwa [UInt8.toNat_ofNat', Nat.mod_eq_of_lt (by have := hcov.2; omega)]

/-- **Decoding inverts writing**, whatever follows. -/
theorem decode_wire {s : Slot} (hs : s ∈ T.slots) {n : ℕ} (hn : n < s.cap) (r : List UInt8) :
    T.decode (s.wire n ++ r) = some (n, r) := by
  have hcov := Slot.covers_digit hn
  have hbyte := T.byteSized s hs
  have hhead : (UInt8.ofNat (s.lead + n / 256 ^ s.extra)).toNat = s.lead + n / 256 ^ s.extra := by
    rw [UInt8.toNat_ofNat', Nat.mod_eq_of_lt (by have := hcov.2; omega)]
  have hlen := length_toBytes s.extra n
  have htake : (toBytes s.extra n ++ r).take s.extra = toBytes s.extra n := List.take_left' hlen
  have hdrop : (toBytes s.extra n ++ r).drop s.extra = r := List.drop_left' hlen
  have hval : n / 256 ^ s.extra * 256 ^ s.extra + n % 256 ^ s.extra = n := Nat.div_add_mod' _ _
  rw [Slot.wire_eq_cons, List.cons_append, decode, slotOf_digit hs hn]
  simp only [hhead, htake, hdrop, ofBytes_toBytes, List.length_append, hlen]
  rw [if_pos (by omega), Nat.add_sub_cancel_left, hval]

/-- **What is decoded was written in a slot**. -/
theorem decode_eq_some_iff {bs : List UInt8} {n : ℕ} {r : List UInt8} :
    T.decode bs = some (n, r) ↔ ∃ s ∈ T.slots, n < s.cap ∧ bs = s.wire n ++ r := by
  constructor
  · intro h
    cases bs with
    | nil => simp [decode] at h
    | cons b l =>
        cases hb : T.slotOf b with
        | none => simp [decode, hb] at h
        | some s =>
            obtain ⟨hs, hcov⟩ := slotOf_eq_some_iff.1 hb
            simp only [decode, hb] at h
            split at h
            · rename_i hlen
              obtain ⟨rfl, rfl⟩ := by simpa using h
              have htake : (l.take s.extra).length = s.extra := by simp [hlen]
              obtain ⟨hroom, hwire⟩ := Slot.wire_of_covers hcov htake
              refine ⟨s, hs, hroom, ?_⟩
              rw [hwire, List.cons_append, List.take_append_drop]
            · simp at h
  · rintro ⟨s, hs, hn, rfl⟩
    exact decode_wire hs hn r

/-- The slot chosen for a number is the least one that can hold it. -/
theorem cap_le_of_fit {n : ℕ} {s t : Slot} (h : T.fit n = some s) (ht : t ∈ T.slots)
    (hn : n < t.cap) : s.cap ≤ t.cap := by
  obtain ⟨-, us, vs, hsplit, hus⟩ := List.find?_eq_some_iff_append.1 h
  have hpair := T.increasing
  rw [hsplit] at ht hpair
  rcases List.mem_append.1 ht with htu | htv
  · exact absurd hn (by simpa using hus t htu)
  · rcases List.mem_cons.1 htv with rfl | htv
    · exact le_rfl
    · exact (List.rel_of_pairwise_cons (List.pairwise_append.1 hpair).2.1 htv).le

theorem fit_eq_some_iff {n : ℕ} {s : Slot} :
    T.fit n = some s ↔ s ∈ T.slots ∧ n < s.cap ∧ ∀ t ∈ T.slots, n < t.cap → s.cap ≤ t.cap := by
  constructor
  · intro h
    exact ⟨List.mem_of_find?_eq_some h, by simpa using List.find?_some h,
      fun t ht hn => cap_le_of_fit h ht hn⟩
  · rintro ⟨hs, hn, hmin⟩
    cases h : T.fit n with
    | none => exact absurd hn (by simpa using List.find?_eq_none.1 h s hs)
    | some t =>
        have hnt : n < t.cap := by simpa using List.find?_some h
        have ht : t ∈ T.slots := List.mem_of_find?_eq_some h
        have hcap : t.cap = s.cap := le_antisymm (cap_le_of_fit h hs hn) (hmin t ht hnt)
        rw [eq_of_cap_eq ht hs hcap]

/-- **Order of wires.**  Two wires compare by the leads of their slots first, and inside one slot
by their numbers. -/
theorem wire_lt_wire_iff {s t : Slot} (hs : s ∈ T.slots) (ht : t ∈ T.slots) {m n : ℕ}
    (hm : m < s.cap) (hn : n < t.cap) :
    s.wire m < t.wire n ↔ s.lead < t.lead ∨ s = t ∧ m < n := by
  have hsb := T.byteSized s hs
  have htb := T.byteSized t ht
  by_cases hst : s = t
  · subst hst
    rw [Slot.wire_lt_wire_iff_of_eq hsb hm hn]
    simp
  · obtain ⟨h₁, h₂⟩ := Slot.covers_digit hm
    obtain ⟨h₃, h₄⟩ := Slot.covers_digit hn
    have hapart := T.disjoint.forall hs ht hst
    rw [Slot.Apart] at hapart
    rw [Slot.wire_eq_cons, Slot.wire_eq_cons, List.cons_lt_cons_iff, UInt8.lt_iff_toNat_lt,
      ← UInt8.toNat_inj, UInt8.toNat_ofNat', UInt8.toNat_ofNat', Nat.mod_eq_of_lt (by omega),
      Nat.mod_eq_of_lt (by omega)]
    simp only [hst, false_and, or_false]
    constructor
    · rintro (h | ⟨h, -⟩) <;> omega
    · intro h
      left
      omega

/-- One lead belongs to one slot. -/
theorem eq_iff_lead {s t : Slot} (hs : s ∈ T.slots) (ht : t ∈ T.slots) {m n : ℕ} (hm : m < s.cap)
    (hn : n < t.cap) : s = t ↔ s.lead = t.lead := by
  constructor
  · rintro rfl
    rfl
  · intro hlead
    exact eq_of_covers hs ht (Slot.covers_lead hm) (hlead ▸ Slot.covers_lead hn)

theorem wire_lt_wire_iff_lead {s t : Slot} (hs : s ∈ T.slots) (ht : t ∈ T.slots) {m n : ℕ}
    (hm : m < s.cap) (hn : n < t.cap) :
    s.wire m < t.wire n ↔ s.lead < t.lead ∨ s.lead = t.lead ∧ m < n := by
  rw [wire_lt_wire_iff hs ht hm hn, eq_iff_lead hs ht hm hn]

/-- **When the order of the numbers is kept.**  Two numbers in the slots chosen for them compare as
their wires do, if the leads of the slots are in the order of their capacities. -/
theorem wire_lt_wire_iff_of_fit {s t : Slot} {m n : ℕ} (hs : T.fit m = some s)
    (ht : T.fit n = some t) (hlead : s.lead < t.lead ↔ s.cap < t.cap) :
    s.wire m < t.wire n ↔ m < n := by
  obtain ⟨hsT, hm, -⟩ := fit_eq_some_iff.1 hs
  obtain ⟨htT, hn, -⟩ := fit_eq_some_iff.1 ht
  rw [wire_lt_wire_iff hsT htT hm hn, hlead]
  constructor
  · rintro (hcap | ⟨-, hlt⟩)
    · -- the larger slot is only chosen for what the smaller one cannot hold
      by_contra hnm
      have hle := cap_le_of_fit ht hsT (by omega)
      omega
    · exact hlt
  · intro hlt
    have hle := cap_le_of_fit hs htT (hlt.trans hn)
    rcases hle.lt_or_eq with hcap | hcap
    · exact Or.inl hcap
    · exact Or.inr ⟨eq_of_cap_eq hsT htT hcap, hlt⟩

/-! ### Beginnings of wires -/

/-- Whether a slot holds a number is told by what the number has in front of its last bytes. -/
theorem lt_cap_of_div_eq {s : Slot} {m n d : ℕ} (hd : d ≤ s.extra)
    (h : m / 256 ^ d = n / 256 ^ d) (hm : m < s.cap) : n < s.cap := by
  obtain ⟨k, hk⟩ := Nat.exists_eq_add_of_le hd
  rw [Slot.lt_cap_iff, hk, pow_add, ← Nat.div_div_eq_div_mul] at hm ⊢
  rwa [← h]

/-- Numbers that agree in front of their last bytes have one slot, if it has these bytes. -/
theorem eq_of_div_eq {s t : Slot} {m n d : ℕ} (hs : T.fit m = some s) (ht : T.fit n = some t)
    (hds : d ≤ s.extra) (hdt : d ≤ t.extra) (h : m / 256 ^ d = n / 256 ^ d) : s = t := by
  obtain ⟨hsT, hm, -⟩ := fit_eq_some_iff.1 hs
  obtain ⟨htT, hn, -⟩ := fit_eq_some_iff.1 ht
  exact eq_of_cap_eq hsT htT (le_antisymm (cap_le_of_fit hs htT (lt_cap_of_div_eq hdt h.symm hn))
    (cap_le_of_fit ht hsT (lt_cap_of_div_eq hds h hm)))

/-- The first byte of a wire tells its slot. -/
theorem eq_of_head_eq {s t : Slot} (hs : s ∈ T.slots) (ht : t ∈ T.slots) {m n : ℕ} (hm : m < s.cap)
    (hn : n < t.cap) (h : (s.wire m).head? = (t.wire n).head?) : s = t := by
  have hcovers := Slot.covers_digit hm
  have hcovers' := Slot.covers_digit hn
  have hsb := T.byteSized s hs
  have htb := T.byteSized t ht
  obtain ⟨-, hlt⟩ := hcovers
  obtain ⟨-, hlt'⟩ := hcovers'
  rw [Slot.wire_eq_cons, Slot.wire_eq_cons, List.head?_cons, List.head?_cons, Option.some.injEq,
    ← UInt8.toNat_inj, UInt8.toNat_ofNat', UInt8.toNat_ofNat', Nat.mod_eq_of_lt (by omega),
    Nat.mod_eq_of_lt (by omega)] at h
  exact eq_of_covers hs ht (Slot.covers_digit hm) (h ▸ Slot.covers_digit hn)

/-- A wire without its last bytes. -/
theorem take_wire (s : Slot) (n : ℕ) {d : ℕ} (hd : d ≤ s.extra) :
    (s.wire n).take (s.extra + 1 - d) =
      UInt8.ofNat (s.lead + n / 256 ^ s.extra) :: toBytes (s.extra - d) (n / 256 ^ d) := by
  obtain ⟨k, hk⟩ := Nat.exists_eq_add_of_le' hd
  have hlen : s.extra + 1 - d = k + 1 := by omega
  have hrest : s.extra - d = k := by omega
  rw [Slot.wire_eq_cons, hlen, hrest, List.take_succ_cons]
  congr 1
  rw [hk, toBytes_add, List.take_left' (length_toBytes k _)]

/-- **When wires begin alike.**  Two wires without their last `d` bytes are the same exactly when
the numbers are, without these bytes. -/
theorem take_wire_eq_iff {s t : Slot} {m n d : ℕ} (hs : T.fit m = some s) (ht : T.fit n = some t)
    (hds : d ≤ s.extra) (hdt : d ≤ t.extra) :
    (s.wire m).take (s.extra + 1 - d) = (t.wire n).take (t.extra + 1 - d) ↔
      m / 256 ^ d = n / 256 ^ d := by
  obtain ⟨hsT, hm, -⟩ := fit_eq_some_iff.1 hs
  obtain ⟨htT, hn, -⟩ := fit_eq_some_iff.1 ht
  constructor
  · intro htake
    have hhead := congrArg List.head? htake
    rw [List.head?_take, List.head?_take, if_neg (by omega), if_neg (by omega)] at hhead
    obtain rfl := eq_of_head_eq hsT htT hm hn hhead
    rw [take_wire s m hds, take_wire s n hds, List.cons.injEq] at htake
    obtain ⟨hfirst, hrest⟩ := htake
    have hsb := T.byteSized s hsT
    obtain ⟨-, hlt⟩ := Slot.covers_digit hm
    obtain ⟨-, hlt'⟩ := Slot.covers_digit hn
    rw [← UInt8.toNat_inj, UInt8.toNat_ofNat', UInt8.toNat_ofNat', Nat.mod_eq_of_lt (by omega),
      Nat.mod_eq_of_lt (by omega)] at hfirst
    obtain ⟨k, hk⟩ := Nat.exists_eq_add_of_le hds
    have hlow := congrArg ofBytes hrest
    rw [ofBytes_toBytes, ofBytes_toBytes, hk, Nat.add_sub_cancel_left] at hlow
    rw [hk, pow_add, ← Nat.div_div_eq_div_mul, ← Nat.div_div_eq_div_mul] at hfirst
    rw [← Nat.div_add_mod (m / 256 ^ d) (256 ^ k), ← Nat.div_add_mod (n / 256 ^ d) (256 ^ k), hlow,
      Nat.add_left_cancel hfirst]
  · intro h
    obtain rfl := eq_of_div_eq hs ht hds hdt h
    obtain ⟨k, hk⟩ := Nat.exists_eq_add_of_le hds
    have hdigit : m / 256 ^ s.extra = n / 256 ^ s.extra := by
      rw [hk, pow_add, ← Nat.div_div_eq_div_mul, h, Nat.div_div_eq_div_mul]
    rw [take_wire s m hds, take_wire s n hds, hdigit, h]

/-- Wires that leave different numbers of bytes begin differently. -/
theorem take_wire_ne {s t : Slot} (hs : s ∈ T.slots) (ht : t ∈ T.slots) {m n d d' : ℕ}
    (hm : m < s.cap) (hn : n < t.cap) (hd : d ≤ s.extra) (hd' : d' ≤ t.extra) (hne : d ≠ d') :
    (s.wire m).take (s.extra + 1 - d) ≠ (t.wire n).take (t.extra + 1 - d') := by
  intro htake
  have hhead := congrArg List.head? htake
  rw [List.head?_take, List.head?_take, if_neg (by omega), if_neg (by omega)] at hhead
  obtain rfl := eq_of_head_eq hs ht hm hn hhead
  have hlen := congrArg List.length htake
  rw [List.length_take, List.length_take, Slot.length_wire, Slot.length_wire] at hlen
  omega

/-! ### First bytes -/

/-- The least number that is written behind a first byte of a slot: it has the digit of that byte, and
no smaller slot holds it. -/
def leastOf (T : Table) (s : Slot) (b : ℕ) : ℕ :=
  ((T.slots.filter fun t => t.cap < s.cap).map Slot.cap).foldr max ((b - s.lead) * 256 ^ s.extra)

theorem foldr_max_le_iff (l : List ℕ) (a n : ℕ) : l.foldr max a ≤ n ↔ a ≤ n ∧ ∀ x ∈ l, x ≤ n := by
  induction l with
  | nil => simp
  | cons x l ih =>
      rw [List.foldr_cons, max_le_iff, ih, List.forall_mem_cons]
      tauto

/-- **The numbers behind a first byte.**  A number is written behind a first byte of its slot exactly
when it is at least the least one, and has the digit of that byte. -/
theorem fit_digit_iff {s : Slot} (hs : s ∈ T.slots) {b n : ℕ} (hb : s.Covers b) :
    T.fit n = some s ∧ s.lead + n / 256 ^ s.extra = b ↔
      T.leastOf s b ≤ n ∧ n < (b - s.lead + 1) * 256 ^ s.extra := by
  obtain ⟨hlead, hfree⟩ := hb
  have hpos : 0 < 256 ^ s.extra := by positivity
  have hdigit : s.lead + n / 256 ^ s.extra = b ↔
      (b - s.lead) * 256 ^ s.extra ≤ n ∧ n < (b - s.lead + 1) * 256 ^ s.extra := by
    rw [← Nat.le_div_iff_mul_le hpos, ← Nat.div_lt_iff_lt_mul hpos]
    omega
  have hsmaller : (∀ x ∈ (T.slots.filter fun t => t.cap < s.cap).map Slot.cap, x ≤ n) ↔
      ∀ t ∈ T.slots, n < t.cap → s.cap ≤ t.cap := by
    simp only [List.mem_map, List.mem_filter, decide_eq_true_eq]
    constructor
    · intro h t ht hn
      by_contra hlt
      have hle := h t.cap ⟨t, ⟨ht, by omega⟩, rfl⟩
      omega
    · rintro h x ⟨t, ⟨ht, hcap⟩, rfl⟩
      by_contra hlt
      have hle := h t ht (by omega)
      omega
  rw [leastOf, foldr_max_le_iff, hsmaller, hdigit, fit_eq_some_iff]
  constructor
  · rintro ⟨⟨-, -, hmin⟩, hlo, hhi⟩
    exact ⟨⟨hlo, hmin⟩, hhi⟩
  · rintro ⟨⟨hlo, hmin⟩, hhi⟩
    refine ⟨⟨hs, ?_, hmin⟩, hlo, hhi⟩
    exact lt_of_lt_of_le hhi (Nat.mul_le_mul_right _ (by omega))

end Table

end LengthFold
