/-
**The text form in base 59.**

A wire travels in text as a tilde and the base 59 digits of the number that its bytes write, with a
check character behind them.  This module embeds the class `BaseX` of `strings_demo.py` and the
alphabet `b59`.  A number has no zeros in front, so bytes come back from their text without the zeros
they began with; this is why no wire of the library begins with one, and neither does any of the
prototypes.

The class ignores the check character when it reads a text, and skips the characters outside its
alphabet, except those of the string `translate`: these count as the digit `-1`.  A text whose first
digit is one of them stands for a negative number, and the loop that writes out the bytes of a number
never ends on it.

Main definitions:

* `Cuuid.Prototype.BaseX`, `Cuuid.Prototype.b59` — an alphabet, and the one that is used;
* `Cuuid.Prototype.BaseX.encode`, `Cuuid.Prototype.BaseX.decode` — bytes to text, and back.

Main results:

* `Cuuid.Prototype.BaseX.round_trip_iff` — **which bytes come back**;
* `Cuuid.Prototype.BaseX.endless_iff` — **which texts the reader never finishes**;
* `Cuuid.Prototype.BaseX.canonical_iff` — **which texts the writer makes**;
* `Cuuid.Prototype.BaseX.encode_substitution` — **the check character** tells texts apart that differ
  in one place;
* `Cuuid.Prototype.wire_text` — **wires travel in text**.
-/

import Mathlib.Data.Nat.Digits.Lemmas
import Mathlib.Algebra.BigOperators.Ring.Finset
import Mathlib.Data.Int.ModEq
import Cuuid.Lib.Radix
import Cuuid.Form
import Cuuid.Migration
import Cuuid.Prototype.Cpp
import Cuuid.Prototype.JavaScript

set_option relaxedAutoImplicit false
set_option autoImplicit false

namespace Cuuid.Prototype

open BigEndian Radix Unbounded

/-- An alphabet of at least two distinct Latin-1 characters, with a table of 256 entries to look them
up.  The constructor of the source asks none of this; its only alphabet, `b59`, is of this kind. -/
structure BaseX where
  /-- The digits, in the order of their values. -/
  alphabet : List Char
  /-- Characters beyond the alphabet that count as digits. -/
  translate : List Char
  /-- There are at least two digits. -/
  two_le : 2 ≤ alphabet.length
  /-- No character is two digits. -/
  nodup : alphabet.Nodup
  /-- Every character has an entry of the table. -/
  latin1 : ∀ a ∈ alphabet ++ translate, a.toNat < 256

namespace BaseX

variable (x : BaseX)

def base : ℤ := x.alphabet.length

/-- The table of the decoder.  An entry that is the base marks a character to be skipped. -/
def decoder : List ℤ :=
  let decoder := List.replicate 256 x.base
  let decoder := x.alphabet.zipIdx.foldl (fun decoder a => decoder.set a.1.toNat a.2) decoder
  x.translate.foldl (fun decoder a =>
    let i := decoder.getD a.toNat 0
    decoder.set a.toNat (if i < x.base then i else -1)) decoder

/-- The character `alphabet[i]`; the index is a remainder modulo the base. -/
def charAt (i : ℤ) : Char := x.alphabet.getD i.toNat ' '

/-- The loop of `_encode_int`. -/
def encodeIntLoop : ℕ → ℤ → List Char → ℤ → Option (List Char × ℤ)
  | 0, _, _, _ => none
  | n + 1, i, s, chk =>
      if i = 0 then some (s, chk)
      else
        let idx := Int.fmod i x.base
        encodeIntLoop n (Int.fdiv i x.base) (x.charAt idx :: s) (chk + idx)

def encodeInt (i : ℤ) : Option (List Char × ℤ) := do
  let (s, chk) ← x.encodeIntLoop (i.toNat + 1) i [] 0
  let chk := chk + (s.length + Int.fdiv s.length x.base)
  some (s, Int.fmod chk x.base)

/-- The text of some bytes. -/
def encode (v : Bytes) : Option (List Char) := do
  let (acc, _) := v.reverse.foldl
    (fun (s : ℤ × ℤ) c => (s.1 + s.2 * (c.toNat : ℤ), s.2 <<< (8 : ℕ))) (0, 1)
  let (result, chk) ← x.encodeInt acc
  let chk := Int.fmod (x.base - Int.fmod chk x.base) x.base
  some (result ++ [x.charAt chk])

/-- The first loop of `decode`. -/
def accumulate : List Char → ℤ → Except Failure ℤ
  | [], acc => .ok acc
  | ch :: v, acc =>
      match x.decoder[ch.toNat]? with
      | none => .error (.fault .outOfRange)
      | some i => accumulate v (if i < x.base then acc * x.base + i else acc)

/-- The second loop of `decode`, which ends in `none` when it does not end. -/
def outLoop : ℕ → ℤ → Bytes → Option Bytes
  | 0, _, _ => none
  | n + 1, acc, out =>
      if acc = 0 then some out.reverse
      else outLoop n (acc >>> (8 : ℕ)) (out ++ [UInt8.ofNat (Int.land acc 0xFF).toNat])

/-- The bytes of a text. -/
def decode (v : List Char) : Except Failure (Option Bytes) := do
  let acc ← x.accumulate v.dropLast 0
  .ok (outLoop (acc.toNat + 1) acc [])

/-! ### Looking a character up -/

/-- The digit that a character counts as; one that is the base or more is skipped. -/
def digit (c : Char) : ℤ :=
  if c ∈ x.alphabet then x.alphabet.idxOf c else if c ∈ x.translate then -1 else x.base

theorem length_foldl_set {α : Type} (f : α → ℕ) (g : List ℤ → α → ℤ) (as : List α) (d : List ℤ) :
    (as.foldl (fun d a => d.set (f a) (g d a)) d).length = d.length := by
  induction as generalizing d with
  | nil => rfl
  | cons a as ih => rw [List.foldl_cons, ih, List.length_set]

theorem getElem?_foldl_alphabet {as : List Char} (hnodup : as.Nodup)
    (hlatin : ∀ a ∈ as, a.toNat < 256) (k : ℕ) {d : List ℤ} (hd : d.length = 256) (c : Char) :
    ((as.zipIdx k).foldl (fun decoder (a : Char × ℕ) => decoder.set a.1.toNat (a.2 : ℤ)) d)[c.toNat]? =
      if c ∈ as then some ((k + as.idxOf c : ℕ) : ℤ) else d[c.toNat]? := by
  induction as generalizing k d with
  | nil => simp
  | cons a as ih =>
      have ha := hlatin a (List.mem_cons_self ..)
      have hrest := fun b hb => hlatin b (List.mem_cons_of_mem a hb)
      obtain ⟨hnot, hnodup⟩ := List.nodup_cons.1 hnodup
      rw [List.zipIdx_cons, List.foldl_cons,
        ih hnodup hrest (k + 1) (by rw [List.length_set, hd])]
      by_cases hc : c = a
      · subst hc
        rw [if_neg hnot, if_pos (List.mem_cons_self ..), List.getElem?_set_self (hd ▸ ha),
          List.idxOf_cons_self, Nat.add_zero]
      · have hne : a.toNat ≠ c.toNat := fun h => hc (Char.toNat_inj.1 h.symm)
        by_cases hmem : c ∈ as
        · rw [if_pos hmem, if_pos (List.mem_cons_of_mem a hmem), List.idxOf_cons_ne _ (Ne.symm hc)]
          congr 2
          omega
        · rw [if_neg hmem, if_neg (by simp [hc, hmem]), List.getElem?_set_ne hne]

theorem getElem?_foldl_translate (b : ℤ) (hb : 0 ≤ b) {as : List Char}
    (hlatin : ∀ a ∈ as, a.toNat < 256) {d : List ℤ} (hd : d.length = 256) (c : Char) {i : ℤ}
    (hi : d[c.toNat]? = some i) :
    (as.foldl (fun decoder a =>
      let i := decoder.getD a.toNat 0
      decoder.set a.toNat (if i < b then i else -1)) d)[c.toNat]? =
      some (if c ∈ as ∧ ¬ i < b then -1 else i) := by
  induction as generalizing d i with
  | nil => simpa using hi
  | cons a as ih =>
      have ha := hlatin a (List.mem_cons_self ..)
      have hrest := fun b hb => hlatin b (List.mem_cons_of_mem a hb)
      have hlen : ∀ j, (d.set a.toNat j).length = 256 := fun j => by rw [List.length_set, hd]
      rw [List.foldl_cons]
      by_cases hc : c = a
      · subst hc
        have hget : d.getD c.toNat 0 = i := by rw [List.getD_eq_getElem?_getD, hi]; rfl
        rw [ih hrest (hlen _) (List.getElem?_set_self (hd ▸ ha)), hget]
        by_cases hlt : i < b
        · simp [hlt]
        · simp only [hlt, if_false, List.mem_cons_self, not_false_eq_true, and_self, if_true]
          rw [if_neg (by omega)]
      · have hne : a.toNat ≠ c.toNat := fun h => hc (Char.toNat_inj.1 h.symm)
        rw [ih hrest (hlen _) ((List.getElem?_set_ne hne).trans hi)]
        simp [hc]

theorem length_decoder : x.decoder.length = 256 := by
  rw [decoder, length_foldl_set Char.toNat,
    length_foldl_set (fun a : Char × ℕ => a.1.toNat) fun _ a => (a.2 : ℤ)]
  exact List.length_replicate

theorem idxOf_lt_base {c : Char} (hc : c ∈ x.alphabet) : (x.alphabet.idxOf c : ℤ) < x.base :=
  Int.ofNat_lt.2 (List.idxOf_lt_length_of_mem hc)

theorem decoder_eq {c : Char} (hc : c.toNat < 256) : x.decoder[c.toNat]? = some (x.digit c) := by
  have hbase : (0 : ℤ) ≤ x.base := Int.natCast_nonneg _
  have hall := List.forall_mem_append.1 x.latin1
  have hlen : (List.replicate 256 x.base).length = 256 := List.length_replicate
  have hfirst := getElem?_foldl_alphabet x.nodup hall.1 0 hlen c
  have hlength := (length_foldl_set (fun a : Char × ℕ => a.1.toNat) (fun _ a => (a.2 : ℤ))
    x.alphabet.zipIdx (List.replicate 256 x.base)).trans hlen
  rw [Nat.zero_add, List.getElem?_replicate_of_lt hc, ← apply_ite some] at hfirst
  rw [decoder, getElem?_foldl_translate x.base hbase hall.2 hlength c hfirst, digit]
  by_cases hmem : c ∈ x.alphabet
  · simp [hmem, x.idxOf_lt_base hmem]
  · by_cases htr : c ∈ x.translate <;> simp [hmem, htr]

/-- A digit of the alphabet is the one of its character. -/
theorem digit_charAt {i : ℤ} (hlo : 0 ≤ i) (hhi : i < x.base) :
    x.charAt i ∈ x.alphabet ∧ x.digit (x.charAt i) = i := by
  obtain ⟨d, rfl⟩ := Int.eq_ofNat_of_zero_le hlo
  have hlt : d < x.alphabet.length := Int.ofNat_lt.1 hhi
  rw [charAt, Int.toNat_natCast, List.getD_eq_getElem _ _ hlt]
  refine ⟨List.getElem_mem hlt, ?_⟩
  rw [digit, if_pos (List.getElem_mem hlt), x.nodup.idxOf_getElem]

/-- The characters of the alphabet are told by their digits. -/
theorem charAt_digit {c : Char} (hc : c ∈ x.alphabet) : 0 ≤ x.digit c ∧ x.charAt (x.digit c) = c := by
  have hlt := List.idxOf_lt_length_of_mem hc
  rw [digit, if_pos hc, charAt, Int.toNat_natCast, List.getD_eq_getElem _ _ hlt]
  exact ⟨Int.natCast_nonneg _, List.getElem_idxOf hlt⟩

theorem digit_lt_base {c : Char} (hc : c ∈ x.alphabet) : x.digit c < x.base := by
  rw [digit, if_pos hc]
  exact x.idxOf_lt_base hc

/-! ### Writing -/

/-- The digits of a number, as characters. -/
def numeral (n : ℕ) : List Char :=
  (Nat.digits x.alphabet.length n).reverse.map fun d : ℕ => x.charAt d

/-- The value of the check character behind the digits of a number. -/
def check (n : ℕ) : ℤ :=
  let ds := Nat.digits x.alphabet.length n
  Int.fmod (x.base - Int.fmod (Int.fmod (ds.sum + (ds.length + Int.fdiv ds.length x.base)) x.base)
    x.base) x.base

theorem map_digit_numeral (n : ℕ) : (x.numeral n).map x.digit =
    (Nat.digits x.alphabet.length n).reverse.map Nat.cast := by
  rw [numeral, List.map_map]
  refine List.map_congr_left fun d hd => ?_
  have hlt := Nat.digits_lt_base x.two_le (List.mem_reverse.1 hd)
  exact (x.digit_charAt (Int.natCast_nonneg d) (Int.ofNat_lt.2 hlt)).2

theorem mem_alphabet_of_mem_numeral {n : ℕ} {c : Char} (hc : c ∈ x.numeral n) : c ∈ x.alphabet := by
  obtain ⟨d, hd, rfl⟩ := List.mem_map.1 hc
  have hlt := Nat.digits_lt_base x.two_le (List.mem_reverse.1 hd)
  exact (x.digit_charAt (Int.natCast_nonneg d) (Int.ofNat_lt.2 hlt)).1

theorem encodeIntLoop_natCast {fuel n : ℕ} (h : n < fuel) (s : List Char) (chk : ℤ) :
    x.encodeIntLoop fuel n s chk =
      some (x.numeral n ++ s, chk + (Nat.digits x.alphabet.length n).sum) := by
  induction fuel generalizing n s chk with
  | zero => omega
  | succ fuel ih =>
      rcases Nat.eq_zero_or_pos n with rfl | hpos
      · simp [encodeIntLoop, numeral]
      · have hdiv : n / x.alphabet.length < fuel :=
          lt_of_lt_of_le (Nat.div_lt_self hpos x.two_le) (Nat.le_of_lt_succ h)
        have hmod : Int.fmod (n : ℤ) x.base = ((n % x.alphabet.length : ℕ) : ℤ) := by
          rw [base, Int.fmod_eq_emod_of_nonneg _ (Int.natCast_nonneg _), Int.natCast_mod]
        have hquot : Int.fdiv (n : ℤ) x.base = ((n / x.alphabet.length : ℕ) : ℤ) := by
          rw [base, Int.fdiv_eq_ediv_of_nonneg _ (Int.natCast_nonneg _), Int.natCast_div]
        rw [encodeIntLoop, if_neg (by omega), hmod, hquot, ih hdiv]
        simp only [numeral, Nat.digits_def' x.two_le hpos, List.reverse_cons, List.map_append,
          List.map_cons, List.map_nil, List.append_assoc, List.singleton_append, List.sum_cons]
        push_cast
        rw [Int.add_assoc]

theorem foldl_bytes (v : Bytes) : v.reverse.foldl
    (fun (s : ℤ × ℤ) c => (s.1 + s.2 * (c.toNat : ℤ), s.2 <<< (8 : ℕ))) (0, 1) =
      ((ofBytes v : ℤ), ((256 ^ v.length : ℕ) : ℤ)) := by
  rw [List.foldl_reverse]
  induction v with
  | nil => rfl
  | cons b v ih =>
      rw [List.foldr_cons, ih, ofBytes_cons, shiftLeft_natCast, List.length_cons, pow_succ]
      dsimp only
      push_cast
      rw [Int.add_comm, Int.mul_comm, ← pow_succ]

/-- The text of some bytes is the numeral of their number, with a check character behind it. -/
theorem encode_eq (v : Bytes) :
    x.encode v = some (x.numeral (ofBytes v) ++ [x.charAt (x.check (ofBytes v))]) := by
  have hlen : (x.numeral (ofBytes v)).length = (Nat.digits x.alphabet.length (ofBytes v)).length := by
    simp [numeral]
  simp only [encode, encodeInt, foldl_bytes, Int.toNat_natCast,
    x.encodeIntLoop_natCast (Nat.lt_succ_self _), bind, Option.bind, List.append_nil, hlen, check,
    Int.zero_add]

/-! ### Reading -/

/-- The values of the digits among some characters. -/
def values (t : List Char) : List ℤ := (t.map x.digit).filter (· < x.base)

/-- The first loop accumulates the digits among its characters. -/
theorem accumulate_eq {t : List Char} (ht : ∀ c ∈ t, c.toNat < 256) (acc : ℤ) :
    x.accumulate t acc = .ok (horner x.base acc (x.values t)) := by
  induction t generalizing acc with
  | nil => rfl
  | cons c t ih =>
      have hc := ht c (List.mem_cons_self ..)
      rw [accumulate, x.decoder_eq hc]
      dsimp only
      rw [ih fun d hd => ht d (List.mem_cons_of_mem c hd)]
      by_cases hlt : x.digit c < x.base
      · rw [if_pos hlt, values, values, List.map_cons, List.filter_cons_of_pos (by simpa using hlt),
          horner_cons]
      · rw [if_neg hlt, values, values, List.map_cons, List.filter_cons_of_neg (by simpa using hlt)]

/-- A character that has no entry of the table ends the first loop in an error. -/
theorem accumulate_error {t : List Char} (ht : ¬ ∀ c ∈ t, c.toNat < 256) (acc : ℤ) :
    x.accumulate t acc = .error (.fault .outOfRange) := by
  induction t generalizing acc with
  | nil => simp at ht
  | cons c t ih =>
      rw [accumulate]
      by_cases hc : c.toNat < 256
      · have hrest : ¬ ∀ d ∈ t, d.toNat < 256 := by
          intro h
          exact ht (List.forall_mem_cons.2 ⟨hc, h⟩)
        rw [x.decoder_eq hc]
        exact ih hrest _
      · rw [List.getElem?_eq_none (by rw [length_decoder]; omega)]

/-- A numeral is read digit by digit. -/
theorem values_numeral (n : ℕ) :
    x.values (x.numeral n) = (Nat.digits x.alphabet.length n).reverse.map Nat.cast := by
  rw [values, List.filter_eq_self.2, map_digit_numeral]
  intro z hz
  obtain ⟨c, hc, rfl⟩ := List.mem_map.1 hz
  exact decide_eq_true (x.digit_lt_base (x.mem_alphabet_of_mem_numeral hc))

/-- The second loop writes out the bytes of a natural number. -/
theorem outLoop_natCast {fuel n : ℕ} (h : n < fuel) (out : Bytes) :
    outLoop fuel n out = some (((Nat.digits 256 n).reverse.map UInt8.ofNat) ++ out.reverse) := by
  induction fuel generalizing n out with
  | zero => omega
  | succ fuel ih =>
      rcases Nat.eq_zero_or_pos n with rfl | hpos
      · simp [outLoop]
      · have hlow : Int.land (n : ℤ) 0xFF = ((n % 256 : ℕ) : ℤ) := land_mask_natCast n 8 rfl
        rw [outLoop, if_neg (by omega), shiftRight_natCast, hlow, Int.toNat_natCast,
          ih (n := n / 2 ^ 8) (by omega), Nat.digits_def' (by decide) hpos]
        simp

/-- The second loop never ends on a negative number. -/
theorem outLoop_neg (fuel : ℕ) {acc : ℤ} (h : acc < 0) (out : Bytes) : outLoop fuel acc out = none := by
  induction fuel generalizing acc out with
  | zero => rfl
  | succ fuel ih =>
      have hshift : acc >>> (8 : ℕ) < 0 := by
        rw [Int.shiftRight_eq_div_pow]
        exact Int.ediv_neg_of_neg_of_pos h (by decide)
      rw [outLoop, if_neg (by omega), ih hshift]

/-- The text of some bytes is read as these bytes without the zeros in front. -/
theorem decode_numeral (v : Bytes) (c : Char) :
    x.decode (x.numeral (ofBytes v) ++ [c]) = .ok (some (v.dropWhile (· = 0))) := by
  have hlatin : ∀ c ∈ x.numeral (ofBytes v), c.toNat < 256 := fun c hc =>
    x.latin1 c (List.mem_append_left _ (x.mem_alphabet_of_mem_numeral hc))
  have hread : horner x.base 0 (x.values (x.numeral (ofBytes v))) = (ofBytes v : ℤ) := by
    rw [values_numeral, base, horner_digits]
  have hbytes : ((v.dropWhile (· = 0)).map UInt8.toNat).map UInt8.ofNat = v.dropWhile (· = 0) := by
    rw [List.map_map]
    exact List.map_id'' (fun b => UInt8.ofNat_toNat) _
  simp only [decode, List.dropLast_concat, x.accumulate_eq hlatin, hread, bind, Except.bind,
    Int.toNat_natCast, outLoop_natCast (Nat.lt_succ_self _), digits_ofBytes, hbytes,
    List.reverse_nil, List.append_nil]

/-! ### What comes back -/

/-- **Which bytes come back.**  Every byte string has a text, which is read as that byte string without
the zeros in front; so what does not begin with a zero comes back. -/
theorem round_trip_iff (v : Bytes) : ∃ t, x.encode v = some t ∧
    x.decode t = .ok (some (v.dropWhile (· = 0))) ∧
    (x.decode t = .ok (some v) ↔ v.head? ≠ some 0) := by
  refine ⟨_, x.encode_eq v, x.decode_numeral v _, ?_⟩
  rw [decode_numeral, Except.ok.injEq, Option.some.injEq]
  cases v with
  | nil => simp
  | cons b v =>
      by_cases hb : b = 0
      · rw [List.dropWhile_cons_of_pos (by simpa using hb)]
        refine iff_of_false (fun h => ?_) (by simp [hb])
        have hle := (List.dropWhile_sublist (fun b : UInt8 => decide (b = 0)) (l := v)).length_le
        rw [h, List.length_cons] at hle
        omega
      · rw [List.dropWhile_cons_of_neg (by simpa using hb)]
        exact iff_of_true rfl (by simpa using hb)

/-! ### Texts that are never finished -/

theorem digit_lt_base_iff (c : Char) : x.digit c < x.base ↔ c ∈ x.alphabet ++ x.translate := by
  have hbase : (0 : ℤ) ≤ x.base := Int.natCast_nonneg _
  rw [List.mem_append, digit]
  split_ifs with hmem htr
  · exact iff_of_true (x.idxOf_lt_base hmem) (Or.inl hmem)
  · exact iff_of_true (by omega) (Or.inr htr)
  · exact iff_of_false (lt_irrefl _) (by tauto)

theorem digit_neg_iff (c : Char) : x.digit c < 0 ↔ c ∈ x.translate ∧ c ∉ x.alphabet := by
  have hbase : (0 : ℤ) ≤ x.base := Int.natCast_nonneg _
  rw [digit]
  split_ifs with hmem htr
  · exact iff_of_false (by omega) (by tauto)
  · exact iff_of_true (by decide) ⟨htr, hmem⟩
  · exact iff_of_false (by omega) (by tauto)

/-- The first character of the alphabet is the digit zero, and no other counts as it. -/
theorem digit_eq_zero_iff (c : Char) : x.digit c = 0 ↔ c = x.charAt 0 := by
  have htwo := x.two_le
  have hbase : (2 : ℤ) ≤ x.base := Int.ofNat_le.2 htwo
  have hfirst : x.charAt 0 = x.alphabet.get ⟨0, by omega⟩ :=
    List.getD_eq_getElem _ _ (by omega)
  rw [hfirst, digit]
  split_ifs with hmem htr
  · rw [Int.natCast_eq_zero]
    constructor
    · intro h
      have hget := List.idxOf_get (List.idxOf_lt_length_of_mem hmem)
      rw [← hget]
      simp only [h]
    · rintro rfl
      exact x.nodup.idxOf_getElem 0 (by omega)
  · refine iff_of_false (by decide) ?_
    rintro rfl
    exact hmem (List.get_mem _ _)
  · refine iff_of_false (by omega) ?_
    rintro rfl
    exact hmem (List.get_mem _ _)

/-- The digits of a text lie strictly between minus the base and the base. -/
theorem values_lt (t : List Char) : ∀ d ∈ x.values t, -x.base < d ∧ d < x.base := by
  have hbase : (2 : ℤ) ≤ x.base := Int.ofNat_le.2 x.two_le
  intro d hd
  obtain ⟨hd, hlt⟩ := List.mem_filter.1 hd
  obtain ⟨c, -, rfl⟩ := List.mem_map.1 hd
  refine ⟨?_, by simpa using hlt⟩
  rw [digit]
  split_ifs <;> omega

/-- The turns that `decode` allows for the second loop are too few only where no number of them is
enough. -/
theorem outLoop_eq_none_iff (acc : ℤ) :
    (outLoop (acc.toNat + 1) acc [] = none ↔ acc < 0) ∧
    (outLoop (acc.toNat + 1) acc [] = none ↔ ∀ turns, outLoop turns acc [] = none) := by
  rcases lt_or_ge acc 0 with hneg | hpos
  · have hnone := fun turns => outLoop_neg turns hneg []
    exact ⟨iff_of_true (hnone _) hneg, iff_of_true (hnone _) hnone⟩
  · obtain ⟨n, rfl⟩ := Int.eq_ofNat_of_zero_le hpos
    have hends := outLoop_natCast (Nat.lt_succ_self n) []
    rw [Int.toNat_natCast, hends]
    refine ⟨iff_of_false (by simp) (by omega), iff_of_false (by simp) fun h => ?_⟩
    simp [h] at hends

/-- **Which texts the reader never finishes.**  A reader of Latin-1 text does not end, whatever the
number of turns, exactly when the first of the characters in front of the check character that
counts, and is not the digit zero, is one of `translate` outside the alphabet: the number of such a
text is negative. -/
theorem endless_iff (t : List Char) :
    (x.decode t = .ok none ↔
      ∃ acc, x.accumulate t.dropLast 0 = .ok acc ∧ ∀ turns, outLoop turns acc [] = none) ∧
    (x.decode t = .ok none ↔ (∀ c ∈ t.dropLast, c.toNat < 256) ∧
      ∃ c ∈ x.translate, c ∉ x.alphabet ∧
        ((t.dropLast.filter (· ∈ x.alphabet ++ x.translate)).dropWhile (· = x.charAt 0)).head? =
          some c) := by
  by_cases hlatin : ∀ c ∈ t.dropLast, c.toNat < 256
  · have hvalues : x.values t.dropLast =
        (t.dropLast.filter (· ∈ x.alphabet ++ x.translate)).map x.digit := by
      rw [values, List.filter_map]
      congr 2
      funext c
      exact decide_eq_decide.2 (x.digit_lt_base_iff c)
    have hzeros : (fun d : ℤ => decide (d = 0)) ∘ x.digit = fun c => decide (c = x.charAt 0) := by
      funext c
      exact decide_eq_decide.2 (x.digit_eq_zero_iff c)
    rw [and_iff_right hlatin, decode, x.accumulate_eq hlatin]
    simp only [bind, Except.bind, Except.ok.injEq]
    refine ⟨by simp [(outLoop_eq_none_iff _).2], ?_⟩
    rw [(outLoop_eq_none_iff _).1, horner_neg_iff (x.values_lt _), hvalues, List.dropWhile_map, hzeros,
      List.head?_map]
    constructor
    · rintro ⟨d, hd, hneg⟩
      obtain ⟨c, hc, rfl⟩ := Option.map_eq_some_iff.1 hd
      obtain ⟨htr, hmem⟩ := (x.digit_neg_iff c).1 hneg
      exact ⟨c, htr, hmem, hc⟩
    · rintro ⟨c, htr, hmem, hc⟩
      exact ⟨x.digit c, by rw [hc]; rfl, (x.digit_neg_iff c).2 ⟨htr, hmem⟩⟩
  · rw [decode, x.accumulate_error hlatin]
    exact ⟨by simp [bind, Except.bind],
      iff_of_false (by simp [bind, Except.bind]) fun h => hlatin h.1⟩

/-! ### Texts of the writer -/

/-- The check of a text: its digits, the number of those in front of the check character, and that
number divided by the base, add up to a multiple of the base. -/
def Checked (t : List Char) : Prop :=
  x.base ∣ (t.map x.digit).sum + ((t.length - 1) + Int.fdiv (t.length - 1) x.base)

/-- The check character is the only one of the alphabet that checks a numeral. -/
theorem checked_numeral_iff (n : ℕ) {c : Char} (hc : c ∈ x.alphabet) :
    x.Checked (x.numeral n ++ [c]) ↔ c = x.charAt (x.check n) := by
  have hbase : (0 : ℤ) < x.base := by
    have htwo := x.two_le
    rw [base]
    omega
  have hlen : ((x.numeral n ++ [c]).length : ℤ) - 1 = (Nat.digits x.alphabet.length n).length := by
    simp [numeral]
  have hsum : ((x.numeral n ++ [c]).map x.digit).sum =
      (Nat.digits x.alphabet.length n).sum + x.digit c := by
    rw [List.map_append, List.sum_append, map_digit_numeral, List.map_reverse, List.sum_reverse,
      Nat.cast_list_sum]
    simp
  obtain ⟨hlo, hchar⟩ := x.charAt_digit hc
  have hhi := x.digit_lt_base hc
  rw [Checked, hsum, hlen, check]
  generalize Int.fdiv ((Nat.digits x.alphabet.length n).length : ℤ) x.base = q
  generalize ((Nat.digits x.alphabet.length n).sum : ℤ) = sum
  generalize ((Nat.digits x.alphabet.length n).length : ℤ) = len
  simp only [Int.fmod_eq_emod_of_nonneg _ hbase.le, Int.emod_emod]
  rw [Int.add_right_comm, Int.add_comm]
  generalize sum + (len + q) = m
  have hdiv := Int.emod_add_mul_ediv m x.base
  have hneg : x.base - m % x.base = -m + x.base * (1 + m / x.base) := by linarith
  rw [hneg, Int.add_mul_emod_self_left]
  have hvalue : x.base ∣ x.digit c + m ↔ x.digit c = -m % x.base := by
    rw [← sub_neg_eq_add, ← Int.modEq_iff_dvd]
    constructor
    · intro h
      rw [h.eq, Int.emod_eq_of_lt hlo hhi]
    · intro h
      rw [Int.ModEq, ← h, Int.emod_eq_of_lt hlo hhi]
  rw [hvalue]
  constructor
  · intro h
    rw [← h, hchar]
  · rintro rfl
    exact (x.digit_charAt (Int.emod_nonneg _ hbase.ne') (Int.emod_lt_of_pos _ hbase)).2

/-- A text of the writer is over the alphabet, and checked. -/
theorem checked_of_encode {v : Bytes} {t : List Char} (h : x.encode v = some t) :
    (∀ a ∈ t, a ∈ x.alphabet) ∧ x.Checked t := by
  have hbase : (0 : ℤ) < x.base := Int.ofNat_lt.2 (lt_of_lt_of_le Nat.zero_lt_two x.two_le)
  rw [encode_eq, Option.some.injEq] at h
  subst h
  have hmem : x.charAt (x.check (ofBytes v)) ∈ x.alphabet :=
    (x.digit_charAt (Int.fmod_nonneg_of_pos _ hbase) (Int.fmod_lt_of_pos _ hbase)).1
  refine ⟨fun a ha => ?_, (x.checked_numeral_iff _ hmem).2 rfl⟩
  rcases List.mem_append.1 ha with ha | ha
  · exact x.mem_alphabet_of_mem_numeral ha
  · rwa [List.mem_singleton.1 ha]

/-- **The check character.**  A text with one of its characters replaced is not one that the writer
makes of anything. -/
theorem encode_substitution {v : Bytes} {p r : List Char} {a b : Char}
    (ha : x.encode v = some (p ++ a :: r)) (hne : b ≠ a) (v' : Bytes) :
    x.encode v' ≠ some (p ++ b :: r) := by
  intro hb
  obtain ⟨hmema, hchecka⟩ := x.checked_of_encode ha
  obtain ⟨hmemb, hcheckb⟩ := x.checked_of_encode hb
  obtain ⟨hloa, hchara⟩ := x.charAt_digit (hmema a (by simp))
  obtain ⟨hlob, hcharb⟩ := x.charAt_digit (hmemb b (by simp))
  have hhia := x.digit_lt_base (hmema a (by simp))
  have hhib := x.digit_lt_base (hmemb b (by simp))
  have hsub := Int.dvd_sub hchecka hcheckb
  simp only [List.map_append, List.map_cons, List.sum_append, List.sum_cons, List.length_append,
    List.length_cons] at hsub
  rw [add_sub_add_right_eq_sub, add_sub_add_left_eq_sub, add_sub_add_right_eq_sub] at hsub
  have heq : x.digit a - x.digit b = 0 := Int.eq_zero_of_abs_lt_dvd hsub (by rw [abs_lt]; omega)
  exact hne (by rw [← hchara, ← hcharb, sub_eq_zero.1 heq])

end BaseX

/-- The alphabet of Xapiand. -/
def b59 : BaseX where
  alphabet := "zGLUAC2EwdDRrkWBatmscxyYlg6jhP7K53TibenZpMVuvoO9H4XSQq8FfJN".toList
  translate := "~l1IO0".toList
  two_le := by decide
  nodup := by decide
  latin1 := by simp

/-- The text of three bytes, with its second character replaced. -/
theorem encode_substitution_three : b59.encode [1, 2, 3] = some ['m', 'J', '7', 'D'] ∧
    ∀ v, b59.encode v ≠ some ['m', 'N', '7', 'D'] := by
  have htext : b59.encode [1, 2, 3] = some ['m', 'J', '7', 'D'] := by decide
  exact ⟨htext, b59.encode_substitution (p := ['m']) (r := ['7', 'D']) htext (by decide)⟩

/-! ### Wires in text -/

/-- The text of a wire: a tilde, and its digits. -/
def tilde (wire : Bytes) : Option (List Char) := (b59.encode wire).map ('~' :: ·)

/-- Reads what follows the tilde. -/
def untilde (text : List Char) : Except Failure (Option Bytes) := b59.decode text.tail

/-- Whether a wire comes back from its text. -/
def TravelsInText (wire : Bytes) : Prop :=
  ∃ t, tilde wire = some t ∧ untilde t = .ok (some wire)

theorem travelsInText_of_head {wire : Bytes} (h : wire.head? ≠ some 0) : TravelsInText wire := by
  have hkeep : wire.dropWhile (· = 0) = wire := by
    cases wire with
    | nil => rfl
    | cons b l => exact List.dropWhile_cons_of_neg (by simpa using h)
  refine ⟨_, congrArg (Option.map _) (b59.encode_eq wire), ?_⟩
  exact (b59.decode_numeral wire _).trans (by rw [hkeep])

/-- A computation in two parts succeeds when both do. -/
theorem bind_eq_ok {ε α β : Type} {r : Except ε α} {f : α → Except ε β} {b : β}
    (h : r >>= f = .ok b) : ∃ a, r = .ok a ∧ f a = .ok b := by
  cases r with
  | error e => cases h
  | ok a => exact ⟨a, rfl, h⟩

theorem guarded_eq_ok {α : Type} {r : Except Fault α} {a : α} (h : guarded r = .ok a) :
    r = .ok a := by
  cases r with
  | error e => cases h
  | ok b => cases h; rfl

/-- The first byte that was read of a buffer, after it was written. -/
theorem head?_written {buf w : Bytes} {i n : ℕ} {b : UInt8}
    (h : (writeAt buf i b >>= fun buf => readRange buf i (n + 4)) = .ok w) : w.head? = some b := by
  have hi : i < buf.length := by
    by_contra hge
    rw [writeAt, if_neg hge] at h
    cases h
  rw [writeAt, if_pos hi] at h
  change readRange (buf.set i b) i (n + 4) = .ok w at h
  rw [readRange] at h
  split at h
  · cases h
    rw [List.head?_take, if_neg (by omega), List.head?_drop, List.getElem?_set_self hi]
  · cases h

/-- A byte with the length folded into it is not zero. -/
theorem or_pfx_ne_zero (b : UInt8) {i : ℕ} {q : Bool} {e : VlEntry} (he : tableAt vl i q = .ok e) :
    b ||| e.pfx ≠ 0 := by
  have hpfx : ∀ row ∈ vl, row.1.pfx ≠ 0 ∧ row.2.pfx ≠ 0 := by decide
  have hne : e.pfx ≠ 0 := by
    rw [tableAt] at he
    split at he
    · cases he
      have hrow := hpfx _ (List.mem_of_getElem? ‹_›)
      cases q
      · exact hrow.1
      · exact hrow.2
    · cases he
  intro h
  exact hne (UInt8.or_eq_zero_iff.1 h).2

/-- No wire of a buffer begins with a zero, whatever the buffer holds. -/
theorem head?_foldWire {buf w : Bytes} (h : foldWire vl buf = .ok w) : w.head? ≠ some 0 := by
  have hwritten : ∀ {ptr n i : ℕ} {b : UInt8} {q : Bool} {e : VlEntry}, tableAt vl i q = .ok e →
      (writeAt buf ptr (b ||| e.pfx) >>= fun buf => readRange buf ptr (n + 4)) = .ok w →
      w.head? ≠ some 0 := by
    intro ptr n i b q e he hw hzero
    rw [head?_written hw, Option.some.injEq] at hzero
    exact or_pfx_ne_zero b he hzero
  obtain ⟨ptr, -, h⟩ := bind_eq_ok h
  obtain ⟨b, -, h⟩ := bind_eq_ok h
  obtain ⟨e0, he0, h⟩ := bind_eq_ok h
  -- the three places that the length is folded into
  split at h
  · obtain ⟨e1, he1, h⟩ := bind_eq_ok h
    split at h
    · split at h
      · cases h
      · obtain ⟨z, -, h⟩ := bind_eq_ok h
        obtain ⟨e, he, h⟩ := bind_eq_ok h
        exact hwritten he h
    · exact hwritten he1 h
  · exact hwritten he0 h

/-- The wires of a list, one after the other, do not begin with a zero either. -/
theorem head?_flatten_wireOf (us : List UUID) : (us.map wireOf).flatten.head? ≠ some 0 := by
  cases us with
  | nil => simp
  | cons u us =>
      have hfirst : ∃ b l, wireOf u = b :: l ∧ b ≠ 0 := by
        cases hu : u.codec? with
        | some codec =>
            obtain ⟨b, l, hbl, hzero, -⟩ := (codec.layout u).head_wire
            exact ⟨b, l, by rw [wireOf, hu]; exact hbl, hzero⟩
        | none => exact ⟨1, u.bytes.toList, by rw [wireOf, hu]; rfl, by decide⟩
      obtain ⟨b, l, hbl, hzero⟩ := hfirst
      rw [List.map_cons, List.flatten_cons, hbl]
      simpa using hzero

/-- **Wires travel in text.**  The bytes of any list of ids, and every wire that one of the prototypes
writes, whatever the id, come back from their text. -/
theorem wire_text :
    (∀ us : List UUID, ∃ b, writeList us = .ok b ∧ TravelsInText b) ∧
    (∀ (id : Cpp.Id) (w : Bytes), Cpp.encode id = .ok w → TravelsInText w) ∧
    (∀ (time clock node : ℤ) (w : Bytes), Python.encode time clock node = .ok w →
      TravelsInText w) ∧
    ∀ (time clock node : ℤ) (w : Bytes), JavaScript.encode time clock node = .ok w →
      TravelsInText w := by
  refine ⟨fun us => ⟨_, writeList_eq us, travelsInText_of_head ?_⟩, fun id w hw => ?_,
    fun time clock node w hw => ?_, fun time clock node w hw => ?_⟩
  · exact head?_flatten_wireOf us
  · rw [Cpp.encode, Cpp.putVl] at hw
    obtain ⟨wire, hwire, hw⟩ := bind_eq_ok hw
    cases hw
    exact travelsInText_of_head (head?_foldWire (guarded_eq_ok hwire))
  · exact travelsInText_of_head (head?_foldWire (guarded_eq_ok hw))
  · exact travelsInText_of_head (head?_foldWire (guarded_eq_ok hw))

end Cuuid.Prototype
