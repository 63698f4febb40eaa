/-
**What a sorted store keeps.**

The analysis of the second format measures how many bytes of the wires of compacted ids a sorted
store keeps that front-codes its runs: it sorts the wires, and counts for each of them a byte for the
length of what it shares with the one in front of it, and the bytes behind that.  This module embeds
the count and shows what it comes to: one byte for each wire, and one for each beginning that some of
the wires have.  As the time stands in front on a wire, these are few.  A wire has three bytes behind
those of its time alone, and a byte in front of them is shared by all ids of a block of milliseconds;
so what is kept of a run depends on the number of its ids and on the time that it lasts, and hardly on
the era.

Main definitions:

* `Cuuid.Prototype.frontCodeKept` — the count.

Main results:

* `Cuuid.Prototype.keptOf_eq`, `Cuuid.Prototype.frontCodeKept_eq` — what is counted of a run, and of
  its wires in order;
* `Cuuid.Prototype.front_code_run` — **what is kept of a run of compacted ids**.
-/

import Mathlib.Algebra.BigOperators.Group.Finset.Basic
import Mathlib.Algebra.Order.BigOperators.Group.Finset
import Mathlib.Data.Nat.ModEq
import Cuuid.Lib.FrontCoding
import Cuuid.Prototype.WireOrder

set_option relaxedAutoImplicit false
set_option autoImplicit false

namespace Cuuid.Prototype

open FrontCoding LengthFold

/-! ### The count -/

/-- The inner loop of `front_code_bytes`. -/
def sharedLoop (prev w : Bytes) : ℕ → ℕ → ℕ
  | 0, s => s
  | n + 1, s =>
      if s < prev.length ∧ s < w.length ∧ prev[s]? = w[s]? then sharedLoop prev w n (s + 1) else s

/-- The outer loop of `front_code_bytes`, for a run in any order. -/
def keptLoop : List Bytes → Bytes → ℕ → ℕ
  | [], _, kept => kept
  | w :: ws, prev, kept =>
      let s := sharedLoop prev w prev.length 0
      keptLoop ws w (kept + (1 + (w.length - s)))

def keptOf (run : List Bytes) : ℕ := keptLoop run [] 0

/-- The variable `kept` of `front_code_bytes` at the end of its loop.  The function goes on to divide
it by the number of the wires, which is an error when there are none; only `kept` is modelled. -/
def frontCodeKept (wires : List Bytes) : ℕ :=
  keptOf (wires.mergeSort fun a b => decide (¬ b < a))

/-- The inner loop counts on from where it starts. -/
theorem sharedLoop_eq {fuel : ℕ} {prev w : Bytes} {s : ℕ} (h : prev.length ≤ s + fuel) :
    sharedLoop prev w fuel s = s + common (prev.drop s) (w.drop s) := by
  induction fuel generalizing s with
  | zero =>
      rw [sharedLoop, List.drop_eq_nil_of_le (by omega), common_nil, Nat.add_zero]
  | succ fuel ih =>
      rw [sharedLoop]
      by_cases hin : s < prev.length ∧ s < w.length
      · obtain ⟨hprev, hw⟩ := hin
        have hget : prev[s]? = w[s]? ↔ prev[s] = w[s] := by
          rw [List.getElem?_eq_getElem hprev, List.getElem?_eq_getElem hw, Option.some.injEq]
        rw [List.drop_eq_getElem_cons hprev, List.drop_eq_getElem_cons hw, common]
        by_cases heq : prev[s] = w[s]
        · rw [if_pos ⟨hprev, hw, hget.2 heq⟩, if_pos heq, ih (by omega)]
          omega
        · rw [if_neg fun hall => heq (hget.1 hall.2.2), if_neg heq, Nat.add_zero]
      · have hend : common (prev.drop s) (w.drop s) = 0 := by
          rcases Nat.lt_or_ge s prev.length with hprev | hprev
          · rw [List.drop_eq_nil_of_le (show w.length ≤ s by omega), common_nil_right]
          · rw [List.drop_eq_nil_of_le hprev, common_nil]
        rw [if_neg fun hall => hin ⟨hall.1, hall.2.1⟩, hend, Nat.add_zero]

theorem keptLoop_eq (ws : List Bytes) (prev : Bytes) (kept : ℕ) :
    keptLoop ws prev kept = kept + (ws.length + size prev ws) := by
  induction ws generalizing prev kept with
  | nil => rfl
  | cons w ws ih =>
      have hshared : sharedLoop prev w prev.length 0 = common prev w := by
        rw [sharedLoop_eq (Nat.le_add_left ..), List.drop_zero, List.drop_zero, Nat.zero_add]
      rw [keptLoop, hshared, ih, size, List.length_cons]
      omega

/-- What is counted of a run in any order. -/
theorem keptOf_eq (run : List Bytes) : keptOf run = run.length + size [] run := by
  rw [keptOf, keptLoop_eq, Nat.zero_add]

/-- **What is counted of wires**: a byte for each of them, and one for each of their beginnings. -/
theorem frontCodeKept_eq (wires : List Bytes) :
    frontCodeKept wires = wires.length + (beginnings wires).card := by
  have hperm := List.mergeSort_perm wires fun a b => decide (¬ b < a)
  have hsorted : (wires.mergeSort fun a b => decide (¬ b < a)).Pairwise fun a b => ¬ b < a := by
    have h : (wires.mergeSort fun a b => decide (¬ b < a)).Pairwise fun a b => decide (¬ b < a) :=
      List.pairwise_mergeSort
        (fun a b c hab hbc => by
          simp only [decide_eq_true_eq] at hab hbc ⊢
          exact List.le_trans hab hbc)
        (fun a b => by
          simp only [Bool.or_eq_true, decide_eq_true_eq]
          exact List.le_total a b) wires
    exact h.imp fun hab => of_decide_eq_true hab
  rw [frontCodeKept, keptOf_eq, size_eq_card_beginnings (gathered_of_pairwise hsorted),
    beginnings_perm hperm, hperm.length_eq]

/-- No order of the wires keeps less. -/
theorem frontCodeKept_le {wires run : List Bytes} (h : run.Perm wires) :
    frontCodeKept wires ≤ keptOf run := by
  rw [frontCodeKept_eq, keptOf_eq, h.length_eq, ← beginnings_perm h]
  exact Nat.add_le_add_left (card_beginnings_le_size run) _

/-! ### Runs of compacted ids -/

variable {id : Cpp.Id} {ids : List Cpp.Id}

theorem mapM_encode_crush (h : ∀ id ∈ ids, id.From2026) :
    (ids.mapM fun id => Cpp.encode (Cpp.crush id)) = .ok (ids.map crushWire) := by
  induction ids with
  | nil => rfl
  | cons id ids ih =>
      obtain ⟨hid, hids⟩ := List.forall_mem_cons.1 h
      rw [List.mapM_cons, (encode_crush hid).2.2.2, ih hids]
      rfl

/-- The numbers of a run without their last `d` bytes, where the wire has more. -/
def blocks (ids : List Cpp.Id) (d : ℕ) : Finset ℕ :=
  ((ids.filter fun id => d ≤ extraOf (crushKey id).1).map fun id =>
    crushNumber id / 256 ^ d).toFinset

/-- The wires of a run without their last `d` bytes, where they have more. -/
def cuts (ids : List Cpp.Id) (d : ℕ) : Finset Bytes :=
  ((ids.filter fun id => d ≤ extraOf (crushKey id).1).map fun id =>
    (crushWire id).take (extraOf (crushKey id).1 + 1 - d)).toFinset

theorem mem_cuts {d : ℕ} {p : Bytes} : p ∈ cuts ids d ↔ ∃ id ∈ ids, d ≤ extraOf (crushKey id).1 ∧
    (crushWire id).take (extraOf (crushKey id).1 + 1 - d) = p := by
  simp only [cuts, List.mem_toFinset, List.mem_map, List.mem_filter, decide_eq_true_eq, and_assoc]

/-- The beginnings of the wires of a run, by the number of bytes that they leave. -/
theorem beginnings_crushWire (h : ∀ id ∈ ids, id.From2026) :
    beginnings (ids.map crushWire) = (Finset.range 9).biUnion (cuts ids) := by
  ext p
  simp only [mem_beginnings, List.mem_map, Finset.mem_biUnion, Finset.mem_range, mem_cuts]
  constructor
  · rintro ⟨hne, _, ⟨id, hid, rfl⟩, hp⟩
    obtain ⟨-, -, hextra, -⟩ := encode_crush (h id hid)
    have hlen : (crushWire id).length = extraOf (crushKey id).1 + 1 := by
      rw [crushWire, Slot.length_wire, hextra]
    have hle := hp.length_le
    have hpos := List.length_pos_of_ne_nil hne
    have hmax : extraOf (crushKey id).1 ≤ 8 := by
      unfold extraOf
      split_ifs <;> decide
    refine ⟨extraOf (crushKey id).1 + 1 - p.length, by omega, id, hid, by omega, ?_⟩
    rw [Nat.sub_sub_self (by omega)]
    exact (List.prefix_iff_eq_take.1 hp).symm
  · rintro ⟨d, -, id, hid, hd, rfl⟩
    obtain ⟨-, -, hextra, -⟩ := encode_crush (h id hid)
    refine ⟨List.ne_nil_of_length_pos ?_, _, ⟨id, hid, rfl⟩, List.take_prefix _ _⟩
    rw [List.length_take, crushWire, Slot.length_wire, hextra]
    omega

/-- Cut wires tell apart what the numbers do. -/
theorem cut_eq_iff {id id' : Cpp.Id} (h : id.From2026) (h' : id'.From2026) {d : ℕ}
    (hd : d ≤ extraOf (crushKey id).1) (hd' : d ≤ extraOf (crushKey id').1) :
    (crushWire id).take (extraOf (crushKey id).1 + 1 - d) =
        (crushWire id').take (extraOf (crushKey id').1 + 1 - d) ↔
      crushNumber id / 256 ^ d = crushNumber id' / 256 ^ d := by
  obtain ⟨hfit, -, hextra, -⟩ := encode_crush h
  obtain ⟨hfit', -, hextra', -⟩ := encode_crush h'
  rw [← hextra] at hd ⊢
  rw [← hextra'] at hd' ⊢
  exact Table.take_wire_eq_iff hfit hfit' hd hd'

theorem card_cuts (h : ∀ id ∈ ids, id.From2026) (d : ℕ) :
    (cuts ids d).card = (blocks ids d).card := by
  refine card_toFinset_map_congr fun id hid id' hid' => ?_
  rw [List.mem_filter, decide_eq_true_eq] at hid hid'
  exact cut_eq_iff (h id hid.1) (h id' hid'.1) hid.2 hid'.2

/-- Cut wires tell how many bytes they leave. -/
theorem disjoint_cuts (h : ∀ id ∈ ids, id.From2026) {d d' : ℕ} (hne : d ≠ d') :
    Disjoint (cuts ids d) (cuts ids d') := by
  refine Finset.disjoint_left.2 fun p hp hp' => ?_
  obtain ⟨id, hid, hd, rfl⟩ := mem_cuts.1 hp
  obtain ⟨id', hid', hd', heq⟩ := mem_cuts.1 hp'
  obtain ⟨hfit, -, hextra, -⟩ := encode_crush (h id hid)
  obtain ⟨hfit', -, hextra', -⟩ := encode_crush (h id' hid')
  obtain ⟨hslot, hroom, -⟩ := Table.fit_eq_some_iff.1 hfit
  obtain ⟨hslot', hroom', -⟩ := Table.fit_eq_some_iff.1 hfit'
  rw [← hextra] at hd heq
  rw [← hextra'] at hd' heq
  exact Table.take_wire_ne hslot' hslot hroom' hroom hd' hd hne.symm heq

/-- **What is kept of a run**, by the number of bytes that a beginning leaves. -/
theorem frontCodeKept_crushWire (h : ∀ id ∈ ids, id.From2026) :
    frontCodeKept (ids.map crushWire) =
      ids.length + ∑ d ∈ Finset.range 9, (blocks ids d).card := by
  have hdisjoint : Set.PairwiseDisjoint (Finset.range 9 : Set ℕ) (cuts ids) :=
    fun d _ d' _ hne => disjoint_cuts h hne
  have hcard : (beginnings (ids.map crushWire)).card =
      ∑ d ∈ Finset.range 9, (blocks ids d).card := by
    rw [beginnings_crushWire h, Finset.card_biUnion hdisjoint]
    exact Finset.sum_congr rfl fun d _ => card_cuts h d
  rw [frontCodeKept_eq, List.length_map, hcard]

/-! ### Runs of some length -/

theorem card_blocks_le (ids : List Cpp.Id) (d : ℕ) : (blocks ids d).card ≤ ids.length := by
  refine (List.toFinset_card_le _).trans ?_
  rw [List.length_map]
  exact List.length_filter_le _ _

/-- In front of three bytes a number has nothing but the time. -/
theorem crushNumber_div (id : Cpp.Id) (j : ℕ) :
    crushNumber id / 256 ^ (3 + j) = (crushKey id).1 / 2 ^ (8 * j + 2) := by
  obtain ⟨hsalt, hclock⟩ := crushKey_lt id
  have hpow : 256 ^ (3 + j) = 2 ^ 22 * 2 ^ (8 * j + 2) := by
    rw [show 256 = 2 ^ 8 from rfl, ← pow_mul, ← pow_add]
    congr 1
    omega
  have htime : crushNumber id / 2 ^ 22 = (crushKey id).1 := by
    rw [crushNumber]
    omega
  rw [hpow, ← Nat.div_div_eq_div_mul, htime]

/-- A run touches as many blocks as its span has, and one at either end. -/
theorem card_blocks_le_span {start span : ℕ}
    (h : ∀ id ∈ ids, start ≤ (crushKey id).1 ∧ (crushKey id).1 ≤ start + span) (j : ℕ) :
    (blocks ids (3 + j)).card ≤ span / 2 ^ (8 * j + 2) + 2 := by
  have hsub : blocks ids (3 + j) ⊆
      Finset.Icc (start / 2 ^ (8 * j + 2)) ((start + span) / 2 ^ (8 * j + 2)) := by
    intro x hx
    simp only [blocks, List.mem_toFinset, List.mem_map, List.mem_filter] at hx
    obtain ⟨id, ⟨hid, -⟩, rfl⟩ := hx
    rw [crushNumber_div, Finset.mem_Icc]
    exact ⟨Nat.div_le_div_right (h id hid).1, Nat.div_le_div_right (h id hid).2⟩
  have hdiv := Nat.add_div_le_div_add_div_add_one start span (2 ^ (8 * j + 2))
  calc (blocks ids (3 + j)).card
      ≤ (start + span) / 2 ^ (8 * j + 2) + 1 - start / 2 ^ (8 * j + 2) :=
        (Finset.card_le_card hsub).trans_eq (Nat.card_Icc _ _)
    _ ≤ span / 2 ^ (8 * j + 2) + 2 := by
        rw [Nat.sub_le_iff_le_add']
        exact (Nat.add_le_add_right hdiv 1).trans_eq (by ring)

/-- **What is kept of a run of compacted ids.**  A sorted store keeps a byte for each id; and for
each number `d` of last bytes a byte for each value that the numbers have without these, among the
wires that are longer.  No other order of the wires keeps less.  As these values are the blocks of
`4 * 256 ^ j` milliseconds from three bytes on, a run keeps at most four bytes for each id, and one
for each block that its span touches, in whatever era it lies. -/
theorem front_code_run (h : ∀ id ∈ ids, id.From2026) : ∃ ws,
    (ids.mapM fun id => Cpp.encode (Cpp.crush id)) = .ok ws ∧
    frontCodeKept ws = ids.length + ∑ d ∈ Finset.range 9, (blocks ids d).card ∧
    (∀ run, run.Perm ws → frontCodeKept ws ≤ keptOf run) ∧
    ∀ start span, (∀ id ∈ ids, start ≤ (crushKey id).1 ∧ (crushKey id).1 ≤ start + span) →
      frontCodeKept ws ≤
        4 * ids.length + ∑ j ∈ Finset.range 6, (span / 2 ^ (8 * j + 2) + 2) := by
  have hkept := frontCodeKept_crushWire h
  refine ⟨_, mapM_encode_crush h, hkept, fun run hrun => frontCodeKept_le hrun, ?_⟩
  intro start span hspan
  have hlast : ∑ d ∈ Finset.range 3, (blocks ids d).card ≤ 3 * ids.length := by
    simpa using Finset.sum_le_card_nsmul (Finset.range 3) _ _ fun d _ => card_blocks_le ids d
  have htime : ∑ j ∈ Finset.range 6, (blocks ids (3 + j)).card ≤
      ∑ j ∈ Finset.range 6, (span / 2 ^ (8 * j + 2) + 2) :=
    Finset.sum_le_sum fun j _ => card_blocks_le_span hspan j
  rw [hkept, show Finset.range 9 = Finset.range (3 + 6) from rfl, Finset.sum_range_add]
  omega

/-- Two ids of 2030, in one block of four milliseconds. -/
theorem front_code_run_2030 : ∃ ws,
    ([⟨0x01b21dd213814000 + 18900000000000000, 9, 0x001122334455⟩,
      ⟨0x01b21dd213814000 + 18900000000010000, 5, 0x665544332211⟩].mapM
        fun id => Cpp.encode (Cpp.crush id)) = .ok ws ∧ frontCodeKept ws = 13 := by
  obtain ⟨ws, hws, hkept, -⟩ := @front_code_run
    [⟨0x01b21dd213814000 + 18900000000000000, 9, 0x001122334455⟩,
      ⟨0x01b21dd213814000 + 18900000000010000, 5, 0x665544332211⟩] (by decide)
  exact ⟨ws, hws, hkept.trans (by decide +kernel)⟩

end Cuuid.Prototype
