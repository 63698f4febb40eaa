/-
**The shortcut of the v1 expander.**

The v1 expander promises the first two outputs of `std::mt19937`, but computes five of its 624 words
only and looks them up in a cache first.  This module compares it with the whole engine, as
`reference_expand` of the tests runs it, over any sequence of calls on one thread.

Main definitions:

* `Cuuid.mt19937` — the parameters of the standard engine;
* `Cuuid.referenceExpand` — the two draws of the whole engine;
* `Cuuid.expandMtAll` — the calls of one thread, with the cache that they share.

Main results:

* `Cuuid.expandMtCompute_eq` — **the shortcut is exact**;
* `Cuuid.expandMtAll_eq` — **and so is the cache**, whatever was evicted from it before.
-/

import Cuuid.Lib.MersenneTwister
import Cuuid.Expander

set_option relaxedAutoImplicit false
set_option autoImplicit false

namespace Cuuid

open MersenneTwister

/-! ### The standard engine -/

/-- `std::mt19937`. -/
def mt19937 : Params 32 where
  n := 624
  m := 397
  r := 31
  a := 0x9908b0df
  u := 11
  d := 0xffffffff
  s := 7
  b := 0x9d2c5680
  t := 15
  c := 0xefc60000
  l := 18
  f := 1812433253
  one_lt := by decide
  m_lt := by decide

/-- `reference_expand`: the first two outputs of an engine that is seeded and twisted as a whole. -/
def referenceExpand (seed : UInt32) : UInt64 :=
  let rng := seeded mt19937 seed.toBitVec
  let (out0, rng) := draw rng
  let (out1, _) := draw rng
  let node := (UInt32.ofBitVec out0).toUInt64
  let node := node <<< 32
  node ||| (UInt32.ofBitVec out1).toUInt64

/-- A run of calls on one thread: the values returned, and the cache that is left. -/
def expandMtAll : MtCache → List UInt32 → List UInt64 × MtCache
  | cache, [] => ([], cache)
  | cache, seed :: seeds =>
      let (node, cache) := expandMt cache seed
      let (nodes, cache) := expandMtAll cache seeds
      (node :: nodes, cache)

/-! ### The shortcut -/

/-- The init recurrence, on machine words. -/
theorem toBitVec_mtNext (x : UInt32) (i : ℕ) :
    (mtNext x (UInt32.ofNat i)).toBitVec = mt19937.nextWord x.toBitVec i := by
  simp [mtNext, mtF, Params.nextWord, mt19937, UInt32.toBitVec_ofNat']

/-- The first line of `gen`, on machine words. -/
theorem toBitVec_twist (cur next far : UInt32) :
    (let y := (cur &&& 0x80000000) ||| (next &&& 0x7fffffff);
      far ^^^ (y >>> 1) ^^^ (if y &&& 1 != 0 then 0x9908b0df else 0)).toBitVec =
      mt19937.twistWord cur.toBitVec next.toBitVec far.toBitVec := by
  have hupper : mt19937.upperMask = 0x80000000#32 := by decide
  have hlower : mt19937.lowerMask = 0x7fffffff#32 := by decide
  have hy : ((cur &&& 0x80000000) ||| (next &&& 0x7fffffff)).toBitVec =
      (cur.toBitVec &&& 0x80000000#32) ||| (next.toBitVec &&& 0x7fffffff#32) := by
    simp
  unfold Params.twistWord
  rw [hupper, hlower]
  dsimp only
  rw [← hy]
  generalize (cur &&& 0x80000000) ||| (next &&& 0x7fffffff) = y
  have hbit : y &&& 1 = 0 ↔ y.toBitVec &&& 1#32 = 0#32 := by
    rw [← UInt32.toBitVec_inj]
    simp
  by_cases h : y &&& 1 = 0
  · rw [if_pos (hbit.1 h), h]
    simp
  · rw [if_neg (mt hbit.2 h), if_pos (by simpa using h)]
    simp [mt19937]

/-- The other lines of `gen`.  The source leaves out the mask `d`, which has all bits set. -/
theorem toBitVec_temper (v : UInt32) :
    (let v := v ^^^ (v >>> 11)
      let v := v ^^^ ((v <<< 7) &&& 0x9d2c5680)
      let v := v ^^^ ((v <<< 15) &&& 0xefc60000)
      v ^^^ (v >>> 18)).toBitVec = mt19937.temper v.toBitVec := by
  have hd : mt19937.d = BitVec.allOnes 32 := by decide
  simp only [Params.temper, hd, BitVec.and_allOnes]
  simp [mt19937]

theorem toBitVec_mtGen (cur next far : UInt32) : (mtGen cur next far).toBitVec =
    mt19937.temper (mt19937.twistWord cur.toBitVec next.toBitVec far.toBitVec) := by
  rw [← toBitVec_twist, ← toBitVec_temper]
  rfl

/-- Word `i` of the seeding, as a machine word. -/
def mtWord (seed : UInt32) (i : ℕ) : UInt32 := UInt32.ofBitVec (seedWord mt19937 seed.toBitVec i)

theorem mtWord_zero (seed : UInt32) : mtWord seed 0 = seed := rfl

theorem mtWord_succ (seed : UInt32) (i : ℕ) :
    mtWord seed (i + 1) = mtNext (mtWord seed i) (UInt32.ofNat (i + 1)) := by
  rw [← UInt32.toBitVec_inj, toBitVec_mtNext]
  rfl

/-- **The init loop** holds the word of its counter, and keeps two of the words before it. -/
theorem mtInit_eq (seed : UInt32) (n : ℕ) : mtInit seed n = (mtWord seed n,
    if 1 ≤ n then mtWord seed 1 else 0, if 2 ≤ n then mtWord seed 2 else 0) := by
  induction n with
  | zero => rfl
  | succ n ih =>
      rw [mtInit, ih]
      dsimp only
      rw [← mtWord_succ]
      rcases Nat.lt_trichotomy n 1 with hlt | rfl | hgt
      · obtain rfl : n = 0 := by omega
        rfl
      · rfl
      · have h₁ : ¬ n + 1 = 1 := by omega
        have h₂ : ¬ n + 1 = 2 := by omega
        have h₃ : 2 ≤ n := hgt
        rw [if_neg h₁, if_neg h₂, if_pos hgt.le, if_pos h₃, if_pos (by omega), if_pos (by omega)]

/-- An output of the engine before its second pass, from the three words that it depends on. -/
theorem temper_sequence (seed : UInt32) {k : ℕ} (hk : k + 397 < 624) :
    mt19937.temper (sequence mt19937 seed.toBitVec (624 + k)) =
      (mtGen (mtWord seed k) (mtWord seed (k + 1)) (mtWord seed (k + 397))).toBitVec := by
  have hn : mt19937.n = 624 := rfl
  have hm : mt19937.m = 397 := rfl
  have hword : ∀ i < 624, sequence mt19937 seed.toBitVec i = (mtWord seed i).toBitVec := by
    intro i hi
    exact sequence_of_lt _ (hn ▸ hi)
  have hstep := sequence_add (P := mt19937) seed.toBitVec k
  rw [hn, hm, hword k (by omega), hword (k + 1) (by omega), hword (k + 397) hk] at hstep
  rw [toBitVec_mtGen, Nat.add_comm, hstep]

/-- The five words that the shortcut uses are those of the seeding. -/
theorem expandMtCompute_eq_words (seed : UInt32) : expandMtCompute seed =
    ((mtGen (mtWord seed 0) (mtWord seed 1) (mtWord seed 397)).toUInt64 <<< 32) |||
      (mtGen (mtWord seed 1) (mtWord seed 2) (mtWord seed 398)).toUInt64 := by
  have hinit := mtInit_eq seed 397
  rw [if_pos (by decide), if_pos (by decide)] at hinit
  have hlast : mtWord seed 398 = mtNext (mtWord seed 397) 398 := mtWord_succ seed 397
  rw [hlast, mtWord_zero]
  unfold expandMtCompute
  rw [hinit]

/-- **The shortcut is exact.** -/
theorem expandMtCompute_eq (seed : UInt32) : expandMtCompute seed = referenceExpand seed := by
  have hdraws := draws_seeded (P := mt19937) seed.toBitVec 2
  have hn : mt19937.n = 624 := rfl
  simp only [draws, List.range', List.map_cons, List.map_nil, List.cons.injEq, and_true, hn] at hdraws
  obtain ⟨hout₀, hout₁⟩ := hdraws
  rw [temper_sequence seed (by decide : 0 + 397 < 624)] at hout₀
  rw [temper_sequence seed (by decide : 0 + 1 + 397 < 624)] at hout₁
  rw [expandMtCompute_eq_words]
  unfold referenceExpand
  dsimp only
  rw [hout₀, hout₁]

/-! ### Runs of calls -/

/-- From an exact cache, every call returns what the whole engine does. -/
theorem expandMtAll_of_exact (seeds : List UInt32) : ∀ cache : MtCache, cache.Exact →
    (expandMtAll cache seeds).1 = seeds.map referenceExpand := by
  induction seeds with
  | nil =>
      intro cache _
      rfl
  | cons seed seeds ih =>
      intro cache hcache
      obtain ⟨hnode, hexact⟩ := expandMt_eq hcache seed
      rw [List.map_cons, ← expandMtCompute_eq, ← hnode, ← ih _ hexact]
      rfl

/-- **The v1 expander is the standard engine.**  Whatever a thread has expanded before, each call
returns the first two outputs of the whole engine, and reads and writes one of the eight lines of
the cache. -/
theorem expandMtAll_eq (seeds : List UInt32) :
    (expandMtAll MtCache.empty seeds).1 = seeds.map referenceExpand ∧
      ∀ seed : UInt32, cacheIndex seed < 8 := by
  constructor
  · exact expandMtAll_of_exact seeds _ MtCache.exact_empty
  · intro seed
    exact cacheIndex_lt seed

end Cuuid
