/-
**The two node expanders.**

A node expander turns the 32-bit seed of `calculateNode` into the 64 raw bits of a node, and is the
only thing in which the two codecs differ there.  The v1 expander takes the first two outputs of a
Mersenne Twister, computed from the five state words they depend on, behind a small direct-mapped
cache; the v6 expander is splitmix64.

Main definitions:

* `Cuuid.expandMtCompute`, `Cuuid.expandMt` — the v1 expander without and with its cache;
* `Cuuid.expandSplitmix` — the v6 expander.

Main results:

* `Cuuid.expandMt_eq` — **a hit is exact**: from any cache that a run of calls can leave behind, a
  call returns what the computation without the cache returns, so the v1 codec is modelled with
  `expandMtCompute`.
-/

import Cuuid.Common

set_option relaxedAutoImplicit false
set_option autoImplicit false

namespace Cuuid

/-! ### The Mersenne Twister -/

/-- The constant `F` of the init recurrence. -/
def mtF : UInt32 := 1812433253

/-- One step of the init recurrence. -/
def mtNext (x i : UInt32) : UInt32 := mtF * (x ^^^ (x >>> 30)) + i

/-- The variables `x`, `m1` and `m2` after `n` turns of the init loop, which counts `i` from 1. -/
def mtInit (seed : UInt32) : ℕ → UInt32 × UInt32 × UInt32
  | 0 => (seed, 0, 0)
  | n + 1 =>
      let (x, m1, m2) := mtInit seed n
      let x := mtNext x (UInt32.ofNat (n + 1))
      (x, if n + 1 = 1 then x else m1, if n + 1 = 2 then x else m2)

/-- The lambda `gen`: twists one word and tempers it. -/
def mtGen (cur next far : UInt32) : UInt32 :=
  let y := (cur &&& 0x80000000) ||| (next &&& 0x7fffffff)
  let v := far ^^^ (y >>> 1) ^^^ (if y &&& 1 != 0 then 0x9908b0df else 0)
  let v := v ^^^ (v >>> 11)
  let v := v ^^^ ((v <<< 7) &&& 0x9d2c5680)
  let v := v ^^^ ((v <<< 15) &&& 0xefc60000)
  v ^^^ (v >>> 18)

/-- The first two outputs of the engine, `(out0 << 32) | out1`. -/
def expandMtCompute (seed : UInt32) : UInt64 :=
  let m0 := seed
  let (x, m1, m2) := mtInit seed 397
  let m397 := x
  let m398 := mtNext x 398
  let a := (mtGen m0 m1 m397).toUInt64
  let b := (mtGen m1 m2 m398).toUInt64
  (a <<< 32) ||| b

/-! ### The cache -/

/-- A cache line. -/
structure Entry where
  /-- The cached value. -/
  node : UInt64
  /-- The seed it was computed from. -/
  seed : UInt32
  /-- Whether the line is in use. -/
  valid : Bool
deriving DecidableEq, Repr

/-- The thread-local cache of eight lines. -/
abbrev MtCache := Vector Entry 8

/-- The cache that a thread starts with. -/
def MtCache.empty : MtCache := Vector.replicate 8 ⟨0, 0, false⟩

/-- The line of a seed. -/
def cacheIndex (seed : UInt32) : ℕ := ((seed * 2654435761) >>> 29).toNat

theorem cacheIndex_lt (seed : UInt32) : cacheIndex seed < 8 := by
  have h : ((seed * 2654435761) >>> 29).toNat = (seed * 2654435761).toNat / 2 ^ 29 := by
    rw [UInt32.toNat_shiftRight, Nat.shiftRight_eq_div_pow]
    rfl
  have hlt := (seed * 2654435761).toNat_lt
  rw [cacheIndex, h]
  omega

/-- The v1 expander: looks the seed up and recomputes its line on a miss. -/
def expandMt (cache : MtCache) (seed : UInt32) : UInt64 × MtCache :=
  have hi := cacheIndex_lt seed
  let e := cache[cacheIndex seed]
  if !e.valid || e.seed != seed then
    let e : Entry := { node := expandMtCompute seed, seed := seed, valid := true }
    (e.node, cache.set (cacheIndex seed) e (cacheIndex_lt seed))
  else (e.node, cache)

/-- Every line in use holds the value of its seed. -/
def MtCache.Exact (cache : MtCache) : Prop :=
  ∀ e ∈ cache.toList, e.valid = true → e.node = expandMtCompute e.seed

theorem MtCache.exact_empty : MtCache.empty.Exact := by
  intro e he hv
  simp only [MtCache.empty, Vector.toList_replicate, List.mem_replicate] at he
  rw [he.2] at hv
  simp at hv

/-- **A hit is exact**, and the call leaves an exact cache. -/
theorem expandMt_eq {cache : MtCache} (h : cache.Exact) (seed : UInt32) :
    (expandMt cache seed).1 = expandMtCompute seed ∧ (expandMt cache seed).2.Exact := by
  have hi := cacheIndex_lt seed
  have hmem : cache[cacheIndex seed] ∈ cache.toList :=
    Vector.mem_toList_iff.2 (Vector.getElem_mem hi)
  unfold expandMt
  dsimp only
  split
  · refine ⟨by dsimp only, fun e he hv => ?_⟩
    have hset : e ∈ cache.set (cacheIndex seed) ⟨expandMtCompute seed, seed, true⟩ hi :=
      Vector.mem_toList_iff.1 he
    rcases Vector.mem_or_eq_of_mem_set hset with hold | rfl
    · exact h e (Vector.mem_toList_iff.2 hold) hv
    · dsimp only
  · rename_i hit
    simp only [Bool.or_eq_true, Bool.not_eq_true', bne_iff_ne, not_or, Bool.not_eq_false,
      ne_eq, not_not] at hit
    exact ⟨by rw [h _ hmem hit.1, hit.2], h⟩

/-! ### The v6 expander -/

/-- v6's node expander: splitmix64 in place of the Mersenne Twister. -/
def expandSplitmix (seed : UInt32) : UInt64 := splitmix64 seed.toUInt64

end Cuuid
