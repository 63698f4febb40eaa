/-
**Mersenne Twister engines.**

An engine keeps `n` words of `w` bits.  Seeding fills them in, and every `n`-th draw twists all of
them in place: word `k` is replaced by a combination of the words `k`, `k + 1` and `k + m`, where
the indices wrap around, so that the last words are made from words which the same pass has already
replaced.  A draw tempers the next word.

The engine is compared with the linear recurrence that it is meant to run.  The parameters are
arbitrary here, up to the two bounds without which the recurrence is not one.

Main definitions:

* `MersenneTwister.Params` — the parameters of an engine;
* `MersenneTwister.Engine`, `MersenneTwister.seeded`, `MersenneTwister.draw` — the engine;
* `MersenneTwister.sequence` — the recurrence.

Main results:

* `MersenneTwister.twist_spec` — **one pass in place advances the recurrence by `n` words**;
* `MersenneTwister.draws_seeded` — **every draw is a tempered word of the recurrence**.
-/

import Mathlib.Data.Nat.Notation
import Mathlib.Data.List.Range

set_option relaxedAutoImplicit false
set_option autoImplicit false

namespace MersenneTwister

/-! ### Parameters -/

/-- The parameters of an engine over words of `w` bits, under the letters that are usual for
them. -/
structure Params (w : ℕ) where
  /-- The number of words. -/
  n : ℕ
  /-- The offset of the third word that a twist reads. -/
  m : ℕ
  /-- The number of bits that a twist takes from the second word. -/
  r : ℕ
  /-- The conditional mask of a twist. -/
  a : BitVec w
  /-- The shifts and masks of the tempering. -/
  u : ℕ
  d : BitVec w
  s : ℕ
  b : BitVec w
  t : ℕ
  c : BitVec w
  l : ℕ
  /-- The multiplier of the seeding. -/
  f : BitVec w
  one_lt : 1 < n
  m_lt : m < n

variable {w : ℕ} (P : Params w)

namespace Params

def lowerMask : BitVec w := BitVec.ofNat w ((1 <<< P.r) - 1)

def upperMask : BitVec w := ~~~P.lowerMask

/-- Word `i` of the seeding, from the word before it. -/
def nextWord (x : BitVec w) (i : ℕ) : BitVec w :=
  P.f * (x ^^^ (x >>> (w - 2))) + BitVec.ofNat w i

/-- The upper bits of one word and the lower bits of the next one, shifted into a third. -/
def twistWord (cur next far : BitVec w) : BitVec w :=
  let y := (cur &&& P.upperMask) ||| (next &&& P.lowerMask)
  far ^^^ (y >>> 1) ^^^ (if y &&& 1#w = 0#w then 0#w else P.a)

def temper (z : BitVec w) : BitVec w :=
  let z := z ^^^ ((z >>> P.u) &&& P.d)
  let z := z ^^^ ((z <<< P.s) &&& P.b)
  let z := z ^^^ ((z <<< P.t) &&& P.c)
  z ^^^ (z >>> P.l)

end Params

/-! ### The engine -/

/-- The words, and the index of the next one to draw. -/
structure Engine where
  words : Vector (BitVec w) P.n
  index : ℕ

variable {P}

/-- Reads a word. -/
def wordAt (v : Vector (BitVec w) P.n) (i : ℕ) : BitVec w := v[i]?.getD 0#w

/-- Word `i` of the seeding. -/
def seedWord (P : Params w) (seed : BitVec w) : ℕ → BitVec w
  | 0 => seed
  | i + 1 => P.nextWord (seedWord P seed i) (i + 1)

/-- The engine of a seed.  Its first draw twists. -/
def seeded (P : Params w) (seed : BitVec w) : Engine P :=
  ⟨Vector.ofFn fun i => seedWord P seed i.val, P.n⟩

/-- Replaces word `k`. -/
def twistAt (v : Vector (BitVec w) P.n) (k : ℕ) : Vector (BitVec w) P.n :=
  v.setIfInBounds k
    (P.twistWord (wordAt v k) (wordAt v ((k + 1) % P.n)) (wordAt v ((k + P.m) % P.n)))

/-- Replaces the first `k` words, one after the other. -/
def twistUpTo (v : Vector (BitVec w) P.n) (k : ℕ) : Vector (BitVec w) P.n :=
  (List.range k).foldl twistAt v

/-- Replaces all the words. -/
def twist (v : Vector (BitVec w) P.n) : Vector (BitVec w) P.n := twistUpTo v P.n

/-- One output, and the engine after it. -/
def draw (e : Engine P) : BitVec w × Engine P :=
  let e := if e.index < P.n then e else ⟨twist e.words, 0⟩
  (P.temper (wordAt e.words e.index), { e with index := e.index + 1 })

/-- The outputs of `k` draws. -/
def draws : ℕ → Engine P → List (BitVec w)
  | 0, _ => []
  | k + 1, e => (draw e).1 :: draws k (draw e).2

/-! ### The recurrence -/

/-- The sequence of words of a seed. -/
def sequence (P : Params w) (seed : BitVec w) (i : ℕ) : BitVec w :=
  if i < P.n then seedWord P seed i
  else P.twistWord (sequence P seed (i - P.n)) (sequence P seed (i - P.n + 1))
    (sequence P seed (i - P.n + P.m))
termination_by i
decreasing_by
  all_goals
    have h₁ := P.one_lt
    have h₂ := P.m_lt
    omega

theorem sequence_of_lt (seed : BitVec w) {i : ℕ} (h : i < P.n) :
    sequence P seed i = seedWord P seed i := by
  rw [sequence, if_pos h]

/-- A word is made from the ones `n` places back. -/
theorem sequence_add (seed : BitVec w) (i : ℕ) : sequence P seed (i + P.n) =
    P.twistWord (sequence P seed i) (sequence P seed (i + 1)) (sequence P seed (i + P.m)) := by
  rw [sequence, if_neg (by omega), Nat.add_sub_cancel]

/-! ### One pass -/

theorem wordAt_setIfInBounds_self {v : Vector (BitVec w) P.n} {k : ℕ} (hk : k < P.n)
    (x : BitVec w) : wordAt (v.setIfInBounds k x) k = x := by
  simp [wordAt, hk]

theorem wordAt_setIfInBounds_of_ne {v : Vector (BitVec w) P.n} {j k : ℕ} (h : k ≠ j)
    (x : BitVec w) : wordAt (v.setIfInBounds k x) j = wordAt v j := by
  rw [wordAt, wordAt, Vector.getElem?_setIfInBounds_ne h]

/-- The words are those of the sequence from place `o` on. -/
def Holds (seed : BitVec w) (v : Vector (BitVec w) P.n) (o : ℕ) : Prop :=
  ∀ j < P.n, wordAt v j = sequence P seed (o + j)

theorem twistUpTo_succ (v : Vector (BitVec w) P.n) (k : ℕ) :
    twistUpTo v (k + 1) = twistAt (twistUpTo v k) k := by
  rw [twistUpTo, twistUpTo, List.range_succ, List.foldl_append]
  rfl

/-- Within a pass, the words that were replaced are one pass ahead of the others. -/
theorem wordAt_twistUpTo {seed : BitVec w} {v : Vector (BitVec w) P.n} {o : ℕ}
    (h : Holds seed v o) : ∀ k ≤ P.n, ∀ j < P.n, wordAt (twistUpTo v k) j =
      sequence P seed (if j < k then o + j + P.n else o + j) := by
  have hone := P.one_lt
  have hm := P.m_lt
  intro k
  induction k with
  | zero =>
      intro _ j hj
      rw [if_neg (by omega)]
      exact h j hj
  | succ k ih =>
      intro hk j hj
      have ihk := ih (by omega)
      rw [twistUpTo_succ]
      rcases Nat.lt_trichotomy j k with hlt | rfl | hgt
      · rw [twistAt, wordAt_setIfInBounds_of_ne (by omega), ihk j hj, if_pos hlt, if_pos (by omega)]
      · -- the three words that are read, each before or after its own replacement
        have hcur : wordAt (twistUpTo v j) j = sequence P seed (o + j) := by
          rw [ihk j hj, if_neg (by omega)]
        have hnext : wordAt (twistUpTo v j) ((j + 1) % P.n) = sequence P seed (o + j + 1) := by
          rw [ihk _ (Nat.mod_lt _ (by omega))]
          rcases Nat.lt_or_ge (j + 1) P.n with hin | hwrap
          · rw [Nat.mod_eq_of_lt hin, if_neg (by omega), Nat.add_assoc]
          · have hlast : j + 1 = P.n := by omega
            rw [hlast, Nat.mod_self, if_pos (by omega)]
            congr 1
            omega
        have hfar : wordAt (twistUpTo v j) ((j + P.m) % P.n) =
            sequence P seed (o + j + P.m) := by
          rw [ihk _ (Nat.mod_lt _ (by omega))]
          rcases Nat.lt_or_ge (j + P.m) P.n with hin | hwrap
          · rw [Nat.mod_eq_of_lt hin, if_neg (by omega), Nat.add_assoc]
          · have hmod : (j + P.m) % P.n = j + P.m - P.n := by
              rw [Nat.mod_eq_sub_mod hwrap, Nat.mod_eq_of_lt (by omega)]
            rw [hmod, if_pos (by omega)]
            congr 1
            omega
        rw [twistAt, wordAt_setIfInBounds_self hj, hcur, hnext, hfar, if_pos (by omega),
          sequence_add]
      · rw [twistAt, wordAt_setIfInBounds_of_ne (by omega), ihk j hj, if_neg (by omega),
          if_neg (by omega)]

/-- **One pass in place** advances the sequence by as many words as there are. -/
theorem twist_spec {seed : BitVec w} {v : Vector (BitVec w) P.n} {o : ℕ} (h : Holds seed v o) :
    Holds seed (twist v) (o + P.n) := by
  intro j hj
  rw [twist, wordAt_twistUpTo h P.n le_rfl j hj, if_pos hj]
  congr 1
  omega

/-! ### Runs -/

/-- The engine after `k` draws: the next word to draw has place `n + k`. -/
def Ready (seed : BitVec w) (e : Engine P) (k : ℕ) : Prop :=
  ∃ o, Holds seed e.words o ∧ e.index ≤ P.n ∧ o + e.index = P.n + k

theorem ready_seeded (seed : BitVec w) : Ready seed (seeded P seed) 0 := by
  refine ⟨0, fun j hj => ?_, le_rfl, by simp [seeded]⟩
  rw [Nat.zero_add, sequence_of_lt seed hj]
  simp [wordAt, seeded, hj]

/-- One draw outputs the word whose turn it is. -/
theorem draw_spec {seed : BitVec w} {e : Engine P} {k : ℕ} (h : Ready seed e k) :
    (draw e).1 = P.temper (sequence P seed (P.n + k)) ∧ Ready seed (draw e).2 (k + 1) := by
  obtain ⟨o, hwords, hindex, hplace⟩ := h
  unfold draw
  split_ifs with hlt
  · refine ⟨?_, o, hwords, hlt, ?_⟩
    · dsimp only
      rw [hwords _ hlt, hplace]
    · dsimp only
      omega
  · -- the words are used up
    have hone := P.one_lt
    have htwist := twist_spec hwords
    refine ⟨?_, o + P.n, htwist, ?_, ?_⟩
    · dsimp only
      rw [htwist 0 (by omega)]
      congr 2
      omega
    · dsimp only
      omega
    · dsimp only
      omega

theorem draws_of_ready {seed : BitVec w} (count : ℕ) : ∀ (e : Engine P) (k : ℕ), Ready seed e k →
    draws count e = (List.range' k count).map fun i => P.temper (sequence P seed (P.n + i)) := by
  induction count with
  | zero =>
      intro e k _
      rfl
  | succ count ih =>
      intro e k h
      obtain ⟨hout, hnext⟩ := draw_spec h
      rw [draws, hout, ih _ _ hnext, List.range'_succ, List.map_cons]

/-- **Every draw is a tempered word of the sequence**, after the words of the seeding. -/
theorem draws_seeded (seed : BitVec w) (count : ℕ) : draws count (seeded P seed) =
    (List.range' 0 count).map fun i => P.temper (sequence P seed (P.n + i)) :=
  draws_of_ready count _ 0 (ready_seeded seed)

end MersenneTwister
