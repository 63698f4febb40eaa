/-
**Front coding.**

A run of words is stored with front coding by keeping, for every word, how much of it the word in
front of it has already, and the rest.  What is kept in this way is never less than the number of
different beginnings of the words, one symbol for each of them; and it is that number as soon as the
words with a common beginning stand together, as they do in a sorted run.  This module names no
program.

Main definitions:

* `FrontCoding.common` — the length of the longest common beginning;
* `FrontCoding.size` — the number of symbols that are kept of a run;
* `FrontCoding.beginnings` — the different beginnings of the words of a run;
* `FrontCoding.Gathered` — words with a common beginning stand together.

Main results:

* `FrontCoding.card_beginnings_le_size` — every beginning has to be kept once;
* `FrontCoding.size_eq_card_beginnings` — **a run that is gathered keeps every beginning once**;
* `FrontCoding.gathered_of_pairwise` — a sorted run is gathered.
-/

import Mathlib.Data.Finset.Card
import Mathlib.Data.List.Infix
import Mathlib.Order.Interval.Finset.Nat

set_option relaxedAutoImplicit false
set_option autoImplicit false

namespace FrontCoding

variable {α : Type*}

/-! ### Words that stand together -/

/-- A beginning of two words of the run is a beginning of the words between them. -/
def Gathered (ws : List (List α)) : Prop :=
  ∀ a b c, List.Sublist [a, b, c] ws → ∀ p, p <+: a → p <+: c → p <+: b

theorem Gathered.tail {w : List α} {ws : List (List α)} (h : Gathered (w :: ws)) : Gathered ws :=
  fun a b c habc => h a b c (habc.cons w)

/-- Nothing but the empty word begins the empty word. -/
theorem Gathered.nil_cons {ws : List (List α)} (h : Gathered ws) : Gathered ([] :: ws) := by
  intro a b c habc p hpa hpc
  cases habc with
  | cons _ hrest => exact h a b c hrest p hpa hpc
  | cons_cons _ hrest => exact List.prefix_nil.1 hpa ▸ List.nil_prefix

/-! ### Sorted runs -/

section Sorted

variable [LT α] [Std.Trichotomous (· < · : α → α → Prop)]

/-- What lies between two words in the order has their common beginnings. -/
theorem prefix_between {p a b c : List α} (ha : p <+: a) (hc : p <+: c) (hab : ¬ b < a)
    (hbc : ¬ c < b) : p <+: b := by
  induction p generalizing a b c with
  | nil => exact List.nil_prefix
  | cons x p ih =>
      obtain ⟨a', a, rfl⟩ := List.exists_cons_of_ne_nil (List.IsPrefix.ne_nil ha (by simp))
      obtain ⟨c', c, rfl⟩ := List.exists_cons_of_ne_nil (List.IsPrefix.ne_nil hc (by simp))
      obtain ⟨rfl, hpa⟩ := List.cons_prefix_cons.1 ha
      obtain ⟨rfl, hpc⟩ := List.cons_prefix_cons.1 hc
      cases b with
      | nil => exact absurd (List.nil_lt_cons _ _) hab
      | cons y b =>
          rw [List.cons_lt_cons_iff] at hab hbc
          have hxy : y = x := Std.Trichotomous.trichotomous y x (fun h => hab (Or.inl h))
            fun h => hbc (Or.inl h)
          subst hxy
          exact List.cons_prefix_cons.2 ⟨rfl, ih hpa hpc (fun h => hab (Or.inr ⟨rfl, h⟩))
            fun h => hbc (Or.inr ⟨rfl, h⟩)⟩

/-- **A sorted run is gathered.** -/
theorem gathered_of_pairwise {ws : List (List α)} (h : ws.Pairwise fun a b => ¬ b < a) :
    Gathered ws := by
  intro a b c habc p hpa hpc
  obtain ⟨ha, hbc⟩ := List.pairwise_cons.1 (h.sublist habc)
  obtain ⟨hb, -⟩ := List.pairwise_cons.1 hbc
  exact prefix_between hpa hpc (ha b (by simp)) (hb c (by simp))

end Sorted

variable [DecidableEq α]

/-! ### Common beginnings -/

/-- The length of the longest common beginning of two words. -/
def common : List α → List α → ℕ
  | a :: l, b :: m => if a = b then common l m + 1 else 0
  | _, _ => 0

@[simp] theorem common_nil (m : List α) : common [] m = 0 := by simp [common]

@[simp] theorem common_nil_right (l : List α) : common l [] = 0 := by simp [common]

/-- The beginnings of the second word that the first one has too. -/
theorem prefix_iff_common {p l m : List α} (h : p <+: m) : p <+: l ↔ p.length ≤ common l m := by
  induction p generalizing l m with
  | nil => simp
  | cons x p ih =>
      obtain ⟨b, m, rfl⟩ := List.exists_cons_of_ne_nil (List.IsPrefix.ne_nil h (by simp))
      obtain ⟨rfl, hp⟩ := List.cons_prefix_cons.1 h
      cases l with
      | nil => simp
      | cons a l =>
          rw [List.cons_prefix_cons, List.length_cons, common]
          by_cases hab : a = x
          · rw [if_pos hab, and_iff_right hab.symm, ih hp]
            omega
          · rw [if_neg hab]
            exact iff_of_false (fun hx => hab hx.1.symm) (by omega)

/-! ### What is kept of a run -/

/-- The number of symbols that are kept of a run behind the word `prev`. -/
def size : List α → List (List α) → ℕ
  | _, [] => 0
  | prev, w :: ws => w.length - common prev w + size w ws

/-- The beginnings of the words of a run, but for the empty one. -/
def beginnings (ws : List (List α)) : Finset (List α) :=
  (ws.flatMap fun w => w.inits.filter (· ≠ [])).toFinset

theorem mem_beginnings {ws : List (List α)} {p : List α} :
    p ∈ beginnings ws ↔ p ≠ [] ∧ ∃ w ∈ ws, p <+: w := by
  simp only [beginnings, List.mem_toFinset, List.mem_flatMap, List.mem_filter, List.mem_inits,
    decide_eq_true_eq]
  constructor
  · rintro ⟨w, hw, hp, hne⟩
    exact ⟨hne, w, hw, hp⟩
  · rintro ⟨hne, w, hw, hp⟩
    exact ⟨w, hw, hp, hne⟩

@[simp] theorem beginnings_nil : beginnings ([] : List (List α)) = ∅ := rfl

@[simp] theorem beginnings_singleton_nil : beginnings [([] : List α)] = ∅ := by simp [beginnings]

theorem beginnings_cons (w : List α) (ws : List (List α)) :
    beginnings (w :: ws) = beginnings [w] ∪ beginnings ws := by
  ext p
  simp only [Finset.mem_union, mem_beginnings, List.mem_cons, List.not_mem_nil, or_false,
    exists_eq_or_imp, exists_eq_left]
  exact and_or_left

/-- The order of a run does not change its beginnings. -/
theorem beginnings_perm {ws ws' : List (List α)} (h : ws.Perm ws') :
    beginnings ws = beginnings ws' := by
  ext p
  simp only [mem_beginnings, h.mem_iff]

/-- What a word keeps are its beginnings that the word in front of it does not have. -/
theorem card_new (prev w : List α) :
    (beginnings [w] \ beginnings [prev]).card = w.length - common prev w := by
  have hnew : beginnings [w] \ beginnings [prev] =
      (Finset.Ioc (common prev w) w.length).image fun i => w.take i := by
    ext p
    simp only [Finset.mem_sdiff, mem_beginnings, List.mem_singleton, exists_eq_left,
      Finset.mem_image, Finset.mem_Ioc]
    constructor
    · rintro ⟨⟨hne, hp⟩, hnot⟩
      have hlong := (prefix_iff_common (l := prev) hp).not.1 fun h => hnot ⟨hne, h⟩
      exact ⟨p.length, ⟨by omega, hp.length_le⟩, (List.prefix_iff_eq_take.1 hp).symm⟩
    · rintro ⟨i, ⟨hlo, hhi⟩, rfl⟩
      have hlen : (w.take i).length = i := List.length_take_of_le hhi
      have hp := List.take_prefix i w
      refine ⟨⟨List.ne_nil_of_length_pos (by omega), hp⟩, fun h => ?_⟩
      have hshort := (prefix_iff_common hp).1 h.2
      omega
  have hinj : Set.InjOn (fun i => w.take i) (Finset.Ioc (common prev w) w.length : Finset ℕ) := by
    intro i hi j hj hij
    rw [Finset.coe_Ioc, Set.mem_Ioc] at hi hj
    have hlen := congrArg List.length hij
    dsimp only at hlen
    rwa [List.length_take_of_le hi.2, List.length_take_of_le hj.2] at hlen
  rw [hnew, Finset.card_image_of_injOn hinj, Nat.card_Ioc]

/-- Behind a word, every beginning is kept that the word does not have. -/
theorem card_sdiff_le_size (prev : List α) (ws : List (List α)) :
    (beginnings ws \ beginnings [prev]).card ≤ size prev ws := by
  induction ws generalizing prev with
  | nil => simp
  | cons w ws ih =>
      have hsub : beginnings (w :: ws) \ beginnings [prev] ⊆
          (beginnings [w] \ beginnings [prev]) ∪ (beginnings ws \ beginnings [w]) := by
        rw [beginnings_cons]
        intro p hp
        simp only [Finset.mem_sdiff, Finset.mem_union] at hp ⊢
        tauto
      calc (beginnings (w :: ws) \ beginnings [prev]).card
          ≤ (beginnings [w] \ beginnings [prev]).card + (beginnings ws \ beginnings [w]).card :=
            (Finset.card_le_card hsub).trans (Finset.card_union_le _ _)
        _ ≤ w.length - common prev w + size w ws := by
            rw [card_new]
            exact Nat.add_le_add_left (ih w) _

/-- **Every beginning is kept**, at least once. -/
theorem card_beginnings_le_size (ws : List (List α)) : (beginnings ws).card ≤ size [] ws := by
  have hle := card_sdiff_le_size [] ws
  rwa [beginnings_singleton_nil, Finset.sdiff_empty] at hle

/-! ### What is kept of a gathered run -/

/-- Behind a word, a gathered run keeps the beginnings once that the word does not have. -/
theorem size_eq_card_sdiff {prev : List α} {ws : List (List α)} (h : Gathered (prev :: ws)) :
    size prev ws = (beginnings ws \ beginnings [prev]).card := by
  induction ws generalizing prev with
  | nil => simp [size]
  | cons w ws ih =>
      -- a later word has no beginning of `prev` that `w` has lost
      have hbetween : ∀ v ∈ ws, ∀ p, p <+: prev → p <+: v → p <+: w := fun v hv =>
        h prev w v (((List.singleton_sublist.2 hv).cons_cons w).cons_cons prev)
      have hsplit : beginnings (w :: ws) \ beginnings [prev] =
          (beginnings [w] \ beginnings [prev]) ∪ (beginnings ws \ beginnings [w]) := by
        rw [beginnings_cons]
        ext p
        simp only [Finset.mem_sdiff, Finset.mem_union]
        constructor
        · tauto
        · rintro (hnew | ⟨hlater, hnot⟩)
          · exact ⟨Or.inl hnew.1, hnew.2⟩
          · refine ⟨Or.inr hlater, fun hprev => hnot ?_⟩
            simp only [mem_beginnings, List.mem_singleton, exists_eq_left] at hprev hlater ⊢
            obtain ⟨hne, v, hv, hpv⟩ := hlater
            exact ⟨hne, hbetween v hv p hprev.2 hpv⟩
      have hdisj : Disjoint (beginnings [w] \ beginnings [prev]) (beginnings ws \ beginnings [w]) :=
        Finset.disjoint_left.2 fun p hp hq => (Finset.mem_sdiff.1 hq).2 (Finset.mem_sdiff.1 hp).1
      rw [size, ih h.tail, hsplit, Finset.card_union_of_disjoint hdisj, card_new]

/-- **A run that is gathered keeps every beginning once.** -/
theorem size_eq_card_beginnings {ws : List (List α)} (h : Gathered ws) :
    size [] ws = (beginnings ws).card := by
  rw [size_eq_card_sdiff h.nil_cons, beginnings_singleton_nil, Finset.sdiff_empty]


/-! ### Counting images -/

/-- Two functions that tell the members of a list apart alike have equally many values on it. -/
theorem card_toFinset_map_congr {β γ ι : Type*} [DecidableEq β] [DecidableEq γ] {l : List ι}
    {f : ι → β} {g : ι → γ} (h : ∀ i ∈ l, ∀ j ∈ l, f i = f j ↔ g i = g j) :
    (l.map f).toFinset.card = (l.map g).toFinset.card := by
  induction l with
  | nil => rfl
  | cons i l ih =>
      have hmem : f i ∈ (l.map f).toFinset ↔ g i ∈ (l.map g).toFinset := by
        simp only [List.mem_toFinset, List.mem_map]
        refine exists_congr fun j => and_congr_right fun hj => ?_
        exact h j (List.mem_cons_of_mem _ hj) i (List.mem_cons_self ..)
      have hrest := ih fun j hj k hk =>
        h j (List.mem_cons_of_mem _ hj) k (List.mem_cons_of_mem _ hk)
      rw [List.map_cons, List.map_cons, List.toFinset_cons, List.toFinset_cons,
        Finset.card_insert_eq_ite, Finset.card_insert_eq_ite, hrest]
      simp only [hmem]

end FrontCoding
