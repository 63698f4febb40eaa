/-
**Interleavings of `generate()`.**

`cuuid_v6::generate()` mints a UUID under the mutex of `UUIDGenerator`, and only then claims a time
from the atomic variable `last`, so that other threads can mint and claim between the two.  This
module embeds the call as a transition system over any number of threads: the mint, the load of
`last`, the failing exchanges (spurious ones too, since the exchange is weak) and the one that
succeeds are single steps, in any order of the threads, with other calls of `UUIDGenerator` in
between.

Two things hold over every run.  All UUIDs that were minted carry the one clock sequence of the
process.  And an exchange succeeds only on the value that it was computed from, so each claimed time
is above all earlier ones, in whatever order the threads minted.

Main definitions:

* `Cuuid.Generate.Thread`, `Cuuid.Generate.World`, `Cuuid.Generate.step` — the transition system;
* `Cuuid.Generate.ClockInv`, `Cuuid.Generate.TimeInv` — the invariants.

Main results:

* `Cuuid.Generate.step_cases` — what a step can do;
* `Cuuid.Generate.clockInv_run`, `Cuuid.Generate.timeInv_run` — the invariants hold over every run;
* `Cuuid.generate_unique` — **ids of `generate()` are unique and ordered** under any interleaving.
-/

import Mathlib.Logic.Function.Basic
import Cuuid.Lib.Transition
import Cuuid.Generator
import Cuuid.V6

set_option relaxedAutoImplicit false
set_option autoImplicit false

namespace Cuuid

namespace Generate

open Transition UUIDGenerator

/-! ### The transition system -/

/-- Where a thread stands in `generate()`. -/
inductive Thread where
  | idle
  /-- After the mint, with the local variable `base`. -/
  | minted (base : UUID)
  /-- In the loop, with the local variables `base` and `prev`. -/
  | claiming (base : UUID) (prev : UInt64)

/-- A time that was claimed, and what the call returned for it. -/
structure Claim (ι : Type*) where
  thread : ι
  base : UUID
  time : UInt64
  id : UUID

/-- The static variables of the process, its threads, and the claims so far, oldest first. -/
structure World (ι : Type*) where
  generator : GeneratorState
  last : UInt64
  thread : ι → Thread
  claims : List (Claim ι)

inductive Action (ι : Type*) where
  | mint (i : ι) (uuid : PlatformUUID)
  | load (i : ι)
  | exchangeFails (i : ι)
  | exchange (i : ι) (localNodeHash : Option UInt64)
  /-- A call of `UUIDGenerator` outside `generate()`. -/
  | generator (localNodeHash : Option UInt64) (uuid : PlatformUUID) (compact : Bool)

/-- The time that the loop tries to claim. -/
def nextTime (time prev : UInt64) : UInt64 := if time > prev then time else prev + 1

variable {ι : Type*}

/-- What a call claims and returns, when its exchange succeeds on `prev`. -/
def claimOf (i : ι) (localNodeHash : Option UInt64) (base : UUID) (prev : UInt64) : Claim ι :=
  let time := nextTime base.uuid1Time prev
  { thread := i
    base := base
    time := time
    id := V6.make localNodeHash ⟨time, base.uuid1ClockSeq, base.uuid1Node⟩ }

/-- The process before the first call. -/
def init : World ι := ⟨UUIDGenerator.init, 0, fun _ => .idle, []⟩

variable [DecidableEq ι]

/-- One step of a thread, if it is there.  A failing exchange, like the load, leaves the current
value of `last` in `prev`. -/
def step (w : World ι) : Action ι → Option (World ι)
  | .mint i uuid =>
      match w.thread i with
      | .idle =>
          let (base, generator) := call none w.generator uuid false
          some { w with
            generator := generator
            thread := Function.update w.thread i (.minted base) }
      | _ => none
  | .load i =>
      match w.thread i with
      | .minted base =>
          some { w with thread := Function.update w.thread i (.claiming base w.last) }
      | _ => none
  | .exchangeFails i =>
      match w.thread i with
      | .claiming base _ =>
          some { w with thread := Function.update w.thread i (.claiming base w.last) }
      | _ => none
  | .exchange i localNodeHash =>
      match w.thread i with
      | .claiming base prev =>
          if w.last = prev then
            let claim := claimOf i localNodeHash base prev
            some { w with
              last := claim.time
              thread := Function.update w.thread i .idle
              claims := w.claims ++ [claim] }
          else none
      | _ => none
  | .generator localNodeHash uuid compact =>
      some { w with generator := (call localNodeHash w.generator uuid compact).2 }

/-- The UUID that a call in progress has minted. -/
def Thread.base : Thread → Option UUID
  | idle => none
  | minted base => some base
  | claiming base _ => some base

/-- **What a step can do**: mint, see the current `last`, claim, or call the generator elsewhere. -/
theorem step_cases {w w' : World ι} {a : Action ι} (h : step w a = some w') :
    (∃ i uuid, a = .mint i uuid ∧ w.thread i = .idle ∧ w' = { w with
      generator := (assign w.generator uuid).2
      thread := Function.update w.thread i (.minted (assign w.generator uuid).1) }) ∨
    (∃ i base, (a = .load i ∨ a = .exchangeFails i) ∧ (w.thread i).base = some base ∧
      w' = { w with thread := Function.update w.thread i (.claiming base w.last) }) ∨
    (∃ i localNodeHash base, a = .exchange i localNodeHash ∧
      w.thread i = .claiming base w.last ∧ w' = { w with
        last := (claimOf i localNodeHash base w.last).time
        thread := Function.update w.thread i .idle
        claims := w.claims ++ [claimOf i localNodeHash base w.last] }) ∨
    (∃ localNodeHash uuid compact, a = .generator localNodeHash uuid compact ∧
      w' = { w with generator := (assign w.generator uuid).2 }) := by
  cases a with
  | mint i uuid =>
      simp only [step, call_eq] at h
      cases hi : w.thread i with
      | idle =>
          rw [hi] at h
          exact Or.inl ⟨i, uuid, rfl, hi, (Option.some.inj h).symm⟩
      | minted base => simp [hi] at h
      | claiming base prev => simp [hi] at h
  | load i =>
      simp only [step] at h
      cases hi : w.thread i with
      | idle => simp [hi] at h
      | minted base =>
          rw [hi] at h
          exact Or.inr (Or.inl ⟨i, base, Or.inl rfl, by rw [hi, Thread.base],
            (Option.some.inj h).symm⟩)
      | claiming base prev => simp [hi] at h
  | exchangeFails i =>
      simp only [step] at h
      cases hi : w.thread i with
      | idle => simp [hi] at h
      | minted base => simp [hi] at h
      | claiming base prev =>
          rw [hi] at h
          exact Or.inr (Or.inl ⟨i, base, Or.inr rfl, by rw [hi, Thread.base],
            (Option.some.inj h).symm⟩)
  | exchange i localNodeHash =>
      simp only [step] at h
      cases hi : w.thread i with
      | idle => simp [hi] at h
      | minted base => simp [hi] at h
      | claiming base prev =>
          rw [hi] at h
          dsimp only at h
          split_ifs at h with hlast
          subst hlast
          exact Or.inr (Or.inr (Or.inl ⟨i, localNodeHash, base, rfl, hi, (Option.some.inj h).symm⟩))
  | generator localNodeHash uuid compact =>
      simp only [step, call_eq] at h
      exact Or.inr (Or.inr (Or.inr ⟨localNodeHash, uuid, compact, rfl, (Option.some.inj h).symm⟩))

/-! ### The clock sequence -/

/-- Every UUID that was minted for `generate()` carries the clock sequence of the process. -/
structure ClockInv (w : World ι) : Prop where
  clockSeq_lt : w.generator.clockSeq < 2 ^ 14
  of_thread : ∀ i base, (w.thread i).base = some base →
    (base.uuid1ClockSeq.toNat : ℤ) = w.generator.clockSeq
  of_claim : ∀ c ∈ w.claims, (c.base.uuid1ClockSeq.toNat : ℤ) = w.generator.clockSeq

/-- After a step of one thread, a UUID in progress is that thread's, or was in progress before. -/
theorem base_of_update {thread : ι → Thread} {i j : ι} {t : Thread} {base : UUID}
    (h : (Function.update thread i t j).base = some base) :
    t.base = some base ∨ (thread j).base = some base := by
  rcases eq_or_ne j i with rfl | hne
  · rw [Function.update_self] at h
    exact Or.inl h
  · rw [Function.update_of_ne hne] at h
    exact Or.inr h

omit [DecidableEq ι] in
theorem clockInv_init : ClockInv (init : World ι) where
  clockSeq_lt := by simp [init, UUIDGenerator.init]
  of_thread := by simp [init, Thread.base]
  of_claim := by simp [init]

theorem clockInv_step {w w' : World ι} {a : Action ι} (h : step w a = some w') (hw : ClockInv w) :
    ClockInv w' := by
  obtain ⟨hlt, hthread, hclaim⟩ := hw
  obtain ⟨i, uuid, -, -, rfl⟩ | ⟨i, base, -, hbase, rfl⟩ | ⟨i, localNodeHash, base, -, hi, rfl⟩ |
    ⟨localNodeHash, uuid, compact, -, rfl⟩ := step_cases h
  · -- the mint: what was minted before keeps its clock sequence, and the new UUID gets the same
    refine ⟨(clockSeq_assign_lt hlt uuid).2, ?_, ?_⟩
    · intro j base hj
      rcases base_of_update hj with hnew | hold
      · rw [Thread.base, Option.some.injEq] at hnew
        rw [← hnew]
        exact uuid1ClockSeq_assign hlt uuid
      · exact clockSeq_assign_of_eq (hthread j base hold) uuid
    · intro c hc
      exact clockSeq_assign_of_eq (hclaim c hc) uuid
  · -- `base` stays as it is
    refine ⟨hlt, ?_, hclaim⟩
    intro j base' hj
    rcases base_of_update hj with hsame | hold
    · rw [Thread.base, ← hbase] at hsame
      exact hthread i base' hsame
    · exact hthread j base' hold
  · -- `base` moves from the thread to its claim
    refine ⟨hlt, ?_, ?_⟩
    · intro j base' hj
      rcases base_of_update hj with hidle | hold
      · cases hidle
      · exact hthread j base' hold
    · intro c hc
      rcases List.mem_append.1 hc with hc | hc
      · exact hclaim c hc
      · rw [List.mem_singleton] at hc
        subst hc
        exact hthread i base (by rw [hi, Thread.base])
  · refine ⟨(clockSeq_assign_lt hlt uuid).2, ?_, ?_⟩
    · intro j base hj
      exact clockSeq_assign_of_eq (hthread j base hj) uuid
    · intro c hc
      exact clockSeq_assign_of_eq (hclaim c hc) uuid

/-- **One clock sequence** over every run. -/
theorem clockInv_run {w : World ι} {as : List (Action ι)} (h : run step init as = some w) :
    ClockInv w := run_invariant clockInv_step clockInv_init h

/-! ### The claimed times -/

/-- No claimed time reaches `2 ^ 60`. -/
def World.Bounded (w : World ι) : Prop := ∀ c ∈ w.claims, c.time.toNat < 2 ^ 60

/-- What a call claims and returns. -/
structure Claim.Sound (c : Claim ι) : Prop where
  pos : 0 < c.time
  base_le : c.base.uuid1Time ≤ c.time
  id_eq : ∃ localNodeHash, c.id =
    V6.make localNodeHash ⟨c.time, c.base.uuid1ClockSeq, c.base.uuid1Node⟩

/-- The claimed times increase up to `last`. -/
structure TimeInv (w : World ι) : Prop where
  last_lt : w.last.toNat < 2 ^ 60
  le_last : ∀ c ∈ w.claims, c.time ≤ w.last
  increasing : w.claims.Pairwise fun c d => c.time < d.time
  sound : ∀ c ∈ w.claims, c.Sound

/-- The loop tries the maximum of the minted time and the next one. -/
theorem toNat_nextTime (time : UInt64) {prev : UInt64} (hprev : prev.toNat < 2 ^ 60) :
    (nextTime time prev).toNat = max time.toNat (prev.toNat + 1) := by
  -- the same rule as in `UUIDGenerator`, written the other way round
  have hnext : nextTime time prev = if time ≤ prev then prev + 1 else time := by
    unfold nextTime
    by_cases hle : time ≤ prev
    · rw [if_neg (UInt64.not_lt.2 hle), if_pos hle]
    · rw [if_pos (UInt64.not_le.1 hle), if_neg hle]
  rw [hnext, toNat_later time hprev]

omit [DecidableEq ι] in
/-- The step: a claim is above `last`, and sound. -/
theorem claimOf_spec (i : ι) (localNodeHash : Option UInt64) (base : UUID) {prev : UInt64}
    (hprev : prev.toNat < 2 ^ 60) :
    prev < (claimOf i localNodeHash base prev).time ∧
      (claimOf i localNodeHash base prev).Sound := by
  have htime := toNat_nextTime base.uuid1Time hprev
  have hclaim : (claimOf i localNodeHash base prev).time = nextTime base.uuid1Time prev := rfl
  refine ⟨?_, ?_, ?_, localNodeHash, rfl⟩
  · rw [hclaim, UInt64.lt_iff_toNat_lt, htime]
    omega
  · rw [hclaim, UInt64.lt_iff_toNat_lt, htime, UInt64.toNat_zero]
    omega
  · rw [hclaim, UInt64.le_iff_toNat_le, htime]
    exact Nat.le_max_left _ _

/-- Claims are never taken back, so a bound on them held before. -/
theorem bounded_of_step {w w' : World ι} {a : Action ι} (h : step w a = some w')
    (hw : w'.Bounded) : w.Bounded := by
  obtain ⟨i, uuid, -, -, rfl⟩ | ⟨i, base, -, -, rfl⟩ | ⟨i, localNodeHash, base, -, -, rfl⟩ |
    ⟨localNodeHash, uuid, compact, -, rfl⟩ := step_cases h
  · exact hw
  · exact hw
  · intro c hc
    exact hw c (List.mem_append_left _ hc)
  · exact hw

omit [DecidableEq ι] in
theorem timeInv_init : TimeInv (init : World ι) where
  last_lt := Nat.two_pow_pos 60
  le_last := by simp [init]
  increasing := List.Pairwise.nil
  sound := by simp [init]

theorem timeInv_step {w w' : World ι} {a : Action ι} (h : step w a = some w') (hw' : w'.Bounded)
    (hw : TimeInv w) : TimeInv w' := by
  obtain ⟨hlt, hle, hinc, hsound⟩ := hw
  obtain ⟨i, uuid, -, -, rfl⟩ | ⟨i, base, -, -, rfl⟩ | ⟨i, localNodeHash, base, -, -, rfl⟩ |
    ⟨localNodeHash, uuid, compact, -, rfl⟩ := step_cases h
  · exact ⟨hlt, hle, hinc, hsound⟩
  · exact ⟨hlt, hle, hinc, hsound⟩
  · -- only a successful exchange moves `last`, and it moves it up
    obtain ⟨hnext, hnew⟩ := claimOf_spec i localNodeHash base hlt
    refine ⟨hw' _ (List.mem_append_right _ (List.mem_singleton_self _)), ?_, ?_, ?_⟩
    · intro c hc
      rcases List.mem_append.1 hc with hc | hc
      · exact UInt64.le_trans (hle c hc) (UInt64.le_of_lt hnext)
      · rw [List.mem_singleton.1 hc]
        exact UInt64.le_refl _
    · rw [List.pairwise_append]
      refine ⟨hinc, List.pairwise_singleton _ _, ?_⟩
      intro c hc d hd
      rw [List.mem_singleton.1 hd]
      exact UInt64.lt_of_le_of_lt (hle c hc) hnext
    · intro c hc
      rcases List.mem_append.1 hc with hc | hc
      · exact hsound c hc
      · rw [List.mem_singleton.1 hc]
        exact hnew
  · exact ⟨hlt, hle, hinc, hsound⟩

/-- **Claimed times increase** over every run. -/
theorem timeInv_run {w : World ι} {as : List (Action ι)} (h : run step init as = some w)
    (hw : w.Bounded) : TimeInv w :=
  run_induction bounded_of_step timeInv_step timeInv_init h hw

omit [DecidableEq ι] in
/-- Claims of distinct times under one clock have distinct wires. -/
theorem wire_ne {c d : Claim ι} (hc : c.Sound) (hd : d.Sound) (hlt : c.time < d.time)
    (hd' : d.time.toNat < 2 ^ 60) (hclock : c.base.uuid1ClockSeq = d.base.uuid1ClockSeq) :
    ∃ x y, V6.serialise c.id = .ok x ∧ V6.serialise d.id = .ok y ∧ x ≠ y := by
  obtain ⟨hpos, -, h₁, hid₁⟩ := hc
  obtain ⟨-, -, h₂, hid₂⟩ := hd
  rw [hid₁, hid₂, V6.serialise_make, V6.serialise_make]
  refine ⟨_, _, rfl, rfl, ?_⟩
  dsimp only
  rw [hclock]
  exact crushLayout_wire_ne (UUID.uuid1ClockSeq_lt _) hpos hlt hd' _ _

end Generate

open Transition Generate in
/-- **Ids of `generate()` are unique and ordered** under any interleaving.  As long as no claimed
time reaches `2 ^ 60`: every successful exchange moves `last` up; the claimed times are distinct,
not before the minted ones, and increase within each thread; and the ids that are returned, and
their wires, are distinct. -/
theorem generate_unique {ι : Type*} [DecidableEq ι] {as : List (Action ι)} {w : World ι}
    (hrun : run step init as = some w) (hbound : ∀ c ∈ w.claims, c.time.toNat < 2 ^ 60) :
    (∀ as₁ i localNodeHash as₂ w₁ w₂, as = as₁ ++ .exchange i localNodeHash :: as₂ →
      run step init as₁ = some w₁ → step w₁ (.exchange i localNodeHash) = some w₂ →
        w₁.last < w₂.last) ∧
    w.claims.Pairwise (fun c d => c.time ≠ d.time) ∧
    (∀ c ∈ w.claims, c.base.uuid1Time ≤ c.time) ∧
    (∀ i, (w.claims.filter (fun c => c.thread = i)).Pairwise (fun c d => c.time < d.time)) ∧
    w.claims.Pairwise (fun c d => c.id ≠ d.id ∧
      ∃ x y, V6.serialise c.id = .ok x ∧ V6.serialise d.id = .ok y ∧ x ≠ y) := by
  have hclock := clockInv_run hrun
  have htime := timeInv_run hrun hbound
  refine ⟨?_, ?_, ?_, ?_, ?_⟩
  · rintro as₁ i localNodeHash as₂ w₁ w₂ rfl h₁ hstep
    obtain ⟨w₁', h₁', hrest⟩ := run_append_iff.1 hrun
    obtain ⟨w₂', hstep', hrest⟩ := run_cons_iff.1 hrest
    rw [h₁, Option.some.injEq] at h₁'
    subst h₁'
    rw [hstep, Option.some.injEq] at hstep'
    subst hstep'
    -- the bound on the last state holds before the exchange
    have hw₁ : w₁.Bounded := bounded_of_step hstep (bound_of_run bounded_of_step hrest hbound)
    have hlt := (timeInv_run h₁ hw₁).last_lt
    obtain ⟨_, _, h, -⟩ | ⟨_, _, h | h, -⟩ | ⟨j, lnh, base, -, -, rfl⟩ | ⟨_, _, _, h, -⟩ :=
      step_cases hstep
    · cases h
    · cases h
    · cases h
    · exact (claimOf_spec j lnh base hlt).1
    · cases h
  · exact htime.increasing.imp fun h => UInt64.ne_of_lt h
  · intro c hc
    exact (htime.sound c hc).base_le
  · intro i
    exact htime.increasing.filter _
  · refine htime.increasing.imp_of_mem ?_
    intro c d hc hd hlt
    have hseq : c.base.uuid1ClockSeq = d.base.uuid1ClockSeq := by
      rw [← UInt16.toNat_inj, ← Nat.cast_inj (R := ℤ), hclock.of_claim c hc, hclock.of_claim d hd]
    obtain ⟨x, y, hx, hy, hne⟩ :=
      wire_ne (htime.sound c hc) (htime.sound d hd) hlt (hbound d hd) hseq
    refine ⟨?_, x, y, hx, hy, hne⟩
    intro heq
    rw [heq, hy] at hx
    exact hne (Except.ok.inj hx).symm

open Transition Generate in
/-- Two threads that mint one time: the second to claim fails first, and claims the next tick. -/
theorem generate_unique_two_threads : ∃ uuid : PlatformUUID, ∃ w : World Bool,
    run step init [.mint true uuid, .mint false uuid, .load false, .load true, .exchange true none,
      .exchangeFails false, .generator none uuid true, .exchange false (some 3)] = some w ∧
    w.claims.length = 2 ∧ w.claims.Pairwise (fun c d => c.id ≠ d.id) := by
  let uuid : PlatformUUID :=
    ⟨UUID.ofCondensed ⟨uuidTimeInitial + 7, 5, 0x1234⟩, by decide +kernel⟩
  have hany : (run step init [.mint true uuid, .mint false uuid, .load false, .load true,
      .exchange true none, .exchangeFails false, .generator none uuid true,
      .exchange false (some 3)]).any (fun w => w.claims.length = 2 ∧
        ∀ c ∈ w.claims, c.time.toNat < 2 ^ 60) = true := by decide +kernel
  obtain ⟨w, hrun, hw⟩ := (Option.any_eq_true _ _).1 hany
  obtain ⟨hlength, hbound⟩ := of_decide_eq_true hw
  exact ⟨uuid, w, hrun, hlength, (generate_unique hrun hbound).2.2.2.2.imp And.left⟩

end Cuuid
