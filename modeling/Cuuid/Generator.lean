/-
**The generator.**

This module embeds `UUIDGenerator::operator()` and follows its static variables through any sequence
of calls.  The platform's `newUUID()` is outside the repository, so the UUID it returns is an
argument of a call; so is the value of the host's `local_node_hash()`, which may change between
calls.

The argument has two halves.  Over a run, the variable `last` only grows and the clock sequence of
the first call stays, so that the times that are assigned are distinct under one clock.  And
compaction under one clock keeps distinct times apart, although it drops most of the node and folds
part of the time into the clock (`Cuuid.time_eq_of_crushLayout_eq`).

Main definitions:

* `Cuuid.GeneratorState`, `Cuuid.UUIDGenerator.call` — the static variables, and one call;
* `Cuuid.Issue`, `Cuuid.UUIDGenerator.issues` — what a call assigns and returns, over a run.

Main results:

* `Cuuid.UUIDGenerator.fields_assign` — what a call assigns;
* `Cuuid.UUIDGenerator.issues_increasing`, `Cuuid.UUIDGenerator.issues_issued` — what a run keeps;
* `Cuuid.generator_never_collides` — **the generator never collides**, whatever the platform does.
-/

import Cuuid.V1

set_option relaxedAutoImplicit false
set_option autoImplicit false

namespace Cuuid

/-- What `newUUID()` returns on a platform with time-based UUIDs. -/
abbrev PlatformUUID := {uuid : UUID // uuid.isRfc 1 = true}

/-- The static variables of `UUIDGenerator::operator()`. -/
structure GeneratorState where
  /-- The last time that was assigned. -/
  last : UInt64
  /-- The clock sequence of the process, `-1` before the first call. -/
  clockSeq : ℤ
deriving DecidableEq, Repr

/-- One call of the generator, with what it gets from outside. -/
structure Call where
  localNodeHash : Option UInt64
  uuid : PlatformUUID
  compact : Bool

/-- What a call assigned and returned. -/
structure Issue where
  call : Call
  /-- The variable `last` after the call. -/
  last : UInt64
  /-- The UUID before compaction. -/
  assigned : UUID
  result : UUID

namespace UUIDGenerator

/-- The static variables before the first call. -/
def init : GeneratorState := ⟨0, -1⟩

/-- The critical section of `operator()`. -/
def assign (s : GeneratorState) (uuid : UUID) : UUID × GeneratorState :=
  let time := uuid.uuid1Time
  let time := if time ≤ s.last then s.last + 1 else time
  let last := time
  let clockSeq := if s.clockSeq < 0 then (uuid.uuid1ClockSeq.toNat : ℤ) else s.clockSeq
  let uuid := uuid.setUuid1Time time
  let uuid := uuid.setUuid1ClockSeq (UInt16.ofInt clockSeq)
  (uuid, ⟨last, clockSeq⟩)

/-- One call of `operator()`, where `uuid` is what `newUUID()` returned. -/
def call (localNodeHash : Option UInt64) (s : GeneratorState) (uuid : UUID) (compact : Bool) :
    UUID × GeneratorState :=
  let (uuid, s) := if uuid.isRfc 1 then assign s uuid else (uuid, s)
  (if compact then uuid.compactCrush localNodeHash else uuid, s)

/-- The static variables after a call. -/
def after (s : GeneratorState) (c : Call) : GeneratorState :=
  (call c.localNodeHash s c.uuid c.compact).2

def issue (s : GeneratorState) (c : Call) : Issue where
  call := c
  last := (after s c).last
  assigned := (assign s c.uuid).1
  result := (call c.localNodeHash s c.uuid c.compact).1

/-- The calls of a process, one after the other. -/
def issues : GeneratorState → List Call → List Issue
  | _, [] => []
  | s, c :: cs => issue s c :: issues (after s c) cs

/-! ### One call -/

/-- On a platform with time-based UUIDs every call goes through the critical section. -/
theorem call_eq (localNodeHash : Option UInt64) (s : GeneratorState) (uuid : PlatformUUID)
    (compact : Bool) : call localNodeHash s uuid compact =
      (if compact then (assign s uuid).1.compactCrush localNodeHash else (assign s uuid).1,
        (assign s uuid).2) := by
  simp only [call, uuid.2, if_true]

theorem after_eq (s : GeneratorState) (c : Call) : after s c = (assign s c.uuid).2 := by
  rw [after, call_eq]

/-- The rule for a new time: the maximum of the one that is asked for and the next one. -/
theorem toNat_later (time : UInt64) {last : UInt64} (hlast : last.toNat < 2 ^ 60) :
    (if time ≤ last then last + 1 else time).toNat = max time.toNat (last.toNat + 1) := by
  have hnext : (last + 1).toNat = last.toNat + 1 := by
    rw [UInt64.toNat_add, UInt64.toNat_one]
    omega
  split_ifs with hle
  · rw [UInt64.le_iff_toNat_le] at hle
    omega
  · rw [UInt64.le_iff_toNat_le] at hle
    omega

theorem last_assign {s : GeneratorState} (hs : s.last.toNat < 2 ^ 60) (uuid : UUID) :
    (assign s uuid).2.last.toNat = max uuid.uuid1Time.toNat (s.last.toNat + 1) :=
  toNat_later uuid.uuid1Time hs

theorem clockSeq_assign_of_neg {s : GeneratorState} (hs : s.clockSeq < 0) (uuid : UUID) :
    (assign s uuid).2.clockSeq = uuid.uuid1ClockSeq.toNat := if_pos hs

/-- Once it is set, the clock sequence stays. -/
theorem clockSeq_assign_of_nonneg {s : GeneratorState} (hs : 0 ≤ s.clockSeq) (uuid : UUID) :
    (assign s uuid).2.clockSeq = s.clockSeq := if_neg (not_lt.2 hs)

/-- A clock sequence that the process has is the one that it keeps. -/
theorem clockSeq_assign_of_eq {s : GeneratorState} {n : ℕ} (h : (n : ℤ) = s.clockSeq)
    (uuid : UUID) : (n : ℤ) = (assign s uuid).2.clockSeq := by
  rw [clockSeq_assign_of_nonneg (by omega), h]

theorem isRfc_assign (s : GeneratorState) (uuid : UUID) (version : UInt8) :
    (assign s uuid).1.isRfc version = uuid.isRfc version := by
  simp [assign, UUID.isRfc, UUID.uuidVariant_eq, UUID.uuidVersion_eq]

/-- A clock sequence that is unset, or fits its field, is replaced by one that fits. -/
theorem clockSeq_assign_lt {s : GeneratorState} (hs : s.clockSeq < 2 ^ 14) (uuid : UUID) :
    0 ≤ (assign s uuid).2.clockSeq ∧ (assign s uuid).2.clockSeq < 2 ^ 14 := by
  have hclock := uuid.uuid1ClockSeq_lt
  rcases lt_or_ge s.clockSeq 0 with hneg | hnonneg
  · rw [clockSeq_assign_of_neg hneg]
    omega
  · rw [clockSeq_assign_of_nonneg hnonneg]
    exact ⟨hnonneg, hs⟩

theorem uuid1Time_assign {s : GeneratorState} {uuid : UUID}
    (hlast : (assign s uuid).2.last.toNat < 2 ^ 60) :
    (assign s uuid).1.uuid1Time = (assign s uuid).2.last := by
  have htime : (assign s uuid).1.uuid1Time =
      UInt64.ofNat ((assign s uuid).2.last.toNat % 2 ^ 60) := by
    simp [assign, UUID.uuid1Time_eq]
  rw [htime, Nat.mod_eq_of_lt hlast, UInt64.ofNat_toNat]

/-- A call assigns the clock sequence of the process. -/
theorem uuid1ClockSeq_assign {s : GeneratorState} (hs : s.clockSeq < 2 ^ 14) (uuid : UUID) :
    ((assign s uuid).1.uuid1ClockSeq.toNat : ℤ) = (assign s uuid).2.clockSeq := by
  obtain ⟨hnonneg, hlt⟩ := clockSeq_assign_lt hs uuid
  have hclock : (assign s uuid).1.uuid1ClockSeq =
      UInt16.ofNat ((UInt16.ofInt (assign s uuid).2.clockSeq).toNat % 2 ^ 14) := by
    simp [assign, UUID.uuid1ClockSeq_eq]
  rw [hclock, UInt16.ofInt, UInt16.toNat_ofNat', UInt16.toNat_ofNat']
  omega

theorem uuid1Node_assign (s : GeneratorState) (uuid : UUID) :
    (assign s uuid).1.uuid1Node = uuid.uuid1Node := by
  simp [assign, UUID.uuid1Node_eq]

/-- **What a call assigns**: its time, the clock sequence of the process, the platform's node. -/
theorem fields_assign {s : GeneratorState} {uuid : UUID} {clock : UInt16}
    (hs : s.clockSeq < 2 ^ 14) (hseq : (assign s uuid).2.clockSeq = clock.toNat)
    (hlast : (assign s uuid).2.last.toNat < 2 ^ 60) :
    (assign s uuid).1.fields = ⟨(assign s uuid).2.last, clock, uuid.uuid1Node⟩ := by
  have hclock := uuid1ClockSeq_assign hs uuid
  rw [hseq, Nat.cast_inj, UInt16.toNat_inj] at hclock
  rw [UUID.fields, uuid1Time_assign hlast, hclock, uuid1Node_assign]

end UUIDGenerator

/-- What is known of a call of a process with the given clock sequence. -/
structure Issue.Issued (clock : UInt16) (i : Issue) : Prop where
  isRfc : i.assigned.isRfc 1 = true
  fields : i.assigned.fields = ⟨i.last, clock, (i.call.uuid : UUID).uuid1Node⟩
  result : i.result =
    if i.call.compact then i.assigned.compactCrush i.call.localNodeHash else i.assigned

namespace UUIDGenerator

/-- The step: a call that leaves the process with a clock sequence is issued under it. -/
theorem issue_issued {s : GeneratorState} {c : Call} {clock : UInt16} (hs : s.clockSeq < 2 ^ 14)
    (hseq : (after s c).clockSeq = clock.toNat) (hlast : (after s c).last.toNat < 2 ^ 60) :
    (issue s c).Issued clock := by
  refine ⟨?_, ?_, ?_⟩
  · exact (isRfc_assign s c.uuid 1).trans c.uuid.2
  · rw [after_eq] at hseq hlast
    have hfields := fields_assign hs hseq hlast
    rw [← after_eq] at hfields
    exact hfields
  · simp only [issue, call_eq]

/-- The step: a call only moves `last` up. -/
theorem last_lt_after {s : GeneratorState} (hs : s.last.toNat < 2 ^ 60) (c : Call) :
    s.last < (after s c).last := by
  rw [after_eq, UInt64.lt_iff_toNat_lt, last_assign hs]
  omega

/-! ### Runs -/

/-- **Over a run the assigned times increase.** -/
theorem issues_increasing {s : GeneratorState} {calls : List Call} (hs : s.last.toNat < 2 ^ 60)
    (hlast : ∀ i ∈ issues s calls, i.last.toNat < 2 ^ 60) :
    (∀ i ∈ issues s calls, s.last < i.last) ∧
      (issues s calls).Pairwise (fun i j => i.last < j.last) := by
  induction calls generalizing s with
  | nil => exact ⟨by simp [issues], List.Pairwise.nil⟩
  | cons c cs ih =>
      -- the bound on the issue of `c` is the bound on the state that the other calls start from
      have hstep := last_lt_after hs c
      have hafter : (after s c).last.toNat < 2 ^ 60 := hlast _ (List.mem_cons_self ..)
      obtain ⟨hlt, hpairwise⟩ := ih hafter fun i hi => hlast i (List.mem_cons_of_mem _ hi)
      refine ⟨?_, List.Pairwise.cons hlt hpairwise⟩
      intro i hi
      rcases List.mem_cons.1 hi with rfl | hi
      · exact hstep
      · exact UInt64.lt_trans hstep (hlt i hi)

/-- **Over a run the clock sequence stays**, once it is set. -/
theorem issues_issued {s : GeneratorState} {calls : List Call} {clock : UInt16}
    (hclock : clock.toNat < 2 ^ 14) (hseq : s.clockSeq = clock.toNat)
    (hlast : ∀ i ∈ issues s calls, i.last.toNat < 2 ^ 60) :
    ∀ i ∈ issues s calls, i.Issued clock := by
  induction calls generalizing s with
  | nil => simp [issues]
  | cons c cs ih =>
      have hafter : (after s c).clockSeq = clock.toNat := by
        rw [after_eq, ← clockSeq_assign_of_eq hseq.symm]
      intro i hi
      rcases List.mem_cons.1 hi with rfl | hi
      · exact issue_issued (by omega) hafter (hlast _ (List.mem_cons_self ..))
      · exact ih hafter (fun i hi => hlast i (List.mem_cons_of_mem _ hi)) i hi

/-- The first call of a process fixes its clock sequence. -/
theorem issues_init_issued {c : Call} {cs : List Call}
    (hlast : ∀ i ∈ issues init (c :: cs), i.last.toNat < 2 ^ 60) :
    ∀ i ∈ issues init (c :: cs), i.Issued (c.uuid : UUID).uuid1ClockSeq := by
  have hclock := (c.uuid : UUID).uuid1ClockSeq_lt
  have hafter : (after init c).clockSeq = (c.uuid : UUID).uuid1ClockSeq.toNat := by
    rw [after_eq, clockSeq_assign_of_neg (by decide)]
  intro i hi
  rcases List.mem_cons.1 hi with rfl | hi
  · exact issue_issued (by decide) hafter (hlast _ (List.mem_cons_self ..))
  · exact issues_issued hclock hafter (fun i hi => hlast i (List.mem_cons_of_mem _ hi)) i hi

end UUIDGenerator

/-- Compacted results with distinct times have distinct wires. -/
theorem Issue.Issued.wire_ne {clock : UInt16} {i j : Issue} (hi : i.Issued clock)
    (hj : j.Issued clock) (hclock : clock.toNat < 2 ^ 14) (hci : i.call.compact = true)
    (hcj : j.call.compact = true) (hpos : 0 < i.last) (hlt : i.last < j.last)
    (hlast : j.last.toNat < 2 ^ 60) : ∃ w w',
      i.result.serialise = .ok w ∧ j.result.serialise = .ok w' ∧ w ≠ w' := by
  have hri := hi.result
  have hrj := hj.result
  rw [if_pos hci] at hri
  rw [if_pos hcj] at hrj
  rw [hri, hrj, UUID.serialise_compactCrush _ hi.isRfc, UUID.serialise_compactCrush _ hj.isRfc]
  refine ⟨_, _, rfl, rfl, ?_⟩
  have hti : i.assigned.uuid1Time = i.last := congrArg Fields.time hi.fields
  have htj : j.assigned.uuid1Time = j.last := congrArg Fields.time hj.fields
  have hki : i.assigned.uuid1ClockSeq = clock := congrArg Fields.clock hi.fields
  have hkj : j.assigned.uuid1ClockSeq = clock := congrArg Fields.clock hj.fields
  rw [hti, htj, hki, hkj]
  exact crushLayout_wire_ne hclock hpos hlt hlast _ _

open UUIDGenerator in
/-- **The generator never collides**, whatever the platform's clock does.  As long as `last` stays
below `2 ^ 60`, the assigned times are positive and increase from call to call; what is returned
uncompacted has the clock sequence of the first call, its own time and the platform's node; and what
is returned compacted is distinct from call to call, as a UUID and on the wire. -/
theorem generator_never_collides (calls : List Call)
    (hlast : ∀ i ∈ issues init calls, i.last.toNat < 2 ^ 60) :
    (∀ i ∈ issues init calls, 1 ≤ i.assigned.uuid1Time) ∧
    (issues init calls).Pairwise (fun i j => i.assigned.uuid1Time < j.assigned.uuid1Time) ∧
    (∀ i ∈ issues init calls, i.call.compact = false → i.result = i.assigned ∧
      calls.head?.map (fun c => (c.uuid : UUID).uuid1ClockSeq) = some i.result.uuid1ClockSeq ∧
      i.result.uuid1Node = (i.call.uuid : UUID).uuid1Node) ∧
    ((issues init calls).filter (fun i => i.call.compact)).Pairwise (fun i j =>
      i.result ≠ j.result ∧ ∃ w w', i.result.serialise = .ok w ∧ j.result.serialise = .ok w' ∧
        w ≠ w') := by
  cases calls with
  | nil => simp [issues]
  | cons c cs =>
      obtain ⟨hpos, hlt⟩ := issues_increasing (by decide) hlast
      have hissued := issues_init_issued hlast
      have htime : ∀ i ∈ issues init (c :: cs), i.assigned.uuid1Time = i.last :=
        fun i hi => congrArg Fields.time (hissued i hi).fields
      refine ⟨?_, ?_, ?_, ?_⟩
      · intro i hi
        have hi' := hpos i hi
        rw [htime i hi, UInt64.le_iff_toNat_le]
        rw [UInt64.lt_iff_toNat_lt] at hi'
        exact hi'
      · refine hlt.imp_of_mem ?_
        intro i j hi hj hij
        rw [htime i hi, htime j hj]
        exact hij
      · intro i hi hcompact
        have hresult := (hissued i hi).result
        rw [hcompact] at hresult
        have hclock : i.assigned.uuid1ClockSeq = (c.uuid : UUID).uuid1ClockSeq :=
          congrArg Fields.clock (hissued i hi).fields
        have hnode : i.assigned.uuid1Node = (i.call.uuid : UUID).uuid1Node :=
          congrArg Fields.node (hissued i hi).fields
        refine ⟨hresult, ?_, ?_⟩
        · rw [hresult, if_neg Bool.false_ne_true, hclock]
          rfl
        · rw [hresult, if_neg Bool.false_ne_true, hnode]
      · refine (hlt.filter _).imp_of_mem ?_
        intro i j hi hj hij
        obtain ⟨hi, hci⟩ := List.mem_filter.1 hi
        obtain ⟨hj, hcj⟩ := List.mem_filter.1 hj
        obtain ⟨w, w', hw, hw', hne⟩ := (hissued i hi).wire_ne (hissued j hj)
          (c.uuid : UUID).uuid1ClockSeq_lt hci hcj (hpos i hi) hij (hlast j hj)
        refine ⟨?_, w, w', hw, hw', hne⟩
        intro heq
        rw [heq, hw'] at hw
        exact hne (Except.ok.inj hw).symm

/-- A platform whose clock steps back, and changes its clock sequence and its node. -/
theorem generator_never_collides_backward : ∃ first second : PlatformUUID,
    (second : UUID).uuid1Time < (first : UUID).uuid1Time ∧
    (UUIDGenerator.issues UUIDGenerator.init
      [⟨none, first, true⟩, ⟨some 3, second, true⟩]).Pairwise (fun i j => i.result ≠ j.result) := by
  refine ⟨⟨UUID.ofCondensed ⟨uuidTimeInitial + 7, 5, 0x1234⟩, by decide +kernel⟩,
    ⟨UUID.ofCondensed ⟨uuidTimeInitial, 9, 0x010000000001⟩, by decide +kernel⟩,
    by decide +kernel, ?_⟩
  have hdistinct := (generator_never_collides
    [⟨none, ⟨UUID.ofCondensed ⟨uuidTimeInitial + 7, 5, 0x1234⟩, by decide +kernel⟩, true⟩,
      ⟨some 3, ⟨UUID.ofCondensed ⟨uuidTimeInitial, 9, 0x010000000001⟩, by decide +kernel⟩, true⟩]
    (by decide +kernel)).2.2.2
  exact hdistinct.imp And.left

end Cuuid
