/-
**Ids of one process, under both codecs.**

`cuuid::generate()` mints a v6 id or a v1 id, and both go through the static variables of
`UUIDGenerator`; a v6 id then claims its time in a variable of its own.  This module follows a
process in which any number of threads does both, keeping a record of what `UUIDGenerator` has
assigned and returned.

The times that `UUIDGenerator` assigns are all distinct, so what can make two ids of a process equal
on the wire is a claim that was moved past the time of its mint, to one that a v1 id has got.

Main definitions:

* `Cuuid.Process.State`, `Cuuid.Process.step` — the transition system, with its records;
* `Cuuid.Process.MintInv` — the invariant.

Main results:

* `Cuuid.Process.mintInv_run` — the invariant holds over every run;
* `Cuuid.claimed_times_recovered` — the times of the claims can be read off the ids;
* `Cuuid.process_wires` — **which ids of a process share a wire**, under any interleaving.
-/

import Cuuid.Interleaving
import Cuuid.Compacted
import Cuuid.RoundTrip

set_option relaxedAutoImplicit false
set_option autoImplicit false

namespace Cuuid

open Transition UUIDGenerator

namespace Process

open Generate

variable {ι : Type*}

/-! ### The transition system -/

/-- A process, with records of what `UUIDGenerator` did. -/
structure State (ι : Type*) where
  world : World ι
  /-- What was returned outside `cuuid_v6::generate()`, oldest first. -/
  issued : List Issue
  /-- The times that were assigned, oldest first. -/
  assigned : List UInt64

def init : State ι := ⟨Generate.init, [], []⟩

/-- What an action returns outside `cuuid_v6::generate()`. -/
def issuedBy (w : World ι) : Action ι → List Issue
  | .mint _ _ => []
  | .load _ => []
  | .exchangeFails _ => []
  | .exchange _ _ => []
  | .generator localNodeHash uuid compact => [issue w.generator ⟨localNodeHash, uuid, compact⟩]

/-- The time that an action leaves in the generator, if it calls it. -/
def assignedBy (w' : World ι) : Action ι → List UInt64
  | .mint _ _ => [w'.generator.last]
  | .load _ => []
  | .exchangeFails _ => []
  | .exchange _ _ => []
  | .generator _ _ _ => [w'.generator.last]

/-- A step of the process, and its records. -/
def step [DecidableEq ι] (s : State ι) (a : Action ι) : Option (State ι) :=
  (Generate.step s.world a).map fun w =>
    ⟨w, s.issued ++ issuedBy s.world a, s.assigned ++ assignedBy w a⟩

theorem step_iff [DecidableEq ι] {s s' : State ι} {a : Action ι} : step s a = some s' ↔
    ∃ w, Generate.step s.world a = some w ∧
      ⟨w, s.issued ++ issuedBy s.world a, s.assigned ++ assignedBy w a⟩ = s' :=
  Option.map_eq_some_iff

/-- The records do not change what the process does. -/
theorem world_run [DecidableEq ι] {s s' : State ι} {as : List (Action ι)}
    (h : run step s as = some s') : run Generate.step s.world as = some s'.world := by
  refine run_project (π := State.world) ?_ h
  intro s a s' hstep
  obtain ⟨w, hw, rfl⟩ := step_iff.1 hstep
  exact hw

/-- No assigned time reaches `2 ^ 60`. -/
def State.Bounded (s : State ι) : Prop := ∀ t ∈ s.assigned, t.toNat < 2 ^ 60

theorem bounded_of_step [DecidableEq ι] {s s' : State ι} {a : Action ι} (h : step s a = some s')
    (hs : s'.Bounded) : s.Bounded := by
  obtain ⟨w, -, rfl⟩ := step_iff.1 h
  intro t ht
  exact hs t (List.mem_append_left _ ht)

/-! ### The assigned times -/

/-- Whether a time was assigned to a mint of `cuuid_v6::generate()`. -/
def Minted (w : World ι) (t : UInt64) : Prop :=
  (∃ i base, (w.thread i).base = some base ∧ base.uuid1Time = t) ∨
    ∃ c ∈ w.claims, c.base.uuid1Time = t

/-- Assigned times are distinct: those of mints are not those of issued ids, and these increase. -/
structure MintInv (w : World ι) (issued : List Issue) : Prop where
  last_lt : w.generator.last.toNat < 2 ^ 60
  minted_le : ∀ t, Minted w t → t ≤ w.generator.last
  issued_le : ∀ i ∈ issued, i.last ≤ w.generator.last
  issued_pos : ∀ i ∈ issued, 0 < i.last
  increasing : issued.Pairwise fun i j => i.last < j.last
  apart : ∀ i ∈ issued, ¬ Minted w i.last
  issued : ∀ i ∈ issued, ∃ clock : UInt16, (clock.toNat : ℤ) = w.generator.clockSeq ∧
    i.Issued clock

theorem mintInv_init : MintInv (Generate.init : World ι) [] where
  last_lt := Nat.two_pow_pos 60
  minted_le := by simp [Minted, Generate.init, Thread.base]
  issued_le := by simp
  issued_pos := by simp
  increasing := List.Pairwise.nil
  apart := by simp
  issued := by simp

/-- What is assigned is above what was assigned before. -/
theorem lt_last_assign {s : GeneratorState} (hs : s.last.toNat < 2 ^ 60) (uuid : UUID) :
    s.last < (assign s uuid).2.last := by
  rw [UInt64.lt_iff_toNat_lt, last_assign hs]
  omega

/-- A step that issues nothing: what it mints, if anything, is above what was assigned before. -/
theorem MintInv.of_later {w w' : World ι} {issued : List Issue} (h : MintInv w issued)
    (hle : w.generator.last ≤ w'.generator.last) (hlt : w'.generator.last.toNat < 2 ^ 60)
    (hclock : ∀ n : ℕ, (n : ℤ) = w.generator.clockSeq → (n : ℤ) = w'.generator.clockSeq)
    (hminted : ∀ t, Minted w' t → Minted w t ∨ w.generator.last < t ∧ t ≤ w'.generator.last) :
    MintInv w' issued where
  last_lt := hlt
  minted_le := by
    intro t ht
    rcases hminted t ht with hold | ⟨-, hnew⟩
    · exact UInt64.le_trans (h.minted_le t hold) hle
    · exact hnew
  issued_le := fun i hi => UInt64.le_trans (h.issued_le i hi) hle
  issued_pos := h.issued_pos
  increasing := h.increasing
  apart := by
    intro i hi hmint
    rcases hminted _ hmint with hold | ⟨hnew, -⟩
    · exact h.apart i hi hold
    · exact UInt64.not_le.2 hnew (h.issued_le i hi)
  issued := by
    intro i hi
    obtain ⟨clock, hseq, hissued⟩ := h.issued i hi
    exact ⟨clock, hclock _ hseq, hissued⟩

/-- A call of `UUIDGenerator` outside `generate()`: what it issues is above what was assigned
before. -/
theorem MintInv.issue {w : World ι} {issued : List Issue} (h : MintInv w issued)
    (hclock : w.generator.clockSeq < 2 ^ 14) (c : Call)
    (hlt : (assign w.generator c.uuid).2.last.toNat < 2 ^ 60) :
    MintInv { w with generator := (assign w.generator c.uuid).2 }
      (issued ++ [UUIDGenerator.issue w.generator c]) := by
  have hnext := lt_last_assign h.last_lt (c.uuid : UUID)
  have hlast : (UUIDGenerator.issue w.generator c).last = (assign w.generator c.uuid).2.last := by
    rw [UUIDGenerator.issue, after_eq]
  refine ⟨hlt, ?_, ?_, ?_, ?_, ?_, ?_⟩
  · intro t ht
    exact UInt64.le_trans (h.minted_le t ht) (UInt64.le_of_lt hnext)
  · intro i hi
    rcases List.mem_append.1 hi with hold | hnew
    · exact UInt64.le_trans (h.issued_le i hold) (UInt64.le_of_lt hnext)
    · rw [List.mem_singleton.1 hnew, hlast]
      exact UInt64.le_refl _
  · intro i hi
    rcases List.mem_append.1 hi with hold | hnew
    · exact h.issued_pos i hold
    · rw [List.mem_singleton.1 hnew, hlast]
      exact UInt64.lt_of_le_of_lt UInt64.zero_le hnext
  · rw [List.pairwise_append]
    refine ⟨h.increasing, List.pairwise_singleton _ _, ?_⟩
    intro i hi j hj
    rw [List.mem_singleton.1 hj, hlast]
    exact UInt64.lt_of_le_of_lt (h.issued_le i hi) hnext
  · intro i hi hmint
    rcases List.mem_append.1 hi with hold | hnew
    · exact h.apart i hold hmint
    · rw [List.mem_singleton.1 hnew, hlast] at hmint
      exact UInt64.not_le.2 hnext (h.minted_le _ hmint)
  · intro i hi
    rcases List.mem_append.1 hi with hold | hnew
    · obtain ⟨clock, hseq, hissued⟩ := h.issued i hold
      exact ⟨clock, clockSeq_assign_of_eq hseq c.uuid, hissued⟩
    · obtain ⟨hnonneg, hsmall⟩ := clockSeq_assign_lt hclock (c.uuid : UUID)
      have hseq : ((UInt16.ofNat (assign w.generator c.uuid).2.clockSeq.toNat).toNat : ℤ) =
          (assign w.generator c.uuid).2.clockSeq := by
        rw [UInt16.toNat_ofNat', Nat.mod_eq_of_lt (by omega), Int.toNat_of_nonneg hnonneg]
      refine ⟨_, hseq, ?_⟩
      rw [List.mem_singleton.1 hnew]
      exact issue_issued hclock (by rw [after_eq]; exact hseq.symm) (by rw [after_eq]; exact hlt)

variable [DecidableEq ι]

/-- What threads and claims hold after one thread has moved. -/
theorem minted_of_update {w w' : World ι} {i : ι} {t : Thread}
    (hthread : w'.thread = Function.update w.thread i t) {x : UInt64} (h : Minted w' x) :
    Minted w x ∨ (∃ base, t.base = some base ∧ base.uuid1Time = x) ∨
      ∃ c ∈ w'.claims, c ∉ w.claims ∧ c.base.uuid1Time = x := by
  rcases h with ⟨j, base, hj, rfl⟩ | ⟨c, hc, rfl⟩
  · rw [hthread] at hj
    rcases base_of_update hj with hnew | hold
    · exact Or.inr (Or.inl ⟨base, hnew, rfl⟩)
    · exact Or.inl (Or.inl ⟨j, base, hold, rfl⟩)
  · by_cases hold : c ∈ w.claims
    · exact Or.inl (Or.inr ⟨c, hold, rfl⟩)
    · exact Or.inr (Or.inr ⟨c, hc, hold, rfl⟩)

theorem mintInv_step {s s' : State ι} {a : Action ι} (h : step s a = some s') (hs' : s'.Bounded)
    (hclock : ClockInv s.world) (hs : MintInv s.world s.issued) : MintInv s'.world s'.issued := by
  obtain ⟨w, hw, rfl⟩ := step_iff.1 h
  have hbound : ∀ t ∈ assignedBy w a, t.toNat < 2 ^ 60 :=
    fun t ht => hs' t (List.mem_append_right _ ht)
  dsimp only
  obtain ⟨i, uuid, rfl, hidle, rfl⟩ | ⟨i, base, ha, hbase, rfl⟩ |
    ⟨i, localNodeHash, base, rfl, hi, rfl⟩ | ⟨localNodeHash, uuid, compact, rfl, rfl⟩ :=
    Generate.step_cases hw
  · -- the mint gets a time above all others
    have hnext := lt_last_assign hs.last_lt (uuid : UUID)
    have hlast : (assign s.world.generator uuid).2.last.toNat < 2 ^ 60 :=
      hbound _ (List.mem_singleton_self _)
    rw [issuedBy, List.append_nil]
    refine hs.of_later (UInt64.le_of_lt hnext) hlast
      (fun n hn => clockSeq_assign_of_eq hn (uuid : UUID)) fun t ht => ?_
    rcases minted_of_update rfl ht with hold | ⟨base, hnew, rfl⟩ | ⟨c, hc, hnot, -⟩
    · exact Or.inl hold
    · rw [Thread.base, Option.some.injEq] at hnew
      rw [← hnew, uuid1Time_assign hlast]
      exact Or.inr ⟨hnext, UInt64.le_refl _⟩
    · exact absurd hc hnot
  · -- `base` stays with its thread
    have hnone : issuedBy s.world a = [] := by
      rcases ha with rfl | rfl <;> rfl
    rw [hnone, List.append_nil]
    refine hs.of_later (UInt64.le_refl _) hs.last_lt (fun n hn => hn) fun t ht => ?_
    rcases minted_of_update rfl ht with hold | ⟨base', hnew, rfl⟩ | ⟨c, hc, hnot, -⟩
    · exact Or.inl hold
    · rw [Thread.base, ← hbase] at hnew
      exact Or.inl (Or.inl ⟨i, base', hnew, rfl⟩)
    · exact absurd hc hnot
  · -- `base` moves from the thread to its claim
    rw [issuedBy, List.append_nil]
    refine hs.of_later (UInt64.le_refl _) hs.last_lt (fun n hn => hn) fun t ht => ?_
    rcases minted_of_update rfl ht with hold | ⟨base', hnew, -⟩ | ⟨c, hc, hnot, rfl⟩
    · exact Or.inl hold
    · cases hnew
    · rcases List.mem_append.1 hc with hc | hc
      · exact absurd hc hnot
      · rw [List.mem_singleton.1 hc]
        exact Or.inl (Or.inl ⟨i, base, by rw [hi, Thread.base], rfl⟩)
  · exact hs.issue hclock.clockSeq_lt ⟨localNodeHash, uuid, compact⟩
      (hbound _ (List.mem_singleton_self _))

/-- **Assigned times are distinct** over every run. -/
theorem mintInv_run {s : State ι} {as : List (Action ι)} (h : run step init as = some s)
    (hs : s.Bounded) : MintInv s.world s.issued := by
  have hboth : ClockInv s.world ∧ MintInv s.world s.issued := by
    refine run_induction (I := fun s : State ι => ClockInv s.world ∧ MintInv s.world s.issued)
      bounded_of_step ?_ ⟨clockInv_init, mintInv_init⟩ h hs
    intro s a s' hstep hs' hinv
    obtain ⟨w, hw, rfl⟩ := step_iff.1 hstep
    exact ⟨clockInv_step hw hinv.1, mintInv_step hstep hs' hinv.1 hinv.2⟩
  exact hboth.2

end Process

/-! ### Wires -/

/-- Whether an issued id is written in the compact layout. -/
def Issue.Compact (i : Issue) : Prop :=
  i.call.compact = true ∨ i.assigned.fields.node = compactedNode expandMtCompute i.assigned.fields

/-- The salt of an issued id. -/
def Issue.salt (i : Issue) : UInt64 :=
  crushSalt i.call.localNodeHash (i.call.uuid : UUID).uuid1Node

theorem Issue.salt_lt (i : Issue) : i.salt.toNat < 2 ^ 7 := crushSalt_lt _ _

/-- The salt of a multicast node is read back from it. -/
theorem crushSalt_of_multicast {node : UInt64} (h : node &&& multicastBit ≠ 0)
    (localNodeHash : Option UInt64) : crushSalt localNodeHash node = node &&& saltMask := by
  rw [crushSalt, if_pos (bne_iff_ne.2 h)]

namespace Issue.Issued

variable {clock : UInt16} {i : Issue}

/-- What is returned compacted, or with a reconstructed node, is written compactly. -/
theorem serialise_compact (hi : i.Issued clock) (h : i.Compact) : serialise i.result =
    .ok (crushLayout i.last.toNat clock.toNat i.salt.toNat).wire := by
  obtain ⟨hrfc, hfields, hresult⟩ := hi
  by_cases hcompact : i.call.compact = true
  · have hwire := Codec.serialise_crush .v1 i.call.localNodeHash hrfc
    rw [Codec.fields, hfields] at hwire
    rw [hresult, if_pos hcompact]
    exact hwire
  · have hnode := h.resolve_left hcompact
    -- a reconstructed node is multicast
    have hsalt := crushSalt_of_multicast (fun hzero => ne_compactedNode hzero _ hnode)
      i.call.localNodeHash
    have hwire : serialise i.assigned =
        .ok (layoutOf expandMtCompute i.assigned.fields).wire := @serialise_of_isRfc .v1 _ hrfc
    rw [layoutOf, if_pos hnode, hfields] at hwire
    rw [hfields] at hsalt
    rw [hresult, if_neg hcompact, hwire, Issue.salt, hsalt, crushLayout, crushLayout,
      ofNat_and_saltMask]

/-- Everything else is written with its node. -/
theorem serialise_expanded (hi : i.Issued clock) (h : ¬ i.Compact) : serialise i.result =
    .ok (Layout.expanded
      (BitVec.ofNat 60 (if (i.call.uuid : UUID).uuid1Node &&& multicastBit = 0 then
        rebase i.last.toNat else i.last.toNat))
      (BitVec.ofNat 14 clock.toNat)
      (BitVec.ofNat 48 (i.call.uuid : UUID).uuid1Node.toNat)).wire := by
  obtain ⟨hrfc, hfields, hresult⟩ := hi
  obtain ⟨hcompact, hnode⟩ := not_or.1 h
  have hwire : serialise i.assigned =
      .ok (layoutOf expandMtCompute i.assigned.fields).wire := @serialise_of_isRfc .v1 _ hrfc
  rw [layoutOf, if_neg hnode, hfields] at hwire
  rw [hresult, if_neg hcompact, hwire]

/-- **Issued ids of distinct times have distinct wires**, compact or not. -/
theorem serialise_ne {j : Issue} (hi : i.Issued clock) (hj : j.Issued clock)
    (hclock : clock.toNat < 2 ^ 14) (hpos : 0 < i.last) (hlt : i.last < j.last)
    (hlast : j.last.toNat < 2 ^ 60) : serialise i.result ≠ serialise j.result := by
  by_cases hci : i.Compact
  · by_cases hcj : j.Compact
    · rw [hi.serialise_compact hci, hj.serialise_compact hcj, ne_eq, Except.ok.injEq]
      exact crushLayout_wire_ne hclock hpos hlt hlast _ _
    · rw [hi.serialise_compact hci, hj.serialise_expanded hcj, ne_eq, Except.ok.injEq,
        Layout.wire_injective.eq_iff]
      exact Layout.noConfusion
  · by_cases hcj : j.Compact
    · rw [hi.serialise_expanded hci, hj.serialise_compact hcj, ne_eq, Except.ok.injEq,
        Layout.wire_injective.eq_iff]
      exact Layout.noConfusion
    · have hni := (i.call.uuid : UUID).uuid1Node_lt
      have hnj := (j.call.uuid : UUID).uuid1Node_lt
      have hri := rebase_lt i.last.toNat
      have hrj := rebase_lt j.last.toNat
      rw [UInt64.lt_iff_toNat_lt] at hpos hlt
      rw [UInt64.toNat_zero] at hpos
      rw [hi.serialise_expanded hci, hj.serialise_expanded hcj, ne_eq, Except.ok.injEq,
        Layout.wire_injective.eq_iff, Layout.expanded.injEq]
      rintro ⟨htime, -, hnode⟩
      rw [← BitVec.toNat_inj, BitVec.toNat_ofNat, BitVec.toNat_ofNat, Nat.mod_eq_of_lt hni,
        Nat.mod_eq_of_lt hnj, UInt64.toNat_inj] at hnode
      rw [← BitVec.toNat_inj, BitVec.toNat_ofNat, BitVec.toNat_ofNat] at htime
      -- with one node both times are rebased, or neither is
      rw [hnode] at htime
      split_ifs at htime
      · rw [Nat.mod_eq_of_lt hri, Nat.mod_eq_of_lt hrj] at htime
        have hsame := rebase_injOn hpos (by omega) (by omega) hlast htime
        omega
      · omega

end Issue.Issued

namespace Process

open Generate

/-- The wire of a claim. -/
theorem serialise_claim {ι : Type*} {c : Claim ι} (hc : c.Sound) : ∃ localNodeHash,
    c.id = V6.make localNodeHash ⟨c.time, c.base.uuid1ClockSeq, c.base.uuid1Node⟩ ∧
    serialise c.id = .ok (crushLayout c.time.toNat c.base.uuid1ClockSeq.toNat
      (crushSalt localNodeHash c.base.uuid1Node).toNat).wire := by
  obtain ⟨-, -, localNodeHash, hid⟩ := hc
  have hrfc : c.id.isRfc 6 = true := by
    rw [hid, V6.make_eq]
    exact V6.isRfc_fromFields _
  refine ⟨localNodeHash, hid, ?_⟩
  rw [serialise, if_pos hrfc, hid, V6.serialise_make]

end Process

namespace Process

open Generate

variable {ι : Type*}

/-- What is known of a process after a run. -/
structure Sound (w : World ι) (issued : List Issue) : Prop where
  mint : MintInv w issued
  time : TimeInv w
  clock : ClockInv w
  bounded : w.Bounded

theorem sound_run [DecidableEq ι] {s : State ι} {as : List (Action ι)}
    (h : run step init as = some s) (hassigned : s.Bounded) (hclaims : s.world.Bounded) :
    Sound s.world s.issued where
  mint := mintInv_run h hassigned
  time := timeInv_run (world_run h) hclaims
  clock := clockInv_run (world_run h)
  bounded := hclaims

namespace Sound

variable {w : World ι} {issued : List Issue}

theorem issued_lt (h : Sound w issued) {i : Issue} (hi : i ∈ issued) : i.last.toNat < 2 ^ 60 :=
  lt_of_le_of_lt (UInt64.le_iff_toNat_le.1 (h.mint.issued_le i hi)) h.mint.last_lt

/-- Every id was made under the clock sequence of the process. -/
theorem issued_under (h : Sound w issued) {i : Issue} (hi : i ∈ issued) {clock : UInt16}
    (hseq : (clock.toNat : ℤ) = w.generator.clockSeq) :
    clock.toNat < 2 ^ 14 ∧ i.Issued clock := by
  obtain ⟨clock', hseq', hissued⟩ := h.mint.issued i hi
  have hsame : clock' = clock := by
    rw [← UInt16.toNat_inj, ← Nat.cast_inj (R := ℤ), hseq', hseq]
  have hlt := h.clock.clockSeq_lt
  exact ⟨by omega, hsame ▸ hissued⟩

/-- Two v1 ids have distinct wires. -/
theorem issued_pairwise (h : Sound w issued) : issued.Pairwise fun i j =>
    i.last < j.last ∧ serialise i.result ≠ serialise j.result := by
  refine h.mint.increasing.imp_of_mem fun {i j} hi hj hlt => ⟨hlt, ?_⟩
  obtain ⟨clock, hseq, -⟩ := h.mint.issued i hi
  obtain ⟨hclock, hissued⟩ := h.issued_under hi hseq
  exact hissued.serialise_ne (h.issued_under hj hseq).2 hclock (h.mint.issued_pos i hi) hlt
    (h.issued_lt hj)

/-- Two v6 ids have distinct wires. -/
theorem claims_pairwise (h : Sound w issued) :
    w.claims.Pairwise fun c d => serialise c.id ≠ serialise d.id := by
  refine h.time.increasing.imp_of_mem fun {c d} hc hd hlt => ?_
  obtain ⟨_, -, hwire⟩ := serialise_claim (h.time.sound c hc)
  obtain ⟨_, -, hwire'⟩ := serialise_claim (h.time.sound d hd)
  have hseq : c.base.uuid1ClockSeq = d.base.uuid1ClockSeq := by
    rw [← UInt16.toNat_inj, ← Nat.cast_inj (R := ℤ), h.clock.of_claim c hc, h.clock.of_claim d hd]
  rw [hwire, hwire', hseq, ne_eq, Except.ok.injEq]
  exact crushLayout_wire_ne d.base.uuid1ClockSeq_lt (h.time.sound c hc).pos hlt (h.bounded d hd) _ _

/-- **When a v1 id and a v6 id have one wire.** -/
theorem serialise_eq_iff (h : Sound w issued) {c : Claim ι} (hc : c ∈ w.claims) :
    ∃ localNodeHash,
      c.id = V6.make localNodeHash ⟨c.time, c.base.uuid1ClockSeq, c.base.uuid1Node⟩ ∧
      ∀ i ∈ issued, serialise i.result = serialise c.id ↔
        i.Compact ∧ i.last = c.time ∧ i.salt = crushSalt localNodeHash c.base.uuid1Node := by
  obtain ⟨localNodeHash, hid, hwire⟩ := serialise_claim (h.time.sound c hc)
  refine ⟨localNodeHash, hid, fun i hi => ?_⟩
  obtain ⟨hlt, hissued⟩ := h.issued_under hi (h.clock.of_claim c hc)
  have hpos := UInt64.lt_iff_toNat_lt.1 (h.mint.issued_pos i hi)
  have hpos' := UInt64.lt_iff_toNat_lt.1 (h.time.sound c hc).pos
  by_cases hcompact : i.Compact
  · rw [hwire, hissued.serialise_compact hcompact, Except.ok.injEq, Layout.wire_injective.eq_iff,
      crushLayout_eq_iff_of_clock hlt hpos hpos' (h.issued_lt hi) (h.bounded c hc) i.salt_lt
      (crushSalt_lt _ _), UInt64.toNat_inj, UInt64.toNat_inj]
    exact (and_iff_right hcompact).symm
  · rw [hwire, hissued.serialise_expanded hcompact, Except.ok.injEq, Layout.wire_injective.eq_iff]
    exact iff_of_false (fun heq => Layout.noConfusion heq) fun hboth => hcompact hboth.1

/-- A claim that was not moved has a time that no v1 id has. -/
theorem serialise_ne (h : Sound w issued) {c : Claim ι} (hc : c ∈ w.claims)
    (hown : c.time = c.base.uuid1Time) {i : Issue} (hi : i ∈ issued) :
    serialise i.result ≠ serialise c.id := by
  intro heq
  obtain ⟨localNodeHash, -, hiff⟩ := h.serialise_eq_iff hc
  obtain ⟨-, hlast, -⟩ := (hiff i hi).1 heq
  exact h.mint.apart i hi (Or.inr ⟨c, hc, by rw [hlast, hown]⟩)

end Sound

end Process

open Process in
/-- **Which ids of a process share a wire.**  Any number of threads mints v6 ids and v1 ids, in any
interleaving, and neither an assigned nor a claimed time reaches `2 ^ 60`.  No two v1 ids have the
same wire, compacted or not.  A v1 id and a v6 id have the same wire exactly when the v1 id is
written compactly, the time that the v6 id claimed is the time of the v1 id, and their nodes have the
same salt; and a v6 id that claimed the time of its own mint shares its wire with no v1 id. -/
theorem process_wires {ι : Type*} [DecidableEq ι] {as : List (Generate.Action ι)} {s : State ι}
    (hrun : run Process.step Process.init as = some s)
    (hassigned : ∀ t ∈ s.assigned, t.toNat < 2 ^ 60)
    (hclaims : ∀ c ∈ s.world.claims, c.time.toNat < 2 ^ 60) :
    s.issued.Pairwise (fun i j => i.last < j.last ∧ serialise i.result ≠ serialise j.result) ∧
    (∀ c ∈ s.world.claims, ∃ localNodeHash,
      c.id = V6.make localNodeHash ⟨c.time, c.base.uuid1ClockSeq, c.base.uuid1Node⟩ ∧
      ∀ i ∈ s.issued, serialise i.result = serialise c.id ↔
        i.Compact ∧ i.last = c.time ∧ i.salt = crushSalt localNodeHash c.base.uuid1Node) ∧
    (∀ c ∈ s.world.claims, c.time = c.base.uuid1Time → ∀ i ∈ s.issued,
      serialise i.result ≠ serialise c.id) := by
  have hsound := sound_run hrun hassigned hclaims
  refine ⟨hsound.issued_pairwise, fun c hc => hsound.serialise_eq_iff hc, ?_⟩
  intro c hc hown i hi
  exact hsound.serialise_ne hc hown hi

open Process Generate in
/-- Two threads mint, the second claims first, and the claim of the first is moved to a time that a
v1 id gets next: the two have the same wire. -/
theorem process_wires_moved_claim : ∃ first second : PlatformUUID, ∃ s : State Bool,
    run Process.step Process.init [.mint true first, .mint false second, .load false,
      .exchange false none, .load true, .exchange true none, .generator none second true] = some s ∧
    ∃ c ∈ s.world.claims, ∃ i ∈ s.issued, serialise i.result = serialise c.id := by
  let first : PlatformUUID :=
    ⟨UUID.ofCondensed ⟨uuidTimeInitial + 10, 5, multicastBit⟩, by decide +kernel⟩
  let second : PlatformUUID :=
    ⟨UUID.ofCondensed ⟨uuidTimeInitial + 11, 5, multicastBit⟩, by decide +kernel⟩
  have hany : (run Process.step Process.init [.mint true first, .mint false second, .load false,
      .exchange false none, .load true, .exchange true none, .generator none second true]).any
      (fun s => s.assigned.all (·.toNat < 2 ^ 60) ∧
        (∀ c ∈ s.world.claims, c.time.toNat < 2 ^ 60) ∧
        ∃ c ∈ s.world.claims, ∃ i ∈ s.issued, i.call.compact = true ∧ i.last = c.time ∧
          (i.call.uuid : UUID).uuid1Node = c.base.uuid1Node ∧
          c.base.uuid1Node &&& multicastBit ≠ 0) = true := by decide +kernel
  obtain ⟨s, hrun, hs⟩ := (Option.any_eq_true _ _).1 hany
  obtain ⟨hassigned, hclaims, c, hc, i, hi, hcompact, htime, hnode, hbit⟩ := of_decide_eq_true hs
  have hassigned : s.Bounded := by simpa [State.Bounded] using hassigned
  obtain ⟨localNodeHash, -, hiff⟩ := (process_wires hrun hassigned hclaims).2.1 c hc
  refine ⟨first, second, s, hrun, c, hc, i, hi, (hiff i hi).2 ⟨Or.inl hcompact, htime, ?_⟩⟩
  rw [Issue.salt, hnode, crushSalt_of_multicast hbit, crushSalt_of_multicast hbit]

/-! ### Recovering the claimed times -/

open Generate in
/-- **The claimed times can be read off the ids.**  After any interleaving in which no claimed time
reaches `2 ^ 60`, the clock sequence of the process and an id of `generate()` give the time that was
claimed for it, unless that time is in the window at the start of 2016; so the ids outside this window
are in the order of the times that are recovered. -/
theorem claimed_times_recovered {ι : Type*} [DecidableEq ι] {as : List (Action ι)} {w : World ι}
    (hrun : run Generate.step Generate.init as = some w)
    (hbound : ∀ c ∈ w.claims, c.time.toNat < 2 ^ 60) {processClock : UInt16}
    (hseq : (processClock.toNat : ℤ) = w.generator.clockSeq) :
    (∀ c ∈ w.claims, claimedTime c.id processClock = c.time ↔
      ¬ (uuidTimeInitial ≤ c.time ∧ c.time < uuidTimeInitial + 0x4000)) ∧
    (w.claims.filter fun c => ¬ (uuidTimeInitial ≤ c.time ∧ c.time < uuidTimeInitial + 0x4000)).Pairwise
      fun c d => claimedTime c.id processClock < claimedTime d.id processClock := by
  have htime := timeInv_run hrun hbound
  have hclock := clockInv_run hrun
  have hfirst : ∀ t : UInt64, (uuidTimeInitial ≤ t ∧ t < uuidTimeInitial + 0x4000) ↔
      (initial ≤ t.toNat ∧ t.toNat < initial + 2 ^ 14) := by
    intro t
    rw [initial_le_iff, UInt64.lt_iff_toNat_lt, UInt64.toNat_add, toNat_uuidTimeInitial]
    exact Iff.rfl
  have hrecover : ∀ c ∈ w.claims, claimedTime c.id processClock = c.time ↔
      ¬ (uuidTimeInitial ≤ c.time ∧ c.time < uuidTimeInitial + 0x4000) := by
    intro c hc
    obtain ⟨hpos, -, localNodeHash, hid⟩ := htime.sound c hc
    have hsame : c.base.uuid1ClockSeq = processClock := by
      rw [← UInt16.toNat_inj, ← Nat.cast_inj (R := ℤ), hclock.of_claim c hc, hseq]
    have hmake := claimedTime_make_iff localNodeHash
      (f := ⟨c.time, c.base.uuid1ClockSeq, c.base.uuid1Node⟩)
      ⟨hbound c hc, c.base.uuid1ClockSeq_lt, c.base.uuid1Node_lt⟩
    dsimp only at hmake
    rw [← hid, hsame] at hmake
    rw [hmake, hfirst, and_iff_right ((UInt64.ne_of_lt hpos).symm)]
  refine ⟨hrecover, ?_⟩
  refine (htime.increasing.filter _).imp_of_mem ?_
  intro c d hc hd hlt
  obtain ⟨hc, hcout⟩ := List.mem_filter.1 hc
  obtain ⟨hd, hdout⟩ := List.mem_filter.1 hd
  rw [(hrecover c hc).2 (of_decide_eq_true hcout), (hrecover d hd).2 (of_decide_eq_true hdout)]
  exact hlt

open Generate in
/-- Two threads that mint one time, with the ids apart by one tick. -/
theorem claimed_times_recovered_two_threads : ∃ uuid : PlatformUUID, ∃ w : World Bool,
    run Generate.step Generate.init [.mint true uuid, .mint false uuid, .load true, .load false,
      .exchange true none, .exchangeFails false, .exchange false none] = some w ∧
    w.claims.Pairwise fun c d => claimedTime c.id 5 < claimedTime d.id 5 := by
  let uuid : PlatformUUID :=
    ⟨UUID.ofCondensed ⟨uuidTimeInitial + 0x4007, 5, 0x1234⟩, by decide +kernel⟩
  have hany : (run Generate.step Generate.init [.mint true uuid, .mint false uuid, .load true,
      .load false, .exchange true none, .exchangeFails false, .exchange false none]).any
      (fun w => ((5 : UInt16).toNat : ℤ) = w.generator.clockSeq ∧ ∀ c ∈ w.claims,
        c.time.toNat < 2 ^ 60 ∧
        ¬ (uuidTimeInitial ≤ c.time ∧ c.time < uuidTimeInitial + 0x4000)) = true := by decide +kernel
  obtain ⟨w, hrun, hw⟩ := (Option.any_eq_true _ _).1 hany
  obtain ⟨hseq, hclaims⟩ := of_decide_eq_true hw
  have hall := (claimed_times_recovered hrun (fun c hc => (hclaims c hc).1) hseq).2
  rw [List.filter_eq_self.2 fun c hc => decide_eq_true (hclaims c hc).2] at hall
  exact ⟨uuid, w, hrun, hall⟩

end Cuuid
