/-
**Calls one after the other.**

A process that makes its calls of `cuuid::generate()` one after the other, with any codec in any call,
never moves a claim past the time of its mint: the exchange succeeds at once.  Its ids are those of a
run of the transition system, so none of them share a wire.  This module shows that, and what becomes
of the ids as a log that is written, read and written again.

Main definitions:

* `Cuuid.V6.generate`, `Cuuid.generate`, `Cuuid.generateAll` — the calls.

Main results:

* `Cuuid.Process.run_actions`, `Cuuid.Process.run_generateAll` — **calls one after the other are a
  run** of the transition system;
* `Cuuid.generate_log` — **the log of a process** has distinct wires, is read back, and keeps its bytes
  when the codec is changed.
-/

import Cuuid.Process
import Cuuid.Migration

set_option relaxedAutoImplicit false
set_option autoImplicit false

namespace Cuuid

open Transition UUIDGenerator

/-! ### The calls -/

/-- The static variables of `UUIDGenerator::operator()` and of `cuuid_v6::generate()`. -/
structure Statics where
  generator : GeneratorState
  last : UInt64

/-- The static variables before the first call. -/
def Statics.init : Statics := ⟨UUIDGenerator.init, 0⟩

/-- A call of `cuuid_v6::generate()` that no other thread disturbs, where `uuid` is what `newUUID()`
returned. -/
def V6.generate (localNodeHash : Option UInt64) (s : Statics) (uuid : UUID) : UUID × Statics :=
  let (base, generator) := UUIDGenerator.call none s.generator uuid false
  let time := Generate.nextTime base.uuid1Time s.last
  (make localNodeHash ⟨time, base.uuid1ClockSeq, base.uuid1Node⟩, ⟨generator, time⟩)

/-- Mints a new id, under the given codec. -/
def generate (codec : Codec) (localNodeHash : Option UInt64) (s : Statics) (uuid : UUID)
    (compact : Bool) : UUID × Statics :=
  match codec with
  | .v6 => V6.generate localNodeHash s uuid
  | .v1 =>
      let (uuid, generator) := UUIDGenerator.call localNodeHash s.generator uuid compact
      (uuid, { s with generator := generator })

/-- The arguments of a call, with what it gets from outside. -/
structure Request where
  codec : Codec
  localNodeHash : Option UInt64
  uuid : PlatformUUID
  compact : Bool

/-- Calls one after the other: what each returns, and the static variables that it leaves. -/
def generateAll : Statics → List Request → List (UUID × Statics)
  | _, [] => []
  | s, r :: rs =>
      let result := generate r.codec r.localNodeHash s r.uuid r.compact
      result :: generateAll result.2 rs

/-- The steps of a call. -/
def Request.actions (r : Request) : List (Generate.Action Unit) :=
  match r.codec with
  | .v6 => [.mint () r.uuid, .load (), .exchange () r.localNodeHash]
  | .v1 => [.generator r.localNodeHash r.uuid r.compact]

namespace Process

open Generate

/-- A process between two calls of its one thread, whose claims were all left where they were
minted. -/
structure Quiet (s : State Unit) (statics : Statics) : Prop where
  idle : s.world.thread () = .idle
  generator : s.world.generator = statics.generator
  last : s.world.last = statics.last
  le : statics.last ≤ statics.generator.last
  unmoved : ∀ c ∈ s.world.claims, c.time = c.base.uuid1Time

theorem quiet_init : Quiet init Statics.init where
  idle := rfl
  generator := rfl
  last := rfl
  le := UInt64.le_refl _
  unmoved := by simp [init, Generate.init]

/-- The ids that a process has returned. -/
def State.ids {ι : Type*} (s : State ι) : List UUID :=
  s.issued.map Issue.result ++ s.world.claims.map Claim.id

/-- A claim that nothing was claimed past keeps the time of its mint. -/
theorem nextTime_of_lt {time prev : UInt64} (h : prev < time) : nextTime time prev = time := by
  rw [nextTime, if_pos h]

/-- **A call is a run of its steps**, and returns what the run adds. -/
theorem run_actions {s : State Unit} {statics : Statics} (h : Quiet s statics)
    (hlt : statics.generator.last.toNat < 2 ^ 60) (r : Request)
    (hlt' : (generate r.codec r.localNodeHash statics r.uuid r.compact).2.generator.last.toNat <
      2 ^ 60) : ∃ s', run step s r.actions = some s' ∧
      Quiet s' (generate r.codec r.localNodeHash statics r.uuid r.compact).2 ∧
      s'.assigned = s.assigned ++
        [(generate r.codec r.localNodeHash statics r.uuid r.compact).2.generator.last] ∧
      List.Perm s'.ids
        ((generate r.codec r.localNodeHash statics r.uuid r.compact).1 :: s.ids) := by
  obtain ⟨codec, localNodeHash, uuid, compact⟩ := r
  obtain ⟨hidle, hgen, hlast, hle, hunmoved⟩ := h
  have hnext := lt_last_assign hlt (uuid : UUID)
  cases codec with
  | v1 =>
      have hcall : generate .v1 localNodeHash statics uuid compact =
          ((UUIDGenerator.call localNodeHash statics.generator uuid compact).1,
            ⟨(assign statics.generator uuid).2, statics.last⟩) := by
        rw [generate, call_eq]
      dsimp only at hlt' ⊢
      rw [hcall] at hlt' ⊢
      refine ⟨⟨{ s.world with generator := (assign statics.generator uuid).2 },
        s.issued ++ [issue statics.generator ⟨localNodeHash, uuid, compact⟩],
        s.assigned ++ [(assign statics.generator uuid).2.last]⟩, ?_, ?_, rfl, ?_⟩
      · simp only [Request.actions, run, step, Generate.step, hgen, call_eq, Option.map_some,
          Option.bind_some, issuedBy, assignedBy]
      · exact ⟨hidle, rfl, hlast, UInt64.le_trans hle (UInt64.le_of_lt hnext), hunmoved⟩
      · have hids : State.ids ⟨{ s.world with generator := (assign statics.generator uuid).2 },
            s.issued ++ [issue statics.generator ⟨localNodeHash, uuid, compact⟩],
            s.assigned ++ [(assign statics.generator uuid).2.last]⟩ =
            s.issued.map Issue.result ++
              ((UUIDGenerator.call localNodeHash statics.generator uuid compact).1 ::
                s.world.claims.map Claim.id) := by
          simp only [State.ids, List.map_append, List.map_cons, List.map_nil, List.append_assoc,
            List.cons_append, List.nil_append]
          rfl
        rw [hids]
        exact List.perm_middle
  | v6 =>
      -- the mint gets a time above `last`, so the first exchange claims it
      have hcall : UUIDGenerator.call none statics.generator uuid false =
          ((assign statics.generator uuid).1, (assign statics.generator uuid).2) := by
        rw [call_eq]
        rfl
      have hresult : generate .v6 localNodeHash statics uuid compact =
          ((claimOf () localNodeHash (assign statics.generator uuid).1 statics.last).id,
            ⟨(assign statics.generator uuid).2,
              (claimOf () localNodeHash (assign statics.generator uuid).1 statics.last).time⟩) := by
        rw [generate, V6.generate, hcall]
        rfl
      dsimp only at hlt' ⊢
      rw [hresult] at hlt' ⊢
      have hbase := uuid1Time_assign hlt'
      have htime : (claimOf () localNodeHash (assign statics.generator uuid).1 statics.last).time =
          (assign statics.generator uuid).2.last := by
        have habove : statics.last < (assign statics.generator uuid).1.uuid1Time := by
          rw [hbase]
          exact UInt64.lt_of_le_of_lt hle hnext
        exact (nextTime_of_lt habove).trans hbase
      refine ⟨⟨{ s.world with
          generator := (assign statics.generator uuid).2
          last := (claimOf () localNodeHash (assign statics.generator uuid).1 statics.last).time
          thread := Function.update (Function.update (Function.update s.world.thread ()
            (.minted (assign statics.generator uuid).1)) ()
            (.claiming (assign statics.generator uuid).1 statics.last)) () .idle
          claims := s.world.claims ++
            [claimOf () localNodeHash (assign statics.generator uuid).1 statics.last] },
        s.issued, s.assigned ++ [(assign statics.generator uuid).2.last]⟩, ?_, ?_, rfl, ?_⟩
      · simp only [Request.actions, run, step, Generate.step, hidle, hgen, hlast, hcall,
          Function.update_self, if_true, Option.map_some, Option.bind_some, issuedBy, assignedBy,
          List.append_nil]
      · refine ⟨?_, rfl, rfl, ?_, ?_⟩
        · simp only [Function.update_self]
        · rw [htime]
          exact UInt64.le_refl _
        · intro c hc
          rcases List.mem_append.1 hc with hold | hnew
          · exact hunmoved c hold
          · rw [List.mem_singleton.1 hnew, htime]
            exact hbase.symm
      · simp only [State.ids, List.map_append, List.map_cons, List.map_nil, ← List.append_assoc]
        exact List.perm_append_singleton _ _

/-- **Calls one after the other are a run** of the transition system, in which no claim is moved. -/
theorem run_generateAll : ∀ (requests : List Request) {s : State Unit} {statics : Statics},
    Quiet s statics → statics.generator.last.toNat < 2 ^ 60 →
    (∀ r ∈ generateAll statics requests, r.2.generator.last.toNat < 2 ^ 60) →
    ∃ s' final, run step s (requests.flatMap Request.actions) = some s' ∧ Quiet s' final ∧
      s'.assigned = s.assigned ++
        (generateAll statics requests).map (fun r => r.2.generator.last) ∧
      List.Perm s'.ids ((generateAll statics requests).map Prod.fst ++ s.ids) := by
  intro requests
  induction requests with
  | nil =>
      intro s statics h _ _
      exact ⟨s, statics, rfl, h, by simp [generateAll], List.Perm.refl _⟩
  | cons r rs ih =>
      intro s statics h hlt hall
      have hfirst := hall _ (List.mem_cons_self ..)
      obtain ⟨s₁, hrun₁, hquiet₁, hassigned₁, hids₁⟩ := run_actions h hlt r hfirst
      obtain ⟨s₂, final, hrun₂, hquiet₂, hassigned₂, hids₂⟩ :=
        ih hquiet₁ hfirst fun r' hr' => hall r' (List.mem_cons_of_mem _ hr')
      refine ⟨s₂, final, ?_, hquiet₂, ?_, ?_⟩
      · rw [List.flatMap_cons]
        exact run_append_iff.2 ⟨s₁, hrun₁, hrun₂⟩
      · rw [hassigned₂, hassigned₁, generateAll, List.map_cons, List.append_assoc,
          List.singleton_append]
      · rw [generateAll, List.map_cons, List.cons_append]
        exact hids₂.trans ((hids₁.append_left _).trans List.perm_middle)

end Process

/-- What a call returns compacted is a compacted id of its codec. -/
theorem generate_eq_ofLayout {codec : Codec} {localNodeHash : Option UInt64} {s : Statics}
    {uuid : PlatformUUID} {compact : Bool} (h : codec = .v6 ∨ compact = true) :
    ∃ time clock salt : ℕ, (generate codec localNodeHash s uuid compact).1 =
      codec.ofLayout (crushLayout time clock salt) := by
  cases codec with
  | v1 =>
      obtain rfl : compact = true := h.resolve_left (by decide)
      have hcrush := UUID.compactCrush_eq localNodeHash
        ((isRfc_assign s.generator uuid 1).trans uuid.2)
      refine ⟨_, _, _, Eq.trans ?_ hcrush⟩
      rw [generate, UUIDGenerator.call_eq, if_pos rfl]
  | v6 => exact ⟨_, _, _, V6.make_eq localNodeHash _⟩

/-- A compacted id is read back by its codec. -/
theorem rendered_ofLayout_crushLayout (codec : Codec) (time clock salt : ℕ) :
    rendered codec (codec.ofLayout (crushLayout time clock salt)) =
      codec.ofLayout (crushLayout time clock salt) := by
  have hcodec := ((codec.ofLayout (crushLayout time clock salt)).codec?_eq_some_iff codec).2
    (codec.isRfc_ofLayout _)
  rw [rendered, hcodec]
  dsimp only
  rw [Codec.layout_ofLayout_crushLayout]

/-- Every id of a log comes from a request. -/
theorem exists_request {statics : Statics} {requests : List Request} {r : UUID × Statics}
    (h : r ∈ generateAll statics requests) : ∃ q ∈ requests, ∃ s,
      r = generate q.codec q.localNodeHash s q.uuid q.compact := by
  induction requests generalizing statics with
  | nil => simp [generateAll] at h
  | cons q qs ih =>
      rcases List.mem_cons.1 h with hfirst | hrest
      · exact ⟨q, List.mem_cons_self .., statics, hfirst⟩
      · obtain ⟨q', hq', hs⟩ := ih hrest
        exact ⟨q', List.mem_cons_of_mem _ hq', hs⟩

/-- **The log of a process** that calls `generate` one call after the other, with any codec in any
call, whatever the clock, the clock sequence and the node of the platform do.  As long as `last` of
the generator stays below `2 ^ 60`, no two of the ids have the same wire.  Where all ids are compacted
and of one codec, the list of their wires is read back as the list of the ids, and keeps its bytes
however often it is read and written under either codec. -/
theorem generate_log (requests : List Request)
    (hlast : ∀ r ∈ generateAll Statics.init requests, r.2.generator.last.toNat < 2 ^ 60) :
    ((generateAll Statics.init requests).map fun r => serialise r.1).Nodup ∧
    ∀ codec : Codec, (∀ q ∈ requests, q.codec = codec ∧ (codec = .v6 ∨ q.compact = true)) →
      ∃ b, writeList ((generateAll Statics.init requests).map Prod.fst) = .ok b ∧
        readList codec b = some ((generateAll Statics.init requests).map Prod.fst) ∧
        ∀ modes : List Codec, modes.foldlM (fun b mode => rewriteList mode b) b = some b := by
  constructor
  · obtain ⟨s, final, hrun, hquiet, hassigned, hids⟩ :=
      Process.run_generateAll requests Process.quiet_init (by decide) hlast
    rw [Process.init, List.nil_append] at hassigned
    have hassigned_lt : s.Bounded := by
      intro t ht
      rw [hassigned] at ht
      obtain ⟨r, hr, rfl⟩ := List.mem_map.1 ht
      exact hlast r hr
    -- no claim was moved, so the claimed times are assigned ones
    have hclaims : s.world.Bounded := by
      intro c hc
      rw [hquiet.unmoved c hc]
      exact c.base.uuid1Time_lt
    have hsound := Process.sound_run hrun hassigned_lt hclaims
    have hwires : (s.ids.map serialise).Nodup := by
      rw [Process.State.ids, List.map_append, List.map_map, List.map_map]
      refine List.pairwise_append.2 ⟨List.pairwise_map.2 (hsound.issued_pairwise.imp And.right),
        List.pairwise_map.2 hsound.claims_pairwise, ?_⟩
      intro w hw w' hw'
      obtain ⟨i, hi, rfl⟩ := List.mem_map.1 hw
      obtain ⟨c, hc, rfl⟩ := List.mem_map.1 hw'
      exact hsound.serialise_ne hc (hquiet.unmoved c hc) hi
    have hperm := hids.map serialise
    rw [show Process.State.ids Process.init = [] from rfl, List.append_nil, List.map_map] at hperm
    exact hperm.nodup_iff.1 hwires
  · intro codec hcodec
    have hcompacted : ∀ u ∈ (generateAll Statics.init requests).map Prod.fst,
        ∃ time clock salt : ℕ, u = codec.ofLayout (crushLayout time clock salt) := by
      intro u hu
      obtain ⟨r, hr, rfl⟩ := List.mem_map.1 hu
      obtain ⟨q, hq, s, rfl⟩ := exists_request hr
      obtain ⟨rfl, hcompact⟩ := hcodec q hq
      exact generate_eq_ofLayout hcompact
    refine ⟨_, writeList_eq _, ?_, ?_⟩
    · rw [readList_flatten, Option.some.injEq]
      refine (List.map_congr_left fun u hu => ?_).trans (List.map_id _)
      obtain ⟨time, clock, salt, rfl⟩ := hcompacted u hu
      exact rendered_ofLayout_crushLayout codec time clock salt
    · refine (foldlM_rewriteList_iff _).2 fun mode => ?_
      rw [rewriteList_flatten, List.map_map]
      refine congrArg (fun ws => some (List.flatten ws)) (List.map_congr_left fun u hu => ?_)
      obtain ⟨time, clock, salt, rfl⟩ := hcompacted u hu
      exact (wireOf_rendered_iff _).2 (portable_ofLayout_crushLayout codec time clock salt) mode

/-- A platform that returns one UUID three times, to calls with different codecs. -/
theorem generate_log_one_uuid : ∃ uuid : PlatformUUID,
    ((generateAll Statics.init [⟨.v6, none, uuid, true⟩, ⟨.v1, none, uuid, true⟩,
      ⟨.v1, some 3, uuid, false⟩]).map fun r => serialise r.1).Nodup := by
  let uuid : PlatformUUID :=
    ⟨UUID.ofCondensed ⟨uuidTimeInitial + 7, 5, 0x1234⟩, by decide +kernel⟩
  exact ⟨uuid, (generate_log [⟨.v6, none, uuid, true⟩, ⟨.v1, none, uuid, true⟩,
    ⟨.v1, some 3, uuid, false⟩] (by decide +kernel)).1⟩

end Cuuid
