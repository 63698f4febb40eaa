/-
**Text, bytes and wires side by side.**

An id is kept as text, as sixteen bytes or as a wire, and each of them may be sorted.  This module
follows ids from one form to the next.  A list of texts that is parsed, stored and printed again comes
out in lower case where the codec keeps the ids.  Texts sort as the sixteen bytes do, and for version 6
that is by time, clock sequence and node.

The ids that the threads of one process get from `cuuid_v6::generate()` never get as far as the node:
their times are distinct and their clock sequence is the same, so the window and the clock with the
tick folded into it decide.  Texts and wires sort these two by the same rule, but the wire has the
prefix of the window in front.

Main definitions:

* `Cuuid.MintKey`, `Cuuid.mintKey` — what the ids of one process are sorted by.

Main results:

* `Cuuid.text_store_iff` — **texts through a store**;
* `Cuuid.text_lt_iff` — **texts sort as bytes do**, and for version 6 as fields;
* `Cuuid.minted_sorted` — **how the ids of one process sort**, as texts and as wires, in the order
  in which they were claimed, under any interleaving.
-/

import Cuuid.Text
import Cuuid.Order
import Cuuid.Process
import Cuuid.Migration

set_option relaxedAutoImplicit false
set_option autoImplicit false

namespace Cuuid

open Hex LengthFold

/-! ### Texts -/

section Texts

variable {cc : CharClassify}

/-- A UUID that was constructed from a text is printed as that text in lower case. -/
theorem UUID.ofString_toText (h : cc.Documented) {s : Bytes} (hs : UuidGrammar s) :
    ∃ u, UUID.ofString cc s = .ok u ∧ u.toText cc = s.map toLower := by
  rw [← matches_uuidTemplate_iff] at hs
  obtain ⟨u, hu, hbytes⟩ := UUID.ofString_of_matches h hs
  refine ⟨u, hu, ?_⟩
  rw [UUID.toText_eq h, hbytes]
  refine encode_decode hs fun x hx => ?_
  have hdash : x = dash := by simpa [uuidTemplate] using hx
  rw [hdash]
  rfl

/-- A UUID is constructed from its own text. -/
theorem UUID.ofString_text (h : cc.Documented) (u : UUID) :
    UUID.ofString cc (u.toText cc) = .ok u := by
  have hsize : u.bytes.toList.length = size uuidTemplate := by
    rw [Vector.length_toList]
    rfl
  have hmatch : Matches uuidTemplate (u.toText cc) := by
    rw [UUID.toText_eq h]
    exact matches_encode hsize
  obtain ⟨v, hv, hbytes⟩ := UUID.ofString_of_matches h hmatch
  rw [UUID.toText_eq h, decode_encode hsize, Vector.toList_inj] at hbytes
  have huv : v = u := by
    cases u
    cases v
    exact congrArg UUID.mk hbytes
  rw [hv, huv]

/-- The text of a UUID tells its bytes. -/
theorem UUID.toText_injective (h : cc.Documented) : Function.Injective (UUID.toText cc) := by
  intro u v huv
  have hparse := UUID.ofString_text h u
  rw [huv, UUID.ofString_text h v, Except.ok.injEq] at hparse
  exact hparse.symm

/-- A list of texts is parsed to its end, or the first one that is no UUID's text stops it. -/
theorem mapM_ofString (h : cc.Documented) (texts : List Bytes) :
    (∃ us, texts.mapM (UUID.ofString cc) = .ok us ∧ (∀ s ∈ texts, UuidGrammar s) ∧
      us.map (UUID.toText cc) = texts.map (List.map toLower)) ∨
    ∃ m, texts.mapM (UUID.ofString cc) = .error (.invalidArgument m) ∧
      ∃ s ∈ texts, ¬ UuidGrammar s := by
  induction texts with
  | nil => exact Or.inl ⟨[], rfl, by simp, rfl⟩
  | cons s texts ih =>
      by_cases hs : UuidGrammar s
      · obtain ⟨u, hu, htext⟩ := UUID.ofString_toText h hs
        rcases ih with ⟨us, hus, hall, htexts⟩ | ⟨m, hm, s', hs', hnot⟩
        · refine Or.inl ⟨u :: us, ?_, ?_, ?_⟩
          · rw [List.mapM_cons, hu, hus]
            rfl
          · simp only [List.mem_cons, forall_eq_or_imp]
            exact ⟨hs, hall⟩
          · rw [List.map_cons, List.map_cons, htext, htexts]
        · refine Or.inr ⟨m, ?_, s', List.mem_cons_of_mem _ hs', hnot⟩
          rw [List.mapM_cons, hu, hm]
          rfl
      · obtain ⟨m, hm⟩ := UUID.ofString_of_not_matches h
          (fun hmatch => hs ((matches_uuidTemplate_iff s).1 hmatch))
        refine Or.inr ⟨m, ?_, s, List.mem_cons_self .., hs⟩
        rw [List.mapM_cons, hm]
        rfl

/-- **Texts through a store.**  A list of texts is parsed when each of them has the UUID grammar, and
otherwise `InvalidArgument` is thrown.  The ids can then be written, and are read back under either
codec; what is printed is the list of texts in lower case exactly when the codec keeps every id. -/
theorem text_store_iff (h : cc.Documented) (codec : Codec) (texts : List Bytes) :
    (∃ us b vs, (∀ s ∈ texts, UuidGrammar s) ∧ texts.mapM (UUID.ofString cc) = .ok us ∧
      writeList us = .ok b ∧ readList codec b = some vs ∧ vs.length = texts.length ∧
      (vs.map (UUID.toText cc) = texts.map (List.map toLower) ↔ ∀ u ∈ us, u.Kept codec)) ∨
    ∃ m, texts.mapM (UUID.ofString cc) = .error (.invalidArgument m) ∧
      ∃ s ∈ texts, ¬ UuidGrammar s := by
  rcases mapM_ofString h texts with ⟨us, hus, hall, htexts⟩ | hfail
  · refine Or.inl ⟨us, _, _, hall, hus, writeList_eq us, readList_flatten codec us, ?_, ?_⟩
    · have hlen := congrArg List.length htexts
      rw [List.length_map, List.length_map] at hlen
      rw [List.length_map, hlen]
    · rw [← htexts, (UUID.toText_injective h).list_map.eq_iff]
      simp only [← rendered_eq_iff]
      constructor
      · intro hsame u hu
        exact List.map_inj_left.1 (hsame.trans (List.map_id us).symm) u hu
      · intro hkept
        exact (List.map_congr_left hkept).trans (List.map_id us)
  · exact Or.inr hfail

/-- Texts sort as the bytes do. -/
theorem UUID.toText_lt_iff (h : cc.Documented) (u v : UUID) :
    u.toText cc < v.toText cc ↔ u.bytes.toList < v.bytes.toList := by
  rw [UUID.toText_eq h, UUID.toText_eq h]
  exact encode_lt_encode_iff (by rw [Vector.length_toList]; rfl) (by rw [Vector.length_toList]; rfl)

/-- The bytes of version 6 sort as the fields do. -/
theorem bytes_lt_iff {u v : UUID} (hu : u.isRfc 6 = true) (hv : v.isRfc 6 = true) :
    u.bytes.toList < v.bytes.toList ↔ (fromV6Bytes u.bytes).Before (fromV6Bytes v.bytes) := by
  rw [← toV6Bytes_lt_iff (fromV6Bytes_inRange _) (fromV6Bytes_inRange _), toV6Bytes_fromV6Bytes hu,
    toV6Bytes_fromV6Bytes hv]

/-- **Texts sort as the bytes do**, for all UUIDs, and two texts of version 6 by time, clock sequence
and node. -/
theorem text_lt_iff (h : cc.Documented) (u v : UUID) :
    (u.toText cc < v.toText cc ↔ u.bytes.toList < v.bytes.toList) ∧
    (u.isRfc 6 = true → v.isRfc 6 = true →
      (u.toText cc < v.toText cc ↔ (fromV6Bytes u.bytes).Before (fromV6Bytes v.bytes))) :=
  ⟨UUID.toText_lt_iff h u v,
    fun hu hv => (UUID.toText_lt_iff h u v).trans (bytes_lt_iff hu hv)⟩

end Texts

/-- A text in upper case, of no version that is condensed. -/
theorem text_store_upper : ∃ us b vs, [List.replicate 8 0x41 ++ dash ::
      (List.replicate 4 0x41 ++ dash :: (List.replicate 4 0x41 ++ dash ::
        (List.replicate 4 0x41 ++ dash :: List.replicate 12 0x41)))].mapM
        (UUID.ofString .ascii) = .ok us ∧
    writeList us = .ok b ∧ readList .v6 b = some vs ∧
    vs.map (UUID.toText .ascii) = [List.replicate 8 0x61 ++ dash ::
      (List.replicate 4 0x61 ++ dash :: (List.replicate 4 0x61 ++ dash ::
        (List.replicate 4 0x61 ++ dash :: List.replicate 12 0x61)))] := by
  have hparse : [List.replicate 8 0x41 ++ dash :: (List.replicate 4 0x41 ++ dash ::
      (List.replicate 4 0x41 ++ dash :: (List.replicate 4 0x41 ++ dash ::
        List.replicate 12 0x41)))].mapM (UUID.ofString .ascii) =
      .ok [⟨Vector.replicate 16 0xaa⟩] := by rfl
  rcases text_store_iff CharClassify.documented_ascii .v6 [List.replicate 8 0x41 ++ dash ::
      (List.replicate 4 0x41 ++ dash :: (List.replicate 4 0x41 ++ dash ::
        (List.replicate 4 0x41 ++ dash :: List.replicate 12 0x41)))] with
    ⟨us, b, vs, -, hus, hb, hvs, -, hiff⟩ | ⟨m, hm, -⟩
  · refine ⟨us, b, vs, hus, hb, hvs, hiff.2 ?_⟩
    rw [hparse, Except.ok.injEq] at hus
    subst hus
    intro u hu codec hcodec
    rw [List.mem_singleton.1 hu] at hcodec
    cases codec <;> exact absurd hcodec (by decide +kernel)
  · rw [hparse] at hm
    cases hm

/-- A later time sorts behind a larger clock sequence. -/
theorem text_lt_later : (V6.fromFields ⟨uuidTimeInitial, 5, 1⟩).toText .ascii <
    (V6.fromFields ⟨uuidTimeInitial + 1, 0, 0⟩).toText .ascii := by
  refine ((text_lt_iff CharClassify.documented_ascii _ _).2 (V6.isRfc_fromFields _)
    (V6.isRfc_fromFields _)).2 ?_
  rw [V6.fields_fromFields ⟨by decide, by decide, by decide⟩,
    V6.fields_fromFields ⟨by decide, by decide, by decide⟩]
  exact Or.inl (by decide)

/-! ### Ids of one process -/

/-- A window, and a clock sequence with the tick inside the window folded into it. -/
structure MintKey where
  window : ℕ
  clock : ℕ
deriving DecidableEq, Repr

/-- The lexicographic order of window and clock. -/
def MintKey.Before (a b : MintKey) : Prop :=
  a.window < b.window ∨ a.window = b.window ∧ a.clock < b.clock

instance (a b : MintKey) : Decidable (a.Before b) := inferInstanceAs (Decidable (_ ∨ _ ∧ _))

/-- What compaction makes of a time and a clock sequence. -/
def mintKey (time clock : ℕ) : MintKey := ⟨windowOf time, clock ^^^ tickOf time⟩

section Keys

variable {t₁ t₂ clock : ℕ}

/-- A later time has another key, in a window that is not earlier. -/
theorem mintKey_of_lt (clock : ℕ) (h₁ : initial ≤ t₁) (hlt : t₁ < t₂) (h₂ : t₂ < 2 ^ 60) :
    windowOf t₁ ≤ windowOf t₂ ∧ mintKey t₁ clock ≠ mintKey t₂ clock := by
  have hpos : 0 < t₁ := lt_of_lt_of_le (by decide) h₁
  constructor
  · rw [windowOf, windowOf, rebase_of_le h₁ (by omega), rebase_of_le (by omega) h₂]
    omega
  · intro hkey
    obtain ⟨hwindow, hfold⟩ := MintKey.mk.inj hkey
    have heq := eq_of_windowOf_tickOf hpos (by omega) (by omega) h₂ hwindow
      (Nat.xor_right_inj.1 hfold)
    omega

/-- Two keys in windows that are not in the wrong order compare as the times of the windows do, and
then as the clocks. -/
theorem before_of_windowTime {f g : Fields} {a b : MintKey}
    (hf : f.time.toNat = windowTime a.window) (hg : g.time.toNat = windowTime b.window)
    (hf' : f.clock.toNat = a.clock) (hg' : g.clock.toNat = b.clock) (hle : a.window ≤ b.window)
    (hne : a ≠ b) (hwrap : b.window * 2 ^ 14 + initial < 2 ^ 60) : f.Before g ↔ a.Before b := by
  simp only [Fields.Before, MintKey.Before, UInt64.lt_iff_toNat_lt, UInt16.lt_iff_toNat_lt,
    ← UInt64.toNat_inj, ← UInt16.toNat_inj, hf, hg, hf', hg']
  rcases hle.lt_or_eq with hlt | heq
  · exact iff_of_true (Or.inl (windowTime_lt_windowTime hlt hwrap)) (Or.inl hlt)
  · -- in one window the clocks differ, so the nodes are not compared
    have hclock : a.clock ≠ b.clock := by
      intro hclock
      cases a
      cases b
      exact hne (congrArg₂ MintKey.mk heq hclock)
    simp only [heq, lt_self_iff_false, hclock, false_and, or_false, true_and, false_or]

/-- The payload of a compaction: the window, the folded clock and the salt. -/
theorem payload_crushLayout_eq (time salt : ℕ) (hclock : clock < 2 ^ 14) :
    (crushLayout time clock salt).payload = (mintKey time clock).window * 2 ^ 22 +
      ((mintKey time clock).clock * 2 ^ 8 + salt % 2 ^ 7 * 2 + 1) := by
  have hfold := Nat.xor_lt_two_pow hclock (tickOf_lt time)
  simp only [crushLayout, Layout.payload, toNat_windowOf, mintKey]
  rw [BitVec.toNat_ofNat, BitVec.toNat_ofNat, Nat.mod_eq_of_lt hfold]
  ring

/-- The slot of the wire of a compaction. -/
theorem wire_crushLayout (time salt : ℕ) (hclock : clock < 2 ^ 14) : ∃ s ∈ vlTable.slots,
    (crushLayout time clock salt).payload < s.cap ∧ s.lead = leadOf (windowOf time) ∧
      (crushLayout time clock salt).wire = s.wire (crushLayout time clock salt).payload := by
  have hfold : (mintKey time clock).clock < 2 ^ 14 := Nat.xor_lt_two_pow hclock (tickOf_lt time)
  have hrest : (mintKey time clock).clock * 2 ^ 8 + salt % 2 ^ 7 * 2 + 1 < 2 ^ 22 := by omega
  obtain ⟨s, hfit, hlead⟩ := fit_window (windowOf_lt time) hrest
  have hfit' : vlTable.fit (crushLayout time clock salt).payload = some s := by
    rw [payload_crushLayout_eq time salt hclock]
    exact hfit
  obtain ⟨hs, hroom, -⟩ := Table.fit_eq_some_iff.1 hfit'
  refine ⟨s, hs, hroom, hlead, ?_⟩
  rw [Layout.wire, hfit']

/-- **Wires of compactions under one clock** compare by the prefixes of their windows, and inside one
prefix by key. -/
theorem wire_crush_lt_iff (hclock : clock < 2 ^ 14) (hne : mintKey t₁ clock ≠ mintKey t₂ clock)
    (s₁ s₂ : ℕ) : (crushLayout t₁ clock s₁).wire < (crushLayout t₂ clock s₂).wire ↔
      leadOf (windowOf t₁) < leadOf (windowOf t₂) ∨
        leadOf (windowOf t₁) = leadOf (windowOf t₂) ∧
          (mintKey t₁ clock).Before (mintKey t₂ clock) := by
  have hfold₁ : (mintKey t₁ clock).clock < 2 ^ 14 := Nat.xor_lt_two_pow hclock (tickOf_lt t₁)
  have hfold₂ : (mintKey t₂ clock).clock < 2 ^ 14 := Nat.xor_lt_two_pow hclock (tickOf_lt t₂)
  obtain ⟨s, hs, hroom, hlead, hwire⟩ := wire_crushLayout t₁ s₁ hclock
  obtain ⟨t, ht, hroom', hlead', hwire'⟩ := wire_crushLayout t₂ s₂ hclock
  have hpayload : (crushLayout t₁ clock s₁).payload < (crushLayout t₂ clock s₂).payload ↔
      (mintKey t₁ clock).Before (mintKey t₂ clock) := by
    have hdiff : ¬ ((mintKey t₁ clock).window = (mintKey t₂ clock).window ∧
        (mintKey t₁ clock).clock = (mintKey t₂ clock).clock) := by
      rintro ⟨hwindow, hfold⟩
      exact hne (congrArg₂ MintKey.mk hwindow hfold)
    rw [payload_crushLayout_eq _ _ hclock, payload_crushLayout_eq _ _ hclock, MintKey.Before]
    omega
  rw [hwire, hwire', Table.wire_lt_wire_iff_lead hs ht hroom hroom', hlead, hlead', hpayload]

end Keys

open Transition Generate in
/-- **How the ids of one process sort.**  Under any interleaving of calls of `generate()`, when the
times that are claimed are from 2016 on and do not reach `2 ^ 60`, an id and one that is claimed later
are in windows that are in this order.  Their texts sort by window, and inside a window by the clock
with the tick folded into it; their wires sort in the same way as long as the windows have the same
prefix, and otherwise by prefix. -/
theorem minted_sorted {cc : CharClassify} (hcc : cc.Documented) {ι : Type*} [DecidableEq ι]
    {as : List (Action ι)} {w : World ι} (hrun : run step init as = some w)
    (hfrom : ∀ c ∈ w.claims, uuidTimeInitial ≤ c.time)
    (hbound : ∀ c ∈ w.claims, c.time.toNat < 2 ^ 60) :
    ∃ clock : ℕ, (∀ c ∈ w.claims, c.base.uuid1ClockSeq.toNat = clock) ∧
      w.claims.Pairwise fun c d =>
        windowOf c.time.toNat ≤ windowOf d.time.toNat ∧
        (c.id.toText cc < d.id.toText cc ↔
          (mintKey c.time.toNat clock).Before (mintKey d.time.toNat clock)) ∧
        ∃ x y, serialise c.id = .ok x ∧ serialise d.id = .ok y ∧
          (x < y ↔ leadOf (windowOf c.time.toNat) < leadOf (windowOf d.time.toNat) ∨
            leadOf (windowOf c.time.toNat) = leadOf (windowOf d.time.toNat) ∧
              (mintKey c.time.toNat clock).Before (mintKey d.time.toNat clock)) := by
  have hclock := clockInv_run hrun
  have htime := timeInv_run hrun hbound
  have hseq : ∀ c ∈ w.claims, c.base.uuid1ClockSeq.toNat = w.generator.clockSeq.toNat := by
    intro c hc
    rw [← hclock.of_claim c hc, Int.toNat_natCast]
  refine ⟨_, hseq, htime.increasing.imp_of_mem ?_⟩
  intro c d hc hd hlt
  have hfrom₁ := (initial_le_iff c.time).1 (hfrom c hc)
  have hlt' := UInt64.lt_iff_toNat_lt.1 hlt
  obtain ⟨hle, hne⟩ := mintKey_of_lt w.generator.clockSeq.toNat hfrom₁ hlt' (hbound d hd)
  have hck : w.generator.clockSeq.toNat < 2 ^ 14 := hseq c hc ▸ c.base.uuid1ClockSeq_lt
  obtain ⟨lnh₁, hid₁, hwire₁⟩ := Process.serialise_claim (htime.sound c hc)
  obtain ⟨lnh₂, hid₂, hwire₂⟩ := Process.serialise_claim (htime.sound d hd)
  refine ⟨hle, ?_, _, _, hwire₁, hwire₂, ?_⟩
  · have hrfc : ∀ (lnh : Option UInt64) (f : Fields), (V6.make lnh f).isRfc 6 = true := by
      intro lnh f
      rw [V6.make_eq]
      exact V6.isRfc_fromFields _
    have hwrap : windowOf d.time.toNat * 2 ^ 14 + initial < 2 ^ 60 :=
      window_no_wrap (hfrom d hd) (hbound d hd)
    obtain ⟨hf, hf'⟩ := fields_make lnh₁
      (f := ⟨c.time, c.base.uuid1ClockSeq, c.base.uuid1Node⟩) c.base.uuid1ClockSeq_lt
    obtain ⟨hg, hg'⟩ := fields_make lnh₂
      (f := ⟨d.time, d.base.uuid1ClockSeq, d.base.uuid1Node⟩) d.base.uuid1ClockSeq_lt
    dsimp only at hf hf' hg hg'
    rw [hseq c hc] at hf'
    rw [hseq d hd] at hg'
    rw [UUID.toText_lt_iff hcc, hid₁, hid₂, bytes_lt_iff (hrfc _ _) (hrfc _ _)]
    exact before_of_windowTime hf hg hf' hg' hle hne hwrap
  · rw [hseq c hc, hseq d hd]
    exact wire_crush_lt_iff hck hne _ _

open Transition Generate in
/-- Two threads in the first window of 2016: the ids of the second claim sort behind those of the
first, since the folded clocks are 2 and 13. -/
theorem minted_sorted_two_threads : ∃ uuid : PlatformUUID, ∃ w : World Bool,
    run step init [.mint true uuid, .mint false uuid, .load false, .load true, .exchange true none,
      .exchangeFails false, .exchange false (some 3)] = some w ∧ w.claims.length = 2 ∧
    w.claims.Pairwise fun c d => c.id.toText .ascii < d.id.toText .ascii := by
  let uuid : PlatformUUID :=
    ⟨UUID.ofCondensed ⟨uuidTimeInitial + 7, 5, 0x1234⟩, by decide +kernel⟩
  have hany : (run step init [.mint true uuid, .mint false uuid, .load false, .load true,
      .exchange true none, .exchangeFails false, .exchange false (some 3)]).any (fun w =>
        w.claims.length = 2 ∧ (∀ c ∈ w.claims, uuidTimeInitial ≤ c.time ∧ c.time.toNat < 2 ^ 60) ∧
        w.claims.Pairwise fun c d =>
          (mintKey c.time.toNat c.base.uuid1ClockSeq.toNat).Before
            (mintKey d.time.toNat d.base.uuid1ClockSeq.toNat)) = true := by decide +kernel
  obtain ⟨w, hrun, hw⟩ := (Option.any_eq_true _ _).1 hany
  obtain ⟨hlength, hclaims, hbefore⟩ := of_decide_eq_true hw
  obtain ⟨clock, hclock, hsorted⟩ := minted_sorted CharClassify.documented_ascii hrun
    (fun c hc => (hclaims c hc).1) (fun c hc => (hclaims c hc).2)
  refine ⟨uuid, w, hrun, hlength, (hsorted.and hbefore).imp_of_mem ?_⟩
  rintro c d hc hd ⟨⟨-, htext, -⟩, hkey⟩
  rw [hclock c hc, hclock d hd] at hkey
  exact htext.2 hkey

end Cuuid
