/-
**Packed lists of wires.**

A list of UUIDs is stored as its wires, back to back, and three pieces of the source find the
boundaries again: the validator, and the element decoder of either codec.  This module gives them
one specification, the bytes that an element leaves behind, and reads everything about lists off the
general theory of `Cuuid.Lib.Framing`.

Main definitions:

* `Cuuid.elementRest` — what one element leaves of an input, if the input starts with one.

Main results:

* `Cuuid.isSerialisedElement_eq`, `Cuuid.unserialise_spec` — the validator and the decoders compute
  it, and leave their input alone when there is no element;
* `Cuuid.packed_list` — **packed lists decode element by element**;
* `Cuuid.validator_agrees` — **the validator and the decoders agree** on every byte string.
-/

import Cuuid.Dispatch

set_option relaxedAutoImplicit false
set_option autoImplicit false

namespace Cuuid

open LengthFold Framing

/-! ### One element -/

/-- What the first element leaves of an input: a full wire has seventeen bytes, and a condensed one
is what the table decodes. -/
def elementRest : Bytes → Option Bytes
  | [] => none
  | b :: l =>
      if b = 1 then if 16 ≤ l.length then some (l.drop 16) else none
      else (vlTable.decode (b :: l)).map Prod.snd

/-- A single byte is not a wire. -/
theorem decode_singleton (b : UInt8) : vlTable.decode [b] = none := by
  cases hdec : vlTable.decode [b] with
  | none => rfl
  | some p =>
      obtain ⟨_, l, hbl, -, -, hlen⟩ := UUIDCondenser.head_of_decode hdec
      rw [List.cons.injEq] at hbl
      rw [← hbl.2] at hlen
      simp at hlen

theorem elementRest_singleton (b : UInt8) : elementRest [b] = none := by
  by_cases hb : b = 1
  · simp [elementRest, hb]
  · simp [elementRest, hb, decode_singleton]

/-- The length of an element, as the row loop finds it. -/
theorem elementRest_cons (b : UInt8) (l : Bytes) : elementRest (b :: l) =
    let length := if b = 1 then 17
      else if vlRow b (b &&& 0xf0 != 0) < 13 then vlRow b (b &&& 0xf0 != 0) + 4
      else l.length + 1 + 1
    if l.length + 1 < length then none else some ((b :: l).drop length) := by
  by_cases hb : b = 1
  · simp only [elementRest, hb, if_true]
    split_ifs <;> first | rfl | omega
  · simp only [elementRest, hb, if_false]
    cases hslot : vlTable.slotOf b with
    | none =>
        simp [Table.decode, hslot, vlRow_of_slotOf_eq_none hslot]
    | some s =>
        obtain ⟨hi, hextra, -⟩ := vlRow_of_slotOf hslot
        simp only [Table.decode, hslot, hextra]
        rw [if_pos hi]
        rcases Nat.lt_or_ge l.length (vlRow b (b &&& 0xf0 != 0) + 3) with hshort | hlen
        · rw [if_neg (by omega), if_pos (by omega)]
          rfl
        · rw [if_pos hlen, if_neg (by omega)]
          rfl

/-- The full decoder copies sixteen bytes, when there are that many. -/
theorem unserialiseFull_of_le {l : Bytes} (h : 16 ≤ l.length) :
    ∃ u : UUID, u.bytes.toList = l.take 16 ∧
      UUID.unserialiseFull (1 :: l) = .ok u (l.drop 16) := by
  have hlen : ¬ (1 :: l : Bytes).length < 17 := by simp; omega
  have htake : (l.take 16).length = 16 := by simp [h]
  have hsrc : readRange (1 :: l) 1 16 = .ok (l.take 16) := by
    rw [readRange, if_pos (by simp; omega)]
    rfl
  have hcopy : UUID.copyFrom (l.take 16) = .ok ⟨⟨(l.take 16).toArray, by simpa using htake⟩⟩ := by
    rw [UUID.copyFrom, dif_pos htake]
  refine ⟨⟨⟨(l.take 16).toArray, by simpa using htake⟩⟩, by simp, ?_⟩
  unfold UUID.unserialiseFull
  dsimp only [bind, EStateM.bind, MonadState.get, getThe, MonadStateOf.get, EStateM.get]
  rw [if_neg hlen, hsrc]
  dsimp only [Reader.access, pure, EStateM.pure]
  simp only [EStateM.bind, EStateM.pure, hcopy]
  rfl

theorem unserialiseFull_of_lt {l : Bytes} (h : l.length < 16) :
    UUID.unserialiseFull (1 :: l) = .error (.serialisationError "Bad encoded UUID") (1 :: l) := by
  have hlen : (1 :: l : Bytes).length < 17 := by simp; omega
  unfold UUID.unserialiseFull
  dsimp only [bind, EStateM.bind, MonadState.get, getThe, MonadStateOf.get, EStateM.get]
  rw [if_pos hlen]
  rfl

/-- The condensed decoder of either codec decodes by the table. -/
theorem uncondense_cons (expand : NodeExpander) (b : UInt8) (l : Bytes) :
    uncondense expand (b :: l) =
      match vlTable.decode (b :: l) with
      | some (P, r) => .ok ((Layout.ofPayload P).fields expand) r
      | none => .error (.serialisationError "Bad condensed UUID") (b :: l) := by
  have hdec := UUIDCondenser.unserialise_eq b l
  cases hP : vlTable.decode (b :: l) with
  | none =>
      rw [hP] at hdec
      simp only [uncondense, bind, EStateM.bind, hdec]
  | some p =>
      rw [hP] at hdec
      have hlt := UUIDCondenser.payload_lt_of_decode hP
      simp only [uncondense, bind, EStateM.bind, hdec]
      rw [← UUIDCondenser.layout_ofPayload hlt, ← fieldsOf_eq]
      rfl

/-- What either codec assembles from the fields of a condensed wire. -/
theorem unserialise_condensed (codec : Codec) {b : UInt8} (hb : b ≠ 1) (c : UInt8) (l : Bytes) :
    unserialise codec (b :: c :: l) =
      match vlTable.decode (b :: c :: l) with
      | some (P, r) => .ok (codec.ofLayout (Layout.ofPayload P)) r
      | none => .error (.serialisationError "Bad condensed UUID") (b :: c :: l) := by
  cases codec with
  | v1 =>
      rw [unserialise_v1, UUID.unserialise_cons_cons, if_neg hb]
      simp only [UUID.unserialiseCondensed, bind, EStateM.bind, uncondense_cons]
      cases vlTable.decode (b :: c :: l) <;> rfl
  | v6 =>
      rw [unserialise_v6_cons, if_neg hb]
      simp only [V6.unserialise, bind, EStateM.bind, uncondense_cons]
      cases vlTable.decode (b :: c :: l) <;> rfl

/-- A full wire, or what is left of one, goes to the full decoder under either codec. -/
theorem unserialise_one (codec : Codec) (c : UInt8) (l : Bytes) :
    unserialise codec (1 :: c :: l) = UUID.unserialiseFull (1 :: c :: l) := by
  cases codec with
  | v1 => rw [unserialise_v1, UUID.unserialise_cons_cons, if_pos rfl]
  | v6 => rw [unserialise_v6_cons, if_pos rfl, UUID.unserialise_cons_cons, if_pos rfl]

/-- Inputs of less than two bytes are refused under either codec. -/
theorem unserialise_short (codec : Codec) {bs : Bytes} (h : bs.length < 2) :
    ∃ message, unserialise codec bs = .error (.serialisationError message) bs := by
  match bs with
  | [] => cases codec <;> exact ⟨_, rfl⟩
  | [b] =>
      cases codec with
      | v1 => exact ⟨_, UUID.unserialise_singleton b⟩
      | v6 =>
          rw [unserialise_v6_cons]
          by_cases hb : b = 1
          · rw [if_pos hb]
            exact ⟨_, UUID.unserialise_singleton b⟩
          · rw [if_neg hb]
            simp only [V6.unserialise, bind, EStateM.bind, uncondense_cons, decode_singleton]
            exact ⟨_, rfl⟩
  | _ :: _ :: _ =>
      simp only [List.length_cons] at h
      omega

/-- **A decoder reads one element**, under either codec, or fails on an unchanged input. -/
theorem unserialise_spec (codec : Codec) (bs : Bytes) :
    match elementRest bs with
    | some r => ∃ u, unserialise codec bs = .ok u r
    | none => ∃ message, unserialise codec bs = .error (.serialisationError message) bs := by
  match bs with
  | [] => exact unserialise_short codec (by simp)
  | [b] =>
      rw [elementRest_singleton]
      exact unserialise_short codec (by simp)
  | b :: c :: l =>
      by_cases hb : b = 1
      · subst hb
        rw [unserialise_one, elementRest, if_pos rfl]
        rcases Nat.lt_or_ge (c :: l).length 16 with hlt | hge
        · rw [if_neg (by omega)]
          exact ⟨_, unserialiseFull_of_lt hlt⟩
        · rw [if_pos hge]
          obtain ⟨u, -, hu⟩ := unserialiseFull_of_le hge
          exact ⟨u, hu⟩
      · rw [unserialise_condensed codec hb, elementRest, if_neg hb]
        cases vlTable.decode (b :: c :: l) with
        | none => exact ⟨_, rfl⟩
        | some p => exact ⟨_, rfl⟩

/-- **The validator reads the same element.**  Its checks of the size and of the byte `0x01` are its
own; the row of the first byte is the one that the condenser finds. -/
theorem isSerialisedElement_eq (bs : Bytes) : UUID.isSerialisedElement bs =
    match elementRest bs with
    | some r => .ok true r
    | none => .ok false bs := by
  match bs with
  | [] => rfl
  | [b] =>
      rw [elementRest_singleton]
      rfl
  | b :: c :: l =>
      have hshort : ¬ (b :: c :: l).length < 2 := by simp
      unfold UUID.isSerialisedElement
      dsimp only [bind, EStateM.bind, MonadState.get, getThe, MonadStateOf.get, EStateM.get]
      rw [if_neg hshort]
      dsimp only [bind, EStateM.bind, Reader.access, readAt, List.getElem?_cons_zero, pure,
        EStateM.pure]
      rw [elementRest_cons, List.length_cons]
      generalize (if b = 1 then 17
        else if vlRow b (b &&& 0xf0 != 0) < 13 then vlRow b (b &&& 0xf0 != 0) + 4
        else (c :: l).length + 1 + 1) = length
      dsimp only
      by_cases hlen : (c :: l).length + 1 < length
      · rw [if_pos hlen, if_pos hlen]
        rfl
      · rw [if_neg hlen, if_neg hlen]
        rfl

theorem isSerialisedTurn_eq (bs : Bytes) : UUID.isSerialisedTurn bs =
    match elementRest bs with
    | some r => .ok () r
    | none => .error none bs := by
  rw [UUID.isSerialisedTurn, isSerialisedElement_eq]
  cases elementRest bs <;> rfl

/-! ### The decoders, in the terms of the general theory -/

/-- What a decoder accepts is an element, and what it leaves is the rest of it. -/
theorem elementRest_of_ok {codec : Codec} {bs r : Bytes} {u : UUID}
    (h : unserialise codec bs = .ok u r) : elementRest bs = some r := by
  have hspec := unserialise_spec codec bs
  cases hrest : elementRest bs with
  | none =>
      rw [hrest] at hspec
      obtain ⟨message, herr⟩ := hspec
      rw [h] at herr
      injection herr
  | some r' =>
      rw [hrest] at hspec
      obtain ⟨u', hok⟩ := hspec
      rw [h] at hok
      injection hok with _ hr
      rw [hr]

/-- An element has at least four bytes. -/
theorem length_lt_of_elementRest {bs r : Bytes} (h : elementRest bs = some r) :
    r.length < bs.length := by
  cases bs with
  | nil => simp [elementRest] at h
  | cons b l =>
      rw [elementRest_cons] at h
      dsimp only at h
      split_ifs at h <;>
        · injection h with h
          rw [← h, List.length_drop, List.length_cons]
          omega

/-- The decoders always move forward. -/
theorem consumes_unserialise (codec : Codec) : Consumes (unserialise codec) := by
  intro bs u r h
  exact length_lt_of_elementRest (elementRest_of_ok h)

/-- A turn of the validator that goes on has found an element. -/
theorem elementRest_of_turn {bs r : Bytes} {x : Unit} (h : UUID.isSerialisedTurn bs = .ok x r) :
    elementRest bs = some r := by
  rw [isSerialisedTurn_eq] at h
  cases hrest : elementRest bs with
  | none =>
      rw [hrest] at h
      injection h
  | some r' =>
      rw [hrest] at h
      injection h with _ hr
      rw [hr]

theorem consumes_isSerialisedTurn : Consumes UUID.isSerialisedTurn := by
  intro bs u r h
  exact length_lt_of_elementRest (elementRest_of_turn h)

/-- A decoder that throws has not moved `*ptr`, and throws a `SerialisationError`. -/
theorem unserialise_error {codec : Codec} {bs s : Bytes} {e : Fault}
    (h : unserialise codec bs = .error e s) :
    s = bs ∧ ∃ message, e = .serialisationError message := by
  have hspec := unserialise_spec codec bs
  cases hrest : elementRest bs with
  | none =>
      rw [hrest] at hspec
      obtain ⟨message, herr⟩ := hspec
      rw [h] at herr
      injection herr with he hs
      exact ⟨hs, message, he⟩
  | some r =>
      rw [hrest] at hspec
      obtain ⟨u, hok⟩ := hspec
      rw [h] at hok
      injection hok

theorem clean_unserialise (codec : Codec) : Clean (unserialise codec) := by
  intro bs e s h
  exact (unserialise_error h).1

/-- The validator stops by returning `false`, never by a fault, and has not moved `*ptr` then. -/
theorem isSerialisedTurn_error {bs s : Bytes} {x : Option Fault}
    (h : UUID.isSerialisedTurn bs = .error x s) : s = bs ∧ x = none := by
  rw [isSerialisedTurn_eq] at h
  cases hrest : elementRest bs with
  | none =>
      rw [hrest] at h
      injection h with hx hs
      exact ⟨hs.symm, hx.symm⟩
  | some r =>
      rw [hrest] at h
      injection h

theorem clean_isSerialisedTurn : Clean UUID.isSerialisedTurn := by
  intro bs e s h
  exact (isSerialisedTurn_error h).1

/-- **The validator cuts where the decoders cut.** -/
theorem sameCuts (codec : Codec) : SameCuts (unserialise codec) UUID.isSerialisedTurn := by
  intro bs _
  have hspec := unserialise_spec codec bs
  have hturn := isSerialisedTurn_eq bs
  cases hrest : elementRest bs with
  | none =>
      rw [hrest] at hspec hturn
      obtain ⟨message, herr⟩ := hspec
      exact Or.inr ⟨_, _, bs, herr, hturn⟩
  | some r =>
      rw [hrest] at hspec hturn
      obtain ⟨u, hok⟩ := hspec
      exact Or.inl ⟨u, (), r, hok, hturn⟩

/-! ### Lists of wires -/

/-- The full wire of any UUID is read back, under either codec. -/
theorem frames_full (codec : Codec) (u : UUID) :
    Frames (unserialise codec) u.serialiseFull u := by
  refine ⟨by simp [UUID.serialiseFull], fun r => ?_⟩
  have hlen : u.bytes.toList.length = 16 := by simp
  have htake : (u.bytes.toList ++ r).take 16 = u.bytes.toList := List.take_left' hlen
  have hdrop : (u.bytes.toList ++ r).drop 16 = r := List.drop_left' hlen
  obtain ⟨v, hv, hread⟩ := unserialiseFull_of_le (l := u.bytes.toList ++ r) (by simp)
  have huv : v = u := by
    cases u
    cases v
    rw [htake] at hv
    exact congrArg UUID.mk (Vector.toList_inj.1 hv)
  obtain ⟨c, l, hcl⟩ : ∃ c l, u.bytes.toList ++ r = c :: l :=
    List.exists_cons_of_ne_nil (by intro h; simpa [h] using congrArg List.length htake)
  rw [UUID.serialiseFull, List.cons_append, hcl, unserialise_one, ← hcl, hread, huv, hdrop]

/-- The wire of a layout is read back, under either codec. -/
theorem frames_wire (codec : Codec) (L : Layout) :
    Frames (unserialise codec) L.wire (codec.ofLayout L) := by
  refine ⟨fun h => ?_, fun r => unserialise_wire codec L r⟩
  have hlen := L.four_le_length_wire
  simp [h] at hlen

/-- **Every UUID has a wire, and every wire is an element**: whatever follows it, it is read as the
same UUID. -/
theorem frames_serialise (codec : Codec) (u : UUID) :
    ∃ w v, serialise u = .ok w ∧ Frames (unserialise codec) w v := by
  by_cases h : ∃ c : Codec, u.isRfc c.version = true
  · obtain ⟨c, hc⟩ := h
    exact ⟨_, _, serialise_of_isRfc hc, frames_wire codec _⟩
  · have hnone : ∀ c : Codec, u.isRfc c.version = false := by
      intro c
      exact Bool.eq_false_iff.2 fun hc => h ⟨c, hc⟩
    exact ⟨_, u, serialise_of_not_isRfc hnone, frames_full codec u⟩

/-- The wires of a list of UUIDs, with what each is decoded to. -/
theorem exists_wires (codec : Codec) (us : List UUID) : ∃ ps : List (Bytes × UUID),
    us.mapM serialise = .ok (ps.map Prod.fst) ∧
      (ps.map Prod.fst).mapM (unserialiseView codec) = .ok (ps.map Prod.snd) ∧
      ∀ p ∈ ps, Frames (unserialise codec) p.1 p.2 := by
  induction us with
  | nil => exact ⟨[], rfl, rfl, by simp⟩
  | cons u us ih =>
      obtain ⟨ps, hws, hvs, hframes⟩ := ih
      obtain ⟨w, v, hw, hframe⟩ := frames_serialise codec u
      have hview : unserialiseView codec w = .ok v := by
        rw [unserialiseView, hframe.read_whole]
      refine ⟨(w, v) :: ps, ?_, ?_, ?_⟩
      · rw [List.mapM_cons, hw, hws]
        rfl
      · rw [List.map_cons, List.mapM_cons, hview, hvs]
        rfl
      · intro p hp
        rcases List.mem_cons.1 hp with rfl | hp
        · exact hframe
        · exact hframes p hp

/-- **Packed lists decode element by element.**  Under either codec, the wires of any UUIDs can be
decoded one by one, and the list decoder run on their concatenation uses it up and outputs the same
UUIDs in order; the validator accepts it.  No wire is a proper prefix of another. -/
theorem packed_list (codec : Codec) (us : List UUID) :
    (∃ ws vs, us.mapM serialise = .ok ws ∧ ws.mapM (unserialiseView codec) = .ok vs ∧
      ∀ fuel, ws.flatten.length < fuel → ∃ cuts,
        unserialiseList codec fuel ws.flatten = some ⟨vs, cuts, [], none⟩ ∧
        ∃ marks, UUID.isSerialised fuel ws.flatten = some ⟨marks, cuts, [], none⟩) ∧
    ∀ (u v : UUID) (w w' : Bytes), serialise u = .ok w → serialise v = .ok w' → w <+: w' →
      w = w' := by
  constructor
  · obtain ⟨ps, hws, hvs, hframes⟩ := exists_wires codec us
    refine ⟨_, _, hws, hvs, fun fuel hfuel => ?_⟩
    obtain ⟨cuts, hdrain⟩ := drain_flatten ps hframes (ps.length + 1) (Nat.lt_succ_self _)
    have hlist := drain_of_length_lt (consumes_unserialise codec) hdrain hfuel
    obtain ⟨o, ho⟩ := drain_terminates consumes_isSerialisedTurn fuel _ hfuel
    obtain ⟨hcuts, hrest, herr⟩ := (sameCuts codec).drain _ _ _ _ hlist ho
    obtain ⟨marks, cuts', rest, err⟩ := o
    dsimp only at hcuts hrest herr
    rw [← hcuts, ← hrest, herr.1 rfl] at ho
    exact ⟨cuts, hlist, marks, ho⟩
  · intro u v w w' hw hw' hpre
    obtain ⟨w₁, v₁, hw₁, hframe₁⟩ := frames_serialise codec u
    obtain ⟨w₂, v₂, hw₂, hframe₂⟩ := frames_serialise codec v
    rw [hw] at hw₁
    rw [hw'] at hw₂
    injection hw₁ with hw₁
    injection hw₂ with hw₂
    subst hw₁
    subst hw₂
    exact hframe₁.eq_of_prefix hframe₂ hpre

/-- **The validator and the decoders agree.**  On every byte string and under either codec both
loops end, with enough fuel for one turn per byte; they accept the same strings, stop in the same
place with the same boundaries before it, and where they stop early no element starts.  The list
decoder has then output exactly the elements before that place, and fails with a
`SerialisationError`; so does the decoder of one value, which leaves `*ptr` alone. -/
theorem validator_agrees (codec : Codec) (b : Bytes) :
    (∀ fuel, b.length < fuel → ∃ o o', unserialiseList codec fuel b = some o ∧
      UUID.isSerialised fuel b = some o' ∧ (o'.err = none ↔ o.err = none) ∧ o.cuts = o'.cuts ∧
      o.rest = o'.rest ∧ Decodes (unserialise codec) b o.out o.cuts o.rest ∧
      (o.err = none → o.rest = []) ∧
      ∀ e, o.err = some e → (∃ message, e = .serialisationError message) ∧ o'.err = some none ∧
        o.rest ≠ [] ∧ unserialise codec o.rest = .error e o.rest) ∧
    ∀ e s, unserialise codec b = .error e s →
      s = b ∧ ∃ message, e = .serialisationError message := by
  constructor
  · intro fuel hfuel
    obtain ⟨o, ho⟩ := drain_terminates (consumes_unserialise codec) fuel b hfuel
    obtain ⟨o', ho'⟩ := drain_terminates consumes_isSerialisedTurn fuel b hfuel
    obtain ⟨hcuts, hrest, herr⟩ := (sameCuts codec).drain fuel b o o' ho ho'
    obtain ⟨hdecodes, hstop⟩ := drain_spec (clean_unserialise codec) fuel b o ho
    obtain ⟨-, hstop'⟩ := drain_spec clean_isSerialisedTurn fuel b o' ho'
    refine ⟨o, o', ho, ho', herr.symm, hcuts, hrest, hdecodes, ?_, ?_⟩
    · intro hnone
      rcases hstop with ⟨-, hempty⟩ | ⟨e, he, -, -⟩
      · exact hempty
      · rw [hnone] at he
        simp at he
    · intro e he
      rcases hstop with ⟨hnone, -⟩ | ⟨e', he', hne, hthrow⟩
      · rw [hnone] at he
        simp at he
      · obtain rfl : e' = e := by
          rw [he] at he'
          exact (Option.some.inj he').symm
        refine ⟨(unserialise_error hthrow).2, ?_, hne, hthrow⟩
        rcases hstop' with ⟨hnone', -⟩ | ⟨x, hx, -, hturn⟩
        · rw [herr.2 hnone'] at he
          simp at he
        · rw [hx, (isSerialisedTurn_error hturn).2]
  · intro e s h
    exact unserialise_error h

end Cuuid
