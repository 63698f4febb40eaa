/-
**Lists of ids in storage.**

A store keeps the wires of its ids, one after the other, and nothing in them says which codec wrote
them: the running codec decodes everything, and a deployment may change it at any time.  This module
says what happens to a whole list of ids when it is read by its own codec or by the other one, when
what was read is written again, and when the list has been cut off or appended to.

What an id is read as only depends on its layout and on the running codec (`Cuuid.rendered`).  A list
is written again as the same bytes when each of its ids is read as one that has the same layout, and
that fails for nothing but a stored node that the other codec takes for a reconstructed one.

Main definitions:

* `Cuuid.wireOf`, `Cuuid.rendered` — the wire of an id, and the id that the wire is read as;
* `Cuuid.readList`, `Cuuid.writeList`, `Cuuid.rewriteList` — reading a list to its end, writing one,
  and both;
* `Cuuid.UUID.Kept`, `Cuuid.UUID.Portable` — ids that are read back, and ids whose wire outlives the
  change of the codec.

Main results:

* `Cuuid.list_round_trip_iff` — **which lists are read back**;
* `Cuuid.list_portable_iff` — **which lists keep their bytes** through any sequence of codecs;
* `Cuuid.list_truncated` — **a list that was cut off** loses ids at its end and no others, and one
  that was appended to loses none.
-/

import Cuuid.RoundTrip
import Cuuid.Packed

set_option relaxedAutoImplicit false
set_option autoImplicit false

namespace Cuuid

open LengthFold Framing

/-! ### One id -/

/-- The codec whose version a UUID carries. -/
def UUID.codec? (u : UUID) : Option Codec :=
  if u.isRfc 6 then some .v6 else if u.isRfc 1 then some .v1 else none

theorem UUID.codec?_eq_some_iff (u : UUID) (codec : Codec) :
    u.codec? = some codec ↔ u.isRfc codec.version = true := by
  have hboth : ¬ (u.isRfc 1 = true ∧ u.isRfc 6 = true) := by
    rintro ⟨h1, h6⟩
    have hversion := ((u.isRfc_iff 1).1 h1).2
    rw [((u.isRfc_iff 6).1 h6).2] at hversion
    exact absurd hversion (by decide)
  unfold codec?
  cases codec with
  | v1 =>
      by_cases h6 : u.isRfc 6 = true
      · have h1 : ¬ u.isRfc 1 = true := fun h1 => hboth ⟨h1, h6⟩
        simp [h6, Codec.version, h1]
      · simp [h6, Codec.version]
  | v6 =>
      by_cases h6 : u.isRfc 6 = true
      · simp [h6, Codec.version]
      · by_cases h1 : u.isRfc 1 = true <;> simp [h6, Codec.version, h1]

theorem UUID.codec?_eq_none_iff (u : UUID) :
    u.codec? = none ↔ ∀ codec : Codec, u.isRfc codec.version = false := by
  rw [Option.eq_none_iff_forall_ne_some]
  simp only [ne_eq, codec?_eq_some_iff, Bool.not_eq_true]

/-- The wire of a UUID. -/
def wireOf (u : UUID) : Bytes :=
  match u.codec? with
  | some codec => (codec.layout u).wire
  | none => u.serialiseFull

/-- What the wire of a UUID is read as. -/
def rendered (codec : Codec) (u : UUID) : UUID :=
  match u.codec? with
  | some c => codec.ofLayout (c.layout u)
  | none => u

theorem serialise_eq_wireOf (u : UUID) : serialise u = .ok (wireOf u) := by
  cases hu : u.codec? with
  | some codec =>
      rw [serialise_of_isRfc ((u.codec?_eq_some_iff codec).1 hu), wireOf, hu]
  | none => rw [serialise_of_not_isRfc (u.codec?_eq_none_iff.1 hu), wireOf, hu]

theorem frames_wireOf (codec : Codec) (u : UUID) :
    Frames (unserialise codec) (wireOf u) (rendered codec u) := by
  cases hu : u.codec? with
  | some c =>
      rw [wireOf, rendered, hu]
      exact frames_wire codec _
  | none =>
      rw [wireOf, rendered, hu]
      exact frames_full codec u

/-! ### Reading back -/

/-- Which ids a codec reads back: those of neither version, and those of its own version whose
layout has room for their fields. -/
def UUID.Kept (codec : Codec) (u : UUID) : Prop :=
  ∀ c : Codec, u.isRfc c.version = true → c = codec ∧
    if (c.fields u).node = compactedNode c.expand (c.fields u) then WindowStart (c.fields u).time
    else (c.fields u).node &&& multicastBit ≠ 0 ∨ (c.fields u).time ≠ uuidTimeInitial

theorem rendered_eq_iff (codec : Codec) (u : UUID) : rendered codec u = u ↔ u.Kept codec := by
  cases hu : u.codec? with
  | none =>
      have hnone := u.codec?_eq_none_iff.1 hu
      rw [rendered, hu]
      refine iff_of_true rfl fun c hc => ?_
      rw [hnone c] at hc
      cases hc
  | some c =>
      have hc := (u.codec?_eq_some_iff c).1 hu
      have honly : ∀ d : Codec, u.isRfc d.version = true → d = c := by
        intro d hd
        rw [← u.codec?_eq_some_iff, hu, Option.some.injEq] at hd
        exact hd.symm
      rw [rendered, hu]
      dsimp only
      by_cases heq : c = codec
      · subst heq
        have hfields : c.ofLayout (c.layout u) = u ↔
            (layoutOf c.expand (c.fields u)).fields c.expand = c.fields u := by
          constructor
          · intro h
            rw [← Codec.layout, ← Codec.fields_ofLayout, h]
          · intro h
            exact c.ext_fields (c.isRfc_ofLayout _) hc (by rw [Codec.fields_ofLayout, Codec.layout, h])
        rw [hfields]
        have hrange := c.fields_inRange u
        by_cases hnode : (c.fields u).node = compactedNode c.expand (c.fields u)
        · rw [fields_layoutOf_compact_iff hrange hnode, ← windowStart_iff]
          constructor
          · intro h d hd
            obtain rfl := honly d hd
            exact ⟨rfl, by rwa [if_pos hnode]⟩
          · intro h
            have hkept := (h c hc).2
            rwa [if_pos hnode] at hkept
        · rw [fields_layoutOf_expanded_iff' hrange hnode]
          constructor
          · intro h d hd
            obtain rfl := honly d hd
            exact ⟨rfl, by rwa [if_neg hnode]⟩
          · intro h
            have hkept := (h c hc).2
            rwa [if_neg hnode] at hkept
      · -- the other codec gives its own version to what it reads
        refine iff_of_false ?_ fun h => heq (h c hc).1
        intro h
        have hother := codec.isRfc_ofLayout (c.layout u)
        rw [h] at hother
        exact heq (honly codec hother).symm

/-! ### The other codec -/

theorem rebase_unbase_rebase {t : ℕ} (ht : t < 2 ^ 60) : rebase (unbase (rebase t)) = rebase t := by
  by_cases h : t = initial
  · subst h
    decide
  · rw [(unbase_rebase_iff ht).2 h]

/-- Reading a stored node under any codec, and writing what was read: the layout stays, unless the
codec takes the node for a reconstructed one. -/
theorem layoutOf_fields_expanded_iff {expand : NodeExpander} {f : Fields} (hf : f.InRange)
    (hnode : f.node ≠ compactedNode expand f) (other : NodeExpander) :
    layoutOf other ((layoutOf expand f).fields other) = layoutOf expand f ↔
      f.node ≠ compactedNode other f := by
  obtain ⟨htime, hclock, hnode48⟩ := hf
  have hr := rebase_lt f.time.toNat
  have hu := unbase_lt (rebase f.time.toNat)
  obtain ⟨t, hread, hrebase, hmulticast⟩ : ∃ t : UInt64,
      (layoutOf expand f).fields other = ⟨t, f.clock, f.node⟩ ∧
      rebase t.toNat = rebase f.time.toNat ∧ (f.node &&& multicastBit ≠ 0 → t = f.time) := by
    have hclock' : UInt16.ofNat (f.clock.toNat % 2 ^ 14) = f.clock := by
      rw [Nat.mod_eq_of_lt hclock, UInt16.ofNat_toNat]
    have hnode' : UInt64.ofNat (f.node.toNat % 2 ^ 48) = f.node := by
      rw [Nat.mod_eq_of_lt hnode48, UInt64.ofNat_toNat]
    rw [layoutOf, if_neg hnode]
    simp only [Layout.fields, BitVec.toNat_ofNat, hclock', hnode']
    by_cases hbit : f.node &&& multicastBit = 0
    · refine ⟨UInt64.ofNat (unbase (rebase f.time.toNat)), ?_, ?_, fun h => absurd hbit h⟩
      · simp only [hbit, if_true, Nat.mod_eq_of_lt hr]
      · rw [UInt64.toNat_ofNat', Nat.mod_eq_of_lt (by omega), rebase_unbase_rebase htime]
    · refine ⟨f.time, ?_, rfl, fun _ => rfl⟩
      simp only [hbit, if_false, Nat.mod_eq_of_lt htime, UInt64.ofNat_toNat]
  -- the window and the tick of the time are what they were, so the same node is reconstructed
  have hcompacted : compactedNode other ⟨t, f.clock, f.node⟩ = compactedNode other f := by
    simp only [compactedNode_eq, windowOf, tickOf, hrebase]
  rw [hread]
  by_cases h : f.node = compactedNode other f
  · refine iff_of_false ?_ (not_not.2 h)
    rw [layoutOf, if_pos (h.trans hcompacted.symm), layoutOf, if_neg hnode]
    exact fun heq => Layout.noConfusion heq
  · refine iff_of_true ?_ h
    rw [layoutOf, if_neg (fun heq => h (heq.trans hcompacted)), layoutOf, if_neg hnode]
    by_cases hbit : f.node &&& multicastBit = 0
    · simp only [hbit, if_true, hrebase]
    · simp only [hbit, if_false, hmulticast hbit]

/-- Ids whose wire outlives the change of the codec: no codec takes a stored node for one that it
would reconstruct. -/
def UUID.Portable (u : UUID) : Prop :=
  ∀ c : Codec, u.isRfc c.version = true →
    (c.fields u).node = compactedNode c.expand (c.fields u) ∨
      ∀ d : Codec, (c.fields u).node ≠ compactedNode d.expand (c.fields u)

/-- The wire of what an id of one codec is read as under another. -/
theorem wireOf_ofLayout (codec : Codec) (L : Layout) :
    wireOf (codec.ofLayout L) = (layoutOf codec.expand (L.fields codec.expand)).wire := by
  have hcodec := ((codec.ofLayout L).codec?_eq_some_iff codec).2 (codec.isRfc_ofLayout L)
  rw [wireOf, hcodec]
  dsimp only
  rw [Codec.layout, Codec.fields_ofLayout]

/-- Read under a codec and written again, an id of either version keeps its wire, unless the codec
takes a stored node for a reconstructed one. -/
theorem wireOf_rendered_eq_iff (codec : Codec) (u : UUID) :
    wireOf (rendered codec u) = wireOf u ↔ ∀ c : Codec, u.isRfc c.version = true →
      (c.fields u).node = compactedNode c.expand (c.fields u) ∨
        (c.fields u).node ≠ compactedNode codec.expand (c.fields u) := by
  cases hu : u.codec? with
  | none =>
      have hnone := u.codec?_eq_none_iff.1 hu
      refine iff_of_true (by rw [rendered, hu]) fun c hc => ?_
      rw [hnone c] at hc
      cases hc
  | some c =>
      have hc := (u.codec?_eq_some_iff c).1 hu
      have hr : rendered codec u = codec.ofLayout (c.layout u) := by rw [rendered, hu]
      have hw : wireOf u = (c.layout u).wire := by rw [wireOf, hu]
      have honly : (∀ d : Codec, u.isRfc d.version = true →
          (d.fields u).node = compactedNode d.expand (d.fields u) ∨
            (d.fields u).node ≠ compactedNode codec.expand (d.fields u)) ↔
          ((c.fields u).node = compactedNode c.expand (c.fields u) ∨
            (c.fields u).node ≠ compactedNode codec.expand (c.fields u)) := by
        refine ⟨fun h => h c hc, fun h d hd => ?_⟩
        rw [← u.codec?_eq_some_iff, hu, Option.some.injEq] at hd
        exact hd ▸ h
      rw [hr, hw, wireOf_ofLayout, Layout.wire_injective.eq_iff, honly]
      by_cases hnode : (c.fields u).node = compactedNode c.expand (c.fields u)
      · -- a compact layout is the same for every codec
        have hL : c.layout u = crushLayout (c.fields u).time.toNat (c.fields u).clock.toNat
            (c.fields u).node.toNat := if_pos hnode
        refine iff_of_true ?_ (Or.inl hnode)
        rw [hL, layoutOf_fields_crush]
      · rw [Codec.layout, layoutOf_fields_expanded_iff (c.fields_inRange u) hnode,
          or_iff_right hnode]

theorem wireOf_rendered_iff (u : UUID) :
    (∀ codec, wireOf (rendered codec u) = wireOf u) ↔ u.Portable := by
  simp only [wireOf_rendered_eq_iff, UUID.Portable]
  constructor
  · intro h c hc
    rw [← forall_or_left]
    exact fun codec => h codec c hc
  · intro h codec c hc
    exact (h c hc).imp_right fun hd => hd codec

/-! ### Lists -/

/-- Reads a list to its end. -/
def readList (codec : Codec) (b : Bytes) : Option (List UUID) :=
  match unserialiseList codec (b.length + 1) b with
  | some ⟨us, _, _, none⟩ => some us
  | _ => none

/-- Writes a list, one wire after the other. -/
def writeList (us : List UUID) : Except Fault Bytes := do
  let ws ← us.mapM serialise
  return ws.flatten

/-- Reads a list and writes what was read. -/
def rewriteList (codec : Codec) (b : Bytes) : Option Bytes := do
  let us ← readList codec b
  (writeList us).toOption

theorem mapM_serialise (us : List UUID) : us.mapM serialise = .ok (us.map wireOf) := by
  induction us with
  | nil => rfl
  | cons u us ih =>
      rw [List.mapM_cons, serialise_eq_wireOf, ih]
      rfl

theorem writeList_eq (us : List UUID) : writeList us = .ok (us.map wireOf).flatten := by
  rw [writeList, mapM_serialise]
  rfl

/-- The wires of a list, with what each is read as. -/
theorem map_fst_frames (codec : Codec) (us : List UUID) :
    (us.map fun u => (wireOf u, rendered codec u)).map Prod.fst = us.map wireOf ∧
      (us.map fun u => (wireOf u, rendered codec u)).map Prod.snd = us.map (rendered codec) ∧
      ∀ p ∈ us.map fun u => (wireOf u, rendered codec u), Frames (unserialise codec) p.1 p.2 := by
  refine ⟨by rw [List.map_map]; rfl, by rw [List.map_map]; rfl, ?_⟩
  intro p hp
  obtain ⟨u, -, rfl⟩ := List.mem_map.1 hp
  exact frames_wireOf codec u

/-- **A list is read element by element.** -/
theorem readList_flatten (codec : Codec) (us : List UUID) :
    readList codec (us.map wireOf).flatten = some (us.map (rendered codec)) := by
  obtain ⟨hfst, hsnd, hframes⟩ := map_fst_frames codec us
  obtain ⟨cuts, hcuts⟩ := drain_flatten _ hframes _ (Nat.lt_succ_self _)
  rw [hfst, hsnd] at hcuts
  have hread := drain_of_length_lt (consumes_unserialise codec) hcuts (Nat.lt_succ_self _)
  rw [readList, unserialiseList, hread]

theorem rewriteList_flatten (codec : Codec) (us : List UUID) :
    rewriteList codec (us.map wireOf).flatten =
      some ((us.map (rendered codec)).map wireOf).flatten := by
  rw [rewriteList, readList_flatten, Option.bind_eq_bind, Option.bind_some, writeList_eq]
  rfl

/-- The bytes of a list tell its wires. -/
theorem flatten_wireOf_inj {us vs : List UUID}
    (h : (us.map wireOf).flatten = (vs.map wireOf).flatten) : us.map wireOf = vs.map wireOf := by
  have hframes : ∀ us : List UUID, ∀ w ∈ us.map wireOf, ∃ v, Frames (unserialise .v1) w v := by
    intro us w hw
    obtain ⟨u, -, rfl⟩ := List.mem_map.1 hw
    exact ⟨_, frames_wireOf .v1 u⟩
  exact flatten_inj (hframes us) (hframes vs) h

/-- **Which lists are read back.**  A list of any UUIDs can be written, and a codec reads back the
list that was written exactly when none of its ids carries the version of the other codec, those
with a reconstructed node have no time or are at the start of a window after the first, and the
others are not at the start of 2016 or have a multicast node. -/
theorem list_round_trip_iff (codec : Codec) (us : List UUID) :
    ∃ b, writeList us = .ok b ∧ (readList codec b = some us ↔ ∀ u ∈ us, u.Kept codec) := by
  refine ⟨_, writeList_eq us, ?_⟩
  rw [readList_flatten, Option.some.injEq]
  simp only [← rendered_eq_iff]
  constructor
  · intro h u hu
    exact List.map_inj_left.1 (h.trans (List.map_id us).symm) u hu
  · intro h
    calc us.map (rendered codec) = us.map id := List.map_congr_left h
      _ = us := List.map_id us

/-- A list keeps its bytes through every sequence of codecs if it does through each codec. -/
theorem foldlM_rewriteList_iff (b : Bytes) :
    (∀ modes : List Codec, modes.foldlM (fun b codec => rewriteList codec b) b = some b) ↔
      ∀ codec, rewriteList codec b = some b := by
  constructor
  · intro h codec
    have hone := h [codec]
    simpa using hone
  · intro h modes
    induction modes with
    | nil => rfl
    | cons codec modes ih =>
        rw [List.foldlM_cons, h codec]
        exact ih

/-- A reconstructed node, or a node that is not multicast, is portable. -/
theorem portable_of_node {u : UUID} (h : ∀ c : Codec, u.isRfc c.version = true →
    (c.fields u).node = compactedNode c.expand (c.fields u) ∨
      (c.fields u).node &&& multicastBit = 0) : u.Portable := by
  intro c hc
  rcases h c hc with hnode | hbit
  · exact Or.inl hnode
  · exact Or.inr fun d => ne_compactedNode hbit d.expand

theorem portable_ofLayout_crushLayout (codec : Codec) (time clock salt : ℕ) :
    (codec.ofLayout (crushLayout time clock salt)).Portable := by
  rw [← wireOf_rendered_iff]
  intro d
  have hcodec := ((codec.ofLayout (crushLayout time clock salt)).codec?_eq_some_iff codec).2
    (codec.isRfc_ofLayout _)
  rw [rendered, hcodec]
  dsimp only
  rw [Codec.layout_ofLayout_crushLayout, wireOf_ofLayout, wireOf_ofLayout, layoutOf_fields_crush,
    layoutOf_fields_crush]

/-- **Which lists keep their bytes.**  However often the running codec is changed, reading a list
and writing what was read gives the same bytes, exactly when every id of the list is portable.
Compacted ids of either codec are, and so are ids whose node is not multicast and UUIDs of other
versions. -/
theorem list_portable_iff :
    (∀ us : List UUID, ∃ b, writeList us = .ok b ∧
      ((∀ modes : List Codec, modes.foldlM (fun b codec => rewriteList codec b) b = some b) ↔
        ∀ u ∈ us, u.Portable)) ∧
    (∀ (localNodeHash : Option UInt64) (u : UUID), u.isRfc 1 = true →
      (u.compactCrush localNodeHash).Portable) ∧
    (∀ (localNodeHash : Option UInt64) (f : Fields), (V6.make localNodeHash f).Portable) ∧
    ∀ u : UUID, (∀ c : Codec, u.isRfc c.version = true →
      (c.fields u).node &&& multicastBit = 0) → u.Portable := by
  refine ⟨?_, ?_, ?_, ?_⟩
  · intro us
    refine ⟨_, writeList_eq us, ?_⟩
    rw [foldlM_rewriteList_iff]
    simp only [rewriteList_flatten, Option.some.injEq, ← wireOf_rendered_iff]
    constructor
    · intro h u hu codec
      have hmap := flatten_wireOf_inj (h codec)
      rw [List.map_map] at hmap
      exact List.map_inj_left.1 hmap u hu
    · intro h codec
      rw [List.map_map]
      exact congrArg List.flatten (List.map_congr_left fun u hu => h u hu codec)
  · intro localNodeHash u hu
    rw [UUID.compactCrush_eq localNodeHash hu]
    exact portable_ofLayout_crushLayout .v1 _ _ _
  · intro localNodeHash f
    rw [V6.make_eq]
    exact portable_ofLayout_crushLayout .v6 _ _ _
  · intro u hu
    exact portable_of_node fun c hc => Or.inr (hu c hc)

/-! ### Cutting off and appending -/

/-- What follows an element does not change how it is read. -/
theorem extends_unserialise (codec : Codec) : Extends (unserialise codec) := by
  intro bs u r t h
  have hrest := elementRest_of_ok h
  match bs with
  | [] => simp [elementRest] at hrest
  | [b] => simp [elementRest_singleton] at hrest
  | b :: c :: l =>
      rw [List.cons_append, List.cons_append]
      by_cases hb : b = 1
      · subst hb
        rw [elementRest, if_pos rfl] at hrest
        rcases Nat.lt_or_ge (c :: l).length 16 with hlt | hge
        · rw [if_neg (by omega)] at hrest
          cases hrest
        · have hlong : 16 ≤ (c :: l ++ t).length := by
            rw [List.length_append]
            omega
          obtain ⟨v, hv, hread⟩ := unserialiseFull_of_le hge
          obtain ⟨v', hv', hread'⟩ := unserialiseFull_of_le hlong
          rw [unserialise_one, hread] at h
          injection h with hvu hr
          have hvv : v' = v := by
            cases v
            cases v'
            rw [List.take_append_of_le_length hge, ← hv] at hv'
            exact congrArg UUID.mk (Vector.toList_inj.1 hv')
          rw [unserialise_one, ← List.cons_append, hread', hvv, hvu,
            List.drop_append_of_le_length hge, hr]
      · rw [unserialise_condensed codec hb] at h
        cases hdec : vlTable.decode (b :: c :: l) with
        | none =>
            rw [hdec] at h
            cases h
        | some p =>
            obtain ⟨P, r'⟩ := p
            rw [hdec] at h
            injection h with hu hr
            subst hr
            obtain ⟨s, hs, hP, hwire⟩ := Table.decode_eq_some_iff.1 hdec
            have hlong : vlTable.decode (b :: c :: (l ++ t)) = some (P, r' ++ t) := by
              have happend : b :: c :: (l ++ t) = s.wire P ++ (r' ++ t) := by
                rw [← List.append_assoc, ← hwire]
                rfl
              rw [happend]
              exact Table.decode_wire hs hP _
            rw [unserialise_condensed codec hb, hlong, ← hu]

/-- **A list that was cut off** anywhere, or appended to.  Under either codec, what is left of the
wires of any UUIDs decodes to the first of them, and the list decoder stops at what is left of a wire,
if anything is.  Bytes that are appended to a list that decodes are decoded after it. -/
theorem list_truncated (codec : Codec) :
    (∀ us : List UUID, ∃ ws vs, us.mapM serialise = .ok ws ∧
      ws.mapM (unserialiseView codec) = .ok vs ∧ ∀ n fuel, (ws.flatten.take n).length < fuel →
        ∃ k part cuts err, ws.flatten.take n = (ws.take k).flatten ++ part ∧
          (∀ w ∈ ws[k]?, part <+: w ∧ part ≠ w) ∧ (ws.length ≤ k → part = []) ∧
          unserialiseList codec fuel (ws.flatten.take n) = some ⟨vs.take k, cuts, part, err⟩ ∧
          (err = none ↔ part = [])) ∧
    ∀ (a b : Bytes) (us : List UUID), readList codec a = some us →
      readList codec (a ++ b) = (readList codec b).map (us ++ ·) := by
  constructor
  · intro us
    obtain ⟨ps, hws, hvs, hframes⟩ := exists_wires codec us
    refine ⟨_, _, hws, hvs, fun n fuel hfuel => ?_⟩
    obtain ⟨qs, rs, part, cuts, err, rfl, htake, hpart, hnil, hdrain, herr⟩ :=
      drain_truncated (extends_unserialise codec) (clean_unserialise codec) ps hframes _
        (List.take_prefix n _) fuel hfuel
    refine ⟨qs.length, part, cuts, err, ?_, ?_, ?_, ?_, herr⟩
    · rw [htake, List.map_append, List.take_left' (by simp)]
    · intro w hw
      rw [List.map_append, List.getElem?_append_right (by simp)] at hw
      cases rs with
      | nil => simp at hw
      | cons p rs =>
          have hw' : p.1 = w := by simpa using hw
          rw [← hw']
          exact hpart p rfl
    · intro hlen
      refine hnil (List.eq_nil_of_length_eq_zero ?_)
      simp only [List.map_append, List.length_append, List.length_map] at hlen
      omega
    · rw [unserialiseList, hdrain, List.map_append, List.take_left' (by simp)]
  · intro a b us ha
    obtain ⟨o, ho⟩ := drain_terminates (consumes_unserialise codec) (a.length + 1) a (by omega)
    obtain ⟨p, hp⟩ := drain_terminates (consumes_unserialise codec) (b.length + 1) b (by omega)
    obtain ⟨-, hstop⟩ := drain_spec (clean_unserialise codec) _ _ _ ho
    have herr : o.err = none ∧ o.out = us := by
      rw [readList, unserialiseList, ho] at ha
      obtain ⟨out, cuts, rest, err⟩ := o
      cases err with
      | none => exact ⟨rfl, Option.some.inj ha⟩
      | some e => cases ha
    have hempty : o.rest = [] := by
      rcases hstop with ⟨-, hempty⟩ | ⟨e, he, -⟩
      · exact hempty
      · rw [herr.1] at he
        cases he
    obtain ⟨cuts, hab⟩ := drain_append (extends_unserialise codec) ho hempty herr.1 hp
    have hread := drain_of_length_lt (consumes_unserialise codec) hab
      (Nat.lt_succ_self (a ++ b).length)
    rw [readList, readList, unserialiseList, unserialiseList, hread, hp, herr.2]
    obtain ⟨out, cuts', rest, err⟩ := p
    cases err <;> rfl

end Cuuid
