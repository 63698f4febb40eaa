/-
**Writing again what was read.**

A store may hold bytes that no encoder of this version wrote: wires that are longer than necessary,
full forms of ids that are condensed today, ids of the other codec.  Reading such a list and writing
what was read gives other bytes, and these may change again.  This module shows that they stop
changing: after two passes under one codec for any bytes that can be read, and after one pass unless
the codec takes a node that an id of the other version has stored for a reconstructed one.

Main results:

* `Cuuid.rewrite_settles` — **two passes are enough** for any stored bytes, and when one is;
* `Cuuid.rewrite_fixed_iff` — **which bytes do not change**: the lists of ids that are not of the
  other codec's version.
-/

import Cuuid.Migration

set_option relaxedAutoImplicit false
set_option autoImplicit false

namespace Cuuid

/-- Whether an id is of the version of a codec, or of no version that is condensed. -/
def UUID.Native (codec : Codec) (u : UUID) : Prop :=
  ∀ c : Codec, u.isRfc c.version = true → c = codec

/-- What is read under a codec is native to it. -/
theorem native_rendered (codec : Codec) (u : UUID) : (rendered codec u).Native codec := by
  cases hu : u.codec? with
  | none =>
      rw [rendered, hu]
      intro c hc
      rw [u.codec?_eq_none_iff.1 hu c] at hc
      cases hc
  | some c =>
      rw [rendered, hu]
      intro d hd
      have hcodec := ((codec.ofLayout (c.layout u)).codec?_eq_some_iff codec).2
        (codec.isRfc_ofLayout _)
      rw [← UUID.codec?_eq_some_iff, hcodec, Option.some.injEq] at hd
      exact hd.symm

/-- A native id keeps its wire. -/
theorem wireOf_rendered_of_native {codec : Codec} {u : UUID} (hu : u.Native codec) :
    wireOf (rendered codec u) = wireOf u := by
  rw [wireOf_rendered_eq_iff]
  intro c hc
  obtain rfl := hu c hc
  exact em _

/-- A list of native ids keeps its bytes. -/
theorem rewriteList_of_native {codec : Codec} {us : List UUID} (h : ∀ u ∈ us, u.Native codec) :
    rewriteList codec (us.map wireOf).flatten = some (us.map wireOf).flatten := by
  rw [rewriteList_flatten, List.map_map]
  exact congrArg (fun ws => some (List.flatten ws))
    (List.map_congr_left fun u hu => wireOf_rendered_of_native (h u hu))

/-- Reading and writing a list that can be read. -/
theorem rewriteList_of_readList {codec : Codec} {b : Bytes} {us : List UUID}
    (h : readList codec b = some us) : rewriteList codec b = some (us.map wireOf).flatten := by
  rw [rewriteList, h, Option.bind_eq_bind, Option.bind_some, writeList_eq]
  rfl

/-- **Two passes are enough.**  Any bytes that a codec reads as a list become bytes that it reads
and writes again unchanged, when they have been read and written twice.  The second pass changes
nothing exactly when, for every id that was read first, its own version has its node reconstructed or
the running codec keeps it stored. -/
theorem rewrite_settles {codec : Codec} {b : Bytes} {us : List UUID}
    (h : readList codec b = some us) : ∃ b' b'', rewriteList codec b = some b' ∧
      rewriteList codec b' = some b'' ∧ rewriteList codec b'' = some b'' ∧
      (b'' = b' ↔ ∀ u ∈ us, ∀ c : Codec, u.isRfc c.version = true →
        (c.fields u).node = compactedNode c.expand (c.fields u) ∨
          (c.fields u).node ≠ compactedNode codec.expand (c.fields u)) := by
  refine ⟨_, _, rewriteList_of_readList h, rewriteList_flatten codec us,
    rewriteList_of_native ?_, ?_⟩
  · intro v hv
    obtain ⟨u, -, rfl⟩ := List.mem_map.1 hv
    exact native_rendered codec u
  · simp only [← wireOf_rendered_eq_iff]
    constructor
    · intro hsame u hu
      have hmap := flatten_wireOf_inj hsame
      rw [List.map_map] at hmap
      exact List.map_inj_left.1 hmap u hu
    · intro hkeep
      rw [List.map_map]
      exact congrArg List.flatten (List.map_congr_left hkeep)

/-- A wire of nine bytes for what five bytes can hold, and the full form of an id of version 1. -/
theorem rewrite_settles_overlong : ∃ us b' b'',
    readList .v6 ([0xa0, 0, 0, 0, 0, 1, 0x40, 0, 1] ++
      UUID.serialiseFull (UUID.ofCondensed ⟨uuidTimeInitial + 7, 5, 0x1234⟩)) = some us ∧
    rewriteList .v6 ([0xa0, 0, 0, 0, 0, 1, 0x40, 0, 1] ++
      UUID.serialiseFull (UUID.ofCondensed ⟨uuidTimeInitial + 7, 5, 0x1234⟩)) = some b' ∧
    rewriteList .v6 b' = some b'' ∧ rewriteList .v6 b'' = some b'' := by
  have hsome : (readList .v6 ([0xa0, 0, 0, 0, 0, 1, 0x40, 0, 1] ++
      UUID.serialiseFull (UUID.ofCondensed ⟨uuidTimeInitial + 7, 5, 0x1234⟩))).isSome = true := by
    decide +kernel
  obtain ⟨us, hus⟩ := Option.isSome_iff_exists.1 hsome
  obtain ⟨b', b'', hb', hb'', hfix, -⟩ := rewrite_settles hus
  exact ⟨us, b', b'', hus, hb', hb'', hfix⟩

/-- **Which bytes do not change.**  Reading and writing under a codec gives the same bytes exactly
for what the codec writes for a list of ids that do not carry the other codec's version. -/
theorem rewrite_fixed_iff (codec : Codec) (b : Bytes) :
    rewriteList codec b = some b ↔ ∃ us, (∀ u ∈ us, u.Native codec) ∧ writeList us = .ok b := by
  constructor
  · intro h
    cases hread : readList codec b with
    | none =>
        rw [rewriteList, hread] at h
        cases h
    | some us =>
        rw [rewriteList_of_readList hread, Option.some.injEq] at h
        -- the bytes are the wires of the ids, so the ids are what their own wires are read as
        have hus := readList_flatten codec us
        rw [h, hread, Option.some.injEq] at hus
        refine ⟨us, ?_, by rw [writeList_eq, h]⟩
        intro u hu
        rw [hus] at hu
        obtain ⟨v, -, rfl⟩ := List.mem_map.1 hu
        exact native_rendered codec v
  · rintro ⟨us, hus, hb⟩
    rw [writeList_eq, Except.ok.injEq] at hb
    rw [← hb]
    exact rewriteList_of_native hus

end Cuuid
