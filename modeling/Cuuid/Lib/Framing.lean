/-
**Packed lists of self-delimiting elements.**

A decoder reads one element off the front of its input and leaves the rest.  Elements packed back
to back are read by running the decoder until the input is used up.  This module is about that
loop, for any decoder: what it outputs, where it stops when an element does not decode, and when
two decoders stop in the same places.

A decoder is a state-and-exception computation whose state is the input that remains, so that the
position of the reader is visible after a failure as well.

Main definitions:

* `Framing.Decoder`, `Framing.drain` — a decoder, and the loop that runs it to the end;
* `Framing.Decodes` — a list of elements decoded one after the other;
* `Framing.Consumes`, `Framing.Clean`, `Framing.Frames` — a decoder that always moves forward,
  that leaves its input alone when it fails, and that reads an element off a given wire;
* `Framing.Extends` — a decoder whose answer is not changed by what is appended to its input;
* `Framing.SameCuts` — two decoders that accept the same inputs and leave the same rest.

Main results:

* `Framing.drain_terminates`, `Framing.drain_mono` — **the loop terminates**, and its outcome does
  not depend on how much fuel is left over;
* `Framing.drain_spec` — what the loop did, and where it stopped;
* `Framing.drain_flatten` — a concatenation of wires decodes to the elements, in order;
* `Framing.Frames.eq_of_prefix` — no wire is a proper prefix of another;
* `Framing.flatten_inj` — **a concatenation of wires can be cut in one way** only;
* `Framing.drain_append` — input that is appended is decoded after the elements before it;
* `Framing.drain_truncated` — **what is cut off a concatenation of wires** only costs elements at
  its end;
* `Framing.SameCuts.drain` — decoders with the same cuts stop in the same place.
-/

import Mathlib.Data.List.Basic

set_option relaxedAutoImplicit false
set_option autoImplicit false

namespace Framing

variable {β ε ε' α α' : Type}

/-- A decoder of one element.  The state is the input that remains. -/
abbrev Decoder (β ε α : Type) := EStateM ε (List β) α

/-- What the loop left behind. -/
structure Outcome (β ε α : Type) where
  /-- The elements, in order. -/
  out : List α
  /-- The input that remained after each element. -/
  cuts : List (List β)
  /-- The input that remained when the loop stopped. -/
  rest : List β
  /-- The failure that stopped the loop, if one did. -/
  err : Option ε

/-- Runs a decoder until its input is used up.  The fuel bounds the number of turns, and `none`
means that it ran out. -/
def drain (d : Decoder β ε α) : ℕ → List β → Option (Outcome β ε α)
  | 0, _ => none
  | _ + 1, [] => some ⟨[], [], [], none⟩
  | n + 1, b :: l =>
      match d (b :: l) with
      | .error e s => some ⟨[], [], s, some e⟩
      | .ok a s =>
          (drain d n s).map fun o => ⟨a :: o.out, s :: o.cuts, o.rest, o.err⟩

/-- `Decodes d s out cuts t`: decoding one element after the other leads from `s` to `t`, giving
the elements `out` and leaving the inputs `cuts` in between. -/
inductive Decodes (d : Decoder β ε α) : List β → List α → List (List β) → List β → Prop
  | nil (s : List β) : Decodes d s [] [] s
  | cons {s s' t : List β} {a : α} {as : List α} {cuts : List (List β)} (hs : s ≠ [])
      (h : d s = .ok a s') (ht : Decodes d s' as cuts t) :
      Decodes d s (a :: as) (s' :: cuts) t

/-- The decoder always moves forward. -/
def Consumes (d : Decoder β ε α) : Prop :=
  ∀ (s : List β) (a : α) (s' : List β), d s = .ok a s' → s'.length < s.length

/-- The decoder leaves its input alone when it fails. -/
def Clean (d : Decoder β ε α) : Prop :=
  ∀ (s : List β) (e : ε) (s' : List β), d s = .error e s' → s' = s

/-- The decoder reads `a` off the wire `w`, whatever follows it. -/
def Frames (d : Decoder β ε α) (w : List β) (a : α) : Prop :=
  w ≠ [] ∧ ∀ r : List β, d (w ++ r) = .ok a r

/-! ### Termination -/

/-- **The loop terminates**: as many turns as there are bytes, and one more, are enough. -/
theorem drain_terminates {d : Decoder β ε α} (hd : Consumes d) :
    ∀ (n : ℕ) (s : List β), s.length < n → ∃ o, drain d n s = some o := by
  intro n
  induction n with
  | zero => intro s hs; omega
  | succ n ih =>
      intro s hs
      cases s with
      | nil => exact ⟨_, rfl⟩
      | cons b l =>
          cases hdec : d (b :: l) with
          | error e s' => exact ⟨_, by simp only [drain, hdec]; rfl⟩
          | ok a s' =>
              have hlt := hd _ _ _ hdec
              obtain ⟨o, ho⟩ := ih s' (by omega)
              exact ⟨_, by simp only [drain, hdec, ho]; rfl⟩

/-- More fuel does not change the outcome. -/
theorem drain_mono {d : Decoder β ε α} :
    ∀ (n m : ℕ) (s : List β) (o : Outcome β ε α), n ≤ m → drain d n s = some o →
      drain d m s = some o := by
  intro n
  induction n with
  | zero => intro m s o _ h; simp [drain] at h
  | succ n ih =>
      intro m s o hnm h
      obtain ⟨m, rfl⟩ : ∃ k, m = k + 1 := ⟨m - 1, by omega⟩
      cases s with
      | nil => simpa [drain] using h
      | cons b l =>
          cases hdec : d (b :: l) with
          | error e s' =>
              simp only [drain, hdec] at h ⊢
              exact h
          | ok a s' =>
              simp only [drain, hdec, Option.map_eq_some_iff] at h ⊢
              obtain ⟨o', ho', rfl⟩ := h
              exact ⟨o', ih m s' o' (by omega) ho', rfl⟩

/-- With enough fuel the loop gives the one outcome that any fuel can give. -/
theorem drain_of_length_lt {d : Decoder β ε α} (hd : Consumes d) {n m : ℕ} {s : List β}
    {o : Outcome β ε α} (h : drain d n s = some o) (hm : s.length < m) : drain d m s = some o := by
  obtain ⟨o', ho'⟩ := drain_terminates hd m s hm
  have h₁ := drain_mono n (max n m) s o (Nat.le_max_left _ _) h
  have h₂ := drain_mono m (max n m) s o' (Nat.le_max_right _ _) ho'
  rw [ho', ← h₂, h₁]

/-! ### What the loop did -/

/-- The loop decoded elements until the input was used up, or until one did not decode. -/
theorem drain_spec {d : Decoder β ε α} (hclean : Clean d) :
    ∀ (n : ℕ) (s : List β) (o : Outcome β ε α), drain d n s = some o →
      Decodes d s o.out o.cuts o.rest ∧
        (o.err = none ∧ o.rest = [] ∨
          ∃ e, o.err = some e ∧ o.rest ≠ [] ∧ d o.rest = .error e o.rest) := by
  intro n
  induction n with
  | zero => intro s o h; simp [drain] at h
  | succ n ih =>
      intro s o h
      cases s with
      | nil =>
          obtain rfl := by simpa [drain] using h.symm
          exact ⟨Decodes.nil [], Or.inl ⟨rfl, rfl⟩⟩
      | cons b l =>
          cases hdec : d (b :: l) with
          | error e s' =>
              obtain rfl := by simpa [drain, hdec] using h.symm
              obtain rfl := hclean _ _ _ hdec
              exact ⟨Decodes.nil _, Or.inr ⟨e, rfl, by simp, hdec⟩⟩
          | ok a s' =>
              simp only [drain, hdec, Option.map_eq_some_iff] at h
              obtain ⟨o', ho', rfl⟩ := h
              obtain ⟨hrun, hstop⟩ := ih s' o' ho'
              exact ⟨Decodes.cons (by simp) hdec hrun, hstop⟩

/-- A concatenation of wires decodes to the elements, in order, and is used up. -/
theorem drain_flatten {d : Decoder β ε α} :
    ∀ (ps : List (List β × α)), (∀ p ∈ ps, Frames d p.1 p.2) → ∀ n, ps.length < n →
      ∃ cuts, drain d n (ps.map Prod.fst).flatten = some ⟨ps.map Prod.snd, cuts, [], none⟩ := by
  intro ps
  induction ps with
  | nil =>
      intro _ n hn
      obtain ⟨n, rfl⟩ : ∃ k, n = k + 1 := ⟨n - 1, by omega⟩
      exact ⟨[], rfl⟩
  | cons p ps ih =>
      intro hps n hn
      rw [List.length_cons] at hn
      obtain ⟨n, rfl⟩ : ∃ k, n = k + 1 := ⟨n - 1, by omega⟩
      obtain ⟨hne, hframe⟩ := hps p (List.mem_cons_self ..)
      obtain ⟨cuts, hcuts⟩ := ih (fun q hq => hps q (List.mem_cons_of_mem _ hq)) n (by omega)
      obtain ⟨b, w, hw⟩ := List.exists_cons_of_ne_nil hne
      have hdec := hframe (ps.map Prod.fst).flatten
      rw [hw, List.cons_append] at hdec
      refine ⟨(ps.map Prod.fst).flatten :: cuts, ?_⟩
      rw [List.map_cons, List.flatten_cons, hw, List.cons_append]
      simp only [drain, hdec, hcuts, Option.map_some, List.map_cons]

/-- A wire on its own is used up. -/
theorem Frames.read_whole {d : Decoder β ε α} {w : List β} {a : α} (h : Frames d w a) :
    d w = .ok a [] := by
  have hread := h.2 []
  rwa [List.append_nil] at hread

/-- A wire that starts with another wire is that wire: **no wire is a proper prefix of another**. -/
theorem Frames.eq_of_prefix {d : Decoder β ε α} {w w' : List β} {a a' : α} (h : Frames d w a)
    (h' : Frames d w' a') (hpre : w <+: w') : w = w' := by
  obtain ⟨t, rfl⟩ := hpre
  have h₁ := h.2 t
  have h₂ := h'.read_whole
  rw [h₁] at h₂
  injection h₂ with _ ht
  rw [ht, List.append_nil]

/-- A concatenation of wires can be cut into wires in one way. -/
theorem flatten_inj {d : Decoder β ε α} : ∀ {ws ws' : List (List β)},
    (∀ w ∈ ws, ∃ a, Frames d w a) → (∀ w ∈ ws', ∃ a, Frames d w a) → ws.flatten = ws'.flatten →
      ws = ws' := by
  intro ws
  induction ws with
  | nil =>
      intro ws' _ hws' heq
      cases ws' with
      | nil => rfl
      | cons w' ws' =>
          obtain ⟨a, hne, -⟩ := hws' w' (List.mem_cons_self ..)
          rw [List.flatten_nil, List.flatten_cons, eq_comm, List.append_eq_nil_iff] at heq
          exact absurd heq.1 hne
  | cons w ws ih =>
      intro ws' hws hws' heq
      obtain ⟨a, hframe⟩ := hws w (List.mem_cons_self ..)
      cases ws' with
      | nil =>
          rw [List.flatten_nil, List.flatten_cons, List.append_eq_nil_iff] at heq
          exact absurd heq.1 hframe.1
      | cons w' ws' =>
          obtain ⟨a', hframe'⟩ := hws' w' (List.mem_cons_self ..)
          rw [List.flatten_cons, List.flatten_cons] at heq
          -- the shorter of the two first wires is a prefix of the other
          have hw : w = w' := by
            rcases List.prefix_or_prefix_of_prefix (List.prefix_append w ws.flatten)
              (heq ▸ List.prefix_append w' ws'.flatten) with hpre | hpre
            · exact hframe.eq_of_prefix hframe' hpre
            · exact (hframe'.eq_of_prefix hframe hpre).symm
          subst hw
          rw [List.append_cancel_left_eq] at heq
          rw [ih (fun v hv => hws v (List.mem_cons_of_mem _ hv))
            (fun v hv => hws' v (List.mem_cons_of_mem _ hv)) heq]

/-! ### Appending and truncating -/

/-- What is appended to an input that the decoder accepts is left for the next turn. -/
def Extends (d : Decoder β ε α) : Prop :=
  ∀ (s : List β) (a : α) (r t : List β), d s = .ok a r → d (s ++ t) = .ok a (r ++ t)

/-- **Appended input** is decoded after the elements before it. -/
theorem drain_append {d : Decoder β ε α} (hext : Extends d) {t : List β} :
    ∀ {n : ℕ} {s : List β} {o : Outcome β ε α}, drain d n s = some o → o.rest = [] → o.err = none →
      ∀ {m : ℕ} {o' : Outcome β ε α}, drain d m t = some o' → ∃ cuts,
        drain d (n + m) (s ++ t) = some ⟨o.out ++ o'.out, cuts, o'.rest, o'.err⟩ := by
  intro n
  induction n with
  | zero => intro s o h; simp [drain] at h
  | succ n ih =>
      intro s o h hrest herr m o' h'
      cases s with
      | nil =>
          obtain rfl := by simpa [drain] using h.symm
          exact ⟨o'.cuts, drain_mono m (n + 1 + m) t o' (by omega) h'⟩
      | cons b l =>
          cases hdec : d (b :: l) with
          | error e s' =>
              obtain rfl := by simpa [drain, hdec] using h.symm
              simp at herr
          | ok a s' =>
              simp only [drain, hdec, Option.map_eq_some_iff] at h
              obtain ⟨p, hp, rfl⟩ := h
              obtain ⟨cuts, hcuts⟩ := ih hp hrest herr h'
              have hstep := hext _ _ _ t hdec
              rw [List.cons_append] at hstep
              refine ⟨(s' ++ t) :: cuts, ?_⟩
              rw [List.cons_append, Nat.add_right_comm]
              simp only [drain, hstep, hcuts, Option.map_some, List.cons_append]

/-- A part of a wire is not an element. -/
theorem Frames.error_of_prefix {d : Decoder β ε α} (hext : Extends d) (hclean : Clean d)
    {w p : List β} {a : α} (h : Frames d w a) (hp : p <+: w) (hne : p ≠ w) :
    ∃ e, d p = .error e p := by
  cases hdec : d p with
  | error e s =>
      obtain rfl := hclean _ _ _ hdec
      exact ⟨e, rfl⟩
  | ok a' r =>
      obtain ⟨t, rfl⟩ := hp
      have hlong := hext _ _ _ t hdec
      have hwire := h.read_whole
      rw [hlong] at hwire
      injection hwire with _ hnil
      rw [(List.append_eq_nil_iff.1 hnil).2, List.append_nil] at hne
      exact absurd rfl hne

/-- **A truncated concatenation of wires** decodes to the elements whose wires are left whole, and
the loop stops at the part of a wire that follows them, if there is one. -/
theorem drain_truncated {d : Decoder β ε α} (hext : Extends d) (hclean : Clean d) :
    ∀ (ps : List (List β × α)), (∀ p ∈ ps, Frames d p.1 p.2) → ∀ t : List β,
      t <+: (ps.map Prod.fst).flatten → ∀ n, t.length < n → ∃ qs rs part cuts err,
        ps = qs ++ rs ∧ t = (qs.map Prod.fst).flatten ++ part ∧
        (∀ p ∈ rs.head?, part <+: p.1 ∧ part ≠ p.1) ∧ (rs = [] → part = []) ∧
        drain d n t = some ⟨qs.map Prod.snd, cuts, part, err⟩ ∧ (err = none ↔ part = []) := by
  intro ps
  induction ps with
  | nil =>
      intro _ t ht n hn
      obtain ⟨n, rfl⟩ : ∃ k, n = k + 1 := ⟨n - 1, by omega⟩
      obtain rfl : t = [] := by simpa using ht
      exact ⟨[], [], [], [], none, rfl, rfl, by simp, fun _ => rfl, rfl, by simp⟩
  | cons p ps ih =>
      intro hps t ht n hn
      obtain ⟨n, rfl⟩ : ∃ k, n = k + 1 := ⟨n - 1, by omega⟩
      have hframe := hps p (List.mem_cons_self ..)
      rw [List.map_cons, List.flatten_cons] at ht
      by_cases hwhole : p.1 <+: t
      · -- the first wire is whole
        obtain ⟨t', rfl⟩ := hwhole
        rw [List.prefix_append_right_inj] at ht
        have hlen := List.length_pos_of_ne_nil hframe.1
        rw [List.length_append] at hn
        obtain ⟨qs, rs, part, cuts, err, rfl, rfl, hpart, hrs, hdrain, herr⟩ :=
          ih (fun q hq => hps q (List.mem_cons_of_mem _ hq)) t' ht n (by omega)
        obtain ⟨b, w, hw⟩ := List.exists_cons_of_ne_nil hframe.1
        have hdec := hframe.2 ((qs.map Prod.fst).flatten ++ part)
        refine ⟨p :: qs, rs, part, ((qs.map Prod.fst).flatten ++ part) :: cuts, err, rfl, ?_, hpart,
          hrs, ?_, herr⟩
        · rw [List.map_cons, List.flatten_cons, List.append_assoc]
        · rw [hw, List.cons_append] at hdec ⊢
          simp only [drain, hdec, hdrain, Option.map_some, List.map_cons]
      · -- the input ends inside the first wire
        have hpre : t <+: p.1 := by
          rcases List.prefix_or_prefix_of_prefix ht (List.prefix_append p.1 _) with h | h
          · exact h
          · exact absurd h hwhole
        have hne : t ≠ p.1 := by
          rintro rfl
          exact hwhole (List.prefix_refl _)
        cases t with
        | nil =>
            refine ⟨[], p :: ps, [], [], none, rfl, rfl, ?_, fun _ => rfl, rfl, by simp⟩
            intro q hq
            obtain rfl : p = q := by simpa using hq
            exact ⟨List.nil_prefix, hne⟩
        | cons b l =>
            obtain ⟨e, he⟩ := hframe.error_of_prefix hext hclean hpre hne
            refine ⟨[], p :: ps, b :: l, [], some e, rfl, rfl, ?_, by simp, ?_, by simp⟩
            · intro q hq
              obtain rfl : p = q := by simpa using hq
              exact ⟨hpre, hne⟩
            · simp only [drain, he, List.map_nil]

/-! ### Two decoders -/

/-- The two decoders accept the same inputs and leave the same rest of them. -/
def SameCuts (d : Decoder β ε α) (d' : Decoder β ε' α') : Prop :=
  ∀ s : List β, s ≠ [] → (∃ a a' t, d s = .ok a t ∧ d' s = .ok a' t) ∨
    ∃ e e' t, d s = .error e t ∧ d' s = .error e' t

/-- **Decoders with the same cuts stop in the same place.** -/
theorem SameCuts.drain {d : Decoder β ε α} {d' : Decoder β ε' α'} (h : SameCuts d d') :
    ∀ (n : ℕ) (s : List β) (o : Outcome β ε α) (o' : Outcome β ε' α'),
      drain d n s = some o → drain d' n s = some o' →
        o.cuts = o'.cuts ∧ o.rest = o'.rest ∧ (o.err = none ↔ o'.err = none) := by
  intro n
  induction n with
  | zero => intro s o o' ho; simp [Framing.drain] at ho
  | succ n ih =>
      intro s o o' ho ho'
      cases s with
      | nil =>
          obtain rfl := by simpa [Framing.drain] using ho.symm
          obtain rfl := by simpa [Framing.drain] using ho'.symm
          simp
      | cons b l =>
          rcases h (b :: l) (by simp) with ⟨a, a', t, hd, hd'⟩ | ⟨e, e', t, hd, hd'⟩
          · simp only [Framing.drain, hd, hd', Option.map_eq_some_iff] at ho ho'
            obtain ⟨p, hp, rfl⟩ := ho
            obtain ⟨p', hp', rfl⟩ := ho'
            obtain ⟨hcuts, hrest, herr⟩ := ih t p p' hp hp'
            exact ⟨by rw [hcuts], hrest, herr⟩
          · obtain rfl := by simpa [Framing.drain, hd] using ho.symm
            obtain rfl := by simpa [Framing.drain, hd'] using ho'.symm
            simp

end Framing
