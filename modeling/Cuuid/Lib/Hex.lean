/-
**Hexadecimal text with a fixed template.**

A template says where in a text the bytes are written, as two hexadecimal digits each, and where fixed
characters stand between them.  A text matches a template when its digits are digits, of either case,
and its fixed characters are those of the template.  Such a text is read as a list of bytes, and a list
of bytes is written as a text with lower-case digits.  The characters are ASCII bytes; this module
names no program.

Main definitions:

* `Hex.IsDigit`, `Hex.value`, `Hex.digit`, `Hex.toLower` — the digits;
* `Hex.Item`, `Hex.Matches` — templates, and the texts that match one;
* `Hex.decode`, `Hex.encode` — the bytes of a text, and the text of a list of bytes.

Main results:

* `Hex.encode_decode` — **reading and writing gives the text in lower case**;
* `Hex.matches_encode`, `Hex.decode_encode` — **writing and reading gives the bytes**;
* `Hex.encode_lt_encode_iff` — **texts of one template compare as the bytes do**;
* `Hex.matches_append_iff`, `Hex.matches_pairs_iff` — the texts of a template, part by part.
-/

import Mathlib.Data.List.Basic

set_option relaxedAutoImplicit false
set_option autoImplicit false

namespace Hex

/-! ### Digits -/

/-- The hexadecimal digits `0` to `9`, `a` to `f` and `A` to `F`. -/
def IsDigit (c : UInt8) : Prop :=
  (0x30 ≤ c ∧ c ≤ 0x39) ∨ (0x61 ≤ c ∧ c ≤ 0x66) ∨ (0x41 ≤ c ∧ c ≤ 0x46)

instance (c : UInt8) : Decidable (IsDigit c) :=
  inferInstanceAs (Decidable (_ ∨ _ ∨ _))

/-- The value of a digit. -/
def value (c : UInt8) : ℕ :=
  if c ≤ 0x39 then c.toNat - 0x30 else if c ≤ 0x46 then c.toNat - 0x37 else c.toNat - 0x57

/-- The lower-case digit of a value. -/
def digit (n : ℕ) : UInt8 := if n < 10 then UInt8.ofNat (0x30 + n) else UInt8.ofNat (0x57 + n)

/-- An upper-case letter in lower case; any other character as it is. -/
def toLower (c : UInt8) : UInt8 := if 0x41 ≤ c ∧ c ≤ 0x5a then c + 0x20 else c

theorem digit_table : ∀ n < 16, IsDigit (digit n) ∧ value (digit n) = n := by decide +kernel

theorem value_table : ∀ n < 256, IsDigit (UInt8.ofNat n) →
    value (UInt8.ofNat n) < 16 ∧ digit (value (UInt8.ofNat n)) = toLower (UInt8.ofNat n) := by
  decide +kernel

theorem value_lt {c : UInt8} (h : IsDigit c) : value c < 16 := by
  have hc := value_table c.toNat c.toNat_lt
  rw [UInt8.ofNat_toNat] at hc
  exact (hc h).1

theorem digit_value {c : UInt8} (h : IsDigit c) : digit (value c) = toLower c := by
  have hc := value_table c.toNat c.toNat_lt
  rw [UInt8.ofNat_toNat] at hc
  exact (hc h).2

/-! ### Templates -/

/-- A part of a template. -/
inductive Item
  /-- The two digits of a byte. -/
  | pair
  /-- A fixed character. -/
  | sep (x : UInt8)
deriving DecidableEq, Repr

/-- The number of characters of a template. -/
def width : List Item → ℕ
  | [] => 0
  | .pair :: t => width t + 2
  | .sep _ :: t => width t + 1

/-- The number of bytes of a template. -/
def size : List Item → ℕ
  | [] => 0
  | .pair :: t => size t + 1
  | .sep _ :: t => size t

/-- Whether a text matches a template. -/
def Matches : List Item → List UInt8 → Prop
  | [], s => s = []
  | .pair :: t, c :: d :: s => IsDigit c ∧ IsDigit d ∧ Matches t s
  | .sep x :: t, c :: s => c = x ∧ Matches t s
  | _, _ => False

/-- The bytes of a text. -/
def decode : List Item → List UInt8 → List UInt8
  | .pair :: t, c :: d :: s => UInt8.ofNat (16 * value c + value d) :: decode t s
  | .sep _ :: t, _ :: s => decode t s
  | _, _ => []

/-- The text of a list of bytes. -/
def encode : List Item → List UInt8 → List UInt8
  | .pair :: t, b :: l => digit (b.toNat / 16) :: digit (b.toNat % 16) :: encode t l
  | .sep x :: t, l => x :: encode t l
  | _, _ => []

/-- A text of the right length has the two characters of a pair in front. -/
theorem exists_cons_cons {t : List Item} {s : List UInt8} (h : s.length = width (.pair :: t)) :
    ∃ c d s', s = c :: d :: s' ∧ s'.length = width t := by
  match s, h with
  | c :: d :: s', h => exact ⟨c, d, s', rfl, by simpa [width] using h⟩

/-- A text of the right length has a fixed character in front. -/
theorem exists_cons {x : UInt8} {t : List Item} {s : List UInt8}
    (h : s.length = width (.sep x :: t)) : ∃ c s', s = c :: s' ∧ s'.length = width t := by
  match s, h with
  | c :: s', h => exact ⟨c, s', rfl, by simpa [width] using h⟩

theorem length_of_matches {t : List Item} {s : List UInt8} (h : Matches t s) :
    s.length = width t := by
  induction t, s using Matches.induct with
  | case1 s => simpa [width] using congrArg List.length h
  | case2 t c d s ih => simp [width, ih h.2.2]
  | case3 t x c s ih => simp [width, ih h.2]
  | case4 t s => exact absurd h (by simp [Matches])

theorem length_decode {t : List Item} {s : List UInt8} (h : Matches t s) :
    (decode t s).length = size t := by
  induction t, s using Matches.induct with
  | case1 s => rfl
  | case2 t c d s ih => simp [decode, size, ih h.2.2]
  | case3 t x c s ih => simp [decode, size, ih h.2]
  | case4 t s => exact absurd h (by simp [Matches])

/-- **Reading and writing** gives the text in lower case, when the fixed characters are. -/
theorem encode_decode {t : List Item} {s : List UInt8} (h : Matches t s)
    (hsep : ∀ x, Item.sep x ∈ t → toLower x = x) : encode t (decode t s) = s.map toLower := by
  induction t, s using Matches.induct with
  | case1 s =>
      rw [show s = [] from h]
      rfl
  | case2 t c d s ih =>
      obtain ⟨hc, hd, hs⟩ := h
      have hcv := value_lt hc
      have hdv := value_lt hd
      have hbyte : (UInt8.ofNat (16 * value c + value d)).toNat = 16 * value c + value d := by
        rw [UInt8.toNat_ofNat', Nat.mod_eq_of_lt (by omega)]
      have hhigh : (16 * value c + value d) / 16 = value c := by omega
      have hlow : (16 * value c + value d) % 16 = value d := by omega
      rw [decode, encode, hbyte, hhigh, hlow, digit_value hc, digit_value hd,
        ih hs fun x hx => hsep x (List.mem_cons_of_mem _ hx)]
      rfl
  | case3 t x c s ih =>
      obtain ⟨rfl, hs⟩ := h
      rw [decode, encode, ih hs fun x hx => hsep x (List.mem_cons_of_mem _ hx), List.map_cons,
        hsep c List.mem_cons_self]
  | case4 t s => exact absurd h (by simp [Matches])

/-- What is written matches the template. -/
theorem matches_encode {t : List Item} {l : List UInt8} (h : l.length = size t) :
    Matches t (encode t l) := by
  induction t generalizing l with
  | nil => rfl
  | cons item t ih =>
      cases item with
      | pair =>
          cases l with
          | nil => simp [size] at h
          | cons b l =>
              have hb := b.toNat_lt
              exact ⟨(digit_table _ (by omega)).1, (digit_table _ (by omega)).1,
                ih (by simpa [size] using h)⟩
      | sep x => exact ⟨rfl, ih h⟩

/-- **Writing and reading** gives the bytes. -/
theorem decode_encode {t : List Item} {l : List UInt8} (h : l.length = size t) :
    decode t (encode t l) = l := by
  induction t generalizing l with
  | nil =>
      rw [size, List.length_eq_zero_iff] at h
      rw [h]
      rfl
  | cons item t ih =>
      cases item with
      | pair =>
          cases l with
          | nil => simp [size] at h
          | cons b l =>
              have hb := b.toNat_lt
              have hvalue : 16 * (b.toNat / 16) + b.toNat % 16 = b.toNat := Nat.div_add_mod _ _
              rw [encode, decode, (digit_table _ (by omega)).2, (digit_table _ (by omega)).2, hvalue,
                UInt8.ofNat_toNat, ih (by simpa [size] using h)]
      | sep x => rw [encode, decode, ih h]

/-! ### The order of texts -/

theorem digit_order_table : ∀ m < 16, ∀ n < 16,
    (digit m < digit n ↔ m < n) ∧ (digit m = digit n ↔ m = n) := by
  decide +kernel

/-- **Texts of one template compare as the bytes do.** -/
theorem encode_lt_encode_iff {t : List Item} {l m : List UInt8} (hl : l.length = size t)
    (hm : m.length = size t) : encode t l < encode t m ↔ l < m := by
  induction t generalizing l m with
  | nil =>
      rw [size, List.length_eq_zero_iff] at hl hm
      rw [hl, hm]
      rfl
  | cons item t ih =>
      cases item with
      | pair =>
          match l, m, hl, hm with
          | b :: l, c :: m, hl, hm =>
              have hrest := ih (Nat.succ.inj hl) (Nat.succ.inj hm)
              have hb := b.toNat_lt
              have hc := c.toNat_lt
              obtain ⟨hhigh, hhigh'⟩ :=
                digit_order_table (b.toNat / 16) (by omega) (c.toNat / 16) (by omega)
              obtain ⟨hlow, hlow'⟩ :=
                digit_order_table (b.toNat % 16) (by omega) (c.toNat % 16) (by omega)
              rw [encode, encode, List.cons_lt_cons_iff, List.cons_lt_cons_iff,
                List.cons_lt_cons_iff, hrest, hhigh, hhigh', hlow, hlow', UInt8.lt_iff_toNat_lt,
                ← UInt8.toNat_inj]
              -- the high digits compare first, as quotients, and then the low ones, as remainders
              by_cases htail : l < m
              · simp only [htail, and_true]
                omega
              · simp only [htail, and_false, or_false]
                omega
      | sep x =>
          rw [encode, encode, List.cons_lt_cons_iff, ih hl hm]
          simp only [UInt8.lt_irrefl, false_or, true_and]

/-! ### Parts -/

theorem matches_pair_iff {t : List Item} {s : List UInt8} : Matches (.pair :: t) s ↔
    ∃ c d s', s = c :: d :: s' ∧ IsDigit c ∧ IsDigit d ∧ Matches t s' := by
  constructor
  · intro h
    match s, h with
    | c :: d :: s', ⟨hc, hd, hs⟩ => exact ⟨c, d, s', rfl, hc, hd, hs⟩
  · rintro ⟨c, d, s', rfl, hc, hd, hs⟩
    exact ⟨hc, hd, hs⟩

theorem matches_sep_iff {x : UInt8} {t : List Item} {s : List UInt8} :
    Matches (.sep x :: t) s ↔ ∃ s', s = x :: s' ∧ Matches t s' := by
  constructor
  · intro h
    match s, h with
    | c :: s', ⟨hc, hs⟩ => exact ⟨s', by rw [hc], hs⟩
  · rintro ⟨s', rfl, hs⟩
    exact ⟨rfl, hs⟩

/-- A text of two templates is a text of the first, followed by a text of the second. -/
theorem matches_append_iff {t u : List Item} {s : List UInt8} :
    Matches (t ++ u) s ↔ ∃ s₁ s₂, s = s₁ ++ s₂ ∧ Matches t s₁ ∧ Matches u s₂ := by
  induction t generalizing s with
  | nil =>
      constructor
      · intro h
        exact ⟨[], s, rfl, rfl, h⟩
      · rintro ⟨s₁, s₂, rfl, h₁, h₂⟩
        rwa [show s₁ = [] from h₁]
  | cons item t ih =>
      cases item with
      | pair =>
          rw [List.cons_append, matches_pair_iff]
          constructor
          · rintro ⟨c, d, s', rfl, hc, hd, hs⟩
            obtain ⟨s₁, s₂, rfl, h₁, h₂⟩ := ih.1 hs
            exact ⟨c :: d :: s₁, s₂, rfl, ⟨hc, hd, h₁⟩, h₂⟩
          · rintro ⟨s₁, s₂, rfl, h₁, h₂⟩
            obtain ⟨c, d, s', rfl, hc, hd, hs⟩ := matches_pair_iff.1 h₁
            exact ⟨c, d, s' ++ s₂, rfl, hc, hd, ih.2 ⟨s', s₂, rfl, hs, h₂⟩⟩
      | sep x =>
          rw [List.cons_append, matches_sep_iff]
          constructor
          · rintro ⟨s', rfl, hs⟩
            obtain ⟨s₁, s₂, rfl, h₁, h₂⟩ := ih.1 hs
            exact ⟨x :: s₁, s₂, rfl, ⟨rfl, h₁⟩, h₂⟩
          · rintro ⟨s₁, s₂, rfl, h₁, h₂⟩
            obtain ⟨s', rfl, hs⟩ := matches_sep_iff.1 h₁
            exact ⟨s' ++ s₂, rfl, ih.2 ⟨s', s₂, rfl, hs, h₂⟩⟩

/-- The text of the bytes of two templates is the text of the first, followed by the text of the
second. -/
theorem encode_append {t : List Item} (u : List Item) {l : List UInt8} (m : List UInt8)
    (h : l.length = size t) : encode (t ++ u) (l ++ m) = encode t l ++ encode u m := by
  induction t generalizing l with
  | nil =>
      rw [size, List.length_eq_zero_iff] at h
      rw [h]
      rfl
  | cons item t ih =>
      cases item with
      | pair =>
          cases l with
          | nil => simp [size] at h
          | cons b l =>
              have htail := ih (l := l) (by simpa [size] using h)
              simp only [List.cons_append, encode, htail]
      | sep x => simp only [List.cons_append, encode, ih h]

theorem size_pairs (n : ℕ) : size (List.replicate n .pair) = n := by
  induction n with
  | zero => rfl
  | succ n ih => rw [List.replicate_succ, size, ih]

/-- The text of pairs is two digits for each byte. -/
theorem encode_pairs (l : List UInt8) : encode (List.replicate l.length .pair) l =
    l.flatMap fun b => [digit (b.toNat / 16), digit (b.toNat % 16)] := by
  induction l with
  | nil => rfl
  | cons b l ih => simp [List.replicate_succ, encode, ih]

/-- A text of pairs is an even number of digits. -/
theorem matches_pairs_iff {n : ℕ} {s : List UInt8} :
    Matches (List.replicate n .pair) s ↔ s.length = 2 * n ∧ ∀ c ∈ s, IsDigit c := by
  induction n generalizing s with
  | zero =>
      constructor
      · intro h
        simp [show s = [] from h]
      · intro h
        exact List.length_eq_zero_iff.1 h.1
  | succ n ih =>
      rw [List.replicate_succ, matches_pair_iff]
      constructor
      · rintro ⟨c, d, s', rfl, hc, hd, hs⟩
        obtain ⟨hlen, hall⟩ := ih.1 hs
        refine ⟨by simp only [List.length_cons, hlen]; omega, ?_⟩
        simpa [hc, hd] using hall
      · rintro ⟨hlen, hall⟩
        match s, hlen, hall with
        | [], hlen, _ => simp at hlen
        | [_], hlen, _ => simp only [List.length_singleton] at hlen; omega
        | c :: d :: s', hlen, hall =>
            simp only [List.length_cons] at hlen
            refine ⟨c, d, s', rfl, hall c (by simp), hall d (by simp), ih.2 ⟨by omega, ?_⟩⟩
            intro x hx
            exact hall x (by simp [hx])

end Hex
