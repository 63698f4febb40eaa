/-
**The text form.**

This module embeds the text functions of `cuuid_v1.cc`: the constructor from a string, the validator
`is_valid` and `to_string`.  Each is an unrolled sequence of its own: sixteen byte conversions, or
thirty-two character tests, and four separators.  The module shows that the three sequences follow one
template.

The character functions come from the library `char-classify`, which is not part of the repository;
they are a parameter here, with what is documented of them.

Main definitions:

* `Cuuid.CharClassify`, `Cuuid.CharClassify.Documented` — the character functions;
* `Cuuid.uuidToBytes`, `Cuuid.UUID.ofString`, `Cuuid.isValid`, `Cuuid.UUID.toText` — the text
  functions;
* `Cuuid.UuidGrammar` — 8, 4, 4, 4 and 12 hexadecimal digits.

Main results:

* `Cuuid.parseItems_spec`, `Cuuid.validateItems_spec` — a template as a parser and as a validator;
* `Cuuid.text_spec` — **parser, validator and printer agree**.
-/

import Cuuid.Lib.Hex
import Cuuid.Uuid

set_option relaxedAutoImplicit false
set_option autoImplicit false

namespace Cuuid

open Hex

/-! ### The character functions -/

/-- The functions of `chars.hh` that the text functions call. -/
structure CharClassify where
  /-- The value of a hexadecimal digit. -/
  hexdigit : UInt8 → ℕ
  /-- The byte written by the two characters at the pointer, which moves past them. -/
  hexdec : UInt8 → UInt8 → ℤ
  /-- The characters that are stored for a byte at the pointer, which moves past them. -/
  charRepr : UInt8 → Bytes

/-- What is documented of the character functions. -/
structure CharClassify.Documented (cc : CharClassify) : Prop where
  /-- Only the hexadecimal digits have a value below 16. -/
  hexdigit_lt : ∀ c, cc.hexdigit c < 16 ↔ IsDigit c
  /-- Two digits are read as a byte. -/
  hexdec_digits : ∀ c d, IsDigit c → IsDigit d → cc.hexdec c d = 16 * value c + value d
  /-- Other characters are read as a negative number. -/
  hexdec_neg : ∀ c d, ¬ (IsDigit c ∧ IsDigit d) → cc.hexdec c d < 0
  /-- A byte is written as two lower-case digits. -/
  charRepr_eq : ∀ b, cc.charRepr b = [digit (b.toNat / 16), digit (b.toNat % 16)]

/-! ### The text functions -/

/-- What a text function can end in instead of a value. -/
inductive TextFault
  /-- A read past the end of the string. -/
  | outOfRange
  /-- `THROW(InvalidArgument, message)`. -/
  | invalidArgument (message : String)
deriving DecidableEq, Repr

/-- A computation that moves `pos` through a string: the state is what is left of it. -/
abbrev TextReader (α : Type) := EStateM TextFault Bytes α

/-- The character `'-'`. -/
def dash : UInt8 := 0x2d

def uuidLength : ℕ := 36

/-- `*pos++`. -/
def nextChar : TextReader UInt8 := do
  match ← get with
  | [] => throw .outOfRange
  | c :: s =>
      set s
      return c

/-- `hexPairToChar(&pos)`. -/
def hexPairToChar (cc : CharClassify) : TextReader UInt8 := do
  let c ← nextChar
  let d ← nextChar
  let dec := cc.hexdec c d
  if 0 ≤ dec then
    return UInt8.ofNat dec.toNat
  else
    throw (.invalidArgument "Invalid UUID string hex character")

/-- `n` lines `*b++ = hexPairToChar(&pos)`. -/
def hexPairs (cc : CharClassify) : ℕ → TextReader Bytes
  | 0 => return []
  | n + 1 => do
      let b ← hexPairToChar cc
      let l ← hexPairs cc n
      return b :: l

/-- `if (*pos++ != x) THROW(...)`. -/
def expectChar (x : UInt8) : TextReader Unit := do
  let c ← nextChar
  if c ≠ x then
    throw (.invalidArgument "Invalid UUID string character")

/-- The sequence of `uuid_to_bytes`, after the size check. -/
def uuidToBytesSteps (cc : CharClassify) : TextReader Bytes := do
  let b0 ← hexPairs cc 4
  expectChar dash
  let b1 ← hexPairs cc 2
  expectChar dash
  let b2 ← hexPairs cc 2
  expectChar dash
  let b3 ← hexPairs cc 2
  expectChar dash
  let b4 ← hexPairs cc 6
  return b0 ++ (b1 ++ (b2 ++ (b3 ++ b4)))

/-- `uuid_to_bytes`. -/
def uuidToBytes (cc : CharClassify) (s : Bytes) : Except TextFault Bytes :=
  if s.length ≠ uuidLength then
    .error (.invalidArgument "Invalid UUID string length")
  else
    match uuidToBytesSteps cc s with
    | .ok bytes _ => .ok bytes
    | .error e _ => .error e

/-- The constructor from a string. -/
def UUID.ofString (cc : CharClassify) (s : Bytes) : Except TextFault UUID := do
  let bytes ← uuidToBytes cc s
  .ok ⟨Vector.ofFn fun i => bytes.getD i 0⟩

/-- `n` tests `chars::hexdigit(*pos++) < 16`, joined by `&&`. -/
def hexTests (cc : CharClassify) : ℕ → TextReader Bool
  | 0 => return true
  | n + 1 => (return decide (cc.hexdigit (← nextChar) < 16)) <&&> hexTests cc n

/-- The test `*pos++ == x`. -/
def charTest (x : UInt8) : TextReader Bool := return (← nextChar) == x

/-- The condition of `is_valid`, after the size check. -/
def isValidTests (cc : CharClassify) : TextReader Bool :=
  hexTests cc 8 <&&> charTest dash <&&> hexTests cc 4 <&&> charTest dash <&&> hexTests cc 4 <&&>
    charTest dash <&&> hexTests cc 4 <&&> charTest dash <&&> hexTests cc 12

/-- `UUID::is_valid`: tests a copy `pos` of the pointer, which is only stored back on success. -/
def isValid (cc : CharClassify) : TextReader Bool := do
  let start ← get
  if start.length = uuidLength then
    if ← isValidTests cc then
      return true
    else
      set start
      return false
  else
    return false

/-- The characters of `n` bytes from index `i` on. -/
def UUID.charReprs (cc : CharClassify) (u : UUID) (i n : ℕ) : Bytes :=
  (bytesAt u.bytes i n).flatMap cc.charRepr

/-- `UUID::to_string`. -/
def UUID.toText (cc : CharClassify) (u : UUID) : Bytes :=
  u.charReprs cc 0 4 ++ dash :: (u.charReprs cc 4 2 ++ dash :: (u.charReprs cc 6 2 ++
    dash :: (u.charReprs cc 8 2 ++ dash :: u.charReprs cc 10 6)))

/-! ### One template -/

/-- The text of a UUID, as a template. -/
def uuidTemplate : List Item :=
  List.replicate 4 .pair ++ .sep dash :: (List.replicate 2 .pair ++ .sep dash ::
    (List.replicate 2 .pair ++ .sep dash :: (List.replicate 2 .pair ++ .sep dash ::
      List.replicate 6 .pair)))

/-- The conversions and separator checks of a template, in order. -/
def parseItems (cc : CharClassify) : List Item → TextReader Bytes
  | [] => return []
  | .pair :: t => do
      let b ← hexPairToChar cc
      let l ← parseItems cc t
      return b :: l
  | .sep x :: t => do
      expectChar x
      parseItems cc t

/-- The tests of a template, in order. -/
def validateItems (cc : CharClassify) : List Item → TextReader Bool
  | [] => return true
  | .pair :: t => hexTests cc 2 <&&> validateItems cc t
  | .sep x :: t => charTest x <&&> validateItems cc t

/-! The parser follows the template. -/

theorem parseItems_append (cc : CharClassify) (t u : List Item) : parseItems cc (t ++ u) = (do
    let l ← parseItems cc t
    let m ← parseItems cc u
    return l ++ m) := by
  induction t with
  | nil => simp [parseItems]
  | cons item t ih =>
      cases item with
      | pair => simp [parseItems, ih]
      | sep x => simp [parseItems, ih]

theorem parseItems_pairs (cc : CharClassify) (n : ℕ) :
    parseItems cc (List.replicate n .pair) = hexPairs cc n := by
  induction n with
  | zero => rfl
  | succ n ih => simp [List.replicate_succ, parseItems, hexPairs, ih]

theorem uuidToBytesSteps_eq (cc : CharClassify) :
    uuidToBytesSteps cc = parseItems cc uuidTemplate := by
  simp only [uuidTemplate, parseItems_append, parseItems_pairs, parseItems, uuidToBytesSteps,
    bind_assoc, pure_bind]

/-! The validator follows the template. -/

/-- A conjunction of tests can be bracketed either way. -/
theorem andM_assoc (p q r : TextReader Bool) : (p <&&> (q <&&> r)) = ((p <&&> q) <&&> r) := by
  simp only [andM, bind_assoc]
  congr 1
  funext b
  cases b <;> rfl

theorem hexTests_add (cc : CharClassify) (m n : ℕ) :
    hexTests cc (m + n) = (hexTests cc m <&&> hexTests cc n) := by
  induction m with
  | zero =>
      rw [Nat.zero_add]
      rfl
  | succ m ih => rw [Nat.succ_add, hexTests, hexTests, ih, andM_assoc]

theorem validateItems_append (cc : CharClassify) (t u : List Item) :
    validateItems cc (t ++ u) = (validateItems cc t <&&> validateItems cc u) := by
  induction t with
  | nil => rfl
  | cons item t ih =>
      cases item with
      | pair => rw [List.cons_append, validateItems, validateItems, ih, andM_assoc]
      | sep x => rw [List.cons_append, validateItems, validateItems, ih, andM_assoc]

theorem validateItems_pairs (cc : CharClassify) (n : ℕ) :
    validateItems cc (List.replicate n .pair) = hexTests cc (2 * n) := by
  induction n with
  | zero => rfl
  | succ n ih =>
      have htwo : 2 * (n + 1) = 2 + 2 * n := by omega
      rw [List.replicate_succ, validateItems, ih, htwo, hexTests_add]

theorem isValidTests_eq (cc : CharClassify) : isValidTests cc = validateItems cc uuidTemplate := by
  simp only [uuidTemplate, validateItems_append, validateItems_pairs, validateItems]
  rfl

/-! ### What the template accepts -/

theorem hexPairToChar_cons (cc : CharClassify) (c d : UInt8) (s : Bytes) :
    hexPairToChar cc (c :: d :: s) =
      if 0 ≤ cc.hexdec c d then .ok (UInt8.ofNat (cc.hexdec c d).toNat) s
      else .error (.invalidArgument "Invalid UUID string hex character") s := by
  have hnext : ∀ c s, nextChar (c :: s) = .ok c s := fun _ _ => rfl
  simp only [hexPairToChar, bind, EStateM.bind, hnext]
  split_ifs <;> rfl

theorem expectChar_cons (x c : UInt8) (s : Bytes) : expectChar x (c :: s) =
    if c ≠ x then .error (.invalidArgument "Invalid UUID string character") s else .ok () s := by
  have hnext : nextChar (c :: s) = .ok c s := rfl
  simp only [expectChar, bind, EStateM.bind, hnext]
  split_ifs <;> rfl

/-- **A template as a parser** takes the texts that match it, and rejects all others of its length
with an `InvalidArgument`. -/
theorem parseItems_spec {cc : CharClassify} (h : cc.Documented) {t : List Item} {s : Bytes}
    (hs : s.length = width t) :
    (Matches t s → parseItems cc t s = .ok (decode t s) []) ∧
      (¬ Matches t s → ∃ m r, parseItems cc t s = .error (.invalidArgument m) r) := by
  induction t generalizing s with
  | nil =>
      obtain rfl : s = [] := List.length_eq_zero_iff.1 hs
      exact ⟨fun _ => rfl, fun hne => absurd rfl hne⟩
  | cons item t ih =>
      cases item with
      | pair =>
          obtain ⟨c, d, s, rfl, hlen⟩ := exists_cons_cons hs
          obtain ⟨hyes, hno⟩ := ih hlen
          simp only [parseItems, bind, EStateM.bind, hexPairToChar_cons]
          by_cases hpair : IsDigit c ∧ IsDigit d
          · have hdec := h.hexdec_digits c d hpair.1 hpair.2
            have hbyte : (cc.hexdec c d).toNat = 16 * value c + value d := by omega
            rw [if_pos (by omega)]
            constructor
            · intro hm
              simp only [hyes hm.2.2, decode, hbyte]
              rfl
            · intro hm
              obtain ⟨m, r, hmr⟩ := hno fun hrest => hm ⟨hpair.1, hpair.2, hrest⟩
              exact ⟨m, r, by simp only [hmr]⟩
          · have hdec := h.hexdec_neg c d hpair
            rw [if_neg (by omega)]
            exact ⟨fun hm => absurd ⟨hm.1, hm.2.1⟩ hpair, fun _ => ⟨_, _, rfl⟩⟩
      | sep x =>
          obtain ⟨c, s, rfl, hlen⟩ := exists_cons hs
          obtain ⟨hyes, hno⟩ := ih hlen
          simp only [parseItems, bind, EStateM.bind, expectChar_cons]
          by_cases hc : c = x
          · rw [if_neg (not_not.2 hc)]
            exact ⟨fun hm => hyes hm.2, fun hm => hno fun hrest => hm ⟨hc, hrest⟩⟩
          · rw [if_pos hc]
            exact ⟨fun hm => absurd hm.1 hc, fun _ => ⟨_, _, rfl⟩⟩

theorem andM_of_true {p : TextReader Bool} (q : TextReader Bool) {s r : Bytes}
    (h : p s = .ok true r) : (p <&&> q) s = q r := by
  simp only [andM, bind, EStateM.bind, h]
  rfl

theorem andM_of_false {p : TextReader Bool} (q : TextReader Bool) {s r : Bytes}
    (h : p s = .ok false r) : (p <&&> q) s = .ok false r := by
  simp only [andM, bind, EStateM.bind, h]
  rfl

/-- The two tests of a pair. -/
theorem hexTests_two {cc : CharClassify} (h : cc.Documented) (c d : UInt8) (s : Bytes) :
    (IsDigit c ∧ IsDigit d → hexTests cc 2 (c :: d :: s) = .ok true s) ∧
      (¬ (IsDigit c ∧ IsDigit d) → ∃ r, hexTests cc 2 (c :: d :: s) = .ok false r) := by
  have htest : ∀ c s, (return decide (cc.hexdigit (← nextChar) < 16) : TextReader Bool) (c :: s) =
      .ok (decide (cc.hexdigit c < 16)) s := fun _ _ => rfl
  by_cases hc : IsDigit c
  · have hfirst := htest c (d :: s)
    rw [decide_eq_true ((h.hexdigit_lt c).2 hc)] at hfirst
    rw [hexTests, andM_of_true _ hfirst]
    by_cases hd : IsDigit d
    · have hsecond := htest d s
      rw [decide_eq_true ((h.hexdigit_lt d).2 hd)] at hsecond
      rw [hexTests, andM_of_true _ hsecond]
      exact ⟨fun _ => rfl, fun hne => absurd ⟨hc, hd⟩ hne⟩
    · have hsecond := htest d s
      rw [decide_eq_false (mt (h.hexdigit_lt d).1 hd)] at hsecond
      rw [hexTests, andM_of_false _ hsecond]
      exact ⟨fun hcd => absurd hcd.2 hd, fun _ => ⟨s, rfl⟩⟩
  · have hfirst := htest c (d :: s)
    rw [decide_eq_false (mt (h.hexdigit_lt c).1 hc)] at hfirst
    rw [hexTests, andM_of_false _ hfirst]
    exact ⟨fun hcd => absurd hcd.1 hc, fun _ => ⟨_, rfl⟩⟩

/-- **A template as a validator** is true of the same texts. -/
theorem validateItems_spec {cc : CharClassify} (h : cc.Documented) {t : List Item} {s : Bytes}
    (hs : s.length = width t) :
    (Matches t s → validateItems cc t s = .ok true []) ∧
      (¬ Matches t s → ∃ r, validateItems cc t s = .ok false r) := by
  induction t generalizing s with
  | nil =>
      obtain rfl : s = [] := List.length_eq_zero_iff.1 hs
      exact ⟨fun _ => rfl, fun hne => absurd rfl hne⟩
  | cons item t ih =>
      cases item with
      | pair =>
          obtain ⟨c, d, s, rfl, hlen⟩ := exists_cons_cons hs
          obtain ⟨hyes, hno⟩ := ih hlen
          obtain ⟨htrue, hfalse⟩ := hexTests_two h c d s
          rw [validateItems]
          by_cases hpair : IsDigit c ∧ IsDigit d
          · rw [andM_of_true _ (htrue hpair)]
            exact ⟨fun hm => hyes hm.2.2,
              fun hm => hno fun hrest => hm ⟨hpair.1, hpair.2, hrest⟩⟩
          · obtain ⟨r, hr⟩ := hfalse hpair
            rw [andM_of_false _ hr]
            exact ⟨fun hm => absurd ⟨hm.1, hm.2.1⟩ hpair, fun _ => ⟨r, rfl⟩⟩
      | sep x =>
          obtain ⟨c, s, rfl, hlen⟩ := exists_cons hs
          obtain ⟨hyes, hno⟩ := ih hlen
          have htest : charTest x (c :: s) = .ok (c == x) s := rfl
          rw [validateItems]
          by_cases hc : c = x
          · rw [beq_iff_eq.2 hc] at htest
            rw [andM_of_true _ htest]
            exact ⟨fun hm => hyes hm.2, fun hm => hno fun hrest => hm ⟨hc, hrest⟩⟩
          · rw [beq_eq_false_iff_ne.2 hc] at htest
            rw [andM_of_false _ htest]
            exact ⟨fun hm => absurd hm.1 hc, fun _ => ⟨s, rfl⟩⟩

/-! ### The text of a UUID -/

/-- The grammar of a UUID's text: 8, 4, 4, 4 and 12 hexadecimal digits, of either case. -/
def UuidGrammar (s : Bytes) : Prop :=
  ∃ a b c d e : Bytes, s = a ++ dash :: (b ++ dash :: (c ++ dash :: (d ++ dash :: e))) ∧
    a.length = 8 ∧ b.length = 4 ∧ c.length = 4 ∧ d.length = 4 ∧ e.length = 12 ∧
    ∀ x ∈ a ++ b ++ c ++ d ++ e, IsDigit x

/-- The template stands for the grammar. -/
theorem matches_uuidTemplate_iff (s : Bytes) : Matches uuidTemplate s ↔ UuidGrammar s := by
  simp only [uuidTemplate, matches_append_iff, matches_sep_iff, matches_pairs_iff]
  constructor
  · rintro ⟨a, _, rfl, ⟨ha, hda⟩, _, rfl, b, _, rfl, ⟨hb, hdb⟩, _, rfl, c, _, rfl, ⟨hc, hdc⟩, _,
      rfl, d, _, rfl, ⟨hd, hdd⟩, e, rfl, he, hde⟩
    refine ⟨a, b, c, d, e, rfl, ha, hb, hc, hd, he, fun x hx => ?_⟩
    simp only [List.mem_append] at hx
    rcases hx with (((hx | hx) | hx) | hx) | hx
    · exact hda x hx
    · exact hdb x hx
    · exact hdc x hx
    · exact hdd x hx
    · exact hde x hx
  · rintro ⟨a, b, c, d, e, rfl, ha, hb, hc, hd, he, hall⟩
    simp only [List.mem_append] at hall
    exact ⟨a, _, rfl, ⟨ha, fun x hx => hall x (by simp [hx])⟩, _, rfl,
      b, _, rfl, ⟨hb, fun x hx => hall x (by simp [hx])⟩, _, rfl,
      c, _, rfl, ⟨hc, fun x hx => hall x (by simp [hx])⟩, _, rfl,
      d, _, rfl, ⟨hd, fun x hx => hall x (by simp [hx])⟩, e, rfl, he,
      fun x hx => hall x (by simp [hx])⟩

namespace UUID

variable {cc : CharClassify}

theorem charReprs_eq (h : cc.Documented) (u : UUID) (i n : ℕ) :
    u.charReprs cc i n = encode (List.replicate n .pair) (bytesAt u.bytes i n) := by
  have hpairs := encode_pairs (bytesAt u.bytes i n)
  rw [length_bytesAt] at hpairs
  rw [hpairs, charReprs, funext h.charRepr_eq]

/-- **`to_string` follows the template.** -/
theorem toText_eq (h : cc.Documented) (u : UUID) :
    u.toText cc = encode uuidTemplate u.bytes.toList := by
  have hsize : ∀ i n, (bytesAt u.bytes i n).length = size (List.replicate n .pair) := by
    intro i n
    rw [length_bytesAt, size_pairs]
  have hbytes : u.bytes.toList = bytesAt u.bytes 0 4 ++ (bytesAt u.bytes 4 2 ++
      (bytesAt u.bytes 6 2 ++ (bytesAt u.bytes 8 2 ++ bytesAt u.bytes 10 6))) := by
    rw [toList_eq, bytesAt_add _ 0 4 12, bytesAt_add _ 4 2 10, bytesAt_add _ 6 2 8,
      bytesAt_add _ 8 2 6]
  simp only [toText, charReprs_eq h, hbytes, uuidTemplate]
  rw [encode_append _ _ (hsize 0 4), encode, encode_append _ _ (hsize 4 2), encode,
    encode_append _ _ (hsize 6 2), encode, encode_append _ _ (hsize 8 2), encode]

/-- The array that sixteen bytes are stored in. -/
theorem toList_ofFn_getD {l : Bytes} (h : l.length = 16) :
    (Vector.ofFn (n := 16) fun i => l.getD i 0).toList = l := by
  apply List.ext_getElem
  · simp [h]
  · intro i hi hi'
    simp [hi']

/-- The constructor takes the texts that match the template. -/
theorem ofString_of_matches (h : cc.Documented) {s : Bytes} (hs : Matches uuidTemplate s) :
    ∃ u : UUID, ofString cc s = .ok u ∧ u.bytes.toList = decode uuidTemplate s := by
  have hlen : s.length = uuidLength := length_of_matches hs
  have hbytes : (decode uuidTemplate s).length = 16 := length_decode hs
  refine ⟨_, ?_, toList_ofFn_getD hbytes⟩
  rw [ofString, uuidToBytes, if_neg (not_not.2 hlen), uuidToBytesSteps_eq,
    (parseItems_spec h hlen).1 hs]
  rfl

/-- It throws on all others. -/
theorem ofString_of_not_matches (h : cc.Documented) {s : Bytes} (hs : ¬ Matches uuidTemplate s) :
    ∃ m, ofString cc s = .error (.invalidArgument m) := by
  rw [ofString, uuidToBytes]
  split_ifs with hlen
  · exact ⟨_, rfl⟩
  · obtain ⟨m, r, hmr⟩ := (parseItems_spec h (not_not.1 hlen)).2 hs
    rw [uuidToBytesSteps_eq, hmr]
    exact ⟨m, rfl⟩

end UUID

/-- `is_valid` only moves the pointer when it is true. -/
theorem isValid_eq (cc : CharClassify) (s : Bytes) : isValid cc s =
    if s.length = uuidLength then
      match isValidTests cc s with
      | .ok true r => .ok true r
      | .ok false _ => .ok false s
      | .error e r => .error e r
    else .ok false s := by
  unfold isValid
  dsimp only [bind, EStateM.bind, MonadState.get, getThe, MonadStateOf.get, EStateM.get]
  split_ifs
  · cases hresult : isValidTests cc s with
    | ok valid r => cases valid <;> simp only [EStateM.bind, hresult] <;> rfl
    | error e r => simp only [EStateM.bind, hresult]
  · rfl

theorem isValid_spec {cc : CharClassify} (h : cc.Documented) (s : Bytes) :
    (Matches uuidTemplate s → isValid cc s = .ok true []) ∧
      (¬ Matches uuidTemplate s → isValid cc s = .ok false s) := by
  rw [isValid_eq]
  split_ifs with hlen
  · obtain ⟨hyes, hno⟩ := validateItems_spec h (t := uuidTemplate) hlen
    rw [isValidTests_eq]
    constructor
    · intro hs
      rw [hyes hs]
    · intro hs
      obtain ⟨r, hr⟩ := hno hs
      rw [hr]
  · exact ⟨fun hs => absurd (length_of_matches hs) hlen, fun _ => rfl⟩

/-- **Parser, validator and printer agree.**  A string is a UUID's text exactly when it has 8, 4, 4, 4
and 12 hexadecimal digits: then `is_valid` moves its pointer to the end, and the UUID that is
constructed is printed as the string in lower case.  On any other string `is_valid` leaves the pointer
alone, and the constructor throws `InvalidArgument`.  Every UUID is constructed from its own text. -/
theorem text_spec {cc : CharClassify} (h : cc.Documented) :
    (∀ s : Bytes,
      UuidGrammar s ∧ isValid cc s = .ok true [] ∧
          (∃ u, UUID.ofString cc s = .ok u ∧ u.toText cc = s.map toLower) ∨
        ¬ UuidGrammar s ∧ isValid cc s = .ok false s ∧
          ∃ m, UUID.ofString cc s = .error (.invalidArgument m)) ∧
    ∀ u : UUID, UUID.ofString cc (u.toText cc) = .ok u := by
  constructor
  · intro s
    obtain ⟨hyes, hno⟩ := isValid_spec h s
    rw [← matches_uuidTemplate_iff]
    by_cases hs : Matches uuidTemplate s
    · obtain ⟨u, hu, hbytes⟩ := UUID.ofString_of_matches h hs
      have hsep : ∀ x, Item.sep x ∈ uuidTemplate → toLower x = x := by
        intro x hx
        have hdash : x = dash := by simpa [uuidTemplate] using hx
        rw [hdash]
        rfl
      refine Or.inl ⟨hs, hyes hs, u, hu, ?_⟩
      rw [UUID.toText_eq h, hbytes, encode_decode hs hsep]
    · exact Or.inr ⟨hs, hno hs, UUID.ofString_of_not_matches h hs⟩
  · intro u
    have hsize : u.bytes.toList.length = size uuidTemplate := by
      rw [Vector.length_toList]
      rfl
    rw [UUID.toText_eq h]
    obtain ⟨v, hv, hbytes⟩ := UUID.ofString_of_matches h (matches_encode hsize)
    rw [decode_encode hsize, Vector.toList_inj] at hbytes
    have huv : v = u := by
      cases u
      cases v
      exact congrArg UUID.mk hbytes
    rw [hv, huv]

/-- The character functions for ASCII. -/
def CharClassify.ascii : CharClassify where
  hexdigit c := if IsDigit c then value c else 255
  hexdec c d := if IsDigit c ∧ IsDigit d then 16 * value c + value d else -1
  charRepr b := [digit (b.toNat / 16), digit (b.toNat % 16)]

theorem CharClassify.documented_ascii : CharClassify.ascii.Documented where
  hexdigit_lt c := by
    simp only [ascii]
    split_ifs with hc
    · exact iff_of_true (value_lt hc) hc
    · exact iff_of_false (by decide) hc
  hexdec_digits c d hc hd := if_pos ⟨hc, hd⟩
  hexdec_neg c d hcd := by
    simp only [ascii, if_neg hcd]
    decide
  charRepr_eq b := rfl

/-- A text with an upper-case digit. -/
theorem text_spec_upper : ∃ u, UUID.ofString .ascii (List.replicate 8 0x30 ++ dash ::
      (List.replicate 4 0x31 ++ dash :: (List.replicate 4 0x32 ++ dash ::
        (List.replicate 4 0x33 ++ dash :: List.replicate 12 0x41)))) = .ok u ∧
    u.toText .ascii = List.replicate 8 0x30 ++ dash :: (List.replicate 4 0x31 ++ dash ::
      (List.replicate 4 0x32 ++ dash :: (List.replicate 4 0x33 ++ dash ::
        List.replicate 12 0x61))) := by
  rcases (text_spec CharClassify.documented_ascii).1 (List.replicate 8 0x30 ++ dash ::
      (List.replicate 4 0x31 ++ dash :: (List.replicate 4 0x32 ++ dash ::
        (List.replicate 4 0x33 ++ dash :: List.replicate 12 0x41)))) with
    ⟨-, -, u, hu, htext⟩ | ⟨hno, -⟩
  · exact ⟨u, hu, htext⟩
  · refine absurd ⟨_, _, _, _, _, rfl, rfl, rfl, rfl, rfl, rfl, ?_⟩ hno
    simp only [List.mem_append, List.mem_replicate]
    rintro x ((((⟨-, rfl⟩ | ⟨-, rfl⟩) | ⟨-, rfl⟩) | ⟨-, rfl⟩) | ⟨-, rfl⟩) <;> decide

end Cuuid
