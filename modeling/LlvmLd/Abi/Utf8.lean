import LlvmLd.Abi.Invoke
import LlvmLd.Lib.Utf8

/-!
What `valid_utf8` accepts. The lead byte alone fixes how many bytes follow it, so one round of the
loop consumes the only prefix that can be an encoding, and rejects when that prefix is none.
-/

namespace LlvmLd.Abi

open Utf8

private theorem continuation_iff (b : UInt8) : b &&& 0xC0 = 0x80 ↔ Tail b := by
  have table : ∀ k : Fin 256, UInt8.ofNat k &&& 0xC0 = 0x80 ↔
      0x80 ≤ k.val ∧ k.val < 0xC0 := by decide +kernel
  have here := table ⟨b.toNat, b.toNat_lt⟩
  simpa only [UInt8.ofNat_toNat, Tail] using here

private theorem utf8BadSecond_iff (c first : UInt8) :
    utf8BadSecond c first = false ↔ FirstTail c first := by
  simp only [utf8BadSecond, FirstTail, Bool.or_eq_false_iff, Bool.and_eq_false_iff,
    beq_eq_false_iff_ne, decide_eq_false_iff_not, ne_eq, UInt8.lt_iff_toNat_lt,
    UInt8.le_iff_toNat_le, ← UInt8.toNat_inj]
  simp
  omega

private theorem utf8Extra_cases (c : UInt8) :
    (utf8Extra c = 1 ∧ 0xC2 ≤ c.toNat ∧ c.toNat < 0xE0) ∨
    (utf8Extra c = 2 ∧ 0xE0 ≤ c.toNat ∧ c.toNat < 0xF0) ∨
    (utf8Extra c = 3 ∧ 0xF0 ≤ c.toNat ∧ c.toNat < 0xF5) ∨
    (utf8Extra c = 99 ∧ (c.toNat < 0xC2 ∨ 0xF5 ≤ c.toNat)) := by
  simp only [utf8Extra, UInt8.le_iff_toNat_le]
  simp
  split_ifs <;> omega

private theorem utf8Continuations_spec (s : Bytes) (extra i : Nat)
    (inside : i + extra ≤ s.length) :
    ∃ good, utf8Continuations s i extra = some good ∧
      (good = true ↔ ∀ b ∈ s.slice i extra, Tail b) := by
  induction extra generalizing i with
  | zero => exact ⟨true, rfl, by simp [Bytes.slice]⟩
  | succ extra ih =>
    have below : i < s.length := by omega
    rw [slice_cons s i extra below]
    simp only [utf8Continuations, List.getElem?_eq_getElem below, Option.bind_eq_bind,
      Option.bind_some, List.forall_mem_cons, ← continuation_iff, bne_iff_ne]
    by_cases continues : s[i] &&& 0xC0 = 0x80
    · obtain ⟨good, run, exactly⟩ := ih (i + 1) (by omega)
      refine ⟨good, by rw [if_neg (not_not.mpr continues), run], ?_⟩
      simp only [exactly, continues, true_and, continuation_iff]
    · exact ⟨false, if_pos continues, by simp [continues]⟩

/-- The lead byte of an encoding says how many continuation bytes follow. -/
private theorem encoded_cons_iff (c : UInt8) (rest : Bytes) :
    Encoded (c :: rest) ↔
      (0 < c.toNat ∧ c.toNat < 0x80 ∧ rest = []) ∨
      (0x80 ≤ c.toNat ∧ utf8Extra c = rest.length ∧ rest.length ≤ 3 ∧
        FirstTail c (rest.headD 0) ∧ ∀ b ∈ rest, Tail b) := by
  have lead := utf8Extra_cases c
  -- by the number of bytes, of which five or more encode nothing
  rcases rest with _ | ⟨a, _ | ⟨b, _ | ⟨d, _ | ⟨e, rest⟩⟩⟩⟩
  · rw [encoded_one_iff]
    simp
    omega
  · rw [encoded_two_iff]
    simp [FirstTail, Tail]
    omega
  · rw [encoded_three_iff]
    simp [FirstTail, Tail]
    omega
  · rw [encoded_four_iff]
    simp [FirstTail, Tail]
    omega
  · have short := Encoded.length_range (c :: a :: b :: d :: e :: rest)
    simp only [List.length_cons, reduceCtorEq, and_false, false_or] at short ⊢
    constructor
    · intro encoded
      have := short encoded
      omega
    · rintro ⟨-, -, long, -⟩
      omega

/-- The encodings that the bytes from `i` on start with, by their lead byte. -/
private theorem encoded_slice_iff (s : Bytes) (i extra : Nat) (c : UInt8)
    (inside : i + extra < s.length) (lead : s[i]? = some c) :
    Encoded (s.slice i (extra + 1)) ↔
      (0 < c.toNat ∧ c.toNat < 0x80 ∧ extra = 0) ∨
      (0x80 ≤ c.toNat ∧ utf8Extra c = extra ∧ extra ≤ 3 ∧
        FirstTail c (s.getD (i + 1) 0) ∧ ∀ b ∈ s.slice (i + 1) extra, Tail b) := by
  have length := length_slice s (i + 1) extra (by omega)
  have extras := utf8Extra_cases c
  -- the byte behind the lead is the first of the tail
  have next : 0 < extra → (s.slice (i + 1) extra).headD 0 = s.getD (i + 1) 0 := by
    intro some
    obtain ⟨more, rfl⟩ := Nat.exists_eq_succ_of_ne_zero some.ne'
    rw [slice_cons s (i + 1) more (by omega), List.headD_cons, List.getD_eq_getElem?_getD,
      List.getElem?_eq_getElem (by omega), Option.getD_some]
  rw [slice_cons s i extra (by omega), (List.getElem_eq_iff (by omega)).mpr lead,
    encoded_cons_iff, length, ← List.length_eq_zero_iff, length]
  apply or_congr Iff.rfl
  constructor
  · rintro ⟨high, counted, few, first, tails⟩
    exact ⟨high, counted, few, next (by omega) ▸ first, tails⟩
  · rintro ⟨high, counted, few, first, tails⟩
    exact ⟨high, counted, few, (next (by omega)).symm ▸ first, tails⟩

/-- One round consumes the only encoding that the rest starts with, or rejects when there is
none. -/
private theorem validUtf8From_round (s : Bytes) (fuel i : Nat) (below : i < s.length) :
    (∃ extra, i + extra < s.length ∧ Encoded (s.slice i (extra + 1)) ∧
      (∀ k, i + k < s.length → Encoded (s.slice i (k + 1)) → k = extra) ∧
      validUtf8From s s.length (fuel + 1) i =
        validUtf8From s s.length fuel (i + 1 + extra)) ∨
    ((∀ k, i + k < s.length → ¬ Encoded (s.slice i (k + 1))) ∧
      validUtf8From s s.length (fuel + 1) i = some false) := by
  obtain ⟨c, lead⟩ : ∃ c, s[i]? = some c := ⟨s[i], List.getElem?_eq_getElem below⟩
  have shape := fun k inside => encoded_slice_iff s i k c inside lead
  have extras := utf8Extra_cases c
  rw [validUtf8From, if_neg (Nat.not_le.mpr below), lead, Option.bind_eq_bind, Option.bind_some]
  -- Each test of the loop either settles the round or leaves its negation to the next one.
  by_cases nul : c = 0
  · subst nul
    refine Or.inr ⟨?_, rfl⟩
    intro k inside encoded
    rw [shape k inside] at encoded
    simp at encoded
  have positive : 0 < c.toNat := Nat.pos_of_ne_zero (fun zero => nul (UInt8.toNat_inj.mp zero))
  rw [if_neg (by simpa using nul)]
  by_cases ascii : c < 0x80
  · have low : c.toNat < 0x80 := by simpa [UInt8.lt_iff_toNat_lt] using ascii
    rw [if_pos ascii]
    refine Or.inl ⟨0, by omega, (shape 0 (by omega)).mpr (Or.inl ⟨positive, low, rfl⟩), ?_, rfl⟩
    intro k inside encoded
    rw [shape k inside] at encoded
    omega
  have high : 0x80 ≤ c.toNat := by simpa [UInt8.lt_iff_toNat_lt] using ascii
  rw [if_neg ascii]
  by_cases short : utf8Extra c = 99 ∨ s.length < i + 1 + utf8Extra c
  · refine Or.inr ⟨?_, by simp [short]⟩
    intro k inside encoded
    rw [shape k inside] at encoded
    omega
  obtain ⟨known, fits⟩ := not_or.mp short
  have some_ : i + 1 < s.length := by omega
  rw [if_neg (by simp [short]), List.getElem?_eq_getElem some_, Option.bind_some]
  have first : s.getD (i + 1) 0 = s[i + 1] := by
    rw [List.getD_eq_getElem?_getD, List.getElem?_eq_getElem some_, Option.getD_some]
  by_cases bad : utf8BadSecond c s[i + 1] = true
  · refine Or.inr ⟨?_, by simp [bad]⟩
    intro k inside encoded
    rw [shape k inside, first, ← utf8BadSecond_iff, bad] at encoded
    simp at encoded
    omega
  obtain ⟨good, run, exactly⟩ := utf8Continuations_spec s (utf8Extra c) (i + 1) (by omega)
  rw [if_neg bad, run, Option.bind_eq_bind, Option.bind_some]
  -- Past the tests the first byte fixes the length, so no other one can encode.
  have only : ∀ k, i + k < s.length → Encoded (s.slice i (k + 1)) → k = utf8Extra c := by
    intro k inside encoded
    rw [shape k inside] at encoded
    omega
  cases good with
  | true =>
    refine Or.inl ⟨utf8Extra c, by omega, ?_, only, rfl⟩
    rw [shape _ (by omega), first, ← utf8BadSecond_iff]
    exact Or.inr ⟨high, rfl, by omega, by simpa using bad, exactly.mp rfl⟩
  | false =>
    refine Or.inr ⟨?_, rfl⟩
    intro k inside encoded
    obtain rfl := only k inside encoded
    rw [shape _ inside, ← exactly] at encoded
    simp at encoded
    omega

/-- A valid string starts with an encoding that ends inside it, or is empty. -/
private theorem valid_drop_iff (s : Bytes) (i : Nat) (below : i < s.length) :
    Valid (s.drop i) ↔ ∃ extra, i + extra < s.length ∧ Encoded (s.slice i (extra + 1)) ∧
      Valid (s.drop (i + 1 + extra)) := by
  constructor
  · intro valid
    rcases valid_cases (s.drop i) valid with empty | ⟨one, rest, split, encoded, later⟩
    · have := congrArg List.length empty
      simp at this
      omega
    -- a string that is valid starts with one encoding, and what is behind it is valid
    · have size := encoded.length_range
      have bound := congrArg List.length split
      simp only [List.length_drop, List.length_append] at bound
      refine ⟨one.length - 1, by omega, ?_, ?_⟩
      · rw [Nat.sub_add_cancel size.1, Bytes.slice, split, List.take_left]
        exact encoded
      · have start : i + 1 + (one.length - 1) = i + one.length := by omega
        rw [start, ← List.drop_drop, split, List.drop_left]
        exact later
  · rintro ⟨extra, -, encoded, later⟩
    rw [drop_eq_slice_append s i (extra + 1), ← Nat.add_assoc, Nat.add_right_comm i extra 1]
    exact valid_append _ _ encoded later

/-- The loop from `i` on: it faults nowhere and accepts exactly the valid strings. -/
private theorem validUtf8From_spec (s : Bytes) (fuel i : Nat) (enough : s.length ≤ i + fuel) :
    ∃ accepted, validUtf8From s s.length fuel i = some accepted ∧
      (accepted = true ↔ Valid (s.drop i)) := by
  induction fuel generalizing i with
  | zero =>
    refine ⟨true, rfl, ?_⟩
    rw [List.drop_of_length_le (by omega)]
    simp [valid_nil]
  | succ fuel ih =>
    by_cases below : i < s.length
    · rw [valid_drop_iff s i below]
      -- a round accepts the one encoding at this place, or finds none
      rcases validUtf8From_round s fuel i below with
        ⟨extra, inside, encoded, only, round⟩ | ⟨nothing, round⟩
      · obtain ⟨accepted, run, exactly⟩ := ih (i + 1 + extra) (by omega)
        refine ⟨accepted, round.trans run, exactly.trans ?_⟩
        constructor
        · intro valid
          exact ⟨extra, inside, encoded, valid⟩
        · rintro ⟨k, inside', encoded', valid⟩
          obtain rfl := only k inside' encoded'
          exact valid
      · refine ⟨false, round, ?_⟩
        simp only [Bool.false_eq_true, false_iff, not_exists, not_and]
        intro k inside encoded
        exact absurd encoded (nothing k inside)
    · refine ⟨true, by rw [validUtf8From, if_pos (by omega)], ?_⟩
      simp [List.drop_of_length_le (Nat.not_lt.mp below), valid_nil]

private theorem getElem?_take (s : Bytes) (n i : Nat) (inside : i < n) : (s.take n)[i]? = s[i]? :=
  List.getElem?_take_of_lt inside

private theorem utf8Continuations_take (s : Bytes) (n extra i : Nat) (inside : i + extra ≤ n) :
    utf8Continuations (s.take n) i extra = utf8Continuations s i extra := by
  induction extra generalizing i with
  | zero => rfl
  | succ extra ih =>
    rw [utf8Continuations, utf8Continuations, getElem?_take s n i (by omega),
      ih (i + 1) (by omega)]

/-- Nothing behind the stated length is read. -/
private theorem validUtf8From_take (s : Bytes) (n fuel i : Nat) :
    validUtf8From (s.take n) n fuel i = validUtf8From s n fuel i := by
  induction fuel generalizing i with
  | zero => rfl
  | succ fuel ih =>
    rw [validUtf8From, validUtf8From]
    by_cases past : n ≤ i
    · rw [if_pos past, if_pos past]
    rw [if_neg past, if_neg past, getElem?_take s n i (by omega)]
    refine Option.bind_congr (fun c _ => ?_)
    rw [ih]
    split
    · rfl
    split
    · rfl
    by_cases short : (utf8Extra c == 99 || decide (n < i + 1 + utf8Extra c)) = true
    · simp only [short, if_true]
    simp only [short, Bool.false_eq_true, if_false]
    -- a byte behind the first is only read when there is one below the end
    have positive : 1 ≤ utf8Extra c := by
      have extras := utf8Extra_cases c
      omega
    simp only [Bool.or_eq_true, decide_eq_true_eq, not_or] at short
    rw [getElem?_take s n (i + 1) (by omega)]
    refine Option.bind_congr (fun first _ => ?_)
    rw [utf8Continuations_take s n _ _ (by omega), ih]

/-- A buffer may be longer than the stated length. -/
theorem validUtf8_spec (s : Bytes) (n : Nat) (inside : n ≤ s.length) :
    ∃ accepted, validUtf8 s n = some accepted ∧ (accepted = true ↔ Valid (s.take n)) := by
  have length : (s.take n).length = n := List.length_take_of_le inside
  have spec := validUtf8From_spec (s.take n) n 0 (by omega)
  rw [length, List.drop_zero] at spec
  rw [validUtf8, ← validUtf8From_take]
  exact spec

/-- `valid_utf8` reads inside the buffer only and accepts the concatenated shortest-form encodings
of scalar values other than NUL, and nothing else. -/
theorem validUtf8_iff_scalar_values (s : Bytes) :
    ∃ accepted, validUtf8 s s.length = some accepted ∧
      (accepted = true ↔ ∃ chars : List Char, (∀ char ∈ chars, char ≠ '\x00') ∧
        s = chars.flatMap String.utf8EncodeChar) :=
  validUtf8From_spec s s.length 0 (by omega)

-- U+20AC, then a surrogate half in the same three-byte form
example : validUtf8 [0xE2, 0x82, 0xAC] 3 = some true ∧ validUtf8 [0xED, 0xA0, 0x80] 3 = some false
  := by decide

end LlvmLd.Abi
