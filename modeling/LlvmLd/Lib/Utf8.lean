import LlvmLd.Lib.Bytes

/-!
The byte sequences that encode one non-NUL Unicode scalar value, by their bytes.
-/

namespace LlvmLd.Utf8

/-- The shortest-form encoding of a scalar value other than NUL. -/
def Encodes (bytes : Bytes) (char : Char) : Prop :=
  char ≠ '\x00' ∧ String.utf8EncodeChar char = bytes

def Encoded (bytes : Bytes) : Prop := ∃ char, Encodes bytes char

def Tail (b : UInt8) : Prop := 0x80 ≤ b.toNat ∧ b.toNat < 0xC0

/-- A lead byte and its first continuation byte that leave out the overlong forms, the
surrogates and everything above U+10FFFF. -/
def FirstTail (lead first : UInt8) : Prop :=
  (lead.toNat = 0xE0 → 0xA0 ≤ first.toNat) ∧ (lead.toNat = 0xED → first.toNat < 0xA0) ∧
    (lead.toNat = 0xF0 → 0x90 ≤ first.toNat) ∧ (lead.toNat = 0xF4 → first.toNat < 0x90)

theorem ne_nul_iff (char : Char) : char ≠ '\x00' ↔ 0 < char.toNat := by
  rw [ne_eq, Char.ext_iff, UInt32.ext_iff]
  exact Nat.pos_iff_ne_zero.symm

/-- A scalar value is below the surrogates or above them. -/
theorem scalar_range (char : Char) :
    char.toNat < 0xD800 ∨ 0xDFFF < char.toNat ∧ char.toNat < 0x110000 :=
  char.valid

theorem exists_scalar (v : Nat) (scalar : v < 0xD800 ∨ 0xDFFF < v ∧ v < 0x110000) :
    ∃ char : Char, char.toNat = v := by
  refine ⟨Char.ofNat v, ?_⟩
  rw [Char.ofNat, dif_pos scalar]
  rfl

private theorem ofNat_eq_iff (v : Nat) (b : UInt8) :
    UInt8.ofNat v = b ↔ v % 256 = b.toNat := by
  rw [← UInt8.toNat_inj, UInt8.toNat_ofNat']

theorem encodes_one (a : UInt8) (char : Char) :
    Encodes [a] char ↔ char.toNat = a.toNat ∧ 0 < a.toNat ∧ a.toNat < 0x80 := by
  have small := a.toNat_lt
  simp only [Encodes]
  rw [ne_nul_iff]
  fun_cases String.utf8EncodeChar char
  all_goals
    simp only [List.cons.injEq, and_true, reduceCtorEq, and_false, false_iff, ofNat_eq_iff,
      Char.toNat] at *
    omega

theorem encodes_two (a b : UInt8) (char : Char) :
    Encodes [a, b] char ↔ char.toNat = 64 * (a.toNat - 0xC0) + (b.toNat - 0x80) ∧
      (0xC2 ≤ a.toNat ∧ a.toNat < 0xE0) ∧ Tail b := by
  have small := a.toNat_lt
  have small' := b.toNat_lt
  simp only [Encodes, Tail]
  rw [ne_nul_iff]
  fun_cases String.utf8EncodeChar char
  all_goals
    simp only [List.cons.injEq, and_true, reduceCtorEq, and_false, false_iff, ofNat_eq_iff,
      Char.toNat] at *
    omega

theorem encodes_three (a b c : UInt8) (char : Char) :
    Encodes [a, b, c] char ↔
      char.toNat = 4096 * (a.toNat - 0xE0) + 64 * (b.toNat - 0x80) + (c.toNat - 0x80) ∧
      (0xE0 ≤ a.toNat ∧ a.toNat < 0xF0) ∧ FirstTail a b ∧ Tail b ∧ Tail c := by
  have small := a.toNat_lt
  have small' := b.toNat_lt
  have small'' := c.toNat_lt
  have range := scalar_range char
  simp only [Encodes, Tail, FirstTail]
  rw [ne_nul_iff]
  fun_cases String.utf8EncodeChar char
  all_goals
    simp only [List.cons.injEq, and_true, reduceCtorEq, and_false, false_iff, ofNat_eq_iff,
      Char.toNat] at *
    omega

theorem encodes_four (a b c d : UInt8) (char : Char) :
    Encodes [a, b, c, d] char ↔
      char.toNat = 262144 * (a.toNat - 0xF0) + 4096 * (b.toNat - 0x80) +
        64 * (c.toNat - 0x80) + (d.toNat - 0x80) ∧
      (0xF0 ≤ a.toNat ∧ a.toNat < 0xF5) ∧ FirstTail a b ∧ Tail b ∧ Tail c ∧ Tail d := by
  have small := a.toNat_lt
  have small' := b.toNat_lt
  have small'' := c.toNat_lt
  have last := d.toNat_lt
  have range := scalar_range char
  simp only [Encodes, Tail, FirstTail]
  rw [ne_nul_iff]
  fun_cases String.utf8EncodeChar char
  all_goals
    simp only [List.cons.injEq, and_true, reduceCtorEq, and_false, false_iff, ofNat_eq_iff,
      Char.toNat] at *
    omega

/-! ### Which bytes encode something -/

theorem encoded_one_iff (a : UInt8) : Encoded [a] ↔ 0 < a.toNat ∧ a.toNat < 0x80 := by
  constructor
  · rintro ⟨char, encodes⟩
    exact ((encodes_one a char).mp encodes).2
  · intro shape
    obtain ⟨char, number⟩ := exists_scalar a.toNat (by omega)
    exact ⟨char, (encodes_one a char).mpr ⟨number, shape⟩⟩

theorem encoded_two_iff (a b : UInt8) :
    Encoded [a, b] ↔ (0xC2 ≤ a.toNat ∧ a.toNat < 0xE0) ∧ Tail b := by
  constructor
  · rintro ⟨char, encodes⟩
    exact ((encodes_two a b char).mp encodes).2
  · intro shape
    obtain ⟨char, number⟩ := exists_scalar (64 * (a.toNat - 0xC0) + (b.toNat - 0x80))
      (by unfold Tail at shape; omega)
    exact ⟨char, (encodes_two a b char).mpr ⟨number, shape⟩⟩

theorem encoded_three_iff (a b c : UInt8) :
    Encoded [a, b, c] ↔
      (0xE0 ≤ a.toNat ∧ a.toNat < 0xF0) ∧ FirstTail a b ∧ Tail b ∧ Tail c := by
  constructor
  · rintro ⟨char, encodes⟩
    exact ((encodes_three a b c char).mp encodes).2
  · intro shape
    obtain ⟨char, number⟩ := exists_scalar
      (4096 * (a.toNat - 0xE0) + 64 * (b.toNat - 0x80) + (c.toNat - 0x80))
      (by unfold FirstTail Tail at shape; omega)
    exact ⟨char, (encodes_three a b c char).mpr ⟨number, shape⟩⟩

theorem encoded_four_iff (a b c d : UInt8) :
    Encoded [a, b, c, d] ↔
      (0xF0 ≤ a.toNat ∧ a.toNat < 0xF5) ∧ FirstTail a b ∧ Tail b ∧ Tail c ∧ Tail d := by
  constructor
  · rintro ⟨char, encodes⟩
    exact ((encodes_four a b c d char).mp encodes).2
  · intro shape
    obtain ⟨char, number⟩ := exists_scalar
      (262144 * (a.toNat - 0xF0) + 4096 * (b.toNat - 0x80) + 64 * (c.toNat - 0x80) +
        (d.toNat - 0x80))
      (by unfold FirstTail Tail at shape; omega)
    exact ⟨char, (encodes_four a b c d char).mpr ⟨number, shape⟩⟩

theorem Encoded.length_range (bytes : Bytes) (encoded : Encoded bytes) :
    1 ≤ bytes.length ∧ bytes.length ≤ 4 := by
  obtain ⟨char, -, rfl⟩ := encoded
  fun_cases String.utf8EncodeChar char <;> simp

/-- The concatenation of the encodings of some scalar values other than NUL. -/
def Valid (bytes : Bytes) : Prop :=
  ∃ chars : List Char, (∀ char ∈ chars, char ≠ '\x00') ∧
    bytes = chars.flatMap String.utf8EncodeChar

theorem valid_nil : Valid [] := ⟨[], by simp, rfl⟩

theorem valid_append (bytes rest : Bytes) (encoded : Encoded bytes) (valid : Valid rest) :
    Valid (bytes ++ rest) := by
  obtain ⟨char, nonzero, rfl⟩ := encoded
  obtain ⟨chars, others, rfl⟩ := valid
  refine ⟨char :: chars, ?_, rfl⟩
  intro c member
  rcases List.mem_cons.mp member with rfl | later
  · exact nonzero
  · exact others c later

theorem valid_cases (bytes : Bytes) (valid : Valid bytes) :
    bytes = [] ∨ ∃ one rest, bytes = one ++ rest ∧ Encoded one ∧ Valid rest := by
  obtain ⟨chars, nonzero, rfl⟩ := valid
  cases chars with
  | nil => exact Or.inl rfl
  | cons char chars =>
    refine Or.inr ⟨String.utf8EncodeChar char, chars.flatMap String.utf8EncodeChar, rfl, ?_, ?_⟩
    · exact ⟨char, nonzero char (List.mem_cons_self ..), rfl⟩
    · exact ⟨chars, fun c later => nonzero c (List.mem_cons_of_mem _ later), rfl⟩

theorem Valid.no_nul (bytes : Bytes) (valid : Valid bytes) : (0 : UInt8) ∉ bytes := by
  obtain ⟨chars, nonzero, rfl⟩ := valid
  intro member
  obtain ⟨char, inChars, nul⟩ := List.mem_flatMap.mp member
  have encoded : Encoded (String.utf8EncodeChar char) := ⟨char, nonzero char inChars, rfl⟩
  have size := encoded.length_range
  generalize String.utf8EncodeChar char = one at nul encoded size
  -- by the length of the encoding: each byte of it has a range that leaves out zero
  rcases one with _ | ⟨a, _ | ⟨b, _ | ⟨c, _ | ⟨d, _ | ⟨e, rest⟩⟩⟩⟩⟩
  · cases nul
  · rw [encoded_one_iff] at encoded
    simp only [List.mem_singleton] at nul
    simp [← nul] at encoded
  · rw [encoded_two_iff] at encoded
    simp only [Tail] at encoded
    simp only [List.mem_cons, List.not_mem_nil, or_false] at nul
    rcases nul with rfl | rfl <;> simp at encoded
  · rw [encoded_three_iff] at encoded
    simp only [Tail] at encoded
    simp only [List.mem_cons, List.not_mem_nil, or_false] at nul
    rcases nul with rfl | rfl | rfl <;> simp at encoded
  · rw [encoded_four_iff] at encoded
    simp only [Tail] at encoded
    simp only [List.mem_cons, List.not_mem_nil, or_false] at nul
    rcases nul with rfl | rfl | rfl | rfl <;> simp at encoded
  · simp only [List.length_cons] at size
    omega

end LlvmLd.Utf8
