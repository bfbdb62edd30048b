import LlvmLd.Lib.Fields
import LlvmLd.Writer.Relocation

/-!
Branch relocations against the encodings of the instructions: what `isInRange` accepts, what the
encoders reject, and where a patched branch goes.
-/

namespace LlvmLd.Writer

open Memory Fields

/-! ### Branch instructions -/

inductive Branch where
  | branch20T | branch24T | blx23T | branch26 | branch19 | branch14
  deriving DecidableEq, Repr

def Branch.type : Branch → Nat
  | .branch20T => relArmBranch20T
  | .branch24T => relArmBranch24T
  | .blx23T => relArmBlx23T
  | .branch26 => relArm64Branch26
  | .branch19 => relArm64Branch19
  | .branch14 => relArm64Branch14

def Branch.isThumb : Branch → Bool
  | .branch20T | .branch24T | .blx23T => true
  | _ => false

def Branch.runsOn (b : Branch) (machine : Machine) : Bool :=
  if b.isThumb then machine = .armnt else machine.isAnyArm64

/-- Instructions have two bytes or a multiple in Thumb code, and four on ARM64. -/
def Branch.alignment (b : Branch) : Nat := if b.isThumb then 2 else 4

/-- The displacement bits of the two halfwords of a Thumb branch, or of an ARM64 word. -/
def Branch.fieldMask16 : Branch → BitVec 16 × BitVec 16
  | .branch20T => (0x043f, 0x2fff)
  | _ => (0x07ff, 0x2fff)

def Branch.fieldMask32 : Branch → BitVec 32
  | .branch19 => 0x00ffffe0
  | .branch14 => 0x0007ffe0
  | _ => 0x03ffffff

/-- The displacement is zero; J1 and J2 of a T4 branch may hold anything. -/
def Branch.Blank (b : Branch) (m : Mem) (off : Int) : Prop :=
  match b with
  | .branch20T => read16 m off &&& 0x043f = 0 ∧ read16 m (off + 2) &&& 0x2fff = 0
  | .branch24T | .blx23T => read16 m off &&& 0x07ff = 0 ∧ read16 m (off + 2) &&& 0x07ff = 0
  | _ => read32 m off &&& b.fieldMask32 = 0

/-- The bits outside the displacement are the same. -/
def Branch.Keeps (b : Branch) (m n : Mem) (off : Int) : Prop :=
  if b.isThumb then
    read16 n off &&& ~~~b.fieldMask16.1 = read16 m off &&& ~~~b.fieldMask16.1 ∧
      read16 n (off + 2) &&& ~~~b.fieldMask16.2 = read16 m (off + 2) &&& ~~~b.fieldMask16.2
  else read32 n off &&& ~~~b.fieldMask32 = read32 m off &&& ~~~b.fieldMask32

/-- S:J2:J1:imm6:imm11:0. -/
def decodeT3 (hw1 hw2 : BitVec 16) : BitVec 21 :=
  field 21 hw1 10 1 20 ||| field 21 hw2 11 1 19 ||| field 21 hw2 13 1 18 ||| field 21 hw1 0 6 12 |||
    field 21 hw2 0 11 1

/-- S:NOT(J1 xor S):NOT(J2 xor S):imm10:imm11:0. -/
def decodeT4 (hw1 hw2 : BitVec 16) : BitVec 25 :=
  let s := field 1 hw1 10 1 0
  let i1 := ~~~(field 1 hw2 13 1 0 ^^^ s)
  let i2 := ~~~(field 1 hw2 11 1 0 ^^^ s)
  field 25 s 0 1 24 ||| field 25 i1 0 1 23 ||| field 25 i2 0 1 22 ||| field 25 hw1 0 10 12 |||
    field 25 hw2 0 11 1

def decodeImm26 (word : BitVec 32) : BitVec 28 := field 28 word 0 26 2

def decodeImm19 (word : BitVec 32) : BitVec 21 := field 21 word 5 19 2

def decodeImm14 (word : BitVec 32) : BitVec 16 := field 16 word 5 14 2

/--
The branch at `off`, placed at address `p`, goes to `s`. Thumb branches are relative to `p + 4` and
run in a 32-bit address space.
-/
def Branch.GoesTo (b : Branch) (m : Mem) (off : Int) (p : BitVec 32) (s : BitVec 64) : Prop :=
  match b with
  | .branch20T =>
      p + 4 + (decodeT3 (read16 m off) (read16 m (off + 2))).signExtend 32 = s.setWidth 32
  | .branch24T | .blx23T =>
      p + 4 + (decodeT4 (read16 m off) (read16 m (off + 2))).signExtend 32 = s.setWidth 32
  | .branch26 => p.setWidth 64 + (decodeImm26 (read32 m off)).signExtend 64 = s
  | .branch19 => p.setWidth 64 + (decodeImm19 (read32 m off)).signExtend 64 = s
  | .branch14 => p.setWidth 64 + (decodeImm14 (read32 m off)).signExtend 64 = s

/-! ### Encoded displacements -/

private theorem signBit_getLsbD (v : BitVec 32) (i : Nat) :
    (signBit v).getLsbD i = (decide (i = 0) && v.msb) := by
  rw [signBit, BitVec.msb_eq_toInt]
  by_cases negative : v.toInt < 0
  · simp [negative, BitVec.getLsbD_one]
  · simp [negative]

/-- The two halfwords that `applyBranch20T` adds. -/
def branch20Bits (v : BitVec 32) : BitVec 16 × BitVec 16 :=
  (((signBit v <<< 10) ||| (v.sshiftRight 12 &&& 0x3f)).setWidth 16,
    (((v.sshiftRight 19 &&& 1) <<< 13) ||| ((v.sshiftRight 18 &&& 1) <<< 11) |||
      (v.sshiftRight 1 &&& 0x7ff)).setWidth 16)

/-- The two halfwords that `applyBranch24T` adds. -/
def branch24Bits (v : BitVec 32) : BitVec 16 × BitVec 16 :=
  (((signBit v <<< 10) ||| (v.sshiftRight 12 &&& 0x3ff)).setWidth 16,
    ((((~~~v).sshiftRight 23 &&& 1 ^^^ signBit v) <<< 13) |||
      (((~~~v).sshiftRight 22 &&& 1 ^^^ signBit v) <<< 11) |||
      (v.sshiftRight 1 &&& 0x7ff)).setWidth 16)

section Thumb

variable (hw1 hw2 : BitVec 16) (v : BitVec 32)

/-! The bits of the two decodings and of the two encodings, one at a time. -/

private theorem decodeT3_getLsbD (i : Nat) (below : i < 21) : (decodeT3 hw1 hw2).getLsbD i =
    if i = 0 then false
    else if i < 12 then hw2.getLsbD (i - 1)
    else if i < 18 then hw1.getLsbD (i - 12)
    else if i = 18 then hw2.getLsbD 13
    else if i = 19 then hw2.getLsbD 11
    else hw1.getLsbD 10 := by
  simp only [decodeT3, BitVec.getLsbD_or, getLsbD_field]
  interval_cases i
  all_goals simp [-BitVec.getLsbD_eq_getElem]

private theorem decodeT4_getLsbD (i : Nat) (below : i < 25) : (decodeT4 hw1 hw2).getLsbD i =
    if i = 0 then false
    else if i < 12 then hw2.getLsbD (i - 1)
    else if i < 22 then hw1.getLsbD (i - 12)
    else if i = 22 then !(hw2.getLsbD 11 ^^ hw1.getLsbD 10)
    else if i = 23 then !(hw2.getLsbD 13 ^^ hw1.getLsbD 10)
    else hw1.getLsbD 10 := by
  simp only [decodeT4, BitVec.getLsbD_or, getLsbD_field, BitVec.getLsbD_not, BitVec.getLsbD_xor]
  interval_cases i
  all_goals simp [-BitVec.getLsbD_eq_getElem]

private theorem branch20Bits_fst (j : Nat) (below : j < 16) : (branch20Bits v).1.getLsbD j =
    if j < 6 then v.getLsbD (j + 12) else decide (j = 10) && v.msb := by
  simp only [branch20Bits, BitVec.getLsbD_setWidth, BitVec.getLsbD_or, BitVec.getLsbD_shiftLeft,
    BitVec.getLsbD_and, BitVec.getLsbD_sshiftRight, signBit_getLsbD]
  interval_cases j
  all_goals simp [-BitVec.getLsbD_eq_getElem]

private theorem branch20Bits_snd (j : Nat) (below : j < 16) : (branch20Bits v).2.getLsbD j =
    if j < 11 then v.getLsbD (j + 1)
    else if j = 11 then v.getLsbD 18
    else decide (j = 13) && v.getLsbD 19 := by
  simp only [branch20Bits, BitVec.getLsbD_setWidth, BitVec.getLsbD_or, BitVec.getLsbD_shiftLeft,
    BitVec.getLsbD_and, BitVec.getLsbD_sshiftRight]
  interval_cases j
  all_goals simp [-BitVec.getLsbD_eq_getElem]

private theorem branch24Bits_fst (j : Nat) (below : j < 16) : (branch24Bits v).1.getLsbD j =
    if j < 10 then v.getLsbD (j + 12) else decide (j = 10) && v.msb := by
  simp only [branch24Bits, BitVec.getLsbD_setWidth, BitVec.getLsbD_or, BitVec.getLsbD_shiftLeft,
    BitVec.getLsbD_and, BitVec.getLsbD_sshiftRight, signBit_getLsbD]
  interval_cases j
  all_goals simp [-BitVec.getLsbD_eq_getElem]

private theorem branch24Bits_snd (j : Nat) (below : j < 16) : (branch24Bits v).2.getLsbD j =
    if j < 11 then v.getLsbD (j + 1)
    else if j = 11 then !v.getLsbD 22 ^^ v.msb
    else decide (j = 13) && (!v.getLsbD 23 ^^ v.msb) := by
  simp only [branch24Bits, BitVec.getLsbD_setWidth, BitVec.getLsbD_or, BitVec.getLsbD_shiftLeft,
    BitVec.getLsbD_and, BitVec.getLsbD_xor, BitVec.getLsbD_not, BitVec.getLsbD_sshiftRight,
    signBit_getLsbD]
  interval_cases j
  all_goals simp [-BitVec.getLsbD_eq_getElem]

/-- Bit 19 of the decoded displacement is bit 18 of the encoded one. -/
theorem decodeT3_bit (blank2 : hw2 &&& 0x2fff#16 = 0) :
    (decodeT3 (hw1 ||| (branch20Bits v).1) (hw2 ||| (branch20Bits v).2)).getLsbD 19 =
      v.getLsbD 18 := by
  have clear : hw2.getLsbD 11 = false := clear_bit blank2 11 rfl
  rw [decodeT3_getLsbD _ _ 19 (by omega)]
  simp [-BitVec.getLsbD_eq_getElem, branch20Bits_snd, clear]

/-- The bits of an even displacement of `k` bits. -/
theorem even_getLsbD (k i : Nat) (below : i < k) :
    (v.setWidth k &&& ~~~1#k).getLsbD i = (decide (i ≠ 0) && v.getLsbD i) := by
  by_cases zero : i = 0
  · subst zero
    simp [-BitVec.getLsbD_eq_getElem, below]
  · simp [-BitVec.getLsbD_eq_getElem, BitVec.getLsbD_one, below, zero]

theorem decodeT3_encoded (blank1 : hw1 &&& 0x043f#16 = 0) (blank2 : hw2 &&& 0x2fff#16 = 0)
    (fits : Fits 21 v.toInt) (same : v.getLsbD 18 = v.getLsbD 19) :
    decodeT3 (hw1 ||| (branch20Bits v).1) (hw2 ||| (branch20Bits v).2) =
      v.setWidth 21 &&& ~~~1#21 := by
  have clear1 := fun i => clear_bit blank1 i
  have clear2 := fun i => clear_bit blank2 i
  have sign : v.getLsbD 20 = v.msb :=
    getLsbD_of_fits 21 v (by omega) (by omega) fits 20 (by omega) (by omega)
  apply BitVec.eq_of_getLsbD_eq
  intro i below
  rw [decodeT3_getLsbD _ _ i below, even_getLsbD v 21 i below]
  interval_cases i
  all_goals simp [-BitVec.getLsbD_eq_getElem, branch20Bits_fst, branch20Bits_snd, clear1, clear2,
    sign, same]

theorem decodeT4_encoded (blank1 : hw1 &&& 0x07ff#16 = 0) (fits : Fits 25 v.toInt) :
    decodeT4 (hw1 ||| (branch24Bits v).1) ((hw2 &&& 0xd000#16) ||| (branch24Bits v).2) =
      v.setWidth 25 &&& ~~~1#25 := by
  have clear1 := fun i => clear_bit blank1 i
  have sign : v.getLsbD 24 = v.msb :=
    getLsbD_of_fits 25 v (by omega) (by omega) fits 24 (by omega) (by omega)
  apply BitVec.eq_of_getLsbD_eq
  intro i below
  rw [decodeT4_getLsbD _ _ i below, even_getLsbD v 25 i below]
  interval_cases i
  all_goals simp [-BitVec.getLsbD_eq_getElem, branch24Bits_fst, branch24Bits_snd, clear1, sign]

end Thumb

section Word

variable (word : BitVec 32) (v : BitVec 64)

/-- A multiple of 4. -/
def Quadruple (v : BitVec 64) : Prop := v.getLsbD 0 = false ∧ v.getLsbD 1 = false

variable (aligned : Quadruple v)

include aligned in
theorem decodeImm26_encoded (blank : word &&& 0x03ffffff#32 = 0) :
    decodeImm26 (word ||| ((v &&& 0x0FFFFFFC) >>> 2).setWidth 32) = v.setWidth 28 := by
  have clear := fun i => clear_bit blank i
  obtain ⟨low, high⟩ := aligned
  apply BitVec.eq_of_getLsbD_eq
  intro i below
  interval_cases i
  all_goals simp [-BitVec.getLsbD_eq_getElem, decodeImm26, getLsbD_field, clear, low, high]

include aligned in
theorem decodeImm19_encoded (blank : word &&& 0x00ffffe0#32 = 0) :
    decodeImm19 (word ||| ((v &&& 0x001FFFFC) <<< 3).setWidth 32) = v.setWidth 21 := by
  have clear := fun i => clear_bit blank i
  obtain ⟨low, high⟩ := aligned
  apply BitVec.eq_of_getLsbD_eq
  intro i below
  interval_cases i
  all_goals simp [-BitVec.getLsbD_eq_getElem, decodeImm19, getLsbD_field, clear, low, high]

include aligned in
theorem decodeImm14_encoded (blank : word &&& 0x0007ffe0#32 = 0) :
    decodeImm14 (word ||| ((v &&& 0x0000FFFC) <<< 3).setWidth 32) = v.setWidth 16 := by
  have clear := fun i => clear_bit blank i
  obtain ⟨low, high⟩ := aligned
  apply BitVec.eq_of_getLsbD_eq
  intro i below
  interval_cases i
  all_goals simp [-BitVec.getLsbD_eq_getElem, decodeImm14, getLsbD_field, clear, low, high]

end Word

/-! ### Bits outside the displacement -/

theorem branch20Bits_inside (v : BitVec 32) :
    (branch20Bits v).1 &&& ~~~0x043f#16 = 0 ∧ (branch20Bits v).2 &&& ~~~0x2fff#16 = 0 := by
  constructor
  all_goals
    apply BitVec.eq_of_getLsbD_eq
    intro i below
    interval_cases i
    all_goals simp [-BitVec.getLsbD_eq_getElem, branch20Bits, signBit_getLsbD]

theorem branch24Bits_inside (v : BitVec 32) :
    (branch24Bits v).1 &&& ~~~0x07ff#16 = 0 ∧ (branch24Bits v).2 &&& ~~~0x2fff#16 = 0 := by
  constructor
  all_goals
    apply BitVec.eq_of_getLsbD_eq
    intro i below
    interval_cases i
    all_goals simp [-BitVec.getLsbD_eq_getElem, branch24Bits, signBit_getLsbD]

/-! ### Displacements and ranges -/

/-- The displacement of a Thumb branch, without the bit that marks Thumb code. -/
def thumbDisplacement (s : BitVec 64) (p : BitVec 32) : BitVec 32 := s.setWidth 32 - p - 4

private theorem toNat_thumbDisplacement (s : BitVec 64) (p : BitVec 32) :
    (thumbDisplacement s p).toNat = (s.toNat + (2 ^ 33 - 4 - p.toNat)) % 2 ^ 32 := by
  have place := p.isLt
  rw [thumbDisplacement, BitVec.toNat_sub, BitVec.toNat_sub, BitVec.toNat_setWidth]
  change (2 ^ 32 - 4 + _) % 2 ^ 32 = _
  omega

theorem thumbDisplacement_even (s : BitVec 64) (p : BitVec 32) (target : 2 ∣ s.toNat)
    (place : 2 ∣ p.toNat) : (thumbDisplacement s p).getLsbD 0 = false := by
  have below := p.isLt
  have even : (thumbDisplacement s p).toNat % 2 = 0 := by
    rw [toNat_thumbDisplacement]
    omega
  rw [← BitVec.testBit_toNat, Nat.testBit_zero, even]
  rfl

/-- What the encoders get is the displacement, or one more for a target in executable code. -/
theorem thumb_argument (os : Option SymbolSection) (s : BitVec 64) (p : BitVec 32)
    (target : 2 ∣ s.toNat) :
    ((if os.any (·.memExecute) then s ||| 1 else s) - p.setWidth 64 - 4).setWidth 32 =
        thumbDisplacement s p ∨
      ((if os.any (·.memExecute) then s ||| 1 else s) - p.setWidth 64 - 4).setWidth 32 =
        thumbDisplacement s p + 1 := by
  have place := p.isLt
  have wide := s.isLt
  -- the Thumb bit is set for code, and an even target has room for it
  by_cases code : os.any (·.memExecute) = true
  · right
    have even : s.getLsbD 0 = false := by
      rw [← BitVec.testBit_toNat, Nat.testBit_zero]
      simp only [decide_eq_false_iff_not]
      omega
    rw [if_pos code]
    change ((s ||| 1#64) - p.setWidth 64 - 4).setWidth 32 = _
    rw [or_one_eq_add s even]
    apply BitVec.eq_of_toNat_eq
    rw [BitVec.toNat_add, toNat_thumbDisplacement, BitVec.toNat_setWidth, BitVec.toNat_sub,
      BitVec.toNat_sub, BitVec.toNat_add, BitVec.toNat_setWidth]
    change ((2 ^ 64 - 4 + ((2 ^ 64 - p.toNat % 2 ^ 64) + (s.toNat + 1) % 2 ^ 64) % 2 ^ 64) % 2 ^ 64) %
      2 ^ 32 = (_ + 1) % 2 ^ 32
    omega
  · left
    rw [if_neg code]
    apply BitVec.eq_of_toNat_eq
    rw [toNat_thumbDisplacement, BitVec.toNat_setWidth, BitVec.toNat_sub, BitVec.toNat_sub,
      BitVec.toNat_setWidth]
    change ((2 ^ 64 - 4 + ((2 ^ 64 - p.toNat % 2 ^ 64) + s.toNat) % 2 ^ 64) % 2 ^ 64) % 2 ^ 32 = _
    omega

theorem isInt_iff (bits : Nat) (x : Int) : isInt bits x = true ↔ Fits bits x := by
  simp [isInt, Fits]

/-- The writer's range test leaves room for the bit that marks Thumb code. -/
theorem thumb_in_range (bound : Int) (s : BitVec 64) (p v : BitVec 32) (small : bound ≤ 2 ^ 24)
    (even : 2 ∣ bound) (target : 2 ∣ s.toNat) (place : 2 ∣ p.toNat)
    (argument : v = thumbDisplacement s p ∨ v = thumbDisplacement s p + 1)
    (inRange : -bound ≤ toInt64 (absoluteDifference s.toNat ((p.toNat + 4) % 2 ^ 64) + 0) ∧
      toInt64 (absoluteDifference s.toNat ((p.toNat + 4) % 2 ^ 64) + 0) < bound) :
    -bound ≤ v.toInt ∧ v.toInt < bound := by
  have below := p.isLt
  have wide := s.isLt
  have d := toNat_thumbDisplacement s p
  -- the displacement, or one more for the Thumb bit
  have value : v.toNat = (thumbDisplacement s p).toNat ∨
      v.toNat = ((thumbDisplacement s p).toNat + 1) % 2 ^ 32 := by
    rcases argument with rfl | rfl
    · exact .inl rfl
    · right
      rw [BitVec.toNat_add]
      rfl
  rw [d] at value
  rw [BitVec.toInt_eq_toNat_cond]
  unfold toInt64 absoluteDifference at inRange
  rw [Nat.mod_eq_of_lt (show p.toNat + 4 < 2 ^ 64 by omega)] at inRange
  split_ifs at inRange ⊢ <;> omega

private theorem toNat_sub_place (s : BitVec 64) (p : BitVec 32) :
    (s - p.setWidth 64).toNat = (2 ^ 64 - p.toNat + s.toNat) % 2 ^ 64 := by
  have place := p.isLt
  have same : p.toNat % 2 ^ 64 = p.toNat := Nat.mod_eq_of_lt (by omega)
  rw [BitVec.toNat_sub, BitVec.toNat_setWidth, same]

theorem arm64_in_range (bound : Int) (s : BitVec 64) (p : BitVec 32) (small : bound ≤ 2 ^ 30)
    (inRange : -bound ≤ toInt64 (absoluteDifference s.toNat p.toNat + 0) ∧
      toInt64 (absoluteDifference s.toNat p.toNat + 0) < bound) :
    -bound ≤ (s - p.setWidth 64).toInt ∧ (s - p.setWidth 64).toInt < bound := by
  have below := p.isLt
  have wide := s.isLt
  rw [BitVec.toInt_eq_toNat_cond, toNat_sub_place]
  unfold toInt64 absoluteDifference at inRange
  split_ifs at inRange ⊢ <;> omega

theorem arm64_quadruple (s : BitVec 64) (p : BitVec 32) (target : 4 ∣ s.toNat)
    (place : 4 ∣ p.toNat) : Quadruple (s - p.setWidth 64) := by
  have below := p.isLt
  have multiple : (s - p.setWidth 64).toNat % 4 = 0 := by
    rw [toNat_sub_place]
    omega
  constructor
  · rw [← BitVec.testBit_toNat, Nat.testBit_eq_decide_div_mod_eq]
    simp only [pow_zero, Nat.div_one, decide_eq_false_iff_not]
    omega
  · rw [← BitVec.testBit_toNat, Nat.testBit_eq_decide_div_mod_eq]
    simp only [pow_one, decide_eq_false_iff_not]
    omega

end LlvmLd.Writer
