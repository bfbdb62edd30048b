import Mathlib.Algebra.Order.Ring.Int
import Mathlib.Data.Int.Basic
import Mathlib.Tactic.Common
import Mathlib.Tactic.IntervalCases
import Mathlib.Tactic.Linarith

/-!
# Fields of instruction words

Immediates that an encoding scatters over a word, words in which some bits are known to be clear,
and numbers that fit into fewer bits.
-/

namespace LlvmLd.Fields

/-! ### Scattered bits -/

/-- The `len` bits of `x` from `lo` on, moved to bit `pos`. -/
def field {v : Nat} (w : Nat) (x : BitVec v) (lo len pos : Nat) : BitVec w :=
  (x.extractLsb' lo len).setWidth w <<< pos

theorem getLsbD_field {v w : Nat} (x : BitVec v) (lo len pos i : Nat) :
    (field w x lo len pos).getLsbD i =
      (decide (i < w) && (decide (pos ≤ i) &&
        (decide (i < pos + len) && x.getLsbD (lo + (i - pos))))) := by
  rw [field, BitVec.getLsbD_shiftLeft, BitVec.getLsbD_setWidth, BitVec.getLsbD_extractLsb']
  by_cases inside : i < w
  · by_cases above : pos ≤ i
    · have below : i - pos < w := by omega
      have same : i - pos < len ↔ i < pos + len := by omega
      simp [inside, above, below, same]
    · simp [inside, above, Nat.lt_of_not_le above]
  · simp [inside]

theorem toNat_field {v w : Nat} (x : BitVec v) (lo len : Nat) (room : len ≤ w) :
    (field w x lo len 0).toNat = x.toNat / 2 ^ lo % 2 ^ len := by
  have small : x.toNat / 2 ^ lo % 2 ^ len < 2 ^ w :=
    Nat.lt_of_lt_of_le (Nat.mod_lt _ (Nat.two_pow_pos len)) (Nat.pow_le_pow_right (by omega) room)
  rw [field, BitVec.shiftLeft_zero, BitVec.toNat_setWidth, BitVec.extractLsb'_toNat,
    Nat.shiftRight_eq_div_pow, Nat.mod_eq_of_lt small]

/-- A number below a power of two has no bits above. -/
theorem getLsbD_of_lt {w : Nat} (x : BitVec w) (k i : Nat) (small : x.toNat < 2 ^ k) (above : k ≤ i) :
    x.getLsbD i = false := by
  rw [← BitVec.testBit_toNat]
  exact Nat.testBit_lt_two_pow (Nat.lt_of_lt_of_le small (Nat.pow_le_pow_right (by omega) above))

/-- Bits that a mask finds clear. -/
theorem clear_bit {w : Nat} {x mask : BitVec w} (clear : x &&& mask = 0) (i : Nat)
    (inMask : mask.getLsbD i = true) : x.getLsbD i = false := by
  have bit := congrArg (fun y : BitVec w => y.getLsbD i) clear
  simpa [inMask] using bit

/-- Adding bits of a field keeps the bits outside it. -/
theorem or_keeps {w : Nat} (x added mask : BitVec w) (inside : added &&& ~~~mask = 0) :
    (x ||| added) &&& ~~~mask = x &&& ~~~mask := by
  apply BitVec.eq_of_getLsbD_eq
  intro i below
  have bit := congrArg (fun y : BitVec w => y.getLsbD i) inside
  simp only [BitVec.getLsbD_and, BitVec.getLsbD_not, below, decide_true, Bool.true_and,
    BitVec.getLsbD_zero, BitVec.ofNat_eq_ofNat] at bit
  simp only [BitVec.getLsbD_and, BitVec.getLsbD_or, BitVec.getLsbD_not, below, decide_true,
    Bool.true_and, Bool.and_or_distrib_right, bit, Bool.or_false]

/-! ### Signed ranges -/

/-- `x` is a signed number of `k` bits. -/
def Fits (k : Nat) (x : Int) : Prop := -2 ^ (k - 1) ≤ x ∧ x < 2 ^ (k - 1)

instance (k : Nat) (x : Int) : Decidable (Fits k x) := inferInstanceAs (Decidable (_ ∧ _))

theorem fits_toInt {k : Nat} (x : BitVec k) : Fits k x.toInt :=
  ⟨BitVec.le_toInt x, BitVec.toInt_lt⟩

/-- Cutting a number to `k` bits keeps it just if it fits. -/
theorem signExtend_setWidth_iff {w : Nat} (k : Nat) (v : BitVec w) (positive : 0 < k)
    (le : k ≤ w) : (v.setWidth k).signExtend w = v ↔ Fits k v.toInt := by
  constructor
  · intro same
    have cut := fits_toInt (v.setWidth k)
    rw [← BitVec.toInt_signExtend_of_le le, same] at cut
    exact cut
  · intro fits
    apply BitVec.eq_of_toInt_eq
    obtain ⟨j, rfl⟩ : ∃ j, k = j + 1 := ⟨k - 1, by omega⟩
    -- cutting to `j + 1` bits forgets how the value was read
    have whole : v.toInt.bmod (2 ^ (j + 1)) = (v.toNat : Int).bmod (2 ^ (j + 1)) := by
      rw [BitVec.toInt_eq_toNat_bmod, Int.bmod_bmod_of_dvd (Nat.pow_dvd_pow 2 le)]
    have size : ((2 ^ (j + 1) : Nat) : Int) = 2 ^ j * 2 := by
      push_cast
      rw [pow_succ]
    obtain ⟨low, high⟩ := fits
    rw [Nat.add_sub_cancel] at low high
    rw [BitVec.toInt_signExtend_of_le le, BitVec.toInt_setWidth, ← whole]
    apply Int.bmod_eq_of_le_mul_two
    · rw [size]
      linarith
    · rw [size]
      linarith

/-- The bits from the sign on are the sign. -/
theorem getLsbD_of_fits {w : Nat} (k : Nat) (v : BitVec w) (positive : 0 < k) (le : k ≤ w)
    (fits : Fits k v.toInt) (i : Nat) (above : k - 1 ≤ i) (below : i < w) :
    v.getLsbD i = v.msb := by
  have same := (signExtend_setWidth_iff k v positive le).mpr fits
  have each : ∀ j, k - 1 ≤ j → j < w → v.getLsbD j = (v.setWidth k).msb := by
    intro j above below
    rw [← same, BitVec.getLsbD_signExtend, same]
    by_cases top : j < k
    · have last : j = k - 1 := by omega
      subst last
      simp [below, top, BitVec.msb_eq_getLsbD_last]
    · simp [below, top]
  rw [each i above below, BitVec.msb_eq_getLsbD_last (x := v), each (w - 1) (by omega) (by omega)]

/-! ### Aligned numbers -/

/-- Setting the low bit of an even number adds one. -/
theorem or_one_eq_add {w : Nat} (x : BitVec w) (even : x.getLsbD 0 = false) :
    x ||| 1#w = x + 1#w := by
  rw [BitVec.add_eq_or_of_and_eq_zero]
  apply BitVec.eq_of_getLsbD_eq
  intro i _
  by_cases low : i = 0
  · subst low
    simp [even]
  · simp [BitVec.getLsbD_one, low]

/-- The even part of a number that fits is read back from its low bits. -/
theorem signExtend_even {w : Nat} (k : Nat) (v : BitVec w) (two : 2 ≤ k) (le : k ≤ w)
    (fits : Fits k v.toInt) : (v.setWidth k &&& ~~~1#k).signExtend w = v &&& ~~~1#w := by
  apply BitVec.eq_of_getLsbD_eq
  intro i below
  rw [BitVec.getLsbD_signExtend, BitVec.msb_eq_getLsbD_last]
  simp only [BitVec.getLsbD_and, BitVec.getLsbD_not, BitVec.getLsbD_setWidth, BitVec.getLsbD_one]
  -- a bit of the field, or one that repeats its sign
  by_cases low : i < k
  · have width : 0 < k ↔ 0 < w := by omega
    simp [low, below, width]
  · have top := getLsbD_of_fits k v (by omega) le fits (k - 1) (by omega) (by omega)
    have here := getLsbD_of_fits k v (by omega) le fits i (by omega) below
    have last : ¬k - 1 = 0 := by omega
    have first : ¬i = 0 := by omega
    have inside : k - 1 < k := by omega
    simp [-BitVec.getLsbD_eq_getElem, low, below, top, here, last, first, inside]

/-- The even part of an even number, and of its successor. -/
theorem even_part {w : Nat} (x : BitVec w) (even : x.getLsbD 0 = false) :
    x &&& ~~~1#w = x ∧ (x + 1#w) &&& ~~~1#w = x := by
  rw [← or_one_eq_add x even]
  constructor
  all_goals
    apply BitVec.eq_of_getLsbD_eq
    intro i below
    by_cases low : i = 0
    · subst low
      simp [even]
    · simp [below, low]

end LlvmLd.Fields
