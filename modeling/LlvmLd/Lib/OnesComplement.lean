import Mathlib.Algebra.BigOperators.Group.List.Basic
import Mathlib.Algebra.GroupWithZero.Nat
import Mathlib.Logic.Function.Iterate

/-!
# Ones' complement sums

Sums of 16-bit words with end-around carry, and the wide sum that is folded at the end. Both stand
for the sum modulo `2 ^ 16 - 1`. Zero has two representations there; which one comes out depends
only on whether the sum is zero.
-/

namespace LlvmLd.OnesComplement

/-- Addition with end-around carry. -/
def addCarry (a b : Nat) : Nat := (a + b) % 2 ^ 16 + (a + b) / 2 ^ 16

/-- One round of folding. -/
def foldStep (sum : Nat) : Nat := sum % 2 ^ 16 + sum / 2 ^ 16

theorem foldStep_lt (sum : Nat) (wide : sum / 2 ^ 16 ≠ 0) : foldStep sum < sum := by
  simp only [foldStep]
  omega

/-- `while (sum >> 16) sum = (sum & 0xffff) + (sum >> 16)`. -/
def foldSum (sum : Nat) : Nat :=
  if sum / 2 ^ 16 = 0 then sum else foldSum (foldStep sum)
termination_by sum
decreasing_by exact foldStep_lt sum ‹_›

/-- The 16-bit number that stands for a sum. -/
structure Represents (word sum : Nat) : Prop where
  small : word < 2 ^ 16
  congruent : word % (2 ^ 16 - 1) = sum % (2 ^ 16 - 1)
  zero : word = 0 ↔ sum = 0

theorem represents_unique (v w sum : Nat) (first : Represents v sum)
    (second : Represents w sum) : v = w := by
  obtain ⟨smallV, congruentV, zeroV⟩ := first
  obtain ⟨smallW, congruentW, zeroW⟩ := second
  have bothZero : v = 0 ↔ w = 0 := zeroV.trans zeroW.symm
  omega

theorem represents_zero : Represents 0 0 := ⟨by decide, rfl, Iff.rfl⟩

theorem represents_addCarry (acc sum word : Nat) (before : Represents acc sum)
    (small : word < 2 ^ 16) : Represents (addCarry acc word) (sum + word) := by
  obtain ⟨smallAcc, congruent, zero⟩ := before
  have whole := Nat.mod_add_div (acc + word) (2 ^ 16)
  simp only [addCarry]
  constructor
  · omega
  · omega
  · omega

theorem represents_foldl_addCarry (words : List Nat) (acc sum : Nat)
    (before : Represents acc sum) (small : ∀ word ∈ words, word < 2 ^ 16) :
    Represents (words.foldl addCarry acc) (sum + words.sum) := by
  induction words generalizing acc sum with
  | nil => exact before
  | cons word rest ih =>
    obtain ⟨here, later⟩ := List.forall_mem_cons.mp small
    rw [List.foldl_cons, List.sum_cons, ← Nat.add_assoc]
    exact ih _ _ (represents_addCarry acc sum word before here) later

theorem represents_foldSum (sum : Nat) : Represents (foldSum sum) sum := by
  induction sum using foldSum.induct with
  | case1 sum narrow =>
    rw [foldSum, if_pos narrow]
    exact ⟨by omega, rfl, Iff.rfl⟩
  | case2 sum wide ih =>
    obtain ⟨small, congruent, zero⟩ := ih
    have whole := Nat.mod_add_div sum (2 ^ 16)
    rw [foldSum, if_neg wide]
    simp only [foldStep] at *
    exact ⟨small, by omega, by omega⟩

/-- Folding once at the end gives what carrying after every word gives. -/
theorem foldSum_sum (words : List Nat) (small : ∀ word ∈ words, word < 2 ^ 16) :
    foldSum words.sum = words.foldl addCarry 0 := by
  have carried := represents_foldl_addCarry words 0 0 represents_zero small
  rw [Nat.zero_add] at carried
  exact represents_unique _ _ _ (represents_foldSum words.sum) carried

/-- The loop ends after some rounds. -/
theorem foldSum_rounds (sum : Nat) :
    ∃ rounds, foldSum sum = foldStep^[rounds] sum ∧ foldStep^[rounds] sum / 2 ^ 16 = 0 := by
  induction sum using foldSum.induct with
  | case1 sum narrow =>
    refine ⟨0, ?_, narrow⟩
    rw [foldSum, if_pos narrow]
    rfl
  | case2 sum wide ih =>
    obtain ⟨rounds, result, ends⟩ := ih
    refine ⟨rounds + 1, ?_, ends⟩
    rw [foldSum, if_neg wide, result]
    rfl

end LlvmLd.OnesComplement
