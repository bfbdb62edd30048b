import Mathlib.Data.List.Basic
import Mathlib.Tactic.Common

/-!
Binary search over positions. The search only sees how its key compares with the item at a position;
over strictly ascending items it finds exactly the position of an equal one.
-/

namespace LlvmLd.BinarySearch

/-- Search `[lo, hi)`, halving it each time. `fuel` is at least its length. -/
def go (cmp : Nat → Ordering) : Nat → Nat → Nat → Option Nat
  | 0, _, _ => none
  | fuel + 1, lo, hi =>
    if lo < hi then
      let mid := lo + (hi - lo) / 2
      match cmp mid with
      | .eq => some mid
      | .lt => go cmp fuel lo mid
      | .gt => go cmp fuel (mid + 1) hi
    else none

def find (cmp : Nat → Ordering) (n : Nat) : Option Nat := go cmp n 0 n

/-- The items ascend: a key that is not above one of them is below all later ones. -/
def Ascending (cmp : Nat → Ordering) (n : Nat) : Prop :=
  ∀ i j, i < j → j < n → cmp i ≠ .gt → cmp j = .lt

private theorem go_sound (cmp : Nat → Ordering) (fuel lo hi k : Nat)
    (found : go cmp fuel lo hi = some k) : k < hi ∧ cmp k = .eq := by
  induction fuel generalizing lo hi with
  | zero => cases found
  | succ fuel ih =>
    rw [go] at found
    -- what the search answers is the middle of some interval inside of the first
    split at found
    next inside =>
      dsimp only at found
      split at found
      next equal =>
        cases found
        exact ⟨by omega, equal⟩
      next =>
        obtain ⟨below, equal⟩ := ih _ _ found
        exact ⟨by omega, equal⟩
      next => exact ih _ _ found
    · cases found

theorem find_sound (cmp : Nat → Ordering) (n k : Nat) (found : find cmp n = some k) :
    k < n ∧ cmp k = .eq :=
  go_sound cmp n 0 n k found

private theorem go_complete (cmp : Nat → Ordering) (n : Nat) (ascending : Ascending cmp n) (k : Nat)
    (equal : cmp k = .eq) (fuel lo hi : Nat) (low : lo ≤ k) (high : k < hi) (room : hi ≤ n)
    (enough : hi - lo ≤ fuel) : go cmp fuel lo hi = some k := by
  induction fuel generalizing lo hi with
  | zero => omega
  | succ fuel ih =>
    have inside : lo < hi := Nat.lt_of_le_of_lt low high
    rw [go, if_pos inside]
    have mid_lt : lo + (hi - lo) / 2 < hi := by omega
    generalize mid_eq : lo + (hi - lo) / 2 = mid at mid_lt
    -- which side `k` is on, from the comparison at the middle
    have before : mid < k → cmp mid = .gt := by
      intro less
      by_contra not_gt
      rw [ascending mid k less (by omega) not_gt] at equal
      cases equal
    have behind : k < mid → cmp mid = .lt := fun less =>
      ascending k mid less (by omega) (by simp [equal])
    dsimp only
    split
    next same =>
      rcases Nat.lt_trichotomy mid k with less | rfl | less
      · simp [before less] at same
      · rfl
      · simp [behind less] at same
    next less =>
      apply ih lo mid low _ (by omega) (by omega)
      rcases Nat.lt_trichotomy mid k with other | rfl | this
      · simp [before other] at less
      · simp [equal] at less
      · exact this
    next more =>
      apply ih (mid + 1) hi _ high room (by omega)
      rcases Nat.lt_trichotomy mid k with this | rfl | other
      · exact this
      · simp [equal] at more
      · simp [behind other] at more

theorem find_complete (cmp : Nat → Ordering) (n : Nat) (ascending : Ascending cmp n) (k : Nat)
    (inside : k < n) (equal : cmp k = .eq) : find cmp n = some k :=
  go_complete cmp n ascending k equal n 0 n (Nat.zero_le k) inside (Nat.le_refl n) (by omega)

theorem find_eq_some_iff (cmp : Nat → Ordering) (n : Nat) (ascending : Ascending cmp n) (k : Nat) :
    find cmp n = some k ↔ k < n ∧ cmp k = .eq :=
  ⟨find_sound cmp n k, fun ⟨inside, equal⟩ => find_complete cmp n ascending k inside equal⟩

end LlvmLd.BinarySearch
