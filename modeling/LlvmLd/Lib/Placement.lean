import Mathlib.Algebra.BigOperators.Group.List.Basic
import Mathlib.Algebra.Order.Ring.Int
import Mathlib.Data.List.Basic
import Mathlib.Tactic.Common

/-!
Sequential placement: the items of a list stand one behind the other, each at the end of the one
before. Items never overlap, ascend in list order, and keep every alignment that the start and the
sizes have.
-/

namespace LlvmLd.Placement

variable {α : Type*}

/-- Every item with its start, from `start` on. -/
def starts (size : α → Nat) : Nat → List α → List (α × Nat)
  | _, [] => []
  | start, x :: rest => (x, start) :: starts size (start + size x) rest

/-- The first position behind all items. -/
def total (size : α → Nat) (start : Nat) (items : List α) : Nat :=
  start + (items.map size).sum

@[simp] theorem total_nil (size : α → Nat) (start : Nat) : total size start [] = start := by
  simp [total]

@[simp] theorem total_cons (size : α → Nat) (start : Nat) (x : α) (rest : List α) :
    total size start (x :: rest) = total size (start + size x) rest := by
  simp [total, Nat.add_assoc]

theorem total_append (size : α → Nat) (start : Nat) (items more : List α) :
    total size start (items ++ more) = total size (total size start items) more := by
  simp [total, Nat.add_assoc]

theorem starts_append (size : α → Nat) (start : Nat) (items more : List α) :
    starts size start (items ++ more) =
      starts size start items ++ starts size (total size start items) more := by
  induction items generalizing start with
  | nil => simp [starts]
  | cons x rest ih => simp [starts, ih]

theorem le_total (size : α → Nat) (start : Nat) (items : List α) : start ≤ total size start items :=
  Nat.le_add_right _ _

theorem starts_map_fst (size : α → Nat) (start : Nat) (items : List α) :
    (starts size start items).map Prod.fst = items := by
  induction items generalizing start with
  | nil => rfl
  | cons x rest ih => simp [starts, ih]

theorem zip_starts (size : α → Nat) (start : Nat) (items : List α) :
    items.zip ((starts size start items).map Prod.snd) = starts size start items := by
  induction items generalizing start with
  | nil => rfl
  | cons x rest ih => simp [starts, ih]

theorem mem_of_mem_starts (size : α → Nat) (start : Nat) (items : List α) (entry : α × Nat)
    (member : entry ∈ starts size start items) : entry.1 ∈ items := by
  rw [← starts_map_fst size start items]
  exact List.mem_map_of_mem member

theorem exists_mem_starts (size : α → Nat) (start : Nat) (items : List α) (x : α)
    (member : x ∈ items) : ∃ position, (x, position) ∈ starts size start items := by
  rw [← starts_map_fst size start items] at member
  obtain ⟨entry, found, rfl⟩ := List.mem_map.mp member
  exact ⟨entry.2, found⟩

theorem starts_bounds (size : α → Nat) (start : Nat) (items : List α) (entry : α × Nat)
    (member : entry ∈ starts size start items) :
    start ≤ entry.2 ∧ entry.2 + size entry.1 ≤ total size start items := by
  induction items generalizing start with
  | nil => cases member
  | cons x rest ih =>
    rw [starts, List.mem_cons] at member
    rw [total_cons]
    rcases member with rfl | later
    · exact ⟨Nat.le_refl _, le_total size _ rest⟩
    · have bounds := ih _ later
      exact ⟨by omega, bounds.2⟩

theorem starts_pairwise (size : α → Nat) (start : Nat) (items : List α) :
    (starts size start items).Pairwise (fun a b => a.2 + size a.1 ≤ b.2) := by
  induction items generalizing start with
  | nil => exact List.Pairwise.nil
  | cons x rest ih =>
    refine List.Pairwise.cons (fun entry later => ?_) (ih _)
    exact (starts_bounds size _ rest entry later).1

/-- A relation that holds between any two separated items holds along the list. -/
theorem pairwise_of_starts (size : α → Nat) (start : Nat) (items : List α) (R : α → α → Prop)
    (separated : ∀ a ∈ starts size start items, ∀ b ∈ starts size start items,
      a.2 + size a.1 ≤ b.2 → R a.1 b.1) : items.Pairwise R := by
  have mapped : ((starts size start items).map Prod.fst).Pairwise R := by
    rw [List.pairwise_map]
    exact (starts_pairwise size start items).imp_of_mem
      (fun {a b} first second apart => separated a first b second apart)
  rwa [starts_map_fst] at mapped

/-- The items fill the room between the start and the total. -/
theorem starts_cover (size : α → Nat) (start : Nat) (items : List α) (i : Nat) (from_start : start ≤ i)
    (below : i < total size start items) :
    ∃ entry ∈ starts size start items, entry.2 ≤ i ∧ i < entry.2 + size entry.1 := by
  induction items generalizing start with
  | nil =>
    rw [total_nil] at below
    omega
  | cons x rest ih =>
    rw [total_cons] at below
    rw [starts]
    by_cases first : i < start + size x
    · exact ⟨(x, start), by simp, from_start, first⟩
    · obtain ⟨entry, later, bounds⟩ := ih (start + size x) (by omega) below
      exact ⟨entry, List.mem_cons_of_mem _ later, bounds⟩

/-- An item stands behind all items before it. -/
theorem starts_getElem? (size : α → Nat) (start : Nat) (items : List α) (i : Nat)
    (entry : α × Nat) (found : (starts size start items)[i]? = some entry) :
    items[i]? = some entry.1 ∧ entry.2 = start + ((items.take i).map size).sum := by
  induction items generalizing start i with
  | nil => simp [starts] at found
  | cons x rest ih =>
    rw [starts] at found
    cases i with
    | zero =>
      rw [List.getElem?_cons_zero, Option.some.injEq] at found
      subst found
      simp
    | succ i =>
      rw [List.getElem?_cons_succ] at found
      obtain ⟨item, position⟩ := ih _ _ found
      refine ⟨by simpa using item, ?_⟩
      rw [position, List.take_succ_cons, List.map_cons, List.sum_cons, Nat.add_assoc]

theorem dvd_starts (size : α → Nat) (start : Nat) (items : List α) (a : Nat) (base : a ∣ start)
    (sizes : ∀ x ∈ items, a ∣ size x) (entry : α × Nat)
    (member : entry ∈ starts size start items) : a ∣ entry.2 := by
  induction items generalizing start with
  | nil => cases member
  | cons x rest ih =>
    rw [starts, List.mem_cons] at member
    rcases member with rfl | later
    · exact base
    · exact ih _ (Nat.dvd_add base (sizes x (by simp)))
        (fun y inRest => sizes y (List.mem_cons_of_mem x inRest)) later

end LlvmLd.Placement
