import Mathlib.Algebra.Order.Ring.Int
import Mathlib.Data.List.Basic
import Mathlib.Data.List.Pairwise
import Mathlib.Data.List.Perm.Basic
import Mathlib.Tactic.Common

/-!
# Grouping and sorting

A map from keys to lists that is kept in the order of a rank, sorts that promise no order among
equals, and lists that ascend in a rank.
-/

namespace LlvmLd.Groups

variable {κ α : Type*}

/-! ### Sorting -/

/-- A sort that may put equal elements in any order. -/
structure Sorting (less : α → α → Bool) where
  sort : List α → List α
  perm : ∀ l, (sort l).Perm l
  sorted : ∀ l, (sort l).Pairwise (fun a b => less b a = false)

/-- An ascending list is cut in two by a bound on the rank. -/
theorem eq_filter_append_filter (rank : α → Nat) (bound : Nat) (l : List α)
    (ascends : l.Pairwise (fun a b => rank a ≤ rank b)) :
    l = l.filter (fun a => rank a < bound) ++ l.filter (fun a => bound ≤ rank a) := by
  induction l with
  | nil => rfl
  | cons a l ih =>
    rw [List.pairwise_cons] at ascends
    -- from the first element at the bound on, none lies below it
    by_cases low : rank a < bound
    · have high : ¬bound ≤ rank a := by omega
      rw [List.filter_cons_of_pos (by simpa using low), List.filter_cons_of_neg (by simpa using high),
        List.cons_append, ← ih ascends.2]
    · have none_low : l.filter (fun b => decide (rank b < bound)) = [] := by
        rw [List.filter_eq_nil_iff]
        intro b member
        have above := ascends.1 b member
        simp only [decide_eq_true_eq]
        omega
      have all_high : l.filter (fun b => decide (bound ≤ rank b)) = l := by
        rw [List.filter_eq_self]
        intro b member
        have above := ascends.1 b member
        simp only [decide_eq_true_eq]
        omega
      rw [List.filter_cons_of_neg (by simpa using low),
        List.filter_cons_of_pos (by simp only [decide_eq_true_eq]; omega), none_low, all_high,
        List.nil_append]

/-! ### Groups -/

/-- Appends to the group of `key`; keys of one rank count as one key. -/
def push (rank : κ → Nat) (key : κ) (x : α) : List (κ × List α) → List (κ × List α)
  | [] => [(key, [x])]
  | (k, xs) :: rest =>
    if rank key < rank k then (key, [x]) :: (k, xs) :: rest
    else if rank k < rank key then (k, xs) :: push rank key x rest
    else (k, xs ++ [x]) :: rest

def collect (rank : κ → Nat) (keyOf : α → κ) (l : List α) : List (κ × List α) :=
  l.foldl (fun groups x => push rank (keyOf x) x groups) []

def Ascending (rank : κ → Nat) (groups : List (κ × List α)) : Prop :=
  groups.Pairwise (fun a b => rank a.1 < rank b.1)

/-- What `push` makes of the groups: the one of `key` grows, or is new. -/
def Grown (key : κ) (x : α) (groups : List (κ × List α)) (g : κ × List α) : Prop :=
  (g ∈ groups ∧ g.1 ≠ key) ∨
    (g.1 = key ∧ ∃ xs, g.2 = xs ++ [x] ∧
      ((key, xs) ∈ groups ∨ (xs = [] ∧ ∀ other ∈ groups, other.1 ≠ key)))

variable {rank : κ → Nat} {key : κ} {x : α}

theorem push_above (groups : List (κ × List α)) (bound : Nat) (low : bound < rank key)
    (above : ∀ g ∈ groups, bound < rank g.1) : ∀ g ∈ push rank key x groups, bound < rank g.1 := by
  induction groups with
  | nil => simpa [push] using low
  | cons head rest ih =>
    obtain ⟨k, xs⟩ := head
    have here : bound < rank k := above (k, xs) List.mem_cons_self
    have later := ih (fun g member => above g (List.mem_cons_of_mem _ member))
    intro g member
    rw [push] at member
    -- a new group in front, one more in the head, or the element goes on to the rest
    split_ifs at member
    · rcases List.mem_cons.mp member with rfl | old
      · exact low
      · exact above g old
    · rcases List.mem_cons.mp member with rfl | old
      · exact here
      · exact later g old
    · rcases List.mem_cons.mp member with rfl | old
      · exact here
      · exact above g (List.mem_cons_of_mem _ old)

theorem push_ascending (groups : List (κ × List α)) (ascending : Ascending rank groups) :
    Ascending rank (push rank key x groups) := by
  induction groups with
  | nil => exact List.pairwise_singleton _ _
  | cons head rest ih =>
    obtain ⟨k, xs⟩ := head
    have tail := List.pairwise_cons.mp ascending
    rw [push]
    -- the new rank lies below the head, above it, or is the head's own
    split_ifs with before behind
    · apply List.Pairwise.cons _ ascending
      intro g member
      rcases List.mem_cons.mp member with rfl | later
      · exact before
      · exact Nat.lt_trans before (tail.1 g later)
    · exact List.Pairwise.cons (push_above rest (rank k) behind tail.1) (ih tail.2)
    · exact List.Pairwise.cons tail.1 tail.2

theorem mem_push (groups : List (κ × List α)) (ascending : Ascending rank groups)
    (one : ∀ g ∈ groups, rank g.1 = rank key → g.1 = key) (g : κ × List α) :
    g ∈ push rank key x groups ↔ Grown key x groups g := by
  induction groups with
  | nil =>
    simp only [push, Grown, List.mem_singleton, List.not_mem_nil, false_and, false_or]
    constructor
    · rintro rfl
      exact ⟨rfl, [], rfl, rfl, by simp⟩
    · rintro ⟨rfl, xs, whole, rfl, -⟩
      exact Prod.ext rfl whole
  | cons head rest ih =>
    obtain ⟨k, xs⟩ := head
    have tail := List.pairwise_cons.mp ascending
    have rest_one : ∀ g ∈ rest, rank g.1 = rank key → g.1 = key :=
      fun g member => one g (List.mem_cons_of_mem _ member)
    rw [push]
    split_ifs with before behind
    · -- the key is new, and smaller than all others
      have fresh : ∀ other ∈ (k, xs) :: rest, other.1 ≠ key := by
        rintro other member rfl
        rcases List.mem_cons.mp member with rfl | later
        · exact Nat.lt_irrefl _ before
        · exact Nat.lt_irrefl _ (Nat.lt_trans before (tail.1 other later))
      constructor
      · intro member
        rcases List.mem_cons.mp member with rfl | old
        · exact .inr ⟨rfl, [], rfl, .inr ⟨rfl, fresh⟩⟩
        · exact .inl ⟨old, fresh g old⟩
      · rintro (⟨old, -⟩ | ⟨rfl, ys, whole, there | ⟨rfl, -⟩⟩)
        · exact List.mem_cons_of_mem _ old
        · exact absurd rfl (fresh (g.1, ys) there)
        · exact List.mem_cons.mpr (.inl (Prod.ext rfl whole))
    -- the key belongs further behind, so this group stays and the rest decides
    · have other : k ≠ key := by
        rintro rfl
        exact Nat.lt_irrefl _ behind
      rw [List.mem_cons, ih tail.2 rest_one]
      constructor
      · rintro (rfl | ⟨old, apart⟩ | ⟨rfl, ys, whole, there | ⟨rfl, fresh⟩⟩)
        · exact .inl ⟨List.mem_cons_self, other⟩
        · exact .inl ⟨List.mem_cons_of_mem _ old, apart⟩
        · exact .inr ⟨rfl, ys, whole, .inl (List.mem_cons_of_mem _ there)⟩
        · refine .inr ⟨rfl, [], whole, .inr ⟨rfl, ?_⟩⟩
          intro g' member
          rcases List.mem_cons.mp member with rfl | later
          · exact other
          · exact fresh g' later
      · rintro (⟨old, apart⟩ | ⟨rfl, ys, whole, there | ⟨rfl, fresh⟩⟩)
        · rcases List.mem_cons.mp old with rfl | later
          · exact .inl rfl
          · exact .inr (.inl ⟨later, apart⟩)
        · rcases List.mem_cons.mp there with same | later
          · exact absurd (Prod.mk.inj same).1.symm other
          · exact .inr (.inr ⟨rfl, ys, whole, .inl later⟩)
        · exact .inr (.inr ⟨rfl, [], whole,
            .inr ⟨rfl, fun g' later => fresh g' (List.mem_cons_of_mem _ later)⟩⟩)
    · -- the key stands here, and nowhere behind
      have same : k = key := by
        apply one (k, xs) List.mem_cons_self
        show rank k = rank key
        omega
      subst same
      have apart : ∀ g' ∈ rest, g'.1 ≠ k := by
        rintro g' later rfl
        exact Nat.lt_irrefl _ (tail.1 g' later)
      rw [List.mem_cons]
      constructor
      · rintro (rfl | later)
        · exact .inr ⟨rfl, xs, rfl, .inl List.mem_cons_self⟩
        · exact .inl ⟨List.mem_cons_of_mem _ later, apart g later⟩
      · rintro (⟨old, elsewhere⟩ | ⟨rfl, ys, whole, there | ⟨rfl, fresh⟩⟩)
        · rcases List.mem_cons.mp old with rfl | later
          · exact absurd rfl elsewhere
          · exact .inr later
        · rcases List.mem_cons.mp there with here | later
          · rw [(Prod.mk.inj here).2] at whole
            exact .inl (Prod.ext rfl whole)
          · exact absurd rfl (apart (g.1, ys) later)
        · exact absurd rfl (fresh (g.1, xs) List.mem_cons_self)

/-- The groups hold the list, each the elements of its key in the list's order. -/
structure Holds [DecidableEq κ] (rank : κ → Nat) (keyOf : α → κ) (l : List α)
    (groups : List (κ × List α)) : Prop where
  ascending : Ascending rank groups
  members : ∀ g ∈ groups, g.2 = l.filter (fun x => keyOf x = g.1) ∧ g.2 ≠ []
  complete : ∀ x ∈ l, ∃ g ∈ groups, g.1 = keyOf x

section Collect

variable [DecidableEq κ] {keyOf : α → κ}

theorem Holds.key_mem {l : List α} {groups : List (κ × List α)} (holds : Holds rank keyOf l groups)
    (g : κ × List α) (member : g ∈ groups) : ∃ x ∈ l, keyOf x = g.1 := by
  obtain ⟨whole, some'⟩ := holds.members g member
  obtain ⟨x, inside⟩ := List.exists_mem_of_ne_nil g.2 some'
  rw [whole, List.mem_filter, decide_eq_true_eq] at inside
  exact ⟨x, inside⟩

theorem Holds.push {l : List α} {groups : List (κ × List α)} (holds : Holds rank keyOf l groups)
    (x : α) (one : ∀ y ∈ l, rank (keyOf y) = rank (keyOf x) → keyOf y = keyOf x) :
    Holds rank keyOf (l ++ [x]) (push rank (keyOf x) x groups) := by
  have one_group : ∀ g ∈ groups, rank g.1 = rank (keyOf x) → g.1 = keyOf x := by
    intro g member
    obtain ⟨y, inside, key⟩ := holds.key_mem g member
    rw [← key]
    exact one y inside
  have grown := mem_push (x := x) groups holds.ascending one_group
  -- Only the group of the key changes, by `x` at its end or by coming into being.
  refine ⟨push_ascending groups holds.ascending, ?_, ?_⟩
  · intro g member
    rcases (grown g).mp member with ⟨old, elsewhere⟩ | ⟨key, xs, whole, there⟩
    · obtain ⟨members, some'⟩ := holds.members g old
      have skipped : ¬keyOf x = g.1 := fun same => elsewhere same.symm
      refine ⟨?_, some'⟩
      rw [List.filter_append, ← members]
      simp [skipped]
    · have before : xs = l.filter (fun y => keyOf y = g.1) := by
        rcases there with old | ⟨rfl, fresh⟩
        · rw [key]
          exact (holds.members _ old).1
        · symm
          rw [List.filter_eq_nil_iff]
          intro y inside
          obtain ⟨g', member', key'⟩ := holds.complete y inside
          have other := fresh g' member'
          rw [decide_eq_true_eq, key, ← key']
          exact other
      refine ⟨?_, by simp [whole]⟩
      rw [whole, List.filter_append, ← before]
      simp [key]
  · intro y inside
    rcases List.mem_append.mp inside with old | new
    · obtain ⟨g, member, key⟩ := holds.complete y old
      by_cases same : g.1 = keyOf x
      · refine ⟨(keyOf x, g.2 ++ [x]), (grown _).mpr (.inr ⟨rfl, g.2, rfl, .inl ?_⟩), ?_⟩
        · rw [← same]
          exact member
        · rw [← same, key]
      · exact ⟨g, (grown g).mpr (.inl ⟨member, same⟩), key⟩
    · cases List.mem_singleton.mp new
      by_cases known : ∃ g ∈ groups, g.1 = keyOf x
      · obtain ⟨g, member, same⟩ := known
        refine ⟨(keyOf x, g.2 ++ [x]), (grown _).mpr (.inr ⟨rfl, g.2, rfl, .inl ?_⟩), rfl⟩
        rw [← same]
        exact member
      · refine ⟨(keyOf x, [x]), (grown _).mpr (.inr ⟨rfl, [], rfl, .inr ⟨rfl, ?_⟩⟩), rfl⟩
        intro g member same
        exact known ⟨g, member, same⟩

theorem collect_holds (l : List α)
    (one : ∀ x ∈ l, ∀ y ∈ l, rank (keyOf y) = rank (keyOf x) → keyOf y = keyOf x) :
    Holds rank keyOf l (collect rank keyOf l) := by
  -- induction on the elements that are still to come
  suffices step : ∀ (rest done : List α) (groups : List (κ × List α)), l = done ++ rest →
      Holds rank keyOf done groups →
      Holds rank keyOf l (rest.foldl (fun m x => Groups.push rank (keyOf x) x m) groups) by
    exact step l [] [] rfl ⟨List.Pairwise.nil, by simp, by simp⟩
  intro rest
  induction rest with
  | nil =>
    intro done groups split holds
    rw [split, List.append_nil]
    exact holds
  | cons x rest ih =>
    intro done groups split holds
    apply ih (done ++ [x])
    · simp [split]
    · apply holds.push
      intro y inside
      exact one x (by simp [split]) y (by simp [split, inside])

/-- No two groups share their key. -/
theorem Holds.nodup_keys {l : List α} {groups : List (κ × List α)}
    (holds : Holds rank keyOf l groups) : (groups.map Prod.fst).Nodup := by
  rw [List.Nodup, List.pairwise_map]
  apply holds.ascending.imp
  intro a b apart same
  rw [same] at apart
  exact Nat.lt_irrefl _ apart

end Collect

end LlvmLd.Groups
