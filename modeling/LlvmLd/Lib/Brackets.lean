import Mathlib.Algebra.Order.Ring.Int
import Mathlib.Tactic.Common

/-!
# Bracketed lists

Lists in which some elements open a bracket and some end one. A counter that ignores ends without
an opener gives the nesting depth.
-/

namespace LlvmLd.Brackets

section Lists

variable {α : Type*} (opens ends : α → Bool)

/-- Every opener has its end, and the other way round. -/
inductive Balanced : List α → Prop
  | nil : Balanced []
  | plain (x : α) (rest : List α) (notOpen : opens x = false) (notEnd : ends x = false)
      (tail : Balanced rest) : Balanced (x :: rest)
  | nest (o : α) (inner : List α) (c : α) (rest : List α) (opened : opens o = true)
      (ended : ends c = true) (middle : Balanced inner) (tail : Balanced rest) :
      Balanced (o :: (inner ++ c :: rest))

/-- The depth behind an element. -/
def depthStep (depth : Nat) (x : α) : Nat :=
  if opens x then depth + 1 else if ends x then depth - 1 else depth

def depth (xs : List α) : Nat := xs.foldl (depthStep opens ends) 0

variable {opens ends}

theorem Balanced.append {xs ys : List α} (first : Balanced opens ends xs)
    (second : Balanced opens ends ys) : Balanced opens ends (xs ++ ys) := by
  induction first with
  | nil => exact second
  | plain x rest notOpen notEnd _ ih => exact .plain x _ notOpen notEnd ih
  | nest o inner c rest opened ended middle _ _ ih =>
    rw [List.cons_append, List.append_assoc, List.cons_append]
    exact .nest o inner c _ opened ended middle ih

theorem depth_append_singleton (xs : List α) (x : α) :
    depth opens ends (xs ++ [x]) = depthStep opens ends (depth opens ends xs) x := by
  rw [depth, List.foldl_append]
  rfl

/-- Inside of a bracket there is an innermost opener, and what follows it is balanced. -/
theorem exists_opener (xs : List α) (inside : 0 < depth opens ends xs) :
    ∃ front o middle, xs = front ++ o :: middle ∧ opens o = true ∧
      Balanced opens ends middle ∧ depth opens ends front + 1 = depth opens ends xs := by
  -- an end takes the innermost opener with it, so the next one is looked for in a shorter list
  induction size : xs.length using Nat.strongRecOn generalizing xs with
  | ind n ih =>
    rcases List.eq_nil_or_concat xs with rfl | ⟨ys, x, rfl⟩
    · cases inside
    rw [List.concat_eq_append] at inside size ⊢
    rw [List.length_append, List.length_singleton] at size
    rw [depth_append_singleton] at inside ⊢
    by_cases opened : opens x = true
    · refine ⟨ys, x, [], rfl, opened, .nil, ?_⟩
      simp [depthStep, opened]
    by_cases ended : ends x = true
    · have step : depthStep opens ends (depth opens ends ys) x = depth opens ends ys - 1 := by
        simp [depthStep, opened, ended]
      rw [step] at inside ⊢
      obtain ⟨front, o, middle, rfl, openedO, balanced, outer⟩ :=
        ih ys.length (by omega) ys (by omega) rfl
      have shorter : front.length < n := by
        simp only [List.length_append, List.length_cons] at size
        omega
      obtain ⟨front', o', middle', rfl, openedO', balanced', outer'⟩ :=
        ih front.length shorter front (by omega) rfl
      refine ⟨front', o', middle' ++ (o :: (middle ++ [x])), by simp, openedO', ?_, by omega⟩
      exact balanced'.append (.nest o middle x [] openedO ended balanced .nil)
    · have step : depthStep opens ends (depth opens ends ys) x = depth opens ends ys := by
        simp [depthStep, opened, ended]
      rw [step] at inside ⊢
      obtain ⟨front, o, middle, rfl, openedO, balanced, outer⟩ :=
        ih ys.length (by omega) ys inside rfl
      refine ⟨front, o, middle ++ [x], by simp, openedO, ?_, outer⟩
      exact balanced.append (.plain x [] (by simpa using opened) (by simpa using ended) .nil)

/-- A balanced list leaves the depth as it is. -/
theorem foldl_balanced (disjoint : ∀ x, ends x = true → opens x = false) {xs : List α}
    (balanced : Balanced opens ends xs) (d : Nat) : xs.foldl (depthStep opens ends) d = d := by
  induction balanced generalizing d with
  | nil => rfl
  | plain x rest notOpen notEnd _ ih =>
    rw [List.foldl_cons, ih]
    simp [depthStep, notOpen, notEnd]
  | nest o inner c rest opened ended _ _ ihMiddle ihTail =>
    rw [List.foldl_cons, List.foldl_append, List.foldl_cons, ihMiddle, ihTail]
    simp [depthStep, opened, ended, disjoint c ended]

/-- The innermost opener is the only one with a balanced list behind it. -/
theorem opener_unique (disjoint : ∀ x, ends x = true → opens x = false)
    {front front' middle middle' : List α} {o o' : α}
    (same : front ++ o :: middle = front' ++ o' :: middle')
    (opened : opens o = true) (balanced : Balanced opens ends middle)
    (opened' : opens o' = true) (balanced' : Balanced opens ends middle') :
    front = front' ∧ o = o' ∧ middle = middle' := by
  -- a balanced stretch has no opener that is left open, so the later opener cannot lie in front
  have inside : ∀ (x rest : List α) (q : α), opens q = true → Balanced opens ends rest →
      ¬ Balanced opens ends (x ++ q :: rest) := by
    intro x rest q openedQ balancedRest whole
    have none := foldl_balanced disjoint whole 0
    rw [List.foldl_append, List.foldl_cons, foldl_balanced disjoint balancedRest] at none
    simp [depthStep, openedQ] at none
  rcases List.append_eq_append_iff.mp same with ⟨x, frontEq, tailEq⟩ | ⟨x, frontEq, tailEq⟩
  · cases x with
    | nil =>
      obtain ⟨rfl, rfl⟩ := List.cons.inj tailEq
      exact ⟨by simpa using frontEq.symm, rfl, rfl⟩
    | cons y x =>
      obtain ⟨-, rfl⟩ := List.cons.inj tailEq
      exact absurd balanced (inside x middle' o' opened' balanced')
  · cases x with
    | nil =>
      obtain ⟨rfl, rfl⟩ := List.cons.inj tailEq
      exact ⟨by simpa using frontEq, rfl, rfl⟩
    | cons y x =>
      obtain ⟨-, rfl⟩ := List.cons.inj tailEq
      exact absurd balanced' (inside x middle o opened balanced)

/-- Every opener of a balanced list has its end behind it. -/
theorem Balanced.closed (disjoint : ∀ x, ends x = true → opens x = false) {xs : List α}
    (balanced : Balanced opens ends xs) (front tail : List α) (o : α)
    (place : xs = front ++ o :: tail) (opened : opens o = true) :
    ∃ middle c rest, tail = middle ++ c :: rest ∧ ends c = true ∧
      Balanced opens ends middle := by
  induction balanced generalizing front tail with
  | nil => simp at place
  | plain x rest notOpen _ _ ih =>
    cases front with
    | nil =>
      obtain ⟨rfl, -⟩ := List.cons.inj place
      simp [opened] at notOpen
    | cons y front => exact ih front tail (List.cons.inj place).2
  | nest o' inner c rest _ ended middle _ ihMiddle ihTail =>
    cases front with
    | nil =>
      obtain ⟨rfl, rfl⟩ := List.cons.inj place
      exact ⟨inner, c, rest, rfl, ended, middle⟩
    | cons y front =>
      have place := (List.cons.inj place).2
      rcases List.append_eq_append_iff.mp place with ⟨x, frontEq, tailEq⟩ | ⟨x, innerEq, tailEq⟩
      -- Behind the pair it is the tail that closes it,
      · cases x with
        | nil =>
          obtain ⟨rfl, -⟩ := List.cons.inj tailEq
          simp [disjoint c ended] at opened
        | cons z x => exact ihTail x tail (List.cons.inj tailEq).2
      -- and within the pair the inner list does, which is followed by the end of the pair.
      · cases x with
        | nil =>
          obtain ⟨rfl, -⟩ := List.cons.inj tailEq
          simp [disjoint _ ended] at opened
        | cons z x =>
          obtain ⟨rfl, rfl⟩ := List.cons.inj tailEq
          obtain ⟨middle', c', rest', rfl, ended', balanced'⟩ := ihMiddle front x innerEq
          exact ⟨middle', c', rest' ++ c :: rest, by simp, ended', balanced'⟩

/-- An end in a balanced list stands deeper than the list began. -/
theorem Balanced.inside (disjoint : ∀ x, ends x = true → opens x = false) {xs : List α}
    (balanced : Balanced opens ends xs) (front tail : List α) (c : α)
    (place : xs = front ++ c :: tail) (ended : ends c = true) (d : Nat) :
    d < front.foldl (depthStep opens ends) d := by
  induction balanced generalizing front tail d with
  | nil => simp at place
  | plain x rest notOpen notEnd _ ih =>
    cases front with
    | nil =>
      obtain ⟨rfl, -⟩ := List.cons.inj place
      simp [ended] at notEnd
    | cons y front =>
      obtain ⟨rfl, same⟩ := List.cons.inj place
      have kept : depthStep opens ends d x = d := by simp [depthStep, notOpen, notEnd]
      rw [List.foldl_cons, kept]
      exact ih front tail same d
  | nest o inner c' rest opened ended' middle _ ihMiddle ihTail =>
    cases front with
    | nil =>
      obtain ⟨rfl, -⟩ := List.cons.inj place
      simp [disjoint _ ended] at opened
    | cons y front =>
      obtain ⟨rfl, same⟩ := List.cons.inj place
      have deeper : depthStep opens ends d o = d + 1 := by simp [depthStep, opened]
      have back : depthStep opens ends (d + 1) c' = d := by
        simp [depthStep, ended', disjoint _ ended']
      rw [List.foldl_cons, deeper]
      rcases List.append_eq_append_iff.mp same with ⟨x, rfl, tailEq⟩ | ⟨x, innerEq, tailEq⟩
      -- the end is the one that closes this pair, or stands behind it
      · rw [List.foldl_append, foldl_balanced disjoint middle]
        cases x with
        | nil => exact Nat.lt_succ_self d
        | cons z x =>
          obtain ⟨rfl, behind⟩ := List.cons.inj tailEq
          rw [List.foldl_cons, back]
          exact ihTail x tail behind d
      -- the end stands within the pair, one level deeper
      · cases x with
        | nil =>
          rw [List.append_nil] at innerEq
          rw [← innerEq, foldl_balanced disjoint middle]
          exact Nat.lt_succ_self d
        | cons z x =>
          obtain ⟨rfl, -⟩ := List.cons.inj tailEq
          have deep := ihMiddle front x innerEq (d + 1)
          omega

end Lists

end LlvmLd.Brackets
