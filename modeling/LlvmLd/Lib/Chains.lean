import Mathlib.Algebra.Order.Ring.Int
import Mathlib.Data.List.Perm.Subperm
import Mathlib.Logic.Relation
import Mathlib.Tactic.Common

/-!
Chains of a partial successor function: where a chain ends, when it runs into a cycle, and a walk
that remembers what it has seen.
-/

namespace LlvmLd.Chains

variable {α : Type*} (next : α → Option α)

/-- `b` is reached from `a` in any number of steps. -/
def Leads : α → α → Prop := Relation.ReflTransGen (fun a b => next a = some b)

/-- The chain of `a` ends in `z`. -/
def Ends (a z : α) : Prop := Leads next a z ∧ next z = none

/-- The chain of `a` runs into a cycle. -/
def Cyclic (a : α) : Prop := ∃ b c, Leads next a b ∧ next b = some c ∧ Leads next c b

/-- The chain of `a` runs into a cycle of two elements or more. -/
def LongCycle (a : α) : Prop := ∃ b c, Leads next a b ∧ next b = some c ∧ c ≠ b ∧ Leads next c b

/-- The chain of `a` stays at `z`: it ends there, or `z` follows itself. -/
def Rests (a z : α) : Prop := Leads next a z ∧ (next z = none ∨ next z = some z)

variable {next}

theorem Leads.refl (a : α) : Leads next a a := Relation.ReflTransGen.refl

theorem Leads.head {a b c : α} (step : next a = some b) (rest : Leads next b c) :
    Leads next a c :=
  Relation.ReflTransGen.head step rest

theorem Leads.trans {a b c : α} (first : Leads next a b) (second : Leads next b c) :
    Leads next a c :=
  Relation.ReflTransGen.trans first second

theorem Leads.cases {a c : α} (leads : Leads next a c) :
    a = c ∨ ∃ b, next a = some b ∧ Leads next b c := by
  rcases Relation.ReflTransGen.cases_head leads with same | ⟨b, step, rest⟩
  · exact .inl same
  · exact .inr ⟨b, step, rest⟩

theorem Leads.of_step {a b c : α} (step : next a = some b) (leads : Leads next a c) :
    c = a ∨ Leads next b c := by
  rcases leads.cases with same | ⟨b', step', rest⟩
  · exact .inl same.symm
  · rw [step] at step'
    cases step'
    exact .inr rest

/-- A chain that has come to a stop goes nowhere else. -/
theorem Leads.eq_of_stop {z b : α} (stop : next z = none ∨ next z = some z)
    (leads : Leads next z b) : b = z := by
  induction leads with
  | refl => rfl
  | tail _ step ih =>
    rw [ih] at step
    rcases stop with h | h
    · rw [h] at step
      cases step
    · rw [h] at step
      cases step
      rfl

/-- Two places on one chain are one behind the other. -/
theorem Leads.total {a b c : α} (left : Leads next a b) (right : Leads next a c) :
    Leads next b c ∨ Leads next c b := by
  induction left with
  | refl => exact .inl right
  | tail _ step ih =>
    rcases ih with ahead | behind
    · rcases ahead.of_step step with same | rest
      · rw [same]
        exact .inr (.head step (.refl _))
      · exact .inl rest
    · exact .inr (behind.trans (.head step (.refl _)))

theorem Rests.unique {a z w : α} (left : Rests next a z) (right : Rests next a w) : z = w := by
  rcases left.1.total right.1 with h | h
  · exact (h.eq_of_stop left.2).symm
  · exact h.eq_of_stop right.2

theorem Ends.rests {a z : α} (ends : Ends next a z) : Rests next a z := ⟨ends.1, .inl ends.2⟩

theorem Ends.head {a b z : α} (step : next a = some b) (ends : Ends next b z) : Ends next a z :=
  ⟨.head step ends.1, ends.2⟩

theorem Cyclic.head {a b : α} (step : next a = some b) (cyclic : Cyclic next b) :
    Cyclic next a := by
  obtain ⟨c, d, leads, back⟩ := cyclic
  exact ⟨c, d, .head step leads, back⟩

/-- Whatever lies behind a place on a cycle leads back to it. -/
theorem Leads.back {b c x y : α} (step : next b = some c) (back : Leads next c b)
    (before : Leads next x b) (leads : Leads next x y) : Leads next y b := by
  induction leads with
  | refl => exact before
  | tail _ move ih =>
    rcases ih.of_step move with same | rest
    · rw [← same, step] at move
      cases move
      exact back
    · exact rest

theorem Ends.not_cyclic {a z : α} (ends : Ends next a z) : ¬Cyclic next a := by
  rintro ⟨b, c, leads, step, back⟩
  have loop : Leads next z b := Leads.back step back leads ends.1
  have stays : b = z := loop.eq_of_stop (.inl ends.2)
  rw [stays, ends.2] at step
  cases step

/-- A cycle is a long one or an element that follows itself. -/
theorem cyclic_iff {a : α} :
    Cyclic next a ↔ LongCycle next a ∨ ∃ b, Leads next a b ∧ next b = some b := by
  constructor
  · rintro ⟨b, c, leads, step, back⟩
    by_cases same : c = b
    · rw [same] at step
      exact .inr ⟨b, leads, step⟩
    · exact .inl ⟨b, c, leads, step, same, back⟩
  · rintro (⟨b, c, leads, step, -, back⟩ | ⟨b, leads, step⟩)
    · exact ⟨b, c, leads, step, back⟩
    · exact ⟨b, b, leads, step, .refl b⟩

theorem LongCycle.tail {a b : α} (step : next a = some b) (long : LongCycle next a) :
    LongCycle next b := by
  obtain ⟨c, d, leads, move, apart, back⟩ := long
  rcases leads.of_step step with same | rest
  · rw [same, step] at move
    cases move
    rw [same] at apart back
    exact ⟨a, b, back, step, apart, back⟩
  · exact ⟨c, d, rest, move, apart, back⟩

theorem LongCycle.head {a b : α} (step : next a = some b) (long : LongCycle next b) :
    LongCycle next a := by
  obtain ⟨c, d, leads, cycle⟩ := long
  exact ⟨c, d, .head step leads, cycle⟩

/-- A chain that comes to rest is in no long cycle. -/
theorem Rests.not_long {a z : α} (rests : Rests next a z) : ¬LongCycle next a := by
  rintro ⟨b, c, leads, step, apart, back⟩
  have loop : Leads next z b := Leads.back step back leads rests.1
  have stays : b = z := loop.eq_of_stop rests.2
  rw [stays] at step apart
  rcases rests.2 with none | self
  · rw [none] at step
    cases step
  · rw [self] at step
    cases step
    exact apart rfl

/-- A chain enters a self-loop from another element, or starts there. -/
theorem Leads.enters {a b : α} (leads : Leads next a b) :
    a = b ∨ ∃ c, c ≠ b ∧ next c = some b := by
  induction leads using Relation.ReflTransGen.head_induction_on with
  | refl => exact .inl rfl
  | @head a c step _ ih =>
    rcases ih with same | other
    · by_cases here : a = b
      · exact .inl here
      · exact .inr ⟨a, here, same ▸ step⟩
    · exact .inr other

theorem LongCycle.cyclic {a : α} (long : LongCycle next a) : Cyclic next a :=
  cyclic_iff.mpr (.inl long)

/-! ### The walk -/

/-- What following a chain can come to. -/
inductive Outcome (α : Type*) where
  | final (a : α)
  | cycle
  | outOfFuel
  deriving DecidableEq, Repr

section Walk

variable [DecidableEq α] (next)

def follow : Nat → List α → α → Outcome α
  | 0, _, _ => .outOfFuel
  | fuel + 1, seen, a =>
    if a ∈ seen then .cycle
    else match next a with
      | none => .final a
      | some b => follow fuel (a :: seen) b

variable {next}

/-- The walk sees no element with a successor twice. -/
theorem follow_ne_outOfFuel (domain : List α) (covers : ∀ a b, next a = some b → a ∈ domain)
    (fuel : Nat) (seen : List α) (a : α) (nodup : seen.Nodup) (inside : seen ⊆ domain)
    (enough : domain.length < fuel + seen.length) : follow next fuel seen a ≠ .outOfFuel := by
  induction fuel generalizing seen a with
  | zero =>
    -- what has been seen differs pairwise, so it cannot outgrow the domain
    have short := (List.subperm_of_subset nodup inside).length_le
    omega
  | succ fuel ih =>
    simp only [follow]
    by_cases member : a ∈ seen
    · simp [member]
    · rw [if_neg member]
      cases step : next a with
      | none => simp
      | some b =>
        apply ih
        · exact List.nodup_cons.mpr ⟨member, nodup⟩
        · exact List.cons_subset.mpr ⟨covers a b step, inside⟩
        · simp only [List.length_cons]
          omega

theorem follow_final {fuel : Nat} {seen : List α} {a z : α}
    (run : follow next fuel seen a = .final z) : Ends next a z := by
  induction fuel generalizing seen a with
  | zero => cases run
  | succ fuel ih =>
    simp only [follow] at run
    by_cases member : a ∈ seen
    · simp [member] at run
    · rw [if_neg member] at run
      cases step : next a with
      | none =>
        simp only [step, Outcome.final.injEq] at run
        rw [← run]
        exact ⟨.refl a, step⟩
      | some b =>
        simp only [step] at run
        exact (ih run).head step

/-- What has been seen lies in front of the place the walk has come to. -/
theorem follow_cycle {fuel : Nat} {seen : List α} {a : α}
    (behind : ∀ b ∈ seen, ∃ c, next b = some c ∧ Leads next c a)
    (run : follow next fuel seen a = .cycle) : Cyclic next a := by
  induction fuel generalizing seen a with
  | zero => cases run
  | succ fuel ih =>
    simp only [follow] at run
    by_cases member : a ∈ seen
    -- the element has been seen, and from it the chain led back here
    · obtain ⟨c, step, back⟩ := behind a member
      exact ⟨a, c, .refl a, step, back⟩
    · rw [if_neg member] at run
      cases step : next a with
      | none => simp [step] at run
      | some b =>
        simp only [step] at run
        refine (ih ?_ run).head step
        intro d d_mem
        rcases List.mem_cons.mp d_mem with rfl | earlier
        · exact ⟨b, step, .refl b⟩
        · obtain ⟨c, move, leads⟩ := behind d earlier
          exact ⟨c, move, leads.trans (.head step (.refl b))⟩

/-- With more steps than there are successors, a walk ends or finds the cycle. -/
theorem follow_spec (domain : List α) (covers : ∀ a b, next a = some b → a ∈ domain)
    {fuel : Nat} (enough : domain.length < fuel) (a : α) :
    (∃ z, follow next fuel [] a = .final z ∧ Ends next a z) ∨
      follow next fuel [] a = .cycle ∧ Cyclic next a := by
  have steps := follow_ne_outOfFuel domain covers fuel [] a List.nodup_nil (List.nil_subset _)
    (by simpa using enough)
  cases run : follow next fuel [] a with
  | final z => exact .inl ⟨z, rfl, follow_final run⟩
  | cycle => exact .inr ⟨rfl, follow_cycle (by simp) run⟩
  | outOfFuel => exact absurd run steps

end Walk

end LlvmLd.Chains
