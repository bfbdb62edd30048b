import Mathlib.Algebra.BigOperators.Fin
import Mathlib.Algebra.BigOperators.Group.Finset.Basic
import Mathlib.Algebra.Order.Ring.Int

/-!
# Partial transition systems

A system is a step function `σ → α → Option σ`; a step that is not enabled gives `none`. Runs
are sequences of labels, and a run may be guarded by a condition on each label and the state
right before it. Safety is proved from one preservation lemma for each invariant.
-/

namespace LlvmLd.Transition

variable {σ : Type*} {α : Type*}

/-- Execute a sequence of labels, stopping when one of them is not enabled. -/
def run (step : σ → α → Option σ) : σ → List α → Option σ
  | state, [] => some state
  | state, label :: rest => (step state label).bind (fun next => run step next rest)

/-- Every label of the run meets `guard` in the state right before it. -/
def Guarded (step : σ → α → Option σ) (guard : σ → α → Prop) : σ → List α → Prop
  | _, [] => True
  | state, label :: rest =>
      guard state label ∧ ∀ next, step state label = some next → Guarded step guard next rest

instance decidableGuarded (step : σ → α → Option σ) (guard : σ → α → Prop)
    [∀ state label, Decidable (guard state label)] :
    (state : σ) → (labels : List α) → Decidable (Guarded step guard state labels)
  | _, [] => isTrue trivial
  | state, label :: rest =>
      match stepped : step state label with
      | none =>
          decidable_of_iff (guard state label)
            ⟨fun h => ⟨h, fun next some_next => by simp [stepped] at some_next⟩, fun h => h.1⟩
      | some next =>
          have := decidableGuarded step guard next rest
          decidable_of_iff (guard state label ∧ Guarded step guard next rest)
            ⟨fun h => ⟨h.1, fun other same => by
                rw [stepped, Option.some.injEq] at same
                exact same ▸ h.2⟩,
              fun h => ⟨h.1, h.2 next stepped⟩⟩

/-- An invariant that guarded steps preserve holds at the end of every guarded run. -/
theorem guarded_run_invariant (step : σ → α → Option σ) (guard : σ → α → Prop)
    (inv : σ → Prop)
    (preserved : ∀ state label next,
      inv state → guard state label → step state label = some next → inv next)
    (labels : List α) (state final : σ) (holds : inv state)
    (guarded : Guarded step guard state labels) (ran : run step state labels = some final) :
    inv final := by
  induction labels generalizing state with
  | nil =>
    simp only [run, Option.some.injEq] at ran
    exact ran ▸ holds
  | cons label rest ih =>
    simp only [run, Option.bind_eq_some_iff] at ran
    obtain ⟨next, stepped, ran⟩ := ran
    exact ih next (preserved state label next holds guarded.1 stepped) (guarded.2 next stepped) ran

theorem guarded_true (step : σ → α → Option σ) (state : σ) (labels : List α) :
    Guarded step (fun _ _ => True) state labels := by
  induction labels generalizing state with
  | nil => trivial
  | cons label rest ih => exact ⟨trivial, fun next _ => ih next⟩

/-- An invariant that every step preserves holds at the end of every run. -/
theorem run_invariant (step : σ → α → Option σ) (inv : σ → Prop)
    (preserved : ∀ state label next, inv state → step state label = some next → inv next)
    (labels : List α) (state final : σ) (holds : inv state)
    (ran : run step state labels = some final) : inv final :=
  guarded_run_invariant step (fun _ _ => True) inv
    (fun state label next h _ stepped => preserved state label next h stepped)
    labels state final holds (guarded_true step state labels) ran

/-! ### Sums over the components of a state -/

/-- Replacing one component changes a sum over all components by that component's share. -/
theorem sum_update_add {ι : Type*} [Fintype ι] [DecidableEq ι] {β : Type*}
    (weight : β → Nat) (components : ι → β) (i : ι) (value : β) :
    (∑ j, weight (Function.update components i value j)) + weight (components i) =
      (∑ j, weight (components j)) + weight value := by
  have updated : (fun j => weight (Function.update components i value j)) =
      Function.update (fun j => weight (components j)) i (weight value) := by
    funext j
    by_cases same : j = i
    · subst same
      simp
    · simp [same]
  rw [updated, Finset.sum_update_of_mem (Finset.mem_univ i)]
  have split := Finset.sum_eq_sum_sdiff_singleton_add (Finset.mem_univ i)
    (fun j => weight (components j))
  omega

/-! ### Runs that can fail -/

section Failing

variable {ε : Type*} (step : σ → α → Except ε σ)

theorem foldlM_cons_ok_iff (state final : σ) (x : α) (rest : List α) :
    (x :: rest).foldlM step state = .ok final ↔
      ∃ next, step state x = .ok next ∧ rest.foldlM step next = .ok final := by
  rw [List.foldlM_cons]
  cases first : step state x with
  | error e =>
    constructor
    · intro done
      cases done
    · rintro ⟨next, stepped, -⟩
      cases stepped
  | ok next =>
    constructor
    · intro done
      exact ⟨next, rfl, done⟩
    · rintro ⟨other, stepped, done⟩
      cases stepped
      exact done

/-- A run fails just if it gets to a label whose step fails. -/
theorem foldlM_error_iff (state : σ) (labels : List α) (e : ε) :
    labels.foldlM step state = .error e ↔
      ∃ front x rest reached, labels = front ++ x :: rest ∧
        front.foldlM step state = .ok reached ∧ step reached x = .error e := by
  induction labels generalizing state with
  | nil =>
    constructor
    · intro failed
      cases failed
    · rintro ⟨front, x, rest, reached, split, -⟩
      cases front <;> cases split
  | cons y labels ih =>
    rw [List.foldlM_cons]
    constructor
    · intro failed
      -- Either the first step fails, or the induction finds the label behind it.
      cases first : step state y with
      | error e' =>
        rw [first] at failed
        cases failed
        exact ⟨[], y, labels, state, rfl, rfl, first⟩
      | ok next =>
        rw [first] at failed
        obtain ⟨front, x, rest, reached, split, passed, last⟩ := (ih next).mp failed
        refine ⟨y :: front, x, rest, reached, by rw [split, List.cons_append], ?_, last⟩
        exact (foldlM_cons_ok_iff step state reached y front).mpr ⟨next, first, passed⟩
    · rintro ⟨front, x, rest, reached, split, passed, last⟩
      cases front with
      | nil =>
        cases split
        cases passed
        rw [last]
        rfl
      | cons z front =>
        cases split
        obtain ⟨next, stepped, passed⟩ := (foldlM_cons_ok_iff step state reached y front).mp passed
        rw [stepped]
        exact (ih next).mpr ⟨front, x, rest, reached, rfl, passed, last⟩

end Failing

end LlvmLd.Transition
