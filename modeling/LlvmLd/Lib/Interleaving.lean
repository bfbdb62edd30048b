import Mathlib.Data.List.Count
import Mathlib.Logic.Function.Basic
import LlvmLd.Lib.Avoids

/-!
Processes that work on their own states only. However their steps are interleaved, each process ends
as if it had run alone.
-/

namespace LlvmLd.Interleaving

open Outcome

variable {ι ε σ : Type}

/-- A process: its state, and the steps that it still has to take. -/
structure Process (ε σ : Type) where
  state : σ
  rest : List (σ → Except ε σ)

namespace Process

variable (p : Process ε σ)

/-- One step; a process that has ended stays as it is. -/
def step : Except ε (Process ε σ) :=
  match p.rest with
  | [] => .ok p
  | f :: rest => do
    let state ← f p.state
    return ⟨state, rest⟩

/-- What comes out if the process runs alone. -/
def alone : Except ε σ := p.rest.foldlM (fun state f => f state) p.state

variable {p}

theorem alone_of_ended (ended : p.rest = []) : p.alone = .ok p.state := by
  rw [alone, ended]
  rfl

theorem step_alone {q : Process ε σ} (done : p.step = .ok q) : q.alone = p.alone := by
  rw [step] at done
  split at done
  · cases done
    rfl
  · next f rest steps =>
    obtain ⟨state, first, done⟩ := bind_ok_iff.mp done
    cases done
    rw [alone, alone, steps, List.foldlM_cons, first]
    rfl

theorem step_rest {q : Process ε σ} (done : p.step = .ok q) : q.rest = p.rest.drop 1 := by
  rw [step] at done
  split at done
  · next ended =>
    cases done
    rw [ended, List.drop_nil]
  · next f rest steps =>
    obtain ⟨state, first, done⟩ := bind_ok_iff.mp done
    cases done
    rw [steps, List.drop_one, List.tail_cons]

/-- A process that ends well alone has no step that fails. -/
theorem step_of_alone {s : σ} (ends : p.alone = .ok s) : ∃ q, p.step = .ok q := by
  rw [step]
  split
  · exact ⟨p, rfl⟩
  · next f rest steps =>
    rw [alone, steps, List.foldlM_cons, bind_ok_iff] at ends
    obtain ⟨state, first, -⟩ := ends
    exact ⟨⟨state, rest⟩, bind_ok_iff.mpr ⟨state, first, rfl⟩⟩

end Process

variable [DecidableEq ι]

/-- The steps of all processes, in the order of a schedule. -/
def run (world : ι → Process ε σ) (schedule : List ι) : Except ε (ι → Process ε σ) :=
  schedule.foldlM (fun world i => do
    let q ← (world i).step
    return Function.update world i q) world

section Run

variable {world world' : ι → Process ε σ} {schedule : List ι}

theorem run_cons {i : ι} {rest : List ι} :
    run world (i :: rest) = .ok world' ↔
      ∃ q, (world i).step = .ok q ∧ run (Function.update world i q) rest = .ok world' := by
  rw [run, List.foldlM_cons, bind_ok_iff]
  constructor
  · rintro ⟨between, first, later⟩
    obtain ⟨q, stepped, first⟩ := bind_ok_iff.mp first
    cases first
    exact ⟨q, stepped, later⟩
  · rintro ⟨q, stepped, later⟩
    exact ⟨_, bind_ok_iff.mpr ⟨q, stepped, rfl⟩, later⟩

/-- A process has as many steps less as the schedule names it, and comes out the same alone. -/
theorem run_process (done : run world schedule = .ok world') (i : ι) :
    (world' i).rest = (world i).rest.drop (schedule.count i) ∧
      (world' i).alone = (world i).alone := by
  induction schedule generalizing world with
  | nil =>
    cases done
    exact ⟨rfl, rfl⟩
  | cons j rest ih =>
    obtain ⟨q, stepped, later⟩ := run_cons.mp done
    obtain ⟨steps, same⟩ := ih later
    -- the step is this process's, or leaves it alone
    by_cases own : j = i
    · subst own
      rw [Function.update_self] at steps same
      rw [steps, same, Process.step_rest stepped, List.drop_drop, List.count_cons_self,
        Nat.add_comm]
      exact ⟨rfl, Process.step_alone stepped⟩
    · have other : i ≠ j := fun same => own same.symm
      rw [Function.update_of_ne other] at steps same
      rw [List.count_cons_of_ne own]
      exact ⟨steps, same⟩

/-- The processes that the schedule names end well alone, so no step of the run fails. -/
theorem run_exists (ends : ∀ i ∈ schedule, ∃ s, (world i).alone = .ok s) :
    ∃ world', run world schedule = .ok world' := by
  induction schedule generalizing world with
  | nil => exact ⟨world, rfl⟩
  | cons j rest ih =>
    obtain ⟨s, alone⟩ := ends j (List.mem_cons_self ..)
    obtain ⟨q, stepped⟩ := Process.step_of_alone alone
    -- behind the step, every process still ends when it is run alone
    have later : ∃ world', run (Function.update world j q) rest = .ok world' := by
      apply ih
      intro i member
      by_cases own : i = j
      · subst own
        rw [Function.update_self, Process.step_alone stepped]
        exact ⟨s, alone⟩
      · rw [Function.update_of_ne own]
        exact ends i (List.mem_cons_of_mem _ member)
    obtain ⟨world', later⟩ := later
    exact ⟨world', run_cons.mpr ⟨q, stepped, later⟩⟩

/-- The schedule lets every process end. -/
def Complete (world : ι → Process ε σ) (schedule : List ι) : Prop :=
  ∀ i, (world i).rest.length ≤ schedule.count i

/-- Every complete schedule ends with the states in which the processes end alone. -/
theorem run_eq_alone (complete : Complete world schedule)
    (done : run world schedule = .ok world') (i : ι) :
    (world i).alone = .ok (world' i).state := by
  obtain ⟨steps, same⟩ := run_process done i
  rw [List.drop_eq_nil_of_le (complete i)] at steps
  rw [← same]
  exact Process.alone_of_ended steps

end Run

end LlvmLd.Interleaving
