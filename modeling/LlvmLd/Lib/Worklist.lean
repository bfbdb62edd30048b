import Mathlib.Data.Fintype.Card
import Mathlib.Data.Finset.Basic
import Mathlib.Logic.Function.Basic
import Mathlib.Tactic.Common

/-!
A worklist that marks as it pushes: an element goes onto the stack when it is found unmarked, and
its finds are marked when it is taken off. Besides elements an expansion may find notes, which are
only remembered. An expansion may also fail, and the run with it.

Over a finite type a run without failures ends, with exactly the elements that were entered.
-/

namespace LlvmLd.Worklist

variable {α β : Type*}

structure State (α β : Type*) where
  live : α → Bool
  noted : β → Bool
  stack : List α

section Marking

variable [DecidableEq α] [DecidableEq β]

def mark (s : State α β) : α ⊕ β → State α β
  | .inl a =>
    if s.live a then s
    else { s with live := Function.update s.live a true, stack := a :: s.stack }
  | .inr b => { s with noted := Function.update s.noted b true }

def markAll (s : State α β) (items : List (α ⊕ β)) : State α β := items.foldl mark s

def run (expand : α → Option (List (α ⊕ β))) : Nat → State α β → Option (State α β)
  | 0, _ => none
  | fuel + 1, s =>
    match s.stack with
    | [] => some s
    | a :: rest =>
      (expand a).bind fun items => run expand fuel (markAll { s with stack := rest } items)

theorem markAll_append (s : State α β) (items more : List (α ⊕ β)) :
    markAll s (items ++ more) = markAll (markAll s items) more :=
  List.foldl_append

private theorem mark_live (s : State α β) (x : α ⊕ β) (a : α) :
    (mark s x).live a = true ↔ s.live a = true ∨ x = .inl a := by
  cases x with
  | inr b => simp [mark]
  | inl c =>
    by_cases old : s.live c = true
    · simp only [mark, if_pos old, Sum.inl.injEq]
      exact ⟨Or.inl, fun either => either.elim id fun same => same ▸ old⟩
    · by_cases same : a = c
      · simp [mark, old, same]
      · simp [mark, old, same, Ne.symm same]

private theorem mark_noted (s : State α β) (x : α ⊕ β) (b : β) :
    (mark s x).noted b = true ↔ s.noted b = true ∨ x = .inr b := by
  cases x with
  | inl a =>
    simp only [mark, reduceCtorEq, or_false]
    split <;> rfl
  | inr c =>
    by_cases same : b = c
    · simp [mark, same]
    · simp [mark, same, Ne.symm same]

private theorem mark_stack (s : State α β) (x : α ⊕ β) (a : α) :
    a ∈ (mark s x).stack ↔ a ∈ s.stack ∨ (x = .inl a ∧ s.live a = false) := by
  cases x with
  | inr b => simp [mark]
  | inl c =>
    by_cases old : s.live c = true
    · simp only [mark, if_pos old, Sum.inl.injEq]
      refine ⟨Or.inl, fun either => either.elim id ?_⟩
      rintro ⟨rfl, fresh⟩
      simp [old] at fresh
    · simp only [mark, if_neg old, List.mem_cons, Sum.inl.injEq]
      constructor
      · rintro (rfl | before)
        · exact Or.inr ⟨rfl, by simpa using old⟩
        · exact Or.inl before
      · rintro (before | ⟨rfl, -⟩)
        · exact Or.inr before
        · exact Or.inl rfl

theorem markAll_live (s : State α β) (items : List (α ⊕ β)) (a : α) :
    (markAll s items).live a = true ↔ s.live a = true ∨ .inl a ∈ items := by
  induction items generalizing s with
  | nil => simp [markAll]
  | cons x rest ih =>
    refine (ih (mark s x)).trans ?_
    rw [mark_live, List.mem_cons, or_assoc, eq_comm (a := x)]

theorem markAll_noted (s : State α β) (items : List (α ⊕ β)) (b : β) :
    (markAll s items).noted b = true ↔ s.noted b = true ∨ .inr b ∈ items := by
  induction items generalizing s with
  | nil => simp [markAll]
  | cons x rest ih =>
    refine (ih (mark s x)).trans ?_
    rw [mark_noted, List.mem_cons, or_assoc, eq_comm (a := x)]

/-- Exactly the elements found unmarked are pushed. -/
theorem markAll_stack (s : State α β) (items : List (α ⊕ β)) (a : α) :
    a ∈ (markAll s items).stack ↔ a ∈ s.stack ∨ (.inl a ∈ items ∧ s.live a = false) := by
  induction items generalizing s with
  | nil => simp [markAll]
  | cons x rest ih =>
    refine (ih (mark s x)).trans ?_
    have live := mark_live s x a
    rw [mark_stack, List.mem_cons, eq_comm (a := Sum.inl a)]
    cases marked : (mark s x).live a <;> cases before : s.live a <;> simp_all

end Marking

/-! ## What a run enters -/

/-- What a run from a state takes off the stack at some point. -/
inductive Entered (expand : α → Option (List (α ⊕ β))) (s : State α β) : α → Prop
  | stacked {a : α} (member : a ∈ s.stack) : Entered expand s a
  | found {a b : α} {items : List (α ⊕ β)} (before : Entered expand s a)
    (expanded : expand a = some items) (member : .inl b ∈ items) (fresh : s.live b = false) :
    Entered expand s b

section Run

variable [DecidableEq α] [DecidableEq β] {expand : α → Option (List (α ⊕ β))}

/-- Taking an element off the stack and marking its finds enters that element and no other. -/
theorem entered_step {s : State α β} {a : α} {rest : List α} {items : List (α ⊕ β)}
    (stack : s.stack = a :: rest) (expanded : expand a = some items) (x : α) :
    Entered expand s x ↔ x = a ∨ Entered expand (markAll { s with stack := rest } items) x := by
  constructor
  · intro entered
    induction entered with
    -- What was on the stack is `a` or still there.
    | stacked member =>
      rw [stack] at member
      rcases List.mem_cons.mp member with same | later
      · exact Or.inl same
      · exact Or.inr (.stacked ((markAll_stack _ items _).mpr (Or.inl later)))
    | @found y b items' _ expanded' member fresh ih =>
      right
      rcases ih with rfl | before
      · cases expanded.symm.trans expanded'
        exact .stacked ((markAll_stack _ items b).mpr (Or.inr ⟨member, fresh⟩))
      · by_cases marked : .inl b ∈ items
        · exact .stacked ((markAll_stack _ items b).mpr (Or.inr ⟨marked, fresh⟩))
        · refine .found before expanded' member ?_
          have live := markAll_live { s with stack := rest } items b
          cases still : (markAll { s with stack := rest } items).live b with
          | false => rfl
          | true => simp_all
  · rintro (rfl | entered)
    · exact .stacked (by simp [stack])
    · induction entered with
      | @stacked b member =>
        rcases (markAll_stack _ items b).mp member with later | ⟨marked, fresh⟩
        · exact .stacked (by simp [stack, later])
        · exact .found (.stacked (by simp [stack])) expanded marked fresh
      | @found y b items' _ expanded' member fresh ih =>
        refine .found ih expanded' member ?_
        have live := markAll_live { s with stack := rest } items b
        cases old : s.live b with
        | false => rfl
        | true => simp_all

/-- A run that ends has expanded all it entered, and has marked exactly what was marked before,
what it entered and what it found. -/
theorem run_exact {fuel : Nat} {s t : State α β} (ran : run expand fuel s = some t)
    (marked : ∀ a ∈ s.stack, s.live a = true) :
    (∀ a, Entered expand s a → ∃ items, expand a = some items) ∧
      (∀ a, t.live a = true ↔ s.live a = true ∨ Entered expand s a) ∧
      ∀ b, t.noted b = true ↔ s.noted b = true ∨
        ∃ a items, Entered expand s a ∧ expand a = some items ∧ .inr b ∈ items := by
  induction fuel generalizing s with
  | zero => cases ran
  | succ fuel ih =>
    rw [run] at ran
    cases stack : s.stack with
    | nil =>
      simp only [stack, Option.some.injEq] at ran
      subst ran
      -- On an empty stack nothing is entered.
      have none' : ∀ a, ¬ Entered expand s a := by
        intro a entered
        induction entered with
        | stacked member =>
          rw [stack] at member
          cases member
        | found _ _ _ _ ih => exact ih
      refine ⟨fun a entered => absurd entered (none' a), fun a => by simp [none' a], fun b => ?_⟩
      simp only [none', false_and, exists_false, or_false]
    | cons a rest =>
      simp only [stack, Option.bind_eq_some_iff] at ran
      obtain ⟨items, expanded, ran⟩ := ran
      have step := entered_step stack expanded
      -- What the round pushes it also marks, so the induction applies to the next state.
      have marked' : ∀ b ∈ (markAll { s with stack := rest } items).stack,
          (markAll { s with stack := rest } items).live b = true := by
        intro b member
        rw [markAll_live]
        rcases (markAll_stack _ items b).mp member with later | ⟨found, -⟩
        · exact Or.inl (marked b (by simp [stack, show b ∈ rest from later]))
        · exact Or.inr found
      obtain ⟨all, live, noted⟩ := ih ran marked'
      refine ⟨fun x entered => ?_, fun x => ?_, fun b => ?_⟩
      -- Entered is the popped `a`, or what is entered from the next state: each of the three
      -- facts splits so.
      · rcases (step x).mp entered with rfl | later
        · exact ⟨items, expanded⟩
        · exact all x later
      · rw [live, markAll_live, step]
        constructor
        · rintro ((old | found) | later)
          · exact Or.inl old
          · cases old : s.live x with
            | true => exact Or.inl rfl
            | false =>
              exact Or.inr (Or.inr (.stacked ((markAll_stack _ items x).mpr (Or.inr ⟨found, old⟩))))
          · exact Or.inr (Or.inr later)
        · rintro (old | rfl | later)
          · exact Or.inl (Or.inl old)
          · exact Or.inl (Or.inl (marked x (by simp [stack])))
          · exact Or.inr later
      · rw [noted, markAll_noted]
        constructor
        · rintro ((old | found) | ⟨x, more, entered, expanded', member⟩)
          · exact Or.inl old
          · exact Or.inr ⟨a, items, (step a).mpr (Or.inl rfl), expanded, found⟩
          · exact Or.inr ⟨x, more, (step x).mpr (Or.inr entered), expanded', member⟩
        · rintro (old | ⟨x, more, entered, expanded', member⟩)
          · exact Or.inl (Or.inl old)
          · rcases (step x).mp entered with rfl | later
            · cases expanded.symm.trans expanded'
              exact Or.inl (Or.inr member)
            · exact Or.inr ⟨x, more, later, expanded', member⟩

/-! ## Termination -/

variable [Fintype α]

/-- The elements that are not marked yet. -/
def dead (s : State α β) : Finset α := Finset.univ.filter fun a => s.live a = false

private theorem mark_measure (s : State α β) (x : α ⊕ β) :
    (dead (mark s x)).card + (mark s x).stack.length = (dead s).card + s.stack.length := by
  cases x with
  | inr b => rfl
  | inl a =>
    by_cases old : s.live a = true
    · simp only [mark, if_pos old]
    · have fresh : a ∈ dead s := by simp [dead, old]
      have fewer : dead (mark s (.inl a)) = (dead s).erase a := by
        ext b
        by_cases same : b = a
        · simp [dead, mark, old, same]
        · simp [dead, mark, old, same]
      rw [fewer, Finset.card_erase_of_mem fresh]
      simp only [mark, if_neg old, List.length_cons]
      have := Finset.card_pos.mpr ⟨a, fresh⟩
      omega

private theorem markAll_measure (s : State α β) (items : List (α ⊕ β)) :
    (dead (markAll s items)).card + (markAll s items).stack.length =
      (dead s).card + s.stack.length := by
  induction items generalizing s with
  | nil => rfl
  | cons x rest ih => exact (ih (mark s x)).trans (mark_measure s x)

/-- A run whose expansions succeed takes at most as many steps as there are unmarked and stacked
elements. -/
theorem run_ends (s : State α β) (all : ∀ a, Entered expand s a → ∃ items, expand a = some items)
    (fuel : Nat) (enough : (dead s).card + s.stack.length < fuel) :
    ∃ t, run expand fuel s = some t := by
  induction fuel generalizing s with
  | zero => omega
  | succ fuel ih =>
    rw [run]
    cases stack : s.stack with
    | nil => exact ⟨s, rfl⟩
    | cons a rest =>
      obtain ⟨items, expanded⟩ := all a (.stacked (by simp [stack]))
      have measure := markAll_measure { s with stack := rest } items
      obtain ⟨t, ran⟩ := ih (markAll { s with stack := rest } items)
        (fun x entered => all x ((entered_step stack expanded x).mpr (Or.inr entered)))
        (by
          rw [measure]
          rw [stack, List.length_cons] at enough
          exact Nat.lt_of_succ_lt_succ enough)
      exact ⟨t, by simp only [expanded, Option.bind_some, ran]⟩

end Run

end LlvmLd.Worklist
