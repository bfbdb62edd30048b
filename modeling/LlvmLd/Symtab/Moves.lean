import LlvmLd.Symtab.Effects

/-!
# Steps of the loader

A step takes one of its branches, and each of these is one of four moves. What is proved for every
branch, or for every move, holds in every state that is reached.
-/

namespace LlvmLd.Symtab

variable {Name : Type}

/-- The objects that are being scanned. -/
def scans (frames : List (Frame Name)) : List Nat :=
  frames.flatMap fun frame => match frame with
    | .running _ => []
    | .scanning i _ => [i]

variable [DecidableEq Name]

namespace Loader

variable {inp : Inputs Name}

inductive Move (inp : Inputs Name) (s : Loader Name) : Loader Name → Prop
  | control {frames : List (Frame Name)} {phases : List (Phase Name)} {didWork : Option Bool}
      (part : scans frames ⊆ scans s.frames) : Move inp s { s with frames, phases, didWork }
  -- inputs are offered by the scan of their own symbols only
  | called {t : Table Name} {load : Option (File Name)} {events : List (Event Name)}
      {frames : List (Frame Name)} (effect : Effect inp.toNames s.toTable t load events)
      (own : ∀ n i, .offer n (.input i) ∈ events → i ∈ scans s.frames)
      (part : scans frames ⊆ scans s.frames) :
      Move inp s { s with toTable := t, frames, parsed := s.parsed ++ load.toList
                          history := s.history ++ events }
  | scanned {i : Nat} {taskQueue : List (File Name)} {names : List Name}
      (next : s.taskQueue = .input i :: taskQueue) (lazy : s.lazy i = true) :
      Move inp s { s with taskQueue, frames := .scanning i names :: s.frames }
  | read {f : File Name} {taskQueue : List (File Name)} {p : Program Name}
      (next : s.taskQueue = f :: taskQueue) (awake : ∀ i, f = .input i → s.lazy i = false) :
      Move inp s { s with taskQueue, frames := .running p :: s.frames, parsed := s.parsed ++ [f] }

omit [DecidableEq Name] in
private theorem addFile_awake {s : Loader Name} {f : File Name}
    (awake : ∀ i, f = .input i → s.lazy i = false) :
    s.addFile inp f =
      { s with frames := .running (inp.parse f) :: s.frames, parsed := s.parsed ++ [f] } := by
  cases f with
  | input i =>
    rw [addFile, if_neg (by rw [awake i rfl]; exact Bool.false_ne_true)]
  | member archive childOffset => rfl
  | imported dll symbolName => rfl

/-- A file that is to be read at once is no lazy one any more. -/
theorem load_awake {cfg : Names Name} {t t' : Table Name} {f : File Name}
    {events : List (Event Name)} (effect : Effect cfg t t' (some f) events) :
    ∀ i, f = .input i → t'.lazy i = false := by
  cases effect with
  | demanded there body pending why demand =>
    rintro i rfl
    cases demand with
    | made fresh lib => cases lib
    | woken lazy => exact Function.update_self _ _ _

theorem addLoad_eq {s : Loader Name} {t : Table Name} {load : Option (File Name)}
    {events : List (Event Name)} (effect : Effect inp.toNames s.toTable t load events)
    (frames : List (Frame Name)) :
    ∃ frames', scans frames' = scans frames ∧
      Loader.addLoad inp { s with toTable := t, frames, history := s.history ++ events } load =
        { s with toTable := t, frames := frames', parsed := s.parsed ++ load.toList
                 history := s.history ++ events } := by
  cases load with
  | none =>
    refine ⟨frames, rfl, ?_⟩
    rw [Option.toList_none, List.append_nil]
    rfl
  | some f => exact ⟨.running (inp.parse f) :: frames, rfl, addFile_awake (load_awake effect)⟩

omit [DecidableEq Name] in
private theorem events_offer {cfg : Names Name} {t : Table Name} {c : Call Name} {n : Name}
    {f : File Name} (offered : .offer n f ∈ t.events cfg c) : f.isInput = false := by
  -- only archives and DLLs offer in a call; an input offers when it is scanned
  rw [Table.events.eq_def] at offered
  split at offered
  · split at offered
    · simp at offered
    · simp at offered
  · split at offered
    · cases offered
    · rw [List.mem_singleton] at offered
      cases offered
      rfl
  · rw [List.mem_singleton] at offered
    cases offered
    rfl
  · simp at offered
  · cases offered

omit [DecidableEq Name] in
theorem scanEvents_offer {cfg : Names Name} {t : Table Name} {i : Nat} {name n : Name}
    {f : File Name} (offered : .offer n f ∈ t.scanEvents cfg i name) : f = .input i := by
  rw [Table.scanEvents] at offered
  split at offered
  · cases offered
  · rw [List.mem_singleton] at offered
    cases offered
    rfl

/-- The branches of `step`. -/
inductive Branch (inp : Inputs Name) (s : Loader Name) : Loader Name → Prop
  -- a file or a scan ends, or the object that is scanned has been loaded
  | left {frame : Frame Name} {frames : List (Frame Name)} (here : s.frames = frame :: frames)
      (ended : ∀ p, frame = .running p → p = .done) : Branch inp s { s with frames }
  | called {c : Call Name} {k : Answer Name → Program Name} {frames : List (Frame Name)}
      (here : s.frames = .running (.call c k) :: frames) :
      Branch inp s (Loader.addLoad inp
        { s with toTable := (s.toTable.apply inp.toNames c).1
                 frames := .running (k (s.toTable.apply inp.toNames c).2.1) :: frames
                 history := s.history ++ s.toTable.events inp.toNames c }
        (s.toTable.apply inp.toNames c).2.2)
  | offered {i : Nat} {name : Name} {names : List Name} {frames : List (Frame Name)}
      (here : s.frames = .scanning i (name :: names) :: frames) (lazy : s.lazy i = true) :
      Branch inp s (Loader.addLoad inp
        { s with toTable := (s.toTable.addLazyObject inp.toNames i name).1
                 frames := .scanning i names :: frames
                 history := s.history ++ s.toTable.scanEvents inp.toNames i name }
        (s.toTable.addLazyObject inp.toNames i name).2)
  | popped {didWork : Bool} {f : File Name} {taskQueue : List (File Name)} (here : s.frames = [])
      (inside : s.didWork = some didWork) (next : s.taskQueue = f :: taskQueue) :
      Branch inp s (Loader.addFile inp { s with taskQueue } f)
  -- another round of the loop, the end of a part, and the next one
  | again {body : Table Name → List (File Name) → Program Name} {phases : List (Phase Name)}
      (here : s.frames = []) (inside : s.didWork = some true) (waits : s.taskQueue = [])
      (more : s.phases = .whileRun body :: phases) :
      Branch inp s { s with frames := [.running (body s.toTable s.parsed)], didWork := none }
  | returned {p : Phase Name} {phases : List (Phase Name)} (here : s.frames = [])
      (waits : s.taskQueue = []) (more : s.phases = p :: phases) :
      Branch inp s { s with phases, didWork := none }
  | began {body : Table Name → List (File Name) → Program Name} {phases : List (Phase Name)}
      (here : s.frames = []) (more : s.phases = .calls body :: phases) :
      Branch inp s { s with frames := [.running (body s.toTable s.parsed)], phases }
  | ran (here : s.frames = []) (outside : s.didWork = none) :
      Branch inp s { s with didWork := some !s.taskQueue.isEmpty }

theorem branch_of_step {s s' : Loader Name} (stepped : s.step inp = some s') : Branch inp s s' := by
  rw [step] at stepped
  split at stepped
  · rename_i here
    cases stepped
    exact .left here fun p same => by cases same; rfl
  · rename_i here
    obtain rfl := Option.some.inj stepped
    exact .called here
  · rename_i here
    cases stepped
    exact .left here fun p scan => by cases scan
  · rename_i here
    split at stepped
    · rename_i lazy
      obtain rfl := Option.some.inj stepped
      exact .offered here lazy
    · cases stepped
      exact .left here fun p scan => by cases scan
  -- the stack is empty: the queue is next, then the driver
  · rename_i here
    split at stepped
    · rename_i inside
      split at stepped
      · rename_i next
        obtain rfl := Option.some.inj stepped
        exact .popped here inside next
      · rename_i waits
        split at stepped
        · cases stepped
        · rename_i more
          split at stepped
          · rename_i worked
            rw [worked] at inside
            cases stepped
            exact .again here inside waits more
          · cases stepped
            exact .returned here waits more
        · rename_i more
          cases stepped
          exact .returned here waits more
    · rename_i outside
      split at stepped
      · cases stepped
      · rename_i more
        cases stepped
        exact .began here more
      · cases stepped
        exact .ran here outside

theorem move_of_step {s s' : Loader Name} (stepped : s.step inp = some s') : Move inp s s' := by
  cases branch_of_step stepped with
  | left here ended =>
    apply Move.control
    rw [here]
    exact fun i scanned => List.mem_append_right _ scanned
  -- a call may load a file on top of its caller
  | @called c k frames here =>
    have effect := @Table.apply_effect _ _ inp.toNames s.toTable c
    obtain ⟨frames', same, moved⟩ := addLoad_eq effect
      (.running (k (s.toTable.apply inp.toNames c).2.1) :: frames)
    rw [moved]
    refine .called effect (fun n i offered => ?_) ?_
    · cases events_offer offered
    · rw [same, here]
      exact List.Subset.refl _
  | @offered i name names frames here lazy =>
    have effect := @Table.addLazyObject_effect _ _ inp.toNames s.toTable i lazy name
    obtain ⟨frames', same, moved⟩ := addLoad_eq effect (.scanning i names :: frames)
    rw [moved]
    refine .called effect (fun n j offered => ?_) ?_
    · cases scanEvents_offer offered
      rw [here]
      exact List.mem_cons_self
    · rw [same, here]
      exact List.Subset.refl _
  | @popped didWork f taskQueue here inside next =>
    by_cases awake : ∀ i, f = .input i → s.lazy i = false
    · rw [@addFile_awake _ inp { s with taskQueue } f awake]
      exact .read next awake
    · obtain ⟨i, notAwake⟩ := not_forall.mp awake
      obtain ⟨rfl, lazy⟩ := Classical.not_imp.mp notAwake
      rw [Bool.not_eq_false] at lazy
      rw [addFile, if_pos lazy]
      exact .scanned next lazy
  | again here inside waits more => exact .control (List.nil_subset _)
  | returned here waits more => exact .control (List.Subset.refl _)
  | began here more => exact .control (List.nil_subset _)
  | ran here outside => exact .control (List.Subset.refl _)

end Loader

end LlvmLd.Symtab
