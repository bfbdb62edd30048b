import Mathlib.Algebra.Order.BigOperators.Group.Finset
import LlvmLd.Abi.Invoke

/-!
Single entry and poisoning. One accounting fact about a frame step (it moves the lock between
the frame and the flag, never duplicating it) carries mutual exclusion. Permanent poisoning needs
more: the poisoned flag is read before the lock is taken, so it holds only for runs in which no
invocation whose arguments are accepted takes the lock after the flag was set.
-/

namespace LlvmLd.Abi

open Transition

/-- The frame runs under an `Unlock` guard. -/
def Frame.holdsLock : Frame → Bool
  | .invoke _ _ .entry => false
  | .invoke _ _ .loaded => false
  | .invoke _ _ _ => true
  | .profiler _ _ .entry => false
  | .profiler _ _ _ => true

/-- The frame is about to copy its arguments, which are accepted, and enter `lldMain`. -/
def Frame.atCopy : Frame → Bool
  | .invoke req _ .locked => (req.bind prepareMain).isSome
  | _ => false

def Outcome.count (p : Frame → Bool) : Outcome → Nat
  | .goto frame => (p frame).toNat
  | .ret _ _ => 0

/-- The number of frames of all threads that satisfy `p`. -/
def State.frames {n : Nat} (s : State n) (p : Frame → Bool) : Nat :=
  ∑ t, (s.threads t).countP p

/-- The invoking flag is set exactly when one frame holds it. -/
def LockInv {n : Nat} (s : State n) : Prop :=
  s.frames Frame.holdsLock = s.flags.invoking.toNat

/-- Once poisoned, no invocation is about to enter `lldMain`. -/
def PoisonInv {n : Nat} (s : State n) : Prop :=
  s.flags.poisoned = true → s.frames Frame.atCopy = 0

/-! ### What one step can do -/

private theorem countP_cons_toNat (p : Frame → Bool) (frame : Frame) (rest : List Frame) :
    (frame :: rest).countP p = rest.countP p + (p frame).toNat := by
  cases h : p frame <;> simp [h]

private theorem frames_update {n : Nat} (s : State n) (p : Frame → Bool) (t : Fin n)
    (frames : List Frame) :
    (∑ j, (Function.update s.threads t frames j).countP p) + (s.threads t).countP p =
      s.frames p + frames.countP p :=
  sum_update_add (List.countP p) s.threads t frames

/-- A step pushes a fresh call, or moves the top frame of one thread by one atomic step. -/
theorem step_cases {n : Nat} (build : Build) (s next : State n) (label : Fin n × Action)
    (stepped : step build s label = some next) :
    (∃ frame, calledFrame label.2 = some frame ∧ next.flags = s.flags ∧
      ∀ p, next.frames p = s.frames p + (p frame).toNat) ∨
    (∃ frame rest flags outcome, s.threads label.1 = frame :: rest ∧
      stepFrame build s.flags frame label.2 = some (flags, outcome) ∧ next.flags = flags ∧
      ∀ p, next.frames p + (p frame).toNat = s.frames p + outcome.count p) := by
  simp only [step] at stepped
  split at stepped
  -- A call puts its first frame on top of the thread's stack.
  case h_1 frame called =>
    split at stepped
    case isFalse => cases stepped
    case isTrue =>
      cases stepped
      refine Or.inl ⟨frame, called, rfl, fun p => ?_⟩
      have counted := frames_update s p label.1 (frame :: s.threads label.1)
      rw [countP_cons_toNat] at counted
      simp only [State.frames] at counted ⊢
      omega
  case h_2 =>
    split at stepped
    case h_1 => cases stepped
    -- Otherwise it is the top frame that moves: to its next place, or back to its caller.
    case h_2 frame rest top =>
      split at stepped
      case h_1 => cases stepped
      case h_2 flags after moved =>
        cases stepped
        refine Or.inr ⟨frame, rest, flags, .goto after, top, moved, rfl, fun p => ?_⟩
        have counted := frames_update s p label.1 (after :: rest)
        rw [top, countP_cons_toNat, countP_cons_toNat] at counted
        simp only [State.frames, Outcome.count] at counted ⊢
        omega
      case h_3 flags status out moved =>
        cases stepped
        refine Or.inr ⟨frame, rest, flags, .ret status out, top, moved, rfl, fun p => ?_⟩
        have counted := frames_update s p label.1 rest
        rw [top, countP_cons_toNat] at counted
        simp only [State.frames, Outcome.count] at counted ⊢
        omega

/-- A called frame starts before its first atomic step. -/
private theorem calledFrame_fresh (action : Action) (frame : Frame)
    (called : calledFrame action = some frame) :
    frame.holdsLock = false ∧ frame.atCopy = false ∧ frame.inMain = false := by
  cases action <;> simp only [calledFrame, Option.some.injEq, reduceCtorEq] at called
  all_goals
    subst called
    exact ⟨rfl, rfl, rfl⟩

private theorem top_frame_le {n : Nat} (s : State n) (p : Frame → Bool) (t : Fin n)
    (frame : Frame) (rest : List Frame) (top : s.threads t = frame :: rest) :
    (p frame).toNat ≤ s.frames p := by
  have single : (s.threads t).countP p ≤ s.frames p :=
    Finset.single_le_sum (f := fun j => (s.threads j).countP p)
      (fun _ _ => Nat.zero_le _) (Finset.mem_univ t)
  rw [top, countP_cons_toNat] at single
  omega

/-- What a frame step does to the flags and to the frame's own standing. -/
private theorem stepFrame_accounting (build : Build) (flags after : Flags) (frame : Frame)
    (action : Action) (outcome : Outcome)
    (owned : frame.holdsLock = true → flags.invoking = true)
    (moved : stepFrame build flags frame action = some (after, outcome)) :
    outcome.count Frame.holdsLock + flags.invoking.toNat =
      frame.holdsLock.toNat + after.invoking.toNat := by
  rcases frame with ⟨req, out, pc⟩ | ⟨op, which, pc⟩ <;> cases pc <;> cases action <;>
    simp only [stepFrame, stepInvoke, stepProfiler, reduceCtorEq] at moved
  all_goals try (split at moved)
  all_goals try (split at moved)
  all_goals
    simp only [Option.some.injEq, Prod.mk.injEq] at moved
    obtain ⟨rfl, rfl⟩ := moved
    simp_all [Outcome.count, Frame.holdsLock]

/-- Only the copy step enters `lldMain`, and only the acquiring step reaches the copy step. -/
private theorem stepFrame_advances (build : Build) (flags after : Flags) (frame : Frame)
    (action : Action) (outcome : Outcome)
    (moved : stepFrame build flags frame action = some (after, outcome)) :
    outcome.count Frame.inMain ≤ frame.inMain.toNat + frame.atCopy.toNat ∧
      (outcome.count Frame.atCopy = 0 ∨
        action = .advance ∧ flags.invoking = false ∧ after.poisoned = flags.poisoned ∧
          ∃ req out, frame = .invoke req out .loaded ∧ (req.bind prepareMain).isSome = true) ∧
      (after.poisoned = flags.poisoned ∨ frame.holdsLock = true ∧ frame.atCopy = false) := by
  rcases frame with ⟨req, out, pc⟩ | ⟨op, which, pc⟩ <;> cases pc <;> cases action <;>
    simp only [stepFrame, stepInvoke, stepProfiler, reduceCtorEq] at moved
  all_goals try (split at moved)
  all_goals try (split at moved)
  all_goals
    simp only [Option.some.injEq, Prod.mk.injEq] at moved
    obtain ⟨rfl, rfl⟩ := moved
    simp_all [Outcome.count, Frame.holdsLock, Frame.atCopy, Frame.inMain]
  -- The acquiring step gets here with any arguments; only accepted ones are counted.
  all_goals
    rw [← Option.bind_eq_none_iff]
    cases req.bind prepareMain <;> simp

/-! ### Mutual exclusion -/

private theorem lockInv_step {n : Nat} (build : Build) (s : State n) (label : Fin n × Action)
    (next : State n) (holds : LockInv s) (stepped : step build s label = some next) :
    LockInv next := by
  simp only [LockInv] at holds ⊢
  rcases step_cases build s next label stepped with
    ⟨frame, called, flags, counted⟩ | ⟨frame, rest, after, outcome, top, moved, flags, counted⟩
  · have fresh := calledFrame_fresh label.2 frame called
    simp [counted, flags, fresh.1, holds]
  · have below := top_frame_le s Frame.holdsLock label.1 frame rest top
    -- the moving frame holds the lock only when the flag is set
    have owned : frame.holdsLock = true → s.flags.invoking = true := by
      intro held
      rw [holds, held] at below
      exact Bool.toNat_eq_one.mp (by have := Bool.toNat_le s.flags.invoking; simp at below; omega)
    have accounting :=
      stepFrame_accounting build s.flags after frame label.2 outcome owned moved
    have total := counted Frame.holdsLock
    rw [flags]
    omega

private theorem frames_init (n : Nat) (p : Frame → Bool) : (State.init n).frames p = 0 := by
  simp [State.frames, State.init]

private theorem lockInv_run {n : Nat} (build : Build) (trace : List (Fin n × Action)) (s : State n)
    (ran : run (step build) (State.init n) trace = some s) : LockInv s :=
  run_invariant (step build) LockInv (lockInv_step build) trace (State.init n) s
    (frames_init n _) ran

private theorem countP_add_le (p q r : Frame → Bool)
    (disjoint : ∀ frame, (p frame).toNat + (q frame).toNat ≤ (r frame).toNat)
    (frames : List Frame) : frames.countP p + frames.countP q ≤ frames.countP r := by
  induction frames with
  | nil => simp
  | cons frame rest ih =>
    have head := disjoint frame
    rw [countP_cons_toNat, countP_cons_toNat, countP_cons_toNat]
    omega

/-- Two disjoint kinds of frames among a third are counted apart in it. -/
private theorem frames_add_le {n : Nat} (s : State n) (p q r : Frame → Bool)
    (disjoint : ∀ frame, (p frame).toNat + (q frame).toNat ≤ (r frame).toNat) :
    s.frames p + s.frames q ≤ s.frames r := by
  simp only [State.frames]
  rw [← Finset.sum_add_distrib]
  exact Finset.sum_le_sum fun t _ => countP_add_le p q r disjoint (s.threads t)

/-- A frame in `lldMain` or about to enter it holds the lock. -/
private theorem inMain_add_atCopy_le (frame : Frame) :
    frame.inMain.toNat + frame.atCopy.toNat ≤ frame.holdsLock.toNat := by
  rcases frame with ⟨req, out, pc⟩ | ⟨op, which, pc⟩ <;> cases pc <;>
    simp [Frame.inMain, Frame.atCopy, Frame.holdsLock, Bool.toNat_le]

private theorem mainCalls_le_one {n : Nat} (s : State n) (holds : LockInv s) : s.mainCalls ≤ 1 := by
  have held := frames_add_le s _ _ _ inMain_add_atCopy_le
  have bound := Bool.toNat_le s.flags.invoking
  change s.frames Frame.inMain ≤ 1
  simp only [LockInv] at holds
  omega

private theorem idle_invoking_clear {n : Nat} (s : State n) (holds : LockInv s) (idle : s.Idle) :
    s.flags.invoking = false := by
  have none_held : s.frames Frame.holdsLock = 0 := by
    simp only [State.frames]
    exact Finset.sum_eq_zero (fun t _ => by rw [idle t]; rfl)
  simp only [LockInv] at holds
  rw [none_held] at holds
  exact Bool.toNat_eq_zero.mp holds.symm

/-! ### Poisoning -/

/-- The poisoned flag is never cleared. -/
theorem poisoned_step {n : Nat} (build : Build) (s : State n) (label : Fin n × Action)
    (next : State n) (holds : s.flags.poisoned = true)
    (stepped : step build s label = some next) : next.flags.poisoned = true := by
  rcases step_cases build s next label stepped with
    ⟨frame, called, flags, counted⟩ | ⟨frame, rest, after, outcome, top, moved, flags, counted⟩
  · rw [flags, holds]
  · rw [flags]
    clear flags counted top stepped next
    rcases frame with ⟨req, out, pc⟩ | ⟨op, which, pc⟩ <;> cases pc <;> cases action : label.2 <;>
      simp only [stepFrame, stepInvoke, stepProfiler, action, reduceCtorEq] at moved
    all_goals try (split at moved)
    all_goals try (split at moved)
    all_goals
      simp only [Option.some.injEq, Prod.mk.injEq] at moved
      obtain ⟨rfl, rfl⟩ := moved
      simp_all

/-- No invocation that can reach `lldMain` takes the lock while the poisoned flag is set. -/
def AcquiresClean {n : Nat} (s : State n) (label : Fin n × Action) : Prop :=
  acquiresForInvoke s label = true → s.flags.poisoned = false

instance {n : Nat} (s : State n) (label : Fin n × Action) : Decidable (AcquiresClean s label) :=
  inferInstanceAs (Decidable (_ → _))

private theorem poisonInv_step {n : Nat} (build : Build) (s : State n) (label : Fin n × Action)
    (next : State n) (holds : LockInv s ∧ PoisonInv s) (clean : AcquiresClean s label)
    (stepped : step build s label = some next) : LockInv next ∧ PoisonInv next := by
  refine ⟨lockInv_step build s label next holds.1 stepped, fun poisoned => ?_⟩
  rcases step_cases build s next label stepped with
    ⟨frame, called, flags, counted⟩ | ⟨frame, rest, after, outcome, top, moved, flags, counted⟩
  -- a new call starts in front of every step that the invariant speaks of
  · have fresh := calledFrame_fresh label.2 frame called
    rw [counted, fresh.2.1]
    exact holds.2 (flags ▸ poisoned)
  · have total := counted Frame.atCopy
    obtain ⟨-, reaches, stores⟩ :=
      stepFrame_advances build s.flags after frame label.2 outcome moved
    rw [flags] at poisoned
    rcases stores with same | ⟨held, notCopy⟩
    · have none_before := holds.2 (same ▸ poisoned)
      rcases reaches with zero | ⟨advance, free, same, req, out, rfl, accepted⟩
      · omega
      · -- the acquiring step: its guard contradicts the poisoned flag
        have unpoisoned := clean (by simp [acquiresForInvoke, advance, top, free, accepted])
        rw [same, unpoisoned] at poisoned
        cases poisoned
    · -- the storing frame holds the lock, so no other frame is at its copy step
      have apart := frames_add_le s Frame.atCopy (fun f => f.holdsLock && !f.atCopy)
        Frame.holdsLock (fun f => by
          have held := inMain_add_atCopy_le f
          cases copying : f.atCopy <;> cases holding : f.holdsLock <;> simp_all)
      have mine := top_frame_le s (fun f => f.holdsLock && !f.atCopy) label.1 frame rest top
      have bound := Bool.toNat_le s.flags.invoking
      have locked := holds.1
      simp only [LockInv] at locked
      simp only [held, notCopy, Bool.not_false, Bool.and_self, Bool.toNat_true] at mine
      rcases reaches with zero | ⟨-, -, -, req, out, rfl, -⟩
      · omega
      · cases held

/-- With no frame at its copy step, no step enters `lldMain`. -/
theorem noEntry_of_poisonInv {n : Nat} (build : Build) (s : State n) (holds : PoisonInv s)
    (poisoned : s.flags.poisoned = true) : NoEntry build s := by
  intro label next stepped
  have none_copying := holds poisoned
  change next.frames Frame.inMain ≤ s.frames Frame.inMain
  rcases step_cases build s next label stepped with
    ⟨frame, called, flags, counted⟩ | ⟨frame, rest, after, outcome, top, moved, flags, counted⟩
  · have fresh := calledFrame_fresh label.2 frame called
    simp [counted, fresh.2.2]
  · have total := counted Frame.inMain
    have enters := (stepFrame_advances build s.flags after frame label.2 outcome moved).1
    have below := top_frame_le s Frame.atCopy label.1 frame rest top
    omega

private theorem poisonInv_run {n : Nat} (build : Build) (trace : List (Fin n × Action))
    (s : State n) (clean : Guarded (step build) AcquiresClean (State.init n) trace)
    (ran : run (step build) (State.init n) trace = some s) : PoisonInv s :=
  (guarded_run_invariant (step build) AcquiresClean (fun s => LockInv s ∧ PoisonInv s)
    (poisonInv_step build) trace (State.init n) s
    ⟨frames_init n _, fun _ => frames_init n _⟩ clean ran).2

/--
In every state of every run at most one `lldMain` call is in flight and the invoking flag is
clear when no call is in progress. When no invocation of the run that can reach `lldMain` takes the
lock with the poisoned flag already set, a poisoned state also never enters `lldMain` again.
-/
theorem invoke_run_single_entry {n : Nat} (build : Build) (trace : List (Fin n × Action))
    (s : State n) (ran : run (step build) (State.init n) trace = some s) :
    s.mainCalls ≤ 1 ∧ (s.Idle → s.flags.invoking = false) ∧
      (Guarded (step build) AcquiresClean (State.init n) trace →
        s.flags.poisoned = true → NoEntry build s) := by
  have locked := lockInv_run build trace s ran
  refine ⟨mainCalls_le_one s locked, idle_invoking_clear s locked, fun clean poisoned => ?_⟩
  exact noEntry_of_poisonInv build s (poisonInv_run build trace s clean ran) poisoned

/-! ### The window between the two checks -/

/-- A request without arguments that passes every check. -/
def plainRequest : Request where
  structSize := 56
  version := 1
  driver := 1
  argc := 0
  argv := none
  argvLengths := none
  argv_length := by simp
  argvLengths_length := by simp
  readable := by simp

def callPlain : Action :=
  .callInvoke (some plainRequest) (some ⟨12, 0, false⟩)

def plainBuild : Build := ⟨true, true⟩

/-- One thread runs an invocation that poisons the process and starts a second one. -/
def cleanTrace : List (Fin 1 × Action) :=
  [(0, callPlain), (0, .advance), (0, .advance), (0, .advance), (0, .lldReturns 17 false),
    (0, .advance), (0, .advance), (0, callPlain), (0, .advance)]

theorem cleanTrace_single_entry :
    ∃ s, run (step plainBuild) (State.init 1) cleanTrace = some s ∧
      s.flags.poisoned = true ∧ s.mainCalls ≤ 1 ∧ NoEntry plainBuild s := by
  refine ⟨_, rfl, rfl, ?_⟩
  have safe := invoke_run_single_entry plainBuild cleanTrace _ rfl
  refine ⟨safe.1, safe.2.2 ?_ rfl⟩
  decide

/--
Thread 0 reads the poisoned flag, thread 1 runs a whole invocation that poisons the process, and
thread 0 then takes the free lock.
-/
def raceTrace : List (Fin 2 × Action) :=
  [(0, callPlain), (0, .advance), (1, callPlain), (1, .advance), (1, .advance), (1, .advance),
    (1, .lldReturns 17 false), (1, .advance), (1, .advance), (0, .advance)]

theorem raceTrace_enters_poisoned :
    ∃ s next, run (step plainBuild) (State.init 2) raceTrace = some s ∧
      s.flags.poisoned = true ∧ step plainBuild s (0, .advance) = some next ∧
      s.mainCalls < next.mainCalls := by
  refine ⟨_, _, rfl, rfl, rfl, ?_⟩
  decide

end LlvmLd.Abi
