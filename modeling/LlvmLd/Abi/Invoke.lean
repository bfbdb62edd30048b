import LlvmLd.Lib.Transition

/-!
The C ABI of `src/llvm_ld.cpp`: request validation, the argument copy, and the threads that
run `llvm_ld_invoke`, `llvm_ld_profiler_start` and `llvm_ld_profiler_stop` against the two
process-wide atomics `invoking` and `poisoned`.
-/

namespace LlvmLd.Abi

/-- The `LLVM_LD_*` return codes. -/
inductive Status where
  | ok | invalid | busy | poisoned | exception | unsupported
  deriving DecidableEq, Repr

def Status.code : Status → Int
  | .ok => 0
  | .invalid => -1
  | .busy => -2
  | .poisoned => -3
  | .exception => -4
  | .unsupported => -5

inductive Driver where
  | winLink | minGW
  deriving DecidableEq, Repr

/-- `LLVM_LD_ABI_VERSION`. -/
def abiVersion : Nat := 1

/-- `sizeof(llvm_ld_request)` and `sizeof(llvm_ld_result)` on a 64-bit target. -/
def sizeofRequest : Nat := 56

def sizeofResult : Nat := 12

/--
`llvm_ld_request`. A pointer is an `Option`; an array that is not null has `argc` entries, and
an argument that is not null is a readable buffer of at least its stated length.
-/
structure Request where
  structSize : Nat
  version : Nat
  driver : Nat
  argc : Nat
  argv : Option (List (Option (List UInt8)))
  argvLengths : Option (List Nat)
  argv_length : ∀ pointers, argv = some pointers → pointers.length = argc
  argvLengths_length : ∀ lengths, argvLengths = some lengths → lengths.length = argc
  readable : ∀ entry ∈ (argv.getD []).zip (argvLengths.getD []), ∀ bytes,
    entry.1 = some bytes → entry.2 ≤ bytes.length

/-- `llvm_ld_result`; the reserved bytes are never touched. -/
structure Result where
  structSize : Nat
  returnCode : Int
  canRunAgain : Bool
  deriving DecidableEq, Repr

/-! ### Argument validation -/

/-- The number of continuation bytes announced by a lead byte, or 99. -/
def utf8Extra (c : UInt8) : Nat :=
  if 0xC2 ≤ c ∧ c ≤ 0xDF then 1
  else if 0xE0 ≤ c ∧ c ≤ 0xEF then 2
  else if 0xF0 ≤ c ∧ c ≤ 0xF4 then 3
  else 99

/-- The lead bytes that restrict their first continuation byte further. -/
def utf8BadSecond (c first : UInt8) : Bool :=
  (c == 0xE0 && first < 0xA0) || (c == 0xED && 0xA0 ≤ first) ||
    (c == 0xF0 && first < 0x90) || (c == 0xF4 && 0x90 ≤ first)

/-- The inner loop over `extra` continuation bytes starting at `i`; `none` is a read out of range. -/
def utf8Continuations (s : List UInt8) : Nat → Nat → Option Bool
  | _, 0 => some true
  | i, extra + 1 => do
      let byte ← s[i]?
      if byte &&& 0xC0 != 0x80 then some false else utf8Continuations s (i + 1) extra

/-- The loop of `valid_utf8` from index `i`; each round consumes at least one byte of fuel. -/
def validUtf8From (s : List UInt8) (n : Nat) : Nat → Nat → Option Bool
  | 0, _ => some true
  | fuel + 1, i =>
      if n ≤ i then some true else do
        let c ← s[i]?
        if c == 0 then some false
        else if c < 0x80 then validUtf8From s n fuel (i + 1)
        else
          let extra := utf8Extra c
          if extra == 99 || n < i + 1 + extra then some false else do
            let first ← s[i + 1]?
            if utf8BadSecond c first then some false else do
              let good ← utf8Continuations s (i + 1) extra
              if good then validUtf8From s n fuel (i + 1 + extra) else some false

/-- `valid_utf8` on a buffer `s` and the stated length `n`. -/
def validUtf8 (s : List UInt8) (n : Nat) : Option Bool :=
  validUtf8From s n n 0

/-- The header test that opens `llvm_ld_invoke`. -/
def headerValid (req : Option Request) (out : Option Result) : Bool :=
  match req, out with
  | some req, some out =>
      !(req.structSize < sizeofRequest || out.structSize < sizeofResult ||
        req.version != abiVersion ||
        (req.argc != 0 && (req.argv.isNone || req.argvLengths.isNone)))
  | _, _ => false

/-- One iteration of the argument loop; `none` is the `LLVM_LD_E_INVALID` return. -/
def copyArgument (pointer : Option (List UInt8)) (length : Nat) : Option (List UInt8) :=
  match pointer with
  | none => if length = 0 then some [] else none
  | some bytes => if validUtf8 bytes length = some true then some (bytes.take length) else none

/-- The whole argument loop, in `argv` order. -/
def copyArguments (req : Request) : Option (List (List UInt8)) :=
  ((req.argv.getD []).zip (req.argvLengths.getD [])).mapM
    (fun entry => copyArgument entry.1 entry.2)

/-- The choice of `lld::DriverDef`. -/
def selectDriver (driver : Nat) : Option Driver :=
  if driver = 1 then some .winLink
  else if driver = 2 then some .minGW
  else none

/-- What `lldMain` is called with, or `none` when the locked part returns `LLVM_LD_E_INVALID`. -/
def prepareMain (req : Request) : Option (List (List UInt8) × Driver) := do
  let args ← copyArguments req
  let driver ← selectDriver req.driver
  some (args, driver)

/-! ### Threads -/

/-- The build options that decide what the profiler entry points do. -/
structure Build where
  useMimalloc : Bool
  miPprof : Bool

inductive ProfilerOp where
  | start | stop
  deriving DecidableEq, Repr

/-- Where an `llvm_ld_invoke` call stands between two of its atomic steps. -/
inductive InvokePc where
  | entry
  | loaded
  | locked
  | inMain (args : List (List UInt8)) (driver : Driver)
  | storing (status : Status)
  | unlocking (status : Status)

inductive ProfilerPc where
  | entry
  | locked
  | unlocking (status : Status)

/-- An unfinished call of one of the three entry points. -/
inductive Frame where
  | invoke (req : Option Request) (out : Option Result) (pc : InvokePc)
  | profiler (op : ProfilerOp) (which : Nat) (pc : ProfilerPc)

/-- The two atomics of the anonymous namespace. -/
structure Flags where
  invoking : Bool
  poisoned : Bool

/-- Flags, one call stack for each of `n` threads, and the returned calls, newest first. -/
structure State (n : Nat) where
  flags : Flags
  threads : Fin n → List Frame
  returned : List (Fin n × Status × Option Result)

def State.init (n : Nat) : State n where
  flags := ⟨false, false⟩
  threads := fun _ => []
  returned := []

/--
What a thread may do next. `advance` is the next step of the source itself; the others are the
environment's choices: a new call (from user code, or from a callback inside `lldMain`), a failed
allocation in the argument copy, the outcome of `lldMain` and of the allocator's own profiler.
-/
inductive Action where
  | callInvoke (req : Option Request) (out : Option Result)
  | callProfiler (op : ProfilerOp) (which : Nat)
  | advance
  | badAlloc
  | lldReturns (retCode : Int) (canRunAgain : Bool)
  | lldThrows
  | profilerRuns (started : Bool)

/-- A frame goes on, or its call returns. -/
inductive Outcome where
  | goto (frame : Frame)
  | ret (status : Status) (out : Option Result)

/-- `out->return_code` and `out->can_run_again`. -/
def storeResult (out : Option Result) (retCode : Int) (canRunAgain : Bool) : Option Result :=
  out.map (fun result => { result with returnCode := retCode, canRunAgain := canRunAgain })

/-- One atomic step of `llvm_ld_invoke`. -/
def stepInvoke (flags : Flags) (req : Option Request) (out : Option Result) :
    InvokePc → Action → Option (Flags × Outcome)
  | .entry, .advance =>
      if headerValid req out = false then some (flags, .ret .invalid out)
      else if flags.poisoned then some (flags, .ret .poisoned out)
      else some (flags, .goto (.invoke req out .loaded))
  | .loaded, .advance =>
      -- test_and_set stores `true` whether or not it was set before
      if flags.invoking then some (flags, .ret .busy out)
      else some ({ flags with invoking := true }, .goto (.invoke req out .locked))
  | .locked, .advance =>
      match req.bind prepareMain with
      | some (args, driver) => some (flags, .goto (.invoke req out (.inMain args driver)))
      | none => some (flags, .goto (.invoke req out (.unlocking .invalid)))
  | .locked, .badAlloc => some (flags, .goto (.invoke req out (.storing .exception)))
  | .inMain _ _, .lldReturns retCode canRunAgain =>
      let out := storeResult out retCode canRunAgain
      if canRunAgain then some (flags, .goto (.invoke req out (.unlocking .ok)))
      else some (flags, .goto (.invoke req out (.storing .ok)))
  | .inMain _ _, .lldThrows => some (flags, .goto (.invoke req out (.storing .exception)))
  | .storing status, .advance =>
      some ({ flags with poisoned := true }, .goto (.invoke req out (.unlocking status)))
  | .unlocking status, .advance => some ({ flags with invoking := false }, .ret status out)
  | _, _ => none

/-- What the locked part of a profiler entry point returns; `started` is the allocator's answer. -/
def profilerStatus (build : Build) (op : ProfilerOp) (which : Nat) (started : Bool) : Status :=
  let outcome : Status := match op with
    | .start => if started then .ok else .exception
    | .stop => .ok
  if which = 2 then outcome
  else if which = 1 then (if build.miPprof then outcome else .unsupported)
  else .invalid

/-- One atomic step of `llvm_ld_profiler_start` or `llvm_ld_profiler_stop`. -/
def stepProfiler (build : Build) (flags : Flags) (op : ProfilerOp) (which : Nat) :
    ProfilerPc → Action → Option (Flags × Outcome)
  | .entry, .advance =>
      if build.useMimalloc = false then some (flags, .ret .unsupported none)
      else if flags.invoking then some (flags, .ret .busy none)
      else some ({ flags with invoking := true }, .goto (.profiler op which .locked))
  | .locked, .profilerRuns started =>
      some (flags, .goto (.profiler op which
        (.unlocking (profilerStatus build op which started))))
  | .unlocking status, .advance => some ({ flags with invoking := false }, .ret status none)
  | _, _ => none

def stepFrame (build : Build) (flags : Flags) : Frame → Action → Option (Flags × Outcome)
  | .invoke req out pc, action => stepInvoke flags req out pc action
  | .profiler op which pc, action => stepProfiler build flags op which pc action

/-- User code runs outside every call and, through the callbacks, inside `lldMain`. -/
def mayCall : List Frame → Bool
  | [] => true
  | .invoke _ _ (.inMain _ _) :: _ => true
  | _ => false

/-- The frame pushed by a call action. -/
def calledFrame : Action → Option Frame
  | .callInvoke req out => some (.invoke req out .entry)
  | .callProfiler op which => some (.profiler op which .entry)
  | _ => none

/-- One step of thread `t`. -/
def step {n : Nat} (build : Build) (s : State n) (label : Fin n × Action) : Option (State n) :=
  let t := label.1
  match calledFrame label.2 with
  | some frame =>
      if mayCall (s.threads t) then
        some { s with threads := Function.update s.threads t (frame :: s.threads t) }
      else none
  | none =>
      match s.threads t with
      | [] => none
      | frame :: rest =>
          match stepFrame build s.flags frame label.2 with
          | none => none
          | some (flags, .goto next) =>
              some { s with flags := flags, threads := Function.update s.threads t (next :: rest) }
          | some (flags, .ret status out) =>
              some { flags := flags, threads := Function.update s.threads t rest
                     returned := (t, status, out) :: s.returned }

/-! ### What the results speak of -/

def Frame.inMain : Frame → Bool
  | .invoke _ _ (.inMain _ _) => true
  | _ => false

/-- The calls of `lldMain` in flight. -/
def State.mainCalls {n : Nat} (s : State n) : Nat :=
  ∑ t, (s.threads t).countP Frame.inMain

/-- No thread is inside any of the three entry points. -/
def State.Idle {n : Nat} (s : State n) : Prop :=
  ∀ t, s.threads t = []

/-- The step takes the invoking flag on behalf of an `llvm_ld_invoke` that can reach `lldMain`: its
arguments and its driver will be accepted. -/
def acquiresForInvoke {n : Nat} (s : State n) (label : Fin n × Action) : Bool :=
  match label.2, s.threads label.1 with
  | .advance, .invoke req _ .loaded :: _ => !s.flags.invoking && (req.bind prepareMain).isSome
  | _, _ => false

/-- From `s` no step of any thread enters `lldMain`. -/
def NoEntry {n : Nat} (build : Build) (s : State n) : Prop :=
  ∀ label next, step build s label = some next → next.mainCalls ≤ s.mainCalls

end LlvmLd.Abi
