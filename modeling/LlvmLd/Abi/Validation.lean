import LlvmLd.Abi.Utf8

/-!
One call of `llvm_ld_invoke` from its first check to its return, with what it does to the outside
recorded: calls of `lldMain` and of the callbacks. It refuses a request without having done
anything, or hands over exactly the arguments. The atomic steps of the call are those of `Invoke`.
-/

namespace LlvmLd.Abi

open Utf8

inductive Stream where
  | stdout | stderr
  deriving DecidableEq, Repr

inductive Event where
  | lldMain (driver : Driver) (args : List Bytes)
  | callback (stream : Stream) (bytes : Bytes)
  deriving DecidableEq, Repr

/-- What a call can change. -/
structure World where
  flags : Flags
  out : Option Result
  events : List Event

/-- An unbuffered stream and whether it has a function to call. -/
structure CallbackStream where
  stream : Stream
  fn : Bool

/-- `write_impl`. -/
def CallbackStream.write (os : CallbackStream) (bytes : Bytes) : List Event :=
  if os.fn && !bytes.isEmpty then [.callback os.stream bytes] else []

/-- A run of `lldMain`: what it writes to the two streams, and the return code with the flag
`canRunAgain` unless it throws. -/
structure MainRun where
  writes : List (Stream × Bytes)
  result : Option (Int × Bool)

/-- The bytes that a reader of `s.c_str()` sees. -/
def cStr (s : Bytes) : Bytes := (Bytes.cString (s ++ [0]) 0).getD []

/-- The call from `Unlock` on. -/
def lockedPart (lldMain : Driver → List Bytes → MainRun) (stdoutWrite stderrWrite : Bool)
    (req : Request) (w : World) : World × Status :=
  match copyArguments req with
  | none => (w, .invalid)
  | some owned =>
      let args := owned.map cStr
      let stdoutOs : CallbackStream := ⟨.stdout, stdoutWrite⟩
      let stderrOs : CallbackStream := ⟨.stderr, stderrWrite⟩
      match selectDriver req.driver with
      | none => (w, .invalid)
      | some driver =>
          let run := lldMain driver args
          let written := run.writes.flatMap (fun entry =>
            match entry.1 with
            | .stdout => stdoutOs.write entry.2
            | .stderr => stderrOs.write entry.2)
          let events := w.events ++ .lldMain driver args :: written
          match run.result with
          | some (retCode, canRunAgain) =>
              ({ flags := { w.flags with poisoned := w.flags.poisoned || !canRunAgain }
                 out := storeResult w.out retCode canRunAgain
                 events }, .ok)
          | none => ({ w with flags := { w.flags with poisoned := true }, events }, .exception)

def setInvoking (w : World) (invoking : Bool) : World :=
  { w with flags := { w.flags with invoking } }

/-- `llvm_ld_invoke` without other threads and with memory for the copies. -/
def llvmLdInvoke (lldMain : Driver → List Bytes → MainRun) (stdoutWrite stderrWrite : Bool)
    (req : Option Request) (w : World) : World × Status :=
  if headerValid req w.out = false then (w, .invalid)
  else if w.flags.poisoned then (w, .poisoned)
  else if w.flags.invoking then (setInvoking w true, .busy)
  else
    match req with
    | none => (w, .invalid)
    | some req =>
        let (after, status) := lockedPart lldMain stdoutWrite stderrWrite req (setInvoking w true)
        -- the destructor of `Unlock`
        (setInvoking after false, status)

private theorem setInvoking_self (w : World) (invoking : Bool)
    (same : w.flags.invoking = invoking) :
    setInvoking w invoking = w := by
  subst same
  rfl

/-! ### What is refused -/

def BadHeader (req : Option Request) (out : Option Result) : Prop :=
  ∀ r, req = some r → ∀ o, out = some o →
    r.structSize < sizeofRequest ∨ o.structSize < sizeofResult ∨ r.version ≠ abiVersion ∨
      (r.argc ≠ 0 ∧ (r.argv = none ∨ r.argvLengths = none))

/-- A pointer and a length that stand for no C string of valid UTF-8. -/
def BadArgument (argument : Option Bytes × Nat) : Prop :=
  match argument.1 with
  | none => argument.2 ≠ 0
  | some bytes => ¬ Valid (bytes.take argument.2)

def Request.entries (req : Request) : List (Option Bytes × Nat) :=
  (req.argv.getD []).zip (req.argvLengths.getD [])

/-- The arguments as the caller gives them. -/
def Request.arguments (req : Request) : List Bytes :=
  req.entries.map (fun argument => (argument.1.getD []).take argument.2)

def BadRequest (req : Option Request) (out : Option Result) : Prop :=
  BadHeader req out ∨ ∃ r, req = some r ∧
    ((∃ argument ∈ r.entries, BadArgument argument) ∨ (r.driver ≠ 1 ∧ r.driver ≠ 2))

private theorem headerValid_iff (req : Option Request) (out : Option Result) :
    headerValid req out = false ↔ BadHeader req out := by
  simp only [BadHeader]
  cases req with
  | none => simp [headerValid]
  | some r =>
    cases out with
    | none => simp [headerValid]
    | some o =>
      simp only [headerValid, Option.some.injEq, forall_eq', Bool.not_eq_false', Bool.or_eq_true,
        Bool.and_eq_true, decide_eq_true_eq, bne_iff_ne, Option.isNone_iff_eq_none, or_assoc]

private theorem copyArgument_none_iff (argument : Option Bytes × Nat)
    (readable : ∀ bytes, argument.1 = some bytes → argument.2 ≤ bytes.length) :
    copyArgument argument.1 argument.2 = none ↔ BadArgument argument := by
  obtain ⟨pointer, length⟩ := argument
  cases pointer with
  | none => simp [copyArgument, BadArgument]
  | some bytes =>
    obtain ⟨accepted, run, exactly⟩ := validUtf8_spec bytes length (readable bytes rfl)
    cases accepted with
    | true => simp [copyArgument, BadArgument, run, ← exactly]
    | false => simp [copyArgument, BadArgument, run, ← exactly]

/-- A copied argument is the given one, and has no NUL. -/
theorem copyArgument_some (argument : Option Bytes × Nat) (owned : Bytes)
    (readable : ∀ bytes, argument.1 = some bytes → argument.2 ≤ bytes.length)
    (copied : copyArgument argument.1 argument.2 = some owned) :
    owned = (argument.1.getD []).take argument.2 ∧ (0 : UInt8) ∉ owned := by
  obtain ⟨pointer, length⟩ := argument
  cases pointer with
  | none =>
    simp only [copyArgument, Option.ite_none_right_eq_some, Option.some.injEq] at copied
    obtain ⟨-, rfl⟩ := copied
    simp
  | some bytes =>
    obtain ⟨accepted, run, exactly⟩ := validUtf8_spec bytes length (readable bytes rfl)
    simp only [copyArgument, run, Option.ite_none_right_eq_some, Option.some.injEq] at copied
    obtain ⟨rfl, rfl⟩ := copied
    exact ⟨rfl, Valid.no_nul _ (exactly.mp rfl)⟩

private theorem cStr_of_no_nul (s : Bytes) (no_nul : (0 : UInt8) ∉ s) : cStr s = s := by
  rw [cStr, cString_of_drop (s ++ [0]) 0 s [] no_nul rfl, Option.getD_some]

private theorem mapM_eq_none_iff {α β : Type} (f : α → Option β) (items : List α) :
    items.mapM f = none ↔ ∃ item ∈ items, f item = none := by
  induction items with
  | nil => simp
  | cons item rest ih =>
    cases here : f item with
    | none => simp [here]
    | some value =>
      have tail : (item :: rest).mapM f = none ↔ rest.mapM f = none := by
        rw [List.mapM_cons, here]
        cases rest.mapM f <;> simp
      rw [tail, ih]
      simp [here]

private theorem copyArguments_none_iff (req : Request) :
    copyArguments req = none ↔ ∃ argument ∈ req.entries, BadArgument argument := by
  rw [copyArguments, mapM_eq_none_iff]
  refine exists_congr (fun argument => and_congr_right (fun member => ?_))
  exact copyArgument_none_iff argument (req.readable argument member)

/-- What `lldMain` reads are the arguments. -/
theorem copyArguments_some (req : Request) (owned : List Bytes)
    (copied : copyArguments req = some owned) : owned.map cStr = req.arguments := by
  -- entry by entry: a copy has no NUL, so reading it as a C string gives it back
  have pointwise : ∀ (entries : List (Option Bytes × Nat)) (owned : List Bytes),
      (∀ entry ∈ entries, entry ∈ req.entries) →
      entries.mapM (fun entry => copyArgument entry.1 entry.2) = some owned →
      owned.map cStr = entries.map (fun argument => (argument.1.getD []).take argument.2) := by
    intro entries
    induction entries with
    | nil =>
      intro owned _ copied
      simp only [List.mapM_nil, pure, Option.some.injEq] at copied
      rw [← copied]
      rfl
    | cons entry rest ih =>
      intro owned inside copied
      obtain ⟨here, later⟩ := List.forall_mem_cons.mp inside
      rw [List.mapM_cons] at copied
      obtain ⟨value, first, copied⟩ := Option.bind_eq_some_iff.mp copied
      obtain ⟨values, others, copied⟩ := Option.bind_eq_some_iff.mp copied
      obtain rfl := Option.some.inj copied
      obtain ⟨given, no_nul⟩ := copyArgument_some entry value (req.readable entry here) first
      rw [List.map_cons, List.map_cons, ih values later others, cStr_of_no_nul value no_nul, given]
  exact pointwise req.entries owned (fun _ member => member) copied

private theorem selectDriver_none_iff (driver : Nat) :
    selectDriver driver = none ↔ driver ≠ 1 ∧ driver ≠ 2 := by
  simp only [selectDriver]
  split_ifs with one two
  · simp [one]
  · simp [two]
  · simp [one, two]

/-! ### The atomic steps -/

/-- A call that goes on, by one atomic step. -/
def callStep (build : Build) (s : Flags × Outcome) (action : Action) : Option (Flags × Outcome) :=
  match s.2 with
  | .goto frame => stepFrame build s.1 frame action
  | .ret _ _ => none

private theorem prepareMain_eq (req : Request) (owned : List Bytes)
    (copied : copyArguments req = some owned) :
    prepareMain req = (selectDriver req.driver).map (fun driver => (owned, driver)) := by
  simp only [prepareMain, copied, Option.bind_eq_bind, Option.bind_some]
  cases selectDriver req.driver <;> rfl

/-- From the locked state on. -/
theorem lockedPart_steps (build : Build) (lldMain : Driver → List Bytes → MainRun)
    (stdoutWrite stderrWrite : Bool) (req : Request) (w : World)
    (free : w.flags.poisoned = false) :
    ∃ actions, Transition.run (callStep build) (w.flags, .goto (.invoke (some req) w.out .locked))
        actions =
      some ({ (lockedPart lldMain stdoutWrite stderrWrite req w).1.flags with invoking := false },
        .ret (lockedPart lldMain stdoutWrite stderrWrite req w).2
          (lockedPart lldMain stdoutWrite stderrWrite req w).1.out) := by
  simp only [lockedPart]
  -- One run for each way out: arguments refused, no such driver, a throw, a return that leaves the
  -- library usable, and one that does not.
  cases copied : copyArguments req with
  | none =>
    refine ⟨[.advance, .advance], ?_⟩
    simp [Transition.run, callStep, stepFrame, stepInvoke, prepareMain, copied]
  | some owned =>
    have prepared := prepareMain_eq req owned copied
    cases selected : selectDriver req.driver with
    | none =>
      rw [selected] at prepared
      refine ⟨[.advance, .advance], ?_⟩
      simp [Transition.run, callStep, stepFrame, stepInvoke, prepared]
    | some driver =>
      rw [selected] at prepared
      dsimp only
      cases ended : (lldMain driver (owned.map cStr)).result with
      | none =>
        refine ⟨[.advance, .lldThrows, .advance, .advance], ?_⟩
        simp [Transition.run, callStep, stepFrame, stepInvoke, prepared]
      | some result =>
        obtain ⟨retCode, canRunAgain⟩ := result
        cases canRunAgain with
        | true =>
          refine ⟨[.advance, .lldReturns retCode true, .advance], ?_⟩
          simp [Transition.run, callStep, stepFrame, stepInvoke, prepared, free]
        | false =>
          refine ⟨[.advance, .lldReturns retCode false, .advance, .advance], ?_⟩
          simp [Transition.run, callStep, stepFrame, stepInvoke, prepared, free]

/-- The call is a run of its atomic steps. -/
theorem llvmLdInvoke_steps (build : Build) (lldMain : Driver → List Bytes → MainRun)
    (stdoutWrite stderrWrite : Bool) (req : Option Request) (w : World) :
    ∃ actions, Transition.run (callStep build) (w.flags, .goto (.invoke req w.out .entry)) actions =
      some ((llvmLdInvoke lldMain stdoutWrite stderrWrite req w).1.flags,
        .ret (llvmLdInvoke lldMain stdoutWrite stderrWrite req w).2
          (llvmLdInvoke lldMain stdoutWrite stderrWrite req w).1.out) := by
  simp only [llvmLdInvoke]
  -- each refusal is one or two atomic steps, and the rest runs under the lock
  by_cases header : headerValid req w.out = false
  · rw [if_pos header]
    refine ⟨[.advance], ?_⟩
    simp [Transition.run, callStep, stepFrame, stepInvoke, header]
  rw [if_neg header]
  by_cases poisoned : w.flags.poisoned = true
  · rw [if_pos poisoned]
    refine ⟨[.advance], ?_⟩
    simp [Transition.run, callStep, stepFrame, stepInvoke, header, poisoned]
  rw [if_neg poisoned]
  by_cases busy : w.flags.invoking = true
  · rw [if_pos busy, setInvoking_self w true busy]
    refine ⟨[.advance, .advance], ?_⟩
    simp [Transition.run, callStep, stepFrame, stepInvoke, header, poisoned, busy]
  rw [if_neg busy]
  cases req with
  | none => exact absurd rfl header
  | some r =>
    obtain ⟨actions, ran⟩ := lockedPart_steps build lldMain stdoutWrite stderrWrite r
      (setInvoking w true) (Bool.not_eq_true _ ▸ poisoned)
    refine ⟨.advance :: .advance :: actions, ?_⟩
    have first : callStep build (w.flags, .goto (.invoke (some r) w.out .entry)) .advance =
        some (w.flags, .goto (.invoke (some r) w.out .loaded)) := by
      simp [callStep, stepFrame, stepInvoke, header, poisoned]
    have second : callStep build (w.flags, .goto (.invoke (some r) w.out .loaded)) .advance =
        some ((setInvoking w true).flags, .goto (.invoke (some r) w.out .locked)) := by
      simp [callStep, stepFrame, stepInvoke, busy, setInvoking]
    rw [Transition.run, first, Option.bind_some, Transition.run, second, Option.bind_some]
    exact ran

/-! ### All or nothing -/

/-- Nothing has happened, or `lldMain` was called with the arguments. -/
structure AllOrNothing (req : Option Request) (before after : World) (status : Status) : Prop where
  invalid_iff : before.flags.poisoned = false → before.flags.invoking = false →
    (status = .invalid ↔ BadRequest req before.out)
  untouched : status = .invalid ∨ status = .busy ∨ status = .poisoned → after = before
  called : ¬ (status = .invalid ∨ status = .busy ∨ status = .poisoned) →
    ∃ r driver written, req = some r ∧
      after.events = before.events ++ .lldMain driver r.arguments :: written

/-- The locked part refuses and changes nothing, or has called `lldMain`. -/
theorem lockedPart_cases (lldMain : Driver → List Bytes → MainRun)
    (stdoutWrite stderrWrite : Bool) (req : Request) (w : World) :
    (((∃ argument ∈ req.entries, BadArgument argument) ∨ (req.driver ≠ 1 ∧ req.driver ≠ 2)) ∧
      lockedPart lldMain stdoutWrite stderrWrite req w = (w, .invalid)) ∨
    (¬ ((∃ argument ∈ req.entries, BadArgument argument) ∨ (req.driver ≠ 1 ∧ req.driver ≠ 2)) ∧
      ∃ after status driver written,
        lockedPart lldMain stdoutWrite stderrWrite req w = (after, status) ∧
        (status = .ok ∨ status = .exception) ∧
        after.events = w.events ++ .lldMain driver req.arguments :: written) := by
  rw [← copyArguments_none_iff, ← selectDriver_none_iff]
  simp only [lockedPart]
  cases copied : copyArguments req with
  | none => exact Or.inl ⟨Or.inl rfl, rfl⟩
  | some owned =>
    have same := copyArguments_some req owned copied
    cases selected : selectDriver req.driver with
    | none => exact Or.inl ⟨Or.inr rfl, rfl⟩
    | some driver =>
      refine Or.inr ⟨by simp, ?_⟩
      dsimp only
      rw [same]
      -- a driver that throws and one that returns have both been called
      cases ended : (lldMain driver req.arguments).result with
      | none => exact ⟨_, _, driver, _, rfl, Or.inr rfl, rfl⟩
      | some result => exact ⟨_, _, driver, _, rfl, Or.inl rfl, rfl⟩

/-- A call validates all or nothing. -/
theorem llvmLdInvoke_all_or_nothing (lldMain : Driver → List Bytes → MainRun)
    (stdoutWrite stderrWrite : Bool) (req : Option Request) (w : World) :
    AllOrNothing req w (llvmLdInvoke lldMain stdoutWrite stderrWrite req w).1
      (llvmLdInvoke lldMain stdoutWrite stderrWrite req w).2 := by
  simp only [llvmLdInvoke]
  -- The order of the checks: the request's header, the poisoned flag, the lock, then the rest of
  -- the request under the lock.
  by_cases header : headerValid req w.out = false
  · rw [if_pos header]
    have bad : BadRequest req w.out := Or.inl ((headerValid_iff req w.out).mp header)
    exact ⟨fun _ _ => ⟨fun _ => bad, fun _ => rfl⟩, fun _ => rfl,
      fun other => absurd (Or.inl rfl) other⟩
  rw [if_neg header]
  by_cases poisoned : w.flags.poisoned = true
  · rw [if_pos poisoned]
    refine ⟨fun clean _ => ?_, fun _ => rfl, fun other => absurd (Or.inr (Or.inr rfl)) other⟩
    rw [poisoned] at clean
    cases clean
  rw [if_neg poisoned]
  by_cases busy : w.flags.invoking = true
  · rw [if_pos busy]
    refine ⟨fun _ free => ?_, fun _ => setInvoking_self w true busy,
      fun other => absurd (Or.inr (Or.inl rfl)) other⟩
    rw [busy] at free
    cases free
  rw [if_neg busy]
  have goodHeader : ¬ BadHeader req w.out := fun bad => header ((headerValid_iff req w.out).mpr bad)
  cases req with
  | none => exact absurd (fun r missing => by cases missing) goodHeader
  | some r =>
    -- The lock was free, so taking it and letting it go leaves the world as it was.
    have restored : setInvoking (setInvoking w true) false = w :=
      setInvoking_self w false (Bool.not_eq_true _ ▸ busy)
    have request : BadRequest (some r) w.out ↔
        (∃ argument ∈ r.entries, BadArgument argument) ∨ (r.driver ≠ 1 ∧ r.driver ≠ 2) := by
      simp [BadRequest, goodHeader]
    rcases lockedPart_cases lldMain stdoutWrite stderrWrite r (setInvoking w true) with
      ⟨bad, refused⟩ | ⟨good, after, status, driver, written, ran, ended, events⟩
    · dsimp only
      rw [refused]
      exact ⟨fun _ _ => ⟨fun _ => request.mpr bad, fun _ => rfl⟩, fun _ => restored,
        fun other => absurd (Or.inl rfl) other⟩
    · dsimp only
      rw [ran]
      have notRefused : ¬ (status = .invalid ∨ status = .busy ∨ status = .poisoned) := by
        rcases ended with rfl | rfl <;> decide
      refine ⟨fun _ _ => ⟨fun invalid => ?_, fun bad => absurd (request.mp bad) good⟩,
        fun refused => absurd refused notRefused, fun _ => ⟨r, driver, written, rfl, events⟩⟩
      exact absurd (Or.inl invalid) notRefused

end LlvmLd.Abi
