import LlvmLd.Symtab.Table

/-!
# Reading the inputs

The driver's queue, and files that are read at once in the middle of another one. What a file does
with the table may depend on what the table answers. Between its own calls the driver has the queue
worked off, once or as long as there is work. Bitcode is compiled after that; the loader ends before
the compilation takes its definitions back.
-/

namespace LlvmLd.Symtab

/-! ### Calls -/

inductive Call (Name : Type)
  | find (name : Name)
  -- also what `resolveAlternateNames` does with a name that is in the table
  | addUndefined (name : Name) (f : Option (File Name)) (overrideLazy : Bool)
  | addLazyArchive (f childOffset : Nat) (name : Name)
  | addLazyDLLSymbol (f : Nat) (symbolName name : Name)
  | addAbsolute (n : Name) (va : Nat)
  | addSynthetic (n : Name)
  | addRegular (f : File Name) (n : Name) (sym : Nat) (isWeak : Bool)
  | addComdat (f : File Name) (n : Name) (sym : Nat)
  | replaceLeader (f : File Name) (n : Name) (sym : Nat)
  | addCommon (f : File Name) (n : Name) (size sym : Nat)
  | addImportData (n : Name) (f : File Name)
  | addImportThunk (n : Name) (f : File Name)
  | setWeakAlias (f : File Name) (source : Name) (target : Ref Name) (isAntiDep : Bool)
  | enqueue (i : Nat)

/-- The symbol that was found, and whether a definition prevails. -/
structure Answer (Name : Type) where
  symbol : Option (Symbol Name)
  prevailing : Bool

/-- What is done with the table, one call after the other. -/
inductive Program (Name : Type)
  | done
  | call (c : Call Name) (k : Answer Name → Program Name)

variable {Name : Type} [DecidableEq Name]

/-- A call, with its answer and the file that has to be read before the caller goes on. -/
def Table.apply (cfg : Names Name) (t : Table Name) :
    Call Name → Table Name × Answer Name × Option (File Name)
  | .find name => (t, ⟨t.symMap name, false⟩, none)
  | .addUndefined name f overrideLazy =>
    let (t, load) := t.addUndefined cfg name f overrideLazy
    (t, ⟨none, false⟩, load)
  | .addLazyArchive f childOffset name =>
    (t.addLazyArchive cfg f childOffset name, ⟨none, false⟩, none)
  | .addLazyDLLSymbol f symbolName name =>
    let (t, load) := t.addLazyDLLSymbol cfg f symbolName name
    (t, ⟨none, false⟩, load)
  | .addAbsolute n va => (t.addAbsolute cfg n va, ⟨none, false⟩, none)
  | .addSynthetic n => (t.addSynthetic cfg n, ⟨none, false⟩, none)
  | .addRegular f n sym isWeak => (t.addRegular cfg f n sym isWeak, ⟨none, false⟩, none)
  | .addComdat f n sym =>
    let (t, prevailing) := t.addComdat cfg f n sym
    (t, ⟨t.symMap n, prevailing⟩, none)
  | .replaceLeader f n sym => (t.replaceLeader f n sym, ⟨none, false⟩, none)
  | .addCommon f n size sym => (t.addCommon cfg f n size sym, ⟨none, false⟩, none)
  | .addImportData n f => (t.addImportData cfg n f, ⟨none, false⟩, none)
  | .addImportThunk n f => (t.addImportThunk cfg n f, ⟨none, false⟩, none)
  | .setWeakAlias f source target isAntiDep =>
    (t.checkAndSetWeakAlias cfg f source target isAntiDep, ⟨none, false⟩, none)
  | .enqueue i => (t.enqueue i, ⟨none, false⟩, none)

/-- What has been asked of the table: a reference, one that does not ask for a definition, and a
definition that a file offers. -/
inductive Event (Name : Type)
  | reference (n : Name)
  | weakened (n : Name)
  | offer (n : Name) (f : File Name)
  deriving DecidableEq

/-- What a call asks for; a name that is left to its other form is not offered. -/
def Table.events (cfg : Names Name) (t : Table Name) : Call Name → List (Event Name)
  | .addUndefined name _ overrideLazy =>
    if overrideLazy then [.weakened name] else [.reference name]
  | .addLazyArchive f childOffset name =>
    if cfg.isEC && !t.checkLazyECPair cfg name (Body.ofArchive f) then []
    else [.offer name (.member f childOffset)]
  | .addLazyDLLSymbol f symbolName name => [.offer name (.imported f symbolName)]
  | .setWeakAlias _ source _ _ => [.weakened source]
  | _ => []

def Table.scanEvents (cfg : Names Name) (t : Table Name) (f : Nat) (name : Name) :
    List (Event Name) :=
  if cfg.isEC && !t.checkLazyECPair cfg name (Body.ofObject f) then [] else [.offer name (.input f)]

/-! ### The run -/

/-- The inputs: what parsing a file does with the table, and the names that `parseLazy` passes. -/
structure Inputs (Name : Type) extends Names Name where
  parse : File Name → Program Name
  parseLazy : Nat → List Name

/-- What the driver does, one part after the other. The calls of a part may depend on the table and
on the files that have been read, whose directives they go through. -/
inductive Phase (Name : Type)
  | calls (body : Table Name → List (File Name) → Program Name)
  /-- `run();` -/
  | run
  /-- `while (run()) body` -/
  | whileRun (body : Table Name → List (File Name) → Program Name)

/-- `do body while (run());` -/
def Phase.doWhile {Name : Type} (body : Table Name → List (File Name) → Program Name) :
    List (Phase Name) :=
  [.calls body, .whileRun body]

/-- A file in the middle of being read. -/
inductive Frame (Name : Type)
  | running (p : Program Name)
  | scanning (i : Nat) (names : List Name)

structure Loader (Name : Type) extends Table Name where
  frames : List (Frame Name)
  /-- The driver's parts from the one that is under way on. -/
  phases : List (Phase Name)
  /-- Inside of `run`: whether there was work when it was called. -/
  didWork : Option Bool
  /-- "Reading" lines, for the files that are parsed. -/
  parsed : List (File Name)
  /-- Kept for the statements. -/
  history : List (Event Name)

namespace Loader

variable (inp : Inputs Name)

/-- `LinkerDriver::addFile` -/
def addFile (s : Loader Name) (f : File Name) : Loader Name :=
  match f with
  | .input i =>
    if s.lazy i then { s with frames := .scanning i (inp.parseLazy i) :: s.frames }
    else { s with frames := .running (inp.parse f) :: s.frames, parsed := s.parsed ++ [f] }
  | _ => { s with frames := .running (inp.parse f) :: s.frames, parsed := s.parsed ++ [f] }

def addLoad (s : Loader Name) : Option (File Name) → Loader Name
  | none => s
  | some f => s.addFile inp f

/-- The next thing that happens; nothing when all is read. -/
def step (s : Loader Name) : Option (Loader Name) :=
  match s.frames with
  -- the file has been read, and the one that loaded it goes on
  | .running .done :: frames => some { s with frames }
  | .running (.call c k) :: frames =>
    let called := s.toTable.apply inp.toNames c
    let history := s.history ++ s.toTable.events inp.toNames c
    some (Loader.addLoad inp
      { s with toTable := called.1, frames := .running (k called.2.1) :: frames, history }
      called.2.2)
  | .scanning _ [] :: frames => some { s with frames }
  | .scanning i (name :: names) :: frames =>
    -- the loop ends when its file has been loaded
    if s.lazy i then
      let offered := s.toTable.addLazyObject inp.toNames i name
      let history := s.history ++ s.toTable.scanEvents inp.toNames i name
      some (Loader.addLoad inp
        { s with toTable := offered.1, frames := .scanning i names :: frames, history } offered.2)
    else some { s with frames }
  | [] =>
    match s.didWork with
    | some didWork =>
      match s.taskQueue with
      | f :: taskQueue => some (Loader.addFile inp { s with taskQueue } f)
      | [] =>
        -- `run` returns `didWork` to the driver
        match s.phases with
        | [] => none
        | .whileRun body :: phases =>
          if didWork then
            some { s with frames := [.running (body s.toTable s.parsed)], didWork := none }
          else some { s with phases, didWork := none }
        | _ :: phases => some { s with phases, didWork := none }
    | none =>
      match s.phases with
      | [] => none
      | .calls body :: phases =>
        some { s with frames := [.running (body s.toTable s.parsed)], phases }
      | _ => some { s with didWork := some !s.taskQueue.isEmpty }

/-- Nothing has been read, and the driver has its phases before it. -/
def start (lazy : Nat → Bool) (phases : List (Phase Name)) : Loader Name :=
  { symMap := fun _ => none, lazy, seen := [], visitedFiles := [], taskQueue := [], duplicates := []
    frames := [], phases, didWork := none, parsed := [], history := [] }

/-- All states of all runs. -/
def Reaches : Loader Name → Loader Name → Prop :=
  Relation.ReflTransGen (fun s s' => s.step inp = some s')

theorem reaches_invariant {inp : Inputs Name} {inv : Loader Name → Prop}
    (preserved : ∀ s s', inv s → s.step inp = some s' → inv s') {s s' : Loader Name}
    (reaches : Reaches inp s s') (holds : inv s) : inv s' := by
  induction reaches with
  | refl => exact holds
  | tail _ stepped ih => exact preserved _ _ ih stepped

/-- The first steps of the run. -/
def run : Nat → Loader Name → Loader Name
  | 0, s => s
  | steps + 1, s =>
    match s.step inp with
    | none => s
    | some s' => run steps s'

theorem reaches_run (steps : Nat) (s : Loader Name) : Reaches inp s (run inp steps s) := by
  induction steps generalizing s with
  | zero => exact .refl
  | succ steps ih =>
    rw [run]
    split
    · exact .refl
    · exact .head ‹_› (ih _)

/-- The queue has been worked off. -/
def Idle (s : Loader Name) : Prop := s.frames = [] ∧ s.taskQueue = []

end Loader

end LlvmLd.Symtab
