import LlvmLd.Input.CoffSymbols

/-!
`ObjFile::parse`: the sections and the symbol table of an object, up to the entry and exit thunks.

The vectors of the source are lists, and an access behind the end of one stops the run with
`outOfBounds`. What the symbol table of the link decides is a parameter.
-/

namespace LlvmLd.Input.Coff

/-- Why a run has not come to the end. -/
inductive Stop
  | running
  | fatal
  -- `cantFail` of an error
  | crash
  | outOfBounds
  deriving DecidableEq, Repr

/-! ### Vectors and errors -/

section Vectors

variable {α : Type}

/-- `xs[i]`; a negative index becomes a large one. -/
def access (xs : List α) (i : Int) : Except Stop α :=
  match (if i < 0 then none else xs[i.toNat]?) with
  | some x => .ok x
  | none => .error .outOfBounds

/-- `xs[i] = x`. -/
def write (xs : List α) (i : Int) (x : α) : Except Stop (List α) :=
  if 0 ≤ i ∧ i < xs.length then .ok (xs.set i.toNat x) else .error .outOfBounds

/-- A fatal error where there is no value. -/
def check : Option α → Except Stop α
  | some a => .ok a
  | none => .error .fatal

def cantFail : Option α → Except Stop α
  | some a => .ok a
  | none => .error .crash

end Vectors

def text (s : String) : Bytes := s.toList.map fun c => UInt8.ofNat c.toNat

/-! ### The object and what surrounds it -/

structure CoffSection where
  -- `none`: reading it is an error
  name : Option Bytes
  characteristics : Nat
  contents : Option Bytes

def CoffSection.has (sec : CoffSection) (bit : Nat) : Bool := sec.characteristics / bit % 2 == 1

structure ObjFile extends CoffObject where
  sections : List CoffSection
  sections_lt : sections.length < 2 ^ 32
  arm64EC : Bool

structure Surroundings where
  mingw : Bool
  includeDwarfChunks : Bool
  discardSection : List Bytes
  /-- Whether the comdat leader at an index prevails, by `addComdat` and `handleComdatSelection`;
  `none` where the link stops there. -/
  prevails : Nat → Option Bool
  /-- `initializeFlags` and `initializeDependencies` come to their ends. -/
  dependencies : Bool

/-- A pointer of `sparseChunks`; a chunk is known by the number of its section. -/
inductive SparseChunk
  | null
  | pending
  | chunk (number : Nat)
  deriving DecidableEq, Repr

inductive Symbol
  | undefined (name : Bytes)
  | common (name : Bytes)
  | absolute (name : Bytes)
  | emptySection (name : Bytes)
  | regular (name : Bytes) (number : Int)
  -- a comdat leader that another file defines
  | leaderElsewhere (name : Bytes)
  deriving DecidableEq, Repr

structure State where
  sparseChunks : List SparseChunk
  /-- The symbol with the section definition, for the comdat leader to come. -/
  comdatDefs : List (Option Nat)
  symbols : List (Option Symbol)
  weakAliases : List Nat
  pendingIndexes : List Nat
  prevailingSectionMap : List (Bytes × Int)
  hybmpChunks : List Nat

variable (o : ObjFile) (env : Surroundings)

/-- The numbers of sections begin with 1. -/
def ObjFile.header (number : Int) : Option CoffSection :=
  if number ≤ 0 then none else o.sections[number.toNat - 1]?

/-- The number is a signed one for `COFFObjectFile`, which has a null pointer for a reserved section. -/
def ObjFile.getSection (number : Int) : Except Stop CoffSection :=
  if number ≤ 0 ∨ 2 ^ 31 ≤ number then .error .crash else check (o.header number)

/-- `uint32_t numSections + 1`. -/
def ObjFile.numberOfChunks : Nat := uint32 (o.sections.length + 1)

/-! ### Sections -/

def readSection (number : Int) (s : State) : Except Stop (SparseChunk × State) := do
  let sec ← o.getSection number
  let name ← check sec.name
  if name = text ".drectve" then
    let _directives ← cantFail sec.contents
    pure (.null, s)
  else if name = text ".llvm_addrsig" ∨ name = text ".llvm.call-graph-profile" then pure (.null, s)
  else if name ∈ env.discardSection then pure (.null, s)
  else if ¬ env.includeDwarfChunks ∧ text ".debug_" <+: name then pure (.null, s)
  -- IMAGE_SCN_LNK_REMOVE
  else if sec.has 0x800 then pure (.null, s)
  else if o.arm64EC ∧ name = text ".hybmp$x" then
    pure (.chunk number.toNat, { s with hybmpChunks := s.hybmpChunks ++ [number.toNat] })
  else pure (.chunk number.toNat, s)

/-- One round of `initializeChunks`; a comdat section is left pending. -/
def initializeChunk (s : State) (i : Nat) : Except Stop State := do
  let sec ← o.getSection i
  if sec.has 0x1000 then
    let sparseChunks ← write s.sparseChunks i .pending
    pure { s with sparseChunks }
  else
    let (c, s) ← readSection o env i s
    let sparseChunks ← write s.sparseChunks i c
    pure { s with sparseChunks }

def initializeChunks (s : State) : Except Stop State :=
  let s := { s with sparseChunks := List.replicate o.numberOfChunks .null }
  (List.range' 1 (o.numberOfChunks - 1)).foldlM (initializeChunk o env) s

/-- The section becomes what its parent is: discarded or read. -/
def readAssociativeDefinition (i : Nat) (parentIndex : Int) (s : State) : Except Stop State := do
  let parent ← access s.sparseChunks parentIndex
  let sectionNumber := o.getSectionNumber i
  match parent with
  | .pending =>
    -- the names for the error that is reported
    let _name ← check (o.getSymbolName i)
    let _parentSec ← o.getSection parentIndex
    pure s
  | .chunk _ =>
    let (c, s) ← readSection o env sectionNumber s
    let sparseChunks ← write s.sparseChunks sectionNumber c
    pure { s with sparseChunks }
  | .null =>
    let sparseChunks ← write s.sparseChunks sectionNumber .null
    pure { s with sparseChunks }

/-- What stands behind the first `$`. -/
def behindDollar (name : Bytes) : Bytes := (name.dropWhile (· ≠ 0x24)).drop 1

def recordPrevailingSymbolForMingw (i : Nat) (s : State) : Except Stop State := do
  let sc ← access s.sparseChunks (o.getSectionNumber i)
  match sc with
  | .chunk number =>
    match o.header number with
    | some sec =>
      -- IMAGE_SCN_MEM_EXECUTE
      if sec.has 0x20000000 then
        let key := behindDollar (sec.name.getD [])
        pure { s with prevailingSectionMap := (key, o.getSectionNumber i) :: s.prevailingSectionMap }
      else pure s
    | none => pure s
  | _ => pure s

def maybeAssociateSEHForMingw (i : Nat) (s : State) : Except Stop State := do
  let name ← check (o.getSymbolName i)
  match [".pdata$", ".xdata$", ".eh_frame$"].find? (fun front => text front <+: name) with
  | some front =>
    match s.prevailingSectionMap.lookup (name.drop front.length) with
    | some parent => readAssociativeDefinition o env i parent s
    | none => pure s
  | none => pure s

/-! ### Symbols -/

def createUndefined (i : Nat) : Except Stop (Option Symbol) := do
  let name ← check (o.getSymbolName i)
  pure (some (.undefined name))

def createRegular (i : Nat) (s : State) : Except Stop (Option Symbol) := do
  let sc ← access s.sparseChunks (o.getSectionNumber i)
  if o.isExternal i then
    let name ← check (o.getSymbolName i)
    if sc ≠ .null then pure (some (.regular name (o.getSectionNumber i)))
    else if env.mingw ∧ text ".weak." <+: name then pure none
    else pure (some (.undefined name))
  else if sc ≠ .null then pure (some (.regular [] (o.getSectionNumber i)))
  else pure none

/-- What `createDefined` returns and its last argument; no symbol stands for `std::nullopt`. -/
structure Created where
  symbol : Option (Option Symbol)
  prevailing : Bool
  state : State

/-- A leader that is not external has no name and prevails. -/
def ifExternal {α : Type} (i : Nat) (x : Option α) (otherwise : α) : Except Stop α :=
  if o.isExternal i then check x else pure otherwise

/-- The comdat leader of a section whose definition stands at the symbol `definition`. -/
def createLeader (i definition : Nat) (s : State) : Except Stop Created := do
  let sectionNumber := o.getSectionNumber i
  let comdatDefs ← write s.comdatDefs sectionNumber none
  let s := { s with comdatDefs }
  let name ← ifExternal o i (o.getSymbolName i) []
  let prevailing ← ifExternal o i (env.prevails i) true
  if o.selection definition < 1 ∨ o.selection definition > 6 then .error .fatal
  else if prevailing then
    let _leaderName ← check (o.getSymbolName i)
    let (c, s) ← readSection o env sectionNumber s
    let sparseChunks ← write s.sparseChunks sectionNumber c
    let symbol := if c = .null then none else some (.regular name sectionNumber)
    pure ⟨some symbol, true, { s with sparseChunks }⟩
  else
    let sparseChunks ← write s.sparseChunks sectionNumber .null
    pure ⟨some (some (.leaderElsewhere name)), false, { s with sparseChunks }⟩

def createDefined (i : Nat) (s : State) : Except Stop Created := do
  let sectionNumber := o.getSectionNumber i
  if o.isCommon i then
    let name ← check (o.getSymbolName i)
    pure ⟨some (some (.common name)), false, s⟩
  else if o.isAbsolute i then
    let name ← check (o.getSymbolName i)
    pure ⟨some (if ignoredSymbolName name then none else some (.absolute name)), false, s⟩
  -- IMAGE_SYM_DEBUG
  else if sectionNumber = -2 then pure ⟨some none, false, s⟩
  else if o.isEmptySectionDeclaration i then
    let name ← check (o.getSymbolName i)
    pure ⟨some (some (.emptySection name)), false, s⟩
  else if sectionNumber ≤ 0 then .error .fatal
  else if s.sparseChunks.length ≤ sectionNumber then .error .fatal
  else
    let definition ← access s.comdatDefs sectionNumber
    match definition with
    | some definition => createLeader o env i definition s
    | none =>
      let sc ← access s.sparseChunks sectionNumber
      if sc = .pending then
        if o.hasSectionDefinition i && o.selection i != 5 then
          let comdatDefs ← write s.comdatDefs sectionNumber (some i)
          pure ⟨none, false, { s with comdatDefs }⟩
        else pure ⟨none, false, s⟩
      else
        let symbol ← createRegular o env i s
        pure ⟨some symbol, false, s⟩

/-- Where a weak external is the anti-dependency of an ARM64EC object, its target is read. -/
def readTarget (i : Nat) : Except Stop Unit :=
  if o.arm64EC ∧ o.characteristics i = 4 then
    if o.tagIndex i < o.numberOfSymbols then
      if o.isAnyUndefined (o.tagIndex i) then pure ()
      else do
        let _targetName ← check (o.getSymbolName (o.tagIndex i))
        let _name ← check (o.getSymbolName i)
        pure ()
    else .error .fatal
  else pure ()

/-- One round of the first loop of `initializeSymbols`. -/
def readSymbol (s : State) (i : Nat) : Except Stop State := do
  if o.isUndefined i then
    let symbol ← createUndefined o i
    let symbols ← write s.symbols i symbol
    pure { s with symbols }
  else if o.isWeakExternal i then
    let _ ← readTarget o i
    let symbol ← createUndefined o i
    let symbols ← write s.symbols i symbol
    pure { s with symbols, weakAliases := s.weakAliases ++ [i] }
  else
    let created ← createDefined o env i s
    match created.symbol with
    | some symbol =>
      let symbols ← write created.state.symbols i symbol
      let s := { created.state with symbols }
      if env.mingw && created.prevailing then recordPrevailingSymbolForMingw o i s else pure s
    | none =>
      pure { created.state with pendingIndexes := created.state.pendingIndexes ++ [i] }

/-- What becomes of the section of a postponed symbol. -/
def resolveSection (s : State) (i : Nat) : Except Stop State :=
  if o.hasSectionDefinition i then
    if o.selection i = 5 then readAssociativeDefinition o env i (o.definitionNumber i) s
    else if env.mingw then maybeAssociateSEHForMingw o env i s
    else pure s
  else pure s

/-- One round of the second loop. -/
def resolvePending (s : State) (i : Nat) : Except Stop State := do
  let s ← resolveSection o env s i
  let sc ← access s.sparseChunks (o.getSectionNumber i)
  if sc = .pending then
    let _name ← check (o.getSymbolName i)
    pure s
  else
    let symbol ← createRegular o env i s
    let symbols ← write s.symbols i symbol
    pure { s with symbols }

/-- A weak alias with its target. -/
abbrev Alias := Nat × Option Symbol

/-- One round of the third loop. -/
def setAlias (s : State) (aliases : List Alias) (i : Nat) : Except Stop (List Alias) := do
  let target ← access s.symbols (o.tagIndex i)
  pure (aliases ++ [(i, target)])

def initialState : State := ⟨[], [], [], [], [], [], []⟩

/-- `initializeChunks`, and `initializeSymbols` up to the end of its first loop. -/
def readSymbols (fuel : Nat) : Except Stop State := do
  let s ← initializeChunks o env initialState
  let s := { s with
    symbols := List.replicate o.numberOfSymbols none
    comdatDefs := List.replicate o.numberOfChunks none }
  symbolLoop o.toCoffObject .running (readSymbol o env) fuel 0 s

def initializeSymbols (fuel : Nat) : Except Stop (State × List Alias) := do
  let s ← readSymbols o env fuel
  let s ← s.pendingIndexes.foldlM (resolvePending o env) s
  let aliases ← s.weakAliases.foldlM (setAlias o s) []
  pure (s, aliases)

/-! ### Thunks -/

structure Thunks where
  entries : List (Option Symbol × Option Symbol)
  exits : List (Option Symbol × Option Symbol)

def getSymbol (s : State) (symbolIndex : Nat) : Except Stop (Option Symbol) := access s.symbols symbolIndex

/-- The entry of a map at `k`: source, destination and type. -/
def readEntry (s : State) (contents : Bytes) (thunks : Thunks) (k : Nat) : Except Stop Thunks :=
  let src := contents.u32At (12 * k)
  let dst := contents.u32At (12 * k + 4)
  match contents.u32At (12 * k + 8) with
  -- Entry
  | 1 => do
    let source ← getSymbol s src
    let destination ← getSymbol s dst
    pure { thunks with entries := thunks.entries ++ [(source, destination)] }
  -- Exit
  | 4 => do
    let source ← getSymbol s src
    let destination ← getSymbol s dst
    pure { thunks with exits := thunks.exits ++ [(source, destination)] }
  | _ => pure thunks

/-- A map whose size is wrong is reported and skipped. -/
def readChunk (s : State) (thunks : Thunks) (number : Nat) : Except Stop Thunks := do
  let contents ← cantFail ((o.header number).bind CoffSection.contents)
  if contents.length % 12 ≠ 0 then pure thunks
  else (List.range (contents.length / 12)).foldlM (readEntry s contents) thunks

def initializeECThunks (s : State) : Except Stop Thunks :=
  s.hybmpChunks.foldlM (readChunk o s) ⟨[], []⟩

def parse (fuel : Nat) : Except Stop (State × List Alias × Thunks) := do
  let (s, aliases) ← initializeSymbols o env fuel
  if env.dependencies then
    let thunks ← initializeECThunks o s
    pure (s, aliases, thunks)
  else .error .fatal

end LlvmLd.Input.Coff
