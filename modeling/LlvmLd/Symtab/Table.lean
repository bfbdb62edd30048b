import Mathlib.Logic.Function.Basic
import Mathlib.Logic.Relation

/-!
# Symbols and the files that define them

The symbol table while inputs are read: definitions, references, and symbols of archives, of objects
between `-start-lib` and `-end-lib` and of DLLs, which are read only when something refers to them.
-/

namespace LlvmLd.Symtab

/-- What is read: inputs, members of archives by the offset of the child, and the imports that are
made for the symbols of a DLL. -/
inductive File (Name : Type)
  | input (i : Nat)
  | member (archive childOffset : Nat)
  | imported (dll : Nat) (symbolName : Name)
  deriving DecidableEq

/-- A `Symbol *` in an alias: by name, or a symbol of a file that is not external. -/
inductive Ref (Name : Type)
  | external (name : Name)
  | static (file : File Name) (index : Nat) (isAbsZero : Bool)
  deriving DecidableEq

/-- The kinds of symbols; `sym` is the number of the record in its file. -/
inductive Body (Name : Type)
  | undefined (weakAlias : Option (Ref Name)) (isAntiDep : Bool)
  | lazyArchive (file childOffset : Nat)
  | lazyObject (file : Nat)
  | lazyDLLSymbol (file : Nat) (symbolName : Name)
  | definedRegular (file : File Name) (sym : Nat) (isCOMDAT isWeak : Bool)
  | definedCommon (file : File Name) (sym size : Nat)
  | definedAbsolute (va : Nat)
  | definedSynthetic
  | definedImportData (file : File Name)
  | definedImportThunk (file : File Name)
  deriving DecidableEq

/-- The lazy symbols of one archive. -/
def Body.ofArchive {Name : Type} (f : Nat) : Body Name → Bool
  | .lazyArchive file _ => file == f
  | _ => false

def Body.ofObject {Name : Type} (f : Nat) : Body Name → Bool
  | .lazyObject file => file == f
  | _ => false

structure Symbol (Name : Type) where
  body : Body Name
  isUsedInRegularObj : Bool
  pendingArchiveLoad : Bool
  deriving DecidableEq

namespace Symbol

variable {Name : Type}

def isLazy (s : Symbol Name) : Bool :=
  match s.body with
  | .lazyArchive .. | .lazyObject .. | .lazyDLLSymbol .. => true
  | _ => false

def isUndefined (s : Symbol Name) : Bool :=
  match s.body with
  | .undefined .. => true
  | _ => false

def isDefined (s : Symbol Name) : Bool := !s.isLazy && !s.isUndefined

def isDefinedRegular (s : Symbol Name) : Bool :=
  match s.body with
  | .definedRegular .. => true
  | _ => false

def isDefinedCOFF (s : Symbol Name) : Bool :=
  match s.body with
  | .definedRegular .. | .definedCommon .. => true
  | _ => false

def isWeak (s : Symbol Name) : Bool :=
  match s.body with
  | .definedRegular _ _ _ isWeak => isWeak
  | _ => false

/-- `replaceSymbol`: of the flags only the use is kept. -/
def replace (s : Symbol Name) (body : Body Name) : Symbol Name :=
  { s with body, pendingArchiveLoad := false }

end Symbol

/-- The inputs: which files are bitcode, whether the table is the one of ARM64EC, and the two forms
of the name of a function there (names with `__imp_` in front have none). -/
structure Names (Name : Type) where
  isBitcode : File Name → Bool
  isEC : Bool
  pairName : Name → Option Name
  allowDuplicateWeak : Bool

/-- The table, and what the driver still has to do. -/
structure Table (Name : Type) where
  symMap : Name → Option (Symbol Name)
  /-- `InputFile::lazy` -/
  lazy : Nat → Bool
  /-- The members of archives and the imports from DLLs that have been asked for. -/
  seen : List (File Name)
  visitedFiles : List Nat
  taskQueue : List (File Name)
  /-- Calls of `reportDuplicate`: the existing symbol and the new file. -/
  duplicates : List (Name × Option (File Name))

namespace Table

variable {Name : Type} [DecidableEq Name] (cfg : Names Name)

/-! ### Access -/

def IsDefined (t : Table Name) (n : Name) : Prop :=
  ∃ s, t.symMap n = some s ∧ s.isDefined = true

def put (t : Table Name) (name : Name) (s : Symbol Name) : Table Name :=
  { t with symMap := Function.update t.symMap name (some s) }

/-- The symbol, a fresh one for a new name. -/
def insert (t : Table Name) (name : Name) : Symbol Name × Bool :=
  match t.symMap name with
  | some s => (s, false)
  | none => (⟨.undefined none false, false, false⟩, true)

/-- `insert` with the file that uses the name. -/
def insertFor (t : Table Name) (name : Name) (file : Option (File Name)) : Symbol Name × Bool :=
  let (s, wasInserted) := t.insert name
  -- a name that only bitcode uses may be optimised away
  let regular := match file with
    | none => true
    | some f => !cfg.isBitcode f
  ({ s with isUsedInRegularObj := s.isUsedInRegularObj || regular }, wasInserted)

def reportDuplicate (t : Table Name) (existing : Name) (newFile : Option (File Name)) :
    Table Name :=
  { t with duplicates := t.duplicates ++ [(existing, newFile)] }

/-! ### Loading -/

/-- A member of an archive is read when its turn comes. -/
def addMember (t : Table Name) (archive childOffset : Nat) : Table Name :=
  if .member archive childOffset ∈ t.seen then t
  else { t with seen := .member archive childOffset :: t.seen
                taskQueue := t.taskQueue ++ [.member archive childOffset] }

/-- With the file that is to be read at once. -/
def makeImport (t : Table Name) (dll : Nat) (symbolName : Name) :
    Table Name × Option (File Name) :=
  if .imported dll symbolName ∈ t.seen then (t, none)
  else ({ t with seen := .imported dll symbolName :: t.seen }, some (.imported dll symbolName))

def forceLazy (t : Table Name) (name : Name) (s : Symbol Name) : Table Name × Option (File Name) :=
  let t := t.put name { s with pendingArchiveLoad := true }
  match s.body with
  | .lazyArchive file childOffset => (t.addMember file childOffset, none)
  | .lazyObject file =>
    -- one of its other names may have loaded it
    if t.lazy file then ({ t with lazy := Function.update t.lazy file false }, some (.input file))
    else (t, none)
  | .lazyDLLSymbol file symbolName => t.makeImport file symbolName
  -- "symbol passed to forceLazy is not a LazyArchive or LazyObject"
  | _ => (t, none)

def addUndefined (t : Table Name) (name : Name) (f : Option (File Name)) (overrideLazy : Bool) :
    Table Name × Option (File Name) :=
  let (s, wasInserted) := t.insertFor cfg name f
  -- a weak reference takes the place of a lazy symbol and loads nothing
  if wasInserted || (s.isLazy && overrideLazy) then
    (t.put name (s.replace (.undefined none false)), none)
  else if s.isLazy then t.forceLazy name s
  else (t.put name s, none)

/-- Whether the other form of the name leaves this one to the file: `own` says which lazy symbols
are of the same kind and file. -/
def checkLazyECPair (t : Table Name) (name : Name) (own : Body Name → Bool) : Bool :=
  match cfg.pairName name with
  | none => true
  | some pairName =>
    match t.symMap pairName with
    | none => true
    | some sym =>
      -- the other form has a file already
      if sym.pendingArchiveLoad then false
      else
        match sym.body with
        | .undefined weakAlias isAntiDep => weakAlias.isNone || isAntiDep
        | body => own body

/-- An undefined symbol that no file has been asked for yet, and that has no fallback (except for
the other form of its name). -/
def wantsLazy (s : Symbol Name) : Bool :=
  match s.body with
  | .undefined weakAlias isAntiDep =>
    !(weakAlias.isSome && !(isAntiDep && cfg.isEC)) && !s.pendingArchiveLoad
  | _ => false

def addLazyArchive (t : Table Name) (f childOffset : Nat) (name : Name) : Table Name :=
  if cfg.isEC && !t.checkLazyECPair cfg name (Body.ofArchive f) then t
  else
    let (s, wasInserted) := t.insert name
    if wasInserted then t.put name (s.replace (.lazyArchive f childOffset))
    else if !wantsLazy cfg s then t
    -- the reference came first
    else (t.put name { s with pendingArchiveLoad := true }).addMember f childOffset

def addLazyObject (t : Table Name) (f : Nat) (name : Name) : Table Name × Option (File Name) :=
  if cfg.isEC && !t.checkLazyECPair cfg name (Body.ofObject f) then (t, none)
  else
    let (s, wasInserted) := t.insertFor cfg name (some (.input f))
    if wasInserted then (t.put name (s.replace (.lazyObject f)), none)
    else if !wantsLazy cfg s then (t.put name s, none)
    else
      let t := t.put name { s with pendingArchiveLoad := true }
      ({ t with lazy := Function.update t.lazy f false }, some (.input f))

def addLazyDLLSymbol (t : Table Name) (f : Nat) (symbolName name : Name) :
    Table Name × Option (File Name) :=
  let (s, wasInserted) := t.insert name
  if wasInserted then (t.put name (s.replace (.lazyDLLSymbol f symbolName)), none)
  else if !wantsLazy cfg s then (t, none)
  else (t.put name { s with pendingArchiveLoad := true }).makeImport f symbolName

/-! ### Definitions -/

def addAbsolute (t : Table Name) (n : Name) (va : Nat) : Table Name :=
  let (s, wasInserted) := t.insertFor cfg n none
  if wasInserted || s.isUndefined || s.isLazy then t.put n (s.replace (.definedAbsolute va))
  else
    match s.body with
    | .definedAbsolute old =>
      if old ≠ va then (t.put n s).reportDuplicate n none else t.put n s
    -- the definition of an object wins without a report
    | _ => if !s.isDefinedCOFF then (t.put n s).reportDuplicate n none else t.put n s

def addSynthetic (t : Table Name) (n : Name) : Table Name :=
  let (s, wasInserted) := t.insertFor cfg n none
  if wasInserted || s.isUndefined || s.isLazy then t.put n (s.replace .definedSynthetic)
  else if !s.isDefinedCOFF then (t.put n s).reportDuplicate n none
  else t.put n s

def addRegular (t : Table Name) (f : File Name) (n : Name) (sym : Nat) (isWeak : Bool) :
    Table Name :=
  let (s, wasInserted) := t.insertFor cfg n (some f)
  -- only a strong definition of an object stays
  if wasInserted || !s.isDefinedRegular || s.isWeak then
    t.put n (s.replace (.definedRegular f sym false isWeak))
  else if !isWeak then (t.put n s).reportDuplicate n (some f)
  else t.put n s

/-- With whether the new definition prevails. -/
def addComdat (t : Table Name) (f : File Name) (n : Name) (sym : Nat) : Table Name × Bool :=
  let (s, wasInserted) := t.insertFor cfg n (some f)
  if wasInserted || !s.isDefinedRegular then
    (t.put n (s.replace (.definedRegular f sym true false)), true)
  else
    match s.body with
    | .definedRegular _ _ true _ => (t.put n s, false)
    | _ => ((t.put n s).reportDuplicate n (some f), false)

/-- The end of `handleComdatSelection` for a definition that is larger than the leader. -/
def replaceLeader (t : Table Name) (f : File Name) (n : Name) (sym : Nat) : Table Name :=
  match t.symMap n with
  | none => t
  | some leader => t.put n (leader.replace (.definedRegular f sym true false))

def addCommon (t : Table Name) (f : File Name) (n : Name) (size sym : Nat) : Table Name :=
  let (s, wasInserted) := t.insertFor cfg n (some f)
  if wasInserted || !s.isDefinedCOFF then t.put n (s.replace (.definedCommon f sym size))
  else
    match s.body with
    | .definedCommon _ _ old =>
      if size > old then t.put n (s.replace (.definedCommon f sym size)) else t.put n s
    | _ => t.put n s

/-- `addImportData` and `addImportThunk`, which differ in the symbol that they make. -/
def addImport (t : Table Name) (n : Name) (f : File Name) (body : Body Name) : Table Name :=
  let (s, wasInserted) := t.insertFor cfg n none
  if wasInserted || s.isUndefined || s.isLazy then t.put n (s.replace body)
  else (t.put n s).reportDuplicate n (some f)

def addImportData (t : Table Name) (n : Name) (f : File Name) : Table Name :=
  t.addImport cfg n f (.definedImportData f)

def addImportThunk (t : Table Name) (n : Name) (f : File Name) : Table Name :=
  t.addImport cfg n f (.definedImportThunk f)

def isAbsZero (t : Table Name) : Ref Name → Bool
  | .static _ _ isAbsZero => isAbsZero
  | .external name =>
    match t.symMap name with
    | some s => s.body == .definedAbsolute 0
    | none => false

def checkAndSetWeakAlias (t : Table Name) (f : File Name) (source : Name) (target : Ref Name)
    (isAntiDep : Bool) : Table Name :=
  match t.symMap source with
  | some ⟨.undefined weakAlias antiDep, used, pending⟩ =>
    let set := t.put source ⟨.undefined (some target) isAntiDep, used, pending⟩
    match weakAlias with
    | none => set
    | some current =>
      if current = target then set
      -- duplicated anti-dependencies are ignored, and other aliases replace them
      else if isAntiDep then t
      else if antiDep then set
      else if cfg.allowDuplicateWeak then
        -- an alias that points at absolute zero gives way to one that does not
        if t.isAbsZero current && !t.isAbsZero target then set else t
      else set.reportDuplicate source (some f)
  | _ => t

/-- An input is read once, however often it is named. -/
def enqueue (t : Table Name) (i : Nat) : Table Name :=
  if i ∈ t.visitedFiles then t
  else { t with visitedFiles := i :: t.visitedFiles, taskQueue := t.taskQueue ++ [.input i] }

end Table

end LlvmLd.Symtab
