import LlvmLd.Lib.Bytes
import LlvmLd.Lib.Groups
import LlvmLd.Writer.Chunk

/-!
Import files and how they are put in order: `Writer::createImportTables`, `binImports` and
`ImportFile::isSameImport`.
-/

namespace LlvmLd.Idata

open LlvmLd.Writer (Machine)

/-- A string of an import file; it was cut off at its NUL. -/
abbrev Name := { b : Bytes // (0 : UInt8) ∉ b }

/-- What `ImportFile::impSym` points to. -/
inductive ImpSym where
  | null | importData | other
  deriving DecidableEq, Repr

structure ImportFile where
  /-- `hdr->Machine` -/
  machine : Machine
  live : Bool
  dllName : Name
  externalName : Name
  /-- `hdr->OrdinalHint` -/
  ordinalHint : UInt16
  impSym : ImpSym
  /-- `impSym->getName()` -/
  symName : Bytes
  /-- whether there is an `impchkThunk` -/
  impchkThunk : Bool
  /-- whether there is a `thunkSym` -/
  thunkSym : Bool
  deriving DecidableEq

/-- `impECSym != nullptr`: `parse` makes one for the files of an EC symbol table, and on hybrid
targets only ARM64 files have the native one. -/
def ImportFile.isEC (target : Machine) (file : ImportFile) : Bool :=
  target.isArm64EC && file.machine != .arm64

def ImportFile.isSameImport (file other : ImportFile) : Bool :=
  if file.externalName.1 ≠ [] then other.externalName.1 == file.externalName.1
  else file.ordinalHint == other.ordinalHint

/-- `StringRef::lower`. -/
def lower (s : Bytes) : Bytes := s.map (fun c => if 65 ≤ c ∧ c ≤ 90 then c + 32 else c)

/-! ### `createImportTables` -/

section Create

variable {ι : Type} (file : ι → ImportFile)

def dllOf (f : ι) : Bytes := lower (file f).dllName.1

/-- `dllOrder` maps a name to its number, in the order of the first mention. -/
abbrev DllOrder := List (Bytes × Nat)

def tryEmplace (order : DllOrder) (dll : Bytes) : DllOrder :=
  match order.lookup dll with
  | some _ => order
  | none => order ++ [(dll, order.length)]

/-- `dllOrder[dll]`, 0 for a name that is missing. -/
def DllOrder.at (order : DllOrder) (dll : Bytes) : Nat := (order.lookup dll).getD 0

inductive Fatal where
  | replaced (name : Bytes)
  | delayData (name : Bytes)
  -- a null symbol goes into the list and is dereferenced later
  | nullSymbol
  deriving DecidableEq, Repr

structure ImportLists (ι : Type) where
  dllOrder : DllOrder
  idata : List ι
  delayIdata : List ι

def addImport (delayLoads : List Bytes) (s : ImportLists ι) (f : ι) :
    Except Fatal (ImportLists ι) :=
  if (file f).live = false then .ok s
  else
    let s := { s with dllOrder := tryEmplace s.dllOrder (dllOf file f) }
    match (file f).impSym with
    | .other => .error (.replaced (file f).symName)
    | .null => .error .nullSymbol
    | .importData =>
      if dllOf file f ∈ delayLoads then
        if (file f).thunkSym = false then .error (.delayData (file f).symName)
        else .ok { s with delayIdata := s.delayIdata ++ [f] }
      else .ok { s with idata := s.idata ++ [f] }

def createImportTables (delayLoads : List Bytes) (instances : List ι) :
    Except Fatal (ImportLists ι) :=
  instances.foldlM (addImport file delayLoads) ⟨[], [], []⟩

/-! ### `binImports` -/

/-- `StringRef::consume_front` -/
def consumeFront (name start : Bytes) : Bytes :=
  if start.isPrefixOf name then name.drop start.length else name

/-- `__imp_` -/
def impMark : Bytes := [0x5f, 0x5f, 0x69, 0x6d, 0x70, 0x5f]

/-- `aux_` -/
def auxMark : Bytes := [0x61, 0x75, 0x78, 0x5f]

def getBaseName (f : ι) : Bytes :=
  let name := consumeFront (file f).symName impMark
  if (file f).impchkThunk then consumeFront name auxMark else name

def baseNameLess (a b : ι) : Bool := decide (getBaseName file a < getBaseName file b)

def binImports (sorting : Groups.Sorting (baseNameLess file)) (order : DllOrder)
    (imports : List ι) : List (List ι) :=
  (Groups.collect order.at (dllOf file) imports).map (fun g => sorting.sort g.2)

end Create

end LlvmLd.Idata
