import LlvmLd.Idata.Import
import Mathlib.Data.List.Sort
import Mathlib.Logic.Function.Basic

/-!
`IdataContents::create`: the chunks of the import tables and the ARM64X relocations recorded for
them. A pointer to a chunk is its index in the vector that the chunk is pushed to.
-/

namespace LlvmLd.Idata

open LlvmLd.Writer (Machine)

/-! ### Chunks -/

/-- A chunk of `lookups` or `addresses`. -/
inductive Slot where
  -- `LookupChunk` with its `hintName`
  | lookup (hintName : Nat)
  | ordinalOnly (ordinal : UInt16)
  | null
  deriving DecidableEq, Repr

structure HintNameChunk where
  name : Name
  hint : UInt16
  deriving DecidableEq

structure ImportDirectory where
  dllName : Nat
  lookupTab : Nat
  addressTab : Nat
  deriving DecidableEq, Repr

inductive DirChunk where
  | directory (dir : ImportDirectory)
  | null
  deriving DecidableEq, Repr

inductive AuxSlot (ι : Type) where
  | auxImport (file : ι)
  | null
  deriving DecidableEq, Repr

/-! ### Dynamic relocations -/

/-- `IMAGE_DVRT_ARM64X_FIXUP_TYPE_*` -/
inductive FixupType where
  | zeroFill | value | delta
  deriving DecidableEq, Repr

inductive ChunkPtr where
  | lookups (i : Nat)
  | addresses (i : Nat)
  | hints (i : Nat)
  | dirs (i : Nat)
  deriving DecidableEq, Repr

/-- `Arm64XRelocVal`: a chunk or nothing, and a number. -/
structure Arm64XRelocVal where
  chunk : Option ChunkPtr
  value : Nat
  deriving DecidableEq, Repr

structure Arm64XReloc where
  type : FixupType
  size : Nat
  offset : Arm64XRelocVal
  value : Arm64XRelocVal
  deriving DecidableEq, Repr

/-! ### `IdataContents` -/

structure IdataContents (ι : Type) where
  dirs : List DirChunk
  lookups : List Slot
  addresses : List Slot
  hints : List HintNameChunk
  dllNames : List Name
  auxIat : List (AuxSlot ι)
  auxIatCopy : List (AuxSlot ι)
  -- `ctx.dynamicRelocs`
  relocs : List Arm64XReloc
  -- `location`, `auxLocation` and `auxCopyLocation` of the files
  location : ι → Option Nat
  auxLocation : ι → Option Nat
  auxCopyLocation : ι → Option Nat

section Create

variable {ι : Type} [DecidableEq ι] (file : ι → ImportFile) (target : Machine)

abbrev isEC (f : ι) : Bool := (file f).isEC target

/-- `ctx.hybridSymtab` exists, and `ctx.symtab.isEC()`. -/
def hybrid : Bool := target.isArm64EC

/-! ### Merging native and EC imports -/

structure MergeState (ι : Type) where
  hybridSyms : List ι
  prev : Option ι
  hybridFile : ι → Option ι

def mergeSym (s : MergeState ι) (sym : ι) : MergeState ι :=
  match s.prev with
  | none => { s with hybridSyms := s.hybridSyms ++ [sym], prev := some sym }
  | some prev =>
    if isEC file target sym = isEC file target prev ∨ (file sym).isSameImport (file prev) = false then
      { s with hybridSyms := s.hybridSyms ++ [sym], prev := some sym }
    else
      -- the EC variant stands for both
      let hybridSyms :=
        if isEC file target sym then s.hybridSyms.dropLast ++ [sym] else s.hybridSyms
      let hybridFile := Function.update s.hybridFile prev (some sym)
      { hybridSyms, prev := none, hybridFile := Function.update hybridFile sym (some prev) }

/-- The order of the stable sort: native files, merged files, EC files. -/
def hybridLess (hybridFile : ι → Option ι) (a b : ι) : Bool :=
  if (hybridFile a).isSome then !(hybridFile b).isSome && isEC file target b
  else !isEC file target a && isEC file target b

/-- `stable_sort` -/
def stableSort (less : ι → ι → Bool) (l : List ι) : List ι :=
  l.insertionSort (fun a b => less b a = false)

def mergeDll (hybridFile : ι → Option ι) (syms : List ι) : List ι × (ι → Option ι) :=
  let s := syms.foldl (mergeSym file target) ⟨[], none, hybridFile⟩
  (stableSort (hybridLess file target s.hybridFile) s.hybridSyms, s.hybridFile)

def mergeDlls : (ι → Option ι) → List (List ι) → List (List ι) × (ι → Option ι)
  | hybridFile, [] => ([], hybridFile)
  | hybridFile, syms :: v =>
    let merged := mergeDll file target hybridFile syms
    let rest := mergeDlls merged.2 v
    (merged.1 :: rest.1, rest.2)

/-- The bins as the tables list them, and which files were merged. -/
def listed (bins : List (List ι)) : List (List ι) × (ι → Option ι) :=
  if hybrid target then mergeDlls file target (fun _ => none) bins else (bins, fun _ => none)

/-! ### The tables of one DLL -/

structure DllState (ι : Type) where
  contents : IdataContents ι
  lookupsTerminator : Option Slot
  addressesTerminator : Option Slot
  nativeOnly : Nat

def chunkPtr (p : ChunkPtr) (offset : Nat) : Arm64XRelocVal := ⟨some p, offset⟩

def number (n : Nat) : Arm64XRelocVal := ⟨none, n⟩

/-- The relocations that give the EC view its first EC-only import and its terminator; `last` is
where the terminator will stand. -/
def terminatorRelocs (relocVal : Arm64XRelocVal) (here last : Nat) : List Arm64XReloc :=
  [⟨.value, 8, chunkPtr (.lookups here) 0, relocVal⟩,
    ⟨.value, 8, chunkPtr (.addresses here) 0, relocVal⟩,
    ⟨.zeroFill, 8, chunkPtr (.lookups last) 0, number 0⟩,
    ⟨.zeroFill, 8, chunkPtr (.addresses last) 0, number 0⟩]

/-- The chunk for an import, which stands in both tables, and the value it has when relocated. -/
def importChunk (f : ImportFile) (hints : List HintNameChunk) :
    Slot × Arm64XRelocVal × List HintNameChunk :=
  if f.externalName.1 = [] then
    (.ordinalOnly f.ordinalHint, number (2 ^ 63 ||| f.ordinalHint.toNat), hints)
  else
    (.lookup hints.length, chunkPtr (.hints hints.length) 0,
      hints ++ [⟨f.externalName, f.ordinalHint⟩])

def addAux (f : ι) (t : IdataContents ι) : IdataContents ι :=
  if isEC file target f then
    { t with
      auxIat := t.auxIat ++ [.auxImport f]
      auxLocation := Function.update t.auxLocation f (some t.auxIat.length)
      auxIatCopy := t.auxIatCopy ++ [.auxImport f]
      auxCopyLocation := Function.update t.auxCopyLocation f (some t.auxIatCopy.length) }
  else if hybrid target then
    { t with auxIat := t.auxIat ++ [.null], auxIatCopy := t.auxIatCopy ++ [.null] }
  else t

def addSymbol (hybridFile : ι → Option ι) (last : Nat) (d : DllState ι) (f : ι) : DllState ι :=
  let t := d.contents
  let chunk := importChunk (file f) t.hints
  let t := { t with hints := chunk.2.2 }
  let nativeOnly :=
    if isEC file target f = false ∧ hybrid target = true then uint32 (d.nativeOnly + 1)
    else d.nativeOnly
  if target = .arm64x ∧ d.lookupsTerminator = none ∧ isEC file target f = true ∧
      hybridFile f = none then
    let relocs := terminatorRelocs chunk.2.1 t.lookups.length last
    let t := { t with
      lookups := t.lookups ++ [.null]
      addresses := t.addresses ++ [.null]
      relocs := t.relocs ++ relocs }
    ⟨addAux file target f t, some chunk.1, some chunk.1, nativeOnly⟩
  else
    let t := { t with
      lookups := t.lookups ++ [chunk.1]
      addresses := t.addresses ++ [chunk.1] }
    ⟨addAux file target f t, d.lookupsTerminator, d.addressesTerminator, nativeOnly⟩

def setLocations (hybridFile : ι → Option ι) :
    Nat → List ι → (ι → Option Nat) → ι → Option Nat
  | _, [], location => location
  | i, s :: syms, location =>
    let location := Function.update location s (some i)
    let location := match hybridFile s with
      | none => location
      | some other => Function.update location other (some i)
    setLocations hybridFile (i + 1) syms location

/-- `offsetof` in `ImportDirectoryTableEntry` -/
def lookupTabOffset : Nat := 0

def addressTabOffset : Nat := 16

def createDll (hybridFile : ι → Option ι) (t : IdataContents ι) (syms : List ι) :
    IdataContents ι :=
  let base := t.lookups.length
  let d := syms.foldl (addSymbol file target hybridFile (base + syms.length)) ⟨t, none, none, 0⟩
  let t := d.contents
  let t := { t with
    lookups := t.lookups ++ [d.lookupsTerminator.getD .null]
    addresses := t.addresses ++ [d.addressesTerminator.getD .null] }
  let t := if hybrid target then
      { t with auxIat := t.auxIat ++ [.null], auxIatCopy := t.auxIatCopy ++ [.null] }
    else t
  let t := { t with
    location := setLocations hybridFile base syms t.location
    dllNames := t.dllNames ++ (syms.head?.map (fun s => (file s).dllName)).toList }
  let dir := t.dirs.length
  let skipped := hybrid target && d.nativeOnly != 0
  -- native-only imports come first
  let first := if skipped && target != .arm64x then base + d.nativeOnly else base
  let relocs := if skipped && target == .arm64x then
      [⟨.delta, 0, chunkPtr (.dirs dir) lookupTabOffset, number (d.nativeOnly * 8)⟩,
        ⟨.delta, 0, chunkPtr (.dirs dir) addressTabOffset, number (d.nativeOnly * 8)⟩]
    else []
  { t with
    relocs := t.relocs ++ relocs
    dirs := t.dirs ++ [.directory ⟨t.dllNames.length - 1, first, first⟩] }

def IdataContents.empty : IdataContents ι :=
  ⟨[], [], [], [], [], [], [], [], fun _ => none, fun _ => none, fun _ => none⟩

/-- What `create` makes of the bins, and which files it merged. -/
def createTables (bins : List (List ι)) : IdataContents ι × (ι → Option ι) :=
  let merged := listed file target bins
  let t := merged.1.foldl (createDll file target merged.2) IdataContents.empty
  ({ t with dirs := t.dirs ++ [.null] }, merged.2)

def create (sorting : Groups.Sorting (baseNameLess file)) (lists : ImportLists ι) :
    IdataContents ι × (ι → Option ι) :=
  createTables file target (binImports file sorting lists.dllOrder lists.idata)

end Create

end LlvmLd.Idata
