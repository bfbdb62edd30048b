import Mathlib.Data.List.Sort
import LlvmLd.Lib.Bytes

/-!
Chunks and output sections of the COFF writer (`lld/COFF/Chunks.h`, `Chunks.cpp`, `Writer.h`), as
far as address assignment looks at them: sizes, alignments, base relocations and thunks.
-/

namespace LlvmLd.Writer

-- alignment exponents: chunks are aligned to at most 8192
instance instNeZeroFourteen : NeZero 14 := ⟨by decide⟩

inductive Machine where
  | amd64 | i386 | armnt | arm64 | arm64ec | arm64x
  deriving DecidableEq, Repr

def Machine.is64 : Machine → Bool
  | .i386 | .armnt => false
  | _ => true

/-- `isArm64EC`: the hybrid machine types. -/
def Machine.isArm64EC : Machine → Bool
  | .arm64ec | .arm64x => true
  | _ => false

def Machine.isAnyArm64 : Machine → Bool
  | .arm64 | .arm64ec | .arm64x => true
  | _ => false

/-- `chpe_range_type`. -/
inductive ChpeRange where
  | arm64 | arm64ec | amd64
  deriving DecidableEq, Repr

/-- What the symbol of a relocation resolves to. Chunks are named by a key. -/
inductive Target where
  | missing
  | absolute (va : Nat)
  | chunk (key : Nat) (offset : Nat)
  deriving DecidableEq, Repr

/-- `coff_relocation` with its symbol looked up. -/
structure Relocation where
  virtualAddress : Nat
  type : Nat
  target : Target
  deriving DecidableEq, Repr

/-- `Baserel`. -/
structure Baserel where
  rva : Nat
  type : Nat
  deriving DecidableEq, Repr

/-! ### Relocation and base relocation codes -/

def relBasedAbsolute : Nat := 0
def relBasedHighLow : Nat := 3
def relBasedArmMov32T : Nat := 7
def relBasedDir64 : Nat := 10

def relAmd64Addr64 : Nat := 0x1
def relAmd64Addr32 : Nat := 0x2
def relI386Dir32 : Nat := 0x6
def relArmAddr32 : Nat := 0x1
def relArmMov32T : Nat := 0x11
def relArmBranch20T : Nat := 0x12
def relArmBranch24T : Nat := 0x14
def relArmBlx23T : Nat := 0x15
def relArm64Branch26 : Nat := 0x3
def relArm64Addr64 : Nat := 0xE
def relArm64Branch19 : Nat := 0xF
def relArm64Branch14 : Nat := 0x10

/-! ### Chunks -/

def getBaserelType (type : Nat) (machine : Machine) : Nat :=
  match machine with
  | .amd64 =>
      if type = relAmd64Addr64 then relBasedDir64
      else if type = relAmd64Addr32 then relBasedHighLow
      else relBasedAbsolute
  | .i386 => if type = relI386Dir32 then relBasedHighLow else relBasedAbsolute
  | .armnt =>
      if type = relArmAddr32 then relBasedHighLow
      else if type = relArmMov32T then relBasedArmMov32T
      else relBasedAbsolute
  | _ => if type = relArm64Addr64 then relBasedDir64 else relBasedAbsolute

/-- The base relocation that a relocation asks for, as an offset into its chunk. -/
def Relocation.baserel (machine : Machine) (rel : Relocation) : Option Baserel :=
  if getBaserelType rel.type machine = relBasedAbsolute then none
  else
    match rel.target with
    | .chunk _ _ => some ⟨rel.virtualAddress, getBaserelType rel.type machine⟩
    | _ => none

/--
An input section. Range extension passes replace `relocs` and keep `originalRelocs`; they redirect
branches only, so both lists ask for the same base relocations.
-/
structure SectionChunk where
  machine : Machine
  size : Nat
  executable : Bool
  hotPatchable : Bool
  entryThunk : Bool
  originalRelocs : List Relocation
  relocs : List Relocation
  -- where the CHPE metadata pointer of a hybrid load config stands, if this chunk holds it
  chpeMetadata : Option Nat
  same_baserels : relocs.filterMap (Relocation.baserel machine) =
    originalRelocs.filterMap (Relocation.baserel machine)
  deriving DecidableEq, Repr

/-- A linker-made chunk; its base relocations stand at fixed offsets. -/
structure SyntheticChunk where
  machine : Machine
  size : Nat
  executable : Bool
  importThunk : Bool
  entryThunk : Bool
  baserels : List Baserel
  deriving DecidableEq, Repr

inductive ChunkBody where
  | input (chunk : SectionChunk)
  | synthetic (chunk : SyntheticChunk)
  | importThunkARM64EC (extended : Bool) (helper : Target)
  | rangeThunk (machine : Machine) (target : Target)
  | baserel (page : Nat) (entries : List Baserel)
  | codeMap (entries : Nat)
  | dynamicRelocs (size : Nat)
  deriving DecidableEq, Repr

structure Chunk where
  key : Nat
  body : ChunkBody
  -- the log base 2 of the alignment; the largest section alignment is 8192
  p2Align : Fin 14
  hasData : Bool
  rva : Nat
  deriving DecidableEq, Repr

def Chunk.getAlignment (c : Chunk) : Nat := 2 ^ c.p2Align.val

/-- `setRVA` may truncate. -/
def Chunk.setRVA (c : Chunk) (address : Nat) : Chunk := { c with rva := uint32 address }

def Chunk.getSize (c : Chunk) : Nat :=
  match c.body with
  | .input chunk => chunk.size
  | .synthetic chunk => chunk.size
  | .importThunkARM64EC extended _ => if extended then 28 else 20
  | .rangeThunk machine _ => if machine = .armnt then 10 else 12
  | .baserel _ entries => alignTo (entries.length * 2 + 8) 4
  | .codeMap entries => entries * 8
  | .dynamicRelocs size => size

def Chunk.isHotPatchable (c : Chunk) : Bool :=
  match c.body with
  | .input chunk => chunk.hotPatchable
  | .synthetic chunk => chunk.importThunk
  | .importThunkARM64EC _ _ => true
  | _ => false

/-- Whether `getEntryThunk` is not null. -/
def Chunk.hasEntryThunk (c : Chunk) : Bool :=
  match c.body with
  | .input chunk => chunk.entryThunk
  | .synthetic chunk => chunk.entryThunk
  | _ => false

def chpeRangeOf : Machine → ChpeRange
  | .amd64 => .amd64
  | .arm64ec => .arm64ec
  | _ => .arm64

def Chunk.getArm64ECRangeType (c : Chunk) : Option ChpeRange :=
  match c.body with
  | .input chunk => if chunk.executable then some (chpeRangeOf chunk.machine) else none
  | .synthetic chunk => if chunk.executable then some (chpeRangeOf chunk.machine) else none
  | .importThunkARM64EC _ _ => some .arm64ec
  | .rangeThunk machine _ => some (chpeRangeOf machine)
  | _ => none

/-! ### Base relocations -/

/-- The base relocations of a chunk as offsets from its address. -/
def Chunk.baserelOffsets (c : Chunk) : List Baserel :=
  match c.body with
  | .input chunk =>
      chunk.relocs.filterMap (Relocation.baserel chunk.machine) ++
        (chunk.chpeMetadata.map (fun offset => (⟨offset, relBasedDir64⟩ : Baserel))).toList
  | .synthetic chunk => chunk.baserels
  | _ => []

/-- `getBaserels` at the current address. -/
def Chunk.getBaserels (c : Chunk) : List Baserel :=
  c.baserelOffsets.map (fun rel => ⟨uint32 (c.rva + rel.rva), rel.type⟩)

/-- `OutputSection`: the characteristics that matter here and the header fields. -/
structure OutputSection where
  name : String
  -- `sec == relocSec`
  isRelocSec : Bool
  isCodeSection : Bool
  discardable : Bool
  chunks : List Chunk
  virtualAddress : Nat
  virtualSize : Nat
  sizeOfRawData : Nat
  pointerToRawData : Nat
  deriving DecidableEq, Repr

def pageOf (rva : Nat) : Nat := rva / 4096 * 4096

def baserelChunk (page : Nat) (entries : List Baserel) : Chunk where
  key := 0
  body := .baserel page entries
  p2Align := 0
  hasData := true
  rva := 0

/-- The loop of `addBaserelBlocks`; `group` holds the entries from index `i` on, in order. -/
def baserelGroups (page : Nat) (group : List Baserel) : List Baserel → List Chunk
  | [] => [baserelChunk page group]
  | rel :: rest =>
      if pageOf rel.rva = page then baserelGroups page (group ++ [rel]) rest
      else baserelChunk page group :: baserelGroups (pageOf rel.rva) [rel] rest

/-- `addBaserelBlocks`. The page of the first block is read before the entries are sorted. -/
def addBaserelBlocks (sort : List Baserel → List Baserel) (v : List Baserel) : List Chunk :=
  match v, sort v with
  | first :: _, least :: rest => baserelGroups (pageOf first.rva) [least] rest
  | _, _ => []

/-- What one output section contributes to `.reloc`. -/
def sectionBaserels (sort : List Baserel → List Baserel) (sec : OutputSection) : List Chunk :=
  if sec.discardable then []
  else addBaserelBlocks sort (sec.chunks.flatMap Chunk.getBaserels)

def Chunk.recorded (c : Chunk) : List Baserel :=
  match c.body with
  | .baserel _ entries => entries
  | _ => []

end LlvmLd.Writer
