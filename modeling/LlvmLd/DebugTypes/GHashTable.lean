import LlvmLd.Lib.Transition
import LlvmLd.Lib.ProbeTable
import LlvmLd.Lib.Bytes

/-!
`GHashTable` of `lld/COFF/DebugTypes.cpp` and the parallel loop of `mergeTypesWithGHash` that fills
it. A step is one atomic load or one `compare_exchange_weak` of one source, with the local
computation up to the next of them.
-/

namespace LlvmLd.DebugTypes

/-- The eight bytes of a `GloballyHashedType`, as the 64-bit word that the host loads. -/
abbrev GHash := BitVec 64

def byteswap (h : GHash) : GHash :=
  h.extractLsb' 0 8 ++ h.extractLsb' 8 8 ++ h.extractLsb' 16 8 ++ h.extractLsb' 24 8 ++
    h.extractLsb' 32 8 ++ h.extractLsb' 40 8 ++ h.extractLsb' 48 8 ++ h.extractLsb' 56 8

/-- What the merge reads of a `TpiSource`. -/
structure TpiSource where
  ghashes : List GHash
  isItemIndex : List Bool
  -- the `LF_ENDPRECOMP` record of a precompiled header, or all ones
  endPrecompIdx : Nat
  deriving DecidableEq, Repr

def TpiSource.shouldOmitFromPdb (source : TpiSource) (ghashIdx : Nat) : Bool :=
  ghashIdx == source.endPrecompIdx

def firstNonSimpleIndex : Nat := 0x1000

def int32Max : Nat := 2 ^ 31 - 1

/-- `ctx.tpiSourceList`, with as many sources as a cell can tell apart and as many ghashes as the
capped table has cells. -/
structure TpiSources where
  list : List TpiSource
  few : list.length < 2 ^ 31
  fits : (list.map (fun source => source.ghashes.length)).sum ≤ int32Max - firstNonSimpleIndex

def TpiSources.tableSize (m : TpiSources) : Nat :=
  min (int32Max - firstNonSimpleIndex) (m.list.map (fun source => source.ghashes.length)).sum

/-! ### Cells -/

/-- `GHashCell::data`; the empty cell is 0. -/
abbrev GHashCell := Nat

namespace GHashCell

def make (isItem : Bool) (tpiSrcIdx ghashIdx : Nat) : GHashCell :=
  (isItem.toNat <<< 63) ||| (uint32 (tpiSrcIdx + 1) <<< 32) ||| ghashIdx

def getTpiSrcIdx (cell : GHashCell) : Nat := ((cell >>> 32) &&& 0x7FFFFFFF) - 1

def getGHashIdx (cell : GHashCell) : Nat := uint32 cell

def isItem (cell : GHashCell) : Bool := cell.testBit 63

end GHashCell

def TpiSources.source (m : TpiSources) (src : Nat) : TpiSource := m.list.getD src ⟨[], [], 0⟩

def getGHash (m : TpiSources) (cell : GHashCell) : GHash :=
  (m.source cell.getTpiSrcIdx).ghashes.getD cell.getGHashIdx 0

def TpiSource.ghash (source : TpiSource) (i : Nat) : GHash := source.ghashes.getD i 0

def newCell (m : TpiSources) (src i : Nat) : GHashCell :=
  GHashCell.make ((m.source src).isItemIndex.getD i false) src i

/-! ### Parallel insertion -/

/-- Where the loop body of a source stands. -/
inductive Phase where
  | fetch
  | load (idx : Nat)
  | cas (idx : Nat) (old : GHashCell)
  deriving DecidableEq, Repr

/-- The loop over the ghashes of one source: `i`, and `indexMapStorage` up to it. -/
structure Worker where
  next : Nat
  phase : Phase
  indexMap : List Nat
  deriving DecidableEq, Repr

structure State where
  table : Nat → GHashCell
  workers : Nat → Worker
  -- `report_fatal_error` was called
  full : Bool

/-- `TypeIndex(SimpleTypeKind::NotTranslated)`. -/
def notTranslated : Nat := 0x7

def fromArrayIndex (index : Nat) : Nat := index + firstNonSimpleIndex

def toArrayIndex (typeIndex : Nat) : Nat := typeIndex - firstNonSimpleIndex

def isSimple (typeIndex : Nat) : Bool := typeIndex < firstNonSimpleIndex

def Worker.store (w : Worker) (typeIndex : Nat) : Worker :=
  ⟨w.next + 1, .fetch, w.indexMap ++ [typeIndex]⟩

/-- A table layout says where the probe for a ghash starts. -/
abbrev Entropy := GHash → Nat

/-- The layout of the code. -/
def byteswapStart : Entropy := fun ghash => (byteswap ghash).toNat

def startIdx (m : TpiSources) (entropy : Entropy) (ghash : GHash) : Nat :=
  entropy ghash % m.tableSize

/-- The head of the compare-and-swap loop, with the value last read from cell `idx`. -/
def examine (m : TpiSources) (entropy : Entropy) (src : Nat) (w : Worker) (idx : Nat)
    (old : GHashCell) : Option Worker :=
  let ghash := (m.source src).ghash w.next
  if old = 0 ∨ getGHash m old = ghash then
    -- an existing entry with a higher priority makes this one a duplicate
    if old ≠ 0 ∧ old < newCell m src w.next then some (w.store (fromArrayIndex idx))
    else some { w with phase := .cas idx old }
  else
    let idx := ProbeTable.advance m.tableSize idx
    if idx = startIdx m entropy ghash then none else some { w with phase := .load idx }

def State.continue (s : State) (src : Nat) : Option Worker → State
  | some w => { s with workers := Function.update s.workers src w }
  | none => { s with full := true }

/-- One step of the source `label.1`; `label.2` makes a compare-and-swap fail spuriously. -/
def step (m : TpiSources) (entropy : Entropy) (s : State) (label : Nat × Bool) : Option State :=
  let src := label.1
  let w := s.workers src
  let source := m.source src
  if s.full then none
  else if src < m.list.length then
    match w.phase with
    | .fetch =>
      if w.next < source.ghashes.length then
        if source.shouldOmitFromPdb w.next then
          some (s.continue src (some (w.store notTranslated)))
        else
          some (s.continue src
            (some { w with phase := .load (startIdx m entropy (source.ghash w.next)) }))
      else none
    | .load idx => some (s.continue src (examine m entropy src w idx (s.table idx)))
    | .cas idx old =>
      if label.2 = false ∧ s.table idx = old then
        some ({ s with table := Function.update s.table idx (newCell m src w.next) }.continue src
          (some (w.store (fromArrayIndex idx))))
      else some (s.continue src (examine m entropy src w idx (s.table idx)))
  else none

def initial : State := ⟨fun _ => 0, fun _ => ⟨0, .fetch, []⟩, false⟩

/-- All insertions have returned. -/
def Finished (m : TpiSources) (s : State) : Prop :=
  ∀ src < m.list.length, (s.workers src).phase = .fetch ∧
    (s.workers src).next = (m.source src).ghashes.length

/-! ### The merge behind the parallel loop -/

def sortedEntries (m : TpiSources) (table : Nat → GHashCell) : List GHashCell :=
  (((List.range m.tableSize).map table).filter (· ≠ 0)).mergeSort (· ≤ ·)

/-- `llvm::lower_bound(entries, GHashCell(true, 0, 0))`. -/
def countTypes (entries : List GHashCell) : Nat :=
  (entries.takeWhile (· < GHashCell.make true 0 0)).length

/-- The state of the loop that assigns type indices: the table and the lists of unique types. -/
structure Assignment where
  table : Nat → GHashCell
  uniqueTypes : Nat → List Nat

/-- One round of that loop. -/
def assignIndex (indexMaps : Nat → List Nat) (numTypes : Nat) (a : Assignment)
    (entry : GHashCell × Nat) : Assignment :=
  let cell := entry.1
  let i := entry.2
  let src := cell.getTpiSrcIdx
  let pdbTypeIndex := if i < numTypes then i else i - numTypes
  let ghashCellIndex := toArrayIndex ((indexMaps src).getD cell.getGHashIdx 0)
  { table := Function.update a.table ghashCellIndex
      (GHashCell.make cell.isItem cell.getTpiSrcIdx pdbTypeIndex)
    uniqueTypes := Function.update a.uniqueTypes src (a.uniqueTypes src ++ [cell.getGHashIdx]) }

/-- `TpiSource::fillMapFromGHashes`. -/
def fillMapFromGHashes (table : Nat → GHashCell) (indexMap : List Nat) : List Nat :=
  indexMap.map (fun fake =>
    if isSimple fake then fake
    else fromArrayIndex (table (toArrayIndex fake)).getGHashIdx)

structure MergeResult where
  uniqueTypes : List (List Nat)
  numTypes : Nat
  numItems : Nat
  indexMaps : List (List Nat)
  deriving DecidableEq, Repr

def mergeResult (m : TpiSources) (s : State) : MergeResult :=
  let entries := sortedEntries m s.table
  let numTypes := countTypes entries
  let indexMaps := fun src => (s.workers src).indexMap
  let assigned := entries.zipIdx.foldl (assignIndex indexMaps numTypes) ⟨s.table, fun _ => []⟩
  { uniqueTypes := (List.range m.list.length).map assigned.uniqueTypes
    numTypes
    numItems := entries.length - numTypes
    indexMaps := (List.range m.list.length).map
      (fun src => fillMapFromGHashes assigned.table (indexMaps src)) }

end LlvmLd.DebugTypes
