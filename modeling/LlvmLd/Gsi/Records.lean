import Mathlib.Data.List.Sort
import Mathlib.Data.List.Lex
import Mathlib.Data.UInt
import LlvmLd.Lib.Memory
import LlvmLd.Lib.Placement
import LlvmLd.Codeview.Record

/-!
# The symbol record stream

`GSIStreamBuilder` (`GSIStreamBuilder.cpp`): public and global symbol records, the offsets that are
handed out for them, and how the record stream is written.

Proof strategy: below 4 GiB every offset is the exact prefix sum. Each public is serialized into
its own slot, so the buffer does not depend on the order; batches only regroup the global records.
-/

namespace LlvmLd.Gsi

open Memory Placement Codeview

/-- `BulkPublic`. -/
structure BulkPublic where
  name : Bytes
  symOffset : Nat
  offset : Nat
  segment : Nat
  flags : Nat
  deriving DecidableEq, Repr

def maxRecordLength : Nat := 0xFF00

/-- `sizeof(PublicSym32Layout)`. -/
def publicSym32Layout : Nat := 14

def sizeOfPublic (pub : BulkPublic) : Nat :=
  let nameLen := min pub.name.length (maxRecordLength - publicSym32Layout - 1)
  alignTo (publicSym32Layout + nameLen + 1) 4

def serializePublic (pub : BulkPublic) : Bytes :=
  let nameLen := min pub.name.length (maxRecordLength - publicSym32Layout - 1)
  let size := alignTo (publicSym32Layout + nameLen + 1) 4
  -- the prefix, then flags, offset and segment
  le16 (size - 2) ++ le16 0x110e ++ le32 pub.flags ++ le32 pub.offset ++ le16 pub.segment ++
    pub.name.take nameLen ++ List.replicate (size - publicSym32Layout - nameLen) 0

/-! ### The builder -/

/-- `parallelSort` by name; publics of one name stand in any order. -/
structure NameSort where
  run : List BulkPublic → List BulkPublic
  perm : ∀ publics, (run publics).Perm publics
  sorted : ∀ publics, (run publics).Pairwise (fun a b => a.name ≤ b.name)

structure GSIStreamBuilder where
  publics : List BulkPublic
  -- `PSH->RecordByteSize`
  publicBytes : Nat
  globals : List Bytes
  globalsSeen : List Bytes
  -- `GSH->RecordByteSize`
  globalBytes : Nat
  deriving DecidableEq, Repr

def GSIStreamBuilder.empty : GSIStreamBuilder := ⟨[], 0, [], [], 0⟩

/-- The loop of `addPublicSymbols`: the publics with their offsets, and the offset behind them. -/
def assignOffsets : Nat → List BulkPublic → List BulkPublic × Nat
  | symOffset, [] => ([], symOffset)
  | symOffset, pub :: rest =>
      let (assigned, last) := assignOffsets (uint32 (symOffset + sizeOfPublic pub)) rest
      ({ pub with symOffset } :: assigned, last)

def GSIStreamBuilder.addPublicSymbols (sort : NameSort) (b : GSIStreamBuilder)
    (publicsIn : List BulkPublic) : GSIStreamBuilder :=
  let (publics, symOffset) := assignOffsets 0 (sort.run publicsIn)
  { b with publics, publicBytes := symOffset }

/-- `addGlobalSymbol` ignores duplicate typedefs and constants. -/
def GSIStreamBuilder.addGlobalSymbol (b : GSIStreamBuilder) (symbol : Bytes) : GSIStreamBuilder :=
  let deduplicated := symbolKind symbol = .udt ∨ symbolKind symbol = .constant
  if deduplicated ∧ symbol ∈ b.globalsSeen then b
  else
    { b with
      globalsSeen := if deduplicated then symbol :: b.globalsSeen else b.globalsSeen
      globalBytes := b.globalBytes + symbol.length
      globals := b.globals ++ [symbol] }

/-- The offsets that `finalizeGlobalBuckets` gives the globals. -/
def globalOffsets : Nat → List Bytes → List Nat
  | _, [] => []
  | symOffset, symbol :: rest =>
      symOffset :: globalOffsets (uint32 (symOffset + symbol.length)) rest

/-- The offsets of the globals, which stand behind the publics. -/
def GSIStreamBuilder.offsets (b : GSIStreamBuilder) : List Nat :=
  globalOffsets (uint32 b.publicBytes) b.globals

/-- The size of the record stream in `finalizeMsfLayout`. -/
def GSIStreamBuilder.recordBytes (b : GSIStreamBuilder) : Except String Nat :=
  let recordBytes := b.publicBytes + b.globalBytes
  if uint32Max < recordBytes then
    .error s!"the public symbols ({b.publicBytes} bytes) and global symbols ({b.globalBytes} bytes) are too large to fit in a PDB file; the maximum total is {uint32Max} bytes."
  else .ok recordBytes

/-! ### Writing the stream -/

/-- A `BinaryStreamWriter` on a stream of fixed length. -/
structure StreamWriter where
  length : Nat
  written : Bytes
  deriving DecidableEq, Repr

/-- `stream_error_code::stream_too_short`. -/
def streamTooShort : String :=
  "Stream Error: The stream is too short to perform the requested operation."

def StreamWriter.writeBytes (w : StreamWriter) (bytes : Bytes) : Except String StreamWriter :=
  if w.length < w.written.length + bytes.length then .error streamTooShort
  else .ok { w with written := w.written ++ bytes }

/-- The buffer of `writePublics`, filled in the order in which the iterations run. -/
def publicsBuffer (order : List BulkPublic) : Mem :=
  order.foldl (fun m pub => Memory.writeBytes m pub.symOffset (serializePublic pub)) (fun _ => 0)

def publicsBufferSize (publics : List BulkPublic) : Nat :=
  publics.getLast?.elim 0 (fun last => last.symOffset + sizeOfPublic last)

def writePublics (w : StreamWriter) (publics order : List BulkPublic) :
    Except String StreamWriter :=
  if publics.isEmpty then .ok w
  else w.writeBytes (readBytes (publicsBuffer order) 0 (publicsBufferSize publics))

def recordWriteBatchBytes : Nat := 2 ^ 20

/-- The loop of `writeRecords` with the records gathered so far. -/
def writeBatches (limit : Nat) (w : StreamWriter) (batch : Bytes) :
    List Bytes → Except String StreamWriter
  | [] => if batch.isEmpty then .ok w else w.writeBytes batch
  | record :: rest =>
      if limit < batch.length + record.length ∧ ¬ batch.isEmpty then
        (w.writeBytes batch).bind (fun w => writeBatches limit w record rest)
      else writeBatches limit w (batch ++ record) rest

def writeRecords (w : StreamWriter) (records : List Bytes) : Except String StreamWriter :=
  writeBatches recordWriteBatchBytes w [] records

/-- `commitSymbolRecordStream` on a stream of `length` bytes. -/
def GSIStreamBuilder.commitSymbolRecordStream (b : GSIStreamBuilder) (order : List BulkPublic)
    (length : Nat) : Except String StreamWriter :=
  (writePublics ⟨length, []⟩ b.publics order).bind (fun w => writeRecords w b.globals)

/-! ### Offsets -/

@[simp] theorem length_serializePublic (pub : BulkPublic) :
    (serializePublic pub).length = sizeOfPublic pub := by
  have room := le_alignTo (publicSym32Layout +
    min pub.name.length (maxRecordLength - publicSym32Layout - 1) + 1) 4 (by omega)
  simp only [serializePublic, sizeOfPublic, List.length_append, length_le16, length_le32,
    List.length_take, List.length_replicate]
  unfold publicSym32Layout at room ⊢
  omega

/-- The offset is not part of the record. -/
@[simp] theorem serializePublic_symOffset (pub : BulkPublic) (symOffset : Nat) :
    serializePublic { pub with symOffset } = serializePublic pub := rfl

@[simp] theorem sizeOfPublic_symOffset (pub : BulkPublic) (symOffset : Nat) :
    sizeOfPublic { pub with symOffset } = sizeOfPublic pub := rfl

private theorem assignOffsets_exact (start : Nat) (publics : List BulkPublic)
    (fits : total sizeOfPublic start publics ≤ uint32Max) :
    assignOffsets start publics =
      ((starts sizeOfPublic start publics).map (fun entry => { entry.1 with symOffset := entry.2 }),
        total sizeOfPublic start publics) := by
  induction publics generalizing start with
  | nil => simp [assignOffsets, starts]
  | cons pub rest ih =>
    rw [total_cons] at fits ⊢
    have next : uint32 (start + sizeOfPublic pub) = start + sizeOfPublic pub :=
      uint32_of_le _ (Nat.le_trans (le_total _ _ rest) fits)
    rw [assignOffsets, next, ih _ fits, starts, List.map_cons]

private theorem globalOffsets_exact (start : Nat) (globals : List Bytes)
    (fits : total List.length start globals ≤ uint32Max) :
    globalOffsets start globals = (starts List.length start globals).map Prod.snd := by
  induction globals generalizing start with
  | nil => rfl
  | cons symbol rest ih =>
    rw [total_cons] at fits
    have next : uint32 (start + symbol.length) = start + symbol.length :=
      uint32_of_le _ (Nat.le_trans (le_total _ _ rest) fits)
    rw [globalOffsets, next, ih _ fits, starts, List.map_cons]

/-- The builder counts the bytes of the globals it keeps. -/
theorem addGlobalSymbol_globalBytes (b : GSIStreamBuilder) (symbol : Bytes)
    (counted : b.globalBytes = (b.globals.map List.length).sum) :
    (b.addGlobalSymbol symbol).globalBytes =
      ((b.addGlobalSymbol symbol).globals.map List.length).sum := by
  unfold GSIStreamBuilder.addGlobalSymbol
  dsimp only
  split
  · exact counted
  · simp [counted]

theorem foldl_addGlobalSymbol_globalBytes (b : GSIStreamBuilder) (symbols : List Bytes)
    (counted : b.globalBytes = (b.globals.map List.length).sum) :
    (symbols.foldl GSIStreamBuilder.addGlobalSymbol b).globalBytes =
      ((symbols.foldl GSIStreamBuilder.addGlobalSymbol b).globals.map List.length).sum := by
  induction symbols generalizing b with
  | nil => exact counted
  | cons symbol rest ih => exact ih _ (addGlobalSymbol_globalBytes b symbol counted)

/-! ### The stream -/

/-- Wherever the batches are cut, the records are written one behind the other. -/
theorem writeBatches_eq (limit : Nat) (w : StreamWriter) (batch : Bytes) (records : List Bytes)
    (room : w.written.length + batch.length + records.flatten.length ≤ w.length) :
    writeBatches limit w batch records =
      .ok { w with written := w.written ++ batch ++ records.flatten } := by
  induction records generalizing w batch with
  | nil =>
    rw [writeBatches]
    by_cases empty : batch.isEmpty
    · rw [if_pos empty]
      rw [List.isEmpty_iff] at empty
      simp [empty]
    · rw [if_neg empty, StreamWriter.writeBytes, if_neg (by simp at room; omega)]
      simp
  | cons record rest ih =>
    rw [List.flatten_cons, List.length_append] at room
    rw [writeBatches, List.flatten_cons]
    -- a batch that would become too large is written first
    by_cases full : limit < batch.length + record.length ∧ ¬ batch.isEmpty
    · rw [if_pos full, StreamWriter.writeBytes, if_neg (by omega)]
      simp only [Except.bind]
      rw [ih _ _ (by simp only [List.length_append]; omega)]
      simp
    · rw [if_neg full, ih _ _ (by simp only [List.length_append]; omega)]
      simp

/-- The bytes that a public is serialized into. -/
def BulkPublic.slot (pub : BulkPublic) : Set Int :=
  Set.Ico (pub.symOffset : Int) (pub.symOffset + sizeOfPublic pub)

/-- The publics with exact offsets. -/
def placed (start : Nat) (publics : List BulkPublic) : List BulkPublic :=
  (starts sizeOfPublic start publics).map (fun entry => { entry.1 with symOffset := entry.2 })

private theorem placed_ascend (start : Nat) (publics : List BulkPublic) :
    (placed start publics).Pairwise (fun a b => a.symOffset + sizeOfPublic a ≤ b.symOffset) := by
  rw [placed, List.pairwise_map]
  exact starts_pairwise sizeOfPublic start publics

private theorem slots_disjoint (start : Nat) (publics : List BulkPublic) :
    (placed start publics).Pairwise (fun a b => Disjoint a.slot b.slot) := by
  refine (placed_ascend start publics).imp (fun {a b} apart => ?_)
  rw [Set.disjoint_left]
  rintro x ⟨-, beforeA⟩ ⟨afterB, -⟩
  omega

private theorem flatMap_placed (start : Nat) (publics : List BulkPublic) :
    (placed start publics).flatMap serializePublic = publics.flatMap serializePublic := by
  conv_rhs => rw [← starts_map_fst sizeOfPublic start publics]
  simp [placed, List.flatMap_map]

private theorem starts_placed (start : Nat) (publics : List BulkPublic) (entry : BulkPublic × Nat)
    (member : entry ∈ starts sizeOfPublic start (placed start publics)) :
    entry.1 ∈ placed start publics ∧ entry.1.symOffset = entry.2 := by
  refine ⟨mem_of_mem_starts _ _ _ entry member, ?_⟩
  induction publics generalizing start with
  | nil => cases member
  | cons pub rest ih =>
    have unfolded : placed start (pub :: rest) =
        { pub with symOffset := start } :: placed (start + sizeOfPublic pub) rest := rfl
    rw [unfolded, starts, List.mem_cons] at member
    rcases member with rfl | later
    · rfl
    · exact ih (start + sizeOfPublic pub) later

/-- In whatever order the publics are serialized, the buffer holds them one behind the other. -/
theorem readBytes_publicsBuffer (publics order : List BulkPublic)
    (permuted : order.Perm (placed 0 publics)) :
    readBytes (publicsBuffer order) 0 (total sizeOfPublic 0 publics) =
      publics.flatMap serializePublic := by
  have each : ∀ pub ∈ order, Local pub.slot
      (fun m => Memory.writeBytes m pub.symOffset (serializePublic pub)) := by
    intro pub _
    exact local_writeBytes_of_le pub.symOffset (serializePublic pub) (sizeOfPublic pub) (by simp)
  -- each task writes its own slot only, so any order leaves the same bytes
  have apart : order.Pairwise (fun a b => Disjoint a.slot b.slot) :=
    (permuted.pairwise_iff (fun {a b} (h : Disjoint a.slot b.slot) => h.symm)).mpr
      (slots_disjoint 0 publics)
  have held := readBytes_of_starts serializePublic (publicsBuffer order) 0 (placed 0 publics) (by
    intro entry member i inside
    simp only [length_serializePublic] at member inside
    obtain ⟨inPlaced, at_offset⟩ := starts_placed 0 publics entry member
    have slot : (entry.2 : Int) + i ∈ entry.1.slot := by
      simp only [BulkPublic.slot]
      rw [Set.mem_Ico]
      omega
    rw [publicsBuffer, foldl_apply_of_disjoint _ BulkPublic.slot order each apart _ entry.1
      (permuted.mem_iff.mpr inPlaced) _ slot, ← at_offset]
    exact writeBytes_at _ _ _ i (by simpa using inside))
  have size : ((placed 0 publics).map (fun pub => (serializePublic pub).length)).sum =
      total sizeOfPublic 0 publics := by
    rw [← List.length_flatMap, flatMap_placed, List.length_flatMap]
    simp [total]
  rw [size, flatMap_placed] at held
  exact held

/-- The buffer ends with the last public. -/
theorem publicsBufferSize_placed (start : Nat) (publics : List BulkPublic) (nonempty : publics ≠ []) :
    publicsBufferSize (placed start publics) = total sizeOfPublic start publics := by
  induction publics generalizing start with
  | nil => exact absurd rfl nonempty
  | cons pub rest ih =>
    have unfolded : placed start (pub :: rest) =
        { pub with symOffset := start } :: placed (start + sizeOfPublic pub) rest := rfl
    rw [unfolded, total_cons]
    cases rest with
    | nil => simp [publicsBufferSize, placed, starts]
    | cons next others =>
      rw [← ih (start + sizeOfPublic pub) (by simp)]
      simp [publicsBufferSize, placed, starts, List.getLast?_cons_cons]

/-- What the builder holds when the records fit into 32 bits; `sorted` are the publics by name. -/
structure Exact (b : GSIStreamBuilder) (sorted : List BulkPublic) : Prop where
  publics : b.publics = placed 0 sorted
  publicBytes : b.publicBytes = total sizeOfPublic 0 sorted
  globalBytes : b.globalBytes = (b.globals.map List.length).sum
  fits : b.publicBytes + b.globalBytes ≤ uint32Max

theorem addPublicSymbols_exact (sort : NameSort) (b : GSIStreamBuilder)
    (publicsIn : List BulkPublic) (counted : b.globalBytes = (b.globals.map List.length).sum)
    (fits : (publicsIn.map sizeOfPublic).sum + (b.globals.map List.length).sum ≤ uint32Max) :
    Exact (b.addPublicSymbols sort publicsIn) (sort.run publicsIn) := by
  have sum : total sizeOfPublic 0 (sort.run publicsIn) = (publicsIn.map sizeOfPublic).sum := by
    rw [total, Nat.zero_add, ((sort.perm publicsIn).map sizeOfPublic).sum_eq]
  have offsets := assignOffsets_exact 0 (sort.run publicsIn) (by omega)
  constructor
  · simp only [GSIStreamBuilder.addPublicSymbols, offsets]
    rfl
  · simp only [GSIStreamBuilder.addPublicSymbols, offsets]
  · exact counted
  · simp only [GSIStreamBuilder.addPublicSymbols, offsets]
    omega

section Exact

variable {b : GSIStreamBuilder} {sorted : List BulkPublic}

/-- The stream that is meant: all publics, then all globals. -/
def GSIStreamBuilder.recordStream (b : GSIStreamBuilder) : Bytes :=
  b.publics.flatMap serializePublic ++ b.globals.flatten

theorem length_publics (ok : Exact b sorted) :
    (b.publics.flatMap serializePublic).length = b.publicBytes := by
  rw [ok.publics, flatMap_placed, ok.publicBytes, List.length_flatMap]
  simp [total]

private theorem length_recordStream (ok : Exact b sorted) :
    b.recordStream.length = b.publicBytes + b.globalBytes := by
  rw [GSIStreamBuilder.recordStream, List.length_append, length_publics ok, List.length_flatten,
    ok.globalBytes]

theorem commitSymbolRecordStream_exact (ok : Exact b sorted) (order : List BulkPublic)
    (permuted : order.Perm b.publics) :
    b.commitSymbolRecordStream order b.recordStream.length =
      .ok ⟨b.recordStream.length, b.recordStream⟩ := by
  have publicsLength := length_publics ok
  have globalsLength : b.recordStream.length =
      (b.publics.flatMap serializePublic).length + b.globals.flatten.length := by
    simp [GSIStreamBuilder.recordStream]
  generalize b.recordStream.length = length at globalsLength
  -- the publics are one write of the whole buffer, none at all without them
  have publics : writePublics ⟨length, []⟩ b.publics order =
      .ok ⟨length, b.publics.flatMap serializePublic⟩ := by
    simp only [writePublics]
    by_cases empty : b.publics.isEmpty
    · rw [if_pos empty]
      rw [List.isEmpty_iff] at empty
      simp [empty]
    · have nonempty : sorted ≠ [] := by
        rintro rfl
        simp [ok.publics, placed, starts] at empty
      have size : publicsBufferSize b.publics = total sizeOfPublic 0 sorted := by
        rw [ok.publics]
        exact publicsBufferSize_placed 0 sorted nonempty
      have buffer := readBytes_publicsBuffer sorted order (ok.publics ▸ permuted)
      rw [if_neg empty, size, buffer, StreamWriter.writeBytes, ← flatMap_placed 0 sorted,
        ← ok.publics, if_neg (by simp only [List.length_nil]; omega)]
      simp
  rw [GSIStreamBuilder.commitSymbolRecordStream, publics, Except.bind, writeRecords,
    writeBatches_eq _ _ _ _ (by simp only [List.length_nil]; omega), GSIStreamBuilder.recordStream,
    List.append_nil]

theorem publics_position (ok : Exact b sorted) (i : Nat) (pub : BulkPublic)
    (found : b.publics[i]? = some pub) :
    pub.symOffset = ((b.publics.take i).flatMap serializePublic).length := by
  rw [ok.publics, placed, List.getElem?_map, Option.map_eq_some_iff] at found
  obtain ⟨entry, stored, rfl⟩ := found
  have position := (starts_getElem? _ _ _ _ _ stored).2
  rw [ok.publics, placed, ← List.map_take, List.flatMap_map, List.length_flatMap]
  simp only [serializePublic_symOffset, length_serializePublic]
  rw [position, Nat.zero_add]
  conv_lhs => rw [← starts_map_fst sizeOfPublic 0 sorted]
  rw [← List.map_take, List.map_map]
  rfl

theorem offsets_exact (ok : Exact b sorted) :
    b.offsets = (starts List.length b.publicBytes b.globals).map Prod.snd := by
  have fits := ok.fits
  have bytes := ok.globalBytes
  rw [GSIStreamBuilder.offsets, uint32_of_le _ (by omega)]
  exact globalOffsets_exact _ _ (by rw [total]; omega)

theorem globals_position (ok : Exact b sorted) (i offset : Nat)
    (found : b.offsets[i]? = some offset) :
    offset = (b.publics.flatMap serializePublic ++ (b.globals.take i).flatten).length := by
  rw [offsets_exact ok, List.getElem?_map, Option.map_eq_some_iff] at found
  obtain ⟨entry, stored, rfl⟩ := found
  have position := (starts_getElem? _ _ _ _ _ stored).2
  rw [position, List.length_append, length_publics ok, List.length_flatten]

theorem mem_publics (ok : Exact b sorted) (pub : BulkPublic) :
    pub ∈ b.publics ↔
      ∃ entry ∈ starts sizeOfPublic 0 sorted, { entry.1 with symOffset := entry.2 } = pub := by
  rw [ok.publics, placed, List.mem_map]

private theorem size_publicsBuffer (ok : Exact b sorted) :
    publicsBufferSize b.publics = total sizeOfPublic 0 sorted := by
  rw [ok.publics]
  by_cases empty : sorted = []
  · simp [empty, placed, starts, publicsBufferSize]
  · exact publicsBufferSize_placed 0 sorted empty

end Exact

/-- The builder after all publics and globals have been added. -/
def buildRecords (sort : NameSort) (publicsIn : List BulkPublic) (globalsIn : List Bytes) :
    GSIStreamBuilder :=
  (globalsIn.foldl GSIStreamBuilder.addGlobalSymbol .empty).addPublicSymbols sort publicsIn

/-- The record stream is what the offsets say; `sorted` are the publics in the order of names. -/
structure StreamMatchesOffsets (b : GSIStreamBuilder) (sorted : List BulkPublic) : Prop where
  stream : b.recordStream = sorted.flatMap serializePublic ++ b.globals.flatten
  reserved : b.recordBytes = .ok b.recordStream.length
  committed : ∀ order : List BulkPublic, order.Perm b.publics →
    b.commitSymbolRecordStream order b.recordStream.length =
      .ok ⟨b.recordStream.length, b.recordStream⟩
  public_at : ∀ (i : Nat) (pub : BulkPublic), b.publics[i]? = some pub →
    pub.symOffset = ((b.publics.take i).flatMap serializePublic).length
  one_offset_each : b.offsets.length = b.globals.length
  global_at : ∀ i offset : Nat, b.offsets[i]? = some offset →
    offset = (b.publics.flatMap serializePublic ++ (b.globals.take i).flatten).length
  slots_apart : b.publics.Pairwise (fun p q => p.symOffset + sizeOfPublic p ≤ q.symOffset)
  slots_inside : ∀ pub ∈ b.publics,
    pub.symOffset + sizeOfPublic pub ≤ publicsBufferSize b.publics
  slots_cover : ∀ i < publicsBufferSize b.publics,
    ∃ pub ∈ b.publics, pub.symOffset ≤ i ∧ i < pub.symOffset + sizeOfPublic pub

theorem buildRecords_matches (sort : NameSort) (publicsIn : List BulkPublic)
    (globalsIn : List Bytes)
    (fits : (publicsIn.map sizeOfPublic).sum +
      ((buildRecords sort publicsIn globalsIn).globals.map List.length).sum ≤ uint32Max) :
    StreamMatchesOffsets (buildRecords sort publicsIn globalsIn) (sort.run publicsIn) := by
  have counted := foldl_addGlobalSymbol_globalBytes .empty globalsIn rfl
  have ok : Exact (buildRecords sort publicsIn globalsIn) (sort.run publicsIn) :=
    addPublicSymbols_exact sort _ publicsIn counted fits
  generalize buildRecords sort publicsIn globalsIn = b at ok
  have size := size_publicsBuffer ok
  constructor
  · rw [GSIStreamBuilder.recordStream, ok.publics, flatMap_placed]
  · rw [length_recordStream ok, GSIStreamBuilder.recordBytes]
    exact if_neg (Nat.not_lt.mpr ok.fits)
  · intro order permuted
    exact commitSymbolRecordStream_exact ok order permuted
  · intro i pub found
    exact publics_position ok i pub found
  · rw [offsets_exact ok, List.length_map]
    conv_rhs => rw [← starts_map_fst List.length b.publicBytes b.globals, List.length_map]
  · intro i offset found
    exact globals_position ok i offset found
  · rw [ok.publics]
    exact placed_ascend 0 (sort.run publicsIn)
  · intro pub member
    obtain ⟨entry, stored, rfl⟩ := (mem_publics ok pub).mp member
    rw [size]
    exact (starts_bounds _ _ _ entry stored).2
  · intro i below
    rw [size] at below
    obtain ⟨entry, stored, bounds⟩ := starts_cover _ _ _ i (Nat.zero_le i) below
    exact ⟨_, (mem_publics ok _).mpr ⟨entry, stored, rfl⟩, bounds⟩

def NameSort.insertion : NameSort where
  run := List.insertionSort (fun a b => a.name ≤ b.name)
  perm := List.perm_insertionSort _
  sorted := fun publics => by
    have total : Std.Total (fun a b : BulkPublic => a.name ≤ b.name) :=
      ⟨fun a b => List.le_total a.name b.name⟩
    have trans : IsTrans BulkPublic (fun a b => a.name ≤ b.name) :=
      ⟨fun _ _ _ => List.le_trans⟩
    exact List.pairwise_insertionSort _ publics

/-- Two publics and, twice, one typedef. -/
theorem buildRecords_two_publics :
    StreamMatchesOffsets
      (buildRecords .insertion [⟨[0x66], 0, 16, 1, 2⟩, ⟨[0x65, 0x65], 0, 32, 1, 2⟩]
        [[10, 0, 0x08, 0x11, 1, 16, 0, 0, 0x61, 0, 0, 0], [10, 0, 0x08, 0x11, 1, 16, 0, 0, 0x61, 0, 0, 0]])
      (NameSort.insertion.run [⟨[0x66], 0, 16, 1, 2⟩, ⟨[0x65, 0x65], 0, 32, 1, 2⟩]) :=
  buildRecords_matches _ _ _ (by decide)

end LlvmLd.Gsi
