import LlvmLd.Codeview.Record
import LlvmLd.DebugTypes.GHashTable
import LlvmLd.Writer.Subsections

/-!
Symbol records on their way into a PDB: which stream they go to, and `PDBLinker::writeSymbolRecord`
with what it calls on `TpiSource`.
-/

namespace LlvmLd.Pdb

open Codeview Memory Writer
open DebugTypes (isSimple notTranslated firstNonSimpleIndex)

/-! ### Kinds -/

def symbolOpensScope : SymbolKind → Bool
  | .gproc32 | .lproc32 | .lproc32Id | .gproc32Id | .block32 | .sepcode | .thunk32 | .inlinesite
  | .inlinesite2 => true
  | _ => false

def symbolEndsScope : SymbolKind → Bool
  | .sEnd | .procIdEnd | .inlinesiteEnd => true
  | _ => false

def symbolGoesInModuleStream (kind : SymbolKind) (symbolScopeDepth : Nat) : Bool :=
  match kind with
  | .gdata32 | .gthread32 | .procref | .lprocref => false
  -- in the module stream if it is not a global record
  | .udt | .constant => 0 < symbolScopeDepth
  | _ => true

def symbolGoesInGlobalsStream (kind : SymbolKind) (symbolScopeDepth : Nat) : Bool :=
  match kind with
  | .gdata32 | .gthread32 | .gproc32 | .lproc32 | .gproc32Id | .lproc32Id | .procref
  | .lprocref => true
  -- in the globals stream unless it is local to a function
  | .udt | .ldata32 | .lthread32 | .constant => symbolScopeDepth = 0
  | _ => false

/-! ### Record lists -/

/-- A symbol record and its place in the section that holds it. -/
structure PlacedRecord where
  vaBegin : Nat
  data : Bytes
  deriving DecidableEq, Repr

def PlacedRecord.kind (sym : PlacedRecord) : SymbolKind := symbolKind sym.data

def PlacedRecord.alignedSize (sym : PlacedRecord) : Nat := alignTo sym.data.length 4

/-- `forEachCodeViewRecord` from `vaBegin` on: the records, and whether the walk ends well. A
record takes at least two bytes, so the buffer's length is enough fuel. -/
def splitRecords : Nat → Nat → Bytes → List PlacedRecord × Bool
  | 0, _, buffer => ([], buffer.isEmpty)
  | fuel + 1, vaBegin, buffer =>
      if buffer.isEmpty then ([], true)
      else if buffer.length < prefixSize then ([], false)
      else
        let realLen := buffer.u16At 0 + 2
        if buffer.length < realLen then ([], false)
        else
          let (records, complete) := splitRecords fuel (vaBegin + realLen) (buffer.drop realLen)
          (⟨vaBegin, buffer.take realLen⟩ :: records, complete)

/-- The records of a symbols subsection whose data stands at `vaBegin` in its section. -/
def symbolRecords (vaBegin : Nat) (buffer : Bytes) : List PlacedRecord × Bool :=
  splitRecords buffer.length vaBegin buffer

/-- Fuel beyond the buffer's length changes nothing. -/
theorem splitRecords_fuel (fuel more vaBegin : Nat) (buffer : Bytes)
    (enough : buffer.length ≤ fuel) (also : buffer.length ≤ more) :
    splitRecords fuel vaBegin buffer = splitRecords more vaBegin buffer := by
  induction fuel generalizing more vaBegin buffer with
  | zero =>
    obtain rfl : buffer = [] := List.length_eq_zero_iff.mp (by omega)
    cases more <;> rfl
  | succ fuel ih =>
    cases more with
    | zero =>
      obtain rfl : buffer = [] := List.length_eq_zero_iff.mp (by omega)
      rfl
    | succ more =>
      unfold splitRecords
      by_cases empty : buffer.isEmpty
      · rw [if_pos empty, if_pos empty]
      have left : (buffer.drop (buffer.u16At 0 + 2)).length ≤ buffer.length - 2 := by
        rw [List.length_drop]
        omega
      have nonempty : 0 < buffer.length :=
        List.length_pos_iff.mpr (fun none => empty (List.isEmpty_iff.mpr none))
      rw [if_neg empty, if_neg empty]
      dsimp only
      rw [ih more _ _ (by omega) (by omega)]

/-- What the walk has passed when it ends well is the buffer. -/
theorem symbolRecords_cover (vaBegin : Nat) (buffer : Bytes)
    (complete : (symbolRecords vaBegin buffer).2 = true) :
    (symbolRecords vaBegin buffer).1.flatMap (·.data) = buffer := by
  unfold symbolRecords at complete ⊢
  generalize buffer.length = fuel at complete ⊢
  induction fuel generalizing vaBegin buffer with
  | zero => simpa [splitRecords] using complete.symm
  | succ fuel ih =>
    unfold splitRecords at complete ⊢
    by_cases empty : buffer.isEmpty
    · simpa [empty] using (List.isEmpty_iff.mp empty).symm
    by_cases short : buffer.length < prefixSize
    · simp [empty, short] at complete
    by_cases cut : buffer.length < buffer.u16At 0 + 2
    · simp [empty, short, cut] at complete
    simp only [empty, short, cut] at complete ⊢
    rw [if_neg (by simp), if_neg (by simp), if_neg (by simp), List.flatMap_cons,
      ih _ _ (by simpa using complete)]
    exact List.take_append_drop _ _

/-! ### Type indices -/

inductive TiRefKind where
  | typeRef | indexRef
  deriving DecidableEq, Repr

/-- Offsets count from the record's content. -/
structure TiReference where
  kind : TiRefKind
  offset : Nat
  count : Nat
  deriving DecidableEq, Repr

def discoverTypeIndicesInSymbol (record : Bytes) : Option (List TiReference) :=
  match symbolKind record with
  | .gproc32Id | .lproc32Id | .lproc32Dpc | .lproc32DpcId => some [⟨.indexRef, 24, 1⟩]
  | .gproc32 | .lproc32 => some [⟨.typeRef, 24, 1⟩]
  | .udt | .gdata32 | .ldata32 | .lthread32 | .gthread32 | .filestatic | .sLocal | .register
  | .constant => some [⟨.typeRef, 0, 1⟩]
  | .buildinfo => some [⟨.indexRef, 0, 1⟩]
  | .bprel32 | .regrel32 | .regrel32Indir => some [⟨.typeRef, 4, 1⟩]
  | .callsiteinfo | .heapallocsite => some [⟨.typeRef, 8, 1⟩]
  -- a count followed by an array of type indices
  | .callers | .callees | .inlinees => some [⟨.indexRef, 4, (content record).u32At 0⟩]
  | .inlinesite => some [⟨.indexRef, 8, 1⟩]
  | .defrangeRegister | .defrangeRegisterRel | .defrangeRegisterRelIndir
  | .defrangeFramepointerRel | .defrangeFramepointerRelFullScope | .defrangeSubfieldRegister
  | .defrangeSubfield => some []
  | .label32 | .objname | .compile | .compile2 | .compile3 | .envblock | .block32 | .frameproc
  | .thunk32 | .framecookie | .unamespace | .armswitchtable => some []
  | .sEnd | .inlinesiteEnd | .procIdEnd => some []
  | _ => none

/-- The type maps of an object file. -/
structure TpiSource where
  tpiMap : List Nat
  ipiMap : List Nat
  -- the type of a function in the IPI stream: `funcIdToType`, or the record in the ID table
  funcIdToType : Nat → Option Nat

/-- `TypeIndex::toArrayIndex`, without the bit that marks decorated items. -/
def toArrayIndex (ti : Nat) : Nat := uint32 (ti % 2 ^ 31 + 2 ^ 32 - firstNonSimpleIndex)

def TpiSource.remapTypeIndex (source : TpiSource) (kind : TiRefKind) (ti : Nat) : Option Nat :=
  if isSimple ti then some ti
  else
    match kind with
    | .indexRef => source.ipiMap[toArrayIndex ti]?
    | .typeRef => source.tpiMap[toArrayIndex ti]?

/-- Replacing bytes inside of a record; bytes behind its end are not modelled. -/
def putBytes (record : Bytes) (i : Nat) (bytes : Bytes) : Bytes :=
  if i + bytes.length ≤ record.length then
    record.take i ++ bytes ++ record.drop (i + bytes.length)
  else record

def TpiSource.remapIndices (source : TpiSource) (kind : TiRefKind) : Nat → Nat → Bytes → Bytes
  | 0, _, record => record
  | count + 1, at_, record =>
      let ti := (source.remapTypeIndex kind (record.u32At at_)).getD notTranslated
      source.remapIndices kind count (at_ + 4) (putBytes record at_ (le32 ti))

def TpiSource.remapRecord (source : TpiSource) (record : Bytes) :
    List TiReference → Except String Bytes
  | [] => .ok record
  | ref :: rest =>
      -- sizes are 32-bit values
      if (content record).length < uint32 (ref.offset + uint32 (ref.count * 4)) then
        .error "symbol record too short"
      else
        source.remapRecord (source.remapIndices ref.kind ref.count (prefixSize + ref.offset) record)
          rest

/-- `none` for a record whose type indices are unknown. -/
def TpiSource.remapTypesInSymbolRecord (source : TpiSource) (record : Bytes) :
    Except String (Option Bytes) :=
  match discoverTypeIndicesInSymbol record with
  | none => .ok none
  | some refs => (source.remapRecord record refs).map some

/-! ### Writing one record -/

def fixRecordAlignment (record : Bytes) (oldSize : Nat) : Bytes :=
  if oldSize = record.length then record
  else
    (putBytes record 0 (le16 (record.length - 2))).take oldSize ++
      List.replicate (record.length - oldSize) 0

def replaceWithSkipRecord (record : Bytes) : Bytes :=
  putBytes (putBytes (List.replicate record.length 0) 2 (le16 0x7)) 0 (le16 (record.length - 2))

/-- Object files have `_ID` symbols, PDBs do not. -/
def translateIdSymbols (source : TpiSource) (record : Bytes) : Bytes :=
  let ti := record.u32At 28
  let typed :=
    if isSimple ti then record
    else putBytes record 28 (le32 ((source.funcIdToType ti).getD notTranslated))
  match symbolKind record with
  | .procIdEnd => putBytes record 2 (le16 0x6)
  | .gproc32Id => putBytes typed 2 (le16 0x1110)
  | .lproc32Id => putBytes typed 2 (le16 0x110f)
  | _ => record

/-- What `writeSymbolRecord` makes of the relocated bytes. -/
def finishRecord (source : TpiSource) (record : Bytes) (oldSize : Nat) : Except String Bytes := do
  let record := fixRecordAlignment record oldSize
  let remapped ← source.remapTypesInSymbolRecord record
  return translateIdSymbols source (remapped.getD (replaceWithSkipRecord record))

/-- The vector that records are gathered in. -/
structure Storage where
  mem : Mem
  size : Nat

/-- A `.debug$S` section with what relocating it and translating its types looks at. -/
structure DebugChunk where
  w : WriteEnv
  ctx : Context
  sections : List OutputSection
  c : Chunk
  machine : Machine
  source : TpiSource

/-- `writeSymbolRecord`, with the relocations from the new `nextRelocIndex` on. -/
def DebugChunk.writeSymbolRecord (d : DebugChunk) (sym : PlacedRecord) (alignedSize : Nat)
    (next : List Relocation) (storage : Storage) : Except String (Storage × List Relocation) := do
  let resized := fill storage.mem storage.size 0 alignedSize
  let (mem, _, next) := writeAndRelocateSubsection d.w d.ctx d.sections d.c d.machine sym.vaBegin
    (sym.vaBegin + sym.data.length) next storage.size resized
  let record ← finishRecord d.source (readBytes mem storage.size alignedSize) sym.data.length
  return (⟨writeBytes mem storage.size record, storage.size + alignedSize⟩, next)

/-! ### What writing a record leaves alone -/

@[simp] theorem length_putBytes (record : Bytes) (i : Nat) (bytes : Bytes) :
    (putBytes record i bytes).length = record.length := by
  unfold putBytes
  split
  · simp only [List.length_append, List.length_take, List.length_drop]
    omega
  · rfl

@[simp] theorem length_remapIndices (source : TpiSource) (kind : TiRefKind) (count i : Nat)
    (record : Bytes) : (source.remapIndices kind count i record).length = record.length := by
  induction count generalizing i record with
  | zero => rfl
  | succ count ih => rw [TpiSource.remapIndices, ih, length_putBytes]

theorem length_remapRecord (source : TpiSource) (record : Bytes) (refs : List TiReference)
    {result : Bytes} (done : source.remapRecord record refs = .ok result) :
    result.length = record.length := by
  induction refs generalizing record with
  | nil =>
    cases done
    rfl
  | cons ref rest ih =>
    unfold TpiSource.remapRecord at done
    split at done
    · cases done
    · rw [ih _ done, length_remapIndices]

theorem length_fixRecordAlignment (record : Bytes) (oldSize : Nat)
    (fits : oldSize ≤ record.length) : (fixRecordAlignment record oldSize).length = record.length := by
  unfold fixRecordAlignment
  split
  · rfl
  · simp only [List.length_append, List.length_take, length_putBytes, List.length_replicate]
    omega

@[simp] theorem length_replaceWithSkipRecord (record : Bytes) :
    (replaceWithSkipRecord record).length = record.length := by
  simp [replaceWithSkipRecord]

@[simp] theorem length_translateIdSymbols (source : TpiSource) (record : Bytes) :
    (translateIdSymbols source record).length = record.length := by
  unfold translateIdSymbols
  dsimp only
  split <;> (try split) <;> simp

theorem length_finishRecord (source : TpiSource) (record : Bytes) (oldSize : Nat)
    (fits : oldSize ≤ record.length) {result : Bytes}
    (done : finishRecord source record oldSize = .ok result) : result.length = record.length := by
  have aligned := length_fixRecordAlignment record oldSize fits
  unfold finishRecord TpiSource.remapTypesInSymbolRecord at done
  generalize fixRecordAlignment record oldSize = fixed at aligned done
  cases found : discoverTypeIndicesInSymbol fixed with
  | none =>
    simp only [found] at done
    cases done
    rw [length_translateIdSymbols, ← aligned]
    exact length_replaceWithSkipRecord fixed
  | some refs =>
    simp only [found] at done
    cases remapped : source.remapRecord fixed refs with
    | error text =>
      rw [remapped] at done
      cases done
    | ok new =>
      rw [remapped] at done
      cases done
      rw [length_translateIdSymbols, ← aligned]
      exact length_remapRecord source fixed refs remapped

/-- Relocating a piece works on nothing in front of its buffer. -/
theorem local_writeAndRelocateSubsection (d : DebugChunk) (vaBegin vaEnd : Nat)
    (next : List Relocation) (buf : Int) :
    Local (Set.Ici buf) (fun m => (writeAndRelocateSubsection d.w d.ctx d.sections d.c d.machine
      vaBegin vaEnd next buf m).1) := by
  have copies : Local (Set.Ici buf) (fun m => writeBytes m buf
      (((d.w.contents d.c).drop vaBegin).take (vaEnd - vaBegin))) :=
    (local_writeBytes buf _).mono (fun a inside => inside.1)
  have patches : Local (Set.Ici buf) (fun m => patchAll d.w d.ctx d.sections d.c d.machine vaBegin
      buf m (appliedRelocs vaBegin vaEnd next)) := by
    apply Local.foldl
    intro rel _
    apply (local_applyRelocation d.w d.ctx d.sections d.c d.machine _ rel).mono
    rintro a ⟨low, -⟩
    exact Set.mem_Ici.mpr (by omega)
  unfold writeAndRelocateSubsection
  simp only [relocateSubsection_eq]
  exact copies.comp patches

/-- The bytes in front of the record stay. -/
theorem writeSymbolRecord_ok (d : DebugChunk) (sym : PlacedRecord) (alignedSize : Nat)
    {next next' : List Relocation} {storage storage' : Storage}
    (done : d.writeSymbolRecord sym alignedSize next storage = .ok (storage', next')) :
    storage'.size = storage.size + alignedSize ∧
      AgreeOn (Set.Iio (storage.size : Int)) storage'.mem storage.mem := by
  unfold DebugChunk.writeSymbolRecord at done
  dsimp only at done
  have written := local_writeAndRelocateSubsection d sym.vaBegin (sym.vaBegin + sym.data.length) next
    storage.size
  generalize writeAndRelocateSubsection d.w d.ctx d.sections d.c d.machine sym.vaBegin
    (sym.vaBegin + sym.data.length) next storage.size = relocate at written done
  cases finished : finishRecord d.source (readBytes (relocate (fill storage.mem storage.size 0
      alignedSize)).1 storage.size alignedSize) sym.data.length with
  | error text =>
    rw [finished] at done
    cases done
  | ok record =>
    rw [finished] at done
    cases done
    refine ⟨rfl, ?_⟩
    intro a below
    -- below the record, nothing is filled, relocated or copied
    have outside : a ∉ Set.Ici (storage.size : Int) := by
      simpa using below
    have stored := (local_writeBytes (storage.size : Int) record).frame
      (relocate (fill storage.mem storage.size 0 alignedSize)).1 a (fun inside => outside inside.1)
    dsimp only
    rw [stored, written.frame _ a outside, fill, if_neg (by
      intro inside
      exact outside inside.1)]

/-- Only the memory behind the storage counts for the outcome. -/
theorem writeSymbolRecord_congr (d : DebugChunk) (sym : PlacedRecord) (alignedSize : Nat)
    (next : List Relocation) (size : Nat) (m n : Mem) (agree : AgreeOn (Set.Ici (size : Int)) m n) :
    (∃ text, d.writeSymbolRecord sym alignedSize next ⟨m, size⟩ = .error text ∧
      d.writeSymbolRecord sym alignedSize next ⟨n, size⟩ = .error text) ∨
    ∃ m' n' next', d.writeSymbolRecord sym alignedSize next ⟨m, size⟩ =
        .ok (⟨m', size + alignedSize⟩, next') ∧
      d.writeSymbolRecord sym alignedSize next ⟨n, size⟩ =
        .ok (⟨n', size + alignedSize⟩, next') ∧
      AgreeOn (Set.Ici (size : Int)) m' n' := by
  have written := local_writeAndRelocateSubsection d sym.vaBegin (sym.vaBegin + sym.data.length) next
    size
  -- Which relocations are left depends on addresses alone.
  have sameNext : ∀ m n : Mem,
      (writeAndRelocateSubsection d.w d.ctx d.sections d.c d.machine sym.vaBegin
        (sym.vaBegin + sym.data.length) next size m).2.2 =
      (writeAndRelocateSubsection d.w d.ctx d.sections d.c d.machine sym.vaBegin
        (sym.vaBegin + sym.data.length) next size n).2.2 := by
    intro m n
    unfold writeAndRelocateSubsection
    simp only [relocateSubsection_eq]
  unfold DebugChunk.writeSymbolRecord
  dsimp only
  generalize writeAndRelocateSubsection d.w d.ctx d.sections d.c d.machine sym.vaBegin
    (sym.vaBegin + sym.data.length) next size = relocate at written sameNext
  -- The record's place is zeroed first, so the old bytes there do not matter.
  have zeroed : AgreeOn (Set.Ici (size : Int)) (fill m size 0 alignedSize)
      (fill n size 0 alignedSize) := by
    intro a inside
    unfold fill
    split
    · rfl
    · exact agree a inside
  have relocated := written.reads _ _ zeroed
  have sameBytes : readBytes (relocate (fill m size 0 alignedSize)).1 size alignedSize =
      readBytes (relocate (fill n size 0 alignedSize)).1 size alignedSize := by
    apply List.map_congr_left
    intro i _
    exact relocated _ (Set.mem_Ici.mpr (by omega))
  rw [sameBytes, sameNext (fill n size 0 alignedSize) (fill m size 0 alignedSize)]
  cases finishRecord d.source
      (readBytes (relocate (fill n size 0 alignedSize)).1 size alignedSize) sym.data.length with
  | error text => exact .inl ⟨text, rfl, rfl⟩
  | ok record =>
    refine .inr ⟨_, _, _, rfl, rfl, ?_⟩
    exact ((local_writeBytes (size : Int) record).mono (fun a inside => inside.1)).reads _ _
      relocated

end LlvmLd.Pdb
