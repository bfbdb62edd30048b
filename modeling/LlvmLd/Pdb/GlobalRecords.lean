import LlvmLd.Lib.Transition
import LlvmLd.Pdb.SymbolRecords

/-!
# Records for the globals stream

The first pass over a symbols subsection, `PDBLinker::analyzeSymbolSubsection`, with
`DebugSHandler::stageGlobal` and `makeGlobalsStreamRecord`.

Proof strategy: what `writeSymbolRecord` leaves in a record's kind is a function of the kind behind
the relocations. Padding and type indices stay off the kind, unknown kinds become `S_SKIP`, and ID
kinds are translated.
-/

namespace LlvmLd.Pdb

open Codeview Memory Writer
open DebugTypes (isSimple)

/-! ### The pass -/

/-- Where the linker stops. -/
inductive Halt where
  | fatal (text : String)
  | unreachable
  deriving DecidableEq, Repr

/-- `SymbolSerializer::writeOneSymbol` of a `ProcRefSym`. -/
def procRefRecord (kind symOffset module : Nat) (name : Bytes) : Bytes :=
  -- the name ends where the longest record does
  let fields := le32 0 ++ le32 symOffset ++ le16 module ++ name.take 0xFEF1 ++ [0]
  let size := alignTo (prefixSize + fields.length) 4
  le16 (size - 2) ++ le16 kind ++ fields ++
    List.replicate (size - (prefixSize + fields.length)) 0

def makeGlobalsStreamRecord (modIndex symOffset : Nat) (symStorage : Bytes) : Except Halt Bytes :=
  -- a name offset behind the end of a procedure gives the empty name
  let procRef := fun kind =>
    procRefRecord kind symOffset (modIndex + 1) ((getSymbolName symStorage).getD [])
  match symbolKind symStorage with
  | .constant | .udt | .gdata32 | .gthread32 | .lthread32 | .ldata32 | .procref | .lprocref =>
      .ok symStorage
  | .gproc32 => .ok (procRef 0x1125)
  | .lproc32 => .ok (procRef 0x1127)
  | _ => .error .unreachable

structure PendingGlobal where
  offset : Nat
  size : Nat
  moduleSymOffset : Nat
  deriving DecidableEq, Repr

/-- What a `DebugSHandler` gathers for the globals stream. -/
structure GlobalStage where
  moduleIndex : Nat
  globalsStorage : Bytes
  pendingGlobals : List PendingGlobal
  globalSymbolCount : Nat
  moduleSymbolCount : Nat
  deriving DecidableEq, Repr

def GlobalStage.stageGlobal (dsh : GlobalStage) (record : Bytes) (moduleSymOffset : Nat) :
    Except Halt GlobalStage := do
  let global ← makeGlobalsStreamRecord dsh.moduleIndex moduleSymOffset record
  return { dsh with
    globalsStorage := dsh.globalsStorage ++ global
    pendingGlobals := dsh.pendingGlobals ++
      [⟨uint32 dsh.globalsStorage.length, uint32 global.length, moduleSymOffset⟩]
    globalSymbolCount := dsh.globalSymbolCount + 1 }

/-- The state of the walk over a subsection. -/
structure Analysis where
  moduleSymOffset : Nat
  -- the relocations from `nextRelocIndex` on
  next : List Relocation
  stringTableFixups : List (Nat × Nat)
  dsh : GlobalStage
  scopeLevel : Nat
  -- the memory behind `storage`
  heap : Mem

def recordStringTableReferences (sym : PlacedRecord) (symOffset : Nat) : List (Nat × Nat) :=
  match sym.kind with
  | .filestatic => [(sym.data.u32At 8, uint32 (symOffset + 8))]
  | _ => []

/-- The scope level wraps below zero. -/
def nextLevel (scopeLevel : Nat) (sym : PlacedRecord) : Nat :=
  if symbolOpensScope sym.kind then uint32 (scopeLevel + 1)
  else if symbolEndsScope sym.kind then uint32 (scopeLevel + 2 ^ 32 - 1)
  else scopeLevel

/-- Writing a record that goes to the globals stream. -/
def DebugChunk.copyGlobal (d : DebugChunk) (a : Analysis) (sym : PlacedRecord) :
    Except Halt Analysis := do
  let (storage, next) ←
    (d.writeSymbolRecord sym sym.alignedSize a.next ⟨a.heap, 0⟩).mapError Halt.fatal
  let dsh ← a.dsh.stageGlobal (readBytes storage.mem 0 storage.size) a.moduleSymOffset
  return { a with next, dsh, heap := storage.mem }

def countModule (a : Analysis) (sym : PlacedRecord) : Analysis :=
  if symbolGoesInModuleStream sym.kind a.scopeLevel then
    { a with
      stringTableFixups := a.stringTableFixups ++ recordStringTableReferences sym a.moduleSymOffset
      moduleSymOffset := uint32 (a.moduleSymOffset + uint32 sym.alignedSize)
      dsh := { a.dsh with moduleSymbolCount := a.dsh.moduleSymbolCount + 1 } }
  else a

def DebugChunk.analyzeSymbol (d : DebugChunk) (a : Analysis) (sym : PlacedRecord) :
    Except Halt Analysis := do
  let a := { a with scopeLevel := nextLevel a.scopeLevel sym }
  let a ← if symbolGoesInGlobalsStream sym.kind a.scopeLevel then d.copyGlobal a sym else .ok a
  return countModule a sym

/-- The subsection's data stands at `vaBegin` in its section. -/
def DebugChunk.symbolsAt (d : DebugChunk) (vaBegin length : Nat) : List PlacedRecord × Bool :=
  symbolRecords vaBegin ((d.w.contents d.c).slice vaBegin length)

/-- Of a corrupt subsection the globals are kept. -/
def DebugChunk.analyzeSymbolSubsection (d : DebugChunk) (vaBegin length : Nat) (a : Analysis) :
    Except Halt Analysis := do
  let (records, complete) := d.symbolsAt vaBegin length
  let done ← records.foldlM d.analyzeSymbol { a with scopeLevel := 0 }
  return if complete then done else { done with moduleSymOffset := a.moduleSymOffset }

/-! ### Kinds of rewritten records -/

/-- The kinds with known type indices. -/
def knownKind : SymbolKind → Bool
  | .gproc32Id | .lproc32Id | .lproc32Dpc | .lproc32DpcId | .gproc32 | .lproc32 | .udt | .gdata32
  | .ldata32 | .lthread32 | .gthread32 | .filestatic | .sLocal | .register | .constant | .buildinfo
  | .bprel32 | .regrel32 | .regrel32Indir | .callsiteinfo | .heapallocsite | .callers | .callees
  | .inlinees | .inlinesite | .defrangeRegister | .defrangeRegisterRel | .defrangeRegisterRelIndir
  | .defrangeFramepointerRel | .defrangeFramepointerRelFullScope | .defrangeSubfieldRegister
  | .defrangeSubfield | .label32 | .objname | .compile | .compile2 | .compile3 | .envblock
  | .block32 | .frameproc | .thunk32 | .framecookie | .unamespace | .armswitchtable | .sEnd
  | .inlinesiteEnd | .procIdEnd => true
  | _ => false

private theorem discover_eq_none_iff (record : Bytes) :
    discoverTypeIndicesInSymbol record = none ↔ knownKind (symbolKind record) = false := by
  simp only [discoverTypeIndicesInSymbol]
  cases symbolKind record <;> simp [knownKind]

/-- PDBs have no ID kinds. -/
def realKind : SymbolKind → SymbolKind
  | .procIdEnd => .sEnd
  | .gproc32Id => .gproc32
  | .lproc32Id => .lproc32
  | kind => kind

/-- What a record's kind becomes when its type indices and its ID kind are translated. -/
def translatedKind (kind : SymbolKind) : SymbolKind :=
  if knownKind kind then realKind kind else .skip

/-- The kinds that end as a record of the globals stream. -/
def endsAsGlobal : SymbolKind → Bool
  | .constant | .udt | .gdata32 | .gthread32 | .lthread32 | .ldata32 | .gproc32 | .lproc32
  | .gproc32Id | .lproc32Id => true
  | _ => false

/-- Where putting bytes starts, what stands in front stays. -/
theorem byteAt_putBytes_lt (record : Bytes) (i j : Nat) (bytes : Bytes) (before : j < i) :
    (putBytes record i bytes).byteAt j = record.byteAt j := by
  simp only [putBytes, Bytes.byteAt]
  split
  · rw [List.append_assoc, List.getD_eq_getElem?_getD, List.getD_eq_getElem?_getD,
      List.getElem?_append_left (by rw [List.length_take]; omega), List.getElem?_take_of_lt before]
  · rfl

private theorem symbolKind_putBytes (record : Bytes) (i : Nat) (bytes : Bytes)
    (behind : prefixSize ≤ i) :
    symbolKind (putBytes record i bytes) = symbolKind record := by
  simp only [prefixSize] at behind
  unfold symbolKind recordKind Bytes.u16At
  rw [length_putBytes, byteAt_putBytes_lt record i 2 bytes (by omega),
    byteAt_putBytes_lt record i (2 + 1) bytes (by omega)]

private theorem symbolKind_putKind (record : Bytes) (kind : Nat) (small : kind < 65536)
    (long : prefixSize ≤ record.length) :
    symbolKind (putBytes record 2 (le16 kind)) = SymbolKind.ofCode kind := by
  simp only [prefixSize] at long
  have fits : 2 + (le16 kind).length ≤ record.length := long
  simp only [symbolKind, recordKind]
  rw [length_putBytes, if_neg (by unfold prefixSize; omega)]
  congr 1
  simp only [putBytes]
  rw [if_pos fits]
  match record, long with
  | a :: b :: rest, _ =>
    simp [Bytes.u16At, Bytes.byteAt, le16]
    omega

private theorem symbolKind_remapIndices (source : TpiSource) (kind : TiRefKind) (count i : Nat)
    (record : Bytes) (behind : prefixSize ≤ i) :
    symbolKind (source.remapIndices kind count i record) = symbolKind record := by
  induction count generalizing i record with
  | zero => rfl
  | succ count ih =>
    rw [TpiSource.remapIndices, ih _ _ (by omega), symbolKind_putBytes _ _ _ behind]

theorem symbolKind_remapRecord (source : TpiSource) (record : Bytes) (refs : List TiReference)
    {result : Bytes} (done : source.remapRecord record refs = .ok result) :
    symbolKind result = symbolKind record := by
  induction refs generalizing record with
  | nil =>
    cases done
    rfl
  | cons ref rest ih =>
    rw [TpiSource.remapRecord] at done
    split at done
    · cases done
    · rw [ih _ done]
      exact symbolKind_remapIndices source ref.kind ref.count _ record (Nat.le_add_right _ _)

/-- The type indices that the record's kind announces lie in the record. -/
def TypeIndicesFit (record : Bytes) : Prop :=
  ∀ refs, discoverTypeIndicesInSymbol record = some refs → ∀ ref ∈ refs,
    uint32 (ref.offset + uint32 (ref.count * 4)) ≤ (content record).length

private theorem remapRecord_fits_iff (source : TpiSource) (record : Bytes)
    (refs : List TiReference) :
    (∃ result, source.remapRecord record refs = .ok result) ↔
      ∀ ref ∈ refs, uint32 (ref.offset + uint32 (ref.count * 4)) ≤ (content record).length := by
  induction refs generalizing record with
  | nil => simp [TpiSource.remapRecord]
  | cons ref rest ih =>
    rw [TpiSource.remapRecord, List.forall_mem_cons]
    by_cases short : (content record).length < uint32 (ref.offset + uint32 (ref.count * 4))
    · rw [if_pos short]
      constructor
      · rintro ⟨result, failed⟩
        cases failed
      · rintro ⟨fits, -⟩
        omega
    -- remapping writes in place, so the later references see the same length
    · have sameLength : (content (source.remapIndices ref.kind ref.count
          (prefixSize + ref.offset) record)).length = (content record).length := by
        simp only [content, List.length_drop, length_remapIndices]
      rw [if_neg short, ih, sameLength]
      constructor
      · exact fun later => ⟨by omega, later⟩
      · exact fun all => all.2

/-- Only the length in front of the kind and bytes behind the old end are changed. -/
theorem symbolKind_fixRecordAlignment (record : Bytes) (oldSize : Nat)
    (old : prefixSize ≤ oldSize) (fits : oldSize ≤ record.length) :
    symbolKind (fixRecordAlignment record oldSize) = symbolKind record := by
  have length := length_fixRecordAlignment record oldSize fits
  simp only [prefixSize] at old
  simp only [symbolKind, recordKind]
  rw [length]
  congr 2
  simp only [fixRecordAlignment]
  split
  · rfl
  · have long : 4 ≤ record.length := by omega
    obtain ⟨n, rfl⟩ : ∃ n, oldSize = n + 4 := ⟨oldSize - 4, by omega⟩
    match record, long with
    | a :: b :: c :: d :: rest, _ =>
      simp [putBytes, le16, Bytes.u16At, Bytes.byteAt]

theorem symbolKind_replaceWithSkipRecord (record : Bytes) (long : prefixSize ≤ record.length) :
    symbolKind (replaceWithSkipRecord record) = .skip := by
  simp only [prefixSize] at long
  match record, long with
  | a :: b :: c :: d :: rest, _ =>
    simp [replaceWithSkipRecord, putBytes, le16, symbolKind, recordKind, prefixSize,
      Bytes.u16At, Bytes.byteAt, List.replicate_succ]
    rfl

private theorem symbolKind_translateIdSymbols (source : TpiSource) (record : Bytes)
    (long : prefixSize ≤ record.length) :
    symbolKind (translateIdSymbols source record) = realKind (symbolKind record) := by
  -- writing a type at offset 28 leaves the kind at offset 2
  have typed : ∀ kind, kind < 65536 → ∀ bytes, symbolKind (putBytes (if isSimple (record.u32At 28)
      then record else putBytes record 28 bytes) 2 (le16 kind)) = SymbolKind.ofCode kind := by
    intro kind small bytes
    apply symbolKind_putKind _ _ small
    split
    · exact long
    · rw [length_putBytes]
      exact long
  unfold translateIdSymbols
  dsimp only
  split
  · next kind =>
    rw [kind]
    exact symbolKind_putKind _ _ (by decide) long
  · next kind =>
    rw [kind]
    exact typed _ (by decide) _
  · next kind =>
    rw [kind]
    exact typed _ (by decide) _
  · next notEnd notGlobal notLocal =>
    generalize symbolKind record = kind at notEnd notGlobal notLocal ⊢
    cases kind <;> first | rfl | contradiction

/-- The kind of a finished record is the translation of the kind behind the relocations. -/
theorem finishRecord_kind (source : TpiSource) (record : Bytes) (oldSize : Nat)
    (old : prefixSize ≤ oldSize) (fits : oldSize ≤ record.length) {result : Bytes}
    (done : finishRecord source record oldSize = .ok result) :
    symbolKind result = translatedKind (symbolKind record) := by
  have kept := symbolKind_fixRecordAlignment record oldSize old fits
  have length := length_fixRecordAlignment record oldSize fits
  simp only [finishRecord, TpiSource.remapTypesInSymbolRecord] at done
  rw [← kept]
  generalize fixRecordAlignment record oldSize = fixed at done length
  have long : prefixSize ≤ fixed.length := by omega
  cases found : discoverTypeIndicesInSymbol fixed with
  -- An unknown record becomes a skip record, which the last translation leaves as it is.
  | none =>
    simp only [found] at done
    cases done
    have unknown := (discover_eq_none_iff fixed).mp found
    rw [Option.getD_none, symbolKind_translateIdSymbols _ _ (by simpa using long),
      symbolKind_replaceWithSkipRecord fixed long, translatedKind, unknown,
      if_neg Bool.false_ne_true, realKind]
    · intro equal
      cases equal
    · intro equal
      cases equal
    · intro equal
      cases equal
  -- Remapping type indices touches bytes behind the kind only.
  | some refs =>
    simp only [found] at done
    have known : knownKind (symbolKind fixed) = true := by
      by_contra unknown
      rw [(discover_eq_none_iff fixed).mpr (Bool.eq_false_iff.mpr unknown)] at found
      cases found
    cases remapped : source.remapRecord fixed refs with
    | error text =>
      rw [remapped] at done
      cases done
    | ok new =>
      rw [remapped] at done
      cases done
      have newLength := length_remapRecord source fixed refs remapped
      rw [Option.getD_some, symbolKind_translateIdSymbols _ _ (by omega),
        symbolKind_remapRecord source fixed refs remapped, translatedKind, if_pos known]

private theorem finishRecord_ok_iff (source : TpiSource) (record : Bytes) (oldSize : Nat) :
    (∃ result, finishRecord source record oldSize = .ok result) ↔
      TypeIndicesFit (fixRecordAlignment record oldSize) := by
  unfold finishRecord TpiSource.remapTypesInSymbolRecord TypeIndicesFit
  generalize fixRecordAlignment record oldSize = fixed
  -- a record without known indices is never refused
  cases found : discoverTypeIndicesInSymbol fixed with
  | none =>
    simp only [found]
    constructor
    · intro _ refs none
      cases none
    · intro _
      exact ⟨_, rfl⟩
  | some refs =>
    have fits := remapRecord_fits_iff source fixed refs
    simp only [found]
    constructor
    · rintro ⟨result, done⟩ refs' same
      cases same
      apply fits.mp
      cases remapped : source.remapRecord fixed refs with
      | error text =>
        rw [remapped] at done
        cases done
      | ok new => exact ⟨new, rfl⟩
    · intro inside
      obtain ⟨new, remapped⟩ := fits.mpr (inside refs rfl)
      rw [remapped]
      exact ⟨_, rfl⟩

/-- Only kinds that end as a record of the globals stream get past the switch. -/
theorem makeGlobalsStreamRecord_unreachable_iff (modIndex symOffset : Nat) (record : Bytes)
    (kind : SymbolKind) (translated : symbolKind record = translatedKind kind) :
    makeGlobalsStreamRecord modIndex symOffset record = .error .unreachable ↔
      endsAsGlobal kind = false := by
  rw [makeGlobalsStreamRecord]
  dsimp only
  rw [translated]
  cases kind <;> simp [translatedKind, knownKind, realKind, endsAsGlobal]

/-! ### The walk over a subsection -/

/-- The record with its relocations, before its length is fixed. -/
def DebugChunk.relocated (d : DebugChunk) (a : Analysis) (sym : PlacedRecord) : Bytes :=
  let (mem, _, _) := writeAndRelocateSubsection d.w d.ctx d.sections d.c d.machine sym.vaBegin
    (sym.vaBegin + sym.data.length) a.next (0 : Nat) (fill a.heap (0 : Nat) 0 sym.alignedSize)
  readBytes mem (0 : Nat) sym.alignedSize

/-- The record is cut off inside of a type index, or its kind ends as one of the globals stream. -/
def DebugChunk.KindTranslates (d : DebugChunk) (a : Analysis) (sym : PlacedRecord) : Prop :=
  TypeIndicesFit (fixRecordAlignment (d.relocated a sym) sym.data.length) →
    endsAsGlobal (symbolKind (d.relocated a sym)) = true

/-- No relocation changes the kind of the record. -/
def KindUntouched (d : DebugChunk) (a : Analysis) (sym : PlacedRecord) : Prop :=
  ∀ rel ∈ appliedRelocs sym.vaBegin (sym.vaBegin + sym.data.length) a.next,
    sym.vaBegin + 4 ≤ rel.virtualAddress ∨
      rel.virtualAddress + relocWidth d.machine rel.type ≤ sym.vaBegin + 2

private theorem long_of_global (sym : PlacedRecord) (scopeLevel : Nat)
    (goes : symbolGoesInGlobalsStream sym.kind scopeLevel = true) :
    prefixSize ≤ sym.data.length := by
  by_contra short
  have kind : sym.kind = .other 0 := by
    rw [PlacedRecord.kind, symbolKind, recordKind, if_pos (by omega)]
    rfl
  rw [kind] at goes
  cases goes

private theorem copyGlobal_unreachable_iff (d : DebugChunk) (a : Analysis) (sym : PlacedRecord)
    (long : prefixSize ≤ sym.data.length) :
    d.copyGlobal a sym = .error .unreachable ↔ ¬ d.KindTranslates a sym := by
  have room : sym.data.length ≤ sym.alignedSize := le_alignTo _ _ (by omega)
  unfold DebugChunk.copyGlobal DebugChunk.writeSymbolRecord DebugChunk.KindTranslates
    DebugChunk.relocated
  dsimp only
  generalize writeAndRelocateSubsection d.w d.ctx d.sections d.c d.machine sym.vaBegin
    (sym.vaBegin + sym.data.length) a.next (0 : Nat) (fill a.heap (0 : Nat) 0 sym.alignedSize) =
      relocated
  obtain ⟨mem, errors, next⟩ := relocated
  dsimp only
  have length : (readBytes mem (0 : Nat) sym.alignedSize).length = sym.alignedSize :=
    length_readBytes mem _ _
  generalize record : readBytes mem (0 : Nat) sym.alignedSize = bytes at length ⊢
  -- The record is finished first, and that fails only if its type indices do not fit.
  have fits := finishRecord_ok_iff d.source bytes sym.data.length
  cases finished : finishRecord d.source bytes sym.data.length with
  | error text =>
    constructor
    · intro stopped
      cases stopped
    · intro translates
      exfalso
      apply translates
      intro inside
      obtain ⟨result, done⟩ := fits.mpr inside
      rw [finished] at done
      cases done
  | ok result =>
    have kind := finishRecord_kind d.source bytes sym.data.length long (by omega) finished
    have size := length_finishRecord d.source bytes sym.data.length (by omega) finished
    -- What is staged is read back from memory, and it is the finished record.
    have stored : readBytes (writeBytes mem (0 : Nat) result) (0 : Nat) (0 + sym.alignedSize) =
        result := by
      rw [Nat.zero_add, ← length, ← size]
      exact readBytes_writeBytes mem _ result
    have stops := makeGlobalsStreamRecord_unreachable_iff a.dsh.moduleIndex a.moduleSymOffset result
      (symbolKind bytes) kind
    have inside : TypeIndicesFit (fixRecordAlignment bytes sym.data.length) :=
      fits.mp ⟨result, finished⟩
    -- The finished record fits, so all that is left to ask is how its kind ends.
    have property : (¬ (TypeIndicesFit (fixRecordAlignment bytes sym.data.length) →
        endsAsGlobal (symbolKind bytes) = true)) ↔ endsAsGlobal (symbolKind bytes) = false := by
      rw [Bool.eq_false_iff]
      constructor
      · exact fun neither ends => neither (fun _ => ends)
      · exact fun ends translates => ends (translates inside)
    rw [property, ← stops]
    change (do
      let dsh ← a.dsh.stageGlobal
        (readBytes (writeBytes mem (0 : Nat) result) (0 : Nat) (0 + sym.alignedSize))
        a.moduleSymOffset
      _ : Except Halt Analysis) = _ ↔ _
    rw [stored]
    simp only [GlobalStage.stageGlobal]
    cases made : makeGlobalsStreamRecord a.dsh.moduleIndex a.moduleSymOffset result with
    | error halt =>
      constructor
      · intro stopped
        cases stopped
        rfl
      · intro stopped
        cases stopped
        rfl
    | ok global =>
      constructor
      · intro stopped
        cases stopped
      · intro stopped
        cases stopped

private theorem analyzeSymbol_unreachable_iff (d : DebugChunk) (a : Analysis) (sym : PlacedRecord) :
    d.analyzeSymbol a sym = .error .unreachable ↔
      symbolGoesInGlobalsStream sym.kind (nextLevel a.scopeLevel sym) = true ∧
        ¬ d.KindTranslates a sym := by
  rw [DebugChunk.analyzeSymbol]
  dsimp only
  by_cases goes : symbolGoesInGlobalsStream sym.kind (nextLevel a.scopeLevel sym) = true
  · have copies := copyGlobal_unreachable_iff d { a with scopeLevel := nextLevel a.scopeLevel sym }
      sym (long_of_global sym _ goes)
    -- The scope level has no part in the translation.
    have same : d.KindTranslates { a with scopeLevel := nextLevel a.scopeLevel sym } sym ↔
        d.KindTranslates a sym := Iff.rfl
    rw [same] at copies
    rw [if_pos goes]
    cases copied : d.copyGlobal { a with scopeLevel := nextLevel a.scopeLevel sym } sym with
    | error halt =>
      rw [copied] at copies
      constructor
      · intro stopped
        cases stopped
        exact ⟨goes, copies.mp rfl⟩
      · rintro ⟨-, untranslated⟩
        cases copies.mpr untranslated
        rfl
    | ok next =>
      rw [copied] at copies
      constructor
      · intro stopped
        cases stopped
      · rintro ⟨-, untranslated⟩
        cases copies.mpr untranslated
  · rw [if_neg goes]
    constructor
    · intro stopped
      cases stopped
    · rintro ⟨staged, -⟩
      exact absurd staged goes

private theorem analyzeSymbolSubsection_unreachable_iff (d : DebugChunk) (vaBegin length : Nat)
    (a : Analysis) :
    d.analyzeSymbolSubsection vaBegin length a = .error .unreachable ↔
      (d.symbolsAt vaBegin length).1.foldlM d.analyzeSymbol { a with scopeLevel := 0 } =
        .error .unreachable := by
  rw [DebugChunk.analyzeSymbolSubsection]
  dsimp only
  -- behind the records nothing is left that could fail
  cases (d.symbolsAt vaBegin length).1.foldlM d.analyzeSymbol { a with scopeLevel := 0 } with
  | error halt =>
    constructor
    · intro stopped
      cases stopped
      rfl
    · intro stopped
      cases stopped
      rfl
  | ok done =>
    constructor
    · intro stopped
      cases stopped
    · intro stopped
      cases stopped

/-! ### Records whose kind no relocation changes -/

/-- A record of the walk is a piece of the section at its place. -/
theorem splitRecords_piece (whole : Bytes) (fuel vaBegin : Nat) (buffer : Bytes)
    (here : buffer <+: whole.drop vaBegin) (sym : PlacedRecord)
    (member : sym ∈ (splitRecords fuel vaBegin buffer).1) :
    whole.slice sym.vaBegin sym.data.length = sym.data := by
  induction fuel generalizing vaBegin buffer with
  | zero => cases member
  | succ fuel ih =>
    rw [splitRecords] at member
    by_cases empty : buffer.isEmpty
    · rw [if_pos empty] at member
      cases member
    by_cases short : buffer.length < prefixSize
    · rw [if_neg empty, if_pos short] at member
      cases member
    rw [if_neg empty, if_neg short] at member
    dsimp only at member
    by_cases cut : buffer.length < buffer.u16At 0 + 2
    · rw [if_pos cut] at member
      cases member
    rw [if_neg cut] at member
    rcases List.mem_cons.mp member with rfl | later
    -- the first piece is the front of the buffer
    · have taken : (buffer.take (buffer.u16At 0 + 2)).length = buffer.u16At 0 + 2 := by
        rw [List.length_take]
        omega
      rw [Bytes.slice, taken]
      obtain ⟨behind, whole_eq⟩ := here
      rw [← whole_eq, List.take_append_of_le_length (by omega)]
    -- a later one is a piece of what is left behind it
    · refine ih _ _ ?_ later
      have dropped := here.drop (buffer.u16At 0 + 2)
      rw [List.drop_drop] at dropped
      exact dropped

private theorem relocatedKind_of_untouched (d : DebugChunk) (vaBegin length : Nat) (a : Analysis)
    (sym : PlacedRecord) (member : sym ∈ (d.symbolsAt vaBegin length).1)
    (long : prefixSize ≤ sym.data.length) (untouched : KindUntouched d a sym) :
    symbolKind (d.relocated a sym) = sym.kind := by
  have room : sym.data.length ≤ sym.alignedSize := le_alignTo _ _ (by omega)
  simp only [prefixSize] at long
  have piece : ((d.w.contents d.c).drop sym.vaBegin).take
      (sym.vaBegin + sym.data.length - sym.vaBegin) = sym.data := by
    rw [Nat.add_sub_cancel_left]
    apply splitRecords_piece (d.w.contents d.c) _ vaBegin _ _ sym member
    exact List.take_prefix _ _
  -- The two bytes of the kind are copied, and no relocation writes on them.
  have cell : ∀ i : Nat, 2 ≤ i → i < 4 → (writeAndRelocateSubsection d.w d.ctx d.sections d.c
      d.machine sym.vaBegin (sym.vaBegin + sym.data.length) a.next (0 : Nat)
      (fill a.heap (0 : Nat) 0 sym.alignedSize)).1 ((0 : Nat) + i) = sym.data.getD i 0 := by
    intro i low high
    simp only [writeAndRelocateSubsection]
    rw [(relocateSubsection_eq _ _ _ _ _ _ _ _ _ _).1, piece]
    simp only [patchAll]
    rw [foldl_frame _ (fun rel => Set.Ico (((0 : Nat) : Int) + (rel.virtualAddress - sym.vaBegin : Nat))
      ((0 : Nat) + (rel.virtualAddress - sym.vaBegin : Nat) + relocWidth d.machine rel.type))]
    · exact writeBytes_at (fill a.heap (0 : Nat) 0 sym.alignedSize) (0 : Nat) sym.data i (by omega)
    · intro rel _
      exact local_applyRelocation d.w d.ctx d.sections d.c d.machine _ rel
    · rintro rel applied ⟨start, ending⟩
      have behind : sym.vaBegin ≤ rel.virtualAddress := by
        simpa using (List.mem_filter.mp applied).2
      rcases untouched rel applied with after | before
      · omega
      · omega
  unfold DebugChunk.relocated PlacedRecord.kind symbolKind recordKind
  dsimp only
  rw [length_readBytes, if_neg (by unfold prefixSize; omega), if_neg (by unfold prefixSize; omega)]
  unfold Bytes.u16At
  rw [byteAt_readBytes _ _ _ _ (by omega), byteAt_readBytes _ _ _ _ (by omega),
    cell 2 (by omega) (by omega), cell (2 + 1) (by omega) (by omega)]
  rfl

private theorem kindTranslates_iff_of_untouched (d : DebugChunk) (vaBegin length scopeLevel : Nat)
    (a : Analysis) (sym : PlacedRecord) (member : sym ∈ (d.symbolsAt vaBegin length).1)
    (goes : symbolGoesInGlobalsStream sym.kind scopeLevel = true)
    (untouched : KindUntouched d a sym) :
    d.KindTranslates a sym ↔ sym.kind ≠ .procref ∧ sym.kind ≠ .lprocref := by
  have long := long_of_global sym scopeLevel goes
  have kind := relocatedKind_of_untouched d vaBegin length a sym member long untouched
  have room : sym.data.length ≤ (d.relocated a sym).length := by
    rw [DebugChunk.relocated, length_readBytes]
    exact le_alignTo _ _ (by omega)
  have fixedKind := symbolKind_fixRecordAlignment (d.relocated a sym) sym.data.length long room
  simp only [DebugChunk.KindTranslates]
  rw [kind]
  constructor
  · intro translates
    -- references to procedures have no known type indices, so nothing is cut off
    have unknown : knownKind sym.kind = false → endsAsGlobal sym.kind = true := by
      intro unknown
      apply translates
      intro refs found
      rw [← kind, ← fixedKind, ← discover_eq_none_iff] at unknown
      rw [unknown] at found
      cases found
    constructor
    · intro procref
      rw [procref] at unknown
      cases unknown rfl
    · intro lprocref
      rw [lprocref] at unknown
      cases unknown rfl
  · rintro ⟨notProcref, notLprocref⟩ -
    generalize sym.kind = k at goes notProcref notLprocref
    cases k <;> first | rfl | contradiction

/-- Every record that is staged for the globals stream has, when it is reached, a kind that ends
as one of that stream. -/
def DebugChunk.GlobalsTranslate (d : DebugChunk) (vaBegin length : Nat) (a : Analysis) : Prop :=
  ∀ front sym rest reached, (d.symbolsAt vaBegin length).1 = front ++ sym :: rest →
    front.foldlM d.analyzeSymbol { a with scopeLevel := 0 } = .ok reached →
    symbolGoesInGlobalsStream sym.kind (nextLevel reached.scopeLevel sym) = true →
    d.KindTranslates reached sym

/--
The walk never gets to the unreachable branch just if every staged record's kind translates; for a
record whose kind no relocation changes, that is so unless it is a reference to a procedure.
-/
theorem analyzeSymbolSubsection_safe_iff (d : DebugChunk) (vaBegin length : Nat) (a : Analysis) :
    (d.analyzeSymbolSubsection vaBegin length a ≠ .error .unreachable ↔
      d.GlobalsTranslate vaBegin length a) ∧
    ∀ sym ∈ (d.symbolsAt vaBegin length).1, ∀ reached scopeLevel,
      symbolGoesInGlobalsStream sym.kind scopeLevel = true → KindUntouched d reached sym →
      (d.KindTranslates reached sym ↔ sym.kind ≠ .procref ∧ sym.kind ≠ .lprocref) := by
  constructor
  · rw [Ne, analyzeSymbolSubsection_unreachable_iff, Transition.foldlM_error_iff]
    constructor
    · intro safe front sym rest reached split passed goes
      by_contra untranslated
      exact safe ⟨front, sym, rest, reached, split, passed,
        (analyzeSymbol_unreachable_iff d reached sym).mpr ⟨goes, untranslated⟩⟩
    · rintro translate ⟨front, sym, rest, reached, split, passed, stopped⟩
      obtain ⟨goes, untranslated⟩ := (analyzeSymbol_unreachable_iff d reached sym).mp stopped
      exact untranslated (translate front sym rest reached split passed goes)
  · intro sym member reached scopeLevel goes untouched
    exact kindTranslates_iff_of_untouched d vaBegin length scopeLevel reached sym member goes
      untouched

/-- A section with one record and without relocations. -/
def oneRecord (record : Bytes) : DebugChunk where
  w := { countingEnv with
    contents := fun c => record.take c.getSize
    contents_le := fun _ => List.length_take_le _ _ }
  ctx := .default .amd64
  sections := []
  c := pointingChunk 2 64 0
  machine := .amd64
  source := ⟨[], [], fun _ => none⟩

def emptyAnalysis : Analysis := ⟨4, [], [], ⟨0, [], [], 0, 0⟩, 0, fun _ => 0⟩

/-- An `S_GDATA32` is stored as it is. -/
theorem gdata_reaches_globals :
    (oneRecord [14, 0, 0x0d, 0x11, 0, 0, 0, 0, 0, 0, 0, 0, 1, 0, 0x66, 0]).analyzeSymbolSubsection 0
      16 emptyAnalysis ≠ .error .unreachable := by
  refine (analyzeSymbolSubsection_safe_iff _ 0 16 emptyAnalysis).1.mpr ?_
  intro front sym rest reached split passed goes
  have member := List.mem_append_right front (List.mem_cons_self (a := sym) (l := rest))
  rw [← split] at member
  cases front with
  | nil =>
    cases passed
    cases split
    refine ((analyzeSymbolSubsection_safe_iff _ 0 16 emptyAnalysis).2 _ member _ _ goes ?_).mpr ?_
    · intro rel applied
      cases applied
    · decide
  | cons other front =>
    cases front <;> cases split

/-- An `S_PROCREF` in an object file becomes an `S_SKIP` before it is staged. -/
theorem procref_reaches_unreachable :
    (oneRecord [14, 0, 0x25, 0x11, 0, 0, 0, 0, 0, 0, 0, 0, 1, 0, 0x66, 0]).analyzeSymbolSubsection 0
      16 emptyAnalysis = .error .unreachable := by
  rfl

end LlvmLd.Pdb
