import LlvmLd.Lib.Avoids
import LlvmLd.Pdb.DebugSHandler
import LlvmLd.Pdb.Scopes

/-!
# The analysis of an object, step by step

`DebugSHandler::analyze` with the type maps that it reads, cut into steps of one symbol record each.

Proof strategy: the type maps are read by `remapTypesInSymbolRecord` and `translateIdSymbols` only.
The second one looks up the type of a function for what the first one has put into the record, so it
asks for items of the object's own map.
-/

namespace LlvmLd.Pdb

open Codeview Memory Outcome Writer
open DebugTypes (isSimple notTranslated firstNonSimpleIndex)
open DebugSection

/-! ### Type maps -/

/-- Both sources have the same maps, and the same types for the functions in them. -/
structure TpiSource.Agrees (s s' : TpiSource) : Prop where
  tpiMap : s.tpiMap = s'.tpiMap
  ipiMap : s.ipiMap = s'.ipiMap
  funcIdToType : ∀ ti ∈ s.ipiMap, s.funcIdToType (uint32 ti) = s'.funcIdToType (uint32 ti)

theorem TpiSource.Agrees.refl (s : TpiSource) : s.Agrees s := ⟨rfl, rfl, fun _ _ => rfl⟩

theorem TpiSource.Agrees.trans {s s' s'' : TpiSource} (first : s.Agrees s')
    (later : s'.Agrees s'') : s.Agrees s'' where
  tpiMap := first.tpiMap.trans later.tpiMap
  ipiMap := first.ipiMap.trans later.ipiMap
  funcIdToType ti member :=
    (first.funcIdToType ti member).trans (later.funcIdToType ti (first.ipiMap ▸ member))

def DebugChunk.withSource (d : DebugChunk) (source : TpiSource) : DebugChunk := { d with source }

/-! ### The analysis -/

/-- `handleSubsection` with the maps that `file->debugTypesObj` has at that time. -/
def handleSubsectionWith (source : TpiSource) (sec : DebugSection) (h : Handler) (ss : Subsection) :
    Except Halt Handler :=
  if SubsectionKind.ofCode ss.kind = .symbols then do
    let analysis ← (sec.chunk.withSource source).analyzeSymbolSubsection ss.vaBegin ss.length h.analysis
    return { h with analysis }
  else handleSubsection sec h ss

def Handler.enter (h : Handler) (sec : DebugSection) : Handler :=
  { h with analysis := { h.analysis with next := sec.relocs } }

def handleChunkWith (source : TpiSource) (h : Handler) (sec : DebugSection) : Except Halt Handler :=
  if sec.isDebugS then do
    let subsections ← sec.subsections
    subsections.foldlM (handleSubsectionWith source sec) (h.enter sec)
  else handleChunk h sec

def analyzeChunksWith (source : TpiSource) (file : SymbolFile) : Except Halt Handler :=
  file.debugChunks.foldlM (handleChunkWith source) (.init file.moduleIndex)

/-! ### Steps -/

inductive AnalysisStep where
  /-- The start of a `.debug$S` section, or a section of another name. -/
  | chunk (sec : DebugSection)
  /-- A subsection without symbols. -/
  | subsection (sec : DebugSection) (ss : Subsection)
  | openSymbols
  | symbol (sec : DebugSection) (sym : PlacedRecord)
  /-- The end of a symbols subsection, corrupt or complete. -/
  | closeSymbols (complete : Bool)

/-- A handler in the middle of its analysis. -/
structure Analyzing where
  handler : Handler
  moduleSymStart : Nat

/-- A step, with the type maps that it finds. -/
def AnalysisStep.run (source : TpiSource) (s : Analyzing) : AnalysisStep → Except Halt Analyzing
  | .chunk sec =>
    if sec.isDebugS then do
      let _ ← sec.subsections
      return { s with handler := s.handler.enter sec }
    else do
      let handler ← handleChunk s.handler sec
      return { s with handler }
  | .subsection sec ss => do
    let handler ← handleSubsection sec s.handler ss
    return { s with handler }
  | .openSymbols =>
    .ok ⟨{ s.handler with analysis := { s.handler.analysis with scopeLevel := 0 } },
      s.handler.analysis.moduleSymOffset⟩
  | .symbol sec sym => do
    let analysis ← (sec.chunk.withSource source).analyzeSymbol s.handler.analysis sym
    return { s with handler := { s.handler with analysis } }
  | .closeSymbols complete =>
    .ok (if complete then s
      else { s with handler := { s.handler with
        analysis := { s.handler.analysis with moduleSymOffset := s.moduleSymStart } } })

def subsectionSteps (sec : DebugSection) (ss : Subsection) : List AnalysisStep :=
  if SubsectionKind.ofCode ss.kind = .symbols then
    let (records, complete) := sec.chunk.symbolsAt ss.vaBegin ss.length
    .openSymbols :: (records.map (.symbol sec) ++ [.closeSymbols complete])
  else [.subsection sec ss]

def sectionSteps (sec : DebugSection) : List AnalysisStep :=
  .chunk sec ::
    match sec.isDebugS, sec.subsections with
    | true, .ok subsections => subsections.flatMap (subsectionSteps sec)
    | _, _ => []

def SymbolFile.steps (file : SymbolFile) : List AnalysisStep := file.debugChunks.flatMap sectionSteps

/-! ### Only an object's own maps are read -/

section Agrees

variable {s s' : TpiSource} (agree : s.Agrees s')
include agree

theorem TpiSource.Agrees.remapTypeIndex (kind : TiRefKind) (ti : Nat) :
    s.remapTypeIndex kind ti = s'.remapTypeIndex kind ti := by
  simp only [TpiSource.remapTypeIndex]
  rw [agree.tpiMap, agree.ipiMap]

theorem TpiSource.Agrees.remapIndices (kind : TiRefKind) (count i : Nat) (record : Bytes) :
    s.remapIndices kind count i record = s'.remapIndices kind count i record := by
  induction count generalizing i record with
  | zero => rfl
  | succ count ih =>
    rw [TpiSource.remapIndices, TpiSource.remapIndices, agree.remapTypeIndex, ih]

theorem TpiSource.Agrees.remapRecord (record : Bytes) (refs : List TiReference) :
    s.remapRecord record refs = s'.remapRecord record refs := by
  induction refs generalizing record with
  | nil => rfl
  | cons ref rest ih =>
    rw [TpiSource.remapRecord, TpiSource.remapRecord, agree.remapIndices, ih]

end Agrees

private theorem u32At_putBytes (record : Bytes) (i n : Nat) (inside : i + 4 ≤ record.length) :
    (putBytes record i (le32 n)).u32At i = uint32 n := by
  have front : (record.take i).length = i := List.length_take_of_le (by omega)
  have read := u32At_drop (putBytes record i (le32 n)) i 0
  rw [Nat.add_zero] at read
  rw [← read, putBytes, length_le32, if_pos inside, List.append_assoc, List.drop_left' front,
    u32At_le32]

/-- The record of a function by its item index. -/
def isFunctionId : SymbolKind → Bool
  | .gproc32Id | .lproc32Id => true
  | _ => false

private theorem discover_functionId (record : Bytes)
    (function : isFunctionId (symbolKind record) = true) :
    discoverTypeIndicesInSymbol record = some [⟨.indexRef, 24, 1⟩] := by
  simp only [discoverTypeIndicesInSymbol]
  generalize symbolKind record = kind at function
  cases kind <;> first | rfl | cases function

/-- What stands in the record of a function when its item index has been remapped. -/
theorem remapped_functionId (source : TpiSource) (record result : Bytes)
    (done : source.remapRecord record [⟨.indexRef, 24, 1⟩] = .ok result) :
    isSimple (result.u32At 28) = true ∨ ∃ ti ∈ source.ipiMap, result.u32At 28 = uint32 ti := by
  rw [TpiSource.remapRecord] at done
  -- a simple index stays, any other one is looked up in the item map
  split at done
  · cases done
  next long =>
    cases done
    have inside : prefixSize + 24 + 4 ≤ record.length := by
      simp only [content, List.length_drop, uint32, prefixSize] at long ⊢
      omega
    simp only [TpiSource.remapIndices]
    rw [show prefixSize + 24 = 28 from rfl] at inside ⊢
    rw [u32At_putBytes _ _ _ inside]
    simp only [TpiSource.remapTypeIndex]
    split
    · next simple =>
      left
      rw [isSimple, decide_eq_true_iff] at simple ⊢
      exact Nat.lt_of_le_of_lt (Nat.mod_le ..) simple
    · next item =>
      cases found : source.ipiMap[toArrayIndex (record.u32At 28)]? with
      | none => exact .inl rfl
      | some ti => exact .inr ⟨ti, List.mem_of_getElem? found, rfl⟩

/-- Records of no function are translated without any map. -/
theorem translateIdSymbols_congr (s s' : TpiSource) (record : Bytes)
    (types : isFunctionId (symbolKind record) = true → isSimple (record.u32At 28) = false →
      s.funcIdToType (record.u32At 28) = s'.funcIdToType (record.u32At 28)) :
    translateIdSymbols s record = translateIdSymbols s' record := by
  simp only [translateIdSymbols]
  generalize symbolKind record = kind at types
  cases simple : isSimple (record.u32At 28) with
  | true => rfl
  | false =>
    cases kind with
    | gproc32Id | lproc32Id => rw [types rfl simple]
    | _ => rfl

theorem TpiSource.Agrees.finishRecord {s s' : TpiSource} (agree : s.Agrees s') (record : Bytes)
    (oldSize : Nat) : finishRecord s record oldSize = finishRecord s' record oldSize := by
  simp only [Pdb.finishRecord, TpiSource.remapTypesInSymbolRecord]
  generalize fixRecordAlignment record oldSize = fixed
  cases found : discoverTypeIndicesInSymbol fixed with
  | none =>
    -- a skip record is no function
    have same := translateIdSymbols_congr s s' (replaceWithSkipRecord fixed) (by
      intro function
      by_cases long : prefixSize ≤ fixed.length
      · rw [symbolKind_replaceWithSkipRecord fixed long] at function
        cases function
      · rw [symbolKind, recordKind, length_replaceWithSkipRecord, if_pos (by omega)] at function
        cases function)
    change Except.ok _ = Except.ok _
    rw [Option.getD_none, same]
  | some refs =>
    dsimp only
    rw [agree.remapRecord]
    cases remapped : s'.remapRecord fixed refs with
    | error text => rfl
    | ok new =>
      have same := translateIdSymbols_congr s s' new (by
        intro function notSimple
        rw [symbolKind_remapRecord s' fixed refs remapped] at function
        rw [discover_functionId fixed function] at found
        cases found
        rcases remapped_functionId s' fixed new remapped with simple | ⟨ti, member, read⟩
        · rw [simple] at notSimple
          cases notSimple
        · rw [read]
          exact agree.funcIdToType ti (agree.ipiMap ▸ member))
      change Except.ok _ = Except.ok _
      rw [Option.getD_some, same]

section Chunk

variable {s s' : TpiSource} (agree : s.Agrees s') (d : DebugChunk)
include agree

private theorem writeSymbolRecord_agrees (sym : PlacedRecord) (alignedSize : Nat)
    (next : List Relocation) (storage : Storage) :
    (d.withSource s).writeSymbolRecord sym alignedSize next storage =
      (d.withSource s').writeSymbolRecord sym alignedSize next storage := by
  simp only [DebugChunk.writeSymbolRecord, DebugChunk.withSource]
  rw [agree.finishRecord]

private theorem analyzeSymbol_agrees (a : Analysis) (sym : PlacedRecord) :
    (d.withSource s).analyzeSymbol a sym = (d.withSource s').analyzeSymbol a sym := by
  simp only [DebugChunk.analyzeSymbol, DebugChunk.copyGlobal]
  rw [writeSymbolRecord_agrees agree]

private theorem analyzeSymbolSubsection_agrees (vaBegin length : Nat) (a : Analysis) :
    (d.withSource s).analyzeSymbolSubsection vaBegin length a =
      (d.withSource s').analyzeSymbolSubsection vaBegin length a := by
  have step : (d.withSource s).analyzeSymbol = (d.withSource s').analyzeSymbol := by
    funext a sym
    exact analyzeSymbol_agrees agree d a sym
  simp only [DebugChunk.analyzeSymbolSubsection]
  rw [step]
  rfl

end Chunk

/-- Two analyses of an object find the same if they find the same maps of that object. -/
theorem analyzeChunksWith_agrees {s s' : TpiSource} (agree : s.Agrees s') (file : SymbolFile) :
    analyzeChunksWith s file = analyzeChunksWith s' file := by
  have subsections : ∀ sec, handleSubsectionWith s sec = handleSubsectionWith s' sec := by
    intro sec
    funext h ss
    simp only [handleSubsectionWith]
    rw [analyzeSymbolSubsection_agrees agree]
  have chunks : handleChunkWith s = handleChunkWith s' := by
    funext h sec
    simp only [handleChunkWith]
    rw [subsections]
  rw [analyzeChunksWith, analyzeChunksWith, chunks]

/-- The object is analyzed with the maps that its sections come with. -/
theorem analyzeChunksWith_own {source : TpiSource} (file : SymbolFile)
    (own : ∀ sec ∈ file.debugChunks, sec.chunk.source = source) :
    analyzeChunksWith source file = analyzeChunks file := by
  rw [analyzeChunksWith, analyzeChunks]
  apply foldlM_congr
  intro sec member h
  have chunk : sec.chunk.withSource source = sec.chunk := by
    rw [← own sec member]
    rfl
  -- only the symbol subsections ask for a source
  have subsections : handleSubsectionWith source sec = handleSubsection sec := by
    funext h ss
    rw [handleSubsectionWith, chunk]
    split
    · next kind =>
      rw [handleSubsection, kind]
    · rfl
  rw [handleChunkWith]
  split
  · next isDebugS =>
    rw [handleChunk, if_pos isDebugS, subsections]
    rfl
  · rfl

/-! ### All steps of an object -/

/-- The records of a subsection, one step each. -/
theorem symbols_run (source : TpiSource) (sec : DebugSection) (records : List PlacedRecord)
    (s : Analyzing) :
    records.foldlM (fun s sym => AnalysisStep.run source s (.symbol sec sym)) s =
      (records.foldlM (sec.chunk.withSource source).analyzeSymbol s.handler.analysis).map
        fun analysis => { s with handler := { s.handler with analysis } } := by
  induction records generalizing s with
  | nil => rfl
  | cons sym rest ih =>
    rw [List.foldlM_cons, List.foldlM_cons]
    cases analyzed : (sec.chunk.withSource source).analyzeSymbol s.handler.analysis sym with
    | error halt =>
      simp only [AnalysisStep.run, analyzed]
      rfl
    | ok analysis =>
      simp only [AnalysisStep.run, analyzed]
      exact ih _

private theorem subsectionSteps_run (source : TpiSource) (sec : DebugSection) (ss : Subsection)
    (s : Analyzing) :
    ((subsectionSteps sec ss).foldlM (AnalysisStep.run source) s).map (·.handler) =
      handleSubsectionWith source sec s.handler ss := by
  rw [subsectionSteps, handleSubsectionWith]
  split
  · next kind =>
    rw [DebugChunk.analyzeSymbolSubsection]
    have records : (sec.chunk.withSource source).symbolsAt ss.vaBegin ss.length =
      sec.chunk.symbolsAt ss.vaBegin ss.length := rfl
    rw [records]
    generalize sec.chunk.symbolsAt ss.vaBegin ss.length = walk
    obtain ⟨records, complete⟩ := walk
    dsimp only
    rw [List.foldlM_cons]
    change Except.map _ ((records.map _ ++ [_]).foldlM _ _) = _
    rw [List.foldlM_append, List.foldlM_map, symbols_run]
    -- a halt in the records ends both; behind them, only completeness matters
    cases records.foldlM (sec.chunk.withSource source).analyzeSymbol
        { s.handler.analysis with scopeLevel := 0 } with
    | error halt => rfl
    | ok analysis => cases complete <;> rfl
  · rw [List.foldlM_cons]
    cases handled : handleSubsection sec s.handler ss with
    | error halt =>
      simp only [AnalysisStep.run, handled]
      rfl
    | ok handler =>
      simp only [AnalysisStep.run, handled]
      rfl

private theorem sectionSteps_run (source : TpiSource) (sec : DebugSection) (s : Analyzing) :
    ((sectionSteps sec).foldlM (AnalysisStep.run source) s).map (·.handler) =
      handleChunkWith source s.handler sec := by
  rw [sectionSteps, handleChunkWith, List.foldlM_cons]
  cases isDebugS : sec.isDebugS with
  | false =>
    cases handled : handleChunk s.handler sec with
    | error halt =>
      simp only [AnalysisStep.run, isDebugS, handled]
      rfl
    | ok handler =>
      simp only [AnalysisStep.run, isDebugS, handled]
      rfl
  | true =>
    cases listed : sec.subsections with
    | error halt =>
      simp only [AnalysisStep.run, isDebugS, listed]
      rfl
    | ok subsections =>
      simp only [AnalysisStep.run, isDebugS, listed]
      exact foldlM_flatMap_map (fun ss _ s => subsectionSteps_run source sec ss s)
        ⟨s.handler.enter sec, s.moduleSymStart⟩

/-- One record at a time or not, the analysis finds the same. -/
theorem steps_run (source : TpiSource) (file : SymbolFile) (start : Nat) :
    (file.steps.foldlM (AnalysisStep.run source) ⟨.init file.moduleIndex, start⟩).map (·.handler) =
      analyzeChunksWith source file :=
  foldlM_flatMap_map (fun sec _ s => sectionSteps_run source sec s) ⟨.init file.moduleIndex, start⟩

end LlvmLd.Pdb
