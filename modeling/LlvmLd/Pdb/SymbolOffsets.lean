import LlvmLd.Pdb.ModuleSymbols
import LlvmLd.Pdb.RecordBytes

/-!
What the first pass over an object's symbols says about places in the module stream: the fixups of
`recordStringTableReferences`, and the offsets in references to procedures.
-/

namespace LlvmLd.Pdb

open Brackets Codeview Memory Outcome Writer
open Gsi (StreamWriter)
open DebugSection

/-! ### Records of a file -/

/-- A record of a symbols subsection of the file. -/
structure RecordPlace (file : SymbolFile) where
  before : List DebugSection
  sec : DebugSection
  behind : List DebugSection
  chunks_eq : file.debugChunks = before ++ sec :: behind
  isDebugS : sec.isDebugS = true
  earlier : List Subsection
  ss : Subsection
  later : List Subsection
  subsections_eq : sec.subsections = .ok (earlier ++ ss :: later)
  symbols : SubsectionKind.ofCode ss.kind = .symbols
  front : List PlacedRecord
  sym : PlacedRecord
  rest : List PlacedRecord
  records_eq : (sec.chunk.symbolsAt ss.vaBegin ss.length).1 = front ++ sym :: rest

namespace RecordPlace

variable {file : SymbolFile} (place : RecordPlace file)

/-- The subsection is not corrupt. -/
def complete : Bool := (place.sec.chunk.symbolsAt place.ss.vaBegin place.ss.length).2

/-- The first pass in front of the section, the subsection and the record. -/
def firstBefore : Except Halt Handler := place.before.foldlM handleChunk (.init file.moduleIndex)

def firstEarlier : Except Halt Handler := do
  let h ← place.firstBefore
  place.earlier.foldlM (handleSubsection place.sec)
    { h with analysis := { h.analysis with next := place.sec.relocs } }

def first : Except Halt Analysis := do
  let h ← place.firstEarlier
  place.front.foldlM place.sec.chunk.analyzeSymbol { h.analysis with scopeLevel := 0 }

/-- The second pass in front of the subsection and the record. -/
def secondEarlier (w : StreamWriter) : Except String SecondPass := do
  let s ← place.before.foldlM writeSection ⟨w, [], fun _ => 0⟩
  place.earlier.foldlM (writeSymbols place.sec) { s with next := place.sec.relocs }

def second (w : StreamWriter) : Except String (StreamWriter × Pass) := do
  let s ← place.secondEarlier w
  let p ← place.front.foldlM (visitSymbol (scopeStackClose (uint32 s.writer.written.length))
    place.sec.chunk) ⟨⟨s.heap, 0⟩, [], s.next⟩
  return (s.writer, p)

/-- The first pass records the fixup at this record. -/
def Records (fixup : Nat × Nat) : Prop :=
  ∃ a, place.first = .ok a ∧
    symbolGoesInModuleStream place.sym.kind (nextLevel a.scopeLevel place.sym) = true ∧
    fixup ∈ recordStringTableReferences place.sym a.moduleSymOffset

/-- The first pass rewrites this record and stages `global` for it. -/
def Stages (record global : Bytes) : Prop :=
  ∃ a, place.first = .ok a ∧
    symbolGoesInGlobalsStream place.sym.kind (nextLevel a.scopeLevel place.sym) = true ∧
    place.sec.chunk.rewrite place.sym a.next ⟨a.heap, 0⟩ = .ok record ∧
    makeGlobalsStreamRecord file.moduleIndex a.moduleSymOffset record = .ok global

/-- The second pass writes the record as `record` at `offset` of the stream, and there it stands in
the end but for scope links, which are among the first bytes. -/
structure Written (w w' : StreamWriter) (offset : Nat) (record : Bytes) : Prop where
  writes : ∃ writer p, place.second w = .ok (writer, p) ∧
    ∃ p', p' = trackScope (scopeStackClose (uint32 writer.written.length)) p place.sym ∧
      symbolGoesInModuleStream place.sym.kind p'.scopes.length = true ∧
      place.sec.chunk.rewrite place.sym p'.next p'.storage = .ok record ∧
      offset = writer.written.length + p.storage.size
  stands : ∀ i < record.length, (if opensScope place.sym then 12 else 8) ≤ i →
    w'.written.getD (offset + i) 0 = record.getD i 0

end RecordPlace

/-- In each symbols subsection every end of a scope has its opener, and the other way round. A
corrupt record may follow. -/
def SymbolFile.ScopesBalanced (file : SymbolFile) : Prop :=
  ∀ sec ∈ file.debugChunks, sec.isDebugS = true → ∀ subsections,
    sec.subsections = .ok subsections → ∀ ss ∈ subsections,
      SubsectionKind.ofCode ss.kind = .symbols →
      Balanced opensScope endsScope (sec.chunk.symbolsAt ss.vaBegin ss.length).1

def isProcedure : SymbolKind → Bool
  | .gproc32 | .lproc32 | .gproc32Id | .lproc32Id => true
  | _ => false

/-- The records that `finish` gives to the GSI builder. -/
def GlobalStage.published (dsh : GlobalStage) : List Bytes :=
  dsh.pendingGlobals.map fun g => dsh.globalsStorage.slice g.offset g.size

/-- What the first pass says about offsets, against what the second one writes. -/
structure SymbolFile.OffsetsExact (file : SymbolFile) (h : Handler) (w w' : StreamWriter) : Prop where
  fixup_recorded : ∀ fixup ∈ h.analysis.stringTableFixups,
    ∃ place : RecordPlace file, place.Records fixup
  fixup_exact : ∀ (place : RecordPlace file) fixup, place.complete = true → place.Records fixup →
    ∃ offset record, place.Written w w' offset record ∧
      fixup = (place.sym.data.u32At 8, uint32 (offset + 8))
  global_staged : h.analysis.dsh.globalsStorage.length < 2 ^ 32 →
    ∀ global ∈ h.analysis.dsh.published, ∃ (place : RecordPlace file) (record : Bytes),
      place.Stages record global
  proc_exact : ∀ (place : RecordPlace file) record global, place.complete = true →
    place.sec.Contains place.sym → isProcedure place.sym.kind = true →
    place.Stages record global →
    ∃ offset, place.Written w w' offset record ∧
      (symbolKind record = .gproc32 → global = procRefRecord 0x1125 offset (file.moduleIndex + 1)
        ((getSymbolName record).getD [])) ∧
      (symbolKind record = .lproc32 → global = procRefRecord 0x1127 offset (file.moduleIndex + 1)
        ((getSymbolName record).getD []))

/-! ### Depths -/

private theorem nextLevel_eq (l : Nat) (sym : PlacedRecord) (inside : endsScope sym = true → 0 < l)
    (small : l + 1 < 2 ^ 32) : nextLevel l sym = depthStep opensScope endsScope l sym := by
  rw [nextLevel, depthStep]
  by_cases opened : opensScope sym = true
  · rw [if_pos opened]
    rw [opensScope] at opened
    rw [if_pos opened]
    exact Nat.mod_eq_of_lt small
  rw [if_neg opened]
  rw [opensScope] at opened
  rw [if_neg opened]
  by_cases ended : endsScope sym = true
  · have open_ := inside ended
    rw [if_pos ended]
    rw [endsScope] at ended
    rw [if_pos ended, uint32]
    omega
  · rw [if_neg ended]
    rw [endsScope] at ended
    rw [if_neg ended]

private theorem depth_le_length (records : List PlacedRecord) :
    depth opensScope endsScope records ≤ records.length := by
  induction records using List.reverseRecOn with
  | nil => exact Nat.le_refl 0
  | append_singleton records sym ih =>
    rw [depth_append_singleton, depthStep, List.length_append, List.length_singleton]
    split
    · omega
    · split <;> omega

/-- In front of a record of a balanced list, both passes are at the same depth and offset. -/
theorem count_eq_layout (records rest : List PlacedRecord)
    (balanced : Balanced opensScope endsScope (records ++ rest))
    (few : records.length < 2 ^ 32) :
    records.foldl countStep (0, 0) = records.foldl layoutStep (0, 0) := by
  induction records using List.reverseRecOn generalizing rest with
  | nil => rw [List.foldl_nil, List.foldl_nil]
  | append_singleton records sym ih =>
    rw [List.append_assoc, List.singleton_append] at balanced
    rw [List.length_append, List.length_singleton] at few
    have level : (records.foldl layoutStep (0, 0)).1 = depth opensScope endsScope records :=
      layout_depth records (0, 0)
    have deep := depth_le_length records
    rw [List.foldl_append, List.foldl_append, ih (sym :: rest) balanced (by omega)]
    rw [List.foldl_cons, List.foldl_cons, List.foldl_nil, List.foldl_nil, countStep, layoutStep]
    rw [nextLevel_eq _ _ _ (by rw [level]; omega)]
    intro ended
    rw [level]
    exact balanced.inside not_opens_of_ends records rest sym rfl ended 0

theorem counted_eq_moduleSize {records : List PlacedRecord}
    (balanced : Balanced opensScope endsScope records) (few : records.length < 2 ^ 32) :
    countedSize records = moduleSize records := by
  rw [countedSize, moduleSize, count_eq_layout records [] (by rwa [List.append_nil]) few]

/-! ### Both passes in front of a record -/

private theorem mem_symbols_imp {file : SymbolFile} {records : List PlacedRecord}
    (member : records ∈ file.symbols) : ∃ sec ∈ file.debugChunks, sec.isDebugS = true ∧
      ∃ subsections, sec.subsections = .ok subsections ∧ ∃ ss ∈ subsections,
        SubsectionKind.ofCode ss.kind = .symbols ∧
        records = (sec.chunk.symbolsAt ss.vaBegin ss.length).1 := by
  obtain ⟨sec, inFile, member⟩ := List.mem_flatMap.mp member
  split at member
  · rename_i isDebugS
    rw [DebugSection.symbols] at member
    cases listed : sec.subsections with
    | error halt =>
      rw [listed] at member
      cases member
    | ok subsections =>
      rw [listed] at member
      obtain ⟨ss, inList, found⟩ := List.mem_filterMap.mp member
      rw [DebugSection.completeSymbols] at found
      dsimp only at found
      split at found
      · rename_i symbols
        cases found
        exact ⟨sec, inFile, isDebugS, subsections, listed, ss, inList, symbols.1, rfl⟩
      · cases found
  · cases member

theorem SymbolFile.ScopesBalanced.symbols {file : SymbolFile} (balanced : file.ScopesBalanced) :
    ∀ records ∈ file.symbols, Balanced opensScope endsScope records := by
  intro records member
  obtain ⟨sec, inFile, isDebugS, subsections, listed, ss, inList, symbols, rfl⟩ :=
    mem_symbols_imp member
  exact balanced sec inFile isDebugS subsections listed ss inList symbols

/-- A section has no room for that many records. -/
theorem symbols_short {file : SymbolFile} : ∀ records ∈ file.symbols, records.length < 2 ^ 32 := by
  intro records member
  obtain ⟨sec, -, -, subsections, listed, ss, inList, -, rfl⟩ := mem_symbols_imp member
  have size := sec.size_lt
  have whole : sec.contents.length ≤ sec.chunk.c.getSize := sec.chunk.w.contents_le sec.chunk.c
  have inside := (subsections_places sec listed).1 ss inList
  have few := (symbolsAt_places sec ss).2.2
  omega

namespace RecordPlace

variable {file : SymbolFile} (place : RecordPlace file)

/-- The symbols in front of the subsection. -/
def symbolsBefore : List (List PlacedRecord) :=
  (SymbolFile.mk place.before file.moduleIndex).symbols ++
    place.earlier.filterMap place.sec.completeSymbols

private theorem mem_symbols_of_before {records : List PlacedRecord}
    (member : records ∈ place.symbolsBefore) : records ∈ file.symbols := by
  rw [SymbolFile.symbols, place.chunks_eq, List.flatMap_append, List.flatMap_cons,
    if_pos place.isDebugS, DebugSection.symbols, place.subsections_eq]
  dsimp only
  rw [List.filterMap_append]
  rcases List.mem_append.mp member with outer | inner
  · exact List.mem_append_left _ outer
  · exact List.mem_append_right _ (List.mem_append_left _ (List.mem_append_left _ inner))

theorem mem_symbols (complete : place.complete = true) :
    place.front ++ place.sym :: place.rest ∈ file.symbols := by
  rw [SymbolFile.symbols, place.chunks_eq, List.flatMap_append, List.flatMap_cons,
    if_pos place.isDebugS, DebugSection.symbols, place.subsections_eq]
  refine List.mem_append_right _ (List.mem_append_left _ (List.mem_filterMap.mpr
    ⟨place.ss, by simp, ?_⟩))
  rw [DebugSection.completeSymbols]
  dsimp only
  rw [if_pos ⟨place.symbols, complete⟩, place.records_eq]

private theorem first_offset {a : Analysis} (done : place.first = .ok a) :
    a.scopeLevel = (place.front.foldl countStep (0, 0)).1 ∧
      a.moduleSymOffset = uint32 (kSymbolStreamMagicSize +
        (place.symbolsBefore.map countedSize).sum + (place.front.foldl countStep (0, 0)).2) := by
  obtain ⟨h', walked, done⟩ := bind_ok_iff.mp done
  obtain ⟨h, before, walked⟩ := bind_ok_iff.mp walked
  have outer := @analyzeChunks_offset ⟨place.before, file.moduleIndex⟩ _ before
  have inner := subsections_keep (J := fun n h => h.analysis.moduleSymOffset = uint32 n) countedSize
    (fun n h h' ss offset here => analyzeSubsection_offset offset here) outer walked
  rw [Nat.add_assoc, ← List.sum_append, ← List.map_append] at inner
  obtain ⟨level, offset⟩ := analyze_offset (a := { h'.analysis with scopeLevel := 0 }) inner done
  rw [countStep_add] at level offset
  exact ⟨level, offset⟩

private theorem second_offset {w writer : StreamWriter} {p : Pass}
    (done : place.second w = .ok (writer, p)) :
    writer.written.length = w.written.length + (place.symbolsBefore.map moduleSize).sum ∧
      (p.scopes.length, p.storage.size) = place.front.foldl layoutStep (0, 0) := by
  obtain ⟨s', walked, done⟩ := bind_ok_iff.mp done
  obtain ⟨p', passed, done⟩ := bind_ok_iff.mp done
  cases done
  obtain ⟨s, before, walked⟩ := bind_ok_iff.mp walked
  have outer := @writeSections_length ⟨place.before, file.moduleIndex⟩ _ _ before
  have inner := subsections_keep (J := fun n s => s.writer.written.length = n) moduleSize
    (fun n s s' ss length here => writeSymbols_length length here) outer walked
  rw [SymbolFile.moduleSize, Nat.add_assoc, ← List.sum_append, ← List.map_append] at inner
  exact ⟨inner, (run_layout (pops_scopeStackClose _) passed).symm⟩

/-- In front of a record of a balanced file, both passes have seen the same symbols. -/
theorem passes_meet (balanced : file.ScopesBalanced) (complete : place.complete = true)
    {a : Analysis} {w writer : StreamWriter} {p : Pass} (first : place.first = .ok a)
    (magic : w.written.length = kSymbolStreamMagicSize)
    (second : place.second w = .ok (writer, p)) :
    a.scopeLevel = p.scopes.length ∧
      a.moduleSymOffset = uint32 (writer.written.length + p.storage.size) := by
  obtain ⟨level, offset⟩ := place.first_offset first
  obtain ⟨length, layout⟩ := place.second_offset second
  have member := place.mem_symbols complete
  have few := symbols_short _ member
  rw [List.length_append] at few
  rw [count_eq_layout place.front (place.sym :: place.rest) (balanced.symbols _ member) (by omega),
    ← layout] at level offset
  have sums : place.symbolsBefore.map countedSize = place.symbolsBefore.map moduleSize := by
    refine List.map_congr_left fun records before => ?_
    have inFile := place.mem_symbols_of_before before
    exact counted_eq_moduleSize (balanced.symbols _ inFile) (symbols_short _ inFile)
  refine ⟨level, ?_⟩
  rw [offset, length, magic, sums]

/-! ### The index in front of a record -/

private theorem before_record : (∀ ss ∈ place.earlier, ss.vaBegin + ss.length ≤ place.ss.vaBegin) ∧
    place.ss.vaBegin ≤ place.sym.vaBegin ∧
    (∀ sym ∈ place.front, sym.vaBegin + sym.data.length ≤ place.sym.vaBegin) ∧
    place.sec.Inside place.sym := by
  obtain ⟨inSection, ascend⟩ := subsections_places place.sec place.subsections_eq
  obtain ⟨inSubsection, ascend', -⟩ := symbolsAt_places place.sec place.ss
  rw [place.records_eq] at inSubsection ascend'
  obtain ⟨low, high⟩ := inSubsection place.sym (by simp)
  have fits := inSection place.ss (by simp)
  refine ⟨fun ss earlier => ?_, low, fun sym front => ?_, by rw [Inside]; omega⟩
  · exact (List.pairwise_append.mp ascend).2.2 ss earlier place.ss (by simp)
  · exact (List.pairwise_append.mp ascend').2.2 sym front place.sym (by simp)

private theorem first_index {a : Analysis} (done : place.first = .ok a) :
    IndexBehind place.sec.relocs place.sym.vaBegin a.next := by
  obtain ⟨earlier, low, front, -⟩ := place.before_record
  obtain ⟨h', walked, done⟩ := bind_ok_iff.mp done
  obtain ⟨h, -, walked⟩ := bind_ok_iff.mp walked
  have inner : IndexBehind place.sec.relocs place.ss.vaBegin h'.analysis.next := by
    refine foldlM_keeps (I := fun _ h => IndexBehind place.sec.relocs place.ss.vaBegin
      h.analysis.next) ?_ [] indexBehind_start walked
    intro _ h h' ss member behind here
    exact handleSubsection_index behind (earlier ss member) here
  exact analyze_index (a := { h'.analysis with scopeLevel := 0 }) (inner.mono low) front done

end RecordPlace

private theorem visitSymbol_index {relocs : List Relocation} {bound : Nat} {close : Pass → Pass}
    (pops : Pops close) {d : DebugChunk} {p q : Pass} {sym : PlacedRecord}
    (behind : IndexBehind relocs bound p.next) (below : sym.vaBegin + sym.data.length ≤ bound)
    (done : visitSymbol close d p sym = .ok q) : IndexBehind relocs bound q.next := by
  have next := (trackScope_eq close pops p sym).2.2
  rw [visitSymbol] at done
  dsimp only at done
  split at done
  · obtain ⟨⟨storage, next'⟩, written, done⟩ := bind_ok_iff.mp done
    cases done
    show IndexBehind relocs bound next'
    rw [writeSymbolRecord_next written, next]
    exact behind.left (Nat.le_add_right _ _) below
  · cases done
    rwa [next]

private theorem visit_index {relocs : List Relocation} {bound : Nat} {close : Pass → Pass}
    (pops : Pops close) {d : DebugChunk} {p q : Pass} {records : List PlacedRecord}
    (behind : IndexBehind relocs bound p.next)
    (below : ∀ sym ∈ records, sym.vaBegin + sym.data.length ≤ bound)
    (done : records.foldlM (visitSymbol close d) p = .ok q) : IndexBehind relocs bound q.next :=
  foldlM_keeps (I := fun _ p => IndexBehind relocs bound p.next)
    (fun _ _ _ sym member behind here => visitSymbol_index pops behind (below sym member) here)
    [] behind done

private theorem writeSymbols_index {relocs : List Relocation} {bound : Nat} {sec : DebugSection}
    {s s' : SecondPass} {ss : Subsection} (behind : IndexBehind relocs bound s.next)
    (below : ss.vaBegin + ss.length ≤ bound) (done : writeSymbols sec s ss = .ok s') :
    IndexBehind relocs bound s'.next := by
  have inside := (symbolsAt_places sec ss).1
  rw [writeSymbols] at done
  generalize sec.chunk.symbolsAt ss.vaBegin ss.length = walk at done inside
  obtain ⟨records, complete⟩ := walk
  split at done
  · cases done
    exact behind
  · obtain ⟨p, walked, done⟩ := bind_ok_iff.mp done
    obtain ⟨writer, -, done⟩ := bind_ok_iff.mp done
    cases done
    exact visit_index (p := ⟨⟨s.heap, 0⟩, [], s.next⟩) (pops_scopeStackClose _) behind
      (fun sym member => Nat.le_trans (inside sym member).2 below) walked

namespace RecordPlace

variable {file : SymbolFile} (place : RecordPlace file)

private theorem second_index {w writer : StreamWriter} {p : Pass}
    (done : place.second w = .ok (writer, p)) :
    IndexBehind place.sec.relocs place.sym.vaBegin p.next := by
  obtain ⟨earlier, low, front, -⟩ := place.before_record
  obtain ⟨s', walked, done⟩ := bind_ok_iff.mp done
  obtain ⟨p', passed, done⟩ := bind_ok_iff.mp done
  cases done
  obtain ⟨s, -, walked⟩ := bind_ok_iff.mp walked
  have inner : IndexBehind place.sec.relocs place.ss.vaBegin s'.next := by
    refine foldlM_keeps (I := fun _ s => IndexBehind place.sec.relocs place.ss.vaBegin s.next) ?_ []
      indexBehind_start walked
    intro _ s s' ss member behind here
    exact writeSymbols_index behind (earlier ss member) here
  exact visit_index (p := ⟨⟨s'.heap, 0⟩, [], s'.next⟩) (pops_scopeStackClose _) (inner.mono low) front
    passed

end RecordPlace

/-! ### The bytes that stay -/

/-- Writing only appends to a stream. -/
structure Extends (w w' : StreamWriter) : Prop where
  length : w'.length = w.length
  written : w.written <+: w'.written

theorem Extends.refl (w : StreamWriter) : Extends w w := ⟨rfl, List.prefix_rfl⟩

theorem Extends.trans {u v w : StreamWriter} (first : Extends u v) (second : Extends v w) :
    Extends u w :=
  ⟨second.length.trans first.length, first.written.trans second.written⟩

theorem writeBytes_extends {w w' : StreamWriter} {bytes : Bytes}
    (done : w.writeBytes bytes = .ok w') : Extends w w' := by
  rw [StreamWriter.writeBytes] at done
  split at done
  · cases done
  · cases done
    exact ⟨rfl, List.prefix_append _ _⟩

private theorem writeSymbols_extends {sec : DebugSection} {s s' : SecondPass} {ss : Subsection}
    (done : writeSymbols sec s ss = .ok s') : Extends s.writer s'.writer := by
  rw [writeSymbols] at done
  generalize sec.chunk.symbolsAt ss.vaBegin ss.length = walk at done
  obtain ⟨records, complete⟩ := walk
  split at done
  · cases done
    exact .refl _
  · obtain ⟨p, -, done⟩ := bind_ok_iff.mp done
    obtain ⟨writer, wrote, done⟩ := bind_ok_iff.mp done
    cases done
    exact writeBytes_extends wrote

theorem subsections_extend {sec : DebugSection} {s s' : SecondPass} {subsections : List Subsection}
    (done : subsections.foldlM (writeSymbols sec) s = .ok s') : Extends s.writer s'.writer :=
  foldlM_keeps (I := fun _ t => Extends s.writer t.writer)
    (fun _ _ _ _ _ before here => before.trans (writeSymbols_extends here)) [] (.refl _) done

private theorem writeSection_extends {sec : DebugSection} {s s' : SecondPass}
    (done : writeSection s sec = .ok s') : Extends s.writer s'.writer := by
  rw [writeSection] at done
  split at done
  · cases listed : sec.subsections with
    | error halt =>
      rw [listed] at done
      cases halt <;> cases done
    | ok subsections =>
      rw [listed] at done
      exact subsections_extend (s := { s with next := sec.relocs }) done
  · cases done
    exact .refl _

theorem sections_extend {s s' : SecondPass} {sections : List DebugSection}
    (done : sections.foldlM writeSection s = .ok s') : Extends s.writer s'.writer :=
  foldlM_keeps (I := fun _ t => Extends s.writer t.writer)
    (fun _ _ _ _ _ before here => before.trans (writeSection_extends here)) [] (.refl _) done

/-! ### Writing a record -/

private theorem visitSymbol_rewrites {close : Pass → Pass} (pops : Pops close) {d : DebugChunk}
    {p q : Pass} {sym : PlacedRecord}
    (goes : symbolGoesInModuleStream sym.kind (trackScope close p sym).scopes.length = true)
    (done : visitSymbol close d p sym = .ok q) :
    d.rewrite sym (trackScope close p sym).next (trackScope close p sym).storage =
      .ok (readBytes q.storage.mem p.storage.size sym.alignedSize) := by
  have size := (trackScope_eq close pops p sym).2.1
  rw [visitSymbol] at done
  dsimp only at done
  rw [if_pos goes] at done
  obtain ⟨⟨storage, next⟩, written, done⟩ := bind_ok_iff.mp done
  cases done
  rw [DebugChunk.rewrite, bind_ok_iff]
  refine ⟨(storage, next), written, ?_⟩
  dsimp only
  rw [size]
  rfl

private theorem four_le_alignedSize {sym : PlacedRecord} (opened : opensScope sym = true) :
    4 ≤ sym.alignedSize := by
  have long : prefixSize ≤ sym.data.length := by
    by_contra short
    have kind : sym.kind = .other 0 := by
      rw [PlacedRecord.kind, symbolKind, recordKind, if_pos (by omega)]
      rfl
    rw [opensScope, kind] at opened
    cases opened
  have room := alignedSize_ge sym
  rw [prefixSize] at long
  omega

private theorem run_size_le {close : Pass → Pass} (pops : Pops close) {d : DebugChunk} {p q : Pass}
    {records : List PlacedRecord} (done : records.foldlM (visitSymbol close d) p = .ok q) :
    p.storage.size ≤ q.storage.size := by
  have grows := layout_mono records (p.scopes.length, p.storage.size)
  rwa [run_layout pops done] at grows

/-- What has been written of a record stays, but for the links at its begin. -/
theorem visited_stands {d : DebugChunk} {base : Nat} {heap : Mem} {next : List Relocation}
    {p q r : Pass} {sym : PlacedRecord} {front rest : List PlacedRecord}
    (first : front.foldlM (visitSymbol (scopeStackClose base) d) ⟨⟨heap, 0⟩, [], next⟩ = .ok p)
    (visit : visitSymbol (scopeStackClose base) d p sym = .ok q)
    (later : rest.foldlM (visitSymbol (scopeStackClose base) d) q = .ok r)
    (small : r.storage.size < 2 ^ 32) (i : Nat) (inside : p.storage.size + i < q.storage.size)
    (behind : (if opensScope sym then 12 else 8) ≤ i) :
    r.storage.mem (p.storage.size + i : Nat) = q.storage.mem (p.storage.size + i : Nat) := by
  have pops := pops_scopeStackClose base
  have grows := run_size_le pops later
  let z : SymbolsSubsection :=
    { chunk := d, vaBegin := 0, length := 0, relocs := next, heap, writer := ⟨0, []⟩
      length_lt := Nat.two_pow_pos 32 }
  have passed : z.passWith (scopeStackClose base) front = .ok p := first
  have size := SymbolsSubsection.pass_size pops passed
  -- the openers of the outer scopes are in front, and each has at least four bytes
  have outer : ∀ off ∈ p.scopes,
      ((p.storage.size + i : Nat) : Int) ∉ Set.Ico (off + 4 : Int) (off + 12) := by
    intro off member
    obtain ⟨_, o, _, -, opened, rfl, room⟩ :=
      SymbolsSubsection.pass_scopes pops passed (by omega) off member
    have four := four_le_alignedSize opened
    have eight : 8 ≤ i := by
      split at behind <;> omega
    rintro ⟨-, high⟩
    omega
  apply SymbolsSubsection.run_frame later small _ (by omega)
  intro off member
  rw [(visitSymbol_ok pops visit).1, stepScopes] at member
  split at member
  · rename_i opened
    rcases List.mem_cons.mp member with rfl | member
    · rw [if_pos opened] at behind
      have word : uint32 p.storage.size = p.storage.size := Nat.mod_eq_of_lt (by omega)
      rintro ⟨-, high⟩
      omega
    · exact outer off member
  · split at member
    · exact outer off (List.mem_of_mem_tail member)
    · exact outer off member

namespace RecordPlace

variable {file : SymbolFile} (place : RecordPlace file)

/-- The second pass comes to the record, and what it writes there stays. -/
theorem written_of_ok (complete : place.complete = true) {w w' : StreamWriter}
    (word : w.length < 2 ^ 32) (done : writeAllModuleSymbolRecords file w = .ok w') :
    ∃ writer p, place.second w = .ok (writer, p) ∧
      (symbolGoesInModuleStream place.sym.kind
        (depthStep opensScope endsScope p.scopes.length place.sym) = true →
      writer.written.length + p.storage.size + place.sym.alignedSize < 2 ^ 32 ∧
        ∃ record, place.Written w w' (writer.written.length + p.storage.size) record) := by
  obtain ⟨s, walked, done⟩ := bind_ok_iff.mp done
  cases done
  rw [place.chunks_eq] at walked
  -- The walk is cut at the record three times: by the section, the subsection and the record.
  obtain ⟨s₁, s₂, before, here, behind⟩ := comesTo_of_ok walked
  rw [writeSection, if_pos place.isDebugS, place.subsections_eq] at here
  obtain ⟨t₁, t₂, earlier, here, later⟩ := comesTo_of_ok here
  have reached : place.secondEarlier w = .ok t₁ := bind_ok_iff.mpr ⟨s₁, before, earlier⟩
  have outer : Extends w t₁.writer := (sections_extend before).trans
    (subsections_extend (s := { s₁ with next := place.sec.relocs }) earlier)
  -- What is behind it only appends to the stream.
  have final : Extends t₂.writer s.writer := (subsections_extend later).trans (sections_extend behind)
  rw [writeSymbols, if_neg (not_not.mpr place.symbols)] at here
  dsimp only at here
  rw [place.records_eq] at here
  obtain ⟨r, passed, here⟩ := bind_ok_iff.mp here
  obtain ⟨writer, wrote, here⟩ := bind_ok_iff.mp here
  cases here
  rw [show (place.sec.chunk.symbolsAt place.ss.vaBegin place.ss.length).2 = true from complete,
    if_pos rfl, StreamWriter.writeBytes, length_readBytes] at wrote
  split at wrote
  · cases wrote
  rename_i fits
  cases wrote
  obtain ⟨p, q, front, visit, rest⟩ := comesTo_of_ok passed
  -- Inside the subsection a later record may close a scope and patch the links of this one,
  -- so it is the bytes behind the links that stand.
  have pops := pops_scopeStackClose (uint32 t₁.writer.written.length)
  refine ⟨t₁.writer, p, bind_ok_iff.mpr ⟨t₁, reached, bind_ok_iff.mpr ⟨p, front, rfl⟩⟩, ?_⟩
  intro goes
  obtain ⟨scopes, size, -⟩ := trackScope_eq _ pops p place.sym
  have goes' : symbolGoesInModuleStream place.sym.kind
      (trackScope (scopeStackClose (uint32 t₁.writer.written.length)) p place.sym).scopes.length =
        true := by
    rw [scopes, length_stepScopes]
    exact goes
  have length := outer.length
  have grows := run_size_le pops rest
  obtain ⟨qScopes, qSize, -⟩ := visitSymbol_ok pops visit
  rw [qScopes, length_stepScopes, if_pos goes] at qSize
  refine ⟨by omega, _, ⟨⟨t₁.writer, p, bind_ok_iff.mpr ⟨t₁, reached, bind_ok_iff.mpr ⟨p, front, rfl⟩⟩,
    _, rfl, goes', visitSymbol_rewrites pops goes' visit, rfl⟩, ?_⟩⟩
  intro i inside behindLinks
  rw [length_readBytes] at inside
  obtain ⟨more, whole⟩ := final.written
  have kept := visited_stands front visit rest (by omega) i (by omega) behindLinks
  rw [← whole, List.append_assoc, List.getD_eq_getElem?_getD,
    List.getElem?_append_right (by omega), Nat.add_assoc, Nat.add_sub_cancel_left,
    List.getElem?_append_left (by rw [length_readBytes]; omega)]
  simp only [readBytes]
  rw [List.getElem?_map, List.getElem?_range (by omega), List.getD_eq_getElem?_getD,
    List.getElem?_map, List.getElem?_range inside, Option.map_some, Option.map_some, Option.getD_some,
    Option.getD_some, Int.zero_add, kept, Nat.cast_add]

private theorem fixup_exact (balanced : file.ScopesBalanced) (complete : place.complete = true)
    {w w' : StreamWriter} (magic : w.written.length = kSymbolStreamMagicSize)
    (word : w.length < 2 ^ 32) (done : writeAllModuleSymbolRecords file w = .ok w')
    {fixup : Nat × Nat} (recorded : place.Records fixup) :
    ∃ offset record, place.Written w w' offset record ∧
      fixup = (place.sym.data.u32At 8, uint32 (offset + 8)) := by
  obtain ⟨a, first, -, recorded⟩ := recorded
  obtain ⟨writer, p, second, writes⟩ := place.written_of_ok complete word done
  have meets := (place.passes_meet balanced complete first magic second).2
  rw [recordStringTableReferences] at recorded
  cases kind : place.sym.kind with
  | filestatic =>
    rw [kind] at recorded writes
    obtain ⟨small, record, written⟩ := writes rfl
    refine ⟨_, record, written, ?_⟩
    have offset : a.moduleSymOffset = writer.written.length + p.storage.size := by
      rw [meets, uint32, Nat.mod_eq_of_lt (by omega)]
    rw [List.mem_singleton.mp recorded, offset]
  | _ =>
    rw [kind] at recorded
    cases recorded

private theorem proc_exact (balanced : file.ScopesBalanced) (complete : place.complete = true)
    (contains : place.sec.Contains place.sym) (procedure : isProcedure place.sym.kind = true)
    {w w' : StreamWriter} (magic : w.written.length = kSymbolStreamMagicSize)
    (word : w.length < 2 ^ 32) (done : writeAllModuleSymbolRecords file w = .ok w')
    {record global : Bytes} (stages : place.Stages record global) :
    ∃ offset, place.Written w w' offset record ∧
      (symbolKind record = .gproc32 → global = procRefRecord 0x1125 offset (file.moduleIndex + 1)
        ((getSymbolName record).getD [])) ∧
      (symbolKind record = .lproc32 → global = procRefRecord 0x1127 offset (file.moduleIndex + 1)
        ((getSymbolName record).getD [])) := by
  obtain ⟨a, first, -, rewritten, made⟩ := stages
  obtain ⟨writer, p, second, writes⟩ := place.written_of_ok complete word done
  have meets := (place.passes_meet balanced complete first magic second).2
  have goes : ∀ depth, symbolGoesInModuleStream place.sym.kind depth = true := by
    intro depth
    cases kind : place.sym.kind <;> first | rfl | (rw [kind] at procedure; cases procedure)
  obtain ⟨small, other, written⟩ := writes (goes _)
  have offset : a.moduleSymOffset = writer.written.length + p.storage.size := by
    rw [meets, uint32, Nat.mod_eq_of_lt (by omega)]
  -- the two passes have other relocations left, but write the same record
  have same : other = record := by
    obtain ⟨⟨writer', p', second', _, rfl, -, rewritten', -⟩, -⟩ := written
    rw [second'] at second
    cases second
    have index := place.second_index second'
    rw [← (trackScope_eq _ (pops_scopeStackClose (uint32 writer.written.length)) p
      place.sym).2.2] at index
    rw [rewrite_agree place.before_record.2.2.2 contains index (place.first_index first) _
      ⟨a.heap, 0⟩, rewritten] at rewritten'
    cases rewritten'
    rfl
  subst same
  refine ⟨_, written, ?_, ?_⟩
  · intro kind
    rw [makeGlobalsStreamRecord, kind] at made
    cases made
    rw [offset]
  · intro kind
    rw [makeGlobalsStreamRecord, kind] at made
    cases made
    rw [offset]

end RecordPlace

/-! ### Where fixups and globals come from -/

/-- All that has been gathered so far was taken at some record. -/
structure Gathered (file : SymbolFile) (a : Analysis) : Prop where
  moduleIndex : a.dsh.moduleIndex = file.moduleIndex
  fixups : ∀ fixup ∈ a.stringTableFixups, ∃ place : RecordPlace file, place.Records fixup
  globals : ∀ g ∈ a.dsh.pendingGlobals, ∃ (place : RecordPlace file) (record global : Bytes)
    (offset : Nat), place.Stages record global ∧ g.offset = uint32 offset ∧
      g.size = uint32 global.length ∧ offset + global.length ≤ a.dsh.globalsStorage.length ∧
      a.dsh.globalsStorage.slice offset global.length = global

private theorem slice_append_left {front back : Bytes} {i n : Nat} (inside : i + n ≤ front.length) :
    (front ++ back).slice i n = front.slice i n := by
  rw [Bytes.slice, Bytes.slice, List.drop_append_of_le_length (by omega),
    List.take_append_of_le_length (by rw [List.length_drop]; omega)]

section Gather

variable {file : SymbolFile}

private theorem copyGlobal_gathered (place : RecordPlace file) {a b : Analysis}
    (first : place.first = .ok a)
    (goes : symbolGoesInGlobalsStream place.sym.kind (nextLevel a.scopeLevel place.sym) = true)
    (gathered : Gathered file a)
    (done : place.sec.chunk.copyGlobal { a with scopeLevel := nextLevel a.scopeLevel place.sym }
      place.sym = .ok b) : Gathered file b ∧ b.moduleSymOffset = a.moduleSymOffset := by
  refine ⟨?_, (copyGlobal_keeps done).2⟩
  rw [DebugChunk.copyGlobal, bind_ok_iff] at done
  obtain ⟨⟨storage, next⟩, written, done⟩ := done
  rw [bind_ok_iff] at done
  obtain ⟨dsh, staged, done⟩ := done
  cases done
  -- The record is rewritten on the heap, and made into a record of the globals stream from there.
  obtain ⟨global, made, staged⟩ := bind_ok_iff.mp staged
  cases staged
  cases wrote : place.sec.chunk.writeSymbolRecord place.sym place.sym.alignedSize a.next
      ⟨a.heap, 0⟩ with
  | error text =>
    rw [wrote] at written
    cases written
  | ok result =>
    rw [wrote] at written
    cases written
    have size := (writeSymbolRecord_ok _ _ _ wrote).1
    rw [Nat.zero_add] at size
    dsimp only at made ⊢
    rw [size] at made
    have rewritten : place.sec.chunk.rewrite place.sym a.next ⟨a.heap, 0⟩ =
        .ok (readBytes storage.mem 0 place.sym.alignedSize) := by
      rw [DebugChunk.rewrite, wrote]
      rfl
    -- The storage grows at its end: an earlier record stands, the new one is its last part.
    refine ⟨gathered.moduleIndex, gathered.fixups, fun g member => ?_⟩
    rcases List.mem_append.mp member with old | new
    · obtain ⟨place', record, other, offset, stages, start, length, inside, stands⟩ :=
        gathered.globals g old
      refine ⟨place', record, other, offset, stages, start, length, ?_, ?_⟩
      · dsimp only
        rw [List.length_append]
        omega
      · dsimp only
        rw [slice_append_left inside, stands]
    · obtain rfl := List.mem_singleton.mp new
      rw [gathered.moduleIndex] at made
      refine ⟨place, _, global, a.dsh.globalsStorage.length, ⟨a, first, goes, rewritten, made⟩, rfl,
        rfl, ?_, ?_⟩
      · dsimp only
        rw [List.length_append]
      · dsimp only
        rw [Bytes.slice, List.drop_left, List.take_length]

private theorem analyzeSymbol_gathered (place : RecordPlace file) {a a' : Analysis}
    (first : place.first = .ok a) (gathered : Gathered file a)
    (done : place.sec.chunk.analyzeSymbol a place.sym = .ok a') : Gathered file a' := by
  -- counting the record adds its fixups, which is what being gathered allows
  have counted : ∀ b : Analysis, Gathered file b → b.moduleSymOffset = a.moduleSymOffset →
      b.scopeLevel = nextLevel a.scopeLevel place.sym →
      Gathered file (countModule b place.sym) := by
    intro b gathered offset level
    rw [countModule]
    split
    · rename_i goes
      refine ⟨gathered.moduleIndex, fun fixup member => ?_, gathered.globals⟩
      rcases List.mem_append.mp member with old | new
      · exact gathered.fixups fixup old
      · rw [offset] at new
        rw [level] at goes
        exact ⟨place, a, first, goes, new⟩
    · exact gathered
  rw [DebugChunk.analyzeSymbol] at done
  split at done
  · rename_i goes
    obtain ⟨b, copied, done⟩ := bind_ok_iff.mp done
    cases done
    obtain ⟨gathered, offset⟩ := copyGlobal_gathered place first goes gathered copied
    exact counted b gathered offset (copyGlobal_keeps copied).1
  · cases done
    exact counted _ ⟨gathered.moduleIndex, gathered.fixups, gathered.globals⟩ rfl rfl

private theorem handleSubsection_gathered {before behind : List DebugSection} {sec : DebugSection}
    {earlier later : List Subsection} {ss : Subsection} {h₀ h h' : Handler}
    (chunks_eq : file.debugChunks = before ++ sec :: behind) (isDebugS : sec.isDebugS = true)
    (subsections_eq : sec.subsections = .ok (earlier ++ ss :: later))
    (outer : before.foldlM handleChunk (.init file.moduleIndex) = .ok h₀)
    (inner : earlier.foldlM (handleSubsection sec)
      { h₀ with analysis := { h₀.analysis with next := sec.relocs } } = .ok h)
    (gathered : Gathered file h.analysis) (done : handleSubsection sec h ss = .ok h') :
    Gathered file h'.analysis := by
  rw [handleSubsection] at done
  cases kind : SubsectionKind.ofCode ss.kind with
  | symbols =>
    rw [kind] at done
    simp only [bind_ok_iff] at done
    obtain ⟨analysis, analyzed, done⟩ := done
    cases done
    rw [DebugChunk.analyzeSymbolSubsection, bind_ok_iff] at analyzed
    obtain ⟨a, walked, analyzed⟩ := analyzed
    have walked : Gathered file a := by
      refine foldlM_comes (I := Gathered file) ?_ ?_ walked
      · rintro sym a a' ⟨front, rest, records_eq, reached⟩ gathered here
        let place : RecordPlace file :=
          { before, sec, behind, chunks_eq, isDebugS, earlier, ss, later, subsections_eq
            symbols := kind, front, sym, rest, records_eq }
        exact analyzeSymbol_gathered place
          (bind_ok_iff.mpr ⟨h, bind_ok_iff.mpr ⟨h₀, outer, inner⟩, reached⟩) gathered here
      · exact ⟨gathered.moduleIndex, gathered.fixups, gathered.globals⟩
    cases analyzed
    dsimp only
    -- of a corrupt subsection all of it is kept
    split
    · exact walked
    · exact ⟨walked.moduleIndex, walked.fixups, walked.globals⟩
  | _ =>
    rw [kind] at done
    cases done
    exact ⟨gathered.moduleIndex, gathered.fixups, gathered.globals⟩

private theorem analyzeChunks_gathered {h : Handler} (done : analyzeChunks file = .ok h) :
    Gathered file h.analysis := by
  refine foldlM_comes (I := fun h : Handler => Gathered file h.analysis) ?_ ?_ done
  · rintro sec h h' ⟨before, behind, chunks_eq, reached⟩ gathered here
    rw [handleChunk] at here
    split at here
    · rename_i isDebugS
      rw [handleDebugS, bind_ok_iff] at here
      obtain ⟨subsections, listed, here⟩ := here
      refine foldlM_comes (I := fun h : Handler => Gathered file h.analysis) ?_ ?_ here
      · rintro ss h₁ h₂ ⟨earlier, later, rfl, inner⟩ gathered here
        exact handleSubsection_gathered chunks_eq isDebugS listed reached inner gathered here
      · exact ⟨gathered.moduleIndex, gathered.fixups, gathered.globals⟩
    · split at here
      · cases here
        exact gathered
      · cases here
        exact gathered
  · exact ⟨rfl, fun _ none => absurd none List.not_mem_nil, fun _ none => absurd none List.not_mem_nil⟩

end Gather

theorem Gathered.published {file : SymbolFile} {a : Analysis} (gathered : Gathered file a)
    (small : a.dsh.globalsStorage.length < 2 ^ 32) :
    ∀ global ∈ a.dsh.published, ∃ (place : RecordPlace file) (record : Bytes),
      place.Stages record global := by
  intro global member
  obtain ⟨g, pending, rfl⟩ := List.mem_map.mp member
  obtain ⟨place, record, global, offset, stages, start, length, inside, stands⟩ :=
    gathered.globals g pending
  refine ⟨place, record, ?_⟩
  rw [start, length, uint32, uint32, Nat.mod_eq_of_lt (by omega), Nat.mod_eq_of_lt (by omega), stands]
  exact stages

/-- In a file with balanced scopes, each offset that was taken in a subsection that is not corrupt
names the record that it was taken for. -/
theorem symbolOffsets_exact (file : SymbolFile) (balanced : file.ScopesBalanced) {h : Handler}
    (first : analyzeChunks file = .ok h) {w w' : StreamWriter}
    (magic : w.written.length = kSymbolStreamMagicSize) (word : w.length < 2 ^ 32)
    (second : writeAllModuleSymbolRecords file w = .ok w') : file.OffsetsExact h w w' where
  fixup_recorded := (analyzeChunks_gathered first).fixups
  fixup_exact := fun place _ complete recorded =>
    place.fixup_exact balanced complete magic word second recorded
  global_staged := fun small => (analyzeChunks_gathered first).published small
  proc_exact := fun place _ _ complete contains procedure stages =>
    place.proc_exact balanced complete contains procedure magic word second stages

/-- An `S_FILESTATIC` of the file name at 7. -/
def fileStatic : Bytes := [14, 0, 0x53, 0x11, 0x74, 0, 0, 0, 7, 0, 0, 0, 0, 0, 0x61, 0]

/-- An `S_GPROC32` of the procedure `main`. -/
def mainProc : Bytes :=
  [42, 0, 0x10, 0x11] ++ List.replicate 24 0 ++ [0x74, 0, 0, 0] ++ List.replicate 7 0 ++
    [0x6d, 0x61, 0x69, 0x6e, 0]

def scopeEnd : Bytes := [2, 0, 6, 0]

theorem smallUnit_small : (pointingChunk 2 128 0).getSize < 2 ^ 32 := by decide

theorem noRelocs_sorted :
    ([] : List Relocation).Pairwise (fun r s => r.virtualAddress ≤ s.virtualAddress) := .nil

/-- A procedure and an `S_FILESTATIC`. -/
def smallUnit : SymbolFile where
  debugChunks :=
    [{ chunk :=
        { oneRecord ([4, 0, 0, 0, 0xF1, 0, 0, 0, 64, 0, 0, 0] ++ mainProc ++ scopeEnd ++ fileStatic) with
          c := pointingChunk 2 128 0 }
       name := ".debug$S"
       live := true
       relocs := []
       sorted := noRelocs_sorted
       size_lt := smallUnit_small }]
  moduleIndex := 0

private theorem smallUnit_balanced : smallUnit.ScopesBalanced := by
  intro sec member _ subsections listed ss inList _
  obtain rfl := List.mem_singleton.mp member
  cases listed
  obtain rfl := List.mem_singleton.mp inList
  have procedure : opensScope ⟨12, mainProc⟩ = true := by decide
  have ended : endsScope ⟨56, scopeEnd⟩ = true := by decide
  have variable_ : opensScope ⟨60, fileStatic⟩ = false ∧ endsScope ⟨60, fileStatic⟩ = false := by
    decide
  exact .nest _ [] _ _ procedure ended .nil (.plain _ _ variable_.1 variable_.2 .nil)

theorem smallUnit_offsets : ∃ h w w', analyzeChunks smallUnit = .ok h ∧
    h.analysis.stringTableFixups = [(7, 60)] ∧ writeAllModuleSymbolRecords smallUnit w = .ok w' ∧
    smallUnit.OffsetsExact h w w' := by
  obtain ⟨h, first, fixups⟩ : ∃ h, analyzeChunks smallUnit = .ok h ∧
      h.analysis.stringTableFixups = [(7, 60)] := ⟨_, rfl, rfl⟩
  obtain ⟨w', second⟩ : ∃ w', writeAllModuleSymbolRecords smallUnit ⟨128, [4, 0, 0, 0]⟩ = .ok w' :=
    ⟨_, rfl⟩
  exact ⟨h, ⟨128, [4, 0, 0, 0]⟩, w', first, fixups, second,
    symbolOffsets_exact smallUnit smallUnit_balanced first rfl (by decide) second⟩

/-! ### Corrupt subsections -/

/-- Each fixup points into its record, whether the subsection is corrupt or not. -/
def SymbolFile.FixupsPoint (file : SymbolFile) (w w' : StreamWriter) : Prop :=
  ∀ (place : RecordPlace file) fixup, place.Records fixup →
    ∃ offset record, place.Written w w' offset record ∧
      fixup = (place.sym.data.u32At 8, uint32 (offset + 8))

/-- Each reference to a global procedure names its record, in the same way. -/
def SymbolFile.ProcsPoint (file : SymbolFile) (w w' : StreamWriter) : Prop :=
  ∀ (place : RecordPlace file) record global, isProcedure place.sym.kind = true →
    place.Stages record global → symbolKind record = .gproc32 →
    ∃ offset, place.Written w w' offset record ∧ global = procRefRecord 0x1125 offset
      (file.moduleIndex + 1) ((getSymbolName record).getD [])

def cutOffSection : DebugSection where
  chunk :=
    { oneRecord ([4, 0, 0, 0, 0xF1, 0, 0, 0, 65, 0, 0, 0] ++ fileStatic ++ mainProc ++ scopeEnd ++
        [1]) with
      c := pointingChunk 2 128 0 }
  name := ".debug$S"
  live := true
  relocs := []
  sorted := noRelocs_sorted
  size_lt := smallUnit_small

/-- An `S_FILESTATIC`, a procedure and a byte that is no record. -/
def cutOff : SymbolFile := ⟨[cutOffSection], 0⟩

def cutOffStatic : RecordPlace cutOff where
  before := []
  sec := cutOffSection
  behind := []
  chunks_eq := rfl
  isDebugS := rfl
  earlier := []
  ss := ⟨0xF1, 12, 65⟩
  later := []
  subsections_eq := rfl
  symbols := rfl
  front := []
  sym := ⟨12, fileStatic⟩
  rest := [⟨28, mainProc⟩, ⟨72, scopeEnd⟩]
  records_eq := rfl

def cutOffProc : RecordPlace cutOff :=
  { cutOffStatic with
    front := [⟨12, fileStatic⟩]
    sym := ⟨28, mainProc⟩
    rest := [⟨72, scopeEnd⟩]
    records_eq := rfl }

/-- The stream in front of the object's symbols and behind them. -/
def magicOnly : StreamWriter := ⟨128, [4, 0, 0, 0]⟩

private theorem cutOffStatic_not_written {offset : Nat} {record : Bytes} :
    ¬ cutOffStatic.Written magicOnly magicOnly offset record := by
  rintro ⟨⟨writer, p, second, p', tracked, -, rewritten, stream⟩, stands⟩
  have reached : cutOffStatic.second magicOnly = .ok (magicOnly, ⟨⟨fun _ => 0, 0⟩, [], []⟩) := rfl
  obtain ⟨stream_eq, p_eq⟩ := Prod.mk.inj (Except.ok.inj (second.symm.trans reached))
  rw [stream_eq, p_eq] at stream
  rw [tracked, stream_eq, p_eq] at rewritten
  have same : fileStatic = record := Except.ok.inj rewritten
  have cell := stands 8 (by rw [← same]; decide) (by decide)
  rw [stream, ← same] at cell
  exact absurd cell (by decide)

private theorem cutOffProc_not_written {offset : Nat} :
    ¬ cutOffProc.Written magicOnly magicOnly offset mainProc := by
  rintro ⟨⟨writer, p, second, p', -, -, -, stream⟩, stands⟩
  obtain ⟨p₀, reached, size⟩ : ∃ p, cutOffProc.second magicOnly = .ok (magicOnly, p) ∧
      p.storage.size = 16 := ⟨_, rfl, rfl⟩
  obtain ⟨stream_eq, p_eq⟩ := Prod.mk.inj (Except.ok.inj (second.symm.trans reached))
  rw [stream_eq, p_eq, size] at stream
  have cell := stands 28 (by decide) (by decide)
  rw [stream] at cell
  exact absurd cell (by decide)

private theorem cutOff_balanced : cutOff.ScopesBalanced := by
  intro sec member _ subsections listed ss inList _
  obtain rfl := List.mem_singleton.mp member
  cases listed
  obtain rfl := List.mem_singleton.mp inList
  have procedure : opensScope ⟨28, mainProc⟩ = true := by decide
  have ended : endsScope ⟨72, scopeEnd⟩ = true := by decide
  have variable_ : opensScope ⟨12, fileStatic⟩ = false ∧ endsScope ⟨12, fileStatic⟩ = false := by
    decide
  exact .plain _ _ variable_.1 variable_.2 (.nest _ [] _ _ procedure ended .nil .nil)

/-- The fixup and the reference are kept although the records are not written. -/
theorem cutOff_astray : cutOff.ScopesBalanced ∧ ∃ h w w', analyzeChunks cutOff = .ok h ∧
    h.analysis.stringTableFixups = [(7, 12)] ∧ h.analysis.dsh.published.length = 1 ∧
    w.written.length = kSymbolStreamMagicSize ∧ w.length < 2 ^ 32 ∧
    writeAllModuleSymbolRecords cutOff w = .ok w' ∧
    ¬ cutOff.FixupsPoint w w' ∧ ¬ cutOff.ProcsPoint w w' := by
  refine ⟨cutOff_balanced, ?_⟩
  obtain ⟨h, first, fixups, globals⟩ : ∃ h, analyzeChunks cutOff = .ok h ∧
      h.analysis.stringTableFixups = [(7, 12)] ∧ h.analysis.dsh.published.length = 1 :=
    ⟨_, rfl, rfl, rfl⟩
  refine ⟨h, magicOnly, magicOnly, first, fixups, globals, rfl, by decide, rfl, ?_, ?_⟩
  -- the fixup of the S_FILESTATIC points at a record that was never written
  · intro points
    obtain ⟨a, here, place⟩ : ∃ a, cutOffStatic.first = .ok a ∧ a.moduleSymOffset = 4 :=
      ⟨_, rfl, rfl⟩
    have kind : cutOffStatic.sym.kind = .filestatic := by decide
    have recorded : cutOffStatic.Records (7, 12) := by
      refine ⟨a, here, by rw [kind]; rfl, ?_⟩
      rw [recordStringTableReferences, kind, place]
      exact List.mem_singleton.mpr rfl
    obtain ⟨offset, record, written, -⟩ := points cutOffStatic (7, 12) recorded
    exact cutOffStatic_not_written written
  · intro points
    obtain ⟨a, here, rewritten⟩ : ∃ a, cutOffProc.first = .ok a ∧
        cutOffProc.sec.chunk.rewrite cutOffProc.sym a.next ⟨a.heap, 0⟩ = .ok mainProc :=
      ⟨_, rfl, rfl⟩
    have kind : cutOffProc.sym.kind = .gproc32 := by decide
    have made : makeGlobalsStreamRecord 0 a.moduleSymOffset mainProc = .ok (procRefRecord 0x1125
        a.moduleSymOffset 1 ((getSymbolName mainProc).getD [])) := by
      have proc : symbolKind mainProc = .gproc32 := kind
      rw [makeGlobalsStreamRecord, proc]
    obtain ⟨offset, written, -⟩ := points cutOffProc mainProc _ (by rw [kind]; rfl)
      ⟨a, here, by rw [kind]; rfl, rewritten, made⟩ kind
    exact cutOffProc_not_written written

end LlvmLd.Pdb
