import LlvmLd.Pdb.ModuleStream

/-!
# The modules of all objects

What `addObjectsToPDB` leaves in the modules of the objects: the symbols that are reserved, the words
that will be rewritten in them, and the subsections.

Proof strategy: nothing but its own `finish` touches the module of an object. The object is analyzed
and written with the same type maps, so what has been counted is what will be written.
-/

namespace LlvmLd.Pdb

open Brackets Codeview Memory Outcome Writer
open Gsi (StreamWriter)
open DebugSection

/-! ### The analysis, and the object with its maps -/

def Unrelocated.withSource (source : TpiSource) (u : Unrelocated) : Unrelocated :=
  { u with debugChunk := u.debugChunk.withSource source }

def Handler.withSource (source : TpiSource) (h : Handler) : Handler :=
  { h with
    debugFChunks := h.debugFChunks.map (·.withSource source)
    frameDataSubsecs := h.frameDataSubsecs.map (·.withSource source)
    debugSubsections := h.debugSubsections.map (·.withSource source) }

section WithSource

variable (source : TpiSource)

private theorem handleSubsection_withSource (sec : DebugSection) (h : Handler) (ss : Subsection) :
    (handleSubsectionWith source sec h ss).map (·.withSource source) =
      handleSubsection (sec.withSource source) (h.withSource source) ss := by
  rw [handleSubsectionWith]
  split
  · next kind =>
    rw [handleSubsection, kind]
    have same : (sec.withSource source).chunk.analyzeSymbolSubsection ss.vaBegin ss.length
        (h.withSource source).analysis = (sec.chunk.withSource source).analyzeSymbolSubsection
          ss.vaBegin ss.length h.analysis := rfl
    dsimp only
    rw [same]
    cases (sec.chunk.withSource source).analyzeSymbolSubsection ss.vaBegin ss.length h.analysis with
    | error halt => rfl
    | ok analysis => rfl
  · next other =>
    rw [handleSubsection, handleSubsection]
    -- the other subsections keep their bytes for the source of the chunk
    cases kind : SubsectionKind.ofCode ss.kind with
    | symbols => exact absurd kind other
    | lines | inlineeLines | frameData =>
      apply congrArg Except.ok
      simp only [Handler.withSource, List.map_append]
      rfl
    | _ => rfl

private theorem handleChunk_withSource (sec : DebugSection) (h : Handler) :
    (handleChunkWith source h sec).map (·.withSource source) =
      handleChunk (h.withSource source) (sec.withSource source) := by
  have same : (sec.withSource source).isDebugS = sec.isDebugS := rfl
  rw [handleChunkWith]
  split
  · rename_i isDebugS
    have listed : (sec.withSource source).subsections = sec.subsections := rfl
    rw [handleChunk, same, if_pos isDebugS, handleDebugS, listed]
    cases sec.subsections with
    | error halt => rfl
    | ok subsections =>
      exact foldlM_map_view (fun h ss => handleSubsection_withSource source sec h ss) subsections
        (h.enter sec)
  · rename_i otherName
    have sameF : (sec.withSource source).isDebugF = sec.isDebugF := rfl
    rw [handleChunk, handleChunk, same, if_neg otherName, if_neg otherName, sameF]
    split
    · apply congrArg Except.ok
      simp only [Handler.withSource, List.map_append]
      rfl
    · rfl

/-- The maps of an analysis may as well be those of the object. -/
theorem analyzeChunks_withSource (file : SymbolFile) :
    (analyzeChunksWith source file).map (·.withSource source) =
      analyzeChunks (file.withSource source) := by
  rw [analyzeChunks, analyzeChunksWith, SymbolFile.withSource, List.foldlM_map]
  exact foldlM_map_view (fun h sec => handleChunk_withSource source sec h) file.debugChunks
    (.init file.moduleIndex)

end WithSource

/-! ### The fixups of an object -/

private theorem analyzeSymbol_fixups {d : DebugChunk} {a a' : Analysis} {sym : PlacedRecord}
    (done : d.analyzeSymbol a sym = .ok a') :
    a'.stringTableFixups = a.stringTableFixups ++
      if symbolGoesInModuleStream sym.kind (nextLevel a.scopeLevel sym) then
        recordStringTableReferences sym a.moduleSymOffset else [] := by
  -- counting reads the level and the offset that copying a global keeps
  have counted : ∀ b : Analysis, b.scopeLevel = nextLevel a.scopeLevel sym →
      b.moduleSymOffset = a.moduleSymOffset → b.stringTableFixups = a.stringTableFixups →
      (countModule b sym).stringTableFixups = a.stringTableFixups ++
        if symbolGoesInModuleStream sym.kind (nextLevel a.scopeLevel sym) then
          recordStringTableReferences sym a.moduleSymOffset else [] := by
    intro b level offset fixups
    rw [countModule, level, offset]
    split
    · rw [← fixups]
    · rw [← fixups, List.append_nil]
  rw [DebugChunk.analyzeSymbol] at done
  split at done
  · obtain ⟨b, copied, done⟩ := bind_ok_iff.mp done
    cases done
    obtain ⟨level, offset⟩ := copyGlobal_keeps copied
    refine counted b level offset ?_
    rw [DebugChunk.copyGlobal, bind_ok_iff] at copied
    obtain ⟨_, -, copied⟩ := copied
    obtain ⟨_, -, copied⟩ := bind_ok_iff.mp copied
    cases copied
    rfl
  · cases done
    exact counted _ rfl rfl rfl

private theorem analyze_grows {d : DebugChunk} {a a' : Analysis} {records : List PlacedRecord}
    (done : records.foldlM d.analyzeSymbol a = .ok a') :
    a.stringTableFixups <+: a'.stringTableFixups := by
  refine foldlM_keeps (I := fun _ a' => a.stringTableFixups <+: a'.stringTableFixups) ?_ []
    List.prefix_rfl done
  intro _ a₁ a₂ sym _ before here
  rw [analyzeSymbol_fixups here]
  exact before.trans (List.prefix_append _ _)

/-- The fixups of a corrupt subsection stay, too. -/
theorem handleSubsection_grows {sec : DebugSection} {h h' : Handler} {ss : Subsection}
    (done : handleSubsection sec h ss = .ok h') :
    h.analysis.stringTableFixups <+: h'.analysis.stringTableFixups := by
  rw [handleSubsection] at done
  cases kind : SubsectionKind.ofCode ss.kind with
  | symbols =>
    rw [kind] at done
    simp only [bind_ok_iff] at done
    obtain ⟨analysis, analyzed, done⟩ := done
    cases done
    rw [DebugChunk.analyzeSymbolSubsection, bind_ok_iff] at analyzed
    obtain ⟨a, walked, analyzed⟩ := analyzed
    have grown := analyze_grows walked
    cases analyzed
    dsimp only
    split
    · exact grown
    · exact grown
  | _ =>
    rw [kind] at done
    cases done
    exact List.prefix_rfl

private theorem subsections_grow {sec : DebugSection} {h h' : Handler}
    {subsections : List Subsection} (done : subsections.foldlM (handleSubsection sec) h = .ok h') :
    h.analysis.stringTableFixups <+: h'.analysis.stringTableFixups :=
  foldlM_keeps (I := fun _ h' => h.analysis.stringTableFixups <+: h'.analysis.stringTableFixups)
    (fun _ _ _ _ _ before here => before.trans (handleSubsection_grows here)) [] List.prefix_rfl done

private theorem handleChunk_grows {sec : DebugSection} {h h' : Handler}
    (done : handleChunk h sec = .ok h') :
    h.analysis.stringTableFixups <+: h'.analysis.stringTableFixups := by
  rw [handleChunk] at done
  split at done
  · rw [handleDebugS, bind_ok_iff] at done
    obtain ⟨subsections, -, done⟩ := done
    exact subsections_grow (h := { h with analysis := { h.analysis with next := sec.relocs } }) done
  · split at done
    · cases done
      exact List.prefix_rfl
    · cases done
      exact List.prefix_rfl

private theorem chunks_grow {h h' : Handler} {chunks : List DebugSection}
    (done : chunks.foldlM handleChunk h = .ok h') :
    h.analysis.stringTableFixups <+: h'.analysis.stringTableFixups :=
  foldlM_keeps (I := fun _ h' => h.analysis.stringTableFixups <+: h'.analysis.stringTableFixups)
    (fun _ _ _ _ _ before here => before.trans (handleChunk_grows here)) [] List.prefix_rfl done

namespace RecordPlace

variable {file : SymbolFile} (place : RecordPlace file)

/-- The analysis comes to the record, and the fixups that it takes there stay. -/
theorem first_of_ok {h : Handler} (done : analyzeChunks file = .ok h) :
    ∃ a, place.first = .ok a ∧ ∀ fixup,
      symbolGoesInModuleStream place.sym.kind (nextLevel a.scopeLevel place.sym) = true →
      fixup ∈ recordStringTableReferences place.sym a.moduleSymOffset →
      fixup ∈ h.analysis.stringTableFixups := by
  rw [analyzeChunks, place.chunks_eq] at done
  obtain ⟨h₁, h₂, before, here, behind⟩ := comesTo_of_ok done
  rw [handleChunk, if_pos place.isDebugS, handleDebugS, place.subsections_eq] at here
  obtain ⟨g₁, g₂, earlier, here, later⟩ := comesTo_of_ok here
  rw [handleSubsection, place.symbols] at here
  obtain ⟨analysis, analyzed, ended⟩ := bind_ok_iff.mp here
  cases ended
  rw [DebugChunk.analyzeSymbolSubsection, bind_ok_iff] at analyzed
  obtain ⟨a, walked, analyzed⟩ := analyzed
  have walk := place.records_eq
  have listed : (place.sec.chunk.symbolsAt place.ss.vaBegin place.ss.length).1.foldlM
    place.sec.chunk.analyzeSymbol { g₁.analysis with scopeLevel := 0 } = .ok a := walked
  rw [walk] at listed
  -- the state in front of the record, and the one right behind it
  obtain ⟨a₁, a₂, front, visit, rest⟩ := comesTo_of_ok listed
  refine ⟨a₁, bind_ok_iff.mpr ⟨g₁, bind_ok_iff.mpr ⟨h₁, before, earlier⟩, front⟩, ?_⟩
  intro fixup goes member
  have taken : fixup ∈ a₂.stringTableFixups := by
    rw [analyzeSymbol_fixups visit, if_pos goes]
    exact List.mem_append_right _ member
  have kept : a.stringTableFixups = analysis.stringTableFixups := by
    cases analyzed
    split
    · rfl
    · rfl
  -- no later step takes a fixup away, so it is still there in the end
  have after := (analyze_grows rest).subset taken
  rw [kept] at after
  exact (chunks_grow behind).subset ((subsections_grow later).subset after)

end RecordPlace

/-! ### Objects that the compiler has made well -/

/-- A subsection that is not corrupt: scopes nest, and records and lines have the fields that are
rewritten in them. -/
structure DebugSection.SoundSubsection (sec : DebugSection) (ss : Subsection) : Prop where
  complete : SubsectionKind.ofCode ss.kind = .symbols →
    (sec.chunk.symbolsAt ss.vaBegin ss.length).2 = true
  balanced : SubsectionKind.ofCode ss.kind = .symbols →
    Balanced opensScope endsScope (sec.chunk.symbolsAt ss.vaBegin ss.length).1
  statics : SubsectionKind.ofCode ss.kind = .symbols →
    ∀ sym ∈ (sec.chunk.symbolsAt ss.vaBegin ss.length).1, sym.kind = .filestatic →
      12 ≤ sym.data.length
  inlinees : SubsectionKind.ofCode ss.kind = .inlineeLines → 4 ≤ ss.length

def SymbolFile.Sound (file : SymbolFile) : Prop :=
  ∀ sec ∈ file.debugChunks, sec.isDebugS = true → ∀ subsections, sec.subsections = .ok subsections →
    ∀ ss ∈ subsections, sec.SoundSubsection ss

theorem SymbolFile.Sound.scopesBalanced {file : SymbolFile} (sound : file.Sound) :
    file.ScopesBalanced :=
  fun sec inFile isDebugS subsections listed ss inList symbols =>
    (sound sec inFile isDebugS subsections listed ss inList).balanced symbols

theorem SymbolFile.Sound.withSource {file : SymbolFile} (sound : file.Sound) (source : TpiSource) :
    (file.withSource source).Sound := by
  intro sec inFile isDebugS subsections listed ss inList
  obtain ⟨own, there, rfl⟩ := List.mem_map.mp inFile
  obtain ⟨complete, balanced, statics, inlinees⟩ :=
    sound own there isDebugS subsections listed ss inList
  exact ⟨complete, balanced, statics, inlinees⟩

theorem SymbolFile.Sound.place {file : SymbolFile} (sound : file.Sound) (place : RecordPlace file) :
    place.sec.SoundSubsection place.ss :=
  sound place.sec (by rw [place.chunks_eq]; simp) place.isDebugS _ place.subsections_eq place.ss
    (by simp)

/-- `n` bytes have been counted, and the fixups among them do not overlap. -/
structure FixupsApart (a : Analysis) (n : Nat) : Prop where
  offset : a.moduleSymOffset = uint32 n
  places : ∃ places : List Nat, a.stringTableFixups.map Prod.snd = places.map uint32 ∧
    places.Pairwise (fun p q => p + 4 ≤ q) ∧ ∀ p ∈ places, p + 4 ≤ n

private theorem analyzeSymbol_apart {d : DebugChunk} {a a' : Analysis} {sym : PlacedRecord}
    {n : Nat} (apart : FixupsApart a n) (whole : sym.kind = .filestatic → 12 ≤ sym.data.length)
    (done : d.analyzeSymbol a sym = .ok a') :
    a'.scopeLevel = (countStep (a.scopeLevel, n) sym).1 ∧
      FixupsApart a' (countStep (a.scopeLevel, n) sym).2 := by
  obtain ⟨offset, places, fixups, pairwise, inside⟩ := apart
  obtain ⟨level, offset'⟩ := analyzeSymbol_offset offset done
  refine ⟨level, offset', ?_⟩
  have added := analyzeSymbol_fixups done
  rw [countStep]
  dsimp only
  by_cases goes : symbolGoesInModuleStream sym.kind (nextLevel a.scopeLevel sym) = true
  · rw [if_pos goes] at added ⊢
    rw [recordStringTableReferences] at added
    -- only an S_FILESTATIC has a reference, eight bytes into its record
    cases kind : sym.kind with
    | filestatic =>
      rw [kind] at added
      have room := alignedSize_ge sym
      have long := whole kind
      refine ⟨places ++ [n + 8], ?_, ?_, ?_⟩
      · rw [added, List.map_append, List.map_append, fixups, offset]
        refine congrArg _ (congrArg (fun p => [p]) ?_)
        show uint32 (uint32 n + 8) = uint32 (n + 8)
        rw [uint32, uint32, uint32, Nat.mod_add_mod]
      · rw [List.pairwise_append]
        refine ⟨pairwise, List.pairwise_singleton _ _, fun p member q last => ?_⟩
        rw [List.mem_singleton.mp last]
        have before := inside p member
        omega
      · intro p member
        rcases List.mem_append.mp member with before | last
        · have earlier := inside p before
          omega
        · rw [List.mem_singleton.mp last]
          omega
    | _ =>
      rw [kind] at added
      refine ⟨places, ?_, pairwise, fun p member => Nat.le_trans (inside p member) (Nat.le_add_right ..)⟩
      rw [added]
      simpa using fixups
  · rw [if_neg goes] at added ⊢
    refine ⟨places, ?_, pairwise, inside⟩
    rw [added, List.append_nil, fixups]

private theorem analyze_apart {d : DebugChunk} {a a' : Analysis} {records : List PlacedRecord}
    {n : Nat} (apart : FixupsApart a n)
    (wholes : ∀ sym ∈ records, sym.kind = .filestatic → 12 ≤ sym.data.length)
    (done : records.foldlM d.analyzeSymbol a = .ok a') :
    FixupsApart a' (records.foldl countStep (a.scopeLevel, n)).2 := by
  have both : a'.scopeLevel = (records.foldl countStep (a.scopeLevel, n)).1 ∧
      FixupsApart a' (records.foldl countStep (a.scopeLevel, n)).2 := by
    refine foldlM_keeps (I := fun front b => b.scopeLevel = (front.foldl countStep (a.scopeLevel, n)).1 ∧
      FixupsApart b (front.foldl countStep (a.scopeLevel, n)).2) ?_ [] ⟨rfl, apart⟩ done
    rintro front b b' sym member ⟨level, apart⟩ here
    have next := analyzeSymbol_apart apart (wholes sym member) here
    rw [level] at next
    rw [List.foldl_append]
    exact next
  exact both.2

private theorem handleSubsection_apart {sec : DebugSection} {h h' : Handler} {ss : Subsection}
    {n : Nat} (apart : FixupsApart h.analysis n) (sound : sec.SoundSubsection ss)
    (done : handleSubsection sec h ss = .ok h') :
    FixupsApart h'.analysis (n + (sec.completeSymbols ss).elim 0 countedSize) := by
  rw [handleSubsection] at done
  rw [DebugSection.completeSymbols]
  cases kind : SubsectionKind.ofCode ss.kind with
  | symbols =>
    rw [kind] at done
    simp only [bind_ok_iff] at done
    obtain ⟨analysis, analyzed, done⟩ := done
    cases done
    rw [DebugChunk.analyzeSymbolSubsection, bind_ok_iff] at analyzed
    obtain ⟨a, walked, analyzed⟩ := analyzed
    -- the level starts at zero in each subsection and does not move the places
    have counted := analyze_apart (a := { h.analysis with scopeLevel := 0 })
      ⟨apart.offset, apart.places⟩ (sound.statics kind) walked
    rw [countStep_add] at counted
    have complete := sound.complete kind
    cases analyzed
    dsimp only
    rw [if_pos complete, if_pos ⟨rfl, complete⟩]
    exact counted
  | _ =>
    rw [kind] at done
    cases done
    exact ⟨apart.offset, apart.places⟩

private theorem analyzeChunks_apart {file : SymbolFile} (sound : file.Sound) {h : Handler}
    (done : analyzeChunks file = .ok h) :
    FixupsApart h.analysis (kSymbolStreamMagicSize + (file.symbols.map countedSize).sum) := by
  have start : FixupsApart (Handler.init file.moduleIndex).analysis kSymbolStreamMagicSize :=
    ⟨rfl, [], rfl, .nil, fun _ none => absurd none List.not_mem_nil⟩
  refine foldlM_keeps (I := fun done h => FixupsApart h.analysis (kSymbolStreamMagicSize +
    ((done.flatMap fun sec => if sec.isDebugS then sec.symbols else []).map countedSize).sum)) ?_ []
    start done
  intro done h h' sec inFile apart here
  rw [List.flatMap_append, List.map_append, List.sum_append, ← Nat.add_assoc, List.flatMap_singleton]
  generalize kSymbolStreamMagicSize + _ = n at apart ⊢
  rw [handleChunk] at here
  split at here
  -- a .debug$S section adds the records of its complete subsections, any other one none
  · rename_i isDebugS
    rw [handleDebugS, bind_ok_iff] at here
    obtain ⟨subsections, listed, here⟩ := here
    rw [if_pos isDebugS, DebugSection.symbols, listed]
    refine foldlM_keeps (I := fun done h => FixupsApart h.analysis
      (n + ((done.filterMap sec.completeSymbols).map countedSize).sum)) ?_ [] ?_ here
    · intro done h h' ss inList apart here
      have next := handleSubsection_apart apart (sound sec inFile isDebugS subsections listed ss inList)
        here
      rw [List.filterMap_append, List.map_append, List.sum_append, ← Nat.add_assoc]
      cases symbols : sec.completeSymbols ss with
      | none => simpa [symbols] using next
      | some records => simpa [symbols] using next
    · exact ⟨apart.offset, apart.places⟩
  · rename_i otherName
    rw [if_neg otherName]
    split at here
    · cases here
      exact apart
    · cases here
      exact apart

/-- The words that are rewritten in the symbols of a sound object. -/
theorem fixups_apart {file : SymbolFile} (sound : file.Sound) {h : Handler}
    (done : analyzeChunks file = .ok h)
    (small : kSymbolStreamMagicSize + file.moduleSize < 2 ^ 32) :
    h.analysis.moduleSymOffset = kSymbolStreamMagicSize + file.moduleSize ∧
      h.analysis.stringTableFixups.Pairwise (fun f g => f.2 + 4 ≤ g.2) ∧
      ∀ fixup ∈ h.analysis.stringTableFixups,
        fixup.2 + 4 ≤ kSymbolStreamMagicSize + file.moduleSize := by
  obtain ⟨offset, places, fixups, pairwise, inside⟩ := analyzeChunks_apart sound done
  have sums : (file.symbols.map countedSize).sum = file.moduleSize := by
    rw [SymbolFile.moduleSize]
    refine congrArg List.sum (List.map_congr_left fun records member => ?_)
    exact counted_eq_moduleSize (sound.scopesBalanced.symbols _ member) (symbols_short _ member)
  rw [sums] at offset inside
  have words : places.map uint32 = places := by
    rw [List.map_congr_left (g := id) fun p member => ?_, List.map_id]
    have below := inside p member
    exact Nat.mod_eq_of_lt (by omega)
  rw [words] at fixups
  refine ⟨offset.trans (Nat.mod_eq_of_lt small), ?_, fun fixup member => ?_⟩
  · rw [← fixups, List.pairwise_map] at pairwise
    exact pairwise
  · exact inside fixup.2 (fixups ▸ List.mem_map_of_mem member)

/-! ### What `finish` leaves in a module -/

/-- Entries take no more room than the stream that they are read from, with its padding. -/
theorem readChecksums_room (fuel offset : Nat) (stream : Bytes) :
    (((readChecksums fuel offset stream).1.map Prod.fst).map FileChecksumEntry.size).sum ≤
      alignTo stream.length 4 := by
  induction fuel generalizing offset stream with
  | zero => exact Nat.zero_le _
  | succ fuel ih =>
    rw [readChecksums]
    split
    · exact Nat.zero_le _
    cases extracted : extractChecksum stream with
    | none => exact Nat.zero_le _
    | some found =>
      obtain ⟨len, entry⟩ := found
      obtain ⟨rfl, -, fits⟩ := extractChecksum_some stream len entry extracted
      have near : entry.size < stream.length + 4 := by
        have below := alignTo_lt (fileChecksumEntryHeader + entry.checksum.length) 4 (by decide)
        simp only [FileChecksumEntry.size]
        omega
      have later := ih (offset + entry.size) (stream.drop entry.size)
      rw [List.length_drop] at later
      have whole := add_alignTo_sub stream.length entry.size (dvd_size entry) near
      dsimp only
      rw [List.map_cons, List.map_cons, List.sum_cons]
      change entry.size + _ ≤ _
      omega

/-- The new table has the size that has been counted, in 32 bits. -/
theorem addFiles_size {pdbMakeAbsolute : Bytes → Bytes} {cvStrTab : Bytes} {moduleIndex : Nat}
    {entries : List FileChecksumEntry} {b b' : Builders} {new : DebugChecksumsSubsection}
    (done : entries.foldlM (addFile pdbMakeAbsolute cvStrTab moduleIndex) (b, ⟨[], 0⟩) =
      .ok (b', new)) :
    new.commit.length = (entries.map FileChecksumEntry.size).sum ∧
      new.serializedSize = uint32 (entries.map FileChecksumEntry.size).sum := by
  -- an entry keeps its size when its name gets a new offset
  have step : (new.checksums.map FileChecksumEntry.size).sum =
      (entries.map FileChecksumEntry.size).sum ∧
      new.serializedSize = uint32 (entries.map FileChecksumEntry.size).sum := by
    refine foldlM_keeps (I := fun done (s : Builders × DebugChecksumsSubsection) =>
      (s.2.checksums.map FileChecksumEntry.size).sum = (done.map FileChecksumEntry.size).sum ∧
        s.2.serializedSize = uint32 (done.map FileChecksumEntry.size).sum) ?_ [] ⟨rfl, rfl⟩ done
    rintro front ⟨b, new⟩ s' fc - ⟨sizes, counted⟩ here
    rw [addFile] at here
    cases read : cvStrTab.cString fc.fileNameOffset with
    | none =>
      rw [read] at here
      cases here
    | some name =>
      rw [read] at here
      cases here
      have grown : ((front ++ [fc]).map FileChecksumEntry.size).sum =
          (front.map FileChecksumEntry.size).sum + fc.size := by
        rw [List.map_append, List.sum_append]
        rfl
      dsimp only at sizes counted
      rw [grown]
      constructor
      · simp only [List.map_append, List.sum_append, sizes]
        rfl
      · simp only [counted, uint32, Nat.mod_add_mod]
        rfl
  refine ⟨?_, step.2⟩
  rw [commit_eq_flatMap, List.length_flatMap, ← step.1]
  exact congrArg List.sum (List.map_congr_left fun e _ => length_padded e)

/-- A subsection has the magic and its header in front of it. -/
theorem subsections_room (sec : DebugSection) {subsections : List Subsection}
    (listed : sec.subsections = .ok subsections) :
    ∀ ss ∈ subsections, ss.length + 12 < 2 ^ 32 := by
  have size := sec.size_lt
  have whole : sec.contents.length ≤ sec.chunk.c.getSize := sec.chunk.w.contents_le sec.chunk.c
  -- The splitter rejects a length that goes past the end of the stream.
  have room : ∀ fuel pos stream, ∀ ss ∈ placeSubsections fuel pos stream,
      ss.length + 8 ≤ stream.length := by
    intro fuel
    induction fuel with
    | zero => exact fun _ _ _ none => absurd none List.not_mem_nil
    | succ fuel ih =>
      intro pos stream ss member
      rw [placeSubsections] at member
      split at member
      · cases member
      cases read : Input.extractSubsection stream with
      | none =>
        rw [read] at member
        cases member
      | some extracted =>
        obtain ⟨len, sub⟩ := extracted
        rw [read] at member
        rcases List.mem_cons.mp member with rfl | later
        · obtain ⟨sub', found, same⟩ := Option.map_eq_some_iff.mp read
          cases same
          have fits := Input.length_initialize stream sub found
          dsimp only
          omega
        · have inside := ih _ _ ss later
          rw [List.length_drop] at inside
          omega
  rw [DebugSection.subsections, Input.consumeDebugMagic] at listed
  -- Only a section with the magic is split; an empty or an unknown one has no subsection.
  by_cases empty : sec.contents.isEmpty
  · rw [if_pos empty] at listed
    cases listed
    exact fun _ none => absurd none List.not_mem_nil
  by_cases short : sec.contents.length < 4
  · rw [if_neg empty, if_pos short] at listed
    cases listed
  rw [if_neg empty, if_neg short] at listed
  by_cases unknown : sec.contents.u32At 0 ≠ Input.debugSectionMagic
  · rw [if_pos unknown] at listed
    cases listed
    exact fun _ none => absurd none List.not_mem_nil
  rw [if_neg unknown] at listed
  cases listed
  intro ss member
  have inside := room _ _ _ ss member
  rw [List.length_drop] at inside
  omega

/-- What the handler of a sound object keeps for its `finish`. -/
structure Handler.Fits (h : Handler) : Prop where
  inlinees : ∀ u ∈ h.debugSubsections, SubsectionKind.ofCode u.subsec.kind = .inlineeLines →
    4 ≤ u.subsec.length
  checksums : (h.checksums.getD []).length + 12 < 2 ^ 32

private theorem handleSubsection_fits {sec : DebugSection} {h h' : Handler} {ss : Subsection}
    (fits : h.Fits) (sound : sec.SoundSubsection ss) (room : ss.length + 12 < 2 ^ 32)
    (done : handleSubsection sec h ss = .ok h') : h'.Fits := by
  obtain ⟨inlinees, checksums⟩ := fits
  have data : (ss.data sec).length ≤ ss.length := List.length_take_le _ _
  rw [handleSubsection] at done
  cases kind : SubsectionKind.ofCode ss.kind with
  | symbols =>
    rw [kind] at done
    simp only [bind_ok_iff] at done
    obtain ⟨analysis, -, done⟩ := done
    cases done
    exact ⟨inlinees, checksums⟩
  | fileChecksums =>
    rw [kind] at done
    cases done
    refine ⟨inlinees, ?_⟩
    dsimp only
    rw [Option.getD_some]
    omega
  -- line tables are kept as they are, the new one is the one that has been checked
  | lines | inlineeLines =>
    rw [kind] at done
    cases done
    refine ⟨fun u member lines => ?_, checksums⟩
    rcases List.mem_append.mp member with before | last
    · exact inlinees u before lines
    · rw [List.mem_singleton.mp last] at lines ⊢
      exact sound.inlinees lines
  | _ =>
    rw [kind] at done
    cases done
    exact ⟨inlinees, checksums⟩

theorem analyzeChunks_fits {file : SymbolFile} (sound : file.Sound) {h : Handler}
    (done : analyzeChunks file = .ok h) : h.Fits := by
  have start : (Handler.init file.moduleIndex).Fits :=
    ⟨fun _ none => absurd none List.not_mem_nil, Nat.le_of_ble_eq_true rfl⟩
  refine foldlM_keeps (I := fun _ (h : Handler) => h.Fits) ?_ [] start done
  intro _ h h' sec inFile fits here
  rw [handleChunk] at here
  split at here
  · rename_i isDebugS
    rw [handleDebugS, bind_ok_iff] at here
    obtain ⟨subsections, listed, here⟩ := here
    refine foldlM_keeps (I := fun _ (h : Handler) => h.Fits) ?_ [] ?_ here
    · intro _ h h' ss inList fits here
      exact handleSubsection_fits fits (sound sec inFile isDebugS subsections listed ss inList)
        (subsections_room sec listed ss inList) here
    · exact ⟨fits.inlinees, fits.checksums⟩
  · split at here
    · cases here
      exact ⟨fits.inlinees, fits.checksums⟩
    · cases here
      exact fits

/-- What is reserved for the symbols of an object, and that its subsections have their sizes. -/
structure Reserved (file : SymbolFile) (h : Handler) (mod : ModuleDescriptor) : Prop where
  symbols : mod.symbols =
    if kSymbolStreamMagicSize < h.analysis.moduleSymOffset then
      [.unmerged file (h.analysis.moduleSymOffset - kSymbolStreamMagicSize)] else []
  symbolByteSize :
    mod.symbolByteSize = uint32 (h.analysis.moduleSymOffset - kSymbolStreamMagicSize)
  sized : ∀ s ∈ mod.c13Builders, s.Sized
  inlinees : ∀ u, .unrelocated u ∈ mod.c13Builders →
    SubsectionKind.ofCode u.subsec.kind = .inlineeLines → 4 ≤ u.subsec.length
  fixups : ∀ fixup ∈ mod.stringTableFixups, ∃ ref, (ref, fixup.2) ∈ h.analysis.stringTableFixups

private theorem finishRecords_reserves {h : Handler} {file : SymbolFile} {b : Builders}
    (fits : h.Fits) (fresh : b.modules file.moduleIndex = .init) :
    Reserved file h ((h.finishRecords file b).modules file.moduleIndex) := by
  have modules := (publishGlobals_eq h b).2.2
  -- the file's own module, which nothing before has touched
  have own : (h.finishRecords file b).modules file.moduleIndex =
      if kSymbolStreamMagicSize < h.analysis.moduleSymOffset then
        addUnmergedSymbols file (h.analysis.moduleSymOffset - kSymbolStreamMagicSize)
          ⟨[], 0, [], [], h.debugSubsections.map .unrelocated⟩
      else ⟨[], 0, [], [], h.debugSubsections.map .unrelocated⟩ := by
    have untouched : (h.addStats (h.addOldFpoData (h.publishGlobals b))).modules file.moduleIndex =
        .init := (congrFun modules _).trans fresh
    rw [Handler.finishRecords, Handler.reserveSymbols, Builders.updateModule]
    dsimp only
    rw [Function.update_self, untouched]
    rfl
  have subsections : ∀ s ∈ h.debugSubsections.map ModuleSubsection.unrelocated, s.Sized := by
    intro s member
    obtain ⟨u, -, rfl⟩ := List.mem_map.mp member
    trivial
  have lines : ∀ u, ModuleSubsection.unrelocated u ∈ h.debugSubsections.map .unrelocated →
      SubsectionKind.ofCode u.subsec.kind = .inlineeLines → 4 ≤ u.subsec.length := by
    intro u member
    obtain ⟨u', there, same⟩ := List.mem_map.mp member
    cases same
    exact fits.inlinees u there
  rw [own]
  split
  · next some_ =>
    refine ⟨(if_pos some_).symm, ?_, subsections, lines, fun _ none => absurd none List.not_mem_nil⟩
    rw [addUnmergedSymbols, Nat.zero_add]
  · next none =>
    refine ⟨(if_neg none).symm, ?_, subsections, lines, fun _ none => absurd none List.not_mem_nil⟩
    rw [Nat.sub_eq_zero_of_le (Nat.le_of_not_lt none)]
    rfl

theorem finish_reserves {pdbMakeAbsolute : Bytes → Bytes} {file : SymbolFile} {h : Handler}
    {b b' : Builders} (fits : h.Fits) (fresh : b.modules file.moduleIndex = .init)
    (done : h.finish pdbMakeAbsolute file b = .ok b') :
    Reserved file h (b'.modules file.moduleIndex) := by
  have reserved := finishRecords_reserves fits fresh
  rw [Handler.finish] at done
  cases table : h.cvStrTab with
  | none =>
    rw [table] at done
    dsimp only at done
    split at done
    · cases done
    · cases done
      exact reserved
  | some cvStrTab =>
    rw [table] at done
    dsimp only at done
    rw [Handler.finishStrings, bind_ok_iff] at done
    obtain ⟨b₁, framed, done⟩ := done
    obtain ⟨t₁, added, rfl, -, -⟩ := addFrames_all framed
    obtain ⟨t₂, fixups, translated, -, places⟩ := translateFixups_all cvStrTab
      file.moduleIndex h.analysis.stringTableFixups
      { h.finishRecords file b with
        pdbStrTab := t₁
        newFpoData := (h.finishRecords file b).newFpoData ++ added }
    dsimp only at done
    rw [translated, addFiles, bind_ok_iff] at done
    obtain ⟨⟨b₂, new⟩, filed, done⟩ := done
    cases done
    obtain ⟨-, -, modules, -⟩ := addFile_all filed
    obtain ⟨length, counted⟩ := addFiles_size filed
    have room := readChecksums_room (h.checksums.getD []).length 0 (h.checksums.getD [])
    have below := alignTo_lt (h.checksums.getD []).length 4 (by decide)
    have short := fits.checksums
    -- The rebuilt checksums are padded to four bytes, and their size still fits in 32 bits.
    have sized : ModuleSubsection.Sized (.checksums new) := by
      rw [ModuleSubsection.Sized, length, counted]
      refine (Nat.mod_eq_of_lt ?_).symm
      rw [checksumArray]
      omega
    simp only [Builders.updateModule, Function.update_self] at modules ⊢
    rw [modules, Function.update_self]
    obtain ⟨symbols, symbolByteSize, sizes, inlinees, -⟩ := reserved
    refine ⟨symbols, symbolByteSize, ?_, ?_, ?_⟩
    -- One subsection is added behind those that `finishRecords` left,
    · intro s member
      rcases List.mem_append.mp member with before | last
      · exact sizes s before
      · rw [List.mem_singleton.mp last]
        exact sized
    · intro u member
      rcases List.mem_append.mp member with before | last
      · exact inlinees u before
      · cases List.mem_singleton.mp last
    -- and a translated fixup keeps its place.
    · intro fixup member
      obtain ⟨old, there, names⟩ := exists_left_of_mem places fixup member
      exact ⟨old.1, names.place ▸ there⟩

/-! ### The modules of a run -/

namespace SymbolMerging

variable {z : SymbolMerging}

/-- Handlers do not touch the modules of others. -/
theorem direct_others {types : z.m.State} {handlers : List (Option LoadedFile × Nat)}
    {b b' : Builders} {moduleIndex : Nat} (other : moduleIndex ∉ modulesOf handlers)
    (done : handlers.foldlM (z.direct types) b = .ok b') :
    b'.modules moduleIndex = b.modules moduleIndex := by
  refine foldlM_keeps (I := fun _ b' => b'.modules moduleIndex = b.modules moduleIndex) ?_ [] rfl done
  rintro _ b₁ b₂ ⟨source, i⟩ member same here
  cases source with
  | none =>
    cases here
    exact same
  | some file =>
    obtain ⟨h, -, finished⟩ := bind_ok_iff.mp here
    have apart : moduleIndex ≠ file.moduleIndex := by
      rintro rfl
      exact other (List.mem_filterMap.mpr ⟨_, member, rfl⟩)
    rw [(finish_ok finished).others _ apart, same]

/-- A module ends as the `finish` of its own handler has left it. -/
theorem finished_alone {pdbStats : Option PdbStats} {b' : Builders}
    (done : z.added.2.zipIdx.foldlM (z.direct z.added.1) (start pdbStats) = .ok b')
    {file : LoadedFile} {i : Nat} (member : (some file, i) ∈ z.added.2.zipIdx) :
    ∃ h b b₁, analyzeChunksWith (z.m.maps i z.added.1) file.symbolFile = .ok h ∧
      b.modules file.moduleIndex = .init ∧
      h.finish z.pdbMakeAbsolute file.symbolFile b = .ok b₁ ∧
      b'.modules file.moduleIndex = b₁.modules file.moduleIndex := by
  have distinct := handlers_distinct (z := z)
  obtain ⟨before, behind, split⟩ := List.append_of_mem member
  rw [split] at done distinct
  obtain ⟨b, b₁, first, here, later⟩ := comesTo_of_ok done
  obtain ⟨h, analyzed, finished⟩ := bind_ok_iff.mp here
  rw [modulesOf, List.filterMap_append, List.filterMap_cons] at distinct
  obtain ⟨-, distinctBehind, apart⟩ := List.nodup_append.mp distinct
  refine ⟨h, b, b₁, analyzed, ?_, finished, ?_⟩
  · rw [direct_others (fun there => apart _ there _ (List.mem_cons_self ..) rfl) first]
    rfl
  · exact direct_others (List.nodup_cons.mp distinctBehind).1 later

end SymbolMerging

end LlvmLd.Pdb
