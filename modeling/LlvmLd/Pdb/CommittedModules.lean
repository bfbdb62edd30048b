import LlvmLd.Pdb.ReservedModules

/-!
# The module streams of all objects

What is committed for the modules that `addObjectsToPDB` has made, and what is read from it.

Proof strategy: a writer does the same in every stream that has the room, so the records that can be
written at all can be written into the stream that has been reserved.
-/

namespace LlvmLd.Pdb

open Brackets Codeview Memory Outcome Writer
open Gsi (StreamWriter)
open DebugSection

/-! ### The same symbols in another stream -/

def SecondPass.inStream (s : SecondPass) (length : Nat) : SecondPass :=
  { s with writer := ⟨length, s.writer.written⟩ }

private theorem writeBytes_room {w : StreamWriter} {bytes : Bytes}
    (room : w.written.length + bytes.length ≤ w.length) :
    w.writeBytes bytes = .ok ⟨w.length, w.written ++ bytes⟩ := by
  rw [StreamWriter.writeBytes, if_neg (Nat.not_lt.mpr room)]

private theorem writeSymbols_inStream {sec : DebugSection} {s s' : SecondPass} {ss : Subsection}
    (done : writeSymbols sec s ss = .ok s') {length : Nat} (room : s'.writer.written.length ≤ length) :
    writeSymbols sec (s.inStream length) ss = .ok (s'.inStream length) := by
  rw [writeSymbols] at done ⊢
  generalize sec.chunk.symbolsAt ss.vaBegin ss.length = walk at done ⊢
  obtain ⟨records, complete⟩ := walk
  split at done
  · rename_i other
    cases done
    rw [if_pos other]
  · rename_i symbols
    obtain ⟨p, walked, later⟩ := bind_ok_iff.mp done
    obtain ⟨writer, wrote, ended⟩ := bind_ok_iff.mp later
    cases ended
    obtain ⟨-, written, -⟩ := writeBytes_ok wrote
    rw [if_neg symbols]
    refine bind_ok_iff.mpr ⟨p, walked, bind_ok_iff.mpr ⟨⟨length, writer.written⟩, ?_, rfl⟩⟩
    -- the stream has room for what was written, so the check passes there too
    have fits : (s.inStream length).writer.written.length +
        (if complete then readBytes p.storage.mem 0 p.storage.size else []).length ≤ length := by
      rw [← List.length_append]
      change (s.writer.written ++ _).length ≤ length
      rw [← written]
      exact room
    rw [written, writeBytes_room fits]
    rfl

private theorem subsections_inStream {sec : DebugSection} {subsections : List Subsection}
    {s s' : SecondPass} (done : subsections.foldlM (writeSymbols sec) s = .ok s') {length : Nat}
    (room : s'.writer.written.length ≤ length) :
    subsections.foldlM (writeSymbols sec) (s.inStream length) = .ok (s'.inStream length) := by
  induction subsections generalizing s with
  | nil =>
    cases done
    rfl
  | cons ss rest ih =>
    rw [List.foldlM_cons, bind_ok_iff] at done ⊢
    obtain ⟨s₁, first, later⟩ := done
    have front := (subsections_extend later).written.length_le
    exact ⟨s₁.inStream length, writeSymbols_inStream first (Nat.le_trans front room), ih later⟩

private theorem writeSection_inStream {sec : DebugSection} {s s' : SecondPass}
    (done : writeSection s sec = .ok s') {length : Nat} (room : s'.writer.written.length ≤ length) :
    writeSection (s.inStream length) sec = .ok (s'.inStream length) := by
  rw [writeSection] at done ⊢
  split at done
  · rename_i isDebugS
    rw [if_pos isDebugS]
    cases listed : sec.subsections with
    | error halt =>
      rw [listed] at done
      cases halt <;> cases done
    | ok subsections =>
      rw [listed] at done
      exact subsections_inStream done room
  · rename_i otherName
    cases done
    rw [if_neg otherName]

/-- Symbols that can be written can be written wherever there is room for them. -/
theorem writeAllModuleSymbolRecords_inStream {file : SymbolFile} {w w' : StreamWriter}
    (done : writeAllModuleSymbolRecords file w = .ok w') {length : Nat}
    (room : w'.written.length ≤ length) :
    writeAllModuleSymbolRecords file ⟨length, w.written⟩ = .ok ⟨length, w'.written⟩ := by
  obtain ⟨s, walked, ended⟩ := bind_ok_iff.mp done
  cases ended
  refine bind_ok_iff.mpr ⟨s.inStream length, ?_, rfl⟩
  -- from the end: what a section wrote is part of what there is in the end
  have sections : ∀ (chunks : List DebugSection) (s₀ : SecondPass),
      chunks.foldlM writeSection s₀ = .ok s →
      chunks.foldlM writeSection (s₀.inStream length) = .ok (s.inStream length) := by
    intro chunks
    induction chunks with
    | nil =>
      intro s₀ ends
      cases ends
      rfl
    | cons sec rest ih =>
      intro s₀ ends
      rw [List.foldlM_cons, bind_ok_iff] at ends ⊢
      obtain ⟨s₁, first, later⟩ := ends
      have front := (sections_extend later).written.length_le
      exact ⟨s₁.inStream length, writeSection_inStream first (Nat.le_trans front room), ih s₁ later⟩
  exact sections file.debugChunks _ walked

/-! ### Room for fixups and subsections -/

private theorem applyFixups_ends {fixups : List (Nat × Nat)} {w : StreamWriter}
    (inside : ∀ fixup ∈ fixups, fixup.2 + 4 ≤ w.length) :
    fixups.foldlM applyFixup w = .ok ⟨w.length, patchWords fixups w.written⟩ := by
  induction fixups generalizing w with
  | nil => rfl
  | cons fixup rest ih =>
    have here := inside fixup (List.mem_cons_self ..)
    rw [List.foldlM_cons, applyFixup, if_neg (by omega), if_neg (by omega)]
    exact ih fun other member => inside other (List.mem_cons_of_mem _ member)

/-- Subsections with lines that can be read. -/
theorem bytes_ends (source : TpiSource) {s : ModuleSubsection}
    (lines : ∀ u, s = .unrelocated u → SubsectionKind.ofCode u.subsec.kind = .inlineeLines →
      4 ≤ u.subsec.length) : ∃ bytes, s.bytes source = .ok bytes := by
  cases s with
  | unrelocated u =>
    rw [ModuleSubsection.bytes]
    split
    · rename_i inlinees
      have long := lines u rfl inlinees
      rw [← length_relocatedBytes] at long
      rw [remapInlinees, if_neg (by omega)]
      exact ⟨_, rfl⟩
    · exact ⟨_, rfl⟩
  | checksums new => exact ⟨_, rfl⟩

private theorem commitSubsection_ends {source : TpiSource} {w : StreamWriter} {s : ModuleSubsection}
    (sized : s.Sized) {bytes : Bytes} (found : s.bytes source = .ok bytes)
    (aligned : 4 ∣ w.written.length)
    (room : w.written.length + (8 + alignTo s.serializedSize 4) ≤ w.length) :
    ∃ w', commitSubsection source w s = .ok w' := by
  have size := sized.length found
  have above := le_alignTo s.serializedSize 4 (by decide)
  have header : (le32 s.kind ++ le32 (alignTo s.serializedSize 4)).length = 8 := rfl
  refine ⟨_, bind_ok_iff.mpr ⟨_, writeBytes_room (by omega), bind_ok_iff.mpr ⟨bytes, found,
    bind_ok_iff.mpr ⟨_, writeBytes_room ?_, writeBytes_room ?_⟩⟩⟩⟩
  · dsimp only
    rw [List.length_append]
    omega
  · have place : alignTo (w.written.length + 8 + s.serializedSize) 4 =
        w.written.length + 8 + alignTo s.serializedSize 4 := alignTo_four_add _ _ (by omega)
    simp only [List.length_append, List.length_replicate, length_le32, size, Nat.reduceAdd]
    omega

private theorem commitSubsections_ends {source : TpiSource} {builders : List ModuleSubsection}
    {w : StreamWriter} (sized : ∀ s ∈ builders, s.Sized)
    (found : ∀ s ∈ builders, ∃ bytes, s.bytes source = .ok bytes) (aligned : 4 ∣ w.written.length)
    (room : w.written.length + subsectionsSize builders ≤ w.length) :
    ∃ w', builders.foldlM (commitSubsection source) w = .ok w' := by
  induction builders generalizing w with
  | nil => exact ⟨w, rfl⟩
  | cons s rest ih =>
    rw [subsectionsSize, List.map_cons, List.sum_cons] at room
    obtain ⟨bytes, here⟩ := found s (List.mem_cons_self ..)
    have own := sized s (List.mem_cons_self ..)
    obtain ⟨w₁, first⟩ := commitSubsection_ends own here aligned (by omega)
    obtain ⟨sub, -, size, length, written, -⟩ := commitSubsection_ok own aligned first
    -- a subsection takes what had been counted for it, and the rest still fits
    have behind : w₁.written.length = w.written.length + (8 + alignTo s.serializedSize 4) := by
      rw [written, List.length_append, length_subsectionBytes, size]
    have whole := dvd_alignTo s.serializedSize 4
    obtain ⟨w', later⟩ := ih (fun other member => sized other (List.mem_cons_of_mem _ member))
      (fun other member => found other (List.mem_cons_of_mem _ member)) (w := w₁) (by omega)
      (by rw [behind, length, subsectionsSize]; omega)
    exact ⟨w', by rw [List.foldlM_cons, first]; exact later⟩

/-! ### One module -/

section Module

variable {file : SymbolFile} {h : Handler} {mod : ModuleDescriptor} {source : TpiSource}

/-- The analysis has the same offsets as that of the object with its maps. -/
theorem analyzed_withSource (analyzed : analyzeChunksWith source file = .ok h) :
    analyzeChunks (file.withSource source) = .ok (h.withSource source) := by
  rw [← analyzeChunks_withSource, analyzed]
  rfl

private theorem fits_of_sound (sound : file.Sound)
    (analyzed : analyzeChunksWith source file = .ok h) :
    h.Fits := by
  obtain ⟨inlinees, checksums⟩ :=
    analyzeChunks_fits (sound.withSource source) (analyzed_withSource analyzed)
  exact ⟨fun u member => inlinees (u.withSource source) (List.mem_map_of_mem member), checksums⟩

private theorem moduleSize_withSource (source : TpiSource) (file : SymbolFile) :
    (file.withSource source).moduleSize = file.moduleSize := by
  rw [SymbolFile.moduleSize, symbols_withSource]
  rfl

/-- What has been counted for a sound object. -/
theorem counted_of_sound (sound : file.Sound) (analyzed : analyzeChunksWith source file = .ok h)
    (small : kSymbolStreamMagicSize + file.moduleSize < 2 ^ 32) :
    h.analysis.moduleSymOffset = kSymbolStreamMagicSize + file.moduleSize ∧
      h.analysis.stringTableFixups.Pairwise (fun f g => f.2 + 4 ≤ g.2) ∧
      ∀ fixup ∈ h.analysis.stringTableFixups,
        fixup.2 + 4 ≤ kSymbolStreamMagicSize + file.moduleSize := by
  rw [← moduleSize_withSource source] at small ⊢
  obtain ⟨offset, pairwise, inside⟩ :=
    fixups_apart (sound.withSource source) (analyzed_withSource analyzed) small
  exact ⟨offset, pairwise, inside⟩

theorem Reserved.wellFormed (reserved : Reserved file h mod) (sound : file.Sound)
    (analyzed : analyzeChunksWith source file = .ok h)
    (small : kSymbolStreamMagicSize + file.moduleSize < 2 ^ 32) :
    mod.WellFormed ∧ mod.symbolByteSize = file.moduleSize := by
  have offset := (counted_of_sound sound analyzed small).1
  obtain ⟨symbols, symbolByteSize, sized, -, -⟩ := reserved
  rw [offset, Nat.add_sub_cancel_left, uint32, Nat.mod_eq_of_lt (by omega)] at symbolByteSize
  refine ⟨⟨?_, ?_, ?_, sized⟩, symbolByteSize⟩
  · intro bytes member
    rw [symbols] at member
    split at member
    · cases List.mem_singleton.mp member
    · cases member
  · rw [symbolByteSize]
    exact file.dvd_moduleSize
  · omega

/-- The symbols are written by the second pass, if there are any. -/
theorem Reserved.writes (reserved : Reserved file h mod) (sound : file.Sound)
    (analyzed : analyzeChunksWith source file = .ok h)
    (small : kSymbolStreamMagicSize + file.moduleSize < 2 ^ 32) (w : StreamWriter) :
    mod.symbols.foldlM (writeSymbolList source) w =
      if file.moduleSize = 0 then .ok w
      else writeAllModuleSymbolRecords (file.withSource source) w := by
  have offset := (counted_of_sound sound analyzed small).1
  rw [reserved.symbols, offset]
  by_cases none : file.moduleSize = 0
  · rw [if_pos none, if_neg (by omega)]
    rfl
  · rw [if_neg none, if_pos (by omega), List.foldlM_cons]
    exact bind_pure _

/-- The stream that is reserved for a sound object is filled, if its records can be written at all. -/
theorem Reserved.commit_ends (reserved : Reserved file h mod) (sound : file.Sound)
    (analyzed : analyzeChunksWith source file = .ok h)
    (small : 8 + file.moduleSize + subsectionsSize mod.c13Builders < 2 ^ 32) {length : Nat}
    {w : StreamWriter} (writable : writeAllModuleSymbolRecords (file.withSource source)
      ⟨length, le32 Input.debugSectionMagic⟩ = .ok w) :
    ∃ w', commitSymbolStream source mod ⟨mod.diSymbolStreamSize, []⟩ = .ok w' := by
  have less : kSymbolStreamMagicSize + file.moduleSize < 2 ^ 32 := by
    rw [kSymbolStreamMagicSize]
    omega
  obtain ⟨formed, symbolByteSize⟩ := reserved.wellFormed sound analyzed less
  obtain ⟨-, -, inside⟩ := counted_of_sound sound analyzed less
  have size : mod.diSymbolStreamSize = 8 + file.moduleSize + subsectionsSize mod.c13Builders := by
    have c13 : mod.calculateC13DebugInfoSize = subsectionsSize mod.c13Builders := by
      rw [calculateC13DebugInfoSize_eq]
      exact Nat.mod_eq_of_lt (by omega)
    rw [ModuleDescriptor.diSymbolStreamSize, alignTo_of_dvd _ _ (by decide) formed.aligned,
      symbolByteSize, c13, uint32, Nat.mod_eq_of_lt (by omega)]
    omega
  generalize mod.diSymbolStreamSize = n at size ⊢
  have written := writeAllModuleSymbolRecords_length writable
  rw [moduleSize_withSource] at written
  dsimp only at written
  rw [length_le32] at written
  -- the symbols in the reserved stream
  obtain ⟨symbolBytes, symbols, front⟩ : ∃ symbolBytes : Bytes,
      mod.symbols.foldlM (writeSymbolList source) ⟨n, le32 Input.debugSectionMagic⟩ =
        .ok ⟨n, symbolBytes⟩ ∧ symbolBytes.length = 4 + file.moduleSize := by
    rw [reserved.writes sound analyzed less]
    split
    · next none => exact ⟨_, rfl, by rw [none]; rfl⟩
    · exact ⟨w.written, writeAllModuleSymbolRecords_inStream writable (by omega), written⟩
  have whole := file.dvd_moduleSize
  have fixups : mod.stringTableFixups.foldlM applyFixup ⟨n, symbolBytes⟩ =
      .ok ⟨n, patchWords mod.stringTableFixups symbolBytes⟩ := by
    apply applyFixups_ends
    intro fixup member
    obtain ⟨ref, there⟩ := reserved.fixups fixup member
    have below := inside _ there
    rw [kSymbolStreamMagicSize] at below
    dsimp only at below ⊢
    omega
  have patched := length_patchWords mod.stringTableFixups symbolBytes
  obtain ⟨w₃, subsections⟩ : ∃ w₃, mod.c13Builders.foldlM (commitSubsection source)
      ⟨n, patchWords mod.stringTableFixups symbolBytes⟩ = .ok w₃ := by
    apply commitSubsections_ends formed.sized
    · exact fun s member => bytes_ends source fun u same => reserved.inlinees u (same ▸ member)
    · rw [patched]
      omega
    · dsimp only
      rw [patched]
      omega
  obtain ⟨subs, -, -, length₃, written₃, size₃⟩ := commitSubsections_ok formed.sized
    (by rw [patched]; omega) subsections
  have behind : w₃.written.length + 4 = n := by
    rw [written₃, List.length_append, patched, size₃]
    omega
  refine ⟨⟨w₃.length, w₃.written ++ le32 0⟩, bind_ok_iff.mpr ⟨_, writeBytes_room ?_,
    bind_ok_iff.mpr ⟨_, symbols, bind_ok_iff.mpr ⟨_, fixups, bind_ok_iff.mpr ⟨w₃, subsections,
      bind_ok_iff.mpr ⟨_, writeBytes_room ?_, ?_⟩⟩⟩⟩⟩⟩
  · rw [length_le32]
    dsimp only [List.length_nil]
    omega
  · rw [length_le32, length₃]
    exact Nat.le_of_eq behind
  · rw [if_neg]
    rw [List.length_append, length_le32, length₃]
    dsimp only
    omega

/-- A static has room in the symbols. -/
theorem static_room {place : RecordPlace file} (sound : file.Sound)
    (static : place.sym.kind = .filestatic) : 12 ≤ file.moduleSize := by
  have whole := (sound.place place).statics place.symbols place.sym
    (by rw [place.records_eq]; simp) static
  have member := place.mem_symbols ((sound.place place).complete place.symbols)
  have inFile : moduleSize (place.front ++ place.sym :: place.rest) ≤ file.moduleSize :=
    List.le_sum_of_mem (List.mem_map_of_mem member)
  have room := alignedSize_ge place.sym
  refine Nat.le_trans ?_ inFile
  rw [moduleSize, List.foldl_append, List.foldl_cons]
  refine Nat.le_trans ?_ (layout_mono place.rest _)
  have goes : ∀ depth, symbolGoesInModuleStream .filestatic depth = true := fun _ => rfl
  rw [layoutStep, static]
  dsimp only
  rw [if_pos (goes _)]
  omega

end Module

/-! ### All modules -/

namespace SymbolMerging

variable {z : SymbolMerging}

/-- What a sound object has reserved in the end. -/
theorem module_reserved {pdbStats : Option PdbStats} {b' : Builders}
    (done : z.added.2.zipIdx.foldlM (z.direct z.added.1) (start pdbStats) = .ok b')
    {file : LoadedFile} {i : Nat} (member : (some file, i) ∈ z.added.2.zipIdx)
    (sound : file.symbolFile.Sound) :
    ∃ h, analyzeChunksWith (z.m.maps i z.added.1) file.symbolFile = .ok h ∧
      Reserved file.symbolFile h (b'.modules file.moduleIndex) := by
  obtain ⟨h, b, b₁, analyzed, fresh, finished, same⟩ := finished_alone done member
  refine ⟨h, analyzed, ?_⟩
  rw [same]
  exact finish_reserves (fits_of_sound sound analyzed) fresh finished

/-- For each sound object the stream that is reserved is filled by what is committed, no more and no
less, if the records of the object can be written into any stream. -/
theorem modules_commit (schedule : List Nat) (complete : z.Complete schedule)
    {pdbStats : Option PdbStats} {b' : Builders}
    (done : z.addObjectsToPDB schedule (start pdbStats) = .ok b')
    {file : LoadedFile} {i : Nat} (member : (some file, i) ∈ z.added.2.zipIdx)
    (sound : file.symbolFile.Sound)
    (small : 8 + file.symbolFile.moduleSize +
      subsectionsSize (b'.modules file.moduleIndex).c13Builders < 2 ^ 32)
    {length : Nat} {w : StreamWriter}
    (writable : writeAllModuleSymbolRecords (file.symbolFile.withSource (z.m.maps i z.added.1))
      ⟨length, le32 Input.debugSectionMagic⟩ = .ok w) :
    ∃ w', commitSymbolStream (z.m.maps i z.added.1) (b'.modules file.moduleIndex)
      ⟨(b'.modules file.moduleIndex).diSymbolStreamSize, []⟩ = .ok w' := by
  have run := (z.addObjectsToPDB_eq_direct complete _ b').mp done
  obtain ⟨h, analyzed, reserved⟩ := module_reserved run member sound
  exact reserved.commit_ends sound analyzed small writable

/-- The symbols of an object as they are read back, against those that are written first: only the
words of the fixups are others, and where a record names a file they are the offset of its name. -/
structure SymbolsResolve (stands : Bytes → Nat → Prop) (source : TpiSource) (file : SymbolFile)
    (cvStrTab : Bytes) (mod : ModuleDescriptor) (w w' : StreamWriter) (symbols : Bytes) : Prop where
  written : mod.symbols.foldlM (writeSymbolList source) w = .ok w'
  frame : ∀ i, (∀ fixup ∈ mod.stringTableFixups, i < fixup.2 ∨ fixup.2 + 4 ≤ i) →
    symbols.getD i 0 = w'.written.getD i 0
  statics : ∀ place : RecordPlace (file.withSource source), place.sym.kind = .filestatic →
    ∃ offset record, place.Written w w' offset record ∧
      Names stands cvStrTab (place.sym.data.u32At 8) (symbols.u32At (offset + 8))

private theorem names_word {t : StringTable} (consistent : t.Consistent) {objStrTable : Bytes}
    {ref id : Nat} (names : Names (Listed t) objStrTable ref id) : uint32 id = id := by
  rw [Names] at names
  cases read : objStrTable.cString ref with
  | none =>
    rw [read] at names
    rw [names]
    rfl
  | some s =>
    rw [read] at names
    dsimp only at names
    rw [Listed, consistent.ids] at names
    obtain ⟨entry, -, same⟩ := List.mem_map.mp names
    obtain ⟨-, rfl⟩ := Prod.mk.inj same
    exact Nat.mod_mod _ _

/-- In the stream of a sound object each `S_FILESTATIC` names the string that it has named in the
object, by its offset in the string table of the PDB. -/
theorem committed_references_resolve (schedule : List Nat) (complete : z.Complete schedule)
    {pdbStats : Option PdbStats} {b' : Builders}
    (done : z.addObjectsToPDB schedule (start pdbStats) = .ok b')
    (short : Placement.total StringTable.width 1 b'.pdbStrTab.keys < 2 ^ 32)
    (order : List (Bytes × Nat)) (permuted : order.Perm b'.pdbStrTab.ids)
    {file : LoadedFile} {i : Nat} (member : (some file, i) ∈ z.added.2.zipIdx)
    (sound : file.symbolFile.Sound)
    (small : kSymbolStreamMagicSize + file.symbolFile.moduleSize < 2 ^ 32)
    {h : Handler} (analyzed : z.analysisOf (some file, i) = some h)
    {cvStrTab : Bytes} (table : h.cvStrTab = some cvStrTab) {w' : StreamWriter}
    (commits : commitSymbolStream (z.m.maps i z.added.1) (b'.modules file.moduleIndex)
      ⟨(b'.modules file.moduleIndex).diSymbolStreamSize, []⟩ = .ok w') :
    ∃ strings stream w, b'.pdbStrTab.commit order = some strings ∧
      reloadModuleStream (b'.modules file.moduleIndex).symBytes
        (b'.modules file.moduleIndex).calculateC13DebugInfoSize w'.written = .ok stream ∧
      SymbolsResolve (fun s id => (0 : UInt8) ∉ s → strings.cString id = some s)
        (z.m.maps i z.added.1) file.symbolFile cvStrTab (b'.modules file.moduleIndex)
        ⟨(b'.modules file.moduleIndex).diSymbolStreamSize, le32 Input.debugSectionMagic⟩ w
        stream.symbols := by
  have run := (z.addObjectsToPDB_eq_direct complete _ b').mp done
  obtain ⟨consistent, ⟨-, modules⟩, -⟩ := references_run run
  have fixups := (modules file i h cvStrTab member analyzed table).fixups
  obtain ⟨h', ends, reserved⟩ := module_reserved run member sound
  have same : some h' = some h := (congrArg Except.toOption ends).symm.trans analyzed
  cases same
  obtain ⟨strings, written, reads⟩ :=
    StringTable.commit_reads b'.pdbStrTab consistent short order permuted
  have formed := (reserved.wellFormed sound ends small).1
  have writes := reserved.writes sound ends small
    ⟨(b'.modules file.moduleIndex).diSymbolStreamSize, le32 Input.debugSectionMagic⟩
  obtain ⟨-, apart, inside⟩ := counted_of_sound sound ends small
  generalize b'.modules file.moduleIndex = mod at *
  generalize z.m.maps i z.added.1 = source at *
  obtain ⟨w, subs, symbols, front, -, framed, size, stream⟩ := commitSymbolStream_ok formed commits
  refine ⟨strings, ⟨patchWords mod.stringTableFixups w.written, subs, []⟩, w, written, ?_, symbols,
    patchWords_frame _ _, ?_⟩
  · rw [stream, ← size, ← front, ← length_patchWords mod.stringTableFixups]
    exact reloadModuleStream_parts _ framed
  intro place static
  have soundPlace := (sound.withSource source).place place
  have whole := soundPlace.statics place.symbols place.sym (by rw [place.records_eq]; simp) static
  have notCorrupt := soundPlace.complete place.symbols
  have room := static_room (sound.withSource source) static
  rw [moduleSize_withSource] at room
  rw [writes, if_neg (by omega)] at symbols
  have goes : ∀ depth, symbolGoesInModuleStream place.sym.kind depth = true := by
    intro depth
    rw [static]
    rfl
  -- both passes come to the record, at one offset
  obtain ⟨a, first, listed⟩ := place.first_of_ok (analyzed_withSource ends)
  have word : mod.diSymbolStreamSize < 2 ^ 32 := Nat.mod_lt _ (Nat.two_pow_pos 32)
  obtain ⟨writer, p, second, written_⟩ := place.written_of_ok notCorrupt word symbols
  obtain ⟨below, record, stands⟩ := written_ (goes _)
  have meets := (place.passes_meet (sound.withSource source).scopesBalanced notCorrupt first rfl
    second).2
  have aligned := alignedSize_ge place.sym
  rw [uint32, Nat.mod_eq_of_lt (by omega)] at meets
  refine ⟨_, record, stands, ?_⟩
  -- the fixup that has been taken there, as it is published
  have taken : (place.sym.data.u32At 8, writer.written.length + p.storage.size + 8) ∈
      h.analysis.stringTableFixups := by
    refine listed _ (goes _) ?_
    rw [recordStringTableReferences, static, meets, uint32, Nat.mod_eq_of_lt (by omega)]
    exact List.mem_singleton.mpr rfl
  obtain ⟨new, published, ⟨place_eq, offset⟩⟩ :=
    exists_left_of_mem (List.Forall₂.flip (R := flip _) fixups) _ taken
  have places : h.analysis.stringTableFixups.map Prod.snd = mod.stringTableFixups.map Prod.snd := by
    rw [← List.forall₂_eq_eq_eq, List.forall₂_map_left_iff, List.forall₂_map_right_iff]
    exact fixups.imp fun _ _ names => names.place.symm
  have apart' : mod.stringTableFixups.Pairwise fun f g => f.2 + 4 ≤ g.2 := by
    have pairwise : (h.analysis.stringTableFixups.map Prod.snd).Pairwise fun p q => p + 4 ≤ q :=
      List.pairwise_map.mpr apart
    rw [places] at pairwise
    exact List.pairwise_map.mp pairwise
  have fits : new.2 + 4 ≤ w.written.length := by
    have last := inside _ taken
    have length := writeAllModuleSymbolRecords_length symbols
    rw [moduleSize_withSource] at length
    rw [place_eq, length]
    exact last
  have read := u32At_patchWords w.written apart' published fits
  dsimp only at place_eq offset
  rw [names_word consistent offset, place_eq] at read
  rw [read]
  exact offset.imp fun s id listed => reads (s, id) (List.mem_cons_of_mem _ listed)

end SymbolMerging

/-! ### Two objects with strings -/

private theorem namedUnit_sound (moduleIndex : Nat) :
    (loadSorted namedUnit moduleIndex).symbolFile.Sound := by
  intro sec inFile _ subsections listed ss inList
  obtain rfl := List.mem_singleton.mp inFile
  cases listed
  have variable_ : opensScope ⟨12, fileStatic⟩ = false ∧ endsScope ⟨12, fileStatic⟩ = false := by
    decide
  rcases List.mem_cons.mp inList with rfl | inList
  · refine ⟨fun _ => rfl, fun _ => .plain _ _ variable_.1 variable_.2 .nil, fun _ sym member _ => ?_,
      fun lines => nomatch lines⟩
    obtain rfl := List.mem_singleton.mp member
    decide
  rcases List.mem_cons.mp inList with rfl | inList
  · exact ⟨fun symbols => (nomatch symbols), fun symbols => (nomatch symbols),
      fun symbols => (nomatch symbols), fun lines => (nomatch lines)⟩
  · obtain rfl := List.mem_singleton.mp inList
    exact ⟨fun symbols => (nomatch symbols), fun symbols => (nomatch symbols),
      fun symbols => (nomatch symbols), fun lines => (nomatch lines)⟩

private theorem second_handler : (some (loadSorted namedUnit 1), 1) ∈ namedUnits.added.2.zipIdx :=
  List.mem_cons_of_mem _ (List.mem_cons_self ..)

/-- The maps of the second object, when the types of both are merged. -/
def secondMaps : TpiSource := oneTypeMaps 1 [0, 1]

theorem namedUnits_commit : ∃ b' w',
    namedUnits.addObjectsToPDB takingTurns (SymbolMerging.start none) = .ok b' ∧
      (b'.modules 1).diSymbolStreamSize = 40 ∧
      commitSymbolStream secondMaps (b'.modules 1) ⟨(b'.modules 1).diSymbolStreamSize, []⟩ = .ok w' := by
  obtain ⟨b', done, size, small⟩ : ∃ b',
      namedUnits.addObjectsToPDB takingTurns (SymbolMerging.start none) = .ok b' ∧
      (b'.modules 1).diSymbolStreamSize = 40 ∧ 8 + (loadSorted namedUnit 1).symbolFile.moduleSize +
        subsectionsSize (b'.modules 1).c13Builders = 40 := ⟨_, rfl, rfl, rfl⟩
  obtain ⟨w, writable⟩ : ∃ w, writeAllModuleSymbolRecords
      ((loadSorted namedUnit 1).symbolFile.withSource secondMaps) ⟨128, le32 Input.debugSectionMagic⟩ =
        .ok w := ⟨_, rfl⟩
  obtain ⟨w', commits⟩ := SymbolMerging.modules_commit takingTurns takingTurns_complete done
    second_handler (namedUnit_sound 1) (lt_of_eq_of_lt small (by decide)) writable
  exact ⟨b', w', done, size, commits⟩

theorem namedUnits_statics : ∃ b' w' strings stream w,
    namedUnits.addObjectsToPDB takingTurns (SymbolMerging.start none) = .ok b' ∧
      commitSymbolStream secondMaps (b'.modules 1) ⟨(b'.modules 1).diSymbolStreamSize, []⟩ = .ok w' ∧
      b'.pdbStrTab.commit b'.pdbStrTab.ids = some strings ∧
      reloadModuleStream (b'.modules 1).symBytes (b'.modules 1).calculateC13DebugInfoSize
        w'.written = .ok stream ∧
      SymbolMerging.SymbolsResolve (fun s id => (0 : UInt8) ∉ s → strings.cString id = some s) secondMaps
        (loadSorted namedUnit 1).symbolFile [0, 0x61, 0x61, 0x61, 0x61, 0x61, 0, 0x62, 0]
        (b'.modules 1) ⟨(b'.modules 1).diSymbolStreamSize, le32 Input.debugSectionMagic⟩ w
        stream.symbols := by
  obtain ⟨b', w', done, short, commits⟩ : ∃ b' w',
      namedUnits.addObjectsToPDB takingTurns (SymbolMerging.start none) = .ok b' ∧
      Placement.total StringTable.width 1 b'.pdbStrTab.keys = 11 ∧
      commitSymbolStream secondMaps (b'.modules 1) ⟨(b'.modules 1).diSymbolStreamSize, []⟩ = .ok w' :=
    ⟨_, _, rfl, rfl, rfl⟩
  obtain ⟨h, analyzed, table⟩ : ∃ h,
      namedUnits.analysisOf (some (loadSorted namedUnit 1), 1) = some h ∧
      h.cvStrTab = some [0, 0x61, 0x61, 0x61, 0x61, 0x61, 0, 0x62, 0] := ⟨_, rfl, rfl⟩
  have size : (loadSorted namedUnit 1).symbolFile.moduleSize = 16 := rfl
  obtain ⟨strings, stream, w, written, read, resolve⟩ := SymbolMerging.committed_references_resolve
    takingTurns takingTurns_complete done (by rw [short]; decide) _ (.refl _) second_handler
    (namedUnit_sound 1) (by rw [size]; decide) analyzed table commits
  exact ⟨b', w', strings, stream, w, done, commits, written, read, resolve⟩

end LlvmLd.Pdb
