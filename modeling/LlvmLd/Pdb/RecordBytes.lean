import LlvmLd.Lib.Avoids
import LlvmLd.Pdb.DebugSHandler

/-!
Where the records of a section stand, and the bytes that `writeSymbolRecord` makes of one: they are
the same whatever has been written before, as long as the relocation index has only passed what is
in front of the record.
-/

namespace LlvmLd.Pdb

open Codeview DebugSection Memory Outcome Writer
open Sliced (belongs)

/-! ### Where subsections and records stand -/

private theorem splitRecords_places (fuel vaBegin : Nat) (buffer : Bytes) :
    (∀ sym ∈ (splitRecords fuel vaBegin buffer).1, vaBegin ≤ sym.vaBegin ∧
      sym.vaBegin + sym.data.length ≤ vaBegin + buffer.length) ∧
    (splitRecords fuel vaBegin buffer).1.Pairwise
      (fun r s => r.vaBegin + r.data.length ≤ s.vaBegin) ∧
    (splitRecords fuel vaBegin buffer).1.length ≤ buffer.length := by
  induction fuel generalizing vaBegin buffer with
  | zero => exact ⟨fun _ none => absurd none List.not_mem_nil, .nil, Nat.zero_le _⟩
  | succ fuel ih =>
    rw [splitRecords]
    -- The splitter stops at the end, at a cut header and at a cut record.
    by_cases empty : buffer.isEmpty
    · rw [if_pos empty]
      exact ⟨fun _ none => absurd none List.not_mem_nil, .nil, Nat.zero_le _⟩
    by_cases short : buffer.length < prefixSize
    · rw [if_neg empty, if_pos short]
      exact ⟨fun _ none => absurd none List.not_mem_nil, .nil, Nat.zero_le _⟩
    rw [if_neg empty, if_neg short]
    dsimp only
    by_cases cut : buffer.length < buffer.u16At 0 + 2
    · rw [if_pos cut]
      exact ⟨fun _ none => absurd none List.not_mem_nil, .nil, Nat.zero_le _⟩
    rw [if_neg cut]
    -- A record it takes has at least the two bytes of its length, so the rest is shorter.
    obtain ⟨inside, ascend, few⟩ := ih (vaBegin + (buffer.u16At 0 + 2))
      (buffer.drop (buffer.u16At 0 + 2))
    have left : (buffer.drop (buffer.u16At 0 + 2)).length = buffer.length - (buffer.u16At 0 + 2) :=
      List.length_drop
    have taken : (buffer.take (buffer.u16At 0 + 2)).length = buffer.u16At 0 + 2 := by
      rw [List.length_take]
      omega
    rw [left] at inside few
    refine ⟨?_, ?_, ?_⟩
    · rw [List.forall_mem_cons]
      refine ⟨⟨Nat.le_refl _, ?_⟩, fun sym later => ?_⟩
      · rw [taken]
        dsimp only
        omega
      · obtain ⟨low, high⟩ := inside sym later
        exact ⟨by omega, by omega⟩
    · rw [List.pairwise_cons]
      refine ⟨fun sym later => ?_, ascend⟩
      rw [taken]
      exact (inside sym later).1
    · rw [List.length_cons]
      omega

private theorem extractSubsection_length {stream : Bytes} {len : Nat} {sub : Input.DebugSubsection}
    (read : Input.extractSubsection stream = some (len, sub)) (small : stream.length + 4 < 2 ^ 32) :
    8 + sub.data.length ≤ stream.length ∧ 8 + sub.data.length ≤ len := by
  rw [Input.extractSubsection, Option.map_eq_some_iff] at read
  obtain ⟨_, read, same⟩ := read
  cases same
  rw [ Input.DebugSubsection.initialize] at read
  split at read
  · cases read
  · split at read
    · cases read
    · cases read
      rename_i long fits
      have length : (stream.slice 8 (stream.u32At 4)).length = stream.u32At 4 := by
        rw [Bytes.slice, List.length_take, List.length_drop]
        omega
      -- a stream this short leaves no room for the lengths to wrap
      have size : (8 + stream.u32At 4) % 2 ^ 32 = 8 + stream.u32At 4 := Nat.mod_eq_of_lt (by omega)
      rw [Input.DebugSubsection.getRecordLength]
      dsimp only
      rw [length, uint32, uint32, size]
      have above := le_alignTo (8 + stream.u32At 4) 4 (by omega)
      have below : alignTo (8 + stream.u32At 4) 4 < 8 + stream.u32At 4 + 4 := by
        rw [alignTo]
        omega
      rw [Nat.mod_eq_of_lt (by omega)]
      omega

namespace DebugSection

private theorem placeSubsections_places (fuel pos : Nat) (stream : Bytes)
    (small : stream.length + 4 < 2 ^ 32) :
    (∀ ss ∈ placeSubsections fuel pos stream, pos ≤ ss.vaBegin ∧
      ss.vaBegin + ss.length ≤ pos + stream.length) ∧
    (placeSubsections fuel pos stream).Pairwise
      (fun s t => s.vaBegin + s.length ≤ t.vaBegin) := by
  induction fuel generalizing pos stream with
  | zero => exact ⟨fun _ none => absurd none List.not_mem_nil, .nil⟩
  | succ fuel ih =>
    rw [placeSubsections]
    by_cases empty : stream.isEmpty
    · rw [if_pos empty]
      exact ⟨fun _ none => absurd none List.not_mem_nil, .nil⟩
    rw [if_neg empty]
    cases read : Input.extractSubsection stream with
    | none => exact ⟨fun _ none => absurd none List.not_mem_nil, .nil⟩
    | some extracted =>
      obtain ⟨len, sub⟩ := extracted
      obtain ⟨inStream, inLen⟩ := extractSubsection_length read small
      have left : (stream.drop len).length = stream.length - len := List.length_drop
      obtain ⟨inside, ascend⟩ := ih (pos + len) (stream.drop len) (by omega)
      rw [left] at inside
      refine ⟨?_, ?_⟩
      · rw [List.forall_mem_cons]
        refine ⟨⟨Nat.le_add_right _ _, by dsimp only; omega⟩, fun ss later => ?_⟩
        obtain ⟨low, high⟩ := inside ss later
        -- nothing is placed behind the stream's end
        refine ⟨by omega, ?_⟩
        by_cases beyond : stream.length ≤ len
        · rw [List.drop_eq_nil_of_le beyond] at later
          cases fuel <;> cases later
        · omega
      · rw [List.pairwise_cons]
        refine ⟨fun ss later => ?_, ascend⟩
        have low := (inside ss later).1
        dsimp only
        omega

variable (sec : DebugSection)

theorem subsections_places {subsections : List Subsection}
    (listed : sec.subsections = .ok subsections) :
    (∀ ss ∈ subsections, ss.vaBegin + ss.length ≤ sec.contents.length) ∧
      subsections.Pairwise (fun s t => s.vaBegin + s.length ≤ t.vaBegin) := by
  have size := sec.size_lt
  have whole : sec.contents.length ≤ sec.chunk.c.getSize := sec.chunk.w.contents_le sec.chunk.c
  rw [DebugSection.subsections, Input.consumeDebugMagic] at listed
  by_cases empty : sec.contents.isEmpty
  · rw [if_pos empty] at listed
    cases listed
    exact ⟨fun _ none => absurd none List.not_mem_nil, .nil⟩
  by_cases short : sec.contents.length < 4
  · rw [if_neg empty, if_pos short] at listed
    cases listed
  rw [if_neg empty, if_neg short] at listed
  by_cases unknown : sec.contents.u32At 0 ≠ Input.debugSectionMagic
  · rw [if_pos unknown] at listed
    cases listed
    exact ⟨fun _ none => absurd none List.not_mem_nil, .nil⟩
  rw [if_neg unknown] at listed
  cases listed
  -- behind the magic number, the walk has the rest of the section
  have left : (sec.contents.drop 4).length = sec.contents.length - 4 := List.length_drop
  obtain ⟨inside, ascend⟩ := placeSubsections_places (sec.contents.drop 4).length 4
    (sec.contents.drop 4) (by omega)
  refine ⟨fun ss member => ?_, ascend⟩
  have high := (inside ss member).2
  omega

/-- The records of a subsection stand in it, one behind the other. -/
theorem symbolsAt_places (ss : Subsection) :
    (∀ sym ∈ (sec.chunk.symbolsAt ss.vaBegin ss.length).1, ss.vaBegin ≤ sym.vaBegin ∧
      sym.vaBegin + sym.data.length ≤ ss.vaBegin + ss.length) ∧
    (sec.chunk.symbolsAt ss.vaBegin ss.length).1.Pairwise
      (fun r s => r.vaBegin + r.data.length ≤ s.vaBegin) ∧
    (sec.chunk.symbolsAt ss.vaBegin ss.length).1.length ≤ ss.length := by
  have buffer : ((sec.chunk.w.contents sec.chunk.c).slice ss.vaBegin ss.length).length ≤ ss.length :=
    List.length_take_le _ _
  obtain ⟨inside, ascend, few⟩ := splitRecords_places _ ss.vaBegin
    ((sec.chunk.w.contents sec.chunk.c).slice ss.vaBegin ss.length)
  refine ⟨fun sym member => ?_, ascend, Nat.le_trans few buffer⟩
  obtain ⟨low, high⟩ := inside sym member
  exact ⟨low, by omega⟩

end DebugSection
/-! ### The relocation index -/

/-- The relocations that the index has passed are in front of `bound`. Those at the last address may
be passed by any loop. -/
def IndexBehind (relocs : List Relocation) (bound : Nat) (next : List Relocation) : Prop :=
  ∃ passed, relocs = passed ++ next ∧
    ∀ rel ∈ passed, rel.virtualAddress < bound ∨ 2 ^ 32 ≤ rel.virtualAddress + 1

section Index

variable {relocs next : List Relocation} {bound : Nat}

theorem indexBehind_start : IndexBehind relocs bound relocs :=
  ⟨[], rfl, fun _ none => absurd none List.not_mem_nil⟩

theorem IndexBehind.mono {higher : Nat} (behind : IndexBehind relocs bound next)
    (below : bound ≤ higher) : IndexBehind relocs higher next := by
  obtain ⟨passed, split, low⟩ := behind
  refine ⟨passed, split, fun rel member => ?_⟩
  rcases low rel member with low | last
  · exact .inl (by omega)
  · exact .inr last

/-- Passing a few relocations more. -/
theorem IndexBehind.dropWhile {p : Relocation → Bool} (behind : IndexBehind relocs bound next)
    (low : ∀ rel, p rel = true → rel.virtualAddress < bound ∨ 2 ^ 32 ≤ rel.virtualAddress + 1) :
    IndexBehind relocs bound (next.dropWhile p) := by
  obtain ⟨passed, split, old⟩ := behind
  refine ⟨passed ++ next.takeWhile p, ?_, ?_⟩
  · rw [List.append_assoc, List.takeWhile_append_dropWhile, split]
  · intro rel member
    rcases List.mem_append.mp member with early | late
    · exact old rel early
    · exact low rel (List.mem_takeWhile_imp late)

theorem IndexBehind.advance {vaBegin : Nat} (behind : IndexBehind relocs bound next)
    (below : vaBegin ≤ bound) : IndexBehind relocs bound (advanceRelocIndex vaBegin next) := by
  refine behind.dropWhile fun rel before => .inl ?_
  have word : uint32 vaBegin ≤ vaBegin := Nat.mod_le _ _
  have before : rel.virtualAddress < uint32 vaBegin := by simpa using before
  omega

theorem IndexBehind.left {vaBegin vaEnd : Nat} (behind : IndexBehind relocs bound next)
    (ascends : vaBegin ≤ vaEnd) (below : vaEnd ≤ bound) :
    IndexBehind relocs bound (leftRelocs vaBegin vaEnd next) := by
  refine behind.dropWhile fun rel goesOn => ?_
  have goesOn : ¬ rel.Stops vaBegin vaEnd := by simpa using goesOn
  by_cases last : 2 ^ 32 ≤ rel.virtualAddress + 1
  · exact .inr last
  · have sum : uint32 (rel.virtualAddress + 1) = rel.virtualAddress + 1 :=
      Nat.mod_eq_of_lt (by omega)
    simp only [Relocation.Stops, sum] at goesOn
    exact .inl (by omega)

/-- What the loop applies of a piece's own relocations does not depend on the index. -/
theorem IndexBehind.applied {s : Slice} (behind : IndexBehind relocs s.vaBegin next)
    (sorted : relocs.Pairwise (fun r s => r.virtualAddress ≤ s.virtualAddress))
    (small : s.vaEnd < 2 ^ 32) :
    (appliedRelocs s.vaBegin s.vaEnd next).filter (belongs s) = relocs.filter (belongs s) := by
  obtain ⟨passed, split, low⟩ := behind
  have noPassed : passed.filter (belongs s) = [] := by
    apply List.filter_eq_nil_iff.mpr
    intro rel member own
    simp only [belongs, decide_eq_true_eq] at own
    rcases low rel member with low | last
    · omega
    · omega
  rw [split] at sorted ⊢
  rw [Sliced.appliedRelocs_belongs small _ (List.pairwise_append.mp sorted).2.1, List.filter_append,
    noPassed, List.nil_append]

end Index

/-! ### Relocating a record -/

namespace DebugSection

variable (sec : DebugSection)

/-- A record as a piece of its section. -/
def piece (sym : PlacedRecord) : Slice :=
  ⟨sym.vaBegin, sym.vaBegin + sym.data.length, false, true⟩

private theorem belongs_piece_iff (sym : PlacedRecord) (rel : Relocation) :
    belongs (piece sym) rel = true ↔
      sym.vaBegin ≤ rel.virtualAddress ∧
        rel.virtualAddress + 1 < sym.vaBegin + sym.data.length := by
  rw [belongs, decide_eq_true_eq]
  rfl

/-- The record stands in the section. -/
def Inside (sym : PlacedRecord) : Prop :=
  sym.vaBegin + sym.data.length ≤ sec.contents.length

/-- No relocation straddles the end of the record. -/
def Contains (sym : PlacedRecord) : Prop :=
  ∀ rel ∈ sec.relocs, belongs (piece sym) rel = true →
    rel.virtualAddress + relocWidth sec.chunk.machine rel.type ≤ sym.vaBegin + sym.data.length

/-- The record with all of its relocations. -/
def relocatedBytes (sym : PlacedRecord) : Bytes :=
  readBytes (patchAll sec.chunk.w sec.chunk.ctx sec.chunk.sections sec.chunk.c sec.chunk.machine
    sym.vaBegin 0 (writeBytes (fun _ => 0) 0 (sec.contents.slice sym.vaBegin sym.data.length))
    (sec.relocs.filter (belongs (piece sym)))) 0 sym.data.length

variable {sec} {sym : PlacedRecord}

private theorem vaEnd_lt (inside : sec.Inside sym) : (piece sym).vaEnd < 2 ^ 32 := by
  have contents := sec.chunk.w.contents_le sec.chunk.c
  have size := sec.size_lt
  rw [Inside, DebugSection.contents] at inside
  simp only [piece]
  omega

/-- The relocations of the record work on its bytes only. -/
theorem local_own (contains : sec.Contains sym) (buf : Int) :
    ∀ rel ∈ sec.relocs.filter (belongs (piece sym)), Local (Set.Ico buf (buf + sym.data.length))
      (fun m => (applyRelocation sec.chunk.w sec.chunk.ctx sec.chunk.sections sec.chunk.c
        sec.chunk.machine m (buf + (rel.virtualAddress - sym.vaBegin : Nat)) rel).1) := by
  intro rel member
  obtain ⟨inList, own⟩ := List.mem_filter.mp member
  have fits := contains rel inList own
  obtain ⟨low, -⟩ := (belongs_piece_iff sym rel).mp own
  apply (local_applyRelocation _ _ _ _ _ _ rel).mono
  exact Set.Ico_subset_Ico (by omega) (by omega)

/-- A relocation that the loop applies although it is not the record's works behind the record. -/
theorem foreign_behind (inside : sec.Inside sym) {next : List Relocation} {rel : Relocation}
    (applied : rel ∈ appliedRelocs sym.vaBegin (sym.vaBegin + sym.data.length) next)
    (foreign : belongs (piece sym) rel = false) :
    sym.vaBegin + sym.data.length ≤ rel.virtualAddress := by
  have small : sym.vaBegin + sym.data.length < 2 ^ 32 := vaEnd_lt inside
  obtain ⟨-, behind, goesOn⟩ := Sliced.applied_imp (s := piece sym) applied
  have behind : sym.vaBegin ≤ rel.virtualAddress := behind
  have notOwn := Bool.eq_false_iff.mp foreign
  rw [Ne, belongs_piece_iff] at notOwn
  by_contra low
  have sum : uint32 (rel.virtualAddress + 1) = rel.virtualAddress + 1 := Nat.mod_eq_of_lt (by omega)
  refine goesOn ⟨behind, ?_⟩
  rw [sum]
  show sym.vaBegin + sym.data.length ≤ _
  omega

private theorem piece_eq (sym : PlacedRecord) :
    (sec.contents.drop sym.vaBegin).take (sym.vaBegin + sym.data.length - sym.vaBegin) =
      sec.contents.slice sym.vaBegin sym.data.length := by
  rw [Nat.add_sub_cancel_left, Bytes.slice]

/-- Wherever the index is and whatever the memory holds, the loop leaves the same bytes. -/
theorem relocated_take (inside : sec.Inside sym) (contains : sec.Contains sym)
    {next : List Relocation} (behind : IndexBehind sec.relocs sym.vaBegin next) (buf : Int) (m : Mem)
    (room : sym.data.length ≤ sym.alignedSize) :
    (readBytes (writeAndRelocateSubsection sec.chunk.w sec.chunk.ctx sec.chunk.sections sec.chunk.c
      sec.chunk.machine sym.vaBegin (sym.vaBegin + sym.data.length) next buf m).1 buf
      sym.alignedSize).take sym.data.length = sec.relocatedBytes sym := by
  have stands : (sec.contents.slice sym.vaBegin sym.data.length).length = sym.data.length := by
    rw [Bytes.slice, List.length_take, List.length_drop]
    rw [Inside] at inside
    omega
  -- Within the record the bytes start out the same in both memories, up to the shift by `buf`.
  have copied : AgreeOn (Set.Ico buf (buf + sym.data.length))
      (writeBytes m buf (sec.contents.slice sym.vaBegin sym.data.length))
      (shifted (-buf) (writeBytes (fun _ => 0) 0 (sec.contents.slice sym.vaBegin sym.data.length))) := by
    rintro a ⟨low, high⟩
    obtain ⟨i, rfl⟩ : ∃ i : Nat, a = buf + i := ⟨(a - buf).toNat, by omega⟩
    simp only [shifted]
    rw [show buf + i + -buf = 0 + (i : Int) by omega, writeBytes_at _ _ _ i (by omega),
      writeBytes_at _ _ _ i (by omega)]
  have own := behind.applied (s := piece sym) sec.sorted (vaEnd_lt inside)
  -- The loop may apply relocations that do not belong to the record: they lie behind its bytes,
  -- so they can be dropped.
  have agree := foldl_restrict (fun m (rel : Relocation) => (applyRelocation sec.chunk.w
      sec.chunk.ctx sec.chunk.sections sec.chunk.c sec.chunk.machine m
      (buf + (rel.virtualAddress - sym.vaBegin : Nat)) rel).1) (belongs (piece sym))
    (appliedRelocs sym.vaBegin (sym.vaBegin + sym.data.length) next)
    (fun rel applied isOwn => local_own contains buf rel
      (own ▸ List.mem_filter.mpr ⟨applied, isOwn⟩))
    (fun rel applied foreign m a inRecord => by
      have far := foreign_behind inside applied foreign
      obtain ⟨low, high⟩ := inRecord
      exact (local_applyRelocation _ _ _ _ _ _ rel).frame m a (fun field => by
        obtain ⟨start, -⟩ := field
        omega))
    _ _ copied
  have own : (appliedRelocs sym.vaBegin (sym.vaBegin + sym.data.length) next).filter
      (belongs (piece sym)) = sec.relocs.filter (belongs (piece sym)) := own
  -- The ones that belong patch the same bytes wherever the buffer is.
  have moved := patchAll_shifted sec.chunk.w sec.chunk.ctx sec.chunk.sections sec.chunk.c
    sec.chunk.machine sym.vaBegin (-buf) buf
    (writeBytes (fun _ => 0) 0 (sec.contents.slice sym.vaBegin sym.data.length))
    (sec.relocs.filter (belongs (piece sym)))
  rw [Int.add_right_neg] at moved
  rw [own] at agree
  have subsec : ((sec.chunk.w.contents sec.chunk.c).drop sym.vaBegin).take
      (sym.vaBegin + sym.data.length - sym.vaBegin) =
        sec.contents.slice sym.vaBegin sym.data.length := piece_eq sym
  rw [writeAndRelocateSubsection, (relocateSubsection_eq ..).1, relocatedBytes, subsec]
  simp only [readBytes]
  rw [← List.map_take, List.take_range, Nat.min_eq_left room]
  apply List.map_congr_left
  intro i member
  have below : i < sym.data.length := List.mem_range.mp member
  have cell := agree (buf + i) ⟨by omega, by omega⟩
  refine cell.trans ?_
  show patchAll _ _ _ _ _ _ buf _ _ (buf + i) = _
  rw [moved]
  simp only [shifted]
  rw [show buf + i + -buf = 0 + (i : Int) by omega]

end DebugSection

/-! ### Rewriting a record -/

/-- What `writeSymbolRecord` puts in the storage. -/
def DebugChunk.rewrite (d : DebugChunk) (sym : PlacedRecord) (next : List Relocation)
    (storage : Storage) : Except String Bytes := do
  let (written, _) ← d.writeSymbolRecord sym sym.alignedSize next storage
  return readBytes written.mem storage.size sym.alignedSize

private theorem fixRecordAlignment_congr {record other : Bytes} {oldSize : Nat}
    (length : record.length = other.length) (same : record.take oldSize = other.take oldSize) :
    fixRecordAlignment record oldSize = fixRecordAlignment other oldSize := by
  simp only [fixRecordAlignment, length]
  split
  · rename_i whole
    rwa [whole, ← length, List.take_length, length, List.take_length] at same
  · rw [putBytes, putBytes, length]
    split
    · rename_i fits
      -- two bytes are put in front of what stays
      rw [Nat.zero_add, List.take_zero, List.take_zero, List.nil_append, List.take_append,
        List.take_append, ← List.drop_take, ← List.drop_take, same]
    · rw [same]

/-- Of the bytes behind the record only their number counts. -/
theorem finishRecord_congr (source : TpiSource) {record other : Bytes} {oldSize : Nat}
    (length : record.length = other.length) (same : record.take oldSize = other.take oldSize) :
    finishRecord source record oldSize = finishRecord source other oldSize := by
  rw [finishRecord, finishRecord, fixRecordAlignment_congr length same]

private theorem rewrite_eq (d : DebugChunk) (sym : PlacedRecord) (next : List Relocation)
    (storage : Storage) :
    d.rewrite sym next storage = finishRecord d.source
      (readBytes (writeAndRelocateSubsection d.w d.ctx d.sections d.c d.machine sym.vaBegin
        (sym.vaBegin + sym.data.length) next storage.size
        (fill storage.mem storage.size 0 sym.alignedSize)).1 storage.size sym.alignedSize)
      sym.data.length := by
  have room : sym.data.length ≤ sym.alignedSize := le_alignTo _ _ (by omega)
  rw [DebugChunk.rewrite, DebugChunk.writeSymbolRecord]
  generalize writeAndRelocateSubsection d.w d.ctx d.sections d.c d.machine sym.vaBegin
    (sym.vaBegin + sym.data.length) next storage.size
    (fill storage.mem storage.size 0 sym.alignedSize) = relocated
  obtain ⟨mem, errors, left⟩ := relocated
  dsimp only
  cases finished : finishRecord d.source (readBytes mem storage.size sym.alignedSize)
      sym.data.length with
  | error text => rfl
  | ok record =>
    -- the record fills its place, so reading it back gives the record
    have size := length_finishRecord d.source _ _ (by rw [length_readBytes]; exact room) finished
    rw [length_readBytes] at size
    show Except.ok (readBytes (writeBytes mem storage.size record) storage.size sym.alignedSize) = _
    rw [← size, readBytes_writeBytes]

/-- Both passes rewrite a record to the same bytes. -/
theorem rewrite_agree {sec : DebugSection} {sym : PlacedRecord} (inside : sec.Inside sym)
    (contains : sec.Contains sym) {next other : List Relocation}
    (first : IndexBehind sec.relocs sym.vaBegin next)
    (second : IndexBehind sec.relocs sym.vaBegin other) (storage storage' : Storage) :
    sec.chunk.rewrite sym next storage = sec.chunk.rewrite sym other storage' := by
  have room : sym.data.length ≤ sym.alignedSize := le_alignTo _ _ (by omega)
  rw [rewrite_eq, rewrite_eq]
  refine finishRecord_congr _ ?_ ?_
  · rw [length_readBytes, length_readBytes]
  · rw [DebugSection.relocated_take inside contains first _ _ room,
      DebugSection.relocated_take inside contains second _ _ room]

/-! ### The index of the passes -/

theorem writeSymbolRecord_next {d : DebugChunk} {sym : PlacedRecord} {alignedSize : Nat}
    {next next' : List Relocation} {storage storage' : Storage}
    (done : d.writeSymbolRecord sym alignedSize next storage = .ok (storage', next')) :
    next' = leftRelocs sym.vaBegin (sym.vaBegin + sym.data.length) next := by
  rw [DebugChunk.writeSymbolRecord] at done
  have left := (relocateSubsection_eq d.w d.ctx d.sections d.c d.machine sym.vaBegin
    (sym.vaBegin + sym.data.length) storage.size (writeBytes (fill storage.mem storage.size 0
      alignedSize) storage.size (((d.w.contents d.c).drop sym.vaBegin).take
        (sym.vaBegin + sym.data.length - sym.vaBegin))) next).2
  rw [writeAndRelocateSubsection] at done
  dsimp only at done
  obtain ⟨record, -, done⟩ := bind_ok_iff.mp done
  cases done
  exact left

section Passes

variable {relocs : List Relocation} {bound : Nat} {d : DebugChunk}

private theorem analyzeSymbol_index {a a' : Analysis} {sym : PlacedRecord}
    (behind : IndexBehind relocs bound a.next) (below : sym.vaBegin + sym.data.length ≤ bound)
    (done : d.analyzeSymbol a sym = .ok a') : IndexBehind relocs bound a'.next := by
  -- counting a record for the module leaves the relocation index
  have counted : ∀ b : Analysis, (countModule b sym).next = b.next := by
    intro b
    rw [countModule]
    split <;> rfl
  rw [DebugChunk.analyzeSymbol] at done
  split at done
  · obtain ⟨b, copied, done⟩ := bind_ok_iff.mp done
    cases done
    rw [DebugChunk.copyGlobal, bind_ok_iff] at copied
    obtain ⟨⟨storage, next⟩, written, copied⟩ := copied
    rw [bind_ok_iff] at copied
    obtain ⟨dsh, -, copied⟩ := copied
    cases copied
    rw [counted]
    cases wrote : d.writeSymbolRecord sym sym.alignedSize a.next ⟨a.heap, 0⟩ with
    | error text =>
      rw [wrote] at written
      cases written
    | ok result =>
      rw [wrote] at written
      cases written
      show IndexBehind relocs bound next
      rw [writeSymbolRecord_next wrote]
      exact behind.left (Nat.le_add_right _ _) below
  · cases done
    rw [counted]
    exact behind

theorem analyze_index {a a' : Analysis} {records : List PlacedRecord}
    (behind : IndexBehind relocs bound a.next)
    (below : ∀ sym ∈ records, sym.vaBegin + sym.data.length ≤ bound)
    (done : records.foldlM d.analyzeSymbol a = .ok a') : IndexBehind relocs bound a'.next :=
  foldlM_keeps (I := fun _ a => IndexBehind relocs bound a.next)
    (fun _ _ _ sym member behind here => analyzeSymbol_index behind (below sym member) here)
    [] behind done

theorem handleSubsection_index {sec : DebugSection} {h h' : Handler} {ss : Subsection}
    (behind : IndexBehind relocs bound h.analysis.next) (below : ss.vaBegin + ss.length ≤ bound)
    (done : handleSubsection sec h ss = .ok h') : IndexBehind relocs bound h'.analysis.next := by
  rw [handleSubsection] at done
  -- Only a symbol subsection walks the relocations record by record; others skip or leave them.
  have kept : IndexBehind relocs bound (h.advance sec ss).1.analysis.next :=
    behind.advance (by omega)
  cases kind : SubsectionKind.ofCode ss.kind with
  | symbols =>
    rw [kind] at done
    simp only [bind_ok_iff] at done
    obtain ⟨analysis, analyzed, done⟩ := done
    cases done
    rw [DebugChunk.analyzeSymbolSubsection, bind_ok_iff] at analyzed
    obtain ⟨a, walked, analyzed⟩ := analyzed
    have inside := (DebugSection.symbolsAt_places sec ss).1
    have walked := analyze_index (a := { h.analysis with scopeLevel := 0 }) behind
      (fun sym member => Nat.le_trans (inside sym member).2 below) walked
    cases analyzed
    dsimp only
    split
    · exact walked
    · exact walked
  | lines =>
    rw [kind] at done
    cases done
    exact kept
  | inlineeLines =>
    rw [kind] at done
    cases done
    exact kept
  | frameData =>
    rw [kind] at done
    cases done
    exact kept
  | _ =>
    rw [kind] at done
    cases done
    exact behind

end Passes

end LlvmLd.Pdb
