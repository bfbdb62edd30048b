import LlvmLd.Lib.Placement
import LlvmLd.Writer.Layout

/-!
What `assignAddresses` guarantees about the addresses it stores, and exactly when.
-/

namespace LlvmLd.Writer

open Placement

/-! ### Exact positions -/

/-- The chunks of a section with their exact offsets. -/
def offsetsFrom (ctx : Context) (code : Bool) : Cursor → List Chunk → List (Chunk × Nat)
  | _, [] => []
  | cur, c :: rest =>
      (c, chunkOffset ctx code cur c) :: offsetsFrom ctx code (advance ctx code cur c) rest

def OutputSection.offsets (ctx : Context) (sec : OutputSection) : List (Chunk × Nat) :=
  offsetsFrom ctx sec.isCodeSection .start sec.chunks

/-- The room a section takes in the image. -/
def imageRoom (ctx : Context) (sec : OutputSection) : Nat := alignTo (sec.span ctx) ctx.align

/-- The room a section takes in the file. -/
def fileRoom (ctx : Context) (sec : OutputSection) : Nat :=
  alignTo (sec.rawSpan ctx) ctx.fileAlign

def firstAddress (ctx : Context) (sections : List OutputSection) : Nat :=
  alignTo (headerSize ctx sections.length) ctx.align

/-- The sections with their exact 64-bit addresses. -/
def addresses (ctx : Context) (sections : List OutputSection) : List (OutputSection × Nat) :=
  starts (imageRoom ctx) (firstAddress ctx sections) sections

/-- The sections with their exact 64-bit file positions. -/
def filePositions (ctx : Context) (sections : List OutputSection) : List (OutputSection × Nat) :=
  starts (fileRoom ctx) (headerSize ctx sections.length) sections

/-- The end of the image, rounded up to the section alignment. -/
def imageEnd (ctx : Context) (sections : List OutputSection) : Nat :=
  alignTo (total (imageRoom ctx) (firstAddress ctx sections) sections) ctx.align

/-- The layout that address assignment is meant to produce, on the values as stored. -/
structure LayoutOk (ctx : Context) (out : Layout) : Prop where
  chunks_ascend : (out.sections.flatMap OutputSection.chunks).Pairwise
    (fun a b => a.rva + a.getSize ≤ b.rva)
  chunk_aligned : ∀ sec ∈ out.sections, ∀ c ∈ sec.chunks, c.getAlignment ∣ c.rva
  section_aligned : ∀ sec ∈ out.sections, ctx.align ∣ sec.virtualAddress
  sections_apart : out.sections.Pairwise
    (fun a b => a.virtualAddress + a.virtualSize ≤ b.virtualAddress)
  behind_headers : ∀ sec ∈ out.sections, out.sizeOfHeaders ≤ sec.virtualAddress
  raw_aligned : ∀ sec ∈ out.sections, sec.sizeOfRawData ≠ 0 →
    ctx.fileAlign ∣ sec.pointerToRawData ∧ ctx.fileAlign ∣ sec.sizeOfRawData ∧
      out.sizeOfHeaders ≤ sec.pointerToRawData
  raw_apart : (out.sections.filter (fun sec => sec.sizeOfRawData ≠ 0)).Pairwise
    (fun a b => a.pointerToRawData + a.sizeOfRawData ≤ b.pointerToRawData)
  data_inside : ∀ sec ∈ out.sections, ∀ c ∈ sec.chunks, c.hasData = true →
    sec.virtualAddress ≤ c.rva ∧ c.rva + c.getSize ≤ sec.virtualAddress + sec.sizeOfRawData
  address_exact : ∀ entry ∈ addresses ctx out.sections,
    entry.1.virtualAddress = entry.2 ∧ entry.1.virtualSize = entry.1.span ctx ∧
      entry.1.sizeOfRawData = entry.1.rawSpan ctx ∧
      ∀ placed ∈ entry.1.offsets ctx, placed.1.rva = entry.2 + placed.2
  file_exact : ∀ entry ∈ filePositions ctx out.sections,
    entry.1.rawSpan ctx ≠ 0 → entry.1.pointerToRawData = entry.2
  image_exact : uint32 out.sizeOfImage = imageEnd ctx out.sections

/-! ### Chunks in a section -/

private theorem getAlignment_pos (c : Chunk) : 0 < c.getAlignment := Nat.two_pow_pos _

private theorem align_pos (ctx : Context) : 0 < ctx.align := by
  obtain ⟨k, pow⟩ := ctx.align_pow
  exact pow ▸ Nat.two_pow_pos k

theorem fileAlign_pos (ctx : Context) : 0 < ctx.fileAlign := by
  obtain ⟨k, pow⟩ := ctx.fileAlign_pow
  exact pow ▸ Nat.two_pow_pos k

/-- A chunk is placed behind the cursor, with room for its entry thunk word. -/
theorem le_chunkOffset (ctx : Context) (code : Bool) (cur : Cursor) (c : Chunk) :
    cur.virtualSize + (if c.hasEntryThunk then 4 else 0) ≤ chunkOffset ctx code cur c := by
  unfold chunkOffset
  dsimp only
  refine Nat.le_trans ?_ (le_alignTo _ _ (getAlignment_pos c))
  have range := le_alignTo cur.virtualSize 4096 (by omega)
  split_ifs <;> omega

private theorem dvd_chunkOffset (ctx : Context) (code : Bool) (cur : Cursor) (c : Chunk) :
    c.getAlignment ∣ chunkOffset ctx code cur c :=
  dvd_alignTo _ _

/-- The cursor never moves back. -/
theorem virtualSize_le_advance (ctx : Context) (code : Bool) (cur : Cursor) (chunks : List Chunk) :
    cur.virtualSize ≤ (chunks.foldl (advance ctx code) cur).virtualSize := by
  induction chunks generalizing cur with
  | nil => exact Nat.le_refl _
  | cons c rest ih =>
    refine Nat.le_trans ?_ (ih (advance ctx code cur c))
    have placed := le_chunkOffset ctx code cur c
    simp only [advance]
    omega

/-- The raw size only grows, as the cursor was at or behind it. -/
theorem rawSize_le_advance (ctx : Context) (code : Bool) (cur : Cursor) (chunks : List Chunk)
    (below : cur.rawSize ≤ alignTo cur.virtualSize ctx.fileAlign) :
    cur.rawSize ≤ (chunks.foldl (advance ctx code) cur).rawSize := by
  induction chunks generalizing cur with
  | nil => exact Nat.le_refl _
  | cons c rest ih =>
    have placed := le_chunkOffset ctx code cur c
    have moved : alignTo cur.virtualSize ctx.fileAlign ≤
        alignTo (chunkOffset ctx code cur c + c.getSize) ctx.fileAlign :=
      alignTo_mono _ _ _ (by omega)
    have step : (advance ctx code cur c).rawSize ≤
        alignTo (advance ctx code cur c).virtualSize ctx.fileAlign := by
      simp only [advance]
      split <;> omega
    refine Nat.le_trans ?_ (ih (advance ctx code cur c) step)
    simp only [advance]
    split <;> omega

theorem le_offsetsFrom (ctx : Context) (code : Bool) (cur : Cursor) (chunks : List Chunk)
    (placed : Chunk × Nat) (member : placed ∈ offsetsFrom ctx code cur chunks) :
    cur.virtualSize + (if placed.1.hasEntryThunk then 4 else 0) ≤ placed.2 := by
  induction chunks generalizing cur with
  | nil => cases member
  | cons c rest ih =>
    have behind := le_chunkOffset ctx code cur c
    rw [offsetsFrom, List.mem_cons] at member
    rcases member with rfl | later
    · exact behind
    · have next := ih _ later
      simp only [advance] at next
      omega

/-- Every offset is aligned and ends before the end of the section. -/
theorem offsetsFrom_bounds (ctx : Context) (code : Bool) (cur : Cursor) (chunks : List Chunk)
    (below : cur.rawSize ≤ alignTo cur.virtualSize ctx.fileAlign) (placed : Chunk × Nat)
    (member : placed ∈ offsetsFrom ctx code cur chunks) :
    placed.1.getAlignment ∣ placed.2 ∧
      placed.2 + placed.1.getSize ≤ (chunks.foldl (advance ctx code) cur).virtualSize ∧
      (placed.1.hasData = true →
        placed.2 + placed.1.getSize ≤ (chunks.foldl (advance ctx code) cur).rawSize) := by
  induction chunks generalizing cur with
  | nil => cases member
  | cons c rest ih =>
    have behind := le_chunkOffset ctx code cur c
    have moved := alignTo_mono cur.virtualSize (chunkOffset ctx code cur c + c.getSize)
      ctx.fileAlign (by omega)
    -- raw data never ends behind the virtual size, rounded up to the file alignment
    have step : (advance ctx code cur c).rawSize ≤
        alignTo (advance ctx code cur c).virtualSize ctx.fileAlign := by
      simp only [advance]
      split <;> omega
    rw [offsetsFrom, List.mem_cons] at member
    rcases member with rfl | later
    · refine ⟨dvd_chunkOffset ctx code cur c, ?_, ?_⟩
      · exact virtualSize_le_advance ctx code (advance ctx code cur c) rest
      · intro data
        have data : c.hasData = true := data
        refine Nat.le_trans ?_ (rawSize_le_advance ctx code (advance ctx code cur c) rest step)
        simp only [advance, data, if_true]
        exact le_alignTo _ _ (fileAlign_pos ctx)
    · exact ih (advance ctx code cur c) step later

theorem offsetsFrom_pairwise (ctx : Context) (code : Bool) (cur : Cursor) (chunks : List Chunk) :
    (offsetsFrom ctx code cur chunks).Pairwise
      (fun a b => a.2 + a.1.getSize + (if b.1.hasEntryThunk then 4 else 0) ≤ b.2) := by
  induction chunks generalizing cur with
  | nil => exact List.Pairwise.nil
  | cons c rest ih =>
    refine List.Pairwise.cons (fun placed later => ?_) (ih _)
    exact le_offsetsFrom ctx code (advance ctx code cur c) rest placed later

theorem offsetsFrom_map_fst (ctx : Context) (code : Bool) (cur : Cursor) (chunks : List Chunk) :
    (offsetsFrom ctx code cur chunks).map Prod.fst = chunks := by
  induction chunks generalizing cur with
  | nil => rfl
  | cons c rest ih => simp [offsetsFrom, ih]

/-- Offsets do not depend on the addresses stored in the chunks. -/
theorem offsetsFrom_placeChunks (ctx : Context) (code : Bool) (rva : Nat) (cur : Cursor)
    (chunks : List Chunk) :
    offsetsFrom ctx code cur (placeChunks ctx code rva cur chunks) =
      (offsetsFrom ctx code cur chunks).map
        (fun placed => (placed.1.setRVA (rva + placed.2), placed.2)) := by
  induction chunks generalizing cur with
  | nil => rfl
  | cons c rest ih =>
    rw [placeChunks, offsetsFrom, offsetsFrom, List.map_cons]
    exact congrArg _ (ih (advance ctx code cur c))

private theorem foldl_advance_placeChunks (ctx : Context) (code : Bool) (rva : Nat)
    (cur from' : Cursor) (chunks : List Chunk) :
    (placeChunks ctx code rva cur chunks).foldl (advance ctx code) from' =
      chunks.foldl (advance ctx code) from' := by
  induction chunks generalizing cur from' with
  | nil => rfl
  | cons c rest ih => exact ih (advance ctx code cur c) (advance ctx code from' c)

private theorem dvd_rawSize (ctx : Context) (code : Bool) (cur : Cursor) (chunks : List Chunk)
    (base : ctx.fileAlign ∣ cur.rawSize) :
    ctx.fileAlign ∣ (chunks.foldl (advance ctx code) cur).rawSize := by
  induction chunks generalizing cur with
  | nil => exact base
  | cons c rest ih =>
    apply ih
    simp only [advance]
    split
    · exact dvd_alignTo _ _
    · exact base

/-! ### Sections -/

@[simp] theorem span_placeSection (ctx : Context) (rva fileSize : Nat) (sec : OutputSection) :
    (placeSection ctx rva fileSize sec).span ctx = sec.span ctx :=
  congrArg Cursor.virtualSize (foldl_advance_placeChunks ctx _ rva .start .start sec.chunks)

@[simp] theorem rawSpan_placeSection (ctx : Context) (rva fileSize : Nat) (sec : OutputSection) :
    (placeSection ctx rva fileSize sec).rawSpan ctx = sec.rawSpan ctx :=
  congrArg Cursor.rawSize (foldl_advance_placeChunks ctx _ rva .start .start sec.chunks)

/-- What the section at the exact address `rva` holds after assignment. -/
structure StoredAt (ctx : Context) (sec : OutputSection) (rva : Nat) : Prop where
  virtualAddress : sec.virtualAddress = uint32 rva
  virtualSize : sec.virtualSize = uint32 (sec.span ctx)
  sizeOfRawData : sec.sizeOfRawData = uint32 (sec.rawSpan ctx)
  chunk : ∀ placed ∈ sec.offsets ctx, placed.1.rva = uint32 (rva + placed.2)

private theorem storedAt_placeSection (ctx : Context) (rva fileSize : Nat) (sec : OutputSection) :
    StoredAt ctx (placeSection ctx rva fileSize sec) rva := by
  refine ⟨rfl, ?_, ?_, ?_⟩
  · rw [span_placeSection]
    rfl
  · rw [rawSpan_placeSection]
    rfl
  · intro placed member
    have relocated := offsetsFrom_placeChunks ctx sec.isCodeSection rva .start sec.chunks
    rw [OutputSection.offsets, show (placeSection ctx rva fileSize sec).chunks =
      placeChunks ctx sec.isCodeSection rva .start sec.chunks from rfl] at member
    rw [show (placeSection ctx rva fileSize sec).isCodeSection = sec.isCodeSection from rfl,
      relocated] at member
    obtain ⟨before, -, rfl⟩ := List.mem_map.mp member
    rfl

/-- One round of the section loop places a section; the whole loop places all of them in order. -/
theorem assignSections_spec (ctx : Context) (headers : Nat) (done : List OutputSection)
    (rva fileSize : Nat) (errors : List String) (rest : List OutputSection) :
    ∃ laid : List OutputSection,
      (assignSections ctx headers done rva fileSize errors rest).sections = done ++ laid ∧
      laid.length = rest.length ∧
      (assignSections ctx headers done rva fileSize errors rest).sizeOfHeaders = headers ∧
      (assignSections ctx headers done rva fileSize errors rest).sizeOfImage =
        alignTo (total (imageRoom ctx) rva laid) ctx.align ∧
      (assignSections ctx headers done rva fileSize errors rest).fileSize =
        total (fileRoom ctx) fileSize laid ∧
      (∀ entry ∈ starts (imageRoom ctx) rva laid, StoredAt ctx entry.1 entry.2) ∧
      (∀ entry ∈ starts (fileRoom ctx) fileSize laid,
        entry.1.rawSpan ctx ≠ 0 → entry.1.pointerToRawData = uint32 entry.2) ∧
      ((assignSections ctx headers done rva fileSize errors rest).errors = [] →
        errors = [] ∧ ∀ sec ∈ laid, sec.span ctx ≤ uint32Max) := by
  induction rest generalizing done rva fileSize errors with
  | nil => exact ⟨[], by simp [assignSections, starts]⟩
  | cons sec rest ih =>
    rw [assignSections]
    -- `populate` gives `.reloc` its chunks; the rest holds for whatever chunks a section has.
    generalize populate ctx done sec rest = ready
    obtain ⟨laid, sections, len, head, image, file, stored, pointers, clean⟩ :=
      ih (done ++ [placeSection ctx rva fileSize ready])
        (rva + alignTo (ready.span ctx) ctx.align)
        (fileSize + alignTo (ready.rawSpan ctx) ctx.fileAlign)
        (if uint32Max < ready.span ctx then errors ++ ["section larger than 4 GiB: " ++ ready.name]
          else errors)
    -- The next section starts where the room of this one ends, in memory and in the file.
    have room : imageRoom ctx (placeSection ctx rva fileSize ready) =
        alignTo (ready.span ctx) ctx.align := by simp [imageRoom]
    have rawRoom : fileRoom ctx (placeSection ctx rva fileSize ready) =
        alignTo (ready.rawSpan ctx) ctx.fileAlign := by simp [fileRoom]
    refine ⟨placeSection ctx rva fileSize ready :: laid, ?_, ?_, head, ?_, ?_, ?_, ?_, ?_⟩
    · rw [sections, List.append_assoc, List.singleton_append]
    · simp [len]
    · rw [total_cons, room, image]
    · rw [total_cons, rawRoom, file]
    · intro entry member
      rw [starts, List.mem_cons, room] at member
      rcases member with rfl | later
      · exact storedAt_placeSection ctx rva fileSize ready
      · exact stored entry later
    · intro entry member raw
      rw [starts, List.mem_cons, rawRoom] at member
      rcases member with rfl | later
      · rw [rawSpan_placeSection] at raw
        simp [placeSection, raw]
      · exact pointers entry later raw
    -- The error list only grows, so an empty one at the end was empty in each round.
    · intro none
      obtain ⟨before, small⟩ := clean none
      split at before
      · simp at before
      · refine ⟨before, fun other member => ?_⟩
        rcases List.mem_cons.mp member with rfl | later
        · rw [span_placeSection]
          omega
        · exact small other later

@[simp] theorem length_createECCodeMap (ctx : Context) (sections : List OutputSection) :
    (createECCodeMap ctx sections).length = sections.length := by
  simp only [createECCodeMap]
  split <;> simp

/-- `assignAddresses` in terms of the exact positions of the sections it lays out. -/
structure Assigned (ctx : Context) (out : Layout) : Prop where
  stored : ∀ entry ∈ addresses ctx out.sections, StoredAt ctx entry.1 entry.2
  pointers : ∀ entry ∈ filePositions ctx out.sections,
    entry.1.rawSpan ctx ≠ 0 → entry.1.pointerToRawData = uint32 entry.2
  headers : out.sizeOfHeaders = headerSize ctx out.sections.length
  image : out.sizeOfImage = imageEnd ctx out.sections
  file : out.fileSize = total (fileRoom ctx) (headerSize ctx out.sections.length) out.sections
  small : out.errors = [] → ∀ sec ∈ out.sections, sec.span ctx ≤ uint32Max

theorem assignAddresses_assigned (ctx : Context) (sections : List OutputSection) :
    Assigned ctx (assignAddresses ctx sections) := by
  unfold assignAddresses
  generalize createECCodeMap ctx sections = mapped
  dsimp only
  obtain ⟨laid, same, len, head, image, file, stored, pointers, clean⟩ :=
    assignSections_spec ctx (headerSize ctx mapped.length) []
      (alignTo (headerSize ctx mapped.length) ctx.align) (headerSize ctx mapped.length) [] mapped
  rw [List.nil_append] at same
  constructor
  · rw [same, addresses, firstAddress, len]
    exact stored
  · rw [same, filePositions, len]
    exact pointers
  · rw [same, len]
    exact head
  · rw [same, imageEnd, firstAddress, len]
    exact image
  · rw [same, len]
    exact file
  · intro none
    rw [same]
    exact (clean none).2

/-! ### The layout invariant -/

theorem offset_bounds (ctx : Context) (sec : OutputSection) (placed : Chunk × Nat)
    (member : placed ∈ sec.offsets ctx) :
    placed.1.getAlignment ∣ placed.2 ∧ placed.2 + placed.1.getSize ≤ sec.span ctx ∧
      (placed.1.hasData = true → placed.2 + placed.1.getSize ≤ sec.rawSpan ctx) :=
  offsetsFrom_bounds ctx sec.isCodeSection .start sec.chunks (Nat.zero_le _) placed member

theorem exists_offset (ctx : Context) (sec : OutputSection) (c : Chunk) (member : c ∈ sec.chunks) :
    ∃ offset, (c, offset) ∈ sec.offsets ctx := by
  rw [← offsetsFrom_map_fst ctx sec.isCodeSection .start sec.chunks] at member
  obtain ⟨placed, found, rfl⟩ := List.mem_map.mp member
  exact ⟨placed.2, found⟩

/-- The image ends below 4 GiB. -/
def ImageFits (ctx : Context) (sections : List OutputSection) : Prop :=
  imageEnd ctx sections ≤ uint32Max

/-- Every chunk's alignment divides the start of its section. -/
def AlignmentsFit (ctx : Context) (sections : List OutputSection) : Prop :=
  ∀ entry ∈ addresses ctx sections, ∀ c ∈ entry.1.chunks, c.getAlignment ∣ entry.2

/-- A section lies in the image with all its room. -/
theorem address_le_imageEnd (ctx : Context) (sections : List OutputSection)
    (entry : OutputSection × Nat) (member : entry ∈ addresses ctx sections) :
    entry.2 + entry.1.span ctx ≤ imageEnd ctx sections := by
  have bounds := (starts_bounds _ _ _ entry member).2
  have room : entry.1.span ctx ≤ imageRoom ctx entry.1 := le_alignTo _ _ (align_pos ctx)
  have rounded : _ ≤ imageEnd ctx sections :=
    le_alignTo (total (imageRoom ctx) (firstAddress ctx sections) sections) _ (align_pos ctx)
  omega

section Exact

variable {ctx : Context} {out : Layout} {tables : Option Nat}

theorem filePosition_le (assigned : Assigned ctx out) (clean : ReportsNoError ctx out tables)
    (entry : OutputSection × Nat) (member : entry ∈ filePositions ctx out.sections) :
    entry.2 + entry.1.rawSpan ctx ≤ uint32Max := by
  have bounds := (starts_bounds _ _ _ entry member).2
  have room : entry.1.rawSpan ctx ≤ fileRoom ctx entry.1 := le_alignTo _ _ (fileAlign_pos ctx)
  have grows : out.fileSize ≤ createSymbolAndStringTable ctx out.fileSize tables := by
    simp only [createSymbolAndStringTable]
    split
    · exact Nat.le_refl _
    · exact Nat.le_trans (Nat.le_add_right _ _) (le_alignTo _ _ (fileAlign_pos ctx))
  have checked := clean.2
  rw [assigned.file] at grows checked
  omega

theorem sizeOfRawData_exact (assigned : Assigned ctx out) (clean : ReportsNoError ctx out tables)
    (sec : OutputSection) (member : sec ∈ out.sections) :
    sec.sizeOfRawData = sec.rawSpan ctx := by
  obtain ⟨rva, placed⟩ := exists_mem_starts (imageRoom ctx) (firstAddress ctx out.sections) _ _ member
  obtain ⟨position, filed⟩ :=
    exists_mem_starts (fileRoom ctx) (headerSize ctx out.sections.length) _ _ member
  have bound : position + sec.rawSpan ctx ≤ uint32Max := filePosition_le assigned clean _ filed
  have stored : sec.sizeOfRawData = uint32 (sec.rawSpan ctx) :=
    (assigned.stored _ placed).sizeOfRawData
  rw [stored, uint32_of_le _ (by omega)]

/-- In an image below 4 GiB nothing that is stored has lost bits. -/
theorem address_exact_of_fits (assigned : Assigned ctx out) (clean : ReportsNoError ctx out tables)
    (fits : ImageFits ctx out.sections) (entry : OutputSection × Nat)
    (member : entry ∈ addresses ctx out.sections) :
    entry.1.virtualAddress = entry.2 ∧ entry.1.virtualSize = entry.1.span ctx ∧
      entry.1.sizeOfRawData = entry.1.rawSpan ctx ∧
      ∀ placed ∈ entry.1.offsets ctx, placed.1.rva = entry.2 + placed.2 := by
  have inside := address_le_imageEnd ctx out.sections entry member
  have stored := assigned.stored entry member
  simp only [ImageFits] at fits
  refine ⟨?_, ?_, ?_, ?_⟩
  · rw [stored.virtualAddress, uint32_of_le _ (by omega)]
  · rw [stored.virtualSize, uint32_of_le _ (by omega)]
  · exact sizeOfRawData_exact assigned clean entry.1 (mem_of_mem_starts _ _ _ entry member)
  · intro placed inSection
    have bounds := (offset_bounds ctx entry.1 placed inSection).2.1
    rw [stored.chunk placed inSection, uint32_of_le _ (by omega)]

/-- Exact addresses ascend through the whole image. -/
theorem chunks_ascend_of_exact
    (exact_at : ∀ entry ∈ addresses ctx out.sections, ∀ placed ∈ entry.1.offsets ctx,
      placed.1.rva = entry.2 + placed.2) :
    (out.sections.flatMap OutputSection.chunks).Pairwise (fun a b => a.rva + a.getSize ≤ b.rva) := by
  have listed : out.sections.flatMap OutputSection.chunks =
      (addresses ctx out.sections).flatMap (fun entry => entry.1.chunks) := by
    conv_lhs => rw [← starts_map_fst (imageRoom ctx) (firstAddress ctx out.sections) out.sections]
    rw [List.flatMap_map]
    rfl
  rw [listed, List.pairwise_flatMap]
  constructor
  -- two chunks of one section
  · intro entry member
    rw [← offsetsFrom_map_fst ctx entry.1.isCodeSection .start entry.1.chunks, List.pairwise_map]
    have ascending := offsetsFrom_pairwise ctx entry.1.isCodeSection .start entry.1.chunks
    refine ascending.imp_of_mem (fun {a b} first second apart => ?_)
    rw [exact_at entry member a first, exact_at entry member b second]
    omega
  -- two chunks of different sections
  · refine (starts_pairwise (imageRoom ctx) _ out.sections).imp_of_mem
      (fun {a b} first second apart => ?_)
    intro x inFirst y inSecond
    obtain ⟨xOffset, xPlaced⟩ := exists_offset ctx a.1 x inFirst
    obtain ⟨yOffset, yPlaced⟩ := exists_offset ctx b.1 y inSecond
    have xAt : x.rva = a.2 + xOffset := exact_at a first (x, xOffset) xPlaced
    have yAt : y.rva = b.2 + yOffset := exact_at b second (y, yOffset) yPlaced
    have inside : xOffset + x.getSize ≤ a.1.span ctx :=
      (offset_bounds ctx a.1 (x, xOffset) xPlaced).2.1
    have room : a.1.span ctx ≤ imageRoom ctx a.1 := le_alignTo _ _ (align_pos ctx)
    omega

theorem raw_apart_of_exact (exact_raw : ∀ sec ∈ out.sections, sec.sizeOfRawData = sec.rawSpan ctx)
    (exact_file : ∀ entry ∈ filePositions ctx out.sections,
      entry.1.rawSpan ctx ≠ 0 → entry.1.pointerToRawData = entry.2) :
    (out.sections.filter (fun sec => sec.sizeOfRawData ≠ 0)).Pairwise
      (fun a b => a.pointerToRawData + a.sizeOfRawData ≤ b.pointerToRawData) := by
  rw [List.pairwise_filter]
  refine pairwise_of_starts (fileRoom ctx) (headerSize ctx out.sections.length) _ _
    (fun a first b second behind rawA rawB => ?_)
  have inA := mem_of_mem_starts _ _ _ a first
  have inB := mem_of_mem_starts _ _ _ b second
  have room : a.1.rawSpan ctx ≤ fileRoom ctx a.1 := le_alignTo _ _ (fileAlign_pos ctx)
  have nonzeroA : a.1.rawSpan ctx ≠ 0 := by
    rw [← exact_raw a.1 inA]
    exact of_decide_eq_true rawA
  have nonzeroB : b.1.rawSpan ctx ≠ 0 := by
    rw [← exact_raw b.1 inB]
    exact of_decide_eq_true rawB
  rw [exact_raw a.1 inA, exact_file a first nonzeroA, exact_file b second nonzeroB]
  omega

end Exact

/--
When no error is reported, the stored layout is the intended one exactly if the image ends below
4 GiB and no chunk asks for more alignment than the start of its section has.
-/
theorem layoutOk_iff (ctx : Context) (sections : List OutputSection) (tables : Option Nat)
    (clean : ReportsNoError ctx (assignAddresses ctx sections) tables) :
    LayoutOk ctx (assignAddresses ctx sections) ↔
      ImageFits ctx (assignAddresses ctx sections).sections ∧
        AlignmentsFit ctx (assignAddresses ctx sections).sections := by
  have assigned := assignAddresses_assigned ctx sections
  generalize assignAddresses ctx sections = out at clean assigned ⊢
  constructor
  · intro ok
    constructor
    · simp only [ImageFits]
      rw [← ok.image_exact]
      exact uint32_le _
    -- An aligned chunk at an aligned offset of its section makes the section's start aligned.
    · intro entry member c inSection
      obtain ⟨offset, placed⟩ := exists_offset ctx entry.1 c inSection
      have aligned := ok.chunk_aligned entry.1 (mem_of_mem_starts _ _ _ entry member) c inSection
      have at_offset : c.rva = entry.2 + offset := (ok.address_exact entry member).2.2.2 _ placed
      have offset_aligned := (offset_bounds ctx entry.1 (c, offset) placed).1
      rw [at_offset] at aligned
      exact (Nat.dvd_add_left offset_aligned).mp aligned
  -- The other way, an image below 4 GiB is stored as it was intended, and each part is read
  -- off the intended layout.
  · rintro ⟨fits, alignments⟩
    -- addresses, sizes and file positions: none of them was cut to 32 bits
    have exact_at := address_exact_of_fits assigned clean fits
    have exact_raw := sizeOfRawData_exact assigned clean
    have exact_file : ∀ entry ∈ filePositions ctx out.sections,
        entry.1.rawSpan ctx ≠ 0 → entry.1.pointerToRawData = entry.2 := by
      intro entry member raw
      have bound := filePosition_le assigned clean entry member
      rw [assigned.pointers entry member raw, uint32_of_le _ (by omega)]
    have aligned_at : ∀ entry ∈ addresses ctx out.sections, ctx.align ∣ entry.2 := fun entry member =>
      dvd_starts _ _ _ _ (dvd_alignTo _ _) (fun sec _ => dvd_alignTo _ _) entry member
    have located : ∀ sec ∈ out.sections, ∃ rva, (sec, rva) ∈ addresses ctx out.sections :=
      fun sec member => exists_mem_starts _ _ _ sec member
    refine ⟨?_, ?_, ?_, ?_, ?_, ?_, ?_, ?_, exact_at, exact_file, ?_⟩
    · exact chunks_ascend_of_exact (fun entry member => (exact_at entry member).2.2.2)
    · intro sec member c inSection
      obtain ⟨rva, found⟩ := located sec member
      obtain ⟨offset, placed⟩ := exists_offset ctx sec c inSection
      have at_offset : c.rva = rva + offset := (exact_at _ found).2.2.2 _ placed
      rw [at_offset]
      exact Nat.dvd_add (alignments _ found c inSection) (offset_bounds ctx sec _ placed).1
    · intro sec member
      obtain ⟨rva, found⟩ := located sec member
      have stored : sec.virtualAddress = rva := (exact_at _ found).1
      exact stored ▸ aligned_at _ found
    · refine pairwise_of_starts (imageRoom ctx) (firstAddress ctx out.sections) _ _
        (fun a first b second behind => ?_)
      have room : a.1.span ctx ≤ imageRoom ctx a.1 := le_alignTo _ _ (align_pos ctx)
      rw [(exact_at a first).1, (exact_at a first).2.1, (exact_at b second).1]
      omega
    · intro sec member
      obtain ⟨rva, found⟩ := located sec member
      have stored : sec.virtualAddress = rva := (exact_at _ found).1
      have behind : firstAddress ctx out.sections ≤ rva := (starts_bounds _ _ _ _ found).1
      have headers : headerSize ctx out.sections.length ≤ firstAddress ctx out.sections :=
        le_alignTo _ _ (align_pos ctx)
      rw [assigned.headers, stored]
      omega
    · intro sec member raw
      obtain ⟨position, found⟩ :=
        exists_mem_starts (fileRoom ctx) (headerSize ctx out.sections.length) _ sec member
      have raw_exact := exact_raw sec member
      rw [raw_exact] at raw ⊢
      have pointer : sec.pointerToRawData = position := exact_file _ found raw
      rw [pointer, assigned.headers]
      refine ⟨?_, dvd_rawSize ctx _ .start _ (Nat.dvd_zero _), (starts_bounds _ _ _ _ found).1⟩
      exact dvd_starts _ _ _ _ (dvd_alignTo _ _) (fun other _ => dvd_alignTo _ _) _ found
    · exact raw_apart_of_exact exact_raw exact_file
    · intro sec member c inSection data
      obtain ⟨rva, found⟩ := located sec member
      obtain ⟨offset, placed⟩ := exists_offset ctx sec c inSection
      have at_offset : c.rva = rva + offset := (exact_at _ found).2.2.2 _ placed
      have stored : sec.virtualAddress = rva := (exact_at _ found).1
      have inside : offset + c.getSize ≤ sec.rawSpan ctx :=
        (offset_bounds ctx sec _ placed).2.2 data
      rw [at_offset, stored, exact_raw sec member]
      omega
    · rw [assigned.image]
      exact uint32_of_le _ fits

/-- An input section of `size` bytes, with or without data. -/
def plainChunk (key size : Nat) (p2Align : Fin 14) (hasData : Bool) : Chunk where
  key
  body := .input
    { machine := .amd64, size, executable := false, hotPatchable := false, entryThunk := false,
      originalRelocs := [], relocs := [], chpeMetadata := none, same_baserels := rfl }
  p2Align
  hasData
  rva := 0

def plainSection (name : String) (chunks : List Chunk) : OutputSection where
  name
  isRelocSec := false
  isCodeSection := false
  discardable := false
  chunks
  virtualAddress := 0
  virtualSize := 0
  sizeOfRawData := 0
  pointerToRawData := 0

def smallImage : List OutputSection :=
  [plainSection ".text" [plainChunk 2 100 4 true, plainChunk 3 60 4 true],
    plainSection ".bss" [plainChunk 4 5000 3 false]]

theorem smallImage_layoutOk :
    ReportsNoError (.default .amd64) (assignAddresses (.default .amd64) smallImage) none ∧
      LayoutOk (.default .amd64) (assignAddresses (.default .amd64) smallImage) := by
  have clean : ReportsNoError (.default .amd64) (assignAddresses (.default .amd64) smallImage)
      none := by
    simp only [ReportsNoError]
    decide
  refine ⟨clean, (layoutOk_iff _ _ none clean).mpr ⟨?_, ?_⟩⟩
  · simp only [ImageFits]
    decide
  · simp only [AlignmentsFit]
    decide

/-- Three uninitialized sections of 3 GiB each: none is over 4 GiB and no file space is used. -/
def hugeImage : List OutputSection :=
  [plainSection ".a" [plainChunk 2 0xC0000000 4 false],
    plainSection ".b" [plainChunk 3 0xC0000000 4 false],
    plainSection ".c" [plainChunk 4 0xC0000000 4 false]]

theorem hugeImage_not_layoutOk :
    ReportsNoError (.default .amd64) (assignAddresses (.default .amd64) hugeImage) none ∧
      (assignAddresses (.default .amd64) hugeImage).sections.map OutputSection.virtualAddress =
        [0x1000, 0xC0001000, 0x80001000] ∧
      ¬ LayoutOk (.default .amd64) (assignAddresses (.default .amd64) hugeImage) := by
  refine ⟨?_, by decide, fun ok => ?_⟩
  · simp only [ReportsNoError]
    decide
  · exact absurd ok.sections_apart (by decide)

end LlvmLd.Writer
