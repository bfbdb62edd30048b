import LlvmLd.Writer.Chunk

/-!
# Address assignment

`Writer::assignAddresses` and the size checks of `Writer::run`. Running totals are 64-bit and
exact; what is stored in chunks and headers is truncated to 32 bits.

Proof strategy: the offsets of the chunks in their section and the addresses of the sections are
functions of sizes and alignments alone, and both ascend. A stored value is the exact one as long
as the whole image stays below 4 GiB, so every property of the stored layout is read off the exact
one.
-/

namespace LlvmLd.Writer

/-- The configuration and the parts of the linker context that the layout depends on. -/
structure Context where
  machine : Machine
  align : Nat
  fileAlign : Nat
  align_pow : ∃ k, align = 2 ^ k
  fileAlign_pow : ∃ k, fileAlign = 2 ^ k
  functionPadMin : Nat
  relocatable : Bool
  imageBase : Nat
  dosStubSize : Nat
  -- `llvm::sort` by address; the order of equal addresses is not specified
  sort : List Baserel → List Baserel
  sort_perm : ∀ v, (sort v).Perm v
  sort_sorted : ∀ v, (sort v).Pairwise (fun a b => a.rva ≤ b.rva)
  -- the size that `DynamicRelocsChunk::finalize` computes from the addresses assigned so far
  dynamicRelocs : Option (List OutputSection → Nat)

/-- The locals of the loop over the chunks of a section. -/
structure Cursor where
  virtualSize : Nat
  rawSize : Nat
  prevECRange : Option ChpeRange

def Cursor.start : Cursor := ⟨0, 0, none⟩

def padding (ctx : Context) (code : Bool) : Nat := if code then ctx.functionPadMin else 0

/-- Where in its section the next chunk is placed. -/
def chunkOffset (ctx : Context) (code : Bool) (cur : Cursor) (c : Chunk) : Nat :=
  let atRange :=
    if ctx.machine.isArm64EC ∧ code ∧ c.getArm64ECRangeType ≠ cur.prevECRange then
      alignTo cur.virtualSize 4096
    else cur.virtualSize
  let padded :=
    if padding ctx code ≠ 0 ∧ c.isHotPatchable then atRange + padding ctx code else atRange
  -- reserve a space for the offset to the entry thunk
  let reserved := if c.hasEntryThunk then padded + 4 else padded
  alignTo reserved c.getAlignment

def advance (ctx : Context) (code : Bool) (cur : Cursor) (c : Chunk) : Cursor :=
  let virtualSize := chunkOffset ctx code cur c + c.getSize
  { virtualSize
    rawSize := if c.hasData then alignTo virtualSize ctx.fileAlign else cur.rawSize
    prevECRange :=
      if ctx.machine.isArm64EC ∧ code then c.getArm64ECRangeType else cur.prevECRange }

/-- The loop over the chunks of a section placed at `rva`. -/
def placeChunks (ctx : Context) (code : Bool) (rva : Nat) : Cursor → List Chunk → List Chunk
  | _, [] => []
  | cur, c :: rest =>
      c.setRVA (rva + chunkOffset ctx code cur c) ::
        placeChunks ctx code rva (advance ctx code cur c) rest

/-- The cursor behind the last chunk. -/
def OutputSection.finish (ctx : Context) (sec : OutputSection) : Cursor :=
  sec.chunks.foldl (advance ctx sec.isCodeSection) .start

def OutputSection.span (ctx : Context) (sec : OutputSection) : Nat := (sec.finish ctx).virtualSize

def OutputSection.rawSpan (ctx : Context) (sec : OutputSection) : Nat := (sec.finish ctx).rawSize

def dynamicRelocsChunk (size : Nat) : Chunk where
  key := 1
  body := .dynamicRelocs size
  p2Align := 0
  hasData := true
  rva := 0

/-- `addBaserels` and the dynamic relocations, at the moment the loop reaches `.reloc`. -/
def relocChunks (ctx : Context) (sections : List OutputSection) : List Chunk :=
  (if ctx.relocatable then sections.flatMap (sectionBaserels ctx.sort) else []) ++
    (ctx.dynamicRelocs.map (fun finalize => dynamicRelocsChunk (finalize sections))).toList

/-- The chunk list with which a section enters the loop body. -/
def populate (ctx : Context) (done : List OutputSection) (sec : OutputSection)
    (rest : List OutputSection) : OutputSection :=
  if sec.isRelocSec then
    { sec with chunks := relocChunks ctx (done ++ { sec with chunks := [] } :: rest) }
  else sec

def placeSection (ctx : Context) (rva fileSize : Nat) (sec : OutputSection) : OutputSection :=
  { sec with
    chunks := placeChunks ctx sec.isCodeSection rva .start sec.chunks
    virtualAddress := uint32 rva
    virtualSize := uint32 (sec.span ctx)
    sizeOfRawData := uint32 (sec.rawSpan ctx)
    pointerToRawData := if sec.rawSpan ctx ≠ 0 then uint32 fileSize else sec.pointerToRawData }

/-- What `assignAddresses` leaves in the writer; the totals are 64-bit. -/
structure Layout where
  sections : List OutputSection
  sizeOfHeaders : Nat
  sizeOfImage : Nat
  fileSize : Nat
  errors : List String

/-- The loop over the output sections. -/
def assignSections (ctx : Context) (headers : Nat) :
    List OutputSection → Nat → Nat → List String → List OutputSection → Layout
  | done, rva, fileSize, errors, [] =>
      { sections := done, sizeOfHeaders := headers, sizeOfImage := alignTo rva ctx.align, fileSize,
        errors }
  | done, rva, fileSize, errors, sec :: rest =>
      let sec := populate ctx done sec rest
      let errors :=
        if uint32Max < sec.span ctx then errors ++ ["section larger than 4 GiB: " ++ sec.name]
        else errors
      assignSections ctx headers (done ++ [placeSection ctx rva fileSize sec])
        (rva + alignTo (sec.span ctx) ctx.align)
        (fileSize + alignTo (sec.rawSpan ctx) ctx.fileAlign) errors rest

/-- The number of ranges `createECCodeMap` closes over the chunks of all sections. -/
def countRanges : Option ChpeRange → List Chunk → Nat
  | last, [] => if last.isSome then 1 else 0
  | last, c :: rest =>
      match c.body with
      | .input chunk =>
          -- empty section chunks are skipped
          if chunk.size = 0 then countRanges last rest
          else if c.getArm64ECRangeType = last then countRanges last rest
          else (if last.isSome then 1 else 0) + countRanges c.getArm64ECRangeType rest
      | _ =>
          if c.getArm64ECRangeType = last then countRanges last rest
          else (if last.isSome then 1 else 0) + countRanges c.getArm64ECRangeType rest

def Chunk.setCodeMapSize (entries : Nat) (c : Chunk) : Chunk :=
  match c.body with
  | .codeMap _ => { c with body := .codeMap entries }
  | _ => c

def createECCodeMap (ctx : Context) (sections : List OutputSection) : List OutputSection :=
  if ctx.machine.isArm64EC then
    let entries := countRanges none (sections.flatMap OutputSection.chunks)
    sections.map (fun sec => { sec with chunks := sec.chunks.map (Chunk.setCodeMapSize entries) })
  else sections

/-- PE magic, COFF header, 16 data directories, section headers, and the optional header. -/
def headerSize (ctx : Context) (count : Nat) : Nat :=
  alignTo (ctx.dosStubSize + 4 + 20 + 8 * 16 + 40 * count +
    (if ctx.machine.is64 then 112 else 96)) ctx.fileAlign

def assignAddresses (ctx : Context) (sections : List OutputSection) : Layout :=
  let sections := createECCodeMap ctx sections
  let headers := headerSize ctx sections.length
  assignSections ctx headers [] (alignTo headers ctx.align) headers [] sections

/-- `createSymbolAndStringTable` appends its tables, if there are any, behind the last section. -/
def createSymbolAndStringTable (ctx : Context) (fileSize : Nat) (tables : Option Nat) : Nat :=
  match tables with
  | none => fileSize
  | some bytes => alignTo (fileSize + bytes) ctx.fileAlign

/-- Neither `assignAddresses` nor the size check of `Writer::run` reports anything. -/
def ReportsNoError (ctx : Context) (out : Layout) (tables : Option Nat) : Prop :=
  out.errors = [] ∧ createSymbolAndStringTable ctx out.fileSize tables ≤ uint32Max

/-- The default configuration of a relocatable image, with a sort that keeps equal addresses. -/
def Context.default (machine : Machine) : Context where
  machine
  align := 4096
  fileAlign := 512
  align_pow := ⟨12, rfl⟩
  fileAlign_pow := ⟨9, rfl⟩
  functionPadMin := 0
  relocatable := true
  imageBase := 0x140000000
  dosStubSize := 120
  sort := List.insertionSort (fun a b => a.rva ≤ b.rva)
  sort_perm := List.perm_insertionSort _
  sort_sorted := fun v => by
    have total : Std.Total (fun a b : Baserel => a.rva ≤ b.rva) :=
      ⟨fun a b => Nat.le_total a.rva b.rva⟩
    have trans : IsTrans Baserel (fun a b => a.rva ≤ b.rva) := ⟨fun _ _ _ => Nat.le_trans⟩
    exact List.pairwise_insertionSort _ v
  dynamicRelocs := none

end LlvmLd.Writer
