import LlvmLd.Writer.LayoutInvariant
import LlvmLd.Writer.Relocation

/-!
# Writing section contents

`Writer::writeSections` with the `writeTo` functions it calls. The chunks of a section are written
concurrently; every interleaving of whole chunk writes is an order of the chunk list.

Proof strategy: a chunk write is local to the chunk's own bytes and its entry thunk word, because
each relocation is local to its field. Address assignment keeps these ranges apart, and local
updates of disjoint ranges commute.
-/

namespace LlvmLd.Writer

open Memory Placement

/-- What the writer reads from input files and from symbols. -/
structure WriteEnv where
  -- `getContents`; the object reader hands out at most `SizeOfRawData` bytes
  contents : Chunk → Bytes
  contents_le : ∀ c, (contents c).length ≤ c.getSize
  -- the pieces that a linker-made chunk's `writeTo` stores, by offset
  patches : Chunk → List (Nat × Bytes)
  patches_inside : ∀ c, ∀ patch ∈ patches c, patch.1 + patch.2.length ≤ c.getSize
  source : Chunk → RelocatedSection
  -- the symbol name and the locations that a report about a discarded symbol lists
  describe : Relocation → String
  mingw : Bool
  memExecute : OutputSection → Bool
  entryThunk : Chunk → Target

/-! ### Symbols -/

/-- `getOutputSection` of a chunk, with the index that `assignOutputSectionIndices` gives it. -/
def outputSectionOf (w : WriteEnv) (sections : List OutputSection) (key : Nat) :
    Option SymbolSection :=
  (sections.zipIdx 1).findSome? (fun (sec, idx) =>
    if sec.chunks.any (fun c => c.key = key) then
      some ⟨sec.virtualAddress, idx, w.memExecute sec⟩
    else none)

/-- The address and the section of a symbol; a discarded symbol has neither. -/
def resolve (w : WriteEnv) (ctx : Context) (sections : List OutputSection) (target : Target) :
    Option (BitVec 64 × Option SymbolSection) :=
  let s := BitVec.ofNat 64 (target.getRVA ctx sections)
  match target with
  | .missing => none
  | .absolute _ => some (s, none)
  | .chunk key _ => (outputSectionOf w sections key).map (fun os => (s, some os))

/-! ### Chunks -/

def maybeReportRelocationToDiscarded (w : WriteEnv) (sec : RelocatedSection) (rel : Relocation) :
    List String :=
  if sec.isCodeView ∨ sec.isDWARF ∨ w.mingw then []
  else ["relocation against symbol in discarded section: " ++ w.describe rel]

def applyRelocation (w : WriteEnv) (ctx : Context) (sections : List OutputSection) (c : Chunk)
    (machine : Machine) (m : Mem) (off : Int) (rel : Relocation) : Patched :=
  match resolve w ctx sections rel.target with
  | none => (m, maybeReportRelocationToDiscarded w (w.source c) rel)
  | some (s, os) =>
      applyRel machine
        { sec := w.source c
          os
          s
          p := BitVec.ofNat 64 (uint32 (c.rva + rel.virtualAddress))
          imageBase := BitVec.ofNat 64 ctx.imageBase
          numOutputSections := sections.length }
        m off rel.type

/-- The loop of `SectionChunk::writeTo`. Only the start of a relocation is checked. -/
def applyRelocations (w : WriteEnv) (ctx : Context) (sections : List OutputSection) (c : Chunk)
    (machine : Machine) (buf : Int) : Mem → List Relocation → Patched
  | m, [] => (m, [])
  | m, rel :: rest =>
      if c.getSize ≤ rel.virtualAddress then
        let (m, errors) := applyRelocations w ctx sections c machine buf m rest
        (m, "relocation points beyond the end of its parent section" :: errors)
      else
        let (m, first) := applyRelocation w ctx sections c machine m (buf + rel.virtualAddress) rel
        let (m, errors) := applyRelocations w ctx sections c machine buf m rest
        (m, first ++ errors)

def armThunk : Bytes := [0x40, 0xf2, 0x00, 0x0c, 0xc0, 0xf2, 0x00, 0x0c, 0xe7, 0x44]

def arm64Thunk : Bytes :=
  [0x10, 0x00, 0x00, 0x90, 0x10, 0x02, 0x00, 0x91, 0x00, 0x02, 0x1f, 0xd6]

/-- `RangeExtensionThunkARM::writeTo` and `RangeExtensionThunkARM64::writeTo`. -/
def writeRangeThunk (machine : Machine) (m : Mem) (buf : Int) (target rva : BitVec 64) : Patched :=
  if machine = .armnt then
    applyMOV32T (writeBytes m buf armThunk) buf ((target - rva - 12).setWidth 32)
  else
    let m := applyArm64Addr (writeBytes m buf arm64Thunk) buf target rva 12
    (applyArm64Imm m (buf + 4) (target &&& 0xfff) 0, [])

/-- The block that the constructor of `BaserelChunk` builds. -/
def baserelBlock (page : Nat) (entries : List Baserel) : Bytes :=
  let size := alignTo (entries.length * 2 + 8) 4
  let block := le32 page ++ le32 size ++
    entries.flatMap (fun rel => le16 (rel.type * 2 ^ 12 ||| uint32 (rel.rva + 2 ^ 32 - page)))
  block ++ List.replicate (size - block.length) 0

def Chunk.writeTo (w : WriteEnv) (ctx : Context) (sections : List OutputSection) (c : Chunk)
    (buf : Int) (m : Mem) : Patched :=
  match c.body with
  | .input chunk =>
      if c.hasData then
        applyRelocations w ctx sections c chunk.machine buf (writeBytes m buf (w.contents c))
          chunk.relocs
      else (m, [])
  | .rangeThunk machine target =>
      writeRangeThunk machine m buf (BitVec.ofNat 64 (target.getRVA ctx sections))
        (BitVec.ofNat 64 c.rva)
  | .baserel page entries => (writeBytes m buf (baserelBlock page entries), [])
  | _ => ((w.patches c).foldl (fun m patch => writeBytes m (buf + patch.1) patch.2) m, [])

/-! ### Sections -/

/-- `secBuf + c->getRVA() - sec->getRVA()`. -/
def OutputSection.position (sec : OutputSection) (c : Chunk) : Int :=
  sec.pointerToRawData + c.rva - sec.virtualAddress

/-- One iteration of the `parallelForEach` of `writeSections`. -/
def writeChunk (w : WriteEnv) (ctx : Context) (sections : List OutputSection) (sec : OutputSection)
    (m : Mem) (c : Chunk) : Patched :=
  let buf := sec.position c
  let (m, errors) := c.writeTo w ctx sections buf m
  if c.hasEntryThunk then
    -- the low bit is always set, so it is an offset from the last byte of the word
    let thunk := BitVec.ofNat 64 ((w.entryThunk c).getRVA ctx sections)
    (write32 m (buf - 4) ((thunk - BitVec.ofNat 64 c.rva + 1).setWidth 32), errors)
  else (m, errors)

/-- The loop that fills the gaps between functions with INT3; all offsets are 32-bit. -/
def fillGaps (sec : OutputSection) : Nat → Mem → List Chunk → Mem
  | prevEnd, m, [] =>
      fill m (sec.pointerToRawData + prevEnd) 0xCC (uint32 (sec.sizeOfRawData + 2 ^ 32 - prevEnd))
  | prevEnd, m, c :: rest =>
      let off := uint32 (c.rva + 2 ^ 32 - sec.virtualAddress)
      if sec.sizeOfRawData ≤ off then
        fill m (sec.pointerToRawData + prevEnd) 0xCC
          (uint32 (sec.sizeOfRawData + 2 ^ 32 - prevEnd))
      else
        let m := fill m (sec.pointerToRawData + prevEnd) 0xCC (uint32 (off + 2 ^ 32 - prevEnd))
        fillGaps sec (min (uint32 (off + uint32 c.getSize)) sec.sizeOfRawData) m rest

/-- The body of `writeSections` for one section, with the order in which its chunks are written. -/
def writeSection (w : WriteEnv) (ctx : Context) (sections : List OutputSection)
    (sec : OutputSection) (order : List Chunk) (m : Mem) : Mem :=
  let filled :=
    if sec.isCodeSection ∧ (ctx.machine = .amd64 ∨ ctx.machine = .i386) then
      fillGaps sec 0 m sec.chunks
    else m
  order.foldl (fun m c => (writeChunk w ctx sections sec m c).1) filled

/-! ### What a chunk write touches -/

/-- The bytes of a chunk, with the word reserved for its entry thunk. -/
def OutputSection.range (sec : OutputSection) (c : Chunk) : Set Int :=
  Set.Ico (sec.position c - (if c.hasEntryThunk then 4 else 0)) (sec.position c + c.getSize)

/-- Where the relocated fields of a chunk start, and how wide they are. -/
def Chunk.fields (c : Chunk) : List (Nat × Nat) :=
  match c.body with
  | .input chunk =>
      chunk.relocs.map (fun rel => (rel.virtualAddress, relocWidth chunk.machine rel.type))
  | _ => []

/-- Every relocation that starts in the chunk lies in it with its whole field. -/
def Chunk.FieldsInside (c : Chunk) : Prop :=
  ∀ field ∈ c.fields, field.1 < c.getSize → field.1 + field.2 ≤ c.getSize

instance (c : Chunk) : Decidable c.FieldsInside :=
  inferInstanceAs (Decidable (∀ field ∈ c.fields, field.1 < c.getSize →
    field.1 + field.2 ≤ c.getSize))

section Locality

variable (w : WriteEnv) (ctx : Context) (sections : List OutputSection) (c : Chunk) (buf : Int)

theorem local_applyRelocation (machine : Machine) (off : Int) (rel : Relocation) :
    Local (Set.Ico off (off + relocWidth machine rel.type))
      (fun m => (applyRelocation w ctx sections c machine m off rel).1) := by
  simp only [applyRelocation]
  split
  · exact Local.id
  · exact local_applyRel off machine _ rel.type

private theorem local_applyRelocations (machine : Machine) (rels : List Relocation)
    (inside : ∀ rel ∈ rels, rel.virtualAddress < c.getSize →
      rel.virtualAddress + relocWidth machine rel.type ≤ c.getSize) :
    Local (Set.Ico buf (buf + c.getSize))
      (fun m => (applyRelocations w ctx sections c machine buf m rels).1) := by
  induction rels with
  | nil => exact Local.id
  | cons rel rest ih =>
    have later := ih (fun other member => inside other (List.mem_cons_of_mem rel member))
    unfold applyRelocations
    dsimp only
    by_cases beyond : c.getSize ≤ rel.virtualAddress
    · simp only [if_pos beyond]
      exact later
    · simp only [if_neg beyond]
      have field := inside rel (by simp) (by omega)
      have first := (local_applyRelocation w ctx sections c machine (buf + rel.virtualAddress)
        rel).mono (T := Set.Ico buf (buf + c.getSize))
        (Set.Ico_subset_Ico (by omega) (by omega))
      exact first.comp later

private theorem local_writeRangeThunk (machine : Machine) (target rva : BitVec 64) :
    Local (Set.Ico buf (buf + (if machine = .armnt then 10 else 12 : Nat)))
      (fun m => (writeRangeThunk machine m buf target rva).1) := by
  simp only [writeRangeThunk]
  by_cases arm : machine = .armnt
  · simp only [if_pos arm]
    have code := local_writeBytes_of_le buf armThunk 10 (by decide)
    have operand := (local_applyMOV32T buf ((target - rva - 12).setWidth 32)).mono
      (T := Set.Ico buf (buf + (10 : Nat))) (Set.Ico_subset_Ico_right (by omega))
    exact code.comp operand
  · simp only [if_neg arm]
    have code := local_writeBytes_of_le buf arm64Thunk 12 (by decide)
    have adrp := (local_applyArm64Addr buf target rva 12).mono
      (T := Set.Ico buf (buf + (12 : Nat))) (Set.Ico_subset_Ico_right (by omega))
    have add := (local_applyArm64Imm (buf + 4) (target &&& 0xfff) 0).mono
      (T := Set.Ico buf (buf + (12 : Nat))) (Set.Ico_subset_Ico (by omega) (by omega))
    exact (code.comp adrp).comp add

theorem length_baserelBlock (page : Nat) (entries : List Baserel) :
    (baserelBlock page entries).length = alignTo (entries.length * 2 + 8) 4 := by
  have room := le_alignTo (entries.length * 2 + 8) 4 (by omega)
  have words : (entries.flatMap (fun rel =>
      le16 (rel.type * 2 ^ 12 ||| uint32 (rel.rva + 2 ^ 32 - page)))).length =
      entries.length * 2 := by
    simp [List.length_flatMap]
  simp only [baserelBlock, List.length_append, List.length_replicate, length_le32, words]
  omega

private theorem local_patches (patches : List (Nat × Bytes)) (size : Nat)
    (inside : ∀ patch ∈ patches, patch.1 + patch.2.length ≤ size) :
    Local (Set.Ico buf (buf + size))
      (fun m => patches.foldl (fun m patch => writeBytes m (buf + patch.1) patch.2) m) := by
  apply Local.foldl
  intro patch member
  have fits := inside patch member
  exact (local_writeBytes (buf + patch.1) patch.2).mono
    (Set.Ico_subset_Ico (by omega) (by omega))

private theorem local_writeTo (inside : c.FieldsInside) :
    Local (Set.Ico buf (buf + c.getSize)) (fun m => (c.writeTo w ctx sections buf m).1) := by
  simp only [Chunk.writeTo]
  -- each kind of chunk writes no more bytes than its size says
  cases body : c.body with
  | input chunk =>
    have fields : ∀ rel ∈ chunk.relocs, rel.virtualAddress < c.getSize →
        rel.virtualAddress + relocWidth chunk.machine rel.type ≤ c.getSize := by
      intro rel member
      exact inside (rel.virtualAddress, relocWidth chunk.machine rel.type)
        (by simpa [Chunk.fields, body] using ⟨rel, member, rfl, rfl⟩)
    by_cases data : c.hasData = true
    · simp only [if_pos data]
      have copied := local_writeBytes_of_le buf (w.contents c) c.getSize (w.contents_le c)
      exact copied.comp (local_applyRelocations w ctx sections c buf chunk.machine _ fields)
    · simp only [if_neg data]
      exact Local.id
  | rangeThunk machine target =>
    rw [show c.getSize = if machine = .armnt then 10 else 12 by simp [Chunk.getSize, body]]
    exact local_writeRangeThunk buf machine _ _
  | baserel page entries =>
    refine local_writeBytes_of_le buf (baserelBlock page entries) c.getSize ?_
    rw [length_baserelBlock]
    simp [Chunk.getSize, body]
  | synthetic chunk => exact local_patches buf (w.patches c) c.getSize (w.patches_inside c)
  | importThunkARM64EC extended helper =>
    exact local_patches buf (w.patches c) c.getSize (w.patches_inside c)
  | codeMap entries => exact local_patches buf (w.patches c) c.getSize (w.patches_inside c)
  | dynamicRelocs size => exact local_patches buf (w.patches c) c.getSize (w.patches_inside c)

theorem local_writeChunk (sec : OutputSection) (inside : c.FieldsInside) :
    Local (sec.range c) (fun m => (writeChunk w ctx sections sec m c).1) := by
  have body := local_writeTo w ctx sections c (sec.position c) inside
  unfold writeChunk OutputSection.range
  dsimp only
  by_cases thunk : c.hasEntryThunk = true
  · simp only [if_pos thunk]
    have contents := body.mono
      (T := Set.Ico (sec.position c - 4) (sec.position c + c.getSize))
      (Set.Ico_subset_Ico_left (by omega))
    have word := fun v => (local_write32 (sec.position c - 4) v).mono
      (T := Set.Ico (sec.position c - 4) (sec.position c + c.getSize))
      (Set.Ico_subset_Ico_right (by omega))
    exact contents.comp (word _)
  · simp only [if_neg thunk, Int.sub_zero]
    exact body

end Locality

/-! ### Chunk ranges do not overlap -/

/-- A stored position is the exact offset, or that offset less 4 GiB when the address has wrapped. -/
theorem position_of_stored (ctx : Context) (sec : OutputSection) (rva : Nat)
    (stored : StoredAt ctx sec rva) (small : sec.span ctx ≤ uint32Max) (placed : Chunk × Nat)
    (member : placed ∈ sec.offsets ctx) :
    (uint32 rva + placed.2 < 2 ^ 32 ∧
        sec.position placed.1 = sec.pointerToRawData + placed.2) ∨
      (2 ^ 32 ≤ uint32 rva + placed.2 ∧
        sec.position placed.1 = sec.pointerToRawData + placed.2 - 2 ^ 32) := by
  have bounds := (offset_bounds ctx sec placed member).2.1
  have at_rva := stored.chunk placed member
  have start := stored.virtualAddress
  simp only [OutputSection.position]
  rw [at_rva, start]
  unfold uint32 uint32Max at *
  omega

private theorem ranges_disjoint (ctx : Context) (sec : OutputSection) (rva : Nat)
    (stored : StoredAt ctx sec rva) (small : sec.span ctx ≤ uint32Max) :
    sec.chunks.Pairwise (fun a b => Disjoint (sec.range a) (sec.range b)) := by
  rw [← offsetsFrom_map_fst ctx sec.isCodeSection .start sec.chunks, List.pairwise_map]
  have ascending := offsetsFrom_pairwise ctx sec.isCodeSection .start sec.chunks
  refine ascending.imp_of_mem (fun {a b} first second apart => ?_)
  have reserved := le_offsetsFrom ctx sec.isCodeSection .start sec.chunks a first
  have ends := (offset_bounds ctx sec b second).2.1
  have whereA := position_of_stored ctx sec rva stored small a first
  have whereB := position_of_stored ctx sec rva stored small b second
  unfold uint32Max at small
  simp only [OutputSection.range]
  rw [Set.disjoint_left]
  rintro x ⟨afterA, beforeA⟩ ⟨afterB, beforeB⟩
  split_ifs at apart reserved afterA afterB <;> omega

/--
In a section that passes the 4 GiB check, with relocation fields that lie in their chunks, a chunk
write changes its own bytes and its entry thunk word only, and every order of the chunk writes
gives the same bytes.
-/
theorem writeSection_order_irrelevant (w : WriteEnv) (ctx : Context) (sections : List OutputSection)
    (sec : OutputSection) (member : sec ∈ (assignAddresses ctx sections).sections)
    (small : sec.span ctx ≤ uint32Max) (inside : ∀ c ∈ sec.chunks, c.FieldsInside) :
    (∀ c ∈ sec.chunks, ∀ m a, a ∉ sec.range c →
      (writeChunk w ctx (assignAddresses ctx sections).sections sec m c).1 a = m a) ∧
    (∀ order : List Chunk, order.Perm sec.chunks → ∀ m,
      writeSection w ctx (assignAddresses ctx sections).sections sec order m =
        writeSection w ctx (assignAddresses ctx sections).sections sec sec.chunks m) := by
  have assigned := assignAddresses_assigned ctx sections
  generalize assignAddresses ctx sections = out at member assigned ⊢
  obtain ⟨rva, found⟩ :=
    exists_mem_starts (imageRoom ctx) (firstAddress ctx out.sections) _ sec member
  have apart := ranges_disjoint ctx sec rva (assigned.stored _ found) small
  have each : ∀ c ∈ sec.chunks, Local (sec.range c)
      (fun m => (writeChunk w ctx out.sections sec m c).1) :=
    fun c inSection => local_writeChunk w ctx out.sections c sec (inside c inSection)
  constructor
  · intro c inSection m a outside
    exact (each c inSection).frame m a outside
  · intro order permuted m
    simp only [writeSection]
    exact foldl_perm_of_disjoint _ sec.range sec.chunks order permuted each apart _

/-- Input sections that hold 1, 2, 3 and so on. -/
def countingEnv : WriteEnv where
  contents := fun c => (List.range (min c.getSize 16)).map (fun i => UInt8.ofNat (i + 1))
  contents_le := fun c => by simp
  patches := fun _ => []
  patches_inside := fun _ patch member => by cases member
  source := fun _ => ⟨".data", "a.obj", false, false⟩
  describe := fun _ => ""
  mingw := false
  memExecute := fun _ => false
  entryThunk := fun _ => .chunk 2 0

/-- An input section with a pointer to the chunk with key 3 at `va`. -/
def pointingChunk (key size va : Nat) : Chunk where
  key
  body := .input
    { machine := .amd64, size, executable := false, hotPatchable := false, entryThunk := false,
      originalRelocs := [⟨va, relAmd64Addr32, .chunk 3 0⟩],
      relocs := [⟨va, relAmd64Addr32, .chunk 3 0⟩], chpeMetadata := none, same_baserels := rfl }
  p2Align := 0
  hasData := true
  rva := 0

def pointingImage (va : Nat) : List OutputSection :=
  [plainSection ".data" [pointingChunk 2 4 va, plainChunk 3 4 0 true]]

theorem pointingImage_order_irrelevant :
    ∃ sec ∈ (assignAddresses (.default .amd64) (pointingImage 0)).sections,
      (∀ c ∈ sec.chunks, c.FieldsInside) ∧
      writeSection countingEnv (.default .amd64)
          (assignAddresses (.default .amd64) (pointingImage 0)).sections sec sec.chunks.reverse
          (fun _ => 0) =
        writeSection countingEnv (.default .amd64)
          (assignAddresses (.default .amd64) (pointingImage 0)).sections sec sec.chunks
          (fun _ => 0) := by
  refine ⟨_, List.mem_cons_self, ?_, ?_⟩
  · decide
  · exact (writeSection_order_irrelevant countingEnv (.default .amd64) (pointingImage 0) _
      List.mem_cons_self (by decide) (by decide)).2 _ (List.reverse_perm _) _

/-- Two orders of the chunk writes leave different bytes at `a`. -/
def OrderMattersAt (ctx : Context) (sections : List OutputSection) (sec : OutputSection)
    (a : Int) : Prop :=
  writeSection countingEnv ctx sections sec sec.chunks (fun _ => 0) a ≠
    writeSection countingEnv ctx sections sec sec.chunks.reverse (fun _ => 0) a

/-- 16 bytes of data, 4 GiB without data, and a function whose entry thunk word has wrapped. -/
def wrappedImage : List OutputSection :=
  [plainSection ".data"
    [plainChunk 2 16 0 true, plainChunk 3 0xFFFFFFF4 0 false,
      { plainChunk 4 0 0 false with
        body := .input
          { machine := .arm64ec, size := 0, executable := false, hotPatchable := false,
            entryThunk := true, originalRelocs := [], relocs := [], chpeMetadata := none,
            same_baserels := rfl } }]]

/--
A pointer at offset 2 of a chunk of 4 bytes passes the check of `writeTo` and reaches into the next
chunk. In a section over 4 GiB an entry thunk word can lie in another chunk.
-/
theorem chunk_order_matters :
    (∃ sec ∈ (assignAddresses (.default .amd64) (pointingImage 2)).sections,
      (∀ c ∈ sec.chunks, ∀ field ∈ c.fields, field.1 < c.getSize) ∧
      OrderMattersAt (.default .amd64)
        (assignAddresses (.default .amd64) (pointingImage 2)).sections sec 0x205) ∧
    (∃ sec ∈ (assignAddresses (.default .arm64ec) wrappedImage).sections,
      (∀ c ∈ sec.chunks, c.FieldsInside) ∧
      OrderMattersAt (.default .arm64ec)
        (assignAddresses (.default .arm64ec) wrappedImage).sections sec 0x205) := by
  constructor
  · refine ⟨_, List.mem_cons_self, by decide, ?_⟩
    simp only [OrderMattersAt]
    decide
  · refine ⟨_, List.mem_cons_self, by decide, ?_⟩
    simp only [OrderMattersAt]
    decide

end LlvmLd.Writer
