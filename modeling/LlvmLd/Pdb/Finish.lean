import Mathlib.Logic.Function.Basic
import LlvmLd.Pdb.FileChecksums
import LlvmLd.Pdb.SymbolOffsets

/-!
# Publishing an object's debug info

`DebugSHandler::finish` behind the analysis: what a handler has gathered goes into the builders that
all objects share.
-/

namespace LlvmLd.Pdb

open Codeview Memory Outcome Writer

/-! ### The builders -/

/-- `codeview::FrameData`. -/
structure FrameData where
  rvaStart : Nat
  codeSize : Nat
  localSize : Nat
  paramsSize : Nat
  maxStackSize : Nat
  frameFunc : Nat
  prologSize : Nat
  savedRegsSize : Nat
  flags : Nat
  deriving DecidableEq, Repr

/-- `SymbolListWrapper`: bytes, or an object whose symbols are merged when they are written. -/
inductive SymbolList where
  | bulk (bytes : Bytes)
  | unmerged (file : SymbolFile) (length : Nat)

/-- A subsection behind the symbols of a module. -/
inductive ModuleSubsection where
  | unrelocated (u : Unrelocated)
  | checksums (new : DebugChecksumsSubsection)

/-- A `DbiModuleDescriptorBuilder`, without the names and the header. -/
structure ModuleDescriptor where
  symbols : List SymbolList
  symbolByteSize : Nat
  sourceFiles : List Bytes
  -- the offset in the string table, and the place in the module's symbols
  stringTableFixups : List (Nat × Nat)
  c13Builders : List ModuleSubsection

def ModuleDescriptor.init : ModuleDescriptor := ⟨[], 0, [], [], []⟩

structure PdbStats where
  globalSymbols : Nat
  moduleSymbols : Nat
  deriving DecidableEq, Repr

/-- What the objects share. -/
structure Builders where
  -- the records given to `addGlobalSymbol`
  globals : List Bytes
  oldFpoData : List Bytes
  newFpoData : List FrameData
  -- the keys of `SourceFileNames`, each with its position as its index
  sourceFileNames : List Bytes
  pdbStrTab : StringTable
  modules : Nat → ModuleDescriptor
  pdbStats : Option PdbStats

def Builders.updateModule (b : Builders) (moduleIndex : Nat)
    (f : ModuleDescriptor → ModuleDescriptor) : Builders :=
  { b with modules := Function.update b.modules moduleIndex (f (b.modules moduleIndex)) }

def addUnmergedSymbols (file : SymbolFile) (length : Nat) (mod : ModuleDescriptor) :
    ModuleDescriptor :=
  { mod with
    symbols := mod.symbols ++ [.unmerged file length]
    symbolByteSize := uint32 (mod.symbolByteSize + length) }

def addModuleSourceFile (moduleIndex : Nat) (fileName : Bytes) (b : Builders) : Builders :=
  let sourceFileNames :=
    if fileName ∈ b.sourceFileNames then b.sourceFileNames else b.sourceFileNames ++ [fileName]
  { b with sourceFileNames }.updateModule moduleIndex
    fun mod => { mod with sourceFiles := mod.sourceFiles ++ [fileName] }

/-! ### Records that need no strings -/

def fpoDataSize : Nat := 16

/-- The memory that is allocated for the section is all relocated from the section's contents. -/
def relocateDebugChunk (sec : DebugSection) : Bytes :=
  let d := sec.chunk
  readBytes (d.c.writeTo d.w d.ctx d.sections 0 fun _ => 0).1 0 d.c.getSize

/-- The records of a `.debug$F` section; bytes behind the last whole one are left. -/
def fpoRecords (sec : DebugSection) : List Bytes :=
  let contents := relocateDebugChunk sec
  (List.range (contents.length / fpoDataSize)).map fun i => contents.slice (fpoDataSize * i) fpoDataSize

namespace Handler

variable (h : Handler)

def publishGlobals (b : Builders) : Builders :=
  if h.analysis.dsh.globalsStorage.isEmpty then b
  else { b with globals := b.globals ++ h.analysis.dsh.published }

def addOldFpoData (b : Builders) : Builders :=
  { b with oldFpoData := b.oldFpoData ++ h.debugFChunks.flatMap fpoRecords }

def addStats (b : Builders) : Builders :=
  { b with
    pdbStats := b.pdbStats.map fun stats =>
      ⟨stats.globalSymbols + h.analysis.dsh.globalSymbolCount,
        stats.moduleSymbols + h.analysis.dsh.moduleSymbolCount⟩ }

/-- The analysis has already added the subsections to the module, which only this object has. -/
def reserveSymbols (file : SymbolFile) (b : Builders) : Builders :=
  b.updateModule file.moduleIndex fun mod =>
    let mod := { mod with
      c13Builders := mod.c13Builders ++ h.debugSubsections.map .unrelocated }
    if kSymbolStreamMagicSize < h.analysis.moduleSymOffset then
      addUnmergedSymbols file (h.analysis.moduleSymOffset - kSymbolStreamMagicSize) mod
    else mod

/-- The part of `finish` that no string table is needed for. -/
def finishRecords (file : SymbolFile) (b : Builders) : Builders :=
  h.reserveSymbols file (h.addStats (h.addOldFpoData (h.publishGlobals b)))

end Handler

/-! ### References to strings -/

/-- An offset that cannot be read is reported and becomes 0. -/
def translateStringTableIndex (objStrTable : Bytes) (pdbStrTable : StringTable) (objIndex : Nat) :
    StringTable × Nat :=
  match objStrTable.cString objIndex with
  | none => (pdbStrTable, 0)
  | some expectedString => pdbStrTable.insert expectedString

def frameDataSize : Nat := 32

def readFrameData (record : Bytes) : FrameData where
  rvaStart := record.u32At 0
  codeSize := record.u32At 4
  localSize := record.u32At 8
  paramsSize := record.u32At 12
  maxStackSize := record.u32At 16
  frameFunc := record.u32At 20
  prologSize := record.u16At 24
  savedRegsSize := record.u16At 26
  flags := record.u32At 28

/-- `DebugFrameDataSubsectionRef::initialize`: the relocated address may be missing. -/
def frameDataArray (data : Bytes) : Except Halt (List FrameData) :=
  let frames := if data.length % frameDataSize = 0 then data else data.drop 4
  if data.length % frameDataSize ≠ 0 ∧ data.length < 4 then
    .error (.fatal Gsi.streamTooShort)
  else if frames.length % frameDataSize ≠ 0 then
    .error (.fatal "The CodeView record is corrupted. Invalid frame data record format!")
  else
    .ok ((List.range (frames.length / frameDataSize)).map fun i =>
      readFrameData (frames.slice (frameDataSize * i) frameDataSize))

/-- The first four bytes of a frame data subsection, relocated on their own. -/
def Unrelocated.rvaStart (u : Unrelocated) : Nat :=
  let d := u.debugChunk.chunk
  let (mem, _, _) := writeAndRelocateSubsection d.w d.ctx d.sections d.c d.machine u.subsec.vaBegin
    (u.subsec.vaBegin + min 4 u.subsec.length) u.relocs (0 : Nat) fun _ => 0
  (readBytes mem (0 : Nat) 4).u32At 0

section Strings

variable (pdbMakeAbsolute : Bytes → Bytes) (cvStrTab : Bytes)

def addFrame (rvaStart : Nat) (b : Builders) (fd : FrameData) : Builders :=
  let (pdbStrTab, frameFunc) := translateStringTableIndex cvStrTab b.pdbStrTab fd.frameFunc
  { b with
    pdbStrTab
    newFpoData := b.newFpoData ++
      [{ fd with rvaStart := uint32 (fd.rvaStart + rvaStart), frameFunc }] }

def addFrames (b : Builders) (u : Unrelocated) : Except Halt Builders := do
  let frames ← frameDataArray (u.subsec.data u.debugChunk)
  return frames.foldl (addFrame cvStrTab u.rvaStart) b

def translateFixup (s : StringTable × List (Nat × Nat)) (ref : Nat × Nat) :
    StringTable × List (Nat × Nat) :=
  let (pdbStrTab, strTabOffset) := translateStringTableIndex cvStrTab s.1 ref.1
  (pdbStrTab, s.2 ++ [(strTabOffset, ref.2)])

def translateFixups (moduleIndex : Nat) (fixups : List (Nat × Nat)) (b : Builders) : Builders :=
  let (pdbStrTab, stringTableFixups) := fixups.foldl (translateFixup cvStrTab) (b.pdbStrTab, [])
  { b with pdbStrTab }.updateModule moduleIndex fun mod => { mod with stringTableFixups }

/-- Why a string cannot be read. -/
def cStringError (table : Bytes) (offset : Nat) : String :=
  if table.length < offset then
    "Stream Error: The specified offset is invalid for the current stream."
  else Gsi.streamTooShort

/-- One round of the loop over the file checksums. -/
def addFile (moduleIndex : Nat) (s : Builders × DebugChecksumsSubsection) (fc : FileChecksumEntry) :
    Except Halt (Builders × DebugChecksumsSubsection) :=
  match cvStrTab.cString fc.fileNameOffset with
  | none => .error (.fatal (cStringError cvStrTab fc.fileNameOffset))
  | some name =>
    let fileName := pdbMakeAbsolute name
    let b := addModuleSourceFile moduleIndex fileName s.1
    let (pdbStrTab, new) := addChecksum b.pdbStrTab s.2 fileName fc.kind fc.checksum
    .ok ({ b with pdbStrTab }, new)

def addFiles (moduleIndex : Nat) (checksums : Bytes) (b : Builders) : Except Halt Builders := do
  let (b, new) ← ((checksumArray checksums).1.map Prod.fst).foldlM
    (addFile pdbMakeAbsolute cvStrTab moduleIndex) (b, ⟨[], 0⟩)
  return b.updateModule moduleIndex fun mod =>
    { mod with c13Builders := mod.c13Builders ++ [.checksums new] }

/-- The part of `finish` behind the test for a string table. -/
def Handler.finishStrings (moduleIndex : Nat) (h : Handler) (b : Builders) : Except Halt Builders := do
  let b ← h.frameDataSubsecs.foldlM (addFrames cvStrTab) b
  let b := translateFixups cvStrTab moduleIndex h.analysis.stringTableFixups b
  addFiles pdbMakeAbsolute cvStrTab moduleIndex (h.checksums.getD []) b

end Strings

/-- `finish` of a handler that has been analyzed. -/
def Handler.finish (pdbMakeAbsolute : Bytes → Bytes) (file : SymbolFile) (h : Handler)
    (b : Builders) : Except Halt Builders :=
  match h.cvStrTab with
  | none =>
    if h.checksums.isSome then
      .error (.fatal
        ".debug$S sections with a checksums subsection must also contain a string table subsection")
    else .ok (h.finishRecords file b)
  | some cvStrTab => h.finishStrings pdbMakeAbsolute cvStrTab file.moduleIndex (h.finishRecords file b)

end LlvmLd.Pdb
