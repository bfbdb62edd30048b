import LlvmLd.Input.FlagsReaders
import LlvmLd.Pdb.GlobalRecords
import LlvmLd.Writer.Subsections

/-!
`DebugSHandler` up to the end of `analyzeChunks`: the live debug sections of an object, and the
subsections of its `.debug$S` sections.
-/

namespace LlvmLd.Pdb

open Codeview Writer

/-! ### Sections -/

/-- A debug section of an object file. -/
structure DebugSection where
  chunk : DebugChunk
  name : String
  live : Bool
  /-- The relocations, as `sortRelocations` leaves them. -/
  relocs : List Relocation
  sorted : relocs.Pairwise (fun r s => r.virtualAddress ≤ s.virtualAddress)
  size_lt : chunk.c.getSize < 2 ^ 32

/-- An object file with its `getDebugChunks`. -/
structure SymbolFile where
  debugChunks : List DebugSection
  moduleIndex : Nat

namespace DebugSection

variable (sec : DebugSection)

def contents : Bytes := sec.chunk.w.contents sec.chunk.c

def skipped : Bool := !sec.live || sec.chunk.c.getSize == 0

def isDebugS : Bool := !sec.skipped && sec.name == ".debug$S"

def isDebugF : Bool := !sec.skipped && sec.name == ".debug$F"

/-- A subsection: its kind, and where its data stands in the section. -/
structure Subsection where
  kind : Nat
  vaBegin : Nat
  length : Nat
  deriving DecidableEq, Repr

/-- The loop over a `DebugSubsectionArray`, `pos` bytes into the section. A section has fewer than
`2 ^ 32` bytes, so every round moves forward. -/
def placeSubsections : Nat → Nat → Bytes → List Subsection
  | 0, _, _ => []
  | fuel + 1, pos, stream =>
    if stream.isEmpty then []
    else
      match Input.extractSubsection stream with
      | none => []
      | some (len, sub) =>
        ⟨sub.kind, pos + 8, sub.data.length⟩ :: placeSubsections fuel (pos + len) (stream.drop len)

/-- The subsections of a section; the magic takes its first four bytes. -/
def subsections : Except Halt (List Subsection) := do
  match Input.consumeDebugMagic sec.contents .symbols with
  | .error (.fatal text) => .error (.fatal text)
  | .error _ => .error .unreachable
  | .ok data => .ok (placeSubsections data.length 4 data)

def Subsection.data (ss : Subsection) : Bytes := sec.contents.slice ss.vaBegin ss.length

end DebugSection

open DebugSection

/-! ### The handler -/

/-- A subsection that is relocated later, with the relocations from `relocIndex` on. -/
structure Unrelocated where
  debugChunk : DebugSection
  subsec : Subsection
  relocs : List Relocation

/-- The members of a `DebugSHandler`, and the subsections that its module has so far. -/
structure Handler where
  analysis : Analysis
  debugFChunks : List DebugSection
  cvStrTab : Option Bytes
  checksums : Option Bytes
  frameDataSubsecs : List Unrelocated
  debugSubsections : List Unrelocated

def kSymbolStreamMagicSize : Nat := 4

/-- The storage of the analysis is new memory each time; `heap` is what it holds. -/
def Handler.init (moduleIndex : Nat) : Handler where
  analysis := ⟨kSymbolStreamMagicSize, [], [], ⟨moduleIndex, [], [], 0, 0⟩, 0, fun _ => 0⟩
  debugFChunks := []
  cvStrTab := none
  checksums := none
  frameDataSubsecs := []
  debugSubsections := []

/-- `DebugSubsectionKind`. -/
inductive SubsectionKind
  | symbols | lines | stringTable | fileChecksums | frameData | inlineeLines | other
  deriving DecidableEq, Repr

def SubsectionKind.ofCode : Nat → SubsectionKind
  | 0xF1 => .symbols
  | 0xF2 => .lines
  | 0xF3 => .stringTable
  | 0xF4 => .fileChecksums
  | 0xF5 => .frameData
  | 0xF6 => .inlineeLines
  -- also the kinds with `SubsectionIgnoreFlag`
  | _ => .other

/-- `advanceRelocIndex`, and the subsection as it is kept. -/
def Handler.advance (sec : DebugSection) (ss : Subsection) (h : Handler) : Handler × Unrelocated :=
  let next := advanceRelocIndex ss.vaBegin h.analysis.next
  ({ h with analysis := { h.analysis with next } }, ⟨sec, ss, next⟩)

/-- One round of the loop of `handleDebugS`. -/
def handleSubsection (sec : DebugSection) (h : Handler) (ss : Subsection) : Except Halt Handler :=
  match SubsectionKind.ofCode ss.kind with
  | .stringTable => .ok { h with cvStrTab := some (ss.data sec) }
  | .fileChecksums => .ok { h with checksums := some (ss.data sec) }
  | .lines | .inlineeLines =>
    let (h, unrelocated) := h.advance sec ss
    .ok { h with debugSubsections := h.debugSubsections ++ [unrelocated] }
  | .frameData =>
    let (h, unrelocated) := h.advance sec ss
    .ok { h with frameDataSubsecs := h.frameDataSubsecs ++ [unrelocated] }
  | .symbols => do
    let analysis ← sec.chunk.analyzeSymbolSubsection ss.vaBegin ss.length h.analysis
    return { h with analysis }
  | .other => .ok h

def handleDebugS (h : Handler) (sec : DebugSection) : Except Halt Handler := do
  let subsections ← sec.subsections
  subsections.foldlM (handleSubsection sec) { h with analysis := { h.analysis with next := sec.relocs } }

/-- One round of the loop of `analyzeChunks`. -/
def handleChunk (h : Handler) (sec : DebugSection) : Except Halt Handler :=
  if sec.isDebugS then handleDebugS h sec
  else if sec.isDebugF then .ok { h with debugFChunks := h.debugFChunks ++ [sec] }
  else .ok h

def analyzeChunks (file : SymbolFile) : Except Halt Handler :=
  file.debugChunks.foldlM handleChunk (.init file.moduleIndex)

end LlvmLd.Pdb
