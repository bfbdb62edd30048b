import LlvmLd.Lib.Bytes

/-!
`compare_pair` of `tools/coff_external_compare.py` and the readers below it: the build-id fields of
a PE image, the MSF container, and the section contributions of a PDB. Whatever Python would raise
is an error here: `struct.error`, `IndexError` and `ZeroDivisionError` as well as `CompareError`.
-/

namespace LlvmLd.Tools.ExternalCompare

inductive Side where
  | ours | release
  deriving DecidableEq, Repr

/-- The messages of `CompareError`. -/
inductive Complaint where
  | notPe
  | missingSignature
  | notPe32Plus
  | rvaOutside (rva : Nat)
  | notRsds
  | debugTimestamp (side : Side)
  | guidNotContentHash (side : Side)
  | notMsf
  | pastEnd (off stream : Nat)
  | unknownVersion (version : Nat)
  | imageSizes (ours release : Nat)
  | pdbSizes (ours release : Nat)
  | guidMismatch (side : Side)
  | contributionCounts
  | dataCrc (ours release size characteristics : Nat)
  | pdbsDiffer
  | imagesDiffer
  deriving DecidableEq, Repr

inductive Raised where
  | compareError (complaint : Complaint)
  | structError
  | indexError
  | zeroDivisionError
  deriving DecidableEq, Repr

abbrev Run (α : Type) := Except Raised α

def complain {α : Type} (complaint : Complaint) : Run α := .error (.compareError complaint)

def IMAGE_SCN_CNT_UNINITIALIZED_DATA : Nat := 0x80
def IMAGE_DEBUG_TYPE_CODEVIEW : Nat := 2
def PDB_INFO_STREAM : Nat := 1
def PDB_DBI_STREAM : Nat := 3
def DBI_HEADER_SIZE : Nat := 64
def SC_VER60 : Nat := 0xEFFE0000 + 19970605
def SC_V2 : Nat := 0xEFFE0000 + 20140516

/-- `Microsoft C/C++ MSF 7.00\r\n\x1aDS\0\0\0`. -/
def MSF_MAGIC : Bytes :=
  [0x4d, 0x69, 0x63, 0x72, 0x6f, 0x73, 0x6f, 0x66, 0x74, 0x20, 0x43, 0x2f, 0x43, 0x2b, 0x2b, 0x20,
    0x4d, 0x53, 0x46, 0x20, 0x37, 0x2e, 0x30, 0x30, 0x0d, 0x0a, 0x1a, 0x44, 0x53, 0, 0, 0]

/-- `LLD PDB.`. -/
def guidSuffix : Bytes := [0x4c, 0x4c, 0x44, 0x20, 0x50, 0x44, 0x42, 0x2e]

/-! ### `struct` -/

def u16 (data : Bytes) (off : Nat) : Run Nat :=
  if off + 2 ≤ data.length then .ok (data.u16At off) else .error .structError

def u32 (data : Bytes) (off : Nat) : Run Nat :=
  if off + 4 ≤ data.length then .ok (data.u32At off) else .error .structError

/-- `unpack_from("<nI")`. -/
def u32s (n : Nat) (data : Bytes) (off : Nat) : Run (List Nat) :=
  if off + 4 * n ≤ data.length then
    .ok ((List.range n).map (fun i => data.u32At (off + 4 * i)))
  else .error .structError

/-- `data[start:stop] = value`. -/
def assignSlice (data : Bytes) (start stop : Nat) (value : Bytes) : Bytes :=
  data.take start ++ value ++ data.drop (max start stop)

def putU32 (data : Bytes) (off value : Nat) : Run Bytes :=
  if off + 4 ≤ data.length then .ok (assignSlice data off (off + 4) (le32 value))
  else .error .structError

/-- `data[i] = value`. -/
def putByte (data : Bytes) (i : Nat) (value : UInt8) : Run Bytes :=
  if i < data.length then .ok (data.set i value) else .error .indexError

/-! ### PE -/

structure PeFields where
  timestampOff : Nat
  timestamp : Nat
  debugTimestampOffs : List Nat
  guidOff : Option Nat
  guid : Option Bytes
  deriving DecidableEq, Repr

structure Section where
  va : Nat
  size : Nat
  rawPtr : Nat

def readSection (data : Bytes) (s : Nat) : Run Section := do
  let fields ← u32s 4 data (s + 8)
  let vsize := fields.getD 0 0
  let va := fields.getD 1 0
  let rawSize := fields.getD 2 0
  let rawPtr := fields.getD 3 0
  return ⟨va, max vsize rawSize, rawPtr⟩

def rvaToOff (sections : List Section) (rva : Nat) : Run Nat :=
  match sections.find? (fun s => decide (s.va ≤ rva ∧ rva < s.va + s.size)) with
  | some s => .ok (s.rawPtr + (rva - s.va))
  | none => complain (.rvaOutside rva)

/-- The debug directory from `entry` on. -/
def debugEntries (data : Bytes) : Nat → Nat → PeFields → Run PeFields
  | 0, _, fields => .ok fields
  | n + 1, entry, fields => do
    let fields := { fields with debugTimestampOffs := fields.debugTimestampOffs ++ [entry + 4] }
    let dtype ← u32 data (entry + 12)
    if dtype = IMAGE_DEBUG_TYPE_CODEVIEW then
      let cv ← u32 data (entry + 24)
      if data.slice cv 4 ≠ [0x52, 0x53, 0x44, 0x53] then
        complain .notRsds
      else
        debugEntries data n (entry + 28)
          { fields with guidOff := some (cv + 4), guid := some (data.slice (cv + 4) 16) }
    else
      debugEntries data n (entry + 28) fields

def peBuildIdFields (data : Bytes) : Run PeFields := do
  if data.slice 0 2 ≠ [0x4d, 0x5a] then
    complain .notPe
  let pe ← u32 data 0x3c
  if data.slice pe 4 ≠ [0x50, 0x45, 0, 0] then
    complain .missingSignature
  let coff := pe + 4
  let numSections ← u16 data (coff + 2)
  let optSize ← u16 data (coff + 16)
  let opt := coff + 20
  let magic ← u16 data opt
  if magic ≠ 0x20b then
    complain .notPe32Plus
  let debug ← u32s 2 data (opt + 112 + 6 * 8)
  let debugRva := debug.getD 0 0
  let debugSize := debug.getD 1 0
  let sections ← (List.range numSections).mapM (fun i => readSection data (opt + optSize + 40 * i))
  let timestamp ← u32 data (coff + 4)
  let fields : PeFields := ⟨coff + 4, timestamp, [], none, none⟩
  if debugSize = 0 then
    return fields
  else
    let base ← rvaToOff sections debugRva
    debugEntries data (debugSize / 28) base fields

/-- Every debug directory entry repeats the time stamp, and the GUID is one made by lld. -/
def checkTimestamps (side : Side) (data : Bytes) (timestamp : Nat) : List Nat → Run Unit
  | [] => .ok ()
  | off :: offs => do
    let stamp ← u32 data off
    if stamp ≠ timestamp then
      complain (.debugTimestamp side)
    else
      checkTimestamps side data timestamp offs

def checkPeBuildId (side : Side) (data : Bytes) (f : PeFields) : Run Unit := do
  checkTimestamps side data f.timestamp f.debugTimestampOffs
  match f.guid with
  | some guid => if guid.drop 8 ≠ guidSuffix then complain (.guidNotContentHash side) else return ()
  | none => return ()

def zeroU32s : List Nat → Bytes → Run Bytes
  | [], data => .ok data
  | off :: offs, data => do
    let data ← putU32 data off 0
    zeroU32s offs data

def normalizePe (data : Bytes) (f : PeFields) : Run Bytes := do
  let data ← putU32 data f.timestampOff 0
  let data ← zeroU32s f.debugTimestampOffs data
  match f.guidOff with
  | some off => return assignSlice data off (off + 16) (List.replicate 16 0)
  | none => return data

/-! ### PDB -/

structure Msf where
  bs : Nat
  streams : List (Nat × List Nat)
  data : Bytes
  deriving DecidableEq, Repr

/-- `-(-n // bs)`. -/
def ceilDiv (n bs : Nat) : Nat := (n + bs - 1) / bs

/-- The block list of every stream, from `pos` of the directory on. -/
def readStreams (bs : Nat) (directory : Bytes) : List Nat → Nat → Run (List (Nat × List Nat))
  | [], _ => .ok []
  | size :: sizes, pos => do
    let size := if size = 0xffffffff then 0 else size
    let n := ceilDiv size bs
    let blocks ← u32s n directory pos
    let streams ← readStreams bs directory sizes (pos + 4 * n)
    return (size, blocks) :: streams

def Msf.init (data : Bytes) : Run Msf := do
  if data.slice 0 32 ≠ MSF_MAGIC then
    complain .notMsf
  let bs ← u32 data 32
  let numDirBytes ← u32 data 44
  let blockMap ← u32 data 52
  if bs = 0 then
    throw .zeroDivisionError
  let dirBlocks ← u32s (ceilDiv numDirBytes bs) data (blockMap * bs)
  let directory := (dirBlocks.flatMap (fun b => data.slice (b * bs) bs)).take numDirBytes
  let nStreams ← u32 directory 0
  let sizes ← u32s nStreams directory 4
  let streams ← readStreams bs directory sizes (4 + 4 * nStreams)
  return ⟨bs, streams, data⟩

namespace Msf

variable (m : Msf)

def size (stream : Nat) : Nat := (m.streams.getD stream (0, [])).1

def fileOffset (stream off : Nat) : Run Nat :=
  match m.streams[stream]? with
  | none => .error .indexError
  | some (size, blocks) =>
    if size ≤ off then complain (.pastEnd off stream)
    else
      match blocks[off / m.bs]? with
      | none => .error .indexError
      | some block => .ok (block * m.bs + off % m.bs)

def u32 (stream off : Nat) : Run Nat := do
  let at' ← m.fileOffset stream off
  ExternalCompare.u32 m.data at'

def byte (stream off : Nat) : Run UInt8 := do
  let at' ← m.fileOffset stream off
  match m.data[at']? with
  | some b => return b
  | none => throw .indexError

def read (stream off n : Nat) : Run Bytes :=
  (List.range n).mapM (fun i => m.byte stream (off + i))

end Msf

structure InfoFields where
  signature : Nat
  guid : Bytes

def pdbInfoFields (m : Msf) : Run InfoFields := do
  let signature ← m.u32 PDB_INFO_STREAM 4
  let guid ← m.read PDB_INFO_STREAM 12 16
  return ⟨signature, guid⟩

/-- `off` is where the contribution stands in the DBI stream. -/
structure Contrib where
  off : Nat
  size : Nat
  characteristics : Nat
  crcOff : Nat
  dataCrc : Nat
  deriving DecidableEq, Repr

def contrib (m : Msf) (off : Nat) : Run Contrib := do
  let size ← m.u32 PDB_DBI_STREAM (off + 8)
  let characteristics ← m.u32 PDB_DBI_STREAM (off + 12)
  let crcOff ← m.fileOffset PDB_DBI_STREAM (off + 20)
  let dataCrc ← m.u32 PDB_DBI_STREAM (off + 20)
  return ⟨off, size, characteristics, crcOff, dataCrc⟩

private theorem fileOffset_inside (m : Msf) (stream off pos : Nat)
    (found : m.fileOffset stream off = .ok pos) : off < m.size stream := by
  unfold Msf.fileOffset at found
  cases entry : m.streams[stream]? with
  | none => simp [entry] at found
  | some s =>
    simp only [entry] at found
    by_cases past : s.1 ≤ off
    · simp [past, complain] at found
    · simp only [Msf.size, List.getD_eq_getElem?_getD, entry, Option.getD_some]
      omega

private theorem byte_inside (m : Msf) (stream off : Nat) (b : UInt8)
    (found : m.byte stream off = .ok b) :
    off < m.size stream := by
  unfold Msf.byte at found
  cases pos : m.fileOffset stream off with
  | error raised => simp [pos, bind, Except.bind] at found
  | ok at' => exact fileOffset_inside m stream off at' pos

/-- Goes behind the NUL of a name; past the end of the stream, reading raises. -/
def skipName (m : Msf) (off : Nat) : Run { next : Nat // off < next } :=
  match _found : m.byte PDB_DBI_STREAM off with
  | .error raised => .error raised
  | .ok b =>
    if b = 0 then .ok ⟨off + 1, Nat.lt_succ_self off⟩
    else
      match skipName m (off + 1) with
      | .error raised => .error raised
      | .ok next => .ok ⟨next.1, Nat.lt_of_succ_lt next.2⟩
termination_by m.size PDB_DBI_STREAM - off
decreasing_by
  have inside := byte_inside m PDB_DBI_STREAM off b _found
  omega

/-- The first contribution of every module. -/
def moduleContribs (m : Msf) (stop off : Nat) : Run (List Contrib) :=
  if _more : off < stop then
    match contrib m (off + 4) with
    | .error raised => .error raised
    | .ok c =>
      match skipName m (off + 64) with
      | .error raised => .error raised
      | .ok object =>
        match skipName m object.1 with
        | .error raised => .error raised
        | .ok past =>
          match moduleContribs m stop ((past.1 + 3) / 4 * 4) with
          | .error raised => .error raised
          | .ok rest => .ok (c :: rest)
  else .ok []
termination_by stop - off
decreasing_by
  have _first := object.2
  have _second := past.2
  omega

def entrySize (version : Nat) : Option Nat :=
  if version = SC_VER60 then some 28 else if version = SC_V2 then some 32 else none

def pdbSectionContribs (m : Msf) : Run (List Contrib) := do
  let modInfoSize ← m.u32 PDB_DBI_STREAM 24
  let scSize ← m.u32 PDB_DBI_STREAM 28
  let modules ← moduleContribs m (DBI_HEADER_SIZE + modInfoSize) DBI_HEADER_SIZE
  let base := DBI_HEADER_SIZE + modInfoSize
  let version ← m.u32 PDB_DBI_STREAM base
  match entrySize version with
  | none => complain (.unknownVersion version)
  | some step =>
    -- `range(base + 4, base + sc_size, entry_size)`
    let count := ceilDiv (scSize - 4) step
    let contribs ← (List.range count).mapM (fun i => contrib m (base + 4 + step * i))
    return modules ++ contribs

/-! ### `compare_pair` -/

inductive Explained where
  | emptyCrcs (count : Nat)
  | buildId
  deriving DecidableEq, Repr

def checkInfo (side : Side) (m : Msf) (f : PeFields) : Run Unit := do
  let info ← pdbInfoFields m
  if some info.guid ≠ f.guid then
    complain (.guidMismatch side)
  else
    let first ← u32 info.guid 0
    if info.signature ≠ first then complain (.guidMismatch side) else return ()

def isEmptyContrib (c : Contrib) : Bool :=
  c.size == 0 || c.characteristics &&& IMAGE_SCN_CNT_UNINITIALIZED_DATA != 0

/-- A pair whose checksums differ for the one known reason. -/
def isExplainedCrc (ca cb : Contrib) : Bool :=
  ca.characteristics == cb.characteristics && ca.size == cb.size && isEmptyContrib ca &&
    ca.dataCrc == 0 && cb.dataCrc == 0xffffffff

def zeroCrcs : List (Contrib × Contrib) → Bytes → Bytes → Nat → Run (Bytes × Bytes × Nat)
  | [], a, b, count => .ok (a, b, count)
  | (ca, cb) :: pairs, a, b, count =>
    if ca.dataCrc = cb.dataCrc then
      zeroCrcs pairs a b count
    else if isExplainedCrc ca cb then do
      let a ← putU32 a ca.crcOff 0
      let b ← putU32 b cb.crcOff 0
      zeroCrcs pairs a b (count + 1)
    else
      complain (.dataCrc ca.dataCrc cb.dataCrc ca.size ca.characteristics)

def zeroGuid (m : Msf) : List Nat → Bytes → Run Bytes
  | [], pdb => .ok pdb
  | i :: rest, pdb => do
    let off ← m.fileOffset PDB_INFO_STREAM (12 + i)
    let pdb ← putByte pdb off 0
    zeroGuid m rest pdb

def zeroInfo (m : Msf) (pdb : Bytes) : Run Bytes := do
  let off ← m.fileOffset PDB_INFO_STREAM 4
  let pdb ← putU32 pdb off 0
  zeroGuid m (List.range 16) pdb

/-- The part of `compare_pair` about the PDBs; returns how many checksums were explained. -/
def comparePdbs (ours release : Bytes) (fa fb : PeFields) : Run Nat := do
  if ours.length ≠ release.length then
    complain (.pdbSizes ours.length release.length)
  let ma ← Msf.init ours
  let mb ← Msf.init release
  checkInfo .ours ma fa
  checkInfo .release mb fb
  let sca ← pdbSectionContribs ma
  let scb ← pdbSectionContribs mb
  if sca.length ≠ scb.length then
    complain .contributionCounts
  let (a, b, count) ← zeroCrcs (sca.zip scb) ours release 0
  let a ← zeroInfo ma a
  let b ← zeroInfo mb b
  if a ≠ b then
    complain .pdbsDiffer
  return count

def samePdbs : Option (Bytes × Bytes) → Bool
  | none => true
  | some (a, b) => a == b

/-- `empty_crcs`, which stays 0 without PDBs. -/
def emptyCrcs (fa fb : PeFields) : Option (Bytes × Bytes) → Run Nat
  | none => .ok 0
  | some (a, b) => comparePdbs a b fa fb

def comparePair (ours release : Bytes) (pdbs : Option (Bytes × Bytes)) : Run (List Explained) := do
  if ours = release ∧ samePdbs pdbs = true then
    return []
  else
    if ours.length ≠ release.length then
      complain (.imageSizes ours.length release.length)
    let fa ← peBuildIdFields ours
    let fb ← peBuildIdFields release
    checkPeBuildId .ours ours fa
    checkPeBuildId .release release fb
    let count ← emptyCrcs fa fb pdbs
    let explained := if count ≠ 0 then [Explained.emptyCrcs count] else []
    let a ← normalizePe ours fa
    let b ← normalizePe release fb
    if a ≠ b then
      complain .imagesDiffer
    return explained ++ (if fa.timestamp ≠ fb.timestamp then [.buildId] else [])

end LlvmLd.Tools.ExternalCompare
