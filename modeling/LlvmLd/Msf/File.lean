import LlvmLd.Msf.MappedStream
import LlvmLd.Msf.Ownership

/-!
# Files with several streams

`commit` writes the header of a file, its free page maps, the block map and the directory;
`PDBFile` reads them.
-/

namespace LlvmLd.Msf

/-! ### The super block -/

def SuperBlock.bytes (sb : SuperBlock) : Bytes :=
  sb.magicBytes ++ [sb.blockSize, sb.freeBlockMapBlock, sb.numBlocks, sb.numDirectoryBytes,
    sb.unknown1, sb.blockMapAddr].flatMap le32

/-- `sizeof(SuperBlock)` -/
def superBlockSize : Nat := 56

def SuperBlock.ofBytes (b : Bytes) : SuperBlock :=
  { magicBytes := b.slice 0 32, blockSize := b.u32At 32, freeBlockMapBlock := b.u32At 36
    numBlocks := b.u32At 40, numDirectoryBytes := b.u32At 44, unknown1 := b.u32At 48
    blockMapAddr := b.u32At 52 }

/-! ### Writing -/

/-- `writeArray` of 32-bit words, behind what the writer has written so far. -/
def writeWords (l : MSFStreamLayout) (blockSize : Nat) (w : FileBuffer × Nat) (array : List Nat) :
    Except MsfError (FileBuffer × Nat) :=
  if array = [] then .ok w
  else if array.length > uint32Max / 4 then .error (.stream .invalidArraySize)
  else do
    let f ← l.write blockSize w.1 w.2 (array.flatMap le32)
    .ok (f, w.2 + 4 * array.length)

/-- The loop of `createFpmStream`: every byte of the blocks is set. -/
def fillFpm (l : MSFStreamLayout) (blockSize : Nat) : Nat → Nat → FileBuffer → Except MsfError FileBuffer
  | 0, _, f => .ok f
  | fuel + 1, offset, f =>
    if l.length - offset > 0 then do
      let f ← l.write blockSize f offset (List.replicate blockSize 0xFF)
      fillFpm l blockSize fuel (offset + blockSize) f
    else .ok f

/-- `createFpmStream`: the whole map is initialised, and what is used of it is returned. -/
def createFpmStream (msf : MSFLayout) (f : FileBuffer) (altFpm : Bool) :
    Except MsfError (FileBuffer × MSFStreamLayout) := do
  let minLayout := getFpmStreamLayout msf false altFpm
  let fullLayout := getFpmStreamLayout msf true altFpm
  let f ← fillFpm fullLayout msf.sb.blockSize (fullLayout.blocks.length + 1) 0 f
  .ok (f, minLayout)

/-- Eight blocks; behind the end of the file all count as free. -/
def fpmByte (freePageMap : List Bool) (numBlocks bi : Nat) : UInt8 :=
  (List.range 8).foldl
    (fun thisByte i =>
      let isFree := if bi + i < numBlocks then freePageMap.getD (bi + i) false else true
      thisByte ||| (if isFree then (1 : UInt8) <<< UInt8.ofNat i else 0)) 0

def commitFpm (msf : MSFLayout) (f : FileBuffer) : Except MsfError FileBuffer := do
  let (f, fpmStream) ← createFpmStream msf f false
  -- the other map is only initialised
  let (f, _) ← createFpmStream msf f true
  (List.range (divideCeil msf.sb.numBlocks 8)).foldlM (fun f k =>
    fpmStream.write msf.sb.blockSize f k [fpmByte msf.freePageMap msf.sb.numBlocks (8 * k)]) f

/-- Decimal digits in groups of three. -/
def groupedDigits (n : Nat) : String :=
  let digits := (Nat.toDigits 10 n).reverse
  String.ofList ((List.range digits.length).flatMap (fun i =>
    (if i ≠ 0 ∧ i % 3 = 0 then [','] else []) ++ [digits.getD i '0'])).reverse

def sizeOverflow (blockSize : Nat) : MsfErrorCode :=
  if blockSize = 8192 then .sizeOverflow8192
  else if blockSize = 16384 then .sizeOverflow16384
  else if blockSize = 32768 then .sizeOverflow32768
  else .sizeOverflow4096

def MSFLayout.directoryStream (msf : MSFLayout) : MSFStreamLayout :=
  ⟨msf.sb.numDirectoryBytes, msf.directoryBlocks⟩

/-- What the directory holds: the number of streams, their sizes, the blocks of each. -/
def MSFLayout.directory (msf : MSFLayout) : List (List Nat) :=
  [msf.streamSizes.length] :: msf.streamSizes :: msf.streamMap

/-- Everything that `commit` writes into the file; the streams are written later. -/
def writeLayout (msf : MSFLayout) (f : FileBuffer) : Except MsfError FileBuffer := do
  let f ← f.writeBytes 0 msf.sb.bytes
  let f ← commitFpm msf f
  -- the offset has 32 bits here; the reader counts it in 64
  let blockMapOffset := uint32 (blockToOffset msf.sb.blockMapAddr msf.sb.blockSize)
  let f ← f.writeBytes blockMapOffset (msf.directoryBlocks.flatMap le32)
  let (f, _) ← msf.directory.foldlM (writeWords msf.directoryStream msf.sb.blockSize) (f, 0)
  .ok f

/-- `commit` into a file that the output buffer has created with any contents. -/
def MSFBuilder.commit (b : MSFBuilder) (created : Memory.Mem) :
    Except MsfError (MSFLayout × FileBuffer) := do
  let layout ← b.generateLayout
  let blockSize := layout.sb.blockSize
  let fileSize := blockSize * layout.sb.numBlocks
  if fileSize > getMaxFileSizeFromBlockSize blockSize then
    let grouped := groupedDigits fileSize
    .error (.msf (sizeOverflow blockSize)
      s!"File size {grouped} too large for current PDB page size {blockSize}")
  else
    let directoryBlockMapSize := bytesToBlocks layout.sb.numDirectoryBytes blockSize * 4
    if directoryBlockMapSize > blockSize then
      .error (.msf .streamDirectoryOverflow
        s!"The directory block map ({directoryBlockMapSize} bytes) doesn't fit in a block ({blockSize} bytes)")
    else do
      let f ← writeLayout layout ⟨fileSize, created⟩
      .ok (layout, f)

/-- `createIndexedStream`: where the stream lies. -/
def MSFLayout.indexedStream (msf : MSFLayout) (streamIndex : Nat) : MSFStreamLayout :=
  ⟨msf.streamSizes.getD streamIndex 0, msf.streamMap.getD streamIndex []⟩

/-- Bytes that are written to one of the streams of a committed file. -/
structure StreamWrite where
  streamIndex : Nat
  offset : Nat
  data : Bytes

/-- The end of the write is a 64-bit number. -/
def StreamWrite.Bounded (w : StreamWrite) : Prop := w.offset + w.data.length < 2 ^ 64

instance (w : StreamWrite) : Decidable w.Bounded := inferInstanceAs (Decidable (_ < _))

def writeStream (msf : MSFLayout) (f : FileBuffer) (w : StreamWrite) : Except MsfError FileBuffer :=
  if w.streamIndex < msf.streamMap.length then
    (msf.indexedStream w.streamIndex).write msf.sb.blockSize f w.offset w.data
  else .error .undefined

/-! ### Reading -/

/-- Little-endian words. -/
def words (count : Nat) (bytes : Bytes) : List Nat :=
  (List.range count).map (fun i => bytes.u32At (4 * i))

/-- `readArray` of 32-bit words from a stream, with the offset of the reader. -/
def readWords (order : CacheMap → CacheMap) (r : MappedBlockStream × Nat) (numElements : Nat) :
    Except MsfError (List Nat × (MappedBlockStream × Nat)) :=
  if numElements = 0 then .ok ([], r)
  else if numElements > uint32Max / 4 then .error (.stream .invalidArraySize)
  else do
    let (bytes, s) ← r.1.readBytes order r.2 (4 * numElements)
    .ok (words numElements bytes, (s, r.2 + 4 * numElements))

/-- The bits of a free page map. -/
def fpmBits : Nat → Bytes → List Bool
  | _, [] => []
  | blocksRemaining, byte :: rest =>
    let blocksThisByte := min blocksRemaining 8
    (List.range blocksThisByte).map (fun i => byte &&& ((1 : UInt8) <<< UInt8.ofNat i) != 0) ++
      fpmBits (blocksRemaining - blocksThisByte) rest

structure PDBFile where
  buffer : FileBuffer
  containerLayout : MSFLayout

namespace PDBFile

/-- A stream of the file, with nothing in its cache yet. -/
def mapped (f : FileBuffer) (blockSize : Nat) (l : MSFStreamLayout) : MappedBlockStream :=
  { blockSize, streamLayout := l, file := f, cacheMap := [] }

/-- The block map: the blocks of the directory. -/
def readDirectoryBlocks (f : FileBuffer) (sb : SuperBlock) : Except MsfError (List Nat) :=
  let numDirectoryBlocks := bytesToBlocks sb.numDirectoryBytes sb.blockSize
  if numDirectoryBlocks = 0 then .ok []
  else if numDirectoryBlocks > uint32Max / 4 then .error (.stream .invalidArraySize)
  else do
    let map ← f.readBytes (sb.blockMapAddr * sb.blockSize) (4 * numDirectoryBlocks)
    .ok (words numDirectoryBlocks map)

def parseFileHeaders (order : CacheMap → CacheMap) (f : FileBuffer) : Except MsfError MSFLayout :=
  match f.readBytes 0 superBlockSize with
  | .error _ => .error (.raw .corruptFile "MSF superblock is missing")
  | .ok bytes => do
    let sb := SuperBlock.ofBytes bytes
    validateSuperBlock sb
    if f.size % sb.blockSize ≠ 0 then
      .error (.raw .corruptFile "File size is not a multiple of block size")
    else do
      let headers : MSFLayout :=
        { sb, freePageMap := [], directoryBlocks := [], streamSizes := [], streamMap := [] }
      let fpm := getFpmStreamLayout headers false false
      let (fpmBytes, _) ← (mapped f sb.blockSize fpm).readBytes order 0 fpm.length
      let bits := fpmBits sb.numBlocks fpmBytes
      let directoryBlocks ← readDirectoryBlocks f sb
      .ok { headers with
        freePageMap := bits ++ List.replicate (sb.numBlocks - bits.length) false, directoryBlocks }

/-- The block lists of the streams, one behind the other. -/
def parseStreamMap (order : CacheMap → CacheMap) (blockSize fileSize : Nat) :
    List Nat → MappedBlockStream × Nat → Except MsfError (List (List Nat))
  | [], _ => .ok []
  | streamSize :: sizes, r => do
    let numExpectedStreamBlocks :=
      if streamSize = uint32Max then 0 else bytesToBlocks streamSize blockSize
    let (blocks, r) ← readWords order r numExpectedStreamBlocks
    if blocks.any (fun block => uint32 (block + 1) * blockSize > fileSize) then
      .error (.raw .corruptFile "Stream block map is corrupt.")
    else do
      let rest ← parseStreamMap order blockSize fileSize sizes r
      .ok (blocks :: rest)

def parseStreamData (order : CacheMap → CacheMap) (f : FileBuffer) (headers : MSFLayout) :
    Except MsfError PDBFile := do
  let ds := mapped f headers.sb.blockSize headers.directoryStream
  let (numStreams, s) ← ds.readBytes order 0 4
  let (streamSizes, r) ← readWords order (s, 4) (numStreams.u32At 0)
  let streamMap ← parseStreamMap order headers.sb.blockSize f.size streamSizes r
  .ok ⟨f, { headers with streamSizes, streamMap }⟩

def parse (order : CacheMap → CacheMap) (f : FileBuffer) : Except MsfError PDBFile := do
  let headers ← parseFileHeaders order f
  parseStreamData order f headers

/-- Stream numbers have 16 bits, and the last one stands for no stream. -/
def createIndexedStream (pdb : PDBFile) (sn : Nat) : Option MappedBlockStream :=
  if sn % 65536 = 65535 then none
  else some (mapped pdb.buffer pdb.containerLayout.sb.blockSize
    (pdb.containerLayout.indexedStream (sn % 65536)))

end PDBFile

end LlvmLd.Msf
