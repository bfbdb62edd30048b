import LlvmLd.Lib.Bitmap
import LlvmLd.Msf.Common

/-!
# The builder of a multi-stream file

`MSFBuilder` gives blocks to streams, to the directory and to the block map, and grows the file when
it runs out of them.
-/

namespace LlvmLd.Msf

open Bitmap

structure MSFBuilder where
  isGrowable : Bool
  freePageMap : Nat
  unknown1 : Nat
  blockSize : Nat
  blockMapAddr : Nat
  freeBlocks : List Bool
  directoryBlocks : List Nat
  /-- Sizes and blocks. -/
  streamData : List (Nat × List Nat)
  /-- Checked by `create`. -/
  valid : isValidBlockSize blockSize = true
  deriving DecidableEq

namespace MSFBuilder

def kSuperBlockBlock : Nat := 0

def kFreePageMap0Block : Nat := 1

def kFreePageMap1Block : Nat := 2

def kNumReservedPages : Nat := 3

def kDefaultFreePageMap : Nat := kFreePageMap1Block

def kDefaultBlockMapAddr : Nat := kNumReservedPages

/-- `BitVector::resize`: the number of 64-bit words that the bits need is counted in 32 bits. -/
def resizeBlocks (bits : List Bool) (count : Nat) : Except MsfError (List Bool) :=
  if count + 63 ≥ 2 ^ 32 then .error .undefined else .ok (resize bits count)

def create (blockSize minBlockCount : Nat) (canGrow : Bool) : Except MsfError MSFBuilder :=
  if valid : isValidBlockSize blockSize = true then do
    let bits ← resizeBlocks [] (max minBlockCount getMinimumBlockCount)
    .ok { isGrowable := canGrow, freePageMap := kDefaultFreePageMap, unknown1 := 0, blockSize
          blockMapAddr := kDefaultBlockMapAddr
          freeBlocks := setAll false bits
            [kSuperBlockBlock, kFreePageMap0Block, kFreePageMap1Block, kDefaultBlockMapAddr]
          directoryBlocks := [], streamData := [], valid }
  else .error (.msf .invalidFormat "The requested block size is unsupported")

/-! ### Blocks -/

/-- Two more blocks for each pair of free page map blocks that the file has grown over. -/
def reserveFpm (blockSize : Nat) : Nat → Nat → List Bool → Except MsfError (List Bool)
  | 0, _, _ => .error .undefined
  | fuel + 1, nextFpmBlock, bits =>
    if nextFpmBlock < bits.length then do
      let bits ← resizeBlocks bits (uint32 (bits.length + 2))
      reserveFpm blockSize fuel (uint32 (nextFpmBlock + blockSize))
        (setAll false bits [nextFpmBlock, nextFpmBlock + 1])
    else .ok bits

/-- The first part of `allocateBlocks`: grow when there are fewer than `numBlocks` free blocks. -/
def grow (b : MSFBuilder) (numBlocks : Nat) : Except MsfError (List Bool) :=
  let numFreeBlocks := b.freeBlocks.count true
  if numFreeBlocks < numBlocks then
    if b.isGrowable = false then
      .error (.msf .insufficientBuffer "There are no free Blocks in the file")
    else
      let allocBlocks := numBlocks - numFreeBlocks
      let oldBlockCount := b.freeBlocks.length
      let newBlockCount := uint32 (allocBlocks + oldBlockCount)
      let nextFpmBlock := uint32 (alignTo oldBlockCount b.blockSize + 1)
      do
        let bits ← resizeBlocks b.freeBlocks newBlockCount
        -- each round adds two blocks, and no file has 2^32 of them
        reserveFpm b.blockSize (2 ^ 31) nextFpmBlock bits
  else .ok b.freeBlocks

def allocateBlocks (b : MSFBuilder) (numBlocks : Nat) : Except MsfError (MSFBuilder × List Nat) :=
  if numBlocks = 0 then .ok (b, [])
  else
    match b.grow numBlocks with
    | .error e => .error e
    | .ok bits =>
      match take numBlocks (findNext bits 0) bits with
      -- "We ran out of Blocks!"
      | none => .error .undefined
      | some (blocks, bits) => .ok ({ b with freeBlocks := bits }, blocks)

def isBlockFree (bits : List Bool) (idx : Nat) : Except MsfError Bool :=
  match bits[idx]? with
  | none => .error .undefined
  | some free => .ok free

/-- The file reaches up to a block that a caller names. -/
def growTo (bits : List Bool) (block : Nat) : Except MsfError (List Bool) :=
  if block ≥ bits.length then resizeBlocks bits (uint32 (block + 1)) else .ok bits

/-! ### Calls -/

/-- A call that changes nothing when it is refused. -/
def orUnchanged (b : MSFBuilder) : Except MsfError MSFBuilder → MSFBuilder × Option MsfError
  | .ok b' => (b', none)
  | .error e => (b, some e)

-- A file that grows here has the block free, so that a refusal leaves the file as it was.
def setBlockMapAddr (b : MSFBuilder) (addr : Nat) : Except MsfError MSFBuilder :=
  if addr = b.blockMapAddr then .ok b
  else if addr ≥ b.freeBlocks.length ∧ b.isGrowable = false then
    .error (.msf .insufficientBuffer "Cannot grow the number of blocks")
  else do
    let bits ← growTo b.freeBlocks addr
    if (← isBlockFree bits addr) = false then
      .error (.msf .blockInUse "Requested block map address is already in use")
    else
      .ok { b with freeBlocks := (bits.set b.blockMapAddr true).set addr false, blockMapAddr := addr }

def setFreePageMap (b : MSFBuilder) (fpm : Nat) : MSFBuilder := { b with freePageMap := fpm }

def setUnknown1 (b : MSFBuilder) (unk1 : Nat) : MSFBuilder := { b with unknown1 := unk1 }

/-- The blocks up to the first one that is not free are taken. -/
def claimDirectoryBlocks (bits : List Bool) : List Nat → List Bool × Option MsfError
  | [] => (bits, none)
  | block :: rest =>
    match isBlockFree bits block with
    | .error e => (bits, some e)
    | .ok false => (bits, some (.msf .unspecified "Attempt to reuse an allocated block"))
    | .ok true => claimDirectoryBlocks (bits.set block false) rest

/-- When it is refused, the old blocks of the directory count as free but stay the directory's. -/
def setDirectoryBlocksHint (b : MSFBuilder) (dirBlocks : List Nat) : MSFBuilder × Option MsfError :=
  match claimDirectoryBlocks (setAll true b.freeBlocks b.directoryBlocks) dirBlocks with
  | (bits, none) => ({ b with freeBlocks := bits, directoryBlocks := dirBlocks }, none)
  | (bits, some e) => ({ b with freeBlocks := bits }, some e)

/-- The file grows up to each block in turn, as long as the blocks are free. -/
def probeBlocks (bits : List Bool) : List Nat → List Bool × Option MsfError
  | [] => (bits, none)
  | block :: rest =>
    match growTo bits block with
    | .error e => (bits, some e)
    | .ok bits =>
      match isBlockFree bits block with
      | .error e => (bits, some e)
      | .ok false => (bits, some (.msf .unspecified "Attempt to re-use an already allocated block"))
      | .ok true => probeBlocks bits rest

/-- `addStream` with the blocks to use. -/
def addStreamAt (b : MSFBuilder) (size : Nat) (blocks : List Nat) : MSFBuilder × Option MsfError :=
  if bytesToBlocks size b.blockSize ≠ blocks.length then
    (b, some (.msf .invalidFormat "Incorrect number of blocks for requested stream size"))
  else
    match probeBlocks b.freeBlocks blocks with
    | (bits, none) =>
      ({ b with freeBlocks := setAll false bits blocks
                streamData := b.streamData ++ [(size, blocks)] }, none)
    | (bits, some e) => ({ b with freeBlocks := bits }, some e)

def addStream (b : MSFBuilder) (size : Nat) : Except MsfError MSFBuilder := do
  let (b, newBlocks) ← b.allocateBlocks (bytesToBlocks size b.blockSize)
  .ok { b with streamData := b.streamData ++ [(size, newBlocks)] }

def setStreamSize (b : MSFBuilder) (idx size : Nat) : Except MsfError MSFBuilder :=
  match b.streamData[idx]? with
  | none => .error .undefined
  | some (oldSize, currentBlocks) =>
    if oldSize = size then .ok b
    else
      let newBlocks := bytesToBlocks size b.blockSize
      let oldBlocks := bytesToBlocks oldSize b.blockSize
      if newBlocks > oldBlocks then do
        let (b, addedBlockList) ← b.allocateBlocks (newBlocks - oldBlocks)
        .ok { b with streamData := b.streamData.set idx (size, currentBlocks ++ addedBlockList) }
      else if oldBlocks > newBlocks then
        .ok { b with freeBlocks := setAll true b.freeBlocks (currentBlocks.drop newBlocks)
                     streamData := b.streamData.set idx
                       (size, currentBlocks.take (currentBlocks.length - (oldBlocks - newBlocks))) }
      else .ok { b with streamData := b.streamData.set idx (size, currentBlocks) }

/-- The calls that build a file, before its layout is generated. -/
inductive BuilderCall where
  | setBlockMapAddr (addr : Nat)
  | setFreePageMap (fpm : Nat)
  | setUnknown1 (unk1 : Nat)
  | setDirectoryBlocksHint (dirBlocks : List Nat)
  | addStreamAt (size : Nat) (blocks : List Nat)
  | addStream (size : Nat)
  | setStreamSize (idx size : Nat)
  deriving DecidableEq

/-- What a call leaves, and its error when it is refused. -/
def call (b : MSFBuilder) : BuilderCall → MSFBuilder × Option MsfError
  | .setBlockMapAddr addr => b.orUnchanged (b.setBlockMapAddr addr)
  | .setFreePageMap fpm => (b.setFreePageMap fpm, none)
  | .setUnknown1 unk1 => (b.setUnknown1 unk1, none)
  | .setDirectoryBlocksHint dirBlocks => b.setDirectoryBlocksHint dirBlocks
  | .addStreamAt size blocks => b.addStreamAt size blocks
  | .addStream size => b.orUnchanged (b.addStream size)
  | .setStreamSize idx size => b.orUnchanged (b.setStreamSize idx size)

/-- A builder, with the calls that have been made on it. -/
structure Session where
  builder : MSFBuilder
  accepted : List BuilderCall
  refused : List BuilderCall
  deriving DecidableEq

/-- After a refusal the caller may go on. -/
def Session.call (s : Session) (c : BuilderCall) : Except MsfError Session :=
  match s.builder.call c with
  | (builder, none) => .ok { s with builder, accepted := s.accepted ++ [c] }
  | (_, some .undefined) => .error .undefined
  | (builder, some _) => .ok { s with builder, refused := s.refused ++ [c] }

def run (b : MSFBuilder) (calls : List BuilderCall) : Except MsfError Session :=
  calls.foldlM Session.call ⟨b, [], []⟩

/-! ### The layout -/

def computeDirectoryByteSize (b : MSFBuilder) : Nat :=
  uint32 (4 + b.streamData.length * 4 +
    (b.streamData.map (fun d => bytesToBlocks d.1 b.blockSize * 4)).sum)

/-- The blocks for the directory: what is missing is allocated. Of a hint that is too long the code
frees the blocks in front, which are the ones that it keeps. -/
def placeDirectory (b : MSFBuilder) (numDirectoryBlocks : Nat) : Except MsfError MSFBuilder :=
  if numDirectoryBlocks > b.directoryBlocks.length then do
    let (b', extraBlocks) ← b.allocateBlocks (numDirectoryBlocks - b.directoryBlocks.length)
    .ok { b' with directoryBlocks := b'.directoryBlocks ++ extraBlocks }
  else if numDirectoryBlocks < b.directoryBlocks.length then
    let numUnnecessaryBlocks := b.directoryBlocks.length - numDirectoryBlocks
    .ok { b with
      freeBlocks := setAll true b.freeBlocks
        (b.directoryBlocks.take (b.directoryBlocks.length - numUnnecessaryBlocks))
      directoryBlocks := b.directoryBlocks.take numDirectoryBlocks }
  else .ok b

def layout (b : MSFBuilder) (numDirectoryBytes : Nat) : MSFLayout :=
  { sb := { magicBytes := magic, blockSize := b.blockSize, freeBlockMapBlock := b.freePageMap
            numBlocks := b.freeBlocks.length, numDirectoryBytes, unknown1 := b.unknown1
            blockMapAddr := b.blockMapAddr }
    freePageMap := b.freeBlocks
    directoryBlocks := b.directoryBlocks
    streamSizes := b.streamData.map Prod.fst
    streamMap := b.streamData.map Prod.snd }

def generateLayout (b : MSFBuilder) : Except MsfError MSFLayout := do
  let numDirectoryBytes := b.computeDirectoryByteSize
  let b ← b.placeDirectory (bytesToBlocks numDirectoryBytes b.blockSize)
  .ok (b.layout numDirectoryBytes)

end MSFBuilder

end LlvmLd.Msf
