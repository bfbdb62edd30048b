import LlvmLd.Lib.Bytes

/-!
# Multi-stream files

The header of the container, the layout of its streams over blocks of one size, and the errors of
the code that reads and writes it. Block numbers are below 2^32 in a file that can be written at all.
-/

namespace LlvmLd.Msf

inductive MsfErrorCode where
  | unspecified | insufficientBuffer | notWritable | noStream | invalidFormat | blockInUse
  | sizeOverflow4096 | sizeOverflow8192 | sizeOverflow16384 | sizeOverflow32768
  | streamDirectoryOverflow
  deriving DecidableEq, Repr

inductive StreamErrorCode where
  | unspecified | streamTooShort | invalidArraySize | invalidOffset | filesystemError
  deriving DecidableEq, Repr

inductive RawErrorCode where
  | unspecified | featureUnsupported | invalidFormat | corruptFile | insufficientBuffer | noStream
  | indexOutOfBounds | invalidBlockAddress | duplicateEntry | noEntry | notWritable | streamTooLong
  | invalidTpiHash
  deriving DecidableEq, Repr

inductive MsfError where
  | msf (code : MsfErrorCode) (message : String)
  | stream (code : StreamErrorCode)
  | raw (code : RawErrorCode) (message : String)
  /-- An array is indexed behind its end. -/
  | undefined
  deriving DecidableEq, Repr

/-! ### Sizes -/

def divideCeil (numerator denominator : Nat) : Nat :=
  let bias := if numerator ≠ 0 then 1 else 0
  (numerator - bias) / denominator + bias

def isValidBlockSize (size : Nat) : Bool :=
  size ∈ [512, 1024, 2048, 4096, 8192, 16384, 32768]

def getMaxFileSizeFromBlockSize (size : Nat) : Nat :=
  if size = 8192 then uint32Max * 2
  else if size = 16384 then uint32Max * 3
  else if size = 32768 then uint32Max * 4
  else uint32Max

def getMinimumBlockCount : Nat := 4

def bytesToBlocks (numBytes blockSize : Nat) : Nat := divideCeil numBytes blockSize

def blockToOffset (blockNumber blockSize : Nat) : Nat := blockNumber * blockSize

theorem le_mul_divideCeil (n : Nat) {d : Nat} (positive : 0 < d) : n ≤ d * divideCeil n d := by
  simp only [divideCeil]
  split
  · have split := Nat.div_add_mod (n - 1) d
    have below := Nat.mod_lt (n - 1) positive
    rw [Nat.mul_add]
    omega
  · omega

theorem divideCeil_le_iff {n d k : Nat} (positive : 0 < d) : divideCeil n d ≤ k ↔ n ≤ k * d := by
  constructor
  · intro le
    have enough := le_mul_divideCeil n positive
    exact Nat.le_trans enough (by rw [Nat.mul_comm]; exact Nat.mul_le_mul_right d le)
  · intro fits
    simp only [divideCeil]
    split
    · have below : (n - 1) / d < k := Nat.div_lt_of_lt_mul (by rw [Nat.mul_comm]; omega)
      omega
    · simp_all

theorem lt_divideCeil_iff {n d k : Nat} (positive : 0 < d) : k < divideCeil n d ↔ k * d < n := by
  have le := divideCeil_le_iff (n := n) (k := k) positive
  omega

@[simp] theorem divideCeil_zero (d : Nat) : divideCeil 0 d = 0 := by simp [divideCeil]

theorem blockSize_bounds {size : Nat} (valid : isValidBlockSize size = true) :
    512 ≤ size ∧ size ≤ 32768 ∧ 4 ∣ size := by
  simp only [isValidBlockSize, List.mem_cons, List.not_mem_nil, or_false, decide_eq_true_eq] at valid
  omega

/-! ### The container -/

/-- `Magic`: "Microsoft C/C++ MSF 7.00", a line end, and what marks the format. -/
def magic : Bytes :=
  [77, 105, 99, 114, 111, 115, 111, 102, 116, 32, 67, 47, 67, 43, 43, 32, 77, 83, 70, 32, 55, 46,
    48, 48, 13, 10, 26, 68, 83, 0, 0, 0]

structure SuperBlock where
  magicBytes : Bytes
  blockSize : Nat
  freeBlockMapBlock : Nat
  numBlocks : Nat
  numDirectoryBytes : Nat
  unknown1 : Nat
  blockMapAddr : Nat
  deriving DecidableEq, Repr

structure MSFLayout where
  sb : SuperBlock
  freePageMap : List Bool
  directoryBlocks : List Nat
  streamSizes : List Nat
  streamMap : List (List Nat)
  deriving DecidableEq, Repr

/-- A stream: its length and the blocks that hold it, in their order. -/
structure MSFStreamLayout where
  length : Nat
  blocks : List Nat
  deriving DecidableEq, Repr

def MSFLayout.mainFpmBlock (l : MSFLayout) : Nat := l.sb.freeBlockMapBlock

def MSFLayout.alternateFpmBlock (l : MSFLayout) : Nat := 3 - l.mainFpmBlock

/-- How many blocks of the form `blockSize * k + fpmNumber` a free page map has. -/
def getNumFpmIntervals (blockSize numBlocks : Nat) (includeUnusedFpmData : Bool) (fpmNumber : Nat) :
    Nat :=
  if includeUnusedFpmData then divideCeil (numBlocks - fpmNumber) blockSize
  else divideCeil numBlocks (8 * blockSize)

def getFpmStreamLayout (msf : MSFLayout) (includeUnusedFpmData altFpm : Bool) : MSFStreamLayout :=
  let fpmBlock := if altFpm then msf.alternateFpmBlock else msf.mainFpmBlock
  let numFpmIntervals :=
    getNumFpmIntervals msf.sb.blockSize msf.sb.numBlocks includeUnusedFpmData fpmBlock
  { blocks := (List.range numFpmIntervals).map (fun i => fpmBlock + i * msf.sb.blockSize)
    length := if includeUnusedFpmData then uint32 (numFpmIntervals * msf.sb.blockSize)
      else divideCeil msf.sb.numBlocks 8 }

def validateSuperBlock (sb : SuperBlock) : Except MsfError Unit :=
  if sb.magicBytes ≠ magic then .error (.msf .invalidFormat "MSF magic header doesn't match")
  else if isValidBlockSize sb.blockSize = false then
    .error (.msf .invalidFormat "Unsupported block size.")
  else if sb.numDirectoryBytes % 4 ≠ 0 then
    .error (.msf .invalidFormat "Directory size is not multiple of 4.")
  else if bytesToBlocks sb.numDirectoryBytes sb.blockSize > sb.blockSize / 4 then
    .error (.msf .invalidFormat "Too many directory blocks.")
  else if sb.blockMapAddr = 0 then .error (.msf .invalidFormat "Block 0 is reserved")
  else if sb.blockMapAddr ≥ sb.numBlocks then
    .error (.msf .invalidFormat "Block map address is invalid.")
  else if sb.freeBlockMapBlock ≠ 1 ∧ sb.freeBlockMapBlock ≠ 2 then
    .error (.msf .invalidFormat "The free block map isn't at block 1 or block 2.")
  else .ok ()

end LlvmLd.Msf
