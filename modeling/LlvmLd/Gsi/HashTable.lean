import LlvmLd.Lib.CountingSort
import LlvmLd.Gsi.Records

/-!
# The GSI hash table

`GSIHashStreamBuilder::finalizeBuckets` and `commit`, and the reader of the same bytes,
`GSIHashTable::read` with `GlobalsStream::findRecordsByName`.
-/

namespace LlvmLd.Gsi

open Codeview CountingSort

def iphrHash : Nat := 4096

def hashStringV1 (str : Bytes) : Nat :=
  let longs := (List.range (str.length / 4)).foldl (fun r i => r ^^^ str.u32At (4 * i)) 0
  -- at most 3 bytes are left: a 2 byte word if possible, then the possibly remaining byte
  let words :=
    if 2 ≤ str.length % 4 then longs ^^^ str.u16At (str.length / 4 * 4) else longs
  let bytes := if str.length % 2 = 1 then words ^^^ str.byteAt (str.length - 1) else words
  let lower := bytes ||| 0x20202020
  let mixed := lower ^^^ (lower >>> 11)
  mixed ^^^ (mixed >>> 16)

def bucketIdx (name : Bytes) : Nat := hashStringV1 name % iphrHash

structure PSHashRecord where
  off : Nat
  cRef : Nat
  deriving DecidableEq, Repr

def PSHashRecord.bytes (rec : PSHashRecord) : Bytes := le32 rec.off ++ le32 rec.cRef

/-! ### Order in a bucket -/

def isAsciiString (s : Bytes) : Bool := s.all (· < 0x80)

def toLower (c : UInt8) : UInt8 := if 0x41 ≤ c ∧ c ≤ 0x5a then c + 0x20 else c

/-- `gsiRecordCmp`: shorter strings first, then without regard to case if both are ASCII. -/
def gsiRecordCmp (s1 s2 : Bytes) : Ordering :=
  if s1.length ≠ s2.length then compare s1.length s2.length
  else if ¬ isAsciiString s1 ∨ ¬ isAsciiString s2 then List.compareLex compare s1 s2
  else List.compareLex compare (s1.map toLower) (s2.map toLower)

/-- A name and an offset, which is what bucketing reads of a `BulkPublic`. -/
structure HashedRecord where
  name : Bytes
  symOffset : Nat
  deriving DecidableEq, Repr

def HashedRecord.empty : HashedRecord := ⟨[], 0⟩

/-- `BucketCmp` on hash records that still hold indices. -/
def bucketCmp (records : List HashedRecord) (l r : PSHashRecord) : Bool :=
  let left := records.getD l.off .empty
  let right := records.getD r.off .empty
  match gsiRecordCmp left.name right.name with
  | .lt => true
  | .gt => false
  | .eq => left.symOffset < right.symOffset

/-- `llvm::sort`, of which only that it permutes its range is used. -/
structure RangeSort where
  run : (PSHashRecord → PSHashRecord → Bool) → List PSHashRecord → List PSHashRecord
  perm : ∀ less range, (run less range).Perm range

/-! ### Building -/

/-- Sorts one bucket and replaces indices by stream offsets plus one. -/
def sortBucket (sort : RangeSort) (records : List HashedRecord) (start last : Nat → Nat)
    (table : Nat → PSHashRecord) (k : Nat) : Nat → PSHashRecord :=
  let range := (List.range (last k - start k)).map (fun i => table (start k + i))
  let sorted := (sort.run (bucketCmp records) range).map (fun rec =>
    { rec with off := uint32 ((records.getD rec.off .empty).symOffset + 1) })
  fun i => if start k ≤ i ∧ i < last k then sorted.getD (i - start k) ⟨0, 0⟩ else table i

structure GSIHashStreamBuilder where
  hashRecords : List PSHashRecord
  hashBitmap : List Nat
  hashBuckets : List Nat
  deriving DecidableEq, Repr

def bitmapWords : Nat := (iphrHash + 32) / 32

/-- Whether bucket `k` is skipped in the bitmap. -/
def isEmptyBucket (start last : Nat → Nat) (k : Nat) : Bool :=
  decide (iphrHash ≤ k) || decide (start k = last k)

def bitmapWord (start last : Nat → Nat) (i : Nat) : Nat :=
  (List.range 32).foldl
    (fun word j => if isEmptyBucket start last (i * 32 + j) then word else word ||| (1 <<< j)) 0

/-- The chain starts, as if hash records were inflated to 12 bytes. -/
def chainStarts (start last : Nat → Nat) (i : Nat) : List Nat :=
  (List.range 32).filterMap (fun j =>
    if isEmptyBucket start last (i * 32 + j) then none else some (uint32 (start (i * 32 + j) * 12)))

/-- `finalizeBuckets`; `order` is the order in which the buckets are sorted. -/
def finalizeBuckets (sort : RangeSort) (order : List Nat) (records : List HashedRecord) :
    GSIHashStreamBuilder :=
  let buckets := records.map (fun rec => bucketIdx rec.name)
  let start := scan (counts buckets)
  -- records are placed by index, always with a refcount of one
  let placing := distribute ⟨0, 0⟩ (buckets.zipIdx.map (fun (k, i) => (k, ⟨i, 1⟩)))
  let table := order.foldl (sortBucket sort records start placing.cursors) placing.table
  { hashRecords := (List.range records.length).map table
    hashBitmap := (List.range bitmapWords).map (bitmapWord start placing.cursors)
    hashBuckets := (List.range bitmapWords).flatMap (chainStarts start placing.cursors) }

/-- `finalizeGlobalBuckets`: names and offsets of the globals. -/
def globalRecords (symOffset : Nat) (globals : List Bytes) : List HashedRecord :=
  (globals.zip (globalOffsets symOffset globals)).map
    (fun (symbol, offset) => ⟨(getSymbolName symbol).getD [], offset⟩)

def hdrSignature : Nat := 0xffffffff

def hdrVersion : Nat := 0xeffe0000 + 19990810

def GSIHashStreamBuilder.calculateSerializedLength (b : GSIHashStreamBuilder) : Nat :=
  uint32 (16 + b.hashRecords.length * 8 + b.hashBitmap.length * 4 + b.hashBuckets.length * 4)

def GSIHashStreamBuilder.commit (b : GSIHashStreamBuilder) (w : StreamWriter) :
    Except String StreamWriter :=
  let header := le32 hdrSignature ++ le32 hdrVersion ++ le32 (b.hashRecords.length * 8) ++
    le32 (b.hashBitmap.length * 4 + b.hashBuckets.length * 4)
  (w.writeBytes header).bind (fun w =>
    (w.writeBytes (b.hashRecords.flatMap PSHashRecord.bytes)).bind (fun w =>
      (w.writeBytes (b.hashBitmap.flatMap le32)).bind (fun w =>
        w.writeBytes (b.hashBuckets.flatMap le32))))

/-! ### Reading -/

structure GSIHashTable where
  hrSize : Nat
  hashRecords : List PSHashRecord
  hashBitmap : List Nat
  hashBuckets : List Nat
  bucketMap : List (Option Nat)
  deriving DecidableEq, Repr

/-- `readArray` of little-endian words. -/
def readWords (stream : Bytes) (offset count : Nat) : Option (List Nat) :=
  if stream.length < offset + 4 * count then none
  else some ((List.range count).map (fun i => stream.u32At (offset + 4 * i)))

def readHashRecords (stream : Bytes) (offset count : Nat) : Option (List PSHashRecord) :=
  if stream.length < offset + 8 * count then none
  else some ((List.range count).map (fun i =>
    ⟨stream.u32At (offset + 8 * i), stream.u32At (offset + 8 * i + 4)⟩))

def popcount (word : Nat) : Nat := ((List.range 32).filter word.testBit).length

/-- The loop that numbers the set bits. -/
def expandBuckets (isSet : Nat → Bool) : Nat → List Nat → List (Option Nat)
  | _, [] => []
  | compressed, i :: rest =>
      if isSet i then some compressed :: expandBuckets isSet (compressed + 1) rest
      else none :: expandBuckets isSet compressed rest

def isBitSet (bitmap : List Nat) (i : Nat) : Bool := (bitmap.getD (i / 32) 0).testBit (i % 32)

/-- `raw_error_code::corrupt_file` and a message. -/
def corruptFile (message : String) : String := "The PDB file is corrupt. " ++ message

/-- `raw_error_code::feature_unsupported` and a message. -/
def featureUnsupported (message : String) : String :=
  "The feature is unsupported by the implementation. " ++ message

/-- An array that cannot be read, and what it should have been. -/
def arrayTooShort (message : String) : String := streamTooShort ++ "\n" ++ corruptFile message

/-- `GSIHashTable::read`. -/
def GSIHashTable.read (stream : Bytes) : Except String GSIHashTable :=
  if stream.length < 16 then .error (corruptFile "Stream does not contain a GSIHashHeader.")
  else if stream.u32At 0 ≠ hdrSignature then
    .error (featureUnsupported "GSIHashHeader signature (0xffffffff) not found.")
  else if stream.u32At 4 ≠ hdrVersion then
    .error (featureUnsupported "Encountered unsupported globals stream version.")
  else
    let hrSize := stream.u32At 8
    if hrSize % 8 ≠ 0 then .error (corruptFile "Invalid HR array size.")
    else
      match readHashRecords stream 16 (hrSize / 8) with
      | none => .error (arrayTooShort "Error reading hash records.")
      | some hashRecords =>
          if hrSize = 0 then .ok ⟨hrSize, hashRecords, [], [], []⟩
          else
            match readWords stream (16 + hrSize) (alignTo (iphrHash + 1) 32 / 32) with
            | none => .error (arrayTooShort "Could not read a bitmap.")
            | some hashBitmap =>
                let bucketMap := expandBuckets (isBitSet hashBitmap) 0 (List.range (iphrHash + 1))
                let numBuckets := (hashBitmap.map popcount).sum
                match readWords stream (16 + hrSize + 4 * hashBitmap.length) numBuckets with
                | none => .error (arrayTooShort "Hash buckets corrupted.")
                | some hashBuckets => .ok ⟨hrSize, hashRecords, hashBitmap, hashBuckets, bucketMap⟩

/-- One hash record of the chain that is searched; `none` when there is no record at its offset. -/
def lookupRecord (symbols : Bytes) (name : Bytes) (rec : PSHashRecord) :
    Option (List (Nat × Bytes)) :=
  let off := uint32 (rec.off + 2 ^ 32 - 1)
  (readRecord symbols off).bind (fun record =>
    (getSymbolName record).map (fun found => if found = name then [(off, record)] else []))

/-- `findRecordsByName`. -/
def findRecordsByName (table : GSIHashTable) (symbols name : Bytes) :
    Option (List (Nat × Bytes)) :=
  match table.bucketMap.getD (bucketIdx name) none with
  | none => some []
  | some compressed =>
      let lastBucketIndex := uint32 (table.hashBuckets.length + 2 ^ 32 - 1)
      let first := table.hashBuckets.getD compressed 0 / 12
      let last :=
        (if compressed < lastBucketIndex then table.hashBuckets.getD (compressed + 1) 0
          else uint32 (table.hashRecords.length * 12)) / 12
      let chain := (table.hashRecords.drop first).take (last - first)
      (chain.mapM (lookupRecord symbols name)).map List.flatten

end LlvmLd.Gsi
