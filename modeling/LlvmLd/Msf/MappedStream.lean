import LlvmLd.Lib.Avoids
import LlvmLd.Lib.Paging
import LlvmLd.Msf.Common

/-!
# Streams over blocks of a file

`MappedBlockStream` reads a stream from the blocks of its layout, `WritableMappedBlockStream` writes
it, and buffers that had to be copied are kept in a cache.

## Main result

`transcript_eq`: over any reads and writes, a stream with its cache answers as a plain byte array
does.
-/

namespace LlvmLd.Msf

open Memory

/-! ### Files -/

/-- A file that is written through a buffer. -/
structure FileBuffer where
  size : Nat
  mem : Mem

/-- The sum is one of 64-bit numbers. -/
def checkOffsetForRead (length offset dataSize : Nat) : Except MsfError Unit :=
  if offset > length then .error (.stream .invalidOffset)
  else if length < (dataSize + offset) % 2 ^ 64 then .error (.stream .streamTooShort)
  else .ok ()

def FileBuffer.readBytes (f : FileBuffer) (offset size : Nat) : Except MsfError Bytes := do
  checkOffsetForRead f.size offset size
  .ok (Memory.readBytes f.mem offset size)

def FileBuffer.writeBytes (f : FileBuffer) (offset : Nat) (data : Bytes) :
    Except MsfError FileBuffer :=
  if data = [] then .ok f
  else do
    checkOffsetForRead f.size offset data.length
    .ok { f with mem := Memory.writeBytes f.mem offset data }

/-! ### Blocks -/

/-- The loop of `readBytes`: a whole block is asked for, and a part of it is copied. -/
def readBlocks (blockSize : Nat) (f : FileBuffer) : List Nat → Nat → Nat → Except MsfError Bytes
  | _, _, 0 => .ok []
  | [], _, _ + 1 => .error .undefined
  | streamBlockAddr :: blocks, offsetInBlock, bytesLeft + 1 => do
    let blockData ← f.readBytes (blockToOffset streamBlockAddr blockSize) blockSize
    let bytesInChunk := min (bytesLeft + 1) (blockSize - offsetInBlock)
    let rest ← readBlocks blockSize f blocks 0 (bytesLeft + 1 - bytesInChunk)
    .ok ((blockData.drop offsetInBlock).take bytesInChunk ++ rest)

def writeBlocks (blockSize : Nat) : List Nat → Nat → Bytes → FileBuffer → Except MsfError FileBuffer
  | _, _, [], f => .ok f
  | [], _, _ :: _, _ => .error .undefined
  | streamBlockAddr :: blocks, offsetInBlock, c :: data, f => do
    let bytesToWriteInChunk := min (c :: data).length (blockSize - offsetInBlock)
    let f ← f.writeBytes (blockToOffset streamBlockAddr blockSize + offsetInBlock)
      ((c :: data).take bytesToWriteInChunk)
    writeBlocks blockSize blocks 0 ((c :: data).drop bytesToWriteInChunk) f

namespace MSFStreamLayout

/-- `readBytes` into a buffer. -/
def readInto (l : MSFStreamLayout) (blockSize : Nat) (f : FileBuffer) (offset size : Nat) :
    Except MsfError Bytes := do
  checkOffsetForRead l.length offset size
  readBlocks blockSize f (l.blocks.drop (offset / blockSize)) (offset % blockSize) size

/-- Whether the next blocks are `e`, `e + 1` and so on. -/
def contiguous : Nat → Nat → List Nat → Except MsfError Bool
  | 0, _, _ => .ok true
  | _ + 1, _, [] => .error .undefined
  | count + 1, e, b :: blocks => if b ≠ e then .ok false else contiguous count (e + 1) blocks

/-- A reference into the file, when the blocks are contiguous there. -/
def tryReadContiguously (l : MSFStreamLayout) (blockSize : Nat) (f : FileBuffer)
    (offset size : Nat) : Except MsfError (Option Bytes) :=
  if size = 0 then .ok (some [])
  else
    let blockNum := offset / blockSize
    let offsetInBlock := offset % blockSize
    let bytesFromFirstBlock := min size (blockSize - offsetInBlock)
    let numAdditionalBlocks := alignTo (size - bytesFromFirstBlock) blockSize / blockSize
    match l.blocks.drop blockNum with
    | [] => .error .undefined
    | e :: blocks => do
      if (← contiguous (numAdditionalBlocks + 1) e (e :: blocks)) = false then .ok none
      else
        let msfOffset := blockToOffset e blockSize
        match f.readBytes msfOffset blockSize with
        | .error _ => .ok none
        | .ok _ =>
          -- what lies behind the first block is not checked
          if msfOffset + offsetInBlock + size > f.size then .error .undefined
          else .ok (some (Memory.readBytes f.mem (msfOffset + offsetInBlock : Nat) size))

/-- `writeBytes` without the cache. -/
def write (l : MSFStreamLayout) (blockSize : Nat) (f : FileBuffer) (offset : Nat) (data : Bytes) :
    Except MsfError FileBuffer := do
  checkOffsetForRead l.length offset data.length
  writeBlocks blockSize (l.blocks.drop (offset / blockSize)) (offset % blockSize) data f

/-- The stream's bytes. -/
def content (l : MSFStreamLayout) (blockSize : Nat) (f : FileBuffer) : Bytes :=
  Paging.content blockSize l.blocks l.length f.mem

/-- The blocks are the stream's own, lie in the file and are enough for the stream. -/
structure Mapped (l : MSFStreamLayout) (blockSize fileSize : Nat) : Prop where
  positive : 0 < blockSize
  distinct : l.blocks.Nodup
  inside : ∀ b ∈ l.blocks, b * blockSize + blockSize ≤ fileSize
  enough : l.length ≤ blockSize * l.blocks.length

end MSFStreamLayout

/-! ### The cache -/

/-- Offsets with the buffers that were read there, in the order in which they were allocated. -/
abbrev CacheMap := List (Nat × List Bytes)

/-- A stream that can be written, with the cache of its reads. -/
structure MappedBlockStream where
  blockSize : Nat
  streamLayout : MSFStreamLayout
  file : FileBuffer
  cacheMap : CacheMap

/-- The later cases of the search in the cache: a buffer from another offset on. Only the last buffer
of an offset is looked at. -/
def cachedElsewhere (offset size : Nat) (item : Nat × List Bytes) : Option Bytes :=
  if item.1 = offset then none
  else if item.1 ≥ offset + size then none
  else
    match item.2.getLast? with
    | none => none
    | some cachedAlloc =>
      let cachedExtent := (item.1, item.1 + cachedAlloc.length)
      if offset ≥ cachedExtent.1 + cachedExtent.2 then none
      else
        let intersection := (max cachedExtent.1 offset, min cachedExtent.2 (offset + size))
        if intersection ≠ (offset, offset + size) then none
        else some (cachedAlloc.slice (intersection.1 - cachedExtent.1) size)

/-- The buffer for a read, when the cache has one; `order` is the order in which the map is gone
through. -/
def cached (order : CacheMap → CacheMap) (cacheMap : CacheMap) (offset size : Nat) : Option Bytes :=
  let entries := ((cacheMap.find? (·.1 = offset)).map Prod.snd).getD []
  match entries.find? (fun entry => entry.length ≥ size) with
  | some entry => some (entry.slice 0 size)
  | none => (order cacheMap).findSome? (cachedElsewhere offset size)

/-- Keep a buffer: behind the others of its offset. -/
def keepBuffer (cacheMap : CacheMap) (offset : Nat) (buffer : Bytes) : CacheMap :=
  if (cacheMap.find? (·.1 = offset)).isSome then
    cacheMap.map (fun item => if item.1 = offset then (item.1, item.2 ++ [buffer]) else item)
  else cacheMap ++ [(offset, [buffer])]

/-- What a write does to a buffer that was read at `first`. -/
def fixBuffer (offset : Nat) (data : Bytes) (first : Nat) (alloc : Bytes) : Bytes :=
  if offset + data.length < first then alloc
  else if first + alloc.length < offset then alloc
  else
    let intersection :=
      (max offset first, min (offset + data.length) (first + alloc.length))
    let length := intersection.2 - intersection.1
    let srcOffset := intersection.1 - offset
    let destOffset := intersection.1 - first
    alloc.take destOffset ++ data.slice srcOffset length ++ alloc.drop (destOffset + length)

def fixCacheAfterWrite (cacheMap : CacheMap) (offset : Nat) (data : Bytes) : CacheMap :=
  cacheMap.map (fun item => (item.1, item.2.map (fixBuffer offset data item.1)))

namespace MappedBlockStream

def readBytes (order : CacheMap → CacheMap) (s : MappedBlockStream) (offset size : Nat) :
    Except MsfError (Bytes × MappedBlockStream) := do
  checkOffsetForRead s.streamLayout.length offset size
  match ← s.streamLayout.tryReadContiguously s.blockSize s.file offset size with
  | some buffer => .ok (buffer, s)
  | none =>
    match cached order s.cacheMap offset size with
    | some buffer => .ok (buffer, s)
    | none =>
      let writeBuffer ← s.streamLayout.readInto s.blockSize s.file offset size
      .ok (writeBuffer, { s with cacheMap := keepBuffer s.cacheMap offset writeBuffer })

def writeBytes (s : MappedBlockStream) (offset : Nat) (data : Bytes) :
    Except MsfError MappedBlockStream := do
  let file ← s.streamLayout.write s.blockSize s.file offset data
  .ok { s with file, cacheMap := fixCacheAfterWrite s.cacheMap offset data }

end MappedBlockStream

inductive StreamCall where
  | read (offset size : Nat)
  | write (offset : Nat) (data : Bytes)

/-- The end of what is asked for is a 64-bit number. -/
def StreamCall.Bounded : StreamCall → Prop
  | .read offset size => offset + size < 2 ^ 64
  | .write offset data => offset + data.length < 2 ^ 64

/-- The answers to reads and writes, one after the other; a call that is refused changes nothing. -/
def MappedBlockStream.transcript (order : CacheMap → CacheMap) :
    MappedBlockStream → List StreamCall → List (Except MsfError Bytes)
  | _, [] => []
  | s, .read offset size :: calls =>
    match s.readBytes order offset size with
    | .ok (buffer, s') => .ok buffer :: transcript order s' calls
    | .error e => .error e :: transcript order s calls
  | s, .write offset data :: calls =>
    match s.writeBytes offset data with
    | .ok s' => .ok [] :: transcript order s' calls
    | .error e => .error e :: transcript order s calls

/-! ### The plain array -/

namespace Plain

/-- What lies behind the end is refused, with the errors of the code. -/
def check (length offset size : Nat) : Except MsfError Unit :=
  if length < offset then .error (.stream .invalidOffset)
  else if length < offset + size then .error (.stream .streamTooShort)
  else .ok ()

def read (content : Bytes) (offset size : Nat) : Except MsfError Bytes := do
  check content.length offset size
  .ok (content.slice offset size)

def write (content : Bytes) (offset : Nat) (data : Bytes) : Except MsfError Bytes := do
  check content.length offset data.length
  .ok (Paging.splice content offset data)

def transcript : Bytes → List StreamCall → List (Except MsfError Bytes)
  | _, [] => []
  | content, .read offset size :: calls => read content offset size :: transcript content calls
  | content, .write offset data :: calls =>
    match write content offset data with
    | .ok content' => .ok [] :: transcript content' calls
    | .error e => .error e :: transcript content calls

end Plain

/-! ### Reading and writing blocks -/

theorem checkOffset_ok {length offset dataSize : Nat} (fits : offset + dataSize ≤ length) :
    checkOffsetForRead length offset dataSize = .ok () := by
  rw [checkOffsetForRead, if_neg (by omega), if_neg (by omega)]

private theorem checkOffset_eq {length offset dataSize : Nat}
    (bounded : offset + dataSize < 2 ^ 64) :
    checkOffsetForRead length offset dataSize = Plain.check length offset dataSize := by
  rw [checkOffsetForRead, Plain.check, Nat.mod_eq_of_lt (by omega), Nat.add_comm dataSize]

/-- A size that takes the end around 2^64 passes the check. -/
theorem checkOffset_wraps {length offset dataSize : Nat} (inside : offset ≤ length)
    (wraps : offset + dataSize = 2 ^ 64) : checkOffsetForRead length offset dataSize = .ok () := by
  rw [checkOffsetForRead, if_neg (by omega), Nat.add_comm dataSize, wraps, Nat.mod_self,
    if_neg (Nat.not_lt_zero _)]

theorem check_ok {length offset size : Nat} (fits : offset + size ≤ length) :
    Plain.check length offset size = .ok () := by
  rw [Plain.check, if_neg (by omega), if_neg (by omega)]

theorem of_check {length offset size : Nat} (checked : Plain.check length offset size = .ok ()) :
    offset + size ≤ length := by
  rw [Plain.check] at checked
  split at checked
  · cases checked
  · split at checked
    · cases checked
    · omega

private theorem take_drop_readBytes (m : Mem) (a : Int) (skip n len : Nat)
    (within : skip + n ≤ len) :
    ((readBytes m a len).drop skip).take n = readBytes m (a + skip) n := by
  apply List.ext_getElem?
  intro i
  rw [List.getElem?_take, List.getElem?_drop, Paging.getElem?_readBytes, Paging.getElem?_readBytes]
  split
  · rw [if_pos (by omega)]
    congr 2
    omega
  · rfl

private theorem readBlocks_eq {blockSize : Nat} (f : FileBuffer) {blocks : List Nat}
    {offsetInBlock size : Nat} (inside : ∀ b ∈ blocks, b * blockSize + blockSize ≤ f.size)
    (short : offsetInBlock < blockSize) (enough : offsetInBlock + size ≤ blockSize * blocks.length) :
    readBlocks blockSize f blocks offsetInBlock size =
      .ok (Paging.readFrom blockSize blocks offsetInBlock size f.mem) := by
  induction blocks generalizing offsetInBlock size with
  | nil =>
    rw [List.length_nil, Nat.mul_zero] at enough
    have none : size = 0 := by omega
    rw [none, readBlocks, Paging.readFrom]
  | cons b rest ih =>
    rw [List.length_cons, Nat.mul_succ] at enough
    cases size with
    | zero => rw [readBlocks, Paging.readFrom_zero]
    | succ size =>
      -- the block gives as much as is left in it, the blocks behind it the rest
      have chunk : size + 1 - min (size + 1) (blockSize - offsetInBlock) =
          size + 1 - (blockSize - offsetInBlock) := by omega
      have later := @ih 0 (size + 1 - (blockSize - offsetInBlock))
        (fun c member => inside c (List.mem_cons_of_mem b member)) (by omega) (by omega)
      have part := take_drop_readBytes f.mem (b * blockSize : Nat) offsetInBlock
        (min (size + 1) (blockSize - offsetInBlock)) blockSize (by omega)
      rw [readBlocks, Paging.readFrom, FileBuffer.readBytes, blockToOffset,
        checkOffset_ok (inside b List.mem_cons_self)]
      dsimp only
      rw [chunk, later]
      change Except.ok (_ ++ _) = _
      rw [part, ← Int.natCast_add]

private theorem writeBlocks_eq {blockSize : Nat} {f : FileBuffer} {blocks : List Nat}
    {offsetInBlock : Nat} {data : Bytes}
    (inside : ∀ b ∈ blocks, b * blockSize + blockSize ≤ f.size) (short : offsetInBlock < blockSize)
    (enough : offsetInBlock + data.length ≤ blockSize * blocks.length) :
    writeBlocks blockSize blocks offsetInBlock data f =
      .ok { f with mem := Paging.writeFrom blockSize blocks offsetInBlock data f.mem } := by
  induction blocks generalizing offsetInBlock data f with
  | nil =>
    rw [List.length_nil, Nat.mul_zero] at enough
    have none : data = [] := List.eq_nil_of_length_eq_zero (by omega)
    rw [none, writeBlocks, Paging.writeFrom]
  | cons b rest ih =>
    rw [List.length_cons, Nat.mul_succ] at enough
    cases data with
    | nil => rw [writeBlocks, Paging.writeFrom_nil]
    | cons c data =>
      -- The code caps the length at that of the data; taking more than there is changes nothing.
      have taken : (c :: data).take (min (c :: data).length (blockSize - offsetInBlock)) =
          (c :: data).take (blockSize - offsetInBlock) := by
        rw [List.take_eq_take_iff]
        omega
      have dropped : (c :: data).drop (min (c :: data).length (blockSize - offsetInBlock)) =
          (c :: data).drop (blockSize - offsetInBlock) := by
        rcases Nat.le_total (c :: data).length (blockSize - offsetInBlock) with all | part
        · rw [Nat.min_eq_left all, List.drop_length, List.drop_of_length_le all]
        · rw [Nat.min_eq_right part]
      have length : ((c :: data).take (blockSize - offsetInBlock)).length =
          min (blockSize - offsetInBlock) (c :: data).length := List.length_take
      have here := inside b List.mem_cons_self
      have some : (c :: data).take (blockSize - offsetInBlock) ≠ [] := by
        intro empty
        rw [empty, List.length_nil, List.length_cons] at length
        omega
      rw [writeBlocks, taken, dropped, FileBuffer.writeBytes, if_neg some, blockToOffset,
        checkOffset_ok (by omega), Paging.writeFrom]
      exact ih (fun d member => inside d (List.mem_cons_of_mem b member)) (by omega)
        (by rw [List.length_drop]; omega)

namespace MSFStreamLayout

variable {l : MSFStreamLayout} {blockSize : Nat} {f : FileBuffer}

theorem Mapped.room (mapped : l.Mapped blockSize f.size) {offset size : Nat}
    (fits : offset + size ≤ l.length) :
    offset % blockSize + size ≤ blockSize * (l.blocks.drop (offset / blockSize)).length := by
  have enough := mapped.enough
  have split := Nat.div_add_mod offset blockSize
  rw [List.length_drop, Nat.mul_sub]
  omega

private theorem Mapped.inside_drop (mapped : l.Mapped blockSize f.size) (k : Nat) :
    ∀ b ∈ l.blocks.drop k, b * blockSize + blockSize ≤ f.size :=
  fun b member => mapped.inside b (List.drop_subset _ _ member)

/-- The bytes that are copied block by block are the array's. -/
theorem readInto_eq (mapped : l.Mapped blockSize f.size) {offset size : Nat}
    (bounded : offset + size < 2 ^ 64) :
    l.readInto blockSize f offset size = Plain.read (l.content blockSize f) offset size := by
  rw [readInto, Plain.read, content, Paging.length_content, checkOffset_eq bounded]
  cases checked : Plain.check l.length offset size with
  | error e => rfl
  | ok u =>
    have fits := of_check checked
    have blocks := readBlocks_eq f (mapped.inside_drop (offset / blockSize))
      (Nat.mod_lt offset mapped.positive) (mapped.room fits)
    have same := Paging.read_eq_slice l.blocks offset size l.length f.mem mapped.positive fits
      mapped.enough
    rw [Paging.read] at same
    rw [← same]
    exact blocks

/-- Contiguous blocks that are read at once. -/
theorem contiguous_true {count e : Nat} {blocks : List Nat}
    (all : contiguous count e blocks = .ok true) : blocks.take count = List.range' e count := by
  induction count generalizing e blocks with
  | zero => rfl
  | succ count ih =>
    cases blocks with
    | nil => cases all
    | cons b rest =>
      rw [contiguous] at all
      split at all
      · cases all
      · rename_i same
        rw [List.take_succ_cons, List.range'_succ, ih all, not_not.mp same]

private theorem contiguous_ends {count : Nat} (e : Nat) {blocks : List Nat}
    (enough : count ≤ blocks.length) :
    ∃ answer, contiguous count e blocks = .ok answer := by
  induction count generalizing e blocks with
  | zero => exact ⟨true, by rw [contiguous]⟩
  | succ count ih =>
    cases blocks with
    | nil => simp at enough
    | cons b rest =>
      rw [contiguous]
      split
      · exact ⟨false, rfl⟩
      · exact ih (e + 1) (by simpa using enough)

/-- The number of blocks that have to be contiguous: enough for the bytes, and no more than there
are. -/
theorem required_blocks {blockSize skip size count : Nat} (positive : 0 < blockSize)
    (short : skip < blockSize) (some : 0 < size) (enough : skip + size ≤ blockSize * count) :
    alignTo (size - min size (blockSize - skip)) blockSize / blockSize + 1 ≤ count ∧
      skip + size ≤
        blockSize * (alignTo (size - min size (blockSize - skip)) blockSize / blockSize + 1) := by
  have rounded := le_alignTo (size - min size (blockSize - skip)) blockSize positive
  obtain ⟨q, multiple⟩ := dvd_alignTo (size - min size (blockSize - skip)) blockSize
  have above := alignTo_lt (size - min size (blockSize - skip)) blockSize positive
  rw [multiple, Nat.mul_div_cancel_left q positive, Nat.mul_succ]
  rw [multiple] at rounded above
  refine ⟨?_, by omega⟩
  by_contra more
  have less : blockSize * count ≤ blockSize * q := Nat.mul_le_mul_left _ (by omega)
  have first : blockSize * 1 ≤ blockSize * count :=
    Nat.mul_le_mul_left _ (Nat.pos_of_ne_zero (by rintro rfl; omega))
  omega

/-- Where the bytes of contiguous blocks lie. -/
theorem addr_contiguous {blocks : List Nat} {count e i : Nat}
    (inARow : blocks.take count = List.range' e count) (inside : i < blockSize * count) :
    Paging.addr blockSize blocks i = e * blockSize + i := by
  have below : i / blockSize < count := Nat.div_lt_of_lt_mul inside
  have block : blocks[i / blockSize]? = some (e + i / blockSize) := by
    rw [← List.getElem?_take_of_lt below, inARow, List.getElem?_range' below, Nat.one_mul]
  have split := Nat.div_add_mod i blockSize
  rw [Paging.addr, List.getD_eq_getElem?_getD, block, Option.getD_some, Nat.add_mul,
    Nat.mul_comm (i / blockSize)]
  omega

/-- What is referred to in the file at once is what the array holds. -/
theorem tryReadContiguously_eq (mapped : l.Mapped blockSize f.size) {offset size : Nat}
    (fits : offset + size ≤ l.length) :
    ∃ r, l.tryReadContiguously blockSize f offset size = .ok r ∧
      ∀ bytes, r = some bytes → bytes = (l.content blockSize f).slice offset size := by
  rw [tryReadContiguously]
  by_cases nothing : size = 0
  · rw [if_pos nothing]
    refine ⟨_, rfl, ?_⟩
    rintro bytes ⟨⟩
    rw [nothing, Bytes.slice, List.take_zero]
  · have positive := mapped.positive
    have short := Nat.mod_lt offset positive
    have split := Nat.div_add_mod offset blockSize
    have inFile := mapped.inside_drop (offset / blockSize)
    obtain ⟨fewer, covers⟩ := required_blocks positive short (Nat.pos_of_ne_zero nothing)
      (mapped.room fits)
    rw [if_neg nothing]
    dsimp only
    generalize alignTo (size - min size (blockSize - offset % blockSize)) blockSize / blockSize + 1 =
      required at fewer covers
    have same := Paging.read_eq_slice l.blocks offset size l.length f.mem positive fits mapped.enough
    rw [Paging.read_eq _ _ _ _ positive (Nat.le_trans fits mapped.enough)] at same
    have place : ∀ i, Paging.addr blockSize l.blocks (offset + i) =
        Paging.addr blockSize (l.blocks.drop (offset / blockSize)) (offset % blockSize + i) := by
      intro i
      rw [Paging.addr_drop _ _ _ positive, ← Nat.add_assoc, split]
    generalize l.blocks.drop (offset / blockSize) = blocks at fewer inFile place
    cases blocks with
    | nil =>
      rw [List.length_nil] at fewer
      have : required = 0 := by omega
      rw [this] at covers
      omega
    | cons e rest =>
      obtain ⟨answer, asked⟩ := contiguous_ends e fewer
      dsimp only
      rw [asked]
      change ∃ r, (if answer = false then _ else _) = _ ∧ _
      cases answer with
      | false => exact ⟨none, rfl, fun bytes found => by cases found⟩
      | true =>
        have inARow := contiguous_true asked
        have one : 0 < required := by
          apply Nat.pos_of_ne_zero
          rintro rfl
          omega
        -- the last of the blocks lies in the file
        have last : (e + (required - 1)) ∈ e :: rest := by
          apply List.take_subset required
          rw [inARow, List.mem_range'_1]
          omega
        have bound := inFile _ last
        rw [← Nat.succ_mul] at bound
        have reach : (e + (required - 1)).succ * blockSize = e * blockSize + blockSize * required := by
          have count : (e + (required - 1)).succ = e + required := by omega
          rw [count, Nat.add_mul, Nat.mul_comm required]
        have first := inFile e List.mem_cons_self
        rw [if_neg (by decide), blockToOffset, FileBuffer.readBytes, checkOffset_ok first]
        dsimp only [bind, Except.bind]
        rw [if_neg (by omega)]
        refine ⟨_, rfl, ?_⟩
        rintro bytes ⟨⟩
        rw [content, ← same]
        refine List.map_congr_left (fun i member => ?_)
        have below := List.mem_range.mp member
        have index : ((offset : Int) + (i : Int)).toNat = offset + i := by omega
        rw [Paging.linear, index, place i, addr_contiguous inARow (by omega)]
        congr 1
        omega

/-- What is written block by block is written into the array. -/
theorem write_eq (mapped : l.Mapped blockSize f.size) {offset : Nat} {data : Bytes}
    (bounded : offset + data.length < 2 ^ 64) :
    match l.write blockSize f offset data with
    | .ok f' => f'.size = f.size ∧
        (∀ a, a ∉ Paging.cells blockSize l.blocks → f'.mem a = f.mem a) ∧
        Plain.write (l.content blockSize f) offset data = .ok (l.content blockSize f')
    | .error e => Plain.write (l.content blockSize f) offset data = .error e := by
  rw [write, Plain.write, content, Paging.length_content, checkOffset_eq bounded]
  -- both sides make the same check, and behind it only the frame and the bytes are left
  cases checked : Plain.check l.length offset data.length with
  | error e => rfl
  | ok u =>
    have fits := of_check checked
    have blocks := writeBlocks_eq (f := f) (mapped.inside_drop (offset / blockSize))
      (Nat.mod_lt offset mapped.positive) (mapped.room fits)
    change (match writeBlocks blockSize (l.blocks.drop (offset / blockSize)) (offset % blockSize)
      data f with | .ok f' => _ | .error e => _)
    rw [blocks]
    refine ⟨rfl, ?_, ?_⟩
    · intro a outside
      exact Paging.write_frame l.blocks offset data f.mem mapped.positive outside
    · have same := Paging.content_write l.blocks offset l.length data f.mem mapped.positive
        mapped.distinct fits mapped.enough
      rw [← same]
      rfl

end MSFStreamLayout

/-! ### The cache holds what the stream holds -/

def MappedBlockStream.content (s : MappedBlockStream) : Bytes :=
  s.streamLayout.content s.blockSize s.file

/-- Each buffer of the cache is a part of the contents. -/
def Current (content : Bytes) (cacheMap : CacheMap) : Prop :=
  ∀ item ∈ cacheMap, ∀ b ∈ item.2, item.1 + b.length ≤ content.length ∧
    b = content.slice item.1 b.length

structure MappedBlockStream.Coherent (s : MappedBlockStream) : Prop where
  mapped : s.streamLayout.Mapped s.blockSize s.file.size
  buffers : Current s.content s.cacheMap

private theorem slice_slice (bytes : Bytes) (first n offset size : Nat)
    (within : offset + size ≤ n) :
    (bytes.slice first n).slice offset size = bytes.slice (first + offset) size := by
  apply List.ext_getElem?
  intro i
  rw [Paging.getElem?_slice, Paging.getElem?_slice, Paging.getElem?_slice]
  split
  · rw [if_pos (by omega), Nat.add_assoc]
  · rfl

private theorem cachedElsewhere_eq {content : Bytes} {cacheMap : CacheMap}
    (current : Current content cacheMap) {item : Nat × List Bytes} (member : item ∈ cacheMap)
    {offset size : Nat} {buffer : Bytes} (found : cachedElsewhere offset size item = some buffer) :
    buffer = content.slice offset size := by
  rw [cachedElsewhere] at found
  split at found
  · cases found
  · split at found
    · cases found
    · split at found
      · cases found
      · rename_i alloc last
        dsimp only at found
        split at found
        · cases found
        · split at found
          · cases found
          · rename_i covered
            cases found
            -- the last buffer of the item covers what is asked for, so it holds those bytes
            have same := Prod.mk.inj (not_not.mp covered)
            obtain ⟨-, held⟩ := current item member alloc (List.mem_of_getLast? last)
            rw [held, slice_slice _ _ _ _ _ (by omega)]
            congr 1
            omega

private theorem cached_eq {order : CacheMap → CacheMap} (lists : ∀ c, ∀ item ∈ order c, item ∈ c)
    {content : Bytes} {cacheMap : CacheMap} (current : Current content cacheMap) {offset size : Nat}
    {buffer : Bytes} (found : cached order cacheMap offset size = some buffer) :
    buffer = content.slice offset size := by
  rw [cached] at found
  split at found
  · rename_i entry first
    cases found
    -- a buffer of the same offset that is long enough
    have long := List.find?_some first
    have listed := List.mem_of_find?_eq_some first
    cases there : cacheMap.find? (·.1 = offset) with
    | none =>
      rw [there] at listed
      cases listed
    | some item =>
      rw [there] at listed
      have key := List.find?_some there
      obtain ⟨-, held⟩ := current item (List.mem_of_find?_eq_some there) entry listed
      rw [decide_eq_true_eq] at long key
      rw [held, slice_slice _ _ _ _ _ (by omega), key, Nat.add_zero]
  · obtain ⟨item, listed, elsewhere⟩ := List.exists_of_findSome?_eq_some found
    exact cachedElsewhere_eq current (lists _ item listed) elsewhere

private theorem Current.keepBuffer {content : Bytes} {cacheMap : CacheMap}
    (current : Current content cacheMap) {offset size : Nat}
    (fits : offset + size ≤ content.length) :
    Current content (keepBuffer cacheMap offset (content.slice offset size)) := by
  have length := length_slice content offset size fits
  have new : offset + (content.slice offset size).length ≤ content.length ∧
      content.slice offset size = content.slice offset (content.slice offset size).length := by
    rw [length]
    exact ⟨fits, rfl⟩
  intro item member b inItem
  rw [Msf.keepBuffer] at member
  -- the buffer joins those of its offset, or comes in as the first of them
  split at member
  · obtain ⟨old, inMap, changed⟩ := List.mem_map.mp member
    split at changed
    · rename_i key
      subst changed
      rcases List.mem_append.mp inItem with before | added
      · exact current old inMap b before
      · rw [List.mem_singleton.mp added]
        dsimp only
        rw [key]
        exact new
    · subst changed
      exact current old inMap b inItem
  · rcases List.mem_append.mp member with before | added
    · exact current item before b inItem
    · rw [List.mem_singleton.mp added] at inItem ⊢
      rw [List.mem_singleton.mp inItem]
      exact new

/-- A buffer follows the write. -/
theorem fixBuffer_eq {content data b : Bytes} {offset first : Nat}
    (fits : offset + data.length ≤ content.length) (within : first + b.length ≤ content.length)
    (held : b = content.slice first b.length) :
    fixBuffer offset data first b = (Paging.splice content offset data).slice first b.length := by
  rw [fixBuffer]
  split
  · rw [Paging.slice_splice_apart fits (by omega)]
    exact held
  · split
    · rw [Paging.slice_splice_apart fits (by omega)]
      exact held
    · dsimp only
      have part := length_slice data (max offset first - offset)
        (min (offset + data.length) (first + b.length) - max offset first) (by omega)
      rw [Paging.slice_splice fits within (by omega) (by omega), ← held, Paging.splice, part]

private theorem length_fixBuffer {content data b : Bytes} {offset first : Nat}
    (fits : offset + data.length ≤ content.length) (within : first + b.length ≤ content.length)
    (held : b = content.slice first b.length) : (fixBuffer offset data first b).length = b.length := by
  rw [fixBuffer_eq fits within held, length_slice]
  rw [Paging.length_splice fits]
  exact within

private theorem Current.fixCacheAfterWrite {content data : Bytes} {cacheMap : CacheMap}
    (current : Current content cacheMap) {offset : Nat}
    (fits : offset + data.length ≤ content.length) :
    Current (Paging.splice content offset data) (fixCacheAfterWrite cacheMap offset data) := by
  intro item member b inItem
  obtain ⟨old, inMap, rfl⟩ := List.mem_map.mp member
  obtain ⟨b₀, before, rfl⟩ := List.mem_map.mp inItem
  obtain ⟨within, held⟩ := current old inMap b₀ before
  rw [length_fixBuffer fits within held, Paging.length_splice fits]
  exact ⟨within, fixBuffer_eq fits within held⟩

namespace MappedBlockStream

theorem readBytes_spec {order : CacheMap → CacheMap} (lists : ∀ c, ∀ item ∈ order c, item ∈ c)
    {s : MappedBlockStream} (coherent : s.Coherent) {offset size : Nat}
    (bounded : offset + size < 2 ^ 64) :
    match s.readBytes order offset size with
    | .ok (buffer, s') => Plain.read s.content offset size = .ok buffer ∧ s'.Coherent ∧
        s'.content = s.content
    | .error e => Plain.read s.content offset size = .error e := by
  have length : s.content.length = s.streamLayout.length := Paging.length_content _ _ _
  have copied := MSFStreamLayout.readInto_eq coherent.mapped bounded
  rw [readBytes, Plain.read, length, checkOffset_eq bounded]
  cases checked : Plain.check s.streamLayout.length offset size with
  | error e => rfl
  | ok u =>
    have fits := of_check checked
    obtain ⟨r, tried, direct⟩ := MSFStreamLayout.tryReadContiguously_eq coherent.mapped fits
    dsimp only [bind, Except.bind]
    rw [tried]
    dsimp only
    -- A read that is contiguous in the file bypasses the cache, any other looks there first.
    cases r with
    | some buffer =>
      rw [direct buffer rfl]
      exact ⟨rfl, coherent, rfl⟩
    | none =>
      dsimp only
      cases hit : cached order s.cacheMap offset size with
      | some buffer =>
        rw [cached_eq lists coherent.buffers hit]
        exact ⟨rfl, coherent, rfl⟩
      | none =>
        dsimp only
        -- What is read block by block is kept, and agrees with the file.
        have whole : s.streamLayout.readInto s.blockSize s.file offset size =
            .ok (s.content.slice offset size) := by
          rw [copied, Plain.read, ← content, length, checked]
          rfl
        rw [whole]
        refine ⟨rfl, ⟨coherent.mapped, ?_⟩, rfl⟩
        exact coherent.buffers.keepBuffer (by rw [length]; exact fits)

theorem writeBytes_spec {s : MappedBlockStream} (coherent : s.Coherent) {offset : Nat}
    {data : Bytes} (bounded : offset + data.length < 2 ^ 64) :
    match s.writeBytes offset data with
    | .ok s' => Plain.write s.content offset data = .ok s'.content ∧ s'.Coherent
    | .error e => Plain.write s.content offset data = .error e := by
  have written := MSFStreamLayout.write_eq coherent.mapped bounded
  rw [writeBytes]
  cases done : s.streamLayout.write s.blockSize s.file offset data with
  | error e =>
    rw [done] at written
    exact written
  | ok file =>
    rw [done] at written
    obtain ⟨size, -, same⟩ := written
    refine ⟨same, ⟨?_, ?_⟩⟩
    · change s.streamLayout.Mapped s.blockSize file.size
      rw [size]
      exact coherent.mapped
    · rw [Plain.write] at same
      obtain ⟨u, checked, ended⟩ := Outcome.bind_ok_iff.mp same
      have fits := of_check checked
      -- the cached buffers get the bytes that the stream got
      change Current (s.streamLayout.content s.blockSize file) _
      rw [← Except.ok.inj ended]
      exact coherent.buffers.fixCacheAfterWrite fits

theorem transcript_coherent {order : CacheMap → CacheMap}
    (lists : ∀ c, ∀ item ∈ order c, item ∈ c) {s : MappedBlockStream} (coherent : s.Coherent)
    {calls : List StreamCall} (bounded : ∀ c ∈ calls, c.Bounded) :
    s.transcript order calls = Plain.transcript s.content calls := by
  induction calls generalizing s with
  | nil => rfl
  | cons c calls ih =>
    have here := bounded c List.mem_cons_self
    have ih := fun {s} coherent => @ih s coherent fun d member =>
      bounded d (List.mem_cons_of_mem c member)
    -- a call that is refused leaves the stream, one that succeeds leaves it coherent
    cases c with
    | read offset size =>
      have spec := readBytes_spec lists coherent here
      rw [transcript, Plain.transcript]
      cases done : s.readBytes order offset size with
      | ok r =>
        rw [done] at spec
        obtain ⟨same, coherent', kept⟩ := spec
        dsimp only
        rw [same, ih coherent', kept]
      | error e =>
        rw [done] at spec
        dsimp only
        rw [spec, ih coherent]
    | write offset data =>
      have spec := writeBytes_spec coherent here
      rw [transcript, Plain.transcript]
      cases done : s.writeBytes offset data with
      | ok s' =>
        rw [done] at spec
        obtain ⟨same, coherent'⟩ := spec
        dsimp only
        rw [same, ih coherent']
      | error e =>
        rw [done] at spec
        dsimp only at spec ⊢
        rw [spec, ih coherent]

theorem fresh_coherent {s : MappedBlockStream}
    (mapped : s.streamLayout.Mapped s.blockSize s.file.size) (fresh : s.cacheMap = []) :
    s.Coherent := by
  refine ⟨mapped, ?_⟩
  rw [fresh]
  exact fun item member => absurd member List.not_mem_nil

/-- Reads and writes through the cache answer as the plain array does, in every order, when their
offsets and sizes add up in 64 bits. -/
theorem transcript_eq (order : CacheMap → CacheMap) (lists : ∀ c, ∀ item ∈ order c, item ∈ c)
    (s : MappedBlockStream) (mapped : s.streamLayout.Mapped s.blockSize s.file.size)
    (fresh : s.cacheMap = []) {calls : List StreamCall} (bounded : ∀ c ∈ calls, c.Bounded) :
    s.transcript order calls = Plain.transcript s.content calls :=
  transcript_coherent lists (fresh_coherent mapped fresh) bounded

/-- Two blocks in the other order; the second read takes a part of the first one's buffer, which the
write has changed. -/
theorem swappedBlocks_transcript :
    MappedBlockStream.transcript id ⟨4, ⟨7, [2, 0]⟩, ⟨12, fun a => UInt8.ofNat a.toNat⟩, []⟩
        [.read 1 5, .write 3 [70, 71], .read 6 2, .read 2 3] =
      [.ok [9, 10, 11, 0, 1], .ok [], .error (.stream .streamTooShort), .ok [10, 70, 71]] :=
  (transcript_eq id (fun _ _ listed => listed)
    ⟨4, ⟨7, [2, 0]⟩, ⟨12, fun a => UInt8.ofNat a.toNat⟩, []⟩
    ⟨by decide, by decide, by decide, by decide⟩ rfl (by simp [StreamCall.Bounded])).trans rfl

end MappedBlockStream

end LlvmLd.Msf
