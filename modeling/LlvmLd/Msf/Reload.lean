import LlvmLd.Msf.Committed

/-!
# What is read from a file that was committed

## Main results

- `reload_streams`: a committed file is accepted, and its streams have the sizes, the blocks and the
  bytes that were written to them.
- `reload_layout`: the layout that is read is the builder's, when no stream lies on a free page map.
-/

namespace LlvmLd.Msf

open Memory

/-! ### The super block -/

private theorem SuperBlock.ofBytes_bytes {sb : SuperBlock} (magicBytes : sb.magicBytes.length = 32)
    (small : ∀ w ∈ [sb.blockSize, sb.freeBlockMapBlock, sb.numBlocks, sb.numDirectoryBytes,
      sb.unknown1, sb.blockMapAddr], w < 2 ^ 32) : SuperBlock.ofBytes sb.bytes = sb := by
  -- the fields behind the magic number are six words
  have word : ∀ i (below : i < 6), sb.bytes.u32At (32 + 4 * i) =
      [sb.blockSize, sb.freeBlockMapBlock, sb.numBlocks, sb.numDirectoryBytes, sb.unknown1,
        sb.blockMapAddr][i] := by
    intro i below
    have there := u32At_flatMap [sb.blockSize, sb.freeBlockMapBlock, sb.numBlocks,
      sb.numDirectoryBytes, sb.unknown1, sb.blockMapAddr] i below
    rw [uint32, Nat.mod_eq_of_lt (small _ (List.getElem_mem _))] at there
    rw [bytes, ← magicBytes, ← u32At_drop, List.drop_left, there]
  have front : sb.bytes.slice 0 32 = sb.magicBytes := by
    rw [Bytes.slice, List.drop_zero, bytes, ← magicBytes, List.take_left]
  rw [ofBytes, front]
  have first := word 0 (by decide)
  have second := word 1 (by decide)
  have third := word 2 (by decide)
  have fourth := word 3 (by decide)
  have fifth := word 4 (by decide)
  have sixth := word 5 (by decide)
  simp only [Nat.mul_zero, Nat.mul_one, Nat.add_zero, Nat.reduceMul, Nat.reduceAdd,
    List.getElem_cons_zero, List.getElem_cons_succ] at first second third fourth fifth sixth
  rw [first, second, third, fourth, fifth, sixth]

private theorem validateSuperBlock_ok {sizes : List Nat} {l : MSFLayout} (fit : l.Fit)
    (laid : l.LaidOut l.sb.blockSize sizes)
    (directoryBytes : l.sb.numDirectoryBytes = 4 * l.directory.flatten.length) :
    validateSuperBlock l.sb = .ok () := by
  have above := laid.apart.blockMap
  have inside := laid.inside l.sb.blockMapAddr (List.mem_append_right _ List.mem_cons_self)
  have blockMap := fit.blockMap
  obtain ⟨-, -, four⟩ := blockSize_bounds fit.valid
  have number : ¬(l.sb.freeBlockMapBlock ≠ 1 ∧ l.sb.freeBlockMapBlock ≠ 2) := by
    have fpm := fit.fpm
    omega
  rw [validateSuperBlock, if_neg (by simp [fit.magicBytes]), if_neg (by simp [fit.valid]),
    if_neg (by omega), if_neg (by omega), if_neg (by omega), if_neg (by omega), if_neg number]

/-! ### Reading words -/

section Words

variable {order : CacheMap → CacheMap} (lists : ∀ c, ∀ item ∈ order c, item ∈ c)
include lists

private theorem readBytes_ok {s : MappedBlockStream} (coherent : s.Coherent)
    (short : s.content.length < 2 ^ 64) (offset size : Nat)
    (fits : offset + size ≤ s.content.length) :
    ∃ s', s.readBytes order offset size = .ok (s.content.slice offset size, s') ∧ s'.Coherent ∧
      s'.content = s.content := by
  have spec := MappedBlockStream.readBytes_spec lists coherent
    (Nat.lt_of_le_of_lt fits short)
  rw [Plain.read, check_ok fits] at spec
  cases done : s.readBytes order offset size with
  | error e =>
    rw [done] at spec
    cases spec
  | ok r =>
    rw [done] at spec
    obtain ⟨same, coherent', kept⟩ := spec
    exact ⟨r.2, by rw [Except.ok.inj same], coherent', kept⟩

/-- Words that stand in the stream are read, and the reader goes on behind them. -/
theorem readWords_spec {s : MappedBlockStream} (coherent : s.Coherent) (offset : Nat)
    (ws rest : List Nat) (there : s.content.drop offset = (ws ++ rest).flatMap le32)
    (inside : offset ≤ s.content.length) (short : s.content.length < 2 ^ 32)
    (small : ∀ w ∈ ws, w < 2 ^ 32) :
    ∃ s', readWords order (s, offset) ws.length = .ok (ws, (s', offset + 4 * ws.length)) ∧
      s'.Coherent ∧ s'.content = s.content := by
  -- the words lie inside of the stream, for the rest is behind them
  have length : s.content.length = offset + 4 * ws.length + 4 * rest.length := by
    have both := congrArg List.length there
    rw [List.length_drop, length_flatMap_le32, List.length_append] at both
    omega
  by_cases none : ws.length = 0
  · have empty : ws = [] := List.eq_nil_of_length_eq_zero none
    subst empty
    exact ⟨s, rfl, coherent, rfl⟩
  · obtain ⟨s', read, coherent', kept⟩ := readBytes_ok lists coherent (by omega) offset
      (4 * ws.length) (by omega)
    have found : s.content.slice offset (4 * ws.length) = ws.flatMap le32 := by
      rw [Bytes.slice, there, List.flatMap_append, ← length_flatMap_le32, List.take_left]
    refine ⟨s', ?_, coherent', kept⟩
    have few : ¬ ws.length > uint32Max / 4 := by
      rw [uint32Max]
      omega
    rw [readWords, if_neg none, if_neg few]
    dsimp only
    rw [read, found]
    change Except.ok (words ws.length (ws.flatMap le32), _) = _
    rw [words_flatMap small]

/-- The block lists of the streams. -/
theorem parseStreamMap_spec {blockSize fileSize : Nat} {sizes : List Nat} {map : List (List Nat)}
    (rooms : List.Forall₂ (fun size blocks => blocks.length = bytesToBlocks size blockSize) sizes map)
    (known : ∀ size ∈ sizes, size ≠ uint32Max)
    (inFile : ∀ b ∈ map.flatten, b + 1 < 2 ^ 32 ∧ (b + 1) * blockSize ≤ fileSize)
    {s : MappedBlockStream} (coherent : s.Coherent) (offset : Nat)
    (there : s.content.drop offset = map.flatten.flatMap le32)
    (inside : offset ≤ s.content.length) (short : s.content.length < 2 ^ 32) :
    PDBFile.parseStreamMap order blockSize fileSize sizes (s, offset) = .ok map := by
  induction rooms generalizing s offset with
  | nil => rfl
  | @cons size blocks sizes map room _ ih =>
    rw [List.flatten_cons] at there inFile
    obtain ⟨s', read, coherent', kept⟩ := readWords_spec lists coherent offset blocks map.flatten
      (by rw [there, List.flatMap_append]) inside short
      (fun b member => by
        have := (inFile b (List.mem_append_left _ member)).1
        omega)
    have length := congrArg List.length there
    rw [List.length_drop, length_flatMap_le32, List.length_append] at length
    have expected : (if size = uint32Max then 0 else bytesToBlocks size blockSize) =
        blocks.length := by rw [if_neg (known size List.mem_cons_self), room]
    -- A block whose end lies in the file passes the check, also after its increment in 32 bits.
    have valid : ¬ blocks.any (fun block => uint32 (block + 1) * blockSize > fileSize) = true := by
      rw [List.any_eq_true]
      rintro ⟨b, member, beyond⟩
      obtain ⟨number, fits⟩ := inFile b (List.mem_append_left _ member)
      rw [decide_eq_true_eq, uint32, Nat.mod_eq_of_lt number] at beyond
      omega
    have later := ih (fun size member => known size (List.mem_cons_of_mem _ member))
      (fun b member => inFile b (List.mem_append_right _ member)) coherent'
      (offset + 4 * blocks.length)
      (by rw [kept, ← List.drop_drop, there, List.flatMap_append, ← length_flatMap_le32,
        List.drop_left]) (by rw [kept]; omega) (by rw [kept]; exact short)
    rw [PDBFile.parseStreamMap]
    dsimp only
    rw [expected, read]
    dsimp only [bind, Except.bind]
    rw [if_neg valid, later]

end Words

/-! ### Parsing -/

/-- The free page map as it is loaded. -/
def loadedMap (numBlocks : Nat) (fpmBytes : Bytes) : List Bool :=
  fpmBits numBlocks fpmBytes ++
    List.replicate (numBlocks - (fpmBits numBlocks fpmBytes).length) false

private theorem slice_whole (b : Bytes) : b.slice 0 b.length = b := by
  rw [Bytes.slice, List.drop_zero, List.take_length]

private theorem mapped_coherent {f : FileBuffer} {blockSize fileSize : Nat}
    {stream : MSFStreamLayout} (size : f.size = fileSize)
    (mapped : stream.Mapped blockSize fileSize) :
    (PDBFile.mapped f blockSize stream).Coherent := by
  rw [← size] at mapped
  exact MappedBlockStream.fresh_coherent mapped rfl

section Parsing

variable {sizes : List Nat} {l : MSFLayout} (fit : l.Fit) (laid : l.LaidOut l.sb.blockSize sizes)
  {f : FileBuffer} (committed : Committed l f)
include fit laid committed

private theorem readHeader_ok : f.readBytes 0 superBlockSize = .ok l.sb.bytes ∧
    SuperBlock.ofBytes l.sb.bytes = l.sb := by
  obtain ⟨wide, -, -⟩ := blockSize_bounds fit.valid
  have four := laid.four
  have room : l.sb.blockSize * 4 ≤ l.sb.blockSize * l.sb.numBlocks := Nat.mul_le_mul_left _ four
  have size := committed.size
  constructor
  · rw [FileBuffer.readBytes, checkOffset_ok (by rw [superBlockSize]; omega)]
    exact congrArg Except.ok committed.header
  · apply SuperBlock.ofBytes_bytes (by rw [fit.magicBytes]; rfl)
    have blocks := fit.numBlocks
    -- the block map lies in the file, so its address fits in a word as well
    have map := laid.inside l.sb.blockMapAddr (List.mem_append_right _ List.mem_cons_self)
    have directory := fit.numDirectoryBytes
    have unknown1 := fit.unknown1
    have fpm := fit.fpm
    intro w member
    simp only [List.mem_cons, List.not_mem_nil, or_false] at member
    omega

private theorem readDirectoryBlocks_ok :
    PDBFile.readDirectoryBlocks f l.sb = .ok l.directoryBlocks := by
  have blocks := fit.numBlocks
  have few := fit.blockMap
  have size := committed.size
  have inFile := laid.inFile (List.mem_append_right _ List.mem_cons_self :
    l.sb.blockMapAddr ∈ l.owned)
  rw [PDBFile.readDirectoryBlocks]
  rw [← laid.directory] at few ⊢
  split
  · rename_i none
    rw [List.eq_nil_of_length_eq_zero none]
  · have notMany : ¬ l.directoryBlocks.length > uint32Max / 4 := by
      rw [uint32Max]
      omega
    rw [if_neg notMany, FileBuffer.readBytes, checkOffset_ok (by omega)]
    change Except.ok (words _ (Memory.readBytes _ _ _)) = _
    rw [committed.blockMap, words_flatMap]
    intro b member
    have below := laid.inside b (List.mem_append_right _ (List.mem_cons_of_mem _
      (List.mem_append_left _ member)))
    omega

variable {order : CacheMap → CacheMap} (lists : ∀ c, ∀ item ∈ order c, item ∈ c)
include lists

private theorem readFpm_ok : ∃ s, (PDBFile.mapped f l.sb.blockSize
    (getFpmStreamLayout l false false)).readBytes order 0
      (getFpmStreamLayout l false false).length =
    .ok ((getFpmStreamLayout l false false).content l.sb.blockSize f, s) := by
  have mapped := fpm_mapped_of_fit fit laid false false
  have length : (PDBFile.mapped f l.sb.blockSize
      (getFpmStreamLayout l false false)).content.length =
      (getFpmStreamLayout l false false).length := Paging.length_content _ _ _
  have bytes : (getFpmStreamLayout l false false).length < 2 ^ 64 := by
    change divideCeil l.sb.numBlocks 8 < 2 ^ 64
    have le := (@divideCeil_le_iff l.sb.numBlocks 8 l.sb.numBlocks (by decide)).mpr (by omega)
    have blocks := fit.numBlocks
    omega
  obtain ⟨s, read, -, -⟩ := readBytes_ok lists (mapped_coherent committed.size mapped)
    (by rw [length]; exact bytes) 0 (getFpmStreamLayout l false false).length (by omega)
  refine ⟨s, ?_⟩
  rw [read, ← length, slice_whole]
  rfl

private theorem parseFileHeaders_ok :
    PDBFile.parseFileHeaders order f = .ok { l with
      freePageMap := loadedMap l.sb.numBlocks
        ((getFpmStreamLayout l false false).content l.sb.blockSize f)
      streamSizes := [], streamMap := [] } := by
  obtain ⟨header, sb⟩ := readHeader_ok fit laid committed
  obtain ⟨s, fpm⟩ := readFpm_ok fit laid committed lists
  have multiple : ¬ f.size % l.sb.blockSize ≠ 0 := by
    rw [committed.size, Nat.mul_mod_right]
    exact not_not.mpr rfl
  -- the layout of the map depends on the super block only
  have same : getFpmStreamLayout { sb := l.sb, freePageMap := [], directoryBlocks := []
                                   streamSizes := [], streamMap := [] } false false =
      getFpmStreamLayout l false false := rfl
  rw [PDBFile.parseFileHeaders, header]
  dsimp only
  rw [sb, validateSuperBlock_ok fit laid committed.directoryBytes]
  dsimp only [bind, Except.bind]
  rw [if_neg multiple, same, fpm]
  dsimp only
  rw [readDirectoryBlocks_ok fit laid committed]
  rfl

/-- The directory gives back the sizes and the blocks. -/
theorem parseStreamData_ok (known : ∀ size ∈ l.streamSizes, size ≠ uint32Max) (map : List Bool) :
    PDBFile.parseStreamData order f
        { l with freePageMap := map, streamSizes := [], streamMap := [] } =
      .ok ⟨f, { l with freePageMap := map }⟩ := by
  obtain ⟨wide, -, -⟩ := blockSize_bounds fit.valid
  have mapped := laid.directory_mapped (by omega)
  have coherent := mapped_coherent committed.size mapped
  have blocks := fit.numBlocks
  have short := fit.numDirectoryBytes
  have length : (PDBFile.mapped f l.sb.blockSize l.directoryStream).content.length =
      l.sb.numDirectoryBytes := Paging.length_content _ _ _
  -- The directory is the number of streams, their sizes, then their blocks one after the other.
  have content : (PDBFile.mapped f l.sb.blockSize l.directoryStream).content =
      le32 l.streamSizes.length ++ (l.streamSizes ++ l.streamMap.flatten).flatMap le32 :=
    committed.directory
  have count : l.sb.numDirectoryBytes =
      4 + 4 * (l.streamSizes.length + l.streamMap.flatten.length) := by
    rw [← length, content, List.length_append, length_le32, length_flatMap_le32, List.length_append]
  -- The three reads follow that order, and each leaves a cache that agrees with the file.
  obtain ⟨s, first, coherent₁, kept₁⟩ := readBytes_ok lists coherent (by omega) 0 4
    (by omega)
  have number : ((PDBFile.mapped f l.sb.blockSize l.directoryStream).content.slice 0 4).u32At 0 =
      l.streamSizes.length := by
    have front := u32At_le32 l.streamSizes.length []
    rw [uint32, Nat.mod_eq_of_lt (by omega), List.append_nil] at front
    rw [content]
    exact front
  obtain ⟨s', second, coherent₂, kept₂⟩ := readWords_spec lists coherent₁ 4 l.streamSizes
    l.streamMap.flatten (by rw [kept₁, content]; rfl) (by rw [kept₁]; omega) (by rw [kept₁]; omega) fit.sizes
  -- The blocks lie inside the file, as the layout says.
  have third := @parseStreamMap_spec _ lists _ f.size _ _ laid.rooms known
    (fun b member => by
      have inside := laid.inside b (List.mem_append_right _ (List.mem_cons_of_mem _
        (List.mem_append_right _ member)))
      rw [committed.size, Nat.mul_comm l.sb.blockSize]
      exact ⟨by omega, Nat.mul_le_mul_right _ inside⟩)
    _ coherent₂ (4 + 4 * l.streamSizes.length)
    (by
      rw [kept₂, kept₁, content, ← List.drop_drop]
      change ((l.streamSizes ++ l.streamMap.flatten).flatMap le32).drop _ = _
      rw [List.flatMap_append, ← length_flatMap_le32, List.drop_left])
    (by rw [kept₂, kept₁]; omega) (by rw [kept₂, kept₁]; omega)
  have same : ({ l with freePageMap := map, streamSizes := [], streamMap := [] } :
      MSFLayout).directoryStream = l.directoryStream := rfl
  rw [PDBFile.parseStreamData, same]
  dsimp only [bind, Except.bind]
  rw [first]
  dsimp only
  rw [number, second]
  dsimp only
  rw [third]

end Parsing

/-! ### From the calls to the file -/

open MSFBuilder in
/-- The directory's size is counted in 32 bits. -/
theorem directoryBytes_le {b b' : MSFBuilder} (owns : b.Owns)
    (data : b'.streamData = b.streamData) :
    (b'.layout b.computeDirectoryByteSize).sb.numDirectoryBytes ≤
      4 * (b'.layout b.computeDirectoryByteSize).directory.flatten.length := by
  refine Nat.le_trans (Nat.mod_le _ _) (Nat.le_of_eq ?_)
  -- a stream has as many blocks in the map as its size needs
  have blocks : ∀ streams : List (Nat × List Nat),
      (∀ d ∈ streams, d.2.length = bytesToBlocks d.1 b.blockSize) →
      (streams.map (fun d => bytesToBlocks d.1 b.blockSize * 4)).sum =
        4 * (streams.map Prod.snd).flatten.length := by
    intro streams sized
    induction streams with
    | nil => rfl
    | cons d rest ih =>
      have first := sized d List.mem_cons_self
      have later := ih (fun e member => sized e (List.mem_cons_of_mem d member))
      rw [List.map_cons, List.sum_cons, later, List.map_cons, List.flatten_cons, List.length_append,
        ← first]
      omega
  have sum := blocks b.streamData owns.sized
  change 4 + b.streamData.length * 4 + _ = 4 * ([(b'.streamData.map Prod.fst).length] ++
    (b'.streamData.map Prod.fst ++ (b'.streamData.map Prod.snd).flatten)).length
  rw [sum, data, List.length_append, List.length_append, List.length_map, List.length_singleton]
  omega

private theorem maxFileSize_le (blockSize : Nat) :
    getMaxFileSizeFromBlockSize blockSize ≤ 2 ^ 34 := by
  unfold getMaxFileSizeFromBlockSize uint32Max
  split
  · omega
  · split
    · omega
    · split <;> omega

open MSFBuilder in
/-- A layout that `commit` has let pass fits the format. -/
theorem fit_of_generated {blockSize : Nat} {s : Session} (built : Built blockSize s)
    (hints : s.HintsTaken) (maps : ∀ fpm, .setFreePageMap fpm ∈ s.accepted → fpm = 1 ∨ fpm = 2)
    {l : MSFLayout} (generated : s.builder.generateLayout = .ok l)
    (small : l.sb.blockSize * l.sb.numBlocks ≤ getMaxFileSizeFromBlockSize l.sb.blockSize)
    (blockMap : bytesToBlocks l.sb.numDirectoryBytes l.sb.blockSize * 4 ≤ l.sb.blockSize) :
    l.Fit ∧ l.sb.numDirectoryBytes ≤ 4 * l.directory.flatten.length := by
  obtain ⟨b', placed, ended⟩ := Outcome.bind_ok_iff.mp generated
  cases ended
  have owns := built.owns hints
  obtain ⟨same, -⟩ := placeDirectory_spec owns s.builder.directoryBlocks_lt placed
  have data : b'.streamData = s.builder.streamData := by rw [same]
  have map : b'.freePageMap = s.builder.freePageMap := by rw [same]
  have unknown : b'.unknown1 = s.builder.unknown1 := by rw [same]
  refine ⟨⟨b'.valid, rfl, ?_, ?_, Nat.mod_lt _ (Nat.two_pow_pos 32), ?_, blockMap, ?_⟩,
    directoryBytes_le owns data⟩
  · change b'.freePageMap = 1 ∨ b'.freePageMap = 2
    rw [map]
    -- the map is the one that `create` chose, or one that a call set
    rcases built.freePageMap with two | set
    · exact Or.inr two
    · exact maps _ set
  · change b'.freeBlocks.length + b'.blockSize < 2 ^ 32
    -- a file of 16 GiB has far fewer than 2^32 blocks of 512 bytes or more
    have bound : b'.blockSize * b'.freeBlocks.length ≤ 2 ^ 34 :=
      Nat.le_trans small (maxFileSize_le _)
    obtain ⟨low, high, -⟩ := blockSize_bounds b'.valid
    have scaled : 512 * b'.freeBlocks.length ≤ b'.blockSize * b'.freeBlocks.length :=
      Nat.mul_le_mul_right _ low
    omega
  · change b'.unknown1 < 2 ^ 32
    rw [unknown]
    exact built.unknown1
  · change ∀ s ∈ b'.streamData.map Prod.fst, s < 2 ^ 32
    rw [data]
    exact built.small

open MSFBuilder in
private theorem commit_spec {blockSize : Nat} {s : Session} (built : Built blockSize s)
    (hints : s.HintsTaken) (maps : ∀ fpm, .setFreePageMap fpm ∈ s.accepted → fpm = 1 ∨ fpm = 2)
    {created : Mem} {l : MSFLayout} {f : FileBuffer} (done : s.builder.commit created = .ok (l, f)) :
    s.builder.generateLayout = .ok l ∧ l.Fit ∧ l.sb.numDirectoryBytes ≤ 4 * l.directory.flatten.length ∧
      writeLayout l ⟨l.sb.blockSize * l.sb.numBlocks, created⟩ = .ok f := by
  obtain ⟨l', generated, done⟩ := Outcome.bind_ok_iff.mp done
  dsimp only at done
  split at done
  · cases done
  -- commit has checked the file's size and the directory's number of blocks
  · rename_i small
    split at done
    · cases done
    · rename_i blockMap
      obtain ⟨f', written, ended⟩ := Outcome.bind_ok_iff.mp done
      cases ended
      obtain ⟨fit, directoryBytes⟩ := fit_of_generated built hints maps generated
        (Nat.not_lt.mp small) (Nat.not_lt.mp blockMap)
      exact ⟨generated, fit, directoryBytes, written⟩

/-! ### Reading the file again -/

section Committing

variable {order : CacheMap → CacheMap} (lists : ∀ c, ∀ item ∈ order c, item ∈ c)
include lists

/-- A file whose streams have been written to since it was committed. -/
theorem parse_ok {sizes : List Nat} {l : MSFLayout} (fit : l.Fit)
    (laid : l.LaidOut l.sb.blockSize sizes) (known : ∀ size ∈ sizes, size ≠ uint32Max)
    {f : FileBuffer} (committed : Committed l f) :
    PDBFile.parse order f = .ok ⟨f, { l with
      freePageMap := loadedMap l.sb.numBlocks
        ((getFpmStreamLayout l false false).content l.sb.blockSize f) }⟩ := by
  rw [← laid.sizes] at known
  rw [PDBFile.parse, parseFileHeaders_ok fit laid committed lists]
  exact parseStreamData_ok fit laid committed lists known _

end Committing

open MSFBuilder in
/-- What the calls, the commit and the writes have to keep to: no hint for the directory is refused,
a free page map is at block 1 or 2, the block map lies below 4 GiB, and the writes end at 64-bit
numbers. -/
structure Kept (calls : List BuilderCall) (s : Session) (l : MSFLayout) (writes : List StreamWrite) :
    Prop where
  proper : ∀ c ∈ calls, c.Proper
  hints : s.HintsTaken
  maps : ∀ fpm, .setFreePageMap fpm ∈ s.accepted → fpm = 1 ∨ fpm = 2
  near : l.sb.blockMapAddr * l.sb.blockSize < 2 ^ 32
  bounded : ∀ w ∈ writes, w.Bounded

open MSFBuilder in
/-- What becomes of the layout and of the file, from the calls to the last write. -/
theorem committed_of_run {blockSize minBlockCount : Nat} {canGrow : Bool}
    {calls : List BuilderCall} {b₀ : MSFBuilder} {s : Session}
    (created : MSFBuilder.create blockSize minBlockCount canGrow = .ok b₀)
    (done : b₀.run calls = .ok s) {memory : Mem} {l : MSFLayout} {f f' : FileBuffer}
    (commits : s.builder.commit memory = .ok (l, f)) {writes : List StreamWrite}
    (kept : Kept calls s l writes) (written : writes.foldlM (writeStream l) f = .ok f') :
    l.sb.blockSize = blockSize ∧ l.Fit ∧
      l.LaidOut l.sb.blockSize (s.accepted.foldl sizesAfter []) ∧ Committed l f ∧
      Committed l f' := by
  have built := run_built created kept.proper done
  obtain ⟨generated, fit, directoryBytes, wrote⟩ := commit_spec built kept.hints kept.maps commits
  obtain ⟨laid, -⟩ := generateLayout_spec built kept.hints generated
  have width := laid.width
  rw [← width] at laid
  obtain ⟨committed, -⟩ := writeLayout_spec fit laid rfl kept.near directoryBytes wrote
  obtain ⟨within, -⟩ := writeStreams_spec fit laid committed.size kept.bounded written
  exact ⟨width, fit, laid, committed, committed.kept fit laid within⟩

open MSFBuilder in
/-- A committed file is accepted by the reader. It finds as many streams as were added, each with its
size and its blocks, and reads of a stream answer as the array does that the file held there before
all writes to this stream were made, whatever was written to the others. The block map must not lie
beyond 4 GiB, because its offset is cut to 32 bits, and a stream of 2^32 - 1 bytes is read as one
without blocks. -/
theorem reload_streams (order : CacheMap → CacheMap) (lists : ∀ c, ∀ item ∈ order c, item ∈ c)
    {blockSize minBlockCount : Nat} {canGrow : Bool} {calls : List BuilderCall} {b₀ : MSFBuilder}
    {s : Session} (created : MSFBuilder.create blockSize minBlockCount canGrow = .ok b₀)
    (done : b₀.run calls = .ok s)
    (known : ∀ size ∈ s.accepted.foldl sizesAfter [], size ≠ uint32Max)
    {memory : Mem} {l : MSFLayout} {f f' : FileBuffer}
    (commits : s.builder.commit memory = .ok (l, f)) {writes : List StreamWrite}
    (kept : Kept calls s l writes) (written : writes.foldlM (writeStream l) f = .ok f') :
    ∃ pdb, PDBFile.parse order f' = .ok pdb ∧
      pdb.containerLayout.streamSizes = s.accepted.foldl sizesAfter [] ∧
      pdb.containerLayout.streamMap = l.streamMap ∧
      ∀ i < (s.accepted.foldl sizesAfter []).length, i < 65535 →
        ∃ stream, pdb.createIndexedStream i = some stream ∧
          ∀ reads : List StreamCall, (∀ c ∈ reads, c.Bounded) →
            stream.transcript order reads = Plain.transcript
              (contentAfter i ((l.indexedStream i).content blockSize f) writes) reads := by
  obtain ⟨width, fit, laid, committed, committed'⟩ :=
    committed_of_run created done commits kept written
  obtain ⟨wide, -, -⟩ := blockSize_bounds fit.valid
  obtain ⟨-, same⟩ := writeStreams_spec fit laid committed.size kept.bounded written
  refine ⟨_, parse_ok lists fit laid known committed', laid.sizes, rfl, fun i below small => ?_⟩
  -- the index is cut to 16 bits, and 65535 stands for no stream
  have number : i % 65536 = i := Nat.mod_eq_of_lt (by omega)
  have inside : i < l.streamMap.length := by
    rw [← List.Forall₂.length_eq laid.rooms, laid.sizes]
    exact below
  refine ⟨_, by rw [PDBFile.createIndexedStream, number, if_neg (by omega)],
    fun reads bounded => ?_⟩
  have mapped := laid.indexed_mapped (by omega) inside
  have coherent := mapped_coherent committed'.size mapped
  have answers := MappedBlockStream.transcript_coherent lists coherent bounded
  rw [← width, ← same i inside]
  exact answers

open MSFBuilder in
set_option maxRecDepth 20000 in
/-- A call in the middle is refused. The second stream is in two blocks, the later one in front; the
write lies across them. -/
theorem shrunkStream_reloads : ∃ s l f f' pdb stream,
    (do
      let b ← MSFBuilder.create 512 0 true
      b.run [.addStream 1000, .addStreamAt 600 [8, 0], .addStreamAt 600 [8, 6],
        .setStreamSize 0 100]) = .ok s ∧
    s.refused = [.addStreamAt 600 [8, 0]] ∧ s.builder.commit (fun _ => 7) = .ok (l, f) ∧
    [StreamWrite.mk 1 511 [70, 71], ⟨0, 0, [72]⟩].foldlM (writeStream l) f = .ok f' ∧
    PDBFile.parse id f' = .ok pdb ∧ pdb.createIndexedStream 1 = some stream ∧
    stream.transcript id [.read 510 4] = [.ok [7, 70, 71, 7]] := by
  obtain ⟨pdb, parsed, -, -, streams⟩ := @reload_streams id (fun _ _ listed => listed) 512 0 true
    [.addStream 1000, .addStreamAt 600 [8, 0], .addStreamAt 600 [8, 6], .setStreamSize 0 100] _ _
    rfl rfl (by decide) (fun _ => 7) _ _ _ rfl [⟨1, 511, [70, 71]⟩, ⟨0, 0, [72]⟩]
    ⟨by simp [BuilderCall.Proper], fun dirBlocks member => by simp at member,
      fun fpm member => by simp at member, by decide, by decide⟩ rfl
  obtain ⟨stream, opened, answers⟩ := streams 1 (by decide) (by decide)
  exact ⟨_, _, _, _, pdb, stream, rfl, rfl, rfl, rfl, parsed, opened,
    (answers [.read 510 4] (by simp [StreamCall.Bounded])).trans rfl⟩

/-! ### The free page map -/

def hasBit (byte : UInt8) (i : Nat) : Bool := byte &&& ((1 : UInt8) <<< UInt8.ofNat i) != 0

private theorem hasBit_or (x y : UInt8) (i : Nat) : hasBit (x ||| y) i =
    (hasBit x i || hasBit y i) := by
  have apart : ∀ m : UInt8, (x ||| y) &&& m = (x &&& m) ||| (y &&& m) := by
    intro m
    apply UInt8.toBitVec_inj.mp
    ext k
    simp [Bool.and_or_distrib_right]
  rw [Bool.eq_iff_iff]
  simp only [hasBit, apart, bne_iff_ne, ne_eq, UInt8.or_eq_zero_iff, Bool.or_eq_true]
  exact Decidable.not_and_iff_not_or_not

private theorem hasBit_one {i j : Nat} (below : i < 8) (inside : j < 8) :
    hasBit ((1 : UInt8) <<< UInt8.ofNat j) i = decide (i = j) := by
  have all : ∀ i j : Fin 8, hasBit ((1 : UInt8) <<< UInt8.ofNat j) i = decide (i.val = j.val) := by
    decide
  exact all ⟨i, below⟩ ⟨j, inside⟩

/-- Bits that are put in one after the other. -/
theorem hasBit_fold (free : Nat → Bool) {n i : Nat} (few : n ≤ 8) (below : i < 8) :
    hasBit ((List.range n).foldl
      (fun byte j => byte ||| (if free j then (1 : UInt8) <<< UInt8.ofNat j else 0)) 0) i =
      (decide (i < n) && free i) := by
  induction n with
  | zero => simp [hasBit]
  | succ n ih =>
    have one := hasBit_one (j := n) below (by omega)
    rw [List.range_succ, List.foldl_append, List.foldl_cons, List.foldl_nil, hasBit_or,
      ih (by omega)]
    -- bit `n` is set by the last step, and no other bit is touched by it
    by_cases last : i = n
    · subst last
      cases free i with
      | true => simpa using one
      | false => simp [hasBit]
    · rw [decide_eq_false last] at one
      have less : (i < n + 1) = (i < n) := by
        apply propext
        omega
      cases free n with
      | true => simp [one, less]
      | false => simp [hasBit, less]

private theorem fpmByte_bit (freePageMap : List Bool) {numBlocks bi i : Nat} (below : i < 8)
    (inFile : bi + i < numBlocks) :
    hasBit (fpmByte freePageMap numBlocks bi) i = freePageMap.getD (bi + i) false := by
  have folded := hasBit_fold (fun i => if bi + i < numBlocks then freePageMap.getD (bi + i) false
    else true) (Nat.le_refl 8) below
  rw [decide_eq_true below, Bool.true_and, if_pos inFile] at folded
  exact folded

private theorem fpmBits_nothing (bytes : Bytes) : fpmBits 0 bytes = [] := by
  induction bytes with
  | nil => rfl
  | cons byte rest ih =>
    rw [fpmBits]
    simpa using ih

/-- The bits of the bytes from the `j`-th on. -/
theorem fpmBits_map (freePageMap : List Bool) {numBlocks : Nat} (count j blocksRemaining : Nat)
    (whole : 8 * j + blocksRemaining = numBlocks) (enough : blocksRemaining ≤ 8 * count) :
    fpmBits blocksRemaining ((List.range count).map
      (fun k => fpmByte freePageMap numBlocks (8 * (j + k)))) =
      (List.range blocksRemaining).map (fun i => freePageMap.getD (8 * j + i) false) := by
  induction count generalizing j blocksRemaining with
  | zero =>
    obtain rfl : blocksRemaining = 0 := by omega
    rfl
  | succ count ih =>
    -- One byte gives eight bits, or what remains.
    have first : ∀ n ≤ min blocksRemaining 8, (List.range n).map
        (fun i => fpmByte freePageMap numBlocks (8 * (j + 0)) &&& ((1 : UInt8) <<< UInt8.ofNat i) != 0) =
        (List.range n).map (fun i => freePageMap.getD (8 * j + i) false) := by
      intro n part
      refine List.map_congr_left (fun i member => ?_)
      have below := List.mem_range.mp member
      exact fpmByte_bit freePageMap (by omega) (by omega)
    rw [List.range_succ_eq_map, List.map_cons, List.map_map, fpmBits,
      first _ (Nat.le_refl _)]
    by_cases last : blocksRemaining ≤ 8
    · rw [Nat.min_eq_left last, Nat.sub_self, fpmBits_nothing, List.append_nil]
    · have shifted : (fun k => fpmByte freePageMap numBlocks (8 * (j + k))) ∘ Nat.succ =
          fun k => fpmByte freePageMap numBlocks (8 * (j + 1 + k)) := by
        funext k
        rw [Nat.add_assoc, Nat.add_comm 1 k]
        rfl
      have later := ih (j + 1) (blocksRemaining - 8) (by omega) (by omega)
      have parts : blocksRemaining = 8 + (blocksRemaining - 8) := by omega
      rw [Nat.min_eq_right (by omega), shifted, later]
      conv => rhs; rw [parts]
      rw [List.range_add, List.map_append, List.map_map]
      congr 2
      funext i
      rw [Nat.mul_succ, Nat.add_assoc]
      rfl

/-- What is loaded is what was written. -/
theorem loadedMap_fpmBytes {l : MSFLayout} (length : l.freePageMap.length = l.sb.numBlocks) :
    loadedMap l.sb.numBlocks l.fpmBytes = l.freePageMap := by
  have enough := le_mul_divideCeil l.sb.numBlocks (show 0 < 8 by decide)
  have bits := fpmBits_map l.freePageMap (divideCeil l.sb.numBlocks 8) 0 l.sb.numBlocks
    (Nat.zero_add _) enough
  simp only [Nat.zero_add, Nat.mul_zero] at bits
  have whole : (List.range l.sb.numBlocks).map (fun i => l.freePageMap.getD i false) =
      l.freePageMap := by
    rw [← length]
    apply List.ext_getElem
    · rw [List.length_map, List.length_range]
    · intro i _ inside
      rw [List.getElem_map, List.getElem_range]
      exact List.getD_eq_getElem _ _ inside
  rw [loadedMap, MSFLayout.fpmBytes, bits, whole, length, Nat.sub_self, List.replicate_zero,
    List.append_nil]

private theorem MSFBuilder.generateLayout_length {b : MSFBuilder} {l : MSFLayout}
    (generated : b.generateLayout = .ok l) : l.freePageMap.length = l.sb.numBlocks := by
  obtain ⟨b', -, ended⟩ := Outcome.bind_ok_iff.mp generated
  cases ended
  rfl

open MSFBuilder in
private theorem MSFBuilder.generateLayout_blockMapAddr {b : MSFBuilder} (owns : b.Owns)
    {l : MSFLayout} (generated : b.generateLayout = .ok l) :
    l.sb.blockMapAddr = b.blockMapAddr := by
  obtain ⟨b', placed, ended⟩ := Outcome.bind_ok_iff.mp generated
  cases ended
  obtain ⟨same, -⟩ := placeDirectory_spec owns b.directoryBlocks_lt placed
  change b'.blockMapAddr = b.blockMapAddr
  rw [same]

/-- The map that stands in the file stays, when no stream lies on its blocks. -/
theorem fpm_kept {sizes : List Nat} {l : MSFLayout} (fit : l.Fit)
    (laid : l.LaidOut l.sb.blockSize sizes) {f f' : FileBuffer}
    (size : f.size = l.sb.blockSize * l.sb.numBlocks)
    (reserved : ∀ x ∈ l.streamMap.flatten, ¬ FpmBlock l.sb.blockSize x)
    (within : Within (Paging.cells l.sb.blockSize l.streamMap.flatten) f f') :
    (getFpmStreamLayout l false false).content l.sb.blockSize f' =
      (getFpmStreamLayout l false false).content l.sb.blockSize f := by
  have wide := (blockSize_bounds fit.valid).1
  have mapped := fpm_mapped_of_fit fit laid false false
  rw [← size] at mapped
  apply within.content mapped
  intro x inFpm inStream
  exact reserved x inStream (fpm_blocks (by omega) fit.fpm false false x inFpm)

open MSFBuilder in
/-- The reader gets back the layout itself, the free page map with it, from a file that started with
one interval at most and never ended right in front of a pair of free page map blocks. -/
theorem reload_layout (order : CacheMap → CacheMap) (lists : ∀ c, ∀ item ∈ order c, item ∈ c)
    {blockSize minBlockCount : Nat} {canGrow : Bool} {calls : List BuilderCall} {b₀ : MSFBuilder}
    {s : Session} (created : MSFBuilder.create blockSize minBlockCount canGrow = .ok b₀)
    (fits : minBlockCount ≤ blockSize) (plain : ∀ c ∈ calls, c.Plain)
    (proper : ∀ c ∈ calls, c.Proper) (gap : b₀.NoGap calls) (done : b₀.run calls = .ok s)
    (known : ∀ size ∈ s.accepted.foldl sizesAfter [], size ≠ uint32Max)
    {memory : Mem} {l : MSFLayout} {f f' : FileBuffer}
    (commits : s.builder.commit memory = .ok (l, f)) {writes : List StreamWrite}
    (bounded : ∀ w ∈ writes, w.Bounded) (written : writes.foldlM (writeStream l) f = .ok f') :
    PDBFile.parse order f' = .ok ⟨f', l⟩ := by
  have built := run_built created proper done
  have hints := run_hintsTaken plain done
  have maps : ∀ fpm, .setFreePageMap fpm ∈ s.accepted → fpm = 1 ∨ fpm = 2 :=
    fun _ set => ((run_calls plain done).1 _ set).elim
  obtain ⟨generated, fit, directoryBytes, wrote⟩ := commit_spec built hints maps commits
  -- The block map stays where a new file puts it, so its offset fits in 32 bits.
  have near : l.sb.blockMapAddr * l.sb.blockSize < 2 ^ 32 := by
    have place := (generateLayout_blockMapAddr (built.owns hints) generated).trans
      (run_blockMapAddr created plain done)
    have bounds := blockSize_bounds fit.valid
    rw [place, kDefaultBlockMapAddr, kNumReservedPages]
    omega
  obtain ⟨-, -, laid, committed, committed'⟩ :=
    committed_of_run created done commits ⟨proper, hints, maps, near, bounded⟩ written
  -- No block in use is one of a free page map: this is what the gaps in growth are about.
  have reserves := (run_reserves (create_reserves created fits) plain proper gap done).layout
    (gap calls s List.prefix_rfl done) generated
  obtain ⟨within, -⟩ := writeStreams_spec fit laid committed.size bounded written
  -- So neither the directory nor a stream overwrites the map that was committed.
  have directory : ∀ x ∈ l.sb.blockMapAddr :: l.directoryBlocks, ¬ FpmBlock l.sb.blockSize x := by
    intro x member fpm
    have inside := laid.inside x (List.mem_append_right _ (by
      rw [← List.cons_append]
      exact List.mem_append_left _ member))
    obtain ⟨-, notMap, notDirectory, -⟩ := reserves x inside fpm
    exact (List.mem_cons.mp member).elim notMap notDirectory
  have streams : ∀ x ∈ l.streamMap.flatten, ¬ FpmBlock l.sb.blockSize x := by
    intro x member fpm
    have inside := laid.inside x (List.mem_append_right _ (List.mem_cons_of_mem _
      (List.mem_append_right _ member)))
    obtain ⟨-, -, -, notStreams⟩ := reserves x inside fpm
    obtain ⟨blocks, listed, inBlocks⟩ := List.mem_flatten.mp member
    exact notStreams blocks listed inBlocks
  have map := (writeLayout_spec fit laid rfl near directoryBytes wrote).2 directory
  have length := generateLayout_length generated
  rw [parse_ok lists fit laid known committed', fpm_kept fit laid committed.size streams within, map,
    loadedMap_fpmBytes length]

open MSFBuilder in
set_option maxRecDepth 20000 in
/-- Seven blocks, none of them free, and a byte in the second block of the stream. -/
theorem oneStream_reloads : ∃ l f f',
    (do
      let b ← MSFBuilder.create 512 0 true
      let s ← b.run [.addStream 1000]
      s.builder.commit (fun _ => 7)) = .ok (l, f) ∧
    [StreamWrite.mk 0 700 [70]].foldlM (writeStream l) f = .ok f' ∧
    l.freePageMap = [false, false, false, false, false, false, false] ∧
    PDBFile.parse id f' = .ok ⟨f', l⟩ :=
  ⟨_, _, _, rfl, rfl, rfl, @reload_layout id (fun _ _ listed => listed) 512 0 true
    [.addStream 1000] _ _ rfl (by decide) (by simp [BuilderCall.Plain])
    (by simp [BuilderCall.Proper])
    (noGap_one (by decide) (fun s ends => by obtain rfl := Except.ok.inj ends; decide))
    rfl (by decide) (fun _ => 7) _ _ _ rfl [⟨0, 700, [70]⟩] (by decide) rfl⟩

end LlvmLd.Msf
