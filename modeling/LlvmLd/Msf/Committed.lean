import LlvmLd.Msf.File
import LlvmLd.Msf.FreePageMap

/-!
# What a committed file holds

The header, the free page maps, the block map and the directory, each on blocks of its own, and the
streams after any writes to them.

Proof strategy: a write keeps to the blocks of its stream (`Within`), so each part is followed through
the writes of the others.
-/

namespace LlvmLd.Msf

open Memory

/-! ### Writes that keep to their blocks -/

/-- Nothing changes outside of `S`, and the file keeps its size. -/
structure Within (S : Set Int) (f f' : FileBuffer) : Prop where
  size : f'.size = f.size
  frame : ∀ a, a ∉ S → f'.mem a = f.mem a

theorem Within.refl (S : Set Int) (f : FileBuffer) : Within S f f := ⟨rfl, fun _ _ => rfl⟩

theorem Within.trans {S : Set Int} {f g h : FileBuffer} (first : Within S f g)
    (second : Within S g h) : Within S f h :=
  ⟨second.size.trans first.size,
    fun a outside => (second.frame a outside).trans (first.frame a outside)⟩

theorem Within.mono {S T : Set Int} {f g : FileBuffer} (within : Within S f g) (subset : S ⊆ T) :
    Within T f g :=
  ⟨within.size, fun a outside => within.frame a (fun inside => outside (subset inside))⟩

/-- What is read apart from the writes is read as before. -/
theorem Within.readBytes {S : Set Int} {f g : FileBuffer} (within : Within S f g) {a : Int}
    {len : Nat} (apart : ∀ i < len, a + (i : Int) ∉ S) :
    Memory.readBytes g.mem a len = Memory.readBytes f.mem a len := by
  refine List.map_congr_left (fun i member => ?_)
  exact within.frame _ (apart i (List.mem_range.mp member))

theorem Within.content {blockSize : Nat} {others : List Nat} {f g : FileBuffer}
    (within : Within (Paging.cells blockSize others) f g) {l : MSFStreamLayout}
    (mapped : l.Mapped blockSize f.size) (disjoint : l.blocks.Disjoint others) :
    l.content blockSize g = l.content blockSize f := by
  apply Paging.content_agree l.blocks l.length _ mapped.enough
  intro a inside
  exact within.frame a (Set.disjoint_left.mp (Paging.cells_disjoint disjoint) inside)

private theorem MSFStreamLayout.Mapped.of_within {S : Set Int} {blockSize : Nat} {f g : FileBuffer}
    {l : MSFStreamLayout} (mapped : l.Mapped blockSize f.size) (within : Within S f g) :
    l.Mapped blockSize g.size := by
  rw [within.size]
  exact mapped

/-- A write to a stream: within its blocks, and over a part of its contents. -/
theorem write_spec {l : MSFStreamLayout} {blockSize : Nat} {f f' : FileBuffer}
    (mapped : l.Mapped blockSize f.size) {offset : Nat} {data : Bytes}
    (bounded : offset + data.length < 2 ^ 64) (done : l.write blockSize f offset data = .ok f') :
    Within (Paging.cells blockSize l.blocks) f f' ∧ offset + data.length ≤ l.length ∧
      l.content blockSize f' = Paging.splice (l.content blockSize f) offset data := by
  have spec := MSFStreamLayout.write_eq mapped bounded
  rw [done] at spec
  obtain ⟨size, frame, same⟩ := spec
  rw [Plain.write] at same
  obtain ⟨u, checked, ended⟩ := Outcome.bind_ok_iff.mp same
  have fits := of_check checked
  rw [MSFStreamLayout.content, Paging.length_content] at fits
  exact ⟨⟨size, frame⟩, fits, (Except.ok.inj ended).symm⟩

private theorem take_splice {bytes data : Bytes} {offset : Nat}
    (fits : offset + data.length ≤ bytes.length) :
    (Paging.splice bytes offset data).take (offset + data.length) = bytes.take offset ++ data := by
  have front : (bytes.take offset ++ data).length = offset + data.length := by
    rw [List.length_append, List.length_take]
    omega
  rw [Paging.splice, ← front, List.take_left]

theorem writeBytes_spec {f f' : FileBuffer} {offset : Nat} {data : Bytes}
    (done : f.writeBytes offset data = .ok f') :
    Within (Set.Ico (offset : Int) (offset + data.length)) f f' ∧
      Memory.readBytes f'.mem offset data.length = data := by
  rw [FileBuffer.writeBytes] at done
  split at done
  · rename_i empty
    cases done
    rw [empty]
    exact ⟨Within.refl _ _, rfl⟩
  · obtain ⟨u, -, ended⟩ := Outcome.bind_ok_iff.mp done
    cases ended
    refine ⟨⟨rfl, fun a outside => ?_⟩, readBytes_writeBytes _ _ _⟩
    exact (local_writeBytes _ _).frame _ _ outside

/-! ### Words -/

theorem length_flatMap_le32 (ws : List Nat) : (ws.flatMap le32).length = 4 * ws.length := by
  rw [List.length_flatMap]
  simp
  omega

theorem words_flatMap {ws : List Nat} (small : ∀ w ∈ ws, w < 2 ^ 32) :
    words ws.length (ws.flatMap le32) = ws := by
  apply List.ext_getElem
  · rw [words, List.length_map, List.length_range]
  · intro i below inside
    have bound := small ws[i] (List.getElem_mem inside)
    simp only [words, List.getElem_map, List.getElem_range]
    rw [u32At_flatMap ws i inside, uint32, Nat.mod_eq_of_lt bound]

/-- One array behind what has been written. -/
theorem writeWords_spec {l : MSFStreamLayout} {blockSize : Nat} {w w' : FileBuffer × Nat}
    (mapped : l.Mapped blockSize w.1.size) (short : l.length < 2 ^ 32) (reach : w.2 ≤ l.length)
    {array : List Nat} (done : writeWords l blockSize w array = .ok w') :
    Within (Paging.cells blockSize l.blocks) w.1 w'.1 ∧ w'.2 = w.2 + 4 * array.length ∧
      w'.2 ≤ l.length ∧ (l.content blockSize w'.1).take w'.2 =
        (l.content blockSize w.1).take w.2 ++ array.flatMap le32 := by
  rw [writeWords] at done
  split at done
  -- an empty array writes nothing and is not checked
  · rename_i empty
    cases done
    rw [empty]
    exact ⟨Within.refl _ _, rfl, reach, (List.append_nil _).symm⟩
  · split at done
    · cases done
    · rename_i few
      obtain ⟨f, written, ended⟩ := Outcome.bind_ok_iff.mp done
      cases ended
      obtain ⟨within, fits, same⟩ := write_spec mapped
        (by rw [uint32Max] at few; rw [length_flatMap_le32]; omega) written
      rw [length_flatMap_le32] at fits
      refine ⟨within, rfl, fits, ?_⟩
      have room : w.2 + (array.flatMap le32).length ≤ (l.content blockSize w.1).length := by
        rw [length_flatMap_le32, MSFStreamLayout.content, Paging.length_content]
        exact fits
      -- what is written lies right behind what stands there, so the front grows by it
      have taken := take_splice room
      rw [length_flatMap_le32] at taken
      rw [same]
      exact taken

private theorem writeArrays_spec {l : MSFStreamLayout} {blockSize : Nat} {arrays : List (List Nat)}
    {w w' : FileBuffer × Nat} (mapped : l.Mapped blockSize w.1.size) (short : l.length < 2 ^ 32)
    (reach : w.2 ≤ l.length) (done : arrays.foldlM (writeWords l blockSize) w = .ok w') :
    Within (Paging.cells blockSize l.blocks) w.1 w'.1 ∧ w'.2 = w.2 + 4 * arrays.flatten.length ∧
      w'.2 ≤ l.length ∧ (l.content blockSize w'.1).take w'.2 =
        (l.content blockSize w.1).take w.2 ++ arrays.flatten.flatMap le32 := by
  induction arrays generalizing w with
  | nil =>
    cases done
    exact ⟨Within.refl _ _, rfl, reach, (List.append_nil _).symm⟩
  | cons array rest ih =>
    rw [List.foldlM_cons] at done
    obtain ⟨w₁, first, later⟩ := Outcome.bind_ok_iff.mp done
    obtain ⟨within, offset, reach', front⟩ := writeWords_spec mapped short reach first
    obtain ⟨within', offset', reach'', front'⟩ := ih (mapped.of_within within) reach' later
    refine ⟨within.trans within', ?_, reach'', ?_⟩
    · rw [offset', offset, List.flatten_cons, List.length_append]
      omega
    · rw [front', front, List.flatten_cons, List.flatMap_append, List.append_assoc]

/-! ### The free page maps -/

/-- The bytes of all blocks of the form of a free page map's. -/
def fpmCells (blockSize : Nat) : Set Int :=
  {a | ∃ x, FpmBlock blockSize x ∧ ((x * blockSize : Nat) : Int) ≤ a ∧
    a < ((x * blockSize + blockSize : Nat) : Int)}

private theorem fpm_number {msf : MSFLayout}
    (fpm : msf.sb.freeBlockMapBlock = 1 ∨ msf.sb.freeBlockMapBlock = 2) (alt : Bool) :
    (if alt then msf.alternateFpmBlock else msf.mainFpmBlock) = 1 ∨
      (if alt then msf.alternateFpmBlock else msf.mainFpmBlock) = 2 := by
  rw [MSFLayout.alternateFpmBlock, MSFLayout.mainFpmBlock]
  split <;> omega

/-- Block numbers in the form of a free page map's. -/
theorem fpm_blocks {msf : MSFLayout} (wide : 3 ≤ msf.sb.blockSize)
    (fpm : msf.sb.freeBlockMapBlock = 1 ∨ msf.sb.freeBlockMapBlock = 2) (unused alt : Bool) :
    ∀ x ∈ (getFpmStreamLayout msf unused alt).blocks, FpmBlock msf.sb.blockSize x := by
  intro x member
  obtain ⟨i, -, rfl⟩ := List.mem_map.mp member
  rw [FpmBlock, Nat.add_mul_mod_self_right]
  exact (fpm_number fpm alt).imp (fun one => by rw [one, Nat.mod_eq_of_lt (by omega)])
    (fun two => by rw [two, Nat.mod_eq_of_lt (by omega)])

private theorem cells_fpm {msf : MSFLayout} (wide : 3 ≤ msf.sb.blockSize)
    (fpm : msf.sb.freeBlockMapBlock = 1 ∨ msf.sb.freeBlockMapBlock = 2) (unused alt : Bool) :
    Paging.cells msf.sb.blockSize (getFpmStreamLayout msf unused alt).blocks ⊆
      fpmCells msf.sb.blockSize :=
  fun _ ⟨x, member, bounds⟩ => ⟨x, fpm_blocks wide fpm unused alt x member, bounds⟩

/-- The streams of the free page maps lie in the file. -/
theorem fpm_mapped {msf : MSFLayout} (wide : 3 ≤ msf.sb.blockSize) (four : 4 ≤ msf.sb.numBlocks)
    (small : msf.sb.numBlocks + msf.sb.blockSize < 2 ^ 32)
    (fpm : msf.sb.freeBlockMapBlock = 1 ∨ msf.sb.freeBlockMapBlock = 2) (unused alt : Bool) :
    (getFpmStreamLayout msf unused alt).Mapped msf.sb.blockSize
      (msf.sb.blockSize * msf.sb.numBlocks) := by
  have positive : 0 < msf.sb.blockSize := by omega
  have first := fpm_number fpm alt
  unfold getFpmStreamLayout
  dsimp only
  generalize (if alt then msf.alternateFpmBlock else msf.mainFpmBlock) = fpmBlock at first
  generalize msf.sb.blockSize = blockSize at *
  generalize msf.sb.numBlocks = numBlocks at *
  constructor
  · exact positive
  · apply List.nodup_range.map
    intro i j same
    have scaled : i * blockSize = j * blockSize := by
      dsimp only at same
      omega
    exact Nat.eq_of_mul_eq_mul_right positive scaled
  · intro b member
    obtain ⟨i, listed, rfl⟩ := List.mem_map.mp member
    have below := List.mem_range.mp listed
    -- Every interval that is counted has its block of the map in the file.
    have inFile : fpmBlock + i * blockSize < numBlocks := by
      rw [getNumFpmIntervals] at below
      split at below
      · have less := (lt_divideCeil_iff positive).mp below
        omega
      · have less := (lt_divideCeil_iff (by omega)).mp below
        rw [Nat.mul_left_comm] at less
        omega
    rw [← Nat.succ_mul, Nat.mul_comm blockSize]
    exact Nat.mul_le_mul_right _ inFile
  · rw [List.length_map, List.length_range, getNumFpmIntervals]
    cases unused with
    | true =>
      simp only [if_true]
      refine Nat.le_trans (Nat.mod_le _ _) ?_
      rw [Nat.mul_comm]
    | false =>
      simp only [Bool.false_eq_true, if_false]
      rw [divideCeil_le_iff (by decide)]
      have enough := le_mul_divideCeil numBlocks (show 0 < 8 * blockSize by omega)
      rw [Nat.mul_comm, ← Nat.mul_assoc]
      exact enough

private theorem fillFpm_within {l : MSFStreamLayout} {blockSize fuel offset : Nat}
    {f f' : FileBuffer} (mapped : l.Mapped blockSize f.size) (short : l.length + blockSize < 2 ^ 64)
    (done : fillFpm l blockSize fuel offset f = .ok f') :
    Within (Paging.cells blockSize l.blocks) f f' := by
  induction fuel generalizing offset f with
  | zero =>
    cases done
    exact Within.refl _ _
  | succ fuel ih =>
    rw [fillFpm] at done
    split at done
    · obtain ⟨f₁, written, later⟩ := Outcome.bind_ok_iff.mp done
      obtain ⟨within, -, -⟩ := write_spec mapped (by rw [List.length_replicate]; omega) written
      exact within.trans (ih (mapped.of_within within) later)
    · cases done
      exact Within.refl _ _

/-- Single bytes, one behind the other. -/
theorem writeEach_spec {l : MSFStreamLayout} {blockSize : Nat} (byte : Nat → UInt8) {n : Nat}
    {f f' : FileBuffer} (mapped : l.Mapped blockSize f.size) (few : n < 2 ^ 64)
    (done : (List.range n).foldlM (fun f k => l.write blockSize f k [byte k]) f = .ok f') :
    Within (Paging.cells blockSize l.blocks) f f' ∧
      (l.content blockSize f').take n = (List.range n).map byte := by
  induction n generalizing f' with
  | zero =>
    cases done
    exact ⟨Within.refl _ _, rfl⟩
  | succ n ih =>
    rw [List.range_succ, List.foldlM_append] at done
    obtain ⟨f₁, first, later⟩ := Outcome.bind_ok_iff.mp done
    obtain ⟨within, front⟩ := ih (by omega) first
    rw [List.foldlM_cons] at later
    obtain ⟨f₂, last, ended⟩ := Outcome.bind_ok_iff.mp later
    cases ended
    obtain ⟨within', fits, same⟩ := write_spec (mapped.of_within within) few last
    refine ⟨within.trans within', ?_⟩
    -- the last byte lies right behind the others
    have room : n + [byte n].length ≤ (l.content blockSize f₁).length := by
      rw [MSFStreamLayout.content, Paging.length_content]
      exact fits
    rw [same, List.range_succ, List.map_append, ← front]
    exact take_splice room

/-! ### The parts of a layout -/

/-- What `commit` has checked, and what the builder puts into the header. -/
structure MSFLayout.Fit (l : MSFLayout) : Prop where
  valid : isValidBlockSize l.sb.blockSize = true
  magicBytes : l.sb.magicBytes = magic
  fpm : l.sb.freeBlockMapBlock = 1 ∨ l.sb.freeBlockMapBlock = 2
  numBlocks : l.sb.numBlocks + l.sb.blockSize < 2 ^ 32
  numDirectoryBytes : l.sb.numDirectoryBytes < 2 ^ 32
  unknown1 : l.sb.unknown1 < 2 ^ 32
  blockMap : bytesToBlocks l.sb.numDirectoryBytes l.sb.blockSize * 4 ≤ l.sb.blockSize
  sizes : ∀ s ∈ l.streamSizes, s < 2 ^ 32

/-- The parts of a layout have no block in common. -/
structure MSFLayout.Apart (l : MSFLayout) : Prop where
  blockMap : 3 ≤ l.sb.blockMapAddr
  header_directory : 0 ∉ l.directoryBlocks
  header_streams : 0 ∉ l.streamMap.flatten
  map_directory : l.sb.blockMapAddr ∉ l.directoryBlocks
  map_streams : l.sb.blockMapAddr ∉ l.streamMap.flatten
  directory : l.directoryBlocks.Nodup
  streams : l.streamMap.flatten.Nodup
  directory_streams : l.directoryBlocks.Disjoint l.streamMap.flatten

namespace MSFLayout.LaidOut

variable {blockSize : Nat} {sizes : List Nat} {l : MSFLayout}

theorem apart (laid : l.LaidOut blockSize sizes) : l.Apart := by
  have distinct : (0 :: 1 :: 2 :: l.sb.blockMapAddr ::
    (l.directoryBlocks ++ l.streamMap.flatten)).Nodup := laid.distinct
  simp only [List.nodup_cons, List.mem_cons, List.mem_append, not_or] at distinct
  obtain ⟨⟨-, -, zero, zeroDir, zeroStreams⟩, ⟨-, one, -, -⟩, ⟨two, -, -⟩, ⟨mapDir, mapStreams⟩,
    both⟩ := distinct
  obtain ⟨directory, streams, disjoint⟩ := List.nodup_append'.mp both
  exact ⟨by omega, zeroDir, zeroStreams, mapDir, mapStreams, directory, streams, disjoint⟩

theorem inFile (laid : l.LaidOut blockSize sizes) {b : Nat} (member : b ∈ l.owned) :
    b * blockSize + blockSize ≤ blockSize * l.sb.numBlocks := by
  rw [← Nat.succ_mul, Nat.mul_comm blockSize]
  exact Nat.mul_le_mul_right _ (laid.inside b member)

theorem four (laid : l.LaidOut blockSize sizes) : 4 ≤ l.sb.numBlocks := by
  have inside := laid.inside l.sb.blockMapAddr (List.mem_append_right _ List.mem_cons_self)
  have above := laid.apart.blockMap
  omega

theorem directory_mapped (laid : l.LaidOut blockSize sizes) (positive : 0 < blockSize) :
    l.directoryStream.Mapped blockSize (blockSize * l.sb.numBlocks) := by
  refine ⟨positive, laid.apart.directory, fun b member => ?_, ?_⟩
  · exact laid.inFile (List.mem_append_right _ (List.mem_cons_of_mem _
      (List.mem_append_left _ member)))
  · change _ ≤ blockSize * l.directoryBlocks.length
    rw [laid.directory]
    exact le_mul_divideCeil _ positive

private theorem indexed_blocks {streamIndex : Nat} (below : streamIndex < l.streamMap.length) :
    (l.indexedStream streamIndex).blocks = l.streamMap[streamIndex] :=
  List.getD_eq_getElem _ _ below

private theorem indexed_none {streamIndex : Nat} (beyond : ¬ streamIndex < l.streamMap.length) :
    (l.indexedStream streamIndex).blocks = [] :=
  List.getD_eq_default _ _ (Nat.not_lt.mp beyond)

private theorem indexed_subset (l : MSFLayout) (streamIndex : Nat) :
    (l.indexedStream streamIndex).blocks ⊆ l.streamMap.flatten := by
  intro b member
  by_cases below : streamIndex < l.streamMap.length
  · rw [indexed_blocks below] at member
    exact List.mem_flatten.mpr ⟨_, List.getElem_mem below, member⟩
  · rw [indexed_none below] at member
    cases member

theorem indexed_mapped (laid : l.LaidOut blockSize sizes) (positive : 0 < blockSize)
    {streamIndex : Nat} (below : streamIndex < l.streamMap.length) :
    (l.indexedStream streamIndex).Mapped blockSize (blockSize * l.sb.numBlocks) := by
  have counts := List.Forall₂.length_eq laid.rooms
  have room := (List.forall₂_iff_get.mp laid.rooms).2 streamIndex (by omega) below
  rw [List.get_eq_getElem, List.get_eq_getElem] at room
  refine ⟨positive, ?_, fun b member => ?_, ?_⟩
  · rw [indexed_blocks below]
    exact (List.nodup_flatten.mp laid.apart.streams).1 _ (List.getElem_mem below)
  · exact laid.inFile (List.mem_append_right _ (List.mem_cons_of_mem _
      (List.mem_append_right _ (indexed_subset l _ member))))
  · rw [indexed_blocks below, room]
    have size : (l.indexedStream streamIndex).length = l.streamSizes[streamIndex] :=
      List.getD_eq_getElem _ _ (by omega)
    rw [size]
    exact le_mul_divideCeil _ positive

private theorem indexed_disjoint (laid : l.LaidOut blockSize sizes) {i j : Nat} (other : i ≠ j) :
    (l.indexedStream i).blocks.Disjoint (l.indexedStream j).blocks := by
  have pairs := (List.nodup_flatten.mp laid.apart.streams).2
  by_cases first : i < l.streamMap.length
  · by_cases second : j < l.streamMap.length
    · rw [indexed_blocks first, indexed_blocks second]
      rcases Nat.lt_or_gt_of_ne other with less | greater
      · exact List.pairwise_iff_getElem.mp pairs i j first second less
      · exact (List.pairwise_iff_getElem.mp pairs j i second first greater).symm
    · rw [indexed_none second]
      exact fun _ _ none => absurd none List.not_mem_nil
  · rw [indexed_none first]
    exact fun _ none _ => absurd none List.not_mem_nil

end MSFLayout.LaidOut

/-! ### What a committed file holds -/

/-- The header, the block map and the directory stand in the file. -/
structure Committed (l : MSFLayout) (f : FileBuffer) : Prop where
  size : f.size = l.sb.blockSize * l.sb.numBlocks
  header : Memory.readBytes f.mem 0 superBlockSize = l.sb.bytes
  blockMap : Memory.readBytes f.mem (l.sb.blockMapAddr * l.sb.blockSize : Nat)
    (4 * l.directoryBlocks.length) = l.directoryBlocks.flatMap le32
  directoryBytes : l.sb.numDirectoryBytes = 4 * l.directory.flatten.length
  directory : l.directoryStream.content l.sb.blockSize f = l.directory.flatten.flatMap le32

/-- The front of a block that is not written to. -/
theorem Within.block {blockSize : Nat} {others : List Nat} {f g : FileBuffer}
    (within : Within (Paging.cells blockSize others) f g) {b len : Nat} (other : b ∉ others)
    (short : len ≤ blockSize) :
    Memory.readBytes g.mem (b * blockSize : Nat) len =
      Memory.readBytes f.mem (b * blockSize : Nat) len := by
  apply within.readBytes
  rintro i below ⟨c, member, low, high⟩
  have same := @Paging.block_unique blockSize _ b c (by omega) (by omega) low high
  exact other (same ▸ member)

/-- The super block stands in front of what is written. -/
theorem Within.header {blockSize : Nat} {others : List Nat} {f g : FileBuffer}
    (within : Within (Paging.cells blockSize others) f g) (other : 0 ∉ others)
    (wide : superBlockSize ≤ blockSize) :
    Memory.readBytes g.mem 0 superBlockSize = Memory.readBytes f.mem 0 superBlockSize := by
  have kept := within.block other wide
  have zero : ((0 * blockSize : Nat) : Int) = 0 := by rw [Nat.zero_mul]; rfl
  rwa [zero] at kept

/-- The bytes of the free page map. -/
def MSFLayout.fpmBytes (l : MSFLayout) : Bytes :=
  (List.range (divideCeil l.sb.numBlocks 8)).map
    (fun k => fpmByte l.freePageMap l.sb.numBlocks (8 * k))

section Writing

variable {blockSize : Nat} {sizes : List Nat} {l : MSFLayout} (fit : l.Fit)
  (laid : l.LaidOut l.sb.blockSize sizes)
include fit laid

theorem fpm_mapped_of_fit (unused alt : Bool) :
    (getFpmStreamLayout l unused alt).Mapped l.sb.blockSize (l.sb.blockSize * l.sb.numBlocks) := by
  have wide := (blockSize_bounds fit.valid).1
  exact fpm_mapped (by omega) laid.four fit.numBlocks fit.fpm unused alt

private theorem commitFpm_spec {f f' : FileBuffer} (size : f.size = l.sb.blockSize * l.sb.numBlocks)
    (done : commitFpm l f = .ok f') :
    Within (fpmCells l.sb.blockSize) f f' ∧
      (getFpmStreamLayout l false false).content l.sb.blockSize f' = l.fpmBytes := by
  have wide := (blockSize_bounds fit.valid).1
  have mapped : ∀ unused alt, (getFpmStreamLayout l unused alt).Mapped l.sb.blockSize f.size := by
    rw [size]
    exact fpm_mapped_of_fit fit laid
  -- all four ways to lay the free page map out lie in the blocks of the two maps
  have subset := @cells_fpm l (by omega) fit.fpm
  obtain ⟨⟨f₁, fpmStream⟩, first, later⟩ := Outcome.bind_ok_iff.mp done
  obtain ⟨f₁', filled, ended⟩ := Outcome.bind_ok_iff.mp first
  cases ended
  obtain ⟨⟨f₂, alt⟩, second, written⟩ := Outcome.bind_ok_iff.mp later
  obtain ⟨f₂', filled', ended⟩ := Outcome.bind_ok_iff.mp second
  cases ended
  have short : ∀ alt, (getFpmStreamLayout l true alt).length + l.sb.blockSize < 2 ^ 64 := by
    intro alt
    have word : (getFpmStreamLayout l true alt).length < 2 ^ 32 :=
      Nat.mod_lt _ (Nat.two_pow_pos 32)
    have narrow := (blockSize_bounds fit.valid).2.1
    omega
  -- both fills come before the bytes, which are all that the chosen map shows in the end
  have within := (fillFpm_within (mapped true false) (short false) filled).mono (subset true false)
  have within' := (fillFpm_within ((mapped true true).of_within within) (short true) filled').mono
    (subset true true)
  have both := within.trans within'
  have fewBytes : divideCeil l.sb.numBlocks 8 < 2 ^ 64 := by
    have le := (@divideCeil_le_iff l.sb.numBlocks 8 l.sb.numBlocks (by decide)).mpr (by omega)
    have blocks := fit.numBlocks
    omega
  obtain ⟨within'', bytes⟩ := writeEach_spec
    (fun k => fpmByte l.freePageMap l.sb.numBlocks (8 * k))
    ((mapped false false).of_within both) fewBytes written
  refine ⟨both.trans (within''.mono (subset false false)), ?_⟩
  rw [MSFLayout.fpmBytes, ← bytes, List.take_of_length_le]
  rw [MSFStreamLayout.content, Paging.length_content]
  exact Nat.le_refl _

omit laid in
/-- No block of a free page map is the first one. -/
theorem header_kept {f g : FileBuffer} (within : Within (fpmCells l.sb.blockSize) f g) :
    Memory.readBytes g.mem 0 superBlockSize = Memory.readBytes f.mem 0 superBlockSize := by
  have wide := (blockSize_bounds fit.valid).1
  apply within.readBytes
  rintro i below ⟨x, fpm, low, high⟩
  rw [superBlockSize] at below
  have same := @Paging.block_unique l.sb.blockSize _ 0 x (by omega) (by omega) low high
  rw [← same, FpmBlock, Nat.zero_mod] at fpm
  omega

theorem writeLayout_spec {f f' : FileBuffer} (size : f.size = l.sb.blockSize * l.sb.numBlocks)
    (near : l.sb.blockMapAddr * l.sb.blockSize < 2 ^ 32)
    (directoryBytes : l.sb.numDirectoryBytes ≤ 4 * l.directory.flatten.length)
    (done : writeLayout l f = .ok f') :
    Committed l f' ∧
      ((∀ x ∈ l.sb.blockMapAddr :: l.directoryBlocks, ¬ FpmBlock l.sb.blockSize x) →
        (getFpmStreamLayout l false false).content l.sb.blockSize f' = l.fpmBytes) := by
  have wide := (blockSize_bounds fit.valid).1
  have apart := laid.apart
  obtain ⟨f₁, header, done⟩ := Outcome.bind_ok_iff.mp done
  obtain ⟨f₂, fpm, done⟩ := Outcome.bind_ok_iff.mp done
  obtain ⟨f₃, map, done⟩ := Outcome.bind_ok_iff.mp done
  obtain ⟨⟨f₄, offset⟩, directory, ended⟩ := Outcome.bind_ok_iff.mp done
  cases ended
  obtain ⟨within₁, headerBytes⟩ := writeBytes_spec header
  have size₁ := within₁.size.trans size
  obtain ⟨within₂, fpmBytes⟩ := commitFpm_spec fit laid size₁ fpm
  rw [blockToOffset, uint32, Nat.mod_eq_of_lt near] at map
  obtain ⟨within₃, mapBytes⟩ := writeBytes_spec map
  have count : l.directoryBlocks.length * 4 ≤ l.sb.blockSize := by
    rw [laid.directory]
    exact fit.blockMap
  -- the block map takes the front of one block
  have front : Within (Paging.cells l.sb.blockSize [l.sb.blockMapAddr]) f₂ f₃ := by
    apply within₃.mono
    rintro a ⟨low, high⟩
    rw [length_flatMap_le32] at high
    exact ⟨l.sb.blockMapAddr, List.mem_cons_self, low, by omega⟩
  have size₃ := within₃.size.trans (within₂.size.trans size₁)
  have mapped := laid.directory_mapped (by omega)
  rw [← size₃] at mapped
  obtain ⟨within₄, total, reach, bytes⟩ := writeArrays_spec mapped fit.numDirectoryBytes (Nat.zero_le _)
    directory
  rw [Nat.zero_add] at total
  dsimp only at total reach bytes within₄
  have whole : l.sb.numDirectoryBytes = 4 * l.directory.flatten.length := by
    have inside : offset ≤ l.sb.numDirectoryBytes := reach
    omega
  refine ⟨⟨within₄.size.trans size₃, ?_, ?_, whole, ?_⟩, fun reserved => ?_⟩
  · have length : l.sb.bytes.length = superBlockSize := by
      rw [SuperBlock.bytes, List.length_append, fit.magicBytes]
      rfl
    have room : superBlockSize ≤ l.sb.blockSize := by
      rw [superBlockSize]
      omega
    have other : 0 ∉ [l.sb.blockMapAddr] := by
      have above := apart.blockMap
      simp only [List.mem_singleton]
      omega
    rw [within₄.header apart.header_directory room, front.header other room,
      header_kept fit within₂, ← length]
    exact headerBytes
  · rw [within₄.block apart.map_directory (by omega)]
    rw [length_flatMap_le32] at mapBytes
    exact mapBytes
  · rw [total, ← whole] at bytes
    rw [List.take_zero, List.nil_append, List.take_of_length_le] at bytes
    · exact bytes
    · rw [MSFStreamLayout.content, Paging.length_content]
      exact Nat.le_refl _
  · have mapped₂ := fpm_mapped_of_fit fit laid false false
    rw [← size₁, ← within₂.size] at mapped₂
    have apartFrom : ∀ blocks, (∀ x ∈ blocks, ¬ FpmBlock l.sb.blockSize x) →
        (getFpmStreamLayout l false false).blocks.Disjoint blocks :=
      fun blocks none x inFpm inBlocks =>
        none x inBlocks (fpm_blocks (by omega) fit.fpm false false x inFpm)
    rw [within₄.content (mapped₂.of_within front)
      (apartFrom _ fun x member => reserved x (List.mem_cons_of_mem _ member)),
      front.content mapped₂ (apartFrom _ fun x member => by
        rw [List.mem_singleton.mp member]
        exact reserved _ List.mem_cons_self), fpmBytes]

end Writing

/-! ### Writes to the streams -/

/-- What a stream holds after writes to it and to others. -/
def contentAfter (streamIndex : Nat) (content : Bytes) (writes : List StreamWrite) : Bytes :=
  writes.foldl (fun content w =>
    if w.streamIndex = streamIndex then Paging.splice content w.offset w.data else content) content

section Streams

variable {sizes : List Nat} {l : MSFLayout} (fit : l.Fit) (laid : l.LaidOut l.sb.blockSize sizes)
include fit laid

private theorem writeStream_spec {f f' : FileBuffer} {w : StreamWrite}
    (size : f.size = l.sb.blockSize * l.sb.numBlocks) (bounded : w.Bounded)
    (done : writeStream l f w = .ok f') :
    Within (Paging.cells l.sb.blockSize (l.indexedStream w.streamIndex).blocks) f f' ∧
      ∀ i < l.streamMap.length, (l.indexedStream i).content l.sb.blockSize f' =
        contentAfter i ((l.indexedStream i).content l.sb.blockSize f) [w] := by
  have wide := (blockSize_bounds fit.valid).1
  rw [writeStream] at done
  -- the stream that is written, against one whose blocks are others
  split at done
  · rename_i below
    have mapped : ∀ i < l.streamMap.length,
        (l.indexedStream i).Mapped l.sb.blockSize f.size := by
      rw [size]
      exact fun i inside => laid.indexed_mapped (by omega) inside
    obtain ⟨within, -, same⟩ := write_spec (mapped _ below) bounded done
    refine ⟨within, fun i inside => ?_⟩
    rw [contentAfter, List.foldl_cons, List.foldl_nil]
    split
    · rename_i own
      rw [← own]
      exact same
    · rename_i other
      exact within.content (mapped i inside) (laid.indexed_disjoint (Ne.symm other))
  · cases done

theorem writeStreams_spec {writes : List StreamWrite} {f f' : FileBuffer}
    (size : f.size = l.sb.blockSize * l.sb.numBlocks) (bounded : ∀ w ∈ writes, w.Bounded)
    (done : writes.foldlM (writeStream l) f = .ok f') :
    Within (Paging.cells l.sb.blockSize l.streamMap.flatten) f f' ∧
      ∀ i < l.streamMap.length, (l.indexedStream i).content l.sb.blockSize f' =
        contentAfter i ((l.indexedStream i).content l.sb.blockSize f) writes := by
  induction writes generalizing f with
  | nil =>
    cases done
    exact ⟨Within.refl _ _, fun _ _ => rfl⟩
  | cons w rest ih =>
    rw [List.foldlM_cons] at done
    obtain ⟨f₁, first, later⟩ := Outcome.bind_ok_iff.mp done
    obtain ⟨within, same⟩ := writeStream_spec fit laid size (bounded w List.mem_cons_self) first
    obtain ⟨within', same'⟩ := ih (within.size.trans size)
      (fun v member => bounded v (List.mem_cons_of_mem w member)) later
    -- each write stays in the blocks of its stream
    have subset := MSFLayout.LaidOut.indexed_subset l w.streamIndex
    refine ⟨(within.mono (Paging.cells_mono subset)).trans within', fun i inside => ?_⟩
    rw [same' i inside, same i inside]
    rfl

/-- Writes to the streams leave the other parts alone. -/
theorem Committed.kept {f f' : FileBuffer} (committed : Committed l f)
    (within : Within (Paging.cells l.sb.blockSize l.streamMap.flatten) f f') : Committed l f' := by
  have wide := (blockSize_bounds fit.valid).1
  have apart := laid.apart
  have count : l.directoryBlocks.length * 4 ≤ l.sb.blockSize := by
    rw [laid.directory]
    exact fit.blockMap
  refine ⟨within.size.trans committed.size, ?_, ?_, committed.directoryBytes, ?_⟩
  · have kept := within.header apart.header_streams (by rw [superBlockSize]; omega)
    exact kept.trans committed.header
  · exact (within.block apart.map_streams (by omega)).trans committed.blockMap
  · have mapped := laid.directory_mapped (by omega)
    rw [← committed.size] at mapped
    exact (within.content mapped apart.directory_streams).trans committed.directory

end Streams

end LlvmLd.Msf
