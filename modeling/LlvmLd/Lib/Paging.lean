import LlvmLd.Lib.Memory

/-!
# Byte streams over blocks

A stream that is laid out over blocks of one width, in any order, behaves as a buffer of its own:
what is written block by block is a write into the buffer, and it leaves all other blocks alone.
-/

namespace LlvmLd.Paging

open Memory

variable {width : Nat}

/-- Where the byte `i` of the stream lies. -/
def addr (width : Nat) (blocks : List Nat) (i : Nat) : Nat :=
  blocks.getD (i / width) 0 * width + i % width

/-- The stream as a buffer of its own. -/
def linear (width : Nat) (blocks : List Nat) (m : Mem) : Mem := fun i => m (addr width blocks i.toNat)

/-- The bytes of the blocks. -/
def cells (width : Nat) (blocks : List Nat) : Set Int :=
  {a | ∃ b ∈ blocks, (b * width : Nat) ≤ a ∧ a < (b * width + width : Nat)}

/-- Write into the blocks, behind the first `skip` bytes. -/
def writeFrom (width : Nat) : List Nat → Nat → Bytes → Mem → Mem
  | [], _, _, m => m
  | b :: rest, skip, data, m =>
    writeFrom width rest 0 (data.drop (width - skip))
      (writeBytes m (b * width + skip : Nat) (data.take (width - skip)))

/-- Read from the blocks, behind the first `skip` bytes. -/
def readFrom (width : Nat) : List Nat → Nat → Nat → Mem → Bytes
  | [], _, _, _ => []
  | b :: rest, skip, len, m =>
    readBytes m (b * width + skip : Nat) (min len (width - skip)) ++
      readFrom width rest 0 (len - (width - skip)) m

def write (width : Nat) (blocks : List Nat) (offset : Nat) (data : Bytes) (m : Mem) : Mem :=
  writeFrom width (blocks.drop (offset / width)) (offset % width) data m

def read (width : Nat) (blocks : List Nat) (offset len : Nat) (m : Mem) : Bytes :=
  readFrom width (blocks.drop (offset / width)) (offset % width) len m

theorem readFrom_zero (blocks : List Nat) (skip : Nat) (m : Mem) :
    readFrom width blocks skip 0 m = [] := by
  induction blocks generalizing skip with
  | nil => rfl
  | cons b rest ih => rw [readFrom, Nat.zero_min, Nat.zero_sub, ih, List.append_nil, readBytes]; rfl

theorem writeFrom_nil (blocks : List Nat) (skip : Nat) (m : Mem) :
    writeFrom width blocks skip [] m = m := by
  induction blocks generalizing skip m with
  | nil => rfl
  | cons b rest ih =>
    have nothing : writeBytes m (b * width + skip : Nat) [] = m := by
      funext a
      rw [writeBytes, if_neg (by simp)]
    rw [writeFrom, List.drop_nil, List.take_nil, nothing, ih]

/-! ### Addresses -/

theorem addr_cons_of_lt (b : Nat) (rest : List Nat) {i : Nat} (first : i < width) :
    addr width (b :: rest) i = b * width + i := by
  rw [addr, Nat.div_eq_of_lt first, Nat.mod_eq_of_lt first]
  rfl

theorem addr_cons_add (b : Nat) (rest : List Nat) (i : Nat) (positive : 0 < width) :
    addr width (b :: rest) (width + i) = addr width rest i := by
  rw [addr, Nat.add_div_left i positive, Nat.add_mod_left]
  rfl

theorem addr_drop (blocks : List Nat) (k i : Nat) (positive : 0 < width) :
    addr width (blocks.drop k) i = addr width blocks (width * k + i) := by
  rw [addr, addr, Nat.mul_add_div positive, Nat.mul_add_mod, List.getD_eq_getElem?_getD,
    List.getD_eq_getElem?_getD, List.getElem?_drop]

theorem addr_mem_cells (blocks : List Nat) {i : Nat} (inside : i < width * blocks.length) :
    (addr width blocks i : Int) ∈ cells width blocks := by
  have positive : 0 < width := Nat.pos_of_mul_pos_right (Nat.zero_lt_of_lt inside)
  have below : i / width < blocks.length := Nat.div_lt_of_lt_mul inside
  have rest := Nat.mod_lt i positive
  refine ⟨blocks[i / width], List.getElem_mem below, ?_, ?_⟩
  · rw [addr, List.getD_eq_getElem _ _ below]
    exact Int.ofNat_le.mpr (Nat.le_add_right _ _)
  · rw [addr, List.getD_eq_getElem _ _ below]
    exact Int.ofNat_lt.mpr (Nat.add_lt_add_left rest _)

theorem cells_mono {blocks others : List Nat} (subset : blocks ⊆ others) :
    cells width blocks ⊆ cells width others :=
  fun _ ⟨b, member, bounds⟩ => ⟨b, subset member, bounds⟩

/-- A cell lies in one block only. -/
theorem block_unique {a : Int} {b c : Nat} (low : ((b * width : Nat) : Int) ≤ a)
    (high : a < ((b * width + width : Nat) : Int)) (low' : ((c * width : Nat) : Int) ≤ a)
    (high' : a < ((c * width + width : Nat) : Int)) : b = c := by
  rcases Nat.lt_trichotomy b c with less | same | greater
  · have next : (b + 1) * width ≤ c * width := Nat.mul_le_mul_right width less
    rw [Nat.succ_mul] at next
    omega
  · exact same
  · have next : (c + 1) * width ≤ b * width := Nat.mul_le_mul_right width greater
    rw [Nat.succ_mul] at next
    omega

theorem cells_disjoint {blocks others : List Nat} (disjoint : blocks.Disjoint others) :
    Disjoint (cells width blocks) (cells width others) := by
  rw [Set.disjoint_left]
  rintro a ⟨b, member, low, high⟩ ⟨c, member', low', high'⟩
  exact disjoint member (block_unique low high low' high' ▸ member')

/-! ### Writing -/

theorem writeFrom_frame (blocks : List Nat) (skip : Nat) (data : Bytes) (m : Mem)
    (short : skip ≤ width) {a : Int} (outside : a ∉ cells width blocks) :
    writeFrom width blocks skip data m a = m a := by
  induction blocks generalizing skip data m with
  | nil => rfl
  | cons b rest ih =>
    have elsewhere : a ∉ cells width rest :=
      fun inside => outside (cells_mono (List.subset_cons_self b rest) inside)
    rw [writeFrom, ih 0 _ _ (Nat.zero_le _) elsewhere, writeBytes, if_neg]
    rintro ⟨low, high⟩
    have taken := List.length_take_le (width - skip) data
    apply outside
    exact ⟨b, List.mem_cons_self, by omega, by omega⟩

theorem write_frame (blocks : List Nat) (offset : Nat) (data : Bytes) (m : Mem)
    (positive : 0 < width) {a : Int} (outside : a ∉ cells width blocks) :
    write width blocks offset data m a = m a :=
  writeFrom_frame _ _ _ _ (Nat.le_of_lt (Nat.mod_lt _ positive))
    (fun inside => outside (cells_mono (List.drop_subset _ _) inside))

theorem writeFrom_at (blocks : List Nat) (skip : Nat) (data : Bytes) (m : Mem)
    (distinct : blocks.Nodup) (short : skip < width)
    (fits : skip + data.length ≤ width * blocks.length) {i : Nat}
    (inside : i < width * blocks.length) :
    writeFrom width blocks skip data m (addr width blocks i) =
      if skip ≤ i ∧ i < skip + data.length then data.getD (i - skip) 0
      else m (addr width blocks i) := by
  induction blocks generalizing skip data m i with
  | nil => simp at inside
  | cons b rest ih =>
    obtain ⟨fresh, distinct'⟩ := List.nodup_cons.mp distinct
    have apart : Disjoint (cells width [b]) (cells width rest) :=
      cells_disjoint (by simpa using fresh)
    rw [List.length_cons, Nat.mul_succ] at inside fits
    have taken : (data.take (width - skip)).length = min (width - skip) data.length :=
      List.length_take
    rw [writeFrom]
    by_cases here : i < width
    · -- the first block is written before the others, which leave it alone
      have place := addr_cons_of_lt b rest here
      have cell : ((addr width (b :: rest) i : Nat) : Int) ∈ cells width [b] := by
        rw [place]
        exact ⟨b, List.mem_cons_self, by omega, by omega⟩
      rw [writeFrom_frame rest 0 _ _ (Nat.zero_le _) (Set.disjoint_left.mp apart cell), place]
      by_cases written : skip ≤ i ∧ i < skip + data.length
      · have index : ((b * width + i : Nat) : Int) = ((b * width + skip : Nat) : Int) +
            ((i - skip : Nat) : Int) := by omega
        rw [if_pos written, index, writeBytes_at _ _ _ _ (by omega),
          List.getD_eq_getElem?_getD, List.getD_eq_getElem?_getD,
          List.getElem?_take_of_lt (by omega)]
      · rw [if_neg written, writeBytes, if_neg]
        omega
    -- a later block: what went to the first one is elsewhere, and the rest starts at its front
    · obtain ⟨j, rfl⟩ := Nat.exists_eq_add_of_le (Nat.not_lt.mp here)
      have place := addr_cons_add b rest j (Nat.zero_lt_of_lt short)
      have behind : j < width * rest.length := by omega
      have cell := addr_mem_cells rest behind
      have before : ((addr width rest j : Nat) : Int) ∉ cells width [b] :=
        fun inB => Set.disjoint_left.mp apart inB cell
      have kept : writeBytes m (b * width + skip : Nat) (data.take (width - skip))
          (addr width rest j) = m (addr width rest j) := by
        rw [writeBytes, if_neg]
        rintro ⟨low, high⟩
        exact before ⟨b, List.mem_cons_self, by omega, by omega⟩
      have dropped := List.length_drop (i := width - skip) (l := data)
      rw [place, ih 0 _ _ distinct' (Nat.zero_lt_of_lt short) (by omega) behind, kept]
      by_cases written : skip ≤ width + j ∧ width + j < skip + data.length
      · rw [if_pos (by omega), if_pos written, List.getD_eq_getElem?_getD,
          List.getD_eq_getElem?_getD, List.getElem?_drop]
        congr 2
        omega
      · rw [if_neg (by omega), if_neg written]

theorem addr_take (blocks : List Nat) (k : Nat) {i : Nat} (before : i < width * k) :
    addr width (blocks.take k) i = addr width blocks i := by
  rw [addr, addr, List.getD_eq_getElem?_getD, List.getD_eq_getElem?_getD,
    List.getElem?_take_of_lt (Nat.div_lt_of_lt_mul before)]

/-- What is written block by block is written into the stream. -/
theorem linear_write (blocks : List Nat) (offset : Nat) (data : Bytes) (m : Mem)
    (positive : 0 < width) (distinct : blocks.Nodup)
    (fits : offset + data.length ≤ width * blocks.length) {i : Nat}
    (inside : i < width * blocks.length) :
    linear width blocks (write width blocks offset data m) i =
      writeBytes (linear width blocks m) offset data i := by
  have split := Nat.div_add_mod offset width
  have short := Nat.mod_lt offset positive
  unfold write linear
  rw [writeBytes, Int.toNat_natCast]
  generalize offset / width = k at split
  generalize offset % width = skip at split short
  have later := Nat.mul_sub width blocks.length k
  have room : width * k ≤ width * blocks.length := by omega
  by_cases before : i < width * k
  · -- the blocks in front of the first one that is written
    have cell : ((addr width blocks i : Nat) : Int) ∈ cells width (blocks.take k) := by
      rw [← addr_take blocks k before]
      apply addr_mem_cells
      rw [List.length_take, ← Nat.mul_min_mul_left]
      omega
    have apart := Set.disjoint_left.mp (@cells_disjoint width _ _
      (List.disjoint_take_drop distinct (Nat.le_refl k))) cell
    rw [writeFrom_frame _ _ _ _ (Nat.le_of_lt short) apart, if_neg (by omega)]
  · obtain ⟨j, rfl⟩ := Nat.exists_eq_add_of_le (Nat.not_lt.mp before)
    have distinct' : (blocks.drop k).Nodup := distinct.sublist (List.drop_sublist k blocks)
    have written := writeFrom_at (blocks.drop k) skip data m distinct' short
      (by rw [List.length_drop]; omega) (i := j) (by rw [List.length_drop]; omega)
    rw [addr_drop blocks k j positive] at written
    rw [written]
    -- behind the front, the data or what stood there
    by_cases covered : skip ≤ j ∧ j < skip + data.length
    · rw [if_pos covered, if_pos (by omega)]
      congr 1
      omega
    · rw [if_neg covered, if_neg (by omega)]

/-! ### Reading -/

theorem readFrom_eq (blocks : List Nat) (skip len : Nat) (m : Mem) (short : skip < width)
    (fits : skip + len ≤ width * blocks.length) :
    readFrom width blocks skip len m = readBytes (linear width blocks m) skip len := by
  induction blocks generalizing skip len with
  | nil =>
    have none : len = 0 := by simp at fits; omega
    subst none
    rfl
  | cons b rest ih =>
    rw [List.length_cons, Nat.mul_succ] at fits
    have positive := Nat.zero_lt_of_lt short
    have parts : len = min len (width - skip) + (len - (width - skip)) := by omega
    -- this block gives what it has from `skip` on
    have first : readBytes m (b * width + skip : Nat) (min len (width - skip)) =
        readBytes (linear width (b :: rest) m) skip (min len (width - skip)) := by
      refine List.map_congr_left (fun i member => ?_)
      have below := List.mem_range.mp member
      have place := @addr_cons_of_lt width b rest (skip + i) (by omega)
      have index : ((skip : Int) + (i : Int)).toNat = skip + i := by omega
      rw [linear, index, place]
      congr 1
      omega
    -- and the others give the rest, read from their start
    have others : readFrom width rest 0 (len - (width - skip)) m =
        readBytes (linear width (b :: rest) m) (skip + min len (width - skip) : Nat)
          (len - (width - skip)) := by
      rw [ih 0 _ positive (by omega)]
      refine List.map_congr_left (fun i member => ?_)
      have below := List.mem_range.mp member
      have index : (((skip + min len (width - skip) : Nat) : Int) + (i : Int)).toNat =
          width + i := by omega
      have index' : (((0 : Nat) : Int) + (i : Int)).toNat = i := by omega
      rw [linear, linear, index, index', addr_cons_add b rest i positive]
    rw [readFrom, first, others]
    conv_rhs => rw [parts, readBytes_add]
    rfl

/-- What is read block by block is what the stream holds. -/
theorem read_eq (blocks : List Nat) (offset len : Nat) (m : Mem) (positive : 0 < width)
    (fits : offset + len ≤ width * blocks.length) :
    read width blocks offset len m = readBytes (linear width blocks m) offset len := by
  have split := Nat.div_add_mod offset width
  have short := Nat.mod_lt offset positive
  unfold read
  generalize offset / width = k at split
  generalize offset % width = skip at split short
  have later := Nat.mul_sub width blocks.length k
  have room : width * k ≤ width * blocks.length := by omega
  rw [readFrom_eq _ _ _ _ short (by rw [List.length_drop]; omega)]
  refine List.map_congr_left (fun i member => ?_)
  -- the read starts inside of block `k`, at the place that is left
  have index : ((skip : Int) + (i : Int)).toNat = skip + i := by omega
  have index' : ((offset : Int) + (i : Int)).toNat = width * k + (skip + i) := by omega
  rw [linear, linear, index, index', addr_drop blocks k _ positive]

/-! ### What others do -/

/-- A stream depends on its own blocks only. -/
theorem linear_agree (blocks : List Nat) {m n : Mem} (agree : AgreeOn (cells width blocks) m n)
    {i : Nat} (inside : i < width * blocks.length) :
    linear width blocks m i = linear width blocks n i :=
  agree _ (addr_mem_cells blocks inside)

theorem read_agree (blocks : List Nat) (offset len : Nat) {m n : Mem} (positive : 0 < width)
    (fits : offset + len ≤ width * blocks.length) (agree : AgreeOn (cells width blocks) m n) :
    read width blocks offset len m = read width blocks offset len n := by
  rw [read_eq _ _ _ _ positive fits, read_eq _ _ _ _ positive fits]
  refine List.map_congr_left (fun i member => ?_)
  have below := List.mem_range.mp member
  rw [← Int.natCast_add]
  exact linear_agree blocks agree (by omega)

/-- What is written to a stream is read from it. -/
theorem read_write (blocks : List Nat) (offset : Nat) (data : Bytes) (m : Mem)
    (positive : 0 < width) (distinct : blocks.Nodup)
    (fits : offset + data.length ≤ width * blocks.length) (start len : Nat)
    (within : start + len ≤ width * blocks.length) :
    read width blocks start len (write width blocks offset data m) =
      readBytes (writeBytes (linear width blocks m) offset data) start len := by
  rw [read_eq _ _ _ _ positive within]
  refine List.map_congr_left (fun i member => ?_)
  have below := List.mem_range.mp member
  rw [← Int.natCast_add]
  exact linear_write blocks offset data m positive distinct fits (by omega)

/-! ### Contents -/

/-- The first `len` bytes of the stream. -/
def content (width : Nat) (blocks : List Nat) (len : Nat) (m : Mem) : Bytes :=
  readBytes (linear width blocks m) 0 len

/-- Overwrite bytes from `offset` on. -/
def splice (bytes : Bytes) (offset : Nat) (data : Bytes) : Bytes :=
  bytes.take offset ++ data ++ bytes.drop (offset + data.length)

theorem getElem?_readBytes (m : Mem) (a : Int) (len i : Nat) :
    (readBytes m a len)[i]? = if i < len then some (m (a + i)) else none := by
  rw [readBytes, List.getElem?_map]
  split
  · rename_i inside
    rw [List.getElem?_range inside, Option.map_some]
  · rename_i outside
    rw [List.getElem?_eq_none (by rw [List.length_range]; omega), Option.map_none]

theorem getElem?_splice {bytes data : Bytes} {offset : Nat}
    (fits : offset + data.length ≤ bytes.length) (i : Nat) :
    (splice bytes offset data)[i]? =
      if offset ≤ i ∧ i < offset + data.length then data[i - offset]? else bytes[i]? := by
  have front : (bytes.take offset).length = offset := by
    rw [List.length_take]
    omega
  rw [splice, List.append_assoc, List.getElem?_append, List.getElem?_append, front]
  -- in front of the data, in it or behind it
  by_cases before : i < offset
  · rw [if_pos before, if_neg (by omega), List.getElem?_take_of_lt before]
  · rw [if_neg before]
    by_cases inside : i - offset < data.length
    · rw [if_pos inside, if_pos (by omega)]
    · rw [if_neg inside, if_neg (by omega), List.getElem?_drop]
      congr 1
      omega

theorem length_splice {bytes data : Bytes} {offset : Nat}
    (fits : offset + data.length ≤ bytes.length) : (splice bytes offset data).length = bytes.length := by
  rw [splice, List.length_append, List.length_append, List.length_take, List.length_drop]
  omega

theorem getElem?_slice (bytes : Bytes) (offset len i : Nat) :
    (bytes.slice offset len)[i]? = if i < len then bytes[offset + i]? else none := by
  rw [Bytes.slice, List.getElem?_take, List.getElem?_drop]

@[simp] theorem length_content (blocks : List Nat) (len : Nat) (m : Mem) :
    (content width blocks len m).length = len :=
  length_readBytes _ _ _

/-- Reading gives a part of the contents. -/
theorem read_eq_slice (blocks : List Nat) (offset n len : Nat) (m : Mem) (positive : 0 < width)
    (within : offset + n ≤ len) (fits : len ≤ width * blocks.length) :
    read width blocks offset n m = (content width blocks len m).slice offset n := by
  rw [read_eq _ _ _ _ positive (by omega)]
  apply List.ext_getElem?
  intro i
  rw [getElem?_slice, content, getElem?_readBytes, getElem?_readBytes]
  split
  · rw [if_pos (by omega)]
    congr 2
    omega
  · rfl

/-- Writing overwrites a part of the contents. -/
theorem content_write (blocks : List Nat) (offset len : Nat) (data : Bytes) (m : Mem)
    (positive : 0 < width) (distinct : blocks.Nodup) (within : offset + data.length ≤ len)
    (fits : len ≤ width * blocks.length) :
    content width blocks len (write width blocks offset data m) =
      splice (content width blocks len m) offset data := by
  apply List.ext_getElem?
  intro i
  rw [getElem?_splice (by rw [length_content]; exact within), content, content,
    getElem?_readBytes, getElem?_readBytes]
  -- a byte of the stream, for the last block may have more of them
  by_cases inside : i < len
  · rw [if_pos inside, if_pos inside, Int.zero_add,
      linear_write blocks offset data m positive distinct (by omega) (by omega), writeBytes]
    by_cases covered : offset ≤ i ∧ i < offset + data.length
    · have index : ((i : Int) - (offset : Int)).toNat = i - offset := by omega
      rw [if_pos covered, if_pos (by omega), index, List.getD_eq_getElem _ _ (by omega),
        List.getElem?_eq_getElem (by omega)]
    · rw [if_neg covered, if_neg (by omega)]
  · rw [if_neg inside, if_neg inside, if_neg (by omega)]

theorem content_agree (blocks : List Nat) (len : Nat) {m n : Mem}
    (agree : AgreeOn (cells width blocks) m n) (fits : len ≤ width * blocks.length) :
    content width blocks len m = content width blocks len n := by
  refine List.map_congr_left (fun i member => ?_)
  have below := List.mem_range.mp member
  rw [Int.zero_add]
  exact linear_agree blocks agree (by omega)

/-- A part of what has been overwritten is a part that has been overwritten where both meet. -/
theorem slice_splice {bytes data : Bytes} {offset first n : Nat}
    (fits : offset + data.length ≤ bytes.length) (within : first + n ≤ bytes.length)
    (meets : offset ≤ first + n) (meets' : first ≤ offset + data.length) :
    (splice bytes offset data).slice first n =
      splice (bytes.slice first n) (max offset first - first)
        (data.slice (max offset first - offset)
          (min (offset + data.length) (first + n) - max offset first)) := by
  have part := length_slice data (max offset first - offset)
    (min (offset + data.length) (first + n) - max offset first) (by omega)
  have whole := length_slice bytes first n within
  apply List.ext_getElem?
  intro i
  rw [getElem?_splice (by rw [part, whole]; omega), part, getElem?_slice, getElem?_slice,
    getElem?_slice, getElem?_splice fits]
  by_cases inside : i < n
  · rw [if_pos inside, if_pos inside]
    -- both sides read the data where it covers the byte, and the old bytes elsewhere
    by_cases covered : offset ≤ first + i ∧ first + i < offset + data.length
    · rw [if_pos covered, if_pos (by omega), if_pos (by omega)]
      congr 1
      omega
    · rw [if_neg covered, if_neg (by omega)]
  · rw [if_neg inside, if_neg inside, if_neg (by omega)]

theorem slice_splice_apart {bytes data : Bytes} {offset first n : Nat}
    (fits : offset + data.length ≤ bytes.length)
    (apart : first + n ≤ offset ∨ offset + data.length ≤ first) :
    (splice bytes offset data).slice first n = bytes.slice first n := by
  apply List.ext_getElem?
  intro i
  rw [getElem?_slice, getElem?_slice, getElem?_splice fits]
  by_cases inside : i < n
  · rw [if_pos inside, if_pos inside, if_neg (by omega)]
  · rw [if_neg inside, if_neg inside]

end LlvmLd.Paging
