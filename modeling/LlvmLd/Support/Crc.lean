import LlvmLd.Lib.Crc

/-!
`llvm::crc32` without zlib: eight-byte blocks through the derived tables, the tail through the
literal table, and `JamCRC` around it.
-/

namespace LlvmLd.Support

open Crc

def crcTable : List (BitVec 32) := [
  0x00000000, 0x77073096, 0xee0e612c, 0x990951ba, 0x076dc419, 0x706af48f, 0xe963a535,
  0x9e6495a3, 0x0edb8832, 0x79dcb8a4, 0xe0d5e91e, 0x97d2d988, 0x09b64c2b, 0x7eb17cbd,
  0xe7b82d07, 0x90bf1d91, 0x1db71064, 0x6ab020f2, 0xf3b97148, 0x84be41de, 0x1adad47d,
  0x6ddde4eb, 0xf4d4b551, 0x83d385c7, 0x136c9856, 0x646ba8c0, 0xfd62f97a, 0x8a65c9ec,
  0x14015c4f, 0x63066cd9, 0xfa0f3d63, 0x8d080df5, 0x3b6e20c8, 0x4c69105e, 0xd56041e4,
  0xa2677172, 0x3c03e4d1, 0x4b04d447, 0xd20d85fd, 0xa50ab56b, 0x35b5a8fa, 0x42b2986c,
  0xdbbbc9d6, 0xacbcf940, 0x32d86ce3, 0x45df5c75, 0xdcd60dcf, 0xabd13d59, 0x26d930ac,
  0x51de003a, 0xc8d75180, 0xbfd06116, 0x21b4f4b5, 0x56b3c423, 0xcfba9599, 0xb8bda50f,
  0x2802b89e, 0x5f058808, 0xc60cd9b2, 0xb10be924, 0x2f6f7c87, 0x58684c11, 0xc1611dab,
  0xb6662d3d, 0x76dc4190, 0x01db7106, 0x98d220bc, 0xefd5102a, 0x71b18589, 0x06b6b51f,
  0x9fbfe4a5, 0xe8b8d433, 0x7807c9a2, 0x0f00f934, 0x9609a88e, 0xe10e9818, 0x7f6a0dbb,
  0x086d3d2d, 0x91646c97, 0xe6635c01, 0x6b6b51f4, 0x1c6c6162, 0x856530d8, 0xf262004e,
  0x6c0695ed, 0x1b01a57b, 0x8208f4c1, 0xf50fc457, 0x65b0d9c6, 0x12b7e950, 0x8bbeb8ea,
  0xfcb9887c, 0x62dd1ddf, 0x15da2d49, 0x8cd37cf3, 0xfbd44c65, 0x4db26158, 0x3ab551ce,
  0xa3bc0074, 0xd4bb30e2, 0x4adfa541, 0x3dd895d7, 0xa4d1c46d, 0xd3d6f4fb, 0x4369e96a,
  0x346ed9fc, 0xad678846, 0xda60b8d0, 0x44042d73, 0x33031de5, 0xaa0a4c5f, 0xdd0d7cc9,
  0x5005713c, 0x270241aa, 0xbe0b1010, 0xc90c2086, 0x5768b525, 0x206f85b3, 0xb966d409,
  0xce61e49f, 0x5edef90e, 0x29d9c998, 0xb0d09822, 0xc7d7a8b4, 0x59b33d17, 0x2eb40d81,
  0xb7bd5c3b, 0xc0ba6cad, 0xedb88320, 0x9abfb3b6, 0x03b6e20c, 0x74b1d29a, 0xead54739,
  0x9dd277af, 0x04db2615, 0x73dc1683, 0xe3630b12, 0x94643b84, 0x0d6d6a3e, 0x7a6a5aa8,
  0xe40ecf0b, 0x9309ff9d, 0x0a00ae27, 0x7d079eb1, 0xf00f9344, 0x8708a3d2, 0x1e01f268,
  0x6906c2fe, 0xf762575d, 0x806567cb, 0x196c3671, 0x6e6b06e7, 0xfed41b76, 0x89d32be0,
  0x10da7a5a, 0x67dd4acc, 0xf9b9df6f, 0x8ebeeff9, 0x17b7be43, 0x60b08ed5, 0xd6d6a3e8,
  0xa1d1937e, 0x38d8c2c4, 0x4fdff252, 0xd1bb67f1, 0xa6bc5767, 0x3fb506dd, 0x48b2364b,
  0xd80d2bda, 0xaf0a1b4c, 0x36034af6, 0x41047a60, 0xdf60efc3, 0xa867df55, 0x316e8eef,
  0x4669be79, 0xcb61b38c, 0xbc66831a, 0x256fd2a0, 0x5268e236, 0xcc0c7795, 0xbb0b4703,
  0x220216b9, 0x5505262f, 0xc5ba3bbe, 0xb2bd0b28, 0x2bb45a92, 0x5cb36a04, 0xc2d7ffa7,
  0xb5d0cf31, 0x2cd99e8b, 0x5bdeae1d, 0x9b64c2b0, 0xec63f226, 0x756aa39c, 0x026d930a,
  0x9c0906a9, 0xeb0e363f, 0x72076785, 0x05005713, 0x95bf4a82, 0xe2b87a14, 0x7bb12bae,
  0x0cb61b38, 0x92d28e9b, 0xe5d5be0d, 0x7cdcefb7, 0x0bdbdf21, 0x86d3d2d4, 0xf1d4e242,
  0x68ddb3f8, 0x1fda836e, 0x81be16cd, 0xf6b9265b, 0x6fb077e1, 0x18b74777, 0x88085ae6,
  0xff0f6a70, 0x66063bca, 0x11010b5c, 0x8f659eff, 0xf862ae69, 0x616bffd3, 0x166ccf45,
  0xa00ae278, 0xd70dd2ee, 0x4e048354, 0x3903b3c2, 0xa7672661, 0xd06016f7, 0x4969474d,
  0x3e6e77db, 0xaed16a4a, 0xd9d65adc, 0x40df0b66, 0x37d83bf0, 0xa9bcae53, 0xdebb9ec5,
  0x47b2cf7f, 0x30b5ffe9, 0xbdbdf21c, 0xcabac28a, 0x53b39330, 0x24b4a3a6, 0xbad03605,
  0xcdd70693, 0x54de5729, 0x23d967bf, 0xb3667a2e, 0xc4614ab8, 0x5d681b02, 0x2a6f2b94,
  0xb40bbe37, 0xc30c8ea1, 0x5a05df1b, 0x2d02ef8d]

/-- The polynomial that the constructor of `CRCSliceTables` shifts in. -/
def crcPoly : BitVec 32 := 0xEDB88320

/-- `CRCSliceTables::T`. -/
def sliceTable : Nat → Nat → BitVec 32
  | 0, i => shifts crcPoly 8 (BitVec.ofNat 32 i)
  | j + 1, i =>
    let last := sliceTable j i
    (last >>> 8) ^^^ sliceTable 0 (last &&& 0xff#32).toNat

def readLE32 (p : Bytes) : BitVec 32 :=
  BitVec.ofNat 32 (p.byteAt 0) ||| (BitVec.ofNat 32 (p.byteAt 1) <<< 8) |||
    (BitVec.ofNat 32 (p.byteAt 2) <<< 16) ||| (BitVec.ofNat 32 (p.byteAt 3) <<< 24)

def sliceBlock (crc : BitVec 32) (p : Bytes) : BitVec 32 :=
  let one := readLE32 p ^^^ crc
  let two := readLE32 (p.drop 4)
  sliceTable 7 (one &&& 0xff#32).toNat ^^^ sliceTable 6 ((one >>> 8) &&& 0xff#32).toNat ^^^
    sliceTable 5 ((one >>> 16) &&& 0xff#32).toNat ^^^ sliceTable 4 (one >>> 24).toNat ^^^
    sliceTable 3 (two &&& 0xff#32).toNat ^^^ sliceTable 2 ((two >>> 8) &&& 0xff#32).toNat ^^^
    sliceTable 1 ((two >>> 16) &&& 0xff#32).toNat ^^^ sliceTable 0 (two >>> 24).toNat

def tableStep (crc : BitVec 32) (b : UInt8) : BitVec 32 :=
  crcTable.getD ((crc ^^^ BitVec.ofNat 32 b.toNat) &&& 0xff#32).toNat 0 ^^^ (crc >>> 8)

/-- Both loops of `crc32`, with the bytes from `P` on. -/
def crcLoops (crc : BitVec 32) (p : Bytes) : BitVec 32 :=
  if 8 ≤ p.length then crcLoops (sliceBlock crc p) (p.drop 8) else p.foldl tableStep crc
  termination_by p.length
  decreasing_by
    rw [List.length_drop]
    omega

def crc32 (crc : BitVec 32) (data : Bytes) : BitVec 32 :=
  crcLoops (crc ^^^ 0xFFFFFFFF) data ^^^ 0xFFFFFFFF

structure JamCRC where
  crc : BitVec 32
  deriving DecidableEq

def JamCRC.update (jam : JamCRC) (data : Bytes) : JamCRC :=
  let undone := jam.crc ^^^ 0xFFFFFFFF
  ⟨crc32 undone data ^^^ 0xFFFFFFFF⟩

/-! ### The tables -/

private theorem crcTable_eq (i : Nat) (inside : i < 256) :
    crcTable.getD i 0 = shifts crcPoly 8 (BitVec.ofNat 32 i) := by
  have table : ∀ k : Fin 256, crcTable.getD k 0 = shifts crcPoly 8 (BitVec.ofNat 32 k) := by
    decide +kernel
  exact table ⟨i, inside⟩

private theorem low_byte_lt (x : BitVec 32) : (x &&& 0xff#32).toNat < 256 := by
  rw [BitVec.toNat_and]
  exact Nat.lt_of_le_of_lt Nat.and_le_right (by decide)

private theorem shifts_eight (x : BitVec 32) :
    shifts crcPoly 8 x = shifts crcPoly 8 (x &&& 0xff#32) ^^^ (x >>> 8) :=
  shifts_split crcPoly 0 x (by decide)

/-- Table `j` advances the register by one byte more than table `j - 1`. -/
private theorem sliceTable_eq (j i : Nat) :
    sliceTable j i = shifts crcPoly (8 * (j + 1)) (BitVec.ofNat 32 i) := by
  induction j with
  | zero => rw [sliceTable]
  | succ j ih =>
    have more : 8 * (j + 1 + 1) = 8 + 8 * (j + 1) := by omega
    rw [more, shifts_add, ← ih, shifts_eight, sliceTable, sliceTable, BitVec.ofNat_toNat,
      BitVec.setWidth_eq, BitVec.xor_comm]

private theorem tableStep_eq (crc : BitVec 32) (b : UInt8) :
    tableStep crc b = byteStep crcPoly crc b := by
  have gone : BitVec.ofNat 32 b.toNat >>> 8 = 0#32 := by
    apply BitVec.eq_of_toNat_eq
    rw [BitVec.toNat_ushiftRight, BitVec.toNat_ofNat, Nat.shiftRight_eq_div_pow]
    have := b.toNat_lt
    exact Nat.div_eq_of_lt (by omega)
  rw [tableStep, crcTable_eq _ (low_byte_lt _), byteStep, shifts_eight (crc ^^^ _),
    BitVec.ushiftRight_xor_distrib, gone, BitVec.xor_zero, BitVec.ofNat_toNat,
    BitVec.setWidth_eq]

/-! ### A block -/

private theorem testBit_byte (b : UInt8) (k : Nat) (high : 8 ≤ k) : b.toNat.testBit k = false := by
  apply Nat.testBit_lt_two_pow
  calc b.toNat < 2 ^ 8 := b.toNat_lt
    _ ≤ 2 ^ k := Nat.pow_le_pow_right (by omega) high

private theorem getLsbD_byte (b : UInt8) (k : Nat) :
    (BitVec.ofNat 32 b.toNat).getLsbD k = b.toNat.testBit k := by
  rw [BitVec.getLsbD_ofNat]
  by_cases low : k < 32
  · simp [low]
  · simp [testBit_byte b k (by omega)]

/-- The four bytes of a little-endian word do not overlap, so or is xor. -/
private theorem readLE32_cons (a b c d : UInt8) (rest : Bytes) :
    readLE32 (a :: b :: c :: d :: rest) = ofBytes 32 [a, b, c, d] := by
  apply BitVec.eq_of_getLsbD_eq
  intro i below
  simp only [readLE32, ofBytes, Bytes.byteAt, List.getD_cons_zero, List.getD_cons_succ,
    BitVec.getLsbD_or, BitVec.getLsbD_xor, BitVec.getLsbD_shiftLeft, getLsbD_byte, Nat.sub_sub]
  by_cases first : i < 8
  · simp [first, show i < 16 by omega, show i < 24 by omega]
  have a0 := testBit_byte a i (by omega)
  by_cases second : i < 16
  · simp [first, second, below, a0, show i < 24 by omega, show i - 8 < 8 by omega]
  have b0 := testBit_byte b (i - 8) (by omega)
  by_cases third : i < 24
  · simp [first, second, third, below, a0, b0, show i - 8 < 32 by omega,
      show ¬ i - 8 < 8 by omega, show i - 16 < 8 by omega]
  have c0 := testBit_byte c (i - 16) (by omega)
  simp [first, second, third, below, a0, b0, c0, show i - 8 < 32 by omega,
    show ¬ i - 8 < 8 by omega, show i - 16 < 32 by omega, show ¬ i - 16 < 8 by omega]

private theorem readLE32_eq (p : Bytes) (long : 4 ≤ p.length) :
    readLE32 p = ofBytes 32 (p.take 4) := by
  rcases p with _ | ⟨a, _ | ⟨b, _ | ⟨c, _ | ⟨d, rest⟩⟩⟩⟩
  case cons.cons.cons.cons => exact readLE32_cons a b c d rest
  all_goals simp at long

private theorem shifts_lookup (j : Nat) (x : BitVec 32) :
    shifts crcPoly (8 * (j + 1)) x =
      sliceTable j (x &&& 0xff#32).toNat ^^^ shifts crcPoly (8 * j) (x >>> 8) := by
  rw [sliceTable_eq, BitVec.ofNat_toNat, BitVec.setWidth_eq]
  exact shifts_split crcPoly (8 * j) x (by decide)

/-- A word passes through the four tables that its bytes select. -/
private theorem shifts_word (j : Nat) (x : BitVec 32) :
    shifts crcPoly (8 * (j + 4)) x =
      sliceTable (j + 3) (x &&& 0xff#32).toNat ^^^
      sliceTable (j + 2) ((x >>> 8) &&& 0xff#32).toNat ^^^
      sliceTable (j + 1) ((x >>> 16) &&& 0xff#32).toNat ^^^ sliceTable j (x >>> 24).toNat := by
  have top : sliceTable j (x >>> 24).toNat = shifts crcPoly (8 * (j + 1)) (x >>> 24) := by
    rw [sliceTable_eq, BitVec.ofNat_toNat, BitVec.setWidth_eq]
  rw [shifts_lookup (j + 3), shifts_lookup (j + 2), shifts_lookup (j + 1), top,
    ← BitVec.shiftRight_add, ← BitVec.shiftRight_add]
  simp only [BitVec.xor_assoc]

/-- A block is eight bytes of the byte loop. -/
private theorem sliceBlock_eq (crc : BitVec 32) (p : Bytes) (long : 8 ≤ p.length) :
    sliceBlock crc p = (p.take 8).foldl (byteStep crcPoly) crc := by
  have first : (p.take 4).length = 4 := by simp; omega
  have second : ((p.drop 4).take 4).length = 4 := by simp; omega
  rw [List.take_add (i := 4) (j := 4), List.foldl_append,
    foldl_byteStep_eq_shifts crcPoly crc _ (by omega),
    foldl_byteStep_eq_shifts crcPoly _ _ (by omega), first, second, shifts_xor, ← shifts_add,
    ← readLE32_eq p (by omega), ← readLE32_eq (p.drop 4) (by simp; omega),
    BitVec.xor_comm crc]
  have one := shifts_word 4 (readLE32 p ^^^ crc)
  have two := shifts_word 0 (readLE32 (p.drop 4))
  rw [sliceBlock, one, two]
  simp only [BitVec.xor_assoc]

private theorem foldl_tableStep (crc : BitVec 32) (p : Bytes) :
    p.foldl tableStep crc = p.foldl (byteStep crcPoly) crc := by
  congr 1
  funext crc b
  exact tableStep_eq crc b

private theorem crcLoops_eq (crc : BitVec 32) (p : Bytes) :
    crcLoops crc p = p.foldl (byteStep crcPoly) crc := by
  fun_induction crcLoops crc p with
  | case1 crc p long ih =>
    rw [ih, sliceBlock_eq crc p long, ← List.foldl_append, List.take_append_drop]
  | case2 crc p short => exact foldl_tableStep crc p

/-! ### Main results -/

/-- The loop over `CRCTable` alone, under the same inversions. -/
def crc32Bytewise (crc : BitVec 32) (data : Bytes) : BitVec 32 :=
  data.foldl tableStep (crc ^^^ 0xFFFFFFFF) ^^^ 0xFFFFFFFF

/-- The reflected CRC with one message bit at a time, under the same inversions. -/
def crc32BitSerial (crc : BitVec 32) (data : Bytes) : BitVec 32 :=
  bitSerial crcPoly (crc ^^^ 0xFFFFFFFF) data ^^^ 0xFFFFFFFF

private theorem crc32_eq (crc : BitVec 32) (data : Bytes) :
    crc32 crc data =
      data.foldl (byteStep crcPoly) (crc ^^^ 0xFFFFFFFF) ^^^ 0xFFFFFFFF := by
  rw [crc32, crcLoops_eq]

private theorem xor_mask_cancel (x mask : BitVec 32) : x ^^^ mask ^^^ mask = x := by
  rw [BitVec.xor_assoc, BitVec.xor_self, BitVec.xor_zero]

private theorem crc32_append (crc : BitVec 32) (a b : Bytes) :
    crc32 (crc32 crc a) b = crc32 crc (a ++ b) := by
  rw [crc32_eq, crc32_eq, crc32_eq, xor_mask_cancel, List.foldl_append]

private theorem JamCRC.update_eq (jam : JamCRC) (data : Bytes) :
    jam.update data = ⟨data.foldl (byteStep crcPoly) jam.crc⟩ := by
  simp only [JamCRC.update, crc32_eq, xor_mask_cancel]

private theorem JamCRC.foldl_update (jam : JamCRC) (chunks : List Bytes) :
    chunks.foldl JamCRC.update jam = jam.update chunks.flatten := by
  induction chunks generalizing jam with
  | nil => rw [List.flatten_nil, JamCRC.update_eq]; rfl
  | cons chunk rest ih =>
    rw [List.foldl_cons, ih, List.flatten_cons, JamCRC.update_eq, JamCRC.update_eq,
      JamCRC.update_eq, List.foldl_append]

/-- Sliced, bytewise and bit-serial CRC agree, checksums of pieces chain, and `JamCRC` does not see
how a buffer is cut. -/
theorem crc32_slicing_correct (crc : BitVec 32) (data : Bytes) :
    crc32 crc data = crc32Bytewise crc data ∧
    crc32 crc data = crc32BitSerial crc data ∧
    (∀ a b, crc32 (crc32 crc a) b = crc32 crc (a ++ b)) ∧
    ∀ (jam : JamCRC) (chunks : List Bytes),
      chunks.foldl JamCRC.update jam = jam.update chunks.flatten ∧
      (jam.update chunks.flatten).crc = bitSerial crcPoly jam.crc chunks.flatten := by
  refine ⟨?_, ?_, crc32_append crc, fun jam chunks => ⟨jam.foldl_update chunks, ?_⟩⟩
  · rw [crc32_eq, crc32Bytewise, foldl_tableStep]
  · rw [crc32_eq, crc32BitSerial, foldl_byteStep crcPoly _ _ (by decide)]
  · rw [JamCRC.update_eq, foldl_byteStep crcPoly _ _ (by decide)]

end LlvmLd.Support
