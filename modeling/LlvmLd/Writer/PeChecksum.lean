import Mathlib.Algebra.Order.BigOperators.Group.List
import Mathlib.Algebra.Order.Ring.Nat
import Mathlib.Data.List.GetD
import LlvmLd.Lib.Bytes
import LlvmLd.Lib.OnesComplement

/-!
# The checksum of the image

`writePEChecksum` of `Writer.cpp`, and the checksum as it is defined for images: one word after the
other with end-around carry, the field itself as zero, and the length of the file added.
-/

namespace LlvmLd.Writer

open OnesComplement

/-- The loop over words and the left-over byte. The sum has 64 bits. -/
def addWords (sum : Nat) : Bytes → Nat
  | lo :: hi :: rest => addWords ((sum + (lo.toNat + 256 * hi.toNat)) % 2 ^ 64) rest
  | [last] => (sum + last.toNat) % 2 ^ 64
  | [] => sum

/-- `CheckSum` in the header that follows the COFF header of 20 bytes. -/
def checkSumOffset (coffHeaderOffset : Nat) : Nat := coffHeaderOffset + 20 + 64

def writePEChecksum (writeCheckSum : Bool) (coffHeaderOffset : Nat) (buffer : Bytes) : Bytes :=
  if writeCheckSum = false then buffer
  else
    let size := uint32 buffer.length
    let sum := foldSum (addWords 0 (buffer.take size))
    setWord buffer (checkSumOffset coffHeaderOffset) ((sum + size) % 2 ^ 64)

/-! ### The standard -/

/-- The words of a file; a left-over byte is a word. -/
def fileWords : Bytes → List Nat
  | lo :: hi :: rest => (lo.toNat + 256 * hi.toNat) :: fileWords rest
  | [last] => [last.toNat]
  | [] => []

def standardChecksum (file : Bytes) : Nat :=
  uint32 ((fileWords file).foldl addCarry 0 + file.length)

private theorem fileWords_lt (file : Bytes) : ∀ word ∈ fileWords file, word < 2 ^ 16 := by
  induction file using fileWords.induct with
  | case1 lo hi rest ih =>
    have low := lo.toNat_lt
    have high := hi.toNat_lt
    exact List.forall_mem_cons.mpr ⟨by omega, ih⟩
  | case2 last =>
    have low := last.toNat_lt
    exact List.forall_mem_cons.mpr ⟨by omega, by simp⟩
  | case3 => simp [fileWords]

private theorem length_fileWords (file : Bytes) : (fileWords file).length ≤ file.length := by
  induction file using fileWords.induct with
  | case1 lo hi rest ih =>
    simp only [fileWords, List.length_cons]
    omega
  | case2 last => exact Nat.le_refl 1
  | case3 => exact Nat.le_refl 0

/-- So many words fit into 64 bits. -/
theorem sum_words_lt (words : List Nat) (small : ∀ word ∈ words, word < 2 ^ 16)
    (few : words.length ≤ uint32Max) : words.sum < 2 ^ 64 := by
  have bound := List.sum_le_card_nsmul words (2 ^ 16) (fun word member =>
    Nat.le_of_lt (small word member))
  unfold uint32Max at few
  rw [Nat.nsmul_eq_mul] at bound
  omega

/-- Without overflow the loop is the sum of the words. -/
theorem addWords_eq (sum : Nat) (file : Bytes) (fits : sum + (fileWords file).sum < 2 ^ 64) :
    addWords sum file = sum + (fileWords file).sum := by
  induction sum, file using addWords.induct with
  | case1 sum lo hi rest ih =>
    simp only [fileWords, List.sum_cons] at fits ⊢
    have here : (sum + (lo.toNat + 256 * hi.toNat)) % 2 ^ 64 =
        sum + (lo.toNat + 256 * hi.toNat) := Nat.mod_eq_of_lt (by omega)
    rw [addWords, ih (by omega), here, Nat.add_assoc]
  | case2 sum last =>
    simp only [fileWords, List.sum_singleton] at fits ⊢
    exact Nat.mod_eq_of_lt fits
  | case3 sum => rfl

/-! ### The field -/

theorem length_setWord (b : Bytes) (i n : Nat) (inside : i + 4 ≤ b.length) :
    (setWord b i n).length = b.length := by
  simp only [setWord, List.length_append, List.length_take, length_le32, List.length_drop]
  omega

private theorem u32At_setWord (b : Bytes) (i n : Nat) (inside : i + 4 ≤ b.length) :
    (setWord b i n).u32At i = uint32 n := by
  have front : (b.take i).length = i := List.length_take_of_le (by omega)
  have read := u32At_le32 n (b.drop (i + 4))
  have behind := u32At_drop (setWord b i n) i 0
  rw [Nat.add_zero] at behind
  rw [← behind, setWord, List.append_assoc, List.drop_left' front, read]

/-- Storing zero where zero stands changes nothing. -/
theorem setWord_zero (b : Bytes) (i : Nat) (inside : i + 4 ≤ b.length) (blank : b.u32At i = 0) :
    setWord b i 0 = b := by
  -- a word is zero when its four bytes are
  have bytes : ∀ j < 4, b.getD (i + j) 0 = 0 := by
    intro j below
    have zero : (b.getD (i + j) 0).toNat = 0 := by
      simp only [Bytes.u32At, Bytes.u16At, Bytes.byteAt, Nat.add_assoc, Nat.reduceAdd] at blank
      have cases : j = 0 ∨ j = 1 ∨ j = 2 ∨ j = 3 := by omega
      rcases cases with rfl | rfl | rfl | rfl
      · rw [Nat.add_zero]
        omega
      · omega
      · omega
      · omega
    exact UInt8.toNat_inj.mp zero
  have middle : (b.drop i).take 4 = le32 0 := by
    apply List.ext_getElem
    · rw [List.length_take, List.length_drop, length_le32]
      omega
    · intro j inTake inWord
      have value := bytes j inWord
      rw [List.getElem_take, List.getElem_drop]
      rw [List.getD_eq_getElem _ _ (by rw [length_le32] at inWord; omega)] at value
      rw [value]
      have zeros : le32 0 = List.replicate 4 0 := rfl
      simp only [zeros, List.getElem_replicate]
  rw [setWord, ← middle, List.append_assoc, ← List.drop_drop, List.take_append_drop,
    List.take_append_drop]

/-- The stored value is the standard checksum. The file is zero to begin with and `writeHeader`
stores nothing in the field. -/
theorem writePEChecksum_standard (coffHeaderOffset : Nat) (buffer : Bytes)
    (size : buffer.length ≤ uint32Max)
    (inside : checkSumOffset coffHeaderOffset + 4 ≤ buffer.length)
    (blank : buffer.u32At (checkSumOffset coffHeaderOffset) = 0) :
    (writePEChecksum true coffHeaderOffset buffer).u32At (checkSumOffset coffHeaderOffset) =
        standardChecksum (setWord buffer (checkSumOffset coffHeaderOffset) 0) ∧
      (∀ k, ((fileWords buffer).take k).sum < 2 ^ 64) ∧
      ∃ rounds, foldSum (addWords 0 buffer) = foldStep^[rounds] (addWords 0 buffer) ∧
        foldStep^[rounds] (addWords 0 buffer) / 2 ^ 16 = 0 := by
  have few := Nat.le_trans (length_fileWords buffer) size
  have whole := sum_words_lt _ (fileWords_lt buffer) few
  refine ⟨?_, ?_, foldSum_rounds _⟩
  · have sum : addWords 0 buffer = (fileWords buffer).sum := by
      rw [addWords_eq 0 buffer (by omega), Nat.zero_add]
    have folded := foldSum_sum _ (fileWords_lt buffer)
    -- the folded sum has 16 bits, so adding the length stays far below 2^64
    have small := (represents_foldSum (fileWords buffer).sum).small
    have total : (foldSum (fileWords buffer).sum + buffer.length) % 2 ^ 64 =
        foldSum (fileWords buffer).sum + buffer.length := by
      unfold uint32Max at size
      exact Nat.mod_eq_of_lt (by omega)
    rw [setWord_zero buffer _ inside blank, writePEChecksum, if_neg (by decide)]
    dsimp only
    rw [uint32_of_le _ size, List.take_length, sum, total, u32At_setWord _ _ _ inside, folded]
    rfl
  · intro k
    refine sum_words_lt _ (fun word member =>
      fileWords_lt buffer word (List.mem_of_mem_take member)) ?_
    rw [List.length_take]
    omega

/-- An image of odd length with its COFF header at the start. -/
def oddImage : Bytes := 0x4c :: 0x01 :: List.replicate 99 0

theorem oddImage_standard :
    (writePEChecksum true 0 oddImage).u32At 84 = standardChecksum (setWord oddImage 84 0) ∧
      (∀ k, ((fileWords oddImage).take k).sum < 2 ^ 64) ∧
      ∃ rounds, foldSum (addWords 0 oddImage) = foldStep^[rounds] (addWords 0 oddImage) ∧
        foldStep^[rounds] (addWords 0 oddImage) / 2 ^ 16 = 0 :=
  writePEChecksum_standard 0 oddImage (by decide) (by decide) (by decide)

end LlvmLd.Writer
