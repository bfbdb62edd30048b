import Mathlib.Algebra.Order.Ring.Int
import Mathlib.Data.List.Basic
import Mathlib.Tactic.Common

/-!
Byte strings: little-endian fields, slices, NUL-terminated strings, 32-bit values and alignment.
-/

namespace LlvmLd

abbrev Bytes := List UInt8

instance : LawfulBEq Bytes := inferInstance

namespace Bytes

/-- The byte at `i`, or 0 behind the end. -/
def byteAt (b : Bytes) (i : Nat) : Nat := (b.getD i 0).toNat

def u16At (b : Bytes) (i : Nat) : Nat := b.byteAt i + 256 * b.byteAt (i + 1)

def u32At (b : Bytes) (i : Nat) : Nat := b.u16At i + 65536 * b.u16At (i + 2)

def u64At (b : Bytes) (i : Nat) : Nat := b.u32At i + 2 ^ 32 * b.u32At (i + 4)

def slice (b : Bytes) (offset len : Nat) : Bytes := (b.drop offset).take len

/-- The string at `i` up to its NUL; `none` when the NUL is missing. -/
def cString (b : Bytes) (i : Nat) : Option Bytes :=
  let tail := b.drop i
  if (0 : UInt8) ∈ tail then some (tail.takeWhile (· ≠ 0)) else none

end Bytes

def le16 (n : Nat) : Bytes := [UInt8.ofNat n, UInt8.ofNat (n / 256)]

def le32 (n : Nat) : Bytes := le16 n ++ le16 (n / 65536)

def le64 (n : Nat) : Bytes := le32 n ++ le32 (n / 2 ^ 32)

/-- Overwrite the 32-bit word at `i`. -/
def setWord (b : Bytes) (i n : Nat) : Bytes := b.take i ++ le32 n ++ b.drop (i + 4)

@[simp] theorem length_le16 (n : Nat) : (le16 n).length = 2 := rfl

@[simp] theorem length_le32 (n : Nat) : (le32 n).length = 4 := rfl

@[simp] theorem length_le64 (n : Nat) : (le64 n).length = 8 := rfl

/-- Round `n` up to a multiple of `a`. -/
def alignTo (n a : Nat) : Nat := (n + a - 1) / a * a

/-- Zeros up to a multiple of 4. -/
def padTo4 (b : Bytes) : Bytes := b ++ List.replicate (alignTo b.length 4 - b.length) 0

/-! ### 32-bit values -/

def uint32 (n : Nat) : Nat := n % 2 ^ 32

def uint32Max : Nat := 2 ^ 32 - 1

theorem uint32_of_le (n : Nat) (le : n ≤ uint32Max) : uint32 n = n := by
  unfold uint32
  unfold uint32Max at le
  exact Nat.mod_eq_of_lt (by omega)

theorem uint32_le (n : Nat) : uint32 n ≤ uint32Max := by
  unfold uint32 uint32Max
  have := Nat.mod_lt n (show 0 < 2 ^ 32 by decide)
  omega

/-! ### Reading fields back -/

theorem byteAt_drop (b : Bytes) (k i : Nat) : Bytes.byteAt (b.drop k) i = b.byteAt (k + i) := by
  simp [Bytes.byteAt, List.getD_eq_getElem?_getD]

theorem u16At_drop (b : Bytes) (k i : Nat) : Bytes.u16At (b.drop k) i = b.u16At (k + i) := by
  simp [Bytes.u16At, byteAt_drop, Nat.add_assoc]

theorem u32At_drop (b : Bytes) (k i : Nat) : Bytes.u32At (b.drop k) i = b.u32At (k + i) := by
  simp [Bytes.u32At, u16At_drop, Nat.add_assoc]

/-- A string in front of a NUL is read up to it. -/
theorem cString_of_drop (b : Bytes) (i : Nat) (s rest : Bytes) (no_nul : (0 : UInt8) ∉ s)
    (there : b.drop i = s ++ 0 :: rest) : b.cString i = some s := by
  have kept : (s ++ 0 :: rest).takeWhile (· ≠ 0) = s := by
    rw [List.takeWhile_append_of_pos]
    · simp
    · intro c member
      exact decide_eq_true (fun zero => no_nul (zero ▸ member))
  simp only [Bytes.cString, there]
  rw [if_pos (by simp), kept]

theorem length_padTo4 (b : Bytes) : (padTo4 b).length = alignTo b.length 4 := by
  have room : b.length ≤ alignTo b.length 4 := by
    simp only [alignTo]
    omega
  rw [padTo4, List.length_append, List.length_replicate]
  omega

theorem byteAt_append (a b : Bytes) (i : Nat) (inside : i < a.length) :
    Bytes.byteAt (a ++ b) i = a.byteAt i := by
  simp [Bytes.byteAt, List.getD_eq_getElem?_getD, List.getElem?_append_left inside]

theorem u16At_append (a b : Bytes) (i : Nat) (inside : i + 1 < a.length) :
    Bytes.u16At (a ++ b) i = a.u16At i := by
  rw [Bytes.u16At, Bytes.u16At, byteAt_append a b i (by omega), byteAt_append a b (i + 1) inside]

theorem u32At_le32 (n : Nat) (rest : Bytes) : Bytes.u32At (le32 n ++ rest) 0 = uint32 n := by
  simp [Bytes.u32At, Bytes.u16At, Bytes.byteAt, le32, le16, uint32]
  omega

theorem u32At_le32_append (n : Nat) (rest : Bytes) (i : Nat) :
    Bytes.u32At (le32 n ++ rest) (4 + i) = rest.u32At i := by
  have tail : (le32 n ++ rest).drop 4 = rest := rfl
  rw [← u32At_drop, tail]

theorem u64At_le64 (n : Nat) (rest : Bytes) : Bytes.u64At (le64 n ++ rest) 0 = n % 2 ^ 64 := by
  have high : Bytes.u32At (le64 n ++ rest) 4 = uint32 (n / 2 ^ 32) := by
    rw [le64, List.append_assoc]
    exact (u32At_le32_append n _ 0).trans (u32At_le32 _ _)
  rw [Bytes.u64At, high, le64, List.append_assoc, u32At_le32]
  unfold uint32
  omega

theorem slice_cons (b : Bytes) (i len : Nat) (inside : i < b.length) :
    b.slice i (len + 1) = b[i] :: b.slice (i + 1) len := by
  rw [Bytes.slice, List.drop_eq_getElem_cons inside, List.take_succ_cons, Bytes.slice]

theorem length_slice (b : Bytes) (i len : Nat) (inside : i + len ≤ b.length) :
    (b.slice i len).length = len := by
  rw [Bytes.slice, List.length_take, List.length_drop]
  omega

theorem drop_eq_slice_append (b : Bytes) (i len : Nat) :
    b.drop i = b.slice i len ++ b.drop (i + len) := by
  rw [Bytes.slice, ← List.drop_drop, List.take_append_drop]

/-- Pieces of one length can be found by their index. -/
theorem drop_flatMap {α : Type*} (piece : α → Bytes) (width : Nat)
    (fixed : ∀ x, (piece x).length = width) (items : List α) (i : Nat) (below : i < items.length) :
    (items.flatMap piece).drop (width * i) =
      piece items[i] ++ (items.drop (i + 1)).flatMap piece := by
  induction items generalizing i with
  | nil => simp at below
  | cons x rest ih =>
    cases i with
    | zero => simp
    | succ i =>
      have later := ih i (by simpa using below)
      rw [List.flatMap_cons, Nat.mul_succ, Nat.add_comm, ← List.drop_drop, ← fixed x,
        List.drop_left, fixed x, later]
      simp

theorem u32At_flatMap (words : List Nat) (i : Nat) (below : i < words.length) :
    Bytes.u32At (words.flatMap le32) (4 * i) = uint32 words[i] := by
  have there := u32At_drop (words.flatMap le32) (4 * i) 0
  rw [drop_flatMap le32 4 length_le32 words i below, u32At_le32, Nat.add_zero] at there
  exact there.symm

theorem u16At_flatMap (words : List Nat) (i : Nat) (below : i < words.length) :
    Bytes.u16At (words.flatMap le16) (2 * i) = words[i] % 65536 := by
  have there := u16At_drop (words.flatMap le16) (2 * i) 0
  rw [drop_flatMap le16 2 length_le16 words i below, Nat.add_zero] at there
  refine there.symm.trans ?_
  simp [Bytes.u16At, Bytes.byteAt, le16]
  omega

theorem setWord_append (a b : Bytes) (i n : Nat) :
    setWord (a ++ b) (a.length + i) n = a ++ setWord b i n := by
  have front : (a ++ b).take (a.length + i) = a ++ b.take i := List.take_length_add_append i
  have behind : (a ++ b).drop (a.length + i + 4) = b.drop (i + 4) := by
    rw [Nat.add_assoc, List.drop_length_add_append]
  rw [setWord, setWord, front, behind, List.append_assoc, List.append_assoc, List.append_assoc]

/-- Overwriting a word of a table of words. -/
theorem setWord_flatMap (words : List Nat) (i n : Nat) (below : i < words.length) :
    setWord (words.flatMap le32) (4 * i) n = (words.set i n).flatMap le32 := by
  induction words generalizing i with
  | nil => simp at below
  | cons w rest ih =>
    cases i with
    | zero => rfl
    | succ i =>
      have place : 4 * (i + 1) = (le32 w).length + 4 * i := by
        rw [length_le32]
        omega
      rw [List.flatMap_cons, place, setWord_append, ih i (by simpa using below), List.set_cons_succ,
        List.flatMap_cons]

/-! ### Alignment -/

theorem dvd_alignTo (n a : Nat) : a ∣ alignTo n a :=
  Nat.dvd_mul_left a _

theorem le_alignTo (n a : Nat) (positive : 0 < a) : n ≤ alignTo n a := by
  simp only [alignTo]
  have split := Nat.div_add_mod (n + a - 1) a
  have below := Nat.mod_lt (n + a - 1) positive
  rw [Nat.mul_comm]
  omega

theorem alignTo_lt (n a : Nat) (positive : 0 < a) : alignTo n a < n + a := by
  simp only [alignTo]
  have below := Nat.div_mul_le_self (n + a - 1) a
  omega

theorem alignTo_of_dvd (n a : Nat) (positive : 0 < a) (divides : a ∣ n) : alignTo n a = n := by
  obtain ⟨k, rfl⟩ := divides
  simp only [alignTo]
  have same : a * k + a - 1 = (a - 1) + a * k := by omega
  rw [same, Nat.add_mul_div_left _ _ positive, Nat.div_eq_of_lt (by omega), Nat.zero_add,
    Nat.mul_comm]

theorem alignTo_four_add (n k : Nat) (divides : 4 ∣ n) : alignTo (n + k) 4 = n + alignTo k 4 := by
  obtain ⟨q, rfl⟩ := divides
  simp only [alignTo]
  omega

theorem alignTo_mono (m n a : Nat) (le : m ≤ n) : alignTo m a ≤ alignTo n a := by
  simp only [alignTo]
  exact Nat.mul_le_mul_right a (Nat.div_le_div_right (by omega))

end LlvmLd
