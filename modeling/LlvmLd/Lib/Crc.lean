import Mathlib.Logic.Function.Iterate
import LlvmLd.Lib.Bytes

/-!
Reflected cyclic redundancy checks of any width. The shift step is linear over xor, and shifting
out zero bits is a plain shift; the byte steps and derived tables rest on these two facts.
-/

namespace LlvmLd.Crc

variable {w : Nat} (poly : BitVec w)

def shiftStep (x : BitVec w) : BitVec w :=
  if x.getLsbD 0 then poly ^^^ (x >>> 1) else x >>> 1

def shifts (n : Nat) : BitVec w → BitVec w := (shiftStep poly)^[n]

/-- One message bit enters at the low end. -/
def feedBit (x : BitVec w) (bit : Bool) : BitVec w :=
  shiftStep poly (x ^^^ BitVec.ofNat w bit.toNat)

/-- The message bits of a byte, low bit first. -/
def bits (b : UInt8) : List Bool := (List.range 8).map b.toNat.testBit

/-- The register after the message bits of `data`, one at a time. -/
def bitSerial (x : BitVec w) (data : Bytes) : BitVec w :=
  (data.flatMap bits).foldl (feedBit poly) x

def byteStep (x : BitVec w) (b : UInt8) : BitVec w :=
  shifts poly 8 (x ^^^ BitVec.ofNat w b.toNat)

/-! ### Linearity -/

theorem shiftStep_xor (x y : BitVec w) :
    shiftStep poly (x ^^^ y) = shiftStep poly x ^^^ shiftStep poly y := by
  unfold shiftStep
  rw [BitVec.getLsbD_xor, BitVec.ushiftRight_xor_distrib]
  cases x.getLsbD 0 <;> cases y.getLsbD 0
  · rfl
  · simp only [Bool.bne_true, Bool.not_false, ite_true, Bool.false_eq_true, ite_false]
    ac_rfl
  · simp only [Bool.bne_false, ite_true, Bool.false_eq_true, ite_false]
    ac_rfl
  · -- the two copies of the polynomial cancel
    have cancel : poly ^^^ (x >>> 1) ^^^ (poly ^^^ (y >>> 1)) =
        (poly ^^^ poly) ^^^ ((x >>> 1) ^^^ (y >>> 1)) := by ac_rfl
    simp only [Bool.bne_true, Bool.not_true, ite_true, Bool.false_eq_true, ite_false]
    rw [cancel, BitVec.xor_self, BitVec.zero_xor]

theorem shifts_zero (x : BitVec w) : shifts poly 0 x = x := rfl

theorem shifts_succ (n : Nat) (x : BitVec w) :
    shifts poly (n + 1) x = shifts poly n (shiftStep poly x) := rfl

theorem shifts_add (m n : Nat) (x : BitVec w) :
    shifts poly (m + n) x = shifts poly m (shifts poly n x) :=
  Function.iterate_add_apply _ m n x

theorem shifts_xor (n : Nat) (x y : BitVec w) :
    shifts poly n (x ^^^ y) = shifts poly n x ^^^ shifts poly n y := by
  induction n generalizing x y with
  | zero => rfl
  | succ n ih => rw [shifts_succ, shifts_succ, shifts_succ, shiftStep_xor, ih]

/-- Zero bits at the low end are shifted out and leave no trace of the polynomial. -/
theorem shifts_of_low_zero (n : Nat) (x : BitVec w) (low : ∀ i < n, x.getLsbD i = false) :
    shifts poly n x = x >>> n := by
  induction n generalizing x with
  | zero => simp [shifts_zero]
  | succ n ih =>
    have step : shiftStep poly x = x >>> 1 := by
      rw [shiftStep, low 0 (by omega)]
      rfl
    rw [shifts_succ, step, ih]
    · rw [← BitVec.shiftRight_add, Nat.add_comm]
    · intro i below
      rw [BitVec.getLsbD_ushiftRight, Nat.add_comm]
      exact low (i + 1) (by omega)

theorem shifts_shiftLeft (n : Nat) (x : BitVec w) (inside : n ≤ w)
    (fits : x.toNat < 2 ^ (w - n)) : shifts poly n (x <<< n) = x := by
  rw [shifts_of_low_zero]
  · apply BitVec.eq_of_toNat_eq
    have bound : x.toNat * 2 ^ n < 2 ^ w := by
      calc x.toNat * 2 ^ n < 2 ^ (w - n) * 2 ^ n :=
            Nat.mul_lt_mul_of_pos_right fits (Nat.two_pow_pos n)
        _ = 2 ^ w := by rw [← Nat.pow_add, Nat.sub_add_cancel inside]
    rw [BitVec.toNat_ushiftRight, BitVec.toNat_shiftLeft, Nat.shiftLeft_eq, Nat.mod_eq_of_lt bound,
      Nat.shiftRight_eq_div_pow, Nat.mul_div_cancel _ (Nat.two_pow_pos n)]
  · intro i below
    simp [below]

/-! ### Bytes and bits -/

private theorem ofNat_split (v : Nat) :
    BitVec.ofNat w v = BitVec.ofNat w (v.testBit 0).toNat ^^^ (BitVec.ofNat w (v / 2) <<< 1) := by
  apply BitVec.eq_of_getLsbD_eq
  intro i below
  rw [BitVec.getLsbD_xor, BitVec.getLsbD_shiftLeft, BitVec.getLsbD_ofNat, BitVec.getLsbD_ofNat,
    BitVec.getLsbD_ofNat]
  cases i with
  | zero => cases v.testBit 0 <;> simp [below]
  | succ i => cases v.testBit 0 <;> simp [below, Nat.testBit_add_one, show i < w by omega]

/-- Shifting `n` bits of a message word at once is feeding them one at a time. -/
theorem shifts_xor_eq_foldl (n v : Nat) (x : BitVec w) (inside : n ≤ w) (fits : v < 2 ^ n) :
    shifts poly n (x ^^^ BitVec.ofNat w v) =
      ((List.range n).map v.testBit).foldl (feedBit poly) x := by
  induction n generalizing v x with
  | zero =>
    have zero : v = 0 := by simpa using fits
    simp [zero, shifts_zero]
  | succ n ih =>
    have half : v / 2 < 2 ^ n := by
      rw [Nat.pow_succ] at fits
      omega
    -- shifting down what was shifted up meets no set bit, so the polynomial stays out
    have shifted : shifts poly 1 (BitVec.ofNat w (v / 2) <<< 1) = BitVec.ofNat w (v / 2) := by
      apply shifts_shiftLeft poly 1 _ (by omega)
      rw [BitVec.toNat_ofNat]
      calc v / 2 % 2 ^ w ≤ v / 2 := Nat.mod_le _ _
        _ < 2 ^ n := half
        _ ≤ 2 ^ (w - 1) := Nat.pow_le_pow_right (by omega) (by omega)
    -- one step feeds the low bit and moves the rest down
    have step : shiftStep poly (x ^^^ BitVec.ofNat w v) =
        feedBit poly x (v.testBit 0) ^^^ BitVec.ofNat w (v / 2) := by
      rw [ofNat_split v, ← BitVec.xor_assoc, shiftStep_xor, feedBit]
      exact congrArg _ shifted
    have later : v.testBit ∘ Nat.succ = (v / 2).testBit := funext (Nat.testBit_succ v)
    rw [shifts_succ, step, ih (v / 2) _ (by omega) half, List.range_succ_eq_map, List.map_cons,
      List.map_map, later, List.foldl_cons]

theorem byteStep_eq_foldl (x : BitVec w) (b : UInt8) (wide : 8 ≤ w) :
    byteStep poly x b = (bits b).foldl (feedBit poly) x :=
  shifts_xor_eq_foldl poly 8 b.toNat x wide b.toNat_lt

theorem foldl_byteStep (x : BitVec w) (data : Bytes) (wide : 8 ≤ w) :
    data.foldl (byteStep poly) x = bitSerial poly x data := by
  rw [bitSerial, List.foldl_flatMap]
  congr 1
  funext y b
  exact byteStep_eq_foldl poly y b wide

/-! ### Words of several bytes -/

/-- A word of bytes, low byte first. -/
def ofBytes (w : Nat) : Bytes → BitVec w
  | [] => 0
  | b :: rest => BitVec.ofNat w b.toNat ^^^ (ofBytes w rest <<< 8)

theorem toNat_ofBytes_lt (data : Bytes) : (ofBytes w data).toNat < 2 ^ (8 * data.length) := by
  induction data with
  | nil => simp [ofBytes]
  | cons b rest ih =>
    rw [ofBytes, BitVec.toNat_xor, List.length_cons]
    -- the first byte and the rest above it both stay below the bound
    apply Nat.xor_lt_two_pow
    · calc (BitVec.ofNat w b.toNat).toNat ≤ b.toNat := by
            rw [BitVec.toNat_ofNat]
            exact Nat.mod_le _ _
        _ < 2 ^ 8 := b.toNat_lt
        _ ≤ 2 ^ (8 * (rest.length + 1)) := Nat.pow_le_pow_right (by omega) (by omega)
    · calc (ofBytes w rest <<< 8).toNat ≤ (ofBytes w rest).toNat * 2 ^ 8 := by
            rw [BitVec.toNat_shiftLeft, Nat.shiftLeft_eq]
            exact Nat.mod_le _ _
        _ < 2 ^ (8 * rest.length) * 2 ^ 8 := Nat.mul_lt_mul_of_pos_right ih (by omega)
        _ = 2 ^ (8 * (rest.length + 1)) := by rw [← Nat.pow_add, Nat.mul_succ]

/-- The bytes behind the first one reach the low end after eight shifts. -/
theorem shifts_ofBytes_cons (n : Nat) (b : UInt8) (rest : Bytes)
    (inside : 8 * (rest.length + 1) ≤ w) :
    shifts poly (n + 8) (ofBytes w (b :: rest)) =
      shifts poly (n + 8) (BitVec.ofNat w b.toNat) ^^^ shifts poly n (ofBytes w rest) := by
  have small : (ofBytes w rest).toNat < 2 ^ (w - 8) :=
    Nat.lt_of_lt_of_le (toNat_ofBytes_lt rest) (Nat.pow_le_pow_right (by omega) (by omega))
  rw [ofBytes, shifts_xor, shifts_add poly n 8 (ofBytes w rest <<< 8),
    shifts_shiftLeft poly 8 _ (by omega) small]

/-- The bytes of one word can enter together. -/
theorem foldl_byteStep_eq_shifts (x : BitVec w) (data : Bytes) (inside : 8 * data.length ≤ w) :
    data.foldl (byteStep poly) x = shifts poly (8 * data.length) (x ^^^ ofBytes w data) := by
  induction data generalizing x with
  | nil => simp [ofBytes, shifts_zero]
  | cons b rest ih =>
    rw [List.length_cons] at inside ⊢
    rw [List.foldl_cons, ih _ (by omega), Nat.mul_succ, shifts_xor poly _ x,
      shifts_ofBytes_cons poly _ b rest inside, shifts_xor, byteStep, ← shifts_add, shifts_xor]
    ac_rfl

theorem split_low_byte (x : BitVec w) : x = (x &&& BitVec.ofNat w 255) ^^^ ((x >>> 8) <<< 8) := by
  apply BitVec.eq_of_getLsbD_eq
  intro i below
  have mask : (BitVec.ofNat w 255).getLsbD i = decide (i < 8) := by
    rw [BitVec.getLsbD_ofNat, show 255 = 2 ^ 8 - 1 by rfl, Nat.testBit_two_pow_sub_one]
    simp [below]
  rw [BitVec.getLsbD_xor, BitVec.getLsbD_and, mask, BitVec.getLsbD_shiftLeft,
    BitVec.getLsbD_ushiftRight]
  by_cases low : i < 8
  · simp [low]
  · simp [low, below, Nat.add_sub_cancel' (Nat.not_lt.mp low)]

/-- The low byte of a word enters through a table, the others move down. -/
theorem shifts_split (n : Nat) (x : BitVec w) (wide : 8 ≤ w) :
    shifts poly (n + 8) x =
      shifts poly (n + 8) (x &&& BitVec.ofNat w 255) ^^^ shifts poly n (x >>> 8) := by
  have small : (x >>> 8).toNat < 2 ^ (w - 8) := by
    rw [BitVec.toNat_ushiftRight, Nat.shiftRight_eq_div_pow]
    apply Nat.div_lt_of_lt_mul
    rw [← Nat.pow_add, Nat.add_sub_cancel' wide]
    exact x.isLt
  calc shifts poly (n + 8) x
      = shifts poly (n + 8) ((x &&& BitVec.ofNat w 255) ^^^ ((x >>> 8) <<< 8)) := by rw [← split_low_byte]
    _ = _ := by
      rw [shifts_xor, shifts_add poly n 8 ((x >>> 8) <<< 8), shifts_shiftLeft poly 8 _ wide small]

end LlvmLd.Crc
