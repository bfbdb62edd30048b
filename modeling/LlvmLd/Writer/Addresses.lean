import LlvmLd.Lib.Fields
import LlvmLd.Writer.Relocation

/-!
Relocations that compute addresses, against what the instructions and fields they patch mean: page
pairs and `adr` of ARM64, `movw`/`movt` pairs of ARM, and 32-bit fields of all machines.
-/

namespace LlvmLd.Writer

open Memory Fields

/-! ### Immediates -/

/-- immhi:immlo of `adr` and `adrp`. -/
def decodeAdr (word : BitVec 32) : BitVec 21 := field 21 word 29 2 0 ||| field 21 word 5 19 2

/-- imm12 of `add` and of loads and stores. -/
def decodeImm12 (word : BitVec 32) : BitVec 12 := field 12 word 10 12 0

/-- The scale of a load or store: the size field, or opc<1>:size for SIMD registers. -/
def loadScale (word : BitVec 32) : Nat :=
  (field 2 word 30 2 0).toNat + if word.getLsbD 26 && word.getLsbD 23 then 4 else 0

/-- The byte offset that the second instruction of a pair adds. -/
def lowOffset (load : Bool) (word : BitVec 32) : BitVec 64 :=
  if load then (decodeImm12 word).setWidth 64 <<< loadScale word
  else (decodeImm12 word).setWidth 64

/-- imm4:i:imm3:imm8 of `movw` and `movt`. -/
def decodeMov (hw1 hw2 : BitVec 16) : BitVec 16 :=
  field 16 hw1 0 4 12 ||| field 16 hw1 10 1 11 ||| field 16 hw2 12 3 8 ||| field 16 hw2 0 8 0

private theorem decodeAdr_addend (orig : BitVec 32) :
    (((orig >>> 29) &&& 0x3) ||| ((orig >>> 3) &&& 0x1FFFFC)).setWidth 21 = decodeAdr orig := by
  apply BitVec.eq_of_getLsbD_eq
  intro i below
  interval_cases i
  all_goals simp [-BitVec.getLsbD_eq_getElem, decodeAdr, getLsbD_field]

private theorem decodeAdr_encoded (orig : BitVec 32) (imm : BitVec 64) :
    decodeAdr ((orig &&& ~~~0x60FFFFE0#32) ||| ((imm &&& 0x3) <<< 29).setWidth 32 |||
      ((imm &&& 0x1FFFFC) <<< 3).setWidth 32) = imm.setWidth 21 := by
  apply BitVec.eq_of_getLsbD_eq
  intro i below
  interval_cases i
  all_goals simp [-BitVec.getLsbD_eq_getElem, decodeAdr, getLsbD_field]

private theorem decodeImm12_encoded (orig : BitVec 32) (z : BitVec 64) :
    decodeImm12 ((orig &&& ~~~0x3FFC00#32) ||| (z <<< 10).setWidth 32) = z.setWidth 12 := by
  apply BitVec.eq_of_getLsbD_eq
  intro i below
  interval_cases i
  all_goals simp [-BitVec.getLsbD_eq_getElem, decodeImm12, getLsbD_field]

private theorem ldrSize_eq (word : BitVec 32) : ldrSize word = loadScale word := by
  have size : field 2 word 30 2 0 = (word >>> 30).setWidth 2 := by
    apply BitVec.eq_of_getLsbD_eq
    intro i below
    interval_cases i
    all_goals simp [-BitVec.getLsbD_eq_getElem, getLsbD_field]
  -- bits 26 and 23 mark a load of a vector register, which takes 16 bytes
  have simd : word &&& 0x4800000 = 0x4800000 ↔
      (word.getLsbD 26 && word.getLsbD 23) = true := by
    constructor
    · intro marked
      have bit26 := congrArg (fun x : BitVec 32 => x.getLsbD 26) marked
      have bit23 := congrArg (fun x : BitVec 32 => x.getLsbD 23) marked
      simp only [BitVec.getLsbD_and] at bit26 bit23
      rw [Bool.and_eq_true]
      exact ⟨(Bool.and_eq_true _ _).mp bit26 |>.1, (Bool.and_eq_true _ _).mp bit23 |>.1⟩
    · intro bits
      obtain ⟨bit26, bit23⟩ := (Bool.and_eq_true _ _).mp bits
      apply BitVec.eq_of_getLsbD_eq
      intro i below
      interval_cases i
      all_goals simp [-BitVec.getLsbD_eq_getElem, bit26, bit23]
  have small := word.isLt
  rw [ldrSize, loadScale, size, BitVec.toNat_setWidth, BitVec.toNat_ushiftRight,
    Nat.shiftRight_eq_div_pow, Nat.mod_eq_of_lt (show word.toNat / 2 ^ 30 < 2 ^ 2 by omega)]
  by_cases bits : (word.getLsbD 26 && word.getLsbD 23) = true
  · rw [if_pos (simd.mpr bits), if_pos bits]
  · rw [if_neg (fun marked => bits (simd.mp marked)), if_neg bits]

private theorem loadScale_le (word : BitVec 32) : loadScale word ≤ 7 := by
  have size := (field 2 word 30 2 0).isLt
  simp only [loadScale]
  split <;> omega

/-- Replacing imm12 keeps the scale. -/
theorem loadScale_encoded (orig : BitVec 32) (z : BitVec 64) (small : z.toNat < 4096) :
    loadScale ((orig &&& ~~~0x3FFC00#32) ||| (z <<< 10).setWidth 32) = loadScale orig := by
  have clear : ∀ i, 12 ≤ i → z.getLsbD i = false := fun i => getLsbD_of_lt z 12 i small
  have size : field 2 ((orig &&& ~~~0x3FFC00#32) ||| (z <<< 10).setWidth 32) 30 2 0 =
      field 2 orig 30 2 0 := by
    apply BitVec.eq_of_getLsbD_eq
    intro i below
    interval_cases i
    all_goals simp [-BitVec.getLsbD_eq_getElem, getLsbD_field, clear]
  rw [loadScale, loadScale, size]
  simp [-BitVec.getLsbD_eq_getElem, clear]

/-! ### Page pairs -/

/-- The word that `applyArm64Imm` makes of `orig`. -/
def immWord (imm : BitVec 64) (rangeLimit : Nat) (orig : BitVec 32) : BitVec 32 :=
  let imm := imm + ((orig >>> 10) &&& 0xFFF).setWidth 64
  (orig &&& ~~~0x3FFC00#32) ||| ((imm &&& (0xFFF >>> rangeLimit)) <<< 10).setWidth 32

private theorem toNat_decodeImm12 (word : BitVec 32) :
    (decodeImm12 word).toNat = word.toNat / 2 ^ 10 % 2 ^ 12 :=
  toNat_field word 10 12 (by omega)

/-- The immediate after the addition, cut by the range limit. -/
theorem toNat_limited (imm : BitVec 64) (k : Nat) (small : k ≤ 7) (orig : BitVec 32) :
    ((imm + ((orig >>> 10) &&& 0xFFF).setWidth 64) &&& (0xFFF >>> k)).toNat =
      (imm.toNat + (decodeImm12 orig).toNat) % 2 ^ (12 - k) := by
  have old : (((orig >>> 10) &&& 0xFFF).setWidth 64).toNat = (decodeImm12 orig).toNat := by
    rw [toNat_decodeImm12, BitVec.toNat_setWidth, BitVec.toNat_and, BitVec.toNat_ushiftRight,
      Nat.shiftRight_eq_div_pow]
    change (orig.toNat / 2 ^ 10 &&& (2 ^ 12 - 1)) % 2 ^ 64 = _
    rw [Nat.and_two_pow_sub_one_eq_mod]
    omega
  have mask : (0xFFF >>> k : BitVec 64).toNat = 2 ^ (12 - k) - 1 := by
    interval_cases k <;> rfl
  rw [BitVec.toNat_and, mask, Nat.and_two_pow_sub_one_eq_mod, BitVec.toNat_add, old]
  exact Nat.mod_mod_of_dvd _ (Nat.pow_dvd_pow 2 (by omega))

/-- The shift that an instruction of a pair applies to its immediate. -/
def lowScale (load : Bool) (word : BitVec 32) : Nat := if load then loadScale word else 0

private theorem lowOffset_eq (load : Bool) (word : BitVec 32) :
    lowOffset load word = (decodeImm12 word).setWidth 64 <<< lowScale load word := by
  cases load with
  | false => simp [lowOffset, lowScale]
  | true => simp [lowOffset, lowScale]

private theorem lowScale_le (load : Bool) (word : BitVec 32) : lowScale load word ≤ 7 := by
  cases load with
  | false => simp [lowScale]
  | true => exact loadScale_le word

private theorem toNat_lowOffset (load : Bool) (word : BitVec 32) : (lowOffset load word).toNat =
    (decodeImm12 word).toNat * 2 ^ lowScale load word := by
  have scale := lowScale_le load word
  have imm := (decodeImm12 word).isLt
  rw [lowOffset_eq, BitVec.toNat_shiftLeft, BitVec.toNat_setWidth, Nat.shiftLeft_eq,
    Nat.mod_eq_of_lt (show (decodeImm12 word).toNat < 2 ^ 64 by omega)]
  apply Nat.mod_eq_of_lt
  generalize lowScale load word = k at scale
  interval_cases k <;> omega

/-- The second instruction adds the low 12 bits of the target. -/
theorem lowOffset_immWord (load : Bool) (s : BitVec 64) (orig : BitVec 32)
    (small : (lowOffset load orig).toNat < 4096)
    (aligned : s.toNat % 4096 % 2 ^ lowScale load orig = 0) :
    (lowOffset load (immWord ((s &&& 0xfff) >>> lowScale load orig) (lowScale load orig) orig)).toNat =
      (s.toNat + (lowOffset load orig).toNat) % 4096 := by
  have scale := lowScale_le load orig
  have limited := toNat_limited ((s &&& 0xfff) >>> lowScale load orig) (lowScale load orig) scale orig
  have cut : ((s &&& 0xfff) >>> lowScale load orig).toNat =
      s.toNat % 4096 / 2 ^ lowScale load orig := by
    rw [BitVec.toNat_ushiftRight, Nat.shiftRight_eq_div_pow, BitVec.toNat_and]
    change (s.toNat &&& (2 ^ 12 - 1)) / _ = _
    rw [Nat.and_two_pow_sub_one_eq_mod]
  have below : ((s &&& 0xfff) >>> lowScale load orig +
      ((orig >>> 10) &&& 0xFFF).setWidth 64 &&& (0xFFF >>> lowScale load orig)).toNat < 4096 := by
    rw [limited]
    exact Nat.lt_of_lt_of_le (Nat.mod_lt _ (Nat.two_pow_pos _))
      (Nat.pow_le_pow_right (n := 2) (by omega) (show 12 - lowScale load orig ≤ 12 by omega))
  -- the field that is written does not reach the bits that give the size
  have keeps : lowScale load (immWord ((s &&& 0xfff) >>> lowScale load orig)
      (lowScale load orig) orig) = lowScale load orig := by
    cases load with
    | false => rfl
    | true => exact loadScale_encoded orig _ below
  have imm : (decodeImm12 (immWord ((s &&& 0xfff) >>> lowScale load orig)
      (lowScale load orig) orig)).toNat =
      (s.toNat % 4096 / 2 ^ lowScale load orig + (decodeImm12 orig).toNat) %
        2 ^ (12 - lowScale load orig) := by
    rw [immWord, decodeImm12_encoded, BitVec.toNat_setWidth, Nat.mod_eq_of_lt below, limited, cut]
  rw [toNat_lowOffset, keeps, imm]
  rw [toNat_lowOffset] at small ⊢
  generalize lowScale load orig = k at *
  -- with the scale known, cutting and scaling are linear
  interval_cases k <;> omega

/-- The word that `applyArm64Addr` makes of `orig`. -/
def adrWord (s p : BitVec 64) (shift : Nat) (orig : BitVec 32) : BitVec 32 :=
  let addend := (((orig >>> 29) &&& 0x3) ||| ((orig >>> 3) &&& 0x1FFFFC)).setWidth 21
  let imm := ((s + addend.signExtend 64) >>> shift) - (p >>> shift)
  let immLo := ((imm &&& 0x3) <<< 29).setWidth 32
  let immHi := ((imm &&& 0x1FFFFC) <<< 3).setWidth 32
  (orig &&& ~~~0x60FFFFE0#32) ||| immLo ||| immHi

private theorem decodeAdr_adrWord (s p : BitVec 64) (shift : Nat) (orig : BitVec 32) :
    decodeAdr (adrWord s p shift orig) =
      (((s + (decodeAdr orig).signExtend 64) >>> shift) - (p >>> shift)).setWidth 21 := by
  rw [adrWord, decodeAdr_encoded, decodeAdr_addend]

/-- The page of the target as a distance from the page of the place, in 52 bits. -/
def pageDistance (target p : BitVec 64) : BitVec 52 := ((target >>> 12) - (p >>> 12)).setWidth 52

private theorem setWidth_signExtend {k w v : Nat} (x : BitVec k) (le : v ≤ w) :
    (x.signExtend w).setWidth v = x.signExtend v := by
  apply BitVec.eq_of_getLsbD_eq
  intro i below
  have inside : i < w := by omega
  simp [-BitVec.getLsbD_eq_getElem, BitVec.getLsbD_signExtend, below, inside]

/-- Page and offset give the target just if the distance of the pages fits into 21 bits. -/
theorem page_target_iff (target p low : BitVec 64) (offset : low.toNat = target.toNat % 4096) :
    (p >>> 12 <<< 12) +
        ((((target >>> 12) - (p >>> 12)).setWidth 21).signExtend 64 <<< 12) + low = target ↔
      Fits 21 (pageDistance target p).toInt := by
  have cut : (pageDistance target p).setWidth 21 =
      ((target >>> 12) - (p >>> 12)).setWidth 21 :=
    BitVec.setWidth_setWidth_of_le _ (by omega)
  rw [← signExtend_setWidth_iff 21 _ (by omega) (by omega), cut,
    ← setWidth_signExtend _ (show 52 ≤ 64 by omega), pageDistance]
  -- the pages differ by what is written, up to the 52 bits of a page number
  have distance : ((target >>> 12) - (p >>> 12)).toNat =
      (2 ^ 64 - p.toNat / 2 ^ 12 + target.toNat / 2 ^ 12) % 2 ^ 64 := by
    rw [BitVec.toNat_sub, BitVec.toNat_ushiftRight, BitVec.toNat_ushiftRight,
      Nat.shiftRight_eq_div_pow, Nat.shiftRight_eq_div_pow]
  generalize (((target >>> 12) - (p >>> 12)).setWidth 21).signExtend 64 = read
  generalize (target >>> 12) - (p >>> 12) = written at distance ⊢
  have place := p.isLt
  have wide := target.isLt
  rw [← BitVec.toNat_inj, ← BitVec.toNat_inj, BitVec.toNat_setWidth, BitVec.toNat_setWidth,
    BitVec.toNat_add, BitVec.toNat_add, BitVec.toNat_shiftLeft, BitVec.toNat_shiftLeft,
    BitVec.toNat_ushiftRight, Nat.shiftLeft_eq, Nat.shiftLeft_eq, Nat.shiftRight_eq_div_pow, offset,
    distance]
  omega

/-- An `adrp` and the instruction that adds the low bits, with one symbol and one byte addend. -/
structure PagePair where
  args : RelocArgs
  lowArgs : RelocArgs
  m : Mem
  high : Int
  low : Int
  load : Bool
  addend : BitVec 12
  same_symbol : lowArgs.s = args.s
  apart : high + 4 ≤ low ∨ low + 4 ≤ high
  high_addend : decodeAdr (read32 m high) = addend.setWidth 21
  low_addend : lowOffset load (read32 m low) = addend.setWidth 64

def PagePair.target (pair : PagePair) : BitVec 64 := pair.args.s + pair.addend.setWidth 64

def PagePair.patched (pair : PagePair) : Patched :=
  let high := applyRelARM64 pair.args pair.m pair.high relArm64PageBaseRel21
  let low := applyRelARM64 pair.lowArgs high.1 pair.low
    (if pair.load then relArm64PageOffset12L else relArm64PageOffset12A)
  (low.1, high.2 ++ low.2)

/-- The address that the two instructions compute. -/
def PagePair.computed (pair : PagePair) (m : Mem) : BitVec 64 :=
  (pair.args.p >>> 12 <<< 12) + ((decodeAdr (read32 m pair.high)).signExtend 64 <<< 12) +
    lowOffset pair.load (read32 m pair.low)

def PagePair.Exact (pair : PagePair) : Prop :=
  pair.patched.2 ≠ [] ∨ pair.computed pair.patched.1 = pair.target

/-- The access is misaligned, or the page is near enough. -/
def PagePair.Near (pair : PagePair) : Prop :=
  pair.args.s.toNat % 4096 % 2 ^ lowScale pair.load (read32 pair.m pair.low) ≠ 0 ∨
    Fits 21 (pageDistance pair.target pair.args.p).toInt

private theorem misaligned_iff (s : BitVec 64) (k : Nat) (small : k ≤ 7) :
    (s &&& (0xfff : BitVec 64)) &&& (((1 <<< k : Nat) : BitVec 64) - 1) ≠ 0 ↔ s.toNat % 4096 % 2 ^ k ≠ 0 := by
  have mask : (((1 <<< k : Nat) : BitVec 64) - 1).toNat = 2 ^ k - 1 := by
    interval_cases k <;> rfl
  rw [not_iff_not, ← BitVec.toNat_inj, BitVec.toNat_and, BitVec.toNat_and, mask]
  change (s.toNat &&& (2 ^ 12 - 1)) &&& (2 ^ k - 1) = 0 ↔ _
  rw [Nat.and_two_pow_sub_one_eq_mod, Nat.and_two_pow_sub_one_eq_mod]

/-- What the pair is patched to. -/
theorem PagePair.patched_eq (pair : PagePair) : pair.patched =
    (modify32 (modify32 pair.m pair.high (adrWord pair.args.s pair.args.p 12)) pair.low
      (immWord ((pair.args.s &&& 0xfff) >>> lowScale pair.load (read32 pair.m pair.low))
        (lowScale pair.load (read32 pair.m pair.low))),
      if pair.load = true ∧
          pair.args.s.toNat % 4096 % 2 ^ lowScale pair.load (read32 pair.m pair.low) ≠ 0 then
        ["misaligned ldr/str offset"] else []) := by
  obtain ⟨args, lowArgs, m, high, low, load, addend, same_symbol, apart, -, -⟩ := pair
  -- The instructions lie apart, so the load reads its scale as if nothing had been patched.
  have untouched := read32_modify32_apart m high low (adrWord args.s args.p 12) apart
  cases load with
  | false =>
    rw [PagePair.patched]
    dsimp only
    rw [if_neg (by simp), if_neg (by simp)]
    change (applyArm64Imm (modify32 m high (adrWord args.s args.p 12)) low (lowArgs.s &&& 0xfff) 0,
      [] ++ []) = _
    rw [same_symbol]
    rfl
  | true =>
    have scale := lowScale_le true (read32 m low)
    rw [PagePair.patched]
    dsimp only
    rw [if_pos rfl]
    change ((applyArm64Ldr (modify32 m high (adrWord args.s args.p 12)) low (lowArgs.s &&& 0xfff)).1,
      [] ++ (applyArm64Ldr (modify32 m high (adrWord args.s args.p 12)) low
        (lowArgs.s &&& 0xfff)).2) = _
    unfold applyArm64Ldr
    rw [untouched, same_symbol, ldrSize_eq]
    dsimp only
    have errors := misaligned_iff args.s (lowScale true (read32 m low)) scale
    rw [show lowScale true (read32 m low) = loadScale (read32 m low) from rfl] at errors ⊢
    by_cases misaligned : args.s.toNat % 4096 % 2 ^ loadScale (read32 m low) ≠ 0
    · rw [if_pos (errors.mpr misaligned), if_pos ⟨rfl, misaligned⟩]
      rfl
    · rw [if_neg (fun h => misaligned (errors.mp h)), if_neg (fun h => misaligned h.2)]
      rfl

/-- A byte addend is not negative. -/
theorem signExtend_addend (addend : BitVec 12) :
    (addend.setWidth 21).signExtend 64 = addend.setWidth 64 := by
  have sign : (addend.setWidth 21).msb = false := by
    rw [BitVec.msb_eq_getLsbD_last]
    exact getLsbD_of_lt _ 12 _ (by rw [BitVec.toNat_setWidth]; omega) (by omega)
  have small := addend.isLt
  rw [BitVec.signExtend_eq_setWidth_of_msb_false sign]
  apply BitVec.eq_of_toNat_eq
  rw [BitVec.toNat_setWidth, BitVec.toNat_setWidth, BitVec.toNat_setWidth]
  omega

private theorem PagePair.computed_iff (pair : PagePair)
    (aligned : pair.args.s.toNat % 4096 % 2 ^ lowScale pair.load (read32 pair.m pair.low) = 0) :
    pair.computed pair.patched.1 = pair.target ↔
      Fits 21 (pageDistance pair.target pair.args.p).toInt := by
  rw [PagePair.patched_eq, PagePair.computed]
  dsimp only
  have apart : pair.low + 4 ≤ pair.high ∨ pair.high + 4 ≤ pair.low := pair.apart.symm
  rw [read32_modify32_apart _ _ _ _ apart, read32_modify32, read32_modify32,
    read32_modify32_apart _ _ _ _ pair.apart, decodeAdr_adrWord, pair.high_addend, signExtend_addend]
  apply page_target_iff pair.target pair.args.p
  have small : (lowOffset pair.load (read32 pair.m pair.low)).toNat < 4096 := by
    rw [pair.low_addend, BitVec.toNat_setWidth]
    have addend := pair.addend.isLt
    omega
  rw [lowOffset_immWord _ _ _ small aligned, pair.low_addend, PagePair.target, BitVec.toNat_add]
  omega

private theorem PagePair.exact_iff (pair : PagePair) : pair.Exact ↔ pair.Near := by
  simp only [PagePair.Exact, PagePair.Near]
  by_cases aligned :
      pair.args.s.toNat % 4096 % 2 ^ lowScale pair.load (read32 pair.m pair.low) = 0
  · have quiet : pair.patched.2 = [] := by
      rw [PagePair.patched_eq]
      exact if_neg (fun h => h.2 aligned)
    rw [pair.computed_iff aligned]
    simp [quiet, aligned]
  -- an ADD scales by one, so only a load can be off its alignment
  · have load : pair.load = true := by
      by_contra plain
      apply aligned
      rw [Bool.not_eq_true] at plain
      rw [plain]
      exact Nat.mod_one _
    have reported : pair.patched.2 ≠ [] := by
      rw [PagePair.patched_eq]
      dsimp only
      rw [if_pos ⟨load, aligned⟩]
      exact List.cons_ne_nil _ _
    exact iff_of_true (.inl reported) (.inl aligned)

/-! ### `adr` -/

/-- An `adr` with the relocation that is applied to it. -/
structure AdrSite where
  args : RelocArgs
  m : Mem
  off : Int

/-- The symbol plus the addend that the instruction holds. -/
def AdrSite.target (site : AdrSite) : BitVec 64 :=
  site.args.s + (decodeAdr (read32 site.m site.off)).signExtend 64

def AdrSite.patched (site : AdrSite) : Patched :=
  applyRelARM64 site.args site.m site.off relArm64Rel21

def AdrSite.Exact (site : AdrSite) : Prop :=
  site.patched.2 ≠ [] ∨
    site.args.p + (decodeAdr (read32 site.patched.1 site.off)).signExtend 64 = site.target

def AdrSite.Near (site : AdrSite) : Prop := Fits 21 (site.target - site.args.p).toInt

private theorem AdrSite.exact_iff (site : AdrSite) : site.Exact ↔ site.Near := by
  have patched : site.patched =
      (modify32 site.m site.off (adrWord site.args.s site.args.p 0), []) := rfl
  simp only [AdrSite.Exact, AdrSite.Near]
  rw [patched, ← signExtend_setWidth_iff 21 _ (by omega) (by omega)]
  dsimp only
  rw [read32_modify32, decodeAdr_adrWord, BitVec.ushiftRight_zero, BitVec.ushiftRight_zero]
  change _ ∨ _ + ((site.target - site.args.p).setWidth 21).signExtend 64 = _ ↔ _
  rw [BitVec.add_comm, ← BitVec.eq_sub_iff_add_eq]
  simp

/-! ### `movw` and `movt` -/

/-- The halfwords that `applyMOV` makes. -/
def movBits (v op1 op2 : BitVec 16) : BitVec 16 × BitVec 16 :=
  ((op1 &&& 0xfbf0) ||| ((v &&& 0x800) >>> 1) ||| ((v >>> 12) &&& 0xf),
    (op2 &&& 0x8f00) ||| ((v &&& 0x700) <<< 4) ||| (v &&& 0xff))

private theorem decodeMov_movBits (v op1 op2 : BitVec 16) :
    decodeMov (movBits v op1 op2).1 (movBits v op1 op2).2 = v := by
  apply BitVec.eq_of_getLsbD_eq
  intro i below
  interval_cases i
  all_goals simp [-BitVec.getLsbD_eq_getElem, decodeMov, movBits, getLsbD_field]

private theorem movBits_keeps (v op1 op2 : BitVec 16) :
    (movBits v op1 op2).1 &&& 0xfbf0 = op1 &&& 0xfbf0 ∧
      (movBits v op1 op2).2 &&& 0x8f00 = op2 &&& 0x8f00 := by
  constructor
  all_goals
    apply BitVec.eq_of_getLsbD_eq
    intro i below
    interval_cases i
    all_goals simp [-BitVec.getLsbD_eq_getElem, movBits]

private theorem readMOV_eq (m : Mem) (off : Int) (movt : Bool) :
    (readMOV m off movt).1 = decodeMov (read16 m off) (read16 m (off + 2)) := by
  rw [readMOV]
  dsimp only
  generalize read16 m off = op1
  generalize read16 m (off + 2) = op2
  apply BitVec.eq_of_getLsbD_eq
  intro i below
  interval_cases i
  all_goals simp [-BitVec.getLsbD_eq_getElem, decodeMov, getLsbD_field]

/-- A `movw` and the `movt` behind it. -/
structure MovSite where
  args : RelocArgs
  m : Mem
  off : Int

def MovSite.held (site : MovSite) (m : Mem) : BitVec 32 :=
  decodeMov (read16 m (site.off + 4)) (read16 m (site.off + 6)) ++
    decodeMov (read16 m site.off) (read16 m (site.off + 2))

/-- The symbol, with the bit that marks Thumb code. -/
def thumbSymbol (a : RelocArgs) : BitVec 64 :=
  if a.os.any (·.memExecute) then a.s ||| 1 else a.s

def MovSite.patched (site : MovSite) : Patched :=
  applyRelARM site.args site.m site.off relArmMov32T

/-- The pair holds its former immediate plus the address, and nothing else has changed. -/
structure MovSite.Exact (site : MovSite) : Prop where
  value : site.held site.patched.1 =
    site.held site.m + (thumbSymbol site.args + site.args.imageBase).setWidth 32
  first : ∀ half ∈ [site.off, site.off + 4],
    read16 site.patched.1 half &&& 0xfbf0 = read16 site.m half &&& 0xfbf0
  second : ∀ half ∈ [site.off + 2, site.off + 6],
    read16 site.patched.1 half &&& 0x8f00 = read16 site.m half &&& 0x8f00

private theorem applyMOV_read (m : Mem) (off : Int) (v : BitVec 16) :
    read16 (applyMOV m off v) off = (movBits v (read16 m off) (read16 m (off + 2))).1 ∧
      read16 (applyMOV m off v) (off + 2) = (movBits v (read16 m off) (read16 m (off + 2))).2 := by
  constructor
  · rw [applyMOV, read16_modify16_apart _ _ _ _ (by omega), read16_modify16]
    rfl
  · rw [applyMOV, read16_modify16, read16_modify16_apart _ _ _ _ (by omega)]
    rfl

private theorem applyMOV_apart (m : Mem) (off b : Int) (v : BitVec 16)
    (apart : off + 4 ≤ b ∨ b + 2 ≤ off) :
    read16 (applyMOV m off v) b = read16 m b := by
  rw [applyMOV, read16_modify16_apart _ _ _ _ (by omega), read16_modify16_apart _ _ _ _ (by omega)]

private theorem halves_append (v : BitVec 32) : (v >>> 16).setWidth 16 ++ v.setWidth 16 = v := by
  apply BitVec.eq_of_getLsbD_eq
  intro i below
  rw [BitVec.getLsbD_append]
  by_cases low : i < 16
  · simp [-BitVec.getLsbD_eq_getElem, low]
  · have high : 16 + (i - 16) = i := by omega
    have inside : i - 16 < 16 := by omega
    simp [-BitVec.getLsbD_eq_getElem, low, high, inside]

theorem MovSite.exact (site : MovSite) : site.Exact := by
  obtain ⟨args, m, off⟩ := site
  generalize value : (MovSite.held ⟨args, m, off⟩ m) +
    (thumbSymbol args + args.imageBase).setWidth 32 = v
  have sum : (thumbSymbol args + args.imageBase).setWidth 32 +
      ((readMOV m (off + 4) true).1 ++ (readMOV m off false).1) = v := by
    rw [readMOV_eq, readMOV_eq, BitVec.add_comm, ← value, MovSite.held]
    rw [show off + 4 + 2 = off + 6 by omega]
  -- MOVW takes the low half and MOVT the high one, four bytes further on.
  have patched : (MovSite.patched ⟨args, m, off⟩).1 =
      applyMOV (applyMOV m off (v.setWidth 16)) (off + 4) ((v >>> 16).setWidth 16) := by
    rw [← sum]
    rfl
  -- The two instructions lie apart, so patching the one leaves the other as it was.
  have movt := applyMOV_read (applyMOV m off (v.setWidth 16)) (off + 4) ((v >>> 16).setWidth 16)
  rw [← patched, applyMOV_apart m off (off + 4) _ (by omega), Int.add_assoc,
    applyMOV_apart m off (off + (4 + 2)) _ (by omega)] at movt
  have movw := applyMOV_read m off (v.setWidth 16)
  rw [← applyMOV_apart (applyMOV m off (v.setWidth 16)) (off + 4) off ((v >>> 16).setWidth 16)
      (by omega),
    ← applyMOV_apart (applyMOV m off (v.setWidth 16)) (off + 4) (off + 2) ((v >>> 16).setWidth 16)
      (by omega), ← patched] at movw
  obtain ⟨low1, low2⟩ := movw
  obtain ⟨high1, high2⟩ := movt
  change read16 _ (off + 6) = _ at high2
  constructor
  -- the value
  · change MovSite.held _ _ = MovSite.held ⟨args, m, off⟩ m + _
    rw [value, MovSite.held]
    dsimp only
    rw [low1, low2, high1, high2, decodeMov_movBits, decodeMov_movBits, halves_append]
  -- and the bits around it
  · intro half member
    simp only [List.mem_cons, List.not_mem_nil, or_false] at member
    rcases member with rfl | rfl
    · rw [low1]
      exact (movBits_keeps _ _ _).1
    · rw [high1]
      exact (movBits_keeps _ _ _).1
  · intro half member
    simp only [List.mem_cons, List.not_mem_nil, or_false] at member
    rcases member with rfl | rfl
    · rw [low2]
      exact (movBits_keeps _ _ _).2
    · rw [high2]
      exact (movBits_keeps _ _ _).2

/-! ### Fields of 32 bits -/

/-- What a 32-bit field stands for; an address relative to the place is `behind` bytes behind it. -/
inductive DataKind where
  | absolute
  | imageRelative
  | pcRelative (behind : Nat)
  deriving DecidableEq, Repr

/-- The 32-bit data relocations of each machine. -/
def dataKind (machine : Machine) (type : Nat) : Option DataKind :=
  match machine with
  | .amd64 =>
      if type = relAmd64Addr32 then some .absolute
      else if type = relAmd64Addr32NB then some .imageRelative
      else if relAmd64Rel32 ≤ type ∧ type ≤ relAmd64Rel32_5 then
        some (.pcRelative (4 + (type - relAmd64Rel32)))
      else none
  | .i386 =>
      if type = relI386Dir32 then some .absolute
      else if type = relI386Dir32NB then some .imageRelative
      else if type = relI386Rel32 then some (.pcRelative 4)
      else none
  | .armnt =>
      if type = relArmAddr32 then some .absolute
      else if type = relArmAddr32NB then some .imageRelative
      else if type = relArmRel32 then some (.pcRelative 4)
      else none
  | _ =>
      if type = relArm64Addr32 then some .absolute
      else if type = relArm64Addr32NB then some .imageRelative
      else if type = relArm64Rel32 then some (.pcRelative 4)
      else none

structure DataField where
  machine : Machine
  type : Nat
  kind : DataKind
  args : RelocArgs
  m : Mem
  off : Int
  is_data : dataKind machine type = some kind

/-- The symbol as an offset from the image base; absolute symbols can stand below it. -/
def DataField.symbol (field : DataField) : Int :=
  (if field.machine = .armnt then thumbSymbol field.args else field.args.s).toInt

/-- The result without any truncation; the addend in the field is signed. -/
def DataField.meant (field : DataField) : Int :=
  let addend := (read32 field.m field.off).toInt
  match field.kind with
  | .absolute => addend + field.symbol + field.args.imageBase.toNat
  | .imageRelative => addend + field.symbol
  | .pcRelative behind => addend + field.symbol - (field.args.p.toNat + behind)

/-- Addresses are unsigned, differences signed. -/
def DataKind.read (kind : DataKind) (word : BitVec 32) : Int :=
  match kind with
  | .absolute | .imageRelative => word.toNat
  | .pcRelative _ => word.toInt

def DataKind.Holds (kind : DataKind) (x : Int) : Prop :=
  match kind with
  | .absolute | .imageRelative => 0 ≤ x ∧ x < 2 ^ 32
  | .pcRelative _ => Fits 32 x

def DataField.patched (field : DataField) : Patched :=
  applyRel field.machine field.args field.m field.off field.type

def DataField.Exact (field : DataField) : Prop :=
  field.patched.2 ≠ [] ∨ field.kind.read (read32 field.patched.1 field.off) = field.meant

def DataField.Representable (field : DataField) : Prop := field.kind.Holds field.meant

/-- A field that is right modulo 2^32 is right just if the result can be represented. -/
theorem DataKind.read_eq_iff (kind : DataKind) (word : BitVec 32) (x : Int)
    (congruent : ((word.toNat : Int) - x) % 2 ^ 32 = 0) : kind.read word = x ↔ kind.Holds x := by
  have below := word.isLt
  cases kind with
  | absolute =>
    unfold DataKind.read DataKind.Holds
    dsimp only
    omega
  | imageRelative =>
    unfold DataKind.read DataKind.Holds
    dsimp only
    omega
  | pcRelative behind =>
    unfold DataKind.read DataKind.Holds Fits
    dsimp only
    rw [BitVec.toInt_eq_toNat_cond]
    split <;> omega

/-- What `add32` adds for each kind. -/
def DataKind.added (kind : DataKind) (s p imageBase : BitVec 64) : BitVec 32 :=
  match kind with
  | .absolute => (s + imageBase).setWidth 32
  | .imageRelative => s.setWidth 32
  | .pcRelative behind => (s - p - BitVec.ofNat 64 behind).setWidth 32

theorem DataField.patched_eq (field : DataField) : field.patched =
    (add32 field.m field.off (field.kind.added
      (if field.machine = .armnt then thumbSymbol field.args else field.args.s) field.args.p
      field.args.imageBase), []) := by
  obtain ⟨machine, type, kind, args, m, off, is_data⟩ := field
  rw [DataField.patched]
  dsimp only
  -- On each machine a data field is patched by one addition to a 32-bit word.
  cases machine with
  | amd64 =>
    unfold dataKind at is_data
    dsimp only at is_data
    rw [if_neg (by decide)]
    split_ifs at is_data with absolute imageRelative relative
    · cases is_data
      subst absolute
      rfl
    · cases is_data
      subst imageRelative
      rfl
    · cases is_data
      obtain ⟨above, below⟩ := relative
      change 4 ≤ type at above
      change type ≤ 9 at below
      interval_cases type <;> rfl
  | i386 =>
    unfold dataKind at is_data
    dsimp only at is_data
    split_ifs at is_data with absolute imageRelative relative
    all_goals
      cases is_data
      subst type
      rfl
  -- The only machine whose symbol carries the Thumb bit.
  | armnt =>
    unfold dataKind at is_data
    dsimp only at is_data
    split_ifs at is_data with absolute imageRelative relative
    all_goals
      cases is_data
      subst type
      rfl
  | arm64 | arm64ec | arm64x =>
    unfold dataKind at is_data
    dsimp only at is_data
    split_ifs at is_data with absolute imageRelative relative
    all_goals
      cases is_data
      subst type
      rfl

private theorem toInt_congr (x : BitVec 64) : ∃ k : Int, x.toInt = x.toNat - k * 2 ^ 64 := by
  rw [BitVec.toInt_eq_toNat_cond]
  split
  · exact ⟨0, by omega⟩
  · exact ⟨1, by omega⟩

/-- The field is right modulo 2^32. -/
theorem DataField.congruent (field : DataField) :
    (((read32 field.patched.1 field.off).toNat : Int) - field.meant) % 2 ^ 32 = 0 := by
  rw [DataField.patched_eq, DataField.meant, DataField.symbol]
  dsimp only
  rw [add32, read32_modify32]
  generalize (if field.machine = .armnt then thumbSymbol field.args else field.args.s) = s
  obtain ⟨k, symbol⟩ := toInt_congr s
  have place := field.args.p.isLt
  have below := s.isLt
  rw [symbol, BitVec.toNat_add, BitVec.toInt_eq_toNat_cond (read32 field.m field.off)]
  -- by the kind of the field: all three are the sum that is meant, up to 2^32
  cases field.kind with
  | absolute =>
    rw [DataKind.added]
    dsimp only
    rw [BitVec.toNat_setWidth, BitVec.toNat_add]
    split <;> omega
  | imageRelative =>
    rw [DataKind.added]
    dsimp only
    rw [BitVec.toNat_setWidth]
    split <;> omega
  | pcRelative behind =>
    rw [DataKind.added]
    dsimp only
    rw [BitVec.toNat_setWidth, BitVec.toNat_sub, BitVec.toNat_sub, BitVec.toNat_ofNat]
    split <;> omega

private theorem DataField.exact_iff (field : DataField) : field.Exact ↔ field.Representable := by
  have quiet : field.patched.2 = [] := by rw [DataField.patched_eq]
  simp only [DataField.Exact, DataField.Representable]
  rw [field.kind.read_eq_iff _ _ field.congruent]
  simp [quiet]

/-! ### All address relocations -/

/-- No encoder but those of loads checks a range: the field keeps the low bits of what is meant. -/
theorem address_relocations_exact_iff (pair : PagePair) (adr : AdrSite) (mov : MovSite)
    (field : DataField) :
    (pair.Exact ↔ pair.Near) ∧ (adr.Exact ↔ adr.Near) ∧ mov.Exact ∧
      (field.Exact ↔ field.Representable) :=
  ⟨pair.exact_iff, adr.exact_iff, mov.exact, field.exact_iff⟩

def plainArgs (s imageBase : BitVec 64) : RelocArgs where
  sec := ⟨".text", "a.obj", false, false⟩
  os := none
  s
  p := 0x1000
  imageBase
  numOutputSections := 2

/-- `adr x0, target` at 0x1000 with the target 1 MiB behind it. -/
def farAdr : AdrSite := ⟨plainArgs 0x101000 0x140000000, fun _ => 0, 0⟩

/-- `ADDR32` of x64 under the default image base. -/
def highAddr32 : DataField where
  machine := .amd64
  type := relAmd64Addr32
  kind := .absolute
  args := plainArgs 0x2000 0x140000000
  m := fun _ => 0
  off := 0
  is_data := rfl

theorem farAdr_highAddr32_not_exact : ¬ farAdr.Exact ∧ ¬ highAddr32.Exact := by
  constructor
  · rw [AdrSite.exact_iff, AdrSite.Near, Fits]
    decide
  · rw [DataField.exact_iff, DataField.Representable]
    change ¬ (0 ≤ highAddr32.meant ∧ highAddr32.meant < 2 ^ 32)
    decide

/-- The words of code, at 0. -/
def codeWords (words : List (BitVec 32)) : Mem :=
  words.zipIdx.foldl (fun m word => write32 m (4 * word.2) word.1) (fun _ => 0)

/-- `adrp` as the last instruction of a page, the `ldr` of a word on the next one, and a target that
its addend moves to another page than that of the symbol. -/
def acrossPages : PagePair where
  args := { plainArgs 0x7FFC 0x140000000 with p := 0xFFC }
  lowArgs := plainArgs 0x7FFC 0x140000000
  m := codeWords [0x90000060, 0xB9400C00]
  high := 0
  low := 4
  load := true
  addend := 12
  same_symbol := rfl
  apart := by decide
  high_addend := by decide
  low_addend := by decide

/-- `movw` and `movt`. -/
def movPair : MovSite := ⟨plainArgs 0x101000 0x400000, codeWords [0x0000F240, 0x0000F2C0], 0⟩

theorem acrossPages_exact :
    acrossPages.Exact ∧ movPair.Exact ∧ acrossPages.target.toNat / 4096 = 8 :=
  have exact := address_relocations_exact_iff acrossPages farAdr movPair highAddr32
  ⟨exact.1.mpr (.inr (by rw [Fits]; decide)), exact.2.2.1, by decide⟩

end LlvmLd.Writer
