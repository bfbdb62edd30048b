import LlvmLd.Writer.Branches

/-!
Where the branches go. A branch that the range test accepts is patched without an error, and a
patched branch goes to its symbol; only the 20-bit Thumb branch can miss it, because J1 and J2 of
its encoding are exchanged.
-/

namespace LlvmLd.Writer

open Memory Fields

/-- A branch instruction and the relocation that is applied to it. -/
structure BranchSite where
  branch : Branch
  machine : Machine
  args : RelocArgs
  p : BitVec 32
  m : Mem
  off : Int
  runs_on : branch.runsOn machine = true
  place : args.p = p.setWidth 64
  target_aligned : branch.alignment ∣ args.s.toNat
  place_aligned : branch.alignment ∣ p.toNat
  blank : branch.Blank m off

def BranchSite.patched (site : BranchSite) : Patched :=
  applyRel site.machine site.args site.m site.off site.branch.type

structure BranchSite.Reaches (site : BranchSite) : Prop where
  accepted : isInRange site.branch.type site.args.s.toNat site.p.toNat 0 site.machine = true →
    site.patched.2 = []
  target : site.patched.2 = [] →
    site.branch.GoesTo site.patched.1 site.off site.p site.args.s
  kept : site.patched.2 = [] → site.branch.Keeps site.m site.patched.1 site.off

/-- Of a 20-bit displacement in range, bits 18 and 19 are the same. -/
def BranchSite.Unmixed (site : BranchSite) : Prop :=
  site.branch = .branch20T → Fits 21 (thumbDisplacement site.args.s site.p).toInt →
    (thumbDisplacement site.args.s site.p).getLsbD 18 =
      (thumbDisplacement site.args.s site.p).getLsbD 19

private theorem outOfRange_iff (bits : Nat) (v : Int) : outOfRange bits v = [] ↔ Fits bits v := by
  rw [← isInt_iff]
  unfold outOfRange
  by_cases fits : isInt bits v = true
  · simp [fits]
  · simp [fits]

/-- Both halfwords after they have been changed one after the other. -/
theorem read16_halfwords (m : Mem) (off : Int) (f g : BitVec 16 → BitVec 16) :
    read16 (modify16 (modify16 m off f) (off + 2) g) off = f (read16 m off) ∧
      read16 (modify16 (modify16 m off f) (off + 2) g) (off + 2) = g (read16 m (off + 2)) := by
  constructor
  · rw [read16_modify16_apart _ _ _ _ (by omega), read16_modify16]
  · rw [read16_modify16, read16_modify16_apart _ _ _ _ (by omega)]

section Thumb

variable (os : Option SymbolSection) (s : BitVec 64) (p v : BitVec 32)

/-- What `applyRelARM` passes to the encoders of branches. -/
def thumbArgument (os : Option SymbolSection) (s : BitVec 64) (p : BitVec 32) : BitVec 32 :=
  ((if os.any (·.memExecute) then s ||| 1 else s) - p.setWidth 64 - 4).setWidth 32

variable (target : 2 ∣ s.toNat) (place : 2 ∣ p.toNat)

include target place

private theorem thumbArgument_even :
    thumbArgument os s p &&& ~~~1#32 = thumbDisplacement s p := by
  have parts := even_part _ (thumbDisplacement_even s p target place)
  rcases thumb_argument os s p target with argument | argument
  · rw [thumbArgument, argument]
    exact parts.1
  · rw [thumbArgument, argument]
    exact parts.2

private theorem thumbArgument_bit (i : Nat) (above : 0 < i) (below : i < 32) :
    (thumbArgument os s p).getLsbD i = (thumbDisplacement s p).getLsbD i := by
  rw [← thumbArgument_even os s p target place]
  have other : ¬i = 0 := by omega
  rw [BitVec.getLsbD_and, BitVec.getLsbD_not, BitVec.getLsbD_one]
  simp [below, other]

/-- Setting the Thumb bit does not leave the range. -/
theorem fits_thumbArgument (k : Nat) (small : k ≤ 30) (two : 2 ≤ k) :
    Fits k (thumbArgument os s p).toInt ↔ Fits k (thumbDisplacement s p).toInt := by
  constructor
  · intro fits
    have same := signExtend_even k _ two (by omega) fits
    rw [thumbArgument_even os s p target place] at same
    rw [← same, BitVec.toInt_signExtend_of_le (by omega)]
    exact fits_toInt _
  · intro fits
    have even : (thumbDisplacement s p).toNat % 2 = 0 := by
      have bit := thumbDisplacement_even s p target place
      rw [← BitVec.testBit_toNat, Nat.testBit_zero] at bit
      simp only [decide_eq_false_iff_not] at bit
      omega
    have bound_even : (2 : Int) ∣ 2 ^ (k - 1) := dvd_pow_self 2 (by omega)
    have bound_small : (2 : Int) ^ (k - 1) ≤ 2 ^ 29 := pow_le_pow_right₀ (by omega) (by omega)
    -- the argument is the displacement, or one more when the target is code
    have value : (thumbArgument os s p).toNat = (thumbDisplacement s p).toNat ∨
        (thumbArgument os s p).toNat = ((thumbDisplacement s p).toNat + 1) % 2 ^ 32 := by
      rcases thumb_argument os s p target with argument | argument
      · left
        rw [thumbArgument, argument]
      · right
        rw [thumbArgument, argument, BitVec.toNat_add]
        rfl
    unfold Fits at fits ⊢
    rw [BitVec.toInt_eq_toNat_cond] at fits ⊢
    generalize (2 : Int) ^ (k - 1) = bound at *
    have below := (thumbDisplacement s p).isLt
    -- the bound is even, so the added one never crosses it
    split_ifs at fits ⊢ <;> omega

/-- From a decoded even displacement to the target. -/
theorem thumb_target (k : Nat) (two : 2 ≤ k) (le : k ≤ 32) (decoded : BitVec k)
    (fits : Fits k (thumbArgument os s p).toInt)
    (encoded : decoded = (thumbArgument os s p).setWidth k &&& ~~~1#k) :
    p + 4 + decoded.signExtend 32 = s.setWidth 32 := by
  rw [encoded, signExtend_even k _ two le fits, thumbArgument_even os s p target place,
    thumbDisplacement]
  rw [BitVec.sub_sub, BitVec.add_comm, BitVec.sub_add_cancel]

end Thumb

/-! ### Thumb branches -/

private theorem applyRelARM_branch20T (a : RelocArgs) (m : Mem) (off : Int) (p : BitVec 32)
    (place : a.p = p.setWidth 64) : applyRel .armnt a m off relArmBranch20T =
      applyBranch20T m off (thumbArgument a.os a.s p) := by
  rw [thumbArgument, ← place]
  rfl

private theorem applyRelARM_branch24T (a : RelocArgs) (m : Mem) (off : Int) (p : BitVec 32)
    (type : Nat)
    (long : type = relArmBranch24T ∨ type = relArmBlx23T) (place : a.p = p.setWidth 64) :
    applyRel .armnt a m off type = applyBranch24T m off (thumbArgument a.os a.s p) := by
  rw [thumbArgument, ← place]
  rcases long with rfl | rfl
  · rfl
  · rfl

private theorem thumb_accepted (k : Nat) (os : Option SymbolSection) (s : BitVec 64) (p : BitVec 32)
    (two : 2 ≤ k) (small : k ≤ 25) (target : 2 ∣ s.toNat) (place : 2 ∣ p.toNat)
    (inRange : isInt k (toInt64 (absoluteDifference s.toNat ((p.toNat + 4) % 2 ^ 64) + 0)) = true) :
    Fits k (thumbArgument os s p).toInt := by
  rw [isInt_iff] at inRange
  exact thumb_in_range (2 ^ (k - 1)) s p _ (pow_le_pow_right₀ (by omega) (by omega))
    (dvd_pow_self 2 (by omega)) target place (thumb_argument os s p target) inRange

private theorem branch20T_reaches_iff (site : BranchSite) (short : site.branch = .branch20T) :
    site.Reaches ↔ site.Unmixed := by
  obtain ⟨branch, machine, a, p, m, off, runs_on, place, target, aligned, blank⟩ := site
  dsimp only at short
  subst short
  have arm : machine = .armnt := of_decide_eq_true runs_on
  subst arm
  change 2 ∣ a.s.toNat at target
  change 2 ∣ p.toNat at aligned
  have patched : BranchSite.patched ⟨.branch20T, .armnt, a, p, m, off, runs_on, place, target,
      aligned, blank⟩ = applyBranch20T m off (thumbArgument a.os a.s p) :=
    applyRelARM_branch20T a m off p place
  -- The range is checked on the argument alone.
  have errors : (applyBranch20T m off (thumbArgument a.os a.s p)).2 = [] ↔
      Fits 21 (thumbArgument a.os a.s p).toInt := outOfRange_iff _ _
  obtain ⟨first, second⟩ := read16_halfwords m off (· ||| (branch20Bits (thumbArgument a.os a.s p)).1)
    (· ||| (branch20Bits (thumbArgument a.os a.s p)).2)
  change read16 (applyBranch20T m off (thumbArgument a.os a.s p)).1 off = _ at first
  change read16 (applyBranch20T m off (thumbArgument a.os a.s p)).1 (off + 2) = _ at second
  have same18 := thumbArgument_bit a.os a.s p target aligned 18 (by omega) (by omega)
  have same19 := thumbArgument_bit a.os a.s p target aligned 19 (by omega) (by omega)
  constructor
  -- Bit 18 of the argument is decoded as bit 19, so they are equal where the target is reached.
  · intro reaches _ fits
    have fits := (fits_thumbArgument a.os a.s p target aligned 21 (by omega) (by omega)).mpr fits
    have goes := reaches.target (by rw [patched]; exact errors.mpr fits)
    rw [patched] at goes
    change p + 4 + (decodeT3 (read16 _ off) (read16 _ (off + 2))).signExtend 32 = _ at goes
    rw [first, second] at goes
    have bit := decodeT3_bit (read16 m off) (read16 m (off + 2)) (thumbArgument a.os a.s p) blank.2
    generalize decodeT3 _ _ = decoded at goes bit
    have displacement : decoded.signExtend 32 = thumbDisplacement a.s p := by
      rw [thumbDisplacement, ← goes, BitVec.sub_sub, BitVec.add_comm (p + 4), BitVec.add_sub_cancel]
    have signed : (decoded.signExtend 32).getLsbD 19 = decoded.getLsbD 19 := by
      simp [-BitVec.getLsbD_eq_getElem, BitVec.getLsbD_signExtend]
    rw [← same18, ← bit, ← signed, displacement]
  -- With the two bits equal, what is decoded is the argument again.
  · intro unmixed
    constructor
    · intro inRange
      rw [patched, errors]
      exact thumb_accepted 21 a.os a.s p (by omega) (by omega) target aligned inRange
    · intro accepted
      rw [patched, errors] at accepted
      rw [patched]
      change p + 4 + (decodeT3 (read16 _ off) (read16 _ (off + 2))).signExtend 32 = _
      rw [first, second]
      have short := (fits_thumbArgument a.os a.s p target aligned 21 (by omega) (by omega)).mp accepted
      apply thumb_target a.os a.s p target aligned 21 (by omega) (by omega) _ accepted
      apply decodeT3_encoded _ _ _ blank.1 blank.2 accepted
      rw [same18, same19]
      exact unmixed rfl short
    -- The other bits of both halfwords are only or-ed with zeros.
    · intro _
      rw [patched]
      have inside := branch20Bits_inside (thumbArgument a.os a.s p)
      change read16 _ off &&& _ = _ ∧ read16 _ (off + 2) &&& _ = _
      rw [first, second]
      exact ⟨or_keeps _ _ _ inside.1, or_keeps _ _ _ inside.2⟩

private theorem branch24T_reaches (site : BranchSite)
    (long : site.branch = .branch24T ∨ site.branch = .blx23T) : site.Reaches := by
  obtain ⟨branch, machine, a, p, m, off, runs_on, place, target, aligned, blank⟩ := site
  dsimp only at long
  have arm : machine = .armnt := by
    rcases long with rfl | rfl
    · exact of_decide_eq_true runs_on
    · exact of_decide_eq_true runs_on
  subst arm
  -- Both types are patched by one function and decoded the same way.
  have even : 2 ∣ a.s.toNat ∧ 2 ∣ p.toNat := by
    rcases long with rfl | rfl
    · exact ⟨target, aligned⟩
    · exact ⟨target, aligned⟩
  have patched : BranchSite.patched ⟨branch, .armnt, a, p, m, off, runs_on, place, target,
      aligned, blank⟩ = applyBranch24T m off (thumbArgument a.os a.s p) := by
    apply applyRelARM_branch24T a m off p branch.type _ place
    rcases long with rfl | rfl
    · exact .inl rfl
    · exact .inr rfl
  have errors : (applyBranch24T m off (thumbArgument a.os a.s p)).2 = [] ↔
      Fits 25 (thumbArgument a.os a.s p).toInt := outOfRange_iff _ _
  obtain ⟨first, second⟩ := read16_halfwords m off
    (· ||| (branch24Bits (thumbArgument a.os a.s p)).1)
    (fun op => (op &&& 0xd000) ||| (branch24Bits (thumbArgument a.os a.s p)).2)
  change read16 (applyBranch24T m off (thumbArgument a.os a.s p)).1 off = _ at first
  change read16 (applyBranch24T m off (thumbArgument a.os a.s p)).1 (off + 2) = _ at second
  have clear : read16 m off &&& 0x07ff = 0 := by
    rcases long with rfl | rfl
    · exact blank.1
    · exact blank.1
  constructor
  · intro inRange
    rw [patched, errors]
    apply thumb_accepted 25 a.os a.s p (by omega) (by omega) even.1 even.2
    rcases long with rfl | rfl
    · exact inRange
    · exact inRange
  · intro accepted
    rw [patched, errors] at accepted
    rw [patched]
    -- Unlike T3, the encoding T4 keeps every bit of the argument, so no condition is left.
    have goes : p + 4 + (decodeT4 (read16 (applyBranch24T m off (thumbArgument a.os a.s p)).1 off)
        (read16 (applyBranch24T m off (thumbArgument a.os a.s p)).1 (off + 2))).signExtend 32 =
        a.s.setWidth 32 := by
      rw [first, second]
      apply thumb_target a.os a.s p even.1 even.2 25 (by omega) (by omega) _ accepted
      exact decodeT4_encoded _ _ _ clear accepted
    rcases long with rfl | rfl
    · exact goes
    · exact goes
  · intro _
    rw [patched]
    have inside := branch24Bits_inside (thumbArgument a.os a.s p)
    have kept : read16 (applyBranch24T m off (thumbArgument a.os a.s p)).1 off &&& ~~~0x07ff#16 =
          read16 m off &&& ~~~0x07ff#16 ∧
        read16 (applyBranch24T m off (thumbArgument a.os a.s p)).1 (off + 2) &&& ~~~0x2fff#16 =
          read16 m (off + 2) &&& ~~~0x2fff#16 := by
      rw [first, second]
      constructor
      · exact or_keeps _ _ _ inside.1
      -- The second halfword is cleared except for 0xd000, which holds all that must stay.
      · have twice : (0xd000#16 : BitVec 16) &&& ~~~0x2fff#16 = ~~~0x2fff#16 := by decide
        rw [or_keeps _ _ _ inside.2, BitVec.and_assoc]
        exact congrArg (read16 m (off + 2) &&& ·) twice
    rcases long with rfl | rfl
    · exact kept
    · exact kept

/-! ### ARM64 branches -/

private theorem arm64_target (k : Nat) (s : BitVec 64) (p : BitVec 32) (positive : 0 < k)
    (le : k ≤ 64) (decoded : BitVec k) (fits : Fits k (s - p.setWidth 64).toInt)
    (encoded : decoded = (s - p.setWidth 64).setWidth k) :
    p.setWidth 64 + decoded.signExtend 64 = s := by
  rw [encoded, (signExtend_setWidth_iff k _ positive le).mpr fits, BitVec.add_comm,
    BitVec.sub_add_cancel]

private theorem arm64_accepted (k : Nat) (s : BitVec 64) (p : BitVec 32) (small : k ≤ 30)
    (inRange : isInt k (toInt64 (absoluteDifference s.toNat p.toNat + 0)) = true) :
    Fits k (s - p.setWidth 64).toInt := by
  rw [isInt_iff] at inRange
  exact arm64_in_range (2 ^ (k - 1)) s p (pow_le_pow_right₀ (by omega) (by omega)) inRange

/-- The bits that each ARM64 branch adds to its word. -/
def Branch.wordBits (b : Branch) (v : BitVec 64) : BitVec 32 :=
  match b with
  | .branch19 => ((v &&& 0x001FFFFC) <<< 3).setWidth 32
  | .branch14 => ((v &&& 0x0000FFFC) <<< 3).setWidth 32
  | _ => ((v &&& 0x0FFFFFFC) >>> 2).setWidth 32

def Branch.bits : Branch → Nat
  | .branch26 => 28
  | .branch14 => 16
  | _ => 21

private theorem wordBits_inside (b : Branch) (v : BitVec 64) :
    b.wordBits v &&& ~~~b.fieldMask32 = 0 := by
  have within : ∀ x y mask : BitVec 32, y &&& ~~~mask = 0 → x &&& y &&& ~~~mask = 0 := by
    intro x y mask inside
    rw [BitVec.and_assoc, inside]
    exact BitVec.and_zero
  cases b
  case branch19 =>
    change ((v &&& 0x001FFFFC) <<< 3).setWidth 32 &&& _ = 0
    rw [BitVec.shiftLeft_and_distrib, BitVec.setWidth_and]
    exact within _ _ _ (by decide)
  case branch14 =>
    change ((v &&& 0x0000FFFC) <<< 3).setWidth 32 &&& _ = 0
    rw [BitVec.shiftLeft_and_distrib, BitVec.setWidth_and]
    exact within _ _ _ (by decide)
  all_goals
    change ((v &&& 0x0FFFFFFC) >>> 2).setWidth 32 &&& _ = 0
    rw [BitVec.ushiftRight_and_distrib, BitVec.setWidth_and]
    exact within _ _ _ (by decide)

private theorem applyRelARM64_branch (b : Branch) (word : b.isThumb = false) (a : RelocArgs)
    (m : Mem) (off : Int) : applyRelARM64 a m off b.type =
      (modify32 m off (· ||| b.wordBits (a.s - a.p)), outOfRange b.bits (a.s - a.p).toInt) := by
  cases b
  case branch26 => rfl
  case branch19 => rfl
  case branch14 => rfl
  all_goals cases word

private theorem isInRange_arm64 (b : Branch) (word : b.isThumb = false) (machine : Machine)
    (any : machine.isAnyArm64 = true) (s p : Nat) : isInRange b.type s p 0 machine =
      isInt b.bits (toInt64 (absoluteDifference s p + 0)) := by
  cases b
  all_goals
    cases machine
    all_goals first | exact absurd any (by decide) | exact absurd word (by decide) | rfl

/-- Reading the displacement of a patched ARM64 branch. -/
theorem arm64_goesTo (b : Branch) (word : b.isThumb = false) (m n : Mem) (off : Int)
    (s : BitVec 64) (p : BitVec 32) (fits : Fits b.bits (s - p.setWidth 64).toInt)
    (aligned : Quadruple (s - p.setWidth 64)) (blank : b.Blank m off)
    (held : read32 n off = read32 m off ||| b.wordBits (s - p.setWidth 64)) :
    b.GoesTo n off p s := by
  cases b
  case branch26 =>
    change p.setWidth 64 + (decodeImm26 (read32 n off)).signExtend 64 = s
    rw [held]
    exact arm64_target 28 s p (by omega) (by omega) _ fits (decodeImm26_encoded _ _ aligned blank)
  case branch19 =>
    change p.setWidth 64 + (decodeImm19 (read32 n off)).signExtend 64 = s
    rw [held]
    exact arm64_target 21 s p (by omega) (by omega) _ fits (decodeImm19_encoded _ _ aligned blank)
  case branch14 =>
    change p.setWidth 64 + (decodeImm14 (read32 n off)).signExtend 64 = s
    rw [held]
    exact arm64_target 16 s p (by omega) (by omega) _ fits (decodeImm14_encoded _ _ aligned blank)
  all_goals cases word

private theorem arm64_reaches (site : BranchSite) (word : site.branch.isThumb = false) :
    site.Reaches := by
  obtain ⟨branch, machine, a, p, m, off, runs_on, place, target, aligned, blank⟩ := site
  dsimp only at word
  have any : machine.isAnyArm64 = true := by
    rw [Branch.runsOn, if_neg (by simp [word])] at runs_on
    exact runs_on
  have four : branch.alignment = 4 := if_neg (by simp [word])
  -- Both ends are aligned, so the two bits that are shifted out are zero.
  have quadruple := arm64_quadruple a.s p (four ▸ target) (four ▸ aligned)
  have small : branch.bits ≤ 30 := by
    cases branch <;> decide
  have same : applyRel machine a m off branch.type = applyRelARM64 a m off branch.type := by
    cases machine
    all_goals first | rfl | cases any
  have patched : BranchSite.patched ⟨branch, machine, a, p, m, off, runs_on, place, target,
      aligned, blank⟩ = (modify32 m off (· ||| branch.wordBits (a.s - p.setWidth 64)),
        outOfRange branch.bits (a.s - p.setWidth 64).toInt) := by
    rw [← place]
    exact same.trans (applyRelARM64_branch branch word a m off)
  have held := read32_modify32 m off (· ||| branch.wordBits (a.s - p.setWidth 64))
  constructor
  · intro inRange
    rw [patched, outOfRange_iff]
    dsimp only at inRange
    rw [isInRange_arm64 branch word machine any] at inRange
    exact arm64_accepted branch.bits a.s p small inRange
  · intro accepted
    rw [patched, outOfRange_iff] at accepted
    rw [patched]
    exact arm64_goesTo branch word m _ off a.s p accepted quadruple blank held
  · intro _
    rw [patched]
    rw [Branch.Keeps, if_neg (by simp [word])]
    dsimp only
    rw [held]
    exact or_keeps _ _ _ (wordBits_inside branch _)

/-- A branch reaches its symbol unless a 20-bit displacement has bits 18 and 19 exchanged. -/
theorem branch_reaches_iff (site : BranchSite) : site.Reaches ↔ site.Unmixed := by
  by_cases short : site.branch = .branch20T
  · exact branch20T_reaches_iff site short
  · have unmixed : site.Unmixed := fun same => absurd same short
    refine iff_of_true ?_ unmixed
    by_cases thumb : site.branch = .branch24T ∨ site.branch = .blx23T
    · exact branch24T_reaches site thumb
    · apply arm64_reaches
      revert short thumb
      cases site.branch <;> simp [Branch.isThumb]

/-- A blank `beq.w` at address 0 and its target at displacement 0x40000. -/
def missedSite : BranchSite where
  branch := .branch20T
  machine := .armnt
  args := ⟨⟨".text", "a.obj", false, false⟩, none, 0x40004, 0, 0x400000, 1⟩
  p := 0
  m := fun x => if x = 1 then 0xf0 else if x = 3 then 0x80 else 0
  off := 0
  runs_on := by decide
  place := by decide
  target_aligned := by decide
  place_aligned := by decide
  blank := by constructor <;> decide

/-- The branch is in range, is patched without an error, and goes to displacement 0x80000. -/
theorem missedSite_not_reaches : ¬missedSite.Reaches := by
  intro reaches
  have goes := reaches.target (by decide)
  change (0 : BitVec 32) + 4 + (decodeT3 (read16 missedSite.patched.1 0)
    (read16 missedSite.patched.1 2)).signExtend 32 = (0x40004 : BitVec 64).setWidth 32 at goes
  revert goes
  decide

end LlvmLd.Writer
