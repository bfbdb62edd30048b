import LlvmLd.Lib.Memory
import LlvmLd.Writer.Thunks

/-!
Applying relocations to section contents: the static helpers of `Chunks.cpp` and the four
`applyRel*` functions, each with the bytes it can touch.
-/

namespace LlvmLd.Writer

open Memory

/-! ### Relocation codes of `applyRelX64`, `applyRelX86`, `applyRelARM` and `applyRelARM64` -/

def relAmd64Addr32NB : Nat := 0x3
def relAmd64Rel32 : Nat := 0x4
def relAmd64Rel32_5 : Nat := 0x9
def relAmd64Section : Nat := 0xA
def relAmd64SecRel : Nat := 0xB

def relI386Absolute : Nat := 0x0
def relI386Dir32NB : Nat := 0x7
def relI386Section : Nat := 0xA
def relI386SecRel : Nat := 0xB
def relI386Rel32 : Nat := 0x14

def relArmAddr32NB : Nat := 0x2
def relArmRel32 : Nat := 0xA
def relArmSection : Nat := 0xE
def relArmSecRel : Nat := 0xF

def relArm64Addr32 : Nat := 0x1
def relArm64Addr32NB : Nat := 0x2
def relArm64PageBaseRel21 : Nat := 0x4
def relArm64Rel21 : Nat := 0x5
def relArm64PageOffset12A : Nat := 0x6
def relArm64PageOffset12L : Nat := 0x7
def relArm64SecRel : Nat := 0x8
def relArm64SecRelLow12A : Nat := 0x9
def relArm64SecRelHigh12A : Nat := 0xA
def relArm64SecRelLow12L : Nat := 0xB
def relArm64Section : Nat := 0xD
def relArm64Rel32 : Nat := 0x11

/-- The output section of a relocation's symbol, as far as relocations look at it. -/
structure SymbolSection where
  rva : Nat
  sectionIndex : Nat
  memExecute : Bool
  deriving DecidableEq, Repr

/-- What the messages say about the section being relocated, and whether it holds debug info. -/
structure RelocatedSection where
  sectionName : String
  fileName : String
  isCodeView : Bool
  isDWARF : Bool
  deriving DecidableEq, Repr

/-- The memory after a relocation and the errors it reports. -/
abbrev Patched := Mem × List String

/-! ### Fields -/

def add16 (m : Mem) (p : Int) (v : BitVec 16) : Mem := modify16 m p (· + v)

def add32 (m : Mem) (p : Int) (v : BitVec 32) : Mem := modify32 m p (· + v)

def add64 (m : Mem) (p : Int) (v : BitVec 64) : Mem := modify64 m p (· + v)

def or16 (m : Mem) (p : Int) (v : BitVec 16) : Mem := modify16 m p (· ||| v)

def or32 (m : Mem) (p : Int) (v : BitVec 32) : Mem := modify32 m p (· ||| v)

/-- `checkSecRel`: debug sections have section-relative relocations against absolute symbols. -/
def checkSecRel (sec : RelocatedSection) (os : Option SymbolSection) : Bool × List String :=
  match os with
  | some _ => (true, [])
  | none =>
      if sec.isCodeView then (false, [])
      else (false, ["SECREL relocation cannot be applied to absolute symbols"])

/-- `os->getRVA()`, read only behind `checkSecRel`. -/
def rvaOfSection (os : Option SymbolSection) : BitVec 64 := BitVec.ofNat 64 (os.elim 0 (·.rva))

def applySecRel (sec : RelocatedSection) (m : Mem) (off : Int) (os : Option SymbolSection)
    (s : BitVec 64) : Patched :=
  let (allowed, errors) := checkSecRel sec os
  let secRel := s - rvaOfSection os
  if ¬ allowed then (m, errors)
  else if uint32Max < secRel.toNat then
    (m, ["overflow in SECREL relocation in section: " ++ sec.sectionName])
  else (add32 m off (secRel.setWidth 32), [])

/-- An absolute symbol gets the index behind the last section, as MSVC does it. -/
def applySecIdx (m : Mem) (off : Int) (os : Option SymbolSection) (numOutputSections : Nat) : Mem :=
  match os with
  | some os => add16 m off (BitVec.ofNat 16 os.sectionIndex)
  | none => add16 m off (BitVec.ofNat 16 (numOutputSections + 1))

def utohexstr (n : Nat) : String := String.ofList ((Nat.toDigits 16 n).map Char.toUpper)

def unsupported (sec : RelocatedSection) (type : Nat) : List String :=
  ["unsupported relocation type 0x" ++ utohexstr type ++ " in " ++ sec.fileName]

/-! ### x64 and x86 -/

/-- The arguments that the four `applyRel*` functions share. -/
structure RelocArgs where
  sec : RelocatedSection
  os : Option SymbolSection
  s : BitVec 64
  p : BitVec 64
  imageBase : BitVec 64
  numOutputSections : Nat

def applyRelX64 (a : RelocArgs) (m : Mem) (off : Int) (type : Nat) : Patched :=
  if type = relAmd64Addr32 then (add32 m off ((a.s + a.imageBase).setWidth 32), [])
  else if type = relAmd64Addr64 then (add64 m off (a.s + a.imageBase), [])
  else if type = relAmd64Addr32NB then (add32 m off (a.s.setWidth 32), [])
  -- REL32 and REL32_1 to REL32_5 follow each other
  else if relAmd64Rel32 ≤ type ∧ type ≤ relAmd64Rel32_5 then
    (add32 m off ((a.s - a.p - BitVec.ofNat 64 type).setWidth 32), [])
  else if type = relAmd64Section then (applySecIdx m off a.os a.numOutputSections, [])
  else if type = relAmd64SecRel then applySecRel a.sec m off a.os a.s
  else (m, unsupported a.sec type)

def applyRelX86 (a : RelocArgs) (m : Mem) (off : Int) (type : Nat) : Patched :=
  if type = relI386Absolute then (m, [])
  else if type = relI386Dir32 then (add32 m off ((a.s + a.imageBase).setWidth 32), [])
  else if type = relI386Dir32NB then (add32 m off (a.s.setWidth 32), [])
  else if type = relI386Rel32 then (add32 m off ((a.s - a.p - 4).setWidth 32), [])
  else if type = relI386Section then (applySecIdx m off a.os a.numOutputSections, [])
  else if type = relI386SecRel then applySecRel a.sec m off a.os a.s
  else (m, unsupported a.sec type)

/-! ### ARM -/

def applyMOV (m : Mem) (off : Int) (v : BitVec 16) : Mem :=
  let m := modify16 m off
    (fun op => (op &&& 0xfbf0) ||| ((v &&& 0x800) >>> 1) ||| ((v >>> 12) &&& 0xf))
  modify16 m (off + 2) (fun op => (op &&& 0x8f00) ||| ((v &&& 0x700) <<< 4) ||| (v &&& 0xff))

def movError (movt : Bool) : String :=
  "unexpected instruction in " ++ (if movt then "MOVT" else "MOVW") ++
    " instruction in MOV32T relocation"

def readMOV (m : Mem) (off : Int) (movt : Bool) : BitVec 16 × List String :=
  let op1 := read16 m off
  let op2 := read16 m (off + 2)
  let errors :=
    (if op1 &&& 0xfbf0 ≠ (if movt then 0xf2c0 else 0xf240) then [movError movt] else []) ++
      (if op2 &&& 0x8000 ≠ 0 then [movError movt] else [])
  ((op2 &&& 0x00ff) ||| ((op2 >>> 4) &&& 0x0700) ||| ((op1 <<< 1) &&& 0x0800) |||
    ((op1 &&& 0x000f) <<< 12), errors)

def applyMOV32T (m : Mem) (off : Int) (v : BitVec 32) : Patched :=
  let immW := readMOV m off false
  let immT := readMOV m (off + 4) true
  let v := v + (immT.1 ++ immW.1)
  (applyMOV (applyMOV m off (v.setWidth 16)) (off + 4) ((v >>> 16).setWidth 16), immW.2 ++ immT.2)

def outOfRange (bits : Nat) (v : Int) : List String :=
  if isInt bits v then [] else ["relocation out of range"]

/-- The sign of a branch displacement. -/
def signBit (v : BitVec 32) : BitVec 32 := if v.toInt < 0 then 1 else 0

def applyBranch20T (m : Mem) (off : Int) (v : BitVec 32) : Patched :=
  let s := signBit v
  let j1 := v.sshiftRight 19 &&& 1
  let j2 := v.sshiftRight 18 &&& 1
  let m := or16 m off (((s <<< 10) ||| (v.sshiftRight 12 &&& 0x3f)).setWidth 16)
  (or16 m (off + 2)
    (((j1 <<< 13) ||| (j2 <<< 11) ||| (v.sshiftRight 1 &&& 0x7ff)).setWidth 16),
    outOfRange 21 v.toInt)

def applyBranch24T (m : Mem) (off : Int) (v : BitVec 32) : Patched :=
  let s := signBit v
  let j1 := ((~~~v).sshiftRight 23 &&& 1) ^^^ s
  let j2 := ((~~~v).sshiftRight 22 &&& 1) ^^^ s
  let m := or16 m off (((s <<< 10) ||| (v.sshiftRight 12 &&& 0x3ff)).setWidth 16)
  -- clear out the J1 and J2 bits which may be set
  (modify16 m (off + 2) (fun op => (op &&& 0xd000) |||
    ((j1 <<< 13) ||| (j2 <<< 11) ||| (v.sshiftRight 1 &&& 0x7ff)).setWidth 16),
    outOfRange 25 v.toInt)

def applyRelARM (a : RelocArgs) (m : Mem) (off : Int) (type : Nat) : Patched :=
  -- pointer to thumb code must have the LSB set
  let sx := if a.os.any (·.memExecute) then a.s ||| 1 else a.s
  let branch := (sx - a.p - 4).setWidth 32
  if type = relArmAddr32 then (add32 m off ((sx + a.imageBase).setWidth 32), [])
  else if type = relArmAddr32NB then (add32 m off (sx.setWidth 32), [])
  else if type = relArmMov32T then applyMOV32T m off ((sx + a.imageBase).setWidth 32)
  else if type = relArmBranch20T then applyBranch20T m off branch
  else if type = relArmBranch24T then applyBranch24T m off branch
  else if type = relArmBlx23T then applyBranch24T m off branch
  else if type = relArmSection then (applySecIdx m off a.os a.numOutputSections, [])
  else if type = relArmSecRel then applySecRel a.sec m off a.os a.s
  else if type = relArmRel32 then (add32 m off branch, [])
  else (m, unsupported a.sec type)

/-! ### ARM64 -/

/-- The byte offset in the instruction becomes the page offset to the target. -/
def applyArm64Addr (m : Mem) (off : Int) (s p : BitVec 64) (shift : Nat) : Mem :=
  modify32 m off (fun orig =>
    let addend := (((orig >>> 29) &&& 0x3) ||| ((orig >>> 3) &&& 0x1FFFFC)).setWidth 21
    let imm := ((s + addend.signExtend 64) >>> shift) - (p >>> shift)
    let immLo := ((imm &&& 0x3) <<< 29).setWidth 32
    let immHi := ((imm &&& 0x1FFFFC) <<< 3).setWidth 32
    (orig &&& ~~~0x60FFFFE0#32) ||| immLo ||| immHi)

def applyArm64Imm (m : Mem) (off : Int) (imm : BitVec 64) (rangeLimit : Nat) : Mem :=
  modify32 m off (fun orig =>
    let imm := imm + ((orig >>> 10) &&& 0xFFF).setWidth 64
    (orig &&& ~~~0x3FFC00#32) ||| ((imm &&& (0xFFF >>> rangeLimit)) <<< 10).setWidth 32)

/-- The log2 of the access size; 0x04800000 marks 128-bit SIMD registers. -/
def ldrSize (orig : BitVec 32) : Nat :=
  (orig >>> 30).toNat + (if orig &&& 0x4800000 = 0x4800000 then 4 else 0)

def applyArm64Ldr (m : Mem) (off : Int) (imm : BitVec 64) : Patched :=
  let size := ldrSize (read32 m off)
  (applyArm64Imm m off (imm >>> size) size,
    if imm &&& ((1 <<< size) - 1) ≠ 0 then ["misaligned ldr/str offset"] else [])

def applySecRelLow12A (sec : RelocatedSection) (m : Mem) (off : Int) (os : Option SymbolSection)
    (s : BitVec 64) : Patched :=
  let (allowed, errors) := checkSecRel sec os
  if allowed then (applyArm64Imm m off ((s - rvaOfSection os) &&& 0xfff) 0, errors) else (m, errors)

def applySecRelHigh12A (sec : RelocatedSection) (m : Mem) (off : Int) (os : Option SymbolSection)
    (s : BitVec 64) : Patched :=
  let (allowed, errors) := checkSecRel sec os
  let orig := read32 m off
  let imm := (s + ((orig >>> 10) &&& 0xFFF).setWidth 64 - rvaOfSection os) >>> 12
  if ¬ allowed then (m, errors)
  else if 0xfff < imm.toNat then
    (m, ["overflow in SECREL_HIGH12A relocation in section: " ++ sec.sectionName])
  else (write32 m off ((orig &&& ~~~0x3FFC00#32) ||| (imm <<< 10).setWidth 32), [])

def applySecRelLdr (sec : RelocatedSection) (m : Mem) (off : Int) (os : Option SymbolSection)
    (s : BitVec 64) : Patched :=
  let (allowed, errors) := checkSecRel sec os
  if allowed then applyArm64Ldr m off ((s - rvaOfSection os) &&& 0xfff) else (m, errors)

def applyArm64Branch26 (m : Mem) (off : Int) (v : BitVec 64) : Patched :=
  (or32 m off (((v &&& 0x0FFFFFFC) >>> 2).setWidth 32), outOfRange 28 v.toInt)

def applyArm64Branch19 (m : Mem) (off : Int) (v : BitVec 64) : Patched :=
  (or32 m off (((v &&& 0x001FFFFC) <<< 3).setWidth 32), outOfRange 21 v.toInt)

def applyArm64Branch14 (m : Mem) (off : Int) (v : BitVec 64) : Patched :=
  (or32 m off (((v &&& 0x0000FFFC) <<< 3).setWidth 32), outOfRange 16 v.toInt)

def applyRelARM64 (a : RelocArgs) (m : Mem) (off : Int) (type : Nat) : Patched :=
  if type = relArm64PageBaseRel21 then (applyArm64Addr m off a.s a.p 12, [])
  else if type = relArm64Rel21 then (applyArm64Addr m off a.s a.p 0, [])
  else if type = relArm64PageOffset12A then (applyArm64Imm m off (a.s &&& 0xfff) 0, [])
  else if type = relArm64PageOffset12L then applyArm64Ldr m off (a.s &&& 0xfff)
  else if type = relArm64Branch26 then applyArm64Branch26 m off (a.s - a.p)
  else if type = relArm64Branch19 then applyArm64Branch19 m off (a.s - a.p)
  else if type = relArm64Branch14 then applyArm64Branch14 m off (a.s - a.p)
  else if type = relArm64Addr32 then (add32 m off ((a.s + a.imageBase).setWidth 32), [])
  else if type = relArm64Addr32NB then (add32 m off (a.s.setWidth 32), [])
  else if type = relArm64Addr64 then (add64 m off (a.s + a.imageBase), [])
  else if type = relArm64SecRel then applySecRel a.sec m off a.os a.s
  else if type = relArm64SecRelLow12A then applySecRelLow12A a.sec m off a.os a.s
  else if type = relArm64SecRelHigh12A then applySecRelHigh12A a.sec m off a.os a.s
  else if type = relArm64SecRelLow12L then applySecRelLdr a.sec m off a.os a.s
  else if type = relArm64Section then (applySecIdx m off a.os a.numOutputSections, [])
  else if type = relArm64Rel32 then (add32 m off ((a.s - a.p - 4).setWidth 32), [])
  else (m, unsupported a.sec type)

/-- The switch of `applyRelocation` over `getArch`. -/
def applyRel (machine : Machine) : RelocArgs → Mem → Int → Nat → Patched :=
  match machine with
  | .amd64 => applyRelX64
  | .i386 => applyRelX86
  | .armnt => applyRelARM
  | .arm64 | .arm64ec | .arm64x => applyRelARM64

/-! ### Footprints -/

/-- The number of bytes that a relocation of the given type reads and writes. -/
def relocWidth (machine : Machine) (type : Nat) : Nat :=
  match machine with
  | .amd64 =>
      if type = relAmd64Addr64 then 8
      else if type = relAmd64Section then 2
      else if relAmd64Addr32 ≤ type ∧ type ≤ relAmd64Rel32_5 ∨ type = relAmd64SecRel then 4
      else 0
  | .i386 =>
      if type = relI386Section then 2
      else if type = relI386Dir32 ∨ type = relI386Dir32NB ∨ type = relI386Rel32 ∨
        type = relI386SecRel then 4
      else 0
  | .armnt =>
      if type = relArmMov32T then 8
      else if type = relArmSection then 2
      else if type = relArmAddr32 ∨ type = relArmAddr32NB ∨ type = relArmRel32 ∨
        type = relArmSecRel ∨ type = relArmBranch20T ∨ type = relArmBranch24T ∨
        type = relArmBlx23T then 4
      else 0
  | .arm64 | .arm64ec | .arm64x =>
      if type = relArm64Addr64 then 8
      else if type = relArm64Section then 2
      else if relArm64Addr32 ≤ type ∧ type ≤ relArm64SecRelLow12L ∨ type = relArm64Branch19 ∨
        type = relArm64Branch14 ∨ type = relArm64Rel32 then 4
      else 0

section Footprints

variable (off : Int)

private theorem local_add16 (v : BitVec 16) : Local (Set.Ico off (off + 2))
    (fun m => add16 m off v) :=
  local_modify16 off (· + v)

private theorem local_add32 (v : BitVec 32) : Local (Set.Ico off (off + 4))
    (fun m => add32 m off v) :=
  local_modify32 off (· + v)

private theorem local_add64 (v : BitVec 64) : Local (Set.Ico off (off + 8))
    (fun m => add64 m off v) :=
  local_modify64 off (· + v)

private theorem local_or32 (v : BitVec 32) : Local (Set.Ico off (off + 4))
    (fun m => or32 m off v) :=
  local_modify32 off (· ||| v)

private theorem local_applySecRel (sec : RelocatedSection) (os : Option SymbolSection)
    (s : BitVec 64) :
    Local (Set.Ico off (off + 4)) (fun m => (applySecRel sec m off os s).1) := by
  unfold applySecRel
  dsimp only
  by_cases allowed : (checkSecRel sec os).1
  · simp only [allowed, not_true_eq_false, if_false]
    split_ifs
    · exact Local.id
    · exact local_add32 off _
  · simp only [allowed]
    exact Local.id

private theorem local_applySecIdx (os : Option SymbolSection) (count : Nat) :
    Local (Set.Ico off (off + 2)) (fun m => applySecIdx m off os count) := by
  cases os with
  | some os => exact local_add16 off (BitVec.ofNat 16 os.sectionIndex)
  | none => exact local_add16 off (BitVec.ofNat 16 (count + 1))

/-- Two halfwords changed one after the other. -/
theorem local_halfwords (f g : BitVec 16 → BitVec 16) :
    Local (Set.Ico off (off + 4)) (fun m => modify16 (modify16 m off f) (off + 2) g) := by
  have first : Local (Set.Ico off (off + 4)) (fun m => modify16 m off f) :=
    (local_modify16 off f).mono (Set.Ico_subset_Ico_right (by omega))
  have second : Local (Set.Ico off (off + 4)) (fun m => modify16 m (off + 2) g) :=
    (local_modify16 (off + 2) g).mono (Set.Ico_subset_Ico (by omega) (by omega))
  exact first.comp second

private theorem local_applyMOV (v : BitVec 16) :
    Local (Set.Ico off (off + 4)) (fun m => applyMOV m off v) := by
  simp only [applyMOV]
  exact local_halfwords off _ _

private theorem readsOnly_readMOV (movt : Bool) :
    ReadsOnly (Set.Ico off (off + 4)) (fun m => readMOV m off movt) := by
  intro m n agree
  have low : read16 m off = read16 n off :=
    (readsOnly_read16 off).mono (Set.Ico_subset_Ico_right (by omega)) m n agree
  have high : read16 m (off + 2) = read16 n (off + 2) :=
    (readsOnly_read16 (off + 2)).mono (Set.Ico_subset_Ico (by omega) (by omega)) m n agree
  simp only [readMOV, low, high]

/-- The operands are read before either instruction is written. -/
theorem local_applyMOV32T (v : BitVec 32) :
    Local (Set.Ico off (off + 8)) (fun m => (applyMOV32T m off v).1) := by
  have first : Set.Ico off (off + 4) ⊆ Set.Ico off (off + 8) :=
    Set.Ico_subset_Ico_right (by omega)
  have second : Set.Ico (off + 4) (off + 4 + 4) ⊆ Set.Ico off (off + 8) :=
    Set.Ico_subset_Ico (by omega) (by omega)
  have operands : ReadsOnly (Set.Ico off (off + 8))
      (fun m => (readMOV m off false, readMOV m (off + 4) true)) := by
    intro m n agree
    have low := (readsOnly_readMOV off false).mono first m n agree
    have high := (readsOnly_readMOV (off + 4) true).mono second m n agree
    exact Prod.ext low high
  have writes : ∀ v : BitVec 32, Local (Set.Ico off (off + 8)) (fun m =>
      applyMOV (applyMOV m off (v.setWidth 16)) (off + 4) ((v >>> 16).setWidth 16)) := by
    intro v
    have low := (local_applyMOV off (v.setWidth 16)).mono first
    have high := (local_applyMOV (off + 4) ((v >>> 16).setWidth 16)).mono second
    exact low.comp high
  unfold applyMOV32T
  exact Local.bind operands (fun ops => writes (v + (ops.2.1 ++ ops.1.1)))

private theorem local_applyBranch20T (v : BitVec 32) :
    Local (Set.Ico off (off + 4)) (fun m => (applyBranch20T m off v).1) := by
  unfold applyBranch20T or16
  dsimp only
  exact local_halfwords off _ _

private theorem local_applyBranch24T (v : BitVec 32) :
    Local (Set.Ico off (off + 4)) (fun m => (applyBranch24T m off v).1) := by
  unfold applyBranch24T or16
  dsimp only
  exact local_halfwords off _ _

theorem local_applyArm64Addr (s p : BitVec 64) (shift : Nat) :
    Local (Set.Ico off (off + 4)) (fun m => applyArm64Addr m off s p shift) := by
  unfold applyArm64Addr
  exact local_modify32 off _

theorem local_applyArm64Imm (imm : BitVec 64) (rangeLimit : Nat) :
    Local (Set.Ico off (off + 4)) (fun m => applyArm64Imm m off imm rangeLimit) := by
  unfold applyArm64Imm
  exact local_modify32 off _

private theorem local_applyArm64Ldr (imm : BitVec 64) :
    Local (Set.Ico off (off + 4)) (fun m => (applyArm64Ldr m off imm).1) := by
  have each : ∀ orig, Local (Set.Ico off (off + 4))
      (fun m => applyArm64Imm m off (imm >>> ldrSize orig) (ldrSize orig)) :=
    fun orig => local_applyArm64Imm off _ _
  exact Local.bind (readsOnly_read32 off) each

private theorem local_applySecRelLow12A (sec : RelocatedSection) (os : Option SymbolSection)
    (s : BitVec 64) :
    Local (Set.Ico off (off + 4)) (fun m => (applySecRelLow12A sec m off os s).1) := by
  unfold applySecRelLow12A
  dsimp only
  split_ifs
  · exact local_applyArm64Imm off _ _
  · exact Local.id

/-- The word that is read decides between the overflow error and the write. -/
theorem local_applySecRelHigh12A (sec : RelocatedSection) (os : Option SymbolSection)
    (s : BitVec 64) :
    Local (Set.Ico off (off + 4)) (fun m => (applySecRelHigh12A sec m off os s).1) := by
  constructor
  · intro m a outside
    unfold applySecRelHigh12A
    dsimp only
    split
    · rfl
    · split
      · rfl
      · exact (local_write32 off _).frame m a outside
  · intro m n agree
    -- only the four bytes of the field are read
    have same : read32 m off = read32 n off := readsOnly_read32 off m n agree
    unfold applySecRelHigh12A
    dsimp only
    rw [same]
    split
    · exact agree
    · split
      · exact agree
      · exact (local_write32 off _).reads m n agree

private theorem local_applySecRelLdr (sec : RelocatedSection) (os : Option SymbolSection)
    (s : BitVec 64) :
    Local (Set.Ico off (off + 4)) (fun m => (applySecRelLdr sec m off os s).1) := by
  unfold applySecRelLdr
  dsimp only
  split_ifs
  · exact local_applyArm64Ldr off _
  · exact Local.id

/-- One branch of a switch over the relocation type. -/
theorem local_ite {S : Set Int} {p : Prop} [Decidable p] {f g : Mem → Patched}
    (pos : p → Local S (fun m => (f m).1)) (neg : ¬ p → Local S (fun m => (g m).1)) :
    Local S (fun m => (if p then f m else g m).1) := by
  by_cases holds : p
  · simp only [if_pos holds]
    exact pos holds
  · simp only [if_neg holds]
    exact neg holds

private theorem local_applyRelX64 (a : RelocArgs) (type : Nat) :
    Local (Set.Ico off (off + relocWidth .amd64 type))
      (fun m => (applyRelX64 a m off type).1) := by
  -- the tests come in the order of the source, each branch within the width of its type
  unfold applyRelX64
  apply local_ite
  · rintro rfl
    exact local_add32 off _
  intro _
  apply local_ite
  · rintro rfl
    exact local_add64 off _
  intro notAddr64
  apply local_ite
  · rintro rfl
    exact local_add32 off _
  intro _
  apply local_ite
  · intro range
    have four : relocWidth .amd64 type = 4 := by
      have notSection : type ≠ relAmd64Section := by
        unfold relAmd64Rel32_5 at range
        unfold relAmd64Section
        omega
      have atLeast : relAmd64Addr32 ≤ type := Nat.le_trans (by decide) range.1
      rw [relocWidth, if_neg notAddr64, if_neg notSection, if_pos (Or.inl ⟨atLeast, range.2⟩)]
    rw [four]
    exact local_add32 off _
  intro _
  apply local_ite
  · rintro rfl
    exact local_applySecIdx off _ _
  intro _
  apply local_ite
  · rintro rfl
    exact local_applySecRel off _ _ _
  intro _
  exact Local.id

private theorem local_applyRelX86 (a : RelocArgs) (type : Nat) :
    Local (Set.Ico off (off + relocWidth .i386 type))
      (fun m => (applyRelX86 a m off type).1) := by
  -- in the order of the source again; the first branch is the type that does nothing
  unfold applyRelX86
  apply local_ite
  · intro _
    exact Local.id
  intro _
  apply local_ite
  · rintro rfl
    exact local_add32 off _
  intro _
  apply local_ite
  · rintro rfl
    exact local_add32 off _
  intro _
  apply local_ite
  · rintro rfl
    exact local_add32 off _
  intro _
  apply local_ite
  · rintro rfl
    exact local_applySecIdx off _ _
  intro _
  apply local_ite
  · rintro rfl
    exact local_applySecRel off _ _ _
  intro _
  exact Local.id

private theorem local_applyRelARM (a : RelocArgs) (type : Nat) :
    Local (Set.Ico off (off + relocWidth .armnt type))
      (fun m => (applyRelARM a m off type).1) := by
  unfold applyRelARM
  dsimp only
  -- in the order of the source again, the Thumb branches and the MOV pair among them
  apply local_ite
  · rintro rfl
    exact local_add32 off _
  intro _
  apply local_ite
  · rintro rfl
    exact local_add32 off _
  intro _
  apply local_ite
  · rintro rfl
    exact local_applyMOV32T off _
  intro _
  apply local_ite
  · rintro rfl
    exact local_applyBranch20T off _
  intro _
  apply local_ite
  · rintro rfl
    exact local_applyBranch24T off _
  intro _
  apply local_ite
  · rintro rfl
    exact local_applyBranch24T off _
  intro _
  apply local_ite
  · rintro rfl
    exact local_applySecIdx off _ _
  intro _
  apply local_ite
  · rintro rfl
    exact local_applySecRel off _ _ _
  intro _
  apply local_ite
  · rintro rfl
    exact local_add32 off _
  intro _
  exact Local.id

private theorem local_applyRelARM64 (a : RelocArgs) (type : Nat) :
    Local (Set.Ico off (off + relocWidth .arm64 type))
      (fun m => (applyRelARM64 a m off type).1) := by
  unfold applyRelARM64
  -- One case per relocation type, in the order of the `switch`; the last is the unknown type.
  apply local_ite
  · rintro rfl
    exact local_applyArm64Addr off _ _ _
  intro _
  apply local_ite
  · rintro rfl
    exact local_applyArm64Addr off _ _ _
  intro _
  apply local_ite
  · rintro rfl
    exact local_applyArm64Imm off _ _
  intro _
  apply local_ite
  · rintro rfl
    exact local_applyArm64Ldr off _
  intro _
  apply local_ite
  · rintro rfl
    exact local_or32 off _
  intro _
  apply local_ite
  · rintro rfl
    exact local_or32 off _
  intro _
  apply local_ite
  · rintro rfl
    exact local_or32 off _
  intro _
  apply local_ite
  · rintro rfl
    exact local_add32 off _
  intro _
  apply local_ite
  · rintro rfl
    exact local_add32 off _
  intro _
  apply local_ite
  · rintro rfl
    exact local_add64 off _
  intro _
  apply local_ite
  · rintro rfl
    exact local_applySecRel off _ _ _
  intro _
  apply local_ite
  · rintro rfl
    exact local_applySecRelLow12A off _ _ _
  intro _
  apply local_ite
  · rintro rfl
    exact local_applySecRelHigh12A off _ _ _
  intro _
  apply local_ite
  · rintro rfl
    exact local_applySecRelLdr off _ _ _
  intro _
  apply local_ite
  · rintro rfl
    exact local_applySecIdx off _ _
  intro _
  apply local_ite
  · rintro rfl
    exact local_add32 off _
  intro _
  exact Local.id

/-- A relocation reads and writes nothing but the bytes of its width. -/
theorem local_applyRel (machine : Machine) (a : RelocArgs) (type : Nat) :
    Local (Set.Ico off (off + relocWidth machine type))
      (fun m => (applyRel machine a m off type).1) := by
  cases machine with
  | amd64 => exact local_applyRelX64 off a type
  | i386 => exact local_applyRelX86 off a type
  | armnt => exact local_applyRelARM off a type
  | arm64 => exact local_applyRelARM64 off a type
  | arm64ec => exact local_applyRelARM64 off a type
  | arm64x => exact local_applyRelARM64 off a type

end Footprints

/-! ### Refused relocations -/

/-- The type that `applySecRel` serves. -/
def Machine.secRel : Machine → Nat
  | .amd64 => relAmd64SecRel
  | .i386 => relI386SecRel
  | .armnt => relArmSecRel
  | .arm64 | .arm64ec | .arm64x => relArm64SecRel

/-- A section-relative relocation that is refused before anything is written: `checkSecRel` has no
section for it, or the distance of a `SECREL` leaves the 32 bits. -/
def SecRelRefused (machine : Machine) (s : BitVec 64) (os : Option SymbolSection) (type : Nat) :
    Prop :=
  type = machine.secRel ∧ (os = none ∨ uint32Max < (s - rvaOfSection os).toNat) ∨
    machine.isAnyArm64 = true ∧
      type ∈ [relArm64SecRelLow12A, relArm64SecRelHigh12A, relArm64SecRelLow12L] ∧ os = none

instance (machine : Machine) (s : BitVec 64) (os : Option SymbolSection) (type : Nat) :
    Decidable (SecRelRefused machine s os type) :=
  inferInstanceAs (Decidable (_ ∧ _ ∨ _ ∧ _ ∧ _))

private theorem checkSecRel_absolute (sec : RelocatedSection) : (checkSecRel sec none).1 = false := by
  rw [checkSecRel]
  split <;> rfl

private theorem applySecRel_refused {sec : RelocatedSection} {os : Option SymbolSection} {s : BitVec 64}
    (refused : os = none ∨ uint32Max < (s - rvaOfSection os).toNat) (m : Mem) (off : Int) :
    (applySecRel sec m off os s).1 = m := by
  rw [applySecRel]
  rcases checked : checkSecRel sec os with ⟨_ | _, errors⟩
  · rfl
  · have overflows : uint32Max < (s - rvaOfSection os).toNat := by
      refine refused.resolve_left ?_
      rintro rfl
      have refuses := checkSecRel_absolute sec
      rw [checked] at refuses
      cases refuses
    simp only [not_true_eq_false, if_false, if_pos overflows]

theorem applyRel_refused {machine : Machine} {a : RelocArgs} {type : Nat}
    (refused : SecRelRefused machine a.s a.os type) (m : Mem) (off : Int) :
    (applyRel machine a m off type).1 = m := by
  rcases refused with ⟨rfl, refused⟩ | ⟨arm64, member, absolute⟩
  · cases machine with
    | amd64 | i386 | armnt | arm64 | arm64ec | arm64x => exact applySecRel_refused refused m off
  · have refuses := checkSecRel_absolute a.sec
    rw [← absolute] at refuses
    have same : applyRel machine = applyRelARM64 := by
      cases machine <;> first | rfl | cases arm64
    simp only [List.mem_cons, List.not_mem_nil, or_false] at member
    rw [same]
    rcases member with rfl | rfl | rfl
    · change (applySecRelLow12A a.sec m off a.os a.s).1 = m
      simp [applySecRelLow12A, refuses]
    · change (applySecRelHigh12A a.sec m off a.os a.s).1 = m
      simp [applySecRelHigh12A, refuses]
    · change (applySecRelLdr a.sec m off a.os a.s).1 = m
      simp [applySecRelLdr, refuses]

/-! ### A relocation does the same at every place -/

section Places

theorem placeFree_id {errors : List String} : PlaceFree (fun m _ => ((m, errors) : Patched).1) :=
  fun _ _ _ => rfl

/-- One branch of a switch over the relocation type. -/
theorem placeFree_ite {p : Prop} [Decidable p] {f g : Mem → Int → Patched}
    (pos : PlaceFree (fun m off => (f m off).1)) (neg : PlaceFree (fun m off => (g m off).1)) :
    PlaceFree (fun m off => (if p then f m off else g m off).1) := by
  by_cases holds : p
  · simpa only [if_pos holds] using pos
  · simpa only [if_neg holds] using neg

private theorem placeFree_add32 (v : BitVec 32) : PlaceFree (fun m off => add32 m off v) :=
  fun d m off => modify32_shifted d m off (· + v)

private theorem placeFree_add64 (v : BitVec 64) : PlaceFree (fun m off => add64 m off v) :=
  fun d m off => modify64_shifted d m off (· + v)

private theorem placeFree_applySecIdx (os : Option SymbolSection) (count : Nat) :
    PlaceFree (fun m off => applySecIdx m off os count) := by
  intro d m off
  cases os with
  | some os => exact modify16_shifted d m off (· + BitVec.ofNat 16 os.sectionIndex)
  | none => exact modify16_shifted d m off (· + BitVec.ofNat 16 (count + 1))

private theorem placeFree_applySecRel (sec : RelocatedSection) (os : Option SymbolSection)
    (s : BitVec 64) : PlaceFree (fun m off => (applySecRel sec m off os s).1) := by
  simp only [applySecRel]
  exact placeFree_ite placeFree_id (placeFree_ite placeFree_id (placeFree_add32 _))

private theorem readMOV_shifted (d : Int) (m : Mem) (off : Int) (movt : Bool) :
    readMOV (shifted d m) off movt = readMOV m (off + d) movt := by
  simp only [readMOV, read16_shifted, Int.add_right_comm off 2 d]

private theorem applyMOV_shifted (d : Int) (m : Mem) (off : Int) (v : BitVec 16) :
    applyMOV (shifted d m) off v = shifted d (applyMOV m (off + d) v) := by
  simp only [applyMOV, modify16_shifted, Int.add_right_comm off 2 d]

private theorem placeFree_applyMOV32T (v : BitVec 32) :
    PlaceFree (fun m off => (applyMOV32T m off v).1) := by
  intro d m off
  simp only [applyMOV32T, readMOV_shifted, applyMOV_shifted, Int.add_right_comm off 4 d]

private theorem placeFree_applyBranch20T (v : BitVec 32) :
    PlaceFree (fun m off => (applyBranch20T m off v).1) := by
  intro d m off
  simp only [applyBranch20T, or16, modify16_shifted, Int.add_right_comm off 2 d]

private theorem placeFree_applyBranch24T (v : BitVec 32) :
    PlaceFree (fun m off => (applyBranch24T m off v).1) := by
  intro d m off
  simp only [applyBranch24T, or16, modify16_shifted, Int.add_right_comm off 2 d]

private theorem placeFree_applyArm64Addr (s p : BitVec 64) (shift : Nat) :
    PlaceFree (fun m off => applyArm64Addr m off s p shift) :=
  fun d m off => modify32_shifted d m off _

private theorem placeFree_applyArm64Imm (imm : BitVec 64) (rangeLimit : Nat) :
    PlaceFree (fun m off => applyArm64Imm m off imm rangeLimit) :=
  fun d m off => modify32_shifted d m off _

private theorem placeFree_applyArm64Ldr (imm : BitVec 64) :
    PlaceFree (fun m off => (applyArm64Ldr m off imm).1) := by
  intro d m off
  simp only [applyArm64Ldr, read32_shifted]
  exact placeFree_applyArm64Imm _ _ d m off

private theorem placeFree_or32 (v : BitVec 32) : PlaceFree (fun m off => or32 m off v) :=
  fun d m off => modify32_shifted d m off (· ||| v)

private theorem placeFree_applySecRelLow12A (sec : RelocatedSection) (os : Option SymbolSection)
    (s : BitVec 64) : PlaceFree (fun m off => (applySecRelLow12A sec m off os s).1) := by
  unfold applySecRelLow12A
  exact placeFree_ite (placeFree_applyArm64Imm _ _) placeFree_id

private theorem placeFree_applySecRelHigh12A (sec : RelocatedSection) (os : Option SymbolSection)
    (s : BitVec 64) : PlaceFree (fun m off => (applySecRelHigh12A sec m off os s).1) := by
  intro d m off
  simp only [applySecRelHigh12A, read32_shifted]
  by_cases allowed : (checkSecRel sec os).1
  · simp only [allowed, not_true_eq_false, if_false]
    split_ifs
    · rfl
    · exact write32_shifted d m off _
  · simp only [allowed]
    rfl

private theorem placeFree_applySecRelLdr (sec : RelocatedSection) (os : Option SymbolSection)
    (s : BitVec 64) : PlaceFree (fun m off => (applySecRelLdr sec m off os s).1) := by
  simp only [applySecRelLdr]
  exact placeFree_ite (placeFree_applyArm64Ldr _) placeFree_id

private theorem placeFree_applyRelX64 (a : RelocArgs) (type : Nat) :
    PlaceFree (fun m off => (applyRelX64 a m off type).1) := by
  unfold applyRelX64
  refine placeFree_ite (placeFree_add32 _) (placeFree_ite (placeFree_add64 _) ?_)
  refine placeFree_ite (placeFree_add32 _) (placeFree_ite (placeFree_add32 _) ?_)
  exact placeFree_ite (placeFree_applySecIdx _ _)
    (placeFree_ite (placeFree_applySecRel _ _ _) placeFree_id)

private theorem placeFree_applyRelX86 (a : RelocArgs) (type : Nat) :
    PlaceFree (fun m off => (applyRelX86 a m off type).1) := by
  unfold applyRelX86
  refine placeFree_ite placeFree_id (placeFree_ite (placeFree_add32 _) ?_)
  refine placeFree_ite (placeFree_add32 _) (placeFree_ite (placeFree_add32 _) ?_)
  exact placeFree_ite (placeFree_applySecIdx _ _)
    (placeFree_ite (placeFree_applySecRel _ _ _) placeFree_id)

private theorem placeFree_applyRelARM (a : RelocArgs) (type : Nat) :
    PlaceFree (fun m off => (applyRelARM a m off type).1) := by
  unfold applyRelARM
  dsimp only
  refine placeFree_ite (placeFree_add32 _) (placeFree_ite (placeFree_add32 _) ?_)
  refine placeFree_ite (placeFree_applyMOV32T _) (placeFree_ite (placeFree_applyBranch20T _) ?_)
  refine placeFree_ite (placeFree_applyBranch24T _) (placeFree_ite (placeFree_applyBranch24T _) ?_)
  refine placeFree_ite (placeFree_applySecIdx _ _) (placeFree_ite (placeFree_applySecRel _ _ _) ?_)
  exact placeFree_ite (placeFree_add32 _) placeFree_id

private theorem placeFree_applyRelARM64 (a : RelocArgs) (type : Nat) :
    PlaceFree (fun m off => (applyRelARM64 a m off type).1) := by
  unfold applyRelARM64
  refine placeFree_ite (placeFree_applyArm64Addr _ _ _)
    (placeFree_ite (placeFree_applyArm64Addr _ _ _) ?_)
  refine placeFree_ite (placeFree_applyArm64Imm _ _) (placeFree_ite (placeFree_applyArm64Ldr _) ?_)
  refine placeFree_ite (placeFree_or32 _) (placeFree_ite (placeFree_or32 _) ?_)
  refine placeFree_ite (placeFree_or32 _) (placeFree_ite (placeFree_add32 _) ?_)
  refine placeFree_ite (placeFree_add32 _) (placeFree_ite (placeFree_add64 _) ?_)
  refine placeFree_ite (placeFree_applySecRel _ _ _)
    (placeFree_ite (placeFree_applySecRelLow12A _ _ _) ?_)
  refine placeFree_ite (placeFree_applySecRelHigh12A _ _ _)
    (placeFree_ite (placeFree_applySecRelLdr _ _ _) ?_)
  exact placeFree_ite (placeFree_applySecIdx _ _)
    (placeFree_ite (placeFree_add32 _) placeFree_id)

theorem placeFree_applyRel (machine : Machine) (a : RelocArgs) (type : Nat) :
    PlaceFree (fun m off => (applyRel machine a m off type).1) := by
  cases machine with
  | amd64 => exact placeFree_applyRelX64 a type
  | i386 => exact placeFree_applyRelX86 a type
  | armnt => exact placeFree_applyRelARM a type
  | arm64 | arm64ec | arm64x => exact placeFree_applyRelARM64 a type

end Places

end LlvmLd.Writer
