import Mathlib.Data.List.Forall2
import LlvmLd.Lib.Bytes

/-!
The sections that `lld/COFF/ICF.cpp` compares, and the comparisons. Each comparison is equality of
a key: what a relocation refers to counts as the class of its chunk when the symbol is a
`DefinedRegular`, and as the symbol itself otherwise.
-/

namespace LlvmLd.Icf

abbrev ChunkId := Nat
abbrev SymbolId := Nat

inductive ICFLevel where
  | none | safe | all
  deriving DecidableEq, Repr

structure CoffRelocation where
  virtualAddress : Nat
  symbolTableIndex : Nat
  type : Nat
  deriving DecidableEq, Repr

/-- A `SectionChunk` with the fields of its header; `getSymbol` is the symbol table of its file. -/
structure SectionChunk where
  sectionName : Bytes
  characteristics : Nat
  sizeOfRawData : Nat
  checksum : Nat
  machine : Nat
  contents : Bytes
  relocs : List CoffRelocation
  getSymbol : Nat → SymbolId
  -- the name of the COMDAT leader
  sym : Option Bytes
  entryThunk : Option SymbolId
  isAssociative : Bool
  assocChildren : List ChunkId
  live : Bool
  keepUnique : Bool
  p2Align : Nat

structure DefinedRegular where
  chunk : ChunkId
  value : Nat
  deriving DecidableEq, Repr

/--
What `ICF::run` reads. `driverChunks` are the section chunks of `driver.getChunks()`,
`mergeSections` those of the merge chunks; `readSection` puts a chunk in one vector, once.
-/
structure Program where
  doICF : ICFLevel
  machineIsI386 : Bool
  chunk : ChunkId → SectionChunk
  -- `none` for a symbol of another kind
  definedRegular : SymbolId → Option DefinedRegular
  driverChunks : List ChunkId
  mergeSections : List ChunkId
  xxh3_64bits : Bytes → Nat
  distinct : (driverChunks ++ mergeSections).Nodup
  few : (driverChunks ++ mergeSections).length < 2 ^ 31

def permMask : Nat := 0xFE000000
def typeMask : Nat := 0x000000E0
def IMAGE_SCN_LNK_COMDAT : Nat := 0x1000
def IMAGE_SCN_MEM_EXECUTE : Nat := 0x20000000
def IMAGE_SCN_MEM_WRITE : Nat := 0x80000000

def SectionChunk.getOutputCharacteristics (sc : SectionChunk) : Nat :=
  sc.characteristics &&& (permMask ||| typeMask)

def SectionChunk.isCOMDAT (sc : SectionChunk) : Bool :=
  sc.characteristics &&& IMAGE_SCN_LNK_COMDAT != 0

def SectionChunk.children (sc : SectionChunk) : List ChunkId :=
  if sc.isAssociative then [] else sc.assocChildren

def ascii (s : String) : Bytes := s.toUTF8.toList

def isEligible (p : Program) (c : ChunkId) : Bool :=
  let sc := p.chunk c
  let writable := sc.getOutputCharacteristics &&& IMAGE_SCN_MEM_WRITE != 0
  if !sc.isCOMDAT || !sc.live || writable then
    false
  else if p.doICF == .all && sc.getOutputCharacteristics &&& IMAGE_SCN_MEM_EXECUTE != 0 then
    true
  else
    let outSecName := sc.sectionName.takeWhile (· != 36)
    let itaniumVtablePrefix := if p.machineIsI386 then ascii "__ZTV" else ascii "_ZTV"
    if outSecName == ascii ".pdata" || outSecName == ascii ".xdata" then
      true
    else if sc.sym.any (fun name =>
        (ascii "??_7").isPrefixOf name || itaniumVtablePrefix.isPrefixOf name) then
      true
    else
      !sc.keepUnique

/-- The chunks that the driver collects for folding. -/
def Program.collected (p : Program) : List ChunkId := p.driverChunks.filter (isEligible p)

variable (p : Program)

/-! ### Comparisons -/

/-- `std::equal` with one end: the second range is at least as long wherever it is called. -/
def stdEqual {α : Type} (eq : α → α → Bool) : List α → List α → Bool
  | [], _ => true
  | _ :: _, [] => false
  | a :: as, b :: bs => eq a b && stdEqual eq as bs

def considerForICF (assoc : ChunkId) : Bool :=
  let name := (p.chunk assoc).sectionName
  !((ascii ".debug").isPrefixOf name || name == ascii ".gfids$y" ||
    name == ascii ".giats$y" || name == ascii ".gljmp$y")

def considered (a : ChunkId) : List ChunkId := (p.chunk a).children.filter (considerForICF p)

/-- `cls` is `eqClass[cnt % 2]`. -/
def assocEquals (cls : ChunkId → Nat) (a b : ChunkId) : Bool :=
  let ra := considered p a
  let rb := considered p b
  ra.length == rb.length && stdEqual (fun ia ib => cls ia == cls ib) ra rb

/-- The symbol that a relocation of the chunk refers to. -/
def target (a : ChunkId) (r : CoffRelocation) : SymbolId :=
  (p.chunk a).getSymbol r.symbolTableIndex

/-- The `eq` of `equalsConstant`. -/
def constantEq (cls : ChunkId → Nat) (a b : ChunkId) (r1 r2 : CoffRelocation) : Bool :=
  if r1.type != r2.type || r1.virtualAddress != r2.virtualAddress then
    false
  else
    let b1 := target p a r1
    let b2 := target p b r2
    if b1 == b2 then
      true
    else
      match p.definedRegular b1, p.definedRegular b2 with
      | some d1, some d2 => d1.value == d2.value && cls d1.chunk == cls d2.chunk
      | _, _ => false

def equalsConstant (cls : ChunkId → Nat) (a b : ChunkId) : Bool :=
  let sa := p.chunk a
  let sb := p.chunk b
  if sa.relocs.length != sb.relocs.length then
    false
  else if !stdEqual (constantEq p cls a b) sa.relocs sb.relocs then
    false
  else
    sa.getOutputCharacteristics == sb.getOutputCharacteristics &&
      sa.sectionName == sb.sectionName &&
      sa.sizeOfRawData == sb.sizeOfRawData &&
      sa.checksum == sb.checksum && sa.contents == sb.contents &&
      sa.machine == sb.machine && assocEquals p cls a b

def eqSym (cls : ChunkId → Nat) (b1 b2 : SymbolId) : Bool :=
  if b1 == b2 then
    true
  else
    match p.definedRegular b1, p.definedRegular b2 with
    | some d1, some d2 => cls d1.chunk == cls d2.chunk
    | _, _ => false

def equalsVariable (cls : ChunkId → Nat) (a b : ChunkId) : Bool :=
  let sa := p.chunk a
  let sb := p.chunk b
  let eq (r1 r2 : CoffRelocation) : Bool := eqSym p cls (target p a r1) (target p b r2)
  let sameThunk :=
    match sa.entryThunk, sb.entryThunk with
    | none, none => true
    | some e1, some e2 => eqSym p cls e1 e2
    | _, _ => false
  if !sameThunk then false
  else stdEqual eq sa.relocs sb.relocs && assocEquals p cls a b

/-! ### Keys -/

/-- What a symbol counts as in `equalsVariable`. -/
def symbolKey (cls : ChunkId → Nat) (s : SymbolId) : Nat ⊕ SymbolId :=
  match p.definedRegular s with
  | some d => .inl (cls d.chunk)
  | none => .inr s

/-- What a symbol counts as in `equalsConstant`, where the value is looked at too. -/
def targetKey (cls : ChunkId → Nat) (s : SymbolId) : (Nat × Nat) ⊕ SymbolId :=
  match p.definedRegular s with
  | some d => .inl (d.value, cls d.chunk)
  | none => .inr s

structure VariableKey where
  thunk : Option (Nat ⊕ SymbolId)
  targets : List (Nat ⊕ SymbolId)
  children : List Nat

structure ConstantKey where
  relocs : List (Nat × Nat × ((Nat × Nat) ⊕ SymbolId))
  characteristics : Nat
  sectionName : Bytes
  sizeOfRawData : Nat
  checksum : Nat
  contents : Bytes
  machine : Nat
  children : List Nat

def variableKey (cls : ChunkId → Nat) (a : ChunkId) : VariableKey where
  thunk := (p.chunk a).entryThunk.map (symbolKey p cls)
  targets := (p.chunk a).relocs.map (fun r => symbolKey p cls (target p a r))
  children := (considered p a).map cls

def constantKey (cls : ChunkId → Nat) (a : ChunkId) : ConstantKey where
  relocs := (p.chunk a).relocs.map (fun r =>
    (r.type, r.virtualAddress, targetKey p cls (target p a r)))
  characteristics := (p.chunk a).getOutputCharacteristics
  sectionName := (p.chunk a).sectionName
  sizeOfRawData := (p.chunk a).sizeOfRawData
  checksum := (p.chunk a).checksum
  contents := (p.chunk a).contents
  machine := (p.chunk a).machine
  children := (considered p a).map cls

variable {p} {cls : ChunkId → Nat}

private theorem stdEqual_iff_map {α β : Type} (eq : α → α → Bool) (f g : α → β)
    (keyed : ∀ a b, eq a b = true ↔ f a = g b) (xs ys : List α)
    (long : xs.length = ys.length) : stdEqual eq xs ys = true ↔ xs.map f = ys.map g := by
  induction xs generalizing ys with
  | nil =>
    have : ys = [] := List.length_eq_zero_iff.mp long.symm
    simp [stdEqual, this]
  | cons x xs ih =>
    cases ys with
    | nil => simp at long
    | cons y ys =>
      simp only [List.length_cons, Nat.add_right_cancel_iff] at long
      simp [stdEqual, keyed, ih ys long]

private theorem assocEquals_iff (a b : ChunkId) :
    assocEquals p cls a b = true ↔ (considered p a).map cls = (considered p b).map cls := by
  simp only [assocEquals, Bool.and_eq_true, beq_iff_eq]
  constructor
  · rintro ⟨long, same⟩
    exact (stdEqual_iff_map _ cls cls (by simp) _ _ long).mp same
  · intro same
    have long : (considered p a).length = (considered p b).length := by
      simpa using congrArg List.length same
    exact ⟨long, (stdEqual_iff_map _ cls cls (by simp) _ _ long).mpr same⟩

private theorem eqSym_iff (b1 b2 : SymbolId) :
    eqSym p cls b1 b2 = true ↔ symbolKey p cls b1 = symbolKey p cls b2 := by
  unfold eqSym symbolKey
  by_cases same : b1 = b2
  · simp [same]
  · cases left : p.definedRegular b1 <;> cases right : p.definedRegular b2 <;>
      simp [same]

theorem equalsVariable_iff (a b : ChunkId)
    (long : (p.chunk a).relocs.length = (p.chunk b).relocs.length) :
    equalsVariable p cls a b = true ↔ variableKey p cls a = variableKey p cls b := by
  have relocs := stdEqual_iff_map
    (fun r1 r2 => eqSym p cls (target p a r1) (target p b r2))
    (fun r => symbolKey p cls (target p a r)) (fun r => symbolKey p cls (target p b r))
    (fun r1 r2 => eqSym_iff _ _) _ _ long
  simp only [equalsVariable, variableKey, VariableKey.mk.injEq]
  rw [← relocs, ← assocEquals_iff]
  cases left : (p.chunk a).entryThunk <;> cases right : (p.chunk b).entryThunk <;>
    simp [eqSym_iff]

private theorem constantEq_iff (a b : ChunkId) (r1 r2 : CoffRelocation) :
    constantEq p cls a b r1 r2 = true ↔
      (r1.type, r1.virtualAddress, targetKey p cls (target p a r1)) =
        (r2.type, r2.virtualAddress, targetKey p cls (target p b r2)) := by
  simp only [constantEq, targetKey, Prod.mk.injEq]
  by_cases type : r1.type = r2.type
  · by_cases offset : r1.virtualAddress = r2.virtualAddress
    · by_cases same : target p a r1 = target p b r2
      · simp [type, offset, same]
      · cases left : p.definedRegular (target p a r1) <;>
          cases right : p.definedRegular (target p b r2) <;> simp [type, offset, same]
    · simp [type, offset]
  · simp [type]

theorem equalsConstant_iff (a b : ChunkId) :
    equalsConstant p cls a b = true ↔ constantKey p cls a = constantKey p cls b := by
  simp only [equalsConstant, constantKey, ConstantKey.mk.injEq]
  by_cases long : (p.chunk a).relocs.length = (p.chunk b).relocs.length
  · have relocs := stdEqual_iff_map _ _ _ (@constantEq_iff p cls a b) _ _ long
    rw [← relocs, ← assocEquals_iff]
    by_cases same : stdEqual (constantEq p cls a b) (p.chunk a).relocs (p.chunk b).relocs = true
    · simp [long, same, and_assoc]
    · simp [long, same]
  · have differ : (p.chunk a).relocs.map (fun r =>
        (r.type, r.virtualAddress, targetKey p cls (target p a r))) ≠
        (p.chunk b).relocs.map (fun r =>
        (r.type, r.virtualAddress, targetKey p cls (target p b r))) := by
      intro same
      exact long (by simpa using congrArg List.length same)
    simp [long, differ]

end LlvmLd.Icf
