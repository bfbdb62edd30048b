import LlvmLd.Writer.Layout

/-!
Range extension: `isInRange`, `getThunk`, `createThunks`, `verifyRanges` and the loop of
`finalizeAddresses` that alternates them with `assignAddresses`.
-/

namespace LlvmLd.Writer

/-- A 64-bit pattern read as a signed number. -/
def toInt64 (n : Nat) : Int :=
  if n % 2 ^ 64 < 2 ^ 63 then (n % 2 ^ 64 : Nat) else (n % 2 ^ 64 : Nat) - 2 ^ 64

/-- `isInt<bits>`. -/
def isInt (bits : Nat) (x : Int) : Bool := decide (-2 ^ (bits - 1) ≤ x ∧ x < 2 ^ (bits - 1))

def absoluteDifference (a b : Nat) : Nat := if a < b then b - a else a - b

def isInRange (relType s p margin : Nat) (machine : Machine) : Bool :=
  match machine with
  | .armnt =>
      let diff := toInt64 (absoluteDifference s ((p + 4) % 2 ^ 64) + margin)
      if relType = relArmBranch20T then isInt 21 diff
      else if relType = relArmBranch24T ∨ relType = relArmBlx23T then isInt 25 diff
      else true
  | .arm64 | .arm64ec | .arm64x =>
      let diff := toInt64 (absoluteDifference s p + margin)
      if relType = relArm64Branch26 then isInt 28 diff
      else if relType = relArm64Branch19 then isInt 21 diff
      else if relType = relArm64Branch14 then isInt 16 diff
      else true
  | _ => true

/-- Only branches can be out of range, and branches need no base relocation. -/
theorem getBaserelType_of_not_inRange (relType s p margin : Nat) (machine : Machine)
    (out : isInRange relType s p margin machine = false) :
    getBaserelType relType machine = relBasedAbsolute := by
  unfold isInRange at out
  split at out
  case h_1 =>
    dsimp only at out
    split_ifs at out with short long
    · subst short
      decide
    · rcases long with rfl | rfl <;> decide
  case h_5 => cases out
  all_goals
    dsimp only at out
    split_ifs at out with short middle long
    all_goals
      subst relType
      decide

/-! ### Addresses of symbols -/

def rvaOf (sections : List OutputSection) (key : Nat) : Nat :=
  ((sections.flatMap OutputSection.chunks).find? (fun c => c.key = key)).elim 0 Chunk.rva

/-- `Defined::getRVA`. -/
def Target.getRVA (ctx : Context) (sections : List OutputSection) : Target → Nat
  | .missing => 0
  | .absolute va => (va + 2 ^ 64 - ctx.imageBase) % 2 ^ 64
  | .chunk key offset => uint32 (rvaOf sections key + offset)

/-! ### Creating thunks -/

structure ThunkState where
  -- the latest thunk for each target address
  lastThunks : List (Nat × Chunk)
  thunksSize : Nat
  nextKey : Nat
  changed : Bool

def rangeThunk (machine : Machine) (target : Target) (key address : Nat) : Chunk where
  key
  body := .rangeThunk machine target
  p2Align := if machine = .armnt then 1 else 2
  hasData := true
  rva := uint32 address

/-- `getThunk`: the last thunk for the target, if it is in range. -/
def ThunkState.reusable (st : ThunkState) (s p : Nat) (relType margin : Nat) (machine : Machine) :
    Option Chunk :=
  (st.lastThunks.lookup s).filter (fun thunk => isInRange relType thunk.rva p margin machine)

def ThunkState.remember (st : ThunkState) (s : Nat) (thunk : Chunk) : ThunkState where
  lastThunks := (s, thunk) :: st.lastThunks
  thunksSize := st.thunksSize + thunk.getSize
  nextKey := st.nextKey + 1
  changed := true

/--
The loop over the original relocations of one chunk at `rva`. It gives the new relocations and the
thunks to insert behind the chunk, the first of them at the estimate `insertion`.
-/
def redirectRelocs (lookup : Target → Nat) (margin : Nat) (machine : Machine) (rva : Nat) :
    Nat → ThunkState → List Relocation → List Relocation × List Chunk × ThunkState
  | _, st, [] => ([], [], st)
  | insertion, st, rel :: rest =>
      let p := uint32 (rva + rel.virtualAddress) + st.thunksSize
      let s := lookup rel.target
      if rel.target = .missing ∨ isInRange rel.type s p margin machine then
        let (relocs, thunks, st) := redirectRelocs lookup margin machine rva insertion st rest
        (rel :: relocs, thunks, st)
      else
        match st.reusable s p rel.type margin machine with
        | some thunk =>
            let (relocs, thunks, st) := redirectRelocs lookup margin machine rva insertion st rest
            ({ rel with target := .chunk thunk.key 0 } :: relocs, thunks, st)
        | none =>
            let thunk := rangeThunk machine rel.target st.nextKey insertion
            let (relocs, thunks, st) := redirectRelocs lookup margin machine rva
              (insertion + thunk.getSize) (st.remember s thunk) rest
            ({ rel with target := .chunk thunk.key 0 } :: relocs, thunk :: thunks, st)

/-- Redirecting leaves the base relocations that a chunk asks for as they were. -/
theorem redirectRelocs_baserels (lookup : Target → Nat) (margin : Nat) (machine : Machine)
    (rva insertion : Nat) (st : ThunkState) (rels : List Relocation) :
    (redirectRelocs lookup margin machine rva insertion st rels).1.filterMap
        (Relocation.baserel machine) =
      rels.filterMap (Relocation.baserel machine) := by
  induction rels generalizing insertion st with
  | nil => rfl
  | cons rel rest ih =>
    rw [redirectRelocs]
    dsimp only
    by_cases keeps : rel.target = .missing ∨ isInRange rel.type (lookup rel.target)
        (uint32 (rva + rel.virtualAddress) + st.thunksSize) margin machine
    · rw [if_pos keeps]
      simp only [List.filterMap_cons, ih]
    · rw [if_neg keeps]
      rw [not_or, Bool.not_eq_true] at keeps
      have noBase : ∀ target, ({ rel with target } : Relocation).baserel machine = none := by
        intro target
        have branch := getBaserelType_of_not_inRange _ _ _ _ _ keeps.2
        simp [Relocation.baserel, branch]
      split
      · simp only [List.filterMap_cons, noBase, ih]
      · simp only [List.filterMap_cons, noBase, ih]

/-- An input chunk with its relocations redirected. -/
def SectionChunk.redirect (chunk : SectionChunk) (lookup : Target → Nat) (margin rva : Nat)
    (st : ThunkState) : SectionChunk × List Chunk × ThunkState :=
  let result := redirectRelocs lookup margin chunk.machine rva
    (rva + chunk.size + st.thunksSize) st chunk.originalRelocs
  ({ chunk with
      relocs := result.1
      same_baserels := redirectRelocs_baserels lookup margin chunk.machine rva _ st _ },
    result.2)

/-- `verifyRanges` and `extendRanges` of the one synthetic chunk that can be extended. -/
def helperInRange (lookup : Target → Nat) (helper : Target) (rva : Nat) : Bool :=
  isInt 28 (toInt64 (lookup helper + 2 ^ 64 - rva + 2 ^ 64 - 16))

/-- One round of the loop over the chunks of a section. -/
def thunkChunk (lookup : Target → Nat) (margin : Nat) (c : Chunk) (st : ThunkState) :
    List Chunk × ThunkState :=
  match c.body with
  | .input chunk =>
      let (chunk, thunks, st) := chunk.redirect lookup margin c.rva st
      ({ c with body := .input chunk } :: thunks, st)
  | .importThunkARM64EC extended helper =>
      if extended || helperInRange lookup helper c.rva then ([c], st)
      else
        ([{ c with body := .importThunkARM64EC true helper }],
          { st with thunksSize := st.thunksSize + 8, changed := true })
  | _ => ([c], st)

def thunkChunks (lookup : Target → Nat) (margin : Nat) :
    List Chunk → ThunkState → List Chunk × ThunkState
  | [], st => ([], st)
  | c :: rest, st =>
      let (first, st) := thunkChunk lookup margin c st
      let (later, st) := thunkChunks lookup margin rest st
      (first ++ later, st)

/-- `createThunks` on one section; the maps of earlier thunks start empty. -/
def createThunks (lookup : Target → Nat) (margin nextKey : Nat) (sec : OutputSection) :
    OutputSection × ThunkState :=
  let (chunks, st) := thunkChunks lookup margin sec.chunks ⟨[], 0, nextKey, false⟩
  ({ sec with chunks }, st)

def createAllThunks (lookup : Target → Nat) (margin : Nat) :
    Nat → List OutputSection → List OutputSection
  | _, [] => []
  | nextKey, sec :: rest =>
      let (sec, st) := createThunks lookup margin nextKey sec
      sec :: createAllThunks lookup margin st.nextKey rest

/-! ### The passes -/

def Chunk.verifyRanges (lookup : Target → Nat) (c : Chunk) : Bool :=
  match c.body with
  | .input chunk =>
      chunk.relocs.all (fun rel => rel.target = .missing ||
        isInRange rel.type (lookup rel.target) (uint32 (c.rva + rel.virtualAddress)) 0
          chunk.machine)
  | .importThunkARM64EC extended helper => extended || helperInRange lookup helper c.rva
  | _ => true

def verifyRanges (ctx : Context) (sections : List OutputSection) : Bool :=
  sections.all (fun sec => sec.chunks.all (Chunk.verifyRanges (Target.getRVA ctx sections)))

def Chunk.isRangeThunk (c : Chunk) : Bool :=
  match c.body with
  | .rangeThunk _ _ => true
  | _ => false

/--
Back to the original chunks: what the last pass inserted goes, and the chunks keep their
addresses. (The list of `.reloc` is rebuilt by `assignAddresses` in any case.)
-/
def resetChunks (sections : List OutputSection) : List OutputSection :=
  sections.map (fun sec => { sec with chunks := sec.chunks.filter (fun c => !c.isRangeThunk) })

def freshKey (sections : List OutputSection) : Nat :=
  ((sections.flatMap OutputSection.chunks).map Chunk.key).foldl max 1 + 1

/-- The `while (true)` of `finalizeAddresses`; pass 10 ends it. -/
def extendRanges (ctx : Context) : Nat → Nat → Nat → Layout → Except String Layout
  | 0, pass, _, _ => .error s!"adding thunks hasn't converged after {pass} passes"
  | fuel + 1, pass, margin, out =>
      if verifyRanges ctx out.sections then .ok out
      else if 10 ≤ pass then .error s!"adding thunks hasn't converged after {pass} passes"
      else
        let sections := if 0 < pass then resetChunks out.sections else out.sections
        let margin := if 0 < pass then margin * 2 else margin
        let sections :=
          createAllThunks (Target.getRVA ctx sections) margin (freshKey sections) sections
        extendRanges ctx fuel (pass + 1) margin (assignAddresses ctx sections)

def finalizeAddresses (ctx : Context) (sections : List OutputSection) : Except String Layout :=
  let out := assignAddresses ctx sections
  if ctx.machine = .armnt ∨ ctx.machine.isAnyArm64 then extendRanges ctx 11 0 (1024 * 100) out
  else .ok out

end LlvmLd.Writer
