import Mathlib.Data.List.Basic
import Mathlib.Data.List.Perm.Basic


/-!
Which definition of an external COMDAT symbol prevails: `SymbolTable::addComdat`, the comdat
leader part of `ObjFile::createDefined` and `ObjFile::handleComdatSelection`, run over the defining
objects in the order they are parsed.

`Clash` says when two kinds of definitions cannot stand together, and `Overtakes` when a new
definition replaces the prevailing one; one step is characterised by these two, and everything
about runs follows from the step.
-/

namespace LlvmLd.Symbols

/-- `COMDATType`, numbered from 1 as in the object file. -/
inductive COMDATType
  | noDuplicates | any | sameSize | exactMatch | associative | largest | newest
  deriving DecidableEq, Repr

/-- The cast of `def->Selection`; every number outside 1..7 is rejected before it. -/
def COMDATType.ofNumber : Nat → COMDATType
  | 1 => .noDuplicates
  | 2 => .any
  | 3 => .sameSize
  | 4 => .exactMatch
  | 5 => .associative
  | 6 => .largest
  | _ => .newest

/-- `coff_aux_section_definition`, the fields that comdat handling reads. -/
structure SectionDefinition where
  length : Nat
  selection : Nat
  deriving DecidableEq, Repr

structure SymbolRef where
  sectionNumber : Int
  sectionDefinition : Option SectionDefinition
  deriving DecidableEq, Repr

structure ObjFile where
  name : String
  symbols : List SymbolRef
  deriving DecidableEq, Repr

def findSectionDef (obj : ObjFile) (number : Int) : Option SectionDefinition :=
  obj.symbols.findSome? fun sym =>
    if sym.sectionNumber = number then sym.sectionDefinition else none

/-- A comdat leader symbol of an object file, with the section it defines (one that `readSection`
keeps) and the section definition `comdatDefs` holds for it. -/
structure ComdatDef where
  name : String
  file : ObjFile
  sectionNumber : Int
  sizeOfRawData : Nat
  contents : List UInt8
  definition : SectionDefinition
  /-- `comdatDefs` is not set for associative comdats. -/
  notAssociative : definition.selection ≠ 5
  deriving DecidableEq

def ComdatDef.kind (d : ComdatDef) : COMDATType := .ofNumber d.definition.selection

structure SectionChunk where
  file : ObjFile
  sectionNumber : Int
  size : Nat
  contents : List UInt8
  selection : COMDATType
  deriving DecidableEq

/-- The chunk `readSection` makes for a definition that prevails, with the selection then stored. -/
def ComdatDef.chunk (d : ComdatDef) (selection : COMDATType) : SectionChunk where
  file := d.file
  sectionNumber := d.sectionNumber
  size := d.sizeOfRawData
  contents := d.contents
  selection := selection

structure DefinedRegular where
  file : String
  isCOMDAT : Bool
  /-- Whether `file` is a `BitcodeFile`. -/
  bitcode : Bool
  data : Option SectionChunk
  deriving DecidableEq

/-- A call of `reportDuplicate`: an error, or a warning under `/force:multiple`. -/
structure Duplicate where
  existing : String
  newFile : String
  deriving DecidableEq, Repr

/-- One name of the symbol table: its symbol, when that is a `DefinedRegular`, and what was
reported about it. -/
structure State where
  symbol : Option DefinedRegular
  duplicates : List Duplicate
  deriving DecidableEq

def addComdat (s : State) (d : ComdatDef) : DefinedRegular × Bool × List Duplicate :=
  match s.symbol with
  | none => ({ file := d.file.name, isCOMDAT := true, bitcode := false, data := none }, true, [])
  | some existing =>
    (existing, false, if existing.isCOMDAT then [] else [⟨existing.file, d.file.name⟩])

/-- The kinds (of the new definition, of the leader) that are compared. -/
def mergeSelections (mingw bitcode : Bool) (selection leaderSelection : COMDATType) :
    COMDATType × COMDATType :=
  let (selection, leaderSelection) :=
    if bitcode then (.any, .any) else (selection, leaderSelection)
  let (selection, leaderSelection) :=
    if (selection = .any ∧ leaderSelection = .largest) ∨
        (selection = .largest ∧ leaderSelection = .any) then (.largest, .largest)
    else (selection, leaderSelection)
  if mingw ∧ ((selection = .any ∧ leaderSelection = .sameSize) ∨
      (selection = .sameSize ∧ leaderSelection = .any)) then (.sameSize, .sameSize)
  else (selection, leaderSelection)

/-- What `handleComdatSelection` leaves in its reference parameters, and whether it called
`reportDuplicate`. -/
structure Verdict where
  selection : COMDATType
  prevailing : Bool
  duplicate : Bool
  deriving DecidableEq

/-- The check of the same-size case. -/
def sizesDiffer (mingw : Bool) (leaderChunk : SectionChunk) (d : ComdatDef) : Bool :=
  if leaderChunk.size ≠ d.sizeOfRawData then
    if !mingw then true
    else
      match findSectionDef leaderChunk.file leaderChunk.sectionNumber with
      | none => true
      | some leaderDef => leaderDef.length ≠ d.definition.length
  else false

def handleComdatSelection (mingw bitcode : Bool) (leaderChunk : SectionChunk) (d : ComdatDef)
    (selection : COMDATType) : Verdict :=
  let (selection, leaderSelection) :=
    mergeSelections mingw bitcode selection leaderChunk.selection
  if selection ≠ leaderSelection then
    { selection, prevailing := false, duplicate := true }
  else
    match selection with
    | .noDuplicates => { selection, prevailing := false, duplicate := true }
    | .any => { selection, prevailing := false, duplicate := false }
    | .sameSize =>
      { selection, prevailing := false, duplicate := sizesDiffer mingw leaderChunk d }
    | .exactMatch =>
      { selection, prevailing := false, duplicate := leaderChunk.contents ≠ d.contents }
    | .largest =>
      { selection, prevailing := leaderChunk.size < d.sizeOfRawData, duplicate := false }
    -- `llvm_unreachable`: associative definitions never get here, the newest kind is rejected.
    | .associative | .newest => { selection, prevailing := false, duplicate := false }

/-- The comdat leader part of `createDefined`. -/
def createDefined (mingw : Bool) (s : State) (d : ComdatDef) : Except String State :=
  let (leader, prevailing, reported) := addComdat s d
  if d.definition.selection < 1 ∨ d.definition.selection > 6 then
    .error s!"unknown comdat type {d.definition.selection} for {d.name} in {d.file.name}"
  else
    let duplicates := s.duplicates ++ reported
    let prevails (selection : COMDATType) : State :=
      { symbol := some { file := d.file.name, isCOMDAT := true, bitcode := false,
                         data := some (d.chunk selection) },
        duplicates }
    if prevailing then .ok (prevails d.kind)
    else if leader.isCOMDAT then
      match leader.data with
      | none => .error "Comdat leader without SectionChunk?"
      | some leaderChunk =>
        let verdict := handleComdatSelection mingw leader.bitcode leaderChunk d d.kind
        if verdict.prevailing then .ok (prevails verdict.selection)
        else
          .ok { symbol := some leader,
                duplicates := duplicates ++
                  if verdict.duplicate then [⟨leader.file, d.file.name⟩] else [] }
    else .ok { symbol := some leader, duplicates }

/-- The definitions of one name, in the order their objects are parsed. -/
def resolve (mingw : Bool) (defs : List ComdatDef) : Except String State :=
  defs.foldlM (createDefined mingw) { symbol := none, duplicates := [] }

/-! ## One step -/

/-- Kinds that may define one symbol together. -/
def Mergeable (mingw : Bool) (k l : COMDATType) : Prop :=
  k = l ∨ (k = .any ∧ l = .largest) ∨ (k = .largest ∧ l = .any) ∨
    (mingw = true ∧ ((k = .any ∧ l = .sameSize) ∨ (k = .sameSize ∧ l = .any)))

/-- The size check: in MinGW mode the lengths of the section definitions may agree instead. -/
def SameSized (mingw : Bool) (leader : SectionChunk) (d : ComdatDef) : Prop :=
  leader.size = d.sizeOfRawData ∨
    (mingw = true ∧ (findSectionDef leader.file leader.sectionNumber).map (·.length) =
      some d.definition.length)

/-- The prevailing chunk and a new definition cannot stand together. -/
def ClashWith (mingw : Bool) (leader : SectionChunk) (d : ComdatDef) : Prop :=
  ¬ Mergeable mingw leader.selection d.kind ∨
    (leader.selection = .noDuplicates ∧ d.kind = .noDuplicates) ∨
    ((leader.selection = .sameSize ∨ d.kind = .sameSize) ∧ ¬ SameSized mingw leader d) ∨
    (leader.selection = .exactMatch ∧ d.kind = .exactMatch ∧ leader.contents ≠ d.contents)

/-- Two definitions cannot stand together when `d` comes first. -/
def Clash (mingw : Bool) (d e : ComdatDef) : Prop := ClashWith mingw (d.chunk d.kind) e

instance mergeableDecidable (mingw : Bool) (k l : COMDATType) : Decidable (Mergeable mingw k l) :=
  inferInstanceAs (Decidable (_ ∨ _))

instance sameSizedDecidable (mingw : Bool) (leader : SectionChunk) (d : ComdatDef) :
    Decidable (SameSized mingw leader d) :=
  inferInstanceAs (Decidable (_ ∨ _))

instance clashWithDecidable (mingw : Bool) (leader : SectionChunk) (d : ComdatDef) :
    Decidable (ClashWith mingw leader d) :=
  inferInstanceAs (Decidable (_ ∨ _))

instance clashDecidable (mingw : Bool) (d e : ComdatDef) : Decidable (Clash mingw d e) :=
  inferInstanceAs (Decidable (ClashWith _ _ _))

/-- The new definition replaces the prevailing chunk. -/
def Overtakes (leader : SectionChunk) (d : ComdatDef) : Prop :=
  ((leader.selection = .largest ∧ (d.kind = .largest ∨ d.kind = .any)) ∨
    (leader.selection = .any ∧ d.kind = .largest)) ∧ leader.size < d.sizeOfRawData

instance overtakesDecidable (leader : SectionChunk) (d : ComdatDef) :
    Decidable (Overtakes leader d) :=
  inferInstanceAs (Decidable (_ ∧ _))

/-- The prevailing chunk after one more definition. -/
def next (leader : SectionChunk) (d : ComdatDef) : SectionChunk :=
  if Overtakes leader d then d.chunk .largest else leader

/-- The kind of an accepted comdat leader. -/
def ComdatDef.Known (d : ComdatDef) : Prop :=
  1 ≤ d.definition.selection ∧ d.definition.selection ≤ 6

instance knownDecidable (d : ComdatDef) : Decidable d.Known := inferInstanceAs (Decidable (_ ∧ _))

/-- A chunk stored for a comdat leader. -/
def SectionChunk.Stored (c : SectionChunk) : Prop :=
  c.selection ≠ .associative ∧ c.selection ≠ .newest

private theorem kind_of_known (d : ComdatDef) (known : d.Known) :
    d.kind ≠ .associative ∧ d.kind ≠ .newest := by
  have notAssociative := d.notAssociative
  obtain ⟨low, high⟩ := known
  have cases6 : d.definition.selection = 1 ∨ d.definition.selection = 2 ∨
      d.definition.selection = 3 ∨ d.definition.selection = 4 ∨ d.definition.selection = 6 := by
    omega
  rcases cases6 with h | h | h | h | h <;> simp [ComdatDef.kind, h, COMDATType.ofNumber]

private theorem sizesDiffer_iff (mingw : Bool) (c : SectionChunk) (d : ComdatDef) :
    sizesDiffer mingw c d = true ↔ ¬ SameSized mingw c d := by
  by_cases size : c.size = d.sizeOfRawData
  · simp [sizesDiffer, SameSized, size]
  · cases mingw
    · simp [sizesDiffer, SameSized, size]
    · cases found : findSectionDef c.file c.sectionNumber <;>
        simp [sizesDiffer, SameSized, size, found]

/-- One call, in terms of the two kinds: it replaces, reports or leaves the leader alone. -/
theorem handleComdatSelection_spec (mingw : Bool) (c : SectionChunk) (d : ComdatDef)
    (stored : c.Stored) (known : d.Known) :
    ((handleComdatSelection mingw false c d d.kind).prevailing = true ↔ Overtakes c d) ∧
    ((handleComdatSelection mingw false c d d.kind).duplicate = true ↔ ClashWith mingw c d) ∧
    (Overtakes c d → (handleComdatSelection mingw false c d d.kind).selection = .largest) := by
  obtain ⟨kind, kind'⟩ := kind_of_known d known
  obtain ⟨stored, stored'⟩ := stored
  have sizes := sizesDiffer_iff mingw c d
  cases hc : c.selection <;> cases hd : d.kind <;> cases mingw <;>
    simp_all [handleComdatSelection, mergeSelections, Overtakes, ClashWith, Mergeable]

private theorem overtakes_quiet (mingw : Bool) (c : SectionChunk) (d : ComdatDef)
    (overtakes : Overtakes c d) : ¬ ClashWith mingw c d := by
  obtain ⟨(⟨hc, hd | hd⟩ | ⟨hc, hd⟩), -⟩ := overtakes <;> simp [ClashWith, Mergeable, hc, hd]

/-- The state while the comdat symbol's chunk is `c`. -/
def Holds (c : SectionChunk) (reported : List Duplicate) (s : State) : Prop :=
  ∃ file, s = ⟨some ⟨file, true, false, some c⟩, reported⟩

/-- A definition of a known kind after others: the chunk is that of `next`, and exactly a clash is
reported. -/
private theorem createDefined_next (mingw : Bool) (s : State) (c : SectionChunk)
    (reported : List Duplicate) (d : ComdatDef) (holds : Holds c reported s) (stored : c.Stored)
    (known : d.Known) :
    ∃ s' more, createDefined mingw s d = .ok s' ∧ Holds (next c d) (reported ++ more) s' ∧
      (more ≠ [] ↔ ClashWith mingw c d) := by
  obtain ⟨file, rfl⟩ := holds
  obtain ⟨prevails, reports, kept⟩ := handleComdatSelection_spec mingw c d stored known
  have accepted : ¬ (d.definition.selection < 1 ∨ d.definition.selection > 6) := by
    obtain ⟨low, high⟩ := known
    omega
  -- the definition takes over, or the one that prevails stays
  by_cases overtakes : Overtakes c d
  · refine ⟨_, [], ?_, ⟨d.file.name, rfl⟩, by simp [overtakes_quiet mingw c d overtakes]⟩
    simp only [createDefined, addComdat, if_neg accepted, prevails.mpr overtakes, kept overtakes,
      next, if_pos overtakes]
    simp
  · have stays : (handleComdatSelection mingw false c d d.kind).prevailing = false := by
      simpa using mt prevails.mp overtakes
    refine ⟨_, if (handleComdatSelection mingw false c d d.kind).duplicate
      then [⟨file, d.file.name⟩] else [], ?_, ⟨file, rfl⟩, by simp [← reports]⟩
    simp only [createDefined, addComdat, if_neg accepted, stays, next, if_neg overtakes]
    simp

private theorem stored_next (c : SectionChunk) (d : ComdatDef) (stored : c.Stored) :
    (next c d).Stored := by
  simp only [next]
  split
  · simp [SectionChunk.Stored, ComdatDef.chunk]
  · exact stored

/-! ## A run -/

/-- Some definition of the list clashes with the chunk that prevails when it is read. -/
def Clashes (mingw : Bool) (c : SectionChunk) : List ComdatDef → Prop
  | [] => False
  | d :: rest => ClashWith mingw c d ∨ Clashes mingw (next c d) rest

private theorem run_next (mingw : Bool) (defs : List ComdatDef) (s : State) (c : SectionChunk)
    (reported : List Duplicate) (holds : Holds c reported s) (stored : c.Stored)
    (known : ∀ d ∈ defs, d.Known) :
    ∃ s' more, defs.foldlM (createDefined mingw) s = .ok s' ∧
      Holds (defs.foldl next c) (reported ++ more) s' ∧
      (more ≠ [] ↔ Clashes mingw c defs) := by
  induction defs generalizing s c reported with
  | nil => exact ⟨s, [], rfl, by simpa using holds, by simp [Clashes]⟩
  | cons d rest ih =>
    obtain ⟨s₁, more, step, holds₁, clash⟩ :=
      createDefined_next mingw s c reported d holds stored (known d List.mem_cons_self)
    obtain ⟨s₂, later, run, holds₂, clashes⟩ :=
      ih s₁ (next c d) (reported ++ more) holds₁ (stored_next c d stored)
        (fun e member => known e (List.mem_cons_of_mem d member))
    refine ⟨s₂, more ++ later, ?_, by simpa [List.append_assoc] using holds₂, ?_⟩
    · rw [List.foldlM_cons, step]
      exact run
    · rw [Clashes, ← clash, ← clashes, ne_eq, List.append_eq_nil_iff]
      tauto

/-- The first definition prevails with its own kind; from there on the run is that of `next`. -/
theorem resolve_cons (mingw : Bool) (d : ComdatDef) (rest : List ComdatDef)
    (known : ∀ e ∈ d :: rest, e.Known) :
    ∃ s, resolve mingw (d :: rest) = .ok s ∧
      (s.symbol.bind (·.data)) = some (rest.foldl next (d.chunk d.kind)) ∧
      (s.duplicates ≠ [] ↔ Clashes mingw (d.chunk d.kind) rest) := by
  have accepted : ¬ (d.definition.selection < 1 ∨ d.definition.selection > 6) := by
    obtain ⟨low, high⟩ := known d List.mem_cons_self
    omega
  have first : createDefined mingw ⟨none, []⟩ d =
      .ok ⟨some ⟨d.file.name, true, false, some (d.chunk d.kind)⟩, []⟩ := by
    simp only [createDefined, addComdat, if_neg accepted]
    rfl
  obtain ⟨s, more, run, ⟨file, rfl⟩, clashes⟩ :=
    run_next mingw rest _ (d.chunk d.kind) [] ⟨d.file.name, rfl⟩
      (kind_of_known d (known d List.mem_cons_self))
      (fun e member => known e (List.mem_cons_of_mem d member))
  refine ⟨⟨some ⟨file, true, false, some _⟩, [] ++ more⟩, ?_, rfl, by simpa using clashes⟩
  rw [resolve, List.foldlM_cons, first]
  exact run

/-! ## Clashes -/

private theorem overtakes_kinds (mingw : Bool) (c : SectionChunk) (d e : ComdatDef)
    (overtakes : Overtakes c d) (clash : ClashWith mingw c e) :
    e.kind ≠ .any ∧ e.kind ≠ .largest := by
  obtain ⟨(⟨hc, -⟩ | ⟨hc, -⟩), -⟩ := overtakes <;>
    constructor <;> intro he <;> simp [ClashWith, Mergeable, hc, he] at clash

private theorem largest_clash_iff (mingw : Bool) (d e : ComdatDef) :
    ClashWith mingw (d.chunk .largest) e ↔ e.kind ≠ .any ∧ e.kind ≠ .largest := by
  cases he : e.kind <;> simp [ClashWith, Mergeable, ComdatDef.chunk, he]

/-- A clash with the prevailing chunk is not lost when a larger definition replaces it. -/
private theorem clashWith_next (mingw : Bool) (c : SectionChunk) (d e : ComdatDef)
    (clash : ClashWith mingw c e) : ClashWith mingw (next c d) e := by
  simp only [next]
  split
  next overtakes =>
    exact (largest_clash_iff mingw d e).mpr (overtakes_kinds mingw c d e overtakes clash)
  · exact clash

private theorem clashes_of_mem (mingw : Bool) (c : SectionChunk) (defs : List ComdatDef)
    (e : ComdatDef) (member : e ∈ defs) (clash : ClashWith mingw c e) : Clashes mingw c defs := by
  induction defs generalizing c with
  | nil => cases member
  | cons d rest ih =>
    rcases List.mem_cons.mp member with rfl | later
    · exact Or.inl clash
    · exact Or.inr (ih (next c d) later (clashWith_next mingw c d e clash))

/-- Once the largest kind prevails, or takes over, only other kinds clash. -/
private theorem quiet_next (mingw : Bool) (c : SectionChunk) (d : ComdatDef)
    (defs : List ComdatDef) (quiet : ∀ e ∈ defs, ¬ ClashWith mingw c e)
    (own : ∀ e ∈ defs, d.kind = .largest → ¬ Clash mingw d e) :
    ∀ e ∈ defs, ¬ ClashWith mingw (next c d) e := by
  intro e member
  simp only [next]
  split
  next overtakes =>
    rw [largest_clash_iff]
    obtain ⟨(⟨hc, hd | hd⟩ | ⟨hc, hd⟩), -⟩ := overtakes
    · have := own e member hd
      rwa [Clash, hd, largest_clash_iff] at this
    · have := quiet e member
      intro kinds
      cases he : e.kind <;> simp [ClashWith, Mergeable, hc, he] at this kinds
    · have := own e member hd
      rwa [Clash, hd, largest_clash_iff] at this
  · exact quiet e member

private theorem not_clashes (mingw : Bool) (all : List ComdatDef) (c : SectionChunk)
    (defs : List ComdatDef) (sub : ∀ d ∈ defs, d ∈ all)
    (quiet : ∀ e ∈ all, ¬ ClashWith mingw c e)
    (own : ∀ d ∈ defs, ∀ e ∈ all, d.kind = .largest → ¬ Clash mingw d e) :
    ¬ Clashes mingw c defs := by
  induction defs generalizing c with
  | nil => exact id
  | cons d rest ih =>
    rintro (clash | clashes)
    · exact quiet d (sub d List.mem_cons_self) clash
    · exact ih (next c d) (fun e member => sub e (List.mem_cons_of_mem d member))
        (quiet_next mingw c d all quiet (own d List.mem_cons_self))
        (fun e member => own e (List.mem_cons_of_mem d member)) clashes

/-! ## The order in which objects are parsed -/

/-- No two definitions clash. -/
def Compatible (mingw : Bool) (defs : List ComdatDef) : Prop :=
  ∀ d ∈ defs, ∀ e ∈ defs, ¬ Clash mingw d e

/-- Each definition, read first, clashes with some definition. -/
def AllClash (mingw : Bool) (defs : List ComdatDef) : Prop :=
  ∀ d ∈ defs, ∃ e ∈ defs, Clash mingw d e

/-- A definition of the largest kind is one of the largest, or those that any definition may
stand for are of one size. -/
def LargestSettled (defs : List ComdatDef) : Prop :=
  (∃ d ∈ defs, d.kind = .largest ∧ ∀ e ∈ defs, e.sizeOfRawData ≤ d.sizeOfRawData) ∨
    ∀ d ∈ defs, ∀ e ∈ defs, d.kind = .any → e.kind = .any → d.sizeOfRawData = e.sizeOfRawData

/-- The condition under which the order does not matter. -/
def OrderSettled (mingw : Bool) (defs : List ComdatDef) : Prop :=
  AllClash mingw defs ∨
    (Compatible mingw defs ∧ ((∃ d ∈ defs, d.kind = .largest) → LargestSettled defs))

private theorem mergeable_iff (k l : COMDATType) : Mergeable false k l ↔
    k = l ∨ (k = .any ∧ l = .largest) ∨ (k = .largest ∧ l = .any) := by
  simp [Mergeable]

private theorem mergeable_euclidean {k l m : COMDATType} (kl : Mergeable false k l)
    (km : Mergeable false k m) : Mergeable false l m := by
  rw [mergeable_iff] at kl km ⊢
  rcases kl with rfl | ⟨rfl, rfl⟩ | ⟨rfl, rfl⟩ <;> rcases km with rfl | ⟨h, rfl⟩ | ⟨h, rfl⟩ <;>
    simp_all

/-- Outside the two kinds that merge, mergeable kinds are equal. -/
private theorem mergeable_same {k l m : COMDATType} (kl : Mergeable false k l) (hl : l = m)
    (other : m ≠ .any ∧ m ≠ .largest) : k = m := by
  rw [mergeable_iff] at kl
  rcases kl with rfl | ⟨-, rfl⟩ | ⟨-, rfl⟩
  · exact hl
  · exact absurd hl.symm other.2
  · exact absurd hl.symm other.1

/-- Outside MinGW mode kinds merge like an equivalence, so the reports never depend on the order. -/
theorem compatible_or_allClash (defs : List ComdatDef) :
    Compatible false defs ∨ AllClash false defs := by
  by_cases compatible : Compatible false defs
  · exact Or.inl compatible
  · right
    have : ∃ d ∈ defs, ∃ e ∈ defs, Clash false d e := by
      simpa only [Compatible, not_forall, not_not, exists_prop] using compatible
    obtain ⟨d, dMem, e, eMem, clash⟩ := this
    intro x xMem
    -- what differs between `d` and `e` differs between `x` and one of the two
    have one : Clash false x d ∨ Clash false x e := by
      by_cases kinds : Mergeable false x.kind d.kind ∧ Mergeable false x.kind e.kind
      · have merge : Mergeable false d.kind e.kind := mergeable_euclidean kinds.1 kinds.2
        rcases clash with differ | ⟨hd, he⟩ | ⟨size, sizes⟩ | ⟨hd, he, contents⟩
        · exact absurd merge differ
        · have hx : x.kind = .noDuplicates := mergeable_same kinds.1 hd (by decide)
          exact Or.inl (Or.inr (Or.inl ⟨hx, hd⟩))
        · have hd : d.kind = .sameSize := by
            rcases size with hd | he
            · exact hd
            · exact mergeable_same merge he (by decide)
          have he : e.kind = .sameSize :=
            mergeable_same (mergeable_euclidean merge (Or.inl rfl)) hd (by decide)
          simp [Clash, ClashWith, SameSized, ComdatDef.chunk, hd, he] at sizes ⊢
          omega
        · have hx : x.kind = .exactMatch := mergeable_same kinds.1 hd (by decide)
          by_cases same : x.contents = d.contents
          · exact Or.inr (Or.inr (Or.inr (Or.inr ⟨hx, he, fun h => contents (same.symm.trans h)⟩)))
          · exact Or.inl (Or.inr (Or.inr (Or.inr ⟨hx, hd, same⟩)))
      · rcases not_and_or.mp kinds with differ | differ
        · exact Or.inl (Or.inl differ)
        · exact Or.inr (Or.inl differ)
    rcases one with first | second
    · exact ⟨d, dMem, first⟩
    · exact ⟨e, eMem, second⟩

/-- The prevailing chunk is as large as every definition. -/
def PrevailsLargest (defs : List ComdatDef) (s : State) : Prop :=
  ∃ c, s.symbol.bind (·.data) = some c ∧ ∀ d ∈ defs, d.sizeOfRawData ≤ c.size

/-- Two orders report duplicates alike, and without reports a largest definition prevails. -/
def OrderIndependent (mingw : Bool) (defs : List ComdatDef) : Prop :=
  ∀ first second, first.Perm defs → second.Perm defs → ∃ s t,
    resolve mingw first = .ok s ∧ resolve mingw second = .ok t ∧
    (s.duplicates ≠ [] ↔ t.duplicates ≠ []) ∧
    (s.duplicates = [] → (∃ d ∈ defs, d.kind = .largest) →
      PrevailsLargest defs s ∧ PrevailsLargest defs t)

private theorem compatible_quiet (mingw : Bool) (defs : List ComdatDef) (d : ComdatDef)
    (rest : List ComdatDef) (order : (d :: rest).Perm defs) (compatible : Compatible mingw defs) :
    ¬ Clashes mingw (d.chunk d.kind) rest := by
  have mem : ∀ e ∈ d :: rest, e ∈ defs := fun e member => order.mem_iff.mp member
  refine not_clashes mingw defs _ rest (fun e member => mem e (List.mem_cons_of_mem d member))
    (compatible d (mem d List.mem_cons_self)) ?_
  intro e member f mem' _
  exact compatible e (mem e (List.mem_cons_of_mem d member)) f mem'

private theorem clash_self_iff (mingw : Bool) (d : ComdatDef) :
    Clash mingw d d ↔ d.kind = .noDuplicates := by
  simp [Clash, ClashWith, Mergeable, SameSized, ComdatDef.chunk]

private theorem noDuplicates_clash (mingw : Bool) (d e : ComdatDef)
    (kind : d.kind = .noDuplicates) : Clash mingw d e := by
  cases he : e.kind <;> simp [Clash, ClashWith, Mergeable, ComdatDef.chunk, kind, he]

/-- With at least two definitions, one that clashes with itself clashes with another one too. -/
private theorem clash_in_rest (mingw : Bool) (d f : ComdatDef) (rest : List ComdatDef)
    (clash : ∃ e ∈ d :: f :: rest, Clash mingw d e) : ∃ e ∈ f :: rest, Clash mingw d e := by
  obtain ⟨e, member, clash⟩ := clash
  rcases List.mem_cons.mp member with rfl | later
  · exact ⟨f, List.mem_cons_self,
      noDuplicates_clash mingw e f ((clash_self_iff mingw e).mp clash)⟩
  · exact ⟨e, later, clash⟩

private theorem size_le_next (c : SectionChunk) (d : ComdatDef) : c.size ≤ (next c d).size := by
  simp only [next]
  split
  next overtakes => exact Nat.le_of_lt overtakes.2
  · exact Nat.le_refl c.size

private theorem size_le_run (c : SectionChunk) (defs : List ComdatDef) :
    c.size ≤ (defs.foldl next c).size := by
  induction defs generalizing c with
  | nil => exact Nat.le_refl c.size
  | cons d rest ih => exact Nat.le_trans (size_le_next c d) (ih (next c d))

/-- The kinds that a definition of the largest kind stands together with. -/
def AnyOrLargest (k : COMDATType) : Prop := k = .any ∨ k = .largest

private theorem next_kind (c : SectionChunk) (d : ComdatDef) (kind : AnyOrLargest c.selection) :
    AnyOrLargest (next c d).selection := by
  simp only [next]
  split
  · exact Or.inr rfl
  · exact kind

/-- A definition is no larger than what prevails in the end if it is of the largest kind, if the
prevailing one already is, or if it is no larger now. -/
private theorem size_le_of_mem (c : SectionChunk) (defs : List ComdatDef) (e : ComdatDef)
    (kind : AnyOrLargest c.selection) (member : e ∈ defs) (kinds : AnyOrLargest e.kind)
    (counts : e.kind = .largest ∨ c.selection = .largest ∨ e.sizeOfRawData ≤ c.size) :
    e.sizeOfRawData ≤ (defs.foldl next c).size := by
  induction defs generalizing c with
  | nil => cases member
  | cons d rest ih =>
    rcases List.mem_cons.mp member with rfl | later
    · refine Nat.le_trans ?_ (size_le_run (next c e) rest)
      -- when its turn comes it takes over, unless the section that prevails is as large
      by_cases larger : c.size < e.sizeOfRawData
      · have overtakes : Overtakes c e := by
          refine ⟨?_, larger⟩
          rcases kind with hc | hc <;> rcases kinds with he | he
          · simp [hc, he] at counts
            omega
          · exact Or.inr ⟨hc, he⟩
          · exact Or.inl ⟨hc, Or.inr he⟩
          · exact Or.inl ⟨hc, Or.inl he⟩
        rw [next, if_pos overtakes]
        exact Nat.le_refl e.sizeOfRawData
      · exact Nat.le_trans (Nat.le_of_not_lt larger) (size_le_next c e)
    · refine ih (next c d) (next_kind c d kind) later ?_
      rcases counts with largest | largest | size
      · exact Or.inl largest
      · right; left
        simp only [next]
        split
        · rfl
        · exact largest
      · exact Or.inr (Or.inr (Nat.le_trans size (size_le_next c d)))

/-- A definition of the largest kind only stands together with its own kind and the any kind. -/
private theorem kinds_of_quiet (mingw : Bool) (d e : ComdatDef) (largest : d.kind = .largest)
    (quiet : ¬ Clash mingw d e) : AnyOrLargest e.kind := by
  rw [Clash, largest, largest_clash_iff] at quiet
  simp only [AnyOrLargest]
  tauto

private theorem quiet_of_kinds (mingw : Bool) (d e : ComdatDef) (kind : AnyOrLargest d.kind)
    (kind' : AnyOrLargest e.kind) : ¬ Clash mingw d e := by
  rcases kind with hd | hd <;> rcases kind' with he | he <;>
    simp [Clash, ClashWith, Mergeable, ComdatDef.chunk, hd, he]

private theorem settled_prevails (mingw : Bool) (defs : List ComdatDef) (d : ComdatDef)
    (rest : List ComdatDef) (order : (d :: rest).Perm defs) (compatible : Compatible mingw defs)
    (largest : ∃ e ∈ defs, e.kind = .largest) (settled : LargestSettled defs) :
    ∀ e ∈ defs, e.sizeOfRawData ≤ (rest.foldl next (d.chunk d.kind)).size := by
  obtain ⟨l, lMem, lKind⟩ := largest
  have kinds : ∀ e ∈ defs, AnyOrLargest e.kind := fun e member =>
    kinds_of_quiet mingw l e lKind (compatible l lMem e member)
  have dMem : d ∈ defs := order.mem_iff.mp List.mem_cons_self
  -- who counts is reached in any order, for sizes only grow
  have reached : ∀ e ∈ defs,
      (e.kind = .largest ∨ d.kind = .largest ∨ e.sizeOfRawData ≤ d.sizeOfRawData) →
      e.sizeOfRawData ≤ (rest.foldl next (d.chunk d.kind)).size := by
    intro e member counts
    rcases List.mem_cons.mp (order.mem_iff.mpr member) with rfl | later
    · exact size_le_run (e.chunk e.kind) rest
    · exact size_le_of_mem (d.chunk d.kind) rest e (kinds d dMem) later (kinds e member) counts
  intro e member
  rcases settled with ⟨m, mMem, mKind, most⟩ | same
  · exact Nat.le_trans (most e member) (reached m mMem (Or.inl mKind))
  · apply reached e member
    rcases kinds e member with he | he
    · rcases kinds d dMem with hd | hd
      · exact Or.inr (Or.inr (Nat.le_of_eq (same e member d dMem he hd)))
      · exact Or.inr (Or.inl hd)
    · exact Or.inl he

/-- The outcome of one order when the order does not matter. -/
private theorem settled_outcome (mingw : Bool) (defs order : List ComdatDef)
    (perm : order.Perm defs) (known : ∀ d ∈ defs, d.Known) (settled : OrderSettled mingw defs) :
    ∃ s, resolve mingw order = .ok s ∧
      (s.duplicates ≠ [] ↔ AllClash mingw defs ∧ 2 ≤ defs.length) ∧
      (s.duplicates = [] → (∃ d ∈ defs, d.kind = .largest) → PrevailsLargest defs s) := by
  cases order with
  | nil =>
    have empty : defs = [] := perm.symm.eq_nil
    subst empty
    exact ⟨_, rfl, by simp, by simp⟩
  | cons d rest =>
    have dMem : d ∈ defs := perm.mem_iff.mp List.mem_cons_self
    obtain ⟨s, run, symbol, clashes⟩ :=
      resolve_cons mingw d rest (fun e member => known e (perm.mem_iff.mp member))
    -- If all definitions clash, the first one clashes with some later one.
    have clash : AllClash mingw defs → rest ≠ [] → s.duplicates ≠ [] := by
      intro all more
      rw [clashes]
      obtain ⟨f, tail, rfl⟩ := List.exists_cons_of_ne_nil more
      obtain ⟨e, eMem, eClash⟩ := all d dMem
      obtain ⟨e', mem', clash'⟩ :=
        clash_in_rest mingw d f tail ⟨e, perm.mem_iff.mpr eMem, eClash⟩
      exact clashes_of_mem mingw _ _ e' mem' clash'
    have two : rest ≠ [] ↔ 2 ≤ defs.length := by
      rw [← perm.length_eq, List.length_cons, ← List.length_pos_iff]
      omega
    refine ⟨s, run, ⟨?_, fun both => clash both.1 (two.mpr both.2)⟩, ?_⟩
    -- Compatible definitions report nothing, so a report leaves the other case.
    · intro reported
      rw [clashes] at reported
      have more : rest ≠ [] := by
        rintro rfl
        exact reported
      refine ⟨?_, two.mp more⟩
      rcases settled with all | ⟨compatible, -⟩
      · exact all
      · exact absurd reported (compatible_quiet mingw defs d rest perm compatible)
    · intro none' largest
      rcases settled with all | ⟨compatible, sizes⟩
      -- A single definition that clashes clashes with itself, which `largest` does not.
      · exfalso
        by_cases more : rest = []
        · subst more
          have only : ∀ e ∈ defs, e = d := fun e member =>
            List.mem_singleton.mp (perm.mem_iff.mpr member)
          obtain ⟨l, lMem, lKind⟩ := largest
          obtain ⟨e, eMem, eClash⟩ := all d dMem
          rw [only e eMem, clash_self_iff, ← only l lMem, lKind] at eClash
          cases eClash
        · exact clash all more none'
      · exact ⟨_, symbol, settled_prevails mingw defs d rest perm compatible largest
          (sizes largest)⟩

/-! ## Orders that show a difference -/

private theorem exists_perm_cons (defs : List ComdatDef) (d : ComdatDef) (member : d ∈ defs) :
    ∃ rest, (d :: rest).Perm defs := by
  obtain ⟨before, after, rfl⟩ := List.append_of_mem member
  exact ⟨before ++ after, List.perm_middle.symm⟩

/-- A definition first, and those of the largest kind last. -/
private theorem exists_largest_last (defs : List ComdatDef) (d : ComdatDef) (member : d ∈ defs) :
    ∃ others largest, (d :: (others ++ largest)).Perm defs ∧
      (∀ e ∈ others, e.kind ≠ .largest) ∧ ∀ e ∈ largest, e.kind = .largest := by
  obtain ⟨rest, perm⟩ := exists_perm_cons defs d member
  refine ⟨rest.filter (fun e => !decide (e.kind = .largest)),
    rest.filter (fun e => decide (e.kind = .largest)), ?_, ?_, ?_⟩
  · have split := List.filter_append_perm (fun e : ComdatDef => decide (e.kind = .largest)) rest
    exact ((List.perm_append_comm.trans split).cons d).trans perm
  · intro e mem
    simpa using (List.mem_filter.mp mem).2
  · intro e mem
    simpa using (List.mem_filter.mp mem).2

private theorem clashes_append (mingw : Bool) (c : SectionChunk) (xs ys : List ComdatDef) :
    Clashes mingw c (xs ++ ys) ↔ Clashes mingw c xs ∨ Clashes mingw (xs.foldl next c) ys := by
  induction xs generalizing c with
  | nil => simp [Clashes]
  | cons d rest ih =>
    simp only [List.cons_append, Clashes, List.foldl_cons, ih (next c d)]
    tauto

/-- Without the largest kind nothing is replaced. -/
private theorem next_others (c : SectionChunk) (kind : c.selection ≠ .largest)
    (others : List ComdatDef) (kinds : ∀ e ∈ others, e.kind ≠ .largest) :
    others.foldl next c = c := by
  induction others with
  | nil => rfl
  | cons d rest ih =>
    have stays : ¬ Overtakes c d := by
      rintro ⟨(⟨hc, -⟩ | ⟨-, hd⟩), -⟩
      · exact kind hc
      · exact kinds d List.mem_cons_self hd
    rw [List.foldl_cons, next, if_neg stays]
    exact ih (fun e member => kinds e (List.mem_cons_of_mem d member))

private theorem run_mem (c : SectionChunk) (defs : List ComdatDef) :
    defs.foldl next c = c ∨ ∃ d ∈ defs, defs.foldl next c = d.chunk .largest := by
  induction defs generalizing c with
  | nil => exact Or.inl rfl
  | cons d rest ih =>
    rcases ih (next c d) with same | ⟨e, member, last⟩
    · rw [List.foldl_cons, same]
      simp only [next]
      split
      · exact Or.inr ⟨d, List.mem_cons_self, rfl⟩
      · exact Or.inl rfl
    · exact Or.inr ⟨e, List.mem_cons_of_mem d member, last⟩

/-- The definitions of the largest kind last: whatever clashes with none of them when it comes
first gives an order without reports. -/
private theorem quiet_order (mingw : Bool) (d : ComdatDef) (others largest : List ComdatDef)
    (kind : d.kind ≠ .largest)
    (quiet : ∀ e ∈ d :: (others ++ largest), ¬ Clash mingw d e)
    (kinds : ∀ e ∈ others, e.kind ≠ .largest) (kinds' : ∀ e ∈ largest, e.kind = .largest) :
    ¬ Clashes mingw (d.chunk d.kind) (others ++ largest) := by
  rw [clashes_append, next_others (d.chunk d.kind) kind others kinds]
  rintro (clashes | clashes)
  · -- `d` stays all along the others
    induction others with
    | nil => exact clashes
    | cons e rest ih =>
      have stays : next (d.chunk d.kind) e = d.chunk d.kind :=
        next_others (d.chunk d.kind) kind [e] (by simpa using kinds e List.mem_cons_self)
      rcases clashes with clash | later
      · exact quiet e (by simp) clash
      · rw [stays] at later
        exact ih (fun f member => quiet f (by simp at member ⊢; tauto))
          (fun f member => kinds f (List.mem_cons_of_mem e member)) later
  · refine not_clashes mingw largest (d.chunk d.kind) largest (fun _ member => member) ?_ ?_ clashes
    · intro e member
      exact quiet e (by simp [member])
    · intro e member f member' _
      exact quiet_of_kinds mingw e f (Or.inr (kinds' e member)) (Or.inr (kinds' f member'))

private theorem loud_order (mingw : Bool) (defs : List ComdatDef) (d e : ComdatDef)
    (dMem : d ∈ defs) (eMem : e ∈ defs) (differ : e ≠ d) (clash : Clash mingw d e) :
    ∃ rest, (d :: rest).Perm defs ∧ Clashes mingw (d.chunk d.kind) rest := by
  obtain ⟨rest, perm⟩ := exists_perm_cons defs d dMem
  refine ⟨rest, perm, ?_⟩
  rcases List.mem_cons.mp (perm.mem_iff.mpr eMem) with same | later
  · exact absurd same differ
  · exact clashes_of_mem mingw (d.chunk d.kind) rest e later clash

/-- If one definition clashes with none and two others clash, an order reports and another one
does not. -/
private theorem compatible_of_independent (mingw : Bool) (defs : List ComdatDef)
    (known : ∀ d ∈ defs, d.Known) (independent : OrderIndependent mingw defs) (x : ComdatDef)
    (xMem : x ∈ defs) (quiet : ∀ e ∈ defs, ¬ Clash mingw x e) : Compatible mingw defs := by
  by_contra incompatible
  have : ∃ d ∈ defs, ∃ e ∈ defs, Clash mingw d e := by
    simpa only [Compatible, not_forall, not_not, exists_prop] using incompatible
  obtain ⟨d, dMem, e, eMem, clash⟩ := this
  -- a LARGEST definition that is quiet leaves no two others that clash
  have kind : x.kind ≠ .largest := by
    intro largest
    exact quiet_of_kinds mingw d e (kinds_of_quiet mingw x d largest (quiet d dMem))
      (kinds_of_quiet mingw x e largest (quiet e eMem)) clash
  have differ : e ≠ d := by
    rintro rfl
    have xe := quiet e eMem
    have ee := (clash_self_iff mingw e).mp clash
    have xx := mt (clash_self_iff mingw x).mpr (quiet x xMem)
    apply xe
    left
    cases hx : x.kind <;> simp_all [Mergeable, ComdatDef.chunk]
  -- an order that is quiet because `x` comes first, against one that is loud because of the clash
  obtain ⟨others, largest, perm, kinds, kinds'⟩ := exists_largest_last defs x xMem
  obtain ⟨rest, perm', loud⟩ := loud_order mingw defs d e dMem eMem differ clash
  obtain ⟨s, t, run, run', same, -⟩ := independent _ _ perm perm'
  obtain ⟨s', run₁, -, clashes⟩ :=
    resolve_cons mingw x (others ++ largest) (fun f member => known f (perm.mem_iff.mp member))
  obtain ⟨t', run₂, -, clashes'⟩ :=
    resolve_cons mingw d rest (fun f member => known f (perm'.mem_iff.mp member))
  obtain rfl : s = s' := Except.ok.inj (run.symm.trans run₁)
  obtain rfl : t = t' := Except.ok.inj (run'.symm.trans run₂)
  refine quiet_order mingw x others largest kind (fun f member => quiet f (perm.mem_iff.mp member))
    kinds kinds' ?_
  exact clashes.mp (same.mpr (clashes'.mpr loud))

private theorem sizes_of_independent (mingw : Bool) (defs : List ComdatDef)
    (known : ∀ d ∈ defs, d.Known) (independent : OrderIndependent mingw defs)
    (compatible : Compatible mingw defs) (largest : ∃ d ∈ defs, d.kind = .largest) :
    LargestSettled defs := by
  by_contra unsettled
  simp only [LargestSettled, not_or, not_exists, not_and, not_forall, Nat.not_le] at unsettled
  obtain ⟨larger, d, dMem, e, eMem, dKind, eKind, differ⟩ := unsettled
  -- the smaller one of the two comes first
  have : ∃ a ∈ defs, a.kind = .any ∧ ∃ b ∈ defs, a.sizeOfRawData < b.sizeOfRawData := by
    rcases Nat.lt_or_gt_of_ne differ with less | less
    · exact ⟨d, dMem, dKind, e, eMem, less⟩
    · exact ⟨e, eMem, eKind, d, dMem, less⟩
  obtain ⟨a, aMem, aKind, b, bMem, less⟩ := this
  obtain ⟨others, last, perm, kinds, kinds'⟩ := exists_largest_last defs a aMem
  obtain ⟨s, t, run, -, -, sizes⟩ := independent _ _ perm (List.Perm.refl defs)
  obtain ⟨s', run', symbol, clashes⟩ :=
    resolve_cons mingw a (others ++ last) (fun f member => known f (perm.mem_iff.mp member))
  obtain rfl : s = s' := Except.ok.inj (run.symm.trans run')
  have silent : s.duplicates = [] := by
    by_contra reported
    exact compatible_quiet mingw defs a (others ++ last) perm compatible (clashes.mp reported)
  obtain ⟨c, symbol', most⟩ := (sizes silent largest).1
  rw [symbol, List.foldl_append, next_others (a.chunk a.kind) (by simp [ComdatDef.chunk, aKind])
    others kinds] at symbol'
  rcases run_mem (a.chunk a.kind) last with same | ⟨l, lMem, same⟩
  · obtain rfl : a.chunk a.kind = c := Option.some.inj (same ▸ symbol')
    exact absurd (most b bMem) (Nat.not_le.mpr less)
  · obtain rfl : l.chunk .largest = c := Option.some.inj (same ▸ symbol')
    have lMem' : l ∈ defs := perm.mem_iff.mp (by simp [lMem])
    obtain ⟨f, fMem, more⟩ := larger l lMem' (kinds' l lMem)
    exact absurd (most f fMem) (Nat.not_le.mpr more)

/-- The order in which objects are parsed does not matter exactly when every definition, read
first, clashes with some definition, or no two definitions clash and, where one is of the largest
kind, one such is of the largest size or those of the any kind are of one size. -/
theorem comdat_order_independent_iff (mingw : Bool) (defs : List ComdatDef)
    (known : ∀ d ∈ defs, d.Known) :
    OrderIndependent mingw defs ↔ OrderSettled mingw defs := by
  constructor
  · intro independent
    -- either every order reports, or some definition is quiet and then all are compatible
    by_cases all : AllClash mingw defs
    · exact Or.inl all
    · have : ∃ x ∈ defs, ∀ e ∈ defs, ¬ Clash mingw x e := by
        simpa only [AllClash, not_forall, not_exists, not_and, exists_prop] using all
      obtain ⟨x, xMem, quiet⟩ := this
      have compatible :=
        compatible_of_independent mingw defs known independent x xMem quiet
      exact Or.inr ⟨compatible, sizes_of_independent mingw defs known independent compatible⟩
  · intro settled first second perm perm'
    obtain ⟨s, run, reported, sizes⟩ := settled_outcome mingw defs first perm known settled
    obtain ⟨t, run', reported', sizes'⟩ := settled_outcome mingw defs second perm' known settled
    have same : s.duplicates ≠ [] ↔ t.duplicates ≠ [] := reported.trans reported'.symm
    refine ⟨s, t, run, run', same, ?_⟩
    intro silent largest
    exact ⟨sizes silent largest, sizes' (not_ne_iff.mp (mt same.mpr (not_ne_iff.mpr silent))) largest⟩

/-- A definition without symbols of its own; all that matters is its kind and size. -/
def sized (file : String) (selection size : Nat) (h : selection ≠ 5 := by decide) : ComdatDef where
  name := "??_7A@@6B@"
  file := { name := file, symbols := [] }
  sectionNumber := 1
  sizeOfRawData := size
  contents := []
  definition := { length := size, selection }
  notAssociative := h

theorem largest_among_any :
    OrderIndependent false [sized "a.obj" 2 4, sized "b.obj" 6 8, sized "c.obj" 2 6] :=
  (comdat_order_independent_iff false _ (by decide)).mpr
    (Or.inr ⟨by unfold Compatible; decide,
      fun _ => Or.inl ⟨sized "b.obj" 6 8, by decide, rfl, by decide⟩⟩)

/-- The kind merged from any and largest is only stored when the newer definition prevails; so a
third one, of the any kind and larger, is dropped. In MinGW mode the kind merged from any and same
size is lost in the same way, and a third definition is reported in one order only. -/
theorem merged_selection_lost :
    ¬ OrderIndependent false [sized "a.obj" 2 4, sized "b.obj" 6 2, sized "c.obj" 2 8] ∧
    ¬ OrderIndependent true [sized "a.obj" 2 4, sized "b.obj" 3 4, sized "c.obj" 6 2] := by
  constructor
  · intro independent
    obtain ⟨s, t, run, -, -, sizes⟩ := independent _ _ (List.Perm.refl _) (List.Perm.refl _)
    obtain ⟨silent, small⟩ : s.duplicates = [] ∧
        s.symbol.bind (·.data) = some ((sized "a.obj" 2 4).chunk .any) := by
      cases run
      decide
    obtain ⟨c, symbol, most⟩ := (sizes silent ⟨sized "b.obj" 6 2, by decide, rfl⟩).1
    obtain rfl : (sized "a.obj" 2 4).chunk .any = c := Option.some.inj (small.symm.trans symbol)
    exact absurd (most (sized "c.obj" 2 8) (by decide)) (by decide)
  · intro independent
    obtain ⟨s, t, run, run', same, -⟩ := independent _
      [sized "b.obj" 3 4, sized "a.obj" 2 4, sized "c.obj" 6 2] (List.Perm.refl _) (by decide)
    have silent : s.duplicates = [] := by
      cases run
      decide
    have reported : t.duplicates ≠ [] := by
      cases run'
      decide
    exact same.mpr reported silent

end LlvmLd.Symbols
