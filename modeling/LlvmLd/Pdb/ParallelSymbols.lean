import LlvmLd.Lib.Interleaving
import LlvmLd.Pdb.Analysis
import LlvmLd.Pdb.Finish

/-!
# Merging symbols in parallel

`PDBLinker::addObjectsToPDB`: all types are merged first, then the objects are analyzed in parallel,
and then each handler publishes what it has found, in order.

Proof strategy: every step of an analysis works on the handler of its own object and finds the types
as they are at the end. The maps of an object are no longer changed once its types are merged, so the
analysis finds what it would have found at that time.
-/

namespace LlvmLd.Pdb

open Codeview Interleaving Outcome Writer
open DebugSection
open DebugTypes (firstNonSimpleIndex)

/-! ### Objects -/

/-- A debug section as it is read: `sortRelocations` may still have to replace its relocations. -/
structure LoadedSection where
  sec : DebugSection
  getRelocs : List Relocation
  permuted : sec.relocs.Perm getRelocs
  kept : getRelocs.Pairwise (fun r s => r.virtualAddress ≤ s.virtualAddress) → sec.relocs = getRelocs

/-- An object file before its analysis. -/
structure LoadedFile where
  debugChunks : List LoadedSection
  moduleIndex : Nat

/-- The relocations are sorted in memory that the handlers share. -/
def LoadedSection.mustSort (loaded : LoadedSection) : Bool :=
  loaded.sec.isDebugS &&
    !decide (loaded.getRelocs.Pairwise fun r s => r.virtualAddress ≤ s.virtualAddress)

namespace LoadedFile

variable (file : LoadedFile)

def symbolFile : SymbolFile := ⟨file.debugChunks.map (·.sec), file.moduleIndex⟩

def analysisDeferred : Bool := file.debugChunks.any (·.mustSort)

end LoadedFile

/-! ### Types -/

/-- The merging of types: `mergeDebugT` of the source at a position in the list of all sources, and
what the maps of a source are. -/
structure TypeMerging where
  State : Type
  debugGHashes : Bool
  -- whether the types could be merged
  mergeDebugT : Nat → State → State × Bool
  typeMergingError : Nat → State → Bool
  maps : Nat → State → TpiSource
  /-- Merging another source leaves the maps of a source, and the items that they name. -/
  others : ∀ i j types, i ≠ j → (maps i types).Agrees (maps i (mergeDebugT j types).1)

namespace TypeMerging

variable (m : TypeMerging)

/-- With no file, or if the types cannot be merged, there is no handler. -/
def addDebugTypes (i : Nat) (source : Option LoadedFile) (types : m.State) :
    m.State × Option LoadedFile :=
  let (types, merged) := if m.debugGHashes then (types, true) else m.mergeDebugT i types
  (types, if merged && !m.typeMergingError i types then source else none)

/-- The loops that set up the handlers, from the source at `i` on. -/
def addAllDebugTypes (i : Nat) (types : m.State) :
    List (Option LoadedFile) → m.State × List (Option LoadedFile)
  | [] => (types, [])
  | source :: rest =>
    let (types, handler) := m.addDebugTypes i source types
    let (types, handlers) := addAllDebugTypes (i + 1) types rest
    (types, handler :: handlers)

end TypeMerging

/-! ### Parallel -/

/-- What the handlers work on: the types, and each handler with the steps that it has to take. -/
structure World (m : TypeMerging) where
  types : m.State
  analyzing : Nat → Analyzing
  rest : Nat → List AnalysisStep

/-- One step of the handler at `i`. -/
def World.step {m : TypeMerging} (w : World m) (i : Nat) : Except Halt (World m) :=
  match w.rest i with
  | [] => .ok w
  | step :: rest => do
    let analyzing ← step.run (m.maps i w.types) (w.analyzing i)
    return { w with
      analyzing := Function.update w.analyzing i analyzing
      rest := Function.update w.rest i rest }

/-- The steps of the handlers in the order of a schedule. -/
def World.run {m : TypeMerging} (w : World m) (schedule : List Nat) : Except Halt (World m) :=
  schedule.foldlM World.step w

/-- The inputs of a link. -/
structure SymbolMerging where
  m : TypeMerging
  types : m.State
  -- dependencies first
  sources : List (Option LoadedFile)
  pdbMakeAbsolute : Bytes → Bytes
  -- `createModuleDBI` has made a module for each object
  distinct : (sources.filterMap (·.map (·.moduleIndex))).Nodup

namespace SymbolMerging

variable (z : SymbolMerging)

/-- The types when all are merged, and the handlers. -/
def added : z.m.State × List (Option LoadedFile) := z.m.addAllDebugTypes 0 z.types z.sources

def handlerAt (i : Nat) : Option LoadedFile := z.added.2.getD i none

/-- A handler that is deferred, or is none, takes no step in parallel. -/
def stepsAt (i : Nat) : List AnalysisStep :=
  match z.handlerAt i with
  | some file => if file.analysisDeferred then [] else file.symbolFile.steps
  | none => []

def world : World z.m where
  types := z.added.1
  analyzing i := ⟨.init ((z.handlerAt i).elim 0 (·.moduleIndex)), 0⟩
  rest := z.stepsAt

/-- `DebugSHandler::finish`, with the analysis if it has been deferred. -/
def finishAt (w : World z.m) (b : Builders) (handler : Option LoadedFile × Nat) :
    Except Halt Builders :=
  match handler.1 with
  | none => .ok b
  | some file => do
    let h ←
      if file.analysisDeferred then
        analyzeChunksWith (z.m.maps handler.2 w.types) file.symbolFile
      else .ok (w.analyzing handler.2).handler
    h.finish z.pdbMakeAbsolute file.symbolFile b

/-- The symbols of all objects, analyzed in the order of the schedule. -/
def addObjectsToPDB (schedule : List Nat) (b : Builders) : Except Halt Builders := do
  let w ← z.world.run schedule
  z.added.2.zipIdx.foldlM (z.finishAt w) b

/-- The schedule runs every handler to its end. -/
def Complete (schedule : List Nat) : Prop := ∀ i, (z.stepsAt i).length ≤ schedule.count i

/-! ### Serial -/

/-- One source after the other, from the source at `i` on. -/
def addSerially (i : Nat) (types : z.m.State) (b : Builders) :
    List (Option LoadedFile) → Except Halt Builders
  | [] => .ok b
  | source :: rest => do
    let (types, handler) := z.m.addDebugTypes i source types
    let b ← match handler with
      | none => .ok b
      | some file => do
        let h ← analyzeChunksWith (z.m.maps i types) file.symbolFile
        h.finish z.pdbMakeAbsolute file.symbolFile b
    addSerially (i + 1) types b rest

def addObjectsSerially (b : Builders) : Except Halt Builders := z.addSerially 0 z.types b z.sources

end SymbolMerging

/-! ### The handlers as processes -/

namespace World

variable {m : TypeMerging}

/-- The types do not change while handlers are analyzed. -/
def processes (w : World m) (i : Nat) : Process Halt Analyzing :=
  ⟨w.analyzing i, (w.rest i).map fun step s => step.run (m.maps i w.types) s⟩

private theorem step_processes (w : World m) (i : Nat) :
    (w.step i).map processes = (w.processes i).step.map (Function.update w.processes i) := by
  rw [World.step, Process.step]
  cases left : w.rest i with
  | nil =>
    have ended : (w.processes i).rest = [] := by
      rw [processes, left]
      rfl
    rw [ended]
    exact congrArg Except.ok (Function.update_eq_self i w.processes).symm
  | cons step rest =>
    have steps : (w.processes i).rest = (fun s => step.run (m.maps i w.types) s) ::
        rest.map fun step s => step.run (m.maps i w.types) s := by
      rw [processes, left]
      rfl
    rw [steps]
    have state : (w.processes i).state = w.analyzing i := rfl
    dsimp only
    rw [state]
    cases step.run (m.maps i w.types) (w.analyzing i) with
    | error halt => rfl
    | ok analyzing =>
      apply congrArg Except.ok
      -- the step changes the state of its own source only
      funext j
      by_cases own : j = i
      · subst own
        simp only [processes, Function.update_self]
      · simp only [processes, Function.update_of_ne own]

private theorem run_processes (w : World m) (schedule : List Nat) :
    (w.run schedule).map processes = Interleaving.run w.processes schedule := by
  apply foldlM_map_view
  intro w i
  rw [step_processes]
  cases (w.processes i).step <;> rfl

private theorem run_types {w w' : World m} {schedule : List Nat} (done : w.run schedule = .ok w') :
    w'.types = w.types := by
  refine foldlM_keeps (I := fun _ w' => w'.types = w.types) ?_ [] rfl done
  intro _ w₁ w₂ i _ same here
  rw [World.step] at here
  split at here
  · cases here
    exact same
  · obtain ⟨analyzing, -, here⟩ := bind_ok_iff.mp here
    cases here
    exact same

end World

/-! ### What a source is analyzed with -/

namespace TypeMerging

variable {m : TypeMerging}

private theorem addDebugTypes_agrees {i j : Nat} (other : i ≠ j) (source : Option LoadedFile)
    (types : m.State) :
    (m.maps i types).Agrees (m.maps i (m.addDebugTypes j source types).1) := by
  rw [addDebugTypes]
  cases m.debugGHashes with
  | true => exact TpiSource.Agrees.refl _
  | false => exact m.others i j types other

/-- The sources behind a source leave its maps alone. -/
theorem addAllDebugTypes_agrees {i j : Nat} (behind : i < j) (sources : List (Option LoadedFile))
    (types : m.State) :
    (m.maps i types).Agrees (m.maps i (m.addAllDebugTypes j types sources).1) := by
  induction sources generalizing j types with
  | nil => exact TpiSource.Agrees.refl _
  | cons source rest ih =>
    have here := addDebugTypes_agrees (m := m) (Nat.ne_of_lt behind) source types
    exact here.trans (ih (Nat.lt_succ_of_lt behind) _)

end TypeMerging

/-! ### Parallel against serial -/

namespace SymbolMerging

variable (z : SymbolMerging)

/-- Analysis and publishing at once, with the maps as they are when all types are merged. -/
def direct (types : z.m.State) (b : Builders) (handler : Option LoadedFile × Nat) :
    Except Halt Builders :=
  match handler.1 with
  | none => .ok b
  | some file => do
    let h ← analyzeChunksWith (z.m.maps handler.2 types) file.symbolFile
    h.finish z.pdbMakeAbsolute file.symbolFile b

private theorem addSerially_eq (i : Nat) (types : z.m.State) (sources : List (Option LoadedFile))
    (b : Builders) :
    z.addSerially i types b sources = ((z.m.addAllDebugTypes i types sources).2.zipIdx i).foldlM
      (z.direct (z.m.addAllDebugTypes i types sources).1) b := by
  induction sources generalizing i types b with
  | nil => rfl
  | cons source rest ih =>
    rw [addSerially, TypeMerging.addAllDebugTypes]
    have agrees := TypeMerging.addAllDebugTypes_agrees (m := z.m) (Nat.lt_succ_self i) rest
      (z.m.addDebugTypes i source types).1
    have later := ih (i + 1) (z.m.addDebugTypes i source types).1
    generalize z.m.addDebugTypes i source types = added at agrees later ⊢
    obtain ⟨types', handler⟩ := added
    dsimp only at agrees later ⊢
    rw [List.zipIdx_cons, List.foldlM_cons]
    simp only [later]
    -- a source without symbols adds no module; another sees the maps that the end has for it
    cases handler with
    | none => rfl
    | some file =>
      simp only [direct, analyzeChunksWith_agrees agrees]
      exact (bind_assoc ..).symm

section Schedule

variable {z} {schedule : List Nat} {w : World z.m}

private theorem alone_eq (i : Nat) : (z.world.processes i).alone =
    (z.stepsAt i).foldlM (AnalysisStep.run (z.m.maps i z.added.1)) (z.world.analyzing i) := by
  rw [Process.alone]
  exact List.foldlM_map ..

/-- Where a handler is analyzed in parallel, that is an analysis of its object. -/
theorem alone_handler {i : Nat} {file : LoadedFile} (handler : z.handlerAt i = some file)
    (early : file.analysisDeferred = false) :
    (z.world.processes i).alone.map (·.handler) =
      analyzeChunksWith (z.m.maps i z.added.1) file.symbolFile := by
  have steps : z.stepsAt i = file.symbolFile.steps := by
    rw [stepsAt, handler]
    dsimp only
    rw [early, if_neg Bool.false_ne_true]
  have start : z.world.analyzing i = ⟨.init file.symbolFile.moduleIndex, 0⟩ := by
    simp only [world, handler]
    rfl
  rw [alone_eq, steps, start]
  exact steps_run _ _ 0

private theorem ran_alone (complete : z.Complete schedule) (ran : z.world.run schedule = .ok w)
    (i : Nat) :
    (z.world.processes i).alone = .ok (w.analyzing i) := by
  have run := World.run_processes z.world schedule
  rw [ran] at run
  exact run_eq_alone (fun i => (List.length_map ..).trans_le (complete i)) run.symm i

private theorem handlerAt_of_mem {entry : Option LoadedFile × Nat}
    (member : entry ∈ z.added.2.zipIdx) :
    z.handlerAt entry.2 = entry.1 := by
  rw [handlerAt, List.getD_eq_getElem?_getD, List.mem_zipIdx_iff_getElem?.mp member,
    Option.getD_some]

/-- Behind the parallel part, each handler is finished as if it had been analyzed just then. -/
theorem finishAt_eq (complete : z.Complete schedule) (ran : z.world.run schedule = .ok w)
    (entry : Option LoadedFile × Nat) (member : entry ∈ z.added.2.zipIdx) (b : Builders) :
    z.finishAt w b entry = z.direct z.added.1 b entry := by
  have handler := handlerAt_of_mem member
  have types : w.types = z.added.1 := World.run_types ran
  obtain ⟨source, i⟩ := entry
  cases source with
  | none => rfl
  | some file =>
    rw [finishAt, direct]
    dsimp only at handler ⊢
    cases early : file.analysisDeferred with
    | true => rw [if_pos rfl, types]
    | false =>
      have analyzed := alone_handler handler early
      rw [ran_alone complete ran i] at analyzed
      rw [if_neg Bool.false_ne_true, ← analyzed]
      rfl

end Schedule

/-- If all objects can be published one after the other, then no analysis stops the linker. -/
theorem alone_ends {b b' : Builders} (done : z.added.2.zipIdx.foldlM (z.direct z.added.1) b = .ok b')
    (i : Nat) : ∃ s, (z.world.processes i).alone = .ok s := by
  -- An object that is absent, or whose analysis is deferred, has no step of its own.
  cases handler : z.handlerAt i with
  | none =>
    have steps : z.stepsAt i = [] := by
      rw [stepsAt, handler]
    rw [alone_eq, steps]
    exact ⟨_, rfl⟩
  | some file =>
    cases early : file.analysisDeferred with
    | true =>
      have steps : z.stepsAt i = [] := by
        rw [stepsAt, handler]
        dsimp only
        rw [early, if_pos rfl]
      rw [alone_eq, steps]
      exact ⟨_, rfl⟩
    | false =>
      have there : (some file, i) ∈ z.added.2.zipIdx := by
        rw [List.mem_zipIdx_iff_getElem?]
        rw [handlerAt, List.getD_eq_getElem?_getD] at handler
        cases found : z.added.2[i]? with
        | none =>
          rw [found] at handler
          cases handler
        | some entry =>
          rw [found] at handler
          exact congrArg some handler
      -- Any other was analysed in the serial run, which came to its end.
      obtain ⟨before, behind, split⟩ := List.append_of_mem there
      rw [split] at done
      obtain ⟨b₁, b₂, -, here, -⟩ := comesTo_of_ok done
      obtain ⟨h, analyzed, -⟩ := bind_ok_iff.mp here
      have ends := alone_handler handler early
      dsimp only at analyzed
      rw [analyzed] at ends
      cases alone : (z.world.processes i).alone with
      | error halt =>
        rw [alone] at ends
        cases ends
      | ok s => exact ⟨s, rfl⟩

/-- However the handlers are scheduled, each is analyzed and published as if alone. -/
theorem addObjectsToPDB_eq_direct {schedule : List Nat} (complete : z.Complete schedule)
    (b b' : Builders) : z.addObjectsToPDB schedule b = .ok b' ↔
      z.added.2.zipIdx.foldlM (z.direct z.added.1) b = .ok b' := by
  constructor
  · intro done
    obtain ⟨w, ran, done⟩ := bind_ok_iff.mp done
    rwa [foldlM_congr (finishAt_eq complete ran)] at done
  · intro done
    -- every source comes to its end alone, so it does under the schedule
    have ends := alone_ends z done
    obtain ⟨processes, run⟩ : ∃ processes, Interleaving.run z.world.processes schedule = .ok processes :=
      run_exists fun i _ => ends i
    have view := World.run_processes z.world schedule
    rw [run] at view
    cases ran : z.world.run schedule with
    | error halt =>
      rw [ran] at view
      cases view
    | ok w =>
      rw [addObjectsToPDB, ran, bind_ok_iff]
      refine ⟨w, rfl, ?_⟩
      rwa [foldlM_congr (finishAt_eq complete ran)]

/-- The builders end as if each source were merged, analyzed and published before the next one. -/
theorem parallel_eq_serial (schedule : List Nat) (complete : z.Complete schedule) (b b' : Builders) :
    z.addObjectsToPDB schedule b = .ok b' ↔ z.addObjectsSerially b = .ok b' := by
  rw [addObjectsSerially, addSerially_eq]
  exact z.addObjectsToPDB_eq_direct complete b b'

end SymbolMerging

/-! ### Two objects with types -/

/-- The maps of a source that brings one type and one item, behind those of the sources before. -/
def oneTypeMaps (i : Nat) (merged : List Nat) : TpiSource where
  tpiMap := ((merged.findIdx? (· == i)).map (firstNonSimpleIndex + ·)).toList
  ipiMap := ((merged.findIdx? (· == i)).map (firstNonSimpleIndex + ·)).toList
  funcIdToType ti := merged[ti - firstNonSimpleIndex]?.map fun _ => ti

private theorem oneTypeMaps_append {i j : Nat} (other : i ≠ j) (merged : List Nat) :
    (oneTypeMaps i merged).Agrees (oneTypeMaps i (merged ++ [j])) := by
  have same : (merged ++ [j]).findIdx? (· == i) = merged.findIdx? (· == i) := by
    simp [List.findIdx?_append, Ne.symm other]
  constructor
  · simp only [oneTypeMaps, same]
  · simp only [oneTypeMaps, same]
  · intro ti member
    obtain ⟨p, found, rfl⟩ : ∃ p, merged.findIdx? (· == i) = some p ∧
        firstNonSimpleIndex + p = ti := by simpa [oneTypeMaps] using member
    have below : p < merged.length := (List.findIdx?_eq_some_iff_getElem.mp found).1
    have le : uint32 (firstNonSimpleIndex + p) ≤ firstNonSimpleIndex + p := Nat.mod_le _ _
    simp only [oneTypeMaps]
    rw [List.getElem?_append_left (by omega)]

/-- The state lists the sources that are merged. -/
def oneTypeEach : TypeMerging where
  State := List Nat
  debugGHashes := false
  mergeDebugT i merged := (merged ++ [i], true)
  typeMergingError _ _ := false
  maps := oneTypeMaps
  others _ _ merged other := oneTypeMaps_append other merged

/-- An object whose relocations are sorted as they are read. -/
def loadSorted (file : SymbolFile) (moduleIndex : Nat) : LoadedFile where
  debugChunks := file.debugChunks.map fun sec =>
    { sec, getRelocs := sec.relocs, permuted := .refl _, kept := fun _ => rfl }
  moduleIndex

/-- An `S_GPROC32_ID` of the procedure `main`, and an `S_UDT`, both of the first type or item. -/
def idProc : Bytes :=
  [42, 0, 0x47, 0x11] ++ List.replicate 24 0 ++ [0, 0x10, 0, 0] ++ List.replicate 7 0 ++
    [0x6d, 0x61, 0x69, 0x6e, 0]

def procIdEnd : Bytes := [2, 0, 0x4f, 0x11]

def udt : Bytes := [10, 0, 0x08, 0x11, 0, 0x10, 0, 0, 0x61, 0, 0, 0]

/-- An object with types of its own. -/
def typedUnit : SymbolFile where
  debugChunks :=
    [{ chunk :=
        { oneRecord ([4, 0, 0, 0, 0xF1, 0, 0, 0, 60, 0, 0, 0] ++ idProc ++ procIdEnd ++ udt) with
          c := pointingChunk 2 128 0 }
       name := ".debug$S"
       live := true
       relocs := []
       sorted := noRelocs_sorted
       size_lt := smallUnit_small }]
  moduleIndex := 0

private theorem twoUnits_distinct :
    ([some (loadSorted typedUnit 0), none, some (loadSorted typedUnit 1)].filterMap
      (·.map (·.moduleIndex))).Nodup := by decide

/-- Two objects, and a type server between them, which brings a type as well. -/
def twoUnits : SymbolMerging where
  m := oneTypeEach
  types := []
  sources := [some (loadSorted typedUnit 0), none, some (loadSorted typedUnit 1)]
  pdbMakeAbsolute := id
  distinct := twoUnits_distinct

def noBuilders : Builders := ⟨[], [], [], [], .empty, fun _ => .init, some ⟨0, 0⟩⟩

/-- The handlers take turns. -/
def alternating : List Nat := (List.replicate 6 [2, 0]).flatten

private theorem alternating_complete : twoUnits.Complete alternating := by
  intro i
  match i with
  | 0 => decide
  | 1 => decide
  | 2 => decide
  | i + 3 => exact Nat.zero_le _

/-- The second object's type is the third one that has been merged. -/
theorem twoUnits_alternating : ∃ b', twoUnits.addObjectsToPDB alternating noBuilders = .ok b' ∧
    putBytes udt 4 (le32 (firstNonSimpleIndex + 2)) ∈ b'.globals ∧
    twoUnits.addObjectsSerially noBuilders = .ok b' := by
  obtain ⟨b', serial, globals⟩ : ∃ b', twoUnits.addObjectsSerially noBuilders = .ok b' ∧
      putBytes udt 4 (le32 (firstNonSimpleIndex + 2)) ∈ b'.globals := ⟨_, rfl, by decide⟩
  have parallel := (twoUnits.parallel_eq_serial alternating alternating_complete noBuilders b').mpr serial
  exact ⟨b', parallel, globals, serial⟩

end LlvmLd.Pdb
