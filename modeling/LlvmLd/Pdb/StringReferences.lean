import Mathlib.Data.List.Forall2
import LlvmLd.Pdb.ParallelSymbols

/-!
# String references of all objects

What the objects refer to by an offset into their own string tables, against the string table of the
PDB that all of them share.

Proof strategy: a string keeps the offset that it has got, so what one object has published stays
right while the others are published. Offsets are compared as entries of the table first, and read
from its bytes at the end.
-/

namespace LlvmLd.Pdb

open Codeview Interleaving Outcome Placement Writer
open Codeview.StringTable (Grown)

/-! ### References -/

/-- A frame of an object: the object's strings, the relocated address and the record. -/
structure ObjectFrame where
  cvStrTab : Bytes
  rvaStart : Nat
  fd : FrameData

def Unrelocated.frames (cvStrTab : Bytes) (u : Unrelocated) : List ObjectFrame :=
  ((frameDataArray (u.subsec.data u.debugChunk)).toOption.getD []).map (⟨cvStrTab, u.rvaStart, ·⟩)

/-- Without a string table, the frames of an object are left out. -/
def Handler.frames (h : Handler) : List ObjectFrame :=
  h.cvStrTab.elim [] fun cvStrTab => h.frameDataSubsecs.flatMap (·.frames cvStrTab)

/-- The entries of the object's file checksums. -/
def Handler.files (h : Handler) : List FileChecksumEntry :=
  (checksumArray (h.checksums.getD [])).1.map Prod.fst

section Names

-- whether a string has an offset in the table of the PDB
variable (stands : Bytes → Nat → Prop)

/-- The offset `id` is that of the string at `ref` in the object's table; what cannot be read
becomes 0. -/
def Names (objStrTable : Bytes) (ref id : Nat) : Prop :=
  match objStrTable.cString ref with
  | none => id = 0
  | some s => stands s id

/-- A frame as it is published. -/
structure FrameNames (old : ObjectFrame) (new : FrameData) : Prop where
  record : new = { old.fd with
    rvaStart := uint32 (old.fd.rvaStart + old.rvaStart)
    frameFunc := new.frameFunc }
  frameFunc : Names stands old.cvStrTab old.fd.frameFunc new.frameFunc

/-- A fixup as it is published. -/
structure FixupNames (objStrTable : Bytes) (old new : Nat × Nat) : Prop where
  place : new.2 = old.2
  offset : Names stands objStrTable old.1 new.1

/-- The entry of a file as it is published. -/
structure FileNames (pdbMakeAbsolute : Bytes → Bytes) (objStrTable : Bytes)
    (old new : FileChecksumEntry) : Prop where
  name : stands (absoluteName pdbMakeAbsolute objStrTable old) new.fileNameOffset
  kind : new.kind = old.kind
  checksum : new.checksum = old.checksum

/-- What the module of an object with a string table has when the object is published. -/
structure ModuleNames (pdbMakeAbsolute : Bytes → Bytes) (cvStrTab : Bytes) (h : Handler)
    (mod : ModuleDescriptor) : Prop where
  fixups : List.Forall₂ (FixupNames stands cvStrTab) h.analysis.stringTableFixups
    mod.stringTableFixups
  sourceFiles : mod.sourceFiles = h.files.map (absoluteName pdbMakeAbsolute cvStrTab)
  checksums : ∃ new : DebugChecksumsSubsection,
    mod.c13Builders = h.debugSubsections.map .unrelocated ++ [.checksums new] ∧
    List.Forall₂ (FileNames stands pdbMakeAbsolute cvStrTab) h.files new.checksums

end Names

section Imp

variable {stands stands' : Bytes → Nat → Prop} (weaker : ∀ s id, stands s id → stands' s id)
include weaker

theorem Names.imp {objStrTable : Bytes} {ref id : Nat} (names : Names stands objStrTable ref id) :
    Names stands' objStrTable ref id := by
  rw [Names] at names ⊢
  cases read : objStrTable.cString ref with
  | none =>
    rw [read] at names
    exact names
  | some s =>
    rw [read] at names
    exact weaker s id names

theorem FrameNames.imp {old : ObjectFrame} {new : FrameData} (names : FrameNames stands old new) :
    FrameNames stands' old new :=
  ⟨names.record, names.frameFunc.imp weaker⟩

theorem FixupNames.imp {objStrTable : Bytes} {old new : Nat × Nat}
    (names : FixupNames stands objStrTable old new) : FixupNames stands' objStrTable old new :=
  ⟨names.place, names.offset.imp weaker⟩

variable {pdbMakeAbsolute : Bytes → Bytes} {cvStrTab : Bytes}

theorem FileNames.imp {old new : FileChecksumEntry}
    (names : FileNames stands pdbMakeAbsolute cvStrTab old new) :
    FileNames stands' pdbMakeAbsolute cvStrTab old new :=
  ⟨weaker _ _ names.name, names.kind, names.checksum⟩

theorem ModuleNames.imp {h : Handler} {mod : ModuleDescriptor}
    (names : ModuleNames stands pdbMakeAbsolute cvStrTab h mod) :
    ModuleNames stands' pdbMakeAbsolute cvStrTab h mod := by
  obtain ⟨fixups, sourceFiles, new, subsections, checksums⟩ := names
  refine ⟨fixups.imp fun _ _ => .imp weaker, sourceFiles, new, subsections, ?_⟩
  exact checksums.imp fun _ _ => .imp weaker

end Imp

/-- The string has the offset in the table. -/
def Listed (t : StringTable) (s : Bytes) (id : Nat) : Prop := (s, id) ∈ t.ids

theorem Listed.mono {t t' : StringTable} (grown : t.Grown t') :
    ∀ s id, Listed t s id → Listed t' s id :=
  fun _ _ listed => grown.ids _ listed

/-! ### What one loop of `finish` does -/

private theorem translate_names (objStrTable : Bytes) (t : StringTable) (ref : Nat) :
    t.Grown (translateStringTableIndex objStrTable t ref).1 ∧
      Names (Listed (translateStringTableIndex objStrTable t ref).1) objStrTable ref
        (translateStringTableIndex objStrTable t ref).2 := by
  rw [translateStringTableIndex]
  cases read : objStrTable.cString ref with
  | none =>
    refine ⟨.refl t, ?_⟩
    rw [Names, read]
  | some s =>
    refine ⟨StringTable.grown_insert t s, ?_⟩
    rw [Names, read]
    exact StringTable.mem_insert t s

section Loops

variable {cvStrTab : Bytes} {b b' : Builders}

private theorem addFrame_all (cvStrTab : Bytes) (rvaStart : Nat) (frames : List FrameData)
    (b : Builders) :
    ∃ t added, frames.foldl (addFrame cvStrTab rvaStart) b =
        { b with pdbStrTab := t, newFpoData := b.newFpoData ++ added } ∧
      b.pdbStrTab.Grown t ∧
      List.Forall₂ (FrameNames (Listed t)) (frames.map (⟨cvStrTab, rvaStart, ·⟩)) added := by
  induction frames generalizing b with
  | nil => exact ⟨b.pdbStrTab, [], by rw [List.append_nil]; rfl, .refl _, .nil⟩
  | cons fd rest ih =>
    obtain ⟨grown, names⟩ := translate_names cvStrTab b.pdbStrTab fd.frameFunc
    obtain ⟨t, added, later, grows, others⟩ := ih (addFrame cvStrTab rvaStart b fd)
    refine ⟨t, { fd with
      rvaStart := uint32 (fd.rvaStart + rvaStart)
      frameFunc := (translateStringTableIndex cvStrTab b.pdbStrTab fd.frameFunc).2 } :: added, ?_,
      grown.trans grows, .cons ⟨rfl, names.imp (Listed.mono grows)⟩ others⟩
    rw [List.foldl_cons, later]
    simp only [addFrame, List.append_assoc, List.singleton_append]

theorem addFrames_all {subsecs : List Unrelocated}
    (done : subsecs.foldlM (addFrames cvStrTab) b = .ok b') :
    ∃ t added, b' = { b with pdbStrTab := t, newFpoData := b.newFpoData ++ added } ∧
      b.pdbStrTab.Grown t ∧
      List.Forall₂ (FrameNames (Listed t)) (subsecs.flatMap (·.frames cvStrTab)) added := by
  induction subsecs generalizing b with
  | nil =>
    cases done
    exact ⟨b'.pdbStrTab, [], by rw [List.append_nil], .refl _, .nil⟩
  | cons u rest ih =>
    rw [List.foldlM_cons, bind_ok_iff] at done
    obtain ⟨b₁, here, done⟩ := done
    rw [addFrames, bind_ok_iff] at here
    obtain ⟨frames, read, here⟩ := here
    cases here
    obtain ⟨t₁, first, added, grown, names⟩ := addFrame_all cvStrTab u.rvaStart frames b
    rw [added] at done
    obtain ⟨t, more, rfl, grows, others⟩ := ih done
    have own : u.frames cvStrTab = frames.map (⟨cvStrTab, u.rvaStart, ·⟩) := by
      rw [Unrelocated.frames, read]
      rfl
    refine ⟨t, first ++ more, ?_, grown.trans grows, ?_⟩
    · rw [← List.append_assoc]
    · rw [List.flatMap_cons, own]
      exact List.rel_append (names.imp fun _ _ => .imp (Listed.mono grows)) others

private theorem translateFixup_all (cvStrTab : Bytes) (fixups : List (Nat × Nat)) (t : StringTable)
    (done : List (Nat × Nat)) :
    ∃ t' added, fixups.foldl (translateFixup cvStrTab) (t, done) = (t', done ++ added) ∧
      t.Grown t' ∧ List.Forall₂ (FixupNames (Listed t') cvStrTab) fixups added := by
  induction fixups generalizing t done with
  | nil => exact ⟨t, [], by rw [List.append_nil]; rfl, .refl _, .nil⟩
  | cons ref rest ih =>
    obtain ⟨grown, names⟩ := translate_names cvStrTab t ref.1
    obtain ⟨t', added, later, grows, others⟩ := ih _ _
    refine ⟨t', ((translateStringTableIndex cvStrTab t ref.1).2, ref.2) :: added, ?_,
      grown.trans grows, .cons ⟨rfl, names.imp (Listed.mono grows)⟩ others⟩
    rw [List.foldl_cons, translateFixup, later, List.append_assoc, List.singleton_append]

variable {pdbMakeAbsolute : Bytes → Bytes} {moduleIndex : Nat}

theorem translateFixups_all (cvStrTab : Bytes) (moduleIndex : Nat) (fixups : List (Nat × Nat)) (b : Builders) :
    ∃ t added, translateFixups cvStrTab moduleIndex fixups b =
        { b with pdbStrTab := t }.updateModule moduleIndex
          (fun mod => { mod with stringTableFixups := added }) ∧
      b.pdbStrTab.Grown t ∧ List.Forall₂ (FixupNames (Listed t) cvStrTab) fixups added := by
  obtain ⟨t, added, translated, grown, names⟩ := translateFixup_all cvStrTab fixups
    b.pdbStrTab []
  refine ⟨t, added, ?_, grown, names⟩
  rw [translateFixups, translated]
  rfl

theorem addFile_all {entries : List FileChecksumEntry} {new new' : DebugChecksumsSubsection}
    (done : entries.foldlM (addFile pdbMakeAbsolute cvStrTab moduleIndex) (b, new) = .ok (b', new')) :
    b.pdbStrTab.Grown b'.pdbStrTab ∧ b'.newFpoData = b.newFpoData ∧
      b'.modules = Function.update b.modules moduleIndex { b.modules moduleIndex with
        sourceFiles := (b.modules moduleIndex).sourceFiles ++
          entries.map (absoluteName pdbMakeAbsolute cvStrTab) } ∧
      ∃ added, new'.checksums = new.checksums ++ added ∧
        List.Forall₂ (FileNames (Listed b'.pdbStrTab) pdbMakeAbsolute cvStrTab) entries added := by
  induction entries generalizing b new with
  | nil =>
    cases done
    refine ⟨.refl _, rfl, ?_, [], by rw [List.append_nil], .nil⟩
    rw [List.map_nil, List.append_nil]
    exact (Function.update_eq_self moduleIndex b'.modules).symm
  | cons fc rest ih =>
    rw [List.foldlM_cons, bind_ok_iff] at done
    obtain ⟨⟨b₁, new₁⟩, here, done⟩ := done
    rw [addFile] at here
    cases read : cvStrTab.cString fc.fileNameOffset with
    | none =>
      rw [read] at here
      cases here
    | some name =>
      rw [read] at here
      -- The name that is inserted is the one that the module lists as its source file.
      have absolute : absoluteName pdbMakeAbsolute cvStrTab fc = pdbMakeAbsolute name := by
        rw [absoluteName, read, Option.getD_some]
      obtain ⟨grows, frames, modules, added, checksums, renamed⟩ := ih done
      cases here
      refine ⟨(StringTable.grown_insert ..).trans grows, frames, ?_, ?_⟩
      · rw [modules]
        simp only [addModuleSourceFile, Builders.updateModule, Function.update_self,
          Function.update_idem, List.append_assoc, List.map_cons, absolute]
        rfl
      · refine ⟨⟨(b.pdbStrTab.insert (pdbMakeAbsolute name)).2, fc.kind, fc.checksum⟩ :: added, ?_,
          .cons ⟨?_, rfl, rfl⟩ renamed⟩
        · rw [checksums]
          exact List.append_assoc ..
        · rw [absolute]
          exact grows.ids _ (StringTable.mem_insert _ _)

end Loops

/-! ### One object -/

/-- What `finish` does to the builders, as far as strings are concerned. -/
structure Finished (pdbMakeAbsolute : Bytes → Bytes) (file : SymbolFile) (h : Handler)
    (b b' : Builders) : Prop where
  grown : b.pdbStrTab.Grown b'.pdbStrTab
  frames : ∃ added, b'.newFpoData = b.newFpoData ++ added ∧
    List.Forall₂ (FrameNames (Listed b'.pdbStrTab)) h.frames added
  others : ∀ i, i ≠ file.moduleIndex → b'.modules i = b.modules i
  own : b.modules file.moduleIndex = .init → ∀ cvStrTab, h.cvStrTab = some cvStrTab →
    ModuleNames (Listed b'.pdbStrTab) pdbMakeAbsolute cvStrTab h (b'.modules file.moduleIndex)

theorem publishGlobals_eq (h : Handler) (b : Builders) :
    (h.publishGlobals b).pdbStrTab = b.pdbStrTab ∧ (h.publishGlobals b).newFpoData = b.newFpoData ∧
      (h.publishGlobals b).modules = b.modules := by
  rw [Handler.publishGlobals]
  split
  · exact ⟨rfl, rfl, rfl⟩
  · exact ⟨rfl, rfl, rfl⟩

private theorem finishRecords_eq (h : Handler) (file : SymbolFile) (b : Builders) :
    (h.finishRecords file b).pdbStrTab = b.pdbStrTab ∧
      (h.finishRecords file b).newFpoData = b.newFpoData ∧
      ∃ mod, (h.finishRecords file b).modules = Function.update b.modules file.moduleIndex mod ∧
        (b.modules file.moduleIndex = .init → mod.sourceFiles = [] ∧ mod.stringTableFixups = [] ∧
          mod.c13Builders = h.debugSubsections.map .unrelocated) := by
  obtain ⟨strings, frames, modules⟩ := publishGlobals_eq h b
  refine ⟨strings, frames, _, congrArg (Function.update · _ _) modules, ?_⟩
  intro fresh
  have same : ((h.addStats (h.addOldFpoData (h.publishGlobals b))).modules file.moduleIndex) =
      .init := by
    rw [← fresh]
    exact congrFun modules _
  rw [same]
  dsimp only
  split
  · exact ⟨rfl, rfl, rfl⟩
  · exact ⟨rfl, rfl, rfl⟩

theorem finish_ok {pdbMakeAbsolute : Bytes → Bytes} {file : SymbolFile} {h : Handler}
    {b b' : Builders} (done : h.finish pdbMakeAbsolute file b = .ok b') :
    Finished pdbMakeAbsolute file h b b' := by
  obtain ⟨strings, frames, mod, modules, fresh⟩ := finishRecords_eq h file b
  rw [Handler.finish] at done
  cases table : h.cvStrTab with
  -- Checksums without a string table are rejected; without either only the records are published.
  | none =>
    rw [table] at done
    dsimp only at done
    split at done
    · cases done
    · cases done
      refine ⟨strings ▸ .refl _, ⟨[], by rw [frames, List.append_nil], ?_⟩, ?_, ?_⟩
      · rw [Handler.frames, table]
        exact .nil
      · intro i other
        rw [modules, Function.update_of_ne other]
      · intro _ cvStrTab found
        rw [table] at found
        cases found
  | some cvStrTab =>
    rw [table] at done
    dsimp only at done
    rw [Handler.finishStrings, bind_ok_iff] at done
    obtain ⟨b₁, framed, done⟩ := done
    -- The frames, the fixups and the files are renamed one after the other,
    obtain ⟨t₁, added, rfl, grown₁, named⟩ := addFrames_all framed
    obtain ⟨t₂, fixups, translated, grown₂, places⟩ := translateFixups_all cvStrTab
      file.moduleIndex h.analysis.stringTableFixups
      { h.finishRecords file b with
        pdbStrTab := t₁
        newFpoData := (h.finishRecords file b).newFpoData ++ added }
    dsimp only at done
    rw [translated, addFiles, bind_ok_iff] at done
    obtain ⟨⟨b₂, new⟩, filed, done⟩ := done
    cases done
    obtain ⟨grown₃, frames₂, modules₂, checksums, stored, renamed⟩ := addFile_all filed
    -- and the table only grows meanwhile: a name found early is still there at the end.
    have grown : (h.finishRecords file b).pdbStrTab.Grown b₂.pdbStrTab :=
      (grown₁.trans grown₂).trans grown₃
    simp only [Builders.updateModule, modules, Function.update_self, Function.update_idem] at modules₂
    refine ⟨strings ▸ grown, ⟨added, ?_, ?_⟩, ?_, ?_⟩
    · rw [← frames]
      exact frames₂
    · rw [Handler.frames, table]
      exact named.imp fun _ _ => .imp (Listed.mono (grown₂.trans grown₃))
    -- The other modules are not touched by any of the three.
    · intro i other
      simp only [Builders.updateModule]
      rw [Function.update_of_ne other, modules₂, Function.update_of_ne other]
    · intro untouched cvStrTab' found
      cases found.symm.trans table
      obtain ⟨files, noFixups, subsections⟩ := fresh untouched
      have last : (b₂.updateModule file.moduleIndex fun mod =>
          { mod with c13Builders := mod.c13Builders ++ [.checksums new] }).modules
            file.moduleIndex = ⟨mod.symbols, mod.symbolByteSize,
              mod.sourceFiles ++ h.files.map (absoluteName pdbMakeAbsolute cvStrTab), fixups,
              mod.c13Builders ++ [.checksums new]⟩ := by
        simp only [Builders.updateModule, Function.update_self, modules₂]
        rfl
      rw [last]
      refine ⟨places.imp fun _ _ => .imp (Listed.mono grown₃), ?_, new, ?_, ?_⟩
      · rw [files, List.nil_append]
      · rw [subsections]
      · rw [stored, List.nil_append]
        exact renamed

/-! ### All objects -/

namespace SymbolMerging

variable (z : SymbolMerging)

/-- `PDBLinker` begins with an empty string as the first string. -/
def start (pdbStats : Option PdbStats) : Builders :=
  ⟨[], [], [], [], (StringTable.empty.insert []).1, fun _ => .init, pdbStats⟩

/-- What the analysis of a handler finds. -/
def analysisOf (handler : Option LoadedFile × Nat) : Option Handler :=
  handler.1.bind fun file =>
    (analyzeChunksWith (z.m.maps handler.2 z.added.1) file.symbolFile).toOption

/-- The handlers' modules, in order. -/
def modulesOf (handlers : List (Option LoadedFile × Nat)) : List Nat :=
  handlers.filterMap fun handler => handler.1.map (·.moduleIndex)

def framesOf (handlers : List (Option LoadedFile × Nat)) : List ObjectFrame :=
  handlers.flatMap fun handler => (z.analysisOf handler).elim [] (·.frames)

/-- All that the objects refer to by an offset has been published under an offset of the same
string. -/
structure References (stands : Bytes → Nat → Prop) (handlers : List (Option LoadedFile × Nat))
    (b : Builders) : Prop where
  frames : List.Forall₂ (FrameNames stands) (z.framesOf handlers) b.newFpoData
  modules : ∀ file i h cvStrTab, (some file, i) ∈ handlers → z.analysisOf (some file, i) = some h →
    h.cvStrTab = some cvStrTab →
    ModuleNames stands z.pdbMakeAbsolute cvStrTab h (b.modules file.moduleIndex)

variable {z}

/-- The state behind some of the handlers. -/
structure Publishing (done : List (Option LoadedFile × Nat)) (b : Builders) : Prop where
  consistent : b.pdbStrTab.Consistent
  references : z.References (Listed b.pdbStrTab) done b
  fresh : ∀ i, i ∉ modulesOf done → b.modules i = .init

private theorem modulesOf_append (done : List (Option LoadedFile × Nat)) (file : LoadedFile)
    (i : Nat) :
    modulesOf (done ++ [(some file, i)]) = modulesOf done ++ [file.moduleIndex] := by
  rw [modulesOf, List.filterMap_append]
  rfl

private theorem framesOf_append (done : List (Option LoadedFile × Nat))
    (handler : Option LoadedFile × Nat) :
    z.framesOf (done ++ [handler]) =
      z.framesOf done ++ (z.analysisOf handler).elim [] (·.frames) := by
  rw [framesOf, List.flatMap_append, List.flatMap_singleton]
  rfl

private theorem publishing_step {done : List (Option LoadedFile × Nat)}
    {handler : Option LoadedFile × Nat} {b b' : Builders} (kept : z.Publishing done b)
    (other : (modulesOf (done ++ [handler])).Nodup) (here : z.direct z.added.1 b handler = .ok b') :
    z.Publishing (done ++ [handler]) b' := by
  obtain ⟨consistent, ⟨frames, modules⟩, fresh⟩ := kept
  obtain ⟨source, i⟩ := handler
  cases source with
  -- An object without debug information publishes nothing.
  | none =>
    cases here
    refine ⟨consistent, ⟨?_, ?_⟩, ?_⟩
    · rw [framesOf_append]
      exact (List.append_nil _).symm ▸ frames
    · intro file j h cvStrTab member
      rcases List.mem_append.mp member with before | last
      · exact modules file j h cvStrTab before
      · cases List.mem_singleton.mp last
    · intro k absent
      apply fresh
      rw [modulesOf, List.filterMap_append] at absent
      exact fun member => absent (List.mem_append_left _ member)
  | some file =>
    obtain ⟨h, analyzed, finished⟩ := bind_ok_iff.mp here
    have analysis : z.analysisOf (some file, i) = some h := congrArg Except.toOption analyzed
    obtain ⟨grown, ⟨added, appended, names⟩, others, own⟩ := finish_ok finished
    rw [modulesOf_append] at other
    -- Each module is published once, so what is published here is not overwritten later on.
    have new : file.moduleIndex ∉ modulesOf done := fun member =>
      List.disjoint_of_nodup_append other member (List.mem_singleton_self _)
    refine ⟨grown.consistent consistent, ⟨?_, ?_⟩, ?_⟩
    · rw [framesOf_append, analysis, appended]
      exact List.rel_append (frames.imp fun _ _ => .imp (Listed.mono grown)) names
    · intro file' j h' cvStrTab member analyzed' table
      rcases List.mem_append.mp member with before | last
      · have apart : file'.moduleIndex ≠ file.moduleIndex := by
          intro same
          apply new
          rw [← same]
          exact List.mem_filterMap.mpr ⟨_, before, rfl⟩
        rw [others _ apart]
        exact (modules file' j h' cvStrTab before analyzed' table).imp (Listed.mono grown)
      · cases List.mem_singleton.mp last
        cases analysis.symm.trans analyzed'
        exact own (fresh _ new) cvStrTab table
    · intro k absent
      rw [modulesOf_append, List.mem_append, not_or] at absent
      rw [others k (fun same => absent.2 (List.mem_singleton.mpr same))]
      exact fresh k absent.1

private theorem handlers_sublist (m : TypeMerging) (i : Nat) (types : m.State)
    (sources : List (Option LoadedFile)) :
    List.Sublist ((m.addAllDebugTypes i types sources).2.filterMap (·.map (·.moduleIndex)))
      (sources.filterMap (·.map (·.moduleIndex))) := by
  induction sources generalizing i types with
  | nil => exact .refl _
  | cons source rest ih =>
    have later := ih (i + 1) (m.addDebugTypes i source types).1
    rw [TypeMerging.addAllDebugTypes]
    have kept : (m.addDebugTypes i source types).2 = source ∨
        (m.addDebugTypes i source types).2 = none := by
      rw [TypeMerging.addDebugTypes]
      exact ite_eq_or_eq _ _ _
    rw [List.filterMap_cons, List.filterMap_cons]
    rcases kept with same | dropped
    · rw [same]
      cases source with
      | none => exact later
      | some file => exact later.cons_cons _
    · rw [dropped]
      cases source with
      | none => exact later
      | some file => exact later.cons _

theorem handlers_distinct : (modulesOf z.added.2.zipIdx).Nodup := by
  have handlers : modulesOf z.added.2.zipIdx =
      z.added.2.filterMap (·.map (·.moduleIndex)) := by
    conv_rhs => rw [← List.zipIdx_map_fst 0 z.added.2, List.filterMap_map]
    rfl
  rw [handlers]
  exact z.distinct.sublist (handlers_sublist z.m 0 z.types z.sources)

theorem references_run {pdbStats : Option PdbStats} {b' : Builders}
    (done : z.added.2.zipIdx.foldlM (z.direct z.added.1) (start pdbStats) = .ok b') :
    z.Publishing z.added.2.zipIdx b' := by
  have first : (modulesOf []).Nodup → z.Publishing [] (start pdbStats) := fun _ =>
    ⟨StringTable.consistent_insert _ _ StringTable.consistent_empty,
      ⟨.nil, fun _ _ _ _ none => by cases none⟩, fun _ _ => rfl⟩
  refine foldlM_keeps (I := fun done b => (modulesOf done).Nodup → z.Publishing done b) ?_ [] first
    done handlers_distinct
  intro done b b' handler _ kept here distinct
  apply publishing_step (kept ?_) distinct here
  rw [modulesOf, List.filterMap_append] at distinct
  exact distinct.of_append_left

/-- However the handlers are scheduled, what the objects refer to is read from the string table that
is written, in whatever order it is walked. -/
theorem references_resolve (schedule : List Nat) (complete : z.Complete schedule)
    {pdbStats : Option PdbStats} {b' : Builders}
    (done : z.addObjectsToPDB schedule (start pdbStats) = .ok b')
    (small : total StringTable.width 1 b'.pdbStrTab.keys < 2 ^ 32) (order : List (Bytes × Nat))
    (permuted : order.Perm b'.pdbStrTab.ids) :
    ∃ bytes, b'.pdbStrTab.commit order = some bytes ∧ bytes.cString 0 = some [] ∧
      z.References (fun s id => (0 : UInt8) ∉ s → bytes.cString id = some s) z.added.2.zipIdx b' := by
  obtain ⟨consistent, references, -⟩ :=
    references_run ((z.addObjectsToPDB_eq_direct complete _ b').mp done)
  obtain ⟨bytes, written, reads⟩ :=
    StringTable.commit_reads b'.pdbStrTab consistent small order permuted
  refine ⟨bytes, written, reads ([], 0) (List.mem_cons_self ..) (by simp), ?_⟩
  have weaker : ∀ s id, Listed b'.pdbStrTab s id → (0 : UInt8) ∉ s → bytes.cString id = some s :=
    fun s id listed => reads (s, id) (List.mem_cons_of_mem _ listed)
  constructor
  · exact references.frames.imp fun _ _ => .imp weaker
  · intro file i h cvStrTab member analyzed table
    exact (references.modules file i h cvStrTab member analyzed table).imp weaker

end SymbolMerging

/-! ### Two objects with strings -/

/-- An `S_FILESTATIC`, a string table and the checksums of one file. -/
def namedContents : Bytes :=
  [4, 0, 0, 0, 0xF1, 0, 0, 0, 16, 0, 0, 0] ++ fileStatic ++
    [0xF3, 0, 0, 0, 9, 0, 0, 0, 0, 0x61, 0x61, 0x61, 0x61, 0x61, 0, 0x62, 0, 0, 0, 0] ++
    [0xF4, 0, 0, 0, 8, 0, 0, 0, 1, 0, 0, 0, 0, 0, 0, 0]

def namedUnit : SymbolFile where
  debugChunks :=
    [{ chunk := { oneRecord namedContents with c := pointingChunk 2 128 0 }
       name := ".debug$S"
       live := true
       relocs := []
       sorted := noRelocs_sorted
       size_lt := smallUnit_small }]
  moduleIndex := 0

private theorem namedUnits_distinct :
    ([some (loadSorted namedUnit 0), some (loadSorted namedUnit 1)].filterMap
      (·.map (·.moduleIndex))).Nodup := by decide

def namedUnits : SymbolMerging where
  m := oneTypeEach
  types := []
  sources := [some (loadSorted namedUnit 0), some (loadSorted namedUnit 1)]
  pdbMakeAbsolute name := 0x2F :: name
  distinct := namedUnits_distinct

def takingTurns : List Nat := (List.replicate 6 [1, 0]).flatten

theorem takingTurns_complete : namedUnits.Complete takingTurns := by
  intro i
  match i with
  | 0 => decide
  | 1 => decide
  | i + 2 => exact Nat.zero_le _

/-- The second object has its own string, and shares the name of the file. -/
theorem namedUnits_resolve : ∃ b' bytes,
    namedUnits.addObjectsToPDB takingTurns (SymbolMerging.start none) = .ok b' ∧
      (b'.modules 1).stringTableFixups = [(2, 12)] ∧
      b'.pdbStrTab.commit b'.pdbStrTab.ids = some bytes ∧
      namedUnits.References (fun s id => (0 : UInt8) ∉ s → bytes.cString id = some s)
        namedUnits.added.2.zipIdx b' := by
  obtain ⟨b', done, fixups, small⟩ : ∃ b',
      namedUnits.addObjectsToPDB takingTurns (SymbolMerging.start none) = .ok b' ∧
      (b'.modules 1).stringTableFixups = [(2, 12)] ∧
      total StringTable.width 1 b'.pdbStrTab.keys = 11 := ⟨_, rfl, rfl, rfl⟩
  obtain ⟨bytes, written, -, references⟩ := SymbolMerging.references_resolve takingTurns
    takingTurns_complete done (by rw [small]; decide) _ (.refl _)
  exact ⟨b', bytes, done, fixups, written, references⟩

end LlvmLd.Pdb
