import Mathlib.Data.Nat.ModEq
import LlvmLd.Lib.Avoids
import LlvmLd.Pdb.DebugSHandler
import LlvmLd.Pdb.Scopes

/-!
`writeAllModuleSymbolRecords`, and the sizes of the two passes over an object's symbols.

The first pass counts the scopes with a number that wraps below zero, the second one keeps a stack
that stays empty. Of the records between the two only those count that are in the module stream just
inside of a scope.
-/

namespace LlvmLd.Pdb

open Brackets Codeview Memory Outcome Writer
open Gsi (StreamWriter)
open DebugSection

/-! ### The second pass -/

structure SecondPass where
  writer : StreamWriter
  -- the relocations from `nextRelocIndex` on
  next : List Relocation
  heap : Mem

/-- One round of the loop over the subsections. -/
def writeSymbols (sec : DebugSection) (s : SecondPass) (ss : Subsection) :
    Except String SecondPass := do
  if SubsectionKind.ofCode ss.kind ≠ .symbols then .ok s
  else
    let (records, complete) := sec.chunk.symbolsAt ss.vaBegin ss.length
    let moduleSymStart := uint32 s.writer.written.length
    let p ← records.foldlM (visitSymbol (scopeStackClose moduleSymStart) sec.chunk)
      ⟨⟨s.heap, 0⟩, [], s.next⟩
    -- of a corrupt subsection nothing is written
    let writer ← s.writer.writeBytes (if complete then readBytes p.storage.mem 0 p.storage.size else [])
    return ⟨writer, p.next, p.storage.mem⟩

def writeSection (s : SecondPass) (sec : DebugSection) : Except String SecondPass :=
  if sec.isDebugS then
    match sec.subsections with
    | .error (.fatal text) => .error text
    | .error .unreachable => .error ""
    | .ok subsections => subsections.foldlM (writeSymbols sec) { s with next := sec.relocs }
  else .ok s

def writeAllModuleSymbolRecords (file : SymbolFile) (writer : StreamWriter) :
    Except String StreamWriter := do
  let s ← file.debugChunks.foldlM writeSection ⟨writer, [], fun _ => 0⟩
  return s.writer

/-! ### The symbols of a file -/

/-- The records of a symbols subsection that is not corrupt. -/
def DebugSection.completeSymbols (sec : DebugSection) (ss : Subsection) :
    Option (List PlacedRecord) :=
  let (records, complete) := sec.chunk.symbolsAt ss.vaBegin ss.length
  if SubsectionKind.ofCode ss.kind = .symbols ∧ complete = true then some records else none

def DebugSection.symbols (sec : DebugSection) : List (List PlacedRecord) :=
  match sec.subsections with
  | .error _ => []
  | .ok subsections => subsections.filterMap sec.completeSymbols

def SymbolFile.symbols (file : SymbolFile) : List (List PlacedRecord) :=
  file.debugChunks.flatMap fun sec => if sec.isDebugS then sec.symbols else []

/-- The level of the first pass, the depth of the second one, and the bytes of the `S_UDT` and
`S_CONSTANT` records that only one of the passes finds inside of a scope. -/
structure Tally where
  level : Nat
  depth : Nat
  first : Nat
  second : Nat
  deriving DecidableEq, Repr

def tallyStep (t : Tally) (sym : PlacedRecord) : Tally :=
  let level := nextLevel t.level sym
  let depth := depthStep opensScope endsScope t.depth sym
  let size := if sym.kind = .udt ∨ sym.kind = .constant then sym.alignedSize else 0
  { level, depth
    first := t.first + if 0 < level ∧ depth = 0 then size else 0
    second := t.second + if level = 0 ∧ 0 < depth then size else 0 }

def tally (records : List PlacedRecord) : Tally := records.foldl tallyStep ⟨0, 0, 0, 0⟩

namespace SymbolFile

variable (file : SymbolFile)

/-- What only the first pass counts. -/
def onlyFirst : Nat := (file.symbols.map fun records => (tally records).first).sum

/-- What only the second pass writes. -/
def onlySecond : Nat := (file.symbols.map fun records => (tally records).second).sum

/-- What the second pass writes. -/
def moduleSize : Nat := (file.symbols.map Pdb.moduleSize).sum

end SymbolFile

/-! ### Sizes of one subsection -/

/-- The level of the first pass and what it counts, behind a record. -/
def countStep (l : Nat × Nat) (sym : PlacedRecord) : Nat × Nat :=
  let level := nextLevel l.1 sym
  (level, l.2 + if symbolGoesInModuleStream sym.kind level then sym.alignedSize else 0)

/-- How many bytes the first pass counts. -/
def countedSize (records : List PlacedRecord) : Nat := (records.foldl countStep (0, 0)).2

/-- Only for two kinds of records does it matter whether a scope is open. -/
theorem goes_iff (kind : SymbolKind) (level depth : Nat)
    (other : ¬ (kind = .udt ∨ kind = .constant)) :
    symbolGoesInModuleStream kind level = symbolGoesInModuleStream kind depth := by
  cases kind <;> first | rfl | simp at other

private theorem tally_fold (records : List PlacedRecord) (t : Tally) (counted written : Nat)
    (same : counted + t.second = written + t.first) :
    (records.foldl countStep (t.level, counted)).2 + (records.foldl tallyStep t).second =
      (records.foldl layoutStep (t.depth, written)).2 + (records.foldl tallyStep t).first := by
  induction records generalizing t counted written with
  | nil => exact same
  | cons sym rest ih =>
    rw [List.foldl_cons, List.foldl_cons, List.foldl_cons]
    refine ih (tallyStep t sym) _ _ ?_
    simp only [tallyStep]
    -- only these two kinds depend on the level, which is where the passes may differ
    by_cases matters : sym.kind = .udt ∨ sym.kind = .constant
    · have goes : ∀ depth, symbolGoesInModuleStream sym.kind depth = decide (0 < depth) := by
        intro depth
        rcases matters with kind | kind <;> rw [kind] <;> rfl
      rw [goes, goes, if_pos matters]
      simp only [decide_eq_true_eq]
      split <;> split <;> split <;> split <;> omega
    · have alike := goes_iff sym.kind (nextLevel t.level sym)
        (depthStep opensScope endsScope t.depth sym) matters
      simp only [alike, if_neg matters, ite_self]
      omega

private theorem counted_add_second (records : List PlacedRecord) :
    countedSize records + (tally records).second = moduleSize records + (tally records).first :=
  tally_fold records ⟨0, 0, 0, 0⟩ 0 0 rfl

/-! ### The whole object -/

section Walk

variable {ε σ : Type} {J : Nat → σ → Prop} (weight : List PlacedRecord → Nat)

theorem subsections_keep {sec : DebugSection} {f : σ → Subsection → Except ε σ}
    (step : ∀ n s s' ss, J n s → f s ss = .ok s' →
      J (n + (sec.completeSymbols ss).elim 0 weight) s')
    {n : Nat} {s s' : σ} {l : List Subsection} (start : J n s) (ends : l.foldlM f s = .ok s') :
    J (n + ((l.filterMap sec.completeSymbols).map weight).sum) s' := by
  refine foldlM_keeps (I := fun done s => J (n + ((done.filterMap sec.completeSymbols).map weight).sum) s)
    ?_ [] start ends
  intro done s s' ss _ kept here
  have next := step _ s s' ss kept here
  rw [List.filterMap_append, List.map_append, List.sum_append, ← Nat.add_assoc]
  cases symbols : sec.completeSymbols ss with
  | none => simpa [symbols] using next
  | some records => simpa [symbols] using next

private theorem sections_keep {f : σ → DebugSection → Except ε σ}
    (step : ∀ n s s' sec, J n s → f s sec = .ok s' →
      J (n + ((if sec.isDebugS then sec.symbols else []).map weight).sum) s')
    {n : Nat} {s s' : σ} {file : SymbolFile} (start : J n s)
    (ends : file.debugChunks.foldlM f s = .ok s') : J (n + (file.symbols.map weight).sum) s' := by
  refine foldlM_keeps (I := fun done s => J (n + ((done.flatMap fun sec =>
    if sec.isDebugS then sec.symbols else []).map weight).sum) s) ?_ [] start ends
  intro done s s' sec _ kept here
  have next := step _ s s' sec kept here
  rw [List.flatMap_append, List.map_append, List.sum_append, ← Nat.add_assoc]
  simpa using next

end Walk

/-! ### The first pass -/

theorem copyGlobal_keeps {d : DebugChunk} {a a' : Analysis} {sym : PlacedRecord}
    (done : d.copyGlobal a sym = .ok a') :
    a'.scopeLevel = a.scopeLevel ∧ a'.moduleSymOffset = a.moduleSymOffset := by
  rw [DebugChunk.copyGlobal, bind_ok_iff] at done
  obtain ⟨_, -, done⟩ := done
  rw [bind_ok_iff] at done
  obtain ⟨_, -, done⟩ := done
  cases done
  exact ⟨rfl, rfl⟩

private theorem countModule_eq (a : Analysis) (sym : PlacedRecord) (n : Nat)
    (offset : a.moduleSymOffset = uint32 n) :
    (countModule a sym).scopeLevel = a.scopeLevel ∧ (countModule a sym).moduleSymOffset =
      uint32 (n + if symbolGoesInModuleStream sym.kind a.scopeLevel then sym.alignedSize else 0) := by
  rw [countModule]
  split
  · refine ⟨rfl, ?_⟩
    rw [offset, uint32, uint32, uint32, uint32, Nat.mod_add_mod, Nat.add_mod_mod]
  · exact ⟨rfl, offset⟩

/-- A record may be copied first, which counts nothing. -/
theorem analyzeSymbol_ok {d : DebugChunk} {a a' : Analysis} {sym : PlacedRecord}
    (done : d.analyzeSymbol a sym = .ok a') :
    ∃ b, a' = countModule b sym ∧ b.scopeLevel = nextLevel a.scopeLevel sym ∧
      b.moduleSymOffset = a.moduleSymOffset := by
  rw [DebugChunk.analyzeSymbol] at done
  split at done
  · obtain ⟨b, copied, done⟩ := bind_ok_iff.mp done
    cases done
    exact ⟨b, rfl, copyGlobal_keeps copied⟩
  · cases done
    exact ⟨_, rfl, rfl, rfl⟩

theorem analyzeSymbol_offset {d : DebugChunk} {a a' : Analysis} {sym : PlacedRecord} {n : Nat}
    (offset : a.moduleSymOffset = uint32 n) (done : d.analyzeSymbol a sym = .ok a') :
    a'.scopeLevel = (countStep (a.scopeLevel, n) sym).1 ∧
      a'.moduleSymOffset = uint32 (countStep (a.scopeLevel, n) sym).2 := by
  obtain ⟨b, rfl, level, kept⟩ := analyzeSymbol_ok done
  have counted := countModule_eq b sym n (kept.trans offset)
  rw [level] at counted
  exact counted

theorem analyze_offset {d : DebugChunk} {a a' : Analysis} {records : List PlacedRecord} {n : Nat}
    (offset : a.moduleSymOffset = uint32 n) (done : records.foldlM d.analyzeSymbol a = .ok a') :
    a'.scopeLevel = (records.foldl countStep (a.scopeLevel, n)).1 ∧
      a'.moduleSymOffset = uint32 (records.foldl countStep (a.scopeLevel, n)).2 := by
  refine foldlM_keeps (I := fun front b =>
    b.scopeLevel = (front.foldl countStep (a.scopeLevel, n)).1 ∧
      b.moduleSymOffset = uint32 (front.foldl countStep (a.scopeLevel, n)).2) ?_ [] ⟨rfl, offset⟩ done
  rintro front b b' sym - ⟨level, offset⟩ here
  have next := analyzeSymbol_offset offset here
  rw [level] at next
  rw [List.foldl_append]
  exact next

theorem countStep_add (records : List PlacedRecord) (level n : Nat) :
    records.foldl countStep (level, n) = ((records.foldl countStep (level, 0)).1,
      n + (records.foldl countStep (level, 0)).2) := by
  induction records generalizing level n with
  | nil => rfl
  | cons sym rest ih =>
    rw [List.foldl_cons, List.foldl_cons]
    simp only [countStep]
    rw [ih, ih _ (0 + _), Nat.zero_add, Nat.add_assoc]

/-- Of a corrupt subsection nothing is counted. -/
theorem analyzeSubsection_offset {sec : DebugSection} {h h' : Handler} {ss : Subsection} {n : Nat}
    (offset : h.analysis.moduleSymOffset = uint32 n) (done : handleSubsection sec h ss = .ok h') :
    h'.analysis.moduleSymOffset = uint32 (n + (sec.completeSymbols ss).elim 0 countedSize) := by
  rw [handleSubsection] at done
  rw [DebugSection.completeSymbols]
  cases kind : SubsectionKind.ofCode ss.kind with
  | symbols =>
    rw [kind] at done
    simp only [bind_ok_iff] at done
    obtain ⟨analysis, analyzed, done⟩ := done
    cases done
    rw [DebugChunk.analyzeSymbolSubsection, bind_ok_iff] at analyzed
    obtain ⟨a, walked, analyzed⟩ := analyzed
    have counted := (analyze_offset (a := { h.analysis with scopeLevel := 0 }) offset walked).2
    rw [countStep_add] at counted
    cases analyzed
    dsimp only
    -- a subsection that ends in a broken record counts nothing
    cases complete : (sec.chunk.symbolsAt ss.vaBegin ss.length).2 with
    | true => simpa [complete, countedSize] using counted
    | false => simpa [complete] using offset
  | _ =>
    rw [kind] at done
    cases done
    simpa using offset

theorem analyzeChunks_offset {file : SymbolFile} {h : Handler} (done : analyzeChunks file = .ok h) :
    h.analysis.moduleSymOffset =
      uint32 (kSymbolStreamMagicSize + (file.symbols.map countedSize).sum) := by
  have start : (Handler.init file.moduleIndex).analysis.moduleSymOffset =
    uint32 kSymbolStreamMagicSize := rfl
  refine sections_keep (J := fun n h => h.analysis.moduleSymOffset = uint32 n) countedSize ?_ start
    done
  intro n h h' sec offset here
  rw [handleChunk] at here
  split at here
  -- a .debug$S section adds its subsections, any other one nothing
  · rename_i isDebugS
    rw [handleDebugS, bind_ok_iff] at here
    obtain ⟨subsections, listed, here⟩ := here
    rw [if_pos isDebugS, DebugSection.symbols, listed]
    exact subsections_keep (J := fun n h => h.analysis.moduleSymOffset = uint32 n) countedSize
      (fun n h h' ss offset here => analyzeSubsection_offset offset here) offset here
  · rename_i otherName
    rw [if_neg otherName]
    split at here
    · cases here
      exact offset
    · cases here
      exact offset

/-! ### The second pass -/

theorem writeBytes_length {w w' : StreamWriter} {bytes : Bytes} (done : w.writeBytes bytes = .ok w') :
    w'.written.length = w.written.length + bytes.length := by
  rw [StreamWriter.writeBytes] at done
  split at done
  · cases done
  · cases done
    rw [List.length_append]

theorem writeSymbols_length {sec : DebugSection} {s s' : SecondPass} {ss : Subsection} {n : Nat}
    (length : s.writer.written.length = n) (done : writeSymbols sec s ss = .ok s') :
    s'.writer.written.length = n + (sec.completeSymbols ss).elim 0 moduleSize := by
  rw [writeSymbols] at done
  rw [DebugSection.completeSymbols]
  generalize sec.chunk.symbolsAt ss.vaBegin ss.length = walk at done ⊢
  obtain ⟨records, complete⟩ := walk
  split at done
  · rename_i other
    cases done
    simpa [other] using length
  · rename_i kind
    rw [not_not] at kind
    obtain ⟨p, walked, done⟩ := bind_ok_iff.mp done
    obtain ⟨writer, wrote, done⟩ := bind_ok_iff.mp done
    cases done
    have layout := congrArg Prod.snd (run_layout (pops_scopeStackClose _) walked)
    have written := writeBytes_length wrote
    dsimp only at written ⊢
    rw [written, length]
    -- a subsection that ends in a broken record writes nothing
    cases complete with
    | true => simpa [kind, length_readBytes, moduleSize] using layout.symm
    | false => simp

theorem writeSections_length {file : SymbolFile} {s s' : SecondPass}
    (done : file.debugChunks.foldlM writeSection s = .ok s') :
    s'.writer.written.length = s.writer.written.length + file.moduleSize := by
  refine sections_keep (J := fun n s => s.writer.written.length = n) moduleSize ?_ rfl done
  intro n s s' sec length here
  rw [writeSection] at here
  split at here
  · rename_i isDebugS
    rw [if_pos isDebugS, DebugSection.symbols]
    cases listed : sec.subsections with
    | error halt =>
      rw [listed] at here
      cases halt <;> cases here
    | ok subsections =>
      rw [listed] at here
      exact subsections_keep (J := fun n s => s.writer.written.length = n) moduleSize
        (fun n s s' ss length here => writeSymbols_length length here) length here
  · rename_i otherName
    rw [if_neg otherName]
    cases here
    exact length

theorem writeAllModuleSymbolRecords_length {file : SymbolFile} {w w' : StreamWriter}
    (done : writeAllModuleSymbolRecords file w = .ok w') :
    w'.written.length = w.written.length + file.moduleSize := by
  obtain ⟨s, walked, done⟩ := bind_ok_iff.mp done
  cases done
  exact writeSections_length walked

/-! ### Both passes -/

/-- Whenever both passes come to an end, the first one has counted what the second one has written
behind the magic. -/
def SymbolFile.PassesAgree (file : SymbolFile) : Prop :=
  ∀ h w w', analyzeChunks file = .ok h → w.written.length = kSymbolStreamMagicSize →
    writeAllModuleSymbolRecords file w = .ok w' →
    w'.written.length = h.analysis.moduleSymOffset

/-- Both passes come to an end, in a stream that is large enough. -/
def SymbolFile.BothEnd (file : SymbolFile) : Prop :=
  ∃ h w w', analyzeChunks file = .ok h ∧ w.written.length = kSymbolStreamMagicSize ∧
    writeAllModuleSymbolRecords file w = .ok w'

private theorem counted_add_onlySecond (file : SymbolFile) :
    (file.symbols.map countedSize).sum + file.onlySecond = file.moduleSize + file.onlyFirst := by
  rw [SymbolFile.onlySecond, SymbolFile.moduleSize, SymbolFile.onlyFirst, ← List.sum_map_add,
    ← List.sum_map_add]
  exact congrArg List.sum (List.map_congr_left fun records _ => counted_add_second records)

/-- The sizes agree exactly if the records of which only one pass takes notice make up as much for
the one as for the other, and the symbols of the module have less than 4 GiB. -/
theorem passes_agree_iff (file : SymbolFile) :
    file.PassesAgree ↔
      (file.BothEnd → file.onlyFirst ≡ file.onlySecond [MOD 2 ^ 32] ∧
        kSymbolStreamMagicSize + file.moduleSize < 2 ^ 32) := by
  have sums := counted_add_onlySecond file
  have agree_iff : ∀ h w w', analyzeChunks file = .ok h →
      w.written.length = kSymbolStreamMagicSize → writeAllModuleSymbolRecords file w = .ok w' →
      (w'.written.length = h.analysis.moduleSymOffset ↔
        file.onlyFirst ≡ file.onlySecond [MOD 2 ^ 32] ∧
          kSymbolStreamMagicSize + file.moduleSize < 2 ^ 32) := by
    intro h w w' first magic second
    rw [writeAllModuleSymbolRecords_length second, analyzeChunks_offset first, magic, uint32,
      Nat.ModEq]
    omega
  constructor
  · rintro agree ⟨h, w, w', first, magic, second⟩
    exact (agree_iff h w w' first magic second).mp (agree h w w' first magic second)
  · intro condition h w w' first magic second
    exact (agree_iff h w w' first magic second).mpr (condition ⟨h, w, w', first, magic, second⟩)

/-! ### An end without a scope -/

private theorem oneRecord_small (contents : Bytes) : (oneRecord contents).c.getSize < 2 ^ 32 := by
  show 64 < 2 ^ 32
  decide

/-- A section that is all of an object's debug info. -/
def oneSection (contents : Bytes) : SymbolFile where
  debugChunks :=
    [{ chunk := oneRecord contents
       name := ".debug$S"
       live := true
       relocs := []
       sorted := .nil
       size_lt := oneRecord_small contents }]
  moduleIndex := 0

/-- An `S_END` that ends no scope, and an `S_UDT`. -/
def strayEnd : SymbolFile :=
  oneSection [4, 0, 0, 0, 0xF1, 0, 0, 0, 16, 0, 0, 0, 2, 0, 6, 0,
    10, 0, 8, 0x11, 0x74, 0, 0, 0, 0x54, 0, 0, 0]

/-- The first pass counts both records, the second one writes the first. -/
theorem strayEnd_disagrees : ¬ strayEnd.PassesAgree := by
  intro agree
  obtain ⟨h, first, counted⟩ : ∃ h, analyzeChunks strayEnd = .ok h ∧
      h.analysis.moduleSymOffset = 20 := ⟨_, rfl, rfl⟩
  obtain ⟨w', second, written⟩ : ∃ w', writeAllModuleSymbolRecords strayEnd ⟨64, [4, 0, 0, 0]⟩ =
      .ok w' ∧ w'.written.length = 8 := ⟨_, rfl, rfl⟩
  have same := agree h ⟨64, [4, 0, 0, 0]⟩ w' first rfl second
  omega

end LlvmLd.Pdb
