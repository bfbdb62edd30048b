import Mathlib.Data.List.Dedup
import LlvmLd.Lib.Bytes

/-!
The tables of addresses that the load configuration points to: the SafeSEH handlers and the guard
tables. Symbols are collected by their chunk and their offset in it, before there are addresses;
`RVATableChunk` sorts the addresses when it is written.
-/

namespace LlvmLd.Writer.RvaTables

/-! ### Symbols -/

abbrev Chunk (S N : Type) := S ⊕ N

/-- The defined symbols, over section chunks `S` and other chunks `N`. The chunk of a regular one is
the `repl` of its section; synthetic ones stand for thunks and tables, which are no sections. -/
inductive Defined (S N : Type)
  | regular (data : S) (value : UInt32) (isFunction : Bool)
  | common (data : N)
  | absolute (rva : UInt32)
  | synthetic (c : Option N) (offset : UInt32)
  | importData (location : Option N) (fileLive : Bool) (loadThunkSym : Option N)
  | importThunk (data : N)
  | localImport (data : N)

/-- What is looked at in the chunks. -/
structure Chunks (S N : Type) where
  repl : S → S
  -- a chunk that others are folded into stays itself
  repl_repl : ∀ c, repl (repl c) = repl c
  live : S → Bool
  liveThunk : N → Bool
  executable : S → Bool
  /-- The target of an `ECExportThunkChunk`. -/
  exportTarget : N → Option (Defined S N)

inductive Symbol (S N : Type)
  | defined (d : Defined S N)
  | undefined
  | lazy

variable {S N : Type} (chunks : Chunks S N)

namespace Defined

def getChunk : Defined S N → Option (Chunk S N)
  | regular data _ _ => some (.inl (chunks.repl data))
  | common data => some (.inr data)
  | absolute _ => none
  | synthetic c _ => c.map .inr
  | importData location _ _ => location.map .inr
  | importThunk data => some (.inr data)
  | localImport data => some (.inr data)

def getRVA (rva : Chunk S N → UInt32) : Defined S N → UInt32
  | regular data value _ => rva (.inl (chunks.repl data)) + value
  | common data => rva (.inr data)
  | absolute rva => rva
  | synthetic (some c) offset => rva (.inr c) + offset
  | synthetic none _ => 0
  | importData location _ _ => location.elim 0 fun c => rva (.inr c)
  | importThunk data => rva (.inr data)
  | localImport data => rva (.inr data)

end Defined

def Symbol.isLive : Symbol S N → Bool
  | .defined (.regular data _ _) => chunks.live (chunks.repl data)
  | .defined (.importData _ fileLive _) => fileLive
  | .defined (.importThunk data) => chunks.liveThunk data
  | _ => true

/-! ### RVA sets -/

structure ChunkAndOffset (S N : Type) where
  inputChunk : Chunk S N
  offset : UInt32
  deriving DecidableEq

/-- `DenseSet<ChunkAndOffset>`, in some order. -/
abbrev SymbolRVASet (S N : Type) := List (ChunkAndOffset S N)

section RVASet

variable [DecidableEq S] [DecidableEq N]

/-- Look through ICF replacement. -/
def lookThrough (c : Chunk S N) : Chunk S N :=
  match c with
  | .inl sc => .inl (chunks.repl sc)
  | .inr _ => c

/-- `rva` are the addresses that the chunks have while symbols are added. -/
def addSymbolToRVASet (rva : Chunk S N → UInt32) (rvaSet : SymbolRVASet S N) (s : Defined S N) :
    SymbolRVASet S N :=
  match s.getChunk chunks with
  | none => rvaSet
  | some c =>
    let c := lookThrough chunks c
    rvaSet.insert ⟨c, s.getRVA chunks rva - rva c⟩

def addSymbols (rva : Chunk S N → UInt32) (added : List (Defined S N)) : SymbolRVASet S N :=
  added.foldl (addSymbolToRVASet chunks rva) []

end RVASet

/-! ### `RVATableChunk` -/

namespace RVATableChunk

variable (syms : SymbolRVASet S N)

def getSize : Nat := syms.length * 4

/-- `rva` are the final addresses. -/
def writeTo (rva : Chunk S N → UInt32) : Bytes :=
  ((syms.map fun co => rva co.inputChunk + co.offset).mergeSort fun a b => decide (a ≤ b)).flatMap
    fun entry => le32 entry.toNat

end RVATableChunk

/-- The chunk that is added to `.rdata`, if there is one, and the value of the count symbol. -/
structure RvaTable (S N : Type) where
  tableChunk : Option (SymbolRVASet S N)
  count : Nat

/-- The count symbol is absolute 0 before. -/
def maybeAddRVATable (tableSymbols : SymbolRVASet S N) : RvaTable S N :=
  if tableSymbols.isEmpty then ⟨none, 0⟩
  else ⟨some tableSymbols, RVATableChunk.getSize tableSymbols / 4⟩

/-! ### Which symbols are added -/

/-- A section of symbol table indices. -/
structure SymIdxChunk where
  live : Bool
  contents : Bytes

inductive Warning where
  | ignoringSection
  | ignoringIndex
  deriving DecidableEq, Repr

structure Reloc where
  type : Nat
  symbolTableIndex : Nat

structure ObjFile (S N : Type) where
  symbols : List (Option (Symbol S N))
  hasSafeSEH : Bool
  hasGuardCF : Bool
  hasGuardEHCont : Bool
  sxDataChunks : List SymIdxChunk
  guardFidChunks : List SymIdxChunk
  guardIATChunks : List SymIdxChunk
  guardLJmpChunks : List SymIdxChunk
  guardEHContChunks : List SymIdxChunk
  /-- The section chunks with their relocations. -/
  chunks : List (S × List Reloc)

/-- The symbol at an index, with what is warned about. -/
def getSymbolAt (file : ObjFile S N) (symIndex : Nat) : List Warning × List (Symbol S N) :=
  match file.symbols[symIndex]? with
  | none => ([.ignoringIndex], [])
  | some none => ([], [])
  | some (some s) => ([], if s.isLive chunks then [s] else [])

/-- `getSymbolsFromSections`: what is warned about and the symbols, both in order. -/
def getSymbolsFromSections (file : ObjFile S N) (symIdxChunks : List SymIdxChunk) :
    List Warning × List (Symbol S N) :=
  symIdxChunks.foldl (fun acc c =>
    if !c.live then acc
    else if c.contents.length % 4 != 0 then (acc.1 ++ [.ignoringSection], acc.2)
    else
      (List.range (c.contents.length / 4)).foldl (fun acc i =>
        let found := getSymbolAt chunks file (c.contents.u32At (4 * i))
        (acc.1 ++ found.1, acc.2 ++ found.2)) acc) ([], [])

/-- The symbols that `markSymbolsForRVATable` adds; `none` where one is cast that is not defined. -/
def markSymbolsForRVATable (file : ObjFile S N) (symIdxChunks : List SymIdxChunk) :
    Option (List (Defined S N)) :=
  (getSymbolsFromSections chunks file symIdxChunks).2.mapM fun s =>
    match s with
    | .defined d => some d
    | _ => none

/-- The symbols that are added for one that is referred to. -/
def maybeAddAddressTakenFunction (s : Option (Symbol S N)) : List (Defined S N) :=
  match s with
  | some (.defined d) =>
    match d with
    | .synthetic (some c) _ =>
      match chunks.exportTarget c with
      | some target => [d, target]
      | none => []
    | .importThunk _ => [d]
    | .regular data _ isFunction =>
      let sc := chunks.repl data
      if isFunction && chunks.live sc && chunks.executable sc then [d] else []
    | _ => []
  | _ => []

/-- `IMAGE_REL_I386_REL32` is ignored on x86. -/
def markSymbolsWithRelocations (isI386 : Bool) (file : ObjFile S N) : List (Defined S N) :=
  file.chunks.flatMap fun c =>
    if chunks.live c.1 then
      c.2.flatMap fun reloc =>
        if isI386 && reloc.type == 0x14 then []
        else maybeAddAddressTakenFunction chunks (file.symbols[reloc.symbolTableIndex]?.join)
    else []

/-- The flags of `GuardCFLevel`. -/
structure GuardCFLevel where
  cf : Bool
  longJmp : Bool
  ehCont : Bool

/-- The symbols for the four guard tables. -/
structure GuardSymbols (S N : Type) where
  addressTakenSyms : List (Defined S N) := []
  giatsRVASet : List (Defined S N) := []
  giatsSymbols : List (Symbol S N) := []
  longJmpTargets : List (Defined S N) := []
  ehContTargets : List (Defined S N) := []

/-- One round of the loop over the object files. -/
def markGuardSymbols (isI386 : Bool) (marked : GuardSymbols S N) (file : ObjFile S N) :
    Option (GuardSymbols S N) := do
  let marked ←
    if file.hasGuardCF then do
      let fids ← markSymbolsForRVATable chunks file file.guardFidChunks
      let giats ← markSymbolsForRVATable chunks file file.guardIATChunks
      let longJmps ← markSymbolsForRVATable chunks file file.guardLJmpChunks
      pure { marked with
        addressTakenSyms := marked.addressTakenSyms ++ fids
        giatsRVASet := marked.giatsRVASet ++ giats
        giatsSymbols :=
          marked.giatsSymbols ++ (getSymbolsFromSections chunks file file.guardIATChunks).2
        longJmpTargets := marked.longJmpTargets ++ longJmps }
    else
      pure { marked with
        addressTakenSyms :=
          marked.addressTakenSyms ++ markSymbolsWithRelocations chunks isI386 file }
  if file.hasGuardEHCont then
    let ehConts ← markSymbolsForRVATable chunks file file.guardEHContChunks
    return { marked with ehContTargets := marked.ehContTargets ++ ehConts }
  else
    return marked

/-- The load thunks of delay-loaded imports. -/
def loadThunks (giatsSymbols : List (Symbol S N)) : List (Defined S N) :=
  giatsSymbols.flatMap fun s =>
    match s with
    | .defined (.importData _ _ (some thunk)) => [.synthetic (some thunk) 0]
    | _ => []

structure SymbolTable (S N : Type) where
  entry : Option (Symbol S N)
  exports : List (Option (Symbol S N))

/-- The four guard tables with `__guard_flags`, and the chunks that are aligned to 16 at least. -/
structure GuardTables (S N : Type) where
  fids : RvaTable S N := ⟨none, 0⟩
  iat : RvaTable S N := ⟨none, 0⟩
  longjmp : RvaTable S N := ⟨none, 0⟩
  ehCont : RvaTable S N := ⟨none, 0⟩
  guardFlags : Nat
  aligned : List (Chunk S N) := []

section Tables

variable [DecidableEq S] [DecidableEq N]

def createGuardCFTables (rva : Chunk S N → UInt32) (guardCF : GuardCFLevel) (isI386 : Bool)
    (files : List (ObjFile S N)) (symtabs : List (SymbolTable S N)) : Option (GuardTables S N) :=
  if !guardCF.cf && !guardCF.longJmp && !guardCF.ehCont then
    some { guardFlags := if files.any (·.hasGuardCF) then 0x100 else 0 }
  else do
    let marked ← files.foldlM (markGuardSymbols chunks isI386) {}
    let addressTaken := addSymbols chunks rva (marked.addressTakenSyms ++
      symtabs.flatMap (fun symtab =>
        (symtab.entry :: symtab.exports).flatMap (maybeAddAddressTakenFunction chunks)) ++
      loadThunks marked.giatsSymbols)
    let table (added : List (Defined S N)) := maybeAddRVATable (addSymbols chunks rva added)
    return {
      fids := maybeAddRVATable addressTaken
      iat := table marked.giatsRVASet
      longjmp := if guardCF.longJmp then table marked.longJmpTargets else ⟨none, 0⟩
      ehCont := if guardCF.ehCont then table marked.ehContTargets else ⟨none, 0⟩
      guardFlags := 0x100 + 0x400 + (if guardCF.longJmp then 0x10000 else 0) +
        (if guardCF.ehCont then 0x400000 else 0)
      aligned := addressTaken.map (·.inputChunk) }

/-- The SafeSEH table and the number of files that are not compatible with SEH. -/
def createSEHTable (rva : Chunk S N → UInt32) (files : List (ObjFile S N)) :
    Option (RvaTable S N × Nat) := do
  let handlers ← files.mapM fun file => markSymbolsForRVATable chunks file file.sxDataChunks
  return (maybeAddRVATable (addSymbols chunks rva handlers.flatten),
    files.countP fun file => !file.hasSafeSEH)

end Tables

/-! ## What the tables say -/

/-- The entries of a table of addresses. -/
def tableWords (b : Bytes) : List Nat := (List.range (b.length / 4)).map fun i => b.u32At (4 * i)

/-- The entries that are written, if there is a table. -/
def RvaTable.words (t : RvaTable S N) (rva : Chunk S N → UInt32) : List Nat :=
  match t.tableChunk with
  | none => []
  | some syms => tableWords (RVATableChunk.writeTo syms rva)

/-- The table is strictly ascending, has exactly the addresses of the symbols that have a chunk, and
the count symbol counts its distinct entries. -/
structure TableOf (rva : Chunk S N → UInt32) (added : List (Defined S N)) (t : RvaTable S N) :
    Prop where
  ascending : (t.words rva).Pairwise (· < ·)
  complete : ∀ a, a ∈ t.words rva ↔
    ∃ s ∈ added, (s.getChunk chunks).isSome = true ∧ (s.getRVA chunks rva).toNat = a
  count : t.count = (t.words rva).dedup.length

/-- The offset of a symbol in its chunk. -/
def Defined.offset : Defined S N → UInt32
  | regular _ value _ => value
  | synthetic _ offset => offset
  | _ => 0

/-- Two symbols at one address are in one chunk, at one offset. -/
def Apart (rva : Chunk S N → UInt32) (added : List (Defined S N)) : Prop :=
  ∀ s ∈ added, ∀ t ∈ added, (s.getChunk chunks).isSome = true → (t.getChunk chunks).isSome = true →
    s.getRVA chunks rva = t.getRVA chunks rva →
    s.getChunk chunks = t.getChunk chunks ∧ s.offset = t.offset

/-! ### Sorted addresses -/

private theorem tableWords_flatMap (entries : List UInt32) :
    tableWords (entries.flatMap fun entry => le32 entry.toNat) = entries.map (·.toNat) := by
  have words : entries.flatMap (fun entry => le32 entry.toNat) =
      (entries.map (·.toNat)).flatMap le32 := by
    rw [List.flatMap_map]
  have size : ((entries.map (·.toNat)).flatMap le32).length = 4 * entries.length := by
    simp [List.length_flatMap, Function.comp_def, Nat.mul_comm]
  rw [tableWords, words, size, Nat.mul_div_cancel_left _ (by decide)]
  refine List.ext_getElem (by simp) fun i inside inside' => ?_
  have below : i < (entries.map (·.toNat)).length := by simpa using inside'
  rw [List.getElem_map, List.getElem_range, u32At_flatMap _ i below]
  simp [uint32]

private theorem sorted_entries (l : List UInt32) :
    (l.mergeSort fun a b => decide (a ≤ b)).Pairwise (· ≤ ·) := by
  have trans : ∀ a b c : UInt32, decide (a ≤ b) = true → decide (b ≤ c) = true →
      decide (a ≤ c) = true := by
    intro a b c first second
    simp only [decide_eq_true_eq] at *
    exact UInt32.le_trans first second
  have total : ∀ a b : UInt32, (decide (a ≤ b) || decide (b ≤ a)) = true := by
    intro a b
    simpa using UInt32.le_total a b
  have sorted := List.pairwise_mergeSort trans total l
  exact sorted.imp fun le => by simpa using le

/-- A sorted table is strictly ascending exactly if nothing occurs in it twice. -/
private theorem ascending_iff_nodup (l : List UInt32) :
    ((l.mergeSort fun a b => decide (a ≤ b)).map (·.toNat)).Pairwise (· < ·) ↔ l.Nodup := by
  rw [List.pairwise_map]
  constructor
  · intro ascending
    refine (List.mergeSort_perm l _).nodup_iff.mp (ascending.imp fun below same => ?_)
    rw [same] at below
    exact Nat.lt_irrefl _ below
  · intro nodup
    have distinct := (List.mergeSort_perm l fun a b => decide (a ≤ b)).nodup_iff.mpr nodup
    refine ((sorted_entries l).and distinct).imp fun ⟨le, ne⟩ => ?_
    exact Nat.lt_of_le_of_ne (UInt32.le_iff_toNat_le.mp le) fun same => ne (UInt32.toNat_inj.mp same)

/-! ### The collected set -/

/-- Where a symbol is put in the set. -/
private def place (s : Defined S N) : Option (ChunkAndOffset S N) :=
  (s.getChunk chunks).map fun c => ⟨c, s.offset⟩

private theorem getRVA_of_place (rva : Chunk S N → UInt32) {s : Defined S N}
    {p : ChunkAndOffset S N} (placed : place chunks s = some p) :
    s.getRVA chunks rva = rva p.inputChunk + p.offset := by
  obtain ⟨c, chunk, rfl⟩ := Option.map_eq_some_iff.mp placed
  -- by the kind of symbol: those without a chunk have no place
  cases s with
  | synthetic c' offset =>
    cases c' with
    | none => cases chunk
    | some c' =>
      cases chunk
      rfl
  | importData location fileLive loadThunkSym =>
    cases location with
    | none => cases chunk
    | some location =>
      cases chunk
      simp [Defined.getRVA, Defined.offset]
  | absolute => cases chunk
  | regular =>
    cases chunk
    rfl
  | _ =>
    cases chunk
    simp [Defined.getRVA, Defined.offset]

/-- Only regular symbols are in sections, and their chunk is one that is kept. -/
private theorem lookThrough_getChunk {s : Defined S N} {c : Chunk S N}
    (chunk : s.getChunk chunks = some c) : lookThrough chunks c = c := by
  cases c with
  | inr _ => rfl
  | inl sc =>
    cases s with
    | regular data =>
      cases chunk
      rw [lookThrough, chunks.repl_repl]
    | synthetic c' => cases c' <;> cases chunk
    | importData location => cases location <;> cases chunk
    | _ => cases chunk

section Set

variable [DecidableEq S] [DecidableEq N]

/-- Whatever the chunks' addresses are, a symbol is put at its offset in the chunk that is kept. -/
private theorem addSymbolToRVASet_eq (rva : Chunk S N → UInt32) (rvaSet : SymbolRVASet S N)
    (s : Defined S N) :
    addSymbolToRVASet chunks rva rvaSet s = (place chunks s).elim rvaSet fun p => rvaSet.insert p := by
  simp only [addSymbolToRVASet]
  cases chunk : s.getChunk chunks with
  | none => simp [place, chunk]
  | some c =>
    have placed : place chunks s = some ⟨c, s.offset⟩ := by simp [place, chunk]
    rw [placed, getRVA_of_place chunks rva placed]
    simp only [lookThrough_getChunk chunks chunk, Option.elim_some]
    rw [UInt32.add_comm, UInt32.add_sub_cancel]

private theorem mem_addSymbols (rva : Chunk S N → UInt32) (added : List (Defined S N))
    (p : ChunkAndOffset S N) :
    p ∈ addSymbols chunks rva added ↔ ∃ s ∈ added, place chunks s = some p := by
  have fold : ∀ (l : List (Defined S N)) (rvaSet : SymbolRVASet S N),
      p ∈ l.foldl (addSymbolToRVASet chunks rva) rvaSet ↔
        p ∈ rvaSet ∨ ∃ s ∈ l, place chunks s = some p := by
    intro l
    induction l with
    | nil => simp
    | cons s rest ih =>
      intro rvaSet
      rw [List.foldl_cons, ih, addSymbolToRVASet_eq]
      cases placed : place chunks s with
      | none => simp [placed]
      | some q => simp [placed, or_assoc, or_left_comm, eq_comm]
  simpa [addSymbols] using fold added []

private theorem nodup_addSymbols (rva : Chunk S N → UInt32) (added : List (Defined S N)) :
    (addSymbols chunks rva added).Nodup := by
  have fold : ∀ (l : List (Defined S N)) (rvaSet : SymbolRVASet S N), rvaSet.Nodup →
      (l.foldl (addSymbolToRVASet chunks rva) rvaSet).Nodup := by
    intro l
    induction l with
    | nil => exact fun rvaSet nodup => nodup
    | cons s rest ih =>
      intro rvaSet nodup
      refine ih _ ?_
      rw [addSymbolToRVASet_eq]
      cases place chunks s with
      | none => exact nodup
      | some p => exact nodup.insert
  exact fold added [] List.nodup_nil

/-! ### The tables -/

/-- The final address of a place. -/
private def address (rva : Chunk S N → UInt32) (p : ChunkAndOffset S N) : UInt32 :=
  rva p.inputChunk + p.offset

omit [DecidableEq S] [DecidableEq N] in
private theorem words_eq (rva : Chunk S N → UInt32) (syms : SymbolRVASet S N) :
    (maybeAddRVATable syms).words rva =
      ((syms.map (address rva)).mergeSort fun a b => decide (a ≤ b)).map (·.toNat) := by
  cases syms with
  | nil => simp [maybeAddRVATable, RvaTable.words]
  | cons p rest => exact tableWords_flatMap _

omit [DecidableEq S] [DecidableEq N] in
private theorem mem_words (rva : Chunk S N → UInt32) (syms : SymbolRVASet S N) (a : Nat) :
    a ∈ (maybeAddRVATable syms).words rva ↔ ∃ p ∈ syms, (address rva p).toNat = a := by
  simp [words_eq]

omit [DecidableEq S] [DecidableEq N] in
private theorem count_eq (syms : SymbolRVASet S N) :
    (maybeAddRVATable syms).count = syms.length := by
  simp only [maybeAddRVATable]
  cases syms with
  | nil => rfl
  | cons p rest => exact Nat.mul_div_cancel _ (by decide)

private theorem apart_iff (early rva : Chunk S N → UInt32) (added : List (Defined S N)) :
    Apart chunks rva added ↔ ((addSymbols chunks early added).map (address rva)).Nodup := by
  rw [List.nodup_map_iff_inj_on (nodup_addSymbols chunks early added)]
  simp only [mem_addSymbols]
  constructor
  · rintro apart p ⟨s, inS, placed⟩ q ⟨t, inT, placed'⟩ same
    have rvaS := getRVA_of_place chunks rva placed
    have rvaT := getRVA_of_place chunks rva placed'
    obtain ⟨c, chunk, rfl⟩ := Option.map_eq_some_iff.mp placed
    obtain ⟨d, chunk', rfl⟩ := Option.map_eq_some_iff.mp placed'
    obtain ⟨sameChunk, sameOffset⟩ := apart s inS t inT (by simp [chunk]) (by simp [chunk'])
      (rvaS.trans (same.trans rvaT.symm))
    rw [chunk, chunk', Option.some.injEq] at sameChunk
    rw [sameChunk, sameOffset]
  · intro inj s inS t inT hasChunk hasChunk' same
    obtain ⟨c, chunk⟩ := Option.isSome_iff_exists.mp hasChunk
    obtain ⟨d, chunk'⟩ := Option.isSome_iff_exists.mp hasChunk'
    have placed : place chunks s = some ⟨c, s.offset⟩ := by simp [place, chunk]
    have placed' : place chunks t = some ⟨d, t.offset⟩ := by simp [place, chunk']
    rw [getRVA_of_place chunks rva placed, getRVA_of_place chunks rva placed'] at same
    have one := inj _ ⟨s, inS, placed⟩ _ ⟨t, inT, placed'⟩ same
    obtain ⟨sameChunk, sameOffset⟩ := ChunkAndOffset.mk.inj one
    rw [chunk, chunk', sameChunk]
    exact ⟨rfl, sameOffset⟩

/-- For any symbols, any addresses while they are collected and any final layout, the table is
strictly ascending, complete and counted rightly, if and only if no two of the symbols that lie in
different chunks or at different offsets come to one address. -/
theorem table_iff_apart (early rva : Chunk S N → UInt32) (added : List (Defined S N)) :
    TableOf chunks rva added (maybeAddRVATable (addSymbols chunks early added)) ↔
      Apart chunks rva added := by
  have ascending := ascending_iff_nodup ((addSymbols chunks early added).map (address rva))
  rw [← words_eq] at ascending
  rw [apart_iff chunks early]
  constructor
  · intro table
    exact ascending.mp table.ascending
  -- the table is sorted without repeats when the addresses differ, and then it drops none
  · intro nodup
    refine ⟨ascending.mpr nodup, fun a => ?_, ?_⟩
    · rw [mem_words]
      simp only [mem_addSymbols]
      constructor
      · rintro ⟨p, ⟨s, inS, placed⟩, same⟩
        refine ⟨s, inS, ?_, ?_⟩
        · obtain ⟨c, chunk, -⟩ := Option.map_eq_some_iff.mp placed
          simp [chunk]
        · rw [getRVA_of_place chunks rva placed]
          exact same
      · rintro ⟨s, inS, hasChunk, same⟩
        obtain ⟨c, chunk⟩ := Option.isSome_iff_exists.mp hasChunk
        have placed : place chunks s = some ⟨c, s.offset⟩ := by simp [place, chunk]
        refine ⟨_, ⟨s, inS, placed⟩, ?_⟩
        rw [← same, getRVA_of_place chunks rva placed]
        rfl
    · have distinct : ((maybeAddRVATable (addSymbols chunks early added)).words rva).Nodup :=
        (ascending.mpr nodup).imp fun below => Nat.ne_of_lt below
      rw [distinct.dedup, words_eq, count_eq]
      simp

/-- The four guard tables are such tables, each of the symbols collected for it. -/
theorem guardTables_apart (early : Chunk S N → UInt32) (guardCF : GuardCFLevel) (isI386 : Bool)
    (files : List (ObjFile S N)) (symtabs : List (SymbolTable S N)) (tables : GuardTables S N)
    (created : createGuardCFTables chunks early guardCF isI386 files symtabs = some tables) :
    ∀ t ∈ [tables.fids, tables.iat, tables.longjmp, tables.ehCont],
      ∃ added, ∀ rva, TableOf chunks rva added t ↔ Apart chunks rva added := by
  -- each table is filled from one list of symbols
  have collected : ∀ t : RvaTable S N,
      (∃ added, t = maybeAddRVATable (addSymbols chunks early added)) →
      ∃ added, ∀ rva, TableOf chunks rva added t ↔ Apart chunks rva added := by
    rintro _ ⟨added, rfl⟩
    exact ⟨added, fun rva => table_iff_apart chunks early rva added⟩
  have none' : ∃ added, (⟨none, 0⟩ : RvaTable S N) =
      maybeAddRVATable (addSymbols chunks early added) := ⟨[], rfl⟩
  intro t member
  refine collected t ?_
  simp only [createGuardCFTables] at created
  split at created
  · cases created
    simp only [List.mem_cons, List.not_mem_nil, or_false, or_self] at member
    exact member ▸ none'
  · obtain ⟨marked, -, rest⟩ := Option.bind_eq_some_iff.mp created
    cases rest
    simp only [List.mem_cons, List.not_mem_nil, or_false] at member
    rcases member with rfl | rfl | rfl | rfl
    · exact ⟨_, rfl⟩
    · exact ⟨_, rfl⟩
    -- the last two tables stay empty below their level of control flow guard
    · split
      · exact ⟨_, rfl⟩
      · exact none'
    · split
      · exact ⟨_, rfl⟩
      · exact none'

omit [DecidableEq S] [DecidableEq N] in
/-- Where chunks are laid out one beside the other and every symbol lies inside its chunk, the
tables are right. -/
theorem apart_of_inside (rva : Chunk S N → UInt32) (size : Chunk S N → Nat)
    (fits : ∀ c, (rva c).toNat + size c ≤ 2 ^ 32)
    (beside : ∀ c d, c ≠ d →
      (rva c).toNat + size c ≤ (rva d).toNat ∨ (rva d).toNat + size d ≤ (rva c).toNat)
    (added : List (Defined S N))
    (inside : ∀ s ∈ added, ∀ c, s.getChunk chunks = some c → s.offset.toNat < size c) :
    Apart chunks rva added := by
  intro s inS t inT hasChunk hasChunk' same
  obtain ⟨c, chunk⟩ := Option.isSome_iff_exists.mp hasChunk
  obtain ⟨d, chunk'⟩ := Option.isSome_iff_exists.mp hasChunk'
  have placed : place chunks s = some ⟨c, s.offset⟩ := by simp [place, chunk]
  have placed' : place chunks t = some ⟨d, t.offset⟩ := by simp [place, chunk']
  have equal : rva c + s.offset = rva d + t.offset :=
    (getRVA_of_place chunks rva placed).symm.trans
      (same.trans (getRVA_of_place chunks rva placed'))
  rw [← UInt32.toNat_inj, UInt32.toNat_add, UInt32.toNat_add] at equal
  have fitsC := fits c
  have fitsD := fits d
  have insideS := inside s inS c chunk
  have insideT := inside t inT d chunk'
  rw [Nat.mod_eq_of_lt (by omega), Nat.mod_eq_of_lt (by omega)] at equal
  -- an address inside of two chunks, while chunks do not overlap
  have sameChunk : c = d := by
    by_contra ne
    rcases beside c d ne with before | behind
    · omega
    · omega
  subst sameChunk
  exact ⟨chunk.trans chunk'.symm, UInt32.toNat_inj.mp (by omega)⟩

end Set

/-! ### An empty function -/

/-- Two functions that are not folded. -/
def twoFunctions : Chunks (Fin 2) Empty where
  repl := id
  repl_repl := fun _ => rfl
  live := fun _ => true
  liveThunk := fun _ => true
  executable := fun _ => true
  exportTarget := fun n => n.elim

/-- The first function has no bytes, so the second one starts at its address. -/
theorem empty_function_repeated :
    ¬ TableOf twoFunctions (fun _ => 0x1000) [.regular 0 0 true, .regular 1 0 true]
      (maybeAddRVATable (addSymbols twoFunctions (fun _ => 0)
        [.regular 0 0 true, .regular 1 0 true])) := by
  intro table
  have ascending := table.ascending
  rw [words_eq, ascending_iff_nodup] at ascending
  revert ascending
  decide

end LlvmLd.Writer.RvaTables
