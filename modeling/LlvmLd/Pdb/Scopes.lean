import Mathlib.Data.List.Induction
import LlvmLd.Gsi.Records
import LlvmLd.Lib.Brackets
import LlvmLd.Pdb.SymbolRecords

/-!
# Scope links in the module stream

The second pass of `PDBLinker::writeAllModuleSymbolRecords` over one symbols subsection: records
are gathered in a vector, and the end of a scope patches the record that opened it.
-/

namespace LlvmLd.Pdb

open Brackets Codeview Memory Writer
open Gsi (StreamWriter)

/-- The state of the walk: the vector, the open scopes with the innermost first, and the
relocations from `nextRelocIndex` on. -/
structure Pass where
  storage : Storage
  scopes : List Nat
  next : List Relocation

def scopeStackOpen (p : Pass) : Pass :=
  { p with scopes := uint32 p.storage.size :: p.scopes }

/-- With no scope open, only a warning is printed. -/
def scopeStackClose (storageBaseOffset : Nat) (p : Pass) : Pass :=
  match p.scopes with
  | [] => p
  | offOpen :: outer =>
      let offEnd := uint32 (storageBaseOffset + p.storage.size)
      let offParent := outer.head?.elim 0 (fun parent => uint32 (parent + storageBaseOffset))
      let mem := write32 p.storage.mem (offOpen + 4) (BitVec.ofNat 32 offParent)
      { p with
        storage := ⟨write32 mem (offOpen + 8) (BitVec.ofNat 32 offEnd), p.storage.size⟩
        scopes := outer }

def opensScope (sym : PlacedRecord) : Bool := symbolOpensScope sym.kind

def endsScope (sym : PlacedRecord) : Bool := symbolEndsScope sym.kind

/-- The scopes at a record, with what is done at the end of a scope. -/
def trackScope (close : Pass → Pass) (p : Pass) (sym : PlacedRecord) : Pass :=
  if opensScope sym then scopeStackOpen p else if endsScope sym then close p else p

def visitSymbol (close : Pass → Pass) (d : DebugChunk) (p : Pass) (sym : PlacedRecord) :
    Except String Pass :=
  let p := trackScope close p sym
  if symbolGoesInModuleStream sym.kind p.scopes.length then do
    let (storage, next) ← d.writeSymbolRecord sym sym.alignedSize p.next p.storage
    return { p with storage, next }
  else .ok p

/-- A symbols subsection on its way into the stream of its module. -/
structure SymbolsSubsection where
  chunk : DebugChunk
  -- where the subsection's data stands in its section
  vaBegin : Nat
  length : Nat
  relocs : List Relocation
  -- what the vector's memory holds before
  heap : Mem
  writer : StreamWriter
  -- stream lengths are 32-bit values
  length_lt : writer.length < 2 ^ 32

namespace SymbolsSubsection

variable (z : SymbolsSubsection)

def symsBuffer : Bytes := (z.chunk.w.contents z.chunk.c).slice z.vaBegin z.length

def records : List PlacedRecord := (symbolRecords z.vaBegin z.symsBuffer).1

def complete : Bool := (symbolRecords z.vaBegin z.symsBuffer).2

def moduleSymStart : Nat := uint32 z.writer.written.length

def start : Pass := ⟨⟨z.heap, 0⟩, [], z.relocs⟩

def passWith (close : Pass → Pass) (records : List PlacedRecord) : Except String Pass :=
  records.foldlM (visitSymbol close z.chunk) z.start

def pass (records : List PlacedRecord) : Except String Pass :=
  z.passWith (scopeStackClose z.moduleSymStart) records

/-- The body of the loop over subsections; corrupt ones write nothing. -/
def write : Except String StreamWriter := do
  let p ← z.pass z.records
  z.writer.writeBytes (if z.complete then readBytes p.storage.mem 0 p.storage.size else [])

end SymbolsSubsection

/-! ### Where records stand -/

/-- The nesting depth and the offset in the module's symbols, behind a record. -/
def layoutStep (l : Nat × Nat) (sym : PlacedRecord) : Nat × Nat :=
  let depth := depthStep opensScope endsScope l.1 sym
  (depth, l.2 + if symbolGoesInModuleStream sym.kind depth then sym.alignedSize else 0)

/-- How many bytes records make up in the module stream. -/
def moduleSize (records : List PlacedRecord) : Nat := (records.foldl layoutStep (0, 0)).2

theorem not_opens_of_ends (sym : PlacedRecord) (ended : endsScope sym = true) :
    opensScope sym = false := by
  simp only [endsScope] at ended
  simp only [opensScope]
  generalize sym.kind = kind at ended
  cases kind <;> first | rfl | cases ended

/-- Records that open or end a scope are all in the module stream. -/
theorem scope_in_module (sym : PlacedRecord) (depth : Nat)
    (scope : opensScope sym = true ∨ endsScope sym = true) :
    symbolGoesInModuleStream sym.kind depth = true := by
  simp only [opensScope, endsScope] at scope
  generalize sym.kind = kind at scope
  cases kind <;> first | rfl | (rcases scope with h | h <;> cases h)

theorem alignedSize_ge (sym : PlacedRecord) : sym.data.length ≤ sym.alignedSize :=
  le_alignTo _ _ (by omega)

/-! ### One step -/

/-- What the end of a scope does to the walk besides the links: the innermost scope is left. -/
def Pops (close : Pass → Pass) : Prop :=
  ∀ p, (close p).scopes = p.scopes.tail ∧ (close p).storage.size = p.storage.size ∧
    (close p).next = p.next

theorem pops_scopeStackClose (base : Nat) : Pops (scopeStackClose base) := by
  rintro ⟨storage, scopes, next⟩
  cases scopes with
  | nil => exact ⟨rfl, rfl, rfl⟩
  | cons offOpen outer => exact ⟨rfl, rfl, rfl⟩

/-- Leaving a scope without any link. -/
def popScope (p : Pass) : Pass := { p with scopes := p.scopes.tail }

private theorem pops_popScope : Pops popScope := fun _ => ⟨rfl, rfl, rfl⟩

/-- The scopes behind the record. -/
def stepScopes (p : Pass) (sym : PlacedRecord) : List Nat :=
  if opensScope sym then uint32 p.storage.size :: p.scopes
  else if endsScope sym then p.scopes.tail
  else p.scopes

theorem trackScope_eq (close : Pass → Pass) (pops : Pops close) (p : Pass) (sym : PlacedRecord) :
    (trackScope close p sym).scopes = stepScopes p sym ∧
      (trackScope close p sym).storage.size = p.storage.size ∧
      (trackScope close p sym).next = p.next := by
  simp only [trackScope, stepScopes]
  split
  · exact ⟨rfl, rfl, rfl⟩
  · split
    · exact pops p
    · exact ⟨rfl, rfl, rfl⟩

theorem length_stepScopes (p : Pass) (sym : PlacedRecord) :
    (stepScopes p sym).length = depthStep opensScope endsScope p.scopes.length sym := by
  simp only [stepScopes, depthStep]
  split
  · rfl
  · split
    · exact List.length_tail
    · rfl

variable {d : DebugChunk} {close : Pass → Pass} in
theorem visitSymbol_ok (pops : Pops close) {p q : Pass} {sym : PlacedRecord}
    (done : visitSymbol close d p sym = .ok q) :
    q.scopes = stepScopes p sym ∧
      q.storage.size = p.storage.size +
        (if symbolGoesInModuleStream sym.kind q.scopes.length then sym.alignedSize else 0) ∧
      AgreeOn (Set.Iio (p.storage.size : Int)) q.storage.mem (trackScope close p sym).storage.mem := by
  obtain ⟨scopes, size, next⟩ := trackScope_eq close pops p sym
  rw [visitSymbol] at done
  dsimp only at done
  -- a record that goes in is written behind all others, one that stays out writes nothing
  by_cases goes : symbolGoesInModuleStream sym.kind (trackScope close p sym).scopes.length = true
  · rw [if_pos goes] at done
    cases written : d.writeSymbolRecord sym sym.alignedSize (trackScope close p sym).next
        (trackScope close p sym).storage with
    | error text =>
      rw [written] at done
      cases done
    | ok result =>
      obtain ⟨storage, next'⟩ := result
      rw [written] at done
      cases done
      obtain ⟨newSize, below⟩ := writeSymbolRecord_ok d sym sym.alignedSize written
      rw [size] at newSize below
      refine ⟨scopes, ?_, below⟩
      dsimp only
      rw [if_pos goes, newSize]
  · rw [if_neg goes] at done
    cases done
    refine ⟨scopes, ?_, fun _ _ => rfl⟩
    rw [if_neg goes, size, Nat.add_zero]

/-! ### Runs -/

section Runs

variable {d : DebugChunk} {close : Pass → Pass}

theorem run_cons {p q : Pass} {sym : PlacedRecord} {rest : List PlacedRecord}
    (done : (sym :: rest).foldlM (visitSymbol close d) p = .ok q) :
    ∃ p', visitSymbol close d p sym = .ok p' ∧ rest.foldlM (visitSymbol close d) p' = .ok q := by
  rw [List.foldlM_cons] at done
  cases first : visitSymbol close d p sym with
  | error text =>
    rw [first] at done
    cases done
  | ok p' =>
    rw [first] at done
    exact ⟨p', rfl, done⟩

private theorem run_append {p q : Pass} {front rest : List PlacedRecord}
    (done : (front ++ rest).foldlM (visitSymbol close d) p = .ok q) :
    ∃ p', front.foldlM (visitSymbol close d) p = .ok p' ∧
      rest.foldlM (visitSymbol close d) p' = .ok q := by
  rw [List.foldlM_append] at done
  cases first : front.foldlM (visitSymbol close d) p with
  | error text =>
    rw [first] at done
    cases done
  | ok p' =>
    rw [first] at done
    exact ⟨p', rfl, done⟩

private theorem run_concat {p q r : Pass} {front : List PlacedRecord} {sym : PlacedRecord}
    (first : front.foldlM (visitSymbol close d) p = .ok q)
    (last : visitSymbol close d q sym = .ok r) :
    (front ++ [sym]).foldlM (visitSymbol close d) p = .ok r := by
  rw [List.foldlM_append, first]
  change [sym].foldlM (visitSymbol close d) q = .ok r
  rw [List.foldlM_cons, last]
  rfl

theorem run_layout (pops : Pops close) {p q : Pass} {records : List PlacedRecord}
    (done : records.foldlM (visitSymbol close d) p = .ok q) :
    records.foldl layoutStep (p.scopes.length, p.storage.size) =
      (q.scopes.length, q.storage.size) := by
  induction records generalizing p with
  | nil =>
    cases done
    rfl
  | cons sym rest ih =>
    obtain ⟨p', first, later⟩ := run_cons done
    obtain ⟨scopes, size, -⟩ := visitSymbol_ok pops first
    rw [List.foldl_cons, ← ih later]
    congr 1
    simp only [layoutStep]
    rw [size, scopes, length_stepScopes]

/-- A scope that is opened is closed by its own end, so a balanced list keeps the stack. -/
theorem run_balanced (pops : Pops close) {p q : Pass} {records : List PlacedRecord}
    (balanced : Balanced opensScope endsScope records)
    (done : records.foldlM (visitSymbol close d) p = .ok q) : q.scopes = p.scopes := by
  induction balanced generalizing p q with
  | nil =>
    cases done
    rfl
  | plain x rest notOpen notEnd _ ih =>
    obtain ⟨p', first, later⟩ := run_cons done
    rw [ih later, (visitSymbol_ok pops first).1]
    simp [stepScopes, notOpen, notEnd]
  | nest o inner c rest opened ended _ _ ihMiddle ihTail =>
    obtain ⟨p1, first, later⟩ := run_cons done
    obtain ⟨p2, middle, later⟩ := run_append later
    obtain ⟨p3, last, later⟩ := run_cons later
    have notOpen := not_opens_of_ends c ended
    rw [ihTail later, (visitSymbol_ok pops last).1, stepScopes, if_neg (by simp [notOpen]),
      if_pos ended, ihMiddle middle, (visitSymbol_ok pops first).1, stepScopes, if_pos opened,
      List.tail_cons]

theorem layout_depth (records : List PlacedRecord) (l : Nat × Nat) :
    (records.foldl layoutStep l).1 = records.foldl (depthStep opensScope endsScope) l.1 := by
  induction records generalizing l with
  | nil => rfl
  | cons sym rest ih =>
    rw [List.foldl_cons, List.foldl_cons, ih]
    rfl

theorem layout_mono (records : List PlacedRecord) (l : Nat × Nat) :
    l.2 ≤ (records.foldl layoutStep l).2 := by
  induction records generalizing l with
  | nil => exact Nat.le_refl _
  | cons sym rest ih =>
    have step : l.2 ≤ (layoutStep l sym).2 := Nat.le_add_right _ _
    exact Nat.le_trans step (ih _)

private theorem moduleSize_le (front rest : List PlacedRecord) :
    moduleSize front ≤ moduleSize (front ++ rest) := by
  simp only [moduleSize]
  rw [List.foldl_append]
  exact layout_mono rest _

/-- The record that opens a scope is part of the module's symbols. -/
theorem opener_room (front rest : List PlacedRecord) (o : PlacedRecord)
    (opened : opensScope o = true) :
    moduleSize front + o.alignedSize ≤ moduleSize (front ++ o :: rest) := by
  simp only [moduleSize]
  rw [List.foldl_append, List.foldl_cons]
  refine Nat.le_trans ?_ (layout_mono rest _)
  rw [layoutStep]
  dsimp only
  rw [if_pos (scope_in_module o _ (.inl opened))]

end Runs

/-! ### The stack -/

namespace SymbolsSubsection

variable {z : SymbolsSubsection} {close : Pass → Pass}

theorem pass_size (pops : Pops close) {records : List PlacedRecord} {p : Pass}
    (done : z.passWith close records = .ok p) : p.storage.size = moduleSize records := by
  have layout := run_layout pops done
  exact (congrArg Prod.snd layout).symm

private theorem pass_depth (pops : Pops close) {records : List PlacedRecord} {p : Pass}
    (done : z.passWith close records = .ok p) :
    depth opensScope endsScope records = p.scopes.length := by
  have layout := congrArg Prod.fst (run_layout pops done)
  rw [layout_depth] at layout
  exact layout

private theorem pass_append {front rest : List PlacedRecord} {q : Pass}
    (done : z.passWith close (front ++ rest) = .ok q) :
    ∃ p, z.passWith close front = .ok p ∧ rest.foldlM (visitSymbol close z.chunk) p = .ok q :=
  run_append done

/-- With a balanced list behind an opener, the opener is the innermost scope. -/
theorem pass_innermost (pops : Pops close) {front middle : List PlacedRecord} {o : PlacedRecord}
    (opened : opensScope o = true) (balanced : Balanced opensScope endsScope middle) {p : Pass}
    (done : z.passWith close (front ++ o :: middle) = .ok p) :
    ∃ outer, z.passWith close front = .ok outer ∧
      p.scopes = uint32 (moduleSize front) :: outer.scopes := by
  obtain ⟨outer, first, later⟩ := pass_append done
  obtain ⟨inner, step, later⟩ := run_cons later
  refine ⟨outer, first, ?_⟩
  rw [run_balanced pops balanced later, (visitSymbol_ok pops step).1, stepScopes, if_pos opened,
    pass_size pops first]

/-- Every open scope has its opener, and the opener's record is in the storage. -/
theorem pass_scopes (pops : Pops close) {records : List PlacedRecord} {p : Pass}
    (done : z.passWith close records = .ok p) (small : moduleSize records < 2 ^ 32) :
    ∀ off ∈ p.scopes, ∃ front o rest, records = front ++ o :: rest ∧ opensScope o = true ∧
      off = moduleSize front ∧ moduleSize front + o.alignedSize ≤ moduleSize records := by
  induction records using List.reverseRecOn generalizing p with
  | nil =>
    cases done
    intro off none
    cases none
  | append_singleton records sym ih =>
    obtain ⟨before, first, later⟩ := pass_append done
    obtain ⟨after, step, nothing⟩ := run_cons later
    cases nothing
    have grows := moduleSize_le records [sym]
    have old := ih first (by omega)
    obtain ⟨scopes, -, -⟩ := visitSymbol_ok pops step
    -- A scope that was open has its opener still in front, and the storage only grows.
    have kept : ∀ off ∈ before.scopes, ∃ front o rest, records ++ [sym] = front ++ o :: rest ∧
        opensScope o = true ∧ off = moduleSize front ∧
        moduleSize front + o.alignedSize ≤ moduleSize (records ++ [sym]) := by
      intro off member
      obtain ⟨front, o, rest, rfl, opened, place, room⟩ := old off member
      exact ⟨front, o, rest ++ [sym], by simp, opened, place, by omega⟩
    intro off member
    rw [scopes, stepScopes] at member
    by_cases opened : opensScope sym = true
    · rw [if_pos opened] at member
      rcases List.mem_cons.mp member with rfl | member
      · refine ⟨records, sym, [], rfl, opened, ?_, opener_room records [] sym opened⟩
        rw [pass_size pops first]
        exact Nat.mod_eq_of_lt (by omega)
      · exact kept off member
    rw [if_neg opened] at member
    by_cases ended : endsScope sym = true
    · rw [if_pos ended] at member
      exact kept off (List.mem_of_mem_tail member)
    · rw [if_neg ended] at member
      exact kept off member

/-! ### What the end of a scope writes -/

private theorem close_mem (base off : Nat) (outer : List Nat) (p : Pass)
    (open_ : p.scopes = off :: outer) :
    (scopeStackClose base p).storage.mem =
      write32 (write32 p.storage.mem (off + 4)
          (BitVec.ofNat 32 (outer.head?.elim 0 (fun parent => uint32 (parent + base)))))
        (off + 8) (BitVec.ofNat 32 (uint32 (base + p.storage.size))) := by
  simp only [scopeStackClose]
  rw [open_]

private theorem close_frame (base : Nat) (p : Pass) (a : Int)
    (outside : ∀ off ∈ p.scopes, a ∉ Set.Ico (off + 4 : Int) (off + 12)) :
    (scopeStackClose base p).storage.mem a = p.storage.mem a := by
  cases open_ : p.scopes with
  | nil =>
    simp only [scopeStackClose]
    rw [open_]
  | cons off outer =>
    have apart := outside off (by simp [open_])
    have here : a < (off : Int) + 4 ∨ (off : Int) + 12 ≤ a := by
      by_contra between
      exact apart ⟨by omega, by omega⟩
    rw [close_mem base off outer p open_, write32_frame _ _ _ _ (by omega),
      write32_frame _ _ _ _ (by omega)]

variable {d : DebugChunk} {base : Nat} in
/-- Later records and the ends of other scopes leave a byte alone. -/
theorem run_frame {p q : Pass} {records : List PlacedRecord}
    (done : records.foldlM (visitSymbol (scopeStackClose base) d) p = .ok q)
    (small : q.storage.size < 2 ^ 32) (a : Int) (written : a < p.storage.size)
    (outside : ∀ off ∈ p.scopes, a ∉ Set.Ico (off + 4 : Int) (off + 12)) :
    q.storage.mem a = p.storage.mem a := by
  induction records generalizing p with
  | nil =>
    cases done
    rfl
  | cons sym rest ih =>
    obtain ⟨p', first, later⟩ := run_cons done
    have pops := pops_scopeStackClose base
    obtain ⟨scopes, size, below⟩ := visitSymbol_ok pops first
    have grows : p'.storage.size ≤ q.storage.size := by
      have layout := layout_mono rest (p'.scopes.length, p'.storage.size)
      rw [run_layout pops later] at layout
      exact layout
    -- A record is written behind the byte, and a closing end patches a link that does not hold it.
    have step : p'.storage.mem a = p.storage.mem a := by
      rw [below a (Set.mem_Iio.mpr written)]
      simp only [trackScope]
      split
      · rfl
      · split
        · exact close_frame base p a outside
        · rfl
    rw [← step]
    apply ih later (by omega)
    -- A scope opened meanwhile starts behind the byte.
    intro off member
    rw [scopes, stepScopes] at member
    split at member
    · rcases List.mem_cons.mp member with rfl | member
      · have word : uint32 p.storage.size = p.storage.size := Nat.mod_eq_of_lt (by omega)
        rintro ⟨low, high⟩
        omega
      · exact outside off member
    · split at member
      · exact outside off (List.mem_of_mem_tail member)
      · exact outside off member

end SymbolsSubsection

/-! ### The links -/

namespace SymbolsSubsection

variable (z : SymbolsSubsection)

/-- Whatever the storage holds, the end of a scope changes nothing outside of the record that
opened it. -/
def ClosesInside : Prop :=
  ∀ done sym rest p, z.records = done ++ sym :: rest → endsScope sym = true →
    z.pass done = .ok p → p.scopes ≠ [] →
    ∃ front o middle, done = front ++ o :: middle ∧ opensScope o = true ∧
      Balanced opensScope endsScope middle ∧
      ∀ m a, a ∉ Set.Ico (moduleSize front : Int) (moduleSize front + o.alignedSize : Nat) →
        (scopeStackClose z.moduleSymStart
          { p with storage := ⟨m, p.storage.size⟩ }).storage.mem a = m a

/-- A record and the end of its scope, with what stands in front, between and behind them. -/
structure Scope (front : List PlacedRecord) (o : PlacedRecord) (middle : List PlacedRecord)
    (c : PlacedRecord) (rest : List PlacedRecord) : Prop where
  place : z.records = front ++ o :: (middle ++ c :: rest)
  opened : opensScope o = true
  ended : endsScope c = true
  balanced : Balanced opensScope endsScope middle

/-- The fields of each opener in the module stream name its end and its enclosing opener. -/
structure LinksExact (w : StreamWriter) : Prop where
  ptrEnd : ∀ front o middle c rest, z.Scope front o middle c rest →
    w.written.u32At (z.writer.written.length + moduleSize front + 8) =
      z.writer.written.length + moduleSize (front ++ o :: middle)
  topLevel : ∀ front o middle c rest, z.Scope front o middle c rest →
    Balanced opensScope endsScope front →
    w.written.u32At (z.writer.written.length + moduleSize front + 4) = 0
  ptrParent : ∀ front o middle c rest, z.Scope front o middle c rest →
    ∀ outer parent inner, front = outer ++ parent :: inner → opensScope parent = true →
    Balanced opensScope endsScope inner →
    w.written.u32At (z.writer.written.length + moduleSize front + 4) =
      z.writer.written.length + moduleSize outer

/-- All other bytes are those of a pass that does not link. -/
def OthersUnaffected (w : StreamWriter) : Prop :=
  ∃ u, z.passWith popScope z.records = .ok u ∧ ∀ i < moduleSize z.records,
    (∀ front o rest, z.records = front ++ o :: rest → opensScope o = true →
      i ∉ Set.Ico (moduleSize front + 4) (moduleSize front + 12)) →
    w.written.getD (z.writer.written.length + i) 0 = u.storage.mem i

structure ScopesLinked : Prop where
  inside : z.ClosesInside
  links : Balanced opensScope endsScope z.records → z.complete = true → ∀ w, z.write = .ok w →
    z.LinksExact w ∧ z.OthersUnaffected w

/-- Each record whose scope is ended has room for the links and starts below 2^32. -/
def RoomForLinks : Prop :=
  ∀ front o middle c rest, z.Scope front o middle c rest →
    (∃ p, z.pass (front ++ o :: middle) = .ok p) →
    moduleSize front < 2 ^ 32 ∧ 12 ≤ o.alignedSize

end SymbolsSubsection

namespace SymbolsSubsection

variable {z : SymbolsSubsection}

private theorem inside_of_room (room : z.RoomForLinks) : z.ClosesInside := by
  intro done sym rest p place ended passed open_
  have pops := pops_scopeStackClose z.moduleSymStart
  have inside : 0 < depth opensScope endsScope done := by
    rw [pass_depth pops passed]
    exact List.length_pos_iff.mpr open_
  obtain ⟨front, o, middle, rfl, opened, balanced, -⟩ := exists_opener done inside
  obtain ⟨small, large⟩ := room front o middle sym rest
    ⟨by rw [place, List.append_assoc, List.cons_append], opened, ended, balanced⟩ ⟨p, passed⟩
  obtain ⟨outer, -, scopes⟩ := pass_innermost pops opened balanced passed
  refine ⟨front, o, middle, rfl, opened, balanced, ?_⟩
  intro m a outside
  have word : uint32 (moduleSize front) = moduleSize front := Nat.mod_eq_of_lt small
  rw [close_mem _ _ _ ⟨⟨m, _⟩, _, _⟩ scopes, word]
  have apart : a < moduleSize front + 4 ∨ (moduleSize front : Int) + 12 ≤ a := by
    by_contra between
    exact outside ⟨by omega, by omega⟩
  rw [write32_frame _ _ _ _ (by omega), write32_frame _ _ _ _ (by omega)]

private theorem room_of_inside (inside : z.ClosesInside) : z.RoomForLinks := by
  rintro front o middle c rest ⟨place, opened, ended, balanced⟩ ⟨p, passed⟩
  have pops := pops_scopeStackClose z.moduleSymStart
  obtain ⟨outer, -, scopes⟩ := pass_innermost pops opened balanced passed
  obtain ⟨front', o', middle', same, opened', balanced', frame⟩ :=
    inside (front ++ o :: middle) c rest p (by rw [place, List.append_assoc, List.cons_append])
      ended passed (by rw [scopes]; exact List.cons_ne_nil _ _)
  obtain ⟨rfl, rfl, rfl⟩ := opener_unique not_opens_of_ends same opened balanced opened' balanced'
  -- a byte of the links outside of the record would keep two different values
  have written : ∀ a : Int, uint32 (moduleSize front) + 8 ≤ a → a < uint32 (moduleSize front) + 12 →
      a ∈ Set.Ico (moduleSize front : Int) (moduleSize front + o.alignedSize : Nat) := by
    intro a low high
    by_contra outside
    have closed : ∀ m : Mem, (scopeStackClose z.moduleSymStart
        { p with storage := ⟨m, p.storage.size⟩ }).storage.mem = _ :=
      fun m => close_mem _ _ _ ⟨⟨m, p.storage.size⟩, p.scopes, p.next⟩ scopes
    have zero := frame (fun _ => 0) a outside
    have one := frame (fun _ => 1) a outside
    rw [closed] at zero one
    rw [write32_inside _ (fun _ => 0) _ a _ low (by omega)] at zero one
    rw [zero] at one
    cases one
  have first := written (uint32 (moduleSize front) + 8) (by omega) (by omega)
  have last := written (uint32 (moduleSize front) + 11) (by omega) (by omega)
  obtain ⟨low, -⟩ := first
  obtain ⟨-, high⟩ := last
  unfold uint32 at low high
  omega

/-- In a balanced subsection every opener has room for its links. -/
theorem opener_large (room : z.RoomForLinks) {p : Pass} (passed : z.pass z.records = .ok p)
    (balanced : Balanced opensScope endsScope z.records) (front rest : List PlacedRecord)
    (o : PlacedRecord) (place : z.records = front ++ o :: rest) (opened : opensScope o = true) :
    12 ≤ o.alignedSize := by
  obtain ⟨middle, c, after, rfl, ended, inner⟩ :=
    balanced.closed not_opens_of_ends front rest o place opened
  rw [place, ← List.cons_append, ← List.append_assoc] at passed
  obtain ⟨q, early, -⟩ := pass_append passed
  exact (room front o middle c after ⟨place, opened, ended, inner⟩ ⟨q, early⟩).2

/-- The stream that is written in the end. -/
theorem write_ok (complete : z.complete = true) {w : StreamWriter} (done : z.write = .ok w) :
    ∃ p, z.pass z.records = .ok p ∧
      w.written = z.writer.written ++ readBytes p.storage.mem 0 (moduleSize z.records) ∧
      z.writer.written.length + moduleSize z.records < 2 ^ 32 := by
  simp only [write] at done
  cases passed : z.pass z.records with
  | error text =>
    rw [passed] at done
    cases done
  | ok p =>
    rw [passed] at done
    change z.writer.writeBytes _ = _ at done
    have size := pass_size (pops_scopeStackClose z.moduleSymStart) passed
    rw [if_pos complete, size, StreamWriter.writeBytes] at done
    refine ⟨p, rfl, ?_⟩
    split at done
    · cases done
    · cases done
      rename_i fits
      rw [length_readBytes] at fits
      have length := z.length_lt
      exact ⟨rfl, by omega⟩

private theorem u32At_append (front back : Bytes) (i : Nat) :
    Bytes.u32At (front ++ back) (front.length + i) = Bytes.u32At back i := by
  have shifted := u32At_drop (front ++ back) front.length i
  rw [List.drop_left] at shifted
  exact shifted.symm

/-- The two fields of an opener in the storage. -/
theorem linked (room : z.RoomForLinks) {p : Pass} (passed : z.pass z.records = .ok p)
    (small : z.moduleSymStart + moduleSize z.records < 2 ^ 32)
    (balanced : Balanced opensScope endsScope z.records) {front middle rest : List PlacedRecord}
    {o c : PlacedRecord} (scope : z.Scope front o middle c rest) :
    ∃ outer, z.pass front = .ok outer ∧
      (read32 p.storage.mem (moduleSize front + 8 : Nat)).toNat =
        z.moduleSymStart + moduleSize (front ++ o :: middle) ∧
      (read32 p.storage.mem (moduleSize front + 4 : Nat)).toNat =
        outer.scopes.head?.elim 0 (fun parent => uint32 (parent + z.moduleSymStart)) ∧
      moduleSize front + 12 ≤ moduleSize z.records := by
  have pops := pops_scopeStackClose z.moduleSymStart
  obtain ⟨place, opened, ended, middleBalanced⟩ := scope
  have large := opener_large room passed balanced front (middle ++ c :: rest) o place opened
  have whole : z.records = (front ++ o :: middle) ++ c :: rest := by
    rw [place, List.append_assoc, List.cons_append]
  have sizes := moduleSize_le (front ++ o :: middle) (c :: rest)
  have roomFor := opener_room front middle o opened
  rw [← whole] at sizes
  have split := passed
  rw [whole] at split
  obtain ⟨q, early, later⟩ := pass_append split
  obtain ⟨r, atEnd, after⟩ := run_cons later
  obtain ⟨outer, outerPass, scopes⟩ := pass_innermost pops opened middleBalanced early
  have word : uint32 (moduleSize front) = moduleSize front := Nat.mod_eq_of_lt (by omega)
  rw [word] at scopes
  have qSize := pass_size pops early
  have pSize := pass_size pops passed
  obtain ⟨rScopes, rSize, below⟩ := visitSymbol_ok pops atEnd
  have notOpen := not_opens_of_ends c ended
  rw [stepScopes, if_neg (by simp [notOpen]), if_pos ended, scopes, List.tail_cons] at rScopes
  rw [trackScope, if_neg (by simp [notOpen]), if_pos ended, close_mem _ _ _ _ scopes] at below
  -- the links stay until the end of the subsection
  have stays : ∀ a : Int, moduleSize front + 4 ≤ a → a < moduleSize front + 12 →
      p.storage.mem a = r.storage.mem a := by
    intro a low high
    apply run_frame after (by omega) a (by omega)
    intro off member
    rw [rScopes] at member
    obtain ⟨front', o', rest', frontEq, opened', rfl, room'⟩ :=
      pass_scopes pops outerPass (by omega) off member
    have large' := opener_large room passed balanced front'
      (rest' ++ o :: (middle ++ c :: rest)) o' (by rw [place, frontEq]; simp) opened'
    rintro ⟨low', high'⟩
    omega
  have final : ∀ a : Int, moduleSize front + 4 ≤ a → a + 4 ≤ moduleSize front + 12 →
      read32 p.storage.mem a = read32 (write32 (write32 q.storage.mem (moduleSize front + 4)
          (BitVec.ofNat 32 (outer.scopes.head?.elim 0
            (fun parent => uint32 (parent + z.moduleSymStart)))))
        (moduleSize front + 8)
        (BitVec.ofNat 32 (uint32 (z.moduleSymStart + q.storage.size)))) a := by
    intro a low high
    apply readsOnly_read32 a
    rintro x ⟨from_, upto⟩
    rw [stays x (by omega) (by omega), below x (Set.mem_Iio.mpr (by omega))]
  have start : z.moduleSymStart < 2 ^ 32 := Nat.mod_lt _ (by decide)
  have parentSmall : outer.scopes.head?.elim 0 (fun parent => uint32 (parent + z.moduleSymStart)) <
      2 ^ 32 := by
    cases outer.scopes.head? with
    | none => exact Nat.two_pow_pos 32
    | some parent => exact Nat.mod_lt _ (by decide)
  refine ⟨outer, outerPass, ?_, ?_, by omega⟩
  · rw [final _ (by omega) (by omega)]
    push_cast
    rw [read32_write32, BitVec.toNat_ofNat, qSize, uint32, Nat.mod_mod,
      Nat.mod_eq_of_lt (by omega)]
  · rw [final _ (by omega) (by omega)]
    push_cast
    rw [read32_write32_apart _ _ _ _ (by omega), read32_write32, BitVec.toNat_ofNat,
      Nat.mod_eq_of_lt parentSmall]

end SymbolsSubsection

namespace SymbolsSubsection

variable {z : SymbolsSubsection}

private theorem linksExact_of_room (room : z.RoomForLinks)
    (balanced : Balanced opensScope endsScope z.records) (complete : z.complete = true)
    {w : StreamWriter} (done : z.write = .ok w) : z.LinksExact w := by
  obtain ⟨p, passed, written, small⟩ := write_ok complete done
  have pops := pops_scopeStackClose z.moduleSymStart
  have start : z.moduleSymStart = z.writer.written.length := Nat.mod_eq_of_lt (by omega)
  -- a field of the module stream is one of the storage that was appended to it
  have field : ∀ i, i + 4 ≤ moduleSize z.records →
      w.written.u32At (z.writer.written.length + i) = (read32 p.storage.mem i).toNat := by
    intro i inside
    rw [written, u32At_append, u32At_readBytes _ _ _ _ inside, Int.zero_add]
  constructor
  · intro front o middle c rest scope
    obtain ⟨outer, -, atEnd, -, fits⟩ := linked room passed (by omega) balanced scope
    rw [Nat.add_assoc, field _ (by omega), atEnd, start]
  -- an opener at the top level has no parent
  · intro front o middle c rest scope frontBalanced
    obtain ⟨outer, outerPass, -, parent, fits⟩ := linked room passed (by omega) balanced scope
    have none : outer.scopes = [] := run_balanced pops frontBalanced outerPass
    rw [Nat.add_assoc, field _ (by omega), parent, none]
    rfl
  -- an opener inside of another: the innermost one that is open is its parent
  · rintro front o middle c rest scope outer parent inner rfl opened innerBalanced
    obtain ⟨p', outerPass, -, field', fits⟩ := linked room passed (by omega) balanced scope
    obtain ⟨before, -, scopes⟩ := pass_innermost pops opened innerBalanced outerPass
    have smaller := moduleSize_le outer (parent :: inner)
    have first : uint32 (moduleSize outer) = moduleSize outer := Nat.mod_eq_of_lt (by omega)
    rw [Nat.add_assoc, field _ (by omega), field', scopes, List.head?_cons, Option.elim_some, first,
      start, Nat.add_comm]
    exact Nat.mod_eq_of_lt (by omega)

/-- Two passes that differ in the links of the openers only. -/
structure Alike (records : List PlacedRecord) (p u : Pass) : Prop where
  size : u.storage.size = p.storage.size
  scopes : u.scopes = p.scopes
  next : u.next = p.next
  mem : ∀ a : Int, (∀ front o rest, records = front ++ o :: rest → opensScope o = true →
    a ∉ Set.Ico (moduleSize front + 4 : Int) (moduleSize front + 12)) →
    p.storage.mem a = u.storage.mem a

private theorem alike_track {records : List PlacedRecord} {p u : Pass} (alike : Alike records p u)
    (passed : z.pass records = .ok p) (small : moduleSize records < 2 ^ 32) (sym : PlacedRecord) :
    Alike records (trackScope (scopeStackClose z.moduleSymStart) p sym) (trackScope popScope u sym) := by
  have pops := pops_scopeStackClose z.moduleSymStart
  obtain ⟨pScopes, pSize, pNext⟩ := trackScope_eq _ pops p sym
  obtain ⟨uScopes, uSize, uNext⟩ := trackScope_eq _ pops_popScope u sym
  refine ⟨by rw [uSize, pSize, alike.size], ?_, by rw [uNext, pNext, alike.next], ?_⟩
  · rw [uScopes, pScopes, stepScopes, stepScopes, alike.scopes, alike.size]
  · intro a outside
    have same := alike.mem a outside
    simp only [trackScope]
    split
    · exact same
    · split
      · rw [close_frame]
        · exact same
        · intro off member
          obtain ⟨front, o, rest, place, opened, rfl, -⟩ := pass_scopes pops passed small off member
          exact outside front o rest place opened
      · exact same

/-- A pass with links and one without go side by side. -/
theorem alike_pass (all : List PlacedRecord) (small : moduleSize all < 2 ^ 32)
    (large : ∀ front o rest, all = front ++ o :: rest → opensScope o = true → 12 ≤ o.alignedSize)
    (records rest : List PlacedRecord) (place : all = records ++ rest) {p : Pass}
    (passed : z.pass records = .ok p) :
    ∃ u, z.passWith popScope records = .ok u ∧ Alike records p u := by
  induction records using List.reverseRecOn generalizing rest p with
  | nil =>
    cases passed
    exact ⟨z.start, rfl, rfl, rfl, rfl, fun _ _ => rfl⟩
  | append_singleton records sym ih =>
    rw [List.append_assoc] at place
    obtain ⟨before, first, later⟩ := pass_append passed
    obtain ⟨after, step, nothing⟩ := run_cons later
    cases nothing
    obtain ⟨u, uPass, alike⟩ := ih _ place first
    have pops := pops_scopeStackClose z.moduleSymStart
    have fits := moduleSize_le records ([sym] ++ rest)
    rw [← place] at fits
    have size := pass_size pops first
    have tracked := alike_track alike first (by omega) sym
    have pSize := (trackScope_eq _ pops before sym).2.1
    -- the links are all in front of what is written now
    have behind : AgreeOn (Set.Ici (before.storage.size : Int))
        (trackScope (scopeStackClose z.moduleSymStart) before sym).storage.mem
        (trackScope popScope u sym).storage.mem := by
      intro a inside
      apply tracked.mem a
      rintro front o rest' rfl opened ⟨low, high⟩
      have room := opener_room front rest' o opened
      have twelve := large front o (rest' ++ ([sym] ++ rest)) (by rw [place]; simp) opened
      have inside : (before.storage.size : Int) ≤ a := inside
      omega
    have more : ∀ a : Int, (∀ front o rest, records ++ [sym] = front ++ o :: rest →
        opensScope o = true → a ∉ Set.Ico (moduleSize front + 4 : Int) (moduleSize front + 12)) →
        ∀ front o rest, records = front ++ o :: rest → opensScope o = true →
          a ∉ Set.Ico (moduleSize front + 4 : Int) (moduleSize front + 12) := by
      rintro a outside front o rest' rfl opened
      exact outside front o (rest' ++ [sym]) (by simp) opened
    rw [visitSymbol] at step
    dsimp only at step
    generalize trackScope (scopeStackClose z.moduleSymStart) before sym = t at *
    by_cases goes : symbolGoesInModuleStream sym.kind t.scopes.length = true
    · rw [if_pos goes] at step
      have both := writeSymbolRecord_congr z.chunk sym sym.alignedSize t.next t.storage.size
        t.storage.mem (trackScope popScope u sym).storage.mem (by rw [pSize]; exact behind)
      rcases both with ⟨text, failed, -⟩ | ⟨m', n', next', written, also, agree⟩
      · rw [show z.chunk.writeSymbolRecord sym sym.alignedSize t.next t.storage = _ from failed]
          at step
        cases step
      rw [show z.chunk.writeSymbolRecord sym sym.alignedSize t.next t.storage = _ from written]
        at step
      cases step
      have storage : (trackScope popScope u sym).storage =
          ⟨(trackScope popScope u sym).storage.mem, t.storage.size⟩ := by rw [← tracked.size]
      refine ⟨{ trackScope popScope u sym with
        storage := ⟨n', t.storage.size + sym.alignedSize⟩, next := next' }, ?_, rfl,
        tracked.scopes, rfl, ?_⟩
      · apply run_concat uPass
        rw [visitSymbol]
        dsimp only
        rw [tracked.scopes, if_pos goes, tracked.next, storage, also]
        rfl
      · intro a outside
        obtain ⟨-, low⟩ := writeSymbolRecord_ok z.chunk sym sym.alignedSize written
        obtain ⟨-, low'⟩ := writeSymbolRecord_ok z.chunk sym sym.alignedSize also
        by_cases new : (t.storage.size : Int) ≤ a
        · exact agree a new
        · have old : a ∈ Set.Iio (t.storage.size : Int) := Set.mem_Iio.mpr (by omega)
          have kept : m' a = t.storage.mem a := low a old
          have kept' : n' a = (trackScope popScope u sym).storage.mem a := low' a old
          change m' a = n' a
          rw [kept, kept']
          exact tracked.mem a (more a outside)
    · rw [if_neg goes] at step
      cases step
      refine ⟨trackScope popScope u sym, ?_, tracked.size, tracked.scopes, tracked.next, ?_⟩
      · apply run_concat uPass
        rw [visitSymbol]
        dsimp only
        rw [tracked.scopes, if_neg goes]
      · exact fun a outside => tracked.mem a (more a outside)

private theorem othersUnaffected_of_room (room : z.RoomForLinks)
    (balanced : Balanced opensScope endsScope z.records) (complete : z.complete = true)
    {w : StreamWriter} (done : z.write = .ok w) : z.OthersUnaffected w := by
  obtain ⟨p, passed, written, small⟩ := write_ok complete done
  obtain ⟨u, uPass, alike⟩ := alike_pass z.records (by omega)
    (fun front o rest place opened => opener_large room passed balanced front rest o place opened)
    z.records [] (by simp) passed
  refine ⟨u, uPass, ?_⟩
  intro i inside outside
  have same := alike.mem i (fun front o rest place opened ⟨low, high⟩ =>
    outside front o rest place opened ⟨by omega, by omega⟩)
  rw [written, ← same, List.getD_eq_getElem?_getD, List.getElem?_append_right (by omega),
    Nat.add_sub_cancel_left]
  simp only [readBytes]
  rw [List.getElem?_map, List.getElem?_range inside, Option.map_some, Option.getD_some, Int.zero_add]

variable (z) in
/-- Scope links are exact and stay in bounds just if every record whose scope is ended has room
for them; records are not required to be longer than their prefix. -/
theorem scopesLinked_iff_room : z.ScopesLinked ↔ z.RoomForLinks := by
  constructor
  · intro linked
    exact room_of_inside linked.inside
  · intro room
    refine ⟨inside_of_room room, ?_⟩
    intro balanced complete w done
    exact ⟨linksExact_of_room room balanced complete done,
      othersUnaffected_of_room room balanced complete done⟩

end SymbolsSubsection

/-- A section with an `S_BLOCK32` of four bytes and its `S_END`. -/
def shortBlock : SymbolsSubsection where
  chunk :=
    { w := { countingEnv with
        contents := fun c => ([2, 0, 3, 0x11, 2, 0, 6, 0] : Bytes).take c.getSize
        contents_le := fun c => List.length_take_le _ _ }
      ctx := .default .amd64
      sections := []
      c := pointingChunk 2 8 0
      machine := .amd64
      source := ⟨[], [], fun _ => none⟩ }
  vaBegin := 0
  length := 8
  relocs := []
  heap := fun _ => 0
  writer := ⟨64, [4, 0, 0, 0]⟩
  length_lt := by decide

theorem shortBlock_not_linked : ¬ shortBlock.ScopesLinked := by
  intro linked
  have room := SymbolsSubsection.room_of_inside linked.inside [] ⟨0, [2, 0, 3, 0x11]⟩ []
    ⟨4, [2, 0, 6, 0]⟩ [] ⟨by decide, by decide, by decide, .nil⟩ ⟨_, rfl⟩
  exact absurd room.2 (by decide)

end LlvmLd.Pdb
