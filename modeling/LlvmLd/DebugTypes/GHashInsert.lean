import Mathlib.Algebra.Order.BigOperators.Group.List
import Mathlib.Algebra.Order.Ring.Canonical
import Mathlib.Algebra.Order.Ring.Nat
import Mathlib.Data.List.GetD
import LlvmLd.DebugTypes.GHashTable

/-!
What holds in every state of the parallel insertion. The table is probed as `ProbeTable` says; each
source additionally knows which cells its current probe has passed, and that each of its finished
insertions returned a cell with its ghash and an entry that is at least as good.
-/

namespace LlvmLd.DebugTypes

open ProbeTable Transition

variable (m : TpiSources) (entropy : Entropy)

/-- The ghash `i` of source `src` is inserted into the table. -/
def Inserted (src i : Nat) : Prop :=
  src < m.list.length ∧ i < (m.source src).ghashes.length ∧
    (m.source src).shouldOmitFromPdb i = false

/-! ### Cells -/

theorem length_ghashes_le (src : Nat) (known : src < m.list.length) :
    (m.source src).ghashes.length ≤ (m.list.map (fun source => source.ghashes.length)).sum := by
  apply List.le_sum_of_mem
  refine List.mem_map.mpr ⟨m.source src, ?_, rfl⟩
  rw [TpiSources.source, List.getD_eq_getElem?_getD, List.getElem?_eq_getElem known,
    Option.getD_some]
  exact List.getElem_mem known

theorem tableSize_eq :
    m.tableSize = (m.list.map (fun source => source.ghashes.length)).sum := by
  rw [TpiSources.tableSize]
  exact min_eq_right m.fits

variable {m}
variable {src i : Nat}

theorem newCell_eq (entry : Inserted m src i) :
    newCell m src i = ((m.source src).isItemIndex.getD i false).toNat * 2 ^ 63 +
      ((src + 1) * 2 ^ 32 + i) := by
  have few := m.few
  have fits := m.fits
  have length := length_ghashes_le m src entry.1
  obtain ⟨known, inside, -⟩ := entry
  unfold int32Max firstNonSimpleIndex at fits
  have small : uint32 (src + 1) = src + 1 := uint32_of_le _ (by unfold uint32Max; omega)
  have low : i < 2 ^ 32 := by omega
  have middle : (src + 1) <<< 32 + i < 2 ^ 63 := by
    rw [Nat.shiftLeft_eq]
    omega
  rw [newCell, GHashCell.make, small, Nat.or_assoc, ← Nat.shiftLeft_add_eq_or_of_lt low,
    ← Nat.shiftLeft_add_eq_or_of_lt middle, Nat.shiftLeft_eq, Nat.shiftLeft_eq]

/-- The fields of a cell can be read back. -/
theorem newCell_fields (entry : Inserted m src i) :
    (newCell m src i).getTpiSrcIdx = src ∧ (newCell m src i).getGHashIdx = i ∧
      (newCell m src i).isItem = (m.source src).isItemIndex.getD i false ∧ newCell m src i ≠ 0 := by
  have value := newCell_eq entry
  have few := m.few
  have fits := m.fits
  have length := length_ghashes_le m src entry.1
  obtain ⟨known, inside, -⟩ := entry
  unfold int32Max firstNonSimpleIndex at fits
  have mask : 0x7FFFFFFF = 2 ^ 31 - 1 := rfl
  rw [value, GHashCell.getTpiSrcIdx, GHashCell.getGHashIdx, GHashCell.isItem, mask,
    Nat.and_two_pow_sub_one_eq_mod, Nat.shiftRight_eq_div_pow, uint32, Nat.testBit_eq_decide_div_mod_eq]
  cases (m.source src).isItemIndex.getD i false <;> simp <;> omega

theorem getGHash_newCell (entry : Inserted m src i) :
    getGHash m (newCell m src i) = (m.source src).ghash i := by
  obtain ⟨srcIdx, ghashIdx, -⟩ := newCell_fields entry
  rw [getGHash, srcIdx, ghashIdx, TpiSource.ghash]

private theorem source_of_getElem? {source : TpiSource} (known : m.list[src]? = some source) :
    m.source src = source := by
  rw [TpiSources.source, List.getD_eq_getElem?_getD, known, Option.getD_some]

private theorem getElem?_source (known : src < m.list.length) : m.list[src]? = some
    (m.source src) := by
  rw [TpiSources.source, List.getD_eq_getElem?_getD, List.getElem?_eq_getElem known,
    Option.getD_some]

variable (m)

/-- The cells that the sources insert, in the order of their priority but for the item bit. -/
def insertedCells : List GHashCell :=
  m.list.zipIdx.flatMap (fun (source, src) =>
    ((List.range source.ghashes.length).filter (fun i => !source.shouldOmitFromPdb i)).map
      (newCell m src))

theorem mem_insertedCells (cell : GHashCell) :
    cell ∈ insertedCells m ↔ ∃ src i, Inserted m src i ∧ cell = newCell m src i := by
  simp only [insertedCells, List.mem_flatMap, Prod.exists, List.mem_zipIdx_iff_getElem?,
    List.mem_map, List.mem_filter, List.mem_range, Bool.not_eq_true']
  constructor
  · rintro ⟨source, src, known, i, ⟨inside, kept⟩, rfl⟩
    obtain rfl := source_of_getElem? known
    have below : src < m.list.length := (List.getElem?_eq_some_iff.mp known).1
    exact ⟨src, i, ⟨below, inside, kept⟩, rfl⟩
  · rintro ⟨src, i, ⟨below, inside, kept⟩, rfl⟩
    exact ⟨m.source src, src, getElem?_source below, i, ⟨inside, kept⟩, rfl⟩

theorem length_insertedCells : (insertedCells m).length ≤ m.tableSize := by
  have firsts : m.list.zipIdx.map (fun entry => entry.1.ghashes.length) =
      m.list.map (fun source => source.ghashes.length) := by
    calc m.list.zipIdx.map (fun entry => entry.1.ghashes.length)
        = (m.list.zipIdx.map Prod.fst).map (fun source => source.ghashes.length) := by
          rw [List.map_map]; rfl
      _ = _ := by rw [List.zipIdx_map_fst]
  rw [tableSize_eq, ← firsts, insertedCells, List.length_flatMap]
  apply List.sum_le_sum
  rintro ⟨source, src⟩ -
  dsimp only
  rw [List.length_map]
  exact Nat.le_trans (List.length_filter_le _ _) (by rw [List.length_range])

/-! ### The invariant -/

/-- The table as `ProbeTable` sees it. -/
def view (table : Nat → GHashCell) (idx : Nat) : Option GHashCell :=
  if table idx = 0 then none else some (table idx)

structure TableInv (table : Nat → GHashCell) : Prop where
  valid : Valid (getGHash m) (startIdx m entropy) m.tableSize (view table)
  entries : ∀ idx, table idx ≠ 0 → table idx ∈ insertedCells m

/-- What `insert` returned for ghash `i` of `src`, or the mark of an omitted record. -/
def Returned (table : Nat → GHashCell) (src i typeIndex : Nat) : Prop :=
  if (m.source src).shouldOmitFromPdb i then typeIndex = notTranslated
  else ∃ idx < m.tableSize, typeIndex = fromArrayIndex idx ∧ table idx ≠ 0 ∧
    getGHash m (table idx) = (m.source src).ghash i ∧ table idx ≤ newCell m src i

/-- The probe for ghash `i` of `src` has come to `idx`. -/
def Probing (table : Nat → GHashCell) (src i idx : Nat) : Prop :=
  Inserted m src i ∧ idx < m.tableSize ∧
    Passed (getGHash m) (startIdx m entropy) m.tableSize (view table) ((m.source src).ghash i) idx

def PhaseInv (table : Nat → GHashCell) (src i : Nat) : Phase → Prop
  | .fetch => True
  | .load idx => Probing m entropy table src i idx
  | .cas idx old => Probing m entropy table src i idx ∧
      (old = 0 ∨ getGHash m old = (m.source src).ghash i ∧ newCell m src i ≤ old)

structure WorkerInv (table : Nat → GHashCell) (src : Nat) (w : Worker) : Prop where
  inside : w.next ≤ (m.source src).ghashes.length
  stored : w.indexMap.length = w.next
  returned : ∀ j < w.next, Returned m table src j (w.indexMap.getD j 0)
  phase : PhaseInv m entropy table src w.next w.phase

structure Inv (s : State) : Prop where
  table : TableInv m entropy s.table
  workers : ∀ src < m.list.length, WorkerInv m entropy s.table src (s.workers src)
  room : s.full = false

private theorem inv_initial : Inv m entropy initial where
  table := ⟨valid_empty, fun _ full => absurd rfl full⟩
  workers := fun _ _ => ⟨Nat.zero_le _, rfl, fun _ none => absurd none (Nat.not_lt_zero _), trivial⟩
  room := rfl

/-! ### What the growth of the table leaves alone -/

variable {m entropy}
variable {table new : Nat → GHashCell}

theorem Returned.mono {typeIndex : Nat} (returned : Returned m table src i typeIndex)
    (grown : Extends (getGHash m) (view table) (view new)) :
    Returned m new src i typeIndex := by
  simp only [Returned] at *
  split at returned
  case isTrue omitted => rwa [if_pos omitted]
  case isFalse kept =>
    rw [if_neg kept]
    obtain ⟨idx, inside, stored, full, same, better⟩ := returned
    obtain ⟨cell, there, key, le⟩ := grown idx (table idx) (if_neg full)
    simp only [view] at there
    split at there
    · cases there
    · cases there
      exact ⟨idx, inside, stored, by assumption, key.trans same, le_trans le better⟩

theorem Probing.mono {idx : Nat} (probing : Probing m entropy table src i idx)
    (grown : Extends (getGHash m) (view table) (view new)) : Probing m entropy new src i idx :=
  ⟨probing.1, probing.2.1, probing.2.2.mono grown⟩

theorem WorkerInv.mono {w : Worker} (inv : WorkerInv m entropy table src w)
    (grown : Extends (getGHash m) (view table) (view new)) : WorkerInv m entropy new src w where
  inside := inv.inside
  stored := inv.stored
  returned := fun j below => (inv.returned j below).mono grown
  phase := by
    have phase := inv.phase
    cases at_ : w.phase with
    | fetch => trivial
    | load idx =>
      rw [at_] at phase
      exact phase.mono grown
    | cas idx old =>
      rw [at_] at phase
      exact ⟨phase.1.mono grown, phase.2⟩

theorem WorkerInv.store {w : Worker} (inv : WorkerInv m entropy table src w) (typeIndex : Nat)
    (more : w.next < (m.source src).ghashes.length)
    (returned : Returned m table src w.next typeIndex) :
    WorkerInv m entropy table src (w.store typeIndex) where
  inside := more
  stored := by simp [Worker.store, inv.stored]
  returned := by
    intro j below
    rcases Nat.lt_succ_iff_lt_or_eq.mp below with earlier | rfl
    · have same : (w.store typeIndex).indexMap.getD j 0 = w.indexMap.getD j 0 := by
        rw [Worker.store, List.getD_append _ _ _ _ (by rw [inv.stored]; exact earlier)]
      rw [same]
      exact inv.returned j earlier
    -- the entry that is appended is the one for this hash
    · have last : (w.store typeIndex).indexMap.getD w.next 0 = typeIndex := by
        rw [Worker.store, List.getD_append_right _ _ _ _ (by rw [inv.stored]), inv.stored,
          Nat.sub_self]
        rfl
      rw [last]
      exact returned
  phase := trivial

/-! ### One step -/

private theorem startIdx_lt (entry : Inserted m src i) (ghash : GHash) :
    startIdx m entropy ghash < m.tableSize := by
  apply Nat.mod_lt
  have length := length_ghashes_le m src entry.1
  rw [tableSize_eq]
  exact Nat.lt_of_lt_of_le (Nat.zero_lt_of_lt entry.2.1) length

/-- A probe that goes on from a cell with another key does not run around the table. -/
theorem Probing.goes_on {idx : Nat} (probing : Probing m entropy table src i idx)
    (inv : TableInv m entropy table) (full : table idx ≠ 0)
    (other : getGHash m (table idx) ≠ (m.source src).ghash i) :
    advance m.tableSize idx ≠ startIdx m entropy ((m.source src).ghash i) := by
  intro around
  obtain ⟨entry, inside, passed⟩ := probing
  have within := @startIdx_lt _ entropy _ _ entry ((m.source src).ghash i)
  have everywhere := passed.around inside within (table idx) (if_neg full) other around
  have cell : newCell m src i ∈ insertedCells m := (mem_insertedCells m _).mpr ⟨src, i, entry, rfl⟩
  have known : ∀ j e, view table j = some e → e ∈ insertedCells m := by
    intro j e there
    simp only [view] at there
    split at there
    · cases there
    · cases there
      exact inv.entries j (by assumption)
  -- the table has a slot for every cell, and none of those that are there has this hash
  obtain ⟨j, insideJ, empty⟩ := exists_empty inv.valid (insertedCells m) known (newCell m src i)
    cell (length_insertedCells m) (by
      intro j e there
      obtain ⟨e', there', otherKey⟩ := everywhere j (inv.valid.inside j e there)
      rw [there] at there'
      cases there'
      rw [getGHash_newCell entry]
      exact otherKey)
  obtain ⟨e, there, -⟩ := everywhere j insideJ
  rw [empty] at there
  cases there

/-- Looking at the cell that a probe has come to never reports a full table. -/
theorem examine_spec {w : Worker} {idx : Nat} (inv : TableInv m entropy table)
    (worker : WorkerInv m entropy table src w) (probing : Probing m entropy table src w.next idx) :
    ∃ after, examine m entropy src w idx (table idx) = some after ∧
      WorkerInv m entropy table src after := by
  have entry := probing.1
  simp only [examine]
  -- an empty slot or one of the same hash ends the search, any other one is passed
  by_cases mine : table idx = 0 ∨ getGHash m (table idx) = (m.source src).ghash w.next
  · simp only [if_pos mine]
    -- the smaller cell of the two stays
    by_cases duplicate : table idx ≠ 0 ∧ table idx < newCell m src w.next
    · rw [if_pos duplicate]
      refine ⟨_, rfl, worker.store _ entry.2.1 ?_⟩
      rw [Returned, if_neg (by simp [entry.2.2])]
      have same := mine.resolve_left duplicate.1
      exact ⟨idx, probing.2.1, rfl, duplicate.1, same, le_of_lt duplicate.2⟩
    · rw [if_neg duplicate]
      refine ⟨_, rfl, worker.inside, worker.stored, worker.returned, probing, ?_⟩
      by_cases empty : table idx = 0
      · exact Or.inl empty
      · have notLess := fun less => duplicate ⟨empty, less⟩
        exact Or.inr ⟨mine.resolve_left empty, not_lt.mp notLess⟩
  · obtain ⟨full, other⟩ := not_or.mp mine
    have more := probing.goes_on inv full other
    simp only [if_neg mine, if_neg more]
    refine ⟨_, rfl, worker.inside, worker.stored, worker.returned, entry, ?_, ?_⟩
    · exact advance_lt m.tableSize idx probing.2.1
    · exact probing.2.2.advance probing.2.1 (startIdx_lt entry _) (table idx) (if_neg full) other
        more

private theorem view_update (table : Nat → GHashCell) (idx : Nat) (cell : GHashCell)
    (nonzero : cell ≠ 0) :
    view (Function.update table idx cell) = Function.update (view table) idx (some cell) := by
  funext j
  unfold view
  by_cases here : j = idx
  · subst here
    simp [nonzero]
  · simp [here]

/-- A successful compare-and-swap fills the cell or improves it. -/
theorem swap_spec {idx : Nat} (inv : TableInv m entropy table)
    (phase : PhaseInv m entropy table src i (.cas idx (table idx))) :
    TableInv m entropy (Function.update table idx (newCell m src i)) ∧
      Extends (getGHash m) (view table) (view (Function.update table idx (newCell m src i))) := by
  obtain ⟨⟨entry, inside, passed⟩, allowed⟩ := phase
  obtain ⟨-, -, -, nonzero⟩ := newCell_fields entry
  have key := getGHash_newCell entry
  have entries : ∀ j, Function.update table idx (newCell m src i) j ≠ 0 →
      Function.update table idx (newCell m src i) j ∈ insertedCells m := by
    intro j full
    by_cases here : j = idx
    · subst here
      rw [Function.update_self]
      exact (mem_insertedCells m _).mpr ⟨src, i, entry, rfl⟩
    · rw [Function.update_of_ne here] at full ⊢
      exact inv.entries j full
  rw [view_update table idx _ nonzero]
  -- the exchange fills an empty slot, or replaces a cell of the same hash by a smaller one
  by_cases empty : table idx = 0
  · have viewed : view table idx = none := if_pos empty
    rw [← key] at passed
    refine ⟨⟨?_, entries⟩, extends_fill _ idx _ viewed⟩
    rw [view_update table idx _ nonzero]
    exact inv.valid.fill inside (startIdx_lt entry _) passed viewed
  · have viewed : view table idx = some (table idx) := if_neg empty
    obtain ⟨same, better⟩ := allowed.resolve_left empty
    refine ⟨⟨?_, entries⟩, extends_replace _ idx _ _ viewed (key.trans same.symm) better⟩
    rw [view_update table idx _ nonzero]
    exact inv.valid.replace viewed (key.trans same.symm)

/-- A source moves on while the table grows under the others. -/
theorem Inv.continue {s : State} (inv : Inv m entropy s) (newTable : TableInv m entropy new)
    (grown : Extends (getGHash m) (view s.table) (view new)) (w : Worker)
    (worker : WorkerInv m entropy new src w) :
    Inv m entropy (({ s with table := new } : State).continue src (some w)) where
  table := newTable
  workers := by
    intro other known
    by_cases here : other = src
    · subst here
      simpa [State.continue] using worker
    · simpa [State.continue, here] using (inv.workers other known).mono grown
  room := inv.room

theorem Inv.step {s next : State} {label : Nat × Bool} (inv : Inv m entropy s)
    (stepped : DebugTypes.step m entropy s label = some next) : Inv m entropy next := by
  obtain ⟨src, spurious⟩ := label
  have same := @Extends.refl _ _ (getGHash m) _ (view s.table)
  simp only [DebugTypes.step, inv.room, Bool.false_eq_true, if_false] at stepped
  split at stepped
  case isFalse => cases stepped
  case isTrue known =>
    have worker := inv.workers src known
    split at stepped
    -- The worker takes its next type: one that is omitted has its answer at once.
    case h_1 fetching =>
      split at stepped
      case isFalse => cases stepped
      case isTrue more =>
        split at stepped
        case isTrue omitted =>
          cases stepped
          refine inv.continue inv.table same _ (worker.store _ more ?_)
          rw [Returned, if_pos omitted]
        case isFalse kept =>
          cases stepped
          have entry : Inserted m src (s.workers src).next := ⟨known, more, by simpa using kept⟩
          exact inv.continue inv.table same _ ⟨worker.inside, worker.stored, worker.returned,
            entry, startIdx_lt entry _, passed_start⟩
    -- It looks at a cell: the table is as it was.
    case h_2 idx loading =>
      cases stepped
      have phase := worker.phase
      rw [loading] at phase
      obtain ⟨after, examined, kept⟩ := examine_spec inv.table worker phase
      rw [examined]
      exact inv.continue inv.table same after kept
    -- It swaps in its own cell if the one it saw is still there, and looks again if not.
    case h_3 idx old swapping =>
      have phase := worker.phase
      rw [swapping] at phase
      split at stepped
      case isTrue success =>
        cases stepped
        rw [← success.2] at phase
        obtain ⟨table, grown⟩ := swap_spec inv.table phase
        have entry := phase.1.1
        obtain ⟨-, -, -, nonzero⟩ := newCell_fields entry
        -- After the swap the cell is its own, so it is the answer.
        have returned : Returned m (Function.update s.table idx (newCell m src (s.workers src).next))
            src (s.workers src).next (fromArrayIndex idx) := by
          rw [Returned, if_neg (by simp [entry.2.2])]
          refine ⟨idx, phase.1.2.1, rfl, ?_⟩
          rw [Function.update_self]
          exact ⟨nonzero, getGHash_newCell entry, le_refl _⟩
        have continued := inv.continue table grown _
          ((worker.mono grown).store _ entry.2.1 returned)
        rwa [inv.room] at continued
      case isFalse =>
        cases stepped
        obtain ⟨after, examined, kept⟩ := examine_spec inv.table worker phase.1
        rw [examined]
        exact inv.continue inv.table same after kept

theorem inv_run (m : TpiSources) (entropy : Entropy) (labels : List (Nat × Bool)) (s : State)
    (ran : run (DebugTypes.step m entropy) initial labels = some s) : Inv m entropy s :=
  run_invariant (DebugTypes.step m entropy) (Inv m entropy)
    (fun _ _ _ inv stepped => inv.step stepped) labels initial s (inv_initial m entropy) ran

end LlvmLd.DebugTypes
