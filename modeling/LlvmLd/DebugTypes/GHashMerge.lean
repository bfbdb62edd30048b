import Mathlib.Data.List.Dedup
import Mathlib.Data.List.Sort
import LlvmLd.DebugTypes.GHashInsert

/-!
What the merge makes of the filled table. The non-empty cells are the best entries of the ghashes,
whatever the schedule and wherever the probes start; everything behind the parallel loop depends on
them alone.
-/

namespace LlvmLd.DebugTypes

open ProbeTable Transition

variable (m : TpiSources)

/-! ### The result without a table -/

/-- An inserted entry that no other entry with its ghash precedes. -/
def Winner (cell : GHashCell) : Prop :=
  cell ∈ insertedCells m ∧ ∀ other ∈ insertedCells m,
    getGHash m other = getGHash m cell → cell ≤ other

instance (cell : GHashCell) : Decidable (Winner m cell) := inferInstanceAs (Decidable (_ ∧ _))

def winners : List GHashCell :=
  ((insertedCells m).filter (Winner m ·)).dedup.mergeSort (· ≤ ·)

/-- The type winners and the item winners are numbered separately. -/
def expectedIndex (cell : GHashCell) : Nat :=
  if cell.isItem then ((winners m).filter GHashCell.isItem).idxOf cell
  else ((winners m).filter (fun c => !c.isItem)).idxOf cell

def expectedMap (src : Nat) : List Nat :=
  (List.range (m.source src).ghashes.length).map (fun i =>
    if (m.source src).shouldOmitFromPdb i then notTranslated
    else
      let winner := (winners m).find? (fun cell => getGHash m cell = (m.source src).ghash i)
      fromArrayIndex (expectedIndex m (winner.getD 0)))

def expectedMerge : MergeResult where
  uniqueTypes := (List.range m.list.length).map (fun src =>
    ((winners m).filter (fun cell => cell.getTpiSrcIdx = src)).map GHashCell.getGHashIdx)
  numTypes := ((winners m).filter (fun cell => !cell.isItem)).length
  numItems := ((winners m).filter GHashCell.isItem).length
  indexMaps := (List.range m.list.length).map (expectedMap m)

private theorem mem_winners (cell : GHashCell) : cell ∈ winners m ↔ Winner m cell := by
  rw [winners, List.mem_mergeSort, List.mem_dedup, List.mem_filter]
  constructor
  · rintro ⟨-, winner⟩
    exact of_decide_eq_true winner
  · intro winner
    exact ⟨winner.1, decide_eq_true winner⟩

private theorem winners_sorted : (winners m).Pairwise (· ≤ ·) := by
  have sorted := @List.pairwise_mergeSort _ (fun a b : Nat => decide (a ≤ b))
    (by simp only [decide_eq_true_eq]; omega) (by simp; omega)
    ((insertedCells m).filter (Winner m ·)).dedup
  simpa [winners] using sorted

private theorem winners_nodup : (winners m).Nodup :=
  (List.mergeSort_perm _ _).nodup_iff.mpr (List.nodup_dedup _)

/-! ### The filled table -/

variable {m} {entropy : Entropy} {s : State}

/-- Every insertion returned the cell that holds the winner of its ghash. -/
theorem returned_winner (inv : Inv m entropy s) (finished : Finished m s) (src i : Nat)
    (entry : Inserted m src i) :
    ∃ idx < m.tableSize, (s.workers src).indexMap.getD i 0 = fromArrayIndex idx ∧
      s.table idx ≠ 0 ∧ getGHash m (s.table idx) = (m.source src).ghash i ∧
      Winner m (s.table idx) := by
  have returned : ∀ src i, Inserted m src i →
      Returned m s.table src i ((s.workers src).indexMap.getD i 0) := by
    intro src i entry
    have done := (finished src entry.1).2
    exact (inv.workers src entry.1).returned i (by rw [done]; exact entry.2.1)
  have here := returned src i entry
  rw [Returned, if_neg (by simp [entry.2.2])] at here
  obtain ⟨idx, inside, stored, full, key, better⟩ := here
  refine ⟨idx, inside, stored, full, key, inv.table.entries idx full, ?_⟩
  intro other member same
  obtain ⟨src', i', entry', rfl⟩ := (mem_insertedCells m other).mp member
  have there := returned src' i' entry'
  rw [Returned, if_neg (by simp [entry'.2.2])] at there
  obtain ⟨idx', -, -, full', key', better'⟩ := there
  -- one key, one cell
  have keys : getGHash m (s.table idx) = getGHash m (s.table idx') := by
    rw [key', ← same, getGHash_newCell entry']
  have cells := inv.table.valid.unique idx idx' _ _ (if_neg full) (if_neg full') keys
  rw [cells]
  exact better'

private theorem winner_of_full (inv : Inv m entropy s) (finished : Finished m s) (idx : Nat)
    (full : s.table idx ≠ 0) : Winner m (s.table idx) := by
  obtain ⟨src, i, entry, cell⟩ := (mem_insertedCells m _).mp (inv.table.entries idx full)
  obtain ⟨idx', -, -, full', key, winner⟩ := returned_winner inv finished src i entry
  have keys : getGHash m (s.table idx') = getGHash m (s.table idx) := by
    rw [key, cell, getGHash_newCell entry]
  have cells := inv.table.valid.unique idx' idx _ _ (if_neg full') (if_neg full) keys
  rwa [cells] at winner

theorem Winner.eq {a b : GHashCell} (first : Winner m a) (second : Winner m b)
    (same : getGHash m a = getGHash m b) : a = b :=
  Nat.le_antisymm (first.2 b second.1 same.symm) (second.2 a first.1 same)

private theorem table_of_winner (inv : Inv m entropy s) (finished : Finished m s) (src i : Nat)
    (entry : Inserted m src i) (winner : Winner m (newCell m src i)) :
    ∃ idx < m.tableSize, (s.workers src).indexMap.getD i 0 = fromArrayIndex idx ∧
      s.table idx = newCell m src i := by
  obtain ⟨idx, inside, stored, -, key, there⟩ := returned_winner inv finished src i entry
  exact ⟨idx, inside, stored, there.eq winner (by rw [key, getGHash_newCell entry])⟩

/-- The sorted non-empty cells do not depend on the schedule or the layout. -/
theorem sortedEntries_eq (inv : Inv m entropy s) (finished : Finished m s) :
    sortedEntries m s.table = winners m := by
  -- what is in the table in the end is the winners, each in one slot
  have members : ∀ cell, cell ∈ sortedEntries m s.table ↔ cell ∈ winners m := by
    intro cell
    rw [mem_winners, sortedEntries, List.mem_mergeSort, List.mem_filter, List.mem_map]
    constructor
    · rintro ⟨⟨idx, -, rfl⟩, full⟩
      exact winner_of_full inv finished idx (by simpa using full)
    · intro winner
      obtain ⟨src, i, entry, rfl⟩ := (mem_insertedCells m cell).mp winner.1
      obtain ⟨idx, inside, -, cell⟩ := table_of_winner inv finished src i entry winner
      obtain ⟨-, -, -, nonzero⟩ := newCell_fields entry
      exact ⟨⟨idx, List.mem_range.mpr inside, cell⟩, by simpa using nonzero⟩
  have nodup : (sortedEntries m s.table).Nodup := by
    refine (List.mergeSort_perm _ _).nodup_iff.mpr ?_
    rw [List.filter_map]
    refine List.Nodup.map_on ?_ (List.nodup_range.filter _)
    intro i member j member' same
    have full : s.table i ≠ 0 := by simpa using (List.mem_filter.mp member).2
    have full' : s.table j ≠ 0 := by simpa using (List.mem_filter.mp member').2
    exact inv.table.valid.unique i j _ _ (if_neg full) (if_neg full') (congrArg _ same)
  have perm : (sortedEntries m s.table).Perm (winners m) :=
    (List.perm_ext_iff_of_nodup nodup (winners_nodup m)).mpr members
  have sorted : (sortedEntries m s.table).Pairwise (· ≤ ·) := by
    have ordered := @List.pairwise_mergeSort _ (fun a b : Nat => decide (a ≤ b))
      (by simp only [decide_eq_true_eq]; omega) (by simp; omega)
      (((List.range m.tableSize).map s.table).filter (· ≠ 0))
    simpa [sortedEntries] using ordered
  exact perm.eq_of_pairwise (fun a b _ _ => Nat.le_antisymm) sorted (winners_sorted m)

/-! ### Counting the types -/

/-- The item bit decides on which side of the middle a winner stands. -/
theorem lt_middle_iff (cell : GHashCell) (member : cell ∈ insertedCells m) :
    cell < GHashCell.make true 0 0 ↔ cell.isItem = false := by
  obtain ⟨src, i, entry, rfl⟩ := (mem_insertedCells m cell).mp member
  obtain ⟨-, -, item, -⟩ := newCell_fields entry
  have value := newCell_eq entry
  have few := m.few
  have fits := m.fits
  have length := length_ghashes_le m src entry.1
  have known := entry.1
  have inside := entry.2.1
  have middle : GHashCell.make true 0 0 = (9223372041149743104 : Nat) := rfl
  unfold int32Max firstNonSimpleIndex at fits
  -- the top bit alone decides, for source and index stay below it
  have side : ∀ b : Bool, b.toNat * 2 ^ 63 + ((src + 1) * 2 ^ 32 + i) < 9223372041149743104 ↔
      b = false := by
    intro b
    cases b with
    | false =>
      simp only [Bool.toNat_false, iff_true]
      omega
    | true =>
      simp only [Bool.toNat_true, Bool.true_eq_false, iff_false]
      omega
  rw [item, middle, value]
  exact side _

private theorem takeWhile_lt_eq_filter (bound : Nat) (cells : List Nat)
    (sorted : cells.Pairwise (· ≤ ·)) :
    cells.takeWhile (· < bound) = cells.filter (· < bound) := by
  induction cells with
  | nil => rfl
  | cons cell rest ih =>
    obtain ⟨first, sortedRest⟩ := List.pairwise_cons.mp sorted
    by_cases below : cell < bound
    · simp [below, ih sortedRest]
    · have none : rest.filter (· < bound) = [] := by
        rw [List.filter_eq_nil_iff]
        intro other member
        have := first other member
        simp only [decide_eq_true_eq]
        omega
      simp [below, none]

private theorem types_eq : (winners m).filter (· < GHashCell.make true 0 0) =
    (winners m).filter (fun cell => !cell.isItem) := by
  apply List.filter_congr
  intro cell member
  have side := lt_middle_iff cell ((mem_winners m cell).mp member).1
  cases item : cell.isItem <;> simp [side, item]

private theorem countTypes_eq :
    countTypes (winners m) = ((winners m).filter (fun cell => !cell.isItem)).length := by
  rw [countTypes, takeWhile_lt_eq_filter _ _ (winners_sorted m), types_eq]

private theorem countItems_eq : (winners m).length - countTypes (winners m) =
    ((winners m).filter GHashCell.isItem).length := by
  have split := List.length_eq_length_filter_add (l := winners m) GHashCell.isItem
  rw [countTypes_eq]
  omega

private theorem filter_append_filter_not (bound : Nat) (cells : List Nat)
    (sorted : cells.Pairwise (· ≤ ·)) :
    cells = cells.filter (· < bound) ++ cells.filter (fun cell => !decide (cell < bound)) := by
  induction cells with
  | nil => rfl
  | cons cell rest ih =>
    obtain ⟨first, sortedRest⟩ := List.pairwise_cons.mp sorted
    by_cases below : cell < bound
    · have split := ih sortedRest
      simp only [below, decide_true, List.filter_cons_of_pos, Bool.not_true, Bool.false_eq_true,
        not_false_eq_true, List.filter_cons_of_neg, List.cons_append]
      rw [← split]
    -- from the first cell at the bound on, the list ascends and none is below it
    · have all : ∀ other ∈ cell :: rest, ¬ other < bound := by
        intro other member
        rcases List.mem_cons.mp member with rfl | later
        · exact below
        · have := first other later
          omega
      rw [List.filter_eq_nil_iff.mpr (by simpa using all), List.nil_append,
        List.filter_eq_self.mpr (by simpa using all)]

/-- The types stand in front of the items. -/
theorem winners_split : winners m = (winners m).filter (fun cell => !cell.isItem) ++
    (winners m).filter GHashCell.isItem := by
  have split := filter_append_filter_not (GHashCell.make true 0 0) _ (winners_sorted m)
  have items : (winners m).filter (fun cell => !decide (cell < GHashCell.make true 0 0)) =
      (winners m).filter GHashCell.isItem := by
    apply List.filter_congr
    intro cell member
    have side := lt_middle_iff cell ((mem_winners m cell).mp member).1
    cases item : cell.isItem <;> simp [side, item]
  rwa [types_eq, items] at split

/-! ### Assigning indices -/

def position (indexMaps : Nat → List Nat) (cell : GHashCell) : Nat :=
  toArrayIndex ((indexMaps cell.getTpiSrcIdx).getD cell.getGHashIdx 0)

def assignedCell (numTypes : Nat) (entry : GHashCell × Nat) : GHashCell :=
  GHashCell.make entry.1.isItem entry.1.getTpiSrcIdx
    (if entry.2 < numTypes then entry.2 else entry.2 - numTypes)

private theorem assignIndex_table (indexMaps : Nat → List Nat) (numTypes : Nat) (a : Assignment)
    (entry : GHashCell × Nat) : (assignIndex indexMaps numTypes a entry).table =
      Function.update a.table (position indexMaps entry.1) (assignedCell numTypes entry) := by
  simp only [assignIndex, position, assignedCell]

private theorem foldl_assignIndex_uniqueTypes (indexMaps : Nat → List Nat) (numTypes : Nat)
    (entries : List (GHashCell × Nat)) (a : Assignment) (src : Nat) :
    (entries.foldl (assignIndex indexMaps numTypes) a).uniqueTypes src =
      a.uniqueTypes src ++ ((entries.map Prod.fst).filter
        (fun cell => cell.getTpiSrcIdx = src)).map GHashCell.getGHashIdx := by
  induction entries generalizing a with
  | nil => simp
  | cons entry rest ih =>
    rw [List.foldl_cons, ih]
    by_cases own : entry.1.getTpiSrcIdx = src
    · subst own
      simp [assignIndex]
    · simp [assignIndex, own, Function.update_of_ne (Ne.symm own)]

private theorem foldl_assignIndex_outside (indexMaps : Nat → List Nat) (numTypes : Nat)
    (entries : List (GHashCell × Nat)) (a : Assignment) (idx : Nat)
    (outside : ∀ entry ∈ entries, position indexMaps entry.1 ≠ idx) :
    (entries.foldl (assignIndex indexMaps numTypes) a).table idx = a.table idx := by
  induction entries generalizing a with
  | nil => rfl
  | cons entry rest ih =>
    obtain ⟨here, later⟩ := List.forall_mem_cons.mp outside
    rw [List.foldl_cons, ih _ later, assignIndex_table, Function.update_of_ne (Ne.symm here)]

/-- Entries at different cells do not disturb each other. -/
theorem foldl_assignIndex_table (indexMaps : Nat → List Nat) (numTypes : Nat)
    (entries : List (GHashCell × Nat)) (a : Assignment)
    (apart : entries.Pairwise (fun e f => position indexMaps e.1 ≠ position indexMaps f.1))
    (entry : GHashCell × Nat) (member : entry ∈ entries) :
    (entries.foldl (assignIndex indexMaps numTypes) a).table (position indexMaps entry.1) =
      assignedCell numTypes entry := by
  induction entries generalizing a with
  | nil => cases member
  | cons first rest ih =>
    obtain ⟨different, apartRest⟩ := List.pairwise_cons.mp apart
    rw [List.foldl_cons]
    rcases List.mem_cons.mp member with rfl | later
    · rw [foldl_assignIndex_outside _ _ _ _ _ (fun f inRest => (different f inRest).symm),
        assignIndex_table, Function.update_self]
    · exact ih _ apartRest later

private theorem getGHashIdx_make (isItem : Bool) (src index : Nat) (small : index < 2 ^ 32) :
    (GHashCell.make isItem src index).getGHashIdx = index := by
  have joined : isItem.toNat <<< 63 ||| uint32 (src + 1) <<< 32 =
      (isItem.toNat <<< 31 ||| uint32 (src + 1)) <<< 32 := by
    rw [Nat.shiftLeft_or_distrib, ← Nat.shiftLeft_add]
  rw [GHashCell.getGHashIdx, GHashCell.make, joined, ← Nat.shiftLeft_add_eq_or_of_lt small,
    uint32, Nat.shiftLeft_eq, Nat.add_comm, Nat.add_mul_mod_self_right, Nat.mod_eq_of_lt small]

variable (m) in
private theorem length_winners : (winners m).length < 2 ^ 31 := by
  have short : (winners m).length ≤ m.tableSize := by
    rw [winners, List.length_mergeSort]
    exact Nat.le_trans (List.dedup_sublist _).length_le
      (Nat.le_trans (List.length_filter_le _ _) (length_insertedCells m))
  have fits := m.fits
  rw [← tableSize_eq] at fits
  unfold int32Max firstNonSimpleIndex at fits
  omega

/-- The place of a winner among all of them gives its place among the types or the items. -/
theorem assigned_index (cell : GHashCell) (member : cell ∈ winners m) :
    (assignedCell (countTypes (winners m)) (cell, (winners m).idxOf cell)).getGHashIdx =
      expectedIndex m cell := by
  have place : (winners m).idxOf cell < (winners m).length := List.idxOf_lt_length_of_mem member
  have bound := length_winners m
  rw [assignedCell, getGHashIdx_make _ _ _ (by dsimp only; split <;> omega)]
  dsimp only
  have split := congrArg (List.idxOf cell) (winners_split (m := m))
  rw [countTypes_eq, expectedIndex, split]
  -- types come first in the sorted table, items are counted behind them
  cases item : cell.isItem with
  | false =>
    have inTypes : cell ∈ (winners m).filter (fun c => !c.isItem) :=
      List.mem_filter.mpr ⟨member, by simp [item]⟩
    rw [List.idxOf_append_of_mem inTypes, if_pos (List.idxOf_lt_length_of_mem inTypes)]
    simp
  | true =>
    have notType : cell ∉ (winners m).filter (fun c => !c.isItem) := by
      intro inTypes
      simpa [item] using (List.mem_filter.mp inTypes).2
    rw [List.idxOf_append_of_notMem notType,
      if_neg (Nat.not_lt.mpr (Nat.le_add_right _ _)), Nat.add_sub_cancel_left]
    simp

/-! ### The result -/

variable (m) in
/-- The arguments and the outcome of the loop that assigns indices. -/
def assigned (s : State) : Assignment :=
  (winners m).zipIdx.foldl
    (assignIndex (fun src => (s.workers src).indexMap) (countTypes (winners m)))
    ⟨s.table, fun _ => []⟩

private theorem position_winner (inv : Inv m entropy s) (finished : Finished m s) (cell : GHashCell)
    (member : cell ∈ winners m) :
    s.table (position (fun src => (s.workers src).indexMap) cell) = cell := by
  obtain ⟨inserted, best⟩ := (mem_winners m cell).mp member
  obtain ⟨src, i, entry, rfl⟩ := (mem_insertedCells m cell).mp inserted
  obtain ⟨srcIdx, ghashIdx, -, -⟩ := newCell_fields entry
  obtain ⟨idx, -, stored, there⟩ := table_of_winner inv finished src i entry ⟨inserted, best⟩
  rw [position, srcIdx, ghashIdx, stored, fromArrayIndex, toArrayIndex, Nat.add_sub_cancel]
  exact there

private theorem assigned_table (inv : Inv m entropy s) (finished : Finished m s) (idx : Nat)
    (full : s.table idx ≠ 0) :
    ((assigned m s).table idx).getGHashIdx = expectedIndex m (s.table idx) := by
  have member : s.table idx ∈ winners m :=
    (mem_winners m _).mpr (winner_of_full inv finished idx full)
  have own : position (fun src => (s.workers src).indexMap) (s.table idx) = idx := by
    have there := position_winner inv finished (s.table idx) member
    have full' : s.table (position (fun src => (s.workers src).indexMap) (s.table idx)) ≠ 0 := by
      rwa [there]
    exact inv.table.valid.unique _ idx _ _ (if_neg full') (if_neg full) (congrArg _ there)
  -- the winners stand at different places, so no later one overwrites this index
  have apart : (winners m).Pairwise (fun a b =>
      position (fun src => (s.workers src).indexMap) a ≠
        position (fun src => (s.workers src).indexMap) b) := by
    refine (winners_nodup m).imp_of_mem ?_
    intro a b inWinners inWinners' different same
    apply different
    rw [← position_winner inv finished a inWinners, same,
      position_winner inv finished b inWinners']
  rw [← List.zipIdx_map_fst 0 (winners m)] at apart
  have apartEntries := List.pairwise_map.mp apart
  have listed : (s.table idx, (winners m).idxOf (s.table idx)) ∈ (winners m).zipIdx := by
    rw [List.mem_zipIdx_iff_getElem?]
    exact List.getElem?_idxOf member
  have written := foldl_assignIndex_table (fun src => (s.workers src).indexMap)
    (countTypes (winners m)) (winners m).zipIdx ⟨s.table, fun _ => []⟩ apartEntries _ listed
  rw [own] at written
  rw [assigned, written]
  exact assigned_index _ member

private theorem find_winner (cell : GHashCell) (winner : Winner m cell) (ghash : GHash)
    (key : getGHash m cell = ghash) :
    (winners m).find? (fun other => getGHash m other = ghash) = some cell := by
  obtain ⟨found, first⟩ : ∃ found,
      (winners m).find? (fun other => getGHash m other = ghash) = some found :=
    Option.isSome_iff_exists.mp (List.find?_isSome.mpr
      ⟨cell, (mem_winners m cell).mpr winner, by simpa using key⟩)
  have same : getGHash m found = ghash := by simpa using List.find?_some first
  have best := (mem_winners m found).mp (List.mem_of_find?_eq_some first)
  rw [first, best.eq winner (same.trans key.symm)]

private theorem map_getD_range (cells : List Nat) :
    cells = (List.range cells.length).map (fun i => cells.getD i 0) := by
  apply List.ext_getElem
  · simp
  · intro i inside _
    simp [inside]

private theorem fillMap_eq (inv : Inv m entropy s) (finished : Finished m s) (src : Nat)
    (known : src < m.list.length) :
    fillMapFromGHashes (assigned m s).table (s.workers src).indexMap = expectedMap m src := by
  have worker := inv.workers src known
  have done := (finished src known).2
  have cells : (s.workers src).indexMap = (List.range (m.source src).ghashes.length).map
      (fun i => (s.workers src).indexMap.getD i 0) := by
    rw [← done, ← worker.stored]
    exact map_getD_range _
  rw [fillMapFromGHashes, expectedMap, cells, List.map_map]
  apply List.map_congr_left
  intro i inRange
  have inside := List.mem_range.mp inRange
  rw [Function.comp_apply]
  -- an omitted record has no cell and keeps its simple index
  by_cases omitted : (m.source src).shouldOmitFromPdb i = true
  · have stored := worker.returned i (by rw [done]; exact inside)
    rw [Returned, if_pos omitted] at stored
    rw [if_pos omitted, stored]
    rfl
  · have entry : Inserted m src i := ⟨known, inside, by simpa using omitted⟩
    obtain ⟨idx, -, stored, full, key, winner⟩ := returned_winner inv finished src i entry
    have notSimple : isSimple (fromArrayIndex idx) = false := by
      simp [isSimple, fromArrayIndex]
    have cell : toArrayIndex (fromArrayIndex idx) = idx := Nat.add_sub_cancel _ _
    rw [if_neg omitted, stored, notSimple, cell, assigned_table inv finished idx full]
    dsimp only
    rw [find_winner (s.table idx) winner _ key]
    rfl

private theorem mergeResult_eq (inv : Inv m entropy s) (finished : Finished m s) :
    mergeResult m s = expectedMerge m := by
  have entries := sortedEntries_eq inv finished
  rw [mergeResult, expectedMerge, entries]
  simp only [countItems_eq, MergeResult.mk.injEq, List.map_inj_left, List.mem_range]
  refine ⟨?_, countTypes_eq, trivial, ?_⟩
  · intro src known
    rw [foldl_assignIndex_uniqueTypes, List.zipIdx_map_fst]
    rfl
  · intro src known
    exact fillMap_eq inv finished src known

/-! ### Main result -/

variable (m) in
/-- The priority of entries: types before items, then by source, then by index. -/
def Precedes (src i src' i' : Nat) : Prop :=
  let item := (m.source src).isItemIndex.getD i false
  let item' := (m.source src').isItemIndex.getD i' false
  item = false ∧ item' = true ∨ item = item' ∧ (src < src' ∨ src = src' ∧ i ≤ i')

private theorem newCell_le_iff {src i src' i' : Nat} (entry : Inserted m src i)
    (entry' : Inserted m src' i') :
    newCell m src i ≤ newCell m src' i' ↔ Precedes m src i src' i' := by
  have few := m.few
  have fits := m.fits
  have length := length_ghashes_le m src entry.1
  have length' := length_ghashes_le m src' entry'.1
  have known := entry.1
  have known' := entry'.1
  have inside := entry.2.1
  have inside' := entry'.2.1
  unfold int32Max firstNonSimpleIndex at fits
  -- comparing cells compares the item bit, the source and the index in turn
  have order : ∀ b b' : Bool,
      b.toNat * 2 ^ 63 + ((src + 1) * 2 ^ 32 + i) ≤ b'.toNat * 2 ^ 63 + ((src' + 1) * 2 ^ 32 + i') ↔
        b = false ∧ b' = true ∨ b = b' ∧ (src < src' ∨ src = src' ∧ i ≤ i') := by
    intro b b'
    cases b <;> cases b' <;> simp <;> omega
  rw [newCell_eq entry, newCell_eq entry']
  exact order _ _

/-- In every schedule and every layout no insertion finds the table full, and once all have
returned, each ghash stands in one cell, with the entry that precedes all its others, every
insertion has returned that cell, and the merge gives the result computed without a table. -/
theorem ghash_merge_deterministic (m : TpiSources) (entropy : Entropy)
    (labels : List (Nat × Bool)) (s : State)
    (ran : run (DebugTypes.step m entropy) initial labels = some s) :
    s.full = false ∧ (Finished m s →
      (∀ src i, Inserted m src i → ∃ idx,
        (s.workers src).indexMap.getD i 0 = fromArrayIndex idx ∧
        (∀ j, (s.table j ≠ 0 ∧ getGHash m (s.table j) = (m.source src).ghash i) ↔ j = idx) ∧
        ∃ src' i', Inserted m src' i' ∧ s.table idx = newCell m src' i' ∧
          ∀ src'' i'', Inserted m src'' i'' → (m.source src'').ghash i'' = (m.source src).ghash i →
            Precedes m src' i' src'' i'') ∧
      (∀ j, s.table j ≠ 0 → ∃ src i, Inserted m src i ∧
        getGHash m (s.table j) = (m.source src).ghash i) ∧
      mergeResult m s = expectedMerge m) := by
  have inv := inv_run m entropy labels s ran
  refine ⟨inv.room, fun finished => ⟨?_, ?_, mergeResult_eq inv finished⟩⟩
  · intro src i entry
    obtain ⟨idx, -, stored, full, key, inserted, best⟩ :=
      returned_winner inv finished src i entry
    obtain ⟨src', i', entry', cell⟩ := (mem_insertedCells m _).mp inserted
    refine ⟨idx, stored, ?_, src', i', entry', cell, ?_⟩
    · intro j
      constructor
      -- A ghash stands in one cell only, whatever the order in which the workers came to it.
      · rintro ⟨full', key'⟩
        exact inv.table.valid.unique j idx _ _ (if_neg full') (if_neg full) (key'.trans key.symm)
      · rintro rfl
        exact ⟨full, key⟩
    · intro src'' i'' entry'' same
      have listed := (mem_insertedCells m _).mpr ⟨src'', i'', entry'', rfl⟩
      -- Cells are compared as numbers, and these are ordered as source and index are.
      have le := best _ listed (by rw [getGHash_newCell entry'', same, key])
      rw [cell] at le
      exact (newCell_le_iff entry' entry'').mp le
  · intro j full
    obtain ⟨src, i, entry, cell⟩ := (mem_insertedCells m _).mp (inv.table.entries j full)
    exact ⟨src, i, entry, by rw [cell, getGHash_newCell entry]⟩

/-- Two sources with one ghash each, the same. -/
def twoSources : TpiSources where
  list := [⟨[7], [false], uint32Max⟩, ⟨[7], [false], uint32Max⟩]
  few := by decide
  fits := by decide

/-- Both sources find the cell empty; the second one gets in first, after a spurious failure. -/
def race : List (Nat × Bool) :=
  [(0, false), (1, false), (0, false), (1, false), (1, true), (1, false), (0, false), (0, false)]

theorem twoSources_race :
    ∃ s, run (DebugTypes.step twoSources byteswapStart) initial race = some s ∧
      mergeResult twoSources s = expectedMerge twoSources := by
  refine ⟨_, rfl, ((ghash_merge_deterministic twoSources byteswapStart race _ rfl).2 ?_).2.2⟩
  intro src known
  match src, known with
  | 0, _ => exact ⟨rfl, rfl⟩
  | 1, _ => exact ⟨rfl, rfl⟩

end LlvmLd.DebugTypes
