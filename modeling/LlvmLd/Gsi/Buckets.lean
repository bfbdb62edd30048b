import LlvmLd.Gsi.HashTable

/-!
What `finalizeBuckets` leaves behind: the chain of every bucket, the bitmap of the buckets in use
and the starts of their chains.
-/

namespace LlvmLd.Gsi

open CountingSort Memory

/-! ### Chains -/

def bucketKeys (records : List HashedRecord) : List Nat :=
  records.map (fun rec => bucketIdx rec.name)

/-- Where the chain of bucket `k` starts. -/
def chainStart (records : List HashedRecord) (k : Nat) : Nat := scan (counts (bucketKeys records)) k

def hashEntries (records : List HashedRecord) : List (Nat × PSHashRecord) :=
  (bucketKeys records).zipIdx.map (fun (k, i) => (k, ⟨i, 1⟩))

/-- The hash record of a record once its offset is known. -/
def HashedRecord.entry (rec : HashedRecord) : PSHashRecord := ⟨uint32 (rec.symOffset + 1), 1⟩

/-- The chain of bucket `k` as it is written. -/
def chain (sort : RangeSort) (records : List HashedRecord) (k : Nat) : List PSHashRecord :=
  (sort.run (bucketCmp records) (bucket k (hashEntries records))).map (fun rec =>
    { rec with off := uint32 ((records.getD rec.off .empty).symOffset + 1) })

theorem hashEntries_keys (records : List HashedRecord) :
    (hashEntries records).map Prod.fst = bucketKeys records := by
  simp [hashEntries, Function.comp_def]

theorem bucketIdx_lt (name : Bytes) : bucketIdx name < iphrHash :=
  Nat.mod_lt _ (by decide)

theorem chainStart_last (records : List HashedRecord) :
    chainStart records iphrHash = records.length := by
  have total := scan_total (bucketKeys records) iphrHash (by
    intro k member
    obtain ⟨rec, -, rfl⟩ := List.mem_map.mp member
    exact bucketIdx_lt rec.name)
  simpa [chainStart, bucketKeys] using total

theorem chainStart_succ (records : List HashedRecord) (k : Nat) :
    chainStart records (k + 1) = chainStart records k + (bucket k (hashEntries records)).length := by
  rw [chainStart, scan_succ, length_bucket, hashEntries_keys]
  rfl

theorem chainStart_mono (records : List HashedRecord) {j k : Nat} (le : j ≤ k) :
    chainStart records j ≤ chainStart records k :=
  scan_mono _ le

theorem length_chain (sort : RangeSort) (records : List HashedRecord) (k : Nat) :
    (chain sort records k).length = (bucket k (hashEntries records)).length := by
  rw [chain, List.length_map, (sort.perm _ _).length_eq]

section Table

variable (sort : RangeSort) (records : List HashedRecord)

/-- Indices are replaced by the offsets of the records they stand for. -/
theorem bucket_map_entry (k : Nat) :
    (bucket k (hashEntries records)).map (fun rec : PSHashRecord =>
        { rec with off := uint32 ((records.getD rec.off .empty).symOffset + 1) }) =
      (records.filter (fun rec => bucketIdx rec.name = k)).map HashedRecord.entry := by
  have entries : bucket k (hashEntries records) =
      (records.zipIdx.filter (fun e => bucketIdx e.1.name = k)).map (fun e => ⟨e.2, 1⟩) := by
    simp [bucket, hashEntries, bucketKeys, List.zipIdx_map, List.filter_map, Function.comp_def]
  -- a hash record holds the number of its record at first
  have looked : ∀ e ∈ records.zipIdx, records.getD e.2 .empty = e.1 := by
    intro e member
    obtain ⟨-, below, found⟩ := List.mem_zipIdx member
    simp only [Nat.sub_zero, Nat.zero_add] at below found
    simp [List.getD_eq_getElem?_getD, below, found]
  rw [entries, List.map_map]
  conv_rhs => rw [← List.zipIdx_map_fst 0 records, List.filter_map, List.map_map]
  refine List.map_congr_left (fun e member => ?_)
  have inAll := (List.mem_filter.mp member).1
  simp only [Function.comp_apply, looked e inAll, HashedRecord.entry]

theorem chain_perm (k : Nat) : (chain sort records k).Perm
    ((records.filter (fun rec => bucketIdx rec.name = k)).map HashedRecord.entry) := by
  rw [← bucket_map_entry records k]
  exact (sort.perm _ _).map _

/-- The cells of bucket `k`. -/
def cells (k : Nat) : Set Nat := Set.Ico (chainStart records k) (chainStart records (k + 1))

theorem cells_disjoint {j k : Nat} (other : j ≠ k) :
    Disjoint (cells records j) (cells records k) := by
  rw [Set.disjoint_left]
  rintro i ⟨afterJ, beforeJ⟩ ⟨afterK, beforeK⟩
  rcases Nat.lt_or_gt_of_ne other with below | above
  · have gap := chainStart_mono records (show j + 1 ≤ k from below)
    omega
  · have gap := chainStart_mono records (show k + 1 ≤ j from above)
    omega

theorem cursors_eq (k : Nat) :
    (distribute ⟨0, 0⟩ (hashEntries records)).cursors k = chainStart records (k + 1) := by
  have placed := distribute_placed ⟨0, 0⟩ (hashEntries records)
  rw [placed.cursor k, chainStart_succ, hashEntries_keys]
  rfl

private theorem local_sortBucket (k : Nat) : Local (cells records k) (fun table =>
    sortBucket sort records (chainStart records) (fun j => chainStart records (j + 1)) table k) := by
  constructor
  · intro table i outside
    simp only [cells] at outside
    rw [Set.mem_Ico] at outside
    exact if_neg outside
  · intro table other agree i inside
    -- the sort reads the cells of its own bucket
    have same : (List.range (chainStart records (k + 1) - chainStart records k)).map
          (fun i => table (chainStart records k + i)) =
        (List.range (chainStart records (k + 1) - chainStart records k)).map
          (fun i => other (chainStart records k + i)) := by
      refine List.map_congr_left (fun i member => agree _ ?_)
      rw [List.mem_range] at member
      exact ⟨by omega, by omega⟩
    simp only [cells] at inside
    rw [Set.mem_Ico] at inside
    simp only [sortBucket, if_pos inside, same]

/-- Whatever the order of the buckets, each one ends as its own chain. -/
theorem sorted_table (order : List Nat) (permuted : order.Perm (List.range iphrHash)) (k : Nat)
    (below : k < iphrHash) :
    (List.range (bucket k (hashEntries records)).length).map (fun i =>
      order.foldl
        (sortBucket sort records (chainStart records) (fun j => chainStart records (j + 1)))
        (distribute ⟨0, 0⟩ (hashEntries records)).table (chainStart records k + i)) =
      chain sort records k := by
  have member : k ∈ order := permuted.mem_iff.mpr (List.mem_range.mpr below)
  have apart : order.Pairwise (fun a b => Disjoint (cells records a) (cells records b)) := by
    have distinct : order.Nodup := permuted.nodup_iff.mpr List.nodup_range
    exact distinct.imp (fun {a b} other => cells_disjoint records other)
  have placed := (distribute_placed ⟨0, 0⟩ (hashEntries records)).holds k
  rw [hashEntries_keys] at placed
  have size : chainStart records (k + 1) - chainStart records k =
      (bucket k (hashEntries records)).length := by
    rw [chainStart_succ]
    omega
  refine List.ext_getElem (by simp [length_chain]) (fun i inRange inChain => ?_)
  simp only [List.length_map, List.length_range] at inRange
  have inside : chainStart records k + i ∈ cells records k := by
    rw [cells, Set.mem_Ico, chainStart_succ]
    omega
  -- Buckets have separate cells, so only the bucket's own sort counts for its cells.
  have decided := foldl_apply_of_disjoint _ (cells records) order
    (fun j _ => local_sortBucket sort records j) apart
    (distribute ⟨0, 0⟩ (hashEntries records)).table k member _ inside
  rw [List.getElem_map, List.getElem_range, decided]
  have range : (List.range (chainStart records (k + 1) - chainStart records k)).map
      (fun i => (distribute ⟨0, 0⟩ (hashEntries records)).table (chainStart records k + i)) =
      bucket k (hashEntries records) := by
    rw [size]
    exact placed
  simp only [cells] at inside
  rw [Set.mem_Ico] at inside
  simp only [sortBucket, if_pos inside, range, Nat.add_sub_cancel_left]
  change (chain sort records k).getD i ⟨0, 0⟩ = (chain sort records k)[i]
  simp [List.getD_eq_getElem?_getD, inChain]

/-- The chains, one behind the other. -/
theorem finalizeBuckets_hashRecords (order : List Nat)
    (permuted : order.Perm (List.range iphrHash)) :
    (finalizeBuckets sort order records).hashRecords =
      (List.range iphrHash).flatMap (chain sort records) := by
  have cursors : (distribute ⟨0, 0⟩ (hashEntries records)).cursors =
      fun k => chainStart records (k + 1) := funext (cursors_eq records)
  change (List.range records.length).map (order.foldl (sortBucket sort records (chainStart records)
    (distribute ⟨0, 0⟩ (hashEntries records)).cursors) _) = _
  rw [cursors, ← chainStart_last records, chainStart, map_range_scan]
  refine List.flatMap_congr (fun k member => ?_)
  rw [← hashEntries_keys, ← length_bucket, hashEntries_keys]
  exact sorted_table sort records order permuted k (List.mem_range.mp member)

theorem length_chains (k : Nat) :
    ((List.range k).flatMap (chain sort records)).length = chainStart records k := by
  induction k with
  | zero => rfl
  | succ k ih =>
    rw [List.range_succ, List.flatMap_append, List.length_append, ih, chainStart_succ,
      List.flatMap_singleton, length_chain]

theorem range_split (k n : Nat) (below : k < n) :
    List.range n = List.range k ++ k :: (List.range (n - k - 1)).map (k + 1 + ·) := by
  obtain ⟨m, rfl⟩ := Nat.exists_eq_add_of_lt below
  have rest : k + m + 1 - k - 1 = m := by omega
  rw [rest, show k + m + 1 = k + 1 + m by omega, List.range_add, List.range_succ]
  simp

/-- The slice between two chain starts is one chain. -/
theorem slice_chain (k : Nat) (below : k < iphrHash) :
    (((List.range iphrHash).flatMap (chain sort records)).drop (chainStart records k)).take
      (chainStart records (k + 1) - chainStart records k) = chain sort records k := by
  have size : chainStart records (k + 1) - chainStart records k =
      (chain sort records k).length := by
    rw [chainStart_succ, length_chain]
    omega
  rw [range_split k iphrHash below, List.flatMap_append, List.flatMap_cons, size,
    ← length_chains sort records k, List.drop_left, List.take_left]

/-- All chains together hold each record once. -/
theorem chains_perm : ((List.range iphrHash).flatMap (chain sort records)).Perm
    (records.map HashedRecord.entry) := by
  have each : ((List.range iphrHash).flatMap (chain sort records)).Perm
      ((List.range iphrHash).flatMap (fun k =>
        (records.filter (fun rec => bucketIdx rec.name = k)).map HashedRecord.entry)) :=
    List.Perm.flatMap_left _ (fun k _ => chain_perm sort records k)
  refine each.trans ?_
  rw [← List.map_flatMap]
  exact (flatMap_filter_perm (fun rec : HashedRecord => bucketIdx rec.name) iphrHash records
    (fun rec _ => bucketIdx_lt rec.name)).map _

end Table

/-! ### The bitmap and the chain starts -/

/-- Bucket `k` has a chain. -/
def inUse (records : List HashedRecord) (k : Nat) : Bool :=
  !isEmptyBucket (chainStart records) (fun j => chainStart records (j + 1)) k

theorem inUse_iff (records : List HashedRecord) (k : Nat) :
    inUse records k = true ↔ k < iphrHash ∧ chainStart records k ≠ chainStart records (k + 1) := by
  simp [inUse, isEmptyBucket]

/-- The bits that the loop of a bitmap word sets. -/
theorem testBit_foldl_or (skip : Nat → Bool) (bits : List Nat) (word j : Nat) :
    (bits.foldl (fun word j => if skip j then word else word ||| (1 <<< j)) word).testBit j =
      (word.testBit j || (decide (j ∈ bits) && !skip j)) := by
  induction bits generalizing word with
  | nil => simp
  | cons bit rest ih =>
    rw [List.foldl_cons, ih]
    -- a bucket that is skipped sets no bit, another one sets its own
    by_cases skipped : skip bit
    · by_cases same : j = bit
      · subst same
        simp [skipped]
      · simp [skipped, same]
    · by_cases same : j = bit
      · subst same
        simp [skipped, Nat.testBit_or, Nat.one_shiftLeft]
      · have clear : (1 <<< bit : Nat).testBit j = false := by
          rw [Nat.one_shiftLeft, Nat.testBit_two_pow]
          simpa using fun h => same h.symm
        simp [skipped, same, Nat.testBit_or, clear]

variable (records : List HashedRecord)

/-- The words of the bitmap. -/
def bitmap : List Nat :=
  (List.range bitmapWords).map
    (bitmapWord (chainStart records) (fun j => chainStart records (j + 1)))

private theorem testBit_bitmapWord (i j : Nat) :
    (bitmapWord (chainStart records) (fun k => chainStart records (k + 1)) i).testBit j =
      (decide (j < 32) && inUse records (i * 32 + j)) := by
  rw [bitmapWord, testBit_foldl_or]
  simp [inUse]

theorem bitmapWord_lt (i : Nat) :
    bitmapWord (chainStart records) (fun k => chainStart records (k + 1)) i < 2 ^ 32 := by
  refine Nat.lt_pow_two_of_testBit _ (fun j above => ?_)
  rw [testBit_bitmapWord]
  simp [Nat.not_lt.mpr above]

theorem isBitSet_bitmap (k : Nat) (small : k ≤ iphrHash) :
    isBitSet (bitmap records) k = inUse records k := by
  have word : k / 32 < bitmapWords := by
    simp only [iphrHash] at small
    simp only [bitmapWords, iphrHash]
    omega
  have bit : k % 32 < 32 := Nat.mod_lt _ (by decide)
  have split : k / 32 * 32 + k % 32 = k := by omega
  rw [isBitSet, bitmap]
  simp [List.getD_eq_getElem?_getD, word, testBit_bitmapWord, bit, split]

/-- Words of 32 bits tile the buckets. -/
theorem flatMap_words {α : Type*} (f : Nat → Option α) (n : Nat) :
    (List.range n).flatMap (fun i => (List.range 32).filterMap (fun j => f (i * 32 + j))) =
      (List.range (n * 32)).filterMap f := by
  induction n with
  | zero => rfl
  | succ n ih =>
    have next : List.range (n + 1) = List.range n ++ [n] := List.range_succ
    rw [next, List.flatMap_append, ih, Nat.succ_mul, List.range_add, List.filterMap_append,
      List.filterMap_map, List.flatMap_singleton]
    rfl

private theorem filterMap_ite_some {α : Type*} (p : α → Bool) (items : List α) :
    items.filterMap (fun x => if p x then some x else none) = items.filter p := by
  rw [← List.filterMap_eq_filter]
  refine List.filterMap_congr (fun x _ => ?_)
  by_cases holds : p x <;> simp [holds, Option.guard]

/-- The buckets with a chain, in ascending order. -/
def used : List Nat := (List.range iphrHash).filter (inUse records)

private theorem filter_words : (List.range (bitmapWords * 32)).filter
    (inUse records) = used records := by
  have size : bitmapWords * 32 = iphrHash + 32 := by decide
  have none : ((List.range 32).map (iphrHash + ·)).filter (inUse records) = [] := by
    rw [List.filter_eq_nil_iff]
    intro k member
    obtain ⟨i, -, rfl⟩ := List.mem_map.mp member
    rw [inUse_iff]
    omega
  rw [size, List.range_add, List.filter_append, none, List.append_nil, used]

theorem chainStarts_eq :
    (List.range bitmapWords).flatMap
        (chainStarts (chainStart records) (fun k => chainStart records (k + 1))) =
      (used records).map (fun k => uint32 (chainStart records k * 12)) := by
  have words := flatMap_words
    (fun k => if inUse records k then some (uint32 (chainStart records k * 12)) else none)
    bitmapWords
  rw [← List.filterMap_eq_map, ← filter_words, List.filterMap_filter]
  simp only [Function.comp_apply]
  rw [← words]
  refine List.flatMap_congr (fun i _ => ?_)
  refine List.filterMap_congr (fun j _ => ?_)
  simp only [inUse]
  split <;> simp_all

theorem popcount_bitmap : ((bitmap records).map popcount).sum = (used records).length := by
  have words := flatMap_words (fun k => if inUse records k then some k else none) bitmapWords
  -- the bits of a word are the buckets of it that are in use
  have each : ∀ i, popcount (bitmapWord (chainStart records)
      (fun k => chainStart records (k + 1)) i) =
      ((List.range 32).filterMap
        (fun j => if inUse records (i * 32 + j) then some (i * 32 + j) else none)).length := by
    intro i
    rw [popcount, List.length_filterMap_eq_countP, ← List.countP_eq_length_filter]
    refine List.countP_congr (fun j member => ?_)
    rw [testBit_bitmapWord]
    have below := List.mem_range.mp member
    by_cases use : inUse records (i * 32 + j) <;> simp [below, use]
  rw [← filter_words, bitmap, List.map_map]
  have total := congrArg List.length words
  rw [List.length_flatMap] at total
  simp only [Function.comp_def, each]
  rw [total, filterMap_ite_some]

end LlvmLd.Gsi
