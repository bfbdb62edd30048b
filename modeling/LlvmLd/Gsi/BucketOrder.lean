import LlvmLd.Lib.WeakOrder
import LlvmLd.Gsi.Buckets

/-!
The order inside a bucket. `gsiRecordCmp` ignores case between two ASCII names and compares bytes
as soon as one name is not ASCII, so a name outside ASCII can stand between two names inside it
against their own order.
-/

namespace LlvmLd.Gsi

open CountingSort WeakOrder

/-- `llvm::sort`: a range is sorted if the comparator is a strict weak ordering of it. -/
structure BucketSort extends RangeSort where
  sorted : ∀ less range, StrictWeakOn less range →
    (run less range).Pairwise (fun a b => less b a = false)

/-- `BucketCmp` on the records that the indices stand for. -/
def recordLess (l r : HashedRecord) : Bool :=
  match gsiRecordCmp l.name r.name with
  | .lt => true
  | .gt => false
  | .eq => l.symOffset < r.symOffset

def HashedRecord.ascii (rec : HashedRecord) : Bool := isAsciiString rec.name

/-- The order by length, bytes and offset. -/
def rawCmp : HashedRecord → HashedRecord → Ordering :=
  compareLex (compareOn (fun rec => rec.name.length))
    (compareLex (compareOn HashedRecord.name) (compareOn HashedRecord.symOffset))

/-- The order by length, lower case bytes and offset. -/
def foldedCmp : HashedRecord → HashedRecord → Ordering :=
  compareLex (compareOn (fun rec => rec.name.length))
    (compareLex (compareOn (fun rec => rec.name.map toLower)) (compareOn HashedRecord.symOffset))

instance : Std.TransCmp rawCmp := by
  simp only [rawCmp]
  infer_instance

instance : Std.TransCmp foldedCmp := by
  simp only [foldedCmp]
  infer_instance

private theorem gsiRecordCmp_eq (s1 s2 : Bytes) :
    gsiRecordCmp s1 s2 =
      (compare s1.length s2.length).then
        (if isAsciiString s1 && isAsciiString s2 then compare (s1.map toLower) (s2.map toLower)
        else compare s1 s2) := by
  simp only [gsiRecordCmp]
  -- the length decides first, then case is ignored when both names are ASCII
  by_cases size : s1.length = s2.length
  · rw [if_neg (not_not.mpr size), size, Nat.compare_eq_eq.mpr rfl, Ordering.then]
    by_cases ascii : isAsciiString s1 = true ∧ isAsciiString s2 = true
    · rw [if_neg (by simp [ascii]), if_pos (by simp [ascii])]
      rfl
    · have one : ¬isAsciiString s1 = true ∨ ¬isAsciiString s2 = true := not_and_or.mp ascii
      rw [if_pos (by simpa using one), if_neg (by simpa using ascii)]
      rfl
  · rw [if_pos size]
    cases order : compare s1.length s2.length with
    | lt => rfl
    | gt => rfl
    | eq => exact absurd (Nat.compare_eq_eq.mp order) size

private theorem recordLess_iff (l r : HashedRecord) : recordLess l r = true ↔
    (gsiRecordCmp l.name r.name).then (compare l.symOffset r.symOffset) = .lt := by
  simp only [recordLess]
  cases gsiRecordCmp l.name r.name with
  | lt => simp
  | gt => simp
  | eq => simp [Nat.compare_eq_lt]

private theorem recordLess_eq : recordLess = switched HashedRecord.ascii foldedCmp rawCmp := by
  funext l r
  rw [Bool.eq_iff_iff, recordLess_iff, gsiRecordCmp_eq, Ordering.then_assoc]
  by_cases both : l.ascii = true ∧ r.ascii = true
  · rw [switched_inner _ _ _ both.1 both.2, if_pos (by simpa [HashedRecord.ascii] using both)]
    rfl
  · rw [switched_outer _ _ _ both, if_neg (by simpa [HashedRecord.ascii] using both)]
    rfl

/-- Names that only one of the two has in ASCII differ. -/
theorem rawCmp_ne_eq (a s : HashedRecord) (inside : a.ascii = true) (outside : s.ascii = false) :
    rawCmp a s ≠ .eq := by
  intro same
  simp only [rawCmp, compareLex, compareOn, Ordering.then_eq_eq,
    Std.LawfulEqCmp.compare_eq_iff_eq] at same
  simp only [HashedRecord.ascii] at inside outside
  rw [same.2.1, outside] at inside
  cases inside

/-! ### The buckets -/

/-- The records that fall into bucket `k`. -/
def bucketRecords (records : List HashedRecord) (k : Nat) : List HashedRecord :=
  records.filter (fun rec => bucketIdx rec.name = k)

/--
No record of a bucket whose name is not ASCII stands, by its bytes, between two ASCII names of that
bucket which are in the opposite order, or equal, without regard to case.
-/
def NoneBetween (records : List HashedRecord) : Prop :=
  ∀ k, ∀ a ∈ bucketRecords records k, ∀ s ∈ bucketRecords records k,
    ∀ b ∈ bucketRecords records k, a.ascii = true → s.ascii = false → b.ascii = true →
      rawCmp a s = .lt → rawCmp s b = .lt → foldedCmp a b = .lt

private theorem noneBetween_iff (records : List HashedRecord) :
    NoneBetween records ↔ ∀ k, StrictWeakOn recordLess (bucketRecords records k) := by
  rw [recordLess_eq]
  refine forall_congr' (fun k => ?_)
  rw [switched_strictWeakOn_iff]
  intro a _ s _
  exact rawCmp_ne_eq a s

/-- The records behind the indices that are placed in bucket `k`. -/
theorem map_bucket (records : List HashedRecord) (k : Nat) :
    (bucket k (hashEntries records)).map (fun rec => records.getD rec.off .empty) =
      bucketRecords records k := by
  have entries : bucket k (hashEntries records) =
      (records.zipIdx.filter (fun e => bucketIdx e.1.name = k)).map (fun e => ⟨e.2, 1⟩) := by
    simp [bucket, hashEntries, bucketKeys, List.zipIdx_map, List.filter_map, Function.comp_def]
  rw [entries, List.map_map, bucketRecords]
  conv_rhs => rw [← List.zipIdx_map_fst 0 records, List.filter_map]
  refine List.map_congr_left (fun e member => ?_)
  obtain ⟨-, below, found⟩ := List.mem_zipIdx (List.mem_filter.mp member).1
  simp only [Nat.sub_zero, Nat.zero_add] at below found
  simp [List.getD_eq_getElem?_getD, below, found]

private theorem strictWeakOn_bucketCmp (records : List HashedRecord) (k : Nat) :
    StrictWeakOn (bucketCmp records) (bucket k (hashEntries records)) ↔
      StrictWeakOn recordLess (bucketRecords records k) := by
  rw [← map_bucket, strictWeakOn_map]
  rfl

/-- Names ascend, and of equal names the one that stands first in the stream comes first. -/
def InOrder (l r : HashedRecord) : Prop :=
  gsiRecordCmp l.name r.name ≠ .gt ∧
    (gsiRecordCmp l.name r.name = .eq → l.symOffset ≤ r.symOffset)

private theorem inOrder_of_not_less (l r : HashedRecord) (not_less : recordLess r l = false) :
    InOrder l r := by
  -- the comparison is the same from both sides
  have swapped : (gsiRecordCmp r.name l.name).swap = gsiRecordCmp l.name r.name := by
    rw [gsiRecordCmp_eq, gsiRecordCmp_eq, Bool.and_comm, Ordering.swap_then]
    congr 1
    · exact (Std.OrientedCmp.eq_swap).symm
    · split
      · exact (Std.OrientedCmp.eq_swap).symm
      · exact (Std.OrientedCmp.eq_swap).symm
  simp only [InOrder]
  rw [← swapped]
  simp only [recordLess] at not_less
  cases order : gsiRecordCmp r.name l.name with
  | lt =>
    rw [order] at not_less
    cases not_less
  | gt => simp
  | eq =>
    rw [order] at not_less
    simpa using not_less

/-- What is asked of the buckets: an ordering to sort by, and chains that are sorted by it. -/
structure BucketsSorted (sort : BucketSort) (order : List Nat) (records : List HashedRecord) :
    Prop where
  weak : ∀ k, StrictWeakOn (bucketCmp records) (bucket k (hashEntries records))
  sorted : ∀ k < iphrHash, ∃ recs : List HashedRecord,
    recs.Perm (bucketRecords records k) ∧
    ((finalizeBuckets sort.toRangeSort order records).hashRecords.drop (chainStart records k)).take
      (chainStart records (k + 1) - chainStart records k) = recs.map HashedRecord.entry ∧
    recs.Pairwise InOrder

/-- The records behind a chain, in its order. -/
def chainRecords (sort : RangeSort) (records : List HashedRecord) (k : Nat) : List HashedRecord :=
  (sort.run (bucketCmp records) (bucket k (hashEntries records))).map
    (fun rec => records.getD rec.off .empty)

private theorem chain_eq (sort : RangeSort) (records : List HashedRecord) (k : Nat) :
    chain sort records k = (chainRecords sort records k).map HashedRecord.entry := by
  rw [chain, chainRecords, List.map_map]
  refine List.map_congr_left (fun rec member => ?_)
  -- every hash record is placed with a reference count of one
  have placed := (sort.perm _ _).mem_iff.mp member
  have one : rec.cRef = 1 := by
    simp only [bucket, hashEntries, List.mem_map, List.mem_filter] at placed
    obtain ⟨_, ⟨⟨_, _, rfl⟩, _⟩, rfl⟩ := placed
    rfl
  simp only [Function.comp_apply, HashedRecord.entry, one]

/-- The buckets are sorted exactly when no name outside ASCII stands between two inside it. -/
theorem bucketsSorted_iff (sort : BucketSort) (order : List Nat) (records : List HashedRecord)
    (permuted : order.Perm (List.range iphrHash)) :
    BucketsSorted sort order records ↔ NoneBetween records := by
  rw [noneBetween_iff]
  constructor
  · intro buckets k
    exact (strictWeakOn_bucketCmp records k).mp (buckets.weak k)
  · intro weak
    have ordered : ∀ k, StrictWeakOn (bucketCmp records) (bucket k (hashEntries records)) :=
      fun k => (strictWeakOn_bucketCmp records k).mpr (weak k)
    refine ⟨ordered, fun k below => ⟨chainRecords sort.toRangeSort records k, ?_, ?_, ?_⟩⟩
    · rw [← map_bucket]
      exact (sort.perm _ _).map _
    · rw [finalizeBuckets_hashRecords _ _ _ permuted, slice_chain _ _ _ below, chain_eq]
    · rw [chainRecords, List.pairwise_map]
      exact (sort.sorted _ _ (ordered k)).imp (fun not_less => inOrder_of_not_less _ _ not_less)

def BucketSort.insertion : BucketSort where
  run := WeakOrder.insertion
  perm := fun less range => insertion_perm less range
  sorted := fun _ _ weak => insertion_sorted weak

private theorem noneBetween_of_ascii (records : List HashedRecord)
    (ascii : ∀ rec ∈ records, rec.ascii = true) : NoneBetween records := by
  intro k a _ s s_mem b _ _ outside
  have inside := ascii s (List.mem_of_mem_filter s_mem)
  rw [outside] at inside
  cases inside

/-- `Ba2g` and `aapo`, which fall into one bucket. -/
theorem bucketsSorted_two_names :
    BucketsSorted .insertion (List.range iphrHash)
      [⟨[0x42, 0x61, 0x32, 0x67], 0⟩, ⟨[0x61, 0x61, 0x70, 0x6f], 20⟩] :=
  (bucketsSorted_iff .insertion _ _ (List.Perm.refl _)).mpr
    (noneBetween_of_ascii _ (by decide))

/-- `Ba2g`, a name that starts with `D` and goes on outside ASCII, and `aapo`. -/
def mixedNames : List HashedRecord :=
  [⟨[0x42, 0x61, 0x32, 0x67], 0⟩, ⟨[0x44, 0xc3, 0x86, 0x77], 20⟩,
    ⟨[0x61, 0x61, 0x70, 0x6f], 40⟩]

instance (l r : HashedRecord) : Decidable (InOrder l r) :=
  inferInstanceAs (Decidable (_ ∧ (_ → _)))

/-- The three names are ordered in a circle, so no arrangement of them is sorted. -/
theorem mixedNames_not_sorted :
    ¬BucketsSorted .insertion (List.range iphrHash) mixedNames ∧
      ∀ recs : List HashedRecord, recs.Perm mixedNames → ¬recs.Pairwise InOrder := by
  constructor
  · intro buckets
    have weak := (strictWeakOn_bucketCmp mixedNames 16).mp (buckets.weak 16)
    have inBucket : bucketRecords mixedNames 16 = mixedNames := by decide
    rw [inBucket] at weak
    -- three names that the comparison puts in a circle
    have circle := weak.trans ⟨[0x42, 0x61, 0x32, 0x67], 0⟩ (by decide)
      ⟨[0x44, 0xc3, 0x86, 0x77], 20⟩ (by decide) ⟨[0x61, 0x61, 0x70, 0x6f], 40⟩ (by decide)
      (by decide) (by decide)
    revert circle
    decide
  · intro recs permuted
    match recs, permuted.length_eq with
    | [x, y, z], _ =>
      have x_mem : x ∈ mixedNames := permuted.subset (by simp)
      have y_mem : y ∈ mixedNames := permuted.subset (by simp)
      have z_mem : z ∈ mixedNames := permuted.subset (by simp)
      have distinct : [x, y, z].Nodup := permuted.nodup_iff.mpr (by decide)
      have all : ∀ x ∈ mixedNames, ∀ y ∈ mixedNames, ∀ z ∈ mixedNames, [x, y, z].Nodup →
          ¬[x, y, z].Pairwise InOrder := by decide
      exact all x x_mem y y_mem z z_mem distinct

end LlvmLd.Gsi
