import Mathlib.Data.List.Zip
import LlvmLd.Gsi.Buckets

/-!
# Reading the hash table back

The reader finds the chain of a name from the bitmap and the chain starts, and the records of the
chain in the record stream.

Proof strategy: the stream is a sequence of little-endian words, so reading it gives the words that
were written. A set bit has as many set bits before it as there are chains in front of its chain,
and the next chain in use starts where this one ends.
-/

namespace LlvmLd.Gsi

open CountingSort Codeview Placement

/-! ### Words -/

private theorem readWords_eq (front : Bytes) (words : List Nat) (back : Bytes) :
    readWords (front ++ (words.flatMap le32 ++ back)) front.length words.length =
      some (words.map uint32) := by
  have fixed : (words.flatMap le32).length = 4 * words.length := by
    simp [List.length_flatMap, Nat.mul_comm]
  rw [readWords, if_neg (by simp only [List.length_append, fixed]; omega)]
  refine congrArg some (List.ext_getElem (by simp) (fun i inRange inWords => ?_))
  have below : i < words.length := by simpa using inWords
  have inside : 4 * i ≤ (words.flatMap le32).length := by omega
  rw [List.getElem_map, List.getElem_range, List.getElem_map,
    ← Nat.add_zero (front.length + 4 * i), ← u32At_drop, ← List.drop_drop, List.drop_left,
    List.drop_append_of_le_length inside, drop_flatMap le32 4 length_le32 words i below,
    List.append_assoc, u32At_le32]

private theorem readHashRecords_eq (front : Bytes) (recs : List PSHashRecord) (back : Bytes)
    (small : ∀ rec ∈ recs, rec.off < 2 ^ 32 ∧ rec.cRef < 2 ^ 32) :
    readHashRecords (front ++ (recs.flatMap PSHashRecord.bytes ++ back)) front.length recs.length =
      some recs := by
  have width : ∀ rec : PSHashRecord, rec.bytes.length = 8 := fun _ => rfl
  have fixed : (recs.flatMap PSHashRecord.bytes).length = 8 * recs.length := by
    simp [List.length_flatMap, width, Nat.mul_comm]
  rw [readHashRecords, if_neg (by simp only [List.length_append, fixed]; omega)]
  refine congrArg some (List.ext_getElem (by simp) (fun i inRange below => ?_))
  have inside : 8 * i ≤ (recs.flatMap PSHashRecord.bytes).length := by omega
  -- the record with number `i` and what lies behind it
  have at_i : (front ++ (recs.flatMap PSHashRecord.bytes ++ back)).drop (front.length + 8 * i) =
      le32 recs[i].off ++ (le32 recs[i].cRef ++
        ((recs.drop (i + 1)).flatMap PSHashRecord.bytes ++ back)) := by
    rw [← List.drop_drop, List.drop_left, List.drop_append_of_le_length inside,
      drop_flatMap PSHashRecord.bytes 8 width recs i below, PSHashRecord.bytes]
    simp
  have bounds := small recs[i] (List.getElem_mem below)
  have off : Bytes.u32At (front ++ (recs.flatMap PSHashRecord.bytes ++ back))
      (front.length + 8 * i) = recs[i].off := by
    rw [← Nat.add_zero (front.length + 8 * i), ← u32At_drop, at_i, u32At_le32]
    exact Nat.mod_eq_of_lt bounds.1
  have cRef : Bytes.u32At (front ++ (recs.flatMap PSHashRecord.bytes ++ back))
      (front.length + 8 * i + 4) = recs[i].cRef := by
    rw [← u32At_drop, at_i, ← Nat.add_zero 4, u32At_le32_append, u32At_le32]
    exact Nat.mod_eq_of_lt bounds.2
  rw [List.getElem_map, List.getElem_range, off, cRef]

/-! ### Committing -/

def GSIHashStreamBuilder.header (b : GSIHashStreamBuilder) : List Nat :=
  [hdrSignature, hdrVersion, b.hashRecords.length * 8,
    b.hashBitmap.length * 4 + b.hashBuckets.length * 4]

/-- Everything that is committed. -/
def GSIHashStreamBuilder.stream (b : GSIHashStreamBuilder) : Bytes :=
  b.header.flatMap le32 ++ (b.hashRecords.flatMap PSHashRecord.bytes ++
    (b.hashBitmap.flatMap le32 ++ (b.hashBuckets.flatMap le32 ++ [])))

private theorem length_stream (b : GSIHashStreamBuilder) : b.stream.length =
    16 + b.hashRecords.length * 8 + b.hashBitmap.length * 4 + b.hashBuckets.length * 4 := by
  have width : ∀ rec : PSHashRecord, rec.bytes.length = 8 := fun _ => rfl
  simp [GSIHashStreamBuilder.stream, GSIHashStreamBuilder.header, List.length_flatMap, width]
  omega

theorem writeBytes_ok (w : StreamWriter) (bytes : Bytes)
    (room : w.written.length + bytes.length ≤ w.length) :
    w.writeBytes bytes = .ok { w with written := w.written ++ bytes } := by
  rw [StreamWriter.writeBytes, if_neg (by omega)]

/-- Four writes that fit are one write. -/
theorem writeBytes_four (length : Nat) (first second third fourth : Bytes)
    (room : first.length + second.length + third.length + fourth.length ≤ length) :
    ((⟨length, []⟩ : StreamWriter).writeBytes first).bind (fun w =>
      (w.writeBytes second).bind (fun w =>
        (w.writeBytes third).bind (fun w => w.writeBytes fourth))) =
      .ok ⟨length, first ++ (second ++ (third ++ (fourth ++ [])))⟩ := by
  have one := writeBytes_ok ⟨length, []⟩ first (by simp only [List.length_nil]; omega)
  have two := writeBytes_ok ⟨length, first⟩ second (by dsimp only; omega)
  have three := writeBytes_ok ⟨length, first ++ second⟩ third
    (by simp only [List.length_append]; omega)
  have four := writeBytes_ok ⟨length, first ++ second ++ third⟩ fourth
    (by simp only [List.length_append]; omega)
  simp only [List.nil_append] at one
  simp only [one, two, three, four, Except.bind]
  simp only [List.append_nil, List.append_assoc]

private theorem commit_eq (b : GSIHashStreamBuilder) :
    b.commit ⟨b.stream.length, []⟩ = .ok ⟨b.stream.length, b.stream⟩ := by
  have header : le32 hdrSignature ++ le32 hdrVersion ++ le32 (b.hashRecords.length * 8) ++
      le32 (b.hashBitmap.length * 4 + b.hashBuckets.length * 4) = b.header.flatMap le32 := by
    simp only [GSIHashStreamBuilder.header, List.flatMap_cons, List.flatMap_nil, List.append_nil,
      List.append_assoc]
  rw [GSIHashStreamBuilder.commit, header]
  refine writeBytes_four _ _ _ _ _ (Nat.le_of_eq ?_)
  simp only [GSIHashStreamBuilder.stream, List.length_append, List.length_nil]
  omega

/-! ### Reading the table -/

/-- What the builder keeps so that its bytes can be read. -/
structure Readable (b : GSIHashStreamBuilder) : Prop where
  nonempty : b.hashRecords ≠ []
  few : b.hashRecords.length * 8 < 2 ^ 32
  records : ∀ rec ∈ b.hashRecords, rec.off < 2 ^ 32 ∧ rec.cRef < 2 ^ 32
  words : b.hashBitmap.length = bitmapWords
  bitmap : ∀ word ∈ b.hashBitmap, word < 2 ^ 32
  buckets : b.hashBuckets.length = (b.hashBitmap.map popcount).sum
  starts : ∀ first ∈ b.hashBuckets, first < 2 ^ 32

private theorem map_uint32 (words : List Nat) (small : ∀ word ∈ words, word < 2 ^ 32) :
    words.map uint32 = words := by
  conv_rhs => rw [← List.map_id words]
  exact List.map_congr_left (fun word member => Nat.mod_eq_of_lt (small word member))

private theorem read_stream (b : GSIHashStreamBuilder) (ok : Readable b) :
    GSIHashTable.read b.stream =
      .ok { hrSize := b.hashRecords.length * 8
            hashRecords := b.hashRecords
            hashBitmap := b.hashBitmap
            hashBuckets := b.hashBuckets
            bucketMap := expandBuckets (isBitSet b.hashBitmap) 0 (List.range (iphrHash + 1)) } := by
  -- The stream is the header and three parts, and each width below is the offset of the next part.
  have words : b.stream = le32 hdrSignature ++ (le32 hdrVersion ++ (le32 (b.hashRecords.length * 8) ++
      (le32 (b.hashBitmap.length * 4 + b.hashBuckets.length * 4) ++
        (b.hashRecords.flatMap PSHashRecord.bytes ++
          (b.hashBitmap.flatMap le32 ++ (b.hashBuckets.flatMap le32 ++ [])))))) := by
    simp only [GSIHashStreamBuilder.stream, GSIHashStreamBuilder.header, List.flatMap_cons,
      List.flatMap_nil, List.append_nil, List.append_assoc]
  have long : ¬ b.stream.length < 16 := by
    rw [length_stream]
    omega
  have signature : b.stream.u32At 0 = hdrSignature := by
    rw [words, u32At_le32]
    decide
  have version : b.stream.u32At 4 = hdrVersion := by
    rw [words, ← Nat.add_zero 4, u32At_le32_append, u32At_le32]
    decide
  have hrSize : b.stream.u32At 8 = b.hashRecords.length * 8 := by
    rw [words, show 8 = 4 + (4 + 0) from rfl, u32At_le32_append, u32At_le32_append, u32At_le32]
    exact Nat.mod_eq_of_lt ok.few
  have positive : 0 < b.hashRecords.length := List.length_pos_of_ne_nil ok.nonempty
  -- Each reader is given what stands in front of its part and what follows.
  have recs := readHashRecords_eq (b.header.flatMap le32) b.hashRecords
    (b.hashBitmap.flatMap le32 ++ (b.hashBuckets.flatMap le32 ++ [])) ok.records
  have bits := readWords_eq (b.header.flatMap le32 ++ b.hashRecords.flatMap PSHashRecord.bytes)
    b.hashBitmap (b.hashBuckets.flatMap le32 ++ [])
  have chains := readWords_eq (b.header.flatMap le32 ++ (b.hashRecords.flatMap PSHashRecord.bytes ++
    b.hashBitmap.flatMap le32)) b.hashBuckets []
  have recordWidth : (b.hashRecords.flatMap PSHashRecord.bytes).length =
      b.hashRecords.length * 8 := by
    have width : ∀ rec : PSHashRecord, rec.bytes.length = 8 := fun _ => rfl
    simp [List.length_flatMap, width]
  have bitmapWidth : (b.hashBitmap.flatMap le32).length = 4 * b.hashBitmap.length := by
    simp [List.length_flatMap, Nat.mul_comm]
  have headerWidth : (b.header.flatMap le32).length = 16 := rfl
  simp only [List.append_assoc, List.length_append, recordWidth, bitmapWidth, headerWidth,
    map_uint32 _ ok.bitmap, map_uint32 _ ok.starts, ← Nat.add_assoc] at recs bits chains
  rw [GSIHashTable.read, if_neg long, if_neg (not_not_intro signature),
    if_neg (not_not_intro version)]
  simp only [hrSize]
  rw [if_neg (by omega), Nat.mul_div_cancel _ (by decide)]
  change readHashRecords b.stream 16 _ = _ at recs
  change readWords b.stream _ _ = _ at bits
  change readWords b.stream _ _ = _ at chains
  -- The bitmap's length is not stored: it follows from the number of buckets.
  have count : alignTo (iphrHash + 1) 32 / 32 = b.hashBitmap.length := by
    rw [ok.words]
    decide
  simp only [recs]
  rw [if_neg (by omega), count, bits]
  simp only [← ok.buckets, chains]

/-! ### Finding a chain -/

private theorem expandBuckets_append (isSet : Nat → Bool) (compressed : Nat) (before : List Nat)
    (k : Nat) (after : List Nat) :
    (expandBuckets isSet compressed (before ++ k :: after)).getD before.length none =
      if isSet k then some (compressed + (before.filter isSet).length) else none := by
  induction before generalizing compressed with
  | nil =>
    by_cases set : isSet k <;> simp [expandBuckets, set]
  | cons i rest ih =>
    rw [List.cons_append, expandBuckets]
    -- only a set bit takes a chain start from the list
    by_cases set : isSet i
    · have next := ih (compressed + 1)
      simp only [if_pos set, List.length_cons, List.getD_cons_succ, List.filter_cons] at next ⊢
      rw [next, show compressed + 1 + (rest.filter isSet).length =
        compressed + ((rest.filter isSet).length + 1) by omega]
    · have next := ih compressed
      simp only [if_neg set, List.length_cons, List.getD_cons_succ, List.filter_cons] at next ⊢
      exact next

/-- The buckets between one chain and the next in use are empty. -/
theorem next_chainStart (records : List HashedRecord) (m a : Nat) (small : a + m ≤ iphrHash) :
    (((List.range m).map (a + ·)).filter (inUse records) = [] →
      chainStart records a = chainStart records (a + m)) ∧
    (∀ k rest, ((List.range m).map (a + ·)).filter (inUse records) = k :: rest →
      chainStart records k = chainStart records a) := by
  induction m generalizing a with
  | zero => simp
  | succ m ih =>
    have shifted : (List.range (m + 1)).map (a + ·) =
        a :: (List.range m).map (a + 1 + ·) := by
      rw [List.range_succ_eq_map, List.map_cons, List.map_map]
      refine congrArg₂ List.cons (Nat.add_zero a) (List.map_congr_left (fun i _ => ?_))
      simp only [Function.comp_apply]
      omega
    obtain ⟨none_left, first_left⟩ := ih (a + 1) (by omega)
    rw [shifted]
    by_cases use : inUse records a
    · rw [List.filter_cons_of_pos use]
      refine ⟨fun empty => (List.cons_ne_nil _ _ empty).elim, fun k rest found => ?_⟩
      rw [List.cons.injEq] at found
      rw [found.1]
    · rw [List.filter_cons_of_neg use]
      -- a bucket that is not in use has the start of the next one
      have same : chainStart records a = chainStart records (a + 1) := by
        by_contra different
        exact use ((inUse_iff records a).mpr ⟨by omega, different⟩)
      constructor
      · intro empty
        rw [same, none_left empty, show a + 1 + m = a + (m + 1) by omega]
      · intro k rest found
        rw [same, first_left k rest found]

section Lookup

variable (sort : RangeSort) (records : List HashedRecord)

/-- The table as it is read back. -/
def readTable : GSIHashTable where
  hrSize := records.length * 8
  hashRecords := (List.range iphrHash).flatMap (chain sort records)
  hashBitmap := bitmap records
  hashBuckets := (used records).map (fun k => chainStart records k * 12)
  bucketMap := expandBuckets (inUse records) 0 (List.range (iphrHash + 1))

private theorem readTable_bucketMap (k : Nat) (below : k < iphrHash) :
    (readTable sort records).bucketMap.getD k none =
      if inUse records k then some ((List.range k).filter (inUse records)).length else none := by
  have at_k := expandBuckets_append (inUse records) 0 (List.range k) k
    ((List.range (iphrHash + 1 - k - 1)).map (k + 1 + ·))
  rw [List.length_range, Nat.zero_add, ← range_split k (iphrHash + 1) (by omega)] at at_k
  simpa only [readTable] using at_k

/-- The reader's bounds of a chain in use. -/
theorem readTable_bounds (few : records.length * 12 < 2 ^ 32) (k : Nat)
    (use : inUse records k = true) (compressed : Nat)
    (rank : compressed = ((List.range k).filter (inUse records)).length) :
    (readTable sort records).hashBuckets.getD compressed 0 / 12 = chainStart records k ∧
    (if compressed < uint32 ((readTable sort records).hashBuckets.length + 2 ^ 32 - 1) then
        (readTable sort records).hashBuckets.getD (compressed + 1) 0
      else uint32 ((readTable sort records).hashRecords.length * 12)) / 12 =
      chainStart records (k + 1) := by
  have below := ((inUse_iff records k).mp use).1
  have length : (readTable sort records).hashRecords.length = records.length := by
    simp only [readTable, length_chains, chainStart_last]
  have split : used records = (List.range k).filter (inUse records) ++
      k :: ((List.range (iphrHash - k - 1)).map (k + 1 + ·)).filter (inUse records) := by
    rw [used, range_split k iphrHash below, List.filter_append, List.filter_cons_of_pos use]
  have buckets : (readTable sort records).hashBuckets =
      ((List.range k).filter (inUse records)).map (fun k => chainStart records k * 12) ++
        chainStart records k * 12 ::
          (((List.range (iphrHash - k - 1)).map (k + 1 + ·)).filter (inUse records)).map
            (fun k => chainStart records k * 12) := by
    rw [readTable, split, List.map_append, List.map_cons]
  obtain ⟨none_left, first_left⟩ := next_chainStart records (iphrHash - k - 1) (k + 1) (by omega)
  have bounded : ((List.range k).filter (inUse records)).length ≤ iphrHash := by
    have filtered := List.length_filter_le (inUse records) (List.range k)
    rw [List.length_range] at filtered
    omega
  have restBounded : (((List.range (iphrHash - k - 1)).map (k + 1 + ·)).filter
      (inUse records)).length ≤ iphrHash := by
    have filtered := List.length_filter_le (inUse records)
      ((List.range (iphrHash - k - 1)).map (k + 1 + ·))
    rw [List.length_map, List.length_range] at filtered
    omega
  rw [length]
  generalize (readTable sort records).hashBuckets = hashBuckets at buckets
  generalize ((List.range (iphrHash - k - 1)).map (k + 1 + ·)).filter (inUse records) = after at *
  generalize (List.range k).filter (inUse records) = before at *
  subst buckets rank
  have first : (before.map (fun k => chainStart records k * 12) ++ chainStart records k * 12 ::
      after.map (fun k => chainStart records k * 12)).getD before.length 0 =
      chainStart records k * 12 := by
    simp [List.getD_eq_getElem?_getD]
  have count : uint32 ((before.map (fun k => chainStart records k * 12) ++
      chainStart records k * 12 :: after.map (fun k => chainStart records k * 12)).length +
        2 ^ 32 - 1) = before.length + after.length := by
    simp only [List.length_append, List.length_map, List.length_cons]
    unfold uint32
    simp only [iphrHash] at bounded restBounded
    omega
  refine ⟨?_, ?_⟩
  · rw [first, Nat.mul_div_cancel _ (by decide)]
  · rw [count]
    cases after with
    | nil =>
      -- the last chain ends with the records
      have ends := none_left rfl
      rw [show k + 1 + (iphrHash - k - 1) = iphrHash by omega, chainStart_last] at ends
      rw [if_neg (by simp), ends, uint32, Nat.mod_eq_of_lt few, Nat.mul_div_cancel _ (by decide)]
    | cons next rest =>
      have starts := first_left next rest rfl
      have second : (before.map (fun k => chainStart records k * 12) ++ chainStart records k * 12 ::
          (next :: rest).map (fun k => chainStart records k * 12)).getD (before.length + 1) 0 =
          chainStart records next * 12 := by
        simp [List.getD_eq_getElem?_getD]
      rw [if_pos (by simp), second, starts, Nat.mul_div_cancel _ (by decide)]

/-- The reader walks exactly the chain of the name's bucket. -/
theorem findRecordsByName_chain (few : records.length * 12 < 2 ^ 32) (symbols name : Bytes) :
    findRecordsByName (readTable sort records) symbols name =
      ((chain sort records (bucketIdx name)).mapM (lookupRecord symbols name)).map
        List.flatten := by
  have below := bucketIdx_lt name
  simp only [findRecordsByName]
  rw [readTable_bucketMap sort records _ below]
  by_cases use : inUse records (bucketIdx name)
  · obtain ⟨first, last⟩ := readTable_bounds sort records few (bucketIdx name) use _ rfl
    simp only [if_pos use, first, last]
    simp only [readTable, slice_chain sort records _ below]
  -- a bucket that is not in use starts where the next one does
  · have empty : chain sort records (bucketIdx name) = [] := by
      have none : ¬ chainStart records (bucketIdx name) ≠
          chainStart records (bucketIdx name + 1) :=
        fun different => use ((inUse_iff records _).mpr ⟨below, different⟩)
      have length := length_chain sort records (bucketIdx name)
      have step := chainStart_succ records (bucketIdx name)
      exact List.length_eq_zero_iff.mp (by omega)
    simp [if_neg use, empty]

private theorem expandBuckets_congr (f g : Nat → Bool) (compressed : Nat) (items : List Nat)
    (same : ∀ i ∈ items, f i = g i) :
    expandBuckets f compressed items = expandBuckets g compressed items := by
  induction items generalizing compressed with
  | nil => rfl
  | cons i rest ih =>
    have later := fun c => ih c (fun j member => same j (List.mem_cons_of_mem i member))
    simp only [expandBuckets, same i (by simp), later]

/-- What is built, without the loops. -/
def builtTable : GSIHashStreamBuilder where
  hashRecords := (List.range iphrHash).flatMap (chain sort records)
  hashBitmap := bitmap records
  hashBuckets := (used records).map (fun k => chainStart records k * 12)

private theorem finalizeBuckets_eq (order : List Nat) (permuted : order.Perm (List.range iphrHash))
    (few : records.length * 12 < 2 ^ 32) :
    finalizeBuckets sort order records = builtTable sort records := by
  have cursors : (distribute ⟨0, 0⟩ (hashEntries records)).cursors =
      fun k => chainStart records (k + 1) := funext (cursors_eq records)
  have words : (finalizeBuckets sort order records).hashBitmap = bitmap records := by
    change (List.range bitmapWords).map (bitmapWord (chainStart records)
      (distribute ⟨0, 0⟩ (hashEntries records)).cursors) = _
    rw [cursors, bitmap]
  -- a chain start of twelve bytes a record, which the assumption keeps in 32 bits
  have starts : (finalizeBuckets sort order records).hashBuckets =
      (used records).map (fun k => chainStart records k * 12) := by
    change (List.range bitmapWords).flatMap (chainStarts (chainStart records)
      (distribute ⟨0, 0⟩ (hashEntries records)).cursors) = _
    rw [cursors, chainStarts_eq]
    refine List.map_congr_left (fun k member => Nat.mod_eq_of_lt ?_)
    have inTable := List.mem_range.mp (List.mem_filter.mp member).1
    have bound := chainStart_mono records (Nat.le_of_lt inTable)
    rw [chainStart_last] at bound
    omega
  rw [builtTable, ← finalizeBuckets_hashRecords sort records order permuted, ← words, ← starts]

private theorem length_builtTable :
    (builtTable sort records).hashRecords.length = records.length := by
  simp only [builtTable, length_chains, chainStart_last]

private theorem builtTable_readable (nonempty : records ≠ []) (few : records.length * 12 < 2 ^ 32) :
    Readable (builtTable sort records) := by
  have length := length_builtTable sort records
  have entries := chains_perm sort records
  constructor
  · intro empty
    rw [empty] at length
    exact nonempty (List.length_eq_zero_iff.mp length.symm)
  · omega
  · intro rec member
    simp only [builtTable] at member
    have original : rec ∈ records.map HashedRecord.entry := entries.mem_iff.mp member
    obtain ⟨source, -, rfl⟩ := List.mem_map.mp original
    exact ⟨Nat.mod_lt _ (by decide), by simp [HashedRecord.entry]⟩
  · simp [builtTable, bitmap]
  · intro word member
    simp only [builtTable, bitmap] at member
    obtain ⟨i, -, rfl⟩ := List.mem_map.mp member
    exact bitmapWord_lt records i
  · simp only [builtTable, popcount_bitmap, List.length_map]
  · intro first member
    simp only [builtTable] at member
    obtain ⟨k, inUsed, rfl⟩ := List.mem_map.mp member
    have inTable := List.mem_range.mp (List.mem_filter.mp inUsed).1
    have bound := chainStart_mono records (Nat.le_of_lt inTable)
    rw [chainStart_last] at bound
    omega

/-- Reading what was built gives the table that lookups use. -/
theorem read_builtTable (nonempty : records ≠ []) (few : records.length * 12 < 2 ^ 32) :
    GSIHashTable.read (builtTable sort records).stream = .ok (readTable sort records) := by
  have bits : expandBuckets (isBitSet (bitmap records)) 0 (List.range (iphrHash + 1)) =
      expandBuckets (inUse records) 0 (List.range (iphrHash + 1)) := by
    refine expandBuckets_congr _ _ _ _ (fun k member => isBitSet_bitmap records k ?_)
    have below := List.mem_range.mp member
    omega
  rw [read_stream _ (builtTable_readable sort records nonempty few),
    length_builtTable]
  simp only [builtTable, readTable, bits]

end Lookup

/-! ### Global symbol records -/

/-- The kinds that stand in the globals stream. -/
def globalKinds : List SymbolKind :=
  [.procref, .lprocref, .gdata32, .ldata32, .gthread32, .lthread32, .udt, .constant]

/-- Where the name of a record starts in its contents. -/
def nameOffset (record : Bytes) : Option Nat :=
  if symbolKind record = .constant then constantNameOffset (content record)
  else getSymbolNameOffset (symbolKind record)

/-- A well-formed global symbol record: padded to 4 bytes, with its length and a terminated name. -/
structure GlobalSymbol where
  bytes : Bytes
  global : symbolKind bytes ∈ globalKinds
  aligned : 4 ∣ bytes.length
  prefixed : bytes.u16At 0 + 2 = bytes.length
  terminated : ∃ offset, nameOffset bytes = some offset ∧ 0 ∈ (content bytes).drop offset

/-- The fixed fields and the terminator of a name take more than 8 bytes. -/
theorem GlobalSymbol.four_le_nameOffset (g : GlobalSymbol) (offset : Nat)
    (found : nameOffset g.bytes = some offset) : 4 ≤ offset := by
  have kinds := g.global
  simp only [nameOffset] at found
  by_cases constant : symbolKind g.bytes = .constant
  · rw [if_pos constant] at found
    simp only [constantNameOffset] at found
    split at found
    · cases found
    · obtain ⟨size, -, inner⟩ := Option.bind_eq_some_iff.mp found
      split at inner
      · cases inner
      · rw [Option.some.injEq] at inner
        omega
  · rw [if_neg constant] at found
    simp only [globalKinds, List.mem_cons, List.not_mem_nil, or_false, constant] at kinds
    -- every other kind has its name at a fixed place behind the prefix
    rcases kinds with kind | kind | kind | kind | kind | kind | kind
    all_goals
      rw [kind] at found
      simp only [getSymbolNameOffset, Option.some.injEq] at found
      omega

private theorem GlobalSymbol.twelve_le (g : GlobalSymbol) : 12 ≤ g.bytes.length := by
  obtain ⟨offset, found, inTail⟩ := g.terminated
  have fields := g.four_le_nameOffset offset found
  have longer : offset < (content g.bytes).length := by
    by_contra short
    rw [List.drop_eq_nil_of_le (by omega)] at inTail
    cases inTail
  rw [content, List.length_drop, prefixSize] at longer
  have divides := g.aligned
  omega

/-- The name up to its terminator. -/
def GlobalSymbol.name (g : GlobalSymbol) : Bytes := (getSymbolName g.bytes).getD []

private theorem GlobalSymbol.getSymbolName_eq (g : GlobalSymbol) :
    getSymbolName g.bytes = some g.name := by
  obtain ⟨offset, found, inTail⟩ := g.terminated
  have some_name : (getSymbolName g.bytes).isSome := by
    simp only [nameOffset] at found
    simp only [getSymbolName]
    by_cases constant : symbolKind g.bytes = .constant
    · rw [if_pos constant] at found
      simp only [if_pos constant, found, Option.bind_some, Bytes.cString]
      rw [if_pos inTail]
      rfl
    · rw [if_neg constant] at found
      have longer : ¬ (content g.bytes).length < offset := by
        intro short
        rw [List.drop_eq_nil_of_le (by omega)] at inTail
        cases inTail
      simp [constant, found, longer]
  obtain ⟨name, eq⟩ := Option.isSome_iff_exists.mp some_name
  rw [GlobalSymbol.name, eq, Option.getD_some]

/-! ### Records in the stream -/

/-- A record can be read where its bytes stand. -/
theorem readRecord_of_drop (stream : Bytes) (offset : Nat) (record rest : Bytes)
    (stands : stream.drop offset = record ++ rest) (prefixed : record.u16At 0 + 2 = record.length)
    (long : 4 ≤ record.length) : readRecord stream offset = some record := by
  have size : stream.length - offset = record.length + rest.length := by
    rw [← List.length_drop, stands, List.length_append]
  have announced : stream.u16At offset = record.u16At 0 := by
    rw [← Nat.add_zero offset, ← u16At_drop, stands, u16At_append record rest 0 (by omega)]
  rw [readRecord, size, announced, prefixSize, if_neg (by omega)]
  rw [if_neg (by omega), Bytes.slice, stands, prefixed, List.take_left]

/-- Every record of a concatenation stands at its start. -/
theorem drop_of_starts (front : Bytes) (items : List Bytes) (entry : Bytes × Nat)
    (member : entry ∈ starts List.length front.length items) :
    ∃ rest, (front ++ items.flatten).drop entry.2 = entry.1 ++ rest := by
  induction items generalizing front with
  | nil => cases member
  | cons x others ih =>
    rw [starts, List.mem_cons] at member
    rcases member with rfl | later
    · exact ⟨others.flatten, by rw [List.flatten_cons, List.drop_left]⟩
    · obtain ⟨rest, stands⟩ := ih (front ++ x) (by rwa [List.length_append])
      exact ⟨rest, by rwa [List.flatten_cons, ← List.append_assoc]⟩

private theorem mapM_eq_map {α β : Type} (f : α → Option β) (g : α → β) (items : List α)
    (each : ∀ x ∈ items, f x = some (g x)) : items.mapM f = some (items.map g) := by
  induction items with
  | nil => rfl
  | cons x rest ih =>
    rw [List.mapM_cons, each x (by simp),
      ih (fun y member => each y (List.mem_cons_of_mem x member))]
    rfl

/-- `finalizeGlobalBuckets` for the globals of the builder. -/
def GSIStreamBuilder.finalizeGlobalBuckets (b : GSIStreamBuilder) (rangeSort : RangeSort)
    (order : List Nat) : GSIHashStreamBuilder :=
  finalizeBuckets rangeSort order (globalRecords (uint32 b.publicBytes) b.globals)

section Globals

variable {b : GSIStreamBuilder} {sorted : List BulkPublic}

/-- The globals with their positions in the record stream. -/
def GSIStreamBuilder.positions (b : GSIStreamBuilder) : List (Bytes × Nat) :=
  starts List.length b.publicBytes b.globals

theorem globalRecords_exact (ok : Exact b sorted) :
    globalRecords (uint32 b.publicBytes) b.globals =
      b.positions.map (fun entry => ⟨(getSymbolName entry.1).getD [], entry.2⟩) := by
  have offsets := offsets_exact ok
  rw [GSIStreamBuilder.offsets] at offsets
  rw [globalRecords, offsets, zip_starts, GSIStreamBuilder.positions]

private theorem length_globalRecords (ok : Exact b sorted) :
    (globalRecords (uint32 b.publicBytes) b.globals).length = b.globals.length := by
  rw [globalRecords_exact ok, List.length_map, GSIStreamBuilder.positions]
  conv_rhs => rw [← starts_map_fst List.length b.publicBytes b.globals, List.length_map]

/-- A lookup finds a global through its hash record exactly under its own name. -/
theorem lookupRecord_global (ok : Exact b sorted) (g : GlobalSymbol) (offset : Nat)
    (member : (g.bytes, offset) ∈ b.positions) (name : Bytes) :
    lookupRecord b.recordStream name (HashedRecord.entry ⟨g.name, offset⟩) =
      some (if g.name = name then [(offset, g.bytes)] else []) := by
  have long := g.twelve_le
  have fits := ok.fits
  have inside : offset + g.bytes.length ≤ uint32Max := by
    have bounds := (starts_bounds _ _ _ _ member).2
    rw [total, ← ok.globalBytes] at bounds
    exact Nat.le_trans bounds fits
  obtain ⟨rest, stands⟩ := drop_of_starts (b.publics.flatMap serializePublic) b.globals
    (g.bytes, offset) (by rw [length_publics ok]; exact member)
  have read := readRecord_of_drop b.recordStream offset g.bytes rest stands g.prefixed (by omega)
  -- the hash record has the offset plus one, and the reader takes the one away
  have off : uint32 (uint32 (offset + 1) + 2 ^ 32 - 1) = offset := by
    unfold uint32Max at inside
    unfold uint32
    omega
  simp only [lookupRecord, HashedRecord.entry, off, read, Option.bind_some, g.getSymbolName_eq,
    Option.map_some]

private theorem findRecordsByName_globals (ok : Exact b sorted) (rangeSort : RangeSort)
    (globals : List GlobalSymbol) (held : b.globals = globals.map GlobalSymbol.bytes)
    (few : b.globals.length * 12 < 2 ^ 32) (name : Bytes) :
    ∃ found, findRecordsByName
        (readTable rangeSort (globalRecords (uint32 b.publicBytes) b.globals)) b.recordStream name =
        some found ∧
      found.Perm ((b.positions.filter (fun entry => getSymbolName entry.1 = some name)).map
        Prod.swap) := by
  have records := globalRecords_exact ok
  have wellFormed : ∀ entry ∈ b.positions, ∃ g : GlobalSymbol, g.bytes = entry.1 := by
    intro entry member
    have inGlobals := mem_of_mem_starts _ _ _ entry member
    rw [held, List.mem_map] at inGlobals
    obtain ⟨g, -, eq⟩ := inGlobals
    exact ⟨g, eq⟩
  have length := length_globalRecords ok
  have looked : ∀ entry ∈ b.positions,
      lookupRecord b.recordStream name
        (HashedRecord.entry ⟨(getSymbolName entry.1).getD [], entry.2⟩) =
        some (if getSymbolName entry.1 = some name then [entry.swap] else []) := by
    rintro ⟨record, offset⟩ member
    obtain ⟨g, rfl⟩ := wellFormed _ member
    have result := lookupRecord_global ok g offset member name
    rw [GlobalSymbol.name] at result
    rw [result]
    simp [g.getSymbolName_eq]
  -- the hash records of the bucket, as positions
  have inBucket := chain_perm rangeSort (globalRecords (uint32 b.publicBytes) b.globals)
    (bucketIdx name)
  rw [findRecordsByName_chain rangeSort _ (by omega)]
  rw [records] at inBucket ⊢
  rw [List.filter_map, List.map_map] at inBucket
  have each : ∀ rec ∈ chain rangeSort (b.positions.map
      (fun entry => ⟨(getSymbolName entry.1).getD [], entry.2⟩)) (bucketIdx name),
      lookupRecord b.recordStream name rec =
        some ((lookupRecord b.recordStream name rec).getD []) := by
    intro rec member
    obtain ⟨entry, inPositions, rfl⟩ := List.mem_map.mp (inBucket.mem_iff.mp member)
    rw [Function.comp_apply, looked entry (List.mem_filter.mp inPositions).1]
    rfl
  rw [mapM_eq_map _ _ _ each]
  refine ⟨_, rfl, ?_⟩
  rw [← List.flatMap_def]
  refine (inBucket.flatMap_right _).trans (List.Perm.of_eq ?_)
  rw [List.flatMap_map]
  have hits : ∀ items : List (Bytes × Nat), (∀ entry ∈ items, entry ∈ b.positions) →
      items.flatMap (fun entry => (lookupRecord b.recordStream name
        (HashedRecord.entry ⟨(getSymbolName entry.1).getD [], entry.2⟩)).getD []) =
      (items.filter (fun entry => getSymbolName entry.1 = some name)).map Prod.swap := by
    intro items subset
    induction items with
    | nil => rfl
    | cons entry rest ih =>
      rw [List.flatMap_cons, looked entry (subset entry (by simp)),
        ih (fun other member => subset other (List.mem_cons_of_mem entry member))]
      by_cases same : getSymbolName entry.1 = some name <;> simp [same]
  refine (hits _ (fun entry member => (List.mem_filter.mp member).1)).trans ?_
  rw [List.filter_filter]
  refine congrArg (List.map Prod.swap) (List.filter_congr (fun entry member => ?_))
  by_cases same : getSymbolName entry.1 = some name <;> simp [same]

/-- The chains hold every offset, plus one, and no other. -/
theorem readTable_offsets (ok : Exact b sorted) (rangeSort : RangeSort)
    (globals : List GlobalSymbol) (held : b.globals = globals.map GlobalSymbol.bytes) :
    ((readTable rangeSort (globalRecords (uint32 b.publicBytes) b.globals)).hashRecords.map
      (fun rec => rec.off - 1)).Perm b.offsets := by
  have entries := (chains_perm rangeSort
    (globalRecords (uint32 b.publicBytes) b.globals)).map (fun rec => rec.off - 1)
  simp only [readTable]
  refine entries.trans (List.Perm.of_eq ?_)
  rw [globalRecords_exact ok, List.map_map, List.map_map, offsets_exact ok]
  refine List.map_congr_left (fun entry member => ?_)
  have bounds := (starts_bounds _ _ _ entry member).2
  have total_le := ok.fits
  rw [total, ← ok.globalBytes] at bounds
  -- a record has at least twelve bytes, so its offset plus one still fits
  have long : 12 ≤ entry.1.length := by
    have inGlobals := mem_of_mem_starts _ _ _ entry member
    rw [held, List.mem_map] at inGlobals
    obtain ⟨g, -, eq⟩ := inGlobals
    exact eq ▸ g.twelve_le
  simp only [Function.comp_apply, HashedRecord.entry]
  unfold uint32Max at total_le
  unfold uint32
  omega

end Globals

private theorem serializedLength_builtTable (rangeSort : RangeSort) (records : List HashedRecord)
    (few : records.length * 12 < 2 ^ 32) :
    (builtTable rangeSort records).calculateSerializedLength =
      (builtTable rangeSort records).stream.length := by
  rw [length_stream, GSIHashStreamBuilder.calculateSerializedLength]
  refine Nat.mod_eq_of_lt ?_
  have words : (builtTable rangeSort records).hashBitmap.length = 129 := by
    simp only [builtTable, bitmap, List.length_map, List.length_range]
    decide
  -- there are no more chain starts than buckets
  have chains : (builtTable rangeSort records).hashBuckets.length ≤ iphrHash := by
    have filtered := List.length_filter_le (inUse records) (List.range iphrHash)
    rw [List.length_range] at filtered
    simpa only [builtTable, List.length_map, used] using filtered
  rw [words, length_builtTable]
  simp only [iphrHash] at chains
  omega

/-- The builder that holds the given globals behind the given publics. -/
def buildGlobals (sort : NameSort) (publicsIn : List BulkPublic) (globals : List GlobalSymbol) :
    GSIStreamBuilder :=
  GSIStreamBuilder.addPublicSymbols sort
    { GSIStreamBuilder.empty with
      globals := globals.map GlobalSymbol.bytes
      globalBytes := ((globals.map GlobalSymbol.bytes).map List.length).sum }
    publicsIn

/-- Every record has at least 12 bytes, so 12 bytes for each hash record fit as well. -/
theorem twelve_mul_length_le (globals : List GlobalSymbol) :
    globals.length * 12 ≤ ((globals.map GlobalSymbol.bytes).map List.length).sum := by
  induction globals with
  | nil => simp
  | cons g rest ih =>
    have long := g.twelve_le
    simp only [List.map_cons, List.sum_cons, List.length_cons]
    omega

/-- The hash stream and the record stream decode to the records they were built from. -/
structure DecodesTo (b : GSIStreamBuilder) (hash : GSIHashStreamBuilder) (stream symbols : Bytes)
    (table : GSIHashTable) : Prop where
  committed : hash.commit ⟨hash.calculateSerializedLength, []⟩ = .ok ⟨stream.length, stream⟩
  recorded : ∀ publicOrder : List BulkPublic, publicOrder.Perm b.publics →
    b.commitSymbolRecordStream publicOrder symbols.length = .ok ⟨symbols.length, symbols⟩
  accepted : GSIHashTable.read stream = .ok table
  found : ∀ name, ∃ found, findRecordsByName table symbols name = some found ∧
    found.Perm ((b.offsets.zip b.globals).filter (fun entry => getSymbolName entry.2 = some name))
  offsets : (table.hashRecords.map (fun rec => rec.off - 1)).Perm b.offsets

theorem globals_hash_decodes (sort : NameSort) (rangeSort : RangeSort)
    (publicsIn : List BulkPublic) (globals : List GlobalSymbol) (nonempty : globals ≠ [])
    (fits : (publicsIn.map sizeOfPublic).sum +
      ((globals.map GlobalSymbol.bytes).map List.length).sum ≤ uint32Max)
    (order : List Nat) (permuted : order.Perm (List.range iphrHash)) :
    ∃ stream symbols table, DecodesTo (buildGlobals sort publicsIn globals)
      ((buildGlobals sort publicsIn globals).finalizeGlobalBuckets rangeSort order)
      stream symbols table := by
  have ok : Exact (buildGlobals sort publicsIn globals) (sort.run publicsIn) :=
    addPublicSymbols_exact sort _ publicsIn rfl fits
  have held : (buildGlobals sort publicsIn globals).globals = globals.map GlobalSymbol.bytes := rfl
  have few := twelve_mul_length_le globals
  generalize buildGlobals sort publicsIn globals = b at ok held
  have length : (globalRecords (uint32 b.publicBytes) b.globals).length = globals.length := by
    rw [length_globalRecords ok, held, List.length_map]
  have small : (globalRecords (uint32 b.publicBytes) b.globals).length * 12 < 2 ^ 32 := by
    rw [length]
    unfold uint32Max at fits
    omega
  have some_record : globalRecords (uint32 b.publicBytes) b.globals ≠ [] := by
    intro empty
    rw [empty] at length
    exact nonempty (List.length_eq_zero_iff.mp length.symm)
  -- The finished table does not depend on the order in which the buckets were finished.
  have built : b.finalizeGlobalBuckets rangeSort order =
      builtTable rangeSort (globalRecords (uint32 b.publicBytes) b.globals) :=
    finalizeBuckets_eq rangeSort _ order permuted small
  refine ⟨(builtTable rangeSort (globalRecords (uint32 b.publicBytes) b.globals)).stream,
    b.recordStream, readTable rangeSort (globalRecords (uint32 b.publicBytes) b.globals), ?_⟩
  constructor
  · rw [built, serializedLength_builtTable rangeSort _ small]
    exact commit_eq _
  · intro publicOrder publicsPermuted
    exact commitSymbolRecordStream_exact ok publicOrder publicsPermuted
  · exact read_builtTable rangeSort _ some_record small
  · intro name
    obtain ⟨found, lookup, permutation⟩ := findRecordsByName_globals ok rangeSort globals held
      (by rw [← length_globalRecords ok]; exact small) name
    refine ⟨found, lookup, permutation.trans (List.Perm.of_eq ?_)⟩
    have zipped : b.offsets.zip b.globals = b.positions.map Prod.swap := by
      rw [← List.zip_swap, offsets_exact ok, zip_starts, GSIStreamBuilder.positions]
    rw [zipped, List.filter_map]
    rfl
  · exact readTable_offsets ok rangeSort globals held

def RangeSort.merge : RangeSort where
  run := fun less range => range.mergeSort (fun a b => !less b a)
  perm := fun _ range => List.mergeSort_perm range _

/-- The typedef `a`. -/
def typedefA : GlobalSymbol where
  bytes := [10, 0, 0x08, 0x11, 1, 16, 0, 0, 0x61, 0, 0, 0]
  global := by decide
  aligned := by decide
  prefixed := by decide
  terminated := ⟨4, by decide, by decide⟩

/-- The constant `b` with the value 5. -/
def constantB : GlobalSymbol where
  bytes := [10, 0, 0x07, 0x11, 0x74, 0, 0, 0, 5, 0, 0x62, 0]
  global := by decide
  aligned := by decide
  prefixed := by decide
  terminated := ⟨6, by decide, by decide⟩

theorem two_globals_decode : [typedefA, constantB] ≠ [] ∧
    ∃ stream symbols table, DecodesTo
      (buildGlobals .insertion [⟨[0x66], 0, 16, 1, 2⟩] [typedefA, constantB])
      ((buildGlobals .insertion [⟨[0x66], 0, 16, 1, 2⟩]
        [typedefA, constantB]).finalizeGlobalBuckets .merge (List.range iphrHash))
      stream symbols table :=
  ⟨List.cons_ne_nil _ _, globals_hash_decodes .insertion .merge [⟨[0x66], 0, 16, 1, 2⟩]
    [typedefA, constantB] (List.cons_ne_nil _ _) (by decide) (List.range iphrHash)
    (List.Perm.refl _)⟩

end LlvmLd.Gsi
