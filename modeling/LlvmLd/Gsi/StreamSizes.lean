import LlvmLd.Gsi.RoundTrip

/-!
`GSIStreamBuilder::finalizeMsfLayout`: the check that the record stream stays below 4 GiB, made
after offsets and bucket starts have been computed in 32 bits.
-/

namespace LlvmLd.Gsi

open CountingSort Placement Codeview

/-! ### The streams of the PDB file -/

inductive LayoutError where
  | insufficientBuffer
  | tooLarge (message : String)
  deriving DecidableEq, Repr

/-- `MSFBuilder`, as far as adding streams looks at it: which blocks are free does not matter. -/
structure MSFBuilder where
  isGrowable : Bool
  blockSize : Nat
  freeBlocks : Nat
  streams : List Nat
  deriving DecidableEq, Repr

def bytesToBlocks (numBytes blockSize : Nat) : Nat := (numBytes + blockSize - 1) / blockSize

def MSFBuilder.allocateBlocks (msf : MSFBuilder) (numBlocks : Nat) :
    Except LayoutError MSFBuilder :=
  if msf.freeBlocks < numBlocks ∧ ¬msf.isGrowable then .error .insufficientBuffer
  -- growing adds just the blocks that are missing
  else .ok { msf with freeBlocks := msf.freeBlocks - numBlocks }

/-- `addStream`: the builder with the stream, and the index of the stream. -/
def MSFBuilder.addStream (msf : MSFBuilder) (size : Nat) : Except LayoutError (MSFBuilder × Nat) :=
  (msf.allocateBlocks (bytesToBlocks size msf.blockSize)).map
    (fun msf => ({ msf with streams := msf.streams ++ [size] }, msf.streams.length))

/-! ### `finalizeMsfLayout` -/

/-- What bucketing reads of the publics. -/
def publicRecords (publics : List BulkPublic) : List HashedRecord :=
  publics.map (fun pub => ⟨pub.name, pub.symOffset⟩)

def GSIStreamBuilder.finalizePublicBuckets (b : GSIStreamBuilder) (rangeSort : RangeSort)
    (order : List Nat) : GSIHashStreamBuilder :=
  finalizeBuckets rangeSort order (publicRecords b.publics)

/-- `sizeof(PublicsStreamHeader)`. -/
def publicsStreamHeader : Nat := 28

def GSIStreamBuilder.calculatePublicsHashStreamSize (b : GSIStreamBuilder)
    (psh : GSIHashStreamBuilder) : Nat :=
  -- the address map has one word for each public
  uint32 (publicsStreamHeader + psh.calculateSerializedLength + b.publics.length * 4)

/-- What `finalizeMsfLayout` leaves in the builders. -/
structure MsfLayout where
  psh : GSIHashStreamBuilder
  gsh : GSIHashStreamBuilder
  globalsStreamIndex : Nat
  publicsStreamIndex : Nat
  recordStreamIndex : Nat
  msf : MSFBuilder
  deriving DecidableEq, Repr

def GSIStreamBuilder.finalizeMsfLayout (b : GSIStreamBuilder) (rangeSort : RangeSort)
    (order : List Nat) (msf : MSFBuilder) : Except LayoutError MsfLayout := do
  let psh := b.finalizePublicBuckets rangeSort order
  let gsh := b.finalizeGlobalBuckets rangeSort order
  let (msf, globalsStreamIndex) ← msf.addStream gsh.calculateSerializedLength
  let (msf, publicsStreamIndex) ← msf.addStream (b.calculatePublicsHashStreamSize psh)
  match b.recordBytes with
  | .error message => .error (.tooLarge message)
  | .ok recordBytes =>
    let (msf, recordStreamIndex) ← msf.addStream recordBytes
    .ok ⟨psh, gsh, globalsStreamIndex, publicsStreamIndex, recordStreamIndex, msf⟩

def TooLarge (result : Except LayoutError MsfLayout) : Prop :=
  ∃ message, result = .error (.tooLarge message)

private theorem addStream_growable (msf : MSFBuilder) (size : Nat)
    (growable : msf.isGrowable = true) :
    ∃ grown index, msf.addStream size = .ok (grown, index) ∧ grown.isGrowable = true := by
  have room : msf.allocateBlocks (bytesToBlocks size msf.blockSize) =
      .ok { msf with freeBlocks := msf.freeBlocks - bytesToBlocks size msf.blockSize } :=
    if_neg (by simp [growable])
  rw [MSFBuilder.addStream, room]
  exact ⟨_, _, rfl, growable⟩

/-- In a file that can grow, the size check is the only one that fails. -/
theorem tooLarge_iff (b : GSIStreamBuilder) (rangeSort : RangeSort) (order : List Nat)
    (msf : MSFBuilder) (growable : msf.isGrowable = true) :
    TooLarge (b.finalizeMsfLayout rangeSort order msf) ↔
      uint32Max < b.publicBytes + b.globalBytes := by
  obtain ⟨first, _, globalsAdded, firstGrowable⟩ := addStream_growable msf
    (b.finalizeGlobalBuckets rangeSort order).calculateSerializedLength growable
  obtain ⟨second, _, publicsAdded, secondGrowable⟩ := addStream_growable first
    (b.calculatePublicsHashStreamSize (b.finalizePublicBuckets rangeSort order)) firstGrowable
  simp only [TooLarge, GSIStreamBuilder.finalizeMsfLayout]
  simp only [globalsAdded, publicsAdded, bind, Except.bind]
  -- a file that can grow refuses none of the three streams, only the sum is checked
  by_cases large : uint32Max < b.publicBytes + b.globalBytes
  · simp [GSIStreamBuilder.recordBytes, large]
  · obtain ⟨third, index, recordsAdded, -⟩ :=
      addStream_growable second (b.publicBytes + b.globalBytes) secondGrowable
    simp [GSIStreamBuilder.recordBytes, large, recordsAdded]

/-! ### Sums in 32 bits -/

private theorem assignOffsets_last (start : Nat) (publics : List BulkPublic)
    (small : start ≤ uint32Max) :
    (assignOffsets start publics).2 = uint32 (start + (publics.map sizeOfPublic).sum) := by
  induction publics generalizing start with
  | nil => simp [assignOffsets, uint32_of_le _ small]
  | cons pub rest ih =>
    rw [assignOffsets, ih _ (uint32_le _), List.map_cons, List.sum_cons]
    unfold uint32
    omega

private theorem addPublicSymbols_globalBytes (sort : NameSort) (b : GSIStreamBuilder)
    (publicsIn : List BulkPublic) :
    (b.addPublicSymbols sort publicsIn).globalBytes = b.globalBytes := rfl

/-- The bytes of all publics. -/
def publicTotal (publicsIn : List BulkPublic) : Nat := (publicsIn.map sizeOfPublic).sum

/-- The bytes of the globals that are kept. -/
def globalTotal (b : GSIStreamBuilder) : Nat := (b.globals.map List.length).sum

private theorem buildRecords_publicBytes (sort : NameSort) (publicsIn : List BulkPublic)
    (globalsIn : List Bytes) :
    (buildRecords sort publicsIn globalsIn).publicBytes = uint32 (publicTotal publicsIn) := by
  have last := assignOffsets_last 0 (sort.run publicsIn) (by decide)
  rw [Nat.zero_add, ((sort.perm publicsIn).map sizeOfPublic).sum_eq] at last
  exact last

private theorem buildRecords_globalBytes (sort : NameSort) (publicsIn : List BulkPublic)
    (globalsIn : List Bytes) :
    (buildRecords sort publicsIn globalsIn).globalBytes =
      globalTotal (buildRecords sort publicsIn globalsIn) :=
  foldl_addGlobalSymbol_globalBytes .empty globalsIn rfl

/-! ### Bucketing without wrapping -/

/-- A symbol record whose name can be read; on others the source stops. -/
structure CVSymbol where
  bytes : Bytes
  prefixed : prefixSize ≤ bytes.length
  named : (getSymbolName bytes).isSome

/-- Hash record offsets and chain starts as they are meant. -/
structure ExactBuckets (hash : GSIHashStreamBuilder) (records : List HashedRecord) : Prop where
  offs : (hash.hashRecords.map PSHashRecord.off).Perm
    (records.map (fun rec => rec.symOffset + 1))
  starts : hash.hashBuckets = (used records).map (fun k => chainStart records k * 12)

/-- In front of no record stand so many in lower buckets that 12 bytes for each overflow. -/
def StartsFit (names : List Bytes) : Prop :=
  ∀ name ∈ names,
    (names.filter (fun other => bucketIdx other < bucketIdx name)).length * 12 ≤ uint32Max

private theorem chainStart_eq_filter (records : List HashedRecord) (k : Nat) :
    chainStart records k =
      ((records.map HashedRecord.name).filter (fun name => bucketIdx name < k)).length := by
  rw [chainStart, scan_counts, bucketKeys, List.filter_map, List.filter_map, List.length_map,
    List.length_map]
  rfl

private theorem mem_used (records : List HashedRecord) (k : Nat) :
    k ∈ used records ↔ ∃ rec ∈ records, bucketIdx rec.name = k := by
  rw [used, List.mem_filter, inUse_iff, chainStart_succ, List.mem_range]
  -- a bucket is in use when its chain does not end where it starts
  have empty : chainStart records k ≠
      chainStart records k + (bucket k (hashEntries records)).length ↔
      bucket k (hashEntries records) ≠ [] := by
    rw [← List.length_pos_iff]
    omega
  rw [empty, ← List.length_pos_iff, length_bucket, hashEntries_keys, bucketKeys, counts_eq, List.count_pos_iff,
    List.mem_map]
  constructor
  · rintro ⟨-, -, found⟩
    exact found
  · rintro ⟨rec, member, rfl⟩
    exact ⟨bucketIdx_lt _, bucketIdx_lt _, rec, member, rfl⟩

section Buckets

variable (rangeSort : RangeSort) (order : List Nat) (records : List HashedRecord)

private theorem finalizeBuckets_hashBuckets :
    (finalizeBuckets rangeSort order records).hashBuckets =
      (used records).map (fun k => uint32 (chainStart records k * 12)) := by
  have cursors : (distribute ⟨0, 0⟩ (hashEntries records)).cursors =
      fun k => chainStart records (k + 1) := funext (cursors_eq records)
  change (List.range bitmapWords).flatMap (chainStarts (chainStart records)
    (distribute ⟨0, 0⟩ (hashEntries records)).cursors) = _
  rw [cursors, chainStarts_eq]

private theorem finalizeBuckets_starts :
    (finalizeBuckets rangeSort order records).hashBuckets =
        (used records).map (fun k => chainStart records k * 12) ↔
      StartsFit (records.map HashedRecord.name) := by
  rw [finalizeBuckets_hashBuckets, List.map_inj_left]
  constructor
  · intro exact_starts name member
    obtain ⟨rec, inRecords, rfl⟩ := List.mem_map.mp member
    have start := exact_starts _ ((mem_used records _).mpr ⟨rec, inRecords, rfl⟩)
    rw [← chainStart_eq_filter, ← start]
    exact uint32_le _
  · intro fit k member
    obtain ⟨rec, inRecords, rfl⟩ := (mem_used records k).mp member
    rw [chainStart_eq_filter]
    exact uint32_of_le _ (fit _ (List.mem_map_of_mem inRecords))

private theorem finalizeBuckets_offs (permuted : order.Perm (List.range iphrHash))
    (small : ∀ rec ∈ records, rec.symOffset < uint32Max) :
    ((finalizeBuckets rangeSort order records).hashRecords.map PSHashRecord.off).Perm
      (records.map (fun rec => rec.symOffset + 1)) := by
  rw [finalizeBuckets_hashRecords rangeSort records order permuted]
  refine ((chains_perm rangeSort records).map PSHashRecord.off).trans (List.Perm.of_eq ?_)
  rw [List.map_map]
  refine List.map_congr_left (fun rec member => ?_)
  exact uint32_of_le _ (small rec member)

end Buckets

/-! ### The check -/

def globalNames (b : GSIStreamBuilder) : List Bytes :=
  b.globals.map (fun symbol => (getSymbolName symbol).getD [])

/--
The size check rejects just the builders whose records take more than 4 GiB, and everything that
was computed before it is exact if it passes.
-/
structure SizesSound (b : GSIStreamBuilder) (publicsIn : List BulkPublic)
    (result : Except LayoutError MsfLayout) : Prop where
  rejected : TooLarge result ↔ uint32Max < publicTotal publicsIn + globalTotal b
  publics : ∀ layout, result = .ok layout → ∀ (i : Nat) (pub : BulkPublic),
    b.publics[i]? = some pub → pub.symOffset = ((b.publics.take i).map sizeOfPublic).sum
  globals : ∀ layout, result = .ok layout → ∀ i offset : Nat, b.offsets[i]? = some offset →
    offset = publicTotal publicsIn + ((b.globals.take i).map List.length).sum
  buckets : ∀ layout, result = .ok layout →
    ExactBuckets layout.psh (publicRecords b.publics) ∧
      ExactBuckets layout.gsh (globalRecords (uint32 b.publicBytes) b.globals)

private theorem finalizeMsfLayout_ok (b : GSIStreamBuilder) (rangeSort : RangeSort)
    (order : List Nat) (msf : MSFBuilder) (growable : msf.isGrowable = true)
    (fits : b.publicBytes + b.globalBytes ≤ uint32Max) :
    ∃ layout, b.finalizeMsfLayout rangeSort order msf = .ok layout ∧
      layout.psh = b.finalizePublicBuckets rangeSort order ∧
      layout.gsh = b.finalizeGlobalBuckets rangeSort order := by
  obtain ⟨first, _, globalsAdded, firstGrowable⟩ := addStream_growable msf
    (b.finalizeGlobalBuckets rangeSort order).calculateSerializedLength growable
  obtain ⟨second, _, publicsAdded, secondGrowable⟩ := addStream_growable first
    (b.calculatePublicsHashStreamSize (b.finalizePublicBuckets rangeSort order)) firstGrowable
  obtain ⟨third, index, recordsAdded, -⟩ :=
    addStream_growable second (b.publicBytes + b.globalBytes) secondGrowable
  simp only [GSIStreamBuilder.finalizeMsfLayout]
  simp only [globalsAdded, publicsAdded, bind, Except.bind, GSIStreamBuilder.recordBytes,
    if_neg (Nat.not_lt.mpr fits), recordsAdded]
  exact ⟨_, rfl, rfl, rfl⟩

private theorem sixteen_le_sizeOfPublic (pub : BulkPublic) : 16 ≤ sizeOfPublic pub := by
  have room := le_alignTo (publicSym32Layout +
    min pub.name.length (maxRecordLength - publicSym32Layout - 1) + 1) 4 (by omega)
  have divides : 4 ∣ sizeOfPublic pub := dvd_alignTo _ _
  unfold sizeOfPublic at divides ⊢
  unfold publicSym32Layout at room divides ⊢
  dsimp only at divides ⊢
  omega

private theorem length_flatMap_serializePublic (pubs : List BulkPublic) :
    (pubs.flatMap serializePublic).length = (pubs.map sizeOfPublic).sum := by
  rw [List.length_flatMap]
  exact congrArg List.sum (List.map_congr_left (fun pub _ => length_serializePublic pub))

section Exact

variable {b : GSIStreamBuilder} {sorted : List BulkPublic}

private theorem public_small (ok : Exact b sorted) (pub : BulkPublic) (member : pub ∈ b.publics) :
    pub.symOffset < uint32Max := by
  obtain ⟨entry, stored, rfl⟩ := (mem_publics ok pub).mp member
  have bounds := (starts_bounds _ _ _ entry stored).2
  have wide := sixteen_le_sizeOfPublic entry.1
  have fits := ok.fits
  rw [ok.publicBytes] at fits
  dsimp only
  omega

private theorem publics_startsFit (ok : Exact b sorted) :
    StartsFit ((publicRecords b.publics).map HashedRecord.name) := by
  -- a public takes 16 bytes of records against 12 of a hash record
  have few : ∀ pubs : List BulkPublic, pubs.length * 16 ≤ (pubs.map sizeOfPublic).sum := by
    intro pubs
    induction pubs with
    | nil => simp
    | cons pub rest ih =>
      have wide := sixteen_le_sizeOfPublic pub
      simp only [List.map_cons, List.sum_cons, List.length_cons]
      omega
  have all := few b.publics
  have total := length_publics ok
  have fits := ok.fits
  rw [length_flatMap_serializePublic] at total
  intro name _
  have some_of := List.length_filter_le
    (fun other => decide (bucketIdx other < bucketIdx name))
    ((publicRecords b.publics).map HashedRecord.name)
  simp only [publicRecords, List.length_map] at some_of ⊢
  omega

private theorem global_small (ok : Exact b sorted) (long : ∀ g ∈ b.globals, prefixSize ≤ g.length)
    (rec : HashedRecord) (member : rec ∈ globalRecords (uint32 b.publicBytes) b.globals) :
    rec.symOffset < uint32Max := by
  rw [globalRecords_exact ok, List.mem_map] at member
  obtain ⟨entry, stored, rfl⟩ := member
  have bounds := (starts_bounds _ _ _ entry stored).2
  have nonempty := long _ (mem_of_mem_starts _ _ _ entry stored)
  have fits := ok.fits
  rw [ok.globalBytes] at fits
  simp only [total] at bounds
  simp only [prefixSize] at nonempty
  dsimp only
  omega

end Exact

private theorem kept_mem (b : GSIStreamBuilder) (symbols : List Bytes) (symbol : Bytes)
    (member : symbol ∈ (symbols.foldl GSIStreamBuilder.addGlobalSymbol b).globals) :
    symbol ∈ b.globals ∨ symbol ∈ symbols := by
  induction symbols generalizing b with
  | nil => exact .inl member
  | cons first rest ih =>
    rcases ih _ member with old | later
    · unfold GSIStreamBuilder.addGlobalSymbol at old
      dsimp only at old
      split at old
      · exact .inl old
      · rw [List.mem_append, List.mem_singleton] at old
        rcases old with old | rfl
        · exact .inl old
        · exact .inr List.mem_cons_self
    · exact .inr (List.mem_cons_of_mem _ later)

private theorem length_globalOffsets (symOffset : Nat) (globals : List Bytes) :
    (globalOffsets symOffset globals).length = globals.length := by
  induction globals generalizing symOffset with
  | nil => rfl
  | cons symbol rest ih => rw [globalOffsets, List.length_cons, List.length_cons, ih]

private theorem globalRecords_names (b : GSIStreamBuilder) (symOffset : Nat) :
    (globalRecords symOffset b.globals).map HashedRecord.name = globalNames b := by
  have heads : (b.globals.zip (globalOffsets symOffset b.globals)).map Prod.fst = b.globals :=
    List.map_fst_zip (Nat.le_of_eq (length_globalOffsets symOffset b.globals).symm)
  rw [globalRecords, List.map_map, globalNames]
  conv_rhs => rw [← heads, List.map_map]
  rfl

/-- The builder with all publics and globals. -/
def symbolRecords (sort : NameSort) (publicsIn : List BulkPublic) (globalsIn : List CVSymbol) :
    GSIStreamBuilder :=
  buildRecords sort publicsIn (globalsIn.map CVSymbol.bytes)

private theorem symbolRecords_prefixed (sort : NameSort) (publicsIn : List BulkPublic)
    (globalsIn : List CVSymbol) (symbol : Bytes)
    (member : symbol ∈ (symbolRecords sort publicsIn globalsIn).globals) :
    prefixSize ≤ symbol.length := by
  rcases kept_mem .empty _ symbol member with old | new
  · cases old
  · obtain ⟨original, -, rfl⟩ := List.mem_map.mp new
    exact original.prefixed

/--
The publics alone fit into 32 bits, or their wrapped sum still makes the total too large; and in
front of no global of an accepted stream stand too many in lower buckets.
-/
def WrapFree (publicsIn : List BulkPublic) (b : GSIStreamBuilder) : Prop :=
  (publicTotal publicsIn ≤ uint32Max ∨
    uint32Max < uint32 (publicTotal publicsIn) + globalTotal b) ∧
  (publicTotal publicsIn + globalTotal b ≤ uint32Max → StartsFit (globalNames b))

/-- Records of at least 12 bytes leave room for 12 bytes each. -/
theorem startsFit_of_twelve (b : GSIStreamBuilder) (long : ∀ g ∈ b.globals, 12 ≤ g.length)
    (fits : globalTotal b ≤ uint32Max) : StartsFit (globalNames b) := by
  -- each global takes as many bytes of records as its hash record
  have all : b.globals.length * 12 ≤ globalTotal b := by
    simp only [globalTotal]
    generalize b.globals = globals at long
    induction globals with
    | nil => simp
    | cons g rest ih =>
      have here := long g List.mem_cons_self
      have later := ih (fun g member => long g (List.mem_cons_of_mem _ member))
      simp only [List.map_cons, List.sum_cons, List.length_cons]
      omega
  intro name _
  have some_of := List.length_filter_le
    (fun other => decide (bucketIdx other < bucketIdx name)) (globalNames b)
  rw [globalNames, List.length_map] at some_of
  rw [globalNames]
  omega

theorem finalizeMsfLayout_sound_iff (sort : NameSort) (rangeSort : RangeSort) (order : List Nat)
    (msf : MSFBuilder) (publicsIn : List BulkPublic) (globalsIn : List CVSymbol)
    (permuted : order.Perm (List.range iphrHash)) (growable : msf.isGrowable = true) :
    SizesSound (symbolRecords sort publicsIn globalsIn) publicsIn
        ((symbolRecords sort publicsIn globalsIn).finalizeMsfLayout rangeSort order msf) ↔
      WrapFree publicsIn (symbolRecords sort publicsIn globalsIn) := by
  have publicBytes : (symbolRecords sort publicsIn globalsIn).publicBytes = _ :=
    buildRecords_publicBytes sort publicsIn (globalsIn.map CVSymbol.bytes)
  have globalBytes : (symbolRecords sort publicsIn globalsIn).globalBytes = _ :=
    buildRecords_globalBytes sort publicsIn (globalsIn.map CVSymbol.bytes)
  have long := symbolRecords_prefixed sort publicsIn globalsIn
  have exact_if : publicTotal publicsIn + globalTotal (symbolRecords sort publicsIn globalsIn) ≤
      uint32Max → Exact (symbolRecords sort publicsIn globalsIn) (sort.run publicsIn) :=
    fun fits => addPublicSymbols_exact sort _ publicsIn
      (foldl_addGlobalSymbol_globalBytes .empty _ rfl) fits
  change _ = globalTotal (symbolRecords sort publicsIn globalsIn) at globalBytes
  generalize symbolRecords sort publicsIn globalsIn = b at *
  have rejects := tooLarge_iff b rangeSort order msf growable
  rw [publicBytes, globalBytes] at rejects
  -- Sound sizes reject what is too large, so no total can wrap to one that is accepted.
  constructor
  · intro sound
    constructor
    · by_contra neither
      obtain ⟨wide, accepted⟩ := not_or.mp neither
      have rejected := sound.rejected.mpr (by omega)
      exact accepted (rejects.mp rejected)
    · intro fits
      have small : uint32 (publicTotal publicsIn) = publicTotal publicsIn :=
        uint32_of_le _ (by omega)
      obtain ⟨layout, ok, -, gsh⟩ := finalizeMsfLayout_ok b rangeSort order msf growable (by omega)
      have starts := (sound.buckets layout ok).2.starts
      rw [gsh] at starts
      rw [← globalRecords_names b (uint32 b.publicBytes)]
      exact (finalizeBuckets_starts rangeSort order _).mp starts
  -- The other way, what is accepted fits, so the exact positions are the ones stored.
  · rintro ⟨wrapped, startsFit⟩
    have rejected : TooLarge (b.finalizeMsfLayout rangeSort order msf) ↔
        uint32Max < publicTotal publicsIn + globalTotal b := by
      rw [rejects]
      rcases wrapped with small | large
      · rw [uint32_of_le _ small]
      · have below : uint32 (publicTotal publicsIn) ≤ publicTotal publicsIn := Nat.mod_le _ _
        omega
    have accepted : ∀ layout, b.finalizeMsfLayout rangeSort order msf = .ok layout →
        publicTotal publicsIn + globalTotal b ≤ uint32Max := by
      intro layout ok
      by_contra large
      obtain ⟨message, error⟩ := rejected.mpr (by omega)
      rw [ok] at error
      cases error
    constructor
    · exact rejected
    -- The publics come first in the record stream,
    · intro layout ok i pub found
      have position := publics_position (exact_if (accepted layout ok)) i pub found
      rwa [length_flatMap_serializePublic] at position
    -- and the globals after them.
    · intro layout ok i offset found
      have exactly := exact_if (accepted layout ok)
      have small : uint32 (publicTotal publicsIn) = publicTotal publicsIn :=
        uint32_of_le _ (by have fits := accepted layout ok; omega)
      have position := globals_position exactly i offset found
      rwa [List.length_append, length_publics exactly, List.length_flatten, publicBytes,
        small] at position
    · intro layout ok
      have exactly := exact_if (accepted layout ok)
      obtain ⟨layout', ok', psh, gsh⟩ :=
        finalizeMsfLayout_ok b rangeSort order msf growable exactly.fits
      rw [ok, Except.ok.injEq] at ok'
      subst ok'
      rw [psh, gsh]
      constructor
      · constructor
        -- Both hash streams are built by one function; the globals may still run over its 32 bits.
        · apply finalizeBuckets_offs rangeSort order _ permuted
          intro rec member
          obtain ⟨pub, inPublics, rfl⟩ := List.mem_map.mp member
          exact public_small exactly pub inPublics
        · exact (finalizeBuckets_starts rangeSort order _).mpr (publics_startsFit exactly)
      · constructor
        · exact finalizeBuckets_offs rangeSort order _ permuted (global_small exactly long)
        · apply (finalizeBuckets_starts rangeSort order _).mpr
          rw [globalRecords_names]
          exact startsFit (accepted layout ok)

/-- The block allocator of a new PDB file, which can grow. -/
def newFile : MSFBuilder := ⟨true, 4096, 0, []⟩

def typedefSymbol : CVSymbol := ⟨typedefA.bytes, by decide, by decide⟩

theorem one_public_one_typedef_sound :
    SizesSound (symbolRecords .insertion [⟨[0x66], 0, 16, 1, 2⟩] [typedefSymbol])
      [⟨[0x66], 0, 16, 1, 2⟩]
      ((symbolRecords .insertion [⟨[0x66], 0, 16, 1, 2⟩] [typedefSymbol]).finalizeMsfLayout .merge
        (List.range iphrHash) newFile) :=
  (finalizeMsfLayout_sound_iff .insertion .merge (List.range iphrHash) newFile
    [⟨[0x66], 0, 16, 1, 2⟩] [typedefSymbol] (List.Perm.refl _) rfl).mpr
    ⟨.inl (by decide), fun _ => startsFit_of_twelve _ (by decide) (by decide)⟩

/-- A public with the longest name that is not cut. -/
def longPublic : BulkPublic := ⟨List.replicate 65265 0x61, 0, 0, 1, 0⟩

def manyPublics : List BulkPublic := List.replicate 65794 longPublic

private theorem publicTotal_manyPublics : publicTotal manyPublics = 65794 * 65280 := by
  have length : longPublic.name.length = 65265 := List.length_replicate
  have size : sizeOfPublic longPublic = 65280 := by
    simp only [sizeOfPublic]
    rw [length]
    rfl
  rw [publicTotal, manyPublics, List.map_replicate, List.sum_replicate, size]
  rfl

/-- The publics take more than 4 GiB, but their wrapped sum is small. -/
theorem manyPublics_not_sound :
    ¬SizesSound (symbolRecords .insertion manyPublics []) manyPublics
      ((symbolRecords .insertion manyPublics []).finalizeMsfLayout .merge
        (List.range iphrHash) newFile) := by
  intro sound
  -- the publics need 4 GiB, and the count that the builder checks has wrapped
  have wide : uint32Max < publicTotal manyPublics + globalTotal
      (symbolRecords .insertion manyPublics []) := by
    rw [publicTotal_manyPublics]
    unfold uint32Max
    omega
  have rejected := (tooLarge_iff _ _ _ _ rfl).mp (sound.rejected.mpr wide)
  have publicBytes : (symbolRecords .insertion manyPublics []).publicBytes = _ :=
    buildRecords_publicBytes .insertion manyPublics []
  have globalBytes : (symbolRecords .insertion manyPublics []).globalBytes = 0 :=
    addPublicSymbols_globalBytes .insertion .empty manyPublics
  rw [publicBytes, globalBytes, publicTotal_manyPublics] at rejected
  revert rejected
  decide

end LlvmLd.Gsi
