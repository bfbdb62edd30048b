import LlvmLd.Input.Flags

/-!
The flag scan against the stream readers it replaced. The readers clamp their last step to the end
of the stream; the scan rounds its position up and then subtracts it from the size.
-/

namespace LlvmLd.Input

open Codeview

/-- `DebugSubsectionRecord`. -/
structure DebugSubsection where
  kind : Nat
  data : Bytes
  deriving DecidableEq, Repr

/-- `DebugSubsectionRecord::initialize`. -/
def DebugSubsection.initialize (stream : Bytes) : Option DebugSubsection :=
  if stream.length < 8 then none
  else if stream.length - 8 < stream.u32At 4 then none
  else some ⟨stream.u32At 0, stream.slice 8 (stream.u32At 4)⟩

def DebugSubsection.getRecordLength (sub : DebugSubsection) : Nat := uint32 (8 + sub.data.length)

/-- `VarStreamArrayExtractor<DebugSubsectionRecord>`: the length to advance by and the record. -/
def extractSubsection (stream : Bytes) : Option (Nat × DebugSubsection) :=
  ( DebugSubsection.initialize stream).map (fun sub =>
    (uint32 (alignTo sub.getRecordLength 4), sub))

/-- `VarStreamArrayIterator::operator+=` until the end, from the stream behind the last record. -/
def nextSubsections (stream : Bytes) : List DebugSubsection :=
  if stream.isEmpty then []
  else
    match extractSubsection stream with
    | none => []
    | some (len, sub) => if 0 < len then sub :: nextSubsections (stream.drop len) else []
  termination_by stream.length
  decreasing_by
    simp_all only [List.isEmpty_iff, List.length_drop]
    have := List.length_pos_iff.mpr ‹stream ≠ []›
    omega

/-- `VarStreamArray::begin`, which does not look at the length of the first record. -/
def subsectionArray (stream : Bytes) : List DebugSubsection :=
  if stream.isEmpty then []
  else
    match extractSubsection stream with
    | none => []
    | some (len, sub) => sub :: nextSubsections (stream.drop len)

/-- The first two records of a subsection through `readCVRecordFromStream`. -/
def scanWithRecordReader (records : Bytes) : Nat → Nat → ObjFile → Except Fault (Bool × ObjFile)
  | 0, _, file => .ok (false, file)
  | i + 1, offset, file =>
    match readRecord records offset with
    | none => .ok (true, file)
    | some sym => do
      let file ← applyFlagRecord file sym
      scanWithRecordReader records i (offset + sym.length) file

def scanSubsections (subs : List DebugSubsection) (file : ObjFile) : Except Fault ObjFile :=
  match subs with
  | [] => .ok file
  | sub :: rest =>
    if sub.kind ≠ subsectionSymbols then scanSubsections rest file
    else do
      let (ended, file) ← scanWithRecordReader sub.data 2 0 file
      if ended then .ok file else scanSubsections rest file

def scanWithReaders (data : Bytes) (file : ObjFile) : Except Fault ObjFile :=
  scanSubsections (subsectionArray data) file

/-! ### Records -/

private theorem scanSubsection_eq_reader (records : Bytes) (i offset : Nat) (file : ObjFile) :
    scanSubsection records i offset file = scanWithRecordReader records i offset file := by
  induction i generalizing offset file with
  | zero => rfl
  | succ i ih =>
    simp only [scanSubsection, scanWithRecordReader, readRecord]
    by_cases noPrefix : records.length - offset < prefixSize
    · rw [if_pos noPrefix, if_pos noPrefix]
    · rw [if_neg noPrefix, if_neg noPrefix]
      by_cases bad : records.u16At offset < 2 ∨ records.length - offset < records.u16At offset + 2
      · simp only [if_pos bad]
      · simp only [if_neg bad, ih]

/-- One of the first two records is truncated or does not deserialize. -/
def EndsScan (records : Bytes) : Prop :=
  (visitedRecords records 2 0).2 = true ∨ ∃ sym ∈ (visitedRecords records 2 0).1, ¬ Decodes sym

private theorem scanWithRecordReader_toOption (records : Bytes) (file : ObjFile) :
    ∃ after, (scanWithRecordReader records 2 0 file).toOption =
      if (visitedRecords records 2 0).1.all (Decodes ·) then
        some ((visitedRecords records 2 0).2, after) else none := by
  rw [← scanSubsection_eq_reader, scanSubsection_eq, foldlM_applyFlagRecord]
  by_cases decode : (visitedRecords records 2 0).1.all (Decodes ·) = true
  · simp only [if_pos decode]
    exact ⟨_, rfl⟩
  · simp only [if_neg decode]
    exact ⟨file, rfl⟩

/-- After an ending subsection nothing that follows matters. -/
theorem scan_of_endsScan (records : Bytes) (file : ObjFile) (ends : EndsScan records)
    (more more' : ObjFile → Except Fault ObjFile) :
    (do let (ended, file) ← scanWithRecordReader records 2 0 file
        if ended then .ok file else more file) =
      (do let (ended, file) ← scanWithRecordReader records 2 0 file
          if ended then .ok file else more' file) := by
  obtain ⟨after, outcome⟩ := scanWithRecordReader_toOption records file
  cases run : scanWithRecordReader records 2 0 file with
  | error fault => rfl
  | ok result =>
    rw [run] at outcome
    -- all records decode, so the scan has reached its end; else it fails before the rest
    by_cases decode : (visitedRecords records 2 0).1.all (Decodes ·) = true
    · have ended : (visitedRecords records 2 0).2 = true := by
        rcases ends with ended | ⟨sym, member, undecoded⟩
        · exact ended
        · have := List.all_eq_true.mp decode sym member
          exact absurd (of_decide_eq_true this) undecoded
      rw [if_pos decode, ended] at outcome
      cases outcome
      rfl
    · rw [if_neg decode] at outcome
      cases outcome

private theorem scan_of_not_endsScan (records : Bytes) (file : ObjFile)
    (goesOn : ¬ EndsScan records) :
    ∃ after, scanWithRecordReader records 2 0 file = .ok (false, after) := by
  obtain ⟨after, outcome⟩ := scanWithRecordReader_toOption records file
  obtain ⟨notOver, decode⟩ := not_or.mp goesOn
  have all : (visitedRecords records 2 0).1.all (Decodes ·) = true := by
    rw [List.all_eq_true]
    intro sym member
    by_contra undecoded
    exact decode ⟨sym, member, by simpa using undecoded⟩
  rw [if_pos all] at outcome
  cases run : scanWithRecordReader records 2 0 file with
  | error fault =>
    rw [run] at outcome
    cases outcome
  | ok result =>
    rw [run] at outcome
    cases outcome
    exact ⟨after, by simp [notOver]⟩

/-! ### Subsections -/

def DebugSubsection.paddedLength (sub : DebugSubsection) : Nat := alignTo (8 + sub.data.length) 4

theorem length_initialize (stream : Bytes) (sub : DebugSubsection)
    (read : DebugSubsection.initialize stream = some sub) :
    8 + sub.data.length ≤ stream.length := by
  simp only [ DebugSubsection.initialize] at read
  split_ifs at read with noHeader noData
  cases read
  have := length_slice stream 8 (stream.u32At 4) (by omega)
  dsimp only
  omega

private theorem paddedLength_pos (sub : DebugSubsection) : 0 < sub.paddedLength := by
  have atLeast := le_alignTo (8 + sub.data.length) 4 (by decide)
  simp only [DebugSubsection.paddedLength]
  omega

/-- In a stream as short as a section the 32-bit lengths do not wrap. -/
theorem extractSubsection_eq (stream : Bytes) (short : stream.length + 4 < 2 ^ 32) :
    extractSubsection stream =
      ( DebugSubsection.initialize stream).map (fun sub => (sub.paddedLength, sub)) := by
  rw [extractSubsection]
  cases read : DebugSubsection.initialize stream with
  | none => rfl
  | some sub =>
    have bound := length_initialize stream sub read
    have padded := alignTo_lt (8 + sub.data.length) 4 (by decide)
    have length : uint32 (alignTo sub.getRecordLength 4) = sub.paddedLength := by
      rw [DebugSubsection.getRecordLength, uint32_of_le (8 + _) (by unfold uint32Max; omega),
        uint32_of_le _ (by unfold uint32Max; omega)]
      rfl
    simp only [Option.map_some, length]

private theorem nextSubsections_eq (stream : Bytes) (short : stream.length + 4 < 2 ^ 32) :
    nextSubsections stream =
      match DebugSubsection.initialize stream with
      | none => []
      | some sub => sub :: nextSubsections (stream.drop sub.paddedLength) := by
  rw [nextSubsections, extractSubsection_eq stream short]
  cases stream with
  | nil => rfl
  | cons byte rest =>
    cases DebugSubsection.initialize (byte :: rest) with
    | none => rfl
    | some sub => simp only [Option.map_some, if_pos (paddedLength_pos sub)]; rfl

private theorem subsectionArray_eq (stream : Bytes) (short : stream.length + 4 < 2 ^ 32) :
    subsectionArray stream = nextSubsections stream := by
  rw [nextSubsections_eq stream short, subsectionArray, extractSubsection_eq stream short]
  cases stream with
  | nil => rfl
  | cons byte rest =>
    cases DebugSubsection.initialize (byte :: rest) with
    | none => rfl
    | some sub => rfl

/-! ### The walk -/

def paddedLengths (subs : List DebugSubsection) : Nat :=
  (subs.map DebugSubsection.paddedLength).sum

/-- The walk from `pos` on never gets behind the end: the padded subsections fit, or the scan ends
in one of them. -/
def StaysInside (data : Bytes) (pos : Nat) : Prop :=
  pos + paddedLengths (nextSubsections (data.drop pos)) ≤ data.length ∨
    ∃ sub ∈ nextSubsections (data.drop pos), sub.kind = subsectionSymbols ∧ EndsScan sub.data

private theorem alignTo_add (pos n : Nat) (aligned : 4 ∣ pos) :
    alignTo (pos + n) 4 = pos + alignTo n 4 := by
  simp only [alignTo]
  omega

private theorem staysInside_of_none (data : Bytes) (pos : Nat) (inside : pos ≤ data.length)
    (none : nextSubsections (data.drop pos) = []) : StaysInside data pos := by
  refine Or.inl ?_
  rw [none]
  exact inside

private theorem staysInside_cons (data : Bytes) (pos : Nat) (sub : DebugSubsection)
    (step : nextSubsections (data.drop pos) =
      sub :: nextSubsections (data.drop (pos + sub.paddedLength))) :
    StaysInside data pos ↔ (sub.kind = subsectionSymbols ∧ EndsScan sub.data) ∨
      StaysInside data (pos + sub.paddedLength) := by
  simp only [StaysInside, paddedLengths]
  rw [step, List.map_cons, List.sum_cons, Nat.add_assoc]
  constructor
  · rintro (fits | ⟨other, member, ends⟩)
    · exact Or.inr (Or.inl fits)
    -- the subsection that ends the scan is this one or a later one
    · rcases List.mem_cons.mp member with rfl | later
      · exact Or.inl ends
      · exact Or.inr (Or.inr ⟨other, later, ends⟩)
  · rintro (ends | fits | ⟨other, later, ends⟩)
    · exact Or.inr ⟨sub, List.mem_cons_self .., ends⟩
    · exact Or.inl fits
    · exact Or.inr ⟨other, List.mem_cons_of_mem _ later, ends⟩

/-- The two outcomes of the walk from `pos` on. -/
def WalkOutcome (data : Bytes) (fuel pos : Nat) (file : ObjFile) : Prop :=
  (StaysInside data pos → walkSubsections data fuel pos file =
    scanSubsections (nextSubsections (data.drop pos)) file) ∧
  (¬ StaysInside data pos → walkSubsections data fuel pos file = .error .outOfBounds)

/-- One round: the outcome from the next header on decides, unless the scan ends here. -/
private theorem walkOutcome_step (data : Bytes) (fuel pos : Nat) (sub : DebugSubsection)
    (file : ObjFile) (step : nextSubsections (data.drop pos) =
      sub :: nextSubsections (data.drop (pos + sub.paddedLength)))
    (round : walkSubsections data (fuel + 1) pos file =
      if sub.kind ≠ subsectionSymbols then
        walkSubsections data fuel (pos + sub.paddedLength) file
      else do
        let (ended, file) ← scanWithRecordReader sub.data 2 0 file
        if ended then .ok file
        else walkSubsections data fuel (pos + sub.paddedLength) file)
    (later : ∀ file, WalkOutcome data fuel (pos + sub.paddedLength) file) :
    WalkOutcome data (fuel + 1) pos file := by
  simp only [WalkOutcome]
  rw [staysInside_cons data pos sub step, step, round, scanSubsections]
  by_cases symbols : sub.kind = subsectionSymbols
  · rw [if_neg (not_not.mpr symbols), if_neg (not_not.mpr symbols)]
    -- Symbols that end the scan settle the outcome; all else leaves it to the rest.
    by_cases ends : EndsScan sub.data
    · constructor
      · intro _
        exact scan_of_endsScan sub.data file ends _ _
      · intro outside
        exact absurd (Or.inl ⟨symbols, ends⟩) outside
    · obtain ⟨after, run⟩ := scan_of_not_endsScan sub.data file ends
      rw [run]
      constructor
      · rintro (⟨-, here⟩ | inside)
        · exact absurd here ends
        · exact (later after).1 inside
      · intro outside
        exact (later after).2 (fun inside => outside (Or.inr inside))
  · rw [if_pos symbols, if_pos symbols]
    constructor
    · rintro (⟨here, -⟩ | inside)
      · exact absurd here symbols
      · exact (later file).1 inside
    · intro outside
      exact (later file).2 (fun inside => outside (Or.inr inside))

private theorem walkOutcome (data : Bytes) (short : data.length + 4 < 2 ^ 32) (fuel pos : Nat)
    (file : ObjFile) (aligned : 4 ∣ pos) (started : 0 < fuel)
    (enough : data.length < pos + fuel) : WalkOutcome data fuel pos file := by
  induction fuel generalizing pos file with
  | zero => omega
  | succ fuel ih =>
    have next := nextSubsections_eq (data.drop pos) (by rw [List.length_drop]; omega)
    rw [ DebugSubsection.initialize, List.length_drop, u32At_drop, u32At_drop] at next
    by_cases behind : data.length < pos
    · -- the position was rounded up past the end
      constructor
      · rintro (fits | ⟨sub, member, -⟩)
        · omega
        · rw [if_pos (by omega)] at next
          simp [next] at member
      · intro _
        rw [walkSubsections, if_pos behind]
    -- Where the header or the data are cut off both readers stop,
    by_cases noHeader : data.length - pos < 8
    · rw [if_pos noHeader] at next
      have inside := staysInside_of_none data pos (by omega) next
      refine ⟨fun _ => ?_, fun outside => absurd inside outside⟩
      rw [walkSubsections, if_neg behind, if_pos noHeader, next, scanSubsections]
    by_cases noData : data.length - pos - 8 < data.u32At (pos + 4)
    · rw [if_neg noHeader, if_pos noData] at next
      have inside := staysInside_of_none data pos (by omega) next
      refine ⟨fun _ => ?_, fun outside => absurd inside outside⟩
      rw [walkSubsections, if_neg behind, if_neg noHeader]
      simp only [if_pos noData]
      rw [next, scanSubsections]
    -- and otherwise they take the same bytes and go on at the same position.
    rw [if_neg noHeader, if_neg noData] at next
    have records : Bytes.slice (data.drop pos) 8 (data.u32At (pos + 4)) =
        data.slice (pos + 8) (data.u32At (pos + 4)) := by
      rw [Bytes.slice, List.drop_drop, Bytes.slice]
    have length := length_slice data (pos + 8) (data.u32At (pos + 4)) (by omega)
    rw [records, Nat.add_zero] at next
    dsimp only at next
    rw [List.drop_drop] at next
    have advance : alignTo (pos + 8 + data.u32At (pos + 4)) 4 =
        pos + DebugSubsection.paddedLength
          ⟨data.u32At pos, data.slice (pos + 8) (data.u32At (pos + 4))⟩ := by
      rw [Nat.add_assoc, alignTo_add pos _ aligned, DebugSubsection.paddedLength]
      simp only [length]
    refine walkOutcome_step data fuel pos _ file next ?_ ?_
    · rw [walkSubsections, if_neg behind, if_neg noHeader]
      simp only [if_neg noData, advance, scanSubsection_eq_reader]
    · intro file
      have padded : DebugSubsection.paddedLength
          ⟨data.u32At pos, data.slice (pos + 8) (data.u32At (pos + 4))⟩ =
            alignTo (8 + data.u32At (pos + 4)) 4 := by
        rw [DebugSubsection.paddedLength]
        simp only [length]
      have atLeast := le_alignTo (8 + data.u32At (pos + 4)) 4 (by decide)
      rw [padded]
      exact ih _ file (Nat.dvd_add aligned (dvd_alignTo _ 4)) (by omega) (by omega)

/-! ### Main result -/

private theorem applyFlagRecord_inside (file : ObjFile) (sym : Bytes) :
    applyFlagRecord file sym ≠ .error .outOfBounds := by
  simp only [applyFlagRecord]
  repeat' split
  all_goals simp

private theorem scanWithRecordReader_inside (records : Bytes) (i offset : Nat) (file : ObjFile) :
    scanWithRecordReader records i offset file ≠ .error .outOfBounds := by
  induction i generalizing offset file with
  | zero => simp [scanWithRecordReader]
  | succ i ih =>
    rw [scanWithRecordReader]
    cases readRecord records offset with
    | none => simp
    | some sym =>
      have applied := applyFlagRecord_inside file sym
      cases run : applyFlagRecord file sym with
      | error fault =>
        rw [run] at applied
        simpa [run, bind, Except.bind] using applied
      | ok after =>
        simp only [run, bind, Except.bind]
        exact ih _ after

/-- The readers never leave the stream. -/
theorem scanSubsections_inside (subs : List DebugSubsection) (file : ObjFile) :
    scanSubsections subs file ≠ .error .outOfBounds := by
  induction subs generalizing file with
  | nil => simp [scanSubsections]
  | cons sub rest ih =>
    rw [scanSubsections]
    split
    · exact ih file
    · have scanned := scanWithRecordReader_inside sub.data 2 0 file
      cases run : scanWithRecordReader sub.data 2 0 file with
      | error fault =>
        rw [run] at scanned
        simpa [run, bind, Except.bind] using scanned
      | ok result =>
        obtain ⟨ended, after⟩ := result
        cases ended with
        | true => simp [bind, Except.bind]
        | false =>
          simp only [bind, Except.bind]
          exact ih after

/-- However long it may run, the walk reads nothing outside `data` and ends as the readers do. -/
def MatchesReaders (data : Bytes) (file : ObjFile) : Prop :=
  ∀ extra, walkSubsections data (data.length + 1 + extra) 0 file ≠ .error .outOfBounds ∧
    walkSubsections data (data.length + 1 + extra) 0 file = scanWithReaders data file

/-- The subsections, each padded to four bytes, end inside `data`, or the scan ends in a symbols
subsection. -/
def PaddedInside (data : Bytes) : Prop :=
  paddedLengths (subsectionArray data) ≤ data.length ∨
    ∃ sub ∈ subsectionArray data, sub.kind = subsectionSymbols ∧ EndsScan sub.data

/-- The hand-written walk and the stream readers agree exactly on the sections whose last
subsection is padded or never walked over. -/
theorem walkSubsections_matches_readers_iff (data : Bytes) (file : ObjFile)
    (short : data.length + 4 < 2 ^ 32) : MatchesReaders data file ↔ PaddedInside data := by
  have condition : PaddedInside data ↔ StaysInside data 0 := by
    rw [PaddedInside, StaysInside, subsectionArray_eq data short, List.drop_zero, Nat.zero_add]
  have outcome := fun extra => walkOutcome data short (data.length + 1 + extra) 0 file
    (Nat.dvd_zero 4) (by omega) (by omega)
  rw [condition]
  constructor
  · intro agrees
    by_contra outside
    exact (agrees 0).1 ((outcome 0).2 outside)
  · intro inside extra
    have run := (outcome extra).1 inside
    rw [run, scanWithReaders, subsectionArray_eq data short, List.drop_zero]
    exact ⟨scanSubsections_inside _ file, rfl⟩

theorem padded_section_matches :
    MatchesReaders [0xf2, 0, 0, 0, 1, 0, 0, 0, 7, 0, 0, 0] {} :=
  (walkSubsections_matches_readers_iff [0xf2, 0, 0, 0, 1, 0, 0, 0, 7, 0, 0, 0] {}
    (by decide)).mpr (Or.inl (by
      have array : subsectionArray [0xf2, 0, 0, 0, 1, 0, 0, 0, 7, 0, 0, 0] =
          ⟨0xf2, [7]⟩ :: nextSubsections [] := rfl
      rw [array, nextSubsections, if_pos (by decide)]
      decide))

/-- A last subsection of one byte, without its padding. -/
theorem unpadded_section_read_outside :
    ¬ MatchesReaders [0xf2, 0, 0, 0, 1, 0, 0, 0, 7] {} := by
  intro agrees
  exact (agrees 0).1 rfl

end LlvmLd.Input
