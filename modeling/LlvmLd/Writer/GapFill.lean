import LlvmLd.Writer.WriteSections

/-!
# The gaps of code sections

The fill of `Writer::writeSections` with INT3, together with the chunk writes that follow it.

Proof strategy: the memsets of the fill are a list of stretches. Because chunks ascend, a stretch
ends where the next chunk starts, so the stretches cover exactly the bytes of the raw data that
belong to no chunk. Chunk writes stay in their chunks, and the sections' raw data lie apart.
-/

namespace LlvmLd.Writer

open Memory Placement

/-- `writeSections`, with the order in which the chunks of each section are written. -/
def writeSections (w : WriteEnv) (ctx : Context) (sections : List OutputSection)
    (orders : OutputSection → List Chunk) (m : Mem) : Mem :=
  sections.foldl (fun m sec => writeSection w ctx sections sec (orders sec) m) m

/-- `c->getRVA() - sec->getRVA()` as a 32-bit value. -/
def OutputSection.offsetOf (sec : OutputSection) (c : Chunk) : Nat :=
  uint32 (c.rva + 2 ^ 32 - sec.virtualAddress)

def OutputSection.Covers (sec : OutputSection) (c : Chunk) (i : Nat) : Prop :=
  sec.offsetOf c ≤ i ∧ i < sec.offsetOf c + c.getSize

instance (sec : OutputSection) (c : Chunk) (i : Nat) : Decidable (sec.Covers c i) :=
  inferInstanceAs (Decidable (_ ∧ _))

/-- The calls of `memset` in the order of the loop, each by the two ends of its stretch. -/
def OutputSection.memsets (sec : OutputSection) : Nat → List Chunk → List (Nat × Nat)
  | prevEnd, [] => [(prevEnd, sec.sizeOfRawData)]
  | prevEnd, c :: rest =>
      if sec.sizeOfRawData ≤ sec.offsetOf c then [(prevEnd, sec.sizeOfRawData)]
      else
        (prevEnd, sec.offsetOf c) ::
          sec.memsets (min (uint32 (sec.offsetOf c + uint32 c.getSize)) sec.sizeOfRawData) rest

/-- What the fill of a section is meant to do; `final` is the buffer behind `writeSections`. -/
structure GapsFilled (sec : OutputSection) (final : Mem) : Prop where
  lengths : ∀ call ∈ sec.memsets 0 sec.chunks, call.1 ≤ call.2
  -- so the 32-bit lengths are the exact ones
  calls : ∀ m, fillGaps sec 0 m sec.chunks =
    fillAll sec.pointerToRawData 0xCC m (sec.memsets 0 sec.chunks)
  inside : ∀ m (x : Int), x < sec.pointerToRawData ∨ sec.pointerToRawData + sec.sizeOfRawData ≤ x →
    fillGaps sec 0 m sec.chunks x = m x
  gaps : ∀ i < sec.sizeOfRawData, (∀ c ∈ sec.chunks, ¬ sec.Covers c i) →
    final (sec.pointerToRawData + i) = 0xCC
  dataless : ∀ i < sec.sizeOfRawData, ∀ c ∈ sec.chunks, c.hasData = false → sec.Covers c i →
    final (sec.pointerToRawData + i) = 0

/--
`hasData` is cleared for input sections with uninitialized data and for `CommonChunk`, which has no
`writeTo`.
-/
def Chunk.StoresNothing (w : WriteEnv) (c : Chunk) : Prop :=
  match c.body with
  | .input _ => True
  | .synthetic _ => w.patches c = []
  | _ => False

instance (w : WriteEnv) (c : Chunk) : Decidable (c.StoresNothing w) :=
  match body : c.body with
  | .input _ => isTrue (by simp [Chunk.StoresNothing, body])
  | .synthetic _ => decidable_of_iff (w.patches c = []) (by simp [Chunk.StoresNothing, body])
  | .importThunkARM64EC _ _ | .rangeThunk _ _ | .baserel _ _ | .codeMap _ | .dynamicRelocs _ =>
      isFalse (by simp [Chunk.StoresNothing, body])

/-! ### The stretches -/

/-- From `prevEnd` on, the chunks ascend and end below 4 GiB. -/
def OutputSection.AscendFrom (sec : OutputSection) (prevEnd : Nat) (chunks : List Chunk) : Prop :=
  (∀ c ∈ chunks, prevEnd ≤ sec.offsetOf c ∧ sec.offsetOf c + c.getSize ≤ uint32Max) ∧
    chunks.Pairwise (fun a b => sec.offsetOf a + a.getSize ≤ sec.offsetOf b)

section Stretches

variable (sec : OutputSection) (prevEnd : Nat) (m : Mem)

/-- The next chunk starts behind the clamped end of this one. -/
theorem ascendFrom_tail (c : Chunk) (rest : List Chunk) (ascend : sec.AscendFrom prevEnd (c :: rest)) :
    uint32 (sec.offsetOf c + uint32 c.getSize) = sec.offsetOf c + c.getSize ∧
      sec.AscendFrom (min (uint32 (sec.offsetOf c + uint32 c.getSize)) sec.sizeOfRawData) rest := by
  obtain ⟨bounds, ordered⟩ := ascend
  rw [List.pairwise_cons] at ordered
  have room := (bounds c List.mem_cons_self).2
  have fits : uint32 (sec.offsetOf c + uint32 c.getSize) = sec.offsetOf c + c.getSize := by
    rw [uint32_of_le c.getSize (by omega), uint32_of_le _ (by omega)]
  refine ⟨fits, ?_, ordered.2⟩
  intro d later
  have behind := ordered.1 d later
  rw [fits]
  exact ⟨by omega, (bounds d (List.mem_cons_of_mem c later)).2⟩

/-- No `memset` has a negative length, and none reaches behind the raw data. -/
theorem memsets_bounds (chunks : List Chunk) (clamped : prevEnd ≤ sec.sizeOfRawData)
    (ascend : sec.AscendFrom prevEnd chunks) (call : Nat × Nat)
    (member : call ∈ sec.memsets prevEnd chunks) :
    call.1 ≤ call.2 ∧ call.2 ≤ sec.sizeOfRawData := by
  induction chunks generalizing prevEnd with
  | nil =>
    rw [OutputSection.memsets, List.mem_singleton] at member
    subst member
    exact ⟨clamped, Nat.le_refl _⟩
  | cons c rest ih =>
    rw [OutputSection.memsets] at member
    by_cases beyond : sec.sizeOfRawData ≤ sec.offsetOf c
    · rw [if_pos beyond, List.mem_singleton] at member
      subst member
      exact ⟨clamped, Nat.le_refl _⟩
    · rw [if_neg beyond] at member
      rcases List.mem_cons.mp member with rfl | later
      · exact ⟨(ascend.1 c List.mem_cons_self).1, by omega⟩
      · exact ih _ (Nat.min_le_right _ _) (ascendFrom_tail sec prevEnd c rest ascend).2 later

/-- The stretches cover the bytes that belong to no chunk, and no others. -/
theorem mem_memsets_iff (chunks : List Chunk) (clamped : prevEnd ≤ sec.sizeOfRawData)
    (ascend : sec.AscendFrom prevEnd chunks) (i : Nat) :
    (∃ call ∈ sec.memsets prevEnd chunks, call.1 ≤ i ∧ i < call.2) ↔
      prevEnd ≤ i ∧ i < sec.sizeOfRawData ∧ ∀ c ∈ chunks, ¬ sec.Covers c i := by
  induction chunks generalizing prevEnd with
  | nil => simp [OutputSection.memsets]
  | cons c rest ih =>
    obtain ⟨fits, tail⟩ := ascendFrom_tail sec prevEnd c rest ascend
    have start := (ascend.1 c List.mem_cons_self).1
    have behind := (List.pairwise_cons.mp ascend.2).1
    rw [OutputSection.memsets]
    by_cases beyond : sec.sizeOfRawData ≤ sec.offsetOf c
    · -- this chunk and all later ones start behind the raw data
      rw [if_pos beyond]
      constructor
      · rintro ⟨call, member, low, high⟩
        rw [List.mem_singleton] at member
        subst member
        refine ⟨low, high, ?_⟩
        intro d member
        have starts : sec.offsetOf c ≤ sec.offsetOf d := by
          rcases List.mem_cons.mp member with rfl | later
          · exact Nat.le_refl _
          · have apart := behind d later
            omega
        rintro ⟨covered, -⟩
        omega
      · rintro ⟨low, high, -⟩
        exact ⟨_, List.mem_singleton_self _, low, high⟩
    -- the stretch in front of this chunk, then those behind it, which start at its end
    · rw [if_neg beyond]
      have later := ih _ (Nat.min_le_right _ _) tail
      rw [fits] at later ⊢
      rw [List.exists_mem_cons_iff, later]
      constructor
      · rintro (⟨low, high⟩ | ⟨low, high, free⟩)
        · refine ⟨low, by omega, ?_⟩
          intro d member
          rintro ⟨covered, -⟩
          rcases List.mem_cons.mp member with rfl | inRest
          · omega
          · have apart := behind d inRest
            omega
        · refine ⟨by omega, high, ?_⟩
          intro d member
          rcases List.mem_cons.mp member with rfl | inRest
          · rintro ⟨-, covered⟩
            omega
          · exact free d inRest
      · rintro ⟨low, high, free⟩
        have notHere : ¬ (sec.offsetOf c ≤ i ∧ i < sec.offsetOf c + c.getSize) :=
          free c List.mem_cons_self
        by_cases first : i < sec.offsetOf c
        · exact Or.inl ⟨low, first⟩
        · exact Or.inr ⟨by omega, high, fun d inRest => free d (List.mem_cons_of_mem c inRest)⟩

/-- The loop makes these calls, and their 32-bit lengths are exact. -/
theorem fillGaps_eq_memsets (chunks : List Chunk) (small : sec.sizeOfRawData ≤ uint32Max)
    (clamped : prevEnd ≤ sec.sizeOfRawData) (ascend : sec.AscendFrom prevEnd chunks) :
    fillGaps sec prevEnd m chunks =
      fillAll sec.pointerToRawData 0xCC m (sec.memsets prevEnd chunks) := by
  have last : uint32 (sec.sizeOfRawData + 2 ^ 32 - prevEnd) = sec.sizeOfRawData - prevEnd := by
    simp only [uint32, uint32Max] at small ⊢
    omega
  induction chunks generalizing prevEnd m with
  | nil =>
    rw [fillGaps, last, OutputSection.memsets, fillAll, List.foldl_cons, List.foldl_nil]
  | cons c rest ih =>
    obtain ⟨-, tail⟩ := ascendFrom_tail sec prevEnd c rest ascend
    have start := ascend.1 c List.mem_cons_self
    -- the chunks ascend, so the unsigned difference does not wrap
    have gap : uint32 (sec.offsetOf c + 2 ^ 32 - prevEnd) = sec.offsetOf c - prevEnd := by
      generalize sec.offsetOf c = offset at start
      simp only [uint32, uint32Max] at start ⊢
      omega
    have unfolded := fillGaps.eq_2 sec prevEnd m c rest
    rw [show uint32 (c.rva + 2 ^ 32 - sec.virtualAddress) = sec.offsetOf c by
      rw [OutputSection.offsetOf]] at unfolded
    rw [unfolded, OutputSection.memsets]
    dsimp only
    by_cases beyond : sec.sizeOfRawData ≤ sec.offsetOf c
    · rw [if_pos beyond, if_pos beyond, last, fillAll, List.foldl_cons, List.foldl_nil]
    · rw [if_neg beyond, if_neg beyond, gap]
      have clampedNext := Nat.min_le_right
        (uint32 (sec.offsetOf c + uint32 c.getSize)) sec.sizeOfRawData
      rw [fillAll, List.foldl_cons]
      refine ih _ _ clampedNext tail ?_
      generalize min (uint32 (sec.offsetOf c + uint32 c.getSize)) sec.sizeOfRawData = next at *
      simp only [uint32, uint32Max] at small ⊢
      omega

end Stretches

/-! ### Chunk writes -/

/-- The bytes that the write of a chunk without an entry thunk may change. -/
def OutputSection.dataRange (sec : OutputSection) (c : Chunk) : Set Int :=
  if c.hasData then Set.Ico (sec.position c) (sec.position c + c.getSize) else ∅

section Writes

variable (w : WriteEnv) (ctx : Context) (sections : List OutputSection) (sec : OutputSection)

private theorem local_writeChunk_data (c : Chunk) (inside : c.FieldsInside)
    (thunkless : c.hasEntryThunk = false) (quiet : c.hasData = false → c.StoresNothing w) :
    Local (sec.dataRange c) (fun m => (writeChunk w ctx sections sec m c).1) := by
  by_cases data : c.hasData = true
  · have written := local_writeChunk w ctx sections c sec inside
    rw [OutputSection.range, thunkless, if_neg Bool.false_ne_true, Int.sub_zero] at written
    rw [OutputSection.dataRange, if_pos data]
    exact written
  · have nothing := quiet (Bool.eq_false_iff.mpr data)
    have unchanged : (fun m => (writeChunk w ctx sections sec m c).1) = fun m => m := by
      funext m
      simp only [writeChunk, thunkless, if_neg Bool.false_ne_true]
      simp only [Chunk.StoresNothing] at nothing
      simp only [Chunk.writeTo]
      -- a chunk without data stores nothing, by what has been assumed of it
      cases body : c.body with
      | input chunk => simp only [if_neg data]
      | synthetic chunk =>
        simp only [body] at nothing
        simp only [nothing, List.foldl_nil]
      | _ =>
        simp only [body] at nothing
    rw [unchanged, OutputSection.dataRange, if_neg data]
    exact Local.id

end Writes

section Stored

variable {ctx : Context} {sec : OutputSection} {rva : Nat}

private theorem offsetOf_of_stored (stored : StoredAt ctx sec rva)
    (small : sec.span ctx ≤ uint32Max) (placed : Chunk × Nat) (member : placed ∈ sec.offsets ctx) :
    sec.offsetOf placed.1 = placed.2 := by
  have bounds := (offset_bounds ctx sec placed member).2.1
  rw [OutputSection.offsetOf, stored.chunk placed member, stored.virtualAddress]
  simp only [uint32, uint32Max] at small ⊢
  omega

private theorem ascendFrom_of_stored (stored : StoredAt ctx sec rva)
    (small : sec.span ctx ≤ uint32Max) :
    sec.AscendFrom 0 sec.chunks := by
  constructor
  · intro c member
    obtain ⟨offset, placed⟩ := exists_offset ctx sec c member
    have exact_offset := offsetOf_of_stored stored small _ placed
    have ends := (offset_bounds ctx sec _ placed).2.1
    dsimp only at exact_offset ends
    rw [exact_offset]
    exact ⟨Nat.zero_le _, by omega⟩
  · rw [← offsetsFrom_map_fst ctx sec.isCodeSection .start sec.chunks, List.pairwise_map]
    have ascending := offsetsFrom_pairwise ctx sec.isCodeSection .start sec.chunks
    refine ascending.imp_of_mem (fun {a b} first second apart => ?_)
    rw [offsetOf_of_stored stored small a first, offsetOf_of_stored stored small b second]
    omega

/-- A chunk write hits the bytes of its chunk; when the address has wrapped it leaves the file. -/
theorem mem_dataRange (stored : StoredAt ctx sec rva) (small : sec.span ctx ≤ uint32Max)
    (inFile : sec.pointerToRawData + sec.rawSpan ctx ≤ uint32Max) (c : Chunk)
    (member : c ∈ sec.chunks) (x : Int) (inFile' : 0 ≤ x) (hit : x ∈ sec.dataRange c) :
    c.hasData = true ∧ ∃ i : Nat, x = sec.pointerToRawData + i ∧ i < sec.rawSpan ctx ∧
      sec.Covers c i := by
  by_cases data : c.hasData = true
  · rw [OutputSection.dataRange, if_pos data, Set.mem_Ico] at hit
    obtain ⟨offset, placed⟩ := exists_offset ctx sec c member
    have exact_offset : sec.offsetOf c = offset := offsetOf_of_stored stored small _ placed
    have ends : offset + c.getSize ≤ sec.rawSpan ctx := (offset_bounds ctx sec _ placed).2.2 data
    -- the position is exact, or 2^32 too low and then outside of the file
    have position : sec.position c = sec.pointerToRawData + offset ∨
        sec.position c = sec.pointerToRawData + offset - 2 ^ 32 := by
      rcases position_of_stored ctx sec rva stored small _ placed with ⟨-, exact_at⟩ | ⟨-, wrapped⟩
      · exact Or.inl exact_at
      · exact Or.inr wrapped
    simp only [uint32Max] at inFile
    refine ⟨data, (x - sec.pointerToRawData).toNat, by omega, by omega, ?_⟩
    rw [OutputSection.Covers, exact_offset]
    omega
  · rw [OutputSection.dataRange, if_neg data] at hit
    exact absurd hit (Set.notMem_empty x)

end Stored

/-! ### The sections of an image -/

/-- What the writer of an x86 or x64 image knows about a laid out section. -/
structure PlainSection (w : WriteEnv) (ctx : Context) (sec : OutputSection) : Prop where
  stored : ∃ rva, StoredAt ctx sec rva
  small : sec.span ctx ≤ uint32Max
  raw_exact : sec.sizeOfRawData = sec.rawSpan ctx
  inFile : sec.sizeOfRawData ≠ 0 → sec.pointerToRawData + sec.sizeOfRawData ≤ uint32Max
  fields : ∀ c ∈ sec.chunks, c.FieldsInside
  thunkless : ∀ c ∈ sec.chunks, c.hasEntryThunk = false
  quiet : ∀ c ∈ sec.chunks, c.hasData = false → c.StoresNothing w

section Image

variable {w : WriteEnv} {ctx : Context} {sections : List OutputSection} {sec : OutputSection}
  {order : List Chunk}

private theorem rawSize_le_of_plain (plain : PlainSection w ctx sec) :
    sec.sizeOfRawData ≤ uint32Max := by
  by_cases empty : sec.sizeOfRawData = 0
  · omega
  · have inFile := plain.inFile empty
    omega

private theorem fillGaps_of_plain (plain : PlainSection w ctx sec) (m : Mem) :
    fillGaps sec 0 m sec.chunks =
      fillAll sec.pointerToRawData 0xCC m (sec.memsets 0 sec.chunks) := by
  obtain ⟨rva, stored⟩ := plain.stored
  exact fillGaps_eq_memsets sec 0 m sec.chunks (rawSize_le_of_plain plain) (Nat.zero_le _)
    (ascendFrom_of_stored stored plain.small)

private theorem fillGaps_outside (plain : PlainSection w ctx sec) (m : Mem) (x : Int)
    (outside : x < sec.pointerToRawData ∨ sec.pointerToRawData + sec.sizeOfRawData ≤ x) :
    fillGaps sec 0 m sec.chunks x = m x := by
  obtain ⟨rva, stored⟩ := plain.stored
  rw [fillGaps_of_plain plain]
  apply fillAll_outside
  intro call member
  have bounds := memsets_bounds sec 0 sec.chunks (Nat.zero_le _)
    (ascendFrom_of_stored stored plain.small) call member
  omega

/-- A cell that no chunk with data covers keeps what the fill has left in it. -/
theorem writeChunks_frame (plain : PlainSection w ctx sec) (permuted : order.Perm sec.chunks)
    (m : Mem) (x : Int) (inFile : 0 ≤ x)
    (uncovered : ∀ c ∈ sec.chunks, c.hasData = true → ∀ i : Nat, x = sec.pointerToRawData + i →
      i < sec.sizeOfRawData → ¬ sec.Covers c i) :
    order.foldl (fun m c => (writeChunk w ctx sections sec m c).1) m x = m x := by
  apply foldl_frame _ sec.dataRange
  · intro c member
    have inSection := permuted.mem_iff.mp member
    exact local_writeChunk_data w ctx sections sec c (plain.fields c inSection)
      (plain.thunkless c inSection) (plain.quiet c inSection)
  · intro c member hit
    have inSection := permuted.mem_iff.mp member
    obtain ⟨rva, stored⟩ := plain.stored
    by_cases empty : sec.sizeOfRawData = 0
    · -- no raw data: every chunk with data is empty
      rw [OutputSection.dataRange] at hit
      by_cases data : c.hasData = true
      · rw [if_pos data, Set.mem_Ico] at hit
        obtain ⟨offset, placed⟩ := exists_offset ctx sec c inSection
        have ends : offset + c.getSize ≤ sec.rawSpan ctx :=
          (offset_bounds ctx sec _ placed).2.2 data
        rw [plain.raw_exact] at empty
        omega
      · rw [if_neg data] at hit
        exact Set.notMem_empty x hit
    -- with raw data, a chunk that writes the byte covers it
    · have room := plain.inFile empty
      rw [plain.raw_exact] at room
      obtain ⟨data, i, here, below, covers⟩ :=
        mem_dataRange stored plain.small room c inSection x inFile hit
      rw [← plain.raw_exact] at below
      exact uncovered c inSection data i here below covers

private theorem writeSection_outside (plain : PlainSection w ctx sec)
    (permuted : order.Perm sec.chunks) (m : Mem) (x : Int) (inFile : 0 ≤ x)
    (outside : x < sec.pointerToRawData ∨ sec.pointerToRawData + sec.sizeOfRawData ≤ x) :
    writeSection w ctx sections sec order m x = m x := by
  simp only [writeSection]
  rw [writeChunks_frame plain permuted _ x inFile]
  · split
    · exact fillGaps_outside plain m x outside
    · rfl
  · intro c member data i here below
    omega

/-- In a section that is filled, gaps hold INT3 and chunks without data keep their bytes. -/
theorem writeSection_inside (plain : PlainSection w ctx sec) (permuted : order.Perm sec.chunks)
    (m : Mem) (code : sec.isCodeSection = true) (x86 : ctx.machine = .amd64 ∨ ctx.machine = .i386)
    (i : Nat) (below : i < sec.sizeOfRawData) :
    ((∀ c ∈ sec.chunks, ¬ sec.Covers c i) →
      writeSection w ctx sections sec order m (sec.pointerToRawData + i) = 0xCC) ∧
    (∀ c ∈ sec.chunks, c.hasData = false → sec.Covers c i →
      writeSection w ctx sections sec order m (sec.pointerToRawData + i) =
        m (sec.pointerToRawData + i)) := by
  obtain ⟨rva, stored⟩ := plain.stored
  have ascend := ascendFrom_of_stored stored plain.small
  have stretches := mem_memsets_iff sec 0 sec.chunks (Nat.zero_le _) ascend i
  simp only [writeSection]
  rw [if_pos (And.intro code x86), fillGaps_of_plain plain]
  constructor
  -- No chunk writes to a gap, so the fill stands.
  · intro free
    rw [writeChunks_frame plain permuted _ _ (by omega)]
    · obtain ⟨call, member, low, high⟩ := stretches.mpr ⟨Nat.zero_le _, below, free⟩
      apply fillAll_inside
      exact Or.inr ⟨call, member, by omega, by omega⟩
    · intro c member data j here inRaw
      obtain rfl : i = j := by omega
      exact free c member
  · intro c member dataless covers
    rw [writeChunks_frame plain permuted _ _ (by omega)]
    · apply fillAll_outside
      intro call inCalls
      by_contra touched
      exact (stretches.mp ⟨call, inCalls, by omega, by omega⟩).2.2 c member covers
    · -- chunks ascend, so only one of them covers a byte
      intro d inSection data j here inRaw coversToo
      obtain rfl : i = j := by omega
      have different : c ≠ d := by
        rintro rfl
        rw [dataless] at data
        exact Bool.false_ne_true data
      have apart : sec.offsetOf c + c.getSize ≤ sec.offsetOf d ∨
          sec.offsetOf d + d.getSize ≤ sec.offsetOf c := by
        have symmetric : Std.Symm (fun a b => sec.offsetOf a + a.getSize ≤ sec.offsetOf b ∨
            sec.offsetOf b + b.getSize ≤ sec.offsetOf a) := ⟨fun _ _ either => either.symm⟩
        have ordered : sec.chunks.Pairwise (fun a b => sec.offsetOf a + a.getSize ≤ sec.offsetOf b ∨
            sec.offsetOf b + b.getSize ≤ sec.offsetOf a) := ascend.2.imp Or.inl
        exact ordered.forall member inSection different
      simp only [OutputSection.Covers] at covers coversToo
      omega

end Image

/-- The cells of a section's raw data are changed by that section's writes only. -/
theorem writeSections_at (w : WriteEnv) (ctx : Context) (all : List OutputSection)
    (orders : OutputSection → List Chunk) (front back : List OutputSection) (sec : OutputSection)
    (plain : ∀ other ∈ front ++ sec :: back, PlainSection w ctx other)
    (permuted : ∀ other ∈ front ++ sec :: back, (orders other).Perm other.chunks)
    (apart : ((front ++ sec :: back).filter (fun other => other.sizeOfRawData ≠ 0)).Pairwise
      (fun a b => a.pointerToRawData + a.sizeOfRawData ≤ b.pointerToRawData))
    (i : Nat) (below : i < sec.sizeOfRawData) (m : Mem) :
    ∃ before : Mem, before (sec.pointerToRawData + i) = m (sec.pointerToRawData + i) ∧
      (front ++ sec :: back).foldl (fun m other => writeSection w ctx all other (orders other) m) m
          (sec.pointerToRawData + i) =
        writeSection w ctx all sec (orders sec) before (sec.pointerToRawData + i) := by
  rw [List.pairwise_filter, List.pairwise_append, List.pairwise_cons] at apart
  obtain ⟨-, ⟨inBack, -⟩, inFront⟩ := apart
  have here : decide (sec.sizeOfRawData ≠ 0) = true := decide_eq_true (by omega)
  -- Another section that has raw data has it elsewhere in the file; one without writes nothing.
  have outside : ∀ other, other ∈ front ∨ other ∈ back → ∀ n,
      writeSection w ctx all other (orders other) n (sec.pointerToRawData + i) =
        n (sec.pointerToRawData + i) := by
    intro other side n
    have known : other ∈ front ++ sec :: back := by
      rcases side with first | last
      · exact List.mem_append_left _ first
      · exact List.mem_append_right _ (List.mem_cons_of_mem sec last)
    apply writeSection_outside (plain other known) (permuted other known) n _ (by omega)
    by_cases empty : other.sizeOfRawData = 0
    · omega
    · rcases side with first | last
      · have ordered := inFront other first sec List.mem_cons_self (decide_eq_true empty) here
        omega
      · have ordered := inBack other last here (decide_eq_true empty)
        omega
  -- By induction a run of other sections leaves the byte alone.
  have keeps : ∀ part : List OutputSection, (∀ other ∈ part, other ∈ front ∨ other ∈ back) → ∀ n,
      part.foldl (fun m other => writeSection w ctx all other (orders other) m) n
        (sec.pointerToRawData + i) = n (sec.pointerToRawData + i) := by
    intro part side
    induction part with
    | nil => exact fun _ => rfl
    | cons other rest ih =>
      intro n
      rw [List.foldl_cons, ih (fun s later => side s (List.mem_cons_of_mem other later))]
      exact outside other (side other List.mem_cons_self) n
  rw [List.foldl_append, List.foldl_cons, keeps back (fun _ => Or.inr)]
  exact ⟨_, keeps front (fun _ => Or.inl) m, rfl⟩

/--
In an x86 or x64 image for which no error is reported, and whose relocations lie in their chunks
with their whole field, the fill touches exactly the gaps of the code sections.
-/
theorem writeSections_fills_gaps (w : WriteEnv) (ctx : Context) (sections : List OutputSection)
    (tables : Option Nat) (x86 : ctx.machine = .amd64 ∨ ctx.machine = .i386)
    (clean : ReportsNoError ctx (assignAddresses ctx sections) tables)
    (thunkless : ∀ sec ∈ (assignAddresses ctx sections).sections, ∀ c ∈ sec.chunks,
      c.hasEntryThunk = false)
    (quiet : ∀ sec ∈ (assignAddresses ctx sections).sections, ∀ c ∈ sec.chunks,
      c.hasData = false → c.StoresNothing w)
    (fields : ∀ sec ∈ (assignAddresses ctx sections).sections, ∀ c ∈ sec.chunks, c.FieldsInside)
    (orders : OutputSection → List Chunk)
    (permuted : ∀ sec ∈ (assignAddresses ctx sections).sections, (orders sec).Perm sec.chunks)
    (m : Mem) (blank : ∀ x : Int, (assignAddresses ctx sections).sizeOfHeaders ≤ x →
      x < (assignAddresses ctx sections).fileSize → m x = 0)
    (sec : OutputSection) (member : sec ∈ (assignAddresses ctx sections).sections)
    (code : sec.isCodeSection = true) :
    GapsFilled sec (writeSections w ctx (assignAddresses ctx sections).sections orders m) := by
  have assigned := assignAddresses_assigned ctx sections
  generalize assignAddresses ctx sections = out at *
  -- Without a reported error no size and no position was cut to 32 bits.
  have raw_exact := sizeOfRawData_exact assigned clean
  have filed : ∀ entry ∈ filePositions ctx out.sections, entry.1.rawSpan ctx ≠ 0 →
      entry.1.pointerToRawData = entry.2 := by
    intro entry inFile raw
    have bound := filePosition_le assigned clean entry inFile
    rw [assigned.pointers entry inFile raw, uint32_of_le _ (by omega)]
  have plain : ∀ other ∈ out.sections, PlainSection w ctx other := by
    intro other known
    obtain ⟨rva, placed⟩ :=
      exists_mem_starts (imageRoom ctx) (firstAddress ctx out.sections) _ other known
    obtain ⟨position, inFile⟩ :=
      exists_mem_starts (fileRoom ctx) (headerSize ctx out.sections.length) _ other known
    refine ⟨⟨rva, assigned.stored _ placed⟩, assigned.small clean.1 other known,
      raw_exact other known, ?_, fields other known, thunkless other known, quiet other known⟩
    intro raw
    rw [raw_exact other known] at raw ⊢
    have at_position : other.pointerToRawData = position := filed _ inFile raw
    have bound : position + other.rawSpan ctx ≤ uint32Max := filePosition_le assigned clean _ inFile
    omega
  -- The bytes of the section lie behind the headers and in the file: they start out as zero.
  have inBuffer : ∀ i < sec.sizeOfRawData, m (sec.pointerToRawData + i) = 0 := by
    intro i below
    obtain ⟨position, inFile⟩ :=
      exists_mem_starts (fileRoom ctx) (headerSize ctx out.sections.length) _ sec member
    have bounds : headerSize ctx out.sections.length ≤ position ∧
        position + fileRoom ctx sec ≤
          total (fileRoom ctx) (headerSize ctx out.sections.length) out.sections :=
      starts_bounds _ _ _ _ inFile
    have room : sec.rawSpan ctx ≤ fileRoom ctx sec := le_alignTo _ _ (fileAlign_pos ctx)
    rw [raw_exact sec member] at below
    have raw : sec.rawSpan ctx ≠ 0 := by omega
    have at_position : sec.pointerToRawData = position := filed _ inFile raw
    rw [← assigned.file, ← assigned.headers] at bounds
    apply blank
    · omega
    · omega
  -- Sections do not overlap in the file, so one section's bytes are its own writer's alone.
  have ordered := raw_apart_of_exact raw_exact filed
  obtain ⟨rva, stored⟩ := (plain sec member).stored
  have ascend := ascendFrom_of_stored stored (plain sec member).small
  have only : ∀ i < sec.sizeOfRawData, ∃ before : Mem, before (sec.pointerToRawData + i) = 0 ∧
      writeSections w ctx out.sections orders m (sec.pointerToRawData + i) =
        writeSection w ctx out.sections sec (orders sec) before (sec.pointerToRawData + i) := by
    intro i below
    obtain ⟨front, back, split⟩ := List.append_of_mem member
    rw [← inBuffer i below]
    rw [writeSections]
    generalize out.sections = all at *
    subst split
    exact writeSections_at w ctx _ orders front back sec plain permuted ordered i below m
  -- What is left is about `writeSection` alone.
  constructor
  · intro call inCalls
    exact (memsets_bounds sec 0 sec.chunks (Nat.zero_le _) ascend call inCalls).1
  · exact fillGaps_of_plain (plain sec member)
  · exact fillGaps_outside (plain sec member)
  · intro i below free
    obtain ⟨before, -, same⟩ := only i below
    rw [same]
    exact (writeSection_inside (plain sec member) (permuted sec member) before code x86 i
      below).1 free
  · intro i below c inSection dataless covers
    obtain ⟨before, zero, same⟩ := only i below
    rw [same, ← zero]
    exact (writeSection_inside (plain sec member) (permuted sec member) before code x86 i
      below).2 c inSection dataless covers

/-- A `.text` with a gap, a chunk without data in the middle and one that holds nothing. -/
def gappedImage : List OutputSection :=
  [{ plainSection ".text" [plainChunk 2 3 0 true, plainChunk 3 5 2 false, plainChunk 4 0 2 true,
      plainChunk 5 2 4 true, plainChunk 6 600 4 false] with isCodeSection := true }]

theorem gappedImage_fills_gaps :
    ∃ sec ∈ (assignAddresses (.default .amd64) gappedImage).sections,
      GapsFilled sec
        (writeSections countingEnv (.default .amd64)
          (assignAddresses (.default .amd64) gappedImage).sections OutputSection.chunks
          (fun _ => 0)) := by
  refine ⟨_, List.mem_cons_self, ?_⟩
  refine writeSections_fills_gaps countingEnv (.default .amd64) gappedImage none (Or.inl rfl) ?_
    ?_ ?_ ?_ OutputSection.chunks (fun _ _ => List.Perm.refl _) (fun _ => 0) (fun _ _ _ => rfl) _
    List.mem_cons_self rfl
  · simp only [ReportsNoError]
    decide
  · decide
  · -- every chunk is an input section
    intro sec member c inSection _
    have input : ∀ d ∈ ((assignAddresses (.default .amd64) gappedImage).sections).flatMap
        OutputSection.chunks, d.StoresNothing countingEnv := by
      decide
    exact input c (List.mem_flatMap.mpr ⟨sec, member, inSection⟩)
  · decide

/-- A pointer at offset 3 of a chunk of 4 bytes, then two bytes without data. -/
def overrunImage : List OutputSection :=
  [{ plainSection ".text" [pointingChunk 2 4 3, plainChunk 3 2 0 false] with
      isCodeSection := true }]

/-- 16 bytes of data and a chunk without data that ends behind 4 GiB. -/
def overgrownImage : List OutputSection :=
  [{ plainSection ".text" [plainChunk 2 16 0 true, plainChunk 3 0xFFFFFFF8 0 false] with
      isCodeSection := true }]

/--
A relocation that starts in its chunk and ends behind it changes bytes of a chunk without data and
of the gap. In a section over 4 GiB the 32-bit end of a chunk wraps, and a chunk without data is
filled.
-/
theorem overrun_leaves_gap :
    (ReportsNoError (.default .amd64) (assignAddresses (.default .amd64) overrunImage) none ∧
      ∃ sec ∈ (assignAddresses (.default .amd64) overrunImage).sections,
        sec.isCodeSection = true ∧
        (∀ c ∈ sec.chunks, ∀ field ∈ c.fields, field.1 < c.getSize) ∧
        ¬ GapsFilled sec
          (writeSections countingEnv (.default .amd64)
            (assignAddresses (.default .amd64) overrunImage).sections OutputSection.chunks
            (fun _ => 0))) ∧
    ∃ sec ∈ (assignAddresses (.default .amd64) overgrownImage).sections,
      sec.isCodeSection = true ∧
      (∀ c ∈ sec.chunks, c.FieldsInside) ∧
      ¬ GapsFilled sec
        (writeSections countingEnv (.default .amd64)
          (assignAddresses (.default .amd64) overgrownImage).sections OutputSection.chunks
          (fun _ => 0)) := by
  constructor
  · refine ⟨?_, _, List.mem_cons_self, rfl, by decide, ?_⟩
    · simp only [ReportsNoError]
      decide
    · intro filled
      exact absurd (filled.gaps 6 (by decide) (by decide)) (by decide)
  · refine ⟨_, List.mem_cons_self, rfl, by decide, ?_⟩
    intro filled
    have covered := filled.dataless 16 (by decide) (plainChunk 3 0xFFFFFFF8 0 false |>.setRVA 4112)
      (List.mem_cons_of_mem _ List.mem_cons_self) rfl (by decide)
    exact absurd covered (by decide)

end LlvmLd.Writer
