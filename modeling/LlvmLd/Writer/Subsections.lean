import Mathlib.Data.List.Induction
import Mathlib.Data.List.TakeWhile
import LlvmLd.Writer.WriteSections

/-!
# Relocating a section piece by piece

`SectionChunk::writeAndRelocateSubsection` and `DebugSHandler::advanceRelocIndex`, against
`SectionChunk::writeTo`. The relocation index that successive calls share is modelled as the list
of relocations from that index on.
-/

namespace LlvmLd.Writer

open Memory

section Source

variable (w : WriteEnv) (ctx : Context) (sections : List OutputSection) (c : Chunk)
  (machine : Machine)

/-- The loop of `writeAndRelocateSubsection`: the memory, the errors and the relocations from the
new `nextRelocIndex` on. -/
def relocateSubsection (vaBegin vaEnd : Nat) (buf : Int) :
    Mem → List Relocation → Mem × List String × List Relocation
  | m, [] => (m, [], [])
  | m, rel :: rest =>
      if rel.virtualAddress < vaBegin then relocateSubsection vaBegin vaEnd buf m rest
      -- the sum is a 32-bit one
      else if vaEnd ≤ uint32 (rel.virtualAddress + 1) then (m, [], rel :: rest)
      else
        let place := buf + (rel.virtualAddress - vaBegin : Nat)
        let (m, first) := applyRelocation w ctx sections c machine m place rel
        let (m, errors, next) := relocateSubsection vaBegin vaEnd buf m rest
        (m, first ++ errors, next)

def writeAndRelocateSubsection (vaBegin vaEnd : Nat) (next : List Relocation) (buf : Int)
    (m : Mem) : Mem × List String × List Relocation :=
  let subsec := ((w.contents c).drop vaBegin).take (vaEnd - vaBegin)
  relocateSubsection w ctx sections c machine vaBegin vaEnd buf (writeBytes m buf subsec) next

end Source

def advanceRelocIndex (vaBegin : Nat) (next : List Relocation) : List Relocation :=
  next.dropWhile (fun rel => rel.virtualAddress < uint32 vaBegin)

/-! ### The relocations of a subsection -/

/-- The loop ends in front of such a relocation. -/
def Relocation.Stops (vaBegin vaEnd : Nat) (rel : Relocation) : Prop :=
  vaBegin ≤ rel.virtualAddress ∧ vaEnd ≤ uint32 (rel.virtualAddress + 1)

instance (vaBegin vaEnd : Nat) (rel : Relocation) : Decidable (rel.Stops vaBegin vaEnd) :=
  inferInstanceAs (Decidable (_ ∧ _))

/-- The relocations that one call applies. -/
def appliedRelocs (vaBegin vaEnd : Nat) (next : List Relocation) : List Relocation :=
  (next.takeWhile (fun rel => ¬ rel.Stops vaBegin vaEnd)).filter (vaBegin ≤ ·.virtualAddress)

/-- The relocations that one call leaves to the next. -/
def leftRelocs (vaBegin vaEnd : Nat) (next : List Relocation) : List Relocation :=
  next.dropWhile (fun rel => ¬ rel.Stops vaBegin vaEnd)

section Loop

variable (w : WriteEnv) (ctx : Context) (sections : List OutputSection) (c : Chunk)
  (machine : Machine)

/-- Applying a list of relocations, the byte `origin` of the section standing at `buf`. -/
def patchAll (origin : Nat) (buf : Int) (m : Mem) (rels : List Relocation) : Mem :=
  rels.foldl (fun m rel => (applyRelocation w ctx sections c machine m
    (buf + (rel.virtualAddress - origin : Nat)) rel).1) m

theorem relocateSubsection_eq (vaBegin vaEnd : Nat) (buf : Int) (m : Mem)
    (next : List Relocation) :
    (relocateSubsection w ctx sections c machine vaBegin vaEnd buf m next).1 =
        patchAll w ctx sections c machine vaBegin buf m (appliedRelocs vaBegin vaEnd next) ∧
      (relocateSubsection w ctx sections c machine vaBegin vaEnd buf m next).2.2 =
        leftRelocs vaBegin vaEnd next := by
  induction next generalizing m with
  | nil => exact ⟨rfl, rfl⟩
  | cons rel rest ih =>
    simp only [relocateSubsection, appliedRelocs, leftRelocs]
    -- in front of the slice, at its end or inside of it
    by_cases before : rel.virtualAddress < vaBegin
    · have goesOn : ¬ rel.Stops vaBegin vaEnd := fun stops => by
        have behind := stops.1
        omega
      have skipped : ¬ vaBegin ≤ rel.virtualAddress := by omega
      rw [if_pos before]
      simpa [goesOn, skipped, appliedRelocs, leftRelocs] using ih m
    · rw [if_neg before]
      by_cases ends : vaEnd ≤ uint32 (rel.virtualAddress + 1)
      · have stops : rel.Stops vaBegin vaEnd := ⟨by omega, ends⟩
        rw [if_pos ends]
        simp [stops, patchAll]
      · have goesOn : ¬ rel.Stops vaBegin vaEnd := fun stops => ends stops.2
        have taken : vaBegin ≤ rel.virtualAddress := by omega
        rw [if_neg ends]
        simpa [goesOn, taken, patchAll, appliedRelocs, leftRelocs] using ih _

private theorem placeFree_applyRelocation (rel : Relocation) :
    PlaceFree (fun m off => (applyRelocation w ctx sections c machine m off rel).1) := by
  simp only [applyRelocation]
  cases resolve w ctx sections rel.target with
  | none => exact placeFree_id
  | some symbol => exact placeFree_applyRel machine _ rel.type

theorem patchAll_shifted (origin : Nat) (d buf : Int) (m : Mem) (rels : List Relocation) :
    patchAll w ctx sections c machine origin buf (shifted d m) rels =
      shifted d (patchAll w ctx sections c machine origin (buf + d) m rels) := by
  induction rels generalizing m with
  | nil => rfl
  | cons rel rest ih =>
    have moved := placeFree_applyRelocation w ctx sections c machine rel d m
      (buf + (rel.virtualAddress - origin : Nat))
    dsimp only at moved
    simp only [patchAll]
    rw [List.foldl_cons, List.foldl_cons, moved, Int.add_right_comm]
    exact ih _

/-- Where the origin stands in memory is what counts. -/
theorem patchAll_origin (origin : Nat) (buf : Int) (m : Mem) (rels : List Relocation)
    (behind : ∀ rel ∈ rels, origin ≤ rel.virtualAddress) :
    patchAll w ctx sections c machine origin buf m rels =
      patchAll w ctx sections c machine 0 (buf - origin) m rels := by
  induction rels generalizing m with
  | nil => rfl
  | cons rel rest ih =>
    have first := behind rel (by simp)
    have place : buf + (rel.virtualAddress - origin : Nat) =
        buf - origin + (rel.virtualAddress - 0 : Nat) := by omega
    simp only [patchAll]
    rw [List.foldl_cons, List.foldl_cons, place]
    exact ih _ (fun other member => behind other (by simp [member]))

private theorem applyRelocations_eq (buf : Int) (m : Mem) (rels : List Relocation) :
    (applyRelocations w ctx sections c machine buf m rels).1 =
      patchAll w ctx sections c machine 0 buf m
        (rels.filter (·.virtualAddress < c.getSize)) := by
  induction rels generalizing m with
  | nil => rfl
  | cons rel rest ih =>
    simp only [applyRelocations]
    by_cases beyond : c.getSize ≤ rel.virtualAddress
    · have dropped : ¬ rel.virtualAddress < c.getSize := by omega
      simpa [beyond, dropped] using ih m
    · have kept : rel.virtualAddress < c.getSize := by omega
      simpa [beyond, kept, patchAll] using ih _

end Loop

/-! ### Sections in pieces -/

/-- A piece of the section; `advanceRelocIndex` may be called in front of it, and it is written or
skipped. -/
structure Slice where
  vaBegin : Nat
  vaEnd : Nat
  advance : Bool
  written : Bool
  deriving DecidableEq, Repr

def Slice.start (s : Slice) (next : List Relocation) : List Relocation :=
  if s.advance then advanceRelocIndex s.vaBegin next else next

/-- A section with its relocations sorted, and ascending pieces of it. -/
structure Sliced where
  w : WriteEnv
  ctx : Context
  sections : List OutputSection
  c : Chunk
  chunk : SectionChunk
  slices : List Slice
  is_input : c.body = .input chunk
  has_data : c.hasData = true
  size_lt : c.getSize < 2 ^ 32
  va_lt : ∀ rel ∈ chunk.relocs, rel.virtualAddress < 2 ^ 32
  sorted : chunk.relocs.Pairwise (fun r s => r.virtualAddress ≤ s.virtualAddress)
  inside : ∀ s ∈ slices, s.vaBegin < s.vaEnd ∧ s.vaEnd ≤ (w.contents c).length
  ascending : slices.Pairwise (fun s t => s.vaEnd ≤ t.vaBegin)
  unsplit : ∀ s ∈ slices, ∀ edge ∈ [s.vaBegin, s.vaEnd], ∀ rel ∈ chunk.relocs,
    rel.virtualAddress < edge →
      rel.virtualAddress + relocWidth chunk.machine rel.type ≤ edge

namespace Sliced

variable (z : Sliced)

def write (s : Slice) (next : List Relocation) (buf : Int) (m : Mem) :
    Mem × List String × List Relocation :=
  writeAndRelocateSubsection z.w z.ctx z.sections z.c z.chunk.machine s.vaBegin s.vaEnd
    (s.start next) buf m

/-- `writeTo` of the whole section. -/
def whole (base : Int) (m : Mem) : Mem := (z.c.writeTo z.w z.ctx z.sections base m).1

/-- The shared index after the given pieces; the memory and the buffer are new for each call. -/
inductive Reached : List Slice → List Relocation → Prop
  | start : Reached [] z.chunk.relocs
  | skip {done : List Slice} {next : List Relocation} (s : Slice) (skipped : s.written = false)
      (before : Reached done next) : Reached (done ++ [s]) (s.start next)
  | write {done : List Slice} {next : List Relocation} (s : Slice) (written : s.written = true)
      (buf : Int) (m : Mem) (before : Reached done next) :
      Reached (done ++ [s]) (z.write s next buf m).2.2

/-- The relocation gets to its field: its symbol is there, its type has a field, and it is not a
section-relative one that is refused. -/
structure Live (rel : Relocation) : Prop where
  width : 0 < relocWidth z.chunk.machine rel.type
  resolved : ∃ symbol, resolve z.w z.ctx z.sections rel.target = some symbol ∧
    ¬ SecRelRefused z.chunk.machine symbol.1 symbol.2 rel.type

/-- One call leaves the bytes of `writeTo` in its buffer, and works on nothing outside of it. -/
structure WritesExactly (s : Slice) (next : List Relocation) (buf : Int) (m : Mem) : Prop where
  bytes : ∀ (base : Int) (old : Mem), ∀ i < s.vaEnd - s.vaBegin,
    (z.write s next buf m).1 (buf + i) = z.whole base old (base + (s.vaBegin + i : Nat))
  frame : ∀ a, a ∉ Set.Ico buf (buf + (s.vaEnd - s.vaBegin : Nat)) →
    (z.write s next buf m).1 a = m a
  fields : ∀ rel ∈ appliedRelocs s.vaBegin s.vaEnd (s.start next), z.Live rel →
    s.vaBegin ≤ rel.virtualAddress ∧
      rel.virtualAddress + relocWidth z.chunk.machine rel.type ≤ s.vaEnd

def Exact : Prop :=
  ∀ done s rest next, z.slices = done ++ s :: rest → s.written = true → z.Reached done next →
    ∀ buf m, z.WritesExactly s next buf m

/-- The loop stops at this relocation when it writes the piece. -/
def StopsAt (s : Slice) (rel : Relocation) : Prop :=
  rel.virtualAddress + 1 < 2 ^ 32 ∧ s.vaEnd ≤ rel.virtualAddress + 1

/-- The loop for the piece stops in front of the relocations at the last 32-bit address, or these
do nothing. -/
def Unwraps (s : Slice) : Prop :=
  (∃ rel ∈ z.chunk.relocs, StopsAt s rel) ∨
    ∀ rel ∈ z.chunk.relocs, rel.virtualAddress + 1 = 2 ^ 32 → ¬ z.Live rel

def Unwrapped : Prop :=
  ∀ s ∈ z.slices, s.written = true → z.Unwraps s

/-! ### What the index has passed -/

private theorem edges {s : Slice} (member : s ∈ z.slices) :
    s.vaBegin < s.vaEnd ∧ s.vaEnd < 2 ^ 32 := by
  obtain ⟨nonempty, inside⟩ := z.inside s member
  have contents := z.w.contents_le z.c
  have size := z.size_lt
  omega

/-- The relocations in front of the index that `advanceRelocIndex` may have moved. -/
theorem start_split {s : Slice} (member : s ∈ z.slices) (next : List Relocation) :
    ∃ dropped, next = dropped ++ s.start next ∧
      ∀ rel ∈ dropped, rel.virtualAddress < s.vaBegin := by
  have word : uint32 s.vaBegin = s.vaBegin := Nat.mod_eq_of_lt (by
    have edges := z.edges member
    omega)
  simp only [Slice.start, advanceRelocIndex]
  rw [word]
  cases s.advance with
  | false => exact ⟨[], rfl, fun rel none => absurd none List.not_mem_nil⟩
  | true =>
    refine ⟨next.takeWhile (fun rel => rel.virtualAddress < s.vaBegin), ?_, ?_⟩
    · exact List.takeWhile_append_dropWhile.symm
    · intro rel taken
      simpa using List.mem_takeWhile_imp taken

private theorem write_left (s : Slice) (next : List Relocation) (buf : Int) (m : Mem) :
    (z.write s next buf m).2.2 = leftRelocs s.vaBegin s.vaEnd (s.start next) :=
  (relocateSubsection_eq ..).2

private theorem write_memory (s : Slice) (next : List Relocation) (buf : Int) (m : Mem) :
    (z.write s next buf m).1 = patchAll z.w z.ctx z.sections z.c z.chunk.machine s.vaBegin buf
      (writeBytes m buf (((z.w.contents z.c).drop s.vaBegin).take (s.vaEnd - s.vaBegin)))
      (appliedRelocs s.vaBegin s.vaEnd (s.start next)) :=
  (relocateSubsection_eq ..).1

/-- A relocation that the loop passes ends below the piece's end, or its address is the last. -/
theorem below_of_passed {s : Slice} (member : s ∈ z.slices) {rel : Relocation}
    (word : rel.virtualAddress + 1 < 2 ^ 32) (goesOn : ¬ rel.Stops s.vaBegin s.vaEnd) :
    rel.virtualAddress + 1 < s.vaEnd := by
  have edges := z.edges member
  have sum : uint32 (rel.virtualAddress + 1) = rel.virtualAddress + 1 := Nat.mod_eq_of_lt word
  simp only [Relocation.Stops] at goesOn
  rw [sum] at goesOn
  omega

private theorem reached_split {done : List Slice} {next : List Relocation}
    (reached : z.Reached done next) (members : ∀ s ∈ done, s ∈ z.slices) :
    ∃ passed, z.chunk.relocs = passed ++ next ∧ ∀ rel ∈ passed,
      rel.virtualAddress + 1 < 2 ^ 32 → ∃ s ∈ done, rel.virtualAddress + 1 < s.vaEnd := by
  induction reached with
  | start => exact ⟨[], rfl, fun rel none => absurd none List.not_mem_nil⟩
  -- A skipped slice passes only what lies in front of it,
  | @skip done next s skipped before ih =>
    obtain ⟨passed, split, below⟩ := ih (fun t member => members t (by simp [member]))
    have member := members s (by simp)
    have edges := z.edges member
    obtain ⟨dropped, splitNext, low⟩ := z.start_split member next
    refine ⟨passed ++ dropped, by rw [split, List.append_assoc, ← splitNext], ?_⟩
    intro rel either word
    rcases List.mem_append.mp either with old | new
    · obtain ⟨t, inDone, ends⟩ := below rel old word
      exact ⟨t, by simp [inDone], ends⟩
    · have behind := low rel new
      exact ⟨s, by simp, by omega⟩
  -- a written one also what its loop does not stop at.
  | @write done next s written buf m before ih =>
    obtain ⟨passed, split, below⟩ := ih (fun t member => members t (by simp [member]))
    have member := members s (by simp)
    have edges := z.edges member
    obtain ⟨dropped, splitNext, low⟩ := z.start_split member next
    have splitStart := List.takeWhile_append_dropWhile
      (p := fun rel => ¬ rel.Stops s.vaBegin s.vaEnd) (l := s.start next)
    refine ⟨passed ++ dropped ++
      (s.start next).takeWhile (fun rel => ¬ rel.Stops s.vaBegin s.vaEnd), ?_, ?_⟩
    · rw [z.write_left, leftRelocs, List.append_assoc, splitStart, List.append_assoc, ← splitNext,
        split]
    · intro rel either word
      rcases List.mem_append.mp either with old | loop
      · rcases List.mem_append.mp old with old | new
        · obtain ⟨t, inDone, ends⟩ := below rel old word
          exact ⟨t, by simp [inDone], ends⟩
        · have behind := low rel new
          exact ⟨s, by simp, by omega⟩
      · have goesOn : ¬ rel.Stops s.vaBegin s.vaEnd := by
          simpa using List.mem_takeWhile_imp loop
        exact ⟨s, by simp, z.below_of_passed member word goesOn⟩

/-! ### What one call applies -/

variable {z} in
private theorem stop_not_passed {done rest : List Slice} {s : Slice} {next : List Relocation}
    (pieces : z.slices = done ++ s :: rest) (reached : z.Reached done next) {rel : Relocation}
    (member : rel ∈ z.chunk.relocs) (stop : StopsAt s rel) :
    rel ∈ s.start next ∧ rel.Stops s.vaBegin s.vaEnd := by
  have inSlices : s ∈ z.slices := by simp [pieces]
  have edges := z.edges inSlices
  obtain ⟨word, ends⟩ := stop
  obtain ⟨passed, split, below⟩ := z.reached_split reached (fun t inDone => by simp [pieces, inDone])
  obtain ⟨dropped, splitNext, low⟩ := z.start_split inSlices next
  constructor
  · rw [split, splitNext] at member
    rcases List.mem_append.mp member with old | member
    · obtain ⟨t, inDone, behind⟩ := below rel old word
      have ascending := z.ascending
      rw [pieces, List.pairwise_append] at ascending
      have order := ascending.2.2 t inDone s (by simp)
      omega
    · rcases List.mem_append.mp member with new | member
      · have behind := low rel new
        omega
      · exact member
  · have sum : uint32 (rel.virtualAddress + 1) = rel.virtualAddress + 1 := Nat.mod_eq_of_lt word
    exact ⟨by omega, by rw [sum]; exact ends⟩

private theorem start_sorted {done : List Slice} {s : Slice} {next : List Relocation}
    (members : ∀ t ∈ done, t ∈ z.slices) (inSlices : s ∈ z.slices) (reached : z.Reached done next) :
    (s.start next).Pairwise (fun r s => r.virtualAddress ≤ s.virtualAddress) ∧
      ∀ rel ∈ s.start next, rel ∈ z.chunk.relocs := by
  obtain ⟨passed, split, -⟩ := z.reached_split reached members
  obtain ⟨dropped, splitNext, -⟩ := z.start_split inSlices next
  have sorted := z.sorted
  rw [split, splitNext, ← List.append_assoc] at sorted
  constructor
  · exact (List.pairwise_append.mp sorted).2.1
  · intro rel member
    rw [split, splitNext]
    simp [member]

/-- Nothing behind a relocation at which the loop stops is applied. -/
theorem applied_le {s : Slice} {next : List Relocation}
    (sorted : next.Pairwise (fun r s => r.virtualAddress ≤ s.virtualAddress))
    {stop rel : Relocation} (member : stop ∈ next) (stops : stop.Stops s.vaBegin s.vaEnd)
    (applied : rel ∈ appliedRelocs s.vaBegin s.vaEnd next) :
    rel.virtualAddress ≤ stop.virtualAddress := by
  have taken := (List.mem_filter.mp applied).1
  rw [← List.takeWhile_append_dropWhile (p := fun rel => ¬ rel.Stops s.vaBegin s.vaEnd)
    (l := next)] at member sorted
  rcases List.mem_append.mp member with early | late
  · have goesOn := List.mem_takeWhile_imp early
    simp [stops] at goesOn
  · exact (List.pairwise_append.mp sorted).2.2 rel taken stop late

theorem applied_imp {s : Slice} {next : List Relocation} {rel : Relocation}
    (applied : rel ∈ appliedRelocs s.vaBegin s.vaEnd next) :
    rel ∈ next ∧ s.vaBegin ≤ rel.virtualAddress ∧ ¬ rel.Stops s.vaBegin s.vaEnd := by
  obtain ⟨taken, behind⟩ := List.mem_filter.mp applied
  have goesOn := List.mem_takeWhile_imp taken
  exact ⟨(List.takeWhile_sublist _).subset taken, by simpa using behind, by simpa using goesOn⟩

/-- The relocation belongs to the piece. -/
def belongs (s : Slice) (rel : Relocation) : Bool :=
  s.vaBegin ≤ rel.virtualAddress ∧ rel.virtualAddress + 1 < s.vaEnd

private theorem relocWidth_ne_one (machine : Machine) (type : Nat) :
    relocWidth machine type ≠ 1 := by
  simp only [relocWidth]
  cases machine with
  | amd64 | i386 | armnt | arm64 | arm64ec | arm64x =>
    dsimp only
    split_ifs <;> decide

private theorem idle_of_not_live {rel : Relocation} (idle : ¬ z.Live rel) (m : Mem) (off : Int) :
    (applyRelocation z.w z.ctx z.sections z.c z.chunk.machine m off rel).1 = m := by
  cases resolved : resolve z.w z.ctx z.sections rel.target with
  | none =>
    simp only [applyRelocation]
    rw [resolved]
  | some symbol =>
    by_cases refused : SecRelRefused z.chunk.machine symbol.1 symbol.2 rel.type
    · simp only [applyRelocation, resolved]
      exact applyRel_refused refused m off
    · have empty : relocWidth z.chunk.machine rel.type = 0 := by
        by_contra width
        exact idle ⟨Nat.pos_of_ne_zero width, symbol, resolved, refused⟩
      funext a
      apply (local_applyRelocation z.w z.ctx z.sections z.c z.chunk.machine off rel).frame
      rw [empty]
      simp

/-- What a relocation outside of the piece does to the piece. -/
theorem outside_frame {s : Slice} (member : s ∈ z.slices) {rel : Relocation}
    (inRelocs : rel ∈ z.chunk.relocs) (outside : belongs s rel = false) (base : Int) (m : Mem) :
    AgreeOn (Set.Ico (base + s.vaBegin) (base + s.vaEnd))
      (applyRelocation z.w z.ctx z.sections z.c z.chunk.machine m (base + rel.virtualAddress) rel).1
      m := by
  have front := z.unsplit s member s.vaBegin (by simp) rel inRelocs
  have back := z.unsplit s member s.vaEnd (by simp) rel inRelocs
  have width := relocWidth_ne_one z.chunk.machine rel.type
  rintro a ⟨from_, upto⟩
  apply (local_applyRelocation z.w z.ctx z.sections z.c z.chunk.machine _ rel).frame
  rintro ⟨low, high⟩
  simp only [belongs, decide_eq_false_iff_not] at outside
  omega

/-- A relocation of the piece works on the piece. -/
theorem belongs_inside {s : Slice} (member : s ∈ z.slices) {rel : Relocation}
    (inRelocs : rel ∈ z.chunk.relocs) (own : belongs s rel = true) :
    s.vaBegin ≤ rel.virtualAddress ∧
      rel.virtualAddress + relocWidth z.chunk.machine rel.type ≤ s.vaEnd := by
  simp only [belongs, decide_eq_true_eq] at own
  exact ⟨own.1, z.unsplit s member s.vaEnd (by simp) rel inRelocs (by omega)⟩

/-- What the loop leaves to the next call does not belong to the piece. -/
theorem left_not_belongs {s : Slice} (small : s.vaEnd < 2 ^ 32) (next : List Relocation)
    (sorted : next.Pairwise (fun r s => r.virtualAddress ≤ s.virtualAddress)) :
    (leftRelocs s.vaBegin s.vaEnd next).filter (belongs s) = [] := by
  apply List.filter_eq_nil_iff.mpr
  intro rel left own
  simp only [belongs, decide_eq_true_eq] at own
  have sorted := sorted.sublist (List.dropWhile_sublist (fun rel => ¬ rel.Stops s.vaBegin s.vaEnd))
  simp only [leftRelocs] at left
  cases shape : next.dropWhile (fun rel => ¬ rel.Stops s.vaBegin s.vaEnd) with
  | nil =>
    rw [shape] at left
    cases left
  | cons first others =>
    have stops : first.Stops s.vaBegin s.vaEnd := by
      have head := List.head_dropWhile_not (fun rel : Relocation =>
        decide (¬ rel.Stops s.vaBegin s.vaEnd)) (l := next)
        (by rw [shape]; exact List.cons_ne_nil _ _)
      simp only [shape, List.head_cons] at head
      simpa using head
    -- the list ascends, so all that is left lies at the end of the slice or behind it
    have order : first.virtualAddress ≤ rel.virtualAddress := by
      rw [shape] at left sorted
      rcases List.mem_cons.mp left with rfl | later
      · exact Nat.le_refl _
      · exact (List.pairwise_cons.mp sorted).1 rel later
    have sum : uint32 (first.virtualAddress + 1) = first.virtualAddress + 1 :=
      Nat.mod_eq_of_lt (by omega)
    have ends := stops.2
    rw [sum] at ends
    omega

theorem appliedRelocs_belongs {s : Slice} (small : s.vaEnd < 2 ^ 32) (next : List Relocation)
    (sorted : next.Pairwise (fun r s => r.virtualAddress ≤ s.virtualAddress)) :
    (appliedRelocs s.vaBegin s.vaEnd next).filter (belongs s) = next.filter (belongs s) := by
  have left := left_not_belongs small next sorted
  simp only [leftRelocs] at left
  conv_rhs => rw [← List.takeWhile_append_dropWhile
    (p := fun rel => ¬ rel.Stops s.vaBegin s.vaEnd) (l := next)]
  rw [List.filter_append, left, List.append_nil, appliedRelocs, List.filter_filter]
  apply List.filter_congr
  intro rel _
  simp only [belongs, Bool.and_eq_left_iff_imp, decide_eq_true_eq]
  exact fun own => own.1

/-- The relocations of the piece are applied by its call, in their order. -/
theorem applied_belongs {done rest : List Slice} {s : Slice} {next : List Relocation}
    (pieces : z.slices = done ++ s :: rest) (reached : z.Reached done next) :
    (appliedRelocs s.vaBegin s.vaEnd (s.start next)).filter (belongs s) =
      z.chunk.relocs.filter (belongs s) := by
  have inSlices : s ∈ z.slices := by simp [pieces]
  have inDone : ∀ t ∈ done, t ∈ z.slices := fun t member => by simp [pieces, member]
  have edges := z.edges inSlices
  obtain ⟨passed, split, below⟩ := z.reached_split reached inDone
  obtain ⟨dropped, splitNext, low⟩ := z.start_split inSlices next
  -- what earlier slices took lies in front of this one
  have noPassed : passed.filter (belongs s) = [] := by
    apply List.filter_eq_nil_iff.mpr
    intro rel old own
    simp only [belongs, decide_eq_true_eq] at own
    obtain ⟨t, member, behind⟩ := below rel old (by omega)
    have ascending := z.ascending
    rw [pieces, List.pairwise_append] at ascending
    have order := ascending.2.2 t member s (by simp)
    omega
  have noDropped : dropped.filter (belongs s) = [] := by
    apply List.filter_eq_nil_iff.mpr
    intro rel new own
    have behind := low rel new
    simp only [belongs, decide_eq_true_eq] at own
    omega
  obtain ⟨sorted, -⟩ := z.start_sorted inDone inSlices reached
  calc (appliedRelocs s.vaBegin s.vaEnd (s.start next)).filter (belongs s)
      = (s.start next).filter (belongs s) := appliedRelocs_belongs edges.2 _ sorted
    _ = (dropped ++ s.start next).filter (belongs s) := by
        rw [List.filter_append, noDropped, List.nil_append]
    _ = (passed ++ next).filter (belongs s) := by
        rw [← splitNext, List.filter_append, noPassed, List.nil_append]
    _ = z.chunk.relocs.filter (belongs s) := by rw [split]

/-! ### The bytes of one call -/

/-- Every relocation that a call applies belongs to the piece, or does nothing. -/
def Tame (s : Slice) (next : List Relocation) : Prop :=
  ∀ rel ∈ appliedRelocs s.vaBegin s.vaEnd (s.start next), belongs s rel = false → ¬ z.Live rel

variable {z} in
private theorem write_agree {done rest : List Slice} {s : Slice} {next : List Relocation}
    (pieces : z.slices = done ++ s :: rest) (reached : z.Reached done next)
    (tame : z.Tame s next) (buf : Int) (m n : Mem)
    (agree : AgreeOn (Set.Ico buf (buf + (s.vaEnd - s.vaBegin : Nat)))
      (writeBytes m buf (((z.w.contents z.c).drop s.vaBegin).take (s.vaEnd - s.vaBegin))) n) :
    AgreeOn (Set.Ico buf (buf + (s.vaEnd - s.vaBegin : Nat))) (z.write s next buf m).1
      (patchAll z.w z.ctx z.sections z.c z.chunk.machine s.vaBegin buf n
        (z.chunk.relocs.filter (belongs s))) := by
  have inSlices : s ∈ z.slices := by simp [pieces]
  have inDone : ∀ t ∈ done, t ∈ z.slices := fun t member => by simp [pieces, member]
  obtain ⟨-, inRelocs⟩ := z.start_sorted inDone inSlices reached
  rw [z.write_memory, ← z.applied_belongs pieces reached]
  apply foldl_restrict _ (belongs s) _ _ _ _ _ agree
  · intro rel applied own
    have field := z.belongs_inside inSlices (inRelocs rel (applied_imp applied).1) own
    exact (local_applyRelocation z.w z.ctx z.sections z.c z.chunk.machine _ rel).mono
      (Set.Ico_subset_Ico (by omega) (by omega))
  · intro rel applied outside m a _
    rw [z.idle_of_not_live (tame rel applied outside)]

private theorem whole_agree {s : Slice} (member : s ∈ z.slices) (base : Int) (m : Mem) :
    AgreeOn (Set.Ico (base + s.vaBegin) (base + s.vaEnd)) (z.whole base m)
      (patchAll z.w z.ctx z.sections z.c z.chunk.machine 0 base
        (writeBytes m base (z.w.contents z.c)) (z.chunk.relocs.filter (belongs s))) := by
  have inside := (z.inside s member).2
  have contents := z.w.contents_le z.c
  have writes : z.whole base m = patchAll z.w z.ctx z.sections z.c z.chunk.machine 0 base
      (writeBytes m base (z.w.contents z.c))
      (z.chunk.relocs.filter (·.virtualAddress < z.c.getSize)) := by
    rw [whole, Chunk.writeTo, z.is_input]
    dsimp only
    rw [if_pos z.has_data]
    exact applyRelocations_eq ..
  -- a relocation of the slice lies inside of the chunk, so the size check drops none of them
  have checked : (z.chunk.relocs.filter (·.virtualAddress < z.c.getSize)).filter (belongs s) =
      z.chunk.relocs.filter (belongs s) := by
    rw [List.filter_filter]
    apply List.filter_congr
    intro rel _
    simp only [belongs, Bool.and_eq_left_iff_imp, decide_eq_true_eq]
    omega
  rw [writes, ← checked]
  apply foldl_restrict _ (belongs s) _ _ _ _ _ (fun _ _ => rfl)
  · intro rel kept own
    have field := z.belongs_inside member (List.mem_filter.mp kept).1 own
    exact (local_applyRelocation z.w z.ctx z.sections z.c z.chunk.machine _ rel).mono
      (Set.Ico_subset_Ico (by omega) (by omega))
  · intro rel kept outside m
    exact z.outside_frame member (List.mem_filter.mp kept).1 outside base m

/-- The slice that is copied stands at its place in the contents. -/
theorem slice_bytes (s : Slice) (inside : s.vaEnd ≤ (z.w.contents z.c).length) (buf base : Int)
    (m n : Mem) :
    AgreeOn (Set.Ico buf (buf + (s.vaEnd - s.vaBegin : Nat)))
      (writeBytes m buf (((z.w.contents z.c).drop s.vaBegin).take (s.vaEnd - s.vaBegin)))
      (shifted (base + s.vaBegin - buf) (writeBytes n base (z.w.contents z.c))) := by
  rintro a ⟨low, high⟩
  obtain ⟨i, rfl⟩ : ∃ i : Nat, a = buf + i := ⟨(a - buf).toNat, by omega⟩
  have place : buf + i + (base + s.vaBegin - buf) = base + (s.vaBegin + i : Nat) := by omega
  simp only [shifted]
  rw [place, writeBytes_at _ _ _ i (by simp; omega), writeBytes_at _ _ _ (s.vaBegin + i) (by omega)]
  have below : i < s.vaEnd - s.vaBegin := by omega
  simp [List.getElem?_drop, below]

variable {z} in
private theorem writesExactly_of_tame {done rest : List Slice} {s : Slice} {next : List Relocation}
    (pieces : z.slices = done ++ s :: rest) (reached : z.Reached done next)
    (tame : z.Tame s next) (buf : Int) (m : Mem) : z.WritesExactly s next buf m := by
  have inSlices : s ∈ z.slices := by simp [pieces]
  have inDone : ∀ t ∈ done, t ∈ z.slices := fun t member => by simp [pieces, member]
  have inside := z.inside s inSlices
  obtain ⟨-, inRelocs⟩ := z.start_sorted inDone inSlices reached
  -- A live relocation that is applied here belongs here, and so lies inside with its whole field.
  have fields : ∀ rel ∈ appliedRelocs s.vaBegin s.vaEnd (s.start next), z.Live rel →
      s.vaBegin ≤ rel.virtualAddress ∧
        rel.virtualAddress + relocWidth z.chunk.machine rel.type ≤ s.vaEnd := by
    intro rel applied live
    apply z.belongs_inside inSlices (inRelocs rel (applied_imp applied).1)
    cases own : belongs s rel with
    | true => rfl
    | false => exact absurd live (tame rel applied own)
  constructor
  -- Both writers apply the same relocations to the same bytes, at different places in memory.
  · intro base old i below
    have part := write_agree pieces reached tame buf m _
      (z.slice_bytes s inside.2 buf base m old) (buf + i) ⟨by omega, by omega⟩
    have full := z.whole_agree inSlices base old (base + (s.vaBegin + i : Nat))
      ⟨by omega, by omega⟩
    rw [part, full, patchAll_shifted, patchAll_origin]
    · simp only [shifted]
      rw [show buf + (base + s.vaBegin - buf) - s.vaBegin = base by omega,
        show buf + i + (base + s.vaBegin - buf) = base + (s.vaBegin + i : Nat) by omega]
    · intro rel kept
      have own := (List.mem_filter.mp kept).2
      simp only [belongs, decide_eq_true_eq] at own
      exact own.1
  -- Outside of the slice neither the copy nor a relocation writes.
  · intro a outside
    rw [z.write_memory]
    have length : (((z.w.contents z.c).drop s.vaBegin).take (s.vaEnd - s.vaBegin)).length ≤
        s.vaEnd - s.vaBegin := List.length_take_le _ _
    have copied := (local_writeBytes_of_le buf _ _ length).frame m a outside
    rw [← copied]
    refine foldl_frame _ (fun _ => Set.Ico buf (buf + (s.vaEnd - s.vaBegin : Nat))) _ ?_ _ a
      (fun _ _ => outside)
    intro rel applied
    by_cases live : z.Live rel
    · have field := fields rel applied live
      exact (local_applyRelocation z.w z.ctx z.sections z.c z.chunk.machine _ rel).mono
        (Set.Ico_subset_Ico (by omega) (by omega))
    · simp only [z.idle_of_not_live live]
      exact Local.id
  · exact fields

/-! ### Runs -/

variable {z} in
private theorem tame_of_unwraps {done rest : List Slice} {s : Slice} {next : List Relocation}
    (pieces : z.slices = done ++ s :: rest) (reached : z.Reached done next)
    (unwraps : z.Unwraps s) : z.Tame s next := by
  have inSlices : s ∈ z.slices := by simp [pieces]
  have inDone : ∀ t ∈ done, t ∈ z.slices := fun t member => by simp [pieces, member]
  obtain ⟨sorted, inRelocs⟩ := z.start_sorted inDone inSlices reached
  intro rel applied outside
  obtain ⟨member, behind, goesOn⟩ := applied_imp applied
  have word := z.va_lt rel (inRelocs rel member)
  have wrapped : rel.virtualAddress + 1 = 2 ^ 32 := by
    by_contra differs
    have below := z.below_of_passed inSlices (by omega) goesOn
    simp only [belongs, decide_eq_false_iff_not] at outside
    omega
  rcases unwraps with ⟨stop, inList, stopsAt⟩ | idle
  · obtain ⟨waits, stops⟩ := stop_not_passed pieces reached inList stopsAt
    have order := applied_le sorted waits stops applied
    have stopWord := stopsAt.1
    omega
  · exact idle rel (inRelocs rel member) wrapped

/-- Relocations at the last address wait for the first loop that has nothing to stop at. -/
theorem wrapped_waits {done : List Slice} {next : List Relocation} (reached : z.Reached done next)
    {rest : List Slice} (pieces : z.slices = done ++ rest)
    (stop : ∀ t ∈ done, t.written = true → ∃ rel ∈ z.chunk.relocs, StopsAt t rel)
    {rel : Relocation} (member : rel ∈ z.chunk.relocs)
    (wrapped : rel.virtualAddress + 1 = 2 ^ 32) : rel ∈ next := by
  induction reached generalizing rest with
  | start => exact member
  | @skip done next s skipped before ih =>
    rw [List.append_assoc] at pieces
    have inSlices : s ∈ z.slices := by simp [pieces]
    have edges := z.edges inSlices
    have waits := ih pieces (fun t inDone => stop t (by simp [inDone]))
    obtain ⟨dropped, splitNext, low⟩ := z.start_split inSlices next
    rw [splitNext] at waits
    rcases List.mem_append.mp waits with gone | waits
    -- The first loop drops what lies below the slice, which the last address does not.
    · have behind := low rel gone
      omega
    · exact waits
  | @write done next s written buf m before ih =>
    rw [List.append_assoc] at pieces
    have inSlices : s ∈ z.slices := by simp [pieces]
    have inDone : ∀ t ∈ done, t ∈ z.slices := fun t member => by simp [pieces, member]
    have edges := z.edges inSlices
    have waits := ih pieces (fun t inDone => stop t (by simp [inDone]))
    obtain ⟨dropped, splitNext, low⟩ := z.start_split inSlices next
    obtain ⟨sorted, -⟩ := z.start_sorted inDone inSlices before
    obtain ⟨other, inList, stopsAt⟩ := stop s (by simp) written
    obtain ⟨otherWaits, stops⟩ := stop_not_passed pieces before inList stopsAt
    rw [splitNext] at waits
    rcases List.mem_append.mp waits with gone | waits
    · have behind := low rel gone
      omega
    · rw [z.write_left]
      have splitStart := List.takeWhile_append_dropWhile
        (p := fun rel => ¬ rel.Stops s.vaBegin s.vaEnd) (l := s.start next)
      rw [← splitStart] at waits
      rcases List.mem_append.mp waits with taken | left
      · have applied : rel ∈ appliedRelocs s.vaBegin s.vaEnd (s.start next) :=
          List.mem_filter.mpr ⟨taken, by simp; omega⟩
        -- The second loop stops before what stops it, and the last address comes after that.
        have order := applied_le sorted otherWaits stops applied
        have word := stopsAt.1
        omega
      · exact left

private theorem reached_exists (done : List Slice) : ∃ next, z.Reached done next := by
  induction done using List.reverseRecOn with
  | nil => exact ⟨_, .start⟩
  | append_singleton done s ih =>
    obtain ⟨next, reached⟩ := ih
    cases written : s.written with
    | true => exact ⟨_, .write s written 0 (fun _ => 0) reached⟩
    | false => exact ⟨_, .skip s written reached⟩

/-- With nothing to stop at, the loop applies the relocations at the last address. -/
theorem applied_of_waits {s : Slice} (member : s ∈ z.slices) {next : List Relocation}
    (inRelocs : ∀ rel ∈ next, rel ∈ z.chunk.relocs)
    (noStop : ¬ ∃ rel ∈ z.chunk.relocs, StopsAt s rel) {rel : Relocation} (waits : rel ∈ next)
    (wrapped : rel.virtualAddress + 1 = 2 ^ 32) : rel ∈ appliedRelocs s.vaBegin s.vaEnd next := by
  have edges := z.edges member
  have goesOn : ∀ other ∈ next, ¬ other.Stops s.vaBegin s.vaEnd := by
    intro other inNext stops
    have word := z.va_lt other (inRelocs other inNext)
    by_cases last : other.virtualAddress + 1 = 2 ^ 32
    · have zero : uint32 (other.virtualAddress + 1) = 0 := by rw [last, uint32, Nat.mod_self]
      have ends := stops.2
      omega
    · have sum : uint32 (other.virtualAddress + 1) = other.virtualAddress + 1 :=
        Nat.mod_eq_of_lt (by omega)
      have ends := stops.2
      rw [sum] at ends
      exact noStop ⟨other, inRelocs other inNext, by omega, ends⟩
  have all : next.takeWhile (fun rel => ¬ rel.Stops s.vaBegin s.vaEnd) = next := by
    rw [List.takeWhile_eq_self_iff]
    intro other inNext
    simpa using goesOn other inNext
  simp only [appliedRelocs]
  rw [all]
  exact List.mem_filter.mpr ⟨waits, by simp; omega⟩

private theorem unwraps_of_exact (exact : z.Exact) (done rest : List Slice)
    (pieces : z.slices = done ++ rest) : ∀ t ∈ done, t.written = true → z.Unwraps t := by
  induction done using List.reverseRecOn generalizing rest with
  | nil =>
    intro t none
    cases none
  | append_singleton done s ih =>
    rw [List.append_assoc] at pieces
    have earlier := ih _ pieces
    intro t member written
    rcases List.mem_append.mp member with old | new
    · exact earlier t old written
    obtain rfl := List.mem_singleton.mp new
    -- Take the first slice at which a live relocation wraps: until here all loops were stopped.
    by_contra wraps
    simp only [Unwraps] at wraps
    push Not at wraps
    obtain ⟨noStop, rel, inRelocs, wrapped, live⟩ := wraps
    have inSlices : t ∈ z.slices := by simp [pieces]
    have inDone : ∀ u ∈ done, u ∈ z.slices := fun u member => by simp [pieces, member]
    have edges := z.edges inSlices
    have stop : ∀ u ∈ done, u.written = true → ∃ rel ∈ z.chunk.relocs, StopsAt u rel := by
      intro u old isWritten
      rcases earlier u old isWritten with stop | idle
      · exact stop
      · exact absurd live (idle rel inRelocs wrapped)
    obtain ⟨next, reached⟩ := z.reached_exists done
    have waits := z.wrapped_waits reached pieces stop inRelocs wrapped
    obtain ⟨dropped, splitNext, low⟩ := z.start_split inSlices next
    rw [splitNext] at waits
    rcases List.mem_append.mp waits with gone | waits
    · have behind := low rel gone
      omega
    · obtain ⟨-, inList⟩ := z.start_sorted inDone inSlices reached
      have noStop : ¬ ∃ rel ∈ z.chunk.relocs, StopsAt t rel := fun ⟨r, inR, stops⟩ =>
        noStop r inR stops
      -- It would be applied here, beyond the slice, and that writes more than the slice has.
      have applied := z.applied_of_waits inSlices inList noStop waits wrapped
      have field := (exact done t _ next pieces written reached 0 (fun _ => 0)).fields rel applied live
      have width := live.width
      omega

/-- Relocating in pieces is exact just if no loop applies a relocation at the last 32-bit address,
where `VirtualAddress + 1` wraps to 0. -/
theorem exact_iff_unwrapped : z.Exact ↔ z.Unwrapped := by
  constructor
  · intro exact s member
    exact z.unwraps_of_exact exact z.slices [] (by simp) s member
  · intro unwrapped done s rest next pieces written reached buf m
    have unwraps := unwrapped s (by simp [pieces]) written
    exact writesExactly_of_tame pieces reached (tame_of_unwraps pieces reached unwraps) buf m

/-- Sixteen bytes of debug information in one piece, with a relocation at the last address. -/
def wrapped : Sliced where
  w := countingEnv
  ctx := .default .amd64
  sections := []
  c :=
    { key := 2
      body := .input
        { machine := .amd64, size := 16, executable := false, hotPatchable := false,
          entryThunk := false, originalRelocs := [⟨0xFFFFFFFF, relAmd64Addr32, .absolute 0x1000⟩],
          relocs := [⟨0xFFFFFFFF, relAmd64Addr32, .absolute 0x1000⟩], chpeMetadata := none,
          same_baserels := rfl }
      p2Align := 0
      hasData := true
      rva := 0 }
  chunk :=
    { machine := .amd64, size := 16, executable := false, hotPatchable := false,
      entryThunk := false, originalRelocs := [⟨0xFFFFFFFF, relAmd64Addr32, .absolute 0x1000⟩],
      relocs := [⟨0xFFFFFFFF, relAmd64Addr32, .absolute 0x1000⟩], chpeMetadata := none,
      same_baserels := rfl }
  slices := [⟨4, 12, false, true⟩]
  is_input := rfl
  has_data := rfl
  size_lt := by decide
  va_lt := by decide
  sorted := by decide
  inside := by decide
  ascending := by decide
  unsplit := by decide

theorem wrapped_not_exact : ¬ wrapped.Exact := by
  intro exact
  rcases wrapped.unwraps_of_exact exact [⟨4, 12, false, true⟩] [] rfl ⟨4, 12, false, true⟩ (by decide)
    rfl with ⟨rel, member, stops⟩ | idle
  · obtain rfl := List.mem_singleton.mp member
    exact absurd stops.1 (by decide)
  · exact idle _ List.mem_cons_self rfl ⟨by decide, _, rfl, by decide⟩

end Sliced

end LlvmLd.Writer
