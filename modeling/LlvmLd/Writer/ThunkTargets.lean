import LlvmLd.Writer.RangeExtension

/-!
The image that `finalizeAddresses` returns: which branches reach their targets, what their
relocations point to, and which chunks each section has.
-/

namespace LlvmLd.Writer

/-! ### Related lists -/

private theorem forall₂_left {α β : Type*} {R : α → β → Prop} {xs : List α} {ys : List β}
    (related : List.Forall₂ R xs ys) {x : α} (member : x ∈ xs) : ∃ y ∈ ys, R x y := by
  induction related with
  | nil => cases member
  | @cons a b as bs head tail ih =>
    rcases List.mem_cons.mp member with rfl | later
    · exact ⟨b, List.mem_cons_self, head⟩
    · obtain ⟨y, inside, holds⟩ := ih later
      exact ⟨y, List.mem_cons_of_mem b inside, holds⟩

private theorem forall₂_right {α β : Type*} {R : α → β → Prop} {xs : List α} {ys : List β}
    (related : List.Forall₂ R xs ys) {y : β} (member : y ∈ ys) : ∃ x ∈ xs, R x y :=
  forall₂_left related.flip member

private theorem forall₂_comp {α β γ : Type*} {R : α → β → Prop} {Q : β → γ → Prop}
    {T : α → γ → Prop} (compose : ∀ a b c, R a b → Q b c → T a c) {xs : List α} {ys : List β}
    {zs : List γ} (first : List.Forall₂ R xs ys) (second : List.Forall₂ Q ys zs) :
    List.Forall₂ T xs zs := by
  induction first generalizing zs with
  | nil =>
    cases second
    exact .nil
  | cons head tail ih =>
    cases second with
    | cons head' tail' => exact .cons (compose _ _ _ head head') (ih tail')

/-! ### The image that comes in and the image that goes out -/

/-- An image before its addresses are assigned. -/
structure InputImage where
  sections : List OutputSection
  no_thunks : ∀ c ∈ allChunks sections, c.isRangeThunk = false
  untouched : ∀ c ∈ allChunks sections, ∀ chunk, c.body = .input chunk →
    chunk.relocs = chunk.originalRelocs

def chunkAt (sections : List OutputSection) (key : Nat) : Option Chunk :=
  (allChunks sections).find? (fun c => c.key = key)

/-- Every branch with a defined target reaches it. -/
def AllInRange (ctx : Context) (final : List OutputSection) : Prop :=
  ∀ c ∈ allChunks final, ∀ chunk, c.body = .input chunk → ∀ rel ∈ chunk.relocs,
    rel.target ≠ .missing → BranchInRange chunk.machine rel.type
      (rel.target.getRVA ctx final) (uint32 (c.rva + rel.virtualAddress))

/-- Up to the symbol it is the object's relocation, and the symbol is the object's or a thunk
that jumps to a target that stands for it. -/
def Retargeted (final : List OutputSection) (standsFor : Target → Target → Prop)
    (rel after : Relocation) : Prop :=
  after.virtualAddress = rel.virtualAddress ∧ after.type = rel.type ∧
    (after.target = rel.target ∨ ∃ thunk machine target, after.target = .chunk thunk.key 0 ∧
      chunkAt final thunk.key = some thunk ∧ thunk.body = .rangeThunk machine target ∧
        standsFor target rel.target)

def AllRetargeted (final : List OutputSection) (standsFor : Target → Target → Prop) : Prop :=
  ∀ c ∈ allChunks final, ∀ chunk, c.body = .input chunk →
    List.Forall₂ (Retargeted final standsFor) chunk.originalRelocs chunk.relocs

/-- The image as range extension is meant to leave it. -/
structure BranchesKept (ctx : Context) (before final : List OutputSection) : Prop where
  in_range : AllInRange ctx final
  relocs : AllRetargeted final (fun target symbol =>
    target.getRVA ctx final = symbol.getRVA ctx final)
  chunks : List.Forall₂ (fun sec later => inputs later.chunks = inputs sec.chunks) before final

/-! ### Runs of the loop -/

/-- The layouts whose ranges the loop verifies, with the pass and the margin. -/
inductive Pass (ctx : Context) (sections : List OutputSection) : Nat → Nat → Layout → Prop where
  | first : Pass ctx sections 0 (1024 * 100) (assignAddresses ctx sections)
  | next {pass margin : Nat} {out : Layout} (earlier : Pass ctx sections pass margin out)
      (failed : verifyRanges ctx out.sections = false) (more : pass < 10) :
      Pass ctx sections (pass + 1) (passMargin pass margin) (nextLayout ctx pass margin out)

/-- The sections whose addresses the thunks of a layout were made from, if it has any. -/
inductive MadeFrom (ctx : Context) (sections : List OutputSection) :
    List OutputSection → Layout → Prop where
  | first : MadeFrom ctx sections sections (assignAddresses ctx sections)
  | pass {pass margin : Nat} {out : Layout} (current : Pass ctx sections pass margin out) :
      MadeFrom ctx sections (passSections pass out) (nextLayout ctx pass margin out)

theorem Pass.madeFrom {ctx : Context} {sections : List OutputSection} {pass margin : Nat}
    {out : Layout} (run : Pass ctx sections pass margin out) :
    ∃ old, MadeFrom ctx sections old out := by
  cases run with
  | first => exact ⟨sections, .first⟩
  | next earlier _ _ => exact ⟨_, .pass earlier⟩

private theorem extendRanges_pass {ctx : Context} {sections : List OutputSection}
    {fuel pass margin : Nat} {current out : Layout} (run : Pass ctx sections pass margin current)
    (returned : extendRanges ctx fuel pass margin current = .ok out) :
    (∃ pass margin, Pass ctx sections pass margin out) ∧
      verifyRanges ctx out.sections = true := by
  induction fuel generalizing pass margin current with
  | zero => cases returned
  | succ fuel ih =>
    rw [extendRanges_succ] at returned
    by_cases done : verifyRanges ctx current.sections = true
    · rw [if_pos done] at returned
      cases returned
      exact ⟨⟨pass, margin, run⟩, done⟩
    · rw [if_neg done] at returned
      by_cases last : 10 ≤ pass
      · rw [if_pos last] at returned
        cases returned
      · rw [if_neg last] at returned
        exact ih (.next run (Bool.not_eq_true _ ▸ done) (by omega)) returned

/-! ### The sections of a run -/

/-- A later state of a section: all but `.reloc` keep their chunks and may have thunks. -/
structure KeepsChunks (sec later : OutputSection) : Prop where
  isRelocSec : later.isRelocSec = sec.isRelocSec
  kept : sec.isRelocSec = false → inputs later.chunks = inputs sec.chunks

theorem KeepsChunks.trans {a b c : OutputSection} (first : KeepsChunks a b)
    (second : KeepsChunks b c) : KeepsChunks a c := by
  refine ⟨second.isRelocSec.trans first.isRelocSec, ?_⟩
  intro not_reloc
  rw [second.kept (first.isRelocSec.trans not_reloc), first.kept not_reloc]

private theorem Settled.keepsChunks {sec later : OutputSection} (settled : Settled sec later) :
    KeepsChunks sec later :=
  ⟨settled.isRelocSec, fun not_reloc => inputs_sameContents (settled.same not_reloc)⟩

private theorem Extended.keepsChunks {lookup : Target → Nat} {bound : Nat}
    {sec after : OutputSection} (extended : Extended lookup bound sec after) :
    KeepsChunks sec after :=
  ⟨extended.isRelocSec, fun _ => extended.kept⟩

private theorem inputs_filter (chunks : List Chunk) :
    inputs (chunks.filter (fun c => !c.isRangeThunk)) = inputs chunks := by
  simp only [inputs, List.filter_filter, Bool.and_self]

private theorem keepsChunks_passSections (pass : Nat) (out : Layout) :
    List.Forall₂ KeepsChunks out.sections (passSections pass out) := by
  have same : ∀ sec : OutputSection, KeepsChunks sec sec := fun sec => ⟨rfl, fun _ => rfl⟩
  unfold passSections
  split
  · unfold resetChunks
    rw [List.forall₂_map_right_iff]
    apply List.forall₂_same.mpr
    intro sec _
    exact ⟨rfl, fun _ => inputs_filter sec.chunks⟩
  · exact List.forall₂_same.mpr (fun sec _ => same sec)

private theorem plain_resetChunks (sections : List OutputSection) :
    ∀ c ∈ allChunks (resetChunks sections), c.isRangeThunk = false := by
  intro c member
  obtain ⟨sec, in_sections, inside⟩ := mem_allChunks.mp member
  obtain ⟨old, -, rfl⟩ := List.mem_map.mp in_sections
  have plain := (List.mem_filter.mp inside).2
  simpa using plain

private theorem foldl_max_le (keys : List Nat) (start : Nat) :
    start ≤ keys.foldl max start ∧ ∀ key ∈ keys, key ≤ keys.foldl max start := by
  induction keys generalizing start with
  | nil => simp
  | cons key rest ih =>
    obtain ⟨below, all⟩ := ih (max start key)
    rw [List.foldl_cons]
    refine ⟨by omega, ?_⟩
    intro other member
    rcases List.mem_cons.mp member with rfl | later
    · omega
    · exact all other later

private theorem freshKey_gt (sections : List OutputSection) :
    2 ≤ freshKey sections ∧ ∀ c ∈ allChunks sections, c.key < freshKey sections := by
  obtain ⟨below, all⟩ := foldl_max_le ((allChunks sections).map Chunk.key) 1
  have unfolded : freshKey sections =
      ((allChunks sections).map Chunk.key).foldl max 1 + 1 := rfl
  refine ⟨by omega, ?_⟩
  intro c member
  have le := all c.key (List.mem_map_of_mem member)
  omega

/-- Nothing in a settled image but the old chunk with a fresh key has that key. -/
theorem chunkAt_settled {sections later : List OutputSection}
    (settled : List.Forall₂ Settled sections later) {bound nextKey count : Nat} (two : 2 ≤ bound)
    (keys : ((allChunks sections).filter (fun c => bound ≤ c.key)).map Chunk.key =
      List.range' nextKey count)
    {sec : OutputSection} (in_sections : sec ∈ sections) (not_reloc : sec.isRelocSec = false)
    {thunk : Chunk} (inside : thunk ∈ sec.chunks) (fresh : bound ≤ thunk.key) :
    ∃ found, chunkAt later thunk.key = some found ∧ SameContents thunk found := by
  obtain ⟨after, after_mem, state⟩ := forall₂_left settled in_sections
  obtain ⟨moved, moved_mem, same⟩ := forall₂_left (state.same not_reloc) inside
  have present : (chunkAt later thunk.key).isSome := by
    rw [chunkAt, List.find?_isSome]
    exact ⟨moved, mem_allChunks.mpr ⟨after, after_mem, moved_mem⟩, by simp [same.key]⟩
  obtain ⟨found, at_key⟩ := Option.isSome_iff_exists.mp present
  refine ⟨found, at_key, ?_⟩
  have key : found.key = thunk.key := by simpa using List.find?_some at_key
  obtain ⟨home, home_mem, in_home⟩ := mem_allChunks.mp (List.mem_of_find?_eq_some at_key)
  obtain ⟨origin, origin_mem, state'⟩ := forall₂_right settled home_mem
  -- a generated chunk has a key below the bound, so the one that is found is an old one
  cases reloc : origin.isRelocSec with
  | true =>
    have made := (state'.generated reloc found in_home).key
    omega
  | false =>
    obtain ⟨old, old_mem, same'⟩ := forall₂_right (state'.same reloc) in_home
    have equal : thunk = old := fresh_unique keys
      (mem_allChunks.mpr ⟨sec, in_sections, inside⟩)
      (mem_allChunks.mpr ⟨origin, origin_mem, old_mem⟩) fresh (key.symm.trans same'.key)
    rw [equal]
    exact same'

/-- What stands for a symbol: the symbol itself, or one that had its address. -/
def SharedAddress (ctx : Context) (old : List OutputSection) (target symbol : Target) : Prop :=
  target ≠ symbol → target.getRVA ctx old = symbol.getRVA ctx old

/-- Within one chunk an address that was shared stays shared, wherever the chunk comes to lie. -/
theorem getRVA_of_shared {ctx : Context} {old : List OutputSection} {key a b : Nat}
    (shared : SharedAddress ctx old (.chunk key a) (.chunk key b)) (sections : List OutputSection) :
    (Target.chunk key a).getRVA ctx sections = (Target.chunk key b).getRVA ctx sections := by
  by_cases same : Target.chunk key a = .chunk key b
  · rw [same]
  · have equal := shared same
    simp only [Target.getRVA, uint32] at equal ⊢
    omega

/-- One pass from an image without thunks. -/
theorem nextLayout_retargeted {ctx : Context} {pass margin : Nat} {out : Layout}
    (plain : ∀ c ∈ allChunks (passSections pass out), c.isRangeThunk = false) :
    List.Forall₂ KeepsChunks (passSections pass out) (nextLayout ctx pass margin out).sections ∧
      AllRetargeted (nextLayout ctx pass margin out).sections
        (SharedAddress ctx (passSections pass out)) := by
  obtain ⟨two, low⟩ := freshKey_gt (passSections pass out)
  -- First the thunks come in with fresh keys, then all chunks get new addresses.
  obtain ⟨extended, count, keys⟩ := createAllThunks_spec
    (Target.getRVA ctx (passSections pass out)) (passMargin pass margin)
    (freshKey (passSections pass out)) (freshKey (passSections pass out))
    (passSections pass out) low (Nat.le_refl _) plain
  have settled := settled_assignAddresses ctx (thunkedSections ctx pass margin out)
  refine ⟨?_, ?_⟩
  · exact forall₂_comp (fun _ _ _ first second => first.keepsChunks.trans second.keepsChunks)
      extended settled
  · intro c member chunk body
    obtain ⟨later, later_mem, inside⟩ := mem_allChunks.mp member
    obtain ⟨sec, sec_mem, state⟩ := forall₂_right settled later_mem
    cases reloc : sec.isRelocSec with
    | true => exact absurd body ((state.generated reloc c inside).no_input chunk)
    | false =>
      obtain ⟨old, old_mem, same⟩ := forall₂_right (state.same reloc) inside
      obtain ⟨_, _, made⟩ := forall₂_right extended sec_mem
      refine (made.relocs old old_mem chunk ((same.input chunk).mp body)).imp ?_
      rintro rel after ⟨address, type, kept | ⟨thunk, thunk_mem, machine, target, points, jumps, at_address⟩⟩
      · exact ⟨address, type, .inl kept⟩
      · have is_thunk : thunk.isRangeThunk = true := by simp [Chunk.isRangeThunk, jumps]
        -- A fresh key finds its thunk again in the placed image.
        have fresh : freshKey (passSections pass out) ≤ thunk.key := by
          by_contra below
          have not_thunk := made.plain thunk thunk_mem (by omega)
          rw [is_thunk] at not_thunk
          cases not_thunk
        obtain ⟨found, at_key, same'⟩ :=
          chunkAt_settled settled two keys sec_mem reloc thunk_mem fresh
        refine ⟨address, type, .inr ⟨found, machine, target, ?_, ?_, ?_, fun _ => at_address⟩⟩
        · rw [same'.key]
          exact points
        · rw [same'.key]
          exact at_key
        · exact (same'.thunk machine target).mpr jumps

/-- What holds of the layout that the loop looks at, in every pass. -/
structure PassState (ctx : Context) (sections : List OutputSection) (pass : Nat) (out : Layout) :
    Prop where
  kept : List.Forall₂ KeepsChunks sections out.sections
  plain : ∀ c ∈ allChunks (passSections pass out), c.isRangeThunk = false
  retargeted : ∃ old, MadeFrom ctx sections old out ∧
    AllRetargeted out.sections (SharedAddress ctx old)

private theorem passState_first (ctx : Context) (image : InputImage) :
    PassState ctx image.sections 0 (assignAddresses ctx image.sections) := by
  have settled := settled_assignAddresses ctx image.sections
  refine ⟨settled.imp (fun _ _ h => h.keepsChunks), ?_, image.sections, .first, ?_⟩
  · intro c member
    obtain ⟨later, later_mem, inside⟩ := mem_allChunks.mp member
    obtain ⟨sec, sec_mem, state⟩ := forall₂_right settled later_mem
    cases reloc : sec.isRelocSec with
    | true => exact (state.generated reloc c inside).plain
    | false =>
      obtain ⟨old, old_mem, same⟩ := forall₂_right (state.same reloc) inside
      rw [same.is_thunk]
      exact image.no_thunks old (mem_allChunks.mpr ⟨sec, sec_mem, old_mem⟩)
  · intro c member chunk body
    obtain ⟨later, later_mem, inside⟩ := mem_allChunks.mp member
    obtain ⟨sec, sec_mem, state⟩ := forall₂_right settled later_mem
    cases reloc : sec.isRelocSec with
    | true => exact absurd body ((state.generated reloc c inside).no_input chunk)
    | false =>
      obtain ⟨old, old_mem, same⟩ := forall₂_right (state.same reloc) inside
      have untouched := image.untouched old (mem_allChunks.mpr ⟨sec, sec_mem, old_mem⟩) chunk
        ((same.input chunk).mp body)
      rw [untouched]
      exact List.forall₂_same.mpr (fun rel _ => ⟨rfl, rfl, .inl rfl⟩)

private theorem passState_next {ctx : Context} {sections : List OutputSection} {pass margin : Nat}
    {out : Layout} (run : Pass ctx sections pass margin out)
    (state : PassState ctx sections pass out) :
    PassState ctx sections (pass + 1) (nextLayout ctx pass margin out) := by
  obtain ⟨kept, retargeted⟩ := @nextLayout_retargeted ctx pass margin out state.plain
  refine ⟨?_, ?_, passSections pass out, .pass run, retargeted⟩
  · have trans := fun a b c => KeepsChunks.trans (a := a) (b := b) (c := c)
    have reset := forall₂_comp trans state.kept (keepsChunks_passSections pass out)
    exact forall₂_comp trans reset kept
  · rw [passSections, if_pos (Nat.succ_pos pass)]
    exact plain_resetChunks _

theorem Pass.state {ctx : Context} {image : InputImage} {pass margin : Nat} {out : Layout}
    (run : Pass ctx image.sections pass margin out) : PassState ctx image.sections pass out := by
  induction run with
  | first => exact passState_first ctx image
  | next earlier _ _ ih => exact passState_next earlier ih

private theorem allInRange_of_verifyRanges {ctx : Context} {sections : List OutputSection}
    (verified : verifyRanges ctx sections = true) : AllInRange ctx sections := by
  intro c member chunk body rel rel_mem defined
  obtain ⟨sec, sec_mem, inside⟩ := mem_allChunks.mp member
  have chunk_ok := List.all_eq_true.mp (List.all_eq_true.mp verified sec sec_mem) c inside
  rw [Chunk.verifyRanges, body] at chunk_ok
  have rel_ok := List.all_eq_true.mp chunk_ok rel rel_mem
  simp only [defined, decide_false, Bool.false_or] at rel_ok
  apply branchInRange_of_isInRange _ _ _ _ _ rel_ok
  exact Nat.mod_lt _ (by decide)

/-- What range extension does: as meant, except that a thunk may have been made for another symbol
that had the same address when the thunks were made, and that `.reloc` is made anew. -/
structure BranchesExtended (ctx : Context) (before : List OutputSection) (out : Layout) : Prop where
  in_range : AllInRange ctx out.sections
  relocs : ∃ old, MadeFrom ctx before old out ∧
    AllRetargeted out.sections (SharedAddress ctx old)
  chunks : List.Forall₂ KeepsChunks before out.sections

/-- A thunk that has been made for another symbol of the same chunk jumps to the final address of the
symbol. -/
theorem BranchesExtended.same_chunk {ctx : Context} {before : List OutputSection} {out : Layout}
    (extended : BranchesExtended ctx before out) :
    AllRetargeted out.sections fun target symbol => ∀ key a b,
      target = .chunk key a → symbol = .chunk key b →
        target.getRVA ctx out.sections = symbol.getRVA ctx out.sections := by
  obtain ⟨old, -, all⟩ := extended.relocs
  intro c member chunk body
  refine (all c member chunk body).imp ?_
  rintro rel after ⟨address, type, kept | ⟨thunk, machine, target, points, at_key, jumps, shared⟩⟩
  · exact ⟨address, type, .inl kept⟩
  · refine ⟨address, type, .inr ⟨thunk, machine, target, points, at_key, jumps, ?_⟩⟩
    intro key a b is_target is_symbol
    subst is_target
    rw [is_symbol] at shared ⊢
    exact getRVA_of_shared shared out.sections

/-- The loop verifies at most 11 times, and an image that it returns is extended. -/
theorem finalizeAddresses_extended (ctx : Context) (image : InputImage)
    (arm : ctx.machine = .armnt ∨ ctx.machine.isAnyArm64 = true) :
    (∀ fuel, verifications ctx fuel 0 (1024 * 100) (assignAddresses ctx image.sections) ≤ 11) ∧
    (∀ more, extendRanges ctx (11 + more) 0 (1024 * 100) (assignAddresses ctx image.sections) =
      extendRanges ctx 11 0 (1024 * 100) (assignAddresses ctx image.sections)) ∧
    ∀ out, finalizeAddresses ctx image.sections = .ok out →
      BranchesExtended ctx image.sections out := by
  refine ⟨?_, ?_, ?_⟩
  · intro fuel
    exact verifications_le ctx fuel 0 _ _ (Nat.zero_le 10)
  · intro more
    exact extendRanges_more ctx 10 more 0 _ _ (Nat.le_refl 10)
  · intro out returned
    simp only [finalizeAddresses] at returned
    rw [if_pos arm] at returned
    obtain ⟨⟨pass, margin, run⟩, verified⟩ := extendRanges_pass .first returned
    have state := run.state
    exact ⟨allInRange_of_verifyRanges verified, state.retargeted, state.kept⟩

/-- Code for ARM64 with the relocations of its object. -/
def branchingChunk (key size : Nat) (relocs : List Relocation) : Chunk where
  key
  body := .input
    { machine := .arm64, size, executable := true, hotPatchable := false, entryThunk := false,
      originalRelocs := relocs, relocs, chpeMetadata := none, same_baserels := rfl }
  p2Align := 2
  hasData := true
  rva := 0

/-- Two far branches, one to the end of chunk 4 and one to chunk 5 right behind it. Chunk 4 has a
far branch too, so that a thunk comes between them. Chunk 3 holds an address. -/
def sharedImage : InputImage where
  sections :=
    [{ plainSection ".text"
        [branchingChunk 2 16
            [⟨0, relArm64Branch19, .chunk 4 16⟩, ⟨4, relArm64Branch19, .chunk 5 0⟩],
          branchingChunk 3 (2 ^ 21) [⟨8, relArm64Addr64, .chunk 2 0⟩],
          branchingChunk 4 16 [⟨0, relArm64Branch19, .chunk 2 0⟩],
          branchingChunk 5 16 []] with isCodeSection := true },
      relocSection]
  no_thunks := by decide
  untouched := by
    intro c member chunk body
    simp only [allChunks, List.flatMap_cons, List.flatMap_nil, plainSection, relocSection,
      List.append_nil, List.mem_cons, List.not_mem_nil, or_false] at member
    rcases member with rfl | rfl | rfl | rfl
    all_goals
      cases body
      rfl

def sharedLayout : Layout :=
  nextLayout (.default .arm64) 0 (1024 * 100)
    (assignAddresses (.default .arm64) sharedImage.sections)

private theorem sharedImage_returned :
    finalizeAddresses (.default .arm64) sharedImage.sections = .ok sharedLayout := by
  rfl

theorem sharedImage_extended :
    BranchesExtended (.default .arm64) sharedImage.sections sharedLayout :=
  (finalizeAddresses_extended (.default .arm64) sharedImage (.inr rfl)).2.2 sharedLayout
    sharedImage_returned

/-- The thunk of the first branch serves the second one too, but its target is chunk 4. -/
theorem sharedImage_not_retargeted :
    ¬AllRetargeted sharedLayout.sections (fun target symbol =>
      target.getRVA (.default .arm64) sharedLayout.sections =
        symbol.getRVA (.default .arm64) sharedLayout.sections) := by
  intro all
  have relocs := all _ List.mem_cons_self _ rfl
  cases relocs with
  | cons _ later =>
    cases later with
    | cons second _ =>
      rcases second with ⟨-, -, kept | ⟨thunk, machine, target, points, at_key, jumps, same⟩⟩
      · revert kept
        decide
      · have key : 6 = thunk.key := (Target.chunk.inj points).1
        have made : (chunkAt sharedLayout.sections 6).map Chunk.body =
            some (.rangeThunk .arm64 (.chunk 4 16)) := by decide
        rw [key, at_key, Option.map_some, jumps] at made
        cases made
        revert same
        decide

/-- `.reloc` has got a chunk. -/
theorem sharedImage_chunks_changed :
    ¬List.Forall₂ (fun sec later => inputs later.chunks = inputs sec.chunks)
      sharedImage.sections sharedLayout.sections := by
  intro kept
  have counts : List.Forall₂ (fun count later => later = count)
      (sharedImage.sections.map (fun sec => (inputs sec.chunks).length))
      (sharedLayout.sections.map (fun sec => (inputs sec.chunks).length)) := by
    rw [List.forall₂_map_left_iff, List.forall₂_map_right_iff]
    exact kept.imp (fun _ _ same => congrArg List.length same)
  revert counts
  decide

/-- The branch to chunk 5 ends at the old address of chunk 5, where by now a thunk stands. -/
theorem sharedImage_not_kept :
    finalizeAddresses (.default .arm64) sharedImage.sections = .ok sharedLayout ∧
      ¬BranchesKept (.default .arm64) sharedImage.sections sharedLayout.sections ∧
      ¬AllRetargeted sharedLayout.sections (fun target symbol =>
        target.getRVA (.default .arm64) sharedLayout.sections =
          symbol.getRVA (.default .arm64) sharedLayout.sections) ∧
      ¬List.Forall₂ (fun sec later => inputs later.chunks = inputs sec.chunks)
        sharedImage.sections sharedLayout.sections :=
  ⟨sharedImage_returned, fun kept => sharedImage_chunks_changed kept.chunks,
    sharedImage_not_retargeted, sharedImage_chunks_changed⟩

end LlvmLd.Writer
