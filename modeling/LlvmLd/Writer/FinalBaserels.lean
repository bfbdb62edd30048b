import Mathlib.Data.List.Forall2
import LlvmLd.Writer.Thunks
import LlvmLd.Writer.LayoutInvariant

/-!
Base relocations of the finished image. They are collected when address assignment reaches
`.reloc`, so a section in front of `.reloc` contributes its final addresses and a section behind it
the addresses of the pass before. `/sectionlayout` decides which sections stand where.
-/

namespace LlvmLd.Writer

/-! ### Section order -/

def isLineBreak (c : Char) : Bool := c == '\r' || c == '\n'

/-- The characters that `StringRef::trim` removes. -/
def isTrimmed (c : Char) : Bool :=
  c == ' ' || c == '\t' || c == '\n' || c == '\x0b' || c == '\x0c' || c == '\r'

def trimLine (line : List Char) : List Char :=
  ((line.dropWhile isTrimmed).reverse.dropWhile isTrimmed).reverse

/-- One line of the layout file; a duplicate name is warned about and ignored. -/
def addLayoutLine (order : List (String × Nat)) (line : List Char) : List (String × Nat) :=
  let trimmed := trimLine line
  if trimmed.isEmpty then order
  else
    let name := String.ofList (trimmed.takeWhile (· ≠ ' '))
    if (order.lookup name).isSome then order else order ++ [(name, order.length)]

/-- `parseSectionLayout`: section names with their index. -/
def parseSectionLayout (content : List Char) : List (String × Nat) :=
  (content.splitOnP isLineBreak).foldl addLayoutLine []

/-- The comparison of `layoutSections`. -/
def sectionBefore (order : List (String × Nat)) (a b : OutputSection) : Bool :=
  match order.lookup a.name, order.lookup b.name with
  | some i, some j => i < j
  | some _, none => true
  | none, _ => false

/-- `layoutSections`: a stable sort. -/
def layoutSections (order : List (String × Nat)) (sections : List OutputSection) :
    List OutputSection :=
  if order.isEmpty then sections
  else sections.insertionSort (fun a b => sectionBefore order b a = false)

/-! ### What is recorded and what should be -/

/-- The pairs given to the `BaserelChunk`s of `.reloc`. -/
def recordedBaserels (sections : List OutputSection) : List Baserel :=
  (sections.filter OutputSection.isRelocSec).flatMap
    (fun sec => sec.chunks.flatMap Chunk.recorded)

/-- What the chunks of a section yield at their current addresses, unless it is discardable. -/
def OutputSection.baserels (sec : OutputSection) : List Baserel :=
  if sec.discardable then [] else sec.chunks.flatMap Chunk.getBaserels

/-- What all non-discardable sections yield; a fixed image has no base relocations. -/
def finalBaserels (ctx : Context) (sections : List OutputSection) : List Baserel :=
  if ctx.relocatable then sections.flatMap OutputSection.baserels else []

/-- `createSections` makes one discardable `.reloc` section. -/
def OneReloc : List OutputSection → Prop
  | [] => False
  | sec :: rest =>
      (sec.isRelocSec = true ∧ sec.discardable = true ∧ ∀ other ∈ rest, other.isRelocSec = false) ∨
        (sec.isRelocSec = false ∧ OneReloc rest)

/-- The sections that stand behind `.reloc`. -/
def behindReloc : List OutputSection → List OutputSection
  | [] => []
  | sec :: rest => if sec.isRelocSec then rest else behindReloc rest

def OutputSection.NoBaserels (sec : OutputSection) : Prop :=
  ∀ c ∈ sec.chunks, c.baserelOffsets = []

/-- A fixed image, or no section behind `.reloc` has a base relocation to record. -/
def NoLateBaserels (ctx : Context) (sections : List OutputSection) : Prop :=
  ctx.relocatable = false ∨ ∀ sec ∈ behindReloc sections, sec.discardable = false → sec.NoBaserels

/-! ### Collecting -/

theorem recorded_baserelGroups (page : Nat) (group rest : List Baserel) :
    (baserelGroups page group rest).flatMap Chunk.recorded = group ++ rest := by
  induction rest generalizing page group with
  | nil => simp [baserelGroups, baserelChunk, Chunk.recorded]
  | cons rel rest ih =>
    rw [baserelGroups]
    split
    · rw [ih, List.append_assoc, List.singleton_append]
    · rw [List.flatMap_cons, ih]
      rfl

private theorem recorded_addBaserelBlocks (ctx : Context) (v : List Baserel) :
    ((addBaserelBlocks ctx.sort v).flatMap Chunk.recorded).Perm v := by
  have sorted := ctx.sort_perm v
  simp only [addBaserelBlocks]
  cases v with
  | nil => exact List.Perm.refl []
  | cons first tail =>
    cases ordered : ctx.sort (first :: tail) with
    | nil =>
      rw [ordered] at sorted
      exact absurd sorted.nil_eq (by simp)
    | cons least rest =>
      rw [ordered] at sorted
      dsimp only
      rw [recorded_baserelGroups]
      exact sorted

private theorem recorded_sectionBaserels (ctx : Context) (sec : OutputSection) :
    ((sectionBaserels ctx.sort sec).flatMap Chunk.recorded).Perm sec.baserels := by
  simp only [sectionBaserels, OutputSection.baserels]
  split
  · exact List.Perm.refl []
  · exact recorded_addBaserelBlocks ctx _

private theorem recorded_relocChunks (ctx : Context) (sections : List OutputSection) :
    ((relocChunks ctx sections).flatMap Chunk.recorded).Perm (finalBaserels ctx sections) := by
  have noDynamic : ((ctx.dynamicRelocs.map
      (fun finalize => dynamicRelocsChunk (finalize sections))).toList).flatMap Chunk.recorded =
      [] := by
    cases ctx.dynamicRelocs <;> rfl
  simp only [relocChunks, finalBaserels]
  rw [List.flatMap_append, noDynamic, List.append_nil]
  split
  · rw [List.flatMap_assoc]
    exact List.Perm.flatMap_left _ (fun sec _ => recorded_sectionBaserels ctx sec)
  · exact List.Perm.refl []

private theorem recorded_placeChunks (ctx : Context) (code : Bool) (rva : Nat) (cur : Cursor)
    (chunks : List Chunk) :
    (placeChunks ctx code rva cur chunks).flatMap Chunk.recorded =
      chunks.flatMap Chunk.recorded := by
  induction chunks generalizing cur with
  | nil => rfl
  | cons c rest ih =>
    rw [placeChunks, List.flatMap_cons, List.flatMap_cons, ih]
    rfl

/-! ### The passes keep the sections apart -/

/-- A later state of the same section, which yields base relocations only if it did before. -/
structure LaterState (sec later : OutputSection) : Prop where
  isRelocSec : later.isRelocSec = sec.isRelocSec
  discardable : later.discardable = sec.discardable
  noBaserels : sec.NoBaserels → later.NoBaserels

theorem LaterState.refl (sec : OutputSection) : LaterState sec sec := ⟨rfl, rfl, id⟩

private theorem forall_of_later (P : OutputSection → Prop) (sections later : List OutputSection)
    (states : List.Forall₂ LaterState sections later)
    (kept : ∀ sec after, LaterState sec after → P sec → P after) (all : ∀ sec ∈ sections, P sec) :
    ∀ after ∈ later, P after := by
  induction states with
  | nil => simp
  | @cons sec after rest rest' state states ih =>
    intro x member
    rcases List.mem_cons.mp member with rfl | inRest
    · exact kept sec _ state (all sec (by simp))
    · exact ih (fun y inY => all y (List.mem_cons_of_mem _ inY)) x inRest

private theorem oneReloc_of_later (sections later : List OutputSection)
    (states : List.Forall₂ LaterState sections later) (one : OneReloc sections) :
    OneReloc later := by
  induction states with
  | nil => exact one
  | @cons sec after rest rest' state states ih =>
    rcases one with ⟨isReloc, discardable, others⟩ | ⟨notReloc, one⟩
    · refine Or.inl ⟨state.isRelocSec ▸ isReloc, state.discardable ▸ discardable, ?_⟩
      exact forall_of_later (fun other => other.isRelocSec = false) rest rest' states
        (fun _ _ state holds => state.isRelocSec ▸ holds) others
    · exact Or.inr ⟨state.isRelocSec ▸ notReloc, ih one⟩

/-- A relation between sections that keeps `.reloc` in its place holds behind it too. -/
theorem behindReloc_forall₂ (R : OutputSection → OutputSection → Prop)
    (keeps : ∀ sec later, R sec later → later.isRelocSec = sec.isRelocSec)
    (sections later : List OutputSection) (related : List.Forall₂ R sections later) :
    List.Forall₂ R (behindReloc sections) (behindReloc later) := by
  induction related with
  | nil => exact List.Forall₂.nil
  | @cons sec after rest rest' first related ih =>
    simp only [behindReloc, keeps sec after first]
    split
    · exact related
    · exact ih

private theorem noLateBaserels_later (ctx : Context) (sections later : List OutputSection)
    (states : List.Forall₂ LaterState sections later) (early : NoLateBaserels ctx sections) :
    NoLateBaserels ctx later := by
  rcases early with fixed | quiet
  · exact Or.inl fixed
  · exact Or.inr (forall_of_later (fun sec => sec.discardable = false → sec.NoBaserels) _ _
      (behindReloc_forall₂ LaterState (fun _ _ => LaterState.isRelocSec) sections later states)
      (fun _ _ state holds kept => state.noBaserels (holds (state.discardable ▸ kept))) quiet)

/-! ### Each operation gives a later state -/

private theorem baserelOffsets_setRVA (c : Chunk) (address : Nat) :
    (c.setRVA address).baserelOffsets = c.baserelOffsets := rfl

private theorem baserelOffsets_placeChunks (ctx : Context) (code : Bool) (rva : Nat) (cur : Cursor)
    (chunks : List Chunk) (none_before : ∀ c ∈ chunks, c.baserelOffsets = []) :
    ∀ c ∈ placeChunks ctx code rva cur chunks, c.baserelOffsets = [] := by
  induction chunks generalizing cur with
  | nil => simp [placeChunks]
  | cons c rest ih =>
    intro x member
    rw [placeChunks] at member
    rcases List.mem_cons.mp member with rfl | inRest
    · rw [baserelOffsets_setRVA]
      exact none_before c (by simp)
    · exact ih _ (fun y inY => none_before y (List.mem_cons_of_mem _ inY)) x inRest

private theorem laterState_placeSection (ctx : Context) (rva fileSize : Nat) (sec : OutputSection) :
    LaterState sec (placeSection ctx rva fileSize sec) :=
  ⟨rfl, rfl, baserelOffsets_placeChunks ctx _ rva .start sec.chunks⟩

private theorem noBaserels_relocChunks (ctx : Context) (sections : List OutputSection) :
    ∀ c ∈ relocChunks ctx sections, c.baserelOffsets = [] := by
  -- the blocks of the section are plain data
  have groups : ∀ (page : Nat) (group rest : List Baserel),
      ∀ c ∈ baserelGroups page group rest, c.baserelOffsets = [] := by
    intro page group rest
    induction rest generalizing page group with
    | nil => simp [baserelGroups, baserelChunk, Chunk.baserelOffsets]
    | cons rel rest ih =>
      intro c member
      rw [baserelGroups] at member
      split at member
      · exact ih _ _ c member
      · rcases List.mem_cons.mp member with rfl | inRest
        · rfl
        · exact ih _ _ c inRest
  intro c member
  rcases List.mem_append.mp member with collected | dynamic
  · split at collected
    · obtain ⟨sec, -, inSection⟩ := List.mem_flatMap.mp collected
      simp only [sectionBaserels, addBaserelBlocks] at inSection
      split at inSection
      · cases inSection
      · split at inSection
        · exact groups _ _ _ c inSection
        · cases inSection
    · cases collected
  · cases size : ctx.dynamicRelocs with
    | none => simp [size] at dynamic
    | some finalize =>
      rw [size] at dynamic
      simp only [Option.map_some, Option.toList_some, List.mem_singleton] at dynamic
      rw [dynamic]
      rfl

theorem laterState_populate (ctx : Context) (done : List OutputSection) (sec : OutputSection)
    (rest : List OutputSection) : LaterState sec (populate ctx done sec rest) := by
  simp only [populate]
  split
  · exact ⟨rfl, rfl, fun _ => noBaserels_relocChunks ctx _⟩
  · exact LaterState.refl sec

theorem LaterState.trans {a b c : OutputSection} (first : LaterState a b) (second : LaterState b c) :
    LaterState a c :=
  ⟨second.isRelocSec.trans first.isRelocSec, second.discardable.trans first.discardable,
    fun none => second.noBaserels (first.noBaserels none)⟩

private theorem laterStates_assignSections (ctx : Context) (headers : Nat)
    (done : List OutputSection) (rva fileSize : Nat) (errors : List String)
    (rest : List OutputSection) :
    ∃ laid, (assignSections ctx headers done rva fileSize errors rest).sections = done ++ laid ∧
      List.Forall₂ LaterState rest laid := by
  induction rest generalizing done rva fileSize errors with
  | nil => exact ⟨[], by simp [assignSections], List.Forall₂.nil⟩
  | cons sec rest ih =>
    rw [assignSections]
    have state := (laterState_populate ctx done sec rest).trans
      (laterState_placeSection ctx rva fileSize (populate ctx done sec rest))
    obtain ⟨laid, sections, states⟩ := ih _ _ _ _
    refine ⟨_ :: laid, ?_, List.Forall₂.cons state states⟩
    rw [sections, List.append_assoc, List.singleton_append]

private theorem baserelOffsets_setCodeMapSize (entries : Nat) (c : Chunk) :
    (c.setCodeMapSize entries).baserelOffsets = c.baserelOffsets := by
  simp only [Chunk.setCodeMapSize]
  split
  · rename_i body
    simp [Chunk.baserelOffsets, body]
  · rfl

private theorem laterStates_map (f : OutputSection → OutputSection)
    (later : ∀ sec, LaterState sec (f sec)) (sections : List OutputSection) :
    List.Forall₂ LaterState sections (sections.map f) := by
  induction sections with
  | nil => exact List.Forall₂.nil
  | cons sec rest ih => exact List.Forall₂.cons (later sec) ih

private theorem laterStates_createECCodeMap (ctx : Context) (sections : List OutputSection) :
    List.Forall₂ LaterState sections (createECCodeMap ctx sections) := by
  simp only [createECCodeMap]
  split
  · apply laterStates_map
    refine fun sec => ⟨rfl, rfl, fun none c member => ?_⟩
    obtain ⟨before, inSection, rfl⟩ := List.mem_map.mp member
    rw [baserelOffsets_setCodeMapSize]
    exact none before inSection
  · exact List.forall₂_same.mpr (fun sec _ => LaterState.refl sec)

private theorem laterStates_resetChunks (sections : List OutputSection) :
    List.Forall₂ LaterState sections (resetChunks sections) := by
  apply laterStates_map
  exact fun sec => ⟨rfl, rfl, fun none c member => none c (List.mem_of_mem_filter member)⟩

private theorem forall₂_trans (a b c : List OutputSection) (first : List.Forall₂ LaterState a b)
    (second : List.Forall₂ LaterState b c) : List.Forall₂ LaterState a c := by
  induction first generalizing c with
  | nil =>
    cases second
    exact List.Forall₂.nil
  | cons state states ih =>
    cases second with
    | cons state' states' => exact List.Forall₂.cons (state.trans state') (ih _ states')

private theorem redirectRelocs_thunks (lookup : Target → Nat) (margin : Nat) (machine : Machine)
    (rva insertion : Nat) (st : ThunkState) (rels : List Relocation) :
    ∀ c ∈ (redirectRelocs lookup margin machine rva insertion st rels).2.1,
      c.baserelOffsets = [] := by
  induction rels generalizing insertion st with
  | nil => simp [redirectRelocs]
  | cons rel rest ih =>
    rw [redirectRelocs]
    dsimp only
    split
    · exact ih _ _
    · split
      · exact ih _ _
      · intro c member
        rcases List.mem_cons.mp member with rfl | inRest
        · rfl
        · exact ih _ _ c inRest

private theorem baserelOffsets_thunkChunk (lookup : Target → Nat) (margin : Nat) (c : Chunk)
    (st : ThunkState) (none_before : c.baserelOffsets = []) :
    ∀ x ∈ (thunkChunk lookup margin c st).1, x.baserelOffsets = [] := by
  simp only [thunkChunk]
  split
  case h_1 chunk body =>
    intro x member
    rcases List.mem_cons.mp member with rfl | inserted
    · -- the new relocations ask for what the original ones asked for
      simp only [Chunk.baserelOffsets, body, SectionChunk.redirect, chunk.same_baserels] at *
      rw [redirectRelocs_baserels]
      exact none_before
    · exact redirectRelocs_thunks lookup margin chunk.machine c.rva _ st _ x inserted
  case h_2 extended helper body =>
    split
    · simp [none_before]
    · simp [Chunk.baserelOffsets]
  case h_3 =>
    simp [none_before]

private theorem baserelOffsets_thunkChunks (lookup : Target → Nat) (margin : Nat)
    (chunks : List Chunk) (st : ThunkState) (none_before : ∀ c ∈ chunks, c.baserelOffsets = []) :
    ∀ x ∈ (thunkChunks lookup margin chunks st).1, x.baserelOffsets = [] := by
  induction chunks generalizing st with
  | nil => simp [thunkChunks]
  | cons c rest ih =>
    intro x member
    rw [thunkChunks] at member
    rcases List.mem_append.mp member with first | later
    · exact baserelOffsets_thunkChunk lookup margin c st (none_before c (by simp)) x first
    · exact ih _ (fun y inY => none_before y (List.mem_cons_of_mem _ inY)) x later

private theorem laterStates_createAllThunks (lookup : Target → Nat) (margin nextKey : Nat)
    (sections : List OutputSection) :
    List.Forall₂ LaterState sections (createAllThunks lookup margin nextKey sections) := by
  induction sections generalizing nextKey with
  | nil => exact List.Forall₂.nil
  | cons sec rest ih =>
    exact List.Forall₂.cons
      ⟨rfl, rfl, baserelOffsets_thunkChunks lookup margin sec.chunks _⟩ (ih _)

/-! ### One assignment records what the sections in front of `.reloc` finally yield -/

private theorem laterStates_assignAddresses (ctx : Context) (sections : List OutputSection) :
    List.Forall₂ LaterState sections (assignAddresses ctx sections).sections := by
  have mapped := laterStates_createECCodeMap ctx sections
  unfold assignAddresses
  obtain ⟨laid, same, states⟩ := laterStates_assignSections ctx
    (headerSize ctx (createECCodeMap ctx sections).length) []
    (alignTo (headerSize ctx (createECCodeMap ctx sections).length) ctx.align)
    (headerSize ctx (createECCodeMap ctx sections).length) [] (createECCodeMap ctx sections)
  dsimp only
  rw [same, List.nil_append]
  exact forall₂_trans _ _ _ mapped states

/--
Where the loop meets `.reloc`: the sections in front are final, those behind still have the
addresses they came with.
-/
theorem assignSections_reloc (ctx : Context) (headers : Nat) (done : List OutputSection)
    (rva fileSize : Nat) (errors : List String) (rest : List OutputSection) (one : OneReloc rest) :
    ∃ before reloc emptied after,
      (assignSections ctx headers done rva fileSize errors rest).sections =
        done ++ before ++ reloc :: after ∧
      (∀ sec ∈ before, sec.isRelocSec = false) ∧ reloc.isRelocSec = true ∧
      reloc.discardable = true ∧ emptied.discardable = true ∧
      List.Forall₂ LaterState (behindReloc rest) after ∧
      (∀ sec ∈ after, sec.isRelocSec = false) ∧
      reloc.chunks.flatMap Chunk.recorded =
        (relocChunks ctx (done ++ before ++ emptied :: behindReloc rest)).flatMap
          Chunk.recorded := by
  induction rest generalizing done rva fileSize errors with
  | nil => cases one
  | cons sec rest ih =>
    rw [assignSections]
    rcases one with ⟨isReloc, discardable, others⟩ | ⟨notReloc, one⟩
    -- This is `.reloc`: nothing is in front of it, and what is behind is only placed.
    · obtain ⟨after, sections, states⟩ := laterStates_assignSections ctx headers
        (done ++ [placeSection ctx rva fileSize (populate ctx done sec rest)])
        (rva + alignTo ((populate ctx done sec rest).span ctx) ctx.align)
        (fileSize + alignTo ((populate ctx done sec rest).rawSpan ctx) ctx.fileAlign)
        (if uint32Max < (populate ctx done sec rest).span ctx then
          errors ++ ["section larger than 4 GiB: " ++ (populate ctx done sec rest).name] else errors)
        rest
      -- Placing it changes addresses and sizes, not what kind of section it is.
      have state := (laterState_populate ctx done sec rest).trans
        (laterState_placeSection ctx rva fileSize (populate ctx done sec rest))
      refine ⟨[], placeSection ctx rva fileSize (populate ctx done sec rest),
        { sec with chunks := [] }, after, ?_, by simp, state.isRelocSec.trans isReloc,
        state.discardable.trans discardable, discardable, ?_, ?_, ?_⟩
      · rw [sections]
        simp
      · simpa [behindReloc, isReloc] using states
      · exact forall_of_later (fun other => other.isRelocSec = false) rest after states
          (fun _ _ state holds => state.isRelocSec ▸ holds) others
      · simp only [placeSection, recorded_placeChunks, populate, isReloc, if_true, behindReloc,
          List.append_nil]
    -- In front of `.reloc` the section is placed as it came.
    · have plain : populate ctx done sec rest = sec := by simp [populate, notReloc]
      obtain ⟨before, reloc, emptied, after, sections, front, isReloc, discardable, gone, states,
        back, recorded⟩ := ih (done ++ [placeSection ctx rva fileSize (populate ctx done sec rest)])
          _ _ _ one
      refine ⟨placeSection ctx rva fileSize (populate ctx done sec rest) :: before, reloc, emptied,
        after, ?_, ?_, isReloc, discardable, gone, ?_, back, ?_⟩
      · rw [sections]
        simp
      · intro x member
        rcases List.mem_cons.mp member with rfl | inBefore
        · rw [plain]
          exact notReloc
        · exact front x inBefore
      · simpa [behindReloc, notReloc] using states
      · rw [recorded]
        simp [behindReloc, notReloc]

private theorem flatMap_eq_nil {α β : Type} (f : α → List β) (items : List α)
    (empty : ∀ x ∈ items, f x = []) : items.flatMap f = [] := by
  rw [List.flatMap_eq_nil_iff]
  exact empty

private theorem baserels_of_noBaserels (sec : OutputSection)
    (none : sec.discardable = false → sec.NoBaserels) : sec.baserels = [] := by
  simp only [OutputSection.baserels]
  cases kept : sec.discardable with
  | true => rfl
  | false =>
    rw [if_neg (by simp)]
    exact flatMap_eq_nil _ _ (fun c member => by simp [Chunk.getBaserels, none kept c member])

private theorem recordedBaserels_split (before after : List OutputSection) (reloc : OutputSection)
    (front : ∀ sec ∈ before, sec.isRelocSec = false) (isReloc : reloc.isRelocSec = true)
    (back : ∀ sec ∈ after, sec.isRelocSec = false) :
    recordedBaserels (before ++ reloc :: after) = reloc.chunks.flatMap Chunk.recorded := by
  have noneFront : before.filter OutputSection.isRelocSec = [] :=
    List.filter_eq_nil_iff.mpr (fun sec member => by simp [front sec member])
  have noneBack : after.filter OutputSection.isRelocSec = [] :=
    List.filter_eq_nil_iff.mpr (fun sec member => by simp [back sec member])
  simp [recordedBaserels, noneFront, noneBack, isReloc]

/-- Both sides of the comparison, split at `.reloc`. -/
theorem assignAddresses_baserels (ctx : Context) (sections : List OutputSection)
    (one : OneReloc sections) :
    ∃ before stale final : List OutputSection,
      (recordedBaserels (assignAddresses ctx sections).sections).Perm
        (finalBaserels ctx (before ++ stale)) ∧
      finalBaserels ctx (assignAddresses ctx sections).sections =
        finalBaserels ctx (before ++ final) ∧
      stale = behindReloc (createECCodeMap ctx sections) ∧
      final = behindReloc (assignAddresses ctx sections).sections := by
  have mapped := oneReloc_of_later _ _ (laterStates_createECCodeMap ctx sections) one
  unfold assignAddresses
  obtain ⟨before, reloc, emptied, after, same, front, isReloc, discardable, gone, -, back,
    recorded⟩ := assignSections_reloc ctx (headerSize ctx (createECCodeMap ctx sections).length) []
      (alignTo (headerSize ctx (createECCodeMap ctx sections).length) ctx.align)
      (headerSize ctx (createECCodeMap ctx sections).length) [] (createECCodeMap ctx sections) mapped
  rw [List.nil_append] at same recorded
  dsimp only
  refine ⟨before, behindReloc (createECCodeMap ctx sections), after, ?_, ?_, rfl, ?_⟩
  -- what is recorded comes from the placed sections and from the unplaced ones behind
  · rw [same, recordedBaserels_split before after reloc front isReloc back, recorded]
    refine (recorded_relocChunks ctx _).trans ?_
    simp [finalBaserels, OutputSection.baserels, gone]
  · rw [same]
    simp [finalBaserels, OutputSection.baserels, discardable]
  · rw [same]
    clear same recorded mapped
    induction before with
    | nil => simp [behindReloc, isReloc]
    | cons sec rest ih =>
      have notReloc := front sec (by simp)
      simp only [List.cons_append, behindReloc, notReloc, Bool.false_eq_true, if_false]
      exact ih (fun other member => front other (List.mem_cons_of_mem _ member))

/-- The `.reloc` section holds what the finished sections yield. -/
def RecordsFinal (ctx : Context) (sections : List OutputSection) : Prop :=
  (recordedBaserels sections).Perm (finalBaserels ctx sections)

/-- Under the condition the sections behind `.reloc` add nothing. -/
theorem finalBaserels_append_behind (ctx : Context) (before sections : List OutputSection)
    (early : NoLateBaserels ctx sections) :
    finalBaserels ctx (before ++ behindReloc sections) = finalBaserels ctx before := by
  rcases early with fixed | quiet
  · simp [finalBaserels, fixed]
  · have none : (behindReloc sections).flatMap OutputSection.baserels = [] :=
      flatMap_eq_nil _ _ (fun sec member => baserels_of_noBaserels sec (quiet sec member))
    simp [finalBaserels, none]

private theorem assignAddresses_recordsFinal (ctx : Context) (sections : List OutputSection)
    (one : OneReloc sections) (early : NoLateBaserels ctx sections) :
    RecordsFinal ctx (assignAddresses ctx sections).sections := by
  obtain ⟨before, stale, final, recorded, finished, isStale, isFinal⟩ :=
    assignAddresses_baserels ctx sections one
  have earlyMapped :=
    noLateBaserels_later ctx _ _ (laterStates_createECCodeMap ctx sections) early
  have earlyAfter :=
    noLateBaserels_later ctx _ _ (laterStates_assignAddresses ctx sections) early
  simp only [RecordsFinal]
  rw [finished]
  refine recorded.trans ?_
  rw [isStale, isFinal, finalBaserels_append_behind ctx before _ earlyMapped,
    finalBaserels_append_behind ctx before _ earlyAfter]

private theorem extendRanges_recordsFinal (ctx : Context) (fuel pass margin : Nat)
    (current out : Layout) (one : OneReloc current.sections)
    (early : NoLateBaserels ctx current.sections) (records : RecordsFinal ctx current.sections)
    (returned : extendRanges ctx fuel pass margin current = .ok out) :
    RecordsFinal ctx out.sections := by
  induction fuel generalizing pass margin current with
  | zero => cases returned
  | succ fuel ih =>
    rw [extendRanges] at returned
    split at returned
    · cases returned
      exact records
    · split at returned
      · cases returned
      · -- another pass: thunks are redone and every address is assigned again
        have reset : List.Forall₂ LaterState current.sections
            (if 0 < pass then resetChunks current.sections else current.sections) := by
          split
          · exact laterStates_resetChunks current.sections
          · exact List.forall₂_same.mpr (fun sec _ => LaterState.refl sec)
        dsimp only at returned
        generalize (if 0 < pass then resetChunks current.sections else current.sections) =
          restored at returned reset
        have thunked := forall₂_trans _ _ _ reset (laterStates_createAllThunks
          (Target.getRVA ctx restored) (if 0 < pass then margin * 2 else margin)
          (freshKey restored) restored)
        -- what the addresses are assigned from still has one table and nothing late
        have oneThunked := oneReloc_of_later _ _ thunked one
        have earlyThunked := noLateBaserels_later ctx _ _ thunked early
        have assigned := laterStates_assignAddresses ctx (createAllThunks
          (Target.getRVA ctx restored) (if 0 < pass then margin * 2 else margin)
          (freshKey restored) restored)
        exact ih _ _ _ (oneReloc_of_later _ _ assigned oneThunked)
          (noLateBaserels_later ctx _ _ assigned earlyThunked)
          (assignAddresses_recordsFinal ctx _ oneThunked earlyThunked) returned

/-! ### Every section order -/

private theorem oneReloc_iff (sections : List OutputSection) :
    OneReloc sections ↔
      ∃ reloc, sections.filter OutputSection.isRelocSec = [reloc] ∧ reloc.discardable = true := by
  induction sections with
  | nil => simp [OneReloc]
  | cons sec rest ih =>
    cases isReloc : sec.isRelocSec with
    | false => simp [OneReloc, isReloc, ih]
    | true =>
      simp only [OneReloc, isReloc, List.filter_cons, if_true, List.cons.injEq,
        List.filter_eq_nil_iff, Bool.true_eq_false, false_and, or_false, true_and]
      constructor
      · rintro ⟨discardable, others⟩
        exact ⟨sec, ⟨rfl, fun other member => by simp [others other member]⟩, discardable⟩
      · rintro ⟨reloc, ⟨rfl, others⟩, discardable⟩
        exact ⟨discardable, fun other member => by simpa using others other member⟩

private theorem layoutSections_perm (order : List (String × Nat)) (sections : List OutputSection) :
    (layoutSections order sections).Perm sections := by
  simp only [layoutSections]
  split
  · exact List.Perm.refl _
  · exact List.perm_insertionSort _ _

private theorem oneReloc_layoutSections (order : List (String × Nat))
    (sections : List OutputSection) (one : OneReloc sections) :
    OneReloc (layoutSections order sections) := by
  obtain ⟨reloc, only, discardable⟩ := (oneReloc_iff sections).mp one
  refine (oneReloc_iff _).mpr ⟨reloc, ?_, discardable⟩
  have filtered := (layoutSections_perm order sections).filter OutputSection.isRelocSec
  rw [only] at filtered
  exact filtered.eq_singleton

private theorem mem_of_mem_behindReloc (sections : List OutputSection) (sec : OutputSection)
    (member : sec ∈ behindReloc sections) : sec ∈ sections := by
  induction sections with
  | nil => exact member
  | cons first rest ih =>
    rw [behindReloc] at member
    split at member
    · exact List.mem_cons_of_mem _ member
    · exact List.mem_cons_of_mem _ (ih member)

private theorem oneReloc_behind (sections : List OutputSection) (one : OneReloc sections) :
    ∀ sec ∈ behindReloc sections, sec.isRelocSec = false := by
  induction sections with
  | nil => cases one
  | cons first rest ih =>
    rcases one with ⟨isReloc, -, others⟩ | ⟨notReloc, one⟩
    · simpa [behindReloc, isReloc] using others
    · simpa [behindReloc, notReloc] using ih one

/-! ### A late section is recorded at its old addresses -/

/-- A section as `assignAddresses` leaves it; the chunks of `.reloc` are new. -/
def PlacedFrom (ctx : Context) (sec later : OutputSection) : Prop :=
  later.isRelocSec = sec.isRelocSec ∧
    (sec.isRelocSec = false → ∃ rva fileSize, later = placeSection ctx rva fileSize sec)

private theorem placedFrom_assignSections (ctx : Context) (headers : Nat)
    (done : List OutputSection) (rva fileSize : Nat) (errors : List String)
    (rest : List OutputSection) :
    ∃ laid, (assignSections ctx headers done rva fileSize errors rest).sections = done ++ laid ∧
      List.Forall₂ (PlacedFrom ctx) rest laid := by
  induction rest generalizing done rva fileSize errors with
  | nil => exact ⟨[], by simp [assignSections], List.Forall₂.nil⟩
  | cons sec rest ih =>
    rw [assignSections]
    obtain ⟨laid, sections, placed⟩ := ih _ _ _ _
    refine ⟨placeSection ctx rva fileSize (populate ctx done sec rest) :: laid, ?_,
      List.Forall₂.cons ?_ placed⟩
    · rw [sections, List.append_assoc, List.singleton_append]
    · refine ⟨(laterState_populate ctx done sec rest).isRelocSec, fun notReloc => ?_⟩
      exact ⟨rva, fileSize, by simp [populate, notReloc]⟩

/-- The sum of the recorded addresses. -/
def rvaSum (rels : List Baserel) : Nat := (rels.map Baserel.rva).sum

private theorem rvaSum_append (a b : List Baserel) : rvaSum (a ++ b) = rvaSum a + rvaSum b := by
  simp [rvaSum]

private theorem rvaSum_perm (a b : List Baserel) (perm : a.Perm b) : rvaSum a = rvaSum b :=
  (perm.map Baserel.rva).sum_eq

/-- Moving a chunk from 0 to a positive address raises the sum, if it yields anything. -/
theorem rvaSum_getBaserels_lt (c : Chunk) (address : Nat) (fresh : c.rva = 0)
    (positive : 0 < (c.setRVA address).rva)
    (fits : ∀ rel ∈ c.baserelOffsets, (c.setRVA address).rva + rel.rva ≤ uint32Max) :
    rvaSum c.getBaserels + c.baserelOffsets.length ≤ rvaSum (c.setRVA address).getBaserels := by
  simp only [Chunk.getBaserels, baserelOffsets_setRVA, rvaSum, List.map_map]
  generalize c.baserelOffsets = rels at fits ⊢
  induction rels with
  | nil => simp
  | cons rel rest ih =>
    have head := fits rel (by simp)
    have tail := ih (fun other member => fits other (List.mem_cons_of_mem _ member))
    have exactHead := uint32_of_le _ head
    have staleHead : uint32 (c.rva + rel.rva) = rel.rva := by
      rw [fresh, Nat.zero_add, uint32_of_le _ (by omega)]
    simp only [List.map_cons, List.sum_cons, List.length_cons, Function.comp_apply, exactHead,
      staleHead] at tail ⊢
    omega

/-- Chunks that have an address and whose base relocations stay below 4 GiB. -/
def InAddressSpace (chunks : List Chunk) : Prop :=
  ∀ c ∈ chunks, 0 < c.rva ∧ ∀ rel ∈ c.baserelOffsets, c.rva + rel.rva ≤ uint32Max

private theorem rvaSum_placeChunks_lt (ctx : Context) (code : Bool) (rva : Nat) (cur : Cursor)
    (chunks : List Chunk) (fresh : ∀ c ∈ chunks, c.rva = 0)
    (inSpace : InAddressSpace (placeChunks ctx code rva cur chunks)) :
    rvaSum (chunks.flatMap Chunk.getBaserels) + (chunks.flatMap Chunk.baserelOffsets).length ≤
      rvaSum ((placeChunks ctx code rva cur chunks).flatMap Chunk.getBaserels) := by
  induction chunks generalizing cur with
  | nil => simp [placeChunks]
  | cons c rest ih =>
    rw [placeChunks] at inSpace ⊢
    have head := inSpace _ (List.mem_cons_self)
    have first := rvaSum_getBaserels_lt c _ (fresh c (by simp)) head.1 head.2
    have later := ih (advance ctx code cur c)
      (fun other member => fresh other (List.mem_cons_of_mem _ member))
      (fun other member => inSpace other (List.mem_cons_of_mem _ member))
    simp only [List.flatMap_cons, rvaSum_append, List.length_append]
    omega

/-- The base relocations of the non-discardable sections, as offsets. -/
def OutputSection.offsetsToRecord (sec : OutputSection) : List Baserel :=
  if sec.discardable then [] else sec.chunks.flatMap Chunk.baserelOffsets

private theorem rvaSum_placedFrom_lt (ctx : Context) (stale final : List OutputSection)
    (placed : List.Forall₂ (PlacedFrom ctx) stale final)
    (regular : ∀ sec ∈ stale, sec.isRelocSec = false)
    (fresh : ∀ sec ∈ stale, ∀ c ∈ sec.chunks, c.rva = 0)
    (inSpace : ∀ sec ∈ final, InAddressSpace sec.chunks) :
    rvaSum (stale.flatMap OutputSection.baserels) +
        (stale.flatMap OutputSection.offsetsToRecord).length ≤
      rvaSum (final.flatMap OutputSection.baserels) := by
  induction placed with
  | nil => simp
  | @cons sec later rest rest' first placed ih =>
    obtain ⟨rva, fileSize, rfl⟩ := first.2 (regular sec (by simp))
    have tail := ih (fun other member => regular other (List.mem_cons_of_mem _ member))
      (fun other member => fresh other (List.mem_cons_of_mem _ member))
      (fun other member => inSpace other (List.mem_cons_of_mem _ member))
    -- a chunk that is placed moves up from address zero, so each of its entries does
    have head : rvaSum sec.baserels + sec.offsetsToRecord.length ≤
        rvaSum (placeSection ctx rva fileSize sec).baserels := by
      simp only [OutputSection.baserels, OutputSection.offsetsToRecord]
      have kept : (placeSection ctx rva fileSize sec).discardable = sec.discardable := rfl
      rw [kept]
      split
      · simp
      · exact rvaSum_placeChunks_lt ctx sec.isCodeSection rva .start sec.chunks
          (fresh sec (by simp)) (inSpace (placeSection ctx rva fileSize sec) List.mem_cons_self)
    simp only [List.flatMap_cons, rvaSum_append, List.length_append]
    omega

/--
For one pass over chunks that have no address yet: if `.reloc` holds the final base relocations
then no section behind it had any.
-/
theorem noLateBaserels_of_recordsFinal (ctx : Context) (sections : List OutputSection)
    (one : OneReloc sections) (single : ctx.machine.isArm64EC = false)
    (fresh : ∀ sec ∈ sections, ∀ c ∈ sec.chunks, c.rva = 0)
    (inSpace : ∀ sec ∈ (assignAddresses ctx sections).sections, InAddressSpace sec.chunks)
    (records : RecordsFinal ctx (assignAddresses ctx sections).sections) :
    NoLateBaserels ctx sections := by
  rcases Bool.eq_false_or_eq_true ctx.relocatable with relocatable | fixed
  case inr => exact Or.inl fixed
  refine Or.inr ?_
  have unmapped : createECCodeMap ctx sections = sections := by simp [createECCodeMap, single]
  obtain ⟨before, stale, final, recorded, finished, isStale, isFinal⟩ :=
    assignAddresses_baserels ctx sections one
  rw [unmapped] at isStale
  have placed : List.Forall₂ (PlacedFrom ctx) stale final := by
    obtain ⟨laid, same, placed⟩ := placedFrom_assignSections ctx
      (headerSize ctx sections.length) [] (alignTo (headerSize ctx sections.length) ctx.align)
      (headerSize ctx sections.length) [] sections
    rw [isStale, isFinal]
    apply behindReloc_forall₂ (PlacedFrom ctx) (fun _ _ related => related.1)
    unfold assignAddresses
    rw [unmapped]
    dsimp only
    rw [same, List.nil_append]
    exact placed
  -- The table was made from the addresses before the last sections were placed, and it is right
  -- only if these recorded the same.
  have same : (stale.flatMap OutputSection.baserels).Perm (final.flatMap OutputSection.baserels) := by
    have both := recorded.symm.trans (records.trans (by rw [finished]))
    simp only [finalBaserels, relocatable, if_true, List.flatMap_append] at both
    exact (List.perm_append_left_iff _).mp both
  -- Placing moves each record upwards, so the sum of their addresses tells the two apart,
  have grows := rvaSum_placedFrom_lt ctx stale final placed
    (fun sec member => oneReloc_behind sections one sec (isStale ▸ member))
    (fun sec member => fresh sec (mem_of_mem_behindReloc sections sec (isStale ▸ member)))
    (fun sec member => inSpace sec (mem_of_mem_behindReloc _ sec (isFinal ▸ member)))
  -- unless there is no record at all.
  have none : stale.flatMap OutputSection.offsetsToRecord = [] := by
    rw [← List.length_eq_zero_iff]
    have equal := rvaSum_perm _ _ same
    omega
  intro sec member kept c inSection
  have silent := List.flatMap_eq_nil_iff.mp none sec (isStale ▸ member)
  simp only [OutputSection.offsetsToRecord, kept, Bool.false_eq_true, if_false] at silent
  exact List.flatMap_eq_nil_iff.mp silent c inSection

/-! ### The finished image -/

/-- The machines whose addresses are assigned once. -/
def Machine.singlePass (machine : Machine) : Prop :=
  machine ≠ .armnt ∧ machine.isAnyArm64 = false

/--
Whatever the layout file and however many range extension passes are made: if no non-discardable
section behind `.reloc` has base relocations, `.reloc` ends up with those of the final addresses.
On machines without range extension the converse holds too, for chunks that start without an
address and an image that stays below 4 GiB.
-/
theorem finalizeAddresses_baserels (ctx : Context) (content : List Char)
    (sections : List OutputSection) (out : Layout) (one : OneReloc sections)
    (returned : finalizeAddresses ctx
      (layoutSections (parseSectionLayout content) sections) = .ok out) :
    (NoLateBaserels ctx (layoutSections (parseSectionLayout content) sections) →
        RecordsFinal ctx out.sections) ∧
      (ctx.machine.singlePass →
        (∀ sec ∈ sections, ∀ c ∈ sec.chunks, c.rva = 0) →
        (∀ sec ∈ out.sections, InAddressSpace sec.chunks) →
        RecordsFinal ctx out.sections →
          NoLateBaserels ctx (layoutSections (parseSectionLayout content) sections)) := by
  have ordered := oneReloc_layoutSections (parseSectionLayout content) sections one
  have members : ∀ sec ∈ layoutSections (parseSectionLayout content) sections, sec ∈ sections :=
    fun sec member => (layoutSections_perm _ _).mem_iff.mp member
  generalize layoutSections (parseSectionLayout content) sections = laidOut at *
  simp only [finalizeAddresses] at returned
  constructor
  -- every pass records at final addresses when nothing is collected behind the table
  · intro early
    have records := assignAddresses_recordsFinal ctx laidOut ordered early
    have states := laterStates_assignAddresses ctx laidOut
    split at returned
    · exact extendRanges_recordsFinal ctx 11 0 _ _ out (oneReloc_of_later _ _ states ordered)
        (noLateBaserels_later ctx _ _ states early) records returned
    · cases returned
      exact records
  -- with one pass, what was collected early stands at the addresses of an unplaced chunk
  · intro single fresh inSpace records
    rw [if_neg (by simp [single.1, single.2])] at returned
    cases returned
    have notEC : ctx.machine.isArm64EC = false := by
      have notArm64 := single.2
      cases machine : ctx.machine <;> simp_all [Machine.isAnyArm64, Machine.isArm64EC]
    exact noLateBaserels_of_recordsFinal ctx laidOut ordered notEC
      (fun sec member => fresh sec (members sec member)) inSpace records

/-- Eight bytes of data that hold the address of their own chunk. -/
def pointerChunk (key : Nat) : Chunk where
  key
  body := .input
    { machine := .amd64, size := 16, executable := false, hotPatchable := false,
      entryThunk := false, originalRelocs := [⟨8, relAmd64Addr64, .chunk key 0⟩],
      relocs := [⟨8, relAmd64Addr64, .chunk key 0⟩], chpeMetadata := none, same_baserels := rfl }
  p2Align := 4
  hasData := true
  rva := 0

def relocSection : OutputSection :=
  { plainSection ".reloc" [] with isRelocSec := true, discardable := true }

def pointerImage : List OutputSection :=
  [plainSection ".data" [pointerChunk 2], relocSection]

private theorem pointerImage_oneReloc : OneReloc pointerImage :=
  Or.inr ⟨rfl, Or.inl ⟨rfl, rfl, by simp⟩⟩

/-- Without a layout file `.reloc` comes last and the base relocation is right. -/
theorem pointerImage_recordsFinal :
    ∃ out, finalizeAddresses (.default .amd64) (layoutSections (parseSectionLayout []) pointerImage) =
        .ok out ∧
      recordedBaserels out.sections = [⟨0x1008, relBasedDir64⟩] ∧
      RecordsFinal (.default .amd64) out.sections ∧
      NoLateBaserels (.default .amd64) (layoutSections (parseSectionLayout []) pointerImage) := by
  refine ⟨_, rfl, by decide, ?_⟩
  have both := finalizeAddresses_baserels (.default .amd64) [] pointerImage _
    pointerImage_oneReloc rfl
  have records := both.1 (Or.inr (by
    simp [layoutSections, parseSectionLayout, addLayoutLine, trimLine, pointerImage, plainSection,
      relocSection, behindReloc]))
  refine ⟨records, both.2 ⟨by decide, rfl⟩ (by decide) ?_ records⟩
  simp only [InAddressSpace]
  decide

/-- A layout file that puts `.reloc` first. -/
def relocFirst : List Char := ['.', 'r', 'e', 'l', 'o', 'c', '\n']

theorem relocFirst_records_stale :
    ∃ out, finalizeAddresses (.default .amd64)
        (layoutSections (parseSectionLayout relocFirst) pointerImage) = .ok out ∧
      recordedBaserels out.sections = [⟨8, relBasedDir64⟩] ∧
      finalBaserels (.default .amd64) out.sections = [⟨0x2008, relBasedDir64⟩] ∧
      ¬ RecordsFinal (.default .amd64) out.sections := by
  refine ⟨_, rfl, by decide, by decide, fun records => ?_⟩
  exact absurd (rvaSum_perm _ _ records) (by decide)

end LlvmLd.Writer
