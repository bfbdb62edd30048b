import LlvmLd.Lib.Chains
import LlvmLd.Writer.Chunk
import Mathlib.Data.List.Flatten
import Mathlib.Data.String.Basic

/-!
`/merge`: the directives as the driver records them, the destination of a name, and the output
sections before and after `mergeSections`.
-/

namespace LlvmLd.Writer.Merging

open Chains

/-! ### The directives -/

/-- `Configuration::merge`, in the order of its keys. -/
structure MergeMap where
  entries : List (String × String)
  ordered : entries.Pairwise (fun p q => p.1 < q.1)

def MergeMap.find (merge : MergeMap) (name : String) : Option String :=
  (merge.entries.find? (fun p => p.1 = name)).map Prod.snd

/-- `std::map::insert`, which keeps an entry that is there. -/
def insertEntry (p : String × String) : List (String × String) → List (String × String)
  | [] => [p]
  | q :: rest =>
    if p.1 < q.1 then p :: q :: rest
    else if p.1 = q.1 then q :: rest
    else q :: insertEntry p rest

private theorem insertEntry_fst {p : String × String} {l : List (String × String)}
    {q : String × String} (member : q ∈ insertEntry p l) : q = p ∨ q ∈ l := by
  induction l with
  | nil => exact .inl (List.mem_singleton.mp member)
  | cons r l ih =>
    simp only [insertEntry] at member
    split at member
    · exact List.mem_cons.mp member
    · split at member
      · exact .inr member
      · rcases List.mem_cons.mp member with rfl | later
        · exact .inr List.mem_cons_self
        · exact (ih later).imp_right (List.mem_cons_of_mem r)

private theorem insertEntry_ordered {p : String × String} {l : List (String × String)}
    (ordered : l.Pairwise (fun p q => p.1 < q.1)) :
    (insertEntry p l).Pairwise (fun p q => p.1 < q.1) := by
  induction l with
  | nil => exact List.pairwise_singleton _ _
  | cons r l ih =>
    simp only [insertEntry]
    have below := (List.pairwise_cons.mp ordered).1
    split
    · rename_i low
      refine List.pairwise_cons.mpr ⟨?_, ordered⟩
      intro q member
      rcases List.mem_cons.mp member with rfl | later
      · exact low
      · exact low.trans (below q later)
    -- an entry of the same key stays, a larger one is passed
    · rename_i not_low
      split
      · exact ordered
      · rename_i apart
        refine List.pairwise_cons.mpr ⟨?_, ih (List.pairwise_cons.mp ordered).2⟩
        intro q member
        rcases insertEntry_fst member with rfl | later
        · exact lt_of_le_of_ne (not_lt.mp not_low) (Ne.symm apart)
        · exact below q later

def MergeMap.insert (merge : MergeMap) (p : String × String) : MergeMap where
  entries := insertEntry p merge.entries
  ordered := insertEntry_ordered merge.ordered

/-- `StringRef::split`. -/
def split (s : String) (separator : Char) : String × String :=
  (String.ofList (s.toList.takeWhile (· ≠ separator)),
    String.ofList ((s.toList.dropWhile (· ≠ separator)).drop 1))

/-- `LinkerDriver::parseMerge`; a second directive for a name is only warned about. -/
def parseMerge (merge : MergeMap) (s : String) : Except String MergeMap :=
  let p := split s '='
  if p.1 = "" ∨ p.2 = "" then .error ("/merge: invalid argument: " ++ s)
  else if p.1 = ".rsrc" ∨ p.2 = ".rsrc" then
    .error "/merge: cannot merge '.rsrc' with any section"
  else if p.1 = ".reloc" ∨ p.2 = ".reloc" then
    .error "/merge: cannot merge '.reloc' with any section"
  else .ok (merge.insert p)

/-! ### Where a name goes -/

inductive Stop where
  -- "/merge: cycle found for section"
  | cycleFound (fromSection : String)
  | outOfFuel
  deriving DecidableEq, Repr

def getMergeDestinationLoop (merge : MergeMap) (fromSection : String) :
    Nat → List String → String → Except Stop String
  | 0, _, _ => .error .outOfFuel
  | fuel + 1, names, toSection =>
    if toSection ∈ names then .error (.cycleFound fromSection)
    else match merge.find toSection with
      | none => .ok toSection
      | some second => getMergeDestinationLoop merge fromSection fuel (toSection :: names) second

def getMergeDestination (merge : MergeMap) (fromSection toSection : String) : Except Stop String :=
  getMergeDestinationLoop merge fromSection (merge.entries.length + 1) [] toSection

/-! ### The output sections -/

def cntCode : BitVec 32 := 0x20
def cntInitializedData : BitVec 32 := 0x40
def cntUninitializedData : BitVec 32 := 0x80
def memShared : BitVec 32 := 0x10000000

structure Chunk where
  key : Nat
  machine : Machine
  deriving DecidableEq, Repr

structure OutputSection where
  name : String
  characteristics : BitVec 32
  -- `sec == pdataSec`
  isPdataSec : Bool
  chunks : List Chunk
  -- the partial sections that went into it
  contribSections : List Nat
  deriving DecidableEq, Repr

def OutputSection.merge (sec other : OutputSection) : OutputSection :=
  { sec with
    chunks := sec.chunks ++ other.chunks
    contribSections := sec.contribSections ++ other.contribSections
    characteristics :=
      if other.characteristics &&& cntCode = 0 then sec.characteristics
      else (sec.characteristics ||| cntCode) &&& ~~~(cntInitializedData ||| cntUninitializedData) }

def OutputSection.clear (sec : OutputSection) : OutputSection :=
  { sec with chunks := [], contribSections := [] }

def OutputSection.rename (name : String) (sec : OutputSection) : OutputSection :=
  { sec with name := name }

/-- `findSection` returns the first section of the name. -/
def findSection (sections : List OutputSection) (name : String) : Option OutputSection :=
  sections.find? (fun sec => sec.name = name)

/-- What is written through the pointer that `findSection` returns. -/
def updateSection (name : String) (f : OutputSection → OutputSection) :
    List OutputSection → List OutputSection
  | [] => []
  | sec :: rest => if sec.name = name then f sec :: rest else sec :: updateSection name f rest

/-- The end of `mergeSection`, when the destination is known. -/
def moveSection (fromSection toSection : String) (sections : List OutputSection) :
    List OutputSection :=
  match findSection sections fromSection with
  | none => sections
  | some other =>
    match findSection sections toSection with
    | none => updateSection fromSection (·.rename toSection) sections
    | some _ =>
      updateSection fromSection (·.clear) (updateSection toSection (·.merge other) sections)

def mergeSection (merge : MergeMap) (p : String × String) (sections : List OutputSection) :
    Except Stop (List OutputSection) :=
  if p.1 = p.2 then .ok sections
  else
    match getMergeDestination merge p.1 p.2 with
    | .error stop => .error stop
    | .ok toSection => .ok (moveSection p.1 toSection sections)

/-- The first and the last chunk of a region. -/
structure ChunkRange where
  first : Option Chunk
  last : Option Chunk
  deriving DecidableEq, Repr

/-- On ARM64EC the chunks of `.pdata` are sorted by whether they are for AMD64. -/
def sortPdata (machine : Machine) (chunks : List Chunk) : List Chunk :=
  if machine.isArm64EC then
    chunks.mergeSort (fun a b => !(b.machine != .amd64 && a.machine == .amd64))
  else chunks

/-- The regions `pdata` and `hybridPdata` of sorted chunks. -/
def pdataRanges (machine : Machine) (chunks : List Chunk) : ChunkRange × ChunkRange :=
  if machine.isArm64EC then
    let native := chunks.takeWhile (fun chunk => chunk.machine ≠ .amd64)
    let hybrid := chunks.dropWhile (fun chunk => chunk.machine ≠ .amd64)
    (⟨native.head?, native.getLast?⟩, ⟨hybrid.head?, hybrid.getLast?⟩)
  else (⟨chunks.head?, chunks.getLast?⟩, ⟨none, none⟩)

structure Config where
  machine : Machine
  merge : MergeMap
  -- the characteristics that `/section` asks for
  sectionAttributes : List (String × BitVec 32)

def Config.shared (config : Config) (name : String) : Bool :=
  match config.sectionAttributes.lookup name with
  | none => false
  | some characteristics => characteristics &&& memShared ≠ 0

structure Merged where
  sections : List OutputSection
  pdata : ChunkRange
  hybridPdata : ChunkRange

def pdataChunks (sections : List OutputSection) : List Chunk :=
  match sections.find? (·.isPdataSec) with
  | none => []
  | some sec => sec.chunks

def OutputSection.sortPdata (machine : Machine) (sec : OutputSection) : OutputSection :=
  if sec.isPdataSec then { sec with chunks := Merging.sortPdata machine sec.chunks } else sec

def mergeAll (merge : MergeMap) (entries : List (String × String))
    (sections : List OutputSection) : Except Stop (List OutputSection) :=
  entries.foldlM (fun sections p => mergeSection merge p sections) sections

/-- `.bss` comes last, unless it would go into a shared section. -/
def mergeBss (config : Config) (sections : List OutputSection) :
    Except Stop (List OutputSection) :=
  match config.merge.find ".bss" with
  | none => .ok sections
  | some second =>
    match getMergeDestination config.merge ".bss" second with
    | .error stop => .error stop
    | .ok toSection =>
      if config.shared toSection then .ok sections
      else mergeSection config.merge (".bss", toSection) sections

def mergeSections (config : Config) (sections : List OutputSection) : Except Stop Merged := do
  let sorted := sections.map (·.sortPdata config.machine)
  let ranges := pdataRanges config.machine (pdataChunks sorted)
  let merged ← mergeAll config.merge (config.merge.entries.filter (fun p => p.1 ≠ ".bss")) sorted
  let sections ← mergeBss config merged
  return ⟨sections, ranges.1, ranges.2⟩

/-! ### One section at a time -/

def named (sections : List OutputSection) (name : String) : List OutputSection :=
  sections.filter (fun sec => sec.name = name)

def chunksOf (sections : List OutputSection) : List Chunk :=
  sections.flatMap (·.chunks)

/-- The chunk is in a section of the name. -/
def At (sections : List OutputSection) (name : String) (c : Chunk) : Prop :=
  c ∈ chunksOf (named sections name)

theorem findSection_eq (sections : List OutputSection) (name : String) :
    findSection sections name = (named sections name).head? :=
  List.head?_filter.symm

private theorem exists_split {sections : List OutputSection} {name : String} {sec : OutputSection}
    (found : findSection sections name = some sec) : ∃ before after,
      sections = before ++ sec :: after ∧ sec.name = name ∧ ∀ s ∈ before, s.name ≠ name := by
  obtain ⟨same, before, after, cut, apart⟩ := List.find?_eq_some_iff_append.mp found
  refine ⟨before, after, cut, of_decide_eq_true same, ?_⟩
  intro s member
  simpa using apart s member

private theorem updateSection_append {name : String} (f : OutputSection → OutputSection)
    {before : List OutputSection} {sec : OutputSection} (after : List OutputSection)
    (same : sec.name = name) (apart : ∀ s ∈ before, s.name ≠ name) :
    updateSection name f (before ++ sec :: after) = before ++ f sec :: after := by
  induction before with
  | nil => exact if_pos same
  | cons s before ih =>
    have other : s.name ≠ name := apart s List.mem_cons_self
    have rest := ih (fun t member => apart t (List.mem_cons_of_mem s member))
    simp only [List.cons_append, updateSection, if_neg other, rest]

private theorem named_append (left right : List OutputSection) (name : String) :
    named (left ++ right) name = named left name ++ named right name :=
  List.filter_append ..

private theorem named_cons_same {sec : OutputSection} {name : String} (same : sec.name = name)
    (rest : List OutputSection) : named (sec :: rest) name = sec :: named rest name :=
  List.filter_cons_of_pos (by simpa using same)

private theorem named_cons_other {sec : OutputSection} {name : String} (apart : sec.name ≠ name)
    (rest : List OutputSection) : named (sec :: rest) name = named rest name :=
  List.filter_cons_of_neg (by simpa using apart)

private theorem named_eq_nil {sections : List OutputSection} {name : String}
    (apart : ∀ s ∈ sections, s.name ≠ name) : named sections name = [] := by
  apply List.filter_eq_nil_iff.mpr
  intro s member
  simpa using apart s member

private theorem chunksOf_append (left right : List OutputSection) :
    chunksOf (left ++ right) = chunksOf left ++ chunksOf right :=
  List.flatMap_append

theorem chunksOf_cons (sec : OutputSection) (rest : List OutputSection) :
    chunksOf (sec :: rest) = sec.chunks ++ chunksOf rest :=
  List.flatMap_cons

theorem At.of_mem {sections : List OutputSection} {sec : OutputSection} {c : Chunk}
    (member : sec ∈ sections) (inside : c ∈ sec.chunks) : At sections sec.name c :=
  List.mem_flatMap.mpr ⟨sec, List.mem_filter.mpr ⟨member, by simp⟩, inside⟩

private theorem At.mem_chunksOf {sections : List OutputSection} {name : String} {c : Chunk}
    (here : At sections name c) : c ∈ chunksOf sections := by
  obtain ⟨sec, member, inside⟩ := List.mem_flatMap.mp here
  exact List.mem_flatMap.mpr ⟨sec, (List.mem_filter.mp member).1, inside⟩

/-- A chunk that is in one place only has one name. -/
theorem At.unique {sections : List OutputSection} (once : (chunksOf sections).Nodup)
    {left right : String} {c : Chunk} (here : At sections left c) (there : At sections right c) :
    left = right := by
  induction sections with
  | nil => cases here
  | cons sec rest ih =>
    rw [chunksOf_cons, List.nodup_append'] at once
    obtain ⟨-, tail, disjoint⟩ := once
    -- a chunk of the list is in the first section or in a later one
    have placed : ∀ name, At (sec :: rest) name c →
        (sec.name = name ∧ c ∈ sec.chunks) ∨ At rest name c := by
      intro name at_name
      by_cases same : sec.name = name
      · rw [At, named_cons_same same, chunksOf_cons, List.mem_append] at at_name
        exact at_name.imp_left (fun inside => ⟨same, inside⟩)
      · rw [At, named_cons_other same] at at_name
        exact .inr at_name
    rcases placed left here with ⟨name_l, in_l⟩ | rest_l
    · rcases placed right there with ⟨name_r, -⟩ | rest_r
      · exact name_l.symm.trans name_r
      · exact absurd rest_r.mem_chunksOf (disjoint in_l)
    · rcases placed right there with ⟨-, in_r⟩ | rest_r
      · exact absurd rest_l.mem_chunksOf (disjoint in_r)
      · exact ih tail rest_l rest_r

section Update

variable {sections : List OutputSection} {name : String} {sec : OutputSection}
  (found : findSection sections name = some sec) (f : OutputSection → OutputSection)

include found

theorem findSection_name : sec.name = name := by
  obtain ⟨_, _, _, same, _⟩ := exists_split found
  exact same

private theorem named_eq_cons : named sections name = sec :: (named sections name).tail := by
  rw [findSection_eq] at found
  exact (List.cons_head?_tail found).symm

private theorem named_update_other {other : String} (apart : other ≠ name)
    (away : (f sec).name ≠ other) :
    named (updateSection name f sections) other = named sections other := by
  obtain ⟨before, after, cut, same, early⟩ := exists_split found
  have old : sec.name ≠ other := by
    rw [same]
    exact Ne.symm apart
  rw [cut, updateSection_append f after same early, named_append, named_append,
    named_cons_other away, named_cons_other old]

private theorem named_update_kept (kept : (f sec).name = name) :
    named (updateSection name f sections) name = f sec :: (named sections name).tail := by
  obtain ⟨before, after, cut, same, early⟩ := exists_split found
  rw [cut, updateSection_append f after same early, named_append, named_append,
    named_eq_nil early, named_cons_same kept, named_cons_same same]
  rfl

private theorem named_update_lost (lost : (f sec).name ≠ name) :
    named (updateSection name f sections) name = (named sections name).tail := by
  obtain ⟨before, after, cut, same, early⟩ := exists_split found
  rw [cut, updateSection_append f after same early, named_append, named_append,
    named_eq_nil early, named_cons_other lost, named_cons_same same]
  rfl

private theorem mem_updateSection : f sec ∈ updateSection name f sections := by
  obtain ⟨before, after, cut, same, early⟩ := exists_split found
  rw [cut, updateSection_append f after same early]
  simp

private theorem mem_updateSection_of_ne {other : OutputSection} (member : other ∈ sections)
    (apart : other.name ≠ name) : other ∈ updateSection name f sections := by
  obtain ⟨before, after, cut, same, early⟩ := exists_split found
  have ne : other ≠ sec := fun h => apart (h ▸ same)
  rw [cut] at member
  rw [cut, updateSection_append f after same early]
  simp only [List.mem_append, List.mem_cons] at member ⊢
  rcases member with h | h | h
  · exact .inl h
  · exact absurd h ne
  · exact .inr (.inr h)

private theorem chunksOf_update : ∃ rest, (chunksOf sections).Perm (sec.chunks ++ rest) ∧
    (chunksOf (updateSection name f sections)).Perm ((f sec).chunks ++ rest) := by
  obtain ⟨before, after, cut, same, early⟩ := exists_split found
  have around : ∀ s : OutputSection, (chunksOf (before ++ s :: after)).Perm
      (s.chunks ++ (chunksOf before ++ chunksOf after)) := by
    intro s
    rw [chunksOf_append, chunksOf_cons, ← List.append_assoc, ← List.append_assoc]
    exact List.perm_append_comm.append_right _
  refine ⟨chunksOf before ++ chunksOf after, ?_, ?_⟩
  · rw [cut]
    exact around sec
  · rw [cut, updateSection_append f after same early]
    exact around (f sec)

end Update

/-! ### One move -/

section Move

variable {fromSection toSection : String} (sections : List OutputSection)
  (apart : fromSection ≠ toSection)

private theorem moveSection_none (lost : findSection sections fromSection = none) :
    moveSection fromSection toSection sections = sections := by
  simp only [moveSection, lost]

private theorem moveSection_rename {other : OutputSection}
    (found : findSection sections fromSection = some other)
    (missing : findSection sections toSection = none) :
    moveSection fromSection toSection sections =
      updateSection fromSection (·.rename toSection) sections := by
  simp only [moveSection, found, missing]

private theorem moveSection_merge {other sec : OutputSection}
    (found : findSection sections fromSection = some other)
    (target : findSection sections toSection = some sec) :
    moveSection fromSection toSection sections =
      updateSection fromSection (·.clear)
        (updateSection toSection (·.merge other) sections) := by
  simp only [moveSection, found, target]

include apart

/-- The source is still the first of its name when the destination has been written. -/
theorem findSection_after_merge {other sec : OutputSection}
    (found : findSection sections fromSection = some other)
    (target : findSection sections toSection = some sec) :
    findSection (updateSection toSection (·.merge other) sections) fromSection = some other := by
  have name := findSection_name target
  rw [findSection_eq, named_update_other target _ apart, ← findSection_eq]
  · exact found
  · intro same
    exact apart (same.symm.trans name)

private theorem moveSection_named_other {name : String} (not_from : name ≠ fromSection)
    (not_to : name ≠ toSection) :
    named (moveSection fromSection toSection sections) name = named sections name := by
  cases found : findSection sections fromSection with
  | none => rw [moveSection_none sections found]
  | some other =>
    have other_name := findSection_name found
    cases target : findSection sections toSection with
    | none =>
      rw [moveSection_rename sections found target]
      exact named_update_other found _ not_from (Ne.symm not_to)
    | some sec =>
      have sec_name := findSection_name target
      rw [moveSection_merge sections found target]
      rw [named_update_other (findSection_after_merge sections apart found target) _ not_from]
      · apply named_update_other target _ not_to
        intro same
        exact not_to (same.symm.trans sec_name)
      · intro same
        exact not_from (same.symm.trans other_name)

/-- Only the first section of the source's name gives its chunks away. -/
theorem moveSection_left :
    chunksOf (named (moveSection fromSection toSection sections) fromSection) =
      chunksOf (named sections fromSection).tail := by
  -- nothing to move, a rename when the target is missing, or a merge
  cases found : findSection sections fromSection with
  | none =>
    have empty : named sections fromSection = [] := by
      rw [findSection_eq] at found
      exact List.head?_eq_none_iff.mp found
    rw [moveSection_none sections found, empty]
    rfl
  | some other =>
    cases target : findSection sections toSection with
    | none =>
      rw [moveSection_rename sections found target]
      rw [named_update_lost found _ (Ne.symm apart)]
    | some sec =>
      have still := findSection_after_merge sections apart found target
      have other_name := findSection_name found
      have sec_name := findSection_name target
      rw [moveSection_merge sections found target]
      rw [named_update_kept still (·.clear) other_name, chunksOf_cons]
      rw [named_update_other target _ apart]
      · rfl
      · intro same
        exact apart (same.symm.trans sec_name)

/-- The chunks that move stand behind those of the section they move to. -/
theorem moveSection_arrives {other : OutputSection}
    (found : findSection sections fromSection = some other) :
    ∃ sec ∈ moveSection fromSection toSection sections,
      sec.name = toSection ∧ other.chunks <:+ sec.chunks := by
  cases target : findSection sections toSection with
  | none =>
    rw [moveSection_rename sections found target]
    exact ⟨other.rename toSection, mem_updateSection found _, rfl, List.suffix_refl _⟩
  | some sec =>
    have sec_name := findSection_name target
    rw [moveSection_merge sections found target]
    refine ⟨sec.merge other, ?_, sec_name, List.suffix_append _ _⟩
    apply mem_updateSection_of_ne (findSection_after_merge sections apart found target)
    · exact mem_updateSection target (·.merge other)
    · intro same
      exact apart (same.symm.trans sec_name)

private theorem moveSection_stays {name : String} {c : Chunk} (not_from : name ≠ fromSection)
    (here : At sections name c) : At (moveSection fromSection toSection sections) name c := by
  -- the target of the move keeps its chunks in front of those that come in
  by_cases to_here : name = toSection
  · subst to_here
    cases found : findSection sections fromSection with
    | none =>
      rw [moveSection_none sections found]
      exact here
    | some other =>
      cases target : findSection sections name with
      | none =>
        rw [findSection_eq] at target
        rw [At, List.head?_eq_none_iff.mp target] at here
        cases here
      | some sec =>
        have still := findSection_after_merge sections apart found target
        have sec_name := findSection_name target
        rw [At, named_eq_cons target, chunksOf_cons] at here
        rw [moveSection_merge sections found target, At]
        rw [named_update_other still _ not_from,
          named_update_kept target (·.merge other) sec_name, chunksOf_cons]
        · rcases List.mem_append.mp here with inside | later
          · exact List.mem_append_left _ (List.mem_append_left _ inside)
          · exact List.mem_append_right _ later
        · intro same
          exact apart ((findSection_name found).symm.trans same)
  · rw [At, moveSection_named_other sections apart not_from to_here]
    exact here

private theorem moveSection_perm :
    (chunksOf (moveSection fromSection toSection sections)).Perm (chunksOf sections) := by
  cases found : findSection sections fromSection with
  | none => rw [moveSection_none sections found]
  | some other =>
    cases target : findSection sections toSection with
    | none =>
      rw [moveSection_rename sections found target]
      obtain ⟨rest, before, after⟩ := chunksOf_update found (·.rename toSection)
      exact after.trans before.symm
    | some sec =>
      have still := findSection_after_merge sections apart found target
      rw [moveSection_merge sections found target]
      obtain ⟨rest, before, after⟩ := chunksOf_update target (·.merge other)
      obtain ⟨left, taken, cleared⟩ := chunksOf_update still (·.clear)
      -- the chunks are doubled by the first write and taken out by the second
      have doubled : (other.chunks ++ left).Perm (other.chunks ++ (sec.chunks ++ rest)) := by
        refine taken.symm.trans (after.trans ?_)
        simp only [OutputSection.merge, List.append_assoc]
        exact (List.perm_append_comm_assoc _ _ _)
      have single := (List.perm_append_left_iff _).mp doubled
      exact cleared.trans (single.trans before.symm)

end Move

/-! ### A run of moves -/

def applyMoves (moves : List (String × String)) (sections : List OutputSection) :
    List OutputSection :=
  moves.foldl (fun sections m => moveSection m.1 m.2 sections) sections

/-- No name is moved twice and nothing is moved into a section that is moved away. -/
structure Consistent (moves : List (String × String)) : Prop where
  once : (moves.map Prod.fst).Nodup
  apart : ∀ m ∈ moves, ∀ n ∈ moves, m.2 ≠ n.1

theorem applyMoves_append (left right : List (String × String)) (sections : List OutputSection) :
    applyMoves (left ++ right) sections = applyMoves right (applyMoves left sections) :=
  List.foldl_append

private theorem applyMoves_cons (m : String × String) (rest : List (String × String))
    (sections : List OutputSection) :
    applyMoves (m :: rest) sections = applyMoves rest (moveSection m.1 m.2 sections) := rfl

section Run

variable {moves : List (String × String)} (sections : List OutputSection)

theorem applyMoves_perm (apart : ∀ m ∈ moves, m.1 ≠ m.2) :
    (chunksOf (applyMoves moves sections)).Perm (chunksOf sections) := by
  induction moves generalizing sections with
  | nil => exact List.Perm.refl _
  | cons m rest ih =>
    have tail := ih (moveSection m.1 m.2 sections)
      (fun n member => apart n (List.mem_cons_of_mem m member))
    exact tail.trans (moveSection_perm sections (apart m List.mem_cons_self))

theorem applyMoves_named (name : String)
    (apart : ∀ m ∈ moves, m.1 ≠ m.2 ∧ name ≠ m.1 ∧ name ≠ m.2) :
    named (applyMoves moves sections) name = named sections name := by
  induction moves generalizing sections with
  | nil => rfl
  | cons m rest ih =>
    obtain ⟨differ, not_from, not_to⟩ := apart m List.mem_cons_self
    rw [applyMoves_cons, ih _ (fun n member => apart n (List.mem_cons_of_mem m member))]
    exact moveSection_named_other sections differ not_from not_to

theorem applyMoves_stays {name : String} {c : Chunk}
    (apart : ∀ m ∈ moves, m.1 ≠ m.2 ∧ name ≠ m.1) (here : At sections name c) :
    At (applyMoves moves sections) name c := by
  induction moves generalizing sections with
  | nil => exact here
  | cons m rest ih =>
    obtain ⟨differ, not_from⟩ := apart m List.mem_cons_self
    apply ih _ (fun n member => apart n (List.mem_cons_of_mem m member))
    exact moveSection_stays sections differ not_from here

end Run

namespace Consistent

variable {moves : List (String × String)} (consistent : Consistent moves)
  (sections : List OutputSection)

include consistent

theorem differ {m : String × String} (member : m ∈ moves) : m.1 ≠ m.2 :=
  Ne.symm (consistent.apart m member m member)

/-- The move of a name finds its sections as they were, and nothing touches what it leaves. -/
theorem cut {m : String × String} (member : m ∈ moves) : ∃ left right,
    moves = left ++ m :: right ∧
    (∀ n ∈ left, n.1 ≠ n.2 ∧ m.1 ≠ n.1 ∧ m.1 ≠ n.2) ∧
    (∀ n ∈ right, n.1 ≠ n.2 ∧ m.1 ≠ n.1 ∧ m.1 ≠ n.2) := by
  obtain ⟨left, right, cut⟩ := List.append_of_mem member
  have distinct := consistent.once
  rw [cut, List.map_append, List.map_cons, List.nodup_append'] at distinct
  obtain ⟨-, tail, disjoint⟩ := distinct
  refine ⟨left, right, cut, ?_, ?_⟩
  · intro n inside
    have n_mem : n ∈ moves := cut ▸ List.mem_append_left _ inside
    refine ⟨consistent.differ n_mem, ?_, Ne.symm (consistent.apart n n_mem m member)⟩
    intro same
    exact disjoint (List.mem_map_of_mem inside) (same ▸ List.mem_cons_self)
  · intro n inside
    have n_mem : n ∈ moves := cut ▸ List.mem_append_right _ (List.mem_cons_of_mem m inside)
    refine ⟨consistent.differ n_mem, ?_, Ne.symm (consistent.apart n n_mem m member)⟩
    intro same
    exact (List.nodup_cons.mp tail).1 (same ▸ List.mem_map_of_mem inside)

theorem arrives {m : String × String} (member : m ∈ moves) {other : OutputSection}
    (found : findSection sections m.1 = some other) {c : Chunk} (inside : c ∈ other.chunks) :
    At (applyMoves moves sections) m.2 c := by
  obtain ⟨left, right, cut, early, late⟩ := consistent.cut member
  have still : findSection (applyMoves left sections) m.1 = some other := by
    rw [findSection_eq, applyMoves_named sections m.1 early, ← findSection_eq]
    exact found
  obtain ⟨sec, sec_mem, name, suffix⟩ :=
    moveSection_arrives (applyMoves left sections) (consistent.differ member) still
  rw [cut, applyMoves_append, applyMoves_cons]
  apply applyMoves_stays
  · intro n n_late
    have n_mem : n ∈ moves := cut ▸ List.mem_append_right _ (List.mem_cons_of_mem m n_late)
    exact ⟨(late n n_late).1, consistent.apart m member n n_mem⟩
  · have here := At.of_mem sec_mem (suffix.subset inside)
    rw [name] at here
    exact here

theorem leftover {m : String × String} (member : m ∈ moves) {c : Chunk}
    (inside : c ∈ chunksOf (named sections m.1).tail) :
    At (applyMoves moves sections) m.1 c := by
  obtain ⟨left, right, cut, early, late⟩ := consistent.cut member
  rw [cut, applyMoves_append, applyMoves_cons, At, applyMoves_named _ m.1 late,
    moveSection_left _ (consistent.differ member), applyMoves_named sections m.1 early]
  exact inside

end Consistent

end LlvmLd.Writer.Merging
