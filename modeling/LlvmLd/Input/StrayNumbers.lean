import LlvmLd.Input.ReadSymbols

/-!
Which numbers of an object `parse` has to find in range itself.

The number of a comdat's parent, the tag of a weak external and the symbols of a map of thunks are
used as they stand in the file; every other index has been checked before.
-/

namespace LlvmLd.Input.Coff

open Outcome

variable {o : ObjFile} {env : Surroundings}

/-! ### The second loop -/

private theorem readAssociativeDefinition_avoids {i : Nat} {parentIndex : Int} {s : State}
    (inBounds : InBounds o s) (hasChunk : HasChunk o (o.getSectionNumber i))
    (inside : 0 ≤ parentIndex ∧ parentIndex < o.numberOfChunks) :
    Avoids .outOfBounds (fun s' => InBounds o s' ∧ s'.weakAliases = s.weakAliases)
      (readAssociativeDefinition o env i parentIndex s) := by
  obtain ⟨n, at_n⟩ := Int.eq_ofNat_of_zero_le hasChunk.1.le
  have in_chunks : o.getSectionNumber i < s.sparseChunks.length := by
    rw [inBounds.sparseChunks]
    exact hasChunk.2
  dsimp only [readAssociativeDefinition]
  refine (access_avoids inside.1 (by rw [inBounds.sparseChunks]; exact inside.2)).bind ?_
  intro parent _
  split
  · exact check_avoids.bind fun _ _ => getSection_avoids.bind fun _ _ => ⟨inBounds, rfl⟩
  -- the parent is there: the child's section is read and takes its place
  · refine readSection_avoids.bind ?_
    rintro ⟨c, s'⟩ ⟨-, hybmpChunks, rfl⟩
    refine (write_avoids hasChunk.1.le in_chunks).bind ?_
    rintro _ rfl
    exact ⟨inBounds.assign _ c hybmpChunks, rfl⟩
  · refine (write_avoids hasChunk.1.le in_chunks).bind ?_
    rintro _ rfl
    exact ⟨inBounds.assign _ .null s.hybmpChunks, rfl⟩

private theorem maybeAssociateSEHForMingw_avoids {i : Nat} {s : State} (inBounds : InBounds o s)
    (hasChunk : HasChunk o (o.getSectionNumber i)) :
    Avoids .outOfBounds (fun s' => InBounds o s' ∧ s'.weakAliases = s.weakAliases)
      (maybeAssociateSEHForMingw o env i s) := by
  simp only [maybeAssociateSEHForMingw]
  refine check_avoids.bind fun name _ => ?_
  split
  · rename_i front _
    split
    · rename_i parent found
      -- the parent was recorded when its section was known to exist
      obtain ⟨before, behind, split_at, -⟩ := List.lookup_eq_some_iff.mp found
      refine readAssociativeDefinition_avoids inBounds hasChunk
        (inBounds.prevailingSectionMap (name.drop front.length, parent) ?_)
      rw [split_at]
      exact List.mem_append_right _ (List.mem_cons_self ..)
    · exact ⟨inBounds, rfl⟩
  · exact ⟨inBounds, rfl⟩

variable (o) in
/-- If the symbol is an associative section definition, the number of its parent is a section's. -/
def ParentInside (i : Nat) : Prop :=
  o.hasSectionDefinition i = true → o.selection i = 5 → o.definitionNumber i < o.numberOfChunks

private theorem resolveSection_avoids {i : Nat} {s : State} (inBounds : InBounds o s)
    (hasChunk : HasChunk o (o.getSectionNumber i)) (parent : ParentInside o i) :
    Avoids .outOfBounds (fun s' => InBounds o s' ∧ s'.weakAliases = s.weakAliases)
      (resolveSection o env s i) := by
  simp only [resolveSection]
  split
  · rename_i defines
    split
    · rename_i associative
      have below := parent defines associative
      exact readAssociativeDefinition_avoids inBounds hasChunk ⟨by omega, by exact_mod_cast below⟩
    split
    · exact maybeAssociateSEHForMingw_avoids inBounds hasChunk
    · exact ⟨inBounds, rfl⟩
  · exact ⟨inBounds, rfl⟩

variable (env) in
private theorem resolvePending_avoids {i : Nat} {s : State} (inBounds : InBounds o s)
    (pending : HasChunk o (o.getSectionNumber i) ∧ i < o.numberOfSymbols)
    (parent : ParentInside o i) :
    Avoids .outOfBounds (fun s' => InBounds o s' ∧ s'.weakAliases = s.weakAliases)
      (resolvePending o env s i) := by
  obtain ⟨hasChunk, inside⟩ := pending
  simp only [resolvePending]
  refine (resolveSection_avoids inBounds hasChunk parent).bind ?_
  rintro s' ⟨inBounds', weakAliases⟩
  refine (access_avoids hasChunk.1.le (by rw [inBounds'.sparseChunks]; exact hasChunk.2)).bind ?_
  intro sc _
  split
  · exact check_avoids.bind fun _ _ => ⟨inBounds', weakAliases⟩
  · refine (createRegular_avoids inBounds' hasChunk).bind fun symbol _ => ?_
    refine (write_avoids (by omega) (by rw [inBounds'.symbols]; exact_mod_cast inside)).bind ?_
    rintro _ rfl
    exact ⟨inBounds'.setSymbol i symbol, weakAliases⟩

variable (env) in
/-- The parent of an associative definition is all that a round of the second loop does not check. -/
theorem resolvePending_ne_iff {i : Nat} {s : State} (inBounds : InBounds o s)
    (pending : HasChunk o (o.getSectionNumber i) ∧ i < o.numberOfSymbols) :
    resolvePending o env s i ≠ .error .outOfBounds ↔ ParentInside o i := by
  constructor
  · intro ne defines associative
    by_contra outside
    refine ne ?_
    have above : s.sparseChunks.length ≤ o.definitionNumber i := by
      rw [inBounds.sparseChunks]
      exact not_lt.mp outside
    rw [resolvePending, resolveSection, if_pos defines, if_pos associative, readAssociativeDefinition,
      access_outOfBounds above]
    rfl
  · exact fun parent => (resolvePending_avoids env inBounds pending parent).ne

/-- What the second loop keeps, wherever it comes to. -/
theorem resolvePending_keeps {s s' : State} {l : List Nat} (inBounds : InBounds o s)
    (pending : ∀ i ∈ l, HasChunk o (o.getSectionNumber i) ∧ i < o.numberOfSymbols)
    (ends : l.foldlM (resolvePending o env) s = .ok s') :
    InBounds o s' ∧ s'.weakAliases = s.weakAliases := by
  refine foldlM_keeps (I := fun _ t => InBounds o t ∧ t.weakAliases = s.weakAliases) ?_ []
    ⟨inBounds, rfl⟩ ends
  rintro _ t t' i member ⟨kept, weakAliases⟩ step
  have parent : ParentInside o i := by
    rw [← resolvePending_ne_iff env kept (pending i member), step]
    simp
  obtain ⟨kept', same⟩ := (resolvePending_avoids env kept (pending i member) parent).of_ok step
  exact ⟨kept', same.trans weakAliases⟩

private theorem secondLoop_ne_iff {s : State} {l : List Nat} (inBounds : InBounds o s)
    (pending : ∀ i ∈ l, HasChunk o (o.getSectionNumber i) ∧ i < o.numberOfSymbols) :
    l.foldlM (resolvePending o env) s ≠ .error .outOfBounds ↔
      ∀ i s', ComesTo (resolvePending o env) s l i s' → ParentInside o i := by
  rw [foldlM_ne_iff]
  have step : ∀ i s', ComesTo (resolvePending o env) s l i s' →
      (resolvePending o env s' i ≠ .error .outOfBounds ↔ ParentInside o i) := by
    rintro i s' ⟨before, behind, rfl, ends⟩
    have kept := resolvePending_keeps inBounds (fun j member => pending j (by simp [member])) ends
    exact resolvePending_ne_iff env kept.1 (pending i (by simp))
  exact forall₂_congr fun i s' => ⟨fun ne comes => (step i s' comes).mp (ne comes),
    fun parent comes => (step i s' comes).mpr (parent comes)⟩

/-! ### The third loop, and the thunks -/

private theorem thirdLoop_ne_iff {s : State} {l : List Nat} (inBounds : InBounds o s) :
    l.foldlM (setAlias o s) [] ≠ .error .outOfBounds ↔ ∀ i ∈ l, o.tagIndex i < o.numberOfSymbols := by
  rw [← inBounds.symbols]
  refine foldlM_ne_iff_forall (fun aliases i inside => ?_) fun aliases i outside => ?_
  · rw [setAlias, access_eq inside]
    exact ⟨_, rfl⟩
  · rw [setAlias, access_outOfBounds (not_lt.mp outside)]
    rfl

variable (o) in
/-- If the entry of a map at `k` is a thunk, its two symbols are in the table. -/
def EntryInside (contents : Bytes) (k : Nat) : Prop :=
  contents.u32At (12 * k + 8) = 1 ∨ contents.u32At (12 * k + 8) = 4 →
    contents.u32At (12 * k) < o.numberOfSymbols ∧ contents.u32At (12 * k + 4) < o.numberOfSymbols

variable (o) in
/-- If the map of thunks is read, all of its entries name symbols in the table. -/
def MapInside (number : Nat) : Prop :=
  ∀ contents, (o.header number).bind CoffSection.contents = some contents →
    contents.length % 12 = 0 → ∀ k < contents.length / 12, EntryInside o contents k

/-- Two symbols that are read behind one another. -/
theorem getSymbols_eq {β : Type} {s : State} {src dst : Nat} {f : Option Symbol → Option Symbol → β}
    (inBounds : InBounds o s) (inside : src < o.numberOfSymbols ∧ dst < o.numberOfSymbols) :
    ∃ b, (do let a ← getSymbol s src; let a' ← getSymbol s dst; pure (f a a')) = Except.ok b := by
  rw [← inBounds.symbols] at inside
  rw [getSymbol, getSymbol, access_eq inside.1, access_eq inside.2]
  exact ⟨_, rfl⟩

private theorem getSymbols_outOfBounds {β : Type} {s : State} {src dst : Nat}
    {f : Option Symbol → Option Symbol → β} (inBounds : InBounds o s)
    (outside : ¬ (src < o.numberOfSymbols ∧ dst < o.numberOfSymbols)) :
    (do let a ← getSymbol s src; let a' ← getSymbol s dst; pure (f a a')) =
      Except.error .outOfBounds := by
  rw [← inBounds.symbols, not_and_or, not_lt, not_lt] at outside
  rw [getSymbol, getSymbol]
  by_cases src_inside : src < s.symbols.length
  · have dst_outside : s.symbols.length ≤ dst := by omega
    rw [access_eq src_inside, access_outOfBounds dst_outside]
    rfl
  · rw [access_outOfBounds (not_lt.mp src_inside)]
    rfl

private theorem readMap_ne_iff {s : State} {contents : Bytes} {thunks : Thunks}
    (inBounds : InBounds o s) :
    (List.range (contents.length / 12)).foldlM (readEntry s contents) thunks ≠ .error .outOfBounds ↔
      ∀ k < contents.length / 12, EntryInside o contents k := by
  have entries : ∀ (P : Nat → Prop), (∀ k ∈ List.range (contents.length / 12), P k) ↔
      ∀ k < contents.length / 12, P k := by
    intro P
    simp only [List.mem_range]
  rw [← entries]
  refine foldlM_ne_iff_forall (fun thunks k inside => ?_) fun thunks k outside => ?_
  · dsimp only [readEntry]
    split
    · rename_i is_entry
      exact getSymbols_eq inBounds (inside (Or.inl is_entry))
    · rename_i is_exit
      exact getSymbols_eq inBounds (inside (Or.inr is_exit))
    · exact ⟨_, rfl⟩
  -- only an entry or an exit thunk reads a symbol, so a stray one of them is read
  · obtain ⟨is_thunk, outside⟩ := Classical.not_imp.mp outside
    dsimp only [readEntry]
    split
    · exact getSymbols_outOfBounds inBounds outside
    · exact getSymbols_outOfBounds inBounds outside
    · rename_i no_entry no_exit
      rcases is_thunk with is_entry | is_exit
      · exact absurd is_entry no_entry
      · exact absurd is_exit no_exit

private theorem readChunk_ne_iff {s : State} {thunks : Thunks} {number : Nat}
    (inBounds : InBounds o s) :
    readChunk o s thunks number ≠ .error .outOfBounds ↔ MapInside o number := by
  simp only [readChunk, MapInside]
  rw [bind_ne_iff]
  cases (o.header number).bind CoffSection.contents with
  | none => simp [cantFail]
  | some contents =>
    simp only [cantFail, Except.ok.injEq, forall_eq', Option.some.injEq]
    split
    · rename_i other_size
      simp [pure, Except.pure, other_size]
    · rename_i size
      rw [readMap_ne_iff inBounds]
      simp [not_not.mp size]

private theorem initializeECThunks_ne_iff {s : State} (inBounds : InBounds o s) :
    initializeECThunks o s ≠ .error .outOfBounds ↔
      ∀ number thunks, ComesTo (readChunk o s) ⟨[], []⟩ s.hybmpChunks number thunks →
        MapInside o number := by
  rw [initializeECThunks, foldlM_ne_iff]
  simp only [readChunk_ne_iff inBounds]

/-! ### The whole run -/

variable (o env)

/-- Every parent that the second loop comes to is the number of a section. -/
def ParentsInRange : Prop :=
  ∀ fuel records s, symbolRecords o fuel = .ok records → readSymbols o env fuel = .ok s →
    ∀ i s', ComesTo (resolvePending o env) s (postponed o records) i s' → ParentInside o i

/-- If the second loop comes to its end, every weak external names a symbol of the table. -/
def TagsInRange : Prop :=
  ∀ fuel records s s', symbolRecords o fuel = .ok records → readSymbols o env fuel = .ok s →
    (postponed o records).foldlM (resolvePending o env) s = .ok s' →
    ∀ i ∈ records, o.isWeakExternal i = true → o.tagIndex i < o.numberOfSymbols

/-- Every map of thunks that is come to names symbols of the table. -/
def MapsInRange : Prop :=
  ∀ fuel s aliases, initializeSymbols o env fuel = .ok (s, aliases) → env.dependencies = true →
    ∀ number thunks, ComesTo (readChunk o s) ⟨[], []⟩ s.hybmpChunks number thunks →
      MapInside o number

variable {o env}

private theorem readSymbols_ok {fuel : Nat} {s : State} (ends : readSymbols o env fuel = .ok s) :
    ∃ records, SymbolsRead o records s ∧ symbolRecords o fuel = .ok records :=
  (readSymbols_avoids fuel).of_ok ends

private theorem initializeSymbols_ok {fuel : Nat} {s : State} {aliases : List Alias}
    (ends : initializeSymbols o env fuel = .ok (s, aliases)) : InBounds o s := by
  rw [initializeSymbols, bind_ok_iff] at ends
  obtain ⟨s₀, first, ends⟩ := ends
  rw [bind_ok_iff] at ends
  obtain ⟨s₁, second, ends⟩ := ends
  rw [bind_ok_iff] at ends
  obtain ⟨_, -, ends⟩ := ends
  cases ends
  obtain ⟨records, reading, -⟩ := readSymbols_ok first
  exact (resolvePending_keeps reading.toInBounds reading.pending second).1

/-- Its loops, for a state in which the first one has ended. -/
theorem laterLoops_ne_iff {s : State} {records : List Nat} (reading : SymbolsRead o records s) :
    (do let s ← s.pendingIndexes.foldlM (resolvePending o env) s
        let aliases ← s.weakAliases.foldlM (setAlias o s) []
        pure (s, aliases)) ≠ .error .outOfBounds ↔
      (∀ i s', ComesTo (resolvePending o env) s (postponed o records) i s' → ParentInside o i) ∧
      ∀ s', (postponed o records).foldlM (resolvePending o env) s = .ok s' →
        ∀ i ∈ records, o.isWeakExternal i = true → o.tagIndex i < o.numberOfSymbols := by
  rw [bind_ne_iff, secondLoop_ne_iff reading.toInBounds reading.pending, reading.pendingIndexes]
  refine and_congr_right fun _ => forall₂_congr fun s' second => ?_
  rw [← reading.pendingIndexes] at second
  obtain ⟨inBounds, weakAliases⟩ := resolvePending_keeps reading.toInBounds reading.pending second
  rw [bind_ne_iff, thirdLoop_ne_iff inBounds, weakAliases, reading.weakAliases]
  simp [pure, Except.pure]

private theorem initializeSymbols_ne_iff :
    (∀ fuel, initializeSymbols o env fuel ≠ .error .outOfBounds) ↔
      ParentsInRange o env ∧ TagsInRange o env := by
  -- the records that the condition speaks of are those that the loop has read
  have reads : ∀ {fuel records s}, symbolRecords o fuel = .ok records →
      readSymbols o env fuel = .ok s → SymbolsRead o records s := by
    intro fuel records s ends first
    obtain ⟨records', reading, ends'⟩ := readSymbols_ok first
    cases ends.symm.trans ends'
    exact reading
  constructor
  · intro ne
    have rest := fun fuel s first => (bind_ne_iff.mp (ne fuel)).2 s first
    constructor
    · intro fuel records s ends first
      exact ((laterLoops_ne_iff (reads ends first)).mp (rest fuel s first)).1
    · intro fuel records s s' ends first
      exact ((laterLoops_ne_iff (reads ends first)).mp (rest fuel s first)).2 s'
  · rintro ⟨parents, tags⟩ fuel
    rw [initializeSymbols, bind_ne_iff]
    refine ⟨(readSymbols_avoids fuel).ne, fun s first => ?_⟩
    obtain ⟨records, reading, ends⟩ := readSymbols_ok first
    refine (laterLoops_ne_iff reading).mpr ⟨parents fuel records s ends first, fun s' => ?_⟩
    exact tags fuel records s s' ends first

/-- Of all the numbers in an object, only the parents of associative comdats, the tags of weak
externals and the symbols of maps of thunks have to be in range for `parse` to stay in bounds. -/
theorem parse_inBounds_iff (o : ObjFile) (env : Surroundings) :
    (∀ fuel, parse o env fuel ≠ .error .outOfBounds) ↔
      ParentsInRange o env ∧ TagsInRange o env ∧ MapsInRange o env := by
  -- what follows the symbols, for the state that they have led to
  have thunks : ∀ fuel s aliases, initializeSymbols o env fuel = .ok (s, aliases) →
      ((if env.dependencies = true then do
          let thunks ← initializeECThunks o s
          pure (s, aliases, thunks)
        else .error .fatal) ≠ .error .outOfBounds ↔
      (env.dependencies = true → ∀ number thunks,
        ComesTo (readChunk o s) ⟨[], []⟩ s.hybmpChunks number thunks → MapInside o number)) := by
    intro fuel s aliases ends
    split
    · rename_i dependencies
      rw [bind_ne_iff, initializeECThunks_ne_iff (initializeSymbols_ok ends)]
      simp [dependencies, pure, Except.pure]
    · rename_i no_dependencies
      simp [no_dependencies]
  rw [← and_assoc, ← initializeSymbols_ne_iff]
  constructor
  · intro ne
    have both := fun fuel => bind_ne_iff.mp (ne fuel)
    refine ⟨fun fuel => (both fuel).1, fun fuel s aliases ends dependencies => ?_⟩
    exact (thunks fuel s aliases ends).mp ((both fuel).2 (s, aliases) ends) dependencies
  · rintro ⟨symbols, maps⟩ fuel
    rw [parse, bind_ne_iff]
    refine ⟨symbols fuel, ?_⟩
    rintro ⟨s, aliases⟩ ends
    exact (thunks fuel s aliases ends).mpr (maps fuel s aliases ends)

/-! ### Objects that are not diagnosed -/

def plainSurroundings : Surroundings where
  mingw := false
  includeDwarfChunks := false
  discardSection := []
  prevails _ := some true
  dependencies := true

/-- A record of 18 bytes: the name, the number of the section, the class and how many follow. -/
def record (name : Bytes) (sectionNumber storageClass aux : Nat) : Bytes :=
  name ++ List.replicate (8 - name.length) 0 ++ le32 0 ++ le16 sectionNumber ++ le16 0 ++
    [UInt8.ofNat storageClass, UInt8.ofNat aux]

/-- An object that is no big one, with an empty string table. -/
def smallObject (symbolTable : Bytes) (numberOfSymbols : Nat) (sections : List CoffSection)
    (arm64EC : Bool) (fits : numberOfSymbols < 2 ^ 32 ∧ numberOfSymbols * 18 ≤ symbolTable.length ∧
      sections.length < 2 ^ 32) : ObjFile where
  bigObj := false
  symbolTable := symbolTable
  stringTable := []
  numberOfSymbols := numberOfSymbols
  numberOfSymbols_lt := fits.1
  symbolsInside := fits.2.1
  terminated long := absurd long (by simp)
  sections := sections
  sections_lt := fits.2.2
  arm64EC := arm64EC

def strayTagTable : Bytes := record (text "w") 0 105 1 ++ le32 65535 ++ le32 3 ++ List.replicate 10 0

private theorem strayTag_fits : 2 < 2 ^ 32 ∧ 2 * 18 ≤ strayTagTable.length ∧ 0 < 2 ^ 32 := by decide

/-- The weak external `w` has its target behind the end of the symbol table. -/
def strayTag : ObjFile := smallObject strayTagTable 2 [] false strayTag_fits

def strayParentTable : Bytes :=
  record (text ".text$a") 1 3 1 ++ List.replicate 12 0 ++ le16 9 ++ [5, 0, 0, 0]

private theorem strayParent_fits :
    2 < 2 ^ 32 ∧ 2 * 18 ≤ strayParentTable.length ∧ 1 < 2 ^ 32 := by decide

/-- The only section is a comdat and associated with the section 9. -/
def strayParent : ObjFile :=
  smallObject strayParentTable 2 [⟨some (text ".text$a"), 0x1000, some []⟩] false strayParent_fits

private theorem strayThunk_fits : 0 < 2 ^ 32 ∧ 0 * 18 ≤
    ([] : Bytes).length ∧ 1 < 2 ^ 32 := by decide

/-- An exit thunk between the symbols 7 and 8 of an object without symbols. -/
def strayThunk : ObjFile :=
  smallObject [] 0 [⟨some (text ".hybmp$x"), 0, some (le32 7 ++ le32 8 ++ le32 4)⟩] true
    strayThunk_fits

/-- None of the three is diagnosed. -/
theorem stray_numbers_followed :
    (∃ fuel, parse strayTag plainSurroundings fuel = .error .outOfBounds) ∧
    (∃ fuel, parse strayParent plainSurroundings fuel = .error .outOfBounds) ∧
    (∃ fuel, parse strayThunk plainSurroundings fuel = .error .outOfBounds) := by
  have stops : ∀ o fuel, (match parse o plainSurroundings fuel with
      | .error stop => decide (stop = .outOfBounds)
      | .ok _ => false) = true → ∃ fuel, parse o plainSurroundings fuel = .error .outOfBounds := by
    intro o fuel stops
    refine ⟨fuel, ?_⟩
    split at stops
    · rename_i stop ends
      rw [ends, of_decide_eq_true stops]
    · cases stops
  exact ⟨stops strayTag 2 (by decide +kernel), stops strayParent 2 (by decide +kernel),
    stops strayThunk 2 (by decide +kernel)⟩

end LlvmLd.Input.Coff
