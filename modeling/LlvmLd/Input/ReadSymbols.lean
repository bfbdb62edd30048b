import LlvmLd.Lib.Avoids
import LlvmLd.Input.ObjFile

/-!
Sections, and the first loop over the symbols: the numbers of sections are checked there, and a symbol
that is postponed keeps a checked one. Which symbols those are follows from the file alone.
-/

namespace LlvmLd.Input.Coff

open Outcome

/-! ### Vectors -/

section Vectors

variable {α : Type} {xs : List α} {i : Int}

theorem access_eq {n : Nat} (below : n < xs.length) : access xs n = .ok xs[n] := by
  have nonneg : ¬ (n : Int) < 0 := by omega
  simp [access, nonneg, below]

theorem access_outOfBounds {n : Nat} (above : xs.length ≤ n) : access xs n = .error .outOfBounds := by
  have nonneg : ¬ (n : Int) < 0 := by omega
  simp [access, nonneg, above]

theorem access_avoids (nonneg : 0 ≤ i) (below : i < xs.length) :
    Avoids .outOfBounds (fun x => xs[i.toNat]? = some x) (access xs i) := by
  obtain ⟨n, rfl⟩ := Int.eq_ofNat_of_zero_le nonneg
  have inside : n < xs.length := by omega
  rw [access_eq inside, avoids_ok]
  simp [inside]

theorem write_avoids {x : α} (nonneg : 0 ≤ i) (below : i < xs.length) :
    Avoids .outOfBounds (fun ys => ys = xs.set i.toNat x) (write xs i x) := by
  rw [write, if_pos ⟨nonneg, below⟩, avoids_ok]

theorem check_avoids {x : Option α} : Avoids .outOfBounds (fun a => x = some a) (check x) := by
  cases x <;> simp [check]

private theorem cantFail_avoids {x : Option α} : Avoids .outOfBounds (fun a => x = some a)
    (cantFail x) := by
  cases x <;> simp [cantFail]

end Vectors

variable {o : ObjFile} {env : Surroundings}

/-! ### Sections -/

theorem getSection_avoids {number : Int} :
    Avoids .outOfBounds (fun sec => o.header number = some sec) (o.getSection number) := by
  simp only [ObjFile.getSection]
  split
  · simp
  · exact check_avoids

/-- Only a map of thunks is noted, and the section is no longer pending. -/
theorem readSection_avoids {number : Int} {s : State} :
    Avoids .outOfBounds (fun r => r.1 ≠ .pending ∧ ∃ hybmpChunks, r.2 = { s with hybmpChunks })
      (readSection o env number s) := by
  simp only [readSection]
  refine getSection_avoids.bind fun sec _ => check_avoids.bind fun name _ => ?_
  have same : ∃ hybmpChunks, s = { s with hybmpChunks } := ⟨s.hybmpChunks, rfl⟩
  split
  · exact cantFail_avoids.bind fun _ _ => ⟨by simp, same⟩
  · repeat' split
    all_goals first
      | exact ⟨by simp, same⟩
      | exact ⟨by simp, _, rfl⟩

variable (o) in
/-- The tables have their sizes, and what the map of prevailing sections holds are sections. -/
structure InBounds (s : State) : Prop where
  sparseChunks : s.sparseChunks.length = o.numberOfChunks
  symbols : s.symbols.length = o.numberOfSymbols
  prevailingSectionMap : ∀ p ∈ s.prevailingSectionMap, 0 ≤ p.2 ∧ p.2 < o.numberOfChunks

/-- Some section is given another pointer. -/
theorem InBounds.assign {s : State} (inBounds : InBounds o s) (n : Nat) (c : SparseChunk)
    (hybmpChunks : List Nat) :
    InBounds o { s with hybmpChunks, sparseChunks := s.sparseChunks.set n c } where
  sparseChunks := by rw [List.length_set]; exact inBounds.sparseChunks
  symbols := inBounds.symbols
  prevailingSectionMap := inBounds.prevailingSectionMap

theorem InBounds.setSymbol {s : State} (inBounds : InBounds o s) (n : Nat) (symbol : Option Symbol) :
    InBounds o { s with symbols := s.symbols.set n symbol } where
  sparseChunks := inBounds.sparseChunks
  symbols := by rw [List.length_set]; exact inBounds.symbols
  prevailingSectionMap := inBounds.prevailingSectionMap

variable (o) in
/-- The number is one of the sections that `sparseChunks` has. -/
def HasChunk (number : Int) : Prop := 0 < number ∧ number < o.numberOfChunks

theorem createRegular_avoids {i : Nat} {s : State} (inBounds : InBounds o s)
    (inside : HasChunk o (o.getSectionNumber i)) :
    Avoids .outOfBounds (fun _ => True) (createRegular o env i s) := by
  simp only [createRegular]
  refine (access_avoids (by have := inside.1; omega) ?_).bind fun sc _ => ?_
  · rw [inBounds.sparseChunks]
    exact inside.2
  · split
    · refine check_avoids.bind fun name _ => ?_
      repeat' split
      all_goals trivial
    · split <;> trivial

/-! ### The first loop -/

variable (o) in
/-- A section definition that a comdat leader is to follow. -/
def Opens (n : Int) (i : Nat) : Prop :=
  o.getSectionNumber i = n ∧ o.hasSectionDefinition i = true ∧ o.selection i ≠ 5

instance decidableOpens (n : Int) (i : Nat) : Decidable (Opens o n i) :=
  inferInstanceAs (Decidable (_ ∧ _ ∧ _))

def ObjFile.isComdat (o : ObjFile) (n : Int) : Bool := (o.header n).any (·.has 0x1000)

variable (o) in
/-- No definition of the comdat section that is not associative has been seen. -/
def Unopened (seen : List Nat) (n : Int) : Prop :=
  o.isComdat n = true ∧ ∀ j ∈ seen, ¬ Opens o n j

instance decidableUnopened (seen : List Nat) (n : Int) : Decidable (Unopened o seen n) :=
  inferInstanceAs (Decidable (_ ∧ _))

variable (o) in
/-- The symbol is left to the second loop. -/
def Postponed (seen : List Nat) (i : Nat) : Prop :=
  o.isWeakExternal i = false ∧ Unopened o seen (o.getSectionNumber i)

instance decidablePostponed (seen : List Nat) (i : Nat) : Decidable (Postponed o seen i) :=
  inferInstanceAs (Decidable (_ ∧ _))

variable (o) in
/-- What the tables are when the symbols `seen` have been read. -/
structure Tracks (seen : List Nat) (s : State) : Prop extends InBounds o s where
  comdatDefs : s.comdatDefs.length = o.numberOfChunks
  unopened : ∀ n : Nat, n < o.numberOfChunks → Unopened o seen n →
    s.comdatDefs[n]? = some none ∧ s.sparseChunks[n]? = some .pending
  opened : ∀ n : Nat, n < o.numberOfChunks → ¬ Unopened o seen n → s.comdatDefs[n]? = some none →
    s.sparseChunks[n]? ≠ some .pending

private theorem unopened_append {seen : List Nat} {i : Nat} {n : Int} :
    Unopened o (seen ++ [i]) n ↔ Unopened o seen n ∧ ¬ Opens o n i := by
  simp only [Unopened, List.mem_append, List.mem_singleton]
  constructor
  · rintro ⟨comdat, none_opens⟩
    exact ⟨⟨comdat, fun j member => none_opens j (Or.inl member)⟩, none_opens i (Or.inr rfl)⟩
  · rintro ⟨⟨comdat, none_opens⟩, not_opens⟩
    refine ⟨comdat, fun j member => ?_⟩
    rcases member with member | rfl
    · exact none_opens j member
    · exact not_opens

/-- A symbol that opens no section that is still unopened. -/
theorem Tracks.see {seen : List Nat} {s : State} {i : Nat} (tracks : Tracks o seen s)
    (opens_none : ∀ n : Nat, n < o.numberOfChunks → Unopened o seen n → ¬ Opens o n i) :
    Tracks o (seen ++ [i]) s where
  toInBounds := tracks.toInBounds
  comdatDefs := tracks.comdatDefs
  unopened n below unopened := tracks.unopened n below (unopened_append.mp unopened).1
  opened n below opened := by
    refine tracks.opened n below fun unopened => opened ?_
    exact unopened_append.mpr ⟨unopened, opens_none n below unopened⟩

/-- The section of the symbol is read or discarded, which has been opened. -/
theorem Tracks.resolve {seen : List Nat} {s : State} {i n : Nat} {c : SparseChunk}
    (tracks : Tracks o seen s) (at_n : o.getSectionNumber i = n) (was_opened : ¬ Unopened o seen n)
    (resolved : c ≠ .pending) (hybmpChunks : List Nat) :
    Tracks o (seen ++ [i]) { s with
      hybmpChunks, comdatDefs := s.comdatDefs.set n none, sparseChunks := s.sparseChunks.set n c } where
  toInBounds := {
    sparseChunks := by rw [List.length_set]; exact tracks.sparseChunks
    symbols := tracks.symbols
    prevailingSectionMap := tracks.prevailingSectionMap }
  comdatDefs := by rw [List.length_set]; exact tracks.comdatDefs
  unopened m below unopened := by
    have before : Unopened o seen m := (unopened_append.mp unopened).1
    have other : n ≠ m := by rintro rfl; exact was_opened before
    rw [List.getElem?_set_ne other, List.getElem?_set_ne other]
    exact tracks.unopened m below before
  opened m below opened undefined := by
    -- the section that is resolved now, or one that an earlier symbol has opened
    rcases eq_or_ne n m with rfl | other
    · rw [List.getElem?_set_self (by rw [tracks.sparseChunks]; exact below)]
      simp [resolved]
    · rw [List.getElem?_set_ne other] at undefined ⊢
      refine tracks.opened m below (fun before => opened ?_) undefined
      refine unopened_append.mpr ⟨before, fun opens => other ?_⟩
      have same : (n : Int) = m := at_n.symm.trans opens.1
      exact_mod_cast same

/-- The symbol opens its section. -/
theorem Tracks.define {seen : List Nat} {s : State} {i n : Nat} (tracks : Tracks o seen s)
    (opens : Opens o n i) (inside : n < o.numberOfChunks) :
    Tracks o (seen ++ [i]) { s with comdatDefs := s.comdatDefs.set n (some i) } where
  toInBounds := ⟨tracks.sparseChunks, tracks.symbols, tracks.prevailingSectionMap⟩
  comdatDefs := by rw [List.length_set]; exact tracks.comdatDefs
  unopened m below unopened := by
    obtain ⟨before, not_opens⟩ := unopened_append.mp unopened
    have other : n ≠ m := by rintro rfl; exact not_opens opens
    rw [List.getElem?_set_ne other]
    exact tracks.unopened m below before
  opened m below opened := by
    -- the section that is opened now, or one that has been opened before
    rcases eq_or_ne n m with rfl | other
    · rw [List.getElem?_set_self (by rw [tracks.comdatDefs]; exact inside)]
      simp
    · rw [List.getElem?_set_ne other]
      refine tracks.opened m below fun before => opened ?_
      refine unopened_append.mpr ⟨before, fun opens' => other ?_⟩
      have same : (n : Int) = m := opens.1.symm.trans opens'.1
      exact_mod_cast same

variable (o) in
/-- What `createDefined` leaves of a state for the symbol `i`. -/
structure Defines (seen : List Nat) (i : Nat) (s : State) (created : Created) : Prop where
  tracks : Tracks o (seen ++ [i]) created.state
  weakAliases : created.state.weakAliases = s.weakAliases
  pendingIndexes : created.state.pendingIndexes = s.pendingIndexes
  postponed : created.symbol = none ↔ Unopened o seen (o.getSectionNumber i)
  hasChunk : created.symbol = none ∨ created.prevailing = true → HasChunk o (o.getSectionNumber i)

private theorem header_of_isComdat {n : Int} (comdat : o.isComdat n = true) : 0 < n := by
  by_contra reserved
  simp [ObjFile.isComdat, ObjFile.header, not_lt.mp reserved] at comdat

/-- A symbol that is in no section of the file. -/
theorem Tracks.defines_outside {seen : List Nat} {s : State} {i : Nat} (tracks : Tracks o seen s)
    (outside : o.getSectionNumber i ≤ 0) (symbol : Option Symbol) :
    Defines o seen i s ⟨some symbol, false, s⟩ where
  tracks := by
    refine tracks.see fun n _ unopened opens => ?_
    have positive : (0 : Int) < n := header_of_isComdat unopened.1
    have same := opens.1
    omega
  weakAliases := rfl
  pendingIndexes := rfl
  postponed := by
    simp only [reduceCtorEq, false_iff]
    intro unopened
    have positive := header_of_isComdat unopened.1
    omega
  hasChunk := by simp

private theorem ifExternal_avoids {α : Type} {i : Nat} {x : Option α} {otherwise : α} :
    Avoids .outOfBounds (fun _ => True) (ifExternal o i x otherwise) := by
  simp only [ifExternal]
  split
  · exact check_avoids.mono fun _ _ => trivial
  · trivial

private theorem createLeader_avoids {seen : List Nat} {i n definition : Nat} {s : State}
    (tracks : Tracks o seen s) (at_n : o.getSectionNumber i = n) (positive : 0 < n)
    (inside : n < o.numberOfChunks) (was_opened : ¬ Unopened o seen n) :
    Avoids .outOfBounds (Defines o seen i s) (createLeader o env i definition s) := by
  have hasChunk : HasChunk o (o.getSectionNumber i) := by
    rw [at_n]
    exact ⟨by omega, by omega⟩
  have not_unopened : ¬ Unopened o seen (o.getSectionNumber i) := by rwa [at_n]
  dsimp only [createLeader]
  refine (write_avoids hasChunk.1.le (by rw [tracks.comdatDefs]; exact hasChunk.2)).bind ?_
  rintro _ rfl
  refine ifExternal_avoids.bind fun name _ => ifExternal_avoids.bind fun prevailing _ => ?_
  -- An unknown selection is fatal; a leader that prevails reads its section, another clears it.
  split
  · simp
  split
  · refine check_avoids.bind fun _ _ => readSection_avoids.bind ?_
    rintro ⟨c, s'⟩ ⟨resolved, hybmpChunks, rfl⟩
    refine (write_avoids hasChunk.1.le (by simpa [tracks.sparseChunks] using hasChunk.2)).bind ?_
    rintro _ rfl
    rw [at_n, Int.toNat_natCast]
    exact {
      tracks := tracks.resolve at_n was_opened resolved hybmpChunks
      weakAliases := rfl
      pendingIndexes := rfl
      postponed := by simp [not_unopened]
      hasChunk := fun _ => hasChunk }
  · refine (write_avoids hasChunk.1.le (by simpa [tracks.sparseChunks] using hasChunk.2)).bind ?_
    rintro _ rfl
    rw [at_n, Int.toNat_natCast]
    exact {
      tracks := tracks.resolve at_n was_opened (by simp) s.hybmpChunks
      weakAliases := rfl
      pendingIndexes := rfl
      postponed := by simp [not_unopened]
      hasChunk := fun _ => hasChunk }

private theorem createDefined_avoids {seen : List Nat} {i : Nat} {s : State}
    (tracks : Tracks o seen s) :
    Avoids .outOfBounds (Defines o seen i s) (createDefined o env i s) := by
  dsimp only [createDefined]
  split
  · rename_i common
    have zero : o.getSectionNumber i = 0 := by
      simp only [CoffObject.isCommon, Bool.and_eq_true, beq_iff_eq] at common
      exact common.1.2
    exact check_avoids.bind fun name _ => tracks.defines_outside (by omega) _
  split
  · rename_i absolute
    have minus_one : o.getSectionNumber i = -1 := by simpa [CoffObject.isAbsolute] using absolute
    exact check_avoids.bind fun name _ => tracks.defines_outside (by omega) _
  split
  · exact tracks.defines_outside (by omega) _
  split
  · rename_i empty
    have zero : o.getSectionNumber i = 0 := by
      simp only [CoffObject.isEmptySectionDeclaration, Bool.and_eq_true, beq_iff_eq] at empty
      exact empty.2
    exact check_avoids.bind fun name _ => tracks.defines_outside (by omega) _
  split
  · simp
  split
  · simp
  -- from here on the number of the section has been checked
  rename_i positive inside
  rw [not_le] at positive
  rw [tracks.sparseChunks, not_le] at inside
  have hasChunk : HasChunk o (o.getSectionNumber i) := ⟨positive, inside⟩
  obtain ⟨n, at_n⟩ := Int.eq_ofNat_of_zero_le positive.le
  have below : n < o.numberOfChunks := by omega
  have opens_at : ∀ m : Nat, Opens o m i → m = n := by
    intro m opens
    have same : (n : Int) = m := at_n.symm.trans opens.1
    exact_mod_cast same.symm
  refine (access_avoids positive.le (by rw [tracks.comdatDefs]; exact inside)).bind ?_
  intro definition at_definition
  rw [at_n, Int.toNat_natCast] at at_definition
  cases definition with
  | some definition =>
    refine createLeader_avoids tracks at_n (by omega) below fun unopened => ?_
    have undefined := (tracks.unopened n below unopened).1
    rw [undefined] at at_definition
    cases at_definition
  | none =>
    refine (access_avoids positive.le (by rw [tracks.sparseChunks]; exact inside)).bind ?_
    intro sc at_sc
    rw [at_n, Int.toNat_natCast] at at_sc
    split
    · rename_i pending
      rw [pending] at at_sc
      have unopened : Unopened o seen (o.getSectionNumber i) := by
        rw [at_n]
        by_contra opened
        exact tracks.opened n below opened at_definition at_sc
      split
      · rename_i defines
        have opens : Opens o n i := by
          simp only [Bool.and_eq_true, bne_iff_ne] at defines
          exact ⟨at_n, defines⟩
        refine (write_avoids positive.le (by rw [tracks.comdatDefs]; exact inside)).bind ?_
        rintro _ rfl
        rw [at_n, Int.toNat_natCast]
        exact {
          tracks := tracks.define opens below
          weakAliases := rfl
          pendingIndexes := rfl
          postponed := by simp [unopened]
          hasChunk := fun _ => hasChunk }
      · rename_i defines
        exact {
          tracks := tracks.see fun m _ _ opens => by
            refine defines ?_
            simp only [Bool.and_eq_true, bne_iff_ne]
            exact opens.2
          weakAliases := rfl
          pendingIndexes := rfl
          postponed := by simp [unopened]
          hasChunk := fun _ => hasChunk }
    · rename_i resolved
      have not_unopened : ¬ Unopened o seen n := by
        intro unopened
        have pending := (tracks.unopened n below unopened).2
        rw [pending] at at_sc
        cases at_sc
        exact resolved rfl
      refine (createRegular_avoids tracks.toInBounds hasChunk).bind fun symbol _ => ?_
      exact {
        tracks := tracks.see fun m _ unopened opens => by
          rw [opens_at m opens] at unopened
          exact not_unopened unopened
        weakAliases := rfl
        pendingIndexes := rfl
        postponed := by simp [at_n, not_unopened]
        hasChunk := by simp }

/-! ### One symbol, and all of them -/

variable (o) in
def postponedFrom : List Nat → List Nat → List Nat
  | _, [] => []
  | seen, i :: rest =>
    (if Postponed o seen i then [i] else []) ++ postponedFrom (seen ++ [i]) rest

variable (o) in
/-- The symbols that are left to the second loop, among all of them. -/
def postponed (records : List Nat) : List Nat := postponedFrom o [] records

private theorem postponedFrom_append (seen records : List Nat) (i : Nat) :
    postponedFrom o seen (records ++ [i]) =
      postponedFrom o seen records ++ if Postponed o (seen ++ records) i then [i] else [] := by
  induction records generalizing seen with
  | nil => simp [postponedFrom]
  | cons j rest ih =>
    rw [List.cons_append, postponedFrom, postponedFrom, ih, List.append_assoc, List.append_assoc,
      List.singleton_append]

variable (o) in
/-- What the first loop has noted when the symbols `seen` have been read. -/
structure SymbolsRead (seen : List Nat) (s : State) : Prop extends Tracks o seen s where
  weakAliases : s.weakAliases = seen.filter o.isWeakExternal
  pendingIndexes : s.pendingIndexes = postponed o seen
  pending : ∀ i ∈ s.pendingIndexes, HasChunk o (o.getSectionNumber i) ∧ i < o.numberOfSymbols

private theorem readTarget_avoids {i : Nat} : Avoids .outOfBounds (fun _ => True)
    (readTarget o i) := by
  simp only [readTarget]
  split
  · split
    · split
      · trivial
      · exact check_avoids.bind fun _ _ => check_avoids.bind fun _ _ => trivial
    · simp
  · trivial

private theorem createUndefined_avoids {i : Nat} :
    Avoids .outOfBounds (fun _ => True) (createUndefined o i) := by
  simp only [createUndefined]
  exact check_avoids.bind fun _ _ => trivial

private theorem recordPrevailingSymbolForMingw_avoids {i : Nat} {s : State}
    (inBounds : InBounds o s) (hasChunk : HasChunk o (o.getSectionNumber i)) :
    Avoids .outOfBounds
      (fun s' => InBounds o s' ∧ ∃ prevailingSectionMap, s' = { s with prevailingSectionMap })
      (recordPrevailingSymbolForMingw o i s) := by
  have same : InBounds o s ∧ ∃ prevailingSectionMap, s = { s with prevailingSectionMap } :=
    ⟨inBounds, _, rfl⟩
  simp only [recordPrevailingSymbolForMingw]
  refine (access_avoids hasChunk.1.le (by rw [inBounds.sparseChunks]; exact hasChunk.2)).bind ?_
  intro sc _
  split
  · split
    · split
      · refine ⟨⟨inBounds.sparseChunks, inBounds.symbols, fun p member => ?_⟩, _, rfl⟩
        -- the new entry has the section number that has been checked
        rcases List.mem_cons.mp member with rfl | member
        · exact ⟨hasChunk.1.le, hasChunk.2⟩
        · exact inBounds.prevailingSectionMap p member
      · exact same
    · exact same
  · exact same

theorem Tracks.frame {seen : List Nat} {s s' : State} (tracks : Tracks o seen s)
    (sparseChunks : s'.sparseChunks = s.sparseChunks) (comdatDefs : s'.comdatDefs = s.comdatDefs)
    (inBounds : InBounds o s') : Tracks o seen s' where
  toInBounds := inBounds
  comdatDefs := by rw [comdatDefs]; exact tracks.comdatDefs
  unopened := by rw [sparseChunks, comdatDefs]; exact tracks.unopened
  opened := by rw [sparseChunks, comdatDefs]; exact tracks.opened

theorem SymbolsRead.next {seen : List Nat} {i : Nat} {s s' : State} (reading : SymbolsRead o seen s)
    (inside : i < o.numberOfSymbols) (tracks : Tracks o (seen ++ [i]) s')
    (weakAliases : s'.weakAliases = s.weakAliases ++ if o.isWeakExternal i then [i] else [])
    (pendingIndexes : s'.pendingIndexes = s.pendingIndexes ++ if Postponed o seen i then [i] else [])
    (hasChunk : Postponed o seen i → HasChunk o (o.getSectionNumber i)) :
    SymbolsRead o (seen ++ [i]) s' where
  toTracks := tracks
  weakAliases := by
    rw [weakAliases, reading.weakAliases, List.filter_append, List.filter_singleton]
    cases o.isWeakExternal i <;> rfl
  pendingIndexes := by
    rw [pendingIndexes, reading.pendingIndexes, postponed, postponed, postponedFrom_append,
      List.nil_append]
  pending j member := by
    rw [pendingIndexes, List.mem_append] at member
    rcases member with member | member
    · exact reading.pending j member
    · split at member
      -- only a postponed symbol joins the pending ones, and its section exists
      · rename_i is_postponed
        rw [List.mem_singleton.mp member]
        exact ⟨hasChunk is_postponed, inside⟩
      · simp at member

/-- One round of the first loop stays in bounds, for every symbol. -/
theorem readSymbol_avoids {seen : List Nat} {i : Nat} {s : State} (reading : SymbolsRead o seen s)
    (inside : i < o.numberOfSymbols) :
    Avoids .outOfBounds (SymbolsRead o (seen ++ [i])) (readSymbol o env s i) := by
  have in_symbols : (i : Int) < o.numberOfSymbols := by exact_mod_cast inside
  simp only [readSymbol]
  -- An undefined symbol has no section, so it can be neither the leader of a comdat nor postponed.
  split
  · rename_i undefined
    simp only [CoffObject.isUndefined, CoffObject.isExternal, Bool.and_eq_true, beq_iff_eq] at undefined
    obtain ⟨⟨is_external, no_section⟩, -⟩ := undefined
    have not_weak : o.isWeakExternal i = false := by simp [CoffObject.isWeakExternal, is_external]
    have elsewhere := reading.toTracks.defines_outside (i := i) (by omega) none
    have not_postponed : ¬ Postponed o seen i := by
      intro is_postponed
      have positive := header_of_isComdat is_postponed.2.1
      omega
    refine createUndefined_avoids.bind fun symbol _ =>
      (write_avoids (by omega) (by rwa [reading.symbols])).bind ?_
    rintro _ rfl
    refine reading.next inside ?_ (by simp [not_weak]) (by simp [not_postponed]) (absurd · not_postponed)
    exact elsewhere.tracks.frame rfl rfl (reading.toInBounds.setSymbol i symbol)
  split
  -- A weak external is not static, so it opens no comdat section.
  · rename_i is_weak
    have not_postponed : ¬ Postponed o seen i := fun is_postponed => by simp [is_postponed.1] at is_weak
    have opens_none : ∀ n : Nat, ¬ Opens o n i := by
      intro n opens
      have static := opens.2.1
      simp only [CoffObject.isWeakExternal, CoffObject.hasSectionDefinition, Bool.and_eq_true,
        beq_iff_eq] at is_weak static
      omega
    refine readTarget_avoids.bind fun _ _ => createUndefined_avoids.bind fun symbol _ =>
      (write_avoids (by omega) (by rwa [reading.symbols])).bind ?_
    rintro _ rfl
    refine reading.next inside ?_ (by simp [is_weak]) (by simp [not_postponed]) (absurd · not_postponed)
    refine (reading.toTracks.see fun n _ _ => opens_none n).frame rfl rfl ?_
    exact ⟨reading.sparseChunks, by rw [List.length_set]; exact reading.symbols,
      reading.prevailingSectionMap⟩
  · rename_i not_weak
    rw [Bool.not_eq_true] at not_weak
    refine (createDefined_avoids reading.toTracks).bind fun created defines => ?_
    split
    · rename_i symbol some_symbol
      have not_postponed : ¬ Postponed o seen i := by
        intro is_postponed
        have none_created := defines.postponed.mpr is_postponed.2
        rw [some_symbol] at none_created
        cases none_created
      -- A symbol that was created is not postponed: the pending indexes are as they were.
      have kept : ∀ s', Tracks o (seen ++ [i]) s' → s'.weakAliases = created.state.weakAliases →
          s'.pendingIndexes = created.state.pendingIndexes → SymbolsRead o (seen ++ [i]) s' := by
        intro s' tracks weakAliases pendingIndexes
        refine reading.next inside tracks ?_ ?_ (absurd · not_postponed)
        · simp [weakAliases, defines.weakAliases, not_weak]
        · simp [pendingIndexes, defines.pendingIndexes, not_postponed]
      refine (write_avoids (by omega) (by rwa [defines.tracks.symbols])).bind ?_
      rintro _ rfl
      have inBounds := defines.tracks.toInBounds.setSymbol i symbol
      split
      · rename_i prevailing
        rw [Bool.and_eq_true] at prevailing
        refine (recordPrevailingSymbolForMingw_avoids inBounds
          (defines.hasChunk (Or.inr prevailing.2))).mono ?_
        rintro _ ⟨inBounds', _, rfl⟩
        exact kept _ (defines.tracks.frame rfl rfl inBounds') rfl rfl
      · exact kept _ (defines.tracks.frame rfl rfl inBounds) rfl rfl
    -- None was created, so this one waits for the second loop.
    · rename_i no_symbol
      have is_postponed : Postponed o seen i := ⟨not_weak, defines.postponed.mp no_symbol⟩
      refine reading.next inside ?_ ?_ ?_ fun _ => defines.hasChunk (Or.inl no_symbol)
      · exact defines.tracks.frame rfl rfl ⟨defines.tracks.sparseChunks, defines.tracks.symbols,
          defines.tracks.prevailingSectionMap⟩
      · simp [defines.weakAliases, not_weak]
      · simp [defines.pendingIndexes, is_postponed]

variable (o) in
/-- The records at which the loop over the symbols stops. -/
def symbolRecords (fuel : Nat) : Except Stop (List Nat) :=
  symbolLoop o.toCoffObject .running (fun seen i => .ok (seen ++ [i])) fuel 0 []

private theorem symbolLoop_below {ε σ : Type} {running : ε} {body : σ → Nat → Except ε σ}
    {o : CoffObject} {fuel i : Nat} {s : σ} (inside : i < o.numberOfSymbols) :
    symbolLoop o running body (fuel + 1) i s =
      body s i >>= symbolLoop o running body fuel (o.nextSymbol i) := if_pos inside

private theorem symbolLoop_end {ε σ : Type} {running : ε} {body : σ → Nat → Except ε σ}
    {o : CoffObject} {fuel i : Nat} {s : σ} (outside : ¬ i < o.numberOfSymbols) :
    symbolLoop o running body (fuel + 1) i s = .ok s := if_neg outside

private theorem symbolLoop_avoids {ε σ : Type} {running bad : ε} {body : σ → Nat → Except ε σ}
    {I : List Nat → σ → Prop} (o : CoffObject) (not_bad : running ≠ bad)
    (step : ∀ seen s i, i < o.numberOfSymbols → I seen s → Avoids bad (I (seen ++ [i])) (body s i))
    (fuel i : Nat) {seen : List Nat} {s : σ} (start : I seen s) :
    Avoids bad
      (fun s' => ∃ records, I records s' ∧
        symbolLoop o running (fun seen i => .ok (seen ++ [i])) fuel i seen = .ok records)
      (symbolLoop o running body fuel i s) := by
  induction fuel generalizing i seen s with
  | zero => exact not_bad
  | succ fuel ih =>
    by_cases inside : i < o.numberOfSymbols
    · rw [symbolLoop_below inside, symbolLoop_below inside]
      exact (step seen s i inside start).bind fun s' kept => ih (o.nextSymbol i) kept
    · rw [symbolLoop_end inside, symbolLoop_end inside]
      exact ⟨seen, start, rfl⟩

variable (o) in
/-- After some of the sections: those that are comdats are pending. -/
structure ChunksRead (done : List Nat) (s : State) : Prop where
  length : s.sparseChunks.length = o.numberOfChunks
  pending : ∀ n, s.sparseChunks[n]? = some .pending ↔ n ∈ done ∧ o.isComdat n = true
  others : ∃ sparseChunks hybmpChunks, s = { initialState with sparseChunks, hybmpChunks }

private theorem initializeChunk_avoids {done : List Nat} {s : State} {i : Nat}
    (read : ChunksRead o done s) (inside : i < o.numberOfChunks) :
    Avoids .outOfBounds (ChunksRead o (done ++ [i])) (initializeChunk o env s i) := by
  obtain ⟨length, pending, sparseChunks, hybmpChunks, rfl⟩ := read
  have in_chunks : (i : Int) < sparseChunks.length := by rw [length]; exact_mod_cast inside
  -- the pointer that is written at `i` says whether the section is a comdat
  have assigned : ∀ (c : SparseChunk) (hybmpChunks : List Nat),
      (c = .pending ↔ o.isComdat i = true) →
      ChunksRead o (done ++ [i])
        { initialState with sparseChunks := sparseChunks.set i c, hybmpChunks } := by
    intro c hybmpChunks comdat
    refine ⟨by rw [List.length_set]; exact length, fun n => ?_, _, _, rfl⟩
    rcases eq_or_ne i n with rfl | other
    · rw [List.getElem?_set_self (by rw [length]; exact inside)]
      simp [comdat]
    · rw [List.getElem?_set_ne other, pending n]
      simp [other.symm]
  simp only [initializeChunk]
  refine getSection_avoids.bind fun sec at_header => ?_
  have comdat_iff : o.isComdat i = sec.has 0x1000 := by simp [ObjFile.isComdat, at_header]
  split
  · rename_i comdat
    refine (write_avoids (by omega) in_chunks).bind ?_
    rintro _ rfl
    exact assigned .pending hybmpChunks (by simp [comdat_iff, comdat])
  · rename_i not_comdat
    refine readSection_avoids.bind ?_
    rintro ⟨c, s'⟩ ⟨resolved, hybmpChunks', rfl⟩
    refine (write_avoids (by omega) in_chunks).bind ?_
    rintro _ rfl
    exact assigned c hybmpChunks' (by simp [resolved, comdat_iff, not_comdat])

private theorem initializeChunks_avoids :
    Avoids .outOfBounds (ChunksRead o (List.range' 1 (o.numberOfChunks - 1)))
      (initializeChunks o env initialState) := by
  refine foldlM_avoids (fun done s i member read => initializeChunk_avoids read ?_) [] ?_
  · have bounds := List.mem_range'_1.mp member
    omega
  · refine ⟨by simp, fun n => ?_, _, _, rfl⟩
    simp [List.getElem?_replicate]

/-- Whatever the object is, `initializeChunks` and the first loop over the symbols stay in bounds. -/
theorem readSymbols_avoids (fuel : Nat) :
    Avoids .outOfBounds
      (fun s => ∃ records, SymbolsRead o records s ∧ symbolRecords o fuel = .ok records)
      (readSymbols o env fuel) := by
  simp only [readSymbols]
  refine initializeChunks_avoids.bind ?_
  rintro _ ⟨length, pending, sparseChunks, hybmpChunks, rfl⟩
  refine symbolLoop_avoids o.toCoffObject (by simp)
    (fun seen s i inside reading => readSymbol_avoids reading inside) fuel 0 (I := SymbolsRead o) ?_
  -- before the first symbol, the sections that are not opened are the pending ones
  have unopened_iff : ∀ n : Nat, n < o.numberOfChunks →
      (Unopened o [] n ↔ sparseChunks[n]? = some .pending) := by
    intro n inside
    rw [pending n]
    constructor
    · intro unopened
      have positive := header_of_isComdat unopened.1
      exact ⟨List.mem_range'_1.mpr ⟨by omega, by omega⟩, unopened.1⟩
    · exact fun both => ⟨both.2, by simp⟩
  exact {
    sparseChunks := length
    symbols := by simp
    prevailingSectionMap := by simp [initialState]
    comdatDefs := by simp
    unopened := fun n inside unopened => ⟨by simp [inside], (unopened_iff n inside).mp unopened⟩
    opened := fun n inside opened _ pending => opened ((unopened_iff n inside).mpr pending)
    weakAliases := rfl
    pendingIndexes := rfl
    pending := by simp [initialState] }

end LlvmLd.Input.Coff
