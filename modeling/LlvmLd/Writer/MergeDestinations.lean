import LlvmLd.Writer.MergeSections

/-!
A run of `mergeSections` stops with the cycle error or moves the sections of each entry to the end
of the entry's chain.
-/

namespace LlvmLd.Writer.Merging

open Chains

/-! ### The destinations -/

section Destination

variable (merge : MergeMap)

theorem MergeMap.nodup : (merge.entries.map Prod.fst).Nodup := by
  rw [List.Nodup, List.pairwise_map]
  exact merge.ordered.imp ne_of_lt

theorem MergeMap.find_iff {name toSection : String} :
    merge.find name = some toSection ↔ (name, toSection) ∈ merge.entries := by
  constructor
  · intro found
    obtain ⟨p, first, second⟩ := Option.map_eq_some_iff.mp found
    have key : p.1 = name := by simpa using List.find?_some first
    have member := List.mem_of_find?_eq_some first
    rw [← key, ← second]
    exact member
  · intro member
    have here : (merge.entries.find? (fun p => decide (p.1 = name))).isSome := by
      rw [List.find?_isSome]
      exact ⟨(name, toSection), member, by simp⟩
    obtain ⟨p, first⟩ := Option.isSome_iff_exists.mp here
    have key : p.1 = name := by simpa using List.find?_some first
    have same := List.inj_on_of_nodup_map merge.nodup (List.mem_of_find?_eq_some first) member key
    simp [MergeMap.find, first, same]

theorem MergeMap.covers (name second : String) (found : merge.find name = some second) :
    name ∈ merge.entries.map Prod.fst :=
  List.mem_map_of_mem (merge.find_iff.mp found)

private theorem getMergeDestinationLoop_eq (fromSection : String) (fuel : Nat) (names : List String)
    (toSection : String) : getMergeDestinationLoop merge fromSection fuel names toSection =
      match follow merge.find fuel names toSection with
      | .final name => .ok name
      | .cycle => .error (.cycleFound fromSection)
      | .outOfFuel => .error .outOfFuel := by
  induction fuel generalizing names toSection with
  | zero => rfl
  | succ fuel ih =>
    simp only [getMergeDestinationLoop, follow]
    by_cases member : toSection ∈ names
    · simp only [if_pos member]
    · simp only [if_neg member]
      cases merge.find toSection with
      | none => rfl
      | some second => exact ih (toSection :: names) second

/-- The search stops: at the end of the chain, or with the cycle error. -/
theorem getMergeDestination_spec (fromSection toSection : String) :
    (∃ name, getMergeDestination merge fromSection toSection = .ok name ∧
        Ends merge.find toSection name) ∨
      getMergeDestination merge fromSection toSection = .error (.cycleFound fromSection) ∧
        Cyclic merge.find toSection := by
  have enough : (merge.entries.map Prod.fst).length < merge.entries.length + 1 := by simp
  rw [getMergeDestination, getMergeDestinationLoop_eq]
  rcases follow_spec _ merge.covers enough toSection with ⟨name, run, ends⟩ | ⟨run, cyclic⟩
  · rw [run]
    exact .inl ⟨name, rfl, ends⟩
  · rw [run]
    exact .inr ⟨rfl, cyclic⟩

end Destination

/-! ### The moves of a whole run -/

/-- Where the chunks of a section are due: a `.bss` section stays out of a shared one. -/
def Config.home (config : Config) (name toSection : String) : String :=
  if name = ".bss" ∧ config.shared toSection = true then name else toSection

/-- The entry is looked up and its chain does not come to an end. -/
def Fails (merge : MergeMap) (p : String × String) : Prop :=
  (p.1 ≠ p.2 ∨ p.1 = ".bss") ∧ Cyclic merge.find p.2

/-- The move takes an entry's sections to the end of its chain. -/
def Resolves (merge : MergeMap) (m : String × String) : Prop :=
  ∃ second, merge.find m.1 = some second ∧ Ends merge.find second m.2

theorem Resolves.ends {merge : MergeMap} {m : String × String} (resolves : Resolves merge m) :
    Ends merge.find m.1 m.2 := by
  obtain ⟨second, found, ends⟩ := resolves
  exact ends.head found

private theorem consistent_of_resolves {merge : MergeMap} {moves : List (String × String)}
    (once : (moves.map Prod.fst).Nodup) (resolves : ∀ m ∈ moves, Resolves merge m) :
    Consistent moves := by
  refine ⟨once, ?_⟩
  intro m m_mem n n_mem same
  obtain ⟨second, found, -⟩ := resolves n n_mem
  have none := (resolves m m_mem).ends.2
  rw [same, found] at none
  cases none

private theorem mergeSection_fails {merge : MergeMap} {p : String × String} (apart : p.1 ≠ p.2)
    (cyclic : Cyclic merge.find p.2) (sections : List OutputSection) :
    mergeSection merge p sections = .error (.cycleFound p.1) := by
  rcases getMergeDestination_spec merge p.1 p.2 with ⟨name, -, ends⟩ | ⟨run, -⟩
  · exact absurd cyclic ends.not_cyclic
  · simp only [mergeSection, if_neg apart, run]

private theorem mergeSection_moves {merge : MergeMap} {p : String × String} (apart : p.1 ≠ p.2)
    {toSection : String} (ends : Ends merge.find p.2 toSection) (sections : List OutputSection) :
    mergeSection merge p sections = .ok (applyMoves [(p.1, toSection)] sections) := by
  rcases getMergeDestination_spec merge p.1 p.2 with ⟨name, run, ends'⟩ | ⟨-, cyclic⟩
  · have same := ends'.rests.unique ends.rests
    simp only [mergeSection, if_neg apart, run, same]
    rfl
  · exact absurd cyclic ends.not_cyclic

/-- A pass over entries is a run of moves, one for each entry that is no self-merge. -/
theorem mergeAll_spec (merge : MergeMap) (entries : List (String × String))
    (sub : ∀ p ∈ entries, p ∈ merge.entries) (sections : List OutputSection) :
    (∃ moves, mergeAll merge entries sections = .ok (applyMoves moves sections) ∧
      moves.map Prod.fst = (entries.filter (fun p => p.1 ≠ p.2)).map Prod.fst ∧
      ∀ m ∈ moves, Resolves merge m) ∨
    ∃ p ∈ entries, p.1 ≠ p.2 ∧ Cyclic merge.find p.2 ∧
      mergeAll merge entries sections = .error (.cycleFound p.1) := by
  induction entries generalizing sections with
  | nil => exact .inl ⟨[], rfl, rfl, by simp⟩
  | cons p rest ih =>
    have sub_rest : ∀ q ∈ rest, q ∈ merge.entries :=
      fun q member => sub q (List.mem_cons_of_mem p member)
    by_cases self : p.1 = p.2
    -- A self-merge does nothing, so it is no move.
    · have skipped : mergeAll merge (p :: rest) sections = mergeAll merge rest sections := by
        simp only [mergeAll, List.foldlM_cons, mergeSection, if_pos self]
        rfl
      have filtered : (p :: rest).filter (fun p => decide (p.1 ≠ p.2)) =
          rest.filter (fun p => decide (p.1 ≠ p.2)) :=
        List.filter_cons_of_neg (by simpa using self)
      rw [skipped, filtered]
      rcases ih sub_rest sections with moved | ⟨q, member, failed⟩
      · exact .inl moved
      · exact .inr ⟨q, List.mem_cons_of_mem p member, failed⟩
    -- Any other entry moves its section to where the chain ends, or stops the pass on a cycle.
    · rcases getMergeDestination_spec merge p.1 p.2 with ⟨name, -, ends⟩ | ⟨-, cyclic⟩
      · have step := mergeSection_moves self ends sections
        have first : mergeAll merge (p :: rest) sections =
            mergeAll merge rest (applyMoves [(p.1, name)] sections) := by
          simp only [mergeAll, List.foldlM_cons, step]
          rfl
        have filtered : (p :: rest).filter (fun p => decide (p.1 ≠ p.2)) =
            p :: rest.filter (fun p => decide (p.1 ≠ p.2)) :=
          List.filter_cons_of_pos (by simpa using self)
        rw [first, filtered]
        rcases ih sub_rest (applyMoves [(p.1, name)] sections) with
          ⟨moves, run, keys, resolves⟩ | ⟨q, member, failed⟩
        · refine .inl ⟨(p.1, name) :: moves, run, ?_, ?_⟩
          · simp only [List.map_cons, keys]
          · intro m member
            rcases List.mem_cons.mp member with rfl | later
            · exact ⟨p.2, merge.find_iff.mpr (sub p List.mem_cons_self), ends⟩
            · exact resolves m later
        · exact .inr ⟨q, List.mem_cons_of_mem p member, failed⟩
      · refine .inr ⟨p, List.mem_cons_self, self, cyclic, ?_⟩
        simp only [mergeAll, List.foldlM_cons, mergeSection_fails self cyclic sections]
        rfl

/-- The late pass moves `.bss` to the end of its chain, if that is not shared. -/
theorem mergeBss_spec (config : Config) (sections : List OutputSection) :
    (∃ moves, mergeBss config sections = .ok (applyMoves moves sections) ∧
      (∀ second, config.merge.find ".bss" = some second → ¬Cyclic config.merge.find second) ∧
      (moves = [] ∧ (∀ toSection, Rests config.merge.find ".bss" toSection →
          config.home ".bss" toSection = ".bss") ∨
        ∃ toSection, moves = [(".bss", toSection)] ∧ config.home ".bss" toSection = toSection ∧
          Resolves config.merge (".bss", toSection))) ∨
    ∃ second, config.merge.find ".bss" = some second ∧ Cyclic config.merge.find second ∧
      mergeBss config sections = .error (.cycleFound ".bss") := by
  cases found : config.merge.find ".bss" with
  | none =>
    refine .inl ⟨[], by simp only [mergeBss, found]; rfl, by simp, .inl ⟨rfl, ?_⟩⟩
    intro toSection rests
    have same := rests.1.eq_of_stop (.inl found)
    rw [same, Config.home, ite_self]
  | some second =>
    rcases getMergeDestination_spec config.merge ".bss" second with
      ⟨toSection, run, ends⟩ | ⟨run, cyclic⟩
    · left
      -- The chain of `.bss` ends elsewhere, as `.bss` itself has an entry.
      have chain := ends.head found
      have not_cyclic : ∀ other, some second = some other → ¬Cyclic config.merge.find other := by
        intro other same
        cases same
        exact ends.not_cyclic
      have apart : ".bss" ≠ toSection := by
        intro same
        rw [← same, Ends, found] at ends
        cases ends.2
      by_cases shared : config.shared toSection = true
      · refine ⟨[], by simp only [mergeBss, found, run, if_pos shared]; rfl, not_cyclic,
          .inl ⟨rfl, ?_⟩⟩
        intro other rests
        rw [rests.unique chain.rests, Config.home, if_pos ⟨rfl, shared⟩]
      · refine ⟨[(".bss", toSection)], ?_, not_cyclic, .inr ⟨toSection, rfl, ?_, second, found, ends⟩⟩
        · simp only [mergeBss, found, run, if_neg shared]
          exact mergeSection_moves apart ⟨.refl toSection, ends.2⟩ sections
        · rw [Config.home, if_neg (fun both => shared both.2)]
    · exact .inr ⟨second, rfl, cyclic, by simp only [mergeBss, found, run]⟩

/-- What the moves of a run that does not stop are. -/
structure Moves (config : Config) (moves : List (String × String)) : Prop where
  consistent : Consistent moves
  resolves : ∀ m ∈ moves, Resolves config.merge m
  kept : ∀ m ∈ moves, config.home m.1 m.2 = m.2
  complete : ∀ p ∈ config.merge.entries, ∀ toSection, Rests config.merge.find p.1 toSection →
    config.home p.1 toSection ≠ p.1 → (p.1, toSection) ∈ moves
  last : ∀ m ∈ moves, m.1 = ".bss" → ∃ early, moves = early ++ [m]

private theorem Config.home_of_ne (config : Config) {name : String} (apart : name ≠ ".bss")
    (toSection : String) : config.home name toSection = toSection :=
  if_neg (fun both => apart both.1)

/-- The moves of the first pass and of the late pass together. -/
theorem moves_append (config : Config) {early late : List (String × String)}
    (keys : early.map Prod.fst = ((config.merge.entries.filter (fun p => p.1 ≠ ".bss")).filter
      (fun p => p.1 ≠ p.2)).map Prod.fst)
    (resolves : ∀ m ∈ early, Resolves config.merge m)
    (bss : late = [] ∧ (∀ toSection, Rests config.merge.find ".bss" toSection →
        config.home ".bss" toSection = ".bss") ∨
      ∃ toSection, late = [(".bss", toSection)] ∧ config.home ".bss" toSection = toSection ∧
        Resolves config.merge (".bss", toSection)) : Moves config (early ++ late) := by
  -- An early move comes from an entry of `/merge` for another name than `.bss`.
  have key : ∀ m ∈ early, ∃ p ∈ config.merge.entries, p.1 ≠ ".bss" ∧ p.1 ≠ p.2 ∧ p.1 = m.1 := by
    intro m member
    have at_key : m.1 ∈ early.map Prod.fst := List.mem_map_of_mem member
    rw [keys] at at_key
    obtain ⟨p, filtered, same⟩ := List.mem_map.mp at_key
    simp only [List.mem_filter, decide_eq_true_eq] at filtered
    exact ⟨p, filtered.1.1, filtered.1.2, filtered.2, same⟩
  have once_early : (early.map Prod.fst).Nodup := by
    rw [keys, List.filter_filter]
    exact (List.filter_sublist.map Prod.fst).nodup config.merge.nodup
  have all : ∀ m ∈ early ++ late, Resolves config.merge m := by
    intro m member
    rcases List.mem_append.mp member with first | second
    · exact resolves m first
    · rcases bss with ⟨empty, -⟩ | ⟨toSection, single, -, resolved⟩
      · rw [empty] at second
        cases second
      · rw [single, List.mem_singleton] at second
        exact second ▸ resolved
  have once : ((early ++ late).map Prod.fst).Nodup := by
    rcases bss with ⟨empty, -⟩ | ⟨toSection, single, -⟩
    · rw [empty, List.append_nil]
      exact once_early
    · rw [single, List.map_append, List.nodup_append']
      refine ⟨once_early, List.nodup_singleton _, ?_⟩
      intro name inside last
      obtain ⟨m, member, same⟩ := List.mem_map.mp inside
      obtain ⟨p, -, apart, -, same'⟩ := key m member
      exact apart (same'.trans (same.trans (List.mem_singleton.mp last)))
  refine ⟨consistent_of_resolves once all, all, ?_, ?_, ?_⟩
  · intro m member
    rcases List.mem_append.mp member with first | second
    -- A name other than `.bss` goes where the table sends it.
    · obtain ⟨p, -, apart, -, same⟩ := key m first
      exact config.home_of_ne (same ▸ apart) m.2
    · rcases bss with ⟨empty, -⟩ | ⟨toSection, single, home, -⟩
      · rw [empty] at second
        cases second
      · rw [single, List.mem_singleton] at second
        rw [second]
        exact home
  · intro p member toSection rests away
    by_cases is_bss : p.1 = ".bss"
    · rw [is_bss] at rests away ⊢
      rcases bss with ⟨-, stays⟩ | ⟨other, single, -, resolved⟩
      · exact absurd (stays toSection rests) away
      · rw [rests.unique resolved.ends.rests, single]
        exact List.mem_append_right _ List.mem_cons_self
    · have differs : p.1 ≠ p.2 := by
        intro self
        have found := config.merge.find_iff.mpr member
        rw [← self] at found
        -- An entry that sends a name to itself stops at once, so its end is not elsewhere.
        have here := rests.1.eq_of_stop (.inr found)
        rw [config.home_of_ne is_bss] at away
        exact away here
      have at_key : p.1 ∈ early.map Prod.fst := by
        rw [keys]
        apply List.mem_map_of_mem
        simp only [List.mem_filter, decide_eq_true_eq]
        exact ⟨⟨member, is_bss⟩, differs⟩
      obtain ⟨m, inside, same⟩ := List.mem_map.mp at_key
      have ends := (resolves m inside).ends.rests
      rw [same] at ends
      rw [← same, rests.unique ends]
      exact List.mem_append_left _ inside
  -- Only the late pass moves `.bss`, and it moves nothing else.
  · intro m member is_bss
    rcases List.mem_append.mp member with first | second
    · obtain ⟨p, -, apart, -, same⟩ := key m first
      exact absurd (same.trans is_bss) apart
    · rcases bss with ⟨empty, -⟩ | ⟨toSection, single, -⟩
      · rw [empty] at second
        cases second
      · rw [single, List.mem_singleton] at second
        exact ⟨early, by rw [single, second]⟩

private theorem mergeSections_ok {config : Config} {sections merged final : List OutputSection}
    (run : mergeAll config.merge (config.merge.entries.filter (fun p => p.1 ≠ ".bss"))
      (sections.map (·.sortPdata config.machine)) = .ok merged)
    (run_bss : mergeBss config merged = .ok final) :
    ∃ out, mergeSections config sections = .ok out ∧ out.sections = final := by
  let ranges := pdataRanges config.machine
    (pdataChunks (sections.map (·.sortPdata config.machine)))
  refine ⟨⟨final, ranges.1, ranges.2⟩, ?_, rfl⟩
  simp only [mergeSections, run, bind, Except.bind, run_bss]
  rfl

/-- A run stops with the cycle error, or it is a run of moves. -/
theorem mergeSections_spec (config : Config) (sections : List OutputSection) :
    (∃ moves merged, mergeSections config sections = .ok merged ∧
      merged.sections = applyMoves moves (sections.map (·.sortPdata config.machine)) ∧
      Moves config moves ∧ ∀ p ∈ config.merge.entries, ¬Fails config.merge p) ∨
    ∃ p ∈ config.merge.entries, Fails config.merge p ∧
      mergeSections config sections = .error (.cycleFound p.1) := by
  have sub : ∀ p ∈ config.merge.entries.filter (fun p => p.1 ≠ ".bss"),
      p ∈ config.merge.entries := fun p member => (List.mem_filter.mp member).1
  -- The first pass stops or ends, and if it ends the late one does either.
  rcases mergeAll_spec config.merge _ sub (sections.map (·.sortPdata config.machine)) with
    ⟨early, run, keys, resolves⟩ | ⟨p, member, apart, cyclic, run⟩
  · rcases mergeBss_spec config (applyMoves early (sections.map (·.sortPdata config.machine))) with
      ⟨late, run_bss, not_cyclic, bss⟩ | ⟨second, found, cyclic, run_bss⟩
    · have moves := moves_append config keys resolves bss
      left
      obtain ⟨merged, done, final⟩ := mergeSections_ok run run_bss
      refine ⟨early ++ late, merged, done, ?_, moves, ?_⟩
      · rw [final, applyMoves_append]
      -- An entry on a cycle would have stopped the pass that looks it up.
      · rintro p member ⟨looked_up, cyclic⟩
        have found := config.merge.find_iff.mpr member
        by_cases is_bss : p.1 = ".bss"
        · rw [is_bss] at found
          exact not_cyclic p.2 found cyclic
        · have differs := looked_up.resolve_right is_bss
          have at_key : p.1 ∈ early.map Prod.fst := by
            rw [keys]
            apply List.mem_map_of_mem
            simp only [List.mem_filter, decide_eq_true_eq]
            exact ⟨⟨member, is_bss⟩, differs⟩
          obtain ⟨m, inside, same⟩ := List.mem_map.mp at_key
          obtain ⟨second, found', ends⟩ := resolves m inside
          rw [same, found] at found'
          cases found'
          exact ends.not_cyclic cyclic
    · refine .inr ⟨(".bss", second), config.merge.find_iff.mp found, ⟨.inr rfl, cyclic⟩, ?_⟩
      simp only [mergeSections, run, bind, Except.bind, run_bss]
  · refine .inr ⟨p, sub p member, ⟨.inl apart, cyclic⟩, ?_⟩
    simp only [mergeSections, run]
    rfl

/-! ### Every chunk at its destination -/

private theorem sortPdata_perm (machine : Machine) (chunks : List Chunk) :
    (sortPdata machine chunks).Perm chunks := by
  rw [sortPdata]
  split
  · exact List.mergeSort_perm ..
  · exact List.Perm.refl _

private theorem OutputSection.sortPdata_name (machine : Machine) (sec : OutputSection) :
    (sec.sortPdata machine).name = sec.name := by
  rw [OutputSection.sortPdata]
  split <;> rfl

private theorem OutputSection.sortPdata_perm (machine : Machine) (sec : OutputSection) :
    (sec.sortPdata machine).chunks.Perm sec.chunks := by
  rw [OutputSection.sortPdata]
  split
  · exact Merging.sortPdata_perm machine sec.chunks
  · exact List.Perm.refl _

private theorem named_map_sortPdata (machine : Machine) (sections : List OutputSection)
    (name : String) :
    named (sections.map (·.sortPdata machine)) name =
      (named sections name).map (·.sortPdata machine) := by
  simp only [named, List.filter_map, Function.comp_def, OutputSection.sortPdata_name]

private theorem chunksOf_map_sortPdata (machine : Machine) (sections : List OutputSection) :
    (chunksOf (sections.map (·.sortPdata machine))).Perm (chunksOf sections) := by
  induction sections with
  | nil => exact List.Perm.refl _
  | cons sec rest ih =>
    rw [List.map_cons, chunksOf_cons, chunksOf_cons]
    exact (sec.sortPdata_perm machine).append ih

private theorem at_map_sortPdata {machine : Machine} {sections : List OutputSection} {name : String}
    {c : Chunk} : At (sections.map (·.sortPdata machine)) name c ↔ At sections name c := by
  rw [At, At, named_map_sortPdata]
  exact (chunksOf_map_sortPdata machine _).mem_iff

/-- The output sections as `createSections` leaves them. -/
structure Created where
  sections : List OutputSection
  once : (chunksOf sections).Nodup
  pdata_named : ∀ sec ∈ sections, sec.isPdataSec = true → sec.name = ".pdata"

structure Placed (config : Config) (before after : List OutputSection) : Prop where
  same_chunks : (chunksOf after).Perm (chunksOf before)
  at_end : ∀ p ∈ config.merge.entries, ∃ toSection, Rests config.merge.find p.1 toSection ∧
    ∀ sec ∈ before, sec.name = p.1 → ∀ c ∈ sec.chunks, At after (config.home p.1 toSection) c
  bss_last : ∀ toSection, Rests config.merge.find ".bss" toSection →
    config.home ".bss" toSection ≠ ".bss" → chunksOf (named before ".bss") ≠ [] →
    ∃ sec ∈ after, sec.name = toSection ∧ chunksOf (named before ".bss") <:+ sec.chunks

/-- What `/merge` promises. -/
structure Merges (config : Config) (created : Created) : Prop where
  terminates : ∀ fromSection toSection,
    getMergeDestination config.merge fromSection toSection ≠ .error .outOfFuel
  cycle_iff : (∃ name, mergeSections config created.sections = .error (.cycleFound name)) ↔
    ∃ p ∈ config.merge.entries, LongCycle config.merge.find p.1
  placed : ∀ merged, mergeSections config created.sections = .ok merged →
    Placed config created.sections merged.sections

/-- A name that is merged into itself is the target of another entry, or it is `.bss`. -/
def EntersSelfMerge (merge : MergeMap) : Prop :=
  (".bss", ".bss") ∈ merge.entries ∨
    ∃ p ∈ merge.entries, p.1 ≠ p.2 ∧ (p.2, p.2) ∈ merge.entries

/-- Of the sections whose chunks are due elsewhere, only the first of each name has any. -/
def FirstOnly (config : Config) (sections : List OutputSection) : Prop :=
  ∀ p ∈ config.merge.entries, ∀ toSection, Rests config.merge.find p.1 toSection →
    config.home p.1 toSection ≠ p.1 → chunksOf (named sections p.1).tail = []

private theorem fails_iff (merge : MergeMap) : (∃ p ∈ merge.entries, Fails merge p) ↔
    (∃ p ∈ merge.entries, LongCycle merge.find p.1) ∨ EntersSelfMerge merge := by
  constructor
  · rintro ⟨p, member, looked_up, cyclic⟩
    -- a cycle that is reached is a long one or a section that merges into itself
    rcases cyclic_iff.mp cyclic with long | ⟨name, leads, self⟩
    · exact .inl ⟨p, member, long.head (merge.find_iff.mpr member)⟩
    · right
      have self_entry := merge.find_iff.mp self
      rcases leads.enters with here | ⟨other, apart, step⟩
      -- the entry is the self merge, and only `.bss` is looked up then
      · by_cases differs : p.1 = p.2
        · have is_bss := looked_up.resolve_left (fun h => h differs)
          rw [← here, ← differs, is_bss] at self_entry
          exact .inl self_entry
        · rw [← here] at self_entry
          exact .inr ⟨p, member, differs, self_entry⟩
      · exact .inr ⟨(other, name), merge.find_iff.mp step, apart, self_entry⟩
  · rintro (⟨p, member, long⟩ | is_bss | ⟨p, member, differs, self_entry⟩)
    · have found := merge.find_iff.mpr member
      have differs : p.1 ≠ p.2 := by
        intro self
        rw [← self] at found
        exact Rests.not_long ⟨.refl p.1, .inr found⟩ long
      exact ⟨p, member, .inl differs, (long.tail found).cyclic⟩
    · have self := merge.find_iff.mpr is_bss
      exact ⟨_, is_bss, .inr rfl, ".bss", ".bss", .refl _, self, .refl _⟩
    · have self := merge.find_iff.mpr self_entry
      exact ⟨p, member, .inl differs, p.2, p.2, .refl _, self, .refl _⟩

private theorem not_outOfFuel (merge : MergeMap) (fromSection toSection : String) :
    getMergeDestination merge fromSection toSection ≠ .error .outOfFuel := by
  rcases getMergeDestination_spec merge fromSection toSection with ⟨name, run, -⟩ | ⟨run, -⟩
  · simp [run]
  · simp [run]

/-- An entry whose look-up succeeds has an end to its chain. -/
theorem exists_rests {merge : MergeMap} {p : String × String} (member : p ∈ merge.entries)
    (succeeds : ¬Fails merge p) : ∃ toSection, Rests merge.find p.1 toSection := by
  have found := merge.find_iff.mpr member
  by_cases self : p.1 = p.2
  · rw [← self] at found
    exact ⟨p.1, .refl p.1, .inr found⟩
  · rcases getMergeDestination_spec merge p.1 p.2 with ⟨name, -, ends⟩ | ⟨-, cyclic⟩
    · exact ⟨name, (ends.head found).rests⟩
    · exact absurd ⟨.inl self, cyclic⟩ succeeds

namespace Moves

variable {config : Config} {moves : List (String × String)} (run : Moves config moves)
  (sections : List OutputSection)

include run

theorem perm : (chunksOf (applyMoves moves sections)).Perm (chunksOf sections) :=
  applyMoves_perm sections (fun _ member => run.consistent.differ member)

/-- A section whose chunks are due where they are keeps them. -/
theorem stays {name toSection : String} (rests : Rests config.merge.find name toSection)
    (home : config.home name toSection = name) {c : Chunk} (here : At sections name c) :
    At (applyMoves moves sections) name c := by
  apply applyMoves_stays sections _ here
  intro m member
  refine ⟨run.consistent.differ member, ?_⟩
  intro same
  have ends := (run.resolves m member).ends.rests
  rw [← same] at ends
  have kept := run.kept m member
  rw [← same, ← rests.unique ends, home, rests.unique ends] at kept
  exact run.consistent.differ member (same.symm.trans kept)

/-- Chunks that stand behind the first section of a name never get away from it. -/
theorem firstOnly_of_placed {created : Created}
    (placed : Placed config created.sections
      (applyMoves moves (created.sections.map (·.sortPdata config.machine)))) :
    FirstOnly config created.sections := by
  intro p member toSection rests away
  by_contra some_left
  obtain ⟨c, inside⟩ := List.exists_mem_of_ne_nil _ some_left
  obtain ⟨sec, sec_mem, c_mem⟩ := List.mem_flatMap.mp inside
  obtain ⟨in_sections, name⟩ := List.mem_filter.mp (List.mem_of_mem_tail sec_mem)
  obtain ⟨other, rests', at_end⟩ := placed.at_end p member
  have arrived := at_end sec in_sections (of_decide_eq_true name) c c_mem
  rw [← rests.unique rests'] at arrived
  have moved := run.complete p member toSection rests away
  have sorted : c ∈ chunksOf
      (named (created.sections.map (·.sortPdata config.machine)) p.1).tail := by
    rw [named_map_sortPdata, ← List.map_tail]
    exact (chunksOf_map_sortPdata config.machine _).mem_iff.mpr inside
  have left := run.consistent.leftover _ moved sorted
  have once := placed.same_chunks.nodup_iff.mpr created.once
  exact away (arrived.unique once left)

/-- If only first sections have chunks, all of them arrive. -/
theorem placed {created : Created} (none_fails : ∀ p ∈ config.merge.entries, ¬Fails config.merge p)
    (first_only : FirstOnly config created.sections) :
    Placed config created.sections
      (applyMoves moves (created.sections.map (·.sortPdata config.machine))) := by
  have first : ∀ {p}, p ∈ config.merge.entries → ∀ {toSection},
      Rests config.merge.find p.1 toSection → config.home p.1 toSection ≠ p.1 →
      chunksOf (named created.sections p.1) ≠ [] → ∃ other,
        findSection created.sections p.1 = some other ∧
        chunksOf (named created.sections p.1) = other.chunks := by
    intro p member toSection rests away some_chunk
    have tail := first_only p member toSection rests away
    cases found : named created.sections p.1 with
    | nil =>
      rw [found] at some_chunk
      exact absurd rfl some_chunk
    | cons other rest =>
      rw [found, List.tail_cons] at tail
      refine ⟨other, by rw [findSection_eq, found]; rfl, ?_⟩
      rw [chunksOf_cons, tail, List.append_nil]
  have found_sorted : ∀ {name other}, findSection created.sections name = some other →
      findSection (created.sections.map (·.sortPdata config.machine)) name =
        some (other.sortPdata config.machine) := by
    intro name other found
    rw [findSection_eq] at found ⊢
    rw [named_map_sortPdata, List.head?_map, found]
    rfl
  refine ⟨?_, ?_, ?_⟩
  · exact (run.perm _).trans (chunksOf_map_sortPdata config.machine _)
  · intro p member
    obtain ⟨toSection, rests⟩ := exists_rests member (none_fails p member)
    refine ⟨toSection, rests, ?_⟩
    intro sec sec_mem name c inside
    have here := At.of_mem sec_mem inside
    rw [name] at here
    by_cases home : config.home p.1 toSection = p.1
    · rw [home]
      exact run.stays _ rests home (at_map_sortPdata.mpr here)
    · obtain ⟨other, found, chunks⟩ :=
        first member rests home (List.ne_nil_of_mem here)
      have moved := run.complete p member toSection rests home
      have kept := run.kept _ moved
      have in_other : c ∈ (other.sortPdata config.machine).chunks := by
        rw [At, chunks] at here
        exact (other.sortPdata_perm config.machine).mem_iff.mpr here
      rw [kept]
      exact run.consistent.arrives _ moved (found_sorted found) in_other
  · intro toSection rests away some_chunk
    rcases rests.1.cases with same | ⟨second, step, -⟩
    · exact absurd (by rw [← same, Config.home, ite_self]) away
    · have member := config.merge.find_iff.mp step
      obtain ⟨other, found, chunks⟩ := first member rests away some_chunk
      have moved := run.complete _ member toSection rests away
      obtain ⟨early, last⟩ := run.last _ moved rfl
      -- no earlier move touches `.bss`
      have untouched : ∀ n ∈ early, n.1 ≠ n.2 ∧ ".bss" ≠ n.1 ∧ ".bss" ≠ n.2 := by
        intro n inside
        have n_mem : n ∈ moves := last ▸ List.mem_append_left _ inside
        refine ⟨run.consistent.differ n_mem, ?_, Ne.symm (run.consistent.apart n n_mem _ moved)⟩
        intro same
        have once := run.consistent.once
        rw [last, List.map_append, List.nodup_append'] at once
        exact once.2.2 (List.mem_map_of_mem inside) (same ▸ List.mem_cons_self)
      have still := found_sorted found
      rw [findSection_eq, ← applyMoves_named _ ".bss" untouched, ← findSection_eq] at still
      obtain ⟨sec, sec_mem, name, suffix⟩ :=
        moveSection_arrives _ (run.consistent.differ moved) still
      refine ⟨sec, ?_, name, ?_⟩
      · rw [last, applyMoves_append]
        exact sec_mem
      · obtain ⟨in_sections, named_bss⟩ : other ∈ created.sections ∧ other.name = ".bss" := by
          exact ⟨List.mem_of_find?_eq_some found, findSection_name found⟩
        have plain : other.isPdataSec ≠ true := by
          intro is_pdata
          rw [created.pdata_named other in_sections is_pdata] at named_bss
          revert named_bss
          decide
        rw [OutputSection.sortPdata, if_neg plain] at suffix
        rw [chunks]
        exact suffix

end Moves

/-- Every chunk arrives, and the error is for cycles, exactly when a cycle stops the linker or no
self-merge is entered and nothing stands behind the first section of a merged name. -/
theorem mergeSections_iff (config : Config) (created : Created) : Merges config created ↔
    (∃ p ∈ config.merge.entries, LongCycle config.merge.find p.1) ∨
      ¬EntersSelfMerge config.merge ∧ FirstOnly config created.sections := by
  rcases mergeSections_spec config created.sections with
    ⟨moves, merged, done, result, run, none_fails⟩ | ⟨p, member, fails, stopped⟩
  -- It ran to its end, so no entry was on a cycle of any kind.
  · have no_long : ¬∃ p ∈ config.merge.entries, LongCycle config.merge.find p.1 := by
      intro long
      obtain ⟨p, member, fails⟩ := (fails_iff config.merge).mpr (.inl long)
      exact none_fails p member fails
    have no_self : ¬EntersSelfMerge config.merge := by
      intro self
      obtain ⟨p, member, fails⟩ := (fails_iff config.merge).mpr (.inr self)
      exact none_fails p member fails
    constructor
    · intro merges
      have placed := merges.placed merged done
      rw [result] at placed
      exact .inr ⟨no_self, run.firstOnly_of_placed placed⟩
    · intro condition
      have first_only := (condition.resolve_left no_long).2
      refine ⟨not_outOfFuel config.merge, ?_, ?_⟩
      · rw [done]
        exact iff_of_false (by simp) no_long
      · intro other same
        rw [done] at same
        cases same
        rw [result]
        exact run.placed none_fails first_only
  -- It stopped on a cycle; that is right only on a long one, not on an entered self-merge.
  · have stops : ∃ name, mergeSections config created.sections = .error (.cycleFound name) :=
      ⟨p.1, stopped⟩
    constructor
    · intro merges
      exact .inl (merges.cycle_iff.mp stops)
    · intro condition
      have long : ∃ p ∈ config.merge.entries, LongCycle config.merge.find p.1 := by
        rcases condition with long | ⟨no_self, -⟩
        · exact long
        · exact ((fails_iff config.merge).mp ⟨p, member, fails⟩).resolve_right no_self
      refine ⟨not_outOfFuel config.merge, ⟨fun _ => long, fun _ => stops⟩, ?_⟩
      intro merged done
      rw [stopped] at done
      cases done

/-- `/merge:.a=.b /merge:.b=.b`. -/
def intoSelfMerged : MergeMap := ⟨[(".a", ".b"), (".b", ".b")], by decide⟩

example : (do let merge ← parseMerge ⟨[], .nil⟩ ".a=.b"
              return (← parseMerge merge ".b=.b").entries) = .ok intoSelfMerged.entries := by decide

/-- `/merge:.a=.b`. -/
def aIntoB : MergeMap := ⟨[(".a", ".b")], by decide⟩

/-- Two sections `.a` of different characteristics and one `.b`. -/
def twiceA : Created where
  sections :=
    [⟨".a", 0x40000040, false, [⟨0, .amd64⟩], [0]⟩, ⟨".a", 0xC0000040, false, [⟨1, .amd64⟩], [1]⟩,
      ⟨".b", 0x40000040, false, [⟨2, .amd64⟩], [2]⟩]
  once := by decide
  pdata_named := by decide

instance (sections : List OutputSection) (name : String) (c : Chunk) :
    Decidable (At sections name c) :=
  inferInstanceAs (Decidable (c ∈ _))

private theorem intoSelfMerged_not_merges : ¬Merges ⟨.amd64, intoSelfMerged, []⟩ twiceA := by
  intro merges
  have self : intoSelfMerged.find ".b" = some ".b" := by decide
  have at_b : Rests intoSelfMerged.find ".b" ".b" := ⟨.refl ".b", .inr self⟩
  have at_a : Rests intoSelfMerged.find ".a" ".b" := ⟨.head (by decide) (.refl ".b"), .inr self⟩
  obtain ⟨p, member, long⟩ := merges.cycle_iff.mp ⟨".a", by rfl⟩
  have keys : ∀ q ∈ intoSelfMerged.entries, q.1 = ".a" ∨ q.1 = ".b" := by decide
  rcases keys p member with a | b
  · rw [a] at long
    exact at_a.not_long long
  · rw [b] at long
    exact at_b.not_long long

private theorem aIntoB_not_merges : ¬Merges ⟨.amd64, aIntoB, []⟩ twiceA := by
  intro merges
  obtain ⟨toSection, rests, at_end⟩ :=
    (merges.placed _ (by rfl)).at_end (".a", ".b") List.mem_cons_self
  have to_b : Rests aIntoB.find ".a" ".b" :=
    ⟨.head (by decide) (.refl ".b"), .inl (by decide)⟩
  -- the second section `.a` is never found
  have second := at_end _ (List.mem_cons_of_mem _ List.mem_cons_self) rfl ⟨1, .amd64⟩
    List.mem_cons_self
  rw [rests.unique to_b] at second
  revert second
  decide

/-- A self-merge that is entered stops the linker, and a second section of a name stays. -/
theorem merge_directives_broken :
    ¬Merges ⟨.amd64, intoSelfMerged, []⟩ twiceA ∧ ¬Merges ⟨.amd64, aIntoB, []⟩ twiceA :=
  ⟨intoSelfMerged_not_merges, aIntoB_not_merges⟩

end LlvmLd.Writer.Merging
