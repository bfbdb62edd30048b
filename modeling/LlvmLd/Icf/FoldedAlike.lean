import Mathlib.Data.List.Nodup
import LlvmLd.Icf.Passes

/-!
Chunks that `ICF::run` folds together are interchangeable, up to what its classes cannot tell
apart. A chunk that is not collected has its id at index 0 of `eqClass` only, so the first variable
pass, which reads index 1, takes all of them for one; a chunk without an id is 0 at both.
-/

namespace LlvmLd.Icf

open Refinement

variable (p : Program)

/-- A chunk with an id or a hash. -/
def Tracked (c : ChunkId) : Prop := c ∈ p.driverChunks ∨ c ∈ p.mergeSections

instance (c : ChunkId) : Decidable (Tracked p c) := inferInstanceAs (Decidable (_ ∨ _))

def FoldedTogether (m : Merged) (a b : ChunkId) : Prop := m.repl a = m.repl b

/-- The same symbol, or defined symbols in chunks folded together. -/
def SymbolsFolded (m : Merged) (s t : SymbolId) : Prop :=
  s = t ∨ ∃ d e, p.definedRegular s = some d ∧ p.definedRegular t = some e ∧
    FoldedTogether m d.chunk e.chunk

/-- As `SymbolsFolded`, with the same value. -/
def TargetsFolded (m : Merged) (s t : SymbolId) : Prop :=
  s = t ∨ ∃ d e, p.definedRegular s = some d ∧ p.definedRegular t = some e ∧
    d.value = e.value ∧ FoldedTogether m d.chunk e.chunk

def ThunksFolded (m : Merged) : Option SymbolId → Option SymbolId → Prop
  | none, none => True
  | some s, some t => SymbolsFolded p m s t
  | _, _ => False

structure Interchangeable (m : Merged) (a b : ChunkId) : Prop where
  sectionName : (p.chunk a).sectionName = (p.chunk b).sectionName
  attributes : (p.chunk a).getOutputCharacteristics = (p.chunk b).getOutputCharacteristics
  machine : (p.chunk a).machine = (p.chunk b).machine
  checksum : (p.chunk a).checksum = (p.chunk b).checksum
  contents : (p.chunk a).contents = (p.chunk b).contents
  relocs : List.Forall₂ (fun r1 r2 : CoffRelocation =>
    r1.type = r2.type ∧ r1.virtualAddress = r2.virtualAddress ∧
      TargetsFolded p m (target p a r1) (target p b r2)) (p.chunk a).relocs (p.chunk b).relocs
  entryThunks : ThunksFolded p m (p.chunk a).entryThunk (p.chunk b).entryThunk
  children : List.Forall₂ (FoldedTogether m) (considered p a) (considered p b)

/-- Different symbols in different chunks, neither of which is known to `known`. -/
def Confused (known : ChunkId → Prop) (s t : SymbolId) : Prop :=
  s ≠ t ∧ ∃ d e, p.definedRegular s = some d ∧ p.definedRegular t = some e ∧
    d.chunk ≠ e.chunk ∧ ¬ known d.chunk ∧ ¬ known e.chunk

/--
The condition on the input under which two folded chunks are interchangeable. Targets and
children are told apart by index 0 too, entry thunks in the first variable pass only by index 1.
-/
structure Comparable (a b : ChunkId) : Prop where
  targets : ∀ r1 r2, (r1, r2) ∈ (p.chunk a).relocs.zip (p.chunk b).relocs →
    ¬ Confused p (Tracked p) (target p a r1) (target p b r2)
  entryThunks : ∀ e1 ∈ (p.chunk a).entryThunk, ∀ e2 ∈ (p.chunk b).entryThunk,
    ¬ Confused p (· ∈ p.collected) e1 e2
  children : ∀ c1 c2, (c1, c2) ∈ (considered p a).zip (considered p b) →
    c1 = c2 ∨ Tracked p c1 ∨ Tracked p c2

variable {p}

/-! ### The first classes -/

private theorem nextIds_outside (l : List ChunkId) (nextId : Nat) (cls : ChunkId → Nat)
    (c : ChunkId) (outside : c ∉ l) : nextIds l nextId cls c = cls c := by
  induction l generalizing nextId cls with
  | nil => rfl
  | cons sc scs ih =>
    rw [List.mem_cons, not_or] at outside
    rw [nextIds, ih _ _ outside.2, Function.update_of_ne outside.1]

private theorem nextIds_inside (l : List ChunkId) (nextId : Nat) (cls : ChunkId → Nat) (c : ChunkId)
    (distinct : l.Nodup) (inside : c ∈ l) :
    nextIds l nextId cls c = (nextId + l.idxOf c) % 2 ^ 32 := by
  induction l generalizing nextId cls with
  | nil => cases inside
  | cons sc scs ih =>
    rw [List.nodup_cons] at distinct
    -- the head has the number at hand, and no later chunk writes it again
    by_cases here : c = sc
    · rw [here, nextIds, nextIds_outside _ _ _ _ distinct.1, Function.update_self,
        List.idxOf_cons_self, Nat.add_zero]
    · have later := (List.mem_cons.mp inside).resolve_left here
      rw [nextIds, ih _ _ distinct.2 later, List.idxOf_cons_ne _ (Ne.symm here)]
      congr 1
      omega

private theorem numbered_nodup : (numbered p).Nodup := by
  have sublist : (numbered p).Sublist (p.driverChunks ++ p.mergeSections) :=
    List.filter_sublist.append (List.Sublist.refl _)
  exact p.distinct.sublist sublist

private theorem length_numbered : (numbered p).length < 2 ^ 31 := by
  have few := p.few
  have filtered := List.length_filter_le (fun c => !isEligible p c) p.driverChunks
  simp only [numbered, List.length_append] at few ⊢
  omega

private theorem numbered_of_tracked (c : ChunkId) (outside : c ∉ p.collected)
    (tracked : Tracked p c) :
    c ∈ numbered p := by
  rw [numbered, List.mem_append, List.mem_filter]
  rcases tracked with driver | merge
  · left
    refine ⟨driver, ?_⟩
    by_contra eligible
    have : isEligible p c = true := by simpa using eligible
    exact outside (List.mem_filter.mpr ⟨driver, this⟩)
  · right
    exact merge

/-- The id of a chunk that is not collected, 0 if it has none. -/
theorem initialClass_outside (c : ChunkId) (outside : c ∉ p.collected) :
    initialClass p 0 c = if c ∈ numbered p then (numbered p).idxOf c + 1 else 0 := by
  simp only [initialClass, if_neg outside]
  split_ifs with member
  · have position := List.idxOf_lt_length_of_mem member
    have few := length_numbered (p := p)
    rw [nextIds_inside _ _ _ _ numbered_nodup member, Nat.mod_eq_of_lt (by omega)]
    omega
  · exact nextIds_outside _ _ _ _ member

private theorem initialClass_lt (c : ChunkId) (outside : c ∉ p.collected) :
    initialClass p 0 c < 2 ^ 31 := by
  rw [initialClass_outside c outside]
  split_ifs with member
  · have position := List.idxOf_lt_length_of_mem member
    have few := length_numbered (p := p)
    omega
  · exact Nat.two_pow_pos 31

/-- Ids tell chunks apart as soon as one of the two has one. -/
theorem initialClass_injective (c d : ChunkId) (outside : c ∉ p.collected)
    (outside' : d ∉ p.collected) (tracked : Tracked p c ∨ Tracked p d)
    (same : initialClass p 0 c = initialClass p 0 d) : c = d := by
  rw [initialClass_outside c outside, initialClass_outside d outside'] at same
  have known : c ∈ numbered p ∨ d ∈ numbered p :=
    tracked.imp (numbered_of_tracked c outside) (numbered_of_tracked d outside')
  -- the numbered chunks differ by their place, all others share class zero
  by_cases first : c ∈ numbered p
  · by_cases second : d ∈ numbered p
    · rw [if_pos first, if_pos second] at same
      exact (List.idxOf_inj first).mp (by omega)
    · rw [if_pos first, if_neg second] at same
      omega
  · by_cases second : d ∈ numbered p
    · rw [if_neg first, if_pos second] at same
      omega
    · exact absurd known (not_or.mpr ⟨first, second⟩)

private theorem start_ready : Ready p (start p) := by
  constructor
  · exact List.perm_insertionSort _ _
  · intro i c outside
    simp [start, combineHashes, outside]

private theorem start_collected (c : ChunkId) (inside : c ∈ p.collected) :
    2 ^ 31 ≤ (start p).current c := by
  simp only [State.current, start, combineHashes, inside, and_true]
  exact Nat.right_le_or

private theorem start_outside (c : ChunkId) (outside : c ∉ p.collected) :
    (start p).current c = initialClass p 0 c := start_ready.others 0 c outside

/-! ### The merge -/

private theorem mergeClass_repl (c : ChunkId) (others : List ChunkId) (m : Merged)
    (absent : c ∉ others) (x : ChunkId) : (mergeClass m (c :: others)).repl x =
      if x ∈ others then m.repl c else m.repl x := by
  simp only [mergeClass]
  induction others generalizing m with
  | nil => simp
  | cons other others ih =>
    rw [List.mem_cons, not_or] at absent
    rw [List.foldl_cons, ih (replace c m other) absent.2]
    simp only [replace, Function.update_of_ne absent.1]
    -- the one that is replaced now, a later one or none
    by_cases later : x ∈ others
    · simp [later]
    · by_cases here : x = other
      · simp [here]
      · simp [later, here]

private theorem mergeGroups_repl (start : Nat) (gs : Groups ChunkId) (placed : Placed start gs)
    (m : Merged) (distinct : (members gs).Nodup) (untouched : ∀ x ∈ members gs, m.repl x = x) :
    (∀ x ∉ members gs, (gs.foldl (fun m g => mergeClass m g.2) m).repl x = m.repl x) ∧
      ∀ g ∈ gs, ∃ h ∈ g.2, ∀ x ∈ g.2,
        (gs.foldl (fun m g => mergeClass m g.2) m).repl x = h := by
  induction gs generalizing start m with
  | nil => exact ⟨fun _ _ => rfl, fun g member => by cases member⟩
  | cons g gs ih =>
    obtain ⟨mid, group⟩ := g
    obtain ⟨some, -, behind⟩ := placed
    cases group with
    | nil => exact absurd rfl some
    | cons c others =>
      rw [members_cons, List.nodup_append] at distinct
      obtain ⟨here, later, apart⟩ := distinct
      rw [List.nodup_cons] at here
      -- The classes are disjoint, so replacing within this one touches no later member.
      have step := mergeClass_repl c others m here.1
      have untouched' : ∀ x ∈ members gs, (mergeClass m (c :: others)).repl x = x := by
        intro x inside
        have absent : x ∉ others := fun again =>
          apart x (List.mem_cons_of_mem _ again) x inside rfl
        rw [step, if_neg absent]
        exact untouched x (by simp [inside])
      obtain ⟨outside, groups⟩ := ih mid behind (mergeClass m (c :: others)) later untouched'
      rw [List.foldl_cons]
      constructor
      · intro x absent
        rw [members_cons, List.mem_append, List.mem_cons, not_or, not_or] at absent
        rw [outside x absent.2, step, if_neg absent.1.2]
      · intro g member
        -- In this class everything is replaced by its first member, which no later class moves.
        rcases List.mem_cons.mp member with rfl | member
        · refine ⟨c, List.mem_cons_self, ?_⟩
          intro x inside
          have absent : x ∉ members gs := fun again => apart x inside x again rfl
          have own : m.repl c = c := untouched c (by simp)
          rw [outside x absent, step]
          split_ifs with other
          · exact own
          · have first := (List.mem_cons.mp inside).resolve_right other
            rw [first, own]
        · exact groups g member

private theorem mergeAll_groups (s : State) :
    mergeAll p s = (groupsOf s).foldl (fun m g => mergeClass m g.2) (unmerged p) := by
  rw [mergeAll, groupsOf, cutOut, List.foldl_map]

private theorem folded_iff {s : State} {gs : Groups ChunkId} (marked : Marked s gs)
    (ready : Ready p s) (a b : ChunkId) :
    FoldedTogether (mergeAll p s) a b ↔ a = b ∨ SameGroup gs a b := by
  have distinct := marked.distinct ready
  -- `repl` leads a member to the head of its group and leaves every other chunk where it is
  obtain ⟨outside, groups⟩ := mergeGroups_repl 0 gs marked.placed (unmerged p) distinct
    (fun _ _ => rfl)
  simp only [FoldedTogether]
  rw [mergeAll_groups, marked.groupsOf_eq]
  constructor
  -- chunks of different groups have different heads, and chunks outside of all stay themselves
  · intro same
    by_cases left : a ∈ members gs
    · obtain ⟨g, member, inside⟩ := mem_members.mp left
      obtain ⟨h, head, heads⟩ := groups g member
      by_cases right : b ∈ members gs
      · obtain ⟨g', member', inside'⟩ := mem_members.mp right
        obtain ⟨h', head', heads'⟩ := groups g' member'
        rw [heads a inside, heads' b inside'] at same
        rw [← same] at head'
        -- the two heads are one chunk, and no chunk lies in two groups
        have one := group_unique gs distinct h g g' member member' head head'
        exact Or.inr ⟨g, member, inside, by rw [one]; exact inside'⟩
      · rw [heads a inside, outside b right] at same
        exact absurd (mem_members.mpr ⟨g, member, head⟩) (by rw [same]; exact right)
    · by_cases right : b ∈ members gs
      · obtain ⟨g, member, inside⟩ := mem_members.mp right
        obtain ⟨h, head, heads⟩ := groups g member
        rw [heads b inside, outside a left] at same
        exact absurd (mem_members.mpr ⟨g, member, head⟩) (by rw [← same]; exact left)
      · rw [outside a left, outside b right] at same
        exact Or.inl same
  · rintro (same | ⟨g, member, left, right⟩)
    · rw [same]
    · obtain ⟨h, -, heads⟩ := groups g member
      rw [heads a left, heads b right]

/-! ### What the classes of one group have in common -/

/-- The keys of two chunks in one group, at the first pass, the first variable pass and the last. -/
structure Alike (p : Program) (cls : ChunkId → Nat) (a b : ChunkId) : Prop where
  constant : constantKey p (start p).current a = constantKey p (start p).current b
  first : variableKey p (pass p true (start p)).current a =
    variableKey p (pass p true (start p)).current b
  last : variableKey p cls a = variableKey p cls b

private theorem constantKey_relocs (cls : ChunkId → Nat) (a b : ChunkId)
    (same : constantKey p cls a = constantKey p cls b) :
    (p.chunk a).relocs.length = (p.chunk b).relocs.length := by
  have relocs := congrArg (fun key => key.relocs.length) same
  simpa [constantKey] using relocs

private theorem start_alike (gs' : Groups ChunkId) (s' : State)
    (converged : Converged p (pass p true (start p)) s'
      (refine (equals p (start p) true) (groupsOf (start p))) gs') :
    ∃ cls : ChunkId → Nat, (∀ g ∈ gs', ∀ c ∈ g.2, cls c = g.1) ∧
      ∀ a b, SameGroup gs' a b → Alike p cls a b := by
  obtain ⟨cls, mark, fixed⟩ := converged.last
  -- the start pass compares what folding cannot change
  have constant : ∀ a b, SameGroup (refine (equals p (start p) true) (groupsOf (start p))) a b →
      constantKey p (start p).current a = constantKey p (start p).current b :=
    refine_key _ _ _ (fun h x _ equal => (equalsConstant_iff h x).mp equal)
  -- the first variable pass still sees the classes of the start pass
  have first : ∀ a b, SameGroup (refine (equalsVariable p (pass p true (start p)).current)
      (refine (equals p (start p) true) (groupsOf (start p)))) a b →
      variableKey p (pass p true (start p)).current a =
        variableKey p (pass p true (start p)).current b := by
    refine refine_key _ _ _ (fun h x same equal => ?_)
    exact (equalsVariable_iff h x (constantKey_relocs _ h x (constant h x same))).mp equal
  have earlier : ∀ a b, SameGroup gs' a b →
      constantKey p (start p).current a = constantKey p (start p).current b := fun a b same =>
    constant a b (refine_coarser _ _ a b (converged.first a b same))
  refine ⟨cls, mark, ?_⟩
  intro a b same
  refine ⟨earlier a b same, first a b (converged.first a b same), ?_⟩
  -- one more pass would split nothing, so the groups agree on the last classes as well
  rw [← fixed] at same
  refine refine_key _ _ gs' (fun h x same' equal => ?_) a b same
  exact (equalsVariable_iff h x (constantKey_relocs _ h x (earlier h x same'))).mp equal

/-! ### A run -/

private theorem first_collected (c : ChunkId) (inside : c ∈ p.collected) :
    0 < (pass p true (start p)).current c := by
  have marked := pass_marked (p := p) start_ready true
  have member := (refined_perm (p := p) start_ready true).mem_iff.mpr inside
  obtain ⟨g, here, within⟩ := mem_members.mp member
  rw [marked.mark g here c within]
  exact placed_positive 0 _ marked.placed g here

private theorem first_outside (c : ChunkId) (outside : c ∉ p.collected) :
    (pass p true (start p)).current c = 0 :=
  (pass_ready start_ready true).others 1 c outside

/-- What the end of a run says about its merge: `cls` are the classes of the last pass. -/
structure Outcome (p : Program) (m : Merged) (cls : ChunkId → Nat) : Prop where
  folded : ∀ d ∈ p.collected, ∀ e ∈ p.collected, cls d = cls e → FoldedTogether m d e
  collected : ∀ d e, FoldedTogether m d e → d = e ∨ (d ∈ p.collected ∧ e ∈ p.collected)
  alike : ∀ a b, FoldedTogether m a b → Alike p cls a b

private theorem run_outcome (fuel : Nat) (m : Merged) (returned : run p fuel = some m) :
    ∃ cls, Outcome p m cls := by
  have marked := pass_marked (p := p) start_ready true
  obtain ⟨s', last, rfl⟩ := Option.map_eq_some_iff.mp returned
  obtain ⟨gs', converged⟩ :=
    variableLoop_converges fuel (pass_ready start_ready true) marked s' last
  obtain ⟨cls, mark, alike⟩ := start_alike gs' s' converged
  have folded := folded_iff converged.marked converged.ready
  have perm := converged.marked.members_perm converged.ready
  refine ⟨cls, ?_, ?_, ?_⟩
  · intro d left e right same
    obtain ⟨g, here, inside⟩ := mem_members.mp (perm.mem_iff.mpr left)
    obtain ⟨g', here', inside'⟩ := mem_members.mp (perm.mem_iff.mpr right)
    rw [mark g here d inside, mark g' here' e inside'] at same
    -- a class number names one group
    have one := placed_injective 0 gs' converged.marked.placed g g' here here' same
    exact (folded d e).mpr (Or.inr ⟨g, here, inside, by rw [one]; exact inside'⟩)
  · intro d e together
    rcases (folded d e).mp together with same | same
    · exact Or.inl same
    · exact Or.inr ⟨perm.mem_iff.mp same.left, perm.mem_iff.mp same.symm.left⟩
  · intro a b together
    rcases (folded a b).mp together with same | same
    · rw [same]
      exact ⟨rfl, rfl, rfl⟩
    · exact alike a b same

variable {m : Merged} {cls : ChunkId → Nat}

/-- Two chunks that looked the same to the constant pass and to the last one. -/
theorem Outcome.referenced (outcome : Outcome p m cls) (d e : ChunkId)
    (constant : (start p).current d = (start p).current e) (last : cls d = cls e)
    (tracked : Tracked p d ∨ Tracked p e) : FoldedTogether m d e := by
  -- a class with the top bit set is a collected chunk's, the ones without are the others'
  by_cases left : d ∈ p.collected
  · have hash := start_collected d left
    by_cases right : e ∈ p.collected
    · exact outcome.folded d left e right last
    · have id := initialClass_lt e right
      rw [constant, start_outside e right] at hash
      omega
  · have id := initialClass_lt d left
    rw [start_outside d left] at constant
    by_cases right : e ∈ p.collected
    · have hash := start_collected e right
      omega
    · rw [start_outside e right] at constant
      rw [initialClass_injective d e left right tracked constant]
      rfl

/-- Two entry thunk chunks that looked the same to the first and to the last variable pass. -/
theorem Outcome.thunk (outcome : Outcome p m cls) (d e : ChunkId)
    (first : (pass p true (start p)).current d = (pass p true (start p)).current e)
    (last : cls d = cls e) (eligible : d ∈ p.collected ∨ e ∈ p.collected) :
    FoldedTogether m d e := by
  -- the first pass gives collected chunks a class that is not zero
  by_cases left : d ∈ p.collected
  · have id := first_collected d left
    by_cases right : e ∈ p.collected
    · exact outcome.folded d left e right last
    · rw [first, first_outside e right] at id
      exact absurd id (Nat.lt_irrefl 0)
  · have right := eligible.resolve_left left
    have id := first_collected e right
    rw [← first, first_outside d left] at id
    exact absurd id (Nat.lt_irrefl 0)

/-- Folding two different chunks takes two eligible ones, so nothing that was folded is confused. -/
theorem Outcome.not_confused (outcome : Outcome p m cls) (known : ChunkId → Prop)
    (knows : ∀ c ∈ p.collected, known c) (s t : SymbolId) (folded : SymbolsFolded p m s t) :
    ¬ Confused p known s t := by
  rintro ⟨differ, d, e, left, right, apart, unknown, -⟩
  rcases folded with same | ⟨d', e', left', right', together⟩
  · exact differ same
  · rw [left] at left'
    rw [right] at right'
    obtain rfl := Option.some.inj left'
    obtain rfl := Option.some.inj right'
    rcases outcome.collected _ _ together with same | both
    · exact apart same
    · exact unknown (knows _ both.1)

theorem TargetsFolded.symbols (s t : SymbolId) (folded : TargetsFolded p m s t) :
    SymbolsFolded p m s t :=
  folded.imp id (fun ⟨d, e, left, right, _, together⟩ => ⟨d, e, left, right, together⟩)

private theorem tracked_of_collected (c : ChunkId) (inside : c ∈ p.collected) : Tracked p c :=
  Or.inl (List.mem_filter.mp inside).1

theorem Outcome.comparable (outcome : Outcome p m cls) (a b : ChunkId)
    (alike : Interchangeable p m a b) : Comparable p a b := by
  constructor
  · intro r1 r2 pair
    have related := (List.forall₂_iff_zip.mp alike.relocs).2 pair
    exact outcome.not_confused _ tracked_of_collected _ _ related.2.2.symbols
  · intro e1 left e2 right
    have thunks := alike.entryThunks
    rw [Option.mem_def.mp left, Option.mem_def.mp right] at thunks
    exact outcome.not_confused _ (fun _ inside => inside) _ _ thunks
  · intro c1 c2 pair
    have together := (List.forall₂_iff_zip.mp alike.children).2 pair
    exact (outcome.collected c1 c2 together).imp id
      (fun both => Or.inl (tracked_of_collected c1 both.1))

private theorem Outcome.targetsFolded (outcome : Outcome p m cls) (s t : SymbolId)
    (constant : targetKey p (start p).current s = targetKey p (start p).current t)
    (last : symbolKey p cls s = symbolKey p cls t) (clear : ¬ Confused p (Tracked p) s t) :
    TargetsFolded p m s t := by
  by_cases same : s = t
  · exact Or.inl same
  · simp only [targetKey] at constant
    simp only [symbolKey] at last
    -- a symbol that is not defined in a section has only itself for a key
    cases left : p.definedRegular s with
    | none =>
      cases right : p.definedRegular t with
      | none =>
        simp only [left, right, Sum.inr.injEq] at last
        exact absurd last same
      | some e => simp [left, right] at last
    | some d =>
      cases right : p.definedRegular t with
      | none => simp [left, right] at last
      | some e =>
        simp only [left, right, Sum.inl.injEq, Prod.mk.injEq] at constant last
        refine Or.inr ⟨d, e, left, right, constant.1, ?_⟩
        by_cases one : d.chunk = e.chunk
        · rw [one]
          rfl
        · apply outcome.referenced d.chunk e.chunk constant.2 last
          -- keys that agree on two chunks of which neither is tracked are what `Confused` names
          by_contra neither
          rw [not_or] at neither
          exact clear ⟨same, d, e, left, right, one, neither⟩

private theorem Outcome.thunksFolded (outcome : Outcome p m cls) (s t : SymbolId)
    (first : symbolKey p (pass p true (start p)).current s =
      symbolKey p (pass p true (start p)).current t)
    (last : symbolKey p cls s = symbolKey p cls t)
    (clear : ¬ Confused p (· ∈ p.collected) s t) : SymbolsFolded p m s t := by
  by_cases same : s = t
  · exact Or.inl same
  · simp only [symbolKey] at first last
    cases left : p.definedRegular s with
    | none =>
      cases right : p.definedRegular t with
      | none =>
        simp only [left, right, Sum.inr.injEq] at last
        exact absurd last same
      | some e => simp [left, right] at last
    | some d =>
      cases right : p.definedRegular t with
      | none => simp [left, right] at last
      | some e =>
        simp only [left, right, Sum.inl.injEq] at first last
        refine Or.inr ⟨d, e, left, right, ?_⟩
        by_cases one : d.chunk = e.chunk
        · rw [one]
          rfl
        · apply outcome.thunk d.chunk e.chunk first last
          -- as for the targets, with the collected chunks in the place of the tracked ones
          by_contra neither
          rw [not_or] at neither
          exact clear ⟨same, d, e, left, right, one, neither⟩

private theorem forall₂_of_map_eq {α β γ : Type} (f : α → γ) (g : β → γ) (xs : List α) (ys : List β)
    (same : xs.map f = ys.map g) : List.Forall₂ (fun x y => f x = g y) xs ys := by
  rw [← List.forall₂_map_right_iff (R := fun x c => f x = c), ← List.forall₂_map_left_iff (R := Eq),
    List.forall₂_eq_eq_eq]
  exact same

private theorem Outcome.interchangeable (outcome : Outcome p m cls) (a b : ChunkId)
    (alike : Alike p cls a b) (comparable : Comparable p a b) : Interchangeable p m a b := by
  obtain ⟨constant, first, last⟩ := alike
  simp only [constantKey, ConstantKey.mk.injEq] at constant
  simp only [variableKey, VariableKey.mk.injEq] at first last
  obtain ⟨relocs, attributes, sectionName, -, checksum, contents, machine, children⟩ := constant
  refine ⟨sectionName, attributes, machine, checksum, contents, ?_, ?_, ?_⟩
  -- the relocations: types and offsets from the start pass, the targets from the last one
  · have fixed := forall₂_of_map_eq _ _ _ _ relocs
    have moving := forall₂_of_map_eq _ _ _ _ last.2.1
    rw [List.forall₂_iff_zip] at fixed moving ⊢
    refine ⟨fixed.1, ?_⟩
    intro r1 r2 pair
    have same := fixed.2 pair
    simp only [Prod.mk.injEq] at same
    exact ⟨same.1, same.2.1, outcome.targetsFolded _ _ same.2.2 (moving.2 pair)
      (comparable.targets r1 r2 pair)⟩
  -- the entry thunks: only the two passes over classes look at them
  · have clear := comparable.entryThunks
    cases left : (p.chunk a).entryThunk <;> cases right : (p.chunk b).entryThunk <;>
      simp only [left, right, Option.map_some, Option.map_none, Option.some.injEq, reduceCtorEq,
        false_and] at first last clear
    · trivial
    · exact outcome.thunksFolded _ _ first.1 last.1 (clear _ rfl _ rfl)
  -- the associated children
  · have fixed := forall₂_of_map_eq _ _ _ _ children
    have moving := forall₂_of_map_eq _ _ _ _ last.2.2
    rw [List.forall₂_iff_zip] at fixed moving ⊢
    refine ⟨fixed.1, ?_⟩
    intro c1 c2 pair
    rcases comparable.children c1 c2 pair with same | tracked
    · rw [same]
      rfl
    · exact outcome.referenced c1 c2 (fixed.2 pair) (moving.2 pair) tracked

/--
`ICF::run` returns, the shards visit what one scan visits, and two chunks it folds together are
interchangeable exactly if nothing they refer to is confused.
-/
theorem icf_folds_interchangeable_iff (p : Program) :
    (∀ fuel, p.collected.length < fuel → ∃ m, run p fuel = some m) ∧
      (∀ s : State, forEachClass s = forEachClassRange s 0 s.chunks.length) ∧
      ∀ fuel m, run p fuel = some m → ∀ a b, FoldedTogether m a b →
        (Interchangeable p m a b ↔ Comparable p a b) := by
  refine ⟨?_, forEachClass_eq_sequential, ?_⟩
  · intro fuel enough
    obtain ⟨s', returned⟩ := variableLoop_returns fuel (pass_ready (p := p) start_ready true)
      (pass_marked start_ready true) (by omega)
    exact ⟨mergeAll p s', by rw [run, returned]; rfl⟩
  · intro fuel m returned a b together
    obtain ⟨cls, outcome⟩ := run_outcome fuel m returned
    constructor
    · exact outcome.comparable a b
    · exact outcome.interchangeable a b (outcome.alike a b together)

/-- A chunk that refers to nothing but its entry thunk. -/
def leafChunk (characteristics : Nat) (code : UInt8) (entryThunk : Option SymbolId) :
    SectionChunk where
  sectionName := ascii ".text"
  characteristics := characteristics
  sizeOfRawData := 1
  checksum := 0
  machine := 0xa641
  contents := [code]
  relocs := []
  getSymbol := id
  sym := none
  entryThunk := entryThunk
  isAssociative := false
  assocChildren := []
  live := true
  keepUnique := false
  p2Align := 0

/-- Two equal functions, chunks 0 and 1, with the entry thunks at the start of chunks 2 and 3. -/
def thunkPair (thunkCharacteristics : Nat) (code : UInt8) : Program where
  doICF := .all
  machineIsI386 := false
  chunk := fun c =>
    if c < 2 then leafChunk 0x60001020 0xc3 (some c)
    else if c = 2 then leafChunk thunkCharacteristics 0xc3 none
    else leafChunk thunkCharacteristics code none
  definedRegular := fun s => some ⟨s + 2, 0⟩
  driverChunks := [0, 1, 2, 3]
  mergeSections := []
  xxh3_64bits := fun bytes => bytes.length
  distinct := by decide
  few := by decide

/-- Equal thunks in COMDAT sections are folded, and so are the functions. -/
theorem comdat_thunks_folded : ∃ m, run (thunkPair 0x60001020 0xc3) 5 = some m ∧
    FoldedTogether m 0 1 ∧ Interchangeable (thunkPair 0x60001020 0xc3) m 0 1 := by
  obtain ⟨returns, -, folds⟩ := icf_folds_interchangeable_iff (thunkPair 0x60001020 0xc3)
  obtain ⟨m, returned⟩ := returns 5 (by decide)
  have heads : (run (thunkPair 0x60001020 0xc3) 5).map (fun m => (m.repl 0, m.repl 1)) =
      some (0, 0) := by decide +kernel
  rw [returned, Option.map_some, Option.some.injEq, Prod.mk.injEq] at heads
  have together : FoldedTogether m 0 1 := heads.1.trans heads.2.symm
  refine ⟨m, returned, together, (folds 5 m returned 0 1 together).mpr ⟨?_, ?_, ?_⟩⟩
  · intro r1 r2 pair
    cases pair
  -- the thunks are COMDAT sections, so they are collected and not confused
  · rintro e1 left e2 - ⟨-, d, e, first, -, -, outside, -⟩
    obtain rfl : 0 = e1 := Option.some.inj left
    obtain rfl : (⟨2, 0⟩ : DefinedRegular) = d := Option.some.inj first
    exact outside (by decide)
  · intro c1 c2 pair
    cases pair

/-- Different thunks in sections that are no COMDATs are not folded, and the functions are. -/
theorem ordinary_thunks_confused : ∃ m, run (thunkPair 0x60000020 0xcc) 5 = some m ∧
    FoldedTogether m 0 1 ∧ ¬ Interchangeable (thunkPair 0x60000020 0xcc) m 0 1 := by
  have heads : (run (thunkPair 0x60000020 0xcc) 5).map
      (fun m => (m.repl 0, m.repl 1, m.repl 2, m.repl 3)) = some (0, 0, 2, 3) := by decide +kernel
  obtain ⟨m, returned, heads⟩ := Option.map_eq_some_iff.mp heads
  simp only [Prod.mk.injEq] at heads
  obtain ⟨first, second, third, fourth⟩ := heads
  refine ⟨m, returned, first.trans second.symm, ?_⟩
  intro alike
  -- the two thunks are different symbols of chunks that stay apart
  rcases (alike.entryThunks : SymbolsFolded _ m 0 1) with same | ⟨d, e, left, right, together⟩
  · exact absurd same (by decide)
  · obtain rfl : (⟨2, 0⟩ : DefinedRegular) = d := Option.some.inj left
    obtain rfl : (⟨3, 0⟩ : DefinedRegular) = e := Option.some.inj right
    rw [FoldedTogether, third, fourth] at together
    exact absurd together (by decide)

end LlvmLd.Icf
