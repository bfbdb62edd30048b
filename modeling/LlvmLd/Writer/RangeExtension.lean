import LlvmLd.Writer.FinalBaserels

/-!
What the passes of `finalizeAddresses` do to the chunks of an image: which thunks they insert, what
they redirect, and what stays of the chunks that were there.
-/

namespace LlvmLd.Writer

/-! ### The reach of a branch -/

/-- The width of the signed displacement of a branch. -/
def branchBits (machine : Machine) (type : Nat) : Option Nat :=
  if machine = .armnt then
    if type = relArmBranch20T then some 21
    else if type = relArmBranch24T ∨ type = relArmBlx23T then some 25
    else none
  else if machine.isAnyArm64 then
    if type = relArm64Branch26 then some 28
    else if type = relArm64Branch19 then some 21
    else if type = relArm64Branch14 then some 16
    else none
  else none

/-- The address that displacements count from. -/
def branchBase (machine : Machine) (p : Nat) : Nat := if machine = .armnt then p + 4 else p

def BranchInRange (machine : Machine) (type s p : Nat) : Prop :=
  ∀ bits, branchBits machine type = some bits →
    isInt bits (toInt64 (s + 2 ^ 64 - branchBase machine p)) = true

/-- The check by distance covers both directions of the displacement. -/
theorem isInt_of_distance (bits s p : Nat) (low : p < 2 ^ 63)
    (near : isInt bits (toInt64 (absoluteDifference s p)) = true) :
    isInt bits (toInt64 (s + 2 ^ 64 - p)) = true := by
  simp only [absoluteDifference] at near
  -- backwards, the displacement is the negative distance; the range has room for both
  by_cases below : s < p
  · rw [if_pos below] at near
    have distance : toInt64 (p - s) = ((p - s : Nat) : Int) := by
      simp only [toInt64]
      omega
    have displacement : toInt64 (s + 2 ^ 64 - p) = -((p - s : Nat) : Int) := by
      simp only [toInt64]
      omega
    rw [distance] at near
    rw [displacement]
    simp only [isInt, decide_eq_true_eq] at near ⊢
    omega
  · rw [if_neg below] at near
    have same : s + 2 ^ 64 - p = (s - p) + 2 ^ 64 := by omega
    have displacement : toInt64 (s + 2 ^ 64 - p) = toInt64 (s - p) := by
      simp only [toInt64, same, Nat.add_mod_right]
    rw [displacement]
    exact near

theorem branchInRange_of_isInRange (machine : Machine) (type s p : Nat) (low : p < 2 ^ 32)
    (near : isInRange type s p 0 machine = true) : BranchInRange machine type s p := by
  intro bits width
  have base : branchBase machine p % 2 ^ 64 = branchBase machine p := by
    simp only [branchBase]
    split <;> omega
  apply isInt_of_distance
  · simp only [branchBase]
    split <;> omega
  -- by the machine and the branch type, each with its own number of bits
  · cases machine <;>
      simp only [isInRange, branchBits, branchBase, Machine.isAnyArm64, Nat.add_zero, reduceCtorEq,
        if_true, if_false, Bool.false_eq_true] at near width base ⊢
    case armnt =>
      rw [base] at near
      split_ifs at near width with short long
      · cases width
        exact near
      · cases width
        exact near
    all_goals
      split_ifs at near width with far middle near'
      all_goals
        cases width
        exact near

/-! ### One chunk and its thunks -/

/-- A relocation of the object file and what a pass that sees addresses through `lookup` makes of
it: a thunk is for an address, whichever symbol it was made for. -/
def Redirected (lookup : Target → Nat) (thunks : List Chunk) (rel after : Relocation) : Prop :=
  after.virtualAddress = rel.virtualAddress ∧ after.type = rel.type ∧
    (after.target = rel.target ∨ ∃ thunk ∈ thunks, ∃ machine target,
      after.target = .chunk thunk.key 0 ∧ thunk.body = .rangeThunk machine target ∧
        lookup target = lookup rel.target)

theorem Redirected.mono {lookup : Target → Nat} {thunks more : List Chunk}
    {rel after : Relocation} (redirected : Redirected lookup thunks rel after)
    (sub : thunks ⊆ more) : Redirected lookup more rel after := by
  obtain ⟨address, type, kept | ⟨thunk, member, rest⟩⟩ := redirected
  · exact ⟨address, type, .inl kept⟩
  · exact ⟨address, type, .inr ⟨thunk, sub member, rest⟩⟩

theorem Redirected.kept (lookup : Target → Nat) (thunks : List Chunk) (rel : Relocation) :
    Redirected lookup thunks rel rel := ⟨rfl, rfl, .inl rfl⟩

/-- Every remembered thunk is in the list and jumps to the address it is remembered for. -/
def Cached (lookup : Target → Nat) (thunks : List Chunk) (st : ThunkState) : Prop :=
  ∀ s thunk, (s, thunk) ∈ st.lastThunks → thunk ∈ thunks ∧
    ∃ machine target, thunk.body = .rangeThunk machine target ∧ lookup target = s

theorem Cached.mono {lookup : Target → Nat} {thunks more : List Chunk} {st : ThunkState}
    (cached : Cached lookup thunks st) (sub : thunks ⊆ more) : Cached lookup more st := by
  intro s thunk entry
  obtain ⟨member, jumps⟩ := cached s thunk entry
  exact ⟨sub member, jumps⟩

theorem Cached.remember {lookup : Target → Nat} {thunks : List Chunk} {st : ThunkState}
    (cached : Cached lookup thunks st) {machine : Machine} {target : Target} {key address : Nat} :
    Cached lookup (rangeThunk machine target key address :: thunks)
      (st.remember (lookup target) (rangeThunk machine target key address)) := by
  intro s thunk entry
  rcases List.mem_cons.mp entry with same | earlier
  · cases same
    exact ⟨List.mem_cons_self, machine, target, rfl, rfl⟩
  · obtain ⟨member, jumps⟩ := cached s thunk earlier
    exact ⟨List.mem_cons_of_mem _ member, jumps⟩

theorem mem_of_lookup {α β : Type*} [BEq α] [LawfulBEq α] {key : α} {value : β}
    {entries : List (α × β)} (found : entries.lookup key = some value) :
    (key, value) ∈ entries := by
  obtain ⟨before, after, cut, -⟩ := List.lookup_eq_some_iff.mp found
  rw [cut]
  exact List.mem_append_right _ List.mem_cons_self

/-- What `redirectRelocs` returns for relocations, from a cache over the thunks known so far. -/
structure RedirectSpec (lookup : Target → Nat) (known : List Chunk) (st : ThunkState)
    (rels : List Relocation) (result : List Relocation × List Chunk × ThunkState) : Prop where
  relocs : List.Forall₂ (Redirected lookup (known ++ result.2.1)) rels result.1
  cached : Cached lookup (known ++ result.2.1) result.2.2
  thunks : ∀ c ∈ result.2.1, c.isRangeThunk = true
  keys : result.2.1.map Chunk.key = List.range' st.nextKey result.2.1.length
  nextKey : result.2.2.nextKey = st.nextKey + result.2.1.length

private theorem redirectRelocs_spec (lookup : Target → Nat) (margin : Nat) (machine : Machine)
    (rva : Nat) (insertion : Nat) (known : List Chunk) (st : ThunkState)
    (cached : Cached lookup known st) (rels : List Relocation) : RedirectSpec lookup known st rels
      (redirectRelocs lookup margin machine rva insertion st rels) := by
  induction rels generalizing insertion known st with
  | nil =>
    refine ⟨.nil, ?_, by simp [redirectRelocs], rfl, rfl⟩
    simpa [redirectRelocs] using cached
  | cons rel rest ih =>
    rw [redirectRelocs]
    dsimp only
    by_cases keeps : rel.target = .missing ∨ isInRange rel.type (lookup rel.target)
        (uint32 (rva + rel.virtualAddress) + st.thunksSize) margin machine
    -- in range: the relocation is kept
    · rw [if_pos keeps]
      have tail := ih insertion known st cached
      exact ⟨.cons (.kept _ _ rel) tail.relocs, tail.cached, tail.thunks, tail.keys, tail.nextKey⟩
    · rw [if_neg keeps]
      split
      -- out of range, with a cached thunk in range
      case h_1 thunk reused =>
        have tail := ih insertion known st cached
        obtain ⟨entry, -⟩ := Option.filter_eq_some_iff.mp reused
        obtain ⟨member, jumps, target, body, at_address⟩ :=
          cached _ _ (mem_of_lookup entry)
        refine ⟨.cons ⟨rfl, rfl, .inr ?_⟩ tail.relocs, tail.cached, tail.thunks, tail.keys,
          tail.nextKey⟩
        exact ⟨thunk, List.mem_append_left _ member, jumps, target, rfl, body, at_address⟩
      -- out of range without one: a new thunk joins the known ones and the cache
      case h_2 =>
        generalize fresh : rangeThunk machine rel.target st.nextKey insertion = thunk
        have remembered : Cached lookup (known ++ [thunk])
            (st.remember (lookup rel.target) thunk) := by
          rw [← fresh]
          exact cached.remember.mono (by simp)
        have tail := ih (insertion + thunk.getSize) (known ++ [thunk]) _ remembered
        have split_list : ∀ later : List Chunk, known ++ [thunk] ++ later =
            known ++ thunk :: later := by simp
        have key : thunk.key = st.nextKey := by rw [← fresh]; rfl
        have body : thunk.body = .rangeThunk machine rel.target := by rw [← fresh]; rfl
        refine ⟨.cons ⟨rfl, rfl, .inr ?_⟩ ?_, ?_, ?_, ?_, ?_⟩
        · exact ⟨thunk, by simp, machine, rel.target, rfl, body, rfl⟩
        · have relocs := tail.relocs
          rw [split_list] at relocs
          exact relocs
        · have later := tail.cached
          rw [split_list] at later
          exact later
        · intro c member
          rcases List.mem_cons.mp member with rfl | later
          · simp [Chunk.isRangeThunk, body]
          · exact tail.thunks c later
        · simp only [List.map_cons, List.length_cons, List.range'_succ, key, tail.keys]
          rfl
        · refine tail.nextKey.trans ?_
          rw [List.length_cons]
          exact Nat.add_right_comm _ _ _

/-! ### The chunks of a section -/

/-- A chunk without what passes change: its address, its redirected relocations, the choice of a
longer import thunk, and the size of the code map. -/
def ChunkBody.original : ChunkBody → ChunkBody
  | .input chunk => .input { chunk with relocs := chunk.originalRelocs, same_baserels := rfl }
  | .importThunkARM64EC _ helper => .importThunkARM64EC false helper
  | .codeMap _ => .codeMap 0
  | body => body

def Chunk.original (c : Chunk) : Chunk := { c with body := c.body.original, rva := 0 }

/-- The chunks that are no range extension thunks, in order. -/
def inputs (chunks : List Chunk) : List Chunk :=
  (chunks.filter (fun c => !c.isRangeThunk)).map Chunk.original

private theorem inputs_append (left right : List Chunk) :
    inputs (left ++ right) = inputs left ++ inputs right := by
  simp only [inputs, List.filter_append, List.map_append]

private theorem inputs_cons (c : Chunk) (rest : List Chunk) (plain : c.isRangeThunk = false) :
    inputs (c :: rest) = c.original :: inputs rest := by
  simp only [inputs, List.filter_cons, plain, Bool.not_false, if_true, List.map_cons]

private theorem inputs_thunks {thunks : List Chunk} (all : ∀ c ∈ thunks, c.isRangeThunk = true) :
    inputs thunks = [] := by
  rw [inputs, List.filter_eq_nil_iff.mpr]
  · rfl
  · intro c member
    simp [all c member]

/-- The chunk's relocations are those of its object, redirected to thunks of the list. -/
def RelocsRedirected (lookup : Target → Nat) (thunks : List Chunk) (c : Chunk) : Prop :=
  ∀ chunk, c.body = .input chunk →
    List.Forall₂ (Redirected lookup thunks) chunk.originalRelocs chunk.relocs

theorem RelocsRedirected.mono {lookup : Target → Nat} {thunks more : List Chunk} {c : Chunk}
    (redirected : RelocsRedirected lookup thunks c) (sub : thunks ⊆ more) :
    RelocsRedirected lookup more c := by
  intro chunk body
  exact (redirected chunk body).imp (fun _ _ h => h.mono sub)

private theorem relocsRedirected_of_thunk {lookup : Target → Nat} {thunks : List Chunk} {c : Chunk}
    (is_thunk : c.isRangeThunk = true) : RelocsRedirected lookup thunks c := by
  intro chunk body
  rw [Chunk.isRangeThunk, body] at is_thunk
  cases is_thunk

/-- What one round of the loop leaves in place of a chunk. Keys below `bound` are taken. -/
structure ThunkSpec (lookup : Target → Nat) (known : List Chunk) (bound : Nat) (st : ThunkState)
    (before : List Chunk) (result : List Chunk × ThunkState) : Prop where
  kept : inputs result.1 = inputs before
  relocs : ∀ c ∈ result.1, RelocsRedirected lookup (known ++ result.1) c
  cached : Cached lookup (known ++ result.1) result.2
  mono : st.nextKey ≤ result.2.nextKey
  fresh : (result.1.filter (fun c => bound ≤ c.key)).map Chunk.key =
    List.range' st.nextKey (result.2.nextKey - st.nextKey)
  plain : ∀ c ∈ result.1, c.key < bound → c.isRangeThunk = false

private theorem thunkChunk_unchanged {lookup : Target → Nat} {known : List Chunk} {bound : Nat}
    {st later : ThunkState} {c after : Chunk} (cached : Cached lookup known st)
    (cache : later.lastThunks = st.lastThunks) (next : later.nextKey = st.nextKey)
    (low : c.key < bound) (plain : c.isRangeThunk = false) (same : after.original = c.original)
    (after_plain : after.isRangeThunk = false) (no_input : ∀ chunk, after.body ≠ .input chunk) :
    ThunkSpec lookup known bound st [c] ([after], later) := by
  have key : after.original.key = c.original.key := congrArg Chunk.key same
  refine ⟨?_, ?_, ?_, Nat.le_of_eq next.symm, ?_, ?_⟩
  · rw [inputs_cons _ _ after_plain, inputs_cons _ _ plain, same]
  · intro x member chunk body
    rw [List.mem_singleton.mp member] at body
    exact absurd body (no_input chunk)
  · intro s thunk entry
    rw [cache] at entry
    exact cached.mono (List.subset_append_left _ _) s thunk entry
  -- the key is one of the original chunk's fields, so it is not a new one
  · have same_key : after.key = c.key := key
    have not_fresh : ¬bound ≤ after.key := by omega
    simp [not_fresh, next]
  · intro x member _
    rw [List.mem_singleton.mp member]
    exact after_plain

private theorem thunkChunk_redirected {lookup : Target → Nat} {known : List Chunk} {bound : Nat}
    {st : ThunkState} {c : Chunk} {chunk after : SectionChunk} (body : c.body = .input chunk)
    (low : c.key < bound) (above : bound ≤ st.nextKey)
    {result : List Relocation × List Chunk × ThunkState}
    (spec : RedirectSpec lookup known st chunk.originalRelocs result)
    (same : ChunkBody.original (.input after) = ChunkBody.original (.input chunk))
    (object : after.originalRelocs = chunk.originalRelocs) (relocs : after.relocs = result.1) :
    ThunkSpec lookup known bound st [c]
      ({ c with body := .input after } :: result.2.1, result.2.2) := by
  have plain : c.isRangeThunk = false := by simp [Chunk.isRangeThunk, body]
  -- New thunks have fresh keys, so by its key a chunk is known to be old or new.
  have thunk_keys : ∀ x ∈ result.2.1, bound ≤ x.key := by
    intro x member
    have listed := List.mem_map_of_mem (f := Chunk.key) member
    rw [spec.keys, List.mem_range'_1] at listed
    omega
  have sub : known ++ result.2.1 ⊆ known ++ { c with body := .input after } :: result.2.1 :=
    List.append_subset.mpr ⟨List.subset_append_left _ _,
      List.Subset.trans (List.subset_cons_self _ _) (List.subset_append_right _ _)⟩
  refine ⟨?_, ?_, spec.cached.mono sub, ?_, ?_, ?_⟩
  · rw [inputs_cons _ _ rfl, inputs_cons _ _ plain, inputs_thunks spec.thunks]
    simp only [Chunk.original, same, body]
    rfl
  · intro x member
    rcases List.mem_cons.mp member with rfl | inserted
    · intro other is_after
      cases is_after
      rw [object, relocs]
      exact spec.relocs.imp (fun _ _ h => h.mono sub)
    · exact relocsRedirected_of_thunk (spec.thunks x inserted)
  · rw [spec.nextKey]
    omega
  · have all : result.2.1.filter (fun x => decide (bound ≤ x.key)) = result.2.1 :=
      List.filter_eq_self.mpr (fun x member => by simpa using thunk_keys x member)
    have not_fresh : ¬bound ≤ c.key := by omega
    rw [List.filter_cons_of_neg (by simpa using not_fresh), all, spec.keys, spec.nextKey,
      Nat.add_sub_cancel_left]
  · intro x member below
    rcases List.mem_cons.mp member with rfl | inserted
    · rfl
    · have := thunk_keys x inserted
      omega

private theorem thunkChunk_spec (lookup : Target → Nat) (margin : Nat) (known : List Chunk)
    (bound : Nat) (c : Chunk) (st : ThunkState) (cached : Cached lookup known st)
    (low : c.key < bound) (above : bound ≤ st.nextKey) (plain : c.isRangeThunk = false) :
    ThunkSpec lookup known bound st [c] (thunkChunk lookup margin c st) := by
  simp only [thunkChunk]
  split
  case h_1 chunk body =>
    have spec := redirectRelocs_spec lookup margin chunk.machine c.rva
      (c.rva + chunk.size + st.thunksSize) known st cached chunk.originalRelocs
    exact thunkChunk_redirected body low above spec rfl rfl rfl
  case h_2 extended helper body =>
    split
    · exact thunkChunk_unchanged cached rfl rfl low plain rfl plain (by simp [body])
    · have same : ChunkBody.original (.importThunkARM64EC true helper) = c.body.original := by
        rw [body]
        rfl
      exact thunkChunk_unchanged cached rfl rfl low plain (by rw [Chunk.original, same]; rfl) rfl
        (by simp)
  case h_3 not_input _ =>
    exact thunkChunk_unchanged cached rfl rfl low plain rfl plain not_input

/-- The loop over the chunks, from what one round does. -/
theorem thunkChunks_spec (lookup : Target → Nat) (margin : Nat) (known : List Chunk) (bound : Nat)
    (chunks : List Chunk) (st : ThunkState) (cached : Cached lookup known st)
    (low : ∀ c ∈ chunks, c.key < bound) (above : bound ≤ st.nextKey)
    (plain : ∀ c ∈ chunks, c.isRangeThunk = false) :
    ThunkSpec lookup known bound st chunks (thunkChunks lookup margin chunks st) := by
  induction chunks generalizing known st with
  | nil =>
    refine ⟨rfl, by simp [thunkChunks], ?_, Nat.le_refl _, by simp [thunkChunks], by
      simp [thunkChunks]⟩
    simpa [thunkChunks] using cached
  | cons c rest ih =>
    have first := thunkChunk_spec lookup margin known bound c st cached
      (low c List.mem_cons_self) above (plain c List.mem_cons_self)
    rw [thunkChunks]
    generalize thunkChunk lookup margin c st = one at first
    obtain ⟨here, next⟩ := one
    -- The thunks of this round are known to the next ones, and its keys are all used up.
    have later := ih (known ++ here) next first.cached
      (fun x member => low x (List.mem_cons_of_mem c member)) (above.trans first.mono)
      (fun x member => plain x (List.mem_cons_of_mem c member))
    dsimp only
    generalize thunkChunks lookup margin rest next = others at later
    obtain ⟨there, last⟩ := others
    have joined : known ++ here ++ there = known ++ (here ++ there) := List.append_assoc ..
    refine ⟨?_, ?_, ?_, first.mono.trans later.mono, ?_, ?_⟩
    · rw [inputs_append, first.kept, later.kept, ← inputs_append]
      rfl
    · intro x member
      rcases List.mem_append.mp member with early | late
      · exact (first.relocs x early).mono (joined ▸ List.subset_append_left _ _)
      · exact joined ▸ later.relocs x late
    · exact joined ▸ later.cached
    · have low_mono : st.nextKey ≤ next.nextKey := first.mono
      have high_mono : next.nextKey ≤ last.nextKey := later.mono
      have start : next.nextKey = st.nextKey + 1 * (next.nextKey - st.nextKey) := by omega
      have total : next.nextKey - st.nextKey + (last.nextKey - next.nextKey) =
          last.nextKey - st.nextKey := by omega
      -- The keys of the later thunks begin where those of this round end.
      have adjacent : List.range' next.nextKey (last.nextKey - next.nextKey) =
          List.range' (st.nextKey + 1 * (next.nextKey - st.nextKey))
            (last.nextKey - next.nextKey) := by rw [← start]
      rw [List.filter_append, List.map_append, first.fresh, later.fresh]
      dsimp only
      rw [adjacent, List.range'_append, total]
    · intro x member below
      rcases List.mem_append.mp member with early | late
      · exact first.plain x early below
      · exact later.plain x late below

/-! ### The sections of an image -/

/-- A section after `createThunks`. -/
structure Extended (lookup : Target → Nat) (bound : Nat) (sec after : OutputSection) : Prop where
  isRelocSec : after.isRelocSec = sec.isRelocSec
  kept : inputs after.chunks = inputs sec.chunks
  relocs : ∀ c ∈ after.chunks, RelocsRedirected lookup after.chunks c
  plain : ∀ c ∈ after.chunks, c.key < bound → c.isRangeThunk = false

def allChunks (sections : List OutputSection) : List Chunk := sections.flatMap OutputSection.chunks

theorem mem_allChunks {sections : List OutputSection} {c : Chunk} :
    c ∈ allChunks sections ↔ ∃ sec ∈ sections, c ∈ sec.chunks := List.mem_flatMap

theorem createAllThunks_spec (lookup : Target → Nat) (margin nextKey bound : Nat)
    (sections : List OutputSection) (low : ∀ c ∈ allChunks sections, c.key < bound)
    (above : bound ≤ nextKey) (plain : ∀ c ∈ allChunks sections, c.isRangeThunk = false) :
    List.Forall₂ (Extended lookup bound) sections
        (createAllThunks lookup margin nextKey sections) ∧
      ∃ count, ((allChunks (createAllThunks lookup margin nextKey sections)).filter
        (fun c => bound ≤ c.key)).map Chunk.key = List.range' nextKey count := by
  induction sections generalizing nextKey with
  | nil => exact ⟨.nil, 0, rfl⟩
  | cons sec rest ih =>
    have here : ∀ c ∈ sec.chunks, c ∈ allChunks (sec :: rest) :=
      fun c member => mem_allChunks.mpr ⟨sec, List.mem_cons_self, member⟩
    have there : ∀ c ∈ allChunks rest, c ∈ allChunks (sec :: rest) := by
      intro c member
      obtain ⟨other, in_rest, inside⟩ := mem_allChunks.mp member
      exact mem_allChunks.mpr ⟨other, List.mem_cons_of_mem sec in_rest, inside⟩
    -- Each section starts with an empty cache, as thunks are not shared between sections.
    have empty : Cached lookup [] ⟨[], 0, nextKey, false⟩ := by
      intro s thunk entry
      cases entry
    have spec := thunkChunks_spec lookup margin [] bound sec.chunks ⟨[], 0, nextKey, false⟩ empty
      (fun c member => low c (here c member)) above (fun c member => plain c (here c member))
    rw [createAllThunks, createThunks]
    generalize thunkChunks lookup margin sec.chunks ⟨[], 0, nextKey, false⟩ = result at spec
    obtain ⟨chunks, st⟩ := result
    have mono : nextKey ≤ st.nextKey := spec.mono
    obtain ⟨related, count, keys⟩ := ih st.nextKey (fun c member => low c (there c member))
      (above.trans mono) (fun c member => plain c (there c member))
    refine ⟨.cons ⟨rfl, spec.kept, spec.relocs, spec.plain⟩ related,
      st.nextKey - nextKey + count, ?_⟩
    have start : st.nextKey = nextKey + 1 * (st.nextKey - nextKey) := by omega
    have adjacent : List.range' st.nextKey count =
        List.range' (nextKey + 1 * (st.nextKey - nextKey)) count := by rw [← start]
    rw [allChunks, List.flatMap_cons, List.filter_append, List.map_append, spec.fresh]
    rw [allChunks] at keys
    rw [keys, adjacent, List.range'_append]

/-- No two chunks share a key that was free before the thunks were made. -/
theorem fresh_unique {bound nextKey count : Nat} {chunks : List Chunk}
    (keys : (chunks.filter (fun c => bound ≤ c.key)).map Chunk.key = List.range' nextKey count)
    {c d : Chunk} (c_mem : c ∈ chunks) (d_mem : d ∈ chunks) (fresh : bound ≤ c.key)
    (same : c.key = d.key) : c = d := by
  have nodup : ((chunks.filter (fun c => bound ≤ c.key)).map Chunk.key).Nodup := by
    rw [keys]
    exact List.nodup_range'
  apply List.inj_on_of_nodup_map nodup _ _ same
  · exact List.mem_filter.mpr ⟨c_mem, by simpa using fresh⟩
  · exact List.mem_filter.mpr ⟨d_mem, by simpa [← same] using fresh⟩

/-- The same chunk, perhaps at another address or with another code map. -/
structure SameContents (c after : Chunk) : Prop where
  original : after.original = c.original
  is_thunk : after.isRangeThunk = c.isRangeThunk
  input : ∀ chunk, after.body = .input chunk ↔ c.body = .input chunk
  thunk : ∀ machine target, after.body = .rangeThunk machine target ↔
    c.body = .rangeThunk machine target

theorem SameContents.key {c after : Chunk} (same : SameContents c after) : after.key = c.key := by
  have key : after.original.key = c.original.key := congrArg Chunk.key same.original
  exact key

theorem SameContents.refl (c : Chunk) : SameContents c c :=
  ⟨rfl, rfl, fun _ => Iff.rfl, fun _ _ => Iff.rfl⟩

theorem SameContents.trans {a b c : Chunk} (first : SameContents a b)
    (second : SameContents b c) : SameContents a c where
  original := second.original.trans first.original
  is_thunk := second.is_thunk.trans first.is_thunk
  input chunk := (second.input chunk).trans (first.input chunk)
  thunk machine target := (second.thunk machine target).trans (first.thunk machine target)

private theorem sameContents_setRVA (c : Chunk) (address : Nat) : SameContents c
    (c.setRVA address) :=
  ⟨rfl, rfl, fun _ => Iff.rfl, fun _ _ => Iff.rfl⟩

private theorem sameContents_setCodeMapSize (entries : Nat) (c : Chunk) :
    SameContents c (c.setCodeMapSize entries) := by
  simp only [Chunk.setCodeMapSize]
  split
  · rename_i body
    refine ⟨?_, ?_, ?_, ?_⟩
    · simp only [Chunk.original, body, ChunkBody.original]
    · simp only [Chunk.isRangeThunk, body]
    · simp [body]
    · simp [body]
  · exact .refl c

private theorem sameContents_placeChunks (ctx : Context) (code : Bool) (rva : Nat) (cur : Cursor)
    (chunks : List Chunk) : List.Forall₂ SameContents chunks (placeChunks ctx code rva cur chunks) := by
  induction chunks generalizing cur with
  | nil => exact .nil
  | cons c rest ih => exact .cons (sameContents_setRVA c _) (ih _)

theorem inputs_sameContents {chunks later : List Chunk}
    (same : List.Forall₂ SameContents chunks later) : inputs later = inputs chunks := by
  induction same with
  | nil => rfl
  | @cons c after rest others first _ ih =>
    rw [inputs, inputs] at ih
    rw [inputs, inputs, List.filter_cons, List.filter_cons, first.is_thunk]
    split
    · rw [List.map_cons, List.map_cons, first.original, ih]
    · exact ih

/-- A chunk that `assignAddresses` itself makes. -/
structure Generated (c : Chunk) : Prop where
  key : c.key ≤ 1
  plain : c.isRangeThunk = false
  no_input : ∀ chunk, c.body ≠ .input chunk

/-- A section after `assignAddresses`: `.reloc` is made anew, others keep their chunks. -/
structure Settled (sec later : OutputSection) : Prop where
  isRelocSec : later.isRelocSec = sec.isRelocSec
  same : sec.isRelocSec = false → List.Forall₂ SameContents sec.chunks later.chunks
  generated : sec.isRelocSec = true → ∀ c ∈ later.chunks, Generated c

private theorem generated_baserelGroups (page : Nat) (group rest : List Baserel) :
    ∀ c ∈ baserelGroups page group rest, Generated c := by
  have made : ∀ page entries, Generated (baserelChunk page entries) :=
    fun page entries => ⟨Nat.zero_le 1, rfl, by simp [baserelChunk]⟩
  induction rest generalizing page group with
  | nil =>
    intro c member
    rw [baserelGroups, List.mem_singleton] at member
    exact member ▸ made page group
  | cons rel rest ih =>
    intro c member
    rw [baserelGroups] at member
    split at member
    · exact ih _ _ c member
    · rcases List.mem_cons.mp member with rfl | later
      · exact made page group
      · exact ih _ _ c later

private theorem generated_relocChunks (ctx : Context) (sections : List OutputSection) :
    ∀ c ∈ relocChunks ctx sections, Generated c := by
  intro c member
  rcases List.mem_append.mp member with collected | dynamic
  · split at collected
    · obtain ⟨sec, -, inSection⟩ := List.mem_flatMap.mp collected
      simp only [sectionBaserels, addBaserelBlocks] at inSection
      split at inSection
      · cases inSection
      · split at inSection
        · exact generated_baserelGroups _ _ _ c inSection
        · cases inSection
    · cases collected
  · cases size : ctx.dynamicRelocs with
    | none => simp [size] at dynamic
    | some finalize =>
      rw [size] at dynamic
      simp only [Option.map_some, Option.toList_some, List.mem_singleton] at dynamic
      rw [dynamic]
      exact ⟨Nat.le_refl 1, rfl, by simp [dynamicRelocsChunk]⟩

theorem Generated.same {c after : Chunk} (made : Generated c) (same : SameContents c after) :
    Generated after := by
  refine ⟨same.key ▸ made.key, same.is_thunk.trans made.plain, ?_⟩
  intro chunk body
  exact made.no_input chunk ((same.input chunk).mp body)

private theorem generated_placeChunks {ctx : Context} {code : Bool} {rva : Nat} {cur : Cursor}
    {chunks : List Chunk} (made : ∀ c ∈ chunks, Generated c) :
    ∀ c ∈ placeChunks ctx code rva cur chunks, Generated c := by
  induction chunks generalizing cur with
  | nil => simp [placeChunks]
  | cons c rest ih =>
    intro x member
    rcases List.mem_cons.mp member with rfl | later
    · exact (made c List.mem_cons_self).same (sameContents_setRVA c _)
    · exact ih (fun y inside => made y (List.mem_cons_of_mem c inside)) x later

private theorem settled_assignSections (ctx : Context) (headers : Nat) (done : List OutputSection)
    (rva fileSize : Nat) (errors : List String) (rest : List OutputSection) :
    ∃ laid, (assignSections ctx headers done rva fileSize errors rest).sections = done ++ laid ∧
      List.Forall₂ Settled rest laid := by
  induction rest generalizing done rva fileSize errors with
  | nil => exact ⟨[], by simp [assignSections], .nil⟩
  | cons sec rest ih =>
    rw [assignSections]
    obtain ⟨laid, sections, settled⟩ := ih _ _ _ _
    refine ⟨placeSection ctx rva fileSize (populate ctx done sec rest) :: laid, ?_,
      .cons ⟨?_, ?_, ?_⟩ settled⟩
    · rw [sections, List.append_assoc, List.singleton_append]
    · exact (laterState_populate ctx done sec rest).isRelocSec
    · intro not_reloc
      have untouched : populate ctx done sec rest = sec := by simp [populate, not_reloc]
      rw [untouched]
      exact sameContents_placeChunks ctx _ _ _ _
    · intro is_reloc
      apply generated_placeChunks
      simp only [populate, is_reloc, if_true]
      exact generated_relocChunks ctx _

private theorem settled_map (f : Chunk → Chunk) (same : ∀ c, SameContents c (f c))
    {sec later : OutputSection} (settled : Settled { sec with chunks := sec.chunks.map f } later) :
    Settled sec later := by
  have mapped : ∀ chunks : List Chunk, List.Forall₂ SameContents chunks (chunks.map f) := by
    intro chunks
    induction chunks with
    | nil => exact .nil
    | cons c rest ih => exact .cons (same c) ih
  refine ⟨settled.isRelocSec, ?_, settled.generated⟩
  intro not_reloc
  -- to have the same contents is transitive along the list
  have chain : ∀ {a b c : List Chunk}, List.Forall₂ SameContents a b →
      List.Forall₂ SameContents b c → List.Forall₂ SameContents a c := by
    intro a b c first second
    induction first generalizing c with
    | nil =>
      cases second
      exact .nil
    | cons head tail ih =>
      cases second with
      | cons head' tail' => exact .cons (head.trans head') (ih tail')
  exact chain (mapped sec.chunks) (settled.same not_reloc)

theorem settled_assignAddresses (ctx : Context) (sections : List OutputSection) :
    List.Forall₂ Settled sections (assignAddresses ctx sections).sections := by
  unfold assignAddresses
  obtain ⟨laid, same, settled⟩ := settled_assignSections ctx
    (headerSize ctx (createECCodeMap ctx sections).length) []
    (alignTo (headerSize ctx (createECCodeMap ctx sections).length) ctx.align)
    (headerSize ctx (createECCodeMap ctx sections).length) [] (createECCodeMap ctx sections)
  dsimp only
  rw [same, List.nil_append]
  simp only [createECCodeMap] at settled
  split at settled
  · rw [List.forall₂_map_left_iff] at settled
    exact settled.imp (fun _ _ h => settled_map _ (sameContents_setCodeMapSize _) h)
  · exact settled

/-! ### One pass -/

/-- The chunks that a pass starts from. -/
def passSections (pass : Nat) (out : Layout) : List OutputSection :=
  if 0 < pass then resetChunks out.sections else out.sections

def passMargin (pass margin : Nat) : Nat := if 0 < pass then margin * 2 else margin

def thunkedSections (ctx : Context) (pass margin : Nat) (out : Layout) : List OutputSection :=
  createAllThunks (Target.getRVA ctx (passSections pass out)) (passMargin pass margin)
    (freshKey (passSections pass out)) (passSections pass out)

/-- The layout after one more pass. -/
def nextLayout (ctx : Context) (pass margin : Nat) (out : Layout) : Layout :=
  assignAddresses ctx (thunkedSections ctx pass margin out)

theorem extendRanges_succ (ctx : Context) (fuel pass margin : Nat) (out : Layout) :
    extendRanges ctx (fuel + 1) pass margin out =
      if verifyRanges ctx out.sections then .ok out
      else if 10 ≤ pass then .error s!"adding thunks hasn't converged after {pass} passes"
      else extendRanges ctx fuel (pass + 1) (passMargin pass margin)
        (nextLayout ctx pass margin out) := rfl

/-- How often a run of the loop checks the ranges. -/
def verifications (ctx : Context) : Nat → Nat → Nat → Layout → Nat
  | 0, _, _, _ => 0
  | fuel + 1, pass, margin, out =>
      if verifyRanges ctx out.sections then 1
      else if 10 ≤ pass then 1
      else 1 + verifications ctx fuel (pass + 1) (passMargin pass margin)
        (nextLayout ctx pass margin out)

theorem verifications_le (ctx : Context) (fuel pass margin : Nat) (out : Layout)
    (in_time : pass ≤ 10) : verifications ctx fuel pass margin out ≤ 11 - pass := by
  induction fuel generalizing pass margin out with
  | zero => exact Nat.zero_le _
  | succ fuel ih =>
    rw [verifications]
    split
    · omega
    · split
      · omega
      · have later := ih (pass + 1) (passMargin pass margin) (nextLayout ctx pass margin out)
          (by omega)
        omega

/-- More steps than the loop needs change nothing. -/
theorem extendRanges_more (ctx : Context) (fuel more pass margin : Nat) (out : Layout)
    (enough : 10 ≤ fuel + pass) :
    extendRanges ctx (fuel + 1 + more) pass margin out =
      extendRanges ctx (fuel + 1) pass margin out := by
  induction fuel generalizing pass margin out with
  | zero =>
    have last : 10 ≤ pass := by omega
    rw [Nat.add_right_comm, extendRanges_succ, extendRanges_succ, if_pos last, if_pos last]
  | succ fuel ih =>
    rw [Nat.add_right_comm, extendRanges_succ, extendRanges_succ]
    by_cases done : verifyRanges ctx out.sections = true
    · rw [if_pos done, if_pos done]
    · rw [if_neg done, if_neg done]
      split
      · rfl
      · exact ih (pass + 1) (passMargin pass margin) (nextLayout ctx pass margin out) (by omega)

end LlvmLd.Writer
