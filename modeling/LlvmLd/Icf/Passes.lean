import LlvmLd.Icf.Run

/-!
What one pass of `ICF::run` leaves: the classes of the collected chunks are the ends of their
groups, those of all other chunks are what they were at the start, and the groups are those of the
pass before, split.
-/

namespace LlvmLd.Icf

open Refinement

variable {p : Program}

/-! ### The classes that a pass visits -/

private theorem boundaries_cut (s : State) (large : 1024 ≤ s.chunks.length) (i : Nat)
    (bound : i ≤ numShards) :
    Runs.Cut s.classAt s.chunks.length (boundaries s i) := by
  unfold boundaries numShards at *
  split_ifs with first last
  · exact ⟨Nat.zero_le _, fun positive => absurd positive (Nat.lt_irrefl 0)⟩
  · exact ⟨Nat.le_refl _, fun _ short => absurd short (Nat.lt_irrefl _)⟩
  · apply Runs.boundary_cut
    have shorter : (i - 1) * (s.chunks.length / 256) ≤ 254 * (s.chunks.length / 256) :=
      Nat.mul_le_mul_right _ (by omega)
    omega

private theorem boundaries_ordered (s : State) (large : 1024 ≤ s.chunks.length) (i : Nat)
    (bound : i < numShards) : boundaries s i ≤ boundaries s (i + 1) := by
  -- the first cut is zero and the last one the length, which every other cut keeps below
  by_cases first : i = 0
  · simp [boundaries, first]
  · by_cases last : i + 1 = numShards
    · have whole : boundaries s (i + 1) = s.chunks.length := by simp [boundaries, last, numShards]
      rw [whole]
      exact (boundaries_cut s large i (by omega)).1
    · simp only [numShards] at bound last
      have here : i ≠ 256 := by omega
      have shorter : i * (s.chunks.length / 256) ≤ 254 * (s.chunks.length / 256) :=
        Nat.mul_le_mul_right _ (by omega)
      simp only [boundaries, numShards, first, here, last, if_false, Nat.add_sub_cancel,
        Nat.succ_ne_zero]
      apply Runs.boundary_mono
      · exact Nat.mul_le_mul_right _ (by omega)
      · omega

/-- The shards visit the classes that one scan visits, each once, in the same order. -/
theorem forEachClass_eq_sequential (s : State) :
    forEachClass s = forEachClassRange s 0 s.chunks.length := by
  by_cases small : s.chunks.length < 1024
  · simp [forEachClass, small]
  · have large : 1024 ≤ s.chunks.length := by omega
    have sharded := Runs.runs_sharded s.chunks.length (boundaries s) numShards
      (by simp [boundaries]) (boundaries_cut s large) (boundaries_ordered s large)
    have whole : boundaries s numShards = s.chunks.length := by simp [boundaries, numShards]
    rw [whole] at sharded
    rw [forEachClass, if_neg small, forEachClassRange, ← sharded]
    congr 1
    funext i
    -- an empty shard is skipped, and would visit nothing
    split_ifs with some
    · rfl
    · rw [Runs.runs_empty _ _ (by omega)]

/-- The classes as lists of chunks. -/
def groupsOf (s : State) : Groups ChunkId := cutOut s.chunks (forEachClass s)

private theorem groupsOf_placed (s : State) : Placed 0 (groupsOf s) := by
  rw [groupsOf, forEachClass_eq_sequential]
  exact (cutOut_runs s.classAt s.chunks 0 _ (Nat.le_refl _) (Nat.zero_le _)).1

private theorem members_groupsOf (s : State) : members (groupsOf s) = s.chunks := by
  rw [groupsOf, forEachClass_eq_sequential, forEachClassRange,
    (cutOut_runs s.classAt s.chunks 0 _ (Nat.le_refl _) (Nat.zero_le _)).2]
  simp [slice]

private theorem segregate_group (s : State) (constant : Bool) (r : Nat × Nat)
    (member : r ∈ forEachClass s) :
    segregate p s constant r.1 r.2 =
      split (equals p s constant) (r.2 - (slice s.chunks r.1 r.2).length)
        (slice s.chunks r.1 r.2) := by
  rw [forEachClass_eq_sequential] at member
  obtain ⟨-, ordered, inside⟩ := Runs.runs_bounds _ _ r member
  have begins : r.2 - (r.2 - r.1) = r.1 := by omega
  rw [Refinement.length_slice _ _ _ inside, begins, segregate]

private theorem pass_groups (s : State) (constant : Bool) :
    (forEachClass s).flatMap (fun r => segregate p s constant r.1 r.2) =
      refine (equals p s constant) (groupsOf s) := by
  rw [refine, groupsOf, cutOut, List.flatMap_map]
  simp only [List.flatMap_def]
  congr 1
  exact List.map_congr_left (fun r member => segregate_group s constant r member)

private theorem pass_again (s : State) (constant : Bool) :
    (pass p constant s).again = splits (equals p s constant) (groupsOf s) := by
  simp only [pass, splits, groupsOf, cutOut, List.any_map]
  rw [Bool.eq_iff_iff, List.any_eq_true, List.any_eq_true]
  simp only [Function.comp_apply]
  constructor
  · rintro ⟨r, member, more⟩
    rw [segregate_group s constant r member] at more
    exact ⟨r, member, more⟩
  · rintro ⟨r, member, more⟩
    rw [← segregate_group s constant r member] at more
    exact ⟨r, member, more⟩

/-! ### The classes that a pass writes -/

private theorem writeClass_outside (gs : Groups ChunkId) (cls : ChunkId → Nat) (c : ChunkId)
    (outside : c ∉ members gs) : writeClass gs cls c = cls c := by
  induction gs generalizing cls with
  | nil => rfl
  | cons g gs ih =>
    obtain ⟨mid, group⟩ := g
    simp only [members_cons, List.mem_append, not_or] at outside
    simp only [writeClass]
    rw [ih _ outside.2, if_neg outside.1]

private theorem writeClass_inside (gs : Groups ChunkId) (cls : ChunkId → Nat)
    (distinct : (members gs).Nodup) (g : Nat × List ChunkId) (member : g ∈ gs) (c : ChunkId)
    (inside : c ∈ g.2) : writeClass gs cls c = g.1 % 2 ^ 32 := by
  induction gs generalizing cls with
  | nil => cases member
  | cons g' gs ih =>
    obtain ⟨mid, group⟩ := g'
    rw [members_cons, List.nodup_append] at distinct
    simp only [writeClass]
    rcases List.mem_cons.mp member with rfl | later
    · have outside : c ∉ members gs := fun again => distinct.2.2 c inside c again rfl
      rw [writeClass_outside gs _ c outside, if_pos inside]
    · exact ih _ distinct.2.1 later

/-- The chunks to fold are there, and no other chunk has got a new class. -/
structure Ready (p : Program) (s : State) : Prop where
  chunks : s.chunks.Perm p.collected
  others : ∀ i, ∀ c ∉ p.collected, s.eqClass i c = initialClass p i c

/-- The current class of a collected chunk is the end of its group. -/
structure Marked (s : State) (gs : Groups ChunkId) : Prop where
  placed : Placed 0 gs
  chunks : s.chunks = members gs
  mark : ∀ g ∈ gs, ∀ c ∈ g.2, s.current c = g.1

private theorem collected_nodup (p : Program) : p.collected.Nodup :=
  (List.nodup_append.mp p.distinct).1.filter _

private theorem length_collected (p : Program) : p.collected.length < 2 ^ 31 := by
  have filtered := List.length_filter_le (isEligible p) p.driverChunks
  have few := p.few
  rw [List.length_append] at few
  simp only [Program.collected]
  omega

variable {s : State} {gs : Groups ChunkId}

theorem Marked.members_perm (marked : Marked s gs) (ready : Ready p s) :
    (members gs).Perm p.collected := by
  rw [← marked.chunks]
  exact ready.chunks

theorem Marked.distinct (marked : Marked s gs) (ready : Ready p s) : (members gs).Nodup :=
  (marked.members_perm ready).nodup_iff.mpr (collected_nodup p)

theorem refined_perm (ready : Ready p s) (constant : Bool) :
    (members (refine (equals p s constant) (groupsOf s))).Perm p.collected := by
  have perm := refine_perm (equals p s constant) (groupsOf s)
  rw [members_groupsOf] at perm
  exact perm.trans ready.chunks

theorem pass_ready (ready : Ready p s) (constant : Bool) : Ready p (pass p constant s) := by
  have perm := refined_perm ready constant
  constructor
  · simp only [pass, pass_groups]
    exact perm
  · intro i c outside
    have absent : c ∉ members (refine (equals p s constant) (groupsOf s)) := by
      rwa [perm.mem_iff]
    simp only [pass, pass_groups]
    by_cases written : i = (s.cnt + 1) % 2
    · rw [written, Function.update_self, writeClass_outside _ _ c absent, ready.others _ c outside]
    · rw [Function.update_of_ne written, ready.others i c outside]

theorem pass_marked (ready : Ready p s) (constant : Bool) :
    Marked (pass p constant s) (refine (equals p s constant) (groupsOf s)) := by
  have perm := refined_perm ready constant
  have placed := refine_placed (equals p s constant) 0 _ (groupsOf_placed s)
  constructor
  · exact placed
  · simp only [pass, pass_groups]
  · intro g member c inside
    have distinct := perm.nodup_iff.mpr (collected_nodup p)
    -- classes are places in the list, so none reaches 2^32
    have bound := (placed_bounds 0 _ placed g member).2.1
    rw [perm.length_eq] at bound
    have few := length_collected p
    simp only [State.current, pass, pass_groups, Function.update_self]
    rw [writeClass_inside _ _ distinct g member c inside, Nat.mod_eq_of_lt (by omega)]

/-- The next pass finds the groups again as runs of equal classes. -/
theorem Marked.groupsOf_eq (marked : Marked s gs) : groupsOf s = gs := by
  rw [groupsOf, forEachClass_eq_sequential, forEachClassRange]
  have found := cutOut_marked s.classAt id [] gs marked.placed
  simp only [List.nil_append, List.length_nil] at found
  rw [marked.chunks]
  apply found
  · intro g member i low high
    have inside := placed_getD [] gs marked.placed g member i low high 0
    rw [List.nil_append, ← marked.chunks] at inside
    exact marked.mark g member _ inside
  · intro g _ g' _ same
    exact same

/-! ### The loop -/

/-- More fuel than chunks is enough: a pass that goes on has made one more group. -/
theorem variableLoop_returns (fuel : Nat) (ready : Ready p s) (marked : Marked s gs)
    (enough : p.collected.length < fuel + gs.length) : ∃ s', variableLoop p fuel s = some s' := by
  induction fuel generalizing s gs with
  | zero =>
    have few := length_le_members 0 gs marked.placed
    rw [(marked.members_perm ready).length_eq] at few
    omega
  | succ fuel ih =>
    simp only [variableLoop]
    by_cases again : (pass p false s).again = true
    · rw [if_pos again]
      have marked' := pass_marked ready false
      rw [pass_again, marked.groupsOf_eq] at again
      rw [marked.groupsOf_eq] at marked'
      -- a round that goes on has split a group, and there are no more groups than chunks
      have grown := refine_grows (equals p s false) 0 gs marked.placed again
      exact ih (pass_ready ready false) marked' (by omega)
    · rw [if_neg again]
      exact ⟨_, rfl⟩

/--
The groups at the end split those of the first pass, and the last pass, whose classes were the
same groups, has split nothing.
-/
structure Converged (p : Program) (s s' : State) (gs gs' : Groups ChunkId) : Prop where
  ready : Ready p s'
  marked : Marked s' gs'
  first : ∀ a b, SameGroup gs' a b → SameGroup (refine (equalsVariable p s.current) gs) a b
  last : ∃ cls : ChunkId → Nat, (∀ g ∈ gs', ∀ c ∈ g.2, cls c = g.1) ∧
    refine (equalsVariable p cls) gs' = gs'

theorem variableLoop_converges (fuel : Nat) (ready : Ready p s) (marked : Marked s gs) (s' : State)
    (returned : variableLoop p fuel s = some s') : ∃ gs', Converged p s s' gs gs' := by
  induction fuel generalizing s gs with
  | zero => cases returned
  | succ fuel ih =>
    have ready' := pass_ready ready false
    have marked' := pass_marked ready false
    rw [marked.groupsOf_eq] at marked'
    simp only [variableLoop] at returned
    -- another round refines what this one left; the round that ends the loop changed nothing
    by_cases again : (pass p false s).again = true
    · rw [if_pos again] at returned
      obtain ⟨gs', converged⟩ := ih ready' marked' returned
      refine ⟨gs', converged.ready, converged.marked, ?_, converged.last⟩
      intro a b same
      exact refine_coarser _ _ a b (converged.first a b same)
    · rw [if_neg again] at returned
      obtain rfl := Option.some.inj returned
      rw [pass_again, marked.groupsOf_eq, Bool.not_eq_true] at again
      -- no group was split, so the groups that were marked are the ones that came in
      have fixed := refine_fixed (equals p s false) 0 gs marked.placed again
      rw [fixed] at marked'
      have fixed' : refine (equalsVariable p s.current) gs = gs := fixed
      refine ⟨gs, ready', marked', ?_, s.current, marked.mark, fixed'⟩
      intro a b same
      rwa [fixed']

end LlvmLd.Icf
