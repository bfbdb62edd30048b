import Mathlib.Algebra.Order.Ring.Int
import Mathlib.Data.List.Flatten
import Mathlib.Tactic.Common

/-!
The maximal runs of equal keys over an interval of indices, found by scanning, and the same runs
found by several workers that each scan from one cut to the next.
-/

namespace LlvmLd.Runs

variable {κ : Type*} [DecidableEq κ] (key : Nat → κ)

/-- The first index from `i` on, within `fuel` steps, whose key is not `k`. -/
def scan (k : κ) : Nat → Nat → Nat
  | 0, i => i
  | fuel + 1, i => if key i ≠ k then i else scan k fuel (i + 1)

/-- Where the run that starts at `start` ends. -/
def boundary (start stop : Nat) : Nat :=
  if start < stop then scan key (key start) (stop - (start + 1)) (start + 1) else stop

def runsLoop : Nat → Nat → Nat → List (Nat × Nat)
  | 0, _, _ => []
  | fuel + 1, start, stop =>
    if start < stop then
      let mid := boundary key start stop
      (start, mid) :: runsLoop fuel mid stop
    else []

/-- The runs from `start` to `stop`, each as its two ends. -/
def runs (start stop : Nat) : List (Nat × Nat) := runsLoop key (stop - start) start stop

/-- A run ends before `i` or `i` is where the scan stops. -/
def Cut (stop i : Nat) : Prop := i ≤ stop ∧ (0 < i → i < stop → key (i - 1) ≠ key i)

variable {key}

theorem scan_spec (k : κ) (fuel i : Nat) :
    i ≤ scan key k fuel i ∧ scan key k fuel i ≤ i + fuel ∧
      (∀ j, i ≤ j → j < scan key k fuel i → key j = k) ∧
      (scan key k fuel i < i + fuel → key (scan key k fuel i) ≠ k) := by
  induction fuel generalizing i with
  | zero =>
    simp only [scan]
    refine ⟨Nat.le_refl _, Nat.le_refl _, ?_, ?_⟩
    · intro j low high
      omega
    · intro inside
      omega
  | succ fuel ih =>
    -- the scan goes on over an equal key and stops at another
    by_cases same : key i = k
    · have step : scan key k (fuel + 1) i = scan key k fuel (i + 1) := by simp [scan, same]
      obtain ⟨low, high, inside, other⟩ := ih (i + 1)
      rw [step]
      refine ⟨by omega, by omega, ?_, ?_⟩
      · intro j first last
        by_cases here : j = i
        · rw [here, same]
        · exact inside j (by omega) last
      · intro short
        exact other (by omega)
    · have step : scan key k (fuel + 1) i = i := by simp [scan, same]
      rw [step]
      refine ⟨Nat.le_refl _, by omega, ?_, ?_⟩
      · intro j first last
        omega
      · intro _
        exact same

theorem boundary_spec (start stop : Nat) (more : start < stop) :
    start < boundary key start stop ∧ boundary key start stop ≤ stop ∧
      (∀ j, start ≤ j → j < boundary key start stop → key j = key start) ∧
      (boundary key start stop < stop → key (boundary key start stop) ≠ key start) := by
  obtain ⟨low, high, inside, other⟩ :=
    @scan_spec _ _ key (key start) (stop - (start + 1)) (start + 1)
  have unfolded : boundary key start stop =
      scan key (key start) (stop - (start + 1)) (start + 1) := by simp [boundary, more]
  rw [unfolded]
  refine ⟨by omega, by omega, ?_, ?_⟩
  · intro j first last
    by_cases here : j = start
    · rw [here]
    · exact inside j (by omega) last
  · intro short
    exact other (by omega)

theorem boundary_unique (start stop m : Nat) (low : start < m) (high : m ≤ stop)
    (inside : ∀ j, start ≤ j → j < m → key j = key start)
    (other : m < stop → key m ≠ key start) : boundary key start stop = m := by
  obtain ⟨low', high', inside', other'⟩ := @boundary_spec _ _ key start stop (by omega)
  rcases Nat.lt_trichotomy (boundary key start stop) m with less | same | greater
  · exact absurd (inside _ (by omega) less) (other' (by omega))
  · exact same
  · exact absurd (inside' m (by omega) greater) (other (by omega))

theorem boundary_cut (start stop : Nat) (more : start < stop) :
    Cut key stop (boundary key start stop) := by
  obtain ⟨low, high, inside, other⟩ := @boundary_spec _ _ key start stop more
  refine ⟨high, ?_⟩
  intro _ short
  rw [inside _ (by omega) (by omega)]
  exact (other short).symm

theorem boundary_le_cut (start stop c : Nat) (cut : Cut key stop c) (after : start < c) :
    boundary key start stop ≤ c := by
  have more : start < stop := by have := cut.1; omega
  obtain ⟨low, high, inside, other⟩ := @boundary_spec _ _ key start stop more
  by_contra beyond
  have differ := cut.2 (by omega) (by omega)
  rw [inside (c - 1) (by omega) (by omega), inside c (by omega) (by omega)] at differ
  exact differ rfl

/-- A scan that is told to stop at a cut finds what the scan to the end finds. -/
theorem boundary_stop (start stop c : Nat) (cut : Cut key stop c) (after : start < c) :
    boundary key start c = boundary key start stop := by
  have reach := boundary_le_cut start stop c cut after
  have more : start < stop := by have := cut.1; omega
  obtain ⟨low, high, inside, other⟩ := @boundary_spec _ _ key start stop more
  exact boundary_unique start c _ low reach inside (fun short => other (by have := cut.1; omega))

theorem boundary_mono (start start' stop : Nat) (ordered : start ≤ start') (more : start' < stop) :
    boundary key start stop ≤ boundary key start' stop := by
  have after := (@boundary_spec _ _ key start' stop more).1
  exact boundary_le_cut start stop _ (boundary_cut start' stop more) (by omega)

theorem runsLoop_fuel (fuel start stop : Nat) (enough : stop - start ≤ fuel) :
    runsLoop key fuel start stop = runs key start stop := by
  -- any two amounts of fuel that suffice give the same runs
  suffices h : ∀ fuel fuel' start, stop - start ≤ fuel → stop - start ≤ fuel' →
      runsLoop key fuel start stop = runsLoop key fuel' start stop from
    h _ _ _ enough (Nat.le_refl _)
  intro fuel
  induction fuel with
  | zero =>
    intro fuel' start none _
    cases fuel' with
    | zero => rfl
    | succ fuel' =>
      have done : ¬ start < stop := by omega
      simp [runsLoop, done]
  | succ fuel ih =>
    intro fuel' start enough enough'
    by_cases more : start < stop
    · cases fuel' with
      | zero => omega
      | succ fuel' =>
        have low := (@boundary_spec _ _ key start stop more).1
        simp only [runsLoop, more, if_true]
        rw [ih fuel' _ (by omega) (by omega)]
    · cases fuel' <;> simp [runsLoop, more]

theorem runs_empty (start stop : Nat) (done : stop ≤ start) : runs key start stop = [] := by
  have : stop - start = 0 := by omega
  simp [runs, this, runsLoop]

theorem runs_cons (start stop : Nat) (more : start < stop) :
    runs key start stop = (start, boundary key start stop) ::
      runs key (boundary key start stop) stop := by
  have low := (@boundary_spec _ _ key start stop more).1
  rw [← runsLoop_fuel (stop - start - 1) (boundary key start stop) stop (by omega)]
  have unfolded : stop - start = (stop - start - 1) + 1 := by omega
  rw [runs, unfolded, runsLoop, if_pos more]
  rfl

theorem runs_bounds (start stop : Nat) (r : Nat × Nat) (member : r ∈ runs key start stop) :
    start ≤ r.1 ∧ r.1 < r.2 ∧ r.2 ≤ stop := by
  induction gap : stop - start using Nat.strongRecOn generalizing start with
  | _ gap' ih =>
    by_cases more : start < stop
    · obtain ⟨low, high, -, -⟩ := @boundary_spec _ _ key start stop more
      rw [runs_cons start stop more] at member
      rcases List.mem_cons.mp member with rfl | later
      · exact ⟨Nat.le_refl _, low, high⟩
      · obtain ⟨first, last⟩ := ih _ (by omega) (boundary key start stop) later rfl
        exact ⟨by omega, last⟩
    · rw [runs_empty start stop (by omega)] at member
      cases member

/-- What is scanned up to a cut and from it on is what is scanned at once. -/
theorem runs_append (start c stop : Nat) (cut : Cut key stop c) (ordered : start ≤ c) :
    runs key start stop = runs key start c ++ runs key c stop := by
  have inside := cut.1
  induction gap : c - start using Nat.strongRecOn generalizing start with
  | _ gap' ih =>
    by_cases here : start = c
    · rw [here, runs_empty c c (Nat.le_refl _)]
      rfl
    · have after : start < c := by omega
      have same := boundary_stop start stop c cut after
      obtain ⟨low, high, -, -⟩ := @boundary_spec _ _ key start c after
      rw [runs_cons start stop (by omega), runs_cons start c after, same]
      rw [same] at low high
      rw [ih _ (by omega) (boundary key start stop) high rfl]
      rfl

/-- Workers that share the interval at cuts find together what one scan finds. -/
theorem runs_sharded (stop : Nat) (boundaries : Nat → Nat) (shards : Nat)
    (first : boundaries 0 = 0) (cuts : ∀ i ≤ shards, Cut key stop (boundaries i))
    (ordered : ∀ i < shards, boundaries i ≤ boundaries (i + 1)) :
    (List.range shards).flatMap (fun i => runs key (boundaries i) (boundaries (i + 1))) =
      runs key 0 (boundaries shards) := by
  induction shards with
  | zero => simp [runs_empty, first]
  | succ shards ih =>
    have earlier := ih (fun i bound => cuts i (by omega)) (fun i bound => ordered i (by omega))
    have cut := cuts shards (by omega)
    have reach := ordered shards (by omega)
    have nearer : Cut key (boundaries (shards + 1)) (boundaries shards) := by
      refine ⟨reach, ?_⟩
      intro positive short
      have := (cuts (shards + 1) (Nat.le_refl _)).1
      exact cut.2 positive (by omega)
    rw [List.range_succ, List.flatMap_append, earlier,
      runs_append 0 (boundaries shards) (boundaries (shards + 1)) nearer (Nat.zero_le _)]
    simp

/-! ### Runs of a list -/

section Lists

variable {α : Type*} (keyOf : α → κ)

/-- The runs of equal keys behind a run that has the key `k` and starts with `group`. -/
def keyRuns (k : κ) (group : List α) : List α → List (κ × List α)
  | [] => [(k, group)]
  | x :: rest =>
    if keyOf x = k then keyRuns k (group ++ [x]) rest
    else (k, group) :: keyRuns (keyOf x) [x] rest

theorem keyRuns_flatMap (k : κ) (group rest : List α) :
    (keyRuns keyOf k group rest).flatMap Prod.snd = group ++ rest := by
  induction rest generalizing k group with
  | nil => simp [keyRuns]
  | cons x rest ih =>
    rw [keyRuns]
    split
    · rw [ih, List.append_assoc]
      rfl
    · rw [List.flatMap_cons, ih]
      rfl

theorem keyRuns_key (k : κ) (group rest : List α) (own : ∀ x ∈ group, keyOf x = k)
    (some_member : group ≠ []) (run : κ × List α) (member : run ∈ keyRuns keyOf k group rest) :
    run.2 ≠ [] ∧ ∀ x ∈ run.2, keyOf x = run.1 := by
  induction rest generalizing k group with
  | nil =>
    obtain rfl := List.mem_singleton.mp member
    exact ⟨some_member, own⟩
  | cons x rest ih =>
    rw [keyRuns] at member
    -- the element joins the group at hand, or closes it and opens the next
    split at member
    · next same =>
      refine ih k (group ++ [x]) ?_ (by simp) member
      intro y inGroup
      rcases List.mem_append.mp inGroup with old | new
      · exact own y old
      · obtain rfl := List.mem_singleton.mp new
        exact same
    · rcases List.mem_cons.mp member with rfl | later
      · exact ⟨some_member, own⟩
      · refine ih (keyOf x) [x] ?_ (by simp) later
        intro y inGroup
        obtain rfl := List.mem_singleton.mp inGroup
        rfl

/-- When the keys of the list ascend, those of the runs ascend strictly. -/
theorem keyRuns_ascending [LinearOrder κ] (k : κ) (group rest : List α)
    (sorted : rest.Pairwise (fun a b => keyOf a ≤ keyOf b)) (above : ∀ x ∈ rest, k ≤ keyOf x) :
    ((keyRuns keyOf k group rest).map Prod.fst).Pairwise (· < ·) ∧
      ∀ run ∈ keyRuns keyOf k group rest, k ≤ run.1 := by
  induction rest generalizing k group with
  | nil => simp [keyRuns]
  | cons x rest ih =>
    obtain ⟨first, sortedRest⟩ := List.pairwise_cons.mp sorted
    obtain ⟨here, aboveRest⟩ := List.forall_mem_cons.mp above
    rw [keyRuns]
    -- an equal key stays in the run, a new one is greater than all so far
    by_cases same : keyOf x = k
    · rw [if_pos same]
      exact ih k _ sortedRest aboveRest
    · rw [if_neg same]
      obtain ⟨ascending, atLeast⟩ := ih (keyOf x) [x] sortedRest first
      have below : k < keyOf x := lt_of_le_of_ne here (Ne.symm same)
      constructor
      · rw [List.map_cons, List.pairwise_cons]
        refine ⟨?_, ascending⟩
        intro next member
        obtain ⟨run, inRuns, rfl⟩ := List.mem_map.mp member
        exact lt_of_lt_of_le below (atLeast run inRuns)
      · refine List.forall_mem_cons.mpr ⟨le_refl k, ?_⟩
        intro run member
        exact le_trans here (atLeast run member)

end Lists

end LlvmLd.Runs
