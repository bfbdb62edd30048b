import Mathlib.Algebra.BigOperators.Group.List.Basic
import Mathlib.Algebra.Order.Ring.Int
import Mathlib.Data.List.Basic
import Mathlib.Data.List.Count
import Mathlib.Data.List.Perm.Basic
import Mathlib.Logic.Function.Basic

/-!
Counting sort: entries with small keys are put into one table, bucket behind bucket. The sizes of
the buckets are counted first, an exclusive prefix sum gives their starts, and each entry goes to
the cursor of its bucket. In the end every bucket holds its entries in their original order.
-/

namespace LlvmLd.CountingSort

/-- The loop that counts the keys. -/
def counts (keys : List Nat) : Nat → Nat :=
  keys.foldl (fun count k => Function.update count k (count k + 1)) (fun _ => 0)

theorem counts_eq (keys : List Nat) (k : Nat) : counts keys k = keys.count k := by
  -- for every count to begin with
  have general : ∀ (count : Nat → Nat),
      keys.foldl (fun count k => Function.update count k (count k + 1)) count k =
        count k + keys.count k := by
    induction keys with
    | nil => intro count; simp
    | cons key rest ih =>
      intro count
      rw [List.foldl_cons, ih, List.count_cons]
      by_cases same : key = k
      · subst same
        simp
        omega
      · have other : k ≠ key := fun h => same h.symm
        simp [Function.update_of_ne other, same]
  have fromZero := general (fun _ => 0)
  rwa [Nat.zero_add] at fromZero

/-- The exclusive prefix sum. -/
def scan (count : Nat → Nat) (k : Nat) : Nat := ((List.range k).map count).sum

@[simp] theorem scan_zero (count : Nat → Nat) : scan count 0 = 0 := rfl

theorem scan_succ (count : Nat → Nat) (k : Nat) : scan count (k + 1) = scan count k + count k := by
  simp [scan, List.range_succ]

theorem scan_mono (count : Nat → Nat) {j k : Nat} (le : j ≤ k) : scan count j ≤ scan count k := by
  induction le with
  | refl => exact Nat.le_refl _
  | step _ ih =>
    rw [scan_succ]
    omega

/-- A bucket ends where a later one starts, or before. -/
theorem scan_apart (count : Nat → Nat) {j k : Nat} (lt : j < k) :
    scan count j + count j ≤ scan count k := by
  rw [← scan_succ]
  exact scan_mono count lt

/-- Buckets without entries take no room. -/
theorem scan_eq_of_empty (count : Nat → Nat) {j k : Nat} (le : j ≤ k)
    (empty : ∀ i, j ≤ i → i < k → count i = 0) : scan count k = scan count j := by
  induction le with
  | refl => rfl
  | @step m le ih =>
    rw [scan_succ, ih (fun i from_j below => empty i from_j (by omega)), empty m le (by omega)]
    rfl

theorem scan_counts (keys : List Nat) (k : Nat) :
    scan (counts keys) k = (keys.filter (· < k)).length := by
  induction k with
  | zero => simp
  | succ k ih =>
    rw [scan_succ, ih, counts_eq]
    clear ih
    induction keys with
    | nil => rfl
    | cons key rest ih =>
      rw [List.filter_cons, List.filter_cons, List.count_cons]
      -- a key counts below `k`, at `k` or not at all
      by_cases below : key < k
      · have next : key < k + 1 := by omega
        have other : (key == k) = false := by simp; omega
        rw [if_pos (decide_eq_true below), if_pos (decide_eq_true next), other]
        simp only [List.length_cons, Bool.false_eq_true, if_false]
        omega
      · by_cases same : key = k
        · have next : key < k + 1 := by omega
          have hit : (key == k) = true := beq_iff_eq.mpr same
          rw [if_neg (by simpa using below), if_pos (decide_eq_true next), hit]
          simp only [List.length_cons, if_true]
          omega
        · have beyond : ¬ key < k + 1 := by omega
          have other : (key == k) = false := by simpa using same
          rw [other]
          simp only [below, beyond, decide_false, Bool.false_eq_true, if_false]
          omega

/-- All buckets together take as much room as there are keys. -/
theorem scan_total (keys : List Nat) (n : Nat) (small : ∀ k ∈ keys, k < n) :
    scan (counts keys) n = keys.length := by
  rw [scan_counts, List.filter_eq_self.mpr (fun k member => by simpa using small k member)]

section Placing

variable {α : Type*}

structure State (α : Type*) where
  cursors : Nat → Nat
  table : Nat → α

/-- An entry goes to the cursor of its bucket, and the cursor moves on. -/
def State.place (st : State α) (entry : Nat × α) : State α where
  cursors := Function.update st.cursors entry.1 (st.cursors entry.1 + 1)
  table := Function.update st.table (st.cursors entry.1) entry.2

/-- What bucket `k` is to hold. -/
def bucket (k : Nat) (entries : List (Nat × α)) : List α :=
  (entries.filter (fun entry => entry.1 = k)).map Prod.snd

theorem bucket_append (k : Nat) (first second : List (Nat × α)) :
    bucket k (first ++ second) = bucket k first ++ bucket k second := by
  simp [bucket]

/-- `done` has been placed: every cursor and every bucket up to its cursor is as it should be. -/
structure Placed (start : Nat → Nat) (done : List (Nat × α)) (st : State α) : Prop where
  cursor : ∀ k, st.cursors k = start k + (bucket k done).length
  holds : ∀ k, (List.range (bucket k done).length).map (fun i => st.table (start k + i)) =
    bucket k done

/-- One entry is placed without touching the other buckets. -/
theorem Placed.place {start : Nat → Nat} {done : List (Nat × α)} {st : State α}
    (placed : Placed start done st) (entry : Nat × α) (room : Nat → Nat)
    (fits : ∀ k, (bucket k (done ++ [entry])).length ≤ room k)
    (apart : ∀ j k, j < k → start j + room j ≤ start k) :
    Placed start (done ++ [entry]) (st.place entry) := by
  have own : bucket entry.1 (done ++ [entry]) = bucket entry.1 done ++ [entry.2] := by
    simp [bucket]
  have others : ∀ k, k ≠ entry.1 → bucket k (done ++ [entry]) = bucket k done := by
    intro k other
    have different : entry.1 ≠ k := fun h => other h.symm
    simp [bucket, different]
  have at_cursor := placed.cursor entry.1
  constructor
  · intro k
    by_cases same : k = entry.1
    · subst same
      simp only [State.place, Function.update_self, own, List.length_append, List.length_singleton]
      omega
    · simp only [State.place, Function.update_of_ne same, others k same]
      exact placed.cursor k
  · intro k
    by_cases same : k = entry.1
    · subst same
      have before : (List.range (bucket entry.1 done).length).map
          (fun i => (st.place entry).table (start entry.1 + i)) = bucket entry.1 done := by
        rw [← placed.holds entry.1]
        simp only [List.length_map, List.length_range]
        refine List.map_congr_left (fun i member => ?_)
        rw [List.mem_range] at member
        exact Function.update_of_ne (by omega) _ _
      rw [own, List.length_append, List.length_singleton, List.range_succ, List.map_append, before]
      simp [State.place, at_cursor]
    · rw [others k same, ← placed.holds k]
      simp only [List.length_map, List.length_range]
      refine List.map_congr_left (fun i member => ?_)
      rw [List.mem_range] at member
      -- the cursor of the entry's bucket is in that bucket's room, and `k` lies elsewhere
      have inOwn := fits entry.1
      have inK := fits k
      rw [own, List.length_append, List.length_singleton] at inOwn
      rw [others k same] at inK
      refine Function.update_of_ne ?_ _ _
      rcases Nat.lt_or_gt_of_ne same with below | above
      · have gap := apart k entry.1 below
        omega
      · have gap := apart entry.1 k above
        omega

theorem Placed.foldl {start : Nat → Nat} {done : List (Nat × α)} {st : State α}
    (placed : Placed start done st) (rest : List (Nat × α)) (room : Nat → Nat)
    (fits : ∀ k, (bucket k (done ++ rest)).length ≤ room k)
    (apart : ∀ j k, j < k → start j + room j ≤ start k) :
    Placed start (done ++ rest) (rest.foldl State.place st) := by
  induction rest generalizing done st with
  | nil => simpa using placed
  | cons entry rest ih =>
    rw [List.foldl_cons]
    -- what has been placed so far is no more than there will be in the end
    have here : ∀ k, (bucket k (done ++ [entry])).length ≤ room k := by
      intro k
      have all := fits k
      rw [← List.singleton_append, ← List.append_assoc, bucket_append, List.length_append] at all
      omega
    have next := placed.place entry room here apart
    have again := ih next (by simpa using fits)
    simpa using again

theorem length_bucket (k : Nat) (entries : List (Nat × α)) :
    (bucket k entries).length = counts (entries.map Prod.fst) k := by
  rw [counts_eq, bucket, List.length_map, List.count, List.countP_map, List.countP_eq_length_filter]
  congr 1

/-- The whole loop, from an empty table. -/
def distribute (fallback : α) (entries : List (Nat × α)) : State α :=
  entries.foldl State.place ⟨scan (counts (entries.map Prod.fst)), fun _ => fallback⟩

theorem distribute_placed (fallback : α) (entries : List (Nat × α)) :
    Placed (scan (counts (entries.map Prod.fst))) entries (distribute fallback entries) := by
  have start : Placed (scan (counts (entries.map Prod.fst))) ([] : List (Nat × α))
      ⟨scan (counts (entries.map Prod.fst)), fun _ => fallback⟩ := by
    constructor
    · intro k
      rfl
    · intro k
      rfl
  exact start.foldl entries (counts (entries.map Prod.fst))
    (fun k => Nat.le_of_eq (length_bucket k entries))
    (fun j k lt => scan_apart _ lt)

/-- A table read up to the start of bucket `n` is the buckets below `n`, one behind the other. -/
theorem map_range_scan (count : Nat → Nat) (table : Nat → α) (n : Nat) :
    (List.range (scan count n)).map table =
      (List.range n).flatMap
        (fun k => (List.range (count k)).map (fun i => table (scan count k + i))) := by
  induction n with
  | zero => rfl
  | succ n ih =>
    rw [scan_succ, List.range_add, List.map_append, ih, List.range_succ, List.flatMap_append]
    simp [Function.comp_def]

/-- Sorting by key keeps all entries. -/
theorem flatMap_filter_perm (key : α → Nat) (n : Nat) (items : List α)
    (small : ∀ x ∈ items, key x < n) :
    ((List.range n).flatMap (fun k => items.filter (fun x => key x = k))).Perm items := by
  -- the first `m` groups hold the items with a key below `m`
  have general : ∀ m, ((List.range m).flatMap (fun k => items.filter (fun x => key x = k))).Perm
      (items.filter (fun x => key x < m)) := by
    intro m
    induction m with
    | zero => simp
    | succ m ih =>
      rw [List.range_succ, List.flatMap_append, List.flatMap_singleton]
      refine (ih.append_right _).trans ?_
      clear ih
      induction items with
      | nil => simp
      | cons x rest ih =>
        have later := ih (fun y member => small y (List.mem_cons_of_mem x member))
        rw [List.filter_cons, List.filter_cons, List.filter_cons]
        -- the item lies in an earlier group, in the last one or in none so far
        by_cases below : key x < m
        · have next : key x < m + 1 := by omega
          have other : key x ≠ m := by omega
          simp only [below, next, other, decide_true, decide_false, if_true, Bool.false_eq_true,
            if_false, List.cons_append]
          exact later.cons x
        · by_cases same : key x = m
          · have next : key x < m + 1 := by omega
            rw [if_neg (by simpa using below), if_pos (decide_eq_true same),
              if_pos (decide_eq_true next)]
            exact List.perm_middle.trans (later.cons x)
          · have beyond : ¬ key x < m + 1 := by omega
            simp only [below, same, beyond, decide_false, Bool.false_eq_true, if_false]
            exact later
  refine (general n).trans ?_
  rw [List.filter_eq_self.mpr (fun x member => by simpa using small x member)]

end Placing

end LlvmLd.CountingSort
