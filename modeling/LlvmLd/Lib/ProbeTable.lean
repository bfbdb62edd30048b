import Mathlib.Algebra.Order.Ring.Int
import Mathlib.Data.Finset.Card
import Mathlib.Data.Finset.Image
import Mathlib.Data.Finset.Range
import Mathlib.Logic.Function.Basic
import Mathlib.Order.Defs.PartialOrder
import Mathlib.Tactic.Common

/-!
Open addressing with linear probing, where several writers may fill empty cells and improve full
ones. A cell keeps its key from the moment it is filled, so what a probe has passed stays passed.
-/

namespace LlvmLd.ProbeTable

/-- The next index of a probe. -/
def advance (size idx : Nat) : Nat := if idx + 1 = size then 0 else idx + 1

/-- How many cells a probe that starts at `first` passes before `idx`. -/
def dist (size first idx : Nat) : Nat := if first ≤ idx then idx - first else idx + size - first

theorem advance_lt (size idx : Nat) (inside : idx < size) : advance size idx < size := by
  simp only [advance]
  split <;> omega

theorem dist_injective (size first i j : Nat) (inside : i < size) (inside' : j < size)
    (start : first < size) (same : dist size first i = dist size first j) : i = j := by
  simp only [dist] at same
  split_ifs at same <;> omega

theorem dist_advance (size first idx : Nat) (start : first < size)
    (more : advance size idx ≠ first) :
    dist size first (advance size idx) = dist size first idx + 1 := by
  simp only [advance] at *
  simp only [dist]
  split_ifs at * <;> omega

theorem dist_le_of_advance (size first idx j : Nat) (inside : j < size)
    (around : advance size idx = first) : dist size first j ≤ dist size first idx := by
  simp only [advance] at around
  simp only [dist]
  split_ifs at * <;> omega

variable {E K : Type*} {key : E → K} {start : K → Nat} {size : Nat}

/-- A probe for `k` has passed all cells before `idx`: they are full and have other keys. -/
def Passed (key : E → K) (start : K → Nat) (size : Nat) (table : Nat → Option E) (k : K)
    (idx : Nat) : Prop :=
  ∀ j < size, dist size (start k) j < dist size (start k) idx →
    ∃ e, table j = some e ∧ key e ≠ k

/-- No key stands twice, and no probe for a key that is there meets an empty cell first. -/
structure Valid (key : E → K) (start : K → Nat) (size : Nat) (table : Nat → Option E) : Prop where
  inside : ∀ i e, table i = some e → i < size
  unique : ∀ i j e e', table i = some e → table j = some e' → key e = key e' → i = j
  unbroken : ∀ i e, table i = some e → ∀ j < size,
    dist size (start (key e)) j < dist size (start (key e)) i → table j ≠ none

theorem valid_empty : Valid key start size (fun _ => none) where
  inside := fun _ _ full => by cases full
  unique := fun _ _ _ _ full => by cases full
  unbroken := fun _ _ full => by cases full

/-! ### Probing -/

section Probing

variable {table : Nat → Option E} {k : K} {idx : Nat}

theorem passed_start : Passed key start size table k (start k) := by
  intro j _ before
  have zero : dist size (start k) (start k) = 0 := by simp [dist]
  omega

theorem Passed.advance (passed : Passed key start size table k idx) (inside : idx < size)
    (within : start k < size) (e : E) (full : table idx = some e) (other : key e ≠ k)
    (more : ProbeTable.advance size idx ≠ start k) :
    Passed key start size table k (ProbeTable.advance size idx) := by
  intro j insideJ before
  rw [dist_advance size (start k) idx within more] at before
  by_cases same : dist size (start k) j = dist size (start k) idx
  · obtain rfl := dist_injective size (start k) j idx insideJ inside within same
    exact ⟨e, full, other⟩
  · exact passed j insideJ (by omega)

/-- A probe that comes around has seen every cell full. -/
theorem Passed.around (passed : Passed key start size table k idx) (inside : idx < size)
    (within : start k < size) (e : E) (full : table idx = some e) (other : key e ≠ k)
    (around : ProbeTable.advance size idx = start k) :
    ∀ j < size, ∃ e, table j = some e ∧ key e ≠ k := by
  intro j insideJ
  have bound := dist_le_of_advance size (start k) idx j insideJ around
  by_cases same : dist size (start k) j = dist size (start k) idx
  · obtain rfl := dist_injective size (start k) j idx insideJ inside within same
    exact ⟨e, full, other⟩
  · exact passed j insideJ (by omega)

/-- A key that a probe has not met when it comes to an empty cell is nowhere in the table. -/
theorem Valid.fresh (valid : Valid key start size table) (inside : idx < size)
    (within : start k < size) (passed : Passed key start size table k idx)
    (empty : table idx = none) (i : Nat) (e : E) (full : table i = some e) : key e ≠ k := by
  rintro rfl
  have insideI := valid.inside i e full
  -- an equal key would have been passed, stand in the empty slot, or leave a gap in front
  rcases Nat.lt_trichotomy (dist size (start (key e)) i) (dist size (start (key e)) idx) with
    before | same | behind
  · obtain ⟨e', full', other⟩ := passed i insideI before
    rw [full] at full'
    cases full'
    exact other rfl
  · obtain rfl := dist_injective size _ i idx insideI inside within same
    rw [empty] at full
    cases full
  · exact valid.unbroken i e full idx inside behind empty

end Probing

/-! ### Writing -/

/-- Filling the empty cell that a probe has come to. -/
theorem Valid.fill {table : Nat → Option E} {idx : Nat} {e : E}
    (valid : Valid key start size table) (inside : idx < size) (within : start (key e) < size)
    (passed : Passed key start size table (key e) idx) (empty : table idx = none) :
    Valid key start size (Function.update table idx (some e)) := by
  -- A key that is in the table stands before the first empty cell of its probe.
  have fresh := valid.fresh inside within passed empty
  refine ⟨?_, ?_, ?_⟩
  · intro i f full
    by_cases here : i = idx
    · exact here ▸ inside
    · rw [Function.update_of_ne here] at full
      exact valid.inside i f full
  · intro i j f g full full' same
    by_cases here : i = idx <;> by_cases there : j = idx
    · exact here.trans there.symm
    · subst here
      rw [Function.update_self] at full
      rw [Function.update_of_ne there] at full'
      cases full
      exact absurd same.symm (fresh j g full')
    · subst there
      rw [Function.update_self] at full'
      rw [Function.update_of_ne here] at full
      cases full'
      exact absurd same (fresh i f full)
    · rw [Function.update_of_ne here] at full
      rw [Function.update_of_ne there] at full'
      exact valid.unique i j f g full full' same
  -- Filling a cell breaks no probe, and the new one has passed only full cells.
  · intro i f full j insideJ before
    by_cases there : j = idx
    · subst there
      simp
    · rw [Function.update_of_ne there]
      by_cases here : i = idx
      · subst here
        rw [Function.update_self] at full
        cases full
        obtain ⟨other, full', -⟩ := passed j insideJ before
        simp [full']
      · rw [Function.update_of_ne here] at full
        exact valid.unbroken i f full j insideJ before

/-- Overwriting an entry by one with the same key. -/
theorem Valid.replace {table : Nat → Option E} {idx : Nat} {old e : E}
    (valid : Valid key start size table) (full : table idx = some old) (same : key e = key old) :
    Valid key start size (Function.update table idx (some e)) := by
  -- the keys of the slots stay as they were, and the invariant speaks of nothing else
  have keys : ∀ i f, Function.update table idx (some e) i = some f →
      ∃ g, table i = some g ∧ key g = key f := by
    intro i f there
    by_cases here : i = idx
    · subst here
      rw [Function.update_self] at there
      cases there
      exact ⟨old, full, same.symm⟩
    · rw [Function.update_of_ne here] at there
      exact ⟨f, there, rfl⟩
  refine ⟨?_, ?_, ?_⟩
  · intro i f there
    obtain ⟨g, before, -⟩ := keys i f there
    exact valid.inside i g before
  · intro i j f g there there' equal
    obtain ⟨f', before, keyF⟩ := keys i f there
    obtain ⟨g', before', keyG⟩ := keys j g there'
    exact valid.unique i j f' g' before before' (by rw [keyF, keyG, equal])
  · intro i f there j insideJ closer
    obtain ⟨g, before, keyF⟩ := keys i f there
    rw [← keyF] at closer
    have filled := valid.unbroken i g before j insideJ closer
    by_cases here : j = idx
    · subst here
      simp
    · rwa [Function.update_of_ne here]

/-! ### Growth -/

section Growth

variable [Preorder E]

/-- What the writers may do to a table: fill empty cells, and improve full ones. -/
def Extends (key : E → K) (old new : Nat → Option E) : Prop :=
  ∀ i e, old i = some e → ∃ e', new i = some e' ∧ key e' = key e ∧ e' ≤ e

theorem Extends.refl (table : Nat → Option E) : Extends key table table :=
  fun _ e full => ⟨e, full, rfl, le_rfl⟩

theorem extends_fill (table : Nat → Option E) (idx : Nat) (e : E) (empty : table idx = none) :
    Extends key table (Function.update table idx (some e)) := by
  intro i f full
  have elsewhere : i ≠ idx := by
    rintro rfl
    rw [empty] at full
    cases full
  exact ⟨f, by rw [Function.update_of_ne elsewhere, full], rfl, le_rfl⟩

theorem extends_replace (table : Nat → Option E) (idx : Nat) (old e : E)
    (full : table idx = some old) (same : key e = key old) (better : e ≤ old) :
    Extends key table (Function.update table idx (some e)) := by
  intro i f there
  by_cases here : i = idx
  · subst here
    rw [full] at there
    cases there
    exact ⟨e, by simp, same, better⟩
  · exact ⟨f, by rw [Function.update_of_ne here, there], rfl, le_rfl⟩

theorem Passed.mono {old new : Nat → Option E} {k : K} {idx : Nat}
    (passed : Passed key start size old k idx) (grown : Extends key old new) :
    Passed key start size new k idx := by
  intro j inside before
  obtain ⟨e, full, other⟩ := passed j inside before
  obtain ⟨e', full', same, -⟩ := grown j e full
  exact ⟨e', full', same ▸ other⟩

end Growth

/-! ### Room -/

/-- While an entry is missing whose key is in no cell, a table with a cell for each entry has an
empty one. -/
theorem exists_empty {table : Nat → Option E} [DecidableEq E] (valid : Valid key start size table)
    (entries : List E) (known : ∀ i e, table i = some e → e ∈ entries) (missing : E)
    (listed : missing ∈ entries) (room : entries.length ≤ size)
    (other : ∀ i e, table i = some e → key e ≠ key missing) : ∃ i < size, table i = none := by
  by_contra full
  have filled : ∀ i < size, ∃ e, table i = some e := by
    intro i inside
    exact Option.ne_none_iff_exists'.mp (fun empty => full ⟨i, inside, empty⟩)
  have nonempty : Nonempty E := ⟨missing⟩
  choose! content stored using filled
  -- a full table has its entries among the others than `missing`
  have image : (Finset.range size).image content ⊆ entries.toFinset.erase missing := by
    intro e member
    obtain ⟨i, inRange, rfl⟩ := Finset.mem_image.mp member
    have here := stored i (Finset.mem_range.mp inRange)
    refine Finset.mem_erase.mpr ⟨?_, List.mem_toFinset.mpr (known i _ here)⟩
    intro same
    exact other i _ here (congrArg key same)
  -- no two slots hold one key, so there are as many entries as slots
  have injective : Set.InjOn content (Finset.range size) := by
    intro i inRange j inRange' same
    have inside := Finset.mem_range.mp (Finset.mem_coe.mp inRange)
    have inside' := Finset.mem_range.mp (Finset.mem_coe.mp inRange')
    exact valid.unique i j _ _ (stored i inside) (stored j inside') (congrArg key same)
  have count := Finset.card_le_card image
  rw [Finset.card_image_of_injOn injective, Finset.card_range,
    Finset.card_erase_of_mem (List.mem_toFinset.mpr listed)] at count
  have short := List.toFinset_card_le entries
  have positive := Finset.card_pos.mpr ⟨missing, List.mem_toFinset.mpr listed⟩
  omega

end LlvmLd.ProbeTable
