import Mathlib.Data.List.Basic
import Mathlib.Data.List.Flatten
import Mathlib.Data.List.Nodup
import Mathlib.Tactic.Common

/-!
# Bit vectors of free slots

A set bit is a free slot. The first free slots are taken one after the other; `Holds` says that
slots that are in use have one user each and are not free.
-/

namespace LlvmLd.Bitmap

/-- The first set bit from `start` on. -/
def findNext (bits : List Bool) (start : Nat) : Option Nat :=
  ((bits.drop start).findIdx? id).map (start + ·)

/-- Grow or shrink to `count` bits; the new ones are set. -/
def resize (bits : List Bool) (count : Nat) : List Bool :=
  bits.take count ++ List.replicate (count - bits.length) true

/-- Clear `n` set bits, the first of them at `next`. -/
def take : Nat → Option Nat → List Bool → Option (List Nat × List Bool)
  | 0, _, bits => some ([], bits)
  | _ + 1, none, _ => none
  | n + 1, some i, bits =>
    (take n (findNext (bits.set i false) (i + 1)) (bits.set i false)).map (fun r => (i :: r.1, r.2))

def setAll (value : Bool) (bits : List Bool) (slots : List Nat) : List Bool :=
  slots.foldl (fun bits i => bits.set i value) bits

/-- The slots in use have one user each, and none of them is free. -/
structure Holds (bits : List Bool) (used : List Nat) : Prop where
  distinct : used.Nodup
  taken : ∀ i ∈ used, bits[i]? = some false

/-! ### Single operations -/

@[simp] theorem length_resize (bits : List Bool) (count : Nat) :
    (resize bits count).length = count := by
  rw [resize, List.length_append, List.length_take, List.length_replicate]
  omega

theorem getElem?_resize (bits : List Bool) (count i : Nat) (inside : i < bits.length)
    (grows : bits.length ≤ count) : (resize bits count)[i]? = bits[i]? := by
  rw [resize, List.take_of_length_le grows, List.getElem?_append_left inside]

theorem getElem?_resize_new (bits : List Bool) (count i : Nat) (outside : bits.length ≤ i)
    (below : i < count) : (resize bits count)[i]? = some true := by
  rw [resize, List.take_of_length_le (by omega), List.getElem?_append_right outside,
    List.getElem?_replicate, if_pos (by omega)]

theorem count_resize (bits : List Bool) (count : Nat) (grows : bits.length ≤ count) :
    (resize bits count).count true = bits.count true + (count - bits.length) := by
  rw [resize, List.take_of_length_le grows, List.count_append, List.count_replicate_self]

theorem count_set_false_le (bits : List Bool) (i : Nat) :
    (bits.set i false).count true ≤ bits.count true := by
  induction bits generalizing i with
  | nil => simp
  | cons bit rest ih =>
    cases i with
    | zero => cases bit <;> simp
    | succ i =>
      have later := ih i
      rw [List.set_cons_succ, List.count_cons, List.count_cons]
      omega

theorem count_setAll_false_le (bits : List Bool) (slots : List Nat) :
    (setAll false bits slots).count true ≤ bits.count true := by
  induction slots generalizing bits with
  | nil => exact Nat.le_refl _
  | cons i rest ih => exact Nat.le_trans (ih (bits.set i false)) (count_set_false_le bits i)

@[simp] theorem length_setAll (value : Bool) (bits : List Bool) (slots : List Nat) :
    (setAll value bits slots).length = bits.length := by
  induction slots generalizing bits with
  | nil => rfl
  | cons i rest ih => exact (ih (bits.set i value)).trans (List.length_set ..)

theorem getElem?_setAll_of_notMem (value : Bool) (bits : List Bool) (slots : List Nat) (i : Nat)
    (other : i ∉ slots) : (setAll value bits slots)[i]? = bits[i]? := by
  induction slots generalizing bits with
  | nil => rfl
  | cons j rest ih =>
    obtain ⟨here, later⟩ := List.ne_and_not_mem_of_not_mem_cons other
    exact (ih (bits.set j value) later).trans (List.getElem?_set_ne (Ne.symm here))

theorem getElem?_setAll_of_mem (value : Bool) (bits : List Bool) (slots : List Nat) (i : Nat)
    (member : i ∈ slots) (inside : i < bits.length) :
    (setAll value bits slots)[i]? = some value := by
  induction slots generalizing bits with
  | nil => cases member
  | cons j rest ih =>
    change (setAll value (bits.set j value) rest)[i]? = some value
    by_cases later : i ∈ rest
    · exact ih (bits.set j value) later (by rwa [List.length_set])
    · have here : i = j := (List.mem_cons.mp member).resolve_right later
      subst here
      rw [getElem?_setAll_of_notMem _ _ _ _ later, List.getElem?_set_self inside]

/-! ### Taking free slots -/

theorem findNext_some {bits : List Bool} {start i : Nat} (found : findNext bits start = some i) :
    start ≤ i ∧ bits[i]? = some true ∧ ∀ j, start ≤ j → j < i → bits[j]? ≠ some true := by
  obtain ⟨k, first, rfl⟩ := Option.map_eq_some_iff.mp found
  obtain ⟨inside, set, before⟩ := List.findIdx?_eq_some_iff_getElem.mp first
  rw [List.getElem_drop] at set
  rw [List.length_drop] at inside
  refine ⟨Nat.le_add_right _ _, List.getElem?_eq_some_iff.mpr ⟨by omega, set⟩, ?_⟩
  intro j low high free
  obtain ⟨d, rfl⟩ := Nat.exists_eq_add_of_le low
  have clear := before d (by omega)
  rw [List.getElem_drop] at clear
  exact clear (List.getElem?_eq_some_iff.mp free).2

/-- One set bit less behind the first one. -/
theorem count_of_findIdx? (bits : List Bool) (positive : 0 < bits.count true) :
    ∃ k, bits.findIdx? id = some k ∧ bits.count true = (bits.drop (k + 1)).count true + 1 := by
  induction bits with
  | nil => simp at positive
  | cons bit rest ih =>
    cases bit with
    | true => exact ⟨0, by simp [List.findIdx?_cons], by simp⟩
    | false =>
      obtain ⟨k, found, counts⟩ := ih (by simpa using positive)
      refine ⟨k + 1, by simp [List.findIdx?_cons, found], ?_⟩
      simpa using counts

theorem take_total (n : Nat) (bits : List Bool) (start : Nat)
    (enough : n ≤ (bits.drop start).count true) :
    ∃ r, take n (findNext bits start) bits = some r := by
  induction n generalizing bits start with
  | zero => exact ⟨([], bits), by rw [take]⟩
  | succ n ih =>
    obtain ⟨k, found, counts⟩ := count_of_findIdx? (bits.drop start) (by omega)
    have next : findNext bits start = some (start + k) := by rw [findNext, found, Option.map_some]
    -- behind the slot that is found, one set bit less is left
    have behind : ((bits.set (start + k) false).drop (start + k + 1)).count true ≥ n := by
      rw [List.drop_set_of_lt (Nat.lt_succ_self (start + k)), Nat.succ_eq_add_one]
      rw [List.drop_drop] at counts
      have same : start + (k + 1) = start + k + 1 := by omega
      rw [same] at counts
      omega
    obtain ⟨r, taken⟩ := ih (bits.set (start + k) false) (start + k + 1) behind
    refine ⟨((start + k) :: r.1, r.2), ?_⟩
    rw [next, take, taken, Option.map_some]

/-- What is taken was free, and nothing else changes. -/
structure Taken (start : Nat) (bits : List Bool) (slots : List Nat) (bits' : List Bool) : Prop where
  ascending : slots.Pairwise (· < ·)
  free : ∀ i ∈ slots, start ≤ i ∧ bits[i]? = some true
  /-- No free slot is passed over. -/
  first : ∀ i ∈ slots, ∀ j, start ≤ j → j < i → bits[j]? = some true → j ∈ slots
  rest : bits' = setAll false bits slots

theorem take_spec {n start : Nat} {bits bits' : List Bool} {slots : List Nat}
    (took : take n (findNext bits start) bits = some (slots, bits')) :
    slots.length = n ∧ Taken start bits slots bits' := by
  induction n generalizing bits start slots with
  | zero =>
    rw [take, Option.some.injEq, Prod.mk.injEq] at took
    obtain ⟨rfl, rfl⟩ := took
    exact ⟨rfl, List.Pairwise.nil, (fun i member => absurd member List.not_mem_nil),
      (fun i member => absurd member List.not_mem_nil), rfl⟩
  | succ n ih =>
    cases next : findNext bits start with
    | none =>
      rw [next, take] at took
      cases took
    | some i =>
      rw [next, take] at took
      obtain ⟨⟨later, left⟩, took', same⟩ := Option.map_eq_some_iff.mp took
      rw [Prod.mk.injEq] at same
      obtain ⟨rfl, rfl⟩ := same
      obtain ⟨low, free, before⟩ := findNext_some next
      obtain ⟨length, rest⟩ := ih took'
      -- the later slots lie behind the bit that has been cleared
      have behind : ∀ j ∈ later, i + 1 ≤ j ∧ bits[j]? = some true := by
        intro j member
        obtain ⟨above, set⟩ := rest.free j member
        rw [List.getElem?_set_ne (by omega)] at set
        exact ⟨above, set⟩
      refine ⟨by rw [List.length_cons, length], ?_, ?_, ?_, rest.rest⟩
      · rw [List.pairwise_cons]
        exact ⟨fun j member => (behind j member).1, rest.ascending⟩
      · intro j member
        rcases List.mem_cons.mp member with rfl | member
        · exact ⟨low, free⟩
        · obtain ⟨above, set⟩ := behind j member
          exact ⟨by omega, set⟩
      · intro j member k above less freeK
        rcases Nat.lt_trichotomy k i with earlier | same | later'
        · exact absurd freeK (before k above earlier)
        · rw [same]
          exact List.mem_cons_self
        · have inLater : j ∈ later := by
            rcases List.mem_cons.mp member with rfl | inLater
            · omega
            · exact inLater
          apply List.mem_cons_of_mem
          apply rest.first j inLater k (by omega) less
          rwa [List.getElem?_set_ne (by omega)]

theorem take_length {n : Nat} {bits bits' : List Bool} {slots : List Nat} {start : Nat}
    (took : take n (findNext bits start) bits = some (slots, bits')) : slots.length = n :=
  (take_spec took).1

theorem count_setAll_false {bits : List Bool} {slots : List Nat} (distinct : slots.Nodup)
    (free : ∀ i ∈ slots, bits[i]? = some true) :
    (setAll false bits slots).count true + slots.length = bits.count true := by
  induction slots generalizing bits with
  | nil => rfl
  | cons i rest ih =>
    obtain ⟨fresh, distinct'⟩ := List.nodup_cons.mp distinct
    obtain ⟨inside, set⟩ := List.getElem?_eq_some_iff.mp (free i List.mem_cons_self)
    -- the slots differ, so clearing the first leaves the others set
    have others : ∀ j ∈ rest, (bits.set i false)[j]? = some true := by
      intro j member
      have other : i ≠ j := by
        rintro rfl
        exact fresh member
      rw [List.getElem?_set_ne other]
      exact free j (List.mem_cons_of_mem _ member)
    have later := ih distinct' others
    have one := List.count_set (b := true) (a := false) inside
    have positive : 0 < bits.count true := List.count_pos_iff.mpr (set ▸ List.getElem_mem inside)
    have apart : ¬ (false == true) = true := by decide
    rw [set, if_pos (beq_self_eq_true true), if_neg apart] at one
    rw [List.length_cons]
    change (setAll false (bits.set i false) rest).count true + (rest.length + 1) = _
    omega

/-- There are as many free slots as can be listed. -/
theorem length_le_count {bits : List Bool} {slots : List Nat} (distinct : slots.Nodup)
    (free : ∀ i ∈ slots, bits[i]? = some true) : slots.length ≤ bits.count true := by
  rw [← count_setAll_false distinct free]
  exact Nat.le_add_left _ _

/-! ### Slots in use -/

theorem Holds.perm {bits : List Bool} {used used' : List Nat} (holds : Holds bits used)
    (permuted : used'.Perm used) : Holds bits used' := by
  constructor
  · exact permuted.nodup_iff.mpr holds.distinct
  · exact fun i member => holds.taken i (permuted.mem_iff.mp member)

theorem Holds.below {bits : List Bool} {used : List Nat} (holds : Holds bits used) {i : Nat}
    (member : i ∈ used) : i < bits.length :=
  (List.getElem?_eq_some_iff.mp (holds.taken i member)).1

/-- Bits that are cleared stay cleared: what is held is held on. -/
theorem Holds.mono {bits bits' : List Bool} {used : List Nat} (holds : Holds bits used)
    (kept : ∀ i : Nat, bits[i]? = some false → bits'[i]? = some false) : Holds bits' used := by
  constructor
  · exact holds.distinct
  · exact fun i member => kept i (holds.taken i member)

theorem Holds.resize {bits : List Bool} {used : List Nat} (holds : Holds bits used) {count : Nat}
    (grows : bits.length ≤ count) : Holds (Bitmap.resize bits count) used := by
  apply holds.mono
  intro i cleared
  obtain ⟨inside, -⟩ := List.getElem?_eq_some_iff.mp cleared
  rw [getElem?_resize bits count i inside grows, cleared]

theorem Holds.set_false {bits : List Bool} {used : List Nat} (holds : Holds bits used) (i : Nat) :
    Holds (bits.set i false) used := by
  apply holds.mono
  intro j cleared
  by_cases same : i = j
  · subst same
    exact List.getElem?_set_self (List.getElem?_eq_some_iff.mp cleared).1
  · rw [List.getElem?_set_ne same, cleared]

theorem getElem?_setAll_false {bits : List Bool} (slots : List Nat) {i : Nat}
    (cleared : bits[i]? = some false) : (setAll false bits slots)[i]? = some false := by
  by_cases member : i ∈ slots
  · exact getElem?_setAll_of_mem _ _ _ _ member (List.getElem?_eq_some_iff.mp cleared).1
  · rw [getElem?_setAll_of_notMem _ _ _ _ member, cleared]

/-- Free slots can be given to one more user. -/
theorem Holds.append {bits : List Bool} {used slots : List Nat} (holds : Holds bits used)
    (distinct : slots.Nodup) (free : ∀ i ∈ slots, bits[i]? = some true) :
    Holds (setAll false bits slots) (used ++ slots) := by
  constructor
  · refine List.Nodup.append holds.distinct distinct ?_
    intro i inUse member
    have cleared := holds.taken i inUse
    rw [free i member] at cleared
    cases cleared
  · intro i member
    rcases List.mem_append.mp member with inUse | member
    · exact getElem?_setAll_false slots (holds.taken i inUse)
    · exact getElem?_setAll_of_mem _ _ _ _ member (List.getElem?_eq_some_iff.mp (free i member)).1

/-- Slots of one user can be given back. -/
theorem Holds.release {bits : List Bool} {used slots : List Nat} (holds : Holds bits (used ++ slots)) :
    Holds (setAll true bits slots) used := by
  obtain ⟨distinct, -, apart⟩ := List.nodup_append'.mp holds.distinct
  constructor
  · exact distinct
  · intro i inUse
    rw [getElem?_setAll_of_notMem _ _ _ _ (apart inUse)]
    exact holds.taken i (List.mem_append_left _ inUse)

theorem Taken.nodup {start : Nat} {bits bits' : List Bool} {slots : List Nat}
    (taken : Taken start bits slots bits') : slots.Nodup :=
  taken.ascending.imp (fun less => Nat.ne_of_lt less)

theorem Holds.take {bits bits' : List Bool} {used slots : List Nat} {start : Nat}
    (holds : Holds bits used) (taken : Taken start bits slots bits') :
    Holds bits' (used ++ slots) := by
  rw [taken.rest]
  exact holds.append taken.nodup (fun i member => (taken.free i member).2)

end LlvmLd.Bitmap
