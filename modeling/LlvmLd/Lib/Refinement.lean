import Mathlib.Data.List.GetD
import LlvmLd.Lib.Runs

/-!
A list kept as consecutive groups, each known by the index where it ends, and the refinement that
splits every group by comparing its elements with the first one left.
-/

namespace LlvmLd.Refinement

variable {α κ : Type*}

/-- The groups with their end indices. -/
abbrev Groups (α : Type*) := List (Nat × List α)

def members (gs : Groups α) : List α := gs.flatMap Prod.snd

/-- The groups are not empty and stand one behind the other from `start` on. -/
def Placed : Nat → Groups α → Prop
  | _, [] => True
  | start, p :: gs => p.2 ≠ [] ∧ p.1 = start + p.2.length ∧ Placed p.1 gs

def SameGroup (gs : Groups α) (a b : α) : Prop := ∃ p ∈ gs, a ∈ p.2 ∧ b ∈ p.2

@[simp] theorem members_nil : members ([] : Groups α) = [] := rfl

@[simp] theorem members_cons (p : Nat × List α) (gs : Groups α) :
    members (p :: gs) = p.2 ++ members gs := by simp [members]

@[simp] theorem members_append (gs gs' : Groups α) :
    members (gs ++ gs') = members gs ++ members gs' := by simp [members]

theorem mem_members {gs : Groups α} {a : α} : a ∈ members gs ↔ ∃ p ∈ gs, a ∈ p.2 := by
  simp [members]

theorem SameGroup.symm {gs : Groups α} {a b : α} (same : SameGroup gs a b) :
    SameGroup gs b a := by
  obtain ⟨p, member, left, right⟩ := same
  exact ⟨p, member, right, left⟩

theorem SameGroup.left {gs : Groups α} {a b : α} (same : SameGroup gs a b) :
    a ∈ members gs := by
  obtain ⟨p, member, left, -⟩ := same
  exact mem_members.mpr ⟨p, member, left⟩

theorem placed_append (start : Nat) (gs gs' : Groups α) :
    Placed start (gs ++ gs') ↔
      Placed start gs ∧ Placed (start + (members gs).length) gs' := by
  induction gs generalizing start with
  | nil => simp [Placed]
  | cons p gs ih =>
    simp only [List.cons_append, Placed, members_cons, List.length_append]
    rw [ih]
    constructor
    · rintro ⟨some, place, here, behind⟩
      refine ⟨⟨some, place, here⟩, ?_⟩
      rwa [place, Nat.add_assoc] at behind
    · rintro ⟨⟨some, place, here⟩, behind⟩
      refine ⟨some, place, here, ?_⟩
      rwa [place, Nat.add_assoc]

theorem placed_bounds (start : Nat) (gs : Groups α) (placed : Placed start gs) (p : Nat × List α)
    (member : p ∈ gs) :
    start + p.2.length ≤ p.1 ∧ p.1 ≤ start + (members gs).length ∧ p.2 ≠ [] := by
  induction gs generalizing start with
  | nil => cases member
  | cons q gs ih =>
    obtain ⟨some, place, behind⟩ := placed
    simp only [members_cons, List.length_append]
    rcases List.mem_cons.mp member with rfl | later
    · exact ⟨by omega, by omega, some⟩
    · obtain ⟨low, high, some'⟩ := ih q.1 behind later
      exact ⟨by omega, by omega, some'⟩

theorem placed_positive (start : Nat) (gs : Groups α) (placed : Placed start gs)
    (p : Nat × List α) (member : p ∈ gs) : start < p.1 := by
  obtain ⟨low, -, some⟩ := placed_bounds start gs placed p member
  have := List.length_pos_iff.mpr some
  omega

/-- The end index tells the groups apart. -/
theorem placed_injective (start : Nat) (gs : Groups α) (placed : Placed start gs)
    (p q : Nat × List α) (left : p ∈ gs) (right : q ∈ gs) (same : p.1 = q.1) : p = q := by
  induction gs generalizing start with
  | nil => cases left
  | cons g gs ih =>
    obtain ⟨some, place, behind⟩ := placed
    rcases List.mem_cons.mp left with rfl | left' <;>
      rcases List.mem_cons.mp right with rfl | right'
    · rfl
    · have := placed_positive _ gs behind q right'
      omega
    · have := placed_positive _ gs behind p left'
      omega
    · exact ih g.1 behind left' right'

theorem group_unique (gs : Groups α) (distinct : (members gs).Nodup) (a : α)
    (p q : Nat × List α) (left : p ∈ gs) (right : q ∈ gs) (inLeft : a ∈ p.2)
    (inRight : a ∈ q.2) : p = q := by
  induction gs with
  | nil => cases left
  | cons g gs ih =>
    rw [members_cons, List.nodup_append] at distinct
    obtain ⟨-, distinct, apart⟩ := distinct
    rcases List.mem_cons.mp left with rfl | left' <;>
      rcases List.mem_cons.mp right with rfl | right'
    · rfl
    · exact absurd rfl (apart a inLeft a (mem_members.mpr ⟨q, right', inRight⟩))
    · exact absurd rfl (apart a inRight a (mem_members.mpr ⟨p, left', inLeft⟩))
    · exact ih distinct left' right'

/-- What stands between the ends of a group is in the group. -/
theorem placed_getD (before : List α) (gs : Groups α) (placed : Placed before.length gs)
    (p : Nat × List α) (member : p ∈ gs) (i : Nat) (low : p.1 - p.2.length ≤ i) (high : i < p.1)
    (d : α) : (before ++ members gs).getD i d ∈ p.2 := by
  induction gs generalizing before with
  | nil => cases member
  | cons q gs ih =>
    obtain ⟨some, place, behind⟩ := placed
    -- the groups behind start where this one ends
    have reach : (before ++ q.2).length = q.1 := by
      rw [List.length_append]
      omega
    rw [members_cons, ← List.append_assoc]
    rcases List.mem_cons.mp member with rfl | later
    · rw [List.getD_append _ _ _ _ (by omega), List.getD_append_right _ _ _ _ (by omega)]
      have inside : i - before.length < p.2.length := by omega
      rw [List.getD_eq_getElem _ _ inside]
      exact List.getElem_mem inside
    · exact ih (before ++ q.2) (by rw [reach]; exact behind) later

theorem length_le_members (start : Nat) (gs : Groups α) (placed : Placed start gs) :
    gs.length ≤ (members gs).length := by
  induction gs generalizing start with
  | nil => simp
  | cons p gs ih =>
    obtain ⟨some, -, behind⟩ := placed
    have := List.length_pos_iff.mpr some
    have := ih p.1 behind
    simp only [members_cons, List.length_append, List.length_cons]
    omega

/-! ### Splitting one group -/

/-- Takes the first element and those equal to it out, in their order, and repeats with the rest. -/
def splitLoop (eq : α → α → Bool) : Nat → Nat → List α → Groups α
  | 0, _, _ => []
  | _, _, [] => []
  | fuel + 1, start, c :: cs =>
    let group := c :: cs.filter (eq c)
    let mid := start + group.length
    (mid, group) :: splitLoop eq fuel mid (cs.filter (fun s => !eq c s))

def split (eq : α → α → Bool) (start : Nat) (l : List α) : Groups α :=
  splitLoop eq l.length start l

variable (eq : α → α → Bool)

theorem splitLoop_placed (fuel start : Nat) (l : List α) : Placed start (splitLoop eq fuel start l) := by
  induction fuel generalizing start l with
  | zero => simp [splitLoop, Placed]
  | succ fuel ih =>
    cases l with
    | nil => simp [splitLoop, Placed]
    | cons c cs =>
      simp only [splitLoop, Placed]
      exact ⟨List.cons_ne_nil _ _, trivial, ih _ _⟩

theorem splitLoop_perm (fuel start : Nat) (l : List α) (enough : l.length ≤ fuel) :
    (members (splitLoop eq fuel start l)).Perm l := by
  induction fuel generalizing start l with
  | zero =>
    have : l = [] := List.length_eq_zero_iff.mp (by omega)
    simp [splitLoop, this]
  | succ fuel ih =>
    cases l with
    | nil => simp [splitLoop]
    | cons c cs =>
      have shorter := List.length_filter_le (fun s => !eq c s) cs
      simp only [List.length_cons] at enough
      simp only [splitLoop, members_cons, List.cons_append]
      apply List.Perm.cons
      have rest := ih (start + (c :: cs.filter (eq c)).length) (cs.filter (fun s => !eq c s))
        (by omega)
      exact (List.Perm.append_left _ rest).trans (List.filter_append_perm (eq c) cs)

theorem splitLoop_related (fuel start : Nat) (l : List α) (p : Nat × List α)
    (member : p ∈ splitLoop eq fuel start l) :
    ∃ h ∈ p.2, ∀ x ∈ p.2, x = h ∨ eq h x = true := by
  induction fuel generalizing start l with
  | zero => simp [splitLoop] at member
  | succ fuel ih =>
    cases l with
    | nil => simp [splitLoop] at member
    | cons c cs =>
      simp only [splitLoop, List.mem_cons] at member
      rcases member with rfl | later
      · refine ⟨c, List.mem_cons_self, ?_⟩
        intro x inside
        rcases List.mem_cons.mp inside with here | filtered
        · exact Or.inl here
        · exact Or.inr (List.mem_filter.mp filtered).2
      · exact ih _ _ later

theorem splitLoop_ne_nil (fuel start : Nat) (l : List α) (enough : l.length ≤ fuel)
    (some : l ≠ []) : splitLoop eq fuel start l ≠ [] := by
  cases l with
  | nil => exact absurd rfl some
  | cons c cs =>
    cases fuel with
    | zero => simp at enough
    | succ fuel => simp [splitLoop]

theorem split_placed (start : Nat) (l : List α) : Placed start (split eq start l) :=
  splitLoop_placed eq _ start l

theorem split_perm (start : Nat) (l : List α) : (members (split eq start l)).Perm l :=
  splitLoop_perm eq _ start l (Nat.le_refl _)

theorem split_related (start : Nat) (l : List α) (p : Nat × List α)
    (member : p ∈ split eq start l) : ∃ h ∈ p.2, ∀ x ∈ p.2, x = h ∨ eq h x = true :=
  splitLoop_related eq _ start l p member

theorem split_ne_nil (start : Nat) (l : List α) (some : l ≠ []) : split eq start l ≠ [] :=
  splitLoop_ne_nil eq _ start l (Nat.le_refl _) some

/-- When nothing is left behind, the group stays as it was, in the same order. -/
theorem split_single (start : Nat) (l : List α) (one : (split eq start l).length = 1) :
    split eq start l = [(start + l.length, l)] := by
  cases l with
  | nil => simp [split, splitLoop] at one
  | cons c cs =>
    simp only [split, List.length_cons, splitLoop] at one ⊢
    have rest : splitLoop eq cs.length (start + ((cs.filter (eq c)).length + 1))
        (cs.filter (fun s => !eq c s)) = [] := List.length_eq_zero_iff.mp (by omega)
    -- nothing is left for a second group, so all elements are equal to the first
    have none : cs.filter (fun s => !eq c s) = [] := by
      by_contra some
      exact splitLoop_ne_nil eq _ _ _ (List.length_filter_le _ _) some rest
    have all : cs.filter (eq c) = cs := by
      rw [List.filter_eq_self]
      intro a inside
      by_contra other
      have : a ∈ cs.filter (fun s => !eq c s) := List.mem_filter.mpr ⟨inside, by simp [other]⟩
      rw [none] at this
      cases this
    rw [rest, all]

/-! ### Splitting all groups -/

def refine (gs : Groups α) : Groups α :=
  gs.flatMap (fun p => split eq (p.1 - p.2.length) p.2)

theorem refine_cons (p : Nat × List α) (gs : Groups α) :
    refine eq (p :: gs) = split eq (p.1 - p.2.length) p.2 ++ refine eq gs := by
  simp [refine]

theorem refine_perm (gs : Groups α) : (members (refine eq gs)).Perm (members gs) := by
  induction gs with
  | nil => simp [refine]
  | cons p gs ih =>
    rw [refine_cons, members_append, members_cons]
    exact (split_perm eq _ _).append ih

theorem refine_placed (start : Nat) (gs : Groups α) (placed : Placed start gs) :
    Placed start (refine eq gs) := by
  induction gs generalizing start with
  | nil => simp [refine, Placed]
  | cons p gs ih =>
    obtain ⟨some, place, behind⟩ := placed
    rw [refine_cons, placed_append]
    have from_start : p.1 - p.2.length = start := by omega
    rw [from_start, (split_perm eq start p.2).length_eq, ← place]
    exact ⟨split_placed eq start p.2, ih p.1 behind⟩

theorem refine_group (gs : Groups α) (p : Nat × List α) (member : p ∈ refine eq gs) :
    (∃ h ∈ p.2, ∀ x ∈ p.2, x = h ∨ eq h x = true) ∧ ∃ q ∈ gs, ∀ x ∈ p.2, x ∈ q.2 := by
  obtain ⟨q, inside, piece⟩ := List.mem_flatMap.mp member
  refine ⟨split_related eq _ _ p piece, q, inside, ?_⟩
  intro x here
  exact (split_perm eq _ q.2).mem_iff.mp (mem_members.mpr ⟨p, piece, here⟩)

theorem refine_coarser (gs : Groups α) (a b : α) (same : SameGroup (refine eq gs) a b) :
    SameGroup gs a b := by
  obtain ⟨p, member, left, right⟩ := same
  obtain ⟨-, q, inside, within⟩ := refine_group eq gs p member
  exact ⟨q, inside, within a left, within b right⟩

/-- Both elements were compared with one and the same third, so they have its key. -/
theorem refine_key {β : Type*} (key : α → β) (gs : Groups α)
    (keyed : ∀ h x, SameGroup gs h x → eq h x = true → key h = key x) (a b : α)
    (same : SameGroup (refine eq gs) a b) : key a = key b := by
  obtain ⟨p, member, left, right⟩ := same
  obtain ⟨⟨h, first, related⟩, q, inside, within⟩ := refine_group eq gs p member
  have toHead : ∀ x ∈ p.2, key x = key h := by
    intro x here
    rcases related x here with self | equal
    · rw [self]
    · exact (keyed h x ⟨q, inside, within h first, within x here⟩ equal).symm
  rw [toHead a left, toHead b right]

theorem length_refine (start : Nat) (gs : Groups α) (placed : Placed start gs) :
    gs.length ≤ (refine eq gs).length := by
  induction gs generalizing start with
  | nil => simp
  | cons p gs ih =>
    obtain ⟨some, -, behind⟩ := placed
    have := ih p.1 behind
    have := List.length_pos_iff.mpr (split_ne_nil eq (p.1 - p.2.length) p.2 some)
    rw [refine_cons, List.length_append, List.length_cons]
    omega

/-- Whether some group was split, as its worker reports it. -/
def splits (gs : Groups α) : Bool :=
  gs.any (fun p => decide (1 < (split eq (p.1 - p.2.length) p.2).length))

theorem splits_cons (p : Nat × List α) (gs : Groups α) :
    splits eq (p :: gs) =
      (decide (1 < (split eq (p.1 - p.2.length) p.2).length) || splits eq gs) := by
  simp [splits]

theorem refine_fixed (start : Nat) (gs : Groups α) (placed : Placed start gs)
    (quiet : splits eq gs = false) : refine eq gs = gs := by
  induction gs generalizing start with
  | nil => rfl
  | cons p gs ih =>
    obtain ⟨some, place, behind⟩ := placed
    rw [splits_cons, Bool.or_eq_false_iff, decide_eq_false_iff_not] at quiet
    have positive := List.length_pos_iff.mpr (split_ne_nil eq (p.1 - p.2.length) p.2 some)
    have whole := split_single eq (p.1 - p.2.length) p.2 (by omega)
    have back : p.1 - p.2.length + p.2.length = p.1 := by omega
    rw [refine_cons, whole, back, ih p.1 behind quiet.2]
    rfl

theorem refine_grows (start : Nat) (gs : Groups α) (placed : Placed start gs)
    (loud : splits eq gs = true) : gs.length < (refine eq gs).length := by
  induction gs generalizing start with
  | nil => simp [splits] at loud
  | cons p gs ih =>
    obtain ⟨some, -, behind⟩ := placed
    rw [splits_cons, Bool.or_eq_true, decide_eq_true_eq] at loud
    have positive := List.length_pos_iff.mpr (split_ne_nil eq (p.1 - p.2.length) p.2 some)
    rw [refine_cons, List.length_append, List.length_cons]
    rcases loud with here | later
    · have := length_refine eq p.1 gs behind
      omega
    · have := ih p.1 behind later
      omega

/-! ### Groups found as runs -/

/-- The part of the list between two indices. -/
def slice (l : List α) (start stop : Nat) : List α := (l.drop start).take (stop - start)

def cutOut (l : List α) (ranges : List (Nat × Nat)) : Groups α :=
  ranges.map (fun r => (r.2, slice l r.1 r.2))

theorem length_slice (l : List α) (start stop : Nat) (inside : stop ≤ l.length) :
    (slice l start stop).length = stop - start := by
  rw [slice, List.length_take, List.length_drop]
  omega

theorem slice_append (l : List α) (start mid stop : Nat) (low : start ≤ mid) (high : mid ≤ stop) :
    slice l start mid ++ slice l mid stop = slice l start stop := by
  have back : l.drop mid = (l.drop start).drop (mid - start) := by
    rw [List.drop_drop]
    congr 1
    omega
  have total : stop - start = (mid - start) + (stop - mid) := by omega
  rw [slice, slice, slice, back, total, List.take_add]

variable [DecidableEq κ] (key : Nat → κ)

theorem cutOut_runs (l : List α) (start stop : Nat) (inside : stop ≤ l.length)
    (ordered : start ≤ stop) :
    Placed start (cutOut l (Runs.runs key start stop)) ∧
      members (cutOut l (Runs.runs key start stop)) = slice l start stop := by
  -- by what is left behind the first run
  induction gap : stop - start using Nat.strongRecOn generalizing start with
  | _ gap' ih =>
    by_cases more : start < stop
    · obtain ⟨low, high, -, -⟩ := @Runs.boundary_spec _ _ key start stop more
      obtain ⟨placed, content⟩ := ih _ (by omega) (Runs.boundary key start stop) high rfl
      have size := length_slice l start (Runs.boundary key start stop) (by omega)
      rw [Runs.runs_cons start stop more]
      simp only [cutOut, List.map_cons, Placed, members_cons] at placed content ⊢
      rw [content, slice_append l _ _ _ (by omega) high, size]
      refine ⟨⟨?_, by omega, placed⟩, rfl⟩
      intro none
      rw [none, List.length_nil] at size
      omega
    · have same : start = stop := by omega
      rw [Runs.runs_empty start stop (by omega)]
      simp [cutOut, Placed, slice, same]

/-- Groups whose end index can be read off their elements are found again as runs. -/
theorem cutOut_marked (mark : Nat → κ) (before : List α) (gs : Groups α)
    (placed : Placed before.length gs)
    (marked : ∀ p ∈ gs, ∀ i, p.1 - p.2.length ≤ i → i < p.1 → key i = mark p.1)
    (apart : ∀ p ∈ gs, ∀ q ∈ gs, mark p.1 = mark q.1 → p.1 = q.1) :
    cutOut (before ++ members gs)
      (Runs.runs key before.length (before ++ members gs).length) = gs := by
  induction gs generalizing before with
  | nil => simp [cutOut, Runs.runs_empty]
  | cons p gs ih =>
    obtain ⟨some, place, behind⟩ := placed
    have positive := List.length_pos_iff.mpr some
    have here := marked p List.mem_cons_self
    have total : (before ++ members (p :: gs)).length = p.1 + (members gs).length := by
      simp only [List.length_append, members_cons]
      omega
    -- A run goes on as long as the mark stays, and the next group has another mark.
    have found : Runs.boundary key before.length (p.1 + (members gs).length) = p.1 := by
      apply Runs.boundary_unique
      · omega
      · omega
      · intro j first last
        rw [here j (by omega) last, here before.length (by omega) (by omega)]
      · intro short same
        cases gs with
        | nil => simp at short
        | cons q gs =>
          obtain ⟨some', place', -⟩ := behind
          have positive' := List.length_pos_iff.mpr some'
          rw [marked q (by simp) p.1 (by omega) (by omega),
            here before.length (by omega) (by omega)] at same
          have := apart q (by simp) p List.mem_cons_self same
          omega
    have assoc : before ++ members (p :: gs) = (before ++ p.2) ++ members gs := by
      rw [members_cons, List.append_assoc]
    have reach : (before ++ p.2).length = p.1 := by
      rw [List.length_append]
      omega
    -- The elements in front grow by this group.
    have rest := ih (before ++ p.2) (by rw [reach]; exact behind)
      (fun q inside => marked q (List.mem_cons_of_mem _ inside))
      (fun q inside r inside' =>
        apart q (List.mem_cons_of_mem _ inside) r (List.mem_cons_of_mem _ inside'))
    rw [total, Runs.runs_cons _ _ (by omega), found]
    simp only [cutOut, List.map_cons]
    congr 1
    · have first : slice (before ++ members (p :: gs)) before.length p.1 = p.2 := by
        have size : p.1 - before.length = p.2.length := by omega
        rw [slice, List.drop_left, members_cons, size, List.take_left]
      rw [first]
    · rw [← assoc, total, reach] at rest
      exact rest

end LlvmLd.Refinement
