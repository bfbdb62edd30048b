import Mathlib.Algebra.Order.Ring.Int
import Mathlib.Data.List.Sort

/-!
# Strict weak orderings

What a comparator has to be on the elements of a range before a sort promises anything about it,
what a stable sort then promises, and when a comparator that switches between two orders is one.
-/

namespace LlvmLd.WeakOrder

variable {α β : Type*}

/-- Neither of the two comes before the other. -/
def Incomparable (less : α → α → Bool) (a b : α) : Prop := less a b = false ∧ less b a = false

/-- `less` is a strict weak ordering of the elements of `range`. -/
structure StrictWeakOn (less : α → α → Bool) (range : List α) : Prop where
  irrefl : ∀ a ∈ range, less a a = false
  trans : ∀ a ∈ range, ∀ b ∈ range, ∀ c ∈ range,
    less a b = true → less b c = true → less a c = true
  incomparable : ∀ a ∈ range, ∀ b ∈ range, ∀ c ∈ range,
    Incomparable less a b → Incomparable less b c → Incomparable less a c

variable {less : α → α → Bool} {range : List α}

theorem StrictWeakOn.asymm (weak : StrictWeakOn less range) {a b : α} (a_mem : a ∈ range)
    (b_mem : b ∈ range) (before : less a b = true) : less b a = false := by
  by_contra back
  have both := weak.trans a a_mem b b_mem a a_mem before (by simpa using back)
  rw [weak.irrefl a a_mem] at both
  cases both

/-- Whatever stands between the two is on one side of every third element. -/
theorem StrictWeakOn.either (weak : StrictWeakOn less range) {a b c : α} (a_mem : a ∈ range)
    (b_mem : b ∈ range) (c_mem : c ∈ range) (before : less a c = true) :
    less a b = true ∨ less b c = true := by
  by_contra neither
  obtain ⟨not_ab, not_bc⟩ := not_or.mp neither
  rw [Bool.not_eq_true] at not_ab not_bc
  cases ba : less b a with
  | true =>
    have bc := weak.trans b b_mem a a_mem c c_mem ba before
    rw [not_bc] at bc
    cases bc
  | false =>
    cases cb : less c b with
    | true =>
      have ab := weak.trans a a_mem c c_mem b b_mem before cb
      rw [not_ab] at ab
      cases ab
    | false =>
      have ac := weak.incomparable a a_mem b b_mem c c_mem ⟨not_ab, ba⟩ ⟨not_bc, cb⟩
      rw [ac.1] at before
      cases before

theorem strictWeakOn_of (asymm : ∀ a ∈ range, ∀ b ∈ range, less a b = true → less b a = false)
    (either : ∀ a ∈ range, ∀ b ∈ range, ∀ c ∈ range,
      less a c = true → less a b = true ∨ less b c = true) :
    StrictWeakOn less range := by
  -- the third law says that not being less is transitive
  have step : ∀ a ∈ range, ∀ b ∈ range, ∀ c ∈ range,
      less a b = false → less b c = false → less a c = false := by
    intro a a_mem b b_mem c c_mem ab bc
    by_contra ac
    rcases either a a_mem b b_mem c c_mem (by simpa using ac) with h | h
    · rw [ab] at h
      cases h
    · rw [bc] at h
      cases h
  constructor
  · intro a a_mem
    by_contra self
    have same := asymm a a_mem a a_mem (by simpa using self)
    exact self same
  · intro a a_mem b b_mem c c_mem ab bc
    rcases either a a_mem c c_mem b b_mem ab with ac | cb
    · exact ac
    · rw [asymm b b_mem c c_mem bc] at cb
      cases cb
  · intro a a_mem b b_mem c c_mem ab bc
    exact ⟨step a a_mem b b_mem c c_mem ab.1 bc.1, step c c_mem b b_mem a a_mem bc.2 ab.2⟩

theorem StrictWeakOn.subset {other : List α} (weak : StrictWeakOn less range)
    (inside : other ⊆ range) : StrictWeakOn less other where
  irrefl := fun a a_mem => weak.irrefl a (inside a_mem)
  trans := fun a a_mem b b_mem c c_mem =>
    weak.trans a (inside a_mem) b (inside b_mem) c (inside c_mem)
  incomparable := fun a a_mem b b_mem c c_mem =>
    weak.incomparable a (inside a_mem) b (inside b_mem) c (inside c_mem)

/-- Elements compared by what `f` makes of them. -/
theorem strictWeakOn_map (f : β → α) (items : List β) :
    StrictWeakOn less (items.map f) ↔ StrictWeakOn (fun a b => less (f a) (f b)) items := by
  constructor
  · intro weak
    constructor
    · intro a a_mem
      exact weak.irrefl _ (List.mem_map_of_mem a_mem)
    · intro a a_mem b b_mem c c_mem
      exact weak.trans _ (List.mem_map_of_mem a_mem) _ (List.mem_map_of_mem b_mem) _
        (List.mem_map_of_mem c_mem)
    · intro a a_mem b b_mem c c_mem
      exact weak.incomparable _ (List.mem_map_of_mem a_mem) _ (List.mem_map_of_mem b_mem) _
        (List.mem_map_of_mem c_mem)
  · intro weak
    constructor
    · simpa using weak.irrefl
    · simpa using weak.trans
    · simpa [Incomparable] using weak.incomparable

/-! ### Comparators that compare a number first -/

def thenBy (key : α → Nat) (less : α → α → Bool) (a b : α) : Bool :=
  if key a ≠ key b then key a < key b else less a b

theorem thenBy_iff (key : α → Nat) (a b : α) : thenBy key less a b = true ↔
    key a < key b ∨ key a = key b ∧ less a b = true := by
  unfold thenBy
  split
  · next differ =>
    rw [decide_eq_true_eq]
    omega
  · next same => simp [not_not.mp same]

theorem strictWeakOn_thenBy (key : α → Nat) (weak : StrictWeakOn less range) :
    StrictWeakOn (thenBy key less) range := by
  apply strictWeakOn_of
  · intro a a_mem b b_mem before
    rw [thenBy_iff] at before
    rw [← Bool.not_eq_true, thenBy_iff]
    rintro (back | ⟨same, back⟩)
    · omega
    · rcases before with lower | ⟨-, before⟩
      · omega
      · rw [weak.asymm a_mem b_mem before] at back
        cases back
  · intro a a_mem b b_mem c c_mem before
    rw [thenBy_iff] at before
    rw [thenBy_iff, thenBy_iff]
    rcases before with lower | ⟨same, before⟩
    · by_cases left : key a < key b
      · exact Or.inl (Or.inl left)
      · exact Or.inr (Or.inl (by omega))
    -- equal keys of `a` and `c`: `b` lies below, beside or above them
    · rcases Nat.lt_trichotomy (key a) (key b) with left | between | right
      · exact Or.inl (Or.inl left)
      · rcases weak.either a_mem b_mem c_mem before with ab | bc
        · exact Or.inl (Or.inr ⟨between, ab⟩)
        · exact Or.inr (Or.inr ⟨by omega, bc⟩)
      · exact Or.inr (Or.inl (by omega))

/-! ### Comparators that switch between two orders -/

/-- Elements that satisfy `p` are compared by `inner`; as soon as one does not, `outer` decides. -/
def switched (p : α → Bool) (inner outer : α → α → Ordering) (a b : α) : Bool :=
  if p a && p b then inner a b == .lt else outer a b == .lt

theorem switched_inner (p : α → Bool) (inner outer : α → α → Ordering) {a b : α}
    (pa : p a = true) (pb : p b = true) :
    switched p inner outer a b = true ↔ inner a b = .lt := by
  simp [switched, pa, pb]

theorem switched_outer (p : α → Bool) (inner outer : α → α → Ordering) {a b : α}
    (one : ¬(p a = true ∧ p b = true)) :
    switched p inner outer a b = true ↔ outer a b = .lt := by
  rw [switched, if_neg (by simpa using one)]
  simp

section Switched

variable {p : α → Bool} {inner outer : α → α → Ordering} [Std.TransCmp inner]
  [Std.TransCmp outer]

theorem not_lt_iff (cmp : α → α → Ordering) [Std.TransCmp cmp] {a b : α} :
    ¬cmp a b = .lt ↔ (cmp b a).isLE = true := by
  rw [← Ordering.isGE_iff_ne_lt, Std.OrientedCmp.isGE_iff_isLE]

theorem lt_or_lt (cmp : α → α → Ordering) [Std.TransCmp cmp] {a c : α} (b : α)
    (before : cmp a c = .lt) : cmp a b = .lt ∨ cmp b c = .lt := by
  by_contra neither
  obtain ⟨ab, bc⟩ := not_or.mp neither
  rw [not_lt_iff cmp] at ab bc
  have ca := Std.TransCmp.isLE_trans bc ab
  exact (not_lt_iff cmp).mpr ca before

/--
A switching comparator is a strict weak ordering exactly when no element outside `p` separates two
elements of `p` against their own order.
-/
theorem switched_strictWeakOn_iff
    (distinct : ∀ a ∈ range, ∀ s ∈ range, p a = true → p s = false → outer a s ≠ .eq) :
    StrictWeakOn (switched p inner outer) range ↔
      ∀ a ∈ range, ∀ s ∈ range, ∀ b ∈ range, p a = true → p s = false → p b = true →
        outer a s = .lt → outer s b = .lt → inner a b = .lt := by
  constructor
  · intro weak a a_mem s s_mem b b_mem pa ps pb as sb
    rw [← switched_inner p inner outer pa pb]
    apply weak.trans a a_mem s s_mem b b_mem
    · rwa [switched_outer p inner outer (by simp [ps])]
    · rwa [switched_outer p inner outer (by simp [ps])]
  · intro apart
    have strict : ∀ a ∈ range, ∀ s ∈ range, p a = true → p s = false →
        ¬outer a s = .lt → outer s a = .lt := by
      intro a a_mem s s_mem pa ps not_as
      rw [← Std.OrientedCmp.gt_iff_lt]
      have ne := distinct a a_mem s s_mem pa ps
      revert ne not_as
      cases outer a s <;> simp
    have strict' : ∀ a ∈ range, ∀ s ∈ range, p a = true → p s = false →
        ¬outer s a = .lt → outer a s = .lt := by
      intro a a_mem s s_mem pa ps not_sa
      by_contra not_as
      exact not_sa (strict a a_mem s s_mem pa ps not_as)
    apply strictWeakOn_of
    · intro a _ b _ before
      rw [← Bool.not_eq_true]
      by_cases both : p a = true ∧ p b = true
      · rw [switched_inner p inner outer both.1 both.2] at before
        rw [switched_inner p inner outer both.2 both.1, not_lt_iff inner, before]
        rfl
      · rw [switched_outer p inner outer both] at before
        rw [switched_outer p inner outer (fun h => both h.symm), not_lt_iff outer, before]
        rfl
    · intro a a_mem b b_mem c c_mem before
      cases pa : p a <;> cases pb : p b <;> cases pc : p c
      -- `b` is outside, or the others are
      case true.false.true =>
        rw [switched_inner p inner outer pa pc] at before
        rw [switched_outer p inner outer (by simp [pb]), switched_outer p inner outer (by simp [pb])]
        by_contra neither
        obtain ⟨not_ab, not_bc⟩ := not_or.mp neither
        have ba := strict a a_mem b b_mem pa pb not_ab
        have cb := strict' c c_mem b b_mem pc pb not_bc
        have ca := apart c c_mem b b_mem a a_mem pc pb pa cb ba
        rw [← Std.OrientedCmp.gt_iff_lt, before] at ca
        cases ca
      case true.true.false =>
        rw [switched_outer p inner outer (by simp [pc])] at before
        rw [switched_inner p inner outer pa pb, switched_outer p inner outer (by simp [pc])]
        by_contra neither
        obtain ⟨not_ab, not_bc⟩ := not_or.mp neither
        have cb := strict b b_mem c c_mem pb pc not_bc
        exact not_ab (apart a a_mem c c_mem b b_mem pa pc pb before cb)
      case false.true.true =>
        rw [switched_outer p inner outer (by simp [pa])] at before
        rw [switched_outer p inner outer (by simp [pa]), switched_inner p inner outer pb pc]
        by_contra neither
        obtain ⟨not_ab, not_bc⟩ := not_or.mp neither
        have ba := strict' b b_mem a a_mem pb pa not_ab
        exact not_bc (apart b b_mem a a_mem c c_mem pb pa pc ba before)
      case true.true.true =>
        rw [switched_inner p inner outer pa pc] at before
        rw [switched_inner p inner outer pa pb, switched_inner p inner outer pb pc]
        exact lt_or_lt inner b before
      all_goals
        rw [switched_outer p inner outer (by simp [pa, pc])] at before
        rw [switched_outer p inner outer (by simp_all),
          switched_outer p inner outer (by simp_all)]
        exact lt_or_lt outer b before

end Switched

/-! ### Sorts -/

/--
A stable sort that keeps its promises only where the comparator is a strict weak ordering of the
range.
-/
structure StableSort (α : Type*) where
  run : (α → α → Bool) → List α → List α
  perm : ∀ less range, StrictWeakOn less range → (run less range).Perm range
  sorted : ∀ less range, StrictWeakOn less range →
    (run less range).Pairwise (fun a b => less b a = false)
  stable : ∀ less range, StrictWeakOn less range → ∀ a b, less b a = false →
    [a, b].Sublist range → [a, b].Sublist (run less range)

/-! ### Insertion sort -/

/-- Insertion sort from the back: an element moves forward past those it comes before. -/
def insertion (less : α → α → Bool) (range : List α) : List α :=
  (List.insertionSort (fun a b => less a b = false) range.reverse).reverse

section Insertion

variable (weak : StrictWeakOn less range)

/-- The relation of the sort among the elements of the range. -/
def notBefore (less : α → α → Bool) (range : List α) (a b : {x // x ∈ range}) : Prop :=
  less a.1 b.1 = false

instance (less : α → α → Bool) (range : List α) : DecidableRel (notBefore less range) :=
  fun a b => inferInstanceAs (Decidable (less a.1 b.1 = false))

include weak in
theorem notBefore_total : Std.Total (notBefore less range) := by
  constructor
  intro a b
  by_cases before : less a.1 b.1 = true
  · exact .inr (weak.asymm a.2 b.2 before)
  · exact .inl ((Bool.not_eq_true _).mp before)

include weak in
theorem notBefore_trans : IsTrans _ (notBefore less range) := by
  constructor
  intro a b c ab bc
  unfold notBefore at ab bc ⊢
  by_contra ac
  rcases weak.either a.2 b.2 c.2 (by simpa using ac) with h | h
  · rw [ab] at h
    cases h
  · rw [bc] at h
    cases h

theorem insertion_eq (less : α → α → Bool) (range : List α) : insertion less range =
    ((List.insertionSort (notBefore less range) range.attach.reverse).map Subtype.val).reverse := by
  rw [insertion, List.map_insertionSort (notBefore less range) (fun a b => less a b = false)]
  · simp
  · intro a _ b _
    rfl

include weak in
theorem insertion_sorted :
    (insertion less range).Pairwise (fun a b => less b a = false) := by
  have total := notBefore_total weak
  have trans := notBefore_trans weak
  have sorted := List.pairwise_insertionSort (notBefore less range) range.attach.reverse
  rw [insertion_eq, List.pairwise_reverse, List.pairwise_map]
  exact sorted

end Insertion

theorem insertion_perm (less : α → α → Bool) (range : List α) :
    (insertion less range).Perm range :=
  (List.reverse_perm _).trans ((List.perm_insertionSort _ _).trans (List.reverse_perm _))

theorem insertion_stable (less : α → α → Bool) (range : List α) (a b : α)
    (after : less b a = false) (pair : [a, b].Sublist range) :
    [a, b].Sublist (insertion less range) := by
  rw [insertion, ← List.reverse_sublist, List.reverse_reverse]
  exact List.pair_sublist_insertionSort after (List.reverse_sublist.mpr pair)

def StableSort.insertion (α : Type*) : StableSort α where
  run := WeakOrder.insertion
  perm := fun less range _ => insertion_perm less range
  sorted := fun _ _ weak => insertion_sorted weak
  stable := fun less range _ => insertion_stable less range

end LlvmLd.WeakOrder
