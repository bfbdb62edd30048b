import Mathlib.Data.List.Basic
import Mathlib.Logic.Relation

/-!
Strings that are written piece by piece: which lists of pieces give the same string.
-/

namespace LlvmLd.Framing

variable {α β : Type}

/-- A piece without the separator is read off up to the first one. -/
theorem append_cons_inj {sep : α} {x x' y y' : List α} (free : sep ∉ x) (free' : sep ∉ x')
    (same : x ++ sep :: y = x' ++ sep :: y') : x = x' ∧ y = y' := by
  induction x generalizing x' with
  | nil =>
    cases x' with
    | nil => exact ⟨rfl, (List.cons.inj same).2⟩
    | cons b rest' =>
      -- the separator of one side would lie in the front of the other
      have first : sep = b := (List.cons.inj same).1
      exact absurd (first ▸ List.mem_cons_self ..) free'
  | cons a rest ih =>
    cases x' with
    | nil =>
      have first : a = sep := (List.cons.inj same).1
      exact absurd (first ▸ List.mem_cons_self ..) free
    | cons b rest' =>
      obtain ⟨first, others⟩ := List.cons.inj same
      obtain ⟨sameRest, behind⟩ := ih (fun member => free (List.mem_cons_of_mem _ member))
        (fun member => free' (List.mem_cons_of_mem _ member)) others
      exact ⟨by rw [first, sameRest], behind⟩

/-! ### Pieces of which none begins another -/

/-- Whatever stands behind a piece, it is read off the string. -/
def PrefixFree (good : α → Prop) (frame : α → List β) : Prop :=
  ∀ a b x y, good a → good b → frame a ++ x = frame b ++ y → a = b

theorem flatMap_inj {good : α → Prop} {frame : α → List β} (free : PrefixFree good frame)
    (nonempty : ∀ a, frame a ≠ []) {l l' : List α} (all : ∀ a ∈ l, good a)
    (all' : ∀ a ∈ l', good a) (same : l.flatMap frame = l'.flatMap frame) : l = l' := by
  induction l generalizing l' with
  | nil =>
    cases l' with
    | nil => rfl
    | cons b rest' => simp [nonempty b] at same
  | cons a rest ih =>
    cases l' with
    | nil => simp [nonempty a] at same
    | cons b rest' =>
      rw [List.flatMap_cons, List.flatMap_cons] at same
      -- the first frames are equal, since neither is the front of the other
      have head : a = b :=
        free a b _ _ (all a (List.mem_cons_self ..)) (all' b (List.mem_cons_self ..)) same
      subst head
      have tail : rest = rest' :=
        ih (fun c member => all c (List.mem_cons_of_mem _ member))
          (fun c member => all' c (List.mem_cons_of_mem _ member)) (List.append_cancel_left same)
      rw [tail]

/-! ### Pieces that read as one -/

/-- Two neighbours are replaced by one. -/
inductive Merges (merge : α → α → α) : List α → List α → Prop
  | step (before : List α) (a b : α) (after : List α) :
    Merges merge (before ++ a :: b :: after) (before ++ merge a b :: after)

/-- The lists differ in what is one piece and what is two. -/
def Confused (merge : α → α → α) : List α → List α → Prop := Relation.EqvGen (Merges merge)

theorem Confused.single (merge : α → α → α) (a : α) (rest : List α) :
    Confused merge (a :: rest) [rest.foldl merge a] := by
  induction rest generalizing a with
  | nil => exact .refl _
  | cons b rest ih => exact .trans _ _ _ (.rel _ _ (.step [] a b rest)) (ih (merge a b))

section Merged

variable {merge : α → α → α} {frame : α → List β}

theorem Confused.flatMap_eq (merged : ∀ a b, frame (merge a b) = frame a ++ frame b)
    {l l' : List α} (confused : Confused merge l l') : l.flatMap frame = l'.flatMap frame := by
  induction confused with
  | rel _ _ step =>
    cases step
    simp [merged]
  | refl => rfl
  | symm _ _ _ ih => exact ih.symm
  | trans _ _ _ _ _ first second => exact first.trans second

/-- Where one piece can be told from another but two can read as one, the strings are the same
exactly for lists that are confused. -/
theorem flatMap_eq_iff_confused {good : α → Prop}
    (merged : ∀ a b, frame (merge a b) = frame a ++ frame b)
    (kept : ∀ a b, good a → good (merge a b)) (nonempty : ∀ a, frame a ≠ [])
    (single : ∀ a b, good a → good b → frame a = frame b → a = b) {l l' : List α}
    (all : ∀ a ∈ l, good a) (all' : ∀ a ∈ l', good a) :
    l.flatMap frame = l'.flatMap frame ↔ Confused merge l l' := by
  refine ⟨fun same => ?_, Confused.flatMap_eq merged⟩
  have goodFold : ∀ (rest : List α) (a : α), good a → good (rest.foldl merge a) := by
    intro rest
    induction rest with
    | nil => exact fun a isGood => isGood
    | cons b rest ih => exact fun a isGood => ih _ (kept a b isGood)
  cases l with
  | nil =>
    cases l' with
    | nil => exact .refl _
    | cons b rest' => simp [nonempty b] at same
  | cons a rest =>
    cases l' with
    | nil => simp [nonempty a] at same
    | cons b rest' =>
      -- both lists are confused with one piece that holds the whole string
      have left := Confused.single merge a rest
      have right := Confused.single merge b rest'
      have whole : rest.foldl merge a = rest'.foldl merge b := by
        refine single _ _ (goodFold rest a (all a (List.mem_cons_self ..)))
          (goodFold rest' b (all' b (List.mem_cons_self ..))) ?_
        have := (left.flatMap_eq merged).symm.trans (same.trans (right.flatMap_eq merged))
        simpa using this
      rw [← whole] at right
      exact .trans _ _ _ left (.symm _ _ right)

end Merged

end LlvmLd.Framing
