import LlvmLd.Lib.Bytes
import Mathlib.Order.Interval.Set.Basic

/-!
Overwriting some places of a list with one value, and what it says of two lists that they agree
once each has been overwritten at places of its own.
-/

namespace LlvmLd

variable {α : Type*} {v : α} {s t : Set ℕ} {a b c : List α}

/-- `b` is `a` with `v` at the places of `s`. -/
structure Blanked (v : α) (s : Set ℕ) (a b : List α) : Prop where
  length : b.length = a.length
  inside : ∀ i ∈ s, i < a.length → b[i]? = some v
  outside : ∀ i ∉ s, b[i]? = a[i]?

namespace Blanked

theorem refl (v : α) (a : List α) : Blanked v ∅ a a where
  length := rfl
  inside := by
    intro i member
    exact absurd member (Set.notMem_empty i)
  outside := by
    intro i _
    rfl

theorem trans (first : Blanked v s a b) (second : Blanked v t b c) : Blanked v (s ∪ t) a c where
  length := second.length.trans first.length
  inside := by
    intro i member below
    by_cases late : i ∈ t
    · exact second.inside i late (by rw [first.length]; exact below)
    · have early : i ∈ s := member.resolve_right late
      rw [second.outside i late]
      exact first.inside i early below
  outside := by
    intro i apart
    rw [second.outside i (fun late => apart (.inr late)),
      first.outside i (fun early => apart (.inl early))]

theorem set (a : List α) (i : ℕ) (below : i < a.length) : Blanked v {i} a (a.set i v) where
  length := List.length_set
  inside := by
    intro j here _
    cases Set.mem_singleton_iff.mp here
    exact List.getElem?_set_self below
  outside := by
    intro j elsewhere
    apply List.getElem?_set_ne
    rintro rfl
    exact elsewhere rfl

theorem splice (a : List α) (off n : ℕ) (inside : off + n ≤ a.length) :
    Blanked v (Set.Ico off (off + n)) a
      (a.take off ++ List.replicate n v ++ a.drop (off + n)) where
  length := by
    simp only [List.length_append, List.length_take, List.length_replicate, List.length_drop]
    omega
  inside := by
    rintro i ⟨low, high⟩ below
    have front : (a.take off).length = off := by
      rw [List.length_take]
      omega
    rw [List.append_assoc, List.getElem?_append_right (by omega), front,
      List.getElem?_append_left (by rw [List.length_replicate]; omega),
      List.getElem?_replicate_of_lt (by omega)]
  outside := by
    intro i apart
    have front : (a.take off).length = off := by
      rw [List.length_take]
      omega
    rw [List.append_assoc]
    -- a place outside lies in front of the hole or behind it
    by_cases low : i < off
    · rw [List.getElem?_append_left (by omega), List.getElem?_take_of_lt low]
    · have high : off + n ≤ i := by
        by_contra middle
        exact apart ⟨by omega, by omega⟩
      rw [List.getElem?_append_right (by omega), front,
        List.getElem?_append_right (by rw [List.length_replicate]; omega),
        List.length_replicate, List.getElem?_drop]
      congr 1
      omega

theorem places_eq (blanked : Blanked v s a b) (same : s = t) : Blanked v t a b :=
  same ▸ blanked

/-- Two lists that agree after blanking differed in a blanked place only. -/
theorem mem_of_ne (left : Blanked v s a c) (right : Blanked v t b c) (i : ℕ)
    (differ : a[i]? ≠ b[i]?) : i ∈ s ∪ t := by
  by_contra apart
  apply differ
  rw [← left.outside i (fun here => apart (.inl here)),
    right.outside i (fun here => apart (.inr here))]

end Blanked

end LlvmLd
