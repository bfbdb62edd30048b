import Mathlib.Data.List.Basic
import Mathlib.Tactic.Common

/-!
A table of slots that items are stored into, each at the slot its key gives. With distinct keys each
item is found in its slot, and the slots of no item keep what they held.
-/

namespace LlvmLd.KeyedSlots

variable {α β : Type*} (key : β → Nat) (value : β → α)

def store (slots : List α) (items : List β) : List α :=
  items.foldl (fun slots x => slots.set (key x) (value x)) slots

theorem length_store (slots : List α) (items : List β) :
    (store key value slots items).length = slots.length := by
  induction items generalizing slots with
  | nil => rfl
  | cons x rest ih => exact (ih (slots.set (key x) (value x))).trans List.length_set

theorem store_untouched (slots : List α) (items : List β) (j : Nat)
    (untouched : ∀ x ∈ items, key x ≠ j) : (store key value slots items)[j]? = slots[j]? := by
  induction items generalizing slots with
  | nil => rfl
  | cons x rest ih =>
    have later := ih (slots.set (key x) (value x))
      (fun y member => untouched y (List.mem_cons_of_mem x member))
    rw [List.getElem?_set_ne (untouched x List.mem_cons_self)] at later
    exact later

theorem store_stored (slots : List α) (items : List β)
    (distinct : items.Pairwise (fun x y => key x ≠ key y)) (x : β) (member : x ∈ items)
    (inside : key x < slots.length) : (store key value slots items)[key x]? = some (value x) := by
  induction items generalizing slots with
  | nil => cases member
  | cons y rest ih =>
    obtain ⟨first, later⟩ := List.pairwise_cons.mp distinct
    rcases List.mem_cons.mp member with rfl | behind
    · have kept := store_untouched key value (slots.set (key x) (value x)) rest (key x)
        (fun y member => (first y member).symm)
      rw [List.getElem?_set_self inside] at kept
      exact kept
    · exact ih (slots.set (key y) (value y)) later behind (by rwa [List.length_set])

end LlvmLd.KeyedSlots
