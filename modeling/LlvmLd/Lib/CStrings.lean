import LlvmLd.Lib.Memory

/-!
NUL-terminated strings in a memory and their unsigned comparison. Against a string without NUL the
comparison in memory is that of the byte strings.
-/

namespace LlvmLd.Memory

/-- The string `s` and its NUL stand at `a`. `s` may have NULs of its own. -/
def Terminated (m : Mem) (a : Int) (s : Bytes) : Prop := readBytes m a (s.length + 1) = s ++ [0]

/-- The part of a byte string that stands before its first NUL. -/
def upToNul (s : Bytes) : Bytes := s.takeWhile (· ≠ 0)

/-- `strcmp` of a string without NUL with the string at `a`. -/
def compareAt (m : Mem) : Bytes → Int → Ordering
  | [], a => if m a = 0 then .eq else .lt
  | q :: rest, a => (compare q (m a)).then (compareAt m rest (a + 1))

theorem upToNul_of_not_mem (s : Bytes) (free : (0 : UInt8) ∉ s) : upToNul s = s := by
  refine List.takeWhile_eq_self_iff.mpr (fun b member => ?_)
  have other : b ≠ 0 := fun h => free (h ▸ member)
  simpa using other

theorem not_mem_upToNul (s : Bytes) : (0 : UInt8) ∉ upToNul s := by
  intro member
  simpa using List.mem_takeWhile_imp member

theorem upToNul_cons (b : UInt8) (s : Bytes) :
    upToNul (b :: s) = if b = 0 then [] else b :: upToNul s := by
  by_cases zero : b = 0 <;> simp [upToNul, zero]

theorem Terminated.head {m : Mem} {a : Int} {b : UInt8} {s : Bytes}
    (there : Terminated m a (b :: s)) : m a = b ∧ Terminated m (a + 1) s := by
  have split := readBytes_append m a [b] (s ++ [0]) (by simpa [Terminated] using there)
  refine ⟨?_, by simpa [Terminated] using split.2⟩
  simpa [readBytes] using split.1

theorem Terminated.stop {m : Mem} {a : Int} (there : Terminated m a []) : m a = 0 := by
  simpa [Terminated, readBytes] using there

/-- Comparing with the string in memory is comparing with its part before the first NUL. -/
theorem compareAt_eq {m : Mem} {a : Int} {s : Bytes} (there : Terminated m a s) (q : Bytes)
    (free : (0 : UInt8) ∉ q) : compareAt m q a = compare q (upToNul s) := by
  -- at the end of the C string only the empty name is equal, every other one is greater
  have done : ∀ a (q : Bytes), (0 : UInt8) ∉ q → m a = 0 →
      compareAt m q a = compare q ([] : Bytes) := by
    intro a q free zero
    cases q with
    | nil => simp [compareAt, zero]
    | cons b rest =>
      have positive : compare b 0 = .gt := by
        rw [Std.OrientedCmp.gt_iff_lt]
        have above : (0 : UInt8) < b :=
          UInt8.pos_iff_ne_zero.mpr (fun zero => free (by simp [zero]))
        show compareOfLessAndEq (0 : UInt8) b = .lt
        rw [compareOfLessAndEq, if_pos above]
      simp [compareAt, zero, positive]
  induction s generalizing a q with
  | nil => exact done a q free there.stop
  | cons c s ih =>
    obtain ⟨byte, later⟩ := there.head
    rw [upToNul_cons]
    -- the list may hold the terminator already
    split
    next zero => exact done a q free (byte.trans zero)
    next other =>
      cases q with
      | nil => simp [compareAt, byte, other]
      | cons b rest =>
        have tail := ih later rest (fun member => free (List.mem_cons_of_mem b member))
        rw [compareAt, byte, tail, List.compare_eq_compareLex, List.compareLex_cons_cons]

end LlvmLd.Memory
