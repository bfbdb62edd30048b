import LlvmLd.Lib.Avoids
import LlvmLd.Msf.Builder

/-!
# Who owns which block

No block of the file has two owners, and none that has an owner counts as free.

Proof strategy: each call only takes free blocks or gives back blocks of one owner. `Holds` is kept
by both, for the list of all blocks that have an owner.
-/

namespace LlvmLd.Msf

open Bitmap

namespace MSFBuilder

/-- The super block, the two free page maps, and what the streams and their directory occupy. -/
def owned (b : MSFBuilder) : List Nat :=
  [0, 1, 2] ++ b.blockMapAddr :: (b.directoryBlocks ++ b.streamData.flatMap Prod.snd)

structure Owns (b : MSFBuilder) : Prop where
  holds : Holds b.freeBlocks b.owned
  sized : ∀ d ∈ b.streamData, d.2.length = bytesToBlocks d.1 b.blockSize
  /-- The bits have room in their words. -/
  small : b.freeBlocks.length + 63 < 2 ^ 32

/-- An element with `extra` more behind it. -/
theorem flatMap_set_perm {α β : Type*} {f : α → List β} {x y : α} {extra : List β}
    (more : f y = f x ++ extra) {l : List α} {i : Nat} (there : l[i]? = some x) :
    ((l.set i y).flatMap f).Perm (l.flatMap f ++ extra) := by
  induction l generalizing i with
  | nil => cases there
  | cons z rest ih =>
    cases i with
    | zero =>
      have first : z = x := Option.some.inj there
      subst first
      rw [List.set_cons_zero, List.flatMap_cons, List.flatMap_cons, more, List.append_assoc,
        List.append_assoc]
      exact List.perm_append_comm.append_left _
    | succ i =>
      rw [List.set_cons_succ, List.flatMap_cons, List.flatMap_cons, List.append_assoc]
      exact (ih there).append_left _

/-! ### Growth -/

theorem of_resizeBlocks {bits bits' : List Bool} {count : Nat}
    (resized : resizeBlocks bits count = .ok bits') :
    bits' = resize bits count ∧ count + 63 < 2 ^ 32 := by
  rw [resizeBlocks] at resized
  split at resized
  · cases resized
  · cases resized
    exact ⟨rfl, by omega⟩

/-- What the loop over the pairs does in numbers that have room: it goes on to the end of the file. -/
inductive Reserved (blockSize : Nat) : Nat → List Bool → List Bool → Prop
  | ended {next : Nat} {bits : List Bool} (last : bits.length ≤ next) :
      Reserved blockSize next bits bits
  | pair {next : Nat} {bits bits' : List Bool} (more : next < bits.length)
      (rest : Reserved blockSize (next + blockSize)
        (setAll false (resize bits (bits.length + 2)) [next, next + 1]) bits') :
      Reserved blockSize next bits bits'

/-- Far from the end of a file that has nearly 2^32 blocks the loop makes the file too large before it
comes to its end. -/
theorem reserveFpm_fails {blockSize fuel next : Nat} {bits bits' : List Bool}
    (positive : 0 < blockSize) (more : next < bits.length) (small : bits.length + 63 < 2 ^ 32)
    (far : (2 ^ 32 - 63 - bits.length) * blockSize ≤ 2 * (bits.length - next)) :
    reserveFpm blockSize fuel next bits ≠ .ok bits' := by
  induction fuel generalizing next bits with
  | zero =>
    intro done
    cases done
  | succ fuel ih =>
    intro done
    rw [reserveFpm, if_pos more] at done
    obtain ⟨larger, resized, later⟩ := Outcome.bind_ok_iff.mp done
    obtain ⟨rfl, room⟩ := of_resizeBlocks resized
    have exact : uint32 (bits.length + 2) = bits.length + 2 := by
      rw [uint32, Nat.mod_eq_of_lt (by omega)]
    rw [exact] at room later
    -- the room shrinks by two blocks, the way to the end by nearly a whole interval
    have two : 2 ≤ 2 ^ 32 - 63 - bits.length := by omega
    have three : 3 * blockSize ≤ 2 * (bits.length - next) :=
      Nat.le_trans (Nat.mul_le_mul_right _ (by omega)) far
    have fewer : (2 ^ 32 - 63 - bits.length - 2) * blockSize =
        (2 ^ 32 - 63 - bits.length) * blockSize - 2 * blockSize := Nat.sub_mul _ _ _
    have place : uint32 (next + blockSize) = next + blockSize := by
      rw [uint32, Nat.mod_eq_of_lt (by omega)]
    rw [place] at later
    have length : (setAll false (resize bits (bits.length + 2)) [next, next + 1]).length =
        bits.length + 2 := by rw [length_setAll, length_resize]
    refine ih ?_ ?_ ?_ later
    · omega
    · omega
    · rw [length]
      have left : 2 ^ 32 - 63 - (bits.length + 2) = 2 ^ 32 - 63 - bits.length - 2 := by omega
      rw [left, fewer]
      omega

/-- A loop that comes to its end has not left the 32 bits. -/
theorem reserved_of_ok {blockSize fuel next : Nat} {bits bits' : List Bool}
    (valid : isValidBlockSize blockSize = true) (small : bits.length + 63 < 2 ^ 32)
    (done : reserveFpm blockSize fuel next bits = .ok bits') :
    Reserved blockSize next bits bits' ∧ bits'.length + 63 < 2 ^ 32 := by
  obtain ⟨wide, narrow, -⟩ := blockSize_bounds valid
  induction fuel generalizing next bits with
  | zero => cases done
  | succ fuel ih =>
    rw [reserveFpm] at done
    -- a pair is reserved while the file reaches it, and the loop goes on one interval later
    split at done
    · rename_i more
      obtain ⟨larger, resized, later⟩ := Outcome.bind_ok_iff.mp done
      obtain ⟨rfl, room⟩ := of_resizeBlocks resized
      have exact : uint32 (bits.length + 2) = bits.length + 2 := by
        rw [uint32, Nat.mod_eq_of_lt (by omega)]
      rw [exact] at room later
      have length : (setAll false (resize bits (bits.length + 2)) [next, next + 1]).length =
          bits.length + 2 := by rw [length_setAll, length_resize]
      by_cases wraps : next + blockSize < 2 ^ 32
      · rw [uint32, Nat.mod_eq_of_lt wraps] at later
        obtain ⟨reserved, room'⟩ := ih (by omega) later
        exact ⟨.pair more reserved, room'⟩
      · -- the next pair would be looked for at the front of the file again
        have front : uint32 (next + blockSize) = next + blockSize - 2 ^ 32 := by
          rw [uint32, Nat.mod_eq_sub_mod (by omega), Nat.mod_eq_of_lt (by omega)]
        rw [front] at later
        have square : (2 ^ 32 - 63 - (bits.length + 2)) * blockSize ≤ 32768 * 32768 :=
          Nat.mul_le_mul (by omega) narrow
        refine absurd later (reserveFpm_fails (by omega) ?_ ?_ ?_)
        · omega
        · omega
        · rw [length]
          omega
    · cases done
      exact ⟨.ended (by omega), small⟩

namespace Reserved

variable {blockSize next : Nat} {bits bits' : List Bool}

theorem length_le (reserved : Reserved blockSize next bits bits') :
    bits.length ≤ bits'.length := by
  induction reserved with
  | ended last => exact Nat.le_refl _
  | pair more rest ih =>
    rw [length_setAll, length_resize] at ih
    omega

theorem holds {used : List Nat} (reserved : Reserved blockSize next bits bits')
    (holds : Holds bits used) : Holds bits' used := by
  induction reserved with
  | ended last => exact holds
  | pair more rest ih =>
    exact ih (((holds.resize (Nat.le_add_right _ 2)).set_false _).set_false _)

/-- From the front of a file with `count` blocks on: the pairs are fewer than half of the blocks. -/
theorem count_le_front {free count rounds : Nat} (wide : 5 ≤ blockSize)
    (reserved : Reserved blockSize next bits bits') (place : next = 1 + rounds * blockSize)
    (length : bits.length = count + 2 * rounds) (few : 2 * rounds ≤ count)
    (bounded : bits.count true ≤ free + 2 * rounds) : bits'.count true ≤ free + count := by
  induction reserved generalizing rounds with
  | ended last => omega
  | @pair next bits bits' more rest ih =>
    -- each round goes on by an interval of at least five blocks and reserves two
    have spread : 5 * rounds ≤ rounds * blockSize := by
      rw [Nat.mul_comm]
      exact Nat.mul_le_mul_left _ wide
    refine @ih (rounds + 1) ?_ ?_ ?_ ?_
    · rw [place, Nat.succ_mul]
      omega
    · rw [length_setAll, length_resize, length]
      omega
    · omega
    · have grown := count_resize bits (bits.length + 2) (Nat.le_add_right _ 2)
      have cleared := count_setAll_false_le (resize bits (bits.length + 2)) [next, next + 1]
      omega

end Reserved

/-- How a file grows. When the number of its blocks leaves the 32 bits, it has too few free blocks in
the end. -/
inductive Grown (b : MSFBuilder) (numBlocks : Nat) : List Bool → Prop
  | enough (free : numBlocks ≤ b.freeBlocks.count true) : Grown b numBlocks b.freeBlocks
  | grown {bits : List Bool} (few : b.freeBlocks.count true < numBlocks)
      (reserved : Reserved b.blockSize (alignTo b.freeBlocks.length b.blockSize + 1)
        (resize b.freeBlocks (numBlocks - b.freeBlocks.count true + b.freeBlocks.length)) bits)
      (small : bits.length + 63 < 2 ^ 32) : Grown b numBlocks bits
  | wrapped {bits : List Bool} (few : bits.count true < numBlocks) : Grown b numBlocks bits

private theorem blockSize_dvd {blockSize : Nat} (valid : isValidBlockSize blockSize = true) :
    blockSize ∣ 2 ^ 32 := by
  simp only [isValidBlockSize, List.mem_cons, List.not_mem_nil, or_false, decide_eq_true_eq] at valid
  rcases valid with rfl | rfl | rfl | rfl | rfl | rfl | rfl <;> decide

/-- The first pair that is looked at lies behind the file, or at the front of it when the file ends in
the last interval. -/
theorem alignTo_top {n blockSize : Nat} (valid : isValidBlockSize blockSize = true)
    (small : n + 63 < 2 ^ 32) :
    alignTo n blockSize + 1 < 2 ^ 32 ∨ alignTo n blockSize = 2 ^ 32 := by
  obtain ⟨wide, -, four⟩ := blockSize_bounds valid
  have multiple : 4 ∣ alignTo n blockSize := Nat.dvd_trans four (dvd_alignTo n blockSize)
  have le : alignTo n blockSize ≤ 2 ^ 32 := by
    rw [← alignTo_of_dvd (2 ^ 32) blockSize (by omega) (blockSize_dvd valid)]
    exact alignTo_mono _ _ _ (by omega)
  omega

section Growing

variable {b : MSFBuilder} {numBlocks newBlockCount : Nat} {bits : List Bool}

/-- The first pair is looked for at the next interval, unless that lies behind 2^32. -/
private theorem grown_of_fits (small : b.freeBlocks.length + 63 < 2 ^ 32)
    (few : b.freeBlocks.count true < numBlocks)
    (count : numBlocks - b.freeBlocks.count true + b.freeBlocks.length = newBlockCount)
    (room : newBlockCount + 63 < 2 ^ 32)
    (done : reserveFpm b.blockSize (2 ^ 31) (uint32 (alignTo b.freeBlocks.length b.blockSize + 1))
      (resize b.freeBlocks newBlockCount) = .ok bits) : Grown b numBlocks bits := by
  obtain ⟨wide, narrow, -⟩ := blockSize_bounds b.valid
  have below := alignTo_lt b.freeBlocks.length b.blockSize (by omega)
  rw [uint32] at done
  rcases alignTo_top b.valid small with inside | top
  · rw [Nat.mod_eq_of_lt inside] at done
    obtain ⟨reserved, small'⟩ := reserved_of_ok b.valid (by rwa [length_resize]) done
    rw [← count] at reserved
    exact .grown few reserved small'
  · -- the loop starts at the front of a file that has nearly 2^32 blocks
    have front : (alignTo b.freeBlocks.length b.blockSize + 1) % 2 ^ 32 = 1 := by omega
    rw [front] at done
    have square : (2 ^ 32 - 63 - newBlockCount) * b.blockSize ≤ 32768 * 32768 :=
      Nat.mul_le_mul (by omega) narrow
    refine absurd done (reserveFpm_fails (by omega) ?_ ?_ ?_)
    · rw [length_resize]
      omega
    · rwa [length_resize]
    · rw [length_resize]
      omega

/-- The file is cut off, and grows again by less than what has been asked for. -/
private theorem wrapped_of_ok (small : b.freeBlocks.length + 63 < 2 ^ 32)
    (asked : numBlocks < 2 ^ 32) (few : b.freeBlocks.count true < numBlocks)
    (count : numBlocks - b.freeBlocks.count true + b.freeBlocks.length = newBlockCount)
    (wraps : 2 ^ 32 ≤ newBlockCount) (room : uint32 newBlockCount + 63 < 2 ^ 32)
    (done : reserveFpm b.blockSize (2 ^ 31) (uint32 (alignTo b.freeBlocks.length b.blockSize + 1))
      (resize b.freeBlocks (uint32 newBlockCount)) = .ok bits) : bits.count true < numBlocks := by
  obtain ⟨wide, narrow, -⟩ := blockSize_bounds b.valid
  have above := le_alignTo b.freeBlocks.length b.blockSize (by omega)
  have cut : uint32 newBlockCount + 2 ^ 32 = newBlockCount := by
    rw [uint32, Nat.mod_eq_sub_mod (by omega), Nat.mod_eq_of_lt (by omega)]
    omega
  have left : (resize b.freeBlocks (uint32 newBlockCount)).count true ≤
      b.freeBlocks.count true := by
    have shorter : uint32 newBlockCount - b.freeBlocks.length = 0 := by omega
    rw [resize, shorter, List.replicate_zero, List.append_nil]
    exact (List.take_sublist _ _).count_le _
  obtain ⟨reserved, -⟩ := reserved_of_ok b.valid (by rwa [length_resize]) done
  rcases alignTo_top b.valid small with inside | top
  · rw [uint32, Nat.mod_eq_of_lt inside] at reserved
    cases reserved with
    | ended last => omega
    | pair more rest =>
      rw [length_resize] at more
      omega
  · have front : uint32 (alignTo b.freeBlocks.length b.blockSize + 1) = 1 := by
      rw [uint32]
      omega
    rw [front] at reserved
    have bounded := @Reserved.count_le_front _ _ _ _ (b.freeBlocks.count true)
      (uint32 newBlockCount) 0 (by omega) reserved (by omega) (by rw [length_resize]; omega)
      (by omega) left
    omega

private theorem grown_of_ok (small : b.freeBlocks.length + 63 < 2 ^ 32) (asked : numBlocks < 2 ^ 32)
    (grew : b.grow numBlocks = .ok bits) : Grown b numBlocks bits := by
  rw [grow] at grew
  split at grew
  · rename_i few
    split at grew
    · cases grew
    · dsimp only at grew
      obtain ⟨larger, resized, later⟩ := Outcome.bind_ok_iff.mp grew
      obtain ⟨rfl, room⟩ := of_resizeBlocks resized
      generalize count : numBlocks - b.freeBlocks.count true + b.freeBlocks.length = newBlockCount
        at room later
      rcases Nat.lt_or_ge newBlockCount (2 ^ 32) with fits | wraps
      · have exact : uint32 newBlockCount = newBlockCount := by rw [uint32, Nat.mod_eq_of_lt fits]
        rw [exact] at room later
        exact grown_of_fits small few count room later
      · exact .wrapped (wrapped_of_ok small asked few count wraps room later)
  · rename_i enough
    cases grew
    exact .enough (by omega)

end Growing

/-! ### Allocation -/

namespace Grown

variable {b : MSFBuilder} {numBlocks : Nat} {bits : List Bool}

/-- A file that has the blocks that are asked for has kept its own. -/
theorem spec (grown : Grown b numBlocks bits) (enough : numBlocks ≤ bits.count true)
    (small : b.freeBlocks.length + 63 < 2 ^ 32) :
    b.freeBlocks.length ≤ bits.length ∧ bits.length + 63 < 2 ^ 32 ∧
      ∀ used, Holds b.freeBlocks used → Holds bits used := by
  cases grown with
  | enough free => exact ⟨Nat.le_refl _, small, fun used holds => holds⟩
  | grown few reserved small' =>
    have larger := reserved.length_le
    rw [length_resize] at larger
    refine ⟨by omega, small', fun used holds => reserved.holds (holds.resize (by omega))⟩
  | wrapped few => omega

end Grown

/-- What an allocation does: blocks without an owner get one, and nothing else changes. -/
structure Allocated (b : MSFBuilder) (numBlocks : Nat) (b' : MSFBuilder) (blocks : List Nat) :
    Prop where
  same : b' = { b with freeBlocks := b'.freeBlocks }
  length : blocks.length = numBlocks
  small : b'.freeBlocks.length + 63 < 2 ^ 32
  holds : ∀ used, Holds b.freeBlocks used → Holds b'.freeBlocks (used ++ blocks)

theorem allocateBlocks_same {b b' : MSFBuilder} {numBlocks : Nat} {blocks : List Nat}
    (done : b.allocateBlocks numBlocks = .ok (b', blocks)) :
    b' = { b with freeBlocks := b'.freeBlocks } := by
  rw [allocateBlocks] at done
  split at done
  · cases done
    rfl
  · split at done
    · cases done
    · split at done
      · cases done
      · cases done
        rfl

theorem allocateBlocks_cases {b b' : MSFBuilder} {numBlocks : Nat} {blocks : List Nat}
    (small : b.freeBlocks.length + 63 < 2 ^ 32) (asked : numBlocks < 2 ^ 32)
    (done : b.allocateBlocks numBlocks = .ok (b', blocks)) :
    (numBlocks = 0 ∧ b' = b ∧ blocks = []) ∨
      ∃ bits, Grown b numBlocks bits ∧ numBlocks ≤ bits.count true ∧ blocks.length = numBlocks ∧
        Taken 0 bits blocks b'.freeBlocks ∧ b' = { b with freeBlocks := b'.freeBlocks } := by
  rw [allocateBlocks] at done
  split at done
  · rename_i zero
    cases done
    exact Or.inl ⟨zero, rfl, rfl⟩
  · split at done
    · cases done
    · rename_i bits grew
      split at done
      · cases done
      · rename_i slots left took
        cases done
        obtain ⟨length, taken⟩ := take_spec took
        -- the blocks that were taken are different and were free, so there were as many
        have enough := length_le_count taken.nodup (fun i member => (taken.free i member).2)
        rw [length] at enough
        exact Or.inr ⟨bits, grown_of_ok small asked grew, enough, length, taken, rfl⟩

theorem allocateBlocks_spec {b b' : MSFBuilder} {numBlocks : Nat} {blocks : List Nat}
    (small : b.freeBlocks.length + 63 < 2 ^ 32) (asked : numBlocks < 2 ^ 32)
    (done : b.allocateBlocks numBlocks = .ok (b', blocks)) : Allocated b numBlocks b' blocks := by
  rcases allocateBlocks_cases small asked done with
    ⟨zero, rfl, rfl⟩ | ⟨bits, grown, enough, length, taken, same⟩
  · exact ⟨rfl, zero.symm, small, fun used holds => by rwa [List.append_nil]⟩
  · obtain ⟨-, small', keeps⟩ := grown.spec enough small
    refine ⟨same, length, ?_, fun used holds => (keeps used holds).take taken⟩
    rw [taken.rest, length_setAll]
    exact small'

/-! ### Calls -/

private theorem create_owns {blockSize minBlockCount : Nat} {canGrow : Bool} {b : MSFBuilder}
    (created : create blockSize minBlockCount canGrow = .ok b) : b.Owns := by
  rw [create] at created
  split at created
  · obtain ⟨bits, resized, made⟩ := Outcome.bind_ok_iff.mp created
    obtain ⟨rfl, room⟩ := of_resizeBlocks resized
    cases made
    refine ⟨?_, fun d member => absurd member List.not_mem_nil, ?_⟩
    -- the first four blocks are cleared in a map of free ones
    · have nothing : Holds (resize [] (max minBlockCount getMinimumBlockCount)) [] :=
        ⟨List.nodup_nil, fun i member => absurd member List.not_mem_nil⟩
      refine @Holds.append _ _ [0, 1, 2, 3] nothing (by decide) (fun i member => ?_)
      apply getElem?_resize_new _ _ _ (Nat.zero_le _)
      simp only [List.mem_cons, List.not_mem_nil, or_false] at member
      rw [getMinimumBlockCount]
      omega
    · rw [length_setAll, length_resize]
      exact room
  · cases created

private theorem isBlockFree_ok {bits : List Bool} {idx : Nat} {free : Bool}
    (asked : isBlockFree bits idx = .ok free) : bits[idx]? = some free := by
  rw [isBlockFree] at asked
  split at asked
  · cases asked
  · rename_i there
    cases asked
    exact there

private theorem of_isBlockFree_error {bits : List Bool} {idx : Nat} {e : MsfError}
    (asked : isBlockFree bits idx = .error e) : e = .undefined := by
  rw [isBlockFree] at asked
  split at asked
  · cases asked
    rfl
  · cases asked

private theorem of_growTo_error {bits : List Bool} {block : Nat} {e : MsfError}
    (grew : growTo bits block = .error e) : e = .undefined := by
  rw [growTo] at grew
  split at grew
  · rw [resizeBlocks] at grew
    split at grew
    · cases grew
      rfl
    · cases grew
  · cases grew

/-- A block that is asked for lies in the file, so that the file has not been cut off. -/
theorem growTo_spec {bits bits' : List Bool} {block : Nat} {v : Bool}
    (small : bits.length + 63 < 2 ^ 32) (grew : growTo bits block = .ok bits')
    (there : bits'[block]? = some v) :
    bits'.length + 63 < 2 ^ 32 ∧ ∀ (i : Nat) (w : Bool), bits[i]? = some w → bits'[i]? = some w := by
  rw [growTo] at grew
  split at grew
  · obtain ⟨rfl, room⟩ := of_resizeBlocks grew
    have inside := (List.getElem?_eq_some_iff.mp there).1
    rw [length_resize] at inside ⊢
    refine ⟨room, fun i w old => ?_⟩
    have before := (List.getElem?_eq_some_iff.mp old).1
    rw [getElem?_resize _ _ _ before (by omega), old]
  · cases grew
    exact ⟨small, fun i w old => old⟩

theorem Owns.setBlockMapAddr {b b' : MSFBuilder} {addr : Nat} (owns : b.Owns)
    (done : b.setBlockMapAddr addr = .ok b') : b'.Owns := by
  rw [MSFBuilder.setBlockMapAddr] at done
  split at done
  · cases done
    exact owns
  · rename_i other
    split at done
    · cases done
    · obtain ⟨bits, grew, later⟩ := Outcome.bind_ok_iff.mp done
      obtain ⟨free, asked, moved⟩ := Outcome.bind_ok_iff.mp later
      have there := isBlockFree_ok asked
      obtain ⟨room, keeps⟩ := growTo_spec owns.small grew there
      split at moved
      · cases moved
      · rename_i isFree
        rw [Bool.not_eq_false] at isFree
        rw [isFree] at there
        cases moved
        refine ⟨?_, owns.sized, by rwa [List.length_set, List.length_set]⟩
        -- the block map's block goes to the end of the list, to be given up for the new one
        have last : b.owned.Perm ([0, 1, 2] ++ (b.directoryBlocks ++ b.streamData.flatMap Prod.snd) ++
            [b.blockMapAddr]) := by
          rw [owned, List.append_assoc]
          exact (List.perm_append_singleton _ _).symm.append_left _
        have kept := owns.holds.mono (fun i cleared => keeps i false cleared)
        -- the new block was free after growing, so no list that is kept has it
        have given := (kept.perm last.symm).release.append (List.nodup_singleton addr) (by
          intro i member
          rw [List.mem_singleton.mp member]
          exact (List.getElem?_set_ne (Ne.symm other)).trans there)
        refine given.perm ?_
        rw [owned, List.append_assoc]
        exact (List.perm_append_singleton _ _).symm.append_left _

private theorem claim_holds {bits bits' : List Bool} {used blocks : List Nat}
    (holds : Holds bits used) (done : claimDirectoryBlocks bits blocks = (bits', none)) :
    Holds bits' (used ++ blocks) ∧ bits'.length = bits.length := by
  induction blocks generalizing bits used with
  | nil =>
    cases done
    rw [List.append_nil]
    exact ⟨holds, rfl⟩
  | cons block rest ih =>
    rw [claimDirectoryBlocks] at done
    split at done
    · cases done
    · cases done
    · rename_i asked
      -- a block is claimed after it has been found free, so no earlier one is it
      have first := holds.append (List.nodup_singleton block) (by
        intro i member
        rw [List.mem_singleton.mp member]
        exact isBlockFree_ok asked)
      obtain ⟨others, length⟩ := ih first done
      rw [List.append_assoc, List.singleton_append] at others
      exact ⟨others, length.trans (List.length_set ..)⟩

/-- The directory's blocks can stand behind all others. -/
theorem owned_perm (b : MSFBuilder) :
    b.owned.Perm (([0, 1, 2] ++ b.blockMapAddr :: b.streamData.flatMap Prod.snd) ++
      b.directoryBlocks) := by
  change ([0, 1, 2] ++ b.blockMapAddr :: (b.directoryBlocks ++ b.streamData.flatMap Prod.snd)).Perm
    ([0, 1, 2] ++ b.blockMapAddr :: (b.streamData.flatMap Prod.snd ++ b.directoryBlocks))
  exact (List.perm_append_comm.cons _).append_left _

theorem Owns.setDirectoryBlocksHint {b b' : MSFBuilder} {dirBlocks : List Nat} (owns : b.Owns)
    (done : b.setDirectoryBlocksHint dirBlocks = (b', none)) : b'.Owns := by
  rw [MSFBuilder.setDirectoryBlocksHint] at done
  split at done
  · rename_i bits claimed
    cases done
    obtain ⟨holds, length⟩ := claim_holds (owns.holds.perm b.owned_perm.symm).release claimed
    refine ⟨holds.perm (owned_perm _), owns.sized, ?_⟩
    rw [length, length_setAll]
    exact owns.small
  · cases done

/-- Blocks that are probed stay what they are; when none is refused they are all free. -/
theorem probe_spec {bits bits' : List Bool} {blocks : List Nat} {refused : Option MsfError}
    (small : bits.length + 63 < 2 ^ 32) (probed : probeBlocks bits blocks = (bits', refused))
    (defined : refused ≠ some .undefined) :
    bits'.length + 63 < 2 ^ 32 ∧
      (∀ (i : Nat) (v : Bool), bits[i]? = some v → bits'[i]? = some v) ∧
      (refused = none → ∀ i ∈ blocks, bits'[i]? = some true) := by
  induction blocks generalizing bits with
  | nil =>
    cases probed
    exact ⟨small, fun i v there => there, fun _ i member => absurd member List.not_mem_nil⟩
  | cons block rest ih =>
    rw [probeBlocks] at probed
    split at probed
    -- a step that is not defined is excluded, a block in use ends the probing
    · rename_i e grew
      cases probed
      exact absurd (congrArg some (of_growTo_error grew)) defined
    · rename_i grown grew
      split at probed
      · rename_i e asked
        cases probed
        exact absurd (congrArg some (of_isBlockFree_error asked)) defined
      · rename_i asked
        cases probed
        obtain ⟨room, keeps⟩ := growTo_spec small grew (isBlockFree_ok asked)
        exact ⟨room, keeps, fun none => by cases none⟩
      · rename_i asked
        obtain ⟨room, keeps⟩ := growTo_spec small grew (isBlockFree_ok asked)
        obtain ⟨room', keeps', others⟩ := ih room probed
        refine ⟨room', fun i v there => keeps' i v (keeps i v there), fun none i member => ?_⟩
        rcases List.mem_cons.mp member with rfl | member
        · exact keeps' _ _ (isBlockFree_ok asked)
        · exact others none i member

/-- One more stream behind the others. -/
theorem owned_append (b : MSFBuilder) (bits : List Bool) (size : Nat) (blocks : List Nat) :
    owned { b with freeBlocks := bits, streamData := b.streamData ++ [(size, blocks)] } =
      b.owned ++ blocks := by
  simp [owned]

private theorem sized_append {b : MSFBuilder} (owns : b.Owns) {size : Nat} {blocks : List Nat}
    (count : blocks.length = bytesToBlocks size b.blockSize) :
    ∀ d ∈ b.streamData ++ [(size, blocks)], d.2.length = bytesToBlocks d.1 b.blockSize := by
  intro d member
  rcases List.mem_append.mp member with old | new
  · exact owns.sized d old
  · rw [List.mem_singleton.mp new]
    exact count

theorem Owns.addStreamAt {b b' : MSFBuilder} {size : Nat} {blocks : List Nat}
    {refused : Option MsfError} (owns : b.Owns) (distinct : blocks.Nodup)
    (done : b.addStreamAt size blocks = (b', refused)) (defined : refused ≠ some .undefined) :
    b'.Owns := by
  rw [MSFBuilder.addStreamAt] at done
  split at done
  · cases done
    exact owns
  · rename_i count
    split at done
    · rename_i bits probed
      cases done
      obtain ⟨room, keeps, free⟩ := probe_spec owns.small probed (fun none => by cases none)
      refine ⟨?_, sized_append owns (not_not.mp count).symm, by rwa [length_setAll]⟩
      rw [owned_append]
      exact (owns.holds.mono (fun i cleared => keeps i false cleared)).append distinct (free rfl)
    · rename_i bits e probed
      cases done
      -- the file may have grown before one of the blocks turned out to be in use
      obtain ⟨room, keeps, -⟩ := probe_spec owns.small probed defined
      exact ⟨owns.holds.mono (fun i cleared => keeps i false cleared), owns.sized, room⟩

/-- A stream has fewer blocks than bytes. -/
theorem bytesToBlocks_lt {size blockSize : Nat} (valid : isValidBlockSize blockSize = true)
    (bounded : size < 2 ^ 32) : bytesToBlocks size blockSize < 2 ^ 32 := by
  have wide := (blockSize_bounds valid).1
  have le : bytesToBlocks size blockSize ≤ size := by
    rw [bytesToBlocks, divideCeil_le_iff (by omega)]
    exact Nat.le_mul_of_pos_right size (by omega)
  omega

theorem Owns.addStream {b b' : MSFBuilder} {size : Nat} (owns : b.Owns) (bounded : size < 2 ^ 32)
    (done : b.addStream size = .ok b') : b'.Owns := by
  obtain ⟨⟨b₁, blocks⟩, allocated, ended⟩ := Outcome.bind_ok_iff.mp done
  have spec := allocateBlocks_spec owns.small (bytesToBlocks_lt b.valid bounded) allocated
  have same := spec.same
  generalize b₁.freeBlocks = bits at same
  subst same
  cases ended
  refine ⟨?_, sized_append owns spec.length, spec.small⟩
  rw [owned_append]
  exact spec.holds _ owns.holds

/-- A stream that is given one more part, or loses it. -/
theorem owned_set {b : MSFBuilder} {idx size size' : Nat} {blocks extra : List Nat}
    (there : b.streamData[idx]? = some (size, blocks)) (bits : List Bool) :
    (owned { b with freeBlocks := bits
                    streamData := b.streamData.set idx (size', blocks ++ extra) }).Perm
      (b.owned ++ extra) := by
  have grown := flatMap_set_perm (f := Prod.snd) (y := (size', blocks ++ extra)) rfl there
  have behind := grown.append_left b.directoryBlocks
  rw [← List.append_assoc] at behind
  exact (behind.cons b.blockMapAddr).append_left [0, 1, 2]

private theorem sized_set {b : MSFBuilder} (owns : b.Owns) (idx : Nat) {size : Nat}
    {blocks : List Nat} (count : blocks.length = bytesToBlocks size b.blockSize) :
    ∀ d ∈ b.streamData.set idx (size, blocks), d.2.length = bytesToBlocks d.1 b.blockSize := by
  intro d member
  rcases List.mem_or_eq_of_mem_set member with old | new
  · exact owns.sized d old
  · rw [new]
    exact count

theorem Owns.setStreamSize {b b' : MSFBuilder} {idx size : Nat} (owns : b.Owns)
    (bounded : size < 2 ^ 32) (done : b.setStreamSize idx size = .ok b') : b'.Owns := by
  rw [MSFBuilder.setStreamSize] at done
  split at done
  · cases done
  · rename_i oldSize currentBlocks there
    have count := owns.sized _ (List.mem_of_getElem? there)
    dsimp only at count
    split at done
    · cases done
      exact owns
    · dsimp only at done
      split at done
      · rename_i more
        obtain ⟨⟨b₁, added⟩, allocated, ended⟩ := Outcome.bind_ok_iff.mp done
        have asked := bytesToBlocks_lt b.valid bounded
        have spec := allocateBlocks_spec owns.small (by omega) allocated
        have same := spec.same
        generalize b₁.freeBlocks = bits at same
        subst same
        cases ended
        refine ⟨?_, sized_set owns idx ?_, spec.small⟩
        · exact (spec.holds _ owns.holds).perm (owned_set there bits)
        · have length : added.length = _ := spec.length
          rw [List.length_append, length]
          omega
      · split at done
        · rename_i fewer
          cases done
          -- the blocks that stay are the ones in front of those that are given back
          have kept : currentBlocks.length - (bytesToBlocks oldSize b.blockSize -
              bytesToBlocks size b.blockSize) = bytesToBlocks size b.blockSize := by omega
          rw [kept]
          refine ⟨?_, sized_set owns idx ?_, by rw [length_setAll]; exact owns.small⟩
          · have inside := (List.getElem?_eq_some_iff.mp there).1
            have back := @owned_set
              { b with streamData :=
                b.streamData.set idx (size, currentBlocks.take (bytesToBlocks size b.blockSize)) }
              idx size oldSize _ (currentBlocks.drop (bytesToBlocks size b.blockSize))
              (List.getElem?_set_self inside) b.freeBlocks
            rw [List.take_append_drop, List.set_set] at back
            have whole : b.streamData.set idx (oldSize, currentBlocks) = b.streamData := by
              obtain ⟨inside, equal⟩ := List.getElem?_eq_some_iff.mp there
              rw [← equal, List.set_getElem_self]
            rw [whole] at back
            exact (owns.holds.perm back.symm).release
          · rw [List.length_take]
            omega
        · cases done
          have equal : bytesToBlocks size b.blockSize = bytesToBlocks oldSize b.blockSize := by
            omega
          refine ⟨?_, sized_set owns idx (by rw [equal]; exact count), owns.small⟩
          have same := @owned_set b idx oldSize size currentBlocks [] there b.freeBlocks
          rw [List.append_nil, List.append_nil] at same
          exact owns.holds.perm same

/-! ### Runs -/

/-- What the callers promise: sizes of 32 bits, and no block twice. -/
def BuilderCall.Proper : BuilderCall → Prop
  | .setUnknown1 unk1 => unk1 < 2 ^ 32
  | .addStreamAt size blocks => size < 2 ^ 32 ∧ blocks.Nodup
  | .addStream size => size < 2 ^ 32
  | .setStreamSize _ size => size < 2 ^ 32
  | _ => True

theorem orUnchanged_none {b b' : MSFBuilder} {r : Except MsfError MSFBuilder}
    (done : b.orUnchanged r = (b', none)) : r = .ok b' := by
  cases r with
  | ok b₁ =>
    cases done
    rfl
  | error e => cases done

theorem orUnchanged_some {b b' : MSFBuilder} {r : Except MsfError MSFBuilder} {e : MsfError}
    (done : b.orUnchanged r = (b', some e)) : b' = b := by
  cases r with
  | ok b₁ => cases done
  | error e' =>
    cases done
    rfl

theorem Owns.accepted {b b' : MSFBuilder} {c : BuilderCall} (owns : b.Owns) (proper : c.Proper)
    (done : b.call c = (b', none)) : b'.Owns := by
  cases c with
  | setBlockMapAddr addr => exact owns.setBlockMapAddr (orUnchanged_none done)
  | setFreePageMap fpm =>
    cases done
    exact ⟨owns.holds, owns.sized, owns.small⟩
  | setUnknown1 unk1 =>
    cases done
    exact ⟨owns.holds, owns.sized, owns.small⟩
  | setDirectoryBlocksHint dirBlocks => exact owns.setDirectoryBlocksHint done
  | addStreamAt size blocks => exact owns.addStreamAt proper.2 done (fun none => by cases none)
  | addStream size => exact owns.addStream proper (orUnchanged_none done)
  | setStreamSize idx size => exact owns.setStreamSize proper (orUnchanged_none done)

/-- A call that is refused takes no block from its owner, except for a hint for the directory. -/
theorem Owns.refused {b b' : MSFBuilder} {c : BuilderCall} {e : MsfError} (owns : b.Owns)
    (proper : c.Proper) (other : ∀ dirBlocks, c ≠ .setDirectoryBlocksHint dirBlocks)
    (done : b.call c = (b', some e)) (defined : e ≠ .undefined) : b'.Owns := by
  cases c with
  | setFreePageMap fpm => cases done
  | setUnknown1 unk1 => cases done
  | setDirectoryBlocksHint dirBlocks => exact absurd rfl (other dirBlocks)
  | addStreamAt size blocks =>
    exact owns.addStreamAt proper.2 done (fun same => defined (Option.some.inj same))
  | _ =>
    rw [orUnchanged_some done]
    exact owns

/-- The sizes of the streams that are asked for. -/
def sizesAfter (sizes : List Nat) : BuilderCall → List Nat
  | .addStreamAt size _ => sizes ++ [size]
  | .addStream size => sizes ++ [size]
  | .setStreamSize idx size => sizes.set idx size
  | _ => sizes

structure Effect (b : MSFBuilder) (c : BuilderCall) (b' : MSFBuilder) : Prop where
  blockSize : b'.blockSize = b.blockSize
  isGrowable : b'.isGrowable = b.isGrowable
  sizes : b'.streamData.map Prod.fst = sizesAfter (b.streamData.map Prod.fst) c
  blockMapAddr : b'.blockMapAddr = b.blockMapAddr ∨ c = .setBlockMapAddr b'.blockMapAddr
  freePageMap : b'.freePageMap = b.freePageMap ∨ c = .setFreePageMap b'.freePageMap
  unknown1 : b'.unknown1 = b.unknown1 ∨ c = .setUnknown1 b'.unknown1

private theorem setStreamSize_effect {b b' : MSFBuilder} {idx size : Nat}
    (done : b.setStreamSize idx size = .ok b') : Effect b (.setStreamSize idx size) b' := by
  rw [setStreamSize] at done
  split at done
  · cases done
  · rename_i oldSize currentBlocks there
    split at done
    -- the size it has already: nothing changes, and setting it changes nothing
    · rename_i same
      cases done
      refine ⟨rfl, rfl, ?_, Or.inl rfl, Or.inl rfl, Or.inl rfl⟩
      have sizeThere : (b.streamData.map Prod.fst)[idx]? = some size := by
        rw [List.getElem?_map, there, Option.map_some, same]
      obtain ⟨inside, equal⟩ := List.getElem?_eq_some_iff.mp sizeThere
      rw [sizesAfter, ← equal, List.set_getElem_self]
    · dsimp only at done
      split at done
      -- more blocks, fewer of them or as many: the size is set either way
      · obtain ⟨⟨b₁, added⟩, allocated, ended⟩ := Outcome.bind_ok_iff.mp done
        have same := allocateBlocks_same allocated
        generalize b₁.freeBlocks = bits at same
        subst same
        cases ended
        exact ⟨rfl, rfl, List.map_set, Or.inl rfl, Or.inl rfl, Or.inl rfl⟩
      · split at done
        · cases done
          exact ⟨rfl, rfl, List.map_set, Or.inl rfl, Or.inl rfl, Or.inl rfl⟩
        · cases done
          exact ⟨rfl, rfl, List.map_set, Or.inl rfl, Or.inl rfl, Or.inl rfl⟩

theorem call_effect {b b' : MSFBuilder} {c : BuilderCall} (done : b.call c = (b', none)) :
    Effect b c b' := by
  cases c with
  | setBlockMapAddr addr =>
    have moved := orUnchanged_none done
    rw [setBlockMapAddr] at moved
    split at moved
    · cases moved
      exact ⟨rfl, rfl, rfl, Or.inl rfl, Or.inl rfl, Or.inl rfl⟩
    · split at moved
      · cases moved
      · obtain ⟨bits, -, later⟩ := Outcome.bind_ok_iff.mp moved
        obtain ⟨free, -, last⟩ := Outcome.bind_ok_iff.mp later
        split at last
        · cases last
        · cases last
          exact ⟨rfl, rfl, rfl, Or.inr rfl, Or.inl rfl, Or.inl rfl⟩
  | setFreePageMap fpm =>
    cases done
    exact ⟨rfl, rfl, rfl, Or.inl rfl, Or.inr rfl, Or.inl rfl⟩
  | setUnknown1 unk1 =>
    cases done
    exact ⟨rfl, rfl, rfl, Or.inl rfl, Or.inl rfl, Or.inr rfl⟩
  | setDirectoryBlocksHint dirBlocks =>
    rw [call, setDirectoryBlocksHint] at done
    split at done
    · cases done
      exact ⟨rfl, rfl, rfl, Or.inl rfl, Or.inl rfl, Or.inl rfl⟩
    · cases done
  | addStreamAt size blocks =>
    rw [call, addStreamAt] at done
    split at done
    · cases done
    · split at done
      · cases done
        exact ⟨rfl, rfl, List.map_append, Or.inl rfl, Or.inl rfl, Or.inl rfl⟩
      · cases done
  | addStream size =>
    -- taking blocks changes the map of free ones only
    obtain ⟨⟨b₁, blocks⟩, allocated, ended⟩ := Outcome.bind_ok_iff.mp (orUnchanged_none done)
    have same := allocateBlocks_same allocated
    generalize b₁.freeBlocks = bits at same
    subst same
    cases ended
    exact ⟨rfl, rfl, List.map_append, Or.inl rfl, Or.inl rfl, Or.inl rfl⟩
  | setStreamSize idx size => exact setStreamSize_effect (orUnchanged_none done)

/-- A call that is refused changes at most which blocks count as free. -/
theorem refused_same {b b' : MSFBuilder} {c : BuilderCall} {e : MsfError}
    (done : b.call c = (b', some e)) : b' = { b with freeBlocks := b'.freeBlocks } := by
  cases c with
  | setFreePageMap fpm => cases done
  | setUnknown1 unk1 => cases done
  | setDirectoryBlocksHint dirBlocks =>
    rw [call, setDirectoryBlocksHint] at done
    split at done
    · cases done
    · cases done
      rfl
  | addStreamAt size blocks =>
    rw [call, addStreamAt] at done
    split at done
    · cases done
      rfl
    · split at done
      · cases done
      · cases done
        rfl
  -- the calls that keep nothing of a refused attempt
  | _ => rw [orUnchanged_some done]

private theorem sizesAfter_small {sizes : List Nat} {c : BuilderCall} (proper : c.Proper)
    (small : ∀ s ∈ sizes, s < 2 ^ 32) : ∀ s ∈ sizesAfter sizes c, s < 2 ^ 32 := by
  -- both ways to add a stream put its size behind the others
  have appended : ∀ size < 2 ^ 32, ∀ s ∈ sizes ++ [size], s < 2 ^ 32 := by
    intro size bound s member
    rcases List.mem_append.mp member with old | new
    · exact small s old
    · rwa [List.mem_singleton.mp new]
  intro s member
  cases c with
  | addStreamAt size blocks => exact appended size proper.1 s member
  | addStream size => exact appended size proper s member
  | setStreamSize idx size =>
    rcases List.mem_or_eq_of_mem_set member with old | new
    · exact small s old
    · rw [new]
      exact proper
  | _ => exact small s member

/-- The calls of a run, one after the other. -/
inductive Session.Step (c : BuilderCall) (s : Session) : Session → Prop
  | accepted {b : MSFBuilder} (done : s.builder.call c = (b, none)) :
      Step c s { s with builder := b, accepted := s.accepted ++ [c] }
  | refused {b : MSFBuilder} {e : MsfError} (done : s.builder.call c = (b, some e))
      (defined : e ≠ .undefined) : Step c s { s with builder := b, refused := s.refused ++ [c] }

theorem Session.step_of_call {s s' : Session} {c : BuilderCall} (done : s.call c = .ok s') :
    Session.Step c s s' := by
  rw [Session.call] at done
  split at done
  · rename_i b ended
    cases done
    exact .accepted ended
  · cases done
  · rename_i b e defined ended
    cases done
    exact .refused ended defined

/-- No hint for the directory has been refused. -/
def Session.HintsTaken (s : Session) : Prop :=
  ∀ dirBlocks, .setDirectoryBlocksHint dirBlocks ∉ s.refused

/-- What the calls have built. -/
structure Built (blockSize : Nat) (s : Session) : Prop where
  owns : s.HintsTaken → s.builder.Owns
  blockSize : s.builder.blockSize = blockSize
  sizes : s.builder.streamData.map Prod.fst = s.accepted.foldl sizesAfter []
  small : ∀ size ∈ s.builder.streamData.map Prod.fst, size < 2 ^ 32
  freePageMap : s.builder.freePageMap = 2 ∨ .setFreePageMap s.builder.freePageMap ∈ s.accepted
  unknown1 : s.builder.unknown1 < 2 ^ 32

private theorem create_built {blockSize minBlockCount : Nat} {canGrow : Bool} {b : MSFBuilder}
    (created : create blockSize minBlockCount canGrow = .ok b) : Built blockSize ⟨b, [], []⟩ := by
  have owns := create_owns created
  rw [create] at created
  split at created
  · obtain ⟨bits, -, made⟩ := Outcome.bind_ok_iff.mp created
    cases made
    exact ⟨fun _ => owns, rfl, rfl, fun s member => absurd member List.not_mem_nil, Or.inl rfl,
      Nat.two_pow_pos 32⟩
  · cases created

theorem Built.step {blockSize : Nat} {s s' : Session} {c : BuilderCall} (built : Built blockSize s)
    (proper : c.Proper) (step : Session.Step c s s') : Built blockSize s' := by
  cases step with
  | accepted done =>
    have effect := call_effect done
    constructor
    · exact fun hints => (built.owns hints).accepted proper done
    · exact effect.blockSize.trans built.blockSize
    · rw [List.foldl_append, ← built.sizes]
      exact effect.sizes
    · rw [effect.sizes]
      exact sizesAfter_small proper built.small
    · rcases effect.freePageMap with same | set
      · dsimp only
        rw [same]
        exact built.freePageMap.imp_right (List.mem_append_left _)
      · rw [← set]
        exact Or.inr (List.mem_append_right _ List.mem_cons_self)
    · rcases effect.unknown1 with same | set
      · dsimp only
        rw [same]
        exact built.unknown1
      · rw [set] at proper
        exact proper
  | @refused b e done defined =>
    -- a refusal can change the free blocks, and every other field stays
    have same := refused_same done
    have owns : Session.HintsTaken ⟨b, s.accepted, s.refused ++ [c]⟩ → b.Owns := by
      intro hints
      refine (built.owns fun dirBlocks member => ?_).refused proper ?_ done defined
      · exact hints dirBlocks (List.mem_append_left _ member)
      · rintro dirBlocks rfl
        exact hints dirBlocks (List.mem_append_right _ List.mem_cons_self)
    generalize b.freeBlocks = bits at same
    subst same
    exact ⟨owns, built.blockSize, built.sizes, built.small, built.freePageMap, built.unknown1⟩

theorem run_built {blockSize minBlockCount : Nat} {canGrow : Bool} {calls : List BuilderCall}
    {b₀ : MSFBuilder} {s : Session} (created : create blockSize minBlockCount canGrow = .ok b₀)
    (proper : ∀ c ∈ calls, c.Proper) (done : b₀.run calls = .ok s) : Built blockSize s :=
  Outcome.foldlM_keeps (I := fun _ s => Built blockSize s)
    (fun _ _ _ c member built ended => built.step (proper c member) (Session.step_of_call ended))
    [] (create_built created) done

/-! ### The layout -/

end MSFBuilder

/-- The blocks of a layout that have an owner. -/
def MSFLayout.owned (l : MSFLayout) : List Nat :=
  [0, 1, 2] ++ l.sb.blockMapAddr :: (l.directoryBlocks ++ l.streamMap.flatten)

/-- Streams of the given sizes, the directory and the block map, each on blocks of its own. -/
structure MSFLayout.LaidOut (blockSize : Nat) (sizes : List Nat) (l : MSFLayout) : Prop where
  width : l.sb.blockSize = blockSize
  distinct : l.owned.Nodup
  inside : ∀ x ∈ l.owned, x < l.sb.numBlocks
  sizes : l.streamSizes = sizes
  rooms : List.Forall₂ (fun size blocks => blocks.length = bytesToBlocks size blockSize)
    l.streamSizes l.streamMap
  directory : l.directoryBlocks.length = bytesToBlocks l.sb.numDirectoryBytes blockSize

namespace MSFBuilder

theorem placeDirectory_spec {b b' : MSFBuilder} {n : Nat} (owns : b.Owns)
    (asked : n < 2 ^ 32) (done : b.placeDirectory n = .ok b') :
    b' = { b with freeBlocks := b'.freeBlocks, directoryBlocks := b'.directoryBlocks } ∧
      b'.owned.Nodup ∧ (∀ x ∈ b'.owned, x < b'.freeBlocks.length) ∧ b'.directoryBlocks.length = n ∧
      (b.directoryBlocks.length ≤ n → b'.Owns) := by
  rw [placeDirectory] at done
  split at done
  · rename_i more
    obtain ⟨⟨b₁, extra⟩, allocated, ended⟩ := Outcome.bind_ok_iff.mp done
    have spec := allocateBlocks_spec owns.small (by omega) allocated
    have same := spec.same
    generalize b₁.freeBlocks = bits at same
    subst same
    cases ended
    have length : extra.length = _ := spec.length
    have owns' : Owns { b with freeBlocks := bits, directoryBlocks := b.directoryBlocks ++ extra } := by
      refine ⟨?_, owns.sized, spec.small⟩
      have given := spec.holds _ (owns.holds.perm b.owned_perm.symm)
      rw [List.append_assoc] at given
      exact given.perm (owned_perm _)
    refine ⟨rfl, owns'.holds.distinct, fun x member => owns'.holds.below member, ?_,
      fun _ => owns'⟩
    dsimp only
    rw [List.length_append, length]
    omega
  · split at done
    · rename_i fewer
      cases done
      -- the directory keeps a part of its blocks, whatever counts as free now
      have part : (owned { b with
          freeBlocks := setAll true b.freeBlocks
            (b.directoryBlocks.take (b.directoryBlocks.length - (b.directoryBlocks.length - n)))
          directoryBlocks := b.directoryBlocks.take n }).Sublist b.owned := by
        have kept := List.take_sublist n b.directoryBlocks
        exact (((kept.append_right (b.streamData.flatMap Prod.snd)).cons_cons _).append_left [0, 1, 2])
      refine ⟨rfl, owns.holds.distinct.sublist part, ?_, ?_, ?_⟩
      · intro x member
        rw [length_setAll]
        exact owns.holds.below (part.subset member)
      · dsimp only
        rw [List.length_take]
        omega
      · intro le
        omega
    · cases done
      exact ⟨rfl, owns.holds.distinct, fun x member => owns.holds.below member, by omega,
        fun _ => owns⟩

private theorem layout_owned (b : MSFBuilder) (numDirectoryBytes : Nat) :
    (b.layout numDirectoryBytes).owned = b.owned := rfl

/-- The directory has fewer than 2^32 bytes, and so fewer blocks. -/
theorem directoryBlocks_lt (b : MSFBuilder) :
    bytesToBlocks b.computeDirectoryByteSize b.blockSize < 2 ^ 32 :=
  bytesToBlocks_lt b.valid (Nat.mod_lt _ (Nat.two_pow_pos 32))

/-- What is laid out from a builder that any calls have built. -/
theorem generateLayout_spec {blockSize : Nat} {s : Session} {l : MSFLayout}
    (built : Built blockSize s) (hints : s.HintsTaken) (laid : s.builder.generateLayout = .ok l) :
    l.LaidOut blockSize (s.accepted.foldl sizesAfter []) ∧
      (s.builder.directoryBlocks.length ≤ l.directoryBlocks.length →
        ∀ x ∈ l.owned, l.freePageMap[x]? = some false) := by
  obtain ⟨b', placed, ended⟩ := Outcome.bind_ok_iff.mp laid
  cases ended
  have owned := built.owns hints
  obtain ⟨same, distinct, inside, length, owns⟩ :=
    placeDirectory_spec owned s.builder.directoryBlocks_lt placed
  have size : b'.blockSize = blockSize := by
    rw [same]
    exact built.blockSize
  have data : b'.streamData = s.builder.streamData := by rw [same]
  constructor
  · constructor
    · exact size
    · rw [layout_owned]
      exact distinct
    · rw [layout_owned]
      exact inside
    -- placing the directory leaves the streams alone
    · change b'.streamData.map Prod.fst = _
      rw [data]
      exact built.sizes
    · change List.Forall₂ _ (b'.streamData.map Prod.fst) (b'.streamData.map Prod.snd)
      rw [data, List.forall₂_map_left_iff, List.forall₂_map_right_iff, List.forall₂_same]
      intro d member
      rw [← built.blockSize]
      exact owned.sized d member
    · rw [← built.blockSize]
      exact length
  · intro le x member
    rw [layout_owned] at member
    exact (owns (le.trans_eq length)).holds.taken x member

/-- What is laid out after any calls, some of them refused: each block has one owner at most, each
stream the size that was asked for and the blocks that it needs. None of them counts as free, unless
there was a hint for a directory longer than this one. A hint that is refused gives the directory's
blocks away. -/
theorem layout_owns {blockSize minBlockCount : Nat} {canGrow : Bool} {calls : List BuilderCall}
    {b₀ : MSFBuilder} {s : Session} {l : MSFLayout}
    (created : create blockSize minBlockCount canGrow = .ok b₀) (proper : ∀ c ∈ calls, c.Proper)
    (done : b₀.run calls = .ok s) (hints : s.HintsTaken)
    (laid : s.builder.generateLayout = .ok l) :
    l.LaidOut blockSize (s.accepted.foldl sizesAfter []) ∧
      (s.builder.directoryBlocks.length ≤ l.directoryBlocks.length →
        ∀ x ∈ l.owned, l.freePageMap[x]? = some false) :=
  generateLayout_spec (run_built created proper done) hints laid

/-- A stream that has shrunk leaves its second block to the directory, and a stream that was refused
has made the file larger. -/
theorem shrunkStream_owns : MSFLayout.LaidOut 512 [100, 600]
    { sb := ⟨magic, 512, 2, 9, 24, 0, 3⟩
      freePageMap := [false, false, false, false, false, false, false, true, false]
      directoryBlocks := [5], streamSizes := [100, 600], streamMap := [[4], [8, 6]] } :=
  (@layout_owns 512 0 true
    [.addStream 1000, .addStreamAt 600 [8, 0], .addStreamAt 600 [8, 6], .setStreamSize 0 100] _ _ _
    rfl (by simp [BuilderCall.Proper]) rfl (fun dirBlocks member => by simp at member) rfl).1

-- Block 4 stays the directory's when the second hint is refused, and goes to the stream.
example : (do
    let b ← create 512 8 true
    let s ← b.run [.setDirectoryBlocksHint [4], .setDirectoryBlocksHint [0], .addStream 1000]
    let l ← s.builder.generateLayout
    .ok (l.directoryBlocks, l.streamMap)) = .ok ([4], [[4, 5]]) := rfl

end MSFBuilder

end LlvmLd.Msf
