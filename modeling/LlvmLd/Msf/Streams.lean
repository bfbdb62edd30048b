import LlvmLd.Gsi.StreamSizes
import LlvmLd.Msf.Ownership

/-!
# The streams of the symbol tables in the file

`GSIStreamBuilder::finalizeMsfLayout` is modelled over a builder that only counts the free blocks.
Here the count is that of the builder which hands out the blocks.
-/

namespace LlvmLd.Msf

open Bitmap Outcome

namespace MSFBuilder

/-! ### Free blocks -/

/-- A pair of free page map blocks costs just the blocks that are added for it. -/
theorem Reserved.count_eq {blockSize next : Nat} {bits bits' : List Bool} (wide : 2 ≤ blockSize)
    (reserved : Reserved blockSize next bits bits')
    (behind : ∀ i, next ≤ i → i < bits.length → bits[i]? = some true) :
    bits'.count true = bits.count true := by
  induction reserved with
  | ended last => rfl
  | @pair next bits bits' more rest ih =>
    -- the file grows by two free blocks, which the pair takes away again
    have larger : ∀ i, next ≤ i → i < bits.length + 2 →
        (resize bits (bits.length + 2))[i]? = some true := by
      intro i above below
      by_cases old : i < bits.length
      · rw [getElem?_resize _ _ _ old (Nat.le_add_right _ 2), behind i above old]
      · exact getElem?_resize_new _ _ _ (by omega) below
    have marked := @count_setAll_false (resize bits (bits.length + 2)) [next, next + 1] (by simp) (by
      intro i member
      simp only [List.mem_cons, List.not_mem_nil, or_false] at member
      exact larger i (by omega) (by omega))
    rw [count_resize _ _ (Nat.le_add_right _ 2), List.length_cons, List.length_singleton] at marked
    rw [ih]
    · omega
    · intro i above below
      rw [length_setAll, length_resize] at below
      rw [getElem?_setAll_of_notMem _ _ _ _ (by simp; omega)]
      exact larger i (by omega) below

/-- Growing adds just the blocks that are missing. -/
theorem Grown.count_eq {b : MSFBuilder} {numBlocks : Nat} {bits : List Bool}
    (grown : Grown b numBlocks bits) (enough : numBlocks ≤ bits.count true) :
    bits.count true = max (b.freeBlocks.count true) numBlocks := by
  obtain ⟨wide, -, -⟩ := blockSize_bounds b.valid
  cases grown with
  | enough free => omega
  | wrapped few => omega
  | grown few reserved small =>
    have above := le_alignTo b.freeBlocks.length b.blockSize (by omega)
    rw [reserved.count_eq (by omega), count_resize _ _ (by omega)]
    · omega
    · intro i behind below
      rw [length_resize] at below
      exact getElem?_resize_new _ _ _ (by omega) below

private theorem allocateBlocks_count {b b' : MSFBuilder} {numBlocks : Nat} {blocks : List Nat}
    (small : b.freeBlocks.length + 63 < 2 ^ 32) (asked : numBlocks < 2 ^ 32)
    (done : b.allocateBlocks numBlocks = .ok (b', blocks)) :
    b'.freeBlocks.count true = b.freeBlocks.count true - numBlocks := by
  rcases allocateBlocks_cases small asked done with
    ⟨rfl, rfl, -⟩ | ⟨bits, grown, enough, length, taken, -⟩
  · rfl
  · have grew := grown.count_eq enough
    have left := count_setAll_false taken.nodup (fun i member => (taken.free i member).2)
    rw [← taken.rest, length] at left
    omega

/-! ### Adding streams -/

/-- What adding streams looks at. -/
def sizesOnly (b : MSFBuilder) : Gsi.MSFBuilder :=
  ⟨b.isGrowable, b.blockSize, b.freeBlocks.count true, b.streamData.map Prod.fst⟩

private theorem bytesToBlocks_eq {blockSize : Nat} (valid : isValidBlockSize blockSize = true)
    (size : Nat) : Gsi.bytesToBlocks size blockSize = bytesToBlocks size blockSize := by
  have wide := (blockSize_bounds valid).1
  rw [Gsi.bytesToBlocks, bytesToBlocks, divideCeil]
  by_cases empty : size = 0
  · subst empty
    rw [if_neg (by simp), Nat.zero_add, Nat.zero_sub, Nat.zero_div]
    exact Nat.div_eq_of_lt (by omega)
  · have shifted : size + blockSize - 1 = size - 1 + blockSize := by omega
    rw [if_pos empty, shifted, Nat.add_div_right _ (by omega)]

/-- A file of fixed size refuses what it has no room for. -/
theorem allocateBlocks_full {b : MSFBuilder} {numBlocks : Nat} (fixed : b.isGrowable = false)
    (few : b.freeBlocks.count true < numBlocks) :
    b.allocateBlocks numBlocks =
      .error (.msf .insufficientBuffer "There are no free Blocks in the file") := by
  rw [allocateBlocks, if_neg (by omega), grow, if_pos few, if_pos fixed]

/-- A stream that is added takes as many blocks as the counting builder takes away. -/
theorem addStream_counted {b b' : MSFBuilder} {size : Nat} (owns : b.Owns)
    (done : b.addStream size = .ok b') (bounded : size < 2 ^ 32) :
    b.sizesOnly.addStream size = .ok (b'.sizesOnly, b.streamData.length) := by
  obtain ⟨⟨b₁, blocks⟩, allocated, ended⟩ := bind_ok_iff.mp done
  have asked := bytesToBlocks_lt b.valid bounded
  -- a call that succeeds had the blocks or could grow
  have room : ¬(b.freeBlocks.count true < bytesToBlocks size b.blockSize ∧ ¬b.isGrowable) := by
    rintro ⟨few, fixed⟩
    rw [allocateBlocks_full (Bool.eq_false_of_not_eq_true fixed) few] at allocated
    cases allocated
  have left := allocateBlocks_count owns.small asked allocated
  have same := allocateBlocks_same allocated
  generalize b₁.freeBlocks = bits at same left
  subst same
  cases ended
  simp only [Gsi.MSFBuilder.addStream, Gsi.MSFBuilder.allocateBlocks, sizesOnly,
    bytesToBlocks_eq b.valid, if_neg room, Except.map, left, List.map_append, List.length_map]
  rfl

private theorem addStream_streams {b b' : MSFBuilder} {size : Nat} (done : b.addStream size = .ok b') :
    b'.streamData.length = b.streamData.length + 1 := by
  obtain ⟨⟨b₁, blocks⟩, allocated, ended⟩ := bind_ok_iff.mp done
  have same := allocateBlocks_same allocated
  generalize b₁.freeBlocks = bits at same
  subst same
  cases ended
  exact List.length_append

private theorem resizeBlocks_avoids (bits : List Bool) (count : Nat) (code : MsfErrorCode)
    (message : String) :
    Avoids (.msf code message) (fun _ => True) (resizeBlocks bits count) := by
  rw [resizeBlocks]
  split
  · exact fun same => by cases same
  · trivial

private theorem reserveFpm_avoids (blockSize fuel next : Nat) (bits : List Bool) (code : MsfErrorCode)
    (message : String) :
    Avoids (.msf code message) (fun _ => True) (reserveFpm blockSize fuel next bits) := by
  induction fuel generalizing next bits with
  | zero => exact fun same => by cases same
  | succ fuel ih =>
    rw [reserveFpm]
    split
    · exact (resizeBlocks_avoids _ _ _ _).bind fun bits _ => ih _ _
    · trivial

/-- The other errors of an allocation are those of numbers that leave the 32 bits. -/
private theorem allocateBlocks_refused {b : MSFBuilder} {numBlocks : Nat} {code : MsfErrorCode}
    {message : String} (refused : b.allocateBlocks numBlocks = .error (.msf code message)) :
    b.isGrowable = false ∧ b.freeBlocks.count true < numBlocks := by
  rw [allocateBlocks] at refused
  split at refused
  · cases refused
  · split at refused
    · rename_i e grew
      cases refused
      rw [grow] at grew
      split at grew
      · rename_i few
        split at grew
        · rename_i fixed
          exact ⟨fixed, few⟩
        -- past that check, growing can only fail without a message of its own
        · exact absurd grew (((resizeBlocks_avoids _ _ _ _).bind
            fun bits _ => reserveFpm_avoids _ _ _ _ _ _).ne)
      · cases grew
    · split at refused
      · cases refused
      · cases refused

/-- Both builders refuse a stream for want of room in the same files. -/
theorem addStream_refused_iff {b : MSFBuilder} {size : Nat} :
    b.addStream size = .error (.msf .insufficientBuffer "There are no free Blocks in the file") ↔
      b.sizesOnly.addStream size = .error .insufficientBuffer := by
  -- over the sizes alone: the file cannot grow and has too few free blocks
  have counted : b.sizesOnly.addStream size = .error .insufficientBuffer ↔
      b.isGrowable = false ∧ b.freeBlocks.count true < bytesToBlocks size b.blockSize := by
    simp only [Gsi.MSFBuilder.addStream, Gsi.MSFBuilder.allocateBlocks, sizesOnly,
      bytesToBlocks_eq b.valid]
    split
    · rename_i full
      exact iff_of_true rfl ⟨Bool.eq_false_of_not_eq_true full.2, full.1⟩
    · rename_i room
      refine iff_of_false (fun same => by cases same) fun full => room ⟨full.2, ?_⟩
      rw [full.1]
      exact Bool.false_ne_true
  rw [counted]
  constructor
  · intro refused
    apply allocateBlocks_refused
    cases allocated : b.allocateBlocks (bytesToBlocks size b.blockSize) with
    | ok r =>
      rw [addStream, allocated] at refused
      cases refused
    | error e =>
      rw [addStream, allocated] at refused
      exact congrArg _ (Except.error.inj refused)
  · rintro ⟨fixed, few⟩
    rw [addStream, allocateBlocks_full fixed few]
    rfl

/-- The layout of the symbol streams counts what the file's builder does. -/
theorem finalizeMsfLayout_counted {b b₁ b₂ b₃ : MSFBuilder} (owns : b.Owns)
    {gsi : Gsi.GSIStreamBuilder} {rangeSort : Gsi.RangeSort} {order : List Nat} {recordBytes : Nat}
    (globals : b.addStream
      (gsi.finalizeGlobalBuckets rangeSort order).calculateSerializedLength = .ok b₁)
    (publics : b₁.addStream (gsi.calculatePublicsHashStreamSize
      (gsi.finalizePublicBuckets rangeSort order)) = .ok b₂)
    (sized : gsi.recordBytes = .ok recordBytes) (records : b₂.addStream recordBytes = .ok b₃) :
    gsi.finalizeMsfLayout rangeSort order b.sizesOnly = .ok
      { psh := gsi.finalizePublicBuckets rangeSort order
        gsh := gsi.finalizeGlobalBuckets rangeSort order
        globalsStreamIndex := b.streamData.length
        publicsStreamIndex := b.streamData.length + 1
        recordStreamIndex := b.streamData.length + 2
        msf := b₃.sizesOnly } := by
  -- the sum of the records has been checked against 32 bits
  have small : recordBytes < 2 ^ 32 := by
    rw [Gsi.GSIStreamBuilder.recordBytes] at sized
    split at sized
    · cases sized
    · rename_i fits
      cases sized
      have max : uint32Max = 2 ^ 32 - 1 := rfl
      omega
  have below (n : Nat) : uint32 n < 2 ^ 32 := Nat.mod_lt n (by decide)
  have owns₁ := owns.addStream (below _) globals
  have owns₂ := owns₁.addStream (below _) publics
  have first := addStream_counted owns globals (below _)
  have second := addStream_counted owns₁ publics (below _)
  have third := addStream_counted owns₂ records small
  rw [Gsi.GSIStreamBuilder.finalizeMsfLayout]
  simp only [first, second, third, sized, bind, Except.bind]
  rw [addStream_streams publics, addStream_streams globals]

end MSFBuilder

end LlvmLd.Msf
