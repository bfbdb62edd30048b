import LlvmLd.Msf.Ownership
import Mathlib.Data.List.Induction

/-!
# The blocks of the free page maps

Every block of the form `blockSize * k + 1` or `blockSize * k + 2` belongs to a free page map.
`allocateBlocks` marks the pairs that the file grows over, but not a pair that the file ends right in
front of: the rounding goes on to the next pair from there.
-/

namespace LlvmLd.Msf

open Bitmap

def FpmBlock (blockSize x : Nat) : Prop := x % blockSize = 1 ∨ x % blockSize = 2

instance (blockSize x : Nat) : Decidable (FpmBlock blockSize x) :=
  inferInstanceAs (Decidable (x % blockSize = 1 ∨ x % blockSize = 2))

namespace MSFBuilder

/-- Where such blocks lie between two multiples of the block size. -/
theorem fpm_window {blockSize q x : Nat} (low : blockSize * q < x + blockSize)
    (high : x ≤ blockSize * q) (fpm : FpmBlock blockSize x) :
    x + blockSize = blockSize * q + 1 ∨ x + blockSize = blockSize * q + 2 := by
  obtain ⟨v, next⟩ := Nat.exists_eq_add_of_le (Nat.le_of_lt low)
  have residue : x % blockSize = v % blockSize := by
    rw [← Nat.add_mod_right x blockSize, next, Nat.mul_add_mod]
  rw [FpmBlock, residue] at fpm
  by_cases whole : v = blockSize
  · rw [whole, Nat.mod_self] at fpm
    omega
  · rw [Nat.mod_eq_of_lt (by omega)] at fpm
    omega

/-- No block of a free page map counts as free. -/
def Marked (blockSize : Nat) (bits : List Bool) : Prop :=
  ∀ x < bits.length, FpmBlock blockSize x → bits[x]? = some false

/-- The loop ends: the last pair that is looked at lies behind the file, and the pair before it does
not lie across its end. -/
theorem marks_end {blockSize next q : Nat} {bits : List Bool} (wide : 3 ≤ blockSize)
    (place : next = blockSize * q + 1) (last : bits.length ≤ next)
    (reach : next + 3 ≤ bits.length + blockSize)
    (marked : ∀ x < bits.length, x < next → FpmBlock blockSize x → bits[x]? = some false) :
    Marked blockSize bits ∧ bits.length % blockSize ≠ 2 := by
  constructor
  · intro x inside fpm
    exact marked x inside (by omega) fpm
  · intro between
    by_cases atPair : bits.length = next
    · rw [atPair, place, Nat.mul_add_mod, Nat.mod_eq_of_lt (by omega)] at between
      omega
    · have low : blockSize * q < bits.length + blockSize := by omega
      rcases fpm_window low (by omega) (Or.inr between) with first | second <;> omega

private theorem reserved_marks {blockSize next q : Nat} {bits bits' : List Bool}
    (wide : 3 ≤ blockSize) (reserved : Reserved blockSize next bits bits')
    (place : next = blockSize * q + 1) (reach : next + 3 ≤ bits.length + blockSize)
    (marked : ∀ x < bits.length, x < next → FpmBlock blockSize x → bits[x]? = some false) :
    Marked blockSize bits' ∧ bits'.length % blockSize ≠ 2 := by
  induction reserved generalizing q with
  | ended last => exact marks_end wide place last reach marked
  | @pair next bits bits' more rest ih =>
    have length : (setAll false (resize bits (bits.length + 2)) [next, next + 1]).length =
        bits.length + 2 := by rw [length_setAll, length_resize]
    have place' : next + blockSize = blockSize * (q + 1) + 1 := by
      rw [Nat.mul_succ]
      omega
    -- The loop keeps every pair below `next` marked, and the two blocks it adds are the pair of
    -- this interval.
    have marked' : ∀ x < (setAll false (resize bits (bits.length + 2)) [next, next + 1]).length,
        x < next + blockSize → FpmBlock blockSize x →
        (setAll false (resize bits (bits.length + 2)) [next, next + 1])[x]? = some false := by
      intro x inside before fpm
      rw [length] at inside
      by_cases earlier : x < next
      · have others : x ∉ [next, next + 1] := by
          simp only [List.mem_cons, List.not_mem_nil, or_false]
          omega
        rw [getElem?_setAll_of_notMem _ _ _ _ others,
          getElem?_resize _ _ _ (by omega) (by omega)]
        exact marked x (by omega) earlier fpm
      · -- in this interval the pair is all there is
        have pair : x = next ∨ x = next + 1 := by
          have low : blockSize * (q + 1) < x + blockSize := by
            rw [Nat.mul_succ]
            omega
          have high : x ≤ blockSize * (q + 1) := by
            rw [Nat.mul_succ]
            omega
          have window := fpm_window low high fpm
          rw [Nat.mul_succ] at window
          omega
        apply getElem?_setAll_of_mem
        · simpa using pair
        · rw [length_resize]
          omega
    exact ih place' (by omega) marked'

private theorem grown_marks {b : MSFBuilder} {numBlocks : Nat} {bits : List Bool}
    (grown : Grown b numBlocks bits) (enough : numBlocks ≤ bits.count true)
    (marked : Marked b.blockSize b.freeBlocks) (between : b.freeBlocks.length % b.blockSize ≠ 2)
    (gap : b.freeBlocks.length % b.blockSize ≠ 1) :
    Marked b.blockSize bits ∧ bits.length % b.blockSize ≠ 2 := by
  cases grown with
  | enough free => exact ⟨marked, between⟩
  | wrapped few => omega
  | grown few reserved small =>
    have wide := (blockSize_bounds b.valid).1
    obtain ⟨q, multiple⟩ := dvd_alignTo b.freeBlocks.length b.blockSize
    have above := le_alignTo b.freeBlocks.length b.blockSize (by omega)
    have below := alignTo_lt b.freeBlocks.length b.blockSize (by omega)
    -- the file does not end at or right behind the first block of a pair
    have ended : b.freeBlocks.length + b.blockSize ≠ b.blockSize * q + 1 ∧
        b.freeBlocks.length + b.blockSize ≠ b.blockSize * q + 2 := by
      constructor
      · intro same
        apply gap
        rw [← Nat.add_mod_right, same, Nat.mul_add_mod, Nat.mod_eq_of_lt (by omega)]
      · intro same
        apply between
        rw [← Nat.add_mod_right, same, Nat.mul_add_mod, Nat.mod_eq_of_lt (by omega)]
    apply reserved_marks (q := q) (by omega) reserved (by rw [multiple])
    · rw [length_resize]
      omega
    · intro x inside before fpm
      by_cases old : x < b.freeBlocks.length
      · rw [getElem?_resize _ _ _ old (by omega)]
        exact marked x old fpm
      · have window := fpm_window (q := q) (by omega) (by omega) fpm
        omega

/-- The free page maps have their blocks to themselves. -/
structure Reserves (b : MSFBuilder) : Prop where
  small : b.freeBlocks.length + 63 < 2 ^ 32
  marked : Marked b.blockSize b.freeBlocks
  between : b.freeBlocks.length % b.blockSize ≠ 2
  unowned : ∀ x ∈ b.blockMapAddr :: (b.directoryBlocks ++ b.streamData.flatMap Prod.snd),
    ¬ FpmBlock b.blockSize x

private theorem allocateBlocks_marks {b b' : MSFBuilder} {numBlocks : Nat} {blocks : List Nat}
    (reserves : b.Reserves) (gap : b.freeBlocks.length % b.blockSize ≠ 1)
    (asked : numBlocks < 2 ^ 32) (done : b.allocateBlocks numBlocks = .ok (b', blocks)) :
    Marked b.blockSize b'.freeBlocks ∧ b'.freeBlocks.length % b.blockSize ≠ 2 ∧
      ∀ x ∈ blocks, ¬ FpmBlock b.blockSize x := by
  rcases allocateBlocks_cases reserves.small asked done with
    ⟨-, rfl, rfl⟩ | ⟨bits, grown, enough, -, taken, -⟩
  · exact ⟨reserves.marked, reserves.between, fun x member => absurd member List.not_mem_nil⟩
  · obtain ⟨marked, between⟩ := grown_marks grown enough reserves.marked reserves.between gap
    rw [taken.rest, length_setAll]
    refine ⟨?_, between, ?_⟩
    · intro x inside fpm
      rw [length_setAll] at inside
      exact getElem?_setAll_false _ (marked x inside fpm)
    · intro x member fpm
      -- a block that is given out was free, and those of the maps are not
      obtain ⟨-, free⟩ := taken.free x member
      have cleared := marked x (List.getElem?_eq_some_iff.mp free).1 fpm
      rw [free] at cleared
      cases cleared

private theorem allocated_reserves {b b' : MSFBuilder} {numBlocks : Nat} {blocks : List Nat}
    (reserves : b.Reserves) (gap : b.freeBlocks.length % b.blockSize ≠ 1)
    (asked : numBlocks < 2 ^ 32) (done : b.allocateBlocks numBlocks = .ok (b', blocks))
    (directoryBlocks : List Nat)
    (streamData : List (Nat × List Nat))
    (same : ∀ x ∈ directoryBlocks ++ streamData.flatMap Prod.snd,
      x ∈ b.directoryBlocks ++ b.streamData.flatMap Prod.snd ∨ x ∈ blocks) :
    Reserves { b' with directoryBlocks, streamData } := by
  obtain ⟨spec, -, small, -⟩ := allocateBlocks_spec reserves.small asked done
  obtain ⟨marked, between, fresh⟩ := allocateBlocks_marks reserves gap asked done
  generalize b'.freeBlocks = bits at spec small marked between
  subst spec
  refine ⟨small, marked, between, ?_⟩
  intro x member
  rcases List.mem_cons.mp member with rfl | member
  · exact reserves.unowned _ List.mem_cons_self
  · rcases same x member with old | new
    · exact reserves.unowned x (List.mem_cons_of_mem _ old)
    · exact fresh x new

/-- Blocks that are given back are not blocks of a free page map. -/
theorem released_marked {b : MSFBuilder} (reserves : b.Reserves) {slots : List Nat}
    (own : ∀ x ∈ slots, x ∈ b.directoryBlocks ++ b.streamData.flatMap Prod.snd) :
    Marked b.blockSize (setAll true b.freeBlocks slots) := by
  intro x inside fpm
  rw [length_setAll] at inside
  rw [getElem?_setAll_of_notMem]
  · exact reserves.marked x inside fpm
  · exact fun member => reserves.unowned x (List.mem_cons_of_mem _ (own x member)) fpm

private theorem mem_flatMap_set {streams : List (Nat × List Nat)} {idx size x : Nat}
    {blocks : List Nat} (member : x ∈ (streams.set idx (size, blocks)).flatMap Prod.snd) :
    x ∈ streams.flatMap Prod.snd ∨ x ∈ blocks := by
  obtain ⟨d, inSet, inD⟩ := List.mem_flatMap.mp member
  rcases List.mem_or_eq_of_mem_set inSet with old | new
  · exact Or.inl (List.mem_flatMap.mpr ⟨d, old, inD⟩)
  · rw [new] at inD
    exact Or.inr inD

private theorem setStreamSize_reserves {b b' : MSFBuilder} {idx size : Nat} (reserves : b.Reserves)
    (gap : b.freeBlocks.length % b.blockSize ≠ 1) (bounded : size < 2 ^ 32)
    (done : b.setStreamSize idx size = .ok b') : b'.Reserves := by
  rw [setStreamSize] at done
  split at done
  · cases done
  · rename_i oldSize currentBlocks there
    -- The stream's blocks are the builder's, and none of those is a free page map's.
    have own : ∀ x ∈ currentBlocks, x ∈ b.directoryBlocks ++ b.streamData.flatMap Prod.snd :=
      fun x member => List.mem_append_right _
        (List.mem_flatMap.mpr ⟨_, List.mem_of_getElem? there, member⟩)
    split at done
    · cases done
      exact reserves
    · dsimp only at done
      split at done
      -- It grows: the new blocks are the ones that the allocation just took.
      · obtain ⟨⟨b₁, added⟩, allocated, ended⟩ := Outcome.bind_ok_iff.mp done
        cases ended
        have data : b₁.streamData = b.streamData ∧ b₁.directoryBlocks = b.directoryBlocks := by
          rw [allocateBlocks_same allocated]
          exact ⟨rfl, rfl⟩
        have asked := bytesToBlocks_lt b.valid bounded
        apply allocated_reserves reserves gap (by omega) allocated b₁.directoryBlocks
        intro x member
        rw [data.1, data.2] at member
        rcases List.mem_append.mp member with directory | stream
        · exact Or.inl (List.mem_append_left _ directory)
        · rcases mem_flatMap_set stream with old | new
          · exact Or.inl (List.mem_append_right _ old)
          · exact (List.mem_append.mp new).imp (own x) id
      · -- without an allocation the stream has no blocks that it did not have
        have fewer : ∀ (bits : List Bool) (blocks : List Nat), blocks ⊆ currentBlocks →
            Marked b.blockSize bits → bits.length = b.freeBlocks.length →
            Reserves { b with freeBlocks := bits, streamData := b.streamData.set idx (size, blocks) } := by
          intro bits blocks part marked length
          refine ⟨by rw [length]; exact reserves.small, marked,
            by rw [length]; exact reserves.between, ?_⟩
          intro x member
          rcases List.mem_cons.mp member with rfl | member
          · exact reserves.unowned _ List.mem_cons_self
          · apply reserves.unowned x (List.mem_cons_of_mem _ _)
            rcases List.mem_append.mp member with directory | stream
            · exact List.mem_append_left _ directory
            · rcases mem_flatMap_set stream with old | new
              · exact List.mem_append_right _ old
              · exact own x (part new)
        split at done
        · cases done
          exact fewer _ _ (List.take_subset _ _)
            (released_marked reserves (fun x member => own x (List.drop_subset _ _ member)))
            (length_setAll ..)
        · cases done
          exact fewer b.freeBlocks _ (List.Subset.refl _) reserves.marked rfl

/-- The calls that leave the choice of blocks to the builder. -/
def BuilderCall.Plain : BuilderCall → Prop
  | .addStream _ => True
  | .setStreamSize _ _ => True
  | _ => False

theorem Reserves.accepted {b b' : MSFBuilder} {c : BuilderCall} (reserves : b.Reserves)
    (plain : c.Plain) (proper : c.Proper) (gap : b.freeBlocks.length % b.blockSize ≠ 1)
    (done : b.call c = (b', none)) : b'.Reserves := by
  cases c with
  | addStream size =>
    obtain ⟨⟨b₁, blocks⟩, allocated, ended⟩ := Outcome.bind_ok_iff.mp (orUnchanged_none done)
    cases ended
    have data : b₁.streamData = b.streamData ∧ b₁.directoryBlocks = b.directoryBlocks := by
      rw [allocateBlocks_same allocated]
      exact ⟨rfl, rfl⟩
    refine allocated_reserves reserves gap (bytesToBlocks_lt b.valid proper) allocated
      b₁.directoryBlocks _ ?_
    -- the streams there were, and the blocks of the new one
    intro x member
    rw [data.1, data.2, List.flatMap_append, ← List.append_assoc] at member
    rcases List.mem_append.mp member with old | new
    · exact Or.inl old
    · exact Or.inr (by simpa using new)
  | setStreamSize idx size => exact setStreamSize_reserves reserves gap proper (orUnchanged_none done)
  | _ => exact plain.elim

private theorem refused_plain {b b' : MSFBuilder} {c : BuilderCall} {e : MsfError} (plain : c.Plain)
    (done : b.call c = (b', some e)) : b' = b := by
  cases c with
  | addStream size => exact orUnchanged_some done
  | setStreamSize idx size => exact orUnchanged_some done
  | _ => exact plain.elim

theorem create_reserves {blockSize minBlockCount : Nat} {canGrow : Bool} {b : MSFBuilder}
    (created : create blockSize minBlockCount canGrow = .ok b) (fits : minBlockCount ≤ blockSize) :
    b.Reserves := by
  rw [create] at created
  split at created
  · rename_i valid
    obtain ⟨bits, resized, made⟩ := Outcome.bind_ok_iff.mp created
    obtain ⟨rfl, room⟩ := of_resizeBlocks resized
    cases made
    have wide := (blockSize_bounds valid).1
    have count : max minBlockCount getMinimumBlockCount ≤ blockSize ∧
        4 ≤ max minBlockCount getMinimumBlockCount := by
      rw [getMinimumBlockCount]
      omega
    -- Within the first interval the pair is 1 and 2, which a new file reserves.
    have low : ∀ x ≤ blockSize, FpmBlock blockSize x → x = 1 ∨ x = 2 := by
      intro x le fpm
      rcases Nat.lt_or_eq_of_le le with less | equal
      · rwa [FpmBlock, Nat.mod_eq_of_lt less] at fpm
      · rw [FpmBlock, equal, Nat.mod_self] at fpm
        omega
    constructor
    · rw [length_setAll, length_resize]
      exact room
    · intro x inside fpm
      rw [length_setAll, length_resize] at inside
      apply getElem?_setAll_of_mem
      · rcases low x (by omega) fpm with rfl | rfl
        · decide
        · decide
      · rwa [length_resize]
    · intro between
      rw [length_setAll, length_resize] at between
      have := low _ count.1 (Or.inr between)
      omega
    · intro x member fpm
      rw [List.mem_singleton.mp member] at fpm
      have := low 3 (by omega) fpm
      omega
  · cases created

private theorem placeDirectory_reserves {b b' : MSFBuilder} {n : Nat} (reserves : b.Reserves)
    (gap : b.freeBlocks.length % b.blockSize ≠ 1) (asked : n < 2 ^ 32)
    (done : b.placeDirectory n = .ok b') : b'.Reserves := by
  rw [placeDirectory] at done
  split at done
  -- too few blocks: the directory takes more from the free ones
  · obtain ⟨⟨b₁, extra⟩, allocated, ended⟩ := Outcome.bind_ok_iff.mp done
    cases ended
    have data : b₁.streamData = b.streamData ∧ b₁.directoryBlocks = b.directoryBlocks := by
      rw [allocateBlocks_same allocated]
      exact ⟨rfl, rfl⟩
    apply allocated_reserves reserves gap (by omega) allocated _ b₁.streamData
    intro x member
    rw [data.1, data.2, List.append_assoc] at member
    rcases List.mem_append.mp member with old | member
    · exact Or.inl (List.mem_append_left _ old)
    · rcases List.mem_append.mp member with new | old
      · exact Or.inr new
      · exact Or.inl (List.mem_append_right _ old)
  · split at done
    · cases done
      -- too many: the last ones are freed again, none of which is reserved
      refine ⟨by rw [length_setAll]; exact reserves.small, released_marked reserves ?_,
        by rw [length_setAll]; exact reserves.between, ?_⟩
      · exact fun x member => List.mem_append_left _ (List.take_subset _ _ member)
      · intro x member
        apply reserves.unowned
        rcases List.mem_cons.mp member with rfl | member
        · exact List.mem_cons_self
        · apply List.mem_cons_of_mem
          rcases List.mem_append.mp member with directory | stream
          · exact List.mem_append_left _ (List.take_subset _ _ directory)
          · exact List.mem_append_right _ stream
    · cases done
      exact reserves

/-- The file does not end right in front of a pair in any state of the run. -/
def NoGap (b : MSFBuilder) (calls : List BuilderCall) : Prop :=
  ∀ p s, p <+: calls → b.run p = .ok s →
    s.builder.freeBlocks.length % s.builder.blockSize ≠ 1

/-- The calls keep the blocks of the free page maps apart, as long as the file does not end right in
front of a pair when one of them starts. -/
theorem run_reserves {calls : List BuilderCall} {b : MSFBuilder} {s : Session}
    (reserves : b.Reserves) (plain : ∀ c ∈ calls, c.Plain) (proper : ∀ c ∈ calls, c.Proper)
    (gap : b.NoGap calls) (done : b.run calls = .ok s) : s.builder.Reserves := by
  induction calls using List.reverseRecOn generalizing s with
  | nil =>
    cases done
    exact reserves
  | append_singleton calls c ih =>
    rw [run, List.foldlM_append] at done
    obtain ⟨s₁, first, later⟩ := Outcome.bind_ok_iff.mp done
    obtain ⟨s₂, last, ended⟩ := Outcome.bind_ok_iff.mp later
    cases ended
    have here := gap calls s₁ (List.prefix_append _ _) first
    have reserves₁ := ih (fun d member => plain d (List.mem_append_left _ member))
      (fun d member => proper d (List.mem_append_left _ member))
      (fun p s₂ front => gap p s₂ (front.trans (List.prefix_append _ _))) first
    have own : c ∈ calls ++ [c] := List.mem_append_right _ List.mem_cons_self
    -- a plain call that is refused leaves the builder as it was
    cases Session.step_of_call last with
    | accepted taken => exact reserves₁.accepted (plain c own) (proper c own) here taken
    | refused refused defined =>
      rw [refused_plain (plain c own) refused]
      exact reserves₁

/-- Such calls leave the block map where it is. -/
theorem run_blockMapAddr {blockSize minBlockCount : Nat} {canGrow : Bool} {calls : List BuilderCall}
    {b₀ : MSFBuilder} {s : Session} (created : create blockSize minBlockCount canGrow = .ok b₀)
    (plain : ∀ c ∈ calls, c.Plain) (done : b₀.run calls = .ok s) :
    s.builder.blockMapAddr = kDefaultBlockMapAddr := by
  apply Outcome.foldlM_keeps (I := fun _ s => s.builder.blockMapAddr = kDefaultBlockMapAddr) _ [] _
    done
  · intro _ s s' c member here ended
    cases Session.step_of_call ended with
    | accepted done =>
      rcases (call_effect done).blockMapAddr with same | moved
      · dsimp only
        rw [same, here]
      · have given := plain c member
        -- only a call that is not plain moves the block map
        rw [moved] at given
        exact given.elim
    | refused done defined =>
      rw [refused_plain (plain c member) done]
      exact here
  · rw [create] at created
    split at created
    · obtain ⟨bits, -, made⟩ := Outcome.bind_ok_iff.mp created
      cases made
      rfl
    · cases created

/-- A run takes and refuses only calls that are made. -/
theorem run_calls {P : BuilderCall → Prop} {calls : List BuilderCall} {b : MSFBuilder} {s : Session}
    (made : ∀ c ∈ calls, P c) (done : b.run calls = .ok s) :
    (∀ c ∈ s.accepted, P c) ∧ ∀ c ∈ s.refused, P c := by
  refine Outcome.foldlM_keeps
    (I := fun _ s => (∀ c ∈ s.accepted, P c) ∧ ∀ c ∈ s.refused, P c) ?_ [] ?_ done
  · intro _ s s' c member both ended
    cases Session.step_of_call ended with
    | accepted taken =>
      exact ⟨List.forall_mem_append.mpr ⟨both.1, List.forall_mem_singleton.mpr (made c member)⟩,
        both.2⟩
    | refused refused defined =>
      exact ⟨both.1,
        List.forall_mem_append.mpr ⟨both.2, List.forall_mem_singleton.mpr (made c member)⟩⟩
  · exact ⟨fun c none => absurd none List.not_mem_nil, fun c none => absurd none List.not_mem_nil⟩

/-- Such calls name no blocks for the directory. -/
theorem run_hintsTaken {calls : List BuilderCall} {b : MSFBuilder} {s : Session}
    (plain : ∀ c ∈ calls, c.Plain) (done : b.run calls = .ok s) : s.HintsTaken :=
  fun _ asked => (run_calls plain done).2 _ asked

/-- The layout of a builder that keeps these blocks apart does so too. -/
theorem Reserves.layout {b : MSFBuilder} {l : MSFLayout} (reserves : b.Reserves)
    (gap : b.freeBlocks.length % b.blockSize ≠ 1) (laid : b.generateLayout = .ok l) :
    ∀ x < l.sb.numBlocks, FpmBlock l.sb.blockSize x →
      l.freePageMap[x]? = some false ∧ x ≠ l.sb.blockMapAddr ∧ x ∉ l.directoryBlocks ∧
        ∀ blocks ∈ l.streamMap, x ∉ blocks := by
  obtain ⟨b', placed, ended⟩ := Outcome.bind_ok_iff.mp laid
  cases ended
  have reserves' := placeDirectory_reserves reserves gap b.directoryBlocks_lt placed
  intro x inside fpm
  refine ⟨reserves'.marked x inside fpm, ?_, ?_, ?_⟩
  · rintro rfl
    exact reserves'.unowned _ List.mem_cons_self fpm
  · intro member
    exact reserves'.unowned x (List.mem_cons_of_mem _ (List.mem_append_left _ member)) fpm
  · intro blocks stream member
    obtain ⟨d, inData, rfl⟩ := List.mem_map.mp stream
    exact reserves'.unowned x (List.mem_cons_of_mem _ (List.mem_append_right _
      (List.mem_flatMap.mpr ⟨d, inData, member⟩))) fpm

/-- No stream and no part of the directory lies on a block of a free page map, and all these blocks
count as used, when the file starts with one interval at most and never ends right in front of a
pair. -/
theorem layout_reserves {blockSize minBlockCount : Nat} {canGrow : Bool} {calls : List BuilderCall}
    {b₀ : MSFBuilder} {s : Session} {l : MSFLayout}
    (created : create blockSize minBlockCount canGrow = .ok b₀) (fits : minBlockCount ≤ blockSize)
    (plain : ∀ c ∈ calls, c.Plain) (proper : ∀ c ∈ calls, c.Proper) (gap : b₀.NoGap calls)
    (done : b₀.run calls = .ok s) (laid : s.builder.generateLayout = .ok l) :
    ∀ x < l.sb.numBlocks, FpmBlock l.sb.blockSize x →
      l.freePageMap[x]? = some false ∧ x ≠ l.sb.blockMapAddr ∧ x ∉ l.directoryBlocks ∧
        ∀ blocks ∈ l.streamMap, x ∉ blocks :=
  (run_reserves (create_reserves created fits) plain proper gap done).layout
    (gap calls s List.prefix_rfl done) laid

/-- One call leaves two states to look at. -/
theorem noGap_one {b : MSFBuilder} {c : BuilderCall}
    (before : b.freeBlocks.length % b.blockSize ≠ 1)
    (after : ∀ s, b.run [c] = .ok s → s.builder.freeBlocks.length % s.builder.blockSize ≠ 1) :
    b.NoGap [c] := by
  intro p s front ends
  rcases p with _ | ⟨d, p⟩
  · cases ends
    exact before
  · obtain ⟨rfl, rest⟩ := List.cons_prefix_cons.mp front
    obtain rfl := List.prefix_nil.mp rest
    exact after s ends

/-- Two blocks for a stream and one for the directory. -/
theorem oneStream_reserves :
    [false, false, false, false, false, false, false][2]? = some false ∧ 2 ≠ 3 ∧ 2 ∉ [6] ∧
      ∀ blocks ∈ [[4, 5]], 2 ∉ blocks :=
  @layout_reserves 512 0 true [.addStream 1000] _ _
    { sb := ⟨magic, 512, 2, 7, 16, 0, 3⟩
      freePageMap := [false, false, false, false, false, false, false]
      directoryBlocks := [6], streamSizes := [1000], streamMap := [[4, 5]] }
    rfl (by decide) (by simp [BuilderCall.Plain]) (by simp [BuilderCall.Proper])
    (noGap_one (by decide) (fun s ends => by obtain rfl := Except.ok.inj ends; decide))
    rfl rfl 2 (by decide) (by decide)

/-! ### Files that end in front of a pair -/

private theorem Reserved.getElem? {blockSize next : Nat} {bits bits' : List Bool}
    (reserved : Reserved blockSize next bits bits') {x : Nat} (inside : x < bits.length)
    (before : x < next) : bits'[x]? = bits[x]? := by
  induction reserved with
  | ended last => rfl
  | @pair next bits bits' more rest ih =>
    have others : x ∉ [next, next + 1] := by
      simp only [List.mem_cons, List.not_mem_nil, or_false]
      omega
    rw [ih (by rw [length_setAll, length_resize]; omega) (by omega),
      getElem?_setAll_of_notMem _ _ _ _ others, getElem?_resize _ _ _ inside (by omega)]

/-- What a file that grows starts with: the blocks that it had, and a free one behind them. -/
theorem grown_front {b : MSFBuilder} {numBlocks : Nat} {bits : List Bool}
    (few : b.freeBlocks.count true < numBlocks) (enough : numBlocks ≤ bits.count true)
    (grown : Grown b numBlocks bits) :
    (∀ x < b.freeBlocks.length, bits[x]? = b.freeBlocks[x]?) ∧
      bits[b.freeBlocks.length]? = some true := by
  have wide := (blockSize_bounds b.valid).1
  have above := le_alignTo b.freeBlocks.length b.blockSize (by omega)
  cases grown with
  | enough free => omega
  | wrapped short => omega
  -- the pairs that are reserved lie behind the old end, which is free itself
  | grown _ reserved small =>
    constructor
    · intro x inside
      rw [reserved.getElem? (by rw [length_resize]; omega) (by omega),
        getElem?_resize _ _ _ inside (by omega)]
    · rw [reserved.getElem? (by rw [length_resize]; omega) (by omega),
        getElem?_resize_new _ _ _ (Nat.le_refl _) (by omega)]

/-- The block right behind the old end is given away, also where it is of the form
`blockSize * k + 1`. -/
theorem allocateBlocks_takes_end {b b' : MSFBuilder} {numBlocks : Nat} {blocks : List Nat}
    (small : b.freeBlocks.length + 63 < 2 ^ 32) (asked : numBlocks < 2 ^ 32)
    (few : b.freeBlocks.count true < numBlocks)
    (done : b.allocateBlocks numBlocks = .ok (b', blocks)) : b.freeBlocks.length ∈ blocks := by
  rcases allocateBlocks_cases small asked done with
    ⟨zero, -, -⟩ | ⟨bits, grown, enough, length, taken, -⟩
  · omega
  · obtain ⟨old, new⟩ := grown_front few enough grown
    by_contra passed
    -- only blocks in front of it would be taken, and the file has too few of them
    have front : ∀ i ∈ blocks, b.freeBlocks[i]? = some true := by
      intro i member
      have before : i < b.freeBlocks.length := by
        rcases Nat.lt_trichotomy i b.freeBlocks.length with less | same | greater
        · exact less
        · exact absurd (same ▸ member) passed
        · exact absurd (taken.first i member _ (Nat.zero_le _) greater new) passed
      rw [← old i before]
      exact (taken.free i member).2
    have fewer := length_le_count taken.nodup front
    omega

end MSFBuilder

end LlvmLd.Msf
