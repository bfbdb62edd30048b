import LlvmLd.Lib.WeakOrder

/-!
`Writer::sortCRTSectionChunks`: the chunks of a `.CRT` section are put in the order in which their
object files list them, by a comparator that says nothing about chunks of different files.
-/

namespace LlvmLd.Writer.Crt

open WeakOrder

structure ObjFile where
  index : Nat
  -- the buffer identifier, which members of two archives can share
  name : String
  deriving DecidableEq, Repr

structure SectionChunk where
  file : ObjFile
  sectionNumber : Nat
  deriving DecidableEq, Repr

def sectionChunkOrder (sa sb : SectionChunk) : Bool :=
  decide (sa.file.name = sb.file.name) && decide (sa.sectionNumber < sb.sectionNumber)

def sortCRTSectionChunks (sort : StableSort SectionChunk) (chunks : List SectionChunk) :
    List SectionChunk :=
  sort.run sectionChunkOrder chunks

private theorem sectionChunkOrder_iff (a b : SectionChunk) : sectionChunkOrder a b = true ↔
    a.file.name = b.file.name ∧ a.sectionNumber < b.sectionNumber := by
  simp [sectionChunkOrder]

/-- No chunk is lost, and the chunks of one object stand in the order of their sections. -/
structure Initialised (chunks sorted : List SectionChunk) : Prop where
  perm : sorted.Perm chunks
  ascending : sorted.Pairwise (fun a b => a.file = b.file → a.sectionNumber ≤ b.sectionNumber)

/-- All chunks come from files of one name, or no name has chunks with different numbers. -/
def Comparable (chunks : List SectionChunk) : Prop :=
  (∀ a ∈ chunks, ∀ b ∈ chunks, a.file.name = b.file.name) ∨
    ∀ a ∈ chunks, ∀ b ∈ chunks, a.file.name = b.file.name → a.sectionNumber = b.sectionNumber

instance (chunks : List SectionChunk) : Decidable (Comparable chunks) :=
  inferInstanceAs (Decidable (_ ∨ _))

private theorem strictWeakOn_iff (chunks : List SectionChunk) :
    StrictWeakOn sectionChunkOrder chunks ↔ Comparable chunks := by
  constructor
  · intro weak
    by_contra neither
    obtain ⟨names, numbers⟩ := not_or.mp neither
    have apart : ∀ a ∈ chunks, ∀ b ∈ chunks, sectionChunkOrder a b = true →
        ∀ c ∈ chunks, a.file.name = c.file.name := by
      intro a a_mem b b_mem before c c_mem
      -- a chunk of another name is incomparable to both
      rcases weak.either a_mem c_mem b_mem before with h | h
      · exact ((sectionChunkOrder_iff a c).mp h).1
      · have same := ((sectionChunkOrder_iff a b).mp before).1
        exact same.trans ((sectionChunkOrder_iff c b).mp h).1.symm
    have none : ∀ a ∈ chunks, ∀ b ∈ chunks, sectionChunkOrder a b = false := by
      intro a a_mem b b_mem
      by_contra before
      have all := apart a a_mem b b_mem ((Bool.not_eq_false _).mp before)
      exact names (fun c c_mem d d_mem => (all c c_mem).symm.trans (all d d_mem))
    apply numbers
    intro a a_mem b b_mem same
    have ab := none a a_mem b b_mem
    have ba := none b b_mem a a_mem
    rw [← Bool.not_eq_true, sectionChunkOrder_iff] at ab ba
    have not_lt : ¬a.sectionNumber < b.sectionNumber := fun h => ab ⟨same, h⟩
    have not_gt : ¬b.sectionNumber < a.sectionNumber := fun h => ba ⟨same.symm, h⟩
    omega
  · intro comparable
    apply strictWeakOn_of
    · intro a _ b _ before
      rw [sectionChunkOrder_iff] at before
      rw [← Bool.not_eq_true, sectionChunkOrder_iff]
      omega
    · intro a a_mem b b_mem c c_mem before
      rw [sectionChunkOrder_iff] at before ⊢
      rw [sectionChunkOrder_iff]
      rcases comparable with names | numbers
      · have ab := names a a_mem b b_mem
        have bc := names b b_mem c c_mem
        by_cases lower : a.sectionNumber < b.sectionNumber
        · exact .inl ⟨ab, lower⟩
        · exact .inr ⟨bc, by omega⟩
      · have same := numbers a a_mem c c_mem before.1
        omega

open Classical in
/-- A sort that returns nothing when its precondition does not hold. -/
noncomputable def givingUp : StableSort SectionChunk where
  run := fun less range => if StrictWeakOn less range then WeakOrder.insertion less range else []
  perm := fun less range weak => by
    rw [if_pos weak]
    exact insertion_perm less range
  sorted := fun less range weak => by
    rw [if_pos weak]
    exact insertion_sorted weak
  stable := fun less range weak a b after pair => by
    rw [if_pos weak]
    exact insertion_stable less range a b after pair

/-- The order of initialisers is certain exactly when the comparator orders the chunks. -/
theorem sortCRTSectionChunks_iff (chunks : List SectionChunk) :
    (∀ sort : StableSort SectionChunk, Initialised chunks (sortCRTSectionChunks sort chunks)) ↔
      Comparable chunks := by
  rw [← strictWeakOn_iff]
  constructor
  · intro certain
    by_contra weak
    have lost : sortCRTSectionChunks givingUp chunks = [] := if_neg weak
    have perm := (certain givingUp).perm
    rw [lost] at perm
    apply weak
    rw [← perm.nil_eq, strictWeakOn_iff]
    exact .inl (by simp)
  · intro weak sort
    constructor
    · exact sort.perm _ _ weak
    · refine (sort.sorted _ _ weak).imp (fun {a b} not_before same => ?_)
      rw [← Bool.not_eq_true, sectionChunkOrder_iff] at not_before
      by_contra above
      exact not_before ⟨by rw [same], by omega⟩

/-- Two initialisers of one object, the second in front, with other objects between them. -/
def interleaved : List SectionChunk :=
  [⟨⟨1, "b.obj"⟩, 1⟩, ⟨⟨0, "a.obj"⟩, 2⟩, ⟨⟨2, "c.obj"⟩, 1⟩, ⟨⟨0, "a.obj"⟩, 1⟩]

/-- An insertion sort never compares the two chunks of `a.obj`. -/
theorem interleaved_not_initialised :
    ¬Initialised interleaved (sortCRTSectionChunks (.insertion _) interleaved) := by
  intro initialised
  have ascending := initialised.ascending
  revert ascending
  decide

end LlvmLd.Writer.Crt
