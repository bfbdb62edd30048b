import LlvmLd.Writer.FinalBaserels
import LlvmLd.Writer.WriteSections

/-!
What the loader reads out of the base relocation blocks. The blocks are the runs of equal pages in
the sorted list, except that the first run carries the page of the element that happened to come
first before sorting.
-/

namespace LlvmLd.Writer

open Memory

/-- A base relocation as the loader can apply it: a 32-bit address and a type that is no padding. -/
def Baserel.Encodable (rel : Baserel) : Prop := rel.rva < 2 ^ 32 ∧ 1 ≤ rel.type ∧ rel.type < 16

def Baserel.page (rel : Baserel) : Nat := pageOf rel.rva

def Chunk.blockBytes (c : Chunk) : Bytes :=
  match c.body with
  | .baserel page entries => baserelBlock page entries
  | _ => []

/-- `BaserelChunk::writeTo` copies the block. -/
theorem writeTo_baserelChunk (w : WriteEnv) (ctx : Context) (sections : List OutputSection)
    (page : Nat) (entries : List Baserel) (buf : Int) (m : Mem) :
    (baserelChunk page entries).writeTo w ctx sections buf m =
      (writeBytes m buf (baserelChunk page entries).blockBytes, []) := rfl

/-! ### The loader's side -/

def decodeEntries (page : Nat) : Bytes → List Baserel
  | low :: high :: rest =>
    let entry := low.toNat + 256 * high.toNat
    if entry = 0 then decodeEntries page rest
    else ⟨page + entry % 4096, entry / 4096⟩ :: decodeEntries page rest
  | _ => []

def decodeBlocks (b : Bytes) : List Baserel :=
  let size := b.u32At 4
  if 8 ≤ size ∧ size ≤ b.length then
    decodeEntries (b.u32At 0) (b.slice 8 (size - 8)) ++ decodeBlocks (b.drop size)
  else []
  termination_by b.length
  decreasing_by
    rw [List.length_drop]
    omega

/-- The blocks say `v` to the loader: one well-sized block for each page, in order. -/
structure BlocksDecode (blocks : List Bytes) (v : List Baserel) : Prop where
  sizes : ∀ b ∈ blocks, b.u32At 4 = b.length ∧ 4 ∣ b.length
  ascending : (blocks.map (fun b => b.u32At 0)).Pairwise (· < ·)
  pages : ∀ page, page ∈ blocks.map (fun b => b.u32At 0) ↔ page ∈ v.map Baserel.page
  decoded : (decodeBlocks blocks.flatten).Perm v

/-! ### Runs -/

/-- The pages and entries of the chunks that the loop of `addBaserelBlocks` makes. -/
def pageRuns (page : Nat) (group : List Baserel) : List Baserel → List (Nat × List Baserel)
  | [] => [(page, group)]
  | rel :: rest =>
    if rel.page = page then pageRuns page (group ++ [rel]) rest
    else (page, group) :: pageRuns rel.page [rel] rest

private theorem baserelGroups_eq (page : Nat) (group rest : List Baserel) :
    baserelGroups page group rest =
      (pageRuns page group rest).map (fun run => baserelChunk run.1 run.2) := by
  induction rest generalizing page group with
  | nil => rfl
  | cons rel rest ih =>
    rw [baserelGroups, pageRuns, Baserel.page]
    split
    · exact ih page _
    · rw [ih, List.map_cons]

private theorem pageRuns_entries (page : Nat) (group rest : List Baserel) :
    (pageRuns page group rest).flatMap Prod.snd = group ++ rest := by
  have recorded := recorded_baserelGroups page group rest
  rw [baserelGroups_eq, List.flatMap_map] at recorded
  exact recorded

/-- All entries of a run lie in its page. -/
def InPage (run : Nat × List Baserel) : Prop := ∀ rel ∈ run.2, rel.page = run.1

/-- Only the first run can hold entries outside its page: those of the given group. -/
theorem pageRuns_head (page : Nat) (group rest : List Baserel) :
    ∃ more later, pageRuns page group rest = (page, group ++ more) :: later ∧
      (∀ rel ∈ more, rel.page = page) ∧ ∀ run ∈ later, run.2 ≠ [] ∧ InPage run := by
  induction rest generalizing page group with
  | nil => exact ⟨[], [], by simp [pageRuns], by simp, by simp⟩
  | cons rel rest ih =>
    rw [pageRuns]
    by_cases same : rel.page = page
    · obtain ⟨more, later, runs, inMore, inLater⟩ := ih page (group ++ [rel])
      refine ⟨rel :: more, later, by rw [if_pos same, runs]; simp, ?_, inLater⟩
      exact List.forall_mem_cons.mpr ⟨same, inMore⟩
    · obtain ⟨more, later, runs, inMore, inLater⟩ := ih rel.page [rel]
      refine ⟨[], pageRuns rel.page [rel] rest, by rw [if_neg same]; simp, by simp, ?_⟩
      rw [runs]
      refine List.forall_mem_cons.mpr ⟨⟨by simp, ?_⟩, inLater⟩
      exact List.forall_mem_cons.mpr ⟨rfl, inMore⟩

private theorem pageRuns_ascending (page : Nat) (group rest : List Baserel)
    (sorted : rest.Pairwise (fun a b => a.page ≤ b.page)) (above : ∀ rel ∈ rest, page ≤ rel.page) :
    ((pageRuns page group rest).map Prod.fst).Pairwise (· < ·) ∧
      ∀ run ∈ pageRuns page group rest, page ≤ run.1 := by
  induction rest generalizing page group with
  | nil => simp [pageRuns]
  | cons rel rest ih =>
    obtain ⟨first, sortedRest⟩ := List.pairwise_cons.mp sorted
    obtain ⟨here, aboveRest⟩ := List.forall_mem_cons.mp above
    rw [pageRuns]
    -- an entry of the page at hand joins the run, any other has a later page
    by_cases same : rel.page = page
    · rw [if_pos same]
      exact ih page _ sortedRest aboveRest
    · rw [if_neg same]
      obtain ⟨ascending, atLeast⟩ := ih rel.page [rel] sortedRest first
      constructor
      · rw [List.map_cons, List.pairwise_cons]
        refine ⟨?_, ascending⟩
        intro next member
        obtain ⟨run, inRuns, rfl⟩ := List.mem_map.mp member
        have := atLeast run inRuns
        omega
      · refine List.forall_mem_cons.mpr ⟨Nat.le_refl _, ?_⟩
        intro run member
        have := atLeast run member
        omega

/-- A page's run holds every entry of the page. -/
theorem countP_of_mem_runs (runs : List (Nat × List Baserel))
    (ascending : (runs.map Prod.fst).Pairwise (· < ·)) (inPage : ∀ run ∈ runs, InPage run)
    (run : Nat × List Baserel) (member : run ∈ runs) :
    (runs.flatMap Prod.snd).countP (fun rel => rel.page = run.1) = run.2.length := by
  induction runs with
  | nil => cases member
  | cons head rest ih =>
    rw [List.map_cons, List.pairwise_cons] at ascending
    obtain ⟨inHead, inRest⟩ := List.forall_mem_cons.mp inPage
    rw [List.flatMap_cons, List.countP_append]
    rcases List.mem_cons.mp member with rfl | later
    -- the run of the page counts whole, and the runs behind it have later pages
    · have all : run.2.countP (fun rel => rel.page = run.1) = run.2.length :=
        List.countP_eq_length.mpr (by simpa [InPage] using inHead)
      have none : (rest.flatMap Prod.snd).countP (fun rel => rel.page = run.1) = 0 := by
        rw [List.countP_eq_zero]
        intro rel inFlat
        obtain ⟨other, inOther, inEntries⟩ := List.mem_flatMap.mp inFlat
        have above := ascending.1 other.1 (List.mem_map_of_mem inOther)
        have own := inRest other inOther rel inEntries
        simp only [decide_eq_true_eq]
        omega
      rw [all, none, Nat.add_zero]
    · have none : head.2.countP (fun rel => rel.page = run.1) = 0 := by
        rw [List.countP_eq_zero]
        intro rel inEntries
        have above := ascending.1 run.1 (List.mem_map_of_mem later)
        have own := inHead rel inEntries
        simp only [decide_eq_true_eq]
        omega
      rw [none, Nat.zero_add]
      exact ih ascending.2 inRest later

/-! ### Decoding -/

/-- What the loader makes of one entry of a block. -/
def recode (page : Nat) (rel : Baserel) : List Baserel :=
  let entry := (rel.type * 2 ^ 12 ||| uint32 (rel.rva + 2 ^ 32 - page)) % 65536
  if entry = 0 then [] else [⟨page + entry % 4096, entry / 4096⟩]

def entryBytes (page : Nat) (rel : Baserel) : Bytes :=
  le16 (rel.type * 2 ^ 12 ||| uint32 (rel.rva + 2 ^ 32 - page))

private theorem decodeEntries_entryBytes (page : Nat) (rel : Baserel) (rest : Bytes) :
    decodeEntries page (entryBytes page rel ++ rest) =
      recode page rel ++ decodeEntries page rest := by
  have value : ∀ n, (UInt8.ofNat n).toNat + 256 * (UInt8.ofNat (n / 256)).toNat = n % 65536 := by
    intro n
    simp only [UInt8.toNat_ofNat']
    omega
  simp only [entryBytes, le16, List.cons_append, List.nil_append, decodeEntries, value, recode]
  split <;> rfl

private theorem decodeEntries_zeros (page k : Nat) : decodeEntries page (List.replicate k 0) =
    [] := by
  induction k using Nat.twoStepInduction with
  | zero => rfl
  | one => rfl
  | more k ih _ =>
    rw [List.replicate_succ, List.replicate_succ, decodeEntries]
    exact ih

private theorem decodeEntries_words (page k : Nat) (entries : List Baserel) :
    decodeEntries page (entries.flatMap (entryBytes page) ++ List.replicate k 0) =
      entries.flatMap (recode page) := by
  induction entries with
  | nil => exact decodeEntries_zeros page k
  | cons rel rest ih =>
    rw [List.flatMap_cons, List.append_assoc, decodeEntries_entryBytes, ih, List.flatMap_cons]

def blockSize (entries : List Baserel) : Nat := alignTo (entries.length * 2 + 8) 4

private theorem baserelBlock_eq (page : Nat) (entries : List Baserel) :
    ∃ k, baserelBlock page entries = le32 page ++ (le32 (blockSize entries) ++
      (entries.flatMap (entryBytes page) ++ List.replicate k 0)) := by
  refine ⟨blockSize entries - (le32 page ++ le32 (blockSize entries) ++
    entries.flatMap (entryBytes page)).length, ?_⟩
  rw [baserelBlock]
  simp only [List.append_assoc]
  rfl

private theorem u32At_baserelBlock_page (page : Nat) (entries : List Baserel) (rest : Bytes) :
    Bytes.u32At (baserelBlock page entries ++ rest) 0 = uint32 page := by
  obtain ⟨k, layout⟩ := baserelBlock_eq page entries
  rw [layout, List.append_assoc, u32At_le32]

private theorem u32At_baserelBlock_size (page : Nat) (entries : List Baserel) (rest : Bytes) :
    Bytes.u32At (baserelBlock page entries ++ rest) 4 = uint32 (blockSize entries) := by
  obtain ⟨k, layout⟩ := baserelBlock_eq page entries
  rw [layout, List.append_assoc, u32At_le32_append page _ 0, List.append_assoc, u32At_le32]

/-- A block whose size fits its field is read back entry by entry. -/
theorem decodeBlocks_append (page : Nat) (entries : List Baserel) (rest : Bytes)
    (small : page < 2 ^ 32) (fits : blockSize entries < 2 ^ 32) :
    decodeBlocks (baserelBlock page entries ++ rest) =
      entries.flatMap (recode page) ++ decodeBlocks rest := by
  have length : (baserelBlock page entries).length = blockSize entries :=
    length_baserelBlock page entries
  have header : 8 ≤ blockSize entries :=
    Nat.le_trans (by omega) (le_alignTo (entries.length * 2 + 8) 4 (by omega))
  obtain ⟨k, layout⟩ := baserelBlock_eq page entries
  -- behind the header lie the entries, and zeros up to the size that it gives
  have body : (baserelBlock page entries ++ rest).slice 8 (blockSize entries - 8) =
      entries.flatMap (entryBytes page) ++ List.replicate k 0 := by
    have total := congrArg List.length layout
    rw [length] at total
    simp only [List.length_append, length_le32] at total
    have start : (baserelBlock page entries ++ rest).drop 8 =
        (entries.flatMap (entryBytes page) ++ List.replicate k 0) ++ rest := by
      rw [layout]
      rfl
    rw [Bytes.slice, start, List.take_left' (by simp only [List.length_append]; omega)]
  rw [decodeBlocks]
  simp only [u32At_baserelBlock_page, u32At_baserelBlock_size]
  rw [uint32_of_le page (by unfold uint32Max; omega),
    uint32_of_le (blockSize entries) (by unfold uint32Max; omega), body,
    decodeEntries_words, List.drop_left' length, if_pos ⟨header, by simp [length]⟩]

private theorem decodeBlocks_flatten (runs : List (Nat × List Baserel))
    (small : ∀ run ∈ runs, run.1 < 2 ^ 32) (fits : ∀ run ∈ runs, blockSize run.2 < 2 ^ 32) :
    decodeBlocks (runs.flatMap (fun run => baserelBlock run.1 run.2)) =
      runs.flatMap (fun run => run.2.flatMap (recode run.1)) := by
  induction runs with
  | nil =>
    rw [List.flatMap_nil, decodeBlocks, if_neg (by decide)]
    rfl
  | cons run rest ih =>
    obtain ⟨smallHere, smallRest⟩ := List.forall_mem_cons.mp small
    obtain ⟨fitsHere, fitsRest⟩ := List.forall_mem_cons.mp fits
    rw [List.flatMap_cons, decodeBlocks_append run.1 run.2 _ smallHere fitsHere,
      ih smallRest fitsRest, List.flatMap_cons]

private theorem recode_own_page (rel : Baserel) (encodable : rel.Encodable) :
    recode rel.page rel = [rel] := by
  obtain ⟨small, positive, short⟩ := encodable
  have offset : uint32 (rel.rva + 2 ^ 32 - rel.page) = rel.rva % 4096 := by
    unfold uint32 Baserel.page pageOf
    omega
  have entry : (rel.type * 2 ^ 12 ||| rel.rva % 4096) % 65536 =
      rel.type * 4096 + rel.rva % 4096 := by
    have low : rel.rva % 4096 < 2 ^ 12 := Nat.mod_lt _ (by decide)
    rw [Nat.mul_comm, ← Nat.two_pow_add_eq_or_of_lt low]
    omega
  rw [recode, offset]
  simp only [entry]
  rw [if_neg (by omega)]
  have rva : rel.page + (rel.type * 4096 + rel.rva % 4096) % 4096 = rel.rva := by
    simp only [Baserel.page, pageOf]
    omega
  have type : (rel.type * 4096 + rel.rva % 4096) / 4096 = rel.type := by omega
  rw [rva, type]

/-- Whatever an entry decodes to, it lies in the page of its block. -/
theorem recode_page (page : Nat) (aligned : 4096 ∣ page) (rel out : Baserel)
    (member : out ∈ recode page rel) : out.page = page := by
  rw [recode] at member
  split at member
  · cases member
  · obtain rfl := List.mem_singleton.mp member
    rw [Baserel.page, pageOf]
    dsimp only
    omega

private theorem length_recode_le (page : Nat) (entries : List Baserel) :
    (entries.flatMap (recode page)).length ≤ entries.length := by
  induction entries with
  | nil => exact Nat.le_refl 0
  | cons rel rest ih =>
    have one : (recode page rel).length ≤ 1 := by
      rw [recode]
      split
      · exact Nat.zero_le 1
      · exact Nat.le_refl 1
    rw [List.flatMap_cons, List.length_append, List.length_cons]
    omega

private theorem recode_inPage (run : Nat × List Baserel) (inPage : InPage run)
    (encodable : ∀ rel ∈ run.2, rel.Encodable) : run.2.flatMap (recode run.1) = run.2 := by
  calc run.2.flatMap (recode run.1) = run.2.flatMap (fun rel => [rel]) := by
        apply List.flatMap_congr
        intro rel member
        rw [← inPage rel member]
        exact recode_own_page rel (encodable rel member)
    _ = run.2 := List.flatMap_singleton' run.2

/-! ### The blocks of a section -/

def runBlocks (runs : List (Nat × List Baserel)) : List Bytes :=
  runs.map (fun run => baserelBlock run.1 run.2)

private theorem runBlocks_flatten (runs : List (Nat × List Baserel)) :
    (runBlocks runs).flatten = runs.flatMap (fun run => baserelBlock run.1 run.2) := by
  rw [runBlocks, List.flatMap_def]

private theorem runBlocks_pages (runs : List (Nat × List Baserel))
    (small : ∀ run ∈ runs, run.1 < 2 ^ 32) :
    (runBlocks runs).map (fun b => b.u32At 0) = runs.map Prod.fst := by
  rw [runBlocks, List.map_map]
  apply List.map_congr_left
  intro run member
  have page := u32At_baserelBlock_page run.1 run.2 []
  rw [List.append_nil] at page
  rw [Function.comp_apply, page]
  exact uint32_of_le _ (by have := small run member; unfold uint32Max; omega)

/-- A block states its size unless the size needs more than 32 bits. -/
theorem runBlocks_sizes_iff (runs : List (Nat × List Baserel)) :
    (∀ b ∈ runBlocks runs, b.u32At 4 = b.length ∧ 4 ∣ b.length) ↔
      ∀ run ∈ runs, blockSize run.2 < 2 ^ 32 := by
  rw [runBlocks, List.forall_mem_map]
  apply forall₂_congr
  intro run member
  have size := u32At_baserelBlock_size run.1 run.2 []
  rw [List.append_nil] at size
  rw [size, length_baserelBlock]
  constructor
  · rintro ⟨stated, -⟩
    unfold uint32 blockSize at stated
    simp only [blockSize]
    omega
  · intro fits
    refine ⟨uint32_of_le _ (by unfold uint32Max; omega), dvd_alignTo _ _⟩

def inPageCount (page : Nat) (rels : List Baserel) : Nat :=
  rels.countP (fun rel => rel.page = page)

private theorem inPageCount_recode_ne (page : Nat) (run : Nat × List Baserel)
    (aligned : 4096 ∣ run.1) (other : run.1 ≠ page) :
    inPageCount page (run.2.flatMap (recode run.1)) = 0 := by
  rw [inPageCount, List.countP_eq_zero]
  intro out member
  obtain ⟨rel, -, recoded⟩ := List.mem_flatMap.mp member
  rw [recode_page run.1 aligned rel out recoded]
  simpa using other

/-- Decoding never adds an entry to a page. -/
theorem inPageCount_recode_le (page : Nat) (runs : List (Nat × List Baserel))
    (aligned : ∀ run ∈ runs, 4096 ∣ run.1) (inPage : ∀ run ∈ runs, InPage run) :
    inPageCount page (runs.flatMap (fun run => run.2.flatMap (recode run.1))) ≤
      inPageCount page (runs.flatMap Prod.snd) := by
  induction runs with
  | nil => exact Nat.le_refl _
  | cons run rest ih =>
    obtain ⟨alignedHere, alignedRest⟩ := List.forall_mem_cons.mp aligned
    obtain ⟨inHere, inRest⟩ := List.forall_mem_cons.mp inPage
    have later := ih alignedRest inRest
    have here : inPageCount page (run.2.flatMap (recode run.1)) ≤ inPageCount page run.2 := by
      by_cases same : run.1 = page
      -- a run of the page loses entries at most, a run of another adds none
      · have all : inPageCount page run.2 = run.2.length :=
          List.countP_eq_length.mpr (by simpa [InPage, same] using inHere)
        rw [all]
        exact Nat.le_trans List.countP_le_length (length_recode_le run.1 run.2)
      · rw [inPageCount_recode_ne page run alignedHere same]
        exact Nat.zero_le _
    simp only [inPageCount] at later here ⊢
    rw [List.flatMap_cons, List.flatMap_cons, List.countP_append, List.countP_append]
    exact Nat.add_le_add here later

/-- An entry outside the page of the first block is lost to its own page. -/
theorem head_inPage_of_decode (head : Nat × List Baserel) (later : List (Nat × List Baserel))
    (v : List Baserel) (aligned : ∀ run ∈ head :: later, 4096 ∣ run.1)
    (small : ∀ run ∈ head :: later, run.1 < 2 ^ 32) (inPage : ∀ run ∈ later, InPage run)
    (entries : ((head :: later).flatMap Prod.snd).Perm v)
    (decode : BlocksDecode (runBlocks (head :: later)) v) : InPage head := by
  intro rel member
  by_contra elsewhere
  have decoded := decode.decoded
  rw [runBlocks_flatten, decodeBlocks_flatten _ small ((runBlocks_sizes_iff _).mp decode.sizes)]
    at decoded
  have counts := (decoded.trans entries.symm).countP_eq (fun out => out.page = rel.page)
  obtain ⟨alignedHead, alignedLater⟩ := List.forall_mem_cons.mp aligned
  have none := inPageCount_recode_ne rel.page head alignedHead (Ne.symm elsewhere)
  have some_ : 0 < inPageCount rel.page head.2 :=
    List.countP_pos_iff.mpr ⟨rel, member, by simp⟩
  have rest := inPageCount_recode_le rel.page later alignedLater inPage
  simp only [inPageCount] at none some_ rest
  rw [List.flatMap_cons, List.flatMap_cons, List.countP_append, List.countP_append] at counts
  omega

private theorem blocksDecode_of_inPage (runs : List (Nat × List Baserel)) (v : List Baserel)
    (entries : (runs.flatMap Prod.snd).Perm v) (encodable : ∀ rel ∈ v, rel.Encodable)
    (ascending : (runs.map Prod.fst).Pairwise (· < ·))
    (inPage : ∀ run ∈ runs, run.2 ≠ [] ∧ InPage run)
    (fits : ∀ run ∈ runs, blockSize run.2 < 2 ^ 32) : BlocksDecode (runBlocks runs) v := by
  have inEntries : ∀ run ∈ runs, ∀ rel ∈ run.2, rel ∈ v := by
    intro run member rel inRun
    exact entries.mem_iff.mp (List.mem_flatMap.mpr ⟨run, member, inRun⟩)
  -- The page of an encodable entry fits in the header's 32 bits.
  have small : ∀ run ∈ runs, run.1 < 2 ^ 32 := by
    intro run member
    obtain ⟨rel, inRun⟩ := List.exists_mem_of_ne_nil run.2 (inPage run member).1
    have bound := (encodable rel (inEntries run member rel inRun)).1
    rw [← (inPage run member).2 rel inRun]
    simp only [Baserel.page, pageOf]
    omega
  refine ⟨(runBlocks_sizes_iff runs).mpr fits, ?_, ?_, ?_⟩
  · rw [runBlocks_pages runs small]
    exact ascending
  · intro page
    rw [runBlocks_pages runs small]
    constructor
    · intro member
      obtain ⟨run, inRuns, rfl⟩ := List.mem_map.mp member
      obtain ⟨rel, inRun⟩ := List.exists_mem_of_ne_nil run.2 (inPage run inRuns).1
      exact List.mem_map.mpr ⟨rel, inEntries run inRuns rel inRun, (inPage run inRuns).2 rel inRun⟩
    · intro member
      obtain ⟨rel, inV, rfl⟩ := List.mem_map.mp member
      obtain ⟨run, inRuns, inRun⟩ := List.mem_flatMap.mp (entries.mem_iff.mpr inV)
      exact List.mem_map.mpr ⟨run, inRuns, ((inPage run inRuns).2 rel inRun).symm⟩
  · rw [runBlocks_flatten, decodeBlocks_flatten runs small fits]
    -- Relative to the page of its own block an entry decodes to itself.
    have same : runs.flatMap (fun run => run.2.flatMap (recode run.1)) = runs.flatMap Prod.snd := by
      apply List.flatMap_congr
      intro run member
      exact recode_inPage run (inPage run member).2
        (fun rel inRun => encodable rel (inEntries run member rel inRun))
    rw [same]
    exact entries

/-! ### Main result -/

/-- The element that stands first before sorting lies in the lowest page. -/
def StartsOnLowestPage (v : List Baserel) : Prop :=
  ∀ first ∈ v.head?, ∀ rel ∈ v, first.page ≤ rel.page

/-- The size of every page's block fits its 32-bit field. -/
def SizesFit (v : List Baserel) : Prop :=
  ∀ page, alignTo (inPageCount page v * 2 + 8) 4 < 2 ^ 32

private theorem dvd_page (rel : Baserel) : 4096 ∣ rel.page := Nat.dvd_mul_left 4096 _

private theorem page_mono (a b : Baserel) (le : a.rva ≤ b.rva) : a.page ≤ b.page := by
  simp only [Baserel.page, pageOf]
  omega

/-- When the group lies in the first page, the runs are the pages of a sorted list. -/
theorem pageRuns_sorted (least : Baserel) (rest : List Baserel)
    (sorted : (least :: rest).Pairwise (fun a b => a.rva ≤ b.rva)) :
    ((pageRuns least.page [least] rest).map Prod.fst).Pairwise (· < ·) ∧
      ∀ run ∈ pageRuns least.page [least] rest, run.2 ≠ [] ∧ InPage run := by
  obtain ⟨lowest, sortedRest⟩ := List.pairwise_cons.mp sorted
  constructor
  · exact (pageRuns_ascending _ _ _ (sortedRest.imp (fun le => page_mono _ _ le))
      (fun rel member => page_mono _ _ (lowest rel member))).1
  · obtain ⟨more, later, runs, inMore, inLater⟩ := pageRuns_head least.page [least] rest
    rw [runs]
    refine List.forall_mem_cons.mpr ⟨⟨by simp, ?_⟩, inLater⟩
    exact List.forall_mem_cons.mpr ⟨rfl, inMore⟩

/-- Then a block for each page fits exactly when each run fits. -/
theorem sizesFit_iff (runs : List (Nat × List Baserel)) (v : List Baserel)
    (entries : (runs.flatMap Prod.snd).Perm v) (ascending : (runs.map Prod.fst).Pairwise (· < ·))
    (inPage : ∀ run ∈ runs, InPage run) :
    SizesFit v ↔ ∀ run ∈ runs, blockSize run.2 < 2 ^ 32 := by
  have count : ∀ page, inPageCount page v = inPageCount page (runs.flatMap Prod.snd) :=
    fun page => (entries.countP_eq _).symm
  constructor
  · intro fits run member
    have here := fits run.1
    rw [count, inPageCount, countP_of_mem_runs runs ascending inPage run member] at here
    exact here
  · intro fits page
    rw [count, inPageCount]
    -- a page without a run has no entries, and its block would be empty
    by_cases known : page ∈ runs.map Prod.fst
    · obtain ⟨run, member, rfl⟩ := List.mem_map.mp known
      rw [countP_of_mem_runs runs ascending inPage run member]
      exact fits run member
    · have none : (runs.flatMap Prod.snd).countP (fun rel => rel.page = page) = 0 := by
        rw [List.countP_eq_zero]
        intro rel inFlat
        obtain ⟨run, member, inRun⟩ := List.mem_flatMap.mp inFlat
        rw [inPage run member rel inRun]
        have other : run.1 ≠ page := fun same => known (List.mem_map.mpr ⟨run, member, same⟩)
        simpa using other
      rw [none]
      decide

/-- The blocks of a section decode to its base relocations exactly when the first one collected
lies in the lowest page, as long as no page has more entries than a block can count. -/
theorem addBaserelBlocks_decode_iff (ctx : Context) (v : List Baserel) (nonempty : v ≠ [])
    (encodable : ∀ rel ∈ v, rel.Encodable) :
    BlocksDecode ((addBaserelBlocks ctx.sort v).map Chunk.blockBytes) v ↔
      StartsOnLowestPage v ∧ SizesFit v := by
  obtain ⟨first, tail, rfl⟩ := List.exists_cons_of_ne_nil nonempty
  obtain ⟨least, rest, ordered⟩ : ∃ least rest, ctx.sort (first :: tail) = least :: rest :=
    List.exists_cons_of_ne_nil (fun empty => by
      have perm := ctx.sort_perm (first :: tail)
      rw [empty] at perm
      exact absurd perm.nil_eq (by simp))
  have perm := ctx.sort_perm (first :: tail)
  have sorted := ctx.sort_sorted (first :: tail)
  rw [ordered] at perm sorted
  -- The loop opens its first block on the page of the first one collected, then cuts the sorted
  -- list into runs.
  have blocks : (addBaserelBlocks ctx.sort (first :: tail)).map Chunk.blockBytes =
      runBlocks (pageRuns first.page [least] rest) := by
    simp only [addBaserelBlocks, ordered]
    rw [baserelGroups_eq, List.map_map]
    rfl
  have entries : ((pageRuns first.page [least] rest).flatMap Prod.snd).Perm (first :: tail) := by
    rw [pageRuns_entries]
    exact perm
  have lowest : ∀ rel ∈ first :: tail, least.page ≤ rel.page := by
    intro rel member
    rcases List.mem_cons.mp (perm.mem_iff.mpr member) with rfl | behind
    · exact Nat.le_refl _
    · exact page_mono _ _ ((List.pairwise_cons.mp sorted).1 rel behind)
  rw [blocks]
  constructor
  -- The least one lands in that first block, and decodes to itself only on its own page.
  · intro decode
    have start : least.page = first.page := by
      obtain ⟨more, later, runs, -, inLater⟩ := pageRuns_head first.page [least] rest
      rw [runs] at decode entries
      have inV : ∀ run ∈ (first.page, [least] ++ more) :: later, ∃ rel ∈ first :: tail,
          run.1 = rel.page := by
        refine List.forall_mem_cons.mpr ⟨⟨first, List.mem_cons_self .., rfl⟩, ?_⟩
        intro run member
        obtain ⟨rel, inRun⟩ := List.exists_mem_of_ne_nil run.2 (inLater run member).1
        exact ⟨rel, entries.mem_iff.mp (List.mem_flatMap.mpr
          ⟨run, List.mem_cons_of_mem _ member, inRun⟩), ((inLater run member).2 rel inRun).symm⟩
      refine head_inPage_of_decode _ later (first :: tail) ?_ ?_
        (fun run member => (inLater run member).2) entries decode least (List.mem_cons_self ..)
      · intro run member
        obtain ⟨rel, -, page⟩ := inV run member
        rw [page]
        exact Nat.dvd_mul_left 4096 _
      · intro run member
        obtain ⟨rel, known, page⟩ := inV run member
        have := (encodable rel known).1
        rw [page]
        simp only [Baserel.page, pageOf]
        omega
    rw [← start] at decode entries
    obtain ⟨ascending, inPage⟩ := pageRuns_sorted least rest sorted
    constructor
    · intro _ head rel member
      obtain rfl := Option.some.inj head
      rw [← start]
      exact lowest rel member
    · exact (sizesFit_iff _ _ entries ascending (fun run member => (inPage run member).2)).mpr
        ((runBlocks_sizes_iff _).mp decode.sizes)
  -- Where the first one collected is on the lowest page, the runs are those of the sorted list.
  · rintro ⟨starts, fits⟩
    have start : least.page = first.page := Nat.le_antisymm (lowest first (List.mem_cons_self ..))
      (starts first rfl least (perm.mem_iff.mp (List.mem_cons_self ..)))
    rw [← start] at entries ⊢
    obtain ⟨ascending, inPage⟩ := pageRuns_sorted least rest sorted
    exact blocksDecode_of_inPage _ _ entries encodable ascending inPage
      ((sizesFit_iff _ _ entries ascending (fun run member => (inPage run member).2)).mp fits)

theorem one_page_decodes :
    BlocksDecode ((addBaserelBlocks (Context.default .amd64).sort
      [⟨0x1008, 10⟩, ⟨0x1000, 10⟩]).map Chunk.blockBytes) [⟨0x1008, 10⟩, ⟨0x1000, 10⟩] :=
  (addBaserelBlocks_decode_iff (Context.default .amd64) [⟨0x1008, 10⟩, ⟨0x1000, 10⟩] (by simp)
    (by simp [Baserel.Encodable])).mpr
    ⟨by simp [StartsOnLowestPage, Baserel.page, pageOf], by
      intro page
      have short : inPageCount page [⟨0x1008, 10⟩, ⟨0x1000, 10⟩] ≤ 2 := List.countP_le_length
      simp only [alignTo]
      omega⟩

/-- The page of the entry that was collected first is used for the lower page too. -/
theorem higher_page_first_loses_page :
    ¬ BlocksDecode ((addBaserelBlocks (Context.default .amd64).sort
      [⟨0x2000, 10⟩, ⟨0x1000, 10⟩]).map Chunk.blockBytes) [⟨0x2000, 10⟩, ⟨0x1000, 10⟩] := by
  intro decode
  have block := (decode.pages 0x1000).mpr (by decide)
  revert block
  decide

end LlvmLd.Writer
