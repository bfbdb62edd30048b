import LlvmLd.Lib.WeakOrder
import LlvmLd.Gsi.Records

/-!
# Kept globals and the address map

Which global symbols `addGlobalSymbol` keeps, and `computeAddrMap` of `GSIStreamBuilder.cpp`.

Proof strategy: `globalsSeen` holds the typedefs and constants of the calls so far. `AddrCmp`
compares a key; with distinct names no two publics have the same key, so an unstable sort has only
one result, here as in the sort by name.
-/

namespace LlvmLd.Gsi

open Codeview WeakOrder

/-! ### Kept globals -/

/-- The records of which one copy is enough. -/
abbrev Deduplicated (symbol : Bytes) : Prop :=
  symbolKind symbol = .udt ∨ symbolKind symbol = .constant

/-- Whether the call at `i` adds a record. -/
def keeps (symbols : List Bytes) (i : Nat) : Bool :=
  ¬ (Deduplicated (symbols.getD i []) ∧ symbols.getD i [] ∈ symbols.take i)

def keptGlobals (keep : Nat → Bool) (symbols : List Bytes) : List Bytes :=
  (symbols.zipIdx.filter (fun entry => keep entry.2)).map Prod.fst

private theorem keeps_append (symbols more : List Bytes) (i : Nat) (inside : i < symbols.length) :
    keeps (symbols ++ more) i = keeps symbols i := by
  simp only [keeps, List.getD_append _ _ _ _ inside,
    List.take_append_of_le_length (Nat.le_of_lt inside)]

private theorem keptGlobals_concat (symbols : List Bytes) (symbol : Bytes) :
    keptGlobals (keeps (symbols ++ [symbol])) (symbols ++ [symbol]) =
      keptGlobals (keeps symbols) symbols ++
        if Deduplicated symbol ∧ symbol ∈ symbols then [] else [symbol] := by
  -- what comes later does not change what has been kept
  have before : symbols.zipIdx.filter (fun entry => keeps (symbols ++ [symbol]) entry.2) =
      symbols.zipIdx.filter (fun entry => keeps symbols entry.2) := by
    refine List.filter_congr (fun entry member => keeps_append _ _ _ ?_)
    simpa using List.snd_lt_of_mem_zipIdx member
  have last : keeps (symbols ++ [symbol]) symbols.length =
      decide (¬ (Deduplicated symbol ∧ symbol ∈ symbols)) := by
    simp [keeps]
  rw [keptGlobals, List.zipIdx_append, List.filter_append, List.map_append, before]
  congr 1
  by_cases again : Deduplicated symbol ∧ symbol ∈ symbols
  · rw [if_pos again]
    simp [last, again]
  · rw [if_neg again]
    simp [last, again]

/-- What the builder has seen and kept after some calls. -/
theorem foldl_addGlobalSymbol_kept (symbols : List Bytes) :
    (∀ x, x ∈ (symbols.foldl GSIStreamBuilder.addGlobalSymbol .empty).globalsSeen ↔
      Deduplicated x ∧ x ∈ symbols) ∧
    (symbols.foldl GSIStreamBuilder.addGlobalSymbol .empty).globals =
      keptGlobals (keeps symbols) symbols := by
  induction symbols using List.reverseRecOn with
  | nil => simp [GSIStreamBuilder.empty, keptGlobals]
  | append_singleton symbols symbol ih =>
    obtain ⟨seen, globals⟩ := ih
    rw [List.foldl_append, List.foldl_cons, List.foldl_nil, keptGlobals_concat, ← globals]
    generalize symbols.foldl GSIStreamBuilder.addGlobalSymbol .empty = b at seen
    -- What the builder has seen before is what came before, among the kinds it deduplicates.
    have again : (Deduplicated symbol ∧ symbol ∈ b.globalsSeen) ↔
        Deduplicated symbol ∧ symbol ∈ symbols := by
      rw [seen]
      tauto
    unfold GSIStreamBuilder.addGlobalSymbol
    dsimp only
    by_cases dropped : Deduplicated symbol ∧ symbol ∈ symbols
    · rw [if_pos (again.mpr dropped), if_pos dropped, List.append_nil]
      refine ⟨?_, rfl⟩
      intro x
      rw [seen, List.mem_append, List.mem_singleton]
      constructor
      · exact fun ⟨kind, member⟩ => ⟨kind, Or.inl member⟩
      · rintro ⟨kind, member | rfl⟩
        · exact ⟨kind, member⟩
        · exact dropped
    · rw [if_neg (fun both => dropped (again.mp both)), if_neg dropped]
      refine ⟨?_, rfl⟩
      intro x
      rw [List.mem_append, List.mem_singleton]
      by_cases kind : Deduplicated symbol
      · rw [if_pos kind, List.mem_cons, seen]
        constructor
        · rintro (rfl | ⟨kindX, member⟩)
          · exact ⟨kind, Or.inr rfl⟩
          · exact ⟨kindX, Or.inl member⟩
        · rintro ⟨kindX, member | rfl⟩
          · exact Or.inr ⟨kindX, member⟩
          · exact Or.inl rfl
      · rw [if_neg kind, seen]
        constructor
        · exact fun ⟨kindX, member⟩ => ⟨kindX, Or.inl member⟩
        · rintro ⟨kindX, member | rfl⟩
          · exact ⟨kindX, member⟩
          · exact absurd kindX kind

/-- A call is dropped iff its record is a typedef or constant that an earlier call has kept. -/
structure GlobalsKept (symbols : List Bytes) (b : GSIStreamBuilder) : Prop where
  kept : ∃ keep : Nat → Bool,
    (∀ (i : Nat) (symbol : Bytes), symbols[i]? = some symbol → (keep i = false ↔
      Deduplicated symbol ∧ ∃ j < i, keep j = true ∧ symbols[j]? = some symbol)) ∧
    b.globals = keptGlobals keep symbols
  size : b.globalBytes = (b.globals.map List.length).sum

/-- The first of several equal records is the one that is kept. -/
theorem keeps_eq_false_iff (symbols : List Bytes) (i : Nat) (symbol : Bytes)
    (found : symbols[i]? = some symbol) : keeps symbols i = false ↔
      Deduplicated symbol ∧ ∃ j < i, keeps symbols j = true ∧ symbols[j]? = some symbol := by
  have value : symbols.getD i [] = symbol := by
    rw [List.getD_eq_getElem?_getD, found, Option.getD_some]
  have dropped : keeps symbols i = false ↔ Deduplicated symbol ∧ symbol ∈ symbols.take i := by
    simp only [keeps, value, decide_eq_false_iff_not, not_not]
  rw [dropped]
  refine and_congr_right (fun kind => ⟨fun member => ?_, ?_⟩)
  · have inside : symbol ∈ symbols := List.mem_of_mem_take member
    have here : symbols[symbols.idxOf symbol]? = some symbol := List.getElem?_idxOf inside
    have below : symbols.idxOf symbol < i := (List.mem_take_iff_idxOf_lt inside).mp member
    -- the first place at which the record stands is one that keeps it
    have fresh : symbol ∉ symbols.take (symbols.idxOf symbol) := by
      rw [List.mem_take_iff_idxOf_lt inside]
      exact Nat.lt_irrefl _
    have valueThere : symbols.getD (symbols.idxOf symbol) [] = symbol := by
      rw [List.getD_eq_getElem?_getD, here, Option.getD_some]
    refine ⟨_, below, ?_, here⟩
    simp only [keeps, valueThere, decide_eq_true_eq]
    exact fun both => fresh both.2
  · rintro ⟨j, below, -, there⟩
    have inTake : (symbols.take i)[j]? = some symbol := by
      rw [List.getElem?_take_of_lt below, there]
    exact List.mem_of_getElem? inTake

private theorem globalsKept (symbols : List Bytes) :
    GlobalsKept symbols (symbols.foldl GSIStreamBuilder.addGlobalSymbol .empty) where
  kept := ⟨keeps symbols, keeps_eq_false_iff symbols, (foldl_addGlobalSymbol_kept symbols).2⟩
  size := foldl_addGlobalSymbol_globalBytes .empty symbols rfl

/-! ### The address map -/

def BulkPublic.empty : BulkPublic := ⟨[], 0, 0, 0, 0⟩

/-- `parallelSort` of indices, which is not stable. -/
structure IndexSort where
  run : (Nat → Nat → Bool) → List Nat → List Nat
  perm : ∀ less range, StrictWeakOn less range → (run less range).Perm range
  sorted : ∀ less range, StrictWeakOn less range →
    (run less range).Pairwise (fun a b => less b a = false)

/-- `AddrCmp` on the publics that the indices stand for. -/
def addrLess (l r : BulkPublic) : Bool :=
  if l.segment ≠ r.segment then l.segment < r.segment
  else if l.offset ≠ r.offset then l.offset < r.offset
  else l.name < r.name

def computeAddrMap (sort : IndexSort) (publics : List BulkPublic) : List Nat :=
  -- the bound of the loop is an `int`
  let e : Int := (publics.length : Int).bmod (2 ^ 32)
  let pubAddrMap := List.range e.toNat
  let addrCmp := fun lIdx rIdx => addrLess (publics.getD lIdx .empty) (publics.getD rIdx .empty)
  (sort.run addrCmp pubAddrMap).map (fun entry => (publics.getD entry .empty).symOffset)

/-- The order by segment, offset and name. -/
def AddrBefore (a b : BulkPublic) : Prop :=
  a.segment < b.segment ∨
    a.segment = b.segment ∧ (a.offset < b.offset ∨ a.offset = b.offset ∧ a.name < b.name)

private theorem strictWeakOn_name (range : List BulkPublic) :
    StrictWeakOn (fun l r => decide (l.name < r.name)) range := by
  apply strictWeakOn_of
  · intro a _ b _ before
    rw [decide_eq_true_eq] at before
    exact decide_eq_false (List.lt_asymm before)
  · intro a _ b _ c _ before
    simp only [decide_eq_true_eq] at before ⊢
    by_contra neither
    obtain ⟨notAB, notBC⟩ := not_or.mp neither
    exact List.not_lt.mpr (List.le_trans (List.not_lt.mp notBC) (List.not_lt.mp notAB)) before

private theorem addrLess_eq : addrLess = thenBy BulkPublic.segment
    (thenBy BulkPublic.offset (fun l r => decide (l.name < r.name))) := rfl

private theorem strictWeakOn_addrLess (range : List BulkPublic) : StrictWeakOn addrLess range := by
  rw [addrLess_eq]
  exact strictWeakOn_thenBy _ (strictWeakOn_thenBy _ (strictWeakOn_name range))

private theorem addrLess_iff (a b : BulkPublic) : addrLess a b = true ↔ AddrBefore a b := by
  rw [addrLess_eq, thenBy_iff, thenBy_iff, decide_eq_true_eq, AddrBefore]

/-- Neither comes first only among publics of one name. -/
theorem name_of_not_less (a b : BulkPublic) (ab : addrLess a b = false)
    (ba : addrLess b a = false) : a.name = b.name := by
  rw [← Bool.not_eq_true, addrLess_iff] at ab ba
  have segment : a.segment = b.segment :=
    Nat.le_antisymm (Nat.not_lt.mp (fun lower => ba (Or.inl lower)))
      (Nat.not_lt.mp (fun lower => ab (Or.inl lower)))
  have offset : a.offset = b.offset :=
    Nat.le_antisymm (Nat.not_lt.mp (fun lower => ba (Or.inr ⟨segment.symm, Or.inl lower⟩)))
      (Nat.not_lt.mp (fun lower => ab (Or.inr ⟨segment, Or.inl lower⟩)))
  have notAB : ¬ a.name < b.name := fun lower => ab (Or.inr ⟨segment, Or.inr ⟨offset, lower⟩⟩)
  have notBA : ¬ b.name < a.name := fun lower =>
    ba (Or.inr ⟨segment.symm, Or.inr ⟨offset.symm, lower⟩⟩)
  exact List.le_antisymm (List.not_lt.mp notBA) (List.not_lt.mp notAB)

def DistinctNames (publics : List BulkPublic) : Prop := (publics.map BulkPublic.name).Nodup

theorem DistinctNames.same {publics : List BulkPublic} (distinct : DistinctNames publics)
    {a b : BulkPublic} (a_mem : a ∈ publics) (b_mem : b ∈ publics) (same : a.name = b.name) :
    a = b :=
  List.inj_on_of_nodup_map distinct a_mem b_mem same

/-- The publics in the order of the map. -/
def byAddress (sort : IndexSort) (publics : List BulkPublic) : List BulkPublic :=
  (sort.run (fun l r => addrLess (publics.getD l .empty) (publics.getD r .empty))
    (List.range publics.length)).map (fun entry => publics.getD entry .empty)

theorem map_getD_range (publics : List BulkPublic) :
    (List.range publics.length).map (fun entry => publics.getD entry .empty) = publics := by
  apply List.ext_getElem?
  intro i
  by_cases inside : i < publics.length
  · simp [inside]
  · simp [Nat.not_lt.mp inside]

private theorem byAddress_perm (sort : IndexSort) (publics : List BulkPublic) :
    (byAddress sort publics).Perm publics := by
  have weak := (strictWeakOn_map (fun entry => publics.getD entry .empty)
    (List.range publics.length)).mp (strictWeakOn_addrLess _)
  have perm := (sort.perm _ _ weak).map (fun entry => publics.getD entry BulkPublic.empty)
  rwa [map_getD_range] at perm

private theorem byAddress_ordered (sort : IndexSort) (publics : List BulkPublic) :
    (byAddress sort publics).Pairwise (fun a b => addrLess b a = false) := by
  have weak := (strictWeakOn_map (fun entry => publics.getD entry .empty)
    (List.range publics.length)).mp (strictWeakOn_addrLess _)
  rw [byAddress, List.pairwise_map]
  exact sort.sorted _ _ weak

private theorem byAddress_sorted (sort : IndexSort) (publics : List BulkPublic)
    (distinct : DistinctNames publics) : (byAddress sort publics).Pairwise AddrBefore := by
  have names : (byAddress sort publics).Pairwise (fun a b => a.name ≠ b.name) := by
    have nodup : ((byAddress sort publics).map BulkPublic.name).Nodup :=
      ((byAddress_perm sort publics).map _).nodup_iff.mpr distinct
    exact List.pairwise_map.mp nodup
  refine (byAddress_ordered sort publics).imp₂ ?_ names
  intro a b notBefore differ
  rw [← addrLess_iff]
  by_contra other
  exact differ (name_of_not_less a b (Bool.not_eq_true _ ▸ other) notBefore)

/-- Two unstable sorts agree. -/
theorem byAddress_unique (sort sort' : IndexSort) (publics : List BulkPublic)
    (distinct : DistinctNames publics) : byAddress sort publics = byAddress sort' publics := by
  have perm := byAddress_perm sort publics
  have perm' := byAddress_perm sort' publics
  refine List.Perm.eq_of_pairwise ?_ (byAddress_ordered sort publics)
    (byAddress_ordered sort' publics) (perm.trans perm'.symm)
  intro a b a_mem b_mem ba ab
  exact distinct.same (perm.mem_iff.mp a_mem) (perm'.mem_iff.mp b_mem) (name_of_not_less a b ab ba)

private theorem computeAddrMap_eq (sort : IndexSort) (publics : List BulkPublic)
    (few : publics.length < 2 ^ 31) :
    computeAddrMap sort publics = (byAddress sort publics).map BulkPublic.symOffset := by
  have bound : ((publics.length : Int).bmod (2 ^ 32)).toNat = publics.length := by
    rw [Int.bmod_eq_of_le (by omega) (by omega), Int.toNat_natCast]
  simp only [computeAddrMap, bound, byAddress, List.map_map, Function.comp_def]
/-! ### Publics in any order -/

private theorem assignOffsets_names (start : Nat) (publics : List BulkPublic) :
    (assignOffsets start publics).1.map BulkPublic.name = publics.map BulkPublic.name := by
  induction publics generalizing start with
  | nil => rfl
  | cons pub rest ih =>
    rw [assignOffsets, List.map_cons, List.map_cons, ih]

/-- With distinct names the order by name is the only one. -/
theorem nameSort_unique (sort sort' : NameSort) (publicsIn publicsIn' : List BulkPublic)
    (distinct : DistinctNames publicsIn) (same : publicsIn'.Perm publicsIn) :
    sort'.run publicsIn' = sort.run publicsIn := by
  have perm := sort.perm publicsIn
  have perm' := (sort'.perm publicsIn').trans same
  refine List.Perm.eq_of_pairwise ?_ (sort'.sorted publicsIn') (sort.sorted publicsIn)
    (perm'.trans perm.symm)
  intro a b a_mem b_mem ab ba
  exact distinct.same (perm'.mem_iff.mp a_mem) (perm.mem_iff.mp b_mem) (List.le_antisymm ab ba)

private theorem distinctNames_addPublicSymbols (sort : NameSort) (b : GSIStreamBuilder)
    (publicsIn : List BulkPublic) (distinct : DistinctNames publicsIn) :
    DistinctNames (b.addPublicSymbols sort publicsIn).publics := by
  rw [DistinctNames, GSIStreamBuilder.addPublicSymbols, assignOffsets_names]
  exact ((sort.perm publicsIn).map _).nodup_iff.mpr distinct

private theorem length_addPublicSymbols (sort : NameSort) (b : GSIStreamBuilder)
    (publicsIn : List BulkPublic) :
    (b.addPublicSymbols sort publicsIn).publics.length = publicsIn.length := by
  have names := congrArg List.length (assignOffsets_names 0 (sort.run publicsIn))
  rw [List.length_map, List.length_map] at names
  rw [GSIStreamBuilder.addPublicSymbols, names, (sort.perm publicsIn).length_eq]

/-- The map holds the record offset of every public once, by address, whatever order the publics
came in and however the two sorts ran. -/
structure IsAddrMap (addrMap : List Nat) (publicsIn publics : List BulkPublic) : Prop where
  sorted : ∃ byAddr : List BulkPublic, byAddr.Perm publics ∧ byAddr.Pairwise AddrBefore ∧
    addrMap = byAddr.map BulkPublic.symOffset
  independent : ∀ (nameSort : NameSort) (indexSort : IndexSort) (b : GSIStreamBuilder)
    (publicsIn' : List BulkPublic), publicsIn'.Perm publicsIn →
    computeAddrMap indexSort (b.addPublicSymbols nameSort publicsIn').publics = addrMap

/-- Globals are deduplicated, and the address map is sorted and deterministic. -/
theorem globals_and_addrMap (symbols : List Bytes) (publicsIn : List BulkPublic)
    (nameSort : NameSort) (indexSort : IndexSort) (b : GSIStreamBuilder)
    (distinct : DistinctNames publicsIn) (few : publicsIn.length < 2 ^ 31) :
    GlobalsKept symbols (symbols.foldl GSIStreamBuilder.addGlobalSymbol .empty) ∧
      IsAddrMap (computeAddrMap indexSort (b.addPublicSymbols nameSort publicsIn).publics)
        publicsIn (b.addPublicSymbols nameSort publicsIn).publics := by
  have names := distinctNames_addPublicSymbols nameSort b publicsIn distinct
  have short : (b.addPublicSymbols nameSort publicsIn).publics.length < 2 ^ 31 := by
    rw [length_addPublicSymbols]
    exact few
  refine ⟨globalsKept symbols, ?_, ?_⟩
  · exact ⟨_, byAddress_perm indexSort _, byAddress_sorted indexSort _ names,
      computeAddrMap_eq indexSort _ short⟩
  · intro nameSort' indexSort' b' publicsIn' same
    -- with distinct names, any sort by name gives one order
    have publics : (b'.addPublicSymbols nameSort' publicsIn').publics =
        (b.addPublicSymbols nameSort publicsIn).publics := by
      rw [GSIStreamBuilder.addPublicSymbols, GSIStreamBuilder.addPublicSymbols,
        nameSort_unique nameSort nameSort' publicsIn publicsIn' distinct same]
    rw [publics, computeAddrMap_eq _ _ short, computeAddrMap_eq _ _ short,
      byAddress_unique indexSort' indexSort _ names]

def IndexSort.insertion : IndexSort where
  run := WeakOrder.insertion
  perm := fun less range _ => insertion_perm less range
  sorted := fun _ _ weak => insertion_sorted weak

/-- A typedef twice, and two names for one address. -/
theorem two_names_of_one_address :
    GlobalsKept [[10, 0, 0x08, 0x11, 1, 16, 0, 0, 0x61, 0, 0, 0],
        [10, 0, 0x08, 0x11, 1, 16, 0, 0, 0x61, 0, 0, 0]]
      ([[10, 0, 0x08, 0x11, 1, 16, 0, 0, 0x61, 0, 0, 0],
        [10, 0, 0x08, 0x11, 1, 16, 0, 0, 0x61, 0, 0, 0]].foldl
        GSIStreamBuilder.addGlobalSymbol .empty) ∧
      IsAddrMap (computeAddrMap .insertion (GSIStreamBuilder.empty.addPublicSymbols .insertion
          [⟨[0x66], 0, 16, 1, 2⟩, ⟨[0x65, 0x65], 0, 16, 1, 2⟩]).publics)
        [⟨[0x66], 0, 16, 1, 2⟩, ⟨[0x65, 0x65], 0, 16, 1, 2⟩]
        (GSIStreamBuilder.empty.addPublicSymbols .insertion
          [⟨[0x66], 0, 16, 1, 2⟩, ⟨[0x65, 0x65], 0, 16, 1, 2⟩]).publics :=
  globals_and_addrMap _ _ _ _ _ (by simp [DistinctNames]) (by decide)

/-- So many publics that their number is negative as an `int`. -/
def tooManyPublics : List BulkPublic :=
  (List.range (2 ^ 31)).map (fun i => { BulkPublic.empty with name := le32 i })

private theorem distinctNames_tooManyPublics : DistinctNames tooManyPublics := by
  rw [DistinctNames, tooManyPublics, List.map_map]
  refine List.Nodup.map_on ?_ List.nodup_range
  intro i i_mem j j_mem same
  have words := congrArg (fun name => Bytes.u32At (name ++ []) 0) same
  rw [List.mem_range] at i_mem j_mem
  simp only [Function.comp_apply, u32At_le32] at words
  rwa [uint32_of_le _ (by unfold uint32Max; omega), uint32_of_le _ (by unfold uint32Max; omega)]
    at words

/-- Their address map is empty. -/
theorem tooManyPublics_lost : DistinctNames tooManyPublics ∧
    ∀ (nameSort : NameSort) (indexSort : IndexSort) (b : GSIStreamBuilder),
      ¬ (computeAddrMap indexSort (b.addPublicSymbols nameSort tooManyPublics).publics).Perm
        ((b.addPublicSymbols nameSort tooManyPublics).publics.map BulkPublic.symOffset) := by
  refine ⟨distinctNames_tooManyPublics, ?_⟩
  intro nameSort indexSort b perm
  have count : (b.addPublicSymbols nameSort tooManyPublics).publics.length = 2 ^ 31 := by
    rw [length_addPublicSymbols, tooManyPublics, List.length_map, List.length_range]
  -- the count is 2^31, which an int reads as a negative number
  have bound : ((2 ^ 31 : Nat) : Int).bmod (2 ^ 32) = -2 ^ 31 := by decide
  have lengths := perm.length_eq
  rw [computeAddrMap, count, bound, List.length_map, List.length_map, count] at lengths
  have weak : StrictWeakOn (fun lIdx rIdx => addrLess
      ((b.addPublicSymbols nameSort tooManyPublics).publics.getD lIdx .empty)
      ((b.addPublicSymbols nameSort tooManyPublics).publics.getD rIdx .empty))
      (List.range (-2 ^ 31 : Int).toNat) :=
    (strictWeakOn_map _ _).mp (strictWeakOn_addrLess _)
  rw [(indexSort.perm _ _ weak).length_eq, List.length_range] at lengths
  exact absurd lengths (by decide)

end LlvmLd.Gsi
