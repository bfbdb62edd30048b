import LlvmLd.Edata.Exports
import LlvmLd.Lib.BinarySearch
import LlvmLd.Lib.CStrings
import LlvmLd.Lib.KeyedSlots

/-!
The export table in the image: `createEdataChunks`, what its chunks write, and how a loader reads
them: by ordinal through the address table, by name with a binary search of the name pointers that
leads to the address table through the ordinal table.
-/

namespace LlvmLd.Edata

open LlvmLd.Writer (Machine)
open LlvmLd.Memory

/-! ### The chunks -/

/-- The chunks of `createEdataChunks`; those for names and forwarders by the position of their
export. -/
inductive Chunk
  | directory | dllName | addressTab | nameTab | ordinalTab
  | name (i : Nat)
  | forward (i : Nat)
  deriving DecidableEq, Repr

def baseOrdinal (exports : List Export) : Nat :=
  exports.foldl (fun base e => Nat.min base e.ordinal.toNat) (2 ^ 16)

/-- The exports with a name, and their positions. -/
def withName (exports : List Export) : List (Export × Nat) :=
  exports.zipIdx.filter fun (e, _) => !e.noname

def forwarders (exports : List Export) : List (Export × Nat) :=
  exports.zipIdx.filter fun (e, _) => e.forwardTo ≠ []

def createEdataChunks (exports : List Export) : List Chunk :=
  [.directory, .dllName, .addressTab, .nameTab, .ordinalTab] ++
    (withName exports).map (fun (_, i) => .name i) ++
    (forwarders exports).map (fun (_, i) => .forward i)

section Writing

variable (machine : Machine) (dllName : Bytes) (rva : Chunk → UInt32) (exports : List Export)

/-- The number of slots of the address table. -/
def tableSize : Nat := maxOrdinal exports - baseOrdinal exports + 1

/-- The words of `export_directory_table_entry`; the third one is the version, two half words. -/
def directoryWords : List Nat :=
  let base := baseOrdinal exports % 65536
  let max := maxOrdinal exports % 65536
  [0, 0, 0, (rva .dllName).toNat, base, max - base + 1, (withName exports).length % 65536,
    (rva .addressTab).toNat, (rva .nameTab).toNat, (rva .ordinalTab).toNat]

/-- Pointers to thumb code have the lowest bit set. -/
def thumbBit (e : Export) : Nat := if machine = .armnt ∧ !e.data then 1 else 0

/-- What `AddressTableChunk::writeTo` stores for an export. -/
def addressOf (entry : Export × Nat) : Nat :=
  (if entry.1.forwardTo ≠ [] then (rva (.forward entry.2)).toNat else entry.1.sym) |||
    thumbBit machine entry.1

def addressTable : Bytes :=
  exports.zipIdx.foldl
    (fun buf entry =>
      setWord buf (4 * (entry.1.ordinal.toNat - baseOrdinal exports)) (addressOf machine rva entry))
    (List.replicate (4 * tableSize exports) 0)

def Chunk.writeTo : Chunk → Bytes
  | .directory => (directoryWords rva exports).flatMap le32
  | .dllName => dllName ++ [0]
  | .addressTab => addressTable machine rva exports
  | .nameTab => (withName exports).flatMap fun (_, i) => le32 (rva (.name i)).toNat
  | .ordinalTab =>
    (exports.filter fun e => !e.noname).flatMap fun e =>
      le16 (e.ordinal.toNat - baseOrdinal exports)
  | .name i => ((exports[i]?.map (·.exportName)).getD []) ++ [0]
  | .forward i => ((exports[i]?.map (·.forwardTo)).getD []) ++ [0]

/-- The chunks have been written to their places. -/
def Written (m : Mem) : Prop :=
  ∀ c ∈ createEdataChunks exports,
    readBytes m (rva c).toNat (c.writeTo machine dllName rva exports).length =
      c.writeTo machine dllName rva exports

end Writing

/-! ### The loader's rules -/

section Loader

variable (m : Mem) (dir : Nat)

def word (a : Nat) : Nat := (read32 m a).toNat

def half (a : Nat) : Nat := (read16 m a).toNat

def ordinalBase : Nat := word m (dir + 16)

def numberOfFunctions : Nat := word m (dir + 20)

def numberOfNames : Nat := word m (dir + 24)

/-- A slot of the address table. -/
def functionAt (i : Nat) : Nat := word m (word m (dir + 28) + 4 * i)

def nameAt (j : Nat) : Nat := word m (word m (dir + 32) + 4 * j)

def ordinalAt (j : Nat) : Nat := half m (word m (dir + 36) + 2 * j)

/-- The slot that a name leads to. -/
def findName (name : Bytes) : Option Nat :=
  (BinarySearch.find (fun j => compareAt m (upToNul name) (nameAt m dir j))
    (numberOfNames m dir)).map (ordinalAt m dir)

/-- Reading by the loader's rules gives what the exports say. -/
structure Resolves (machine : Machine) (rva : Chunk → UInt32) (exports : List Export) : Prop where
  numbered : Numbered exports
  inside : ∀ e ∈ exports, ordinalBase m dir ≤ e.ordinal.toNat ∧
    e.ordinal.toNat < ordinalBase m dir + numberOfFunctions m dir
  found : ∀ name slot, (0 : UInt8) ∉ name → findName m dir name = some slot →
    ∃ e ∈ exports, e.noname = false ∧ e.exportName = name ∧
      e.ordinal.toNat = ordinalBase m dir + slot
  exported : ∀ e ∈ exports, e.noname = false →
    ∃ slot, findName m dir e.exportName = some slot ∧ e.ordinal.toNat = ordinalBase m dir + slot
  symbols : ∀ e ∈ exports, e.forwardTo = [] →
    functionAt m dir (e.ordinal.toNat - ordinalBase m dir) = e.sym ||| thumbBit machine e
  forwards : ∀ entry ∈ forwarders exports,
    functionAt m dir (entry.1.ordinal.toNat - ordinalBase m dir) = (rva (.forward entry.2)).toNat ∧
      Terminated m (rva (.forward entry.2)).toNat entry.1.forwardTo ∧
      (0 : UInt8) ∉ entry.1.forwardTo
  others : ∀ i < numberOfFunctions m dir,
    (∀ e ∈ exports, e.ordinal.toNat ≠ ordinalBase m dir + i) → functionAt m dir i = 0

end Loader

/-! ## The tables as they are read -/

private theorem baseOrdinal_le (exports : List Export) (e : Export) (member : e ∈ exports) :
    baseOrdinal exports ≤ e.ordinal.toNat := by
  -- for every start value, as the fold takes the minimum of it as well
  suffices general : ∀ (l : List Export) (b : Nat),
      l.foldl (fun base e => Nat.min base e.ordinal.toNat) b ≤ b ∧
      ∀ e ∈ l, l.foldl (fun base e => Nat.min base e.ordinal.toNat) b ≤ e.ordinal.toNat from
    (general exports (2 ^ 16)).2 e member
  intro l
  induction l with
  | nil => exact fun b => ⟨Nat.le_refl b, (fun e member => by cases member)⟩
  | cons f rest ih =>
    intro b
    obtain ⟨low, all⟩ := ih (Nat.min b f.ordinal.toNat)
    refine ⟨Nat.le_trans low (Nat.min_le_left _ _), fun e member => ?_⟩
    rcases List.mem_cons.mp member with rfl | later
    · exact Nat.le_trans low (Nat.min_le_right _ _)
    · exact all e later

private theorem withName_fst (exports : List Export) :
    (withName exports).map (·.1) = exports.filter (fun e => !e.noname) := by
  conv_rhs => rw [← List.zipIdx_map_fst 0 exports]
  rw [List.filter_map]
  rfl

private theorem length_words (words : List Nat) : (words.flatMap le32).length = 4 * words.length := by
  simp [List.length_flatMap, Nat.mul_comm]

private theorem word_of_words (m : Mem) (a : Nat) (words : List Nat)
    (holds : readBytes m a (words.flatMap le32).length = words.flatMap le32) (k : Nat)
    (below : k < words.length) : word m (a + 4 * k) = uint32 words[k] := by
  have read := u32At_readBytes m a (words.flatMap le32).length (4 * k)
    (by rw [length_words]; omega)
  rw [holds, u32At_flatMap words k below] at read
  rw [read, word, Int.natCast_add]

private theorem half_of_halves (m : Mem) (a : Nat) (halves : List Nat)
    (holds : readBytes m a (halves.flatMap le16).length = halves.flatMap le16) (k : Nat)
    (below : k < halves.length) : half m (a + 2 * k) = halves[k] % 65536 := by
  have room : 2 * k + 2 ≤ (halves.flatMap le16).length := by
    simp only [List.length_flatMap, length_le16, List.map_const', List.sum_replicate, smul_eq_mul]
    omega
  have read := u16At_readBytes m a (halves.flatMap le16).length (2 * k) room
  rw [holds, u16At_flatMap halves k below] at read
  rw [read, half, Int.natCast_add]

private theorem zero_words (n : Nat) :
    List.replicate (4 * n) (0 : UInt8) = (List.replicate n 0).flatMap le32 := by
  induction n with
  | zero => rfl
  | succ n ih =>
    have four : 4 * (n + 1) = 4 + 4 * n := by omega
    rw [four, ← List.replicate_append_replicate, ih]
    rfl

section Reading

variable {machine : Machine} {dllName : Bytes} {rva : Chunk → UInt32} {exports : List Export}
  {m : Mem}

/-- The slots of the address table. -/
private def slots (machine : Machine) (rva : Chunk → UInt32) (exports : List Export) : List Nat :=
  KeyedSlots.store (fun entry : Export × Nat => entry.1.ordinal.toNat - baseOrdinal exports)
    (addressOf machine rva) (List.replicate (tableSize exports) 0) exports.zipIdx

private theorem slot_lt (e : Export) (member : e ∈ exports) :
    e.ordinal.toNat - baseOrdinal exports < tableSize exports := by
  have low := baseOrdinal_le exports e member
  have high := (le_maxOrdinal exports).1 e member
  simp only [tableSize]
  omega

private theorem addressTable_eq :
    addressTable machine rva exports = (slots machine rva exports).flatMap le32 := by
  -- setting a word of the bytes is setting an entry of the list of words
  suffices general : ∀ (items : List (Export × Nat)) (words : List Nat),
      (∀ entry ∈ items, entry.1.ordinal.toNat - baseOrdinal exports < words.length) →
      items.foldl (fun buf entry =>
        setWord buf (4 * (entry.1.ordinal.toNat - baseOrdinal exports))
          (addressOf machine rva entry)) (words.flatMap le32) =
      (KeyedSlots.store (fun entry : Export × Nat => entry.1.ordinal.toNat - baseOrdinal exports)
        (addressOf machine rva) words items).flatMap le32 by
    rw [addressTable, zero_words]
    refine general exports.zipIdx _ (fun entry member => ?_)
    rw [List.length_replicate]
    exact slot_lt entry.1 (List.fst_mem_of_mem_zipIdx member)
  intro items
  induction items with
  | nil => exact fun words _ => rfl
  | cons entry rest ih =>
    intro words inside
    rw [List.foldl_cons, setWord_flatMap words _ _ (inside entry List.mem_cons_self)]
    refine ih (words.set _ _) (fun other member => ?_)
    rw [List.length_set]
    exact inside other (List.mem_cons_of_mem entry member)

private theorem chunk_written (written : Written machine dllName rva exports m) (c : Chunk)
    (member : c ∈ createEdataChunks exports) :
    readBytes m (rva c).toNat (c.writeTo machine dllName rva exports).length =
      c.writeTo machine dllName rva exports :=
  written c member

private theorem directory_word (written : Written machine dllName rva exports m) (k : Nat)
    (below : k < (directoryWords rva exports).length) :
    word m ((rva .directory).toNat + 4 * k) = uint32 (directoryWords rva exports)[k] :=
  word_of_words m _ _ (chunk_written written .directory (by simp [createEdataChunks])) k below

private theorem uint32_toNat (n : UInt32) : uint32 n.toNat = n.toNat :=
  Nat.mod_eq_of_lt n.toNat_lt

/-- What a loader reads from the directory. -/
private structure Directory (rva : Chunk → UInt32) (exports : List Export) (m : Mem) : Prop where
  base : ordinalBase m (rva .directory).toNat = baseOrdinal exports
  functions : numberOfFunctions m (rva .directory).toNat = tableSize exports
  names : numberOfNames m (rva .directory).toNat = (withName exports).length
  addressTab : word m ((rva .directory).toNat + 28) = (rva .addressTab).toNat
  nameTab : word m ((rva .directory).toNat + 32) = (rva .nameTab).toNat
  ordinalTab : word m ((rva .directory).toNat + 36) = (rva .ordinalTab).toNat

private theorem withName_length_le : (withName exports).length ≤ exports.length := by
  have := List.length_filter_le (fun e : Export × Nat => !e.1.noname) exports.zipIdx
  rwa [List.length_zipIdx] at this

private theorem directory (written : Written machine dllName rva exports m)
    (numbered : Numbered exports) (nonempty : exports ≠ []) : Directory rva exports m := by
  obtain ⟨e, member⟩ := List.exists_mem_of_ne_nil exports nonempty
  have low := baseOrdinal_le exports e member
  have small := toNat_le e.ordinal
  have high := (le_maxOrdinal exports).2
  have above := (le_maxOrdinal exports).1 e member
  -- ordinals are 16-bit numbers, so no field is cut off
  have few : (withName exports).length ≤ exports.length := withName_length_le
  have all := numbered.length_le
  have read := fun k below => directory_word written k below
  have base : baseOrdinal exports % 65536 = baseOrdinal exports := Nat.mod_eq_of_lt (by omega)
  have max : maxOrdinal exports % 65536 = maxOrdinal exports := Nat.mod_eq_of_lt (by omega)
  constructor
  · exact (read 4 (by simp [directoryWords])).trans
      (by simp only [directoryWords, List.getElem_cons_succ, List.getElem_cons_zero, base]
          exact Nat.mod_eq_of_lt (by omega))
  · exact (read 5 (by simp [directoryWords])).trans
      (by simp only [directoryWords, List.getElem_cons_succ, List.getElem_cons_zero, base, max]
          exact Nat.mod_eq_of_lt (by omega))
  · refine (read 6 (by simp [directoryWords])).trans ?_
    have cut : (withName exports).length % 65536 = (withName exports).length :=
      Nat.mod_eq_of_lt (by omega)
    simp only [directoryWords, List.getElem_cons_succ, List.getElem_cons_zero, cut]
    exact Nat.mod_eq_of_lt (by omega)
  · exact (read 7 (by simp [directoryWords])).trans (uint32_toNat _)
  · exact (read 8 (by simp [directoryWords])).trans (uint32_toNat _)
  · exact (read 9 (by simp [directoryWords])).trans (uint32_toNat _)

private theorem functionAt_eq (written : Written machine dllName rva exports m)
    (dir : Directory rva exports m) (i : Nat) (below : i < tableSize exports) :
    some (functionAt m (rva .directory).toNat i) = (slots machine rva exports)[i]?.map uint32 := by
  have table := chunk_written written .addressTab (by simp [createEdataChunks])
  rw [Chunk.writeTo, addressTable_eq] at table
  have inside : i < (slots machine rva exports).length := by
    rwa [slots, KeyedSlots.length_store, List.length_replicate]
  rw [functionAt, dir.addressTab, word_of_words m _ _ table i inside,
    List.getElem?_eq_getElem inside]
  rfl

/-- The ordinals are at least the base, so distinct ones have distinct slots. -/
private theorem slots_distinct (numbered : Numbered exports) :
    exports.zipIdx.Pairwise fun a b : Export × Nat =>
      a.1.ordinal.toNat - baseOrdinal exports ≠ b.1.ordinal.toNat - baseOrdinal exports := by
  have pairs : exports.zipIdx.Pairwise fun a b : Export × Nat => a.1.ordinal ≠ b.1.ordinal := by
    have distinct := numbered.distinct
    rw [← List.zipIdx_map_fst 0 exports, List.pairwise_map] at distinct
    exact distinct
  refine pairs.imp_of_mem fun {a b} first second differ same => differ ?_
  have low := baseOrdinal_le exports a.1 (List.fst_mem_of_mem_zipIdx first)
  have low' := baseOrdinal_le exports b.1 (List.fst_mem_of_mem_zipIdx second)
  exact UInt16.toNat_inj.mp (by omega)

private theorem functionAt_stored (written : Written machine dllName rva exports m)
    (dir : Directory rva exports m) (numbered : Numbered exports) (entry : Export × Nat)
    (member : entry ∈ exports.zipIdx) :
    functionAt m (rva .directory).toNat (entry.1.ordinal.toNat - baseOrdinal exports) =
      uint32 (addressOf machine rva entry) := by
  have inside := slot_lt entry.1 (List.fst_mem_of_mem_zipIdx member)
  have read := functionAt_eq written dir _ inside
  have stored := KeyedSlots.store_stored
    (fun entry : Export × Nat => entry.1.ordinal.toNat - baseOrdinal exports)
    (addressOf machine rva) (List.replicate (tableSize exports) 0) exports.zipIdx
    (slots_distinct numbered) entry member (by rwa [List.length_replicate])
  rw [slots, stored] at read
  exact Option.some.inj read

private theorem functionAt_unused (written : Written machine dllName rva exports m)
    (dir : Directory rva exports m) (i : Nat) (below : i < tableSize exports)
    (unused : ∀ e ∈ exports, e.ordinal.toNat ≠ baseOrdinal exports + i) :
    functionAt m (rva .directory).toNat i = 0 := by
  have read := functionAt_eq written dir i below
  rw [slots, KeyedSlots.store_untouched, List.getElem?_replicate, if_pos below] at read
  · exact Option.some.inj read
  · intro entry member same
    have mem := List.fst_mem_of_mem_zipIdx member
    have low := baseOrdinal_le exports entry.1 mem
    exact unused entry.1 mem (by omega)

/-! ## Names -/

private theorem nameAt_eq (written : Written machine dllName rva exports m)
    (dir : Directory rva exports m) (j : Nat) (below : j < (withName exports).length) :
    nameAt m (rva .directory).toNat j = (rva (.name (withName exports)[j].2)).toNat := by
  have table := chunk_written written .nameTab (by simp [createEdataChunks])
  have words : Chunk.writeTo machine dllName rva exports .nameTab =
      ((withName exports).map fun entry => (rva (.name entry.2)).toNat).flatMap le32 := by
    rw [Chunk.writeTo, List.flatMap_map]
  rw [words] at table
  rw [nameAt, dir.nameTab, word_of_words m _ _ table j (by rwa [List.length_map]),
    List.getElem_map, uint32_toNat]

private theorem ordinalAt_eq (written : Written machine dllName rva exports m)
    (dir : Directory rva exports m) (j : Nat) (below : j < (withName exports).length) :
    ordinalAt m (rva .directory).toNat j =
      (withName exports)[j].1.ordinal.toNat - baseOrdinal exports := by
  have table := chunk_written written .ordinalTab (by simp [createEdataChunks])
  -- the table is a list of 16-bit words, one for each name
  have halves : Chunk.writeTo machine dllName rva exports .ordinalTab =
      ((withName exports).map fun entry =>
        entry.1.ordinal.toNat - baseOrdinal exports).flatMap le16 := by
    rw [Chunk.writeTo, ← withName_fst, List.flatMap_map, List.flatMap_map]
  rw [halves] at table
  rw [ordinalAt, dir.ordinalTab, half_of_halves m _ _ table j (by rwa [List.length_map]),
    List.getElem_map]
  have small := toNat_le (withName exports)[j].1.ordinal
  exact Nat.mod_eq_of_lt (by omega)

private theorem mem_withName (entry : Export × Nat) :
    entry ∈ withName exports ↔ exports[entry.2]? = some entry.1 ∧ entry.1.noname = false := by
  rw [withName, List.mem_filter, List.mem_zipIdx_iff_getElem?, Bool.not_eq_true']

private theorem mem_forwarders (entry : Export × Nat) :
    entry ∈ forwarders exports ↔ exports[entry.2]? = some entry.1 ∧ entry.1.forwardTo ≠ [] := by
  rw [forwarders, List.mem_filter, List.mem_zipIdx_iff_getElem?, decide_eq_true_iff]

private theorem name_terminated (written : Written machine dllName rva exports m)
    (entry : Export × Nat) (member : entry ∈ withName exports) :
    Terminated m (rva (.name entry.2)).toNat entry.1.exportName := by
  have there := chunk_written written (.name entry.2) (by
    simp only [createEdataChunks, List.mem_append]
    exact Or.inl (Or.inr (List.mem_map.mpr ⟨entry, member, rfl⟩)))
  rw [Chunk.writeTo, ((mem_withName entry).mp member).1] at there
  simpa [Terminated] using there

private theorem forward_terminated (written : Written machine dllName rva exports m)
    (entry : Export × Nat) (member : entry ∈ forwarders exports) :
    Terminated m (rva (.forward entry.2)).toNat entry.1.forwardTo := by
  have there := chunk_written written (.forward entry.2) (by
    simp only [createEdataChunks, List.mem_append]
    exact Or.inr (List.mem_map.mpr ⟨entry, member, rfl⟩))
  rw [Chunk.writeTo, ((mem_forwarders entry).mp member).1] at there
  simpa [Terminated] using there

end Reading

section Names

variable {machine : Machine} {dllName : Bytes} {rva : Chunk → UInt32} {exports : List Export}
  {m : Mem}

/-- How a name compares with a name pointer. -/
private theorem compare_nameAt (written : Written machine dllName rva exports m)
    (dir : Directory rva exports m)
    (free : ∀ e ∈ exports, e.noname = false → (0 : UInt8) ∉ e.exportName) (q : Bytes)
    (freeQ : (0 : UInt8) ∉ q) (j : Nat) (below : j < (withName exports).length) :
    compareAt m q (nameAt m (rva .directory).toNat j) =
      compare q (withName exports)[j].1.exportName := by
  have member : (withName exports)[j] ∈ withName exports := List.getElem_mem below
  obtain ⟨there, named⟩ := (mem_withName _).mp member
  have clean := free _ (List.mem_of_getElem? there) named
  rw [nameAt_eq written dir j below, compareAt_eq (name_terminated written _ member) q freeQ,
    upToNul_of_not_mem _ clean]

/-- The binary search finds exactly the position of the name. -/
private theorem find_iff (written : Written machine dllName rva exports m)
    (dir : Directory rva exports m) (ascending : Ascending exports)
    (free : ∀ e ∈ exports, e.noname = false → (0 : UInt8) ∉ e.exportName) (q : Bytes)
    (freeQ : (0 : UInt8) ∉ q) (k : Nat) :
    BinarySearch.find (fun j => compareAt m q (nameAt m (rva .directory).toNat j))
        (numberOfNames m (rva .directory).toNat) = some k ↔
      ∃ entry, (withName exports)[k]? = some entry ∧ entry.1.exportName = q := by
  have sorted : (withName exports).Pairwise
      fun a b => compare a.1.exportName b.1.exportName = .lt := by
    have names := ascending.sublist (List.filter_sublist (p := fun e => !e.noname))
    rwa [← withName_fst, List.pairwise_map] at names
  -- the names ascend, so the loader's binary search finds exactly the equal one
  rw [dir.names, BinarySearch.find_eq_some_iff]
  · constructor
    · rintro ⟨below, equal⟩
      rw [compare_nameAt written dir free q freeQ k below] at equal
      exact ⟨_, List.getElem?_eq_getElem below, (Std.LawfulEqCmp.eq_of_compare equal).symm⟩
    · rintro ⟨entry, there, same⟩
      obtain ⟨below, rfl⟩ := List.getElem?_eq_some_iff.mp there
      refine ⟨below, ?_⟩
      rw [compare_nameAt written dir free q freeQ k below, same]
      exact Std.ReflCmp.compare_self
  · intro i j less below above
    dsimp only at above ⊢
    rw [compare_nameAt written dir free q freeQ i (Nat.lt_trans less below)] at above
    rw [compare_nameAt written dir free q freeQ j below]
    have apart := List.pairwise_iff_getElem.mp sorted i j (Nat.lt_trans less below) below less
    refine Std.TransCmp.lt_of_isLE_of_lt ?_ apart
    cases order : compare q (withName exports)[i].1.exportName <;> simp_all

private theorem findName_iff (written : Written machine dllName rva exports m)
    (dir : Directory rva exports m) (ascending : Ascending exports)
    (free : ∀ e ∈ exports, e.noname = false → (0 : UInt8) ∉ e.exportName) (name : Bytes)
    (freeName : (0 : UInt8) ∉ name) (slot : Nat) :
    findName m (rva .directory).toNat name = some slot ↔
      ∃ e ∈ exports, e.noname = false ∧ e.exportName = name ∧
        e.ordinal.toNat = baseOrdinal exports + slot := by
  rw [findName, Option.map_eq_some_iff, upToNul_of_not_mem name freeName]
  constructor
  -- a hit is a named export, and its entry in the ordinal table is its slot
  · rintro ⟨k, found, rfl⟩
    obtain ⟨entry, there, same⟩ := (find_iff written dir ascending free name freeName k).mp found
    obtain ⟨below, rfl⟩ := List.getElem?_eq_some_iff.mp there
    obtain ⟨listed, named⟩ := (mem_withName _).mp (List.getElem_mem below)
    have member := List.mem_of_getElem? listed
    refine ⟨_, member, named, same, ?_⟩
    rw [ordinalAt_eq written dir k below]
    have low := baseOrdinal_le exports _ member
    omega
  -- an export with a name has an entry among the names
  · rintro ⟨e, member, named, same, ordinal⟩
    obtain ⟨i, listed⟩ := List.mem_iff_getElem?.mp member
    have inNames : (e, i) ∈ withName exports := (mem_withName (e, i)).mpr ⟨listed, named⟩
    obtain ⟨k, there⟩ := List.mem_iff_getElem?.mp inNames
    refine ⟨k, (find_iff written dir ascending free name freeName k).mpr ⟨(e, i), there, same⟩, ?_⟩
    obtain ⟨below, here⟩ := List.getElem?_eq_some_iff.mp there
    rw [ordinalAt_eq written dir k below, here]
    show e.ordinal.toNat - baseOrdinal exports = slot
    omega

end Names

/-! ## The result -/

/-- What the tables need of the export list and of the places of the forwarder strings. -/
structure Readable (machine : Machine) (rva : Chunk → UInt32) (exports : List Export) : Prop where
  few : exports.length ≤ 65535
  names : ∀ e ∈ exports, e.noname = false → (0 : UInt8) ∉ e.exportName
  forwards : ∀ e ∈ exports, (0 : UInt8) ∉ e.forwardTo
  symbols : ∀ e ∈ exports, e.forwardTo = [] → e.sym < 2 ^ 32
  thumb : machine = .armnt → ∀ entry ∈ forwarders exports,
    entry.1.data = true ∨ (rva (.forward entry.2)).toNat % 2 = 1

private theorem thumbBit_le (machine : Machine) (e : Export) : thumbBit machine e ≤ 1 := by
  simp only [thumbBit]
  split <;> decide

private theorem or_bit_eq_iff (n b : Nat) (bit : b ≤ 1) : n ||| b = n ↔ b = 0 ∨ n % 2 = 1 := by
  rcases Nat.le_one_iff_eq_zero_or_eq_one.mp bit with rfl | rfl
  · simp
  · constructor
    · intro same
      have set : (n ||| 1).testBit 0 = true := by simp
      rw [same, Nat.testBit_zero, decide_eq_true_iff] at set
      exact Or.inr set
    · rintro (zero | odd)
      · cases zero
      -- an odd number has the lowest bit already
      · have split : n = 2 ^ 1 * (n / 2) ||| 1 := by
          rw [← Nat.two_pow_add_eq_or_of_lt (by decide)]
          omega
        rw [split, Nat.or_assoc, Nat.or_self]

private theorem thumbBit_eq_zero_iff (machine : Machine) (e : Export) :
    thumbBit machine e = 0 ↔ (machine = .armnt → e.data = true) := by
  simp only [thumbBit]
  split
  next thumb => simpa [thumb.1] using thumb.2
  next other => simpa using other

section Result

variable {machine : Machine} {dllName : Bytes} {rva : Chunk → UInt32} {exports : List Export}
  {m : Mem}

private theorem uint32_or_eq_iff (sym b : Nat) (bit : b ≤ 1) :
    uint32 (sym ||| b) = sym ||| b ↔ sym < 2 ^ 32 := by
  have above : sym ≤ sym ||| b := Nat.left_le_or
  constructor
  · intro same
    have small : uint32 (sym ||| b) < 2 ^ 32 := Nat.mod_lt _ (by decide)
    omega
  · intro small
    exact Nat.mod_eq_of_lt (Nat.or_lt_two_pow small (by omega))

/-- The word of a forwarder's slot. -/
private theorem forward_word (entry : Export × Nat) (forwarder : entry.1.forwardTo ≠ []) :
    uint32 (addressOf machine rva entry) =
      (rva (.forward entry.2)).toNat ||| thumbBit machine entry.1 := by
  rw [addressOf, if_pos forwarder]
  exact Nat.mod_eq_of_lt (Nat.or_lt_two_pow (UInt32.toNat_lt _)
    (Nat.lt_of_le_of_lt (thumbBit_le machine entry.1) (by decide)))

private theorem symbol_word (entry : Export × Nat) (symbol : entry.1.forwardTo = []) :
    addressOf machine rva entry = entry.1.sym ||| thumbBit machine entry.1 := by
  rw [addressOf, if_neg (not_not_intro symbol)]

private theorem resolves_of_readable (written : Written machine dllName rva exports m)
    (ascending : Ascending exports) (numbered : Numbered exports) (nonempty : exports ≠ [])
    (readable : Readable machine rva exports) :
    Resolves m (rva .directory).toNat machine rva exports := by
  have dir := directory written numbered nonempty
  -- The name table is sorted, so the loader's binary search finds exactly what was exported.
  have found := findName_iff written dir ascending readable.names
  constructor
  case numbered => exact numbered
  case inside =>
    intro e member
    rw [dir.base, dir.functions]
    have low := baseOrdinal_le exports e member
    have high := slot_lt e member
    omega
  case found =>
    intro name slot free there
    rw [dir.base]
    exact (found name free slot).mp there
  case exported =>
    intro e member named
    have low := baseOrdinal_le exports e member
    refine ⟨e.ordinal.toNat - baseOrdinal exports, ?_, by rw [dir.base]; omega⟩
    exact (found e.exportName (readable.names e member named) _).mpr
      ⟨e, member, named, rfl, by omega⟩
  case symbols =>
    intro e member symbol
    obtain ⟨i, listed⟩ := List.mem_iff_getElem?.mp member
    have stored := functionAt_stored written dir numbered (e, i)
      (List.mem_zipIdx_iff_getElem?.mpr listed)
    rw [dir.base, stored, symbol_word (e, i) symbol]
    exact (uint32_or_eq_iff e.sym _ (thumbBit_le machine e)).mpr (readable.symbols e member symbol)
  -- A forwarder is told from a symbol by its address, so the Thumb bit must not be set in it.
  case forwards =>
    intro entry member
    obtain ⟨listed, forwarder⟩ := (mem_forwarders entry).mp member
    have stored := functionAt_stored written dir numbered entry
      (List.mem_zipIdx_iff_getElem?.mpr listed)
    refine ⟨?_, forward_terminated written entry member,
      readable.forwards _ (List.mem_of_getElem? listed)⟩
    rw [dir.base, stored, forward_word entry forwarder,
      or_bit_eq_iff _ _ (thumbBit_le machine entry.1), thumbBit_eq_zero_iff]
    by_cases arm : machine = .armnt
    · rcases readable.thumb arm entry member with data | odd
      · exact Or.inl fun _ => data
      · exact Or.inr odd
    · exact Or.inl fun h => absurd h arm
  case others =>
    intro i below unused
    rw [dir.functions] at below
    rw [dir.base] at unused
    exact functionAt_unused written dir i below unused

/-- A name with a NUL inside could not be told from its part before the NUL. -/
private theorem names_of_resolves (numbered : Numbered exports)
    (resolves : Resolves m (rva .directory).toNat machine rva exports) :
    ∀ e ∈ exports, e.noname = false → (0 : UInt8) ∉ e.exportName := by
  intro e member named
  obtain ⟨slot, there, ordinal⟩ := resolves.exported e member named
  have short : upToNul (upToNul e.exportName) = upToNul e.exportName :=
    upToNul_of_not_mem _ (not_mem_upToNul _)
  -- a name with a NUL in it would be found by its front as well
  have same : findName m (rva .directory).toNat (upToNul e.exportName) = some slot := by
    rw [← there, findName, findName, short]
  obtain ⟨f, member', -, name, ordinal'⟩ :=
    resolves.found (upToNul e.exportName) slot (not_mem_upToNul _) same
  have one : e = f :=
    numbered.unique member member' (UInt16.toNat_inj.mp (ordinal.trans ordinal'.symm))
  rw [one, name]
  exact not_mem_upToNul _

private theorem readable_of_resolves (written : Written machine dllName rva exports m)
    (nonempty : exports ≠ [])
    (resolves : Resolves m (rva .directory).toNat machine rva exports) :
    Readable machine rva exports := by
  have numbered := resolves.numbered
  have dir := directory written numbered nonempty
  constructor
  case few => exact numbered.length_le
  case names => exact names_of_resolves numbered resolves
  case forwards =>
    intro e member
    by_cases forwarder : e.forwardTo = []
    · simp [forwarder]
    · obtain ⟨i, listed⟩ := List.mem_iff_getElem?.mp member
      exact (resolves.forwards (e, i) ((mem_forwarders (e, i)).mpr ⟨listed, forwarder⟩)).2.2
  case symbols =>
    intro e member symbol
    obtain ⟨i, listed⟩ := List.mem_iff_getElem?.mp member
    have stored := functionAt_stored written dir numbered (e, i)
      (List.mem_zipIdx_iff_getElem?.mpr listed)
    have slot := resolves.symbols e member symbol
    rw [dir.base, stored, symbol_word (e, i) symbol] at slot
    exact (uint32_or_eq_iff e.sym _ (thumbBit_le machine e)).mp slot
  -- A forwarder's address stays its own only if the bit is not added, or was set before.
  case thumb =>
    intro arm entry member
    obtain ⟨listed, forwarder⟩ := (mem_forwarders entry).mp member
    have stored := functionAt_stored written dir numbered entry
      (List.mem_zipIdx_iff_getElem?.mpr listed)
    have slot := (resolves.forwards entry member).1
    rw [dir.base, stored, forward_word entry forwarder,
      or_bit_eq_iff _ _ (thumbBit_le machine entry.1), thumbBit_eq_zero_iff] at slot
    rcases slot with data | odd
    · exact Or.inl (data arm)
    · exact Or.inr odd

end Result

private theorem resolveExports_spec (cfg : Config) (given exports : List Export)
    (accepted : resolveExports cfg given = .ok exports) (nonempty : given ≠ []) :
    Ascending exports ∧ (exports.length ≤ 65535 → Numbered exports) ∧ exports ≠ [] := by
  simp only [resolveExports] at accepted
  cases fixed : fixupExports cfg given with
  | error e => simp [fixed, bind, Except.bind] at accepted
  | ok pair =>
    obtain ⟨v, warnings⟩ := pair
    simp only [fixed, bind, Except.bind] at accepted
    obtain ⟨ascending, differ, names⟩ := fixupExports_spec cfg given v warnings fixed
    -- numbering keeps the names and so their order
    have same := assignExportOrdinals_names v exports accepted
    have length : exports.length = v.length := by
      simpa only [List.length_map] using congrArg List.length same
    refine ⟨?_, fun few => assignExportOrdinals_numbered v exports differ (by omega) accepted, ?_⟩
    · have sorted : (v.map (·.exportName)).Pairwise fun a b => compare a b = .lt := by
        rw [List.pairwise_map]
        exact ascending
      rwa [← same, List.pairwise_map] at sorted
    · rintro rfl
      obtain ⟨e, member⟩ := List.exists_mem_of_ne_nil given nonempty
      have listed := (names (named cfg e).exportName).mpr (List.mem_map.mpr ⟨e, member, rfl⟩)
      rw [← same] at listed
      cases listed

def sampleExports : List Export :=
  [{ name := [0x61], sym := 4096, source := .exportOption },
    { name := [0x62], forwardTo := [0x6B, 0x2E, 0x66], source := .exportOption }]

def sampleKept : List Export :=
  [{ name := [0x61], sym := 4096, source := .exportOption, ordinal := 1, exportName := [0x61] },
    { name := [0x62], forwardTo := [0x6B, 0x2E, 0x66], source := .exportOption, ordinal := 2,
      exportName := [0x62] }]

/-- The chunks one behind the other. -/
def sampleRva : Chunk → UInt32
  | .directory => 8192
  | .dllName => 8232
  | .addressTab => 8234
  | .nameTab => 8242
  | .ordinalTab => 8250
  | .name i => if i = 0 then 8254 else 8256
  | .forward _ => 8258

def sampleImage (machine : Machine) : Mem := fun a =>
  ((createEdataChunks sampleKept).flatMap
    (Chunk.writeTo machine [0x64] sampleRva sampleKept)).getD (a - 8192).toNat 0

private theorem sample_accepted (machine : Machine) :
    resolveExports { machine } sampleExports = .ok sampleKept := by
  have sorted : sortByName (uniquifyAll (sampleExports.map (named { machine }))).1 =
      (uniquifyAll (sampleExports.map (named { machine }))).1 := by
    apply List.mergeSort_of_pairwise
    cases machine <;> decide
  simp only [resolveExports, fixupExports, sorted]
  cases machine <;> decide

private theorem sample_written (machine : Machine) (either : machine = .amd64 ∨ machine = .armnt) :
    Written machine [0x64] sampleRva sampleKept (sampleImage machine) := by
  simp only [Written]
  rcases either with rfl | rfl <;> decide +kernel

end LlvmLd.Edata
