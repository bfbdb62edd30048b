import LlvmLd.Codeview.StringTable

/-!
# File checksum tables

`DebugChecksumsSubsectionRef` as it is iterated, `DebugChecksumsSubsection`, and the end of
`DebugSHandler::finish` that makes a new table for the strings of the PDB.

Proof strategy: reader and builder step by the same aligned sizes, so entries keep their offsets.
The reader also accepts a last entry without its padding, which the builder adds.
-/

namespace LlvmLd.Pdb

open Codeview Placement

structure FileChecksumEntry where
  fileNameOffset : Nat
  kind : UInt8
  checksum : Bytes
  deriving DecidableEq, Repr

/-- `sizeof(FileChecksumEntryHeader)`. -/
def fileChecksumEntryHeader : Nat := 6

/-- The aligned size of an entry. -/
def FileChecksumEntry.size (e : FileChecksumEntry) : Nat :=
  alignTo (fileChecksumEntryHeader + e.checksum.length) 4

/-! ### The reader -/

/-- `VarStreamArrayExtractor<FileChecksumEntry>`: the length to skip and the entry. -/
def extractChecksum (stream : Bytes) : Option (Nat × FileChecksumEntry) :=
  let checksumSize := stream.byteAt 4
  if stream.length < fileChecksumEntryHeader then none
  else if stream.length < fileChecksumEntryHeader + checksumSize then none
  else
    some (alignTo (checksumSize + fileChecksumEntryHeader) 4,
      ⟨stream.u32At 0, stream.getD 5 0, stream.slice fileChecksumEntryHeader checksumSize⟩)

/-- The entries with their offsets as a loop over the array sees them, and whether the loop ended
early at an entry that cannot be read. An entry takes at least 6 bytes of fuel. -/
def readChecksums : Nat → Nat → Bytes → List (FileChecksumEntry × Nat) × Bool
  | 0, _, _ => ([], false)
  | fuel + 1, offset, stream =>
      if stream = [] then ([], false)
      else
        match extractChecksum stream with
        | none => ([], true)
        | some (len, entry) =>
            -- `drop_front` stops at the end of the stream
            let (rest, hadError) := readChecksums fuel (offset + len) (stream.drop len)
            ((entry, offset) :: rest, hadError)

def checksumArray (data : Bytes) : List (FileChecksumEntry × Nat) × Bool :=
  readChecksums data.length 0 data

/-! ### The builder -/

structure DebugChecksumsSubsection where
  checksums : List FileChecksumEntry
  serializedSize : Nat
  deriving DecidableEq, Repr

def addChecksum (strings : StringTable) (new : DebugChecksumsSubsection) (fileName : Bytes)
    (kind : UInt8) (checksum : Bytes) : StringTable × DebugChecksumsSubsection :=
  let (strings, id) := strings.insert fileName
  (strings,
    { checksums := new.checksums ++ [⟨id, kind, checksum⟩]
      serializedSize := uint32 (new.serializedSize +
        alignTo (fileChecksumEntryHeader + checksum.length) 4) })

def FileChecksumEntry.bytes (e : FileChecksumEntry) : Bytes :=
  le32 e.fileNameOffset ++ ([UInt8.ofNat e.checksum.length, e.kind] ++ e.checksum)

def DebugChecksumsSubsection.commit (new : DebugChecksumsSubsection) : Bytes :=
  new.checksums.foldl (fun out e => padTo4 (out ++ e.bytes)) []

/-- The loop of `finish`; `none` when a name cannot be read and the linker exits. -/
def finishChecksums (pdbMakeAbsolute : Bytes → Bytes) (cvStrTab data : Bytes)
    (strings : StringTable) : Option (StringTable × DebugChecksumsSubsection) :=
  (checksumArray data).1.foldlM (fun s fc =>
    (cvStrTab.cString fc.1.fileNameOffset).map (fun fileName =>
      addChecksum s.1 s.2 (pdbMakeAbsolute fileName) fc.1.kind fc.1.checksum)) (strings, ⟨[], 0⟩)

/-! ### Reading -/

theorem extractChecksum_some (stream : Bytes) (len : Nat) (entry : FileChecksumEntry)
    (extracted : extractChecksum stream = some (len, entry)) :
    len = entry.size ∧ entry.checksum.length < 256 ∧
      fileChecksumEntryHeader + entry.checksum.length ≤ stream.length := by
  unfold extractChecksum at extracted
  dsimp only at extracted
  split at extracted
  · cases extracted
  split at extracted
  · cases extracted
  next long fits =>
    cases extracted
    have length : (stream.slice fileChecksumEntryHeader (stream.byteAt 4)).length =
        stream.byteAt 4 := length_slice _ _ _ (by omega)
    have small : stream.byteAt 4 < 256 := UInt8.toNat_lt _
    refine ⟨?_, by rw [length]; exact small, by rw [length]; omega⟩
    rw [FileChecksumEntry.size, length, Nat.add_comm]

private theorem six_le_size (e : FileChecksumEntry) : 6 ≤ e.size := by
  have room := le_alignTo (fileChecksumEntryHeader + e.checksum.length) 4 (by omega)
  simp only [FileChecksumEntry.size, fileChecksumEntryHeader] at *
  omega

theorem dvd_size (e : FileChecksumEntry) : 4 ∣ e.size := dvd_alignTo _ _

/-- Skipping an aligned size leaves the rest, or nothing but padding. -/
theorem add_alignTo_sub (n size : Nat) (whole : 4 ∣ size) (near : size < n + 4) :
    size + alignTo (n - size) 4 = alignTo n 4 := by
  obtain ⟨q, rfl⟩ := whole
  simp only [alignTo]
  omega

/-- Entries that are read without error stand one behind the other and fill the stream up to the
padding of the last one. -/
theorem readChecksums_accepted (fuel offset : Nat) (stream : Bytes)
    (enough : stream.length ≤ fuel) (accepted : (readChecksums fuel offset stream).2 = false) :
    (readChecksums fuel offset stream).1 = starts FileChecksumEntry.size offset
        ((readChecksums fuel offset stream).1.map Prod.fst) ∧
      total FileChecksumEntry.size 0 ((readChecksums fuel offset stream).1.map Prod.fst) =
        alignTo stream.length 4 ∧
      ∀ entry ∈ (readChecksums fuel offset stream).1, entry.1.checksum.length < 256 := by
  induction fuel generalizing offset stream with
  | zero =>
    obtain rfl : stream = [] := List.eq_nil_of_length_eq_zero (by omega)
    exact ⟨rfl, rfl, by simp [readChecksums]⟩
  | succ fuel ih =>
    rw [readChecksums] at accepted ⊢
    by_cases empty : stream = []
    · subst empty
      exact ⟨rfl, rfl, by simp⟩
    rw [if_neg empty] at accepted ⊢
    cases extracted : extractChecksum stream with
    | none =>
      rw [extracted] at accepted
      cases accepted
    | some found =>
      obtain ⟨len, entry⟩ := found
      obtain ⟨rfl, short, fits⟩ := extractChecksum_some stream len entry extracted
      rw [extracted] at accepted
      have six := six_le_size entry
      have below := alignTo_lt (fileChecksumEntryHeader + entry.checksum.length) 4 (by omega)
      -- Dropping a padded entry may go past the end: then the rest is empty, and was padding.
      obtain ⟨inOrder, filled, small⟩ := ih (offset + entry.size) (stream.drop entry.size)
        (by rw [List.length_drop]; omega) accepted
      refine ⟨?_, ?_, List.forall_mem_cons.mpr ⟨short, small⟩⟩
      · dsimp only
        rw [List.map_cons, starts, ← inOrder]
      · dsimp only
        rw [List.length_drop] at filled
        rw [total, Nat.zero_add] at filled
        rw [List.map_cons, total, Nat.zero_add, List.map_cons, List.sum_cons, filled]
        have near : entry.size < stream.length + 4 := by
          simp only [FileChecksumEntry.size]
          omega
        exact add_alignTo_sub _ _ (dvd_size entry) near

/-! ### Writing -/

theorem commit_eq_flatMap (new : DebugChecksumsSubsection) :
    new.commit = new.checksums.flatMap (fun e => padTo4 e.bytes) := by
  have step : ∀ (entries : List FileChecksumEntry) (out : Bytes), 4 ∣ out.length →
      entries.foldl (fun out e => padTo4 (out ++ e.bytes)) out =
        out ++ entries.flatMap (fun e => padTo4 e.bytes) := by
    intro entries
    induction entries with
    | nil => simp
    | cons e rest ih =>
      intro out whole
      have padded : padTo4 (out ++ e.bytes) = out ++ padTo4 e.bytes := by
        rw [padTo4, padTo4, List.length_append, alignTo_four_add _ _ whole, Nat.add_sub_add_left,
          List.append_assoc]
      have wholeNext : 4 ∣ (out ++ padTo4 e.bytes).length := by
        rw [List.length_append, length_padTo4]
        exact Nat.dvd_add whole (dvd_alignTo _ _)
      rw [List.foldl_cons, padded, ih _ wholeNext, List.flatMap_cons, List.append_assoc]
  exact step new.checksums [] (by simp)

private theorem length_bytes (e : FileChecksumEntry) :
    e.bytes.length = fileChecksumEntryHeader + e.checksum.length := by
  simp only [FileChecksumEntry.bytes, List.length_append, length_le32, List.length_cons,
    List.length_nil, fileChecksumEntryHeader]
  omega

theorem length_padded (e : FileChecksumEntry) : (padTo4 e.bytes).length = e.size := by
  rw [length_padTo4, length_bytes, FileChecksumEntry.size]

/-- An entry that the fields have room for. -/
structure Storable (e : FileChecksumEntry) : Prop where
  offset : e.fileNameOffset < 2 ^ 32
  short : e.checksum.length < 256

private theorem extractChecksum_padded (e : FileChecksumEntry) (fits : Storable e) (rest : Bytes) :
    extractChecksum (padTo4 e.bytes ++ rest) = some (e.size, e) := by
  obtain ⟨offset, short⟩ := fits
  have parts : padTo4 e.bytes ++ rest = le32 e.fileNameOffset ++
      (UInt8.ofNat e.checksum.length :: e.kind :: (e.checksum ++
        (List.replicate (alignTo e.bytes.length 4 - e.bytes.length) 0 ++ rest))) := by
    rw [padTo4, FileChecksumEntry.bytes]
    simp
  rw [parts]
  generalize List.replicate (alignTo e.bytes.length 4 - e.bytes.length) 0 ++ rest = tail
  -- the reader takes the four parts back from where the writer put them
  have name : Bytes.u32At (le32 e.fileNameOffset ++
      (UInt8.ofNat e.checksum.length :: e.kind :: (e.checksum ++ tail))) 0 = e.fileNameOffset := by
    rw [u32At_le32, uint32_of_le _ (by unfold uint32Max; omega)]
  have size : Bytes.byteAt (le32 e.fileNameOffset ++
      (UInt8.ofNat e.checksum.length :: e.kind :: (e.checksum ++ tail))) 4 = e.checksum.length := by
    have byte : (UInt8.ofNat e.checksum.length).toNat = e.checksum.length := by
      rw [UInt8.toNat_ofNat']
      omega
    exact byte
  have checksum : Bytes.slice (le32 e.fileNameOffset ++ (UInt8.ofNat e.checksum.length :: e.kind ::
      (e.checksum ++ tail))) fileChecksumEntryHeader e.checksum.length = e.checksum := by
    have front : (le32 e.fileNameOffset ++ (UInt8.ofNat e.checksum.length :: e.kind ::
        (e.checksum ++ tail))).drop fileChecksumEntryHeader = e.checksum ++ tail := rfl
    rw [Bytes.slice, front, List.take_left' rfl]
  have length : (le32 e.fileNameOffset ++ (UInt8.ofNat e.checksum.length :: e.kind ::
      (e.checksum ++ tail))).length = fileChecksumEntryHeader + e.checksum.length + tail.length := by
    simp only [List.length_append, length_le32, List.length_cons, fileChecksumEntryHeader]
    omega
  unfold extractChecksum
  dsimp only
  rw [size, name, checksum, length, if_neg (by omega), if_neg (by omega),
    Nat.add_comm e.checksum.length]
  rfl

/-- What has been written is read back, each entry behind the aligned sizes of those before it. -/
theorem readChecksums_written (entries : List FileChecksumEntry) (fuel offset : Nat)
    (fits : ∀ e ∈ entries, Storable e)
    (enough : (entries.flatMap (fun e => padTo4 e.bytes)).length ≤ fuel) :
    readChecksums fuel offset (entries.flatMap (fun e => padTo4 e.bytes)) =
      (starts FileChecksumEntry.size offset entries, false) := by
  induction entries generalizing fuel offset with
  | nil => cases fuel <;> rfl
  | cons e rest ih =>
    obtain ⟨here, later⟩ := List.forall_mem_cons.mp fits
    have six := six_le_size e
    rw [List.flatMap_cons] at enough ⊢
    rw [List.length_append, length_padded] at enough
    obtain ⟨fuel, rfl⟩ : ∃ n, fuel = n + 1 := ⟨fuel - 1, by omega⟩
    -- an entry has at least six bytes, so the reader does not stop in front of it
    have notEmpty : padTo4 e.bytes ++ rest.flatMap (fun e => padTo4 e.bytes) ≠ [] := by
      intro empty
      have length := congrArg List.length empty
      rw [List.length_append, length_padded, List.length_nil] at length
      omega
    rw [readChecksums, if_neg notEmpty, extractChecksum_padded e here]
    dsimp only
    rw [List.drop_left' (length_padded e), ih fuel (offset + e.size) later (by omega), starts]

/-! ### The new table -/

/-- How an entry of the new table stands to the one of the object file. -/
structure SameEntry (old new : FileChecksumEntry × Nat) : Prop where
  offset : new.2 = old.2
  kind : new.1.kind = old.1.kind
  checksum : new.1.checksum = old.1.checksum

/-- The absolute name of an entry. -/
def absoluteName (pdbMakeAbsolute : Bytes → Bytes) (cvStrTab : Bytes) (e : FileChecksumEntry) :
    Bytes :=
  pdbMakeAbsolute ((cvStrTab.cString e.fileNameOffset).getD [])

/-- An entry under the offset that the string table has for its absolute name. -/
def Renamed (pdbMakeAbsolute : Bytes → Bytes) (cvStrTab : Bytes) (t : StringTable)
    (old new : FileChecksumEntry) : Prop :=
  (absoluteName pdbMakeAbsolute cvStrTab old, new.fileNameOffset) ∈ t.ids ∧
    new.kind = old.kind ∧ new.checksum = old.checksum

section Finish

variable (pdbMakeAbsolute : Bytes → Bytes) (cvStrTab : Bytes)

private theorem insertAll_cons (t : StringTable) (name : Bytes) (names : List Bytes) :
    t.insertAll (name :: names) = (t.insert name).1.insertAll names := rfl

/-- What the loop of `finish` has added at its end. -/
theorem finish_loop (entries : List (FileChecksumEntry × Nat)) (strings : StringTable)
    (new : DebugChecksumsSubsection) (written : Nat)
    (readable : ∀ fc ∈ entries, (cvStrTab.cString fc.1.fileNameOffset).isSome)
    (size : new.serializedSize = uint32 written) :
    ∃ added, entries.foldlM (fun s fc =>
        (cvStrTab.cString fc.1.fileNameOffset).map (fun fileName =>
          addChecksum s.1 s.2 (pdbMakeAbsolute fileName) fc.1.kind fc.1.checksum)) (strings, new) =
        some (strings.insertAll
            (entries.map (fun fc => absoluteName pdbMakeAbsolute cvStrTab fc.1)),
          ⟨new.checksums ++ added, uint32 (written + (added.map FileChecksumEntry.size).sum)⟩) ∧
      List.Forall₂ (Renamed pdbMakeAbsolute cvStrTab (strings.insertAll
        (entries.map (fun fc => absoluteName pdbMakeAbsolute cvStrTab fc.1))))
        (entries.map Prod.fst) added := by
  induction entries generalizing strings new written with
  | nil =>
    refine ⟨[], ?_, List.Forall₂.nil⟩
    rw [List.append_nil, List.map_nil, List.map_nil, List.sum_nil, Nat.add_zero, ← size]
    rfl
  | cons fc rest ih =>
    obtain ⟨here, later⟩ := List.forall_mem_cons.mp readable
    obtain ⟨fileName, read⟩ := Option.isSome_iff_exists.mp here
    have name : absoluteName pdbMakeAbsolute cvStrTab fc.1 = pdbMakeAbsolute fileName := by
      rw [absoluteName, read, Option.getD_some]
    -- The size is kept in 32 bits, and adding to it wraps the same way as adding first.
    have grown : (addChecksum strings new (pdbMakeAbsolute fileName) fc.1.kind
        fc.1.checksum).2.serializedSize = uint32 (written + fc.1.size) := by
      rw [addChecksum]
      dsimp only
      rw [size, StringTable.uint32_add]
      rfl
    obtain ⟨added, ran, renamed⟩ :=
      ih (strings.insert (pdbMakeAbsolute fileName)).1 _ (written + fc.1.size) later grown
    refine ⟨⟨(strings.insert (pdbMakeAbsolute fileName)).2, fc.1.kind, fc.1.checksum⟩ :: added,
      ?_, ?_⟩
    · rw [List.foldlM_cons, read, Option.map_some]
      have checksums : (addChecksum strings new (pdbMakeAbsolute fileName) fc.1.kind
          fc.1.checksum).2.checksums = new.checksums ++
            [⟨(strings.insert (pdbMakeAbsolute fileName)).2, fc.1.kind, fc.1.checksum⟩] := rfl
      refine ran.trans ?_
      rw [List.map_cons, name, insertAll_cons, List.map_cons, List.sum_cons, checksums,
        List.append_assoc, List.singleton_append, Nat.add_assoc]
      rfl
    · rw [List.map_cons, List.map_cons, name, insertAll_cons]
      -- The name inserted here keeps its ID when the later ones are inserted.
      refine List.Forall₂.cons ⟨?_, rfl, rfl⟩ renamed
      rw [name]
      exact StringTable.ids_insertAll _ _ _ (StringTable.mem_insert _ _)

/-- Equal sizes give equal offsets. -/
theorem sameEntry_starts (t : StringTable) (offset : Nat) (olds news : List FileChecksumEntry)
    (renamed : List.Forall₂ (Renamed pdbMakeAbsolute cvStrTab t) olds news) :
    List.Forall₂ SameEntry (starts FileChecksumEntry.size offset olds)
      (starts FileChecksumEntry.size offset news) := by
  induction renamed generalizing offset with
  | nil => exact List.Forall₂.nil
  | @cons old new olds news here _ ih =>
    have size : new.size = old.size := by
      rw [FileChecksumEntry.size, FileChecksumEntry.size, here.2.2]
    rw [starts, starts, size]
    exact List.Forall₂.cons ⟨rfl, here.2.1, here.2.2⟩ (ih _)

private theorem sum_size_of_renamed (t : StringTable) (olds news : List FileChecksumEntry)
    (renamed : List.Forall₂ (Renamed pdbMakeAbsolute cvStrTab t) olds news) :
    news.map FileChecksumEntry.size = olds.map FileChecksumEntry.size := by
  induction renamed with
  | nil => rfl
  | @cons old new olds news here _ ih =>
    rw [List.map_cons, List.map_cons, ih, FileChecksumEntry.size, FileChecksumEntry.size, here.2.2]

/-- The new table and the one of the object file tell line tables the same. -/
structure ChecksumsKept (data : Bytes) (new : DebugChecksumsSubsection) (final : StringTable) :
    Prop where
  size : new.serializedSize = data.length
  written : new.commit.length = new.serializedSize
  accepted : (checksumArray new.commit).2 = false
  same : List.Forall₂ SameEntry (checksumArray data).1 (checksumArray new.commit).1
  named : ∀ order : List (Bytes × Nat), order.Perm final.ids →
    ∃ table, final.commit order = some table ∧
      List.Forall₂ (fun old new : FileChecksumEntry × Nat =>
        table.cString new.1.fileNameOffset = some (absoluteName pdbMakeAbsolute cvStrTab old.1))
        (checksumArray data).1 (checksumArray new.commit).1

private theorem no_nul_of_cString (b : Bytes) (i : Nat) (s : Bytes) (read : b.cString i = some s) :
    (0 : UInt8) ∉ s := by
  unfold Bytes.cString at read
  dsimp only at read
  split at read
  · cases read
    intro member
    simpa using List.mem_takeWhile_imp member
  · cases read

theorem exists_left_of_mem {α β : Type*} {R : α → β → Prop} {lefts : List α} {rights : List β}
    (related : List.Forall₂ R lefts rights) (b : β) (member : b ∈ rights) :
    ∃ a ∈ lefts, R a b := by
  induction related with
  | nil => cases member
  | cons here _ ih =>
    rcases List.mem_cons.mp member with rfl | later
    · exact ⟨_, List.mem_cons_self, here⟩
    · obtain ⟨a, inLefts, holds⟩ := ih later
      exact ⟨a, List.mem_cons_of_mem _ inLefts, holds⟩

variable {pdbMakeAbsolute cvStrTab}

/-- What is rebuilt has the entries at their offsets, whether the last one was padded or not. -/
theorem rebuilt_same (data : Bytes) (t : StringTable) (added : List FileChecksumEntry)
    (written : Nat) (ok : t.Consistent) (accepted : (checksumArray data).2 = false)
    (renamed : List.Forall₂ (Renamed pdbMakeAbsolute cvStrTab t)
      ((checksumArray data).1.map Prod.fst) added) :
    checksumArray (DebugChecksumsSubsection.mk added written).commit =
        (starts FileChecksumEntry.size 0 added, false) ∧
      List.Forall₂ SameEntry (checksumArray data).1 (starts FileChecksumEntry.size 0 added) ∧
      (DebugChecksumsSubsection.mk added written).commit.length = alignTo data.length 4 ∧
      (added.map FileChecksumEntry.size).sum = alignTo data.length 4 := by
  obtain ⟨inOrder, filled, short⟩ :=
    readChecksums_accepted data.length 0 data (Nat.le_refl _) accepted
  -- IDs come from the string table in 32 bits, and checksums from a length byte.
  have storable : ∀ e ∈ added, Storable e := by
    intro e member
    obtain ⟨old, inOld, name, -, checksum⟩ := exists_left_of_mem renamed e member
    obtain ⟨entry, inArray, rfl⟩ := List.mem_map.mp inOld
    constructor
    · rw [ok.ids] at name
      obtain ⟨place, -, same⟩ := List.mem_map.mp name
      have id : uint32 place.2 = e.fileNameOffset := congrArg Prod.snd same
      have small := uint32_le place.2
      unfold uint32Max at small
      omega
    · rw [checksum]
      exact short entry inArray
  have sizes := sum_size_of_renamed pdbMakeAbsolute cvStrTab t _ _ renamed
  -- Entries have the size they had, each padded, so the last one is padded now if it was not.
  have sum : (added.map FileChecksumEntry.size).sum = alignTo data.length 4 := by
    rw [total, Nat.zero_add] at filled
    rw [sizes]
    exact filled
  have length : (DebugChecksumsSubsection.mk added written).commit.length =
      alignTo data.length 4 := by
    rw [commit_eq_flatMap, List.length_flatMap, ← sum]
    simp only [length_padded]
  refine ⟨?_, ?_, length, sum⟩
  · rw [checksumArray, commit_eq_flatMap]
    exact readChecksums_written added _ 0 storable (Nat.le_refl _)
  · have aligned := sameEntry_starts pdbMakeAbsolute cvStrTab t 0 _ _ renamed
    have offsets : (checksumArray data).1 =
        starts FileChecksumEntry.size 0 ((checksumArray data).1.map Prod.fst) := inOrder
    rw [← offsets] at aligned
    exact aligned

/-- The names read from a committed string table. -/
theorem rebuilt_named (t : StringTable) (bytes : Bytes) (olds : List (FileChecksumEntry × Nat))
    (added : List FileChecksumEntry) (offset : Nat)
    (resolves : ∀ entry ∈ t.ids, (0 : UInt8) ∉ entry.1 → bytes.cString entry.2 = some entry.1)
    (textual : ∀ old ∈ olds, (0 : UInt8) ∉ absoluteName pdbMakeAbsolute cvStrTab old.1)
    (renamed : List.Forall₂ (Renamed pdbMakeAbsolute cvStrTab t) (olds.map Prod.fst) added) :
    List.Forall₂ (fun old new : FileChecksumEntry × Nat =>
      bytes.cString new.1.fileNameOffset = some (absoluteName pdbMakeAbsolute cvStrTab old.1))
      olds (starts FileChecksumEntry.size offset added) := by
  induction olds generalizing added offset with
  | nil =>
    cases renamed
    exact List.Forall₂.nil
  | cons old rest ih =>
    obtain ⟨textHere, textLater⟩ := List.forall_mem_cons.mp textual
    cases renamed with
    | cons here later =>
      rw [starts]
      exact List.Forall₂.cons (resolves _ here.1 textHere) (ih _ _ textLater later)

/-- The rebuilt table keeps every file ID valid exactly for tables whose last entry is padded, as
long as the strings of the PDB stay below 4 GiB. -/
theorem finishChecksums_keeps_iff (pdbMakeAbsolute : Bytes → Bytes) (cvStrTab data : Bytes)
    (before after : List Bytes)
    (textual : ∀ name : Bytes, (0 : UInt8) ∉ name → (0 : UInt8) ∉ pdbMakeAbsolute name)
    (short : data.length ≤ uint32Max) (accepted : (checksumArray data).2 = false)
    (readable : ∀ fc ∈ (checksumArray data).1, (cvStrTab.cString fc.1.fileNameOffset).isSome) :
    ∃ strings new, finishChecksums pdbMakeAbsolute cvStrTab data
        (StringTable.empty.insertAll before) = some (strings, new) ∧
      (ChecksumsKept pdbMakeAbsolute cvStrTab data new (strings.insertAll after) ↔
        4 ∣ data.length ∧ StringTable.tableSize (before ++ ((checksumArray data).1.map
          (fun fc => absoluteName pdbMakeAbsolute cvStrTab fc.1) ++ after)) < 2 ^ 32) := by
  have start := StringTable.consistent_insertAll _ before StringTable.consistent_empty
  -- The loop inserts the names in the order of the entries and never fails on readable ones.
  obtain ⟨added, ran, renamed⟩ := finish_loop pdbMakeAbsolute cvStrTab (checksumArray data).1
    (StringTable.empty.insertAll before) ⟨[], 0⟩ 0 readable rfl
  generalize names : (checksumArray data).1.map
    (fun fc => absoluteName pdbMakeAbsolute cvStrTab fc.1) = inserted at ran renamed
  refine ⟨_, _, ran, ?_⟩
  have ok := StringTable.consistent_insertAll _ inserted start
  have okFinal := StringTable.consistent_insertAll _ after ok
  -- The final table is one run of insertions: those before, those of the file, those after.
  have history : ((StringTable.empty.insertAll before).insertAll inserted).insertAll after =
      StringTable.empty.insertAll (before ++ (inserted ++ after)) := by
    rw [StringTable.insertAll_append, StringTable.insertAll_append]
  have sum := (rebuilt_same data _ added 0 ok accepted renamed).2.2.2
  rw [List.nil_append, Nat.zero_add, sum]
  have room := le_alignTo data.length 4 (by omega)
  have near := alignTo_lt data.length 4 (by omega)
  unfold uint32Max at short
  constructor
  -- The rebuilt table is padded, so it has the old size only if that was padded as well,
  · intro kept
    constructor
    · have size : uint32 (alignTo data.length 4) = data.length := kept.size
      have whole := dvd_alignTo data.length 4
      unfold uint32 at size
      rcases Nat.lt_or_ge (alignTo data.length 4) (2 ^ 32) with fits | wraps
      · rw [Nat.mod_eq_of_lt fits] at size
        rwa [size] at whole
      · omega
    -- and a string table of 4 GiB or more cannot be committed, so no name could be read back.
    · by_contra large
      obtain ⟨table, committed, -⟩ := kept.named _ (List.Perm.refl _)
      rw [StringTable.commit_none _ okFinal
        (by rw [history, StringTable.total_insertAll]; omega) _ (List.Perm.refl _)] at committed
      cases committed
  -- In a padded table every entry keeps its place, and the committed strings resolve.
  · rintro ⟨whole, small⟩
    have padded : alignTo data.length 4 = data.length := alignTo_of_dvd _ _ (by omega) whole
    have size : uint32 data.length = data.length := uint32_of_le _ (by unfold uint32Max; omega)
    rw [padded, size]
    obtain ⟨written, same, length, -⟩ := rebuilt_same data _ added data.length ok accepted renamed
    refine ⟨rfl, length.trans padded, by rw [written], by rw [written]; exact same, ?_⟩
    intro order permuted
    obtain ⟨bytes, committed, resolves⟩ := StringTable.commit_ok _ okFinal
      (by rw [history, StringTable.total_insertAll]; exact small) order permuted
    refine ⟨bytes, committed, ?_⟩
    rw [written]
    refine rebuilt_named _ bytes _ added 0
      (fun entry member => resolves entry (StringTable.ids_insertAll _ after entry member)) ?_
      renamed
    intro old member
    obtain ⟨name, read⟩ := Option.isSome_iff_exists.mp (readable old member)
    rw [absoluteName, read, Option.getD_some]
    exact textual name (no_nul_of_cString _ _ _ read)

end Finish

/-! ### Tables with and without padding -/

/-- An entry with an MD5 sum for the name at offset 1, without its padding. -/
def md5Entry : Bytes := le32 1 ++ ([16, 1] ++ List.replicate 16 0xaa)

/-- The names `/a` and `/b` of an object file. -/
def twoNames : Bytes := [0, 0x2f, 0x61, 0, 0x2f, 0x62, 0]

/-- The second name comes without a checksum, and the first one comes again with another. -/
def threeEntries : Bytes :=
  padTo4 md5Entry ++ padTo4 (le32 4 ++ [0, 0]) ++ padTo4 (le32 1 ++ [4, 2, 1, 2, 3, 4])

/-- `pdbMakeAbsolute` in the directory `/d`. -/
def inDirectory (name : Bytes) : Bytes := [0x2f, 0x64] ++ name

/-- `/d/b` is in the string table before, and a later file adds `/d/a` again. -/
theorem padded_entries_kept :
    ∃ strings new, finishChecksums inDirectory twoNames threeEntries
        (StringTable.empty.insertAll [[0x78], inDirectory [0x2f, 0x62]]) = some (strings, new) ∧
      ChecksumsKept inDirectory twoNames threeEntries new
        (strings.insertAll [inDirectory [0x2f, 0x61], [0x79]]) := by
  obtain ⟨strings, new, finished, kept⟩ := finishChecksums_keeps_iff inDirectory twoNames
    threeEntries [[0x78], inDirectory [0x2f, 0x62]] [inDirectory [0x2f, 0x61], [0x79]]
    (fun name no_nul => by simpa [inDirectory] using no_nul) (by decide) (by decide) (by decide)
  exact ⟨strings, new, finished, kept.mpr (by decide)⟩

/-- The name `/a` alone. -/
def oneName : Bytes := [0, 0x2f, 0x61, 0]

/-- Without the padding the new table is two bytes longer. -/
theorem unpadded_entry_grows : (checksumArray md5Entry).2 = false ∧
    ∃ strings new, finishChecksums id oneName md5Entry .empty = some (strings, new) ∧
      ¬ ChecksumsKept id oneName md5Entry new strings :=
  ⟨by decide, _, _, rfl, fun kept => absurd kept.size (by decide)⟩

end LlvmLd.Pdb
