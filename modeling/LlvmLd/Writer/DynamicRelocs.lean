import Mathlib.Data.List.Sort
import Mathlib.Data.Nat.Size
import LlvmLd.Lib.Bytes
import LlvmLd.Lib.Runs

/-!
# Dynamic relocations of hybrid images

`DynamicRelocsChunk` of `Chunks.cpp` with its entries, and the reader's side of the table. Symbols
and chunks are taken with the addresses they have been given.

Proof strategy: the loop of `finalize` and the loop of `writeTo` step together, so both start blocks
at the same entries. What `writeTo` leaves is one block for each run of equal pages; the sizes that
it patches in are the lengths of the blocks.
-/

namespace LlvmLd.Writer

/-! ### Entries -/

/-- `IMAGE_DVRT_ARM64X_FIXUP_TYPE_*`. -/
inductive Arm64XFixupType where
  | zerofill | value | delta
  deriving DecidableEq, Repr

def Arm64XFixupType.code : Arm64XFixupType → Nat
  | .zerofill => 0
  | .value => 1
  | .delta => 2

/-- The addresses of the symbol and of the chunk, if there are any, and an addend. -/
structure Arm64XRelocVal where
  sym : Option Nat
  chunk : Option Nat
  value : Nat
  deriving DecidableEq, Repr

def Arm64XRelocVal.get (v : Arm64XRelocVal) : Nat :=
  (v.sym.getD 0 + v.chunk.getD 0 + v.value) % 2 ^ 64

structure Arm64XDynamicRelocEntry where
  type : Arm64XFixupType
  -- 8 bits wide
  size : Nat
  offset : Arm64XRelocVal
  value : Arm64XRelocVal
  deriving DecidableEq, Repr

namespace Arm64XDynamicRelocEntry

def getSize (e : Arm64XDynamicRelocEntry) : Nat :=
  match e.type with
  | .zerofill => 2
  | .value => 2 + e.size
  | .delta => 4

/-- Offset and type; the fields do not overlap. -/
def header (e : Arm64XDynamicRelocEntry) : Nat := e.offset.get % 4096 + e.type.code * 2 ^ 12

/-- `bit_width(size) - 1` in the two bits that are left of it. -/
def sizeCode (e : Arm64XDynamicRelocEntry) : Nat := (e.size.size + 3) % 4

/-- `none` is the unreachable branch for an invalid size. -/
def writeTo (e : Arm64XDynamicRelocEntry) : Option Bytes :=
  match e.type with
  | .zerofill => some (le16 (e.header + e.sizeCode * 2 ^ 14))
  | .value =>
      let out := le16 (e.header + e.sizeCode * 2 ^ 14)
      match e.size with
      | 2 => some (out ++ le16 e.value.get)
      | 4 => some (out ++ le32 e.value.get)
      | 8 => some (out ++ le64 e.value.get)
      | _ => none
  | .delta =>
      let delta : Int := (e.value.get : Int).bmod (2 ^ 32)
      -- negative offsets use a sign bit in the header
      let out := if delta < 0 then e.header + 2 ^ 14 else e.header
      if delta.natAbs % 8 ≠ 0 then some (le16 out ++ le16 (delta.natAbs / 4))
      else some (le16 (out + 2 ^ 15) ++ le16 (delta.natAbs / 8))

/-- `offset.get() & ~0xfff` as a 32-bit value. -/
def page (e : Arm64XDynamicRelocEntry) : Nat := uint32 (e.offset.get / 4096 * 4096)

end Arm64XDynamicRelocEntry

/-! ### The chunk -/

/-- `DynamicRelocsChunk` behind `finalize`. -/
structure DynamicRelocsChunk where
  arm64xRelocs : List Arm64XDynamicRelocEntry
  size : Nat
  deriving DecidableEq, Repr

/-- The two table headers take 8 and 12 bytes. -/
def dynamicRelocHeaders : Nat := 8 + 12

/-- One round of the loop over the size and `prevPage`. -/
def countEntry (s : Nat × Nat) (e : Arm64XDynamicRelocEntry) : Nat × Nat :=
  let s := if e.page ≠ s.2 then (alignTo s.1 4 + 8, e.page) else s
  (s.1 + e.getSize, s.2)

def sortByOffset (entries : List Arm64XDynamicRelocEntry) : List Arm64XDynamicRelocEntry :=
  entries.insertionSort (fun a b => a.offset.get ≤ b.offset.get)

def finalize (entries : List Arm64XDynamicRelocEntry) : DynamicRelocsChunk :=
  let sorted := sortByOffset entries
  { arm64xRelocs := sorted
    size := alignTo (sorted.foldl countEntry (dynamicRelocHeaders, 0xfff)).1 4 }

/-- What is written behind the headers so far, and the block that is open: where it starts and its
page. -/
structure BlockWriter where
  out : Bytes
  pageHeader : Option (Nat × Nat)

/-- Align the end and store the size of the block that ends there. The space between blocks is zero,
as the whole file is to begin with. -/
def BlockWriter.close (b : BlockWriter) : Bytes :=
  let out := padTo4 b.out
  match b.pageHeader with
  | none => out
  | some (start, _) => setWord out (start + 4) (out.length - start)

def BlockWriter.write (b : BlockWriter) (e : Arm64XDynamicRelocEntry) : Option BlockWriter :=
  let b :=
    if b.pageHeader.map Prod.snd ≠ some e.page then
      { out := b.close ++ (le32 e.page ++ le32 0), pageHeader := some (b.close.length, e.page) }
    else b
  e.writeTo.map (fun bytes => { b with out := b.out ++ bytes })

/-- `none` also stands for the size stored through a null pointer when there is no entry. -/
def DynamicRelocsChunk.writeTo (c : DynamicRelocsChunk) : Option Bytes :=
  (c.arm64xRelocs.foldlM BlockWriter.write ⟨[], none⟩).bind (fun b =>
    match b.pageHeader with
    | none => none
    | some _ =>
        let blocks := b.close
        some ((le32 1 ++ le32 (12 + blocks.length)) ++ (le64 6 ++ le32 blocks.length) ++ blocks))

/-! ### The reader's side -/

inductive FixupAction where
  | zero (width : Nat)
  | value (width v : Nat)
  | delta (d : Int)
  deriving DecidableEq, Repr

/-- What the loader does to the image at an address. -/
structure Fixup where
  rva : Nat
  action : FixupAction
  deriving DecidableEq, Repr

/-- What follows a header of the given type and argument. -/
def decodeAction (rva type arg : Nat) (rest : Bytes) : Option (Fixup × Bytes) :=
  if type = 0 then some (⟨rva, .zero (2 ^ arg)⟩, rest)
  else if type = 1 then
    if rest.length < 2 ^ arg then none
    else if arg = 1 then some (⟨rva, .value 2 (rest.u16At 0)⟩, rest.drop 2)
    else if arg = 2 then some (⟨rva, .value 4 (rest.u32At 0)⟩, rest.drop 4)
    else if arg = 3 then some (⟨rva, .value 8 (rest.u64At 0)⟩, rest.drop 8)
    else none
  else if type = 2 then
    if rest.length < 2 then none
    else
      let magnitude : Int := (if arg / 2 = 1 then 8 else 4) * rest.u16At 0
      some (⟨rva, .delta (if arg % 2 = 1 then -magnitude else magnitude)⟩, rest.drop 2)
  else none

/-- The entry at the start of `bytes`, and what follows it. -/
def decodeFixup (page : Nat) (bytes : Bytes) : Option (Fixup × Bytes) :=
  let header := bytes.u16At 0
  if bytes.length < 2 then none
  else decodeAction (page + header % 4096) (header / 4096 % 4) (header / 2 ^ 14) (bytes.drop 2)

/-- The entries of a block. A zero halfword at the end, behind some entry, is padding. -/
def decodeFixups (page : Nat) : Nat → Bool → Bytes → Option (List Fixup)
  | 0, _, bytes => if bytes = [] then some [] else none
  | fuel + 1, first, bytes =>
      if bytes = [] then some []
      else if first = false ∧ bytes = [0, 0] then some []
      else
        (decodeFixup page bytes).bind (fun (fixup, rest) =>
          (decodeFixups page fuel false rest).map (fixup :: ·))

/-- Blocks with their pages; a block takes more than 8 bytes. -/
def decodeFixupBlocks : Nat → Bytes → Option (List (Nat × List Fixup))
  | 0, bytes => if bytes = [] then some [] else none
  | fuel + 1, bytes =>
      let size := bytes.u32At 4
      if bytes = [] then some []
      else if bytes.length < 8 ∨ size ≤ 8 ∨ bytes.length < size ∨ ¬ 4 ∣ size then none
      else
        (decodeFixups (bytes.u32At 0) (size - 8) true (bytes.slice 8 (size - 8))).bind (fun fixups =>
          (decodeFixupBlocks fuel (bytes.drop size)).map ((bytes.u32At 0, fixups) :: ·))

def decodeDynamicRelocs (bytes : Bytes) : Option (List (Nat × List Fixup)) :=
  if bytes.u32At 0 = 1 ∧ bytes.u32At 4 + 8 = bytes.length ∧ bytes.u64At 8 = 6 ∧
      bytes.u32At 16 + dynamicRelocHeaders = bytes.length then
    decodeFixupBlocks bytes.length (bytes.drop dynamicRelocHeaders)
  else none

/-! ### What the entries ask for -/

namespace Arm64XDynamicRelocEntry

/-- Deltas are signed. -/
def fixup (e : Arm64XDynamicRelocEntry) : Fixup :=
  ⟨e.offset.get,
    match e.type with
    | .zerofill => .zero e.size
    | .value => .value e.size e.value.get
    | .delta => .delta ((e.value.get : Int).bmod (2 ^ 64))⟩

/-- The sizes that `writeTo` knows. -/
def SizeKnown (e : Arm64XDynamicRelocEntry) : Prop :=
  e.type = .value → e.size = 2 ∨ e.size = 4 ∨ e.size = 8

/-- The format has room for the entry. -/
def Encodable (e : Arm64XDynamicRelocEntry) : Prop :=
  e.offset.get < 2 ^ 32 ∧
    match e.type with
    | .zerofill => e.size = 1 ∨ e.size = 2 ∨ e.size = 4 ∨ e.size = 8
    | .value => e.value.get < 2 ^ (8 * e.size)
    | .delta =>
        let delta : Int := (e.value.get : Int).bmod (2 ^ 64)
        (delta % 8 = 0 ∧ delta.natAbs < 8 * 2 ^ 16) ∨
          (delta % 4 = 0 ∧ delta % 8 ≠ 0 ∧ delta.natAbs < 4 * 2 ^ 16)

/-- A one-byte zero fill at the start of a page is encoded as a zero halfword. -/
def LikePadding (e : Arm64XDynamicRelocEntry) : Prop :=
  e.type = .zerofill ∧ e.size = 1 ∧ e.offset.get % 4096 = 0

instance decidableSizeKnown (e : Arm64XDynamicRelocEntry) : Decidable e.SizeKnown :=
  inferInstanceAs (Decidable (e.type = .value → _))

instance decidableEncodable (e : Arm64XDynamicRelocEntry) : Decidable e.Encodable :=
  match e with
  | ⟨.zerofill, _, _, _⟩ => inferInstanceAs (Decidable (_ ∧ (_ ∨ _ ∨ _ ∨ _)))
  | ⟨.value, _, _, _⟩ => inferInstanceAs (Decidable (_ ∧ _ < _))
  | ⟨.delta, _, _, _⟩ => inferInstanceAs (Decidable (_ ∧ ((_ ∧ _) ∨ (_ ∧ _ ∧ _))))

instance decidableLikePadding (e : Arm64XDynamicRelocEntry) : Decidable e.LikePadding :=
  inferInstanceAs (Decidable (_ ∧ _ ∧ _))

end Arm64XDynamicRelocEntry

/-- Entries that look like padding have their address to themselves. -/
def PaddingApart (entries : List Arm64XDynamicRelocEntry) : Prop :=
  entries.Pairwise (fun a b => a.offset.get = b.offset.get → ¬ a.LikePadding ∧ ¬ b.LikePadding)

instance decidablePaddingApart (entries : List Arm64XDynamicRelocEntry) :
    Decidable (PaddingApart entries) :=
  inferInstanceAs (Decidable (entries.Pairwise _))

/-- The fixups of the entries, sorted by address and grouped by page. -/
structure GroupedByPage (entries : List Arm64XDynamicRelocEntry)
    (groups : List (Nat × List Fixup)) : Prop where
  all : (groups.flatMap Prod.snd).Perm (entries.map Arm64XDynamicRelocEntry.fixup)
  sorted : (groups.flatMap Prod.snd).Pairwise (fun a b => a.rva ≤ b.rva)
  own : ∀ group ∈ groups, group.2 ≠ [] ∧ ∀ fixup ∈ group.2, fixup.rva / 4096 * 4096 = group.1
  ascending : (groups.map Prod.fst).Pairwise (· < ·)

/-! ### One entry -/

namespace Arm64XDynamicRelocEntry

def bytes (e : Arm64XDynamicRelocEntry) : Bytes := e.writeTo.getD []

private theorem writeTo_of_sizeKnown (e : Arm64XDynamicRelocEntry) (known : e.SizeKnown) :
    e.writeTo = some e.bytes ∧ e.bytes.length = e.getSize := by
  simp only [bytes, writeTo, getSize]
  cases type : e.type with
  | zerofill => exact ⟨rfl, rfl⟩
  | value =>
    rcases known type with two | four | eight
    · rw [two]
      exact ⟨rfl, rfl⟩
    · rw [four]
      exact ⟨rfl, rfl⟩
    · rw [eight]
      exact ⟨rfl, rfl⟩
  | delta =>
    dsimp only
    split <;> exact ⟨rfl, rfl⟩

private theorem two_le_length (e : Arm64XDynamicRelocEntry) (known : e.SizeKnown) :
    2 ≤ e.bytes.length := by
  rw [(e.writeTo_of_sizeKnown known).2, getSize]
  split <;> omega

end Arm64XDynamicRelocEntry

private theorem u16At_le16 (n : Nat) (rest : Bytes) : Bytes.u16At
    (le16 n ++ rest) 0 = n % 65536 := by
  simp only [Bytes.u16At, Bytes.byteAt, le16, List.cons_append, List.getD_cons_zero,
    List.getD_cons_succ, UInt8.toNat_ofNat']
  omega

private theorem decodeFixup_le16 (page low type arg : Nat) (rest : Bytes) (small : low < 4096)
    (twoBits : type < 4) (twoMore : arg < 4) :
    decodeFixup page (le16 (low + type * 2 ^ 12 + arg * 2 ^ 14) ++ rest) =
      decodeAction (page + low) type arg rest := by
  have long : ¬ (le16 (low + type * 2 ^ 12 + arg * 2 ^ 14) ++ rest).length < 2 := by
    rw [List.length_append, length_le16]
    omega
  have word : (low + type * 2 ^ 12 + arg * 2 ^ 14) % 65536 = low + type * 2 ^ 12 + arg * 2 ^ 14 := by
    omega
  have offset : (low + type * 2 ^ 12 + arg * 2 ^ 14) % 4096 = low := by omega
  have kind : (low + type * 2 ^ 12 + arg * 2 ^ 14) / 4096 % 4 = type := by omega
  have argument : (low + type * 2 ^ 12 + arg * 2 ^ 14) / 2 ^ 14 = arg := by omega
  unfold decodeFixup
  dsimp only
  rw [if_neg long, u16At_le16, word, offset, kind, argument]
  rfl

/-- A small delta keeps its value as a 32-bit number. -/
theorem bmod_of_small (n : Nat) (small : ((n : Int).bmod (2 ^ 64)).natAbs < 2 ^ 19) :
    (n : Int).bmod (2 ^ 32) = (n : Int).bmod (2 ^ 64) := by
  have low : (n : Int).bmod (2 ^ 32) = (n : Int) % 2 ^ 32 ∨
      (n : Int).bmod (2 ^ 32) = (n : Int) % 2 ^ 32 - 2 ^ 32 := by
    rw [Int.bmod_def]
    split
    · exact Or.inl rfl
    · exact Or.inr rfl
  have inside := @Int.bmod_lt (n : Int) (2 ^ 32) (by decide)
  have above := @Int.le_bmod (n : Int) (2 ^ 32) (by decide)
  have wide : (n : Int).bmod (2 ^ 64) = (n : Int) % 2 ^ 64 ∨
      (n : Int).bmod (2 ^ 64) = (n : Int) % 2 ^ 64 - 2 ^ 64 := by
    rw [Int.bmod_def]
    split
    · exact Or.inl rfl
    · exact Or.inr rfl
  omega

namespace Arm64XDynamicRelocEntry

private theorem sizeCode_pow (e : Arm64XDynamicRelocEntry)
    (width : e.size = 1 ∨ e.size = 2 ∨ e.size = 4 ∨ e.size = 8) : 2 ^ e.sizeCode = e.size := by
  simp only [sizeCode]
  rcases width with one | two | four | eight
  · rw [one]
    decide
  · rw [two]
    decide
  · rw [four]
    decide
  · rw [eight]
    decide

private theorem sizeCode_lt (e : Arm64XDynamicRelocEntry) : e.sizeCode < 4 := Nat.mod_lt _
    (by omega)

end Arm64XDynamicRelocEntry

/-- What starts with a field is no shorter than the field. -/
theorem not_short (field rest : Bytes) (n : Nat) (length : field.length = n) :
    ¬ (field ++ rest).length < n := by
  rw [List.length_append]
  omega

private theorem decodeValue_bytes (e : Arm64XDynamicRelocEntry) (rva : Nat) (rest : Bytes)
    (type : e.type = .value) (known : e.SizeKnown) (room : e.value.get < 2 ^ (8 * e.size)) :
    ∃ payload, e.bytes = le16 (e.header + e.sizeCode * 2 ^ 14) ++ payload ∧
      decodeAction rva 1 e.sizeCode (payload ++ rest) =
        some (⟨rva, .value e.size e.value.get⟩, rest) := by
  unfold Arm64XDynamicRelocEntry.bytes Arm64XDynamicRelocEntry.writeTo
  have code : ∀ n, e.size = n → e.sizeCode = (n.size + 3) % 4 := fun n same => by
    rw [Arm64XDynamicRelocEntry.sizeCode, same]
  simp only [type]
  -- a value takes two, four or eight bytes, and the size code tells the decoder which
  rcases known type with two | four | eight
  · have read := u16At_le16 e.value.get rest
    rw [two] at room ⊢
    rw [Nat.mod_eq_of_lt (by omega)] at read
    refine ⟨_, rfl, ?_⟩
    rw [code 2 two, show (Nat.size 2 + 3) % 4 = 1 by decide]
    rw [decodeAction]
    rw [if_neg (by decide), if_pos rfl, if_neg (not_short _ _ (2 ^ 1) (length_le16 _)), if_pos rfl,
      read]
    rfl
  · have read := u32At_le32 e.value.get rest
    rw [four] at room ⊢
    rw [uint32, Nat.mod_eq_of_lt (by omega)] at read
    refine ⟨_, rfl, ?_⟩
    rw [code 4 four, show (Nat.size 4 + 3) % 4 = 2 by decide]
    rw [decodeAction]
    rw [if_neg (by decide), if_pos rfl, if_neg (not_short _ _ (2 ^ 2) (length_le32 _)),
      if_neg (by decide), if_pos rfl, read]
    rfl
  · have read := u64At_le64 e.value.get rest
    rw [eight] at room ⊢
    rw [Nat.mod_eq_of_lt (by omega)] at read
    refine ⟨_, rfl, ?_⟩
    rw [code 8 eight, show (Nat.size 8 + 3) % 4 = 3 by decide]
    rw [decodeAction]
    rw [if_neg (by decide), if_pos rfl, if_neg (not_short _ _ (2 ^ 3) (length_le64 _)),
      if_neg (by decide), if_neg (by decide), if_pos rfl, read]
    rfl

private theorem decodeAction_delta (rva arg n : Nat) (rest : Bytes) (small : n < 65536) :
    decodeAction rva 2 arg (le16 n ++ rest) =
      some (⟨rva, .delta (if arg % 2 = 1 then -((if arg / 2 = 1 then 8 else 4) * (n : Int))
        else (if arg / 2 = 1 then 8 else 4) * (n : Int))⟩, rest) := by
  have read := u16At_le16 n rest
  rw [Nat.mod_eq_of_lt (by omega)] at read
  rw [decodeAction]
  rw [if_neg (by decide), if_neg (by decide), if_pos rfl,
    if_neg (not_short _ _ 2 (length_le16 _)), read]
  rfl

/-- A delta is stored in units of 8, or of 4 where it is no multiple of 8. -/
theorem decodeDelta_bytes (e : Arm64XDynamicRelocEntry) (rva : Nat) (rest : Bytes)
    (type : e.type = .delta)
    (room : ((e.value.get : Int).bmod (2 ^ 64) % 8 = 0 ∧
        ((e.value.get : Int).bmod (2 ^ 64)).natAbs < 8 * 2 ^ 16) ∨
      ((e.value.get : Int).bmod (2 ^ 64) % 4 = 0 ∧ (e.value.get : Int).bmod (2 ^ 64) % 8 ≠ 0 ∧
        ((e.value.get : Int).bmod (2 ^ 64)).natAbs < 4 * 2 ^ 16)) :
    ∃ arg payload, arg < 4 ∧ e.bytes = le16 (e.header + arg * 2 ^ 14) ++ payload ∧
      decodeAction rva 2 arg (payload ++ rest) =
        some (⟨rva, .delta ((e.value.get : Int).bmod (2 ^ 64))⟩, rest) := by
  have same := bmod_of_small e.value.get (by omega)
  unfold Arm64XDynamicRelocEntry.bytes Arm64XDynamicRelocEntry.writeTo
  simp only [type]
  rw [same]
  generalize (e.value.get : Int).bmod (2 ^ 64) = delta at room
  -- The two upper bits of the header are the unit and the sign, which gives four cases.
  by_cases eights : delta.natAbs % 8 ≠ 0
  · rw [if_pos eights]
    by_cases negative : delta < 0
    · refine ⟨1, le16 (delta.natAbs / 4), by omega, ?_, ?_⟩
      · rw [if_pos negative, Option.getD_some, Nat.one_mul]
      · have value : -(4 * ((delta.natAbs / 4 : Nat) : Int)) = delta := by omega
        rw [decodeAction_delta _ _ _ _ (by omega), if_pos (by decide), if_neg (by decide), value]
    · refine ⟨0, le16 (delta.natAbs / 4), by omega, ?_, ?_⟩
      · rw [if_neg negative, Option.getD_some, Nat.zero_mul, Nat.add_zero]
      · have value : 4 * ((delta.natAbs / 4 : Nat) : Int) = delta := by omega
        rw [decodeAction_delta _ _ _ _ (by omega), if_neg (by decide), if_neg (by decide), value]
  · rw [if_neg eights]
    by_cases negative : delta < 0
    · refine ⟨3, le16 (delta.natAbs / 8), by omega, ?_, ?_⟩
      · have bits : e.header + 2 ^ 14 + 2 ^ 15 = e.header + 3 * 2 ^ 14 := by omega
        rw [if_pos negative, Option.getD_some, bits]
      · have value : -(8 * ((delta.natAbs / 8 : Nat) : Int)) = delta := by omega
        rw [decodeAction_delta _ _ _ _ (by omega), if_pos (by decide), if_pos (by decide), value]
    · refine ⟨2, le16 (delta.natAbs / 8), by omega, ?_, ?_⟩
      · have bits : e.header + 2 ^ 15 = e.header + 2 * 2 ^ 14 := by omega
        rw [if_neg negative, Option.getD_some, bits]
      · have value : 8 * ((delta.natAbs / 8 : Nat) : Int) = delta := by omega
        rw [decodeAction_delta _ _ _ _ (by omega), if_neg (by decide), if_pos (by decide), value]

/-- Reading an entry back gives the fixup it asks for. -/
theorem decodeFixup_bytes (e : Arm64XDynamicRelocEntry) (known : e.SizeKnown)
    (encodable : e.Encodable) (rest : Bytes) :
    decodeFixup e.page (e.bytes ++ rest) = some (e.fixup, rest) := by
  obtain ⟨inImage, room⟩ := encodable
  have page : e.page = e.offset.get / 4096 * 4096 := by
    unfold Arm64XDynamicRelocEntry.page
    exact uint32_of_le _ (by unfold uint32Max; omega)
  have rva : e.page + e.offset.get % 4096 = e.offset.get := by omega
  have low : e.offset.get % 4096 < 4096 := Nat.mod_lt _ (by omega)
  -- each type has its own number in bits 12 and 13, and its own payload
  cases type : e.type with
  | zerofill =>
    simp only [type] at room
    have bytes : e.bytes = le16 (e.offset.get % 4096 + 0 * 2 ^ 12 + e.sizeCode * 2 ^ 14) := by
      simp only [Arm64XDynamicRelocEntry.bytes, Arm64XDynamicRelocEntry.writeTo, type,
        Arm64XDynamicRelocEntry.header, Arm64XFixupType.code, Option.getD_some]
    rw [bytes, decodeFixup_le16 _ _ _ _ _ low (by omega) e.sizeCode_lt, rva, decodeAction,
      if_pos rfl, e.sizeCode_pow room, Arm64XDynamicRelocEntry.fixup, type]
  | value =>
    simp only [type] at room
    obtain ⟨payload, bytes, decoded⟩ := decodeValue_bytes e e.offset.get rest type known room
    have header : e.header = e.offset.get % 4096 + 1 * 2 ^ 12 := by
      simp only [Arm64XDynamicRelocEntry.header, type, Arm64XFixupType.code]
    rw [bytes, List.append_assoc, header, decodeFixup_le16 _ _ _ _ _ low (by omega) e.sizeCode_lt,
      rva, decoded, Arm64XDynamicRelocEntry.fixup, type]
  | delta =>
    simp only [type] at room
    obtain ⟨arg, payload, short, bytes, decoded⟩ :=
      decodeDelta_bytes e e.offset.get rest type room
    have header : e.header = e.offset.get % 4096 + 2 * 2 ^ 12 := by
      simp only [Arm64XDynamicRelocEntry.header, type, Arm64XFixupType.code]
    rw [bytes, List.append_assoc, header, decodeFixup_le16 _ _ _ _ _ low (by omega) short, rva,
      decoded, Arm64XDynamicRelocEntry.fixup, type]

/-- Only a one-byte zero fill at the start of a page is encoded as zeros. -/
theorem likePadding_of_zero (e : Arm64XDynamicRelocEntry) (known : e.SizeKnown)
    (encodable : e.Encodable) (zero : e.bytes = [0, 0]) : e.LikePadding := by
  have decoded := decodeFixup_bytes e known encodable []
  obtain ⟨-, room⟩ := encodable
  have length := (e.writeTo_of_sizeKnown known).2
  rw [zero] at decoded length
  cases type : e.type with
  | zerofill =>
    simp only [type] at room
    have page : e.page % 4096 = 0 := by
      unfold Arm64XDynamicRelocEntry.page uint32
      omega
    have read : decodeFixup e.page ([0, 0] ++ []) = some (⟨e.page, .zero 1⟩, []) := rfl
    -- two zero bytes read as a zero fill of one byte at the start of the page
    rw [read, Arm64XDynamicRelocEntry.fixup, type] at decoded
    simp only [Option.some.injEq, Prod.mk.injEq, Fixup.mk.injEq, FixupAction.zero.injEq,
      and_true] at decoded
    refine ⟨type, decoded.2.symm, ?_⟩
    rw [← decoded.1]
    exact page
  | value =>
    rw [Arm64XDynamicRelocEntry.getSize, type] at length
    rcases known type with two | four | eight
    · rw [two] at length
      cases length
    · rw [four] at length
      cases length
    · rw [eight] at length
      cases length
  | delta =>
    rw [Arm64XDynamicRelocEntry.getSize, type] at length
    cases length

/-! ### Blocks -/

def relocBlock (page : Nat) (payload : Bytes) : Bytes :=
  let size := alignTo (8 + payload.length) 4
  le32 page ++ (le32 size ++ (payload ++ List.replicate (size - (8 + payload.length)) 0))

def payload (entries : List Arm64XDynamicRelocEntry) : Bytes :=
  entries.flatMap Arm64XDynamicRelocEntry.bytes

def runBlock (run : Nat × List Arm64XDynamicRelocEntry) : Bytes := relocBlock run.1 (payload run.2)

/-- The runs of equal pages behind an open one. -/
def relocRuns (page : Nat) (group rest : List Arm64XDynamicRelocEntry) :
    List (Nat × List Arm64XDynamicRelocEntry) :=
  Runs.keyRuns Arm64XDynamicRelocEntry.page page group rest

private theorem length_relocBlock (page : Nat) (payload : Bytes) :
    (relocBlock page payload).length = alignTo (8 + payload.length) 4 := by
  have room := le_alignTo (8 + payload.length) 4 (by omega)
  simp only [relocBlock, List.length_append, length_le32, List.length_replicate]
  omega

private theorem dvd_length_relocBlock (page : Nat) (payload : Bytes) :
    4 ∣ (relocBlock page payload).length := by
  rw [length_relocBlock]
  exact dvd_alignTo _ _

/-- The writer behind closed blocks, with a block open. -/
def opened (closed : Bytes) (page : Nat) (payload : Bytes) : BlockWriter where
  out := closed ++ (le32 page ++ (le32 0 ++ payload))
  pageHeader := some (closed.length, page)

private theorem close_opened (closed : Bytes) (page : Nat) (payload : Bytes)
    (whole : 4 ∣ closed.length) :
    (opened closed page payload).close = closed ++ relocBlock page payload := by
  have length : (closed ++ (le32 page ++ (le32 0 ++ payload))).length =
      closed.length + (8 + payload.length) := by
    simp only [List.length_append, length_le32]
    omega
  have room := le_alignTo (8 + payload.length) 4 (by omega)
  -- the block starts at a multiple of four, so it is padded by its own length
  have padded : padTo4 (closed ++ (le32 page ++ (le32 0 ++ payload))) =
      (closed ++ le32 page) ++ (le32 0 ++ (payload ++
        List.replicate (alignTo (8 + payload.length) 4 - (8 + payload.length)) 0)) := by
    unfold padTo4
    rw [length, alignTo_four_add _ _ whole, Nat.add_sub_add_left]
    simp only [List.append_assoc]
  have front : (closed ++ le32 page).length = closed.length + 4 := by
    rw [List.length_append, length_le32]
  rw [BlockWriter.close, opened]
  dsimp only
  rw [padded, setWord, List.take_left' front, ← List.drop_drop, List.drop_left' front,
    List.drop_left' (length_le32 0), relocBlock]
  simp only [List.length_append, length_le32, List.length_replicate, List.append_assoc]
  congr 4
  omega

private theorem write_opened (closed : Bytes) (page : Nat) (payload : Bytes)
    (e : Arm64XDynamicRelocEntry) (known : e.SizeKnown) (whole : 4 ∣ closed.length) :
    (opened closed page payload).write e =
      some (if e.page = page then opened closed page (payload ++ e.bytes)
        else opened (closed ++ relocBlock page payload) e.page e.bytes) := by
  have closes := close_opened closed page payload whole
  simp only [BlockWriter.write]
  rw [(e.writeTo_of_sizeKnown known).1, closes]
  by_cases same : e.page = page
  · have header : ¬ (opened closed page payload).pageHeader.map Prod.snd ≠ some e.page := by
      rw [same]
      exact fun differs => differs rfl
    rw [if_neg header, if_pos same]
    simp only [opened, Option.map_some, List.append_assoc]
  · have header : (opened closed page payload).pageHeader.map Prod.snd ≠ some e.page := by
      intro equal
      exact same (Option.some.inj equal).symm
    rw [if_pos header, if_neg same]
    simp only [opened, Option.map_some, List.append_assoc]

/-- The loop of `writeTo` makes one block for each run of equal pages. -/
theorem foldlM_write (closed : Bytes) (page : Nat) (group rest : List Arm64XDynamicRelocEntry)
    (known : ∀ e ∈ rest, e.SizeKnown) (whole : 4 ∣ closed.length) :
    ∃ b, rest.foldlM BlockWriter.write (opened closed page (payload group)) = some b ∧
      b.pageHeader.isSome = true ∧
      b.close = closed ++ (relocRuns page group rest).flatMap runBlock := by
  induction rest generalizing closed page group with
  | nil =>
    refine ⟨_, rfl, rfl, ?_⟩
    rw [close_opened _ _ _ whole]
    simp [relocRuns, Runs.keyRuns, runBlock]
  | cons e rest ih =>
    obtain ⟨knownHere, knownRest⟩ := List.forall_mem_cons.mp known
    rw [List.foldlM_cons, write_opened _ _ _ _ knownHere whole]
    -- an entry of the page goes into the open block; another closes it and opens the next
    by_cases same : e.page = page
    · have grown : payload group ++ e.bytes = payload (group ++ [e]) := by simp [payload]
      obtain ⟨b, run, header, closes⟩ := ih closed page (group ++ [e]) knownRest whole
      rw [if_pos same, grown]
      refine ⟨b, run, header, ?_⟩
      rw [closes, relocRuns, relocRuns, Runs.keyRuns, if_pos same]
    · have first : e.bytes = payload [e] := by simp [payload]
      have wholeNext : 4 ∣ (closed ++ relocBlock page (payload group)).length := by
        rw [List.length_append]
        exact Nat.dvd_add whole (dvd_length_relocBlock _ _)
      obtain ⟨b, run, header, closes⟩ :=
        ih (closed ++ relocBlock page (payload group)) e.page [e] knownRest wholeNext
      rw [if_neg same, first]
      refine ⟨b, run, header, ?_⟩
      rw [closes, relocRuns, relocRuns, Runs.keyRuns, if_neg same, List.flatMap_cons,
        List.append_assoc]
      rfl

private theorem countEntry_same (n : Nat) (e : Arm64XDynamicRelocEntry) (page : Nat)
    (same : e.page = page) : countEntry (n, page) e = (n + e.getSize, page) := by
  simp [countEntry, same]

private theorem countEntry_next (n : Nat) (e : Arm64XDynamicRelocEntry) (page : Nat)
    (differs : ¬ e.page = page) :
    countEntry (n, page) e = (alignTo n 4 + 8 + e.getSize, e.page) := by
  simp [countEntry, differs]

/-- The loop of `finalize` breaks at the same pages. -/
theorem foldl_countEntry (n page : Nat) (group rest : List Arm64XDynamicRelocEntry)
    (known : ∀ e ∈ rest, e.SizeKnown) (whole : 4 ∣ n) :
    alignTo (rest.foldl countEntry (n + (8 + (payload group).length), page)).1 4 =
      n + ((relocRuns page group rest).flatMap runBlock).length := by
  induction rest generalizing n page group with
  | nil =>
    simp [relocRuns, Runs.keyRuns, runBlock, length_relocBlock, alignTo_four_add _ _ whole]
  | cons e rest ih =>
    obtain ⟨knownHere, knownRest⟩ := List.forall_mem_cons.mp known
    have size := (e.writeTo_of_sizeKnown knownHere).2
    rw [List.foldl_cons]
    -- the count follows the writer: a new page rounds up and adds a header
    by_cases same : e.page = page
    · have grown : n + (8 + (payload group).length) + e.getSize =
          n + (8 + (payload (group ++ [e])).length) := by
        simp [payload, size]
        omega
      rw [countEntry_same _ _ _ same, grown, ih _ _ _ knownRest whole, relocRuns, relocRuns,
        Runs.keyRuns, if_pos same]
    · have first : alignTo (n + (8 + (payload group).length)) 4 + 8 + e.getSize =
          n + (runBlock (page, group)).length + (8 + (payload [e]).length) := by
        rw [alignTo_four_add _ _ whole, runBlock, length_relocBlock]
        simp [payload, size]
        omega
      have wholeNext : 4 ∣ n + (runBlock (page, group)).length :=
        Nat.dvd_add whole (dvd_length_relocBlock _ _)
      rw [countEntry_next _ _ _ same, first, ih _ _ _ knownRest wholeNext, relocRuns, relocRuns,
        Runs.keyRuns, if_neg same, List.flatMap_cons, List.length_append, Nat.add_assoc]

/-- The whole table: two headers and one block for each run. -/
theorem writeTo_table (e : Arm64XDynamicRelocEntry) (rest : List Arm64XDynamicRelocEntry)
    (size : Nat) (known : ∀ x ∈ e :: rest, x.SizeKnown) :
    (DynamicRelocsChunk.mk (e :: rest) size).writeTo =
      let blocks := (relocRuns e.page [e] rest).flatMap runBlock
      some ((le32 1 ++ le32 (12 + blocks.length)) ++ (le64 6 ++ le32 blocks.length) ++ blocks) := by
  obtain ⟨knownHere, knownRest⟩ := List.forall_mem_cons.mp known
  have first : BlockWriter.write ⟨[], none⟩ e = some (opened [] e.page (payload [e])) := by
    simp only [BlockWriter.write]
    rw [(e.writeTo_of_sizeKnown knownHere).1, if_pos (by simp)]
    simp [opened, payload, BlockWriter.close, padTo4, alignTo]
  obtain ⟨b, run, header, closes⟩ := foldlM_write [] e.page [e] rest knownRest (by simp)
  rw [DynamicRelocsChunk.writeTo]
  dsimp only
  rw [List.foldlM_cons, first]
  change (rest.foldlM BlockWriter.write (opened [] e.page (payload [e]))).bind _ = _
  rw [run, Option.bind_some, closes, List.nil_append]
  obtain ⟨place, opens⟩ := Option.isSome_iff_exists.mp header
  rw [opens]

/-! ### Reading blocks back -/

/-- An entry of a page that reads back as it was. -/
structure ReadsBack (page : Nat) (e : Arm64XDynamicRelocEntry) : Prop where
  known : e.SizeKnown
  encodable : e.Encodable
  own : e.page = page

/-- Padding of a block. -/
def IsPad (pad : Bytes) : Prop := pad = [] ∨ pad = [0, 0]

private theorem payload_cons (e : Arm64XDynamicRelocEntry) (es : List Arm64XDynamicRelocEntry) :
    payload (e :: es) = e.bytes ++ payload es := List.flatMap_cons

/-- One step of the reader. -/
theorem decodeFixups_cons (page fuel : Nat) (first : Bool) (e : Arm64XDynamicRelocEntry)
    (rest : Bytes) (fine : ReadsBack page e) (apart : first = true ∨ ¬ e.LikePadding) :
    decodeFixups page (fuel + 1) first (e.bytes ++ rest) =
      (decodeFixups page fuel false rest).map (e.fixup :: ·) := by
  have long := e.two_le_length fine.known
  have notEmpty : e.bytes ++ rest ≠ [] := by
    intro empty
    rw [(List.append_eq_nil_iff.mp empty).1] at long
    exact absurd long (by decide)
  -- two zero bytes at the end would be read as padding, unless they come first
  have notPad : ¬ (first = false ∧ e.bytes ++ rest = [0, 0]) := by
    rintro ⟨later, zeros⟩
    have total := congrArg List.length zeros
    rw [List.length_append] at total
    have none_left : rest = [] := List.eq_nil_of_length_eq_zero (by simp at total; omega)
    rw [none_left, List.append_nil] at zeros
    rcases apart with isFirst | unlike
    · rw [isFirst] at later
      cases later
    · exact unlike (likePadding_of_zero e fine.known fine.encodable zeros)
  have decoded := decodeFixup_bytes e fine.known fine.encodable rest
  rw [fine.own] at decoded
  rw [decodeFixups, if_neg notEmpty, if_neg notPad, decoded]
  rfl

private theorem decodeFixups_behind (page fuel : Nat) (es : List Arm64XDynamicRelocEntry)
    (pad : Bytes) (fine : ∀ e ∈ es, ReadsBack page e) (apart : ∀ e ∈ es, ¬ e.LikePadding)
    (isPad : IsPad pad) (enough : (payload es ++ pad).length ≤ fuel) :
    decodeFixups page fuel false (payload es ++ pad) =
      some (es.map Arm64XDynamicRelocEntry.fixup) := by
  induction es generalizing fuel with
  | nil =>
    rcases isPad with rfl | rfl
    · cases fuel <;> rfl
    -- the padding itself takes a step, for which the fuel has room
    · cases fuel with
      | zero => exact absurd enough (by decide)
      | succ fuel => rfl
  | cons e es ih =>
    obtain ⟨fineHere, fineRest⟩ := List.forall_mem_cons.mp fine
    obtain ⟨apartHere, apartRest⟩ := List.forall_mem_cons.mp apart
    have long := e.two_le_length fineHere.known
    rw [payload_cons, List.append_assoc] at enough ⊢
    rw [List.length_append] at enough
    obtain ⟨fuel, rfl⟩ : ∃ n, fuel = n + 1 := ⟨fuel - 1, by omega⟩
    rw [decodeFixups_cons _ _ _ _ _ fineHere (Or.inr apartHere),
      ih fuel fineRest apartRest (by omega)]
    rfl

/-- A run whose entries read back: only its first one may look like padding. -/
structure RunReadsBack (run : Nat × List Arm64XDynamicRelocEntry) : Prop where
  some_entry : run.2 ≠ []
  fine : ∀ e ∈ run.2, ReadsBack run.1 e
  apart : ∀ e ∈ run.2.tail, ¬ e.LikePadding

private theorem decodeFixups_run (run : Nat × List Arm64XDynamicRelocEntry) (fuel : Nat)
    (pad : Bytes) (fine : RunReadsBack run) (isPad : IsPad pad)
    (enough : (payload run.2 ++ pad).length ≤ fuel) :
    decodeFixups run.1 fuel true (payload run.2 ++ pad) =
      some (run.2.map Arm64XDynamicRelocEntry.fixup) := by
  obtain ⟨page, entries⟩ := run
  cases entries with
  | nil => exact absurd rfl fine.some_entry
  | cons e es =>
    obtain ⟨fineHere, fineRest⟩ := List.forall_mem_cons.mp fine.fine
    have long := e.two_le_length fineHere.known
    rw [payload_cons, List.append_assoc] at enough ⊢
    rw [List.length_append] at enough
    obtain ⟨fuel, rfl⟩ : ∃ n, fuel = n + 1 := ⟨fuel - 1, by omega⟩
    rw [decodeFixups_cons _ _ _ _ _ fineHere (Or.inl rfl),
      decodeFixups_behind page fuel es pad fineRest fine.apart isPad (by omega)]
    rfl

private theorem even_length_payload (es : List Arm64XDynamicRelocEntry)
    (known : ∀ e ∈ es, e.SizeKnown) :
    2 ∣ (payload es).length := by
  induction es with
  | nil => exact Nat.dvd_zero 2
  | cons e es ih =>
    obtain ⟨knownHere, knownRest⟩ := List.forall_mem_cons.mp known
    have here : 2 ∣ e.bytes.length := by
      rw [(e.writeTo_of_sizeKnown knownHere).2, Arm64XDynamicRelocEntry.getSize]
      cases type : e.type with
      | zerofill => exact Nat.dvd_refl 2
      | value =>
        have size := knownHere type
        dsimp only
        omega
      | delta => exact ⟨2, rfl⟩
    rw [payload_cons, List.length_append]
    exact Nat.dvd_add here (ih knownRest)

/-- Since entries take whole halfwords, a block ends in at most one halfword of padding. -/
theorem isPad_block (n : Nat) (even : 2 ∣ n) :
    IsPad (List.replicate (alignTo (8 + n) 4 - (8 + n)) 0) := by
  have two : alignTo (8 + n) 4 - (8 + n) = 0 ∨ alignTo (8 + n) 4 - (8 + n) = 2 := by
    simp only [alignTo]
    omega
  rcases two with none_needed | halfword
  · rw [none_needed]
    exact Or.inl rfl
  · rw [halfword]
    exact Or.inr rfl

private theorem u32At_runBlock (run : Nat × List Arm64XDynamicRelocEntry) (rest : Bytes)
    (small : (runBlock run).length < 2 ^ 32) :
    Bytes.u32At (runBlock run ++ rest) 0 = uint32 run.1 ∧
      Bytes.u32At (runBlock run ++ rest) 4 = (runBlock run).length := by
  have length : (runBlock run).length = alignTo (8 + (payload run.2).length) 4 :=
    length_relocBlock _ _
  have size : uint32 (alignTo (8 + (payload run.2).length) 4) = (runBlock run).length := by
    rw [← length]
    exact uint32_of_le _ (by unfold uint32Max; omega)
  constructor
  · rw [runBlock, relocBlock, List.append_assoc, u32At_le32]
  · rw [← size, runBlock, relocBlock]
    simp only [List.append_assoc]
    rw [u32At_le32_append _ _ 0, u32At_le32]

private theorem slice_runBlock (run : Nat × List Arm64XDynamicRelocEntry) (rest : Bytes) :
    (runBlock run ++ rest).slice 8 ((runBlock run).length - 8) =
      payload run.2 ++ List.replicate
        (alignTo (8 + (payload run.2).length) 4 - (8 + (payload run.2).length)) 0 := by
  have length : (runBlock run).length = alignTo (8 + (payload run.2).length) 4 :=
    length_relocBlock _ _
  have room := le_alignTo (8 + (payload run.2).length) 4 (by omega)
  have fits : (runBlock run).length - 8 = ((runBlock run).drop 8).length := List.length_drop.symm
  rw [Bytes.slice, List.drop_append_of_le_length (by omega), fits, List.take_left' rfl]
  rfl

private theorem two_le_length_payload (es : List Arm64XDynamicRelocEntry)
    (e : Arm64XDynamicRelocEntry) (member : e ∈ es) (known : e.SizeKnown) :
    2 ≤ (payload es).length := by
  obtain ⟨before, behind, split⟩ := List.append_of_mem member
  have long := e.two_le_length known
  rw [split, payload, List.flatMap_append, List.flatMap_cons]
  simp only [List.length_append]
  omega

private theorem decodeFixupBlocks_runs (runs : List (Nat × List Arm64XDynamicRelocEntry))
    (fuel : Nat) (fine : ∀ run ∈ runs, RunReadsBack run)
    (small : (runs.flatMap runBlock).length < 2 ^ 32)
    (enough : (runs.flatMap runBlock).length ≤ fuel) :
    decodeFixupBlocks fuel (runs.flatMap runBlock) =
      some (runs.map (fun run => (run.1, run.2.map Arm64XDynamicRelocEntry.fixup))) := by
  induction runs generalizing fuel with
  | nil => cases fuel <;> rfl
  | cons run runs ih =>
    obtain ⟨fineHere, fineRest⟩ := List.forall_mem_cons.mp fine
    obtain ⟨e, entry⟩ := List.exists_mem_of_ne_nil _ fineHere.some_entry
    rw [List.flatMap_cons] at small enough ⊢
    rw [List.length_append] at small enough
    -- A block has its own length in its header and is padded to four bytes,
    have length : (runBlock run).length = alignTo (8 + (payload run.2).length) 4 :=
      length_relocBlock _ _
    have room := le_alignTo (8 + (payload run.2).length) 4 (by omega)
    have someBytes := two_le_length_payload run.2 e entry (fineHere.fine e entry).known
    obtain ⟨fuel, rfl⟩ : ∃ n, fuel = n + 1 := ⟨fuel - 1, by omega⟩
    obtain ⟨pageWord, sizeWord⟩ :=
      u32At_runBlock run (runs.flatMap runBlock) (by omega)
    have page : uint32 run.1 = run.1 := by
      rw [← (fineHere.fine e entry).own, Arm64XDynamicRelocEntry.page]
      unfold uint32
      exact Nat.mod_mod _ _
    have pad := isPad_block (payload run.2).length
      (even_length_payload run.2 (fun x member => (fineHere.fine x member).known))
    -- so the decoder accepts it, and goes on right behind it.
    have wellFormed : ¬ ((runBlock run ++ runs.flatMap runBlock).length < 8 ∨
        (runBlock run).length ≤ 8 ∨
        (runBlock run ++ runs.flatMap runBlock).length < (runBlock run).length ∨
        ¬ 4 ∣ (runBlock run).length) := by
      have whole := dvd_length_relocBlock run.1 (payload run.2)
      rw [List.length_append]
      rintro (short | empty | over_end | crooked)
      · omega
      · omega
      · omega
      · exact crooked whole
    have notEmpty : runBlock run ++ runs.flatMap runBlock ≠ [] := by
      intro empty
      have lengthZero := congrArg List.length empty
      rw [List.length_append, List.length_nil] at lengthZero
      omega
    rw [decodeFixupBlocks, pageWord, sizeWord, page, if_neg notEmpty, if_neg wellFormed,
      slice_runBlock,
      decodeFixups_run run _ _ fineHere pad (by
        rw [List.length_append, List.length_replicate]
        omega),
      List.drop_left' rfl, Option.bind_some, ih fuel fineRest (by omega) (by omega)]
    rfl

/-! ### The table -/

private theorem page_of_encodable (e : Arm64XDynamicRelocEntry) (encodable : e.Encodable) :
    e.page = e.offset.get / 4096 * 4096 := by
  have inImage := encodable.1
  exact uint32_of_le _ (by unfold uint32Max; omega)

/-- How an entry stands to a later one of the sorted list. -/
def Before (a b : Arm64XDynamicRelocEntry) : Prop :=
  a.offset.get ≤ b.offset.get ∧ (a.offset.get = b.offset.get → ¬ a.LikePadding ∧ ¬ b.LikePadding)

private theorem relocRuns_readBack (e : Arm64XDynamicRelocEntry)
    (rest : List Arm64XDynamicRelocEntry) (known : ∀ x ∈ e :: rest, x.SizeKnown)
    (encodable : ∀ x ∈ e :: rest, x.Encodable) (before : (e :: rest).Pairwise Before) :
    ∀ run ∈ relocRuns e.page [e] rest, RunReadsBack run := by
  have whole := Runs.keyRuns_flatMap Arm64XDynamicRelocEntry.page e.page [e] rest
  have pairs := before
  rw [show e :: rest = [e] ++ rest from rfl, ← whole, List.pairwise_flatMap] at pairs
  intro run member
  have inside : ∀ x ∈ run.2, x ∈ e :: rest := by
    intro x inRun
    rw [show e :: rest = [e] ++ rest from rfl, ← whole]
    exact List.mem_flatMap.mpr ⟨run, member, inRun⟩
  obtain ⟨some_entry, own⟩ := Runs.keyRuns_key Arm64XDynamicRelocEntry.page e.page [e] rest
    (by simp) (by simp) run member
  refine ⟨some_entry, fun x inRun => ⟨known x (inside x inRun), encodable x (inside x inRun),
    own x inRun⟩, ?_⟩
  -- only a first entry may look like padding, and the order leaves no second at its place
  intro y inTail padding
  have ordered := pairs.1 run member
  cases entries : run.2 with
  | nil => exact some_entry entries
  | cons x xs =>
    rw [entries] at inTail ordered own inside
    have inXs : y ∈ xs := inTail
    obtain ⟨le, apart⟩ := (List.pairwise_cons.mp ordered).1 y inXs
    have pageX := page_of_encodable x (encodable x (inside x List.mem_cons_self))
    have pageY := page_of_encodable y (encodable y (inside y (List.mem_cons_of_mem _ inXs)))
    have samePage : x.page = y.page := by
      rw [own x List.mem_cons_self, own y (List.mem_cons_of_mem _ inXs)]
    have start := padding.2.2
    exact (apart (by omega)).2 padding

private theorem pairwise_before (entries : List Arm64XDynamicRelocEntry)
    (apart : PaddingApart entries) :
    (sortByOffset entries).Pairwise Before := by
  have sorted : (sortByOffset entries).Pairwise (fun a b => a.offset.get ≤ b.offset.get) :=
    List.pairwise_insertionSort (fun a b => a.offset.get ≤ b.offset.get) entries
  have symmetric : PaddingApart (sortByOffset entries) :=
    apart.perm (List.perm_insertionSort _ entries).symm (fun both same => (both same.symm).symm)
  exact sorted.imp₂ (fun _ _ le unlike => ⟨le, unlike⟩) symmetric

private theorem groupedByPage_runs (entries : List Arm64XDynamicRelocEntry)
    (e : Arm64XDynamicRelocEntry) (rest : List Arm64XDynamicRelocEntry)
    (sortedIs : sortByOffset entries = e :: rest) (encodable : ∀ x ∈ e :: rest, x.Encodable) :
    GroupedByPage entries ((relocRuns e.page [e] rest).map
      (fun run => (run.1, run.2.map Arm64XDynamicRelocEntry.fixup))) := by
  -- Cutting into runs loses nothing and changes no order.
  have whole : (relocRuns e.page [e] rest).flatMap Prod.snd = e :: rest :=
    Runs.keyRuns_flatMap Arm64XDynamicRelocEntry.page e.page [e] rest
  have flat : ((relocRuns e.page [e] rest).map
      (fun run => (run.1, run.2.map Arm64XDynamicRelocEntry.fixup))).flatMap Prod.snd =
      (e :: rest).map Arm64XDynamicRelocEntry.fixup := by
    rw [← whole, List.map_flatMap, List.flatMap_map]
  have sorted : (e :: rest).Pairwise (fun a b => a.offset.get ≤ b.offset.get) := by
    rw [← sortedIs]
    exact List.pairwise_insertionSort (fun a b : Arm64XDynamicRelocEntry =>
      a.offset.get ≤ b.offset.get) entries
  constructor
  · rw [flat, ← sortedIs]
    exact (List.perm_insertionSort _ entries).map _
  · rw [flat, List.pairwise_map]
    exact sorted
  · intro group member
    obtain ⟨run, inRuns, rfl⟩ := List.mem_map.mp member
    obtain ⟨some_entry, own⟩ := Runs.keyRuns_key Arm64XDynamicRelocEntry.page e.page [e] rest
      (by simp) (by simp) run inRuns
    refine ⟨by simpa using some_entry, ?_⟩
    intro fixup inGroup
    obtain ⟨x, inRun, rfl⟩ := List.mem_map.mp inGroup
    have inside : x ∈ e :: rest := by
      rw [← whole]
      exact List.mem_flatMap.mpr ⟨run, inRuns, inRun⟩
    rw [← own x inRun, page_of_encodable x (encodable x inside)]
    rfl
  · rw [List.map_map]
    obtain ⟨first, later⟩ := List.pairwise_cons.mp sorted
    -- Sorted by offset they are sorted by page as well, so no page comes up twice.
    have pages : (e :: rest).Pairwise (fun a b => a.page ≤ b.page) := by
      refine sorted.imp_of_mem ?_
      intro a b inA inB le
      rw [page_of_encodable a (encodable a inA), page_of_encodable b (encodable b inB)]
      omega
    obtain ⟨firstPage, laterPages⟩ := List.pairwise_cons.mp pages
    exact (Runs.keyRuns_ascending Arm64XDynamicRelocEntry.page e.page [e] rest laterPages
      firstPage).1

private theorem size_finalize (entries : List Arm64XDynamicRelocEntry) (e : Arm64XDynamicRelocEntry)
    (rest : List Arm64XDynamicRelocEntry) (sortedIs : sortByOffset entries = e :: rest)
    (known : ∀ x ∈ e :: rest, x.SizeKnown) :
    (finalize entries).size =
      dynamicRelocHeaders + ((relocRuns e.page [e] rest).flatMap runBlock).length := by
  obtain ⟨knownHere, knownRest⟩ := List.forall_mem_cons.mp known
  -- no page is 0xfff, so the first entry opens a block
  have opens : ¬ e.page = 0xfff := by
    unfold Arm64XDynamicRelocEntry.page uint32
    omega
  have one : (payload [e]).length = e.getSize := by
    rw [← (e.writeTo_of_sizeKnown knownHere).2]
    simp [payload]
  have start : alignTo dynamicRelocHeaders 4 + 8 + e.getSize =
      dynamicRelocHeaders + (8 + (payload [e]).length) := by
    rw [one, show alignTo dynamicRelocHeaders 4 = dynamicRelocHeaders by decide]
    omega
  rw [finalize]
  dsimp only
  rw [sortedIs, List.foldl_cons, countEntry_next _ _ _ opens, start,
    foldl_countEntry dynamicRelocHeaders e.page [e] rest knownRest (by decide)]

private theorem decodeDynamicRelocs_table (blocks : Bytes) (small : 12 + blocks.length < 2 ^ 32) :
    decodeDynamicRelocs
        ((le32 1 ++ le32 (12 + blocks.length)) ++ (le64 6 ++ le32 blocks.length) ++ blocks) =
      decodeFixupBlocks (dynamicRelocHeaders + blocks.length) blocks := by
  have length : ((le32 1 ++ le32 (12 + blocks.length)) ++ (le64 6 ++ le32 blocks.length) ++
      blocks).length = dynamicRelocHeaders + blocks.length := by
    simp only [List.length_append, length_le32, length_le64, dynamicRelocHeaders]
  have parts : (le32 1 ++ le32 (12 + blocks.length)) ++ (le64 6 ++ le32 blocks.length) ++ blocks =
      le32 1 ++ (le32 (12 + blocks.length) ++ (le64 6 ++ (le32 blocks.length ++ blocks))) := by
    simp only [List.append_assoc]
  have sizeWord : uint32 (12 + blocks.length) = 12 + blocks.length :=
    uint32_of_le _ (by unfold uint32Max; omega)
  have relocWord : uint32 blocks.length = blocks.length :=
    uint32_of_le _ (by unfold uint32Max; omega)
  simp only [decodeDynamicRelocs]
  rw [length, parts]
  -- the words of the two headers, which the decoder checks against each other
  have version : Bytes.u32At (le32 1 ++ (le32 (12 + blocks.length) ++
      (le64 6 ++ (le32 blocks.length ++ blocks)))) 0 = 1 := u32At_le32 _ _
  have tableSize : Bytes.u32At (le32 1 ++ (le32 (12 + blocks.length) ++
      (le64 6 ++ (le32 blocks.length ++ blocks)))) 4 = 12 + blocks.length := by
    rw [← sizeWord, u32At_le32_append _ _ 0, sizeWord, u32At_le32, sizeWord]
  have symbol : Bytes.u64At (le32 1 ++ (le32 (12 + blocks.length) ++
      (le64 6 ++ (le32 blocks.length ++ blocks)))) 8 = 6 := rfl
  have relocSize : Bytes.u32At (le32 1 ++ (le32 (12 + blocks.length) ++
      (le64 6 ++ (le32 blocks.length ++ blocks)))) 16 = blocks.length := by
    have read := u32At_le32 blocks.length blocks
    rw [relocWord] at read
    exact read
  rw [version, tableSize, symbol, relocSize,
    if_pos ⟨rfl, by unfold dynamicRelocHeaders; omega, rfl, Nat.add_comm _ _⟩]
  rfl

/-- The table has the size that was announced, consists of whole blocks, and reads back. -/
theorem dynamicRelocs_table (entries : List Arm64XDynamicRelocEntry) (some_entry : entries ≠ [])
    (known : ∀ e ∈ entries, e.SizeKnown) :
    ∃ bytes, (finalize entries).writeTo = some bytes ∧ bytes.length = (finalize entries).size ∧
      ((finalize entries).size < 2 ^ 32 →
        (∃ (headers : Bytes) (blocks : List Bytes), bytes = headers ++ blocks.flatten ∧
          headers.length = dynamicRelocHeaders ∧
          ∀ block ∈ blocks, 4 ∣ block.length ∧ Bytes.u32At block 4 = block.length) ∧
        ((∀ e ∈ entries, e.Encodable) → PaddingApart entries →
          ∃ groups, decodeDynamicRelocs bytes = some groups ∧ GroupedByPage entries groups)) := by
  have perm : (sortByOffset entries).Perm entries := List.perm_insertionSort _ entries
  -- The writer starts from the first entry after sorting, which exists as there is any.
  obtain ⟨e, rest, sortedIs⟩ : ∃ e rest, sortByOffset entries = e :: rest := by
    cases sorted : sortByOffset entries with
    | nil =>
      rw [sorted] at perm
      exact absurd perm.nil_eq.symm some_entry
    | cons e rest => exact ⟨e, rest, rfl⟩
  have members : ∀ x, x ∈ e :: rest ↔ x ∈ entries := by
    intro x
    rw [← sortedIs]
    exact perm.mem_iff
  have knownSorted : ∀ x ∈ e :: rest, x.SizeKnown := fun x member => known x ((members x).mp member)
  have written := writeTo_table e rest (finalize entries).size knownSorted
  -- `finalize` has summed up what `writeTo` then writes.
  have announced := size_finalize entries e rest sortedIs knownSorted
  have chunk : finalize entries = ⟨e :: rest, (finalize entries).size⟩ := by
    rw [← sortedIs]
    rfl
  rw [← chunk] at written
  have length : ∀ blocks : Bytes, ((le32 1 ++ le32 (12 + blocks.length)) ++
      (le64 6 ++ le32 blocks.length) ++ blocks).length = dynamicRelocHeaders + blocks.length := by
    intro blocks
    simp only [List.length_append, length_le32, length_le64, dynamicRelocHeaders]
  refine ⟨_, written, by rw [length, announced], ?_⟩
  intro small
  rw [announced, dynamicRelocHeaders] at small
  constructor
  -- one block for each run of entries on the same page
  · refine ⟨_, (relocRuns e.page [e] rest).map runBlock, by rw [List.flatMap_def], rfl, ?_⟩
    intro block member
    obtain ⟨run, inRuns, rfl⟩ := List.mem_map.mp member
    have fits : (runBlock run).length ≤ ((relocRuns e.page [e] rest).flatMap runBlock).length := by
      rw [List.flatMap_def]
      exact (List.sublist_flatten_of_mem (List.mem_map_of_mem inRuns)).length_le
    have words := (u32At_runBlock run [] (by omega)).2
    rw [List.append_nil] at words
    exact ⟨dvd_length_relocBlock _ _, words⟩
  -- Sorted entries on one page come in order of their offsets, so each run reads back.
  · intro encodable apart
    have encodableSorted : ∀ x ∈ e :: rest, x.Encodable := fun x member =>
      encodable x ((members x).mp member)
    have before : (e :: rest).Pairwise Before := by
      rw [← sortedIs]
      exact pairwise_before entries apart
    refine ⟨_, ?_, groupedByPage_runs entries e rest sortedIs encodableSorted⟩
    rw [decodeDynamicRelocs_table _ (by omega)]
    exact decodeFixupBlocks_runs _ _ (relocRuns_readBack e rest knownSorted encodableSorted before)
      (by omega) (by omega)

/-! ### A table of all kinds -/

def absolute (value : Nat) : Arm64XRelocVal := ⟨none, none, value⟩

/-- A machine field, a cleared export directory, and a delta on the next page. -/
def hybridEntries : List Arm64XDynamicRelocEntry :=
  [⟨.delta, 0, absolute 0x1010, absolute (2 ^ 64 - 24)⟩,
    ⟨.value, 2, absolute 0x84, absolute 0x8664⟩, ⟨.zerofill, 8, absolute 0x108, absolute 0⟩]

theorem hybridEntries_table :
    ∃ bytes, (finalize hybridEntries).writeTo = some bytes ∧
      bytes.length = (finalize hybridEntries).size ∧
      ∃ groups, decodeDynamicRelocs bytes = some groups ∧ GroupedByPage hybridEntries groups := by
  obtain ⟨bytes, written, length, rest⟩ := dynamicRelocs_table hybridEntries (by decide)
    (by decide)
  exact ⟨bytes, written, length, (rest (by decide)).2 (by decide) (by decide)⟩

/-- What the format has no room for, or what is read as padding. -/
def lostEntries : List (List Arm64XDynamicRelocEntry) :=
  -- without entries there is no block to finish
  [[],
    -- a delta that is no multiple of 4, and one that is out of range
    [⟨.delta, 0, absolute 0x1010, absolute 6⟩],
    [⟨.delta, 0, absolute 0x1010, absolute (2 ^ 19)⟩],
    -- a value wider than its field, and an offset above 4 GiB
    [⟨.value, 2, absolute 0x1010, absolute 0x10001⟩],
    [⟨.value, 2, absolute (2 ^ 32 + 0x1010), absolute 1⟩],
    -- the second one is written as a zero halfword
    [⟨.zerofill, 2, absolute 0x1000, absolute 0⟩, ⟨.zerofill, 1, absolute 0x1000, absolute 0⟩]]

theorem dynamicRelocs_lost :
    (finalize []).writeTo = none ∧
      ∀ entries ∈ lostEntries, ¬ ∃ bytes groups, (finalize entries).writeTo = some bytes ∧
        decodeDynamicRelocs bytes = some groups ∧ GroupedByPage entries groups := by
  refine ⟨by decide, ?_⟩
  have lost : ∀ entries ∈ lostEntries,
      ¬ ∃ groups ∈ (finalize entries).writeTo.bind decodeDynamicRelocs,
        (groups.flatMap Prod.snd).Perm (entries.map Arm64XDynamicRelocEntry.fixup) := by decide
  rintro entries member ⟨bytes, groups, written, decoded, grouped⟩
  refine lost entries member ⟨groups, ?_, grouped.all⟩
  rw [written, Option.bind_some, decoded]
  rfl

end LlvmLd.Writer
