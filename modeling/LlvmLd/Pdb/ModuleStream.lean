import LlvmLd.Pdb.StringReferences

/-!
# Module streams

`DbiModuleDescriptorBuilder::commitSymbolStream` with the subsections that it commits, and
`ModuleDebugStreamRef::reload`, which reads such a stream.
-/

namespace LlvmLd.Pdb

open Codeview Memory Outcome Writer
open Gsi (StreamWriter streamTooShort)

/-! ### Inlinee lines -/

/-- `VarStreamArrayExtractor<InlineeSourceLine>`: the length of the line that the stream begins with. -/
def inlineeLineLength (hasExtraFiles : Bool) (stream : Bytes) : Option Nat :=
  if stream.length < 12 then none
  else if ¬ hasExtraFiles then some 12
  else if stream.length < 16 then none
  else
    let extraFileCount := stream.u32At 12
    if uint32Max / 4 < extraFileCount then none
    else if stream.length < 16 + 4 * extraFileCount then none
    else some (16 + 4 * extraFileCount)

/-- The item index of the line at `pos`; a bad one stays. -/
def remapInlinee (source : TpiSource) (bytes : Bytes) (pos : Nat) : Bytes :=
  match source.remapTypeIndex .indexRef (bytes.u32At pos) with
  | some ti => putBytes bytes pos (le32 ti)
  | none => bytes

/-- The loop over the lines from `pos` on. A line takes twelve bytes at least. -/
def remapInlineesFrom (source : TpiSource) (hasExtraFiles : Bool) : Nat → Nat → Bytes → Bytes
  | 0, _, bytes => bytes
  | fuel + 1, pos, bytes =>
    match inlineeLineLength hasExtraFiles (bytes.drop pos) with
    | none => bytes
    | some len => remapInlineesFrom source hasExtraFiles fuel (pos + len) (remapInlinee source bytes pos)

/-- Behind the signature, which tells whether lines have extra files. -/
def remapInlinees (source : TpiSource) (bytes : Bytes) : Except String Bytes :=
  if bytes.length < 4 then .error streamTooShort
  else .ok (remapInlineesFrom source (bytes.u32At 0 == 1) bytes.length 4 bytes)

/-! ### Subsections -/

/-- The bytes of the subsection, relocated into a vector of their own. -/
def Unrelocated.relocatedBytes (u : Unrelocated) : Bytes :=
  let d := u.debugChunk.chunk
  let (mem, _, _) := writeAndRelocateSubsection d.w d.ctx d.sections d.c d.machine u.subsec.vaBegin
    (u.subsec.vaBegin + u.subsec.length) u.relocs (0 : Nat) fun _ => 0
  readBytes mem (0 : Nat) u.subsec.length

namespace ModuleSubsection

def kind : ModuleSubsection → Nat
  | .unrelocated u => u.subsec.kind
  | .checksums _ => 0xF4

/-- `calculateSerializedSize`. -/
def serializedSize : ModuleSubsection → Nat
  | .unrelocated u => u.subsec.length
  | .checksums new => new.serializedSize

/-- What `commit` writes. -/
def bytes (source : TpiSource) : ModuleSubsection → Except String Bytes
  | .unrelocated u =>
    if SubsectionKind.ofCode u.subsec.kind = .inlineeLines then remapInlinees source u.relocatedBytes
    else .ok u.relocatedBytes
  | .checksums new => .ok new.commit

/-- `DebugSubsectionRecordBuilder::calculateSerializedLength`. -/
def serializedLength (s : ModuleSubsection) : Nat := uint32 (8 + alignTo s.serializedSize 4)

end ModuleSubsection

def padToAlignment (align : Nat) (w : StreamWriter) : Except String StreamWriter :=
  w.writeBytes (List.replicate (alignTo w.written.length align - w.written.length) 0)

/-- `DebugSubsectionRecordBuilder::commit`. -/
def commitSubsection (source : TpiSource) (w : StreamWriter) (s : ModuleSubsection) :
    Except String StreamWriter := do
  let w ← w.writeBytes (le32 s.kind ++ le32 (alignTo s.serializedSize 4))
  let bytes ← s.bytes source
  let w ← w.writeBytes bytes
  padToAlignment 4 w

/-! ### The stream -/

namespace ModuleDescriptor

variable (mod : ModuleDescriptor)

def calculateC13DebugInfoSize : Nat :=
  mod.c13Builders.foldl (fun result s => uint32 (result + s.serializedLength)) 0

/-- `getNextSymbolOffset`, which is `SymBytes` in the header of the module. -/
def symBytes : Nat := uint32 (mod.symbolByteSize + 4)

/-- `calculateDiSymbolStreamSize`. -/
def diSymbolStreamSize : Nat :=
  uint32 (4 + alignTo mod.symbolByteSize 4 + mod.calculateC13DebugInfoSize + 4)

/-- `finalizeMsfLayout`: a module without any bytes has no stream. -/
def hasStream : Bool := mod.calculateC13DebugInfoSize ≠ 0 || mod.symbolByteSize ≠ 0

end ModuleDescriptor

def DebugSection.withSource (source : TpiSource) (sec : DebugSection) : DebugSection :=
  { sec with chunk := sec.chunk.withSource source }

/-- The object with the type maps that are used when it is written. -/
def SymbolFile.withSource (file : SymbolFile) (source : TpiSource) : SymbolFile :=
  { file with debugChunks := file.debugChunks.map (·.withSource source) }

def writeSymbolList (source : TpiSource) (w : StreamWriter) : SymbolList → Except String StreamWriter
  | .bulk bytes => w.writeBytes bytes
  | .unmerged file _ => writeAllModuleSymbolRecords (file.withSource source) w

/-- A word over what has been written; what lies behind will be written later. -/
def patchWord (bytes : Bytes) (offset value : Nat) : Bytes :=
  (List.range bytes.length).map fun i =>
    if offset ≤ i ∧ i < offset + 4 then (le32 value).getD (i - offset) 0 else bytes.getD i 0

def applyFixup (w : StreamWriter) (fixup : Nat × Nat) : Except String StreamWriter :=
  if w.length < fixup.2 then
    .error "Stream Error: The specified offset is invalid for the current stream."
  else if w.length < fixup.2 + 4 then .error streamTooShort
  else .ok { w with written := patchWord w.written fixup.2 fixup.1 }

def streamTooLong : String := "The stream was longer than expected."

/-- `commitSymbolStream`, with the type maps of the module's object. -/
def commitSymbolStream (source : TpiSource) (mod : ModuleDescriptor) (w : StreamWriter) :
    Except String StreamWriter := do
  let w ← w.writeBytes (le32 Input.debugSectionMagic)
  let w ← mod.symbols.foldlM (writeSymbolList source) w
  let w ← mod.stringTableFixups.foldlM applyFixup w
  let w ← mod.c13Builders.foldlM (commitSubsection source) w
  let w ← w.writeBytes (le32 0)
  if w.written.length < w.length then .error streamTooLong else .ok w

/-! ### The reader -/

/-- What a `ModuleDebugStreamRef` gives out. -/
structure ModuleDebugStream where
  symbols : Bytes
  subsections : List Input.DebugSubsection
  globalRefs : Bytes
  deriving DecidableEq, Repr

/-- `reload` of a module whose header has these sizes, and no C11 line info. -/
def reloadModuleStream (symBytes c13Bytes : Nat) (stream : Bytes) :
    Except String ModuleDebugStream :=
  let rest : Bytes := stream.drop (symBytes + c13Bytes)
  if stream.length < 4 ∨ stream.length < symBytes + c13Bytes then .error streamTooShort
  else if rest.length < 4 ∨ rest.length < 4 + rest.u32At 0 then .error streamTooShort
  else if 4 + rest.u32At 0 < rest.length then
    .error "The PDB file is corrupt. Unexpected bytes in module stream."
  else
    .ok { symbols := stream.take symBytes
          subsections := Input.subsectionArray (stream.slice symBytes c13Bytes)
          globalRefs := rest.slice 4 (rest.u32At 0) }

/-! ### Subsections are read back -/

/-- How a subsection of the stream stands to the one that has been committed. -/
structure Committed (source : TpiSource) (s : ModuleSubsection) (sub : Input.DebugSubsection) : Prop where
  kind : sub.kind = uint32 s.kind
  data : ∃ bytes, s.bytes source = .ok bytes ∧ sub.data = padTo4 bytes

/-- The bytes of a subsection in the stream. -/
def subsectionBytes (sub : Input.DebugSubsection) : Bytes :=
  le32 sub.kind ++ le32 sub.data.length ++ sub.data

theorem length_subsectionBytes (sub : Input.DebugSubsection) :
    (subsectionBytes sub).length = 8 + sub.data.length := by
  rw [subsectionBytes, List.length_append, List.length_append, length_le32, length_le32]

/-- A subsection whose fields have room for it. -/
structure Framed (sub : Input.DebugSubsection) : Prop where
  kind : sub.kind < 2 ^ 32
  aligned : 4 ∣ sub.data.length
  small : 8 + sub.data.length < 2 ^ 32

private theorem extractSubsection_bytes {sub : Input.DebugSubsection} (framed : Framed sub)
    (rest : Bytes) :
    Input.extractSubsection (subsectionBytes sub ++ rest) = some (8 + sub.data.length, sub) := by
  obtain ⟨kind, aligned, small⟩ := framed
  have stream : subsectionBytes sub ++ rest =
      le32 sub.kind ++ (le32 sub.data.length ++ (sub.data ++ rest)) := by
    simp only [subsectionBytes, List.append_assoc]
  have kindAt : (subsectionBytes sub ++ rest).u32At 0 = sub.kind := by
    rw [stream, u32At_le32, uint32, Nat.mod_eq_of_lt kind]
  have lengthAt : (subsectionBytes sub ++ rest).u32At 4 = sub.data.length := by
    have behind := u32At_le32_append sub.kind (le32 sub.data.length ++ (sub.data ++ rest)) 0
    rw [← stream] at behind
    rw [behind, u32At_le32, uint32, Nat.mod_eq_of_lt (by omega)]
  have dataAt : (subsectionBytes sub ++ rest).slice 8 sub.data.length = sub.data := by
    rw [Bytes.slice, stream]
    exact List.take_left
  have room : (subsectionBytes sub ++ rest).length = 8 + sub.data.length + rest.length := by
    rw [List.length_append, length_subsectionBytes]
  have read : Input.DebugSubsection.initialize (subsectionBytes sub ++ rest) = some sub := by
    rw [ Input.DebugSubsection.initialize, if_neg (by omega), lengthAt, if_neg (by omega), kindAt,
      dataAt]
  -- the data is padded already, so the next header follows it directly
  have advance : uint32 (alignTo sub.getRecordLength 4) = 8 + sub.data.length := by
    have whole : 4 ∣ 8 + sub.data.length := by omega
    have word : uint32 (8 + sub.data.length) = 8 + sub.data.length := Nat.mod_eq_of_lt small
    rw [Input.DebugSubsection.getRecordLength, word, alignTo_of_dvd _ _ (by decide) whole, word]
  rw [Input.extractSubsection, read, Option.map_some, advance]

private theorem nextSubsections_bytes {subs : List Input.DebugSubsection}
    (framed : ∀ sub ∈ subs, Framed sub) :
    Input.nextSubsections (subs.flatMap subsectionBytes) = subs := by
  induction subs with
  | nil =>
    rw [Input.nextSubsections]
    rfl
  | cons sub rest ih =>
    have here := extractSubsection_bytes (framed sub (List.mem_cons_self ..))
      (rest.flatMap subsectionBytes)
    have later := ih fun other member => framed other (List.mem_cons_of_mem _ member)
    have behind : (subsectionBytes sub ++ rest.flatMap subsectionBytes).drop (8 + sub.data.length) =
        rest.flatMap subsectionBytes := List.drop_left' (length_subsectionBytes sub)
    have advances : 0 < 8 + sub.data.length := by omega
    rw [List.flatMap_cons, Input.nextSubsections, here]
    dsimp only
    rw [behind, later, if_pos advances]
    rfl

private theorem subsectionArray_bytes {subs : List Input.DebugSubsection}
    (framed : ∀ sub ∈ subs, Framed sub) :
    Input.subsectionArray (subs.flatMap subsectionBytes) = subs := by
  cases subs with
  | nil => rfl
  | cons sub rest =>
    -- the first one is not tested for an empty advance
    have here := extractSubsection_bytes (framed sub (List.mem_cons_self ..))
      (rest.flatMap subsectionBytes)
    have later := nextSubsections_bytes fun other member => framed other (List.mem_cons_of_mem _ member)
    have behind : (subsectionBytes sub ++ rest.flatMap subsectionBytes).drop (8 + sub.data.length) =
        rest.flatMap subsectionBytes := List.drop_left' (length_subsectionBytes sub)
    rw [List.flatMap_cons, Input.subsectionArray, here]
    dsimp only
    rw [behind, later]
    rfl

/-! ### What is committed -/

private theorem length_remapInlineesFrom (source : TpiSource) (hasExtraFiles : Bool)
    (fuel pos : Nat) (bytes : Bytes) :
    (remapInlineesFrom source hasExtraFiles fuel pos bytes).length = bytes.length := by
  induction fuel generalizing pos bytes with
  | zero => rfl
  | succ fuel ih =>
    rw [remapInlineesFrom]
    split
    · rfl
    · rw [ih, remapInlinee]
      split
      · exact length_putBytes _ _ _
      · rfl

theorem length_relocatedBytes (u : Unrelocated) : u.relocatedBytes.length = u.subsec.length :=
  length_readBytes _ _ _

/-- The size of the subsection is the size of its bytes. -/
def ModuleSubsection.Sized : ModuleSubsection → Prop
  | .unrelocated _ => True
  | .checksums new => new.commit.length = new.serializedSize

theorem ModuleSubsection.Sized.length {source : TpiSource} {s : ModuleSubsection} (sized : s.Sized)
    {bytes : Bytes} (done : s.bytes source = .ok bytes) : bytes.length = s.serializedSize := by
  cases s with
  | unrelocated u =>
    rw [ModuleSubsection.bytes] at done
    split at done
    · rw [remapInlinees] at done
      split at done
      · cases done
      · cases done
        rw [length_remapInlineesFrom]
        exact length_relocatedBytes u
    · cases done
      exact length_relocatedBytes u
  | checksums new =>
    cases done
    exact sized

private theorem le32_uint32 (n : Nat) : le32 (uint32 n) = le32 n := by
  have byte : ∀ a b : Nat, a % 256 = b % 256 → UInt8.ofNat a = UInt8.ofNat b := by
    intro a b same
    apply UInt8.toNat_inj.mp
    rw [UInt8.toNat_ofNat', UInt8.toNat_ofNat']
    exact same
  simp only [le32, le16, uint32]
  rw [byte (n % 2 ^ 32) n (by omega), byte (n % 2 ^ 32 / 256) (n / 256) (by omega),
    byte (n % 2 ^ 32 / 65536) (n / 65536) (by omega),
    byte (n % 2 ^ 32 / 65536 / 256) (n / 65536 / 256) (by omega)]

theorem writeBytes_ok {w w' : StreamWriter} {bytes : Bytes} (done : w.writeBytes bytes = .ok w') :
    w'.length = w.length ∧ w'.written = w.written ++ bytes ∧ w'.written.length ≤ w.length := by
  rw [StreamWriter.writeBytes] at done
  split at done
  · cases done
  · cases done
    refine ⟨rfl, rfl, ?_⟩
    rw [List.length_append]
    omega

/-- A subsection begins and ends at a multiple of four. -/
theorem commitSubsection_ok {source : TpiSource} {w w' : StreamWriter} {s : ModuleSubsection}
    (sized : s.Sized) (aligned : 4 ∣ w.written.length) (done : commitSubsection source w s = .ok w') :
    ∃ sub, Committed source s sub ∧ sub.data.length = alignTo s.serializedSize 4 ∧
      w'.length = w.length ∧ w'.written = w.written ++ subsectionBytes sub ∧
      w'.written.length ≤ w.length := by
  rw [commitSubsection, bind_ok_iff] at done
  obtain ⟨w₁, header, done⟩ := done
  obtain ⟨bytes, found, done⟩ := bind_ok_iff.mp done
  obtain ⟨w₂, body, padded⟩ := bind_ok_iff.mp done
  obtain ⟨length₁, written₁, -⟩ := writeBytes_ok header
  obtain ⟨length₂, written₂, -⟩ := writeBytes_ok body
  obtain ⟨length₃, written₃, fits⟩ := writeBytes_ok padded
  have size := sized.length found
  have place : w₂.written.length = w.written.length + 8 + bytes.length := by
    rw [written₂, written₁]
    simp only [List.length_append, length_le32]
  -- the stream is aligned in front of the header, so the padding depends on the bytes alone
  have zeros : alignTo w₂.written.length 4 - w₂.written.length =
      alignTo bytes.length 4 - bytes.length := by
    rw [place, alignTo_four_add _ _ (by omega)]
    omega
  refine ⟨⟨uint32 s.kind, padTo4 bytes⟩, ⟨rfl, bytes, found, rfl⟩, ?_, ?_, ?_, ?_⟩
  · rw [length_padTo4, size]
  · rw [length₃, length₂, length₁]
  · rw [written₃, zeros, written₂, written₁, subsectionBytes, le32_uint32, length_padTo4, size, padTo4,
      size]
    simp only [List.append_assoc]
  · rw [← length₁, ← length₂]
    exact fits

/-- Room for the subsections without the limit of 32 bits. -/
def subsectionsSize (builders : List ModuleSubsection) : Nat :=
  (builders.map fun s => 8 + alignTo s.serializedSize 4).sum

/-- Subsections stand one behind the other. -/
theorem commitSubsections_ok {source : TpiSource} {builders : List ModuleSubsection}
    {w w' : StreamWriter} (sized : ∀ s ∈ builders, s.Sized) (aligned : 4 ∣ w.written.length)
    (done : builders.foldlM (commitSubsection source) w = .ok w') :
    ∃ subs, List.Forall₂ (Committed source) builders subs ∧
      (∀ sub ∈ subs, sub.kind < 2 ^ 32 ∧ 4 ∣ sub.data.length) ∧
      w'.length = w.length ∧ w'.written = w.written ++ subs.flatMap subsectionBytes ∧
      (subs.flatMap subsectionBytes).length = subsectionsSize builders := by
  induction builders generalizing w with
  | nil =>
    cases done
    exact ⟨[], .nil, fun _ none => absurd none List.not_mem_nil, rfl, (List.append_nil _).symm, rfl⟩
  | cons s rest ih =>
    rw [List.foldlM_cons, bind_ok_iff] at done
    obtain ⟨w₁, first, done⟩ := done
    obtain ⟨sub, committed, size, length, written, -⟩ :=
      commitSubsection_ok (sized s (List.mem_cons_self ..)) aligned first
    have whole : 4 ∣ sub.data.length := by
      rw [size]
      exact dvd_alignTo _ _
    -- a whole subsection leaves the stream aligned for the next one
    have behind : 4 ∣ w₁.written.length := by
      rw [written, List.length_append, length_subsectionBytes]
      omega
    obtain ⟨subs, all, wholes, length', written', size'⟩ :=
      ih (fun other member => sized other (List.mem_cons_of_mem _ member)) behind done
    refine ⟨sub :: subs, .cons committed all, ?_, length'.trans length, ?_, ?_⟩
    · intro other member
      rcases List.mem_cons.mp member with rfl | later
      · rw [committed.kind]
        exact ⟨Nat.mod_lt _ (Nat.two_pow_pos 32), whole⟩
      · exact wholes other later
    · rw [written', written, List.flatMap_cons, List.append_assoc]
    · rw [List.flatMap_cons, List.length_append, size', length_subsectionBytes, size, subsectionsSize,
        subsectionsSize, List.map_cons, List.sum_cons]

theorem calculateC13DebugInfoSize_eq (mod : ModuleDescriptor) :
    mod.calculateC13DebugInfoSize = uint32 (subsectionsSize mod.c13Builders) := by
  have fold : ∀ (builders : List ModuleSubsection) (n : Nat),
      builders.foldl (fun result s => uint32 (result + s.serializedLength)) (uint32 n) =
        uint32 (n + subsectionsSize builders) := by
    intro builders
    induction builders with
    | nil => exact fun n => rfl
    | cons s rest ih =>
      intro n
      have step : uint32 (uint32 n + s.serializedLength) =
          uint32 (n + (8 + alignTo s.serializedSize 4)) := by
        rw [ModuleSubsection.serializedLength, uint32, uint32, uint32, uint32, Nat.mod_add_mod,
          Nat.add_mod_mod]
      rw [List.foldl_cons, step, ih, subsectionsSize, subsectionsSize, List.map_cons, List.sum_cons,
        Nat.add_assoc]
  have whole := fold mod.c13Builders 0
  rwa [Nat.zero_add] at whole

/-! ### The symbols -/

theorem dvd_moduleSize (records : List PlacedRecord) : 4 ∣ moduleSize records := by
  have fold : ∀ l : Nat × Nat, 4 ∣ l.2 → 4 ∣ (records.foldl layoutStep l).2 := by
    induction records with
    | nil => exact fun l whole => whole
    | cons sym rest ih =>
      intro l whole
      rw [List.foldl_cons]
      apply ih
      rw [layoutStep]
      dsimp only
      split
      · exact Nat.dvd_add whole (dvd_alignTo _ _)
      · exact whole
  exact fold (0, 0) (dvd_zero 4)

theorem SymbolFile.dvd_moduleSize (file : SymbolFile) : 4 ∣ file.moduleSize := by
  apply List.dvd_sum
  intro size member
  obtain ⟨records, -, rfl⟩ := List.mem_map.mp member
  exact Pdb.dvd_moduleSize records

/-- The type maps do not matter for where symbols stand. -/
theorem symbols_withSource (source : TpiSource) (file : SymbolFile) :
    (file.withSource source).symbols = file.symbols := List.flatMap_map ..

/-- How many bytes a list of symbols makes up. -/
def SymbolList.size : SymbolList → Nat
  | .bulk bytes => bytes.length
  | .unmerged file _ => file.moduleSize

private theorem writeSymbolList_ok {source : TpiSource} {symbols : SymbolList} {w w' : StreamWriter}
    (done : writeSymbolList source w symbols = .ok w') :
    Extends w w' ∧ w'.written.length = w.written.length + symbols.size := by
  cases symbols with
  | bulk bytes => exact ⟨writeBytes_extends done, writeBytes_length done⟩
  | unmerged file length =>
    have size := writeAllModuleSymbolRecords_length done
    rw [SymbolFile.moduleSize, symbols_withSource] at size
    obtain ⟨s, walked, ended⟩ := bind_ok_iff.mp done
    cases ended
    exact ⟨sections_extend walked, size⟩

/-- What the assertions of the builder demand of a descriptor. -/
structure ModuleDescriptor.WellFormed (mod : ModuleDescriptor) : Prop where
  bulk : ∀ bytes, .bulk bytes ∈ mod.symbols → 4 ∣ bytes.length
  aligned : 4 ∣ mod.symbolByteSize
  word : mod.symbolByteSize < 2 ^ 32
  sized : ∀ s ∈ mod.c13Builders, s.Sized

private theorem writeSymbols_ok {source : TpiSource} {symbols : List SymbolList}
    {w w' : StreamWriter} (bulk : ∀ bytes, .bulk bytes ∈ symbols → 4 ∣ bytes.length)
    (aligned : 4 ∣ w.written.length) (done : symbols.foldlM (writeSymbolList source) w = .ok w') :
    Extends w w' ∧ 4 ∣ w'.written.length := by
  refine foldlM_keeps (I := fun _ w' => Extends w w' ∧ 4 ∣ w'.written.length) ?_ []
    ⟨.refl w, aligned⟩ done
  rintro _ w₁ w₂ list member ⟨before, whole⟩ here
  obtain ⟨after, size⟩ := writeSymbolList_ok here
  refine ⟨before.trans after, ?_⟩
  rw [size]
  apply Nat.dvd_add whole
  cases list with
  | bulk bytes => exact bulk bytes member
  | unmerged file length => exact file.dvd_moduleSize

/-! ### Fixups -/

def patchWords (fixups : List (Nat × Nat)) (bytes : Bytes) : Bytes :=
  fixups.foldl (fun bytes fixup => patchWord bytes fixup.2 fixup.1) bytes

theorem length_patchWords (fixups : List (Nat × Nat)) (bytes : Bytes) :
    (patchWords fixups bytes).length = bytes.length := by
  induction fixups generalizing bytes with
  | nil => rfl
  | cons fixup rest ih =>
    rw [patchWords, List.foldl_cons]
    refine (ih _).trans ?_
    rw [patchWord, List.length_map, List.length_range]

private theorem getD_patchWord (bytes : Bytes) (offset value i : Nat) :
    (patchWord bytes offset value).getD i 0 =
      if offset ≤ i ∧ i < offset + 4 ∧ i < bytes.length then (le32 value).getD (i - offset) 0
      else bytes.getD i 0 := by
  rw [List.getD_eq_getElem?_getD, patchWord, List.getElem?_map]
  by_cases inside : i < bytes.length
  · rw [List.getElem?_range inside, Option.map_some, Option.getD_some]
    simp only [inside, and_true]
  · rw [List.getElem?_eq_none (by rw [List.length_range]; omega), if_neg (by omega),
      List.getD_eq_getElem?_getD, List.getElem?_eq_none (by omega)]
    rfl

/-- Bytes outside of the words stay. -/
theorem patchWords_frame (fixups : List (Nat × Nat)) (bytes : Bytes) (i : Nat)
    (outside : ∀ fixup ∈ fixups, i < fixup.2 ∨ fixup.2 + 4 ≤ i) :
    (patchWords fixups bytes).getD i 0 = bytes.getD i 0 := by
  induction fixups generalizing bytes with
  | nil => rfl
  | cons fixup rest ih =>
    have here := outside fixup (List.mem_cons_self ..)
    have later := ih (patchWord bytes fixup.2 fixup.1)
      fun other member => outside other (List.mem_cons_of_mem _ member)
    rw [getD_patchWord, if_neg (by omega)] at later
    exact later

private theorem u32At_congr {b c : Bytes} {i : Nat}
    (same : ∀ j < 4, b.getD (i + j) 0 = c.getD (i + j) 0) :
    b.u32At i = c.u32At i := by
  have byte : ∀ j < 4, b.byteAt (i + j) = c.byteAt (i + j) := fun j below =>
    congrArg UInt8.toNat (same j below)
  have byte₀ := byte 0 (by decide)
  have byte₁ := byte 1 (by decide)
  have byte₂ := byte 2 (by decide)
  have byte₃ := byte 3 (by decide)
  simp only [Bytes.u32At, Bytes.u16At, Nat.add_assoc, Nat.reduceAdd]
  rw [Nat.add_zero] at byte₀
  rw [byte₀, byte₁, byte₂, byte₃]

private theorem u32At_patchWord (bytes : Bytes) (offset value : Nat)
    (inside : offset + 4 ≤ bytes.length) :
    (patchWord bytes offset value).u32At offset = uint32 value := by
  have word := u32At_le32 value []
  rw [List.append_nil] at word
  have read := u32At_drop (patchWord bytes offset value) offset 0
  rw [Nat.add_zero] at read
  rw [← word, ← read]
  apply u32At_congr
  intro j below
  have cell := getD_patchWord bytes offset value (offset + j)
  rw [if_pos (by omega), Nat.add_sub_cancel_left] at cell
  rw [Nat.zero_add, ← cell, List.getD_eq_getElem?_getD, List.getD_eq_getElem?_getD, List.getElem?_drop]

/-- Words that do not overlap are all read back. -/
theorem u32At_patchWords {fixups : List (Nat × Nat)} (bytes : Bytes)
    (apart : fixups.Pairwise fun f g => f.2 + 4 ≤ g.2) {fixup : Nat × Nat} (member : fixup ∈ fixups)
    (inside : fixup.2 + 4 ≤ bytes.length) :
    (patchWords fixups bytes).u32At fixup.2 = uint32 fixup.1 := by
  induction fixups generalizing bytes with
  | nil => cases member
  | cons first rest ih =>
    rw [List.pairwise_cons] at apart
    rcases List.mem_cons.mp member with rfl | later
    · rw [← u32At_patchWord bytes fixup.2 fixup.1 inside]
      apply u32At_congr
      intro j below
      refine patchWords_frame rest _ _ fun other member => ?_
      have behind := apart.1 other member
      omega
    · refine ih (patchWord bytes first.2 first.1) apart.2 later ?_
      rwa [patchWord, List.length_map, List.length_range]

private theorem applyFixups_ok {fixups : List (Nat × Nat)} {w w' : StreamWriter}
    (done : fixups.foldlM applyFixup w = .ok w') :
    w' = { w with written := patchWords fixups w.written } := by
  induction fixups generalizing w with
  | nil =>
    cases done
    rfl
  | cons fixup rest ih =>
    rw [List.foldlM_cons, bind_ok_iff] at done
    obtain ⟨w₁, first, done⟩ := done
    rw [applyFixup] at first
    split at first
    · cases first
    split at first
    · cases first
    cases first
    exact ih done

/-! ### The stream is read back -/

/-- What has been committed, in parts. A stream that is too long is an error, so the symbols fill
what was reserved for them. -/
theorem commitSymbolStream_ok {source : TpiSource} {mod : ModuleDescriptor} {w' : StreamWriter}
    (formed : mod.WellFormed)
    (done : commitSymbolStream source mod ⟨mod.diSymbolStreamSize, []⟩ = .ok w') :
    ∃ (w : StreamWriter) (subs : List Input.DebugSubsection),
      mod.symbols.foldlM (writeSymbolList source) ⟨mod.diSymbolStreamSize, le32 Input.debugSectionMagic⟩ =
        .ok w ∧
      w.written.length = mod.symBytes ∧ List.Forall₂ (Committed source) mod.c13Builders subs ∧
      (∀ sub ∈ subs, Framed sub) ∧
      (subs.flatMap subsectionBytes).length = mod.calculateC13DebugInfoSize ∧
      w'.written = patchWords mod.stringTableFixups w.written ++
        (subs.flatMap subsectionBytes ++ le32 0) := by
  rw [commitSymbolStream, bind_ok_iff] at done
  obtain ⟨w₀, magic, later⟩ := done
  obtain ⟨w₁, symbols, later⟩ := bind_ok_iff.mp later
  obtain ⟨w₂, fixups, later⟩ := bind_ok_iff.mp later
  obtain ⟨w₃, subsections, later⟩ := bind_ok_iff.mp later
  obtain ⟨w₄, globalRefs, last⟩ := bind_ok_iff.mp later
  obtain ⟨length₀, written₀, -⟩ := writeBytes_ok magic
  -- The stream begins with the magic, which is what the symbols' offsets count from.
  have start : w₀ = ⟨mod.diSymbolStreamSize, le32 Input.debugSectionMagic⟩ := by
    cases w₀
    cases length₀
    cases written₀
    rfl
  subst start
  obtain ⟨extends_, aligned⟩ := writeSymbols_ok formed.bulk ⟨1, rfl⟩ symbols
  obtain rfl := applyFixups_ok fixups
  obtain ⟨subs, all, framed, length₃, written₃, size⟩ := commitSubsections_ok formed.sized
    (by rwa [length_patchWords]) subsections
  obtain ⟨length₄, written₄, fits⟩ := writeBytes_ok globalRefs
  split at last
  · cases last
  rename_i full
  cases last
  -- Too much is an error of the writer, too little one of the last check: the size is exact,
  have total : w'.written.length = w₁.written.length + subsectionsSize mod.c13Builders + 4 := by
    rw [written₄, written₃]
    simp only [List.length_append, length_patchWords, length_le32, size]
  have exactly : w'.written.length = mod.diSymbolStreamSize := by
    rw [length₄, length₃, extends_.length] at full
    rw [length₃, extends_.length] at fits
    exact Nat.le_antisymm fits (Nat.le_of_not_lt full)
  -- so the symbols and the subsections fill what the descriptor reserved for each.
  have front : 4 ≤ w₁.written.length := extends_.written.length_le
  have c13 := calculateC13DebugInfoSize_eq mod
  have word := formed.word
  rw [ModuleDescriptor.diSymbolStreamSize, alignTo_of_dvd _ _ (by decide) formed.aligned, c13] at exactly
  simp only [uint32] at exactly c13
  refine ⟨w₁, subs, symbols, ?_, all, ?_, ?_, ?_⟩
  · rw [ModuleDescriptor.symBytes, uint32]
    omega
  · intro sub member
    obtain ⟨before, behind, rfl⟩ := List.append_of_mem member
    rw [List.flatMap_append, List.flatMap_cons, List.length_append, List.length_append,
      length_subsectionBytes] at size
    exact ⟨(framed sub member).1, (framed sub member).2, by omega⟩
  · rw [size]
    omega
  · rw [written₄, written₃, List.append_assoc]

/-- A stream is read in its parts. -/
theorem reloadModuleStream_parts (symbols : Bytes) {subs : List Input.DebugSubsection}
    (framed : ∀ sub ∈ subs, Framed sub) :
    reloadModuleStream symbols.length (subs.flatMap subsectionBytes).length
      (symbols ++ (subs.flatMap subsectionBytes ++ le32 0)) = .ok ⟨symbols, subs, []⟩ := by
  have drop : (symbols ++ (subs.flatMap subsectionBytes ++ le32 0)).drop symbols.length =
      subs.flatMap subsectionBytes ++ le32 0 := List.drop_left
  have rest : (symbols ++ (subs.flatMap subsectionBytes ++ le32 0)).drop
      (symbols.length + (subs.flatMap subsectionBytes).length) = le32 0 := by
    rw [← List.drop_drop, drop, List.drop_left]
  have c13 : (symbols ++ (subs.flatMap subsectionBytes ++ le32 0)).slice symbols.length
      (subs.flatMap subsectionBytes).length = subs.flatMap subsectionBytes := by
    rw [Bytes.slice, drop, List.take_left]
  have noRefs : (le32 0).u32At 0 = 0 := rfl
  have enough : ¬ ((symbols ++ (subs.flatMap subsectionBytes ++ le32 0)).length < 4 ∨
      (symbols ++ (subs.flatMap subsectionBytes ++ le32 0)).length <
        symbols.length + (subs.flatMap subsectionBytes).length) := by
    simp only [List.length_append, length_le32]
    omega
  rw [reloadModuleStream, rest, noRefs, c13, List.take_left, subsectionArray_bytes framed,
    if_neg enough]
  rfl

/-- The stream of a module that ends is read back: the symbols with their fixups, and each subsection
as it has been committed. -/
theorem reload_commitSymbolStream (source : TpiSource) (mod : ModuleDescriptor)
    (formed : mod.WellFormed) {w' : StreamWriter}
    (done : commitSymbolStream source mod ⟨mod.diSymbolStreamSize, []⟩ = .ok w') :
    ∃ w subs, mod.symbols.foldlM (writeSymbolList source)
        ⟨mod.diSymbolStreamSize, le32 Input.debugSectionMagic⟩ = .ok w ∧
      List.Forall₂ (Committed source) mod.c13Builders subs ∧
      reloadModuleStream mod.symBytes mod.calculateC13DebugInfoSize w'.written =
        .ok ⟨patchWords mod.stringTableFixups w.written, subs, []⟩ := by
  obtain ⟨w, subs, symbols, front, all, framed, size, stream⟩ := commitSymbolStream_ok formed done
  refine ⟨w, subs, symbols, all, ?_⟩
  rw [stream, ← size, ← front, ← length_patchWords mod.stringTableFixups]
  exact reloadModuleStream_parts _ framed

/-- A procedure and an `S_FILESTATIC` with its string at 5, and the checksums of the file at 5. -/
def smallModule : ModuleDescriptor where
  symbols := [.unmerged smallUnit 64]
  symbolByteSize := 64
  sourceFiles := [[0x61]]
  stringTableFixups := [(5, 60)]
  c13Builders := [.checksums ⟨[⟨5, 0, []⟩], 8⟩]

def noMaps : TpiSource := ⟨[], [], fun _ => none⟩

theorem smallModule_reloads : ∃ w', commitSymbolStream noMaps smallModule ⟨88, []⟩ = .ok w' ∧
    ∃ w subs, smallModule.symbols.foldlM (writeSymbolList noMaps) ⟨88, le32 Input.debugSectionMagic⟩ = .ok w ∧
      List.Forall₂ (Committed noMaps) smallModule.c13Builders subs ∧
      reloadModuleStream 68 16 w'.written = .ok ⟨patchWords [(5, 60)] w.written, subs, []⟩ := by
  have formed : smallModule.WellFormed := by
    refine ⟨?_, ⟨16, rfl⟩, by decide, ?_⟩
    · intro bytes member
      cases List.mem_singleton.mp member
    · intro s member
      obtain rfl := List.mem_singleton.mp member
      rfl
  obtain ⟨w', done⟩ : ∃ w', commitSymbolStream noMaps smallModule
      ⟨smallModule.diSymbolStreamSize, []⟩ = .ok w' := ⟨_, rfl⟩
  exact ⟨w', done, reload_commitSymbolStream noMaps smallModule formed done⟩

end LlvmLd.Pdb
