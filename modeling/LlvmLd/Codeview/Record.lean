import LlvmLd.Lib.Bytes

/-!
CodeView symbol and type records as they stand in `.debug$S` and `.debug$T`: a 16-bit length that
does not count itself, a 16-bit kind, and the contents.
-/

namespace LlvmLd.Codeview

/-- The symbol kinds of `CodeViewSymbols.def` that the linker distinguishes. -/
inductive SymbolKind where
  | compile | sEnd | skip | frameproc | objname | thunk32 | block32 | label32 | register | constant
  | udt | bprel32 | ldata32 | gdata32 | pub32 | lproc32 | gproc32 | regrel32 | lthread32 | gthread32
  | compile2 | unamespace | procref | lprocref | sepcode | callsiteinfo | framecookie | compile3
  | envblock | sLocal | defrangeSubfield | defrangeRegister | defrangeFramepointerRel
  | defrangeSubfieldRegister | defrangeFramepointerRelFullScope | defrangeRegisterRel
  | lproc32Id | gproc32Id | buildinfo | inlinesite | inlinesiteEnd | procIdEnd | filestatic
  | lproc32Dpc | lproc32DpcId | armswitchtable | callees | callers | inlinesite2 | heapallocsite
  | inlinees | regrel32Indir | defrangeRegisterRelIndir
  | other (code : Nat)
  deriving DecidableEq, Repr

/-- The kinds with their codes. -/
def SymbolKind.table : List (Nat × SymbolKind) :=
  [(0x0001, .compile), (0x0006, .sEnd), (0x0007, .skip), (0x1012, .frameproc), (0x1101, .objname),
    (0x1102, .thunk32), (0x1103, .block32), (0x1105, .label32), (0x1106, .register),
    (0x1107, .constant), (0x1108, .udt), (0x110b, .bprel32), (0x110c, .ldata32),
    (0x110d, .gdata32), (0x110e, .pub32), (0x110f, .lproc32), (0x1110, .gproc32),
    (0x1111, .regrel32), (0x1112, .lthread32), (0x1113, .gthread32), (0x1116, .compile2),
    (0x1124, .unamespace), (0x1125, .procref), (0x1127, .lprocref), (0x1132, .sepcode),
    (0x1139, .callsiteinfo), (0x113a, .framecookie), (0x113c, .compile3), (0x113d, .envblock),
    (0x113e, .sLocal), (0x1140, .defrangeSubfield), (0x1141, .defrangeRegister),
    (0x1142, .defrangeFramepointerRel), (0x1143, .defrangeSubfieldRegister),
    (0x1144, .defrangeFramepointerRelFullScope), (0x1145, .defrangeRegisterRel),
    (0x1146, .lproc32Id), (0x1147, .gproc32Id), (0x114c, .buildinfo), (0x114d, .inlinesite),
    (0x114e, .inlinesiteEnd), (0x114f, .procIdEnd), (0x1153, .filestatic), (0x1155, .lproc32Dpc),
    (0x1156, .lproc32DpcId), (0x1159, .armswitchtable), (0x115a, .callees), (0x115b, .callers),
    (0x115d, .inlinesite2), (0x115e, .heapallocsite), (0x1168, .inlinees),
    (0x1171, .regrel32Indir), (0x1177, .defrangeRegisterRelIndir)]

def SymbolKind.ofCode (code : Nat) : SymbolKind :=
  ((SymbolKind.table.lookup code).getD (.other code))

/-- `sizeof(RecordPrefix)`. -/
def prefixSize : Nat := 4

/-- `CVRecord::kind`. -/
def recordKind (record : Bytes) : Nat :=
  if record.length < prefixSize then 0 else record.u16At 2

def symbolKind (record : Bytes) : SymbolKind :=
  SymbolKind.ofCode (recordKind record)

/-- `CVRecord::content`. -/
def content (record : Bytes) : Bytes := record.drop prefixSize

/--
`readCVRecordFromStream`: the record at `offset` with its length prefix, or `none` when the prefix
or the announced bytes do not fit.
-/
def readRecord (stream : Bytes) (offset : Nat) : Option Bytes :=
  if stream.length - offset < prefixSize then none
  else
    let recordLen := stream.u16At offset
    if recordLen < 2 ∨ stream.length - offset < recordLen + 2 then none
    else some (stream.slice offset (recordLen + 2))

/-- `DebugSubsectionKind::Symbols`. -/
def subsectionSymbols : Nat := 0xf1

/-! ### Records the linker deserializes -/

/-- The `Signature` of an `ObjNameSym`. -/
def objNameSignature (record : Bytes) : Option Nat :=
  let fields := content record
  if fields.length < 4 then none
  else (fields.cString 4).map (fun _ => fields.u32At 0)

/-- `CompileSym3Flags::HotPatch` of a `Compile3Sym`. -/
def compile3HotPatch (record : Bytes) : Option Bool :=
  let fields := content record
  -- flags, machine, and eight version numbers come before the version string
  if fields.length < 22 then none
  else (fields.cString 22).map (fun _ => (fields.u32At 0).testBit 14)

/-- How many bytes `consume` reads for a numeric leaf; `none` for an unknown leaf. -/
def encodedIntegerSize (short : Nat) : Option Nat :=
  if short < 0x8000 then some 2
  else
    [(0x8000, 3), (0x8001, 4), (0x8002, 4), (0x8003, 6), (0x8004, 6), (0x8009, 10),
      (0x800a, 10)].lookup short

/-- `getSymbolNameOffset`; kinds without a name have none. -/
def getSymbolNameOffset : SymbolKind → Option Nat
  | .gproc32 | .lproc32 | .gproc32Id | .lproc32Id | .lproc32Dpc | .lproc32DpcId => some 35
  | .thunk32 => some 21
  -- S_SECTION
  | .other 0x1136 => some 16
  -- S_COFFGROUP
  | .other 0x1137 => some 14
  | .regrel32Indir => some 14
  | .pub32 | .filestatic | .regrel32 | .gdata32 | .ldata32 | .lthread32 | .gthread32
  | .procref | .lprocref => some 10
  -- S_LMANDATA and S_GMANDATA
  | .other 0x111c | .other 0x111d => some 10
  | .register | .sLocal => some 6
  | .block32 => some 18
  | .label32 => some 7
  | .objname | .udt => some 4
  -- S_EXPORT
  | .other 0x1138 => some 4
  | .bprel32 => some 8
  | .unamespace => some 0
  | _ => none

/-- Where the name of an `S_CONSTANT` starts: behind the type index and a numeric leaf. -/
def constantNameOffset (fields : Bytes) : Option Nat :=
  if fields.length < 6 then none
  else
    (encodedIntegerSize (fields.u16At 4)).bind (fun size =>
      if fields.length < 4 + size then none else some (4 + size))

/--
`getSymbolName`. `none` stands for a record on which the source stops: a constant that does not
deserialize, or a name offset behind the end.
-/
def getSymbolName (record : Bytes) : Option Bytes :=
  let fields := content record
  if symbolKind record = .constant then (constantNameOffset fields).bind fields.cString
  else
    match getSymbolNameOffset (symbolKind record) with
    | none => some []
    | some offset =>
        if fields.length < offset then none else some ((fields.drop offset).takeWhile (· ≠ 0))

/-- `LF_TYPESERVER2` and `LF_PRECOMP`. -/
def leafTypeServer2 : Nat := 0x1515

def leafPrecomp : Nat := 0x1509

structure TypeServer2Record where
  guid : Bytes
  age : Nat
  name : Bytes
  deriving DecidableEq, Repr

structure PrecompRecord where
  startTypeIndex : Nat
  typesCount : Nat
  signature : Nat
  precompFilePath : Bytes
  deriving DecidableEq, Repr

def typeServer2 (record : Bytes) : Option TypeServer2Record :=
  let fields := content record
  if fields.length < 20 then none
  else (fields.cString 20).map (fun name => ⟨fields.slice 0 16, fields.u32At 16, name⟩)

def precomp (record : Bytes) : Option PrecompRecord :=
  let fields := content record
  if fields.length < 12 then none
  else (fields.cString 12).map
    (fun path => ⟨fields.u32At 0, fields.u32At 4, fields.u32At 8, path⟩)

end LlvmLd.Codeview
