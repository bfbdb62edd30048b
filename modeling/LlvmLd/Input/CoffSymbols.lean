import LlvmLd.Lib.Bytes

/-!
The symbol table of a COFF object, as `COFFObjectFile` and `COFFSymbolRef` read it: records of 18
bytes, or 20 in a big object, each followed by its auxiliary records. What a record is depends only
on where the reader stops; an auxiliary record can be read as a symbol.
-/

namespace LlvmLd.Input.Coff

/-- A COFF object whose headers have been accepted. -/
structure CoffObject where
  bigObj : Bool
  /-- The bytes of the file from the symbol table on. -/
  symbolTable : Bytes
  stringTable : Bytes
  numberOfSymbols : Nat
  numberOfSymbols_lt : numberOfSymbols < 2 ^ 32
  symbolsInside : numberOfSymbols * (if bigObj then 20 else 18) ≤ symbolTable.length
  terminated : 4 < stringTable.length → stringTable.getLast? = some 0

variable (o : CoffObject)

namespace CoffObject

def getSymbolTableEntrySize : Nat := if o.bigObj then 20 else 18

/-! ### `COFFSymbolRef`, of the record at an index -/

/-- A field of the record at `i`; `big` is its offset in a big object. -/
def field (i small big : Nat) : Nat :=
  i * o.getSymbolTableEntrySize + if o.bigObj then big else small

def getValue (i : Nat) : Nat := o.symbolTable.u32At (o.field i 8 8)

/-- Reserved sections are negative numbers. -/
def getSectionNumber (i : Nat) : Int :=
  if o.bigObj then
    let number := o.symbolTable.u32At (o.field i 12 12)
    if number < 2 ^ 31 then number else number - 2 ^ 32
  else
    let number := o.symbolTable.u16At (o.field i 12 12)
    if number ≤ 65279 then number else number - 2 ^ 16

def getStorageClass (i : Nat) : Nat := o.symbolTable.byteAt (o.field i 16 18)

def getNumberOfAuxSymbols (i : Nat) : Nat := o.symbolTable.byteAt (o.field i 17 19)

def isExternal (i : Nat) : Bool := o.getStorageClass i == 2

def isAbsolute (i : Nat) : Bool := o.getSectionNumber i == -1

def isCommon (i : Nat) : Bool :=
  o.isExternal i && o.getSectionNumber i == 0 && o.getValue i != 0

def isUndefined (i : Nat) : Bool :=
  o.isExternal i && o.getSectionNumber i == 0 && o.getValue i == 0

def isSection (i : Nat) : Bool := o.getStorageClass i == 104

def isEmptySectionDeclaration (i : Nat) : Bool := o.isSection i && o.getSectionNumber i == 0

def isWeakExternal (i : Nat) : Bool := o.getStorageClass i == 105

def isAnyUndefined (i : Nat) : Bool := o.isUndefined i || o.isWeakExternal i

/-- The string at an offset of the string table. -/
def getString (offset : Nat) : Option Bytes :=
  if o.stringTable.length ≤ 4 then none
  else if offset ≥ o.stringTable.length then none
  else some ((o.stringTable.drop offset).takeWhile (· ≠ 0))

/-- `none` is an error. -/
def getSymbolName (i : Nat) : Option Bytes :=
  let name := o.symbolTable.slice (o.field i 0 0) 8
  if name.u32At 0 = 0 then o.getString (name.u32At 4)
  -- all 8 bytes count where the last one is not NUL
  else if name.byteAt 7 = 0 then some (name.takeWhile (· ≠ 0))
  else some name

/-! ### Auxiliary records, which are read behind the record at an index -/

def tagIndex (i : Nat) : Nat := o.symbolTable.u32At (o.field (i + 1) 0 0)

def characteristics (i : Nat) : Nat := o.symbolTable.u32At (o.field (i + 1) 4 4)

/-- `getSectionDefinition()` is not null. -/
def hasSectionDefinition (i : Nat) : Bool :=
  o.getNumberOfAuxSymbols i != 0 && o.getStorageClass i == 3

/-- `getNumber` of the section definition, as it is passed on: an unsigned number. -/
def definitionNumber (i : Nat) : Nat :=
  o.symbolTable.u16At (o.field (i + 1) 12 12) +
    if o.bigObj then 2 ^ 16 * o.symbolTable.u16At (o.field (i + 1) 16 16) else 0

def selection (i : Nat) : Nat := o.symbolTable.byteAt (o.field (i + 1) 14 14)

/-! ### The loop over the symbols -/

/-- `i += coffSym.getNumberOfAuxSymbols()` and `++i`. -/
def nextSymbol (i : Nat) : Nat := uint32 (uint32 (i + o.getNumberOfAuxSymbols i) + 1)

end CoffObject

section Loop

variable {ε σ : Type}

/-- `for (uint32_t i = 0; i < numSymbols; ++i)`, where the body ends with skipping the auxiliary
records; `running` after some number of rounds. -/
def symbolLoop (running : ε) (body : σ → Nat → Except ε σ) : Nat → Nat → σ → Except ε σ
  | 0, _, _ => .error running
  | fuel + 1, i, s =>
    if i < o.numberOfSymbols then
      (body s i).bind fun s => symbolLoop running body fuel (o.nextSymbol i) s
    else .ok s

end Loop

/-- `@feat.00` and `@comp.id`. -/
def ignoredSymbolName (name : Bytes) : Bool :=
  name == [0x40, 0x66, 0x65, 0x61, 0x74, 0x2E, 0x30, 0x30] ||
    name == [0x40, 0x63, 0x6F, 0x6D, 0x70, 0x2E, 0x69, 0x64]

end LlvmLd.Input.Coff
