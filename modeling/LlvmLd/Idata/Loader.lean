import LlvmLd.Idata.Tables
import LlvmLd.Lib.Memory

/-!
The import tables in memory: where the chunks stand and what they write, what the ARM64X relocations
do to the bytes, and how a loader walks the tables.
-/

namespace LlvmLd.Idata

open LlvmLd.Writer (Machine)
open LlvmLd.Memory

/-! ### Bytes of the chunks -/

/-- The RVAs that the layout gives. The chunks of the first three vectors follow one another. -/
structure Placement where
  dirs : Nat
  lookups : Nat
  addresses : Nat
  hint : Nat → Nat
  dllName : Nat → Nat

section Bytes

variable (target : Machine) (p : Placement)

def wordsize : Nat := if target.is64 then 8 else 4

/-- The bit of a slot that says it holds an ordinal. -/
def ordinalFlag : Nat := if target.is64 then 2 ^ 63 else 2 ^ 31

def wordBytes (n : Nat) : Bytes := if target.is64 then le64 n else le32 n

def entrySize : Nat := 20

def ChunkPtr.rva : ChunkPtr → Nat
  | .lookups i => p.lookups + wordsize target * i
  | .addresses i => p.addresses + wordsize target * i
  | .hints i => p.hint i
  | .dirs i => p.dirs + entrySize * i

def Slot.writeTo : Slot → Bytes
  | .lookup hintName => wordBytes target (p.hint hintName)
  | .ordinalOnly ordinal => wordBytes target (ordinalFlag target ||| ordinal.toNat)
  | .null => List.replicate (wordsize target) 0

def HintNameChunk.getSize (c : HintNameChunk) : Nat := alignTo (c.name.1.length + 3) 2

def HintNameChunk.writeTo (c : HintNameChunk) : Bytes :=
  le16 c.hint.toNat ++ c.name.1 ++ List.replicate (c.getSize - 2 - c.name.1.length) 0

/-- `StringChunk` -/
def stringBytes (s : Name) : Bytes := s.1 ++ [0]

def ImportDirectory.writeTo (d : ImportDirectory) : Bytes :=
  le32 ((ChunkPtr.lookups d.lookupTab).rva target p) ++ le32 0 ++ le32 0 ++
    le32 (p.dllName d.dllName) ++ le32 ((ChunkPtr.addresses d.addressTab).rva target p)

def DirChunk.writeTo : DirChunk → Bytes
  | .directory dir => dir.writeTo target p
  | .null => List.replicate entrySize 0

/-- The chunks have been written to their places. -/
structure Written {ι : Type} (t : IdataContents ι) (m : Mem) : Prop where
  dirs : ∀ i c, t.dirs[i]? = some c →
    readBytes m ((ChunkPtr.dirs i).rva target p : Nat) entrySize = c.writeTo target p
  lookups : ∀ i s, t.lookups[i]? = some s →
    readBytes m ((ChunkPtr.lookups i).rva target p : Nat) (wordsize target) = s.writeTo target p
  addresses : ∀ i s, t.addresses[i]? = some s →
    readBytes m ((ChunkPtr.addresses i).rva target p : Nat) (wordsize target) = s.writeTo target p
  hints : ∀ i c, t.hints[i]? = some c → readBytes m (p.hint i) c.writeTo.length = c.writeTo
  dllNames : ∀ i s, t.dllNames[i]? = some s →
    readBytes m (p.dllName i) (stringBytes s).length = stringBytes s

end Bytes

/-! ### ARM64X relocations -/

/-- The two header bits and the number of a `DELTA` entry. -/
structure DeltaFixup where
  negative : Bool
  wide : Bool
  count : Nat
  deriving DecidableEq, Repr

/-- A number cut to an `int`. -/
def int32 (n : Nat) : Int := if uint32 n < 2147483648 then uint32 n else uint32 n - 4294967296

/-- What `Arm64XDynamicRelocEntry::writeTo` makes of a delta: it is cut to an `int`, and the number
of units to sixteen bits. -/
def deltaFixup (value : Nat) : DeltaFixup :=
  let delta := int32 value
  let wide := delta.natAbs % 8 == 0
  { negative := decide (delta < 0), wide,
    count := delta.natAbs / (if wide then 8 else 4) % 65536 }

def DeltaFixup.delta (f : DeltaFixup) : Int :=
  let units : Int := f.count * (if f.wide then 8 else 4)
  if f.negative then -units else units

section Relocs

variable (target : Machine) (p : Placement)

/-- `Arm64XRelocVal::get` -/
def Arm64XRelocVal.get (v : Arm64XRelocVal) : Nat :=
  (match v.chunk with
    | none => 0
    | some c => c.rva target p) + v.value

def applyReloc (m : Mem) (r : Arm64XReloc) : Mem :=
  let rva := r.offset.get target p
  match r.type with
  | .zeroFill => writeBytes m rva (List.replicate r.size 0)
  | .value => writeBytes m rva ((le64 (r.value.get target p)).take r.size)
  | .delta =>
    let old := Bytes.u32At (readBytes m rva 4) 0
    let new := ((old + (deltaFixup (r.value.get target p)).delta) % 4294967296).toNat
    writeBytes m rva (le32 new)

def applyRelocs (m : Mem) (relocs : List Arm64XReloc) : Mem := relocs.foldl (applyReloc target p) m

end Relocs

/-! ### The loader's rule -/

inductive Request where
  | name (name : Bytes)
  | ordinal (ordinal : UInt16)
  deriving DecidableEq, Repr

structure StringAt (m : Mem) (rva : Nat) (s : Bytes) : Prop where
  bytes : readBytes m rva s.length = s
  stop : m ((rva + s.length : Nat) : Int) = 0
  noNul : (0 : UInt8) ∉ s

section Walk

variable (target : Machine) (m : Mem)

def readWord (rva : Nat) : Nat :=
  if target.is64 then Bytes.u64At (readBytes m rva 8) 0 else Bytes.u32At (readBytes m rva 4) 0

/-- What a slot that is not zero asks for. A name stands behind its two-byte hint. -/
inductive Decodes (data : Nat) : Request → Prop
  | ordinal (flag : ordinalFlag target ≤ data) : Decodes data (.ordinal (UInt16.ofNat data))
  | name (flag : data < ordinalFlag target) (s : Bytes) (there : StringAt m (data % 2 ^ 32 + 2) s) :
    Decodes data (.name s)

/-- The slots from an address on, up to the first that is zero. -/
inductive Slots : Nat → List (Nat × Request) → Prop
  | stop {rva : Nat} (zero : readWord target m rva = 0) : Slots rva []
  | next {rva : Nat} {request : Request} {rest : List (Nat × Request)}
    (nonzero : readWord target m rva ≠ 0)
    (decodes : Decodes target m (readWord target m rva) request)
    (more : Slots (rva + wordsize target) rest) : Slots rva ((rva, request) :: rest)

structure Entry where
  dll : Bytes
  lookups : List (Nat × Request)
  addresses : List (Nat × Request)

/-- The directory entries from an address on, up to the null entry. -/
inductive Entries : Nat → List Entry → Prop
  | stop {rva : Nat} (null : readBytes m rva entrySize = List.replicate entrySize 0) : Entries rva []
  | next {rva : Nat} {entry : Entry} {rest : List Entry}
    (nonnull : readBytes m rva entrySize ≠ List.replicate entrySize 0)
    (dll : StringAt m (Bytes.u32At (readBytes m rva entrySize) 12) entry.dll)
    (lookups : Slots target m (Bytes.u32At (readBytes m rva entrySize) 0) entry.lookups)
    (addresses : Slots target m (Bytes.u32At (readBytes m rva entrySize) 16) entry.addresses)
    (more : Entries (rva + entrySize) rest) : Entries rva (entry :: rest)

end Walk

/-! ### The walk has one result -/

theorem StringAt.unique {m : Mem} {rva : Nat} {s s' : Bytes} (first : StringAt m rva s)
    (second : StringAt m rva s') : s = s' := by
  -- the byte behind the shorter string is its NUL, which the longer one may not contain
  suffices short : ∀ {s s' : Bytes}, StringAt m rva s → StringAt m rva s' → s'.length ≤ s.length by
    have same : s.length = s'.length := Nat.le_antisymm (short second first) (short first second)
    rw [← first.bytes, ← second.bytes, same]
  intro s s' first second
  by_contra longer
  have inside : s.length < s'.length := by omega
  apply second.noNul
  have byte : s'[s.length] = 0 := by
    have read := congrArg (fun b : Bytes => b[s.length]?) second.bytes
    simp only [readBytes, List.getElem?_map, List.getElem?_range inside, Option.map_some,
      List.getElem?_eq_getElem inside, Option.some.injEq] at read
    rw [← read]
    have stop := first.stop
    rwa [Int.natCast_add] at stop
  rw [← byte]
  exact List.getElem_mem inside

theorem Decodes.unique {target : Machine} {m : Mem} {data : Nat} {r r' : Request}
    (first : Decodes target m data r) (second : Decodes target m data r') : r = r' := by
  cases first with
  | ordinal flag =>
    cases second with
    | ordinal => rfl
    | name flag' => omega
  | name flag s there =>
    cases second with
    | ordinal flag' => omega
    | name _ s' there' => rw [there.unique there']

theorem Slots.unique {target : Machine} {m : Mem} {rva : Nat} {l l' : List (Nat × Request)}
    (first : Slots target m rva l) (second : Slots target m rva l') : l = l' := by
  induction first generalizing l' with
  | stop zero =>
    cases second with
    | stop => rfl
    | next nonzero => exact absurd zero nonzero
  | next nonzero decodes more ih =>
    cases second with
    | stop zero => exact absurd zero nonzero
    | next _ decodes' more' => rw [decodes.unique decodes', ih more']

theorem Entries.unique {target : Machine} {m : Mem} {rva : Nat} {l l' : List Entry}
    (first : Entries target m rva l) (second : Entries target m rva l') : l = l' := by
  induction first generalizing l' with
  | stop null =>
    cases second with
    | stop => rfl
    | next nonnull => exact absurd null nonnull
  | @next rva entry rest nonnull dll lookups addresses more ih =>
    cases second with
    | stop null => exact absurd null nonnull
    | @next _ entry' rest' _ dll' lookups' addresses' more' =>
      obtain ⟨name, slots, slots'⟩ := entry
      obtain ⟨name', other, other'⟩ := entry'
      cases dll.unique dll'
      cases lookups.unique lookups'
      cases addresses.unique addresses'
      rw [ih more']

end LlvmLd.Idata
