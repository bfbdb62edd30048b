import Mathlib.Data.List.Sort
import LlvmLd.Lib.Refinement
import LlvmLd.Icf.Section

/-!
`ICF::run` of `lld/COFF/ICF.cpp`: the first classes, the passes over all classes with their two
class arrays, and the final merge. Within a pass the calls for different classes touch different
chunks, write the other class array only, and read the current one, which nobody writes.
-/

namespace LlvmLd.Icf

open Refinement

/-- `eqClass` at index 0 and 1 for every chunk; `again` is the member `repeat`. -/
structure State where
  chunks : List ChunkId
  eqClass : Nat → ChunkId → Nat
  cnt : Nat
  again : Bool

/-- `eqClass[cnt % 2]`. -/
def State.current (s : State) : ChunkId → Nat := s.eqClass (s.cnt % 2)

/-- The current class of `chunks[i]`. -/
def State.classAt (s : State) (i : Nat) : Nat := s.current (s.chunks.getD i 0)

variable (p : Program)

/-! ### The first classes -/

def nextIds : List ChunkId → Nat → (ChunkId → Nat) → ChunkId → Nat
  | [], _, cls => cls
  | sc :: scs, nextId, cls => nextIds scs (nextId + 1) (Function.update cls sc (nextId % 2 ^ 32))

/-- Those that are not eligible get their ids first, then the sections of the merge chunks. -/
def numbered : List ChunkId :=
  p.driverChunks.filter (fun c => !isEligible p c) ++ p.mergeSections

/-- `eqClass` before the hashes are combined. -/
def initialClass : Nat → ChunkId → Nat
  | 0 => fun c =>
    if c ∈ p.collected then p.xxh3_64bits (p.chunk c).contents % 2 ^ 32
    else nextIds (numbered p) 1 (fun _ => 0) c
  | _ => fun _ => 0

def symbols (c : ChunkId) : List SymbolId := (p.chunk c).relocs.map (target p c)

/-- One of the two rounds that combine the hashes of the sections that each section refers to. -/
def combineHashes (cnt : Nat) (eqClass : Nat → ChunkId → Nat) : Nat → ChunkId → Nat :=
  fun index c =>
    if index = (cnt + 1) % 2 ∧ c ∈ p.collected then
      let hash := ((symbols p c).filterMap p.definedRegular).foldl
        (fun hash sym => (hash + eqClass (cnt % 2) sym.chunk) % 2 ^ 32) (eqClass (cnt % 2) c)
      -- MSB set, so that no hash is an id
      hash ||| 2 ^ 31
    else eqClass index c

def start : State :=
  let eqClass := combineHashes p 1 (combineHashes p 0 (initialClass p))
  { chunks := p.collected.insertionSort (fun a b => eqClass 0 a ≤ eqClass 0 b)
    eqClass := eqClass
    cnt := 0
    again := false }

/-! ### One pass -/

def findBoundary (s : State) (start stop : Nat) : Nat := Runs.boundary s.classAt start stop

/-- The calls of `fn`, as pairs of its arguments. -/
def forEachClassRange (s : State) (start stop : Nat) : List (Nat × Nat) :=
  Runs.runs s.classAt start stop

def numShards : Nat := 256

def boundaries (s : State) (i : Nat) : Nat :=
  let step := s.chunks.length / numShards
  if i = 0 then 0
  else if i = numShards then s.chunks.length
  else findBoundary s ((i - 1) * step) s.chunks.length

def forEachClass (s : State) : List (Nat × Nat) :=
  if s.chunks.length < 1024 then
    forEachClassRange s 0 s.chunks.length
  else
    (List.range numShards).flatMap (fun i =>
      if boundaries s i < boundaries s (i + 1) then
        forEachClassRange s (boundaries s i) (boundaries s (i + 1))
      else [])

def equals (s : State) (constant : Bool) : ChunkId → ChunkId → Bool :=
  if constant then equalsConstant p s.current else equalsVariable p s.current

/-- The groups that `segregate` makes of one class, each with the index that becomes its id. -/
def segregate (s : State) (constant : Bool) (start stop : Nat) : Groups ChunkId :=
  split (equals p s constant) start (slice s.chunks start stop)

def writeClass : Groups ChunkId → (ChunkId → Nat) → ChunkId → Nat
  | [], cls => cls
  | (mid, group) :: gs, cls =>
    writeClass gs (fun c => if c ∈ group then mid % 2 ^ 32 else cls c)

/-- One `forEachClass` with `segregate`. -/
def pass (constant : Bool) (s : State) : State :=
  let groups := (forEachClass s).flatMap (fun r => segregate p s constant r.1 r.2)
  let next := (s.cnt + 1) % 2
  { chunks := members groups
    eqClass := Function.update s.eqClass next (writeClass groups (s.eqClass next))
    cnt := s.cnt + 1
    again := (forEachClass s).any (fun r =>
      decide (1 < (segregate p s constant r.1 r.2).length)) }

/-- `do { ... } while (repeat)`; `none` when the fuel is used up. -/
def variableLoop : Nat → State → Option State
  | 0, _ => none
  | fuel + 1, s =>
    let s' := pass p false s
    if s'.again then variableLoop fuel s' else some s'

/-! ### The merge -/

structure Merged where
  repl : ChunkId → ChunkId
  live : ChunkId → Bool
  p2Align : ChunkId → Nat

def unmerged : Merged where
  repl := id
  live := fun c => (p.chunk c).live
  p2Align := fun c => (p.chunk c).p2Align

def replace (c : ChunkId) (m : Merged) (other : ChunkId) : Merged where
  p2Align := Function.update m.p2Align c (max (m.p2Align c) (m.p2Align other))
  repl := Function.update m.repl other (m.repl c)
  live := Function.update m.live other false

def mergeClass (m : Merged) : List ChunkId → Merged
  | [] => m
  | c :: others => others.foldl (replace c) m

def mergeAll (s : State) : Merged :=
  (forEachClass s).foldl (fun m r => mergeClass m (slice s.chunks r.1 r.2)) (unmerged p)

def run (fuel : Nat) : Option Merged :=
  (variableLoop p fuel (pass p true (start p))).map (mergeAll p)

end LlvmLd.Icf
