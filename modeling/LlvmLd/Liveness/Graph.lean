import Mathlib.Data.Fintype.Card
import Mathlib.Logic.Function.Basic
import LlvmLd.Lib.Chains

/-!
What dead section elimination works on: section chunks, symbols with their weak aliases, import
files, and the thunks that `SymbolTable::initializeECThunks` sets; and what is reached in it.
-/

namespace LlvmLd.Liveness

variable {C F T S : Type}

/-- What a symbol is: a `DefinedRegular` with its chunk, a `DefinedImportData` with its file, a
`DefinedImportThunk` with the file of the symbol it wraps and its own chunk, another `Defined`,
an `Undefined`, or a lazy symbol. -/
inductive Kind (C F T S : Type)
  | regular (chunk : C)
  | importData (file : F)
  | importThunk (file : F) (chunk : T)
  | otherDefined
  | undefined (weakAlias : Option S)
  | lazy

def Kind.isDefined : Kind C F T S → Bool
  | .undefined _ | .lazy => false
  | _ => true

/-- The fields of an `ImportFile` that exit thunks are looked up by. -/
structure ImportFile (S : Type) where
  impchkThunk : Bool
  thunkSym : Option S
  impECSym : Option S

/-- What `initializeECThunks` and `markLive` look at. `entryThunks` and `exitThunks` are the pairs
that `.hybmp` sections add, in order. -/
structure Graph (C F T S : Type) where
  kind : S → Kind C F T S
  isAntiDep : S → Bool
  /-- The offset of a defined symbol in its chunk. -/
  value : S → Nat
  /-- The section chunks among those of `ctx.driver.getChunks()`. -/
  getChunks : List C
  live : C → Bool
  isDWARF : C → Bool
  isCOMDAT : C → Bool
  /-- Whether the chunk is a `SectionChunkEC`. -/
  isEC : C → Bool
  symbols : C → List (Option S)
  children : C → List C
  file : F → ImportFile S
  gcroot : List S
  /-- `isArm64EC` of the machine. -/
  arm64EC : Bool
  entryThunks : List (S × S)
  exitThunks : List (Option S × Option S)

/-! ### Symbols -/

section Symbols

variable [DecidableEq S] (g : Graph C F T S)

/-- The loop of `getWeakAlias`, with the chain it has seen. -/
def weakChain : Nat → List S → Option S → Option S
  | 0, _, _ => none
  | _ + 1, _, none => none
  | fuel + 1, seen, some a =>
    if g.isAntiDep a then none
    else
      match g.kind a with
      | .undefined next => if a ∈ seen then none else weakChain fuel (a :: seen) next
      | _ => some a

variable [Fintype S]

/-- `Undefined::getWeakAlias`. A chain has no more symbols than there are. -/
def getWeakAlias (weakAlias : Option S) : Option S :=
  weakChain g (Fintype.card S + 1) [] weakAlias

def getDefined (s : S) : Option S :=
  match g.kind s with
  | .undefined weakAlias => (getWeakAlias g weakAlias).filter fun a => (g.kind a).isDefined
  | .lazy => none
  | _ => some s

end Symbols

/-! ### Thunks -/

section Thunks

variable [DecidableEq S] [Fintype S] (g : Graph C F T S)

/-- `exitThunks.lookup`: the last pair added for a symbol counts. -/
def lookupExit (key : Option S) : Option S :=
  (g.exitThunks.reverse.find? fun pair => pair.1 = key).bind (·.2)

/-- The exit thunk of the impchk thunk of an import file. -/
def exitThunk (f : F) : Option S :=
  if g.arm64EC ∧ (g.file f).impchkThunk then
    match lookupExit g (g.file f).thunkSym with
    | some sym => getDefined g sym
    | none =>
      match lookupExit g (g.file f).impECSym with
      | some sym => getDefined g sym
      | none => none
  else none

/-- The entry thunk of a chunk: a later pair of the hybrid map replaces an earlier one. -/
def entryThunk [DecidableEq C] : C → Option S :=
  if g.arm64EC then
    g.entryThunks.foldl (fun table pair =>
      match getDefined g pair.2, getDefined g pair.1 with
      | some target, some source =>
        match g.kind source with
        | .regular c =>
          if g.isCOMDAT c ∧ g.value source = 0 ∧ g.isEC c then
            Function.update table c (some target)
          else table
        | _ => table
      | _, _ => table) (fun _ => none)
  else fun _ => none

end Thunks

/-! ### Nodes -/

/-- What is marked: section chunks, import files and import thunk chunks. -/
abbrev Node (C F T : Type) := C ⊕ (F ⊕ T)

def Node.chunk (c : C) : Node C F T := .inl c

def Node.file (f : F) : Node C F T := .inr (.inl f)

def Node.thunk (t : T) : Node C F T := .inr (.inr t)

/-! ## Weak aliases -/

/-- `d` defines `s`: `s` is defined itself, or its weak alias is no anti-dependency symbol and is
defined by `d`. -/
inductive DefinedBy (g : Graph C F T S) : S → S → Prop
  | self {s : S} (isDefined : (g.kind s).isDefined = true) : DefinedBy g s s
  | byAlias {s a d : S} (undefined : g.kind s = .undefined (some a)) (strong : g.isAntiDep a = false)
    (rest : DefinedBy g a d) : DefinedBy g s d

section Symbols

variable (g : Graph C F T S)

/-- The next symbol of a chain of weak aliases. -/
def nextAlias (a : S) : Option S :=
  if g.isAntiDep a then none
  else
    match g.kind a with
    | .undefined next => next
    | _ => none

private theorem nextAlias_eq_some_iff (a b : S) :
    nextAlias g a = some b ↔ g.isAntiDep a = false ∧ g.kind a = .undefined (some b) := by
  simp only [nextAlias]
  cases g.isAntiDep a <;> cases g.kind a <;> simp

/-- What the walk along a chain comes to. -/
private def lastOfChain (outcome : Chains.Outcome S) : Option S :=
  match outcome with
  | .final z =>
    if g.isAntiDep z then none
    else
      match g.kind z with
      | .undefined _ => none
      | _ => some z
  | _ => none

/-- The loop is a walk along the aliases that remembers what it has seen. -/
private theorem weakChain_eq [DecidableEq S] (fuel : Nat) (seen : List S) (a : S)
    (behind : ∀ b ∈ seen, ∃ c, nextAlias g b = some c) :
    weakChain g fuel seen (some a) =
      lastOfChain g (Chains.follow (nextAlias g) fuel seen a) := by
  induction fuel generalizing seen a with
  | zero => rfl
  | succ fuel ih =>
    -- What was seen has a next alias, so the symbol at which the chain stops is a new one.
    have fresh : nextAlias g a = none → a ∉ seen := by
      intro stop member
      obtain ⟨c, step⟩ := behind a member
      rw [stop] at step
      cases step
    rw [weakChain, Chains.follow]
    by_cases anti : g.isAntiDep a = true
    · have stop : nextAlias g a = none := by simp [nextAlias, anti]
      simp [anti, stop, fresh stop, lastOfChain]
    · cases kind : g.kind a with
      | undefined next =>
        cases next with
        | none =>
          have stop : nextAlias g a = none := by simp [nextAlias, anti, kind]
          cases fuel <;> simp [anti, stop, fresh stop, lastOfChain, kind, weakChain]
        | some b =>
          have step : nextAlias g a = some b := by simp [nextAlias, anti, kind]
          by_cases member : a ∈ seen
          · simp [anti, member, lastOfChain]
          · have later := ih (a :: seen) b (fun c mem => by
              rcases List.mem_cons.mp mem with rfl | earlier
              · exact ⟨b, step⟩
              · exact behind c earlier)
            simp [anti, member, step, later]
      | _ =>
        have stop : nextAlias g a = none := by simp [nextAlias, anti, kind]
        simp [anti, stop, fresh stop, lastOfChain, kind]

private theorem nextAlias_of_defined (d : S) (isDefined : (g.kind d).isDefined = true) :
    nextAlias g d = none := by
  simp only [nextAlias]
  cases kind : g.kind d <;> simp_all [Kind.isDefined]

/-- The definition behind a strong symbol is where the chain of aliases ends. -/
private theorem definedBy_iff_ends (a d : S) :
    g.isAntiDep a = false ∧ DefinedBy g a d ↔
      Chains.Ends (nextAlias g) a d ∧ g.isAntiDep d = false ∧ (g.kind d).isDefined = true := by
  constructor
  · rintro ⟨strong, defined⟩
    induction defined with
    | self isDefined => exact ⟨⟨.refl _, nextAlias_of_defined g _ isDefined⟩, strong, isDefined⟩
    | byAlias undefined strong' _ ih =>
      obtain ⟨ends, last⟩ := ih strong'
      exact ⟨ends.head ((nextAlias_eq_some_iff g _ _).mpr ⟨strong, undefined⟩), last⟩
  · rintro ⟨⟨leads, -⟩, strong, isDefined⟩
    induction leads using Relation.ReflTransGen.head_induction_on with
    | refl => exact ⟨strong, .self isDefined⟩
    | head step _ ih =>
      obtain ⟨strong', undefined⟩ := (nextAlias_eq_some_iff g _ _).mp step
      exact ⟨strong', .byAlias undefined ih.1 ih.2⟩

private theorem lastOfChain_final (z d : S) :
    (lastOfChain g (.final z)).filter (fun a => (g.kind a).isDefined) = some d ↔
      z = d ∧ g.isAntiDep d = false ∧ (g.kind d).isDefined = true := by
  constructor
  · intro found
    cases anti : g.isAntiDep z <;> cases kind : g.kind z <;>
      simp_all [lastOfChain, Kind.isDefined]
  · rintro ⟨rfl, strong, isDefined⟩
    cases kind : g.kind z <;> simp_all [lastOfChain, Kind.isDefined]

theorem definedBy_of_defined (s d : S) (isDefined : (g.kind s).isDefined = true) :
    DefinedBy g s d ↔ s = d := by
  constructor
  · intro defined
    cases defined with
    | self => rfl
    | byAlias undefined => simp [undefined, Kind.isDefined] at isDefined
  · rintro rfl
    exact .self isDefined

private theorem definedBy_of_undefined (s a d : S) (undefined : g.kind s = .undefined (some a)) :
    DefinedBy g s d ↔ g.isAntiDep a = false ∧ DefinedBy g a d := by
  constructor
  · intro defined
    cases defined with
    | self isDefined => simp [undefined, Kind.isDefined] at isDefined
    | byAlias undefined' strong rest =>
      rw [undefined] at undefined'
      cases undefined'
      exact ⟨strong, rest⟩
  · rintro ⟨strong, rest⟩
    exact .byAlias undefined strong rest

/-- The search for a definition ends and finds it, whatever cycles the weak aliases have. -/
theorem getDefined_eq_some_iff [DecidableEq S] [Fintype S] (s d : S) :
    getDefined g s = some d ↔ DefinedBy g s d := by
  simp only [getDefined]
  cases kind : g.kind s with
  | undefined weakAlias =>
    cases weakAlias with
    | none =>
      simp only [getWeakAlias, weakChain, Option.filter_none, reduceCtorEq, false_iff]
      intro defined
      cases defined with
      | self isDefined => simp [kind, Kind.isDefined] at isDefined
      | byAlias undefined => simp [kind] at undefined
    | some a =>
      rw [definedBy_of_undefined g s a d kind, definedBy_iff_ends]
      simp only [getWeakAlias]
      rw [weakChain_eq g _ [] a (by simp)]
      -- A walk that never repeats is shorter than the number of symbols.
      have enough : (Finset.univ : Finset S).toList.length < Fintype.card S + 1 := by simp
      rcases Chains.follow_spec (Finset.univ : Finset S).toList
        (fun b c (_ : nextAlias g b = some c) => by simp) enough a with ⟨z, walk, ends⟩ | ⟨walk, cyclic⟩
      · rw [walk, lastOfChain_final]
        constructor
        · rintro ⟨rfl, last⟩
          exact ⟨ends, last⟩
        · rintro ⟨ends', last⟩
          exact ⟨ends.rests.unique ends'.rests, last⟩
      · simp only [walk, lastOfChain, Option.filter_none, reduceCtorEq, false_iff]
        rintro ⟨ends, -⟩
        exact ends.not_cyclic cyclic
  | lazy =>
    simp only [reduceCtorEq, false_iff]
    intro defined
    cases defined with
    | self isDefined => simp [kind, Kind.isDefined] at isDefined
    | byAlias undefined => simp [kind] at undefined
  | _ =>
    rw [definedBy_of_defined g s d (by simp [kind, Kind.isDefined]), Option.some.injEq]

end Symbols

/-! ## Reachability -/

def Kind.nodes : Kind C F T S → List (Node C F T)
  | .regular c => [.chunk c]
  | .importData f => [.file f]
  | .importThunk f t => [.file f, .thunk t]
  | _ => []

def Kind.importFile : Kind C F T S → Option F
  | .importData f | .importThunk f _ => some f
  | _ => none

section Exits

variable [DecidableEq S] [Fintype S] (g : Graph C F T S)

/-- What the definition of a symbol keeps alive. -/
def Targets (s : S) (n : Node C F T) : Prop := ∃ d, DefinedBy g s d ∧ n ∈ (g.kind d).nodes

/-- The import file of a symbol. -/
def symFile (b : S) : Option F := (getDefined g b).bind fun d => (g.kind d).importFile

/-- The import file that an import file leads to by its exit thunk. -/
def nextFile (f : F) : Option F := (exitThunk g f).bind (symFile g)

/-- Reached by exit thunks of import files only. -/
inductive Exits : Node C F T → Node C F T → Prop
  | refl (n : Node C F T) : Exits n n
  | step {f : F} {x : S} {n m : Node C F T} (thunk : exitThunk g f = some x)
    (target : Targets g x n) (rest : Exits n m) : Exits (.file f) m

end Exits

/-! ### Sections -/

section Reach

variable [DecidableEq C] [DecidableEq S] [Fintype S] (g : Graph C F T S)

/-- What a section refers to. -/
inductive Refers (c : C) : Node C F T → Prop
  | symbol {b : S} {n : Node C F T} (member : some b ∈ g.symbols c) (target : Targets g b n) :
    Refers c n
  | child {d : C} (member : d ∈ g.children c) : Refers c (.chunk d)
  | entry {x : S} {n : Node C F T} (thunk : entryThunk g c = some x) (target : Targets g x n) :
    Refers c n

/-- The sections whose references keep something alive: no DWARF, and no section that starts live
and is kept in a list of its own instead of `getChunks`, as those with CodeView are. -/
def Follows (c : C) : Prop := g.isDWARF c = false ∧ (c ∈ g.getChunks ∨ g.live c = false)

inductive Reached : Node C F T → Prop
  | root {c : C} (live : g.live c = true) (follows : Follows g c) : Reached (.chunk c)
  | gcroot {b : S} {n : Node C F T} (member : b ∈ g.gcroot) (target : Targets g b n) : Reached n
  | refers {c : C} {n : Node C F T} (reached : Reached (.chunk c)) (follows : Follows g c)
    (refers : Refers g c n) : Reached n
  | exit {f : F} {x : S} {n : Node C F T} (reached : Reached (.file f))
    (thunk : exitThunk g f = some x) (target : Targets g x n) : Reached n

theorem Reached.exits {n m : Node C F T} (reached : Reached g n) (exits : Exits g n m) :
    Reached g m := by
  induction exits with
  | refl => exact reached
  | step thunk target _ ih => exact ih (.exit reached thunk target)

end Reach

end LlvmLd.Liveness
