import Mathlib.Data.List.Induction
import LlvmLd.Lib.Bytes
import LlvmLd.Writer.Chunk

/-!
The export list: `SymbolTable::fixupExports`, which checks ordinals, names the exports, keeps one
export for each name and sorts them, and `SymbolTable::assignExportOrdinals`.
-/

namespace LlvmLd.Edata

open LlvmLd.Writer (Machine)

inductive ExportSource
  | unset | directives | exportOption | moduleDefinition | exportAll
  deriving DecidableEq, Repr

structure Export where
  name : Bytes
  extName : Bytes := []
  exportAs : Bytes := []
  importName : Bytes := []
  /-- What `getRVA` gives for the symbol. -/
  sym : Nat := 0
  ordinal : UInt16 := 0
  noname : Bool := false
  data : Bool := false
  isPrivate : Bool := false
  constant : Bool := false
  forwardTo : Bytes := []
  source : ExportSource := .unset
  symbolName : Bytes := []
  exportName : Bytes := []
  deriving DecidableEq, Repr

/-- The comparison operator of `Export`. -/
def Export.same (e f : Export) : Bool :=
  e.name == f.name && e.extName == f.extName && e.exportAs == f.exportAs &&
    e.importName == f.importName && e.ordinal == f.ordinal && e.noname == f.noname &&
    e.data == f.data && e.isPrivate == f.isPrivate

structure Config where
  machine : Machine
  mingw : Bool := false
  killAt : Bool := false

inductive Fatal
  | duplicateOrdinal (name : Bytes)
  | tooManyExports (got : Nat)
  deriving DecidableEq, Repr

inductive Warning
  | duplicateOption (source : ExportSource) (name : Bytes)
  | duplicateExport (name : Bytes) (first now : ExportSource)
  deriving DecidableEq, Repr

/-! ### Names -/

def atSign : UInt8 := 0x40

def underscore : UInt8 := 0x5F

/-- `StringRef::split` at the first occurrence of a separator. -/
def splitAt? (separator : Bytes) : Bytes → Option (Bytes × Bytes)
  | [] => none
  | c :: rest =>
    if separator.isPrefixOf (c :: rest) then some ([], (c :: rest).drop separator.length)
    else (splitAt? separator rest).map fun (before, behind) => (c :: before, behind)

def getArm64ECDemangledFunctionName (name : Bytes) : Option Bytes :=
  match name with
  | 0x23 :: rest => some rest
  | 0x3F :: rest =>
    -- An MD5 name `??@...@$$h@` loses its last four characters, any other name its `$$h`.
    if [0x3F, 0x40].isPrefixOf rest && [0x40, 0x24, 0x24, 0x68, 0x40].isSuffixOf name then
      some (name.take (name.length - 4))
    else
      match splitAt? [0x24, 0x24, 0x68] name with
      | some (before, behind) => if behind = [] then none else some (before ++ behind)
      | none => none
  | _ => none

def killAt (sym : Bytes) (withPrefix : Bool) : Bytes :=
  match sym with
  | [] => []
  | c :: rest =>
    let stripped := rest.takeWhile (· ≠ atSign)
    if c ≠ atSign then
      if withPrefix ∧ c ≠ underscore then underscore :: c :: stripped else c :: stripped
    else if withPrefix then underscore :: stripped else stripped

def exportNameOf (cfg : Config) (e : Export) : Bytes :=
  if e.exportAs ≠ [] then e.exportAs
  else
    let sym := if e.forwardTo ≠ [] ∨ e.extName = [] then e.name else e.extName
    if cfg.machine = .i386 ∧ [underscore].isPrefixOf sym ∧ (cfg.mingw ∨ atSign ∉ sym) then
      sym.drop 1
    else if cfg.machine = .arm64ec ∧ !e.data ∧ !e.constant then
      (getArm64ECDemangledFunctionName sym).getD sym
    else sym

/-- The names of an export after both loops over names. -/
def named (cfg : Config) (e : Export) : Export :=
  let e := { e with exportName := exportNameOf cfg e }
  if cfg.killAt ∧ cfg.machine = .i386 then
    { e with
      name := killAt e.name true
      exportName := killAt e.exportName false
      extName := killAt e.extName true
      symbolName := killAt e.symbolName true }
  else e

/-! ### One export for each name -/

def exportSourcePriority : ExportSource → Nat
  | .directives => 1
  | .exportAll => 2
  | .exportOption | .moduleDefinition => 3
  | .unset => 0

/-- One turn of the loop that makes names unique. An export that replaces an earlier one takes its
place in `v`; the map entry of the name is that place. -/
def uniquify (e : Export) : List Export → List Export × List Warning
  | [] => ([e], [])
  | existing :: rest =>
    if existing.exportName ≠ e.exportName then
      let (rest, warnings) := uniquify e rest
      (existing :: rest, warnings)
    else if e.same existing ∨ e.name ≠ existing.name then (existing :: rest, [])
    else if exportSourcePriority existing.source < exportSourcePriority e.source then (e :: rest, [])
    else if exportSourcePriority existing.source > exportSourcePriority e.source then
      (existing :: rest, [])
    else if existing.source = e.source then
      (existing :: rest, [.duplicateOption existing.source e.name])
    else (existing :: rest, [.duplicateExport e.name existing.source e.source])

def uniquifyAll (exports : List Export) : List Export × List Warning :=
  exports.foldl (fun (v, warnings) e =>
    let (v, more) := uniquify e v
    (v, warnings ++ more)) ([], [])

/-- The ordinals that are set must differ. -/
def checkOrdinals (seen : List UInt16) : List Export → Except Fatal Unit
  | [] => .ok ()
  | e :: rest =>
    if e.ordinal = 0 then checkOrdinals seen rest
    else if e.ordinal ∈ seen then .error (.duplicateOrdinal e.name)
    else checkOrdinals (e.ordinal :: seen) rest

/-- The names differ by now, so every sorting algorithm gives the same list. -/
def sortByName (exports : List Export) : List Export :=
  exports.mergeSort (fun a b => (compare a.exportName b.exportName).isLE)

def fixupExports (cfg : Config) (exports : List Export) :
    Except Fatal (List Export × List Warning) := do
  checkOrdinals [] exports
  let (v, warnings) := uniquifyAll (exports.map (named cfg))
  return (sortByName v, warnings)

/-! ### Ordinals -/

/-- The highest ordinal that is set. -/
def maxOrdinal (exports : List Export) : Nat :=
  exports.foldl (fun max e => Nat.max max e.ordinal.toNat) 0

/-- The second loop; `max` is a 32-bit number that is stored cut to sixteen bits. -/
def assignFrom (max : Nat) : List Export → List Export × Nat
  | [] => ([], max)
  | e :: rest =>
    if e.ordinal = 0 then
      let next := uint32 (max + 1)
      let (rest, max) := assignFrom next rest
      ({ e with ordinal := UInt16.ofNat next } :: rest, max)
    else
      let (rest, max) := assignFrom max rest
      (e :: rest, max)

def assignExportOrdinals (exports : List Export) : Except Fatal (List Export) :=
  let (assigned, max) := assignFrom (maxOrdinal exports) exports
  if max > 65535 then .error (.tooManyExports max) else .ok assigned

/-- Both passes, as the driver runs them. -/
def resolveExports (cfg : Config) (exports : List Export) : Except Fatal (List Export) := do
  let (v, _) ← fixupExports cfg exports
  assignExportOrdinals v

/-! ## What `fixupExports` leaves -/

/-- Two exports with one ordinal have none set. -/
def OrdinalsDiffer (e f : Export) : Prop := e.ordinal = f.ordinal → e.ordinal = 0

private theorem ordinalsDiffer_symm {e f : Export} (h : OrdinalsDiffer e f) : OrdinalsDiffer f e :=
  fun same => same.trans (h same.symm)

/-- The names ascend strictly in unsigned byte order. -/
def Ascending (exports : List Export) : Prop :=
  exports.Pairwise fun e f => compare e.exportName f.exportName = .lt

private theorem checkOrdinals_ok (seen : List UInt16) (exports : List Export)
    (ok : checkOrdinals seen exports = .ok ()) :
    exports.Pairwise OrdinalsDiffer ∧ ∀ e ∈ exports, e.ordinal ≠ 0 → e.ordinal ∉ seen := by
  induction exports generalizing seen with
  | nil => exact ⟨List.Pairwise.nil, fun e member => by cases member⟩
  | cons e rest ih =>
    rw [checkOrdinals] at ok
    split at ok
    next unset =>
      obtain ⟨differ, fresh⟩ := ih seen ok
      refine ⟨List.Pairwise.cons (fun f _ _ => unset) differ, ?_⟩
      intro f member isSet
      rcases List.mem_cons.mp member with rfl | later
      · exact absurd unset isSet
      · exact fresh f later isSet
    -- a set ordinal is new, and joins those that are seen
    next isSet =>
      split at ok
      · cases ok
      next new =>
        obtain ⟨differ, fresh⟩ := ih (e.ordinal :: seen) ok
        constructor
        · refine List.Pairwise.cons (fun f member same => ?_) differ
          exact absurd (by simp [same]) (fresh f member (same ▸ isSet))
        · intro f member set'
          rcases List.mem_cons.mp member with rfl | later
          · exact new
          · exact fun known => fresh f later set' (List.mem_cons_of_mem _ known)

private theorem uniquify_names (e : Export) (v : List Export) :
    (uniquify e v).1.map (·.exportName) =
      if e.exportName ∈ v.map (·.exportName) then v.map (·.exportName)
      else v.map (·.exportName) ++ [e.exportName] := by
  induction v with
  | nil => rfl
  | cons existing rest ih =>
    rw [uniquify]
    by_cases same : existing.exportName = e.exportName
    · rw [if_neg (not_not_intro same)]
      split_ifs <;> simp_all
    · rw [if_pos same]
      have other : e.exportName ≠ existing.exportName := fun h => same h.symm
      simp only [List.map_cons, ih, List.mem_cons, other, false_or]
      split_ifs <;> rfl

private theorem uniquify_subperm (e : Export) (v : List Export) :
    (uniquify e v).1.Subperm (e :: v) := by
  induction v with
  | nil => exact List.Subperm.refl _
  | cons existing rest ih =>
    have kept : (existing :: rest).Subperm (e :: existing :: rest) :=
      (List.sublist_cons_self _ _).subperm
    have replaced : (e :: rest).Subperm (e :: existing :: rest) :=
      ((List.sublist_cons_self _ _).cons_cons _).subperm
    rw [uniquify]
    split_ifs
    · exact ((List.subperm_cons existing).mpr ih).trans (List.Perm.swap e existing rest).subperm
    all_goals first | exact kept | exact replaced

/-- The kept exports stand for different given ones, and have different names. -/
private theorem uniquifyAll_spec (exports : List Export) :
    (uniquifyAll exports).1.Subperm exports ∧
      ((uniquifyAll exports).1.map (·.exportName)).Nodup ∧
      ∀ name, name ∈ (uniquifyAll exports).1.map (·.exportName) ↔
        name ∈ exports.map (·.exportName) := by
  induction exports using List.reverseRecOn with
  | nil => exact ⟨List.Subperm.refl _, List.nodup_nil, fun _ => Iff.rfl⟩
  | append_singleton before e ih =>
    obtain ⟨subperm, nodup, names⟩ := ih
    have last : (uniquifyAll (before ++ [e])).1 = (uniquify e (uniquifyAll before).1).1 := by
      simp only [uniquifyAll, List.foldl_append, List.foldl_cons, List.foldl_nil]
    rw [last, uniquify_names]
    -- the last export only comes in when its name is new
    refine ⟨?_, ?_, fun name => ?_⟩
    · refine (uniquify_subperm e _).trans ?_
      exact ((List.subperm_cons e).mpr subperm).trans
        (List.perm_append_singleton e before).symm.subperm
    · split
      · exact nodup
      next fresh =>
        rw [← List.concat_eq_append]
        exact nodup.concat fresh
    · rw [List.map_append, List.mem_append, ← names]
      split
      next known =>
        refine ⟨Or.inl, fun either => ?_⟩
        rcases either with old | new
        · exact old
        · rw [List.mem_singleton.mp new]
          exact known
      · simp

private theorem sortByName_ascending (v : List Export) (nodup : (v.map (·.exportName)).Nodup) :
    Ascending (sortByName v) := by
  have sorted : (sortByName v).Pairwise
      fun e f => (compare e.exportName f.exportName).isLE = true := by
    refine List.pairwise_mergeSort (fun a b c => Std.TransCmp.isLE_trans) (fun a b => ?_) v
    rw [@Std.OrientedCmp.eq_swap _ compare _ a.exportName b.exportName]
    cases compare b.exportName a.exportName <;> rfl
  have distinct : (sortByName v).Pairwise fun e f => e.exportName ≠ f.exportName := by
    rw [← List.pairwise_map]
    exact ((List.mergeSort_perm v _).map _).nodup_iff.mpr nodup
  refine (sorted.and distinct).imp fun {e f} both => ?_
  -- in order and not equal is strictly below
  cases order : compare e.exportName f.exportName with
  | lt => rfl
  | eq => exact absurd (Std.LawfulEqCmp.eq_of_compare order) both.2
  | gt => simp [order] at both

private theorem named_ordinal (cfg : Config) (e : Export) :
    (named cfg e).ordinal = e.ordinal := by
  unfold named
  dsimp only
  split <;> rfl

theorem fixupExports_spec (cfg : Config) (exports v : List Export) (warnings : List Warning)
    (fixed : fixupExports cfg exports = .ok (v, warnings)) :
    Ascending v ∧ v.Pairwise OrdinalsDiffer ∧
      ∀ name, name ∈ v.map (·.exportName) ↔
        name ∈ exports.map (fun e => (named cfg e).exportName) := by
  unfold fixupExports at fixed
  cases checked : checkOrdinals [] exports with
  | error e => simp [checked, bind, Except.bind] at fixed
  | ok u =>
    simp only [checked, bind, Except.bind, pure, Except.pure, Except.ok.injEq, Prod.mk.injEq] at fixed
    obtain ⟨rfl, -⟩ := fixed
    obtain ⟨subperm, nodup, names⟩ := uniquifyAll_spec (exports.map (named cfg))
    have perm : (sortByName (uniquifyAll (exports.map (named cfg))).1).Perm _ :=
      List.mergeSort_perm _ _
    refine ⟨sortByName_ascending _ nodup, ?_, fun name => ?_⟩
    -- names and flags do not touch the ordinals, and sorting and dropping keep what differs
    · have given : (exports.map (named cfg)).Pairwise OrdinalsDiffer := by
        rw [List.pairwise_map]
        refine (checkOrdinals_ok [] exports checked).1.imp fun {e f} differ => ?_
        simpa only [OrdinalsDiffer, named_ordinal] using differ
      rw [perm.pairwise_iff ordinalsDiffer_symm]
      obtain ⟨part, same, sub⟩ := subperm
      exact (same.pairwise_iff ordinalsDiffer_symm).mp (given.sublist sub)
    · rw [(perm.map _).mem_iff, names, List.map_map]
      rfl

/-! ## What `assignExportOrdinals` leaves -/

/-- The exports without an ordinal. -/
def unset (exports : List Export) : Nat := exports.countP fun e => e.ordinal = 0

@[simp] private theorem unset_cons (e : Export) (rest : List Export) :
    unset (e :: rest) = unset rest + if e.ordinal = 0 then 1 else 0 := by
  by_cases h : e.ordinal = 0 <;> simp [unset, h]

private theorem unset_le (exports : List Export) : unset exports ≤ exports.length :=
  List.countP_le_length

theorem toNat_le (o : UInt16) : o.toNat ≤ 65535 := by
  have := o.toNat_lt
  omega

theorem le_maxOrdinal (exports : List Export) :
    (∀ e ∈ exports, e.ordinal.toNat ≤ maxOrdinal exports) ∧ maxOrdinal exports ≤ 65535 := by
  -- for every start value: the fold is above it, above all ordinals and in 16 bits
  suffices general : ∀ (l : List Export) (m : Nat), m ≤ 65535 →
      m ≤ l.foldl (fun max e => Nat.max max e.ordinal.toNat) m ∧
      (∀ e ∈ l, e.ordinal.toNat ≤ l.foldl (fun max e => Nat.max max e.ordinal.toNat) m) ∧
      l.foldl (fun max e => Nat.max max e.ordinal.toNat) m ≤ 65535 from
    ⟨(general exports 0 (by decide)).2.1, (general exports 0 (by decide)).2.2⟩
  intro l
  induction l with
  | nil => exact fun m small => ⟨Nat.le_refl m, ⟨(fun e member => by cases member), small⟩⟩
  | cons f rest ih =>
    intro m small
    obtain ⟨low, all, high⟩ :=
      ih (Nat.max m f.ordinal.toNat) (Nat.max_le.mpr ⟨small, toNat_le f.ordinal⟩)
    refine ⟨Nat.le_trans (Nat.le_max_left _ _) low, fun e member => ?_, high⟩
    rcases List.mem_cons.mp member with rfl | later
    · exact Nat.le_trans (Nat.le_max_right _ _) low
    · exact all e later

/-- Nothing but the ordinals changes. -/
private theorem assignFrom_same (max : Nat) (exports : List Export) :
    (assignFrom max exports).1.map (fun e => { e with ordinal := 0 }) =
      exports.map (fun e => { e with ordinal := 0 }) := by
  induction exports generalizing max with
  | nil => rfl
  | cons e rest ih =>
    rw [assignFrom]
    split <;> simp [ih]

private theorem assignFrom_max (max : Nat) (exports : List Export)
    (room : max + unset exports < 2 ^ 32) :
    (assignFrom max exports).2 = max + unset exports := by
  induction exports generalizing max with
  | nil => simp [assignFrom, unset]
  | cons e rest ih =>
    rw [unset_cons] at room ⊢
    rw [assignFrom]
    split
    next isUnset =>
      rw [if_pos isUnset] at room
      have next : uint32 (max + 1) = max + 1 := Nat.mod_eq_of_lt (by omega)
      rw [next]
      exact (ih (max + 1) (by omega)).trans (by omega)
    next isSet =>
      rw [if_neg isSet] at room
      exact ih max room

/-- Every ordinal is one that was set, or lies above `max`. -/
private theorem assignFrom_mem (max : Nat) (exports : List Export)
    (room : max + unset exports ≤ 65535) (e : Export) (member : e ∈ (assignFrom max exports).1) :
    (e ∈ exports ∧ e.ordinal ≠ 0) ∨
      (max < e.ordinal.toNat ∧ e.ordinal.toNat ≤ max + unset exports) := by
  induction exports generalizing max with
  | nil => cases member
  | cons f rest ih =>
    rw [unset_cons] at room ⊢
    rw [assignFrom] at member
    split at member
    -- an unset ordinal becomes the next number, which the room keeps below 2^16
    next isUnset =>
      rw [if_pos isUnset] at room ⊢
      have next : uint32 (max + 1) = max + 1 := Nat.mod_eq_of_lt (by omega)
      rw [next] at member
      rcases List.mem_cons.mp member with rfl | later
      · right
        have number : (UInt16.ofNat (max + 1)).toNat = max + 1 := by
          rw [UInt16.toNat_ofNat']
          exact Nat.mod_eq_of_lt (by omega)
        rw [number]
        omega
      · rcases ih (max + 1) (by omega) later with ⟨old, isSet⟩ | ⟨low, high⟩
        · exact Or.inl ⟨List.mem_cons_of_mem f old, isSet⟩
        · right
          omega
    next isSet =>
      rw [if_neg isSet] at room ⊢
      rcases List.mem_cons.mp member with rfl | later
      · exact Or.inl ⟨List.mem_cons_self, isSet⟩
      · rcases ih max room later with ⟨old, set'⟩ | bounds
        · exact Or.inl ⟨List.mem_cons_of_mem f old, set'⟩
        · exact Or.inr bounds

private theorem assignFrom_distinct (max : Nat) (exports : List Export)
    (room : max + unset exports ≤ 65535) (below : ∀ e ∈ exports, e.ordinal.toNat ≤ max)
    (differ : exports.Pairwise OrdinalsDiffer) :
    (assignFrom max exports).1.Pairwise (fun e f => e.ordinal ≠ f.ordinal) := by
  induction exports generalizing max with
  | nil => exact List.Pairwise.nil
  | cons e rest ih =>
    rw [unset_cons] at room
    obtain ⟨first, rest_differ⟩ := List.pairwise_cons.mp differ
    have rest_below : ∀ f ∈ rest, f.ordinal.toNat ≤ max := fun f member =>
      below f (List.mem_cons_of_mem e member)
    rw [assignFrom]
    split
    -- An ordinal given out is larger than any before, and any later one is larger still.
    next isUnset =>
      rw [if_pos isUnset] at room
      have next : uint32 (max + 1) = max + 1 := Nat.mod_eq_of_lt (by omega)
      have number : (UInt16.ofNat (max + 1)).toNat = max + 1 := by
        rw [UInt16.toNat_ofNat']
        exact Nat.mod_eq_of_lt (by omega)
      rw [next]
      refine List.Pairwise.cons (fun f member same => ?_)
        (ih (max + 1) (by omega) (fun f member => Nat.le_succ_of_le (rest_below f member)) rest_differ)
      have equal : max + 1 = f.ordinal.toNat := by
        rw [← number]
        exact congrArg UInt16.toNat same
      rcases assignFrom_mem (max + 1) rest (by omega) f member with ⟨old, -⟩ | ⟨low, -⟩
      · have := rest_below f old
        omega
      · omega
    -- An ordinal that was set differs from the set ones, and is not above the maximum.
    next isSet =>
      rw [if_neg isSet] at room
      refine List.Pairwise.cons (fun f member same => ?_) (ih max room rest_below rest_differ)
      have equal : e.ordinal.toNat = f.ordinal.toNat := congrArg UInt16.toNat same
      rcases assignFrom_mem max rest room f member with ⟨old, -⟩ | ⟨low, -⟩
      · exact isSet (first f old same)
      · have := below e List.mem_cons_self
        omega

/-- The ordinals of an export table: from 1 to 65535 and pairwise distinct. -/
structure Numbered (exports : List Export) : Prop where
  distinct : exports.Pairwise fun e f => e.ordinal ≠ f.ordinal
  positive : ∀ e ∈ exports, 1 ≤ e.ordinal.toNat

theorem assignExportOrdinals_names (v kept : List Export)
    (assigned : assignExportOrdinals v = .ok kept) :
    kept.map (·.exportName) = v.map (·.exportName) := by
  simp only [assignExportOrdinals] at assigned
  split at assigned
  · cases assigned
  · cases assigned
    have same := congrArg (List.map Export.exportName) (assignFrom_same (maxOrdinal v) v)
    simpa only [List.map_map, Function.comp_def] using same

/-- With at most 65535 exports the counter does not wrap, so that the final check suffices. -/
theorem assignExportOrdinals_numbered (v kept : List Export)
    (differ : v.Pairwise OrdinalsDiffer) (few : v.length ≤ 65535)
    (assigned : assignExportOrdinals v = .ok kept) : Numbered kept := by
  obtain ⟨below, small⟩ := le_maxOrdinal v
  have count := unset_le v
  simp only [assignExportOrdinals] at assigned
  split at assigned
  · cases assigned
  next accepted =>
    cases assigned
    rw [assignFrom_max _ v (by omega)] at accepted
    have room : maxOrdinal v + unset v ≤ 65535 := by omega
    refine ⟨assignFrom_distinct _ v room below differ, fun e member => ?_⟩
    rcases assignFrom_mem _ v room e member with ⟨-, isSet⟩ | ⟨low, -⟩
    · have : e.ordinal.toNat ≠ 0 := fun zero => isSet (UInt16.toNat_inj.mp zero)
      omega
    · omega

theorem Numbered.unique {exports : List Export} (numbered : Numbered exports) {e f : Export}
    (first : e ∈ exports) (second : f ∈ exports) (same : e.ordinal = f.ordinal) : e = f := by
  have nodup : (exports.map (·.ordinal)).Nodup := by
    rw [List.Nodup, List.pairwise_map]
    exact numbered.distinct
  exact List.inj_on_of_nodup_map nodup first second same

/-- Distinct ordinals are few. -/
theorem Numbered.length_le {exports : List Export} (numbered : Numbered exports) :
    exports.length ≤ 65535 := by
  have nodup : (exports.map (·.ordinal.toNat)).Nodup := by
    rw [List.Nodup, List.pairwise_map]
    exact numbered.distinct.imp fun differ same => differ (UInt16.toNat_inj.mp same)
  -- different ordinals, all of them between 1 and 65535
  have subset : exports.map (·.ordinal.toNat) ⊆ List.range' 1 65535 := by
    intro n member
    obtain ⟨e, found, rfl⟩ := List.mem_map.mp member
    have low := numbered.positive e found
    have high := toNat_le e.ordinal
    rw [List.mem_range'_1]
    omega
  have := (List.subperm_of_subset nodup subset).length_le
  simpa using this

end LlvmLd.Edata
