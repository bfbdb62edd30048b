import Mathlib.Data.List.Perm.Basic
import LlvmLd.Support.Crc

/-!
# Section contributions

`PDBLinker::createModuleDBI` and `PDBLinker::addSections`: the CRCs of all chunks are computed
concurrently, and a module's first contribution is set when the loop gets to its chunk, or at the
end.
-/

namespace LlvmLd.Pdb.Contribs

open Support

/-- What a contribution looks at in a `SectionChunk`. The file is named by its module. -/
structure SectionChunk where
  file : Nat
  live : Bool
  characteristics : Nat
  contents : Bytes
  deriving DecidableEq, Repr

/-- A chunk; `key` is its address, and only a `SectionChunk` has a `sec`. -/
structure Chunk where
  key : Nat
  rva : Nat
  size : Nat
  -- the index of the output section plus one; chunks inside of a `MergeChunk` have it as well
  osidx : Nat
  sec : Option SectionChunk
  deriving DecidableEq, Repr

structure OutputSection where
  rva : Nat
  sectionIndex : Nat
  characteristics : Nat
  chunks : List Chunk
  deriving DecidableEq, Repr

/-- `pdb::SectionContrib`. -/
structure SectionContrib where
  iSect : BitVec 16
  off : BitVec 32
  size : BitVec 32
  characteristics : BitVec 32
  imod : BitVec 16
  dataCrc : BitVec 32
  relocCrc : BitVec 32
  deriving DecidableEq, Repr

/-- The object files by module index, and the output sections. -/
structure Context where
  files : List (List Chunk)
  outputSections : List OutputSection
  linkerModule : Nat
  -- modules are numbered as they are added, and the linker's comes last
  linker_last : files.length ≤ linkerModule
  -- an address belongs to one chunk
  identity : ∀ c ∈ files.flatten ++ outputSections.flatMap (·.chunks),
    ∀ d ∈ files.flatten ++ outputSections.flatMap (·.chunks), c.key = d.key → c = d
  -- a file's section chunks know their file
  owned : ∀ (i : Nat) (chunks : List Chunk), files[i]? = some chunks →
    ∀ c ∈ chunks, ∀ s, c.sec = some s → s.file = i

/-! ### Contributions -/

def kInvalidStreamIndex : Nat := 0xFFFF

def sectionContribDataCrc (c : Option Chunk) : BitVec 32 :=
  match c.bind (·.sec) with
  | none => 0
  | some secChunk => (JamCRC.update ⟨0⟩ secChunk.contents).crc

def Context.getOutputSection (ctx : Context) (c : Chunk) : Option OutputSection :=
  if c.osidx = 0 then none else ctx.outputSections[c.osidx - 1]?

def Context.createSectionContrib (ctx : Context) (c : Option Chunk) (modi : Nat)
    (dataCrc : BitVec 32) : SectionContrib :=
  let os : Option OutputSection := c.bind ctx.getOutputSection
  let secChunk := c.bind (·.sec)
  { iSect := BitVec.ofNat 16 (os.elim kInvalidStreamIndex (·.sectionIndex))
    off := match c, os with
      | some c, some os => BitVec.ofNat 32 c.rva - BitVec.ofNat 32 os.rva
      | _, _ => 0
    size := c.elim (-1) (fun c => BitVec.ofNat 32 c.size)
    characteristics := BitVec.ofNat 32 (match secChunk with
      | some s => s.characteristics
      | none => os.elim 0 (·.characteristics))
    imod := BitVec.ofNat 16 (secChunk.elim modi (·.file))
    dataCrc := secChunk.elim 0 (fun _ => dataCrc)
    relocCrc := 0 }

/-- `createSectionContrib` without a CRC given. -/
def Context.directContrib (ctx : Context) (modi : Nat) (c : Chunk) : SectionContrib :=
  ctx.createSectionContrib (some c) modi (sectionContribDataCrc (some c))

/-! ### Modules -/

/-- The first live section chunk of a file. -/
def firstLive (chunks : List Chunk) : Option Chunk := chunks.find? (fun c => c.sec.any (·.live))

/-- `pendingFirstSectionContribs`, by the chunk's address. -/
abbrev Pending := List (Chunk × Nat)

def Pending.erase (pending : Pending) (c : Chunk) : Pending :=
  pending.filter (fun entry => entry.1.key ≠ c.key)

def Pending.find (pending : Pending) (c : Chunk) : Option (Chunk × Nat) :=
  pending.find? (fun entry => entry.1.key = c.key)

/-- `createModuleDBI` for the file with the given module index. -/
def createModuleDBI (pending : Pending) (moduleIndex : Nat) (chunks : List Chunk) : Pending :=
  match firstLive chunks with
  | none => pending
  | some c => (c, moduleIndex) :: pending.erase c

def createModules (moduleIndex : Nat) : List (List Chunk) → Pending → Pending
  | [], pending => pending
  | chunks :: rest, pending =>
      createModules (moduleIndex + 1) rest (createModuleDBI pending moduleIndex chunks)

/-! ### `addSections` -/

/-- What `addSections` has done so far. -/
structure State where
  chunkIndex : Nat
  sectionContribs : List SectionContrib
  -- the calls of `setFirstSectionContrib`
  first : List (Nat × SectionContrib)
  pending : Pending

/-- The orders that the code leaves open: that of the concurrent CRCs, and that of a map. -/
structure Schedule (chunks : List Chunk) where
  order : List Nat
  order_perm : order.Perm (List.range chunks.length)
  iterate : Pending → Pending
  iterate_perm : ∀ pending, (iterate pending).Perm pending

def dataCrcs (chunks : List Chunk) (schedule : Schedule chunks) : List (BitVec 32) :=
  schedule.order.foldl (fun crcs i => crcs.set i (sectionContribDataCrc chunks[i]?))
    (List.replicate chunks.length 0)

/-- The body of the loop over the chunks of an output section. -/
def addChunk (ctx : Context) (crcs : List (BitVec 32)) (s : State) (c : Chunk) : State :=
  let sc := ctx.createSectionContrib (some c) ctx.linkerModule (crcs.getD s.chunkIndex 0)
  let s := { s with
    chunkIndex := s.chunkIndex + 1
    sectionContribs := s.sectionContribs ++ [sc] }
  match s.pending.find c with
  | none => s
  | some (_, moduleIndex) =>
      { s with first := s.first ++ [(moduleIndex, sc)], pending := s.pending.erase c }

/-- The chunks of all output sections. -/
def Context.chunks (ctx : Context) : List Chunk := ctx.outputSections.flatMap (·.chunks)

def addOutputSections (ctx : Context) (crcs : List (BitVec 32)) : State :=
  ctx.outputSections.foldl (fun s os => os.chunks.foldl (addChunk ctx crcs) s)
    ⟨0, [], [], createModules 0 ctx.files []⟩

/-- The loop over what is still pending, whose CRCs are computed here. -/
def drainPending (ctx : Context) (iterate : Pending → Pending) (s : State) : State :=
  let late := (iterate s.pending).map (fun (c, moduleIndex) =>
    (moduleIndex, ctx.createSectionContrib (some c) moduleIndex (sectionContribDataCrc (some c))))
  { s with first := s.first ++ late, pending := [] }

def addSections (ctx : Context) (schedule : Schedule ctx.chunks) : State :=
  let s := drainPending ctx schedule.iterate
    (addOutputSections ctx (dataCrcs ctx.chunks schedule))
  let linker := ctx.createSectionContrib none kInvalidStreamIndex 0
  { s with first := s.first ++ [(ctx.linkerModule, linker)] }

/-! ### The CRCs -/

private theorem getElem?_foldl_set {α : Type*} (f : Nat → α) (order : List Nat) (init : List α)
    (j : Nat) (x : α) (before : init[j]? = some x) :
    (order.foldl (fun xs i => xs.set i (f i)) init)[j]? =
      some (if j ∈ order then f j else x) := by
  induction order generalizing init x with
  | nil => simpa using before
  | cons i rest ih =>
    have inside : j < init.length := (List.getElem?_eq_some_iff.mp before).1
    by_cases here : i = j
    · subst i
      rw [List.foldl_cons, ih _ (f j) (by simp [inside]), if_pos List.mem_cons_self]
      split <;> rfl
    · rw [List.foldl_cons, ih _ x (by rw [List.getElem?_set_ne here, before])]
      simp [Ne.symm here]

private theorem length_foldl_set {α : Type*} (f : Nat → α) (order : List Nat) (init : List α) :
    (order.foldl (fun xs i => xs.set i (f i)) init).length = init.length := by
  induction order generalizing init with
  | nil => rfl
  | cons i rest ih => rw [List.foldl_cons, ih, List.length_set]

/-- Whatever the order of the concurrent iterations, slot `i` holds the CRC of chunk `i`. -/
theorem dataCrcs_eq (chunks : List Chunk) (schedule : Schedule chunks) :
    dataCrcs chunks schedule = chunks.map (fun c => sectionContribDataCrc (some c)) := by
  have length : (dataCrcs chunks schedule).length = chunks.length := by
    rw [dataCrcs, length_foldl_set, List.length_replicate]
  apply List.ext_getElem?
  intro i
  by_cases inside : i < chunks.length
  · have scheduled : i ∈ schedule.order :=
      schedule.order_perm.mem_iff.mpr (List.mem_range.mpr inside)
    rw [dataCrcs, getElem?_foldl_set _ _ _ i 0 (by simp [inside]), if_pos scheduled,
      List.getElem?_map, List.getElem?_eq_getElem inside]
    rfl
  · rw [List.getElem?_eq_none (by omega), List.getElem?_eq_none (by rw [List.length_map]; omega)]

/-! ### Pending contributions -/

section Invariant

variable (ctx : Context)

/-- The chunk is a section chunk of the file with the given module. -/
structure Owned (c : Chunk) (moduleIndex : Nat) : Prop where
  known : c ∈ ctx.files.flatten ++ ctx.outputSections.flatMap (·.chunks)
  file : ∃ s, c.sec = some s ∧ s.file = moduleIndex

/-- The contribution that a module should get. -/
def dueContrib (moduleIndex : Nat) : List SectionContrib :=
  (ctx.files[moduleIndex]?.bind firstLive).toList.map (ctx.directContrib moduleIndex)

private theorem length_dueContrib (moduleIndex : Nat) :
    (dueContrib ctx moduleIndex).length ≤ 1 := by
  simp only [dueContrib]
  cases ctx.files[moduleIndex]?.bind firstLive <;> simp

/-- Of each module, the contribution is set or pending. -/
structure Balance (s : State) : Prop where
  owned : ∀ entry ∈ s.pending, Owned ctx entry.1 entry.2
  due : ∀ i, (s.first.filter (·.1 = i)).map (·.2) ++
    (s.pending.filter (·.2 = i)).map (fun entry => ctx.directContrib i entry.1) = dueContrib ctx i

variable {ctx}

theorem Owned.unique {c d : Chunk} {i j : Nat} (first : Owned ctx c i) (second : Owned ctx d j)
    (same : c.key = d.key) : c = d ∧ i = j := by
  obtain rfl := ctx.identity c first.known d second.known same
  obtain ⟨s, sec, file⟩ := first.file
  obtain ⟨t, sec', file'⟩ := second.file
  rw [sec] at sec'
  cases sec'
  exact ⟨rfl, by rw [← file, ← file']⟩

private theorem firstLive_owned {i : Nat} {chunks : List Chunk} (file : ctx.files[i]? = some chunks)
    {c : Chunk} (found : firstLive chunks = some c) : Owned ctx c i := by
  have member := List.mem_of_find?_eq_some found
  have live := List.find?_some found
  constructor
  · rw [List.mem_append, List.mem_flatten]
    exact .inl ⟨chunks, List.mem_of_getElem? file, member⟩
  · cases sec : c.sec with
    | none => simp [sec] at live
    | some s => exact ⟨s, rfl, ctx.owned i chunks file c member s sec⟩

/-- Entering a file's chunk removes nothing, since the chunk is of no other file. -/
theorem createModuleDBI_eq {pending : Pending} {k : Nat} {chunks : List Chunk}
    (file : ctx.files[k]? = some chunks)
    (earlier : ∀ entry ∈ pending, Owned ctx entry.1 entry.2 ∧ entry.2 < k) :
    createModuleDBI pending k chunks = (firstLive chunks).toList.map (·, k) ++ pending := by
  simp only [createModuleDBI]
  cases found : firstLive chunks with
  | none => rfl
  | some c =>
    have kept : pending.erase c = pending := by
      apply List.filter_eq_self.mpr
      intro entry member
      obtain ⟨owned, below⟩ := earlier entry member
      rw [decide_eq_true_eq]
      intro same
      have modules := (owned.unique (firstLive_owned file found) same).2
      omega
    dsimp only
    rw [kept]
    rfl

private theorem createModules_due (front files : List (List Chunk))
    (place : ctx.files = front ++ files) (pending : Pending)
    (earlier : ∀ entry ∈ pending, Owned ctx entry.1 entry.2 ∧ entry.2 < front.length) :
    (∀ entry ∈ createModules front.length files pending, Owned ctx entry.1 entry.2) ∧
      ∀ i, (createModules front.length files pending).filter (·.2 = i) =
        if i < front.length then pending.filter (·.2 = i)
        else (ctx.files[i]?.bind firstLive).toList.map (·, i) := by
  induction files generalizing front pending with
  -- There is no file left: a module at or past the end has none to contribute.
  | nil =>
    refine ⟨fun entry member => (earlier entry member).1, fun i => ?_⟩
    simp only [createModules]
    split
    · rfl
    · rename_i outside
      rw [place, List.append_nil, List.getElem?_eq_none (by omega)]
      apply List.filter_eq_nil_iff.mpr
      intro entry member
      have below := (earlier entry member).2
      rw [decide_eq_true_eq]
      omega
  | cons chunks rest ih =>
    have file : ctx.files[front.length]? = some chunks := by
      rw [place, List.getElem?_append_right (Nat.le_refl _), Nat.sub_self]
      rfl
    have entered := createModuleDBI_eq file earlier
    -- The contribution of this file comes to stand before those of the files behind it.
    have later := ih (front ++ [chunks]) (by rw [place, List.append_assoc]; rfl)
      (createModuleDBI pending front.length chunks) (by
        intro entry member
        rw [entered, List.mem_append, List.mem_map] at member
        rw [List.length_append, List.length_singleton]
        rcases member with ⟨c, found, rfl⟩ | old
        · exact ⟨firstLive_owned file (by simpa using found), Nat.lt_succ_self _⟩
        · have known := earlier entry old
          exact ⟨known.1, by omega⟩)
    rw [List.length_append, List.length_singleton] at later
    refine ⟨later.1, fun i => ?_⟩
    simp only [createModules]
    rw [later.2 i, entered]
    -- Filtered by module index, one of `pending` is found below this file, its own here and
    -- the rest behind.
    by_cases below : i < front.length
    · rw [if_pos (by omega), if_pos below, List.filter_append, List.filter_eq_nil_iff.mpr,
        List.nil_append]
      intro entry member
      obtain ⟨c, -, rfl⟩ := List.mem_map.mp member
      rw [decide_eq_true_eq]
      dsimp only
      omega
    · rw [if_neg below]
      by_cases here : i = front.length
      · subst i
        rw [if_pos (by omega), file, List.filter_append]
        have noOld : pending.filter (·.2 = front.length) = [] := by
          apply List.filter_eq_nil_iff.mpr
          intro entry member
          have below := (earlier entry member).2
          rw [decide_eq_true_eq]
          omega
        rw [noOld, List.append_nil]
        apply List.filter_eq_self.mpr
        intro entry member
        obtain ⟨c, -, rfl⟩ := List.mem_map.mp member
        exact decide_eq_true rfl
      · rw [if_neg (by omega)]

end Invariant

/-! ### The loop over output sections -/

section Loop

variable {ctx : Context}

/-- A section chunk's contribution names its own module. -/
theorem createSectionContrib_owned {c : Chunk} {i : Nat} (owned : Owned ctx c i) (modi : Nat)
    (dataCrc : BitVec 32) : ctx.createSectionContrib (some c) modi dataCrc =
      ctx.createSectionContrib (some c) i dataCrc := by
  obtain ⟨s, sec, -⟩ := owned.file
  simp [Context.createSectionContrib, sec]

private theorem addChunk_balance {crcs : List (BitVec 32)} {s : State} (balance : Balance ctx s)
    {c : Chunk} (inSections : c ∈ ctx.chunks)
    (crc : crcs.getD s.chunkIndex 0 = sectionContribDataCrc (some c)) :
    Balance ctx (addChunk ctx crcs s c) := by
  rw [addChunk]
  dsimp only
  rw [crc]
  cases found : s.pending.find c with
  | none => exact ⟨balance.owned, balance.due⟩
  | some entry =>
    obtain ⟨c', moduleIndex⟩ := entry
    have member : (c', moduleIndex) ∈ s.pending := List.mem_of_find?_eq_some found
    have sameKey : c'.key = c.key := by simpa using List.find?_some found
    have owned := balance.owned _ member
    obtain rfl : c' = c := ctx.identity c' owned.known c
      (List.mem_append.mpr (.inr inSections)) sameKey
    refine ⟨fun e inRest => balance.owned e (List.mem_of_mem_filter inRest), fun i => ?_⟩
    dsimp only
    have due := balance.due i
    by_cases here : moduleIndex = i
    · subst i
      -- the module has no more than one contribution due, and this is it
      have waiting : (c', moduleIndex) ∈ s.pending.filter (·.2 = moduleIndex) :=
        List.mem_filter.mpr ⟨member, decide_eq_true rfl⟩
      have few := length_dueContrib ctx moduleIndex
      rw [← due, List.length_append, List.length_map, List.length_map] at few
      obtain ⟨e, one⟩ : ∃ e, s.pending.filter (·.2 = moduleIndex) = [e] := by
        apply List.length_eq_one_iff.mp
        have some_ := List.length_pos_of_mem waiting
        omega
      rw [one, List.mem_singleton] at waiting
      subst e
      have unset : s.first.filter (·.1 = moduleIndex) = [] := by
        apply List.length_eq_zero_iff.mp
        rw [one, List.length_singleton] at few
        omega
      have gone : (s.pending.erase c').filter (·.2 = moduleIndex) = [] := by
        simp only [Pending.erase]
        rw [List.filter_comm, one]
        simp
      rw [one, unset] at due
      rw [gone, List.filter_append, unset, ← due]
      simp [Context.directContrib, createSectionContrib_owned owned ctx.linkerModule]
    · have others : (s.pending.erase c').filter (·.2 = i) = s.pending.filter (·.2 = i) := by
        simp only [Pending.erase]
        rw [List.filter_comm]
        apply List.filter_eq_self.mpr
        intro e inModule
        obtain ⟨inPending, isModule⟩ := List.mem_filter.mp inModule
        rw [decide_eq_true_eq]
        intro sameChunk
        have modules := ((balance.owned e inPending).unique owned sameChunk).2
        rw [decide_eq_true_eq] at isModule
        omega
      rw [others, List.filter_append, List.filter_cons_of_neg (by simpa using here),
        List.filter_nil, List.append_nil]
      exact due

private theorem addChunk_contribs (crcs : List (BitVec 32)) (s : State) (c : Chunk) :
    (addChunk ctx crcs s c).chunkIndex = s.chunkIndex + 1 ∧
      (addChunk ctx crcs s c).sectionContribs = s.sectionContribs ++
        [ctx.createSectionContrib (some c) ctx.linkerModule (crcs.getD s.chunkIndex 0)] := by
  rw [addChunk]
  dsimp only
  split <;> exact ⟨rfl, rfl⟩

/-- The counter stays with the nested loop. -/
theorem addChunks_spec (done rest : List Chunk) (place : ctx.chunks = done ++ rest) (s : State)
    (balance : Balance ctx s) (index : s.chunkIndex = done.length) :
    Balance ctx (rest.foldl (addChunk ctx (ctx.chunks.map (fun c =>
        sectionContribDataCrc (some c)))) s) ∧
      (rest.foldl (addChunk ctx (ctx.chunks.map (fun c =>
          sectionContribDataCrc (some c)))) s).sectionContribs =
        s.sectionContribs ++ rest.map (ctx.directContrib ctx.linkerModule) := by
  induction rest generalizing done s with
  | nil => exact ⟨balance, by simp⟩
  | cons c rest ih =>
    have crc : (ctx.chunks.map (fun c => sectionContribDataCrc (some c))).getD s.chunkIndex 0 =
        sectionContribDataCrc (some c) := by
      rw [index, List.getD_eq_getElem?_getD, List.getElem?_map, place,
        List.getElem?_append_right (Nat.le_refl _), Nat.sub_self]
      rfl
    have member : c ∈ ctx.chunks := by simp [place]
    obtain ⟨next, contribs⟩ := @addChunk_contribs ctx (ctx.chunks.map (fun c =>
      sectionContribDataCrc (some c))) s c
    obtain ⟨balanced, later⟩ := ih (done ++ [c]) (by rw [place, List.append_assoc]; rfl)
      (addChunk ctx _ s c) (addChunk_balance balance member crc) (by rw [next, index]; simp)
    rw [List.foldl_cons]
    refine ⟨balanced, ?_⟩
    rw [later, contribs, crc, List.append_assoc]
    rfl

end Loop

/-! ### The result -/

/-- The contributions that direct calls would give. -/
structure MatchesDirect (ctx : Context) (r : State) : Prop where
  sections : r.sectionContribs =
    ctx.outputSections.flatMap (fun os => os.chunks.map (ctx.directContrib ctx.linkerModule))
  modules : ∀ (i : Nat) (chunks : List Chunk), ctx.files[i]? = some chunks →
    (r.first.filter (·.1 = i)).map (·.2) = (firstLive chunks).toList.map (ctx.directContrib i)
  linker : (r.first.filter (·.1 = ctx.linkerModule)).map (·.2) =
    [ctx.createSectionContrib none kInvalidStreamIndex 0]
  others : ∀ call ∈ r.first, call.1 < ctx.files.length ∨ call.1 = ctx.linkerModule

private theorem perm_of_le_one {α : Type*} {xs ys : List α} (perm : xs.Perm ys)
    (few : ys.length ≤ 1) :
    xs = ys := by
  match ys, few with
  | [], _ => exact perm.eq_nil
  | [y], _ => exact perm.eq_singleton

private theorem addOutputSections_spec (ctx : Context) (schedule : Schedule ctx.chunks) :
    Balance ctx (addOutputSections ctx (dataCrcs ctx.chunks schedule)) ∧
      (addOutputSections ctx (dataCrcs ctx.chunks schedule)).sectionContribs =
        ctx.chunks.map (ctx.directContrib ctx.linkerModule) := by
  obtain ⟨owned, due⟩ := @createModules_due ctx [] ctx.files rfl [] (by simp)
  have start : Balance ctx ⟨0, [], [], createModules 0 ctx.files []⟩ := by
    refine ⟨owned, fun i => ?_⟩
    have entries := due i
    rw [if_neg (by simp)] at entries
    change [] ++ ((createModules 0 ctx.files []).filter (·.2 = i)).map _ = _
    rw [List.nil_append]
    refine (congrArg (List.map _) entries).trans ?_
    rw [List.map_map]
    rfl
  rw [addOutputSections, dataCrcs_eq, ← List.foldl_flatMap]
  exact addChunks_spec [] ctx.chunks rfl _ start rfl

/-- Whatever the order of the map, each module gets what it is due. -/
theorem drainPending_first (ctx : Context) {s : State} (balance : Balance ctx s)
    (iterate : Pending → Pending) (perm : ∀ pending, (iterate pending).Perm pending) (i : Nat) :
    ((drainPending ctx iterate s).first.filter (·.1 = i)).map (·.2) = dueContrib ctx i := by
  have due := balance.due i
  have few := length_dueContrib ctx i
  rw [← due, List.length_append, List.length_map, List.length_map] at few
  have same : (iterate s.pending).filter (·.2 = i) = s.pending.filter (·.2 = i) :=
    perm_of_le_one ((perm s.pending).filter _) (by omega)
  rw [drainPending]
  dsimp only
  rw [List.filter_append, List.map_append, ← due, List.filter_map, List.map_map, ← same]
  congr 1
  apply List.map_congr_left
  intro entry member
  obtain ⟨-, isModule⟩ := List.mem_filter.mp member
  obtain rfl : entry.2 = i := by simpa using isModule
  rfl

private theorem dueContrib_of_file (ctx : Context) {i : Nat} {chunks : List Chunk}
    (file : ctx.files[i]? = some chunks) :
    dueContrib ctx i = (firstLive chunks).toList.map (ctx.directContrib i) := by
  rw [dueContrib, file]
  rfl

private theorem dueContrib_beyond (ctx : Context) {i : Nat} (beyond : ctx.files.length ≤ i) :
    dueContrib ctx i = [] := by
  rw [dueContrib, List.getElem?_eq_none beyond]
  rfl

/-- A dead chunk and a live one that is written. -/
def deadText : Chunk := ⟨1, 0, 4, 0, some ⟨0, false, 0x60500020, [0x90, 0x90, 0x90, 0xC3]⟩⟩

def liveText : Chunk := ⟨2, 0x1000, 2, 1, some ⟨0, true, 0x60500020, [0x90, 0xC3]⟩⟩

/-- The first live chunk of its file has been merged: no output section lists it. -/
def mergedString : Chunk := ⟨3, 0x2000, 3, 2, some ⟨1, true, 0x40301040, [0x61, 0x62, 0]⟩⟩

def laterText : Chunk := ⟨4, 0x1010, 1, 1, some ⟨1, true, 0x60500020, [0xC3]⟩⟩

def mergeChunk : Chunk := ⟨5, 0x2000, 3, 2, none⟩

/-- Two files with code, and one without live chunks. -/
def threeFiles : Context where
  files := [[deadText, liveText], [mergedString, laterText], []]
  outputSections := [⟨0x1000, 1, 0x60000020, [liveText, laterText]⟩, ⟨0x2000, 2, 0x40000040, [mergeChunk]⟩]
  linkerModule := 3
  linker_last := by decide
  identity := by decide
  owned := by
    intro i chunks file
    match i with
    | 0 | 1 =>
      cases file
      decide
    | 2 =>
      cases file
      simp
    | i + 3 => cases file

/-- The CRCs are computed from the back, and the map is iterated from its end. -/
def backwards : Schedule threeFiles.chunks where
  order := [2, 1, 0]
  order_perm := by decide
  iterate := List.reverse
  iterate_perm := List.reverse_perm

-- The merged chunk is still pending when all output sections are done.
example : (addSections threeFiles backwards).first.map (·.1) = [0, 1, 3] := by decide

end LlvmLd.Pdb.Contribs
