import LlvmLd.Idata.Create
import Mathlib.Data.List.Infix

/-!
The tables of all DLLs: what one call of the loop over the bins adds, that later DLLs leave it alone,
and so where each DLL's imports stand in the finished tables and in the tables of the EC view.
-/

namespace LlvmLd.Idata

open LlvmLd.Writer (Machine)

variable {ι : Type} [DecidableEq ι] {file : ι → ImportFile} {target : Machine} {H : ι → Option ι}

/-! ### One DLL -/

/-- The slots that the directory entry itself skips. -/
def writtenSkip (target : Machine) (natives : Nat) : Nat :=
  if target = .arm64ec then uint32 natives else 0

/-- The slots that the EC view skips. -/
def ecSkip (natives : Nat) : Nat := skippedSlots (uint32 natives)

def deltaRelocs (target : Machine) (dir nativeOnly : Nat) : List Arm64XReloc :=
  if target = .arm64x ∧ nativeOnly ≠ 0 then
    [⟨.delta, 0, chunkPtr (.dirs dir) lookupTabOffset, number (nativeOnly * 8)⟩,
      ⟨.delta, 0, chunkPtr (.dirs dir) addressTabOffset, number (nativeOnly * 8)⟩]
  else []

/-- What `createDll` adds for the imports `out`, of which the first `natives` are native only. -/
structure DllAdded (file : ι → ImportFile) (target : Machine) (H : ι → Option ι)
    (t t' : IdataContents ι) (natives : Nat) (out : List ι) (slots : List Slot)
    (relocs : List Arm64XReloc) : Prop where
  lookups : t'.lookups = t.lookups ++ slots
  addresses : t'.addresses = t.addresses ++ slots
  hints : t.hints <+: t'.hints
  relocs : t'.relocs = t.relocs ++ (relocs ++ deltaRelocs target t.dirs.length (uint32 natives))
  dirs : t'.dirs = t.dirs ++ [.directory ⟨t.dllNames.length,
    t.lookups.length + writtenSkip target natives, t.lookups.length + writtenSkip target natives⟩]
  dllNames : t'.dllNames = t.dllNames ++ (out.head?.map (fun f => (file f).dllName)).toList
  location : t'.location = setLocations H t.lookups.length out t.location
  auxIat : t'.auxIat =
    t.auxIat ++ if hybrid target then out.map (auxSlot file target) ++ [.null] else []
  auxIatCopy : t'.auxIatCopy =
    t.auxIatCopy ++ if hybrid target then out.map (auxSlot file target) ++ [.null] else []
  auxLocation : ∀ i f, out[i]? = some f → isEC file target f = true →
    t'.auxLocation f = some (t.auxIat.length + i) ∧
      t'.auxCopyLocation f = some (t.auxIatCopy.length + i)
  auxOthers : ∀ f ∉ out, t'.auxLocation f = t.auxLocation f ∧
    t'.auxCopyLocation f = t.auxCopyLocation f

/-- The symbols of a DLL, and how the tables go on behind them. -/
theorem createDll_fields (t : IdataContents ι) (syms : List ι) (d : DllState ι)
    (ran : syms.foldl (addSymbol file target H (t.lookups.length + syms.length))
      ⟨t, none, none, 0⟩ = d) :
    createDll file target H t syms =
      { d.contents with
        lookups := d.contents.lookups ++ [d.lookupsTerminator.getD .null]
        addresses := d.contents.addresses ++ [d.addressesTerminator.getD .null]
        auxIat := d.contents.auxIat ++ if hybrid target then [.null] else []
        auxIatCopy := d.contents.auxIatCopy ++ if hybrid target then [.null] else []
        location := setLocations H t.lookups.length syms d.contents.location
        dllNames := d.contents.dllNames ++ (syms.head?.map (fun s => (file s).dllName)).toList
        relocs := d.contents.relocs ++
          if hybrid target && d.nativeOnly != 0 && target == .arm64x then
            [⟨.delta, 0, chunkPtr (.dirs d.contents.dirs.length) lookupTabOffset,
                number (d.nativeOnly * 8)⟩,
              ⟨.delta, 0, chunkPtr (.dirs d.contents.dirs.length) addressTabOffset,
                number (d.nativeOnly * 8)⟩]
          else []
        dirs := d.contents.dirs ++ [.directory
          ⟨(d.contents.dllNames ++
              (syms.head?.map (fun s => (file s).dllName)).toList).length - 1,
            if hybrid target && d.nativeOnly != 0 && target != .arm64x then
              t.lookups.length + d.nativeOnly
            else t.lookups.length,
            if hybrid target && d.nativeOnly != 0 && target != .arm64x then
              t.lookups.length + d.nativeOnly
            else t.lookups.length⟩] } := by
  simp only [createDll, ran]
  cases merges : hybrid target <;> simp

private theorem createDll_added {syms ns hs es : List ι}
    (merged : Merged file target H syms ns hs es) (nodup : (ns ++ hs ++ es).Nodup)
    (some' : ns ++ hs ++ es ≠ []) (t : IdataContents ι) :
    ∃ d cs written relocs shown, DllRun file target t ns hs es d cs written relocs shown ∧
      DllAdded file target H t (createDll file target H t (ns ++ hs ++ es)) ns.length
        (ns ++ hs ++ es) (written ++ [d.lookupsTerminator.getD .null]) relocs ∧
      (createDll file target H t (ns ++ hs ++ es)).hints = d.contents.hints := by
  obtain ⟨cs, written, relocs, shown, run⟩ := addSymbols_dll merged nodup t
  have fields := @createDll_fields _ _ file target H t (ns ++ hs ++ es) _ rfl
  generalize (ns ++ hs ++ es).foldl (addSymbol file target H
      (t.lookups.length + (ns ++ hs ++ es).length)) ⟨t, none, none, 0⟩ = d at *
  have added := run.added
  have counted := added.nativeOnly
  rw [merged.runs.nativeCount_eq, Nat.zero_add] at counted
  obtain ⟨first, rest, whole⟩ := List.exists_cons_of_ne_nil some'
  -- The offset and the deltas use the count of natives, which is kept only for a hybrid image.
  have skip : (if hybrid target && d.nativeOnly != 0 && target != .arm64x then
        t.lookups.length + d.nativeOnly
      else t.lookups.length) = t.lookups.length + writtenSkip target ns.length := by
    rcases counted with ⟨-, plain⟩ | ⟨count, merges⟩
    · have other : target ≠ .arm64ec := by
        rintro rfl
        cases plain
      simp [writtenSkip, plain, other]
    · rw [count]
      cases target <;> simp_all [writtenSkip, hybrid, Machine.isArm64EC]
  have deltas : (if hybrid target && d.nativeOnly != 0 && target == .arm64x then
        [⟨.delta, 0, chunkPtr (.dirs d.contents.dirs.length) lookupTabOffset,
            number (d.nativeOnly * 8)⟩,
          ⟨.delta, 0, chunkPtr (.dirs d.contents.dirs.length) addressTabOffset,
            number (d.nativeOnly * 8)⟩]
      else []) = deltaRelocs target t.dirs.length (uint32 ns.length) := by
    rw [added.dirs]
    rcases counted with ⟨-, plain⟩ | ⟨count, merges⟩
    · have other : target ≠ .arm64x := by
        rintro rfl
        cases plain
      simp [deltaRelocs, plain, other]
    · rw [count]
      cases target <;> simp_all [deltaRelocs, hybrid, Machine.isArm64EC]
  have last : (d.contents.dllNames ++
      ((ns ++ hs ++ es).head?.map (fun s => (file s).dllName)).toList).length - 1 =
        t.dllNames.length := by
    rw [added.dllNames, whole]
    simp
  -- With these named, every table is the loop's table and what `createDll` puts behind it.
  rw [skip, deltas, last] at fields
  refine ⟨d, cs, written, relocs, shown, run, ?_, by rw [fields]⟩
  rw [fields]
  refine ⟨?_, ?_, added.hints, ?_, ?_, ?_, ?_, ?_, ?_, ?_, added.aux.others⟩
  · dsimp only
    rw [added.lookups, List.append_assoc]
  · dsimp only
    rw [added.addresses, run.terminators, List.append_assoc]
  · dsimp only
    rw [added.relocs, List.append_assoc]
  · dsimp only
    rw [added.dirs]
  · dsimp only
    rw [added.dllNames]
  · dsimp only
    rw [added.location]
  · dsimp only
    rw [added.aux.iat]
    split_ifs <;> simp
  · dsimp only
    rw [added.aux.copy]
    split_ifs <;> simp
  · intro i f found ec
    exact ⟨added.aux.location i f found ec, added.aux.copyLocation i f found ec⟩

/-! ### The EC view of one DLL -/

/-- The relocations that `create` records; the chunks they apply to exist. -/
inductive Recorded (t : IdataContents ι) : Arm64XReloc → Prop
  | lookup (i : Nat) (val : Arm64XRelocVal) (below : i < t.lookups.length) (shape : SlotVal val) :
    Recorded t ⟨.value, 8, chunkPtr (.lookups i) 0, val⟩
  | address (i : Nat) (val : Arm64XRelocVal) (below : i < t.addresses.length) (shape : SlotVal val) :
    Recorded t ⟨.value, 8, chunkPtr (.addresses i) 0, val⟩
  | lookupEnd (i : Nat) (below : i < t.lookups.length) :
    Recorded t ⟨.zeroFill, 8, chunkPtr (.lookups i) 0, number 0⟩
  | addressEnd (i : Nat) (below : i < t.addresses.length) :
    Recorded t ⟨.zeroFill, 8, chunkPtr (.addresses i) 0, number 0⟩
  | lookupTab (i n : Nat) (below : i < t.dirs.length) (natives : n < t.lookups.length) :
    Recorded t ⟨.delta, 0, chunkPtr (.dirs i) lookupTabOffset, number (n * 8)⟩
  | addressTab (i n : Nat) (below : i < t.dirs.length) (natives : n < t.lookups.length) :
    Recorded t ⟨.delta, 0, chunkPtr (.dirs i) addressTabOffset, number (n * 8)⟩

omit [DecidableEq ι] in
theorem Recorded.mono {t t' : IdataContents ι} {r : Arm64XReloc} (recorded : Recorded t r)
    (lookups : t.lookups.length ≤ t'.lookups.length)
    (addresses : t.addresses.length ≤ t'.addresses.length)
    (dirs : t.dirs.length ≤ t'.dirs.length) : Recorded t' r := by
  cases recorded with
  | lookup i val below shape => exact .lookup i val (Nat.lt_of_lt_of_le below lookups) shape
  | address i val below shape => exact .address i val (Nat.lt_of_lt_of_le below addresses) shape
  | lookupEnd i below => exact .lookupEnd i (Nat.lt_of_lt_of_le below lookups)
  | addressEnd i below => exact .addressEnd i (Nat.lt_of_lt_of_le below addresses)
  | lookupTab i n below natives =>
    exact .lookupTab i n (Nat.lt_of_lt_of_le below dirs) (Nat.lt_of_lt_of_le natives lookups)
  | addressTab i n below natives =>
    exact .addressTab i n (Nat.lt_of_lt_of_le below dirs) (Nat.lt_of_lt_of_le natives lookups)

omit [DecidableEq ι] in
private theorem Recorded.inTables {t : IdataContents ι} {r : Arm64XReloc}
    (recorded : Recorded t r) :
    InTables t r := by
  cases recorded <;> assumption

structure TablesInv (target : Machine) (t : IdataContents ι) : Prop where
  even : t.addresses.length = t.lookups.length
  aux : hybrid target = true →
    t.auxIat.length = t.lookups.length ∧ t.auxIatCopy.length = t.lookups.length
  plain : hybrid target = false → t.auxIat = [] ∧ t.auxIatCopy = []
  names : t.dllNames.length = t.dirs.length
  relocs : ∀ r ∈ t.relocs, Recorded t r
  directories : ∀ c ∈ t.dirs, ∃ d, c = .directory d

private theorem Block.keeps_dirs {base shown : Nat} {cs written : List Slot} {term : Option Slot}
    {relocs : List Arm64XReloc} (block : Block base cs written term relocs shown)
    (dirs : List DirChunk) : relocs.foldl patchDirs dirs = dirs := by
  cases block with
  | plain => rfl
  | split => rfl

private theorem deltaRelocs_keep_lookups (dir n : Nat) (table : List Slot) :
    (deltaRelocs target dir n).foldl (patchSlots lookupsIndex) table = table := by
  simp only [deltaRelocs]
  split_ifs <;> rfl

private theorem deltaRelocs_keep_addresses (dir n : Nat) (table : List Slot) :
    (deltaRelocs target dir n).foldl (patchSlots addressesIndex) table = table := by
  simp only [deltaRelocs]
  split_ifs <;> rfl

private theorem deltaRelocs_dirs (dirs : List DirChunk) (j first n : Nat)
    (onArm64x : target = .arm64x) :
    (deltaRelocs target dirs.length n).foldl patchDirs (dirs ++ [.directory ⟨j, first, first⟩]) =
      dirs ++ [.directory ⟨j, first + skippedSlots n, first + skippedSlots n⟩] := by
  simp only [deltaRelocs]
  by_cases none' : n = 0
  · subst none'
    have zero : skippedSlots 0 = 0 := skippedSlots_small 0 (by decide)
    simp [zero]
  · rw [if_pos ⟨onArm64x, none'⟩]
    simp only [List.foldl_cons, List.foldl_nil, patchDirs, chunkPtr]
    rw [modify_append_last, modify_append_last]
    simp [shiftDir, lookupTabOffset, addressTabOffset, number, skippedSlots]

/-- Where the directory entry leads in the EC view. -/
def patchedSkip (target : Machine) (natives : Nat) : Nat :=
  if target = .arm64x then ecSkip natives else writtenSkip target natives

theorem DllAdded.patched_eq {t t' : IdataContents ι} {natives shown : Nat} {out : List ι}
    {cs written : List Slot} {term : Option Slot} {relocs : List Arm64XReloc}
    (added : DllAdded file target H t t' natives out (written ++ [term.getD .null]) relocs)
    (block : Block t.lookups.length cs written term relocs shown) (inv : TablesInv target t) :
    t'.patched.lookups = t.patched.lookups ++ (cs ++ [.null]) ∧
      t'.patched.addresses = t.patched.addresses ++ (cs ++ [.null]) ∧
      t'.patched.dirs = t.patched.dirs ++ [.directory ⟨t.dllNames.length,
        t.lookups.length + patchedSkip target natives,
        t.lookups.length + patchedSkip target natives⟩] := by
  refine ⟨?_, ?_, ?_⟩
  -- The relocations of earlier DLLs stay within the earlier slots, so each part is patched by its
  -- own.
  · have inside : ∀ r ∈ t.relocs, ∀ i, r.offset.chunk.bind lookupsIndex = some i →
        i < t.lookups.length := by
      intro r member i place
      have bound := (inv.relocs r member).inTables
      simp only [InTables] at bound
      cases chunk : r.offset.chunk with
      | none => simp [chunk] at place
      | some c =>
        cases c <;> simp_all [lookupsIndex]
    simp only [IdataContents.patched]
    rw [added.relocs, added.lookups, List.foldl_append, List.foldl_append,
      patchAll_append _ _ _ _ inside, block.patched_lookups _ (patchAll_length _ _ _),
      deltaRelocs_keep_lookups]
  · have inside : ∀ r ∈ t.relocs, ∀ i, r.offset.chunk.bind addressesIndex = some i →
        i < t.addresses.length := by
      intro r member i place
      have bound := (inv.relocs r member).inTables
      simp only [InTables] at bound
      cases chunk : r.offset.chunk with
      | none => simp [chunk] at place
      | some c =>
        cases c <;> simp_all [addressesIndex]
    have here := (patchAll_length addressesIndex t.relocs t.addresses).trans inv.even
    simp only [IdataContents.patched]
    rw [added.relocs, added.addresses, List.foldl_append, List.foldl_append,
      patchAll_append _ _ _ _ inside, block.patched_addresses _ here, deltaRelocs_keep_addresses]
  -- The directory entry moves as well, by the deltas of an ARM64X image.
  · have inside : ∀ r ∈ t.relocs, ∀ i, r.offset.chunk = some (.dirs i) → i < t.dirs.length := by
      intro r member i place
      have bound := (inv.relocs r member).inTables
      simp only [InTables] at bound
      simpa [place] using bound
    simp only [IdataContents.patched]
    rw [added.relocs, added.dirs, List.foldl_append, List.foldl_append,
      patchAllDirs_append _ _ _ inside, block.keeps_dirs]
    by_cases onArm64x : target = .arm64x
    · have whole := patchAllDirs_length t.relocs t.dirs
      rw [← whole, deltaRelocs_dirs _ _ _ _ onArm64x]
      simp [patchedSkip, ecSkip, writtenSkip, onArm64x]
    · simp [deltaRelocs, patchedSkip, onArm64x]

omit [DecidableEq ι] in
theorem Block.recorded {base shown : Nat} {cs written : List Slot} {term : Option Slot}
    {relocs : List Arm64XReloc} (block : Block base cs written term relocs shown)
    (t : IdataContents ι) (lookups : base + (written ++ [term.getD .null]).length = t.lookups.length)
    (even : t.addresses.length = t.lookups.length) : ∀ r ∈ relocs, Recorded t r := by
  cases block with
  | plain => simp
  | split front c behind val whole value shape =>
    have len : cs.length = front.length + (behind.length + 1) := by
      rw [whole, List.length_append, List.length_cons]
    simp only [List.length_append, List.length_cons, List.length_nil] at lookups
    simp only [terminatorRelocs, List.mem_cons, List.not_mem_nil, or_false]
    rintro r (rfl | rfl | rfl | rfl)
    · exact .lookup _ val (by omega) shape
    · exact .address _ val (by omega) shape
    · exact .lookupEnd _ (by omega)
    · exact .addressEnd _ (by omega)

theorem DllAdded.inv {t t' : IdataContents ι} {natives shown : Nat} {out : List ι}
    {cs written : List Slot} {term : Option Slot} {relocs : List Arm64XReloc}
    (added : DllAdded file target H t t' natives out (written ++ [term.getD .null]) relocs)
    (block : Block t.lookups.length cs written term relocs shown)
    (width : written.length = out.length) (counted : natives ≤ out.length) (some' : out ≠ [])
    (inv : TablesInv target t) : TablesInv target t' := by
  -- One slot for each import and the terminator, in the lookups as in the addresses.
  have slots : t'.lookups.length = t.lookups.length + (written ++ [term.getD .null]).length := by
    rw [added.lookups, List.length_append]
  have even : t'.addresses.length = t'.lookups.length := by
    rw [added.addresses, List.length_append, inv.even, slots]
  have dirs : t'.dirs.length = t.dirs.length + 1 := by
    rw [added.dirs, List.length_append, List.length_singleton]
  refine ⟨even, ?_, ?_, ?_, ?_, ?_⟩
  -- A hybrid image has an auxiliary slot beside each of them,
  · intro merges
    obtain ⟨iat, copy⟩ := inv.aux merges
    rw [added.auxIat, added.auxIatCopy, if_pos merges, slots]
    simp only [List.length_append, List.length_map, List.length_singleton, iat, copy, width,
      and_self]
  -- any other has none.
  · intro plain
    obtain ⟨iat, copy⟩ := inv.plain plain
    rw [added.auxIat, added.auxIatCopy, iat, copy]
    simp [plain]
  · obtain ⟨f, rest, rfl⟩ := List.exists_cons_of_ne_nil some'
    rw [added.dllNames, added.dirs]
    simp [inv.names]
  · intro r member
    rw [added.relocs, List.mem_append, List.mem_append] at member
    rcases member with old | new | delta
    · apply (inv.relocs r old).mono
      · omega
      · rw [even, slots, inv.even]
        exact Nat.le_add_right _ _
      · omega
    · exact block.recorded t' slots.symm even r new
    -- The deltas move a directory within the slots of its own DLL.
    · have few : uint32 natives < t'.lookups.length := by
        have cut : uint32 natives ≤ natives := Nat.mod_le _ _
        rw [List.length_append, width, List.length_singleton] at slots
        omega
      simp only [deltaRelocs] at delta
      split_ifs at delta
      · simp only [List.mem_cons, List.not_mem_nil, or_false] at delta
        rcases delta with rfl | rfl
        · exact .lookupTab _ _ (by omega) few
        · exact .addressTab _ _ (by omega) few
      · cases delta
  · intro c member
    rw [added.dirs, List.mem_append, List.mem_singleton] at member
    rcases member with old | rfl
    · exact inv.directories c old
    · exact ⟨_, rfl⟩

/-! ### Locations -/

private theorem setLocations_other (i : Nat) (syms : List ι) (location : ι → Option Nat) (f : ι)
    (outside : f ∉ syms ++ syms.filterMap H) :
    setLocations H i syms location f = location f := by
  induction syms generalizing i location with
  | nil => rfl
  | cons s syms ih =>
    rw [List.mem_append, not_or, List.mem_cons, not_or] at outside
    obtain ⟨⟨notSelf, notLater⟩, notPartner⟩ := outside
    have later : f ∉ syms ++ syms.filterMap H := by
      rw [List.mem_append, not_or]
      refine ⟨notLater, ?_⟩
      intro member
      obtain ⟨g, inside, half⟩ := List.mem_filterMap.mp member
      exact notPartner (List.mem_filterMap.mpr ⟨g, List.mem_cons_of_mem _ inside, half⟩)
    rw [setLocations, ih _ _ later]
    cases partner : H s with
    | none => exact Function.update_of_ne notSelf _ _
    | some g =>
      have other : f ≠ g := by
        rintro rfl
        exact notPartner (List.mem_filterMap.mpr ⟨s, List.mem_cons_self, partner⟩)
      dsimp only
      rw [Function.update_of_ne other, Function.update_of_ne notSelf]

private theorem setLocations_at (i k : Nat) (syms : List ι) (location : ι → Option Nat) (f : ι)
    (nodup : (syms ++ syms.filterMap H).Nodup) (found : syms[k]? = some f) :
    setLocations H i syms location f = some (i + k) ∧
      ∀ g, H f = some g → setLocations H i syms location g = some (i + k) := by
  induction syms generalizing i k location with
  | nil => simp at found
  | cons s syms ih =>
    have whole : (s :: syms).filterMap H = (H s).toList ++ syms.filterMap H := by
      rw [List.filterMap_cons]
      cases H s <;> rfl
    rw [whole] at nodup
    -- No symbol is listed twice, nor is a partner listed: so a location is set once.
    have moved : (s :: syms ++ ((H s).toList ++ syms.filterMap H)).Perm
        ((s :: (H s).toList) ++ (syms ++ syms.filterMap H)) := by
      rw [List.cons_append, List.cons_append]
      apply List.Perm.cons
      rw [← List.append_assoc, ← List.append_assoc]
      exact List.Perm.append_right _ List.perm_append_comm
    obtain ⟨nodupHere, nodupLater, apart⟩ := List.nodup_append.mp (moved.nodup_iff.mp nodup)
    rw [setLocations]
    cases k with
    | zero =>
      cases found
      have self : f ∉ syms ++ syms.filterMap H := fun member =>
        apart f List.mem_cons_self f member rfl
      rw [setLocations_other _ _ _ f self]
      cases partner : H f with
      | none => exact ⟨Function.update_self _ _ _, by simp⟩
      | some g =>
        rw [partner, Option.toList_some] at nodupHere
        have other : f ≠ g := by
          rintro rfl
          exact (List.nodup_cons.mp nodupHere).1 List.mem_cons_self
        refine ⟨?_, ?_⟩
        · dsimp only
          rw [Function.update_of_ne other, Function.update_self]
          rfl
        · intro g' half
          cases half
          have partnerOut : g ∉ syms ++ syms.filterMap H := fun member =>
            apart g (by simp [partner]) g member rfl
          rw [setLocations_other _ _ _ g partnerOut]
          exact Function.update_self _ _ _
    | succ k =>
      rw [List.getElem?_cons_succ] at found
      have same : i + (k + 1) = i + 1 + k := by omega
      rw [same]
      exact ih (i + 1) k _ nodupLater found

/-! ### Where the imports of a DLL stand -/

/-- From `first` on, the table shows slots for the requests and then a null slot. -/
def Leads (hints : List HintNameChunk) (table : List Slot) (first : Nat) (requests : List Request) :
    Prop :=
  ∃ slots, SlotsAsk hints slots requests ∧ slots ++ [.null] <+: table.drop first

theorem Leads.mono {hints hints' : List HintNameChunk} {table table' : List Slot} {first : Nat}
    {requests : List Request} (leads : Leads hints table first requests) (more : hints <+: hints')
    (longer : table <+: table') : Leads hints' table' first requests := by
  obtain ⟨slots, ask, shown⟩ := leads
  exact ⟨slots, ask.mono more, shown.trans (List.IsPrefix.drop longer first)⟩

/-- The slots of a list that starts at `base`, from its `skip`-th on. -/
theorem leads_append (hints : List HintNameChunk) (table slots more : List Slot) (base skip : Nat)
    (requests : List Request) (here : table.length = base) (ask : SlotsAsk hints slots requests)
    (inside : skip ≤ slots.length) (shown : slots ++ [.null] <+: more) :
    Leads hints (table ++ more) (base + skip) (requests.drop skip) := by
  refine ⟨slots.drop skip, ask.drop skip, ?_⟩
  subst here
  rw [← List.drop_drop, List.drop_left]
  have dropped := List.IsPrefix.drop shown skip
  rw [List.drop_append_of_le_length inside] at dropped
  exact dropped

structure DirLeads (t : IdataContents ι) (j first : Nat) (requests : List Request) : Prop where
  dir : t.dirs[j]? = some (.directory ⟨j, first, first⟩)
  lookups : Leads t.hints t.lookups first requests
  addresses : Leads t.hints t.addresses first requests

/-- What the bytes as written show of a DLL: all its imports, or all but the EC-only ones. -/
def writtenImports (target : Machine) (ns hs es : List ι) : List ι :=
  if target = .arm64x then ns ++ hs
  else (ns ++ hs ++ es).drop (writtenSkip target ns.length)

def ecImports (ns hs es : List ι) : List ι := (ns ++ hs ++ es).drop (ecSkip ns.length)

/-- The finished tables have the imports of a DLL: its entry is the `j`-th, and its slots start at
`base`. -/
structure Tabled (file : ι → ImportFile) (target : Machine) (H : ι → Option ι)
    (t : IdataContents ι) (j base : Nat) (ns hs es : List ι) : Prop where
  name : ∃ f, (ns ++ hs ++ es).head? = some f ∧ t.dllNames[j]? = some (file f).dllName
  written : DirLeads t j (base + writtenSkip target ns.length)
    ((writtenImports target ns hs es).map (asks file))
  patched : target = .arm64x →
    DirLeads t.patched j (base + ecSkip ns.length) ((ecImports ns hs es).map (asks file))
  location : ∀ i f, (ns ++ hs ++ es)[i]? = some f →
    t.location f = some (base + i) ∧ ∀ g, H f = some g → t.location g = some (base + i)
  room : base + (ns ++ hs ++ es).length < t.addresses.length
  aux : hybrid target = true → ∀ i f, (ns ++ hs ++ es)[i]? = some f →
    t.auxIat[base + i]? = some (auxSlot file target f) ∧
      t.auxIatCopy[base + i]? = some (auxSlot file target f) ∧
      (isEC file target f = true →
        t.auxLocation f = some (base + i) ∧ t.auxCopyLocation f = some (base + i))
  auxEnd : hybrid target = true → t.auxIat[base + (ns ++ hs ++ es).length]? = some .null ∧
    t.auxIatCopy[base + (ns ++ hs ++ es).length]? = some .null

/-- Later tables: they go on where the earlier ones end, and the files of `old` stay. -/
structure Extends (t t' : IdataContents ι) (old : List ι) : Prop where
  dirs : t.dirs <+: t'.dirs
  lookups : t.lookups <+: t'.lookups
  addresses : t.addresses <+: t'.addresses
  hints : t.hints <+: t'.hints
  dllNames : t.dllNames <+: t'.dllNames
  auxIat : t.auxIat <+: t'.auxIat
  auxIatCopy : t.auxIatCopy <+: t'.auxIatCopy
  patchedDirs : t.patched.dirs <+: t'.patched.dirs
  patchedLookups : t.patched.lookups <+: t'.patched.lookups
  patchedAddresses : t.patched.addresses <+: t'.patched.addresses
  location : ∀ f ∈ old, t'.location f = t.location f
  auxLocation : ∀ f ∈ old, t'.auxLocation f = t.auxLocation f ∧
    t'.auxCopyLocation f = t.auxCopyLocation f

private theorem getElem?_of_isPrefix {α : Type} {l l' : List α} (longer : l <+: l') (i : Nat)
    (x : α) (found : l[i]? = some x) : l'[i]? = some x := by
  obtain ⟨more, rfl⟩ := longer
  rw [List.getElem?_append_left (List.getElem?_eq_some_iff.mp found).1]
  exact found

omit [DecidableEq ι] in
private theorem Tabled.extend {t t' : IdataContents ι} {j base : Nat} {syms ns hs es old : List ι}
    (tabled : Tabled file target H t j base ns hs es) (more : Extends t t' old)
    (merged : Merged file target H syms ns hs es) (known : ∀ f ∈ syms, f ∈ old) :
    Tabled file target H t' j base ns hs es := by
  have own : ∀ (i : Nat) f, (ns ++ hs ++ es)[i]? = some f → f ∈ old ∧ ∀ g, H f = some g → g ∈ old := by
    intro i f found
    have members := merged.mem_syms f (List.mem_of_getElem? found)
    exact ⟨known f members.1, fun g half => known g (members.2 g half)⟩
  refine ⟨?_, ?_, ?_, ?_, ?_, ?_, ?_⟩
  · obtain ⟨f, first, name⟩ := tabled.name
    exact ⟨f, first, getElem?_of_isPrefix more.dllNames j _ name⟩
  · exact ⟨getElem?_of_isPrefix more.dirs j _ tabled.written.dir,
      tabled.written.lookups.mono more.hints more.lookups,
      tabled.written.addresses.mono more.hints more.addresses⟩
  -- the tables only grow, so what has been written is still there
  · intro onArm64x
    have before := tabled.patched onArm64x
    exact ⟨getElem?_of_isPrefix more.patchedDirs j _ before.dir,
      before.lookups.mono more.hints more.patchedLookups,
      before.addresses.mono more.hints more.patchedAddresses⟩
  · intro i f found
    obtain ⟨self, partner⟩ := tabled.location i f found
    refine ⟨(more.location f (own i f found).1).trans self, ?_⟩
    intro g half
    exact (more.location g ((own i f found).2 g half)).trans (partner g half)
  · exact Nat.lt_of_lt_of_le tabled.room more.addresses.length_le
  · intro merges i f found
    obtain ⟨iat, copy, locations⟩ := tabled.aux merges i f found
    refine ⟨getElem?_of_isPrefix more.auxIat _ _ iat, getElem?_of_isPrefix more.auxIatCopy _ _ copy, ?_⟩
    intro ec
    obtain ⟨same, sameCopy⟩ := more.auxLocation f (own i f found).1
    exact ⟨same.trans (locations ec).1, sameCopy.trans (locations ec).2⟩
  · intro merges
    obtain ⟨iat, copy⟩ := tabled.auxEnd merges
    exact ⟨getElem?_of_isPrefix more.auxIat _ _ iat, getElem?_of_isPrefix more.auxIatCopy _ _ copy⟩

/-! ### One call of `createDll` -/

private theorem Block.shown_prefix {base shown : Nat} {cs written : List Slot} {term : Option Slot}
    {relocs : List Arm64XReloc} (block : Block base cs written term relocs shown) :
    cs.take shown ++ [.null] <+: written ++ [term.getD .null] ∧ shown ≤ cs.length := by
  cases block with
  | plain => exact ⟨by simp, Nat.le_refl _⟩
  | split front c behind val whole value =>
    refine ⟨⟨behind ++ [c], ?_⟩, ?_⟩
    · simp [whole]
    · simp [whole]

omit [DecidableEq ι] in
theorem Merged.nodup {syms ns hs es : List ι} (merged : Merged file target H syms ns hs es)
    (nodup : syms.Nodup) : ((ns ++ hs ++ es) ++ (ns ++ hs ++ es).filterMap H).Nodup := by
  rw [merged.runs.partners]
  exact merged.perm.nodup_iff.mp nodup

theorem DllAdded.grows {t t' : IdataContents ι} {syms ns hs es : List ι}
    {cs written : List Slot} {term : Option Slot} {relocs : List Arm64XReloc}
    (added : DllAdded file target H t t' ns.length (ns ++ hs ++ es)
      (written ++ [term.getD .null]) relocs)
    (others : ∀ f ∉ (ns ++ hs ++ es) ++ (ns ++ hs ++ es).filterMap H, t'.location f = t.location f)
    (merged : Merged file target H syms ns hs es) (old : List ι) (apart : ∀ f ∈ old, f ∉ syms)
    (patched : t'.patched.lookups = t.patched.lookups ++ (cs ++ [.null]) ∧
      t'.patched.addresses = t.patched.addresses ++ (cs ++ [.null]) ∧
      t'.patched.dirs = t.patched.dirs ++ [.directory ⟨t.dllNames.length,
        t.lookups.length + patchedSkip target ns.length,
        t.lookups.length + patchedSkip target ns.length⟩]) :
    Extends t t' old where
  dirs := ⟨_, added.dirs.symm⟩
  lookups := ⟨_, added.lookups.symm⟩
  addresses := ⟨_, added.addresses.symm⟩
  hints := added.hints
  dllNames := ⟨_, added.dllNames.symm⟩
  auxIat := ⟨_, added.auxIat.symm⟩
  auxIatCopy := ⟨_, added.auxIatCopy.symm⟩
  patchedDirs := ⟨_, patched.2.2.symm⟩
  patchedLookups := ⟨_, patched.1.symm⟩
  patchedAddresses := ⟨_, patched.2.1.symm⟩
  location := by
    intro f member
    apply others
    intro inside
    apply apart f member
    -- the locations that are set belong to this DLL's imports
    rw [merged.runs.partners] at inside
    exact merged.perm.mem_iff.mpr inside
  auxLocation := by
    intro f member
    apply added.auxOthers
    intro inside
    exact apart f member (merged.mem_syms f inside).1

private theorem writtenSkip_le (target : Machine) (natives : Nat) :
    writtenSkip target natives ≤ natives := by
  rw [writtenSkip]
  split_ifs
  · exact Nat.mod_le _ _
  · exact Nat.zero_le _

private theorem ecSkip_le (natives : Nat) : ecSkip natives ≤ natives :=
  (skippedSlots_le _).trans (Nat.mod_le _ _)

omit [DecidableEq ι] in
/-- A table leads to the slots that are shown, behind those that the entry skips. -/
private theorem Block.leads_written {base shown : Nat} {cs written : List Slot} {term : Option Slot}
    {relocs : List Arm64XReloc} (block : Block base cs written term relocs shown)
    {hints : List HintNameChunk} {ns hs es : List ι}
    (ask : SlotsAsk hints cs ((ns ++ hs ++ es).map (asks file)))
    (count : shown = if target = .arm64x then (ns ++ hs).length else (ns ++ hs ++ es).length)
    (table : List Slot) (here : table.length = base) :
    Leads hints (table ++ (written ++ [term.getD .null])) (base + writtenSkip target ns.length)
      ((writtenImports target ns hs es).map (asks file)) := by
  have length : cs.length = (ns ++ hs ++ es).length := by rw [ask.length_eq, List.length_map]
  obtain ⟨shows, inside⟩ := block.shown_prefix
  simp only [writtenImports]
  split_ifs with onArm64x
  · have part : SlotsAsk hints (cs.take shown) (((ns ++ hs ++ es).map (asks file)).take shown) := by
      rw [SlotsAsk, List.map_take, ask, List.map_take]
    have none' : writtenSkip target ns.length = 0 := by simp [writtenSkip, onArm64x]
    rw [if_pos onArm64x] at count
    have front : ((ns ++ hs ++ es).map (asks file)).take shown = (ns ++ hs).map (asks file) := by
      rw [count, ← List.map_take, List.take_left]
    rw [front] at part
    rw [none']
    exact leads_append hints table _ _ _ 0 _ here part (Nat.zero_le _) shows
  · rw [if_neg onArm64x, ← length] at count
    rw [count, List.take_length] at shows
    have natives : ns.length ≤ cs.length := by
      rw [length, List.length_append, List.length_append]
      omega
    rw [List.map_drop]
    exact leads_append hints table cs _ _ _ _ here ask
      ((writtenSkip_le target ns.length).trans natives) shows

/-- The auxiliary tables have the imports at the same places, and end behind them. -/
private theorem DllAdded.aux {t t' : IdataContents ι} {natives : Nat} {out : List ι}
    {slots : List Slot} {relocs : List Arm64XReloc}
    (added : DllAdded file target H t t' natives out slots relocs) (inv : TablesInv target t)
    (merges : hybrid target = true) :
    (∀ i f, out[i]? = some f →
      t'.auxIat[t.lookups.length + i]? = some (auxSlot file target f) ∧
        t'.auxIatCopy[t.lookups.length + i]? = some (auxSlot file target f) ∧
        (isEC file target f = true → t'.auxLocation f = some (t.lookups.length + i) ∧
          t'.auxCopyLocation f = some (t.lookups.length + i))) ∧
      t'.auxIat[t.lookups.length + out.length]? = some .null ∧
        t'.auxIatCopy[t.lookups.length + out.length]? = some .null := by
  obtain ⟨iat, copy⟩ := inv.aux merges
  constructor
  · intro i f found
    have below := (List.getElem?_eq_some_iff.mp found).1
    rw [added.auxIat, added.auxIatCopy, if_pos merges, ← iat,
      List.getElem?_append_right (Nat.le_add_right _ _), Nat.add_sub_cancel_left, iat, ← copy,
      List.getElem?_append_right (Nat.le_add_right _ _), Nat.add_sub_cancel_left,
      List.getElem?_append_left (by simpa using below), List.getElem?_map, found]
    refine ⟨rfl, rfl, ?_⟩
    intro ec
    obtain ⟨there, thereCopy⟩ := added.auxLocation i f found ec
    rw [there, thereCopy, iat, copy]
    exact ⟨rfl, rfl⟩
  · rw [added.auxIat, added.auxIatCopy, if_pos merges, ← iat,
      List.getElem?_append_right (Nat.le_add_right _ _), Nat.add_sub_cancel_left, iat, ← copy,
      List.getElem?_append_right (Nat.le_add_right _ _), Nat.add_sub_cancel_left]
    simp

private theorem createDll_tabled {syms ns hs es : List ι}
    (merged : Merged file target H syms ns hs es) (nodup : syms.Nodup) (some' : ns ++ hs ++ es ≠ [])
    (t : IdataContents ι) (inv : TablesInv target t) (old : List ι) (apart : ∀ f ∈ old, f ∉ syms) :
    TablesInv target (createDll file target H t (ns ++ hs ++ es)) ∧
      Extends t (createDll file target H t (ns ++ hs ++ es)) old ∧
      Tabled file target H (createDll file target H t (ns ++ hs ++ es)) t.dirs.length
        t.lookups.length ns hs es := by
  have distinct := merged.nodup nodup
  obtain ⟨d, cs, written, relocs, shown, run, added, hints⟩ :=
    createDll_added merged (List.nodup_append.mp distinct).1 some' t
  have block := run.block
  have ask := run.ask
  rw [← hints] at ask
  have width := run.added.width
  generalize createDll file target H t (ns ++ hs ++ es) = t' at *
  have patched := added.patched_eq block inv
  have location (k : Nat) (f : ι) (found : (ns ++ hs ++ es)[k]? = some f) :=
    setLocations_at t.lookups.length k (ns ++ hs ++ es) t.location f distinct found
  rw [← added.location] at location
  have others (f : ι) (outside : f ∉ (ns ++ hs ++ es) ++ (ns ++ hs ++ es).filterMap H) :=
    setLocations_other t.lookups.length (ns ++ hs ++ es) t.location f outside
  rw [← added.location] at others
  have few : ns.length ≤ (ns ++ hs ++ es).length := by
    rw [List.length_append, List.length_append]
    omega
  refine ⟨added.inv block width few some' inv,
    added.grows others merged old apart patched, ?_⟩
  refine ⟨?_, ⟨?_, ?_, ?_⟩, ?_, location, ?_, fun merges => (added.aux inv merges).1,
    fun merges => (added.aux inv merges).2⟩
  · obtain ⟨f, rest, whole⟩ := List.exists_cons_of_ne_nil some'
    refine ⟨f, by rw [whole]; rfl, ?_⟩
    rw [added.dllNames, ← inv.names, whole]
    simp
  · rw [added.dirs, ← inv.names]
    simp [inv.names]
  · rw [added.lookups]
    exact block.leads_written ask run.shown t.lookups rfl
  · rw [added.addresses]
    exact block.leads_written ask run.shown t.addresses inv.even
  · intro onArm64x
    have skip : patchedSkip target ns.length = ecSkip ns.length := by
      simp [patchedSkip, onArm64x]
    obtain ⟨lookups, addresses, dirs⟩ := patched
    have skipEC : ecSkip ns.length ≤ cs.length := by
      rw [ask.length_eq, List.length_map]
      exact (ecSkip_le _).trans few
    have same : t.patched.dirs.length = t.dirs.length := patchAllDirs_length _ _
    refine ⟨?_, ?_, ?_⟩
    · rw [dirs, skip, ← same, List.getElem?_concat_length, same, inv.names]
    · rw [lookups, ecImports, List.map_drop]
      exact leads_append _ _ cs _ _ _ _ (patchAll_length _ _ _) ask skipEC (List.prefix_refl _)
    · rw [addresses, ecImports, List.map_drop]
      exact leads_append _ _ cs _ _ _ _ ((patchAll_length _ _ _).trans inv.even) ask skipEC
        (List.prefix_refl _)
  · have grown : t'.addresses.length = t.lookups.length + ((ns ++ hs ++ es).length + 1) := by
      rw [added.addresses, List.length_append, inv.even, List.length_append, width]
      rfl
    omega

/-! ### All DLLs -/

/-- The imports of one DLL among the finished tables. -/
def HasDll (file : ι → ImportFile) (target : Machine) (H : ι → Option ι) (t : IdataContents ι)
    (j : Nat) (syms out : List ι) : Prop :=
  ∃ base ns hs es, out = ns ++ hs ++ es ∧ Merged file target H syms ns hs es ∧
    Tabled file target H t j base ns hs es

private theorem foldl_createDll (bins outs : List (List ι)) (t : IdataContents ι)
    (listed : List.Forall₂ (Listed file target H) bins outs) (nodup : bins.flatten.Nodup)
    (some' : ∀ syms ∈ bins, syms ≠ []) (inv : TablesInv target t) (old : List ι)
    (apart : ∀ f ∈ old, f ∉ bins.flatten) :
    TablesInv target (outs.foldl (createDll file target H) t) ∧
      Extends t (outs.foldl (createDll file target H) t) old ∧
      (outs.foldl (createDll file target H) t).dirs.length = t.dirs.length + outs.length ∧
      ∀ j syms out, bins[j]? = some syms → outs[j]? = some out →
        HasDll file target H (outs.foldl (createDll file target H) t) (t.dirs.length + j) syms out := by
  induction listed generalizing t old with
  | nil =>
    refine ⟨inv, ?_, rfl, by simp⟩
    constructor <;> simp
  | @cons syms out bins outs head _ ih =>
    obtain ⟨ns, hs, es, rfl, merged⟩ := head
    rw [List.flatten_cons] at nodup apart
    obtain ⟨nodupHere, nodupLater, distinct⟩ := List.nodup_append.mp nodup
    have nonempty : ns ++ hs ++ es ≠ [] := by
      intro none'
      obtain ⟨f, member⟩ := List.exists_mem_of_ne_nil _ (some' syms List.mem_cons_self)
      have inside := merged.perm.mem_iff.mp member
      rw [← merged.runs.partners, none'] at inside
      cases inside
    -- What the first DLL adds stands when the others are added behind it, as they only extend
    -- the tables and leave the locations of its symbols alone.
    obtain ⟨invHere, extendsHere, tabled⟩ := createDll_tabled merged nodupHere nonempty t inv old
      (fun f member here => apart f member (List.mem_append_left _ here))
    have oneDir : (createDll file target H t (ns ++ hs ++ es)).dirs.length = t.dirs.length + 1 := by
      obtain ⟨d, cs, written, relocs, shown, -, added, -⟩ := createDll_added merged
        (List.nodup_append.mp (merged.nodup nodupHere)).1 nonempty t
      rw [added.dirs]
      simp
    obtain ⟨invLater, extendsLater, dirs, later⟩ := ih (createDll file target H t (ns ++ hs ++ es))
      nodupLater (fun s member => some' s (List.mem_cons_of_mem _ member)) invHere (old ++ syms)
      (by
        intro f member inside
        rcases List.mem_append.mp member with before | here
        · exact apart f before (List.mem_append_right _ inside)
        · exact distinct f here f inside rfl)
    rw [List.foldl_cons]
    generalize createDll file target H t (ns ++ hs ++ es) = t₁ at *
    refine ⟨invLater, ?_, ?_, ?_⟩
    · refine ⟨extendsHere.dirs.trans extendsLater.dirs,
        extendsHere.lookups.trans extendsLater.lookups,
        extendsHere.addresses.trans extendsLater.addresses,
        extendsHere.hints.trans extendsLater.hints,
        extendsHere.dllNames.trans extendsLater.dllNames,
        extendsHere.auxIat.trans extendsLater.auxIat,
        extendsHere.auxIatCopy.trans extendsLater.auxIatCopy,
        extendsHere.patchedDirs.trans extendsLater.patchedDirs,
        extendsHere.patchedLookups.trans extendsLater.patchedLookups,
        extendsHere.patchedAddresses.trans extendsLater.patchedAddresses, ?_, ?_⟩
      · intro f member
        exact (extendsLater.location f (List.mem_append_left _ member)).trans
          (extendsHere.location f member)
      · intro f member
        obtain ⟨there, thereCopy⟩ := extendsLater.auxLocation f (List.mem_append_left _ member)
        obtain ⟨here, hereCopy⟩ := extendsHere.auxLocation f member
        exact ⟨there.trans here, thereCopy.trans hereCopy⟩
    · rw [dirs, oneDir, List.length_cons]
      omega
    · intro j syms' out' found foundOut
      -- The first DLL is read here, a later one by the induction.
      cases j with
      | zero =>
        cases found
        cases foundOut
        exact ⟨t.lookups.length, ns, hs, es, rfl, merged,
          tabled.extend extendsLater merged (fun f member => List.mem_append_right _ member)⟩
      | succ j =>
        have there := later j syms' out' found foundOut
        have same : t₁.dirs.length + j = t.dirs.length + (j + 1) := by omega
        rw [same] at there
        exact there

omit [DecidableEq ι] in
private theorem empty_inv : TablesInv target (IdataContents.empty : IdataContents ι) := by
  constructor <;> simp [IdataContents.empty]

/-- The tables before the null entry is added, and the merged files. -/
structure AllTabled (file : ι → ImportFile) (target : Machine) (H : ι → Option ι)
    (bins : List (List ι)) (t : IdataContents ι) : Prop where
  inv : TablesInv target t
  count : t.dirs.length = bins.length
  dlls : ∀ j syms, bins[j]? = some syms →
    ∃ base ns hs es, Merged file target H syms ns hs es ∧ Tabled file target H t j base ns hs es

theorem createTables_tabled (bins : List (List ι)) (nodup : bins.flatten.Nodup)
    (some' : ∀ syms ∈ bins, syms ≠ []) :
    ∃ t, AllTabled file target (createTables file target bins).2 bins t ∧
      (createTables file target bins).1 = { t with dirs := t.dirs ++ [.null] } := by
  have spec := @listed_spec _ _ file target bins nodup
  obtain ⟨inv, -, dirs, dlls⟩ := foldl_createDll bins _ IdataContents.empty spec nodup some'
    empty_inv [] (by simp)
  refine ⟨_, ⟨inv, ?_, ?_⟩, rfl⟩
  · rw [dirs, spec.length_eq]
    exact Nat.zero_add _
  · intro j syms found
    have below := (List.getElem?_eq_some_iff.mp found).1
    have there : ∃ out, (listed file target bins).1[j]? = some out := by
      rw [spec.length_eq] at below
      exact ⟨_, List.getElem?_eq_getElem below⟩
    obtain ⟨out, foundOut⟩ := there
    obtain ⟨base, ns, hs, es, -, merged, tabled⟩ := dlls j syms out found foundOut
    have first : (IdataContents.empty : IdataContents ι).dirs.length + j = j := Nat.zero_add j
    rw [first] at tabled
    exact ⟨base, ns, hs, es, merged, tabled⟩

end LlvmLd.Idata
