import LlvmLd.Idata.Merge

/-!
What `create` puts into the tables, DLL by DLL, and what the recorded relocations make of the tables
for the EC view.
-/

namespace LlvmLd.Idata

open LlvmLd.Writer (Machine)

/-! ### Requests -/

/-- What a slot asks for. -/
def slotRequest (hints : List HintNameChunk) : Slot → Option Request
  | .lookup h => hints[h]?.map (fun c => .name c.name.1)
  | .ordinalOnly ordinal => some (.ordinal ordinal)
  | .null => none

private theorem slotRequest_append (hints more : List HintNameChunk) (s : Slot) (r : Request)
    (asked : slotRequest hints s = some r) : slotRequest (hints ++ more) s = some r := by
  cases s with
  | lookup h =>
    simp only [slotRequest, Option.map_eq_some_iff] at asked ⊢
    obtain ⟨c, found, name⟩ := asked
    refine ⟨c, ?_, name⟩
    rw [List.getElem?_append_left (List.getElem?_eq_some_iff.mp found).1]
    exact found
  | ordinalOnly ordinal => exact asked
  | null => cases asked

/-- The slots ask for the requests, one for one. -/
def SlotsAsk (hints : List HintNameChunk) (slots : List Slot) (requests : List Request) : Prop :=
  slots.map (slotRequest hints) = requests.map some

theorem SlotsAsk.append {hints : List HintNameChunk} {a b : List Slot} {r s : List Request}
    (first : SlotsAsk hints a r) (second : SlotsAsk hints b s) :
    SlotsAsk hints (a ++ b) (r ++ s) := by
  rw [SlotsAsk, List.map_append, List.map_append, first, second]

theorem SlotsAsk.drop {hints : List HintNameChunk} {slots : List Slot} {requests : List Request}
    (ask : SlotsAsk hints slots requests) (n : Nat) :
    SlotsAsk hints (slots.drop n) (requests.drop n) := by
  rw [SlotsAsk, List.map_drop, List.map_drop, ask]

theorem SlotsAsk.length_eq {hints : List HintNameChunk} {slots : List Slot}
    {requests : List Request} (ask : SlotsAsk hints slots requests) :
    slots.length = requests.length := by
  simpa using congrArg List.length ask

theorem SlotsAsk.mono {hints hints' : List HintNameChunk} {slots : List Slot}
    {requests : List Request} (ask : SlotsAsk hints slots requests) (more : hints <+: hints') :
    SlotsAsk hints' slots requests := by
  obtain ⟨rest, rfl⟩ := more
  rw [SlotsAsk] at ask ⊢
  rw [← ask]
  apply List.map_congr_left
  intro s member
  have asked : slotRequest hints s ∈ requests.map some := by
    rw [← ask]
    exact List.mem_map_of_mem member
  obtain ⟨r, -, found⟩ := List.mem_map.mp asked
  rw [← found]
  exact slotRequest_append hints rest s r found.symm

/-- The slot that an eight-byte relocation value is. -/
def slotOf (v : Arm64XRelocVal) : Slot :=
  match v.chunk with
  | some (.hints i) => .lookup i
  | _ => .ordinalOnly (UInt16.ofNat v.value)

/-- The values that imports are relocated to: the RVA of a hint, or a flagged ordinal. -/
def SlotVal (v : Arm64XRelocVal) : Prop :=
  (∃ h, v = chunkPtr (.hints h) 0) ∨ ∃ ordinal : UInt16, v = number (2 ^ 63 ||| ordinal.toNat)

private theorem flagged_ordinal (ordinal : UInt16) :
    UInt16.ofNat (2 ^ 63 ||| ordinal.toNat) = ordinal := by
  apply UInt16.toNat_inj.mp
  have small : ordinal.toNat < 2 ^ 16 := ordinal.toNat_lt
  rw [UInt16.toNat_ofNat', Nat.or_mod_two_pow, Nat.mod_eq_of_lt small]
  have high : 2 ^ 63 % 2 ^ 16 = 0 := by decide
  rw [high, Nat.zero_or]

section Create

variable {ι : Type} [DecidableEq ι] {file : ι → ImportFile} {target : Machine}
  {H : ι → Option ι}

omit [DecidableEq ι] in
private theorem importChunk_asks (f : ι) (hints : List HintNameChunk) :
    hints <+: (importChunk (file f) hints).2.2 ∧
      slotRequest (importChunk (file f) hints).2.2 (importChunk (file f) hints).1 =
        some (asks file f) ∧
      slotOf (importChunk (file f) hints).2.1 = (importChunk (file f) hints).1 ∧
      SlotVal (importChunk (file f) hints).2.1 := by
  simp only [importChunk, asks]
  split_ifs with unnamed
  · refine ⟨List.prefix_refl hints, rfl, ?_, .inr ⟨_, rfl⟩⟩
    show Slot.ordinalOnly (UInt16.ofNat (2 ^ 63 ||| (file f).ordinalHint.toNat)) = _
    rw [flagged_ordinal]
  · exact ⟨List.prefix_append _ _, by simp [slotRequest], rfl, .inl ⟨_, rfl⟩⟩

/-! ### One symbol -/

def auxSlot (file : ι → ImportFile) (target : Machine) (f : ι) : AuxSlot ι :=
  if isEC file target f then .auxImport f else .null

/-- The auxiliary tables get one slot for each import of a hybrid image. -/
structure AuxAdded (file : ι → ImportFile) (target : Machine) (t t' : IdataContents ι)
    (l : List ι) : Prop where
  iat : t'.auxIat = t.auxIat ++ if hybrid target then l.map (auxSlot file target) else []
  copy : t'.auxIatCopy = t.auxIatCopy ++ if hybrid target then l.map (auxSlot file target) else []
  location : ∀ i f, l[i]? = some f → isEC file target f = true →
    t'.auxLocation f = some (t.auxIat.length + i)
  copyLocation : ∀ i f, l[i]? = some f → isEC file target f = true →
    t'.auxCopyLocation f = some (t.auxIatCopy.length + i)
  others : ∀ f ∉ l, t'.auxLocation f = t.auxLocation f ∧
    t'.auxCopyLocation f = t.auxCopyLocation f

omit [DecidableEq ι] in
private theorem hybrid_of_ec (f : ι) (ec : isEC file target f = true) : hybrid target = true := by
  rw [isEC, ImportFile.isEC, Bool.and_eq_true] at ec
  exact ec.1

private theorem addAux_added (f : ι) (t : IdataContents ι) :
    AuxAdded file target t (addAux file target f t) [f] := by
  have one : ∀ (i : Nat) g, [f][i]? = some g → i = 0 ∧ g = f := by
    intro i g found
    cases i with
    | zero => exact ⟨rfl, (Option.some.inj found).symm⟩
    | succ i => simp at found
  simp only [addAux]
  -- an EC import, a native one with an empty auxiliary slot, or no auxiliary table at all
  split_ifs with ec native
  · have merges := hybrid_of_ec f ec
    refine ⟨by simp [merges, auxSlot, ec], by simp [merges, auxSlot, ec], ?_, ?_, ?_⟩
    · intro i g found _
      obtain ⟨rfl, rfl⟩ := one i g found
      exact Function.update_self _ _ _
    · intro i g found _
      obtain ⟨rfl, rfl⟩ := one i g found
      exact Function.update_self _ _ _
    · intro g other
      have apart : g ≠ f := fun same => other (by simp [same])
      exact ⟨Function.update_of_ne apart _ _, Function.update_of_ne apart _ _⟩
  · refine ⟨by simp [native, auxSlot, ec], by simp [native, auxSlot, ec], ?_, ?_,
      fun _ _ => ⟨rfl, rfl⟩⟩
    · intro i g found kind
      rw [(one i g found).2] at kind
      exact absurd kind ec
    · intro i g found kind
      rw [(one i g found).2] at kind
      exact absurd kind ec
  · refine ⟨by simp [native], by simp [native], ?_, ?_, fun _ _ => ⟨rfl, rfl⟩⟩
    · intro i g found kind
      rw [(one i g found).2] at kind
      exact absurd kind ec
    · intro i g found kind
      rw [(one i g found).2] at kind
      exact absurd kind ec

private theorem addAux_keeps (f : ι) (t : IdataContents ι) :
    ∃ iat copy location copyLocation, addAux file target f t =
      { t with auxIat := iat, auxIatCopy := copy, auxLocation := location,
               auxCopyLocation := copyLocation } := by
  simp only [addAux]
  split_ifs
  · exact ⟨_, _, _, _, rfl⟩
  · exact ⟨_, _, _, _, rfl⟩
  · exact ⟨t.auxIat, t.auxIatCopy, t.auxLocation, t.auxCopyLocation, rfl⟩

omit [DecidableEq ι] in
theorem AuxAdded.trans {t t' t'' : IdataContents ι} {l l' : List ι}
    (first : AuxAdded file target t t' l) (second : AuxAdded file target t' t'' l')
    (nodup : (l ++ l').Nodup) : AuxAdded file target t t'' (l ++ l') := by
  have apart : ∀ f ∈ l, f ∉ l' := fun f here later =>
    (List.nodup_append.mp nodup).2.2 f here f later rfl
  -- an EC import is in a hybrid image, where every import has its slot
  have behind : ∀ f, isEC file target f = true → t'.auxIat.length = t.auxIat.length + l.length ∧
      t'.auxIatCopy.length = t.auxIatCopy.length + l.length := by
    intro f ec
    have merges := hybrid_of_ec f ec
    exact ⟨by simp [first.iat, merges], by simp [first.copy, merges]⟩
  refine ⟨?_, ?_, ?_, ?_, ?_⟩
  · rw [second.iat, first.iat]
    split_ifs <;> simp
  · rw [second.copy, first.copy]
    split_ifs <;> simp
  · intro i f found ec
    by_cases here : i < l.length
    · rw [List.getElem?_append_left here] at found
      rw [(second.others f (apart f (List.mem_of_getElem? found))).1]
      exact first.location i f found ec
    · rw [List.getElem?_append_right (by omega)] at found
      rw [second.location _ f found ec, (behind f ec).1]
      congr 1
      omega
  · intro i f found ec
    by_cases here : i < l.length
    · rw [List.getElem?_append_left here] at found
      rw [(second.others f (apart f (List.mem_of_getElem? found))).2]
      exact first.copyLocation i f found ec
    · rw [List.getElem?_append_right (by omega)] at found
      rw [second.copyLocation _ f found ec, (behind f ec).2]
      congr 1
      omega
  · intro f outside
    rw [List.mem_append, not_or] at outside
    rw [(second.others f outside.2).1, (second.others f outside.2).2]
    exact first.others f outside.1

/-- What a run of `addSymbol` over `l` adds: the same slots to both tables, and relocations. -/
structure Added (file : ι → ImportFile) (target : Machine) (d d' : DllState ι) (l : List ι)
    (slots : List Slot) (relocs : List Arm64XReloc) : Prop where
  lookups : d'.contents.lookups = d.contents.lookups ++ slots
  addresses : d'.contents.addresses = d.contents.addresses ++ slots
  width : slots.length = l.length
  hints : d.contents.hints <+: d'.contents.hints
  relocs : d'.contents.relocs = d.contents.relocs ++ relocs
  dirs : d'.contents.dirs = d.contents.dirs
  dllNames : d'.contents.dllNames = d.contents.dllNames
  location : d'.contents.location = d.contents.location
  nativeOnly : d'.nativeOnly = d.nativeOnly ∧ hybrid target = false ∨
    d'.nativeOnly = uint32 (d.nativeOnly + nativeCount file target l) ∧ hybrid target = true
  aux : AuxAdded file target d.contents d'.contents l

omit [DecidableEq ι] in
theorem Added.trans {d d' d'' : DllState ι} {l l' : List ι} {slots slots' : List Slot}
    {relocs relocs' : List Arm64XReloc} (first : Added file target d d' l slots relocs)
    (second : Added file target d' d'' l' slots' relocs') (nodup : (l ++ l').Nodup) :
    Added file target d d'' (l ++ l') (slots ++ slots') (relocs ++ relocs') where
  lookups := by rw [second.lookups, first.lookups, List.append_assoc]
  addresses := by rw [second.addresses, first.addresses, List.append_assoc]
  width := by rw [List.length_append, List.length_append, first.width, second.width]
  hints := first.hints.trans second.hints
  relocs := by rw [second.relocs, first.relocs, List.append_assoc]
  dirs := second.dirs.trans first.dirs
  dllNames := second.dllNames.trans first.dllNames
  location := second.location.trans first.location
  nativeOnly := by
    -- one target for both parts: the count is kept in both or counts in both
    rcases second.nativeOnly with ⟨kept, plain⟩ | ⟨counted, merges⟩
    · rcases first.nativeOnly with ⟨before, -⟩ | ⟨-, merges⟩
      · exact .inl ⟨kept.trans before, plain⟩
      · rw [plain] at merges
        cases merges
    · rcases first.nativeOnly with ⟨-, plain⟩ | ⟨before, -⟩
      · rw [plain] at merges
        cases merges
      · refine .inr ⟨?_, merges⟩
        rw [counted, before, nativeCount_append]
        unfold uint32
        omega
  aux := first.aux.trans second.aux nodup

/-- The import whose slot the native terminator takes. -/
def FirstECOnly (file : ι → ImportFile) (target : Machine) (H : ι → Option ι) (d : DllState ι)
    (f : ι) : Prop :=
  target = .arm64x ∧ d.lookupsTerminator = none ∧ isEC file target f = true ∧ H f = none

omit [DecidableEq ι] in
private theorem uint32_step (n : Nat) (small : n = uint32 n) (f : ι) :
    (if isEC file target f = false ∧ hybrid target = true then uint32 (n + 1) else n) = n ∧
        hybrid target = false ∨
      (if isEC file target f = false ∧ hybrid target = true then uint32 (n + 1) else n) =
          uint32 (n + nativeCount file target [f]) ∧ hybrid target = true := by
  by_cases merges : hybrid target = true
  · right
    cases kind : isEC file target f with
    | true => simp [nativeCount, kind, merges, ← small]
    | false => simp [nativeCount, kind, merges]
  · left
    simp [merges]

private theorem addSymbol_keeps (last : Nat) (d : DllState ι) (f : ι)
    (small : d.nativeOnly = uint32 d.nativeOnly) (plain : ¬FirstECOnly file target H d f) :
    ∃ slot, Added file target d (addSymbol file target H last d f) [f] [slot] [] ∧
      slotRequest (addSymbol file target H last d f).contents.hints slot = some (asks file f) ∧
      (addSymbol file target H last d f).lookupsTerminator = d.lookupsTerminator ∧
      (addSymbol file target H last d f).addressesTerminator = d.addressesTerminator := by
  obtain ⟨more, asked, -⟩ := @importChunk_asks _ file f d.contents.hints
  simp only [FirstECOnly] at plain
  refine ⟨(importChunk (file f) d.contents.hints).1, ?_⟩
  simp only [addSymbol, if_neg plain]
  generalize ht : ({ d.contents with
      hints := (importChunk (file f) d.contents.hints).2.2
      lookups := d.contents.lookups ++ [(importChunk (file f) d.contents.hints).1]
      addresses := d.contents.addresses ++ [(importChunk (file f) d.contents.hints).1] } :
    IdataContents ι) = t
  have aux := @addAux_added _ _ file target f t
  obtain ⟨iat, copy, location, copyLocation, kept⟩ := @addAux_keeps _ _ file target f t
  rw [kept] at aux ⊢
  subst ht
  refine ⟨⟨rfl, rfl, rfl, more, by simp, rfl, rfl, rfl, uint32_step _ small f, ?_⟩, asked, trivial, trivial⟩
  exact ⟨aux.iat, aux.copy, aux.location, aux.copyLocation, aux.others⟩

private theorem addSymbol_first (last : Nat) (d : DllState ι) (f : ι)
    (small : d.nativeOnly = uint32 d.nativeOnly) (first : FirstECOnly file target H d f) :
    ∃ slot val, Added file target d (addSymbol file target H last d f) [f] [.null]
        (terminatorRelocs val d.contents.lookups.length last) ∧
      slotRequest (addSymbol file target H last d f).contents.hints slot = some (asks file f) ∧
      slotOf val = slot ∧ SlotVal val ∧
      (addSymbol file target H last d f).lookupsTerminator = some slot ∧
      (addSymbol file target H last d f).addressesTerminator = some slot := by
  obtain ⟨more, asked, value, shape⟩ := @importChunk_asks _ file f d.contents.hints
  simp only [FirstECOnly] at first
  refine ⟨(importChunk (file f) d.contents.hints).1, (importChunk (file f) d.contents.hints).2.1, ?_⟩
  simp only [addSymbol, if_pos first]
  generalize ht : ({ d.contents with
      hints := (importChunk (file f) d.contents.hints).2.2
      lookups := d.contents.lookups ++ [.null]
      addresses := d.contents.addresses ++ [.null]
      relocs := d.contents.relocs ++ terminatorRelocs (importChunk (file f) d.contents.hints).2.1
        d.contents.lookups.length last } :
    IdataContents ι) = t
  have aux := @addAux_added _ _ file target f t
  obtain ⟨iat, copy, location, copyLocation, kept⟩ := @addAux_keeps _ _ file target f t
  rw [kept] at aux ⊢
  subst ht
  refine ⟨⟨rfl, rfl, rfl, more, rfl, rfl, rfl, rfl, uint32_step _ small f, ?_⟩, asked, value, shape,
    trivial, trivial⟩
  exact ⟨aux.iat, aux.copy, aux.location, aux.copyLocation, aux.others⟩

/-! ### A run of symbols -/

omit [DecidableEq ι] in
theorem Added.small {d d' : DllState ι} {l : List ι} {slots : List Slot}
    {relocs : List Arm64XReloc} (added : Added file target d d' l slots relocs)
    (small : d.nativeOnly = uint32 d.nativeOnly) : d'.nativeOnly = uint32 d'.nativeOnly := by
  rcases added.nativeOnly with ⟨kept, -⟩ | ⟨counted, -⟩
  · rw [kept]
    exact small
  · rw [counted]
    unfold uint32
    omega

private theorem addSymbols_keep (last : Nat) (l : List ι) (d : DllState ι)
    (small : d.nativeOnly = uint32 d.nativeOnly) (nodup : l.Nodup)
    (plain : ∀ f ∈ l, ¬FirstECOnly file target H d f) :
    ∃ slots, Added file target d (l.foldl (addSymbol file target H last) d) l slots [] ∧
      SlotsAsk (l.foldl (addSymbol file target H last) d).contents.hints slots
        (l.map (asks file)) ∧
      (l.foldl (addSymbol file target H last) d).lookupsTerminator = d.lookupsTerminator ∧
      (l.foldl (addSymbol file target H last) d).addressesTerminator = d.addressesTerminator := by
  induction l generalizing d with
  | nil =>
    refine ⟨[], ⟨by simp, by simp, rfl, List.prefix_refl _, by simp, rfl, rfl, rfl, ?_, ?_⟩, rfl, rfl,
      rfl⟩
    · cases merges : hybrid target with
      | false => exact .inl ⟨rfl, rfl⟩
      | true => exact .inr ⟨by simpa [nativeCount] using small, rfl⟩
    · exact ⟨by simp, by simp, by simp, by simp, fun _ _ => ⟨rfl, rfl⟩⟩
  | cons f l ih =>
    obtain ⟨slot, here, asked, lookupsEnd, addressesEnd⟩ :=
      addSymbol_keeps last d f small (plain f List.mem_cons_self)
    -- the terminator is as it was, so none of the rest is the first EC import
    have later : ∀ g ∈ l, ¬FirstECOnly file target H (addSymbol file target H last d f) g := by
      intro g member first
      rw [FirstECOnly, lookupsEnd] at first
      exact plain g (List.mem_cons_of_mem _ member) first
    obtain ⟨slots, rest, ask, restLookups, restAddresses⟩ :=
      ih (addSymbol file target H last d f) (here.small small) (List.nodup_cons.mp nodup).2 later
    rw [List.foldl_cons]
    refine ⟨slot :: slots, here.trans rest nodup, ?_, restLookups.trans lookupsEnd,
      restAddresses.trans addressesEnd⟩
    have one : SlotsAsk (addSymbol file target H last d f).contents.hints [slot] [asks file f] := by
      rw [SlotsAsk, List.map_singleton, asked, List.map_singleton]
    exact (one.mono rest.hints).append ask

/-- How a DLL's slots are written, `cs` being the ones of its imports: as they are, or with the
first EC-only one, which becomes the native terminator, moved to the end. `shown` is the number of
slots in front of the first null. -/
inductive Block (base : Nat) (cs : List Slot) :
    List Slot → Option Slot → List Arm64XReloc → Nat → Prop
  | plain : Block base cs cs none [] cs.length
  | split (front : List Slot) (c : Slot) (behind : List Slot) (val : Arm64XRelocVal)
    (whole : cs = front ++ c :: behind) (value : slotOf val = c) (shape : SlotVal val) :
    Block base cs (front ++ .null :: behind) (some c)
      (terminatorRelocs val (base + front.length) (base + cs.length)) front.length

/-- The symbols of one DLL. -/
structure DllRun (file : ι → ImportFile) (target : Machine) (t : IdataContents ι)
    (ns hs es : List ι) (d : DllState ι) (cs written : List Slot) (relocs : List Arm64XReloc)
    (shown : Nat) : Prop where
  added : Added file target ⟨t, none, none, 0⟩ d (ns ++ hs ++ es) written relocs
  ask : SlotsAsk d.contents.hints cs ((ns ++ hs ++ es).map (asks file))
  block : Block t.lookups.length cs written d.lookupsTerminator relocs shown
  terminators : d.addressesTerminator = d.lookupsTerminator
  shown : shown = if target = .arm64x then (ns ++ hs).length else (ns ++ hs ++ es).length

theorem addSymbols_dll {syms ns hs es : List ι} (merged : Merged file target H syms ns hs es)
    (nodup : (ns ++ hs ++ es).Nodup) (t : IdataContents ι) :
    ∃ cs written relocs shown, DllRun file target t ns hs es
      ((ns ++ hs ++ es).foldl (addSymbol file target H (t.lookups.length + (ns ++ hs ++ es).length))
        ⟨t, none, none, 0⟩) cs written relocs shown := by
  generalize hlast : t.lookups.length + (ns ++ hs ++ es).length = last
  have start : (⟨t, none, none, 0⟩ : DllState ι).nativeOnly = uint32 0 := rfl
  -- A native symbol has no EC view and a merged one has a partner: neither starts the EC part.
  have notFirst : ∀ (d : DllState ι), ∀ f ∈ ns ++ hs, ¬FirstECOnly file target H d f := by
    rintro d f member ⟨-, -, ec, alone⟩
    rcases List.mem_append.mp member with native | half
    · rw [(merged.native f native).1] at ec
      cases ec
    · obtain ⟨g, partner, -⟩ := merged.halves f half
      rw [alone] at partner
      cases partner
  -- On ARM64X the first EC-only symbol `e` ends the native view, so the run is cut around it.
  by_cases split : target = .arm64x ∧ es ≠ []
  · obtain ⟨onArm64x, some'⟩ := split
    obtain ⟨e, es', rfl⟩ := List.exists_cons_of_ne_nil some'
    obtain ⟨nodupFront, nodupBack, -⟩ := List.nodup_append.mp nodup
    rw [List.foldl_append, List.foldl_cons]
    obtain ⟨front, addedFront, askFront, lookupsFront, addressesFront⟩ := @addSymbols_keep _ _ file target H last (ns ++ hs) ⟨t, none, none, 0⟩ start nodupFront
      (notFirst _)
    generalize (ns ++ hs).foldl (addSymbol file target H last) ⟨t, none, none, 0⟩ = d₁ at *
    have smallFront := addedFront.small start
    have isFirst : FirstECOnly file target H d₁ e :=
      ⟨onArm64x, lookupsFront, merged.ec e List.mem_cons_self⟩
    obtain ⟨c, val, addedFirst, askedFirst, value, shape, lookupsFirst, addressesFirst⟩ :=
      addSymbol_first last d₁ e smallFront isFirst
    generalize addSymbol file target H last d₁ e = d₂ at *
    obtain ⟨behind, addedBehind, askBehind, lookupsBehind, addressesBehind⟩ := @addSymbols_keep _ _ file target H last es' d₂ (addedFirst.small smallFront)
      (List.nodup_cons.mp nodupBack).2 (by
        rintro f - ⟨-, free, -⟩
        rw [lookupsFirst] at free
        cases free)
    generalize es'.foldl (addSymbol file target H last) d₂ = d₃ at *
    have askFirst : SlotsAsk d₂.contents.hints [c] [asks file e] := by
      rw [SlotsAsk, List.map_singleton, askedFirst, List.map_singleton]
    have here : d₁.contents.lookups.length = t.lookups.length + front.length := by
      rw [addedFront.lookups, List.length_append]
    have width : (front ++ c :: behind).length = (ns ++ hs ++ e :: es').length := by
      simp only [List.length_append, List.length_cons, addedFront.width, addedBehind.width]
    -- The tables grow by the front, the slot of `e` and what is behind it.
    have whole := addedFront.trans (addedFirst.trans addedBehind nodupBack) nodup
    rw [List.nil_append, List.append_nil, here, ← hlast, ← width] at whole
    refine ⟨front ++ c :: behind, front ++ .null :: behind,
      terminatorRelocs val (t.lookups.length + front.length)
        (t.lookups.length + (front ++ c :: behind).length),
      front.length, whole, ?_, ?_, ?_, ?_⟩
    · rw [List.map_append, List.map_cons]
      have moreHints := addedFirst.hints.trans addedBehind.hints
      exact (askFront.mono moreHints).append ((askFirst.mono addedBehind.hints).append askBehind)
    · rw [lookupsBehind, lookupsFirst]
      exact .split front c behind val rfl value shape
    · rw [addressesBehind, addressesFirst, lookupsBehind, lookupsFirst]
    · rw [if_pos onArm64x]
      exact addedFront.width
  -- Without such a symbol no slot is turned into a terminator.
  · obtain ⟨cs, added, ask, lookupsEnd, addressesEnd⟩ := @addSymbols_keep _ _ file target H last (ns ++ hs ++ es) ⟨t, none, none, 0⟩ start
      nodup (by
        rintro f member ⟨onArm64x, free, ec, alone⟩
        rcases List.mem_append.mp member with front | back
        · exact notFirst ⟨t, none, none, 0⟩ f front ⟨onArm64x, free, ec, alone⟩
        · exact split ⟨onArm64x, List.ne_nil_of_mem back⟩)
    refine ⟨cs, cs, [], cs.length, added, ask, ?_, ?_, ?_⟩
    · rw [lookupsEnd]
      exact .plain
    · rw [addressesEnd, lookupsEnd]
    · rw [added.width]
      split_ifs with onArm64x
      · have none' : es = [] := by
          by_contra some'
          exact split ⟨onArm64x, some'⟩
        rw [none', List.append_nil]
      · rfl

end Create

section Patch

/-! ### The tables behind the relocations -/

def lookupsIndex : ChunkPtr → Option Nat
  | .lookups i => some i
  | _ => none

def addressesIndex : ChunkPtr → Option Nat
  | .addresses i => some i
  | _ => none

/-- What a relocation does to the slots of one table. -/
def patchSlots (index : ChunkPtr → Option Nat) (table : List Slot) (r : Arm64XReloc) : List Slot :=
  match r.type, r.offset.chunk.bind index with
  | .value, some i => table.set i (slotOf r.value)
  | .zeroFill, some i => table.set i .null
  | _, _ => table

/-- How many slots a `DELTA` skips. -/
def skippedSlots (nativeOnly : Nat) : Nat := (deltaFixup (nativeOnly * 8)).count

private theorem int32_small (x : Nat) (small : x < 2147483648) : int32 x = x := by
  have whole : uint32 x = x := uint32_of_le x (by unfold uint32Max; omega)
  rw [int32, whole, if_pos small]

/-- The number of slots is kept in sixteen bits. -/
theorem skippedSlots_small (n : Nat) (small : n * 8 < 2147483648) :
    skippedSlots n = n % 65536 := by
  have whole := int32_small (n * 8) small
  have units : n * 8 % 8 = 0 := by omega
  simp only [skippedSlots, deltaFixup, whole, Int.natAbs_natCast, units]
  show n * 8 / 8 % 65536 = n % 65536
  omega

theorem skippedSlots_le (n : Nat) : skippedSlots n ≤ n := by
  by_cases small : n * 8 < 2147483648
  · rw [skippedSlots_small n small]
    exact Nat.mod_le _ _
  · have cut (d : Nat) : d % 65536 ≤ n := by
      have := Nat.mod_lt d (show 0 < 65536 by decide)
      omega
    exact cut _

def shiftDir (r : Arm64XReloc) : DirChunk → DirChunk
  | .directory d =>
    let count := (deltaFixup r.value.value).count
    if r.offset.value = lookupTabOffset then .directory { d with lookupTab := d.lookupTab + count }
    else .directory { d with addressTab := d.addressTab + count }
  | .null => .null

def patchDirs (dirs : List DirChunk) (r : Arm64XReloc) : List DirChunk :=
  match r.type, r.offset.chunk with
  | .delta, some (.dirs i) => dirs.modify i (shiftDir r)
  | _, _ => dirs

/-- The tables of the EC view. -/
def IdataContents.patched {ι : Type} (t : IdataContents ι) : IdataContents ι :=
  { t with
    dirs := t.relocs.foldl patchDirs t.dirs
    lookups := t.relocs.foldl (patchSlots lookupsIndex) t.lookups
    addresses := t.relocs.foldl (patchSlots addressesIndex) t.addresses }

/-- The chunk a relocation applies to exists. -/
def InTables {ι : Type} (t : IdataContents ι) (r : Arm64XReloc) : Prop :=
  match r.offset.chunk with
  | some (.lookups i) => i < t.lookups.length
  | some (.addresses i) => i < t.addresses.length
  | some (.dirs i) => i < t.dirs.length
  | _ => True

private theorem patchSlots_length (index : ChunkPtr → Option Nat) (table : List Slot)
    (r : Arm64XReloc) :
    (patchSlots index table r).length = table.length := by
  simp only [patchSlots]
  split
  · exact List.length_set
  · exact List.length_set
  · rfl

theorem patchAll_length (index : ChunkPtr → Option Nat) (relocs : List Arm64XReloc)
    (table : List Slot) : (relocs.foldl (patchSlots index) table).length = table.length := by
  induction relocs generalizing table with
  | nil => rfl
  | cons r relocs ih => rw [List.foldl_cons, ih, patchSlots_length]

/-- Relocations of a table leave what is appended later alone. -/
theorem patchAll_append (index : ChunkPtr → Option Nat) (relocs : List Arm64XReloc)
    (table more : List Slot)
    (inside : ∀ r ∈ relocs, ∀ i, r.offset.chunk.bind index = some i → i < table.length) :
    relocs.foldl (patchSlots index) (table ++ more) =
      relocs.foldl (patchSlots index) table ++ more := by
  induction relocs generalizing table with
  | nil => rfl
  | cons r relocs ih =>
    -- a patch has its place inside of the table that is in front
    have one : patchSlots index (table ++ more) r = patchSlots index table r ++ more := by
      have here := inside r List.mem_cons_self
      simp only [patchSlots]
      cases place : r.offset.chunk.bind index with
      | none => cases r.type <;> rfl
      | some i =>
        have below := here i place
        cases r.type with
        | value => exact List.set_append_left _ _ below
        | zeroFill => exact List.set_append_left _ _ below
        | delta => rfl
    rw [List.foldl_cons, List.foldl_cons, one]
    apply ih
    intro r' member i place
    rw [patchSlots_length]
    exact inside r' (List.mem_cons_of_mem _ member) i place

private theorem modify_append_left {α : Type} (f : α → α) (l more : List α) (i : Nat)
    (below : i < l.length) :
    (l ++ more).modify i f = l.modify i f ++ more := by
  induction l generalizing i with
  | nil => cases below
  | cons x l ih =>
    cases i with
    | zero => simp
    | succ i => simpa using ih i (by simpa using below)

theorem modify_append_last {α : Type} (f : α → α) (l : List α) (x : α) :
    (l ++ [x]).modify l.length f = l ++ [f x] := by
  induction l with
  | nil => simp
  | cons y l ih => simpa using ih

private theorem patchDirs_length (dirs : List DirChunk) (r : Arm64XReloc) :
    (patchDirs dirs r).length = dirs.length := by
  simp only [patchDirs]
  split
  · exact List.length_modify _ _ _
  · rfl

theorem patchAllDirs_length (relocs : List Arm64XReloc) (dirs : List DirChunk) :
    (relocs.foldl patchDirs dirs).length = dirs.length := by
  induction relocs generalizing dirs with
  | nil => rfl
  | cons r relocs ih => rw [List.foldl_cons, ih, patchDirs_length]

theorem patchAllDirs_append (relocs : List Arm64XReloc) (dirs more : List DirChunk)
    (inside : ∀ r ∈ relocs, ∀ i, r.offset.chunk = some (.dirs i) → i < dirs.length) :
    relocs.foldl patchDirs (dirs ++ more) = relocs.foldl patchDirs dirs ++ more := by
  induction relocs generalizing dirs with
  | nil => rfl
  | cons r relocs ih =>
    have one : patchDirs (dirs ++ more) r = patchDirs dirs r ++ more := by
      simp only [patchDirs]
      split
      next i kind place => exact modify_append_left _ _ _ _ (inside r List.mem_cons_self i place)
      next => rfl
    rw [List.foldl_cons, List.foldl_cons, one]
    apply ih
    intro r' member i place
    rw [patchDirs_length]
    exact inside r' (List.mem_cons_of_mem _ member) i place

/-- The relocations of a block put every slot in its place and the null slot behind. -/
theorem Block.patched_lookups {base shown : Nat} {cs written : List Slot} {term : Option Slot}
    {relocs : List Arm64XReloc} (block : Block base cs written term relocs shown)
    (table : List Slot) (here : table.length = base) :
    relocs.foldl (patchSlots lookupsIndex) (table ++ (written ++ [term.getD .null])) =
      table ++ (cs ++ [.null]) := by
  cases block with
  | plain => rfl
  | split front c behind val whole value shape =>
    have len : cs.length = front.length + (behind.length + 1) := by
      rw [whole, List.length_append, List.length_cons]
    subst here
    simp only [terminatorRelocs, chunkPtr, List.foldl_cons, List.foldl_nil, patchSlots, lookupsIndex,
      Option.bind_some, value, Option.getD_some]
    -- one patch moves the EC import into the terminator's place, the other one ends the table
    rw [List.set_append_right _ _ (by omega), List.set_append_right _ _ (by omega), whole]
    have first : table.length + front.length - table.length = front.length := by omega
    have last : table.length + (front ++ c :: behind).length - table.length =
        front.length + (behind.length + 1) := by
      rw [List.length_append, List.length_cons]
      omega
    rw [first, last, List.append_assoc, List.set_append_right _ _ (Nat.le_refl _), Nat.sub_self,
      List.cons_append, List.set_cons_zero, List.set_append_right _ _ (by omega),
      Nat.add_sub_cancel_left, List.set_cons_succ, List.set_append_right _ _ (Nat.le_refl _),
      Nat.sub_self]
    simp

theorem Block.patched_addresses {base shown : Nat} {cs written : List Slot} {term : Option Slot}
    {relocs : List Arm64XReloc} (block : Block base cs written term relocs shown)
    (table : List Slot) (here : table.length = base) :
    relocs.foldl (patchSlots addressesIndex) (table ++ (written ++ [term.getD .null])) =
      table ++ (cs ++ [.null]) := by
  -- the relocations of a block treat the two tables alike
  rw [← block.patched_lookups table here]
  cases block with
  | plain => rfl
  | split front c behind val whole value shape => rfl

end Patch

end LlvmLd.Idata
