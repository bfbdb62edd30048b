import LlvmLd.Lib.Masking
import LlvmLd.Tools.ExternalCompare

/-!
What `compare_pair` lets two images and their PDBs differ in. Each file's fields are located by its
own headers, so a byte can be masked by one file alone, and the report mentions time stamps and
checksums only.
-/

namespace LlvmLd.Tools.ExternalCompare

/-! ### Fields -/

inductive ImageField where
  | coffTimestamp | debugTimestamp | guid
  deriving DecidableEq, Repr

structure Place where
  field : ImageField
  offset : Nat
  size : Nat
  deriving DecidableEq, Repr

def Place.bytes (p : Place) : Set ℕ := Set.Ico p.offset (p.offset + p.size)

namespace PeFields

def places (f : PeFields) : List Place :=
  ⟨.coffTimestamp, f.timestampOff, 4⟩ ::
    (f.debugTimestampOffs.map (fun off => ⟨.debugTimestamp, off, 4⟩) ++
      f.guidOff.toList.map (fun off => ⟨.guid, off, 16⟩))

def mask (f : PeFields) : Set ℕ := {i | ∃ p ∈ f.places, i ∈ p.bytes}

end PeFields

/-- The byte lies in one field that both images place there. -/
def InImageField (fa fb : PeFields) (i : Nat) : Prop :=
  ∃ p ∈ fa.places, p ∈ fb.places ∧ i ∈ p.bytes

structure PdbsRead (ours release : Bytes) (ma mb : Msf) (sca scb : List Contrib) : Prop where
  ours : Msf.init ours = .ok ma
  release : Msf.init release = .ok mb
  oursContribs : pdbSectionContribs ma = .ok sca
  releaseContribs : pdbSectionContribs mb = .ok scb

/-- The `k`-th byte of the stream's field at `off` is byte `i` of both files. -/
def SameByte (ma mb : Msf) (stream off k i : Nat) : Prop :=
  ma.fileOffset stream (off + k) = .ok i ∧ mb.fileOffset stream (off + k) = .ok i

structure EmptyContents (ca cb : Contrib) : Prop where
  ours : ca.size = 0 ∨ ca.characteristics &&& IMAGE_SCN_CNT_UNINITIALIZED_DATA ≠ 0
  release : cb.size = 0 ∨ cb.characteristics &&& IMAGE_SCN_CNT_UNINITIALIZED_DATA ≠ 0
  oursCrc : ca.dataCrc = 0
  releaseCrc : cb.dataCrc = 0xffffffff

def CrcDiffers (ca cb : Contrib) : Prop := ca.dataCrc ≠ cb.dataCrc

/-- The byte lies in one field of both PDBs; `counts` says which contributions' checksums do. -/
inductive InPdbField (counts : Contrib → Contrib → Prop) (ma mb : Msf) (sca scb : List Contrib)
    (i : Nat) : Prop where
  | signature (k : Nat) (inside : k < 4) (here : SameByte ma mb PDB_INFO_STREAM 4 k i)
  | guid (k : Nat) (inside : k < 16) (here : SameByte ma mb PDB_INFO_STREAM 12 k i)
  | dataCrc (ca cb : Contrib) (pair : (ca, cb) ∈ sca.zip scb) (counted : counts ca cb)
      (k : Nat) (inside : k < 4)
      (ours : ma.fileOffset PDB_DBI_STREAM (ca.off + 20 + k) = .ok i)
      (release : mb.fileOffset PDB_DBI_STREAM (cb.off + 20 + k) = .ok i)

def ImageExplained (ours release : Bytes) (i : Nat) : Prop :=
  ∃ fa fb, peBuildIdFields ours = .ok fa ∧ peBuildIdFields release = .ok fb ∧ InImageField fa fb i

def PdbExplained (ours release : Bytes) (i : Nat) : Prop :=
  ∃ ma mb sca scb, PdbsRead ours release ma mb sca scb ∧
    InPdbField EmptyContents ma mb sca scb i

def Identical (ours release : Bytes) (pdbs : Option (Bytes × Bytes)) : Prop :=
  ours = release ∧ ∀ p ∈ pdbs, p.1 = p.2

/-- Every difference stands in an explained field, and is reported. -/
structure NothingHidden (ours release : Bytes) (pdbs : Option (Bytes × Bytes))
    (explained : List Explained) : Prop where
  imageSizes : ours.length = release.length
  imageBytes : ∀ i, ours[i]? ≠ release[i]? → ImageExplained ours release i
  pdbSizes : ∀ p ∈ pdbs, p.1.length = p.2.length
  pdbBytes : ∀ p ∈ pdbs, ∀ i, p.1[i]? ≠ p.2[i]? → PdbExplained p.1 p.2 i
  reported : explained = [] ↔ Identical ours release pdbs

/-! ### What is masked -/

def infoMask (m : Msf) : Set ℕ :=
  {i | ∃ off, m.fileOffset PDB_INFO_STREAM 4 = .ok off ∧ i ∈ Set.Ico off (off + 4)} ∪
    {i | ∃ k < 16, m.fileOffset PDB_INFO_STREAM (12 + k) = .ok i}

def crcMask (side : Contrib × Contrib → Contrib) (pairs : List (Contrib × Contrib)) : Set ℕ :=
  {i | ∃ pair ∈ pairs, CrcDiffers pair.1 pair.2 ∧
    i ∈ Set.Ico (side pair).crcOff ((side pair).crcOff + 4)}

def pdbMask (ma mb : Msf) (sca scb : List Contrib) : Set ℕ :=
  (crcMask Prod.fst (sca.zip scb) ∪ infoMask ma) ∪ (crcMask Prod.snd (sca.zip scb) ∪ infoMask mb)

/-- Where only one image puts a field, the two agree all the same. -/
def ImageMasksAgree (ours release : Bytes) : Prop :=
  ∀ fa fb, peBuildIdFields ours = .ok fa → peBuildIdFields release = .ok fb →
    ∀ i ∈ fa.mask ∪ fb.mask, ¬InImageField fa fb i → ours[i]? = release[i]?

def PdbMasksAgree (ours release : Bytes) : Prop :=
  ∀ ma mb sca scb, PdbsRead ours release ma mb sca scb →
    ∀ i ∈ pdbMask ma mb sca scb, ¬InPdbField CrcDiffers ma mb sca scb i → ours[i]? = release[i]?

def TimestampsDiffer (ours release : Bytes) : Prop :=
  ∃ fa fb, peBuildIdFields ours = .ok fa ∧ peBuildIdFields release = .ok fb ∧
    fa.timestamp ≠ fb.timestamp

def SomeCrcDiffers (ours release : Bytes) : Prop :=
  ∃ ma mb sca scb, PdbsRead ours release ma mb sca scb ∧
    ∃ pair ∈ sca.zip scb, CrcDiffers pair.1 pair.2

/-- A field of one file alone covers no difference, and what differs includes a time stamp or a
checksum. -/
structure MasksAgree (ours release : Bytes) (pdbs : Option (Bytes × Bytes)) : Prop where
  imageMasks : ImageMasksAgree ours release
  pdbMasks : ∀ p ∈ pdbs, PdbMasksAgree p.1 p.2
  mentioned : Identical ours release pdbs ∨ TimestampsDiffer ours release ∨
    ∃ p ∈ pdbs, SomeCrcDiffers p.1 p.2

/-! ### Runs that return -/

private theorem bind_ok {α β : Type} (x : Run α) (f : α → Run β) (r : β) :
    (x >>= f) = .ok r ↔ ∃ a, x = .ok a ∧ f a = .ok r := by
  cases x with
  | error raised => simp [bind, Except.bind]
  | ok a => simp [bind, Except.bind]

private theorem pure_ok {α : Type} (a r : α) : (pure a : Run α) = .ok r ↔ a = r := by
  simp [pure, Except.pure]

/-- Behind a check, what the check asks for holds. -/
theorem demand_ok {α β : Type} {broken : Prop} [Decidable broken] (c : Complaint) (f : α → Run β)
    (next : Run β) (r : β) :
    (if broken then complain c >>= f else next) = .ok r ↔ ¬broken ∧ next = .ok r := by
  by_cases h : broken
  · simp [h, complain, bind, Except.bind]
  · simp [h]

private theorem unless_ok {β : Type} {broken : Prop} [Decidable broken] (c : Complaint)
    (next : Run β) (r : β) :
    (if broken then complain c else next) = .ok r ↔ ¬broken ∧ next = .ok r := by
  by_cases h : broken
  · simp [h, complain]
  · simp [h]

/-! ### Blanking -/

private theorem putU32_blanks (data data' : Bytes) (off : Nat)
    (done : putU32 data off 0 = .ok data') :
    Blanked 0 (Set.Ico off (off + 4)) data data' := by
  unfold putU32 at done
  by_cases inside : off + 4 ≤ data.length
  · rw [if_pos inside] at done
    cases done
    have past : max off (off + 4) = off + 4 := by omega
    rw [assignSlice, past]
    exact Blanked.splice data off 4 inside
  · rw [if_neg inside] at done
    cases done

private theorem putByte_blanks (data data' : Bytes) (i : Nat)
    (done : putByte data i 0 = .ok data') :
    Blanked 0 {i} data data' := by
  unfold putByte at done
  by_cases inside : i < data.length
  · rw [if_pos inside] at done
    cases done
    exact Blanked.set data i inside
  · rw [if_neg inside] at done
    cases done

private theorem zeroU32s_blanks (offs : List Nat) (data data' : Bytes)
    (done : zeroU32s offs data = .ok data') :
    Blanked 0 {i | ∃ off ∈ offs, i ∈ Set.Ico off (off + 4)} data data' := by
  induction offs generalizing data with
  | nil =>
    cases done
    apply (Blanked.refl 0 data').places_eq
    ext i
    simp
  | cons off offs ih =>
    rw [zeroU32s, bind_ok] at done
    obtain ⟨middle, first, rest⟩ := done
    apply ((putU32_blanks data middle off first).trans (ih middle rest)).places_eq
    ext i
    simp

/-! ### Images -/

/-- The GUID is the sixteen bytes at its place, or what there is of them. -/
def GuidRead (data : Bytes) (f : PeFields) : Prop :=
  f.guid = f.guidOff.map (fun off => data.slice off 16)

private theorem debugEntries_guid (data : Bytes) (n entry : Nat) (f f' : PeFields)
    (read : GuidRead data f) (done : debugEntries data n entry f = .ok f') : GuidRead data f' := by
  induction n generalizing entry f with
  | zero =>
    cases done
    exact read
  | succ n ih =>
    simp only [debugEntries, bind_ok] at done
    obtain ⟨dtype, -, done⟩ := done
    -- a CodeView entry has been checked for its signature, any other one leaves the GUID
    by_cases codeview : dtype = IMAGE_DEBUG_TYPE_CODEVIEW
    · rw [if_pos codeview, bind_ok] at done
      obtain ⟨cv, -, done⟩ := done
      rw [unless_ok] at done
      exact ih _ _ (by simp [GuidRead]) done.2
    · rw [if_neg codeview] at done
      exact ih _ { f with debugTimestampOffs := f.debugTimestampOffs ++ [entry + 4] } read done

private theorem peBuildIdFields_guid (data : Bytes) (f : PeFields)
    (done : peBuildIdFields data = .ok f) :
    GuidRead data f := by
  simp only [peBuildIdFields, demand_ok, bind_ok] at done
  obtain ⟨-, pe, -, -, numSections, -, optSize, -, magic, -, -, debug, -, sections, -, timestamp, -,
    done⟩ := done
  by_cases none' : debug.getD 1 0 = 0
  · rw [if_pos none', pure_ok] at done
    subst done
    rfl
  · rw [if_neg none', bind_ok] at done
    obtain ⟨base, -, done⟩ := done
    exact debugEntries_guid data _ base ⟨pe + 4 + 4, timestamp, [], none, none⟩ f rfl done

/-- A GUID that passes the check lies inside the image. -/
theorem guid_inside (side : Side) (data : Bytes) (f : PeFields) (read : GuidRead data f)
    (checked : checkPeBuildId side data f = .ok ()) (off : Nat) (placed : f.guidOff = some off) :
    off + 16 ≤ data.length := by
  rw [GuidRead, placed, Option.map_some] at read
  simp only [checkPeBuildId, bind_ok, read, unless_ok, ne_eq, not_not] at checked
  obtain ⟨-, -, suffix, -⟩ := checked
  have long := congrArg List.length suffix
  have eight : guidSuffix.length = 8 := rfl
  rw [eight, List.length_drop, Bytes.slice, List.length_take, List.length_drop] at long
  omega

private theorem normalizePe_blanks (side : Side) (data data' : Bytes) (f : PeFields)
    (read : GuidRead data f) (checked : checkPeBuildId side data f = .ok ())
    (done : normalizePe data f = .ok data') : Blanked 0 f.mask data data' := by
  simp only [normalizePe, bind_ok] at done
  obtain ⟨first, stamp, second, stamps, done⟩ := done
  -- The time stamps are cleared first, in the header and in each debug directory entry.
  have stamped := (putU32_blanks data first f.timestampOff stamp).trans
    (zeroU32s_blanks f.debugTimestampOffs first second stamps)
  cases placed : f.guidOff with
  | none =>
    simp only [placed, pure_ok] at done
    subst done
    apply stamped.places_eq
    ext i
    simp [PeFields.mask, PeFields.places, placed, Place.bytes]
  | some off =>
    simp only [placed, pure_ok] at done
    subst done
    have inside := guid_inside side data f read checked off placed
    have past : max off (off + 16) = off + 16 := by omega
    rw [assignSlice, past]
    -- The GUID lies in the file, as was checked, so the slice keeps the length.
    have guid : Blanked 0 (Set.Ico off (off + 16)) second
        (second.take off ++ List.replicate 16 0 ++ second.drop (off + 16)) := by
      apply Blanked.splice
      rw [stamped.length]
      exact inside
    apply (stamped.trans guid).places_eq
    ext i
    simp only [PeFields.mask, PeFields.places, placed, Place.bytes, Option.toList_some,
      List.map_cons, List.map_nil, List.mem_cons, List.mem_append, List.mem_map, Set.mem_union,
      Set.mem_ofPred_eq, List.not_mem_nil, or_false]
    constructor
    · rintro ((here | ⟨o, member, here⟩) | here)
      · exact ⟨_, .inl rfl, here⟩
      · exact ⟨_, .inr (.inl ⟨o, member, rfl⟩), here⟩
      · exact ⟨_, .inr (.inr rfl), here⟩
    · rintro ⟨p, rfl | ⟨o, member, rfl⟩ | rfl, here⟩
      · exact .inl (.inl here)
      · exact .inl (.inr ⟨o, member, here⟩)
      · exact .inr here

/-! ### PDBs -/

private theorem zeroGuid_blanks (m : Msf) (ks : List Nat) (pdb pdb' : Bytes)
    (done : zeroGuid m ks pdb = .ok pdb') :
    Blanked 0 {i | ∃ k ∈ ks, m.fileOffset PDB_INFO_STREAM (12 + k) = .ok i} pdb pdb' := by
  induction ks generalizing pdb with
  | nil =>
    cases done
    apply (Blanked.refl 0 pdb').places_eq
    -- the first byte, or one of those that are blanked behind it
    ext i
    simp
  | cons k ks ih =>
    simp only [zeroGuid, bind_ok] at done
    obtain ⟨off, located, middle, first, rest⟩ := done
    apply ((putByte_blanks pdb middle off first).trans (ih middle rest)).places_eq
    ext i
    simp only [Set.mem_union, Set.mem_singleton_iff, Set.mem_ofPred_eq, List.mem_cons]
    constructor
    · rintro (rfl | ⟨j, member, here⟩)
      · exact ⟨k, .inl rfl, located⟩
      · exact ⟨j, .inr member, here⟩
    · rintro ⟨j, rfl | member, here⟩
      · rw [located, Except.ok.injEq] at here
        exact .inl here.symm
      · exact .inr ⟨j, member, here⟩

private theorem zeroInfo_blanks (m : Msf) (pdb pdb' : Bytes) (done : zeroInfo m pdb = .ok pdb') :
    Blanked 0 (infoMask m) pdb pdb' := by
  simp only [zeroInfo, bind_ok] at done
  obtain ⟨off, located, middle, first, rest⟩ := done
  apply ((putU32_blanks pdb middle off first).trans (zeroGuid_blanks m _ middle pdb' rest)).places_eq
  ext i
  simp [infoMask, located]

private theorem emptyContents_of_explained (ca cb : Contrib)
    (explained : isExplainedCrc ca cb = true) :
    EmptyContents ca cb := by
  simp only [isExplainedCrc, isEmptyContrib, Bool.and_eq_true, Bool.or_eq_true, beq_iff_eq,
    bne_iff_ne, ne_eq] at explained
  obtain ⟨⟨⟨⟨characteristics, size⟩, empty⟩, ours⟩, release⟩ := explained
  refine ⟨empty, ?_, ours, release⟩
  rw [← size, ← characteristics]
  exact empty

/-- What `zeroCrcs` does to the two PDBs, and how it counts. -/
structure CrcsZeroed (pairs : List (Contrib × Contrib)) (a b a' b' : Bytes) (count count' : Nat) :
    Prop where
  ours : Blanked 0 (crcMask Prod.fst pairs) a a'
  release : Blanked 0 (crcMask Prod.snd pairs) b b'
  grows : count ≤ count'
  counted : count' = count ↔ ¬∃ pair ∈ pairs, CrcDiffers pair.1 pair.2
  explained : ∀ pair ∈ pairs, CrcDiffers pair.1 pair.2 → EmptyContents pair.1 pair.2

private theorem crcMask_cons_same (side : Contrib × Contrib → Contrib) (pair : Contrib × Contrib)
    (pairs : List (Contrib × Contrib)) (same : pair.1.dataCrc = pair.2.dataCrc) :
    crcMask side (pair :: pairs) = crcMask side pairs := by
  ext i
  simp [crcMask, CrcDiffers, same]

private theorem crcMask_cons_differ (side : Contrib × Contrib → Contrib) (pair : Contrib × Contrib)
    (pairs : List (Contrib × Contrib)) (differ : CrcDiffers pair.1 pair.2) :
    crcMask side (pair :: pairs) =
      Set.Ico (side pair).crcOff ((side pair).crcOff + 4) ∪ crcMask side pairs := by
  ext i
  simp [crcMask, differ]

private theorem zeroCrcs_blanks (pairs : List (Contrib × Contrib)) (a b : Bytes) (count : Nat)
    (r : Bytes × Bytes × Nat) (done : zeroCrcs pairs a b count = .ok r) :
    CrcsZeroed pairs a b r.1 r.2.1 count r.2.2 := by
  induction pairs generalizing a b count with
  | nil =>
    cases done
    have nothing (side : Contrib × Contrib → Contrib) : ∅ = crcMask side [] := by
      ext i
      simp [crcMask]
    exact ⟨(Blanked.refl 0 a).places_eq (nothing _), (Blanked.refl 0 b).places_eq (nothing _),
      Nat.le_refl count, by simp, by simp⟩
  | cons pair pairs ih =>
    obtain ⟨ca, cb⟩ := pair
    rw [zeroCrcs] at done
    by_cases same : ca.dataCrc = cb.dataCrc
    -- Equal checksums are left alone,
    · rw [if_pos same] at done
      have rest := ih a b count done
      have masks (side : Contrib × Contrib → Contrib) :=
        (crcMask_cons_same side (ca, cb) pairs same).symm
      refine ⟨rest.ours.places_eq (masks _), rest.release.places_eq (masks _), rest.grows, ?_, ?_⟩
      · rw [rest.counted]
        simp [CrcDiffers, same]
      · intro pair member differ
        rcases List.mem_cons.mp member with rfl | later
        · exact absurd same differ
        · exact rest.explained pair later differ
    · rw [if_neg same] at done
      by_cases explained : isExplainedCrc ca cb = true
      -- different ones are zeroed on both sides if they can be explained, and counted.
      · rw [if_pos explained] at done
        simp only [bind_ok] at done
        obtain ⟨a₁, ours, b₁, release, done⟩ := done
        have rest := ih a₁ b₁ (count + 1) done
        have grown := rest.grows
        have masks (side : Contrib × Contrib → Contrib) :=
          (crcMask_cons_differ side (ca, cb) pairs same).symm
        refine ⟨((putU32_blanks a a₁ _ ours).trans rest.ours).places_eq (masks Prod.fst),
          ((putU32_blanks b b₁ _ release).trans rest.release).places_eq (masks Prod.snd),
          by omega, ?_, ?_⟩
        · constructor
          · intro kept
            omega
          · intro nowhere
            exact absurd ⟨(ca, cb), List.mem_cons_self, same⟩ nowhere
        · intro pair member differ
          rcases List.mem_cons.mp member with rfl | later
          · exact emptyContents_of_explained ca cb explained
          · exact rest.explained pair later differ
      · rw [if_neg explained] at done
        cases done

private theorem comparePdbs_spec (ours release : Bytes) (fa fb : PeFields) (count : Nat)
    (done : comparePdbs ours release fa fb = .ok count) :
    ours.length = release.length ∧ ∃ ma mb sca scb, PdbsRead ours release ma mb sca scb ∧
      (∀ i, ours[i]? ≠ release[i]? → i ∈ pdbMask ma mb sca scb) ∧
      (count = 0 ↔ ¬∃ pair ∈ sca.zip scb, CrcDiffers pair.1 pair.2) ∧
      ∀ pair ∈ sca.zip scb, CrcDiffers pair.1 pair.2 → EmptyContents pair.1 pair.2 := by
  simp only [comparePdbs, demand_ok, bind_ok, pure_ok, ne_eq, not_not] at done
  obtain ⟨sizes, ma, ours', mb, release', -, -, -, -, sca, contribsA, scb, contribsB, -, zeroed,
    crcs, a, infoA, b, infoB, same, rfl⟩ := done
  have masked := zeroCrcs_blanks _ _ _ _ _ crcs
  refine ⟨sizes, ma, mb, sca, scb, ⟨ours', release', contribsA, contribsB⟩, ?_, masked.counted,
    masked.explained⟩
  subst same
  exact Blanked.mem_of_ne (masked.ours.trans (zeroInfo_blanks ma _ _ infoA))
    (masked.release.trans (zeroInfo_blanks mb _ _ infoB))

/-! ### The comparison -/

private theorem identical_iff (ours release : Bytes) (pdbs : Option (Bytes × Bytes)) :
    Identical ours release pdbs ↔ ours = release ∧ samePdbs pdbs = true := by
  cases pdbs with
  | none => simp [Identical, samePdbs]
  | some p => simp [Identical, samePdbs]

/-- The checksums that were counted, and what the PDBs may differ in. -/
structure PdbsCompared (pdbs : Option (Bytes × Bytes)) (count : Nat) : Prop where
  sizes : ∀ p ∈ pdbs, p.1.length = p.2.length
  counted : count = 0 ↔ ¬∃ p ∈ pdbs, SomeCrcDiffers p.1 p.2
  masked : ∀ p ∈ pdbs, ∃ ma mb sca scb, PdbsRead p.1 p.2 ma mb sca scb ∧
    (∀ i, p.1[i]? ≠ p.2[i]? → i ∈ pdbMask ma mb sca scb) ∧
    ∀ pair ∈ sca.zip scb, CrcDiffers pair.1 pair.2 → EmptyContents pair.1 pair.2

theorem PdbsRead.unique {ours release : Bytes} {ma mb ma' mb' : Msf} {sca scb sca' scb' : List Contrib}
    (read : PdbsRead ours release ma mb sca scb) (read' : PdbsRead ours release ma' mb' sca' scb') :
    ma' = ma ∧ mb' = mb ∧ sca' = sca ∧ scb' = scb := by
  have first : ma' = ma := Except.ok.inj (read'.ours.symm.trans read.ours)
  have second : mb' = mb := Except.ok.inj (read'.release.symm.trans read.release)
  subst first second
  exact ⟨rfl, rfl, Except.ok.inj (read'.oursContribs.symm.trans read.oursContribs),
    Except.ok.inj (read'.releaseContribs.symm.trans read.releaseContribs)⟩

private theorem emptyCrcs_spec (fa fb : PeFields) (pdbs : Option (Bytes × Bytes)) (count : Nat)
    (done : emptyCrcs fa fb pdbs = .ok count) : PdbsCompared pdbs count := by
  cases pdbs with
  | none =>
    cases done
    exact ⟨by simp, by simp, by simp⟩
  | some p =>
    obtain ⟨sizes, ma, mb, sca, scb, read, masked, counted, explained⟩ :=
      comparePdbs_spec p.1 p.2 fa fb count done
    refine ⟨?_, ?_, ?_⟩
    · intro p' member
      cases member
      exact sizes
    -- the count is zero when no pair differs in its checksum
    · rw [counted]
      apply not_congr
      constructor
      · intro differ
        exact ⟨p, rfl, ma, mb, sca, scb, read, differ⟩
      · rintro ⟨p', member, ma', mb', sca', scb', read', differ⟩
        cases member
        obtain ⟨rfl, rfl, rfl, rfl⟩ := read.unique read'
        exact differ
    · intro p' member
      cases member
      exact ⟨ma, mb, sca, scb, read, masked, explained⟩

/-- What has been established when the comparison of different files returns. -/
structure Compared (ours release : Bytes) (pdbs : Option (Bytes × Bytes))
    (explained : List Explained) (fa fb : PeFields) (count : Nat) : Prop where
  sizes : ours.length = release.length
  readOurs : peBuildIdFields ours = .ok fa
  readRelease : peBuildIdFields release = .ok fb
  masked : ∀ i, ours[i]? ≠ release[i]? → i ∈ fa.mask ∪ fb.mask
  pdbs : PdbsCompared pdbs count
  silent : explained = [] ↔ count = 0 ∧ fa.timestamp = fb.timestamp

private theorem comparePair_spec (ours release : Bytes) (pdbs : Option (Bytes × Bytes))
    (explained : List Explained) (returned : comparePair ours release pdbs = .ok explained)
    (other : ¬Identical ours release pdbs) :
    ∃ fa fb count, Compared ours release pdbs explained fa fb count := by
  rw [identical_iff] at other
  rw [comparePair, if_neg other] at returned
  simp only [demand_ok, bind_ok, pure_ok, ne_eq, not_not] at returned
  obtain ⟨sizes, fa, readA, fb, readB, _, checkedA, _, checkedB, count, crcs, a, zeroedA, b,
    zeroedB, same, rfl⟩ := returned
  have blankA := normalizePe_blanks .ours ours a fa (peBuildIdFields_guid ours fa readA) checkedA
    zeroedA
  have blankB := normalizePe_blanks .release release b fb (peBuildIdFields_guid release fb readB)
    checkedB zeroedB
  subst same
  refine ⟨fa, fb, count, sizes, readA, readB, blankA.mem_of_ne blankB,
    emptyCrcs_spec fa fb pdbs count crcs, ?_⟩
  -- what is mentioned: empty checksums, then the build id, and each only when it differs
  by_cases counted : count = 0
  · by_cases stamp : fa.timestamp = fb.timestamp
    · simp [counted, stamp]
    · simp [counted, stamp]
  · simp [counted]

theorem InPdbField.mono {p q : Contrib → Contrib → Prop} {ma mb : Msf} {sca scb : List Contrib}
    {i : Nat} (field : InPdbField p ma mb sca scb i)
    (weaken : ∀ ca cb, (ca, cb) ∈ sca.zip scb → p ca cb → q ca cb) :
    InPdbField q ma mb sca scb i := by
  cases field with
  | signature k inside here => exact .signature k inside here
  | guid k inside here => exact .guid k inside here
  | dataCrc ca cb pair counted k inside ours release =>
    exact .dataCrc ca cb pair (weaken ca cb pair counted) k inside ours release

theorem EmptyContents.differ {ca cb : Contrib} (empty : EmptyContents ca cb) : CrcDiffers ca cb := by
  rw [CrcDiffers, empty.oursCrc, empty.releaseCrc]
  decide

private theorem masksAgree_of_nothingHidden (ours release : Bytes) (pdbs : Option (Bytes × Bytes))
    (explained : List Explained) (returned : comparePair ours release pdbs = .ok explained)
    (hidden : NothingHidden ours release pdbs explained) : MasksAgree ours release pdbs where
  imageMasks := by
    intro fa fb readA readB i _ apart
    by_contra differ
    obtain ⟨fa', fb', readA', readB', common⟩ := hidden.imageBytes i differ
    cases readA.symm.trans readA'
    cases readB.symm.trans readB'
    exact apart common
  pdbMasks := by
    intro p member ma mb sca scb read i _ apart
    by_contra differ
    obtain ⟨ma', mb', sca', scb', read', common⟩ := hidden.pdbBytes p member i differ
    obtain ⟨rfl, rfl, rfl, rfl⟩ := read.unique read'
    exact apart (common.mono (fun _ _ _ empty => empty.differ))
  mentioned := by
    -- identical builds need no mention; else the report is empty only without a difference
    by_cases same : Identical ours release pdbs
    · exact .inl same
    · obtain ⟨fa, fb, count, compared⟩ := comparePair_spec ours release pdbs explained returned same
      have said : ¬(count = 0 ∧ fa.timestamp = fb.timestamp) := by
        intro silent
        exact same (hidden.reported.mp (compared.silent.mpr silent))
      by_cases stamp : fa.timestamp = fb.timestamp
      · have counted : count ≠ 0 := fun none' => said ⟨none', stamp⟩
        rw [ne_eq, compared.pdbs.counted, not_not] at counted
        exact .inr (.inr counted)
      · exact .inr (.inl ⟨fa, fb, compared.readOurs, compared.readRelease, stamp⟩)

private theorem nothingHidden_of_masksAgree (ours release : Bytes) (pdbs : Option (Bytes × Bytes))
    (explained : List Explained) (returned : comparePair ours release pdbs = .ok explained)
    (agree : MasksAgree ours release pdbs) : NothingHidden ours release pdbs explained := by
  by_cases same : Identical ours release pdbs
  -- Identical builds are not looked into any further.
  · have silent : explained = [] := by
      rw [comparePair, if_pos ((identical_iff ours release pdbs).mp same), pure_ok] at returned
      exact returned.symm
    obtain ⟨rfl, equal⟩ := same
    refine ⟨rfl, fun i differ => absurd rfl differ, ?_, ?_, iff_of_true silent ⟨rfl, equal⟩⟩
    · intro p member
      rw [equal p member]
    · intro p member i differ
      rw [equal p member] at differ
      exact absurd rfl differ
  · obtain ⟨fa, fb, count, compared⟩ := comparePair_spec ours release pdbs explained returned same
    refine ⟨compared.sizes, ?_, compared.pdbs.sizes, ?_, ?_⟩
    -- A byte that differs is masked on one side, and on the other as the masks agree.
    · intro i differ
      refine ⟨fa, fb, compared.readOurs, compared.readRelease, ?_⟩
      by_contra apart
      exact differ (agree.imageMasks fa fb compared.readOurs compared.readRelease i
        (compared.masked i differ) apart)
    · intro p member i differ
      obtain ⟨ma, mb, sca, scb, read, masked, empty⟩ := compared.pdbs.masked p member
      refine ⟨ma, mb, sca, scb, read, ?_⟩
      by_contra apart
      apply differ
      apply agree.pdbMasks p member ma mb sca scb read i (masked i differ)
      intro field
      exact apart (field.mono (fun ca cb pair => empty (ca, cb) pair))
    -- Builds that differ are mentioned in one of the explanations.
    · apply iff_of_false _ same
      rw [compared.silent, compared.pdbs.counted]
      rintro ⟨uncounted, stamp⟩
      rcases agree.mentioned with identical | ⟨fa', fb', readA, readB, stamps⟩ | counted
      · exact same identical
      · cases compared.readOurs.symm.trans readA
        cases compared.readRelease.symm.trans readB
        exact stamps stamp
      · exact uncounted counted

/-- A comparison that returns has hidden nothing exactly when no byte masked for one file alone
differs, and a time stamp or a checksum differs if anything does. -/
theorem comparison_hides_nothing_iff (ours release : Bytes) (pdbs : Option (Bytes × Bytes))
    (explained : List Explained) (returned : comparePair ours release pdbs = .ok explained) :
    NothingHidden ours release pdbs explained ↔ MasksAgree ours release pdbs :=
  ⟨masksAgree_of_nothingHidden ours release pdbs explained returned,
    nothingHidden_of_masksAgree ours release pdbs explained returned⟩

/-! ### Two small images -/

/-- An image with one section, which holds a debug directory of one entry and its CodeView record. -/
def sampleImage (timestamp : Nat) (guid : UInt8) : Bytes :=
  [0x4d, 0x5a] ++ List.replicate 58 0 ++ le32 64 ++
    -- the COFF header
    [0x50, 0x45, 0, 0] ++ le16 0 ++ le16 1 ++ le32 timestamp ++ List.replicate 8 0 ++ le16 168 ++
    le16 0 ++
    -- the optional header, up to the directory entry for debug data
    le16 0x20b ++ List.replicate 158 0 ++ le32 0x1000 ++ le32 28 ++
    -- the section header
    List.replicate 8 0 ++ le32 100 ++ le32 0x1000 ++ le32 100 ++ le32 296 ++ List.replicate 16 0 ++
    -- the section
    le32 0 ++ le32 timestamp ++ le32 0 ++ le32 2 ++ List.replicate 8 0 ++ le32 324 ++
    [0x52, 0x53, 0x44, 0x53] ++ [guid, 2, 3, 4, 5, 6, 7, 8] ++ guidSuffix

/-- Two GUIDs under one time stamp are not reported. -/
theorem guid_difference_unreported :
    comparePair (sampleImage 5 0) (sampleImage 5 1) none = .ok [] ∧
      ¬NothingHidden (sampleImage 5 0) (sampleImage 5 1) none [] := by
  refine ⟨by decide +kernel, ?_⟩
  intro hidden
  have same := (hidden.reported.mp rfl).1
  revert same
  decide +kernel

private theorem imageMasksAgree_of_places (ours release : Bytes) (fa fb : PeFields)
    (readA : peBuildIdFields ours = .ok fa) (readB : peBuildIdFields release = .ok fb)
    (same : fa.places = fb.places) : ImageMasksAgree ours release := by
  intro fa' fb' readA' readB' i masked apart
  cases readA.symm.trans readA'
  cases readB.symm.trans readB'
  exfalso
  apply apart
  rcases masked with ⟨p, member, here⟩ | ⟨p, member, here⟩
  · exact ⟨p, member, same ▸ member, here⟩
  · exact ⟨p, same ▸ member, member, here⟩

def sampleFields (timestamp : Nat) (guid : UInt8) : PeFields :=
  ⟨72, timestamp, [300], some 328, some ([guid, 2, 3, 4, 5, 6, 7, 8] ++ guidSuffix)⟩

/-- A block of 64 bytes. -/
def block (bytes : Bytes) : Bytes := bytes ++ List.replicate (64 - bytes.length) 0

/-- The PDB of such an image, with one contribution of a section without data. -/
def samplePdb (guid : UInt8) (dataCrc : Nat) : Bytes :=
  block (MSF_MAGIC ++ le32 64 ++ le32 1 ++ le32 6 ++ le32 32 ++ le32 0 ++ le32 1) ++
    -- the directory stands in block 2 and lists four streams
    block (le32 2) ++
    block (le32 4 ++ le32 0 ++ le32 28 ++ le32 0 ++ le32 96 ++ le32 3 ++ le32 4 ++ le32 5) ++
    -- the info stream
    block (List.replicate 4 0 ++ [guid, 2, 3, 4] ++ List.replicate 4 0 ++
      [guid, 2, 3, 4, 5, 6, 7, 8] ++ guidSuffix) ++
    -- the header of the DBI stream, and the contributions
    block (List.replicate 28 0 ++ le32 32) ++
    block (le32 SC_VER60 ++ List.replicate 8 0 ++ le32 8 ++ le32 0xC0000080 ++ List.replicate 4 0 ++
      le32 dataCrc)

def sampleMsf (guid : UInt8) (dataCrc : Nat) : Msf :=
  ⟨64, [(0, []), (28, [3]), (0, []), (96, [4, 5])], samplePdb guid dataCrc⟩

def sampleContrib (dataCrc : Nat) : Contrib := ⟨68, 8, 0xC0000080, 344, dataCrc⟩

private theorem fileOffset_congr {ma mb : Msf} (bs : ma.bs = mb.bs)
    (streams : ma.streams = mb.streams) (stream off : Nat) :
    ma.fileOffset stream off = mb.fileOffset stream off := by
  rw [Msf.fileOffset, Msf.fileOffset, bs, streams]

/-- PDBs that put the same fields at the same places, in one piece each. -/
theorem pdbMasksAgree_of_layout (ours release : Bytes) {ma mb : Msf} {sca scb : List Contrib}
    (read : PdbsRead ours release ma mb sca scb) (bs : ma.bs = mb.bs)
    (streams : ma.streams = mb.streams)
    (signature : ∀ off, ma.fileOffset PDB_INFO_STREAM 4 = .ok off →
      ∀ k < 4, ma.fileOffset PDB_INFO_STREAM (4 + k) = .ok (off + k))
    (contribs : ∀ pair ∈ sca.zip scb, pair.1.off = pair.2.off ∧ pair.1.crcOff = pair.2.crcOff ∧
      ∀ k < 4, ma.fileOffset PDB_DBI_STREAM (pair.1.off + 20 + k) = .ok (pair.1.crcOff + k)) :
    PdbMasksAgree ours release := by
  have same := fileOffset_congr bs streams
  intro ma' mb' sca' scb' read' i masked apart
  cases read.ours.symm.trans read'.ours
  cases read.release.symm.trans read'.release
  cases read.oursContribs.symm.trans read'.oursContribs
  cases read.releaseContribs.symm.trans read'.releaseContribs
  exfalso
  apply apart
  -- with one layout, a masked byte is the same byte of the same field in both
  have crc : ∀ pair ∈ sca.zip scb, CrcDiffers pair.1 pair.2 →
      i ∈ Set.Ico pair.1.crcOff (pair.1.crcOff + 4) → InPdbField CrcDiffers ma mb sca scb i := by
    rintro ⟨ca, cb⟩ member differs ⟨low, high⟩
    obtain ⟨off, -, whole⟩ := contribs _ member
    obtain ⟨k, rfl⟩ := Nat.exists_eq_add_of_le low
    have here := whole k (by omega)
    refine .dataCrc ca cb member differs k (by omega) here ?_
    rw [← same, ← off]
    exact here
  have info : i ∈ infoMask ma → InPdbField CrcDiffers ma mb sca scb i := by
    rintro (⟨off, found, low, high⟩ | ⟨k, inside, found⟩)
    · obtain ⟨k, rfl⟩ := Nat.exists_eq_add_of_le low
      have here := signature off found k (by omega)
      exact .signature k (by omega) ⟨here, (same _ _).symm.trans here⟩
    · exact .guid k inside ⟨found, (same _ _).symm.trans found⟩
  rcases masked with (⟨pair, member, differs, here⟩ | inInfo) | (⟨pair, member, differs, here⟩ | inInfo)
  · exact crc pair member differs here
  · exact info inInfo
  · rw [← (contribs pair member).2.1] at here
    exact crc pair member differs here
  · apply info
    simpa only [infoMask, same] using inInfo

/-- The images differ in time stamp and GUID, the PDBs in the GUID and in the checksum of a
contribution without data. -/
theorem builds_differ_in_fields :
    comparePair (sampleImage 5 0) (sampleImage 6 1)
        (some (samplePdb 0 0, samplePdb 1 0xffffffff)) = .ok [.emptyCrcs 1, .buildId] ∧
      NothingHidden (sampleImage 5 0) (sampleImage 6 1)
        (some (samplePdb 0 0, samplePdb 1 0xffffffff)) [.emptyCrcs 1, .buildId] := by
  have ours : peBuildIdFields (sampleImage 5 0) = .ok (sampleFields 5 0) := by decide +kernel
  have release : peBuildIdFields (sampleImage 6 1) = .ok (sampleFields 6 1) := by decide +kernel
  have read : PdbsRead (samplePdb 0 0) (samplePdb 1 0xffffffff) (sampleMsf 0 0)
      (sampleMsf 1 0xffffffff) [sampleContrib 0] [sampleContrib 0xffffffff] := by
    constructor <;> decide +kernel
  have returned : comparePair (sampleImage 5 0) (sampleImage 6 1)
      (some (samplePdb 0 0, samplePdb 1 0xffffffff)) = .ok [.emptyCrcs 1, .buildId] := by
    decide +kernel
  refine ⟨returned, (comparison_hides_nothing_iff _ _ _ _ returned).mpr ⟨?_, ?_, ?_⟩⟩
  · exact imageMasksAgree_of_places _ _ _ _ ours release rfl
  · rintro p member
    cases member
    refine pdbMasksAgree_of_layout _ _ read rfl rfl ?_ (by decide)
    intro off found
    cases found
    decide
  · exact .inr (.inl ⟨_, _, ours, release, by decide⟩)

end LlvmLd.Tools.ExternalCompare
