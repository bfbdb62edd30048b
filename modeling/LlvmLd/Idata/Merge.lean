import LlvmLd.Idata.Loader

/-!
Which native and EC imports `create` merges. The scan of one DLL keeps every import, either by itself
or as the native half of an EC import; the sort then puts native, merged and EC imports one behind
the other.
-/

namespace LlvmLd.Idata

open LlvmLd.Writer (Machine)

section Merge

variable {ι : Type} [DecidableEq ι] (file : ι → ImportFile) (target : Machine)

/-- The pairs that the scan of one DLL merges; `isSameImport` is asked of the second. -/
def pairs : Option ι → List ι → List (ι × ι)
  | _, [] => []
  | none, sym :: syms => pairs (some sym) syms
  | some prev, sym :: syms =>
    if isEC file target sym = isEC file target prev ∨ (file sym).isSameImport (file prev) = false then
      pairs (some sym) syms
    else (prev, sym) :: pairs none syms

/-- Both by name, or both by ordinal. -/
def SameKind (a b : ι) : Prop := (file a).externalName.1 = [] ↔ (file b).externalName.1 = []

/-- What the file asks the loader for. -/
def asks (f : ι) : Request :=
  if (file f).externalName.1 = [] then .ordinal (file f).ordinalHint
  else .name (file f).externalName.1

omit [DecidableEq ι] in
/-- Files that `isSameImport` takes for one ask for one thing, unless one has a name and the other an
ordinal. -/
theorem asks_eq_iff (a b : ι) (same : (file b).isSameImport (file a) = true) :
    asks file b = asks file a ↔ SameKind file a b := by
  simp only [ImportFile.isSameImport] at same
  by_cases named : (file b).externalName.1 = []
  · rw [if_neg (not_not.mpr named), beq_iff_eq] at same
    by_cases other : (file a).externalName.1 = []
    · simp [asks, SameKind, named, other, same]
    · simp [asks, SameKind, named, other]
  · rw [if_pos named, beq_iff_eq] at same
    simp [asks, SameKind, same, named]

variable {file target}

/-- The state of the scan behind the symbols of `done`; `start` is the map it began with. -/
structure Scanned (start : ι → Option ι) (done : List ι) (s : MergeState ι) : Prop where
  perm : done.Perm (s.hybridSyms ++ s.hybridSyms.filterMap s.hybridFile)
  halves : ∀ f ∈ s.hybridSyms, ∀ t, s.hybridFile f = some t →
    s.hybridFile t = some f ∧ isEC file target f = true ∧ isEC file target t = false
  prev : ∀ f, s.prev = some f →
    (∃ front, s.hybridSyms = front ++ [f]) ∧ s.hybridFile f = none
  outside : ∀ f ∉ done, s.hybridFile f = start f

/-- The merged files ask for the same. -/
def Alike (file : ι → ImportFile) (s : MergeState ι) : Prop :=
  ∀ f ∈ s.hybridSyms, ∀ t, s.hybridFile f = some t → asks file f = asks file t

def nativeCount (file : ι → ImportFile) (target : Machine) (l : List ι) : Nat :=
  (l.filter (fun f => isEC file target f = false)).length

omit [DecidableEq ι] in
theorem nativeCount_append (a b : List ι) :
    nativeCount file target (a ++ b) = nativeCount file target a + nativeCount file target b := by
  simp [nativeCount]

/-- The partner map behind a merge. -/
def joined (H : ι → Option ι) (prev sym : ι) : ι → Option ι :=
  Function.update (Function.update H prev (some sym)) sym (some prev)

private theorem joined_other (H : ι → Option ι) (prev sym f : ι) (first : f ≠ prev)
    (second : f ≠ sym) :
    joined H prev sym f = H f := by
  rw [joined, Function.update_of_ne second, Function.update_of_ne first]

private theorem joined_prev (H : ι → Option ι) (prev sym : ι) (apart : prev ≠ sym) :
    joined H prev sym prev = some sym := by
  rw [joined, Function.update_of_ne apart, Function.update_self]

private theorem joined_sym (H : ι → Option ι) (prev sym : ι) :
    joined H prev sym sym = some prev := by
  rw [joined, Function.update_self]

/-- What a step of the scan does: it keeps the symbol, or merges it with the one before. -/
inductive ScanStep (file : ι → ImportFile) (target : Machine) (s : MergeState ι) (sym : ι) :
    MergeState ι → List (ι × ι) → Prop
  | keep : ScanStep file target s sym
      { s with hybridSyms := s.hybridSyms ++ [sym], prev := some sym } []
  | mergeEC (prev : ι) (front : List ι) (last : s.prev = some prev)
      (whole : s.hybridSyms = front ++ [prev]) (ec : isEC file target sym = true)
      (native : isEC file target prev = false) (same : (file sym).isSameImport (file prev) = true) :
      ScanStep file target s sym
        ⟨front ++ [sym], none, joined s.hybridFile prev sym⟩ [(prev, sym)]
  | mergeNative (prev : ι) (front : List ι) (last : s.prev = some prev)
      (whole : s.hybridSyms = front ++ [prev]) (native : isEC file target sym = false)
      (ec : isEC file target prev = true) (same : (file sym).isSameImport (file prev) = true) :
      ScanStep file target s sym
        ⟨front ++ [prev], none, joined s.hybridFile prev sym⟩ [(prev, sym)]

private theorem mergeSym_cases {start : ι → Option ι} {done : List ι} {s : MergeState ι}
    (scanned : @Scanned _ file target start done s) (sym : ι) (rest : List ι) :
    ∃ found, ScanStep file target s sym (mergeSym file target s sym) found ∧
      pairs file target s.prev (sym :: rest) =
        found ++ pairs file target (mergeSym file target s sym).prev rest := by
  cases last : s.prev with
  | none =>
    refine ⟨[], ?_, ?_⟩
    · simp only [mergeSym, last]
      exact .keep
    · simp [mergeSym, last, pairs]
  | some prev =>
    -- With no previous symbol, or one of the same kind or of another import, nothing merges.
    by_cases apart : isEC file target sym = isEC file target prev ∨
        (file sym).isSameImport (file prev) = false
    · refine ⟨[], ?_, ?_⟩
      · simp only [mergeSym, last, if_pos apart]
        exact .keep
      · simp only [mergeSym, last, if_pos apart, pairs, List.nil_append]
    · obtain ⟨⟨front, whole⟩, -⟩ := scanned.prev prev last
      have same : (file sym).isSameImport (file prev) = true := by
        cases answer : (file sym).isSameImport (file prev) with
        | true => rfl
        | false => exact absurd (.inr answer) apart
      refine ⟨[(prev, sym)], ?_, ?_⟩
      · simp only [mergeSym, last, if_neg apart]
        -- Of the two the EC one stays in the list.
        cases kind : isEC file target sym with
        | true =>
          have native : isEC file target prev = false := by
            cases other : isEC file target prev with
            | false => rfl
            | true => exact absurd (.inl (kind.trans other.symm)) apart
          rw [if_pos rfl, whole, List.dropLast_concat]
          exact .mergeEC prev front last whole kind native same
        | false =>
          have ec : isEC file target prev = true := by
            cases other : isEC file target prev with
            | true => rfl
            | false => exact absurd (.inl (kind.trans other.symm)) apart
          rw [if_neg (by decide), whole]
          exact .mergeNative prev front last whole kind ec same
      · simp only [mergeSym, last, if_neg apart, pairs, List.singleton_append]

omit [DecidableEq ι] in
private theorem Scanned.mem_done {start : ι → Option ι} {done : List ι} {s : MergeState ι}
    (scanned : @Scanned _ file target start done s) (f : ι)
    (member : f ∈ s.hybridSyms) : f ∈ done ∧ ∀ t, s.hybridFile f = some t → t ∈ done := by
  constructor
  · exact scanned.perm.mem_iff.mpr (List.mem_append_left _ member)
  · intro t half
    exact scanned.perm.mem_iff.mpr
      (List.mem_append_right _ (List.mem_filterMap.mpr ⟨f, member, half⟩))

omit [DecidableEq ι] in
theorem Scanned.keep {start : ι → Option ι} {done : List ι} {s : MergeState ι}
    (scanned : @Scanned _ file target start done s) (sym : ι)
    (alone : s.hybridFile sym = none) :
    @Scanned _ file target start (done ++ [sym])
      { s with hybridSyms := s.hybridSyms ++ [sym], prev := some sym } := by
  constructor
  · have single : [sym].filterMap s.hybridFile = [] := by simp [alone]
    rw [List.filterMap_append, single, List.append_nil]
    -- the new symbol has no partner, so it goes in front of the partners there are
    have moved : (s.hybridSyms ++ [sym] ++ s.hybridSyms.filterMap s.hybridFile).Perm
        (s.hybridSyms ++ s.hybridSyms.filterMap s.hybridFile ++ [sym]) := by
      rw [List.append_assoc, List.append_assoc]
      exact List.Perm.append_left _ List.perm_append_comm
    exact (scanned.perm.append_right [sym]).trans moved.symm
  · intro f member t half
    rcases List.mem_append.mp member with old | new
    · exact scanned.halves f old t half
    · cases List.mem_singleton.mp new
      rw [alone] at half
      cases half
  · intro f last
    cases last
    exact ⟨⟨s.hybridSyms, rfl⟩, alone⟩
  · intro f apart
    exact scanned.outside f (fun member => apart (List.mem_append_left _ member))

/-- A merge keeps the EC half, `kept`, and makes the other its partner. -/
theorem Scanned.merge {start : ι → Option ι} {done front : List ι} {s : MergeState ι}
    (scanned : @Scanned _ file target start done s) (nodup : done.Nodup)
    (sym prev kept lost : ι) (fresh : sym ∉ done) (last : s.prev = some prev)
    (whole : s.hybridSyms = front ++ [prev])
    (which : (kept = sym ∧ lost = prev) ∨ (kept = prev ∧ lost = sym))
    (ec : isEC file target kept = true) (native : isEC file target lost = false) :
    @Scanned _ file target start (done ++ [sym])
        ⟨front ++ [kept], none, joined s.hybridFile prev sym⟩ ∧
      (Alike file ⟨front ++ [kept], none, joined s.hybridFile prev sym⟩ ↔
        Alike file s ∧ asks file kept = asks file lost) := by
  have alone := (scanned.prev prev last).2
  have prevDone : prev ∈ done := (scanned.mem_done prev (by simp [whole])).1
  have apart : prev ≠ sym := by
    rintro rfl
    exact fresh prevDone
  have kept_half : joined s.hybridFile prev sym kept = some lost := by
    rcases which with ⟨rfl, rfl⟩ | ⟨rfl, rfl⟩
    · exact joined_sym _ _ _
    · exact joined_prev _ _ _ apart
  have lost_half : joined s.hybridFile prev sym lost = some kept := by
    rcases which with ⟨rfl, rfl⟩ | ⟨rfl, rfl⟩
    · exact joined_prev _ _ _ apart
    · exact joined_sym _ _ _
  have frontMem : ∀ f ∈ front, f ∈ s.hybridSyms := fun f member => by simp [whole, member]
  -- neither the symbols in front nor their partners are touched
  have front_half : ∀ f ∈ front, joined s.hybridFile prev sym f = s.hybridFile f := by
    intro f member
    have distinct : s.hybridSyms.Nodup := (List.nodup_append.mp (scanned.perm.nodup_iff.mp nodup)).1
    apply joined_other
    · rintro rfl
      rw [whole, List.nodup_append] at distinct
      exact distinct.2.2 f member f (by simp) rfl
    · rintro rfl
      exact fresh (scanned.mem_done f (frontMem f member)).1
  have partner_half : ∀ f ∈ front, ∀ t, s.hybridFile f = some t →
      joined s.hybridFile prev sym t = s.hybridFile t := by
    intro f member t half
    apply joined_other
    · rintro rfl
      have back := (scanned.halves f (frontMem f member) t half).1
      rw [alone] at back
      cases back
    · rintro rfl
      exact fresh ((scanned.mem_done f (frontMem f member)).2 t half)
  have partners : (front ++ [kept]).filterMap (joined s.hybridFile prev sym) =
      front.filterMap s.hybridFile ++ [lost] := by
    rw [List.filterMap_append, List.filterMap_congr front_half]
    simp [kept_half]
  constructor
  · constructor
    · have before : s.hybridSyms.filterMap s.hybridFile = front.filterMap s.hybridFile := by
        rw [whole, List.filterMap_append]
        simp [alone]
      have both : (done ++ [sym]).Perm (front ++ front.filterMap s.hybridFile ++ [prev, sym]) := by
        have moved := scanned.perm
        rw [before, whole, List.append_assoc] at moved
        have swapped := (moved.trans (List.Perm.append_left front
          (@List.perm_append_comm _ [prev] (front.filterMap s.hybridFile)))).append_right
            [sym]
        simpa using swapped
      have halves : [prev, sym].Perm [kept, lost] := by
        rcases which with ⟨rfl, rfl⟩ | ⟨rfl, rfl⟩
        · exact List.Perm.swap _ _ _
        · exact List.Perm.refl _
      rw [partners]
      refine (both.trans (List.Perm.append_left _ halves)).trans ?_
      rw [List.append_assoc, List.append_assoc]
      apply List.Perm.append_left
      exact List.perm_middle
    · intro f member t half
      dsimp only at half ⊢
      rcases List.mem_append.mp member with old | new
      · rw [front_half f old] at half
        rw [partner_half f old t half]
        exact scanned.halves f (frontMem f old) t half
      · cases List.mem_singleton.mp new
        rw [kept_half, Option.some.injEq] at half
        subst half
        exact ⟨lost_half, ec, native⟩
    · intro f none'
      cases none'
    · intro f outside
      have notSym : f ≠ sym := fun same => outside (by simp [same])
      have notDone : f ∉ done := fun member => outside (List.mem_append_left _ member)
      have notPrev : f ≠ prev := fun same => notDone (same ▸ prevDone)
      dsimp only
      rw [joined_other _ _ _ _ notPrev notSym]
      exact scanned.outside f notDone
  · constructor
    · intro alike
      refine ⟨?_, alike kept (by simp) lost kept_half⟩
      intro f member t half
      rw [whole] at member
      rcases List.mem_append.mp member with old | new
      · exact alike f (List.mem_append_left _ old) t ((front_half f old).trans half)
      · cases List.mem_singleton.mp new
        rw [alone] at half
        cases half
    · rintro ⟨before, now⟩ f member t half
      dsimp only at half
      rcases List.mem_append.mp member with old | new
      · rw [front_half f old] at half
        exact before f (frontMem f old) t half
      · cases List.mem_singleton.mp new
        rw [kept_half, Option.some.injEq] at half
        rw [← half]
        exact now

/-- What a step keeps: the invariant, what the merges found so far say, and the native imports. -/
structure StepKeeps (file : ι → ImportFile) (target : Machine) (start : ι → Option ι)
    (done : List ι) (s s' : MergeState ι) (syms : List ι) (found : List (ι × ι)) : Prop where
  scanned : @Scanned _ file target start (done ++ syms) s'
  alike : Alike file s' ↔ Alike file s ∧ ∀ p ∈ found, SameKind file p.1 p.2
  natives : nativeCount file target s'.hybridSyms + found.length =
    nativeCount file target s.hybridSyms + nativeCount file target syms

theorem ScanStep.keeps {start : ι → Option ι} {done : List ι} {s s' : MergeState ι} {sym : ι}
    {found : List (ι × ι)} (step : ScanStep file target s sym s' found)
    (scanned : @Scanned _ file target start done s) (nodup : done.Nodup)
    (fresh : sym ∉ done) (alone : start sym = none) :
    StepKeeps file target start done s s' [sym] found := by
  have single : s.hybridFile sym = none := (scanned.outside sym fresh).trans alone
  cases step with
  -- A symbol that is kept has no half, so it asks for nothing and counts by its own kind.
  | keep =>
    refine ⟨scanned.keep sym single, ?_, ?_⟩
    · constructor
      · intro alike
        exact ⟨fun f member => alike f (List.mem_append_left _ member), by simp⟩
      · rintro ⟨before, -⟩ f member t half
        rcases List.mem_append.mp member with old | new
        · exact before f old t half
        · cases List.mem_singleton.mp new
          dsimp only at half
          rw [single] at half
          cases half
    · rw [nativeCount_append]
      rfl
  -- The one that leaves the list is native, and counts no more.
  | mergeEC prev front last whole ec native same =>
    obtain ⟨merged, alike⟩ := scanned.merge nodup sym prev sym prev fresh last whole
      (.inl ⟨rfl, rfl⟩) ec native
    refine ⟨merged, ?_, ?_⟩
    · rw [alike, asks_eq_iff file prev sym same]
      simp
    · rw [whole, nativeCount_append, nativeCount_append]
      simp [nativeCount, ec, native]
  -- Here the native one never enters the list.
  | mergeNative prev front last whole native ec same =>
    obtain ⟨merged, alike⟩ := scanned.merge nodup sym prev prev sym fresh last whole
      (.inr ⟨rfl, rfl⟩) ec native
    refine ⟨merged, ?_, ?_⟩
    · rw [alike, eq_comm, asks_eq_iff file prev sym same]
      simp
    · rw [whole, nativeCount_append]
      simp [nativeCount, ec, native]

/-- The scan of a whole DLL, by induction on the symbols still to come. -/
theorem scan_keeps {start : ι → Option ι} (syms done : List ι) (s : MergeState ι)
    (scanned : @Scanned _ file target start done s)
    (nodup : (done ++ syms).Nodup) (alone : ∀ f ∈ syms, start f = none) :
    StepKeeps file target start done s (syms.foldl (mergeSym file target) s) syms
      (pairs file target s.prev syms) := by
  induction syms generalizing done s with
  | nil =>
    rw [List.foldl_nil]
    refine ⟨by simpa using scanned, ?_, ?_⟩
    · cases s.prev with
      | none => simp [pairs]
      | some prev => simp [pairs]
    · cases s.prev with
      | none => simp [pairs, nativeCount]
      | some prev => simp [pairs, nativeCount]
  | cons sym syms ih =>
    have fresh : sym ∉ done := by
      intro member
      exact (List.nodup_append.mp nodup).2.2 sym member sym List.mem_cons_self rfl
    obtain ⟨found, step, split⟩ := mergeSym_cases scanned sym syms
    have here := step.keeps scanned (List.nodup_append.mp nodup).1 fresh
      (alone sym List.mem_cons_self)
    -- What holds after this symbol is what the rest starts from.
    have later := ih (done ++ [sym]) _ here.scanned (by simpa using nodup)
      (fun f member => alone f (List.mem_cons_of_mem _ member))
    rw [List.foldl_cons, split]
    refine ⟨by simpa using later.scanned, ?_, ?_⟩
    · rw [later.alike, here.alike]
      simp only [List.mem_append, or_imp, forall_and, and_assoc]
    · have first := here.natives
      have rest := later.natives
      have whole : nativeCount file target (sym :: syms) =
          nativeCount file target [sym] + nativeCount file target syms :=
        nativeCount_append [sym] syms
      rw [List.length_append, whole]
      omega

/-! ### The three groups -/

/-- One DLL's imports behind the merge: native ones, merged ones and EC ones. -/
structure Merged (file : ι → ImportFile) (target : Machine) (H : ι → Option ι)
    (syms ns hs es : List ι) : Prop where
  perm : syms.Perm (ns ++ hs ++ es ++ hs.filterMap H)
  native : ∀ f ∈ ns, isEC file target f = false ∧ H f = none
  halves : ∀ f ∈ hs, ∃ t, H f = some t ∧ H t = some f ∧ isEC file target f = true ∧
    isEC file target t = false
  ec : ∀ f ∈ es, isEC file target f = true ∧ H f = none
  alike : (∀ f ∈ hs, ∀ t, H f = some t → asks file f = asks file t) ↔
    ∀ p ∈ pairs file target none syms, SameKind file p.1 p.2
  natives : ns.length + (pairs file target none syms).length = nativeCount file target syms

/-- The place of a file in the order of the sort. -/
def kind (file : ι → ImportFile) (target : Machine) (H : ι → Option ι) (f : ι) : Nat :=
  if (H f).isSome then 1 else if isEC file target f then 2 else 0

omit [DecidableEq ι] in
private theorem hybridLess_iff (H : ι → Option ι) (a b : ι)
    (ec : ∀ f ∈ [a, b], (H f).isSome = true → isEC file target f = true) :
    hybridLess file target H a b = true ↔ kind file target H a < kind file target H b := by
  have first := ec a (by simp)
  have second := ec b (by simp)
  simp only [hybridLess, kind]
  by_cases merged : (H a).isSome = true
  · by_cases other : (H b).isSome = true
    · simp [merged, other]
    · cases isEC file target b <;> simp [merged, other]
  · by_cases other : (H b).isSome = true
    · cases kindA : isEC file target a <;> simp [merged, other, second other]
    · cases isEC file target a <;> cases isEC file target b <;> simp [merged, other]

omit [DecidableEq ι] in
private theorem stableSort_perm (less : ι → ι → Bool) (l : List ι) : (stableSort less l).Perm l :=
  List.perm_insertionSort _ l

omit [DecidableEq ι] in
private theorem stableSort_ascends (H : ι → Option ι) (l : List ι)
    (ec : ∀ f ∈ l, (H f).isSome = true → isEC file target f = true) :
    (stableSort (hybridLess file target H) l).Pairwise
      (fun a b => kind file target H a ≤ kind file target H b) := by
  have ranked : ∀ a ∈ l, ∀ b ∈ l, (hybridLess file target H b a = false ↔
      kind file target H a ≤ kind file target H b) := by
    intro a memA b memB
    rw [← Bool.not_eq_true, hybridLess_iff H b a, Nat.not_lt]
    intro f member
    rcases List.mem_cons.mp member with rfl | second
    · exact ec _ memB
    · cases List.mem_singleton.mp second
      exact ec _ memA
  have mapped := List.map_insertionSort (r := fun a b => hybridLess file target H b a = false)
    (s := (· ≤ ·)) (kind file target H) l ranked
  have ordered := List.pairwise_insertionSort (· ≤ ·) (l.map (kind file target H))
  rw [← mapped, List.pairwise_map] at ordered
  exact ordered

/-- What the order of the kinds makes of a list: native imports, merged ones and EC ones. -/
structure Runs (file : ι → ImportFile) (target : Machine) (H : ι → Option ι)
    (ns hs es : List ι) : Prop where
  native : ∀ f ∈ ns, isEC file target f = false ∧ H f = none
  merged : ∀ f ∈ hs, isEC file target f = true ∧ (H f).isSome = true
  ec : ∀ f ∈ es, isEC file target f = true ∧ H f = none

omit [DecidableEq ι] in
/-- The kinds are 0, 1 and 2, so the list is cut at 1 and at 2. -/
private theorem exists_runs {H : ι → Option ι} {out : List ι}
    (ascends : out.Pairwise fun a b => kind file target H a ≤ kind file target H b)
    (ec : ∀ f ∈ out, (H f).isSome = true → isEC file target f = true) :
    ∃ ns hs es, out = ns ++ hs ++ es ∧ Runs file target H ns hs es := by
  let rank := kind file target H
  let behind := out.filter (fun f => 1 ≤ rank f)
  have cut := Groups.eq_filter_append_filter rank 1 out ascends
  have cut' := Groups.eq_filter_append_filter rank 2 behind (ascends.filter _)
  refine ⟨out.filter (fun f => rank f < 1), behind.filter (fun f => rank f < 2),
    behind.filter (fun f => 2 ≤ rank f), ?_, ?_, ?_, ?_⟩
  · rw [List.append_assoc, ← cut']
    exact cut
  · intro f member
    have low := (List.mem_filter.mp member).2
    simp only [decide_eq_true_eq, rank, kind] at low
    split_ifs at low with half ecOnly
    · omega
    · omega
    · exact ⟨by simpa using ecOnly, by simpa using half⟩
  · intro f member
    obtain ⟨inside, high⟩ := List.mem_filter.mp member
    obtain ⟨there, low⟩ := List.mem_filter.mp inside
    simp only [decide_eq_true_eq, rank, kind] at low high
    split_ifs at low high with half ecOnly
    · exact ⟨ec f there half, half⟩
    · omega
    · omega
  · intro f member
    have high := (List.mem_filter.mp member).2
    simp only [decide_eq_true_eq, rank, kind] at high
    split_ifs at high with half ecOnly
    · omega
    · exact ⟨ecOnly, by simpa using half⟩
    · omega

namespace Runs

variable {H : ι → Option ι} {ns hs es : List ι}

omit [DecidableEq ι] in
/-- Only the middle run has partners. -/
theorem partners (runs : Runs file target H ns hs es) :
    (ns ++ hs ++ es).filterMap H = hs.filterMap H := by
  have first : ns.filterMap H = [] :=
    List.filterMap_eq_nil_iff.mpr fun f member => (runs.native f member).2
  have last : es.filterMap H = [] :=
    List.filterMap_eq_nil_iff.mpr fun f member => (runs.ec f member).2
  rw [List.filterMap_append, List.filterMap_append, first, last, List.nil_append, List.append_nil]

omit [DecidableEq ι] in
private theorem mem_of_partner (runs : Runs file target H ns hs es) {f t : ι}
    (member : f ∈ ns ++ hs ++ es) (half : H f = some t) : f ∈ hs := by
  rcases List.mem_append.mp member with first | last
  · rcases List.mem_append.mp first with one | two
    · rw [(runs.native f one).2] at half
      cases half
    · exact two
  · rw [(runs.ec f last).2] at half
    cases half

omit [DecidableEq ι] in
/-- Only the first run holds natives. -/
theorem nativeCount_eq (runs : Runs file target H ns hs es) :
    nativeCount file target (ns ++ hs ++ es) = ns.length := by
  have firsts : nativeCount file target ns = ns.length := by
    rw [nativeCount, List.filter_eq_self.mpr]
    intro f member
    simp [(runs.native f member).1]
  have seconds : nativeCount file target hs = 0 := by
    rw [nativeCount, List.length_eq_zero_iff, List.filter_eq_nil_iff]
    intro f member
    simp [(runs.merged f member).1]
  have thirds : nativeCount file target es = 0 := by
    rw [nativeCount, List.length_eq_zero_iff, List.filter_eq_nil_iff]
    intro f member
    simp [(runs.ec f member).1]
  rw [nativeCount_append, nativeCount_append, firsts, seconds, thirds]
  omega

end Runs

omit [DecidableEq ι] in
theorem Merged.runs {H : ι → Option ι} {syms ns hs es : List ι}
    (merged : Merged file target H syms ns hs es) : Runs file target H ns hs es where
  native := merged.native
  merged := by
    intro f member
    obtain ⟨t, half, -, ec, -⟩ := merged.halves f member
    exact ⟨ec, Option.isSome_iff_exists.mpr ⟨t, half⟩⟩
  ec := merged.ec

private theorem mergeDll_merged (start : ι → Option ι) (syms : List ι) (nodup : syms.Nodup)
    (alone : ∀ f ∈ syms, start f = none) :
    ∃ ns hs es, (mergeDll file target start syms).1 = ns ++ hs ++ es ∧
      Merged file target (mergeDll file target start syms).2 syms ns hs es ∧
      ∀ f ∉ syms, (mergeDll file target start syms).2 f = start f := by
  -- The scan leaves every symbol with the half it merged with, natives still in one list.
  have begun : @Scanned _ file target start [] ⟨[], none, start⟩ := by
    constructor <;> simp
  have keeps := scan_keeps syms [] ⟨[], none, start⟩ begun nodup alone
  simp only [mergeDll]
  generalize syms.foldl (mergeSym file target) ⟨[], none, start⟩ = s at keeps
  obtain ⟨scanned, alike, natives⟩ := keeps
  rw [List.nil_append] at scanned
  have ec : ∀ f ∈ s.hybridSyms, (s.hybridFile f).isSome = true → isEC file target f = true := by
    intro f member some'
    obtain ⟨t, half⟩ := Option.isSome_iff_exists.mp some'
    exact (scanned.halves f member t half).2.1
  have sorted := stableSort_perm (hybridLess file target s.hybridFile) s.hybridSyms
  have ascends := stableSort_ascends s.hybridFile s.hybridSyms ec
  generalize stableSort (hybridLess file target s.hybridFile) s.hybridSyms = out at sorted ascends
  obtain ⟨ns, hs, es, rfl, runs⟩ :=
    exists_runs ascends fun f member => ec f (sorted.mem_iff.mp member)
  have subset : ∀ f ∈ hs, f ∈ s.hybridSyms := fun f member =>
    sorted.mem_iff.mp (List.mem_append_left _ (List.mem_append_right _ member))
  refine ⟨ns, hs, es, rfl, ⟨?_, runs.native, ?_, runs.ec, ?_, ?_⟩, scanned.outside⟩
  -- Nothing is lost: only the middle run has halves, and the scan only moved symbols into them.
  · rw [← runs.partners]
    exact scanned.perm.trans (sorted.symm.append (sorted.symm.filterMap _))
  · intro f member
    obtain ⟨t, half⟩ := Option.isSome_iff_exists.mp (runs.merged f member).2
    obtain ⟨back, ec', native'⟩ := scanned.halves f (subset f member) t half
    exact ⟨t, half, back, ec', native'⟩
  -- The scan judged all of its hybrid symbols; outside the middle run there is nothing to judge.
  · have all : Alike file s ↔
        ∀ f ∈ hs, ∀ t, s.hybridFile f = some t → asks file f = asks file t := by
      constructor
      · exact fun every f member => every f (subset f member)
      · exact fun every f member t half =>
          every f (runs.mem_of_partner (sorted.mem_iff.mpr member) half) t half
    rw [← all, alike]
    simp [Alike]
  · have counted : nativeCount file target s.hybridSyms = ns.length :=
      (sorted.filter _).length_eq.symm.trans runs.nativeCount_eq
    have none' : nativeCount file target ([] : List ι) = 0 := rfl
    dsimp only at natives
    rw [counted, none'] at natives
    omega

end Merge

section AllDlls

variable {ι : Type} [DecidableEq ι] {file : ι → ImportFile} {target : Machine}

omit [DecidableEq ι] in
theorem Merged.mem_syms {H : ι → Option ι} {syms ns hs es : List ι}
    (merged : Merged file target H syms ns hs es) (f : ι) (member : f ∈ ns ++ hs ++ es) :
    f ∈ syms ∧ ∀ t, H f = some t → t ∈ syms := by
  have kept : f ∈ syms := merged.perm.mem_iff.mpr (List.mem_append_left _ member)
  refine ⟨kept, ?_⟩
  intro t half
  apply merged.perm.mem_iff.mpr
  rcases List.mem_append.mp member with first | last
  · rcases List.mem_append.mp first with one | two
    · rw [(merged.native f one).2] at half
      cases half
    · exact List.mem_append_right _ (List.mem_filterMap.mpr ⟨f, two, half⟩)
  · rw [(merged.ec f last).2] at half
    cases half

omit [DecidableEq ι] in
/-- Only the partners of the DLL's own imports matter. -/
theorem Merged.congr {H H' : ι → Option ι} {syms ns hs es : List ι}
    (merged : Merged file target H syms ns hs es) (same : ∀ f ∈ syms, H f = H' f) :
    Merged file target H' syms ns hs es := by
  have own : ∀ f ∈ ns ++ hs ++ es, H f = H' f :=
    fun f member => same f (merged.mem_syms f member).1
  have ownN : ∀ f ∈ ns, H f = H' f := fun f member => own f (by simp [member])
  have ownH : ∀ f ∈ hs, H f = H' f := fun f member => own f (by simp [member])
  have ownE : ∀ f ∈ es, H f = H' f := fun f member => own f (by simp [member])
  refine ⟨?_, ?_, ?_, ?_, ?_, merged.natives⟩
  · rw [← List.filterMap_congr ownH]
    exact merged.perm
  · intro f member
    rw [← ownN f member]
    exact merged.native f member
  · intro f member
    obtain ⟨t, half, back, kinds⟩ := merged.halves f member
    refine ⟨t, (ownH f member) ▸ half, ?_, kinds⟩
    have inside := (merged.mem_syms f (by simp [member])).2 t half
    rw [← same t inside]
    exact back
  · intro f member
    rw [← ownE f member]
    exact merged.ec f member
  · rw [← merged.alike]
    constructor
    · intro alike f member t half
      exact alike f member t ((ownH f member) ▸ half)
    · intro alike f member t half
      exact alike f member t ((ownH f member).symm ▸ half)

/-- The imports of a DLL as `create` lists them: in three groups, with the partners of the second. -/
def Listed (file : ι → ImportFile) (target : Machine) (H : ι → Option ι) (syms out : List ι) : Prop :=
  ∃ ns hs es, out = ns ++ hs ++ es ∧ Merged file target H syms ns hs es

private theorem mergeDlls_listed (v : List (List ι)) (start : ι → Option ι)
    (nodup : v.flatten.Nodup) (alone : ∀ f ∈ v.flatten, start f = none) :
    List.Forall₂ (Listed file target (mergeDlls file target start v).2) v
        (mergeDlls file target start v).1 ∧
      ∀ f ∉ v.flatten, (mergeDlls file target start v).2 f = start f := by
  induction v generalizing start with
  | nil => exact ⟨List.Forall₂.nil, fun _ _ => rfl⟩
  | cons syms v ih =>
    rw [List.flatten_cons] at nodup alone
    obtain ⟨nodupHere, nodupLater, apart⟩ := List.nodup_append.mp nodup
    obtain ⟨ns, hs, es, whole, merged, outside⟩ := @mergeDll_merged _ _ file target start syms nodupHere (fun f member => alone f (by simp [member]))
    have untouched : ∀ f ∈ v.flatten, (mergeDll file target start syms).2 f = none := by
      intro f member
      rw [outside f (fun here => apart f here f member rfl)]
      exact alone f (List.mem_append_right _ member)
    obtain ⟨later, laterOutside⟩ := ih (mergeDll file target start syms).2 nodupLater untouched
    simp only [mergeDlls]
    refine ⟨List.Forall₂.cons ⟨ns, hs, es, whole, merged.congr ?_⟩ later, ?_⟩
    · intro f here
      exact (laterOutside f (fun member => apart f here f member rfl)).symm
    · intro f member
      rw [List.flatten_cons, List.mem_append, not_or] at member
      rw [laterOutside f member.2, outside f member.1]

omit [DecidableEq ι] in
/-- Without a hybrid symbol table every import is native, and stands by itself. -/
theorem listed_of_not_hybrid (plain : hybrid target = false) (syms : List ι) :
    Listed file target (fun _ => none) syms syms := by
  have native : ∀ f, isEC file target f = false := by
    intro f
    rw [isEC, ImportFile.isEC]
    rw [hybrid] at plain
    simp [plain]
  -- without EC imports no two neighbours differ in kind, so no pair is made
  have unmerged : ∀ (l : List ι) (prev : Option ι), pairs file target prev l = [] := by
    intro l
    induction l with
    | nil =>
      intro prev
      cases prev <;> rfl
    | cons f l ih =>
      intro prev
      cases prev with
      | none => exact ih (some f)
      | some prev =>
        rw [pairs, if_pos (.inl ((native f).trans (native prev).symm))]
        exact ih (some f)
  refine ⟨syms, [], [], by simp, ?_⟩
  refine ⟨by simp, fun f _ => ⟨native f, rfl⟩, by simp, by simp, ?_, ?_⟩
  · simp [unmerged]
  · rw [unmerged, nativeCount, List.filter_eq_self.mpr (fun f _ => by simp [native f])]
    rfl

theorem listed_spec (bins : List (List ι)) (nodup : bins.flatten.Nodup) :
    List.Forall₂ (Listed file target (listed file target bins).2) bins
      (listed file target bins).1 := by
  simp only [listed]
  split_ifs with merges
  · exact (mergeDlls_listed bins _ nodup (fun _ _ => rfl)).1
  · have plain : hybrid target = false := by simpa using merges
    apply List.forall₂_same.mpr
    intro syms _
    exact listed_of_not_hybrid plain syms

end AllDlls

end LlvmLd.Idata
