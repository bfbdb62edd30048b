import Mathlib.Data.List.Infix
import Mathlib.Logic.Relation
import LlvmLd.Input.CoffSymbols

/-!
`ObjFile::parseLazy`, and which records it takes for symbols. `initializeSymbols` skips the auxiliary
records of every symbol; `parseLazy` skips them only behind a symbol that it registers.
-/

namespace LlvmLd.Input.Coff

/-! ### The scan -/

/-- The names that have been passed to `addLazyObject`, each with the index of its record. -/
abbrev Passed := List (Nat × Bytes)

/-- How a scan stops without coming to the end. -/
inductive ScanStop
  | running
  -- a fatal error: the name of the symbol at `i` cannot be read
  | noName (passed : Passed) (i : Nat)
  -- a registration has loaded the file
  | loaded (passed : Passed)
  deriving DecidableEq, Repr

variable (loads : List Bytes → Bool) (o : CoffObject)

/-- `loads` says for the names passed so far whether the last one has loaded the file. -/
def parseLazyFrom : Nat → Nat → Passed → Except ScanStop Passed
  | 0, _, _ => .error .running
  | fuel + 1, i, passed =>
    if i < o.numberOfSymbols then
      if o.isUndefined i || !o.isExternal i || o.isWeakExternal i then
        parseLazyFrom fuel (uint32 (i + 1)) passed
      else
        match o.getSymbolName i with
        | none => .error (.noName passed i)
        | some name =>
          if o.isAbsolute i && ignoredSymbolName name then parseLazyFrom fuel (uint32 (i + 1)) passed
          else
            let passed := passed ++ [(i, name)]
            if loads (passed.map Prod.snd) then .error (.loaded passed)
            else parseLazyFrom fuel (o.nextSymbol i) passed
    else .ok passed

def parseLazy (fuel : Nat) : Except ScanStop Passed := parseLazyFrom loads o fuel 0 []

/-! ### What is to be read -/

/-- A symbol that is external, not undefined, not weak and no ignored absolute one. -/
def collect (passed : Passed) (i : Nat) : Except ScanStop Passed :=
  if o.isExternal i && !o.isUndefined i && !o.isWeakExternal i then
    match o.getSymbolName i with
    | none => .error (.noName passed i)
    | some name =>
      if o.isAbsolute i && ignoredSymbolName name then .ok passed else .ok (passed ++ [(i, name)])
  else .ok passed

/-- The symbols at the records at which the loop of `initializeSymbols` stops. -/
def readPrimaries (fuel : Nat) : Except ScanStop Passed :=
  symbolLoop o .running (collect o) fuel 0 []

/-- Both ways of reading the table come to an end, with the same names of the same records. -/
def SameRecords : Prop :=
  ∃ fuel fuel', parseLazy loads o fuel = readPrimaries o fuel' ∧ readPrimaries o fuel' ≠ .error .running

/-- The record is passed over, when it is read as a symbol. -/
def PassedOver (i : Nat) : Prop := ∀ passed, collect o passed i = .ok passed

/-- From one record at which `initializeSymbols` stops to the next, as long as names can be read. -/
def Next (i i' : Nat) : Prop :=
  i < o.numberOfSymbols ∧ (∃ passed passed', collect o passed i = .ok passed') ∧ i' = o.nextSymbol i

/-- The auxiliary records of every symbol that is passed over are passed over, too. -/
def AuxiliaryIgnored : Prop :=
  ∀ i, Relation.ReflTransGen (Next o) 0 i → i < o.numberOfSymbols → PassedOver o i →
    ∀ j, i < j → j ≤ i + o.getNumberOfAuxSymbols i → j < o.numberOfSymbols → PassedOver o j

/-! ### One record -/

/-- What a record is when it is read as a symbol. -/
private inductive Reading
  | passedOver
  | noName
  | symbol (name : Bytes)

private def reading (i : Nat) : Reading :=
  if o.isExternal i && !o.isUndefined i && !o.isWeakExternal i then
    match o.getSymbolName i with
    | none => .noName
    | some name => if o.isAbsolute i && ignoredSymbolName name then .passedOver else .symbol name
  else .passedOver

private theorem collect_eq (passed : Passed) (i : Nat) :
    collect o passed i =
      match reading o i with
      | .passedOver => .ok passed
      | .noName => .error (.noName passed i)
      | .symbol name => .ok (passed ++ [(i, name)]) := by
  simp only [collect, reading]
  split
  · cases o.getSymbolName i with
    | none => rfl
    | some name =>
      simp only
      split <;> rfl
  · rfl

private theorem parseLazyFrom_eq (fuel i : Nat) (passed : Passed) (below : i < o.numberOfSymbols) :
    parseLazyFrom loads o (fuel + 1) i passed =
      match reading o i with
      | .passedOver => parseLazyFrom loads o fuel (i + 1) passed
      | .noName => .error (.noName passed i)
      | .symbol name =>
        if loads ((passed ++ [(i, name)]).map Prod.snd) then .error (.loaded (passed ++ [(i, name)]))
        else parseLazyFrom loads o fuel (o.nextSymbol i) (passed ++ [(i, name)]) := by
  have next : uint32 (i + 1) = i + 1 := by
    have := o.numberOfSymbols_lt
    exact Nat.mod_eq_of_lt (by omega)
  -- the test of the source, turned around
  have skipped : (o.isUndefined i || !o.isExternal i || o.isWeakExternal i) =
      !(o.isExternal i && !o.isUndefined i && !o.isWeakExternal i) := by
    cases o.isUndefined i <;> cases o.isExternal i <;> cases o.isWeakExternal i <;> rfl
  rw [parseLazyFrom, if_pos below, skipped, next, reading]
  cases o.isExternal i && !o.isUndefined i && !o.isWeakExternal i with
  | false => rfl
  | true =>
    cases o.getSymbolName i with
    | none => rfl
    | some name =>
      simp only [Bool.not_true, Bool.false_eq_true, if_false, if_true]
      split <;> rfl

private theorem parseLazyFrom_end (fuel i : Nat) (passed : Passed) (above : ¬ i < o.numberOfSymbols) :
    parseLazyFrom loads o (fuel + 1) i passed = .ok passed := by
  rw [parseLazyFrom, if_neg above]

private theorem passedOver_iff (i : Nat) : PassedOver o i ↔ reading o i = .passedOver := by
  simp only [PassedOver]
  simp only [collect_eq]
  cases reading o i with
  | passedOver => simp
  | noName => simp
  | symbol name => simp

private theorem next_iff (i i' : Nat) :
    Next o i i' ↔ i < o.numberOfSymbols ∧ reading o i ≠ .noName ∧ i' = o.nextSymbol i := by
  simp only [Next]
  simp only [collect_eq]
  cases reading o i <;> simp

/-- Where the index does not wrap around, the loop goes on behind the auxiliary records. -/
private theorem nextSymbol_eq (small : o.numberOfSymbols + 256 ≤ 2 ^ 32) (i : Nat)
    (below : i < o.numberOfSymbols) :
    o.nextSymbol i = i + 1 + o.getNumberOfAuxSymbols i := by
  have byte : o.getNumberOfAuxSymbols i < 256 := UInt8.toNat_lt _
  unfold CoffObject.nextSymbol uint32
  rw [Nat.mod_eq_of_lt (a := i + _) (by omega), Nat.mod_eq_of_lt (by omega)]
  omega

/-! ### Reading the symbols alone -/

section Primaries

variable {o}

private abbrev readFrom (o : CoffObject) (fuel i : Nat) (passed : Passed) :
    Except ScanStop Passed :=
  symbolLoop o .running (collect o) fuel i passed

private theorem readFrom_eq (fuel i : Nat) (passed : Passed) (below : i < o.numberOfSymbols) :
    readFrom o (fuel + 1) i passed =
      match reading o i with
      | .passedOver => readFrom o fuel (o.nextSymbol i) passed
      | .noName => .error (.noName passed i)
      | .symbol name => readFrom o fuel (o.nextSymbol i) (passed ++ [(i, name)]) := by
  simp only [readFrom]
  rw [symbolLoop, if_pos below, collect_eq]
  cases reading o i <;> rfl

private theorem readFrom_end (fuel i : Nat) (passed : Passed) (above : ¬ i < o.numberOfSymbols) :
    readFrom o (fuel + 1) i passed = .ok passed := by
  simp only [readFrom]
  rw [symbolLoop, if_neg above]

/-- Enough rounds come to an end. -/
private theorem readFrom_ends (small : o.numberOfSymbols + 256 ≤ 2 ^ 32) (fuel i : Nat)
    (passed : Passed) (enough : o.numberOfSymbols ≤ fuel + i) :
    readFrom o (fuel + 1) i passed ≠ .error .running := by
  induction fuel generalizing i passed with
  | zero =>
    rw [readFrom_end 0 i passed (by omega)]
    simp
  | succ fuel ih =>
    by_cases below : i < o.numberOfSymbols
    · have next := nextSymbol_eq o small i below
      rw [readFrom_eq (fuel + 1) i passed below]
      cases reading o i with
      | passedOver => exact ih _ _ (by omega)
      | noName => simp
      | symbol name => exact ih _ _ (by omega)
    · rw [readFrom_end _ i passed below]
      simp

/-- What is read from an index on: the symbols passed before, and others at the index or behind. -/
private structure Behind (i : Nat) (passed : Passed) (r : Except ScanStop Passed) : Prop where
  form : ∃ more : Passed, (∀ e ∈ more, i ≤ e.1) ∧
    (r = .ok (passed ++ more) ∨ ∃ k, i ≤ k ∧ r = .error (.noName (passed ++ more) k))

private theorem Behind.mono {i j : Nat} {passed : Passed} {r : Except ScanStop Passed}
    (behind : Behind j passed r) (le : i ≤ j) : Behind i passed r := by
  obtain ⟨more, above, form⟩ := behind.form
  refine ⟨more, fun e member => Nat.le_trans le (above e member), ?_⟩
  rcases form with ended | ⟨k, kept, failed⟩
  · exact Or.inl ended
  · exact Or.inr ⟨k, Nat.le_trans le kept, failed⟩

private theorem readFrom_behind (small : o.numberOfSymbols + 256 ≤ 2 ^ 32) (fuel i : Nat)
    (passed : Passed) (ended : readFrom o fuel i passed ≠ .error .running) :
    Behind i passed (readFrom o fuel i passed) := by
  induction fuel generalizing i passed with
  | zero => exact absurd rfl ended
  | succ fuel ih =>
    by_cases below : i < o.numberOfSymbols
    · have next := nextSymbol_eq o small i below
      rw [readFrom_eq fuel i passed below] at ended ⊢
      -- an entry is passed over, ends the scan for want of a name, or is a symbol
      cases kind : reading o i with
      | passedOver =>
        rw [kind] at ended
        exact (ih _ _ ended).mono (by omega)
      | noName => exact ⟨[], by simp, Or.inr ⟨i, Nat.le_refl i, by simp⟩⟩
      | symbol name =>
        rw [kind] at ended
        obtain ⟨more, above, form⟩ := (ih _ _ ended).form
        refine ⟨(i, name) :: more, ?_, ?_⟩
        · rintro e (_ | ⟨_, later⟩)
          · exact Nat.le_refl i
          · have := above e later
            omega
        · rcases form with whole | ⟨k, kept, failed⟩
          · exact Or.inl (by simpa using whole)
          · exact Or.inr ⟨k, by omega, by simpa using failed⟩
    · rw [readFrom_end fuel i passed below]
      exact ⟨[], by simp, Or.inl (by simp)⟩

end Primaries

/-! ### Records that the scan passes over on its way -/

section Hidden

variable {loads o}

/-- Records that are passed over lead the scan to the index behind them. -/
private theorem parseLazyFrom_hidden (d j : Nat) (passed : Passed) (r : Except ScanStop Passed)
    (hidden : ∀ m, j ≤ m → m < j + d → m < o.numberOfSymbols → PassedOver o m) (fuel : Nat)
    (ends : parseLazyFrom loads o fuel (j + d) passed = r) (ran : r ≠ .error .running) :
    ∃ fuel', parseLazyFrom loads o fuel' j passed = r := by
  induction d generalizing j with
  | zero => exact ⟨fuel, ends⟩
  | succ d ih =>
    -- a hidden record is passed over, and behind the table both scans have ended
    by_cases below : j < o.numberOfSymbols
    · obtain ⟨fuel', later⟩ := ih (j + 1)
        (fun m low high => hidden m (by omega) (by omega))
        (by rw [← ends]; congr 1; omega)
      refine ⟨fuel' + 1, ?_⟩
      have here := (passedOver_iff o j).mp (hidden j (Nat.le_refl j) (by omega) below)
      rw [parseLazyFrom_eq loads o fuel' j passed below, here]
      exact later
    · cases fuel with
      | zero => exact absurd ends.symm ran
      | succ fuel =>
        rw [parseLazyFrom_end loads o fuel _ passed (by omega)] at ends
        exact ⟨1, (parseLazyFrom_end loads o 0 j passed below).trans ends⟩

/-- What has been passed stays passed. -/
private theorem parseLazyFrom_keeps (fuel i : Nat) (passed : Passed) :
    (parseLazyFrom loads o fuel i passed = .error .running) ∨
      (∃ all, parseLazyFrom loads o fuel i passed = .error (.loaded all)) ∨
      ∃ more, parseLazyFrom loads o fuel i passed = .ok (passed ++ more) ∨
        ∃ k, parseLazyFrom loads o fuel i passed = .error (.noName (passed ++ more) k) := by
  induction fuel generalizing i passed with
  | zero => exact Or.inl rfl
  | succ fuel ih =>
    by_cases below : i < o.numberOfSymbols
    · rw [parseLazyFrom_eq loads o fuel i passed below]
      cases reading o i with
      | passedOver => exact ih (i + 1) passed
      | noName => exact Or.inr (Or.inr ⟨[], Or.inr ⟨i, by simp⟩⟩)
      | symbol name =>
        simp only
        split
        · exact Or.inr (Or.inl ⟨_, rfl⟩)
        -- what the later rounds pass over joins behind this symbol
        · rcases ih (o.nextSymbol i) (passed ++ [(i, name)]) with running | loaded | ⟨more, form⟩
          · exact Or.inl running
          · exact Or.inr (Or.inl loaded)
          · exact Or.inr (Or.inr ⟨(i, name) :: more, by simpa using form⟩)
    · rw [parseLazyFrom_end loads o fuel i passed below]
      exact Or.inr (Or.inr ⟨[], Or.inl (by simp)⟩)

/-- Where the scan comes to what is read behind some records, it has passed over all of them. -/
private theorem hidden_of_parseLazyFrom (d j : Nat) (passed : Passed) (r : Except ScanStop Passed)
    (behind : Behind (j + d) passed r) (fuel : Nat)
    (ends : parseLazyFrom loads o fuel j passed = r) :
    (∀ m, j ≤ m → m < j + d → m < o.numberOfSymbols → PassedOver o m) ∧
      (j + d ≤ o.numberOfSymbols → ∃ fuel', parseLazyFrom loads o fuel' (j + d) passed = r) := by
  induction d generalizing j fuel with
  | zero => exact ⟨fun m low high => by omega, fun _ => ⟨fuel, ends⟩⟩
  | succ d ih =>
    obtain ⟨more, above, form⟩ := behind.form
    cases fuel with
    | zero =>
      rcases form with rfl | ⟨k, -, rfl⟩ <;> cases ends
    | succ fuel =>
      by_cases below : j < o.numberOfSymbols
      · rw [parseLazyFrom_eq loads o fuel j passed below] at ends
        cases kind : reading o j with
        | passedOver =>
          rw [kind] at ends
          have shift : j + 1 + d = j + (d + 1) := by omega
          obtain ⟨hidden, later⟩ := ih (j + 1) (shift ▸ behind) fuel ends
          refine ⟨fun m low high inside => ?_, fun fits => ?_⟩
          · rcases Nat.eq_or_lt_of_le low with rfl | further
            · exact (passedOver_iff o _).mpr kind
            · exact hidden m further (by omega) inside
          · rw [shift] at later
            exact later fits
        | noName =>
          rw [kind] at ends
          rcases form with rfl | ⟨k, kept, rfl⟩
          · cases ends
          · simp only [Except.error.injEq, ScanStop.noName.injEq] at ends
            omega
        | symbol name =>
          -- a name of one of these records would come before all that is read behind them
          rw [kind] at ends
          simp only at ends
          split at ends
          · rcases form with rfl | ⟨k, -, rfl⟩ <;> cases ends
          · exfalso
            have first : ∀ more', passed ++ [(j, name)] ++ more' = passed ++ more → False := by
              intro more' same
              rw [List.append_assoc] at same
              have := above (j, name) (by rw [← List.append_cancel_left same]; simp)
              simp only at this
              omega
            rcases parseLazyFrom_keeps fuel (o.nextSymbol j)
              (passed ++ [(j, name)]) with running | ⟨all, loaded⟩ | ⟨more', kept⟩
            · rw [running] at ends
              rcases form with rfl | ⟨k, -, rfl⟩ <;> cases ends
            · rw [loaded] at ends
              rcases form with rfl | ⟨k, -, rfl⟩ <;> cases ends
            · rcases kept with whole | ⟨k', failed⟩
              · rw [whole] at ends
                rcases form with rfl | ⟨k, -, rfl⟩
                · exact first more' (Except.ok.inj ends)
                · cases ends
              · rw [failed] at ends
                rcases form with rfl | ⟨k, -, rfl⟩
                · cases ends
                · simp only [Except.error.injEq, ScanStop.noName.injEq] at ends
                  exact first more' ends.1
      · exact ⟨fun m low high inside => by omega, fun fits => by omega⟩

end Hidden

/-! ### The scan and the symbols -/

/-- The condition from an index on. -/
private def IgnoredFrom (o : CoffObject) (start : Nat) : Prop :=
  ∀ i, Relation.ReflTransGen (Next o) start i → i < o.numberOfSymbols → PassedOver o i →
    ∀ j, i < j → j ≤ i + o.getNumberOfAuxSymbols i → j < o.numberOfSymbols → PassedOver o j

section Scan

variable {loads o}

private theorem scan_of_ignored (small : o.numberOfSymbols + 256 ≤ 2 ^ 32) (fuel i : Nat)
    (passed : Passed) (ignored : IgnoredFrom o i)
    (noLoad : ∀ fuel all, parseLazyFrom loads o fuel i passed ≠ .error (.loaded all))
    (ended : readFrom o fuel i passed ≠ .error .running) :
    ∃ fuel', parseLazyFrom loads o fuel' i passed = readFrom o fuel i passed := by
  induction fuel generalizing i passed with
  | zero => exact absurd rfl ended
  | succ fuel ih =>
    by_cases below : i < o.numberOfSymbols
    · have next := nextSymbol_eq o small i below
      rw [readFrom_eq fuel i passed below] at ended ⊢
      have later : reading o i ≠ .noName → IgnoredFrom o (o.nextSymbol i) := fun readable k path =>
        ignored k (.head ((next_iff o i _).mpr ⟨below, readable, rfl⟩) path)
      cases kind : reading o i with
      -- The lazy scan does not skip the auxiliary records: it takes one step for each of them,
      -- and all of those are passed over.
      | passedOver =>
        rw [kind] at ended
        have hidden : ∀ m, i + 1 ≤ m → m < i + 1 + o.getNumberOfAuxSymbols i →
            m < o.numberOfSymbols → PassedOver o m := fun m low high inside =>
          ignored i .refl below ((passedOver_iff o i).mpr kind) m (by omega) (by omega) inside
        have step : ∀ fuel, parseLazyFrom loads o (fuel + 1) i passed =
            parseLazyFrom loads o fuel (i + 1) passed := fun fuel => by
          rw [parseLazyFrom_eq loads o fuel i passed below, kind]
        obtain ⟨fuel', there⟩ := ih (o.nextSymbol i) passed (later (by simp [kind]))
          (fun fuel all loaded => by
            rw [next] at loaded
            obtain ⟨fuel', early⟩ := parseLazyFrom_hidden _ _ passed _ hidden fuel loaded (by simp)
            exact noLoad (fuel' + 1) all ((step fuel').trans early)) ended
        rw [next] at there
        obtain ⟨fuel'', early⟩ := parseLazyFrom_hidden _ _ passed _ hidden fuel' there
          (by rw [← next]; exact ended)
        exact ⟨fuel'' + 1, (step fuel'').trans (by rw [early, next])⟩
      -- Both stop at the first name that cannot be read.
      | noName => exact ⟨1, by rw [parseLazyFrom_eq loads o 0 i passed below, kind]⟩
      | symbol name =>
        rw [kind] at ended
        have quiet : loads ((passed ++ [(i, name)]).map Prod.snd) ≠ true := fun loading =>
          noLoad 1 (passed ++ [(i, name)])
            (by rw [parseLazyFrom_eq loads o 0 i passed below, kind]; simp only [loading, if_true])
        have step : ∀ fuel, parseLazyFrom loads o (fuel + 1) i passed =
            parseLazyFrom loads o fuel (o.nextSymbol i) (passed ++ [(i, name)]) := fun fuel => by
          rw [parseLazyFrom_eq loads o fuel i passed below, kind]
          simp only [if_neg quiet]
        obtain ⟨fuel', there⟩ := ih (o.nextSymbol i) (passed ++ [(i, name)])
          (later (by simp [kind])) (fun fuel all loaded => noLoad (fuel + 1) all
            ((step fuel).trans loaded)) ended
        exact ⟨fuel' + 1, (step fuel').trans there⟩
    · exact ⟨1, by rw [parseLazyFrom_end loads o 0 i passed below, readFrom_end fuel i passed below]⟩

private theorem ignored_of_scan (small : o.numberOfSymbols + 256 ≤ 2 ^ 32) (fuel fuel' i : Nat)
    (passed : Passed) (ended : readFrom o fuel i passed ≠ .error .running)
    (same : parseLazyFrom loads o fuel' i passed = readFrom o fuel i passed) : IgnoredFrom o i := by
  induction fuel generalizing i fuel' passed with
  | zero => exact absurd rfl ended
  | succ fuel ih =>
    by_cases below : i < o.numberOfSymbols
    · have next := nextSymbol_eq o small i below
      rw [readFrom_eq fuel i passed below] at ended same
      cases fuel' with
      | zero => exact absurd same.symm ended
      | succ fuel' =>
        rw [parseLazyFrom_eq loads o fuel' i passed below] at same
        -- the first record, and then those that are reached from it
        have split : (PassedOver o i → ∀ j, i < j → j ≤ i + o.getNumberOfAuxSymbols i →
            j < o.numberOfSymbols → PassedOver o j) →
            (reading o i ≠ .noName → IgnoredFrom o (o.nextSymbol i)) → IgnoredFrom o i := by
          intro here later k path
          rcases Relation.ReflTransGen.cases_head path with rfl | ⟨k', step, rest⟩
          · exact fun _ => here
          · obtain ⟨-, readable, rfl⟩ := (next_iff o i k').mp step
            exact later readable k rest
        cases kind : reading o i with
        | passedOver =>
          rw [kind] at ended same
          simp only at ended same
          have behind := readFrom_behind small fuel (o.nextSymbol i) passed ended
          rw [next] at behind same
          obtain ⟨hidden, sync⟩ := hidden_of_parseLazyFrom _ _ passed _ behind fuel' same
          refine split (fun _ j low high inside => hidden j low (by omega) inside) fun _ => ?_
          by_cases fits : o.nextSymbol i ≤ o.numberOfSymbols
          · obtain ⟨fuel'', there⟩ := sync (by omega)
            rw [← next] at there
            exact ih fuel'' _ passed ended there
          · intro k path inside
            rcases Relation.ReflTransGen.cases_head path with rfl | ⟨k', step, -⟩
            · omega
            · have := step.1
              omega
        | noName =>
          refine split (fun skipped => ?_) (fun readable => absurd kind readable)
          rw [passedOver_iff, kind] at skipped
          cases skipped
        | symbol name =>
          rw [kind] at ended same
          simp only at ended same
          refine split (fun skipped => ?_) fun _ => ?_
          · rw [passedOver_iff, kind] at skipped
            cases skipped
          · by_cases loading : loads ((passed ++ [(i, name)]).map Prod.snd) = true
            · rw [if_pos loading] at same
              obtain ⟨more, -, form⟩ := (readFrom_behind small fuel _ _ ended).form
              rw [← same] at form
              rcases form with ended | ⟨k, -, failed⟩
              · cases ended
              · cases failed
            · rw [if_neg loading] at same
              exact ih fuel' _ _ ended same
    · intro k path inside
      rcases Relation.ReflTransGen.cases_head path with rfl | ⟨k', step, -⟩
      · exact absurd inside below
      · exact absurd step.1 below

/-- In a scan during which no registration loads the file, and with a table in which the index does
not wrap around, `parseLazy` and `initializeSymbols` take the same records for symbols, if and only
if the auxiliary records of every symbol that is passed over are passed over, too. -/
theorem lazy_scan_iff (loads : List Bytes → Bool) (o : CoffObject)
    (small : o.numberOfSymbols + 256 ≤ 2 ^ 32)
    (noLoad : ∀ fuel passed, parseLazy loads o fuel ≠ .error (.loaded passed)) :
    SameRecords loads o ↔ AuxiliaryIgnored o := by
  constructor
  · rintro ⟨fuel, fuel', same, ended⟩
    exact ignored_of_scan small fuel' fuel 0 [] ended same
  · intro ignored
    have ended := readFrom_ends small o.numberOfSymbols 0 [] (by omega)
    obtain ⟨fuel, same⟩ := scan_of_ignored small _ 0 [] ignored noLoad ended
    exact ⟨fuel, _, same, ended⟩

end Scan

/-! ### A section symbol and its definition -/

/-- The section symbol `.text` and its section definition. In a small object the last two bytes of
the definition mean nothing; a 2 there makes it an external symbol when it is read as one. -/
def sectionSymbol (unused : UInt8) : CoffObject where
  bigObj := false
  symbolTable :=
    [0x2E, 0x74, 0x65, 0x78, 0x74, 0, 0, 0, 0, 0, 0, 0, 1, 0, 0, 0, 3, 1,
      0x66, 0x6F, 0x6F, 0, 0, 0, 0, 0, 0, 0, 0, 0, 1, 0, 0, 0, unused, 0]
  stringTable := [4, 0, 0, 0]
  numberOfSymbols := 2
  numberOfSymbols_lt := by decide
  symbolsInside := Nat.le_refl 36
  terminated := by decide

private theorem quiet_scan (o : CoffObject) (fuel i : Nat) (passed all : Passed) :
    parseLazyFrom (fun _ => false) o fuel i passed ≠ .error (.loaded all) := by
  induction fuel generalizing i passed with
  | zero => simp [parseLazyFrom]
  | succ fuel ih =>
    by_cases below : i < o.numberOfSymbols
    · rw [parseLazyFrom_eq _ o fuel i passed below]
      cases reading o i with
      | passedOver => exact ih _ _
      | noName => simp
      | symbol name => exact ih _ _
    · rw [parseLazyFrom_end _ o fuel i passed below]
      simp

theorem lazy_scan_sample : AuxiliaryIgnored (sectionSymbol 0) :=
  (lazy_scan_iff (fun _ => false) (sectionSymbol 0) (by decide)
    (fun fuel passed => quiet_scan _ fuel 0 [] passed)).mp ⟨3, 2, by decide, by decide⟩

/-- The scan registers the symbol `foo`, which is no symbol. -/
theorem definition_taken_for_symbol :
    parseLazy (fun _ => false) (sectionSymbol 2) 3 = .ok [(1, [0x66, 0x6F, 0x6F])] ∧
      ¬ SameRecords (fun _ => false) (sectionSymbol 2) := by
  refine ⟨by decide, ?_⟩
  rintro ⟨fuel, fuel', same, ended⟩
  have ignored := ignored_of_scan (by decide) fuel' fuel 0 [] ended same
  have passedOver : PassedOver (sectionSymbol 2) 0 := (passedOver_iff _ 0).mpr rfl
  have aux := ignored 0 .refl (by decide) passedOver 1 (by decide) (by decide) (by decide) []
  revert aux
  decide

end LlvmLd.Input.Coff
