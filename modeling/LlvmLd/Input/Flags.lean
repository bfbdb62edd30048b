import LlvmLd.Codeview.Record

/-!
`ObjFile::parse`, `initializeFlags`, `initializeDependencies` and `finishDeferredFlags` of
`lld/COFF/InputFiles.cpp`, as far as they read the CodeView sections of an object.

The flag scan and the dependency scan both write `pchSignature`, so their order matters. The scan
is first rewritten as a fold over the records it visits; each of the two scans then has one
equation for the two fields, and the orders are compared on those equations.
-/

namespace LlvmLd.Input

open Codeview

inductive DebugName where
  | symbols | precomp | types
  | other (name : String)
  deriving DecidableEq, Repr

def DebugName.text : DebugName → String
  | .symbols => ".debug$S"
  | .precomp => ".debug$P"
  | .types => ".debug$T"
  | .other name => name

/-- How reading an object can end the link: a diagnosed error, a failed `cantFail`, a wild read. -/
inductive Fault where
  | fatal (message : String)
  | cantFail
  | outOfBounds
  deriving DecidableEq, Repr

/-- `config.debug` and the CodeView sections of the object in file order. -/
structure ObjInput where
  debug : Bool
  debugChunks : List (DebugName × Bytes)

inductive TpiSource where
  | regular
  | precomp (signature : Option Nat)
  | useTypeServer (record : TypeServer2Record)
  | usePrecomp (record : PrecompRecord)
  deriving DecidableEq, Repr

/-- The members of `ObjFile` that the two scans set. -/
structure ObjFile where
  hotPatchable : Bool := false
  pchSignature : Option Nat := none
  flagsDeferred : Bool := false
  debugTypes : Bytes := []
  debugTypesObj : Option TpiSource := none
  deriving DecidableEq, Repr

/-! ### Model -/

def debugSectionMagic : Nat := 4

def consumeDebugMagic (data : Bytes) (name : DebugName) : Except Fault Bytes :=
  if data.isEmpty then .ok []
  else if data.length < 4 then .error (.fatal ("the section is too short: " ++ name.text))
  -- an unrecognized magic is only warned about
  else if data.u32At 0 ≠ debugSectionMagic then .ok []
  else .ok (data.drop 4)

def getDebugSection (input : ObjInput) (name : DebugName) : Except Fault Bytes :=
  match input.debugChunks.find? (fun chunk => chunk.1 = name) with
  | some chunk => consumeDebugMagic chunk.2 name
  | none => .ok []

def applyFlagRecord (file : ObjFile) (sym : Bytes) : Except Fault ObjFile :=
  match symbolKind sym with
  | .compile3 =>
      match compile3HotPatch sym with
      | some hotPatch => .ok { file with hotPatchable := hotPatch }
      | none => .error .cantFail
  | .objname =>
      match objNameSignature sym with
      | some signature =>
          if signature = 0 then .ok file else .ok { file with pchSignature := some signature }
      | none => .error .cantFail
  | _ => .ok file

/-- The loop over the first records of a subsection; `true` means that the whole scan is over. -/
def scanSubsection (records : Bytes) : Nat → Nat → ObjFile → Except Fault (Bool × ObjFile)
  | 0, _, file => .ok (false, file)
  | i + 1, offset, file =>
      if records.length - offset < prefixSize then .ok (true, file)
      else
        let recordLen := records.u16At offset
        if recordLen < 2 ∨ records.length - offset < recordLen + 2 then .ok (true, file)
        else do
          let sym := records.slice offset (recordLen + 2)
          let file ← applyFlagRecord file sym
          scanSubsection records i (offset + sym.length) file

/-- The walk over the subsection headers. Every round moves `pos` by at least a header. -/
def walkSubsections (data : Bytes) : Nat → Nat → ObjFile → Except Fault ObjFile
  | 0, _, file => .ok file
  | fuel + 1, pos, file =>
      -- behind the end `data.size() - pos` wraps and the next header is read anyway
      if data.length < pos then .error .outOfBounds
      else if data.length - pos < 8 then .ok file
      else
        let len := data.u32At (pos + 4)
        if data.length - pos - 8 < len then .ok file
        else
          let next := alignTo (pos + 8 + len) 4
          if data.u32At pos ≠ subsectionSymbols then walkSubsections data fuel next file
          else do
            let (ended, file) ← scanSubsection (data.slice (pos + 8) len) 2 0 file
            if ended then .ok file else walkSubsections data fuel next file

def initializeFlags (input : ObjInput) (file : ObjFile) : Except Fault ObjFile := do
  let data ← getDebugSection input .symbols
  if data.isEmpty then .ok file else walkSubsections data (data.length + 1) 0 file

/-- The part of `initializeDependencies` behind the choice of the section. -/
def dependOnFirstType (isPCH : Bool) (data : Bytes) (file : ObjFile) : Except Fault ObjFile :=
  match readRecord data 0 with
  | none => .ok file
  | some firstType =>
      let file := { file with debugTypes := data }
      if isPCH then
        .ok { file with debugTypesObj := some (.precomp file.pchSignature) }
      else if recordKind firstType = leafTypeServer2 then
        match typeServer2 firstType with
        | some record => .ok { file with debugTypesObj := some (.useTypeServer record) }
        | none => .error .cantFail
      else if recordKind firstType = leafPrecomp then
        match precomp firstType with
        | some record =>
            .ok { file with
              pchSignature := if record.signature = 0 then file.pchSignature
                else some record.signature
              debugTypesObj := some (.usePrecomp record)
              -- drop the LF_PRECOMP record from the input stream
              debugTypes := data.drop firstType.length }
        | none => .error .cantFail
      else .ok { file with debugTypesObj := some .regular }

def initializeDependencies (input : ObjInput) (file : ObjFile) : Except Fault ObjFile :=
  if input.debug = false then .ok file
  else do
    let pch ← getDebugSection input .precomp
    let data ← if pch.isEmpty then getDebugSection input .types else .ok pch
    if data.isEmpty then
      if input.debugChunks.isEmpty then .ok file
      else .ok { file with debugTypesObj := some .regular }
    else dependOnFirstType (!pch.isEmpty) data file

/-- The condition in `parse` under which the flag scan is not deferred. -/
def scansEagerly (input : ObjInput) : Except Fault Bool :=
  if input.debug then (getDebugSection input .precomp).map (fun data => !data.isEmpty)
  else .ok false

def scanOrDefer (input : ObjInput) (eager : Bool) : Except Fault ObjFile :=
  if eager then initializeFlags input {} else .ok { flagsDeferred := true }

/-- `ObjFile::parse` after the section and symbol tables. -/
def parse (input : ObjInput) : Except Fault ObjFile := do
  let eager ← scansEagerly input
  let file ← scanOrDefer input eager
  initializeDependencies input file

def finishDeferredFlags (input : ObjInput) (file : ObjFile) : Except Fault ObjFile :=
  if file.flagsDeferred then initializeFlags input { file with flagsDeferred := false }
  else .ok file

/-- The writer's call, and any number of further ones. -/
def finishRepeatedly (input : ObjInput) : Nat → ObjFile → Except Fault ObjFile
  | 0, file => finishDeferredFlags input file
  | n + 1, file => do
      let file ← finishDeferredFlags input file
      finishRepeatedly input n file

/-- The two fields the scans are for; `none` when the link ended. -/
def flagFields (outcome : Except Fault ObjFile) : Option (Bool × Option Nat) :=
  outcome.toOption.map (fun file => (file.hotPatchable, file.pchSignature))

/-- `parse` with the flag scan always in front of the dependency scan. -/
def parseEager (input : ObjInput) : Except Fault ObjFile := do
  let file ← initializeFlags input {}
  initializeDependencies input file

/-- More fuel than the section has bytes left never changes the walk. -/
theorem walkSubsections_fuel (data : Bytes) (fuel extra pos : Nat) (file : ObjFile)
    (started : 0 < fuel) (enough : data.length < pos + fuel) :
    walkSubsections data (fuel + extra) pos file = walkSubsections data fuel pos file := by
  induction fuel generalizing pos file with
  | zero => omega
  | succ fuel ih =>
    rw [show fuel + 1 + extra = fuel + extra + 1 by omega]
    unfold walkSubsections
    split
    · rfl
    · split
      · rfl
      · dsimp only
        split
        · rfl
        -- each subsection takes at least its header, so the fuel outlasts the data
        · have advances := le_alignTo (pos + 8 + data.u32At (pos + 4)) 4 (by omega)
          have continues := fun file =>
            ih (alignTo (pos + 8 + data.u32At (pos + 4)) 4) file (by omega) (by omega)
          simp only [continues]

/-! ### The scan as a fold over the records it visits -/

/-- The records read from one subsection, and whether the scan stops there. -/
def visitedRecords (records : Bytes) : Nat → Nat → List Bytes × Bool
  | 0, _ => ([], false)
  | i + 1, offset =>
      match readRecord records offset with
      | none => ([], true)
      | some sym =>
          let rest := visitedRecords records i (offset + sym.length)
          (sym :: rest.1, rest.2)

/-- The records read from the whole section; `none` when the walk leaves it. -/
def visitedSymbols (data : Bytes) : Nat → Nat → Option (List Bytes)
  | 0, _ => some []
  | fuel + 1, pos =>
      if data.length < pos then none
      else if data.length - pos < 8 then some []
      else
        let len := data.u32At (pos + 4)
        if data.length - pos - 8 < len then some []
        else
          let next := alignTo (pos + 8 + len) 4
          if data.u32At pos ≠ subsectionSymbols then visitedSymbols data fuel next
          else
            let visited := visitedRecords (data.slice (pos + 8) len) 2 0
            if visited.2 then some visited.1
            else (visitedSymbols data fuel next).map (visited.1 ++ ·)

/-- The value of the last record that has one. -/
def lastSome {α : Type} (value : Bytes → Option α) : List Bytes → Option α
  | [] => none
  | record :: rest => (lastSome value rest).or (value record)

def nonZero (signature : Nat) : Option Nat :=
  if signature = 0 then none else some signature

/-- The non-zero signature of an `S_OBJNAME` record. -/
def recordSignature (sym : Bytes) : Option Nat :=
  if symbolKind sym = .objname then (objNameSignature sym).bind nonZero else none

def recordHotPatch (sym : Bytes) : Option Bool :=
  if symbolKind sym = .compile3 then compile3HotPatch sym else none

/-- An `S_OBJNAME` or `S_COMPILE3` record that its deserializer accepts, or any other record. -/
def Decodes (sym : Bytes) : Prop :=
  (symbolKind sym = .objname → (objNameSignature sym).isSome) ∧
    (symbolKind sym = .compile3 → (compile3HotPatch sym).isSome)

instance (sym : Bytes) : Decidable (Decodes sym) := inferInstanceAs (Decidable (_ ∧ _))

/-- The records of `.debug$S` that the flag scan looks at; `none` when the scan ends the link. -/
def flagRecords (input : ObjInput) : Option (List Bytes) :=
  match getDebugSection input .symbols with
  | .error _ => none
  | .ok data =>
      if data.isEmpty then some []
      else (visitedSymbols data (data.length + 1) 0).filter (fun rs => rs.all (Decodes ·))

/-- The non-zero signature of the first type record, if that is an `LF_PRECOMP`. -/
def firstTypeSignature (data : Bytes) : Option Nat :=
  (readRecord data 0).bind fun record =>
    if recordKind record = leafPrecomp then
      (precomp record).bind (fun announced => nonZero announced.signature)
    else none

/-- The signature announced by `.debug$T` of an object that is linked with `/debug` and has no PCH. -/
def precompSignature (input : ObjInput) : Option Nat :=
  match input.debug, getDebugSection input .precomp, getDebugSection input .types with
  | true, .ok [], .ok data => firstTypeSignature data
  | _, _, _ => none

private theorem toOption_ok {α : Type} (a : α) : (Except.ok a : Except Fault α).toOption = some a :=
  rfl

private theorem toOption_bind {α β : Type} (x : Except Fault α) (f : α → Except Fault β) :
    (x >>= f).toOption = x.toOption.bind (fun a => (f a).toOption) := by
  cases x <;> rfl

private theorem applyFlagRecord_eq (file : ObjFile) (sym : Bytes) :
    (applyFlagRecord file sym).toOption =
      if Decodes sym then
        some { file with
          hotPatchable := (recordHotPatch sym).getD file.hotPatchable
          pchSignature := (recordSignature sym).or file.pchSignature }
      else none := by
  simp only [applyFlagRecord]
  split
  case h_1 kind =>
    cases decoded : compile3HotPatch sym <;>
      simp [Decodes, recordHotPatch, recordSignature, kind, decoded, Except.toOption]
  case h_2 kind =>
    cases decoded : objNameSignature sym with
    | none => simp [Decodes, kind, decoded, Except.toOption]
    | some signature =>
      -- a signature of zero leaves the one that is there
      by_cases zero : signature = 0 <;>
        simp [Decodes, recordHotPatch, recordSignature, kind, decoded, nonZero, zero,
          Except.toOption]
  case h_3 notCompile notObjName =>
    have notCompile : ¬ symbolKind sym = .compile3 := notCompile
    have notObjName : ¬ symbolKind sym = .objname := notObjName
    simp [Decodes, recordHotPatch, recordSignature, notCompile, notObjName, Except.toOption]

theorem foldlM_applyFlagRecord (records : List Bytes) (file : ObjFile) :
    (records.foldlM applyFlagRecord file).toOption =
      if records.all (Decodes ·) then
        some { file with
          hotPatchable := (lastSome recordHotPatch records).getD file.hotPatchable
          pchSignature := (lastSome recordSignature records).or file.pchSignature }
      else none := by
  induction records generalizing file with
  | nil => simp [lastSome, pure, Except.pure, Except.toOption]
  | cons sym rest ih =>
    rw [List.foldlM_cons, toOption_bind, applyFlagRecord_eq]
    by_cases good : Decodes sym
    · simp only [good, if_true, Option.bind_some, ih, List.all_cons, decide_true, Bool.true_and,
        lastSome]
      cases lastSome recordHotPatch rest <;> cases lastSome recordSignature rest <;> simp
    · simp [good]

theorem scanSubsection_eq (records : Bytes) (i offset : Nat) (file : ObjFile) :
    (scanSubsection records i offset file).toOption =
      (((visitedRecords records i offset).1.foldlM applyFlagRecord file).toOption).map
        (fun after => ((visitedRecords records i offset).2, after)) := by
  induction i generalizing offset file with
  | zero => rfl
  | succ i ih =>
    simp only [scanSubsection, visitedRecords, readRecord]
    by_cases short : records.length - offset < prefixSize
    · simp [short, pure, Except.pure, Except.toOption]
    · by_cases bad : records.u16At offset < 2 ∨ records.length - offset < records.u16At offset + 2
      · simp only [if_neg short, if_pos bad]
        rfl
      · simp only [short, bad, if_false, List.foldlM_cons, toOption_bind, ih]
        cases (applyFlagRecord file (records.slice offset (records.u16At offset + 2))).toOption <;>
          simp

private theorem walkSubsections_eq (data : Bytes) (fuel pos : Nat) (file : ObjFile) :
    (walkSubsections data fuel pos file).toOption =
      (visitedSymbols data fuel pos).bind
        (fun records => (records.foldlM applyFlagRecord file).toOption) := by
  induction fuel generalizing pos file with
  | zero => rfl
  | succ fuel ih =>
    rw [walkSubsections, visitedSymbols]
    split
    · rfl
    · split
      · rfl
      · dsimp only
        split
        · rfl
        · split
          · exact ih _ _
          · rw [toOption_bind, scanSubsection_eq]
            generalize visitedRecords (data.slice (pos + 8) (data.u32At (pos + 4))) 2 0 = visited
            obtain ⟨records, ended⟩ := visited
            -- a cut off record stops the walk; else the rest of the subsections follows
            cases ended with
            | true =>
              simp only [if_true, Option.bind_some]
              cases (records.foldlM applyFlagRecord file).toOption <;> rfl
            | false =>
              simp only [Bool.false_eq_true, if_false, Option.bind_map, Function.comp_def]
              cases rest : visitedSymbols data fuel (alignTo (pos + 8 + data.u32At (pos + 4)) 4) with
              | none =>
                cases (records.foldlM applyFlagRecord file).toOption <;> simp [ih, rest]
              | some later =>
                simp [ih, rest, List.foldlM_append, toOption_bind]

/-- The flag scan sets the two fields from the records it visits and nothing else. -/
private theorem initializeFlags_eq (input : ObjInput) (file : ObjFile) :
    (initializeFlags input file).toOption =
      (flagRecords input).map (fun records =>
        { file with
          hotPatchable := (lastSome recordHotPatch records).getD file.hotPatchable
          pchSignature := (lastSome recordSignature records).or file.pchSignature }) := by
  simp only [initializeFlags, flagRecords]
  cases getDebugSection input .symbols with
  | error fault => rfl
  | ok data =>
    rw [toOption_bind, toOption_ok, Option.bind_some]
    by_cases empty : data.isEmpty
    · simp [empty, lastSome, toOption_ok]
    · simp only [empty, Bool.false_eq_true, if_false, walkSubsections_eq]
      cases visitedSymbols data (data.length + 1) 0 with
      | none => rfl
      | some records =>
        rw [Option.bind_some, foldlM_applyFlagRecord]
        -- one record that does not decode fails the whole scan
        by_cases good : records.all (Decodes ·) <;> simp [good, Option.filter]

/-- The scan goes through on every file and only puts `signature` in front of the file's own. -/
def AddsSignature (scan : ObjFile → Except Fault ObjFile) (signature : Option Nat) : Prop :=
  ∀ file, ∃ after, scan file = .ok after ∧
    after.hotPatchable = file.hotPatchable ∧ after.flagsDeferred = file.flagsDeferred ∧
    after.pchSignature = signature.or file.pchSignature

/-- Behind a `.debug$T` section the scan fails on every file, or only adds the signature. -/
private theorem dependOnFirstType_types (data : Bytes) :
    (firstTypeSignature data = none ∧
        ∀ file, (dependOnFirstType false data file).toOption = none) ∨
      AddsSignature (dependOnFirstType false data) (firstTypeSignature data) := by
  unfold dependOnFirstType firstTypeSignature
  cases readRecord data 0 with
  | none => exact Or.inr fun file => ⟨file, rfl, rfl, rfl, by simp⟩
  | some record =>
    simp only [Bool.false_eq_true, if_false, Option.bind_some]
    -- a type server has no signature of its own, a precompiled header announces one
    by_cases server : recordKind record = leafTypeServer2
    · have notPrecomp : recordKind record ≠ leafPrecomp := by rw [server]; decide
      simp only [server, if_true]
      cases typeServer2 record with
      | none => exact Or.inl ⟨by simp [← server, notPrecomp], fun file => rfl⟩
      | some announced => exact Or.inr fun file => ⟨_, rfl, rfl, rfl, by simp [← server, notPrecomp]⟩
    · simp only [server, if_false]
      by_cases uses : recordKind record = leafPrecomp
      · simp only [uses, if_true]
        cases precomp record with
        | none => exact Or.inl ⟨rfl, fun file => rfl⟩
        | some announced =>
          refine Or.inr fun file => ⟨_, rfl, rfl, rfl, ?_⟩
          by_cases zero : announced.signature = 0 <;> simp [nonZero, zero]
      · simp only [uses, if_false]
        exact Or.inr fun file => ⟨_, rfl, rfl, rfl, rfl⟩

/-- The dependency scan fails on every file, or only adds the `LF_PRECOMP` signature. -/
private theorem initializeDependencies_eq (input : ObjInput) :
    (precompSignature input = none ∧
        ∀ file, (initializeDependencies input file).toOption = none) ∨
      AddsSignature (initializeDependencies input) (precompSignature input) := by
  unfold initializeDependencies precompSignature
  cases input.debug with
  | false => exact Or.inr fun file => ⟨file, rfl, rfl, rfl, by simp⟩
  | true =>
    cases getDebugSection input .precomp with
    | error fault => exact Or.inl ⟨rfl, fun file => rfl⟩
    | ok pch =>
      cases pch with
      | cons byte rest =>
        -- a precompiled-header object: its own signature is left alone
        refine Or.inr fun file => ?_
        cases first : readRecord (byte :: rest) 0 with
        | none => exact ⟨file, by simp [dependOnFirstType, first, bind, Except.bind]⟩
        | some record =>
          refine ⟨_, by simp [dependOnFirstType, first, bind, Except.bind]; rfl, ?_⟩
          simp
      | nil =>
        cases getDebugSection input .types with
        | error fault => exact Or.inl ⟨rfl, fun file => rfl⟩
        | ok data =>
          cases data with
          | nil =>
            refine Or.inr fun file => ?_
            by_cases empty : input.debugChunks.isEmpty
            · exact ⟨file, by simp [empty, bind, Except.bind, firstTypeSignature, readRecord]⟩
            · refine ⟨_, by simp [empty, bind, Except.bind]; rfl, ?_⟩
              simp [firstTypeSignature, readRecord]
          | cons byte rest => exact dependOnFirstType_types (byte :: rest)

/-! ### Eager against deferred -/

/-- An object whose scanned `S_OBJNAME` signature differs from its `LF_PRECOMP` signature. -/
def SignatureConflict (input : ObjInput) : Prop :=
  ∃ announced ∈ precompSignature input, ∃ records ∈ flagRecords input,
    ∃ named ∈ lastSome recordSignature records, named ≠ announced

private theorem finishRepeatedly_done (input : ObjInput) (n : Nat) (file : ObjFile)
    (done : file.flagsDeferred = false) : finishRepeatedly input n file = .ok file := by
  induction n with
  | zero => simp [finishRepeatedly, finishDeferredFlags, done]
  | succ n ih => simp [finishRepeatedly, finishDeferredFlags, done, bind, Except.bind, ih]

private theorem finishRepeatedly_deferred (input : ObjInput) (n : Nat) (file : ObjFile)
    (deferred : file.flagsDeferred = true) :
    (finishRepeatedly input n file).toOption =
      (initializeFlags input { file with flagsDeferred := false }).toOption := by
  cases n with
  | zero => simp [finishRepeatedly, finishDeferredFlags, deferred]
  | succ n =>
    have scanned := initializeFlags_eq input { file with flagsDeferred := false }
    simp only [finishRepeatedly, finishDeferredFlags, deferred, if_true, toOption_bind, scanned]
    cases flagRecords input with
    | none => rfl
    | some records =>
      rw [Option.map_some, Option.bind_some, finishRepeatedly_done input n _ rfl]
      rfl

/-- The fields after an eager scan: the `LF_PRECOMP` signature wins. -/
private theorem parseEager_fields (input : ObjInput)
    (depends : AddsSignature (initializeDependencies input) (precompSignature input)) :
    flagFields (parseEager input) = (flagRecords input).map (fun records =>
      ((lastSome recordHotPatch records).getD false,
        (precompSignature input).or (lastSome recordSignature records))) := by
  simp only [flagFields, parseEager]
  rw [toOption_bind, initializeFlags_eq]
  cases flagRecords input with
  | none => rfl
  | some records =>
    rw [Option.map_some, Option.bind_some]
    obtain ⟨after, ok, hot, -, signature⟩ := depends _
    rw [ok, toOption_ok, Option.map_some, hot, signature]
    simp

/-- The fields after a deferred scan: the `S_OBJNAME` signature wins. -/
private theorem parseDeferred_fields (input : ObjInput) (n : Nat)
    (depends : AddsSignature (initializeDependencies input) (precompSignature input)) :
    flagFields (initializeDependencies input { flagsDeferred := true } >>=
        finishRepeatedly input n) =
      (flagRecords input).map (fun records =>
        ((lastSome recordHotPatch records).getD false,
          (lastSome recordSignature records).or (precompSignature input))) := by
  simp only [flagFields]
  obtain ⟨after, ok, hot, deferred, signature⟩ := depends { flagsDeferred := true }
  rw [ok, toOption_bind, toOption_ok, Option.bind_some, finishRepeatedly_deferred input n after deferred,
    initializeFlags_eq]
  cases flagRecords input with
  | none => rfl
  | some records => simp [hot, signature]

/-- A precompiled-header object announces no signature of another one. -/
private theorem precompSignature_eager (input : ObjInput) (early : scansEagerly input = .ok true) :
    precompSignature input = none := by
  simp only [scansEagerly] at early
  simp only [precompSignature]
  cases debug : input.debug with
  | false => rfl
  | true =>
    rw [debug] at early
    cases pch : getDebugSection input .precomp with
    | error fault => rfl
    | ok data =>
      cases data with
      | nil => simp [pch, Except.map] at early
      | cons byte rest => rfl

/-- If the dependency scan goes through, so does the test for a precompiled-header object. -/
private theorem scansEagerly_of_depends (input : ObjInput)
    (depends : AddsSignature (initializeDependencies input) (precompSignature input))
    (late : scansEagerly input ≠ .ok true) : scansEagerly input = .ok false := by
  obtain ⟨after, ok, -⟩ := depends {}
  simp only [scansEagerly] at late ⊢
  simp only [initializeDependencies] at ok
  cases debug : input.debug with
  | false => rfl
  | true =>
    cases pch : getDebugSection input .precomp with
    | error fault => simp [debug, pch, bind, Except.bind] at ok
    | ok data =>
      cases empty : data.isEmpty <;> simp_all [Except.map]

private theorem or_comm_iff (a b : Option Nat) :
    a.or b = b.or a ↔ ¬ ∃ x ∈ b, ∃ y ∈ a, y ≠ x := by
  cases a <;> cases b <;> simp

/--
Deferring the flag scan gives the fields of the eager scan exactly for the objects without a
signature conflict, however often the deferred scan is asked for.
-/
theorem deferred_flags_eq_eager_iff (input : ObjInput) (n : Nat) :
    flagFields (parse input >>= finishRepeatedly input n) = flagFields (parseEager input) ↔
      ¬ SignatureConflict input := by
  rcases initializeDependencies_eq input with ⟨unsigned, fails⟩ | depends
  · -- the dependency scan ends the link in either order
    have noConflict : ¬ SignatureConflict input := by
      rintro ⟨announced, member, -⟩
      simp [unsigned] at member
    have eager : flagFields (parseEager input) = none := by
      simp only [flagFields, parseEager]
      rw [toOption_bind]
      cases (initializeFlags input {}).toOption <;> simp [fails]
    have deferred : flagFields (parse input >>= finishRepeatedly input n) = none := by
      simp only [flagFields, parse]
      simp [toOption_bind, fails]
    rw [eager, deferred]
    exact iff_of_true rfl noConflict
  · by_cases early : scansEagerly input = .ok true
    · -- a precompiled-header object is scanned at once
      have unsigned := precompSignature_eager input early
      have noConflict : ¬ SignatureConflict input := by
        rintro ⟨announced, member, -⟩
        simp [unsigned] at member
      refine iff_of_true ?_ noConflict
      have same : parse input = parseEager input := by
        simp [parse, parseEager, scanOrDefer, early, bind, Except.bind]
      rw [same, parseEager_fields input depends]
      simp only [flagFields, parseEager]
      rw [toOption_bind, toOption_bind, initializeFlags_eq]
      cases flagRecords input with
      | none => rfl
      | some records =>
        rw [Option.map_some, Option.bind_some]
        obtain ⟨after, ok, hot, done, signature⟩ := depends _
        rw [ok, toOption_ok, Option.bind_some, finishRepeatedly_done input n after done, toOption_ok,
          Option.map_some, hot, signature]
        simp
    · have late := scansEagerly_of_depends input depends early
      have same : parse input = initializeDependencies input { flagsDeferred := true } := by
        simp [parse, scanOrDefer, late, bind, Except.bind]
      rw [same, parseDeferred_fields input n depends, parseEager_fields input depends]
      cases found : flagRecords input with
      | none => simp [SignatureConflict, found]
      | some records =>
        simp only [Option.map_some, Option.some.injEq, Prod.mk.injEq, true_and, or_comm_iff]
        simp [SignatureConflict, found]

/--
An object compiled with `/Yu`: `S_OBJNAME` with signature 1 in `.debug$S`, `LF_PRECOMP` with
signature 2 in `.debug$T`.
-/
def conflictingObject : ObjInput where
  debug := true
  debugChunks :=
    [(.symbols, [4, 0, 0, 0, 0xf1, 0, 0, 0, 12, 0, 0, 0,
        10, 0, 0x01, 0x11, 1, 0, 0, 0, 97, 0, 0, 0]),
      (.types, [4, 0, 0, 0, 18, 0, 0x09, 0x15, 0, 0x10, 0, 0, 1, 0, 0, 0, 2, 0, 0, 0,
        112, 0, 0xf2, 0xf1])]

theorem conflictingObject_signatures :
    flagFields (parseEager conflictingObject) = some (false, some 2) ∧
      flagFields (parse conflictingObject >>= finishRepeatedly conflictingObject 0) =
        some (false, some 1) := by
  decide

end LlvmLd.Input
