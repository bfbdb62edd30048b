import LlvmLd.Symtab.Loading

/-!
# What a call can do

Every call changes one symbol at most, and asks for one file at most. `Effect` lists the ways in
which it can do so; the invariants of whole runs are proved from this list.
-/

namespace LlvmLd.Symtab

variable {Name : Type}

/-- The file that defines a lazy symbol. -/
def Body.target : Body Name → Option (File Name)
  | .lazyArchive file childOffset => some (.member file childOffset)
  | .lazyObject file => some (.input file)
  | .lazyDLLSymbol file symbolName => some (.imported file symbolName)
  | _ => none

def File.isInput : File Name → Bool
  | .input _ => true
  | _ => false

private theorem Symbol.target_of_isLazy {s : Symbol Name} (lazy : s.isLazy = true) :
    ∃ f, s.body.target = some f := by
  rw [Symbol.isLazy] at lazy
  split at lazy
  · exact ⟨_, by rw [‹s.body = _›]; rfl⟩
  · exact ⟨_, by rw [‹s.body = _›]; rfl⟩
  · exact ⟨_, by rw [‹s.body = _›]; rfl⟩
  · cases lazy

theorem Symbol.isLazy_of_target {s : Symbol Name} {f : File Name}
    (target : s.body.target = some f) : s.isLazy = true := by
  obtain ⟨body, used, pending⟩ := s
  cases body with
  | lazyArchive file childOffset => rfl
  | lazyObject file => rfl
  | lazyDLLSymbol file symbolName => rfl
  | _ => cases target

theorem Symbol.not_isUndefined_of_isLazy {s : Symbol Name} (lazy : s.isLazy = true) :
    s.isUndefined = false := by
  obtain ⟨body, used, pending⟩ := s
  cases body with
  | undefined weakAlias isAntiDep => cases lazy
  | _ => rfl

/-- Asking for a file: nothing when it has been asked for before. -/
inductive Demand (t : Table Name) : File Name → Table Name → Option (File Name) → Prop
  | taken {f : File Name} (old : f ∈ t.seen) : Demand t f t none
  | queued {f : File Name} (fresh : f ∉ t.seen) (lib : f.isInput = false) :
      Demand t f { t with seen := f :: t.seen, taskQueue := t.taskQueue ++ [f] } none
  | made {f : File Name} (fresh : f ∉ t.seen) (lib : f.isInput = false) :
      Demand t f { t with seen := f :: t.seen } (some f)
  | woken {i : Nat} (lazy : t.lazy i = true) :
      Demand t (.input i) { t with lazy := Function.update t.lazy i false } (some (.input i))
  | awake {i : Nat} (awake : t.lazy i = false) : Demand t (.input i) t none

variable [DecidableEq Name] (cfg : Names Name)

/-- The effect of a call, with the file to be read at once and what was asked of the table. -/
inductive Effect (t : Table Name) : Table Name → Option (File Name) → List (Event Name) → Prop
  | none : Effect t t none []
  | passed (n : Name) : Effect t t none [.weakened n]
  | enqueued {i : Nat} (fresh : i ∉ t.visitedFiles) :
      Effect t { t with visitedFiles := i :: t.visitedFiles
                        taskQueue := t.taskQueue ++ [.input i] } none []
  -- a definition
  | defined (n : Name) (s : Symbol Name) (duplicates : List (Name × Option (File Name)))
      (isDefined : s.isDefined = true) (pending : s.pendingArchiveLoad = false) :
      Effect t { t.put n s with duplicates } none []
  -- what is known about the symbol stays, and the call asks for nothing new
  | kept {n : Name} {s s' : Symbol Name} {events : List (Event Name)}
      (duplicates : List (Name × Option (File Name))) (there : t.symMap n = some s)
      (body : s'.body = s.body) (pending : s'.pendingArchiveLoad = s.pendingArchiveLoad)
      (asked : events = [] ∨ events = [.weakened n] ∨ (events = [.reference n] ∧ s.isLazy = false) ∨
        ∃ f, events = [.offer n f] ∧ Table.wantsLazy cfg s = false) :
      Effect t { t.put n s' with duplicates } none events
  | created {n : Name} {s : Symbol Name} {events : List (Event Name)} (fresh : t.symMap n = none)
      (pending : s.pendingArchiveLoad = false)
      (kind : (s.body = .undefined none false ∧
          (events = [.reference n] ∨ events = [.weakened n])) ∨
        ∃ f, s.body.target = some f ∧ events = [.offer n f] ∧ ∀ i, f = .input i → t.lazy i = true) :
      Effect t (t.put n s) none events
  | overridden {n : Name} {s s' : Symbol Name} (there : t.symMap n = some s)
      (lazy : s.isLazy = true)
      (body : s'.body = .undefined none false) (pending : s'.pendingArchiveLoad = false) :
      Effect t (t.put n s') none [.weakened n]
  | aliased {n : Name} {s s' : Symbol Name} (duplicates : List (Name × Option (File Name)))
      (there : t.symMap n = some s) (old : s.isUndefined = true) (new : s'.isUndefined = true)
      (pending : s'.pendingArchiveLoad = s.pendingArchiveLoad) :
      Effect t { t.put n s' with duplicates } none [.weakened n]
  -- a file is asked for
  | demanded {n : Name} {s s' : Symbol Name} {f : File Name} {t' : Table Name}
      {load : Option (File Name)} {events : List (Event Name)} (there : t.symMap n = some s)
      (body : s'.body = s.body) (pending : s'.pendingArchiveLoad = true)
      (why : (s.body.target = some f ∧ events = [.reference n]) ∨
        (Table.wantsLazy cfg s = true ∧ events = [.offer n f] ∧
          ∀ i, f = .input i → t.lazy i = true))
      (demand : Demand (t.put n s') f t' load) : Effect t t' load events

namespace Table

/-! ### Finding the symbol -/

omit [DecidableEq Name] in
private theorem insert_spec {t : Table Name} {name : Name} {s : Symbol Name} {wasInserted : Bool}
    (ins : t.insert name = (s, wasInserted)) :
    (wasInserted = true ∧ t.symMap name = none) ∨
      (wasInserted = false ∧ t.symMap name = some s) := by
  rw [insert] at ins
  cases there : t.symMap name with
  | none =>
    rw [there] at ins
    cases ins
    exact Or.inl ⟨rfl, rfl⟩
  | some s₀ =>
    rw [there] at ins
    cases ins
    exact Or.inr ⟨rfl, rfl⟩

omit [DecidableEq Name] in
/-- The symbol that is there, up to the flag of its use, or a fresh one. -/
theorem insertFor_spec {t : Table Name} {name : Name} {file : Option (File Name)} {s : Symbol Name}
    {wasInserted : Bool} (ins : t.insertFor cfg name file = (s, wasInserted)) :
    (wasInserted = true ∧ t.symMap name = none) ∨
      (wasInserted = false ∧ ∃ s₀, t.symMap name = some s₀ ∧ s.body = s₀.body ∧
        s.pendingArchiveLoad = s₀.pendingArchiveLoad) := by
  unfold insertFor at ins
  cases inner : t.insert name with
  | mk s₀ w =>
    rw [inner] at ins
    cases ins
    rcases insert_spec inner with ⟨new, fresh⟩ | ⟨old, there⟩
    · exact Or.inl ⟨new, fresh⟩
    · exact Or.inr ⟨old, s₀, there, rfl, rfl⟩

omit [DecidableEq Name] in
theorem isLazy_congr {s s₀ : Symbol Name} (body : s.body = s₀.body) : s.isLazy = s₀.isLazy := by
  rw [Symbol.isLazy, Symbol.isLazy, body]

omit [DecidableEq Name] in
private theorem wantsLazy_congr {s s₀ : Symbol Name} (body : s.body = s₀.body)
    (pending : s.pendingArchiveLoad = s₀.pendingArchiveLoad) :
    wantsLazy cfg s = wantsLazy cfg s₀ := by
  rw [wantsLazy, wantsLazy, body, pending]

omit [DecidableEq Name] in
theorem isUndefined_of_wantsLazy {cfg : Names Name} {s : Symbol Name}
    (wants : wantsLazy cfg s = true) : s.isUndefined = true := by
  rw [wantsLazy.eq_def] at wants
  rw [Symbol.isUndefined]
  split at wants
  · rfl
  · cases wants

variable {cfg}

/-- The symbol is put back with no change but its use, and perhaps a duplicate is reported. -/
theorem kept_effect {t : Table Name} {n : Name} {file : Option (File Name)} {s : Symbol Name}
    (ins : t.insertFor cfg n file = (s, false)) {events : List (Event Name)}
    (duplicates : List (Name × Option (File Name)))
    (asked : events = [] ∨ events = [.weakened n] ∨ (events = [.reference n] ∧ s.isLazy = false) ∨
      ∃ f, events = [.offer n f] ∧ wantsLazy cfg s = false) :
    Effect cfg t { t.put n s with duplicates } none events := by
  rcases insertFor_spec cfg ins with ⟨new, -⟩ | ⟨-, s₀, there, body, pending⟩
  · cases new
  · rw [isLazy_congr body, wantsLazy_congr cfg body pending] at asked
    exact .kept duplicates there body pending asked

/-! ### Definitions -/

private theorem addAbsolute_effect (t : Table Name) (n : Name) (va : Nat) :
    Effect cfg t (t.addAbsolute cfg n va) none [] := by
  cases ins : t.insertFor cfg n none with
  | mk s wasInserted =>
    rw [addAbsolute, ins]
    dsimp only
    split
    · exact .defined n _ t.duplicates rfl rfl
    -- an absolute symbol stays when it is there, and a duplicate is reported unless it is equal
    · rename_i old
      cases wasInserted with
      | true => simp at old
      | false =>
        split
        · split
          · exact kept_effect ins _ (Or.inl rfl)
          · exact kept_effect ins t.duplicates (Or.inl rfl)
        · split
          · exact kept_effect ins _ (Or.inl rfl)
          · exact kept_effect ins t.duplicates (Or.inl rfl)

private theorem addSynthetic_effect (t : Table Name) (n : Name) :
    Effect cfg t (t.addSynthetic cfg n) none [] := by
  cases ins : t.insertFor cfg n none with
  | mk s wasInserted =>
    rw [addSynthetic, ins]
    dsimp only
    split
    · exact .defined n _ t.duplicates rfl rfl
    · rename_i old
      cases wasInserted with
      | true => simp at old
      | false =>
        split
        · exact kept_effect ins _ (Or.inl rfl)
        · exact kept_effect ins t.duplicates (Or.inl rfl)

private theorem addRegular_effect (t : Table Name) (f : File Name) (n : Name) (sym : Nat)
    (isWeak : Bool) :
    Effect cfg t (t.addRegular cfg f n sym isWeak) none [] := by
  cases ins : t.insertFor cfg n (some f) with
  | mk s wasInserted =>
    rw [addRegular, ins]
    dsimp only
    split
    · exact .defined n _ t.duplicates rfl rfl
    · rename_i old
      cases wasInserted with
      | true => simp at old
      | false =>
        split
        · exact kept_effect ins _ (Or.inl rfl)
        · exact kept_effect ins t.duplicates (Or.inl rfl)

private theorem addComdat_effect (t : Table Name) (f : File Name) (n : Name) (sym : Nat) :
    Effect cfg t (t.addComdat cfg f n sym).1 none [] := by
  cases ins : t.insertFor cfg n (some f) with
  | mk s wasInserted =>
    rw [addComdat, ins]
    dsimp only
    split
    · exact .defined n _ t.duplicates rfl rfl
    · rename_i old
      cases wasInserted with
      | true => simp at old
      | false =>
        split
        · exact kept_effect ins t.duplicates (Or.inl rfl)
        · exact kept_effect ins _ (Or.inl rfl)

private theorem replaceLeader_effect (t : Table Name) (f : File Name) (n : Name) (sym : Nat) :
    Effect cfg t (t.replaceLeader f n sym) none [] := by
  rw [replaceLeader]
  split
  · exact .none
  · exact .defined n _ t.duplicates rfl rfl

private theorem addCommon_effect (t : Table Name) (f : File Name) (n : Name) (size sym : Nat) :
    Effect cfg t (t.addCommon cfg f n size sym) none [] := by
  cases ins : t.insertFor cfg n (some f) with
  | mk s wasInserted =>
    rw [addCommon, ins]
    dsimp only
    split
    · exact .defined n _ t.duplicates rfl rfl
    -- a larger common symbol takes the place of a smaller one
    · rename_i old
      cases wasInserted with
      | true => simp at old
      | false =>
        split
        · split
          · exact .defined n _ t.duplicates rfl rfl
          · exact kept_effect ins t.duplicates (Or.inl rfl)
        · exact kept_effect ins t.duplicates (Or.inl rfl)

private theorem addImport_effect (t : Table Name) (n : Name) (f : File Name) {body : Body Name}
    (isDefined : ∀ used pending, (Symbol.mk body used pending).isDefined = true) :
    Effect cfg t (t.addImport cfg n f body) none [] := by
  cases ins : t.insertFor cfg n none with
  | mk s wasInserted =>
    rw [addImport, ins]
    dsimp only
    split
    · exact .defined n _ t.duplicates (isDefined _ _) rfl
    · rename_i old
      cases wasInserted with
      | true => simp at old
      | false => exact kept_effect ins _ (Or.inl rfl)

/-! ### References -/

private theorem addMember_demand (t : Table Name) (archive childOffset : Nat) :
    Demand t (.member archive childOffset) (t.addMember archive childOffset) none := by
  rw [addMember]
  split
  · exact .taken ‹_›
  · exact .queued ‹_› rfl

private theorem makeImport_demand (t : Table Name) (dll : Nat) (symbolName : Name) :
    Demand t (.imported dll symbolName) (t.makeImport dll symbolName).1
      (t.makeImport dll symbolName).2 := by
  rw [makeImport]
  split
  · exact .taken ‹_›
  · exact .made ‹_› rfl

private theorem forceLazy_demand (t : Table Name) (name : Name) {s : Symbol Name} {f : File Name}
    (target : s.body.target = some f) :
    Demand (t.put name { s with pendingArchiveLoad := true }) f (t.forceLazy name s).1
      (t.forceLazy name s).2 := by
  rw [forceLazy]
  rw [Body.target.eq_def] at target
  -- by the kind of lazy symbol, the others have no file to load
  cases body : s.body with
  | lazyArchive file childOffset =>
    rw [body] at target
    cases target
    exact addMember_demand _ _ _
  | lazyObject file =>
    rw [body] at target
    cases target
    dsimp only
    split
    · exact .woken ‹_›
    · exact .awake (Bool.eq_false_iff.mpr ‹_›)
  | lazyDLLSymbol file symbolName =>
    rw [body] at target
    cases target
    exact makeImport_demand _ _ _
  | _ =>
    rw [body] at target
    cases target

private theorem addUndefined_effect (t : Table Name) (name : Name) (f : Option (File Name))
    (overrideLazy : Bool) :
    Effect cfg t (t.addUndefined cfg name f overrideLazy).1
      (t.addUndefined cfg name f overrideLazy).2
      (if overrideLazy then [.weakened name] else [.reference name]) := by
  cases ins : t.insertFor cfg name f with
  | mk s wasInserted =>
    rw [addUndefined, ins]
    dsimp only
    rcases insertFor_spec cfg ins with ⟨new, fresh⟩ | ⟨old, s₀, there, body, pending⟩
    -- a new name is undefined, whichever way it is referred to
    · rw [new, Bool.true_or, if_pos rfl]
      refine .created fresh rfl (Or.inl ⟨rfl, ?_⟩)
      cases overrideLazy with
      | true => exact Or.inr rfl
      | false => exact Or.inl rfl
    · rw [old, Bool.false_or]
      have lazy := isLazy_congr body
      cases isLazy : s.isLazy with
      | true =>
        rw [isLazy] at lazy
        cases overrideLazy with
        | true => exact .overridden there lazy.symm rfl rfl
        | false =>
          obtain ⟨g, target⟩ := Symbol.target_of_isLazy isLazy
          have demand := forceLazy_demand t name target
          rw [body] at target
          exact @Effect.demanded _ _ cfg t name s₀ { s with pendingArchiveLoad := true } g _ _ _
            there body rfl (Or.inl ⟨target, rfl⟩) demand
      -- undefined or defined: there is no file to load
      | false =>
        rw [old] at ins
        rw [Bool.false_and, if_neg Bool.false_ne_true, if_neg Bool.false_ne_true]
        apply kept_effect ins t.duplicates
        cases overrideLazy with
        | true => exact Or.inr (Or.inl rfl)
        | false => exact Or.inr (Or.inr (Or.inl ⟨rfl, isLazy⟩))

/-! ### Offers -/

/-- An offer under a name that is known: it is passed over, or the file is asked for. -/
theorem offer_effect {t t' : Table Name} {name : Name} {s₀ s : Symbol Name} {f : File Name}
    {load : Option (File Name)} (there : t.symMap name = some s₀) (body : s.body = s₀.body)
    (pending : s.pendingArchiveLoad = s₀.pendingArchiveLoad)
    (awake : ∀ i, f = .input i → t.lazy i = true)
    (passed : wantsLazy cfg s = false → t' = t.put name s ∧ load = none)
    (asked : wantsLazy cfg s = true →
      Demand (t.put name { s with pendingArchiveLoad := true }) f t' load) :
    Effect cfg t t' load [.offer name f] := by
  -- whether the offer is taken depends on the body and the pending flag alone
  have wants := wantsLazy_congr cfg body pending
  cases isWanted : wantsLazy cfg s with
  | false =>
    obtain ⟨rfl, rfl⟩ := passed isWanted
    rw [isWanted] at wants
    exact .kept t.duplicates there body pending (Or.inr (Or.inr (Or.inr ⟨f, rfl, wants.symm⟩)))
  | true =>
    rw [isWanted] at wants
    exact @Effect.demanded _ _ cfg t name s₀ { s with pendingArchiveLoad := true } f t' load _ there
      body rfl (Or.inr ⟨wants.symm, rfl, awake⟩) (asked isWanted)

omit cfg in
/-- A symbol that is there need not be put back. -/
theorem put_self {t : Table Name} {name : Name} {s : Symbol Name} (there : t.symMap name = some s) :
    t.put name s = t := by
  rw [put, ← there, Function.update_eq_self]

private theorem addLazyDLLSymbol_effect (t : Table Name) (f : Nat) (symbolName name : Name) :
    Effect cfg t (t.addLazyDLLSymbol cfg f symbolName name).1
      (t.addLazyDLLSymbol cfg f symbolName name).2 [.offer name (.imported f symbolName)] := by
  cases ins : t.insert name with
  | mk s wasInserted =>
    rw [addLazyDLLSymbol, ins]
    dsimp only
    -- a new name is created lazy, an old one is offered the import
    rcases insert_spec ins with ⟨new, fresh⟩ | ⟨old, there⟩
    · rw [new, if_pos rfl]
      exact .created fresh rfl (Or.inr ⟨_, rfl, rfl, fun i same => by cases same⟩)
    · rw [old, if_neg Bool.false_ne_true]
      apply offer_effect there rfl rfl (fun i same => by cases same)
      · intro passed
        rw [passed, Bool.not_false, if_pos rfl, put_self there]
        exact ⟨rfl, rfl⟩
      · intro asked
        rw [asked, Bool.not_true, if_neg Bool.false_ne_true]
        exact makeImport_demand _ _ _

private theorem addLazyArchive_effect (t : Table Name) (f childOffset : Nat) (name : Name) :
    Effect cfg t (t.addLazyArchive cfg f childOffset name) none
      (t.events cfg (.addLazyArchive f childOffset name)) := by
  rw [addLazyArchive, events]
  -- an EC pair that does not match makes no offer
  by_cases refused : (cfg.isEC && !t.checkLazyECPair cfg name (Body.ofArchive f)) = true
  · rw [if_pos refused, if_pos refused]
    exact .none
  · rw [if_neg refused, if_neg refused]
    cases ins : t.insert name with
    | mk s wasInserted =>
      dsimp only
      rcases insert_spec ins with ⟨new, fresh⟩ | ⟨old, there⟩
      · rw [new, if_pos rfl]
        exact .created fresh rfl (Or.inr ⟨_, rfl, rfl, fun i same => by cases same⟩)
      · rw [old, if_neg Bool.false_ne_true]
        apply offer_effect there rfl rfl (fun i same => by cases same)
        · intro passed
          rw [passed, Bool.not_false, if_pos rfl, put_self there]
          exact ⟨rfl, rfl⟩
        · intro asked
          rw [asked, Bool.not_true, if_neg Bool.false_ne_true]
          exact addMember_demand _ _ _

theorem addLazyObject_effect {t : Table Name} {f : Nat} (lazy : t.lazy f = true) (name : Name) :
    Effect cfg t (t.addLazyObject cfg f name).1 (t.addLazyObject cfg f name).2
      (t.scanEvents cfg f name) := by
  rw [addLazyObject, scanEvents]
  -- an EC pair that does not match makes no offer
  by_cases refused : (cfg.isEC && !t.checkLazyECPair cfg name (Body.ofObject f)) = true
  · rw [if_pos refused, if_pos refused]
    exact .none
  · rw [if_neg refused, if_neg refused]
    cases ins : t.insertFor cfg name (some (.input f)) with
    | mk s wasInserted =>
      dsimp only
      rcases insertFor_spec cfg ins with ⟨new, fresh⟩ | ⟨old, s₀, there, body, pending⟩
      · rw [new, if_pos rfl]
        exact .created fresh rfl (Or.inr ⟨_, rfl, rfl, fun i same => by cases same; exact lazy⟩)
      · rw [old, if_neg Bool.false_ne_true]
        apply offer_effect there body pending (fun i same => by cases same; exact lazy)
        · intro passed
          rw [passed, Bool.not_false, if_pos rfl]
          exact ⟨rfl, rfl⟩
        · intro asked
          rw [asked, Bool.not_true, if_neg Bool.false_ne_true]
          exact .woken lazy

/-! ### Aliases, and all calls -/

private theorem checkAndSetWeakAlias_effect (t : Table Name) (f : File Name) (source : Name)
    (target : Ref Name) (isAntiDep : Bool) :
    Effect cfg t (t.checkAndSetWeakAlias cfg f source target isAntiDep) none
      [.weakened source] := by
  rw [checkAndSetWeakAlias]
  split
  · rename_i weakAlias antiDep used pending there
    -- whether a duplicate is reported besides makes no difference to the effect
    have set : ∀ duplicates,
        Effect cfg t { t.put source ⟨.undefined (some target) isAntiDep, used, pending⟩ with
          duplicates } none [.weakened source] :=
      fun duplicates => .aliased duplicates there rfl rfl rfl
    cases weakAlias with
    | none => exact set t.duplicates
    | some current =>
      dsimp only
      split
      · exact set t.duplicates
      · split
        · exact .passed source
        · split
          · exact set t.duplicates
          · split
            · split
              · exact set t.duplicates
              · exact .passed source
            · exact set _
  · exact .passed source

private theorem enqueue_effect (t : Table Name) (i : Nat) : Effect cfg t (t.enqueue i) none [] := by
  rw [enqueue]
  split
  · exact .none
  · exact .enqueued ‹_›

theorem apply_effect (t : Table Name) (c : Call Name) :
    Effect cfg t (t.apply cfg c).1 (t.apply cfg c).2.2 (t.events cfg c) := by
  cases c with
  | find name => exact .none
  | addUndefined name f overrideLazy => exact addUndefined_effect t name f overrideLazy
  | addLazyArchive f childOffset name => exact addLazyArchive_effect t f childOffset name
  | addLazyDLLSymbol f symbolName name => exact addLazyDLLSymbol_effect t f symbolName name
  | addAbsolute n va => exact addAbsolute_effect t n va
  | addSynthetic n => exact addSynthetic_effect t n
  | addRegular f n sym isWeak => exact addRegular_effect t f n sym isWeak
  | addComdat f n sym => exact addComdat_effect t f n sym
  | replaceLeader f n sym => exact replaceLeader_effect t f n sym
  | addCommon f n size sym => exact addCommon_effect t f n size sym
  | addImportData n f => exact addImport_effect t n f (fun _ _ => rfl)
  | addImportThunk n f => exact addImport_effect t n f (fun _ _ => rfl)
  | setWeakAlias f source target isAntiDep =>
    exact checkAndSetWeakAlias_effect t f source target isAntiDep
  | enqueue i => exact enqueue_effect t i

end Table

end LlvmLd.Symtab
