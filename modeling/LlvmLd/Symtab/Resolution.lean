import LlvmLd.Symtab.Closure

/-!
# What is defined in the end

A file that is read to its end defines the names that it promises, and a definition is never lost.
So a name that is referred to is defined when the queue has been worked off, if the files that
offer it hold what they promise.

## Main results

- `defined_stays`: what is defined stays defined, whatever is read afterwards.
- `offered_resolves`: what is referred to and offered is defined in the end.
-/

namespace LlvmLd.Symtab

variable {Name : Type}

/-! ### Definitions stay -/

private theorem Symbol.isDefined_congr {s s' : Symbol Name} (body : s'.body = s.body) :
    s'.isDefined = s.isDefined := by
  rw [isDefined, isDefined, isLazy, isLazy, isUndefined, isUndefined, body]

private theorem Symbol.not_isLazy_of_isDefined {s : Symbol Name} (defined : s.isDefined = true) :
    s.isLazy = false := by
  rw [isDefined, Bool.and_eq_true, Bool.not_eq_true'] at defined
  exact defined.1

private theorem Symbol.not_isUndefined_of_isDefined {s : Symbol Name}
    (defined : s.isDefined = true) :
    s.isUndefined = false := by
  rw [isDefined, Bool.and_eq_true, Bool.not_eq_true', Bool.not_eq_true'] at defined
  exact defined.2

variable [DecidableEq Name] {cfg : Names Name}

/-- A changed symbol: the names that were defined are so still if this one is. -/
theorem Table.IsDefined.put {t t' : Table Name} {n m : Name} {s : Symbol Name}
    (defined : t.IsDefined n) (symMap : t'.symMap = Function.update t.symMap m (some s))
    (here : ∀ s₀, t.symMap m = some s₀ → s₀.isDefined = true → s.isDefined = true) :
    t'.IsDefined n := by
  obtain ⟨s₀, there, isDefined⟩ := defined
  by_cases same : n = m
  · subst same
    exact ⟨s, by rw [symMap, Function.update_self], here s₀ there isDefined⟩
  · exact ⟨s₀, by rw [symMap, Function.update_of_ne same, there], isDefined⟩

theorem Effect.keeps {t t' : Table Name} {load : Option (File Name)} {events : List (Event Name)}
    (effect : Effect cfg t t' load events) {n : Name} (defined : t.IsDefined n) :
    t'.IsDefined n := by
  cases effect with
  | none => exact defined
  | passed m => exact defined
  | enqueued fresh => exact defined
  | defined m s duplicates isDefined pending => exact defined.put rfl fun _ _ _ => isDefined
  | kept duplicates there body pending asked =>
    refine defined.put rfl fun s₀ here isDefined => ?_
    rw [there] at here
    cases here
    exact (Symbol.isDefined_congr body).trans isDefined
  | created fresh pending kind =>
    refine defined.put rfl fun s₀ here _ => ?_
    rw [fresh] at here
    cases here
  -- Only a lazy or an undefined symbol gives way, and a defined one is neither.
  | overridden there lazy body pending =>
    refine defined.put rfl fun s₀ here isDefined => ?_
    rw [there] at here
    cases here
    rw [Symbol.not_isLazy_of_isDefined isDefined] at lazy
    cases lazy
  | aliased duplicates there old new pending =>
    refine defined.put rfl fun s₀ here isDefined => ?_
    rw [there] at here
    cases here
    rw [Symbol.not_isUndefined_of_isDefined isDefined] at old
    cases old
  | demanded there body pending why demand =>
    refine defined.put demand.symMap fun s₀ here isDefined => ?_
    rw [there] at here
    cases here
    exact (Symbol.isDefined_congr body).trans isDefined

/-! ### Calls that define -/

/-- The name that a call defines. -/
def Call.defines : Call Name → Option Name
  | .addAbsolute n _ => some n
  | .addSynthetic n => some n
  | .addRegular _ n _ _ => some n
  | .addComdat _ n _ => some n
  | .addCommon _ n _ _ => some n
  | .addImportData n _ => some n
  | .addImportThunk n _ => some n
  | _ => none

namespace Table

/-- A symbol that stands in the table under its name. -/
theorem put_isDefined (t : Table Name) (n : Name) {s : Symbol Name} (defined : s.isDefined = true) :
    (t.put n s).IsDefined n :=
  ⟨s, Function.update_self _ _ _, defined⟩

omit [DecidableEq Name] in
private theorem isDefined_of_not {s : Symbol Name} {wasInserted : Bool}
    (old : ¬(wasInserted || s.isUndefined || s.isLazy) = true) : s.isDefined = true := by
  rw [Bool.or_eq_true, Bool.or_eq_true, not_or, not_or, Bool.not_eq_true, Bool.not_eq_true,
    Bool.not_eq_true] at old
  rw [Symbol.isDefined, old.1.2, old.2]
  rfl

omit [DecidableEq Name] in
private theorem isDefined_of_regular {s : Symbol Name} (regular : s.isDefinedRegular = true) :
    s.isDefined = true := by
  rw [Symbol.isDefinedRegular] at regular
  rw [Symbol.isDefined, Symbol.isLazy, Symbol.isUndefined]
  split at regular
  · rw [‹s.body = _›]
    rfl
  · cases regular

omit [DecidableEq Name] in
private theorem isDefined_of_COFF {s : Symbol Name} (coff : s.isDefinedCOFF = true) :
    s.isDefined = true := by
  rw [Symbol.isDefinedCOFF] at coff
  rw [Symbol.isDefined, Symbol.isLazy, Symbol.isUndefined]
  split at coff
  · rw [‹s.body = _›]
    rfl
  · rw [‹s.body = _›]
    rfl
  · cases coff

private theorem addAbsolute_defines (t : Table Name) (n : Name) (va : Nat) :
    (t.addAbsolute cfg n va).IsDefined n := by
  unfold addAbsolute
  cases t.insertFor cfg n none with
  | mk s wasInserted =>
    dsimp only
    split
    · exact put_isDefined t n rfl
    · have put := put_isDefined t n (isDefined_of_not ‹_›)
      split
      · split
        · exact put
        · exact put
      · split
        · exact put
        · exact put

private theorem addSynthetic_defines (t : Table Name) (n : Name) :
    (t.addSynthetic cfg n).IsDefined n := by
  unfold addSynthetic
  cases t.insertFor cfg n none with
  | mk s wasInserted =>
    dsimp only
    split
    · exact put_isDefined t n rfl
    · have put := put_isDefined t n (isDefined_of_not ‹_›)
      split
      · exact put
      · exact put

private theorem addRegular_defines (t : Table Name) (f : File Name) (n : Name) (sym : Nat)
    (isWeak : Bool) :
    (t.addRegular cfg f n sym isWeak).IsDefined n := by
  unfold addRegular
  cases t.insertFor cfg n (some f) with
  | mk s wasInserted =>
    dsimp only
    split
    · exact put_isDefined t n rfl
    · rename_i old
      rw [Bool.or_eq_true, Bool.or_eq_true, not_or, not_or, Bool.not_eq_true',
        Bool.not_eq_false] at old
      have put := put_isDefined t n (isDefined_of_regular old.1.2)
      split
      · exact put
      · exact put

private theorem addComdat_defines (t : Table Name) (f : File Name) (n : Name) (sym : Nat) :
    (t.addComdat cfg f n sym).1.IsDefined n := by
  unfold addComdat
  cases t.insertFor cfg n (some f) with
  | mk s wasInserted =>
    dsimp only
    split
    · exact put_isDefined t n rfl
    · rename_i old
      rw [Bool.or_eq_true, not_or, Bool.not_eq_true', Bool.not_eq_false] at old
      have put := put_isDefined t n (isDefined_of_regular old.2)
      split
      · exact put
      · exact put

private theorem addCommon_defines (t : Table Name) (f : File Name) (n : Name) (size sym : Nat) :
    (t.addCommon cfg f n size sym).IsDefined n := by
  unfold addCommon
  cases t.insertFor cfg n (some f) with
  | mk s wasInserted =>
    dsimp only
    split
    · exact put_isDefined t n rfl
    · rename_i old
      rw [Bool.or_eq_true, not_or, Bool.not_eq_true', Bool.not_eq_false] at old
      have put := put_isDefined t n (isDefined_of_COFF old.2)
      split
      · split
        · exact put_isDefined t n rfl
        · exact put
      · exact put

private theorem addImport_defines (t : Table Name) (n : Name) (f : File Name) {body : Body Name}
    (isDefined : ∀ used pending, (Symbol.mk body used pending).isDefined = true) :
    (t.addImport cfg n f body).IsDefined n := by
  unfold addImport
  cases t.insertFor cfg n none with
  | mk s wasInserted =>
    dsimp only
    split
    · exact put_isDefined t n (isDefined _ _)
    · exact put_isDefined t n (isDefined_of_not ‹_›)

private theorem apply_defines (t : Table Name) {c : Call Name} {n : Name}
    (defines : c.defines = some n) :
    (t.apply cfg c).1.IsDefined n := by
  -- by the call: each that defines a name leaves its symbol defined
  cases c with
  | addAbsolute m va =>
    cases defines
    exact @addAbsolute_defines _ _ cfg t n va
  | addSynthetic m =>
    cases defines
    exact @addSynthetic_defines _ _ cfg t n
  | addRegular f m sym isWeak =>
    cases defines
    exact @addRegular_defines _ _ cfg t f n sym isWeak
  | addComdat f m sym =>
    cases defines
    exact @addComdat_defines _ _ cfg t f n sym
  | addCommon f m size sym =>
    cases defines
    exact @addCommon_defines _ _ cfg t f n size sym
  | addImportData m f =>
    cases defines
    exact @addImport_defines _ _ cfg t n f _ fun _ _ => rfl
  | addImportThunk m f =>
    cases defines
    exact @addImport_defines _ _ cfg t n f _ fun _ _ => rfl
  | _ => cases defines

end Table

/-! ### Files that define -/

/-- The name is defined whatever the table answers. -/
def Program.Defines (n : Name) : Program Name → Prop
  | .done => False
  | .call c k => c.defines = some n ∨ ∀ a, (k a).Defines n

namespace Loader

variable {inp : Inputs Name} {lazy : Nat → Bool} {s s' : Loader Name}

/-- A file on the stack is going to define the name. -/
def Promised (frames : List (Frame Name)) (n : Name) : Prop :=
  ∃ p, .running p ∈ frames ∧ p.Defines n

/-- What the files that were begun define is defined, or will be before they end. -/
def KeepsPromises (inp : Inputs Name) (s : Loader Name) : Prop :=
  ∀ f ∈ s.parsed, ∀ n, (inp.parse f).Defines n → s.IsDefined n ∨ Promised s.frames n

omit [DecidableEq Name] in
theorem Promised.mono {frames frames' : List (Frame Name)} {n : Name}
    (promised : Promised frames n) (more : frames ⊆ frames') : Promised frames' n := by
  obtain ⟨p, member, defines⟩ := promised
  exact ⟨p, more member, defines⟩

omit [DecidableEq Name] in
/-- What the top of the stack does not promise is promised below. -/
theorem Promised.below {frame : Frame Name} {frames : List (Frame Name)} {n : Name}
    (promised : Promised (frame :: frames) n)
    (top : ∀ p : Program Name, frame = .running p → ¬p.Defines n) : Promised frames n := by
  obtain ⟨p, running, defines⟩ := promised
  rcases List.mem_cons.mp running with now | before
  · exact absurd defines (top p now.symm)
  · exact ⟨p, before, defines⟩

omit [DecidableEq Name] in
/-- A file that is begun promises what it defines. -/
theorem KeepsPromises.read {f : File Name} (keeps : KeepsPromises inp s) :
    KeepsPromises inp
      { s with frames := .running (inp.parse f) :: s.frames, parsed := s.parsed ++ [f] } := by
  intro g member n defines
  rcases List.mem_append.mp member with before | now
  · exact (keeps g before n defines).imp_right fun promised =>
      promised.mono (List.subset_cons_self _ _)
  · rw [List.mem_singleton.mp now] at defines
    exact Or.inr ⟨_, List.mem_cons_self, defines⟩

omit [DecidableEq Name] in
theorem KeepsPromises.addFile (keeps : KeepsPromises inp s) (f : File Name) :
    KeepsPromises inp (s.addFile inp f) := by
  cases f with
  | input i =>
    rw [Loader.addFile]
    split
    · exact fun g member n defines => (keeps g member n defines).imp_right fun promised =>
        promised.mono (List.subset_cons_self _ _)
    · exact keeps.read
  | member archive childOffset => exact keeps.read
  | imported dll symbolName => exact keeps.read

omit [DecidableEq Name] in
theorem KeepsPromises.addLoad (keeps : KeepsPromises inp s) (load : Option (File Name)) :
    KeepsPromises inp (s.addLoad inp load) := by
  cases load with
  | none => exact keeps
  | some f => exact keeps.addFile f

private theorem step_keepsPromises (keeps : KeepsPromises inp s) (stepped : s.step inp = some s') :
    KeepsPromises inp s' := by
  -- when the stack is empty, all promises have been kept
  have kept : s.frames = [] → ∀ {frames : List (Frame Name)} {phases : List (Phase Name)}
      {didWork : Option Bool}, KeepsPromises inp { s with frames, phases, didWork } := by
    intro here frames phases didWork f member n defines
    refine (keeps f member n defines).imp_right fun promised => ?_
    rw [here] at promised
    exact promised.mono (List.nil_subset _)
  cases branch_of_step stepped with
  -- a file that ends has no promise left, and a scan promises nothing
  | left here ended =>
    intro f member n defines
    refine (keeps f member n defines).imp_right fun promised => ?_
    rw [here] at promised
    refine promised.below fun p running promise => ?_
    cases ended p running
    exact promise
  -- a call keeps the promise, or leaves it to what follows its answer
  | @called c k frames here =>
    apply KeepsPromises.addLoad
    intro f member n defines
    have effect := @Table.apply_effect _ _ inp.toNames s.toTable c
    rcases keeps f member n defines with defined | ⟨p, running, promise⟩
    · exact Or.inl (effect.keeps defined)
    · rw [here] at running
      rcases List.mem_cons.mp running with now | before
      · cases now
        rcases promise with now | later
        · exact Or.inl (Table.apply_defines s.toTable now)
        · exact Or.inr ⟨_, List.mem_cons_self, later _⟩
      · exact Or.inr ⟨p, List.mem_cons_of_mem _ before, promise⟩
  | @offered i name names frames here lazy =>
    apply KeepsPromises.addLoad
    intro f member n defines
    have effect := @Table.addLazyObject_effect _ _ inp.toNames s.toTable i lazy name
    rcases keeps f member n defines with defined | promised
    · exact Or.inl (effect.keeps defined)
    · rw [here] at promised
      have below := promised.below fun p scan => by cases scan
      exact Or.inr (below.mono (List.subset_cons_self _ _))
  | @popped didWork f taskQueue here inside next =>
    exact KeepsPromises.addFile (s := { s with taskQueue }) keeps f
  | again here inside waits more => exact kept here
  | returned here waits more => exact kept here
  | began here more => exact kept here
  | ran here outside => exact kept here

private theorem step_keeps {n : Name} (defined : s.IsDefined n) (stepped : s.step inp = some s') :
    s'.IsDefined n := by
  cases move_of_step stepped with
  | control part => exact defined
  | called effect own part => exact effect.keeps defined
  | scanned next lazily => exact defined
  | read next awake => exact defined

/-- What is defined stays defined, whatever is read afterwards. -/
theorem defined_stays (reaches : Reaches inp s s') {n : Name} (defined : s.IsDefined n) :
    s'.IsDefined n :=
  reaches_invariant (fun _ _ kept stepped => step_keeps kept stepped) reaches defined

/-- The member's definition of `f`, while the member is being read and in the end. -/
theorem oneMember_stays : oneMemberLoaded.IsDefined 'f' :=
  defined_stays (reaches_run oneMember 2 (run oneMember 13 oneMemberStart))
    ⟨⟨.definedRegular (.member 1 8) 0 false false, true, false⟩, by decide, rfl⟩

private theorem reaches_keepsPromises {phases : List (Phase Name)}
    (reaches : Reaches inp (start lazy phases) s) : KeepsPromises inp s := by
  refine reaches_invariant (fun _ _ keeps stepped => step_keepsPromises keeps stepped) reaches ?_
  intro f member
  cases member

/-- When the queue has been worked off, a name that is referred to and that files offer is defined,
if these files define what they offer. -/
theorem offered_resolves {phases : List (Phase Name)}
    (reaches : Reaches inp (start lazy phases) s) (idle : s.Idle) {n : Name} {f : File Name}
    (referred : .reference n ∈ s.history) (firm : .weakened n ∉ s.history)
    (offered : .offer n f ∈ s.history)
    (holds : ∀ g, .offer n g ∈ s.history → (inp.parse g).Defines n) : s.IsDefined n := by
  rcases references_load reaches idle referred firm offered with defined | ⟨g, read, offers⟩
  · exact defined
  · rcases reaches_keepsPromises reaches g read n (holds g offers) with defined | ⟨p, running, _⟩
    · exact defined
    · rw [idle.1] at running
      cases running

theorem oneMember_resolves : oneMemberLoaded.IsDefined 'f' := by
  have reaches : Reaches oneMember oneMemberStart oneMemberLoaded := reaches_run _ _ _
  have history : oneMemberLoaded.history = [.reference 'f', .offer 'f' (.member 1 8)] := by decide
  refine offered_resolves reaches ⟨rfl, rfl⟩ (f := .member 1 8) (by decide) (by decide)
    (by decide) fun g offers => ?_
  rw [history, List.mem_cons, List.mem_singleton] at offers
  rcases offers with none | offers
  · cases none
  · cases offers
    exact Or.inl rfl

end Loader

end LlvmLd.Symtab
