import LlvmLd.Symtab.Moves

/-!
# What is known about a symbol

`Known` relates one symbol to what was asked for under its name and to the files that were read. A
call changes one symbol at most, so the others only have to survive that more files are read and
that more is asked for.
-/

namespace LlvmLd.Symtab

variable {Name : Type}

def Event.name : Event Name → Name
  | .reference n => n
  | .weakened n => n
  | .offer n _ => n

/-- What is known about the symbol of a name, from what was asked for and what was read. -/
structure Known (lazy : Nat → Bool) (seen parsed : List (File Name)) (history : List (Event Name))
    (n : Name) (s : Symbol Name) : Prop where
  -- a lazy symbol stands for a file that has offered the name
  source : ∀ f, s.body.target = some f → .offer n f ∈ history
  -- the flag is set when a file is asked for, which then waits or has been read
  pending : s.pendingArchiveLoad = true → ∃ f, .offer n f ∈ history ∧ (f ∈ parsed ∨ f ∈ seen)
  -- a reference to a lazy symbol asks for its file
  asked : .reference n ∈ history → s.isLazy = true → s.pendingArchiveLoad = true
  -- a reference without a fallback takes the first offer
  waiting : s.isUndefined = true → s.pendingArchiveLoad = false → .weakened n ∉ history →
    ∀ f, .offer n f ∉ history
  fallback : ∀ current antiDep, s.body = .undefined (some current) antiDep → .weakened n ∈ history
  -- nothing is undefined that was not asked for
  wanted : s.isUndefined = true → .reference n ∈ history ∨ .weakened n ∈ history
  -- a lazy object that is not lazy any more has been begun
  awake : ∀ i, s.body = .lazyObject i → lazy i = true ∨ .input i ∈ parsed

/-- The symbols, and the files that were asked for: each is in the queue or has been read. -/
structure Tracks (t : Table Name) (parsed : List (File Name)) (history : List (Event Name)) :
    Prop where
  known : ∀ n s, t.symMap n = some s → Known t.lazy t.seen parsed history n s
  -- nobody has offered or referred to a name that is not in the table
  fresh : ∀ n, t.symMap n = none → .reference n ∉ history ∧ ∀ f, .offer n f ∉ history
  taken : ∀ f ∈ t.seen, f.isInput = false ∧ (f ∈ parsed ∨ f ∈ t.taskQueue)

private theorem Body.eq_lazyObject {body : Body Name} {i : Nat}
    (target : body.target = some (.input i)) :
    body = .lazyObject i := by
  rw [Body.target.eq_def] at target
  split at target
  · cases target
  · cases target
    rfl
  · cases target
  · cases target

/-! ### Symbols that stay -/

namespace Known

variable {lazy lazy' : Nat → Bool} {seen seen' parsed parsed' : List (File Name)}
  {history : List (Event Name)} {n : Name} {s s' : Symbol Name}

/-- What is known about a symbol survives when more files are read and nothing is asked under its
name. -/
theorem grow {history' : List (Event Name)} (known : Known lazy seen parsed history n s)
    (same : ∀ e : Event Name, e.name = n → (e ∈ history' ↔ e ∈ history))
    (seenMore : seen ⊆ seen') (parsedMore : parsed ⊆ parsed')
    (woken : ∀ i, lazy i = true → lazy' i = true ∨ .input i ∈ parsed') :
    Known lazy' seen' parsed' history' n s := by
  constructor
  · intro f target
    exact (same (.offer n f) rfl).mpr (known.source f target)
  · intro pending
    obtain ⟨f, offered, requested⟩ := known.pending pending
    exact ⟨f, (same (.offer n f) rfl).mpr offered,
      requested.imp (fun member => parsedMore member) (fun member => seenMore member)⟩
  · intro referred
    exact known.asked ((same (.reference n) rfl).mp referred)
  · intro undefined waiting firm f offered
    exact known.waiting undefined waiting
      (fun weakened => firm ((same (.weakened n) rfl).mpr weakened)) f
      ((same (.offer n f) rfl).mp offered)
  · intro current antiDep body
    exact (same (.weakened n) rfl).mpr (known.fallback current antiDep body)
  · intro undefined
    exact (known.wanted undefined).imp (same (.reference n) rfl).mpr (same (.weakened n) rfl).mpr
  · intro i body
    rcases known.awake i body with lazily | read
    · exact woken i lazily
    · exact Or.inr (parsedMore read)

theorem congr (known : Known lazy seen parsed history n s) (body : s'.body = s.body)
    (pending : s'.pendingArchiveLoad = s.pendingArchiveLoad) :
    Known lazy seen parsed history n s' := by
  have isLazy : s'.isLazy = s.isLazy := Table.isLazy_congr body
  have isUndefined : s'.isUndefined = s.isUndefined := by
    rw [Symbol.isUndefined, Symbol.isUndefined, body]
  constructor
  · rw [body]
    exact known.source
  · rw [pending]
    exact known.pending
  · rw [isLazy, pending]
    exact known.asked
  · rw [isUndefined, pending]
    exact known.waiting
  · rw [body]
    exact known.fallback
  · rw [isUndefined]
    exact known.wanted
  · rw [body]
    exact known.awake

/-- A definition asks for nothing any more. -/
theorem of_defined (isDefined : s.isDefined = true) (pending : s.pendingArchiveLoad = false) :
    Known lazy seen parsed history n s := by
  rw [Symbol.isDefined, Bool.and_eq_true, Bool.not_eq_true', Bool.not_eq_true'] at isDefined
  -- each clause speaks of a lazy or an undefined symbol, or of a load that is pending
  obtain ⟨notLazy, notUndefined⟩ := isDefined
  constructor
  · intro f target
    rw [Symbol.isLazy_of_target target] at notLazy
    cases notLazy
  · intro waits
    rw [pending] at waits
    cases waits
  · intro _ isLazy
    rw [isLazy] at notLazy
    cases notLazy
  · intro undefined
    rw [undefined] at notUndefined
    cases notUndefined
  · intro current antiDep body
    rw [Symbol.isUndefined, body] at notUndefined
    cases notUndefined
  · intro undefined
    rw [undefined] at notUndefined
    cases notUndefined
  · intro i body
    rw [Symbol.isLazy, body] at notLazy
    cases notLazy

/-- One more event that the symbol is ready for. -/
theorem event (known : Known lazy seen parsed history n s) {e : Event Name}
    (asked : e = .reference n → s.isLazy = true → s.pendingArchiveLoad = true)
    (waiting : ∀ f, e = .offer n f → s.isUndefined = true → s.pendingArchiveLoad = false →
      .weakened n ∈ history) : Known lazy seen parsed (history ++ [e]) n s := by
  have old : ∀ e', e' ∈ history → e' ∈ history ++ [e] :=
    fun e' member => List.mem_append_left _ member
  constructor
  · intro f target
    exact old _ (known.source f target)
  · intro pending
    obtain ⟨f, offered, requested⟩ := known.pending pending
    exact ⟨f, old _ offered, requested⟩
  · intro referred
    -- an event that has been there already, or the new one
    rcases List.mem_append.mp referred with before | now
    · exact known.asked before
    · exact asked (List.mem_singleton.mp now).symm
  · intro undefined pending firm f offered
    have firmly : .weakened n ∉ history := fun weakened => firm (old _ weakened)
    rcases List.mem_append.mp offered with before | now
    · exact known.waiting undefined pending firmly f before
    · exact firmly (waiting f (List.mem_singleton.mp now).symm undefined pending)
  · intro current antiDep body
    exact old _ (known.fallback current antiDep body)
  · intro undefined
    exact (known.wanted undefined).imp (old _) (old _)
  · exact known.awake

/-- A symbol that does not want a file has been given one, or has a fallback. -/
theorem offered {cfg : Names Name} (known : Known lazy seen parsed history n s)
    (passed : Table.wantsLazy cfg s = false) (undefined : s.isUndefined = true)
    (pending : s.pendingArchiveLoad = false) : .weakened n ∈ history := by
  rw [Symbol.isUndefined] at undefined
  rw [Table.wantsLazy, pending] at passed
  split at undefined
  · rename_i weakAlias antiDep body
    rw [body] at passed
    cases weakAlias with
    | none => simp at passed
    | some current => exact known.fallback current antiDep body
  · cases undefined

/-- A file has been asked for under the name. -/
theorem demanded {history' : List (Event Name)} {f : File Name}
    (known : Known lazy seen parsed history n s) (body : s'.body = s.body)
    (pending : s'.pendingArchiveLoad = true) (offered : .offer n f ∈ history')
    (requested : f ∈ parsed' ∨ f ∈ seen') (more : history ⊆ history')
    (parsedMore : parsed ⊆ parsed')
    (woken : ∀ i, lazy i = true → lazy' i = true ∨ .input i ∈ parsed') :
    Known lazy' seen' parsed' history' n s' := by
  constructor
  · intro g target
    rw [body] at target
    exact more (known.source g target)
  · exact fun _ => ⟨f, offered, requested⟩
  · exact fun _ _ => pending
  · intro _ notPending
    rw [pending] at notPending
    cases notPending
  · intro current antiDep new
    rw [body] at new
    exact more (known.fallback current antiDep new)
  · intro undefined
    have old : s.isUndefined = true := by
      rw [Symbol.isUndefined, ← body]
      exact undefined
    exact (known.wanted old).imp (fun member => more member) (fun member => more member)
  · intro i new
    rw [body] at new
    rcases known.awake i new with lazily | read
    · exact woken i lazily
    · exact Or.inr (parsedMore read)

/-- A symbol that is new: nothing has been asked under its name before. -/
theorem of_created {events : List (Event Name)}
    (fresh : .reference n ∉ history ∧ ∀ f, .offer n f ∉ history)
    (pending : s.pendingArchiveLoad = false)
    (kind : (s.body = .undefined none false ∧ (events = [.reference n] ∨ events = [.weakened n])) ∨
      ∃ f, s.body.target = some f ∧ events = [.offer n f] ∧ ∀ i, f = .input i → lazy i = true) :
    Known lazy seen parsed (history ++ events) n s := by
  obtain ⟨noReference, noOffer⟩ := fresh
  have notPending : s.pendingArchiveLoad ≠ true := by
    rw [pending]
    exact Bool.false_ne_true
  rcases kind with ⟨body, asked⟩ | ⟨f, target, rfl, awake⟩
  -- It was referred to, so it is undefined and has no file to load.
  · have noFile : s.body.target = none := by rw [body]; rfl
    have notLazy : s.isLazy ≠ true := by
      rw [Symbol.isLazy, body]
      exact Bool.false_ne_true
    constructor
    · intro f target
      rw [noFile] at target
      cases target
    · exact fun waits => absurd waits notPending
    · exact fun _ isLazy => absurd isLazy notLazy
    · intro _ _ _ f offered
      rcases List.mem_append.mp offered with before | now
      · exact noOffer f before
      · rcases asked with rfl | rfl
        · cases List.mem_singleton.mp now
        · cases List.mem_singleton.mp now
    · intro current antiDep new
      rw [body] at new
      cases new
    · intro _
      rcases asked with rfl | rfl
      · exact Or.inl (List.mem_append_right _ List.mem_cons_self)
      · exact Or.inr (List.mem_append_right _ List.mem_cons_self)
    · intro i new
      rw [body] at new
      cases new
  -- It was offered by a file, and is lazy with that file.
  · have isLazy := Symbol.isLazy_of_target target
    have defined : s.isUndefined ≠ true := by
      rw [Symbol.not_isUndefined_of_isLazy isLazy]
      exact Bool.false_ne_true
    constructor
    · intro g here
      rw [target] at here
      cases here
      exact List.mem_append_right _ List.mem_cons_self
    · exact fun waits => absurd waits notPending
    · intro referred
      rcases List.mem_append.mp referred with before | now
      · exact absurd before noReference
      · cases List.mem_singleton.mp now
    · exact fun undefined => absurd undefined defined
    · intro current antiDep body
      rw [Symbol.isUndefined, body] at defined
      exact absurd rfl defined
    · exact fun undefined => absurd undefined defined
    · intro i body
      rw [body] at target
      cases target
      exact Or.inl (awake i rfl)

/-- With a fallback, or a reference that asks for nothing, the name need not be defined. -/
theorem of_weakened (new : s.isUndefined = true) (weakened : .weakened n ∈ history)
    (pending : s.pendingArchiveLoad = true → ∃ f, .offer n f ∈ history ∧ (f ∈ parsed ∨ f ∈ seen)) :
    Known lazy seen parsed history n s := by
  -- the symbol is undefined, so the clauses about lazy ones say nothing
  have notLazy : s.isLazy ≠ true := by
    intro lazily
    rw [Symbol.not_isUndefined_of_isLazy lazily] at new
    cases new
  constructor
  · exact fun f target => absurd (Symbol.isLazy_of_target target) notLazy
  · exact pending
  · exact fun _ isLazy => absurd isLazy notLazy
  · exact fun _ _ firm => absurd weakened firm
  · exact fun _ _ _ => weakened
  · exact fun _ => Or.inr weakened
  · intro i body
    rw [Symbol.isLazy, body] at notLazy
    exact absurd rfl notLazy

end Known

/-! ### One call -/

variable [DecidableEq Name]

omit [DecidableEq Name] in
/-- A file that is asked for has been asked for, or is read at once. -/
theorem Demand.requested {t t' : Table Name} {f : File Name} {load : Option (File Name)}
    {parsed : List (File Name)} (demand : Demand t f t' load)
    (awake : ∀ i, f = .input i → t.lazy i = true ∨ .input i ∈ parsed) :
    f ∈ parsed ++ load.toList ∨ f ∈ t'.seen := by
  cases demand with
  | taken old => exact Or.inr old
  | queued fresh lib => exact Or.inr List.mem_cons_self
  | made fresh lib => exact Or.inr List.mem_cons_self
  | woken lazy => exact Or.inl (List.mem_append_right _ List.mem_cons_self)
  | awake notLazy =>
    rcases awake _ rfl with lazy | read
    · rw [notLazy] at lazy
      cases lazy
    · exact Or.inl (List.mem_append_left _ read)

omit [DecidableEq Name] in
theorem Demand.symMap {t t' : Table Name} {f : File Name} {load : Option (File Name)}
    (demand : Demand t f t' load) : t'.symMap = t.symMap := by
  cases demand <;> rfl

omit [DecidableEq Name] in
theorem Demand.seen {t t' : Table Name} {f : File Name} {load : Option (File Name)}
    (demand : Demand t f t' load) : t.seen ⊆ t'.seen := by
  cases demand with
  | queued fresh lib => exact List.subset_cons_self _ _
  | made fresh lib => exact List.subset_cons_self _ _
  | _ => exact List.Subset.refl _

omit [DecidableEq Name] in
theorem Demand.lazy {t t' : Table Name} {f : File Name} {load : Option (File Name)}
    (demand : Demand t f t' load) (parsed : List (File Name)) :
    ∀ i, t.lazy i = true → t'.lazy i = true ∨ .input i ∈ parsed ++ load.toList := by
  intro i lazily
  cases demand with
  | @woken j _ =>
    by_cases same : i = j
    · rw [same]
      exact Or.inr (List.mem_append_right _ List.mem_cons_self)
    · refine Or.inl ?_
      exact (Function.update_of_ne same _ _).trans lazily
  | _ => exact Or.inl lazily

omit [DecidableEq Name] in
theorem Demand.places {t t' : Table Name} {f : File Name} {load : Option (File Name)}
    {parsed : List (File Name)} (demand : Demand t f t' load)
    (taken : ∀ g ∈ t.seen, g.isInput = false ∧ (g ∈ parsed ∨ g ∈ t.taskQueue)) :
    ∀ g ∈ t'.seen, g.isInput = false ∧ (g ∈ parsed ++ load.toList ∨ g ∈ t'.taskQueue) := by
  have old : ∀ g ∈ t.seen, g.isInput = false ∧ (g ∈ parsed ++ load.toList ∨ g ∈ t.taskQueue) := by
    intro g member
    obtain ⟨lib, place⟩ := taken g member
    exact ⟨lib, place.imp_left (List.mem_append_left _)⟩
  intro g member
  cases demand with
  | queued fresh lib =>
    rcases List.mem_cons.mp member with rfl | before
    · exact ⟨lib, Or.inr (List.mem_append_right _ List.mem_cons_self)⟩
    · obtain ⟨lib', place⟩ := old g before
      exact ⟨lib', place.imp_right (List.mem_append_left _)⟩
  -- an import file is made and parsed at once, a member waits in the queue
  | made fresh lib =>
    rcases List.mem_cons.mp member with rfl | before
    · exact ⟨lib, Or.inl (List.mem_append_right _ List.mem_cons_self)⟩
    · exact old g before
  | _ => exact old g member

omit [DecidableEq Name] in
private theorem mem_append_other {history events : List (Event Name)} {n m : Name}
    (about : ∀ e ∈ events, e.name = n) (other : m ≠ n) (e : Event Name) (of : e.name = m) :
    e ∈ history ++ events ↔ e ∈ history := by
  rw [List.mem_append, or_iff_left_iff_imp]
  intro member
  rw [about e member] at of
  exact absurd of.symm other

omit [DecidableEq Name] in
private theorem about_singleton {e : Event Name} {n : Name} (about : e.name = n) :
    ∀ e' ∈ [e], e'.name = n := by
  intro e' member
  rw [List.mem_singleton.mp member]
  exact about

/-- A change of one symbol. -/
theorem Tracks.change {t t' : Table Name} {parsed parsed' : List (File Name)}
    {history events : List (Event Name)} (tracks : Tracks t parsed history) {n : Name}
    {s : Symbol Name} (symMap : t'.symMap = Function.update t.symMap n (some s))
    (about : ∀ e ∈ events, e.name = n) (seenMore : t.seen ⊆ t'.seen)
    (parsedMore : parsed ⊆ parsed')
    (woken : ∀ i, t.lazy i = true → t'.lazy i = true ∨ .input i ∈ parsed')
    (here : Known t'.lazy t'.seen parsed' (history ++ events) n s)
    (taken : ∀ f ∈ t'.seen, f.isInput = false ∧ (f ∈ parsed' ∨ f ∈ t'.taskQueue)) :
    Tracks t' parsed' (history ++ events) := by
  refine ⟨?_, ?_, taken⟩
  · intro m s' there
    rw [symMap] at there
    -- the symbol of this name is given, every other one is as it was
    by_cases same : m = n
    · subst same
      rw [Function.update_self] at there
      cases there
      exact here
    · rw [Function.update_of_ne same] at there
      exact (tracks.known m s' there).grow (mem_append_other about same) seenMore parsedMore woken
  · intro m none
    rw [symMap] at none
    by_cases same : m = n
    · subst same
      rw [Function.update_self] at none
      cases none
    · rw [Function.update_of_ne same] at none
      obtain ⟨noReference, noOffer⟩ := tracks.fresh m none
      have other : ∀ e : Event Name, e.name = m → (e ∈ history ++ events ↔ e ∈ history) :=
        mem_append_other about same
      exact ⟨fun referred => noReference ((other (.reference m) rfl).mp referred),
        fun f offered => noOffer f ((other (.offer m f) rfl).mp offered)⟩

variable {cfg : Names Name}

theorem Tracks.effect {t t' : Table Name} {load : Option (File Name)} {parsed : List (File Name)}
    {history events : List (Event Name)} (tracks : Tracks t parsed history)
    (effect : Effect cfg t t' load events) :
    Tracks t' (parsed ++ load.toList) (history ++ events) := by
  have read : parsed ⊆ parsed ++ load.toList := List.subset_append_left _ _
  have places : ∀ f ∈ t.seen,
      f.isInput = false ∧ (f ∈ parsed ++ load.toList ∨ f ∈ t.taskQueue) := by
    intro f member
    obtain ⟨lib, place⟩ := tracks.taken f member
    exact ⟨lib, place.imp_left (List.mem_append_left _)⟩
  cases effect with
  | none =>
    rw [Option.toList_none, List.append_nil, List.append_nil]
    exact tracks
  -- the table stays, and there is one more weak reference
  | passed n =>
    rw [Option.toList_none, List.append_nil]
    refine ⟨?_, ?_, tracks.taken⟩
    · intro m s there
      exact (tracks.known m s there).event (fun same => by cases same) (fun f same => by cases same)
    · intro m none
      obtain ⟨noReference, noOffer⟩ := tracks.fresh m none
      constructor
      · intro referred
        rcases List.mem_append.mp referred with before | now
        · exact noReference before
        · cases List.mem_singleton.mp now
      · intro f offered
        rcases List.mem_append.mp offered with before | now
        · exact noOffer f before
        · cases List.mem_singleton.mp now
  | enqueued fresh =>
    rw [Option.toList_none, List.append_nil, List.append_nil]
    refine ⟨tracks.known, tracks.fresh, ?_⟩
    intro f member
    obtain ⟨lib, place⟩ := tracks.taken f member
    exact ⟨lib, place.imp_right (List.mem_append_left _)⟩
  | defined n s duplicates isDefined pending =>
    exact tracks.change rfl (fun e none => by cases none) (List.Subset.refl _) read
      (fun i lazily => Or.inl lazily) (.of_defined isDefined pending) places
  | @kept n s s' events duplicates there body pending asked =>
    rw [Option.toList_none, List.append_nil] at read places ⊢
    have known := tracks.known n s there
    have about : ∀ e ∈ events, e.name = n := by
      rcases asked with rfl | rfl | ⟨rfl, -⟩ | ⟨f, rfl, -⟩
      · exact fun e none => by cases none
      · exact about_singleton rfl
      · exact about_singleton rfl
      · exact about_singleton rfl
    refine tracks.change rfl about (List.Subset.refl _) read (fun i lazily => Or.inl lazily) ?_
      places
    apply Known.congr _ body pending
    rcases asked with rfl | rfl | ⟨rfl, notLazy⟩ | ⟨f, rfl, passed⟩
    · rw [List.append_nil]
      exact known
    · exact known.event (fun same => by cases same) (fun f same => by cases same)
    · refine known.event (fun _ isLazy => ?_) (fun f same => by cases same)
      rw [isLazy] at notLazy
      cases notLazy
    · exact known.event (fun same => by cases same)
        (fun _ _ undefined waiting => known.offered passed undefined waiting)
  | @created n s events fresh pending kind =>
    have about : ∀ e ∈ events, e.name = n := by
      rcases kind with ⟨-, rfl | rfl⟩ | ⟨f, -, rfl, -⟩
      · exact about_singleton rfl
      · exact about_singleton rfl
      · exact about_singleton rfl
    exact tracks.change rfl about (List.Subset.refl _) read (fun i lazily => Or.inl lazily)
      (.of_created (tracks.fresh n fresh) pending kind) places
  | @overridden n s s' there lazy body pending =>
    rw [Option.toList_none, List.append_nil] at read places ⊢
    have undefined : s'.isUndefined = true := by
      rw [Symbol.isUndefined, body]
    refine tracks.change rfl (about_singleton rfl) (List.Subset.refl _) read
      (fun i lazily => Or.inl lazily)
      (.of_weakened undefined (List.mem_append_right _ List.mem_cons_self) (fun waits => ?_)) places
    rw [pending] at waits
    cases waits
  | @aliased n s s' duplicates there old new pending =>
    rw [Option.toList_none, List.append_nil] at read places ⊢
    refine tracks.change rfl (about_singleton rfl) (List.Subset.refl _) read
      (fun i lazily => Or.inl lazily)
      (.of_weakened new (List.mem_append_right _ List.mem_cons_self) (fun waits => ?_)) places
    rw [pending] at waits
    obtain ⟨f, offered, requested⟩ := (tracks.known n s there).pending waits
    exact ⟨f, List.mem_append_left _ offered, requested⟩
  | @demanded n s s' f t' load events there body pending why demand =>
    have known := tracks.known n s there
    have about : ∀ e ∈ events, e.name = n := by
      rcases why with ⟨-, rfl⟩ | ⟨-, rfl, -⟩
      · exact about_singleton rfl
      · exact about_singleton rfl
    -- so that `Demand.awake`, which loads nothing, has nothing left to load
    have awake : ∀ i, f = .input i → t.lazy i = true ∨ .input i ∈ parsed := by
      rintro i rfl
      rcases why with ⟨target, -⟩ | ⟨-, -, lazily⟩
      · exact known.awake i (Body.eq_lazyObject target)
      · exact Or.inl (lazily i rfl)
    have offered : .offer n f ∈ history ++ events := by
      rcases why with ⟨target, -⟩ | ⟨-, rfl, -⟩
      · exact List.mem_append_left _ (known.source f target)
      · exact List.mem_append_right _ List.mem_cons_self
    exact tracks.change demand.symMap about demand.seen read (demand.lazy parsed)
      (known.demanded body pending offered (demand.requested awake) (List.subset_append_left _ _)
        read (demand.lazy parsed))
      (demand.places tracks.taken)

end LlvmLd.Symtab
