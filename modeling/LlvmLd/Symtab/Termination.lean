import LlvmLd.Symtab.Closure
import Mathlib.Data.Finset.Card
import Mathlib.Data.Finset.Dedup
import Mathlib.Order.WellFounded

/-!
# Reading ends

## Main results

- `loading_ends`: when the files that are named are finitely many, the driver's loops converge and it
  comes to an end.

Proof strategy: a step reads a file, takes one from the queue, ends a part of the driver, goes on in
the loop that it is in, or in the program on top of the stack. What is counted in this order goes
down: `run` returns that there was work only when a file has been taken from the queue.
-/

namespace LlvmLd.Symtab

variable {Name : Type}

/-! ### The files that are named -/

/-- Every file that a call names is one of these. -/
def Call.Within (files : Finset (File Name)) : Call Name → Prop
  | .addLazyArchive f childOffset _ => .member f childOffset ∈ files
  | .addLazyDLLSymbol f symbolName _ => .imported f symbolName ∈ files
  | .enqueue i => .input i ∈ files
  | _ => True

def Program.Within (files : Finset (File Name)) : Program Name → Prop
  | .done => True
  | .call c k => c.Within files ∧ ∀ a, (k a).Within files

def Phase.Within (files : Finset (File Name)) : Phase Name → Prop
  | .calls body => ∀ t parsed, (body t parsed).Within files
  | .run => True
  | .whileRun body => ∀ t parsed, (body t parsed).Within files

def Frame.Within (files : Finset (File Name)) : Frame Name → Prop
  | .running p => p.Within files
  | .scanning i _ => .input i ∈ files

/-- The run meets no other files. -/
structure Bounded (files : Finset (File Name)) (s : Loader Name) : Prop where
  queue : ∀ f ∈ s.taskQueue, f ∈ files
  parsed : ∀ f ∈ s.parsed, f ∈ files
  frames : ∀ frame ∈ s.frames, frame.Within files
  phases : ∀ p ∈ s.phases, p.Within files
  offers : ∀ n f, .offer n f ∈ s.history → f ∈ files

variable {files : Finset (File Name)}

theorem Demand.bounded {t t' : Table Name} {f : File Name} {load : Option (File Name)}
    (demand : Demand t f t' load) (member : f ∈ files) (queue : ∀ g ∈ t.taskQueue, g ∈ files) :
    (∀ g ∈ t'.taskQueue, g ∈ files) ∧ ∀ g, load = some g → g ∈ files := by
  cases demand with
  | taken old => exact ⟨queue, fun g none => by cases none⟩
  | awake notLazy => exact ⟨queue, fun g none => by cases none⟩
  | made fresh lib => exact ⟨queue, fun g same => by cases same; exact member⟩
  | woken lazy => exact ⟨queue, fun g same => by cases same; exact member⟩
  | queued fresh lib =>
    refine ⟨fun g waits => ?_, fun g none => by cases none⟩
    rcases List.mem_append.mp waits with before | now
    · exact queue g before
    · rw [List.mem_singleton.mp now]
      exact member

variable [DecidableEq Name] {cfg : Names Name}

theorem Effect.bounded {t t' : Table Name} {load : Option (File Name)} {parsed : List (File Name)}
    {history events : List (Event Name)} (effect : Effect cfg t t' load events)
    (tracks : Tracks t parsed history) (queue : ∀ g ∈ t.taskQueue, g ∈ files)
    (offers : ∀ n f, .offer n f ∈ history ++ events → f ∈ files)
    (named : ∀ i ∈ t'.visitedFiles, i ∉ t.visitedFiles → .input i ∈ files) :
    (∀ g ∈ t'.taskQueue, g ∈ files) ∧ ∀ g, load = some g → g ∈ files := by
  cases effect with
  | @enqueued i fresh =>
    refine ⟨fun g waits => ?_, fun g none => by cases none⟩
    rcases List.mem_append.mp waits with before | now
    · exact queue g before
    · rw [List.mem_singleton.mp now]
      exact named i List.mem_cons_self fresh
  | @demanded n s s' f t' load events there body pending why demand =>
    refine demand.bounded ?_ queue
    -- the file has been offered before, or is offered by this very call
    rcases why with ⟨target, -⟩ | ⟨-, rfl, -⟩
    · exact offers n f (List.mem_append_left _ ((tracks.known n s there).source f target))
    · exact offers n f (List.mem_append_right _ List.mem_cons_self)
  | _ => exact ⟨queue, fun g none => by cases none⟩

namespace Table

private theorem forceLazy_visitedFiles (t : Table Name) (name : Name) (s : Symbol Name) :
    (t.forceLazy name s).1.visitedFiles = t.visitedFiles := by
  unfold forceLazy addMember makeImport
  dsimp only
  repeat' split
  all_goals rfl

/-- Only the driver names inputs. -/
theorem apply_visitedFiles (t : Table Name) (c : Call Name) (other : ∀ i, c ≠ .enqueue i) :
    (t.apply cfg c).1.visitedFiles = t.visitedFiles := by
  cases c with
  | enqueue i => exact absurd rfl (other i)
  | addUndefined name f overrideLazy =>
    unfold apply addUndefined
    dsimp only
    repeat' split
    · rfl
    · exact forceLazy_visitedFiles _ _ _
    · rfl
  | _ =>
    simp only [apply, addLazyArchive, addLazyDLLSymbol, addAbsolute, addSynthetic, addRegular,
      addComdat, replaceLeader, addCommon, addImportData, addImportThunk, addImport,
      checkAndSetWeakAlias, addMember, makeImport, reportDuplicate]
    repeat' split
    all_goals rfl

private theorem addLazyObject_visitedFiles (t : Table Name) (i : Nat) (name : Name) :
    (t.addLazyObject cfg i name).1.visitedFiles = t.visitedFiles := by
  unfold addLazyObject
  dsimp only
  repeat' split
  all_goals rfl

private theorem apply_named (t : Table Name) {c : Call Name} (within : c.Within files) :
    ∀ i ∈ (t.apply cfg c).1.visitedFiles, i ∉ t.visitedFiles → .input i ∈ files := by
  intro i now before
  by_cases other : ∀ j, c ≠ .enqueue j
  · rw [apply_visitedFiles t c other] at now
    exact absurd now before
  · obtain ⟨j, same⟩ := not_forall.mp other
    rw [not_not] at same
    subst same
    unfold apply enqueue at now
    dsimp only at now
    split at now
    · exact absurd now before
    · rcases List.mem_cons.mp now with rfl | old
      · exact within
      · exact absurd old before

omit [DecidableEq Name] in
private theorem events_within {t : Table Name} {c : Call Name} (within : c.Within files) (n : Name)
    (f : File Name) (offered : .offer n f ∈ t.events cfg c) : f ∈ files := by
  cases c with
  | addLazyArchive archive childOffset name =>
    rw [events] at offered
    split at offered
    · cases offered
    · rw [List.mem_singleton] at offered
      cases offered
      exact within
  | addLazyDLLSymbol dll symbolName name =>
    rw [events, List.mem_singleton] at offered
    cases offered
    exact within
  | addUndefined name file overrideLazy =>
    rw [events] at offered
    split at offered
    · simp at offered
    · simp at offered
  | setWeakAlias file source target isAntiDep => simp [events] at offered
  | _ => cases offered

end Table

namespace Loader

variable {inp : Inputs Name} {lazy : Nat → Bool} {s s' : Loader Name}

omit [DecidableEq Name] in
private theorem bounded_addFile (within : ∀ f ∈ files, (inp.parse f).Within files)
    (bounded : Bounded files s) {f : File Name} (member : f ∈ files) :
    Bounded files (s.addFile inp f) := by
  have read : Bounded files
      { s with frames := .running (inp.parse f) :: s.frames, parsed := s.parsed ++ [f] } := by
    refine ⟨bounded.queue, ?_, ?_, bounded.phases, bounded.offers⟩
    · intro g member'
      rcases List.mem_append.mp member' with before | now
      · exact bounded.parsed g before
      · rw [List.mem_singleton.mp now]
        exact member
    · exact List.forall_mem_cons.mpr ⟨within f member, bounded.frames⟩
  -- an input may be scanned first, every other file is read at once
  cases f with
  | input i =>
    rw [addFile]
    split
    · exact ⟨bounded.queue, bounded.parsed, List.forall_mem_cons.mpr ⟨member, bounded.frames⟩,
        bounded.phases, bounded.offers⟩
    · exact read
  | member archive childOffset => exact read
  | imported dll symbolName => exact read

omit [DecidableEq Name] in
private theorem bounded_addLoad (within : ∀ f ∈ files, (inp.parse f).Within files)
    (bounded : Bounded files s) {load : Option (File Name)}
    (member : ∀ f, load = some f → f ∈ files) : Bounded files (s.addLoad inp load) := by
  cases load with
  | none => exact bounded
  | some f => exact bounded_addFile within bounded (member f rfl)

private theorem step_bounded (within : ∀ f ∈ files, (inp.parse f).Within files)
    (sound : Sound lazy s) (bounded : Bounded files s) (stepped : s.step inp = some s') :
    Bounded files s' := by
  have below := bounded.frames
  have driver := bounded.phases
  cases branch_of_step stepped with
  | left here ended =>
    rw [here] at below
    exact { bounded with frames := (List.forall_mem_cons.mp below).2 }
  -- a call: the files that it asks for are in the history
  | @called c k frames here =>
    rw [here] at below
    obtain ⟨⟨call, rest⟩, below⟩ := List.forall_mem_cons.mp below
    have effect := @Table.apply_effect _ _ inp.toNames s.toTable c
    have offers : ∀ n f, .offer n f ∈ s.history ++ s.toTable.events inp.toNames c → f ∈ files := by
      intro n f offered
      rcases List.mem_append.mp offered with before | now
      · exact bounded.offers n f before
      · exact Table.events_within call n f now
    obtain ⟨queue, load⟩ := effect.bounded sound.tracks bounded.queue offers
      (Table.apply_named s.toTable call)
    apply bounded_addLoad within _ load
    exact ⟨queue, bounded.parsed, List.forall_mem_cons.mpr ⟨rest _, below⟩, bounded.phases, offers⟩
  -- a scanned object offers itself
  | @offered i name names frames here awake =>
    rw [here] at below
    obtain ⟨own, below⟩ := List.forall_mem_cons.mp below
    have effect := @Table.addLazyObject_effect _ _ inp.toNames s.toTable i awake name
    have offers : ∀ n f, .offer n f ∈ s.history ++ s.toTable.scanEvents inp.toNames i name →
        f ∈ files := by
      intro n f offered
      rcases List.mem_append.mp offered with before | now
      · exact bounded.offers n f before
      · rw [scanEvents_offer now]
        exact own
    have named : ∀ j ∈ (s.toTable.addLazyObject inp.toNames i name).1.visitedFiles,
        j ∉ s.visitedFiles → .input j ∈ files := by
      intro j now before
      rw [Table.addLazyObject_visitedFiles] at now
      exact absurd now before
    obtain ⟨queue, load⟩ := effect.bounded sound.tracks bounded.queue offers named
    apply bounded_addLoad within _ load
    exact ⟨queue, bounded.parsed, List.forall_mem_cons.mpr ⟨own, below⟩, bounded.phases, offers⟩
  -- the next file, or the driver goes on
  | @popped didWork f taskQueue here inside next =>
    have queue := bounded.queue
    rw [next] at queue
    obtain ⟨member, queue⟩ := List.forall_mem_cons.mp queue
    exact bounded_addFile within (s := { s with taskQueue }) { bounded with queue } member
  | again here inside waits more =>
    rw [more] at driver
    obtain ⟨first, -⟩ := List.forall_mem_cons.mp driver
    exact { bounded with frames := List.forall_mem_singleton.mpr (first _ _) }
  | returned here waits more =>
    rw [more] at driver
    exact { bounded with phases := (List.forall_mem_cons.mp driver).2 }
  | began here more =>
    rw [more] at driver
    obtain ⟨first, rest⟩ := List.forall_mem_cons.mp driver
    exact { bounded with frames := List.forall_mem_singleton.mpr (first _ _), phases := rest }
  | ran here outside => exact { bounded with }

end Loader

/-! ### What goes down -/

/-- The file has been asked for, or named to the driver. -/
def Table.Met (t : Table Name) : File Name → Prop
  | .input i => i ∈ t.visitedFiles
  | f => f ∈ t.seen

instance Table.decidableMet (t : Table Name) (f : File Name) : Decidable (t.Met f) := by
  cases f with
  | input i => exact inferInstanceAs (Decidable (i ∈ t.visitedFiles))
  | member archive childOffset => exact inferInstanceAs (Decidable (_ ∈ t.seen))
  | imported dll symbolName => exact inferInstanceAs (Decidable (_ ∈ t.seen))

def unmet (files : Finset (File Name)) (t : Table Name) : Nat :=
  (files.filter fun f => ¬t.Met f).card

def unread (files : Finset (File Name)) (parsed : List (File Name)) : Nat :=
  files.card - parsed.length

omit [DecidableEq Name] in
private theorem Table.met_of_seen {t : Table Name} {f : File Name} (library : f.isInput = false) :
    t.Met f ↔ f ∈ t.seen := by
  cases f with
  | input i => cases library
  | member archive childOffset => exact Iff.rfl
  | imported dll symbolName => exact Iff.rfl

omit [DecidableEq Name] in
theorem Table.Met.mono {t t' : Table Name} {f : File Name} (met : t.Met f) (seen : t.seen ⊆ t'.seen)
    (visited : t.visitedFiles ⊆ t'.visitedFiles) : t'.Met f := by
  cases f with
  | input i => exact visited met
  | member archive childOffset => exact seen met
  | imported dll symbolName => exact seen met

private theorem unmet_le {t t' : Table Name} (seen : t.seen ⊆ t'.seen)
    (visited : t.visitedFiles ⊆ t'.visitedFiles) : unmet files t' ≤ unmet files t :=
  Finset.card_le_card (Finset.monotone_filter_right files fun _ _ fresh met =>
    fresh (met.mono seen visited))

private theorem unmet_lt {t t' : Table Name} (seen : t.seen ⊆ t'.seen)
    (visited : t.visitedFiles ⊆ t'.visitedFiles) {f : File Name} (member : f ∈ files)
    (fresh : ¬t.Met f) (met : t'.Met f) : unmet files t' < unmet files t := by
  apply Finset.card_lt_card
  refine ⟨Finset.monotone_filter_right files fun _ _ notMet now => notMet (now.mono seen visited),
    fun all => ?_⟩
  exact (Finset.mem_filter.mp (all (Finset.mem_filter.mpr ⟨member, fresh⟩))).2 met

private theorem unread_lt {parsed : List (File Name)} {f : File Name}
    (nodup : (parsed ++ [f]).Nodup) (members : ∀ g ∈ parsed ++ [f], g ∈ files) :
    unread files (parsed ++ [f]) < unread files parsed := by
  have fits : (parsed ++ [f]).length ≤ files.card := by
    rw [← List.toFinset_card_of_nodup nodup]
    exact Finset.card_le_card fun g member => members g (List.mem_toFinset.mp member)
  rw [List.length_append, List.length_singleton] at fits
  rw [unread, unread, List.length_append, List.length_singleton]
  omega

omit [DecidableEq Name] in
private theorem unread_le (parsed : List (File Name)) (f : File Name) :
    unread files (parsed ++ [f]) ≤ unread files parsed := by
  rw [unread, unread, List.length_append]
  omega

/-- A file that joins the queue is not unmet any more. -/
theorem Effect.unmet_le {t t' : Table Name} {load : Option (File Name)} {events : List (Event Name)}
    (effect : Effect cfg t t' load events) (queue : ∀ f ∈ t'.taskQueue, f ∈ files) :
    unmet files t' + t'.taskQueue.length ≤ unmet files t + t.taskQueue.length := by
  -- a file that joins the queue has not been met before, so it is paid for
  have joined : ∀ {t' : Table Name} {f : File Name}, t.seen ⊆ t'.seen →
      t.visitedFiles ⊆ t'.visitedFiles → t'.taskQueue = t.taskQueue ++ [f] → f ∈ files → ¬t.Met f →
      t'.Met f → unmet files t' + t'.taskQueue.length ≤ unmet files t + t.taskQueue.length := by
    intro t' f seen visited longer member fresh met
    have fewer : unmet files t' < unmet files t := unmet_lt seen visited member fresh met
    rw [longer, List.length_append, List.length_singleton]
    omega
  cases effect with
  | @enqueued i fresh =>
    exact joined (List.Subset.refl _) (List.subset_cons_self _ _) rfl
      (queue _ (List.mem_append_right _ List.mem_cons_self)) fresh List.mem_cons_self
  | @demanded n s s' f t' load events there body pending why demand =>
    cases demand with
    | queued fresh library =>
      exact joined (List.subset_cons_self _ _) (List.Subset.refl _) rfl
        (queue _ (List.mem_append_right _ List.mem_cons_self))
        ((Table.met_of_seen library).not.mpr fresh)
        ((Table.met_of_seen library).mpr List.mem_cons_self)
    | made fresh library =>
      have fewer : unmet files { t.put n s' with seen := f :: t.seen } ≤ unmet files t :=
        Symtab.unmet_le (List.subset_cons_self _ _) (List.Subset.refl _)
      exact Nat.add_le_add_right fewer _
    | _ => exact Nat.le_refl _
  | _ => exact Nat.le_refl _

/-- Nothing leaves the queue while a file is read. -/
theorem Effect.taskQueue_prefix {t t' : Table Name} {load : Option (File Name)}
    {events : List (Event Name)} (effect : Effect cfg t t' load events) :
    t.taskQueue <+: t'.taskQueue := by
  cases effect with
  | enqueued fresh => exact List.prefix_append _ _
  | demanded there body pending why demand =>
    cases demand with
    | queued fresh library => exact List.prefix_append _ _
    | _ => exact List.prefix_rfl
  | _ => exact List.prefix_rfl

/-! ### The stack -/

/-- The program on top goes on, or is left. -/
inductive Shrinks : List (Frame Name) → List (Frame Name) → Prop
  | left {frame : Frame Name} {frames : List (Frame Name)} : Shrinks frames (frame :: frames)
  | answered {c : Call Name} {k : Answer Name → Program Name} {a : Answer Name}
      {frames : List (Frame Name)} :
      Shrinks (.running (k a) :: frames) (.running (.call c k) :: frames)
  | passed {i : Nat} {name : Name} {names : List Name} {frames : List (Frame Name)} :
      Shrinks (.scanning i names :: frames) (.scanning i (name :: names) :: frames)

omit [DecidableEq Name] in
private theorem acc_running (p : Program Name) {frames : List (Frame Name)}
    (below : Acc Shrinks frames) :
    Acc Shrinks (.running p :: frames) := by
  induction p with
  | done =>
    constructor
    intro frames' shrinks
    cases shrinks
    exact below
  | call c k ih =>
    constructor
    intro frames' shrinks
    cases shrinks with
    | left => exact below
    | answered => exact ih _

omit [DecidableEq Name] in
private theorem acc_scanning (i : Nat) (names : List Name) {frames : List (Frame Name)}
    (below : Acc Shrinks frames) : Acc Shrinks (.scanning i names :: frames) := by
  induction names with
  | nil =>
    constructor
    intro frames' shrinks
    cases shrinks
    exact below
  | cons name names ih =>
    constructor
    intro frames' shrinks
    cases shrinks with
    | left => exact below
    | passed => exact ih

omit [DecidableEq Name] in
private theorem shrinks_wellFounded : WellFounded (@Shrinks Name) := by
  constructor
  intro frames
  induction frames with
  | nil =>
    constructor
    intro frames' shrinks
    cases shrinks
  | cons frame frames ih =>
    cases frame with
    | running p => exact acc_running p ih
    | scanning i names => exact acc_scanning i names ih

namespace Loader

variable {inp : Inputs Name} {lazy : Nat → Bool} {s s' : Loader Name}

/-- The files to come, those that wait and those that have not been read. -/
def remaining (files : Finset (File Name)) (s : Loader Name) : Nat :=
  unread files s.parsed + (unmet files s.toTable + s.taskQueue.length)

/-- Where the driver is in a round of a loop: behind a `run` that found work and has done it, in the
calls of the round, in a `run` that found nothing or still has work. A round that is over starts
again only after a file has left the queue. -/
def stage (s : Loader Name) : Nat :=
  match s.didWork with
  | some true => if s.taskQueue.isEmpty then 2 else 0
  | none => 1
  | some false => 0

def measure (files : Finset (File Name)) (s : Loader Name) : Nat × Nat × Nat × List (Frame Name) :=
  (s.remaining files, s.phases.length, s.stage, s.frames)

/-- First what remains, then the driver's parts, then the round, then the stack. -/
def Less : Nat × Nat × Nat × List (Frame Name) → Nat × Nat × Nat × List (Frame Name) → Prop :=
  Prod.Lex (· < ·) (Prod.Lex (· < ·) (Prod.Lex (· < ·) Shrinks))

omit [DecidableEq Name] in
private theorem less_wellFounded : WellFounded (@Less Name) :=
  WellFounded.prod_lex Nat.lt_wfRel.wf (WellFounded.prod_lex Nat.lt_wfRel.wf
    (WellFounded.prod_lex Nat.lt_wfRel.wf shrinks_wellFounded))

omit [DecidableEq Name] in
private theorem less_of_shrinks {a a' m r r' : Nat} {frames frames' : List (Frame Name)}
    (le : a' ≤ a) (round : r' ≤ r) (shrinks : Shrinks frames' frames) :
    Less (a', m, r', frames') (a, m, r, frames) := by
  rcases Nat.lt_or_eq_of_le le with lt | rfl
  · exact .left _ _ lt
  · rcases Nat.lt_or_eq_of_le round with lt | rfl
    · exact .right _ (.right _ (.left _ _ lt))
    · exact .right _ (.right _ (.right _ shrinks))

omit [DecidableEq Name] in
/-- Files that join the queue bring no `run` to its end. -/
theorem stage_le {t : Table Name} {frames : List (Frame Name)} {history : List (Event Name)}
    (longer : s.taskQueue <+: t.taskQueue) :
    stage { s with toTable := t, frames, history } ≤ s.stage := by
  rw [stage, stage]
  dsimp only
  cases s.didWork with
  | none => exact Nat.le_refl _
  | some didWork =>
    -- what counts is whether the queue is empty, and it only gets longer
    cases didWork with
    | false => exact Nat.le_refl _
    | true =>
      dsimp only
      cases empty : s.taskQueue with
      | nil =>
        change (if t.taskQueue.isEmpty then 2 else 0) ≤ 2
        split
        · exact Nat.le_refl _
        · exact Nat.zero_le _
      | cons f taskQueue =>
        rw [empty] at longer
        obtain ⟨more, same⟩ := longer
        rw [← same]
        exact Nat.le_refl _

/-- A call, and the file that it loads: what remains goes down, or the stack does. -/
theorem called_less {t : Table Name} {load : Option (File Name)} {events : List (Event Name)}
    {top : Frame Name} {frames : List (Frame Name)}
    (effect : Effect inp.toNames s.toTable t load events)
    (shrinks : Shrinks (top :: frames) s.frames)
    (s'_eq : s' = Loader.addLoad inp
      { s with toTable := t, frames := top :: frames, history := s.history ++ events } load)
    (bounded : Bounded files s') (sound : Sound lazy s') :
    Less (s'.measure files) (s.measure files) := by
  cases load with
  | none =>
    subst s'_eq
    exact less_of_shrinks (Nat.add_le_add_left (effect.unmet_le bounded.queue) _)
      (stage_le effect.taskQueue_prefix) shrinks
  | some f =>
    obtain ⟨frames', -, moved⟩ := addLoad_eq effect (top :: frames)
    rw [moved] at s'_eq
    subst s'_eq
    -- the file has not been read before
    have nodup : (s.parsed ++ [f]).Nodup := (List.nodup_append.mp sound.once.nodup).1
    exact .left _ _ (Nat.add_lt_add_of_lt_of_le (unread_lt nodup bounded.parsed)
      (effect.unmet_le bounded.queue))

/-- What is taken from the queue is read or scanned, and does not come back. -/
theorem popped_remaining {f : File Name} {taskQueue : List (File Name)}
    (next : s.taskQueue = f :: taskQueue) :
    (Loader.addFile inp { s with taskQueue } f).remaining files < s.remaining files := by
  have shorter : ∀ known, known + taskQueue.length < known + s.taskQueue.length := by
    intro known
    rw [next, List.length_cons]
    omega
  have read : unread files (s.parsed ++ [f]) + (unmet files s.toTable + taskQueue.length) <
      s.remaining files :=
    Nat.add_lt_add_of_le_of_lt (unread_le s.parsed f) (shorter _)
  -- the queue is shorter, and a file that is read is not unread any more
  cases f with
  | input i =>
    rw [addFile]
    split
    · exact Nat.add_lt_add_left (shorter _) _
    · exact read
  | member archive childOffset => exact read
  | imported dll symbolName => exact read

private theorem step_less (bounded : Bounded files s') (sound : Sound lazy s')
    (stepped : s.step inp = some s') : Less (s'.measure files) (s.measure files) := by
  cases branch_of_step stepped with
  -- the stack is shorter
  | left here ended =>
    rw [measure, measure, here]
    exact less_of_shrinks (Nat.le_refl _) (Nat.le_refl _) .left
  -- the program goes on, unless a file is read first
  | @called c k frames here =>
    have effect := @Table.apply_effect _ _ inp.toNames s.toTable c
    refine called_less effect ?_ rfl bounded sound
    rw [here]
    exact .answered
  -- a name less to offer, unless the object is read now
  | @offered i name names frames here awake =>
    have effect := @Table.addLazyObject_effect _ _ inp.toNames s.toTable i awake name
    refine called_less effect ?_ rfl bounded sound
    rw [here]
    exact .passed
  | popped here inside next => exact .left _ _ (popped_remaining next)
  -- the loop goes on because there was work, and the queue is empty now
  | @again body phases here inside waits more =>
    have before : s.stage = 2 := by
      rw [stage, inside, waits]
      rfl
    rw [measure, measure, before]
    exact .right _ (.right _ (.left _ _ (Nat.lt_succ_self 1)))
  | returned here waits more =>
    rw [measure, measure, more]
    exact .right _ (.left _ _ (Nat.lt_succ_self _))
  | began here more =>
    rw [measure, measure, more]
    exact .right _ (.left _ _ (Nat.lt_succ_self _))
  -- `run` is called, and has work before it or returns at once
  | ran here outside =>
    have before : s.stage = 1 := by rw [stage, outside]
    have called : stage { s with didWork := some !s.taskQueue.isEmpty } = 0 := by
      rw [stage]
      cases s.taskQueue with
      | nil => rfl
      | cons f taskQueue => rfl
    rw [measure, measure, before, called]
    exact .right _ (.right _ (.left _ _ Nat.zero_lt_one))

/-! ### The end -/

/-- The driver has no more parts. -/
def Finished (s : Loader Name) : Prop := s.frames = [] ∧ s.phases = []

private theorem finished_of_step (stuck : s.step inp = none) : Finished s := by
  rw [step] at stuck
  split at stuck
  · cases stuck
  · cases stuck
  · cases stuck
  · split at stuck
    · cases stuck
    · cases stuck
  -- no frame is left: the driver is stuck only when there is no phase left either
  · rename_i here
    split at stuck
    · split at stuck
      · cases stuck
      · split at stuck
        · exact ⟨here, ‹_›⟩
        · split at stuck
          · cases stuck
          · cases stuck
        · cases stuck
    · split at stuck
      · exact ⟨here, ‹_›⟩
      · cases stuck
      · cases stuck

private theorem sound_ends (within : ∀ f ∈ files, (inp.parse f).Within files) (s : Loader Name) :
    Sound lazy s → Bounded files s → ∃ steps, Finished (run inp steps s) := by
  induction s using (InvImage.wf (measure files) less_wellFounded).induction with
  | _ s ih =>
    intro sound bounded
    cases stepped : s.step inp with
    | none => exact ⟨0, finished_of_step stepped⟩
    | some s' =>
      have sound' := (move_of_step stepped).sound sound
      have bounded' := step_bounded within sound bounded stepped
      obtain ⟨steps, finished⟩ := ih s' (step_less bounded' sound' stepped) sound' bounded'
      refine ⟨steps + 1, ?_⟩
      rw [run, stepped]
      exact finished

/-- The driver's last part works off the queue. -/
def EndsInRun (phases : List (Phase Name)) : Prop :=
  ∀ body, phases.getLast? ≠ some (.calls body)

omit [DecidableEq Name] in
private theorem endsInRun_tail {p : Phase Name} {phases : List (Phase Name)}
    (ends : EndsInRun (p :: phases)) : EndsInRun phases := by
  intro body last
  apply ends body
  cases phases with
  | nil => cases last
  | cons q phases =>
    rw [List.getLast?_cons_cons]
    exact last

/-- What is left of the driver ends in a run, and when nothing is left the queue is empty. -/
structure Closing (s : Loader Name) : Prop where
  last : EndsInRun s.phases
  idle : s.phases = [] → s.Idle

omit [DecidableEq Name] in
private theorem addFile_phases (s : Loader Name) (f : File Name) :
    (s.addFile inp f).phases = s.phases := by
  cases f with
  | input i =>
    rw [addFile]
    split
    · rfl
    · rfl
  | member archive childOffset => rfl
  | imported dll symbolName => rfl

omit [DecidableEq Name] in
private theorem addLoad_phases (s : Loader Name) (load : Option (File Name)) :
    (s.addLoad inp load).phases = s.phases := by
  cases load with
  | none => rfl
  | some f => exact addFile_phases s f

/-- A part ends with its calls, or with a `run` that has emptied the queue. -/
theorem step_phases (stepped : s.step inp = some s') :
    s'.phases = s.phases ∨ (∃ body, s.phases = .calls body :: s'.phases) ∨
      ∃ p, s.phases = p :: s'.phases ∧ s'.Idle := by
  cases branch_of_step stepped with
  | left here ended => exact Or.inl rfl
  | called here => exact Or.inl (addLoad_phases _ _)
  | offered here awake => exact Or.inl (addLoad_phases _ _)
  | popped here inside next => exact Or.inl (addFile_phases _ _)
  | again here inside waits more => exact Or.inl rfl
  | returned here waits more => exact Or.inr (Or.inr ⟨_, more, here, waits⟩)
  | began here more => exact Or.inr (Or.inl ⟨_, more⟩)
  | ran here outside => exact Or.inl rfl

private theorem step_ended (here : s.frames = []) (empty : s.phases = [])
    (waits : s.taskQueue = []) :
    s.step inp = none := by
  rw [step, here]
  dsimp only
  rw [waits, empty]
  cases s.didWork with
  | none => rfl
  | some didWork => rfl

private theorem step_closing (closing : Closing s) (stepped : s.step inp = some s') :
    Closing s' := by
  -- a driver that has come to its end takes no step
  have more : s.phases ≠ [] := by
    intro empty
    obtain ⟨here, waits⟩ := closing.idle empty
    rw [step_ended here empty waits] at stepped
    cases stepped
  have last := closing.last
  rcases step_phases stepped with same | ⟨body, same⟩ | ⟨p, same, idle⟩
  · rw [← same] at more last
    exact ⟨last, fun empty => absurd empty more⟩
  · rw [same] at last
    refine ⟨endsInRun_tail last, fun empty => ?_⟩
    rw [empty] at last
    exact absurd rfl (last body)
  · rw [same] at last
    exact ⟨endsInRun_tail last, fun _ => idle⟩

/-- When the driver and the files name finitely many files, the driver's loops stop and it comes to
its end after some steps. All is read then, unless calls of the driver come behind its last run. -/
theorem loading_ends (within : ∀ f ∈ files, (inp.parse f).Within files)
    {phases : List (Phase Name)} (started : ∀ p ∈ phases, p.Within files) :
    ∃ steps, Finished (run inp steps (start lazy phases)) ∧
      (EndsInRun phases → (run inp steps (start lazy phases)).Idle) := by
  have bounded : Bounded files (start lazy phases) := by
    refine ⟨?_, ?_, ?_, started, ?_⟩
    · intro f member
      cases member
    · intro f member
      cases member
    · intro frame member
      cases member
    · intro n f member
      cases member
  obtain ⟨steps, finished⟩ := sound_ends within _ (start_sound lazy phases) bounded
  refine ⟨steps, finished, fun ends => ?_⟩
  have closing : Closing (run inp steps (start lazy phases)) :=
    reaches_invariant (fun _ _ closing stepped => step_closing closing stepped)
      (reaches_run inp steps (start lazy phases)) ⟨ends, fun _ => ⟨rfl, rfl⟩⟩
  exact closing.idle finished.2

/-- The driver's loop refers to `f` as long as the table knows it from an archive only. -/
def optionalDriver : List (Phase Char) :=
  [.calls fun _ _ => .call (.enqueue 1) fun _ => .done, .run] ++
    Phase.doWhile fun t _ =>
      match t.symMap 'f' with
      | some ⟨.lazyArchive _ _, _, _⟩ => .call (.addUndefined 'f' none false) fun _ => .done
      | _ => .done

/-- The archive of `oneMember`, and its member. -/
def optionalFiles : Finset (File Char) := {.input 1, .member 1 8}

/-- The member is read in the first round, and the second one finds nothing to do. -/
theorem optional_ends : ∃ steps,
    Finished (run oneMember steps (start (fun _ => false) optionalDriver)) ∧
      (run oneMember steps (start (fun _ => false) optionalDriver)).Idle := by
  have first : .input 1 ∈ optionalFiles := by decide
  have second : .member 1 8 ∈ optionalFiles := by decide
  have within : ∀ f ∈ optionalFiles, (oneMember.parse f).Within optionalFiles := by
    intro f member
    simp only [optionalFiles, Finset.mem_insert, Finset.mem_singleton] at member
    rcases member with rfl | rfl
    · exact ⟨second, fun _ => trivial⟩
    · exact ⟨trivial, fun _ => trivial⟩
  have started : ∀ p ∈ optionalDriver, p.Within optionalFiles := by
    -- the program adds a reference or ends, whatever the table holds
    have optional : ∀ t : Table Char, (match t.symMap 'f' with
        | some ⟨.lazyArchive _ _, _, _⟩ => Program.call (.addUndefined 'f' none false) fun _ => .done
        | _ => .done).Within optionalFiles := by
      intro t
      split
      · exact ⟨trivial, fun _ => trivial⟩
      · trivial
    intro p member
    simp only [optionalDriver, Phase.doWhile, List.cons_append, List.nil_append, List.mem_cons,
      List.not_mem_nil, or_false] at member
    rcases member with rfl | rfl | rfl | rfl
    · exact fun _ _ => ⟨first, fun _ => trivial⟩
    · trivial
    · exact fun t _ => optional t
    · exact fun t _ => optional t
  exact (loading_ends within started).imp fun steps ended =>
    ⟨ended.1, ended.2 fun body last => by cases last⟩

example : (run oneMember 16 (start (fun _ => false) optionalDriver)).parsed =
    [.input 1, .member 1 8] := by decide

end Loader

end LlvmLd.Symtab
