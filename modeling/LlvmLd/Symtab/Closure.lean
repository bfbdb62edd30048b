import LlvmLd.Symtab.Tracking
import Mathlib.Data.List.Nodup

/-!
# What is loaded

## Main results

- `references_load`: when the queue has been worked off, a name that is referred to is defined, or
  one of the files that offer it has been read.
- `loaded_for_reason`: no file is read twice, and one that is read for a definition offers a name
  that something refers to.
-/

namespace LlvmLd.Symtab

variable {Name : Type}

/-! ### Each file once -/

/-- Each file is in the queue or has been read, and is so once. -/
structure Once (t : Table Name) (parsed : List (File Name)) (history : List (Event Name))
    (scanning : List Nat) : Prop where
  nodup : (parsed ++ t.taskQueue).Nodup
  library : ∀ f ∈ parsed ++ t.taskQueue, f.isInput = false → f ∈ t.seen
  visited : ∀ i, .input i ∈ parsed ++ t.taskQueue → i ∈ t.visitedFiles
  -- an input offers names when it has left the queue
  offered : ∀ n i, .offer n (.input i) ∈ history → i ∈ t.visitedFiles ∧ .input i ∉ t.taskQueue
  scanned : ∀ i ∈ scanning, i ∈ t.visitedFiles ∧ .input i ∉ t.taskQueue
  awake : ∀ i, .input i ∈ parsed → t.lazy i = false

namespace Once

variable {t t' : Table Name} {parsed : List (File Name)} {history events : List (Event Name)}
  {scanning scanning' : List Nat}

theorem part (once : Once t parsed history scanning) (part : scanning' ⊆ scanning) :
    Once t parsed history scanning' :=
  { once with scanned := fun i member => once.scanned i (part member) }

/-- A call that asks for no file. -/
theorem same (once : Once t parsed history scanning) (seen : t'.seen = t.seen)
    (visitedFiles : t'.visitedFiles = t.visitedFiles) (taskQueue : t'.taskQueue = t.taskQueue)
    (lazy : t'.lazy = t.lazy) (own : ∀ n i, .offer n (.input i) ∈ events → i ∈ scanning) :
    Once t' parsed (history ++ events) scanning := by
  constructor
  · rw [taskQueue]
    exact once.nodup
  · rw [taskQueue, seen]
    exact once.library
  · rw [taskQueue, visitedFiles]
    exact once.visited
  · rw [taskQueue, visitedFiles]
    intro n i offered
    rcases List.mem_append.mp offered with before | now
    · exact once.offered n i before
    · exact once.scanned i (own n i now)
  · rw [taskQueue, visitedFiles]
    exact once.scanned
  · rw [lazy]
    exact once.awake

/-- A new file can be read at once or put at the end of the queue. -/
theorem nodup_new {f : File Name} {files rest : List (File Name)} (nodup : (files ++ rest).Nodup)
    (new : f ∉ files ++ rest) : (files ++ [f] ++ rest).Nodup ∧ (files ++ (rest ++ [f])).Nodup := by
  constructor
  · rw [List.append_assoc, List.singleton_append]
    exact List.nodup_middle.mpr (List.nodup_cons.mpr ⟨new, nodup⟩)
  · rw [← List.append_assoc]
    exact nodup.append (List.nodup_singleton f) (List.disjoint_singleton.mpr new)

private theorem mem_new {f g : File Name} {files rest : List (File Name)} :
    g ∈ files ++ [f] ++ rest ↔ g = f ∨ g ∈ files ++ rest := by
  rw [List.append_assoc, List.singleton_append, List.mem_append, List.mem_cons, List.mem_append]
  exact or_left_comm

/-- An input is put into the queue when it is named first. -/
theorem enqueued (once : Once t parsed history scanning) {i : Nat} (fresh : i ∉ t.visitedFiles) :
    Once { t with visitedFiles := i :: t.visitedFiles
                  taskQueue := t.taskQueue ++ [.input i] } parsed history scanning := by
  have new : File.input i ∉ parsed ++ t.taskQueue := fun member => fresh (once.visited i member)
  -- a file that does not wait is not the new one, which had not been visited
  have other : ∀ j, j ∈ t.visitedFiles ∧ .input j ∉ t.taskQueue →
      j ∈ i :: t.visitedFiles ∧ (.input j : File Name) ∉ t.taskQueue ++ [.input i] := by
    rintro j ⟨visited, waits⟩
    refine ⟨List.mem_cons_of_mem _ visited, fun member => ?_⟩
    rcases List.mem_append.mp member with before | now
    · exact waits before
    · cases List.mem_singleton.mp now
      exact fresh visited
  constructor
  · exact (nodup_new once.nodup new).2
  · rw [← List.append_assoc]
    intro f member lib
    rcases List.mem_append.mp member with before | now
    · exact once.library f before lib
    · cases List.mem_singleton.mp now
      cases lib
  · rw [← List.append_assoc]
    intro j member
    rcases List.mem_append.mp member with before | now
    · exact List.mem_cons_of_mem _ (once.visited j before)
    · cases List.mem_singleton.mp now
      exact List.mem_cons_self
  · exact fun n j offered => other j (once.offered n j offered)
  · exact fun j member => other j (once.scanned j member)
  · exact once.awake

/-- A file is asked for; an input among those has left the queue. -/
theorem demanded (once : Once t parsed history scanning) {f : File Name} {load : Option (File Name)}
    (demand : Demand t f t' load)
    (place : ∀ i, f = .input i → i ∈ t.visitedFiles ∧ .input i ∉ t.taskQueue) :
    Once t' (parsed ++ load.toList) history scanning := by
  cases demand with
  | taken old =>
    rw [Option.toList_none, List.append_nil]
    exact once
  | awake notLazy =>
    rw [Option.toList_none, List.append_nil]
    exact once
  | queued fresh lib =>
    rw [Option.toList_none, List.append_nil]
    -- An import library that was not visited has been neither read nor queued, so it is new there.
    have new : f ∉ parsed ++ t.taskQueue := fun member => fresh (once.library f member lib)
    have other : ∀ j, j ∈ t.visitedFiles ∧ .input j ∉ t.taskQueue →
        j ∈ t.visitedFiles ∧ (.input j : File Name) ∉ t.taskQueue ++ [f] := by
      rintro j ⟨visited, waits⟩
      refine ⟨visited, fun member => ?_⟩
      rcases List.mem_append.mp member with before | now
      · exact waits before
      · rw [← List.mem_singleton.mp now] at lib
        cases lib
    constructor
    · exact (nodup_new once.nodup new).2
    · rw [← List.append_assoc]
      intro g member isLib
      rcases List.mem_append.mp member with before | now
      · exact List.mem_cons_of_mem _ (once.library g before isLib)
      · rw [List.mem_singleton.mp now]
        exact List.mem_cons_self
    · rw [← List.append_assoc]
      intro j member
      rcases List.mem_append.mp member with before | now
      · exact once.visited j before
      · rw [← List.mem_singleton.mp now] at lib
        cases lib
    · exact fun n j offered => other j (once.offered n j offered)
    · exact fun j member => other j (once.scanned j member)
    · exact once.awake
  | made fresh lib =>
    -- The same for one that is read at once.
    have new : f ∉ parsed ++ t.taskQueue := fun member => fresh (once.library f member lib)
    rw [Option.toList_some]
    constructor
    · exact (nodup_new once.nodup new).1
    · intro g member isLib
      rcases mem_new.mp member with now | before
      · rw [now]
        exact List.mem_cons_self
      · exact List.mem_cons_of_mem _ (once.library g before isLib)
    · intro j member
      rcases mem_new.mp member with now | before
      · rw [← now] at lib
        cases lib
      · exact once.visited j before
    · exact once.offered
    · exact once.scanned
    · intro j member
      rcases List.mem_append.mp member with before | now
      · exact once.awake j before
      · rw [← List.mem_singleton.mp now] at lib
        cases lib
  | @woken i lazy =>
    -- A lazy input cannot have been read before, as reading makes it awake for good.
    obtain ⟨visited, left⟩ := place i rfl
    have unread : File.input i ∉ parsed := by
      intro member
      rw [once.awake i member] at lazy
      cases lazy
    have new : File.input i ∉ parsed ++ t.taskQueue := by
      rw [List.mem_append]
      exact fun member => member.elim unread left
    rw [Option.toList_some]
    constructor
    · exact (nodup_new once.nodup new).1
    · intro g member isLib
      rcases mem_new.mp member with now | before
      · rw [now] at isLib
        cases isLib
      · exact once.library g before isLib
    · intro j member
      rcases mem_new.mp member with now | before
      · cases now
        exact visited
      · exact once.visited j before
    · exact once.offered
    · exact once.scanned
    · intro j member
      by_cases same : j = i
      · rw [same]
        exact Function.update_self _ _ _
      · refine (Function.update_of_ne same _ _).trans (once.awake j ?_)
        rcases List.mem_append.mp member with before | now
        · exact before
        · cases List.mem_singleton.mp now
          exact absurd rfl same

/-- The next file leaves the queue. -/
theorem popped (once : Once t parsed history scanning) {f : File Name} {rest : List (File Name)}
    (next : t.taskQueue = f :: rest) :
    f ∉ parsed ++ rest ∧ (parsed ++ rest).Nodup ∧ parsed ++ rest ⊆ parsed ++ t.taskQueue := by
  have nodup := once.nodup
  rw [next] at nodup ⊢
  obtain ⟨new, others⟩ := List.nodup_cons.mp (List.nodup_middle.mp nodup)
  exact ⟨new, others, ((List.sublist_cons_self f rest).append_left parsed).subset⟩

/-- An object is scanned: it offers names, but is not read. -/
theorem scan (once : Once t parsed history scanning) {i : Nat} {rest : List (File Name)}
    (next : t.taskQueue = .input i :: rest) :
    Once { t with taskQueue := rest } parsed history (i :: scanning) := by
  obtain ⟨new, nodup, old⟩ := once.popped next
  have left : ∀ j, j ∈ t.visitedFiles ∧ .input j ∉ t.taskQueue →
      j ∈ t.visitedFiles ∧ (.input j : File Name) ∉ rest := by
    rintro j ⟨visited, waits⟩
    rw [next, List.mem_cons, not_or] at waits
    exact ⟨visited, waits.2⟩
  refine ⟨nodup, fun f member => once.library f (old member),
    fun j member => once.visited j (old member),
    fun n j offered => left j (once.offered n j offered), ?_, once.awake⟩
  intro j member
  -- the file was in the queue once, so it is not in the rest of it
  rcases List.mem_cons.mp member with rfl | before
  · refine ⟨once.visited j ?_, fun here => new (List.mem_append_right _ here)⟩
    rw [next]
    exact List.mem_append_right _ List.mem_cons_self
  · exact left j (once.scanned j before)

/-- A file is read in its turn. -/
theorem read (once : Once t parsed history scanning) {f : File Name} {rest : List (File Name)}
    (next : t.taskQueue = f :: rest) (awake : ∀ i, f = .input i → t.lazy i = false) :
    Once { t with taskQueue := rest } (parsed ++ [f]) history scanning := by
  -- parsed and waiting files are the same list as before
  have all : parsed ++ [f] ++ rest = parsed ++ t.taskQueue := by
    rw [next, List.append_assoc, List.singleton_append]
  have left : ∀ j, j ∈ t.visitedFiles ∧ .input j ∉ t.taskQueue →
      j ∈ t.visitedFiles ∧ (.input j : File Name) ∉ rest := by
    rintro j ⟨visited, waits⟩
    rw [next, List.mem_cons, not_or] at waits
    exact ⟨visited, waits.2⟩
  constructor
  · rw [all]
    exact once.nodup
  · rw [all]
    exact once.library
  · rw [all]
    exact once.visited
  · exact fun n j offered => left j (once.offered n j offered)
  · exact fun j member => left j (once.scanned j member)
  · intro j member
    rcases List.mem_append.mp member with before | now
    · exact once.awake j before
    · exact awake j (List.mem_singleton.mp now).symm

theorem effect [DecidableEq Name] {cfg : Names Name} {load : Option (File Name)}
    (once : Once t parsed history scanning) (tracks : Tracks t parsed history)
    (effect : Effect cfg t t' load events)
    (own : ∀ n i, .offer n (.input i) ∈ events → i ∈ scanning) :
    Once t' (parsed ++ load.toList) (history ++ events) scanning := by
  cases effect with
  | enqueued fresh =>
    rw [Option.toList_none, List.append_nil, List.append_nil]
    exact once.enqueued fresh
  | @demanded n s s' f t' load events there body pending why demand =>
    -- the object was scanned when it offered the name, so it is not in the queue
    have asked : ∀ i, f = .input i → i ∈ t.visitedFiles ∧ .input i ∉ t.taskQueue := by
      rintro i rfl
      rcases why with ⟨target, -⟩ | ⟨-, rfl, -⟩
      · exact once.offered n i ((tracks.known n s there).source _ target)
      · exact once.scanned i (own n i List.mem_cons_self)
    have offering : Once (t.put n s') parsed (history ++ events) scanning :=
      once.same rfl rfl rfl rfl own
    exact offering.demanded demand asked
  | _ =>
    rw [Option.toList_none, List.append_nil]
    exact once.same rfl rfl rfl rfl own

end Once

/-! ### Reasons -/

/-- Something refers to a name that the file offers. -/
def Wanted (history : List (Event Name)) (f : File Name) : Prop :=
  ∃ n, .offer n f ∈ history ∧ (.reference n ∈ history ∨ .weakened n ∈ history)

theorem Wanted.mono {history history' : List (Event Name)} {f : File Name}
    (wanted : Wanted history f) (more : history ⊆ history') : Wanted history' f := by
  obtain ⟨n, offered, asked⟩ := wanted
  exact ⟨n, more offered, asked.imp (fun member => more member) (fun member => more member)⟩

/-- What was asked for has a reason; `lazy` says which inputs wait for one. -/
structure Reasons (lazy : Nat → Bool) (t : Table Name) (history : List (Event Name)) : Prop where
  seen : ∀ f ∈ t.seen, Wanted history f
  woken : ∀ i, lazy i = true → t.lazy i = false → Wanted history (.input i)

namespace Reasons

variable {lazy : Nat → Bool} {t t' : Table Name} {parsed : List (File Name)}
  {history events : List (Event Name)}

theorem same (reasons : Reasons lazy t history) (seen : t'.seen = t.seen)
    (woken : t'.lazy = t.lazy) : Reasons lazy t' (history ++ events) := by
  have more : history ⊆ history ++ events := List.subset_append_left _ _
  constructor
  · rw [seen]
    exact fun f member => (reasons.seen f member).mono more
  · rw [woken]
    exact fun i waits now => (reasons.woken i waits now).mono more

theorem demanded (reasons : Reasons lazy t history) {f : File Name} {load : Option (File Name)}
    (demand : Demand t f t' load) (wanted : Wanted history f) : Reasons lazy t' history := by
  have added : ∀ g ∈ f :: t.seen, Wanted history g := by
    intro g member
    rcases List.mem_cons.mp member with rfl | before
    · exact wanted
    · exact reasons.seen g before
  cases demand with
  | taken old => exact reasons
  | queued fresh lib => exact ⟨added, reasons.woken⟩
  | made fresh lib => exact ⟨added, reasons.woken⟩
  | @woken i _ =>
    refine ⟨reasons.seen, fun j waits now => ?_⟩
    by_cases same : j = i
    · rw [same]
      exact wanted
    · exact reasons.woken j waits ((Function.update_of_ne same _ _).symm.trans now)
  | awake notLazy => exact reasons

theorem effect [DecidableEq Name] {cfg : Names Name} {load : Option (File Name)}
    (reasons : Reasons lazy t history) (tracks : Tracks t parsed history)
    (effect : Effect cfg t t' load events) : Reasons lazy t' (history ++ events) := by
  cases effect with
  | @demanded n s s' f t' load events there body pending why demand =>
    have offering : Reasons lazy (t.put n s') (history ++ events) := reasons.same rfl rfl
    have known := tracks.known n s there
    have wanted : Wanted (history ++ events) f := by
      rcases why with ⟨target, rfl⟩ | ⟨wants, rfl, -⟩
      · exact ⟨n, List.mem_append_left _ (known.source f target),
          Or.inl (List.mem_append_right _ List.mem_cons_self)⟩
      · refine ⟨n, List.mem_append_right _ List.mem_cons_self, ?_⟩
        exact (known.wanted (Table.isUndefined_of_wantsLazy wants)).imp
          (List.mem_append_left _) (List.mem_append_left _)
    exact offering.demanded demand wanted
  | _ => exact reasons.same rfl rfl

end Reasons

/-! ### Runs -/

namespace Loader

variable [DecidableEq Name] {inp : Inputs Name} {lazy : Nat → Bool} {s s' : Loader Name}

/-- The invariant of all runs. -/
structure Sound (lazy : Nat → Bool) (s : Loader Name) : Prop where
  tracks : Tracks s.toTable s.parsed s.history
  once : Once s.toTable s.parsed s.history (scans s.frames)
  reasons : Reasons lazy s.toTable s.history

omit [DecidableEq Name] in
theorem start_sound (lazy : Nat → Bool) (phases : List (Phase Name)) :
    Sound lazy (start lazy phases) := by
  refine ⟨⟨?_, ?_, ?_⟩, ⟨List.nodup_nil, ?_, ?_, ?_, ?_, ?_⟩, ⟨?_, ?_⟩⟩
  · intro n s there
    cases there
  · exact fun n _ => ⟨List.not_mem_nil, fun f => List.not_mem_nil⟩
  · intro f member
    cases member
  · intro f member
    cases member
  · intro i member
    cases member
  · intro n i member
    cases member
  · intro i member
    cases member
  · intro i member
    cases member
  · intro f member
    cases member
  · intro i waits now
    rw [show (start lazy phases).lazy = lazy from rfl, waits] at now
    cases now

theorem Move.sound (move : Move inp s s') (sound : Sound lazy s) : Sound lazy s' := by
  obtain ⟨tracks, once, reasons⟩ := sound
  cases move with
  | control part => exact ⟨tracks, once.part part, reasons⟩
  -- a call of the symbol table: the three parts follow from its effect
  | called effect own part =>
    exact ⟨tracks.effect effect, (once.effect tracks effect own).part part,
      reasons.effect tracks effect⟩
  -- a lazy file leaves the queue, and none of the members and import libraries does
  | @scanned i taskQueue names next lazily =>
    refine ⟨⟨tracks.known, tracks.fresh, ?_⟩, once.scan next, ⟨reasons.seen, reasons.woken⟩⟩
    intro f member
    obtain ⟨library, place⟩ := tracks.taken f member
    rw [next, List.mem_cons] at place
    refine ⟨library, place.imp_right fun waits => waits.resolve_left ?_⟩
    rintro rfl
    cases library
  -- a file that is read leaves the queue for the files that are parsed
  | @read f taskQueue p next awake =>
    have parsed : s.parsed ⊆ s.parsed ++ [f] := List.subset_append_left _ _
    refine ⟨⟨?_, tracks.fresh, ?_⟩, once.read next awake, ⟨reasons.seen, reasons.woken⟩⟩
    · intro n sym there
      exact (tracks.known n sym there).grow (fun _ _ => Iff.rfl) (List.Subset.refl _) parsed
        (fun i lazily => Or.inl lazily)
    · intro g member
      obtain ⟨library, place⟩ := tracks.taken g member
      rw [next, List.mem_cons] at place
      refine ⟨library, ?_⟩
      rcases place with before | rfl | waits
      · exact Or.inl (parsed before)
      · exact Or.inl (List.mem_append_right _ List.mem_cons_self)
      · exact Or.inr waits

private theorem reaches_sound {phases : List (Phase Name)}
    (reaches : Reaches inp (start lazy phases) s) :
    Sound lazy s :=
  reaches_invariant (fun _ _ sound stepped => (move_of_step stepped).sound sound) reaches
    (start_sound lazy phases)

/-- A file that is read only when something refers to a name that it offers. -/
def onDemand (lazy : Nat → Bool) : File Name → Bool
  | .input i => lazy i
  | _ => true

/-- When the queue has been worked off: of the files that offer a name that is referred to, one has
been read, unless something else defines it. -/
theorem references_load {phases : List (Phase Name)} (reaches : Reaches inp (start lazy phases) s)
    (idle : s.Idle) {n : Name} {f : File Name} (referred : .reference n ∈ s.history)
    (firm : .weakened n ∉ s.history) (offered : .offer n f ∈ s.history) :
    s.IsDefined n ∨ ∃ g ∈ s.parsed, .offer n g ∈ s.history := by
  have tracks := (reaches_sound reaches).tracks
  obtain ⟨sym, there⟩ : ∃ sym, s.symMap n = some sym := by
    apply Option.ne_none_iff_exists'.mp
    exact fun none => (tracks.fresh n none).1 referred
  have known := tracks.known n sym there
  -- a file that was asked for is not waiting any more
  have loaded : sym.pendingArchiveLoad = true → ∃ g ∈ s.parsed, .offer n g ∈ s.history := by
    intro pending
    obtain ⟨g, offers, requested⟩ := known.pending pending
    refine ⟨g, ?_, offers⟩
    rcases requested with read | seen
    · exact read
    · rcases (tracks.taken g seen).2 with read | waits
      · exact read
      · rw [idle.2] at waits
        cases waits
  cases isLazy : sym.isLazy with
  | true => exact Or.inr (loaded (known.asked referred isLazy))
  | false =>
    cases undefined : sym.isUndefined with
    | false =>
      refine Or.inl ⟨sym, there, ?_⟩
      rw [Symbol.isDefined, isLazy, undefined]
      rfl
    | true =>
      cases pending : sym.pendingArchiveLoad with
      | true => exact Or.inr (loaded pending)
      -- a reference that still waits has had no offer
      | false => exact absurd offered (known.waiting undefined pending firm f)

/-- An object refers to `f`, which the member at offset 8 of an archive defines. -/
def oneMember : Inputs Char where
  isBitcode _ := false
  isEC := false
  pairName _ := none
  allowDuplicateWeak := false
  parse
    | .input 0 => .call (.addUndefined 'f' (some (.input 0)) false) fun _ => .done
    | .input 1 => .call (.addLazyArchive 1 8 'f') fun _ => .done
    | .member 1 8 => .call (.addRegular (.member 1 8) 'f' 0 false) fun _ => .done
    | _ => .done
  parseLazy _ := []

/-- The object and the archive are named to the driver. -/
def oneMemberStart : Loader Char :=
  start (fun _ => false)
    [.calls fun _ _ => .call (.enqueue 0) fun _ => .call (.enqueue 1) fun _ => .done, .run]

def oneMemberLoaded : Loader Char := run oneMember 15 oneMemberStart

end Loader

end LlvmLd.Symtab
