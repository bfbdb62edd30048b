import Mathlib.Data.Finset.Lattice.Fold
import LlvmLd.Lib.Worklist
import LlvmLd.Liveness.Graph

/-!
`markLive`, and when it marks exactly what is reached.

The recursion over import files and their exit thunks has no guard of its own, so it is run to a
depth here, and the loop over the worklist to a number of steps; `markLive` ends if some depth and
some number suffice.
-/

namespace LlvmLd.Liveness

variable {C F T S : Type}

/-! ## Marking -/

abbrev State (C F T : Type) := Worklist.State C (F ⊕ T)

section Marking

variable [DecidableEq C] [DecidableEq F] [DecidableEq T]

def enqueue (c : C) (s : State C F T) : State C F T :=
  if s.live c then s
  else { s with live := Function.update s.live c true, stack := c :: s.stack }

def setFileLive (f : F) (s : State C F T) : State C F T :=
  { s with noted := Function.update s.noted (.inl f) true }

def setThunkLive (t : T) (s : State C F T) : State C F T :=
  { s with noted := Function.update s.noted (.inr t) true }

variable [DecidableEq S] [Fintype S] (g : Graph C F T S)

/-- `addSym`, over what `addImportFile` does. -/
def addSymWith (addImportFile : F → State C F T → Option (State C F T)) (b : S)
    (s : State C F T) : Option (State C F T) :=
  match getDefined g b with
  | none => some s
  | some d =>
    match g.kind d with
    | .regular c => some (enqueue c s)
    | .importData f => addImportFile f s
    | .importThunk f t => (addImportFile f s).map (setThunkLive t)
    | _ => some s

/-- `addImportFile`, to a depth of recursion. -/
def addImportFile : Nat → F → State C F T → Option (State C F T)
  | 0, _, _ => none
  | depth + 1, f, s =>
    let s := setFileLive f s
    match exitThunk g f with
    | none => some s
    | some x => addSymWith g (addImportFile depth) x s

def addSym (depth : Nat) (b : S) (s : State C F T) : Option (State C F T) :=
  addSymWith g (addImportFile g depth) b s

/-- What is done for a section that is taken off the worklist. -/
def visit (depth : Nat) (sc : C) (s : State C F T) : Option (State C F T) := do
  let s ← (g.symbols sc).foldlM (fun s b =>
    match b with
    | none => some s
    | some b => addSym g depth b s) s
  let s := (g.children sc).foldl (fun s c => enqueue c s) s
  match entryThunk g sc with
  | none => some s
  | some x => addSym g depth x s

/-- The loop over the worklist, for a number of steps. -/
def drain (depth : Nat) : Nat → State C F T → Option (State C F T)
  | 0, _ => none
  | fuel + 1, s =>
    match s.stack with
    | [] => some s
    | sc :: rest => (visit g depth sc { s with stack := rest }).bind (drain depth fuel)

/-- The sections that are pushed first; the last one is taken off first. -/
def initial : State C F T where
  live := g.live
  noted := fun _ => false
  stack := (g.getChunks.filter fun c => g.live c && !g.isDWARF c).reverse

/-- `markLive` runs when sections are collected, so import files and thunks start dead. -/
def markLive (depth fuel : Nat) : Option (State C F T) := do
  let s ← g.gcroot.foldlM (fun s b => addSym g depth b s) (initial g)
  drain g depth fuel s

end Marking

/-! ## What the recursion over import files marks -/

section Exits

variable [DecidableEq S] [Fintype S] (g : Graph C F T S)

/-- The nodes that `addSym` marks, over those that `addImportFile` does. -/
def symNodes (fileNodes : F → Option (List (Node C F T))) (b : S) : Option (List (Node C F T)) :=
  match getDefined g b with
  | none => some []
  | some d =>
    match g.kind d with
    | .regular c => some [.chunk c]
    | .importData f => fileNodes f
    | .importThunk f t => (fileNodes f).map (· ++ [.thunk t])
    | _ => some []

def fileNodes : Nat → F → Option (List (Node C F T))
  | 0, _ => none
  | depth + 1, f =>
    match exitThunk g f with
    | none => some [.file f]
    | some x => (symNodes g (fileNodes depth) x).map (.file f :: ·)

/-- The nodes of `addSym` over those of a call for a file that ends. -/
private theorem mem_symNodes (nodesOf : F → Option (List (Node C F T)))
    (exact' : ∀ f items, nodesOf f = some items → ∀ n, n ∈ items ↔ Exits g (.file f) n) (b : S)
    (items : List (Node C F T)) (ended : symNodes g nodesOf b = some items) (n : Node C F T) :
    n ∈ items ↔ ∃ m, Targets g b m ∧ Exits g m n := by
  -- A chunk and a thunk lead on to nothing but themselves; only a file has an exit thunk.
  have chunkExits : ∀ {c : C} {n : Node C F T}, Exits g (.chunk c) n → n = .chunk c := by
    intro c n exits
    cases exits with
    | refl => rfl
  have thunkExits : ∀ {t : T} {n : Node C F T}, Exits g (.thunk t) n → n = .thunk t := by
    intro t n exits
    cases exits with
    | refl => rfl
  simp only [symNodes] at ended
  cases found : getDefined g b with
  | none =>
    simp only [found, Option.some.injEq] at ended
    subst ended
    simp only [List.not_mem_nil, false_iff]
    rintro ⟨m, ⟨d, defined, -⟩, -⟩
    rw [(getDefined_eq_some_iff g b d).mpr defined] at found
    cases found
  | some d =>
    -- The targets of `b` are the nodes of the one symbol that it resolves to.
    have unique : ∀ m, Targets g b m ↔ m ∈ (g.kind d).nodes := by
      intro m
      constructor
      · rintro ⟨d', defined, member⟩
        rw [(getDefined_eq_some_iff g b d').mpr defined, Option.some.injEq] at found
        exact found ▸ member
      · exact fun member => ⟨d, (getDefined_eq_some_iff g b d).mp found, member⟩
    simp only [found] at ended
    simp only [unique]
    cases kind : g.kind d with
    | regular c =>
      simp only [kind, Option.some.injEq] at ended
      subst ended
      simp only [Kind.nodes, List.mem_singleton, exists_eq_left]
      exact ⟨fun same => same ▸ .refl _, chunkExits⟩
    | importData f =>
      simp only [kind] at ended
      simp only [Kind.nodes, List.mem_singleton, exists_eq_left]
      exact exact' f items ended n
    -- A thunk enqueues its file as well, and both exits count.
    | importThunk f t =>
      simp only [kind, Option.map_eq_some_iff] at ended
      obtain ⟨inner, ended, rfl⟩ := ended
      rw [List.mem_append, exact' f inner ended n, List.mem_singleton]
      simp only [Kind.nodes, List.mem_cons, List.not_mem_nil, or_false]
      constructor
      · rintro (exits | same)
        · exact ⟨_, Or.inl rfl, exits⟩
        · exact ⟨_, Or.inr rfl, same ▸ .refl _⟩
      · rintro ⟨m, rfl | rfl, exits⟩
        · exact Or.inl exits
        · exact Or.inr (thunkExits exits)
    | otherDefined | undefined | lazy =>
      simp only [kind, Option.some.injEq] at ended
      subst ended
      simp [Kind.nodes]

private theorem mem_fileNodes (depth : Nat) (f : F) (items : List (Node C F T))
    (ended : fileNodes g depth f = some items) (n : Node C F T) :
    n ∈ items ↔ Exits g (.file f) n := by
  induction depth generalizing f items n with
  | zero => cases ended
  | succ depth ih =>
    rw [fileNodes] at ended
    -- the chain ends at a file without an exit thunk, or goes on at the file of its thunk
    cases thunk : exitThunk g f with
    | none =>
      simp only [thunk, Option.some.injEq] at ended
      subst ended
      rw [List.mem_singleton]
      constructor
      · rintro rfl
        exact .refl _
      · intro exits
        cases exits with
        | refl => rfl
        | step thunk' =>
          rw [thunk] at thunk'
          cases thunk'
    | some x =>
      simp only [thunk, Option.map_eq_some_iff] at ended
      obtain ⟨inner, ended, rfl⟩ := ended
      rw [List.mem_cons, mem_symNodes g _ (fun f items ended n => ih f items ended n) x inner ended n]
      constructor
      · rintro (rfl | ⟨m, target, exits⟩)
        · exact .refl _
        · exact .step thunk target exits
      · intro exits
        cases exits with
        | refl => exact Or.inl rfl
        | step thunk' target rest =>
          rw [thunk] at thunk'
          cases thunk'
          exact Or.inr ⟨_, target, rest⟩

/-! ### When it ends -/

private theorem symNodes_isSome_iff (nodesOf : F → Option (List (Node C F T))) (b : S) :
    (symNodes g nodesOf b).isSome = true ↔ ∀ f, symFile g b = some f → (nodesOf f).isSome = true := by
  simp only [symNodes, symFile]
  cases getDefined g b with
  | none => simp
  | some d => cases kind : g.kind d <;> simp [kind, Kind.importFile]

/-- What a file leads to ends when the recursion does, at some depth. -/
private theorem ends_of_fileNodes (depth : Nat) (f : F)
    (ended : (fileNodes g depth f).isSome = true) : ∃ z, Chains.Ends (nextFile g) f z := by
  induction depth generalizing f with
  | zero => cases ended
  | succ depth ih =>
    rw [fileNodes] at ended
    cases thunk : exitThunk g f with
    | none => exact ⟨f, .refl f, by simp [nextFile, thunk]⟩
    | some x =>
      simp only [thunk, Option.isSome_map, symNodes_isSome_iff] at ended
      cases next : symFile g x with
      | none => exact ⟨f, .refl f, by simp [nextFile, thunk, next]⟩
      | some f' =>
        obtain ⟨z, ends⟩ := ih f' (ended f' next)
        exact ⟨z, ends.head (by simp [nextFile, thunk, next])⟩

private theorem fileNodes_of_ends (f z : F) (ends : Chains.Ends (nextFile g) f z) :
    ∃ least, ∀ depth ≥ least, (fileNodes g depth f).isSome = true := by
  obtain ⟨leads, stop⟩ := ends
  -- from the end of the chain backwards: each file needs one level more than the next
  induction leads using Relation.ReflTransGen.head_induction_on with
  | refl =>
    refine ⟨1, fun depth enough => ?_⟩
    obtain ⟨depth, rfl⟩ : ∃ d, depth = d + 1 := ⟨depth - 1, by omega⟩
    rw [fileNodes]
    cases thunk : exitThunk g z with
    | none => rfl
    | some x =>
      have last : symFile g x = none := by simpa [nextFile, thunk] using stop
      simp [symNodes_isSome_iff, last]
  | @head f f' step _ ih =>
    obtain ⟨least, all⟩ := ih
    refine ⟨least + 1, fun depth enough => ?_⟩
    obtain ⟨depth, rfl⟩ : ∃ d, depth = d + 1 := ⟨depth - 1, by omega⟩
    rw [fileNodes]
    cases thunk : exitThunk g f with
    | none => rfl
    | some x =>
      have next : symFile g x = some f' := by simpa [nextFile, thunk] using step
      simp only [Option.isSome_map, symNodes_isSome_iff, next, Option.some.injEq]
      rintro _ rfl
      exact all depth (by omega)

/-- One depth suffices for all files that do not lead into a cycle. -/
private theorem exists_depth [DecidableEq F] [Fintype F] :
    ∃ depth, ∀ f, ¬ Chains.Cyclic (nextFile g) f → (fileNodes g depth f).isSome = true := by
  have each : ∀ f, ∃ least, ¬ Chains.Cyclic (nextFile g) f →
      ∀ depth ≥ least, (fileNodes g depth f).isSome = true := by
    intro f
    have enough : (Finset.univ : Finset F).toList.length < Fintype.card F + 1 := by simp
    rcases Chains.follow_spec (Finset.univ : Finset F).toList
      (fun b c (_ : nextFile g b = some c) => by simp) enough f with ⟨z, -, ends⟩ | ⟨-, cyclic⟩
    · obtain ⟨least, all⟩ := fileNodes_of_ends g f z ends
      exact ⟨least, fun _ => all⟩
    · exact ⟨0, fun acyclic => absurd cyclic acyclic⟩
  choose least all using each
  exact ⟨Finset.univ.sup least,
    fun f acyclic => all f acyclic _ (Finset.le_sup (Finset.mem_univ f))⟩

def listNodes (depth : Nat) : List (Option S) → Option (List (Node C F T))
  | [] => some []
  | none :: rest => listNodes depth rest
  | some b :: rest =>
    (symNodes g (fileNodes g depth) b).bind fun items =>
      (listNodes depth rest).map (items ++ ·)

private theorem mem_listNodes (depth : Nat) (l : List (Option S)) (items : List (Node C F T))
    (ended : listNodes g depth l = some items) (n : Node C F T) :
    n ∈ items ↔ ∃ b, some b ∈ l ∧ ∃ m, Targets g b m ∧ Exits g m n := by
  induction l generalizing items with
  | nil =>
    cases ended
    simp
  | cons b rest ih =>
    -- a null symbol adds nothing
    cases b with
    | none =>
      rw [ih items ended]
      simp
    | some b =>
      simp only [listNodes, Option.bind_eq_some_iff, Option.map_eq_some_iff] at ended
      obtain ⟨first, here, later, there, rfl⟩ := ended
      rw [List.mem_append, ih later there,
        mem_symNodes g _ (fun f items ended n => mem_fileNodes g depth f items ended n) b first here n]
      simp only [List.mem_cons, Option.some.injEq]
      constructor
      · rintro (exits | ⟨c, member, exits⟩)
        · exact ⟨b, Or.inl rfl, exits⟩
        · exact ⟨c, Or.inr member, exits⟩
      · rintro ⟨c, rfl | member, exits⟩
        · exact Or.inl exits
        · exact Or.inr ⟨c, member, exits⟩

private theorem listNodes_isSome_iff (depth : Nat) (l : List (Option S)) :
    (listNodes g depth l).isSome = true ↔
      ∀ b, some b ∈ l → (symNodes g (fileNodes g depth) b).isSome = true := by
  induction l with
  | nil => simp [listNodes]
  | cons b rest ih =>
    cases b with
    | none => simp [listNodes, ih]
    | some b =>
      cases here : symNodes g (fileNodes g depth) b with
      | none =>
        simp only [listNodes, here, Option.bind_none, Option.isSome_none, Bool.false_eq_true,
          false_iff, not_forall]
        exact ⟨b, by simp, by simp [here]⟩
      | some items =>
        simp only [listNodes, here, Option.bind_some, Option.isSome_map, ih, List.mem_cons,
          Option.some.injEq]
        constructor
        · rintro all c (rfl | member)
          · simp [here]
          · exact all c member
        · exact fun all c member => all c (Or.inr member)

end Exits

/-! ### Sections -/

section Reach

variable [DecidableEq C] [DecidableEq S] [Fintype S] (g : Graph C F T S)

/-- The nodes that are marked when a section is taken off the worklist. -/
def sectionNodes (depth : Nat) (c : C) : Option (List (Node C F T)) :=
  (listNodes g depth (g.symbols c)).bind fun items =>
    (listNodes g depth [entryThunk g c]).map fun entry =>
      items ++ (g.children c).map .chunk ++ entry

private theorem mem_sectionNodes (depth : Nat) (c : C) (items : List (Node C F T))
    (ended : sectionNodes g depth c = some items) (n : Node C F T) :
    n ∈ items ↔ ∃ m, Refers g c m ∧ Exits g m n := by
  simp only [sectionNodes, Option.bind_eq_some_iff, Option.map_eq_some_iff] at ended
  obtain ⟨symbols, here, entry, there, rfl⟩ := ended
  rw [List.mem_append, List.mem_append, mem_listNodes g depth _ symbols here,
    mem_listNodes g depth _ entry there]
  constructor
  · rintro ((⟨b, member, m, target, exits⟩ | child) | ⟨x, member, m, target, exits⟩)
    · exact ⟨m, .symbol member target, exits⟩
    · obtain ⟨d, member, rfl⟩ := List.mem_map.mp child
      exact ⟨_, .child member, .refl _⟩
    · exact ⟨m, .entry (List.mem_singleton.mp member).symm target, exits⟩
  · rintro ⟨m, refers, exits⟩
    -- by the kind of edge: a symbol, an associated child or the entry thunk
    cases refers with
    | symbol member target => exact Or.inl (Or.inl ⟨_, member, m, target, exits⟩)
    | @child d member =>
      cases exits with
      | refl => exact Or.inl (Or.inr (List.mem_map.mpr ⟨d, member, rfl⟩))
    | entry thunk target => exact Or.inr ⟨_, by simp [thunk], m, target, exits⟩

end Reach

/-! ## The calls as lists of marks -/

section Calls

open Worklist (markAll markAll_append)

variable [DecidableEq C] [DecidableEq F] [DecidableEq T] [DecidableEq S] [Fintype S]
  (g : Graph C F T S)

omit [DecidableEq S] [Fintype S] in
private theorem enqueue_eq (c : C) (s : State C F T) : enqueue c s = markAll s [Node.chunk c] := rfl

private theorem addSymWith_eq (call : F → State C F T → Option (State C F T))
    (nodesOf : F → Option (List (Node C F T)))
    (same : ∀ f s, call f s = (nodesOf f).map (markAll s)) (b : S) (s : State C F T) :
    addSymWith g call b s = (symNodes g nodesOf b).map (markAll s) := by
  simp only [addSymWith, symNodes]
  cases getDefined g b with
  | none => rfl
  | some d =>
    cases kind : g.kind d with
    | importData f => simp only [kind, same]
    | importThunk f t =>
      simp only [kind, same, Option.map_map]
      congr 1
      funext items
      exact (markAll_append s items [Node.thunk t]).symm
    | _ =>
      simp only [kind]
      rfl

private theorem addImportFile_eq (depth : Nat) (f : F) (s : State C F T) :
    addImportFile g depth f s = (fileNodes g depth f).map (markAll s) := by
  induction depth generalizing f s with
  | zero => rfl
  | succ depth ih =>
    rw [addImportFile, fileNodes]
    cases exitThunk g f with
    | none => rfl
    | some x =>
      simp only [addSymWith_eq g _ _ ih, Option.map_map]
      rfl

private theorem addSym_eq (depth : Nat) (b : S) (s : State C F T) :
    addSym g depth b s = (symNodes g (fileNodes g depth) b).map (markAll s) :=
  addSymWith_eq g _ _ (addImportFile_eq g depth) b s

private theorem addSyms_eq (depth : Nat) (l : List (Option S)) (s : State C F T) :
    l.foldlM (fun s b =>
      match b with
      | none => some s
      | some b => addSym g depth b s) s = (listNodes g depth l).map (markAll s) := by
  induction l generalizing s with
  | nil => rfl
  | cons b rest ih =>
    rw [List.foldlM_cons]
    cases b with
    | none => exact ih s
    | some b =>
      show (addSym g depth b s).bind (fun s => rest.foldlM _ s) = _
      rw [addSym_eq, listNodes]
      cases symNodes g (fileNodes g depth) b with
      | none => rfl
      | some items =>
        rw [Option.map_some, Option.bind_some, Option.bind_some, ih, Option.map_map]
        congr 1
        funext later
        -- marking one list after the other is marking both
        exact (markAll_append s items later).symm

private theorem visit_eq (depth : Nat) (sc : C) (s : State C F T) :
    visit g depth sc s = (sectionNodes g depth sc).map (markAll s) := by
  have children : ∀ s : State C F T, (g.children sc).foldl (fun s c => enqueue c s) s =
      markAll s ((g.children sc).map Node.chunk) := by
    intro s
    simp only [enqueue_eq, markAll, List.foldl_map]
    rfl
  rw [visit, addSyms_eq, sectionNodes]
  cases listNodes g depth (g.symbols sc) with
  | none => rfl
  | some items =>
    simp only [Option.map_some, Option.bind_eq_bind, Option.bind_some, children]
    -- the three loops of a visit mark one list, in this order
    have whole : markAll s ∘ (fun entry => items ++ (g.children sc).map Node.chunk ++ entry) =
        markAll (markAll (markAll s items) ((g.children sc).map Node.chunk)) := by
      funext entry
      rw [Function.comp_apply, markAll_append, markAll_append]
    rw [Option.map_map, whole]
    cases entryThunk g sc with
    | none => rfl
    | some x =>
      simp only [addSym_eq, listNodes]
      cases symNodes g (fileNodes g depth) x <;> simp

private theorem drain_eq (depth fuel : Nat) (s : State C F T) :
    drain g depth fuel s = Worklist.run (sectionNodes g depth) fuel s := by
  induction fuel generalizing s with
  | zero => rfl
  | succ fuel ih =>
    rw [drain, Worklist.run]
    cases s.stack with
    | nil => rfl
    | cons sc rest =>
      simp only [visit_eq]
      cases sectionNodes g depth sc with
      | none => rfl
      | some items => exact ih _

/-- The nodes marked for the gc roots. -/
def rootNodes (depth : Nat) : Option (List (Node C F T)) := listNodes g depth (g.gcroot.map some)

private theorem markLive_eq (depth fuel : Nat) :
    markLive g depth fuel = (rootNodes g depth).bind fun items =>
      Worklist.run (sectionNodes g depth) fuel (markAll (initial g) items) := by
  have roots := addSyms_eq g depth (g.gcroot.map some) (initial g)
  rw [List.foldlM_map] at roots
  rw [markLive, rootNodes]
  simp only [roots, drain_eq]
  cases listNodes g depth (g.gcroot.map some) <;> rfl

end Calls

/-! ## Exactly what is reached -/

section Result

open Worklist (markAll Entered)

variable [DecidableEq C] [DecidableEq F] [DecidableEq T] [DecidableEq S] [Fintype S]
  (g : Graph C F T S)

/-- `markLive` ends, with every section alive that was before or is reached, and with exactly the files
and thunks of imports that are reached. -/
def MarksReached : Prop :=
  ∃ depth fuel t, markLive g depth fuel = some t ∧
    (∀ c, t.live c = true ↔ g.live c = true ∨ Reached g (.chunk c)) ∧
    (∀ f, t.noted (.inl f) = true ↔ Reached g (.file f)) ∧
    ∀ x, t.noted (.inr x) = true ↔ Reached g (.thunk x)

def StartsLive (n : Node C F T) : Prop := ∃ c, n = .chunk c ∧ g.live c = true

/-- No import file that is reached leads into a cycle of import files. -/
def NoCycle : Prop := ∀ f, Reached g (.file f) → ¬ Chains.Cyclic (nextFile g) f

/-- A DWARF section that does not start live but is reached refers only to what is alive anyway. -/
def DwarfHarmless : Prop :=
  ∀ c, Reached g (.chunk c) → g.isDWARF c = true → g.live c = false →
    ∀ n, Refers g c n → StartsLive g n ∨ Reached g n

private def Marked (t : State C F T) : Node C F T → Prop
  | .inl c => t.live c = true
  | .inr b => t.noted b = true

omit [DecidableEq C] [DecidableEq F] [DecidableEq T] in
private theorem exits_tail {n : Node C F T} {f : F} {x : S} {m : Node C F T}
    (exits : Exits g n (.file f)) (thunk : exitThunk g f = some x) (target : Targets g x m) :
    Exits g n m := by
  generalize last : (Node.file f : Node C F T) = l at exits
  induction exits with
  | refl =>
    subst last
    exact .step thunk target (.refl m)
  | step thunk' target' _ ih => exact .step thunk' target' (ih last)

omit [DecidableEq C] [DecidableEq F] [DecidableEq T] in
private theorem exits_startsLive {m n : Node C F T} (live : StartsLive g m) (exits : Exits g m n) :
    n = m := by
  obtain ⟨c, rfl, -⟩ := live
  cases exits with
  | refl => rfl

omit [DecidableEq C] [DecidableEq F] [DecidableEq T] [DecidableEq S] [Fintype S] in
private theorem mem_initial_stack (c : C) :
    c ∈ (initial g).stack ↔ c ∈ g.getChunks ∧ g.live c = true ∧ g.isDWARF c = false := by
  simp [initial]

section Run

variable {g} {depth fuel : Nat} {roots : List (Node C F T)} {t : State C F T}

omit [DecidableEq S] [Fintype S] in
private theorem started_stack (c : C) :
    c ∈ (markAll (initial g) roots).stack ↔
      c ∈ (initial g).stack ∨ (Node.chunk c ∈ roots ∧ g.live c = false) :=
  Worklist.markAll_stack (initial g) roots c

omit [DecidableEq S] [Fintype S] in
private theorem started_live (c : C) (member : c ∈ (markAll (initial g) roots).stack) :
    (markAll (initial g) roots).live c = true := by
  rw [Worklist.markAll_live]
  rcases (started_stack c).mp member with before | ⟨found, -⟩
  · exact Or.inl ((mem_initial_stack g c).mp before).2.1
  · exact Or.inr found

/-- A section that is entered starts live in the list of chunks, or is found dead. -/
private theorem entered_cases {c : C}
    (entered : Entered (sectionNodes g depth) (markAll (initial g) roots) c) :
    c ∈ (initial g).stack ∨ g.live c = false := by
  cases entered with
  | stacked member =>
    rcases (started_stack c).mp member with before | ⟨-, dead⟩
    · exact Or.inl before
    · exact Or.inr dead
  | found _ _ _ fresh =>
    right
    have live := Worklist.markAll_live (initial g) roots c
    cases old : g.live c with
    | false => rfl
    | true =>
      have : (markAll (initial g) roots).live c = true := live.mpr (Or.inl old)
      simp [fresh] at this

/-- What is marked at the end started live, or was found for the gc roots or for an entered
section. -/
private theorem marked_iff
    (ran : Worklist.run (sectionNodes g depth) fuel (markAll (initial g) roots) = some t)
    (n : Node C F T) :
    Marked t n ↔ StartsLive g n ∨ n ∈ roots ∨
      ∃ c items, Entered (sectionNodes g depth) (markAll (initial g) roots) c ∧
        sectionNodes g depth c = some items ∧ n ∈ items := by
  obtain ⟨-, live, noted⟩ := Worklist.run_exact ran started_live
  cases n with
  -- A node that is only noted is not expanded.
  | inr b =>
    refine (noted b).trans ?_
    rw [Worklist.markAll_noted]
    constructor
    · rintro ((old | found) | later)
      · cases old
      · exact Or.inr (Or.inl found)
      · exact Or.inr (Or.inr later)
    · rintro (⟨c, same, -⟩ | found | later)
      · cases same
      · exact Or.inl (Or.inr found)
      · exact Or.inr later
  -- A section is live from the start, or was stacked, or was found when another was expanded.
  | inl c =>
    refine (live c).trans ?_
    rw [Worklist.markAll_live]
    constructor
    · rintro ((old | found) | entered)
      · exact Or.inl ⟨c, rfl, old⟩
      · exact Or.inr (Or.inl found)
      · cases entered with
        | stacked member =>
          rcases (started_stack c).mp member with before | ⟨found, -⟩
          · exact Or.inl ⟨c, rfl, ((mem_initial_stack g c).mp before).2.1⟩
          · exact Or.inr (Or.inl found)
        | found before expanded member => exact Or.inr (Or.inr ⟨_, _, before, expanded, member⟩)
    · rintro (⟨d, same, old⟩ | found | ⟨a, items, before, expanded, member⟩)
      · cases same
        exact Or.inl (Or.inl old)
      · exact Or.inl (Or.inr found)
      · cases fresh : (markAll (initial g) roots).live c with
        | true => exact Or.inl ((Worklist.markAll_live (initial g) roots c).mp fresh)
        | false => exact Or.inr (.found before expanded member fresh)

/-- A section that starts dead and is marked has been entered. -/
private theorem entered_of_marked
    (ran : Worklist.run (sectionNodes g depth) fuel (markAll (initial g) roots) = some t) (c : C)
    (dead : g.live c = false) (marked : Marked t (Node.chunk c)) :
    Entered (sectionNodes g depth) (markAll (initial g) roots) c := by
  by_cases inRoot : Node.chunk c ∈ roots
  · exact .stacked ((started_stack c).mpr (Or.inr ⟨inRoot, dead⟩))
  -- a chunk that is no root was found, and it was not live at that time
  · rcases (marked_iff ran _).mp marked with
      ⟨d, same, live⟩ | found | ⟨a, items, before, expanded, member⟩
    · cases same
      simp [dead] at live
    · exact absurd found inRoot
    · refine .found before expanded member ?_
      have live := Worklist.markAll_live (initial g) roots c
      cases still : (markAll (initial g) roots).live c with
      | false => rfl
      | true =>
        rcases live.mp still with early | found
        · rw [show (initial g).live c = g.live c from rfl, dead] at early
          cases early
        · exact absurd found inRoot

/-- Whatever is reached is marked. -/
private theorem marked_of_reached (rooted : rootNodes g depth = some roots)
    (ran : Worklist.run (sectionNodes g depth) fuel (markAll (initial g) roots) = some t)
    {n : Node C F T} (reached : Reached g n) : Marked t n := by
  have marked := fun n => marked_iff ran n
  have inRoots := mem_listNodes g depth _ roots rooted
  -- by the path: each edge is one that the expansion of a chunk, or of a thunk's chain, follows
  induction reached with
  | root live => exact (marked _).mpr (Or.inl ⟨_, rfl, live⟩)
  | gcroot member target =>
    refine (marked _).mpr (Or.inr (Or.inl ((inRoots _).mpr ?_)))
    exact ⟨_, List.mem_map_of_mem member, _, target, .refl _⟩
  | @refers c n _ follows refers ih =>
    have entered : Entered (sectionNodes g depth) (markAll (initial g) roots) c := by
      cases old : g.live c with
      | true =>
        have listed : c ∈ g.getChunks := follows.2.resolve_right (by simp [old])
        exact .stacked ((started_stack c).mpr
          (Or.inl ((mem_initial_stack g c).mpr ⟨listed, old, follows.1⟩)))
      | false => exact entered_of_marked ran c old ih
    obtain ⟨items, expanded⟩ := (Worklist.run_exact ran started_live).1 c entered
    refine (marked n).mpr (Or.inr (Or.inr ⟨c, items, entered, expanded, ?_⟩))
    exact (mem_sectionNodes g depth c items expanded n).mpr ⟨n, refers, .refl n⟩
  | @exit f x n _ thunk target ih =>
    rcases (marked _).mp ih with ⟨d, same, -⟩ | found | ⟨a, items, before, expanded, member⟩
    · cases same
    · obtain ⟨b, mem, m, first, exits⟩ := (inRoots _).mp found
      exact (marked n).mpr (Or.inr (Or.inl
        ((inRoots n).mpr ⟨b, mem, m, first, exits_tail g exits thunk target⟩)))
    · obtain ⟨m, refers, exits⟩ := (mem_sectionNodes g depth a items expanded _).mp member
      exact (marked n).mpr (Or.inr (Or.inr ⟨a, items, before, expanded,
        (mem_sectionNodes g depth a items expanded n).mpr
          ⟨m, refers, exits_tail g exits thunk target⟩⟩))

/-! ### What is marked is reached -/

/-- What an entered section refers to starts live or is reached. -/
private theorem refers_reached (harmless : DwarfHarmless g) {c : C}
    (entered : Entered (sectionNodes g depth) (markAll (initial g) roots) c)
    (reached : Reached g (.chunk c)) {m : Node C F T} (refers : Refers g c m) :
    StartsLive g m ∨ Reached g m := by
  rcases entered_cases entered with stacked | dead
  · obtain ⟨listed, -, plain⟩ := (mem_initial_stack g c).mp stacked
    exact Or.inr (.refers reached ⟨plain, Or.inl listed⟩ refers)
  · cases dwarf : g.isDWARF c with
    | true => exact harmless c reached dwarf dead m refers
    | false => exact Or.inr (.refers reached ⟨dwarf, Or.inr dead⟩ refers)

omit [DecidableEq F] [DecidableEq T] in
private theorem root_reached (rooted : rootNodes g depth = some roots) {n : Node C F T}
    (member : n ∈ roots) : Reached g n := by
  obtain ⟨b, mem, m, target, exits⟩ := (mem_listNodes g depth _ roots rooted n).mp member
  obtain ⟨b', mem', same⟩ := List.mem_map.mp mem
  cases same
  exact (Reached.gcroot mem' target).exits g exits

private theorem entered_reached (harmless : DwarfHarmless g)
    (rooted : rootNodes g depth = some roots) {c : C}
    (entered : Entered (sectionNodes g depth) (markAll (initial g) roots) c) :
    Reached g (.chunk c) := by
  -- by the worklist's history: from the roots, or from what an earlier chunk refers to
  induction entered with
  | @stacked c member =>
    rcases (started_stack c).mp member with before | ⟨found, -⟩
    · obtain ⟨listed, live, plain⟩ := (mem_initial_stack g c).mp before
      exact .root live ⟨plain, Or.inl listed⟩
    · exact root_reached rooted found
  | @found a b items before expanded member fresh ih =>
    obtain ⟨m, refers, exits⟩ := (mem_sectionNodes g depth a items expanded _).mp member
    rcases refers_reached harmless before ih refers with live | reached
    · have same := exits_startsLive g live exits
      obtain ⟨d, rfl, isLive⟩ := live
      cases same
      have : (markAll (initial g) roots).live b = true :=
        (Worklist.markAll_live (initial g) roots b).mpr (Or.inl isLive)
      simp [fresh] at this
    · exact reached.exits g exits

private theorem reached_of_marked (harmless : DwarfHarmless g)
    (rooted : rootNodes g depth = some roots)
    (ran : Worklist.run (sectionNodes g depth) fuel (markAll (initial g) roots) = some t)
    {n : Node C F T} (marked : Marked t n) : StartsLive g n ∨ Reached g n := by
  rcases (marked_iff ran n).mp marked with live | found | ⟨c, items, entered, expanded, member⟩
  · exact Or.inl live
  · exact Or.inr (root_reached rooted found)
  · obtain ⟨m, refers, exits⟩ := (mem_sectionNodes g depth c items expanded n).mp member
    rcases refers_reached harmless entered (entered_reached harmless rooted entered) refers with
      live | reached
    · rw [exits_startsLive g live exits]
      exact Or.inl live
    · exact Or.inr (reached.exits g exits)

end Run

/-! ### Ending -/

omit [DecidableEq C] [DecidableEq F] [DecidableEq T] in
private theorem targets_file_iff (b : S) (f : F) :
    Targets g b (Node.file f : Node C F T) ↔ symFile g b = some f := by
  simp only [Targets, symFile]
  rw [Option.bind_eq_some_iff]
  refine exists_congr fun d => ?_
  rw [getDefined_eq_some_iff]
  refine and_congr_right fun _ => ?_
  cases g.kind d <;> simp [Kind.nodes, Kind.importFile, Node.file, Node.chunk, Node.thunk, eq_comm]

omit [DecidableEq C] [DecidableEq F] [DecidableEq T] in
private theorem rootNodes_isSome_iff (depth : Nat) :
    (rootNodes g depth).isSome = true ↔
      ∀ b ∈ g.gcroot, ∀ f, Targets g b (Node.file f : Node C F T) →
        (fileNodes g depth f).isSome = true := by
  simp only [rootNodes, listNodes_isSome_iff, symNodes_isSome_iff, targets_file_iff, List.mem_map,
    Option.some.injEq, exists_eq_right]

omit [DecidableEq F] [DecidableEq T] in
private theorem sectionNodes_isSome_iff (depth : Nat) (c : C) :
    (sectionNodes g depth c).isSome = true ↔
      ∀ f, Refers g c (Node.file f) → (fileNodes g depth f).isSome = true := by
  -- the children need no chain, so only the two lists of symbols can fail
  have both : (sectionNodes g depth c).isSome = true ↔
      (listNodes g depth (g.symbols c)).isSome = true ∧
        (listNodes g depth [entryThunk g c]).isSome = true := by
    simp only [sectionNodes]
    cases listNodes g depth (g.symbols c) <;> simp
  rw [both, listNodes_isSome_iff, listNodes_isSome_iff]
  simp only [symNodes_isSome_iff, ← targets_file_iff]
  constructor
  · rintro ⟨symbols, entry⟩ f refers
    cases refers with
    | symbol member target => exact symbols _ member f target
    | entry thunk target => exact entry _ (by simp [thunk]) f target
  · intro all
    refine ⟨fun b member f target => all f (.symbol member target), fun x member f target => ?_⟩
    exact all f (.entry (List.mem_singleton.mp member).symm target)

omit [DecidableEq C] [DecidableEq F] [DecidableEq T] in
private theorem leads_of_exits {m : Node C F T} {f f' : F} (exits : Exits g m (Node.file f'))
    (start : m = Node.file f) : Chains.Leads (nextFile g) f f' := by
  generalize last : (Node.file f' : Node C F T) = l at exits
  induction exits generalizing f with
  | refl n =>
    cases last.trans start
    exact .refl _
  | @step f₀ x n _ thunk target rest ih =>
    cases start
    cases rest with
    | refl =>
      subst last
      have next := (targets_file_iff g x f').mp target
      exact .head (by simp [nextFile, thunk, next]) (.refl f')
    | @step f₁ =>
      have next := (targets_file_iff g x f₁).mp target
      exact .head (by simp [nextFile, thunk, next]) (ih rfl last)

omit [DecidableEq C] [DecidableEq F] [DecidableEq T] in
/-- A file that is marked on a path from a file at which the recursion ends leads into no cycle. -/
private theorem acyclic_of_exits {depth : Nat} {m : Node C F T} {f : F}
    (ended : ∀ f₀, m = Node.file f₀ → (fileNodes g depth f₀).isSome = true)
    (exits : Exits g m (Node.file f)) : ¬ Chains.Cyclic (nextFile g) f := by
  intro cyclic
  obtain ⟨f₀, start⟩ : ∃ f₀, m = Node.file f₀ := by
    cases exits with
    | refl => exact ⟨f, rfl⟩
    | @step f₀ => exact ⟨f₀, rfl⟩
  obtain ⟨z, ends⟩ := ends_of_fileNodes g depth f₀ (ended f₀ start)
  have leads := leads_of_exits g exits start
  refine ends.not_cyclic ?_
  obtain ⟨b, c, there, step, back⟩ := cyclic
  exact ⟨b, c, leads.trans there, step, back⟩

private theorem marks_cases (marks : MarksReached g) :
    ∃ depth fuel roots t, rootNodes g depth = some roots ∧
      Worklist.run (sectionNodes g depth) fuel (markAll (initial g) roots) = some t ∧
      ∀ n, Marked t n ↔ StartsLive g n ∨ Reached g n := by
  obtain ⟨depth, fuel, t, ran, live, files, thunks⟩ := marks
  rw [markLive_eq, Option.bind_eq_some_iff] at ran
  obtain ⟨roots, rooted, ran⟩ := ran
  refine ⟨depth, fuel, roots, t, rooted, ran, fun n => ?_⟩
  have notLive : ∀ b : F ⊕ T, ¬ StartsLive g (.inr b) := by
    rintro b ⟨c, same, -⟩
    cases same
  rcases n with c | f | x
  · refine (live c).trans (or_congr_left ?_)
    exact ⟨fun isLive => ⟨c, rfl, isLive⟩, fun ⟨d, same, isLive⟩ => by cases same; exact isLive⟩
  · exact (files f).trans (or_iff_right (notLive _)).symm
  · exact (thunks x).trans (or_iff_right (notLive _)).symm

private theorem noCycle_of_marks (marks : MarksReached g) : NoCycle g := by
  obtain ⟨depth, fuel, roots, t, rooted, ran, marked⟩ := marks_cases g marks
  intro f reached
  have expands := (Worklist.run_exact ran started_live).1
  -- the file was found by an expansion that has ended, and so has the chain from it
  rcases (marked_iff ran _).mp ((marked _).mpr (Or.inr reached)) with
    ⟨c, same, -⟩ | found | ⟨c, items, entered, expanded, member⟩
  · cases same
  · obtain ⟨b, mem, m, target, exits⟩ := (mem_listNodes g depth _ roots rooted _).mp found
    obtain ⟨b', mem', same⟩ := List.mem_map.mp mem
    cases same
    have ended : ∀ f₀, m = Node.file f₀ → (fileNodes g depth f₀).isSome = true := by
      rintro f₀ rfl
      exact (rootNodes_isSome_iff g depth).mp (by simp [rooted]) _ mem' f₀ target
    exact acyclic_of_exits g ended exits
  · obtain ⟨m, refers, exits⟩ := (mem_sectionNodes g depth c items expanded _).mp member
    have ended : ∀ f₀, m = Node.file f₀ → (fileNodes g depth f₀).isSome = true := by
      rintro f₀ rfl
      exact (sectionNodes_isSome_iff g depth c).mp (by simp [expanded]) f₀ refers
    exact acyclic_of_exits g ended exits

private theorem harmless_of_marks (marks : MarksReached g) : DwarfHarmless g := by
  obtain ⟨depth, fuel, roots, t, rooted, ran, marked⟩ := marks_cases g marks
  intro c reached _ dead n refers
  have entered := entered_of_marked ran c dead ((marked _).mpr (Or.inr reached))
  obtain ⟨items, expanded⟩ := (Worklist.run_exact ran started_live).1 c entered
  refine (marked n).mp ((marked_iff ran n).mpr (Or.inr (Or.inr ⟨c, items, entered, expanded, ?_⟩)))
  exact (mem_sectionNodes g depth c items expanded n).mpr ⟨n, refers, .refl n⟩

private theorem marks_of_noCycle [Fintype C] [Fintype F] (acyclic : NoCycle g)
    (harmless : DwarfHarmless g) : MarksReached g := by
  obtain ⟨depth, ended⟩ := exists_depth g
  obtain ⟨roots, rooted⟩ := Option.isSome_iff_exists.mp ((rootNodes_isSome_iff g depth).mpr
    fun b member f target => ended f (acyclic f (.gcroot member target)))
  -- chains of exit thunks end, so every chunk that is entered can be expanded
  have expands : ∀ c, Entered (sectionNodes g depth) (markAll (initial g) roots) c →
      ∃ items, sectionNodes g depth c = some items := by
    intro c entered
    refine Option.isSome_iff_exists.mp ((sectionNodes_isSome_iff g depth c).mpr fun f refers => ?_)
    rcases refers_reached harmless entered (entered_reached harmless rooted entered) refers with
      ⟨d, same, -⟩ | reached
    · cases same
    · exact ended f (acyclic f reached)
  obtain ⟨fuel, t, ran⟩ : ∃ fuel t,
      Worklist.run (sectionNodes g depth) fuel (markAll (initial g) roots) = some t :=
    ⟨_, Worklist.run_ends (markAll (initial g) roots) expands _ (Nat.lt_succ_self _)⟩
  have marked : ∀ n, Marked t n ↔ StartsLive g n ∨ Reached g n := fun n =>
    ⟨reached_of_marked harmless rooted ran,
      fun either => either.elim (fun live => (marked_iff ran n).mpr (Or.inl live))
        (marked_of_reached rooted ran)⟩
  -- what is marked, by kind of node
  refine ⟨depth, fuel, t, ?_, fun c => ?_, fun f => ?_, fun x => ?_⟩
  · rw [markLive_eq, rooted, Option.bind_some]
    exact ran
  · refine (marked (Node.chunk c)).trans (or_congr_left ?_)
    exact ⟨fun ⟨d, same, live⟩ => by cases same; exact live, fun live => ⟨c, rfl, live⟩⟩
  · refine (marked (Node.file f)).trans (or_iff_right ?_)
    rintro ⟨c, same, -⟩
    cases same
  · refine (marked (Node.thunk x)).trans (or_iff_right ?_)
    rintro ⟨c, same, -⟩
    cases same

/-- `markLive` ends with exactly what is reached, if and only if no reached import file leads into
a cycle of exit thunks and no DWARF section that is found dead keeps anything alive by itself. -/
theorem markLive_exact_iff [Fintype C] [Fintype F] :
    MarksReached g ↔ NoCycle g ∧ DwarfHarmless g :=
  ⟨fun marks => ⟨noCycle_of_marks g marks, harmless_of_marks g marks⟩,
    fun ⟨acyclic, harmless⟩ => marks_of_noCycle g acyclic harmless⟩

end Result

/-! ### A self exit, and a function that only a DWARF section refers to -/

/-- A gc root is imported, and the exit thunk of the import is declared to be its own thunk. -/
def selfExit : Graph Empty Unit Unit Unit where
  kind := fun _ => .importThunk () ()
  isAntiDep := fun _ => false
  value := fun _ => 0
  getChunks := []
  live := fun _ => true
  isDWARF := fun _ => false
  isCOMDAT := fun _ => false
  isEC := fun _ => false
  symbols := fun _ => []
  children := fun _ => []
  file := fun _ => { impchkThunk := true, thunkSym := some (), impECSym := none }
  gcroot := [()]
  arm64EC := true
  entryThunks := []
  exitThunks := [(some (), some ())]

/-- A function, its associative DWARF section, and a function that only the DWARF section refers
to. -/
def dwarfOnly : Graph (Fin 3) Empty Empty (Fin 3) where
  kind := fun s => .regular s
  isAntiDep := fun _ => false
  value := fun _ => 0
  getChunks := [0, 1, 2]
  live := fun _ => false
  isDWARF := fun c => c = 1
  isCOMDAT := fun _ => true
  isEC := fun _ => false
  symbols := fun c => if c = 1 then [some 2] else []
  children := fun c => if c = 0 then [1] else []
  file := fun f => f.elim
  gcroot := [0]
  arm64EC := false
  entryThunks := []
  exitThunks := []

private theorem selfExit_next : nextFile selfExit () = some () := by decide

private theorem selfExit_cycle : ¬ NoCycle selfExit := by
  intro acyclic
  have target : Targets selfExit () (Node.file ()) :=
    (targets_file_iff selfExit () ()).mpr (by decide)
  refine acyclic () (.gcroot (b := ()) (by decide) target) ⟨(), (), .refl (), selfExit_next, .refl ()⟩

private theorem dwarfOnly_targets {s : Fin 3} {n : Node (Fin 3) Empty Empty}
    (target : Targets dwarfOnly s n) : n = .chunk s := by
  obtain ⟨d, defined, member⟩ := target
  cases (definedBy_of_defined dwarfOnly s d rfl).mp defined
  simpa [dwarfOnly, Kind.nodes] using member

private theorem dwarfOnly_reached {n : Node (Fin 3) Empty Empty} (reached : Reached dwarfOnly n) :
    n = .chunk 0 ∨ n = .chunk 1 := by
  induction reached with
  | root live => cases live
  | gcroot member target =>
    cases List.mem_singleton.mp member
    exact Or.inl (dwarfOnly_targets target)
  | @refers c n _ follows refers ih =>
    -- only the DWARF section has relocations, and it is not followed
    have first : c = 0 := by
      rcases ih with same | same
      · cases same
        rfl
      · cases same
        cases follows.1
    subst first
    cases refers with
    | symbol member => cases member
    | child member =>
      cases List.mem_singleton.mp member
      exact Or.inr rfl
    | entry thunk => cases thunk
  | @exit f => exact f.elim

/-- `markLive` never ends on the first link, and keeps a function alive for a DWARF section on the
second. -/
theorem unguarded_markLive : ¬ MarksReached selfExit ∧ ¬ MarksReached dwarfOnly := by
  refine ⟨fun marks => selfExit_cycle (noCycle_of_marks _ marks), fun marks => ?_⟩
  have regular : ∀ s : Fin 3, Targets dwarfOnly s (Node.chunk s) :=
    fun s => ⟨s, .self rfl, List.mem_singleton.mpr rfl⟩
  have function : Reached dwarfOnly (Node.chunk 0) :=
    .gcroot (List.mem_singleton.mpr rfl) (regular 0)
  have debug : Reached dwarfOnly (Node.chunk 1) :=
    .refers function ⟨rfl, Or.inr rfl⟩ (.child (List.mem_singleton.mpr rfl))
  have kept := harmless_of_marks _ marks 1 debug rfl rfl (Node.chunk 2)
    (.symbol (List.mem_singleton.mpr rfl) (regular 2))
  rcases kept with ⟨c, -, live⟩ | reached
  · cases live
  · rcases dwarfOnly_reached reached with same | same <;> cases same

end LlvmLd.Liveness
