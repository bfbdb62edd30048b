import LlvmLd.Tools.Payload

/-!
What `materialize_llvm_payload.py` leaves below `--output`, and when `verify.py` accepts it. Nothing
compares a patched file with its locked hash, and a patched file that is not locked is dropped.
-/

namespace LlvmLd.Tools.Payload

variable {H : Type}

/-! ### Dictionaries -/

private theorem lookup_of_mem {β : Type} (l : List (Str × β)) (distinct : (l.map Prod.fst).Nodup)
    (key : Str) (value : β) (member : (key, value) ∈ l) : l.lookup key = some value := by
  induction l with
  | nil => cases member
  | cons item l ih =>
    obtain ⟨key', value'⟩ := item
    rw [List.map_cons, List.nodup_cons] at distinct
    rw [List.lookup_cons]
    rcases List.mem_cons.mp member with here | later
    · obtain ⟨rfl, rfl⟩ := Prod.mk.inj here
      simp
    -- the keys differ, so the entry in front is not the one looked for
    · have other : (key == key') = false := by
        rw [beq_eq_false_iff_ne]
        rintro rfl
        exact distinct.1 (List.mem_map.mpr ⟨(key, value), later, rfl⟩)
      rw [other]
      exact ih distinct.2 later

theorem mem_of_lookup {β : Type} (l : List (Str × β)) (key : Str) (value : β)
    (found : l.lookup key = some value) : (key, value) ∈ l := by
  obtain ⟨before, behind, split, -⟩ := List.lookup_eq_some_iff.mp found
  rw [split]
  simp

private theorem dictGet_eq_some_iff (entries : List (Str × H))
    (distinct : (entries.map Prod.fst).Nodup) (key : Str) (value : H) :
    dictGet entries key = some value ↔ (key, value) ∈ entries := by
  constructor
  · intro found
    exact List.mem_reverse.mp (mem_of_lookup _ _ _ found)
  · intro member
    apply lookup_of_mem
    · rw [List.map_reverse, List.nodup_reverse]
      exact distinct
    · exact List.mem_reverse.mpr member

private theorem sameDict_iff [DecidableEq H] (a b : List (Str × H)) :
    sameDict a b = true ↔
      ∀ key, key ∈ a.map Prod.fst ∨ key ∈ b.map Prod.fst → dictGet a key = dictGet b key := by
  simp only [sameDict, List.all_eq_true, List.mem_append, beq_iff_eq]

/-! ### Trees -/

private theorem mem_rglob (dir : Path) (files : Files) (rel : Path) (content : Bytes) :
    (rel, content) ∈ rglob dir files ↔ rel ≠ [] ∧ (dir ++ rel, content) ∈ files := by
  rw [rglob, List.mem_filterMap]
  constructor
  · rintro ⟨⟨path, content'⟩, member, found⟩
    -- a file that lies properly below the directory, by the rest of its path
    by_cases below : (dir.isPrefixOf path && dir != path) = true
    · rw [if_pos below] at found
      simp only [Bool.and_eq_true, List.isPrefixOf_iff_prefix, bne_iff_ne] at below
      obtain ⟨⟨rest, rfl⟩, other⟩ := below
      simp only [List.drop_left, Option.some.injEq, Prod.mk.injEq] at found
      obtain ⟨rfl, rfl⟩ := found
      refine ⟨?_, member⟩
      rintro rfl
      exact other (List.append_nil dir).symm
    · rw [if_neg below] at found
      cases found
  · rintro ⟨named, member⟩
    refine ⟨(dir ++ rel, content), member, ?_⟩
    simp [named]

private theorem rglob_append (dir : Path) (a b : Files) : rglob dir
    (a ++ b) = rglob dir a ++ rglob dir b := by
  simp [rglob]

private theorem rglob_cons (dir : Path) (f : Path × Bytes) (files : Files) :
    rglob dir (f :: files) =
      if dir.isPrefixOf f.1 && dir != f.1 then (f.1.drop dir.length, f.2) :: rglob dir files
      else rglob dir files := by
  simp only [rglob, List.filterMap_cons]
  split_ifs <;> rfl

/-- A tree put below a directory is found there again. -/
theorem rglob_placed (dir : Path) (tree : Files) (named : ∀ f ∈ tree, f.1 ≠ []) :
    rglob dir (tree.map (fun f => (dir ++ f.1, f.2))) = tree := by
  induction tree with
  | nil => rfl
  | cons f tree ih =>
    have here := named f List.mem_cons_self
    have rest := ih (fun f member => named f (List.mem_cons_of_mem _ member))
    rw [List.map_cons, rglob_cons, rest]
    simp [here]

private theorem rglob_elsewhere (dir : Path) (files : Files)
    (elsewhere : ∀ f ∈ files, dir.isPrefixOf f.1 = false) : rglob dir files = [] := by
  rw [rglob, List.filterMap_eq_nil_iff]
  intro f member
  simp [elsewhere f member]

private theorem rmtree_elsewhere (dir : Path) (files : Files)
    (elsewhere : ∀ f ∈ files, dir.isPrefixOf f.1 = false) : rmtree dir files = files := by
  rw [rmtree, List.filter_eq_self]
  intro f member
  simp [elsewhere f member]

/-- Removing one tree leaves another, that shares no path with it, alone. -/
theorem rglob_rmtree (dir other : Path) (files : Files)
    (apart : ∀ path : Path, dir.isPrefixOf path = true → other.isPrefixOf path = false) :
    rglob dir (rmtree other files) = rglob dir files := by
  induction files with
  | nil => rfl
  | cons f files ih =>
    rw [rmtree] at ih
    rw [rmtree, List.filter_cons, rglob_cons]
    by_cases below : other.isPrefixOf f.1 = true
    · have above : dir.isPrefixOf f.1 = false := by
        by_contra under
        rw [apart f.1 (by simpa using under)] at below
        cases below
      simp [below, above, ih]
    · simp [below, rglob_cons, ih]

private theorem staging_apart (output path : Path) (named : output ≠ [])
    (below : output.isPrefixOf path = true) : (stagingOf output).isPrefixOf path = false := by
  by_contra both
  rw [Bool.not_eq_false, List.isPrefixOf_iff_prefix] at both
  rw [List.isPrefixOf_iff_prefix] at below
  have length : (stagingOf output).length = output.length := by
    have := List.length_pos_iff.mpr named
    simp only [stagingOf, List.length_append, List.length_dropLast, List.length_singleton]
    omega
  have same : stagingOf output = output :=
    (List.prefix_of_prefix_length_le both below (by omega)).eq_of_length length
  have whole := List.dropLast_append_getLast named
  rw [stagingOf, List.getLast?_eq_some_getLast named, Option.getD_some] at same
  have last := List.append_cancel_left (same.trans whole.symm)
  simp [str] at last

/-! ### The loop over the upstream tree -/

variable (sha256 : Bytes → H) (inp : Input H)

/-- A file that the loop stages, with the content it gets. -/
structure Accepted (preserved : List (Str × Bytes)) (f : Path × Bytes) : Prop where
  named : f.1 ≠ []
  plain : ∀ name ∈ f.1, 47 ∉ name
  notPruned : isPruned (join f.1) inp.declaration.prune inp.declaration.keepExceptions = false
  locked : ∃ want, inp.manifest.files.lookup (join f.1) = some want ∧
    (join f.1 ∈ inp.declaration.patched → f.2 = (preserved.lookup (join f.1)).getD []) ∧
    (join f.1 ∉ inp.declaration.patched → sha256 f.2 = want)

/-- The file system of the loop is what it began with, and the staged files. -/
structure Staged (preserved : List (Str × Bytes)) (base : Files) (progress : Progress)
    (staged : Files) : Prop where
  files : progress.files = staged.map (fun f => (stagingOf inp.output ++ f.1, f.2)) ++ base
  seen : progress.seen = staged.map (fun f => join f.1)
  distinct : progress.seen.Nodup
  accepted : ∀ f ∈ staged, Accepted sha256 inp preserved f

variable {sha256 inp} {preserved : List (Str × Bytes)} {base : Files}

/-- A new file does not replace one that is there. -/
theorem writeBytes_staged (progress : Progress) (staged : Files)
    (invariant : Staged sha256 inp preserved base progress staged)
    (clear : ∀ f ∈ base, (stagingOf inp.output).isPrefixOf f.1 = false)
    (rel : Path) (content : Bytes) (fresh : join rel ∉ progress.seen) :
    writeBytes (stagingOf inp.output ++ rel) content progress.files =
      ((rel, content) :: staged).map (fun f => (stagingOf inp.output ++ f.1, f.2)) ++ base := by
  -- nothing has been staged under this name, and the base has nothing in the staging directory
  have kept : progress.files.filter (fun f => f.1 != stagingOf inp.output ++ rel) =
      progress.files := by
    rw [List.filter_eq_self]
    intro f member
    rw [bne_iff_ne]
    intro same
    rw [invariant.files, List.mem_append] at member
    rcases member with there | below
    · obtain ⟨g, inside, rfl⟩ := List.mem_map.mp there
      apply fresh
      rw [invariant.seen, ← List.append_cancel_left same]
      exact List.mem_map.mpr ⟨g, inside, rfl⟩
    · have outside := clear f below
      rw [same, List.isPrefixOf_iff_prefix.mpr (List.prefix_append _ _)] at outside
      cases outside
  rw [writeBytes, kept, invariant.files]
  rfl

private theorem staged_cons (progress : Progress) (staged : Files) (hits : Str → Nat) (copied : Nat)
    (invariant : Staged sha256 inp preserved base progress staged)
    (clear : ∀ f ∈ base, (stagingOf inp.output).isPrefixOf f.1 = false)
    (rel : Path) (content : Bytes) (fresh : join rel ∉ progress.seen)
    (accepted : Accepted sha256 inp preserved (rel, content)) :
    Staged sha256 inp preserved base
      ⟨writeBytes (stagingOf inp.output ++ rel) content progress.files,
        join rel :: progress.seen, hits, copied⟩ ((rel, content) :: staged) := by
  refine ⟨writeBytes_staged progress staged invariant clear rel content fresh, ?_, ?_, ?_⟩
  · simp [invariant.seen]
  · exact List.nodup_cons.mpr ⟨fresh, invariant.distinct⟩
  · intro f member
    rcases List.mem_cons.mp member with rfl | earlier
    · exact accepted
    · exact invariant.accepted f earlier

/-- While files are staged, the output tree is what it was. -/
theorem output_of_staged (progress : Progress) (staged files : Files)
    (invariant : Staged sha256 inp preserved (rmtree (stagingOf inp.output) files) progress staged)
    (named : inp.output ≠ []) :
    rglob inp.output progress.files = rglob inp.output files := by
  rw [invariant.files, rglob_append, rglob_rmtree]
  · rw [rglob_elsewhere, List.nil_append]
    intro f member
    obtain ⟨g, inside, rfl⟩ := List.mem_map.mp member
    by_contra both
    rw [Bool.not_eq_false] at both
    have apart := staging_apart inp.output _ named both
    rw [List.isPrefixOf_iff_prefix.mpr (List.prefix_append _ _)] at apart
    cases apart
  · intro path below
    exact staging_apart inp.output path named below

/-- The swap puts the staged files where the output was. -/
theorem swapped_output (progress : Progress) (staged files : Files)
    (invariant : Staged sha256 inp preserved (rmtree (stagingOf inp.output) files) progress staged)
    (named : inp.output ≠ []) :
    rglob inp.output (replaceTree (stagingOf inp.output) inp.output
      (rmtree inp.output progress.files)) = staged := by
  -- Staged files are not below the output, so removing that leaves them.
  have fresh : ∀ f ∈ staged.map (fun f => (stagingOf inp.output ++ f.1, f.2)),
      inp.output.isPrefixOf f.1 = false := by
    intro f member
    obtain ⟨g, inside, rfl⟩ := List.mem_map.mp member
    by_contra both
    rw [Bool.not_eq_false] at both
    have apart := staging_apart inp.output _ named both
    rw [List.isPrefixOf_iff_prefix.mpr (List.prefix_append _ _)] at apart
    cases apart
  have removed : rmtree inp.output progress.files =
      staged.map (fun f => (stagingOf inp.output ++ f.1, f.2)) ++
        rmtree inp.output (rmtree (stagingOf inp.output) files) := by
    rw [invariant.files, rmtree, List.filter_append]
    congr 1
    exact rmtree_elsewhere _ _ fresh
  rw [removed, replaceTree, List.map_append, List.map_map, rglob_append]
  have moved : (fun f : Path × Bytes => if (stagingOf inp.output).isPrefixOf f.1
      then (inp.output ++ f.1.drop (stagingOf inp.output).length, f.2) else f) ∘
      (fun f : Path × Bytes => (stagingOf inp.output ++ f.1, f.2)) =
      fun f => (inp.output ++ f.1, f.2) := by
    funext f
    simp
  rw [moved, rglob_placed _ _ (fun f member => (invariant.accepted f member).named)]
  rw [rglob_elsewhere, List.append_nil]
  intro f member
  obtain ⟨g, inside, rfl⟩ := List.mem_map.mp member
  rw [rmtree, rmtree, List.mem_filter, List.mem_filter] at inside
  obtain ⟨⟨-, notStaged⟩, notOutput⟩ := inside
  simp only [Bool.not_eq_true'] at notStaged notOutput
  simp [notStaged, notOutput]

variable [DecidableEq H]

private theorem copyOne_staged (progress progress' : Progress) (staged : Files)
    (invariant : Staged sha256 inp preserved base progress staged)
    (clear : ∀ f ∈ base, (stagingOf inp.output).isPrefixOf f.1 = false)
    (rel : Path) (content : Bytes) (named : rel ≠ []) (plain : ∀ name ∈ rel, 47 ∉ name)
    (copied : copyOne sha256 inp preserved progress (rel, content) = .ok progress') :
    ∃ staged', Staged sha256 inp preserved base progress' staged' := by
  simp only [copyOne] at copied
  by_cases unsafePath : rel.contains (str "..") = true
  · rw [if_pos unsafePath] at copied
    cases copied
  rw [if_neg unsafePath] at copied
  by_cases pruned : isPruned (join rel) inp.declaration.prune inp.declaration.keepExceptions = true
  · -- a pruned file counts for its prefixes only
    rw [if_pos pruned] at copied
    obtain rfl := Except.ok.inj copied
    exact ⟨staged, invariant.files, invariant.seen, invariant.distinct, invariant.accepted⟩
  rw [if_neg pruned] at copied
  rw [Bool.not_eq_true] at pruned
  -- a file that the manifest does not name is passed over
  cases want : inp.manifest.files.lookup (join rel) with
  | none =>
    simp only [want, Except.ok.injEq] at copied
    rw [← copied]
    exact ⟨staged, invariant⟩
  | some hash =>
    simp only [want] at copied
    by_cases duplicate : join rel ∈ progress.seen
    · rw [if_pos duplicate] at copied
      cases copied
    rw [if_neg duplicate] at copied
    by_cases patched : join rel ∈ inp.declaration.patched
    · rw [if_pos patched] at copied
      obtain rfl := Except.ok.inj copied
      refine ⟨_, staged_cons progress staged _ _ invariant clear rel _ duplicate ?_⟩
      exact ⟨named, plain, pruned, hash, want, fun _ => rfl, fun other => absurd patched other⟩
    rw [if_neg patched] at copied
    by_cases drift : sha256 content ≠ hash
    · rw [if_pos drift] at copied
      cases copied
    rw [if_neg drift] at copied
    obtain rfl := Except.ok.inj copied
    refine ⟨_, staged_cons progress staged _ _ invariant clear rel _ duplicate ?_⟩
    exact ⟨named, plain, pruned, hash, want, fun other => absurd other patched,
      fun _ => Decidable.not_not.mp drift⟩

private theorem copyAll_staged (sources : Files) (progress : Progress) (staged : Files)
    (invariant : Staged sha256 inp preserved base progress staged)
    (clear : ∀ f ∈ base, (stagingOf inp.output).isPrefixOf f.1 = false)
    (named : ∀ src ∈ sources, src.1 ≠ [] ∧ ∀ name ∈ src.1, 47 ∉ name) :
    ∃ staged', Staged sha256 inp preserved base
      (copyAll sha256 inp preserved progress sources).1 staged' := by
  induction sources generalizing progress staged with
  | nil => exact ⟨staged, invariant⟩
  | cons src sources ih =>
    simp only [copyAll]
    cases copied : copyOne sha256 inp preserved progress src with
    | error stop => exact ⟨staged, invariant⟩
    | ok progress' =>
      obtain ⟨nonempty, plain⟩ := named src List.mem_cons_self
      obtain ⟨staged', invariant'⟩ :=
        copyOne_staged progress progress' staged invariant clear src.1 src.2 nonempty plain copied
      exact ih progress' staged' invariant'
        (fun src member => named src (List.mem_cons_of_mem _ member))

/-! ### The run -/

/-- What a completed run leaves below the output. -/
structure Completed (sha256 : Bytes → H) (inp : Input H) (fs : FileSystem) (tree : Files) : Prop where
  preserved : ∃ preserved, preserve inp fs.files inp.declaration.patched = .ok preserved ∧
    ∀ f ∈ tree, Accepted sha256 inp preserved f
  distinct : (tree.map (fun f => join f.1)).Nodup
  complete : ∀ key ∈ inp.manifest.files.map Prod.fst, key ∈ tree.map (fun f => join f.1)

private theorem materialize_cases (sha256 : Bytes → H) (inp : Input H) (fs : FileSystem) :
    (∃ stop, (materialize sha256 inp fs).2 = .error stop ∧
      rglob inp.output (materialize sha256 inp fs).1 = rglob inp.output fs.files) ∨
    (∃ summary, (materialize sha256 inp fs).2 = .ok summary ∧
      Completed sha256 inp fs (rglob inp.output (materialize sha256 inp fs).1)) := by
  simp only [materialize]
  -- Up to the staging directory each check stops the run with the files as they were.
  by_cases nested : (inp.output.isPrefixOf inp.source || inp.source.isPrefixOf inp.output) = true
  · rw [if_pos nested]
    exact Or.inl ⟨_, rfl, rfl⟩
  rw [if_neg nested]
  have named : inp.output ≠ [] := by
    intro root
    rw [root] at nested
    exact nested rfl
  by_cases commit : inp.manifest.llvmCommit ≠ some llvmCommit
  · rw [if_pos commit]
    exact Or.inl ⟨_, rfl, rfl⟩
  rw [if_neg commit]
  by_cases small : inp.manifest.files.length < 100
  · rw [if_pos small]
    exact Or.inl ⟨_, rfl, rfl⟩
  rw [if_neg small]
  cases kept : preserve inp fs.files inp.declaration.patched with
  | error stop => exact Or.inl ⟨_, rfl, rfl⟩
  | ok preserved =>
    by_cases plainFile : isFile (stagingOf inp.output) fs.files = true
    · dsimp only
      rw [if_pos plainFile]
      exact Or.inl ⟨_, rfl, rfl⟩
    dsimp only
    rw [if_neg plainFile]
    -- From here on files are written, but only below the staging directory,
    have clear : ∀ f ∈ rmtree (stagingOf inp.output) fs.files,
        (stagingOf inp.output).isPrefixOf f.1 = false := by
      intro f member
      simpa using (List.mem_filter.mp member).2
    have sources : ∀ src ∈ sortedFiles (rglob inp.source (rmtree (stagingOf inp.output) fs.files)),
        src.1 ≠ [] ∧ ∀ name ∈ src.1, 47 ∉ name := by
      intro src member
      rw [sortedFiles, List.mem_insertionSort] at member
      obtain ⟨nonempty, there⟩ := (mem_rglob _ _ src.1 src.2).mp member
      refine ⟨nonempty, ?_⟩
      intro name inside
      exact fs.names _ (List.mem_filter.mp there).1 name (List.mem_append_right _ inside)
    obtain ⟨staged, invariant⟩ := @copyAll_staged _ sha256 inp preserved _ _ _ ⟨rmtree (stagingOf inp.output) fs.files, [], fun _ => 0, 0⟩ []
      ⟨rfl, rfl, List.nodup_nil, fun f member => by cases member⟩ clear sources
    cases loop : copyAll sha256 inp preserved
        ⟨rmtree (stagingOf inp.output) fs.files, [], fun _ => 0, 0⟩
        (sortedFiles (rglob inp.source (rmtree (stagingOf inp.output) fs.files))) with
    | mk progress stop =>
      rw [loop] at invariant
      -- and a stop in the loop or after it leaves the output alone.
      have unchanged := output_of_staged progress staged fs.files invariant named
      cases stop with
      | some stop => exact Or.inl ⟨_, rfl, unchanged⟩
      | none =>
        by_cases missing : (inp.manifest.files.map Prod.fst).filter (fun k => k ∉ progress.seen) ≠ []
        · simp only [if_pos missing]
          exact Or.inl ⟨_, rfl, unchanged⟩
        simp only [if_neg missing]
        cases stale : inp.declaration.prune.find? (fun p => progress.pruneHits p = 0) with
        | some p => exact Or.inl ⟨_, rfl, unchanged⟩
        | none =>
          by_cases blocked : isFile inp.output progress.files = true
          · simp only [blocked, if_true]
            exact Or.inl ⟨_, rfl, unchanged⟩
          simp only [blocked, Bool.false_eq_true, if_false]
          right
          refine ⟨_, rfl, ?_⟩
          -- After the swap the output is what was staged, and the loop's invariant speaks of that.
          rw [swapped_output progress staged fs.files invariant named]
          refine ⟨⟨preserved, kept, invariant.accepted⟩, ?_, ?_⟩
          · rw [← invariant.seen]
            exact invariant.distinct
          · intro key locked
            rw [← invariant.seen]
            by_contra absent
            rw [not_not, List.filter_eq_nil_iff] at missing
            exact missing key locked (by simpa using absent)

variable {fs : FileSystem} {tree : Files}

/-! ### Runs that complete -/

/-- An upstream tree that matches the locked inputs and the declaration. -/
structure Matching (sha256 : Bytes → H) (inp : Input H) (fs : FileSystem) (sources : Files) : Prop where
  listed : sources = rglob inp.source (rmtree (stagingOf inp.output) fs.files)
  apart : (inp.output.isPrefixOf inp.source || inp.source.isPrefixOf inp.output) = false
  commit : inp.manifest.llvmCommit = some llvmCommit
  large : 100 ≤ inp.manifest.files.length
  patched : ∃ preserved, preserve inp fs.files inp.declaration.patched = .ok preserved
  noStaging : isFile (stagingOf inp.output) fs.files = false
  noOutput : isFile inp.output fs.files = false
  inside : ∀ src ∈ sources, src.1.contains (str "..") = false
  distinct : (sources.map (fun src => join src.1)).Nodup
  hashes : ∀ src ∈ sources, ∀ want, inp.manifest.files.lookup (join src.1) = some want →
    join src.1 ∉ inp.declaration.patched → sha256 src.2 = want
  complete : ∀ key ∈ inp.manifest.files.map Prod.fst, ∃ src ∈ sources, join src.1 = key ∧
    isPruned key inp.declaration.prune inp.declaration.keepExceptions = false
  hit : ∀ p ∈ inp.declaration.prune, ∃ src ∈ sources, p.isPrefixOf (join src.1) = true ∧
    isPruned (join src.1) inp.declaration.prune inp.declaration.keepExceptions = true

/-- What the loop has seen, counted and written after some files. -/
structure Copied (inp : Input H) (progress progress' : Progress) (sources : Files) : Prop where
  kept : ∀ s ∈ progress.seen, s ∈ progress'.seen
  seen : ∀ s ∈ progress'.seen, s ∈ progress.seen ∨ s ∈ sources.map (fun src => join src.1)
  locked : ∀ src ∈ sources, join src.1 ∈ inp.manifest.files.map Prod.fst →
    isPruned (join src.1) inp.declaration.prune inp.declaration.keepExceptions = false →
      join src.1 ∈ progress'.seen
  counted : ∀ p, progress.pruneHits p ≤ progress'.pruneHits p
  hits : ∀ src ∈ sources,
    isPruned (join src.1) inp.declaration.prune inp.declaration.keepExceptions = true →
      ∀ p ∈ inp.declaration.prune, p.isPrefixOf (join src.1) = true → 0 < progress'.pruneHits p
  written : ∀ f ∈ progress'.files, f ∈ progress.files ∨
    (stagingOf inp.output).isPrefixOf f.1 = true

private theorem mem_writeBytes (path : Path) (content : Bytes) (files : Files) (f : Path × Bytes)
    (member : f ∈ writeBytes path content files) : f ∈ files ∨ f.1 = path := by
  rcases List.mem_cons.mp member with rfl | earlier
  · exact Or.inr rfl
  · exact Or.inl (List.mem_filter.mp earlier).1

omit [DecidableEq H] in
private theorem copied_write (progress : Progress) (rel : Path) (old new : Bytes) (count : Nat)
    (notPruned : isPruned (join rel) inp.declaration.prune inp.declaration.keepExceptions = false) :
    Copied inp progress ⟨writeBytes (stagingOf inp.output ++ rel) new progress.files,
      join rel :: progress.seen, progress.pruneHits, count⟩ [(rel, old)] := by
  refine ⟨fun s => List.mem_cons_of_mem _, ?_, ?_, fun p => Nat.le_refl _, ?_, ?_⟩
  · intro s member
    rcases List.mem_cons.mp member with rfl | earlier
    · exact Or.inr (by simp)
    · exact Or.inl earlier
  · intro src member _ _
    obtain rfl := List.mem_singleton.mp member
    exact List.mem_cons_self
  · intro src member pruned
    obtain rfl := List.mem_singleton.mp member
    rw [notPruned] at pruned
    cases pruned
  · intro f member
    -- a file that was there, or the one that is written
    rcases mem_writeBytes _ _ _ f member with earlier | new
    · exact Or.inl earlier
    · right
      rw [new, List.isPrefixOf_iff_prefix]
      exact List.prefix_append _ _

private theorem copyOne_completes (progress : Progress) (src : Path × Bytes)
    (inside : src.1.contains (str "..") = false) (fresh : join src.1 ∉ progress.seen)
    (hashes : ∀ want, inp.manifest.files.lookup (join src.1) = some want →
      join src.1 ∉ inp.declaration.patched → sha256 src.2 = want) :
    ∃ progress', copyOne sha256 inp preserved progress src = .ok progress' ∧
      Copied inp progress progress' [src] := by
  obtain ⟨rel, content⟩ := src
  simp only [copyOne, inside, Bool.false_eq_true, if_false]
  -- The file is pruned, or not locked, or copied under its lock.
  by_cases pruned : isPruned (join rel) inp.declaration.prune inp.declaration.keepExceptions = true
  · rw [if_pos pruned]
    refine ⟨_, rfl, fun s => id, fun s => Or.inl, ?_, ?_, ?_, fun f => Or.inl⟩
    · intro src member _ notPruned
      obtain rfl := List.mem_singleton.mp member
      rw [pruned] at notPruned
      cases notPruned
    · intro p
      dsimp only
      split_ifs <;> omega
    · intro src member _ p declared below
      obtain rfl := List.mem_singleton.mp member
      have positive := List.count_pos_iff.mpr declared
      dsimp only
      rw [if_pos below]
      omega
  rw [if_neg pruned]
  rw [Bool.not_eq_true] at pruned
  cases want : inp.manifest.files.lookup (join rel) with
  | none =>
    refine ⟨_, rfl, fun s => id, fun s => Or.inl, ?_, fun p => Nat.le_refl _, ?_, fun f => Or.inl⟩
    · intro src member there
      obtain rfl := List.mem_singleton.mp member
      -- A locked path has a hash, so this one is not locked.
      obtain ⟨item, found, same⟩ := List.mem_map.mp there
      have value := lookup_of_mem _ inp.manifest.distinct item.1 item.2 found
      rw [same, want] at value
      cases value
    · intro src member isPruned
      obtain rfl := List.mem_singleton.mp member
      rw [pruned] at isPruned
      cases isPruned
  | some hash =>
    simp only [if_neg fresh]
    by_cases patched : join rel ∈ inp.declaration.patched
    · simp only [if_pos patched]
      exact ⟨_, rfl, copied_write progress rel content _ _ pruned⟩
    · simp only [if_neg patched, hashes hash want patched, ne_eq, not_true_eq_false, if_false]
      exact ⟨_, rfl, copied_write progress rel content _ _ pruned⟩

private theorem copyAll_completes (sources : Files) (progress : Progress)
    (inside : ∀ src ∈ sources, src.1.contains (str "..") = false)
    (distinct : (sources.map (fun src => join src.1)).Nodup)
    (fresh : ∀ src ∈ sources, join src.1 ∉ progress.seen)
    (hashes : ∀ src ∈ sources, ∀ want, inp.manifest.files.lookup (join src.1) = some want →
      join src.1 ∉ inp.declaration.patched → sha256 src.2 = want) :
    ∃ progress', copyAll sha256 inp preserved progress sources = (progress', none) ∧
      Copied inp progress progress' sources := by
  induction sources generalizing progress with
  | nil =>
    exact ⟨progress, rfl, fun s => id, fun s => Or.inl, fun src member => (by cases member),
      fun p => Nat.le_refl _, fun src member => (by cases member), fun f => Or.inl⟩
  | cons src sources ih =>
    rw [List.map_cons, List.nodup_cons] at distinct
    -- The first file is copied, and its path is not that of a later one, so they are still fresh.
    obtain ⟨middle, done, first⟩ := @copyOne_completes _ _ _ preserved _ progress src
      (inside src List.mem_cons_self) (fresh src List.mem_cons_self)
      (hashes src List.mem_cons_self)
    obtain ⟨progress', finished, rest⟩ := ih middle
      (fun src member => inside src (List.mem_cons_of_mem _ member)) distinct.2
      (by
        intro other member again
        rcases first.seen _ again with earlier | here
        · exact fresh other (List.mem_cons_of_mem _ member) earlier
        · obtain same : join other.1 = join src.1 := by simpa using here
          exact distinct.1 (List.mem_map.mpr ⟨other, member, same⟩))
      (fun src member => hashes src (List.mem_cons_of_mem _ member))
    refine ⟨progress', by simp only [copyAll, done, finished], ?_⟩
    -- What was seen, written or counted stays so: each fact comes from the first file or the rest.
    refine ⟨fun s earlier => rest.kept s (first.kept s earlier), ?_, ?_,
      fun p => Nat.le_trans (first.counted p) (rest.counted p), ?_, ?_⟩
    · intro s member
      rcases rest.seen s member with before | later
      · exact (first.seen s before).imp id (fun here => by
          rw [List.map_cons, List.mem_cons]
          exact Or.inl (by simpa using here))
      · exact Or.inr (List.mem_cons_of_mem _ later)
    · intro other member there notPruned
      rcases List.mem_cons.mp member with rfl | later
      · exact rest.kept _ (first.locked other (by simp) there notPruned)
      · exact rest.locked other later there notPruned
    · intro other member pruned p declared below
      rcases List.mem_cons.mp member with rfl | later
      · exact Nat.lt_of_lt_of_le (first.hits other (by simp) pruned p declared below)
          (rest.counted p)
      · exact rest.hits other later pruned p declared below
    · intro f member
      rcases rest.written f member with before | staged
      · exact first.written f before
      · exact Or.inr staged

private theorem materialize_completes (sources : Files) (fits : Matching sha256 inp fs sources) :
    ∃ summary, (materialize sha256 inp fs).2 = .ok summary := by
  obtain ⟨preserved, kept⟩ := fits.patched
  have sorted := List.perm_insertionSort (fun a b : Path × Bytes => a.1 ≤ b.1) sources
  have member : ∀ src, src ∈ sortedFiles sources ↔ src ∈ sources := fun src => sorted.mem_iff
  obtain ⟨progress, finished, copied⟩ := @copyAll_completes _ sha256 inp preserved _ (sortedFiles sources)
    ⟨rmtree (stagingOf inp.output) fs.files, [], fun _ => 0, 0⟩
    (fun src inside => fits.inside src ((member src).mp inside))
    ((sorted.map _).nodup_iff.mpr fits.distinct) (fun src _ => List.not_mem_nil)
    (fun src inside => fits.hashes src ((member src).mp inside))
  -- After the loop every locked file was seen and every prune entry was used,
  have seen : (inp.manifest.files.map Prod.fst).filter (fun k => k ∉ progress.seen) = [] := by
    rw [List.filter_eq_nil_iff]
    intro key locked
    obtain ⟨src, inside, rfl, notPruned⟩ := fits.complete key locked
    have := copied.locked src ((member src).mpr inside) locked notPruned
    simpa using this
  have fresh : inp.declaration.prune.find? (fun p => progress.pruneHits p = 0) = none := by
    rw [List.find?_eq_none]
    intro p declared
    obtain ⟨src, inside, below, pruned⟩ := fits.hit p declared
    have := copied.hits src ((member src).mpr inside) pruned p declared below
    simp only [decide_eq_true_eq]
    omega
  have named : inp.output ≠ [] := by
    intro root
    have apart := fits.apart
    rw [root] at apart
    cases apart
  -- and nothing stands in the way of the swap.
  have noOutput : isFile inp.output progress.files = false := by
    rw [isFile, List.any_eq_false]
    intro f there
    rw [beq_iff_eq]
    rintro same
    rcases copied.written f there with before | staged
    · have absent := fits.noOutput
      rw [isFile, List.any_eq_false] at absent
      exact absent f (List.mem_filter.mp before).1 (by rw [same]; exact beq_self_eq_true _)
    · have itself : inp.output <+: f.1 := same ▸ List.prefix_rfl
      have apart := staging_apart inp.output f.1 named (List.isPrefixOf_iff_prefix.mpr itself)
      rw [staged] at apart
      cases apart
  simp only [materialize, fits.apart, fits.commit, kept, fits.noStaging, ← fits.listed, finished,
    seen, fresh, noOutput, ne_eq, not_true_eq_false, Bool.false_eq_true, if_false,
    if_neg (Nat.not_lt.mpr fits.large)]
  exact ⟨_, rfl⟩

/-! ### The check -/

/-- The condition under which what the run leaves is what the check accepts. -/
structure Agrees (sha256 : Bytes → H) (inp : Input H) (fs : FileSystem) (outside : Str → Bool) :
    Prop where
  plain : ∀ key ∈ inp.manifest.files.map Prod.fst, 92 ∉ key
  locked : ∀ relative ∈ inp.declaration.patched, ∀ want,
    inp.manifest.files.lookup relative = some want →
      (patchedContent inp fs.files relative).map sha256 = some want
  present : ∀ relative ∈ inp.declaration.patched,
    isDeclaredFile outside ((inp.manifest.files.map Prod.fst).map splitSlash) relative = true

omit [DecidableEq H] in
private theorem preserve_lookup (fs : FileSystem) (patched : List Str)
    (preserved : List (Str × Bytes)) (kept : preserve inp fs.files patched = .ok preserved)
    (relative : Str) (member : relative ∈ patched) :
    ∃ content, patchedContent inp fs.files relative = some content ∧
      preserved.lookup relative = some content := by
  induction patched generalizing preserved with
  | nil => cases member
  | cons first patched ih =>
    simp only [preserve] at kept
    cases content : patchedContent inp fs.files first with
    | none => simp [content] at kept
    | some bytes =>
      cases rest : preserve inp fs.files patched with
      | error stop => simp [content, rest, bind, Except.bind] at kept
      | ok others =>
        simp only [content, rest, bind, Except.bind, pure, Except.pure, Except.ok.injEq] at kept
        rw [← kept, List.lookup_cons]
        -- the first of the patched files, or a later one
        by_cases here : relative = first
        · exact ⟨bytes, by rw [here, content], by simp [here]⟩
        · have later := (List.mem_cons.mp member).resolve_left here
          have other : (relative == first) = false := beq_eq_false_iff_ne.mpr here
          rw [other]
          exact ih others rest later

private theorem splitSlash_join (rel : Path) (named : rel ≠ []) (plain : ∀ name ∈ rel, 47 ∉ name) :
    splitSlash (join rel) = rel := List.splitOn_intercalate 47 plain named

private theorem isDir_congr (paths paths' : List Path) (same : ∀ path, path ∈ paths ↔ path ∈ paths')
    (dir : Path) : isDir paths dir = isDir paths' dir := by
  simp only [isDir]
  congr 1
  rw [Bool.eq_iff_iff, List.any_eq_true, List.any_eq_true]
  simp only [same]

/-- Where a path leads depends on which files there are, not on their order. -/
theorem walk_congr (paths paths' : List Path) (same : ∀ path, path ∈ paths ↔ path ∈ paths')
    (cur : Path) (names : List Str) : walk paths cur names = walk paths' cur names := by
  induction names generalizing cur with
  | nil => simp only [walk, same]
  | cons name names ih => simp only [walk, same, ih, isDir_congr paths paths' same]

private theorem isDeclaredFile_congr (outside : Str → Bool) (paths paths' : List Path)
    (same : ∀ path, path ∈ paths ↔ path ∈ paths') (relative : Str) :
    isDeclaredFile outside paths relative = isDeclaredFile outside paths' relative := by
  simp only [isDeclaredFile, place, walk_congr paths paths' same]

private theorem slashes_plain (path : Str) (plain : 92 ∉ path) : slashes path = path := by
  unfold slashes
  conv_rhs => rw [← List.map_id path]
  apply List.map_congr_left
  intro c inside
  have other : c ≠ 92 := by
    rintro rfl
    exact plain inside
  simp [other]

private theorem not_mem_slashes (path : Str) : 92 ∉ slashes path := by
  rw [slashes, List.mem_map]
  rintro ⟨c, -, same⟩
  split_ifs at same with backslash
  · cases same
  · exact backslash same

private theorem isPruned_iff (relative : Str) (prune keep : List Str) :
    isPruned relative prune keep = true ↔
      prune.any (fun p => p.isPrefixOf relative &&
        !keep.any (fun k => relative == k || k.isPrefixOf relative)) = true := by
  simp only [isPruned]
  by_cases kept : keep.any (fun k => relative == k || k.isPrefixOf relative) = true
  · simp [kept]
  · rw [if_neg kept]
    simp only [Bool.not_eq_true] at kept
    simp [kept]

omit [DecidableEq H] in
theorem Completed.paths (completed : Completed sha256 inp fs tree) (path : Path) :
    path ∈ tree.map Prod.fst ↔ path ∈ (inp.manifest.files.map Prod.fst).map splitSlash := by
  obtain ⟨preserved, -, accepted⟩ := completed.preserved
  constructor
  · intro member
    obtain ⟨f, inside, rfl⟩ := List.mem_map.mp member
    have fine := accepted f inside
    obtain ⟨want, found, -⟩ := fine.locked
    exact List.mem_map.mpr ⟨join f.1, List.mem_map.mpr ⟨_, mem_of_lookup _ _ _ found, rfl⟩,
      splitSlash_join f.1 fine.named fine.plain⟩
  · intro member
    obtain ⟨key, locked, rfl⟩ := List.mem_map.mp member
    obtain ⟨f, inside, rfl⟩ := List.mem_map.mp (completed.complete key locked)
    have fine := accepted f inside
    rw [splitSlash_join f.1 fine.named fine.plain]
    exact List.mem_map.mpr ⟨f, inside, rfl⟩

omit [DecidableEq H] in
theorem Completed.key (completed : Completed sha256 inp fs tree) (f : Path × Bytes)
    (inside : f ∈ tree) : join f.1 ∈ inp.manifest.files.map Prod.fst := by
  obtain ⟨preserved, -, accepted⟩ := completed.preserved
  obtain ⟨want, found, -⟩ := (accepted f inside).locked
  exact List.mem_map.mpr ⟨_, mem_of_lookup _ _ _ found, rfl⟩

omit [DecidableEq H] in
/-- Without backslashes the check reads the paths that the run has written. -/
theorem Completed.actual (completed : Completed sha256 inp fs tree)
    (plain : ∀ key ∈ inp.manifest.files.map Prod.fst, 92 ∉ key) :
    actualLlvm sha256 tree = tree.map (fun f => (join f.1, sha256 f.2)) := by
  apply List.map_congr_left
  intro f inside
  rw [slashes_plain _ (plain _ (completed.key f inside))]

/-- The hashes of the files are the locked ones, up to those of patched files. -/
theorem Completed.sameDict_iff (completed : Completed sha256 inp fs tree)
    (plain : ∀ key ∈ inp.manifest.files.map Prod.fst, 92 ∉ key) :
    sameDict (actualLlvm sha256 tree) inp.manifest.files = true ↔
      ∀ relative ∈ inp.declaration.patched, ∀ want,
        inp.manifest.files.lookup relative = some want →
          (patchedContent inp fs.files relative).map sha256 = some want := by
  obtain ⟨preserved, kept, accepted⟩ := completed.preserved
  have keys : (actualLlvm sha256 tree).map Prod.fst = tree.map (fun f => join f.1) := by
    rw [completed.actual plain, List.map_map]
    rfl
  have distinct : ((actualLlvm sha256 tree).map Prod.fst).Nodup := by
    rw [keys]
    exact completed.distinct
  have value : ∀ f ∈ tree, dictGet (actualLlvm sha256 tree) (join f.1) = some (sha256 f.2) := by
    intro f inside
    rw [dictGet_eq_some_iff _ distinct, completed.actual plain]
    exact List.mem_map.mpr ⟨f, inside, rfl⟩
  -- Both dictionaries have each key once, so looking a key up finds its one value.
  have locked : ∀ key want, dictGet inp.manifest.files key = some want ↔
      inp.manifest.files.lookup key = some want := by
    intro key want
    rw [dictGet_eq_some_iff _ inp.manifest.distinct]
    exact ⟨lookup_of_mem _ inp.manifest.distinct key want, mem_of_lookup _ key want⟩
  rw [Payload.sameDict_iff, keys]
  constructor
  -- A patched file is what was preserved, and that has the locked hash if the lists agree.
  · intro same relative patched want found
    have there : relative ∈ inp.manifest.files.map Prod.fst :=
      List.mem_map.mpr ⟨_, mem_of_lookup _ _ _ found, rfl⟩
    obtain ⟨f, inside, rfl⟩ := List.mem_map.mp (completed.complete relative there)
    obtain ⟨content, read, lookup⟩ := preserve_lookup fs _ preserved kept (join f.1) patched
    obtain ⟨-, -, staged, -⟩ := (accepted f inside).locked
    have written := staged patched
    rw [lookup, Option.getD_some] at written
    have equal := same (join f.1) (Or.inr there)
    rw [value f inside, (locked _ _).mpr found, written] at equal
    rw [read, Option.map_some]
    exact equal
  -- Any other file was checked against its lock when it was copied.
  · intro agree key either
    have there : key ∈ tree.map (fun f => join f.1) :=
      either.elim id (completed.complete key)
    obtain ⟨f, inside, rfl⟩ := List.mem_map.mp there
    obtain ⟨want, found, staged, hashed⟩ := (accepted f inside).locked
    rw [value f inside, (locked _ _).mpr found]
    by_cases patched : join f.1 ∈ inp.declaration.patched
    · obtain ⟨content, read, lookup⟩ := preserve_lookup fs _ preserved kept (join f.1) patched
      have equal := agree (join f.1) patched want found
      rw [read, Option.map_some] at equal
      rw [staged patched, lookup, Option.getD_some]
      exact equal
    · rw [hashed patched]

omit [DecidableEq H] in
private theorem Completed.not_reappeared (completed : Completed sha256 inp fs tree)
    (plain : ∀ key ∈ inp.manifest.files.map Prod.fst, 92 ∉ key) :
    ((actualLlvm sha256 tree).map Prod.fst).find? (fun path =>
      inp.declaration.prune.any (fun p => p.isPrefixOf path &&
        !inp.declaration.keepExceptions.any (fun k => path == k || k.isPrefixOf path))) = none := by
  obtain ⟨preserved, -, accepted⟩ := completed.preserved
  rw [List.find?_eq_none, completed.actual plain, List.map_map]
  intro path member
  obtain ⟨f, inside, rfl⟩ := List.mem_map.mp member
  rw [← isPruned_iff]
  simpa using (accepted f inside).notPruned

private theorem Completed.check_iff (completed : Completed sha256 inp fs tree)
    (outside : Str → Bool) :
    payloadCheck sha256 inp.manifest inp.declaration outside tree = .ok () ↔
      Agrees sha256 inp fs outside := by
  have declared : ∀ relative, isDeclaredFile outside (tree.map Prod.fst) relative =
      isDeclaredFile outside ((inp.manifest.files.map Prod.fst).map splitSlash) relative :=
    isDeclaredFile_congr outside _ _ completed.paths
  constructor
  · intro passed
    simp only [payloadCheck] at passed
    split at passed
    · cases passed
    by_cases same : sameDict (actualLlvm sha256 tree) inp.manifest.files = true
    · simp only [same, Bool.not_true, Bool.false_eq_true, if_false] at passed
      split at passed
      · cases passed
      next none =>
      have plain : ∀ key ∈ inp.manifest.files.map Prod.fst, 92 ∉ key := by
        -- a backslash would be gone from the paths that are compared
        intro key locked backslash
        obtain ⟨item, member, rfl⟩ := List.mem_map.mp locked
        have equal := (Payload.sameDict_iff _ _).mp same item.1 (Or.inr locked)
        rw [(dictGet_eq_some_iff _ inp.manifest.distinct item.1 item.2).mpr member] at equal
        have there := List.mem_reverse.mp (mem_of_lookup _ _ _ equal)
        obtain ⟨f, -, found⟩ := List.mem_map.mp there
        rw [← (Prod.mk.inj found).1] at backslash
        exact not_mem_slashes _ backslash
      refine ⟨plain, (completed.sameDict_iff plain).mp same, ?_⟩
      intro relative patched
      have file := List.find?_eq_none.mp none relative patched
      rw [declared] at file
      simpa using file
    · simp [same] at passed
  · rintro ⟨plain, locked, present⟩
    simp only [payloadCheck, completed.not_reappeared plain,
      (completed.sameDict_iff plain).mpr locked, Bool.not_true, Bool.false_eq_true, if_false]
    have all : inp.declaration.patched.find? (fun relative =>
        !isDeclaredFile outside (tree.map Prod.fst) relative) = none := by
      rw [List.find?_eq_none]
      intro relative patched
      rw [declared, present relative patched]
      simp
    rw [all]

/--
A run that stops leaves the output tree alone. What a completed run leaves is accepted exactly if
the patched files are locked with their own hashes and no locked path has a backslash.
-/
theorem materialized_payload_verifies_iff (sha256 : Bytes → H) (inp : Input H) (fs : FileSystem)
    (outside : Str → Bool) :
    (∀ stop, (materialize sha256 inp fs).2 = .error stop →
      rglob inp.output (materialize sha256 inp fs).1 = rglob inp.output fs.files) ∧
    ∀ summary, (materialize sha256 inp fs).2 = .ok summary →
      (payloadCheck sha256 inp.manifest inp.declaration outside
        (rglob inp.output (materialize sha256 inp fs).1) = .ok () ↔
        Agrees sha256 inp fs outside) := by
  constructor
  · intro stop stopped
    rcases materialize_cases sha256 inp fs with ⟨-, -, unchanged⟩ | ⟨summary, done, -⟩
    · exact unchanged
    · rw [done] at stopped
      cases stopped
  · intro summary done
    rcases materialize_cases sha256 inp fs with ⟨stop, stopped, -⟩ | ⟨-, -, completed⟩
    · rw [stopped] at done
      cases done
    · exact completed.check_iff outside

/-- The file `a00`, `a01`, ... -/
def fileName (i : Nat) : Str := [97, 48 + i / 10, 48 + i % 10]

/-- SHA-256, as a number, of the two contents that occur below. -/
def knownSha256 (content : Bytes) : Nat :=
  if content = [] then 0xe3b0c44298fc1c149afbf4c8996fb92427ae41e4649b934ca495991b7852b855
  else 0x2d711642b726b04401627ca9fbac32f5c8530fb1903cc4db02258717921a4881

private theorem fileName_injective (i j : Nat) (same : fileName i = fileName j) : i = j := by
  simp only [fileName, List.cons.injEq, true_and, and_true] at same
  omega

/-- A hundred empty files locked with one hash, the first of them declared as patched. -/
def hundredFiles (hash : Nat) : Input Nat where
  source := [str "upstream"]
  output := [str "payload"]
  patchedSource := [str "patched"]
  manifest :=
    { llvmCommit := some llvmCommit
      files := (List.range 100).map (fun i => (fileName i, if i = 0 then hash else knownSha256 []))
      distinct := by
        rw [List.map_map]
        apply List.nodup_range.map
        intro i j same
        exact fileName_injective i j same }
  declaration := ⟨[], [], [fileName 0]⟩
  outsidePatched := fun _ => none

/-- The upstream tree of empty files, and the patched file with the content `x`. -/
def patchedTree : FileSystem where
  files := ([str "patched", fileName 0], [120]) ::
    (List.range 100).map (fun i => ([str "upstream", fileName i], []))
  names := by
    intro f member name inside
    rcases List.mem_cons.mp member with rfl | upstream
    · revert name
      decide +kernel
    · obtain ⟨i, bound, rfl⟩ := List.mem_map.mp upstream
      have low := List.mem_range.mp bound
      simp only [List.mem_cons, List.not_mem_nil, or_false] at inside
      rcases inside with rfl | rfl
      · decide +kernel
      · simp [fileName]
        omega

private theorem upstream_elsewhere (dir : Str) (other : dir ≠ str "upstream") :
    ∀ f ∈ (List.range 100).map (fun i => (([str "upstream", fileName i], []) : Path × Bytes)),
      [dir].isPrefixOf f.1 = false := by
  intro f member
  obtain ⟨i, -, rfl⟩ := List.mem_map.mp member
  simp [List.isPrefixOf, other]

private theorem patchedContent_patchedTree (hash : Nat) :
    patchedContent (hundredFiles hash) patchedTree.files (fileName 0) = some [120] := by
  have tree : rglob [str "patched"] patchedTree.files = [([fileName 0], [120])] := by
    rw [patchedTree, rglob_cons,
      rglob_elsewhere _ _ (upstream_elsewhere (str "patched") (by decide +kernel))]
    simp [List.isPrefixOf]
  simp only [patchedContent, hundredFiles, tree]
  decide +kernel

private theorem hundredFiles_matching (hash : Nat) : Matching knownSha256
    (hundredFiles hash) patchedTree
    ((List.range 100).map (fun i => ([fileName i], []))) := by
  have single : ∀ i, join [fileName i] = fileName i := by simp [join, List.intercalate]
  have staging : stagingOf (hundredFiles hash).output = [str "payload.materialize-tmp"] := by
    show stagingOf [str "payload"] = _
    decide +kernel
  have sources : ∀ src ∈ (List.range 100).map (fun i => (([fileName i], []) : Path × Bytes)),
      ∃ i < 100, src = ([fileName i], []) := by
    intro src member
    obtain ⟨i, bound, rfl⟩ := List.mem_map.mp member
    exact ⟨i, List.mem_range.mp bound, rfl⟩
  refine ⟨?_, ?_, rfl, by simp [hundredFiles], ?_, ?_, ?_, ?_, ?_, ?_, ?_, ?_⟩
  -- the files are those below `upstream`, and the staging directory holds none
  · have nothing : rmtree (stagingOf (hundredFiles hash).output) patchedTree.files =
        patchedTree.files := by
      rw [staging]
      apply rmtree_elsewhere
      intro f member
      rcases List.mem_cons.mp member with rfl | upstream
      · decide +kernel
      · exact upstream_elsewhere _ (by decide +kernel) f upstream
    have placed := rglob_placed [str "upstream"]
      ((List.range 100).map (fun i => ([fileName i], []))) (by
        intro f member
        obtain ⟨i, -, rfl⟩ := sources f member
        simp)
    rw [List.map_map] at placed
    have source : (hundredFiles hash).source = [str "upstream"] := rfl
    rw [nothing, source, patchedTree, rglob_cons, if_neg (by decide +kernel)]
    exact placed.symm
  -- neither directory lies in the other, and the patched file is there
  · show ([str "payload"].isPrefixOf [str "upstream"] ||
      [str "upstream"].isPrefixOf [str "payload"]) = false
    decide +kernel
  · refine ⟨[(fileName 0, [120])], ?_⟩
    show preserve (hundredFiles hash) patchedTree.files [fileName 0] = _
    simp only [preserve, patchedContent_patchedTree]
    rfl
  -- no file stands where a directory is to be made
  · rw [staging, isFile, List.any_eq_false]
    intro f member
    rcases List.mem_cons.mp member with rfl | upstream
    · simp
    · obtain ⟨i, -, rfl⟩ := List.mem_map.mp upstream
      simp
  · rw [isFile, List.any_eq_false]
    intro f member
    rcases List.mem_cons.mp member with rfl | upstream
    · simp [hundredFiles]
    · obtain ⟨i, -, rfl⟩ := List.mem_map.mp upstream
      simp [hundredFiles]
  · intro src member
    obtain ⟨i, -, rfl⟩ := sources src member
    simp [fileName, str]
  · rw [List.map_map]
    apply List.nodup_range.map
    intro i j same
    simp only [Function.comp_apply, single] at same
    exact fileName_injective i j same
  -- every file but the patched one is empty, with the hash of that
  · intro src member want found notPatched
    obtain ⟨i, bound, rfl⟩ := sources src member
    rw [single] at found notPatched
    have notFirst : i ≠ 0 := by
      rintro rfl
      exact notPatched List.mem_cons_self
    have value := lookup_of_mem _ (hundredFiles hash).manifest.distinct (fileName i)
      (if i = 0 then hash else knownSha256 [])
      (List.mem_map.mpr ⟨i, List.mem_range.mpr bound, rfl⟩)
    rw [found, if_neg notFirst] at value
    exact (Option.some.inj value).symm
  · intro key locked
    obtain ⟨item, member, rfl⟩ := List.mem_map.mp locked
    obtain ⟨i, bound, rfl⟩ := List.mem_map.mp member
    exact ⟨([fileName i], []), List.mem_map.mpr ⟨i, bound, rfl⟩, single i, rfl⟩
  · intro p declared
    cases declared

/-- With the hash of its own content the patched file is accepted. -/
theorem locked_patch_verifies : ∃ summary,
    (materialize knownSha256 (hundredFiles (knownSha256 [120])) patchedTree).2 = .ok summary ∧
      payloadCheck knownSha256 (hundredFiles (knownSha256 [120])).manifest ⟨[], [], [fileName 0]⟩
        (fun _ => false) (rglob [str "payload"]
          (materialize knownSha256 (hundredFiles (knownSha256 [120])) patchedTree).1) = .ok () := by
  obtain ⟨summary, done⟩ := materialize_completes _ (hundredFiles_matching (knownSha256 [120]))
  refine ⟨summary, done, ?_⟩
  have verifies := (materialized_payload_verifies_iff knownSha256 (hundredFiles (knownSha256 [120]))
    patchedTree (fun _ => false)).2 summary done
  apply verifies.mpr
  -- no key has a backslash, and the one patched file has the content of its hash
  refine ⟨?_, ?_, ?_⟩
  · intro key locked
    obtain ⟨item, member, rfl⟩ := List.mem_map.mp locked
    obtain ⟨i, bound, rfl⟩ := List.mem_map.mp member
    have low := List.mem_range.mp bound
    simp only [fileName, List.mem_cons, List.not_mem_nil, or_false]
    omega
  · intro relative patched want found
    obtain rfl := List.mem_singleton.mp patched
    have value := lookup_of_mem _ (hundredFiles (knownSha256 [120])).manifest.distinct (fileName 0)
      (knownSha256 [120]) (List.mem_map.mpr ⟨0, List.mem_range.mpr (by omega), rfl⟩)
    rw [patchedContent_patchedTree, ← found, value]
    rfl
  · intro relative patched
    obtain rfl := List.mem_singleton.mp patched
    decide +kernel

/-- With the upstream hash it is staged all the same, and the check refuses the tree. -/
theorem unlocked_patch_differs : ∃ summary,
    (materialize knownSha256 (hundredFiles (knownSha256 [])) patchedTree).2 = .ok summary ∧
      payloadCheck knownSha256 (hundredFiles (knownSha256 [])).manifest ⟨[], [], [fileName 0]⟩
        (fun _ => false) (rglob [str "payload"]
          (materialize knownSha256 (hundredFiles (knownSha256 [])) patchedTree).1) ≠ .ok () := by
  obtain ⟨summary, done⟩ := materialize_completes _ (hundredFiles_matching (knownSha256 []))
  refine ⟨summary, done, ?_⟩
  rcases materialize_cases knownSha256 (hundredFiles (knownSha256 [])) patchedTree with
    ⟨stop, stopped, -⟩ | ⟨-, -, completed⟩
  · rw [stopped] at done
    cases done
  · intro passed
    have agrees := (completed.check_iff (fun _ => false)).mp passed
    have value := lookup_of_mem _ (hundredFiles (knownSha256 [])).manifest.distinct (fileName 0)
      (knownSha256 []) (List.mem_map.mpr ⟨0, List.mem_range.mpr (by omega), rfl⟩)
    -- the payload check would need the manifest's hash for the patched content
    have hash := agrees.locked (fileName 0) List.mem_cons_self _ value
    rw [patchedContent_patchedTree, Option.map_some] at hash
    exact absurd hash (by decide +kernel)

end LlvmLd.Tools.Payload
