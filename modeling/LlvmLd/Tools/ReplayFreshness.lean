import LlvmLd.Tools.CiBuild

/-!
When `cmd_replay` leaves no file with a stale mtime. Stamping stops at the first entry that raises
and passes over files it cannot stamp, and both end in success; two entries that lead to one file
can have it verified under the other name.
-/

namespace LlvmLd.Tools.CiBuild

/-- What the manifest says about a file. -/
structure Record where
  size : Int
  mtime : Int
  blake3 : Str

def recordOf (entry : PyValue) : Option Record :=
  match entry.getItem (str "size"), entry.getItem (str "mtime_ns"), entry.getItem (str "blake3") with
  | .ok (.int size), .ok (.int mtime), .ok (.str blake3) => some ⟨size, mtime, blake3⟩
  | _, _, _ => none

/-- The safe relative path that an entry names. -/
def entryPath (entry : PyValue) : Option Str :=
  match entry.getItem (str "path") with
  | .ok (.str path) => if isSafeStr path then some path else none
  | _ => none

def entriesOf (session : Session) : List PyValue :=
  match manifestEntries session.manifest with
  | .ok entries => entries
  | .error _ => []

variable (hash : Bytes → Str)

def Matches (r : Record) (node : Node) : Prop :=
  (node.content.length : Int) = r.size ∧ hash node.content = r.blake3

/-- The steps that the external replay is trusted with. -/
inductive Replayed (entries : List PyValue) : Workspace → Workspace → Prop where
  | done (ws : Workspace) : Replayed entries ws ws
  | restore (ws ws' : Workspace) (entry : PyValue) (path : Str) (r : Record) (f : FileId)
      (listed : entry ∈ entries) (safe : entryPath entry = some path)
      (recorded : recordOf entry = some r) (found : ws.lookup path = .file f)
      (regular : (ws.node f).regular = true) (verified : Matches hash r (ws.node f))
      (later : Replayed entries (ws.setMtime f r.mtime) ws') : Replayed entries ws ws'

def Trusted (session : Session) (zccacheReplay : Workspace → ReplayProcess) : Prop :=
  ∀ ws, Replayed hash (entriesOf session) ws (zccacheReplay ws).ws

/-- The file has the recorded content and mtime, or an mtime of this run. -/
def Good (start : Int) (entry : PyValue) (node : Node) : Prop :=
  (∃ r, recordOf entry = some r ∧ Matches hash r node ∧ node.mtime = r.mtime) ∨
    start ≤ node.mtime

/-- The entry leads to the regular file. -/
def Leads (ws : Workspace) (entry : PyValue) (f : FileId) : Prop :=
  ∃ path, entryPath entry = some path ∧ ws.named path = some f ∧ (ws.node f).regular = true

def NoStaleMtime (session : Session) (ws : Workspace) : Prop :=
  ∀ entry ∈ entriesOf session, ∀ f, Leads ws entry f →
    Good hash session.machine.start entry (ws.node f)

/-! ### The condition -/

/-- What the loop of `stamp_fresh` raises at an entry. -/
def entryError (ws : Workspace) (entry : PyValue) : Option PyError :=
  match entry.getItem (str "path") with
  | .error error => some error
  | .ok path =>
    match isSafeRelative path with
    | .error error => some error
    | .ok false => none
    | .ok true =>
      match path with
      | .str path => if ws.lookup path = .unencodable then some .valueError else none
      | _ => none

/-- The error that ends the loop. -/
def firstError (ws : Workspace) (entries : List PyValue) : Option PyError :=
  entries.findSome? (entryError ws)

/-- The entry at index `i` is one whose file can be stamped. -/
def Stampable (m : Machine) (ws : Workspace) (i : Nat) (entry : PyValue) (f : FileId) : Prop :=
  (∃ path, entryPath entry = some path ∧ ws.lookup path = .file f) ∧
    (ws.node f).regular = true ∧ m.utimeFails i = false

/-- Some entry before the first that raises stamps the file. -/
def Stamps (m : Machine) (ws : Workspace) (f : FileId) : Nat → List PyValue → Prop
  | _, [] => False
  | i, entry :: entries =>
    entryError ws entry = none ∧ (Stampable m ws i entry f ∨ Stamps m ws f (i + 1) entries)

/-- No entry would have the file verified in a way that another entry for it does not accept. -/
def Agree (start : Int) (ws : Workspace) (entries : List PyValue) : Prop :=
  ∀ entry ∈ entries, ∀ f, Leads ws entry f →
    ∀ other ∈ entries, ∀ path, entryPath other = some path → ws.lookup path = .file f →
      ∀ r, recordOf other = some r → Matches hash r (ws.node f) →
        Good hash start entry { ws.node f with mtime := r.mtime }

/-- The condition on the workspace that the stamping finds. -/
def Covered (session : Session) (ws : Workspace) : Prop :=
  (∀ entry ∈ entriesOf session, ∀ f, Leads ws entry f →
    Stamps session.machine ws f 0 (entriesOf session) ∨
      Good hash session.machine.start entry (ws.node f)) ∧
  (firstError ws (entriesOf session) = none →
    Agree hash session.machine.start ws (entriesOf session))

/-- The command gets as far as the manifest, and does not end in an exception. -/
def Proceeds (session : Session) (ws : Workspace) : Prop :=
  session.manifestExists = true ∧ session.zccacheFound = true ∧
    ∀ error, firstError ws (entriesOf session) = some error → isCaught error = true

variable {hash}

@[simp] theorem setMtime_lookup (ws : Workspace) (f : FileId) (t : Int) :
    (ws.setMtime f t).lookup = ws.lookup := rfl

private theorem setMtime_node (ws : Workspace) (f g : FileId) (t : Int) :
    (ws.setMtime f t).node g =
      if g = f then { ws.node f with mtime := t } else ws.node g := by
  simp only [Workspace.setMtime, Function.update_apply]

/-- The same files in the same places, with the same content. -/
structure SameFiles (ws ws' : Workspace) : Prop where
  lookup : ws'.lookup = ws.lookup
  regular : ∀ f, (ws'.node f).regular = (ws.node f).regular
  content : ∀ f, (ws'.node f).content = (ws.node f).content

theorem SameFiles.refl (ws : Workspace) : SameFiles ws ws := ⟨rfl, fun _ => rfl, fun _ => rfl⟩

theorem SameFiles.trans {ws ws' ws'' : Workspace} (first : SameFiles ws ws')
    (second : SameFiles ws' ws'') : SameFiles ws ws'' where
  lookup := second.lookup.trans first.lookup
  regular := fun f => (second.regular f).trans (first.regular f)
  content := fun f => (second.content f).trans (first.content f)

private theorem sameFiles_setMtime (ws : Workspace) (f : FileId) (t : Int) :
    SameFiles ws (ws.setMtime f t) := by
  refine ⟨rfl, ?_, ?_⟩
  · intro g
    rw [setMtime_node]
    split_ifs with same
    · rw [same]
    · rfl
  · intro g
    rw [setMtime_node]
    split_ifs with same
    · rw [same]
    · rfl

theorem SameFiles.named {ws ws' : Workspace} (same : SameFiles ws ws') (path : Str) :
    ws'.named path = ws.named path := by
  rw [Workspace.named, Workspace.named, same.lookup]

theorem SameFiles.leads {ws ws' : Workspace} (same : SameFiles ws ws') (entry : PyValue)
    (f : FileId) : Leads ws' entry f ↔ Leads ws entry f := by
  simp only [Leads, same.named, same.regular]

private theorem SameFiles.entryError {ws ws' : Workspace} (same : SameFiles ws ws')
    (entry : PyValue) :
    entryError ws' entry = entryError ws entry := by
  simp only [CiBuild.entryError, same.lookup]

private theorem SameFiles.firstError {ws ws' : Workspace} (same : SameFiles ws ws')
    (entries : List PyValue) : firstError ws' entries = firstError ws entries := by
  simp only [CiBuild.firstError]
  congr 1
  funext entry
  exact same.entryError entry

theorem SameFiles.stamps {ws ws' : Workspace} (same : SameFiles ws ws') (m : Machine) (f : FileId)
    (i : Nat) (entries : List PyValue) : Stamps m ws' f i entries ↔ Stamps m ws f i entries := by
  induction entries generalizing i with
  | nil => rfl
  | cons entry entries ih =>
    simp only [Stamps, Stampable, same.entryError, same.lookup, same.regular, ih]

/-! ### Stamping -/

variable (m : Machine)

private theorem isSafeRelative_true (path : PyValue) (safe : isSafeRelative path = .ok true) :
    ∃ p, path = .str p ∧ isSafeStr p = true := by
  cases path with
  | str p =>
    simp only [isSafeRelative, Except.ok.injEq] at safe
    exact ⟨p, rfl, safe⟩
  | _ =>
    simp only [isSafeRelative] at safe
    split_ifs at safe
    simp at safe

private theorem entryPath_unsafe (entry path : PyValue)
    (item : entry.getItem (str "path") = .ok path) (notSafe : isSafeRelative path = .ok false) :
    entryPath entry = none := by
  cases path with
  | str p =>
    simp only [isSafeRelative, Except.ok.injEq] at notSafe
    simp [entryPath, item, notSafe]
  | _ => simp [entryPath, item]

/-- What one round of the loop does: raise, nothing to the files, or stamp the file it leads to. -/
theorem stampEntry_cases (i : Nat) (entry : PyValue) (s : Stamping) :
    (∃ error, stampEntry m i entry s = .error error ∧ entryError s.ws entry = some error) ∨
    (∃ s', stampEntry m i entry s = .ok s' ∧ entryError s.ws entry = none ∧
      ((s'.ws = s.ws ∧ ∀ f, ¬ Stampable m s.ws i entry f) ∨
        ∃ f, s'.ws = s.ws.setMtime f (m.clock i) ∧ ∀ g, Stampable m s.ws i entry g ↔ g = f)) := by
  -- The cases follow the tests of the loop body: the entry has a path, the path is safe, it leads
  -- to a regular file, and the time can be set.
  cases item : entry.getItem (str "path") with
  | error error =>
    left
    exact ⟨error, by simp [stampEntry, item, bind, Except.bind], by simp [entryError, item]⟩
  | ok path =>
    cases safe : isSafeRelative path with
    | error error =>
      left
      exact ⟨error, by simp [stampEntry, item, safe, bind, Except.bind],
        by simp [entryError, item, safe]⟩
    | ok isSafe =>
      cases isSafe with
      | false =>
        right
        have nowhere := entryPath_unsafe entry path item safe
        refine ⟨s, by simp [stampEntry, item, safe, bind, Except.bind, pure, Except.pure],
          by simp [entryError, item, safe], Or.inl ⟨rfl, ?_⟩⟩
        rintro f ⟨⟨p, named, -⟩, -⟩
        rw [nowhere] at named
        cases named
      | true =>
        obtain ⟨p, rfl, isSafe⟩ := isSafeRelative_true path safe
        have named : entryPath entry = some p := by simp [entryPath, item, isSafe]
        have stampable : ∀ f, Stampable m s.ws i entry f ↔
            s.ws.lookup p = .file f ∧ (s.ws.node f).regular = true ∧ m.utimeFails i = false := by
          intro f
          simp [Stampable, named]
        simp only [stampable, stampEntry, entryError, item, safe, bind, Except.bind, pure,
          Except.pure, Bool.not_true, Bool.false_eq_true, if_false]
        cases found : s.ws.lookup p with
        | missing => exact Or.inr ⟨s, rfl, by simp, Or.inl ⟨rfl, by simp⟩⟩
        | inaccessible f => exact Or.inr ⟨s, rfl, by simp, Or.inl ⟨rfl, by simp⟩⟩
        -- The only lookup that raises; the others count as not being there.
        | unencodable => exact Or.inl ⟨.valueError, rfl, by simp⟩
        | file f =>
          right
          by_cases regular : (s.ws.node f).regular = true
          · cases fails : m.utimeFails i with
            | true => exact ⟨{ s with failed := s.failed + 1 }, by simp [regular], by simp, by simp⟩
            | false =>
              refine ⟨_, by simp [regular]; rfl, by simp, Or.inr ⟨f, rfl, ?_⟩⟩
              intro g
              constructor
              · rintro ⟨same, -⟩
                exact (Lookup.file.inj same).symm
              · intro same
                exact ⟨by rw [same], by rw [same]; exact regular, rfl⟩
          · refine ⟨s, by simp [regular], by simp, Or.inl ⟨rfl, ?_⟩⟩
            rintro g ⟨same, isRegular, -⟩
            rw [← Lookup.file.inj same] at isRegular
            exact regular isRegular

/-- The loop ends with the first error; the files it stamped are fresh, the others as they were. -/
theorem stampLoop_spec (i : Nat) (entries : List PyValue) (s : Stamping) :
    (stampLoop m i entries s).2 = firstError s.ws entries ∧
      SameFiles s.ws (stampLoop m i entries s).1.ws ∧
      ∀ f, (Stamps m s.ws f i entries →
          m.start ≤ ((stampLoop m i entries s).1.ws.node f).mtime) ∧
        (¬ Stamps m s.ws f i entries →
          (stampLoop m i entries s).1.ws.node f = s.ws.node f) := by
  induction entries generalizing i s with
  | nil => exact ⟨rfl, SameFiles.refl _, fun f => ⟨fun stamps => stamps.elim, fun _ => rfl⟩⟩
  | cons entry entries ih =>
    rcases stampEntry_cases m i entry s with ⟨error, raised, reason⟩ | ⟨s', done, quiet, effect⟩
    · simp only [stampLoop, raised, firstError, List.findSome?_cons, reason, Stamps]
      exact ⟨trivial, SameFiles.refl _, fun f => ⟨by simp, fun _ => trivial⟩⟩
    · obtain ⟨ended, files, each⟩ := ih (i + 1) s'
      -- A round changes times only, so the later entries lead to the same files.
      have same : SameFiles s.ws s'.ws := by
        rcases effect with ⟨unchanged, -⟩ | ⟨f, stamped, -⟩
        · rw [unchanged]
          exact SameFiles.refl _
        · rw [stamped]
          exact sameFiles_setMtime _ _ _
      simp only [stampLoop, done, Stamps, quiet, true_and]
      refine ⟨?_, same.trans files, ?_⟩
      · rw [ended, same.firstError, firstError, firstError, List.findSome?_cons, quiet]
      · intro f
        obtain ⟨fresh, kept⟩ := each f
        rw [same.stamps] at fresh kept
        constructor
        · rintro (here | later)
          · by_cases again : Stamps m s.ws f (i + 1) entries
            · exact fresh again
            · rw [kept again]
              rcases effect with ⟨-, none⟩ | ⟨g, stamped, only⟩
              · exact absurd here (none f)
              · rw [stamped, setMtime_node, if_pos ((only f).mp here)]
                exact m.notBefore i
          · exact fresh later
        · intro neither
          rw [not_or] at neither
          rw [kept neither.2]
          rcases effect with ⟨unchanged, -⟩ | ⟨g, stamped, only⟩
          · rw [unchanged]
          · have other : f ≠ g := fun same => neither.1 ((only f).mpr same)
            rw [stamped, setMtime_node, if_neg other]

/-! ### The external replay -/

private theorem Node.ext_mtime (node node' : Node) (t : Int)
    (regular : node'.regular = node.regular) (content : node'.content = node.content) :
    { node' with mtime := t } = { node with mtime := t } := by
  cases node
  cases node'
  simp_all

/-- A file is as it was, or some entry that leads to it has verified it. -/
theorem replayed_node (entries : List PyValue) (ws ws' : Workspace)
    (replayed : Replayed hash entries ws ws') :
    SameFiles ws ws' ∧ ∀ f, ws'.node f = ws.node f ∨
      ∃ other ∈ entries, ∃ path, entryPath other = some path ∧ ws.lookup path = .file f ∧
        ∃ r, recordOf other = some r ∧ Matches hash r (ws.node f) ∧
          ws'.node f = { ws.node f with mtime := r.mtime } := by
  induction replayed with
  | done ws => exact ⟨SameFiles.refl ws, fun f => Or.inl rfl⟩
  | restore ws ws' entry path r g listed safe recorded found regular verified later ih =>
    have same := sameFiles_setMtime ws g r.mtime
    obtain ⟨files, each⟩ := ih
    refine ⟨same.trans files, ?_⟩
    intro f
    -- later entries keep the node, or set its time again from the same content
    rcases each f with kept | ⟨other, member, path', safe', found', r', recorded', verified', set⟩
    · rw [kept, setMtime_node]
      by_cases here : f = g
      · right
        rw [if_pos here, here]
        exact ⟨entry, listed, path, safe, found, r, recorded, verified, rfl⟩
      · left
        rw [if_neg here]
    · right
      rw [Matches, same.content f] at verified'
      refine ⟨other, member, path', safe', found', r', recorded', verified', ?_⟩
      rw [set]
      exact Node.ext_mtime _ _ _ (same.regular f) (same.content f)

/-! ### The command -/

variable {session : Session} {ws ws1 : Workspace} {entries : List PyValue}

private theorem entriesOf_parsed (parsed : manifestEntries session.manifest = .ok entries) :
    entriesOf session = entries := by
  simp [entriesOf, parsed]

/-- The workspace after `stamp_fresh`. -/
def stampedWorkspace (m : Machine) (entries : List PyValue) (ws : Workspace) : Workspace :=
  (stampLoop m 0 entries { ws := ws, stamped := 0, failed := 0 }).1.ws

private theorem cmdReplay_parsed (zccacheReplay : Workspace → ReplayProcess)
    (imported : afterImport session ws = some ws1) (proceeds : Proceeds session ws1)
    (parsed : manifestEntries session.manifest = .ok entries) :
    (cmdReplay session zccacheReplay ws).result = .ok 0 ∧
      (cmdReplay session zccacheReplay ws).ws =
        if firstError ws1 entries = none
        then (zccacheReplay (stampedWorkspace session.machine entries ws1)).ws
        else stampedWorkspace session.machine entries ws1 := by
  obtain ⟨present, found, caught⟩ := proceeds
  have ended := (stampLoop_spec session.machine 0 entries ⟨ws1, 0, 0⟩).1
  rw [entriesOf_parsed parsed] at caught
  simp only [cmdReplay, imported, present, found, stampFresh, parsed, stampedWorkspace,
    Bool.not_true, Bool.false_eq_true, if_false]
  -- the loop stopped at an error, which is caught, or the report follows
  cases loop : stampLoop session.machine 0 entries ⟨ws1, 0, 0⟩ with
  | mk s stop =>
    rw [loop] at ended
    cases stop with
    | some error =>
      simp only at ended
      simp only [← ended, caught error ended.symm, if_true, reduceCtorEq, if_false]
      exact ⟨trivial, trivial⟩
    | none =>
      simp only at ended
      simp only [← ended, if_true]
      by_cases failed : (zccacheReplay s.ws).returncode ≠ 0
      · simp only [if_pos failed]
        exact ⟨trivial, trivial⟩
      · simp only [if_neg failed]
        cases (zccacheReplay s.ws).report <;> exact ⟨rfl, rfl⟩

/-- A run that returns 0 with a manifest has gone on, or the manifest has no entries. -/
theorem cmdReplay_returns (zccacheReplay : Workspace → ReplayProcess)
    (present : session.manifestExists = true)
    (returned : (cmdReplay session zccacheReplay ws).result = .ok 0) :
    ∃ ws1, afterImport session ws = some ws1 ∧
      (entriesOf session = [] ∨ Proceeds session ws1) := by
  cases imported : afterImport session ws with
  | none => simp [cmdReplay, imported] at returned
  | some ws1 =>
    refine ⟨ws1, rfl, ?_⟩
    cases parsed : manifestEntries session.manifest with
    | error error =>
      left
      simp [entriesOf, parsed]
    | ok entries =>
      right
      have ended := (stampLoop_spec session.machine 0 entries ⟨ws1, 0, 0⟩).1
      simp only [cmdReplay, imported, present, stampFresh, parsed, Bool.not_true,
        Bool.false_eq_true, if_false] at returned
      cases found : session.zccacheFound with
      | false => simp [found] at returned
      | true =>
        refine ⟨present, found, ?_⟩
        intro error first
        rw [entriesOf_parsed parsed] at first
        simp only at ended
        rw [first] at ended
        cases loop : stampLoop session.machine 0 entries ⟨ws1, 0, 0⟩ with
        | mk s stop =>
          rw [loop] at ended
          simp only at ended
          rw [ended] at loop
          -- an error that is not caught would not have returned zero
          by_contra uncaught
          simp [found, loop, uncaught] at returned

/-- With the condition, whatever of the replay has happened. -/
theorem noStaleMtime_of_covered (ws' : Workspace)
    (parsed : manifestEntries session.manifest = .ok entries)
    (covered : Covered hash session ws1)
    (replayed : Replayed hash entries (stampedWorkspace session.machine entries ws1) ws')
    (reached : firstError ws1 entries = none ∨
      ws' = stampedWorkspace session.machine entries ws1) :
    NoStaleMtime hash session ws' := by
  obtain ⟨-, stampFiles, each⟩ := stampLoop_spec session.machine 0 entries ⟨ws1, 0, 0⟩
  obtain ⟨replayFiles, verified⟩ := replayed_node entries _ ws' replayed
  obtain ⟨stamped, agree⟩ := covered
  rw [entriesOf_parsed parsed] at stamped agree
  have files := stampFiles.trans replayFiles
  -- A file that the replay left alone is as the stamping left it.
  have asStamped : ∀ entry ∈ entries, ∀ f, Leads ws1 entry f →
      ws'.node f = (stampedWorkspace session.machine entries ws1).node f →
      Good hash session.machine.start entry (ws'.node f) := by
    intro entry listed f leads kept
    rw [kept]
    by_cases stamps : Stamps session.machine ws1 f 0 entries
    · exact Or.inr ((each f).1 stamps)
    · have same := (each f).2 stamps
      rw [stampedWorkspace, same]
      exact (stamped entry listed f leads).resolve_left stamps
  intro entry listed f leads
  rw [entriesOf_parsed parsed] at listed
  rw [files.leads] at leads
  -- One that it restored has the time of some record, and the entries agree on it.
  rcases verified f with kept | ⟨other, member, path, safe, found, r, recorded, matched, set⟩
  · exact asStamped entry listed f leads kept
  · rcases reached with ran | notRun
    · rw [Matches, stampedWorkspace, stampFiles.content f] at matched
      rw [stampedWorkspace, stampFiles.lookup] at found
      have good := agree ran entry listed f leads other member path safe found r recorded matched
      rw [set, stampedWorkspace,
        Node.ext_mtime _ _ r.mtime (stampFiles.regular f) (stampFiles.content f)]
      exact good
    · exact asStamped entry listed f leads (by rw [notRun])

/-- A replay that does nothing and fails. -/
def idleReplay (ws : Workspace) : ReplayProcess := ⟨ws, 1, none⟩

open Classical in
/-- A replay that restores one file if it may, and fails then. -/
noncomputable def restoringReplay (hash : Bytes → Str) (path : Str) (r : Record) (f : FileId)
    (ws : Workspace) : ReplayProcess where
  ws :=
    if ws.lookup path = .file f ∧ (ws.node f).regular = true ∧ Matches hash r (ws.node f)
    then ws.setMtime f r.mtime else ws
  returncode := 1
  report := none

private theorem trusted_restoringReplay (entry : PyValue) (path : Str) (r : Record) (f : FileId)
    (listed : entry ∈ entriesOf session) (safe : entryPath entry = some path)
    (recorded : recordOf entry = some r) :
    Trusted hash session (restoringReplay hash path r f) := by
  intro ws
  simp only [restoringReplay]
  split_ifs with may
  · exact Replayed.restore ws _ entry path r f listed safe recorded may.1 may.2.1 may.2.2
      (Replayed.done _)
  · exact Replayed.done ws

private theorem covered_of_noStaleMtime (imported : afterImport session ws = some ws1)
    (proceeds : Proceeds session ws1)
    (parsed : manifestEntries session.manifest = .ok entries)
    (always : ∀ zccacheReplay, Trusted hash session zccacheReplay →
      (cmdReplay session zccacheReplay ws).result = .ok 0 →
      NoStaleMtime hash session (cmdReplay session zccacheReplay ws).ws) :
    Covered hash session ws1 := by
  obtain ⟨-, files, each⟩ := stampLoop_spec session.machine 0 entries ⟨ws1, 0, 0⟩
  constructor
  -- A replay that restores nothing: what is not stamped has to be fresh already.
  · intro entry listed f leads
    obtain ⟨returned, final⟩ := cmdReplay_parsed idleReplay imported proceeds parsed
    have good := always idleReplay (fun ws => Replayed.done ws) returned entry listed f
    rw [final, idleReplay, ite_self, stampedWorkspace] at good
    rw [entriesOf_parsed parsed]
    by_cases stamps : Stamps session.machine ws1 f 0 entries
    · exact Or.inl stamps
    · right
      rw [← (each f).2 stamps]
      exact good ((files.leads entry f).mpr leads)
  -- A replay that restores just this record: its file gets the recorded time.
  · intro ran entry listed f leads other member path safe found r recorded matched
    rw [entriesOf_parsed parsed] at ran
    obtain ⟨returned, final⟩ :=
      cmdReplay_parsed (restoringReplay hash path r f) imported proceeds parsed
    have trusted := @trusted_restoringReplay hash _ other path r f member safe recorded
    have regular : (ws1.node f).regular = true := leads.choose_spec.2.2
    have may : (stampedWorkspace session.machine entries ws1).lookup path = .file f ∧
        ((stampedWorkspace session.machine entries ws1).node f).regular = true ∧
        Matches hash r ((stampedWorkspace session.machine entries ws1).node f) := by
      refine ⟨by rw [stampedWorkspace, files.lookup]; exact found,
        by rw [stampedWorkspace, files.regular]; exact regular, ?_⟩
      rw [Matches, stampedWorkspace, files.content f]
      exact matched
    have good := always _ trusted returned entry listed f
    rw [final, if_pos ran] at good
    simp only [restoringReplay] at good
    rw [if_pos may] at good
    have same := files.trans (sameFiles_setMtime
      (stampedWorkspace session.machine entries ws1) f r.mtime)
    have kept := good ((same.leads entry f).mpr leads)
    rw [setMtime_node, if_pos rfl, stampedWorkspace,
      Node.ext_mtime _ _ r.mtime (files.regular f) (files.content f)] at kept
    exact kept

/--
After every run that returns 0 no file of the manifest looks older than it is, exactly if every
file is stamped before an entry raises or was good before, and no two entries disagree on a file.
-/
theorem replay_leaves_no_stale_mtime_iff (hash : Bytes → Str) (session : Session)
    (ws : Workspace) :
    (∀ zccacheReplay, Trusted hash session zccacheReplay → session.manifestExists = true →
      (cmdReplay session zccacheReplay ws).result = .ok 0 →
      NoStaleMtime hash session (cmdReplay session zccacheReplay ws).ws) ↔
    ∀ ws1, afterImport session ws = some ws1 → Proceeds session ws1 →
      Covered hash session ws1 := by
  constructor
  -- Trusted replays exist that restore as much or as little as the condition is about.
  · intro always ws1 imported proceeds
    cases parsed : manifestEntries session.manifest with
    | error error =>
      have none : entriesOf session = [] := by simp [entriesOf, parsed]
      simp [Covered, Agree, none]
    | ok entries =>
      exact covered_of_noStaleMtime imported proceeds parsed
        (fun zccacheReplay trusted => always zccacheReplay trusted proceeds.1)
  · intro condition zccacheReplay trusted present returned
    obtain ⟨ws1, imported, none | proceeds⟩ := cmdReplay_returns zccacheReplay present returned
    · intro entry listed
      rw [none] at listed
      cases listed
    · cases parsed : manifestEntries session.manifest with
      | error error =>
        intro entry listed
        simp [entriesOf, parsed] at listed
      | ok entries =>
        have covered := condition ws1 imported proceeds
        have replayed := trusted (stampedWorkspace session.machine entries ws1)
        rw [entriesOf_parsed parsed] at replayed
        rw [(cmdReplay_parsed zccacheReplay imported proceeds parsed).2]
        -- An entry that raises ends the command before the replay.
        by_cases ran : firstError ws1 entries = Option.none
        · rw [if_pos ran]
          exact noStaleMtime_of_covered _ parsed covered replayed (Or.inl ran)
        · rw [if_neg ran]
          exact noStaleMtime_of_covered _ parsed covered (Replayed.done _) (Or.inr rfl)

/-- A manifest whose first entry has no path; the second records `a.c` with another content. -/
def malformedSession : Session where
  machine := ⟨100, fun _ => 100, fun _ => Int.le_refl 100, fun _ => false⟩
  importUpstream := false
  hasMimalloc := true
  hasLibxml2 := true
  runImport := fun _ => none
  manifestExists := true
  manifest := .ok (.dict [(str "entries", .list
    [.dict [],
     .dict [(str "path", .str (str "a.c")), (str "size", .int 1), (str "mtime_ns", .int 7),
       (str "blake3", .str [2])]])])
  zccacheFound := true

/-- A workspace with a changed `a.c` that has an old mtime. -/
def changedWorkspace : Workspace where
  lookup := fun path => if path = str "a.c" then .file 0 else .missing
  node := fun _ => ⟨true, [1], 5⟩

theorem malformed_entry_keeps_stale_mtime :
    Trusted (List.map UInt8.toNat) malformedSession idleReplay ∧
      (cmdReplay malformedSession idleReplay changedWorkspace).result = .ok 0 ∧
      ¬ NoStaleMtime (List.map UInt8.toNat) malformedSession
        (cmdReplay malformedSession idleReplay changedWorkspace).ws := by
  refine ⟨fun ws => Replayed.done ws, by rfl, ?_⟩
  intro fresh
  have listed : PyValue.dict [(str "path", .str (str "a.c")), (str "size", .int 1),
      (str "mtime_ns", .int 7), (str "blake3", .str [2])] ∈ entriesOf malformedSession :=
    List.mem_cons_of_mem _ List.mem_cons_self
  rcases fresh _ listed 0 ⟨str "a.c", rfl, rfl, rfl⟩ with ⟨r, recorded, ⟨-, differs⟩, -⟩ | new
  · obtain rfl : (⟨1, 7, [2]⟩ : Record) = r := Option.some.inj recorded
    exact absurd (differs : [1] = [2]) (by decide)
  · exact absurd (new : (100 : Int) ≤ 5) (by decide)

end LlvmLd.Tools.CiBuild
