import Mathlib.Logic.Function.Basic
import LlvmLd.Lib.Bytes
import LlvmLd.Tools.Python

/-!
`is_safe_relative`, `stamp_fresh` and `cmd_replay` of `tools/ci_build.py`. The external replay is a
parameter of which only its documented effect is used: it sets the recorded mtime of a file whose
size and hash are the recorded ones, and touches nothing else.
-/

namespace LlvmLd.Tools.CiBuild

/-! ### The workspace -/

abbrev FileId := Nat

/-- A file and what is compared of it; two paths can lead to the same one. -/
structure Node where
  regular : Bool
  content : Bytes
  mtime : Int

/-- What `os.lstat` meets at a path below the workspace. -/
inductive Lookup where
  | file (id : FileId)
  | missing
  -- there, but `os.lstat` raises `OSError`
  | inaccessible (id : FileId)
  -- no path of the file system: `os.lstat` raises `ValueError`
  | unencodable
  deriving DecidableEq, Repr

structure Workspace where
  lookup : Str → Lookup
  node : FileId → Node

/-- The file that the path names, if there is one. -/
def Workspace.named (ws : Workspace) (path : Str) : Option FileId :=
  match ws.lookup path with
  | .file id => some id
  | .inaccessible id => some id
  | _ => none

def Workspace.setMtime (ws : Workspace) (f : FileId) (mtime : Int) : Workspace :=
  { ws with node := Function.update ws.node f { ws.node f with mtime := mtime } }

/-- The start of the run, and what the clock and `os.utime` do at each entry of the manifest. -/
structure Machine where
  start : Int
  clock : Nat → Int
  notBefore : ∀ i, start ≤ clock i
  utimeFails : Nat → Bool

/-! ### `stamp_fresh` -/

def isSafeStr (path : Str) : Bool :=
  if path.isEmpty || path.head? == some 47 || path.contains 92 then false
  else (splitSlash path).all (fun part => part != [] && part != str "." && part != str "..")

def isSafeRelative (path : PyValue) : Except PyError Bool :=
  match path with
  | .str s => .ok (isSafeStr s)
  -- `not path` comes first, and no other value has `startswith`
  | v => if v.truthy then .error .attributeError else .ok false

structure Stamping where
  ws : Workspace
  stamped : Nat
  failed : Nat

variable (m : Machine)

/-- One round of the loop; `i` counts the entries. -/
def stampEntry (i : Nat) (entry : PyValue) (s : Stamping) : Except PyError Stamping := do
  let path ← entry.getItem (str "path")
  if !(← isSafeRelative path) then
    return s
  match path with
  | .str path =>
    match s.ws.lookup path with
    | .missing => return s
    | .inaccessible _ => return s
    | .unencodable => throw .valueError
    | .file f =>
      if !(s.ws.node f).regular then
        return s
      else if m.utimeFails i then
        return { s with failed := s.failed + 1 }
      else
        return { s with ws := s.ws.setMtime f (m.clock i), stamped := s.stamped + 1 }
  | _ => return s

/-- What is done when an entry raises stays done. -/
def stampLoop : Nat → List PyValue → Stamping → Stamping × Option PyError
  | _, [], s => (s, none)
  | i, entry :: entries, s =>
    match stampEntry m i entry s with
    | .error error => (s, some error)
    | .ok s' => stampLoop (i + 1) entries s'

/-- `json.loads(manifest.read_text())["entries"]` as the loop goes over it. -/
def manifestEntries (manifest : Except PyError PyValue) : Except PyError (List PyValue) := do
  let data ← manifest
  let entries ← data.getItem (str "entries")
  entries.iter

def stampFresh (manifest : Except PyError PyValue) (ws : Workspace) :
    Stamping × Option PyError :=
  let s : Stamping := { ws := ws, stamped := 0, failed := 0 }
  match manifestEntries manifest with
  | .error error => (s, some error)
  | .ok entries => stampLoop m 0 entries s

/-! ### `cmd_replay` -/

structure Report where
  applied : Int
  missing : Int
  sizeMismatch : Int
  modified : Int
  total : Int
  belowWarn : Bool

/-- What the replay process leaves; `report` is `none` where `parse_replay_report` raises. -/
structure ReplayProcess where
  ws : Workspace
  returncode : Int
  report : Option Report

/-- What is printed. -/
inductive Notice where
  | importing
  | noManifest
  | failedToStamp (failed : Nat)
  | unreadableManifest (error : PyError)
  | stamped (count : Nat)
  | replayExited (returncode : Int)
  | unparsableReport
  | report (r : Report)
  | belowWarn

/-- Everything around the replay that the command meets. -/
structure Session where
  machine : Machine
  importUpstream : Bool
  hasMimalloc : Bool
  hasLibxml2 : Bool
  -- `none`: `CalledProcessError`
  runImport : Workspace → Option Workspace
  manifestExists : Bool
  manifest : Except PyError PyValue
  zccacheFound : Bool

structure Outcome where
  ws : Workspace
  result : Except PyError Int
  notices : List Notice

/-- `except (OSError, ValueError, KeyError, TypeError)`. -/
def isCaught : PyError → Bool
  | .osError => true
  | .valueError => true
  | .keyError => true
  | .typeError => true
  | _ => false

variable (session : Session)

def needsImport : Bool :=
  session.importUpstream && (!session.hasMimalloc || !session.hasLibxml2)

def afterImport (ws : Workspace) : Option Workspace :=
  if needsImport session then session.runImport ws else some ws

def failedNotice (failed : Nat) : List Notice :=
  if failed = 0 then [] else [.failedToStamp failed]

def cmdReplay (zccacheReplay : Workspace → ReplayProcess) (ws : Workspace) : Outcome :=
  let imported : List Notice := if needsImport session then [.importing] else []
  match afterImport session ws with
  | none => ⟨ws, .error .calledProcessError, imported⟩
  | some ws =>
    if !session.manifestExists then
      ⟨ws, .ok 0, imported ++ [.noManifest]⟩
    else if !session.zccacheFound then
      ⟨ws, .error .systemExit, imported⟩
    else
      match stampFresh session.machine session.manifest ws with
      | (s, some error) =>
        if isCaught error then ⟨s.ws, .ok 0, imported ++ [.unreadableManifest error]⟩
        else ⟨s.ws, .error error, imported⟩
      | (s, none) =>
        let stamped := imported ++ failedNotice s.failed ++ [.stamped s.stamped]
        let process := zccacheReplay s.ws
        if process.returncode ≠ 0 then
          ⟨process.ws, .ok 0, stamped ++ [.replayExited process.returncode]⟩
        else
          match process.report with
          | none => ⟨process.ws, .ok 0, stamped ++ [.unparsableReport]⟩
          | some report =>
            let warned := if report.belowWarn then [Notice.belowWarn] else []
            ⟨process.ws, .ok 0, stamped ++ [.report report] ++ warned⟩

end LlvmLd.Tools.CiBuild
