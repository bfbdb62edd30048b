import Mathlib.Data.List.Lex
import Mathlib.Data.List.Sort
import LlvmLd.Lib.Bytes
import LlvmLd.Tools.Python

/-!
`tools/materialize_llvm_payload.py`, which makes the payload tree, and the payload check of
`tools/verify.py`, which reads it. Both work on one file system, a list of files by their path.
-/

namespace LlvmLd.Tools.Payload

/-- The names on the way to a file. -/
abbrev Path := List Str

abbrev Files := List (Path × Bytes)

/-- No name has a slash in it. -/
structure FileSystem where
  files : Files
  names : ∀ f ∈ files, ∀ name ∈ f.1, 47 ∉ name

/-- `"/".join(rel.parts)`. -/
def join (rel : Path) : Str := List.intercalate [47] rel

/-- The files of `dir.rglob("*")`, relative to `dir`. -/
def rglob (dir : Path) (files : Files) : Files :=
  files.filterMap (fun f =>
    if dir.isPrefixOf f.1 && dir != f.1 then some (f.1.drop dir.length, f.2) else none)

def rmtree (dir : Path) (files : Files) : Files := files.filter (fun f => !dir.isPrefixOf f.1)

def writeBytes (path : Path) (content : Bytes) (files : Files) : Files :=
  (path, content) :: files.filter (fun f => f.1 != path)

/-- `src.replace(dst)` for directories. -/
def replaceTree (src dst : Path) (files : Files) : Files :=
  files.map (fun f => if src.isPrefixOf f.1 then (dst ++ f.1.drop src.length, f.2) else f)

def isFile (path : Path) (files : Files) : Bool := files.any (fun f => f.1 == path)

/-! ### Where a declared path leads -/

inductive Place where
  | inside (path : Path)
  -- through `..` or a leading slash, out of the tree
  | outside
  | nowhere
  deriving DecidableEq, Repr

def isDir (paths : List Path) (dir : Path) : Bool :=
  dir.isEmpty || paths.any (fun path => dir.isPrefixOf path && dir != path)

/-- Follows the names from the directory `cur` on. -/
def walk (paths : List Path) : Path → List Str → Place
  | cur, [] => if cur ∈ paths then .inside cur else .nowhere
  | cur, name :: rest =>
    if name = str ".." then
      if cur.isEmpty then .outside else walk paths cur.dropLast rest
    else
      let next := cur ++ [name]
      if rest.isEmpty then (if next ∈ paths then .inside next else .nowhere)
      else if isDir paths next then walk paths next rest
      else .nowhere

/-- `PurePosixPath(relative).parts` without the root. -/
def parts (relative : Str) : List Str :=
  (splitSlash relative).filter (fun name => name != [] && name != str ".")

def place (paths : List Path) (relative : Str) : Place :=
  if relative.head? = some 47 then .outside else walk paths [] (parts relative)

/-! ### `materialize_llvm_payload.py` -/

variable {H : Type} [DecidableEq H]

/-- The locked inputs; `H` are the values that the manifest can hold. -/
structure Manifest (H : Type) where
  llvmCommit : Option Str
  files : List (Str × H)
  distinct : (files.map Prod.fst).Nodup

structure PruneDeclaration where
  prune : List Str
  keepExceptions : List Str
  patched : List Str

structure Input (H : Type) where
  -- all resolved
  source : Path
  output : Path
  patchedSource : Path
  manifest : Manifest H
  declaration : PruneDeclaration
  -- what is read at a declared path that leads out of `patchedSource`
  outsidePatched : Str → Option Bytes

inductive Stop where
  | nestedTrees
  | unexpectedCommit
  | implausiblySmall
  | patchedMissing (relative : Str)
  | unsafePath (rel : Path)
  | duplicatePath (relative : Str)
  | drift (relative : Str)
  | missingInputs (first : List Str)
  | stalePrefix (p : Str)
  -- `rmtree` of a plain file
  | osError
  deriving DecidableEq, Repr

structure Summary where
  copied : Nat
  pruned : Nat
  preserved : Nat
  deriving DecidableEq, Repr

def llvmCommit : Str := str "ea7d852a70e8bdfaf601d6626a760f9771b2c4b4"

def isPruned (relative : Str) (prune keepExceptions : List Str) : Bool :=
  if keepExceptions.any (fun k => relative == k || k.isPrefixOf relative) then false
  else prune.any (fun p => p.isPrefixOf relative)

/-- The content of a patched file in `patched_source`. -/
def patchedContent (inp : Input H) (files : Files) (relative : Str) : Option Bytes :=
  let tree := rglob inp.patchedSource files
  match place (tree.map Prod.fst) relative with
  | .inside path => tree.lookup path
  | .outside => inp.outsidePatched relative
  | .nowhere => none

def preserve (inp : Input H) (files : Files) : List Str → Except Stop (List (Str × Bytes))
  | [] => .ok []
  | relative :: patched =>
    match patchedContent inp files relative with
    | none => .error (.patchedMissing relative)
    | some content => do
      let preserved ← preserve inp files patched
      return (relative, content) :: preserved

structure Progress where
  files : Files
  seen : List Str
  pruneHits : Str → Nat
  copied : Nat

/-- The directory beside the output. -/
def stagingOf (output : Path) : Path :=
  output.dropLast ++ [output.getLast?.getD [] ++ str ".materialize-tmp"]

variable (sha256 : Bytes → H) (inp : Input H)

/-- One file of the upstream tree. -/
def copyOne (preserved : List (Str × Bytes)) (progress : Progress) (src : Path × Bytes) :
    Except Stop Progress :=
  let (rel, content) := src
  let relative := join rel
  if rel.contains (str "..") then
    .error (Stop.unsafePath rel)
  else if isPruned relative inp.declaration.prune inp.declaration.keepExceptions then
    -- every declared prefix that matches counts
    let pruneHits (p : Str) : Nat :=
      if p.isPrefixOf relative then progress.pruneHits p + inp.declaration.prune.count p
      else progress.pruneHits p
    .ok { progress with pruneHits := pruneHits }
  else
    match inp.manifest.files.lookup relative with
    | none => .ok progress
    | some want =>
      if relative ∈ progress.seen then
        .error (.duplicatePath relative)
      else
        let seen := relative :: progress.seen
        let dst := stagingOf inp.output ++ rel
        if relative ∈ inp.declaration.patched then
          let kept := (preserved.lookup relative).getD []
          .ok { progress with seen := seen, files := writeBytes dst kept progress.files }
        else if sha256 content ≠ want then
          .error (.drift relative)
        else
          .ok { progress with
            seen := seen
            files := writeBytes dst content progress.files
            copied := progress.copied + 1 }

/-- Where the loop stops, what it has written stays. -/
def copyAll (preserved : List (Str × Bytes)) : Progress → Files → Progress × Option Stop
  | progress, [] => (progress, none)
  | progress, src :: rest =>
    match copyOne sha256 inp preserved progress src with
    | .error stop => (progress, some stop)
    | .ok progress' => copyAll preserved progress' rest

def sortedFiles (files : Files) : Files := files.insertionSort (fun a b => a.1 ≤ b.1)

def materialize (fs : FileSystem) : Files × Except Stop Summary :=
  let staging := stagingOf inp.output
  if inp.output.isPrefixOf inp.source || inp.source.isPrefixOf inp.output then
    (fs.files, .error .nestedTrees)
  else if inp.manifest.llvmCommit ≠ some llvmCommit then
    (fs.files, .error .unexpectedCommit)
  else if inp.manifest.files.length < 100 then
    (fs.files, .error .implausiblySmall)
  else
    match preserve inp fs.files inp.declaration.patched with
    | .error stop => (fs.files, .error stop)
    | .ok preserved =>
      if isFile staging fs.files then
        (fs.files, .error .osError)
      else
        let files := rmtree staging fs.files
        let sources := sortedFiles (rglob inp.source files)
        match copyAll sha256 inp preserved ⟨files, [], fun _ => 0, 0⟩ sources with
        | (progress, some stop) => (progress.files, .error stop)
        | (progress, none) =>
          let missing := (inp.manifest.files.map Prod.fst).filter (fun k => k ∉ progress.seen)
          if missing ≠ [] then
            (progress.files, .error (.missingInputs ((missing.insertionSort (· ≤ ·)).take 20)))
          else
            match inp.declaration.prune.find? (fun p => progress.pruneHits p = 0) with
            | some p => (progress.files, .error (.stalePrefix p))
            | none =>
              if isFile inp.output progress.files then
                (progress.files, .error .osError)
              else
                (replaceTree staging inp.output (rmtree inp.output progress.files), .ok
                  { copied := progress.copied
                    pruned := (inp.declaration.prune.eraseDups.map progress.pruneHits).sum
                    preserved := inp.declaration.patched.length })

/-! ### The payload check of `verify.py` -/

inductive Fault where
  | prunedReappeared (path : Str)
  | differs
  | patchedMissing (relative : Str)
  deriving DecidableEq, Repr

/-- `str(path).replace("\\", "/")`. -/
def slashes (path : Str) : Str := path.map (fun c => if c = 92 then 47 else c)

/-- A dictionary filled in this order; the last value of a key stays. -/
def dictGet (entries : List (Str × H)) (key : Str) : Option H := entries.reverse.lookup key

def sameDict (a b : List (Str × H)) : Bool :=
  (a.map Prod.fst ++ b.map Prod.fst).all (fun key => dictGet a key == dictGet b key)

def actualLlvm (tree : Files) : List (Str × H) :=
  tree.map (fun f => (slashes (join f.1), sha256 f.2))

/-- A declared path is a file of the tree, or of what lies outside. -/
def isDeclaredFile (outside : Str → Bool) (paths : List Path) (relative : Str) : Bool :=
  match place paths relative with
  | .inside _ => true
  | .outside => outside relative
  | .nowhere => false

def payloadCheck (manifest : Manifest H) (declaration : PruneDeclaration)
    (outside : Str → Bool) (tree : Files) : Except Fault Unit :=
  let actual := actualLlvm sha256 tree
  let kept (relative : Str) : Bool :=
    declaration.keepExceptions.any (fun k => relative == k || k.isPrefixOf relative)
  match (actual.map Prod.fst).find? (fun path =>
      declaration.prune.any (fun p => p.isPrefixOf path && !kept path)) with
  | some path => .error (.prunedReappeared path)
  | none =>
    if !sameDict actual manifest.files then
      .error .differs
    else
      match declaration.patched.find? (fun relative =>
          !isDeclaredFile outside (tree.map Prod.fst) relative) with
      | some relative => .error (.patchedMissing relative)
      | none => .ok ()

end LlvmLd.Tools.Payload
