import Mathlib.Data.List.Lex
import Mathlib.Data.Set.Function
import LlvmLd.Lib.Framing
import LlvmLd.Lib.Utf8
import LlvmLd.Tools.Payload

/-!
The cache keys over a source tree: `hash_paths` and `pgo_key` of `tools/bench_ci.py`, and
`hash_inputs` of `tools/ci_build.py`. What is fed to SHA-256 is modelled; SHA-256 itself is a
parameter.
-/

namespace LlvmLd.Tools.CacheKeys

open Payload (Path Files join)

/-! ### Text -/

/-- The characters of a `str`; a lone surrogate is none. -/
def chars (s : Str) : Option (List Char) :=
  s.mapM fun n => if n.isValidChar then some (Char.ofNat n) else none

/-- `s.encode()`; a `UnicodeEncodeError` is a `ValueError`. -/
def encode (s : Str) : Except PyError Bytes :=
  match chars s with
  | some cs => .ok (cs.flatMap String.utf8EncodeChar)
  | none => .error .valueError

/-- `path.suffix` by the last name of the path. -/
def suffix (name : Str) : Str :=
  let tail := (name.reverse.takeWhile (· ≠ 46)).reverse
  let i := name.length - tail.length - 1
  if 46 ∈ name ∧ 0 < i ∧ i < name.length - 1 then name.drop i else []

/-! ### The tree -/

/-- The regular files below the root, in some order, and the directories. -/
structure SourceTree where
  files : Files
  dirs : List Path
  distinct : (files.map Prod.fst).Nodup
  noDir : ∀ f ∈ files, f.1 ∉ dirs
  parents : ∀ f ∈ files, ∀ dir ∈ f.1.dropLast.inits, dir ∈ dirs
  -- no name is empty or has a slash or a NUL in it
  names : ∀ f ∈ files, ∀ name ∈ f.1, name ≠ [] ∧ 47 ∉ name ∧ 0 ∉ name

namespace SourceTree

/-- The files of `target.rglob("*")`, by their path from the root. -/
def filesUnder (t : SourceTree) (target : Path) : Files :=
  t.files.filter fun f => target.isPrefixOf f.1 && target != f.1

/-- `path.read_bytes() if path.exists()`. -/
def read (t : SourceTree) (path : Path) : Option Bytes := t.files.lookup path

end SourceTree

/-- The hexadecimal digest of SHA-256, encoded. -/
structure Sha256 where
  hexdigest : Bytes → Bytes
  length_hexdigest : ∀ b, (hexdigest b).length = 64

/-! ### `tools/bench_ci.py` -/

def PGO_KEY_PATHS : List Path :=
  [str "provenance/llvm-source-closure.json", str "provenance/payload-prune.json",
    str "CMakeLists.txt", str "exports.map", str "cmake", str "src", str "include",
    str "tools/direct_runner.cpp", str "tools/pgo_build.py", str "tools/ci_build.py",
    str "tests/perf/gen_corpus.py"].map splitSlash

/-- What stands for a missing file. -/
def missing : Bytes := [0x3C, 0x6D, 0x69, 0x73, 0x73, 0x69, 0x6E, 0x67, 0x3E]

section HashPaths

variable (t : SourceTree)

instance lawfulPath : LawfulBEq Path := inferInstance

/-- The paths and contents that the loops of `hash_paths` go over. -/
def pathEntries (paths : List Path) : List (Str × Option Bytes) :=
  paths.flatMap fun target =>
    let files :=
      if target ∈ t.dirs then
        ((t.filesUnder target).map Prod.fst).mergeSort (fun p q => decide (p ≤ q))
      else [target]
    files.map fun path => (join path, t.read path)

/-- What is fed to the digest for one file. -/
def updatePath (digest : Bytes) (entry : Str × Option Bytes) : Except PyError Bytes := do
  let digest := digest ++ (← encode entry.1)
  let digest := digest ++ [0]
  let digest := digest ++ entry.2.getD missing
  return digest ++ [0]

/-- What `hash_paths` hashes. -/
def hashPathsInput (paths : List Path) : Except PyError Bytes :=
  (pathEntries t paths).foldlM updatePath []

variable (sha256 : Sha256)

def hashPaths (paths : List Path) : Except PyError Bytes :=
  sha256.hexdigest <$> hashPathsInput t paths

/-- What the digest of `pgo_key` is fed. -/
def pgoKeyInput (identities : List Str) : Except PyError Bytes := do
  identities.foldlM (fun digest identity => return digest ++ (0 :: (← encode identity)))
    (← hashPaths t sha256 PGO_KEY_PATHS)

/-- `platform` is that of `sys`. -/
def pgoKey (platform : Bytes) (identities : List Str) : Except PyError Bytes := do
  let digest := sha256.hexdigest (← pgoKeyInput t sha256 identities)
  -- pgo-bolt-{sys.platform}-{digest.hexdigest()[:24]}
  return [0x70, 0x67, 0x6F, 0x2D, 0x62, 0x6F, 0x6C, 0x74, 0x2D] ++ platform ++ [0x2D] ++
    digest.take 24

end HashPaths

/-! ### `tools/ci_build.py` -/

section HashInputs

variable (t : SourceTree) (workspace : Path)

/-- The candidates that count; `candidate.parts` begins with those of the workspace. -/
def counts (path : Path) : Bool :=
  !(workspace ++ path).contains (str "__pycache__") && suffix (path.getLastD []) != str ".pyc"

/-- The files that `hash_inputs` collects. -/
def collect (paths : List Path) : Files :=
  paths.flatMap fun target =>
    if target ∈ t.dirs then (t.filesUnder target).filter fun f => counts workspace f.1
    else ((t.read target).map fun content => (target, content)).toList

/-- Their relative paths and contents, in the order in which they are hashed. -/
def inputEntries (paths : List Path) : List (Str × Bytes) :=
  ((collect t workspace paths).mergeSort fun f g => decide (join f.1 ≤ join g.1)).map
    fun f => (join f.1, f.2)

variable (sha256 : Sha256)

/-- `f"{relative}\0{content_sha}\n"`. -/
def updateInput (digest : Bytes) (entry : Str × Bytes) : Except PyError Bytes := do
  return digest ++ ((← encode entry.1) ++ 0 :: (sha256.hexdigest entry.2 ++ [10]))

/-- What the digest of `hash_inputs` is fed. -/
def hashInputsInput (paths : List Path) : Except PyError Bytes :=
  (inputEntries t workspace paths).foldlM (updateInput sha256) []

def hashInputs (paths : List Path) : Except PyError Bytes :=
  sha256.hexdigest <$> hashInputsInput t workspace sha256 paths

end HashInputs

/-! ## What encoding keeps -/

private theorem chars_cons (n : Nat) (s : Str) (cs : List Char) :
    chars (n :: s) = some cs ↔
      n.isValidChar ∧ ∃ rest, chars s = some rest ∧ cs = Char.ofNat n :: rest := by
  simp only [chars]
  rw [List.mapM_cons]
  by_cases valid : n.isValidChar
  · cases List.mapM (fun n => if n.isValidChar then some (Char.ofNat n) else none) s <;>
      simp [valid, eq_comm]
  · simp [valid]

private theorem chars_toNat (s : Str) (cs : List Char) (valid : chars s = some cs) :
    cs.map Char.toNat = s := by
  induction s generalizing cs with
  | nil =>
    cases valid
    rfl
  | cons n s ih =>
    obtain ⟨isValid, rest, there, rfl⟩ := (chars_cons n s cs).mp valid
    rw [List.map_cons, ih rest there, Char.ofNat, dif_pos isValid]
    rfl

private theorem encode_eq_ok_iff (s : Str) (b : Bytes) :
    encode s = .ok b ↔ ∃ cs, chars s = some cs ∧ b = cs.flatMap String.utf8EncodeChar := by
  simp only [encode]
  cases chars s <;> simp [eq_comm]

private theorem encode_inj {s s' : Str} {b : Bytes} (encoded : encode s = .ok b)
    (encoded' : encode s' = .ok b) : s = s' := by
  obtain ⟨cs, valid, rfl⟩ := (encode_eq_ok_iff s b).mp encoded
  obtain ⟨cs', valid', same⟩ := (encode_eq_ok_iff s' _).mp encoded'
  have bytes : (String.ofList cs).toByteArray = (String.ofList cs').toByteArray := by
    rw [String.toByteArray_ofList, String.toByteArray_ofList, List.utf8Encode, List.utf8Encode, same]
  have text : cs = cs' := String.ofList_injective (String.toByteArray_inj.mp bytes)
  rw [← chars_toNat s cs valid, ← chars_toNat s' cs' valid', text]

private theorem encode_nul {s : Str} {b : Bytes} (encoded : encode s = .ok b) (free : 0 ∉ s) :
    0 ∉ b := by
  obtain ⟨cs, valid, rfl⟩ := (encode_eq_ok_iff s b).mp encoded
  refine Utf8.Valid.no_nul _ ⟨cs, fun c member nul => free ?_, rfl⟩
  rw [← chars_toNat s cs valid]
  exact List.mem_map.mpr ⟨c, member, by rw [nul]; rfl⟩

private theorem join_nul (path : Path) (free : ∀ name ∈ path, 0 ∉ name) : 0 ∉ join path := by
  simp only [join]
  induction path with
  | nil => simp [List.intercalate]
  | cons name rest ih =>
    have later := ih fun other member => free other (List.mem_cons_of_mem _ member)
    have here := free name (List.mem_cons_self ..)
    cases rest with
    | nil => simpa using here
    | cons other rest =>
      rw [List.intercalate_cons_cons]
      simp [here, later]

/-! ## When the keys tell builds apart -/

/-- What a key is made for; `root` leads to the tree. -/
structure Build where
  root : Path
  tree : SourceTree
  identities : List Str

def Build.entries (a : Build) : List (Str × Option Bytes) := pathEntries a.tree PGO_KEY_PATHS

/-- A path and what is hashed for its content, as bytes. -/
def encodeEntry (entry : Str × Option Bytes) : Except PyError (Bytes × Bytes) := do
  return (← encode entry.1, entry.2.getD missing)

/-- What is fed for one file. -/
def frame (entry : Bytes × Bytes) : Bytes := entry.1 ++ 0 :: (entry.2 ++ [0])

/-- A file whose content goes on, behind a NUL, with the path and the content of another one. -/
def swallow (a b : Bytes × Bytes) : Bytes × Bytes := (a.1, a.2 ++ 0 :: (b.1 ++ 0 :: b.2))

/-- Two identities with a NUL between them. -/
def glue (a b : Bytes) : Bytes := a ++ 0 :: b

/-- Two builds that differ, but only in what is two files and what is one file that swallows
another, in what is missing and what has the content `<missing>`, and in what is two identities
and what is one with a NUL in it. -/
def Confusable (a b : Build) : Prop :=
  ¬ (a.entries = b.entries ∧ a.identities = b.identities) ∧
    ∃ files files' identities identities',
      a.entries.mapM encodeEntry = .ok files ∧ b.entries.mapM encodeEntry = .ok files' ∧
      a.identities.mapM encode = .ok identities ∧ b.identities.mapM encode = .ok identities' ∧
      Framing.Confused swallow files files' ∧ Framing.Confused glue identities identities'

section Keys

variable (sha256 : Sha256) (a b : Build)

/-- Where `pgo_key` ends for both builds, it hashes the same for both exactly if they have the same
paths and contents and the same identities. -/
def PgoKeySeparates : Prop :=
  ∀ input input', pgoKeyInput a.tree sha256 a.identities = .ok input →
    pgoKeyInput b.tree sha256 b.identities = .ok input' →
    (input = input' ↔ a.entries = b.entries ∧ a.identities = b.identities)

/-- The same for `hash_inputs`. -/
def HashInputsSeparates (paths : List Path) : Prop :=
  ∀ input input', hashInputsInput a.tree a.root sha256 paths = .ok input →
    hashInputsInput b.tree b.root sha256 paths = .ok input' →
    (input = input' ↔ inputEntries a.tree a.root paths = inputEntries b.tree b.root paths)

/-- What is hashed on the way to the last digest. -/
def Hashed : Set Bytes := fun s =>
  hashPathsInput a.tree PGO_KEY_PATHS = .ok s ∨ hashPathsInput b.tree PGO_KEY_PATHS = .ok s ∨
    ∃ f ∈ a.tree.files ++ b.tree.files, f.2 = s

end Keys

/-! ### What is fed, as a list of pieces -/

/-- A loop that encodes its items one by one feeds the frames of all of them. -/
private theorem foldlM_feed {X Y : Type} (enc : X → Except PyError Y) (piece : Y → Bytes)
    (l : List X) (digest input : Bytes) :
    l.foldlM (fun digest x => return digest ++ piece (← enc x)) digest = .ok input ↔
      ∃ items, l.mapM enc = .ok items ∧ input = digest ++ items.flatMap piece := by
  induction l generalizing digest with
  | nil => simp [eq_comm, pure, Except.pure]
  | cons x rest ih =>
    rw [List.foldlM_cons, List.mapM_cons]
    cases here : enc x with
    | error e => simp [bind, Except.bind]
    | ok y =>
      refine (ih (digest ++ piece y)).trans ?_
      cases later : rest.mapM enc with
      | error e => simp [bind, Except.bind]
      | ok items => simp [bind, Except.bind, pure, Except.pure]

private theorem updatePath_eq (digest : Bytes) (entry : Str × Option Bytes) :
    updatePath digest entry = (do return digest ++ frame (← encodeEntry entry)) := by
  simp only [updatePath, encodeEntry]
  cases encode entry.1 with
  | error e => rfl
  | ok path => simp [bind, Except.bind, pure, Except.pure, frame]

private theorem hashPathsInput_eq_ok_iff (t : SourceTree) (paths : List Path) (input : Bytes) :
    hashPathsInput t paths = .ok input ↔
      ∃ files, (pathEntries t paths).mapM encodeEntry = .ok files ∧ input = files.flatMap frame := by
  simp only [hashPathsInput]
  rw [show updatePath = fun digest entry => (do return digest ++ frame (← encodeEntry entry)) from
    funext fun digest => funext (updatePath_eq digest)]
  exact foldlM_feed encodeEntry frame _ [] input

private theorem pgoKeyInput_eq_ok_iff (t : SourceTree) (sha256 : Sha256) (l : List Str)
    (input : Bytes) :
    pgoKeyInput t sha256 l = .ok input ↔
      ∃ inner identities, hashPathsInput t PGO_KEY_PATHS = .ok inner ∧
        l.mapM encode = .ok identities ∧
        input = sha256.hexdigest inner ++ identities.flatMap (0 :: ·) := by
  simp only [pgoKeyInput, hashPaths]
  cases inner : hashPathsInput t PGO_KEY_PATHS with
  | error e => simp [bind, Except.bind, Functor.map, Except.map]
  | ok hashed =>
    refine (foldlM_feed encode (0 :: ·) l (sha256.hexdigest hashed) input).trans ?_
    simp

private def encodeInput (entry : Str × Bytes) : Except PyError (Bytes × Bytes) := do
  return (← encode entry.1, entry.2)

private def inputFrame (sha256 : Sha256) (entry : Bytes × Bytes) : Bytes :=
  entry.1 ++ 0 :: (sha256.hexdigest entry.2 ++ [10])

private theorem updateInput_eq (sha256 : Sha256) (digest : Bytes) (entry : Str × Bytes) :
    updateInput sha256 digest entry =
      (do return digest ++ inputFrame sha256 (← encodeInput entry)) := by
  simp only [updateInput, encodeInput]
  cases encode entry.1 with
  | error e => rfl
  | ok path => rfl

private theorem hashInputsInput_eq_ok_iff (t : SourceTree) (root : Path) (sha256 : Sha256)
    (paths : List Path) (input : Bytes) :
    hashInputsInput t root sha256 paths = .ok input ↔
      ∃ items, (inputEntries t root paths).mapM encodeInput = .ok items ∧
        input = items.flatMap (inputFrame sha256) := by
  simp only [hashInputsInput]
  rw [show updateInput sha256 =
      fun digest entry => (do return digest ++ inputFrame sha256 (← encodeInput entry)) from
    funext fun digest => funext (updateInput_eq sha256 digest)]
  exact foldlM_feed encodeInput (inputFrame sha256) _ [] input

/-! ### Paths without NUL -/

private theorem mapM_cases {X Y : Type} {f : X → Except PyError Y} {l : List X} {items : List Y}
    (mapped : l.mapM f = .ok items) : List.Forall₂ (fun x y => f x = .ok y) l items := by
  induction l generalizing items with
  | nil =>
    cases mapped
    exact .nil
  | cons x rest ih =>
    rw [List.mapM_cons] at mapped
    cases here : f x with
    | error e => simp [here, bind, Except.bind] at mapped
    | ok y =>
      cases later : rest.mapM f with
      | error e => simp [here, later, bind, Except.bind] at mapped
      | ok others =>
        simp only [here, later, bind, Except.bind, pure, Except.pure, Except.ok.injEq] at mapped
        subst mapped
        exact .cons here (ih later)

private theorem mapM_mem {X Y : Type} {f : X → Except PyError Y} {l : List X} {items : List Y}
    (mapped : l.mapM f = .ok items) {y : Y} (member : y ∈ items) : ∃ x ∈ l, f x = .ok y := by
  have all := mapM_cases mapped
  clear mapped
  induction all with
  | nil => cases member
  | cons here _ ih =>
    rcases List.mem_cons.mp member with rfl | later
    · exact ⟨_, List.mem_cons_self .., here⟩
    · obtain ⟨x, inside, there⟩ := ih later
      exact ⟨x, List.mem_cons_of_mem _ inside, there⟩

private theorem mapM_inj {X Y : Type} {f : X → Except PyError Y} {l l' : List X} {items : List Y}
    (inj : ∀ x ∈ l, ∀ x' ∈ l', ∀ y, f x = .ok y → f x' = .ok y → x = x')
    (mapped : l.mapM f = .ok items) (mapped' : l'.mapM f = .ok items) : l = l' := by
  have all := mapM_cases mapped
  have all' := mapM_cases mapped'
  clear mapped mapped'
  induction all generalizing l' with
  | nil =>
    cases all'
    rfl
  | @cons x y rest items here _ ih =>
    cases all' with
    | @cons x' _ rest' _ there others =>
      -- equal results come from equal entries, place by place
      have head : x = x' :=
        inj x (List.mem_cons_self ..) x' (List.mem_cons_self ..) y here there
      have tail : rest = rest' :=
        ih (fun z member z' member' =>
          inj z (List.mem_cons_of_mem _ member) z' (List.mem_cons_of_mem _ member')) others
      rw [head, tail]

private theorem encodeInput_eq_ok_iff (entry : Str × Bytes) (item : Bytes × Bytes) :
    encodeInput entry = .ok item ↔ encode entry.1 = .ok item.1 ∧ entry.2 = item.2 := by
  simp only [encodeInput]
  cases encode entry.1 <;> simp [bind, Except.bind, pure, Except.pure, Prod.ext_iff]

private theorem encodeEntry_eq_ok_iff (entry : Str × Option Bytes) (item : Bytes × Bytes) :
    encodeEntry entry = .ok item ↔ encode entry.1 = .ok item.1 ∧ entry.2.getD missing = item.2 := by
  simp only [encodeEntry]
  cases encode entry.1 <;> simp [bind, Except.bind, pure, Except.pure, Prod.ext_iff]

private theorem SourceTree.path_nul (t : SourceTree) {f : Path × Bytes} (member : f ∈ t.files) :
    0 ∉ join f.1 :=
  join_nul f.1 fun name inPath => (t.names f member name inPath).2.2

private theorem keyPaths_nul : ∀ path ∈ PGO_KEY_PATHS, 0 ∉ join path := by decide

private theorem Build.entries_nul (a : Build) {entry : Str × Option Bytes}
    (member : entry ∈ a.entries) : 0 ∉ entry.1 := by
  obtain ⟨target, isKey, inside⟩ := List.mem_flatMap.mp member
  obtain ⟨path, listed, rfl⟩ := List.mem_map.mp inside
  split at listed
  · obtain ⟨f, under, rfl⟩ := List.mem_map.mp (List.mem_mergeSort.mp listed)
    exact a.tree.path_nul (List.mem_filter.mp under).1
  · cases List.mem_singleton.mp listed
    exact keyPaths_nul _ isKey

private theorem collect_mem (t : SourceTree) (root : Path) (paths : List Path) {f : Path × Bytes}
    (member : f ∈ collect t root paths) : f ∈ t.files := by
  obtain ⟨target, -, inside⟩ := List.mem_flatMap.mp member
  split at inside
  · exact (List.mem_filter.mp (List.mem_filter.mp inside).1).1
  · obtain ⟨content, found, rfl⟩ := Option.map_eq_some_iff.mp (Option.mem_toList.mp inside)
    obtain ⟨before, after, split, -⟩ := List.lookup_eq_some_iff.mp found
    rw [split]
    exact List.mem_append_right _ (List.mem_cons_self ..)

private theorem inputEntries_mem (t : SourceTree) (root : Path) (paths : List Path)
    {entry : Str × Bytes} (member : entry ∈ inputEntries t root paths) :
    ∃ f ∈ t.files, entry = (join f.1, f.2) := by
  obtain ⟨f, sorted, rfl⟩ := List.mem_map.mp member
  exact ⟨f, collect_mem t root paths (List.mem_mergeSort.mp sorted), rfl⟩

/-! ### The two keys -/

section Keys

variable {sha256 : Sha256} {a b : Build}

private theorem frame_swallow (x y : Bytes × Bytes) : frame (swallow x y) = frame x ++ frame y := by
  simp [frame, swallow]

private theorem frame_single (x y : Bytes × Bytes) (free : 0 ∉ x.1) (free' : 0 ∉ y.1)
    (same : frame x = frame y) : x = y := by
  obtain ⟨name, content⟩ := Framing.append_cons_inj free free' same
  exact Prod.ext name (List.append_cancel_right content)

/-- The files of two builds are fed alike exactly if they are confused. -/
private theorem files_eq_iff {files files' : List (Bytes × Bytes)}
    (encoded : a.entries.mapM encodeEntry = .ok files)
    (encoded' : b.entries.mapM encodeEntry = .ok files') :
    files.flatMap frame = files'.flatMap frame ↔ Framing.Confused swallow files files' := by
  have free : ∀ (c : Build) items, c.entries.mapM encodeEntry = .ok items →
      ∀ item ∈ items, 0 ∉ item.1 := by
    intro c items mapped item member
    obtain ⟨entry, listed, here⟩ := mapM_mem mapped member
    exact encode_nul ((encodeEntry_eq_ok_iff entry item).mp here).1 (c.entries_nul listed)
  have kept : ∀ x y : Bytes × Bytes, 0 ∉ x.1 → 0 ∉ (swallow x y).1 := fun _ _ isFree => isFree
  exact Framing.flatMap_eq_iff_confused frame_swallow kept (fun x => by simp [frame]) frame_single
    (free a files encoded)
    (free b files' encoded')

private theorem identities_eq_iff (identities identities' : List Bytes) :
    identities.flatMap ((0 : UInt8) :: ·) = identities'.flatMap (0 :: ·) ↔
      Framing.Confused glue identities identities' :=
  have kept : ∀ x y : Bytes, True → (fun _ => True) (glue x y) := fun _ _ _ => trivial
  Framing.flatMap_eq_iff_confused (fun x y => by simp [glue]) kept (fun x => by simp)
    (fun x y _ _ same => List.cons.inj same |>.2) (fun _ _ => trivial) (fun _ _ => trivial)

private theorem pgoKey_separates_iff
    (noCollision : Set.InjOn sha256.hexdigest (Hashed a b)) :
    PgoKeySeparates sha256 a b ↔ ¬ Confusable a b := by
  constructor
  · rintro separates ⟨differ, files, files', ids, ids', encoded, encoded', idsA, idsB, swallowed,
      glued⟩
    refine differ ((separates (sha256.hexdigest (files.flatMap frame) ++ ids.flatMap (0 :: ·)) _
      ?_ ?_).mp rfl)
    · exact (pgoKeyInput_eq_ok_iff _ _ _ _).mpr
        ⟨_, ids, (hashPathsInput_eq_ok_iff _ _ _).mpr ⟨files, encoded, rfl⟩, idsA, rfl⟩
    · rw [(files_eq_iff encoded encoded').mpr swallowed, (identities_eq_iff ids ids').mpr glued]
      exact (pgoKeyInput_eq_ok_iff _ _ _ _).mpr
        ⟨_, ids', (hashPathsInput_eq_ok_iff _ _ _).mpr ⟨files', encoded', rfl⟩, idsB, rfl⟩
  · intro clear input input' fed fed'
    obtain ⟨inner, ids, hashed, idsA, rfl⟩ := (pgoKeyInput_eq_ok_iff _ _ _ _).mp fed
    obtain ⟨inner', ids', hashed', idsB, rfl⟩ := (pgoKeyInput_eq_ok_iff _ _ _ _).mp fed'
    obtain ⟨files, encoded, rfl⟩ := (hashPathsInput_eq_ok_iff _ _ _).mp hashed
    obtain ⟨files', encoded', rfl⟩ := (hashPathsInput_eq_ok_iff _ _ _).mp hashed'
    constructor
    · intro same
      by_contra differ
      -- the digest has a fixed length, so what is hashed and the identities are read off apart
      obtain ⟨digests, rest⟩ := List.append_inj same
        (by rw [sha256.length_hexdigest, sha256.length_hexdigest])
      have inner := noCollision (Or.inl hashed) (Or.inr (Or.inl hashed')) digests
      exact clear ⟨differ, files, files', ids, ids', encoded, encoded', idsA, idsB,
        (files_eq_iff encoded encoded').mp inner, (identities_eq_iff ids ids').mp rest⟩
    · rintro ⟨sameFiles, sameIds⟩
      rw [← Build.entries, sameFiles, Build.entries, encoded'] at encoded
      rw [sameIds, idsB] at idsA
      cases encoded
      cases idsA
      rfl

/-- A path, a NUL and a digest of fixed length are read off whatever follows. -/
private theorem inputFrame_prefixFree (hashed : Set Bytes)
    (noCollision : Set.InjOn sha256.hexdigest hashed) :
    Framing.PrefixFree (fun item => 0 ∉ item.1 ∧ item.2 ∈ hashed) (inputFrame sha256) := by
  rintro x y rest rest' ⟨free, inX⟩ ⟨free', inY⟩ same
  simp only [inputFrame] at same
  rw [List.append_assoc, List.append_assoc, List.cons_append, List.cons_append] at same
  obtain ⟨name, behind⟩ := Framing.append_cons_inj free free' same
  rw [List.append_assoc, List.append_assoc] at behind
  obtain ⟨digests, -⟩ := List.append_inj behind
    (by rw [sha256.length_hexdigest, sha256.length_hexdigest])
  exact Prod.ext name (noCollision inX inY digests)

private theorem hashInputs_separates (noCollision : Set.InjOn sha256.hexdigest (Hashed a b))
    (paths : List Path) : HashInputsSeparates sha256 a b paths := by
  intro input input' fed fed'
  obtain ⟨items, mapped, rfl⟩ := (hashInputsInput_eq_ok_iff _ _ _ _ _).mp fed
  obtain ⟨items', mapped', rfl⟩ := (hashInputsInput_eq_ok_iff _ _ _ _ _).mp fed'
  -- a path has no NUL, and the content is among what has been hashed
  have good : ∀ (c : Build) l, (∀ f ∈ c.tree.files, f.2 ∈ Hashed a b) →
      (inputEntries c.tree c.root paths).mapM encodeInput = .ok l →
      ∀ item ∈ l, 0 ∉ item.1 ∧ item.2 ∈ Hashed a b := by
    intro c l contents encoded item member
    obtain ⟨entry, listed, here⟩ := mapM_mem encoded member
    obtain ⟨path, content⟩ := (encodeInput_eq_ok_iff entry item).mp here
    obtain ⟨f, inTree, rfl⟩ := inputEntries_mem c.tree c.root paths listed
    exact ⟨encode_nul path (c.tree.path_nul inTree), content ▸ contents f inTree⟩
  have contentsA : ∀ f ∈ a.tree.files, f.2 ∈ Hashed a b := fun f member =>
    Or.inr (Or.inr ⟨f, List.mem_append_left _ member, rfl⟩)
  have contentsB : ∀ f ∈ b.tree.files, f.2 ∈ Hashed a b := fun f member =>
    Or.inr (Or.inr ⟨f, List.mem_append_right _ member, rfl⟩)
  constructor
  · intro same
    have whole := Framing.flatMap_inj (inputFrame_prefixFree _ noCollision)
      (fun x => by simp [inputFrame]) (good a items contentsA mapped)
      (good b items' contentsB mapped') same
    subst whole
    refine mapM_inj (fun x _ x' _ y here there => ?_) mapped mapped'
    obtain ⟨path, content⟩ := (encodeInput_eq_ok_iff x y).mp here
    obtain ⟨path', content'⟩ := (encodeInput_eq_ok_iff x' y).mp there
    exact Prod.ext (encode_inj path path') (content.trans content'.symm)
  · intro same
    rw [same, mapped'] at mapped
    cases mapped
    rfl

/-- Where SHA-256 does not collide, both keys tell two builds apart, if and only if the builds are
not confusable. -/
theorem keys_separate_iff (sha256 : Sha256) (a b : Build) (paths : List Path)
    (noCollision : Set.InjOn sha256.hexdigest (Hashed a b)) :
    PgoKeySeparates sha256 a b ∧ HashInputsSeparates sha256 a b paths ↔ ¬ Confusable a b := by
  rw [and_iff_left (hashInputs_separates noCollision paths)]
  exact pgoKey_separates_iff noCollision

end Keys

/-! ### Builds that are not confusable -/

/-- No content has a NUL in it or is the placeholder, and no identity has a NUL in it. -/
def Plain (a : Build) : Prop :=
  (∀ entry ∈ a.entries, ∀ content, entry.2 = some content → 0 ∉ content ∧ content ≠ missing) ∧
    ∀ identity ∈ a.identities, 0 ∉ identity

section Plain

variable {a b : Build}

private theorem plain_files (plain : Plain a) {files : List (Bytes × Bytes)}
    (encoded : a.entries.mapM encodeEntry = .ok files) :
    ∀ item ∈ files, 0 ∉ item.1 ∧ 0 ∉ item.2 := by
  intro item member
  obtain ⟨entry, listed, here⟩ := mapM_mem encoded member
  obtain ⟨path, content⟩ := (encodeEntry_eq_ok_iff entry item).mp here
  refine ⟨encode_nul path (a.entries_nul listed), ?_⟩
  cases found : entry.2 with
  | none =>
    rw [← content, found]
    decide
  | some c =>
    rw [← content, found]
    exact (plain.1 entry listed c found).1

private theorem frame_prefixFree :
    Framing.PrefixFree (fun item : Bytes × Bytes => 0 ∉ item.1 ∧ 0 ∉ item.2) frame := by
  rintro x y rest rest' ⟨name, content⟩ ⟨name', content'⟩ same
  simp only [frame, List.append_assoc, List.cons_append, List.nil_append] at same
  obtain ⟨names, behind⟩ := Framing.append_cons_inj name name' same
  exact Prod.ext names (Framing.append_cons_inj content content' behind).1

/-- The pieces between the NULs are the identities. -/
private theorem identities_inj {l l' : List Bytes} (free : ∀ x ∈ l, 0 ∉ x) (free' : ∀ x ∈ l', 0 ∉ x)
    (same : l.flatMap ((0 : UInt8) :: ·) = l'.flatMap (0 :: ·)) : l = l' := by
  -- with one more NUL at the end, each identity is closed by the NUL of the next one
  have shift : ∀ l : List Bytes,
      l.flatMap ((0 : UInt8) :: ·) ++ [0] = 0 :: l.flatMap (fun x => x ++ [0]) := by
    intro l
    induction l with
    | nil => rfl
    | cons x rest ih => simp [ih]
  have closed : l.flatMap (fun x => x ++ [(0 : UInt8)]) = l'.flatMap (fun x => x ++ [0]) := by
    have whole := congrArg (· ++ [(0 : UInt8)]) same
    simpa [shift] using whole
  have closes : Framing.PrefixFree (fun x : Bytes => 0 ∉ x) fun x => x ++ [0] := by
    intro x y rest rest' freeX freeY equal
    simp only [List.append_assoc, List.cons_append, List.nil_append] at equal
    exact (Framing.append_cons_inj freeX freeY equal).1
  exact Framing.flatMap_inj closes (by simp) free free' closed

private theorem plain_identities (plain : Plain a) {identities : List Bytes}
    (encoded : a.identities.mapM encode = .ok identities) : ∀ x ∈ identities, 0 ∉ x := by
  intro x member
  obtain ⟨identity, listed, here⟩ := mapM_mem encoded member
  exact encode_nul here (plain.2 identity listed)

/-- Two builds of plain files and identities are told apart. -/
theorem not_confusable_of_plain (plain : Plain a) (plain' : Plain b) : ¬ Confusable a b := by
  rintro ⟨differ, files, files', ids, ids', encoded, encoded', idsA, idsB, swallowed, glued⟩
  have sameFiles : files = files' :=
    Framing.flatMap_inj frame_prefixFree (fun x => by simp [frame]) (plain_files plain encoded)
      (plain_files plain' encoded') ((files_eq_iff encoded encoded').mpr swallowed)
  have sameIds : ids = ids' :=
    identities_inj (plain_identities plain idsA) (plain_identities plain' idsB)
      ((identities_eq_iff ids ids').mpr glued)
  subst sameFiles sameIds
  refine differ ⟨mapM_inj (fun x inA x' inB item here there => ?_) encoded encoded',
    mapM_inj (fun x _ x' _ y => encode_inj) idsA idsB⟩
  obtain ⟨path, content⟩ := (encodeEntry_eq_ok_iff x item).mp here
  obtain ⟨path', content'⟩ := (encodeEntry_eq_ok_iff x' item).mp there
  refine Prod.ext (encode_inj path path') ?_
  -- a missing file is told from one whose content is not the placeholder
  rw [← content'] at content
  cases found : x.2 with
  | none =>
    cases found' : x'.2 with
    | none => rfl
    | some c' =>
      rw [found, found'] at content
      exact absurd content.symm (plain'.1 x' inB c' found').2
  | some c =>
    cases found' : x'.2 with
    | none =>
      rw [found, found'] at content
      exact absurd content (plain.1 x inA c found).2
    | some c' =>
      rw [found, found'] at content
      exact congrArg some content

end Plain

/-! ### Two builds with another list of sources -/

/-- A tree whose only file is a CMake list. -/
def listsOnly (content : Bytes) : Build where
  root := []
  identities := []
  tree := {
    files := [([str "CMakeLists.txt"], content)]
    dirs := [[]]
    distinct := List.nodup_singleton _
    noDir := by simp
    parents := by simp
    names := by
      intro f member name inPath
      cases List.mem_singleton.mp member
      cases List.mem_singleton.mp inPath
      decide }

/-- The digests of what is hashed for the lists `a` and `b`. -/
def sampleSha256 : Sha256 where
  hexdigest := fun b =>
    if hashPathsInput (listsOnly [97]).tree PGO_KEY_PATHS = .ok b then
      (str "fe0a822198a8f01abbb95e88485ea58de8553ec5bbd4a3cdec55ee820b5e8299").map UInt8.ofNat
    else if hashPathsInput (listsOnly [98]).tree PGO_KEY_PATHS = .ok b then
      (str "a50a470db02521f3f0092b3440e248f5979b845124172145701118399da312b1").map UInt8.ofNat
    else if b = [97] then
      (str "ca978112ca1bbdcafac231b39a23dc4da786eff8147c4e72b9807785afee48bb").map UInt8.ofNat
    else
      (str "3e23e8160039594a33894f6564e1b1348bbd7a0088d42c4acb73eeaed59c009d").map UInt8.ofNat
  length_hexdigest := fun b => by
    split
    · decide
    · split
      · decide
      · split <;> decide

private theorem listsOnly_plain (c : UInt8) (found : c = 97 ∨ c = 98) :
    Plain (listsOnly [c]) := by
  refine ⟨fun entry member content present => ?_, by simp [listsOnly]⟩
  have contents : ∀ c ∈ [(97 : UInt8), 98], ∀ entry ∈ (listsOnly [c]).entries,
      entry.2 = none ∨ entry.2 = some [c] := by decide +kernel
  rcases contents c (by simpa using found) entry member with none' | some'
  · rw [none'] at present
    cases present
  · rw [some'] at present
    cases present
    rcases found with rfl | rfl <;> decide

private theorem sample_noCollision :
    Set.InjOn sampleSha256.hexdigest (Hashed (listsOnly [97]) (listsOnly [98])) := by
  obtain ⟨inner, hashed⟩ : ∃ inner,
      hashPathsInput (listsOnly [97]).tree PGO_KEY_PATHS = .ok inner := ⟨_, rfl⟩
  obtain ⟨inner', hashed'⟩ : ∃ inner,
      hashPathsInput (listsOnly [98]).tree PGO_KEY_PATHS = .ok inner := ⟨_, rfl⟩
  -- four strings are hashed for the two builds
  have cases4 : ∀ s ∈ Hashed (listsOnly [97]) (listsOnly [98]),
      s ∈ [inner, inner', [97], [98]] := by
    rintro s (first | second | ⟨f, member, rfl⟩)
    · rw [hashed] at first
      cases first
      simp
    · rw [hashed'] at second
      cases second
      simp
    · rcases List.mem_append.mp member with left | right
      · cases List.mem_singleton.mp left
        simp
      · cases List.mem_singleton.mp right
        simp
  have distinct : ([inner, inner', [97], [98]].map sampleSha256.hexdigest).Nodup := by
    cases hashed
    cases hashed'
    decide +kernel
  exact fun s member s' member' same =>
    List.inj_on_of_nodup_map distinct (cases4 s member) (cases4 s' member') same

theorem keys_separate_sample :
    PgoKeySeparates sampleSha256 (listsOnly [97]) (listsOnly [98]) ∧
      HashInputsSeparates sampleSha256 (listsOnly [97]) (listsOnly [98]) PGO_KEY_PATHS :=
  (keys_separate_iff sampleSha256 (listsOnly [97]) (listsOnly [98]) PGO_KEY_PATHS
    sample_noCollision).mpr
    (not_confusable_of_plain (listsOnly_plain 97 (Or.inl rfl)) (listsOnly_plain 98 (Or.inr rfl)))

/-! ### Builds with one key -/

/-- Nothing is there. -/
def nothing : Build where
  root := []
  identities := []
  tree := {
    files := []
    dirs := [[]]
    distinct := List.nodup_nil
    noDir := by simp
    parents := by simp
    names := by simp }

/-- Sources below `src`. -/
def sourcesOnly (files : List (Str × Bytes)) (distinct : (files.map Prod.fst).Nodup)
    (named : ∀ f ∈ files, f.1 ≠ [] ∧ 47 ∉ f.1 ∧ 0 ∉ f.1) : Build where
  root := []
  identities := []
  tree := {
    files := files.map fun f => ([str "src", f.1], f.2)
    dirs := [[], [str "src"]]
    distinct := by
      rw [List.map_map]
      have spread := distinct.map (f := fun name => [str "src", name]) fun a b same => by
        simpa using same
      rwa [List.map_map] at spread
    noDir := by
      intro f member
      obtain ⟨g, -, rfl⟩ := List.mem_map.mp member
      simp
    parents := by
      intro f member dir isParent
      obtain ⟨g, -, rfl⟩ := List.mem_map.mp member
      simpa using isParent
    names := by
      intro f member name inPath
      obtain ⟨g, listed, rfl⟩ := List.mem_map.mp member
      rcases List.mem_cons.mp inPath with rfl | last
      · decide
      · cases List.mem_singleton.mp last
        exact named g listed }

/-- Two sources, and one that holds a NUL, the path of the other, a NUL and its content. -/
def twoSources : Build :=
  sourcesOnly [(str "a", [120]), (str "b", [121])] (by decide) (by decide)

def oneSource : Build :=
  sourcesOnly [(str "a", [120, 0] ++ (str "src/b").map UInt8.ofNat ++ [0, 121])] (by decide)
    (by decide)

/-- Sorting changes nothing where the paths come in order. -/
private theorem pathEntries_sorted (t : SourceTree) (paths : List Path)
    (sorted : ∀ target ∈ paths, ((t.filesUnder target).map Prod.fst).Pairwise (· ≤ ·)) :
    pathEntries t paths = paths.flatMap fun target =>
      (if target ∈ t.dirs then (t.filesUnder target).map Prod.fst else [target]).map
        fun path => (join path, t.read path) := by
  refine List.flatMap_congr fun target member => ?_
  rw [List.mergeSort_of_pairwise]
  exact (sorted target member).imp fun le => decide_eq_true le

private theorem same_key {a b : Build}
    (ended : (hashPathsInput a.tree PGO_KEY_PATHS).isOk = true)
    (same : hashPathsInput a.tree PGO_KEY_PATHS = hashPathsInput b.tree PGO_KEY_PATHS)
    (bare : a.identities = []) (bare' : b.identities = []) (differ : a.entries ≠ b.entries) :
    ¬ ∃ sha256, PgoKeySeparates sha256 a b := by
  rintro ⟨sha256, separates⟩
  cases hashed : hashPathsInput a.tree PGO_KEY_PATHS with
  | error e =>
    rw [hashed] at ended
    cases ended
  | ok inner =>
    refine differ ((separates (sha256.hexdigest inner) (sha256.hexdigest inner) ?_ ?_).mp rfl).1
    · exact (pgoKeyInput_eq_ok_iff _ _ _ _).mpr ⟨inner, [], hashed, by rw [bare]; rfl, by simp⟩
    · exact (pgoKeyInput_eq_ok_iff _ _ _ _).mpr
        ⟨inner, [], same ▸ hashed, by rw [bare']; rfl, by simp⟩

/-- A missing list has the key of one that says `<missing>`, and two sources have the key of one. -/
theorem different_builds_one_key :
    (¬ ∃ sha256, PgoKeySeparates sha256 nothing (listsOnly missing)) ∧
      ¬ ∃ sha256, PgoKeySeparates sha256 twoSources oneSource := by
  have two : twoSources.entries = _ := pathEntries_sorted twoSources.tree PGO_KEY_PATHS (by decide)
  have one : oneSource.entries = _ := pathEntries_sorted oneSource.tree PGO_KEY_PATHS (by decide)
  have hashed (a : Build) : hashPathsInput a.tree PGO_KEY_PATHS = a.entries.foldlM updatePath [] :=
    rfl
  constructor
  · exact same_key (by decide +kernel) (by decide +kernel) rfl rfl (by decide +kernel)
  · refine same_key ?_ ?_ rfl rfl ?_
    · rw [hashed, two]
      decide +kernel
    · rw [hashed, hashed, two, one]
      decide +kernel
    · rw [two, one]
      decide +kernel

end LlvmLd.Tools.CacheKeys
