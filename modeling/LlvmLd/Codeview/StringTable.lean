import Mathlib.Data.List.Nodup
import Mathlib.Data.List.Dedup
import LlvmLd.Lib.Memory
import LlvmLd.Lib.Placement

/-!
# The string table

`DebugStringTableSubsection`: strings get the offset at which they will stand, and are written in
the order of a hash table.

Proof strategy: strings stand one behind the other in the order of their insertion, modulo
`2 ^ 32`. Below 4 GiB their places are disjoint and every order of writing gives the same table;
otherwise the string that crosses the border is written behind the end.
-/

namespace LlvmLd.Codeview

open Memory Placement

structure StringTable where
  -- `StringToId`
  ids : List (Bytes × Nat)
  -- `StringSize`
  size : Nat
  deriving DecidableEq, Repr

namespace StringTable

def empty : StringTable := ⟨[], 1⟩

/-- The table with the string in it, and the string's offset. -/
def insert (t : StringTable) (s : Bytes) : StringTable × Nat :=
  match t.ids.lookup s with
  | some id => (t, id)
  | none => (⟨t.ids ++ [(s, t.size)], uint32 (t.size + (s.length + 1))⟩, t.size)

def insertAll (t : StringTable) (strings : List Bytes) : StringTable :=
  strings.foldl (fun t s => (t.insert s).1) t

/-- `writeCString` into a stream of `size` bytes; `none` when it is too short. -/
def writeCString (size : Nat) (m : Mem) (entry : Bytes × Nat) : Option Mem :=
  if size < entry.2 + (entry.1.length + 1) then none
  else some (writeBytes m entry.2 (entry.1 ++ [0]))

/-- `commit`, where the hash table is walked in some order. -/
def commit (t : StringTable) (order : List (Bytes × Nat)) : Option Bytes :=
  -- a null string at the beginning
  ((([], 0) :: order).foldlM (writeCString t.size) (fun _ => 0)).map
    (fun m => readBytes m 0 t.size)

def keys (t : StringTable) : List Bytes := t.ids.map Prod.fst

/-! ### Offsets -/

/-- A string with its NUL. -/
def width (s : Bytes) : Nat := s.length + 1

/-- The offsets are those of strings one behind the other. -/
structure Consistent (t : StringTable) : Prop where
  distinct : t.keys.Nodup
  ids : t.ids = (starts width 1 t.keys).map (fun entry => (entry.1, uint32 entry.2))
  size : t.size = uint32 (total width 1 t.keys)

theorem consistent_empty : empty.Consistent := ⟨List.nodup_nil, rfl, rfl⟩

private theorem insert_known (t : StringTable) (s : Bytes) (id : Nat)
    (found : t.ids.lookup s = some id) :
    t.insert s = (t, id) := by
  rw [insert, found]

private theorem insert_fresh (t : StringTable) (s : Bytes) (fresh : t.ids.lookup s = none) :
    t.insert s = (⟨t.ids ++ [(s, t.size)], uint32 (t.size + (s.length + 1))⟩, t.size) := by
  rw [insert, fresh]

private theorem not_mem_keys (t : StringTable) (s : Bytes) (fresh : t.ids.lookup s = none) :
    s ∉ t.keys := by
  intro member
  obtain ⟨entry, inIds, rfl⟩ := List.mem_map.mp member
  rw [List.lookup_eq_none_iff] at fresh
  simpa using fresh entry inIds

theorem mem_of_lookup (t : StringTable) (s : Bytes) (id : Nat)
    (found : t.ids.lookup s = some id) : (s, id) ∈ t.ids := by
  obtain ⟨before, after, split, -⟩ := List.lookup_eq_some_iff.mp found
  rw [split]
  simp

theorem uint32_add (a b : Nat) : uint32 (uint32 a + b) = uint32 (a + b) := Nat.mod_add_mod _ _ _

theorem consistent_insert (t : StringTable) (s : Bytes) (ok : t.Consistent) :
    (t.insert s).1.Consistent := by
  cases found : t.ids.lookup s with
  | some id =>
    rw [insert_known t s id found]
    exact ok
  | none =>
    -- a new string starts where the table ended
    have fresh := not_mem_keys t s found
    have keys : (t.insert s).1.keys = t.keys ++ [s] := by
      rw [insert_fresh t s found]
      simp [StringTable.keys]
    constructor
    · rw [keys, List.nodup_append]
      refine ⟨ok.distinct, List.nodup_singleton s, ?_⟩
      rintro a inKeys b inNew rfl
      rw [List.mem_singleton] at inNew
      exact fresh (inNew ▸ inKeys)
    · rw [keys, starts_append, List.map_append, ← ok.ids, insert_fresh t s found]
      simp [starts, ok.size]
    · rw [keys, total_append, insert_fresh t s found]
      dsimp only
      rw [ok.size, uint32_add]
      simp [width]

theorem consistent_insertAll (t : StringTable) (strings : List Bytes) (ok : t.Consistent) :
    (t.insertAll strings).Consistent := by
  induction strings generalizing t with
  | nil => exact ok
  | cons s rest ih => exact ih _ (consistent_insert t s ok)

/-! ### What is in the table -/

theorem mem_insert (t : StringTable) (s : Bytes) : (s, (t.insert s).2) ∈ (t.insert s).1.ids := by
  cases found : t.ids.lookup s with
  | some id =>
    rw [insert_known t s id found]
    exact mem_of_lookup t s id found
  | none =>
    rw [insert_fresh t s found]
    simp

private theorem ids_insert (t : StringTable) (s : Bytes) (entry : Bytes × Nat)
    (member : entry ∈ t.ids) :
    entry ∈ (t.insert s).1.ids := by
  cases found : t.ids.lookup s with
  | some id =>
    rw [insert_known t s id found]
    exact member
  | none =>
    rw [insert_fresh t s found]
    exact List.mem_append_left _ member

/-- Strings keep their offsets. -/
theorem ids_insertAll (t : StringTable) (strings : List Bytes) (entry : Bytes × Nat)
    (member : entry ∈ t.ids) : entry ∈ (t.insertAll strings).ids := by
  induction strings generalizing t with
  | nil => exact member
  | cons s rest ih => exact ih _ (ids_insert t s entry member)

/-- Strings have been added to the table. -/
structure Grown (t t' : StringTable) : Prop where
  consistent : t.Consistent → t'.Consistent
  ids : ∀ entry ∈ t.ids, entry ∈ t'.ids

theorem Grown.refl (t : StringTable) : t.Grown t := ⟨id, fun _ => id⟩

theorem Grown.trans {t t' t'' : StringTable} (first : t.Grown t') (later : t'.Grown t'') :
    t.Grown t'' :=
  ⟨fun ok => later.consistent (first.consistent ok), fun entry member =>
    later.ids entry (first.ids entry member)⟩

theorem grown_insert (t : StringTable) (s : Bytes) : t.Grown (t.insert s).1 :=
  ⟨consistent_insert t s, ids_insert t s⟩

private theorem mem_keys_insert (t : StringTable) (s x : Bytes) :
    x ∈ (t.insert s).1.keys ↔ x ∈ t.keys ∨ x = s := by
  cases found : t.ids.lookup s with
  | some id =>
    rw [insert_known t s id found]
    have there : s ∈ t.keys := List.mem_map_of_mem (mem_of_lookup t s id found)
    constructor
    · exact Or.inl
    · rintro (known | rfl)
      · exact known
      · exact there
  | none =>
    rw [insert_fresh t s found]
    simp [keys]

private theorem mem_keys_insertAll (t : StringTable) (strings : List Bytes) (x : Bytes) :
    x ∈ (t.insertAll strings).keys ↔ x ∈ t.keys ∨ x ∈ strings := by
  induction strings generalizing t with
  | nil => simp [insertAll]
  | cons s rest ih =>
    have step : t.insertAll (s :: rest) = (t.insert s).1.insertAll rest := rfl
    rw [step, ih, mem_keys_insert, List.mem_cons, or_assoc]

/-- The room that a table of these strings takes. -/
def tableSize (strings : List Bytes) : Nat := 1 + (strings.dedup.map width).sum

theorem total_insertAll (strings : List Bytes) :
    total width 1 (empty.insertAll strings).keys = tableSize strings := by
  have ok := consistent_insertAll empty strings consistent_empty
  have perm : (empty.insertAll strings).keys.Perm strings.dedup := by
    rw [List.perm_ext_iff_of_nodup ok.distinct (List.nodup_dedup _)]
    intro x
    rw [mem_keys_insertAll, List.mem_dedup]
    simp [keys, empty]
  rw [total, tableSize, (perm.map width).sum_eq]

theorem insertAll_append (t : StringTable) (strings more : List Bytes) :
    t.insertAll (strings ++ more) = (t.insertAll strings).insertAll more := List.foldl_append

/-! ### Writing -/

private theorem foldlM_writeCString (size : Nat) (entries : List (Bytes × Nat)) (m : Mem)
    (fits : ∀ entry ∈ entries, entry.2 + width entry.1 ≤ size) :
    entries.foldlM (writeCString size) m =
      some (entries.foldl (fun m entry => writeBytes m entry.2 (entry.1 ++ [0])) m) := by
  induction entries generalizing m with
  | nil => rfl
  | cons entry rest ih =>
    obtain ⟨here, later⟩ := List.forall_mem_cons.mp fits
    unfold width at here
    rw [List.foldlM_cons, writeCString, if_neg (by omega), List.foldl_cons]
    exact ih _ later

private theorem foldlM_writeCString_none (size : Nat) (entries : List (Bytes × Nat)) (m : Mem)
    (entry : Bytes × Nat) (member : entry ∈ entries) (behind : size < entry.2 + width entry.1) :
    entries.foldlM (writeCString size) m = none := by
  induction entries generalizing m with
  | nil => cases member
  | cons first rest ih =>
    rw [List.foldlM_cons]
    rcases List.mem_cons.mp member with rfl | later
    · have short : size < entry.2 + (entry.1.length + 1) := behind
      rw [writeCString, if_pos short]
      rfl
    · cases writeCString size m first with
      | none => rfl
      | some next => exact ih next later

def place (entry : Bytes × Nat) : Set Int := Set.Ico (entry.2 : Int) (entry.2 + width entry.1)

private theorem places_disjoint (order : List (Bytes × Nat)) (strings : List Bytes)
    (permuted : order.Perm (starts width 0 strings)) :
    order.Pairwise (fun a b => Disjoint (place a) (place b)) := by
  have ascend := (starts_pairwise width 0 strings).imp
    (S := fun a b => Disjoint (place a) (place b)) (by
      intro a b apart
      rw [Set.disjoint_left]
      rintro x ⟨-, beforeA⟩ ⟨afterB, -⟩
      omega)
  exact (permuted.pairwise_iff (fun {a b} (h : Disjoint (place a) (place b)) => h.symm)).mpr ascend

/-- Whatever the order, every string stands at its place. -/
theorem readBytes_written (order : List (Bytes × Nat)) (strings : List Bytes) (m : Mem)
    (permuted : order.Perm (starts width 0 strings)) (entry : Bytes × Nat)
    (member : entry ∈ order) :
    readBytes (order.foldl (fun m entry => writeBytes m entry.2 (entry.1 ++ [0])) m) entry.2
      (width entry.1) = entry.1 ++ [0] := by
  have each : ∀ e ∈ order, Local (place e)
      (fun m => writeBytes m e.2 (e.1 ++ [0])) := by
    intro e _
    exact local_writeBytes_of_le e.2 (e.1 ++ [0]) (width e.1) (by simp [width])
  have apart := places_disjoint order strings permuted
  have length : (entry.1 ++ [0]).length = width entry.1 := by simp [width]
  -- the other strings are written outside of this one's place
  have alone : readBytes (order.foldl (fun m entry => writeBytes m entry.2 (entry.1 ++ [0])) m)
      entry.2 (width entry.1) =
      readBytes (writeBytes m entry.2 (entry.1 ++ [0])) entry.2 (width entry.1) := by
    refine List.map_congr_left (fun i inRange => ?_)
    rw [List.mem_range] at inRange
    refine foldl_apply_of_disjoint _ place order each apart m entry member _ ?_
    rw [place, Set.mem_Ico]
    omega
  rw [alone, ← length, readBytes_writeBytes]

/-- A table below 4 GiB is written in every order, and every offset reads as its string; the offset 0
reads as the empty one. -/
theorem commit_reads (t : StringTable) (ok : t.Consistent) (small : total width 1 t.keys < 2 ^ 32)
    (order : List (Bytes × Nat)) (permuted : order.Perm t.ids) :
    ∃ bytes, t.commit order = some bytes ∧
      ∀ entry ∈ ([], 0) :: t.ids, (0 : UInt8) ∉ entry.1 → bytes.cString entry.2 = some entry.1 := by
  have size : t.size = total width 1 t.keys := by
    rw [ok.size]
    exact uint32_of_le _ (by unfold uint32Max; omega)
  have exact_ids : t.ids = starts width 1 t.keys := by
    conv_rhs => rw [← List.map_id (starts width 1 t.keys)]
    rw [ok.ids]
    refine List.map_congr_left (fun entry member => ?_)
    have bounds := (starts_bounds width 1 t.keys entry member).2
    rw [uint32_of_le _ (by unfold uint32Max; omega)]
    rfl
  -- In whatever order they are written, the strings tile the table.
  have whole : (([], 0) :: order).Perm (starts width 0 ([] :: t.keys)) := by
    rw [starts]
    exact (exact_ids ▸ permuted).cons _
  have fits : ∀ entry ∈ ([], 0) :: order, entry.2 + width entry.1 ≤ t.size := by
    intro entry member
    have bounds := (starts_bounds width 0 _ entry (whole.mem_iff.mp member)).2
    rw [total_cons] at bounds
    rw [size]
    exact bounds
  refine ⟨_, by rw [commit, foldlM_writeCString t.size _ _ fits, Option.map_some], ?_⟩
  intro entry member no_nul
  have inOrder : entry ∈ ([], 0) :: order := (permuted.cons _).mem_iff.mpr member
  have written := readBytes_written _ _ (fun _ => 0) whole entry inOrder
  have inside := fits entry inOrder
  generalize (([], 0) :: order).foldl (fun m entry => writeBytes m entry.2 (entry.1 ++ [0]))
    (fun _ => 0) = m at written
  obtain ⟨rest, parts⟩ : ∃ rest, t.size = entry.2 + (width entry.1 + rest) :=
    ⟨t.size - entry.2 - width entry.1, by omega⟩
  -- So none overwrites another, and each is still there with the NUL behind it.
  have there : (readBytes m 0 t.size).drop entry.2 =
      entry.1 ++ 0 :: readBytes m (entry.2 + width entry.1) rest := by
    rw [parts, readBytes_add, List.drop_left' (length_readBytes _ _ _), readBytes_add,
      Int.zero_add, written, List.append_assoc]
    rfl
  exact cString_of_drop _ _ _ _ no_nul there

/-- A table below 4 GiB is written in every order, and every offset reads as its string. -/
theorem commit_ok (t : StringTable) (ok : t.Consistent) (small : total width 1 t.keys < 2 ^ 32)
    (order : List (Bytes × Nat)) (permuted : order.Perm t.ids) :
    ∃ bytes, t.commit order = some bytes ∧
      ∀ entry ∈ t.ids, (0 : UInt8) ∉ entry.1 → bytes.cString entry.2 = some entry.1 := by
  obtain ⟨bytes, written, reads⟩ := commit_reads t ok small order permuted
  exact ⟨bytes, written, fun entry member => reads entry (List.mem_cons_of_mem _ member)⟩

/-- Where 4 GiB are exceeded, a string ends behind the end of the table. -/
theorem commit_none (t : StringTable) (ok : t.Consistent) (large : 2 ^ 32 ≤ total width 1 t.keys)
    (order : List (Bytes × Nat)) (permuted : order.Perm t.ids) : t.commit order = none := by
  -- some string covers the last offset that 32 bits have, and does not fit behind it
  obtain ⟨entry, member, low, high⟩ :=
    starts_cover width 1 t.keys (2 ^ 32 - 1) (by omega) (by omega)
  have kept : uint32 entry.2 = entry.2 := uint32_of_le _ (by unfold uint32Max; omega)
  have inIds : entry ∈ t.ids := by
    rw [ok.ids]
    refine List.mem_map.mpr ⟨entry, member, ?_⟩
    rw [kept]
  have size : t.size ≤ uint32Max := by
    rw [ok.size]
    exact uint32_le _
  rw [commit, foldlM_writeCString_none t.size _ _ entry
    (List.mem_cons_of_mem _ (permuted.mem_iff.mpr inIds)) (by unfold uint32Max at size; omega)]
  rfl

end StringTable

end LlvmLd.Codeview
