import Mathlib
import LlvmLd.Lib.Bytes
import LlvmLd.Lib.Placement

/-!
# Memories and local updates

A memory maps addresses to cells. An update is local to a set of addresses when it changes nothing
outside the set and what it writes depends only on the set. Updates that are local to disjoint sets
commute, so a family of them can run in any order.
-/

namespace LlvmLd.Memory

section Locality

variable {ι β α : Type*} {S T : Set ι}

def AgreeOn (S : Set ι) (m n : ι → β) : Prop := ∀ a ∈ S, m a = n a

/-- The value read from the memory depends on the cells of `S` only. -/
def ReadsOnly (S : Set ι) (v : (ι → β) → α) : Prop := ∀ m n, AgreeOn S m n → v m = v n

structure Local (S : Set ι) (f : (ι → β) → ι → β) : Prop where
  frame : ∀ m a, a ∉ S → f m a = m a
  reads : ∀ m n, AgreeOn S m n → AgreeOn S (f m) (f n)

theorem Local.id : Local S (fun m : ι → β => m) := ⟨fun _ _ _ => rfl, fun _ _ agree => agree⟩

theorem Local.comp {f g : (ι → β) → ι → β} (first : Local S f) (second : Local S g) :
    Local S (fun m => g (f m)) := by
  constructor
  · intro m a outside
    rw [second.frame _ a outside, first.frame m a outside]
  · intro m n agree
    exact second.reads _ _ (first.reads m n agree)

theorem Local.mono {f : (ι → β) → ι → β} (loc : Local S f) (subset : S ⊆ T) : Local T f := by
  constructor
  · intro m a outside
    exact loc.frame m a (fun inside => outside (subset inside))
  · intro m n agree a inT
    by_cases inS : a ∈ S
    · exact loc.reads m n (fun b inside => agree b (subset inside)) a inS
    · rw [loc.frame m a inS, loc.frame n a inS]
      exact agree a inT

theorem ReadsOnly.mono {v : (ι → β) → α} (reads : ReadsOnly S v) (subset : S ⊆ T) :
    ReadsOnly T v :=
  fun m n agree => reads m n (fun a inside => agree a (subset inside))

/-- An update chosen by a value read from the memory. -/
theorem Local.bind {v : (ι → β) → α} {g : α → (ι → β) → ι → β} (reads : ReadsOnly S v)
    (updates : ∀ x, Local S (g x)) : Local S (fun m => g (v m) m) := by
  constructor
  · intro m a outside
    exact (updates (v m)).frame m a outside
  · intro m n agree
    rw [reads m n agree]
    exact (updates (v n)).reads m n agree

theorem Local.foldl {γ : Type*} {f : (ι → β) → γ → ι → β} (items : List γ)
    (each : ∀ x ∈ items, Local S (fun m => f m x)) : Local S (fun m => items.foldl f m) := by
  induction items with
  | nil => exact Local.id
  | cons x rest ih =>
    exact Local.comp (each x (by simp)) (ih (fun y member => each y (List.mem_cons_of_mem x member)))

theorem Local.commute {f g : (ι → β) → ι → β} (first : Local S f) (second : Local T g)
    (disjoint : Disjoint S T) (m : ι → β) : f (g m) = g (f m) := by
  funext a
  by_cases inS : a ∈ S
  · have outT : a ∉ T := Set.disjoint_left.mp disjoint inS
    have untouched : AgreeOn S (g m) m := fun b inside =>
      second.frame m b (Set.disjoint_left.mp disjoint inside)
    rw [first.reads _ _ untouched a inS, second.frame _ a outT]
  · rw [first.frame _ a inS]
    by_cases inT : a ∈ T
    · have untouched : AgreeOn T (f m) m := fun b inside =>
        first.frame m b (Set.disjoint_right.mp disjoint inside)
      rw [second.reads _ _ untouched a inT]
    · rw [second.frame m a inT, second.frame _ a inT, first.frame m a inS]

/-- Updates that are local to pairwise disjoint sets give one result in every order. -/
theorem foldl_perm_of_disjoint {γ : Type*} (f : (ι → β) → γ → ι → β) (footprint : γ → Set ι)
    (items order : List γ) (permuted : order.Perm items)
    (each : ∀ x ∈ items, Local (footprint x) (fun m => f m x))
    (apart : items.Pairwise (fun x y => Disjoint (footprint x) (footprint y))) (m : ι → β) :
    order.foldl f m = items.foldl f m := by
  refine permuted.foldl_eq' (fun x inX y inY n => ?_) m
  by_cases same : x = y
  · rw [same]
  · have memX := permuted.mem_iff.mp inX
    have memY := permuted.mem_iff.mp inY
    -- two different items write apart, so their updates commute
    have disjoint : Disjoint (footprint y) (footprint x) := by
      have symmetric : Std.Symm (fun x y => Disjoint (footprint x) (footprint y)) :=
        ⟨fun _ _ h => h.symm⟩
      exact apart.forall memY memX (fun h => same h.symm)
    exact (each y memY).commute (each x memX) disjoint n

theorem foldl_frame {γ : Type*} (f : (ι → β) → γ → ι → β) (footprint : γ → Set ι)
    (items : List γ) (each : ∀ x ∈ items, Local (footprint x) (fun m => f m x)) (m : ι → β) (a : ι)
    (outside : ∀ x ∈ items, a ∉ footprint x) : items.foldl f m a = m a := by
  induction items generalizing m with
  | nil => rfl
  | cons x rest ih =>
    rw [List.foldl_cons, ih (fun y later => each y (List.mem_cons_of_mem x later)) _
      (fun y later => outside y (List.mem_cons_of_mem x later))]
    exact (each x (by simp)).frame m a (outside x (by simp))

/-- On a set, only the updates that belong to it count. -/
theorem foldl_restrict {γ : Type*} (f : (ι → β) → γ → ι → β) (belongs : γ → Bool) (items : List γ)
    (updates : ∀ x ∈ items, belongs x = true → Local S (fun m => f m x))
    (skips : ∀ x ∈ items, belongs x = false → ∀ m, AgreeOn S (f m x) m) (m n : ι → β)
    (agree : AgreeOn S m n) :
    AgreeOn S (items.foldl f m) ((items.filter belongs).foldl f n) := by
  induction items generalizing m n with
  | nil => exact agree
  | cons x rest ih =>
    have later := ih (fun y member => updates y (List.mem_cons_of_mem x member))
      (fun y member => skips y (List.mem_cons_of_mem x member))
    rw [List.foldl_cons]
    -- an item that belongs is in both folds, any other leaves the footprint alone
    cases own : belongs x with
    | true =>
      rw [List.filter_cons_of_pos own, List.foldl_cons]
      exact later _ _ ((updates x (by simp) own).reads m n agree)
    | false =>
      rw [List.filter_cons_of_neg (by simp [own])]
      apply later
      intro a inside
      rw [skips x (by simp) own m a inside]
      exact agree a inside

/-- Of updates that are local to pairwise disjoint sets, each alone decides the cells of its set. -/
theorem foldl_apply_of_disjoint {γ : Type*} (f : (ι → β) → γ → ι → β) (footprint : γ → Set ι)
    (items : List γ) (each : ∀ x ∈ items, Local (footprint x) (fun m => f m x))
    (apart : items.Pairwise (fun x y => Disjoint (footprint x) (footprint y))) (m : ι → β)
    (x : γ) (member : x ∈ items) (a : ι) (inside : a ∈ footprint x) :
    items.foldl f m a = f m x a := by
  induction items generalizing m with
  | nil => cases member
  | cons y rest ih =>
    rw [List.pairwise_cons] at apart
    have later : ∀ z ∈ rest, Local (footprint z) (fun m => f m z) :=
      fun z inRest => each z (List.mem_cons_of_mem y inRest)
    rw [List.foldl_cons]
    rcases List.mem_cons.mp member with rfl | inRest
    · exact foldl_frame f footprint rest later _ a
        (fun z inRest => Set.disjoint_left.mp (apart.1 z inRest) inside)
    · rw [ih later apart.2 (f m y) inRest]
      -- the item in front writes apart from this one, so it reads what it read before
      have agree : AgreeOn (footprint x) (f m y) m := fun b inX =>
        (each y (by simp)).frame m b (Set.disjoint_right.mp (apart.1 x inRest) inX)
      exact (later x inRest).reads _ _ agree a inside

end Locality

/-! ### Byte memories with little-endian words -/

/-- Addresses are integers, so that positions in front of a buffer can be named. -/
abbrev Mem := Int → UInt8

def writeBytes (m : Mem) (a : Int) (bytes : Bytes) : Mem :=
  fun x => if a ≤ x ∧ x < a + bytes.length then bytes.getD (x - a).toNat 0 else m x

/-- The `len` bytes from `a` on. -/
def readBytes (m : Mem) (a : Int) (len : Nat) : Bytes :=
  (List.range len).map (fun i : Nat => m (a + i))

def fill (m : Mem) (a : Int) (value : UInt8) (len : Nat) : Mem :=
  fun x => if a ≤ x ∧ x < a + len then value else m x

def read16 (m : Mem) (a : Int) : BitVec 16 := (m (a + 1)).toBitVec ++ (m a).toBitVec

def read32 (m : Mem) (a : Int) : BitVec 32 := read16 m (a + 2) ++ read16 m a

def read64 (m : Mem) (a : Int) : BitVec 64 := read32 m (a + 4) ++ read32 m a

/-- The bytes of a word, lowest first. -/
def wordBytes {w : Nat} (count : Nat) (v : BitVec w) : Bytes :=
  (List.range count).map (fun i => UInt8.ofBitVec (v.extractLsb' (8 * i) 8))

def write16 (m : Mem) (a : Int) (v : BitVec 16) : Mem := writeBytes m a (wordBytes 2 v)

def write32 (m : Mem) (a : Int) (v : BitVec 32) : Mem := writeBytes m a (wordBytes 4 v)

def write64 (m : Mem) (a : Int) (v : BitVec 64) : Mem := writeBytes m a (wordBytes 8 v)

@[simp] theorem length_wordBytes {w : Nat} (count : Nat) (v : BitVec w) :
    (wordBytes count v).length = count := by
  simp [wordBytes]

theorem fill_frame (m : Mem) (a : Int) (value : UInt8) (len : Nat) (x : Int)
    (outside : x < a ∨ a + len ≤ x) : fill m a value len x = m x := by
  have apart : ¬ (a ≤ x ∧ x < a + len) := by omega
  simp only [fill, if_neg apart]

theorem fill_inside (m : Mem) (a : Int) (value : UInt8) (len : Nat) (x : Int) (low : a ≤ x)
    (high : x < a + len) : fill m a value len x = value := by
  simp only [fill, if_pos (And.intro low high)]

/-- Fill several stretches of a buffer with one value; a stretch is named by its two ends. -/
def fillAll (base : Int) (value : UInt8) (m : Mem) (stretches : List (Nat × Nat)) : Mem :=
  stretches.foldl (fun m s => fill m (base + s.1) value (s.2 - s.1)) m

theorem fillAll_outside (base : Int) (value : UInt8) (m : Mem) (stretches : List (Nat × Nat))
    (x : Int) (outside : ∀ s ∈ stretches, x < base + s.1 ∨ base + s.2 ≤ x) :
    fillAll base value m stretches x = m x := by
  simp only [fillAll]
  induction stretches generalizing m with
  | nil => rfl
  | cons s rest ih =>
    have here := outside s List.mem_cons_self
    rw [List.foldl_cons, ih _ (fun t later => outside t (List.mem_cons_of_mem s later))]
    apply fill_frame
    omega

theorem fillAll_inside (base : Int) (value : UInt8) (m : Mem) (stretches : List (Nat × Nat))
    (x : Int) (inside : m x = value ∨ ∃ s ∈ stretches, base + s.1 ≤ x ∧ x < base + s.2) :
    fillAll base value m stretches x = value := by
  simp only [fillAll]
  induction stretches generalizing m with
  | nil =>
    rcases inside with already | ⟨s, member, -⟩
    · exact already
    · cases member
  | cons s rest ih =>
    rw [List.foldl_cons]
    apply ih
    by_cases here : base + s.1 ≤ x ∧ x < base + s.2
    · exact Or.inl (fill_inside _ _ _ _ _ here.1 (by omega))
    · rcases inside with already | ⟨t, member, bounds⟩
      · -- a stretch that misses the cell leaves the value it had
        left
        rw [fill_frame _ _ _ _ _ (by omega)]
        exact already
      · right
        rcases List.mem_cons.mp member with rfl | later
        · exact absurd bounds here
        · exact ⟨t, later, bounds⟩

theorem local_writeBytes (a : Int) (bytes : Bytes) :
    Local (Set.Ico a (a + bytes.length)) (fun m => writeBytes m a bytes) := by
  constructor
  · intro m x outside
    rw [Set.mem_Ico] at outside
    simp [writeBytes, outside]
  · intro m n _ x inside
    rw [Set.mem_Ico] at inside
    simp [writeBytes, inside]

/-- A write of at most `width` bytes is local to `width` bytes. -/
theorem local_writeBytes_of_le (a : Int) (bytes : Bytes) (width : Nat)
    (le : bytes.length ≤ width) :
    Local (Set.Ico a (a + width)) (fun m => writeBytes m a bytes) :=
  (local_writeBytes a bytes).mono (Set.Ico_subset_Ico_right (by omega))

theorem local_write16 (a : Int) (v : BitVec 16) :
    Local (Set.Ico a (a + 2)) (fun m => write16 m a v) := by
  simpa [write16] using local_writeBytes a (wordBytes 2 v)

theorem local_write32 (a : Int) (v : BitVec 32) :
    Local (Set.Ico a (a + 4)) (fun m => write32 m a v) := by
  simpa [write32] using local_writeBytes a (wordBytes 4 v)

theorem local_write64 (a : Int) (v : BitVec 64) :
    Local (Set.Ico a (a + 8)) (fun m => write64 m a v) := by
  simpa [write64] using local_writeBytes a (wordBytes 8 v)

theorem readsOnly_read16 (a : Int) : ReadsOnly (Set.Ico a (a + 2)) (fun m : Mem => read16 m a) := by
  intro m n agree
  simp only [read16]
  rw [agree a ⟨by omega, by omega⟩, agree (a + 1) ⟨by omega, by omega⟩]

theorem readsOnly_read32 (a : Int) : ReadsOnly (Set.Ico a (a + 4)) (fun m : Mem => read32 m a) := by
  intro m n agree
  have low : read16 m a = read16 n a :=
    (readsOnly_read16 a).mono (Set.Ico_subset_Ico (by omega) (by omega)) m n agree
  have high : read16 m (a + 2) = read16 n (a + 2) :=
    (readsOnly_read16 (a + 2)).mono (Set.Ico_subset_Ico (by omega) (by omega)) m n agree
  simp only [read32, low, high]

theorem readsOnly_read64 (a : Int) : ReadsOnly (Set.Ico a (a + 8)) (fun m : Mem => read64 m a) := by
  intro m n agree
  have low : read32 m a = read32 n a :=
    (readsOnly_read32 a).mono (Set.Ico_subset_Ico (by omega) (by omega)) m n agree
  have high : read32 m (a + 4) = read32 n (a + 4) :=
    (readsOnly_read32 (a + 4)).mono (Set.Ico_subset_Ico (by omega) (by omega)) m n agree
  simp only [read64, low, high]

theorem writeBytes_at (m : Mem) (a : Int) (bytes : Bytes) (i : Nat) (inside : i < bytes.length) :
    writeBytes m a bytes (a + i) = bytes.getD i 0 := by
  have range : a ≤ a + i ∧ a + i < a + bytes.length := by omega
  have index : (a + i - a).toNat = i := by omega
  rw [writeBytes, if_pos range, index]

theorem readBytes_add (m : Mem) (a : Int) (first second : Nat) :
    readBytes m a (first + second) = readBytes m a first ++ readBytes m (a + first) second := by
  simp only [readBytes, List.range_add, List.map_append, List.map_map]
  congr 1
  refine List.map_congr_left (fun i _ => ?_)
  rw [Function.comp_apply, Int.natCast_add, Int.add_assoc]

theorem length_readBytes (m : Mem) (a : Int) (len : Nat) : (readBytes m a len).length = len := by
  simp [readBytes]

/-- What is written is read back. -/
theorem readBytes_writeBytes (m : Mem) (a : Int) (bytes : Bytes) :
    readBytes (writeBytes m a bytes) a bytes.length = bytes := by
  refine List.ext_getElem (length_readBytes _ _ _) (fun i _ inside => ?_)
  have byte := writeBytes_at m a bytes i inside
  simpa [readBytes, List.getD_eq_getElem?_getD, inside] using byte

/-- A write elsewhere is not seen. -/
theorem readBytes_writeBytes_apart (m : Mem) (a b : Int) (bytes : Bytes) (len : Nat)
    (apart : a + bytes.length ≤ b ∨ b + len ≤ a) :
    readBytes (writeBytes m a bytes) b len = readBytes m b len := by
  refine List.map_congr_left (fun i member => ?_)
  have below := List.mem_range.mp member
  have outside : ¬(a ≤ b + i ∧ b + i < a + bytes.length) := by omega
  rw [writeBytes, if_neg outside]

/-- Two pieces that are read at once are read one by one. -/
theorem readBytes_append (m : Mem) (a : Int) (u v : Bytes)
    (both : readBytes m a (u ++ v).length = u ++ v) :
    readBytes m a u.length = u ∧ readBytes m (a + u.length) v.length = v := by
  rw [List.length_append, readBytes_add] at both
  exact List.append_inj both (length_readBytes _ _ _)

/-- A memory that holds pieces one behind the other reads as their concatenation. -/
theorem readBytes_of_starts {α : Type*} (piece : α → Bytes) (m : Mem) (start : Nat)
    (items : List α)
    (holds : ∀ entry ∈ Placement.starts (fun x => (piece x).length) start items,
      ∀ i < (piece entry.1).length, m ((entry.2 : Int) + i) = (piece entry.1).getD i 0) :
    readBytes m start (items.map (fun x => (piece x).length)).sum = items.flatMap piece := by
  induction items generalizing start with
  | nil => rfl
  | cons x rest ih =>
    rw [Placement.starts] at holds
    have later := ih (start + (piece x).length)
      (fun entry member => holds entry (List.mem_cons_of_mem _ member))
    -- the first piece lies at the start, the others behind it
    have first : readBytes m start (piece x).length = piece x := by
      refine List.ext_getElem (by simp [readBytes]) (fun i _ inside => ?_)
      have byte := holds (x, start) (by simp) i inside
      simpa [readBytes, List.getD_eq_getElem?_getD, inside] using byte
    rw [List.map_cons, List.sum_cons, List.flatMap_cons, readBytes_add, first]
    rw [Int.natCast_add] at later
    rw [later]

/-- Replacing a word by a function of itself. -/
def modify16 (m : Mem) (a : Int) (f : BitVec 16 → BitVec 16) : Mem := write16 m a (f (read16 m a))

def modify32 (m : Mem) (a : Int) (f : BitVec 32 → BitVec 32) : Mem := write32 m a (f (read32 m a))

def modify64 (m : Mem) (a : Int) (f : BitVec 64 → BitVec 64) : Mem := write64 m a (f (read64 m a))

theorem local_modify16 (a : Int) (f : BitVec 16 → BitVec 16) :
    Local (Set.Ico a (a + 2)) (fun m => modify16 m a f) :=
  Local.bind (g := fun v m => write16 m a (f v)) (readsOnly_read16 a)
    (fun v => local_write16 a (f v))

theorem local_modify32 (a : Int) (f : BitVec 32 → BitVec 32) :
    Local (Set.Ico a (a + 4)) (fun m => modify32 m a f) :=
  Local.bind (g := fun v m => write32 m a (f v)) (readsOnly_read32 a)
    (fun v => local_write32 a (f v))

theorem local_modify64 (a : Int) (f : BitVec 64 → BitVec 64) :
    Local (Set.Ico a (a + 8)) (fun m => modify64 m a f) :=
  Local.bind (g := fun v m => write64 m a (f v)) (readsOnly_read64 a)
    (fun v => local_write64 a (f v))

/-! ### Words that were written -/

theorem extractLsb'_append {w : Nat} (v : BitVec w) (lo len high : Nat) :
    v.extractLsb' (lo + len) high ++ v.extractLsb' lo len = v.extractLsb' lo (high + len) := by
  apply BitVec.eq_of_getLsbD_eq
  intro i below
  rw [BitVec.getLsbD_append, BitVec.getLsbD_extractLsb', BitVec.getLsbD_extractLsb',
    BitVec.getLsbD_extractLsb']
  by_cases inLow : i < len
  · simp [inLow, below]
  · have shifted : lo + len + (i - len) = lo + i := by omega
    have inHigh : i - len < high := by omega
    simp [inLow, below, shifted, inHigh]

theorem extractLsb'_whole {w : Nat} (v : BitVec w) : v.extractLsb' 0 w = v := by
  apply BitVec.eq_of_getLsbD_eq
  intro i below
  simp [below]

theorem writeBytes_byte {w : Nat} (m : Mem) (a : Int) (count : Nat) (v : BitVec w) (i : Nat)
    (inside : i < count) :
    (writeBytes m a (wordBytes count v) (a + i)).toBitVec = v.extractLsb' (8 * i) 8 := by
  have byte : (wordBytes count v).getD i 0 = UInt8.ofBitVec (v.extractLsb' (8 * i) 8) := by
    simp [wordBytes, List.getD_eq_getElem?_getD, inside]
  rw [writeBytes_at m a (wordBytes count v) i (by simpa using inside), byte]

theorem read16_writeBytes {w : Nat} (m : Mem) (a : Int) (count : Nat) (v : BitVec w) (i : Nat)
    (inside : i + 1 < count) :
    read16 (writeBytes m a (wordBytes count v)) (a + i) = v.extractLsb' (8 * i) 16 := by
  have high := writeBytes_byte m a count v (i + 1) inside
  rw [Int.natCast_add, Int.natCast_one, ← Int.add_assoc] at high
  rw [read16, high, writeBytes_byte m a count v i (by omega), Nat.mul_add, extractLsb'_append]

theorem read32_writeBytes {w : Nat} (m : Mem) (a : Int) (count : Nat) (v : BitVec w) (i : Nat)
    (inside : i + 3 < count) :
    read32 (writeBytes m a (wordBytes count v)) (a + i) = v.extractLsb' (8 * i) 32 := by
  have high := read16_writeBytes m a count v (i + 2) (by omega)
  rw [Int.natCast_add, ← Int.add_assoc] at high
  rw [read32, show (a + i + 2 : Int) = a + i + (2 : Nat) from rfl, high,
    read16_writeBytes m a count v i (by omega), Nat.mul_add, extractLsb'_append]

@[simp] theorem read16_write16 (m : Mem) (a : Int) (v : BitVec 16) :
    read16 (write16 m a v) a = v := by
  have held := read16_writeBytes m a 2 v 0 (by omega)
  rwa [Int.natCast_zero, Int.add_zero, extractLsb'_whole] at held

@[simp] theorem read32_write32 (m : Mem) (a : Int) (v : BitVec 32) :
    read32 (write32 m a v) a = v := by
  have held := read32_writeBytes m a 4 v 0 (by omega)
  rwa [Int.natCast_zero, Int.add_zero, extractLsb'_whole] at held

/-- A word apart from an update is read as before. -/
theorem read16_of_local {S : Set Int} {f : Mem → Mem} (updates : Local S f) (m : Mem) (a : Int)
    (apart : Disjoint (Set.Ico a (a + 2)) S) : read16 (f m) a = read16 m a :=
  readsOnly_read16 a _ _
    (fun x inside => updates.frame m x (Set.disjoint_left.mp apart inside))

theorem read16_write16_apart (m : Mem) (a b : Int) (v : BitVec 16) (apart : a + 2 ≤ b ∨ b + 2 ≤ a) :
    read16 (write16 m a v) b = read16 m b := by
  apply read16_of_local (local_write16 a v)
  rw [Set.disjoint_left]
  rintro x ⟨fromB, toB⟩ ⟨fromA, toA⟩
  omega

@[simp] theorem read16_modify16 (m : Mem) (a : Int) (f : BitVec 16 → BitVec 16) :
    read16 (modify16 m a f) a = f (read16 m a) :=
  read16_write16 m a _

@[simp] theorem read32_modify32 (m : Mem) (a : Int) (f : BitVec 32 → BitVec 32) :
    read32 (modify32 m a f) a = f (read32 m a) :=
  read32_write32 m a _

theorem read16_modify16_apart (m : Mem) (a b : Int) (f : BitVec 16 → BitVec 16)
    (apart : a + 2 ≤ b ∨ b + 2 ≤ a) : read16 (modify16 m a f) b = read16 m b :=
  read16_write16_apart m a b _ apart

theorem read32_modify32_apart (m : Mem) (a b : Int) (f : BitVec 32 → BitVec 32)
    (apart : a + 4 ≤ b ∨ b + 4 ≤ a) : read32 (modify32 m a f) b = read32 m b := by
  apply readsOnly_read32 b
  rintro x ⟨fromB, toB⟩
  apply (local_modify32 a f).frame
  rintro ⟨fromA, toA⟩
  omega

theorem write32_frame (m : Mem) (a x : Int) (v : BitVec 32) (outside : x < a ∨ a + 4 ≤ x) :
    write32 m a v x = m x := by
  apply (local_write32 a v).frame
  rintro ⟨low, high⟩
  omega

/-- What a word is overwritten with does not depend on the memory. -/
theorem write32_inside (m n : Mem) (a x : Int) (v : BitVec 32) (low : a ≤ x) (high : x < a + 4) :
    write32 m a v x = write32 n a v x := by
  have inside : a ≤ x ∧ x < a + (wordBytes 4 v).length := ⟨low, by rw [length_wordBytes]; omega⟩
  unfold write32 writeBytes
  rw [if_pos inside, if_pos inside]

theorem read32_write32_apart (m : Mem) (a b : Int) (v : BitVec 32)
    (apart : a + 4 ≤ b ∨ b + 4 ≤ a) : read32 (write32 m a v) b = read32 m b := by
  apply readsOnly_read32 b
  rintro x ⟨low, high⟩
  exact write32_frame m a x v (by omega)

theorem byteAt_readBytes (m : Mem) (a : Int) (len i : Nat) (inside : i < len) :
    Bytes.byteAt (readBytes m a len) i = (m (a + i)).toNat := by
  have listed : i < (List.range len).length := by rw [List.length_range]; omega
  simp only [Bytes.byteAt, readBytes]
  rw [List.getD_eq_getElem?_getD, List.getElem?_map, List.getElem?_eq_getElem listed,
    List.getElem_range, Option.map_some, Option.getD_some]

theorem u16At_readBytes (m : Mem) (a : Int) (len i : Nat) (inside : i + 2 ≤ len) :
    Bytes.u16At (readBytes m a len) i = (read16 m (a + i)).toNat := by
  have place : a + ((i + 1 : Nat) : Int) = a + i + 1 := by omega
  unfold Bytes.u16At read16
  rw [byteAt_readBytes _ _ _ _ (by omega), byteAt_readBytes _ _ _ _ (by omega), place,
    BitVec.toNat_append, UInt8.toNat_toBitVec, UInt8.toNat_toBitVec, Nat.shiftLeft_eq]
  have low := (m (a + i)).toNat_lt
  rw [Nat.mul_comm _ (2 ^ 8), ← Nat.two_pow_add_eq_or_of_lt low]
  omega

theorem u32At_readBytes (m : Mem) (a : Int) (len i : Nat) (inside : i + 4 ≤ len) :
    Bytes.u32At (readBytes m a len) i = (read32 m (a + i)).toNat := by
  have place : a + ((i + 2 : Nat) : Int) = a + i + 2 := by omega
  unfold Bytes.u32At read32
  rw [u16At_readBytes _ _ _ _ (by omega), u16At_readBytes _ _ _ _ (by omega), place,
    BitVec.toNat_append, Nat.shiftLeft_eq, Nat.mul_comm _ (2 ^ 16),
    ← Nat.two_pow_add_eq_or_of_lt (read16 m (a + i)).isLt]
  omega

/-! ### Updates at a place -/

/-- The memory seen from `d` addresses further on. -/
def shifted (d : Int) (m : Mem) : Mem := fun a => m (a + d)

/-- The update does the same at every place. -/
def PlaceFree (f : Mem → Int → Mem) : Prop :=
  ∀ d m off, f (shifted d m) off = shifted d (f m (off + d))

theorem writeBytes_shifted (d : Int) (m : Mem) (a : Int) (bytes : Bytes) :
    writeBytes (shifted d m) a bytes = shifted d (writeBytes m (a + d) bytes) := by
  funext b
  unfold writeBytes shifted
  dsimp only
  by_cases inside : a ≤ b ∧ b < a + bytes.length
  · rw [if_pos inside, if_pos (by omega)]
    congr 2
    omega
  · rw [if_neg inside, if_neg (by omega)]

@[simp] theorem read16_shifted (d : Int) (m : Mem) (a : Int) :
    read16 (shifted d m) a = read16 m (a + d) := by
  unfold read16 shifted
  rw [Int.add_right_comm]

@[simp] theorem read32_shifted (d : Int) (m : Mem) (a : Int) :
    read32 (shifted d m) a = read32 m (a + d) := by
  unfold read32
  rw [read16_shifted, read16_shifted, Int.add_right_comm]

theorem read64_shifted (d : Int) (m : Mem) (a : Int) :
    read64 (shifted d m) a = read64 m (a + d) := by
  unfold read64
  rw [read32_shifted, read32_shifted, Int.add_right_comm]

@[simp] theorem write32_shifted (d : Int) (m : Mem) (a : Int) (v : BitVec 32) :
    write32 (shifted d m) a v = shifted d (write32 m (a + d) v) :=
  writeBytes_shifted d m a _

@[simp] theorem modify16_shifted (d : Int) (m : Mem) (a : Int) (f : BitVec 16 → BitVec 16) :
    modify16 (shifted d m) a f = shifted d (modify16 m (a + d) f) := by
  rw [modify16, write16, read16_shifted, writeBytes_shifted]
  rfl

@[simp] theorem modify32_shifted (d : Int) (m : Mem) (a : Int) (f : BitVec 32 → BitVec 32) :
    modify32 (shifted d m) a f = shifted d (modify32 m (a + d) f) := by
  rw [modify32, write32_shifted, read32_shifted]
  rfl

@[simp] theorem modify64_shifted (d : Int) (m : Mem) (a : Int) (f : BitVec 64 → BitVec 64) :
    modify64 (shifted d m) a f = shifted d (modify64 m (a + d) f) := by
  rw [modify64, write64, read64_shifted, writeBytes_shifted]
  rfl

end LlvmLd.Memory
