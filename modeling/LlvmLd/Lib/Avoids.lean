import Mathlib.Data.List.Basic

/-!
Computations in `Except` that must not stop with one particular error: what a computation keeps when
it does not, and exactly when it does.
-/

namespace LlvmLd.Outcome

variable {ε α β σ : Type} {bad : ε} {P : α → Prop} {Q : β → Prop}

/-- The computation does not stop with `bad`, and what it returns has `P`; another error may stop it. -/
def Avoids (bad : ε) (P : α → Prop) : Except ε α → Prop
  | .ok a => P a
  | .error e => e ≠ bad

@[simp] theorem avoids_ok {a : α} : Avoids bad P (.ok a) ↔ P a := Iff.rfl

@[simp] theorem avoids_pure {a : α} : Avoids bad P (pure a) ↔ P a := Iff.rfl

@[simp] theorem avoids_error {e : ε} : Avoids bad P (.error e) ↔ e ≠ bad := Iff.rfl

theorem Avoids.ne {x : Except ε α} (avoids : Avoids bad P x) : x ≠ .error bad := by
  rintro rfl
  exact avoids rfl

theorem Avoids.of_ok {x : Except ε α} {a : α} (avoids : Avoids bad P x) (ends : x = .ok a) : P a := by
  rw [ends] at avoids
  exact avoids

theorem avoids_of_ne {x : Except ε α} (ne : x ≠ .error bad) (post : ∀ a, x = .ok a → P a) :
    Avoids bad P x := by
  cases x with
  | ok a => exact post a rfl
  | error e => exact fun same => ne (congrArg _ same)

theorem Avoids.mono {P' : α → Prop} {x : Except ε α} (avoids : Avoids bad P x)
    (weaker : ∀ a, P a → P' a) : Avoids bad P' x := by
  cases x with
  | ok a => exact weaker a avoids
  | error e => exact avoids

theorem Avoids.bind {x : Except ε α} {f : α → Except ε β} (avoids : Avoids bad P x)
    (next : ∀ a, P a → Avoids bad Q (f a)) : Avoids bad Q (x >>= f) := by
  cases x with
  | ok a => exact next a avoids
  | error e => exact avoids

/-- A loop keeps its invariant, which may speak of the rounds that are over. -/
theorem foldlM_avoids {P : List α → σ → Prop} {f : σ → α → Except ε σ} {l : List α} {s : σ}
    (step : ∀ done s, ∀ a ∈ l, P done s → Avoids bad (P (done ++ [a])) (f s a)) (done : List α)
    (start : P done s) : Avoids bad (P (done ++ l)) (l.foldlM f s) := by
  induction l generalizing s done with
  | nil => simpa using start
  | cons a rest ih =>
    rw [List.foldlM_cons]
    refine (step done s a (List.mem_cons_self ..) start).bind fun s' kept => ?_
    have others := ih (fun done s b member => step done s b (List.mem_cons_of_mem _ member))
      (done ++ [a]) kept
    rwa [List.append_assoc, List.singleton_append] at others

/-! ### Exactly when the error is avoided -/

theorem bind_ok_iff {x : Except ε α} {f : α → Except ε β} {b : β} :
    (x >>= f) = .ok b ↔ ∃ a, x = .ok a ∧ f a = .ok b := by
  cases x with
  | ok a =>
    constructor
    · exact fun ends => ⟨a, rfl, ends⟩
    · rintro ⟨_, first, ends⟩
      cases first
      exact ends
  | error e =>
    constructor
    · intro ends
      cases ends
    · rintro ⟨_, first, -⟩
      cases first

theorem bind_ne_iff {x : Except ε α} {f : α → Except ε β} :
    (x >>= f) ≠ .error bad ↔ x ≠ .error bad ∧ ∀ a, x = .ok a → f a ≠ .error bad := by
  cases x with
  | ok a =>
    constructor
    · intro ne
      refine ⟨by simp, fun _ same => ?_⟩
      cases same
      exact ne
    · exact fun both => both.2 a rfl
  | error e =>
    have same : (.error e : Except ε β) = .error bad ↔ (.error e : Except ε α) = .error bad := by simp
    exact ⟨fun ne => ⟨fun stops => ne (same.mpr stops), fun _ ends => by cases ends⟩,
      fun both stops => both.1 (same.mp stops)⟩

/-- The loop comes to the item `a`, in the state `s'`. -/
def ComesTo (f : σ → α → Except ε σ) (s : σ) (l : List α) (a : α) (s' : σ) : Prop :=
  ∃ before behind, l = before ++ a :: behind ∧ before.foldlM f s = .ok s'

section Loop

variable {f : σ → α → Except ε σ} {l : List α} {s : σ}

theorem comesTo_head (a : α) : ComesTo f s (a :: l) a s := ⟨[], l, rfl, rfl⟩

theorem ComesTo.cons {a b : α} {s' s'' : σ} (first : f s b = .ok s') (comes : ComesTo f s' l a s'') :
    ComesTo f s (b :: l) a s'' := by
  obtain ⟨before, behind, rfl, ends⟩ := comes
  refine ⟨b :: before, behind, rfl, ?_⟩
  rw [List.foldlM_cons, bind_ok_iff]
  exact ⟨s', first, ends⟩

/-- A loop avoids the error if every round does that it comes to. -/
theorem foldlM_ne_iff :
    l.foldlM f s ≠ .error bad ↔ ∀ a s', ComesTo f s l a s' → f s' a ≠ .error bad := by
  constructor
  · rintro ne a s' ⟨before, behind, rfl, ends⟩ stops
    refine ne ?_
    rw [List.foldlM_append, ends]
    show (a :: behind).foldlM f s' = _
    rw [List.foldlM_cons, stops]
    rfl
  · intro all
    -- the states that the fold comes to behind the head are those of the rest
    induction l generalizing s with
    | nil => simp [pure, Except.pure]
    | cons b rest ih =>
      rw [List.foldlM_cons, bind_ne_iff]
      refine ⟨all b s (comesTo_head b), fun s' first => ih fun a s'' comes => ?_⟩
      exact all a s'' (comes.cons first)

/-- What the rounds keep that end, the loop keeps; it may speak of the rounds that are over. -/
theorem foldlM_keeps {I : List α → σ → Prop}
    (step : ∀ done s s' a, a ∈ l → I done s → f s a = .ok s' → I (done ++ [a]) s')
    (done : List α) (start : I done s) {s' : σ} (ends : l.foldlM f s = .ok s') :
    I (done ++ l) s' := by
  induction l generalizing s done with
  | nil =>
    cases ends
    rwa [List.append_nil]
  | cons a rest ih =>
    rw [List.foldlM_cons, bind_ok_iff] at ends
    obtain ⟨s₁, first, ends⟩ := ends
    have later := ih (fun done s s' b member => step done s s' b (List.mem_cons_of_mem _ member))
      (done ++ [a]) (step done s s₁ a (List.mem_cons_self ..) start first) ends
    rwa [List.append_assoc, List.singleton_append] at later

/-- What a loop keeps in each round that it comes to. -/
theorem foldlM_comes {I : σ → Prop}
    (step : ∀ a s' s'', ComesTo f s l a s' → I s' → f s' a = .ok s'' → I s'') (start : I s)
    {s' : σ} (ends : l.foldlM f s = .ok s') : I s' := by
  induction l generalizing s with
  | nil =>
    cases ends
    exact start
  | cons a rest ih =>
    rw [List.foldlM_cons, bind_ok_iff] at ends
    obtain ⟨s₁, first, ends⟩ := ends
    exact ih (fun b s₂ s₃ comes => step b s₂ s₃ (comes.cons first))
      (step a s s₁ (comesTo_head a) start first) ends

/-- A loop that ends has come to each of its items. -/
theorem comesTo_of_ok {before behind : List α} {a : α} {s' : σ}
    (ends : (before ++ a :: behind).foldlM f s = .ok s') :
    ∃ s₁ s₂, before.foldlM f s = .ok s₁ ∧ f s₁ a = .ok s₂ ∧ behind.foldlM f s₂ = .ok s' := by
  rw [List.foldlM_append, bind_ok_iff] at ends
  obtain ⟨s₁, first, ends⟩ := ends
  rw [List.foldlM_cons, bind_ok_iff] at ends
  obtain ⟨s₂, here, ends⟩ := ends
  exact ⟨s₁, s₂, first, here, ends⟩

/-- A loop whose rounds end or stop with the error, by the item alone. -/
theorem foldlM_ne_iff_forall {good : α → Prop} (ends : ∀ s a, good a → ∃ s', f s a = .ok s')
    (stops : ∀ s a, ¬ good a → f s a = .error bad) :
    l.foldlM f s ≠ .error bad ↔ ∀ a ∈ l, good a := by
  induction l generalizing s with
  | nil => simp [pure, Except.pure]
  | cons a rest ih =>
    rw [List.foldlM_cons, List.forall_mem_cons]
    -- the first element that is not good stops the fold, whatever the state is
    by_cases is_good : good a
    · obtain ⟨s', first⟩ := ends s a is_good
      rw [first]
      show rest.foldlM f s' ≠ _ ↔ _
      rw [ih]
      simp [is_good]
    · rw [stops s a is_good]
      simp [is_good, bind, Except.bind]

end Loop

/-! ### Loops in pieces -/

/-- A loop over the pieces of its items does what the loop over the items does, on a state that
says more. -/
theorem foldlM_flatMap_map {τ κ : Type} {f : σ → α → Except ε σ} {g : τ → κ → Except ε τ}
    {view : τ → σ} {pieces : α → List κ} {l : List α}
    (step : ∀ a ∈ l, ∀ t, ((pieces a).foldlM g t).map view = f (view t) a) (t : τ) :
    ((l.flatMap pieces).foldlM g t).map view = l.foldlM f (view t) := by
  induction l generalizing t with
  | nil => rfl
  | cons a rest ih =>
    have here := step a (List.mem_cons_self ..) t
    rw [List.flatMap_cons, List.foldlM_append, List.foldlM_cons, ← here]
    cases (pieces a).foldlM g t with
    | error e => rfl
    | ok t' => exact ih (fun b member => step b (List.mem_cons_of_mem _ member)) t'

/-- A loop on a state that says more, round by round. -/
theorem foldlM_map_view {τ : Type} {f : σ → α → Except ε σ} {g : τ → α → Except ε τ} {view : τ → σ}
    (step : ∀ t a, (g t a).map view = f (view t) a) (l : List α) (t : τ) :
    (l.foldlM g t).map view = l.foldlM f (view t) := by
  have pieces : ((l.flatMap fun a => [a]).foldlM g t).map view = l.foldlM f (view t) := by
    refine foldlM_flatMap_map (fun a _ t => ?_) t
    rw [← step t a, List.foldlM_cons]
    exact congrArg _ (bind_pure _)
  rwa [List.flatMap_singleton'] at pieces

/-- Loops whose rounds agree on the states that they come to. -/
theorem foldlM_congr {f g : σ → α → Except ε σ} {l : List α} (same : ∀ a ∈ l, ∀ s, f s a = g s a)
    (s : σ) : l.foldlM f s = l.foldlM g s := by
  induction l generalizing s with
  | nil => rfl
  | cons a rest ih =>
    rw [List.foldlM_cons, List.foldlM_cons, same a (List.mem_cons_self ..)]
    congr 1
    funext s'
    exact ih (fun b member => same b (List.mem_cons_of_mem _ member)) s'

end LlvmLd.Outcome
