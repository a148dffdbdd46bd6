/-! What a run of a stateful step with failures yields, read off its parts. -/

namespace ShellSyntax.Outcome

variable {ε σ α β : Type} {s t : σ} {b : β}

/-! ### Single steps -/

theorem run_pure (a : α) : (pure a : EStateM ε σ α) s = .ok a s :=
  rfl

theorem run_bind (x : EStateM ε σ α) (f : α → EStateM ε σ β) :
    (x >>= f) s =
      match x s with
      | .ok a u => f a u
      | .error e u => .error e u :=
  rfl

theorem run_get : (get : EStateM ε σ σ) s = .ok s s :=
  rfl

theorem run_set (next : σ) : (set next : EStateM ε σ PUnit) s = .ok ⟨⟩ next :=
  rfl

theorem run_modify (f : σ → σ) : (modify f : EStateM ε σ PUnit) s = .ok ⟨⟩ (f s) :=
  rfl

theorem run_throw (e : ε) : (throw e : EStateM ε σ α) s = .error e s :=
  rfl

/-! ### Success -/

@[simp] theorem pure_ok {a b : α} :
    (pure a : EStateM ε σ α) s = .ok b t ↔ a = b ∧ s = t := by
  simp only [pure, EStateM.pure, EStateM.Result.ok.injEq]

@[simp] theorem bind_ok {x : EStateM ε σ α} {f : α → EStateM ε σ β} :
    (x >>= f) s = .ok b t ↔ ∃ a u, x s = .ok a u ∧ f a u = .ok b t := by
  simp only [bind, EStateM.bind]
  cases h : x s with
  | ok a u =>
    constructor
    · exact fun result => ⟨a, u, rfl, result⟩
    · rintro ⟨_, _, first, result⟩
      cases first
      exact result
  | error e u => simp

@[simp high] theorem get_bind_ok {f : σ → EStateM ε σ β} :
    (get >>= f) s = .ok b t ↔ f s s = .ok b t :=
  Iff.rfl

@[simp high] theorem set_bind_ok {next : σ} {f : PUnit → EStateM ε σ β} :
    (set next >>= f) s = .ok b t ↔ f ⟨⟩ next = .ok b t :=
  Iff.rfl

@[simp high] theorem modify_bind_ok {g : σ → σ} {f : PUnit → EStateM ε σ β} :
    (modify g >>= f) s = .ok b t ↔ f ⟨⟩ (g s) = .ok b t :=
  Iff.rfl

@[simp] theorem map_ok {x : EStateM ε σ α} {f : α → β} :
    (f <$> x) s = .ok b t ↔ ∃ a, x s = .ok a t ∧ f a = b := by
  simp only [Functor.map, EStateM.map]
  cases h : x s with
  | ok a u =>
    constructor
    · intro result
      cases result
      exact ⟨a, rfl, rfl⟩
    · rintro ⟨_, first, rfl⟩
      cases first
      rfl
  | error e u => simp

@[simp] theorem get_ok {a t : σ} :
    (get : EStateM ε σ σ) s = .ok a t ↔ s = a ∧ s = t := by
  rw [run_get, EStateM.Result.ok.injEq]

@[simp] theorem set_ok {next : σ} {u : PUnit} :
    (set next : EStateM ε σ PUnit) s = .ok u t ↔ next = t := by
  simp only [run_set, EStateM.Result.ok.injEq, true_and]

@[simp] theorem modify_ok {f : σ → σ} {u : PUnit} :
    (modify f : EStateM ε σ PUnit) s = .ok u t ↔ f s = t := by
  simp only [run_modify, EStateM.Result.ok.injEq, true_and]

@[simp] theorem throw_ok {e : ε} {a : α} :
    (throw e : EStateM ε σ α) s = .ok a t ↔ False := by
  simp only [run_throw, reduceCtorEq]

@[simp] theorem ite_ok {p : Prop} [Decidable p] {x y : EStateM ε σ α} {a : α} :
    (if p then x else y) s = .ok a t ↔ if p then x s = .ok a t else y s = .ok a t := by
  split <;> rfl

/-! ### The state that is left -/

/-- The state behind a run, whether it succeeded or not. -/
def final : EStateM.Result ε σ α → σ
  | .ok _ s | .error _ s => s

@[simp] theorem final_pure (a : α) : final ((pure a : EStateM ε σ α) s) = s :=
  rfl

@[simp] theorem final_throw (e : ε) : final ((throw e : EStateM ε σ α) s) = s :=
  rfl

@[simp] theorem final_set (next : σ) : final ((set next : EStateM ε σ PUnit) s) = next :=
  rfl

@[simp] theorem final_modify (f : σ → σ) : final ((modify f : EStateM ε σ PUnit) s) = f s :=
  rfl

@[simp] theorem final_get_bind (f : σ → EStateM ε σ β) : final ((get >>= f) s) = final (f s s) :=
  rfl

@[simp] theorem final_set_bind (next : σ) (f : PUnit → EStateM ε σ β) :
    final ((set next >>= f) s) = final (f ⟨⟩ next) :=
  rfl

@[simp] theorem final_modify_bind (g : σ → σ) (f : PUnit → EStateM ε σ β) :
    final ((modify g >>= f) s) = final (f ⟨⟩ (g s)) :=
  rfl

/-! ### Failure -/

variable {e : ε}

theorem bind_error {x : EStateM ε σ α} {f : α → EStateM ε σ β} :
    (x >>= f) s = .error e t ↔
      x s = .error e t ∨ ∃ a u, x s = .ok a u ∧ f a u = .error e t := by
  rw [run_bind]
  cases x s with
  | ok a u =>
    constructor
    · exact fun result => .inr ⟨a, u, rfl, result⟩
    · rintro (first | ⟨_, _, first, result⟩)
      · cases first
      · cases first
        exact result
  | error e' u => simp

theorem ite_error {p : Prop} [Decidable p] {x y : EStateM ε σ α} :
    (if p then x else y) s = .error e t ↔ if p then x s = .error e t else y s = .error e t := by
  split <;> rfl

theorem pure_error {a : α} : (pure a : EStateM ε σ α) s = .error e t ↔ False := by
  simp only [run_pure, reduceCtorEq]

theorem set_error {next : σ} : (set next : EStateM ε σ PUnit) s = .error e t ↔ False := by
  simp only [run_set, reduceCtorEq]

theorem modify_error {f : σ → σ} : (modify f : EStateM ε σ PUnit) s = .error e t ↔ False := by
  simp only [run_modify, reduceCtorEq]

theorem throw_error {e' : ε} :
    (throw e' : EStateM ε σ α) s = .error e t ↔ e' = e ∧ s = t := by
  simp only [run_throw, EStateM.Result.error.injEq]

/-- What a run yields, if it succeeds. -/
def value? : EStateM.Result ε σ α → Option α
  | .ok a _ => some a
  | .error _ _ => none

def failure? : EStateM.Result ε σ α → Option ε
  | .ok _ _ => none
  | .error e _ => some e

theorem eq_ok_of_value? (result : EStateM.Result ε σ α) {a : α}
    (hvalue : value? result = some a) : result = .ok a (final result) := by
  cases result with
  | ok b u => rw [← Option.some.inj hvalue]; rfl
  | error e u => cases hvalue

theorem eq_error_of_failure? (result : EStateM.Result ε σ α)
    (hfailure : failure? result = some e) : result = .error e (final result) := by
  cases result with
  | ok b u => cases hfailure
  | error e' u => rw [← Option.some.inj hfailure]; rfl

/-! ### Two runs -/

/-- Where the first run succeeds the second does too, with a related result and in a related
state. -/
def Follows (T : σ → σ → Prop) (R : α → β → Prop) (s s' : σ) (step : EStateM ε σ α)
    (step' : EStateM ε σ β) : Prop :=
  ∀ a t, step s = .ok a t → ∃ b t', step' s' = .ok b t' ∧ R a b ∧ T t t'

namespace Follows

variable {γ δ : Type} {T : σ → σ → Prop} {R : α → β → Prop} {S : γ → δ → Prop} {s s' t t' : σ}

theorem pure {a : α} {b : β} (hresult : R a b) (h : T s s') :
    Follows T R s s' (pure a : EStateM ε σ α) (pure b) := by
  rintro _ _ hrun
  obtain ⟨rfl, rfl⟩ := pure_ok.mp hrun
  exact ⟨b, s', rfl, hresult, h⟩

theorem throw (e : ε) (step' : EStateM ε σ β) :
    Follows T R s s' (throw e : EStateM ε σ α) step' :=
  fun _ _ hrun => absurd hrun (by simp)

theorem set (h : T t t') :
    Follows T Eq s s' (set t : EStateM ε σ PUnit) (set t') := by
  rintro ⟨⟩ _ hrun
  rw [set_ok] at hrun
  subst hrun
  exact ⟨⟨⟩, t', rfl, rfl, h⟩

theorem modify {f g : σ → σ} (h : T (f s) (g s')) :
    Follows T Eq s s' (modify f : EStateM ε σ PUnit) (modify g) := by
  rintro ⟨⟩ _ hrun
  rw [modify_ok] at hrun
  subst hrun
  exact ⟨⟨⟩, g s', rfl, rfl, h⟩

theorem getBind {f : σ → EStateM ε σ α} {g : σ → EStateM ε σ β}
    (next : Follows T R s s' (f s) (g s')) :
    Follows T R s s' (get >>= f) (get >>= g) :=
  next

theorem setBind {f : PUnit → EStateM ε σ α} {g : PUnit → EStateM ε σ β}
    (next : Follows T R t t' (f ⟨⟩) (g ⟨⟩)) :
    Follows T R s s' (MonadStateOf.set t >>= f) (MonadStateOf.set t' >>= g) :=
  next

theorem ite {p q : Prop} [Decidable p] [Decidable q] {yes no : EStateM ε σ α}
    {yes' no' : EStateM ε σ β} (hsame : q ↔ p) (hyes : p → Follows T R s s' yes yes')
    (hno : ¬p → Follows T R s s' no no') :
    Follows T R s s' (if p then yes else no) (if q then yes' else no') := by
  by_cases hp : p
  · rw [if_pos hp, if_pos (hsame.mpr hp)]
    exact hyes hp
  · rw [if_neg hp, if_neg (mt hsame.mp hp)]
    exact hno hp

theorem bind {first : EStateM ε σ γ} {first' : EStateM ε σ δ} {f : γ → EStateM ε σ α}
    {g : δ → EStateM ε σ β} (hfirst : Follows T S s s' first first')
    (next : ∀ c d t t', first s = .ok c t → first' s' = .ok d t' → S c d → T t t' →
      Follows T R t t' (f c) (g d)) :
    Follows T R s s' (first >>= f) (first' >>= g) := by
  intro a u hrun
  obtain ⟨c, t, hrun₁, hrun₂⟩ := bind_ok.mp hrun
  obtain ⟨d, t', hrun₁', hresult, ht⟩ := hfirst c t hrun₁
  obtain ⟨b, u', hrun₂', hlast, hu⟩ := next c d t t' hrun₁ hrun₁' hresult ht a u hrun₂
  exact ⟨b, u', bind_ok.mpr ⟨d, t', hrun₁', hrun₂'⟩, hlast, hu⟩

end Follows

end ShellSyntax.Outcome
