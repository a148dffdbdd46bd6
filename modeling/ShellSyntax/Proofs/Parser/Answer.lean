import ShellSyntax.Proofs.Parser.Ensures

/-!
The answer of each rule at each place. Under a ranking a call either starts further on or has a
lower rank, so rules call each other no deeper than the tokens and the ranks that are left, and
beyond that depth the answer no longer depends on the fuel.
-/

namespace ShellSyntax

variable {R : RuleSet}

/-- A matcher that only looks at tokens and goes on. -/
def Matcher.Straight : {α : Type} → Matcher R α → Prop
  | _, .done _ => True
  | _, .act .peek next => ∀ t, (next t).Straight
  | _, .act .next next => ∀ t, (next t).Straight
  | _, _ => False

namespace Matcher.Straight

variable {α β : Type}

theorem bind {m : Matcher R α} {f : α → Matcher R β} (hm : m.Straight)
    (hf : ∀ a, (f a).Straight) : (m.bind f).Straight := by
  induction m with
  | done value => exact hf value
  | act action next ih =>
    cases action with
    | peek => exact fun t => ih t (hm t) hf
    | next => exact fun t => ih t (hm t) hf
    | _ => exact hm.elim
  | _ => exact hm.elim

theorem ofKind (kind : TokenKind) : (Matcher.ofKind (R := R) kind).Straight := by
  intro t
  simp only [Matcher.bind]
  split
  · exact fun _ => trivial
  · trivial

theorem acceptsKind (kind : TokenKind) : (Matcher.acceptsKind (R := R) kind).Straight :=
  (ofKind kind).bind fun _ => trivial

end Matcher.Straight

namespace Ranking

variable (K : Ranking R)

/-- The ranks that a rule may call where it starts: lower ones, and its own if it grows. -/
def ceiling (r : R.Rule) : Nat :=
  if R.policy r = .leftRecursive then K.rank r + 1 else K.rank r

/-- The rules of the grammar call each other as the ranking says. An entry rule calls others first
and then goes straight on to the end of the source. -/
structure Governs (G : Grammar R) : Prop where
  body : ∀ W r i, K.isEntry r = false →
    Ensures W K ⟨i, K.ceiling r, i⟩ (G.body r) i (K.Yields r i)
  entry : ∀ r, K.isEntry r = true → R.policy r = .direct ∧
    ∃ (α : Type) (first : Matcher R α) (last : α → Matcher R (Option (R.Node r))),
      G.body r = first.bind last ∧ (∀ a, (last a).Straight) ∧
      ∀ W i, Ensures W K ⟨i, K.rank r, i⟩ first i fun _ _ => True

/-- How deep rules call each other from `r` at `i`. -/
def need (limit : Nat) (r : R.Rule) (i : Nat) : Nat :=
  (limit - i) * (R.count + 1) + K.rank r + 1

/-- A call that a rule `r` at `i` may lead to, other than itself. -/
def Inside (W : World) (r : R.Rule) (i : Nat) (r' : R.Rule) (j : Nat) : Prop :=
  K.isEntry r' = false ∧ j ≤ W.limit ∧ (i < j ∨ i = j ∧ K.rank r' < K.rank r)

variable {K} {W : World} {r r' : R.Rule} {i j k : Nat}

theorem Inside.need_lt (h : K.Inside W r i r' j) : K.need W.limit r' j < K.need W.limit r i := by
  obtain ⟨_, hlimit, hlt | ⟨rfl, hrank⟩⟩ := h
  · have hle := K.rank_le r'
    have hleft : W.limit - j + 1 ≤ W.limit - i := by omega
    have hmul := Nat.mul_le_mul_right (R.count + 1) hleft
    rw [Nat.add_mul, Nat.one_mul] at hmul
    unfold need
    omega
  · unfold need
    omega

theorem Inside.ne_start (h : K.Inside W r i r j) : j ≠ i := by
  rintro rfl
  rcases h.2.2 with hlt | ⟨_, hrank⟩
  · exact Nat.lt_irrefl _ hlt
  · exact Nat.lt_irrefl _ hrank

theorem Allows.inside (h : K.Allows ⟨i, K.rank r, k⟩ r' j) (hlimit : j ≤ W.limit) :
    K.Inside W r i r' j := by
  refine ⟨h.2.1, hlimit, h.2.2.elim .inl fun hrank => ?_⟩
  rcases Nat.lt_or_eq_of_le h.1 with hlt | heq
  · exact .inl hlt
  · exact .inr ⟨heq, hrank⟩

theorem Allows.inside_or_self (h : K.Allows ⟨i, K.rank r + 1, k⟩ r' j) (hlimit : j ≤ W.limit) :
    K.Inside W r i r' j ∨ r' = r ∧ j = i := by
  rcases Nat.lt_or_eq_of_le h.1 with hlt | rfl
  · exact .inl ⟨h.2.1, hlimit, .inl hlt⟩
  · have hrank := h.2.2.resolve_left (Nat.lt_irrefl _)
    rcases Nat.lt_or_eq_of_le (Nat.le_of_lt_succ hrank) with hlt | heq
    · exact .inl ⟨h.2.1, hlimit, .inr ⟨rfl, hlt⟩⟩
    · exact .inr ⟨K.rank_injective heq, rfl⟩

end Ranking

/-! ### Growing -/

section Known

variable {callee : Callee R} {r : R.Rule} {i : Nat} {node : Option (R.Node r)} {stop : Nat}

theorem World.knowing_self :
    World.knowing callee i ⟨r, node, stop⟩ r i = ⟨stop, 0, .ok (node, stop)⟩ := by
  simp [World.knowing]

theorem World.knowing_other {r' : R.Rule} {j : Nat} (h : r' = r → j ≠ i) :
    World.knowing callee i ⟨r, node, stop⟩ r' j = callee r' j := by
  unfold World.knowing
  split
  case isTrue heq =>
    cases heq
    rw [if_neg (h rfl)]
  case isFalse => rfl

end Known

variable {W : World} {K : Ranking R} {G : Grammar R} {r : R.Rule} {i : Nat}

theorem World.growth_meets {N : Type} {body body' : Option N × Nat → Reading (Option N)}
    {P : Option N → Nat → Prop} (hstart : ∀ node stop, P node stop → i ≤ stop)
    (hbody : ∀ best, P best.1 best.2 → best.2 ≤ W.limit →
      body best = body' best ∧ (body best).Meets W i P)
    {fuel : Nat} {best : Option N × Nat} (hbest : P best.1 best.2) (hlimit : best.2 ≤ W.limit)
    (hfuel : W.limit - best.2 < fuel) :
    growth body fuel best = growth body' fuel best ∧
      (growth body fuel best).Meets W best.2 P := by
  induction fuel generalizing best with
  | zero => exact absurd hfuel (Nat.not_lt_zero _)
  | succ fuel ih =>
    obtain ⟨heq, hmeets⟩ := hbody best hbest hlimit
    refine ⟨Reading.andThen_congr heq hmeets ?_,
      (hmeets.widen (hstart _ _ hbest)).andThen_within ?_⟩
    · intro node stop hnode hstop
      split
      case isTrue => rfl
      case isFalse hgrows =>
        simp only [Bool.or_eq_true, decide_eq_true_eq, not_or] at hgrows
        exact (ih hnode hstop (by omega)).1
    · intro node stop hnode hstop hreach
      split
      case isTrue => exact .pure hbest hlimit (Nat.le_max_left _ _)
      case isFalse hgrows =>
        simp only [Bool.or_eq_true, decide_eq_true_eq, not_or] at hgrows
        exact (ih hnode hstop (by omega)).2.widen hreach

theorem World.step_meets (hG : K.Governs G) {callee callee' : Callee R}
    (hentry : K.isEntry r = false) (hlimit : i ≤ W.limit)
    (hcallee : ∀ r' j, K.Inside W r i r' j →
      callee r' j = callee' r' j ∧ (callee r' j).Meets W j (K.Yields r' j)) :
    W.step G callee r i = W.step G callee' r i ∧
      (W.step G callee r i).Meets W i (K.Yields r i) := by
  have hbody := hG.body W r i hentry
  unfold step
  cases hpolicy : R.policy r with
  | direct =>
    rw [Ranking.ceiling, if_neg (by simp [hpolicy])] at hbody
    have hmeets :=
      hbody.meets (fun r' j hallows hj => hcallee r' j (hallows.inside hj)) hlimit hlimit
    rwa [Base.reach_start] at hmeets
  | packrat =>
    rw [Ranking.ceiling, if_neg (by simp [hpolicy])] at hbody
    obtain ⟨heq, hmeets⟩ :=
      hbody.meets (fun r' j hallows hj => hcallee r' j (hallows.inside hj)) hlimit hlimit
    rw [Base.reach_start] at hmeets
    simp only [heq, true_and]
    rw [← heq]
    refine hmeets.andThen_within fun node stop hyields hstop hreach => ?_
    cases node with
    | none => exact .pure ⟨Nat.le_refl _, nofun⟩ hlimit (Nat.le_max_left _ _)
    | some node => exact .pure hyields hstop hreach
  | leftRecursive =>
    rw [Ranking.ceiling, if_pos hpolicy] at hbody
    have hbound := W.limit_lt
    refine growth_meets (P := K.Yields r i) (fun _ _ hyields => hyields.1) ?_
      ⟨Nat.le_refl _, nofun⟩ hlimit (by omega)
    intro best hbest hstop
    have hagree : CalleesAgree W K ⟨i, K.rank r + 1, i⟩ (knowing callee i ⟨r, best.1, best.2⟩)
        (knowing callee' i ⟨r, best.1, best.2⟩) := by
      intro r' j hallows hj
      rcases hallows.inside_or_self hj with hinside | ⟨rfl, rfl⟩
      · rw [knowing_other, knowing_other]
        · exact hcallee r' j hinside
        all_goals
          rintro rfl
          exact hinside.ne_start
      · rw [knowing_self, knowing_self]
        exact ⟨rfl, hbest, hstop, Nat.le_max_right _ _⟩
    have hself := hbody.meets hagree hlimit hlimit
    rwa [Base.reach_start] at hself

/-! ### The answer -/

/-- What the rule `r` makes of the tokens from `i` on. -/
def World.answer (W : World) (G : Grammar R) (K : Ranking R) : Callee R := fun r i =>
  W.call G (K.need W.limit r i) r i

theorem World.call_meets (hG : K.Governs G) (hentry : K.isEntry r = false) (hlimit : i ≤ W.limit)
    {fuel : Nat} (hfuel : K.need W.limit r i ≤ fuel) :
    W.call G fuel r i = W.answer G K r i ∧ (W.call G fuel r i).Meets W i (K.Yields r i) := by
  induction hneed : K.need W.limit r i using Nat.strongRecOn generalizing r i fuel with
  | ind need ih =>
    subst hneed
    obtain ⟨fuel, rfl⟩ : ∃ less, fuel = less + 1 := ⟨fuel - 1, by unfold Ranking.need at hfuel; omega⟩
    have hinside : ∀ fuel', K.need W.limit r i ≤ fuel' + 1 → ∀ r' j, K.Inside W r i r' j →
        W.call G fuel' r' j = W.answer G K r' j ∧
          (W.call G fuel' r' j).Meets W j (K.Yields r' j) := by
      intro fuel' hfuel' r' j h
      have hless := h.need_lt
      exact ih _ hless h.1 h.2.1 (by omega) rfl
    have hstep : ∀ fuel', K.need W.limit r i ≤ fuel' + 1 →
        W.call G (fuel' + 1) r i = W.step G (W.answer G K) r i ∧
          (W.call G (fuel' + 1) r i).Meets W i (K.Yields r i) := fun fuel' hfuel' =>
      step_meets hG hentry hlimit (hinside fuel' hfuel')
    obtain ⟨heq, hmeets⟩ := hstep fuel hfuel
    refine ⟨heq.trans ?_, hmeets⟩
    exact (hstep ((W.limit - i) * (R.count + 1) + K.rank r) (Nat.le_refl _)).1.symm

theorem World.answer_meets (hG : K.Governs G) (hentry : K.isEntry r = false)
    (hlimit : i ≤ W.limit) : (W.answer G K r i).Meets W i (K.Yields r i) :=
  (call_meets hG hentry hlimit (Nat.le_refl _)).2

theorem World.answer_eq (hG : K.Governs G) (hentry : K.isEntry r = false) (hlimit : i ≤ W.limit) :
    W.answer G K r i = W.step G (W.answer G K) r i := by
  refine (step_meets hG hentry hlimit fun r' j h => ?_).1
  have hless := h.need_lt
  exact call_meets hG h.1 h.2.1 (by unfold Ranking.need at hless ⊢; omega)

end ShellSyntax
