import ShellSyntax.Proofs.Parser.Reading

/-!
What a matcher ensures wherever it is run. Its steps are followed one by one; of the rules that it
calls only this is known, that they end no earlier than they start. In return a matcher that calls
a rule where it started itself may only call one of a lower rank.
-/

namespace ShellSyntax

/-- An order of the rules. Where a rule starts, only rules of lower ranks are called. -/
structure Ranking (R : RuleSet) where
  rank : R.Rule → Nat
  /-- A rule that no other calls. -/
  isEntry : R.Rule → Bool
  /-- A rule that may match nothing. -/
  mayBeEmpty : R.Rule → Bool
  rank_le : ∀ r, rank r ≤ R.count
  rank_injective : ∀ {r s}, rank r = rank s → r = s

/-- Where the body of a rule starts, which ranks it may call there, and how far it has come. -/
structure Base where
  start : Nat
  ceiling : Nat
  reached : Nat

/-- The body has come to `i`. -/
def Base.reach (b : Base) (i : Nat) : Base :=
  { b with reached := max b.reached i }

variable {R : RuleSet}

namespace Ranking

variable (K : Ranking R)

def Allows (b : Base) (r : R.Rule) (i : Nat) : Prop :=
  b.start ≤ i ∧ K.isEntry r = false ∧ (b.start < i ∨ K.rank r < b.ceiling)

/-- What is known of a call at `i` that ends at `j`. -/
def Yields (r : R.Rule) (i : Nat) (node : Option (R.Node r)) (j : Nat) : Prop :=
  i ≤ j ∧ (node.isSome → K.mayBeEmpty r = false → i < j)

variable {K} {b : Base} {r r' : R.Rule} {i j : Nat}

theorem Allows.start_le (h : K.Allows b r i) : b.start ≤ i :=
  h.1

theorem Allows.lower (h : K.Allows b r i) (hentry : K.isEntry r' = false)
    (hrank : K.rank r' ≤ K.rank r) : K.Allows b r' i :=
  ⟨h.1, hentry, h.2.2.imp_right (Nat.lt_of_le_of_lt hrank)⟩

theorem Allows.at (h : K.Allows b r i) (hle : i ≤ j) : K.Allows b r j := by
  obtain ⟨hstart, hentry, hlower⟩ := h
  refine ⟨Nat.le_trans hstart hle, hentry, ?_⟩
  rcases Nat.lt_or_eq_of_le hle with hlt | rfl
  · exact .inl (Nat.lt_of_le_of_lt hstart hlt)
  · exact hlower

theorem Allows.later (hstart : b.start < i) (hentry : K.isEntry r = false) : K.Allows b r i :=
  ⟨Nat.le_of_lt hstart, hentry, .inl hstart⟩

end Ranking

/-! ### Messages -/

/-- The messages that the parser itself gives, whatever the grammar. -/
def Parser.ownMessages : List String :=
  ["invalid syntax", "too many nested parentheses"]

/-- The grammar says what is wrong. -/
def Fault.Particular (fault : Fault) : Prop :=
  fault.message ∉ Parser.ownMessages

theorem Parser.not_own_of_head {message : String} {first : Char}
    (hfirst : message.toList.head? = some first) (hother : first ≠ 'i' ∧ first ≠ 't') :
    message ∉ ownMessages := by
  simp only [ownMessages, List.mem_cons, List.not_mem_nil, or_false, not_or]
  constructor
  all_goals
    rintro rfl
    simp at hfirst
    simp [← hfirst] at hother

theorem Parser.head_append {start : String} {first : Char}
    (hfirst : start.toList.head? = some first) (rest : String) :
    (start ++ rest).toList.head? = some first := by
  rw [String.toList_append, List.head?_append, hfirst]
  rfl

/-! ### Following a matcher -/

/-- After one step of a body `Q` holds of what it yields and of where it ends. -/
def World.Performs (W : World) (b : Base) : {β : Type} → Action β → Nat → (β → Nat → Prop) → Prop
  | _, .mark, i, Q => Q i i
  | _, .reset mark, _, Q => b.start ≤ mark ∧ mark ≤ b.reached ∧ Q () mark
  | _, .peek, i, Q => ∀ t, W.token i = .ok t → Q t i
  | _, .next, i, Q => ∀ t, W.token i = .ok t → ¬t.IsEnd ∧ Q t (i + 1)
  | _, .spanSince mark, i, Q => mark < i ∧ Q (W.spanSince mark i) i
  | _, .lastToken?, i, Q => Q (W.lastToken? i) i
  | _, .isDiagnosing, i, Q => Q W.diagnosing i
  | _, .fail fault, _, _ => fault.Particular

def Matcher.LooksFirst : {α : Type} → Matcher R α → Nat → Prop
  | _, .act .mark next, i => (next i).LooksFirst i
  | _, .act .peek _, _ => True
  | _, _, _ => False

/-- Wherever the rules that it calls end, `Q` holds of what the matcher yields and of where it
ends. -/
def Ensures (W : World) (K : Ranking R) :
    Base → {α : Type} → Matcher R α → Nat → (α → Nat → Prop) → Prop
  | _, _, .done value, i, Q => Q value i
  | b, _, .act action next, i, Q =>
    W.Performs (b.reach i) action i fun v j => Ensures W K (b.reach i) (next v) j Q
  | b, _, .call r next, i, Q =>
    K.Allows b r i ∧ ∀ node j, K.Yields r i node j → Ensures W K (b.reach i) (next node) j Q
  | b, _, .deeper inner next, i, Q =>
    (inner.LooksFirst i ∨ ∃ t, W.token i = .ok t) ∧
      Ensures W K b inner i fun v j => Ensures W K (b.reach i) (next v) j Q
  | b, _, .iterate body state next, i, Q =>
    ∃ holds : _ → Nat → Prop, holds state i ∧ ∀ state j, holds state j →
      Ensures W K (b.reach i) (body state) j fun outcome k =>
        match outcome with
        | .inl state => j < k ∧ holds state k
        | .inr result => Ensures W K (b.reach i) (next result) k Q

variable {W : World} {K : Ranking R} {b b' : Base} {α β σ : Type} {i : Nat}

/-- The same body, and it has come further. -/
structure Base.Further (b b' : Base) : Prop where
  start : b'.start = b.start
  ceiling : b'.ceiling = b.ceiling
  reached : b.reached ≤ b'.reached

namespace Base.Further

theorem refl (b : Base) : b.Further b :=
  ⟨rfl, rfl, Nat.le_refl _⟩

theorem reach (h : b.Further b') (i : Nat) : (b.reach i).Further (b'.reach i) := by
  refine ⟨h.start, h.ceiling, ?_⟩
  have hreached := h.reached
  simp only [Base.reach]
  omega

theorem to_reach (b : Base) (i : Nat) : b.Further (b.reach i) :=
  ⟨rfl, rfl, Nat.le_max_left _ _⟩

end Base.Further

@[simp] theorem Base.reach_reach (b : Base) (i : Nat) : (b.reach i).reach i = b.reach i := by
  simp [reach]

@[simp] theorem Base.reach_start (i ceiling : Nat) :
    ((⟨i, ceiling, i⟩ : Base).reach i).reached = i :=
  Nat.max_self i

theorem World.Performs.mono {action : Action β} {P Q : β → Nat → Prop}
    (h : W.Performs b action i P) (hfurther : b.Further b') (himp : ∀ v j, P v j → Q v j) :
    W.Performs b' action i Q := by
  cases action with
  | mark => exact himp _ _ h
  | reset mark =>
    exact ⟨hfurther.start ▸ h.1, Nat.le_trans h.2.1 hfurther.reached, himp _ _ h.2.2⟩
  | peek => exact fun t ht => himp _ _ (h t ht)
  | next => exact fun t ht => ⟨(h t ht).1, himp _ _ (h t ht).2⟩
  | spanSince mark => exact ⟨h.1, himp _ _ h.2⟩
  | lastToken? => exact himp _ _ h
  | isDiagnosing => exact himp _ _ h
  | fail fault => exact h

namespace Ensures

theorem mono_base {m : Matcher R α} {P Q : α → Nat → Prop} (h : Ensures W K b m i P)
    (hfurther : b.Further b') (himp : ∀ v j, P v j → Q v j) : Ensures W K b' m i Q := by
  induction m generalizing i b b' with
  | done value => exact himp _ _ h
  | act action next ih =>
    exact World.Performs.mono h (hfurther.reach i)
      fun v j hnext => ih v hnext (hfurther.reach i) himp
  | call r next ih =>
    obtain ⟨⟨hstart, hentry, hlower⟩, hnext⟩ := h
    refine ⟨⟨hfurther.start ▸ hstart, hentry, ?_⟩, fun node j hyields =>
      ih node (hnext node j hyields) (hfurther.reach i) himp⟩
    rw [hfurther.start, hfurther.ceiling]
    exact hlower
  | deeper inner next ihInner ihNext =>
    exact ⟨h.1, ihInner h.2 hfurther fun v j hnext => ihNext v hnext (hfurther.reach i) himp⟩
  | iterate body state next ihBody ihNext =>
    obtain ⟨holds, hstart, hround⟩ := h
    refine ⟨holds, hstart, fun state j hstate =>
      ihBody state (hround state j hstate) (hfurther.reach i) ?_⟩
    rintro (state | result) k hafter
    · exact hafter
    · exact ihNext result hafter (hfurther.reach i) himp

theorem mono {m : Matcher R α} {P Q : α → Nat → Prop} (h : Ensures W K b m i P)
    (himp : ∀ v j, P v j → Q v j) : Ensures W K b m i Q :=
  h.mono_base (.refl b) himp

theorem reach {m : Matcher R α} {Q : α → Nat → Prop} (h : Ensures W K b m i Q) (j : Nat) :
    Ensures W K (b.reach j) m i Q :=
  h.mono_base (.to_reach b j) fun _ _ => id

theorem of_reach {m : Matcher R α} {Q : α → Nat → Prop} (h : Ensures W K (b.reach i) m i Q) :
    Ensures W K b m i Q := by
  induction m generalizing i b with
  | done value => exact h
  | act action next => simpa only [Ensures, Base.reach_reach] using h
  | call r next => exact ⟨h.1, by simpa only [Base.reach_reach] using h.2⟩
  | deeper inner next ihInner =>
    exact ⟨h.1, ihInner (by simpa only [Base.reach_reach] using h.2)⟩
  | iterate body state next => simpa only [Ensures, Base.reach_reach] using h

theorem later {m : Matcher R α} {Q : α → Nat → Prop} {j k : Nat}
    (h : Ensures W K (b.reach k) m i Q) : Ensures W K ((b.reach j).reach k) m i Q :=
  h.mono_base ((Base.Further.to_reach b j).reach k) fun _ _ => id

theorem bind_reach {m : Matcher R α} {f : α → Matcher R β} {Q : β → Nat → Prop}
    (h : Ensures W K b m i fun v j => Ensures W K (b.reach j) (f v) j Q) :
    Ensures W K b (m.bind f) i Q := by
  induction m generalizing i b with
  | done value => exact h.of_reach
  | act action next ih =>
    exact World.Performs.mono h (.refl _) fun v j hnext => ih v (hnext.mono fun _ _ => later)
  | call r next ih =>
    exact ⟨h.1, fun node j hyields => ih node ((h.2 node j hyields).mono fun _ _ => later)⟩
  | deeper inner next _ ihNext =>
    exact ⟨h.1, h.2.mono fun v j hnext => ihNext v (hnext.mono fun _ _ => later)⟩
  | iterate body state next _ ihNext =>
    obtain ⟨holds, hstart, hround⟩ := h
    refine ⟨holds, hstart, fun state j hstate => (hround state j hstate).mono ?_⟩
    rintro (state | result) k hafter
    · exact hafter
    · exact ihNext result (hafter.mono fun _ _ => later)

theorem bind {m : Matcher R α} {f : α → Matcher R β} {Q : β → Nat → Prop}
    (h : Ensures W K b m i fun v j => Ensures W K b (f v) j Q) :
    Ensures W K b (m.bind f) i Q :=
  bind_reach (h.mono fun _ j hnext => hnext.reach j)

end Ensures

/-! ### Readings that meet what is ensured -/

/-- The reading ends, and not with a message that is the parser's own. -/
def Halt.Proper : Halt → Prop
  | .lexical _ => True
  | .fault f => f.Particular
  | .endless => False

theorem Halt.Proper.ends {h : Halt} (hproper : h.Proper) : h ≠ .endless := by
  rintro rfl
  exact hproper

/-- The reading, which started at `i`, ends, and `Q` holds of what it yields. -/
def Reading.Meets (W : World) (i : Nat) (Q : α → Nat → Prop) (o : Reading α) : Prop :=
  match o.result with
  | .error h => h.Proper
  | .ok (a, j) => Q a j ∧ j ≤ W.limit ∧ j ≤ max i o.reach

namespace Reading.Meets

theorem pure {a : α} {j : Nat} {Q : α → Nat → Prop} (h : Q a j) (hlimit : j ≤ W.limit)
    (hle : j ≤ i) : (Reading.pure a j).Meets W i Q :=
  ⟨h, hlimit, Nat.le_trans hle (Nat.le_max_left _ _)⟩

theorem widen {o : Reading α} {Q : α → Nat → Prop} {i' : Nat} (h : o.Meets W i Q) (hle : i ≤ i') :
    o.Meets W i' Q := by
  unfold Meets at h ⊢
  cases hresult : o.result with
  | error halt => simpa [hresult] using h
  | ok found =>
    simp only [hresult] at h ⊢
    refine ⟨h.1, h.2.1, ?_⟩
    omega

theorem andThen_within {o : Reading α} {f : α → Nat → Reading β} {P : α → Nat → Prop}
    {Q : β → Nat → Prop} (h : o.Meets W i P)
    (hnext : ∀ a j, P a j → j ≤ W.limit → j ≤ max i o.reach →
      (f a j).Meets W (max i o.reach) Q) : (o.andThen f).Meets W i Q := by
  unfold Meets at h
  unfold Reading.andThen
  cases hresult : o.result with
  | error halt => simpa [hresult, Meets] using h
  | ok found =>
    obtain ⟨a, j⟩ := found
    simp only [hresult] at h
    obtain ⟨hfound, hlimit, hreach⟩ := h
    have next := hnext a j hfound hlimit hreach
    unfold Meets at next ⊢
    cases hresult' : (f a j).result with
    | error halt => simpa [hresult'] using next
    | ok found' =>
      simp only [hresult'] at next ⊢
      refine ⟨next.1, next.2.1, ?_⟩
      omega

theorem deepen {o : Reading α} {Q : α → Nat → Prop} (h : o.Meets W i Q) :
    o.deepen.Meets W i Q :=
  h

end Reading.Meets

theorem Feed.lt_limit {f : Feed} {t : Token} (ht : f.token i = .ok t) (hend : ¬t.IsEnd)
    (hlimit : i ≤ f.limit) : i < f.limit := by
  refine Nat.lt_of_le_of_ne hlimit ?_
  rintro rfl
  exact hend (f.ends t ht)

theorem World.look_meets {Q : Token → Nat → Prop} (h : ∀ t, W.token i = .ok t → Q t i)
    (hlimit : i ≤ W.limit) : (W.look i).Meets W i Q := by
  unfold World.look
  cases ht : W.token i with
  | error e => exact True.intro
  | ok t => exact ⟨h t ht, hlimit, Nat.le_max_left _ _⟩

theorem World.Performs.meets {action : Action β} {Q : β → Nat → Prop}
    (h : W.Performs b action i Q) (hlimit : i ≤ W.limit) (hle : i ≤ b.reached)
    (hreached : b.reached ≤ W.limit) : (W.perform action i).Meets W b.reached Q := by
  cases action with
  | mark => exact .pure h hlimit hle
  | reset mark => exact .pure h.2.2 (Nat.le_trans h.2.1 hreached) h.2.1
  | peek => exact (look_meets h hlimit).widen hle
  | next =>
    simp only [perform, look]
    cases ht : W.token i with
    | error e => exact True.intro
    | ok t =>
      have hlt := Feed.lt_limit ht (h t ht).1 hlimit
      refine ⟨(h t ht).2, hlt, ?_⟩
      simp only [Reading.andThen, Reading.pure]
      omega
  | spanSince mark => exact .pure h.2 hlimit hle
  | lastToken? => exact .pure h hlimit hle
  | isDiagnosing => exact .pure h hlimit hle
  | fail fault => exact h

theorem Reading.andThen_congr {o o' : Reading α} {f g : α → Nat → Reading β}
    {P : α → Nat → Prop} (ho : o = o') (h : o.Meets W i P)
    (hnext : ∀ a j, P a j → j ≤ W.limit → f a j = g a j) : o.andThen f = o'.andThen g := by
  subst ho
  unfold Meets at h
  unfold Reading.andThen
  cases hresult : o.result with
  | error halt => rfl
  | ok found =>
    obtain ⟨a, j⟩ := found
    simp only [hresult] at h
    simp only [hnext a j h.1 h.2.1]

theorem Reading.rounds_meets {body body' : σ → Nat → Reading (σ ⊕ β)} {holds : σ → Nat → Prop}
    {Q : β → Nat → Prop} {reached : Nat} (fuel : Nat)
    (hround : ∀ state i, holds state i → i ≤ W.limit → body state i = body' state i ∧
      (body state i).Meets W (max reached i) fun outcome j =>
        match outcome with
        | .inl state => i < j ∧ holds state j
        | .inr result => Q result j)
    {state : σ} (hstate : holds state i) (hlimit : i ≤ W.limit) (hfuel : W.limit - i < fuel) :
    rounds body fuel state i = rounds body' fuel state i ∧
      (rounds body fuel state i).Meets W (max reached i) Q := by
  induction fuel generalizing state i with
  | zero => exact absurd hfuel (Nat.not_lt_zero _)
  | succ fuel ih =>
    obtain ⟨heq, hmeets⟩ := hround state i hstate hlimit
    refine ⟨andThen_congr heq hmeets ?_, hmeets.andThen_within ?_⟩
    · rintro (state | result) j hafter hj
      · exact (ih hafter.2 hj (by omega)).1
      · rfl
    · rintro (state | result) j hafter hj hreach
      · exact (ih hafter.2 hj (by omega)).2.widen (by omega)
      · exact .pure hafter hj hreach

/-- Wherever the body may call them, the rules end as they should and read the same. -/
def CalleesAgree (W : World) (K : Ranking R) (b : Base) (callee callee' : Callee R) : Prop :=
  ∀ r i, K.Allows b r i → i ≤ W.limit →
    callee r i = callee' r i ∧ (callee r i).Meets W i (K.Yields r i)

theorem CalleesAgree.reach {callee callee' : Callee R} (h : CalleesAgree W K b callee callee')
    (i : Nat) : CalleesAgree W K (b.reach i) callee callee' :=
  h

/-- Where the rules that are called end as they should, so does the matcher; and it reads the same
if they are replaced by equal ones. -/
theorem Ensures.meets {callee callee' : Callee R} {m : Matcher R α} {Q : α → Nat → Prop}
    (hcallee : CalleesAgree W K b callee callee') (h : Ensures W K b m i Q)
    (hlimit : i ≤ W.limit) (hreached : b.reached ≤ W.limit) :
    W.read callee m i = W.read callee' m i ∧
      (W.read callee m i).Meets W (b.reach i).reached Q := by
  induction m generalizing i b with
  | done value => exact ⟨rfl, .pure h hlimit (Nat.le_max_right _ _)⟩
  | act action next ih =>
    have hcome : (b.reach i).reached ≤ W.limit := Nat.max_le.mpr ⟨hreached, hlimit⟩
    have hmeets := World.Performs.meets h hlimit (Nat.le_max_right _ _) hcome
    have hnext := fun v j (hv : Ensures W K (b.reach i) (next v) j Q) hj =>
      ih v (hcallee.reach i) hv hj hcome
    exact ⟨Reading.andThen_congr rfl hmeets fun v j hv hj => (hnext v j hv hj).1,
      hmeets.andThen_within fun v j hv hj hreach => (hnext v j hv hj).2.widen
        (Nat.max_le.mpr ⟨Nat.le_max_left _ _, hreach⟩)⟩
  | call r next ih =>
    have hcome : (b.reach i).reached ≤ W.limit := Nat.max_le.mpr ⟨hreached, hlimit⟩
    obtain ⟨heq, hmeets⟩ := hcallee r i h.1 hlimit
    have hnext := fun node j hy hj => ih node (hcallee.reach i) (h.2 node j hy) hj hcome
    exact ⟨Reading.andThen_congr heq hmeets fun node j hy hj => (hnext node j hy hj).1,
      (hmeets.widen (Nat.le_max_right _ _)).andThen_within fun node j hy hj hreach =>
        (hnext node j hy hj).2.widen (Nat.max_le.mpr ⟨Nat.le_max_left _ _, hreach⟩)⟩
  | deeper inner next ihInner ihNext =>
    have hcome : (b.reach i).reached ≤ W.limit := Nat.max_le.mpr ⟨hreached, hlimit⟩
    obtain ⟨heq, hmeets⟩ := ihInner hcallee h.2 hlimit hreached
    have hnext := fun v j (hv : Ensures W K (b.reach i) (next v) j Q) hj =>
      ihNext v (hcallee.reach i) hv hj hcome
    exact ⟨Reading.andThen_congr (congrArg Reading.deepen heq) hmeets.deepen
        fun v j hv hj => (hnext v j hv hj).1,
      hmeets.deepen.andThen_within fun v j hv hj hreach => (hnext v j hv hj).2.widen
        (Nat.max_le.mpr ⟨Nat.le_max_left _ _, hreach⟩)⟩
  | iterate body state next ihBody ihNext =>
    have hcome : (b.reach i).reached ≤ W.limit := Nat.max_le.mpr ⟨hreached, hlimit⟩
    have hbound := W.limit_lt
    obtain ⟨holds, hstart, hround⟩ := h
    obtain ⟨heq, hmeets⟩ := Reading.rounds_meets W.bound
      (fun state j hstate hj => ihBody state (hcallee.reach i) (hround state j hstate) hj hcome)
      hstart hlimit (by omega)
    have hnext := fun v j (hv : Ensures W K (b.reach i) (next v) j Q) hj =>
      ihNext v (hcallee.reach i) hv hj hcome
    refine ⟨Reading.andThen_congr heq hmeets fun v j hv hj => (hnext v j hv hj).1,
      (hmeets.widen ?_).andThen_within fun v j hv hj hreach => (hnext v j hv hj).2.widen
        (Nat.max_le.mpr ⟨Nat.le_max_left _ _, hreach⟩)⟩
    exact Nat.max_le.mpr ⟨Nat.le_refl _, Nat.le_max_right _ _⟩

end ShellSyntax
