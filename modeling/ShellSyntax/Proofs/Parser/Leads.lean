import ShellSyntax.Proofs.Parser.Reading

/-!
What a matcher leads to if it comes to an end. Its steps are followed one by one, and of each rule
that it calls only what all matches of that rule have in common is known.
-/

namespace ShellSyntax

variable {R : RuleSet} {ι α β σ : Type}

/-- The token at `i` is an operator, a name or a word, and is spelled `text`. -/
def Feed.Spells (f : Feed) (i : Nat) (text : String) : Prop :=
  ∃ t, f.token i = .ok t ∧ (t.kind = .op ∨ t.kind = .name ∨ t.kind = .word) ∧ t.text = text

/-- What holds of the matches of each rule, of where they start, and of where they end. -/
abbrev Matches (R : RuleSet) := (r : R.Rule) → Nat → Option (R.Node r) → Nat → Prop

/-- If the step succeeds, `Q` holds of what it yields. -/
def World.Acts (W : World) : {β : Type} → Action β → Nat → (β → Nat → Prop) → Prop
  | _, .mark, i, Q => Q i i
  | _, .reset mark, _, Q => Q () mark
  | _, .peek, i, Q => ∀ t, W.token i = .ok t → Q t i
  | _, .next, i, Q => ∀ t, W.token i = .ok t → Q t (i + 1)
  | _, .spanSince mark, i, Q => Q (W.spanSince mark i) i
  | _, .lastToken?, i, Q => Q (W.lastToken? i) i
  | _, .isDiagnosing, i, Q => Q W.diagnosing i
  | _, .fail _, _, _ => True

/-- If the matcher comes to an end, `Q` holds of what it yields and of where it ends, provided that
rules match only as `post` says; and it calls rules only where `pre` holds. Both may depend on the
level of brackets; `inside` says at which level the next brackets are, unless there may be no
more. -/
def LeadsIn (W : World) (pre : ι → R.Rule → Nat → Prop) (post : ι → Matches R)
    (inside : ι → Option ι) : ι → {α : Type} → Matcher R α → Nat → (α → Nat → Prop) → Prop
  | _, _, .done value, i, Q => Q value i
  | x, _, .act action next, i, Q =>
    W.Acts action i fun v j => LeadsIn W pre post inside x (next v) j Q
  | x, _, .call r next, i, Q =>
    pre x r i ∧ ∀ found j, post x r i found j → LeadsIn W pre post inside x (next found) j Q
  | x, _, .deeper inner next, i, Q =>
    (inside x).elim True fun y =>
      LeadsIn W pre post inside y inner i fun v j => LeadsIn W pre post inside x (next v) j Q
  | x, _, .iterate body state next, i, Q =>
    ∃ holds : _ → Nat → Prop, holds state i ∧ ∀ state j, holds state j →
      LeadsIn W pre post inside x (body state) j fun outcome k =>
        match outcome with
        | .inl state => holds state k
        | .inr result => LeadsIn W pre post inside x (next result) k Q

/-- Rules may be called anywhere. -/
abbrev anywhere : ι → R.Rule → Nat → Prop :=
  fun _ _ _ => True

/-- The same where all levels are alike, and rules may be called anywhere. -/
abbrev Leads (W : World) (post : Matches R) {α : Type} (m : Matcher R α) (i : Nat)
    (Q : α → Nat → Prop) : Prop :=
  LeadsIn W anywhere (fun _ : Unit => post) some () m i Q

variable {W : World} {pre : ι → R.Rule → Nat → Prop} {post : ι → Matches R} {inside : ι → Option ι}
  {x : ι} {i j k : Nat}

theorem World.Acts.mono {action : Action β} {P Q : β → Nat → Prop} (h : W.Acts action i P)
    (himp : ∀ v j, P v j → Q v j) : W.Acts action i Q := by
  cases action with
  | peek => exact fun t ht => himp _ _ (h t ht)
  | next => exact fun t ht => himp _ _ (h t ht)
  | fail fault => trivial
  | _ => exact himp _ _ h

namespace LeadsIn

theorem mono {m : Matcher R α} {P Q : α → Nat → Prop} (h : LeadsIn W pre post inside x m i P)
    (himp : ∀ v j, P v j → Q v j) : LeadsIn W pre post inside x m i Q := by
  induction m generalizing x i with
  | done value => exact himp _ _ h
  | act action next induction => exact World.Acts.mono h fun v j hnext => induction v hnext himp
  | call r next induction =>
    exact ⟨h.1, fun found j hpost => induction found (h.2 found j hpost) himp⟩
  | deeper inner next hinner induction =>
    unfold LeadsIn at h ⊢
    cases hinside : inside x with
    | none => trivial
    | some y =>
      rw [hinside] at h
      exact hinner h fun v j hnext => induction v hnext himp
  | iterate body state next hbody induction =>
    obtain ⟨holds, hstart, hround⟩ := h
    refine ⟨holds, hstart, fun state j hstate => hbody state (hround state j hstate) ?_⟩
    rintro (state | result) k hafter
    · exact hafter
    · exact induction result hafter himp

theorem bind {m : Matcher R α} {f : α → Matcher R β} {Q : β → Nat → Prop}
    (h : LeadsIn W pre post inside x m i fun v j => LeadsIn W pre post inside x (f v) j Q) :
    LeadsIn W pre post inside x (m.bind f) i Q := by
  induction m generalizing i with
  | done value => exact h
  | act action next induction => exact World.Acts.mono h fun v j hnext => induction v hnext
  | call r next induction => exact ⟨h.1, fun found j hpost => induction found (h.2 found j hpost)⟩
  | deeper inner next _ induction =>
    unfold LeadsIn at h
    unfold Matcher.bind LeadsIn
    cases hinside : inside x with
    | none => trivial
    | some y =>
      rw [hinside] at h
      exact mono h fun v j hnext => induction v hnext
  | iterate body state next _ induction =>
    obtain ⟨holds, hstart, hround⟩ := h
    refine ⟨holds, hstart, fun state j hstate => (hround state j hstate).mono ?_⟩
    rintro (state | result) k hafter
    · exact hafter
    · exact induction result hafter

theorem of_bind {m : Matcher R α} {f : α → Matcher R β} {Q : β → Nat → Prop}
    (h : LeadsIn W pre post inside x (m.bind f) i Q) :
    LeadsIn W pre post inside x m i fun v j => LeadsIn W pre post inside x (f v) j Q := by
  induction m generalizing i with
  | done value => exact h
  | act action next induction => exact World.Acts.mono h fun v j hnext => induction v hnext
  | call r next induction => exact ⟨h.1, fun found j hpost => induction found (h.2 found j hpost)⟩
  | deeper inner next _ induction =>
    unfold Matcher.bind LeadsIn at h
    unfold LeadsIn
    cases hinside : inside x with
    | none => trivial
    | some y =>
      rw [hinside] at h
      exact mono h fun v j hnext => induction v hnext
  | iterate body state next _ induction =>
    obtain ⟨holds, hstart, hround⟩ := h
    refine ⟨holds, hstart, fun state j hstate => (hround state j hstate).mono ?_⟩
    rintro (state | result) k hafter
    · exact hafter
    · exact induction result hafter

theorem anyhow (hpre : ∀ x r i, pre x r i) (m : Matcher R α) :
    LeadsIn W pre post inside x m i fun _ _ => True := by
  induction m generalizing x i with
  | done value => trivial
  | act action next induction =>
    cases action with
    | peek | next => exact fun t _ => induction t
    | fail fault => trivial
    | _ => exact induction _
  | call r next induction => exact ⟨hpre x r i, fun found j _ => induction found⟩
  | deeper inner next hinner induction =>
    unfold LeadsIn
    cases inside x with
    | none => trivial
    | some y => exact hinner.mono fun v j _ => induction v
  | iterate body state next hbody induction =>
    refine ⟨fun _ _ => True, trivial, fun state j _ => (hbody state).mono ?_⟩
    rintro (state | result) k _
    · trivial
    · exact induction result

theorem any (m : Matcher R α) : LeadsIn W anywhere post inside x m i fun _ _ => True :=
  anyhow (fun _ _ _ => trivial) m

end LeadsIn

/-! ### Readings -/

/-- If the reading comes to an end, `Q` holds of it. -/
def Reading.Leads (Q : α → Nat → Prop) (o : Reading α) : Prop :=
  ∀ a j, o.result = .ok (a, j) → Q a j

namespace Reading.Leads

variable {P : α → Nat → Prop} {Q : β → Nat → Prop}

theorem pure {a : α} {Q : α → Nat → Prop} (h : Q a i) : (Reading.pure a i).Leads Q := by
  intro a' j hresult
  cases hresult
  exact h

theorem halt {Q : α → Nat → Prop} (h : Halt) : (Reading.halt h).Leads Q := by
  intro a j hresult
  cases hresult

theorem andThen {o : Reading α} {f : α → Nat → Reading β} (h : o.Leads P)
    (hnext : ∀ a j, P a j → (f a j).Leads Q) : (o.andThen f).Leads Q := by
  intro b k hresult
  unfold Reading.andThen at hresult
  cases ho : o.result with
  | error halt => simp [ho] at hresult
  | ok found =>
    obtain ⟨a, j⟩ := found
    simp only [ho] at hresult
    exact hnext a j (h a j ho) b k hresult

end Reading.Leads

/-- Brackets can be entered so many times, each inside the last. -/
def Affords (inside : ι → Option ι) : ι → Nat → Prop
  | _, 0 => True
  | x, depth + 1 => ∃ y, inside x = some y ∧ Affords inside y depth

theorem Affords.of_le {depth depth' : Nat} (h : Affords inside x depth) (hle : depth' ≤ depth) :
    Affords inside x depth' := by
  induction depth' generalizing x depth with
  | zero => trivial
  | succ depth' induction =>
    obtain ⟨less, rfl⟩ : ∃ less, depth = less + 1 := ⟨depth - 1, by omega⟩
    obtain ⟨y, hy, hless⟩ := h
    exact ⟨y, hy, induction hless (Nat.le_of_succ_le_succ hle)⟩

theorem affords_alike (depth : Nat) : Affords (some : Unit → Option Unit) () depth := by
  induction depth with
  | zero => trivial
  | succ depth induction => exact ⟨(), rfl, induction⟩

/-- The same if the reading goes no deeper than it may at this level. -/
def Reading.LeadsAt (inside : ι → Option ι) (x : ι) (Q : α → Nat → Prop) (o : Reading α) : Prop :=
  Affords inside x o.depth → o.Leads Q

namespace Reading.LeadsAt

variable {P : α → Nat → Prop} {Q : β → Nat → Prop}

theorem of_leads {Q : α → Nat → Prop} {o : Reading α} (h : o.Leads Q) : o.LeadsAt inside x Q :=
  fun _ => h

theorem alike {Q : α → Nat → Prop} {o : Reading α} (h : o.LeadsAt some () Q) : o.Leads Q :=
  h (affords_alike _)

theorem andThen {o : Reading α} {f : α → Nat → Reading β} (h : o.LeadsAt inside x P)
    (hnext : ∀ a j, P a j → (f a j).LeadsAt inside x Q) : (o.andThen f).LeadsAt inside x Q := by
  intro affords b k hresult
  unfold Reading.andThen at affords hresult
  cases ho : o.result with
  | error halt => simp [ho] at hresult
  | ok found =>
    obtain ⟨a, j⟩ := found
    simp only [ho] at affords hresult
    have hfirst := h (affords.of_le (Nat.le_max_left _ _)) a j ho
    exact hnext a j hfirst (affords.of_le (Nat.le_max_right _ _)) b k hresult

theorem deepen {o : Reading α} (h : ∀ y, inside x = some y → o.LeadsAt inside y P) :
    o.deepen.LeadsAt inside x P :=
  fun ⟨y, hy, affords⟩ => h y hy affords

theorem rounds {body : σ → Nat → Reading (σ ⊕ β)} {holds : σ → Nat → Prop} (fuel : Nat)
    (hround : ∀ state i, holds state i → (body state i).LeadsAt inside x fun outcome j =>
      match outcome with
      | .inl state => holds state j
      | .inr result => Q result j)
    {state : σ} (hstate : holds state i) :
    (Reading.rounds body fuel state i).LeadsAt inside x Q := by
  induction fuel generalizing state i with
  | zero => exact .of_leads (.halt .endless)
  | succ fuel induction =>
    refine (hround state i hstate).andThen ?_
    rintro (state | result) j hafter
    · exact induction hafter
    · exact .of_leads (.pure hafter)

end Reading.LeadsAt

theorem Reading.Leads.rounds {Q : β → Nat → Prop} {body : σ → Nat → Reading (σ ⊕ β)}
    {holds : σ → Nat → Prop} (fuel : Nat)
    (hround : ∀ state i, holds state i → (body state i).Leads fun outcome j =>
      match outcome with
      | .inl state => holds state j
      | .inr result => Q result j)
    {state : σ} (hstate : holds state i) : (Reading.rounds body fuel state i).Leads Q :=
  (LeadsAt.rounds fuel (fun state i h => .of_leads (hround state i h)) hstate).alike

theorem World.look_leads {Q : Token → Nat → Prop} (h : ∀ t, W.token i = .ok t → Q t i) :
    (W.look i).Leads Q := by
  unfold World.look
  cases ht : W.token i with
  | ok t =>
    intro t' j hresult
    cases hresult
    exact h t ht
  | error e =>
    intro t' j hresult
    cases hresult

theorem World.Acts.perform {action : Action β} {Q : β → Nat → Prop} (h : W.Acts action i Q) :
    (W.perform action i).Leads Q := by
  cases action with
  | peek => exact look_leads h
  | next => exact (look_leads (Q := fun t j => Q t (j + 1)) h).andThen fun t j ht => .pure ht
  | fail fault => exact .halt _
  | _ => exact .pure h

/-- The rules match as `post` says. -/
def Callee.Leads (post : Matches R) (callee : Callee R) : Prop :=
  ∀ r i, (callee r i).Leads (post r i)

/-- At each level the rules match as `post` says, if they are called where `pre` holds and go no
deeper than they may. -/
def Callee.LeadsIn (pre : ι → R.Rule → Nat → Prop) (post : ι → Matches R) (inside : ι → Option ι)
    (callee : Callee R) : Prop :=
  ∀ x r i, pre x r i → (callee r i).LeadsAt inside x (post x r i)

theorem LeadsIn.read {callee : Callee R} (hcallee : callee.LeadsIn pre post inside)
    {m : Matcher R α} {Q : α → Nat → Prop} (h : LeadsIn W pre post inside x m i Q) :
    (W.read callee m i).LeadsAt inside x Q := by
  induction m generalizing x i with
  | done value => exact .of_leads (.pure h)
  | act action next induction =>
    exact .andThen (.of_leads (World.Acts.perform h)) fun v j hnext => induction v hnext
  | call r next induction =>
    exact (hcallee x r i h.1).andThen fun found j hpost => induction found (h.2 found j hpost)
  | deeper inner next hinner induction =>
    unfold LeadsIn at h
    refine .andThen (.deepen fun y hy => ?_) fun v j hnext => induction v hnext
    rw [hy] at h
    exact hinner h
  | iterate body state next hbody induction =>
    obtain ⟨holds, hstart, hround⟩ := h
    refine .andThen (.rounds W.bound (fun state j hstate => ?_) hstart)
      fun result k hafter => induction result hafter
    exact hbody state (hround state j hstate)

theorem Leads.read {post : Matches R} {callee : Callee R} (hcallee : callee.Leads post)
    {m : Matcher R α} {Q : α → Nat → Prop} (h : Leads W post m i Q) : (W.read callee m i).Leads Q :=
  (LeadsIn.read (fun _ r j _ => .of_leads (hcallee r j)) h).alike

/-! ### Rules -/

theorem World.growth_leadsAt {N : Type} {body : Option N × Nat → Reading (Option N)}
    {P : Option N → Nat → Prop}
    (hbody : ∀ best : Option N × Nat, P best.1 best.2 → (body best).LeadsAt inside x P)
    {fuel : Nat} {best : Option N × Nat} (hbest : P best.1 best.2) :
    (growth body fuel best).LeadsAt inside x P := by
  induction fuel generalizing best with
  | zero => exact .of_leads (.halt .endless)
  | succ fuel induction =>
    refine (hbody best hbest).andThen fun node stop hnode => ?_
    split
    · exact .of_leads (.pure hbest)
    · exact induction hnode

theorem World.growth_leads {N : Type} {body : Option N × Nat → Reading (Option N)}
    {P : Option N → Nat → Prop}
    (hbody : ∀ best : Option N × Nat, P best.1 best.2 → (body best).Leads P) {fuel : Nat}
    {best : Option N × Nat} (hbest : P best.1 best.2) : (growth body fuel best).Leads P :=
  (growth_leadsAt (fun best hbest => .of_leads (hbody best hbest)) hbest).alike

theorem Callee.LeadsIn.knowing {callee : Callee R} (hcallee : callee.LeadsIn pre post inside)
    {known : Remembered R} (hknown : ∀ x, post x known.rule i known.node known.stop) :
    (World.knowing callee i known).LeadsIn pre post inside := by
  obtain ⟨r, node, stop⟩ := known
  intro x r' j hpre
  unfold World.knowing
  split
  case isTrue hsame =>
    cases hsame
    split
    case isTrue hplace =>
      subst hplace
      exact .of_leads (.pure (hknown x))
    case isFalse => exact hcallee x r j hpre
  case isFalse => exact hcallee x r' j hpre

theorem Callee.Leads.knowing {post : Matches R} {callee : Callee R} (hcallee : callee.Leads post)
    {known : Remembered R} (hknown : post known.rule i known.node known.stop) :
    (World.knowing callee i known).Leads post := by
  have halike : callee.LeadsIn anywhere (fun _ : Unit => post) some :=
    fun _ r j _ => .of_leads (hcallee r j)
  exact fun r j => (halike.knowing (fun _ => hknown) () r j trivial).alike

/-- At each level a rule that matches nothing matches as it should, and so does what its body makes
of matches that are as they should be. -/
structure Grammar.LeadsIn (G : Grammar R) (W : World) (pre : ι → R.Rule → Nat → Prop)
    (post : ι → Matches R) (inside : ι → Option ι) : Prop where
  none : ∀ x r i, post x r i none i
  body : ∀ x r i, pre x r i →
    ShellSyntax.LeadsIn W pre post inside x (G.body r) i (post x r i)

/-- The same where all levels are alike, and rules may be called anywhere. -/
structure Grammar.Leads (G : Grammar R) (W : World) (post : Matches R) : Prop where
  none : ∀ r i, post r i none i
  body : ∀ r i, ShellSyntax.Leads W post (G.body r) i (post r i)

/-- What a left-recursive rule has matched at one level it may also meet at others. -/
def LevelFree (pre : ι → R.Rule → Nat → Prop) (post : ι → Matches R) : Prop :=
  ∀ x y r i found j, pre x r i → post x r i found j → post y r i found j

variable {G : Grammar R}

theorem Grammar.LeadsIn.step (h : G.LeadsIn W pre post inside) (hfree : LevelFree pre post)
    {callee : Callee R} (hcallee : callee.LeadsIn pre post inside) {r : R.Rule}
    (hpre : pre x r i) : (W.step G callee r i).LeadsAt inside x (post x r i) := by
  unfold World.step
  split
  case h_1 => exact (h.body x r i hpre).read hcallee
  case h_2 =>
    refine ((h.body x r i hpre).read hcallee).andThen fun found stop hpost => .of_leads ?_
    cases found with
    | none => exact .pure (h.none x r i)
    | some node => exact .pure hpost
  case h_3 =>
    refine World.growth_leadsAt (fun best hbest => ?_) (h.none x r i)
    exact (h.body x r i hpre).read (hcallee.knowing fun y => hfree x y r i _ _ hpre hbest)

theorem Grammar.LeadsIn.call (h : G.LeadsIn W pre post inside) (hfree : LevelFree pre post)
    (fuel : Nat) : (W.call G fuel).LeadsIn pre post inside := by
  induction fuel with
  | zero => exact fun _ _ _ _ => .of_leads (.halt .endless)
  | succ fuel induction => exact fun _ _ _ hpre => h.step hfree induction hpre

theorem Grammar.Leads.call {post : Matches R} (h : G.Leads W post) (fuel : Nat) :
    Callee.Leads post (W.call G fuel) := by
  have halike : G.LeadsIn W anywhere (fun _ : Unit => post) some :=
    ⟨fun _ => h.none, fun _ r i _ => h.body r i⟩
  exact fun r i => (halike.call (fun _ _ _ _ _ _ _ hpost => hpost) fuel () r i trivial).alike

/-! ### Steps -/

namespace LeadsIn

variable {Q : β → Nat → Prop}

theorem mark {f : Nat → Matcher R β} (h : LeadsIn W pre post inside x (f i) i Q) :
    LeadsIn W pre post inside x (Matcher.mark >>= f) i Q :=
  h

theorem reset {f : Unit → Matcher R β} (h : LeadsIn W pre post inside x (f ()) j Q) :
    LeadsIn W pre post inside x (Matcher.reset j >>= f) i Q :=
  h

theorem peek {f : Token → Matcher R β}
    (h : ∀ t, W.token i = .ok t → LeadsIn W pre post inside x (f t) i Q) :
    LeadsIn W pre post inside x (Matcher.peek >>= f) i Q :=
  h

theorem next {f : Token → Matcher R β}
    (h : ∀ t, W.token i = .ok t → LeadsIn W pre post inside x (f t) (i + 1) Q) :
    LeadsIn W pre post inside x (Matcher.next >>= f) i Q :=
  h

theorem spanSince {f : Span → Matcher R β}
    (h : LeadsIn W pre post inside x (f (W.spanSince j i)) i Q) :
    LeadsIn W pre post inside x (Matcher.spanSince j >>= f) i Q :=
  h

theorem lastToken? {f : Option Token → Matcher R β}
    (h : ∀ t, LeadsIn W pre post inside x (f t) i Q) :
    LeadsIn W pre post inside x (Matcher.lastToken? >>= f) i Q :=
  h _

theorem inBrackets {m : Matcher R α} {f : α → Matcher R β}
    (h : ∀ y, inside x = some y →
      LeadsIn W pre post inside y m i fun v j => LeadsIn W pre post inside x (f v) j Q) :
    LeadsIn W pre post inside x (Matcher.inBrackets m >>= f) i Q := by
  change (inside x).elim True _
  cases hinside : inside x with
  | none => trivial
  | some y => exact h y hinside

theorem called {r : R.Rule} (hpre : pre x r i) :
    LeadsIn W pre post inside x (Matcher.rule r) i (post x r i) :=
  ⟨hpre, fun _ _ hpost => hpost⟩

theorem rule {r : R.Rule} :
    LeadsIn W anywhere post inside x (Matcher.rule r) i (post x r i) :=
  called trivial

theorem loop {body : σ → Matcher R (σ ⊕ β)} {state : σ} (holds : σ → Nat → Prop)
    (hstart : holds state i)
    (hround : ∀ state i, holds state i → LeadsIn W pre post inside x (body state) i fun outcome j =>
      match outcome with
      | .inl state => holds state j
      | .inr result => Q result j) :
    LeadsIn W pre post inside x (Matcher.loop body state) i Q :=
  ⟨holds, hstart, hround⟩

theorem diagnosis (hquiet : W.diagnosing = false) {reject : Matcher R Unit}
    {rest : Unit → Matcher R β} (h : LeadsIn W pre post inside x (rest ()) i Q) :
    LeadsIn W pre post inside x (Matcher.isDiagnosing >>= fun diagnosing =>
      if diagnosing = true then reject >>= rest else rest ()) i Q := by
  change LeadsIn W pre post inside x (if W.diagnosing = true then reject >>= rest else rest ()) i Q
  rw [hquiet]
  exact h

/-! ### Tokens -/

theorem ofKind {kind : TokenKind} {f : Option Token → Matcher R β}
    (hsome : ∀ t, W.token i = .ok t → t.kind = kind →
      LeadsIn W pre post inside x (f (some t)) (i + 1) Q)
    (hnone : LeadsIn W pre post inside x (f none) i Q) :
    LeadsIn W pre post inside x (Matcher.ofKind kind >>= f) i Q := by
  refine .bind (.peek fun t ht => ?_)
  split
  case isTrue hmatch =>
    refine .next fun t' ht' => ?_
    cases ht.symm.trans ht'
    exact hsome t ht (beq_iff_eq.mp hmatch)
  case isFalse => exact hnone

theorem spelledAs {text : String} {f : Option Token → Matcher R β}
    (hsome : ∀ t, W.token i = .ok t → t.kind = .op ∨ t.kind = .name ∨ t.kind = .word →
      t.text = text → LeadsIn W pre post inside x (f (some t)) (i + 1) Q)
    (hnone : LeadsIn W pre post inside x (f none) i Q) :
    LeadsIn W pre post inside x (Matcher.spelled text >>= f) i Q := by
  refine .bind (.peek fun t ht => ?_)
  split
  case isTrue hmatch =>
    refine .next fun t' ht' => ?_
    cases ht.symm.trans ht'
    rw [Bool.and_eq_true, Bool.or_eq_true, Bool.or_eq_true] at hmatch
    simp only [beq_iff_eq, or_assoc] at hmatch
    exact hsome t ht hmatch.1 hmatch.2
  case isFalse => exact hnone

theorem spelled {text : String} {f : Option Token → Matcher R β}
    (hsome : ∀ t, W.token i = .ok t → t.kind = .op ∨ t.kind = .name ∨ t.kind = .word →
      LeadsIn W pre post inside x (f (some t)) (i + 1) Q)
    (hnone : LeadsIn W pre post inside x (f none) i Q) :
    LeadsIn W pre post inside x (Matcher.spelled text >>= f) i Q :=
  .spelledAs (fun t ht hkind _ => hsome t ht hkind) hnone

theorem lookahead {text : String} {f : Bool → Matcher R β}
    (h : ∀ found, LeadsIn W pre post inside x (f found) i Q) :
    LeadsIn W pre post inside x (Matcher.lookahead (Matcher.spelled text) >>= f) i Q :=
  .bind (.mark (.spelled (fun _ _ _ => .reset (h true)) (.reset (h false))))

theorem name {f : Option Token → Matcher R β}
    (hsome : ∀ t, W.token i = .ok t → t.kind = .name →
      LeadsIn W pre post inside x (f (some t)) (i + 1) Q)
    (hnone : LeadsIn W pre post inside x (f none) i Q) :
    LeadsIn W pre post inside x (Matcher.name >>= f) i Q := by
  refine .bind (.peek fun t ht => ?_)
  split
  case isTrue hmatch =>
    refine .next fun t' ht' => ?_
    cases ht.symm.trans ht'
    exact hsome t ht (beq_iff_eq.mp (Bool.and_eq_true _ _ ▸ hmatch).1)
  case isFalse => exact hnone

theorem acceptsKind {kind : TokenKind} {f : Bool → Matcher R β}
    (hyes : ∀ t, W.token i = .ok t → t.kind = kind → LeadsIn W pre post inside x (f true) (i + 1) Q)
    (hno : LeadsIn W pre post inside x (f false) i Q) :
    LeadsIn W pre post inside x (Matcher.acceptsKind kind >>= f) i Q :=
  .bind (.ofKind hyes hno)

end LeadsIn

end ShellSyntax
