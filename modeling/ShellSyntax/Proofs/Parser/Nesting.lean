import ShellSyntax.Proofs.Parser.Leads
import ShellSyntax.Proofs.Parser.OpenBrackets

/-!
How deep a reading goes. Each level that it counts is one of the brackets that are open around it,
or one that opens next; so a matcher needs to know of its place only how many brackets are open at
least.
-/

namespace ShellSyntax

variable {R : RuleSet} {α β σ : Type}

/-- How many brackets are open in front of a token. -/
def Feed.depthAt (f : Feed) : Nat → Nat
  | 0 => 0
  | i + 1 =>
    match f.token i with
    | .ok t => t.depthBehind (f.depthAt i)
    | .error _ => 0

theorem Feed.depthAt_succ {f : Feed} {i : Nat} {t : Token} (ht : f.token i = .ok t) :
    f.depthAt (i + 1) = t.depthBehind (f.depthAt i) := by
  rw [depthAt, ht]

/-! ### Readings -/

/-- The reading goes no deeper than from `base` to `top`, and if it comes to an end, `Q` holds. -/
structure Reading.Within (top base : Nat) (Q : α → Nat → Prop) (o : Reading α) : Prop where
  depth : o.depth ≤ top - base
  leads : o.Leads Q

namespace Reading.Within

variable {top base i : Nat} {P : α → Nat → Prop} {Q : β → Nat → Prop}

theorem pure {a : α} (h : P a i) : (Reading.pure a i).Within top base P :=
  ⟨Nat.zero_le _, .pure h⟩

theorem look {W : World} {Q : Token → Nat → Prop} (h : ∀ t, W.token i = .ok t → Q t i) :
    (W.look i).Within top base Q where
  depth := by
    unfold World.look
    split
    · exact Nat.zero_le _
    · exact Nat.zero_le _
  leads := World.look_leads h

theorem halt (h : Halt) : (Reading.halt h : Reading α).Within top base P :=
  ⟨Nat.zero_le _, .halt h⟩

theorem mono {P' : α → Nat → Prop} {base' : Nat} {o : Reading α} (h : o.Within top base P)
    (hbase : base' ≤ base) (himp : ∀ a j, P a j → P' a j) : o.Within top base' P' where
  depth := Nat.le_trans h.depth (Nat.sub_le_sub_left hbase top)
  leads a j hresult := himp a j (h.leads a j hresult)

theorem andThen {o : Reading α} {f : α → Nat → Reading β} (h : o.Within top base P)
    (hnext : ∀ a j, P a j → (f a j).Within top base Q) : (o.andThen f).Within top base Q where
  depth := by
    unfold Reading.andThen
    cases hresult : o.result with
    | error halt => exact h.depth
    | ok found =>
      exact Nat.max_le.mpr ⟨h.depth, (hnext found.1 found.2 (h.leads _ _ hresult)).depth⟩
  leads := h.leads.andThen fun a j ha => (hnext a j ha).leads

theorem deepen {o : Reading α} (h : o.Within top (base + 1) P) (hbase : base < top) :
    o.deepen.Within top base P where
  depth := by
    have hdepth := h.depth
    simp only [Reading.deepen]
    omega
  leads := h.leads

theorem rounds {body : σ → Nat → Reading (σ ⊕ β)} {holds : σ → Nat → Prop} (fuel : Nat)
    (hround : ∀ state i, holds state i → (body state i).Within top base fun outcome j =>
      match outcome with
      | .inl state => holds state j
      | .inr result => Q result j)
    {state : σ} (hstate : holds state i) :
    (Reading.rounds body fuel state i).Within top base Q := by
  induction fuel generalizing state i with
  | zero => exact .halt .endless
  | succ fuel induction =>
    refine (hround state i hstate).andThen ?_
    rintro (state | result) j hafter
    · exact induction hafter
    · exact .pure hafter

theorem settle {o : Reading (Option α)} {P : Option α → Nat → Prop} {start : Nat}
    (h : o.Within top base P) (hnone : P none start) : (o.settle start).Within top base P := by
  refine h.andThen fun found j hfound => .pure ?_
  cases found with
  | none => exact hnone
  | some a => exact hfound

theorem growth {N : Type} {body : Option N × Nat → Reading (Option N)} {P : Option N → Nat → Prop}
    (hbody : ∀ best : Option N × Nat, P best.1 best.2 → (body best).Within top base P) {fuel : Nat}
    {best : Option N × Nat} (hbest : P best.1 best.2) :
    (World.growth body fuel best).Within top base P := by
  induction fuel generalizing best with
  | zero => exact .halt .endless
  | succ fuel induction =>
    refine (hbody best hbest).andThen fun node stop hnode => ?_
    split
    · exact .pure hbest
    · exact induction hnode

end Reading.Within

namespace World

variable (W : World) (callee : Callee R)

theorem read_then (m : Matcher R α) (f : α → Matcher R β) (i : Nat) :
    W.read callee (m >>= f) i = (W.read callee m i).andThen fun a j => W.read callee (f a) j :=
  W.read_bind callee m f i

theorem read_mark (f : Nat → Matcher R β) (i : Nat) :
    W.read callee (Matcher.mark >>= f) i = W.read callee (f i) i := by
  rw [read_then]
  exact Reading.pure_andThen i i fun start j => W.read callee (f start) j

theorem read_reset (start : Nat) (f : Unit → Matcher R β) (i : Nat) :
    W.read callee (Matcher.reset start >>= f) i = W.read callee (f ()) start := by
  rw [read_then]
  exact Reading.pure_andThen () start fun a j => W.read callee (f a) j

end World

/-! ### Matchers -/

/-- In a world of fewer than `top` brackets rules go no deeper than the brackets that are open
around them let them, and they never end behind the closer of one of these. Some rules open a
bracket before they do anything else. -/
structure Callee.Shallow (W : World) (top : Nat) (opens : R.Rule → Bool) (callee : Callee R) :
    Prop where
  below : ∀ i, W.depthAt i < top
  lettered : ∀ i t, W.token i = .ok t → t.Lettered
  rules : ∀ r i, (callee r i).Within top (W.depthAt i + (opens r).toNat) fun _ j =>
    W.depthAt i ≤ W.depthAt j

/-- Where at least `depth` brackets are open, the matcher goes no deeper than from `base` on, and
where it ends, at least so many are open as `bound` says. -/
def Nests (W : World) (top : Nat) (opens : R.Rule → Bool) (base depth : Nat) (m : Matcher R α)
    (bound : α → Nat) : Prop :=
  ∀ callee, Callee.Shallow W top opens callee → ∀ i, depth ≤ W.depthAt i →
    (W.read callee m i).Within top base fun a j => bound a ≤ W.depthAt j

/-- The same where the next token is known. -/
def NestsAt (t : Token) (W : World) (top : Nat) (opens : R.Rule → Bool) (base depth : Nat)
    (m : Matcher R α) (bound : α → Nat) : Prop :=
  ∀ callee, Callee.Shallow W top opens callee → ∀ i, depth ≤ W.depthAt i → W.token i = .ok t →
    (W.read callee m i).Within top base fun a j => bound a ≤ W.depthAt j

/-- The matcher does not end behind the closer of a bracket around it. -/
abbrev Stays (W : World) (top : Nat) (opens : R.Rule → Bool) (base depth : Nat)
    (m : Matcher R α) : Prop :=
  Nests W top opens base depth m fun _ => depth

variable {W : World} {top base depth : Nat} {opens : R.Rule → Bool} {t : Token}

namespace Nests

variable {m : Matcher R α} {bound : α → Nat} {bound' : β → Nat}

theorem done {v : α} (h : bound v ≤ depth) : Nests W top opens base depth (.done v) bound :=
  fun _ _ _ hi => .pure (Nat.le_trans h hi)

theorem stay {v : α} : Stays W top opens base depth (.done v) :=
  .done (Nat.le_refl _)

theorem mono {base' depth' : Nat} {bound' : α → Nat} (h : Nests W top opens base depth m bound)
    (hbase : base' ≤ base) (hdepth : depth ≤ depth') (hbound : ∀ a, bound' a ≤ bound a) :
    Nests W top opens base' depth' m bound' :=
  fun callee shallow i hi => (h callee shallow i (Nat.le_trans hdepth hi)).mono hbase
    fun a _ ha => Nat.le_trans (hbound a) ha

theorem bind {f : α → Matcher R β} (hm : Nests W top opens base depth m bound)
    (h : ∀ a, Nests W top opens base (bound a) (f a) bound') :
    Nests W top opens base depth (m >>= f) bound' := by
  intro callee shallow i hi
  rw [W.read_then]
  exact (hm callee shallow i hi).andThen fun a j ha => h a callee shallow j ha

/-! ### Steps -/

theorem mark {f : Nat → Matcher R β}
    (h : ∀ start, depth ≤ W.depthAt start → Nests W top opens base depth (f start) bound') :
    Nests W top opens base depth (Matcher.mark >>= f) bound' := by
  intro callee shallow i hi
  rw [W.read_mark]
  exact h i hi callee shallow i hi

theorem reset {f : Unit → Matcher R β} {start depth' : Nat} (hstart : depth' ≤ W.depthAt start)
    (h : Nests W top opens base depth' (f ()) bound') :
    Nests W top opens base depth (Matcher.reset start >>= f) bound' := by
  intro callee shallow i hi
  rw [W.read_reset]
  exact h callee shallow start hstart

theorem peekLettered {f : Token → Matcher R β}
    (h : ∀ t, t.Lettered → NestsAt t W top opens base depth (f t) bound') :
    Nests W top opens base depth (Matcher.peek >>= f) bound' := by
  intro callee shallow i hi
  have hread : W.read callee (Matcher.peek >>= f) i = (W.look i).andThen fun t j =>
    W.read callee (f t) j := rfl
  rw [hread]
  refine (Reading.Within.look fun t ht => ⟨ht, hi⟩).andThen
    (P := fun t j => W.token j = .ok t ∧ depth ≤ W.depthAt j) ?_
  exact fun t j ⟨ht, hj⟩ => h t (shallow.lettered j t ht) callee shallow j hj ht

theorem peek {f : Token → Matcher R β} (h : ∀ t, NestsAt t W top opens base depth (f t) bound') :
    Nests W top opens base depth (Matcher.peek >>= f) bound' :=
  .peekLettered fun t _ => h t

theorem inBrackets (h : Nests W top opens (depth + 1) depth m bound) (hbase : base ≤ depth) :
    Nests W top opens base depth (Matcher.inBrackets m) bound := by
  intro callee shallow i hi
  have hbelow := shallow.below i
  have hinner := (h callee shallow i hi).mono (Nat.succ_le_succ hbase) fun _ _ ha => ha
  exact (hinner.deepen (by omega)).andThen fun a j ha => .pure ha

theorem rule {r : R.Rule} (hbase : base ≤ depth + (opens r).toNat) :
    Stays W top opens base depth (Matcher.rule r) := by
  intro callee shallow i hi
  have hrule : base ≤ W.depthAt i + (opens r).toNat := by omega
  exact ((shallow.rules r i).mono hrule fun _ _ hj => hj).andThen
    fun found j hj => .pure (Nat.le_trans hi hj)

theorem raise {kind : ErrorKind} {message : String} {place : FaultPlace} :
    Nests W top opens base depth (Matcher.raise kind message place) bound :=
  fun _ _ _ _ => Reading.Within.halt _

theorem loop {body : σ → Matcher R (σ ⊕ β)} {state : σ} (holds : σ → Nat)
    (hstart : holds state ≤ depth)
    (hround : ∀ state, Nests W top opens base (holds state) (body state) (Sum.elim holds bound')) :
    Nests W top opens base depth (Matcher.loop body state) bound' := by
  intro callee shallow i hi
  have hrounds : ∀ state j, holds state ≤ W.depthAt j →
      (W.read callee (body state) j).Within top base fun outcome k =>
        match outcome with
        | .inl state => holds state ≤ W.depthAt k
        | .inr result => bound' result ≤ W.depthAt k := by
    intro state j hj
    refine (hround state callee shallow j hj).mono (Nat.le_refl _) ?_
    rintro (state | result) k hk
    · exact hk
    · exact hk
  exact (Reading.Within.rounds W.bound hrounds (Nat.le_trans hstart hi)).andThen
    fun result j hj => .pure hj

end Nests

namespace NestsAt

variable {bound : β → Nat}

theorem ahead {m : Matcher R β} (h : Nests W top opens base depth m bound) :
    NestsAt t W top opens base depth m bound :=
  fun callee shallow i hi _ => h callee shallow i hi

theorem bind {m : Matcher R α} {f : α → Matcher R β} {bound' : α → Nat}
    (hm : NestsAt t W top opens base depth m bound')
    (h : ∀ a, Nests W top opens base (bound' a) (f a) bound) :
    NestsAt t W top opens base depth (m >>= f) bound := by
  intro callee shallow i hi ht
  rw [W.read_then]
  exact (hm callee shallow i hi ht).andThen fun a j ha => h a callee shallow j ha

theorem mark {f : Nat → Matcher R β}
    (h : ∀ start, depth ≤ W.depthAt start → NestsAt t W top opens base depth (f start) bound) :
    NestsAt t W top opens base depth (Matcher.mark >>= f) bound := by
  intro callee shallow i hi ht
  rw [W.read_mark]
  exact h i hi callee shallow i hi ht

theorem next {f : Token → Matcher R β}
    (h : Nests W top opens base (t.depthBehind depth) (f t) bound) :
    NestsAt t W top opens base depth (Matcher.next >>= f) bound := by
  intro callee shallow i hi ht
  have hread : W.read callee (Matcher.next >>= f) i = ((W.look i).andThen fun t j =>
    .pure t (j + 1)).andThen fun t j => W.read callee (f t) j := rfl
  rw [hread, Reading.andThen_assoc]
  refine (Reading.Within.look (Q := fun t' j => t' = t ∧ j = i) ?_).andThen ?_
  · exact fun t' ht' => ⟨Except.ok.inj (ht'.symm.trans ht), rfl⟩
  · rintro _ _ ⟨rfl, rfl⟩
    rw [Reading.pure_andThen]
    refine h callee shallow _ ?_
    rw [Feed.depthAt_succ ht]
    exact Token.depthBehind_mono hi

theorem nextSign {f : Token → Matcher R β} (hsign : t.kind = .op → isNoBracket t.text = true)
    (h : Nests W top opens base depth (f t) bound) :
    NestsAt t W top opens base depth (Matcher.next >>= f) bound := by
  refine .next ?_
  rwa [Token.depthBehind_noBracket hsign]

end NestsAt

/-! ### Tokens -/

theorem Nests.spelled {text : String} :
    Nests W top opens base depth (Matcher.spelled text) fun found =>
      if found.isSome then depthBehind text depth else depth := by
  refine .peekLettered fun t lettered => ?_
  split
  case isTrue hmatch =>
    have hspelled : (t.kind = .op ∨ t.kind = .name ∨ t.kind = .word) ∧ t.text = text := by
      simpa [or_assoc] using hmatch
    obtain ⟨hkind, rfl⟩ := hspelled
    exact .next (.done (lettered.depthBehind_le hkind))
  case isFalse => exact .ahead (.done (Nat.le_refl _))

theorem Nests.accepts {text : String} :
    Nests W top opens base depth (Matcher.accepts text) fun found =>
      if found then depthBehind text depth else depth :=
  Nests.spelled.bind fun _ => .done (Nat.le_refl _)

namespace Nests

theorem ofKind {kind : TokenKind} (hkind : kind ≠ .op) :
    Stays W top opens base depth (Matcher.ofKind kind) := by
  refine .peek fun t => ?_
  split
  case isTrue hmatch =>
    exact .nextSign (fun hop => absurd hop (beq_iff_eq.mp hmatch ▸ hkind)) .stay
  case isFalse => exact .ahead .stay

theorem acceptsKind {kind : TokenKind} (hkind : kind ≠ .op) :
    Stays W top opens base depth (Matcher.acceptsKind kind) :=
  (ofKind hkind).bind fun _ => .stay

theorem name : Stays W top opens base depth (Matcher.name : Matcher R (Option Token)) := by
  refine .peek fun t => ?_
  split
  case isTrue hmatch =>
    have hkind : t.kind = .name := beq_iff_eq.mp (Bool.and_eq_true _ _ ▸ hmatch).1
    exact .nextSign (hkind ▸ nofun) .stay
  case isFalse => exact .ahead .stay

theorem sign {text : String} (htext : isNoBracket text = true) :
    Stays W top opens base depth (Matcher.spelled text : Matcher R (Option Token)) := by
  refine Nests.spelled.mono (Nat.le_refl _) (Nat.le_refl _) fun found => ?_
  rw [depthBehind_noBracket htext, ite_self]

theorem acceptsSign {text : String} (htext : isNoBracket text = true) :
    Stays W top opens base depth (Matcher.accepts text : Matcher R Bool) :=
  (sign htext).bind fun _ => .stay

/-! ### Sequences -/

variable {bound : β → Nat}

theorem spanSince {start : Nat} {f : Span → Matcher R β}
    (h : ∀ span, Nests W top opens base depth (f span) bound) :
    Nests W top opens base depth (Matcher.spanSince start >>= f) bound := by
  have hspan : Stays W top opens base depth (Matcher.spanSince start : Matcher R Span) :=
    fun _ _ _ hi => .andThen (.pure hi) fun _ _ hj => .pure hj
  exact hspan.bind h

theorem lastToken? {f : Option Token → Matcher R β}
    (h : ∀ t, Nests W top opens base depth (f t) bound) :
    Nests W top opens base depth (Matcher.lastToken? >>= f) bound := by
  have hlast : Stays W top opens base depth (Matcher.lastToken? : Matcher R (Option Token)) :=
    fun _ _ _ hi => .andThen (.pure hi) fun _ _ hj => .pure hj
  exact hlast.bind h

theorem isDiagnosing : Stays W top opens base depth (Matcher.isDiagnosing : Matcher R Bool) :=
  fun _ _ _ hi => .andThen (.pure hi) fun _ _ hj => .pure hj

theorem diagnosis {reject : Matcher R Unit} {rest : Unit → Matcher R β}
    (hreject : Stays W top opens base depth reject)
    (h : Nests W top opens base depth (rest ()) bound) :
    Nests W top opens base depth (Matcher.isDiagnosing >>= fun diagnosing =>
      if diagnosing = true then reject >>= rest else rest ()) bound := by
  refine Nests.isDiagnosing.bind fun diagnosing => ?_
  split
  · exact hreject.bind fun _ => h
  · exact h

theorem ifThen {test : Matcher R Bool} {yes no : Matcher R β}
    (htest : Stays W top opens base depth test) (hyes : Nests W top opens base depth yes bound)
    (hno : Nests W top opens base depth no bound) :
    Nests W top opens base depth (test >>= fun found => if found = true then yes else no)
      bound := by
  refine htest.bind fun found => ?_
  split
  · exact hyes
  · exact hno

theorem expect {test : Matcher R Bool} {rest : Matcher R (Option β)}
    (htest : Stays W top opens base depth test) (h : Stays W top opens base depth rest) :
    Stays W top opens base depth
      (test >>= fun found => if (!found) = true then pure none else rest) := by
  refine htest.bind fun found => ?_
  split
  · exact .stay
  · exact h

theorem option {m : Matcher R (Option α)} {f : Option α → Matcher R β}
    (hm : Stays W top opens base depth m)
    (hsome : ∀ a, Nests W top opens base depth (f (some a)) bound)
    (hnone : Nests W top opens base depth (f none) bound) :
    Nests W top opens base depth (m >>= f) bound := by
  refine hm.bind ?_
  rintro (_ | a)
  · exact hnone
  · exact hsome a

theorem need {m : Matcher R (Option α)} {f : Option α → Matcher R (Option β)}
    (hm : Stays W top opens base depth m) (hfail : f none = .done none)
    (hsome : ∀ a, Stays W top opens base depth (f (some a))) :
    Stays W top opens base depth (m >>= f) :=
  .option hm hsome (hfail ▸ .stay)

/-! ### Brackets -/

theorem ifOpener {text : String} {yes no : Matcher R β}
    (htext : (Opener.ofSpelling? text).isSome = true)
    (hyes : Nests W top opens base (depth + 1) yes bound)
    (hno : Nests W top opens base depth no bound) :
    Nests W top opens base depth
      (Matcher.accepts text >>= fun found => if found = true then yes else no) bound := by
  refine Nests.accepts.bind fun found => ?_
  rw [depthBehind_opener htext]
  cases found with
  | true => exact hyes
  | false => exact hno

theorem unlessOpener {text : String} {no rest : Matcher R β}
    (htext : (Opener.ofSpelling? text).isSome = true)
    (hno : Nests W top opens base depth no bound)
    (h : Nests W top opens base (depth + 1) rest bound) :
    Nests W top opens base depth
      (Matcher.accepts text >>= fun found => if (!found) = true then no else rest) bound := by
  refine Nests.accepts.bind fun found => ?_
  rw [depthBehind_opener htext]
  cases found with
  | true => exact h
  | false => exact hno

theorem expectOpener {text : String} {rest : Matcher R (Option β)}
    (htext : (Opener.ofSpelling? text).isSome = true)
    (h : Nests W top opens base (depth + 1) rest fun _ => depth) :
    Stays W top opens base depth
      (Matcher.accepts text >>= fun found => if (!found) = true then pure none else rest) :=
  .unlessOpener htext .stay h

theorem optionOpener {text : String} {f : Option Token → Matcher R β}
    (htext : (Opener.ofSpelling? text).isSome = true)
    (hsome : ∀ t, Nests W top opens base (depth + 1) (f (some t)) bound)
    (hnone : Nests W top opens base depth (f none) bound) :
    Nests W top opens base depth (Matcher.spelled text >>= f) bound := by
  refine Nests.spelled.bind fun found => ?_
  rw [depthBehind_opener htext]
  cases found with
  | some t => exact hsome t
  | none => exact hnone

theorem ifCloser {text : String} {yes no : Matcher R β}
    (htext : (Lexer.closer? text).isSome = true)
    (hyes : Nests W top opens base depth yes bound)
    (hno : Nests W top opens base (depth + 1) no bound) :
    Nests W top opens base (depth + 1)
      (Matcher.accepts text >>= fun found => if found = true then yes else no) bound := by
  refine Nests.accepts.bind fun found => ?_
  rw [depthBehind_closer htext, Nat.add_sub_cancel]
  cases found with
  | true => exact hyes
  | false => exact hno

theorem unlessCloser {text : String} {no rest : Matcher R β}
    (htext : (Lexer.closer? text).isSome = true)
    (hno : Nests W top opens base (depth + 1) no bound)
    (h : Nests W top opens base depth rest bound) :
    Nests W top opens base (depth + 1)
      (Matcher.accepts text >>= fun found => if (!found) = true then no else rest) bound := by
  refine Nests.accepts.bind fun found => ?_
  rw [depthBehind_closer htext, Nat.add_sub_cancel]
  cases found with
  | true => exact h
  | false => exact hno

theorem expectCloser {text : String} {rest : Matcher R (Option β)}
    (htext : (Lexer.closer? text).isSome = true) (h : Stays W top opens base depth rest) :
    Nests W top opens base (depth + 1)
      (Matcher.accepts text >>= fun found => if (!found) = true then pure none else rest)
      fun _ => depth :=
  .unlessCloser htext (.done (Nat.le_succ _)) h

theorem needInside {m : Matcher R (Option α)} {f : Option α → Matcher R (Option β)}
    (hm : Stays W top opens base (depth + 1) m) (hfail : f none = .done none)
    (hsome : ∀ a, Nests W top opens base (depth + 1) (f (some a)) fun _ => depth) :
    Nests W top opens base (depth + 1) (m >>= f) fun _ => depth :=
  .option hm hsome (hfail ▸ .done (Nat.le_succ _))

end Nests

/-! ### Combinations -/

namespace Nests

variable {m : Matcher R (Option α)}

theorem lookahead {bound : Option α → Nat} (hm : Nests W top opens base depth m bound) :
    Stays W top opens base depth (Matcher.lookahead m) :=
  .mark fun _ hstart => hm.bind fun _ => .reset hstart .stay

theorem iterate {body : σ → Matcher R (σ ⊕ β)}
    (hbody : ∀ state, Stays W top opens base depth (body state)) {state : σ} :
    Stays W top opens base depth (Matcher.loop body state) := by
  refine .loop (fun _ => depth) (Nat.le_refl _) fun state => ?_
  refine (hbody state).mono (Nat.le_refl _) (Nat.le_refl _) ?_
  rintro (state | result)
  · exact Nat.le_refl _
  · exact Nat.le_refl _

theorem many (hm : Stays W top opens base depth m) :
    Stays W top opens base depth (Matcher.many m) := by
  refine iterate fun items => .mark fun start hstart => .option hm (fun item => ?_) ?_
  · refine .mark fun stop _ => ?_
    split
    · exact .stay
    · exact .stay
  · refine .reset hstart ?_
    exact .stay

theorem many1 (hm : Stays W top opens base depth m) :
    Stays W top opens base depth (Matcher.many1 m) := by
  refine (many hm).bind ?_
  rintro (_ | ⟨item, items⟩)
  · exact .stay
  · exact .stay

theorem separated {separator : String} (hseparator : isNoBracket separator = true)
    (hm : Stays W top opens base depth m) :
    Stays W top opens base depth (Matcher.separated separator m) := by
  refine .need hm rfl fun first => iterate fun items => .mark fun start hstart => ?_
  refine (acceptsSign hseparator).bind fun found => ?_
  split
  · exact .stay
  · refine .option hm (fun item => .stay) (.reset hstart ?_)
    exact .stay

theorem firstOf {alternatives : List (Matcher R (Matcher.Attempt α))}
    (h : ∀ m ∈ alternatives, Stays W top opens base depth m) :
    Stays W top opens base depth (Matcher.firstOf alternatives) := by
  induction alternatives with
  | nil => exact .stay
  | cons m others induction =>
    refine .mark fun start hstart => (h m List.mem_cons_self).bind ?_
    rintro (a | _ | _)
    · exact .stay
    · exact .reset hstart (induction fun m hm => h m (List.mem_cons_of_mem _ hm))
    · exact .reset hstart .stay

end Nests

/-! ### Rules -/

theorem Callee.Shallow.knowing {callee : Callee R} {i : Nat}
    (shallow : Callee.Shallow W top opens callee) {known : Remembered R}
    (hknown : W.depthAt i ≤ W.depthAt known.stop) :
    Callee.Shallow W top opens (World.knowing callee i known) := by
  refine ⟨shallow.below, shallow.lettered, fun r j => ?_⟩
  unfold World.knowing
  split
  case isTrue hsame =>
    split
    case isTrue hplace =>
      subst hplace
      refine ⟨Nat.zero_le _, fun found k hresult => ?_⟩
      cases hresult
      exact hknown
    case isFalse => exact shallow.rules r j
  case isFalse => exact shallow.rules r j

/-- The bodies of the rules do what is said of the rules. -/
def Grammar.Nests (G : Grammar R) (opens : R.Rule → Bool) : Prop :=
  ∀ r W top depth, ShellSyntax.Nests W top opens (depth + (opens r).toNat) depth (G.body r)
    fun _ => depth

variable {G : Grammar R}

theorem Grammar.Nests.step (h : G.Nests opens) {callee : Callee R}
    (shallow : Callee.Shallow W top opens callee) :
    Callee.Shallow W top opens (W.step G callee) := by
  refine ⟨shallow.below, shallow.lettered, fun r i => ?_⟩
  have hbody := h r W top (W.depthAt i)
  unfold World.step
  split
  · exact hbody callee shallow i (Nat.le_refl _)
  · exact (hbody callee shallow i (Nat.le_refl _)).settle (Nat.le_refl _)
  · refine Reading.Within.growth (fun best hbest => ?_) (Nat.le_refl _)
    exact hbody _ (shallow.knowing hbest) i (Nat.le_refl _)

theorem Grammar.Nests.call (h : G.Nests opens) (hbelow : ∀ i, W.depthAt i < top)
    (hlettered : ∀ i t, W.token i = .ok t → t.Lettered) (fuel : Nat) :
    Callee.Shallow W top opens (W.call G fuel) := by
  induction fuel with
  | zero => exact ⟨hbelow, hlettered, fun _ _ => .halt .endless⟩
  | succ fuel induction => exact h.step induction

end ShellSyntax
