import ShellSyntax.Proofs.Lexer.TwinRuns
import ShellSyntax.Proofs.Parser.Agreement
import ShellSyntax.Proofs.Parser.Buffer

/-!
Two runs of one grammar, on two sources with the same tokens but for the line ends in them. The
parsers stand at the same place, equally deep in brackets, and remember results that resemble each
other. Where the first run comes to an end, so does the second. What it means for nodes of a rule to
resemble each other is given.
-/

namespace ShellSyntax

open Outcome Text

variable {R : RuleSet} {α β γ δ σ τ : Type}

def Span.moved (lines : List (List Char)) (span : Span) : Span :=
  ⟨span.start.moved lines, span.stop.moved lines⟩

/-- What two runs have in common: the lines that the tokens of the first stand on, what is known of
these tokens, and how the nodes of each rule resemble each other. -/
structure Resemblance (R : RuleSet) where
  lines : List (List Char)
  known : Token → Prop
  like : (r : R.Rule) → R.Node r → R.Node r → Prop

namespace Resemblance

variable (S : Resemblance R)

def Twin (t t' : Token) : Prop :=
  t.Twin S.lines t' ∧ S.known t

/-- Results of one rule that have been remembered. -/
inductive Recalls : Remembered R → Remembered R → Prop
  | intro (rule : R.Rule) {node node' : Option (R.Node rule)}
      (hnode : Option.Rel (S.like rule) node node') (stop : Mark) :
      Recalls ⟨rule, node, stop⟩ ⟨rule, node', stop⟩

/-- A source, and one with returns in front of the line ends. -/
structure Sources where
  source : Source
  source' : Source
  tabSize : Nat
  oneLine : ∀ line ∈ S.lines, OneLine line
  known : ∀ found l, Lexer.Reaches source tabSize found l → ∀ t ∈ found, S.known t
  endMarker : ∀ n, S.known (.endMarker n)

variable {S} (T : S.Sources)

namespace Sources

/-- Streams of the two sources at the same place. -/
structure Streams (s s' : TokenStream) : Prop where
  lexer : s.lexer.Twins S.lines s'.lexer
  reached : ∃ found, Lexer.Reaches T.source T.tabSize found s.lexer
  reached' : ∃ found, Lexer.Reaches T.source' T.tabSize found s'.lexer
  bound : s.lexer.bound ≤ s'.lexer.bound
  tokens : List.Forall₂ S.Twin s.tokens.toList s'.tokens.toList
  noted : s.Noted
  lastReal : s'.lastReal = s.lastReal
  index : s'.index = s.index

/-- Parsers at the same place, in their first pass. -/
structure Beside (s s' : Session R) : Prop where
  stream : T.Streams s.stream s'.stream
  memo : ∀ key : String × Mark, Option.Rel S.Recalls s.memo[key]? s'.memo[key]?
  active : s'.active = s.active
  quiet : s.diagnosing = false
  quiet' : s'.diagnosing = false
  nesting : s'.nesting = s.nesting

/-- The rules match nodes that resemble each other. -/
def Callees (callee callee' : (r : R.Rule) → Parse R (Option (R.Node r))) : Prop :=
  ∀ r s s', T.Beside s s' → Follows T.Beside (Option.Rel (S.like r)) s s' (callee r) (callee' r)

end Sources

end Resemblance

/-! ### Streams -/

namespace TokenStream

theorem isDropped_twin {S : Resemblance R} {last last' : Option Token} {t t' : Token}
    (hlast : Option.Rel S.Twin last last') (h : t.Twin S.lines t') :
    isDropped last' t' = isDropped last t := by
  unfold isDropped
  rw [h.kind]
  cases hkind : t.kind with
  | error => rw [h.text_eq (by rw [hkind]; rfl)]
  | newline =>
    cases hlast with
    | none => rfl
    | some hlast => simp [hlast.1.kind]
  | _ => rfl

theorem weight_of_readRaw {s t : TokenStream} {token : Token} {last : Option Token}
    (room : s.lexer.toCome < s.lexer.bound) (hread : readRaw s = .ok token t)
    (hdropped : isDropped last token = true) : t.lexer.weight < s.lexer.weight := by
  unfold readRaw at hread
  cases hpull : Lexer.pull s.lexer with
  | error e l =>
    rw [hpull] at hread
    cases hread
  | ok token l =>
    rw [hpull] at hread
    cases hread
    refine (Lexer.weight_of_pull room hpull).2.2.2.resolve_right fun hend => ?_
    simp [isDropped, hend.1] at hdropped

/-- A token that was looked at is met again. -/
theorem peek_ok_again {s t : TokenStream} {token : Token} (room : s.lexer.toCome < s.lexer.bound)
    (hweight : s.lexer.weight < s.lexer.bound) (hpeek : peek s = .ok token t) :
    peek t = .ok token t := by
  by_cases hread : s.index = s.tokens.size
  · simp only [peek, run_bind, run_get, if_pos hread] at hpeek
    cases hfill : fill s.lexer.bound s with
    | error e u =>
      rw [hfill] at hpeek
      cases hpeek
    | ok _ u =>
      rw [hfill] at hpeek
      obtain ⟨last, lexer, cache, rfl, _⟩ := fill_ok room hweight hfill
      simp only [run_pure, EStateM.Result.ok.injEq] at hpeek
      obtain ⟨htoken, rfl⟩ := hpeek
      have hbefore : ¬s.index = s.tokens.size + 1 := by
        rw [hread]
        exact Nat.ne_of_lt (Nat.lt_succ_self _)
      simp only [peek, run_bind, run_get, keep, Array.size_push, if_neg hbefore, run_pure] at htoken ⊢
      rw [htoken]
  · have hall := hpeek
    simp only [peek, run_bind, run_get, if_neg hread, run_pure, EStateM.Result.ok.injEq] at hpeek
    rwa [← hpeek.2] at hall ⊢

theorem next_of_peek {s t : TokenStream} {token : Token} (room : s.lexer.toCome < s.lexer.bound)
    (hweight : s.lexer.weight < s.lexer.bound) (hpeek : peek s = .ok token t) :
    next t = .ok token { t with index := t.index + 1, reads := t.reads + 1 } := by
  simp only [next, run_bind, peek_ok_again room hweight hpeek, run_modify, run_pure]

end TokenStream

theorem Session.read_ok {s t : Session R} {step : Stream α} {value : α}
    (hread : read step s = .ok value t) : step s.stream = .ok value t.stream := by
  unfold read at hread
  cases hstep : step s.stream with
  | error e u =>
    rw [hstep] at hread
    cases hread
  | ok found u =>
    rw [hstep] at hread
    cases hread
    rfl

theorem lastVisible_kind {tokens : List Token} {t : Token} (h : lastVisible tokens = some t) :
    t.kind.isLayout = false := by
  simpa using List.find?_some h

theorem forall₂_getElem? {Q : α → β → Prop} {items : List α} {items' : List β}
    (h : List.Forall₂ Q items items') (i : Nat) : Option.Rel Q items[i]? items'[i]? := by
  induction h generalizing i with
  | nil => exact .none
  | cons hitem _ induction =>
    cases i with
    | zero => exact .some hitem
    | succ i => exact induction i

namespace Resemblance.Sources.Streams

variable {S : Resemblance R} {T : S.Sources} {s s' : TokenStream}

theorem readRaw (h : T.Streams s s') :
    Follows T.Streams S.Twin s s' TokenStream.readRaw TokenStream.readRaw := by
  intro token t hread
  unfold TokenStream.readRaw at hread ⊢
  cases hpull : Lexer.pull s.lexer with
  | error e l =>
    rw [hpull] at hread
    cases hread
  | ok found l =>
    rw [hpull] at hread
    cases hread
    obtain ⟨before, reached⟩ := h.reached
    obtain ⟨before', reached'⟩ := h.reached'
    obtain ⟨found', l', hpull', htwin, hl⟩ := Lexer.pull_follows T.oneLine h.lexer
      reached.toCome_lt reached'.toCome_lt _ _ hpull
    obtain ⟨hbound, _⟩ := Lexer.weight_of_pull reached.toCome_lt hpull
    obtain ⟨hbound', _⟩ := Lexer.weight_of_pull reached'.toCome_lt hpull'
    have next := reached.pull hpull
    have hknown : S.known token := T.known _ _ next token (by simp)
    simp only [hpull']
    refine ⟨found', _, rfl, ⟨htwin, hknown⟩, hl, ⟨_, next⟩, ⟨_, reached'.pull hpull'⟩, ?_, h.tokens,
      ⟨h.noted.size, h.noted.note⟩, h.lastReal, h.index⟩
    simp only [hbound, hbound', h.bound]

theorem keep (h : T.Streams s s') {token token' : Token} (htoken : S.Twin token token') :
    T.Streams (s.keep token) (s'.keep token') where
  lexer := h.lexer
  reached := h.reached
  reached' := h.reached'
  bound := h.bound
  tokens := by
    simp only [TokenStream.keep, Array.toList_push]
    exact List.rel_append h.tokens (.cons htoken .nil)
  noted := h.noted.keep token
  lastReal := by
    have hsize : s'.tokens.size = s.tokens.size := h.tokens.length_eq.symm
    simp only [TokenStream.keep, htoken.1.kind, h.lastReal, hsize]
  index := h.index

theorem size (h : T.Streams s s') : s'.tokens.size = s.tokens.size :=
  h.tokens.length_eq.symm

theorem getElem? (h : T.Streams s s') (i : Nat) :
    Option.Rel S.Twin s.tokens[i]? s'.tokens[i]? := by
  rw [← Array.getElem?_toList, ← Array.getElem?_toList]
  exact forall₂_getElem? h.tokens i

theorem back? (h : T.Streams s s') : Option.Rel S.Twin s.tokens.back? s'.tokens.back? := by
  rw [Array.back?, Array.back?, h.size]
  exact h.getElem? _

theorem fill (h : T.Streams s s') {fuel fuel' : Nat} (hfuel : s.lexer.weight < fuel)
    (hfuel' : s'.lexer.weight < fuel') :
    Follows T.Streams Eq s s' (TokenStream.fill fuel) (TokenStream.fill fuel') := by
  induction fuel generalizing fuel' s s' with
  | zero => exact absurd hfuel (Nat.not_lt_zero _)
  | succ fuel induction =>
    obtain ⟨fuel', rfl⟩ : ∃ less, fuel' = less + 1 := ⟨fuel' - 1, by omega⟩
    obtain ⟨before, reached⟩ := h.reached
    obtain ⟨before', reached'⟩ := h.reached'
    refine .bind h.readRaw fun token token' t t' hread hread' htoken ht => .getBind ?_
    have hsame := TokenStream.isDropped_twin ht.back? htoken.1
    refine .ite (by rw [hsame]) (fun hdropped => ?_) fun _ => .set (ht.keep htoken)
    have hless := TokenStream.weight_of_readRaw reached.toCome_lt hread hdropped
    have hless' := TokenStream.weight_of_readRaw reached'.toCome_lt hread' (hsame.trans hdropped)
    exact induction ht (by omega) (by omega)

theorem peek (h : T.Streams s s') :
    Follows T.Streams S.Twin s s' TokenStream.peek TokenStream.peek := by
  let look : Stream Token := do
    let s ← get
    return s.tokens[s.index]?.getD (.endMarker s.lexer.lineNumber)
  have hlook {t t' : TokenStream} (ht : T.Streams t t') :
      Follows T.Streams S.Twin t t' look look := by
    refine .getBind (.pure ?_ ht)
    rw [ht.index, ht.lexer.lineNumber]
    have htoken := ht.getElem? t.index
    generalize t.tokens[t.index]? = token at htoken
    generalize t'.tokens[t.index]? = token' at htoken
    cases htoken with
    | none => exact ⟨Lexer.twin_endMarker _, T.endMarker _⟩
    | some htoken => exact htoken
  refine .getBind (.ite (by rw [h.index, h.size]) (fun _ => ?_) fun _ => hlook h)
  obtain ⟨before, reached⟩ := h.reached
  obtain ⟨before', reached'⟩ := h.reached'
  refine .bind (h.fill (TokenStream.reaches_weight_lt reached)
    (TokenStream.reaches_weight_lt reached')) ?_
  exact fun _ _ _ _ _ _ _ ht => hlook ht

theorem next (h : T.Streams s s') :
    Follows T.Streams S.Twin s s' TokenStream.next TokenStream.next := by
  refine .bind h.peek fun token token' t t' _ _ htoken ht => ?_
  refine .bind (.modify ?_) fun _ _ _ _ _ _ _ ht => .pure htoken ht
  exact ⟨ht.lexer, ht.reached, ht.reached', ht.bound, ht.tokens, ⟨ht.noted.size, ht.noted.note⟩,
    ht.lastReal, congrArg (· + 1) ht.index⟩

theorem lastToken? (h : T.Streams s s') :
    Option.Rel (fun t t' => S.Twin t t' ∧ t.kind.isLayout = false) s.lastToken? s'.lastToken? := by
  unfold TokenStream.lastToken?
  rw [h.index, h.lastReal]
  split
  · exact .none
  cases hreal : s.lastReal[s.index - 1]? with
  | none => exact .none
  | some real =>
    cases real with
    | none => exact .none
    | some k =>
      obtain ⟨real, hnote, _, hlast⟩ := h.noted.note (s.index - 1) (by
        rw [← h.noted.size]
        exact (Array.getElem?_eq_some_iff.mp hreal).1)
      obtain rfl : some k = real := Option.some.inj (hreal.symm.trans hnote)
      have htoken := h.getElem? k
      simp only [Option.join_some, Option.bind_some] at hlast ⊢
      generalize s.tokens[k]? = token at hlast htoken
      generalize s'.tokens[k]? = token' at htoken
      cases htoken with
      | none => exact .none
      | some htoken => exact .some ⟨htoken, lastVisible_kind hlast.symm⟩

end Resemblance.Sources.Streams

/-! ### Remembered results -/

namespace Resemblance.Sources

variable {S : Resemblance R} {T : S.Sources} {s s' : Session R}
  {callee callee' : (r : R.Rule) → Parse R (Option (R.Node r))}

theorem Beside.mark (h : T.Beside s s') : s'.mark = s.mark :=
  h.stream.index

theorem Beside.bound (h : T.Beside s s') : s.bound ≤ s'.bound :=
  h.stream.bound

theorem Beside.reset (h : T.Beside s s') (mark : Mark) : T.Beside (s.reset mark) (s'.reset mark) where
  __ := h
  stream := { h.stream with index := rfl, noted := ⟨h.stream.noted.size, h.stream.noted.note⟩ }

theorem Beside.leave (h : T.Beside s s') (rule : R.Rule) (mark : Mark) (matched : Bool) :
    T.Beside (Parser.leaveRule rule mark matched s) (Parser.leaveRule rule mark matched s') :=
  { h with }

theorem Beside.grows (h : T.Beside s s') (count : Nat → Nat) :
    T.Beside { s with growing := count s.growing } { s' with growing := count s'.growing } :=
  { h with }

theorem Beside.remember (h : T.Beside s s') (rule : R.Rule) (mark : Mark)
    {node node' : Option (R.Node rule)} (hnode : Option.Rel (S.like rule) node node') (stop : Mark) :
    T.Beside (Parser.remember rule mark node stop s) (Parser.remember rule mark node' stop s') where
  __ := h
  memo key := by
    simp only [Parser.remember, Std.HashMap.getElem?_insert]
    split
    · exact .some (.intro rule hnode stop)
    · exact h.memo key

theorem Beside.lookup (h : T.Beside s s') (rule : R.Rule) (mark : Mark) :
    Follows T.Beside (Option.Rel (Option.Rel (S.like rule))) s s' (Parser.lookup? rule mark)
      (Parser.lookup? rule mark) := by
  intro found t hrun
  unfold Parser.lookup? at hrun ⊢
  have hentry := h.memo (R.name rule, mark)
  generalize s.memo[(R.name rule, mark)]? = entry at hrun hentry
  generalize s'.memo[(R.name rule, mark)]? = entry' at hentry
  cases hentry with
  | none =>
    cases hrun
    exact ⟨none, s', rfl, .none, h⟩
  | some hentry =>
    obtain ⟨other, hnode, stop⟩ := hentry
    dsimp only at hrun ⊢
    split at hrun
    case isTrue hsame =>
      subst hsame
      cases hrun
      refine ⟨_, _, by rw [dif_pos rfl], .some hnode, Beside.reset ?_ stop⟩
      exact { h with }
    case isFalse => cases hrun

theorem memoized_follows {rule : R.Rule} {body body' : Parse R (Option (R.Node rule))}
    (hbody : ∀ s s', T.Beside s s' →
      Follows T.Beside (Option.Rel (S.like rule)) s s' body body') (h : T.Beside s s') :
    Follows T.Beside (Option.Rel (S.like rule)) s s' (Parser.memoized rule body)
      (Parser.memoized rule body') := by
  refine .getBind ?_
  rw [h.mark]
  refine .bind (h.lookup rule s.mark) ?_
  rintro _ _ t t' _ _ (⟨hnode⟩ | _) ht
  · exact .pure hnode ht
  intro node u hrun
  have hactive : t'.active = t.active := ht.active
  dsimp only at hrun ⊢
  rw [hactive]
  split at hrun
  case isTrue hbusy =>
    rw [if_pos hbusy]
    cases hrun
    exact ⟨none, t', rfl, .none, ht⟩
  case isFalse hbusy =>
    rw [if_neg hbusy]
    have entered : T.Beside
        (Parser.enterRule rule s.mark { t with active := t.active.insert (R.name rule, s.mark) })
        (Parser.enterRule rule s.mark { t' with active := t.active.insert (R.name rule, s.mark) }) :=
      { ht with active := rfl }
    cases hrun' : body (Parser.enterRule rule s.mark
        { t with active := t.active.insert (R.name rule, s.mark) }) with
    | error e v =>
      rw [hrun'] at hrun
      cases hrun
    | ok found v =>
      rw [hrun'] at hrun
      cases hrun
      obtain ⟨found', v', hmatch, hnode, hv⟩ := hbody _ _ entered _ _ hrun'
      rw [hmatch]
      have hsome : found'.isSome = node.isSome := by cases hnode <;> rfl
      have left : T.Beside { v with active := v.active.erase (R.name rule, s.mark) }
          { v' with active := v'.active.erase (R.name rule, s.mark) } :=
        { hv with active := congrArg (·.erase (R.name rule, s.mark)) hv.active }
      refine ⟨found', _, rfl, hnode, ?_⟩
      rw [hsome]
      have ended : T.Beside
          (if node.isSome then { v with active := v.active.erase (R.name rule, s.mark) }
          else Session.reset { v with active := v.active.erase (R.name rule, s.mark) } s.mark)
          (if node.isSome then { v' with active := v'.active.erase (R.name rule, s.mark) }
          else Session.reset { v' with active := v'.active.erase (R.name rule, s.mark) } s.mark) := by
        split
        · exact left
        · exact left.reset s.mark
      rw [ended.mark]
      exact (ended.remember rule s.mark hnode _).leave rule s.mark _

theorem grow_follows {rule : R.Rule} {body body' : Parse R (Option (R.Node rule))}
    (hbody : ∀ s s', T.Beside s s' →
      Follows T.Beside (Option.Rel (S.like rule)) s s' body body') {fuel fuel' : Nat}
    (hfuel : fuel ≤ fuel') {node node' : Option (R.Node rule)}
    (hnode : Option.Rel (S.like rule) node node') (h : T.Beside s s') (mark stop : Mark) :
    Follows T.Beside (fun best best' => Option.Rel (S.like rule) best.1 best'.1 ∧ best'.2 = best.2)
      s s' (Parser.grow rule mark body fuel (node, stop))
      (Parser.grow rule mark body' fuel' (node', stop)) := by
  induction fuel generalizing fuel' node node' stop s s' with
  | zero => exact .throw _ _
  | succ fuel induction =>
    obtain ⟨fuel', rfl⟩ : ∃ less, fuel' = less + 1 := ⟨fuel' - 1, by omega⟩
    intro best t hrun
    unfold Parser.grow at hrun ⊢
    dsimp only at hrun ⊢
    cases hrun' : body (s.reset mark) with
    | error e v =>
      rw [hrun'] at hrun
      cases hrun
    | ok found v =>
      obtain ⟨found', v', hmatch, hfound, hv⟩ := hbody _ _ (h.reset mark) _ _ hrun'
      have hnone : found'.isNone = found.isNone := by cases hfound <;> rfl
      simp only [hrun'] at hrun
      simp only [hmatch, hnone, hv.mark]
      split at hrun
      case isTrue hends =>
        rw [if_pos hends]
        cases hrun
        exact ⟨_, v', rfl, ⟨hnode, rfl⟩, hv⟩
      case isFalse hgrows =>
        rw [if_neg hgrows]
        refine induction (by omega) hfound ?_ _ best t hrun
        exact Beside.remember (by exact { hv with }) rule mark hfound _

theorem grown_follows {rule : R.Rule} {body body' : Parse R (Option (R.Node rule))}
    (hbody : ∀ s s', T.Beside s s' →
      Follows T.Beside (Option.Rel (S.like rule)) s s' body body') (h : T.Beside s s') :
    Follows T.Beside (Option.Rel (S.like rule)) s s' (Parser.grown rule body)
      (Parser.grown rule body') := by
  refine .getBind ?_
  rw [h.mark]
  refine .bind (h.lookup rule s.mark) ?_
  rintro _ _ t t' _ _ (⟨hnode⟩ | _) ht
  · exact .pure hnode ht
  intro node u hrun
  have entered : T.Beside (Parser.enterRule rule s.mark t) (Parser.enterRule rule s.mark t') :=
    { ht with }
  have hnone : Option.Rel (S.like rule) none none := .none
  have seeded := entered.remember rule s.mark hnone s.mark
  have hgrow := grow_follows hbody (Nat.add_le_add_right seeded.bound 1) hnone
    (seeded.grows (· + 1)) s.mark s.mark
  dsimp only at hrun ⊢
  split at hrun
  case h_1 => cases hrun
  case h_2 found stop v hrun' =>
    cases hrun
    obtain ⟨⟨found', stop'⟩, v', hmatch, ⟨hnode, rfl⟩, hv⟩ := hgrow _ _ hrun'
    have hsome : found'.isSome = node.isSome := by cases hnode <;> rfl
    refine ⟨found', _, by rw [hmatch], hnode, ?_⟩
    rw [hsome]
    exact ((hv.grows (· - 1)).reset _).leave rule s.mark _

/-! ### Matchers -/

theorem Callees.step {G : Grammar R}
    (hbody : ∀ r s s' callee callee', T.Callees callee callee' → T.Beside s s' →
      Follows T.Beside (Option.Rel (S.like r)) s s' (Parser.exec callee (G.body r))
        (Parser.exec callee' (G.body r))) {fuel fuel' : Nat} (hfuel : fuel ≤ fuel') :
    T.Callees (Parser.call G fuel) (Parser.call G fuel') := by
  induction fuel generalizing fuel' with
  | zero => exact fun _ _ _ _ => .throw _ _
  | succ fuel induction =>
    obtain ⟨fuel', rfl⟩ : ∃ less, fuel' = less + 1 := ⟨fuel' - 1, by omega⟩
    intro r s s' h
    have callees := induction (Nat.le_of_succ_le_succ hfuel)
    unfold Parser.call
    dsimp only
    cases R.policy r with
    | direct => exact hbody r s s' _ _ callees h
    | packrat => exact memoized_follows (fun s s' h => hbody r s s' _ _ callees h) h
    | leftRecursive => exact grown_follows (fun s s' h => hbody r s s' _ _ callees h) h

theorem rounds_follows {P : σ → τ → Prop} {Q : α → β → Prop} {body : σ → Parse R (σ ⊕ α)}
    {body' : τ → Parse R (τ ⊕ β)}
    (hbody : ∀ x y s s', P x y → T.Beside s s' →
      Follows T.Beside (Sum.LiftRel P Q) s s' (body x) (body' y)) {fuel fuel' : Nat}
    (hfuel : fuel ≤ fuel') {x : σ} {y : τ} (hstate : P x y) (h : T.Beside s s') :
    Follows T.Beside Q s s' (Parser.rounds body fuel x) (Parser.rounds body' fuel' y) := by
  induction fuel generalizing fuel' x y s s' with
  | zero => exact .throw _ _
  | succ fuel induction =>
    obtain ⟨fuel', rfl⟩ : ∃ less, fuel' = less + 1 := ⟨fuel' - 1, by omega⟩
    refine .bind (hbody x y s s' hstate h) ?_
    rintro _ _ t t' _ _ (⟨hnext⟩ | ⟨hresult⟩) ht
    · exact induction (by omega) hnext ht
    · exact .pure hresult ht

theorem nest_follows {Q : α → β → Prop} {inner : Parse R α} {inner' : Parse R β}
    (hinner : ∀ s s', T.Beside s s' → Follows T.Beside Q s s' inner inner') (h : T.Beside s s') :
    Follows T.Beside Q s s' (Parser.nest inner) (Parser.nest inner') := by
  intro a t hrun
  by_cases hdeep : Session.nestingLimit ≤ s.nesting
  · rw [nest_deep hdeep, Parser.tooDeep, bind_ok] at hrun
    obtain ⟨_, _, _, hfail⟩ := hrun
    cases hfail
  · rw [nest_within hdeep] at hrun
    rw [nest_within (h.nesting ▸ hdeep)]
    cases hrun' : inner { s with nesting := s.nesting + 1 } with
    | error e v =>
      rw [hrun'] at hrun
      cases hrun
    | ok found v =>
      rw [hrun'] at hrun
      cases hrun
      have deeper :
        T.Beside { s with nesting := s.nesting + 1 } { s' with nesting := s'.nesting + 1 } :=
        { h with nesting := congrArg (· + 1) h.nesting }
      obtain ⟨b, v', hmatch, hab, hv⟩ := hinner _ _ deeper _ _ hrun'
      rw [hmatch]
      exact ⟨b, _, rfl, hab, { hv with nesting := congrArg (· - 1) hv.nesting }⟩

end Resemblance.Sources

/-- Run by two such parsers, the second matcher comes to an end where the first does, with a related
result. -/
def Mirrors (S : Resemblance R) (Q : α → β → Prop) (m : Matcher R α) (m' : Matcher R β) : Prop :=
  ∀ (T : S.Sources) callee callee', T.Callees callee callee' → ∀ s s', T.Beside s s' →
    Follows T.Beside Q s s' (Parser.exec callee m) (Parser.exec callee' m')

theorem exec_bind_eq (callee : (r : R.Rule) → Parse R (Option (R.Node r))) (m : Matcher R α)
    (f : α → Matcher R β) :
    Parser.exec callee (m.bind f) = Parser.exec callee m >>= fun a => Parser.exec callee (f a) := by
  funext s
  rw [exec_bind, run_bind]
  cases Parser.exec callee m s <;> rfl

theorem exec_action (callee : (r : R.Rule) → Parse R (Option (R.Node r))) (action : Action α) :
    Parser.exec callee (.act action .done) = Session.perform action := by
  funext s
  rw [exec_act]
  cases Session.perform action s <;> rfl

theorem exec_rule (callee : (r : R.Rule) → Parse R (Option (R.Node r))) (r : R.Rule) :
    Parser.exec callee (Matcher.rule r) = callee r := by
  funext s
  rw [Matcher.rule, exec_call]
  cases callee r s <;> rfl

theorem exec_inBrackets (callee : (r : R.Rule) → Parse R (Option (R.Node r))) (inner : Matcher R α) :
    Parser.exec callee (Matcher.inBrackets inner) = Parser.nest (Parser.exec callee inner) := by
  funext s
  rw [Matcher.inBrackets, exec_deeper]
  cases Parser.nest (Parser.exec callee inner) s <;> rfl

variable {S : Resemblance R} {P : γ → δ → Prop} {Q : α → β → Prop}

namespace Mirrors

theorem done {a : α} {b : β} (h : Q a b) : Mirrors S Q (.done a) (.done b) :=
  fun _ _ _ _ _ _ hs => .pure h hs

theorem mono {Q' : α → β → Prop} {m : Matcher R α} {m' : Matcher R β} (h : Mirrors S Q m m')
    (himp : ∀ a b, Q a b → Q' a b) : Mirrors S Q' m m' := by
  intro T callee callee' callees s s' hs a t hrun
  obtain ⟨b, t', hrun', hab, ht⟩ := h T callee callee' callees s s' hs a t hrun
  exact ⟨b, t', hrun', himp a b hab, ht⟩

theorem bind {m : Matcher R γ} {m' : Matcher R δ} {f : γ → Matcher R α} {f' : δ → Matcher R β}
    (hm : Mirrors S P m m') (hnext : ∀ c d, P c d → Mirrors S Q (f c) (f' d)) :
    Mirrors S Q (m >>= f) (m' >>= f') := by
  intro T callee callee' callees s s' hs
  change Follows T.Beside Q s s' (Parser.exec callee (m.bind f)) (Parser.exec callee' (m'.bind f'))
  rw [exec_bind_eq, exec_bind_eq]
  refine .bind (hm T callee callee' callees s s' hs) fun c d t t' _ _ hcd ht => ?_
  exact hnext c d hcd T callee callee' callees t t' ht

/-- What yields the same in both runs. -/
theorem same {m : Matcher R γ} {f : γ → Matcher R α} {f' : γ → Matcher R β}
    (hm : Mirrors S Eq m m) (hnext : ∀ c, Mirrors S Q (f c) (f' c)) :
    Mirrors S Q (m >>= f) (m >>= f') := by
  refine hm.bind ?_
  rintro c _ rfl
  exact hnext c

/-! ### Steps -/

theorem action {action : Action γ} {Q : γ → γ → Prop}
    (h : ∀ (T : S.Sources) (s s' : Session R), T.Beside s s' →
      Follows T.Beside Q s s' (Session.perform action) (Session.perform action)) :
    Mirrors S Q (.act action .done) (.act action .done) := by
  intro T callee callee' _ s s' hs
  rw [exec_action, exec_action]
  exact h T s s' hs

theorem mark : Mirrors S Eq Matcher.mark Matcher.mark :=
  .action fun _ _ _ hs => .getBind (.pure hs.mark.symm hs)

theorem reset (i : Mark) : Mirrors S Eq (Matcher.reset i) (Matcher.reset i) :=
  .action fun _ _ _ hs => .modify (hs.reset i)

theorem read {T : S.Sources} {s s' : Session R} (hs : T.Beside s s') {step : Stream Token}
    (hstep : Follows T.Streams S.Twin s.stream s'.stream step step) :
    Follows T.Beside S.Twin s s' (Session.read step) (Session.read step) := by
  intro token t hrun
  unfold Session.read at hrun ⊢
  cases hrun' : step s.stream with
  | error e u =>
    rw [hrun'] at hrun
    cases hrun
  | ok found u =>
    rw [hrun'] at hrun
    cases hrun
    obtain ⟨token', u', hmatch, htoken, hu⟩ := hstep _ _ hrun'
    rw [hmatch]
    exact ⟨token', _, rfl, htoken, { hs with stream := hu }⟩

theorem peek : Mirrors S S.Twin Matcher.peek Matcher.peek :=
  .action fun _ _ _ hs => read hs hs.stream.peek

theorem next : Mirrors S S.Twin Matcher.next Matcher.next :=
  .action fun _ _ _ hs => read hs hs.stream.next

theorem lastToken? :
    Mirrors S (Option.Rel fun t t' => S.Twin t t' ∧ t.kind.isLayout = false) Matcher.lastToken?
      Matcher.lastToken? :=
  .action fun _ _ _ hs => .getBind (.pure hs.stream.lastToken? hs)

theorem spanSince (start : Mark) :
    Mirrors S (fun span span' => span' = span.moved S.lines) (Matcher.spanSince start)
      (Matcher.spanSince start) := by
  refine .action fun T s s' hs => .getBind (.pure ?_ hs)
  have hspan (first : Position) :
      (⟨first.moved S.lines, ((s'.stream.lastToken?.map Token.stop).getD (first.moved S.lines)).later
        (first.moved S.lines)⟩ : Span) =
      Span.moved S.lines ⟨first, ((s.stream.lastToken?.map Token.stop).getD first).later first⟩ := by
    have hlast := hs.stream.lastToken?
    generalize s.stream.lastToken? = last at hlast
    generalize s'.stream.lastToken? = last' at hlast
    cases hlast with
    | none => simp [Span.moved, Position.moved_later]
    | some hlast => simp [Span.moved, Position.moved_later, hlast.1.1.stop hlast.2]
  have htoken := hs.stream.getElem? start
  have hback := hs.stream.back?
  unfold Session.spanSince
  generalize s.stream.tokens[start]? = token at htoken
  generalize s'.stream.tokens[start]? = token' at htoken
  generalize s.stream.tokens.back? = back at hback
  generalize s'.stream.tokens.back? = back' at hback
  rcases htoken with ⟨htwin, _⟩ | _
  · dsimp only
    rw [htwin.start]
    exact hspan _
  · rcases hback with ⟨htwin, _⟩ | _
    · dsimp only [Option.map_some, Option.getD_some]
      rw [htwin.start]
      exact hspan _
    · exact hspan .origin

theorem rule (r : R.Rule) :
    Mirrors S (Option.Rel (S.like r)) (Matcher.rule r) (Matcher.rule r) := by
  intro T callee callee' callees s s' hs
  rw [exec_rule, exec_rule]
  exact callees r s s' hs

theorem inBrackets {m : Matcher R α} {m' : Matcher R β} (h : Mirrors S Q m m') :
    Mirrors S Q (Matcher.inBrackets m) (Matcher.inBrackets m') := by
  intro T callee callee' callees s s' hs
  rw [exec_inBrackets, exec_inBrackets]
  exact T.nest_follows (h T callee callee' callees) hs

theorem loop {body : σ → Matcher R (σ ⊕ α)} {body' : τ → Matcher R (τ ⊕ β)} {state : σ} {state' : τ}
    (holds : σ → τ → Prop) (hstart : holds state state')
    (hround : ∀ s t, holds s t → Mirrors S (Sum.LiftRel holds Q) (body s) (body' t)) :
    Mirrors S Q (Matcher.loop body state) (Matcher.loop body' state') := by
  intro T callee callee' callees s s' hs
  unfold Follows
  rw [exec_loop, exec_loop]
  exact T.rounds_follows (fun x y t t' hxy => hround x y hxy T callee callee' callees t t')
    hs.bound hstart hs

theorem again {S' : σ → τ → Prop} {state : σ} {state' : τ} (h : S' state state') :
    Mirrors S (Sum.LiftRel S' Q) (Matcher.again state) (Matcher.again state') :=
  .done (.inl h)

theorem stop {S' : σ → τ → Prop} {result : α} {result' : β} (h : Q result result') :
    Mirrors S (Sum.LiftRel S' Q) (Matcher.stop result) (Matcher.stop result') :=
  .done (.inr h)

/-- No mistakes are looked for. -/
theorem quiet {reject reject' : Matcher R Unit} {rest : Unit → Matcher R α}
    {rest' : Unit → Matcher R β}
    (h : Mirrors S Q (rest ()) (rest' ())) :
    Mirrors S Q
      (Matcher.isDiagnosing >>= fun found => if found = true then reject >>= rest else rest ())
      (Matcher.isDiagnosing >>= fun found =>
        if found = true then reject' >>= rest' else rest' ()) := by
  have hquiet : Mirrors S (fun found found' => found = false ∧ found' = false)
      (Matcher.isDiagnosing (R := R)) Matcher.isDiagnosing :=
    .action fun _ _ _ hs => .getBind (.pure ⟨hs.quiet, hs.quiet'⟩ hs)
  refine hquiet.bind ?_
  rintro _ _ ⟨rfl, rfl⟩
  exact h

/-! ### Choices -/

theorem none : Mirrors S (Option.Rel Q) (.done none) (.done none) :=
  .done .none

theorem some {a : α} {b : β} (h : Q a b) :
    Mirrors S (Option.Rel Q) (.done (some a)) (.done (some b)) :=
  .done (.some h)

theorem option {m : Matcher R (Option γ)} {m' : Matcher R (Option δ)}
    {f : Option γ → Matcher R α} {f' : Option δ → Matcher R β}
    (hm : Mirrors S (Option.Rel P) m m') (hnone : Mirrors S Q (f .none) (f' .none))
    (hsome : ∀ c d, P c d → Mirrors S Q (f (.some c)) (f' (.some d))) :
    Mirrors S Q (m >>= f) (m' >>= f') := by
  refine hm.bind ?_
  rintro _ _ (⟨hcd⟩ | _)
  · exact hsome _ _ hcd
  · exact hnone

theorem ite {p : Prop} [Decidable p] {yes no : Matcher R α} {yes' no' : Matcher R β}
    (hyes : Mirrors S Q yes yes') (hno : Mirrors S Q no no') :
    Mirrors S Q (if p then yes else no) (if p then yes' else no') := by
  split
  · exact hyes
  · exact hno

theorem ifThen {test : Matcher R Bool} {yes no : Matcher R α} {yes' no' : Matcher R β}
    (htest : Mirrors S Eq test test) (hyes : Mirrors S Q yes yes') (hno : Mirrors S Q no no') :
    Mirrors S Q (test >>= fun found => if found = true then yes else no)
      (test >>= fun found => if found = true then yes' else no') :=
  htest.same fun _ => .ite hyes hno

theorem ifNot {test : Matcher R Bool} {no yes : Matcher R α} {no' yes' : Matcher R β}
    (htest : Mirrors S Eq test test) (hno : Mirrors S Q no no') (hyes : Mirrors S Q yes yes') :
    Mirrors S Q (test >>= fun found => if (!found) = true then no else yes)
      (test >>= fun found => if (!found) = true then no' else yes') :=
  htest.same fun _ => .ite hno hyes

theorem expect {test : Matcher R Bool} {rest : Matcher R (Option α)} {rest' : Matcher R (Option β)}
    (htest : Mirrors S Eq test test) (h : Mirrors S (Option.Rel Q) rest rest') :
    Mirrors S (Option.Rel Q) (test >>= fun found => if (!found) = true then pure .none else rest)
      (test >>= fun found => if (!found) = true then pure .none else rest') :=
  .ifNot htest .none h

theorem map {m : Matcher R γ} {m' : Matcher R δ} {f : γ → α} {f' : δ → β} (hm : Mirrors S P m m')
    (hnext : ∀ c d, P c d → Q (f c) (f' d)) :
    Mirrors S Q (m >>= fun c => pure (f c)) (m' >>= fun d => pure (f' d)) :=
  hm.bind fun c d hcd => .done (hnext c d hcd)

/-! ### Tokens -/

/-- The next token if it is one of these, which line ends in its text do not decide. -/
theorem taken {p : Token → Bool} (hsame : ∀ t t', S.Twin t t' → p t' = p t) :
    Mirrors S (Option.Rel fun t t' => S.Twin t t' ∧ p t = true)
      (do if p (← Matcher.peek) then return Option.some (← Matcher.next) else return Option.none)
      (do
        if p (← Matcher.peek) then return Option.some (← Matcher.next) else return Option.none) := by
  intro T callee callee' _ s s' hs
  have hread (callee : (r : R.Rule) → Parse R (Option (R.Node r))) : Parser.exec callee
      (do if p (← Matcher.peek) then return Option.some (← Matcher.next) else return Option.none) =
      Session.read TokenStream.peek >>= fun token =>
        if p token then Session.perform .next >>= fun token => pure (Option.some token)
        else pure Option.none := by
    change Parser.exec callee (Matcher.peek.bind _) = _
    rw [exec_bind_eq, Matcher.peek, exec_action]
    congr 1
    funext token
    split
    · change Parser.exec callee (Matcher.next.bind _) = _
      rw [exec_bind_eq, Matcher.next, exec_action]
      rfl
    · rfl
  rw [hread, hread]
  refine .bind (read hs hs.stream.peek) fun t t' u u' hpeek _ ht hu => ?_
  refine .ite (by rw [hsame t t' ht]) (fun hp => ?_) fun _ => .pure .none hu
  refine .bind (read hu hu.stream.next) fun d d' v v' hnext _ hd hv => .pure (.some ⟨hd, ?_⟩) hv
  obtain ⟨found, reached⟩ := hs.stream.reached
  obtain rfl : d = t := by
    have hagain := TokenStream.next_of_peek reached.toCome_lt (TokenStream.reaches_weight_lt reached)
      (Session.read_ok hpeek)
    exact (EStateM.Result.ok.inj ((Session.read_ok hnext).symm.trans hagain)).1
  exact hp

theorem ofKind (kind : TokenKind) :
    Mirrors S (Option.Rel fun t t' => S.Twin t t' ∧ t.kind = kind) (Matcher.ofKind kind)
      (Matcher.ofKind kind) := by
  refine (taken (p := fun t => t.kind == kind) fun t t' htwin => by rw [htwin.1.kind]).mono ?_
  rintro _ _ (⟨htwin, hkind⟩ | _)
  · exact .some ⟨htwin, beq_iff_eq.mp hkind⟩
  · exact .none

theorem acceptsKind (kind : TokenKind) :
    Mirrors S Eq (Matcher.acceptsKind kind) (Matcher.acceptsKind kind) := by
  refine (ofKind kind).map ?_
  rintro _ _ (_ | _) <;> rfl

/-- What is spelled like this is so in both worlds. -/
theorem spelled (text : String) :
    Mirrors S (Option.Rel fun t t' => S.Twin t t' ∧ t'.text = t.text ∧
      (t.kind = .op ∨ t.kind = .name ∨ t.kind = .word)) (Matcher.spelled text)
      (Matcher.spelled text) := by
  let sign (t : Token) : Bool := t.kind == .op || t.kind == .name || t.kind == .word
  have hkinds {t : Token} (hsign : sign t = true) :
      t.kind = .op ∨ t.kind = .name ∨ t.kind = .word := by
    simpa only [sign, Bool.or_eq_true, beq_iff_eq, or_assoc] using hsign
  have hkept {t t' : Token} (htwin : S.Twin t t') (hsign : sign t = true) : t'.text = t.text := by
    refine htwin.1.text_eq ?_
    rcases hkinds hsign with hkind | hkind | hkind <;> rw [hkind] <;> rfl
  refine (taken (p := fun t => sign t && t.text == text) fun t t' htwin => ?_).mono ?_
  · have hsame : sign t' = sign t := by simp only [sign, htwin.1.kind]
    rw [hsame]
    cases hsign : sign t with
    | true => rw [hkept htwin hsign]
    | false => rfl
  · rintro _ _ (⟨htwin, hp⟩ | _)
    · have hsign := (Bool.and_eq_true _ _ ▸ hp).1
      exact .some ⟨htwin, hkept htwin hsign, hkinds hsign⟩
    · exact .none

theorem accepts (text : String) :
    Mirrors S Eq (Matcher.accepts text) (Matcher.accepts text) := by
  refine (spelled text).map ?_
  rintro _ _ (_ | _) <;> rfl

theorem name :
    Mirrors S (Option.Rel fun t t' => S.Twin t t' ∧ t.kind = .name ∧ t'.text = t.text) Matcher.name
      Matcher.name := by
  let p (t : Token) : Bool := t.kind == .name && !Spelling.isKeyword t.text
  have hkept {t t' : Token} (htwin : S.Twin t t') (hkind : t.kind = .name) : t'.text = t.text :=
    htwin.1.text_eq (by rw [hkind]; rfl)
  refine (taken (p := p) fun t t' htwin => ?_).mono ?_
  · simp only [p, htwin.1.kind]
    cases hkind : t.kind == .name with
    | true => rw [hkept htwin (beq_iff_eq.mp hkind)]
    | false => rfl
  · rintro _ _ (⟨htwin, hp⟩ | _)
    · have hkind := beq_iff_eq.mp (Bool.and_eq_true _ _ ▸ hp).1
      exact .some ⟨htwin, hkind, hkept htwin hkind⟩
    · exact .none

/-! ### Combinations -/

theorem lookahead {m : Matcher R (Option γ)} {m' : Matcher R (Option δ)}
    (hm : Mirrors S (Option.Rel P) m m') :
    Mirrors S Eq (Matcher.lookahead m) (Matcher.lookahead m') := by
  refine mark.same fun start => hm.bind fun found found' hfound => (reset start).same fun _ => ?_
  cases hfound <;> exact .done rfl

theorem many {m : Matcher R (Option α)} {m' : Matcher R (Option β)}
    (hm : Mirrors S (Option.Rel Q) m m') :
    Mirrors S (List.Forall₂ Q) (Matcher.many m) (Matcher.many m') := by
  refine .loop (List.Forall₂ Q) .nil fun found found' hfound => mark.same fun start => ?_
  refine .option hm ((reset start).same fun _ => .stop hfound) fun item item' hitem => ?_
  have hall : List.Forall₂ Q (found ++ [item]) (found' ++ [item']) :=
    List.rel_append hfound (.cons hitem .nil)
  refine mark.same fun here => ?_
  split
  · exact .again hall
  · exact .stop hall

theorem many1 {m : Matcher R (Option α)} {m' : Matcher R (Option β)}
    (hm : Mirrors S (Option.Rel Q) m m') :
    Mirrors S (Option.Rel (List.Forall₂ Q)) (Matcher.many1 m) (Matcher.many1 m') := by
  refine (many hm).bind ?_
  rintro _ _ (_ | ⟨hitem, hitems⟩)
  · exact .none
  · exact .some (.cons hitem hitems)

theorem separated {separator : String} {m : Matcher R (Option α)} {m' : Matcher R (Option β)}
    (hm : Mirrors S (Option.Rel Q) m m') :
    Mirrors S (Option.Rel (List.Forall₂ Q)) (Matcher.separated separator m)
      (Matcher.separated separator m') := by
  refine .option hm .none fun first first' hfirst => ?_
  refine .loop (List.Forall₂ Q) (.cons hfirst .nil) fun found found' hfound =>
    mark.same fun start => ?_
  refine .ifNot (accepts separator) (.stop (.some hfound)) (.option hm ?_ fun item item' hitem => ?_)
  · exact (reset start).same fun _ => .stop (.some hfound)
  · exact .again (List.rel_append hfound (.cons hitem .nil))

end Mirrors

/-- How two alternatives end alike. -/
inductive Matcher.Attempt.Rel (Q : α → β → Prop) : Attempt α → Attempt β → Prop
  | matched {a : α} {b : β} (h : Q a b) : Rel Q (.matched a) (.matched b)
  | failed : Rel Q .failed .failed
  | refused : Rel Q .refused .refused

theorem Mirrors.firstOf {alternatives : List (Matcher R (Matcher.Attempt α))}
    {alternatives' : List (Matcher R (Matcher.Attempt β))}
    (h : List.Forall₂ (Mirrors S (Matcher.Attempt.Rel Q)) alternatives alternatives') :
    Mirrors S (Option.Rel Q) (Matcher.firstOf alternatives) (Matcher.firstOf alternatives') := by
  induction h with
  | nil => exact .none
  | cons hm _ induction =>
    refine mark.same fun start => hm.bind ?_
    rintro _ _ (hab | _ | _)
    · exact .some hab
    · exact (reset start).same fun _ => induction
    · exact (reset start).same fun _ => .none

/-! ### Parsing -/

section Parsing

variable {T : S.Sources} {G : Grammar R} {entry : R.Rule} {s s' : Session R}

theorem runRule_follows
    (hbody : ∀ r, Mirrors S (Option.Rel (S.like r)) (G.body r) (G.body r)) (h : T.Beside s s') :
    Follows T.Beside (Option.Rel (S.like entry)) s s' (Parser.runRule G entry)
      (Parser.runRule G entry) := by
  have hdepth : Parser.callDepth s ≤ Parser.callDepth s' :=
    Nat.mul_le_mul_right _ (Nat.add_le_add_right h.bound 1)
  have callees := Resemblance.Sources.Callees.step (T := T)
    (fun r s s' callee callee' callees hs => hbody r T callee callee' callees s s' hs) hdepth
  exact .getBind (callees entry s s' h)

/-- What is accepted on the one side is accepted on the other. -/
theorem parse_follows (hbody : ∀ r, Mirrors S (Option.Rel (S.like r)) (G.body r) (G.body r))
    (h : T.Beside s s') {tree : R.Node entry} {t : Session R}
    (hparse : Parser.parse G entry s = (.ok tree, t)) :
    ∃ tree' t', Parser.parse G entry s' = (.ok tree', t') ∧ S.like entry tree tree' := by
  unfold Parser.parse at hparse ⊢
  cases hrun : Parser.runRule G entry s with
  | error abort u =>
    rw [hrun] at hparse
    cases (Prod.mk.inj hparse).1
  | ok found u =>
    cases found with
    | none =>
      rw [hrun] at hparse
      dsimp only at hparse
      split at hparse <;> cases (Prod.mk.inj hparse).1
    | some node =>
      rw [hrun] at hparse
      cases hparse
      obtain ⟨_, u', hrun', ⟨hlike⟩, _⟩ := runRule_follows hbody h _ _ hrun
      rw [hrun']
      exact ⟨_, u', rfl, hlike⟩

end Parsing

end ShellSyntax
