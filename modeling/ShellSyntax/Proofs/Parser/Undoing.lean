import ShellSyntax.Proofs.Parser.Fates

/-!
What is undone of attempts that fail. A choice, a repetition and a look ahead bracket what they try:
the stream goes back whatever is tried and wherever it fails. So do rules that remember or grow. A
list with separators goes back to the end of its last item, but it does not bracket its first item:
where that fails the stream stays where the item has left it.
-/

namespace ShellSyntax

open Outcome

/-! ### Looking at a token -/

namespace TokenStream

variable {s t : TokenStream}

theorem fill_index {fuel : Nat} (h : fill fuel s = .ok () t) : t.index = s.index := by
  have hplaced : fill fuel s = _ := fill_placed s fuel s.index s.reads
  rw [h] at hplaced
  have hsame : t = t.placed s.index s.reads := (EStateM.Result.ok.inj hplaced).2
  rw [hsame]
  rfl

theorem peek_index {token : Token} (h : peek s = .ok token t) : t.index = s.index := by
  unfold peek at h
  by_cases hread : s.index = s.tokens.size
  · simp only [run_bind, run_get, if_pos hread] at h
    cases hfill : fill s.lexer.bound s with
    | error e u =>
      rw [hfill] at h
      cases h
    | ok _ u =>
      rw [hfill] at h
      cases h
      exact fill_index hfill
  · simp only [run_bind, run_get, if_neg hread] at h
    cases h
    rfl

end TokenStream

variable {R : RuleSet} {α β σ : Type} {callee : (r : R.Rule) → Parse R (Option (R.Node r))}
  {s t : Session R}

theorem read_peek_mark {token : Token} (h : Session.read TokenStream.peek s = .ok token t) :
    t.mark = s.mark := by
  unfold Session.read at h
  cases hpeek : s.stream.peek with
  | error e stream =>
    rw [hpeek] at h
    cases h
  | ok token stream =>
    rw [hpeek] at h
    cases h
    exact TokenStream.peek_index hpeek

theorem accepts_mark {text : String}
    (h : Parser.exec callee (Matcher.accepts text) s = .ok false t) : t.mark = s.mark := by
  have hpeeks : Parser.exec callee (Matcher.accepts text) s =
      follow (Session.read TokenStream.peek s) _ := exec_act callee s .peek _
  rw [hpeeks] at h
  obtain ⟨token, u, hpeek, hrest⟩ := follow_ok.mp h
  change Parser.exec callee (Matcher.bind (if _ then _ else _) _) u = _ at hrest
  split at hrest
  case isTrue =>
    obtain ⟨taken, v, _, hend⟩ := follow_ok.mp ((exec_act callee u .next _).symm.trans hrest)
    cases hend
  case isFalse =>
    cases hrest
    exact read_peek_mark hpeek

/-! ### Loops -/

theorem rounds_invariant {body : σ → Parse R (σ ⊕ β)} {I : σ → Session R → Prop}
    {Q : β → Session R → Prop}
    (hround : ∀ state s outcome t, I state s → body state s = .ok outcome t →
      outcome.elim (I · t) (Q · t))
    {fuel : Nat} {state : σ} {result : β} (hstart : I state s)
    (h : Parser.rounds body fuel state s = .ok result t) : Q result t := by
  induction fuel generalizing state s with
  | zero => cases h
  | succ fuel induction =>
    simp only [Parser.rounds, bind_ok] at h
    obtain ⟨outcome, u, hbody, hnext⟩ := h
    have hkept := hround state s outcome u hstart hbody
    cases outcome with
    | inl state => exact induction hkept hnext
    | inr result =>
      cases hnext
      exact hkept

/-- The items that one run after the other has matched, starting from `s`, and where the last of
them ends. -/
inductive Collects (item : Parse R (Option α)) (s : Session R) : List α → Session R → Prop
  | none : Collects item s [] s
  | more {items : List α} {t u : Session R} {a : α} (earlier : Collects item s items t)
      (hitem : item t = .ok (some a) u) : Collects item s (items ++ [a]) u

theorem Collects.eq_of_nil {item : Parse R (Option α)} {items : List α}
    (h : Collects item s items t) (hnil : items = []) : t = s := by
  cases h with
  | none => rfl
  | more earlier hitem => simp at hnil

/-- An item behind a separator. -/
def Matcher.behind (separator : String) (inner : Matcher R (Option α)) : Matcher R (Option α) := do
  if !(← accepts separator) then return none
  inner

def Matcher.manyRound (inner : Matcher R (Option α)) (found : List α) :
    Matcher R (List α ⊕ List α) := do
  let start ← mark
  match ← inner with
  | some item => if start < (← mark) then again (found ++ [item]) else stop (found ++ [item])
  | none =>
    reset start
    stop found

def Matcher.separatedRound (separator : String) (inner : Matcher R (Option α)) (found : List α) :
    Matcher R (List α ⊕ Option (List α)) := do
  let start ← mark
  if !(← accepts separator) then stop (some found)
  else
    match ← inner with
    | some item => again (found ++ [item])
    | none =>
      reset start
      stop (some found)

/-! ### Combinators -/

theorem lookahead_eq (inner : Matcher R (Option α)) (s : Session R) :
    Parser.exec callee (Matcher.lookahead inner) s =
      follow (Parser.exec callee inner s) fun found u => .ok found.isSome (u.reset s.mark) :=
  exec_bind callee inner _ s

theorem firstOf_cons (alternative : Matcher R (Matcher.Attempt α))
    (others : List (Matcher R (Matcher.Attempt α))) (s : Session R) :
    Parser.exec callee (Matcher.firstOf (alternative :: others)) s =
      follow (Parser.exec callee alternative s) fun attempt u =>
        match attempt with
        | .matched value => .ok (some value) u
        | .failed => Parser.exec callee (Matcher.firstOf others) (u.reset s.mark)
        | .refused => .ok none (u.reset s.mark) := by
  refine (exec_bind callee alternative _ s).trans (congrArg (follow _) ?_)
  funext attempt u
  cases attempt <;> rfl

theorem lookahead_mark {inner : Matcher R (Option α)} {found : Bool}
    (h : Parser.exec callee (Matcher.lookahead inner) s = .ok found t) : t.mark = s.mark := by
  rw [lookahead_eq] at h
  cases hrun : Parser.exec callee inner s with
  | error e u =>
    rw [hrun] at h
    cases h
  | ok a u =>
    rw [hrun] at h
    cases h
    rfl

theorem firstOf_mark {alternatives : List (Matcher R (Matcher.Attempt α))}
    (h : Parser.exec callee (Matcher.firstOf alternatives) s = .ok none t) : t.mark = s.mark := by
  induction alternatives generalizing s with
  | nil =>
    cases h
    rfl
  | cons alternative others induction =>
    rw [firstOf_cons] at h
    cases hrun : Parser.exec callee alternative s with
    | error e u =>
      rw [hrun] at h
      cases h
    | ok attempt u =>
      rw [hrun] at h
      cases attempt with
      | matched value => cases h
      | failed =>
        have hothers : t.mark = (u.reset s.mark).mark := induction h
        exact hothers
      | refused =>
        cases h
        rfl

theorem many_eq (inner : Matcher R (Option α)) :
    Matcher.many inner = Matcher.loop (Matcher.manyRound inner) [] :=
  rfl

theorem manyRound_eq (inner : Matcher R (Option α)) (found : List α) (s : Session R) :
    Parser.exec callee (Matcher.manyRound inner found) s =
      follow (Parser.exec callee inner s) fun item u =>
        match item with
        | some a => .ok (if s.mark < u.mark then .inl (found ++ [a]) else .inr (found ++ [a])) u
        | none => .ok (.inr found) (u.reset s.mark) := by
  refine (exec_bind callee inner _ s).trans (congrArg (follow _) ?_)
  funext item u
  cases item with
  | none => rfl
  | some a =>
    change Parser.exec callee (if s.mark < u.mark then Matcher.again _ else Matcher.stop _) u = _
    split <;> rfl

theorem many_collects {inner : Matcher R (Option α)} {items : List α}
    (h : Parser.exec callee (Matcher.many inner) s = .ok items t) :
    ∃ u, Collects (Parser.exec callee inner) s items u ∧ t.mark = u.mark := by
  rw [many_eq, exec_loop] at h
  refine rounds_invariant (I := Collects (Parser.exec callee inner) s)
    (Q := fun items t => ∃ u, Collects (Parser.exec callee inner) s items u ∧
      t.mark = u.mark) ?_ .none h
  intro found u outcome v hfound hrun
  rw [manyRound_eq] at hrun
  obtain ⟨item, w, hitem, hend⟩ := follow_ok.mp hrun
  cases item with
  | none =>
    cases hend
    exact ⟨u, hfound, rfl⟩
  | some a =>
    cases hend
    split
    case isTrue => exact hfound.more hitem
    case isFalse => exact ⟨_, hfound.more hitem, rfl⟩

theorem many1_eq (inner : Matcher R (Option α)) (s : Session R) :
    Parser.exec callee (Matcher.many1 inner) s =
      follow (Parser.exec callee (Matcher.many inner) s) fun items u =>
        .ok (if items.isEmpty then none else some items) u := by
  refine (exec_bind callee (Matcher.many inner) _ s).trans (congrArg (follow _) ?_)
  funext items u
  cases items <;> rfl

theorem many1_collects {inner : Matcher R (Option α)} {items : Option (List α)}
    (h : Parser.exec callee (Matcher.many1 inner) s = .ok items t) :
    ∃ found last, items = (if found.isEmpty then none else some found) ∧
      Collects (Parser.exec callee inner) s found last ∧ t.mark = last.mark := by
  rw [many1_eq] at h
  obtain ⟨found, u, hmany, hend⟩ := follow_ok.mp h
  cases hend
  obtain ⟨last, hcollects, hmark⟩ := many_collects hmany
  exact ⟨found, last, rfl, hcollects, hmark⟩

theorem many1_mark {inner : Matcher R (Option α)}
    (h : Parser.exec callee (Matcher.many1 inner) s = .ok none t) : t.mark = s.mark := by
  obtain ⟨found, last, hnone, hcollects, hmark⟩ := many1_collects h
  cases found with
  | nil => rw [hmark, hcollects.eq_of_nil rfl]
  | cons a found => cases hnone

theorem behind_eq (separator : String) (inner : Matcher R (Option α)) (s : Session R) :
    Parser.exec callee (Matcher.behind separator inner) s =
      follow (Parser.exec callee (Matcher.accepts separator) s) fun accepted u =>
        if accepted then Parser.exec callee inner u else .ok none u := by
  refine (exec_bind callee (Matcher.accepts separator) _ s).trans (congrArg (follow _) ?_)
  funext accepted u
  cases accepted <;> rfl

theorem separated_eq (separator : String) (inner : Matcher R (Option α)) (s : Session R) :
    Parser.exec callee (Matcher.separated separator inner) s =
      follow (Parser.exec callee inner s) fun found u =>
        match found with
        | some first => Parser.exec callee
          (Matcher.loop (Matcher.separatedRound separator inner) [first]) u
        | none => .ok none u := by
  refine (exec_bind callee inner _ s).trans (congrArg (follow _) ?_)
  funext found u
  cases found <;> rfl

theorem separatedRound_eq (separator : String) (inner : Matcher R (Option α)) (found : List α)
    (s : Session R) : Parser.exec callee (Matcher.separatedRound separator inner found) s =
      follow (Parser.exec callee (Matcher.accepts separator) s) fun accepted u =>
        if accepted then
          follow (Parser.exec callee inner u) fun item v =>
            match item with
            | some a => .ok (.inl (found ++ [a])) v
            | none => .ok (.inr (some found)) (v.reset s.mark)
        else .ok (.inr (some found)) u := by
  refine (exec_bind callee (Matcher.accepts separator) _ s).trans (congrArg (follow _) ?_)
  funext accepted u
  cases accepted with
  | false => rfl
  | true =>
    refine (exec_bind callee inner _ u).trans (congrArg (follow _) ?_)
    funext item v
    cases item <;> rfl

/-- From `s` the matcher yields one item after the other, the later ones behind separators. The last
one ends at `last`. -/
def Lists (callee : (r : R.Rule) → Parse R (Option (R.Node r))) (separator : String)
    (inner : Matcher R (Option α)) (s : Session R) (items : List α) (last : Session R) : Prop :=
  ∃ first rest u, items = first :: rest ∧ Parser.exec callee inner s = .ok (some first) u ∧
    Collects (Parser.exec callee (Matcher.behind separator inner)) u rest last

theorem Lists.more {separator : String} {inner : Matcher R (Option α)} {items : List α}
    {u : Session R} {a : α} (h : Lists callee separator inner s items t)
    (hitem : Parser.exec callee (Matcher.behind separator inner) t = .ok (some a) u) :
    Lists callee separator inner s (items ++ [a]) u := by
  obtain ⟨first, rest, v, rfl, hfirst, hrest⟩ := h
  exact ⟨first, rest ++ [a], v, rfl, hfirst, hrest.more hitem⟩

/-- The rounds behind the first item take item by item, and a separator only with its item. -/
theorem loop_lists {separator : String} {inner : Matcher R (Option α)} {found : List α}
    {items : Option (List α)} {u : Session R} (hfound : Lists callee separator inner s found u)
    (h : Parser.exec callee (Matcher.loop (Matcher.separatedRound separator inner) found) u =
      .ok items t) :
    ∃ found last, items = some found ∧ Lists callee separator inner s found last ∧
      t.mark = last.mark := by
  rw [exec_loop] at h
  refine rounds_invariant (I := Lists callee separator inner s)
    (Q := fun items t => ∃ found last, items = some found ∧
      Lists callee separator inner s found last ∧ t.mark = last.mark) ?_ hfound h
  intro found v outcome w hfound hrun
  rw [separatedRound_eq] at hrun
  obtain ⟨accepted, x, haccepts, hnext⟩ := follow_ok.mp hrun
  cases accepted with
  | false =>
    cases hnext
    exact ⟨found, v, rfl, hfound, accepts_mark haccepts⟩
  | true =>
    obtain ⟨item, y, hitem, hend⟩ := follow_ok.mp hnext
    cases item with
    | none =>
      cases hend
      exact ⟨found, v, rfl, hfound, rfl⟩
    | some a =>
      cases hend
      have hbehind : Parser.exec callee (Matcher.behind separator inner) v = _ :=
        behind_eq separator inner v
      rw [haccepts] at hbehind
      exact hfound.more (hbehind.trans hitem)

theorem separated_lists {separator : String} {inner : Matcher R (Option α)} {items : List α}
    (h : Parser.exec callee (Matcher.separated separator inner) s = .ok (some items) t) :
    ∃ last, Lists callee separator inner s items last ∧ t.mark = last.mark := by
  rw [separated_eq] at h
  obtain ⟨found, u, hfirst, hrest⟩ := follow_ok.mp h
  cases found with
  | none => cases hrest
  | some first =>
    obtain ⟨found, last, hsame, hlists⟩ := loop_lists ⟨first, [], u, rfl, hfirst, .none⟩ hrest
    cases hsame
    exact ⟨last, hlists⟩

/-- A list with separators fails if its first item does, and where that has left the stream. -/
theorem separated_none {separator : String} {inner : Matcher R (Option α)} :
    Parser.exec callee (Matcher.separated separator inner) s = .ok none t ↔
      Parser.exec callee inner s = .ok none t := by
  rw [separated_eq]
  refine ⟨fun h => ?_, fun h => by rw [h]; rfl⟩
  obtain ⟨found, u, hfirst, hrest⟩ := follow_ok.mp h
  cases found with
  | none =>
    cases hrest
    exact hfirst
  | some first =>
    obtain ⟨found, last, hsame, -⟩ := loop_lists ⟨first, [], u, rfl, hfirst, .none⟩ hrest
    cases hsame

/-! ### Rules -/

section Rules

variable {r : R.Rule} {body : Parse R (Option (R.Node r))}

theorem lookup_failed (htidy : s.Tidy) {i : Mark}
    (h : Parser.lookup? r i s = .ok (some none) t) : t.mark = i := by
  unfold Parser.lookup? at h
  split at h
  case h_1 => cases h
  case h_2 entry hentry =>
    obtain ⟨rule, node, stop⟩ := entry
    split at h
    case isFalse => cases h
    case isTrue hrule =>
      cases hrule
      simp only [EStateM.Result.ok.injEq, Option.some.injEq] at h
      obtain ⟨rfl, rfl⟩ := h
      exact (htidy _ _ hentry).2.2 rfl

theorem memoized_mark (htidy : s.Tidy) (h : Parser.memoized r body s = .ok none t) :
    t.mark = s.mark := by
  rw [memoized_unfold rfl] at h
  obtain ⟨found, u, hfound, hnext⟩ := follow_ok.mp h
  cases found with
  | some node =>
    cases hnext
    exact lookup_failed htidy hfound
  | none =>
    obtain rfl := lookup_missed_eq hfound
    have hfresh : tryUnlessActive r u.mark body u = .ok none t := hnext
    unfold tryUnlessActive at hfresh
    split at hfresh
    case isTrue =>
      cases hfresh
      rfl
    case isFalse =>
      obtain ⟨node, v, htried, hleft⟩ := follow_ok.mp hfresh
      cases hleft
      obtain ⟨node, w, hbody, hsame, rfl⟩ := of_around htried
      cases hsame
      rfl

theorem grown_mark (htidy : s.Tidy) (h : Parser.grown r body s = .ok none t) :
    t.mark = s.mark := by
  rw [grown_eq rfl] at h
  obtain ⟨found, u, hfound, hnext⟩ := follow_ok.mp h
  cases found with
  | some node =>
    cases hnext
    exact lookup_failed htidy hfound
  | none =>
    obtain rfl := lookup_missed_eq hfound
    obtain ⟨node, v, hgrown, hleft⟩ := follow_ok.mp hnext
    cases hleft
    exact (tryGrowing_settled hgrown).2 rfl

end Rules

/-- Whatever is tried, a look ahead, a choice and a repetition that fail leave the stream where they
started, and so do the rules that remember or grow, if what is remembered is in order, as it is in
every session that is reached. A repetition or a list that succeeds ends where its last item does. A
list that fails leaves the stream where its first item has left it. -/
theorem attempts_undone (callee : (r : R.Rule) → Parse R (Option (R.Node r))) (s : Session R) :
    (∀ {α : Type} (inner : Matcher R (Option α)) found t,
      Parser.exec callee (Matcher.lookahead inner) s = .ok found t → t.mark = s.mark) ∧
    (∀ {α : Type} (alternatives : List (Matcher R (Matcher.Attempt α))) t,
      Parser.exec callee (Matcher.firstOf alternatives) s = .ok none t → t.mark = s.mark) ∧
    (∀ {α : Type} (inner : Matcher R (Option α)),
      (∀ t, Parser.exec callee (Matcher.many1 inner) s = .ok none t → t.mark = s.mark) ∧
      ∀ items t, Parser.exec callee (Matcher.many inner) s = .ok items t ∨
          Parser.exec callee (Matcher.many1 inner) s = .ok (some items) t →
        ∃ last, Collects (Parser.exec callee inner) s items last ∧ t.mark = last.mark) ∧
    (∀ {α : Type} (separator : String) (inner : Matcher R (Option α)),
      (∀ items t, Parser.exec callee (Matcher.separated separator inner) s = .ok (some items) t →
        ∃ last, Lists callee separator inner s items last ∧ t.mark = last.mark) ∧
      ∀ t, Parser.exec callee (Matcher.separated separator inner) s = .ok none t ↔
        Parser.exec callee inner s = .ok none t) ∧
    (s.Tidy → ∀ r (body : Parse R (Option (R.Node r))) t,
      Parser.memoized r body s = .ok none t ∨ Parser.grown r body s = .ok none t →
        t.mark = s.mark) := by
  refine ⟨fun inner found t => lookahead_mark, fun alternatives t => firstOf_mark,
    fun inner => ⟨fun t => many1_mark, fun items t h => ?_⟩,
    fun separator inner => ⟨fun items t => separated_lists, fun t => separated_none⟩,
    fun htidy r body t h => h.elim (memoized_mark htidy) (grown_mark htidy)⟩
  rcases h with hmany | hmany
  · exact many_collects hmany
  · obtain ⟨found, last, hsame, hcollects, hmark⟩ := many1_collects hmany
    split at hsame
    case isTrue => cases hsame
    case isFalse =>
      cases hsame
      exact ⟨last, hcollects, hmark⟩

def Sample.takeAndFail : Sample.Match (Option Unit) := do
  let _ ← Matcher.next
  return none

/-- A list does not go back where its first item has taken a token before it fails. -/
theorem advance_kept_by_list :
    let s := Sample.session "a\n" "" none
    ∃ t, Parser.exec (Parser.call Sample.grammar 0) (Matcher.separated "," Sample.takeAndFail) s =
      .ok none t ∧ s.mark = 0 ∧ t.mark = 1 := by
  intro s
  have htaken : succeeded (Session.read TokenStream.next s) = true ∧
      (final (Session.read TokenStream.next s)).mark = 1 := by
    decide +kernel
  obtain ⟨token, hread⟩ := of_succeeded htaken.1
  refine ⟨final (Session.read TokenStream.next s), separated_none.mpr ?_, rfl, htaken.2⟩
  refine (exec_act (Parser.call Sample.grammar 0) s .next _).trans ?_
  have hnext : Session.perform .next s = .ok token (final (Session.read TokenStream.next s)) :=
    hread
  rw [hnext]
  rfl

end ShellSyntax
