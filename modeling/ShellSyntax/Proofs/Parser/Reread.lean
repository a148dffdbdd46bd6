import ShellSyntax.Proofs.Parser.Agreement

/-!
A parser whose source can be read again differs from one whose source cannot in nothing but the
line that an error shows: where no token of that line had been read, the line is known to the first
and not to the second.
-/

namespace ShellSyntax

open Outcome

def Outcome.mapState {ε σ α : Type} (f : σ → σ) :
    EStateM.Result ε σ α → EStateM.Result ε σ α
  | .ok a s => .ok a (f s)
  | .error e s => .error e (f s)

/-- The line with this number, counted from one; empty if there is none. -/
def Text.lineAt (lines : List (List Char)) (number : Nat) : String :=
  match number with
  | 0 => ""
  | number + 1 => (lines[number]?.map String.ofList).getD ""

namespace TokenStream

/-- The same stream, of a source from elsewhere. -/
def withOrigin (s : TokenStream) (origin : Option Origin) : TokenStream :=
  { s with origin }

/-! ### Lines -/

theorem getElem?_foldLines (lines : List (List Char)) (cache : Std.HashMap Nat String)
    (first number : Nat) :
    (lines.foldl (fun (cache, n) line => (cache.insertIfNew n (String.ofList line), n + 1))
      (cache, first)).1[number]? =
      cache[number]?.or
        (if first ≤ number then lines[number - first]?.map String.ofList else none) := by
  induction lines generalizing cache first with
  | nil => simp
  | cons line lines induction =>
    rw [List.foldl_cons, induction, Std.HashMap.getElem?_insertIfNew]
    cases hcached : cache[number]? with
    | some text =>
      have hmem : number ∈ cache := Std.HashMap.mem_iff_isSome_getElem?.mpr (by simp [hcached])
      rw [if_neg]
      · rfl
      · rintro ⟨hsame, hnew⟩
        rw [beq_iff_eq] at hsame
        exact hnew (hsame ▸ hmem)
    | none =>
      have hnew : number ∉ cache := by
        simp [Std.HashMap.mem_iff_isSome_getElem?, hcached]
      rcases Nat.lt_trichotomy first number with hlt | rfl | hgt
      · have hindex : number - first = number - (first + 1) + 1 := by omega
        rw [if_neg (by simp; omega), if_pos (by omega), if_pos (by omega), hindex,
          List.getElem?_cons_succ]
      · simp [hnew]
      · rw [if_neg (by simp; omega), if_neg (by omega), if_neg (by omega)]

theorem getElem?_cacheLines (cache : Std.HashMap Nat String) (lines : List (List Char))
    {number : Nat} (hunknown : cache[number]? = none) :
    ((cacheLines cache lines)[number]?).getD "" = Text.lineAt lines number := by
  rw [cacheLines, getElem?_foldLines, hunknown, Option.none_or]
  cases number with
  | zero => rfl
  | succ number => rw [if_pos (by omega), Nat.add_sub_cancel, Text.lineAt]

theorem line_eq (s : TokenStream) (number : Nat) :
    ((s.withOrigin none).line number).1 = (s.lineCache[number]?).getD "" ∧
      ((s.withOrigin none).line number).2 = s.withOrigin none := by
  refine ⟨?_, rfl⟩
  simp only [line, lines, withOrigin, List.filterMap_cons, List.filterMap_nil]
  cases s.lineCache[number]? <;> rfl

/-- A line of which no token has been read is only known to the one that can read it again. -/
theorem line_unread {s : TokenStream} {number : Nat} (hunread : s.lineCache[number]? = none)
    (path : String) (lines : List (List Char)) :
    ((s.withOrigin none).line number).1 = "" ∧
      ((s.withOrigin (some ⟨path, some lines⟩)).line number).1 = Text.lineAt lines number := by
  have hunknown : s.lineCache.contains number = false := by
    rw [Std.HashMap.contains_eq_isSome_getElem?, hunread]
    rfl
  refine ⟨by rw [(line_eq s number).1, hunread]; rfl, ?_⟩
  rw [← getElem?_cacheLines s.lineCache lines hunread]
  simp only [line, TokenStream.lines, withOrigin, List.all_cons, hunknown, Bool.false_and,
    Bool.false_eq_true, if_false, List.filterMap_cons, List.filterMap_nil]
  cases (cacheLines s.lineCache lines)[number]? <;> rfl

theorem line_retold (s : TokenStream) (path : String) (lines : List (List Char)) (number : Nat) :
    ((s.withOrigin (some ⟨path, some lines⟩)).line number =
        (((s.withOrigin none).line number).1, s.withOrigin (some ⟨path, some lines⟩))) ∨
      ((s.withOrigin none).line number).1 = "" ∧
        ((s.withOrigin (some ⟨path, some lines⟩)).line number).1 = Text.lineAt lines number := by
  cases hcached : s.lineCache[number]? with
  | none => exact .inr (line_unread hcached path lines)
  | some text =>
    have hknown : s.lineCache.contains number = true := by
      rw [Std.HashMap.contains_eq_isSome_getElem?, hcached]
      rfl
    refine .inl ?_
    rw [(line_eq s number).1, hcached]
    simp [line, TokenStream.lines, withOrigin, hknown, hcached]

/-! ### Tokens -/

theorem fill_withOrigin (s : TokenStream) (fuel : Nat) (origin : Option Origin) :
    fill fuel (s.withOrigin origin) = mapState (·.withOrigin origin) (fill fuel s) := by
  induction fuel generalizing s with
  | zero => rfl
  | succ fuel induction =>
    simp only [fill, run_bind, readRaw, withOrigin]
    cases Lexer.pull s.lexer with
    | error e l => rfl
    | ok token l =>
      simp only [run_get]
      split
      · exact induction
          { s with lexer := l, lineCache := s.lineCache.insertIfNew token.start.line token.line }
      · rfl

theorem peek_withOrigin (s : TokenStream) (origin : Option Origin) :
    peek (s.withOrigin origin) = mapState (·.withOrigin origin) (peek s) := by
  have hfill := fill_withOrigin s s.lexer.bound origin
  by_cases hread : s.index = s.tokens.size
  · simp only [withOrigin] at hfill
    simp only [peek, run_bind, run_get, withOrigin, if_pos hread, hfill]
    cases fill s.lexer.bound s <;> rfl
  · simp only [peek, run_bind, run_get, run_pure, withOrigin, if_neg hread, mapState]

theorem next_withOrigin (s : TokenStream) (origin : Option Origin) :
    next (s.withOrigin origin) = mapState (·.withOrigin origin) (next s) := by
  simp only [next, run_bind, peek_withOrigin]
  cases peek s <;> rfl

end TokenStream

/-! ### Runs -/

variable {R : RuleSet}

/-- The same parser, on a source from elsewhere. -/
def Session.withOrigin (s : Session R) (origin : Option Origin) : Session R :=
  { s with stream := s.stream.withOrigin origin }

/-- A run that cannot read its source again, and one that can. -/
inductive Retold (path : String) (lines : List (List Char)) {α : Type} :
    EStateM.Result Abort (Session R) α → EStateM.Result Abort (Session R) α → Prop
  | ok (a : α) (s : Session R) :
      Retold path lines (.ok a (s.withOrigin none))
        (.ok a (s.withOrigin (some ⟨path, some lines⟩)))
  | error (abort : Abort) (s : Session R) :
      Retold path lines (.error abort (s.withOrigin none))
        (.error abort (s.withOrigin (some ⟨path, some lines⟩)))
  /-- The line of the error was not known. -/
  | reread (e : SyntaxError) (s s' : Session R) (hunknown : e.lineText = "") :
      Retold path lines (.error (.syntactic e) s)
        (.error (.syntactic { e with lineText := Text.lineAt lines e.start.line }) s')

/-- A step that does not depend on where the source comes from, errors apart. -/
def Retells (path : String) (lines : List (List Char)) {α : Type} (step : Parse R α) : Prop :=
  ∀ s : Session R, Retold path lines (step (s.withOrigin none))
    (step (s.withOrigin (some ⟨path, some lines⟩)))

variable {path : String} {lines : List (List Char)} {α β σ : Type}

section Combinators

variable {run run' : EStateM.Result Abort (Session R) α}

theorem Retold.follow (h : Retold path lines run run') {next : α → Parse R β}
    (hnext : ∀ a, Retells path lines (next a)) :
    Retold path lines (follow run next) (follow run' next) := by
  cases h with
  | ok a s => exact hnext a s
  | error abort s => exact .error abort s
  | reread e s s' hunknown => exact .reread e s s' hunknown

theorem Retold.onError (h : Retold path lines run run') {cleanup : Session R → Session R}
    (hcleanup : ∀ (s : Session R) origin,
      cleanup (s.withOrigin origin) = (cleanup s).withOrigin origin) :
    Retold path lines (onError cleanup run) (onError cleanup run') := by
  cases h with
  | ok a s => exact .ok a s
  | error abort s =>
    simp only [ShellSyntax.onError, hcleanup]
    exact .error abort (cleanup s)
  | reread e s s' hunknown => exact .reread e _ _ hunknown

theorem Retells.bind {step : Parse R α} {next : α → Parse R β} (h : Retells path lines step)
    (hnext : ∀ a, Retells path lines (next a)) : Retells path lines (step >>= next) := by
  have hrun (s : Session R) : (step >>= next) s = ShellSyntax.follow (step s) next := by
    rw [run_bind]
    cases step s <;> rfl
  intro s
  rw [hrun, hrun]
  exact (h s).follow hnext

theorem Retells.read {step : Stream α}
    (hstep : ∀ (s : TokenStream) origin,
      step (s.withOrigin origin) = mapState (·.withOrigin origin) (step s)) :
    Retells path lines (Session.read step : Parse R α) := by
  intro s
  simp only [Session.read, Session.withOrigin, hstep]
  cases step s.stream with
  | ok a t => exact .ok a { s with stream := t }
  | error e t => exact .error (.lexical e) { s with stream := t }

end Combinators

theorem fail_retells (fault : Fault) : Retells path lines (Session.fail fault : Parse R α) := by
  intro s
  have hrange (origin : Option Origin) :
      (s.withOrigin origin).faultRange fault.place = s.faultRange fault.place := by
    cases fault.place <;> rfl
  have hline := s.stream.line_retold path lines (s.faultRange fault.place).1.line
  have hunread := (s.stream.line_eq (s.faultRange fault.place).1.line).2
  simp only [Session.fail, Session.syntaxError, Session.line, hrange]
  rcases hline with hknown | ⟨hunknown, hread⟩
  · simp only [Session.withOrigin, hknown, hunread]
    exact .error _ s
  · simp only [Session.withOrigin, hread]
    exact .reread _ _ _ hunknown

theorem perform_retells (action : Action β) :
    Retells path lines (Session.perform action : Parse R β) := by
  intro s
  cases action with
  | mark => exact .ok _ s
  | reset mark => exact .ok _ (s.reset mark)
  | peek => exact Retells.read TokenStream.peek_withOrigin s
  | next => exact Retells.read TokenStream.next_withOrigin s
  | spanSince mark => exact .ok _ s
  | lastToken? => exact .ok _ s
  | isDiagnosing => exact .ok _ s
  | fail fault => exact fail_retells fault s

/-! ### Matchers -/

theorem rounds_retells {body : σ → Parse R (σ ⊕ β)} (hbody : ∀ state, Retells path lines (body state))
    (fuel : Nat) (state : σ) : Retells path lines (Parser.rounds body fuel state) := by
  induction fuel generalizing state with
  | zero => exact fun s => .error .endless s
  | succ fuel induction =>
    refine (hbody state).bind fun result => ?_
    cases result with
    | inl state => exact induction state
    | inr result => exact fun s => .ok result s

theorem tooDeep_retells : Retells path lines (Parser.tooDeep : Parse R α) := by
  apply Retells.bind (.read TokenStream.peek_withOrigin)
  intro token
  exact fail_retells _

theorem nest_retells {inner : Parse R β} (hinner : Retells path lines inner) :
    Retells path lines (Parser.nest inner) := by
  intro s
  by_cases hdeep : Session.nestingLimit ≤ s.nesting
  · rw [nest_deep (s := s.withOrigin none) hdeep,
      nest_deep (s := s.withOrigin (some ⟨path, some lines⟩)) hdeep]
    exact tooDeep_retells s
  · let left (s : Session R) : Session R := { s with nesting := s.nesting - 1 }
    have hrun (origin : Option Origin) : Parser.nest inner (s.withOrigin origin) =
        onError left (follow (inner ({ s with nesting := s.nesting + 1 }.withOrigin origin))
          fun value s => .ok value (left s)) := by
      rw [nest_within (s := s.withOrigin origin) hdeep]
      change _ = onError left (follow (inner { s.withOrigin origin with
        nesting := (s.withOrigin origin).nesting + 1 }) fun value s => .ok value (left s))
      cases inner { s.withOrigin origin with nesting := (s.withOrigin origin).nesting + 1 } with
      | ok value t => rfl
      | error e t => rfl
    rw [hrun, hrun]
    refine Retold.onError ?_ fun _ _ => rfl
    exact (hinner { s with nesting := s.nesting + 1 }).follow fun value s => .ok value (left s)

theorem exec_retells {callee : (r : R.Rule) → Parse R (Option (R.Node r))}
    (hcallee : ∀ r, Retells path lines (callee r)) (m : Matcher R α) :
    Retells path lines (Parser.exec callee m) := by
  induction m with
  | done value => exact fun s => .ok value s
  | act action next induction =>
    intro s
    rw [exec_act, exec_act]
    exact (perform_retells action s).follow induction
  | call r next induction =>
    intro s
    rw [exec_call, exec_call]
    exact (hcallee r s).follow induction
  | deeper inner next hinner induction =>
    intro s
    rw [exec_deeper, exec_deeper]
    exact (nest_retells hinner s).follow induction
  | iterate body state next hbody induction =>
    intro s
    rw [exec_iterate, exec_iterate]
    exact (rounds_retells hbody _ state s).follow induction

/-! ### Rules -/

theorem lookup_retells (r : R.Rule) (mark : Mark) :
    Retells path lines (Parser.lookup? r mark : Parse R (Option (Option (R.Node r)))) := by
  intro s
  have hmemo (origin : Option Origin) : (s.withOrigin origin).memo = s.memo := rfl
  simp only [Parser.lookup?, hmemo]
  cases s.memo[(R.name r, mark)]? with
  | none => exact .ok none s
  | some entry =>
    dsimp only
    split
    case isTrue h =>
      exact .ok _ ((Session.note { s with stats := { s.stats with hits := s.stats.hits + 1 } }
        (.memo (R.name r) mark entry.stop entry.node.isSome s.level)).reset entry.stop)
    case isFalse => exact .error _ s

/-- What a rule that is run once at a mark makes of the run of its body. -/
def settleOnce (r : R.Rule) (mark : Mark) :
    EStateM.Result Abort (Session R) (Option (R.Node r)) →
      EStateM.Result Abort (Session R) (Option (R.Node r))
  | .error e s => .error e { s with active := s.active.erase (R.name r, mark) }
  | .ok node s =>
    let s : Session R := { s with active := s.active.erase (R.name r, mark) }
    let s := if node.isSome then s else s.reset mark
    .ok node (Parser.leaveRule r mark node.isSome (Parser.remember r mark node s.mark s))

/-- What a left-recursive rule makes of the growth of its match. -/
def settleGrowth (r : R.Rule) (mark : Mark) :
    EStateM.Result Abort (Session R) (Option (R.Node r) × Mark) →
      EStateM.Result Abort (Session R) (Option (R.Node r))
  | .error e s => .error e { s with growing := s.growing - 1 }
  | .ok (node, stop) s =>
    let s := { s with growing := s.growing - 1 }.reset stop
    .ok node (Parser.leaveRule r mark node.isSome s)

theorem memoized_retells (r : R.Rule) {body : Parse R (Option (R.Node r))}
    (hbody : Retells path lines body) : Retells path lines (Parser.memoized r body) := by
  intro s
  refine (lookup_retells r s.mark).bind ?_ s
  intro found s'
  cases found with
  | some node => exact .ok node s'
  | none =>
    have hactive (origin : Option Origin) : (s'.withOrigin origin).active = s'.active := rfl
    simp only [hactive]
    split
    case isTrue => exact .ok none s'
    case isFalse =>
      let entered : Session R := Parser.enterRule r s.mark
        { s' with active := s'.active.insert (R.name r, s.mark) }
      have hrun := hbody entered
      change Retold path lines (settleOnce r s.mark (body (entered.withOrigin none)))
        (settleOnce r s.mark (body (entered.withOrigin (some ⟨path, some lines⟩))))
      generalize body (entered.withOrigin none) = run at hrun ⊢
      generalize body (entered.withOrigin (some ⟨path, some lines⟩)) = run' at hrun ⊢
      cases hrun with
      | error abort t =>
        exact .error abort { t with active := t.active.erase (R.name r, s.mark) }
      | reread e t t' hunknown => exact .reread e _ _ hunknown
      | ok node t =>
        let left : Session R := { t with active := t.active.erase (R.name r, s.mark) }
        cases node with
        | some node =>
          exact .ok _ (Parser.leaveRule r s.mark true
            (Parser.remember r s.mark (some node) left.mark left))
        | none =>
          exact .ok _ (Parser.leaveRule r s.mark false
            (Parser.remember r s.mark none (left.reset s.mark).mark (left.reset s.mark)))

theorem grow_retells (r : R.Rule) (mark : Mark) {body : Parse R (Option (R.Node r))}
    (hbody : Retells path lines body) (fuel : Nat) (best : Option (R.Node r) × Mark) :
    Retells path lines (Parser.grow r mark body fuel best) := by
  induction fuel generalizing best with
  | zero => exact fun s => .error .endless s
  | succ fuel induction =>
    intro s
    have hrun (origin : Option Origin) :
        Parser.grow r mark body (fuel + 1) best (s.withOrigin origin) =
          follow (body ((s.reset mark).withOrigin origin)) fun node s =>
            if node.isNone || s.mark ≤ best.2 then .ok best s
            else Parser.grow r mark body fuel (node, s.mark)
              (Parser.remember r mark node s.mark
                (Session.note { s with stats := { s.stats with growSteps := s.stats.growSteps + 1 } }
                  (.grow (R.name r) mark s.mark s.level))) := by
      simp only [Parser.grow]
      change _ = follow (body ((s.withOrigin origin).reset mark)) _
      cases body ((s.withOrigin origin).reset mark) with
      | ok node t => rfl
      | error e t => rfl
    rw [hrun, hrun]
    refine (hbody (s.reset mark)).follow ?_
    intro node t
    have hmark (origin : Option Origin) : (t.withOrigin origin).mark = t.mark := rfl
    simp only [hmark]
    split
    case isTrue => exact .ok best t
    case isFalse =>
      exact induction (node, t.mark) (Parser.remember r mark node t.mark
        (Session.note { t with stats := { t.stats with growSteps := t.stats.growSteps + 1 } }
          (.grow (R.name r) mark t.mark t.level)))

theorem grown_retells (r : R.Rule) {body : Parse R (Option (R.Node r))}
    (hbody : Retells path lines body) : Retells path lines (Parser.grown r body) := by
  intro s
  refine (lookup_retells r s.mark).bind ?_ s
  intro found s'
  cases found with
  | some node => exact .ok node s'
  | none =>
    let entered : Session R :=
      Parser.remember r s.mark none s.mark (Parser.enterRule r s.mark s')
    let growing : Session R := { entered with growing := entered.growing + 1 }
    let grow := Parser.grow r s.mark body (entered.bound + 1) (none, s.mark)
    have hrun : Retold path lines (grow (growing.withOrigin none))
        (grow (growing.withOrigin (some ⟨path, some lines⟩))) :=
      grow_retells r s.mark hbody (entered.bound + 1) (none, s.mark) growing
    change Retold path lines (settleGrowth r s.mark (grow (growing.withOrigin none)))
      (settleGrowth r s.mark (grow (growing.withOrigin (some ⟨path, some lines⟩))))
    generalize grow (growing.withOrigin none) = run at hrun ⊢
    generalize grow (growing.withOrigin (some ⟨path, some lines⟩)) = run' at hrun ⊢
    cases hrun with
    | error abort t => exact .error abort { t with growing := t.growing - 1 }
    | reread e t t' hunknown => exact .reread e _ _ hunknown
    | ok best t =>
      exact .ok best.1 (Parser.leaveRule r s.mark best.1.isSome
        ({ t with growing := t.growing - 1 }.reset best.2))

theorem call_retells (G : Grammar R) (fuel : Nat) (r : R.Rule) :
    Retells path lines (Parser.call G fuel r) := by
  induction fuel generalizing r with
  | zero => exact fun s => .error .endless s
  | succ fuel induction =>
    have hbody := exec_retells induction (G.body r)
    unfold Parser.call
    dsimp only
    split
    · exact hbody
    · exact memoized_retells r hbody
    · exact grown_retells r hbody

theorem runRule_retells (G : Grammar R) (r : R.Rule) :
    Retells path lines (Parser.runRule G r) := by
  intro s
  exact call_retells G _ r s

/-! ### Results -/

/-- What a user is told of a source that cannot be read again, and of one that can. -/
inductive Told (lines : List (List Char)) :
    Except SyntaxError α → Except SyntaxError α → Prop
  | same (result : Except SyntaxError α) : Told lines result result
  /-- The line of the error was not known. -/
  | reread (e : SyntaxError) (hunknown : e.lineText = "") :
      Told lines (.error e)
        (.error { e with lineText := Text.lineAt lines e.start.line })

theorem Told.map {result result' : Except SyntaxError α}
    (h : Told lines result result') (f : α → β) :
    Told lines (result.map f) (result'.map f) := by
  cases h with
  | same result => exact .same _
  | reread e hunknown => exact .reread e hunknown

theorem report_retold (abort : Abort) (s : Session R) :
    @Told α lines (.error (Parser.report abort (s.withOrigin none)).1)
      (.error (Parser.report abort (s.withOrigin (some ⟨path, some lines⟩))).1) := by
  cases abort with
  | syntactic e => exact .same _
  | memoClash name => exact .same _
  | endless => exact .same _
  | lexical e =>
    let otherwise : Position := ⟨s.stream.furthest.line, s.stream.furthest.column⟩
    let number := (e.position?.getD otherwise).line
    have hreport (origin : Option Origin) :
        (Parser.report (.lexical e) (s.withOrigin origin)).1 =
          .ofLexError e s.filename otherwise ((s.stream.withOrigin origin).line number).1 := rfl
    rw [hreport, hreport]
    rcases s.stream.line_retold path lines number with hknown | ⟨hunknown, hread⟩
    · rw [hknown]
      exact .same _
    · rw [hread, hunknown]
      exact .reread (.ofLexError e s.filename otherwise "") rfl

theorem parse_retold (G : Grammar R) (entry : R.Rule) (s : Session R) :
    Told lines (Parser.parse G entry (s.withOrigin none)).1
      (Parser.parse G entry (s.withOrigin (some ⟨path, some lines⟩))).1 := by
  have hfirst : Retold path lines _ _ := runRule_retells G entry s
  simp only [Parser.parse]
  generalize Parser.runRule G entry (s.withOrigin none) = run at hfirst ⊢
  generalize Parser.runRule G entry (s.withOrigin _) = run' at hfirst ⊢
  cases hfirst with
  | error abort t => exact report_retold abort t
  | reread e t t' hunknown => exact .reread e hunknown
  | ok node t =>
    cases node with
    | some tree => exact .same _
    | none =>
      have hsecond : Retold path lines _ _ := runRule_retells G entry (Parser.secondPass t)
      have hagain (origin : Option Origin) : Parser.secondPass (t.withOrigin origin) =
          (Parser.secondPass t).withOrigin origin := rfl
      simp only [hagain]
      generalize Parser.runRule G entry ((Parser.secondPass t).withOrigin none) = run at hsecond ⊢
      generalize Parser.runRule G entry ((Parser.secondPass t).withOrigin _) = run' at hsecond ⊢
      cases hsecond with
      | error abort u => exact report_retold abort u
      | reread e u u' hunknown => exact .reread e hunknown
      | ok node u => exact .same _

end ShellSyntax
