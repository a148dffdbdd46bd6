import ShellSyntax.Proofs.Language.Chains

/-!
Chains in expressions: what each matcher for an expression, a display, a literal or a command needs.
-/

namespace ShellSyntax.Language

open Matcher

variable {W : World} {C : Chains W} {B : Budget} {u v : Nat} {t : Token}

/-! ### Lists of expressions -/

theorem tupleOrSingle_moves {item : Match (Option Expr)} (hitem : Remains C B u item) :
    Remains C B u (tupleOrSingle item) := by
  refine .mark fun start _ => .need hitem rfl fun first => Moves.bind (.iterate ?_) ?_
  · rintro ⟨items, isTuple⟩
    refine Moves.accepts.bind fun found => ?_
    split
    · exact .stay
    · exact .option hitem (fun value => .stay) .stay
  · rintro ⟨items, isTuple⟩
    dsimp only
    split
    · exact node_moves (Nat.le_refl _)
    · exact .stay

theorem spreadOr_moves {plain : Match (Option Expr)} (h : Affords C B u .bitOrExpr)
    (hplain : Remains C B u plain) : Remains C B u (spreadOr plain) :=
  .mark fun _ hstart => .ifThen .accepts
    (.option (.rule h) (fun _ => node_moves (Nat.le_refl _)) (giveUp_moves hstart)) hplain

theorem bindingOrSpread_moves (h : Affords C B u .bindingExpr) : Remains C B u bindingOrSpread :=
  spreadOr_moves (h.lower (by decide)) (.rule h)

theorem spreadTuple_moves (h : Affords C B u .exprOrSpread) : Remains C B u spreadTuple :=
  tupleOrSingle_moves (.rule h)

theorem bindingTuple_moves (h : Affords C B u .bindingExpr) : Remains C B u bindingTuple :=
  tupleOrSingle_moves (bindingOrSpread_moves h)

theorem exprTuple_moves (h : Affords C B u .expr) : Remains C B u exprTuple :=
  tupleOrSingle_moves (.rule h)

theorem yielded_moves (h : Affords C B u .exprOrSpread) : Remains C B u yielded := by
  refine .mark fun _ hstart => .expect .accepts (Nat.le_refl _) (.ifThen .accepts ?_ ?_)
  · exact .option (.rule (h.lower (by decide))) (fun _ => node_moves (Nat.le_refl _))
      (giveUp_moves hstart)
  · exact Moves.bind (spreadTuple_moves h) fun _ => node_moves (Nat.le_refl _)

theorem yieldOrTuple_moves (h : Affords C B u .exprOrSpread) : Remains C B u yieldOrTuple :=
  .option (yielded_moves h) (fun _ => .stay) (spreadTuple_moves h)

/-! ### Targets -/

theorem restricted_moves {admits : ExprForm → Bool} (h : Affords C B u .bitOrExpr) :
    Remains C B u (restricted admits) := by
  refine attempt_moves fun _ _ => .need (.rule h) rfl fun target => ?_
  dsimp only
  split
  · exact .stay
  · exact .stay

theorem targetItemRule_moves (h : Affords C B u .targetItem) : Remains C B u targetItemRule :=
  .mark fun _ hstart => .ifThen .accepts
    (.option (.rule h) (fun _ => node_moves (Nat.le_refl _)) (giveUp_moves hstart))
    (restricted_moves (h.lower (by decide)))

theorem targetTuple_moves (h : Affords C B u .targetItem) : Remains C B u targetTuple :=
  tupleOrSingle_moves (.rule h)

/-! ### Mistakes -/

theorem augmentedOperator_moves : Remains C B u augmentedOperator := by
  refine .peek fun t => ?_
  split
  case isTrue => exact .ahead .stay
  case isFalse hop =>
    split
    · exact .ahead .stay
    · exact .next (fun hkind => by simp [hkind] at hop) .stay

theorem rejectEmptyCommand_moves {opening : Token} {closer : String} :
    Remains C B u (rejectEmptyCommand opening closer) := by
  refine .peek fun t => .ahead ?_
  split
  · exact .raise
  · exact .stay

theorem rejectTarget_moves (h : Affords C B u .exprOrSpread) : Remains C B u rejectTarget := by
  refine inspect_moves (.iterate fun _ => .option (spreadTuple_moves h) (fun target => ?_) .stay)
  refine .ifThen .accepts ?_ ?_
  · split
    · exact .raise
    · exact .stay
  · refine augmentedOperator_moves.bind fun op => ?_
    dsimp only
    split
    · exact Moves.bind (v := u) .raise fun _ => .stay
    · exact .stay

theorem rejectBinding_moves (h : Affords C B u .bitOrExpr) : Remains C B u rejectBinding := by
  refine inspect_moves (.option (.rule h) (fun target => ?_) .stay)
  refine .ifThen .accepts ?_ .stay
  split
  · exact .stay
  · exact .raise

theorem rejectMissingElse_moves (h : Affords C B u .orExpr) : Remains C B u rejectMissingElse := by
  refine inspect_moves (.mark fun start _ => .option (.rule h) (fun body => ?_) .stay)
  refine Moves.accepts.bind fun found => ?_
  split
  · exact .stay
  refine .option (.rule h) (fun test => .peek fun t => .ahead ?_) .stay
  split
  · exact .spanSince fun _ => .raise
  · exact .stay

section

variable (h : Affords C B u .expr)

include h

theorem entry_moves : Remains C B u entry :=
  attempt_moves fun _ _ => .need (.rule h) rfl fun _ => .expect .accepts (Nat.le_refl _)
    (.need (.rule h) rfl fun _ => .stay)

theorem entryOrSpread_moves : Remains C B u entryOrSpread :=
  .mark fun _ hstart => .ifThen .accepts
    (.option (.rule (h.lower (by decide))) (fun _ => .stay) (giveUp_moves hstart))
    (mapped_moves (entry_moves h))

theorem keyWithoutValue_moves : Remains C B u keyWithoutValue := by
  refine .option (.rule h) (fun key => ?_) .stay
  refine .option .spelled (fun colon => .peek fun t => .ahead ?_) .stay
  split
  · exact .raise
  · exact .stay

theorem rejectMissingValue_moves : Remains C B u rejectMissingValue := by
  refine inspect_moves (.iterate fun _ => .mark fun start hstart => ?_)
  refine .option (entryOrSpread_moves h) (fun pair => ?_) (.reset hstart ?_)
  · exact .ifThen .accepts .stay .stay
  · exact Moves.bind (keyWithoutValue_moves h) fun _ => .stay

end

/-! ### Comprehensions -/

section

variable (h : Affords C B u .orExpr)

include h

theorem filterClause_moves : Remains C B u filterClause :=
  .expect .accepts (Nat.le_refl _) (.rule h)

theorem forClause_moves : Remains C B u forClause := by
  refine attempt_moves fun _ _ => Moves.accepts.bind fun isAsync => .expect .accepts
    (Nat.le_refl _) (.need (targetTuple_moves (h.lower (by decide))) rfl fun target => ?_)
  refine .expect .accepts (Nat.le_refl _) (.need (.rule h) rfl fun iter => ?_)
  exact Moves.bind (.many (filterClause_moves h)) fun ifs => .stay

theorem forClauses_moves : Remains C B u forClauses :=
  .many1 (forClause_moves h)

end

/-! ### Displays -/

section

variable (h : Affords C B u .exprOrSpread)

include h

theorem comprehension_moves {closer : String} : Remains C B u (comprehension closer) :=
  .need (.rule (h.lower (by decide))) rfl fun _ =>
    .need (forClauses_moves (h.lower (by decide))) rfl fun _ =>
      .expect .accepts (Nat.le_refl _) .stay

theorem generator_moves : Remains C B u generator := by
  refine attempt_moves fun _ _ => .expect .accepts (Nat.le_refl _) ?_
  refine (comprehension_moves h).bind ?_
  rintro (_ | ⟨elt, generators⟩)
  · exact .stay
  · exact node_moves (Nat.le_refl _)

theorem group_moves {start inside : Nat} (hstart : C.ahead start ≤ u)
    (hinside : C.ahead inside ≤ u) : Remains C B u (do
      reset start
      if let some value ← generator then return some value
      reset inside
      let some inner ← bindingTuple | return none
      if !(← accepts ")") then return none
      match inner.form with
      | .tuple items => node start (.tuple items)
      | _ => return some inner) := by
  refine .reset hstart (.option (generator_moves h) (fun _ => .stay) (.reset hinside ?_))
  refine .need (bindingTuple_moves (h.lower (by decide))) rfl fun inner => .expect .accepts
    (Nat.le_refl _) ?_
  split
  · exact node_moves (Nat.le_refl _)
  · exact .stay

theorem parenthesized_moves : Remains C B u parenthesized := by
  refine attempt_moves fun start hstart => .expect .accepts (Nat.le_refl _) ?_
  refine .ifThen .accepts (node_moves (Nat.le_refl _)) (.mark fun inside hinside => ?_)
  refine .option (yielded_moves h) (fun value => ?_) (group_moves h hstart hinside)
  exact .ifThen .accepts .stay (group_moves h hstart hinside)

theorem bracketItems_moves : Remains C B u bracketItems := by
  refine .option (.separated (bindingOrSpread_moves (h.lower (by decide)))) (fun items => ?_) .stay
  exact Moves.accepts.bind fun _ => .stay

theorem squareBracketed_moves : Remains C B u squareBracketed := by
  refine attempt_moves fun start _ => .expect .accepts (Nat.le_refl _)
    (.mark fun inside hinside => ?_)
  refine (comprehension_moves h).bind ?_
  rintro (_ | ⟨elt, generators⟩)
  · refine .reset hinside ((bracketItems_moves h).bind fun items => ?_)
    exact .expect .accepts (Nat.le_refl _) (node_moves (Nat.le_refl _))
  · exact node_moves (Nat.le_refl _)

theorem dictComprehension_moves : Remains C B u dictComprehension :=
  .need (entry_moves (h.lower (by decide))) rfl fun _ =>
    .need (forClauses_moves (h.lower (by decide))) rfl fun _ =>
      .expect .accepts (Nat.le_refl _) .stay

theorem dictEntries_moves : Remains C B u dictEntries := by
  refine .need (.separated (entryOrSpread_moves (h.lower (by decide)))) rfl fun pairs => ?_
  exact Moves.accepts.bind fun _ => .expect .accepts (Nat.le_refl _) .stay

theorem braced_moves : Remains C B u braced := by
  refine attempt_moves fun start _ => .expect .accepts (Nat.le_refl _) ?_
  refine .ifThen .accepts (node_moves (Nat.le_refl _)) (.mark fun inside hinside => ?_)
  refine (dictComprehension_moves h).bind ?_
  rintro (_ | ⟨⟨key, value⟩, generators⟩)
  case some => exact node_moves (Nat.le_refl _)
  refine .reset hinside ((comprehension_moves h).bind ?_)
  rintro (_ | ⟨elt, generators⟩)
  case some => exact node_moves (Nat.le_refl _)
  refine .reset hinside ((dictEntries_moves h).bind ?_)
  rintro (_ | pairs)
  case some => exact node_moves (Nat.le_refl _)
  refine .reset hinside (.diagnosis (rejectMissingValue_moves (h.lower (by decide))) ?_)
  refine (bracketItems_moves h).bind fun items => ?_
  split
  · exact .stay
  · exact .expect .accepts (Nat.le_refl _) (node_moves (Nat.le_refl _))

end

/-! ### Named and conditional expressions -/

section

variable (h : Affords C B u .expr)

include h

theorem unbound_moves {start : Nat} (hstart : C.ahead start ≤ u) : Remains C B u (do
      if ← isDiagnosing then rejectBinding
      let some value ← expr | return none
      if ← lookahead (spelled ":=") then giveUp start else return some value) := by
  refine .diagnosis (rejectBinding_moves (h.lower (by decide)))
    (.need (.rule h) rfl fun value => ?_)
  exact .ifThen (.lookahead .spelled) (giveUp_moves hstart) .stay

theorem bindingExprRule_moves : Remains C B u bindingExprRule := by
  refine .mark fun start hstart => .option .name (fun target => ?_) (unbound_moves h hstart)
  refine .ifThen .accepts (.spanSince fun span => ?_) (.reset hstart (unbound_moves h hstart))
  exact .option (.rule h) (fun _ => node_moves (Nat.le_refl _)) (giveUp_moves hstart)

theorem defaulted_moves {id : Token} { annotation : Option Expr} :
    Remains C B u (do
      let mut default := none
      if ← accepts "=" then
        let some value ← expr | return none
        default := some value
      return some ⟨id.text, annotation, default⟩ : Match (Option Parameter)) :=
  .ifThen .accepts (.need (.rule h) rfl fun _ => .stay) .stay

theorem namedParameter_moves { annotated : Bool} : Remains C B u (namedParameter annotated) := by
  refine attempt_moves fun _ _ => .need .name rfl fun id => ?_
  cases annotated with
  | false => exact defaulted_moves h
  | true =>
    refine .ifThen .accepts ?_ (defaulted_moves h)
    exact .need (.rule h) rfl fun _ => defaulted_moves h

theorem parameterItem_moves { annotated : Bool} {state : ParameterState} :
    Remains C B u (parameterItem annotated state) := by
  obtain ⟨args, afterStar⟩ := state
  have hparameter : Remains C B u (namedParameter annotated) := namedParameter_moves h
  refine .ifThen .accepts .stay (.ifThen .accepts (.need hparameter rfl fun _ => .stay) ?_)
  refine .ifThen .accepts (hparameter.bind fun _ => .stay) (.need hparameter rfl fun p => ?_)
  dsimp only
  split
  · exact .stay
  · exact .stay

theorem parameterList_moves { annotated : Bool} {close : String} :
    Remains C B u (parameterList annotated close) := by
  refine attempt_moves fun _ _ => .iterate fun state => .ifThen (.lookahead .spelled) .stay ?_
  refine .option (parameterItem_moves h) (fun _ => ?_) .stay
  exact .ifThen .accepts .stay .stay

end

theorem ifElseTail_moves (h : Affords C B u .orExpr) : Remains C B u ifElseTail := by
  refine attempt_moves fun _ _ => .expect .accepts (Nat.le_refl _) (.need (.rule h) rfl fun _ => ?_)
  refine Pays.expect (.accepts (by decide)) fun v hv => ?_
  refine .option (.rule (h.ample.behind hv rfl)) (fun _ => .done ?_) (.done ?_)
  all_goals omega

theorem lambdaExpr_moves (h : B.Ample u) : Remains C B u lambdaExpr := by
  refine attempt_moves fun _ _ => Pays.expect (.accepts (by decide)) fun v hv => ?_
  have hless : v ≤ u := by omega
  have hbody : Affords C B v .expr := h.behind hv rfl
  refine .option (parameterList_moves hbody) (fun _ => ?_) (.done hless)
  refine .expect .accepts hless (.option (.rule hbody) (fun _ => node_moves hless) (.done hless))

theorem exprRule_moves (h : Affords C B u .orExpr) : Remains C B u exprRule := by
  refine .diagnosis (rejectMissingElse_moves h) (.mark fun start _ => ?_)
  refine .option (.rule h) (fun body => ?_) (lambdaExpr_moves h.ample)
  exact .option (ifElseTail_moves h) (fun _ => node_moves (Nat.le_refl _)) .stay

/-! ### Boolean operators and comparisons -/

theorem boolOperands_moves {op : BoolOp} {keyword : String} {operand : Match (Option Expr)}
    (hoperand : Remains C B u operand) : Remains C B u (boolOperands op keyword operand) := by
  refine .mark fun _ _ => (Moves.separated hoperand).bind fun values => ?_
  split
  · exact .stay
  · exact .stay
  · exact node_moves (Nat.le_refl _)

theorem notIn_moves : Remains C B u notIn :=
  attempt_moves fun _ _ => .expect .accepts (Nat.le_refl _)
    (.expect .accepts (Nat.le_refl _) .stay)

theorem comparisonOperator_moves : Remains C B u comparisonOperator := by
  refine .option oneOf_moves (fun _ => .stay) ?_
  refine .option notIn_moves (fun _ => .stay) (.ifThen .accepts ?_ .stay)
  exact .ifThen .accepts .stay .stay

theorem comparison_moves (h : Affords C B u .bitOrExpr) : Remains C B u comparison := by
  have htail : Remains C B u comparisonTail :=
    attempt_moves fun _ _ => .need comparisonOperator_moves rfl fun _ =>
      .need (.rule h) rfl fun _ => .stay
  refine .mark fun _ _ => .need (.rule h) rfl fun left => (Moves.many htail).bind fun tails => ?_
  split
  · exact .stay
  · exact node_moves (Nat.le_refl _)

theorem notExprRule_moves (h : Affords C B u .bitOrExpr) : Remains C B u notExprRule := by
  refine .mark fun _ hstart => Pays.ifThen (.accepts (by decide)) (fun v hv => ?_)
    (comparison_moves h)
  exact .option (.rule (h.ample.behind hv rfl)) (fun _ => node_moves (by omega))
    (giveUp_moves hstart)

/-! ### Binary and prefix operators -/

theorem binaryTail_moves {start here : Nat} {left : Expr} {operand : Match (Option Expr)}
    {ops : List BinOp} (hhere : C.ahead here ≤ u) (hoperand : Remains C B u operand) :
    Remains C B u (binaryTail start here left operand ops) := by
  induction ops with
  | nil => exact .stay
  | cons op ops induction =>
    refine .ifThen .accepts ?_ (.reset hhere induction)
    exact .option hoperand (fun _ => node_moves (Nat.le_refl _)) (.reset hhere induction)

theorem leftAssoc_descends {ops : List BinOp} {this operand : Match (Option Expr)}
    {i : Nat} (hi : C.ahead i ≤ u)
    (hthis : Descends W C.Ends (B.allowance C) this i fun _ j => C.ahead j ≤ u)
    (hoperand : Remains C B u operand) :
    Descends W C.Ends (B.allowance C) (leftAssoc ops this operand) i fun _ j => C.ahead j ≤ u := by
  refine descends_first hi hthis fun start hstart found => ?_
  have hrest : Remains C B u (reset start >>= fun _ => operand) := .reset hstart hoperand
  cases found with
  | none => exact hrest
  | some left =>
    refine .mark fun here hhere => ?_
    exact .option (binaryTail_moves hhere hoperand) (fun _ => .stay) hrest

theorem powerExpr_moves (h : Affords C B u .awaitExpr) : Remains C B u powerExpr := by
  refine .mark fun start _ => .need (.rule h) rfl fun left => .mark fun here hhere => ?_
  refine Pays.ifThen (.accepts (by decide)) (fun v hv => ?_) .stay
  exact .option (.rule (h.ample.behind hv rfl)) (fun _ => node_moves (by omega))
    (.reset hhere .stay)

theorem signedExprRule_moves (h : Affords C B u .awaitExpr) : Remains C B u signedExprRule := by
  refine .mark fun _ hstart => Pays.option (oneOf_pays (by decide)) (fun op v hv => ?_)
    (powerExpr_moves h)
  exact .option (.rule (h.ample.behind hv rfl)) (fun _ => node_moves (by omega))
    (giveUp_moves hstart)

theorem awaitExprRule_moves (h : Affords C B u .postfixExpr) : Remains C B u awaitExprRule :=
  .mark fun _ hstart => .ifThen .accepts
    (.option (.rule h) (fun _ => node_moves (Nat.le_refl _)) (giveUp_moves hstart)) (.rule h)

/-! ### Literals -/

theorem fstringLiteral_moves (h : B.Ample u) : Remains C B u fstringLiteral := by
  refine attempt_moves fun _ _ => Pays.option .fstringStart (fun opening v hv => ?_) .stay
  have hless : v ≤ u := by omega
  refine .option (.rule (h.behind hv rfl)) (fun _ => ?_) (.done hless)
  exact .expect (.acceptsKind (by decide)) hless (.done hless)

theorem stringRunRule_moves (h : B.Ample u) : Remains C B u stringRunRule := by
  refine .mark fun start _ => Moves.bind (v := u) (.iterate fun g => ?_) fun g => ?_
  · refine .option (.ofKind (by decide)) (fun _ => .stay) ?_
    exact .option (fstringLiteral_moves h) (fun _ => .stay) .stay
  · split
    · exact .stay
    · exact .spanSince fun _ => .stay

theorem conversion_moves : Remains C B u conversion := by
  refine attempt_moves fun _ _ => .need .spelled rfl fun sign => ?_
  refine .need .name rfl fun letter => ?_
  dsimp only
  split
  · exact .stay
  · exact .stay

theorem formatField_moves {raw : Bool} (h : Affords C B u (.fstringInside raw)) :
    Remains C B u (formatField raw) := by
  refine attempt_moves fun _ _ => .option .spelled (fun opening => ?_) .stay
  refine .need (yieldOrTuple_moves (h.lower ?_)) rfl fun value => ?_
  case refine_1 => cases raw <;> decide
  refine Moves.spelled.bind fun equals => conversion_moves.bind fun letter => ?_
  refine .ifThen .accepts ?_ (.expect .accepts (Nat.le_refl _) .stay)
  exact .need (.rule h) rfl fun parts => .expect .accepts (Nat.le_refl _) .stay

theorem fstringInsideRule_moves {raw : Bool} (h : Affords C B u (.fstringInside raw)) :
    Remains C B u (fstringInsideRule raw) := by
  refine .iterate fun parts => .option (.ofKind (by decide)) (fun _ => .stay) ?_
  exact .option (formatField_moves h) (fun _ => .stay) .stay

theorem pathSearch_moves : Remains C B u pathSearch :=
  .mark fun _ _ => .need (.ofKind (by decide)) rfl fun _ => node_moves (Nat.le_refl _)

/-! ### Commands -/

theorem variableExpr_moves (h : Affords C B u .expr) : Remains C B u variableExpr := by
  refine attempt_moves fun start _ => .option .spelled (fun dollar => ?_) ?_
  · refine .need (.ofKind (by decide)) rfl fun id => ?_
    dsimp only
    split
    · exact .stay
    · exact node_moves (Nat.le_refl _)
  · refine .expect .accepts (Nat.le_refl _) (.need (.rule h) rfl fun value => ?_)
    exact .expect .accepts (Nat.le_refl _) (node_moves (Nat.le_refl _))

theorem attempt_movesAt {α : Type} {inner : Nat → Match (Option α)}
    (h : ∀ start, MovesAt t C B u (inner start) u) : MovesAt t C B u (attempt inner) u := by
  refine .mark fun start hstart => (h start).bind ?_
  rintro (_ | a)
  · exact giveUp_moves hstart
  · exact .stay

theorem mapped_movesAt {α β : Type} {m : Match (Option α)} {g : α → β} (hm : MovesAt t C B u m u) :
    MovesAt t C B u (do return (← m).map g) u :=
  hm.bind fun _ => .stay

theorem wordArg_moves (hkind : t.kind ≠ .newline) : MovesAt t C B u (wordArg t) u :=
  .next hkind .stay

section

variable (h : Affords C B u .exprOrSpread)

include h

theorem hostArg_moves (hkind : t.kind ≠ .newline) : MovesAt t C B u hostArg u :=
  attempt_movesAt fun _ => .next hkind
    (.need (spreadTuple_moves h) rfl fun _ => .expect .accepts (Nat.le_refl _) .stay)

omit h in
theorem rawArg_moves (hkind : t.kind ≠ .newline) : MovesAt t C B u rawArg u :=
  attempt_movesAt fun _ => .next hkind (mapped_moves (.ofKind (by decide)))

theorem envArg_moves : Remains C B u envArg := by
  refine (variableExpr_moves (h.lower (by decide))).bind fun value => ?_
  split
  · exact .stay
  · exact .stay
  · exact .stay

theorem commandArg_moves : Remains C B u commandArg := by
  refine Moves.bind (.rule (h.lower (by decide))) fun value => ?_
  split
  · exact .stay
  · exact .stay

omit h in
theorem searchArg_moves : Remains C B u searchArg := by
  refine pathSearch_moves.bind fun value => ?_
  split
  · exact .stay
  · exact .stay

theorem operatorPiece_moves {depth : Nat} (hop : t.kind = .op) :
    MovesAt t C B u (operatorPiece t depth) u := by
  have hkind : t.kind ≠ .newline := by simp [hop]
  unfold operatorPiece
  dsimp only
  split
  · exact mapped_movesAt (.ahead (envArg_moves h))
  split
  · exact mapped_movesAt (hostArg_moves h hkind)
  split
  · exact mapped_movesAt (.ahead (commandArg_moves h))
  split
  · exact mapped_movesAt (rawArg_moves hkind)
  split
  · exact mapped_movesAt (wordArg_moves hkind)
  split
  · exact .next hkind .stay
  split
  · exact mapped_movesAt (wordArg_moves hkind)
  split
  · exact mapped_movesAt (wordArg_moves hkind)
  · exact .ahead .stay

theorem piece_moves {depth : Nat} : MovesAt t C B u (piece t depth) u := by
  have hword (hkind : t.kind ≠ .newline) : MovesAt t C B u
      (do return (← wordArg t).map fun arg => (arg, depth)) u :=
    mapped_movesAt (wordArg_moves hkind)
  unfold piece
  dsimp only
  split
  case h_1 hkind => exact hword (by simp [hkind])
  case h_2 hkind => exact hword (by simp [hkind])
  case h_3 hkind => exact hword (by simp [hkind])
  case h_4 hkind => exact .next (by simp [hkind]) .stay
  case h_5 => exact .ahead (Moves.bind (.rule (h.lower (by decide))) fun value => .stay)
  case h_6 => exact .ahead (searchArg_moves.bind fun value => .stay)
  case h_7 hop => exact operatorPiece_moves h hop
  case h_8 => exact .ahead .stay

/-! ### Pipelines -/

theorem commandWords_moves {closer : String} : Remains C B u (commandWords closer) := by
  refine .iterate ?_
  rintro ⟨argv, depth, stopped⟩
  refine .peek fun t => ?_
  split
  · exact .ahead .stay
  · refine .bind (attempt_movesAt fun _ => piece_moves h) ?_
    rintro (_ | ⟨arg, depth⟩)
    · exact .stay
    · exact .lastToken? fun last => .stay

theorem stages_moves {closer : String} : Remains C B u (stages closer) := by
  have hfurther : Remains C B u (furtherStage closer) :=
    attempt_moves fun _ _ => .need oneOf_moves rfl fun _ =>
      .need (commandWords_moves h) rfl fun _ => .stay
  exact .need (commandWords_moves h) rfl fun _ => (Moves.many hfurther).bind fun _ => .stay

end

theorem captured_moves {capture : CaptureMode} (h : B.Ample u) :
    Remains C B u (captured capture) := by
  have hopener : chainSpellings.contains capture.opener = true := by
    cases capture <;> decide
  refine .mark fun start _ => Pays.option (.spelled hopener) (fun opening v hv => ?_) .stay
  have hless : v ≤ u := by omega
  refine .diagnosis rejectEmptyCommand_moves ?_
  refine .option (stages_moves (h.behind hv rfl)) (fun stages => ?_) (.done hless)
  refine Moves.accepts.bind fun background => Moves.accepts.bind fun found => ?_
  split
  · exact .done hless
  · exact .spanSince fun _ => .done hless

theorem commandExprRule_moves (h : B.Ample u) : Remains C B u commandExprRule := by
  refine .firstOf fun m hm => ?_
  obtain ⟨capture, _, rfl⟩ := List.mem_map.mp hm
  exact captured_moves h

/-! ### Atoms -/

theorem nameExpr_moves {start : Nat} (hname : t.kind = .name) :
    MovesAt t C B u (nameExpr start t) u := by
  have hkind : t.kind ≠ .newline := by simp [hname]
  unfold nameExpr
  split
  · exact .next hkind (node_moves (Nat.le_refl _))
  · split
    · exact .ahead .stay
    · exact .next hkind (node_moves (Nat.le_refl _))

theorem bracketExpr_moves {start : Nat} (h : B.Ample u) (hop : t.kind = .op) :
    MovesAt t C B u (bracketExpr start t.text) u := by
  unfold bracketExpr
  split
  · exact .ahead (.inBrackets (parenthesized_moves (h.within rfl)))
  split
  · exact .ahead (.inBrackets (squareBracketed_moves (h.within rfl)))
  split
  · exact .ahead (.inBrackets (braced_moves (h.within rfl)))
  split
  · exact .next (by simp [hop]) (node_moves (Nat.le_refl _))
  split
  · exact .ahead (.inBrackets (variableExpr_moves (h.within rfl)))
  split
  · exact .ahead (.inBrackets (.rule (h.within rfl)))
  · exact .ahead .stay

theorem atomicExprRule_moves (h : Affords C B u .stringRun) : Remains C B u atomicExprRule := by
  refine .mark fun start _ => .peek fun t => ?_
  split
  case h_1 hkind => exact nameExpr_moves hkind
  case h_2 hkind => exact .next (by simp [hkind]) (node_moves (Nat.le_refl _))
  case h_3 => exact .ahead (.rule h)
  case h_4 => exact .ahead (.rule h)
  case h_5 => exact .ahead pathSearch_moves
  case h_6 hkind => exact bracketExpr_moves h.ample hkind
  case h_7 => exact .ahead .stay

/-! ### Calls and subscripts -/

section

variable (h : Affords C B u .bindingExpr)

include h

theorem namedArgument_moves : Remains C B u namedArgument :=
  attempt_moves fun _ _ => .need .name rfl fun _ => .expect .accepts (Nat.le_refl _)
    (.need (.rule (h.lower (by decide))) rfl fun _ => .stay)

theorem argument_moves {state : ArgumentState} : Remains C B u (argument state) := by
  obtain ⟨args, keywords⟩ := state
  have hexpr : Affords C B u .expr := h.lower (by decide)
  refine .mark fun start _ => .ifThen .accepts ?_ (.ifThen .accepts ?_ ?_)
  · exact .need (.rule hexpr) rfl fun _ => .spanSince fun _ => .stay
  · exact .need (.rule hexpr) rfl fun _ => .stay
  refine .option (namedArgument_moves h) (fun _ => .stay) ?_
  exact .need (.rule h) rfl fun _ => .stay

theorem argumentList_moves : Remains C B u argumentList := by
  refine .iterate fun state => .ifThen (.lookahead .spelled) .stay ?_
  refine .option (argument_moves h) (fun _ => ?_) .stay
  exact .ifThen .accepts .stay .stay

theorem subscriptItem_moves : Remains C B u subscriptItem := by
  have hexpr : Affords C B u .expr := h.lower (by decide)
  refine .mark fun start hstart => Moves.bind (.rule hexpr) fun lower => ?_
  refine .ifThen .accepts ?_ (.reset hstart (bindingOrSpread_moves h))
  refine Moves.bind (.rule hexpr) fun upper => ?_
  exact .ifThen .accepts (Moves.bind (.rule hexpr) fun _ => node_moves (Nat.le_refl _))
    (node_moves (Nat.le_refl _))

theorem subscripts_moves : Remains C B u subscripts :=
  tupleOrSingle_moves (subscriptItem_moves h)

end

/-! ### Primaries -/

theorem trailer_moves {start : Nat} {value : Expr} (h : Affords C B u .exprOrSpread) :
    Remains C B u (trailer start value) := by
  have hbinding : Affords C B u .bindingExpr := h.lower (by decide)
  refine attempt_moves fun _ _ => .ifThen .accepts ?_ ?_
  · exact .need .name rfl fun attr => node_moves (Nat.le_refl _)
  refine .option (generator_moves h) (fun _ => node_moves (Nat.le_refl _)) (.ifThen .accepts ?_ ?_)
  · exact .need (argumentList_moves hbinding) rfl fun _ => .expect .accepts (Nat.le_refl _)
      (node_moves (Nat.le_refl _))
  refine .ifThen .accepts ?_ (.option .spelled (fun opening => ?_) ?_)
  · exact .need (subscripts_moves hbinding) rfl fun _ => .expect .accepts (Nat.le_refl _)
      (node_moves (Nat.le_refl _))
  · dsimp only
    split
    · exact .stay
    · refine (Moves.many (.ofKind (by decide))).bind fun args => ?_
      exact .expect .accepts (Nat.le_refl _) (node_moves (Nat.le_refl _))
  · exact .option oneOf_moves (fun _ => node_moves (Nat.le_refl _)) .stay

theorem postfixExprRule_descends {i : Nat} (hi : C.ahead i ≤ u)
    (hthis : Descends W C.Ends (B.allowance C) postfixExpr i fun _ j => C.ahead j ≤ u)
    (h : Affords C B u .atomicExpr) :
    Descends W C.Ends (B.allowance C) postfixExprRule i fun _ j => C.ahead j ≤ u := by
  refine descends_first hi hthis fun start hstart found => ?_
  have hatomic : Remains C B u (reset start >>= fun _ => atomicExpr) := .reset hstart (.rule h)
  cases found with
  | none => exact hatomic
  | some value =>
    exact .option (.inBrackets (trailer_moves (h.ample.within rfl))) (fun _ => .stay) hatomic

end ShellSyntax.Language
