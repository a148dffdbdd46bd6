import ShellSyntax.Proofs.Language.ChainedExpressions

/-!
Chains in statements, and so in every rule of the grammar. Statements are not expressions, and a
statement in a block of its own line holds no other block; so rules for statements call each other
only a fixed number of levels deep.
-/

namespace ShellSyntax.Language

open Matcher

variable {W : World} {C : Chains W} {B : Budget} {u v : Nat} {t : Token}

theorem stmtNode_moves {start : Nat} {form : StmtForm} : Remains C B u (stmtNode start form) :=
  .spanSince fun _ => .stay

/-! ### Imports -/

theorem identifier_moves : Remains C B u identifier :=
  mapped_moves .name

theorem modulePath_moves : Remains C B u modulePath :=
  mapped_moves (.separated identifier_moves)

theorem aliased_moves {id : Match (Option String)} (hid : Remains C B u id) :
    Remains C B u (aliased id) := by
  refine attempt_moves fun _ _ => .need hid rfl fun imported => ?_
  refine Moves.accepts.bind fun found => ?_
  split
  · exact .stay
  · exact .need identifier_moves rfl fun _ => .stay

theorem plainImport_moves : Remains C B u plainImport :=
  Moves.accepts.bind fun _ => mapped_moves (.separated (aliased_moves modulePath_moves))

theorem leadingDots_moves : Remains C B u leadingDots :=
  (Moves.many oneOf_moves).bind fun _ => .stay

theorem importTargets_moves : Remains C B u importTargets := by
  refine attempt_moves fun _ _ => .ifThen .accepts .stay (Moves.accepts.bind fun parenthesized => ?_)
  refine .need (.separated (aliased_moves identifier_moves)) rfl fun names => ?_
  cases parenthesized with
  | true => exact Moves.accepts.bind fun _ => .expect .accepts (Nat.le_refl _) .stay
  | false => exact .ifThen (.lookahead .spelled) .stay .stay

theorem fromImport_moves : Remains C B u fromImport := by
  refine Moves.accepts.bind fun _ => leadingDots_moves.bind fun level => ?_
  refine modulePath_moves.bind fun path => ?_
  split
  · exact .stay
  · exact .expect .accepts (Nat.le_refl _) (.need importTargets_moves rfl fun _ => .stay)

section

variable (h : Affords C B u .exprOrSpread)

include h

/-! ### Assignments -/

theorem annotatedAssignment_moves : Remains C B u annotatedAssignment := by
  have hvalue : Remains C B u (attempt fun _ => do
      if !(← accepts "=") then return none
      yieldOrTuple) :=
    attempt_moves fun _ _ => .expect .accepts (Nat.le_refl _) (yieldOrTuple_moves h)
  refine attempt_moves fun _ _ => .need (restricted_moves (h.lower (by decide))) rfl fun target => ?_
  refine .expect .accepts (Nat.le_refl _) (.need (.rule (h.lower (by decide))) rfl fun _ => ?_)
  exact hvalue.bind fun _ => stmtNode_moves

theorem plainAssignment_moves : Remains C B u plainAssignment := by
  have htarget : Remains C B u assignmentTarget :=
    attempt_moves fun _ _ => .need (targetTuple_moves (h.lower (by decide))) rfl fun _ =>
      .expect .accepts (Nat.le_refl _) .stay
  refine attempt_moves fun _ _ => .need (.many1 htarget) rfl fun _ => ?_
  refine .need (yieldOrTuple_moves h) rfl fun value => ?_
  exact .ifThen (.lookahead .spelled) .stay stmtNode_moves

theorem augmentedAssignment_moves : Remains C B u augmentedAssignment :=
  attempt_moves fun _ _ => .need (restricted_moves (h.lower (by decide))) rfl fun _ =>
    .need augmentedOperator_moves rfl fun _ =>
      .need (yieldOrTuple_moves h) rfl fun _ => stmtNode_moves

theorem assignment_moves : Remains C B u assignment :=
  .option (annotatedAssignment_moves h) (fun _ => .stay)
    (.option (plainAssignment_moves h) (fun _ => .stay) (augmentedAssignment_moves h))

/-! ### Statements of one keyword -/

theorem optionalExpression_moves {separator : String} :
    Remains C B u (optionalExpression separator) :=
  attempt_moves fun _ _ => .expect .accepts (Nat.le_refl _) (.rule (h.lower (by decide)))

theorem raising_moves : Remains C B u raising := by
  refine Moves.accepts.bind fun _ => ?_
  refine .option (.rule (h.lower (by decide))) (fun exc => ?_) .stay
  exact (optionalExpression_moves h).bind fun _ => .stay

theorem deletion_moves : Remains C B u deletion := by
  refine Moves.accepts.bind fun _ => ?_
  refine .need (.separated (restricted_moves (h.lower (by decide)))) rfl fun targets => ?_
  refine Moves.accepts.bind fun _ => .peek fun t => .ahead ?_
  split
  · exact .stay
  · exact .stay

theorem assertion_moves : Remains C B u assertion := by
  refine Moves.accepts.bind fun _ => .need (.rule (h.lower (by decide))) rfl fun test => ?_
  exact (optionalExpression_moves h).bind fun _ => .stay

omit h in
theorem scopeDeclaration_moves (hkind : t.kind ≠ .newline) : MovesAt t C B u scopeDeclaration u :=
  .next hkind (.need (.separated identifier_moves) rfl fun _ => .stay)

theorem keywordStatement_moves {keyword : String} (hkind : t.kind ≠ .newline) :
    MovesAt t C B u (keywordStatement keyword) u := by
  unfold keywordStatement
  split
  case h_1 => exact .next hkind .stay
  case h_2 => exact .next hkind .stay
  case h_3 => exact .next hkind .stay
  case h_4 => exact .next hkind (Moves.bind (spreadTuple_moves h) fun _ => .stay)
  case h_5 => exact .ahead (mapped_moves (yielded_moves h))
  case h_6 => exact .ahead plainImport_moves
  case h_7 => exact .ahead fromImport_moves
  case h_8 => exact .ahead (raising_moves h)
  case h_9 => exact .ahead (deletion_moves h)
  case h_10 => exact .ahead (assertion_moves h)
  case h_11 => exact scopeDeclaration_moves hkind
  case h_12 => exact scopeDeclaration_moves hkind
  case h_13 => exact .ahead .stay

theorem smallStmtRule_moves : Remains C B u smallStmtRule := by
  refine attempt_moves fun start _ => .diagnosis (rejectTarget_moves h) ?_
  refine .option (assignment_moves h) (fun _ => .stay) ?_
  refine .option (spreadTuple_moves h) (fun _ => stmtNode_moves) (.peek fun t => ?_)
  split
  case isTrue => exact .ahead .stay
  case isFalse hkind =>
    refine (keywordStatement_moves h (fun hline => by simp [hline] at hkind)).bind ?_
    rintro (_ | form)
    · exact .stay
    · exact stmtNode_moves

/-! ### Contexts -/

theorem contextItem_moves : Remains C B u contextItem := by
  have htarget : Remains C B u contextTarget := by
    refine attempt_moves fun _ _ => .expect .accepts (Nat.le_refl _) ?_
    refine .need (.rule (h.lower (by decide))) rfl fun target => .peek fun t => .ahead ?_
    split
    · exact .stay
    · exact .stay
  exact .need (.rule (h.lower (by decide))) rfl fun _ => htarget.bind fun _ => .stay

theorem contextItems_moves : Remains C B u (separated "," contextItem) :=
  .separated (contextItem_moves h)

theorem rejectMissingColon_moves : Remains C B u rejectMissingColon := by
  refine inspect_moves (.option (contextItems_moves h) (fun _ => ?_) .stay)
  refine .peek fun t => .ahead ?_
  split
  · exact .raise
  · exact .stay

theorem rawWith_moves : Remains C B u rawWith :=
  .diagnosis (rejectMissingColon_moves h) (.need (contextItems_moves h) rfl fun _ =>
    .expect .accepts (Nat.le_refl _) (.need (.ofKind (by decide)) rfl fun _ => .stay))

/-! ### Heads of definitions -/

theorem returnAnnotation_moves : Remains C B u returnAnnotation := by
  refine Moves.accepts.bind fun found => ?_
  split
  · exact .stay
  · exact .need (.rule (h.lower (by decide))) rfl fun _ => .stay

theorem classArguments_moves : Remains C B u classArguments := by
  refine Moves.accepts.bind fun found => ?_
  split
  · exact .stay
  · exact .need (argumentList_moves (h.lower (by decide))) rfl fun _ =>
      .expect .accepts (Nat.le_refl _) .stay

end

/-! ### Blocks -/

theorem stmtLine_moves (h : Affords C B u .smallStmt) : Remains C B u stmtLine :=
  attempt_moves fun _ _ => .need (.separated (.rule h)) rfl fun _ => Moves.accepts.bind fun _ =>
    .expect (.acceptsAnyKind (h.most rfl)) (Nat.le_refl _) .stay

theorem indentedSuite_moves (hmost : C.most ≤ u) : Remains C B u indentedSuite :=
  attempt_moves fun _ _ => .expect (.acceptsAnyKind hmost) (Nat.le_refl _) .unlessIndented

theorem rejectMissingIndent_moves (hmost : C.most ≤ u) : Remains C B u rejectMissingIndent := by
  refine inspect_moves ((Moves.acceptsAnyKind hmost).bind fun found => ?_)
  split
  · exact .stay
  refine .peek fun t => .ahead ?_
  split
  · exact .raise
  · exact .stay

theorem suiteRule_moves (h : Affords C B u .smallStmt) : Remains C B u suiteRule := by
  have hmost : C.most ≤ u := h.most rfl
  refine .option (indentedSuite_moves hmost) (fun _ => .stay) ?_
  exact .option (stmtLine_moves h) (fun _ => .stay)
    (.diagnosis (rejectMissingIndent_moves hmost) .stay)

section

variable (h : Affords C B u .suite)

include h

theorem colonSuite_moves : Remains C B u colonSuite :=
  attempt_moves fun _ _ => .expect .accepts (Nat.le_refl _) (.rule h)

theorem elseSuite_moves : Remains C B u elseSuite := by
  have hbody : Remains C B u (attempt fun _ => do
      if !(← accepts "else") then return none
      colonSuite) :=
    attempt_moves fun _ _ => .expect .accepts (Nat.le_refl _) (colonSuite_moves h)
  exact hbody.bind fun _ => .stay

/-! ### Branches and loops -/

omit h in
theorem branch_moves {keyword : String} (h : Affords C B u .elifBranch) :
    Remains C B u (branch keyword) := by
  have hsuite : Affords C B u .suite := h.lower (by decide)
  refine .expect .accepts (Nat.le_refl _) (.need (.rule (h.lower (by decide))) rfl fun test => ?_)
  refine .need (colonSuite_moves hsuite) rfl fun body => .peek fun t => .ahead ?_
  split
  · exact .mark fun start _ => .need (.rule h) rfl fun _ => .spanSince fun _ => .stay
  · exact (elseSuite_moves hsuite).bind fun _ => .stay

theorem whileLoop_moves : Remains C B u whileLoop := by
  refine Moves.accepts.bind fun _ => .need (.rule (h.lower (by decide))) rfl fun test => ?_
  refine .need (colonSuite_moves h) rfl fun body => ?_
  exact (elseSuite_moves h).bind fun _ => .stay

theorem forLoop_moves {isAsync : Bool} : Remains C B u (forLoop isAsync) := by
  refine .expect .accepts (Nat.le_refl _)
    (.need (targetTuple_moves (h.lower (by decide))) rfl fun target => ?_)
  refine .expect .accepts (Nat.le_refl _)
    (.need (spreadTuple_moves (h.lower (by decide))) rfl fun iter => ?_)
  refine .need (colonSuite_moves h) rfl fun body => ?_
  exact (elseSuite_moves h).bind fun _ => .stay

theorem parenthesizedContexts_moves : Remains C B u parenthesizedContexts := by
  refine attempt_moves fun _ _ => .expect .accepts (Nat.le_refl _) ?_
  refine .need (contextItems_moves (h.lower (by decide))) rfl fun items => ?_
  refine Moves.accepts.bind fun _ => .expect .accepts (Nat.le_refl _) ?_
  exact .need (colonSuite_moves h) rfl fun _ => .stay

theorem contexts_moves {isAsync : Bool} : Remains C B u (do
    if let some (items, body) ← parenthesizedContexts then
      return some (StmtForm.with items body isAsync)
    let some items ← separated "," contextItem | return none
    let some body ← colonSuite | return none
    return some (.with items body isAsync)) :=
  .option (parenthesizedContexts_moves h) (fun _ => .stay)
    (.need (contextItems_moves (h.lower (by decide))) rfl fun _ =>
      .need (colonSuite_moves h) rfl fun _ => .stay)

theorem contextStmt_moves {isAsync : Bool} : Remains C B u (contextStmt isAsync) := by
  refine .expect .accepts (Nat.le_refl _) ?_
  cases isAsync with
  | true => exact contexts_moves h
  | false => exact .ifThen .accepts (rawWith_moves (h.lower (by decide))) (contexts_moves h)

/-! ### Exceptions -/

theorem handlerBody_moves {start : Nat} {exception : Option Expr} {id : Option String} :
    Remains C B u (do
      let some body ← colonSuite | return none
      return some ⟨exception, id, body, ← spanSince start⟩ : Match (Option Handler)) :=
  .need (colonSuite_moves h) rfl fun _ => .spanSince fun _ => .stay

theorem exceptHandler_moves : Remains C B u exceptHandler := by
  refine attempt_moves fun start _ => .expect .accepts (Nat.le_refl _) ?_
  refine Moves.bind (.rule (h.lower (by decide))) fun exception => ?_
  cases exception with
  | none => exact handlerBody_moves h
  | some value =>
    refine .ifThen .accepts ?_ (handlerBody_moves h)
    exact .need identifier_moves rfl fun _ => handlerBody_moves h

theorem finally_moves {body orelse : List Stmt} {handlers : List Handler} :
    Remains C B u (do
      let mut finalbody := []
      if ← accepts "finally" then
        let some stmts ← colonSuite | return none
        finalbody := stmts
      if handlers.isEmpty && finalbody.isEmpty then return none
      return some (StmtForm.try body handlers orelse finalbody)) := by
  have hend {finalbody : List Stmt} : Remains C B u (do
      if handlers.isEmpty && finalbody.isEmpty then return none
      return some (StmtForm.try body handlers orelse finalbody) : Match (Option StmtForm)) := by
    split
    · exact .stay
    · exact .stay
  exact .ifThen .accepts (.need (colonSuite_moves h) rfl fun _ => hend) hend

theorem tryForm_moves : Remains C B u tryForm := by
  refine Moves.accepts.bind fun _ => .need (colonSuite_moves h) rfl fun body => ?_
  refine (Moves.many (exceptHandler_moves h)).bind fun handlers => ?_
  split
  · exact finally_moves h
  · exact (elseSuite_moves h).bind fun _ => finally_moves h

/-! ### Definitions -/

theorem functionDefinition_moves {decorators : List Expr} {isAsync : Bool} :
    Remains C B u (functionDefinition decorators isAsync) := by
  refine .expect .accepts (Nat.le_refl _) (.need identifier_moves rfl fun id => ?_)
  refine .expect .accepts (Nat.le_refl _)
    (.need (parameterList_moves (h.lower (by decide))) rfl fun args => ?_)
  refine .expect .accepts (Nat.le_refl _) ?_
  exact .need (returnAnnotation_moves (h.lower (by decide))) rfl fun _ =>
    .need (colonSuite_moves h) rfl fun _ => .stay

theorem classDefinition_moves {decorators : List Expr} :
    Remains C B u (classDefinition decorators) :=
  .expect .accepts (Nat.le_refl _) (.need identifier_moves rfl fun _ =>
    .need (classArguments_moves (h.lower (by decide))) rfl fun _ =>
      .need (colonSuite_moves h) rfl fun _ => .stay)

theorem decorator_moves : Remains C B u decorator :=
  attempt_moves fun _ _ => .expect .accepts (Nat.le_refl _)
    (.need (.rule (h.lower (by decide))) rfl fun _ =>
      .expect (.acceptsAnyKind (h.most rfl)) (Nat.le_refl _) .stay)

theorem decoratedDefinition_moves : Remains C B u decoratedDefinition := by
  refine .need (.many1 (decorator_moves h)) rfl fun decorators => .peek fun t => ?_
  split
  case h_1 => exact .ahead (functionDefinition_moves h)
  case h_2 => exact .ahead (classDefinition_moves h)
  case h_3 => exact .nextAny (h.most rfl) (functionDefinition_moves h)
  case h_4 => exact .ahead .stay

theorem asyncForm_moves : Remains C B u asyncForm := by
  refine Moves.accepts.bind fun _ => .peek fun t => .ahead ?_
  split
  · exact functionDefinition_moves h
  · exact forLoop_moves h
  · exact contextStmt_moves h
  · exact .stay

end

/-! ### Statements -/

theorem stmtOfForm_moves {start : Nat} {m : Match (Option StmtForm)}
    {next : Option StmtForm → Match (Option Stmt)} (hm : Remains C B u m)
    (hnone : next none = .done none) (hsome : ∀ form, next (some form) = stmtNode start form) :
    Remains C B u (m >>= next) :=
  .need hm hnone fun form => hsome form ▸ stmtNode_moves

theorem blockStmt_moves (h : Affords C B u .elifBranch) : Remains C B u blockStmt := by
  have hsuite : Affords C B u .suite := h.lower (by decide)
  refine attempt_moves fun start _ => .peek fun t => .ahead ?_
  dsimp only
  split
  case h_1 => exact stmtOfForm_moves (decoratedDefinition_moves hsuite) rfl fun _ => rfl
  case h_2 => exact stmtOfForm_moves (functionDefinition_moves hsuite) rfl fun _ => rfl
  case h_3 => exact stmtOfForm_moves (classDefinition_moves hsuite) rfl fun _ => rfl
  case h_4 => exact stmtOfForm_moves (branch_moves h) rfl fun _ => rfl
  case h_5 => exact stmtOfForm_moves (whileLoop_moves hsuite) rfl fun _ => rfl
  case h_6 => exact stmtOfForm_moves (forLoop_moves hsuite) rfl fun _ => rfl
  case h_7 => exact stmtOfForm_moves (contextStmt_moves hsuite) rfl fun _ => rfl
  case h_8 => exact stmtOfForm_moves (tryForm_moves hsuite) rfl fun _ => rfl
  case h_9 => exact stmtOfForm_moves (asyncForm_moves hsuite) rfl fun _ => rfl
  case h_10 => exact .stay

theorem stmtListRule_moves (h : Affords C B u .elifBranch) : Remains C B u stmtListRule := by
  have hline : Remains C B u stmtOrLine :=
    .option (blockStmt_moves h) (fun _ => .stay) (stmtLine_moves (h.lower (by decide)))
  exact mapped_moves (.many1 hline)

theorem programRule_moves (h : Affords C B u .stmtList) : Remains C B u programRule :=
  Moves.bind (.rule h) fun _ => .expect (.acceptsKind (by decide)) (Nat.le_refl _) .stay

theorem soleExprRule_moves (h : Affords C B u .expr) (hmost : C.most ≤ u) :
    Remains C B u soleExprRule :=
  .need (exprTuple_moves h) rfl fun _ => Moves.bind (.many (.ofAnyKind hmost)) fun _ =>
    .expect (.acceptsKind (by decide)) (Nat.le_refl _) .stay

end ShellSyntax.Language
