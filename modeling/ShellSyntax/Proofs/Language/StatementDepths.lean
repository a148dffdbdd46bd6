import ShellSyntax.Language.Grammar
import ShellSyntax.Proofs.Language.ExpressionDepths

/-! How deep statements go, and so every rule of the grammar. -/

namespace ShellSyntax.Language

open Matcher

variable {W : World} {top base depth : Nat} {t : Token}

theorem stmtNode_stays {start : Nat} {form : StmtForm} :
    Stays W top opensFirst base depth (stmtNode start form) :=
  .spanSince fun _ => .stay

section

variable (hbase : base ≤ depth)

include hbase

/-! ### Assignments -/

theorem annotatedAssignment_stays : Stays W top opensFirst base depth annotatedAssignment := by
  have hvalue : Stays W top opensFirst base depth (attempt fun _ => do
      if !(← accepts "=") then return none
      yieldOrTuple) :=
    attempt_stays fun _ _ => .expect (.acceptsSign (by decide)) (yieldOrTuple_stays hbase)
  refine attempt_stays fun _ _ => .need (restricted_stays hbase) rfl fun target => ?_
  refine .expect (.acceptsSign (by decide)) (.need (rule_stays hbase) rfl fun _ => ?_)
  exact hvalue.bind fun _ => stmtNode_stays

theorem assignmentTarget_stays : Stays W top opensFirst base depth assignmentTarget :=
  attempt_stays fun _ _ => .need (targetTuple_stays hbase) rfl fun _ =>
    .expect (.acceptsSign (by decide)) .stay

theorem plainAssignment_stays : Stays W top opensFirst base depth plainAssignment := by
  refine attempt_stays fun _ _ => .need (.many1 (assignmentTarget_stays hbase)) rfl fun _ => ?_
  refine .need (yieldOrTuple_stays hbase) rfl fun value => ?_
  exact .ifThen (.lookahead .spelled) .stay stmtNode_stays

theorem augmentedAssignment_stays : Stays W top opensFirst base depth augmentedAssignment :=
  attempt_stays fun _ _ => .need (restricted_stays hbase) rfl fun _ =>
    .need augmentedOperator_stays rfl fun _ =>
      .need (yieldOrTuple_stays hbase) rfl fun _ => stmtNode_stays

theorem assignment_stays : Stays W top opensFirst base depth assignment :=
  .option (annotatedAssignment_stays hbase) (fun _ => .stay)
    (.option (plainAssignment_stays hbase) (fun _ => .stay) (augmentedAssignment_stays hbase))

/-! ### Imports -/

omit hbase in
theorem identifier_stays : Stays W top opensFirst base depth identifier :=
  mapped_stays .name

omit hbase in
theorem modulePath_stays : Stays W top opensFirst base depth modulePath :=
  mapped_stays (.separated (by decide) identifier_stays)

omit hbase in
theorem aliased_stays {id : Match (Option String)} (hid : Stays W top opensFirst base depth id) :
    Stays W top opensFirst base depth (aliased id) := by
  refine attempt_stays fun _ _ => .need hid rfl fun imported => ?_
  refine (Nests.acceptsSign (by decide)).bind fun found => ?_
  split
  · exact .stay
  · exact .need identifier_stays rfl fun _ => .stay

omit hbase in
theorem plainImport_stays : Stays W top opensFirst base depth plainImport :=
  (Nests.acceptsSign (by decide)).bind fun _ =>
    mapped_stays (.separated (by decide) (aliased_stays modulePath_stays))

omit hbase in
theorem leadingDots_stays : Stays W top opensFirst base depth leadingDots :=
  (Nests.many (oneOf_stays (by decide))).bind fun _ => .stay

omit hbase in
theorem importTargets_stays : Stays W top opensFirst base depth importTargets := by
  refine attempt_stays fun _ _ => .ifThen (.acceptsSign (by decide)) .stay ?_
  refine Nests.accepts.bind fun parenthesized => ?_
  rw [depthBehind_opener (by decide)]
  have hnames {depth : Nat} :
      Stays W top opensFirst base depth (separated "," (aliased identifier)) :=
    .separated (by decide) (aliased_stays identifier_stays)
  cases parenthesized with
  | true =>
    refine .needInside hnames rfl fun names => (Nests.acceptsSign (by decide)).bind fun _ => ?_
    exact .expectCloser (by decide) .stay
  | false => exact .need hnames rfl fun names => .ifThen (.lookahead .spelled) .stay .stay

omit hbase in
theorem fromImport_stays : Stays W top opensFirst base depth fromImport := by
  refine (Nests.acceptsSign (by decide)).bind fun _ => leadingDots_stays.bind fun level => ?_
  refine modulePath_stays.bind fun path => ?_
  split
  · exact .stay
  · exact .expect (.acceptsSign (by decide)) (.need importTargets_stays rfl fun _ => .stay)

/-! ### Statements of one keyword -/

theorem optionalExpression_stays {separator : String} (hseparator : isNoBracket separator = true) :
    Stays W top opensFirst base depth (optionalExpression separator) :=
  attempt_stays fun _ _ => .expect (.acceptsSign hseparator) (rule_stays hbase)

theorem raising_stays : Stays W top opensFirst base depth raising := by
  refine (Nests.acceptsSign (by decide)).bind fun _ => ?_
  refine .option (rule_stays hbase) (fun exc => ?_) .stay
  exact (optionalExpression_stays hbase (by decide)).bind fun _ => .stay

theorem deletion_stays : Stays W top opensFirst base depth deletion := by
  refine (Nests.acceptsSign (by decide)).bind fun _ => ?_
  refine .need (.separated (by decide) (restricted_stays hbase)) rfl fun targets => ?_
  refine (Nests.acceptsSign (by decide)).bind fun _ => .peek fun t => .ahead ?_
  split
  · exact .stay
  · exact .stay

theorem assertion_stays : Stays W top opensFirst base depth assertion := by
  refine (Nests.acceptsSign (by decide)).bind fun _ => .need (rule_stays hbase) rfl fun test => ?_
  exact (optionalExpression_stays hbase (by decide)).bind fun _ => .stay

omit hbase in
theorem scopeDeclaration_nests (hname : t.kind = .name) :
    NestsAt t W top opensFirst base depth scopeDeclaration fun _ => depth :=
  .nextSign (hname ▸ nofun) (.need (.separated (by decide) identifier_stays) rfl fun _ => .stay)

theorem keywordStatement_nests {keyword : String} (hname : t.kind = .name) :
    NestsAt t W top opensFirst base depth (keywordStatement keyword) fun _ => depth := by
  have hsign : t.kind = .op → isNoBracket t.text = true :=
    hname ▸ nofun
  unfold keywordStatement
  split
  case h_1 => exact .nextSign hsign .stay
  case h_2 => exact .nextSign hsign .stay
  case h_3 => exact .nextSign hsign .stay
  case h_4 => exact .nextSign hsign (Nests.bind (spreadTuple_stays hbase) fun _ => .stay)
  case h_5 => exact .ahead (mapped_stays (yielded_stays hbase))
  case h_6 => exact .ahead plainImport_stays
  case h_7 => exact .ahead fromImport_stays
  case h_8 => exact .ahead (raising_stays hbase)
  case h_9 => exact .ahead (deletion_stays hbase)
  case h_10 => exact .ahead (assertion_stays hbase)
  case h_11 => exact scopeDeclaration_nests hname
  case h_12 => exact scopeDeclaration_nests hname
  case h_13 => exact .ahead .stay

theorem smallStmtRule_stays : Stays W top opensFirst base depth smallStmtRule := by
  refine attempt_stays fun start _ => .diagnosis (rejectTarget_stays hbase) ?_
  refine .option (assignment_stays hbase) (fun _ => .stay) ?_
  refine .option (spreadTuple_stays hbase) (fun _ => stmtNode_stays) (.peek fun t => ?_)
  split
  case isTrue => exact .ahead .stay
  case isFalse hkind =>
    have hname : t.kind = .name := by simpa using hkind
    refine (keywordStatement_nests hbase hname).bind ?_
    rintro (_ | form)
    · exact .stay
    · exact stmtNode_stays

theorem stmtLine_stays : Stays W top opensFirst base depth stmtLine :=
  attempt_stays fun _ _ => .need (.separated (by decide) (rule_stays hbase)) rfl fun _ =>
    (Nests.acceptsSign (by decide)).bind fun _ => .expect (.acceptsKind (by decide)) .stay

/-! ### Blocks -/

theorem indentedSuite_stays : Stays W top opensFirst base depth indentedSuite :=
  attempt_stays fun _ _ => .expect (.acceptsKind (by decide)) (.expect (.acceptsKind (by decide))
    (.need (rule_stays hbase) rfl fun _ => .expect (.acceptsKind (by decide)) .stay))

theorem suiteRule_stays : Stays W top opensFirst base depth suiteRule :=
  .option (indentedSuite_stays hbase) (fun _ => .stay)
    (.option (stmtLine_stays hbase) (fun _ => .stay) (.diagnosis rejectMissingIndent_stays .stay))

theorem colonSuite_stays : Stays W top opensFirst base depth colonSuite :=
  attempt_stays fun _ _ => .expect (.acceptsSign (by decide)) (rule_stays hbase)

theorem elseSuite_stays : Stays W top opensFirst base depth elseSuite := by
  have hbody : Stays W top opensFirst base depth (attempt fun _ => do
      if !(← accepts "else") then return none
      colonSuite) :=
    attempt_stays fun _ _ => .expect (.acceptsSign (by decide)) (colonSuite_stays hbase)
  exact hbody.bind fun _ => .stay

/-! ### Branches and loops -/

theorem branch_stays {keyword : String} (hkeyword : isNoBracket keyword = true) :
    Stays W top opensFirst base depth (branch keyword) := by
  refine .expect (.acceptsSign hkeyword) (.need (rule_stays hbase) rfl fun test => ?_)
  refine .need (colonSuite_stays hbase) rfl fun body => .peek fun t => .ahead ?_
  split
  · exact .mark fun start _ => .need (rule_stays hbase) rfl fun _ => .spanSince fun _ => .stay
  · exact (elseSuite_stays hbase).bind fun _ => .stay

theorem whileLoop_stays : Stays W top opensFirst base depth whileLoop := by
  refine (Nests.acceptsSign (by decide)).bind fun _ => .need (rule_stays hbase) rfl fun test => ?_
  refine .need (colonSuite_stays hbase) rfl fun body => ?_
  exact (elseSuite_stays hbase).bind fun _ => .stay

theorem forLoop_stays {isAsync : Bool} : Stays W top opensFirst base depth (forLoop isAsync) := by
  refine .expect (.acceptsSign (by decide)) (.need (targetTuple_stays hbase) rfl fun target => ?_)
  refine .expect (.acceptsSign (by decide)) (.need (spreadTuple_stays hbase) rfl fun iter => ?_)
  refine .need (colonSuite_stays hbase) rfl fun body => ?_
  exact (elseSuite_stays hbase).bind fun _ => .stay

/-! ### Contexts -/

theorem contextTarget_stays : Stays W top opensFirst base depth contextTarget := by
  refine attempt_stays fun _ _ => .expect (.acceptsSign (by decide)) ?_
  refine .need (rule_stays hbase) rfl fun target => .peek fun t => .ahead ?_
  split
  · exact .stay
  · exact .stay

theorem contextItem_stays : Stays W top opensFirst base depth contextItem :=
  .need (rule_stays hbase) rfl fun _ => (contextTarget_stays hbase).bind fun _ => .stay

theorem contextItems_stays : Stays W top opensFirst base depth (separated "," contextItem) :=
  .separated (by decide) (contextItem_stays hbase)

theorem rejectMissingColon_stays : Stays W top opensFirst base depth rejectMissingColon := by
  refine inspect_stays (.option (contextItems_stays hbase) (fun _ => ?_) .stay)
  refine .peek fun t => .ahead ?_
  split
  · exact .raise
  · exact .stay

theorem rawWith_stays : Stays W top opensFirst base depth rawWith :=
  .diagnosis (rejectMissingColon_stays hbase) (.need (contextItems_stays hbase) rfl fun _ =>
    .expect (.acceptsSign (by decide)) (.need (.ofKind (by decide)) rfl fun _ => .stay))

theorem parenthesizedContexts_stays :
    Stays W top opensFirst base depth parenthesizedContexts := by
  refine attempt_stays fun _ _ => .expectOpener (by decide) ?_
  refine .needInside (contextItems_stays (Nat.le_succ_of_le hbase)) rfl fun items => ?_
  refine (Nests.acceptsSign (by decide)).bind fun _ => .expectCloser (by decide) ?_
  exact .need (colonSuite_stays hbase) rfl fun _ => .stay

theorem contexts_stays {isAsync : Bool} : Stays W top opensFirst base depth (do
    if let some (items, body) ← parenthesizedContexts then
      return some (StmtForm.with items body isAsync)
    let some items ← separated "," contextItem | return none
    let some body ← colonSuite | return none
    return some (.with items body isAsync)) :=
  .option (parenthesizedContexts_stays hbase) (fun _ => .stay)
    (.need (contextItems_stays hbase) rfl fun _ =>
      .need (colonSuite_stays hbase) rfl fun _ => .stay)

theorem contextStmt_stays {isAsync : Bool} :
    Stays W top opensFirst base depth (contextStmt isAsync) := by
  refine .expect (.acceptsSign (by decide)) ?_
  cases isAsync with
  | true => exact contexts_stays hbase
  | false => exact .ifThen (.acceptsSign (by decide)) (rawWith_stays hbase) (contexts_stays hbase)

/-! ### Exceptions -/

theorem handlerBody_stays {start : Nat} {exception : Option Expr} {id : Option String} :
    Stays W top opensFirst base depth (do
      let some body ← colonSuite | return none
      return some ⟨exception, id, body, ← spanSince start⟩ : Match (Option Handler)) :=
  .need (colonSuite_stays hbase) rfl fun _ => .spanSince fun _ => .stay

theorem exceptHandler_stays : Stays W top opensFirst base depth exceptHandler := by
  refine attempt_stays fun start _ => .expect (.acceptsSign (by decide)) ?_
  refine Nests.bind (rule_stays hbase) fun exception => ?_
  cases exception with
  | none => exact handlerBody_stays hbase
  | some value =>
    refine .ifThen (.acceptsSign (by decide)) ?_ (handlerBody_stays hbase)
    exact .need identifier_stays rfl fun _ => handlerBody_stays hbase

theorem finally_stays {body orelse : List Stmt} {handlers : List Handler} :
    Stays W top opensFirst base depth (do
      let mut finalbody := []
      if ← accepts "finally" then
        let some stmts ← colonSuite | return none
        finalbody := stmts
      if handlers.isEmpty && finalbody.isEmpty then return none
      return some (StmtForm.try body handlers orelse finalbody)) := by
  have hend {finalbody : List Stmt} : Stays W top opensFirst base depth (do
      if handlers.isEmpty && finalbody.isEmpty then return none
      return some (StmtForm.try body handlers orelse finalbody) : Match (Option StmtForm)) := by
    split
    · exact .stay
    · exact .stay
  exact .ifThen (.acceptsSign (by decide)) (.need (colonSuite_stays hbase) rfl fun _ => hend) hend

theorem tryForm_stays : Stays W top opensFirst base depth tryForm := by
  refine (Nests.acceptsSign (by decide)).bind fun _ => ?_
  refine .need (colonSuite_stays hbase) rfl fun body => ?_
  refine (Nests.many (exceptHandler_stays hbase)).bind fun handlers => ?_
  split
  · exact finally_stays hbase
  · exact (elseSuite_stays hbase).bind fun _ => finally_stays hbase

/-! ### Definitions -/

theorem returnAnnotation_stays : Stays W top opensFirst base depth returnAnnotation := by
  refine (Nests.acceptsSign (by decide)).bind fun found => ?_
  split
  · exact .stay
  · exact .need (rule_stays hbase) rfl fun _ => .stay

theorem functionDefinition_stays {decorators : List Expr} {isAsync : Bool} :
    Stays W top opensFirst base depth (functionDefinition decorators isAsync) := by
  refine .expect (.acceptsSign (by decide)) (.need identifier_stays rfl fun id => ?_)
  refine .expectOpener (by decide) (.needInside ?_ rfl fun args => .expectCloser (by decide) ?_)
  · exact parameterList_stays (Nat.le_succ_of_le hbase)
  · exact .need (returnAnnotation_stays hbase) rfl fun _ =>
      .need (colonSuite_stays hbase) rfl fun _ => .stay

theorem classArguments_stays : Stays W top opensFirst base depth classArguments :=
  .unlessOpener (by decide) .stay
    (.needInside (argumentList_stays (Nat.le_succ_of_le hbase)) rfl fun _ =>
      .expectCloser (by decide) .stay)

theorem classDefinition_stays {decorators : List Expr} :
    Stays W top opensFirst base depth (classDefinition decorators) :=
  .expect (.acceptsSign (by decide)) (.need identifier_stays rfl fun _ =>
    .need (classArguments_stays hbase) rfl fun _ =>
      .need (colonSuite_stays hbase) rfl fun _ => .stay)

theorem decorator_stays : Stays W top opensFirst base depth decorator :=
  attempt_stays fun _ _ => .expect (.acceptsSign (by decide)) (.need (rule_stays hbase) rfl fun _ =>
    .expect (.acceptsKind (by decide)) .stay)

theorem decoratedDefinition_stays : Stays W top opensFirst base depth decoratedDefinition := by
  refine .need (.many1 (decorator_stays hbase)) rfl fun decorators => .peek fun t => ?_
  split
  case h_1 => exact .ahead (functionDefinition_stays hbase)
  case h_2 => exact .ahead (classDefinition_stays hbase)
  case h_3 htext =>
    refine .nextSign (fun _ => ?_) (functionDefinition_stays hbase)
    rw [htext]
    decide
  case h_4 => exact .ahead .stay

theorem asyncForm_stays : Stays W top opensFirst base depth asyncForm := by
  refine (Nests.acceptsSign (by decide)).bind fun _ => .peek fun t => .ahead ?_
  split
  · exact functionDefinition_stays hbase
  · exact forLoop_stays hbase
  · exact contextStmt_stays hbase
  · exact .stay

/-! ### Statements -/

omit hbase in
theorem stmtOfForm_stays {start : Nat} {m : Match (Option StmtForm)}
    {next : Option StmtForm → Match (Option Stmt)} (hm : Stays W top opensFirst base depth m)
    (hnone : next none = .done none) (hsome : ∀ form, next (some form) = stmtNode start form) :
    Stays W top opensFirst base depth (m >>= next) :=
  .need hm hnone fun form => hsome form ▸ stmtNode_stays

theorem blockStmt_stays : Stays W top opensFirst base depth blockStmt := by
  refine attempt_stays fun start _ => .peek fun t => .ahead ?_
  dsimp only
  split
  case h_1 => exact stmtOfForm_stays (decoratedDefinition_stays hbase) rfl fun _ => rfl
  case h_2 => exact stmtOfForm_stays (functionDefinition_stays hbase) rfl fun _ => rfl
  case h_3 => exact stmtOfForm_stays (classDefinition_stays hbase) rfl fun _ => rfl
  case h_4 => exact stmtOfForm_stays (branch_stays hbase (by decide)) rfl fun _ => rfl
  case h_5 => exact stmtOfForm_stays (whileLoop_stays hbase) rfl fun _ => rfl
  case h_6 => exact stmtOfForm_stays (forLoop_stays hbase) rfl fun _ => rfl
  case h_7 => exact stmtOfForm_stays (contextStmt_stays hbase) rfl fun _ => rfl
  case h_8 => exact stmtOfForm_stays (tryForm_stays hbase) rfl fun _ => rfl
  case h_9 => exact stmtOfForm_stays (asyncForm_stays hbase) rfl fun _ => rfl
  case h_10 => exact .stay

theorem stmtOrLine_stays : Stays W top opensFirst base depth stmtOrLine :=
  .option (blockStmt_stays hbase) (fun _ => .stay) (stmtLine_stays hbase)

theorem stmtListRule_stays : Stays W top opensFirst base depth stmtListRule :=
  mapped_stays (.many1 (stmtOrLine_stays hbase))

theorem programRule_stays : Stays W top opensFirst base depth programRule :=
  Nests.bind (rule_stays hbase) fun _ => .expect (.acceptsKind (by decide)) .stay

theorem soleExprRule_stays : Stays W top opensFirst base depth soleExprRule :=
  .need (exprTuple_stays hbase) rfl fun _ =>
    Nests.bind (.many (.ofKind (by decide))) fun _ => .expect (.acceptsKind (by decide)) .stay

end

/-! ### The grammar -/

/-- The bodies of the rules count no level that is not a bracket around what they read. -/
theorem grammar_nests : grammar.Nests opensFirst := by
  intro r W top depth
  cases r with
  | program => exact programRule_stays (Nat.le_refl _)
  | soleExpr => exact soleExprRule_stays (Nat.le_refl _)
  | stmtList => exact stmtListRule_stays (Nat.le_refl _)
  | smallStmt => exact smallStmtRule_stays (Nat.le_refl _)
  | suite => exact suiteRule_stays (Nat.le_refl _)
  | elifBranch => exact branch_stays (Nat.le_refl _) (by decide)
  | exprOrSpread => exact spreadOr_stays (Nat.le_refl _) (rule_stays (Nat.le_refl _))
  | bindingExpr => exact bindingExprRule_stays (Nat.le_refl _)
  | expr => exact exprRule_stays (Nat.le_refl _)
  | orExpr => exact boolOperands_stays (by decide) (rule_stays (Nat.le_refl _))
  | andExpr => exact boolOperands_stays (by decide) (rule_stays (Nat.le_refl _))
  | notExpr => exact notExprRule_stays (Nat.le_refl _)
  | bitOrExpr | bitXorExpr | bitAndExpr | shiftedExpr | addExpr | mulExpr =>
    exact leftAssoc_stays (rule_stays (Nat.le_refl _)) (rule_stays (Nat.le_refl _))
  | signedExpr => exact signedExprRule_stays (Nat.le_refl _)
  | awaitExpr => exact awaitExprRule_stays (Nat.le_refl _)
  | postfixExpr => exact postfixExprRule_stays (Nat.le_refl _)
  | atomicExpr => exact atomicExprRule_stays (Nat.le_refl _)
  | stringRun => exact stringRunRule_stays (Nat.le_refl _)
  | commandExpr => exact commandExprRule_stays (Nat.le_refl _)
  | targetItem => exact targetItemRule_stays (Nat.le_refl _)
  | fstringInside raw => exact fstringInsideRule_stays (Nat.le_refl _)

end ShellSyntax.Language
