import ShellSyntax.Language.Grammar
import ShellSyntax.Proofs.Language.AlikeExpressions

/-!
Statements are matched alike in two programs that differ in their line ends, and so is all that the
grammar has rules for.
-/

namespace ShellSyntax

open Text

variable {lines : List (List Char)} {joints : Bool}

/-! ### Texts that are compared -/

namespace Token.Twin

variable {t t' : Token}

/-- The texts are equal, or neither is one of these words, in which no line ends. -/
theorem text_cases (h : t.Twin lines t') (words : List String)
    (hwords : ∀ word ∈ words, '\n' ∉ word.toList) :
    t'.text = t.text ∨ t.text ∉ words ∧ t'.text ∉ words := by
  by_cases hfeed : '\n' ∈ t.text.toList
  · exact .inr ⟨fun hmem => hwords _ hmem hfeed,
      fun hmem => hwords _ hmem (h.text.feed_mem_iff.mpr hfeed)⟩
  · exact .inl (String.toList_inj.mp (h.text.eq_of_no_feed hfeed))

theorem text_beq (h : t.Twin lines t') {text : String} (htext : '\n' ∉ text.toList) :
    (t'.text == text) = (t.text == text) := by
  rcases h.text_cases [text] (by simpa using htext) with heq | ⟨hother, hother'⟩
  · rw [heq]
  · rw [List.mem_singleton] at hother hother'
    rw [beq_eq_false_iff_ne.mpr hother, beq_eq_false_iff_ne.mpr hother']

theorem isOp_eq (h : t.Twin lines t') {text : String} (htext : '\n' ∉ text.toList) :
    t'.isOp text = t.isOp text := by
  rw [isOp, isOp, h.kind, h.text_beq htext]

end Token.Twin

namespace Language

open Matcher

abbrev PairsForms (lines : List (List Char)) (joints : Bool) (m m' : Match (Option StmtForm)) :
    Prop :=
  Pairs lines joints (StmtForm.Like lines joints) m m'

abbrev PairsBodies (lines : List (List Char)) (joints : Bool) (m m' : Match (Option (List Stmt))) :
    Prop :=
  Pairs lines joints (List.Forall₂ (Stmt.Like lines joints)) m m'

/-! ### Assignments -/

theorem annotatedAssignment_pairs :
    Pairs lines joints (Stmt.Like lines joints) annotatedAssignment annotatedAssignment := by
  refine .attempt fun start => .option soleTarget_pairs .none fun target target' htarget => ?_
  refine .expect (.accepts ":") (.option (.call .expr) .none fun hint hint' hhint => ?_)
  refine .bind (.attempt fun _ => .expect (.accepts "=") yieldOrTuple_pairs) ?_
  exact fun value value' hvalue => .stmtNode (.annotated htarget hhint hvalue)

theorem assignmentTarget_pairs : PairsExprs lines joints assignmentTarget assignmentTarget :=
  .attempt fun _ => .option targetTuple_pairs .none fun _ _ htarget =>
    .expect (.accepts "=") (.some htarget)

theorem plainAssignment_pairs :
    Pairs lines joints (Stmt.Like lines joints) plainAssignment plainAssignment := by
  refine .attempt fun start => .option (.many1 assignmentTarget_pairs) .none ?_
  intro targets targets' htargets
  refine .option yieldOrTuple_pairs .none fun value value' hvalue => ?_
  exact .ifThen (.lookahead (.spelled "=")) .none (.stmtNode (.assign htargets hvalue))

theorem augmentedOperator_pairs : Pairs lines joints Eq augmentedOperator augmentedOperator := by
  refine .bind .peek fun token token' htoken => ?_
  rw [htoken.1.kind]
  by_cases hkind : token.kind = .op
  · rw [htoken.1.text_eq (by rw [hkind]; rfl)]
    refine .ite .none ?_
    split
    · exact .none
    · exact .bind .next fun _ _ _ => .some rfl
  · rw [if_pos (bne_iff_ne.mpr hkind), if_pos (bne_iff_ne.mpr hkind)]
    exact .none

theorem augmentedAssignment_pairs :
    Pairs lines joints (Stmt.Like lines joints) augmentedAssignment augmentedAssignment := by
  refine .attempt fun start => .option soleTarget_pairs .none fun target target' htarget => ?_
  refine .option augmentedOperator_pairs .none ?_
  rintro op _ rfl
  exact .option yieldOrTuple_pairs .none fun _ _ hvalue => .stmtNode (.augmented op htarget hvalue)

theorem assignment_pairs : Pairs lines joints (Stmt.Like lines joints) assignment assignment :=
  .option annotatedAssignment_pairs
    (.option plainAssignment_pairs augmentedAssignment_pairs fun _ _ hstmt => .some hstmt)
    fun _ _ hstmt => .some hstmt

/-! ### Imports -/

theorem identifier_pairs : Pairs lines joints Eq identifier identifier := by
  refine .map .name ?_
  rintro _ _ (⟨_, _, htext⟩ | _)
  · exact .some htext.symm
  · exact .none

theorem modulePath_pairs : Pairs lines joints Eq modulePath modulePath := by
  refine .map (.separated identifier_pairs) ?_
  rintro _ _ (hnames | _)
  · obtain rfl := List.forall₂_eq_eq_eq ▸ hnames
    exact .some rfl
  · exact .none

theorem aliased_pairs {id : Match (Option String)} (hid : Pairs lines joints Eq id id) :
    Pairs lines joints Eq (aliased id) (aliased id) := by
  refine .attempt fun _ => .option hid .none ?_
  rintro imported _ rfl
  refine .ifNot (.accepts "as") (.some rfl) (.option identifier_pairs .none ?_)
  rintro asname _ rfl
  exact .some rfl

/-- Equal names are imported. -/
theorem imported_pairs {id : Match (Option String)} (hid : Pairs lines joints Eq id id) :
    Pairs lines joints Eq (separated "," (aliased id)) (separated "," (aliased id)) := by
  refine (Mirrors.separated (aliased_pairs hid)).mono ?_
  rintro _ _ (hnames | _)
  · exact .some (List.forall₂_eq_eq_eq ▸ hnames)
  · exact .none

theorem plainImport_pairs : PairsForms lines joints plainImport plainImport := by
  refine .same (.accepts "import") fun _ => .map (imported_pairs modulePath_pairs) ?_
  rintro _ _ (⟨rfl⟩ | _)
  · exact .some (.importNames _)
  · exact .none

theorem leadingDots_pairs : Mirrors (resemblance lines joints) Eq leadingDots leadingDots := by
  refine .map (P := List.Forall₂ Eq) (.many (.mono (.oneOf _) ?_)) ?_
  · rintro (_ | dots) _ rfl
    · exact .none
    · exact .some rfl
  · intro dots dots' hdots
    obtain rfl := List.forall₂_eq_eq_eq ▸ hdots
    rfl

theorem importTargets_pairs : Pairs lines joints Eq importTargets importTargets := by
  refine .attempt fun _ => .ifThen (.accepts "*") (.some rfl) (.same (.accepts "(") ?_)
  intro parenthesized
  refine .option (imported_pairs identifier_pairs) .none ?_
  rintro names _ rfl
  cases parenthesized with
  | true => exact .same (.accepts ",") fun _ => .expect (.accepts ")") (.some rfl)
  | false => exact .ifThen (.lookahead (.spelled ",")) .none (.some rfl)

theorem fromImport_pairs : PairsForms lines joints fromImport fromImport := by
  refine .same (.accepts "from") fun _ => .same leadingDots_pairs fun level => ?_
  refine .bind modulePath_pairs fun module module' hmodule => ?_
  obtain rfl : module = module' := by
    rcases hmodule with ⟨rfl⟩ | _ <;> rfl
  refine .ite .none (.expect (.accepts "import") (.option importTargets_pairs .none ?_))
  rintro names _ rfl
  exact .some (.fromImport _ names level)

/-! ### Statements of one keyword -/

theorem optionalExpression_pairs (separator : String) :
    PairsExprs lines joints (optionalExpression separator) (optionalExpression separator) :=
  .attempt fun _ => .expect (.accepts separator) (.call .expr)

theorem raising_pairs : PairsForms lines joints raising raising := by
  refine .same (.accepts "raise") fun _ => .option (.call .expr) (.some (.raise .none .none)) ?_
  intro exc exc' hexc
  exact .map (optionalExpression_pairs "from") fun _ _ hcause => .some (.raise (.some hexc) hcause)

theorem deletion_pairs : PairsForms lines joints deletion deletion := by
  refine .same (.accepts "del") fun _ => .option (.separated deletableTarget_pairs) .none ?_
  refine fun targets targets' htargets => .same (.accepts ",") fun _ => .bind .peek ?_
  intro token token' htoken
  rw [htoken.1.kind, htoken.1.isOp_eq (by decide)]
  exact .ite (.some (.delete htargets)) .none

theorem assertion_pairs : PairsForms lines joints assertion assertion := by
  refine .same (.accepts "assert") fun _ => .option (.call .expr) .none fun test test' htest => ?_
  exact .map (optionalExpression_pairs ",") fun _ _ hmsg => .some (.assert htest hmsg)

theorem scopeDeclaration_pairs : PairsForms lines joints scopeDeclaration scopeDeclaration := by
  refine .bind .next fun keyword keyword' hkeyword => .option (.separated identifier_pairs) .none ?_
  intro names names' hnames
  obtain rfl := List.forall₂_eq_eq_eq ▸ hnames
  dsimp only
  rw [hkeyword.1.text_beq (by decide)]
  split
  · exact .some (.global names)
  · exact .some (.nonlocal names)

theorem keywordStatement_pairs (keyword : String) :
    PairsForms lines joints (keywordStatement keyword) (keywordStatement keyword) := by
  unfold keywordStatement
  split
  case h_1 => exact .bind .next fun _ _ _ => .some .pass
  case h_2 => exact .bind .next fun _ _ _ => .some .break
  case h_3 => exact .bind .next fun _ _ _ => .some .continue
  case h_4 =>
    refine .bind .next fun _ _ _ => ?_
    exact .map spreadTuple_pairs fun _ _ hvalue => .some (.return hvalue)
  case h_5 =>
    refine .map yielded_pairs ?_
    rintro _ _ (hvalue | _)
    · exact .some (.expr hvalue)
    · exact .none
  case h_6 => exact plainImport_pairs
  case h_7 => exact fromImport_pairs
  case h_8 => exact raising_pairs
  case h_9 => exact deletion_pairs
  case h_10 => exact assertion_pairs
  case h_11 => exact scopeDeclaration_pairs
  case h_12 => exact scopeDeclaration_pairs
  case h_13 => exact .none

theorem smallStmtRule_pairs :
    Pairs lines joints (Stmt.Like lines joints) smallStmtRule smallStmtRule := by
  refine .attempt fun start => .quiet ?_
  refine .option assignment_pairs ?_ fun _ _ hstmt => .some hstmt
  refine .option spreadTuple_pairs ?_ fun _ _ hvalue => .stmtNode (.expr hvalue)
  refine .bind .peek fun token token' htoken => ?_
  rw [htoken.1.kind]
  by_cases hkind : token.kind = .name
  · rw [htoken.1.text_eq (by rw [hkind]; rfl)]
    exact .ite .none (.option (keywordStatement_pairs _) .none fun _ _ hform => .stmtNode hform)
  · rw [if_pos (bne_iff_ne.mpr hkind), if_pos (bne_iff_ne.mpr hkind)]
    exact .none

theorem stmtLine_pairs : PairsBodies lines joints stmtLine stmtLine := by
  refine .attempt fun _ => .option (.separated (.call .smallStmt)) .none fun stmts stmts' hstmts => ?_
  exact .same (.accepts ";") fun _ => .expect (.acceptsKind .newline) (.some hstmts)

/-! ### Blocks -/

theorem indentedSuite_pairs : PairsBodies lines joints indentedSuite indentedSuite := by
  refine .attempt fun _ => .expect (.acceptsKind .newline) (.expect (.acceptsKind .indent) ?_)
  refine .option (.call .stmtList) .none fun body body' hbody => ?_
  exact .expect (.acceptsKind .dedent) (.some hbody)

theorem suiteRule_pairs : PairsBodies lines joints suiteRule suiteRule :=
  .option indentedSuite_pairs (.option stmtLine_pairs (.quiet .none) fun _ _ hbody => .some hbody)
    fun _ _ hbody => .some hbody

theorem colonSuite_pairs : PairsBodies lines joints colonSuite colonSuite :=
  .attempt fun _ => .expect (.accepts ":") (.call .suite)

theorem elseSuite_pairs :
    Mirrors (resemblance lines joints)
      (List.Forall₂ (Stmt.Like lines joints)) elseSuite elseSuite := by
  refine .map (.attempt fun _ => .expect (.accepts "else") colonSuite_pairs) ?_
  rintro _ _ (hbody | _)
  · exact hbody
  · exact .nil

/-! ### Branches and loops -/

theorem branch_pairs (keyword : String) :
    PairsForms lines joints (branch keyword) (branch keyword) := by
  refine .expect (.accepts keyword) (.option (.call .bindingExpr) .none fun test test' htest => ?_)
  refine .option colonSuite_pairs .none fun body body' hbody => .bind .peek ?_
  intro token token' htoken
  rw [htoken.1.text_beq (by decide)]
  refine .ite (.same .mark fun start => ?_) ?_
  · refine .option (.call .elifBranch) .none fun form form' hform => .bind (.spanSince start) ?_
    rintro span _ rfl
    exact .some (.if htest hbody (.cons (.intro hform span) .nil))
  · exact .map elseSuite_pairs fun _ _ horelse => .some (.if htest hbody horelse)

theorem whileLoop_pairs : PairsForms lines joints whileLoop whileLoop := by
  refine .same (.accepts "while") fun _ =>
    .option (.call .bindingExpr) .none fun test test' htest => ?_
  refine .option colonSuite_pairs .none fun body body' hbody => ?_
  exact .map elseSuite_pairs fun _ _ horelse => .some (.while htest hbody horelse)

theorem forLoop_pairs (isAsync : Bool) :
    PairsForms lines joints (forLoop isAsync) (forLoop isAsync) := by
  refine .expect (.accepts "for") (.option targetTuple_pairs .none fun target target' htarget => ?_)
  refine .expect (.accepts "in") (.option spreadTuple_pairs .none fun iter iter' hiter => ?_)
  refine .option colonSuite_pairs .none fun body body' hbody => ?_
  exact .map elseSuite_pairs fun _ _ horelse => .some (.for isAsync htarget hiter hbody horelse)

/-! ### Contexts -/

theorem contextTarget_pairs : PairsExprs lines joints contextTarget contextTarget := by
  refine .attempt fun _ => .expect (.accepts "as") (.option (.call .targetItem) .none ?_)
  refine fun target target' htarget => .bind .peek fun token token' htoken => ?_
  rw [htoken.1.isOp_eq (by decide), htoken.1.isOp_eq (by decide), htoken.1.isOp_eq (by decide)]
  exact .ite (.some htarget) .none

theorem contextItem_pairs :
    Pairs lines joints (ContextItem.Like lines joints) contextItem contextItem :=
  .option (.call .expr) .none fun _ _ hcontext =>
    .map contextTarget_pairs fun _ _ htarget => .some (.intro hcontext htarget)

theorem contextItems_pairs :
    Pairs lines joints (List.Forall₂ (ContextItem.Like lines joints)) (separated "," contextItem)
      (separated "," contextItem) :=
  .separated contextItem_pairs

theorem rawWith_pairs : PairsForms lines joints rawWith rawWith := by
  refine .quiet (.option contextItems_pairs .none fun items items' hitems => ?_)
  refine .expect (.accepts ":") (.option (.ofKind .macroParam) .none ?_)
  rintro suite suite' ⟨hsuite, _⟩
  exact .some (.rawWith hitems hsuite.1.text)

/-- Contexts and their statements. -/
def ContextsLike (lines : List (List Char)) (joints : Bool)
    (found found' : List ContextItem × List Stmt) : Prop :=
  List.Forall₂ (ContextItem.Like lines joints) found.1 found'.1 ∧
    List.Forall₂ (Stmt.Like lines joints) found.2 found'.2

theorem parenthesizedContexts_pairs :
    Pairs lines joints (ContextsLike lines joints) parenthesizedContexts parenthesizedContexts := by
  refine .attempt fun _ => .expect (.accepts "(") (.option contextItems_pairs .none ?_)
  refine fun items items' hitems => .same (.accepts ",") fun _ => .expect (.accepts ")") ?_
  exact .option colonSuite_pairs .none fun body body' hbody => .some ⟨hitems, hbody⟩

theorem contextStmt_pairs (isAsync : Bool) :
    PairsForms lines joints (contextStmt isAsync) (contextStmt isAsync) := by
  refine .expect (.accepts "with") ?_
  cases isAsync
  case' false => refine .ifThen (.accepts "!") rawWith_pairs ?_
  all_goals
    refine .option parenthesizedContexts_pairs ?_ ?_
    · refine .option contextItems_pairs .none fun items items' hitems => ?_
      exact .option colonSuite_pairs .none fun body body' hbody => .some (.with _ hitems hbody)
    · rintro ⟨items, body⟩ ⟨items', body'⟩ ⟨hitems, hbody⟩
      exact .some (.with _ hitems hbody)

/-! ### Exceptions -/

theorem handled_pairs (start : Mark) {exception exception' : Option Expr}
    (hexception : Option.Rel (Expr.Like lines joints) exception exception') (id : Option String) :
    Pairs lines joints (Handler.Like lines joints)
      (do
        let some body ← colonSuite | return none
        return some ⟨exception, id, body, ← spanSince start⟩)
      (do
        let some body ← colonSuite | return none
        return some ⟨exception', id, body, ← spanSince start⟩) := by
  refine .option colonSuite_pairs .none fun body body' hbody => .bind (.spanSince start) ?_
  rintro span _ rfl
  exact .some (.intro id span hexception hbody)

theorem exceptHandler_pairs :
    Pairs lines joints (Handler.Like lines joints) exceptHandler exceptHandler := by
  refine .attempt fun start => .expect (.accepts "except") (.bind (.call .expr) ?_)
  rintro _ _ (hexception | _)
  · refine .ifThen (.accepts "as") (.option identifier_pairs .none ?_) ?_
    · rintro id _ rfl
      exact handled_pairs start (.some hexception) (some id)
    · exact handled_pairs start (.some hexception) none
  · exact handled_pairs start .none none

theorem isEmpty_of_forall₂ {α β : Type} {Q : α → β → Prop} {items : List α} {items' : List β}
    (h : List.Forall₂ Q items items') : items'.isEmpty = items.isEmpty := by
  cases h <;> rfl

theorem finally_pairs {body body' orelse orelse' : List Stmt} {handlers handlers' : List Handler}
    (hbody : List.Forall₂ (Stmt.Like lines joints) body body')
    (hhandlers : List.Forall₂ (Handler.Like lines joints) handlers handlers')
    (horelse : List.Forall₂ (Stmt.Like lines joints) orelse orelse') (unhandled : Bool) :
    PairsForms lines joints
      (do
        let mut finalbody := []
        if ← accepts "finally" then
          let some stmts ← colonSuite | return none
          finalbody := stmts
        if unhandled && finalbody.isEmpty then return none
        return some (.try body handlers orelse finalbody))
      (do
        let mut finalbody := []
        if ← accepts "finally" then
          let some stmts ← colonSuite | return none
          finalbody := stmts
        if unhandled && finalbody.isEmpty then return none
        return some (.try body' handlers' orelse' finalbody)) := by
  refine .ifThen (.accepts "finally") (.option colonSuite_pairs .none ?_) ?_
  · intro finalbody finalbody' hfinal
    dsimp only
    rw [isEmpty_of_forall₂ hfinal]
    exact .ite .none (.some (.try hbody hhandlers horelse hfinal))
  · exact .ite .none (.some (.try hbody hhandlers horelse .nil))

theorem tryForm_pairs : PairsForms lines joints tryForm tryForm := by
  refine .same (.accepts "try") fun _ => .option colonSuite_pairs .none fun body body' hbody => ?_
  refine .bind (.many exceptHandler_pairs) fun handlers handlers' hhandlers => ?_
  dsimp only
  rw [isEmpty_of_forall₂ hhandlers]
  refine .ite (finally_pairs hbody hhandlers .nil _) (.bind elseSuite_pairs ?_)
  exact fun _ _ horelse => finally_pairs hbody hhandlers horelse _

/-! ### Definitions -/

theorem returnAnnotation_pairs :
    Pairs lines joints (Option.Rel (Expr.Like lines joints)) returnAnnotation returnAnnotation :=
  .ifNot (.accepts "->") (.some .none)
    (.option (.call .expr) .none fun _ _ hvalue => .some (.some hvalue))

theorem functionDefinition_pairs {decorators decorators' : List Expr}
    (hdecorators : List.Forall₂ (Expr.Like lines joints) decorators decorators') (isAsync : Bool) :
    PairsForms lines joints (functionDefinition decorators isAsync)
      (functionDefinition decorators' isAsync) := by
  refine .expect (.accepts "def") (.option identifier_pairs .none ?_)
  rintro id _ rfl
  refine .expect (.accepts "(")
    (.option (parameterList_pairs true ")") .none fun args args' hargs => ?_)
  refine .expect (.accepts ")")
    (.option returnAnnotation_pairs .none fun returns returns' hreturns => ?_)
  refine .option colonSuite_pairs .none fun body body' hbody => ?_
  exact .some (.function id isAsync hargs hbody hdecorators hreturns)

theorem classArguments_pairs :
    Pairs lines joints (ArgumentsLike lines joints) classArguments classArguments := by
  refine .ifNot (.accepts "(") (.some ⟨.nil, .nil⟩) (.option argumentList_pairs .none ?_)
  exact fun arguments arguments' harguments => .expect (.accepts ")") (.some harguments)

theorem classDefinition_pairs {decorators decorators' : List Expr}
    (hdecorators : List.Forall₂ (Expr.Like lines joints) decorators decorators') :
    PairsForms lines joints (classDefinition decorators) (classDefinition decorators') := by
  refine .expect (.accepts "class") (.option identifier_pairs .none ?_)
  rintro id _ rfl
  refine .option classArguments_pairs .none ?_
  rintro ⟨bases, keywords⟩ ⟨bases', keywords'⟩ ⟨hbases, hkeywords⟩
  refine .option colonSuite_pairs .none fun body body' hbody => ?_
  exact .some (.classDefinition id hbases hkeywords hbody hdecorators)

theorem decorator_pairs : PairsExprs lines joints decorator decorator := by
  refine .attempt fun _ => .expect (.accepts "@") (.option (.call .bindingExpr) .none ?_)
  exact fun value value' hvalue => .expect (.acceptsKind .newline) (.some hvalue)

theorem decoratedDefinition_pairs :
    PairsForms lines joints decoratedDefinition decoratedDefinition := by
  refine .option (.many1 decorator_pairs) .none fun decorators decorators' hdecorators => ?_
  refine .bind .peek fun token token' htoken => ?_
  rcases htoken.1.text_cases ["def", "class", "async"] (by decide) with htext | ⟨hother, hother'⟩
  · rw [htext]
    split
    · exact functionDefinition_pairs hdecorators false
    · exact classDefinition_pairs hdecorators
    · exact .bind .next fun _ _ _ => functionDefinition_pairs hdecorators true
    · exact .none
  · split <;> split <;> first | exact .none | simp_all

theorem asyncForm_pairs : PairsForms lines joints asyncForm asyncForm := by
  refine .same (.accepts "async") fun _ => .bind .peek fun token token' htoken => ?_
  rcases htoken.1.text_cases ["def", "for", "with"] (by decide) with htext | ⟨hother, hother'⟩
  · rw [htext]
    split
    · exact functionDefinition_pairs .nil true
    · exact forLoop_pairs true
    · exact contextStmt_pairs true
    · exact .none
  · split <;> split <;> first | exact .none | simp_all

/-! ### Statements -/

theorem stmtOfForm_pairs (start : Mark) {m m' : Match (Option StmtForm)}
    (hm : PairsForms lines joints m m') : Pairs lines joints (Stmt.Like lines joints)
      (do
        match ← m with
        | some form => stmtNode start form
        | none => return none)
      (do
        match ← m' with
        | some form => stmtNode start form
        | none => return none) :=
  .option hm .none fun _ _ hform => .stmtNode hform

theorem blockStmt_pairs : Pairs lines joints (Stmt.Like lines joints) blockStmt blockStmt := by
  refine .attempt fun start => .bind .peek fun token token' htoken => ?_
  rw [htoken.1.kind]
  cases hkind : token.kind with
  | op =>
    rw [htoken.1.text_eq (by rw [hkind]; rfl)]
    dsimp only
    split
    case h_1 => exact stmtOfForm_pairs start decoratedDefinition_pairs
    case h_10 => exact .none
    all_goals contradiction
  | name =>
    rw [htoken.1.text_eq (by rw [hkind]; rfl)]
    dsimp only
    split
    case h_1 => contradiction
    case h_2 => exact stmtOfForm_pairs start (functionDefinition_pairs .nil false)
    case h_3 => exact stmtOfForm_pairs start (classDefinition_pairs .nil)
    case h_4 => exact stmtOfForm_pairs start (branch_pairs "if")
    case h_5 => exact stmtOfForm_pairs start whileLoop_pairs
    case h_6 => exact stmtOfForm_pairs start (forLoop_pairs false)
    case h_7 => exact stmtOfForm_pairs start (contextStmt_pairs false)
    case h_8 => exact stmtOfForm_pairs start tryForm_pairs
    case h_9 => exact stmtOfForm_pairs start asyncForm_pairs
    case h_10 => exact .none
  | _ => exact .none

theorem stmtOrLine_pairs : PairsBodies lines joints stmtOrLine stmtOrLine :=
  .option blockStmt_pairs stmtLine_pairs fun _ _ hstmt => .some (.cons hstmt .nil)

theorem stmtListRule_pairs : PairsBodies lines joints stmtListRule stmtListRule := by
  refine .map (.many1 stmtOrLine_pairs) ?_
  rintro _ _ (hbodies | _)
  · exact .some (List.rel_flatten hbodies)
  · exact .none

theorem programRule_pairs :
    Pairs lines joints (NodeLike lines joints .program) programRule programRule := by
  refine .bind (.call .stmtList) fun body body' hbody => .expect (.acceptsKind .endMarker) (.some ?_)
  rcases hbody with hbody | _
  · exact hbody
  · exact List.Forall₂.nil

theorem soleExprRule_pairs : PairsExprs lines joints soleExprRule soleExprRule := by
  refine .option (tupleOrSingle_pairs (.call .expr)) .none fun value value' hvalue => ?_
  refine .bind (.many (.ofKind .newline)) fun _ _ _ => ?_
  exact .expect (.acceptsKind .endMarker) (.some hvalue)

/-! ### The grammar -/

theorem body_pairs (rule : Rule) :
    Pairs lines joints (NodeLike lines joints rule) (body rule) (body rule) := by
  cases rule with
  | program => exact programRule_pairs
  | soleExpr => exact soleExprRule_pairs
  | stmtList => exact stmtListRule_pairs
  | smallStmt => exact smallStmtRule_pairs
  | suite => exact suiteRule_pairs
  | elifBranch => exact branch_pairs "elif"
  | exprOrSpread => exact spreadOr_pairs (.call .expr)
  | bindingExpr => exact bindingExprRule_pairs
  | expr => exact exprRule_pairs
  | orExpr => exact boolOperands_pairs .or "or" (.call .andExpr)
  | andExpr => exact boolOperands_pairs .and "and" (.call .notExpr)
  | notExpr => exact notExprRule_pairs
  | bitOrExpr => exact leftAssoc_pairs _ (.call .bitOrExpr) (.call .bitXorExpr)
  | bitXorExpr => exact leftAssoc_pairs _ (.call .bitXorExpr) (.call .bitAndExpr)
  | bitAndExpr => exact leftAssoc_pairs _ (.call .bitAndExpr) (.call .shiftedExpr)
  | shiftedExpr => exact leftAssoc_pairs _ (.call .shiftedExpr) (.call .addExpr)
  | addExpr => exact leftAssoc_pairs _ (.call .addExpr) (.call .mulExpr)
  | mulExpr => exact leftAssoc_pairs _ (.call .mulExpr) (.call .signedExpr)
  | signedExpr => exact signedExprRule_pairs
  | awaitExpr => exact awaitExprRule_pairs
  | postfixExpr => exact postfixExprRule_pairs
  | atomicExpr => exact atomicExprRule_pairs
  | stringRun => exact stringRunRule_pairs
  | commandExpr => exact commandExprRule_pairs
  | targetItem => exact targetItemRule_pairs
  | fstringInside raw => exact fstringInsideRule_pairs raw

end Language

end ShellSyntax
