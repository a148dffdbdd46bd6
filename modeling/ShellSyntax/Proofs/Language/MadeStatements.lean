import ShellSyntax.Proofs.Language.Accepted
import ShellSyntax.Proofs.Language.MadeExpressions
import ShellSyntax.Proofs.Language.StatementPlaces

/-! Statements, and so the trees of accepted programs, are made as they should be. -/

namespace ShellSyntax

/-! ### Forms of statements -/

namespace Brings

open ShellSyntax.Language

variable {α : Type} {W : World} {m : Match (Option StmtForm)}

theorem noForm : MakesForm W (.done .none) :=
  done fun _ => nofun

theorem form {form : StmtForm} (hform : form.Made W) (h : AllMade W (nodes form)) :
    MakesForm W (.done (.some form)) := by
  refine done fun found hfound => ?_
  cases hfound
  exact ⟨hform, h⟩

theorem formIf {test : Match Bool} (h : MakesForm W m) :
    MakesForm W (test >>= fun found => if (!found) = true then pure .none else m) :=
  unlessThen noForm h

theorem formOf [HasNodes α] {first : Match (Option α)} {f : Option α → Match (Option StmtForm)}
    (hfirst : Makes W first) (hnone : f .none = .done .none)
    (hsome : ∀ a, AllMade W (nodes a) → MakesForm W (f (.some a))) : MakesForm W (first >>= f) :=
  option hfirst hsome (hnone ▸ noForm)

theorem formPast {first : Match (Option α)} {f : Option α → Match (Option StmtForm)}
    (hnone : f .none = .done .none) (hsome : ∀ a, MakesForm W (f (.some a))) :
    MakesForm W (first >>= f) := by
  refine skip ?_
  rintro (_ | a)
  · exact hnone ▸ noForm
  · exact hsome a

end Brings

namespace Language

open Matcher

variable {W : World}

/-! ### Assignments -/

theorem annotatedAssignment_makes : Makes W annotatedAssignment := by
  refine .attempt fun start => .need restricted_makes rfl fun target htarget => .expect ?_
  refine .need (.call fun _ => id) rfl fun annotation hannotated => ?_
  have hvalue : Makes W (attempt fun _ => do
      if !(← accepts "=") then return none
      yieldOrTuple) :=
    .attempt fun _ => .expect yieldOrTuple_makes
  refine Brings.bind hvalue fun value hvalue => .stmtNode trivial ?_
  exact htarget.append (hannotated.append hvalue)

theorem assignmentTarget_makes : Makes W assignmentTarget :=
  .attempt fun _ => .need targetTuple_makes rfl fun _ htarget => .expect (.some htarget)

theorem plainAssignment_makes : Makes W plainAssignment := by
  refine .attempt fun start => .need (.many1 assignmentTarget_makes) rfl fun targets htargets => ?_
  refine .need yieldOrTuple_makes rfl fun value hvalue => .ifThen .none ?_
  exact .stmtNode trivial (htargets.append hvalue)

theorem augmentedAssignment_makes : Makes W augmentedAssignment := by
  refine .attempt fun start => .need restricted_makes rfl fun target htarget => ?_
  refine .pass rfl fun op => .need yieldOrTuple_makes rfl fun value hvalue => ?_
  exact .stmtNode trivial (htarget.append hvalue)

theorem assignment_makes : Makes W assignment :=
  .option annotatedAssignment_makes (fun _ hstmt => .some hstmt)
    (.option plainAssignment_makes (fun _ hstmt => .some hstmt) augmentedAssignment_makes)

/-! ### Statements of one keyword -/

theorem plainImport_makes : MakesForm W plainImport := by
  refine .skip fun _ => .skip ?_
  rintro (_ | names)
  · exact .noForm
  · exact .form trivial .nil

theorem fromImport_makes : MakesForm W fromImport := by
  refine .skip fun _ => .skip fun level => .skip fun path => ?_
  split
  · exact .noForm
  · exact .formIf (.formPast rfl fun names => .form trivial .nil)

theorem optionalExpression_makes {separator : String} : Makes W (optionalExpression separator) :=
  .attempt fun _ => .expect (.call fun _ => id)

theorem raising_makes : MakesForm W raising := by
  refine .skip fun _ => .option (.call fun _ h => h) (fun exc hexc => ?_) (.form trivial .nil)
  refine Brings.bind optionalExpression_makes fun cause hcause => .form trivial ?_
  exact AllMade.append (AllMade.some hexc) hcause

theorem deletion_makes : MakesForm W deletion := by
  have htargets : Brings W (Honest W) (separated "," deletableTarget) fun found =>
      (∀ targets ∈ found, ∀ target ∈ targets, target.form.isStarred = false) ∧
        AllMade W (nodes found) := by
    refine .and ?_ (.separated restricted_makes)
    refine (Brings.separated_all restricted_admits).mono ?_
    intro found hadmits targets hfound target htarget
    have hboth := hadmits targets hfound target htarget
    rw [Bool.and_eq_true, Bool.not_eq_true'] at hboth
    exact hboth.2
  refine .skip fun _ => .bind htargets ?_
  rintro (_ | targets) ⟨hplain, hmade⟩
  · exact .noForm
  refine .skip fun _ => .skip fun token => ?_
  split
  · exact .form (hplain targets rfl) (nodes_some targets ▸ hmade)
  · exact .noForm

theorem assertion_makes : MakesForm W assertion := by
  refine .skip fun _ => .formOf (.call fun _ h => h) rfl fun test htest => ?_
  refine Brings.bind optionalExpression_makes fun msg hmsg => .form trivial ?_
  exact AllMade.append htest hmsg

theorem scopeDeclaration_makes : MakesForm W scopeDeclaration := by
  refine .skip fun keyword => .formPast rfl fun names => ?_
  dsimp only
  split
  · exact .form trivial .nil
  · exact .form trivial .nil

theorem keywordStatement_makes {keyword : String} : MakesForm W (keywordStatement keyword) := by
  unfold keywordStatement
  split
  case h_1 | h_2 | h_3 => exact .skip fun _ => .form trivial .nil
  case h_4 =>
    exact .skip fun _ => Brings.bind spreadTuple_makes fun _ hvalue => .form trivial hvalue
  case h_5 => exact .option yielded_makes (fun _ hvalue => .form trivial hvalue) .noForm
  case h_6 => exact plainImport_makes
  case h_7 => exact fromImport_makes
  case h_8 => exact raising_makes
  case h_9 => exact deletion_makes
  case h_10 => exact assertion_makes
  case h_11 => exact scopeDeclaration_makes
  case h_12 => exact scopeDeclaration_makes
  case h_13 => exact .noForm

theorem stmtOfForm_makes {start : Nat} {m : Match (Option StmtForm)}
    {next : Option StmtForm → Match (Option Stmt)} (hm : MakesForm W m)
    (hnone : next none = .done none) (hsome : ∀ form, next (some form) = stmtNode start form) :
    Makes W (m >>= next) := by
  refine Brings.bind hm ?_
  rintro (_ | form) hform
  · exact hnone ▸ .none
  · obtain ⟨hmade, hbelow⟩ := hform form rfl
    exact hsome form ▸ .stmtNode hmade hbelow

theorem smallStmtRule_makes : Makes W smallStmtRule := by
  refine .attempt fun start => .perhaps ?_
  refine .option assignment_makes (fun _ hstmt => .some hstmt) ?_
  refine .option spreadTuple_makes (fun value hvalue => .stmtNode trivial hvalue) ?_
  refine .skip fun token => ?_
  split
  · exact .none
  · exact stmtOfForm_makes keywordStatement_makes rfl fun _ => rfl

theorem stmtLine_makes : Makes W stmtLine :=
  .attempt fun _ => .need (.separated (.call fun _ => id)) rfl fun _ hstmts =>
    .skip fun _ => .expect (.some hstmts)

/-! ### Blocks -/

theorem indentedSuite_makes : Makes W indentedSuite :=
  .attempt fun _ => .expect (.expect (.need (.call fun _ => id) rfl fun _ hbody =>
    .expect (.some hbody)))

theorem suiteRule_makes : Makes W suiteRule :=
  .option indentedSuite_makes (fun _ hbody => .some hbody)
    (.option stmtLine_makes (fun _ hbody => .some hbody) (.perhaps .none))

theorem colonSuite_makes : Makes W colonSuite :=
  .attempt fun _ => .expect (.call fun _ => id)

theorem elseSuite_makes : Makes W elseSuite := by
  have hbody : Makes W (attempt fun _ => do
      if !(← accepts "else") then return none
      colonSuite) :=
    .attempt fun _ => .expect colonSuite_makes
  exact .option hbody (fun _ hbody => .done hbody) (.done .nil)

/-! ### Branches and loops -/

theorem branch_makes {keyword : String} : MakesForm W (branch keyword) := by
  refine .formIf (.formOf (.call fun _ h => h) rfl fun test htest => ?_)
  refine .formOf colonSuite_makes rfl fun body hbody => .skip fun token => ?_
  split
  · refine .skip fun start => ?_
    have hbranch : Brings W (Honest W) elifBranch fun found =>
        ∀ form ∈ found, StmtForm.Made W form ∧ AllMade W (nodes (α := StmtForm) form) := by
      rintro callee hhonest i found j reads form rfl
      exact hhonest.good .elifBranch i form j reads.rule
    refine Brings.bind hbranch ?_
    rintro (_ | form) hform
    · exact .noForm
    · obtain ⟨hmade, hbelow⟩ := hform form rfl
      refine .skip fun span => .form trivial ?_
      have hnested : AllMade W (nodes [(⟨form, span⟩ : Stmt)]) :=
        AllMade.sole (.single hmade hbelow)
      exact AllMade.append htest (AllMade.append hbody hnested)
  · refine Brings.bind elseSuite_makes fun orelse horelse => .form trivial ?_
    exact AllMade.append htest (AllMade.append hbody horelse)

theorem whileLoop_makes : MakesForm W whileLoop := by
  refine .skip fun _ => .formOf (.call fun _ h => h) rfl fun test htest => ?_
  refine .formOf colonSuite_makes rfl fun body hbody => ?_
  refine Brings.bind elseSuite_makes fun orelse horelse => .form trivial ?_
  exact AllMade.append htest (AllMade.append hbody horelse)

theorem forLoop_makes {isAsync : Bool} : MakesForm W (forLoop isAsync) := by
  refine .formIf (.formOf targetTuple_makes rfl fun target htarget => .formIf ?_)
  refine .formOf spreadTuple_makes rfl fun iter hiter => ?_
  refine .formOf colonSuite_makes rfl fun body hbody => ?_
  refine Brings.bind elseSuite_makes fun orelse horelse => .form trivial ?_
  exact AllMade.append htarget (AllMade.append hiter (AllMade.append hbody horelse))

/-! ### Contexts -/

theorem contextTarget_makes : Makes W contextTarget := by
  refine .attempt fun _ => .expect (.need (.call fun _ => id) rfl fun target htarget => ?_)
  refine .skip fun token => ?_
  split
  · exact .some htarget
  · exact .none

theorem contextItem_makes : Makes W contextItem :=
  .need (.call fun _ h => h) rfl fun _ hcontext => Brings.bind contextTarget_makes fun _ hfound =>
    .some (AllMade.append hcontext hfound)

theorem contextItems_makes : Makes W (separated "," contextItem) :=
  .separated contextItem_makes

theorem rawWith_makes : MakesForm W rawWith :=
  .perhaps (.formOf contextItems_makes rfl fun _ hitems =>
    .formIf (.formPast rfl fun _ => .form trivial hitems))

theorem parenthesizedContexts_makes : Makes W parenthesizedContexts :=
  .attempt fun _ => .expect (.need contextItems_makes rfl fun _ hitems =>
    .skip fun _ => .expect (.need colonSuite_makes rfl fun _ hbody =>
      .some (AllMade.append hitems hbody)))

theorem contexts_makes {isAsync : Bool} : MakesForm W (do
    if let some (items, body) ← parenthesizedContexts then
      return some (StmtForm.with items body isAsync)
    let some items ← separated "," contextItem | return none
    let some body ← colonSuite | return none
    return some (.with items body isAsync)) :=
  .option parenthesizedContexts_makes (fun _ hfound => .form trivial hfound)
    (.formOf contextItems_makes rfl fun _ hitems => .formOf colonSuite_makes rfl fun _ hbody =>
      .form trivial (AllMade.append hitems hbody))

theorem contextStmt_makes {isAsync : Bool} : MakesForm W (contextStmt isAsync) := by
  refine .formIf ?_
  cases isAsync with
  | true => exact contexts_makes
  | false => exact .ifThen rawWith_makes contexts_makes

/-! ### Exceptions -/

theorem handlerBody_makes {start : Nat} {exception : Option Expr} {id : Option String}
    (hexception : AllMade W (nodes exception)) : Makes W (do
      let some body ← colonSuite | return none
      return some ⟨exception, id, body, ← spanSince start⟩ : Match (Option Handler)) :=
  .need colonSuite_makes rfl fun _ hbody => .skip fun _ =>
    .some (.single trivial (AllMade.append hexception hbody))

theorem exceptHandler_makes : Makes W exceptHandler := by
  have hcall : Makes W expr := .call fun _ => id
  refine .attempt fun start => .expect (Brings.bind hcall fun exception hexception => ?_)
  cases exception with
  | none => exact handlerBody_makes hexception
  | some value =>
    exact .ifThen (.pass rfl fun text => handlerBody_makes hexception)
      (handlerBody_makes hexception)

theorem finally_makes {body orelse : List Stmt} {handlers : List Handler}
    (hbody : AllMade W (nodes body)) (hhandlers : AllMade W (nodes handlers))
    (horelse : AllMade W (nodes orelse)) : MakesForm W (do
      let mut finalbody := []
      if ← accepts "finally" then
        let some stmts ← colonSuite | return none
        finalbody := stmts
      if handlers.isEmpty && finalbody.isEmpty then return none
      return some (StmtForm.try body handlers orelse finalbody)) := by
  have hend {finalbody : List Stmt} (hfinal : AllMade W (nodes finalbody)) : MakesForm W (do
      if handlers.isEmpty && finalbody.isEmpty then return none
      return some (StmtForm.try body handlers orelse finalbody)) := by
    split
    · exact .noForm
    · exact .form trivial
        (AllMade.append hbody (AllMade.append hhandlers (AllMade.append horelse hfinal)))
  exact .ifThen (.formOf colonSuite_makes rfl fun stmts hstmts => hend hstmts) (hend .nil)

theorem tryForm_makes : MakesForm W tryForm := by
  refine .skip fun _ => .formOf colonSuite_makes rfl fun body hbody => ?_
  refine Brings.bind (.many exceptHandler_makes) fun handlers hhandlers => ?_
  split
  · exact finally_makes hbody hhandlers .nil
  · exact Brings.bind elseSuite_makes fun orelse horelse => finally_makes hbody hhandlers horelse

/-! ### Definitions -/

theorem returnAnnotation_makes : Makes W returnAnnotation :=
  .unlessThen (.some .nil) (.need (.call fun _ h => h) rfl fun _ hvalue => .some hvalue.some)

theorem functionDefinition_makes {decorators : List Expr} {isAsync : Bool}
    (hdecorators : AllMade W (nodes decorators)) :
    MakesForm W (functionDefinition decorators isAsync) := by
  rintro callee hhonest i found j reads form rfl
  obtain ⟨_, hrest⟩ := reads.expects
  obtain ⟨id, k, _, hrest⟩ := hrest.needs rfl
  obtain ⟨_, hrest⟩ := hrest.expects
  obtain ⟨args, l, hargs, hrest⟩ := hrest.needs rfl
  obtain ⟨_, hrest⟩ := hrest.expects
  obtain ⟨returns, m, hreturns, hrest⟩ := hrest.needs rfl
  obtain ⟨body, n, hbody, hrest⟩ := hrest.needs rfl
  cases hrest
  refine ⟨⟨callee, i, j, hhonest.answers, reads⟩, ?_⟩
  have hargs : AllMade W (nodes args) :=
    nodes_some args ▸ parameterList_makes callee hhonest _ _ _ hargs
  have hreturns : AllMade W (nodes returns) :=
    nodes_some returns ▸ returnAnnotation_makes callee hhonest _ _ _ hreturns
  have hbody : AllMade W (nodes body) :=
    nodes_some body ▸ colonSuite_makes callee hhonest _ _ _ hbody
  exact hargs.append (hbody.append (hdecorators.append hreturns))

theorem classArguments_makes : Makes W classArguments :=
  .unlessThen (.some .nil) (.need argumentList_makes rfl fun _ harguments =>
    .expect (.some harguments))

theorem classDefinition_makes {decorators : List Expr}
    (hdecorators : AllMade W (nodes decorators)) : MakesForm W (classDefinition decorators) := by
  refine .formIf (.formPast rfl fun id => .formOf classArguments_makes rfl ?_)
  rintro ⟨bases, keywords⟩ harguments
  obtain ⟨hbases, hkeywords⟩ : AllMade W (nodes bases) ∧ AllMade W (nodes keywords) :=
    AllMade.append_iff.mp harguments
  refine .formOf colonSuite_makes rfl fun body hbody => .form trivial ?_
  exact hbases.append (hkeywords.append (AllMade.append hbody hdecorators))

theorem decorator_makes : Makes W decorator :=
  .attempt fun _ => .expect (.need (.call fun _ => id) rfl fun _ hvalue => .expect (.some hvalue))

theorem decoratedDefinition_makes : MakesForm W decoratedDefinition := by
  refine .formOf (.many1 decorator_makes) rfl fun decorators hdecorators => .skip fun token => ?_
  split
  · exact functionDefinition_makes hdecorators
  · exact classDefinition_makes hdecorators
  · exact .skip fun _ => functionDefinition_makes hdecorators
  · exact .noForm

theorem asyncForm_makes : MakesForm W asyncForm := by
  refine .skip fun _ => .skip fun token => ?_
  split
  · exact functionDefinition_makes .nil
  · exact forLoop_makes
  · exact contextStmt_makes
  · exact .noForm

/-! ### Statements -/

theorem blockStmt_makes : Makes W blockStmt := by
  refine .attempt fun start => .skip fun token => ?_
  dsimp only
  split
  case h_1 => exact stmtOfForm_makes decoratedDefinition_makes rfl fun _ => rfl
  case h_2 => exact stmtOfForm_makes (functionDefinition_makes .nil) rfl fun _ => rfl
  case h_3 => exact stmtOfForm_makes (classDefinition_makes .nil) rfl fun _ => rfl
  case h_4 => exact stmtOfForm_makes branch_makes rfl fun _ => rfl
  case h_5 => exact stmtOfForm_makes whileLoop_makes rfl fun _ => rfl
  case h_6 => exact stmtOfForm_makes forLoop_makes rfl fun _ => rfl
  case h_7 => exact stmtOfForm_makes contextStmt_makes rfl fun _ => rfl
  case h_8 => exact stmtOfForm_makes tryForm_makes rfl fun _ => rfl
  case h_9 => exact stmtOfForm_makes asyncForm_makes rfl fun _ => rfl
  case h_10 => exact .none

theorem stmtOrLine_makes : Makes W stmtOrLine :=
  .option blockStmt_makes (fun _ hstmt => .some (AllMade.sole hstmt))
    stmtLine_makes

theorem stmtListRule_makes : Makes W stmtListRule :=
  .mapped (.many1 stmtOrLine_makes) fun lines hlines => by rwa [nodes_flatten]

theorem programRule_makes : Makes W programRule := by
  have hcall : Makes W stmtList := .call fun _ => id
  refine Brings.bind hcall fun body hbody => .expect (.some ?_)
  cases body with
  | none => exact .nil
  | some body => exact nodes_some body ▸ hbody

theorem soleExprRule_makes : Makes W soleExprRule :=
  .need exprTuple_makes rfl fun _ hvalue => .skip fun _ => .expect (.some hvalue)

/-! ### The grammar -/

theorem of_makes {α : Type} [HasNodes α] {m : Match (Option α)} (h : Makes W m) :
    Brings W (Honest W) m fun found => ∀ a ∈ found, AllMade W (nodes a) := by
  refine h.mono fun found hfound => ?_
  rintro a rfl
  exact nodes_some a ▸ hfound

theorem body_made (r : Rule) :
    Brings W (Honest W) (body r) fun found => ∀ node ∈ found, made W r node := by
  cases r with
  | program => exact of_makes programRule_makes
  | soleExpr => exact of_makes soleExprRule_makes
  | stmtList => exact of_makes stmtListRule_makes
  | smallStmt => exact of_makes smallStmtRule_makes
  | suite => exact of_makes suiteRule_makes
  | elifBranch => exact branch_makes
  | exprOrSpread => exact of_makes (spreadOr_makes (.call fun _ => id))
  | bindingExpr => exact of_makes bindingExprRule_makes
  | expr => exact of_makes exprRule_makes
  | orExpr => exact of_makes (boolOperands_makes (.call fun _ => id))
  | andExpr => exact of_makes (boolOperands_makes (.call fun _ => id))
  | notExpr => exact of_makes notExprRule_makes
  | bitOrExpr | bitXorExpr | bitAndExpr | shiftedExpr | addExpr | mulExpr =>
    exact of_makes (leftAssoc_makes (.call fun _ => id) (.call fun _ => id))
  | signedExpr => exact of_makes signedExprRule_makes
  | awaitExpr => exact of_makes awaitExprRule_makes
  | postfixExpr => exact of_makes postfixExprRule_makes
  | atomicExpr => exact of_makes atomicExprRule_makes
  | stringRun => exact of_makes stringRunRule_makes
  | commandExpr => exact of_makes commandExprRule_makes
  | targetItem => exact of_makes targetItemRule_makes
  | fstringInside raw => exact fstringInsideRule_makes

theorem placed_leads (W : World) : grammar.Leads W (placed W) where
  none r i hwhole hquiet := (grammar_leads ⟨W, hwhole, hquiet⟩).none r i
  body r i := by
    by_cases hclear : W.Whole ∧ W.diagnosing = false
    · obtain ⟨hwhole, hquiet⟩ := hclear
      have hsame : placed W = matched ⟨W, hwhole, hquiet⟩ := by
        funext r i found j
        exact propext ⟨fun h => h hwhole hquiet, fun h _ _ => h⟩
      rw [hsame]
      exact (grammar_leads ⟨W, hwhole, hquiet⟩).body r i
    · exact (LeadsIn.any _).mono fun _ _ _ hwhole hquiet => absurd ⟨hwhole, hquiet⟩ hclear

end Language

namespace Program

open ShellSyntax.Language

variable {source : Source} {origin : Option Origin} {options : ParseOptions} {tree : Ast}
  {s : ProgramSession}

/-- All nodes in the tree of an accepted program are made as they should be, but for names that are
bound. -/
theorem accepted_all_made
    (hparse : parse options.mode (start source origin options) = (.ok tree, s)) :
    AllMade (firstWorld source origin options) (nodes tree) := by
  have fresh := TokenStream.fresh_ofLexer source options.tabSize origin
  obtain ⟨found, hrun, rfl⟩ := parse_entry hparse
  obtain ⟨_, j, hresult, _⟩ := parse_ok (K := ranking) governs rules_distinguished
    options.mode.isEntry_entry fresh hrun
  rw [Pass.reading_answersTo governs options.mode.isEntry_entry] at hresult
  have hhonest := World.answersTo_honest (W := firstWorld source origin options) governs
    (placed_leads _) body_made
  have hfound := body_made _ _ hhonest _ _ _ hresult found rfl
  generalize options.mode = mode at found hfound
  cases mode with
  | exec => exact hfound
  | eval => exact hfound

theorem accepted_made (hparse : parse options.mode (start source origin options) = (.ok tree, s)) :
    ∀ root ∈ nodes tree, ∀ n, root.Contains n →
      n.MadeUnlessName (firstWorld source origin options) :=
  fun _ hroot _ contains => (accepted_all_made hparse).unlessName hroot contains

end Program

end ShellSyntax
