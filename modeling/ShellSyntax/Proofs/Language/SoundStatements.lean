import ShellSyntax.Language.Grammar
import ShellSyntax.Proofs.Language.Accepted
import ShellSyntax.Proofs.Language.SoundExpressions

/-!
Statements, and so whole programs, are sound. Each shape of a node is due to another loop, optional
clause or merging of neighbours; in the tree of an accepted program all nodes have them. Targets are
read as plain expressions and checked afterwards, in several places and in several ways; still,
nothing else is bound there.
-/

namespace ShellSyntax.Language

open Matcher

/-- The matcher yields forms of statements that are sound. -/
def SoundIn (m : Match (Option StmtForm)) : Prop :=
  Offers harvest m SoundForm

/-! ### Assignments -/

theorem annotatedAssignment_sound : Sound annotatedAssignment := by
  refine attempt_offers fun start => .need soleTarget_offers rfl fun target htarget => .expect ?_
  refine .need .rule rfl fun annotation hannotated => ?_
  have hvalue : Sound (attempt fun _ => do
      if !(← accepts "=") then return none
      yieldOrTuple) :=
    attempt_offers fun _ => .expect yieldOrTuple_sound
  refine Yields.bind hvalue fun value hvalue => stmtNode_sound ⟨htarget.2, trivial, ?_⟩
  exact htarget.1.append (hannotated.append (.option hvalue))

theorem assignmentTarget_offers : Offers harvest assignmentTarget SoundTarget :=
  attempt_offers fun _ => .need targetTuple_offers rfl fun _ htarget => .expect (.some htarget)

theorem plainAssignment_sound : Sound plainAssignment := by
  refine attempt_offers fun start => .need (.many1 assignmentTarget_offers) rfl ?_
  intro targets htargets
  refine .need yieldOrTuple_sound rfl fun value hvalue => .ifThen .none ?_
  refine stmtNode_sound ⟨fun target htarget => (htargets.2 target htarget).2, htargets.1, ?_⟩
  exact .append (.list fun target htarget => (htargets.2 target htarget).1) hvalue

theorem augmentedAssignment_sound : Sound augmentedAssignment := by
  refine attempt_offers fun start => .need soleTarget_offers rfl fun target htarget => ?_
  refine .pass rfl fun op => .need yieldOrTuple_sound rfl fun value hvalue => ?_
  exact stmtNode_sound ⟨htarget.2, trivial, htarget.1.append hvalue⟩

theorem assignment_sound : Sound assignment :=
  .option annotatedAssignment_sound (fun _ hstmt => .some hstmt)
    (.option plainAssignment_sound (fun _ hstmt => .some hstmt) augmentedAssignment_sound)

/-! ### Statements of one keyword -/

theorem plainImport_sound : SoundIn plainImport :=
  .skip fun _ => mapped_offers .items fun _ hnames => ⟨trivial, hnames, .nil⟩

theorem importTargets_offers : Offers harvest importTargets (· ≠ []) := by
  refine attempt_offers fun _ => .ifThen (.some (List.cons_ne_nil _ _)) ?_
  refine .skip fun parenthesized => ?_
  refine .need .items rfl fun names hnames => ?_
  dsimp only
  split
  · exact .skip fun _ => .expect (.some hnames)
  · exact .ifThen .none (.some hnames)

theorem fromImport_sound : SoundIn fromImport := by
  refine .skip fun _ => .skip fun level => .skip fun path => ?_
  split
  case isTrue => exact .none
  case isFalse hnamed =>
    refine .expect (.need importTargets_offers rfl fun names hnames => .some ⟨trivial, ?_, .nil⟩)
    refine ⟨hnames, ?_⟩
    cases path with
    | some path => exact .inl rfl
    | none => exact .inr (by simpa [Nat.pos_iff_ne_zero] using hnamed)

theorem optionalExpression_sound {separator : String} : Sound (optionalExpression separator) :=
  attempt_offers fun _ => .expect .rule

theorem raising_sound : SoundIn raising := by
  refine .skip fun _ => .option .rule (fun exc hexc => ?_) (.some ⟨trivial, trivial, .nil⟩)
  refine Yields.bind optionalExpression_sound fun cause hcause => .some ⟨trivial, trivial, ?_⟩
  refine AllSound.append ?_ (.option hcause)
  rwa [nodes_some]

theorem deletion_sound : SoundIn deletion := by
  refine .skip fun _ => .need (.separated deletableTarget_offers) rfl fun targets htargets => ?_
  refine .skip fun _ => .skip fun token => ?_
  split
  · refine .some ⟨fun target htarget => (htargets.2 target htarget).2, htargets.1, ?_⟩
    exact .list fun target htarget => (htargets.2 target htarget).1
  · exact .none

theorem assertion_sound : SoundIn assertion := by
  refine .skip fun _ => .need .rule rfl fun test htest => ?_
  refine Yields.bind optionalExpression_sound fun msg hmsg => .some ⟨trivial, trivial, ?_⟩
  exact htest.append (.option hmsg)

theorem scopeDeclaration_sound : SoundIn scopeDeclaration := by
  refine .skip fun keyword => .need .items rfl fun names hnames => .some ?_
  split
  · exact ⟨trivial, hnames, .nil⟩
  · exact ⟨trivial, hnames, .nil⟩

theorem keywordStatement_sound {keyword : String} : SoundIn (keywordStatement keyword) := by
  unfold keywordStatement
  split
  case h_1 => exact .skip fun _ => .some ⟨trivial, trivial, .nil⟩
  case h_2 => exact .skip fun _ => .some ⟨trivial, trivial, .nil⟩
  case h_3 => exact .skip fun _ => .some ⟨trivial, trivial, .nil⟩
  case h_4 =>
    exact .skip fun _ => Yields.bind spreadTuple_sound fun _ hvalue =>
      .some ⟨trivial, trivial, .option hvalue⟩
  case h_5 => exact .option yielded_sound (fun _ hvalue => .some ⟨trivial, trivial, hvalue⟩) .none
  case h_6 => exact plainImport_sound
  case h_7 => exact fromImport_sound
  case h_8 => exact raising_sound
  case h_9 => exact deletion_sound
  case h_10 => exact assertion_sound
  case h_11 => exact scopeDeclaration_sound
  case h_12 => exact scopeDeclaration_sound
  case h_13 => exact .none

theorem stmtOfForm_sound {start : Nat} {m : Match (Option StmtForm)}
    {next : Option StmtForm → Match (Option Stmt)} (hm : SoundIn m) (hnone : next none = .done none)
    (hsome : ∀ form, next (some form) = stmtNode start form) : Sound (m >>= next) :=
  .need hm hnone fun form hform => hsome form ▸ stmtNode_sound hform

theorem smallStmtRule_sound : Sound smallStmtRule := by
  refine attempt_offers fun start => .perhaps ?_
  refine .option assignment_sound (fun _ hstmt => .some hstmt) ?_
  refine .option spreadTuple_sound (fun value hvalue => ?_) ?_
  · exact stmtNode_sound ⟨trivial, trivial, hvalue⟩
  refine .skip fun token => ?_
  split
  · exact .none
  · exact stmtOfForm_sound keywordStatement_sound rfl fun _ => rfl

theorem stmtLine_offers : Offers harvest stmtLine SoundBody :=
  attempt_offers fun _ => .need (.separated .rule) rfl fun _ hstmts =>
    .skip fun _ => .expect (.some ⟨hstmts.1, .list hstmts.2⟩)

/-! ### Blocks -/

theorem indentedSuite_offers : Offers harvest indentedSuite SoundBody :=
  attempt_offers fun _ => .expect (.expect (.need .rule rfl fun _ hbody => .expect (.some hbody)))

theorem suiteRule_offers : Offers harvest suiteRule SoundBody :=
  .option indentedSuite_offers (fun _ hbody => .some hbody)
    (.option stmtLine_offers (fun _ hbody => .some hbody) (.perhaps .none))

theorem colonSuite_offers : Offers harvest colonSuite SoundBody :=
  attempt_offers fun _ => .expect .rule

theorem elseSuite_yields : Yields harvest elseSuite fun body => AllSound (nodes body) := by
  have hbody : Offers harvest (attempt fun _ => do
      if !(← accepts "else") then return none
      colonSuite) SoundBody :=
    attempt_offers fun _ => .expect colonSuite_offers
  exact .option hbody (fun _ hbody => .done hbody.2) (.done .nil)

/-! ### Branches and loops -/

theorem branch_sound {keyword : String} : SoundIn (branch keyword) := by
  refine .expect (.need .rule rfl fun test htest => ?_)
  refine .need colonSuite_offers rfl fun body hbody => .skip fun token => ?_
  split
  · refine .skip fun start => .need .rule rfl fun form hform => .skip fun span => ?_
    have hnested : AllSound (nodes [(⟨form, span⟩ : Stmt)]) :=
      AllSound.append (.single ⟨hform.binds, hform.shaped⟩ hform.below) .nil
    exact .some ⟨trivial, hbody.1, htest.append (hbody.2.append hnested)⟩
  · refine elseSuite_yields.bind fun orelse horelse => ?_
    exact .some ⟨trivial, hbody.1, htest.append (hbody.2.append horelse)⟩

theorem whileLoop_sound : SoundIn whileLoop := by
  refine .skip fun _ => .need .rule rfl fun test htest => ?_
  refine .need colonSuite_offers rfl fun body hbody => ?_
  refine elseSuite_yields.bind fun orelse horelse => ?_
  exact .some ⟨trivial, hbody.1, htest.append (hbody.2.append horelse)⟩

theorem forLoop_sound {isAsync : Bool} : SoundIn (forLoop isAsync) := by
  refine .expect (.need targetTuple_offers rfl fun target htarget => .expect ?_)
  refine .need spreadTuple_sound rfl fun iter hiter => ?_
  refine .need colonSuite_offers rfl fun body hbody => ?_
  refine elseSuite_yields.bind fun orelse horelse => .some ⟨htarget.2, hbody.1, ?_⟩
  exact htarget.1.append (hiter.append (hbody.2.append horelse))

/-! ### Contexts -/

/-- Contexts whose names are targets, at least one. -/
structure SoundContexts (items : List ContextItem) : Prop where
  nonempty : items ≠ []
  targets : ∀ item ∈ items, ∀ target ∈ item.target, target.isTarget
  below : AllSound (nodes items)

theorem contextTarget_offers : Offers harvest contextTarget SoundTarget := by
  refine attempt_offers fun _ => .expect (.need .rule rfl fun target htarget => ?_)
  refine .skip fun token => ?_
  split
  · exact .some htarget
  · exact .none

theorem contextItem_offers : Offers harvest contextItem fun item =>
    AllSound (nodes item) ∧ ∀ target ∈ item.target, target.isTarget := by
  refine .need .rule rfl fun context hcontext => ?_
  refine Yields.bind contextTarget_offers fun found hfound => .some ⟨?_, ?_⟩
  · exact hcontext.append (.option fun target htarget => (hfound target htarget).1)
  · exact fun target htarget => (hfound target htarget).2

theorem contextItems_offers : Offers harvest (separated "," contextItem) SoundContexts :=
  (Yields.separated contextItem_offers).each fun _ hitems =>
    ⟨hitems.1, fun item hitem => (hitems.2 item hitem).2,
      .list fun item hitem => (hitems.2 item hitem).1⟩

theorem rawWith_sound : SoundIn rawWith :=
  .perhaps (.need contextItems_offers rfl fun _ hitems =>
    .expect (.pass rfl fun _ => .some ⟨hitems.targets, hitems.nonempty, hitems.below⟩))

theorem parenthesizedContexts_offers : Offers harvest parenthesizedContexts fun found =>
    SoundContexts found.1 ∧ SoundBody found.2 :=
  attempt_offers fun _ => .expect (.need contextItems_offers rfl fun _ hitems =>
    .skip fun _ => .expect (.need colonSuite_offers rfl fun _ hbody => .some ⟨hitems, hbody⟩))

theorem contexts_sound {isAsync : Bool} : SoundIn (do
    if let some (items, body) ← parenthesizedContexts then
      return some (StmtForm.with items body isAsync)
    let some items ← separated "," contextItem | return none
    let some body ← colonSuite | return none
    return some (.with items body isAsync)) := by
  refine .option parenthesizedContexts_offers ?_ ?_
  · rintro ⟨items, body⟩ ⟨hitems, hbody⟩
    exact .some ⟨hitems.targets, ⟨hitems.nonempty, hbody.1⟩, hitems.below.append hbody.2⟩
  · refine .need contextItems_offers rfl fun items hitems => ?_
    exact .need colonSuite_offers rfl fun body hbody =>
      .some ⟨hitems.targets, ⟨hitems.nonempty, hbody.1⟩, hitems.below.append hbody.2⟩

theorem contextStmt_sound {isAsync : Bool} : SoundIn (contextStmt isAsync) := by
  refine .expect ?_
  cases isAsync with
  | true => exact contexts_sound
  | false => exact .ifThen rawWith_sound contexts_sound

/-! ### Exceptions -/

theorem handlerBody_sound {start : Nat} {exception : Option Expr} {id : Option String}
    (hexception : AllSound (nodes exception)) : Sound (do
      let some body ← colonSuite | return none
      return some ⟨exception, id, body, ← spanSince start⟩ : Match (Option Handler)) :=
  .need colonSuite_offers rfl fun _ hbody => .skip fun _ =>
    .some (.single ⟨trivial, hbody.1⟩ (hexception.append hbody.2))

theorem exceptHandler_sound : Sound exceptHandler := by
  refine attempt_offers fun start => .expect (Yields.bind .rule fun exception hexception => ?_)
  have hbelow : AllSound (nodes exception) := .option hexception
  cases exception with
  | none => exact handlerBody_sound hbelow
  | some value =>
    exact .ifThen (.pass rfl fun text => handlerBody_sound hbelow) (handlerBody_sound hbelow)

theorem finally_sound {body orelse : List Stmt} {handlers : List Handler}
    (hbody : SoundBody body) (hhandlers : AllSound (nodes handlers))
    (horelse : AllSound (nodes orelse)) : SoundIn (do
      let mut finalbody := []
      if ← accepts "finally" then
        let some stmts ← colonSuite | return none
        finalbody := stmts
      if handlers.isEmpty && finalbody.isEmpty then return none
      return some (StmtForm.try body handlers orelse finalbody)) := by
  have hend {finalbody : List Stmt} (hfinal : AllSound (nodes finalbody)) : SoundIn (do
      if handlers.isEmpty && finalbody.isEmpty then return none
      return some (StmtForm.try body handlers orelse finalbody)) := by
    split
    case isTrue => exact .none
    case isFalse hhandled =>
      refine .some ⟨trivial, ⟨hbody.1, ?_⟩, ?_⟩
      · simpa [← Decidable.imp_iff_not_or] using hhandled
      · exact hbody.2.append (hhandlers.append (horelse.append hfinal))
  exact .ifThen (.need colonSuite_offers rfl fun stmts hstmts => hend hstmts.2) (hend .nil)

theorem tryForm_sound : SoundIn tryForm := by
  refine .skip fun _ => .need colonSuite_offers rfl fun body hbody => ?_
  refine (Yields.many exceptHandler_sound).bind fun handlers hhandlers => ?_
  split
  · exact finally_sound hbody (.list hhandlers) .nil
  · exact elseSuite_yields.bind fun orelse horelse => finally_sound hbody (.list hhandlers) horelse

/-! ### Definitions -/

theorem returnAnnotation_sound : Sound returnAnnotation := by
  refine .unlessThen (.some .nil) (.need .rule rfl fun value hvalue => .some ?_)
  rwa [nodes_some]

theorem functionDefinition_sound {decorators : List Expr} {isAsync : Bool}
    (hdecorators : AllSound (nodes decorators)) :
    SoundIn (functionDefinition decorators isAsync) := by
  refine .expect (.pass rfl fun id => .expect ?_)
  refine .need parameterList_sound rfl fun args hargs => .expect ?_
  refine .need returnAnnotation_sound rfl fun returns hreturns => ?_
  refine .need colonSuite_offers rfl fun body hbody => .some ⟨trivial, hbody.1, ?_⟩
  exact hargs.append (hbody.2.append (hdecorators.append hreturns))

theorem classArguments_sound : Sound classArguments :=
  .unlessThen (.some .nil) (.need argumentList_sound rfl fun _ harguments =>
    .expect (.some harguments))

theorem classDefinition_sound {decorators : List Expr}
    (hdecorators : AllSound (nodes decorators)) : SoundIn (classDefinition decorators) := by
  refine .expect (.pass rfl fun id => .need classArguments_sound rfl ?_)
  rintro ⟨bases, keywords⟩ harguments
  have hparts : AllSound (nodes bases ++ nodes keywords) := harguments
  rw [AllSound.append_iff] at hparts
  refine .need colonSuite_offers rfl fun body hbody => .some ⟨trivial, hbody.1, ?_⟩
  exact hparts.1.append (hparts.2.append (hbody.2.append hdecorators))

theorem decorator_sound : Sound decorator :=
  attempt_offers fun _ => .expect (.need .rule rfl fun _ hvalue => .expect (.some hvalue))

theorem decoratedDefinition_sound : SoundIn decoratedDefinition := by
  refine .need (.many1 decorator_sound) rfl fun decorators hdecorators => .skip fun token => ?_
  have hbelow : AllSound (nodes decorators) := .list hdecorators.2
  split
  · exact functionDefinition_sound hbelow
  · exact classDefinition_sound hbelow
  · exact .skip fun _ => functionDefinition_sound hbelow
  · exact .none

theorem asyncForm_sound : SoundIn asyncForm := by
  refine .skip fun _ => .skip fun token => ?_
  split
  · exact functionDefinition_sound .nil
  · exact forLoop_sound
  · exact contextStmt_sound
  · exact .none

/-! ### Statements -/

theorem blockStmt_sound : Sound blockStmt := by
  refine attempt_offers fun start => .skip fun token => ?_
  dsimp only
  split
  case h_1 => exact stmtOfForm_sound decoratedDefinition_sound rfl fun _ => rfl
  case h_2 => exact stmtOfForm_sound (functionDefinition_sound .nil) rfl fun _ => rfl
  case h_3 => exact stmtOfForm_sound (classDefinition_sound .nil) rfl fun _ => rfl
  case h_4 => exact stmtOfForm_sound branch_sound rfl fun _ => rfl
  case h_5 => exact stmtOfForm_sound whileLoop_sound rfl fun _ => rfl
  case h_6 => exact stmtOfForm_sound forLoop_sound rfl fun _ => rfl
  case h_7 => exact stmtOfForm_sound contextStmt_sound rfl fun _ => rfl
  case h_8 => exact stmtOfForm_sound tryForm_sound rfl fun _ => rfl
  case h_9 => exact stmtOfForm_sound asyncForm_sound rfl fun _ => rfl
  case h_10 => exact .none

theorem stmtOrLine_offers : Offers harvest stmtOrLine SoundBody := by
  refine .option blockStmt_sound (fun stmt hstmt => .some ⟨List.cons_ne_nil _ _, ?_⟩)
    stmtLine_offers
  rwa [nodes_cons, nodes_nil, List.append_nil]

theorem stmtListRule_offers : Offers harvest stmtListRule SoundBody := by
  refine mapped_offers (.many1 stmtOrLine_offers) fun lines hlines => ⟨?_, ?_⟩
  · obtain ⟨line, hline⟩ := List.exists_mem_of_ne_nil lines hlines.1
    exact fun heq => (hlines.2 line hline).1 (List.flatten_eq_nil_iff.mp heq line hline)
  · rw [nodes_flatten]
    exact .list fun line hline => (hlines.2 line hline).2

theorem programRule_sound : Sound programRule := by
  refine Yields.bind .rule fun body hbody => .expect (.some ?_)
  cases body with
  | none => exact .nil
  | some body => exact (hbody body rfl).2

theorem soleExprRule_sound : Sound soleExprRule :=
  .need exprTuple_sound rfl fun _ hvalue => .skip fun _ => .expect (.some hvalue)

/-! ### The grammar -/

/-- What the body of a rule makes of what rules match is as what the rule itself matches. -/
theorem body_offers (r : Rule) : Offers harvest (body r) (harvest r) := by
  cases r with
  | program => exact programRule_sound
  | soleExpr => exact soleExprRule_sound
  | stmtList => exact stmtListRule_offers
  | smallStmt => exact smallStmtRule_sound
  | suite => exact suiteRule_offers
  | elifBranch => exact branch_sound
  | exprOrSpread => exact spreadOr_sound .rule
  | bindingExpr => exact bindingExprRule_sound
  | expr => exact exprRule_sound
  | orExpr => exact boolOperands_sound .rule
  | andExpr => exact boolOperands_sound .rule
  | notExpr => exact notExprRule_sound
  | bitOrExpr | bitXorExpr | bitAndExpr | shiftedExpr | addExpr | mulExpr =>
    exact leftAssoc_sound .rule .rule
  | signedExpr => exact signedExprRule_sound
  | awaitExpr => exact awaitExprRule_sound
  | postfixExpr => exact postfixExprRule_sound
  | atomicExpr => exact atomicExprRule_sound
  | stringRun => exact stringRunRule_sound
  | commandExpr => exact commandExprRule_sound
  | targetItem => exact targetItemRule_offers
  | fstringInside raw => exact fstringInsideRule_offers

theorem harvest_sound {mode : ParseMode} {found : mode.entry.Node}
    (h : harvest mode.entry found) : AllSound (nodes (mode.tree found)) := by
  cases mode with
  | exec => exact h
  | eval => exact h

theorem harvest_tree {mode : ParseMode} {found : mode.entry.Node}
    (h : harvest mode.entry found) :
    ∀ root ∈ nodes (mode.tree found), ∀ n, root.Contains n → n.BindsTargets :=
  fun root hroot n contains => (harvest_sound h root hroot n contains).1

end ShellSyntax.Language

namespace ShellSyntax

namespace Program

open ShellSyntax.Language

variable {source : Source} {origin : Option Origin} {options : ParseOptions} {tree : Ast}
  {s : ProgramSession}

/-! ### Binding positions -/

/-- Everywhere in the tree of an accepted program, targets are bound: names behind which a value
stands are names, targets with an annotation and targets that are updated are single ones, and all
else that is assigned, deleted, looped over or bound by a context is a target. -/
theorem bindings_hold_targets
    (hparse : parse options.mode (start source origin options) = (.ok tree, s)) :
    ∀ root ∈ nodes tree, ∀ n, root.Contains n → n.BindsTargets := by
  obtain ⟨found, rfl, hfound⟩ := accepted_harvest body_offers hparse
  exact harvest_tree hfound

def isLoop (tree : Module) : Bool :=
  match tree.body with
  | [⟨.for _ _ _ _ _, _⟩] => true
  | _ => false

theorem bindings_hold_targets_of_loop :
    ∃ target iter body orelse isAsync span s,
      parse .exec (start (.ofString "for a, *b in c: d = e\n") none .default) =
        (.ok (.module ⟨[⟨.for target iter body orelse isAsync, span⟩]⟩), s) ∧ target.isTarget := by
  obtain ⟨⟨stmts⟩, s, hparse, hloop⟩ := accepted_of_read (.ofString "for a, *b in c: d = e\n") none
    .default isLoop 5000 (by decide +kernel) (by decide +kernel)
  unfold isLoop at hloop
  split at hloop
  case h_1 target iter body orelse isAsync span heq =>
    cases heq
    have haccepted : parse ParseOptions.default.mode
        (start (.ofString "for a, *b in c: d = e\n") none .default) = (.ok _, s) := hparse
    exact ⟨target, iter, body, orelse, isAsync, span, s, hparse,
      bindings_hold_targets haccepted _ List.mem_cons_self _ .self⟩
  case h_2 => cases hloop

/-! ### Shapes -/

/-- All nodes in the tree of an accepted program are well-shaped. Lists that belong together are of
one length, bodies and all else that has to be there are not empty, a pipeline joins commands of one
argument or more, and neighbouring texts and words are merged. -/
theorem nodes_well_shaped
    (hparse : parse options.mode (start source origin options) = (.ok tree, s)) :
    ∀ root ∈ nodes tree, ∀ n, root.Contains n → n.WellShaped := by
  obtain ⟨found, rfl, hfound⟩ := accepted_harvest body_offers hparse
  exact fun root hroot n contains => (harvest_sound hfound root hroot n contains).2

def isPipeline (tree : Module) : Bool :=
  match tree.body with
  | [⟨.expr ⟨.pipeline _, _⟩, _⟩] => true
  | _ => false

theorem nodes_well_shaped_of_pipeline :
    ∃ command inner outer s,
      parse .exec (start (.ofString "$[ls a$B | wc]\n") none .default) =
        (.ok (.module ⟨[⟨.expr ⟨.pipeline command, inner⟩, outer⟩]⟩), s) ∧ command.WellShaped := by
  obtain ⟨⟨stmts⟩, s, hparse, hpipeline⟩ := accepted_of_read (.ofString "$[ls a$B | wc]\n") none
    .default isPipeline 5000 (by decide +kernel) (by decide +kernel)
  unfold isPipeline at hpipeline
  split at hpipeline
  case h_1 command inner outer heq =>
    cases heq
    have haccepted : parse ParseOptions.default.mode
        (start (.ofString "$[ls a$B | wc]\n") none .default) = (.ok _, s) := hparse
    exact ⟨command, inner, outer, s, hparse,
      nodes_well_shaped haccepted _ List.mem_cons_self (.expr ⟨.pipeline command, inner⟩)
        (.child .self List.mem_cons_self)⟩
  case h_2 => cases hpipeline

end Program

end ShellSyntax
