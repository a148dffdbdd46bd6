import ShellSyntax.Proofs.Language.CommandBalance

/-!
Statements close what they open. Nothing is open where one begins, so the parentheses of functions,
classes, contexts and imports, for which the parser counts no level, are the outermost brackets.
-/

namespace ShellSyntax

open ShellSyntax.Language

/-- The parentheses of a statement that begins with `keyword`. -/
theorem Feed.Spells.heads {W : TalliedWorld} {keyword : String} {head levels i : Nat}
    (spells : W.Spells head keyword) (hkeyword : keyword ∈ headKeywords) (opener : W.Spells i "(") :
    W.Enters (W.statementRoom levels) (W.hostRoom levels) i := by
  have hopen := opener.openAt (show Opener.ofSpelling? "(" = some .paren by decide)
  refine ⟨⟨_, hopen⟩, fun ⟨hroom, hnone⟩ => ⟨?_, ?_⟩⟩
  · refine TalliedWorld.room_uncounted ?_ hopen hroom
    rw [hnone]
    exact W.atHead head keyword hkeyword spells
  · rw [hopen, hnone]
    rfl

namespace Language

open Matcher

variable {α β : Type} {W : TalliedWorld} {n : W.Level} {S : W.Scope} {i j k : Nat}

theorem mapped_settles {m : Match (Option α)} {f : α → β} (hm : Returns W n S m i) :
    Returns W n S (m >>= fun found => pure (found.map f)) i := by
  refine fun safe => .bind ((hm safe).mono ?_)
  rintro (_ | a) j hfound
  · exact hfound
  · exact hfound

theorem stmtNode_ends {start : Nat} {form : StmtForm} (h : W.Closes S k i) :
    Comes W n (stmtNode start form) i (W.Ends S k) :=
  .spanSince h

/-- A token of this kind behind what has been closed. -/
theorem expectsKind {kind : TokenKind} {rest : Match (Option β)} (h : W.Closes S k i)
    (hkind : kind ≠ .op ∧ kind ≠ .fstringStart ∧ kind ≠ .fstringEnd)
    (hrest : W.Closes S k (i + 1) → Comes W n rest (i + 1) (W.Ends S k)) :
    Comes W n (acceptsKind kind >>= fun found => if (!found) = true then pure none else rest) i
      (W.Ends S k) :=
  .acceptsKind (fun _ ht hmatch => hrest (h.trans (closes_ofKind ht (hmatch ▸ hkind)))) trivial

/-! ### Between statements -/

/-- What closes all that it opens among expressions does so between statements. -/
theorem Returns.between {m : Match (Option α)} (hm : Settles W n m i) :
    Returns W n (W.statementRoom n) m i :=
  Returns.within hm TalliedWorld.hostRoom_of_statement

theorem Finishes.between {m : Match (Option α)} (hm : Finishes W n (W.hostRoom n) m i) :
    Finishes W n (W.statementRoom n) m i := by
  refine fun safe => (hm (safe.imp TalliedWorld.hostRoom_of_statement)).mono ?_
  rintro (_ | a) j hfound
  · trivial
  · exact TalliedWorld.Closes.weaken hfound TalliedWorld.hostRoom_of_statement

/-! ### Assignments -/

theorem annotatedAssignment_settles : Settles W n annotatedAssignment i := by
  refine attempt_settles fun safe => ?_
  refine needs (finishes restricted_settles safe) rfl fun target j hj => ?_
  refine expects fun spells => ?_
  have hcolon := hj.trans (spells.closes (by decide))
  refine needs (Returns.since (.called ·) hcolon safe) rfl fun value k hk => ?_
  have hdefault : Settles W n (attempt fun _ => do
      if !(← accepts "=") then return none
      yieldOrTuple) k :=
    attempt_settles fun safe => expects fun spells =>
      yieldOrTuple_settles.since (spells.closes (by decide)) safe
  refine .bind ((closes_of_settles (hdefault (hk.safe safe))).mono fun _ _ hl => ?_)
  exact stmtNode_ends (hk.trans hl)

theorem assignmentTarget_settles : Settles W n assignmentTarget i :=
  attempt_settles fun safe => needs (finishes targetTuple_settles safe) rfl fun _ _ hj =>
    expects fun spells => hj.trans (spells.closes (by decide))

theorem plainAssignment_settles : Settles W n plainAssignment i := by
  refine attempt_settles fun safe => ?_
  refine needs (many1_ends (fun _ => finishes assignmentTarget_settles) safe) rfl
    fun targets j hj => ?_
  refine needs (yieldOrTuple_settles.since hj safe) rfl fun value k hk => .lookahead fun found => ?_
  split
  · trivial
  · exact stmtNode_ends hk

theorem augmentedOperator_settles : Returns W n S augmentedOperator i := by
  refine fun _ => .peek fun token ht => ?_
  split
  case isTrue => exact rfl
  case isFalse hkind =>
    have hop : token.kind = .op := by simpa using hkind
    split
    case h_1 => exact rfl
    case h_2 op hlookup =>
      have hsigns : ∀ text ∈ augmentedOperators.map Prod.fst, isQuiet text = true := by decide
      have spells : W.Spells i token.text := ⟨token, ht, .inl hop, rfl⟩
      obtain ⟨_, _, htable, -⟩ := List.lookup_eq_some_iff.mp hlookup
      exact .next fun _ _ => spells.closes (hsigns _ (by simp [htable]))

theorem augmentedAssignment_settles : Settles W n augmentedAssignment i :=
  attempt_settles fun safe => needs (finishes restricted_settles safe) rfl fun _ _ hj =>
    needs (Returns.since augmentedOperator_settles hj safe) rfl fun _ _ hk =>
      needs (yieldOrTuple_settles.since hk safe) rfl fun _ _ hl => stmtNode_ends hl

theorem assignment_settles : Settles W n assignment i :=
  fun safe => tries (annotatedAssignment_settles safe) (fun _ _ hj => hj)
    (tries (plainAssignment_settles safe) (fun _ _ hj => hj) (augmentedAssignment_settles safe))

/-! ### Imports -/

theorem identifier_settles : Returns W n S identifier i :=
  fun _ => .name (fun _ ht hkind => closes_ofKind ht (by simp [hkind])) rfl

theorem modulePath_settles : Settles W n modulePath i :=
  mapped_settles (separated_settles (·.closes (by decide)) fun _ => identifier_settles)

theorem aliased_settles {id : Match (Option String)} (hid : ∀ j, Settles W n id j) :
    Settles W n (aliased id) i := by
  refine attempt_settles fun safe => needs (finishes (hid i) safe) rfl fun imported j hj => ?_
  refine unlessReads hj fun spells => ?_
  have has := hj.trans (spells.closes (by decide))
  exact needs (Returns.since identifier_settles has safe) rfl fun _ _ hk => hk

theorem importedNames_settles : Settles W n (separated "," (aliased identifier)) i :=
  separated_settles (·.closes (by decide)) fun _ => aliased_settles fun _ => identifier_settles

theorem plainImport_ends : Finishes W n (W.hostRoom n) plainImport i := by
  refine fun safe => passes (by decide) fun _ j (hj : W.Closes (W.hostRoom n) i j) => ?_
  refine (mapped_settles ?_).since hj safe
  exact separated_settles (·.closes (by decide)) fun _ =>
    aliased_settles fun _ => modulePath_settles

theorem leadingDots_closes (safe : (W.hostRoom n).Safe i) :
    Comes W n leadingDots i fun _ j => W.Closes (W.hostRoom n) i j :=
  .bind ((many_closes (fun _ => finishes fun _ => oneOf_settles (by decide)) safe).mono
    fun _ _ hj => hj)

theorem importTargets_ends {head : Nat} (keyword : W.Spells head "import") :
    Finishes W n (W.statementRoom n) importTargets i := by
  refine finishes (attempt_settles fun safe => ifReads (fun star => star.closes (by decide))
    (reads (fun opener => ?_) ?_))
  · have enters : W.Enters (W.statementRoom n) (W.hostRoom n) i :=
      keyword.heads (by decide) opener
    have hinside := enters.safe safe
    refine needs (finishes importedNames_settles hinside) rfl fun names j hj => ?_
    refine passes (by decide) fun _ k (hk : W.Closes (W.hostRoom n) j k) => expects fun closer => ?_
    exact .enclosed enters (hj.trans hk) (closer.shuts (by decide))
  · refine needs (finishes (Returns.between importedNames_settles) safe) rfl fun names j hj => ?_
    refine .lookahead fun found => ?_
    split
    · trivial
    · exact hj

theorem fromImport_ends : Finishes W n (W.statementRoom n) fromImport i := by
  intro safe
  have hhost := safe.imp TalliedWorld.hostRoom_of_statement
  refine passes (by decide) fun _ j (hj : W.Closes (W.hostRoom n) i j) => .bind ?_
  refine (leadingDots_closes (hj.safe hhost)).mono fun level k hk => .bind ?_
  have hdots := hj.trans hk
  refine (closes_of_settles (modulePath_settles (hdots.safe hhost))).mono fun path l hl => ?_
  split
  · trivial
  · refine expects fun keyword => ?_
    have hpath := (hdots.trans hl).trans (keyword.closes (by decide))
    have hstatement := hpath.weaken TalliedWorld.hostRoom_of_statement
    exact needs ((importTargets_ends keyword).since hstatement safe) rfl fun _ _ hm => hm

/-! ### Statements of one keyword -/

theorem optionalExpression_closes {separator : String} (hseparator : isQuiet separator = true)
    (safe : (W.hostRoom n).Safe i) :
    Comes W n (optionalExpression separator) i fun _ j => W.Closes (W.hostRoom n) i j := by
  refine closes_of_settles (attempt_settles (fun safe => expects fun spells => ?_) safe)
  exact Returns.since (.called ·) (spells.closes hseparator) safe

theorem raising_ends : Finishes W n (W.hostRoom n) raising i := by
  refine fun safe => passes (by decide) fun _ j (hj : W.Closes (W.hostRoom n) i j) => ?_
  refine tries (.called (hj.safe safe)) (fun exc k hk => .bind ?_) hj
  have hexc := hj.trans hk
  exact (optionalExpression_closes (by decide) (hexc.safe safe)).mono fun _ _ hl => hexc.trans hl

theorem deletion_ends : Finishes W n (W.hostRoom n) deletion i := by
  refine fun safe => passes (by decide) fun _ j (hj : W.Closes (W.hostRoom n) i j) => ?_
  have htargets : Settles W n (separated "," deletableTarget) j :=
    separated_settles (·.closes (by decide)) fun _ => restricted_settles
  refine needs (htargets.since hj safe) rfl fun targets k hk => ?_
  refine passes (by decide) fun _ l (hl : W.Closes (W.hostRoom n) k l) => .peek fun token _ => ?_
  split
  · exact hk.trans hl
  · trivial

theorem assertion_ends : Finishes W n (W.hostRoom n) assertion i := by
  refine fun safe => passes (by decide) fun _ j (hj : W.Closes (W.hostRoom n) i j) => ?_
  refine needs (Returns.since (.called ·) hj safe) rfl fun test k hk => .bind ?_
  exact (optionalExpression_closes (by decide) (hk.safe safe)).mono fun _ _ hl => hk.trans hl

variable {token : Token}

theorem scopeDeclaration_ends (hkeyword : W.Closes (W.hostRoom n) i (i + 1)) :
    Finishes W n (W.hostRoom n) scopeDeclaration i := by
  have hnames : Settles W n (separated "," identifier) (i + 1) :=
    separated_settles (·.closes (by decide)) fun _ => identifier_settles
  exact fun safe => .next fun _ _ => needs (hnames.since hkeyword safe) rfl fun _ _ hj => hj

theorem keywordStatement_ends {keyword : String} (hkeyword : W.Closes (W.hostRoom n) i (i + 1)) :
    Finishes W n (W.statementRoom n) (keywordStatement keyword) i := by
  intro safe
  have hhost := safe.imp TalliedWorld.hostRoom_of_statement
  have hstatement : W.Closes (W.statementRoom n) i (i + 1) :=
    hkeyword.weaken TalliedWorld.hostRoom_of_statement
  unfold keywordStatement
  split
  case h_1 | h_2 | h_3 => exact .next fun _ _ => hstatement
  case h_4 =>
    have hvalue := spreadTuple_settles (hkeyword.safe hhost)
    refine .next fun _ _ => .bind ((closes_of_settles hvalue).mono fun _ _ hj => ?_)
    exact (hkeyword.trans hj).weaken TalliedWorld.hostRoom_of_statement
  case h_5 => exact Finishes.between (finishes (mapped_settles yielded_settles)) safe
  case h_6 => exact Finishes.between plainImport_ends safe
  case h_7 => exact fromImport_ends safe
  case h_8 => exact Finishes.between raising_ends safe
  case h_9 => exact Finishes.between deletion_ends safe
  case h_10 => exact Finishes.between assertion_ends safe
  case h_11 | h_12 => exact Finishes.between (scopeDeclaration_ends hkeyword) safe
  case h_13 => trivial

theorem smallStmtRule_settles : Returns W n (W.statementRoom n) smallStmtRule i := by
  refine attempt_settles fun safe => diagnosed inspect_back ?_
  refine tries (Returns.between assignment_settles safe) (fun _ _ hj => hj) ?_
  refine tries (Returns.between spreadTuple_settles safe) (fun _ _ hj => stmtNode_ends hj) ?_
  refine .peek fun token ht => ?_
  split
  case isTrue => trivial
  case isFalse hkind =>
    have hname : token.kind = .name := by simpa using hkind
    have hkeyword : W.Closes (W.hostRoom n) i (i + 1) := closes_ofKind ht (by simp [hname])
    exact needs (keywordStatement_ends hkeyword safe) rfl fun _ _ hj => stmtNode_ends hj

theorem stmtLine_settles : Returns W n (W.statementRoom n) stmtLine i := by
  have hstmts : Returns W n (W.statementRoom n) (separated ";" smallStmt) i :=
    separated_settles (·.closes (by decide)) fun _ => (.called ·)
  refine attempt_settles fun safe => needs (finishes hstmts safe) rfl fun stmts j hj => ?_
  refine passes (by decide) fun _ k (hk : W.Closes (W.statementRoom n) j k) => ?_
  exact expectsKind (hj.trans hk) (by decide) fun hline => hline

/-! ### Blocks -/

theorem indentedSuite_settles : Returns W n (W.statementRoom n) indentedSuite i := by
  refine attempt_settles fun safe => expectsKind (.refl i) (by decide) fun hline => ?_
  refine expectsKind hline (by decide) fun hindent => .bind ?_
  have hbody : Comes W n stmtList (i + 2) (closed W n .stmtList (i + 2)) :=
    .called (hindent.safe safe)
  refine hbody.mono ?_
  rintro (_ | body) j hj
  · trivial
  · exact expectsKind (hindent.trans hj) (by decide) fun hdedent => hdedent

theorem suiteRule_settles : Returns W n (W.statementRoom n) suiteRule i := by
  refine fun safe => tries (indentedSuite_settles safe) (fun _ _ hj => hj) ?_
  exact tries (stmtLine_settles safe) (fun _ _ hj => hj) (diagnosed inspect_back rfl)

theorem colonSuite_settles : Returns W n (W.statementRoom n) colonSuite i :=
  attempt_settles fun safe => expects fun spells =>
    Returns.since (.called ·) (spells.closes (by decide)) safe

theorem elseSuite_closes (safe : (W.statementRoom n).Safe i) :
    Comes W n elseSuite i fun _ j => W.Closes (W.statementRoom n) i j := by
  refine .bind ((closes_of_settles (attempt_settles (fun safe => expects fun spells => ?_)
    safe)).mono fun _ _ hj => hj)
  exact colonSuite_settles.since (spells.closes (by decide)) safe

/-! ### Branches and loops -/

theorem branch_ends {keyword : String} (hkeyword : isQuiet keyword = true) :
    Finishes W n (W.statementRoom n) (branch keyword) i := by
  refine fun safe => expects fun spells => ?_
  have htest : Returns W n (W.statementRoom n) bindingExpr (i + 1) := Returns.between (.called ·)
  refine needs (htest.since (spells.closes hkeyword) safe) rfl fun test j hj => ?_
  refine needs (colonSuite_settles.since hj safe) rfl fun body k hk => .peek fun token _ => ?_
  split
  · have helif : Finishes W n (W.statementRoom n) elifBranch k := (.called ·)
    exact .mark (needs (helif.since hk safe) rfl fun _ _ hl => .spanSince hl)
  · exact .bind ((elseSuite_closes (hk.safe safe)).mono fun _ _ hl => hk.trans hl)

theorem whileLoop_ends : Finishes W n (W.statementRoom n) whileLoop i := by
  refine fun safe => passes (by decide) fun _ j (hj : W.Closes (W.statementRoom n) i j) => ?_
  have htest : Returns W n (W.statementRoom n) bindingExpr j := Returns.between (.called ·)
  refine needs (htest.since hj safe) rfl fun test k hk => ?_
  refine needs (colonSuite_settles.since hk safe) rfl fun body l hl => .bind ?_
  exact (elseSuite_closes (hl.safe safe)).mono fun _ _ hm => hl.trans hm

theorem forLoop_ends {isAsync : Bool} : Finishes W n (W.statementRoom n) (forLoop isAsync) i := by
  refine fun safe => expects fun spells => ?_
  have htarget := Returns.between (n := n) (i := i + 1) targetTuple_settles
  refine needs (htarget.since (spells.closes (by decide)) safe) rfl ?_
  refine fun target j hj => expects fun spells => ?_
  have hin := hj.trans (spells.closes (by decide))
  refine needs ((Returns.between spreadTuple_settles).since hin safe) rfl fun iter k hk => ?_
  refine needs (colonSuite_settles.since hk safe) rfl fun body l hl => .bind ?_
  exact (elseSuite_closes (hl.safe safe)).mono fun _ _ hm => hl.trans hm

/-! ### Contexts -/

theorem contextTarget_settles : Settles W n contextTarget i := by
  refine attempt_settles fun safe => expects fun spells => ?_
  refine needs (Returns.since (.called ·) (spells.closes (by decide)) safe) rfl ?_
  refine fun target j hj => .peek fun token _ => ?_
  split
  · exact hj
  · trivial

theorem contextItem_settles : Settles W n contextItem i := by
  refine fun safe => tries (.called safe) (fun _ _ hj => .bind ?_) rfl
  exact (closes_of_settles (contextTarget_settles (hj.safe safe))).mono fun _ _ hk => hj.trans hk

theorem contextItems_settles : Settles W n (separated "," contextItem) i :=
  separated_settles (·.closes (by decide)) fun _ => contextItem_settles

theorem rawWith_ends : Finishes W n (W.hostRoom n) rawWith i := by
  refine fun safe => diagnosed inspect_back ?_
  refine needs (finishes contextItems_settles safe) rfl fun items j hj => expects fun spells => ?_
  have hsuite : Settles W n (ofKind .macroParam) (j + 1) := ofKind_settles (by decide)
  exact needs (hsuite.since (hj.trans (spells.closes (by decide))) safe) rfl fun _ _ hk => hk

theorem parenthesizedContexts_settles {head : Nat} (keyword : W.Spells head "with") :
    Returns W n (W.statementRoom n) parenthesizedContexts i := by
  refine attempt_settles fun safe => expects fun opener => ?_
  have enters : W.Enters (W.statementRoom n) (W.hostRoom n) i :=
    keyword.heads (by decide) opener
  refine needs (finishes contextItems_settles (enters.safe safe)) rfl fun items j hj => ?_
  refine passes (by decide) fun _ k (hk : W.Closes (W.hostRoom n) j k) => expects fun closer => ?_
  have hheads := TalliedWorld.Closes.enclosed enters (hj.trans hk) (closer.shuts (by decide))
  exact needs (colonSuite_settles.since hheads safe) rfl fun _ _ hl => hl

theorem contexts_ends {isAsync : Bool} {head : Nat} (keyword : W.Spells head "with") :
    Finishes W n (W.statementRoom n) (do
      if let some (items, body) ← parenthesizedContexts then
        return some (StmtForm.with items body isAsync)
      let some items ← separated "," contextItem | return none
      let some body ← colonSuite | return none
      return some (.with items body isAsync)) i := by
  refine fun safe => tries (parenthesizedContexts_settles keyword safe) (fun _ _ hj => hj) ?_
  refine needs (finishes (Returns.between contextItems_settles) safe) rfl fun items j hj => ?_
  exact needs (colonSuite_settles.since hj safe) rfl fun _ _ hk => hk

theorem contextStmt_ends {isAsync : Bool} :
    Finishes W n (W.statementRoom n) (contextStmt isAsync) i := by
  refine fun safe => expects fun keyword => ?_
  have hwith : W.Closes (W.statementRoom n) i (i + 1) := keyword.closes (by decide)
  cases isAsync with
  | true => exact (contexts_ends keyword).since hwith safe
  | false =>
    refine ifReads (fun spells => ?_) ((contexts_ends keyword).since hwith safe)
    exact (Finishes.between rawWith_ends).since (hwith.trans (spells.closes (by decide))) safe

/-! ### Exceptions -/

section Exceptions

variable (h : W.Closes (W.statementRoom n) k i) (safe : (W.statementRoom n).Safe k)

include h safe in
theorem handlerBody_ends {start : Nat} {exception : Option Expr} {id : Option String} :
    Comes W n (do
      let some body ← colonSuite | return none
      return some ⟨exception, id, body, ← spanSince start⟩ : Match (Option Handler)) i
      (W.Ends (W.statementRoom n) k) :=
  needs (colonSuite_settles.since h safe) rfl fun _ _ hj => .spanSince hj

theorem exceptHandler_settles : Returns W n (W.statementRoom n) exceptHandler i := by
  refine attempt_settles fun safe => expects fun spells => .bind ?_
  have hexcept : W.Closes (W.statementRoom n) i (i + 1) := spells.closes (by decide)
  have hvalue : Returns W n (W.statementRoom n) expr (i + 1) := Returns.between (.called ·)
  refine (closes_of_settles (hvalue (hexcept.safe safe))).mono fun exception j hj => ?_
  have hkind := hexcept.trans hj
  cases exception with
  | none => exact handlerBody_ends hkind safe
  | some value =>
    refine ifReads (fun spells => ?_) (handlerBody_ends hkind safe)
    have has := hkind.trans (spells.closes (by decide))
    exact needs (Returns.since identifier_settles has safe) rfl
      fun _ _ hk => handlerBody_ends hk safe

include h safe in
theorem finally_ends {body orelse : List Stmt} {handlers : List Handler} :
    Comes W n (do
      let mut finalbody := []
      if ← accepts "finally" then
        let some stmts ← colonSuite | return none
        finalbody := stmts
      if handlers.isEmpty && finalbody.isEmpty then return none
      return some (StmtForm.try body handlers orelse finalbody)) i
      (W.Ends (W.statementRoom n) k) := by
  have hend {finalbody : List Stmt} {j : Nat} (hj : W.Closes (W.statementRoom n) k j) :
      Comes W n (do
        if handlers.isEmpty && finalbody.isEmpty then return none
        return some (StmtForm.try body handlers orelse finalbody) : Match (Option StmtForm)) j
        (W.Ends (W.statementRoom n) k) := by
    split
    · trivial
    · exact hj
  refine ifReads (fun spells => ?_) (hend h)
  have hfinally := h.trans (spells.closes (by decide))
  exact needs (colonSuite_settles.since hfinally safe) rfl fun _ _ hj => hend hj

theorem tryForm_ends : Finishes W n (W.statementRoom n) tryForm i := by
  refine fun safe => passes (by decide) fun _ j (hj : W.Closes (W.statementRoom n) i j) => ?_
  refine needs (colonSuite_settles.since hj safe) rfl fun body k hk => .bind ?_
  have hhandlers := many_closes (fun _ => finishes exceptHandler_settles) (hk.safe safe)
  refine hhandlers.mono fun handlers l hl => ?_
  have hblock := hk.trans hl
  split
  · exact finally_ends hblock safe
  · refine .bind ((elseSuite_closes (hblock.safe safe)).mono fun orelse m hm => ?_)
    exact finally_ends (hblock.trans hm) safe

end Exceptions

/-! ### Definitions -/

theorem returnAnnotation_ends : Finishes W n (W.hostRoom n) returnAnnotation i := by
  refine fun safe => unlessReads (.refl i) fun spells => ?_
  exact needs (Returns.since (.called ·) (spells.closes (by decide)) safe) rfl fun _ _ hj => hj

theorem functionDefinition_ends {decorators : List Expr} {isAsync : Bool} :
    Finishes W n (W.statementRoom n) (functionDefinition decorators isAsync) i := by
  refine fun safe => expects fun keyword => ?_
  have hdef : W.Closes (W.statementRoom n) i (i + 1) := keyword.closes (by decide)
  refine needs (Returns.since identifier_settles hdef safe) rfl fun id j hj => ?_
  refine expects fun opener => ?_
  have enters : W.Enters (W.statementRoom n) (W.hostRoom n) j :=
    keyword.heads (by decide) opener
  have hinside := enters.safe (hj.safe safe)
  refine needs (finishes parameterList_settles hinside) rfl fun args k hk => ?_
  refine expects fun closer => ?_
  have hparameters := hj.trans (.enclosed enters hk (closer.shuts (by decide)))
  refine needs ((Finishes.between returnAnnotation_ends).since hparameters safe) rfl
    fun returns l hl => ?_
  exact needs (colonSuite_settles.since hl safe) rfl fun _ _ hm => hm

theorem classArguments_ends {head : Nat} (keyword : W.Spells head "class") :
    Finishes W n (W.statementRoom n) classArguments i := by
  refine fun safe => unlessReads (.refl i) fun opener => ?_
  have enters : W.Enters (W.statementRoom n) (W.hostRoom n) i :=
    keyword.heads (by decide) opener
  refine needs (argumentList_ends (enters.safe safe)) rfl fun arguments j hj => ?_
  exact expects fun closer => .enclosed enters hj (closer.shuts (by decide))

theorem classDefinition_ends {decorators : List Expr} :
    Finishes W n (W.statementRoom n) (classDefinition decorators) i := by
  refine fun safe => expects fun keyword => ?_
  have hclass : W.Closes (W.statementRoom n) i (i + 1) := keyword.closes (by decide)
  refine needs (Returns.since identifier_settles hclass safe) rfl fun id j hj => ?_
  refine needs ((classArguments_ends keyword).since hj safe) rfl fun arguments k hk => ?_
  exact needs (colonSuite_settles.since hk safe) rfl fun _ _ hl => hl

theorem decorator_settles : Settles W n decorator i := by
  refine attempt_settles fun safe => expects fun spells => ?_
  refine needs (Returns.since (.called ·) (spells.closes (by decide)) safe) rfl fun _ j hj => ?_
  exact expectsKind hj (by decide) fun hline => hline

/-- No quote is spelled like this keyword. -/
theorem closes_async (ht : W.token i = .ok token) (htext : token.text = "async") :
    W.Closes S i (i + 1) := by
  have lettered := W.lettered i token ht
  refine .step (NestedWorld.openAt_same ht ⟨fun hopening => ?_, fun hclosing => ?_⟩ fun _ => ?_) ?_
  · rcases lettered.opening hopening with hquote | hquote
    · rw [htext] at hquote
      exact absurd hquote (by decide)
    · rw [htext] at hquote
      exact absurd hquote (by decide)
  · obtain ⟨count, mark, hmarks⟩ := lettered.closing hclosing
    have hsame (c : Char) (hc : c ∈ "async".toList) : c = mark :=
      List.eq_of_mem_replicate (hmarks ▸ htext ▸ hc)
    cases (hsame 'a' (by decide)).trans (hsame 's' (by decide)).symm
  · rw [htext]
    decide
  · rintro _ ⟨⟨t, ht', _, hsign⟩, _⟩
    cases ht.symm.trans ht'
    rw [htext] at hsign
    exact absurd (List.mem_cons.mpr hsign) (by decide)

theorem decoratedDefinition_ends : Finishes W n (W.statementRoom n) decoratedDefinition i := by
  intro safe
  have hdecorators : Finishes W n (W.hostRoom n) (many1 decorator) i :=
    many1_ends fun _ => finishes decorator_settles
  refine needs (hdecorators.between safe) rfl fun decorators j hj => .peek fun token ht => ?_
  split
  case h_1 => exact functionDefinition_ends.since hj safe
  case h_2 => exact classDefinition_ends.since hj safe
  case h_3 htext =>
    refine .next fun _ _ => ?_
    exact functionDefinition_ends.since (hj.trans (closes_async ht htext)) safe
  case h_4 => trivial

theorem asyncForm_ends : Finishes W n (W.statementRoom n) asyncForm i := by
  refine fun safe => passes (by decide) fun _ j (hj : W.Closes (W.statementRoom n) i j) => ?_
  refine .peek fun token _ => ?_
  split
  · exact functionDefinition_ends.since hj safe
  · exact forLoop_ends.since hj safe
  · exact contextStmt_ends.since hj safe
  · trivial

/-! ### Statements -/

theorem stmtOfForm_ends {start : Nat} {m : Match (Option StmtForm)}
    {next : Option StmtForm → Match (Option Stmt)} (hm : Finishes W n S m i)
    (hnone : next none = .done none) (hsome : ∀ form, next (some form) = stmtNode start form) :
    Finishes W n S (m >>= next) i :=
  fun safe => needs (hm safe) hnone fun form _ hj => hsome form ▸ stmtNode_ends hj

theorem blockStmt_settles : Returns W n (W.statementRoom n) blockStmt i := by
  refine attempt_settles fun safe => .peek fun token _ => ?_
  dsimp only
  split
  case h_1 => exact stmtOfForm_ends decoratedDefinition_ends rfl (fun _ => rfl) safe
  case h_2 => exact stmtOfForm_ends functionDefinition_ends rfl (fun _ => rfl) safe
  case h_3 => exact stmtOfForm_ends classDefinition_ends rfl (fun _ => rfl) safe
  case h_4 => exact stmtOfForm_ends (branch_ends (by decide)) rfl (fun _ => rfl) safe
  case h_5 => exact stmtOfForm_ends whileLoop_ends rfl (fun _ => rfl) safe
  case h_6 => exact stmtOfForm_ends forLoop_ends rfl (fun _ => rfl) safe
  case h_7 => exact stmtOfForm_ends contextStmt_ends rfl (fun _ => rfl) safe
  case h_8 => exact stmtOfForm_ends tryForm_ends rfl (fun _ => rfl) safe
  case h_9 => exact stmtOfForm_ends asyncForm_ends rfl (fun _ => rfl) safe
  case h_10 => trivial

theorem stmtOrLine_settles : Returns W n (W.statementRoom n) stmtOrLine i :=
  fun safe => tries (blockStmt_settles safe) (fun _ _ hj => hj) (stmtLine_settles safe)

theorem stmtListRule_closes (safe : (W.statementRoom n).Safe i) :
    Comes W n stmtListRule i fun _ j => W.Closes (W.statementRoom n) i j := by
  have hstmts := many_closes (i := i) (fun _ => finishes stmtOrLine_settles) safe
  refine .bind (.bind (hstmts.mono ?_))
  rintro (_ | ⟨stmt, stmts⟩) j hj
  · exact hj
  · exact hj

theorem programRule_ends : Finishes W n (W.statementRoom n) programRule i := by
  intro safe
  have hbody : Comes W n stmtList i (closed W n .stmtList i) := .called safe
  exact .bind (hbody.mono fun _ _ hj => expectsKind hj (by decide) fun hend => hend)

theorem soleExprRule_ends : Finishes W n (W.hostRoom n) soleExprRule i := by
  intro safe
  have hvalue : Settles W n exprTuple i := tupleOrSingle_settles fun _ => (.called ·)
  refine needs (finishes hvalue safe) rfl fun value j hj => .bind ?_
  have hline (k : Nat) : Finishes W n (W.hostRoom n) (ofKind .newline) k :=
    finishes (ofKind_settles (by decide))
  refine (many_closes hline (hj.safe safe)).mono fun _ k hk => ?_
  exact expectsKind (hj.trans hk) (by decide) fun hend => hend

/-! ### The grammar -/

theorem body_closed (n : W.Level) (r : Rule) (i : Nat) (safe : Language.safe W n r i) :
    LeadsIn W.toWorld (Language.safe W) (closed W) W.inward n (body r) i (closed W n r i) := by
  cases r with
  | program => exact programRule_ends safe
  | soleExpr => exact soleExprRule_ends safe
  | stmtList => exact stmtListRule_closes safe
  | smallStmt => exact smallStmtRule_settles safe
  | suite => exact suiteRule_settles safe
  | elifBranch => exact branch_ends (by decide) safe
  | exprOrSpread => exact spreadOr_settles (.called ·) safe
  | bindingExpr => exact bindingExprRule_settles safe
  | expr => exact exprRule_settles safe
  | orExpr => exact boolOperands_settles (by decide) (fun _ => (.called ·)) safe
  | andExpr => exact boolOperands_settles (by decide) (fun _ => (.called ·)) safe
  | notExpr => exact notExprRule_settles safe
  | bitOrExpr | bitXorExpr | bitAndExpr | shiftedExpr | addExpr | mulExpr =>
    exact leftAssoc_settles (.called ·) (fun _ => (.called ·)) safe
  | signedExpr => exact signedExprRule_settles safe
  | awaitExpr => exact awaitExprRule_settles safe
  | postfixExpr => exact postfixExprRule_settles safe
  | atomicExpr => exact atomicExprRule_settles safe
  | stringRun => exact stringRunRule_settles safe
  | commandExpr => exact firstOf_captured _ safe
  | targetItem => exact targetItemRule_settles safe
  | fstringInside raw => exact fstringInsideRule_settles safe

theorem grammar_closed (W : TalliedWorld) :
    grammar.LeadsIn W.toWorld (safe W) (closed W) W.inward where
  none := by
    intro n r i
    cases r with
    | program | soleExpr | elifBranch => trivial
    | stmtList => exact .refl i
    | _ => exact rfl
  body := body_closed

end Language

/-! ### Where nothing is counted -/

/-- No bracket is counted, and signs stray from `since` on. -/
def NestedWorld.uncounted (W : NestedWorld) (most since : Nat) : TalliedWorld where
  toNestedWorld := W
  counts _ _ := false
  most := most
  since := since
  watched := False
  inCommand _ _ _ := rfl
  inString _ _ := rfl
  atHead _ _ _ _ := rfl
  undiagnosed := False.elim
  whole := False.elim

namespace NestedWorld

variable {W : NestedWorld} {most since i : Nat}

theorem uncounted_weigh (open_ : List Opening) : (W.uncounted most since).weigh open_ = 0 := by
  change Opening.weigh (fun _ _ => false) open_ = 0
  induction open_ with
  | nil => rfl
  | cons opening outer induction =>
    cases opening with
    | literal => exact induction
    | bracket opener => exact induction

theorem uncounted_room (n : (W.uncounted most since).Level) (open_ : List Opening) :
    ((W.uncounted most since).room n).holds open_ := by
  have hlevel : (n : Nat) ≤ most := Nat.le_of_lt_succ n.isLt
  simp only [TalliedWorld.room, uncounted_weigh]
  omega

theorem uncounted_captureRoom (n : (W.uncounted most since).Level) (open_ : List Opening) :
    ((W.uncounted most since).captureRoom n).holds open_ :=
  fun opener => uncounted_room n (.bracket opener :: open_)

/-- Levels do not matter where nothing is counted. -/
theorem uncounted_levelFree :
    LevelFree (safe (W.uncounted most since)) (closed (W.uncounted most since)) := by
  refine fun n n' r i found j _ => closed_at_level fun _ hscope => ?_
  cases r with
  | commandExpr => exact uncounted_captureRoom n _
  | stringRun => exact uncounted_room n _
  | _ => exact ⟨uncounted_room n _, hscope.2⟩

theorem call_uncounted (most since fuel : Nat) :
    Callee.LeadsIn (safe (W.uncounted most since)) (closed (W.uncounted most since))
      (W.uncounted most since).inward (W.call grammar fuel) :=
  (grammar_closed (W.uncounted most since)).call uncounted_levelFree fuel

end NestedWorld

end ShellSyntax
