import ShellSyntax.Language.Grammar
import ShellSyntax.Proofs.Language.Expressions
import ShellSyntax.Proofs.Parser.Answer

/-!
Statements go forward, and each rule for them calls only lower ones where it starts. So the rules
of the language are governed by their ranks.
-/

namespace ShellSyntax.Language

open Matcher

variable {α : Type} {W : World} {b : Base} {i j k : Nat}

/-! ### Assignments -/

theorem annotatedAssignment_advances (h : ranking.Allows b .bitOrExpr i) :
    Advances W ranking b annotatedAssignment i := by
  have hstart := h.start_le
  refine attempt_advances hstart ?_
  refine (soleTarget_advances h).need (Nat.le_refl i) rfl fun target j hj => ?_
  refine .expect (by omega) ?_
  refine Advances.need (.rule (.later (by omega) rfl) rfl) (by omega) rfl fun annotation k hk => ?_
  have hvalue : Advances W ranking b
      (attempt fun _ => do
        if !(← accepts "=") then return none
        yieldOrTuple) k := by
    refine attempt_advances (by omega) (.expect (Nat.le_refl k) ?_)
    exact (yieldOrTuple_advances (.later (by omega) rfl)).after (by omega)
  refine .bind (hvalue.mono fun value l hl => ?_)
  have hle := hl.1
  exact stmtNode_ensures (by omega) (by omega)

theorem assignmentTarget_advances (h : ranking.Allows b .targetItem i) :
    Advances W ranking b assignmentTarget i := by
  refine attempt_advances h.start_le ?_
  refine (targetTuple_advances h).need (Nat.le_refl i) rfl fun target j hj => ?_
  exact .expect (by omega) (.some (by omega))

theorem plainAssignment_advances (h : ranking.Allows b .targetItem i) :
    Advances W ranking b plainAssignment i := by
  have hstart := h.start_le
  refine attempt_advances hstart ?_
  have htargets : Advances W ranking b (many1 assignmentTarget) i :=
    .many1 hstart fun _ hj => assignmentTarget_advances (h.at hj)
  refine htargets.need (Nat.le_refl i) rfl fun targets j hj => ?_
  refine (yieldOrTuple_advances (.later (by omega) rfl)).need (by omega) rfl fun value k hk => ?_
  refine .lookahead (by omega) .spelled fun found => ?_
  split
  · exact .none (by omega)
  · exact stmtNode_ensures (by omega) (by omega)

theorem augmentedAssignment_advances (h : ranking.Allows b .bitOrExpr i) :
    Advances W ranking b augmentedAssignment i := by
  have hstart := h.start_le
  refine attempt_advances hstart ?_
  refine (soleTarget_advances h).need (Nat.le_refl i) rfl fun target j hj => ?_
  refine augmentedOperator_advances.need (by omega) rfl fun op k hk => ?_
  refine (yieldOrTuple_advances (.later (by omega) rfl)).need (by omega) rfl fun value l hl => ?_
  exact stmtNode_ensures (by omega) (by omega)

theorem assignment_advances (h : ranking.Allows b .targetItem i) :
    Advances W ranking b assignment i := by
  have hlower : ranking.Allows b .bitOrExpr i := h.lower rfl (by decide)
  refine (annotatedAssignment_advances hlower).andThen (fun stmt j hj => .some hj) fun j hj => ?_
  refine (plainAssignment_advances (h.at hj)).andThen (fun stmt k hk => .some (by omega)) ?_
  intro k hk
  exact (augmentedAssignment_advances (hlower.at (by omega))).after (by omega)

/-! ### Imports -/

theorem identifier_advances : Advances W ranking b identifier i :=
  Advances.name.map rfl fun _ => ⟨_, rfl⟩

theorem modulePath_advances (hstart : b.start ≤ i) : Advances W ranking b modulePath i :=
  Advances.map (.separated hstart fun _ _ => identifier_advances) rfl fun _ => ⟨_, rfl⟩

theorem aliased_advances {id : Match (Option String)} (hstart : b.start ≤ i)
    (hid : Advances W ranking b id i) : Advances W ranking b (aliased id) i := by
  refine attempt_advances hstart (hid.need (Nat.le_refl i) rfl fun imported j hj => ?_)
  refine .unlessAccepts (.some hj) ?_
  refine identifier_advances.need (by omega) rfl fun asname k hk => ?_
  exact .some (by omega)

theorem plainImport_advances (hstart : b.start ≤ i) : Advances W ranking b plainImport i := by
  refine .acceptsOrNot fun _ j hj => ?_
  have hnames : Advances W ranking b (separated "," (aliased modulePath)) j :=
    .separated (by omega) fun k hk => aliased_advances (by omega) (modulePath_advances (by omega))
  exact hnames.need hj rfl fun names k hk => .some (by omega)

theorem leadingDots_ensures (hstart : b.start ≤ i) :
    Ensures W ranking b leadingDots i fun _ j => i ≤ j :=
  .many hstart (fun _ _ => oneOf_advances _) fun _ _ hj _ => hj

theorem importTargets_advances (hstart : b.start ≤ i) :
    Advances W ranking b importTargets i := by
  refine attempt_advances hstart (.ifAccepts (.some (by omega)) ?_)
  refine .acceptsOrNot fun parenthesized j hj => ?_
  have hnames : Advances W ranking b (separated "," (aliased identifier)) j :=
    .separated (by omega) fun k hk => aliased_advances (by omega) identifier_advances
  refine hnames.need hj rfl fun names k hk => ?_
  cases parenthesized with
  | true => exact .acceptsOrNot fun _ l hl => .expect (by omega) (.some (by omega))
  | false =>
    refine .lookahead (by omega) .spelled fun found => ?_
    split
    · exact .none (by omega)
    · exact .some (by omega)

theorem fromImport_advances (hstart : b.start ≤ i) : Advances W ranking b fromImport i := by
  refine .acceptsOrNot fun _ j hj => ?_
  refine .bind ((leadingDots_ensures (by omega)).mono fun level k hk => ?_)
  refine .bind ((modulePath_advances (by omega)).mono fun path l hl => ?_)
  have hle := hl.1
  split
  · exact .none (by omega)
  refine .expect (by omega) ?_
  refine (importTargets_advances (by omega)).need (by omega) rfl fun names m hm => ?_
  exact .some (by omega)

/-! ### Statements of one keyword -/

theorem optionalExpression_advances {separator : String} (hstart : b.start ≤ i) :
    Advances W ranking b (optionalExpression separator) i := by
  refine attempt_advances hstart (.expect (Nat.le_refl i) ?_)
  exact Advances.after (.rule (.later (by omega) rfl) rfl) (Nat.le_succ i)

theorem raising_advances {t : Token} (hstart : b.start ≤ i) (ht : W.token i = .ok t)
    (hkind : t.kind = .name) (htext : t.text = "raise") :
    Advances W ranking b raising i := by
  refine .accepts_known ht hkind htext ?_
  refine Advances.andThen (.rule (.later (by omega) rfl) rfl) ?_ fun j hj => .some (by omega)
  intro exc j hj
  refine .bind ((optionalExpression_advances (by omega)).mono fun cause k hk => ?_)
  exact .some (Nat.lt_of_lt_of_le (by omega) hk.1)

theorem deletion_advances (h : ranking.Allows b .bitOrExpr i) :
    Advances W ranking b deletion i := by
  have hstart := h.start_le
  refine .acceptsOrNot fun _ j hj => ?_
  have htargets : Advances W ranking b (separated "," deletableTarget) j :=
    .separated (by omega) fun k hk => deletableTarget_advances (h.at (by omega))
  refine htargets.need hj rfl fun targets k hk => .acceptsOrNot fun _ l hl => .peek fun t _ => ?_
  split
  · exact .some (by omega)
  · exact .none (by omega)

theorem assertion_advances (h : ranking.Allows b .expr i) : Advances W ranking b assertion i := by
  have hstart := h.start_le
  refine .acceptsOrNot fun _ j hj => ?_
  refine Advances.need (.rule (h.at hj) rfl) hj rfl fun test k hk => ?_
  refine .bind ((optionalExpression_advances (by omega)).mono fun message l hl => ?_)
  exact .some (Nat.lt_of_lt_of_le (by omega) hl.1)

theorem scopeDeclaration_advances {t : Token} (hstart : b.start ≤ i) (ht : W.token i = .ok t)
    (hend : ¬t.IsEnd) : Advances W ranking b scopeDeclaration i := by
  refine .next fun t' ht' => ?_
  cases ht.symm.trans ht'
  refine ⟨hend, ?_⟩
  have hnames : Advances W ranking b (separated "," identifier) (i + 1) :=
    .separated (by omega) fun _ _ => identifier_advances
  exact hnames.need (by omega) rfl fun names j hj => .some (by omega)

theorem keywordStatement_advances {t : Token} (h : ranking.Allows b .expr i)
    (ht : W.token i = .ok t) (hkind : t.kind = .name) :
    Advances W ranking b (keywordStatement t.text) i := by
  have hstart := h.start_le
  have hend : ¬t.IsEnd := fun hend => by cases hkind.symm.trans hend.1
  have hword : ∀ form : StmtForm, Advances W ranking b
      (do let _ ← next; return some form) i := by
    intro form
    refine .next fun t' ht' => ?_
    cases ht.symm.trans ht'
    exact ⟨hend, .some (Nat.lt_succ_self i)⟩
  unfold keywordStatement
  split
  case h_1 => exact hword _
  case h_2 => exact hword _
  case h_3 => exact hword _
  case h_4 =>
    refine .next fun t' ht' => ?_
    cases ht.symm.trans ht'
    refine ⟨hend, .bind ((spreadTuple_advances (.later (by omega) rfl)).mono fun value j hj => ?_)⟩
    exact .some (Nat.lt_of_lt_of_le (Nat.lt_succ_self i) hj.1)
  case h_5 => exact (yielded_advances hstart).map rfl fun _ => ⟨_, rfl⟩
  case h_6 => exact plainImport_advances hstart
  case h_7 => exact fromImport_advances hstart
  case h_8 htext => exact raising_advances hstart ht hkind htext
  case h_9 => exact deletion_advances (h.lower rfl (by decide))
  case h_10 => exact assertion_advances h
  case h_11 => exact scopeDeclaration_advances hstart ht hend
  case h_12 => exact scopeDeclaration_advances hstart ht hend
  case h_13 => exact .none (Nat.le_refl i)

theorem smallStmtRule_advances (h : ranking.Allows b .exprOrSpread i) :
    Advances W ranking b smallStmtRule i := by
  have hstart := h.start_le
  refine attempt_advances hstart (.diagnosis (rejectTarget_ensures h) ?_)
  refine (assignment_advances (h.lower rfl (by decide))).andThen (fun stmt j hj => .some hj) ?_
  intro j hj
  refine (spreadTuple_advances (h.at hj)).andThen ?_ ?_
  · intro value k hk
    exact stmtNode_ensures (by omega) (by omega)
  · intro k hk
    refine .peek fun t ht => ?_
    split
    case isTrue => exact .none (by omega)
    case isFalse hkind =>
      rw [Bool.not_eq_true, bne_eq_false_iff_eq] at hkind
      have hform := keywordStatement_advances ((h.lower rfl (by decide)).at (by omega)) ht hkind
      refine hform.need (by omega) rfl fun form l hl => ?_
      exact stmtNode_ensures (by omega) (by omega)

theorem stmtLine_advances (h : ranking.Allows b .smallStmt i) :
    Advances W ranking b stmtLine i := by
  have hstart := h.start_le
  have hstmts : Advances W ranking b (separated ";" smallStmt) i :=
    .separated hstart fun _ hj => .rule (h.at hj) rfl
  refine attempt_advances hstart (hstmts.need (Nat.le_refl i) rfl fun stmts j hj => ?_)
  exact .acceptsOrNot fun _ k hk => .expectKind nofun (by omega) (.some (by omega))

/-! ### Blocks -/

theorem indentedSuite_advances (hstart : b.start ≤ i) : Advances W ranking b indentedSuite i := by
  refine attempt_advances hstart (.expectKind nofun (Nat.le_refl i) ?_)
  refine .expectKind nofun (by omega) ?_
  refine Advances.need (.rule (.later (by omega) rfl) rfl) (by omega) rfl fun body j hj => ?_
  exact .expectKind nofun (by omega) (.some (by omega))

theorem suiteRule_advances (h : ranking.Allows b .smallStmt i) :
    Advances W ranking b suiteRule i := by
  have hstart := h.start_le
  refine (indentedSuite_advances hstart).andThen (fun body j hj => .some hj) fun j hj => ?_
  refine (stmtLine_advances (h.at hj)).andThen (fun body k hk => .some (by omega)) fun k hk => ?_
  exact .diagnosis (rejectMissingIndent_ensures (by omega)) (.none (by omega))

theorem colonSuite_advances (hstart : b.start ≤ i) : Advances W ranking b colonSuite i := by
  refine attempt_advances hstart (.expect (Nat.le_refl i) ?_)
  exact Advances.after (.rule (.later (by omega) rfl) rfl) (Nat.le_succ i)

theorem elseSuite_ensures (hstart : b.start ≤ i) :
    Ensures W ranking b elseSuite i fun _ j => i ≤ j := by
  have hbody : Advances W ranking b
      (attempt fun _ => do
        if !(← accepts "else") then return none
        colonSuite) i := by
    refine attempt_advances hstart (.expect (Nat.le_refl i) ?_)
    exact (colonSuite_advances (by omega)).after (Nat.le_succ i)
  exact .bind (hbody.mono fun _ _ hj => hj.1)

/-! ### Branches and loops -/

theorem branch_advances {keyword : String} (hstart : b.start ≤ i) :
    Advances W ranking b (branch keyword) i := by
  refine .expect (Nat.le_refl i) ?_
  refine Advances.need (.rule (.later (by omega) rfl) rfl) (by omega) rfl fun test j hj => ?_
  refine (colonSuite_advances (by omega)).need (by omega) rfl fun body k hk => .peek fun t _ => ?_
  split
  · refine .mark (Advances.need (.rule (.later (by omega) rfl) rfl) (by omega) rfl ?_)
    intro form l hl
    exact .spanSince hl fun _ => .some (by omega)
  · refine .bind ((elseSuite_ensures (by omega)).mono fun orelse l hl => ?_)
    exact .some (by omega)

theorem whileLoop_advances (h : ranking.Allows b .bindingExpr i) :
    Advances W ranking b whileLoop i := by
  have hstart := h.start_le
  refine .acceptsOrNot fun _ j hj => ?_
  refine Advances.need (.rule (h.at hj) rfl) hj rfl fun test k hk => ?_
  refine (colonSuite_advances (by omega)).need (by omega) rfl fun body l hl => ?_
  refine .bind ((elseSuite_ensures (by omega)).mono fun orelse m hm => ?_)
  exact .some (by omega)

theorem forLoop_advances {isAsync : Bool} (hstart : b.start ≤ i) :
    Advances W ranking b (forLoop isAsync) i := by
  refine .expect (Nat.le_refl i) ?_
  refine (targetTuple_advances (.later (by omega) rfl)).need (by omega) rfl fun target j hj => ?_
  refine .expect (by omega) ?_
  refine (spreadTuple_advances (.later (by omega) rfl)).need (by omega) rfl fun iter k hk => ?_
  refine (colonSuite_advances (by omega)).need (by omega) rfl fun body l hl => ?_
  refine .bind ((elseSuite_ensures (by omega)).mono fun orelse m hm => ?_)
  exact .some (by omega)

/-! ### Contexts -/

theorem contextTarget_advances (hstart : b.start ≤ i) : Advances W ranking b contextTarget i := by
  refine attempt_advances hstart (.expect (Nat.le_refl i) ?_)
  refine Advances.need (.rule (.later (by omega) rfl) rfl) (by omega) rfl fun target j hj => ?_
  refine .peek fun t _ => ?_
  split
  · exact .some (by omega)
  · exact .none (by omega)

theorem contextItem_advances (h : ranking.Allows b .expr i) :
    Advances W ranking b contextItem i := by
  have hstart := h.start_le
  refine Advances.need (.rule h rfl) (Nat.le_refl i) rfl fun context j hj => ?_
  refine .bind ((contextTarget_advances (by omega)).mono fun target k hk => ?_)
  exact .some (Nat.lt_of_lt_of_le hj hk.1)

theorem contextItems_advances (h : ranking.Allows b .expr i) :
    Advances W ranking b (separated "," contextItem) i :=
  .separated h.start_le fun _ hj => contextItem_advances (h.at hj)

theorem rejectMissingColon_ensures (h : ranking.Allows b .expr i) :
    Ensures W ranking b rejectMissingColon i fun _ j => j = i := by
  refine inspect_ensures h.start_le ?_
  refine (contextItems_advances h).andThen ?_ fun j hj => hj
  intro items j hj
  refine .peek fun t _ => ?_
  split
  · exact .raiseAt (by decide)
  · exact Nat.le_of_lt hj

theorem rawWith_advances (h : ranking.Allows b .expr i) : Advances W ranking b rawWith i := by
  refine .diagnosis (rejectMissingColon_ensures h) ?_
  refine (contextItems_advances h).need (Nat.le_refl i) rfl fun items j hj => ?_
  exact .expect (by omega) (.ofKind nofun (fun suite => .some (by omega)) (.none (by omega)))

theorem parenthesizedContexts_advances (hstart : b.start ≤ i) :
    Advances W ranking b parenthesizedContexts i := by
  refine attempt_advances hstart (.expect (Nat.le_refl i) ?_)
  refine (contextItems_advances (.later (by omega) rfl)).need (by omega) rfl fun items j hj => ?_
  refine .acceptsOrNot fun _ k hk => .expect (by omega) ?_
  refine (colonSuite_advances (by omega)).need (by omega) rfl fun body l hl => ?_
  exact .some (by omega)

theorem contexts_ensures {isAsync : Bool} (hstart : b.start ≤ i) :
    Ensures W ranking b (do
      if let some (items, body) ← parenthesizedContexts then
        return some (StmtForm.with items body isAsync)
      let some items ← separated "," contextItem | return none
      let some body ← colonSuite | return none
      return some (.with items body isAsync)) (i + 1) (Beyond i) := by
  refine (parenthesizedContexts_advances (by omega)).andThen ?_ ?_
  · rintro ⟨items, body⟩ k hk
    exact .some (by omega)
  · intro k hk
    refine (contextItems_advances (.later (by omega) rfl)).need (by omega) rfl ?_
    intro items l hl
    refine (colonSuite_advances (by omega)).need (by omega) rfl fun body m hm => ?_
    exact .some (by omega)

theorem contextStmt_advances {isAsync : Bool} (hstart : b.start ≤ i) :
    Advances W ranking b (contextStmt isAsync) i := by
  refine .expect (Nat.le_refl i) ?_
  cases isAsync with
  | true => exact contexts_ensures hstart
  | false =>
    exact .ifAccepts ((rawWith_advances (.later (by omega) rfl)).after (by omega))
      (contexts_ensures hstart)

/-! ### Exceptions -/

theorem handlerBody_ensures {exception : Option Expr} {id : Option String} {j : Nat}
    (hstart : b.start ≤ i) (hj : i < j) :
    Ensures W ranking b (do
      let some body ← colonSuite | return none
      return some ⟨exception, id, body, ← spanSince i⟩ : Match (Option Handler))
      j (Beyond i) := by
  refine (colonSuite_advances (by omega)).need (by omega) rfl fun body k hk => ?_
  exact .spanSince (by omega) fun _ => .some (by omega)

theorem exceptHandler_advances (hstart : b.start ≤ i) :
    Advances W ranking b exceptHandler i := by
  refine attempt_advances hstart (.expect (Nat.le_refl i) ?_)
  refine Advances.andThen (.rule (.later (by omega) rfl) rfl) ?_ ?_
  · intro exception j hj
    refine .ifAccepts ?_ (handlerBody_ensures hstart (by omega))
    refine identifier_advances.need (by omega) rfl fun text k hk => ?_
    exact handlerBody_ensures hstart (by omega)
  · intro j hj
    exact handlerBody_ensures hstart (by omega)

theorem tryEnd_ensures {body orelse finalbody : List Stmt} {handlers : List Handler} {j : Nat}
    (hj : i < j) :
    Ensures W ranking b (if (handlers.isEmpty && finalbody.isEmpty) = true then pure none
      else pure (some (StmtForm.try body handlers orelse finalbody))) j (Beyond i) := by
  split
  · exact .none (Nat.le_of_lt hj)
  · exact .some hj

theorem finally_ensures {body orelse : List Stmt} {handlers : List Handler} {j : Nat}
    (hstart : b.start ≤ i) (hj : i < j) :
    Ensures W ranking b (do
      let mut finalbody := []
      if ← accepts "finally" then
        let some stmts ← colonSuite | return none
        finalbody := stmts
      if handlers.isEmpty && finalbody.isEmpty then return none
      return some (StmtForm.try body handlers orelse finalbody)) j (Beyond i) := by
  refine .ifAccepts ?_ (tryEnd_ensures hj)
  refine (colonSuite_advances (by omega)).need (by omega) rfl fun stmts k hk => ?_
  exact tryEnd_ensures (by omega)

theorem tryForm_advances (hstart : b.start ≤ i) : Advances W ranking b tryForm i := by
  refine .acceptsOrNot fun _ j hj => ?_
  refine (colonSuite_advances (by omega)).need hj rfl fun body k hk => ?_
  refine .many (by omega) (fun l hl => exceptHandler_advances (by omega)) ?_
  intro handlers l hl _
  split
  · exact finally_ensures hstart (by omega)
  · exact .bind ((elseSuite_ensures (by omega)).mono fun orelse m hm =>
      finally_ensures hstart (by omega))

/-! ### Definitions -/

theorem returnAnnotation_ensures (hstart : b.start ≤ i) :
    Ensures W ranking b returnAnnotation i fun _ j => i ≤ j := by
  refine .unlessAccepts (Nat.le_refl i) ?_
  refine Advances.andThen (.rule (.later (by omega) rfl) rfl) ?_ ?_
  · intro value j hj
    show i ≤ j
    omega
  · intro j hj
    show i ≤ j
    omega

theorem functionDefinition_advances {decorators : List Expr} {isAsync : Bool}
    (hstart : b.start ≤ i) :
    Advances W ranking b (functionDefinition decorators isAsync) i := by
  refine .expect (Nat.le_refl i) ?_
  refine identifier_advances.need (by omega) rfl fun id j hj => ?_
  refine .expect (by omega) (.bind ((parameterList_ensures (by omega)).mono ?_))
  rintro (_ | args) k hk
  · exact .none (by omega)
  refine .expect (by omega) (.bind ((returnAnnotation_ensures (by omega)).mono ?_))
  rintro (_ | returns) l hl
  · exact .none (by omega)
  refine (colonSuite_advances (by omega)).need (by omega) rfl fun body m hm => ?_
  exact .some (by omega)

theorem classArguments_ensures (hstart : b.start ≤ i) :
    Ensures W ranking b classArguments i fun _ j => i ≤ j := by
  refine .unlessAccepts (Nat.le_refl i) ?_
  refine .bind ((argumentList_ensures (by omega)).mono ?_)
  rintro (_ | arguments) j hj
  · show i ≤ j
    omega
  · refine .unlessAccepts ?_ ?_
    · show i ≤ j
      omega
    · show i ≤ j + 1
      omega

theorem classDefinition_advances {decorators : List Expr} (hstart : b.start ≤ i) :
    Advances W ranking b (classDefinition decorators) i := by
  refine .expect (Nat.le_refl i) ?_
  refine identifier_advances.need (by omega) rfl fun id j hj => ?_
  refine .bind ((classArguments_ensures (by omega)).mono ?_)
  rintro (_ | ⟨bases, keywords⟩) k hk
  · exact .none (by omega)
  refine (colonSuite_advances (by omega)).need (by omega) rfl fun body l hl => ?_
  exact .some (by omega)

theorem decorator_advances (hstart : b.start ≤ i) : Advances W ranking b decorator i := by
  refine attempt_advances hstart (.expect (Nat.le_refl i) ?_)
  refine Advances.need (.rule (.later (by omega) rfl) rfl) (by omega) rfl fun value j hj => ?_
  exact .expectKind nofun (by omega) (.some (by omega))

theorem decoratedDefinition_advances (hstart : b.start ≤ i) :
    Advances W ranking b decoratedDefinition i := by
  have hdecorators : Advances W ranking b (many1 decorator) i :=
    .many1 hstart fun j hj => decorator_advances (by omega)
  refine hdecorators.need (Nat.le_refl i) rfl fun decorators j hj => .peek fun t ht => ?_
  split
  · exact (functionDefinition_advances (by omega)).after (by omega)
  · exact (classDefinition_advances (by omega)).after (by omega)
  case h_3 htext =>
    refine .next fun t' ht' => ?_
    cases ht.symm.trans ht'
    refine ⟨fun hend => ?_, (functionDefinition_advances (by omega)).after (by omega)⟩
    exact absurd (htext.symm.trans hend.2) (by decide)
  · exact .none (by omega)

theorem asyncForm_advances (hstart : b.start ≤ i) : Advances W ranking b asyncForm i := by
  refine .acceptsOrNot fun _ j hj => .peek fun t _ => ?_
  split
  · exact (functionDefinition_advances (by omega)).after hj
  · exact (forLoop_advances (by omega)).after hj
  · exact (contextStmt_advances (by omega)).after hj
  · exact .none hj

/-! ### Statements -/

theorem stmtOfForm_ensures {m : Match (Option StmtForm)} (hm : Advances W ranking b m i) :
    Ensures W ranking b (do
      match ← m with
      | some form => stmtNode i form
      | none => return none) i (Beyond i) :=
  hm.need (Nat.le_refl i) rfl fun _ _ hj => stmtNode_ensures hj hj

theorem blockStmt_advances (h : ranking.Allows b .bindingExpr i) :
    Advances W ranking b blockStmt i := by
  have hstart := h.start_le
  refine attempt_advances hstart (.peek fun t _ => ?_)
  dsimp only
  split
  · exact stmtOfForm_ensures (decoratedDefinition_advances hstart)
  · exact stmtOfForm_ensures (functionDefinition_advances hstart)
  · exact stmtOfForm_ensures (classDefinition_advances hstart)
  · exact stmtOfForm_ensures (branch_advances hstart)
  · exact stmtOfForm_ensures (whileLoop_advances h)
  · exact stmtOfForm_ensures (forLoop_advances hstart)
  · exact stmtOfForm_ensures (contextStmt_advances hstart)
  · exact stmtOfForm_ensures (tryForm_advances hstart)
  · exact stmtOfForm_ensures (asyncForm_advances hstart)
  · exact .none (Nat.le_refl i)

theorem stmtOrLine_advances (h : ranking.Allows b .smallStmt i) :
    Advances W ranking b stmtOrLine i := by
  refine (blockStmt_advances (h.lower rfl (by decide))).andThen (fun stmt j hj => .some hj) ?_
  exact fun j hj => (stmtLine_advances (h.at hj)).after hj

theorem stmtListRule_advances (h : ranking.Allows b .smallStmt i) :
    Advances W ranking b stmtListRule i :=
  Advances.map (.many1 h.start_le fun _ hj => stmtOrLine_advances (h.at hj)) rfl
    fun _ => ⟨_, rfl⟩

/-! ### The grammar -/

theorem body_ensures (W : World) (r : Rule) (i : Nat) (hentry : r.isEntry = false) :
    Ensures W ranking ⟨i, ranking.ceiling r, i⟩ (body r) i (ranking.Yields r i) := by
  have hstart : ∀ c, (Base.mk i c i).start ≤ i := fun _ => Nat.le_refl i
  have hallows : ∀ (r' : Rule) c, r'.isEntry = false → r'.rank < c →
      ranking.Allows ⟨i, c, i⟩ r' i := fun r' c hr' hrank => ⟨Nat.le_refl i, hr', .inr hrank⟩
  have hyields : ∀ {c}, r.mayBeEmpty = false → Advances W ranking ⟨i, c, i⟩ (body r) i →
      Ensures W ranking ⟨i, c, i⟩ (body r) i (ranking.Yields r i) := fun hempty hbody =>
    hbody.mono fun _ _ hbeyond => ⟨hbeyond.1, fun hsome _ => hbeyond.2 hsome⟩
  cases r with
  | program => cases hentry
  | soleExpr => cases hentry
  | stmtList => exact hyields rfl (stmtListRule_advances (hallows _ _ rfl (by decide)))
  | smallStmt => exact hyields rfl (smallStmtRule_advances (hallows _ _ rfl (by decide)))
  | suite => exact hyields rfl (suiteRule_advances (hallows _ _ rfl (by decide)))
  | elifBranch => exact hyields rfl (branch_advances (hstart _))
  | exprOrSpread =>
    exact hyields rfl (spreadOr_advances (hstart _) (.rule (hallows _ _ rfl (by decide)) rfl))
  | bindingExpr => exact hyields rfl (bindingExprRule_advances (hallows _ _ rfl (by decide)))
  | expr => exact hyields rfl (exprRule_advances (hallows _ _ rfl (by decide)))
  | orExpr =>
    exact hyields rfl (boolOperands_advances (hstart _)
      fun _ hj => .rule ((hallows _ _ rfl (by decide)).at hj) rfl)
  | andExpr =>
    exact hyields rfl (boolOperands_advances (hstart _)
      fun _ hj => .rule ((hallows _ _ rfl (by decide)).at hj) rfl)
  | notExpr => exact hyields rfl (notExprRule_advances (hallows _ _ rfl (by decide)))
  | bitOrExpr | bitXorExpr | bitAndExpr | shiftedExpr | addExpr | mulExpr =>
    exact hyields rfl (leftAssoc_advances (hstart _)
      (.rule (hallows _ _ rfl (by decide)) rfl)
      fun _ hj => .rule ((hallows _ _ rfl (by decide)).at hj) rfl)
  | signedExpr => exact hyields rfl (signedExprRule_advances (hallows _ _ rfl (by decide)))
  | awaitExpr => exact hyields rfl (awaitExprRule_advances (hallows _ _ rfl (by decide)))
  | postfixExpr => exact hyields rfl (postfixExprRule_advances (hallows _ _ rfl (by decide)))
  | atomicExpr => exact hyields rfl (atomicExprRule_advances (hallows _ _ rfl (by decide)))
  | stringRun => exact hyields rfl (stringRunRule_advances (hstart _))
  | commandExpr => exact hyields rfl (commandExprRule_advances (hstart _))
  | targetItem => exact hyields rfl (targetItemRule_advances (hallows _ _ rfl (by decide)))
  | fstringInside raw =>
    exact (fstringInsideRule_ensures (hstart _)).mono fun _ _ hj => ⟨hj, fun _ => nofun⟩

/-- What an entry rule makes of the tree that it found, at the end of the source. -/
def atEnd (tree : Option α) : Match (Option α) :=
  match tree with
  | none => return none
  | some tree => do
    if !(← acceptsKind .endMarker) then return none
    return some tree

theorem atEnd_straight (tree : Option α) : (atEnd tree).Straight := by
  cases tree with
  | none => trivial
  | some tree =>
    refine (Straight.acceptsKind _).bind fun found => ?_
    cases found with
    | false => trivial
    | true => trivial

def soleExprLine : Match (Option Expr) := do
  let some value ← exprTuple | return none
  let _ ← many (ofKind .newline)
  return some value

theorem programRule_eq :
    programRule = (stmtList >>= fun body => pure (some (Module.mk (body.getD [])))).bind atEnd :=
  rfl

theorem soleExprRule_eq : soleExprRule = soleExprLine.bind atEnd := by
  unfold soleExprRule soleExprLine
  refine Eq.trans (congrArg (Matcher.bind exprTuple) ?_) (bind_assoc _ _ _).symm
  funext found
  cases found with
  | none => rfl
  | some value => exact (bind_assoc _ _ _).symm

theorem governs : ranking.Governs grammar where
  body := body_ensures
  entry := by
    intro r hentry
    have hallows : ∀ (r : Rule) c i, r.isEntry = false → r.rank < c →
        ranking.Allows ⟨i, c, i⟩ r i := fun r c i hr hrank => ⟨Nat.le_refl i, hr, .inr hrank⟩
    cases r with
    | program =>
      refine ⟨rfl, _, _, atEnd, programRule_eq, atEnd_straight, fun W i => ?_⟩
      exact Advances.andThen (.rule (hallows _ _ i rfl (by decide)) rfl)
        (fun _ _ _ => trivial) fun _ _ => trivial
    | soleExpr =>
      refine ⟨rfl, _, soleExprLine, atEnd, soleExprRule_eq, atEnd_straight, fun W i => ?_⟩
      refine (exprTuple_advances (hallows _ _ i rfl (by decide))).andThen ?_ fun _ _ => trivial
      intro value j hj
      exact .many (Nat.le_of_lt hj) (fun _ _ => .ofKind nofun) fun _ _ _ _ => trivial
    | _ => cases hentry

end ShellSyntax.Language
