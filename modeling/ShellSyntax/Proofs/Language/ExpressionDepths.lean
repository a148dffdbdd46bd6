import ShellSyntax.Language.Primary
import ShellSyntax.Proofs.Language.Depths

/-!
How deep expressions, their literals and the commands in them go. The brackets of a command's text
are counted by the command itself, which may read them at the level it is on.
-/

namespace ShellSyntax.Language

open Matcher

variable {W : World} {top base depth : Nat} {t : Token}

section

variable (hbase : base ≤ depth)

include hbase

/-! ### Named and conditional expressions -/

theorem unbound_stays {start : Nat} (hstart : depth ≤ W.depthAt start) :
    Stays W top opensFirst base depth (do
      if ← isDiagnosing then rejectBinding
      let some value ← expr | return none
      if ← lookahead (spelled ":=") then giveUp start else return some value) := by
  refine .diagnosis (rejectBinding_stays hbase) (.need (rule_stays hbase) rfl fun value => ?_)
  exact .ifThen (.lookahead .spelled) (giveUp_nests hstart) .stay

theorem bindingExprRule_stays : Stays W top opensFirst base depth bindingExprRule := by
  refine .mark fun start hstart => .option .name (fun target => ?_) (unbound_stays hbase hstart)
  refine .ifThen (.acceptsSign (by decide)) (.spanSince fun span => ?_)
    (.reset hstart (unbound_stays hbase hstart))
  exact .option (rule_stays hbase) (fun _ => node_stays) (giveUp_nests hstart)

theorem ifElseTail_stays : Stays W top opensFirst base depth ifElseTail :=
  attempt_stays fun _ _ => .expect (.acceptsSign (by decide)) (.need (rule_stays hbase) rfl fun _ =>
    .expect (.acceptsSign (by decide)) (.need (rule_stays hbase) rfl fun _ => .stay))

theorem defaulted_stays {id : Token} { annotation : Option Expr} :
    Stays W top opensFirst base depth (do
      let mut default := none
      if ← accepts "=" then
        let some value ← expr | return none
        default := some value
      return some ⟨id.text, annotation, default⟩ : Match (Option Parameter)) :=
  .ifThen (.acceptsSign (by decide)) (.need (rule_stays hbase) rfl fun _ => .stay) .stay

theorem namedParameter_stays { annotated : Bool} :
    Stays W top opensFirst base depth (namedParameter annotated) := by
  refine attempt_stays fun _ _ => .need .name rfl fun id => ?_
  cases annotated with
  | false => exact defaulted_stays hbase
  | true =>
    refine .ifThen (.acceptsSign (by decide)) ?_ (defaulted_stays hbase)
    exact .need (rule_stays hbase) rfl fun _ => defaulted_stays hbase

theorem parameterItem_stays { annotated : Bool} {state : ParameterState} :
    Stays W top opensFirst base depth (parameterItem annotated state) := by
  obtain ⟨args, afterStar⟩ := state
  have hparameter : Stays W top opensFirst base depth (namedParameter annotated) :=
    namedParameter_stays hbase
  refine .ifThen (.acceptsSign (by decide)) .stay (.ifThen (.acceptsSign (by decide)) ?_ ?_)
  · exact .need hparameter rfl fun _ => .stay
  refine .ifThen (.acceptsSign (by decide)) (hparameter.bind fun _ => .stay) ?_
  refine .need hparameter rfl fun p => ?_
  dsimp only
  split
  · exact .stay
  · exact .stay

theorem parameterList_stays { annotated : Bool} {close : String} :
    Stays W top opensFirst base depth (parameterList annotated close) := by
  refine attempt_stays fun _ _ => .iterate fun state => .ifThen (.lookahead .spelled) .stay ?_
  refine .option (parameterItem_stays hbase) (fun _ => ?_) .stay
  exact .ifThen (.acceptsSign (by decide)) .stay .stay

theorem lambdaExpr_stays : Stays W top opensFirst base depth lambdaExpr :=
  attempt_stays fun _ _ => .expect (.acceptsSign (by decide))
    (.need (parameterList_stays hbase) rfl fun _ => .expect (.acceptsSign (by decide))
      (.need (rule_stays hbase) rfl fun _ => node_stays))

theorem exprRule_stays : Stays W top opensFirst base depth exprRule := by
  refine .diagnosis (rejectMissingElse_stays hbase) (.mark fun start _ => ?_)
  refine .option (rule_stays hbase) (fun body => ?_) (lambdaExpr_stays hbase)
  exact .option (ifElseTail_stays hbase) (fun _ => node_stays) .stay

/-! ### Boolean operators and comparisons -/

omit hbase in
theorem boolOperands_stays {op : BoolOp} {keyword : String} {operand : Match (Option Expr)}
    (hkeyword : isNoBracket keyword = true) (hoperand : Stays W top opensFirst base depth operand) :
    Stays W top opensFirst base depth (boolOperands op keyword operand) := by
  refine .mark fun _ _ => (Nests.separated hkeyword hoperand).bind fun values => ?_
  split
  · exact .stay
  · exact .stay
  · exact node_stays

omit hbase in
theorem notIn_stays : Stays W top opensFirst base depth notIn :=
  attempt_stays fun _ _ => .expect (.acceptsSign (by decide))
    (.expect (.acceptsSign (by decide)) .stay)

omit hbase in
theorem comparisonOperator_stays : Stays W top opensFirst base depth comparisonOperator := by
  refine .option (oneOf_stays (by decide)) (fun _ => .stay) ?_
  refine .option notIn_stays (fun _ => .stay) (.ifThen (.acceptsSign (by decide)) ?_ .stay)
  exact .ifThen (.acceptsSign (by decide)) .stay .stay

theorem comparisonTail_stays : Stays W top opensFirst base depth comparisonTail :=
  attempt_stays fun _ _ => .need comparisonOperator_stays rfl fun _ =>
    .need (rule_stays hbase) rfl fun _ => .stay

theorem comparison_stays : Stays W top opensFirst base depth comparison := by
  refine .mark fun _ _ => .need (rule_stays hbase) rfl fun left => ?_
  refine (Nests.many (comparisonTail_stays hbase)).bind fun tails => ?_
  split
  · exact .stay
  · exact node_stays

theorem notExprRule_stays : Stays W top opensFirst base depth notExprRule :=
  .mark fun _ hstart => .ifThen (.acceptsSign (by decide))
    (.option (rule_stays hbase) (fun _ => node_stays) (giveUp_nests hstart))
    (comparison_stays hbase)

/-! ### Binary and prefix operators -/

omit hbase in
theorem binaryTail_stays {start here : Nat} {left : Expr} {operand : Match (Option Expr)}
    {ops : List BinOp} (hhere : depth ≤ W.depthAt here)
    (hoperand : Stays W top opensFirst base depth operand) :
    Stays W top opensFirst base depth (binaryTail start here left operand ops) := by
  induction ops with
  | nil => exact .stay
  | cons op ops induction =>
    have hsign : isNoBracket op.symbol = true := by
      cases op <;> decide
    refine .ifThen (.acceptsSign hsign) ?_ (.reset hhere induction)
    exact .option hoperand (fun _ => node_stays) (.reset hhere induction)

omit hbase in
theorem leftAssoc_stays {ops : List BinOp} {this operand : Match (Option Expr)}
    (hthis : Stays W top opensFirst base depth this)
    (hoperand : Stays W top opensFirst base depth operand) :
    Stays W top opensFirst base depth (leftAssoc ops this operand) := by
  refine .mark fun start hstart => ?_
  refine .option hthis (fun left => .mark fun here hhere => ?_) (.reset hstart hoperand)
  exact .option (binaryTail_stays hhere hoperand) (fun _ => .stay) (.reset hstart hoperand)

theorem powerExpr_stays : Stays W top opensFirst base depth powerExpr := by
  refine .mark fun start _ => .need (rule_stays hbase) rfl fun left => .mark fun here hhere => ?_
  refine .ifThen (.acceptsSign (by decide)) ?_ .stay
  exact .option (rule_stays hbase) (fun _ => node_stays) (.reset hhere .stay)

theorem signedExprRule_stays : Stays W top opensFirst base depth signedExprRule := by
  refine .mark fun _ hstart => .option (oneOf_stays (by decide)) (fun op => ?_)
    (powerExpr_stays hbase)
  exact .option (rule_stays hbase) (fun _ => node_stays) (giveUp_nests hstart)

theorem awaitExprRule_stays : Stays W top opensFirst base depth awaitExprRule :=
  .mark fun _ hstart => .ifThen (.acceptsSign (by decide))
    (.option (rule_stays hbase) (fun _ => node_stays) (giveUp_nests hstart)) (rule_stays hbase)

/-! ### Literals -/

theorem fstringLiteral_stays : Stays W top opensFirst base depth fstringLiteral :=
  attempt_stays fun _ _ => .need (.ofKind (by decide)) rfl fun _ =>
    .need (rule_stays hbase) rfl fun _ => .expect (.acceptsKind (by decide)) .stay

theorem stringRunRule_stays : Stays W top opensFirst base depth stringRunRule := by
  refine .mark fun start _ => Nests.bind (.iterate fun g => ?_) fun g => ?_
  · refine .option (.ofKind (by decide)) (fun _ => .stay) ?_
    exact .option (fstringLiteral_stays hbase) (fun _ => .stay) .stay
  · split
    · exact .stay
    · exact .spanSince fun _ => .stay

omit hbase in
theorem conversion_stays : Stays W top opensFirst base depth conversion := by
  refine attempt_stays fun _ _ => .need (.sign (by decide)) rfl fun sign => ?_
  refine .need .name rfl fun letter => ?_
  dsimp only
  split
  · exact .stay
  · exact .stay

theorem formatField_stays {raw : Bool} :
    Stays W top opensFirst base depth (formatField raw) := by
  have hinside : base ≤ depth + 1 := Nat.le_succ_of_le hbase
  refine attempt_stays fun _ _ => .optionOpener (by decide) (fun opening => ?_) .stay
  refine .needInside (yieldOrTuple_stays hinside) rfl fun value => ?_
  refine (Nests.sign (by decide)).bind fun equals => conversion_stays.bind fun letter => ?_
  refine .ifThen (.acceptsSign (by decide)) ?_ (.expectCloser (by decide) .stay)
  exact .needInside (rule_stays hinside) rfl fun parts => .expectCloser (by decide) .stay

theorem fstringInsideRule_stays {raw : Bool} :
    Stays W top opensFirst base depth (fstringInsideRule raw) := by
  refine .iterate fun parts => .option (.ofKind (by decide)) (fun _ => .stay) ?_
  exact .option (formatField_stays hbase) (fun _ => .stay) .stay

omit hbase in
theorem pathSearch_stays : Stays W top opensFirst base depth pathSearch :=
  .mark fun _ _ => .need (.ofKind (by decide)) rfl fun _ => node_stays

end

/-! ### Commands -/

section

variable (hbase : base ≤ depth + 1)

include hbase

theorem variableExpr_stays : Stays W top opensFirst base depth variableExpr := by
  refine attempt_stays fun start _ => .option (.sign (by decide)) (fun dollar => ?_) ?_
  · refine .need (.ofKind (by decide)) rfl fun id => ?_
    dsimp only
    split
    · exact .stay
    · exact node_stays
  · refine .expectOpener (by decide) (.needInside (rule_stays hbase) rfl fun value => ?_)
    exact .expectCloser (by decide) node_stays

omit hbase in
theorem attempt_at {α : Type} {inner : Nat → Match (Option α)} {bound : Option α → Nat}
    (h : ∀ start, NestsAt t W top opensFirst base depth (inner start) bound)
    (hnone : bound none ≤ depth) : NestsAt t W top opensFirst base depth (attempt inner) bound := by
  refine .mark fun start hstart => (h start).bind ?_
  rintro (_ | a)
  · exact giveUp_nests (Nat.le_trans hnone hstart)
  · exact .done (Nat.le_refl _)

omit hbase in
theorem wordArg_nests {bound : Option CommandArg → Nat}
    (h : ∀ arg, bound (some arg) ≤ t.depthBehind depth) :
    NestsAt t W top opensFirst base depth (wordArg t) bound :=
  .next (.done (h _))

theorem hostArg_nests (hop : t.kind = .op) (htext : t.text = "@(") :
    NestsAt t W top opensFirst base depth hostArg fun _ => depth := by
  refine attempt_at (fun _ => .next ?_) (Nat.le_refl _)
  rw [Token.depthBehind_of_op hop, htext, depthBehind_opener (by decide)]
  exact .needInside (spreadTuple_stays hbase) rfl fun _ => .expectCloser (by decide) .stay

omit hbase in
theorem rawArg_nests (htext : t.text = "!") :
    NestsAt t W top opensFirst base depth rawArg fun _ => depth := by
  refine attempt_at (fun _ => .nextSign (fun _ => ?_) (mapped_stays (.ofKind (by decide))))
    (Nat.le_refl _)
  rw [htext]
  decide

theorem envArg_stays : Stays W top opensFirst base depth envArg := by
  refine (variableExpr_stays hbase).bind fun value => ?_
  split
  · exact .stay
  · exact .stay
  · exact .stay

theorem commandArg_stays : Stays W top opensFirst base depth commandArg := by
  refine Nests.bind (.rule hbase) fun value => ?_
  split
  · exact .stay
  · exact .stay

omit hbase in
theorem searchArg_stays : Stays W top opensFirst base depth searchArg := by
  refine pathSearch_stays.bind fun value => ?_
  split
  · exact .stay
  · exact .stay

/-- What is open behind a piece: the brackets that the command has counted in its own text, on top
of those around it. -/
def behindPiece (count depth : Nat) (found : Option (CommandArg × Nat)) : Nat :=
  found.elim count Prod.snd + depth

end

section

variable {count : Nat} (hbase : base ≤ depth)

omit hbase in
theorem uncounted_nests {m : Match (Option CommandArg)}
    (hm : NestsAt t W top opensFirst base (count + depth) m fun _ => count + depth) :
    NestsAt t W top opensFirst base (count + depth) (do return (← m).map fun arg => (arg, count))
      (behindPiece count depth) := by
  refine hm.bind ?_
  rintro (_ | arg)
  · exact .done (Nat.le_refl _)
  · exact .done (Nat.le_refl _)

omit hbase in
theorem counted_nests {count' : Nat} (hcount : count' + depth ≤ t.depthBehind (count + depth)) :
    NestsAt t W top opensFirst base (count + depth)
      (do return (← wordArg t).map fun arg => (arg, count')) (behindPiece count depth) := by
  have hword : NestsAt t W top opensFirst base (count + depth) (wordArg t) fun found =>
      behindPiece count depth (found.map fun arg => (arg, count')) :=
    wordArg_nests fun _ => hcount
  exact hword.bind fun found => .done (Nat.le_refl _)

include hbase

theorem operatorPiece_nests (hop : t.kind = .op) :
    NestsAt t W top opensFirst base (count + depth) (operatorPiece t count)
      (behindPiece count depth) := by
  have hinside : base ≤ count + depth + 1 := by omega
  unfold operatorPiece
  dsimp only
  split
  · exact uncounted_nests (.ahead (envArg_stays hinside))
  split
  case isTrue htext => exact uncounted_nests (hostArg_nests hinside hop (beq_iff_eq.mp htext))
  split
  · exact uncounted_nests (.ahead (commandArg_stays hinside))
  split
  case isTrue htext => exact uncounted_nests (rawArg_nests (beq_iff_eq.mp htext))
  split
  case isTrue htext =>
    refine counted_nests ?_
    rw [Token.depthBehind_of_op hop, beq_iff_eq.mp htext, depthBehind_noBracket (by decide)]
  split
  case isTrue htext =>
    have hsigns : ∀ text ∈ redirections, isNoBracket text = true := by decide
    exact .nextSign (fun _ => hsigns _ (List.contains_iff_mem.mp htext)) (.done (Nat.le_refl _))
  split
  case isTrue htext =>
    have hopeners : ∀ text ∈ ["(", "[", "\x7b"], (Opener.ofSpelling? text).isSome = true := by
      decide
    refine counted_nests ?_
    rw [Token.depthBehind_of_op hop,
      depthBehind_opener (hopeners _ (List.contains_iff_mem.mp htext)), Nat.add_right_comm]
  split
  case isTrue htext =>
    rw [Bool.and_eq_true, decide_eq_true_eq] at htext
    have hclosers : ∀ text ∈ [")", "]", "\x7d"], (Lexer.closer? text).isSome = true := by decide
    refine counted_nests ?_
    rw [Token.depthBehind_of_op hop,
      depthBehind_closer (hclosers _ (List.contains_iff_mem.mp htext.1))]
    omega
  case isFalse => exact .ahead (.done (Nat.le_refl _))

theorem piece_nests :
    NestsAt t W top opensFirst base (count + depth) (piece t count) (behindPiece count depth) := by
  have hword (hkind : t.kind ≠ .op) : NestsAt t W top opensFirst base (count + depth)
      (do return (← wordArg t).map fun arg => (arg, count)) (behindPiece count depth) :=
    counted_nests (Nat.le_of_eq (Token.depthBehind_of_kind hkind).symm)
  unfold piece
  dsimp only
  split
  case h_1 hkind => exact hword (by simp [hkind])
  case h_2 hkind => exact hword (by simp [hkind])
  case h_3 hkind => exact hword (by simp [hkind])
  case h_4 hkind =>
    refine .nextSign (fun hop => ?_) (.done (Nat.le_refl _))
    cases hkind.symm.trans hop
  case h_5 =>
    refine .ahead (Nests.bind (rule_stays (Nat.le_add_left_of_le hbase)) fun value => .done ?_)
    cases value <;> exact Nat.le_refl _
  case h_6 =>
    refine .ahead (searchArg_stays.bind fun value => .done ?_)
    cases value <;> exact Nat.le_refl _
  case h_7 hop => exact operatorPiece_nests hbase hop
  case h_8 => exact .ahead (.done (Nat.le_refl _))

/-! ### Pipelines -/

theorem commandWords_stays {closer : String} :
    Stays W top opensFirst base depth (commandWords closer) := by
  refine .loop (fun state => state.2.1 + depth) (Nat.le_of_eq (Nat.zero_add _)) ?_
  rintro ⟨argv, count, stopped⟩
  refine .peek fun t => ?_
  split
  · exact .ahead (.done (Nat.le_add_left _ _))
  · refine .bind (attempt_at (fun _ => piece_nests hbase) (Nat.le_refl _)) ?_
    rintro (_ | ⟨arg, count⟩)
    · exact .done (Nat.le_add_left _ _)
    · exact .lastToken? fun last => .done (Nat.le_refl _)

theorem furtherStage_stays {closer : String} :
    Stays W top opensFirst base depth (furtherStage closer) :=
  attempt_stays fun _ _ => .need (oneOf_stays (by decide)) rfl fun _ =>
    .need (commandWords_stays hbase) rfl fun _ => .stay

theorem stages_stays {closer : String} : Stays W top opensFirst base depth (stages closer) :=
  .need (commandWords_stays hbase) rfl fun _ =>
    (Nests.many (furtherStage_stays hbase)).bind fun _ => .stay

end

section

variable (hbase : base ≤ depth + 1)

include hbase

theorem captured_stays {capture : CaptureMode} :
    Stays W top opensFirst base depth (captured capture) := by
  have hopener : (Opener.ofSpelling? capture.opener).isSome = true := by
    cases capture <;> decide
  have hcloser : (Lexer.closer? capture.closer).isSome = true := by
    cases capture <;> decide
  refine .mark fun start _ => .optionOpener hopener (fun opening => ?_) .stay
  refine .diagnosis rejectEmptyCommand_stays (.option (stages_stays hbase) (fun stages => ?_) ?_)
  · refine (Nests.acceptsSign (by decide)).bind fun background => ?_
    exact .unlessCloser hcloser (.done (Nat.le_succ _)) (.spanSince fun _ => .stay)
  · exact .done (Nat.le_succ _)

theorem commandExprRule_stays : Stays W top opensFirst base depth commandExprRule := by
  refine .firstOf fun m hm => ?_
  obtain ⟨capture, _, rfl⟩ := List.mem_map.mp hm
  exact captured_stays hbase

end

/-! ### Atoms -/

section

variable (hbase : base ≤ depth)

omit hbase in
theorem nameExpr_nests {start : Nat} (hname : t.kind = .name) :
    NestsAt t W top opensFirst base depth (nameExpr start t) fun _ => depth := by
  have hsign : t.kind = .op → isNoBracket t.text = true := fun hop => by
    cases hname.symm.trans hop
  unfold nameExpr
  split
  · exact .nextSign hsign node_stays
  · split
    · exact .ahead .stay
    · exact .nextSign hsign node_stays

include hbase

theorem bracketExpr_nests {start : Nat} :
    NestsAt t W top opensFirst base depth (bracketExpr start t.text) fun _ => depth := by
  unfold bracketExpr
  split
  · exact .ahead (.inBrackets (parenthesized_stays (Nat.le_refl _)) hbase)
  split
  · exact .ahead (.inBrackets (squareBracketed_stays (Nat.le_refl _)) hbase)
  split
  · exact .ahead (.inBrackets (braced_stays (Nat.le_refl _)) hbase)
  split
  case isTrue htext =>
    refine .nextSign (fun _ => ?_) node_stays
    rw [beq_iff_eq.mp htext]
    decide
  split
  · exact .ahead (.inBrackets (variableExpr_stays (Nat.le_refl _)) hbase)
  split
  · exact .ahead (.inBrackets (.rule (Nat.le_refl _)) hbase)
  · exact .ahead .stay

theorem atomicExprRule_stays : Stays W top opensFirst base depth atomicExprRule := by
  refine .mark fun start _ => .peek fun t => ?_
  split
  case h_1 hkind => exact nameExpr_nests hkind
  case h_2 hkind =>
    refine .nextSign (fun hop => ?_) node_stays
    cases hkind.symm.trans hop
  case h_3 => exact .ahead (rule_stays hbase)
  case h_4 => exact .ahead (rule_stays hbase)
  case h_5 => exact .ahead pathSearch_stays
  case h_6 => exact bracketExpr_nests hbase
  case h_7 => exact .ahead .stay

/-! ### Calls and subscripts -/

theorem namedArgument_stays : Stays W top opensFirst base depth namedArgument :=
  attempt_stays fun _ _ => .need .name rfl fun _ => .expect (.acceptsSign (by decide))
    (.need (rule_stays hbase) rfl fun _ => .stay)

theorem argument_stays {state : ArgumentState} :
    Stays W top opensFirst base depth (argument state) := by
  obtain ⟨args, keywords⟩ := state
  refine .mark fun start _ => .ifThen (.acceptsSign (by decide)) ?_ ?_
  · exact .need (rule_stays hbase) rfl fun _ => .spanSince fun _ => .stay
  refine .ifThen (.acceptsSign (by decide)) (.need (rule_stays hbase) rfl fun _ => .stay) ?_
  refine .option (namedArgument_stays hbase) (fun _ => .stay) ?_
  exact .need (rule_stays hbase) rfl fun _ => .stay

theorem argumentList_stays : Stays W top opensFirst base depth argumentList := by
  refine .iterate fun state => .ifThen (.lookahead .spelled) .stay ?_
  refine .option (argument_stays hbase) (fun _ => ?_) .stay
  exact .ifThen (.acceptsSign (by decide)) .stay .stay

theorem subscriptItem_stays : Stays W top opensFirst base depth subscriptItem := by
  refine .mark fun start hstart => Nests.bind (rule_stays hbase) fun lower => ?_
  refine .ifThen (.acceptsSign (by decide)) ?_ (.reset hstart (bindingOrSpread_stays hbase))
  refine Nests.bind (rule_stays hbase) fun upper => ?_
  exact .ifThen (.acceptsSign (by decide)) (Nests.bind (rule_stays hbase) fun _ => node_stays)
    node_stays

theorem subscripts_stays : Stays W top opensFirst base depth subscripts :=
  tupleOrSingle_stays (subscriptItem_stays hbase)

end

/-! ### Primaries -/

theorem trailer_stays {start : Nat} {value : Expr} (hbase : base ≤ depth + 1) :
    Stays W top opensFirst base depth (trailer start value) := by
  refine attempt_stays fun _ _ => .ifThen (.acceptsSign (by decide)) ?_ ?_
  · exact .need .name rfl fun attr => node_stays
  refine .option (generator_stays hbase) (fun _ => node_stays) (.ifOpener (by decide) ?_ ?_)
  · exact .needInside (argumentList_stays hbase) rfl fun _ => .expectCloser (by decide) node_stays
  refine .ifOpener (by decide) ?_ (.optionOpener (by decide) (fun opening => ?_) ?_)
  · exact .needInside (subscripts_stays hbase) rfl fun _ => .expectCloser (by decide) node_stays
  · dsimp only
    split
    · exact .done (Nat.le_succ _)
    · refine (Nests.many (.ofKind (by decide))).bind fun args => ?_
      exact .expectCloser (by decide) node_stays
  · exact .option (oneOf_stays (by decide)) (fun _ => node_stays) .stay

theorem postfixExprRule_stays (hbase : base ≤ depth) :
    Stays W top opensFirst base depth postfixExprRule := by
  refine .mark fun start hstart => ?_
  have hatomic : Stays W top opensFirst base depth (reset start >>= fun _ => atomicExpr) :=
    .reset hstart (rule_stays hbase)
  refine .option (rule_stays hbase) (fun value => ?_) hatomic
  exact .option (.inBrackets (trailer_stays (Nat.le_refl _)) hbase) (fun _ => .stay) hatomic

end ShellSyntax.Language
