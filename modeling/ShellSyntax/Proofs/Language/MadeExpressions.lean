import ShellSyntax.Language.Primary
import ShellSyntax.Proofs.Language.Made
import ShellSyntax.Proofs.Language.Merging

/-! Expressions, their literals and the commands in them are made as they should be. -/

namespace ShellSyntax.Language

open Matcher

variable {W : World}

/-! ### Named and conditional expressions -/

theorem unbound_makes {start : Nat} : Makes W (do
    if ← isDiagnosing then rejectBinding
    let some value ← expr | return none
    if ← lookahead (spelled ":=") then giveUp start else return some value) :=
  .perhaps (.need (.call fun _ => id) rfl fun _ hvalue => .ifThen .giveUp (.some hvalue))

theorem bindingExprRule_makes : Makes W bindingExprRule := by
  refine .mark fun i callee hhonest found j reads => ?_
  have hunbound : Makes W (do
      reset i
      if ← isDiagnosing then rejectBinding
      let some value ← expr | return none
      if ← lookahead (spelled ":=") then giveUp i else return some value) :=
    .skip fun _ => unbound_makes
  rcases reads.name with ⟨t, ht, hkind, hrest⟩ | hrest
  · rcases hrest.accepts with ⟨hsign, hrest⟩ | hrest
    · have hbound : Makes W (do
          let target : Expr := ⟨.name t.text, W.spanSince i (i + 2)⟩
          let some value ← expr | return ← giveUp i
          return ← node i (.binding target value)) := by
        refine .option (.call fun _ => id) (fun value hvalue => .skip fun span => ?_) .giveUp
        exact .some (.binding ⟨i, t, ht, hkind, hsign, rfl⟩ hvalue)
      exact hbound callee hhonest _ _ _ hrest.spanSince
    · exact hunbound callee hhonest _ _ _ hrest
  · exact unbound_makes callee hhonest _ _ _ hrest

theorem ifElseTail_makes : Makes W ifElseTail := by
  refine .attempt fun _ => .expect (.need (.call fun _ => id) rfl fun test htest => .expect ?_)
  exact .need (.call fun _ => id) rfl fun orelse horelse => .some (AllMade.append htest horelse)

theorem defaulted_makes {id : Token} { annotation : Option Expr}
    (hannotated : AllMade W (nodes annotation)) : Makes W (do
      let mut default := none
      if ← accepts "=" then
        let some value ← expr | return none
        default := some value
      return some ⟨id.text, annotation, default⟩ : Match (Option Parameter)) :=
  .ifThen
    (.need (.call fun _ h => h) rfl fun _ hvalue => .some (AllMade.append hannotated hvalue.some))
    (.some (AllMade.append hannotated .nil))

theorem namedParameter_makes {annotated : Bool} : Makes W (namedParameter annotated) := by
  refine .attempt fun _ => .pass rfl fun id => ?_
  cases annotated with
  | false => exact defaulted_makes .nil
  | true =>
    refine .ifThen (.need (.call fun _ h => h) rfl fun value hvalue => ?_) (defaulted_makes .nil)
    exact defaulted_makes hvalue.some

theorem parameterItem_makes {annotated : Bool} {state : ParameterState}
    (hstate : AllMade W (nodes state.1)) : Makes W (parameterItem annotated state) := by
  obtain ⟨⟨args, vararg, kwonly, kwarg⟩, afterStar⟩ := state
  have hparts : AllMade W (nodes args ++ (nodes vararg ++ (nodes kwonly ++ nodes kwarg))) := hstate
  simp only [AllMade.append_iff] at hparts
  obtain ⟨hargs, hvararg, hkwonly, hkwarg⟩ := hparts
  have hresult {ps : Parameters} {afterStar : Bool} (h : AllMade W (nodes ps)) :
      Makes W (.done (some (ps, afterStar)) : Match (Option ParameterState)) :=
    .some (AllMade.append h .nil)
  refine .ifThen (hresult hstate) (.ifThen ?_ (.ifThen ?_ ?_))
  · refine .need namedParameter_makes rfl fun p hp => hresult ?_
    exact hargs.append (hvararg.append (hkwonly.append hp.some))
  · refine Brings.bind namedParameter_makes fun p hp => hresult ?_
    exact hargs.append (AllMade.append hp (hkwonly.append hkwarg))
  · refine .need namedParameter_makes rfl fun p hp => ?_
    cases afterStar with
    | false => exact hresult ((hargs.concat hp).append (hvararg.append (hkwonly.append hkwarg)))
    | true => exact hresult (hargs.append (hvararg.append ((hkwonly.concat hp).append hkwarg)))

theorem parameterList_makes {annotated : Bool} {close : String} :
    Makes W (parameterList annotated close) := by
  refine .attempt fun _ => .loop (fun state => AllMade W (nodes state.1)) .nil ?_
  intro state hstate
  refine .ifThen (.done hstate.some) ?_
  refine .option (parameterItem_makes hstate) (fun state hitem => ?_) (.done .nil)
  have hstate : AllMade W (nodes state.1) := (AllMade.append_iff.mp hitem).1
  exact .ifThen (.done hstate) (.done hstate.some)

theorem lambdaExpr_makes : Makes W lambdaExpr := by
  intro callee hhonest i found j reads
  cases found with
  | none => exact .nil
  | some e =>
    obtain ⟨_, hrest⟩ := (attempt_some reads).expects
    obtain ⟨args, k, hargs, hrest⟩ := hrest.needs rfl
    obtain ⟨_, hrest⟩ := hrest.expects
    obtain ⟨body, l, hbody, hnode⟩ := hrest.needs rfl
    obtain ⟨hform, rfl⟩ := node_form hnode
    have hargs : AllMade W (nodes args) :=
      nodes_some args ▸ parameterList_makes callee hhonest _ _ _ hargs
    have hbody : AllMade W (nodes body) := hhonest.good .expr _ _ _ hbody.rule
    refine AllMade.some (.single ?_ ?_)
    · rw [Node.Made, Expr.Made, hform]
      exact ⟨callee, i, _, hhonest.answers, reads⟩
    · rw [Node.children, hform]
      exact hargs.append hbody

theorem exprRule_makes : Makes W exprRule := by
  refine .perhaps (.skip fun start => .option (.call fun _ => id) (fun body hbody => ?_)
    lambdaExpr_makes)
  refine .option ifElseTail_makes ?_ (.some hbody)
  rintro ⟨test, orelse⟩ htail
  obtain ⟨htest, horelse⟩ := AllMade.append_iff.mp htail
  exact .node (fun _ => trivial) (htest.append (hbody.append horelse))

/-! ### Boolean operators and comparisons -/

theorem boolOperands_makes {op : BoolOp} {keyword : String} {operand : Match (Option Expr)}
    (hoperand : Makes W operand) : Makes W (boolOperands op keyword operand) := by
  refine .skip fun _ => .option (.separated hoperand) (fun values hvalues => ?_) .none
  split
  case h_1 => exact .none
  case h_2 value heq =>
    cases heq
    exact .some (hvalues.sub fun _ hn => List.mem_append_left _ hn)
  case h_3 heq =>
    cases heq
    exact .node (fun _ => trivial) hvalues

theorem comparisonTail_makes : Makes W comparisonTail :=
  .attempt fun _ => .pass rfl fun _ => .need (.call fun _ => id) rfl fun _ hright =>
    .some (AllMade.append .nil hright)

theorem comparison_makes : Makes W comparison := by
  refine .skip fun _ => .need (.call fun _ => id) rfl fun left hleft => ?_
  refine Brings.bind (.many comparisonTail_makes) fun tails htails => ?_
  split
  · exact .some hleft
  · exact .node (fun _ => trivial) (hleft.append (htails.sub fun _ => mem_nodes_seconds))

theorem notExprRule_makes : Makes W notExprRule :=
  .skip fun _ => .ifThen
    (.option (.call fun _ => id) (fun _ hoperand => .node (fun _ => trivial) hoperand) .giveUp)
    comparison_makes

/-! ### Binary and prefix operators -/

theorem binaryTail_makes {start here : Nat} {left : Expr} {operand : Match (Option Expr)}
    {ops : List BinOp} (hleft : AllMade W (nodes left)) (hoperand : Makes W operand) :
    Makes W (binaryTail start here left operand ops) := by
  induction ops with
  | nil => exact .none
  | cons op ops induction =>
    have hothers : Makes W (reset here >>= fun _ => binaryTail start here left operand ops) :=
      .skip fun _ => induction
    refine .ifThen (.option hoperand (fun right hright => ?_) hothers) hothers
    exact .node (fun _ => trivial) (hleft.append hright)

theorem leftAssoc_makes {ops : List BinOp} {this operand : Match (Option Expr)}
    (hthis : Makes W this) (hoperand : Makes W operand) : Makes W (leftAssoc ops this operand) := by
  refine .skip fun start => ?_
  have hrestart : Makes W (reset start >>= fun _ => operand) := .skip fun _ => hoperand
  refine .option hthis (fun left hleft => .skip fun _ => ?_) hrestart
  exact .option (binaryTail_makes hleft hoperand) (fun _ hlonger => .some hlonger) hrestart

theorem powerExpr_makes : Makes W powerExpr := by
  refine .skip fun _ => .need (.call fun _ => id) rfl fun base hbase => .skip fun here => ?_
  refine .ifThen (.option (.call fun _ => id) (fun exponent hexponent => ?_)
    (.skip fun _ => .some hbase)) (.some hbase)
  exact .node (fun _ => trivial) (hbase.append hexponent)

theorem signedExprRule_makes : Makes W signedExprRule := by
  refine .skip fun start => .skip ?_
  rintro (_ | op)
  · exact powerExpr_makes
  · exact .option (.call fun _ => id) (fun _ hoperand => .node (fun _ => trivial) hoperand) .giveUp

theorem awaitExprRule_makes : Makes W awaitExprRule :=
  .skip fun _ => .ifThen
    (.option (.call fun _ => id) (fun _ hvalue => .node (fun _ => trivial) hvalue) .giveUp)
    (.call fun _ => id)

/-! ### Literals -/

/-- Parts whose fields and nodes are made as they should be. -/
def MadeText (W : World) (parts : List FormatPart) : Prop :=
  (∀ part ∈ parts, part.Made W) ∧ AllMade W (nodes parts)

theorem MadeText.nil : MadeText W [] :=
  ⟨fun _ => nofun, .nil⟩

theorem made_add {parts : List FormatPart} {part : FormatPart}
    (hparts : ∀ other ∈ parts, other.Made W) (hpart : part.Made W) :
    ∀ other ∈ FormatPart.add parts part, other.Made W := by
  unfold FormatPart.add
  split
  · split
    · exact hparts
    · split
      · exact forall_mem_replaceLast hparts (.literal _)
      · exact forall_mem_concat hparts hpart
  · exact forall_mem_concat hparts hpart

theorem made_foldl_add {parts others : List FormatPart} (hparts : ∀ part ∈ parts, part.Made W)
    (hothers : ∀ part ∈ others, part.Made W) :
    ∀ part ∈ others.foldl FormatPart.add parts, part.Made W := by
  induction others generalizing parts with
  | nil => exact hparts
  | cons other others induction =>
    have hall := List.forall_mem_cons.mp hothers
    exact induction (made_add hparts hall.1) hall.2

theorem fstringLiteral_makes : Brings W (Honest W) fstringLiteral fun found =>
    ∀ literal ∈ found, MadeText W literal.2 := by
  rintro callee hhonest i found j reads ⟨flags, parts⟩ rfl
  rcases (attempt_some reads).ofKind with ⟨_, _, _, hrest⟩ | ⟨_, hnone⟩
  · obtain ⟨_, k, hinside, hrest⟩ := hrest.needs rfl
    obtain ⟨closed, l, _, hrest⟩ := hrest.bind
    cases closed <;> cases hrest
    exact hhonest.good (.fstringInside _) _ _ _ hinside.rule
  · cases hnone

theorem addString_made {g : Gathered} {token : Token} (hg : MadeText W g.parts) :
    MadeText W (g.addString token).parts := by
  refine ⟨?_, hg.2.sub fun _ => Gathered.mem_nodes_addString⟩
  unfold Gathered.addString
  generalize StringLiteral.split token.text.toList = flagged
  obtain ⟨flags, body⟩ := flagged
  exact made_add hg.1 (.literal _)

theorem addFString_made {g : Gathered} {flags : StringFlags} {parts : List FormatPart}
    (hg : MadeText W g.parts) (hparts : MadeText W parts) :
    MadeText W (g.addFString flags parts).parts :=
  ⟨made_foldl_add hg.1 hparts.1, hg.2.either hparts.2 fun _ => mem_nodes_foldl_add⟩

theorem literal_made {g : Gathered} {span : Span} (hg : MadeText W g.parts) :
    AllMade W (nodes (⟨g.literal, span⟩ : Expr)) := by
  refine .single ?_ (hg.2.sub fun _ => Gathered.mem_nodes_literal)
  unfold Gathered.literal
  split
  · exact hg.1
  · cases g.bytes <;> trivial

theorem stringRunRule_makes : Makes W stringRunRule := by
  refine .skip fun start => Brings.bind (P := fun g : Gathered => MadeText W g.parts) ?_ ?_
  · refine .loop (fun g => MadeText W g.parts) .nil fun g hg => .skip ?_
    rintro (_ | token)
    · refine Brings.bind fstringLiteral_makes ?_
      rintro (_ | ⟨flags, parts⟩) hfound
      · exact .done hg
      · exact .done (addFString_made hg (hfound _ rfl))
    · exact .done (addString_made hg)
  · intro g hg
    split
    · exact .none
    · refine .skip fun span => .some ?_
      split
      · exact .single trivial (literal_made hg)
      · exact literal_made hg

theorem formatField_makes {raw : Bool} : Brings W (Honest W) (formatField raw) fun found =>
    ∀ part ∈ found, part.Made W ∧ AllMade W (nodes part) := by
  rintro callee hhonest i found j reads part rfl
  rcases (attempt_some reads).spelled with ⟨opening, _, _, _, hrest⟩ | hnone
  · obtain ⟨value, k, hvalue, hrest⟩ := hrest.needs rfl
    have hvalue : AllMade W (nodes value) :=
      nodes_some value ▸ yieldOrTuple_makes callee hhonest _ _ _ hvalue
    obtain ⟨equals, l, _, hrest⟩ := hrest.bind
    obtain ⟨letter, m, _, hrest⟩ := hrest.bind
    rcases hrest.accepts with ⟨_, hrest⟩ | hrest
    · obtain ⟨spec, n, hspec, hrest⟩ := hrest.needs rfl
      obtain ⟨_, hrest⟩ := hrest.expects
      cases hrest
      have hspec : MadeText W spec := hhonest.good (.fstringInside raw) _ _ _ hspec.rule
      refine ⟨.field ⟨callee, i, _, hhonest.answers, reads⟩ hspec.1, ?_⟩
      rw [FormatPart.nodes_field]
      exact hvalue.append hspec.2
    · obtain ⟨_, hrest⟩ := hrest.expects
      cases hrest
      refine ⟨.field ⟨callee, i, _, hhonest.answers, reads⟩ fun _ => nofun, ?_⟩
      rw [FormatPart.nodes_field]
      exact hvalue.append .nil
  · cases hnone

theorem fstringInsideRule_makes {raw : Bool} :
    Brings W (Honest W) (fstringInsideRule raw) fun found => ∀ parts ∈ found, MadeText W parts := by
  refine .loop (MadeText W) .nil fun parts hparts => .skip ?_
  rintro (_ | token)
  · refine Brings.bind formatField_makes ?_
    rintro (_ | field) hfield
    · refine .done fun found hfound => ?_
      cases hfound
      exact hparts
    · obtain ⟨hmade, hbelow⟩ := hfield field rfl
      exact .done ⟨forall_mem_concat hparts.1 hmade, hparts.2.concat hbelow⟩
  · refine .done ⟨made_add hparts.1 (.literal _), hparts.2.either .nil fun _ => mem_nodes_add⟩

theorem pathSearch_makes : Makes W pathSearch :=
  .skip fun _ => .pass rfl fun _ => .node (fun _ => trivial) .nil

/-! ### Commands -/

theorem namedVariable_makes {i j : Nat} {dollar : Token} {callee : Callee rules} {found : Option Expr}
    (hdollar : W.token i = .ok dollar)
    (hkind : dollar.kind = .op ∨ dollar.kind = .name ∨ dollar.kind = .word)
    (htext : dollar.text = "$") (reads : W.Reads callee (do
      let some id ← ofKind .name | return none
      if !id.touches dollar then return none
      node i (.namedVariable id.text)) (i + 1) found j) : AllMade W (nodes found) := by
  rcases reads.ofKind with ⟨t, ht, hname, hrest⟩ | ⟨_, hrest⟩
  · dsimp only at hrest
    split at hrest
    case isTrue =>
      cases hrest
      exact .nil
    case isFalse htouches =>
      cases hrest.spanSince
      have hstop : dollar.stop = t.start := by
        simpa [Token.touches] using htouches
      exact .some (.single ⟨i, dollar, t, hdollar, hkind, htext, ht, hname, rfl, hstop, rfl⟩ .nil)
  · cases hrest
    exact .nil

theorem variableExpr_makes : Makes W variableExpr := by
  intro callee hhonest i found j reads
  cases found with
  | none => exact .nil
  | some e =>
    rcases (attempt_some reads).spelled with ⟨dollar, hdollar, hkind, htext, hrest⟩ | hrest
    · exact namedVariable_makes hdollar hkind htext hrest
    · have hcomputed : Makes W (do
          if !(← accepts "$\x7b") then return none
          let some value ← expr | return none
          if !(← accepts "\x7d") then return none
          node i (.computedVariable value)) :=
        .expect (.need (.call fun _ => id) rfl fun value hvalue => .expect
          (.node (fun _ => trivial) hvalue))
      exact hcomputed callee hhonest _ _ _ hrest

theorem wordArg_makes {token : Token} : Makes W (wordArg token) :=
  .skip fun _ => .some .nil

theorem hostArg_makes : Makes W hostArg :=
  .attempt fun _ => .skip fun _ => .need spreadTuple_makes rfl fun _ hvalue => .expect (.some hvalue)

theorem rawArg_makes : Makes W rawArg :=
  .attempt fun _ => .skip fun _ => .pass rfl fun _ => .some .nil

theorem envArg_makes : Makes W envArg := by
  refine .option variableExpr_makes ?_ .none
  rintro ⟨form, span⟩ hvalue
  rw [Option.map_some]
  dsimp only
  split
  case h_1 => exact .some .nil
  case h_2 heq =>
    cases heq
    exact .some (AllMade.form hvalue fun _ _ => nofun)
  case h_3 => exact .none

theorem commandArg_makes : Makes W commandArg := by
  refine .option (.call fun _ => id) ?_ .none
  rintro ⟨form, span⟩ hvalue
  rw [Option.map_some]
  dsimp only
  split
  case h_1 heq =>
    cases heq
    exact .some (AllMade.form hvalue fun _ _ => nofun)
  case h_2 => exact .none

theorem searchArg_makes : Makes W searchArg := by
  refine .option pathSearch_makes (fun value _ => ?_) .none
  rw [Option.map_some]
  split
  · exact .some .nil
  · exact .none

theorem paired_makes {m : Match (Option CommandArg)} {depth : Nat} (hm : Makes W m) :
    Makes W (do return (← m).map fun arg => (arg, depth)) :=
  .mapped hm fun _ harg => AllMade.append harg .nil

theorem operatorPiece_makes {token : Token} {depth : Nat} :
    Makes W (operatorPiece token depth) := by
  unfold operatorPiece
  dsimp only
  split
  · exact paired_makes envArg_makes
  split
  · exact paired_makes hostArg_makes
  split
  · exact paired_makes commandArg_makes
  split
  · exact paired_makes rawArg_makes
  split
  · exact paired_makes wordArg_makes
  split
  · exact .skip fun _ => .some .nil
  split
  · exact paired_makes wordArg_makes
  split
  · exact paired_makes wordArg_makes
  · exact .none

theorem piece_makes {token : Token} {depth : Nat} : Makes W (piece token depth) := by
  unfold piece
  dsimp only
  split
  case h_1 | h_2 | h_3 => exact paired_makes wordArg_makes
  case h_4 => exact .skip fun _ => .some .nil
  case h_5 =>
    exact .option (.call fun _ => id) (fun value hvalue => .some (AllMade.append hvalue .nil)) .none
  case h_6 => exact paired_makes searchArg_makes
  case h_7 => exact operatorPiece_makes
  case h_8 => exact .none

theorem commandWords_makes {closer : String} : Makes W (commandWords closer) := by
  refine .loop (fun state => AllMade W (nodes state.1)) .nil ?_
  rintro ⟨argv, depth, stopped⟩ hargv
  have hresult : AllMade W (nodes (if argv.isEmpty = true then none else some argv)) := by
    split
    · exact .nil
    · exact AllMade.some hargv
  refine .skip fun token => ?_
  dsimp only
  split
  · exact .done hresult
  · refine .option (.attempt fun _ => piece_makes) ?_ (.done hresult)
    rintro ⟨arg, depth⟩ hfound
    have harg : AllMade W (nodes arg) := (AllMade.append_iff.mp hfound).1
    exact .skip fun _ => .done (AllMade.either hargv harg fun _ => mem_nodes_addPiece)

theorem furtherStage_makes {closer : String} : Makes W (furtherStage closer) := by
  refine .attempt fun _ => .pass rfl fun connector => ?_
  refine .need commandWords_makes rfl fun argv hargv => .some ?_
  rwa [PipelineStage.nodes_mk]

theorem stages_makes {closer : String} : Makes W (stages closer) := by
  refine .need commandWords_makes rfl fun argv hargv => ?_
  refine Brings.bind (.many furtherStage_makes) fun further hfurther => .some ?_
  rw [nodes_cons, PipelineStage.nodes_mk]
  exact hargv.append hfurther

theorem captured_makes {capture : CaptureMode} :
    Brings W (Honest W) (captured capture) fun found =>
      ∀ value, found = .matched value → AllMade W (nodes value) := by
  refine .skip fun start => .skip ?_
  rintro (_ | opening)
  · exact .done nofun
  refine .perhaps (.option stages_makes (fun stages hstages => .skip fun background => ?_)
    (.done nofun))
  refine .unlessThen (.done nofun) (.skip fun span => .done ?_)
  rintro value ⟨⟩
  refine .single trivial ?_
  change AllMade W (nodes (Pipeline.mk capture stages background))
  rwa [Pipeline.nodes_mk]

theorem commandExprRule_makes : Makes W commandExprRule := by
  refine .firstOf fun m hm => ?_
  obtain ⟨capture, _, rfl⟩ := List.mem_map.mp hm
  exact captured_makes

/-! ### Atoms -/

theorem nameExpr_makes {i j : Nat} {token : Token} {callee : Callee rules} {found : Option Expr}
    (ht : W.token i = .ok token) (hkind : token.kind = .name)
    (reads : W.Reads callee (nameExpr i token) i found j) : AllMade W (nodes found) := by
  unfold nameExpr at reads
  split at reads
  case h_1 value hvalue =>
    have hplain (span : Span) : Expr.Made W ⟨.constant value, span⟩ := by
      have hall : ∀ entry ∈ constantNames, ∀ span, Expr.Made W ⟨.constant entry.2, span⟩ := by
        simp [constantNames, Expr.Made]
      obtain ⟨_, _, htable, -⟩ := List.lookup_eq_some_iff.mp hvalue
      exact hall (token.text, value) (by simp [htable]) span
    obtain ⟨_, _, hrest⟩ := reads.next
    cases hrest.spanSince
    exact .some (.single (hplain _) .nil)
  case h_2 =>
    split at reads
    · cases reads
      exact .nil
    · obtain ⟨_, _, hrest⟩ := reads.next
      cases hrest.spanSince
      exact .some (.single ⟨i, token, ht, hkind, rfl, rfl⟩ .nil)

theorem bracketExpr_makes {start : Nat} {text : String} : Makes W (bracketExpr start text) := by
  unfold bracketExpr
  split
  · exact .inBrackets parenthesized_makes
  split
  · exact .inBrackets squareBracketed_makes
  split
  · exact .inBrackets braced_makes
  split
  · exact .skip fun _ => .node (fun _ => trivial) .nil
  split
  · exact .inBrackets variableExpr_makes
  split
  · exact .inBrackets (.call fun _ => id)
  · exact .none

theorem atomicExprRule_makes : Makes W atomicExprRule := by
  refine .mark fun i callee hhonest found j reads => ?_
  obtain ⟨token, ht, hrest⟩ := reads.peek
  split at hrest
  case h_1 hkind => exact nameExpr_makes ht hkind hrest
  case h_2 hkind =>
    obtain ⟨_, _, hrest⟩ := hrest.next
    cases hrest.spanSince
    exact .some (.single ⟨i, token, ht, hkind, rfl, rfl⟩ .nil)
  case h_3 | h_4 => exact Brings.call (r := .stringRun) (fun _ => id) callee hhonest _ _ _ hrest
  case h_5 => exact pathSearch_makes callee hhonest _ _ _ hrest
  case h_6 => exact bracketExpr_makes callee hhonest _ _ _ hrest
  case h_7 =>
    cases hrest
    exact .nil

/-! ### Calls and subscripts -/

theorem namedArgument_makes : Makes W namedArgument :=
  .attempt fun _ => .pass rfl fun _ => .expect (.need (.call fun _ h => h) rfl fun _ hvalue =>
    .some hvalue)

theorem unstarredArgument_makes {args : List Expr} {keywords : List NamedArgument}
    (hargs : AllMade W (nodes args)) (hkeywords : AllMade W (nodes keywords)) :
    Makes W (do
      if ← accepts "**" then
        let some value ← expr | return none
        return some (args, keywords ++ [⟨none, value⟩])
      if let some keyword ← namedArgument then return some (args, keywords ++ [keyword])
      let some value ← bindingExpr | return none
      return some (args ++ [value], keywords) : Match (Option ArgumentState)) := by
  refine .ifThen ?_ (.option namedArgument_makes ?_ ?_)
  · refine .need (.call fun _ h => h) rfl fun value hvalue => .some ?_
    have hkeyword : AllMade W (nodes (NamedArgument.mk none value)) := hvalue
    exact AllMade.append hargs (hkeywords.concat hkeyword)
  · exact fun keyword hkeyword => .some (AllMade.append hargs (hkeywords.concat hkeyword))
  · exact .need (.call fun _ h => h) rfl fun value hvalue =>
      .some (AllMade.append (hargs.concat hvalue) hkeywords)

theorem argument_makes {state : ArgumentState} (hstate : AllMade W (nodes state)) :
    Makes W (argument state) := by
  obtain ⟨args, keywords⟩ := state
  obtain ⟨hargs, hkeywords⟩ : AllMade W (nodes args) ∧ AllMade W (nodes keywords) :=
    AllMade.append_iff.mp hstate
  refine .mark fun i callee hhonest found j reads => ?_
  rcases reads.accepts with ⟨hstar, hrest⟩ | hrest
  · cases found with
    | none => exact .nil
    | some state =>
      obtain ⟨value, k, hvalue, hrest⟩ := hrest.needs rfl
      cases hrest.spanSince
      have hvalue : AllMade W (nodes value) := hhonest.good .expr _ _ _ hvalue.rule
      have hstarred : AllMade W (nodes (⟨.starred value, W.spanSince i j⟩ : Expr)) :=
        .single ⟨i, j, hstar, rfl⟩ hvalue
      exact .some (AllMade.append (hargs.concat hstarred) hkeywords)
  · exact unstarredArgument_makes hargs hkeywords callee hhonest _ _ _ hrest

theorem argumentList_makes : Makes W argumentList := by
  refine .loop (fun state => AllMade W (nodes state)) .nil fun state hstate => ?_
  refine .ifThen (.done hstate.some) ?_
  refine .option (argument_makes hstate) (fun state hstate => ?_) (.done .nil)
  exact .ifThen (.done hstate) (.done hstate.some)

theorem subscriptItem_makes : Makes W subscriptItem := by
  have hcall : Makes W expr := .call fun _ => id
  refine .skip fun start => Brings.bind hcall fun lower hlower => ?_
  refine .ifThen ?_ (.skip fun _ => bindingOrSpread_makes)
  refine Brings.bind hcall fun upper hupper => .ifThen ?_ ?_
  · refine Brings.bind hcall fun step hstep => .node (fun _ => trivial) ?_
    exact AllMade.append hlower (AllMade.append hupper hstep)
  · exact .node (fun _ => trivial) (AllMade.append hlower (AllMade.append hupper .nil))

theorem subscripts_makes : Makes W subscripts :=
  tupleOrSingle_makes subscriptItem_makes

/-! ### Primaries -/

theorem otherTrailer_makes {start : Nat} {value : Expr} (hvalue : AllMade W (nodes value)) :
    Makes W (do
      if let some argument ← generator then return ← node start (.call value [argument] [])
      if ← accepts "(" then
        let some (args, keywords) ← argumentList | return none
        if !(← accepts ")") then return none
        return ← node start (.call value args keywords)
      if ← accepts "[" then
        let some index ← subscripts | return none
        if !(← accepts "]") then return none
        return ← node start (.subscript value index)
      if let some opening ← spelled "!(" then
        if opening.start != value.span.stop then return none
        let args ← many (ofKind .macroParam)
        if !(← accepts ")") then return none
        return ← node start (.macroCall value (args.map Token.text))
      match ← oneOf [("??", true), ("?", false)] with
      | some detailed => node start (.help value detailed)
      | none => return none) := by
  refine .option generator_makes ?_ (.ifThen ?_ (.ifThen ?_ ?_))
  · intro argument hargument
    refine .node (fun _ => trivial) (hvalue.append (.append ?_ .nil))
    exact AllMade.sole hargument
  · refine .need argumentList_makes rfl fun _ harguments => ?_
    exact .expect (.node (fun _ => trivial) (hvalue.append harguments))
  · refine .need subscripts_makes rfl fun index hindex => ?_
    exact .expect (.node (fun _ => trivial) (hvalue.append hindex))
  refine .skip ?_
  rintro (_ | opening)
  · refine .skip ?_
    rintro (_ | detailed)
    · exact .none
    · exact .node (fun _ => trivial) hvalue
  · dsimp only
    split
    · exact .none
    · exact .skip fun args => .expect (.node (fun _ => trivial) hvalue)

theorem trailer_makes {start i j : Nat} {value : Expr} {callee : Callee rules} {found : Option Expr}
    (hvalue : AllMade W (nodes value)) (hhonest : Honest W callee)
    (hbehind : W.Whole → W.diagnosing = false → start ≤ i)
    (reads : W.Reads callee (trailer start value) i found j) : AllMade W (nodes found) := by
  cases found with
  | none => exact .nil
  | some e =>
    rcases (attempt_some reads).accepts with ⟨_, hrest⟩ | hrest
    · rcases hrest.name with ⟨attr, hattr, hkind, hrest⟩ | hrest
      · cases hrest.spanSince
        have hends : W.EndsWithName attr.text (W.spanSince start (i + 1 + 1)) :=
          ⟨start, i + 1, attr, fun hwhole hquiet => Nat.le_succ_of_le (hbehind hwhole hquiet), hattr,
            hkind, rfl, rfl⟩
        exact .some (.single hends hvalue)
      · cases hrest
    · exact otherTrailer_makes hvalue callee hhonest _ _ _ hrest

theorem postfixExprRule_makes : Makes W postfixExprRule := by
  refine .mark fun i callee hhonest found j reads => ?_
  have hatomic : Makes W (reset i >>= fun _ => atomicExpr) := .skip fun _ => .call fun _ => id
  obtain ⟨best, k, hbest, hrest⟩ := reads.bind
  cases best with
  | none => exact hatomic callee hhonest _ _ _ hrest
  | some value =>
    have hvalue : AllMade W (nodes value) := hhonest.good .postfixExpr _ _ _ hbest.rule
    have hbehind (hwhole : W.Whole) (hquiet : W.diagnosing = false) : i ≤ k :=
      (hhonest.leads .postfixExpr i _ _ hbest.rule hwhole hquiet).1
    obtain ⟨longer, l, hlonger, hrest⟩ := hrest.bind
    have hmade := trailer_makes hvalue hhonest hbehind hlonger.inBrackets
    cases longer with
    | none => exact hatomic callee hhonest _ _ _ hrest
    | some e =>
      cases hrest
      exact hmade

end ShellSyntax.Language
