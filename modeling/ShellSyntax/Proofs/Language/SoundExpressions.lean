import ShellSyntax.Language.Primary
import ShellSyntax.Proofs.Language.Merging
import ShellSyntax.Proofs.Language.SoundParts

/-! Expressions, their literals and the commands in them are sound. -/

namespace ShellSyntax.Language

open Matcher

/-! ### Named and conditional expressions -/

theorem unbound_sound {start : Nat} : Sound (do
    if ← isDiagnosing then rejectBinding
    let some value ← expr | return none
    if ← lookahead (spelled ":=") then giveUp start else return some value) :=
  .perhaps (.need .rule rfl fun _ hvalue => .ifThen giveUp_offers (.some hvalue))

theorem bindingExprRule_sound : Sound bindingExprRule := by
  refine .skip fun start => .skip ?_
  rintro (_ | name)
  · exact unbound_sound
  · refine .ifThen (.skip fun span => ?_) (.skip fun _ => unbound_sound)
    refine .option .rule (fun value hvalue => ?_) giveUp_offers
    exact node_sound ⟨⟨name.text, rfl⟩, trivial⟩ (.append (.single ⟨trivial, trivial⟩ .nil) hvalue)

theorem ifElseTail_offers :
    Offers harvest ifElseTail fun tail => AllSound (nodes tail.1) ∧ AllSound (nodes tail.2) := by
  refine attempt_offers fun _ => .expect (.need .rule rfl fun test htest => .expect ?_)
  exact .need .rule rfl fun orelse horelse => .some ⟨htest, horelse⟩

theorem defaulted_sound {id : Token} { annotation : Option Expr}
    (hannotated : AllSound (nodes annotation)) : Sound (do
      let mut default := none
      if ← accepts "=" then
        let some value ← expr | return none
        default := some value
      return some ⟨id.text, annotation, default⟩ : Match (Option Parameter)) := by
  refine .ifThen (.need .rule rfl fun value hvalue => .some ?_) (.some (hannotated.append .nil))
  refine hannotated.append ?_
  rwa [nodes_some]

theorem namedParameter_sound {annotated : Bool} : Sound (namedParameter annotated) := by
  refine attempt_offers fun _ => .pass rfl fun id => ?_
  cases annotated with
  | false => exact defaulted_sound .nil
  | true =>
    refine .ifThen (.need .rule rfl fun value hvalue => defaulted_sound ?_) (defaulted_sound .nil)
    rwa [nodes_some]

theorem parameterItem_sound {annotated : Bool} {state : ParameterState}
    (hstate : AllSound (nodes state.1)) :
    Offers harvest (parameterItem annotated state) fun state => AllSound (nodes state.1) := by
  obtain ⟨⟨args, vararg, kwonly, kwarg⟩, afterStar⟩ := state
  have hparts : AllSound (nodes args ++ (nodes vararg ++ (nodes kwonly ++ nodes kwarg))) := hstate
  simp only [AllSound.append_iff] at hparts
  obtain ⟨hargs, hvararg, hkwonly, hkwarg⟩ := hparts
  refine .ifThen (.some hstate) (.ifThen ?_ (.ifThen ?_ ?_))
  · refine .need namedParameter_sound rfl fun p hp => .some ?_
    refine hargs.append (hvararg.append (hkwonly.append ?_))
    rwa [nodes_some]
  · refine Yields.bind namedParameter_sound fun p hp => .some ?_
    exact hargs.append (.append (.option hp) (hkwonly.append hkwarg))
  · refine .need namedParameter_sound rfl fun p hp => ?_
    cases afterStar with
    | false => exact .some ((hargs.concat hp).append (hvararg.append (hkwonly.append hkwarg)))
    | true => exact .some (hargs.append (hvararg.append ((hkwonly.concat hp).append hkwarg)))

theorem parameterList_sound {annotated : Bool} {close : String} :
    Sound (parameterList annotated close) := by
  refine attempt_offers fun _ => .loop (fun state => AllSound (nodes state.1)) .nil ?_
  intro state hstate
  have hstop {state : ParameterState} (h : AllSound (nodes state.1)) :
      ∀ args ∈ some state.1, AllSound (nodes args) := by
    simpa using h
  refine .ifThen (.done (hstop hstate)) ?_
  refine .option (parameterItem_sound hstate) (fun state hstate => ?_) (.done fun _ => nofun)
  exact .ifThen (.done hstate) (.done (hstop hstate))

theorem lambdaExpr_sound : Sound lambdaExpr := by
  refine attempt_offers fun _ => .expect (.need parameterList_sound rfl fun args hargs => ?_)
  refine .expect (.need .rule rfl fun body hbody => ?_)
  exact node_sound ⟨trivial, trivial⟩ (hargs.append hbody)

theorem exprRule_sound : Sound exprRule := by
  refine .perhaps (.skip fun start => .option .rule (fun body hbody => ?_) lambdaExpr_sound)
  refine .option ifElseTail_offers ?_ (.some hbody)
  rintro ⟨test, orelse⟩ ⟨htest, horelse⟩
  exact node_sound ⟨trivial, trivial⟩ (htest.append (hbody.append horelse))

/-! ### Boolean operators and comparisons -/

theorem boolOperands_sound {op : BoolOp} {keyword : String} {operand : Match (Option Expr)}
    (hoperand : Sound operand) : Sound (boolOperands op keyword operand) := by
  refine .skip fun _ => .option (.separated hoperand) (fun values hvalues => ?_) .none
  split
  case h_1 => exact .none
  case h_2 value heq =>
    cases heq
    exact .some (hvalues.2 value List.mem_cons_self)
  case h_3 hother heq =>
    cases heq
    have hlength : 2 ≤ values.length := by
      rcases values with _ | ⟨value, _ | _⟩
      · exact absurd rfl hvalues.1
      · exact absurd rfl (hother value)
      · simp
    exact node_sound ⟨trivial, hlength⟩ (.list hvalues.2)

theorem comparisonTail_sound :
    Offers harvest comparisonTail fun tail => AllSound (nodes tail.2) :=
  attempt_offers fun _ => .pass rfl fun _ => .need .rule rfl fun _ hright => .some hright

theorem comparison_sound : Sound comparison := by
  refine .skip fun _ => .need .rule rfl fun left hleft => ?_
  refine (Yields.many comparisonTail_sound).bind fun tails htails => ?_
  split
  case h_1 => exact .some hleft
  case h_2 hother =>
    have hlengths : (tails.map Prod.fst).length = (tails.map Prod.snd).length := by
      rw [List.length_map, List.length_map]
    have hnonempty : tails.map Prod.snd ≠ [] := fun heq => hother (List.map_eq_nil_iff.mp heq)
    refine node_sound ⟨trivial, hlengths, hnonempty⟩ (hleft.append (.list fun right hright => ?_))
    obtain ⟨tail, htail, rfl⟩ := List.mem_map.mp hright
    exact htails tail htail

theorem notExprRule_sound : Sound notExprRule :=
  .skip fun _ => .ifThen
    (.option .rule (fun _ hoperand => node_sound ⟨trivial, trivial⟩ hoperand) giveUp_offers)
    comparison_sound

/-! ### Binary and prefix operators -/

theorem binaryTail_sound {start here : Nat} {left : Expr} {operand : Match (Option Expr)}
    {ops : List BinOp} (hleft : AllSound (nodes left)) (hoperand : Sound operand) :
    Sound (binaryTail start here left operand ops) := by
  induction ops with
  | nil => exact .none
  | cons op ops induction =>
    have hothers : Sound (reset here >>= fun _ => binaryTail start here left operand ops) :=
      .skip fun _ => induction
    refine .ifThen (.option hoperand (fun right hright => ?_) hothers) hothers
    exact node_sound ⟨trivial, trivial⟩ (hleft.append hright)

theorem leftAssoc_sound {ops : List BinOp} {this operand : Match (Option Expr)}
    (hthis : Sound this) (hoperand : Sound operand) : Sound (leftAssoc ops this operand) := by
  refine .skip fun start => ?_
  have hrestart : Sound (reset start >>= fun _ => operand) := .skip fun _ => hoperand
  refine .option hthis (fun left hleft => .skip fun _ => ?_) hrestart
  exact .option (binaryTail_sound hleft hoperand) (fun _ hlonger => .some hlonger) hrestart

theorem powerExpr_sound : Sound powerExpr := by
  refine .skip fun _ => .need .rule rfl fun base hbase => .skip fun here => ?_
  refine .ifThen (.option .rule (fun exponent hexponent => ?_) (.skip fun _ => .some hbase))
    (.some hbase)
  exact node_sound ⟨trivial, trivial⟩ (hbase.append hexponent)

theorem signedExprRule_sound : Sound signedExprRule := by
  refine .skip fun start => .skip ?_
  rintro (_ | op)
  · exact powerExpr_sound
  · exact .option .rule (fun _ hoperand => node_sound ⟨trivial, trivial⟩ hoperand) giveUp_offers

theorem awaitExprRule_sound : Sound awaitExprRule :=
  .skip fun _ => .ifThen
    (.option .rule (fun _ hvalue => node_sound ⟨trivial, trivial⟩ hvalue) giveUp_offers) .rule

/-! ### Literals -/

/-- Tidy parts whose nodes are sound. -/
def SoundText (parts : List FormatPart) : Prop :=
  Tidy parts ∧ AllSound (nodes parts)

theorem SoundText.nil : SoundText [] :=
  ⟨.nil, .nil⟩

theorem fstringLiteral_offers :
    Offers harvest fstringLiteral fun literal => SoundText literal.2 :=
  attempt_offers fun _ => .pass rfl fun _ => .need .rule rfl fun _ hparts =>
    .expect (.some hparts)

theorem addString_sound {g : Gathered} {token : Token} (hg : SoundText g.parts) :
    SoundText (g.addString token).parts := by
  refine ⟨?_, hg.2.sub fun _ => Gathered.mem_nodes_addString⟩
  unfold Gathered.addString
  generalize StringLiteral.split token.text.toList = flagged
  obtain ⟨flags, body⟩ := flagged
  exact hg.1.add_literal

theorem addFString_sound {g : Gathered} {flags : StringFlags} {parts : List FormatPart}
    (hg : SoundText g.parts) (hparts : SoundText parts) :
    SoundText (g.addFString flags parts).parts := by
  refine ⟨?_, hg.2.either hparts.2 fun _ => mem_nodes_foldl_add⟩
  obtain ⟨⟨hall, _⟩, _⟩ := hparts
  exact hg.1.foldl_add hall

theorem literal_shaped {g : Gathered} (hg : SoundText g.parts) : g.literal.Sound := by
  unfold Gathered.literal
  split
  · exact ⟨trivial, hg.1⟩
  · exact ⟨trivial, trivial⟩

theorem stringRunRule_sound : Sound stringRunRule := by
  refine .skip fun start => Yields.bind (P := fun g : Gathered => SoundText g.parts) ?_ ?_
  · refine .loop (fun g => SoundText g.parts) .nil fun g hg => .skip ?_
    rintro (_ | token)
    · refine .option fstringLiteral_offers ?_ (.done hg)
      rintro ⟨flags, parts⟩ hparts
      exact .done (addFString_sound hg hparts)
    · exact .done (addString_sound hg)
  · intro g hg
    have hliteral : AllSound (nodes g.literal) := hg.2.sub fun _ => Gathered.mem_nodes_literal
    split
    · exact .none
    · refine .skip fun span => .some ?_
      split
      · exact .single ⟨trivial, trivial⟩ (.single (literal_shaped hg) hliteral)
      · exact .single (literal_shaped hg) hliteral

theorem formatField_offers {raw : Bool} : Offers harvest (formatField raw) fun part =>
    (part.Tidy ∧ part.isLiteral = false) ∧ AllSound (nodes part) := by
  refine attempt_offers fun _ => .pass rfl fun opening => ?_
  refine .need yieldOrTuple_sound rfl fun value hvalue => .skip fun _ => .skip fun letter => ?_
  refine .ifThen (.need .rule rfl fun parts hparts => .expect (.some ⟨⟨.field hparts.1, rfl⟩, ?_⟩))
    (.expect (.some ⟨⟨.field .nil, rfl⟩, ?_⟩))
  · rw [FormatPart.nodes_field]
    exact hvalue.append hparts.2
  · rw [FormatPart.nodes_field]
    exact hvalue.append .nil

theorem fstringInsideRule_offers {raw : Bool} :
    Offers harvest (fstringInsideRule raw) SoundText := by
  refine .loop SoundText .nil fun parts hparts => .skip ?_
  rintro (_ | token)
  · refine .option formatField_offers (fun field hfield => .done ?_) (.done ?_)
    · exact ⟨hparts.1.field hfield.1.1 hfield.1.2, hparts.2.concat hfield.2⟩
    · simpa using hparts
  · exact .done ⟨hparts.1.add_literal, hparts.2.either .nil fun _ => mem_nodes_add⟩

theorem pathSearch_sound : Sound pathSearch :=
  .skip fun _ => .pass rfl fun _ => node_sound ⟨trivial, trivial⟩ .nil

/-! ### Commands -/

theorem variableExpr_sound : Sound variableExpr := by
  refine attempt_offers fun _ => .skip ?_
  rintro (_ | dollar)
  · refine .expect (.need .rule rfl fun value hvalue => .expect ?_)
    exact node_sound ⟨trivial, trivial⟩ hvalue
  · refine .pass rfl fun id => ?_
    dsimp only
    split
    · exact .none
    · exact node_sound ⟨trivial, trivial⟩ .nil

/-- An argument of one piece, in shape and with sound nodes. -/
structure SoundPiece (arg : CommandArg) : Prop where
  shaped : arg.WellShaped
  single : arg.isConcat = false
  below : AllSound (nodes arg)

theorem wordArg_offers {token : Token} : Offers harvest (wordArg token) SoundPiece :=
  .skip fun _ => .some ⟨.word, rfl, .nil⟩

theorem hostArg_offers : Offers harvest hostArg SoundPiece :=
  attempt_offers fun _ => .skip fun _ => .need spreadTuple_sound rfl fun _ hvalue =>
    .expect (.some ⟨.hostExpr, rfl, hvalue⟩)

theorem rawArg_offers : Offers harvest rawArg SoundPiece :=
  attempt_offers fun _ => .skip fun _ => .pass rfl fun _ => .some ⟨.raw, rfl, .nil⟩

theorem envArg_offers : Offers harvest envArg SoundPiece := by
  refine .option variableExpr_sound (fun value hvalue => ?_) .none
  have hbelow : AllSound (nodes value.form) := hvalue.form
  rw [Option.map_some]
  generalize value.form = form at hbelow
  split
  case h_1 => exact .some ⟨.namedVariable, rfl, .nil⟩
  case h_2 heq =>
    cases heq
    exact .some ⟨.computedVariable, rfl, hbelow⟩
  case h_3 => exact .none

theorem commandArg_offers : Offers harvest commandArg SoundPiece := by
  refine .option .rule (fun value hvalue => ?_) .none
  have hbelow : AllSound (nodes value.form) := AllSound.form hvalue
  have hsound : value.form.Sound := AllSound.sound hvalue
  rw [Option.map_some]
  generalize value.form = form at hbelow hsound
  split
  case h_1 heq =>
    cases heq
    exact .some ⟨.pipeline hsound.2, rfl, hbelow⟩
  case h_2 => exact .none

theorem searchArg_offers : Offers harvest searchArg SoundPiece := by
  refine .option pathSearch_sound (fun value _ => ?_) .none
  rw [Option.map_some]
  split
  · exact .some ⟨.pathSearch, rfl, .nil⟩
  · exact .none

theorem operatorPiece_offers {token : Token} {depth : Nat} :
    Offers harvest (operatorPiece token depth) fun found => SoundPiece found.1 := by
  have hpaired {depth : Nat} (arg : CommandArg) (h : SoundPiece arg) : SoundPiece (arg, depth).1 :=
    h
  unfold operatorPiece
  dsimp only
  split
  · exact mapped_offers envArg_offers hpaired
  split
  · exact mapped_offers hostArg_offers hpaired
  split
  · exact mapped_offers commandArg_offers hpaired
  split
  · exact mapped_offers rawArg_offers hpaired
  split
  · exact mapped_offers wordArg_offers hpaired
  split
  · exact .skip fun _ => .some ⟨.redirect, rfl, .nil⟩
  split
  · exact mapped_offers wordArg_offers hpaired
  split
  · exact mapped_offers wordArg_offers hpaired
  · exact .none

theorem piece_offers {token : Token} {depth : Nat} :
    Offers harvest (piece token depth) fun found => SoundPiece found.1 := by
  have hpaired (arg : CommandArg) (h : SoundPiece arg) : SoundPiece (arg, depth).1 :=
    h
  unfold piece
  dsimp only
  split
  case h_1 => exact mapped_offers wordArg_offers hpaired
  case h_2 => exact mapped_offers wordArg_offers hpaired
  case h_3 => exact mapped_offers wordArg_offers hpaired
  case h_4 => exact .skip fun _ => .some ⟨.quoted, rfl, .nil⟩
  case h_5 =>
    exact .option .rule (fun value hvalue => .some ⟨.hostExpr, rfl, hvalue⟩) .none
  case h_6 => exact mapped_offers searchArg_offers hpaired
  case h_7 => exact operatorPiece_offers
  case h_8 => exact .none

def SoundArgs (argv : List CommandArg) : Prop :=
  WellShapedArgs argv ∧ AllSound (nodes argv)

theorem commandWords_offers {closer : String} :
    Offers harvest (commandWords closer) SoundArgs := by
  refine .loop (fun state => (∀ arg ∈ state.1, arg.WellShaped) ∧ AllSound (nodes state.1))
    ⟨fun _ => nofun, .nil⟩ ?_
  rintro ⟨argv, depth, stopped⟩ ⟨hshaped, hargv⟩
  have hresult : ∀ found ∈ (if argv.isEmpty = true then none else some argv), SoundArgs found := by
    split
    case isTrue => exact fun _ => nofun
    case isFalse hempty =>
      intro found hfound
      cases hfound
      exact ⟨.intro (fun heq => hempty (heq ▸ rfl)) hshaped, hargv⟩
  refine .skip fun token => ?_
  dsimp only
  split
  · exact .done hresult
  · refine .option (attempt_offers fun _ => piece_offers) ?_ (.done hresult)
    rintro ⟨arg, depth⟩ harg
    exact .skip fun _ => .done ⟨addPiece_shaped hshaped harg.shaped harg.single,
      hargv.either harg.below fun _ => mem_nodes_addPiece⟩

theorem furtherStage_offers {closer : String} :
    Offers harvest (furtherStage closer) fun stage =>
      stage.connector.isSome ∧ SoundArgs stage.argv := by
  refine attempt_offers fun _ => .pass rfl fun connector => ?_
  exact .need commandWords_offers rfl fun argv hargv => .some ⟨rfl, hargv⟩

theorem stages_offers {closer : String} : Offers harvest (stages closer) fun stages =>
    ∀ capture background, (Pipeline.mk capture stages background).WellShaped ∧
      AllSound (nodes (Pipeline.mk capture stages background)) := by
  refine .need commandWords_offers rfl fun argv hargv => ?_
  refine (Yields.many furtherStage_offers).bind fun further hfurther => .some ?_
  intro capture background
  constructor
  · exact .intro hargv.1 (fun stage hstage => (hfurther stage hstage).1)
      fun stage hstage => (hfurther stage hstage).2.1
  · rw [Pipeline.nodes_mk, nodes_cons, PipelineStage.nodes_mk]
    refine hargv.2.append (.list fun stage hstage => ?_)
    obtain ⟨connector, argv⟩ := stage
    rw [PipelineStage.nodes_mk]
    exact (hfurther _ hstage).2.2

theorem captured_yields {capture : CaptureMode} : Yields harvest (captured capture) fun found =>
    ∀ value, found = .matched value → AllSound (nodes value) := by
  refine .skip fun start => .skip ?_
  rintro (_ | opening)
  · exact .done nofun
  refine .perhaps (.option stages_offers (fun stages hstages => .skip fun background => ?_)
    (.done nofun))
  refine .unlessThen (.done nofun) (.skip fun span => .done ?_)
  intro value hvalue
  cases hvalue
  obtain ⟨hshaped, hcommand⟩ := hstages capture background
  exact .single ⟨trivial, hshaped⟩ hcommand

theorem commandExprRule_sound : Sound commandExprRule := by
  refine .firstOf fun m hm => ?_
  obtain ⟨capture, _, rfl⟩ := List.mem_map.mp hm
  exact captured_yields

/-! ### Atoms -/

theorem nameExpr_sound {start : Nat} {token : Token} : Sound (nameExpr start token) := by
  unfold nameExpr
  split
  · exact .skip fun _ => node_sound ⟨trivial, trivial⟩ .nil
  · split
    · exact .none
    · exact .skip fun _ => node_sound ⟨trivial, trivial⟩ .nil

theorem bracketExpr_sound {start : Nat} {text : String} : Sound (bracketExpr start text) := by
  unfold bracketExpr
  split
  · exact .inBrackets parenthesized_sound
  split
  · exact .inBrackets squareBracketed_sound
  split
  · exact .inBrackets braced_sound
  split
  · exact .skip fun _ => node_sound ⟨trivial, trivial⟩ .nil
  split
  · exact .inBrackets variableExpr_sound
  split
  · exact .inBrackets .rule
  · exact .none

theorem atomicExprRule_sound : Sound atomicExprRule := by
  refine .skip fun start => .skip fun token => ?_
  split
  case h_1 => exact nameExpr_sound
  case h_2 => exact .skip fun _ => node_sound ⟨trivial, trivial⟩ .nil
  case h_3 => exact .rule
  case h_4 => exact .rule
  case h_5 => exact pathSearch_sound
  case h_6 => exact bracketExpr_sound
  case h_7 => exact .none

/-! ### Calls and subscripts -/

theorem namedArgument_sound : Sound namedArgument :=
  attempt_offers fun _ => .pass rfl fun _ => .expect (.need .rule rfl fun _ hvalue => .some hvalue)

theorem argument_sound {state : ArgumentState} (hstate : AllSound (nodes state)) :
    Sound (argument state) := by
  obtain ⟨args, keywords⟩ := state
  have hparts : AllSound (nodes args) ∧ AllSound (nodes keywords) := AllSound.append_iff.mp hstate
  obtain ⟨hargs, hkeywords⟩ := hparts
  refine .skip fun start => .ifThen ?_ (.ifThen ?_ (.option namedArgument_sound ?_ ?_))
  · refine .need .rule rfl fun value hvalue => .skip fun span => .some ?_
    have hstarred : AllSound (nodes (⟨.starred value, span⟩ : Expr)) :=
      .single ⟨trivial, trivial⟩ hvalue
    exact (hargs.concat hstarred).append hkeywords
  · refine .need .rule rfl fun value hvalue => .some ?_
    have hkeyword : AllSound (nodes (NamedArgument.mk none value)) := hvalue
    exact hargs.append (hkeywords.concat hkeyword)
  · exact fun keyword hkeyword => .some (hargs.append (hkeywords.concat hkeyword))
  · exact .need .rule rfl fun value hvalue => .some ((hargs.concat hvalue).append hkeywords)

theorem argumentList_sound : Sound argumentList := by
  refine .loop (fun state => AllSound (nodes state)) .nil fun state hstate => ?_
  have hstop {state : ArgumentState} (h : AllSound (nodes state)) :
      ∀ found ∈ some state, AllSound (nodes found) := by
    simpa using h
  refine .ifThen (.done (hstop hstate)) ?_
  refine .option (argument_sound hstate) (fun state hstate => ?_) (.done fun _ => nofun)
  exact .ifThen (.done hstate) (.done (hstop hstate))

theorem subscriptItem_sound : Sound subscriptItem := by
  refine .skip fun start => Yields.bind .rule fun lower hlower => ?_
  refine .ifThen ?_ (.skip fun _ => bindingOrSpread_sound)
  refine Yields.bind .rule fun upper hupper => .ifThen ?_ ?_
  · refine Yields.bind .rule fun step hstep => node_sound ⟨trivial, trivial⟩ ?_
    exact (AllSound.option hlower).append ((AllSound.option hupper).append (.option hstep))
  · refine node_sound ⟨trivial, trivial⟩ ?_
    exact (AllSound.option hlower).append ((AllSound.option hupper).append .nil)

theorem subscripts_sound : Sound subscripts :=
  tupleOrSingle_sound subscriptItem_sound

/-! ### Primaries -/

theorem trailer_sound {start : Nat} {value : Expr} (hvalue : AllSound (nodes value)) :
    Sound (trailer start value) := by
  refine attempt_offers fun _ =>
    .ifThen ?_ (.option generator_sound ?_ (.ifThen ?_ (.ifThen ?_ ?_)))
  · exact .pass rfl fun attr => node_sound ⟨trivial, trivial⟩ hvalue
  · intro argument hargument
    refine node_sound ⟨trivial, trivial⟩ (hvalue.append (.append ?_ .nil))
    rwa [nodes_cons, nodes_nil, List.append_nil]
  · refine .need argumentList_sound rfl ?_
    rintro ⟨args, keywords⟩ harguments
    exact .expect (node_sound ⟨trivial, trivial⟩ (hvalue.append harguments))
  · refine .need subscripts_sound rfl fun index hindex => ?_
    exact .expect (node_sound ⟨trivial, trivial⟩ (hvalue.append hindex))
  refine .skip ?_
  rintro (_ | opening)
  · refine .skip ?_
    rintro (_ | detailed)
    · exact .none
    · exact node_sound ⟨trivial, trivial⟩ hvalue
  · dsimp only
    split
    · exact .none
    · exact .skip fun args => .expect (node_sound ⟨trivial, trivial⟩ hvalue)

theorem postfixExprRule_sound : Sound postfixExprRule := by
  refine .skip fun start => ?_
  have hatomic : Sound (reset start >>= fun _ => atomicExpr) := .skip fun _ => .rule
  refine .option .rule (fun value hvalue => ?_) hatomic
  exact .option (.inBrackets (trailer_sound hvalue)) (fun _ hlonger => .some hlonger) hatomic

end ShellSyntax.Language
