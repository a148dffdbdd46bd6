import ShellSyntax.Language.Primary
import ShellSyntax.Proofs.Language.Alike
import ShellSyntax.Proofs.Tree.Sound

/-!
Expressions, their literals and the commands in them are matched alike in two programs that differ
in their line ends.
-/

namespace ShellSyntax.Language

open Matcher Text

variable {lines : List (List Char)} {joints : Bool}

/-! ### Items and yields -/

/-- Items read so far, and whether a comma was among them. -/
def ItemsLike (lines : List (List Char)) (joints : Bool) (read read' : List Expr × Bool) : Prop :=
  List.Forall₂ (Expr.Like lines joints) read.1 read'.1 ∧ read'.2 = read.2

theorem tupleOrSingle_pairs {item : Match (Option Expr)} (hitem : PairsExprs lines joints item item) :
    PairsExprs lines joints (tupleOrSingle item) (tupleOrSingle item) := by
  refine .same .mark fun start => .option hitem .none fun first first' hfirst => ?_
  refine .bind (P := ItemsLike lines joints)
    (.loop (ItemsLike lines joints) ⟨.cons hfirst .nil, rfl⟩ ?_) ?_
  · rintro ⟨items, isTuple⟩ ⟨items', _⟩ ⟨hitems, rfl⟩
    refine .ifNot (.accepts ",") (.stop ⟨hitems, rfl⟩) (.option hitem (.stop ⟨hitems, rfl⟩) ?_)
    exact fun value value' hvalue => .again ⟨List.rel_append hitems (.cons hvalue .nil), rfl⟩
  · rintro ⟨items, isTuple⟩ ⟨items', _⟩ ⟨hitems, rfl⟩
    dsimp only
    split
    · exact .node (.tuple hitems)
    · exact .some hfirst

theorem spreadOr_pairs {plain : Match (Option Expr)} (hplain : PairsExprs lines joints plain plain) :
    PairsExprs lines joints (spreadOr plain) (spreadOr plain) :=
  .same .mark fun start => .ifThen (.accepts "*")
    (.option (.call .bitOrExpr) (.giveUp start) fun _ _ hvalue => .node (.starred hvalue)) hplain

theorem bindingOrSpread_pairs : PairsExprs lines joints bindingOrSpread bindingOrSpread :=
  spreadOr_pairs (.call .bindingExpr)

theorem spreadTuple_pairs : PairsExprs lines joints spreadTuple spreadTuple :=
  tupleOrSingle_pairs (.call .exprOrSpread)

theorem yielded_pairs : PairsExprs lines joints yielded yielded := by
  refine .same .mark fun start => .expect (.accepts "yield") (.ifThen (.accepts "from") ?_ ?_)
  · exact .option (.call .expr) (.giveUp start) fun _ _ hvalue => .node (.yieldFrom hvalue)
  · exact .bind spreadTuple_pairs fun _ _ hvalue => .node (.yield hvalue)

theorem yieldOrTuple_pairs : PairsExprs lines joints yieldOrTuple yieldOrTuple :=
  .option yielded_pairs spreadTuple_pairs fun _ _ hvalue => .some hvalue

/-! ### Targets -/

theorem restricted_pairs {admits : ExprForm → Bool}
    (hadmits : ∀ form form', ExprForm.Like lines joints form form' → admits form' = admits form) :
    PairsExprs lines joints (restricted admits) (restricted admits) := by
  refine .attempt fun _ => .option (.call .bitOrExpr) .none ?_
  rintro _ _ ⟨hform, span⟩
  dsimp only
  rw [hadmits _ _ hform]
  split
  · exact .some (.intro hform span)
  · exact .none

theorem soleTarget_pairs : PairsExprs lines joints soleTarget soleTarget :=
  restricted_pairs fun _ _ hform => hform.isSoleTarget

theorem deletableTarget_pairs : PairsExprs lines joints deletableTarget deletableTarget :=
  restricted_pairs fun _ _ hform => by rw [hform.isTarget, hform.isStarred]

theorem targetItemRule_pairs : PairsExprs lines joints targetItemRule targetItemRule :=
  .same .mark fun start => .ifThen (.accepts "*")
    (.option (.call .targetItem) (.giveUp start) fun _ _ hinner => .node (.starred hinner))
    (restricted_pairs fun _ _ hform => hform.isTarget)

theorem targetTuple_pairs : PairsExprs lines joints targetTuple targetTuple :=
  tupleOrSingle_pairs (.call .targetItem)

/-! ### Named and conditional expressions -/

theorem unbound_pairs (start : Mark) : PairsExprs lines joints
    (do
      if ← isDiagnosing then rejectBinding
      let some value ← expr | return none
      if ← lookahead (spelled ":=") then giveUp start else return some value)
    (do
      if ← isDiagnosing then rejectBinding
      let some value ← expr | return none
      if ← lookahead (spelled ":=") then giveUp start else return some value) :=
  .quiet (.option (.call .expr) .none fun _ _ hvalue =>
    .ifThen (.lookahead (.spelled ":=")) (.giveUp start) (.some hvalue))

theorem bindingExprRule_pairs : PairsExprs lines joints bindingExprRule bindingExprRule := by
  refine .same .mark fun start => .option .name (unbound_pairs start) ?_
  rintro target target' ⟨_, _, htext⟩
  refine .ifThen (.accepts ":=") ?_ (.same (.reset start) fun _ => unbound_pairs start)
  refine .bind (.spanSince start) ?_
  rintro span _ rfl
  refine .option (.call .expr) (.giveUp start) fun value value' hvalue => ?_
  rw [htext]
  exact .node (.binding (.intro (.name _) span) hvalue)

theorem ifElseTail_pairs : Pairs lines joints
    (fun tail tail' => Expr.Like lines joints tail.1 tail'.1 ∧ Expr.Like lines joints tail.2 tail'.2)
    ifElseTail ifElseTail := by
  refine .attempt fun _ => .expect (.accepts "if") (.option (.call .orExpr) .none ?_)
  intro test test' htest
  refine .expect (.accepts "else") (.option (.call .expr) .none ?_)
  exact fun orelse orelse' horelse => .some ⟨htest, horelse⟩

theorem defaulted_pairs {id id' : Token} (hid : id'.text = id.text) {hint hint' : Option Expr}
    (hhint : Option.Rel (Expr.Like lines joints) hint hint') :
    Pairs lines joints (Parameter.Like lines joints)
      (do
        let mut default := none
        if ← accepts "=" then
          let some value ← expr | return none
          default := some value
        return some ⟨id.text, hint, default⟩)
      (do
        let mut default := none
        if ← accepts "=" then
          let some value ← expr | return none
          default := some value
        return some ⟨id'.text, hint', default⟩) := by
  rw [hid]
  refine .ifThen (.accepts "=") (.option (.call .expr) .none fun _ _ hvalue => ?_) ?_
  · exact .some (.intro _ hhint (.some hvalue))
  · exact .some (.intro _ hhint .none)

theorem namedParameter_pairs (annotated : Bool) : Pairs lines joints (Parameter.Like lines joints)
    (namedParameter annotated) (namedParameter annotated) := by
  refine .attempt fun _ => .option .name .none ?_
  rintro id id' ⟨_, _, hid⟩
  cases annotated with
  | false => exact defaulted_pairs hid .none
  | true =>
    refine .ifThen (.accepts ":") (.option (.call .expr) .none ?_) (defaulted_pairs hid .none)
    exact fun _ _ hvalue => defaulted_pairs hid (.some hvalue)

/-- Parameters read so far, and whether a star was among them. -/
def ParametersLike (lines : List (List Char)) (joints : Bool) (state state' : ParameterState) :
    Prop :=
  state.1.Like lines joints state'.1 ∧ state'.2 = state.2

theorem parameterItem_pairs (annotated : Bool) {state state' : ParameterState}
    (hstate : ParametersLike lines joints state state') :
    Pairs lines joints (ParametersLike lines joints) (parameterItem annotated state)
      (parameterItem annotated state') := by
  obtain ⟨args, afterStar⟩ := state
  obtain ⟨args', afterStar'⟩ := state'
  obtain ⟨⟨hargs, hvararg, hkwonly, hkwarg⟩, hsame⟩ := hstate
  obtain rfl : afterStar' = afterStar := hsame
  refine .ifThen (.accepts "/") (.some ⟨.intro hargs hvararg hkwonly hkwarg, rfl⟩)
    (.ifThen (.accepts "**") ?_ (.ifThen (.accepts "*") ?_ ?_))
  · exact .option (namedParameter_pairs annotated) .none fun p p' hp =>
      .some ⟨.intro hargs hvararg hkwonly (.some hp), rfl⟩
  · exact .bind (namedParameter_pairs annotated) fun p p' hp =>
      .some ⟨.intro hargs hp hkwonly hkwarg, rfl⟩
  · refine .option (namedParameter_pairs annotated) .none fun p p' hp => ?_
    cases afterStar' with
    | false =>
      exact .some ⟨.intro (List.rel_append hargs (.cons hp .nil)) hvararg hkwonly hkwarg, rfl⟩
    | true => exact .some ⟨.intro hargs hvararg (List.rel_append hkwonly (.cons hp .nil)) hkwarg, rfl⟩

theorem parameterList_pairs (annotated : Bool) (close : String) :
    Pairs lines joints (Parameters.Like lines joints) (parameterList annotated close)
      (parameterList annotated close) := by
  refine .attempt fun _ => .loop (ParametersLike lines joints)
    ⟨.intro .nil .none .nil .none, rfl⟩ fun state state' hstate => ?_
  refine .ifThen (.lookahead (.spelled close)) (.stop (.some hstate.1)) ?_
  refine .option (parameterItem_pairs annotated hstate) (.stop .none) fun next next' hnext => ?_
  exact .ifThen (.accepts ",") (.again hnext) (.stop (.some hnext.1))

theorem lambdaExpr_pairs : PairsExprs lines joints lambdaExpr lambdaExpr := by
  refine .attempt fun start => .expect (.accepts "lambda") ?_
  refine .option (parameterList_pairs false ":") .none fun args args' hargs => ?_
  refine .expect (.accepts ":") (.option (.call .expr) .none fun body body' hbody => ?_)
  exact .node (.lambda hargs hbody)

theorem exprRule_pairs : PairsExprs lines joints exprRule exprRule := by
  refine .quiet (.same .mark fun start => .option (.call .orExpr) lambdaExpr_pairs ?_)
  intro body body' hbody
  exact .option ifElseTail_pairs (.some hbody) fun tail tail' htail =>
    .node (.conditional htail.1 hbody htail.2)

/-! ### Boolean operators and comparisons -/

theorem boolOperands_pairs (op : BoolOp) (keyword : String) {operand : Match (Option Expr)}
    (hoperand : PairsExprs lines joints operand operand) :
    PairsExprs lines joints (boolOperands op keyword operand) (boolOperands op keyword operand) := by
  refine .same .mark fun start => .option (.separated hoperand) .none ?_
  rintro _ _ (_ | ⟨hfirst, _ | ⟨hsecond, hothers⟩⟩)
  · exact .node (.boolOp op .nil)
  · exact .some hfirst
  · exact .node (.boolOp op (.cons hfirst (.cons hsecond hothers)))

theorem notIn_pairs : Pairs lines joints Eq notIn notIn :=
  .attempt fun _ => .expect (.accepts "not") (.expect (.accepts "in") (.some rfl))

theorem comparisonOperator_pairs :
    Pairs lines joints Eq comparisonOperator comparisonOperator := by
  refine .same (.oneOf _) ?_
  rintro (_ | op)
  · refine .option notIn_pairs ?_ fun _ _ hop => .some hop
    exact .ifThen (.accepts "is") (.ifThen (.accepts "not") (.some rfl) (.some rfl)) .none
  · exact .some rfl

theorem comparisonTail_pairs : Pairs lines joints
    (fun tail tail' => tail'.1 = tail.1 ∧ Expr.Like lines joints tail.2 tail'.2)
    comparisonTail comparisonTail := by
  refine .attempt fun _ => .option comparisonOperator_pairs .none ?_
  rintro op _ rfl
  exact .option (.call .bitOrExpr) .none fun right right' hright => .some ⟨rfl, hright⟩

theorem forall₂_unzip {α β γ : Type} {Q : β → γ → Prop} {pairs : List (α × β)} {pairs' : List (α × γ)}
    (h : List.Forall₂ (fun pair pair' => pair'.1 = pair.1 ∧ Q pair.2 pair'.2) pairs pairs') :
    pairs'.map Prod.fst = pairs.map Prod.fst ∧
      List.Forall₂ Q (pairs.map Prod.snd) (pairs'.map Prod.snd) := by
  induction h with
  | nil => exact ⟨rfl, .nil⟩
  | cons hpair _ induction =>
    exact ⟨congrArg₂ List.cons hpair.1 induction.1, .cons hpair.2 induction.2⟩

theorem comparison_pairs : PairsExprs lines joints comparison comparison := by
  refine .same .mark fun start => .option (.call .bitOrExpr) .none fun left left' hleft => ?_
  refine .bind (.many comparisonTail_pairs) fun tails tails' htails => ?_
  obtain ⟨hops, hcomparators⟩ := forall₂_unzip htails
  cases htails with
  | nil => exact .some hleft
  | cons =>
    dsimp only
    rw [hops]
    exact .node (.compare _ hleft hcomparators)

theorem notExprRule_pairs : PairsExprs lines joints notExprRule notExprRule :=
  .same .mark fun start => .ifThen (.accepts "not")
    (.option (.call .notExpr) (.giveUp start) fun _ _ hoperand => .node (.unaryOp .not hoperand))
    comparison_pairs

/-! ### Binary and prefix operators -/

theorem binaryTail_pairs (start here : Mark) {left left' : Expr}
    (hleft : left.Like lines joints left') {operand : Match (Option Expr)}
    (hoperand : PairsExprs lines joints operand operand) (ops : List BinOp) :
    PairsExprs lines joints (binaryTail start here left operand ops)
      (binaryTail start here left' operand ops) := by
  induction ops with
  | nil => exact .none
  | cons op ops induction =>
    have hothers : PairsExprs lines joints
        (reset here >>= fun _ => binaryTail start here left operand ops)
        (reset here >>= fun _ => binaryTail start here left' operand ops) :=
      .same (.reset here) fun _ => induction
    refine .ifThen (.accepts op.symbol)
      (.option hoperand hothers fun right right' hright => ?_) hothers
    exact .node (.binOp op hleft hright)

theorem leftAssoc_pairs (ops : List BinOp) {this operand : Match (Option Expr)}
    (hthis : PairsExprs lines joints this this)
    (hoperand : PairsExprs lines joints operand operand) :
    PairsExprs lines joints (leftAssoc ops this operand) (leftAssoc ops this operand) := by
  refine .same .mark fun start => ?_
  have hrestart : PairsExprs lines joints (reset start >>= fun _ => operand)
      (reset start >>= fun _ => operand) := .same (.reset start) fun _ => hoperand
  refine .option hthis hrestart fun left left' hleft => .same .mark fun here => ?_
  exact .option (binaryTail_pairs start here hleft hoperand ops) hrestart fun _ _ hlonger =>
    .some hlonger

theorem powerExpr_pairs : PairsExprs lines joints powerExpr powerExpr := by
  refine .same .mark fun start => .option (.call .awaitExpr) .none fun base base' hbase => ?_
  refine .same .mark fun here => .ifThen (.accepts "**") ?_ (.some hbase)
  refine .option (.call .signedExpr) (.same (.reset here) fun _ => .some hbase) ?_
  exact fun exponent exponent' hexponent => .node (.binOp .pow hbase hexponent)

theorem signedExprRule_pairs : PairsExprs lines joints signedExprRule signedExprRule := by
  refine .same .mark fun start => .same (.oneOf prefixOperators) ?_
  rintro (_ | op)
  · exact powerExpr_pairs
  · exact .option (.call .signedExpr) (.giveUp start) fun _ _ hoperand => .node (.unaryOp op hoperand)

theorem awaitExprRule_pairs : PairsExprs lines joints awaitExprRule awaitExprRule :=
  .same .mark fun start => .ifThen (.accepts "await")
    (.option (.call .postfixExpr) (.giveUp start) fun _ _ hvalue => .node (.await hvalue))
    (.call .postfixExpr)

/-! ### Literals -/

theorem fstringLiteral_pairs : Pairs lines joints
    (fun literal literal' => literal'.1 = literal.1 ∧ PartsLike lines joints literal.2 literal'.2)
    fstringLiteral fstringLiteral := by
  refine .attempt fun _ => .option (.ofKind .fstringStart) .none ?_
  rintro opening opening' ⟨htwin, hkind⟩
  have htext : opening'.text = opening.text := htwin.1.text_eq (by rw [hkind]; rfl)
  dsimp only
  rw [htext]
  refine .option (.call (.fstringInside _)) .none fun parts parts' hparts => ?_
  exact .expect (.acceptsKind .fstringEnd) (.some ⟨rfl, hparts⟩)

theorem stringRunRule_pairs : PairsExprs lines joints stringRunRule stringRunRule := by
  refine .same .mark fun start => .bind (P := Gathered.Like lines joints)
    (.loop (Gathered.Like lines joints) .none fun g g' hg => ?_) fun g g' hg => ?_
  · refine .option (.ofKind .string) ?_ ?_
    · refine .option fstringLiteral_pairs (.stop hg) ?_
      rintro ⟨flags, parts⟩ ⟨_, parts'⟩ ⟨rfl, hparts⟩
      exact .again (hg.addFString _ hparts)
    · rintro token token' ⟨⟨htwin, known⟩, hkind⟩
      refine .again (hg.addString (known.quoted hkind) ?_ (htwin.literal (.inl hkind)))
      exact fun hfalse hraw hjoint => known.joint hfalse ⟨.inl ⟨hkind, hraw⟩, hjoint⟩
  · rw [hg.count]
    split
    · exact .none
    · refine .bind (.spanSince start) ?_
      rintro span _ rfl
      rw [hg.path]
      have hliteral := Expr.Like.intro hg.literal span
      split
      · exact .some (.intro (.path hliteral) span)
      · exact .some hliteral

theorem isLayout_of_sign {t : Token} (hsign : t.kind = .op ∨ t.kind = .name ∨ t.kind = .word) :
    t.kind.isLayout = false := by
  rcases hsign with hkind | hkind | hkind <;> rw [hkind] <;> rfl

theorem conversion_pairs : Pairs lines joints Eq conversion conversion := by
  refine .attempt fun _ => .option (.spelled "!") .none ?_
  rintro sign sign' ⟨hsign, _, hkind⟩
  refine .option .name .none ?_
  rintro letter letter' ⟨hletter, _, htext⟩
  dsimp only
  rw [hletter.1.touches_eq hsign.1 (isLayout_of_sign hkind), htext]
  split
  · exact .some rfl
  · exact .none

/-- The characters of a line between two signs. Where the second stands on a line further down and
the first line ends in between, its line feed may be left out. -/
theorem columnsOf_like {first first' last last' : Token} (hfirst : first.Twin lines first')
    (hlast : last.Twin lines last')
    (hsign : first.kind = .op ∨ first.kind = .name ∨ first.kind = .word)
    (hsign' : last.kind = .op ∨ last.kind = .name ∨ last.kind = .word) :
    DebugLike (columnsOf first.line first.stop.column last.stop.column)
      (columnsOf first'.line first'.stop.column last'.stop.column) := by
  obtain ⟨hone, _, hfeed, hstart⟩ := hfirst.sign hsign
  obtain ⟨_, _, _, hstop⟩ := hlast.sign hsign'
  unfold columnsOf
  rw [hfirst.line, toList_returned, hstart, hstop, (take_withReturns hfeed).2]
  generalize last.stop.column - first.stop.column = count
  generalize hrest : first.line.toList.drop first.stop.column = rest
  replace hone : OneLine rest := hrest ▸ hone.drop _
  unfold DebugLike
  rw [returned_ofList]
  by_cases hcut : '\n' ∈ rest.take count
  · have hends : rest.length ≤ count ∧ rest.getLast? = some '\n' := by
      by_contra hnot
      exact hone.feed_not_mem_of_short (fun hle hend => hnot ⟨hle, hend⟩) hcut
    obtain ⟨hle, hend⟩ := hends
    obtain ⟨init, rfl⟩ : ∃ init, rest = init ++ ['\n'] :=
      ⟨rest.dropLast, (List.dropLast_append_getLast? _ hend).symm⟩
    have hinit : '\n' ∉ init := by
      have hshort : '\n' ∉ (init ++ ['\n']).take init.length := hone.feed_not_mem_take (by simp)
      rwa [List.take_left] at hshort
    have hreturns : withReturns (init ++ ['\n']) = init ++ ['\r', '\n'] := by
      rw [withReturns_append, withReturns_of_no_feed hinit]
      rfl
    rw [List.take_of_length_le hle, hreturns]
    rw [List.length_append, List.length_singleton] at hle
    rcases Nat.lt_or_eq_of_le hle with hlt | rfl
    · left
      rw [List.take_of_length_le]
      rwa [List.length_append]
    · right
      apply String.toList_inj.mp
      simp [List.take_append, List.take_of_length_le]
  · left
    rw [withReturns_of_no_feed hcut, (take_withReturns hcut).1]

/-- Both are replacement fields. -/
def FieldLike (lines : List (List Char)) (joints : Bool) (part part' : FormatPart) : Prop :=
  part.Like lines joints part' ∧ part.isLiteral = false

theorem closedField_pairs {value value' : Expr} (hvalue : value.Like lines joints value')
    {debugText debugText' : Option String} (hdebug : Option.Rel DebugLike debugText debugText')
    (letter : Option Char) {spec spec' : List FormatPart}
    (hspec : PartsLike lines joints spec spec') :
    Pairs lines joints (FieldLike lines joints)
      (do
        if !(← accepts "\x7d") then return none
        return some (.field value debugText letter spec))
      (do
        if !(← accepts "\x7d") then return none
        return some (.field value' debugText' letter spec')) := by
  obtain ⟨pieces, pieces', hpieces, rfl, rfl⟩ := hspec
  exact .expect (.accepts "\x7d") (.some ⟨.field letter hvalue hdebug hpieces, rfl⟩)

theorem formatField_pairs (raw : Bool) :
    Pairs lines joints (FieldLike lines joints) (formatField raw) (formatField raw) := by
  refine .attempt fun _ => .option (.spelled "\x7b") .none ?_
  rintro opening opening' ⟨hopening, _, hsign⟩
  refine .option yieldOrTuple_pairs .none fun value value' hvalue => ?_
  refine .bind (.spelled "=") fun equals equals' hequals => ?_
  refine .bind conversion_pairs fun letter letter' hletter => ?_
  obtain rfl : letter = letter' := by
    rcases hletter with ⟨rfl⟩ | _ <;> rfl
  have hdebug : Option.Rel DebugLike
      (equals.map fun equals => columnsOf opening.line opening.stop.column equals.stop.column)
      (equals'.map fun equals =>
        columnsOf opening'.line opening'.stop.column equals.stop.column) := by
    cases hequals with
    | none => exact .none
    | some hequals => exact .some (columnsOf_like hopening.1 hequals.1.1 hsign hequals.2.2)
  refine .ifThen (.accepts ":") (.option (.call (.fstringInside raw)) .none ?_) ?_
  · exact fun _ _ hspec => closedField_pairs hvalue hdebug letter hspec
  · exact closedField_pairs hvalue hdebug letter .nil

theorem fstringInsideRule_pairs (raw : Bool) : Pairs lines joints (PartsLike lines joints)
    (fstringInsideRule raw) (fstringInsideRule raw) := by
  refine .loop (PartsLike lines joints) .nil fun parts parts' hparts => ?_
  refine .option (.ofKind .fstringMiddle) ?_ ?_
  · refine .option (formatField_pairs raw) (.stop (.some hparts)) ?_
    rintro field field' ⟨hfield, hliteral⟩
    cases hfield with
    | literal => cases hliteral
    | field letter hvalue hdebug hpieces =>
      exact .again (hparts.add (.field letter hvalue hdebug hpieces))
  · rintro token token' ⟨⟨htwin, known⟩, hkind⟩
    dsimp only
    rw [htwin.literal (.inr hkind)]
    exact .again (hparts.add (.literal (FormatPart.decodeText_like fun hfalse hjoint =>
      known.joint hfalse ⟨.inr hkind, hjoint⟩)))

theorem pathSearch_pairs : PairsExprs lines joints pathSearch pathSearch := by
  refine .same .mark fun start => .option (.ofKind .pathSearch) .none ?_
  rintro token token' ⟨htwin, hkind⟩
  dsimp only
  rw [htwin.1.text_eq (by rw [hkind]; rfl)]
  exact .node (.pathSearch _)

/-! ### Commands -/

theorem variableExpr_pairs : PairsExprs lines joints variableExpr variableExpr := by
  refine .attempt fun start => .option (.spelled "$") ?_ ?_
  · refine .expect (.accepts "$\x7b") (.option (.call .expr) .none fun value value' hvalue => ?_)
    exact .expect (.accepts "\x7d") (.node (.computedVariable hvalue))
  · rintro dollar dollar' ⟨hdollar, _, hsign⟩
    refine .option (.ofKind .name) .none ?_
    rintro id id' ⟨hid, hkind⟩
    dsimp only
    rw [hid.1.touches_eq hdollar.1 (isLayout_of_sign hsign), hid.1.text_eq (by rw [hkind]; rfl)]
    exact .ite .none (.node (.namedVariable _))

theorem wordArg_pairs {token token' : Token} (htext : token'.text = token.text) :
    Pairs lines joints (CommandArg.Like lines joints) (wordArg token) (wordArg token') := by
  refine .bind .next fun _ _ _ => ?_
  rw [htext]
  exact .some (.word _)

theorem hostArg_pairs : Pairs lines joints (CommandArg.Like lines joints) hostArg hostArg := by
  refine .attempt fun _ => .bind .next fun _ _ _ => .option spreadTuple_pairs .none ?_
  exact fun value value' hvalue => .expect (.accepts ")") (.some (.hostExpr hvalue))

theorem rawArg_pairs : Pairs lines joints (CommandArg.Like lines joints) rawArg rawArg := by
  refine .attempt fun _ => .bind .next fun _ _ _ => .map (.ofKind .macroParam) ?_
  rintro _ _ (⟨⟨htwin, _⟩, _⟩ | _)
  · exact .some (.raw htwin.text)
  · exact .none

theorem envArg_pairs : Pairs lines joints (CommandArg.Like lines joints) envArg envArg := by
  refine .bind variableExpr_pairs ?_
  rintro _ _ (⟨⟨hform, span⟩⟩ | _)
  · cases hform with
    | namedVariable name => exact .some (.namedVariable name)
    | computedVariable hvalue => exact .some (.computedVariable hvalue)
    | _ => exact .none
  · exact .none

theorem commandArg_pairs :
    Pairs lines joints (CommandArg.Like lines joints) commandArg commandArg := by
  refine .bind (.call .commandExpr) ?_
  rintro _ _ (⟨⟨hform, span⟩⟩ | _)
  · cases hform with
    | pipeline hcommand => exact .some (.pipeline hcommand)
    | _ => exact .none
  · exact .none

theorem searchArg_pairs : Pairs lines joints (CommandArg.Like lines joints) searchArg searchArg := by
  refine .bind pathSearch_pairs ?_
  rintro _ _ (⟨⟨hform, span⟩⟩ | _)
  · cases hform with
    | pathSearch search => exact .some (.pathSearch search)
    | _ => exact .none
  · exact .none

/-- A piece, and the bracket depth behind it. -/
def PieceLike (lines : List (List Char)) (joints : Bool) (read read' : CommandArg × Nat) : Prop :=
  read.1.Like lines joints read'.1 ∧ read'.2 = read.2

theorem atDepth_pairs {m m' : Match (Option CommandArg)}
    (h : Pairs lines joints (CommandArg.Like lines joints) m m') {depth depth' : Nat}
    (hdepth : depth' = depth) :
    Pairs lines joints (PieceLike lines joints) (do return (← m).map fun arg => (arg, depth))
      (do return (← m').map fun arg => (arg, depth')) := by
  refine .map h ?_
  rintro _ _ (⟨harg⟩ | _)
  · exact .some ⟨harg, hdepth⟩
  · exact .none

theorem operatorPiece_pairs {token token' : Token} (htext : token'.text = token.text) (depth : Nat) :
    Pairs lines joints (PieceLike lines joints) (operatorPiece token depth)
      (operatorPiece token' depth) := by
  have hword (depth : Nat) : Pairs lines joints (PieceLike lines joints)
      (do return (← wordArg token).map fun arg => (arg, depth))
      (do return (← wordArg token').map fun arg => (arg, depth)) :=
    atDepth_pairs (wordArg_pairs htext) rfl
  unfold operatorPiece
  dsimp only
  simp only [htext]
  refine .ite (atDepth_pairs envArg_pairs rfl) (.ite (atDepth_pairs hostArg_pairs rfl) ?_)
  refine .ite (atDepth_pairs commandArg_pairs rfl) (.ite (atDepth_pairs rawArg_pairs rfl) ?_)
  refine .ite (hword depth) (.ite ?_ (.ite (hword (depth + 1)) (.ite (hword (depth - 1)) .none)))
  exact .bind .next fun _ _ _ => .some ⟨.redirect _, rfl⟩

theorem piece_pairs {token token' : Token} (htwin : token.Twin lines token') (depth : Nat) :
    Pairs lines joints (PieceLike lines joints) (piece token depth) (piece token' depth) := by
  unfold piece
  rw [htwin.kind]
  cases hkind : token.kind with
  | word | name | number =>
    exact atDepth_pairs (wordArg_pairs (htwin.text_eq (by rw [hkind]; rfl))) rfl
  | string =>
    refine .bind .next fun _ _ _ => ?_
    rw [htwin.literal (.inl hkind)]
    exact .some ⟨.quoted _, rfl⟩
  | fstringStart =>
    refine .map (.call .stringRun) ?_
    rintro _ _ (⟨hvalue⟩ | _)
    · exact .some ⟨.hostExpr hvalue, rfl⟩
    · exact .none
  | pathSearch => exact atDepth_pairs searchArg_pairs rfl
  | op => exact operatorPiece_pairs (htwin.text_eq (by rw [hkind]; rfl)) depth
  | _ => exact .none

theorem endsCommand_eq {token token' : Token} (htwin : token.Twin lines token') (closer : String) :
    endsCommand token' closer = endsCommand token closer := by
  unfold endsCommand
  rw [htwin.kind]
  cases hkind : token.kind with
  | op | word => rw [htwin.text_eq (by rw [hkind]; rfl)]
  | _ => rfl

/-- Arguments read so far, the bracket depth, and where the last piece ended. -/
structure CommandStateLike (lines : List (List Char)) (joints : Bool) (state state' : CommandState) :
    Prop where
  argv : List.Forall₂ (CommandArg.Like lines joints) state.1 state'.1
  depth : state'.2.1 = state.2.1
  stopped : state'.2.2 = state.2.2.map (Position.moved lines)

theorem commandWords_pairs (closer : String) :
    Pairs lines joints (List.Forall₂ (CommandArg.Like lines joints)) (commandWords closer)
      (commandWords closer) := by
  refine .loop (CommandStateLike lines joints) ⟨.nil, rfl, rfl⟩ ?_
  rintro ⟨argv, depth, stopped⟩ ⟨argv', depth', stopped'⟩ ⟨hargv, hdepth, hstopped⟩
  dsimp only at hargv hdepth hstopped
  subst hdepth hstopped
  have hresult : Option.Rel (List.Forall₂ (CommandArg.Like lines joints))
      (if argv.isEmpty = true then none else some argv)
      (if argv'.isEmpty = true then none else some argv') := by
    cases hargv with
    | nil => exact .none
    | cons harg hargs => exact .some (.cons harg hargs)
  refine .bind .peek fun token token' htoken => ?_
  dsimp only
  rw [endsCommand_eq htoken.1]
  refine .ite (.stop hresult) ?_
  refine .option (.attempt fun _ => piece_pairs htoken.1 _) (.stop hresult) ?_
  rintro ⟨arg, depth⟩ ⟨arg', _⟩ ⟨harg, rfl⟩
  have htouches : (stopped.map (Position.moved lines) == some token'.start) =
      (stopped == some token.start) := by
    rw [htoken.1.start, Bool.eq_iff_iff, beq_iff_eq, beq_iff_eq]
    exact (Option.map_injective Position.moved_injective).eq_iff' rfl
  refine .bind .lastToken? fun last last' hlast => ?_
  rw [htouches]
  refine .again ⟨addPiece_like hargv harg _, rfl, ?_⟩
  cases hlast with
  | none => rfl
  | some hlast => exact congrArg some (hlast.1.1.stop hlast.2)

theorem furtherStage_pairs (closer : String) :
    Pairs lines joints (PipelineStage.Like lines joints) (furtherStage closer)
      (furtherStage closer) := by
  refine .attempt fun _ => .same (.oneOf links) ?_
  rintro (_ | connector)
  · exact .none
  · exact .option (commandWords_pairs closer) .none fun _ _ hargv => .some (.intro _ hargv)

theorem stages_pairs (closer : String) :
    Pairs lines joints (List.Forall₂ (PipelineStage.Like lines joints)) (stages closer)
      (stages closer) := by
  refine .option (commandWords_pairs closer) .none fun argv argv' hargv => ?_
  exact .map (.many (furtherStage_pairs closer)) fun _ _ hmore =>
    .some (.cons (.intro none hargv) hmore)

theorem captured_pairs (capture : CaptureMode) :
    Mirrors (resemblance lines joints) (Attempt.Rel (Expr.Like lines joints)) (captured capture)
      (captured capture) := by
  refine .same .mark fun start => .option (.spelled capture.opener) (.done .failed) ?_
  intro opening opening' _
  refine .quiet (.option (stages_pairs capture.closer) (.done .refused) fun found found' hfound => ?_)
  refine .same (.accepts "&") fun background => ?_
  refine .ifNot (.accepts capture.closer) (.done .refused) (.bind (.spanSince start) ?_)
  rintro span _ rfl
  exact .done (.matched (.intro (.pipeline (.intro capture background hfound)) span))

theorem commandExprRule_pairs : PairsExprs lines joints commandExprRule commandExprRule := by
  refine .firstOf (List.forall₂_same.mpr fun m hm => ?_)
  obtain ⟨capture, _, rfl⟩ := List.mem_map.mp hm
  exact captured_pairs capture

/-! ### Displays -/

theorem filterClause_pairs : PairsExprs lines joints filterClause filterClause :=
  .expect (.accepts "if") (.call .orExpr)

theorem forClause_pairs :
    Pairs lines joints (Comprehension.Like lines joints) forClause forClause := by
  refine .attempt fun _ => .same (.accepts "async") fun isAsync => .expect (.accepts "for") ?_
  refine .option targetTuple_pairs .none fun target target' htarget => .expect (.accepts "in") ?_
  refine .option (.call .orExpr) .none fun iter iter' hiter => ?_
  exact .map (.many filterClause_pairs) fun _ _ hifs => .some (.intro isAsync htarget hiter hifs)

/-- An element and its loops. -/
def LoopsLike (lines : List (List Char)) (joints : Bool) {α : Type} (Q : α → α → Prop)
    (found found' : α × List Comprehension) : Prop :=
  Q found.1 found'.1 ∧ List.Forall₂ (Comprehension.Like lines joints) found.2 found'.2

theorem comprehension_pairs (closer : String) :
    Pairs lines joints (LoopsLike lines joints (Expr.Like lines joints)) (comprehension closer)
      (comprehension closer) := by
  refine .option (.call .bindingExpr) .none fun elt elt' helt => ?_
  refine .option (.many1 forClause_pairs) .none fun generators generators' hgenerators => ?_
  exact .expect (.accepts closer) (.some ⟨helt, hgenerators⟩)

theorem generator_pairs : PairsExprs lines joints generator generator := by
  refine .attempt fun start => .expect (.accepts "(") ?_
  refine .option (comprehension_pairs ")") .none ?_
  rintro ⟨elt, generators⟩ ⟨elt', generators'⟩ ⟨helt, hgenerators⟩
  exact .node (.generator helt hgenerators)

theorem parenthesized_pairs : PairsExprs lines joints parenthesized parenthesized := by
  refine .attempt fun start => .expect (.accepts "(") ?_
  refine .ifThen (.accepts ")") (.node (.tuple .nil)) (.same .mark fun inside => ?_)
  refine .option yielded_pairs ?others fun _ _ hvalue => .ifThen (.accepts ")") (.some hvalue) ?others
  case others =>
  refine .same (.reset start) fun _ => .option generator_pairs ?_ fun _ _ hvalue => .some hvalue
  refine .same (.reset inside) fun _ => .option (tupleOrSingle_pairs bindingOrSpread_pairs) .none ?_
  rintro _ _ ⟨hform, span⟩
  refine .expect (.accepts ")") ?_
  cases hform with
  | tuple hitems => exact .node (.tuple hitems)
  | _ => exact .some (.intro (by constructor <;> assumption) span)

theorem bracketItems_pairs :
    Mirrors (resemblance lines joints) (List.Forall₂ (Expr.Like lines joints)) bracketItems
      bracketItems := by
  refine .option (.separated bindingOrSpread_pairs) (.done .nil) fun items items' hitems => ?_
  exact .same (.accepts ",") fun _ => .done hitems

theorem squareBracketed_pairs : PairsExprs lines joints squareBracketed squareBracketed := by
  refine .attempt fun start => .expect (.accepts "[") (.same .mark fun inside => ?_)
  refine .option (comprehension_pairs "]") ?_ ?_
  · refine .same (.reset inside) fun _ => .bind bracketItems_pairs fun items items' hitems => ?_
    exact .expect (.accepts "]") (.node (.list hitems))
  · rintro ⟨elt, generators⟩ ⟨elt', generators'⟩ ⟨helt, hgenerators⟩
    exact .node (.listComp helt hgenerators)

/-- A key and its value. -/
def EntryLike (lines : List (List Char)) (joints : Bool) (pair pair' : Expr × Expr) : Prop :=
  pair.1.Like lines joints pair'.1 ∧ pair.2.Like lines joints pair'.2

theorem entry_pairs : Pairs lines joints (EntryLike lines joints) entry entry := by
  refine .attempt fun _ => .option (.call .expr) .none fun key key' hkey => ?_
  refine .expect (.accepts ":") (.option (.call .expr) .none fun value value' hvalue => ?_)
  exact .some ⟨hkey, hvalue⟩

/-- Entries with a key or without. -/
def SpreadEntryLike (lines : List (List Char)) (joints : Bool) (pair pair' : Option Expr × Expr) :
    Prop :=
  Option.Rel (Expr.Like lines joints) pair.1 pair'.1 ∧ pair.2.Like lines joints pair'.2

theorem entryOrSpread_pairs :
    Pairs lines joints (SpreadEntryLike lines joints) entryOrSpread entryOrSpread := by
  refine .same .mark fun start => .ifThen (.accepts "**") ?_ ?_
  · exact .option (.call .bitOrExpr) (.giveUp start) fun _ _ hvalue => .some ⟨.none, hvalue⟩
  · refine .map entry_pairs ?_
    rintro _ _ (⟨hkey, hvalue⟩ | _)
    · exact .some ⟨.some hkey, hvalue⟩
    · exact .none

theorem dictComprehension_pairs :
    Pairs lines joints (LoopsLike lines joints (EntryLike lines joints)) dictComprehension
      dictComprehension := by
  refine .option entry_pairs .none fun pair pair' hpair => ?_
  refine .option (.many1 forClause_pairs) .none fun generators generators' hgenerators => ?_
  exact .expect (.accepts "\x7d") (.some ⟨hpair, hgenerators⟩)

theorem dictEntries_pairs :
    Pairs lines joints (List.Forall₂ (SpreadEntryLike lines joints)) dictEntries dictEntries := by
  refine .option (.separated entryOrSpread_pairs) .none fun pairs pairs' hpairs => ?_
  exact .same (.accepts ",") fun _ => .expect (.accepts "\x7d") (.some hpairs)

theorem braced_pairs : PairsExprs lines joints braced braced := by
  refine .attempt fun start => .expect (.accepts "\x7b") ?_
  refine .ifThen (.accepts "\x7d") (.node (.dict .nil .nil)) (.same .mark fun inside => ?_)
  refine .option dictComprehension_pairs (.same (.reset inside) fun _ => ?_) ?_
  · refine .option (comprehension_pairs "\x7d") (.same (.reset inside) fun _ => ?_) ?_
    · refine .option dictEntries_pairs (.same (.reset inside) fun _ => .quiet ?_) ?_
      · refine .bind bracketItems_pairs fun items items' hitems => ?_
        cases hitems with
        | nil => exact .none
        | cons hitem hitems => exact .expect (.accepts "\x7d") (.node (.set (.cons hitem hitems)))
      · intro pairs pairs' hpairs
        refine .node (.dict ?_ ?_)
        · simpa using hpairs.imp fun _ _ h => h.1
        · simpa using hpairs.imp fun _ _ h => h.2
    · rintro ⟨elt, generators⟩ ⟨elt', generators'⟩ ⟨helt, hgenerators⟩
      exact .node (.setComp helt hgenerators)
  · rintro ⟨⟨key, value⟩, generators⟩ ⟨⟨key', value'⟩, generators'⟩ ⟨⟨hkey, hvalue⟩, hgenerators⟩
    exact .node (.dictComp hkey hvalue hgenerators)

/-! ### Atoms and what follows them -/

theorem nameExpr_pairs (start : Mark) {token token' : Token} (htext : token'.text = token.text) :
    PairsExprs lines joints (nameExpr start token) (nameExpr start token') := by
  unfold nameExpr
  rw [htext]
  split
  · exact .bind .next fun _ _ _ => .node (.constant (.same _))
  · exact .ite .none (.bind .next fun _ _ _ => .node (.name _))

theorem bracketExpr_pairs (start : Mark) (text : String) :
    PairsExprs lines joints (bracketExpr start text) (bracketExpr start text) := by
  unfold bracketExpr
  refine .ite (.inBrackets parenthesized_pairs) (.ite (.inBrackets squareBracketed_pairs) ?_)
  refine .ite (.inBrackets braced_pairs) (.ite ?_ (.ite (.inBrackets variableExpr_pairs) ?_))
  · exact .bind .next fun _ _ _ => .node (.constant (.same _))
  · exact .ite (.inBrackets (.call .commandExpr)) .none

theorem atomicExprRule_pairs : PairsExprs lines joints atomicExprRule atomicExprRule := by
  refine .same .mark fun start => .bind .peek fun token token' htoken => ?_
  rw [htoken.1.kind]
  cases hkind : token.kind with
  | name => exact nameExpr_pairs start (htoken.1.text_eq (by rw [hkind]; rfl))
  | number =>
    dsimp only
    rw [htoken.1.text_eq (by rw [hkind]; rfl)]
    exact .bind .next fun _ _ _ => .node (.constant (.same _))
  | string | fstringStart => exact .call .stringRun
  | pathSearch => exact pathSearch_pairs
  | op =>
    dsimp only
    rw [htoken.1.text_eq (by rw [hkind]; rfl)]
    exact bracketExpr_pairs start _
  | _ => exact .none

/-- Arguments read so far, plain ones and named ones. -/
def ArgumentsLike (lines : List (List Char)) (joints : Bool) (state state' : ArgumentState) : Prop :=
  List.Forall₂ (Expr.Like lines joints) state.1 state'.1 ∧
    List.Forall₂ (NamedArgument.Like lines joints) state.2 state'.2

theorem namedArgument_pairs :
    Pairs lines joints (NamedArgument.Like lines joints) namedArgument namedArgument := by
  refine .attempt fun _ => .option .name .none ?_
  rintro id id' ⟨_, _, hid⟩
  refine .expect (.accepts "=") (.option (.call .expr) .none fun value value' hvalue => ?_)
  rw [hid]
  exact .some (.intro _ hvalue)

theorem argument_pairs {state state' : ArgumentState}
    (hstate : ArgumentsLike lines joints state state') :
    Pairs lines joints (ArgumentsLike lines joints) (argument state) (argument state') := by
  obtain ⟨args, keywords⟩ := state
  obtain ⟨args', keywords'⟩ := state'
  obtain ⟨hargs, hkeywords⟩ := hstate
  refine .same .mark fun start => .ifThen (.accepts "*") ?_ (.ifThen (.accepts "**") ?_ ?_)
  · refine .option (.call .expr) .none fun value value' hvalue => .bind (.spanSince start) ?_
    rintro span _ rfl
    exact .some ⟨List.rel_append hargs (.cons (.intro (.starred hvalue) span) .nil), hkeywords⟩
  · exact .option (.call .expr) .none fun value value' hvalue =>
      .some ⟨hargs, List.rel_append hkeywords (.cons (.intro none hvalue) .nil)⟩
  · refine .option namedArgument_pairs ?_ fun keyword keyword' hkeyword => ?_
    · exact .option (.call .bindingExpr) .none fun value value' hvalue =>
        .some ⟨List.rel_append hargs (.cons hvalue .nil), hkeywords⟩
    · exact .some ⟨hargs, List.rel_append hkeywords (.cons hkeyword .nil)⟩

theorem argumentList_pairs :
    Pairs lines joints (ArgumentsLike lines joints) argumentList argumentList := by
  refine .loop (ArgumentsLike lines joints) ⟨.nil, .nil⟩ fun state state' hstate => ?_
  refine .ifThen (.lookahead (.spelled ")")) (.stop (.some hstate)) ?_
  refine .option (argument_pairs hstate) (.stop .none) fun next next' hnext => ?_
  exact .ifThen (.accepts ",") (.again hnext) (.stop (.some hnext))

theorem subscriptItem_pairs : PairsExprs lines joints subscriptItem subscriptItem := by
  refine .same .mark fun start => .bind (.call .expr) fun lower lower' hlower => ?_
  refine .ifThen (.accepts ":") (.bind (.call .expr) fun upper upper' hupper => ?_) ?_
  · refine .ifThen (.accepts ":") (.bind (.call .expr) fun step step' hstep => ?_) ?_
    · exact .node (.slice hlower hupper hstep)
    · exact .node (.slice hlower hupper .none)
  · exact .same (.reset start) fun _ => bindingOrSpread_pairs

theorem trailer_pairs (start : Mark) {value value' : Expr} (hvalue : value.Like lines joints value') :
    PairsExprs lines joints (trailer start value) (trailer start value') := by
  refine .attempt fun _ => .ifThen (.accepts ".") ?attr (.option generator_pairs ?others ?generator)
  case attr =>
    refine .option .name .none ?_
    rintro attr attr' ⟨_, _, hattr⟩
    dsimp only
    rw [hattr]
    exact .node (.attribute hvalue _)
  case generator =>
    exact fun argument argument' hargument => .node (.call hvalue (.cons hargument .nil) .nil)
  case others =>
  refine .ifThen (.accepts "(") ?call
    (.ifThen (.accepts "[") ?subscript (.option (.spelled "!(") ?help ?rawCall))
  case call =>
    refine .option argumentList_pairs .none ?_
    rintro ⟨args, keywords⟩ ⟨args', keywords'⟩ ⟨hargs, hkeywords⟩
    exact .expect (.accepts ")") (.node (.call hvalue hargs hkeywords))
  case subscript =>
    refine .option (tupleOrSingle_pairs subscriptItem_pairs) .none fun index index' hindex => ?_
    exact .expect (.accepts "]") (.node (.subscript hvalue hindex))
  case help =>
    refine .same (.oneOf _) ?_
    rintro (_ | detailed)
    · exact .none
    · exact .node (.help hvalue detailed)
  case rawCall =>
    rintro opening opening' ⟨hopening, _, _⟩
    have hspan : value'.span.stop = value.span.stop.moved lines := by
      cases hvalue
      rfl
    have hbehind : (opening'.start != value'.span.stop) = (opening.start != value.span.stop) := by
      rw [hopening.1.start, hspan, Bool.eq_iff_iff, bne_iff_ne, bne_iff_ne]
      exact Position.moved_injective.ne_iff
    dsimp only
    rw [hbehind]
    refine .ite .none (.bind (.many (.ofKind .macroParam)) fun args args' hargs => ?_)
    refine .expect (.accepts ")") (.node (.macroCall hvalue ?_))
    rw [List.forall₂_map_left_iff, List.forall₂_map_right_iff]
    exact hargs.imp fun _ _ harg => harg.1.1.text

theorem postfixExprRule_pairs : PairsExprs lines joints postfixExprRule postfixExprRule := by
  refine .same .mark fun start => .option (.call .postfixExpr) ?atom fun value value' hvalue =>
    .option (.inBrackets (trailer_pairs start hvalue)) ?atom fun _ _ hlonger => .some hlonger
  case atom => exact .same (.reset start) fun _ => .call .atomicExpr

end ShellSyntax.Language
