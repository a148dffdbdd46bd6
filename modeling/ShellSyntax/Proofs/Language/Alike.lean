import ShellSyntax.Language.Command
import ShellSyntax.Proofs.Language.StringTokens
import ShellSyntax.Proofs.Parser.Mirroring

/-!
Trees of two programs that differ in their line ends. They have the same shape, and what the first
spans in its text the second spans in the text with returns. The texts of literals and macros differ
in the line ends, and where joints may be left also in these.
-/

namespace ShellSyntax

open Text

/-! ### Trees -/

def TextLike (joints : Bool) (text text' : String) : Prop :=
  Reended joints text.toList text'.toList

/-- The text of a field is cut out of one line; of a line end it may only have the return. -/
def DebugLike (text text' : String) : Prop :=
  Text.returned text = text' ∨ Text.returned text = text'.push '\n'

inductive Constant.Like (joints : Bool) : Constant → Constant → Prop
  | same (value : Constant) : Like joints value value
  | str {text text' : String} (h : TextLike joints text text') :
      Like joints (.str text) (.str text')
  | bytes {text text' : String} (h : TextLike joints text text') :
      Like joints (.bytes text) (.bytes text')

section Trees

variable (lines : List (List Char)) (joints : Bool)

mutual

inductive Expr.Like : Expr → Expr → Prop
  | intro {form form' : ExprForm} (hform : ExprForm.Like form form') (span : Span) :
      Expr.Like ⟨form, span⟩ ⟨form', span.moved lines⟩

inductive ExprForm.Like : ExprForm → ExprForm → Prop
  | name (id : String) : ExprForm.Like (.name id) (.name id)
  | constant {value value' : Constant} (hvalue : value.Like joints value') :
      ExprForm.Like (.constant value) (.constant value')
  /-- The parts are what alike pieces of text and fields make. -/
  | fstring {pieces pieces' : List FormatPart}
      (hpieces : List.Forall₂ FormatPart.Like pieces pieces') :
      ExprForm.Like (.fstring (pieces.foldl FormatPart.add []))
        (.fstring (pieces'.foldl FormatPart.add []))
  | path {value value' : Expr} (hvalue : Expr.Like value value') :
      ExprForm.Like (.path value) (.path value')
  | pathSearch (search : PathSearch) : ExprForm.Like (.pathSearch search) (.pathSearch search)
  | boolOp (op : BoolOp) {values values' : List Expr}
      (hvalues : List.Forall₂ Expr.Like values values') :
      ExprForm.Like (.boolOp op values) (.boolOp op values')
  | binding {target target' value value' : Expr} (htarget : Expr.Like target target')
      (hvalue : Expr.Like value value') :
      ExprForm.Like (.binding target value) (.binding target' value')
  | binOp {left left' right right' : Expr} (op : BinOp) (hleft : Expr.Like left left')
      (hright : Expr.Like right right') :
      ExprForm.Like (.binOp left op right) (.binOp left' op right')
  | unaryOp (op : UnaryOp) {operand operand' : Expr} (hoperand : Expr.Like operand operand') :
      ExprForm.Like (.unaryOp op operand) (.unaryOp op operand')
  | lambda {args args' : Parameters} {body body' : Expr} (hargs : Parameters.Like args args')
      (hbody : Expr.Like body body') : ExprForm.Like (.lambda args body) (.lambda args' body')
  | conditional {test test' body body' orelse orelse' : Expr} (htest : Expr.Like test test')
      (hbody : Expr.Like body body') (horelse : Expr.Like orelse orelse') :
      ExprForm.Like (.conditional test body orelse) (.conditional test' body' orelse')
  | dict {keys keys' : List (Option Expr)} {values values' : List Expr}
      (hkeys : List.Forall₂ (Option.Rel Expr.Like) keys keys')
      (hvalues : List.Forall₂ Expr.Like values values') :
      ExprForm.Like (.dict keys values) (.dict keys' values')
  | set {items items' : List Expr} (hitems : List.Forall₂ Expr.Like items items') :
      ExprForm.Like (.set items) (.set items')
  | listComp {elt elt' : Expr} {generators generators' : List Comprehension}
      (helt : Expr.Like elt elt')
      (hgenerators : List.Forall₂ Comprehension.Like generators generators') :
      ExprForm.Like (.listComp elt generators) (.listComp elt' generators')
  | setComp {elt elt' : Expr} {generators generators' : List Comprehension}
      (helt : Expr.Like elt elt')
      (hgenerators : List.Forall₂ Comprehension.Like generators generators') :
      ExprForm.Like (.setComp elt generators) (.setComp elt' generators')
  | dictComp {key key' value value' : Expr} {generators generators' : List Comprehension}
      (hkey : Expr.Like key key') (hvalue : Expr.Like value value')
      (hgenerators : List.Forall₂ Comprehension.Like generators generators') :
      ExprForm.Like (.dictComp key value generators) (.dictComp key' value' generators')
  | generator {elt elt' : Expr} {generators generators' : List Comprehension}
      (helt : Expr.Like elt elt')
      (hgenerators : List.Forall₂ Comprehension.Like generators generators') :
      ExprForm.Like (.generator elt generators) (.generator elt' generators')
  | await {value value' : Expr} (hvalue : Expr.Like value value') :
      ExprForm.Like (.await value) (.await value')
  | yield {value value' : Option Expr} (hvalue : Option.Rel Expr.Like value value') :
      ExprForm.Like (.yield value) (.yield value')
  | yieldFrom {value value' : Expr} (hvalue : Expr.Like value value') :
      ExprForm.Like (.yieldFrom value) (.yieldFrom value')
  | compare {left left' : Expr} (ops : List CmpOp) {comparators comparators' : List Expr}
      (hleft : Expr.Like left left')
      (hcomparators : List.Forall₂ Expr.Like comparators comparators') :
      ExprForm.Like (.compare left ops comparators) (.compare left' ops comparators')
  | call {func func' : Expr} {args args' : List Expr} {keywords keywords' : List NamedArgument}
      (hfunc : Expr.Like func func') (hargs : List.Forall₂ Expr.Like args args')
      (hkeywords : List.Forall₂ NamedArgument.Like keywords keywords') :
      ExprForm.Like (.call func args keywords) (.call func' args' keywords')
  | macroCall {func func' : Expr} {args args' : List String} (hfunc : Expr.Like func func')
      (hargs : List.Forall₂ (TextLike false) args args') :
      ExprForm.Like (.macroCall func args) (.macroCall func' args')
  | «attribute» {value value' : Expr} (hvalue : Expr.Like value value') (attr : String) :
      ExprForm.Like (.attribute value attr) (.attribute value' attr)
  | subscript {value value' slice slice' : Expr} (hvalue : Expr.Like value value')
      (hslice : Expr.Like slice slice') :
      ExprForm.Like (.subscript value slice) (.subscript value' slice')
  | starred {value value' : Expr} (hvalue : Expr.Like value value') :
      ExprForm.Like (.starred value) (.starred value')
  | list {items items' : List Expr} (hitems : List.Forall₂ Expr.Like items items') :
      ExprForm.Like (.list items) (.list items')
  | tuple {items items' : List Expr} (hitems : List.Forall₂ Expr.Like items items') :
      ExprForm.Like (.tuple items) (.tuple items')
  | slice {lower lower' upper upper' step step' : Option Expr}
      (hlower : Option.Rel Expr.Like lower lower') (hupper : Option.Rel Expr.Like upper upper')
      (hstep : Option.Rel Expr.Like step step') :
      ExprForm.Like (.slice lower upper step) (.slice lower' upper' step')
  | namedVariable (name : String) : ExprForm.Like (.namedVariable name) (.namedVariable name)
  | computedVariable {value value' : Expr} (hvalue : Expr.Like value value') :
      ExprForm.Like (.computedVariable value) (.computedVariable value')
  | pipeline {command command' : Pipeline} (hcommand : Pipeline.Like command command') :
      ExprForm.Like (.pipeline command) (.pipeline command')
  | help {target target' : Expr} (htarget : Expr.Like target target') (detailed : Bool) :
      ExprForm.Like (.help target detailed) (.help target' detailed)

inductive FormatPart.Like : FormatPart → FormatPart → Prop
  | literal {text text' : String} (h : TextLike joints text text') :
      FormatPart.Like (.literal text) (.literal text')
  | field {value value' : Expr} {debugText debugText' : Option String} (conversion : Option Char)
      {pieces pieces' : List FormatPart} (hvalue : Expr.Like value value')
      (hdebug : Option.Rel DebugLike debugText debugText')
      (hpieces : List.Forall₂ FormatPart.Like pieces pieces') :
      FormatPart.Like (.field value debugText conversion (pieces.foldl FormatPart.add []))
        (.field value' debugText' conversion (pieces'.foldl FormatPart.add []))

inductive Comprehension.Like : Comprehension → Comprehension → Prop
  | intro {target target' iter iter' : Expr} {ifs ifs' : List Expr} (isAsync : Bool)
      (htarget : Expr.Like target target') (hiter : Expr.Like iter iter')
      (hifs : List.Forall₂ Expr.Like ifs ifs') :
      Comprehension.Like ⟨target, iter, ifs, isAsync⟩ ⟨target', iter', ifs', isAsync⟩

inductive Parameter.Like : Parameter → Parameter → Prop
  | intro (name : String) { annotation annotation' default default' : Option Expr}
      (hhint : Option.Rel Expr.Like annotation annotation')
      (hdefault : Option.Rel Expr.Like default default') :
      Parameter.Like ⟨name, annotation, default⟩ ⟨name, annotation', default'⟩

inductive Parameters.Like : Parameters → Parameters → Prop
  | intro {args args' kwonly kwonly' : List Parameter}
      {vararg vararg' kwarg kwarg' : Option Parameter}
      (hargs : List.Forall₂ Parameter.Like args args')
      (hvararg : Option.Rel Parameter.Like vararg vararg')
      (hkwonly : List.Forall₂ Parameter.Like kwonly kwonly')
      (hkwarg : Option.Rel Parameter.Like kwarg kwarg') :
      Parameters.Like ⟨args, vararg, kwonly, kwarg⟩ ⟨args', vararg', kwonly', kwarg'⟩

inductive NamedArgument.Like : NamedArgument → NamedArgument → Prop
  | intro (arg : Option String) {value value' : Expr} (hvalue : Expr.Like value value') :
      NamedArgument.Like ⟨arg, value⟩ ⟨arg, value'⟩

inductive Pipeline.Like : Pipeline → Pipeline → Prop
  | intro (capture : CaptureMode) {stages stages' : List PipelineStage} (background : Bool)
      (hstages : List.Forall₂ PipelineStage.Like stages stages') :
      Pipeline.Like ⟨capture, stages, background⟩ ⟨capture, stages', background⟩

inductive PipelineStage.Like : PipelineStage → PipelineStage → Prop
  | intro (connector : Option StageLink) {argv argv' : List CommandArg}
      (hargv : List.Forall₂ CommandArg.Like argv argv') :
      PipelineStage.Like ⟨connector, argv⟩ ⟨connector, argv'⟩

inductive CommandArg.Like : CommandArg → CommandArg → Prop
  | word (text : String) : CommandArg.Like (.word text) (.word text)
  | quoted (text : String) : CommandArg.Like (.quoted text) (.quoted (Text.returned text))
  | namedVariable (name : String) : CommandArg.Like (.namedVariable name) (.namedVariable name)
  | computedVariable {value value' : Expr} (hvalue : Expr.Like value value') :
      CommandArg.Like (.computedVariable value) (.computedVariable value')
  | hostExpr {value value' : Expr} (hvalue : Expr.Like value value') :
      CommandArg.Like (.hostExpr value) (.hostExpr value')
  | pipeline {command command' : Pipeline} (hcommand : Pipeline.Like command command') :
      CommandArg.Like (.pipeline command) (.pipeline command')
  | pathSearch (search : PathSearch) : CommandArg.Like (.pathSearch search) (.pathSearch search)
  | redirect (text : String) : CommandArg.Like (.redirect text) (.redirect text)
  | raw {text text' : String} (htext : TextLike false text text') :
      CommandArg.Like (.raw text) (.raw text')
  | concat {parts parts' : List CommandArg} (hparts : List.Forall₂ CommandArg.Like parts parts') :
      CommandArg.Like (.concat parts) (.concat parts')

end

inductive ContextItem.Like : ContextItem → ContextItem → Prop
  | intro {context context' : Expr} {target target' : Option Expr}
      (hcontext : context.Like lines joints context')
      (htarget : Option.Rel (Expr.Like lines joints) target target') :
      Like ⟨context, target⟩ ⟨context', target'⟩

mutual

inductive Stmt.Like : Stmt → Stmt → Prop
  | intro {form form' : StmtForm} (hform : StmtForm.Like form form') (span : Span) :
      Stmt.Like ⟨form, span⟩ ⟨form', span.moved lines⟩

inductive StmtForm.Like : StmtForm → StmtForm → Prop
  | expr {value value' : Expr} (hvalue : value.Like lines joints value') :
      StmtForm.Like (.expr value) (.expr value')
  | assign {targets targets' : List Expr} {value value' : Expr}
      (htargets : List.Forall₂ (Expr.Like lines joints) targets targets')
      (hvalue : value.Like lines joints value') :
      StmtForm.Like (.assign targets value) (.assign targets' value')
  | augmented {target target' value value' : Expr} (op : BinOp)
      (htarget : target.Like lines joints target') (hvalue : value.Like lines joints value') :
      StmtForm.Like (.augmented target op value) (.augmented target' op value')
  | annotated {target target' hint hint' : Expr} {value value' : Option Expr}
      (htarget : target.Like lines joints target') (hhint : hint.Like lines joints hint')
      (hvalue : Option.Rel (Expr.Like lines joints) value value') :
      StmtForm.Like (.annotated target hint value) (.annotated target' hint' value')
  | return {value value' : Option Expr} (hvalue : Option.Rel (Expr.Like lines joints) value value') :
      StmtForm.Like (.return value) (.return value')
  | pass : StmtForm.Like .pass .pass
  | break : StmtForm.Like .break .break
  | continue : StmtForm.Like .continue .continue
  | delete {targets targets' : List Expr}
      (htargets : List.Forall₂ (Expr.Like lines joints) targets targets') :
      StmtForm.Like (.delete targets) (.delete targets')
  | raise {exc exc' cause cause' : Option Expr} (hexc : Option.Rel (Expr.Like lines joints) exc exc')
      (hcause : Option.Rel (Expr.Like lines joints) cause cause') :
      StmtForm.Like (.raise exc cause) (.raise exc' cause')
  | assert {test test' : Expr} {msg msg' : Option Expr} (htest : test.Like lines joints test')
      (hmsg : Option.Rel (Expr.Like lines joints) msg msg') :
      StmtForm.Like (.assert test msg) (.assert test' msg')
  | global (names : List String) : StmtForm.Like (.global names) (.global names)
  | nonlocal (names : List String) : StmtForm.Like (.nonlocal names) (.nonlocal names)
  | importNames (names : List ImportedName) : StmtForm.Like (.importNames names) (.importNames names)
  | fromImport (module : Option String) (names : List ImportedName) (level : Nat) :
      StmtForm.Like (.fromImport module names level) (.fromImport module names level)
  | if {test test' : Expr} {body body' orelse orelse' : List Stmt}
      (htest : test.Like lines joints test') (hbody : List.Forall₂ Stmt.Like body body')
      (horelse : List.Forall₂ Stmt.Like orelse orelse') :
      StmtForm.Like (.if test body orelse) (.if test' body' orelse')
  | while {test test' : Expr} {body body' orelse orelse' : List Stmt}
      (htest : test.Like lines joints test') (hbody : List.Forall₂ Stmt.Like body body')
      (horelse : List.Forall₂ Stmt.Like orelse orelse') :
      StmtForm.Like (.while test body orelse) (.while test' body' orelse')
  | for {target target' iter iter' : Expr} {body body' orelse orelse' : List Stmt} (isAsync : Bool)
      (htarget : target.Like lines joints target') (hiter : iter.Like lines joints iter')
      (hbody : List.Forall₂ Stmt.Like body body') (horelse : List.Forall₂ Stmt.Like orelse orelse') :
      StmtForm.Like (.for target iter body orelse isAsync) (.for target' iter' body' orelse' isAsync)
  | function (name : String) {args args' : Parameters} {body body' : List Stmt}
      {decorators decorators' : List Expr} {returns returns' : Option Expr} (isAsync : Bool)
      (hargs : args.Like lines joints args') (hbody : List.Forall₂ Stmt.Like body body')
      (hdecorators : List.Forall₂ (Expr.Like lines joints) decorators decorators')
      (hreturns : Option.Rel (Expr.Like lines joints) returns returns') :
      StmtForm.Like (.function name args body decorators returns isAsync)
        (.function name args' body' decorators' returns' isAsync)
  | classDefinition (name : String) {bases bases' : List Expr}
      {keywords keywords' : List NamedArgument} {body body' : List Stmt}
      {decorators decorators' : List Expr}
      (hbases : List.Forall₂ (Expr.Like lines joints) bases bases')
      (hkeywords : List.Forall₂ (NamedArgument.Like lines joints) keywords keywords')
      (hbody : List.Forall₂ Stmt.Like body body')
      (hdecorators : List.Forall₂ (Expr.Like lines joints) decorators decorators') :
      StmtForm.Like (.classDefinition name bases keywords body decorators)
        (.classDefinition name bases' keywords' body' decorators')
  | with {items items' : List ContextItem} {body body' : List Stmt} (isAsync : Bool)
      (hitems : List.Forall₂ (ContextItem.Like lines joints) items items')
      (hbody : List.Forall₂ Stmt.Like body body') :
      StmtForm.Like (.with items body isAsync) (.with items' body' isAsync)
  | rawWith {items items' : List ContextItem} {block block' : String}
      (hitems : List.Forall₂ (ContextItem.Like lines joints) items items')
      (hblock : TextLike false block block') :
      StmtForm.Like (.rawWith items block) (.rawWith items' block')
  | try {body body' orelse orelse' finalbody finalbody' : List Stmt}
      {handlers handlers' : List Handler}
      (hbody : List.Forall₂ Stmt.Like body body')
      (hhandlers : List.Forall₂ Handler.Like handlers handlers')
      (horelse : List.Forall₂ Stmt.Like orelse orelse')
      (hfinalbody : List.Forall₂ Stmt.Like finalbody finalbody') :
      StmtForm.Like (.try body handlers orelse finalbody) (.try body' handlers' orelse' finalbody')

inductive Handler.Like : Handler → Handler → Prop
  | intro {exception exception' : Option Expr} (name : Option String) {body body' : List Stmt}
      (span : Span) (hexception : Option.Rel (Expr.Like lines joints) exception exception')
      (hbody : List.Forall₂ Stmt.Like body body') :
      Handler.Like ⟨exception, name, body, span⟩ ⟨exception', name, body', span.moved lines⟩

end

inductive Ast.Like : Ast → Ast → Prop
  | module {body body' : List Stmt} (hbody : List.Forall₂ (Stmt.Like lines joints) body body') :
      Like (.module ⟨body⟩) (.module ⟨body'⟩)
  | expression {tree tree' : Expr} (htree : tree.Like lines joints tree') :
      Like (.expression tree) (.expression tree')

end Trees

variable {lines : List (List Char)} {joints : Bool}

/-! ### Targets -/

theorem ExprForm.Like.isSoleTarget {form form' : ExprForm} (h : form.Like lines joints form') :
    form'.isSoleTarget = form.isSoleTarget := by
  cases h <;> rfl

theorem ExprForm.Like.isStarred {form form' : ExprForm} (h : form.Like lines joints form') :
    form'.isStarred = form.isStarred := by
  cases h <;> rfl

mutual

theorem Expr.Like.isTarget {e e' : Expr} (h : e.Like lines joints e') :
    e'.isTarget = e.isTarget := by
  obtain ⟨hform, span⟩ := h
  rw [Expr.isTarget, Expr.isTarget]
  exact hform.isTarget
termination_by sizeOf e

theorem ExprForm.Like.isTarget {form form' : ExprForm} (h : form.Like lines joints form') :
    form'.isTarget = form.isTarget := by
  cases h with
  | starred hvalue =>
    rw [ExprForm.isTarget, ExprForm.isTarget]
    exact hvalue.isTarget
  | list hitems | tuple hitems =>
    rw [ExprForm.isTarget, ExprForm.isTarget]
    exact areTargets_like hitems
  | _ => rfl
termination_by sizeOf form

theorem areTargets_like {items items' : List Expr}
    (h : List.Forall₂ (Expr.Like lines joints) items items') :
    areTargets items' = areTargets items := by
  cases h with
  | nil => rfl
  | cons hitem hitems =>
    rw [areTargets, areTargets, hitem.isTarget, areTargets_like hitems]
termination_by sizeOf items

end

/-! ### Parts of f-strings -/

namespace FormatPart

theorem add_empty (parts : List FormatPart) : add parts (.literal "") = parts :=
  rfl

theorem add_field (parts : List FormatPart) (value : Expr) (debugText : Option String)
    (conversion : Option Char) (formatSpec : List FormatPart) :
    add parts (.field value debugText conversion formatSpec) =
      parts ++ [.field value debugText conversion formatSpec] :=
  rfl

theorem add_concat_literal (parts : List FormatPart) (last text : String) :
    add (parts ++ [.literal last]) (.literal text) = parts ++ [.literal (last ++ text)] := by
  unfold add
  by_cases hempty : text.isEmpty = true
  · obtain rfl : text = "" := String.isEmpty_iff.mp hempty
    simp
  · simp [hempty]

/-- Text that stands behind no other text is a part of its own. -/
theorem add_apart {parts : List FormatPart} {text : String} (htext : text.isEmpty = false)
    (hapart : ¬ ∃ last, parts.getLast? = some (.literal last)) :
    add parts (.literal text) = parts ++ [.literal text] := by
  unfold add
  simp only [htext, Bool.false_eq_true, if_false]
  split
  case h_1 last hlast => exact absurd ⟨last, hlast⟩ hapart
  case h_2 => rfl

/-- Text that is added in two steps is added as a whole. -/
theorem add_add (parts : List FormatPart) (first second : String) :
    add (add parts (.literal first)) (.literal second) = add parts (.literal (first ++ second)) := by
  cases hempty : first.isEmpty with
  | true =>
    obtain rfl : first = "" := String.isEmpty_iff.mp hempty
    rw [add_empty, String.empty_append]
  | false =>
    by_cases hlast : ∃ last, parts.getLast? = some (.literal last)
    · obtain ⟨last, hlast⟩ := hlast
      rw [← List.dropLast_append_getLast? _ hlast]
      simp only [add_concat_literal, String.append_assoc]
    · have hboth : (first ++ second).isEmpty = false := by
        rw [← Bool.not_eq_true, String.isEmpty_iff] at hempty ⊢
        exact fun hnone => hempty (String.append_eq_empty_iff.mp hnone).1
      rw [add_apart hempty hlast, add_apart hboth hlast, add_concat_literal]

theorem foldl_add_add (parts others : List FormatPart) (part : FormatPart) :
    (add others part).foldl add parts = add (others.foldl add parts) part := by
  cases part with
  | field => rw [add_field, List.foldl_concat]
  | literal text =>
    cases hempty : text.isEmpty with
    | true =>
      obtain rfl : text = "" := String.isEmpty_iff.mp hempty
      rw [add_empty, add_empty]
    | false =>
      by_cases hlast : ∃ last, others.getLast? = some (.literal last)
      · obtain ⟨last, hlast⟩ := hlast
        rw [← List.dropLast_append_getLast? _ hlast, add_concat_literal, List.foldl_concat,
          List.foldl_concat, add_add]
      · rw [add_apart hempty hlast, List.foldl_concat]

/-- To add the parts that pieces make is to add the pieces. -/
theorem foldl_foldl_add (parts pieces : List FormatPart) :
    (pieces.foldl add []).foldl add parts = pieces.foldl add parts := by
  induction pieces using List.reverseRecOn with
  | nil => rfl
  | append_singleton pieces piece induction =>
    rw [List.foldl_concat, List.foldl_concat, foldl_add_add, induction]

end FormatPart

/-- Parts that alike pieces make. -/
def PartsLike (lines : List (List Char)) (joints : Bool) (parts parts' : List FormatPart) : Prop :=
  ∃ pieces pieces', List.Forall₂ (FormatPart.Like lines joints) pieces pieces' ∧
    parts = pieces.foldl FormatPart.add [] ∧ parts' = pieces'.foldl FormatPart.add []

namespace PartsLike

variable {parts parts' others others' : List FormatPart} {part part' : FormatPart}

theorem nil : PartsLike lines joints [] [] :=
  ⟨[], [], .nil, rfl, rfl⟩

theorem foldl_add (h : PartsLike lines joints parts parts')
    (hothers : PartsLike lines joints others others') :
    PartsLike lines joints (others.foldl FormatPart.add parts)
      (others'.foldl FormatPart.add parts') := by
  obtain ⟨pieces, pieces', hpieces, rfl, rfl⟩ := h
  obtain ⟨more, more', hmore, rfl, rfl⟩ := hothers
  refine ⟨pieces ++ more, pieces' ++ more', List.rel_append hpieces hmore, ?_, ?_⟩
  all_goals rw [FormatPart.foldl_foldl_add, List.foldl_append]

theorem add (h : PartsLike lines joints parts parts') (hpart : part.Like lines joints part') :
    PartsLike lines joints (FormatPart.add parts part) (FormatPart.add parts' part') := by
  obtain ⟨pieces, pieces', hpieces, rfl, rfl⟩ := h
  refine ⟨pieces ++ [part], pieces' ++ [part'], List.rel_append hpieces (.cons hpart .nil), ?_, ?_⟩
  all_goals rw [List.foldl_concat]

end PartsLike

/-! ### Literals -/

/-- A backslash stands in front of a line end in an f-string, or in a string that is not raw. -/
def Token.HasJoint (t : Token) : Prop :=
  (t.kind = .string ∧ (StringLiteral.split t.text.toList).1.raw = false ∨ t.kind = .fstringMiddle) ∧
    Text.HasJoint t.text.toList

theorem TextLike.append {first first' second second' : String} (hfirst : TextLike joints first first')
    (hsecond : TextLike joints second second') :
    TextLike joints (first ++ second) (first' ++ second') := by
  unfold TextLike
  rw [String.toList_append, String.toList_append]
  exact Reended.append hfirst hsecond

theorem StringLiteral.split_withReturns {text : List Char} (h : IsQuoted text) :
    ∃ flags body, split text = (flags, body) ∧ split (withReturns text) = (flags, withReturns body) ∧
      body <:+: text := by
  obtain ⟨letters, quote, body, hmark, hletters, hfeed, hplain, rfl⟩ := h
  have hmarks : withReturns quote.marks = quote.marks := by
    refine withReturns_of_no_feed fun hmem => ?_
    have heq := List.eq_of_mem_replicate hmem
    rcases hmark with hmark | hmark <;> rw [hmark] at heq <;> exact absurd heq (by decide)
  have hplain' : quote.triple = false →
      ¬ [quote.mark, quote.mark] <+: withReturns body ++ quote.marks := by
    intro htriple hleads
    refine hplain htriple ?_
    rw [← hmarks, ← withReturns_append, ← List.isPrefixOf_iff_prefix] at hleads
    rw [isPrefixOf_withReturns] at hleads
    · exact List.isPrefixOf_iff_prefix.mp hleads
    all_goals rcases hmark with hmark | hmark <;> rw [hmark] <;> decide
  refine ⟨_, body, split_quoted hmark hletters hplain, ?_, ?_⟩
  · rw [withReturns_append, withReturns_append, withReturns_append, hmarks,
      withReturns_of_no_feed hfeed]
    exact split_quoted hmark hletters hplain'
  · exact ⟨letters ++ quote.marks, quote.marks, by simp⟩

namespace FormatPart

theorem halve_cons {brace c : Char} {rest : List Char}
    (hsingle : c = brace → rest.head? ≠ some brace) :
    halve brace (c :: rest) = c :: halve brace rest := by
  cases rest with
  | nil => rfl
  | cons next rest =>
    rw [halve, if_neg]
    rintro ⟨hc, rfl⟩
    exact hsingle hc rfl

theorem head?_halve (brace : Char) (text : List Char) : (halve brace text).head? = text.head? := by
  induction text using halve.induct brace with
  | case1 a b rest hpair => rw [halve, if_pos hpair, hpair.1]; rfl
  | case2 a b rest hpair => rw [halve, if_neg hpair]; rfl
  | case3 rest hshort => rw [halve]; exact hshort

theorem halve_withReturns {brace : Char} (hfeed : brace ≠ '\n') (hreturn : brace ≠ '\r')
    (text : List Char) : halve brace (withReturns text) = withReturns (halve brace text) := by
  have hlineEnd (rest : List Char) :
      halve brace (withReturns ('\n' :: rest)) = '\r' :: '\n' :: halve brace (withReturns rest) := by
    rw [withReturns_lineFeed, halve_cons fun h => absurd h.symm hreturn,
      halve_cons fun h => absurd h.symm hfeed]
  induction text using halve.induct brace with
  | case1 a b rest hpair induction =>
    obtain ⟨rfl, rfl⟩ := hpair
    rw [withReturns_cons hfeed, withReturns_cons hfeed, halve, if_pos ⟨rfl, rfl⟩, induction, halve,
      if_pos ⟨rfl, rfl⟩, withReturns_cons hfeed]
  | case2 a b rest hpair induction =>
    rw [halve, if_neg hpair]
    by_cases ha : a = '\n'
    · subst ha
      rw [hlineEnd, induction, withReturns_lineFeed]
    · rw [withReturns_cons ha, withReturns_cons ha, ← induction]
      refine halve_cons fun hbrace hhead => ?_
      by_cases hb : b = '\n'
      · rw [hb, withReturns_lineFeed, List.head?_cons, Option.some.injEq] at hhead
        exact hreturn hhead.symm
      · rw [withReturns_cons hb, List.head?_cons, Option.some.injEq] at hhead
        exact hpair ⟨hbrace, hhead⟩
  | case3 rest hshort =>
    match rest with
    | [] => rfl
    | [c] =>
      by_cases hc : c = '\n'
      · subst hc
        exact hlineEnd []
      · rw [withReturns_cons hc, withReturns_nil]
        exact (withReturns_cons hc []).symm
    | a :: b :: rest => exact (hshort a b rest rfl).elim

theorem hasJoint_halve {brace : Char} {text : List Char} (h : HasJoint (halve brace text)) :
    HasJoint text := by
  have hcons {a : Char} {rest halved : List Char} (hhead : halved.head? = rest.head?)
      (h : HasJoint (a :: halved)) (induction : HasJoint halved → HasJoint rest) :
      HasJoint (a :: rest) := by
    rcases List.infix_cons_iff.mp h with hleads | hinside
    · obtain ⟨rfl, more, rfl⟩ := List.cons_prefix_cons.mp hleads
      cases rest with
      | nil => cases hhead
      | cons next rest =>
        cases hhead
        exact ⟨[], rest, rfl⟩
    · exact (induction hinside).trans (List.suffix_cons a rest).isInfix
  induction text using halve.induct brace with
  | case1 a b rest hpair induction =>
    obtain ⟨rfl, rfl⟩ := hpair
    rw [halve, if_pos ⟨rfl, rfl⟩] at h
    exact (hcons (head?_halve _ rest) h induction).trans (List.suffix_cons _ _).isInfix
  | case2 a b rest hpair induction =>
    rw [halve, if_neg hpair] at h
    exact hcons (head?_halve _ (b :: rest)) h induction
  | case3 rest hshort =>
    rw [halve] at h
    · exact h
    · exact hshort

theorem decodeText_like {raw : Bool} {text : String}
    (hjoints : joints = false → ¬ HasJoint text.toList) :
    TextLike joints (decodeText raw text) (decodeText raw (Text.returned text)) := by
  unfold TextLike decodeText
  rw [toList_returned, halve_withReturns (by decide) (by decide),
    halve_withReturns (by decide) (by decide)]
  simp only [String.toList_ofList]
  cases raw with
  | true => exact .withReturns _
  | false =>
    exact decodeEscapes_reended fun hfalse hjoint =>
      hjoints hfalse (hasJoint_halve (hasJoint_halve hjoint))

end FormatPart

namespace Language

namespace Gathered

/-- The same strings have been read, with other line ends. -/
structure Like (lines : List (List Char)) (joints : Bool) (g g' : Gathered) : Prop where
  parts : PartsLike lines joints g.parts g'.parts
  /-- Strings without replacement fields are one text. -/
  plain : g.formatted = false → ∃ text text', TextLike joints text text' ∧
    g.parts = FormatPart.add [] (.literal text) ∧ g'.parts = FormatPart.add [] (.literal text')
  count : g'.count = g.count
  formatted : g'.formatted = g.formatted
  bytes : g'.bytes = g.bytes
  path : g'.path = g.path

variable {g g' : Gathered}

theorem Like.none : Like lines joints none none where
  parts := .nil
  plain _ := ⟨"", "", .nil, rfl, rfl⟩
  count := rfl
  formatted := rfl
  bytes := rfl
  path := rfl

theorem Like.addString (h : Like lines joints g g') {token token' : Token}
    (hquoted : StringLiteral.IsQuoted token.text.toList)
    (hjoints : joints = false → (StringLiteral.split token.text.toList).1.raw = false →
      ¬ HasJoint token.text.toList)
    (htext : token'.text = Text.returned token.text) :
    Like lines joints (g.addString token) (g'.addString token') := by
  obtain ⟨flags, body, hsplit, hsplit', hinside⟩ := StringLiteral.split_withReturns hquoted
  unfold Gathered.addString
  rw [htext, toList_returned, hsplit, hsplit']
  dsimp only
  have hdecoded : TextLike joints
      (String.ofList (if flags.raw = true then body else decodeEscapes body))
      (String.ofList
          (if flags.raw = true then withReturns body else decodeEscapes (withReturns body))) := by
    unfold TextLike
    rw [String.toList_ofList, String.toList_ofList]
    rw [hsplit] at hjoints
    split
    case isTrue => exact .withReturns body
    case isFalse hraw =>
      exact decodeEscapes_reended fun hfalse hjoint =>
        hjoints hfalse (Bool.not_eq_true _ ▸ hraw) (hjoint.trans hinside)
  refine ⟨h.parts.add (.literal hdecoded), fun hplain => ?_, congrArg (· + 1) h.count, h.formatted,
    congrArg (· || flags.bytes) h.bytes, congrArg (· || flags.path) h.path⟩
  obtain ⟨text, text', hbefore, hparts, hparts'⟩ := h.plain hplain
  refine ⟨_, _, hbefore.append hdecoded, ?_, ?_⟩
  · rw [hparts, FormatPart.add_add]
  · rw [hparts', FormatPart.add_add]

theorem Like.addFString (h : Like lines joints g g') (flags : StringFlags)
    {parts parts' : List FormatPart} (hparts : PartsLike lines joints parts parts') :
    Like lines joints (g.addFString flags parts) (g'.addFString flags parts') where
  parts := h.parts.foldl_add hparts
  plain := nofun
  count := congrArg (· + 1) h.count
  formatted := rfl
  bytes := h.bytes
  path := congrArg (· || flags.path) h.path

theorem literal_of_text {text : String} (hplain : g.formatted = false)
    (hparts : g.parts = FormatPart.add [] (.literal text)) :
    g.literal = .constant (if g.bytes then .bytes text else .str text) := by
  rw [literal, hplain, hparts, FormatPart.add]
  by_cases hempty : text.isEmpty = true
  · rw [String.isEmpty_iff.mp hempty]
    rfl
  · simp [hempty]

theorem Like.literal (h : Like lines joints g g') : g.literal.Like lines joints g'.literal := by
  cases hformatted : g.formatted with
  | true =>
    obtain ⟨pieces, pieces', hpieces, hparts, hparts'⟩ := h.parts
    rw [Gathered.literal, Gathered.literal, h.formatted, hformatted, hparts, hparts']
    exact .fstring hpieces
  | false =>
    obtain ⟨text, text', htext, hparts, hparts'⟩ := h.plain hformatted
    rw [literal_of_text hformatted hparts, literal_of_text (h.formatted.trans hformatted) hparts',
      h.bytes]
    split
    · exact .constant (.bytes htext)
    · exact .constant (.str htext)

end Gathered

/-! ### Pieces of arguments -/

variable {argv argv' parts parts' : List CommandArg} {left left' right right' : CommandArg}

/-- Related lists are both empty, or end in related items. -/
theorem forall₂_cases_concat {α β : Type} {Q : α → β → Prop} {items : List α} {items' : List β}
    (h : List.Forall₂ Q items items') :
    items = [] ∧ items' = [] ∨ ∃ init init' last last', items = init ++ [last] ∧
      items' = init' ++ [last'] ∧ List.Forall₂ Q init init' ∧ Q last last' := by
  obtain ⟨items, rfl⟩ := List.reverse_surjective items
  obtain ⟨items', rfl⟩ := List.reverse_surjective items'
  cases List.forall₂_reverse_iff.mp h with
  | nil => exact .inl ⟨rfl, rfl⟩
  | cons hlast hinit =>
    exact .inr ⟨_, _, _, _, List.reverse_cons, List.reverse_cons, List.forall₂_reverse_iff.mpr hinit,
      hlast⟩

theorem joinPieces_like (hparts : List.Forall₂ (CommandArg.Like lines joints) parts parts')
    (hright : right.Like lines joints right') :
    List.Forall₂ (CommandArg.Like lines joints) (joinPieces parts right)
      (joinPieces parts' right') := by
  have hall := List.rel_append hparts (.cons hright .nil)
  rcases forall₂_cases_concat hparts with
    ⟨rfl, rfl⟩ | ⟨init, init', last, last', rfl, rfl, hinit, hlast⟩
  · exact hall
  · cases hlast with
    | word text =>
      cases hright with
      | word more =>
        simp only [joinPieces, List.getLast?_concat, List.dropLast_concat]
        exact List.rel_append hinit (.cons (.word _) .nil)
      | _ => simpa [joinPieces] using hall
    | _ => simpa [joinPieces] using hall

theorem fuse_like (hleft : left.Like lines joints left') (hright : right.Like lines joints right') :
    (fuse left right).Like lines joints (fuse left' right') := by
  have hpair : (CommandArg.concat [left, right]).Like lines joints (.concat [left', right']) :=
    .concat (.cons hleft (.cons hright .nil))
  cases hleft with
  | word text =>
    cases hright with
    | word more => exact .word _
    | _ => exact hpair
  | concat hparts => exact .concat (joinPieces_like hparts hright)
  | _ => exact hpair

theorem isSeparate_like (h : left.Like lines joints left') : isSeparate left' = isSeparate left := by
  cases h <;> rfl

theorem addPiece_like (hargv : List.Forall₂ (CommandArg.Like lines joints) argv argv')
    (hright : right.Like lines joints right') (touches : Bool) :
    List.Forall₂ (CommandArg.Like lines joints) (addPiece argv right touches)
      (addPiece argv' right' touches) := by
  unfold addPiece
  rcases forall₂_cases_concat hargv with ⟨rfl, rfl⟩ |
    ⟨init, init', last, last', rfl, rfl, hinit, hlast⟩
  · exact .cons hright .nil
  · simp only [List.getLast?_concat, List.dropLast_concat, isSeparate_like hright,
      isSeparate_like hlast]
    split
    · exact List.rel_append hinit (.cons (fuse_like hlast hright) .nil)
    · exact List.rel_append hargv (.cons hright .nil)

/-! ### Rules -/

/-- How the nodes resemble each other that a rule matches in both programs. -/
def NodeLike (lines : List (List Char)) (joints : Bool) : (r : Rule) → r.Node → r.Node → Prop
  | .program => fun tree tree' => List.Forall₂ (Stmt.Like lines joints) tree.body tree'.body
  | .stmtList | .suite => List.Forall₂ (Stmt.Like lines joints)
  | .smallStmt => Stmt.Like lines joints
  | .elifBranch => StmtForm.Like lines joints
  | .fstringInside _ => PartsLike lines joints
  | .soleExpr | .exprOrSpread | .bindingExpr | .expr | .orExpr | .andExpr | .notExpr | .bitOrExpr
  | .bitXorExpr | .bitAndExpr | .shiftedExpr | .addExpr | .mulExpr | .signedExpr | .awaitExpr
  | .postfixExpr | .atomicExpr | .stringRun | .commandExpr | .targetItem => Expr.Like lines joints

/-- Strings have quotes, and where no joints are left none stands in a literal. -/
structure IsKnown (joints : Bool) (t : Token) : Prop where
  quoted : t.kind = .string → StringLiteral.IsQuoted t.text.toList
  joint : joints = false → ¬ t.HasJoint

def resemblance (lines : List (List Char)) (joints : Bool) : Resemblance rules :=
  ⟨lines, IsKnown joints, NodeLike lines joints⟩

variable {α β : Type} {Q : α → β → Prop}

/-- Matches of the one matcher in the one program resemble those of the other in the other. -/
abbrev Pairs (lines : List (List Char)) (joints : Bool) (Q : α → β → Prop) (m : Match (Option α))
    (m' : Match (Option β)) : Prop :=
  Mirrors (resemblance lines joints) (Option.Rel Q) m m'

abbrev PairsExprs (lines : List (List Char)) (joints : Bool) (m m' : Match (Option Expr)) : Prop :=
  Pairs lines joints (Expr.Like lines joints) m m'

end Language

/-! ### Ways of matching -/

namespace Mirrors

open ShellSyntax.Language

variable {α β : Type} {Q : α → β → Prop}

theorem call (r : Rule) : Pairs lines joints (NodeLike lines joints r) (@Matcher.rule rules r)
    (@Matcher.rule rules r) :=
  rule (S := resemblance lines joints) r

theorem giveUp (start : Mark) : Pairs lines joints Q (giveUp start) (giveUp start) :=
  (reset start).same fun _ => .none

theorem attempt {inner : Mark → Match (Option α)} {inner' : Mark → Match (Option β)}
    (h : ∀ start, Pairs lines joints Q (inner start) (inner' start)) :
    Pairs lines joints Q (attempt inner) (attempt inner') :=
  mark.same fun start => .option (h start) (giveUp start) fun _ _ hvalue => .some hvalue

theorem node {start : Mark} {form form' : ExprForm} (hform : form.Like lines joints form') :
    PairsExprs lines joints (node start form) (node start form') := by
  refine (spanSince start).bind ?_
  rintro span _ rfl
  exact .some (.intro hform span)

theorem stmtNode {start : Mark} {form form' : StmtForm} (hform : form.Like lines joints form') :
    Pairs lines joints (Stmt.Like lines joints) (stmtNode start form) (stmtNode start form') := by
  refine (spanSince start).bind ?_
  rintro span _ rfl
  exact .some (.intro hform span)

theorem oneOf (choices : List (String × α)) :
    Mirrors (resemblance lines joints) Eq (oneOf choices) (oneOf choices) := by
  induction choices with
  | nil => exact .done rfl
  | cons choice others induction => exact .ifThen (accepts choice.1) (.done rfl) induction

end Mirrors

end ShellSyntax
