import ShellSyntax.Tree.Basic
import ShellSyntax.Tree.Shape

/-! The printed form of a tree. -/

namespace ShellSyntax

def Position.shape (p : Position) : Shape :=
  .record "Position" [("line", .nat p.line), ("column", .nat p.column)]

def Span.shape (s : Span) : Shape :=
  .record "Span" [("start", s.start.shape), ("end", s.stop.shape)]

def Constant.shape : Constant → Shape
  | none => .atom "None"
  | true => .atom "True"
  | false => .atom "False"
  | ellipsis => .atom "Ellipsis"
  | number text => .applied "Number" (.text text)
  | str text => .applied "Str" (.text text)
  | bytes text => .applied "Bytes" (.text text)

def SearchMethod.shape : SearchMethod → Shape
  | regex => .atom "Regex"
  | glob => .atom "Glob"
  | custom name => .applied "Custom" (.text name)

def PathSearch.shape (s : PathSearch) : Shape :=
  .record "SearchPath"
    [("kind", s.kind.shape), ("pattern", .text s.pattern), ("as_paths", .bool s.asPaths),
      ("formatted", .bool s.formatted)]

def textOption (text : Option String) : Shape :=
  .option (text.map Shape.text)

mutual

def Expr.shape : Expr → Shape
  | ⟨form, span⟩ => .record "Expr" [("kind", form.shape), ("span", span.shape)]

def ExprForm.shape : ExprForm → Shape
  | .name id => .applied "Name" (.text id)
  | .constant value => .applied "Constant" value.shape
  | .fstring parts => .applied "JoinedStr" (.list (fstringShapes parts))
  | .path value => .applied "Path" value.shape
  | .pathSearch search => .applied "SearchPath" search.shape
  | .boolOp op values =>
    .record "BoolOp" [("op", .atom op.label), ("values", .list (exprShapes values))]
  | .binding target value =>
    .record "NamedExpr" [("target", target.shape), ("value", value.shape)]
  | .binOp left op right =>
    .record "BinOp" [("left", left.shape), ("op", .atom op.label), ("right", right.shape)]
  | .unaryOp op operand =>
    .record "UnaryOp" [("op", .atom op.label), ("operand", operand.shape)]
  | .lambda args body => .record "Lambda" [("args", args.shape), ("body", body.shape)]
  | .conditional test body orelse =>
    .record "IfExp" [("test", test.shape), ("body", body.shape), ("orelse", orelse.shape)]
  | .dict keys values =>
    .record "Dict" [("keys", .list (keyShapes keys)), ("values", .list (exprShapes values))]
  | .set items => .applied "Set" (.list (exprShapes items))
  | .listComp elt generators =>
    .record "ListComp" [("elt", elt.shape), ("generators", .list (comprehensionShapes generators))]
  | .setComp elt generators =>
    .record "SetComp" [("elt", elt.shape), ("generators", .list (comprehensionShapes generators))]
  | .dictComp key value generators =>
    .record "DictComp"
      [("key", key.shape), ("value", value.shape),
        ("generators", .list (comprehensionShapes generators))]
  | .generator elt generators =>
    .record "GeneratorExp"
      [("elt", elt.shape), ("generators", .list (comprehensionShapes generators))]
  | .await value => .applied "Await" value.shape
  | .yield value => .applied "Yield" (optionShape value)
  | .yieldFrom value => .applied "YieldFrom" value.shape
  | .compare left ops comparators =>
    .record "Compare"
      [("left", left.shape), ("ops", .list (ops.map fun op => .atom op.label)),
        ("comparators", .list (exprShapes comparators))]
  | .call func args keywords =>
    .record "Call"
      [("func", func.shape), ("args", .list (exprShapes args)),
        ("keywords", .list (keywordShapes keywords))]
  | .macroCall func args =>
    .record "MacroCall" [("func", func.shape), ("args", .list (args.map Shape.text))]
  | .attribute value attr => .record "Attribute" [("value", value.shape), ("attr", .text attr)]
  | .subscript value slice => .record "Subscript" [("value", value.shape), ("slice", slice.shape)]
  | .starred value => .applied "Starred" value.shape
  | .list items => .applied "List" (.list (exprShapes items))
  | .tuple items => .applied "Tuple" (.list (exprShapes items))
  | .slice lower upper step =>
    .record "Slice"
      [("lower", optionShape lower), ("upper", optionShape upper), ("step", optionShape step)]
  | .namedVariable name => .applied "Env" (.text name)
  | .computedVariable value => .applied "EnvExpr" value.shape
  | .pipeline command => .applied "Subproc" command.shape
  | .help target detailed =>
    .record "Help" [("target", target.shape), ("superhelp", .bool detailed)]

def exprShapes : List Expr → List Shape
  | [] => []
  | e :: es => e.shape :: exprShapes es

def optionShape : Option Expr → Shape
  | none => .atom "None"
  | some e => .applied "Some" e.shape

def keyShapes : List (Option Expr) → List Shape
  | [] => []
  | e :: es => optionShape e :: keyShapes es

def fstringShapes : List FormatPart → List Shape
  | [] => []
  | part :: parts => part.shape :: fstringShapes parts

def FormatPart.shape : FormatPart → Shape
  | .literal text => .applied "Literal" (.text text)
  | .field value debugText conversion formatSpec =>
    .record "Field"
      [("value", value.shape), ("debug_text", textOption debugText),
        ("conversion", .option (conversion.map fun c => .atom (Text.quotedSingle c))),
        ("format_spec", .list (fstringShapes formatSpec))]

def Comprehension.shape : Comprehension → Shape
  | ⟨target, iter, ifs, isAsync⟩ =>
    .record "Comprehension"
      [("target", target.shape), ("iter", iter.shape), ("ifs", .list (exprShapes ifs)),
        ("is_async", .bool isAsync)]

def comprehensionShapes : List Comprehension → List Shape
  | [] => []
  | c :: cs => c.shape :: comprehensionShapes cs

def Parameter.shape : Parameter → Shape
  | ⟨name, annotation, default⟩ =>
    .record "Param"
      [("name", .text name), ("annotation", optionShape annotation),
        ("default", optionShape default)]

def paramShapes : List Parameter → List Shape
  | [] => []
  | p :: ps => p.shape :: paramShapes ps

def paramOption : Option Parameter → Shape
  | none => .atom "None"
  | some p => .applied "Some" p.shape

def Parameters.shape : Parameters → Shape
  | ⟨args, vararg, kwonly, kwarg⟩ =>
    .record "Arguments"
      [("args", .list (paramShapes args)), ("vararg", paramOption vararg),
        ("kwonly", .list (paramShapes kwonly)), ("kwarg", paramOption kwarg)]

def NamedArgument.shape : NamedArgument → Shape
  | ⟨arg, value⟩ => .record "Keyword" [("arg", textOption arg), ("value", value.shape)]

def keywordShapes : List NamedArgument → List Shape
  | [] => []
  | k :: ks => k.shape :: keywordShapes ks

def Pipeline.shape : Pipeline → Shape
  | ⟨capture, stages, background⟩ =>
    .record "Subproc"
      [("capture", .atom capture.label), ("stages", .list (stageShapes stages)),
        ("background", .bool background)]

def PipelineStage.shape : PipelineStage → Shape
  | ⟨connector, argv⟩ =>
    .record "Stage"
      [("connector", .option (connector.map fun c => .atom c.label)),
        ("argv", .list (argShapes argv))]

def stageShapes : List PipelineStage → List Shape
  | [] => []
  | s :: ss => s.shape :: stageShapes ss

def CommandArg.shape : CommandArg → Shape
  | .word text => .applied "Word" (.text text)
  | .quoted text => .applied "Quoted" (.text text)
  | .namedVariable name => .applied "Env" (.text name)
  | .computedVariable value => .applied "EnvExpr" value.shape
  | .hostExpr value => .applied "PyExpr" value.shape
  | .pipeline command => .applied "Subproc" command.shape
  | .pathSearch search => .applied "SearchPath" search.shape
  | .redirect text => .applied "Redirect" (.text text)
  | .raw text => .applied "Macro" (.text text)
  | .concat parts => .applied "Concat" (.list (argShapes parts))

def argShapes : List CommandArg → List Shape
  | [] => []
  | a :: as => a.shape :: argShapes as

end

def ImportedName.shape (a : ImportedName) : Shape :=
  .record "Alias" [("name", .text a.name), ("asname", textOption a.asname)]

def ContextItem.shape (item : ContextItem) : Shape :=
  .record "WithItem" [("context", item.context.shape), ("target", optionShape item.target)]

mutual

def Stmt.shape : Stmt → Shape
  | ⟨form, span⟩ => .record "Stmt" [("kind", form.shape), ("span", span.shape)]

def StmtForm.shape : StmtForm → Shape
  | .expr value => .applied "Expr" value.shape
  | .assign targets value =>
    .record "Assign" [("targets", .list (exprShapes targets)), ("value", value.shape)]
  | .augmented target op value =>
    .record "AugAssign"
      [("target", target.shape), ("op", .atom op.label), ("value", value.shape)]
  | .annotated target annotation value =>
    .record "AnnAssign"
      [("target", target.shape), ("annotation", annotation.shape), ("value", optionShape value)]
  | .return value => .applied "Return" (optionShape value)
  | .pass => .atom "Pass"
  | .break => .atom "Break"
  | .continue => .atom "Continue"
  | .delete targets => .applied "Delete" (.list (exprShapes targets))
  | .raise exc cause => .record "Raise" [("exc", optionShape exc), ("cause", optionShape cause)]
  | .assert test msg => .record "Assert" [("test", test.shape), ("msg", optionShape msg)]
  | .global names => .applied "Global" (.list (names.map Shape.text))
  | .nonlocal names => .applied "Nonlocal" (.list (names.map Shape.text))
  | .importNames names => .applied "Import" (.list (names.map ImportedName.shape))
  | .fromImport module names level =>
    .record "ImportFrom"
      [("module", textOption module), ("names", .list (names.map ImportedName.shape)),
        ("level", .nat level)]
  | .if test body orelse =>
    .record "If"
      [("test", test.shape), ("body", .list (stmtShapes body)),
        ("orelse", .list (stmtShapes orelse))]
  | .while test body orelse =>
    .record "While"
      [("test", test.shape), ("body", .list (stmtShapes body)),
        ("orelse", .list (stmtShapes orelse))]
  | .for target iter body orelse isAsync =>
    .record "For"
      [("target", target.shape), ("iter", iter.shape), ("body", .list (stmtShapes body)),
        ("orelse", .list (stmtShapes orelse)), ("is_async", .bool isAsync)]
  | .function name args body decorators returns isAsync =>
    .record "FunctionDef"
      [("name", .text name), ("args", args.shape), ("body", .list (stmtShapes body)),
        ("decorators", .list (exprShapes decorators)), ("returns", optionShape returns),
        ("is_async", .bool isAsync)]
  | .classDefinition name bases keywords body decorators =>
    .record "ClassDef"
      [("name", .text name), ("bases", .list (exprShapes bases)),
        ("keywords", .list (keywordShapes keywords)), ("body", .list (stmtShapes body)),
        ("decorators", .list (exprShapes decorators))]
  | .with items body isAsync =>
    .record "With"
      [("items", .list (items.map ContextItem.shape)), ("body", .list (stmtShapes body)),
        ("is_async", .bool isAsync)]
  | .rawWith items block =>
    .record "WithMacro" [("items", .list (items.map ContextItem.shape)), ("block", .text block)]
  | .try body handlers orelse finalbody =>
    .record "Try"
      [("body", .list (stmtShapes body)), ("handlers", .list (handlerShapes handlers)),
        ("orelse", .list (stmtShapes orelse)), ("finalbody", .list (stmtShapes finalbody))]

def stmtShapes : List Stmt → List Shape
  | [] => []
  | s :: ss => s.shape :: stmtShapes ss

def Handler.shape : Handler → Shape
  | ⟨exception, name, body, span⟩ =>
    .record "ExceptHandler"
      [("kind", optionShape exception), ("name", textOption name),
        ("body", .list (stmtShapes body)), ("span", span.shape)]

def handlerShapes : List Handler → List Shape
  | [] => []
  | h :: hs => h.shape :: handlerShapes hs

end

def Module.shape (m : Module) : Shape :=
  .record "Module" [("body", .list (stmtShapes m.body))]

def Ast.shape : Ast → Shape
  | module tree => .applied "Module" tree.shape
  | expression tree => .applied "Expression" tree.shape

def Ast.print (tree : Ast) : String :=
  tree.shape.render

end ShellSyntax
