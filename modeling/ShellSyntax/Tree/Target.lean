import ShellSyntax.Tree.Basic

/-! What may be assigned to, and how an expression that may not be is called. -/

namespace ShellSyntax

def Constant.describe : Constant → String
  | .none | .true | .false => "keyword"
  | .ellipsis => "ellipsis"
  | .number _ | .str _ | .bytes _ => "literal"

namespace ExprForm

def describe : ExprForm → String
  | name _ => "name"
  | constant value => value.describe
  | fstring _ | path _ => "literal"
  | pathSearch _ => "search path"
  | boolOp _ _ | binOp _ _ _ | unaryOp _ _ => "expression"
  | binding _ _ => "named expression"
  | lambda _ _ => "lambda"
  | conditional _ _ _ => "conditional expression"
  | dict _ _ => "dict literal"
  | set _ => "set display"
  | listComp _ _ => "list comprehension"
  | setComp _ _ => "set comprehension"
  | dictComp _ _ _ => "dict comprehension"
  | generator _ _ => "generator expression"
  | await _ => "await expression"
  | yield _ | yieldFrom _ => "yield expression"
  | compare _ _ _ => "comparison"
  | call _ _ _ => "function call"
  | macroCall _ _ => "macro call"
  | .attribute _ _ => "attribute"
  | subscript _ _ => "subscript"
  | starred _ => "starred"
  | list _ => "list"
  | tuple _ => "tuple"
  | slice _ _ _ => "slice"
  | namedVariable _ | computedVariable _ => "environment variable"
  | pipeline _ => "subprocess"
  | help _ _ => "help expression"

/-- One place that a value can be stored in. -/
def isSoleTarget : ExprForm → Bool
  | name _ | .attribute _ _ | subscript _ _ | namedVariable _ | computedVariable _ => true
  | _ => false

def isStarred : ExprForm → Bool
  | starred _ => true
  | _ => false

end ExprForm

mutual

/-- Single targets may stand on the left of an assignment, and so may lists, tuples and starred
targets made of such. -/
def Expr.isTarget : Expr → Bool
  | ⟨form, _⟩ => form.isTarget

def ExprForm.isTarget : ExprForm → Bool
  | .starred inner => inner.isTarget
  | .list items => areTargets items
  | .tuple items => areTargets items
  | form => form.isSoleTarget

def areTargets : List Expr → Bool
  | [] => true
  | item :: items => item.isTarget && areTargets items

end

mutual

/-- The first part of an assignment target that cannot be assigned to. -/
def Expr.badTarget? : Expr → Option Expr
  | ⟨form, span⟩ => form.badTarget? span

def ExprForm.badTarget? (span : Span) : ExprForm → Option Expr
  | .tuple items => badTargetIn? items
  | .list items => badTargetIn? items
  | .starred inner => inner.badTarget?
  | form => if form.isSoleTarget then none else some ⟨form, span⟩

def badTargetIn? : List Expr → Option Expr
  | [] => none
  | item :: items =>
    match item.badTarget? with
    | some bad => some bad
    | none => badTargetIn? items

end

/-! ### Commands -/

mutual

/-- The argument roughly as it is written. -/
def CommandArg.spelling : CommandArg → String
  | .word text | .quoted text | .redirect text | .raw text => text
  | .namedVariable name => "$" ++ name
  | .computedVariable _ => "$\x7b...\x7d"
  | .hostExpr _ => "@(...)"
  | .pipeline command => command.capture.opener ++ "..." ++ command.capture.closer
  | .pathSearch search => "\x60" ++ search.pattern ++ "\x60"
  | .concat parts => CommandArg.spellingOfAll parts

def CommandArg.spellingOfAll : List CommandArg → String
  | [] => ""
  | arg :: args => arg.spelling ++ CommandArg.spellingOfAll args

end

def Pipeline.spellings (command : Pipeline) : List (List String) :=
  command.stages.map fun stage => stage.argv.map CommandArg.spelling

end ShellSyntax
