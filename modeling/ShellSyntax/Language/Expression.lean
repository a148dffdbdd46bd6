import ShellSyntax.Language.Items
import ShellSyntax.Language.Mistake

/-!
Expressions, from conditionals down to powers. The binary operators of one level are a rule that
grows to the left, so `a - b - c` is `(a - b) - c` and no table of precedences is needed.
-/

namespace ShellSyntax.Language

open Matcher

/-! ### Named and conditional expressions -/

/-- An expression, perhaps with a name that is bound to it. Nothing else may be bound. -/
def bindingExprRule : Match (Option Expr) := do
  let start ← mark
  if let some target ← name then
    if ← accepts ":=" then
      let target : Expr := ⟨.name target.text, ← spanSince start⟩
      let some value ← expr | return ← giveUp start
      return ← node start (.binding target value)
    reset start
  if ← isDiagnosing then rejectBinding
  let some value ← expr | return none
  if ← lookahead (spelled ":=") then giveUp start else return some value

/-- The condition behind an expression, and what the value is otherwise. -/
def ifElseTail : Match (Option (Expr × Expr)) :=
  attempt fun _ => do
    if !(← accepts "if") then return none
    let some test ← orExpr | return none
    if !(← accepts "else") then return none
    let some orelse ← expr | return none
    return some (test, orelse)

/-- A parameter, its annotation if it may have one, and its default. -/
def namedParameter (annotated : Bool) : Match (Option Parameter) :=
  attempt fun _ => do
    let some id ← name | return none
    let mut annotation := none
    if annotated then
      if ← accepts ":" then
        let some value ← expr | return none
        annotation := some value
    let mut default := none
    if ← accepts "=" then
      let some value ← expr | return none
      default := some value
    return some ⟨id.text, annotation, default⟩

/-- The parameters read so far, and whether a star has been among them. -/
abbrev ParameterState := Parameters × Bool

/-- The next parameter, or one of the marks between parameters. -/
def parameterItem (annotated : Bool) (state : ParameterState) : Match (Option ParameterState) := do
  let (args, afterStar) := state
  if ← accepts "/" then return some state
  if ← accepts "**" then
    let some p ← namedParameter annotated | return none
    return some ({ args with kwarg := some p }, afterStar)
  if ← accepts "*" then return some ({ args with vararg := ← namedParameter annotated }, true)
  let some p ← namedParameter annotated | return none
  if afterStar then return some ({ args with kwonly := args.kwonly ++ [p] }, true)
  return some ({ args with args := args.args ++ [p] }, false)

/-- Formal parameters up to `close`, which is not consumed. -/
def parameterList (annotated : Bool) (close : String) : Match (Option Parameters) :=
  attempt fun _ => loop (fun state : ParameterState => do
    if ← lookahead (spelled close) then stop (some state.1)
    else
      match ← parameterItem annotated state with
      | none => stop none
      | some state => if ← accepts "," then again state else stop (some state.1))
    (Parameters.none, false)

/-- A function without a name. -/
def lambdaExpr : Match (Option Expr) :=
  attempt fun start => do
    if !(← accepts "lambda") then return none
    let some args ← parameterList false ":" | return none
    if !(← accepts ":") then return none
    let some body ← expr | return none
    node start (.lambda args body)

/-- An expression, perhaps a conditional one, or a function without a name. -/
def exprRule : Match (Option Expr) := do
  if ← isDiagnosing then rejectMissingElse
  let start ← mark
  let some body ← orExpr | lambdaExpr
  match ← ifElseTail with
  | some (test, orelse) => node start (.conditional test body orelse)
  | none => return some body

/-! ### Boolean operators and comparisons -/

/-- Operands between keywords. One operand stands for itself. -/
def boolOperands (op : BoolOp) (keyword : String) (operand : Match (Option Expr)) :
    Match (Option Expr) := do
  let start ← mark
  match ← separated keyword operand with
  | none => return none
  | some [value] => return some value
  | some values => node start (.boolOp op values)

/-- The operator of two words that negates membership. -/
def notIn : Match (Option CmpOp) :=
  attempt fun _ => do
    if !(← accepts "not") then return none
    if !(← accepts "in") then return none
    return some .notIn

def comparisonOperator : Match (Option CmpOp) := do
  if let some op ← oneOf
      [("==", CmpOp.eq), ("!=", .notEq), ("<=", .le), ("<", .lt), (">=", .ge), (">", .gt),
        ("in", .isIn)] then
    return some op
  if let some op ← notIn then return some op
  if ← accepts "is" then
    if ← accepts "not" then return some .isNot
    return some .is
  return none

/-- A comparison operator and its right operand. -/
def comparisonTail : Match (Option (CmpOp × Expr)) :=
  attempt fun _ => do
    let some op ← comparisonOperator | return none
    let some right ← bitOrExpr | return none
    return some (op, right)

/-- A chain of comparisons. One operand stands for itself. -/
def comparison : Match (Option Expr) := do
  let start ← mark
  let some left ← bitOrExpr | return none
  match ← many comparisonTail with
  | [] => return some left
  | tails => node start (.compare left (tails.map Prod.fst) (tails.map Prod.snd))

/-- A comparison, negated any number of times. -/
def notExprRule : Match (Option Expr) := do
  let start ← mark
  if ← accepts "not" then
    let some operand ← notExpr | giveUp start
    node start (.unaryOp .not operand)
  else comparison

/-! ### Binary and prefix operators -/

/-- One of the operators and its right operand, behind `left`, which started at `start` and ends
at `here`. -/
def binaryTail (start here : Mark) (left : Expr) (operand : Match (Option Expr)) :
    List BinOp → Match (Option Expr)
  | [] => return none
  | op :: ops => do
    if ← accepts op.symbol then
      if let some right ← operand then return ← node start (.binOp left op right)
    reset here
    binaryTail start here left operand ops

/-- A chain of operators of one level that groups to the left: `this` yields the chain so far. -/
def leftAssoc (ops : List BinOp) (this operand : Match (Option Expr)) : Match (Option Expr) := do
  let start ← mark
  if let some left ← this then
    if let some longer ← binaryTail start (← mark) left operand ops then return some longer
  reset start
  operand

def prefixOperators : List (String × UnaryOp) :=
  [("+", .plus), ("-", .minus), ("~", .invert)]

/-- A power, whose exponent may be signed. -/
def powerExpr : Match (Option Expr) := do
  let start ← mark
  let some base ← awaitExpr | return none
  let here ← mark
  if ← accepts "**" then
    if let some exponent ← signedExpr then return ← node start (.binOp base .pow exponent)
    reset here
  return some base

/-- A power behind any number of prefix operators. -/
def signedExprRule : Match (Option Expr) := do
  let start ← mark
  match ← oneOf prefixOperators with
  | some op =>
    let some operand ← signedExpr | giveUp start
    node start (.unaryOp op operand)
  | none => powerExpr

def awaitExprRule : Match (Option Expr) := do
  let start ← mark
  if ← accepts "await" then
    let some value ← postfixExpr | giveUp start
    node start (.await value)
  else postfixExpr

end ShellSyntax.Language
