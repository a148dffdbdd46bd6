import ShellSyntax.Language.Expression
import ShellSyntax.Language.Primary
import ShellSyntax.Language.SimpleStatement

/-! Statements that hold blocks. -/

namespace ShellSyntax.Language

open Matcher

/-! ### Blocks -/

/-- Statements on lines of their own, indented. -/
def indentedSuite : Match (Option (List Stmt)) :=
  attempt fun _ => do
    if !(← acceptsKind .newline) then return none
    if !(← acceptsKind .indent) then return none
    let some body ← stmtList | return none
    if !(← acceptsKind .dedent) then return none
    return some body

/-- Indented statements, or the rest of the line. -/
def suiteRule : Match (Option (List Stmt)) := do
  if let some body ← indentedSuite then return some body
  if let some body ← stmtLine then return some body
  if ← isDiagnosing then rejectMissingIndent
  return none

/-- A colon and the statements that it announces. -/
def colonSuite : Match (Option (List Stmt)) :=
  attempt fun _ => do
    if !(← accepts ":") then return none
    suite

/-- What is done otherwise; nothing if that is not said. -/
def elseSuite : Match (List Stmt) := do
  let body ← attempt fun _ => do
    if !(← accepts "else") then return none
    colonSuite
  return body.getD []

/-! ### Branches and loops -/

/-- A condition behind `keyword`, what is done if it holds, and the further branches. -/
def branch (keyword : String) : Match (Option StmtForm) := do
  if !(← accepts keyword) then return none
  let some test ← bindingExpr | return none
  let some body ← colonSuite | return none
  if (← peek).text == "elif" then
    let start ← mark
    let some form ← elifBranch | return none
    return some (.if test body [⟨form, ← spanSince start⟩])
  else return some (.if test body (← elseSuite))

/-- Statements repeated as long as a condition holds. -/
def whileLoop : Match (Option StmtForm) := do
  let _ ← accepts "while"
  let some test ← bindingExpr | return none
  let some body ← colonSuite | return none
  return some (.while test body (← elseSuite))

/-- Statements repeated for each item of what is iterated over. -/
def forLoop (isAsync : Bool) : Match (Option StmtForm) := do
  if !(← accepts "for") then return none
  let some target ← targetTuple | return none
  if !(← accepts "in") then return none
  let some iter ← spreadTuple | return none
  let some body ← colonSuite | return none
  return some (.for target iter body (← elseSuite) isAsync)

/-! ### Contexts -/

/-- The name that a context gets, if a comma, a parenthesis or a colon follows it. -/
def contextTarget : Match (Option Expr) :=
  attempt fun _ => do
    if !(← accepts "as") then return none
    let some target ← targetItem | return none
    let token ← peek
    if token.isOp "," || token.isOp ")" || token.isOp ":" then return some target
    return none

/-- A context, with or without a name. -/
def contextItem : Match (Option ContextItem) := do
  let some context ← expr | return none
  return some ⟨context, ← contextTarget⟩

/-- Contexts without a colon behind them. -/
def rejectMissingColon : Match Unit :=
  inspect do
    let some _ ← separated "," contextItem | return
    let token ← peek
    if !token.isOp ":" then raiseAt "expected ':'" token.span

/-- Contexts and a raw block, behind the exclamation mark that announces it. -/
def rawWith : Match (Option StmtForm) := do
  if ← isDiagnosing then rejectMissingColon
  let some items ← separated "," contextItem | return none
  if !(← accepts ":") then return none
  let some suite ← ofKind .macroParam | return none
  return some (.rawWith items suite.text)

/-- Contexts in parentheses, where a comma may follow the last, and their statements. -/
def parenthesizedContexts : Match (Option (List ContextItem × List Stmt)) :=
  attempt fun _ => do
    if !(← accepts "(") then return none
    let some items ← separated "," contextItem | return none
    let _ ← accepts ","
    if !(← accepts ")") then return none
    let some body ← colonSuite | return none
    return some (items, body)

/-- Statements in a context. An asynchronous one has no raw block. -/
def contextStmt (isAsync : Bool) : Match (Option StmtForm) := do
  if !(← accepts "with") then return none
  if !isAsync then
    if ← accepts "!" then return ← rawWith
  if let some (items, body) ← parenthesizedContexts then return some (.with items body isAsync)
  let some items ← separated "," contextItem | return none
  let some body ← colonSuite | return none
  return some (.with items body isAsync)

/-! ### Exceptions -/

/-- What is done about exceptions: of some kind or of all, with or without a name. -/
def exceptHandler : Match (Option Handler) :=
  attempt fun start => do
    if !(← accepts "except") then return none
    let exception ← expr
    let mut id := none
    if exception.isSome then
      if ← accepts "as" then
        let some text ← identifier | return none
        id := some text
    let some body ← colonSuite | return none
    return some ⟨exception, id, body, ← spanSince start⟩

/-- Statements whose exceptions are handled, or that have something done behind them in any case. -/
def tryForm : Match (Option StmtForm) := do
  let _ ← accepts "try"
  let some body ← colonSuite | return none
  let handlers ← many exceptHandler
  let orelse ← if handlers.isEmpty then pure [] else elseSuite
  let mut finalbody := []
  if ← accepts "finally" then
    let some stmts ← colonSuite | return none
    finalbody := stmts
  if handlers.isEmpty && finalbody.isEmpty then return none
  return some (.try body handlers orelse finalbody)

/-! ### Definitions -/

/-- The annotation of a result, if there is an arrow; behind an arrow it may not be missing. -/
def returnAnnotation : Match (Option (Option Expr)) := do
  if !(← accepts "->") then return some none
  let some value ← expr | return none
  return some (some value)

/-- The name of a function, its parameters and its statements. -/
def functionDefinition (decorators : List Expr) (isAsync : Bool) : Match (Option StmtForm) := do
  if !(← accepts "def") then return none
  let some id ← identifier | return none
  if !(← accepts "(") then return none
  let some args ← parameterList true ")" | return none
  if !(← accepts ")") then return none
  let some returns ← returnAnnotation | return none
  let some body ← colonSuite | return none
  return some (.function id args body decorators returns isAsync)

/-- Arguments in parentheses, or none; a parenthesis has to be closed. -/
def classArguments : Match (Option ArgumentState) := do
  if !(← accepts "(") then return some ([], [])
  let some arguments ← argumentList | return none
  if !(← accepts ")") then return none
  return some arguments

/-- The name of a class, its bases and its statements. -/
def classDefinition (decorators : List Expr) : Match (Option StmtForm) := do
  if !(← accepts "class") then return none
  let some id ← identifier | return none
  let some (bases, keywords) ← classArguments | return none
  let some body ← colonSuite | return none
  return some (.classDefinition id bases keywords body decorators)

/-- A decorator, on a line of its own. -/
def decorator : Match (Option Expr) :=
  attempt fun _ => do
    if !(← accepts "@") then return none
    let some value ← bindingExpr | return none
    if !(← acceptsKind .newline) then return none
    return some value

def decoratedDefinition : Match (Option StmtForm) := do
  let some decorators ← many1 decorator | return none
  match (← peek).text with
  | "def" => functionDefinition decorators false
  | "class" => classDefinition decorators
  | "async" =>
    let _ ← next
    functionDefinition decorators true
  | _ => return none

/-- A function, a loop or a context that is asynchronous. -/
def asyncForm : Match (Option StmtForm) := do
  let _ ← accepts "async"
  match (← peek).text with
  | "def" => functionDefinition [] true
  | "for" => forLoop true
  | "with" => contextStmt true
  | _ => return none

/-! ### Statements -/

def blockStmt : Match (Option Stmt) :=
  attempt fun start => do
    let token ← peek
    let form ←
      match token.kind, token.text with
      | .op, "@" => decoratedDefinition
      | .name, "def" => functionDefinition [] false
      | .name, "class" => classDefinition []
      | .name, "if" => branch "if"
      | .name, "while" => whileLoop
      | .name, "for" => forLoop false
      | .name, "with" => contextStmt false
      | .name, "try" => tryForm
      | .name, "async" => asyncForm
      | _, _ => pure none
    match form with
    | some form => stmtNode start form
    | none => return none

/-- One statement that holds blocks, or a line of statements. -/
def stmtOrLine : Match (Option (List Stmt)) := do
  if let some stmt ← blockStmt then return some [stmt]
  stmtLine

/-- Statements, at least one. -/
def stmtListRule : Match (Option (List Stmt)) := do
  return (← many1 stmtOrLine).map List.flatten

/-- Statements up to the end of the source, perhaps none. -/
def programRule : Match (Option Module) := do
  let body ← stmtList
  if !(← acceptsKind .endMarker) then return none
  return some ⟨body.getD []⟩

/-- One expression, up to the end of the source. -/
def soleExprRule : Match (Option Expr) := do
  let some value ← exprTuple | return none
  let _ ← many (ofKind .newline)
  if !(← acceptsKind .endMarker) then return none
  return some value

end ShellSyntax.Language
