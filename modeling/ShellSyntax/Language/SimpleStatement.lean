import ShellSyntax.Language.Items
import ShellSyntax.Language.Mistake

/-! Statements on one line: assignments, imports, and those that a keyword starts. -/

namespace ShellSyntax.Language

open Matcher

/-! ### Assignments -/

/-- A target with an annotation, and perhaps a value. -/
def annotatedAssignment : Match (Option Stmt) :=
  attempt fun start => do
    let some target ← soleTarget | return none
    if !(← accepts ":") then return none
    let some annotation ← expr | return none
    let value ← attempt fun _ => do
      if !(← accepts "=") then return none
      yieldOrTuple
    stmtNode start (.annotated target annotation value)

/-- Targets and the equals sign behind them. -/
def assignmentTarget : Match (Option Expr) :=
  attempt fun _ => do
    let some target ← targetTuple | return none
    if !(← accepts "=") then return none
    return some target

/-- Targets, one group or more, and their value. -/
def plainAssignment : Match (Option Stmt) :=
  attempt fun start => do
    let some targets ← many1 assignmentTarget | return none
    let some value ← yieldOrTuple | return none
    if ← lookahead (spelled "=") then return none
    stmtNode start (.assign targets value)

/-- A target, an operator that assigns, and a value. -/
def augmentedAssignment : Match (Option Stmt) :=
  attempt fun start => do
    let some target ← soleTarget | return none
    let some op ← augmentedOperator | return none
    let some value ← yieldOrTuple | return none
    stmtNode start (.augmented target op value)

def assignment : Match (Option Stmt) := do
  if let some stmt ← annotatedAssignment then return some stmt
  if let some stmt ← plainAssignment then return some stmt
  augmentedAssignment

/-! ### Imports -/

def identifier : Match (Option String) := do
  return (← name).map Token.text

/-- Names joined by dots. -/
def modulePath : Match (Option String) := do
  return (← separated "." identifier).map (".".intercalate ·)

/-- What is imported, perhaps under another name. -/
def aliased (id : Match (Option String)) : Match (Option ImportedName) :=
  attempt fun _ => do
    let some imported ← id | return none
    if !(← accepts "as") then return some ⟨imported, none⟩
    let some asname ← identifier | return none
    return some ⟨imported, some asname⟩

def plainImport : Match (Option StmtForm) := do
  let _ ← accepts "import"
  return (← separated "," (aliased modulePath)).map .importNames

/-- How many dots stand here. -/
def leadingDots : Match Nat := do
  let dots ← many (oneOf [(".", 1), ("...", 3)])
  return dots.foldl Nat.add 0

/-- The names imported from a module: all, or a list. Only in parentheses may a comma follow the
last. -/
def importTargets : Match (Option (List ImportedName)) :=
  attempt fun _ => do
    if ← accepts "*" then return some [⟨"*", none⟩]
    let parenthesized ← accepts "("
    let some names ← separated "," (aliased identifier) | return none
    if parenthesized then
      let _ ← accepts ","
      if !(← accepts ")") then return none
    else if ← lookahead (spelled ",") then return none
    return some names

/-- Names imported from a module, or from a package so many levels up. -/
def fromImport : Match (Option StmtForm) := do
  let _ ← accepts "from"
  let level ← leadingDots
  let module ← modulePath
  if module.isNone && level == 0 then return none
  if !(← accepts "import") then return none
  let some names ← importTargets | return none
  return some (.fromImport module names level)

/-! ### Statements of one keyword -/

/-- An expression behind `separator`, or nothing. -/
def optionalExpression (separator : String) : Match (Option Expr) :=
  attempt fun _ => do
    if !(← accepts separator) then return none
    expr

/-- An exception that is raised, perhaps with its cause. -/
def raising : Match (Option StmtForm) := do
  let _ ← accepts "raise"
  match ← expr with
  | none => return some (.raise none none)
  | some exc => return some (.raise (some exc) (← optionalExpression "from"))

/-- Targets that are deleted, up to the end of the statement. -/
def deletion : Match (Option StmtForm) := do
  let _ ← accepts "del"
  let some targets ← separated "," deletableTarget | return none
  let _ ← accepts ","
  let token ← peek
  if token.kind == .newline || token.isOp ";" then return some (.delete targets)
  return none

/-- A condition that has to hold, perhaps with a message. -/
def assertion : Match (Option StmtForm) := do
  let _ ← accepts "assert"
  let some test ← expr | return none
  return some (.assert test (← optionalExpression ","))

/-- Names of an outer scope. -/
def scopeDeclaration : Match (Option StmtForm) := do
  let keyword ← next
  let some names ← separated "," identifier | return none
  return some (if keyword.text == "global" then .global names else .nonlocal names)

def keywordStatement (keyword : String) : Match (Option StmtForm) := do
  match keyword with
  | "pass" =>
    let _ ← next
    return some .pass
  | "break" =>
    let _ ← next
    return some .break
  | "continue" =>
    let _ ← next
    return some .continue
  | "return" =>
    let _ ← next
    return some (.return (← spreadTuple))
  | "yield" => return (← yielded).map .expr
  | "import" => plainImport
  | "from" => fromImport
  | "raise" => raising
  | "del" => deletion
  | "assert" => assertion
  | "global" | "nonlocal" => scopeDeclaration
  | _ => return none

/-- An assignment, an expression, or a statement that a keyword starts. -/
def smallStmtRule : Match (Option Stmt) :=
  attempt fun start => do
    if ← isDiagnosing then rejectTarget
    if let some stmt ← assignment then return some stmt
    if let some value ← spreadTuple then return ← stmtNode start (.expr value)
    let token ← peek
    if token.kind != .name then return none
    let some form ← keywordStatement token.text | return none
    stmtNode start form

def stmtLine : Match (Option (List Stmt)) :=
  attempt fun _ => do
    let some stmts ← separated ";" smallStmt | return none
    let _ ← accepts ";"
    if !(← acceptsKind .newline) then return none
    return some stmts

end ShellSyntax.Language
