import ShellSyntax.Language.Items
import ShellSyntax.Tree.Target

/-!
Common mistakes. Each of these matchers is run only when the parser looks for the cause of an
error. It raises the error if it meets its mistake; otherwise it leaves the stream where it was.
-/

namespace ShellSyntax.Language

open Matcher

/-- Runs `inner` and goes back. -/
def inspect (inner : Match Unit) : Match Unit := do
  let start ← mark
  inner
  reset start

/-- The operators that assign, each with the operator it applies. -/
def augmentedOperators : List (String × BinOp) :=
  [("+=", .add), ("-=", .sub), ("*=", .mult), ("@=", .matMult), ("/=", .div), ("%=", .mod),
    ("&=", .bitAnd), ("|=", .bitOr), ("^=", .bitXor), ("<<=", .leftShift), (">>=", .rightShift),
    ("**=", .pow), ("//=", .floorDiv)]

def augmentedOperator : Match (Option BinOp) := do
  let token ← peek
  if token.kind != .op then return none
  match augmentedOperators.lookup token.text with
  | none => return none
  | some op =>
    let _ ← next
    return some op

/-- An assignment to what cannot be assigned to, or an augmented assignment to what is not one
target. -/
def rejectTarget : Match Unit :=
  inspect <| loop (fun _ => do
    let some target ← spreadTuple | stop ()
    if ← accepts "=" then
      match target.badTarget? with
      | some bad => raiseAt ("cannot assign to " ++ bad.form.describe) bad.span
      | none => again ()
    else
      if (← augmentedOperator).isSome && !target.form.isSoleTarget then
        raiseAt s!"'{target.form.describe}' is an illegal expression for augmented assignment"
          target.span
      stop ()) ()

/-- The binding of anything but a name. -/
def rejectBinding : Match Unit :=
  inspect do
    let some target ← bitOrExpr | return
    if ← accepts ":=" then
      match target.form with
      | .name _ => return
      | form => raiseAt ("cannot use assignment expressions with " ++ form.describe) target.span

/-- A conditional expression that does not say what its value is otherwise. -/
def rejectMissingElse : Match Unit :=
  inspect do
    let start ← mark
    let some _ ← orExpr | return
    if !(← accepts "if") then return
    let some _ ← orExpr | return
    let token ← peek
    if !(token.kind == .name && token.text == "else") && !token.isOp ":" then
      raiseAt "expected 'else' after 'if' expression" (← spanSince start)

/-- A key and its value. -/
def entry : Match (Option (Expr × Expr)) :=
  attempt fun _ => do
    let some key ← expr | return none
    if !(← accepts ":") then return none
    let some value ← expr | return none
    return some (key, value)

/-- An entry of a dictionary, or a mapping that is unpacked into it. -/
def entryOrSpread : Match (Option (Option Expr × Expr)) := do
  let start ← mark
  if ← accepts "**" then
    let some mapping ← bitOrExpr | giveUp start
    return some (none, mapping)
  else
    return (← entry).map fun (key, value) => (some key, value)

/-- An entry of a dictionary that has a key and a colon and no value. -/
def keyWithoutValue : Match Unit := do
  let some _ ← expr | return
  let some colon ← spelled ":" | return
  let token ← peek
  if token.isOp "\x7d" || token.isOp "," then
    raiseAt "expression expected after dictionary key and ':'" colon.span

/-- A dictionary with an entry that has no value. -/
def rejectMissingValue : Match Unit :=
  inspect <| loop (fun _ => do
    let start ← mark
    match ← entryOrSpread with
    | some _ => if ← accepts "," then again () else stop ()
    | none =>
      reset start
      keyWithoutValue
      stop ()) ()

/-- A line that has to be followed by indented ones and is not. -/
def rejectMissingIndent : Match Unit :=
  inspect do
    if !(← acceptsKind .newline) then return
    let token ← peek
    if token.kind != .indent then
      raise .indentation "expected an indented block" (.range token.start token.stop)

/-- A command without words: `opening` is directly followed by its closer. -/
def rejectEmptyCommand (opening : Token) (closer : String) : Match Unit := do
  let token ← peek
  if token.isOp closer then
    raiseAt s!"empty subprocess literal '{opening.text}{closer}'" ⟨opening.start, token.stop⟩

end ShellSyntax.Language
