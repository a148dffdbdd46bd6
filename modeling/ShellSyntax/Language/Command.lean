import ShellSyntax.Language.Literal
import ShellSyntax.Language.Mistake

/-!
Commands in expressions. The lexer has cut them into words; here the words become the stages of
a pipeline, and pieces that touch become one argument.
-/

namespace ShellSyntax.Language

open Matcher

/-! ### Arguments -/

/-- Adds `right` to a list of pieces; two words in a row are one. -/
def joinPieces (parts : List CommandArg) (right : CommandArg) : List CommandArg :=
  match parts.getLast?, right with
  | some (.word left), .word text => parts.dropLast ++ [.word (left ++ text)]
  | _, right => parts ++ [right]

/-- The argument made of two pieces that touch. -/
def fuse (left right : CommandArg) : CommandArg :=
  match left, right with
  | .word a, .word b => .word (a ++ b)
  | .concat parts, right => .concat (joinPieces parts right)
  | left, right => .concat [left, right]

/-- Redirections and raw text are never part of another argument. -/
def isSeparate : CommandArg → Bool
  | .redirect _ | .raw _ => true
  | _ => false

def addPiece (argv : List CommandArg) (piece : CommandArg) (touches : Bool) : List CommandArg :=
  match argv.getLast? with
  | some last =>
    if touches && !isSeparate piece && !isSeparate last then argv.dropLast ++ [fuse last piece]
    else argv ++ [piece]
  | none => [piece]

/-- A variable of the environment: a dollar sign right before its name, or before braces around an
expression for it. -/
def variableExpr : Match (Option Expr) :=
  attempt fun start => do
    if let some dollar ← spelled "$" then
      let some id ← ofKind .name | return none
      if !id.touches dollar then return none
      node start (.namedVariable id.text)
    else
      if !(← accepts "$\x7b") then return none
      let some value ← expr | return none
      if !(← accepts "\x7d") then return none
      node start (.computedVariable value)

def redirections : List String :=
  [">", ">>", "<", ">&"]

def wordArg (token : Token) : Match (Option CommandArg) := do
  let _ ← next
  return some (.word token.text)

/-- The value of an expression, in parentheses behind an at sign. -/
def hostArg : Match (Option CommandArg) :=
  attempt fun _ => do
    let _ ← next
    let some value ← spreadTuple | return none
    if !(← accepts ")") then return none
    return some (.hostExpr value)

/-- An exclamation mark and the raw text behind it. -/
def rawArg : Match (Option CommandArg) :=
  attempt fun _ => do
    let _ ← next
    return (← ofKind .macroParam).map fun token => .raw token.text

def envArg : Match (Option CommandArg) := do
  match (← variableExpr).map Expr.form with
  | some (.namedVariable name) => return some (.namedVariable name)
  | some (.computedVariable value) => return some (.computedVariable value)
  | _ => return none

def commandArg : Match (Option CommandArg) := do
  match (← commandExpr).map Expr.form with
  | some (.pipeline command) => return some (.pipeline command)
  | _ => return none

def searchArg : Match (Option CommandArg) := do
  match (← pathSearch).map Expr.form with
  | some (.pathSearch search) => return some (.pathSearch search)
  | _ => return none

/-- A piece that starts with the operator `token`, and the bracket depth behind it. Brackets that
do not close the command are text. -/
def operatorPiece (token : Token) (depth : Nat) : Match (Option (CommandArg × Nat)) := do
  let text := token.text
  let same (piece : Match (Option CommandArg)) : Match (Option (CommandArg × Nat)) := do
    return (← piece).map fun arg => (arg, depth)
  if text == "$" || text == "$\x7b" then same envArg
  else if text == "@(" then same hostArg
  else if (CaptureMode.ofOpener? text).isSome then same commandArg
  else if text == "!" then same rawArg
  else if text == "!=" then same (wordArg token)
  else if redirections.contains text then
    let _ ← next
    return some (.redirect text, depth)
  else if ["(", "[", "\x7b"].contains text then
    return (← wordArg token).map fun arg => (arg, depth + 1)
  else if [")", "]", "\x7d"].contains text && 0 < depth then
    return (← wordArg token).map fun arg => (arg, depth - 1)
  else return none

/-- A piece of an argument that starts with `token`, and the bracket depth behind it. -/
def piece (token : Token) (depth : Nat) : Match (Option (CommandArg × Nat)) := do
  let same (arg : Option CommandArg) : Option (CommandArg × Nat) := arg.map fun arg => (arg, depth)
  match token.kind with
  | .word | .name | .number => return same (← wordArg token)
  | .string =>
    let _ ← next
    return some (.quoted token.text, depth)
  | .fstringStart => return same ((← stringRun).map .hostExpr)
  | .pathSearch => return same (← searchArg)
  | .op => operatorPiece token depth
  | _ => return none

/-! ### Pipelines -/

/-- The token ends a command that `closer` closes. -/
def endsCommand (token : Token) (closer : String) : Bool :=
  match token.kind with
  | .op => token.text == closer || ["|", "&&", "||", "&"].contains token.text
  | .word => ["and", "or"].contains token.text
  | _ => false

/-- The arguments read so far, the bracket depth, and where the last piece ended. -/
abbrev CommandState := List CommandArg × Nat × Option Position

def commandWords (closer : String) : Match (Option (List CommandArg)) :=
  loop (fun ((argv, depth, stopped) : CommandState) => do
    let result := if argv.isEmpty then none else some argv
    let token ← peek
    if depth == 0 && endsCommand token closer then stop result
    else
      match ← attempt fun _ => piece token depth with
      | none => stop result
      | some (arg, depth) =>
        let argv := addPiece argv arg (stopped == some token.start)
        again (argv, depth, (← lastToken?).map Token.stop)) ([], 0, none)

/-- The signs between two commands. -/
def links : List (String × StageLink) :=
  [("|", .pipe), ("&&", .and), ("and", .and), ("||", .or), ("or", .or)]

/-- What joins two commands, and the second of them. -/
def furtherStage (closer : String) : Match (Option PipelineStage) :=
  attempt fun _ => do
    let some connector ← oneOf links | return none
    let some argv ← commandWords closer | return none
    return some ⟨some connector, argv⟩

/-- The commands of a pipeline. -/
def stages (closer : String) : Match (Option (List PipelineStage)) := do
  let some argv ← commandWords closer | return none
  return some (⟨none, argv⟩ :: (← many (furtherStage closer)))

/-! ### Literals -/

/-- A pipeline between the brackets of `capture`, perhaps sent to the background. Once the opener
has matched, no other capture is tried. -/
def captured (capture : CaptureMode) : Match (Attempt Expr) := do
  let start ← mark
  let some opening ← spelled capture.opener | return .failed
  if ← isDiagnosing then rejectEmptyCommand opening capture.closer
  let some stages ← stages capture.closer | return .refused
  let background ← accepts "&"
  if !(← accepts capture.closer) then return .refused
  return .matched ⟨.pipeline ⟨capture, stages, background⟩, ← spanSince start⟩

def commandExprRule : Match (Option Expr) :=
  firstOf (CaptureMode.all.map captured)

end ShellSyntax.Language
