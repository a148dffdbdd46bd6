import ShellSyntax.Language.Command
import ShellSyntax.Language.Display
import ShellSyntax.Language.Expression

/-! Atoms and what may follow them: attributes, calls, subscripts, macro calls and help. -/

namespace ShellSyntax.Language

open Matcher

/-! ### Atoms -/

def constantNames : List (String × Constant) :=
  [("True", .true), ("False", .false), ("None", .none)]

/-- A name or a constant; no other keyword is an expression. -/
def nameExpr (start : Mark) (token : Token) : Match (Option Expr) := do
  match constantNames.lookup token.text with
  | some value =>
    let _ ← next
    node start (.constant value)
  | none =>
    if Spelling.isKeyword token.text then return none
    let _ ← next
    node start (.name token.text)

/-- An expression that starts with the operator `text`. -/
def bracketExpr (start : Mark) (text : String) : Match (Option Expr) := do
  if text == "(" then inBrackets parenthesized
  else if text == "[" then inBrackets squareBracketed
  else if text == "\x7b" then inBrackets braced
  else if text == "..." then
    let _ ← next
    node start (.constant .ellipsis)
  else if text == "$" || text == "$\x7b" then inBrackets variableExpr
  else if (CaptureMode.ofOpener? text).isSome then inBrackets commandExpr
  else return none

/-- An expression whose first token tells what it is. -/
def atomicExprRule : Match (Option Expr) := do
  let start ← mark
  let token ← peek
  match token.kind with
  | .name => nameExpr start token
  | .number =>
    let _ ← next
    node start (.constant (.number token.text))
  | .string | .fstringStart => stringRun
  | .pathSearch => pathSearch
  | .op => bracketExpr start token.text
  | _ => return none

/-! ### Calls and subscripts -/

/-- A name and the value passed under it. -/
def namedArgument : Match (Option NamedArgument) :=
  attempt fun _ => do
    let some id ← name | return none
    if !(← accepts "=") then return none
    let some value ← expr | return none
    return some ⟨some id.text, value⟩

abbrev ArgumentState := List Expr × List NamedArgument

/-- The next argument: an unpacked one, an unpacked mapping, a named one or a plain one. -/
def argument (state : ArgumentState) : Match (Option ArgumentState) := do
  let (args, keywords) := state
  let start ← mark
  if ← accepts "*" then
    let some value ← expr | return none
    return some (args ++ [⟨.starred value, ← spanSince start⟩], keywords)
  if ← accepts "**" then
    let some value ← expr | return none
    return some (args, keywords ++ [⟨none, value⟩])
  if let some keyword ← namedArgument then return some (args, keywords ++ [keyword])
  let some value ← bindingExpr | return none
  return some (args ++ [value], keywords)

/-- Arguments up to a parenthesis, which is not consumed. -/
def argumentList : Match (Option ArgumentState) :=
  loop (fun state : ArgumentState => do
    if ← lookahead (spelled ")") then stop (some state)
    else
      match ← argument state with
      | none => stop none
      | some state => if ← accepts "," then again state else stop (some state)) ([], [])

/-- A slice, each of whose bounds may be missing, or a plain index. -/
def subscriptItem : Match (Option Expr) := do
  let start ← mark
  let lower ← expr
  if ← accepts ":" then
    let upper ← expr
    let step ← if ← accepts ":" then expr else pure none
    node start (.slice lower upper step)
  else
    reset start
    bindingOrSpread

def subscripts : Match (Option Expr) :=
  tupleOrSingle subscriptItem

/-! ### Primaries -/

/-- What follows `value`, which started at `start`. -/
def trailer (start : Mark) (value : Expr) : Match (Option Expr) :=
  attempt fun _ => do
    if ← accepts "." then
      let some attr ← name | return none
      return ← node start (.attribute value attr.text)
    if let some argument ← generator then return ← node start (.call value [argument] [])
    if ← accepts "(" then
      let some (args, keywords) ← argumentList | return none
      if !(← accepts ")") then return none
      return ← node start (.call value args keywords)
    if ← accepts "[" then
      let some index ← subscripts | return none
      if !(← accepts "]") then return none
      return ← node start (.subscript value index)
    if let some opening ← spelled "!(" then
      if opening.start != value.span.stop then return none
      let args ← many (ofKind .macroParam)
      if !(← accepts ")") then return none
      return ← node start (.macroCall value (args.map Token.text))
    match ← oneOf [("??", true), ("?", false)] with
    | some detailed => node start (.help value detailed)
    | none => return none

/-- An atomic expression and all that follows it. -/
def postfixExprRule : Match (Option Expr) := do
  let start ← mark
  if let some value ← postfixExpr then
    if let some longer ← inBrackets (trailer start value) then return some longer
  reset start
  atomicExpr

end ShellSyntax.Language
