import ShellSyntax.Parser.Run

/-!
A small grammar with one rule for each thing that a grammar can do: grow to the left, try
alternatives and cut them, repeat, insist, look for mistakes, nest, and share a name.
-/

namespace ShellSyntax.Sample

inductive Rule where
  | diff
  | item
  | line
  | chain
  | list
  | forced
  | reenter
  | clash
  | clashLength
  | clashText
  | diag
  | deep
  | emptyRepeat
deriving DecidableEq, Repr

namespace Rule

abbrev Node : Rule → Type
  | clashLength => Nat
  | diff | item | line | chain | list | forced | reenter | clash | clashText | diag | deep
  | emptyRepeat => String

def name : Rule → String
  | diff => "diff"
  | item => "item"
  | line => "line"
  | chain => "chain"
  | list => "list"
  | forced => "forced"
  | reenter => "reenter"
  | clash => "clashing"
  | clashLength | clashText => "clash"
  | diag => "diag"
  | deep => "deep"
  | emptyRepeat => "empty_repeat"

def policy : Rule → Policy
  | diff | chain => .leftRecursive
  | item | list | reenter | clashLength | clashText => .packrat
  | line | forced | clash | diag | deep | emptyRepeat => .direct

def all : List Rule :=
  [diff, item, line, chain, list, forced, reenter, clash, clashLength, clashText, diag, deep,
    emptyRepeat]

end Rule

abbrev rules : RuleSet where
  Rule := Rule
  Node := Rule.Node
  decEq := inferInstance
  name := Rule.name
  policy := Rule.policy
  count := Rule.all.length

open Matcher

abbrev Match := Matcher rules

def call (rule : Rule) : Match (Option rule.Node) :=
  @Matcher.rule rules rule

def nameText : Match (Option String) := do
  return (← name).map Token.text

def numberText : Match (Option String) := do
  return (← ofKind .number).map Token.text

/-- A difference of `left` and `right`, or `right` alone. -/
def difference (left right : Match (Option String)) : Match (Option String) := do
  let start ← mark
  if let some a ← left then
    if ← accepts "-" then
      if let some b ← right then return some s!"({a}-{b})"
  reset start
  right

def attemptOf {α : Type} (inner : Match (Option α)) : Match (Attempt α) := do
  match ← inner with
  | some value => return .matched value
  | none => return .failed

/-- A difference in parentheses; behind the parenthesis nothing else is tried. -/
def group : Match (Attempt String) := do
  if !(← accepts "(") then return .failed
  let some inner ← call .diff | return .refused
  if !(← accepts ")") then return .refused
  return .matched inner

def itemBody : Match (Option String) :=
  firstOf
    [attemptOf numberText, group, attemptOf nameText,
      attemptOf do return (← spelled "(").map Token.text]

def lineBody : Match (Option String) := do
  let some text ← call .diff | return none
  if !(← acceptsKind .newline) then return none
  return some text

def listBody : Match (Option String) := do
  if !(← accepts "[") then return none
  let some items ← separated "," (call .diff) | return none
  let _ ← accepts ","
  if !(← accepts "]") then return none
  return some (" ".intercalate items)

def forcedBody : Match (Option String) := do
  let some id ← nameText | return none
  let _ ← forced (← spelled ":") "':'"
  return some id

def reenterBody : Match (Option String) := do
  let start ← mark
  if let some left ← call .reenter then
    if let some id ← nameText then return some s!"{left}.{id}"
  reset start
  nameText

def clashBody : Match (Option String) := do
  let start ← mark
  let _ ← call .clashLength
  reset start
  call .clashText

/-- The mistake that the rule looks for: a name. -/
def rejectName : Match Unit := do
  let start ← mark
  if let some token ← name then
    let kind := if token.text.startsWith "i" then ErrorKind.indentation else .syntactic
    raise kind s!"names are not allowed: {token.text}" (.range token.start token.stop)
  reset start

def diagBody : Match (Option String) := do
  if ← isDiagnosing then rejectName
  let some text ← numberText | return none
  if !(← acceptsKind .newline) then return none
  return some text

def deepBody : Match (Option String) :=
  inBrackets do
    if !(← accepts "(") then return ← nameText
    let some inner ← call .deep | return none
    if !(← accepts ")") then return none
    return some s!"<{inner.utf8ByteSize}>"

def flags (values : List Bool) : String :=
  "[" ++ ", ".intercalate (values.map fun b => if b then "true" else "false") ++ "]"

def emptyRepeatBody : Match (Option String) := do
  let commas ← many do return some (← accepts ",")
  let some id ← nameText | return none
  return some s!"{flags commas} {id}"

def body : (rule : Rule) → Match (Option rule.Node)
  | .diff => difference (call .diff) (call .item)
  | .item => itemBody
  | .line => lineBody
  | .chain => difference (call .chain) numberText
  | .list => listBody
  | .forced => forcedBody
  | .reenter => reenterBody
  | .clash => clashBody
  | .clashLength => do return (← name).map fun token => token.text.utf8ByteSize
  | .clashText => nameText
  | .diag => diagBody
  | .deep => deepBody
  | .emptyRepeat => emptyRepeatBody

def grammar : Grammar rules where
  body := body

/-- The rules that yield text, under the names by which they are asked for. -/
def textRule? (name : String) : Option { rule : Rule // rule.Node = String } :=
  match name with
  | "diff" => some ⟨.diff, rfl⟩
  | "item" => some ⟨.item, rfl⟩
  | "line" => some ⟨.line, rfl⟩
  | "chain" => some ⟨.chain, rfl⟩
  | "list" => some ⟨.list, rfl⟩
  | "forced" => some ⟨.forced, rfl⟩
  | "reenter" => some ⟨.reenter, rfl⟩
  | "clash" => some ⟨.clash, rfl⟩
  | "diag" => some ⟨.diag, rfl⟩
  | "deep" => some ⟨.deep, rfl⟩
  | "empty_repeat" => some ⟨.emptyRepeat, rfl⟩
  | _ => none

abbrev SampleSession := Session rules

def session (source : String) (filename : String) (traceLimit : Option Nat) : SampleSession :=
  .ofStream (.ofString source Lexer.defaultTabSize) filename traceLimit

/-- Runs a rule that yields text. -/
def run (rule : { rule : Rule // rule.Node = String }) : Parse rules (Option String) :=
  rule.2 ▸ Parser.runRule grammar rule.1

/-- Parses a whole source by a rule that yields text. -/
def parse (rule : { rule : Rule // rule.Node = String }) (s : SampleSession) :
    Except SyntaxError String × SampleSession :=
  rule.2 ▸ Parser.parse grammar rule.1 s

end ShellSyntax.Sample
