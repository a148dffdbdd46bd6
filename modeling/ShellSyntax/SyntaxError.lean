import ShellSyntax.LexError
import ShellSyntax.Text.Lines

/-! Errors as the user sees them: what is wrong, where, and the line it is on. -/

namespace ShellSyntax

inductive ErrorKind where
  | syntactic
  | indentation
  | lexical
deriving DecidableEq, Repr, Inhabited

namespace ErrorKind

def label : ErrorKind → String
  | syntactic => "SyntaxError"
  | indentation => "IndentationError"
  | lexical => "TokenizeError"

def all : List ErrorKind :=
  [syntactic, indentation, lexical]

def ofLabel? (label : String) : Option ErrorKind :=
  all.find? fun kind => kind.label == label

end ErrorKind

structure SyntaxError where
  kind : ErrorKind
  message : String
  filename : String
  start : Position
  stop : Position
  lineText : String
deriving DecidableEq, Repr, Inhabited

namespace SyntaxError

/-- The error on one line; columns count from one here. -/
def describe (e : SyntaxError) : String :=
  s!"File \"{e.filename}\", line {e.start.line}, column {e.start.column + 1}: {e.message}"

/-- How many characters of the line are marked. -/
def markWidth (e : SyntaxError) : Nat :=
  if e.stop.line = e.start.line ∧ e.start.column < e.stop.column then
    e.stop.column - e.start.column
  else 1

def repeated (c : Char) (count : Nat) : String :=
  String.ofList (List.replicate count c)

/-- The error, followed by its line with a mark under the range if the line is known. -/
def render (e : SyntaxError) : String :=
  let headline := e.kind.label ++ ": " ++ e.describe
  match Text.withoutTerminator e.lineText.toList with
  | [] => headline
  | line =>
    headline ++ "\n    " ++ String.ofList line ++ "\n    " ++ repeated ' ' e.start.column ++
      repeated '^' e.markWidth

/-- The error of a source without tokens. It is placed at `otherwise` if the lexer names no
place. -/
def ofLexError (e : LexError) (filename : String) (otherwise : Position) (lineText : String) :
    SyntaxError :=
  let place := e.position?.getD otherwise
  ⟨if e.isIndentation then .indentation else .lexical, e.message, filename, place, place, lineText⟩

end SyntaxError

end ShellSyntax
