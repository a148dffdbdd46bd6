import ShellSyntax.Position

/-! Ways in which a source has no tokens. -/

namespace ShellSyntax

inductive LexError where
  /-- A quoted string that its line or the source ends too early. -/
  | unterminatedString (place : Position)
  | unterminatedFString (place : Position)
  | unterminatedSearchPath (place : Position)
  /-- The source ends where a statement goes on. -/
  | endInStatement (place : Position)
  /-- A closer that does not fit the innermost open bracket. -/
  | mismatchedBracket (found : Char) (opener : String) (place : Position)
  /-- A closer with nothing open. -/
  | unmatchedCloser (found : Char) (place : Position)
  | unclosedBracket (opener : String) (place : Position)
  /-- A line indented to a column that no open block has. -/
  | badDedent (place : Position)
  | expectedBlock (place : Position)
  /-- A line whose bytes are no text. -/
  | undecodable
  | missingFile
deriving DecidableEq, Repr

namespace LexError

def position? : LexError → Option Position
  | unterminatedString p | unterminatedFString p | unterminatedSearchPath p | endInStatement p
  | mismatchedBracket _ _ p | unmatchedCloser _ p | unclosedBracket _ p | badDedent p
  | expectedBlock p => some p
  | undecodable | missingFile => none

def isIndentation : LexError → Bool
  | badDedent _ | expectedBlock _ => true
  | _ => false

/-- What the system says of a source that cannot be read. -/
def reason : LexError → String
  | missingFile => "No such file or directory (os error 2)"
  | _ => "stream did not contain valid UTF-8"

def message : LexError → String
  | unterminatedString p => s!"unterminated string literal (detected at line {p.line})"
  | unterminatedFString p => s!"unterminated f-string literal (detected at line {p.line})"
  | unterminatedSearchPath _ => "unterminated search path literal"
  | endInStatement _ => "unexpected EOF in multi-line statement"
  | mismatchedBracket found opener _ =>
    s!"closing parenthesis '{found}' does not match opening parenthesis '{opener}'"
  | unmatchedCloser found _ => s!"unmatched '{found}'"
  | unclosedBracket opener _ => s!"'{opener}' was never closed"
  | badDedent _ => "unindent does not match any outer indentation level"
  | expectedBlock _ => "expected an indented block after 'with!' statement"
  | undecodable => "error reading source: " ++ undecodable.reason
  | missingFile => "error reading source: " ++ missingFile.reason

end LexError

end ShellSyntax
