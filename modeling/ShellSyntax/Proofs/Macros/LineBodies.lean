import ShellSyntax.Proofs.Macros.BlockBodies
import ShellSyntax.Proofs.Macros.BracketScan

/-!
Raw bodies on the line of their colon. The body is the rest of the line and the lines over which it
goes on, as they stand in the text. It ends where the lexer would have ended the line, as far as the
scan for open brackets sees what the lexer sees.
-/

namespace ShellSyntax.Lexer

open Outcome
open Text
open Lexeme (isLineBreak)

variable {l l' m n : Lexer} {first : List Char} {line : List Char}
  {lines body below : List (List Char)} {unread : Source}

/-! ### Where a body ends -/

end ShellSyntax.Lexer
