import ShellSyntax.LexError
import ShellSyntax.Text.Lines

/-! Where the lexer's lines come from. -/

namespace ShellSyntax

/-- One physical line with its terminator, or bytes that are no text. -/
inductive SourceLine where
  | text (chars : List Char)
  | undecodable
deriving DecidableEq, Repr, Inhabited

namespace SourceLine

def read : SourceLine → Except LexError (List Char)
  | text chars => .ok chars
  | undecodable => .error .undecodable

def size : SourceLine → Nat
  | text chars => chars.length
  | undecodable => 0

end SourceLine

/-- The lines that are still to be read. -/
abbrev Source := List SourceLine

namespace Source

def ofText (text : List Char) : Source :=
  (Text.splitLines text).map .text

def ofString (text : String) : Source :=
  ofText text.toList

/-- Cuts after every line feed byte. -/
def splitBytes : List UInt8 → List (List UInt8)
  | [] => []
  | b :: rest =>
    if b = 10 then [b] :: splitBytes rest
    else
      match splitBytes rest with
      | [] => [[b]]
      | line :: lines => (b :: line) :: lines

def decodeLine (bytes : List UInt8) : SourceLine :=
  match String.fromUTF8? ⟨bytes.toArray⟩ with
  | some text => .text text.toList
  | none => .undecodable

/-- The lines of a file: each is decoded on its own. -/
def ofBytes (bytes : List UInt8) : Source :=
  (splitBytes bytes).map decodeLine

/-- The lines up to the first that cannot be read, and whether there is one. -/
def readAll (source : Source) : List (List Char) × Option LexError :=
  match source with
  | [] => ([], none)
  | line :: rest =>
    match line.read with
    | .error e => ([], some e)
    | .ok chars =>
      let (lines, failure) := readAll rest
      (chars :: lines, failure)

/-- The lines of a source that can be read to its end. -/
def lines? (source : Source) : Except LexError (List (List Char)) :=
  match readAll source with
  | (lines, none) => .ok lines
  | (_, some e) => .error e

end Source

end ShellSyntax
