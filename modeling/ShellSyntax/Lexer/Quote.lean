import ShellSyntax.Lexer.Classes

/-! Quotes of string literals and the letters before them. -/

namespace ShellSyntax

structure Quote where
  mark : Char
  triple : Bool
deriving DecidableEq, Repr, Inhabited

namespace Quote

def size (q : Quote) : Nat :=
  if q.triple then 3 else 1

/-- The quote that opens at the start of `text`. -/
def opening? : List Char → Option Quote
  | c :: rest =>
    if c == '\'' || c == '"' then some ⟨c, [c, c].isPrefixOf rest⟩ else none
  | [] => none

/-- The quote closes at the start of `text`. -/
def closes (q : Quote) (text : List Char) : Bool :=
  (List.replicate q.size q.mark).isPrefixOf text

/-- The length of `text` up to the end of the closing quote. A plain quote has to close before
the line ends. -/
def closingEnd? (q : Quote) : List Char → Option Nat
  | [] => none
  | ['\\'] => none
  | '\\' :: _ :: rest => (closingEnd? q rest).map (· + 2)
  | c :: rest =>
    if q.closes (c :: rest) then some q.size
    else if !q.triple && Lexeme.isLineBreak c then none
    else (closingEnd? q rest).map (· + 1)

end Quote

namespace StringLetters

/-- The letters that may stand before a quote, in lower case. -/
def spellings : List String :=
  ["", "b", "r", "u", "f", "p", "br", "rb", "fr", "rf", "pr", "rp", "fp", "pf"]

def lower (letters : List Char) : List Char :=
  letters.map Char.toLower

def isValid (letters : List Char) : Bool :=
  spellings.contains (String.ofList (lower letters))

def isFormatted (letters : List Char) : Bool :=
  (lower letters).contains 'f'

/-- The letters and the quote with which a string literal starts. -/
def opening? (text : List Char) : Option (List Char × Quote) :=
  let letters := text.takeWhile Lexeme.continuesName
  match Quote.opening? (text.drop letters.length) with
  | some quote => if isValid letters then some (letters, quote) else none
  | none => none

end StringLetters

end ShellSyntax
