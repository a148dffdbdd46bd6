import ShellSyntax.Position
import ShellSyntax.Text.Quoted

/-!
Tokens: a kind, the text, the place, and the line on which the token starts. Operators and keywords
have fixed spellings.
-/

namespace ShellSyntax

inductive TokenKind where
  | endMarker
  | name
  | number
  | string
  | newline
  | indent
  | dedent
  | op
  | fstringStart
  | fstringMiddle
  | fstringEnd
  | error
  | comment
  /-- A line break that ends no statement. -/
  | nl
  /-- A search between backticks, with the letters before it. -/
  | pathSearch
  /-- Raw text captured for a macro. -/
  | macroParam
  | space
  /-- A bare argument of a command. -/
  | word
deriving DecidableEq, Repr, Inhabited

namespace TokenKind

def label : TokenKind → String
  | endMarker => "ENDMARKER"
  | name => "NAME"
  | number => "NUMBER"
  | string => "STRING"
  | newline => "NEWLINE"
  | indent => "INDENT"
  | dedent => "DEDENT"
  | op => "OP"
  | fstringStart => "FSTRING_START"
  | fstringMiddle => "FSTRING_MIDDLE"
  | fstringEnd => "FSTRING_END"
  | error => "ERRORTOKEN"
  | comment => "COMMENT"
  | nl => "NL"
  | pathSearch => "SEARCH_PATH"
  | macroParam => "MACRO_PARAM"
  | space => "WS"
  | word => "WORD"

def all : List TokenKind :=
  [endMarker, name, number, string, newline, indent, dedent, op, fstringStart, fstringMiddle,
    fstringEnd, error, comment, nl, pathSearch, macroParam, space, word]

def ofLabel? (label : String) : Option TokenKind :=
  all.find? fun kind => kind.label == label

theorem ofLabel?_label (kind : TokenKind) : ofLabel? kind.label = some kind := by
  cases kind <;> decide

/-- Tokens that shape the program without being part of any of its constructs. -/
def isLayout : TokenKind → Bool
  | endMarker | newline | indent | dedent => true
  | _ => false

/-- Tokens between the words of the program. -/
def isFiller : TokenKind → Bool
  | space | nl | comment => true
  | _ => false

end TokenKind

structure Token where
  kind : TokenKind
  text : String
  start : Position
  stop : Position
  /-- The physical line on which the token starts. -/
  line : String
deriving DecidableEq, Repr, Inhabited

namespace Token

/-- An operator spelled `text`. -/
def isOp (t : Token) (text : String) : Bool :=
  t.kind == .op && t.text == text

/-- Nothing stands between `before` and this token. -/
def touches (t before : Token) : Bool :=
  before.stop == t.start

def span (t : Token) : Span :=
  ⟨t.start, t.stop⟩

/-- The end of the source after `lines` lines. -/
def endMarker (lines : Nat) : Token :=
  ⟨.endMarker, "", ⟨lines + 1, 0⟩, ⟨lines + 1, 0⟩, ""⟩

def describe (t : Token) : String :=
  s!"<{t.kind.label}>({Text.quoted t.text}) at {t.start.line}"

end Token

end ShellSyntax

/-! ### Spellings -/

namespace ShellSyntax.Spelling

/-- Every operator, the longest first, so that no operator hides a longer one. -/
def operators : List String := [
    "@$(", "**=", "//=", ">>=", "<<=", "...", "!=", "%=", "&=", "**", "*=", "+=", "-=", "->", "//",
    "/=", ":=", "<<", "<=", "==", ">=", ">>", "@=", "^=", "|=", "??", "||", "&&", "@(", "!(", "![",
    "$(", "$[", "$\x7b", ">&", "%", "&", "(", ")", "*", "+", ",", "-", ".", "/", ":", ";", "<", "=",
    ">", "@", "[", "]", "^", "\x7b", "|", "\x7d", "~", "!", "$", "?"]

/-- Operators that keep their meaning between the words of a command. All else there is text. -/
def commandOperators : List String := [
    "@$(", "$(", "$[", "$\x7b", "![", "!(", "@(", "!=", "||", "&&", ">>", ">&", "|", "&", ">", "<",
    "!", "(", ")", "[", "]", "\x7b", "\x7d"]

def keywords : List String := [
    "False", "None", "True", "and", "as", "assert", "async", "await", "break", "class",
    "continue", "def", "del", "elif", "else", "except", "finally", "for", "from", "global", "if",
    "import", "in", "is", "lambda", "nonlocal", "not", "or", "pass", "raise", "return", "try",
    "while", "with", "yield"]

def isKeyword (text : String) : Bool :=
  keywords.contains text

/-- The first entry of `table` with which `text` starts. -/
def firstMatch (table : List String) (text : List Char) : Option String :=
  table.find? fun spelling => !spelling.isEmpty && spelling.toList.isPrefixOf text

end ShellSyntax.Spelling
