import ShellSyntax.LexError

/-!
Open brackets. Brackets of the host language, of commands and of macros share one stack, since
they close in the reverse of the order in which they open, whatever they hold.
-/

namespace ShellSyntax

/-- Which rules cut the text inside a bracket into tokens. -/
inductive Realm where
  /-- Expressions. -/
  | host
  /-- Words of a command. -/
  | command
  /-- Raw text. -/
  | raw
deriving DecidableEq, Repr, Inhabited

inductive Opener where
  | paren
  | square
  | brace
  /-- A dollar sign before a parenthesis: the output of a command. -/
  | dollarParen
  | dollarSquare
  | dollarBrace
  | bangParen
  | bangSquare
  | atParen
  | atDollarParen
deriving DecidableEq, Repr, Inhabited

namespace Opener

def spelling : Opener → String
  | paren => "("
  | square => "["
  | brace => "\x7b"
  | dollarParen => "$("
  | dollarSquare => "$["
  | dollarBrace => "$\x7b"
  | bangParen => "!("
  | bangSquare => "!["
  | atParen => "@("
  | atDollarParen => "@$("

def all : List Opener :=
  [paren, square, brace, dollarParen, dollarSquare, dollarBrace, bangParen, bangSquare, atParen,
    atDollarParen]

def ofSpelling? (spelling : String) : Option Opener :=
  all.find? fun opener => opener.spelling == spelling

theorem ofSpelling?_spelling (opener : Opener) : ofSpelling? opener.spelling = some opener := by
  cases opener <;> decide

def closer : Opener → Char
  | paren | dollarParen | bangParen | atParen | atDollarParen => ')'
  | square | dollarSquare | bangSquare => ']'
  | brace | dollarBrace => '\x7d'

/-- Inside plain brackets the rules of the surrounding text hold on. -/
def inside (opener : Opener) (current : Realm) : Realm :=
  match opener with
  | paren | square | brace => current
  | atParen | dollarBrace => .host
  | dollarParen | dollarSquare | bangParen | bangSquare | atDollarParen => .command

/-- The plain bracket that a character opens. -/
def plain? : Char → Option Opener
  | '(' => some paren
  | '[' => some square
  | '\x7b' => some brace
  | _ => none

end Opener

structure Bracket where
  opener : Opener
  holds : Realm
  position : Position
deriving DecidableEq, Repr, Inhabited

def Bracket.closer (b : Bracket) : Char :=
  b.opener.closer

/-- Where `opener` stands in text of the kind `current`. -/
def Bracket.opened (opener : Opener) (current : Realm) (position : Position) : Bracket :=
  ⟨opener, opener.inside current, position⟩

/-- The open brackets, the innermost first. -/
abbrev BracketStack := List Bracket

namespace BracketStack

/-- The kind of text that the next character belongs to. -/
def realm (stack : BracketStack) : Realm :=
  match stack with
  | [] => .host
  | top :: _ => top.holds

def inCommand (stack : BracketStack) : Bool :=
  realm stack == .command

def depth (stack : BracketStack) : Nat :=
  stack.length

/-- The innermost bracket and the rest, if `closer` closes it. -/
def close (stack : BracketStack) (closer : Char) (position : Position) :
    Except LexError (Bracket × BracketStack) :=
  match stack with
  | [] => .error (.unmatchedCloser closer position)
  | top :: rest =>
    if top.closer = closer then .ok (top, rest)
    else .error (.mismatchedBracket closer top.opener.spelling position)

end BracketStack

end ShellSyntax
