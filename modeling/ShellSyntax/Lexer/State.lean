import ShellSyntax.Bracket
import ShellSyntax.Lexer.Quote
import ShellSyntax.Source
import ShellSyntax.Token

/-!
The state of the lexer: the lines to come, the cursor in the current line, and what is open
there: indentation, brackets, strings.
-/

namespace ShellSyntax

/-- A literal in whose middle the lexer is. -/
inductive LexMode where
  /-- A plain string that goes on over lines. -/
  | string (quote : Quote) (text : String) (start : Position) (line : String)
  /-- The literal text of an f-string. -/
  | fstringText (quote : Quote) (text : String) (start : Position)
  /-- A replacement field; `depth` counts the open brackets, its own brace included. -/
  | fstringField (depth : Nat)
  /-- The format specification of a field. -/
  | fstringSpec (text : String) (start : Position)
deriving DecidableEq, Repr

/-- What is remembered of the token before the cursor, to tell where a macro starts. -/
structure PrecedingToken where
  stop : Position
  /-- A name that can be called. -/
  isCallable : Bool
  /-- The word that may start a statement with a raw body. -/
  isLeadingWith : Bool
deriving DecidableEq, Repr

structure Lexer where
  unread : Source
  /-- The current line from the cursor on. -/
  rest : List Char
  /-- The current line. -/
  lineText : String
  lineNumber : Nat
  column : Nat
  /-- Indentation of the open blocks, the innermost first. -/
  indents : List Nat
  brackets : BracketStack
  /-- The literals around the cursor, the innermost first. -/
  modes : List LexMode
  /-- The line before ended in a backslash. -/
  continued : Bool
  /-- Tokens found and not yet handed out. -/
  pending : List Token
  lastSignificant : Option TokenKind
  tabSize : Nat
  finished : Bool
  recent : Option PrecedingToken
  /-- Tokens so far on the logical line. -/
  lineTokens : Nat
  /-- Between the head of a statement with a raw body and its colon. -/
  withHeader : Bool
  /-- No more tokens than this come from the source, and no scan takes more steps. -/
  bound : Nat
  /-- A column of indentation did not fit its word. A build that checks for overflow stops
  there. -/
  overflowed : Bool
deriving Repr

/-- Lexing steps may fail; the state they reached stays. -/
abbrev Lex := EStateM LexError Lexer

namespace Lexer

def defaultTabSize : Nat := 8

/-- A source of `n` characters in `k` lines has fewer tokens than this. -/
def tokenBound (source : Source) : Nat :=
  4 * (source.foldl (fun total line => total + line.size + 1) 0) + 8

def ofSource (source : Source) (tabSize : Nat) : Lexer where
  unread := source
  rest := []
  lineText := ""
  lineNumber := 0
  column := 0
  indents := [0]
  brackets := []
  modes := []
  continued := false
  pending := []
  lastSignificant := none
  tabSize := max tabSize 1
  finished := false
  recent := none
  lineTokens := 0
  withHeader := false
  bound := tokenBound source
  overflowed := false

def here (l : Lexer) : Position :=
  ⟨l.lineNumber, l.column⟩

/-- Just past the last line. -/
def sourceEnd (l : Lexer) : Position :=
  ⟨l.lineNumber + 1, 0⟩

def lineEnd (l : Lexer) : Position :=
  ⟨l.lineNumber, l.column + l.rest.length⟩

def indent (l : Lexer) : Nat :=
  l.indents.head?.getD 0

def advance (l : Lexer) (count : Nat) : Lexer :=
  { l with rest := l.rest.drop count, column := l.column + count }

def skipLine (l : Lexer) : Lexer :=
  l.advance l.rest.length

/-- Makes `text` the current line. -/
def enterLine (l : Lexer) (text : List Char) : Lexer :=
  { l with
    rest := text
    lineText := String.ofList text
    lineNumber := l.lineNumber + 1
    column := 0 }

/-- Notes whether the indentation of `text` can be measured. -/
def measure (l : Lexer) (text : List Char) : Lexer :=
  { l with overflowed := l.overflowed || Lexeme.indentOverruns l.tabSize text }

/-- What a token leaves behind for the tokens after it. -/
def remember (l : Lexer) (kind : TokenKind) (text : String) (stop : Position) : Lexer :=
  if kind.isFiller then l
  else
    let recent : PrecedingToken :=
      ⟨stop, kind == .name && !Spelling.isKeyword text,
        kind == .name && text == "with" && l.lineTokens == 0⟩
    let l := { l with lastSignificant := some kind, recent := some recent }
    match kind with
    | .newline => { l with lineTokens := 0, withHeader := false }
    | .indent | .dedent => l
    | _ => { l with lineTokens := l.lineTokens + 1 }

def push (l : Lexer) (token : Token) : Lexer :=
  { l with pending := l.pending ++ [token] }

def addToken (l : Lexer) (kind : TokenKind) (text : String) (start stop : Position) : Lexer :=
  (l.remember kind text stop).push ⟨kind, text, start, stop, l.lineText⟩

/-- Makes the next `count` characters a token. -/
def take (l : Lexer) (kind : TokenKind) (count : Nat) : Lexer :=
  let next := l.advance count
  { l.addToken kind (String.ofList (l.rest.take count)) l.here next.here with
    rest := next.rest, column := next.column }

def takeRest (l : Lexer) (kind : TokenKind) : Lexer :=
  l.take kind l.rest.length

def takeWhile (l : Lexer) (kind : TokenKind) (belongs : Char → Bool) : Lexer :=
  l.take kind (l.rest.takeWhile belongs).length

def pushMode (l : Lexer) (mode : LexMode) : Lexer :=
  { l with modes := mode :: l.modes }

def pushBracket (l : Lexer) (bracket : Bracket) : Lexer :=
  { l with brackets := bracket :: l.brackets }

/-- The cursor is in a replacement field and in none of its brackets. -/
def atFieldLevel (l : Lexer) : Bool :=
  match l.modes with
  | .fstringField depth :: _ => depth == l.brackets.depth
  | _ => false

/-- The failure of a source that ends inside a bracket. -/
def unclosedError (l : Lexer) : LexError :=
  match l.brackets with
  | top :: _ => .unclosedBracket top.opener.spelling top.position
  | [] => .endInStatement l.here

/-- The next line, off the source. -/
def takeLine : Lex (Option (List Char)) := do
  let l ← get
  match l.unread with
  | [] => return none
  | line :: unread =>
    set { l with unread }
    match line.read with
    | .ok text => return some text
    | .error e => throw e

/-- Goes to the next line, if there is one, without looking at its indentation. -/
def enterNextLine : Lex Bool := do
  match ← takeLine with
  | some text =>
    modify fun l => l.enterLine text
    return true
  | none => return false

def closeBracket (closer : Char) : Lex Unit := do
  let l ← get
  match l.brackets.close closer l.here with
  | .ok (_, brackets) => set { l with brackets }
  | .error e => throw e

end Lexer

end ShellSyntax
