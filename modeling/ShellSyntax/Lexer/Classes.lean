import ShellSyntax.Text.Alphanumeric
import ShellSyntax.Text.Lines

/-! Classes of characters and the extents of lexemes at the start of a text. -/

namespace ShellSyntax.Lexeme

/-- White space inside a line. -/
def isSpace (c : Char) : Bool :=
  c == ' ' || c == '\t' || c == '\x0c'

def isLineBreak (c : Char) : Bool :=
  c == '\n' || c == '\r'

def startsName (c : Char) : Bool :=
  c == '_' || Text.isAlphabetic c

def continuesName (c : Char) : Bool :=
  c == '_' || Text.isAlphanumeric c

/-- The line ends here. A carriage return alone ends it only as its last character. -/
def atLineEnd : List Char → Bool
  | [] => true
  | '\n' :: _ => true
  | ['\r'] => true
  | '\r' :: '\n' :: _ => true
  | _ => false

/-- The length of a line up to its terminator. -/
def contentLength (text : List Char) : Nat :=
  (Text.withoutTerminator text).length

/-- A backslash stands right before the terminator. -/
def isContinued (text : List Char) : Bool :=
  let content := Text.withoutTerminator text
  content.length < text.length && content.getLast? == some '\\'

/-! ### Indentation -/

/-- Columns of indentation are machine words, which are below this. -/
def wordSize : Nat := UInt64.size

/-- The column after one more character of indentation: a tab moves to the next multiple of
`tabSize`, a form feed back to the start. -/
def nextColumn (tabSize column : Nat) (c : Char) : Nat :=
  if c = '\t' then (column / tabSize + 1) * tabSize
  else if c = '\x0c' then 0
  else column + 1

/-- The next column as a machine word: one that does not fit wraps around. -/
def widen (tabSize column : Nat) (c : Char) : Nat :=
  nextColumn tabSize column c % wordSize

def indentWidth (tabSize : Nat) (text : List Char) : Nat :=
  (text.takeWhile isSpace).foldl (widen tabSize) 0

/-- A column behind some part of `margin`, which starts at `column`, does not fit its word. -/
def overruns (tabSize : Nat) : (column : Nat) → (margin : List Char) → Bool
  | _, [] => false
  | column, c :: margin =>
    wordSize ≤ nextColumn tabSize column c || overruns tabSize (widen tabSize column c) margin

/-- A column of the indentation of `text` does not fit its word. -/
def indentOverruns (tabSize : Nat) (text : List Char) : Bool :=
  overruns tabSize 0 (text.takeWhile isSpace)

/-- Nothing but white space, or a comment. -/
def isIdleLine (text : List Char) : Bool :=
  match Text.trim text with
  | [] => true
  | c :: _ => c == '#'

/-! ### Numbers -/

def digitRun (text : List Char) : Nat :=
  (text.takeWhile fun c => c.isDigit || c == '_').length

def isHexDigit (c : Char) : Bool :=
  c.isDigit || 'a' ≤ c && c ≤ 'f' || 'A' ≤ c && c ≤ 'F'

def fractionRun : List Char → Nat
  | '.' :: rest => digitRun rest + 1
  | _ => 0

def signRun : List Char → Nat
  | c :: _ => if c == '+' || c == '-' then 1 else 0
  | [] => 0

def exponentRun : List Char → Nat
  | c :: rest =>
    if c == 'e' || c == 'E' then
      let digits := rest.drop (signRun rest)
      if (digits.takeWhile Char.isDigit).isEmpty then 0 else 1 + signRun rest + digitRun digits
    else 0
  | [] => 0

def imaginaryRun : List Char → Nat
  | c :: _ => if c == 'j' || c == 'J' then 1 else 0
  | [] => 0

/-- A zero and the letter of a base. -/
def startsRadix : List Char → Bool
  | '0' :: c :: _ => ['x', 'X', 'o', 'O', 'b', 'B'].contains c
  | _ => false

def numberLength (text : List Char) : Nat :=
  if startsRadix text then
    2 + ((text.drop 2).takeWhile fun c => isHexDigit c || c == '_').length
  else
    let whole := digitRun text
    let fraction := whole + fractionRun (text.drop whole)
    let exponent := fraction + exponentRun (text.drop fraction)
    exponent + imaginaryRun (text.drop exponent)

def startsNumber : List Char → Bool
  | '.' :: c :: _ => c.isDigit
  | c :: _ => c.isDigit
  | [] => false

/-! ### Words of a command -/

/-- Whether `c`, followed by `rest`, ends the word before it. -/
def endsWord (c : Char) (rest : List Char) : Bool :=
  match c with
  | '$' =>
    match rest with
    | next :: _ => startsName next || ['(', '[', '\x7b'].contains next
    | [] => false
  | '@' =>
    match rest with
    | '(' :: _ => true
    | '$' :: '(' :: _ => true
    | _ => false
  | c =>
    isSpace c || isLineBreak c ||
      ['\'', '"', '\x60', '(', ')', '[', ']', '\x7b', '\x7d', '|', '&', '<', '>', '!'].contains c

def wordLength : List Char → Nat
  | [] => 0
  | c :: rest => if endsWord c rest then 0 else wordLength rest + 1

/-! ### Path searches -/

/-- The length of the letters before a search and of its first backtick. -/
def searchOpening? (text : List Char) : Option Nat :=
  let letters :=
    match text with
    | '@' :: rest => 1 + (rest.takeWhile continuesName).length
    | _ => (text.takeWhile fun c => ['r', 'g', 'p', 'f'].contains c).length
  if (text.drop letters).head? = some '\x60' then some (letters + 1) else none

/-- The length of a search up to its last backtick, from behind the first. -/
def searchEnd? : List Char → Option Nat
  | [] => none
  | ['\\'] => none
  | '\\' :: _ :: rest => (searchEnd? rest).map (· + 2)
  | c :: rest =>
    if c == '\x60' then some 1
    else if isLineBreak c then none
    else (searchEnd? rest).map (· + 1)

/-! ### Brackets in raw text -/

/-- How many brackets `text` leaves open, outside quotes and before any comment. `quote` is the
quote that is open at its start. -/
def bracketBalance : Option Char → List Char → Int
  | _, [] => 0
  | some _, ['\\'] => 0
  | some q, '\\' :: _ :: rest => bracketBalance (some q) rest
  | some q, c :: rest => bracketBalance (if c = q then none else some q) rest
  | none, c :: rest =>
    if c == '\'' || c == '"' then bracketBalance (some c) rest
    else if ['(', '[', '\x7b'].contains c then bracketBalance none rest + 1
    else if [')', ']', '\x7d'].contains c then bracketBalance none rest - 1
    else if c == '#' then 0
    else bracketBalance none rest

end ShellSyntax.Lexeme
