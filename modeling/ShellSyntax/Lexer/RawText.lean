import ShellSyntax.Lexer.State

/-!
Raw text for macros: the arguments of a call, the rest of a command, the body of a statement.
None of it is cut into tokens, but its quotes and brackets are followed to find its end.
-/

namespace ShellSyntax

/-- Captured text without the white space around it. -/
structure RawText where
  text : String
  /-- White space that belongs to the text if more text follows. -/
  gap : String
  /-- Where the text starts and on which line, once there is any. -/
  origin : Option (Position × String)
  stop : Position
deriving DecidableEq, Repr

namespace RawText

/-- No text yet, at `place`. -/
def empty (place : Position) : RawText :=
  ⟨"", "", none, place⟩

def isBlank (raw : RawText) : Bool :=
  raw.origin.isNone

def push (raw : RawText) (c : Char) (place : Position) (line : String) : RawText :=
  if Text.isBlank c then
    if raw.isBlank then raw else { raw with gap := raw.gap.push c }
  else
    { text := (raw.text ++ raw.gap).push c
      gap := ""
      origin := some (raw.origin.getD (place, line))
      stop := ⟨place.line, place.column + 1⟩ }

/-- The captured text as a token; `line` is for text that is empty. -/
def toToken (raw : RawText) (line : String) : Token :=
  let (start, line) := raw.origin.getD (raw.stop, line)
  ⟨.macroParam, raw.text, start, raw.stop, line⟩

end RawText

namespace Lexer

def captureChar (raw : RawText) : Lex RawText := do
  let l ← get
  match l.rest with
  | [] => return raw
  | c :: _ =>
    set (l.advance 1)
    return raw.push c l.here l.lineText

def captureChars : Nat → RawText → Lex RawText
  | 0, raw => return raw
  | count + 1, raw => do captureChars count (← captureChar raw)

/-- Captures the rest of a string literal up to its closing quote, in at most `fuel` steps. -/
def captureQuoted (quote : Quote) (start : Position) : (fuel : Nat) → RawText → Lex RawText
  | 0, raw => return raw
  | fuel + 1, raw => do
    let l ← get
    match l.rest with
    | [] =>
      if !quote.triple then throw (.unterminatedString start)
      if !(← enterNextLine) then throw (.unterminatedString start)
      captureQuoted quote start fuel raw
    | c :: _ =>
      if c == '\\' then captureQuoted quote start fuel (← captureChars 2 raw)
      else if quote.closes l.rest then captureChars quote.size raw
      else if !quote.triple && Lexeme.isLineBreak c then throw (.unterminatedString start)
      else captureQuoted quote start fuel (← captureChar raw)

/-- Captures a string literal whole, so that nothing in it counts as a bracket. -/
def captureString (quote : Quote) (raw : RawText) : Lex RawText := do
  let l ← get
  captureQuoted quote l.here l.bound (← captureChars quote.size raw)

def followBracket (c : Char) : Lex Unit := do
  let l ← get
  if let some opener := Opener.plain? c then set (l.pushBracket ⟨opener, .raw, l.here⟩)
  else if [')', ']', '\x7d'].contains c then closeBracket c

/-- Captures the string literal or the character at the cursor. -/
def captureNext (raw : RawText) : Lex RawText := do
  let l ← get
  match Quote.opening? l.rest with
  | some quote => captureString quote raw
  | none =>
    if let c :: _ := l.rest then followBracket c
    captureChar raw

/-- Captures the arguments of a macro call, up to the parenthesis that closes it. Each argument
between the commas at bracket depth `base` becomes a token unless it is blank. -/
def captureArguments (base : Nat) : (fuel : Nat) → RawText → Lex Unit
  | 0, _ => return ()
  | fuel + 1, raw => do
    let l ← get
    match l.rest with
    | [] => if ← enterNextLine then captureArguments base fuel raw else throw l.unclosedError
    | c :: _ =>
      if l.brackets.depth == base && (c == ',' || c == ')') then
        let l := if raw.isBlank then l else l.push (raw.toToken l.lineText)
        if c == ')' then set { l with lastSignificant := some .macroParam }
        else
          set (l.advance 1)
          captureArguments base fuel (.empty l.here)
      else captureArguments base fuel (← captureNext raw)

/-- Captures the rest of a command as one token, up to the `closer` at bracket depth `base`. -/
def captureCommandRest (closer : Char) (base : Nat) : (fuel : Nat) → RawText → Lex Unit
  | 0, _ => return ()
  | fuel + 1, raw => do
    let l ← get
    match l.rest with
    | [] =>
      if ← enterNextLine then captureCommandRest closer base fuel raw else throw l.unclosedError
    | c :: _ =>
      if l.brackets.depth == base && c == closer then
        set { l.push (raw.toToken l.lineText) with lastSignificant := some .macroParam }
      else captureCommandRest closer base fuel (← captureNext raw)

def captureCall : Lex Unit := do
  let l ← get
  captureArguments l.brackets.depth l.bound (.empty l.here)

def captureCommand : Lex Unit := do
  let l ← get
  match l.brackets with
  | top :: _ => captureCommandRest top.closer l.brackets.depth l.bound (.empty l.here)
  | [] => throw l.unclosedError

/-! ### Statement bodies -/

def endCapturedLine (l : Lexer) : Lexer :=
  { l with lastSignificant := some .newline, lineTokens := 0 }

/-- Text that goes on over the line: a bracket is open, or a backslash ends it. -/
def goesOn (text : List Char) : Bool :=
  0 < Lexeme.bracketBalance none text ||
    (Text.withoutTerminator text).getLast? == some '\\'

/-- Adds further lines to `text` as long as it goes on. -/
def gatherLine : (fuel : Nat) → (text : List Char) → Lex (List Char)
  | 0, text => return text
  | fuel + 1, text => do
    if goesOn text then
      if !(← enterNextLine) then throw (.endInStatement (← get).lineEnd)
      gatherLine fuel (text ++ (← get).rest)
    else return text

/-- Captures a body that starts on the line of the colon, to the end of the logical line. -/
def captureLine : Lex Unit := do
  let l ← get
  let text ← gatherLine l.bound l.rest
  modify fun last =>
    (last.addToken .macroParam (String.ofList text) l.here last.lineEnd).skipLine.endCapturedLine

/-- The lines of a block indented deeper than `indent`, and the number of the first of them.
Blank lines belong to the block once it has started; the line after it stays unread. -/
def gatherBlock (indent : Nat) :
    (fuel : Nat) → List Char → Option Nat → Lex (List Char × Option Nat)
  | 0, text, first => return (text, first)
  | fuel + 1, text, first => do
    match ← takeLine with
    | none => return (text, first)
    | some line =>
      let l ← get
      if Lexeme.isIdleLine line then
        set (l.enterLine line)
        gatherBlock indent fuel (if first.isSome then text ++ line else text) first
      else if Lexeme.indentWidth l.tabSize line ≤ indent then
        set ({ l with unread := .text line :: l.unread }.measure line)
        return (text, first)
      else
        set ((l.measure line).enterLine line)
        gatherBlock indent fuel (text ++ line) (some (first.getD (l.lineNumber + 1)))

/-- Captures the block below the line of the colon, without its common indentation. -/
def captureBlock : Lex Unit := do
  modify Lexer.skipLine
  let l ← get
  match ← gatherBlock l.indent l.bound [] none with
  | (_, none) => throw (.expectedBlock (← get).sourceEnd)
  | (text, some first) =>
    modify fun last =>
      { last.addToken .macroParam (String.ofList (Text.dedent text)) ⟨first, 0⟩ last.lineEnd with
        rest := [], column := 0 }.endCapturedLine

def captureBody : Lex Unit := do
  let l ← get
  if Lexeme.isIdleLine l.rest then captureBlock else captureLine

end Lexer

end ShellSyntax
