import ShellSyntax.Lexer.State

/-! String literals: plain strings, f-strings with their fields, and path searches. -/

namespace ShellSyntax.Lexer

/-! ### Plain strings -/

/-- Starts the string literal at the cursor. One that does not end on its line goes on if its
quote is triple or a backslash continues the line. -/
def startString (letters : List Char) (quote : Quote) : Lex Unit := do
  let l ← get
  let opening := letters.length + quote.size
  if StringLetters.isFormatted letters then
    let l := l.take .fstringStart opening
    set (l.pushMode (.fstringText quote "" l.here))
  else
    match quote.closingEnd? (l.rest.drop opening) with
    | some length => set (l.take .string (opening + length))
    | none =>
      if quote.triple || Lexeme.isContinued l.rest then
        set (l.skipLine.pushMode (.string quote (String.ofList l.rest) l.here l.lineText))
      else throw (.unterminatedString l.here)

/-- Goes on with a plain string on a further line. -/
def resumeString (quote : Quote) (text : String) (start : Position) (line : String)
    (outer : List LexMode) : Lex Unit := do
  let l ← get
  match quote.closingEnd? l.rest with
  | some length =>
    let next := l.advance length
    set ({ next with modes := outer, lastSignificant := some .string }.push
      ⟨.string, text ++ String.ofList (l.rest.take length), start, next.here, line⟩)
  | none =>
    if quote.triple || Lexeme.isContinued l.rest then
      set { l.skipLine with
        modes := .string quote (text ++ String.ofList l.rest) start line :: outer }
    else throw (.unterminatedString start)

/-! ### Literal text of f-strings -/

def addText (modes : List LexMode) (more : String) : List LexMode :=
  match modes with
  | .fstringText quote text start :: outer => .fstringText quote (text ++ more) start :: outer
  | .fstringSpec text start :: outer => .fstringSpec (text ++ more) start :: outer
  | modes => modes

/-- Ends the literal text after `count` more characters; text that is not empty is a token. -/
def flushText (l : Lexer) (count : Nat) : Lexer :=
  let next := l.advance count
  let token (text : String) (start : Position) (modes : List LexMode) : Lexer :=
    let next := { next with modes }
    if text.isEmpty then next else next.addToken .fstringMiddle text start next.here
  match addText l.modes (String.ofList (l.rest.take count)) with
  | .fstringText quote text start :: outer =>
    token text start (.fstringText quote "" start :: outer)
  | .fstringSpec text start :: outer => token text start (.fstringSpec "" start :: outer)
  | _ => next

/-- Opens the replacement field whose brace stands `count` characters on. -/
def openField (l : Lexer) (count : Nat) : Lexer :=
  let l := l.flushText count
  let l := (l.take .op 1).pushBracket ⟨.brace, .host, l.here⟩
  l.pushMode (.fstringField l.brackets.depth)

/-- What ends a stretch of literal text. -/
inductive TextStop where
  /-- The line ends and the text goes on. -/
  | lineEnd
  | quote (count : Nat)
  | field (count : Nat)
  /-- The line ends where the text may not go on. -/
  | lineBreak (count : Nat)
deriving DecidableEq, Repr

/-- Where literal text ends, `count` characters of it being behind. Doubled braces are text. -/
def scanText (q : Quote) (count : Nat) : List Char → TextStop
  | [] => .lineEnd
  | ['\\'] => .lineEnd
  | '\\' :: c :: rest =>
    if Lexeme.atLineEnd (c :: rest) then .lineEnd else scanText q (count + 2) rest
  | '\x7b' :: '\x7b' :: rest => scanText q (count + 2) rest
  | '\x7d' :: '\x7d' :: rest => scanText q (count + 2) rest
  | c :: rest =>
    if q.closes (c :: rest) then .quote count
    else if c == '\x7b' then .field count
    else if !q.triple && Lexeme.isLineBreak c then .lineBreak count
    else scanText q (count + 1) rest

/-- Goes on with the literal text of an f-string. -/
def resumeText (quote : Quote) (text : String) (start : Position) (outer : List LexMode) :
    Lex Unit := do
  let before ← get
  let start := if text.isEmpty then before.here else start
  set { before with modes := .fstringText quote text start :: outer }
  let l ← get
  match scanText quote 0 l.rest with
  | .lineEnd => set { l.skipLine with modes := addText l.modes (String.ofList l.rest) }
  | .quote count =>
    set { (l.flushText count).take .fstringEnd quote.size with modes := outer }
  | .field count => set (l.openField count)
  | .lineBreak count => throw (.unterminatedFString (l.advance count).here)

/-- What ends a stretch of format specification. -/
inductive SpecStop where
  | field (count : Nat)
  | close (count : Nat)
  | broken (count : Nat)
deriving DecidableEq, Repr

/-- Where a format specification ends, `count` characters of it being behind. -/
def scanSpec (count : Nat) : List Char → SpecStop
  | [] => .broken count
  | ['\\'] => .broken (count + 1)
  | '\\' :: _ :: rest => scanSpec (count + 2) rest
  | c :: rest =>
    if c == '\x7b' then .field count
    else if c == '\x7d' then .close count
    else if Lexeme.isLineBreak c then .broken count
    else scanSpec (count + 1) rest

/-- Goes on with a format specification. The brace that ends it ends its field too. -/
def resumeSpec (text : String) (start : Position) (outer : List LexMode) : Lex Unit := do
  let before ← get
  let start := if text.isEmpty then before.here else start
  set { before with modes := .fstringSpec text start :: outer }
  let l ← get
  match scanSpec 0 l.rest with
  | .field count => set (l.openField count)
  | .close count =>
    set (l.flushText count)
    closeBracket '\x7d'
    modify fun l => { l.take .op 1 with modes := l.modes.drop 2 }
  | .broken count => throw (.unterminatedFString (l.advance count).here)

/-! ### Path searches -/

def scanSearch (opening : Nat) : Lex Unit := do
  let l ← get
  match Lexeme.searchEnd? (l.rest.drop opening) with
  | some length => set (l.take .pathSearch (opening + length))
  | none => throw (.unterminatedSearchPath l.here)

end ShellSyntax.Lexer
