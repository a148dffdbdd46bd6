import ShellSyntax.Lexer.Layout
import ShellSyntax.Lexer.Literal
import ShellSyntax.Lexer.RawText

/-!
The lexer: it hands out one token at a time, white space and comments included, and looks no
further than it has to.
-/

namespace ShellSyntax.Lexer

/-! ### Operators -/

def closer? (op : String) : Option Char :=
  match op with
  | ")" => some ')'
  | "]" => some ']'
  | "\x7d" => some '\x7d'
  | _ => none

/-- A closer; the brace that opened a replacement field ends it. -/
def scanCloser (closer : Char) : Lex Unit := do
  let atField := (← get).atFieldLevel
  closeBracket closer
  modify fun l => { l with modes := if atField then l.modes.drop 1 else l.modes }.take .op 1

/-- A colon starts a format specification in a replacement field, and the raw body behind the
head of a statement that has one. -/
def scanColon : Lex Unit := do
  let l ← get
  if l.atFieldLevel then
    let l := l.take .op 1
    set (l.pushMode (.fstringSpec "" l.here))
  else if l.withHeader && l.brackets.isEmpty then
    set ({ l with withHeader := false }.take .op 1)
    captureBody
  else set (l.take .op 1)

/-- An exclamation mark turns the rest of a command into raw text. Right behind a leading `with`
it announces a raw body. -/
def scanExclamation : Lex Unit := do
  let l ← get
  if l.brackets.inCommand then
    set (l.take .op 1)
    captureCommand
  else
    let announces := l.recent.any fun r => r.isLeadingWith && r.stop == l.here
    set ({ l with withHeader := l.withHeader || announces }.take .op 1)

/-- The name right before the cursor makes an opener the start of a macro call. -/
def followsCallable (l : Lexer) : Bool :=
  l.recent.any fun r => r.isCallable && r.stop == l.here

def scanOpener (op : String) (opener : Opener) : Lex Unit := do
  let l ← get
  if opener = .bangParen ∧ l.followsCallable then
    set ((l.pushBracket ⟨opener, .raw, l.here⟩).take .op op.length)
    captureCall
  else
    set ((l.pushBracket (.opened opener l.brackets.realm l.here)).take .op op.length)

def scanOperator (op : String) : Lex Unit := do
  if let some closer := closer? op then scanCloser closer
  else if op = ":" then scanColon
  else if op = "!" then scanExclamation
  else if let some opener := Opener.ofSpelling? op then scanOpener op opener
  else modify fun l => l.take .op op.length

/-! ### Tokens -/

def scanCommandToken : Lex Unit := do
  let l ← get
  let names :=
    match l.rest with
    | '$' :: c :: _ => Lexeme.startsName c
    | _ => false
  if names then set ((l.take .op 1).takeWhile .name Lexeme.continuesName)
  else if let some op := Spelling.firstMatch Spelling.commandOperators l.rest then scanOperator op
  else
    match Lexeme.wordLength l.rest with
    | 0 => set (l.take .error 1)
    | length => set (l.take .word length)

def scanHostToken : Lex Unit := do
  let l ← get
  if Lexeme.startsNumber l.rest then set (l.take .number (Lexeme.numberLength l.rest))
  else if (l.rest.head?.map Lexeme.startsName).getD false then
    set (l.takeWhile .name Lexeme.continuesName)
  else if let some op := Spelling.firstMatch Spelling.operators l.rest then scanOperator op
  else set (l.take .error 1)

/-- The token at the cursor, outside the text of any literal. -/
def scanToken : Lex Unit := do
  let l ← get
  match l.rest with
  | [] => pure ()
  | c :: after =>
    if Lexeme.isSpace c then set (l.takeWhile .space Lexeme.isSpace)
    else if Lexeme.isLineBreak c then
      set (l.takeRest (if l.brackets.isEmpty then .newline else .nl))
    else if c == '\\' && Lexeme.atLineEnd after then set { l.skipLine with continued := true }
    else if c == '#' && !l.brackets.inCommand then
      set (l.take .comment (Lexeme.contentLength l.rest))
    else if let some (letters, quote) := StringLetters.opening? l.rest then
      startString letters quote
    else if let some opening := Lexeme.searchOpening? l.rest then scanSearch opening
    else if l.brackets.inCommand then scanCommandToken
    else scanHostToken

/-! ### Reading tokens -/

/-- Does the next piece of work: goes to the next line, or goes on with this one. -/
def step : Lex Unit := do
  let l ← get
  if l.rest.isEmpty then goToNextLine
  else
    match l.modes with
    | .string quote text start line :: outer => resumeString quote text start line outer
    | .fstringText quote text start :: outer => resumeText quote text start outer
    | .fstringSpec text start :: outer => resumeSpec text start outer
    | .fstringField _ :: _ | [] => scanToken

/-- Works until a token is ready or the source has ended, in at most `fuel` steps. -/
def work : (fuel : Nat) → Lex Unit
  | 0 => return ()
  | fuel + 1 => do
    let l ← get
    if l.pending.isEmpty && !l.finished then
      step
      work fuel

/-- The next token. After the last there are end markers for ever. -/
def pull : Lex Token := do
  work (← get).bound
  let l ← get
  match l.pending with
  | token :: pending =>
    set { l with pending }
    return token
  | [] => return .endMarker l.lineNumber

/-- The tokens up to the end marker, in at most `fuel` steps, and the failure that cut them
short, with the state it left. -/
def tokensWithin : (fuel : Nat) → Lexer → List Token × Option LexError × Lexer
  | 0, l => ([], none, l)
  | fuel + 1, l =>
    match pull l with
    | .error e l => ([], some e, l)
    | .ok token l =>
      if token.kind == .endMarker then ([token], none, l)
      else
        let (tokens, failure, l) := tokensWithin fuel l
        (token :: tokens, failure, l)

/-- The tokens of the source as far as they go, and the failure that cut them short. -/
def tokens (l : Lexer) : List Token × Option LexError :=
  let (tokens, failure, _) := tokensWithin l.bound l
  (tokens, failure)

/-- Every token up to the end marker. -/
def allTokens (l : Lexer) : Except LexError (List Token) :=
  match l.tokens with
  | (tokens, none) => .ok tokens
  | (_, some e) => .error e

end ShellSyntax.Lexer
