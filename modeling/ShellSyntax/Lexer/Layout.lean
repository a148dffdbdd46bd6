import ShellSyntax.Lexer.State

/-! The layout of a program: indentation at the start of a line, and the end of the source. -/

namespace ShellSyntax.Lexer

/-- Leaves the blocks that are indented deeper than `width`. -/
def leaveBlocks (l : Lexer) (width : Nat) : Lexer :=
  let left := l.indents.takeWhile (width < ·)
  let place := l.here
  left.foldl (fun l _ => l.addToken .dedent "" place place)
    { l with indents := l.indents.dropWhile (width < ·) }

/-- Opens or leaves blocks, so that the innermost is indented by `width`. -/
def indentTo (width : Nat) : Lex Unit := do
  let l ← get
  if l.indent < width then
    set ({ l with indents := width :: l.indents }.addToken .indent "" l.here l.here)
  else if width < l.indent then
    if l.indents.contains width then set (l.leaveBlocks width)
    else throw (.badDedent l.here)

/-- Starts a logical line: a line that holds nothing but a comment is over at once, any other
decides which blocks are open. -/
def startLine : Lex Unit := do
  let before ← get
  let margin := before.rest.takeWhile Lexeme.isSpace
  set ((before.measure before.rest).advance margin.length)
  let l ← get
  match l.rest with
  | [] => pure ()
  | c :: _ =>
    if c == '#' then
      set ((l.take .comment (Lexeme.contentLength l.rest)).takeRest .nl)
    else if Lexeme.isLineBreak c then set (l.takeRest .nl)
    else indentTo (Lexeme.indentWidth l.tabSize margin)

/-- The last token leaves its line unfinished. -/
def needsNewline (l : Lexer) : Bool :=
  match l.lastSignificant with
  | none | some .newline | some .indent | some .dedent => false
  | some _ => true

/-- The tokens after the last line: a line end if one is missing, the ends of all blocks, and
the end marker. -/
def close (l : Lexer) : Lexer :=
  let l :=
    if l.needsNewline then
      l.addToken .newline "" l.lineEnd ⟨l.lineEnd.line, l.lineEnd.column + 1⟩
    else l
  let l := (l.indents.dropLast).foldl (fun l _ => l.addToken .dedent "" l.sourceEnd l.sourceEnd) l
  let l := { l with indents := l.indents.drop (l.indents.length - 1), lineText := "" }
  { l.addToken .endMarker "" l.sourceEnd l.sourceEnd with finished := true }

/-- Ends the source, unless a literal, a bracket or a line goes on there. -/
def finish : Lex Unit := do
  let l ← get
  match l.modes with
  | .string _ _ start _ :: _ => throw (.unterminatedString start)
  | .fstringText _ _ start :: _ | .fstringSpec _ start :: _ => throw (.unterminatedFString start)
  | .fstringField _ :: _ => throw (.unterminatedFString l.sourceEnd)
  | [] =>
    match l.brackets with
    | _ :: _ => throw l.unclosedError
    | [] => if l.continued then throw (.endInStatement l.sourceEnd) else set l.close

def goToNextLine : Lex Unit := do
  match ← takeLine with
  | none => finish
  | some text =>
    let before ← get
    let startsLogicalLine := before.modes.isEmpty && before.brackets.isEmpty && !before.continued
    set { before.enterLine text with continued := false }
    if startsLogicalLine then startLine

end ShellSyntax.Lexer
