import Mathlib.Algebra.GroupWithZero.Nat
import ShellSyntax.Lexer.Step

/-!
What one step of the lexer can do. Each way in which `step` succeeds is one of the moves below,
with the state it leads to written out, so that an invariant of the lexer is checked move by
move and no proof opens `step` again.
-/

namespace ShellSyntax

namespace RawText

/-- Captures `chars`, which stand on one line from `place` on. -/
def pushAll (raw : RawText) (place : Position) (line : String) : List Char → RawText
  | [] => raw
  | c :: chars => (raw.push c place line).pushAll ⟨place.line, place.column + 1⟩ line chars

end RawText

namespace Lexer

/-- How much is still to be read: every character, and every line end. -/
def toCome (l : Lexer) : Nat :=
  l.rest.length + (l.unread.map fun line => line.size + 1).sum

/-- At the start of the line `text`, with `unread` behind it. -/
def nextLine (l : Lexer) (text : List Char) (unread : Source) : Lexer :=
  { l with unread }.enterLine text

/-- At the start of a line that is no continuation of the one before. -/
def freshLine (l : Lexer) (text : List Char) (unread : Source) : Lexer :=
  { l.nextLine text unread with continued := false }

/-- Past the white space at the cursor. -/
def pastMargin (l : Lexer) : Lexer :=
  (l.measure l.rest).advance (l.rest.takeWhile Lexeme.isSpace).length

/-- The next line starts a statement or a block. -/
def AtStatement (l : Lexer) : Prop :=
  l.modes = [] ∧ l.brackets = [] ∧ l.continued = false

/-- The cursor is in no literal, or in a replacement field of one. -/
def Outside (l : Lexer) : Prop :=
  l.modes = [] ∨ ∃ depth outer, l.modes = .fstringField depth :: outer

/-! ### Tokens that are the characters they stand for -/

/-- The next `count` characters are a token of this kind, and the token changes nothing but what
precedes the cursor. -/
inductive Plain (l : Lexer) : TokenKind → Nat → Prop
  | space {c : Char} {rest : List Char} (hrest : l.rest = c :: rest)
      (hspace : Lexeme.isSpace c = true) :
      Plain l .space (l.rest.takeWhile Lexeme.isSpace).length
  | newline {c : Char} {rest : List Char} (hrest : l.rest = c :: rest)
      (hbreak : Lexeme.isLineBreak c = true) (hbrackets : l.brackets = []) :
      Plain l .newline l.rest.length
  | nl {c : Char} {rest : List Char} (hrest : l.rest = c :: rest)
      (hbreak : Lexeme.isLineBreak c = true) (hbrackets : l.brackets ≠ []) :
      Plain l .nl l.rest.length
  | comment {rest : List Char} (hrest : l.rest = '#' :: rest)
      (hhost : l.brackets.inCommand = false) :
      Plain l .comment (Lexeme.contentLength l.rest)
  | string {letters : List Char} {quote : Quote} {length : Nat}
      (hopening : StringLetters.opening? l.rest = some (letters, quote))
      (hplain : StringLetters.isFormatted letters = false)
      (hend : quote.closingEnd? (l.rest.drop (letters.length + quote.size)) = some length) :
      Plain l .string (letters.length + quote.size + length)
  | pathSearch {opening length : Nat} (hopening : Lexeme.searchOpening? l.rest = some opening)
      (hend : Lexeme.searchEnd? (l.rest.drop opening) = some length) :
      Plain l .pathSearch (opening + length)
  | word {length : Nat} (hcommand : l.brackets.inCommand = true)
      (hlength : Lexeme.wordLength l.rest = length + 1) :
      Plain l .word (length + 1)
  | number (hstart : Lexeme.startsNumber l.rest = true) :
      Plain l .number (Lexeme.numberLength l.rest)
  | name {c : Char} {rest : List Char} (hrest : l.rest = c :: rest)
      (hstart : Lexeme.startsName c = true) (hhost : l.brackets.inCommand = false) :
      Plain l .name (l.rest.takeWhile Lexeme.continuesName).length
  | op {table : List String} {text : String}
      (hmatch : Spelling.firstMatch table l.rest = some text)
      (hcloser : closer? text = none) (hopener : Opener.ofSpelling? text = none)
      (hknown : text ∈ Spelling.operators) :
      Plain l .op text.length
  | odd {c : Char} {rest : List Char} (hrest : l.rest = c :: rest)
      (hspace : Lexeme.isSpace c = false) (hbreak : Lexeme.isLineBreak c = false) :
      Plain l .error 1

/-! ### Raw text -/

/-- Captures the rest of a string literal. -/
inductive Quoting (quote : Quote) : Lexer → RawText → Lexer → RawText → Prop
  | close {l : Lexer} {raw : RawText} (hcloses : quote.closes l.rest = true) :
      Quoting quote l raw (l.advance quote.size)
        (raw.pushAll l.here l.lineText (l.rest.take quote.size))
  | escape {l l' : Lexer} {raw raw' : RawText} {rest : List Char}
      (hrest : l.rest = '\\' :: rest)
      (next : Quoting quote (l.advance (min 2 l.rest.length))
        (raw.pushAll l.here l.lineText (l.rest.take 2)) l' raw') :
      Quoting quote l raw l' raw'
  | char {l l' : Lexer} {raw raw' : RawText} {c : Char} {rest : List Char}
      (hrest : l.rest = c :: rest) (hescape : c ≠ '\\') (hcloses : quote.closes l.rest = false)
      (hline : quote.triple = true ∨ Lexeme.isLineBreak c = false)
      (next : Quoting quote (l.advance 1) (raw.push c l.here l.lineText) l' raw') :
      Quoting quote l raw l' raw'
  | line {l l' : Lexer} {raw raw' : RawText} {text : List Char} {unread : Source}
      (hrest : l.rest = []) (htriple : quote.triple = true)
      (hunread : l.unread = .text text :: unread)
      (next : Quoting quote (l.nextLine text unread) raw l' raw') :
      Quoting quote l raw l' raw'

def isCloser (c : Char) : Bool :=
  [')', ']', '\x7d'].contains c

/-- Captures string literals, brackets and other characters over lines; brackets of `floor` stay
open. A comma where no other brackets are open is captured only if `commas` says so. -/
inductive Capture (floor : BracketStack) (commas : Bool) : Lexer → RawText → Lexer → RawText → Prop
  | refl {l : Lexer} {raw : RawText} : Capture floor commas l raw l raw
  | quoted {l m l' : Lexer} {raw raw₁ raw' : RawText} {quote : Quote}
      (hopening : Quote.opening? l.rest = some quote)
      (hquoting : Quoting quote (l.advance quote.size)
        (raw.pushAll l.here l.lineText (l.rest.take quote.size)) m raw₁)
      (next : Capture floor commas m raw₁ l' raw') :
      Capture floor commas l raw l' raw'
  | opener {l l' : Lexer} {raw raw' : RawText} {c : Char} {rest : List Char} {opener : Opener}
      (hopening : Quote.opening? l.rest = none) (hrest : l.rest = c :: rest)
      (hopener : Opener.plain? c = some opener)
      (next : Capture floor commas ((l.pushBracket ⟨opener, .raw, l.here⟩).advance 1)
        (raw.push c l.here l.lineText) l' raw') :
      Capture floor commas l raw l' raw'
  | closer {l l' : Lexer} {raw raw' : RawText} {c : Char} {rest : List Char} {top : Bracket}
      {brackets : BracketStack}
      (hopening : Quote.opening? l.rest = none) (hrest : l.rest = c :: rest)
      (hcloser : isCloser c = true) (hbrackets : l.brackets = top :: brackets)
      (htop : top.closer = c) (hfloor : l.brackets ≠ floor)
      (next : Capture floor commas ({ l with brackets }.advance 1)
        (raw.push c l.here l.lineText) l' raw') :
      Capture floor commas l raw l' raw'
  | char {l l' : Lexer} {raw raw' : RawText} {c : Char} {rest : List Char}
      (hopening : Quote.opening? l.rest = none) (hrest : l.rest = c :: rest)
      (hopener : Opener.plain? c = none) (hcloser : isCloser c = false)
      (hcomma : commas = true ∨ l.brackets ≠ floor ∨ c ≠ ',')
      (next : Capture floor commas (l.advance 1) (raw.push c l.here l.lineText) l' raw') :
      Capture floor commas l raw l' raw'
  | line {l l' : Lexer} {raw raw' : RawText} {text : List Char} {unread : Source}
      (hrest : l.rest = []) (hunread : l.unread = .text text :: unread)
      (next : Capture floor commas (l.nextLine text unread) raw l' raw') :
      Capture floor commas l raw l' raw'

/-- Adds the captured text as a token unless there is none. -/
def pushCaptured (l : Lexer) (raw : RawText) : Lexer :=
  if raw.isBlank then l else l.push (raw.toToken l.lineText)

/-- Captures the arguments of a macro call, `raw` being the start of the first. -/
inductive Arguments (floor : BracketStack) : Lexer → RawText → Lexer → Prop
  | last {l m : Lexer} {raw captured : RawText} {rest : List Char}
      (hcapture : Capture floor false l raw m captured) (hfloor : m.brackets = floor)
      (hrest : m.rest = ')' :: rest) :
      Arguments floor l raw
        { m.pushCaptured captured with lastSignificant := some .macroParam }
  | more {l m l' : Lexer} {raw captured : RawText} {rest : List Char}
      (hcapture : Capture floor false l raw m captured) (hfloor : m.brackets = floor)
      (hrest : m.rest = ',' :: rest)
      (next : Arguments floor ((m.pushCaptured captured).advance 1) (.empty m.here) l') :
      Arguments floor l raw l'

/-- Enters further lines as long as the text goes on. -/
inductive Gathers : Lexer → List Char → Lexer → List Char → Prop
  | stop {l : Lexer} {text : List Char} (hstop : goesOn text = false) : Gathers l text l text
  | line {l l' : Lexer} {text line text' : List Char} {unread : Source}
      (hgoes : goesOn text = true) (hunread : l.unread = .text line :: unread)
      (next : Gathers (l.nextLine line unread) (text ++ line) l' text') :
      Gathers l text l' text'

/-- Enters the lines of a block indented deeper than `indent`. -/
inductive GathersBlock (indent : Nat) :
    Lexer → List Char → Option Nat → Lexer → List Char → Option Nat → Prop
  | sourceEnd {l : Lexer} {text : List Char} {first : Option Nat} (hunread : l.unread = []) :
      GathersBlock indent l text first l text first
  | outdented {l : Lexer} {text line : List Char} {first : Option Nat} {unread : Source}
      (hunread : l.unread = .text line :: unread) (hidle : Lexeme.isIdleLine line = false)
      (hindent : Lexeme.indentWidth l.tabSize line ≤ indent) :
      GathersBlock indent l text first (l.measure line) text first
  | idle {l l' : Lexer} {text line text' : List Char} {first first' : Option Nat}
      {unread : Source} (hunread : l.unread = .text line :: unread)
      (hidle : Lexeme.isIdleLine line = true)
      (next : GathersBlock indent (l.nextLine line unread)
        (if first.isSome then text ++ line else text) first l' text' first') :
      GathersBlock indent l text first l' text' first'
  | deeper {l l' : Lexer} {text line text' : List Char} {first first' : Option Nat}
      {unread : Source} (hunread : l.unread = .text line :: unread)
      (hidle : Lexeme.isIdleLine line = false)
      (hindent : indent < Lexeme.indentWidth l.tabSize line)
      (next : GathersBlock indent ((l.measure line).nextLine line unread) (text ++ line)
        (some (first.getD (l.lineNumber + 1))) l' text' first') :
      GathersBlock indent l text first l' text' first'

/-! ### Moves -/

/-- One step that succeeds. -/
inductive Moves : Lexer → Lexer → Prop
  /-- The source ends. -/
  | finish {l : Lexer} (hrest : l.rest = []) (hunread : l.unread = []) (hplace : l.AtStatement) :
      Moves l l.close
  /-- The next line goes on with what is open. -/
  | resumeLine {l : Lexer} {text : List Char} {unread : Source} (hrest : l.rest = [])
      (hunread : l.unread = .text text :: unread) (hplace : ¬ l.AtStatement) :
      Moves l (l.freshLine text unread)
  | blankLine {l m : Lexer} {text : List Char} {unread : Source} (hrest : l.rest = [])
      (hunread : l.unread = .text text :: unread) (hplace : l.AtStatement)
      (hm : m = (l.freshLine text unread).pastMargin) (hend : m.rest = []) :
      Moves l m
  | commentLine {l m : Lexer} {text rest : List Char} {unread : Source} (hrest : l.rest = [])
      (hunread : l.unread = .text text :: unread) (hplace : l.AtStatement)
      (hm : m = (l.freshLine text unread).pastMargin) (hcomment : m.rest = '#' :: rest) :
      Moves l ((m.take .comment (Lexeme.contentLength m.rest)).takeRest .nl)
  | emptyLine {l m : Lexer} {text rest : List Char} {unread : Source} {c : Char}
      (hrest : l.rest = []) (hunread : l.unread = .text text :: unread) (hplace : l.AtStatement)
      (hm : m = (l.freshLine text unread).pastMargin) (hbreak : m.rest = c :: rest)
      (hc : Lexeme.isLineBreak c = true) :
      Moves l (m.takeRest .nl)
  | indented {l m : Lexer} {text rest : List Char} {unread : Source} {width : Nat} {c : Char}
      (hrest : l.rest = []) (hunread : l.unread = .text text :: unread) (hplace : l.AtStatement)
      (hm : m = (l.freshLine text unread).pastMargin) (hbreak : m.rest = c :: rest)
      (hwidth : width = Lexeme.indentWidth l.tabSize (text.takeWhile Lexeme.isSpace))
      (hdeeper : m.indent < width) (hcomment : c ≠ '#') (hline : Lexeme.isLineBreak c = false) :
      Moves l ({ m with indents := width :: m.indents }.addToken .indent "" m.here m.here)
  | level {l m : Lexer} {text rest : List Char} {unread : Source} {width : Nat} {c : Char}
      (hrest : l.rest = []) (hunread : l.unread = .text text :: unread) (hplace : l.AtStatement)
      (hm : m = (l.freshLine text unread).pastMargin) (hbreak : m.rest = c :: rest)
      (hwidth : width = Lexeme.indentWidth l.tabSize (text.takeWhile Lexeme.isSpace))
      (hlevel : m.indent = width) (hcomment : c ≠ '#') (hline : Lexeme.isLineBreak c = false) :
      Moves l m
  | outdented {l m : Lexer} {text rest : List Char} {unread : Source} {width : Nat} {c : Char}
      (hrest : l.rest = []) (hunread : l.unread = .text text :: unread) (hplace : l.AtStatement)
      (hm : m = (l.freshLine text unread).pastMargin) (hbreak : m.rest = c :: rest)
      (hwidth : width = Lexeme.indentWidth l.tabSize (text.takeWhile Lexeme.isSpace))
      (hshallower : width < m.indent) (hopen : width ∈ m.indents) (hcomment : c ≠ '#')
      (hline : Lexeme.isLineBreak c = false) :
      Moves l (m.leaveBlocks width)
  /-- A string that began on an earlier line ends. -/
  | stringEnd {l : Lexer} {quote : Quote} {text line : String} {start : Position}
      {outer : List LexMode} {length : Nat}
      (hmodes : l.modes = .string quote text start line :: outer) (hrest : l.rest ≠ [])
      (hend : quote.closingEnd? l.rest = some length) :
      Moves l ({ l.advance length with modes := outer, lastSignificant := some .string }.push
        ⟨.string, text ++ String.ofList (l.rest.take length), start, (l.advance length).here, line⟩)
  | stringLine {l : Lexer} {quote : Quote} {text line : String} {start : Position}
      {outer : List LexMode} (hmodes : l.modes = .string quote text start line :: outer)
      (hrest : l.rest ≠ []) (hend : quote.closingEnd? l.rest = none)
      (hgoes : quote.triple = true ∨ Lexeme.isContinued l.rest = true) :
      Moves l { l.skipLine with
        modes := .string quote (text ++ String.ofList l.rest) start line :: outer }
  | textLine {l : Lexer} {quote : Quote} {text : String} {start : Position}
      {outer : List LexMode} (hmodes : l.modes = .fstringText quote text start :: outer)
      (hrest : l.rest ≠ []) (hscan : scanText quote 0 l.rest = .lineEnd) :
      Moves l { l.skipLine with
        modes := .fstringText quote (text ++ String.ofList l.rest)
          (if text.isEmpty then l.here else start) :: outer }
  | textEnd {l m : Lexer} {quote : Quote} {text : String} {start : Position}
      {outer : List LexMode} {count : Nat}
      (hmodes : l.modes = .fstringText quote text start :: outer) (hrest : l.rest ≠ [])
      (hm : m = { l with
        modes := .fstringText quote text (if text.isEmpty then l.here else start) :: outer })
      (hscan : scanText quote 0 l.rest = .quote count) :
      Moves l { (m.flushText count).take .fstringEnd quote.size with modes := outer }
  | textField {l m : Lexer} {quote : Quote} {text : String} {start : Position}
      {outer : List LexMode} {count : Nat}
      (hmodes : l.modes = .fstringText quote text start :: outer) (hrest : l.rest ≠ [])
      (hm : m = { l with
        modes := .fstringText quote text (if text.isEmpty then l.here else start) :: outer })
      (hscan : scanText quote 0 l.rest = .field count) :
      Moves l (m.openField count)
  | specField {l m : Lexer} {text : String} {start : Position} {outer : List LexMode}
      {count : Nat} (hmodes : l.modes = .fstringSpec text start :: outer) (hrest : l.rest ≠ [])
      (hm : m = { l with
        modes := .fstringSpec text (if text.isEmpty then l.here else start) :: outer })
      (hscan : scanSpec 0 l.rest = .field count) :
      Moves l (m.openField count)
  | specEnd {l m n : Lexer} {text : String} {start : Position} {outer : List LexMode}
      {count : Nat} {top : Bracket} {brackets : BracketStack}
      (hmodes : l.modes = .fstringSpec text start :: outer) (hrest : l.rest ≠ [])
      (hm : m = { l with
        modes := .fstringSpec text (if text.isEmpty then l.here else start) :: outer })
      (hscan : scanSpec 0 l.rest = .close count) (hn : n = m.flushText count)
      (hbrackets : n.brackets = top :: brackets) (htop : top.closer = '\x7d') :
      Moves l { ({ n with brackets }).take .op 1 with modes := n.modes.drop 2 }
  | plain {l : Lexer} {kind : TokenKind} {count : Nat} (houtside : l.Outside)
      (hplain : Plain l kind count) :
      Moves l (l.take kind count)
  /-- A backslash continues the line. -/
  | continuation {l : Lexer} {rest : List Char} (houtside : l.Outside)
      (hrest : l.rest = '\\' :: rest) (hend : Lexeme.atLineEnd rest = true) :
      Moves l { l.skipLine with continued := true }
  | stringStart {l : Lexer} {letters : List Char} {quote : Quote} (houtside : l.Outside)
      (hopening : StringLetters.opening? l.rest = some (letters, quote))
      (hplain : StringLetters.isFormatted letters = false)
      (hend : quote.closingEnd? (l.rest.drop (letters.length + quote.size)) = none)
      (hgoes : quote.triple = true ∨ Lexeme.isContinued l.rest = true) :
      Moves l (l.skipLine.pushMode (.string quote (String.ofList l.rest) l.here l.lineText))
  | fstringStart {l m : Lexer} {letters : List Char} {quote : Quote} (houtside : l.Outside)
      (hopening : StringLetters.opening? l.rest = some (letters, quote))
      (hformatted : StringLetters.isFormatted letters = true)
      (hm : m = l.take .fstringStart (letters.length + quote.size)) :
      Moves l (m.pushMode (.fstringText quote "" m.here))
  /-- A variable of the environment among the words of a command. -/
  | envVariable {l : Lexer} {c : Char} {rest : List Char} (houtside : l.Outside)
      (hcommand : l.brackets.inCommand = true) (hrest : l.rest = '$' :: c :: rest)
      (hstart : Lexeme.startsName c = true) :
      Moves l ((l.take .op 1).takeWhile .name Lexeme.continuesName)
  | closer {l : Lexer} {table : List String} {text : String} {top : Bracket}
      {brackets : BracketStack} (houtside : l.Outside)
      (hmatch : Spelling.firstMatch table l.rest = some text)
      (hcloser : closer? text = some top.closer) (hbrackets : l.brackets = top :: brackets) :
      Moves l ({ l with
        brackets, modes := if l.atFieldLevel then l.modes.drop 1 else l.modes }.take .op 1)
  | opener {l : Lexer} {table : List String} {opener : Opener} (houtside : l.Outside)
      (hmatch : Spelling.firstMatch table l.rest = some opener.spelling) :
      Moves l ((l.pushBracket (.opened opener l.brackets.realm l.here)).take .op
        opener.spelling.length)
  | call {l m l' : Lexer} {table : List String} (houtside : l.Outside)
      (hmatch : Spelling.firstMatch table l.rest = some Opener.bangParen.spelling)
      (hcallable : l.followsCallable = true)
      (hm : m = (l.pushBracket ⟨.bangParen, .raw, l.here⟩).take .op
        Opener.bangParen.spelling.length)
      (harguments : Arguments m.brackets m (.empty m.here) l') :
      Moves l l'
  /-- An exclamation mark in a command, and the rest of the command as raw text. -/
  | rawCommand {l m n : Lexer} {table : List String} {top : Bracket} {brackets : BracketStack}
      {raw : RawText} {rest : List Char} (houtside : l.Outside)
      (hcommand : l.brackets.inCommand = true)
      (hmatch : Spelling.firstMatch table l.rest = some "!") (hm : m = l.take .op 1)
      (hbrackets : m.brackets = top :: brackets)
      (hcapture : Capture m.brackets true m (.empty m.here) n raw) (hfloor : n.brackets = m.brackets)
      (hrest : n.rest = top.closer :: rest) :
      Moves l { n.push (raw.toToken n.lineText) with lastSignificant := some .macroParam }
  /-- An exclamation mark outside commands; it may announce a raw body. -/
  | announce {l : Lexer} {table : List String} {announced : Bool} (houtside : l.Outside)
      (hhost : l.brackets.inCommand = false)
      (hmatch : Spelling.firstMatch table l.rest = some "!")
      (hannounced : announced =
        (l.withHeader || l.recent.any fun r => r.isLeadingWith && r.stop == l.here)) :
      Moves l ({ l with withHeader := announced }.take .op 1)
  | spec {l m : Lexer} {table : List String} (houtside : l.Outside)
      (hmatch : Spelling.firstMatch table l.rest = some ":") (hfield : l.atFieldLevel = true)
      (hm : m = l.take .op 1) :
      Moves l (m.pushMode (.fstringSpec "" m.here))
  /-- A colon and a raw body on its line. -/
  | bodyLine {l m n : Lexer} {table : List String} {text : List Char} (houtside : l.Outside)
      (hmatch : Spelling.firstMatch table l.rest = some ":") (hfield : l.atFieldLevel = false)
      (hheader : l.withHeader = true) (hbrackets : l.brackets = [])
      (hm : m = { l with withHeader := false }.take .op 1)
      (hidle : Lexeme.isIdleLine m.rest = false) (hgathers : Gathers m m.rest n text) :
      Moves l
        (n.addToken .macroParam (String.ofList text) m.here n.lineEnd).skipLine.endCapturedLine
  /-- A colon and a raw body on the lines below. -/
  | bodyBlock {l m n : Lexer} {table : List String} {text : List Char} {first : Nat}
      (houtside : l.Outside)
      (hmatch : Spelling.firstMatch table l.rest = some ":") (hfield : l.atFieldLevel = false)
      (hheader : l.withHeader = true) (hbrackets : l.brackets = [])
      (hm : m = { l with withHeader := false }.take .op 1)
      (hidle : Lexeme.isIdleLine m.rest = true)
      (hgathers : GathersBlock m.indent m.skipLine [] none n text (some first)) :
      Moves l
        { n.addToken .macroParam (String.ofList (Text.dedent text)) ⟨first, 0⟩ n.lineEnd with
          rest := [], column := 0 }.endCapturedLine

end Lexer

end ShellSyntax
