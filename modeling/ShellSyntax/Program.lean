import ShellSyntax.Language.Grammar

/-! Parsing whole programs, from texts and from files. -/

namespace ShellSyntax

/-- What a program is: statements, or one expression. -/
inductive ParseMode where
  | exec
  | eval
deriving DecidableEq, Repr, Inhabited

structure ParseOptions where
  filename : String
  mode : ParseMode
  /-- How many steps to record, if any are to be recorded. -/
  traceLimit : Option Nat
  tabSize : Nat
deriving DecidableEq, Repr

namespace ParseOptions

/-- The name in reports on a source that has none. -/
def unnamed : String := "<string>"

def default : ParseOptions :=
  ⟨unnamed, .exec, none, Lexer.defaultTabSize⟩

instance : Inhabited ParseOptions := ⟨default⟩

end ParseOptions

abbrev ProgramSession := Session Language.rules

namespace Program

/-- A parser at the start of `stream`. -/
def session (stream : TokenStream) (options : ParseOptions) : ProgramSession :=
  .ofStream stream options.filename options.traceLimit

def ofString (source : String) (options : ParseOptions) : ProgramSession :=
  session (.ofString source options.tabSize) options

/-- A parser for the file at `path`; `contents` is missing if there is no such file. Reports call
the source by its path unless the options name it. -/
def ofFile (path : String) (contents : Option Source) (options : ParseOptions) :
    Except SyntaxError ProgramSession :=
  let filename := if options.filename = ParseOptions.unnamed then path else options.filename
  let options := { options with filename }
  match contents with
  | some source => .ok (session (.ofFile path source options.tabSize) options)
  | none => .error (.ofLexError .missingFile options.filename .origin "")

/-- Parses the whole source. -/
def parse (mode : ParseMode) (s : ProgramSession) : Except SyntaxError Ast × ProgramSession :=
  match mode with
  | .exec =>
    let (result, s) := Parser.parse Language.grammar .program s
    (result.map Ast.module, s)
  | .eval =>
    let (result, s) := Parser.parse Language.grammar .soleExpr s
    (result.map Ast.expression, s)

def parseText (source : String) (options : ParseOptions) : Except SyntaxError Ast :=
  (parse options.mode (ofString source options)).1

def parseFile (path : String) (contents : Option Source) (options : ParseOptions) :
    Except SyntaxError Ast := do
  let s ← ofFile path contents options
  (parse options.mode s).1

end Program

end ShellSyntax
