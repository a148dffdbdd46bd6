import ShellSyntax.CommandLine.Invocation
import ShellSyntax.Tree.Print
import ShellSyntax.Viewer.Replay

/-! What the command line does with its input. -/

namespace ShellSyntax.CommandLine

structure Outcome where
  status : Nat
  stdout : String
  stderr : String
deriving DecidableEq, Repr

/-- What is printed, and the replay to show before that, if one was asked for. -/
structure Result where
  replay : Option Viewer.Replay
  outcome : Outcome

namespace Outcome

def success (stdout : String) : Outcome :=
  ⟨0, stdout, ""⟩

def failure (message : String) : Outcome :=
  ⟨1, "", message ++ "\n"⟩

end Outcome

/-- One token a line: its place, its kind and its quoted text. -/
def tokenLine (token : Token) : String :=
  let place :=
    s!"{token.start.line},{token.start.column}-{token.stop.line},{token.stop.column}:"
  Viewer.padRight 20 place ++ Viewer.padRight 15 token.kind.label ++ Text.quoted token.text ++ "\n"

def tokenLines (tokens : List Token) : String :=
  String.join (tokens.map tokenLine)

/-- The tokens that the grammar sees, as far as they go, in at most `fuel` steps. -/
def significantTokens : (fuel : Nat) → TokenStream → List Token × Option LexError
  | 0, _ => ([], none)
  | fuel + 1, s =>
    match TokenStream.next s with
    | .error e _ => ([], some e)
    | .ok token s =>
      if token.kind == .endMarker then ([token], none)
      else
        let (tokens, failure) := significantTokens fuel s
        (token :: tokens, failure)

/-- Prints tokens. All tokens are printed only if there is no error; of those that the grammar
sees, the ones before an error are printed too. -/
def listTokens (raw : Bool) (lexer : Lexer) : Outcome :=
  let report (e : LexError) (stdout : String) : Outcome := ⟨1, stdout, s!"Error: {e.message}\n"⟩
  if raw then
    match lexer.allTokens with
    | .ok tokens => .success (tokenLines tokens)
    | .error e => report e ""
  else
    match significantTokens lexer.bound (.ofLexer lexer none) with
    | (tokens, none) => .success (tokenLines tokens)
    | (tokens, some e) => report e (tokenLines tokens)

def resultOutcome : Except SyntaxError Ast → Outcome
  | .ok tree => .success (tree.print ++ "\n")
  | .error e => .failure e.render

/-- The replay of a finished parse. -/
def replayOf (source : String) (result : Except SyntaxError Ast) (s : ProgramSession)
    (limit : Nat) : Viewer.Replay :=
  let error :=
    match result with
    | .ok _ => none
    | .error e => some e
  .start source s.stream.tokens (s.trace.getD (.empty limit)) error

/-- Parses, and prints the tree or the error. With a replay the tree is printed only on demand. -/
def runParse (a : Invocation) (lines : Except LexError (List (List Char))) (s : ProgramSession) :
    Result :=
  let (result, s) := Program.parse a.mode s
  if a.trace then
    match lines with
    | .error e => ⟨none, .failure ("Error: " ++ e.reason)⟩
    | .ok lines =>
      ⟨some (replayOf (String.ofList lines.flatten) result s a.traceLimit),
        if a.ast then resultOutcome result else .success ""⟩
  else ⟨none, resultOutcome result⟩

def runStandardInput (a : Invocation) (source : Source) : Result :=
  match source.lines? with
  | .error e =>
    ⟨none, .failure s!"Error: Error \x7b kind: InvalidData, message: {Text.quoted e.reason} \x7d"⟩
  | .ok lines =>
    if a.tokens then ⟨none, listTokens a.raw (.ofSource source a.tabSize)⟩
    else
      let stream := TokenStream.ofLexer (.ofSource source a.tabSize) none
      runParse a (.ok lines) (Program.session stream a.options)

/-- Runs on a file; `contents` is missing if there is none. -/
def runFile (a : Invocation) (contents : Option Source) : Result :=
  match contents with
  | none => ⟨none, .failure s!"Error: File '{a.file}' not found"⟩
  | some source =>
    if a.tokens then
      match source.lines? with
      | .error e => ⟨none, .failure ("Error: " ++ e.reason)⟩
      | .ok _ => ⟨none, listTokens a.raw (.ofSource source a.tabSize)⟩
    else
      match Program.ofFile a.file contents a.options with
      | .error e => ⟨none, .failure e.render⟩
      | .ok s => runParse a source.lines? s

/-- Runs on the bytes of the standard input or of the file. -/
def run (a : Invocation) (input : Option (List UInt8)) : Result :=
  if a.readsStandardInput then runStandardInput a (.ofBytes (input.getD []))
  else runFile a (input.map Source.ofBytes)

end ShellSyntax.CommandLine
