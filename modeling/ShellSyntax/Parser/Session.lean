import ShellSyntax.Matcher.Basic
import ShellSyntax.Trace
import Std.Data.HashMap
import Std.Data.HashSet

/-!
The state of a parser: its token stream, the results it remembers, and the record it keeps.
-/

namespace ShellSyntax

/-- What a rule yielded at some mark, and where it left the stream. -/
structure Remembered (R : RuleSet) where
  rule : R.Rule
  node : Option (R.Node rule)
  stop : Mark

structure MemoCounts where
  hits : Nat
  misses : Nat
  growSteps : Nat
deriving DecidableEq, Repr

/-- What ends a parse. -/
inductive Abort where
  | syntactic (error : SyntaxError)
  | lexical (error : LexError)
  /-- Two rules of one name yield different kinds of nodes. -/
  | memoClash (rule : String)
  /-- Rules call each other without end. -/
  | endless
deriving DecidableEq, Repr

def Abort.message : Abort → String
  | syntactic error => error.describe
  | lexical error => error.message
  | memoClash rule => s!"memo entry for rule \x60{rule}\x60 holds a different result type"
  | endless => "the rules call each other without end"

structure Session (R : RuleSet) where
  stream : TokenStream
  filename : String
  memo : Std.HashMap (String × Mark) (Remembered R)
  /-- The remembering rules that are being tried, each with its mark. -/
  active : Std.HashSet (String × Mark)
  /-- How many growing rules are being tried. -/
  growing : Nat
  diagnosing : Bool
  /-- How many rules are being tried. -/
  level : Nat
  /-- How many brackets deep the parser is. -/
  nesting : Nat
  trace : Option TraceLog
  stats : MemoCounts

/-- Parsing steps may fail; the state they reached stays. -/
abbrev Parse (R : RuleSet) := EStateM Abort (Session R)

namespace Session

variable {R : RuleSet}

/-- The deepest nesting of brackets that is parsed. -/
def nestingLimit : Nat := 200

def ofStream (stream : TokenStream) (filename : String) (traceLimit : Option Nat) : Session R where
  stream := stream
  filename := filename
  memo := ∅
  active := ∅
  growing := 0
  diagnosing := false
  level := 0
  nesting := 0
  trace := traceLimit.map TraceLog.empty
  stats := ⟨0, 0, 0⟩

/-- No more tokens than this come, and no loop over them runs longer. -/
def bound (s : Session R) : Nat :=
  s.stream.lexer.bound

def mark (s : Session R) : Mark :=
  s.stream.mark

def reset (s : Session R) (mark : Mark) : Session R :=
  { s with stream := s.stream.reset mark }

def note (s : Session R) (event : TraceEvent) : Session R :=
  { s with trace := s.trace.map fun log => log.push event }

/-- Hands out the record; from then on nothing is recorded. -/
def handOverTrace (s : Session R) : Option TraceLog × Session R :=
  (s.trace, { s with trace := none })

def spanSince (s : Session R) (start : Mark) : Span :=
  let first :=
    match s.stream.tokens[start]? with
    | some token => token.start
    | none => (s.stream.tokens.back?.map Token.start).getD .origin
  let last := (s.stream.lastToken?.map Token.stop).getD first
  ⟨first, last.later first⟩

/-- A reading step of the stream. -/
def read {α : Type} (step : Stream α) : Parse R α := fun s =>
  match step s.stream with
  | .ok value stream => .ok value { s with stream }
  | .error e stream => .error (.lexical e) { s with stream }

def line (s : Session R) (number : Nat) : String × Session R :=
  let (text, stream) := s.stream.line number
  (text, { s with stream })

def faultRange (s : Session R) : FaultPlace → Position × Position
  | .range start stop => (start, stop)
  | .furthest =>
    let diagnosis := s.stream.furthest
    match diagnosis.token with
    | some token => (token.start, token.stop)
    | none => (⟨diagnosis.line, diagnosis.column⟩, ⟨diagnosis.line, diagnosis.column⟩)

/-- The error that a fault is reported as. -/
def syntaxError (s : Session R) (fault : Fault) : SyntaxError × Session R :=
  let (start, stop) := s.faultRange fault.place
  let (lineText, s) := s.line start.line
  (⟨fault.kind, fault.message, s.filename, start, stop, lineText⟩, s)

def fail {α : Type} (fault : Fault) : Parse R α := fun s =>
  let (error, s) := s.syntaxError fault
  .error (.syntactic error) s

/-- Does one step. -/
def perform {β : Type} : Action β → Parse R β
  | .mark => return (← get).mark
  | .reset mark => modify fun s => s.reset mark
  | .peek => read TokenStream.peek
  | .next => read TokenStream.next
  | .spanSince mark => return (← get).spanSince mark
  | .lastToken? => return (← get).stream.lastToken?
  | .isDiagnosing => return (← get).diagnosing
  | .fail fault => fail fault

end Session

end ShellSyntax
