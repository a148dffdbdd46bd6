import ShellSyntax.Program

/-! The arguments of the command line. -/

namespace ShellSyntax.CommandLine

structure Invocation where
  file : String
  mode : ParseMode
  /-- Print the tokens and not the tree. -/
  tokens : Bool
  /-- Print white space and comments among the tokens. -/
  raw : Bool
  ast : Bool
  /-- Show the recorded parse. -/
  trace : Bool
  traceLimit : Nat
  tabSize : Nat
deriving DecidableEq, Repr

/-- The arguments read so far. None of them may be given twice. -/
structure Draft where
  file : Option String
  mode : Option ParseMode
  tokens : Bool
  raw : Bool
  ast : Bool
  trace : Bool
  traceLimit : Option Nat
  tabSize : Option Nat
  logLevel : Option String
deriving DecidableEq, Repr

namespace Draft

def empty : Draft :=
  ⟨none, none, false, false, false, false, none, none, none⟩

/-- A number that fits a machine word, with or without a plus sign. -/
def number? (text : String) : Option Nat :=
  let digits :=
    match text.toList with
    | '+' :: digits => digits
    | digits => digits
  if digits.isEmpty || !digits.all Char.isDigit then none
  else
    let value := digits.foldl (fun value c => value * 10 + (c.toNat - '0'.toNat)) 0
    if value < UInt64.size then some value else none

def mode? : String → Option ParseMode
  | "exec" => some .exec
  | "eval" => some .eval
  | _ => none

def addFile (d : Draft) (file : String) : Option Draft :=
  if d.file.isSome || file.isEmpty then none else some { d with file := some file }

def addFlag (d : Draft) (name : String) : Option Draft :=
  match name with
  | "--tokens" => if d.tokens then none else some { d with tokens := true }
  | "--raw" => if d.raw then none else some { d with raw := true }
  | "--ast" => if d.ast then none else some { d with ast := true }
  | "--trace" => if d.trace then none else some { d with trace := true }
  | _ => none

def valueOptions : List String :=
  ["--mode", "--trace-limit", "--tabsize", "--log-level"]

def addValue (d : Draft) (name value : String) : Option Draft :=
  match name with
  | "--mode" => if d.mode.isSome then none else (mode? value).map fun m => { d with mode := some m }
  | "--trace-limit" =>
    if d.traceLimit.isSome then none
    else (number? value).map fun n => { d with traceLimit := some n }
  | "--tabsize" =>
    if d.tabSize.isSome then none else (number? value).map fun n => { d with tabSize := some n }
  | "--log-level" => if d.logLevel.isSome then none else some { d with logLevel := some value }
  | _ => none

/-- An argument that is no option; a lone dash is one. -/
def isPlain (arg : String) : Bool :=
  arg == "-" || !arg.startsWith "-"

/-- The name and the value of an option that holds both. -/
def assigned? (arg : String) : Option (String × String) :=
  let name := arg.toList.takeWhile (· != '=')
  match arg.toList.drop name.length with
  | _ :: value => some (String.ofList name, String.ofList value)
  | [] => none

/-- Reads arguments; behind a double dash all are files. -/
def read : List String → Draft → Option Draft
  | [], d => some d
  | "--" :: files, d => files.foldlM addFile d
  | arg :: rest, d =>
    if isPlain arg then (d.addFile arg).bind (read rest)
    else
      match assigned? arg with
      | some (name, value) => (d.addValue name value).bind (read rest)
      | none =>
        if valueOptions.contains arg then
          match rest with
          | value :: rest => if isPlain value then (d.addValue arg value).bind (read rest) else none
          | [] => none
        else (d.addFlag arg).bind (read rest)

end Draft

namespace Invocation

def defaultTraceLimit : Nat := 100000

/-- What was asked for, unless the arguments make no sense. -/
def ofList? (args : List String) : Option Invocation := do
  let d ← Draft.read args Draft.empty
  let file ← d.file
  if d.raw && !d.tokens then none
  return {
    file
    mode := d.mode.getD .exec
    tokens := d.tokens
    raw := d.raw
    ast := d.ast
    trace := d.trace
    traceLimit := d.traceLimit.getD defaultTraceLimit
    tabSize := d.tabSize.getD Lexer.defaultTabSize }

/-- The file name that stands for the standard input. -/
def standardInput : String := "-"

def readsStandardInput (a : Invocation) : Bool :=
  a.file == standardInput

def options (a : Invocation) : ParseOptions where
  filename := if a.readsStandardInput then "<stdin>" else a.file
  mode := a.mode
  traceLimit := if a.trace then some a.traceLimit else none
  tabSize := a.tabSize

end Invocation

end ShellSyntax.CommandLine
