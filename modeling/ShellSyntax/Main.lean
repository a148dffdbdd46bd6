import ShellSyntax.CommandLine.Run

/-! The program: it reads its input, runs, and prints. -/

namespace ShellSyntax

open Viewer

def usage : String :=
  "usage: [--mode exec|eval] [--tokens [--raw]] [--ast] [--trace] [--trace-limit N] " ++
    "[--tabsize N] [--log-level LEVEL] FILE"

/-- The bytes of the standard input or of the file, if there is such a file. -/
def readInput (a : CommandLine.Invocation) : IO (Option (List UInt8)) := do
  if a.readsStandardInput then
    return some (← (← IO.getStdin).readBinToEnd).toList
  try
    return some (← IO.FS.readBinFile a.file).toList
  catch _ => return none

/-- Shows a replay: draws it and takes keys, one line of them at a time, until it is left. -/
partial def present (replay : Replay) (width height : Nat) : IO Unit := do
  let replay := replay.scrolled width height
  for row in replay.draw width height do
    IO.println row.text
  if replay.quitting then return
  let line ← (← IO.getStdin).getLine
  if line.isEmpty then return
  let press (replay : Replay) (c : Char) : Replay := replay.pressDrawn width height (.char c)
  present ((line.toList.filter (· != '\n')).foldl press replay) width height

end ShellSyntax

open ShellSyntax in
def main (args : List String) : IO UInt32 := do
  match CommandLine.Invocation.ofList? args with
  | none =>
    IO.eprintln usage
    return 2
  | some a =>
    let result := CommandLine.run a (← readInput a)
    if let some replay := result.replay then present replay 80 21
    IO.print result.outcome.stdout
    IO.eprint result.outcome.stderr
    return UInt32.ofNat result.outcome.status
