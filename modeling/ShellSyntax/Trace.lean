/-! The record of a parse, step by step. -/

namespace ShellSyntax

inductive TraceEvent where
  /-- A rule was tried at a mark. -/
  | enter (rule : String) (mark depth : Nat)
  /-- A rule was left with the stream at `stop`. -/
  | exit (rule : String) (mark stop : Nat) (matched : Bool) (depth : Nat)
  /-- A rule was answered from memory. -/
  | memo (rule : String) (mark stop : Nat) (matched : Bool) (depth : Nat)
  /-- A left-recursive rule found a longer match. -/
  | grow (rule : String) (mark stop depth : Nat)
  /-- Nothing matched, and the diagnosing pass starts. -/
  | secondPass
deriving DecidableEq, Repr, Inhabited

namespace TraceEvent

def depth : TraceEvent → Nat
  | enter _ _ depth | exit _ _ _ _ depth | memo _ _ _ _ depth | grow _ _ _ depth => depth
  | secondPass => 0

/-- The token that the event is about. -/
def position : TraceEvent → Nat
  | enter _ mark _ => mark
  | exit _ _ stop _ _ | memo _ _ stop _ _ | grow _ _ stop _ => stop
  | secondPass => 0

def margin (event : TraceEvent) : String :=
  String.ofList (List.replicate (2 * event.depth) ' ')

def describe (event : TraceEvent) : String :=
  match event with
  | enter rule mark _ => s!"{event.margin}{rule}() @{mark}"
  | exit rule mark stop true _ => s!"{event.margin}{rule}() @{mark} -> {stop}"
  | exit rule mark _ false _ => s!"{event.margin}{rule}() @{mark} failed"
  | memo rule mark _ true _ => s!"{event.margin}{rule}() @{mark} memo hit"
  | memo rule mark _ false _ => s!"{event.margin}{rule}() @{mark} memo fail"
  | grow rule mark stop _ => s!"{event.margin}{rule}() @{mark} grew to {stop}"
  | secondPass => "-- second pass with diagnostic rules --"

end TraceEvent

/-- Events up to a limit; later ones are counted and dropped. -/
structure TraceLog where
  events : Array TraceEvent
  limit : Nat
  dropped : Nat
deriving Repr

namespace TraceLog

def empty (limit : Nat) : TraceLog :=
  ⟨#[], limit, 0⟩

def isFull (log : TraceLog) : Bool :=
  log.limit ≤ log.events.size

def push (log : TraceLog) (event : TraceEvent) : TraceLog :=
  if log.isFull then { log with dropped := log.dropped + 1 }
  else { log with events := log.events.push event }

end TraceLog

end ShellSyntax
