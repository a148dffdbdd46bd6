import ShellSyntax.Lexer.Step
import Std.Data.HashMap

/-!
The tokens that the grammar sees. White space, comments and empty lines are dropped; every other
token is kept once it has been read, so that a place in the stream is a number and a parser may
go back to any earlier one.
-/

namespace ShellSyntax

/-- A place in a token stream: how many tokens stand before it. -/
abbrev Mark := Nat

/-- Where a source came from. -/
structure Origin where
  path : String
  /-- Its lines as they can be read again, unless they no longer can. -/
  contents : Option (List (List Char))
deriving DecidableEq, Repr

structure TokenStream where
  lexer : Lexer
  tokens : Array Token
  /-- At `i`: the index of the last token up to `i` that is no layout. -/
  lastReal : Array (Option Nat)
  index : Mark
  lineCache : Std.HashMap Nat String
  origin : Option Origin
  /-- How many tokens have been consumed. -/
  reads : Nat

/-- The furthest place that was looked at. -/
structure Furthest where
  line : Nat
  column : Nat
  lineText : String
  token : Option Token
deriving DecidableEq, Repr

abbrev Stream := EStateM LexError TokenStream

namespace TokenStream

def ofLexer (lexer : Lexer) (origin : Option Origin) : TokenStream where
  lexer := lexer
  tokens := #[]
  lastReal := #[]
  index := 0
  lineCache := ∅
  origin := origin
  reads := 0

def ofString (source : String) (tabSize : Nat) : TokenStream :=
  ofLexer (.ofSource (.ofString source) tabSize) none

/-- The stream of the file at `path`, whose lines are `source`. -/
def ofFile (path : String) (source : Source) (tabSize : Nat) : TokenStream :=
  ofLexer (.ofSource source tabSize) (some ⟨path, source.lines?.toOption⟩)

/-- Makes the contents of the file unavailable from now on. -/
def withoutFile (s : TokenStream) : TokenStream :=
  { s with origin := s.origin.map fun origin => { origin with contents := none } }

/-- A token that the grammar does not see, given the last one that it does. -/
def isDropped (last : Option Token) (token : Token) : Bool :=
  match token.kind with
  | .space | .nl | .comment => true
  | .error => Text.allBlank token.text.toList
  | .newline => last.any fun last => last.kind == .newline
  | _ => false

/-- Keeps a token that the grammar sees. -/
def keep (s : TokenStream) (token : Token) : TokenStream :=
  let real := if token.kind.isLayout then s.lastReal.back?.join else some s.tokens.size
  { s with tokens := s.tokens.push token, lastReal := s.lastReal.push real }

def readRaw : Stream Token := fun s =>
  match Lexer.pull s.lexer with
  | .ok token lexer =>
    .ok token { s with lexer, lineCache := s.lineCache.insertIfNew token.start.line token.line }
  | .error e lexer => .error e { s with lexer }

/-- Reads on until a token is kept, in at most `fuel` steps. -/
def fill : (fuel : Nat) → Stream Unit
  | 0 => return ()
  | fuel + 1 => do
    let token ← readRaw
    let s ← get
    if isDropped s.tokens.back? token then fill fuel else set (s.keep token)

/-- The token at the current place. -/
def peek : Stream Token := do
  let s ← get
  if s.index = s.tokens.size then fill s.lexer.bound
  let s ← get
  return s.tokens[s.index]?.getD (.endMarker s.lexer.lineNumber)

/-- The token at the current place; goes past it. -/
def next : Stream Token := do
  let token ← peek
  modify fun s => { s with index := s.index + 1, reads := s.reads + 1 }
  return token

def mark (s : TokenStream) : Mark :=
  s.index

def reset (s : TokenStream) (mark : Mark) : TokenStream :=
  { s with index := mark }

/-- The last token before the current place that is no layout. -/
def lastToken? (s : TokenStream) : Option Token :=
  if s.index = 0 then none
  else (s.lastReal[s.index - 1]?.join).bind fun i => s.tokens[i]?

def furthest (s : TokenStream) : Furthest :=
  match s.tokens.back? with
  | some token => ⟨token.start.line, token.start.column, token.line, some token⟩
  | none => ⟨1, 0, "", none⟩

/-- Fills the cache with lines read again; lines that are there stay. -/
def cacheLines (cache : Std.HashMap Nat String) (lines : List (List Char)) :
    Std.HashMap Nat String :=
  (lines.foldl (fun (cache, n) line => (cache.insertIfNew n (String.ofList line), n + 1))
    (cache, 1)).1

/-- The text of the lines with these numbers. If one is not known the file is read again; lines
that are still unknown are left out. -/
def lines (s : TokenStream) (numbers : List Nat) : List String × TokenStream :=
  let known := numbers.all s.lineCache.contains
  let cache :=
    match s.origin with
    | some ⟨_, some contents⟩ => if known then s.lineCache else cacheLines s.lineCache contents
    | _ => s.lineCache
  (numbers.filterMap (cache[·]?), { s with lineCache := cache })

/-- One line; an unknown one is empty. -/
def line (s : TokenStream) (number : Nat) : String × TokenStream :=
  let (found, s) := s.lines [number]
  (found.getLast?.getD "", s)

/-- Consumes tokens up to the end marker, in at most `fuel` steps. -/
def drain : (fuel : Nat) → Stream Unit
  | 0 => return ()
  | fuel + 1 => do
    if (← next).kind != .endMarker then drain fuel

/-- All tokens of a source as the grammar sees them. -/
def significantTokens (source : String) : Except LexError (List Token) :=
  let s := ofString source Lexer.defaultTabSize
  match drain s.lexer.bound s with
  | .ok _ s => .ok s.tokens.toList
  | .error e _ => .error e

end TokenStream

end ShellSyntax
