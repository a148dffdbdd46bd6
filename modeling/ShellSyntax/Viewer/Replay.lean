import ShellSyntax.Viewer.Panes

/-! The replay of a recorded parse: its state, its keys and its screen. -/

namespace ShellSyntax.Viewer

inductive Pane where
  | source
  | trace
  | tokens
deriving DecidableEq, Repr, Inhabited

namespace Pane

def next : Pane → Pane
  | source => trace
  | trace => tokens
  | tokens => source

def previous : Pane → Pane
  | source => tokens
  | trace => source
  | tokens => trace

theorem previous_next (pane : Pane) : pane.next.previous = pane := by
  cases pane <;> rfl

def label : Pane → String
  | source => "Source"
  | trace => "Trace"
  | tokens => "Tokens"

end Pane

inductive Key where
  | left
  | right
  | up
  | down
  | tab
  | backTab
  | enter
  | backspace
  | home
  | char (c : Char)
deriving DecidableEq, Repr

structure Replay where
  source : String
  tokens : Array Token
  log : TraceLog
  /-- Why the program was rejected, if it was. -/
  error : Option SyntaxError
  /-- The event that is shown. -/
  position : Nat
  focus : Pane
  sourceScroll : SourceScroll
  traceScroll : Nat
  tokensScroll : Nat
  quitting : Bool
  message : String
  playing : Bool

namespace Replay

def start (source : String) (tokens : Array Token) (log : TraceLog) (error : Option SyntaxError) :
    Replay where
  source := source
  tokens := tokens
  log := log
  error := error
  position := 0
  focus := .trace
  sourceScroll := .start
  traceScroll := 0
  tokensScroll := 0
  quitting := false
  message :=
    match error with
    | some error => error.kind.label ++ ": " ++ error.message
    | none => "Parsed successfully"
  playing := false

def event? (r : Replay) : Option TraceEvent :=
  r.log.events[r.position]?

/-- The mark that the event is about. -/
def mark? (r : Replay) : Option Nat :=
  r.event?.map TraceEvent.position

def token? (r : Replay) : Option Token :=
  r.mark?.bind fun mark => r.tokens[mark]?

/-! ### Moving -/

/-- Goes on by one event, and says whether there was one. -/
def forward (r : Replay) : Bool × Replay :=
  if r.position + 1 < r.log.events.size then (true, { r with position := r.position + 1 })
  else (false, { r with message := "Cannot step forward: end of trace" })

def backward (r : Replay) : Bool × Replay :=
  if 0 < r.position then (true, { r with position := r.position - 1 })
  else (false, { r with message := "Cannot step backward: start of trace" })

/-- Goes on by up to `count` events, and says by how many. -/
def forwardBy : (count : Nat) → Replay → Nat × Replay
  | 0, r => (0, r)
  | count + 1, r =>
    match r.forward with
    | (false, r) => (0, r)
    | (true, r) =>
      let (made, r) := forwardBy count r
      (made + 1, r)

def announcePlace (r : Replay) : Replay :=
  { r with
    message :=
      match r.token? with
      | some token => s!"at {token.kind.label} {Text.quoted token.text} ({token.start.render})"
      | none => "at end of input" }

/-- A move that says where it got, if it got anywhere. -/
def described (moved : Bool × Replay) : Replay :=
  if moved.1 then moved.2.announcePlace else moved.2

/-- The event that leaves the rule entered at `index`. -/
def matchingExit? (r : Replay) (index : Nat) : Option Nat :=
  match r.log.events[index]? with
  | some (.enter rule mark depth) =>
    let closes : TraceEvent → Bool
      | .exit rule' mark' _ _ depth' => rule' == rule && mark' == mark && depth' == depth
      | _ => false
    ((r.log.events.toList.drop (index + 1)).findIdx? closes).map (index + 1 + ·)
  | _ => none

/-- The next event about a later token. -/
def laterToken? (r : Replay) (mark : Nat) : Option Nat :=
  ((r.log.events.toList.drop r.position).findIdx? fun event => mark < event.position).map
    (r.position + ·)

/-- The last event before this one that is about an earlier token. -/
def earlierToken? (r : Replay) (mark : Nat) : Option Nat :=
  let before := (r.log.events.toList.take r.position).reverse
  (before.findIdx? fun event => event.position < mark).map (before.length - 1 - ·)

def jump (r : Replay) (target : Option Nat) : Replay :=
  match target with
  | some index => { r with position := index }.announcePlace
  | none => r

/-! ### Keys -/

def paused (r : Replay) : Replay :=
  { r with playing := false }

/-- Moves the row at which the current line is held. -/
def moveRow (r : Replay) (move : Nat → Nat) : Replay :=
  { r with sourceScroll := { r.sourceScroll with targetRow := r.sourceScroll.targetRow.map move } }

def pressUp (r : Replay) : Replay :=
  match r.focus with
  | .source => r.moveRow (· + 1)
  | .trace => r.backward.2
  | .tokens => r.jump (r.mark?.bind r.earlierToken?)

def pressDown (r : Replay) : Replay :=
  match r.focus with
  | .source => r.moveRow (· - 1)
  | .trace => r.forward.2
  | .tokens => r.jump (r.mark?.bind r.laterToken?)

def pressChar (r : Replay) (c : Char) : Replay :=
  if c = 'q' ∨ c = 'Q' then { r with quitting := true }
  else if '1' ≤ c ∧ c ≤ '9' then
    let (made, r) := r.paused.forwardBy (c.toNat - '0'.toNat)
    { r with message := s!"Stepped forward {made} event(s)" }
  else if c = 'e' then
    match r.matchingExit? r.position with
    | some index => r.paused.jump (some index)
    | none => { r.paused with message := "Not at a rule entry" }
  else if c = ' ' then
    let playing := !r.playing
    { r with playing, message := if playing then "Playing..." else "Paused" }
  else r

def press (r : Replay) : Key → Replay
  | .char c => r.pressChar c
  | .tab => { r with focus := r.focus.next }
  | .backTab => { r with focus := r.focus.previous }
  | .left => described r.paused.backward
  | .right => described r.paused.forward
  | .up => r.pressUp
  | .down => r.pressDown
  | .enter =>
    { r.paused with position := r.log.events.size - 1, message := "Jumped to end" }
  | .backspace => { r.paused with position := 0, message := "Jumped to start" }
  | .home => r

def playStep (r : Replay) : Replay :=
  if r.playing then
    match r.forward with
    | (true, r) => r
    | (false, r) => { r with playing := false, message := "Playback complete" }
  else r

/-! ### Screen -/

def sourceView (r : Replay) : SourceView :=
  ⟨r.source, r.tokens, r.token?, r.error⟩

def status (r : Replay) : Status :=
  ⟨r.message, r.position, r.log.events.size, r.error.isSome, r.playing⟩

def sourceFrame (r : Replay) (width height : Nat) : Frame :=
  ⟨percent width 55, percent (height - 1) 65, r.focus == .source⟩

def tokensFrame (r : Replay) (width height : Nat) : Frame :=
  ⟨percent width 55, height - 1 - percent (height - 1) 65, r.focus == .tokens⟩

def traceFrame (r : Replay) (width height : Nat) : Frame :=
  ⟨width - percent width 55, height - 1, r.focus == .trace⟩

/-- Scrolls every pane so that it shows what the event is about. -/
def scrolled (r : Replay) (width height : Nat) : Replay :=
  { r with
    sourceScroll := SourcePane.scrolled (r.sourceFrame width height) r.sourceView r.sourceScroll
    tokensScroll :=
      TokensPane.scrolled (r.tokensFrame width height) r.tokens r.mark? r.tokensScroll
    traceScroll := TracePane.scrolled (r.traceFrame width height) r.log r.position r.traceScroll }

/-- The screen: the program above its tokens, the recorded steps beside them, and the bar. -/
def draw (r : Replay) (width height : Nat) : Picture :=
  let program :=
    SourcePane.draw (r.sourceFrame width height) r.sourceView r.sourceScroll.offset ++
      TokensPane.draw (r.tokensFrame width height) r.tokens r.mark? r.tokensScroll
  let steps := TracePane.draw (r.traceFrame width height) r.log r.position r.traceScroll
  program.beside steps ++ r.status.draw width (min height 1)

/-- Draws the screen, takes a key, and draws again. -/
def pressDrawn (r : Replay) (width height : Nat) (key : Key) : Replay :=
  ((r.scrolled width height).press key).scrolled width height

/-- Draws the screen, plays one step if the playback is running, and draws again. -/
def playDrawn (r : Replay) (width height : Nat) : Replay :=
  (r.scrolled width height).playStep.scrolled width height

end Replay

end ShellSyntax.Viewer
