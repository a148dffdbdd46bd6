import ShellSyntax.SyntaxError
import ShellSyntax.Text.Lines
import ShellSyntax.Token
import ShellSyntax.Trace
import ShellSyntax.Viewer.Canvas

/-!
The panes of the viewer. Two list tokens and recorded steps, one a row. One shows the program: every
character is styled by the token it belongs to, and what no token covers is plain, but for comments;
the token the parser is at and the place of the error stand out. The bar at the foot of the screen
says where the replay is, and the keys.
-/

namespace ShellSyntax.Viewer

/-! ### Lists -/

/-- The room that a pane has, and whether the keys go to it. -/
structure Frame where
  width : Nat
  height : Nat
  focused : Bool
deriving DecidableEq, Repr

namespace Frame

def visible (f : Frame) : Nat :=
  visibleRows f.height

/-- A pane that has nothing to list. -/
def vacant (f : Frame) (title note : String) : Picture :=
  let style := Style.plain.withFg Palette.grey
  let note := Row.ofRuns style [⟨note, .plain⟩]
  Picture.framed f.width f.height (borderStyle f.focused) title style [note]

/-- A pane with rows. -/
def listing (f : Frame) (title : String) (rows : Picture) : Picture :=
  Picture.framed f.width f.height (borderStyle f.focused) title .plain rows

end Frame

/-! ### Tokens -/

namespace TokensPane

def row (index : Nat) (token : Token) (selected : Bool) : Row :=
  let base := if selected then (Style.plain.withBg Palette.tokenBack).bolder else Style.plain
  Row.ofRuns .plain
    [⟨" ", .plain⟩,
      ⟨padLeft 5 (toString index) ++ " ", base.withFg Palette.grey⟩,
      ⟨padLeft 5 token.start.render ++ "-" ++ padRight 5 token.stop.render ++ " ",
        base.withFg Palette.grey⟩,
      ⟨padRight 14 token.kind.label ++ " ", base.withFg Palette.blue⟩,
      ⟨Text.quoted token.text, base.withFg Palette.fg⟩]

def title (tokens : Array Token) : String :=
  s!" Tokens ({tokens.size}) "

/-- The first row to show. -/
def scrolled (f : Frame) (tokens : Array Token) (mark : Option Nat) (scroll : Nat) : Nat :=
  match mark with
  | some mark =>
    if tokens.isEmpty then scroll
    else scrollTo (min mark (tokens.size - 1)) scroll f.visible tokens.size
  | none => scroll

/-- The tokens from row `scroll` on; the one at `mark` stands out. -/
def draw (f : Frame) (tokens : Array Token) (mark : Option Nat) (scroll : Nat) : Picture :=
  if tokens.isEmpty then f.vacant (title tokens) "(no tokens)"
  else
    let shown := (tokens.toList.zipIdx.drop scroll).take f.visible
    f.listing (title tokens) (shown.map fun (token, index) => row index token (mark == some index))

end TokensPane

/-! ### Recorded steps -/

namespace TracePane

def styleOfEvent : TraceEvent → Style
  | .enter _ _ _ => Style.plain.withFg Palette.fg
  | .exit _ _ _ true _ => Style.plain.withFg Palette.green
  | .exit _ _ _ false _ => Style.plain.withFg Palette.grey
  | .memo _ _ _ _ _ => Style.plain.withFg Palette.blue
  | .grow _ _ _ _ => Style.plain.withFg Palette.orange
  | .secondPass => (Style.plain.withFg Palette.red).bolder

/-- An event, on one row or, if it is named over several lines, on several. Its style fills the
rows to their ends. -/
def item (width index : Nat) (event : TraceEvent) (selected : Bool) : Picture :=
  let style := styleOfEvent event
  let style := if selected then (style.withBg Palette.lineBack).bolder else style
  let text := padLeft 6 (toString (index + 1)) ++ " " ++ event.describe
  (Text.shownLines text).map fun line =>
    ⟨" ", .plain⟩ :: (Row.ofRuns style [⟨String.ofList line, .plain⟩]).fit (width - 3) style

def title (log : TraceLog) : String :=
  if 0 < log.dropped then s!" Parse Trace ({log.dropped} dropped past {log.limit}) "
  else " Parse Trace "

/-- The first row to show. -/
def scrolled (f : Frame) (log : TraceLog) (position scroll : Nat) : Nat :=
  if log.events.isEmpty then scroll else scrollTo position scroll f.visible log.events.size

/-- The events from row `scroll` on; the one at `position` stands out. -/
def draw (f : Frame) (log : TraceLog) (position scroll : Nat) : Picture :=
  if log.events.isEmpty then f.vacant (title log) "(no events recorded)"
  else
    let shown := (log.events.toList.zipIdx.drop scroll).take f.visible
    let items := shown.map fun (event, index) => item f.width index event (index == position)
    f.listing (title log) (Picture.whole (f.height - 2) items)

end TracePane

/-! ### The program -/

def isShellOperator (text : String) : Bool :=
  1 < text.length && (text.toList.getLast?.any ['(', '[', '\x7b'].contains) ||
    text == "$" || text == "!"

def styleOfToken (token : Token) : Style :=
  match token.kind with
  | .name =>
    if Spelling.isKeyword token.text then (Style.plain.withFg Palette.blue).bolder
    else Style.plain.withFg Palette.fg
  | .string | .fstringStart | .fstringMiddle | .fstringEnd | .pathSearch | .number =>
    Style.plain.withFg Palette.orange
  | .macroParam => (Style.plain.withFg Palette.orange).slanted
  | .op => Style.plain.withFg (if isShellOperator token.text then Palette.teal else Palette.fg)
  | .error => Style.plain.withFg Palette.red
  | _ => Style.plain.withFg Palette.fg

/-- The columns that a token covers on line `number`, which is `width` long. -/
def extentOnLine (token : Token) (number width : Nat) : Option (Nat × Nat) :=
  if number < token.start.line ∨ token.stop.line < number then none
  else
    let start := min (if number = token.start.line then token.start.column else 0) width
    let stop := min (if number = token.stop.line then token.stop.column else width) width
    if start < stop then some (start, stop) else none

/-- A character with its style, and whether a token covers it. -/
structure Painted where
  char : Char
  style : Style
  covered : Bool

/-- Changes the characters in some columns. -/
def paint (columns : Option (Nat × Nat)) (change : Painted → Painted) (line : List Painted) :
    List Painted :=
  match columns with
  | none => line
  | some (start, stop) =>
    line.take start ++ ((line.drop start).take (stop - start)).map change ++
      line.drop (max start stop)

/-- A number sign that no token covers starts a comment. -/
def paintComment (line : List Painted) : List Painted :=
  let before := line.takeWhile fun p => p.covered || p.char != '#'
  before ++ (line.drop before.length).map fun p =>
    if p.covered then p else { p with style := Style.plain.withFg Palette.grey }

def errorColumns (error : SyntaxError) (number width : Nat) : Option (Nat × Nat) :=
  if error.start.line = number then
    let stop :=
      if error.stop.line = number ∧ error.start.column < error.stop.column then error.stop.column
      else min error.start.column width + 1
    some (min error.start.column width, min stop width)
  else none

def errorStyle : Style :=
  ((Style.plain.withBg Palette.red).withFg .white).bolder

/-- What the token that the parser is at makes of the style of its characters. -/
def currentStyle (base : Style) : Style :=
  (base.withBg Palette.tokenBack).bolder

/-- What the pane shows. -/
structure SourceView where
  source : String
  tokens : Array Token
  /-- The token the parser is at. -/
  current : Option Token
  error : Option SyntaxError

namespace SourceView

/-- Line `number` with a style for each of its characters. -/
def painted (view : SourceView) (number : Nat) (line : List Char) : Row :=
  let width := line.length
  let plain := line.map fun c => Painted.mk c (Style.plain.withFg Palette.fg) false
  let tokens := view.tokens.foldl (fun line token =>
    paint (extentOnLine token number width)
      (fun p => { p with style := styleOfToken token, covered := true }) line) plain
  let commented := paintComment tokens
  let current := paint (view.current.bind fun token => extentOnLine token number width)
    (fun p => { p with style := currentStyle p.style }) commented
  let failed := paint (view.error.bind fun error => errorColumns error number width)
    (fun p => { p with style := errorStyle }) current
  failed.map fun p => ⟨String.singleton p.char, p.style⟩

/-- Line `number` in pieces of one style. -/
def highlight (view : SourceView) (number : Nat) (line : List Char) : List Run :=
  (view.painted number line).runs

/-- The line that the view is about: that of the token, or else of the error. -/
def currentLine (view : SourceView) : Nat :=
  match view.current, view.error with
  | some token, _ => token.start.line
  | none, some error => error.start.line
  | none, none => 0

def row (view : SourceView) (number : Nat) (line : List Char) : Row :=
  let isCurrent := number == view.currentLine
  let margin :=
    if isCurrent then (Style.plain.withFg Palette.orange).bolder
    else Style.plain.withFg Palette.grey
  let base := if isCurrent then Style.plain.withBg Palette.lineBack else Style.plain
  Row.ofRuns .plain [⟨padLeft 4 (toString number) ++ " ", margin⟩] ++
    Row.ofRuns base (view.highlight number line)

end SourceView

structure SourceScroll where
  offset : Nat
  /-- The row at which the current line is held, once there is one. -/
  targetRow : Option Nat
deriving DecidableEq, Repr, Inhabited

namespace SourceScroll

def start : SourceScroll :=
  ⟨0, none⟩

/-- Scrolls so that the current line is at its row, as far as the text reaches. -/
def scrollTo (scroll : SourceScroll) (currentLine total visible : Nat) : SourceScroll :=
  let row := min (scroll.targetRow.getD (visible / 2)) (visible - 1)
  let offset :=
    if 0 < currentLine ∧ currentLine ≤ total then
      if visible < total then min (currentLine - 1 - row) (total - visible) else 0
    else scroll.offset
  ⟨offset, some row⟩

end SourceScroll

namespace SourcePane

def scrolled (f : Frame) (view : SourceView) (scroll : SourceScroll) : SourceScroll :=
  scroll.scrollTo view.currentLine (Text.shownLines view.source).length f.visible

/-- The lines from `offset` on. -/
def draw (f : Frame) (view : SourceView) (offset : Nat) : Picture :=
  let shown := ((Text.shownLines view.source).zipIdx.drop offset).take f.visible
  f.listing " Source " (shown.map fun (line, index) => view.row (index + 1) line)

end SourcePane

/-! ### The foot of the screen -/

structure Status where
  message : String
  step : Nat
  total : Nat
  rejected : Bool
  playing : Bool
deriving DecidableEq, Repr

namespace Status

def back : Style :=
  Style.plain.withBg Palette.lineBack

def stepText (s : Status) : String :=
  if s.total = 0 then " Step 0/0 " else s!" Step {s.step + 1}/{s.total} "

/-- A label that stands out. -/
def label (color : Color) : Style :=
  ((Style.plain.withBg color).withFg .black).bolder

def progress (s : Status) : List Run :=
  [⟨s.stepText, label (if s.rejected then Palette.red else Palette.blue)⟩,
    ⟨" | ", back.withFg Palette.grey⟩,
    ⟨s!" {s.message} ", back.withFg (if s.rejected then Palette.red else Palette.fg)⟩]

def bar : Run :=
  ⟨"│", back.withFg Palette.grey⟩

def key (text : String) : Run :=
  ⟨text, (Style.plain.withBg Palette.grey).withFg .black⟩

def hint (text : String) : Run :=
  ⟨text, back.withFg Palette.fg⟩

def keys : List Run :=
  [key " ←/→ ", hint " step ", bar, hint " ",
    key " e ", hint " exit rule ", bar, hint " ",
    key " ⎵ ", hint " play ", bar, hint " ",
    key " ↵ / ⌫ ", hint " end/start ", bar, hint " ",
    key "q", hint " quit "]

/-- Whether the replay is running, or at one of its ends. -/
def indicator (s : Status) : List Run :=
  if s.playing then [bar, ⟨" ▶ PLAYING ", label Palette.orange⟩]
  else if 0 < s.total ∧ s.total ≤ s.step + 1 then [bar, ⟨" END ", label Palette.red⟩]
  else if s.step = 0 then [bar, ⟨" START ", label Palette.green⟩]
  else []

/-- Where the replay is to the left, the keys to the right. -/
def draw (s : Status) (width height : Nat) : Picture :=
  let half := percent width 50
  let row :=
    (Row.ofRuns back s.progress).fit half back ++
      (Row.ofRuns back (keys ++ s.indicator)).fitRight (width - half) back
  Picture.fit width height back [row]

end Status

end ShellSyntax.Viewer
