/-! Pictures made of cells, row by row, and the colours and weights of their text. -/

namespace ShellSyntax.Viewer

/-! ### Colours and weights -/

inductive Color where
  | rgb (red green blue : Nat)
  | black
  | white
deriving DecidableEq, Repr, Inhabited

/-- Colours that are missing are those of the terminal. -/
structure Style where
  fg : Option Color
  bg : Option Color
  bold : Bool
  italic : Bool
deriving DecidableEq, Repr

namespace Style

def plain : Style :=
  ⟨none, none, false, false⟩

instance : Inhabited Style := ⟨plain⟩

def withFg (s : Style) (color : Color) : Style :=
  { s with fg := some color }

def withBg (s : Style) (color : Color) : Style :=
  { s with bg := some color }

def bolder (s : Style) : Style :=
  { s with bold := true }

def slanted (s : Style) : Style :=
  { s with italic := true }

/-- What `top` asks for over this style. -/
def patch (s top : Style) : Style :=
  ⟨top.fg <|> s.fg, top.bg <|> s.bg, s.bold || top.bold, s.italic || top.italic⟩

theorem plain_patch (s : Style) : plain.patch s = s := by
  cases s with
  | mk fg bg bold italic => cases fg <;> cases bg <;> rfl

theorem patch_plain (s : Style) : s.patch plain = s := by
  cases s with
  | mk fg bg bold italic => cases fg <;> cases bg <;> simp [patch, plain]

end Style

/-! ### Palette -/

namespace Palette

def fg : Color := .rgb 205 214 244

def blue : Color := .rgb 137 180 250

def orange : Color := .rgb 250 179 135

def grey : Color := .rgb 108 112 134

def green : Color := .rgb 166 227 161

def red : Color := .rgb 243 139 168

def teal : Color := .rgb 148 226 213

def yellow : Color := .rgb 249 226 175

def lineBack : Color := .rgb 50 50 70

def tokenBack : Color := .rgb 88 91 112

end Palette

/-! ### Cells -/

/-- One place on the screen and the text it shows. -/
structure Cell where
  symbol : String
  style : Style
deriving DecidableEq, Repr, Inhabited

abbrev Row := List Cell

abbrev Picture := List Row

/-- A piece of text in one style. -/
structure Run where
  text : String
  style : Style
deriving DecidableEq, Repr

namespace Row

def blank (width : Nat) (style : Style) : Row :=
  List.replicate width ⟨" ", style⟩

/-- What a text shows, cell by cell. A line feed takes no cell of its own; with a carriage return
before it the two take one. -/
def symbols : List Char → List String
  | '\r' :: '\n' :: rest => "\r\n" :: symbols rest
  | c :: rest => if c = '\n' then symbols rest else String.singleton c :: symbols rest
  | [] => []

/-- The cells of a text over `base`. -/
def ofRuns (base : Style) (runs : List Run) : Row :=
  runs.flatMap fun run => (symbols run.text.toList).map fun s => ⟨s, base.patch run.style⟩

/-- The row cut or filled up on the right to `width` cells. -/
def fit (width : Nat) (fill : Style) (row : Row) : Row :=
  row.take width ++ blank (width - row.length) fill

/-- The row cut on the right or filled up on the left to `width` cells. -/
def fitRight (width : Nat) (fill : Style) (row : Row) : Row :=
  blank (width - row.length) fill ++ row.take width

theorem length_fit (width : Nat) (fill : Style) (row : Row) :
    (row.fit width fill).length = width := by
  simp only [fit, blank, List.length_append, List.length_take, List.length_replicate]
  omega

theorem length_fitRight (width : Nat) (fill : Style) (row : Row) :
    (row.fitRight width fill).length = width := by
  simp only [fitRight, blank, List.length_append, List.length_take, List.length_replicate]
  omega

def text (row : Row) : String :=
  String.join (row.map Cell.symbol)

/-- The row cut into stretches of one style, each as long as can be. -/
def stretches (row : Row) : List Row :=
  row.splitBy fun a b => a.style == b.style

def firstStyle (row : Row) : Style :=
  (row.head?.map Cell.style).getD .plain

/-- The stretches of a row as pieces of text. -/
def runs (row : Row) : List Run :=
  row.stretches.map fun stretch => ⟨text stretch, firstStyle stretch⟩

end Row

namespace Picture

/-- Rows cut or filled up to `width` by `height` cells. -/
def fit (width height : Nat) (fill : Style) (picture : Picture) : Picture :=
  (picture.take height).map (Row.fit width fill) ++
    List.replicate (height - picture.length) (Row.blank width fill)

def beside (left right : Picture) : Picture :=
  left.zipWith (· ++ ·) right

/-- Pictures one under the other, as long as they fit into `height` rows. -/
def whole : (height : Nat) → List Picture → Picture
  | _, [] => []
  | height, picture :: others =>
    if picture.length ≤ height then picture ++ whole (height - picture.length) others else []

/-- The upper left part of a picture. -/
def crop (width height : Nat) (picture : Picture) : Picture :=
  (picture.take height).map (List.take width)

/-- A border with a title around `inside`, in all `width` by `height` cells. Where there is no
room for two borders, the upper and the left one stay. -/
def framed (width height : Nat) (border : Style) (title : String) (fill : Style)
    (inside : Picture) : Picture :=
  let line := List.replicate (width - 2) (Cell.mk "─" border)
  let head := (Row.ofRuns border [⟨title, .plain⟩]).take (width - 2)
  let edged (left : String) (row : Row) (right : String) : Row :=
    ⟨left, border⟩ :: row ++ [⟨right, border⟩]
  let rows := (inside.fit (width - 2) (height - 2) fill).map fun row => edged "│" row "│"
  crop width height
    ((edged "┌" (head ++ line.drop head.length) "┐" :: rows) ++ [edged "└" line "┘"])

end Picture

/-- So many percent of `whole`, to the nearest. -/
def percent (whole part : Nat) : Nat :=
  (whole * part + 50) / 100

def borderStyle (focused : Bool) : Style :=
  if focused then (Style.plain.withFg Palette.yellow).bolder else Style.plain.withFg Palette.grey

/-- How many rows of a pane are taken to be visible. -/
def visibleRows (height : Nat) : Nat :=
  max (height - 2) 1

/-- The first row to show so that `selected` is among the `visible` ones, moving as little as can
be from `offset`. -/
def scrollTo (selected offset visible total : Nat) : Nat :=
  let moved :=
    if selected < offset then selected
    else if offset + visible ≤ selected then selected + 1 - visible
    else offset
  min moved (total - visible)

/-- The text filled up on the left to at least `width` characters. -/
def padLeft (width : Nat) (text : String) : String :=
  String.ofList (List.replicate (width - text.length) ' ') ++ text

/-- The text filled up on the right to at least `width` characters. -/
def padRight (width : Nat) (text : String) : String :=
  text ++ String.ofList (List.replicate (width - text.length) ' ')

end ShellSyntax.Viewer
