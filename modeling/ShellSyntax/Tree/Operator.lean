/-! Operators and constants of the tree. -/

namespace ShellSyntax

inductive Constant where
  | none
  | true
  | false
  | ellipsis
  /-- A number as it is written. -/
  | number (text : String)
  | str (text : String)
  | bytes (text : String)
deriving DecidableEq, Repr, Inhabited

inductive BoolOp where
  | and
  | or
deriving DecidableEq, Repr, Inhabited

inductive BinOp where
  | add
  | sub
  | mult
  | matMult
  | div
  | mod
  | pow
  | leftShift
  | rightShift
  | bitOr
  | bitXor
  | bitAnd
  | floorDiv
deriving DecidableEq, Repr, Inhabited

namespace BinOp

def all : List BinOp :=
  [add, sub, mult, matMult, div, mod, pow, leftShift, rightShift, bitOr, bitXor, bitAnd, floorDiv]

def symbol : BinOp → String
  | add => "+"
  | sub => "-"
  | mult => "*"
  | matMult => "@"
  | div => "/"
  | mod => "%"
  | pow => "**"
  | leftShift => "<<"
  | rightShift => ">>"
  | bitOr => "|"
  | bitXor => "^"
  | bitAnd => "&"
  | floorDiv => "//"

def label : BinOp → String
  | add => "Add"
  | sub => "Sub"
  | mult => "Mult"
  | matMult => "MatMult"
  | div => "Div"
  | mod => "Mod"
  | pow => "Pow"
  | leftShift => "LShift"
  | rightShift => "RShift"
  | bitOr => "BitOr"
  | bitXor => "BitXor"
  | bitAnd => "BitAnd"
  | floorDiv => "FloorDiv"

def ofSymbol? (symbol : String) : Option BinOp :=
  all.find? fun op => op.symbol == symbol

theorem ofSymbol?_symbol (op : BinOp) : ofSymbol? op.symbol = some op := by
  cases op <;> decide

end BinOp

def BoolOp.label : BoolOp → String
  | .and => "And"
  | .or => "Or"

inductive UnaryOp where
  | invert
  | not
  | plus
  | minus
deriving DecidableEq, Repr, Inhabited

def UnaryOp.label : UnaryOp → String
  | .invert => "Invert"
  | .not => "Not"
  | .plus => "UAdd"
  | .minus => "USub"

inductive CmpOp where
  | eq
  | notEq
  | lt
  | le
  | gt
  | ge
  | is
  | isNot
  | isIn
  | notIn
deriving DecidableEq, Repr, Inhabited

def CmpOp.label : CmpOp → String
  | .eq => "Eq"
  | .notEq => "NotEq"
  | .lt => "Lt"
  | .le => "LtE"
  | .gt => "Gt"
  | .ge => "GtE"
  | .is => "Is"
  | .isNot => "IsNot"
  | .isIn => "In"
  | .notIn => "NotIn"

/-- What a command in an expression stands for. -/
inductive CaptureMode where
  /-- Its output as a string. -/
  | stdout
  /-- Nothing: its output goes to the terminal. -/
  | uncaptured
  /-- The process, its output going to the terminal. -/
  | hiddenObject
  /-- The process with its output. -/
  | object
  /-- Its output, split into arguments. -/
  | inject
deriving DecidableEq, Repr, Inhabited

namespace CaptureMode

def opener : CaptureMode → String
  | stdout => "$("
  | uncaptured => "$["
  | hiddenObject => "!["
  | object => "!("
  | inject => "@$("

def closer : CaptureMode → String
  | uncaptured | hiddenObject => "]"
  | stdout | object | inject => ")"

def label : CaptureMode → String
  | stdout => "Stdout"
  | uncaptured => "Uncaptured"
  | hiddenObject => "HiddenObject"
  | object => "Object"
  | inject => "Inject"

/-- All captures, in the order in which they are tried. -/
def all : List CaptureMode :=
  [stdout, uncaptured, hiddenObject, object, inject]

def ofOpener? (opener : String) : Option CaptureMode :=
  all.find? fun capture => capture.opener == opener

theorem ofOpener?_opener (capture : CaptureMode) : ofOpener? capture.opener = some capture := by
  cases capture <;> decide

end CaptureMode

/-- What joins a command to the one before it. -/
inductive StageLink where
  | pipe
  | and
  | or
deriving DecidableEq, Repr, Inhabited

def StageLink.label : StageLink → String
  | .pipe => "Pipe"
  | .and => "And"
  | .or => "Or"

end ShellSyntax
