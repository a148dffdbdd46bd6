import ShellSyntax.Text.Quoted

/-! Printed trees: records, constructors and lists, one part a line. -/

namespace ShellSyntax

inductive Shape where
  /-- Text as it is. -/
  | atom (text : String)
  | record (name : String) (fields : List (String × Shape))
  /-- A name with parts in parentheses. -/
  | applied (name : String) (part : Shape)
  | list (items : List Shape)

namespace Shape

def text (s : String) : Shape :=
  atom (Text.quoted s)

def nat (n : Nat) : Shape :=
  atom (toString n)

def bool (b : Bool) : Shape :=
  atom (if b then "true" else "false")

def option : Option Shape → Shape
  | some shape => applied "Some" shape
  | none => atom "None"

def margin (depth : Nat) : String :=
  String.ofList (List.replicate (4 * depth) ' ')

mutual

/-- The shape as text, its further lines indented by `depth` steps. Every part is followed by a
comma. -/
def renderAt (depth : Nat) : Shape → String
  | atom text => text
  | record name fields =>
    name ++ " \x7b\n" ++ renderFields (depth + 1) fields ++ margin depth ++ "\x7d"
  | applied name part =>
    name ++ "(\n" ++ margin (depth + 1) ++ renderAt (depth + 1) part ++ ",\n" ++ margin depth ++ ")"
  | list [] => "[]"
  | list (item :: items) =>
    "[\n" ++ renderItems (depth + 1) (item :: items) ++ margin depth ++ "]"

def renderFields (depth : Nat) : List (String × Shape) → String
  | [] => ""
  | (name, shape) :: fields =>
    margin depth ++ name ++ ": " ++ renderAt depth shape ++ ",\n" ++ renderFields depth fields

def renderItems (depth : Nat) : List Shape → String
  | [] => ""
  | shape :: shapes => margin depth ++ renderAt depth shape ++ ",\n" ++ renderItems depth shapes

end

def render (shape : Shape) : String :=
  renderAt 0 shape

end Shape

end ShellSyntax
