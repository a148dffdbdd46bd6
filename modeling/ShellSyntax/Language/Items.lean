import ShellSyntax.Language.Rules
import ShellSyntax.Tree.Target

/-!
Lists of expressions between commas, starred expressions, yields, and what may be assigned to.
Targets are read as expressions of the level that stops before `in`, `=` and the comparisons, and
are then checked.
-/

namespace ShellSyntax.Language

open Matcher

/-! ### Items and yields -/

/-- Items between commas. One item without a comma stands for itself, all else is a tuple. -/
def tupleOrSingle (item : Match (Option Expr)) : Match (Option Expr) := do
  let start ← mark
  let some first ← item | return none
  let (items, isTuple) ← loop (fun ((items, isTuple) : List Expr × Bool) => do
    if !(← accepts ",") then stop (items, isTuple)
    else
      match ← item with
      | some value => again (items ++ [value], true)
      | none => stop (items, true)) ([first], false)
  if isTuple then node start (.tuple items) else return some first

/-- An unpacked expression, or a plain one. -/
def spreadOr (plain : Match (Option Expr)) : Match (Option Expr) := do
  let start ← mark
  if ← accepts "*" then
    let some value ← bitOrExpr | giveUp start
    node start (.starred value)
  else plain

def bindingOrSpread : Match (Option Expr) :=
  spreadOr bindingExpr

def spreadTuple : Match (Option Expr) :=
  tupleOrSingle exprOrSpread

def bindingTuple : Match (Option Expr) :=
  tupleOrSingle bindingOrSpread

def exprTuple : Match (Option Expr) :=
  tupleOrSingle expr

/-- A yield of all items of an expression, of a value, or of nothing. -/
def yielded : Match (Option Expr) := do
  let start ← mark
  if !(← accepts "yield") then return none
  if ← accepts "from" then
    let some value ← expr | giveUp start
    node start (.yieldFrom value)
  else node start (.yield (← spreadTuple))

/-- A yield, or expressions between commas. -/
def yieldOrTuple : Match (Option Expr) := do
  if let some value ← yielded then return some value
  spreadTuple

/-! ### Targets -/

/-- An expression of a form that `admits`. -/
def restricted (admits : ExprForm → Bool) : Match (Option Expr) :=
  attempt fun _ => do
    let some target ← bitOrExpr | return none
    if admits target.form then return some target else return none

/-- A name, an attribute, a subscript or a variable of the environment. -/
def soleTarget : Match (Option Expr) :=
  restricted ExprForm.isSoleTarget

def deletableTarget : Match (Option Expr) :=
  restricted fun form => form.isTarget && !form.isStarred

/-- A target, with any number of stars. -/
def targetItemRule : Match (Option Expr) := do
  let start ← mark
  if ← accepts "*" then
    let some inner ← targetItem | giveUp start
    node start (.starred inner)
  else restricted ExprForm.isTarget

def targetTuple : Match (Option Expr) :=
  tupleOrSingle targetItem

end ShellSyntax.Language
