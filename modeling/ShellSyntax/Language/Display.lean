import ShellSyntax.Language.Items
import ShellSyntax.Language.Mistake

/-! Expressions in brackets: groups, tuples, lists, sets, dictionaries and comprehensions. -/

namespace ShellSyntax.Language

open Matcher

/-! ### Comprehensions -/

/-- A condition on the items of a comprehension. -/
def filterClause : Match (Option Expr) := do
  if !(← accepts "if") then return none
  orExpr

/-- A loop of a comprehension with its conditions. -/
def forClause : Match (Option Comprehension) :=
  attempt fun _ => do
    let isAsync ← accepts "async"
    if !(← accepts "for") then return none
    let some target ← targetTuple | return none
    if !(← accepts "in") then return none
    let some iter ← orExpr | return none
    return some ⟨target, iter, ← many filterClause, isAsync⟩

def forClauses : Match (Option (List Comprehension)) :=
  many1 forClause

/-- An element and its loops, up to `closer`. -/
def comprehension (closer : String) : Match (Option (Expr × List Comprehension)) := do
  let some elt ← bindingExpr | return none
  let some generators ← forClauses | return none
  if !(← accepts closer) then return none
  return some (elt, generators)

/-- A comprehension in parentheses. -/
def generator : Match (Option Expr) :=
  attempt fun start => do
    if !(← accepts "(") then return none
    let some (elt, generators) ← comprehension ")" | return none
    node start (.generator elt generators)

/-! ### Groups and tuples -/

/-- What parentheses may hold: nothing, a yield, a comprehension, or expressions. One expression
without a comma stands for itself. -/
def parenthesized : Match (Option Expr) :=
  attempt fun start => do
    if !(← accepts "(") then return none
    if ← accepts ")" then return ← node start (.tuple [])
    let inside ← mark
    if let some value ← yielded then
      if ← accepts ")" then return some value
    reset start
    if let some value ← generator then return some value
    reset inside
    let some inner ← bindingTuple | return none
    if !(← accepts ")") then return none
    match inner.form with
    | .tuple items => node start (.tuple items)
    | _ => return some inner

/-! ### Lists, sets and dictionaries -/

/-- Items between commas, where a comma may follow the last, or none. -/
def bracketItems : Match (List Expr) := do
  match ← separated "," bindingOrSpread with
  | none => return []
  | some items =>
    let _ ← accepts ","
    return items

/-- What square brackets may hold: a comprehension or items. -/
def squareBracketed : Match (Option Expr) :=
  attempt fun start => do
    if !(← accepts "[") then return none
    let inside ← mark
    if let some (elt, generators) ← comprehension "]" then
      return ← node start (.listComp elt generators)
    reset inside
    let items ← bracketItems
    if !(← accepts "]") then return none
    node start (.list items)

/-- An entry and its loops, up to the closing brace. -/
def dictComprehension : Match (Option ((Expr × Expr) × List Comprehension)) := do
  let some pair ← entry | return none
  let some generators ← forClauses | return none
  if !(← accepts "\x7d") then return none
  return some (pair, generators)

/-- The entries of a dictionary and its closing brace. -/
def dictEntries : Match (Option (List (Option Expr × Expr))) := do
  let some pairs ← separated "," entryOrSpread | return none
  let _ ← accepts ","
  if !(← accepts "\x7d") then return none
  return some pairs

/-- What braces may hold: nothing, a comprehension, the entries of a dictionary, or the items of a
set. -/
def braced : Match (Option Expr) :=
  attempt fun start => do
    if !(← accepts "\x7b") then return none
    if ← accepts "\x7d" then return ← node start (.dict [] [])
    let inside ← mark
    if let some ((key, value), generators) ← dictComprehension then
      return ← node start (.dictComp key value generators)
    reset inside
    if let some (elt, generators) ← comprehension "\x7d" then
      return ← node start (.setComp elt generators)
    reset inside
    if let some pairs ← dictEntries then
      return ← node start (.dict (pairs.map Prod.fst) (pairs.map Prod.snd))
    reset inside
    if ← isDiagnosing then rejectMissingValue
    let items ← bracketItems
    if items.isEmpty then return none
    if !(← accepts "\x7d") then return none
    node start (.set items)

end ShellSyntax.Language
