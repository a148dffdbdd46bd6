import ShellSyntax.Language.Items
import ShellSyntax.Language.Rules
import ShellSyntax.Text.Escape

/-! String literals: the letters before the quote, adjacent literals, and f-strings. -/

namespace ShellSyntax

/-- What the letters before a quote ask for. -/
structure StringFlags where
  raw : Bool
  bytes : Bool
  formatted : Bool
  path : Bool
deriving DecidableEq, Repr, Inhabited

namespace StringFlags

def ofLetters (letters : List Char) : StringFlags :=
  let lower := letters.map Char.toLower
  ⟨lower.contains 'r', lower.contains 'b', lower.contains 'f', lower.contains 'p'⟩

end StringFlags

namespace StringLiteral

def isQuote (c : Char) : Bool :=
  c == '\'' || c == '"'

/-- What is left of `text` without its first `count` bytes, unless that cuts a character. -/
def dropBytes : (count : Nat) → List Char → Option (List Char)
  | 0, text => some text
  | _ + 1, [] => none
  | count + 1, c :: rest =>
    if c.utf8Size ≤ count + 1 then dropBytes (count + 1 - c.utf8Size) rest else none
termination_by _ text => text.length

/-- The text between quotes of `size` bytes; empty if there are no such quotes. -/
def unquoted (size : Nat) (text : List Char) : List Char :=
  (((dropBytes size text).bind fun rest => dropBytes size rest.reverse).getD []).reverse

/-- The flags of a string literal and the text between its quotes. -/
def split (text : List Char) : StringFlags × List Char :=
  let letters := if text.any isQuote then text.takeWhile fun c => !isQuote c else []
  let quoted := text.drop letters.length
  let triple := ["'''", "\"\"\""].any fun quote => quote.toList.isPrefixOf quoted
  (.ofLetters letters, unquoted (if triple then 3 else 1) quoted)

end StringLiteral

namespace FormatPart

/-- Adds a part. Literal text joins the literal text before it, and empty text is left out. -/
def add (parts : List FormatPart) (part : FormatPart) : List FormatPart :=
  match part with
  | .literal text =>
    if text.isEmpty then parts
    else
      match parts.getLast? with
      | some (.literal last) => parts.dropLast ++ [.literal (last ++ text)]
      | _ => parts ++ [part]
  | .field _ _ _ _ => parts ++ [part]

/-- Makes every pair of `brace` one. -/
def halve (brace : Char) : List Char → List Char
  | a :: b :: rest =>
    if a = brace ∧ b = brace then brace :: halve brace rest else a :: halve brace (b :: rest)
  | rest => rest

/-- The literal text of an f-string. -/
def decodeText (raw : Bool) (text : String) : String :=
  let text := halve '\x7d' (halve '\x7b' text.toList)
  String.ofList (if raw then text else Text.decodeEscapes text)

end FormatPart

namespace Language

open Matcher

/-- What has been read of adjacent string literals. -/
structure Gathered where
  parts : List FormatPart
  count : Nat
  formatted : Bool
  bytes : Bool
  path : Bool

def Gathered.none : Gathered :=
  ⟨[], 0, false, false, false⟩

def Gathered.addString (g : Gathered) (token : Token) : Gathered :=
  let (flags, body) := StringLiteral.split token.text.toList
  let text := if flags.raw then body else Text.decodeEscapes body
  { g with
    parts := FormatPart.add g.parts (.literal (String.ofList text))
    count := g.count + 1
    bytes := g.bytes || flags.bytes
    path := g.path || flags.path }

def Gathered.addFString (g : Gathered) (flags : StringFlags) (parts : List FormatPart) : Gathered :=
  { g with
    parts := parts.foldl FormatPart.add g.parts
    count := g.count + 1
    formatted := true
    path := g.path || flags.path }

/-- The literal that the adjacent strings make. -/
def Gathered.literal (g : Gathered) : ExprForm :=
  if g.formatted then .fstring g.parts
  else
    let text :=
      match g.parts.getLast? with
      | some (.literal text) => text
      | _ => ""
    .constant (if g.bytes then .bytes text else .str text)

/-- One f-string, with the flags that its letters ask for. -/
def fstringLiteral : Match (Option (StringFlags × List FormatPart)) :=
  attempt fun _ => do
    let some opening ← ofKind .fstringStart | return none
    let flags :=
      StringFlags.ofLetters (opening.text.toList.reverse.dropWhile StringLiteral.isQuote).reverse
    let some parts ← fstringInside flags.raw | return none
    if !(← acceptsKind .fstringEnd) then return none
    return some (flags, parts)

/-- Adjacent string literals. -/
def stringRunRule : Match (Option Expr) := do
  let start ← mark
  let g ← loop (fun g : Gathered => do
    if let some token ← ofKind .string then again (g.addString token)
    else if let some (flags, parts) ← fstringLiteral then again (g.addFString flags parts)
    else stop g) Gathered.none
  if g.count = 0 then return none
  let span ← spanSince start
  let literal : Expr := ⟨g.literal, span⟩
  return some (if g.path then ⟨.path literal, span⟩ else literal)

/-- The characters of a line between two columns. -/
def columnsOf (line : String) (start stop : Nat) : String :=
  String.ofList ((line.toList.drop start).take (stop - start))

/-- An exclamation mark with the letter of a conversion right behind it. -/
def conversion : Match (Option Char) :=
  attempt fun _ => do
    let some mark ← spelled "!" | return none
    let some letter ← name | return none
    match letter.touches mark, letter.text.toList with
    | true, [c] => return some c
    | _, _ => return none

/-- An expression in braces, with an equals sign to show its own text, a conversion, and a colon
before a format specification. -/
def formatField (raw : Bool) : Match (Option FormatPart) :=
  attempt fun _ => do
    let some opening ← spelled "\x7b" | return none
    let some value ← yieldOrTuple | return none
    let debugText := (← spelled "=").map fun equals =>
      columnsOf opening.line opening.stop.column equals.stop.column
    let letter ← conversion
    let mut spec := []
    if ← accepts ":" then
      let some parts ← fstringInside raw | return none
      spec := parts
    if !(← accepts "\x7d") then return none
    return some (.field value debugText letter spec)

/-- Literal text and replacement fields. -/
def fstringInsideRule (raw : Bool) : Match (Option (List FormatPart)) :=
  loop (fun parts : List FormatPart => do
    if let some token ← ofKind .fstringMiddle then
      again (FormatPart.add parts (.literal (FormatPart.decodeText raw token.text)))
    else if let some field ← formatField raw then again (parts ++ [field])
    else stop (some parts)) []

/-- A search between backticks. -/
def pathSearch : Match (Option Expr) := do
  let start ← mark
  let some token ← ofKind .pathSearch | return none
  node start (.pathSearch (.ofText token.text.toList))

end Language

end ShellSyntax
