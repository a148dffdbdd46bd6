/-! Backslash escapes in string literals. -/

namespace ShellSyntax.Text

def hexDigit? (c : Char) : Option Nat :=
  if c.isDigit then some (c.toNat - '0'.toNat)
  else if 'a' ≤ c ∧ c ≤ 'f' then some (c.toNat - 'a'.toNat + 10)
  else if 'A' ≤ c ∧ c ≤ 'F' then some (c.toNat - 'A'.toNat + 10)
  else none

def octalDigit? (c : Char) : Option Nat :=
  if '0' ≤ c ∧ c ≤ '7' then some (c.toNat - '0'.toNat) else none

/-- The number that a run of hexadecimal digits writes; a leading plus sign is allowed. -/
def hexNumber? (digits : List Char) : Option Nat :=
  let digits := if digits.head? = some '+' then digits.tail else digits
  if digits.isEmpty then none
  else digits.foldlM (fun value c => (hexDigit? c).map (value * 16 + ·)) 0

def scalar? (value : Nat) : Option Char :=
  if h : value.isValidChar then some (Char.ofNatAux value h) else none

/-- The character that exactly `width` digits at the start of `text` name. -/
def codePoint? (width : Nat) (text : List Char) : Option Char :=
  let digits := text.take width
  if digits.length = width then (hexNumber? digits).bind scalar? else none

def letterEscape? : Char → Option Char
  | '\\' => some '\\'
  | '\'' => some '\''
  | '"' => some '"'
  | 'n' => some '\n'
  | 't' => some '\t'
  | 'r' => some '\r'
  | 'a' => some '\x07'
  | 'b' => some '\x08'
  | 'f' => some '\x0c'
  | 'v' => some '\x0b'
  | _ => none

/-- How many digits follow an escape that names a code point. -/
def codeWidth? : Char → Option Nat
  | 'x' => some 2
  | 'u' => some 4
  | 'U' => some 8
  | _ => none

/-- What a backslash before `next` and `rest` stands for, and how many characters of `rest`
belong to it. Unknown escapes stay as written. -/
def escape (next : Char) (rest : List Char) : List Char × Nat :=
  if next = '\n' then ([], 0)
  else if let some c := letterEscape? next then ([c], 0)
  else if let some first := octalDigit? next then
    let more := (rest.take 2).takeWhile fun c => (octalDigit? c).isSome
    let value := more.foldl (fun value c => value * 8 + (octalDigit? c).getD 0) first
    ((scalar? value).toList, more.length)
  else if let some width := codeWidth? next then
    match codePoint? width rest with
    | some c => ([c], width)
    | none => (['\\', next], 0)
  else (['\\', next], 0)

/-- The text with its escapes decoded. A backslash at the very end stays. -/
def decodeEscapes : List Char → List Char
  | [] => []
  | '\\' :: next :: rest =>
    let (decoded, used) := escape next rest
    decoded ++ decodeEscapes (rest.drop used)
  | c :: rest => c :: decodeEscapes rest
termination_by text => text.length
decreasing_by all_goals simp +arith

end ShellSyntax.Text
