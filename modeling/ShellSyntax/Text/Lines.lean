import ShellSyntax.Text.Blank

/-! Physical lines: a text cut after every line feed, and a block of lines without its margin. -/

namespace ShellSyntax.Text

/-- The lines of a text, each with its terminator if it had one. -/
def splitLines : List Char → List (List Char)
  | [] => []
  | c :: rest =>
    if c = '\n' then [c] :: splitLines rest
    else
      match splitLines rest with
      | [] => [[c]]
      | line :: lines => (c :: line) :: lines

theorem flatten_splitLines (text : List Char) : (splitLines text).flatten = text := by
  induction text with
  | nil => rfl
  | cons c rest ih =>
    by_cases hc : c = '\n'
    · simp [splitLines, hc, ih]
    · cases h : splitLines rest with
      | nil => simp_all [splitLines]
      | cons line lines => simp_all [splitLines]

/-- A line without the line feeds and carriage returns that end it. -/
def withoutTerminator (line : List Char) : List Char :=
  (line.reverse.dropWhile fun c => c == '\n' || c == '\r').reverse

/-- The lines of a text as they are shown: without a line feed, and the carriage return right
before it, at their end. -/
def shownLines (text : String) : List (List Char) :=
  (splitLines text.toList).map fun line =>
    match line.reverse with
    | '\n' :: '\r' :: rest => rest.reverse
    | '\n' :: rest => rest.reverse
    | _ => line

/-! ### Margins -/

def commonPrefix : List Char → List Char → List Char
  | a :: as, b :: bs => if a = b then a :: commonPrefix as bs else []
  | _, _ => []

/-- The white space that starts every line of `lines`. -/
def commonMargin : List (List Char) → List Char
  | [] => []
  | [line] => line.takeWhile isBlank
  | line :: lines => commonPrefix (line.takeWhile isBlank) (commonMargin lines)

/-- Removes the white space common to the start of every line that is not blank. A blank line
keeps its line feed only. -/
def dedent (text : List Char) : List Char :=
  let lines := splitLines text
  let margin := commonMargin (lines.filter fun line => !allBlank line)
  lines.flatMap fun line =>
    if allBlank line then (if line.getLast? = some '\n' then ['\n'] else [])
    else line.drop margin.length

end ShellSyntax.Text
