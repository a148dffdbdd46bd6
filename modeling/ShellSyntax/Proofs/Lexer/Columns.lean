import ShellSyntax.Lexer.Classes

/-!
Columns of indentation. They are machine words, and they are the exact columns as long as every one
of them fits; on a line that is short for its tabs they do.
-/

namespace ShellSyntax.Lexeme

variable {tabSize column : Nat} {margin : List Char}

/-- The column of the first content of `text`, however large it is. -/
def exactWidth (tabSize : Nat) (text : List Char) : Nat :=
  (text.takeWhile isSpace).foldl (nextColumn tabSize) 0

theorem foldl_widen (hcolumn : column < wordSize) (hfits : overruns tabSize column margin = false) :
    margin.foldl (widen tabSize) column = margin.foldl (nextColumn tabSize) column := by
  induction margin generalizing column with
  | nil => rfl
  | cons c margin induction =>
    rw [overruns, Bool.or_eq_false_iff, decide_eq_false_iff_not] at hfits
    have hnext : widen tabSize column c = nextColumn tabSize column c :=
      Nat.mod_eq_of_lt (Nat.lt_of_not_le hfits.1)
    rw [List.foldl_cons, List.foldl_cons, hnext]
    rw [hnext] at hfits
    exact induction (Nat.lt_of_not_le hfits.1) hfits.2

theorem indentWidth_eq_exactWidth {text : List Char} (hfits : indentOverruns tabSize text = false) :
    indentWidth tabSize text = exactWidth tabSize text :=
  foldl_widen (by decide) hfits

theorem indentOverruns_nil : indentOverruns tabSize [] = false :=
  rfl

end ShellSyntax.Lexeme
