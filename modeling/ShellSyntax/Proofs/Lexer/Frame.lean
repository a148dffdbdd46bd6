import ShellSyntax.Lexer.Step

/-! What the small operations on a lexer change, and what they leave as it is. -/

namespace ShellSyntax.Lexer

theorem append_singleton_eq_split {α : Type} {before after found : List α} {item last : α}
    (hsplit : found ++ [last] = before ++ item :: after) :
    after = [] ∧ before = found ∧ item = last ∨
      ∃ middle, after = middle ++ [last] ∧ found = before ++ item :: middle := by
  obtain rfl | ⟨middle, final, rfl⟩ := List.eq_nil_or_concat after
  · obtain ⟨hbefore, hlast⟩ := List.append_inj' hsplit rfl
    exact .inl ⟨rfl, hbefore.symm, (List.cons.inj hlast).1.symm⟩
  · rw [List.concat_eq_append, ← List.cons_append, ← List.append_assoc] at hsplit
    obtain ⟨hbefore, hlast⟩ := List.append_inj' hsplit rfl
    obtain ⟨rfl, _⟩ := List.cons.inj hlast
    exact .inr ⟨middle, List.concat_eq_append, hbefore⟩

theorem append_eq_split {α : Type} {first second before after : List α} {item : α}
    (hsplit : first ++ second = before ++ item :: after) :
    (∃ middle, first = before ++ item :: middle ∧ after = middle ++ second) ∨
      ∃ middle, before = first ++ middle ∧ second = middle ++ item :: after := by
  obtain ⟨middle, rfl, hsecond⟩ | ⟨middle, rfl, hitem⟩ := List.append_eq_append_iff.mp hsplit
  · exact .inr ⟨middle, rfl, hsecond⟩
  · cases middle with
    | nil => exact .inr ⟨[], by simp, hitem.symm⟩
    | cons other middle =>
      obtain ⟨rfl, rfl⟩ := List.cons.inj hitem
      exact .inl ⟨middle, rfl, rfl⟩

variable (l : Lexer)

@[simp] theorem measure_frame (text : List Char) :
    (l.measure text).unread = l.unread ∧
    (l.measure text).rest = l.rest ∧
    (l.measure text).lineText = l.lineText ∧
    (l.measure text).lineNumber = l.lineNumber ∧
    (l.measure text).column = l.column ∧
    (l.measure text).indents = l.indents ∧
    (l.measure text).brackets = l.brackets ∧
    (l.measure text).modes = l.modes ∧
    (l.measure text).continued = l.continued ∧
    (l.measure text).pending = l.pending ∧
    (l.measure text).tabSize = l.tabSize ∧
    (l.measure text).finished = l.finished ∧
    (l.measure text).bound = l.bound :=
  ⟨rfl, rfl, rfl, rfl, rfl, rfl, rfl, rfl, rfl, rfl, rfl, rfl, rfl⟩

theorem measure_congr {text text' : List Char}
    (hmargin : text'.takeWhile Lexeme.isSpace = text.takeWhile Lexeme.isSpace) :
    l.measure text' = l.measure text := by
  rw [measure, measure, Lexeme.indentOverruns, Lexeme.indentOverruns, hmargin]

@[simp] theorem here_measure (text : List Char) : (l.measure text).here = l.here :=
  rfl

@[simp] theorem remember_frame (kind : TokenKind) (text : String) (stop : Position) :
    (l.remember kind text stop).unread = l.unread ∧
    (l.remember kind text stop).rest = l.rest ∧
    (l.remember kind text stop).lineText = l.lineText ∧
    (l.remember kind text stop).lineNumber = l.lineNumber ∧
    (l.remember kind text stop).column = l.column ∧
    (l.remember kind text stop).indents = l.indents ∧
    (l.remember kind text stop).brackets = l.brackets ∧
    (l.remember kind text stop).modes = l.modes ∧
    (l.remember kind text stop).continued = l.continued ∧
    (l.remember kind text stop).pending = l.pending ∧
    (l.remember kind text stop).tabSize = l.tabSize ∧
    (l.remember kind text stop).finished = l.finished ∧
    (l.remember kind text stop).bound = l.bound ∧
    (l.remember kind text stop).overflowed = l.overflowed := by
  unfold remember
  split
  · simp
  · cases kind <;> simp

@[simp] theorem addToken_frame (kind : TokenKind) (text : String) (start stop : Position) :
    (l.addToken kind text start stop).unread = l.unread ∧
    (l.addToken kind text start stop).rest = l.rest ∧
    (l.addToken kind text start stop).lineText = l.lineText ∧
    (l.addToken kind text start stop).lineNumber = l.lineNumber ∧
    (l.addToken kind text start stop).column = l.column ∧
    (l.addToken kind text start stop).indents = l.indents ∧
    (l.addToken kind text start stop).brackets = l.brackets ∧
    (l.addToken kind text start stop).modes = l.modes ∧
    (l.addToken kind text start stop).continued = l.continued ∧
    (l.addToken kind text start stop).pending =
      l.pending ++ [⟨kind, text, start, stop, l.lineText⟩] ∧
    (l.addToken kind text start stop).tabSize = l.tabSize ∧
    (l.addToken kind text start stop).finished = l.finished ∧
    (l.addToken kind text start stop).bound = l.bound ∧
    (l.addToken kind text start stop).overflowed = l.overflowed := by
  simp [addToken, push]

@[simp] theorem take_frame (kind : TokenKind) (count : Nat) :
    (l.take kind count).unread = l.unread ∧
    (l.take kind count).rest = l.rest.drop count ∧
    (l.take kind count).lineText = l.lineText ∧
    (l.take kind count).lineNumber = l.lineNumber ∧
    (l.take kind count).column = l.column + count ∧
    (l.take kind count).indents = l.indents ∧
    (l.take kind count).brackets = l.brackets ∧
    (l.take kind count).modes = l.modes ∧
    (l.take kind count).continued = l.continued ∧
    (l.take kind count).pending =
      l.pending ++ [⟨kind, String.ofList (l.rest.take count), l.here,
        ⟨l.lineNumber, l.column + count⟩, l.lineText⟩] ∧
    (l.take kind count).tabSize = l.tabSize ∧
    (l.take kind count).finished = l.finished ∧
    (l.take kind count).bound = l.bound ∧
    (l.take kind count).overflowed = l.overflowed := by
  simp [take, advance, here]

theorem addToken_pending (kind : TokenKind) (text : String) (start stop : Position) :
    (l.addToken kind text start stop).pending =
      l.pending ++ [⟨kind, text, start, stop, l.lineText⟩] := by
  simp only [addToken_frame]

theorem take_pending (kind : TokenKind) (count : Nat) :
    (l.take kind count).pending =
      l.pending ++ [⟨kind, String.ofList (l.rest.take count), l.here,
        ⟨l.lineNumber, l.column + count⟩, l.lineText⟩] := by
  simp only [take_frame]

theorem needsNewline_addToken {kind : TokenKind} (hkind : kind.isLayout = false)
    (text : String) (start stop : Position) :
    (l.addToken kind text start stop).needsNewline = (l.needsNewline || !kind.isFiller) := by
  revert hkind
  cases kind <;>
    simp [addToken, push, remember, needsNewline, TokenKind.isFiller, TokenKind.isLayout]

theorem needsNewline_take {kind : TokenKind} (hkind : kind.isLayout = false)
    (count : Nat) : (l.take kind count).needsNewline = (l.needsNewline || !kind.isFiller) :=
  needsNewline_addToken l hkind (String.ofList (l.rest.take count)) l.here (l.advance count).here

theorem needsNewline_filler {kind : TokenKind} (hfiller : kind.isFiller = true)
    (count : Nat) : (l.take kind count).needsNewline = l.needsNewline := by
  have hkind : kind.isLayout = false := by
    revert hfiller
    cases kind <;> decide
  rw [needsNewline_take l hkind, hfiller, Bool.not_true, Bool.or_false]

theorem needsNewline_word (kind : TokenKind) (count : Nat)
    (hkind : kind.isLayout = false) (hfiller : kind.isFiller = false) :
    (l.take kind count).needsNewline = true := by
  rw [needsNewline_take l hkind, hfiller, Bool.not_false, Bool.or_true]

end ShellSyntax.Lexer
