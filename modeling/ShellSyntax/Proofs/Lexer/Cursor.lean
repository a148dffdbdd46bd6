import ShellSyntax.Proofs.Lexer.Progress
import ShellSyntax.Proofs.Lexer.Tiling

/-! Where the cursor of a lexer stands in the text that it reads. -/

namespace ShellSyntax.Lexer

open Text

/-- What the lexer has still to read is what the text holds behind its line and at its end. -/
structure Cursor (text : List Char) (l : Lexer) : Prop where
  unread : l.unread = ((splitLines text).drop l.lineNumber).map .text
  rest : l.rest <:+ text.take (upTo text l.lineNumber)

/-- The column counts the characters of the line before the cursor. -/
def Placed (text : List Char) (l : Lexer) : Prop :=
  offset text l.here + l.rest.length = upTo text l.lineNumber

variable {text : List Char} {l : Lexer}

theorem drop_here (cursor : Cursor text l) (placed : Placed text l) :
    text.drop (offset text l.here) = l.rest ++ text.drop (upTo text l.lineNumber) := by
  obtain ⟨before, hbefore⟩ := cursor.rest
  have hsplit : text = before ++ (l.rest ++ text.drop (upTo text l.lineNumber)) := by
    rw [← List.append_assoc, hbefore, List.take_append_drop]
  have hlength : offset text l.here = before.length := by
    have hlengths := congrArg List.length hbefore
    have hle := upTo_le text l.lineNumber
    rw [List.length_append, List.length_take, Nat.min_eq_left hle] at hlengths
    rw [Placed] at placed
    omega
  rw [hlength]
  calc text.drop before.length
    _ = (before ++ (l.rest ++ text.drop (upTo text l.lineNumber))).drop before.length := by
        rw [← hsplit]
    _ = l.rest ++ text.drop (upTo text l.lineNumber) := List.drop_left

theorem here_forward (text : List Char) (l : Lexer) (count : Nat) :
    offset text ⟨l.lineNumber, l.column + count⟩ = offset text l.here + count :=
  offset_forward text _ _ count

theorem slice_here (cursor : Cursor text l) (placed : Placed text l) {count : Nat}
    (hcount : count ≤ l.rest.length) :
    slice text l.here ⟨l.lineNumber, l.column + count⟩ = l.rest.take count := by
  rw [slice, drop_here cursor placed, here_forward, Nat.add_sub_cancel_left,
    List.take_append_of_le_length hcount]

theorem onLine_forward (placed : Placed text l) {count : Nat} (hcount : count ≤ l.rest.length) :
    OnLine text ⟨l.lineNumber, l.column + count⟩ := by
  rw [OnLine, here_forward]
  change _ ≤ upTo text l.lineNumber
  rw [Placed] at placed
  omega

theorem onLine_here (placed : Placed text l) : OnLine text l.here :=
  onLine_forward placed (Nat.zero_le _)

theorem here_le_forward (l : Lexer) (count : Nat) : l.here ≤ ⟨l.lineNumber, l.column + count⟩ :=
  .inr ⟨rfl, Nat.le_add_right _ _⟩

/-! ### Moves of the cursor -/

theorem Cursor.congr {l' : Lexer} (cursor : Cursor text l) (hunread : l'.unread = l.unread)
    (hnumber : l'.lineNumber = l.lineNumber) (hrest : l'.rest <:+ l.rest) : Cursor text l' where
  unread := by rw [hunread, hnumber, cursor.unread]
  rest := by
    rw [hnumber]
    exact hrest.trans cursor.rest

theorem Placed.congr {l' : Lexer} (count : Nat) (placed : Placed text l)
    (hnumber : l'.lineNumber = l.lineNumber) (hcolumn : l'.column = l.column + count)
    (hrest : l'.rest = l.rest.drop count) (hcount : count ≤ l.rest.length) : Placed text l' := by
  have hforward := here_forward text l count
  rw [Placed] at placed ⊢
  rw [here, hnumber, hcolumn, hforward, hrest, List.length_drop]
  omega

theorem Cursor.advance (cursor : Cursor text l) (count : Nat) : Cursor text (l.advance count) :=
  cursor.congr rfl rfl (List.drop_suffix _ _)

theorem Cursor.measure (cursor : Cursor text l) (line : List Char) : Cursor text (l.measure line) :=
  ⟨cursor.unread, cursor.rest⟩

theorem Placed.advance (placed : Placed text l) {count : Nat} (hcount : count ≤ l.rest.length) :
    Placed text (l.advance count) :=
  placed.congr _ rfl rfl rfl hcount

theorem Cursor.lines {line : List Char} {unread : Source} (cursor : Cursor text l)
    (hunread : l.unread = .text line :: unread) :
    ∃ after, (splitLines text).drop l.lineNumber = line :: after ∧ unread = after.map .text := by
  have hlines := cursor.unread
  rw [hunread] at hlines
  cases hdrop : (splitLines text).drop l.lineNumber with
  | nil => simp [hdrop] at hlines
  | cons first after =>
    rw [hdrop, List.map_cons] at hlines
    obtain ⟨hfirst, hafter⟩ := List.cons.inj hlines
    obtain rfl := SourceLine.text.inj hfirst
    exact ⟨after, rfl, hafter⟩

theorem Cursor.nextLine {line : List Char} {unread : Source} (cursor : Cursor text l)
    (hunread : l.unread = .text line :: unread) :
    Cursor text (l.nextLine line unread) ∧ Placed text (l.nextLine line unread) ∧
      offset text (l.nextLine line unread).here = upTo text l.lineNumber := by
  obtain ⟨after, hdrop, hafter⟩ := cursor.lines hunread
  have hplace : offset text (l.nextLine line unread).here = upTo text l.lineNumber :=
    offset_lineStart text l.lineNumber
  refine ⟨⟨?_, ?_⟩, ?_, hplace⟩
  · change unread = ((splitLines text).drop (l.lineNumber + 1)).map .text
    rw [hafter, ← List.drop_drop, hdrop]
    rfl
  · change line <:+ text.take (upTo text (l.lineNumber + 1))
    rw [take_upTo_succ hdrop]
    exact List.suffix_append _ _
  · rw [Placed, hplace]
    exact (upTo_succ hdrop).symm

theorem offset_nextLine {line : List Char} {unread : Source} (cursor : Cursor text l)
    (placed : Placed text l) (hrest : l.rest = [])
    (hunread : l.unread = .text line :: unread) :
    offset text (l.nextLine line unread).here = offset text l.here := by
  rw [(cursor.nextLine hunread).2.2, ← placed, hrest]
  rfl

theorem upTo_of_unread_nil (cursor : Cursor text l) (hunread : l.unread = []) :
    upTo text l.lineNumber = text.length := by
  have hlines := cursor.unread
  rw [hunread] at hlines
  have hdrop : (splitLines text).drop l.lineNumber = [] := List.map_eq_nil_iff.mp hlines.symm
  have hle := List.drop_eq_nil_iff.mp hdrop
  rw [upTo, List.take_of_length_le hle, flatten_splitLines]

/-! ### Looking ahead -/

theorem rest_on_line (cursor : Cursor text l) (placed : Placed text l) (hrest : l.rest ≠ []) :
    ∃ number line after, l.lineNumber = number + 1 ∧
      (splitLines text).drop number = line :: after ∧ l.rest <:+ line := by
  have hpositive := List.length_pos_iff.mpr hrest
  cases hnumber : l.lineNumber with
  | zero =>
    rw [Placed, hnumber] at placed
    simp only [upTo, List.take_zero, List.flatten_nil, List.length_nil] at placed
    omega
  | succ number =>
    have hwithin : upTo text number + l.rest.length ≤ upTo text (number + 1) := by
      rw [Placed, hnumber] at placed
      have hoffset : offset text l.here = upTo text number + l.column := by
        simp [offset, here, hnumber]
      omega
    cases hdrop : (splitLines text).drop number with
    | nil =>
      have hsame : upTo text (number + 1) = upTo text number := by
        rw [upTo, List.take_add, hdrop]
        simp [upTo]
      omega
    | cons line after =>
      rw [upTo_succ hdrop] at hwithin
      have hsuffix := cursor.rest
      rw [hnumber, take_upTo_succ hdrop] at hsuffix
      exact ⟨number, line, after, rfl, hdrop,
        List.suffix_of_suffix_length_le hsuffix (List.suffix_append _ _) (by omega)⟩

theorem rest_shape (cursor : Cursor text l) (placed : Placed text l) (hrest : l.rest ≠ []) :
    ∃ body, '\n' ∉ body ∧
      (l.rest = body ++ ['\n'] ∨
        l.rest = body ∧ text.drop (upTo text l.lineNumber) = [] ∧ l.unread = []) := by
  obtain ⟨number, line, after, hnumber, hdrop, hline⟩ := rest_on_line cursor placed hrest
  have hsplit : splitLines text = (splitLines text).take number ++ line :: after := by
    rw [← hdrop, List.take_append_drop]
  obtain ⟨body, hbody, hshape⟩ := splitLines_shape hsplit
  obtain ⟨before, hbefore⟩ := hline
  obtain rfl | ⟨rfl, _, rfl⟩ := hshape
  · obtain hnil | ⟨rest, last, hconcat⟩ := List.eq_nil_or_concat l.rest
    · exact absurd hnil hrest
    · rw [hconcat, List.concat_eq_append, ← List.append_assoc] at hbefore
      obtain ⟨rfl, hlast⟩ := List.append_inj' hbefore rfl
      refine ⟨rest, fun hmem => hbody (List.mem_append_right _ hmem), .inl ?_⟩
      rw [hconcat, List.concat_eq_append, hlast]
  · have hend : (splitLines text).drop (number + 1) = [] := by
      rw [← List.drop_drop, hdrop]
      rfl
    refine ⟨l.rest, ?_, .inr ⟨rfl, ?_, ?_⟩⟩
    · intro hmem
      exact hbody (hbefore ▸ List.mem_append_right _ hmem)
    · rw [drop_upTo, hnumber, hend]
      rfl
    · rw [cursor.unread, hnumber, hend]
      rfl

theorem isPrefixOf_drop_here (cursor : Cursor text l) (placed : Placed text l)
    (hrest : l.rest ≠ []) {word : List Char} (hword : '\n' ∉ word) :
    word.isPrefixOf (text.drop (offset text l.here)) = word.isPrefixOf l.rest := by
  rw [drop_here cursor placed]
  obtain ⟨body, hbody, hshape | ⟨_, hend, _⟩⟩ := rest_shape cursor placed hrest
  · rw [Bool.eq_iff_iff, List.isPrefixOf_iff_prefix, List.isPrefixOf_iff_prefix]
    constructor
    · intro hleads
      have hlength : word.length ≤ l.rest.length := by
        refine Nat.le_of_not_lt fun hlong => hword ?_
        obtain ⟨after, hafter⟩ : l.rest <+: word :=
          List.prefix_of_prefix_length_le (List.prefix_append _ _) hleads (Nat.le_of_lt hlong)
        rw [← hafter, hshape]
        simp
      exact List.prefix_of_prefix_length_le hleads (List.prefix_append _ _) hlength
    · exact fun hleads => hleads.trans (List.prefix_append _ _)
  · rw [hend, List.append_nil]

end ShellSyntax.Lexer
