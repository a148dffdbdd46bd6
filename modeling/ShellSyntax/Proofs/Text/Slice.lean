import Mathlib.Data.List.TakeWhile
import ShellSyntax.Position
import ShellSyntax.Text.Blank
import ShellSyntax.Text.Lines

/-!
Places in a text as numbers of characters before them, and the text between two places. Trimming
takes off the white space around a text and nothing of the text itself.
-/

namespace ShellSyntax.Text

/-- How many characters the first `count` lines have. -/
def upTo (text : List Char) (count : Nat) : Nat :=
  ((splitLines text).take count).flatten.length

/-- How many characters stand before a place. -/
def offset (text : List Char) (place : Position) : Nat :=
  upTo text (place.line - 1) + place.column

/-- The characters from `start` to `stop`. -/
def slice (text : List Char) (start stop : Position) : List Char :=
  (text.drop (offset text start)).take (offset text stop - offset text start)

/-! ### Lines -/

theorem splitLines_shape {text line : List Char} {before after : List (List Char)}
    (hlines : splitLines text = before ++ line :: after) :
    ∃ body, '\n' ∉ body ∧ (line = body ++ ['\n'] ∨ line = body ∧ body ≠ [] ∧ after = []) := by
  induction text generalizing before line with
  | nil => simp [splitLines] at hlines
  | cons c rest induction =>
    rw [splitLines] at hlines
    split at hlines
    case isTrue hc =>
      cases before with
      | nil =>
        obtain ⟨rfl, _⟩ := List.cons.inj hlines
        exact ⟨[], by simp, .inl (by simp [hc])⟩
      | cons first before =>
        obtain ⟨_, hrest⟩ := List.cons.inj hlines
        exact induction hrest
    case isFalse hc =>
      cases hsplit : splitLines rest with
      | nil =>
        rw [hsplit] at hlines
        cases before with
        | nil =>
          obtain ⟨rfl, hafter⟩ := List.cons.inj hlines
          exact ⟨[c], by simpa using Ne.symm hc, .inr ⟨rfl, by simp, hafter.symm⟩⟩
        | cons first before => simp at hlines
      | cons head lines =>
        rw [hsplit] at hlines
        cases before with
        | nil =>
          obtain ⟨rfl, rfl⟩ := List.cons.inj hlines
          obtain ⟨body, hbody, hshape⟩ := @induction head [] hsplit
          refine ⟨c :: body, by simpa using ⟨Ne.symm hc, hbody⟩, ?_⟩
          obtain rfl | ⟨rfl, _, rfl⟩ := hshape
          · exact .inl rfl
          · exact .inr ⟨rfl, by simp, rfl⟩
        | cons first before =>
          obtain ⟨_, rfl⟩ := List.cons.inj hlines
          exact @induction line (head :: before) hsplit

theorem splitLines_split (text : List Char) (count : Nat) :
    text = ((splitLines text).take count).flatten ++ ((splitLines text).drop count).flatten := by
  rw [← List.flatten_append, List.take_append_drop, flatten_splitLines]

theorem take_upTo (text : List Char) (count : Nat) :
    text.take (upTo text count) = ((splitLines text).take count).flatten :=
  calc text.take (upTo text count)
    _ = (((splitLines text).take count).flatten ++
          ((splitLines text).drop count).flatten).take (upTo text count) := by
        rw [← splitLines_split]
    _ = ((splitLines text).take count).flatten := List.take_left

theorem drop_upTo (text : List Char) (count : Nat) :
    text.drop (upTo text count) = ((splitLines text).drop count).flatten :=
  calc text.drop (upTo text count)
    _ = (((splitLines text).take count).flatten ++
          ((splitLines text).drop count).flatten).drop (upTo text count) := by
        rw [← splitLines_split]
    _ = ((splitLines text).drop count).flatten := List.drop_left

theorem upTo_le (text : List Char) (count : Nat) : upTo text count ≤ text.length := by
  have hsplit := congrArg List.length (splitLines_split text count)
  rw [List.length_append] at hsplit
  rw [upTo]
  omega

theorem upTo_mono (text : List Char) {count more : Nat} (hle : count ≤ more) :
    upTo text count ≤ upTo text more := by
  obtain ⟨further, rfl⟩ := Nat.exists_eq_add_of_le hle
  rw [upTo, upTo, List.take_add, List.flatten_append, List.length_append]
  exact Nat.le_add_right _ _

theorem upTo_succ {text line : List Char} {count : Nat} {after : List (List Char)}
    (hline : (splitLines text).drop count = line :: after) :
    upTo text (count + 1) = upTo text count + line.length := by
  rw [upTo, List.take_add, hline]
  simp [upTo]

theorem take_upTo_succ {text line : List Char} {count : Nat} {after : List (List Char)}
    (hline : (splitLines text).drop count = line :: after) :
    text.take (upTo text (count + 1)) = text.take (upTo text count) ++ line := by
  rw [take_upTo, take_upTo, List.take_add, hline]
  simp

/-! ### Places -/

theorem offset_lineStart (text : List Char) (line : Nat) :
    offset text ⟨line + 1, 0⟩ = upTo text line := by
  simp [offset]

theorem offset_forward (text : List Char) (line column count : Nat) :
    offset text ⟨line, column + count⟩ = offset text ⟨line, column⟩ + count := by
  simp [offset, Nat.add_assoc]

theorem slice_self (text : List Char) (place : Position) : slice text place place = [] := by
  simp [slice]

theorem slice_append {text : List Char} {a b c : Position} (hab : offset text a ≤ offset text b)
    (hbc : offset text b ≤ offset text c) :
    slice text a b ++ slice text b c = slice text a c := by
  obtain ⟨first, hfirst⟩ := Nat.exists_eq_add_of_le hab
  obtain ⟨second, hsecond⟩ := Nat.exists_eq_add_of_le hbc
  simp only [slice]
  rw [show offset text c - offset text a = first + second by omega,
    show offset text b - offset text a = first by omega,
    show offset text c - offset text b = second by omega, hfirst, List.take_add, List.drop_drop]

theorem slice_congr {text : List Char} {a b c d : Position} (hac : offset text a = offset text c)
    (hbd : offset text b = offset text d) : slice text a b = slice text c d := by
  rw [slice, slice, hac, hbd]

end ShellSyntax.Text

namespace ShellSyntax.Text

/-- The text has no white space around it, and it is not empty. -/
def Tight (chars : List Char) : Prop :=
  (∃ c, chars.head? = some c ∧ isBlank c = false) ∧
    ∃ c, chars.getLast? = some c ∧ isBlank c = false

theorem Tight.singleton {c : Char} (hblank : isBlank c = false) : Tight [c] :=
  ⟨⟨c, rfl, hblank⟩, c, rfl, hblank⟩

theorem Tight.ne_nil {chars : List Char} (tight : Tight chars) : chars ≠ [] := by
  rintro rfl
  obtain ⟨⟨_, hnone, _⟩, _⟩ := tight
  cases hnone

/-- Text that does not start with white space still does not if more of it follows. -/
theorem Tight.append_singleton {chars : List Char} {c : Char} (tight : Tight chars)
    (more : List Char) (hblank : isBlank c = false) : Tight (chars ++ more ++ [c]) := by
  obtain ⟨⟨first, hfirst, hsolid⟩, _⟩ := tight
  refine ⟨⟨first, ?_, hsolid⟩, c, ?_, hblank⟩
  · rw [List.append_assoc, List.head?_append, hfirst, Option.some_or]
  · exact List.getLast?_concat

theorem trimStart_append {before chars : List Char} (hbefore : ∀ c ∈ before, isBlank c = true)
    {first : Char} (hfirst : chars.head? = some first) (hsolid : isBlank first = false) :
    trimStart (before ++ chars) = chars := by
  obtain ⟨rest, rfl⟩ := List.head?_eq_some_iff.mp hfirst
  rw [trimStart, List.dropWhile_append_of_pos hbefore]
  exact List.dropWhile_cons_of_neg (by simp [hsolid])

theorem trim_eq {before chars after : List Char} (tight : Tight chars)
    (hbefore : ∀ c ∈ before, isBlank c = true) (hafter : ∀ c ∈ after, isBlank c = true) :
    trim (before ++ (chars ++ after)) = chars := by
  obtain ⟨⟨first, hfirst, hstart⟩, last, hlast, hend⟩ := tight
  have hhead : (chars ++ after).head? = some first := by
    rw [List.head?_append, hfirst, Option.some_or]
  have hback : trimStart (after.reverse ++ chars.reverse) = chars.reverse :=
    trimStart_append (fun c hc => hafter c (List.mem_reverse.mp hc))
      (by rw [List.head?_reverse, hlast]) hend
  rw [trimStart] at hback
  rw [trim, trimStart_append hbefore hhead hstart, trimEnd, List.reverse_append, hback,
    List.reverse_reverse]

theorem trim_of_blank {chars : List Char} (hblank : ∀ c ∈ chars, isBlank c = true) :
    trim chars = [] := by
  have hnone : trimStart chars = [] := List.dropWhile_eq_nil_iff.mpr hblank
  rw [trim, hnone]
  rfl

end ShellSyntax.Text
