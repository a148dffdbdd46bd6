import ShellSyntax.Proofs.Language.Accepted
import ShellSyntax.Proofs.Language.AlikeStatements

/-!
Line ends. A program whose lines end in line feeds is accepted with carriage returns in front of
these too, and its tree is the same but for the line ends in texts: where a literal goes on over a
line end, its text has the carriage return too. Only a backslash in front of the line end tells the
two kinds of line ends apart: in front of a line feed it joins the lines, and otherwise it stays.
-/

namespace ShellSyntax

open ShellSyntax.Language Text

variable {lines : List (List Char)} {text : List Char} {tabSize : Nat} {joints : Bool}

/-! ### The start -/

theorem Text.oneLine_of_splitLines (hreturn : '\r' ∉ text) :
    ∀ line ∈ splitLines text, OneLine line := by
  intro line hline
  have hreturn' : '\r' ∉ line := fun hmem =>
    hreturn (flatten_splitLines text ▸ List.mem_flatten_of_mem hline hmem)
  have hone {body rest : List Char} (hfeed : '\n' ∉ body) (hreturn : '\r' ∉ body)
    (hrest : OneLine rest) :
      OneLine (body ++ rest) := by
    induction body with
    | nil => exact hrest
    | cons c body induction =>
      rw [List.mem_cons, not_or] at hfeed hreturn
      exact .cons (Ne.symm hfeed.1) (Ne.symm hreturn.1) (induction hfeed.2 hreturn.2)
  rcases feed_last_of_line hline with hfeed | ⟨body, hfeed, rfl⟩
  · exact List.append_nil line ▸ hone hfeed hreturn' .nil
  · exact hone hfeed (fun hmem => hreturn' (List.mem_append_left _ hmem)) .feed

namespace Lexer

theorem twins_ofSource (lines : List (List Char)) (tabSize : Nat) :
    Twins lines (.ofSource (lines.map .text) tabSize)
      (.ofSource (lines.map fun line => .text (withReturns line)) tabSize) where
  unread := rfl
  unread' := rfl
  rest := rfl
  stands hrest := absurd rfl hrest
  lineText := rfl
  here := rfl
  indents := rfl
  brackets := rfl
  modes := rfl
  printed := nofun
  continued := rfl
  pending := .nil
  lastSignificant := rfl
  tabSize := rfl
  finished := rfl
  recent := .none
  lineTokens := rfl
  withHeader := rfl

theorem bound_le_bound (lines : List (List Char)) (tabSize : Nat) :
    (ofSource (lines.map .text) tabSize).bound ≤
      (ofSource (lines.map fun line => .text (withReturns line)) tabSize).bound := by
  have hsum : ((lines.map SourceLine.text).map fun line => line.size + 1).sum ≤
      ((lines.map fun line => SourceLine.text (withReturns line)).map
        fun line => line.size + 1).sum := by
    induction lines with
    | nil => exact Nat.le_refl _
    | cons line lines induction =>
      have hline := length_withReturns line
      simp only [List.map_cons, List.sum_cons, SourceLine.size] at induction ⊢
      omega
  rw [bound_ofSource, bound_ofSource]
  simp only [toCome, ofSource, List.length_nil] at hsum ⊢
  omega

end Lexer

/-- Where the lexer finds a literal in the source in which a backslash joins lines. -/
def Source.HasJoint (source : Source) (tabSize : Nat) : Prop :=
  ∃ found l, Lexer.Reaches source tabSize found l ∧ ∃ t ∈ found, t.HasJoint

/-- A text, and the text with returns. -/
def returnedSources (hreturn : '\r' ∉ text)
    (hjoints : joints = false → ¬ Source.HasJoint (.ofText text) tabSize) :
    (resemblance (splitLines text) joints).Sources where
  source := .ofText text
  source' := .ofText (withReturns text)
  tabSize := tabSize
  oneLine := oneLine_of_splitLines hreturn
  known found l reached t hmem :=
    ⟨reached.quoted hmem, fun hfalse hjoint => hjoints hfalse ⟨found, l, reached, t, hmem, hjoint⟩⟩
  endMarker _ := ⟨nofun, fun _ hjoint => hjoint.1.elim (fun h => nomatch h.1) nofun⟩

theorem Source.ofText_withReturns (text : List Char) :
    ofText (withReturns text) = (splitLines text).map fun line => .text (withReturns line) := by
  rw [ofText, splitLines_withReturns, List.map_map]
  rfl

namespace Program

variable {origin : Option Origin} {options : ParseOptions}

theorem beside_start (hreturn : '\r' ∉ text)
    (hjoints : joints = false → ¬ Source.HasJoint (.ofText text) options.tabSize)
    (origin origin' : Option Origin) :
    (returnedSources hreturn hjoints).Beside (start (.ofText text) origin options)
      (start (.ofText (withReturns text)) origin' options) where
  stream :=
    { lexer := Source.ofText_withReturns text ▸ Lexer.twins_ofSource _ _
      reached := ⟨[], .start⟩
      reached' := ⟨[], .start⟩
      bound := Source.ofText_withReturns text ▸ Lexer.bound_le_bound _ _
      tokens := .nil
      noted := ⟨rfl, nofun⟩
      lastReal := rfl
      index := rfl }
  memo key := by
    simp only [start, session, Session.ofStream, Std.HashMap.getElem?_empty]
    exact .none
  active := rfl
  quiet := rfl
  quiet' := rfl
  nesting := rfl

theorem tree_like {mode : ParseMode} {found found' : mode.entry.Node}
    (h : NodeLike lines joints mode.entry found found') :
    (mode.tree found).Like lines joints (mode.tree found') := by
  cases mode with
  | exec => exact .module h
  | eval => exact .expression h

theorem parse_withReturns (joints : Bool) (hreturn : '\r' ∉ text)
    (hjoints : joints = false → ¬ Source.HasJoint (.ofText text) options.tabSize) {tree : Ast}
    {s : ProgramSession}
    (hparse : parse options.mode (start (.ofText text) origin options) = (.ok tree, s))
    (origin' : Option Origin) :
    ∃ tree' s', parse options.mode (start (.ofText (withReturns text)) origin' options) =
      (.ok tree', s') ∧ tree.Like (splitLines text) joints tree' := by
  obtain ⟨found, hrun, rfl⟩ := parse_entry hparse
  obtain ⟨found', s', hrun', hlike⟩ :=
    parse_follows body_pairs (beside_start hreturn hjoints origin origin') hrun
  exact ⟨_, s', parse_of_entry hrun', tree_like hlike⟩

/-- A program without carriage returns that is accepted is also accepted with one in front of every
line feed. The trees have the same shape, each node of the second spans what the node of the first
does, and texts in them differ in the line ends, and in joints of lines that stay where there are
any. -/
theorem line_ends_change_texts_only (text : String) (hreturn : '\r' ∉ text.toList)
    (origin origin' : Option Origin) (options : ParseOptions) {tree : Ast} {s : ProgramSession}
    (hparse : parse options.mode (start (.ofString text) origin options) = (.ok tree, s)) :
    ∃ tree' s', parse options.mode (start (.ofString (returned text)) origin' options) =
        (.ok tree', s') ∧
      tree.Like (splitLines text.toList) true tree' ∧
      (¬ Source.HasJoint (.ofString text) options.tabSize →
        tree.Like (splitLines text.toList) false tree') := by
  have hsource : Source.ofString (returned text) = .ofText (withReturns text.toList) := by
    rw [Source.ofString, toList_returned]
  rw [hsource]
  obtain ⟨tree', s', hparse', hlike⟩ :=
    parse_withReturns true hreturn (fun h => absurd h (by decide)) hparse origin'
  refine ⟨tree', s', hparse', hlike, fun hjoint => ?_⟩
  obtain ⟨tree'', s'', hparse'', hlike'⟩ :=
    parse_withReturns false hreturn (fun _ => hjoint) hparse origin'
  cases hparse'.symm.trans hparse''
  exact hlike'

theorem line_ends_change_texts_only_of_literal :
    '\r' ∉ "x = \"\"\"a\nb\"\"\"\n".toList ∧ ∃ tree s tree' s',
      parse .exec (start (.ofString "x = \"\"\"a\nb\"\"\"\n") none .default) = (.ok tree, s) ∧
      parse .exec (start (.ofString "x = \"\"\"a\r\nb\"\"\"\r\n") none .default) = (.ok tree', s') ∧
      tree.Like [['x', ' ', '=', ' ', '"', '"', '"', 'a', '\n'], ['b', '"', '"', '"', '\n']] true
        tree' := by
  have hreturn : '\r' ∉ "x = \"\"\"a\nb\"\"\"\n".toList := by decide +kernel
  obtain ⟨tree, s, hparse, -⟩ := accepted_of_read (.ofString "x = \"\"\"a\nb\"\"\"\n") none
    .default (fun _ => true) 5000 (by decide +kernel) (by decide +kernel)
  have haccepted : parse ParseOptions.default.mode
      (start (.ofString "x = \"\"\"a\nb\"\"\"\n") none .default) = (.ok (.module tree), s) := hparse
  obtain ⟨tree', s', hparse', hlike, -⟩ :=
    line_ends_change_texts_only _ hreturn none none .default haccepted
  have htext : returned "x = \"\"\"a\nb\"\"\"\n" = "x = \"\"\"a\r\nb\"\"\"\r\n" := by decide +kernel
  rw [htext] at hparse'
  exact ⟨hreturn, _, s, tree', s', hparse, hparse', hlike⟩

def assignedString? (tree : Module) : Option String :=
  match tree.body with
  | [⟨.assign _ ⟨.constant (.str text), _⟩, _⟩] => some text
  | _ => none

/-- A joint in a string is dropped from a program whose lines end in line feeds. The same program
with carriage returns in front of these is accepted with another string. -/
theorem joint_changes_string :
    (∃ tree s, parse .exec (start (.ofString "x = 'a\\\nb'\n") none .default) =
        (.ok (.module tree), s) ∧ assignedString? tree = some "ab") ∧
      ∃ tree s, parse .exec (start (.ofString "x = 'a\\\r\nb'\r\n") none .default) =
        (.ok (.module tree), s) ∧ assignedString? tree = some "a\\\r\nb" := by
  refine ⟨?_, ?_⟩
  · obtain ⟨tree, s, hparse, hstring⟩ := accepted_of_read (.ofString "x = 'a\\\nb'\n") none .default
      (fun tree => assignedString? tree == some "ab") 5000 (by decide +kernel) (by decide +kernel)
    exact ⟨tree, s, hparse, beq_iff_eq.mp hstring⟩
  · obtain ⟨tree, s, hparse, hstring⟩ := accepted_of_read (.ofString "x = 'a\\\r\nb'\r\n") none
      .default (fun tree => assignedString? tree == some "a\\\r\nb") 5000 (by decide +kernel)
      (by decide +kernel)
    exact ⟨tree, s, hparse, beq_iff_eq.mp hstring⟩

end Program

end ShellSyntax
