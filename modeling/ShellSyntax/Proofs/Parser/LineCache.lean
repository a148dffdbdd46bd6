import ShellSyntax.Proofs.Lexer.Shown
import ShellSyntax.Proofs.Parser.Buffer

/-!
The lines that a stream knows. However a stream is driven, and whatever failed on the way, it knows
of each line what the first token shows that starts on it.
-/

namespace ShellSyntax

open Outcome Lexer

/-- A token that the lexer hands out in some state that it can come to. -/
def Lexer.HandsOut (source : Source) (tabSize : Nat) (token : Token) : Prop :=
  ∃ found l l', Visits source tabSize found l ∧ pull l = .ok token l'

namespace TokenStream

variable {source : Source} {tabSize : Nat} {s : TokenStream}

/-- Each line that the stream knows is the line of a token that starts there. -/
structure KnowsLines (source : Source) (tabSize : Nat) (s : TokenStream) : Prop where
  visited : ∃ found, Visits source tabSize found s.lexer
  origin : s.origin = none
  known : ∀ number line, s.lineCache[number]? = some line →
    ∃ token, HandsOut source tabSize token ∧ token.start.line = number ∧ token.line = line

theorem KnowsLines.readRaw (knows : KnowsLines source tabSize s) :
    KnowsLines source tabSize (final (readRaw s)) := by
  obtain ⟨found, visited⟩ := knows.visited
  obtain ⟨before, rfl⟩ := visited.ready
  have next := visited.pull
  rw [TokenStream.readRaw]
  cases hpull : pull s.lexer with
  | error e l =>
    rw [hpull] at next
    exact ⟨⟨_, next⟩, knows.origin, knows.known⟩
  | ok token l =>
    rw [hpull] at next
    refine ⟨⟨_, next⟩, knows.origin, fun number line hline => ?_⟩
    change (s.lineCache.insertIfNew token.start.line token.line)[number]? = some line at hline
    rw [Std.HashMap.getElem?_insertIfNew] at hline
    split at hline
    case isTrue hnew =>
      obtain ⟨hnumber, _⟩ := hnew
      exact ⟨token, ⟨_, _, _, visited, hpull⟩, eq_of_beq hnumber, Option.some.inj hline⟩
    case isFalse => exact knows.known number line hline

theorem KnowsLines.fill (knows : KnowsLines source tabSize s) (fuel : Nat) :
    KnowsLines source tabSize (final (fill fuel s)) := by
  induction fuel generalizing s with
  | zero => exact knows
  | succ fuel induction =>
    have read := knows.readRaw
    rw [TokenStream.fill, run_bind]
    cases hread : TokenStream.readRaw s with
    | error e t =>
      rw [hread] at read
      exact read
    | ok token t =>
      rw [hread] at read
      rw [final_get_bind]
      split
      · exact induction read
      · exact ⟨read.visited, read.origin, read.known⟩

theorem KnowsLines.peek (knows : KnowsLines source tabSize s) :
    KnowsLines source tabSize (final (peek s)) := by
  by_cases hread : s.index = s.tokens.size
  · have filled := knows.fill s.lexer.bound
    simp only [TokenStream.peek, run_bind, run_get, if_pos hread]
    cases hfill : TokenStream.fill s.lexer.bound s with
    | error e t =>
      rw [hfill] at filled
      exact filled
    | ok _ t =>
      rw [hfill] at filled
      exact filled
  · simp only [TokenStream.peek, run_bind, run_get, if_neg hread]
    exact knows

theorem KnowsLines.next (knows : KnowsLines source tabSize s) :
    KnowsLines source tabSize (final (next s)) := by
  have looked := knows.peek
  rw [TokenStream.next, run_bind]
  cases hpeek : TokenStream.peek s with
  | error e t =>
    rw [hpeek] at looked
    exact looked
  | ok token t =>
    rw [hpeek] at looked
    exact ⟨looked.visited, looked.origin, looked.known⟩

theorem lines_of_origin_none (horigin : s.origin = none) (numbers : List Nat) :
    s.lines numbers = (numbers.filterMap (s.lineCache[·]?), s) := by
  cases s
  subst horigin
  rfl

theorem Drives.knowsLines {t : TokenStream} (drives : Drives s t)
    (knows : KnowsLines source tabSize s) : KnowsLines source tabSize t := by
  induction drives with
  | refl => exact knows
  | peek _ induction => exact induction.peek
  | next _ induction => exact induction.next
  | reset _ _ induction => exact ⟨induction.visited, induction.origin, induction.known⟩
  | lines _ numbers induction =>
    rw [lines_of_origin_none induction.origin]
    exact induction

/-- Every token that is handed out, also behind failures, shows the line on which it starts, or it
is literal text or raw text and shows the line on which it ends, or it stands behind the last line.
However a stream on the source is driven, it knows nothing of a line or what a token shows that
starts on the line. -/
theorem shown_and_known_lines (text : String) (tabSize : Nat) :
    (∀ token, HandsOut (.ofString text) tabSize token → token.ShowsLine text.toList) ∧
    ∀ s, Drives (ofString text tabSize) s → ∀ number,
      (s.lines [number]).1 = [] ∨ ∃ token, HandsOut (.ofString text) tabSize token ∧
        token.start.line = number ∧ (s.lines [number]).1 = [token.line] := by
  refine ⟨?_, ?_⟩
  · rintro token ⟨found, l, l', visited, hpull⟩
    exact visited.showsLine hpull
  · intro s drives number
    have knows : KnowsLines (.ofString text) tabSize s :=
      drives.knowsLines ⟨⟨[], .start⟩, rfl, by simp [ofString, ofLexer]⟩
    rw [lines_of_origin_none knows.origin]
    cases hline : s.lineCache[number]? with
    | none => exact .inl (by simp [hline])
    | some line =>
      obtain ⟨token, handsOut, hstart, rfl⟩ := knows.known number line hline
      exact .inr ⟨token, handsOut, hstart, by simp [hline]⟩

theorem handsOut_literal_text :
    HandsOut (.ofString "f\"\"\"a\nb\"\"\"\n") 8
      ⟨.fstringMiddle, "a\nb", ⟨1, 4⟩, ⟨2, 1⟩, "b\"\"\"\n"⟩ := by
  have first : Visits (.ofString "f\"\"\"a\nb\"\"\"\n") 8
      ([] ++ (ofSource (.ofString "f\"\"\"a\nb\"\"\"\n") 8).pending) _ := .start
  obtain ⟨_, opened⟩ := first.final_pull
  have hpulled : pull.run' (final (pull (ofSource (.ofString "f\"\"\"a\nb\"\"\"\n") 8))) =
      some ⟨.fstringMiddle, "a\nb", ⟨1, 4⟩, ⟨2, 1⟩, "b\"\"\"\n"⟩ := by decide +kernel
  unfold EStateM.run' EStateM.run at hpulled
  cases hpull : pull (final (pull (ofSource (.ofString "f\"\"\"a\nb\"\"\"\n") 8))) with
  | error e l => simp [hpull] at hpulled
  | ok token l =>
    simp only [hpull, Option.some.injEq] at hpulled
    exact ⟨_, _, l, opened, hpulled ▸ hpull⟩

/-- The literal text of an f-string over two lines shows the second. -/
theorem shown_lines_literal_text :
    Token.ShowsLine "f\"\"\"a\nb\"\"\"\n".toList
        ⟨.fstringMiddle, "a\nb", ⟨1, 4⟩, ⟨2, 1⟩, "b\"\"\"\n"⟩ ∧
      ∃ s, Drives (ofString "f\"\"\"a\nb\"\"\"\n" 8) s ∧ s.tokens.size = 2 ∧
        ((s.lines [1]).1 = [] ∨ ∃ token, HandsOut (.ofString "f\"\"\"a\nb\"\"\"\n") 8 token ∧
          token.start.line = 1 ∧ (s.lines [1]).1 = [token.line]) := by
  obtain ⟨shows_, known⟩ := shown_and_known_lines "f\"\"\"a\nb\"\"\"\n" 8
  have read : Drives (ofString "f\"\"\"a\nb\"\"\"\n" 8) _ := .next (.next .refl)
  exact ⟨shows_ _ handsOut_literal_text, _, read, by decide +kernel, known _ read 1⟩

/-- Not every token shows the line on which it starts. -/
theorem literal_text_shows_no_start :
    ¬ ∀ text tabSize token, HandsOut (.ofString text) tabSize token →
      token.start.line ≤ (Text.splitLines text.toList).length →
      physicalLine? text.toList token.start.line = some token.line := by
  intro holds
  have hline := holds _ 8 _ handsOut_literal_text (by decide)
  exact absurd hline (by decide)

end TokenStream

end ShellSyntax
