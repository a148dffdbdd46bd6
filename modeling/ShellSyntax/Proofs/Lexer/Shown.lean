import ShellSyntax.Proofs.Lexer.Cursor
import ShellSyntax.Proofs.Lexer.Onward

/-!
The line that a token shows. It is the line on which the token starts, except that literal text of
an f-string and raw text show the line on which they end; what is found behind the last line shows
that line or none. This holds of the tokens behind failures too.
-/

namespace ShellSyntax

/-- The line with this number, with its terminator. -/
def physicalLine? (text : List Char) (number : Nat) : Option String :=
  match number with
  | 0 => none
  | before + 1 => (Text.splitLines text)[before]?.map String.ofList

/-- Which line of `text` a token shows. -/
inductive Token.ShowsLine (text : List Char) (t : Token) : Prop
  | start (hline : physicalLine? text t.start.line = some t.line)
  | stop (hkind : t.kind = .fstringMiddle ∨ t.kind = .macroParam)
      (hline : physicalLine? text t.stop.line = some t.line)
  /-- Raw text that is empty shows the line on which its closer stands. -/
  | blank {number : Nat} (hkind : t.kind = .macroParam) (htext : t.text = "")
      (hafter : t.start.line ≤ number) (hline : physicalLine? text number = some t.line)
  | behind (hstart : t.start.line = (Text.splitLines text).length + 1)
      (hline : t.line = "" ∨ physicalLine? text (Text.splitLines text).length = some t.line)

namespace Lexer

open Outcome Text
open Relation (ReflTransGen)

variable {text : List Char} {l m : Lexer} {raw raw' : RawText}

/-! ### Strokes -/

/-- What is captured knows the line on which it starts, and has no text before that. -/
structure ShownRaw (text : List Char) (l : Lexer) (raw : RawText) : Prop where
  origin : ∀ place line, raw.origin = some (place, line) → physicalLine? text place.line = some line
  blank : raw.origin = none → raw.text = "" ∧ raw.stop.line ≤ l.lineNumber

/-- A lexer on `text` knows the line on which it is and the lines on which its literals start. -/
structure Shown (text : List Char) (l : Lexer) : Prop where
  unread : l.unread = ((splitLines text).drop l.lineNumber).map .text
  line : l.lineNumber = 0 ∧ l.lineText = "" ∨ physicalLine? text l.lineNumber = some l.lineText
  begun : l.Begun ∨ l.lastSignificant ≠ none → 0 < l.lineNumber
  strings : ∀ quote more start line, LexMode.string quote more start line ∈ l.modes →
    physicalLine? text start.line = some line
  pending : ∀ token ∈ l.pending, token.ShowsLine text

theorem Shown.here (shown : Shown text l) (hbegun : l.Begun) :
    physicalLine? text l.lineNumber = some l.lineText :=
  shown.line.resolve_left fun hstart => Nat.ne_of_gt (shown.begun (.inl hbegun)) hstart.1

theorem Shown.push {token : Token} (shown : Shown text l) (hbegun : l.Begun)
    (htoken : token.ShowsLine text) : Shown text (l.push token) where
  unread := shown.unread
  line := shown.line
  begun _ := shown.begun (.inl hbegun)
  strings := shown.strings
  pending other hother := by
    obtain hold | hnew := List.mem_append.mp hother
    · exact shown.pending other hold
    · exact List.mem_singleton.mp hnew ▸ htoken

theorem Shown.advance (shown : Shown text l) (count : Nat) : Shown text (l.advance count) where
  unread := shown.unread
  line := shown.line
  begun hbegun := by
    refine shown.begun (hbegun.imp_left fun hbegun => hbegun.imp_left fun hrest hnil => ?_)
    exact hrest (by simp [Lexer.advance, hnil])
  strings := shown.strings
  pending := shown.pending

theorem Shown.nextLine {line : List Char} {unread : Source} (shown : Shown text l)
    (hunread : l.unread = .text line :: unread) : Shown text (l.nextLine line unread) where
  unread := by
    have hlines := shown.unread
    rw [hunread] at hlines
    change unread = ((splitLines text).drop (l.lineNumber + 1)).map .text
    rw [← List.drop_drop, List.map_drop, ← hlines]
    rfl
  line := by
    have hlines := shown.unread
    rw [hunread] at hlines
    have hhead := congrArg List.head? hlines
    rw [List.head?_map, List.head?_drop] at hhead
    obtain ⟨found, hfound, hsame⟩ := Option.map_eq_some_iff.mp hhead.symm
    obtain rfl := SourceLine.text.inj hsame
    right
    change (splitLines text)[l.lineNumber]?.map String.ofList = _
    rw [hfound]
    rfl
  begun _ := Nat.succ_pos _
  strings := shown.strings
  pending := shown.pending

theorem ShownRaw.empty : ShownRaw text l (.empty l.here) where
  origin := by simp [RawText.empty]
  blank _ := ⟨rfl, Nat.le_refl _⟩

theorem ShownRaw.push (shownRaw : ShownRaw text l raw) (shown : Shown text l) {c : Char}
    {rest : List Char} (hrest : l.rest = c :: rest) :
    ShownRaw text (l.advance 1) (raw.push c l.here l.lineText) := by
  have hline := shown.here (begun_of_rest hrest)
  unfold RawText.push RawText.isBlank
  split
  case isTrue =>
    split
    case isTrue => exact ⟨shownRaw.origin, shownRaw.blank⟩
    case isFalse hblank =>
      refine ⟨shownRaw.origin, fun hnone => ?_⟩
      simp [show raw.origin = none from hnone] at hblank
  case isFalse =>
    refine ⟨?_, nofun⟩
    rintro place line horigin
    cases hold : raw.origin with
    | none =>
      simp only [hold, Option.getD_none, Option.some.injEq, Prod.mk.injEq] at horigin
      obtain ⟨rfl, rfl⟩ := horigin
      exact hline
    | some origin =>
      simp only [hold, Option.getD_some, Option.some.injEq] at horigin
      exact shownRaw.origin place line (hold.trans (congrArg some horigin))

theorem ShownRaw.showsLine (shownRaw : ShownRaw text l raw) (shown : Shown text l)
    (hbegun : l.Begun) : (raw.toToken l.lineText).ShowsLine text := by
  cases horigin : raw.origin with
  | some origin =>
    refine .start ?_
    simpa [RawText.toToken, horigin] using shownRaw.origin origin.1 origin.2 horigin
  | none =>
    obtain ⟨htext, hstop⟩ := shownRaw.blank horigin
    refine .blank rfl htext (?_ : _ ≤ l.lineNumber) ?_
    · simpa [RawText.toToken, horigin] using hstop
    · simpa [RawText.toToken, horigin] using shown.here hbegun

theorem ShownRaw.congr (shownRaw : ShownRaw text l raw) (hline : l.lineNumber ≤ m.lineNumber) :
    ShownRaw text m raw where
  origin := shownRaw.origin
  blank hnone := by
    obtain ⟨htext, hstop⟩ := shownRaw.blank hnone
    exact ⟨htext, Nat.le_trans hstop hline⟩

theorem Stroke.shown (stroke : Stroke (l, raw) (m, raw')) (shown : Shown text l)
    (shownRaw : ShownRaw text l raw) : Shown text m ∧ ShownRaw text m raw' := by
  cases stroke with
  | read => exact ⟨shown.advance _, shownRaw.congr (Nat.le_refl _)⟩
  | capture hrest => exact ⟨shown.advance 1, shownRaw.push shown hrest⟩
  | fresh => exact ⟨shown, .empty⟩
  | measure =>
    exact ⟨⟨shown.unread, shown.line, shown.begun, shown.strings, shown.pending⟩,
      shownRaw.congr (Nat.le_refl _)⟩
  | line hunread => exact ⟨shown.nextLine hunread, shownRaw.congr (Nat.le_succ _)⟩
  | broken hunread =>
    -- The lines of a text can all be decoded.
    have hlines := shown.unread
    rw [hunread] at hlines
    cases hdrop : (splitLines text).drop l.lineNumber with
    | nil => simp [hdrop] at hlines
    | cons line lines => simp [hdrop] at hlines
  | drop =>
    refine ⟨⟨shown.unread, shown.line, fun hbegun => shown.begun ?_, shown.strings, shown.pending⟩,
      shownRaw.congr (Nat.le_refl _)⟩
    -- Nothing is left of the line, so it is its tokens that tell that it was entered.
    exact hbegun.imp_left fun hbegun => .inr (hbegun.resolve_left (by simp))
  | note hsame hlast =>
    refine ⟨⟨?_, ?_, fun hbegun => ?_, ?_, ?_⟩, shownRaw.congr (Nat.le_of_eq hsame.lineNumber.symm)⟩
    · rw [hsame.unread, hsame.lineNumber, shown.unread]
    · rw [hsame.lineNumber, hsame.lineText]
      exact shown.line
    · rw [hsame.lineNumber]
      obtain hsame' | hbegun' := hlast
      · rw [hsame', Begun, hsame.rest, hsame.pending] at hbegun
        exact shown.begun hbegun
      · exact shown.begun (.inl hbegun')
    · rw [hsame.modes]
      exact shown.strings
    · rw [hsame.pending]
      exact shown.pending
  | modes hstrings =>
    refine ⟨⟨shown.unread, shown.line, shown.begun, ?_, shown.pending⟩,
      shownRaw.congr (Nat.le_refl _)⟩
    intro quote more start line hmem
    obtain ⟨_, _, hmem⟩ | ⟨rfl, rfl, hrest⟩ := hstrings quote more start line hmem
    · exact shown.strings _ _ start line hmem
    · exact shown.here (.inl hrest)
  | token hbegun hstart =>
    refine ⟨shown.push hbegun (.start ?_), shownRaw.congr (Nat.le_refl _)⟩
    rw [hstart]
    exact shown.here hbegun
  | piece hkind hbegun hstop =>
    refine ⟨shown.push hbegun (.stop hkind ?_), shownRaw.congr (Nat.le_refl _)⟩
    rw [hstop]
    exact shown.here hbegun
  | string hmode hrest =>
    exact ⟨shown.push (.inl hrest) (.start (shown.strings _ _ _ _ hmode)),
      shownRaw.congr (Nat.le_refl _)⟩
  | captured hrest =>
    exact ⟨shown.push (.inl hrest) (shownRaw.showsLine shown (.inl hrest)),
      shownRaw.congr (Nat.le_refl _)⟩

theorem shown_of_strokes {state state' : Lexer × RawText}
    (strokes : ReflTransGen Stroke state state') (shown : Shown text state.1)
    (shownRaw : ShownRaw text state.1 state.2) :
    Shown text state'.1 ∧ ShownRaw text state'.1 state'.2 := by
  induction strokes with
  | refl => exact ⟨shown, shownRaw⟩
  | tail _ last induction => exact last.shown induction.1 induction.2

/-! ### Visited states -/

theorem physicalLine?_le {number : Nat} {line : String}
    (hline : physicalLine? text number = some line) : number ≤ (splitLines text).length := by
  cases number with
  | zero => exact Nat.zero_le _
  | succ before =>
    obtain ⟨_, hfound, _⟩ := Option.map_eq_some_iff.mp hline
    exact (List.getElem?_eq_some_iff.mp hfound).1

theorem Shown.lineNumber_le (shown : Shown text l) : l.lineNumber ≤ (splitLines text).length := by
  obtain ⟨hstart, _⟩ | hline := shown.line
  · rw [hstart]
    exact Nat.zero_le _
  · exact physicalLine?_le hline

theorem Shown.lineNumber_eq (shown : Shown text l) (hunread : l.unread = []) :
    l.lineNumber = (splitLines text).length := by
  have hlines := shown.unread
  rw [hunread] at hlines
  have hdrop := List.drop_eq_nil_iff.mp (List.map_eq_nil_iff.mp hlines.symm)
  exact Nat.le_antisymm shown.lineNumber_le hdrop

theorem Shown.closingTokens (shown : Shown text l) (hunread : l.unread = []) :
    ∀ token ∈ l.closingTokens, token.ShowsLine text := by
  have hlast := shown.lineNumber_eq hunread
  have hline : l.lineText = "" ∨
      physicalLine? text (splitLines text).length = some l.lineText := by
    rw [← hlast]
    exact shown.line.imp_left And.right
  intro token htoken
  simp only [Lexer.closingTokens, missingNewline, List.mem_append, List.mem_singleton] at htoken
  obtain hnewline | hdedent | rfl := htoken
  · split at hnewline
    case isTrue hneeds =>
      rw [List.mem_singleton.mp hnewline]
      have hsignificant : l.lastSignificant ≠ none := by
        intro hnone
        simp [needsNewline, hnone] at hneeds
      have hbegun := shown.begun (.inr hsignificant)
      exact .start (shown.line.resolve_left fun hstart => Nat.ne_of_gt hbegun hstart.1)
    case isFalse => cases hnewline
  · rw [List.eq_of_mem_replicate hdedent]
    exact .behind (congrArg (· + 1) hlast) hline
  · exact .behind (congrArg (· + 1) hlast) (.inl rfl)

/-- A lexer on `text`, at work or at its end. -/
structure ShownAlways (text : List Char) (l : Lexer) : Prop where
  working : l.finished = false → Shown text l
  ended : l.finished = true → l.lineNumber = (splitLines text).length
  pending : ∀ token ∈ l.pending, token.ShowsLine text

variable {tabSize : Nat} {found : List Token} {token : Token}

theorem Visits.shown (visited : Visits (.ofText text) tabSize found l) : ShownAlways text l := by
  induction visited with
  | start =>
    refine ⟨fun _ => ⟨rfl, .inl ⟨rfl, rfl⟩, ?_, by simp [ofSource], by simp [ofSource]⟩,
      by simp [ofSource], by simp [ofSource]⟩
    rintro ((hrest | hpending) | hlast)
    · exact absurd rfl hrest
    · exact absurd rfl hpending
    · exact absurd rfl hlast
  | @step _ l _ hpending hworks induction =>
    have shown := induction.working hworks
    obtain ⟨hstep, _, hunread⟩ | strikes := step_strikes l (.empty l.here)
    · rw [hstep]
      refine ⟨?_, ?_, ?_⟩
      · simp [final]
      · simpa [final] using shown.lineNumber_eq hunread
      · simpa [final, hpending] using shown.closingTokens hunread
    · obtain ⟨_, strokes⟩ := strikes.final
      have next := (shown_of_strokes strokes shown .empty).1
      have hsame := (leadsOn_of_strokes strokes).finished
      refine ⟨fun _ => next, fun hfinished => ?_, next.pending⟩
      cases hworks.symm.trans (hsame.symm.trans hfinished)
  | @handOut _ pending _ _ _ hpending induction =>
    have hless : ∀ token ∈ pending, Token.ShowsLine text token := fun token htoken =>
      induction.pending token (hpending ▸ List.mem_cons_of_mem _ htoken)
    refine ⟨fun hworks => ?_, induction.ended, hless⟩
    have shown := induction.working hworks
    refine ⟨shown.unread, shown.line, fun hbegun => shown.begun ?_, shown.strings, hless⟩
    exact hbegun.imp_left fun hbegun => hbegun.imp_right fun _ => by simp [hpending]
  | endMarker _ _ induction => exact induction

theorem Visits.ready {source : Source} (visited : Visits source tabSize found l) :
    ∃ before, found = before ++ l.pending := by
  induction visited with
  | start => exact ⟨[], rfl⟩
  | step => exact ⟨_, rfl⟩
  | @handOut _ pending _ token _ hpending induction =>
    obtain ⟨before, rfl⟩ := induction
    exact ⟨before ++ [token], by simp [hpending]⟩
  | endMarker _ hpending => exact ⟨_, by rw [hpending, List.append_nil]⟩

/-- Where a token is handed out the lexer was visited with that token ready, or had finished, and
nothing else has changed. -/
theorem Visits.pulled {source : Source} {l' : Lexer} (visited : Visits source tabSize found l)
    (hpull : Lexer.pull l = .ok token l') :
    ∃ found m, Visits source tabSize found m ∧ l' = { m with pending := l'.pending } ∧
      (token ∈ m.pending ∨ m.finished = true ∧ token = .endMarker m.lineNumber) := by
  obtain ⟨before, rfl⟩ := visited.ready
  have hroom := visited.inLine.2
  rw [Lexer.pull, get_bind_ok] at hpull
  obtain ⟨_, m, hwork, hpull⟩ := bind_ok.mp hpull
  have hready := (works_of_work (.inl hroom) hroom hwork).isReady
  have next := visited.work l.bound
  rw [hwork] at next
  refine ⟨_, m, next, ?_⟩
  rw [get_bind_ok] at hpull
  cases hpending : m.pending with
  | cons first pending =>
    simp only [hpending, set_bind_ok, pure_ok] at hpull
    obtain ⟨rfl, rfl⟩ := hpull
    exact ⟨rfl, .inl List.mem_cons_self⟩
  | nil =>
    simp only [hpending, pure_ok] at hpull
    obtain ⟨rfl, rfl⟩ := hpull
    exact ⟨rfl, .inr ⟨hready.resolve_left (not_not_intro hpending), rfl⟩⟩

theorem Visits.showsLine {l' : Lexer} (visited : Visits (.ofText text) tabSize found l)
    (hpull : Lexer.pull l = .ok token l') : token.ShowsLine text := by
  obtain ⟨_, m, reached, _, hready | ⟨hfinished, rfl⟩⟩ := visited.pulled hpull
  · exact reached.shown.pending token hready
  · exact .behind (congrArg (· + 1) (reached.shown.ended hfinished)) (.inl rfl)

end Lexer

end ShellSyntax
