import ShellSyntax.Proofs.Lexer.Strokes

/-!
Strokes only lead on: they stay within the line or enter the next one, and what is still to come
gets no longer.
-/

namespace ShellSyntax.Lexer

open Outcome
open Relation (ReflTransGen)

/-- The cursor is in its line, and what is behind it is the rest of the line, or nothing if the rest
was dropped. -/
structure InLine (l : Lexer) : Prop where
  column : l.column ≤ l.lineText.length
  rest : l.rest = [] ∨ l.rest = l.lineText.toList.drop l.column

/-- What is read from `l` to `m`: lines of the source, or some of the rest of the line. -/
inductive Reads (l m : Lexer) : Prop
  | lines (lines : Source) (hsome : lines ≠ []) (hunread : l.unread = lines ++ m.unread)
  | chars (hunread : l.unread = m.unread) (hrest : m.rest <:+ l.rest)

inductive LineOn (l m : Lexer) : Prop
  | same (hnumber : m.lineNumber = l.lineNumber) (htext : m.lineText = l.lineText)
  | later (hnumber : l.lineNumber < m.lineNumber)

/-- Work has led from `l` on to `m`. -/
structure LeadsOn (l m : Lexer) : Prop where
  reads : Reads l m
  line : LineOn l m
  toCome : m.toCome ≤ l.toCome
  bound : m.bound = l.bound
  finished : m.finished = l.finished
  inLine : l.InLine → m.InLine

theorem Reads.trans {l m n : Lexer} (first : Reads l m) (second : Reads m n) : Reads l n := by
  cases first with
  | lines lines hsome hunread =>
    cases second with
    | lines more _ hmore =>
      exact .lines (lines ++ more) (by simp [hsome]) (by rw [hunread, hmore, List.append_assoc])
    | chars hsame => exact .lines lines hsome (hsame ▸ hunread)
  | chars hsame hrest =>
    cases second with
    | lines lines hsome hunread => exact .lines lines hsome (hsame.trans hunread)
    | chars hunread hmore => exact .chars (hsame.trans hunread) (hmore.trans hrest)

theorem LineOn.trans {l m n : Lexer} (first : LineOn l m) (second : LineOn m n) : LineOn l n := by
  cases first with
  | same hnumber htext =>
    cases second with
    | same hsame hline => exact .same (hsame.trans hnumber) (hline.trans htext)
    | later hlater => exact .later (hnumber ▸ hlater)
  | later hlater =>
    cases second with
    | same hsame _ => exact .later (hsame ▸ hlater)
    | later hmore => exact .later (Nat.lt_trans hlater hmore)

namespace LeadsOn

variable {l m n : Lexer}

theorem refl (l : Lexer) : LeadsOn l l :=
  ⟨.chars rfl (List.suffix_refl _), .same rfl rfl, Nat.le_refl _, rfl, rfl, id⟩

theorem trans (first : LeadsOn l m) (second : LeadsOn m n) : LeadsOn l n where
  reads := first.reads.trans second.reads
  line := first.line.trans second.line
  toCome := Nat.le_trans second.toCome first.toCome
  bound := second.bound.trans first.bound
  finished := second.finished.trans first.finished
  inLine := second.inLine ∘ first.inLine

end LeadsOn

theorem InLine.advance {l : Lexer} (inLine : l.InLine) {count : Nat}
    (hcount : count ≤ l.rest.length) : (l.advance count).InLine := by
  have hcolumn := inLine.column
  obtain hrest | hrest := inLine.rest
  · rw [hrest, List.length_nil, Nat.le_zero] at hcount
    subst hcount
    exact ⟨hcolumn, .inl (by simp [Lexer.advance, hrest])⟩
  · rw [hrest, List.length_drop, String.length_toList] at hcount
    refine ⟨?_, .inr ?_⟩
    · change l.column + count ≤ l.lineText.length
      omega
    · change l.rest.drop count = _
      rw [hrest, List.drop_drop]
      rfl

theorem Stroke.leadsOn {l m : Lexer} {raw raw' : RawText} (stroke : Stroke (l, raw) (m, raw')) :
    LeadsOn l m := by
  cases stroke with
  | @read _ _ count hcount =>
    exact ⟨.chars rfl (List.drop_suffix _ _), .same rfl rfl, (readsOn_advance l count).toCome, rfl, rfl,
      fun inLine => inLine.advance hcount⟩
  | capture hrest =>
    exact ⟨.chars rfl (List.drop_suffix _ _), .same rfl rfl, (readsOn_advance l 1).toCome, rfl, rfl,
      fun inLine => inLine.advance (by simp [hrest])⟩
  | @line _ _ text unread hunread =>
    refine ⟨.lines [.text text] (by simp) hunread, .later (Nat.lt_succ_self _),
      Nat.le_of_lt (toCome_nextLine_lt hunread), rfl, rfl, fun _ => ⟨Nat.zero_le _, .inr ?_⟩⟩
    change text = (String.ofList text).toList.drop 0
    rw [String.toList_ofList, List.drop_zero]
  | broken hunread =>
    refine ⟨.lines [.undecodable] (by simp) hunread, .same rfl rfl, ?_, rfl, rfl,
      fun inLine => ⟨inLine.column, inLine.rest⟩⟩
    simp [toCome, hunread]
  | drop =>
    refine ⟨.chars rfl (List.nil_suffix), .same rfl rfl, ?_, rfl, rfl, fun _ => ⟨Nat.zero_le _, .inl rfl⟩⟩
    simp [toCome]
  | note hsame =>
    refine ⟨.chars hsame.unread.symm (hsame.rest ▸ List.suffix_refl _),
      .same hsame.lineNumber hsame.lineText, ?_, hsame.bound, hsame.finished, fun inLine => ⟨?_, ?_⟩⟩
    · rw [toCome, toCome, hsame.rest, hsame.unread]
    · rw [hsame.column, hsame.lineText]
      exact inLine.column
    · rw [hsame.column, hsame.lineText, hsame.rest]
      exact inLine.rest
  | fresh | measure | modes | token | piece | string | captured =>
    exact ⟨.chars rfl (List.suffix_refl _), .same rfl rfl, Nat.le_refl _, rfl, rfl,
      fun inLine => ⟨inLine.column, inLine.rest⟩⟩

theorem leadsOn_of_strokes {state state' : Lexer × RawText}
    (strokes : ReflTransGen Stroke state state') : LeadsOn state.1 state'.1 := by
  induction strokes with
  | refl => exact .refl _
  | tail _ last induction => exact induction.trans last.leadsOn

theorem Strikes.leadsOn {α : Type} {l m : Lexer} {raw : RawText} {step : Lex α}
    {keeps : α → RawText → Prop} {a : α} (strikes : Strikes l raw step keeps)
    (hstep : step l = .ok a m) : LeadsOn l m := by
  rw [Strikes, hstep] at strikes
  obtain ⟨_, _, strokes⟩ := strikes
  exact leadsOn_of_strokes strokes

/-! ### Visited states -/

variable {source : Source} {tabSize : Nat} {found : List Token} {l : Lexer}

/-- Until a lexer has finished its cursor is in its line, and it always has more steps left than
there are characters and lines to come. -/
theorem Visits.inLine (visited : Visits source tabSize found l) :
    (l.finished = true ∧ l.rest = [] ∨ l.InLine) ∧ l.toCome < l.bound := by
  induction visited with
  | start =>
    rw [bound_ofSource]
    exact ⟨.inr ⟨Nat.le_refl _, .inl rfl⟩, by omega⟩
  | @step found l _ _ hworks induction =>
    obtain ⟨place, hroom⟩ := induction
    have inLine := place.resolve_left (by simp [hworks])
    obtain ⟨hstep, hrest, hunread⟩ | strikes := step_strikes l (.empty l.here)
    · rw [hstep]
      refine ⟨.inl ⟨by simp [final], by simp [final, hrest]⟩, ?_⟩
      simpa [final, toCome] using hroom
    · obtain ⟨_, strokes⟩ := strikes.final
      have ahead := leadsOn_of_strokes strokes
      exact ⟨.inr (ahead.inLine inLine), by
        have hcome := ahead.toCome
        have hbound := ahead.bound
        dsimp only at hcome hbound
        omega⟩
  | handOut _ _ induction =>
    obtain ⟨place, hroom⟩ := induction
    exact ⟨place.imp_right fun inLine => ⟨inLine.column, inLine.rest⟩, hroom⟩
  | endMarker _ _ induction => exact induction

end ShellSyntax.Lexer
