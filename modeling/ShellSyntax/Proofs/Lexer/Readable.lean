import ShellSyntax.Proofs.Lexer.Onward
import ShellSyntax.Proofs.Lexer.Reaches
import ShellSyntax.Proofs.Text.PhysicalLines

/-!
What a lexer reads of its source. One that has finished has read all of it, so all lines of the
source are text. What is left of the current line is the end of one of the lines into which the
source was cut, and the lines behind it follow it there.
-/

namespace ShellSyntax.Lexer

/-- The lines between `l` and `l'` are text. -/
def ReadsText (l l' : Lexer) : Prop :=
  ∃ lines : List (List Char), l.unread = lines.map SourceLine.text ++ l'.unread

namespace ReadsText

variable {l m n : Lexer}

theorem of_eq (h : m.unread = l.unread) : ReadsText l m :=
  ⟨[], h.symm⟩

theorem trans (first : ReadsText l m) (second : ReadsText m n) : ReadsText l n := by
  obtain ⟨lines, hfirst⟩ := first
  obtain ⟨more, hsecond⟩ := second
  refine ⟨lines ++ more, ?_⟩
  rw [hfirst, hsecond, List.map_append, List.append_assoc]

theorem line {text : List Char} {unread : Source} (hunread : l.unread = .text text :: unread)
    (hm : m.unread = unread) : ReadsText l m :=
  ⟨[text], by rw [hunread, hm]; rfl⟩

end ReadsText

variable {l l' : Lexer}

theorem Quoting.readsText {quote : Quote} {raw raw' : RawText}
    (moves : Quoting quote l raw l' raw') : ReadsText l l' := by
  induction moves with
  | close => exact .of_eq rfl
  | escape _ _ induction => exact induction
  | char _ _ _ _ _ induction => exact induction
  | line _ _ hunread _ induction => exact (ReadsText.line hunread rfl).trans induction

theorem Capture.readsText {floor : BracketStack} {commas : Bool} {raw raw' : RawText}
    (moves : Capture floor commas l raw l' raw') : ReadsText l l' := by
  induction moves with
  | refl => exact .of_eq rfl
  | quoted _ hquoting _ induction => exact hquoting.readsText.trans induction
  | opener _ _ _ _ induction => exact induction
  | closer _ _ _ _ _ _ _ induction => exact induction
  | char _ _ _ _ _ _ induction => exact induction
  | line _ hunread _ induction => exact (ReadsText.line hunread rfl).trans induction

theorem Arguments.readsText {floor : BracketStack} {raw : RawText}
    (moves : Arguments floor l raw l') : ReadsText l l' := by
  have hpushed (l : Lexer) (raw : RawText) : (l.pushCaptured raw).unread = l.unread := by
    unfold pushCaptured
    split <;> rfl
  induction moves with
  | last hcapture => exact hcapture.readsText.trans (.of_eq (hpushed _ _))
  | more hcapture _ _ _ induction =>
    refine hcapture.readsText.trans ?_
    exact (ReadsText.of_eq (hpushed _ _)).trans induction

theorem Gathers.readsText {text text' : List Char} (moves : Gathers l text l' text') :
    ReadsText l l' := by
  induction moves with
  | stop => exact .of_eq rfl
  | line _ hunread _ induction => exact (ReadsText.line hunread rfl).trans induction

theorem GathersBlock.readsText {indent : Nat} {text text' : List Char} {first first' : Option Nat}
    (moves : GathersBlock indent l text first l' text' first') : ReadsText l l' := by
  induction moves with
  | sourceEnd => exact .of_eq rfl
  | outdented => exact .of_eq rfl
  | idle hunread _ _ induction => exact (ReadsText.line hunread rfl).trans induction
  | deeper hunread _ _ _ induction => exact (ReadsText.line hunread rfl).trans induction

theorem openField_unread {count : Nat} {modes : List LexMode} {text : String} {start : Position}
    (hflush : l.flushText count = l.flushed count text start modes) :
    (l.openField count).unread = l.unread := by
  simp [openField, hflush, pushMode, pushBracket]

theorem Moves.readsText (moves : Moves l l') : ReadsText l l' := by
  cases moves with
  | finish => exact .of_eq (by simp)
  | resumeLine _ hunread => exact .line hunread rfl
  | blankLine _ hunread _ hm => exact .line hunread (by simp [pastMargin_frame hm])
  | commentLine _ hunread _ hm => exact .line hunread (by simp [takeRest, pastMargin_frame hm])
  | emptyLine _ hunread _ hm => exact .line hunread (by simp [takeRest, pastMargin_frame hm])
  | indented _ hunread _ hm => exact .line hunread (by simp [pastMargin_frame hm])
  | level _ hunread _ hm => exact .line hunread (by simp [pastMargin_frame hm])
  | outdented _ hunread _ hm => exact .line hunread (by simp [pastMargin_frame hm])
  | stringEnd | stringLine | textLine | continuation | stringStart => exact .of_eq rfl
  | @textEnd m quote text start outer count hmodes hrest hm =>
    have hflush := flushText_of_text (l := m) (by rw [hm]) count
    refine .of_eq ?_
    simp only [hflush, take_frame, flushed_frame]
    rw [hm]
  | @textField m quote text start outer count hmodes hrest hm =>
    have hflush := flushText_of_text (l := m) (by rw [hm]) count
    refine .of_eq ((openField_unread hflush).trans ?_)
    rw [hm]
  | @specField m text start outer count hmodes hrest hm =>
    have hflush := flushText_of_spec (l := m) (by rw [hm]) count
    refine .of_eq ((openField_unread hflush).trans ?_)
    rw [hm]
  | @specEnd m n text start outer count top brackets hmodes hrest hm hscan hn =>
    rw [flushText_of_spec (l := m) (by rw [hm]) count] at hn
    exact .of_eq (by simp [hn, hm])
  | plain | announce | closer => exact .of_eq (by simp)
  | fstringStart _ _ _ hm => exact .of_eq (by simp [pushMode, hm])
  | envVariable => exact .of_eq (by simp [takeWhile])
  | opener => exact .of_eq (by simp [pushBracket])
  | call _ _ _ hm harguments =>
    refine ReadsText.trans (.of_eq ?_) harguments.readsText
    simp [hm, pushBracket]
  | rawCommand _ _ _ hm _ hcapture =>
    refine ReadsText.trans (.of_eq ?_) (hcapture.readsText.trans (.of_eq rfl))
    simp [hm]
  | spec _ _ _ hm => exact .of_eq (by simp [pushMode, hm])
  | bodyLine _ _ _ _ _ hm _ hgathers =>
    refine ReadsText.trans (.of_eq ?_) (hgathers.readsText.trans (.of_eq ?_))
    · simp [hm]
    · simp [endCapturedLine, skipLine, advance]
  | bodyBlock _ _ _ _ _ hm _ hgathers =>
    refine ReadsText.trans (.of_eq ?_) (hgathers.readsText.trans (.of_eq ?_))
    · simp [hm, skipLine, advance]
    · simp [endCapturedLine]

/-- What is behind the lexer is text, and behind a lexer that has finished is everything. -/
theorem readsSource (source : Source) (tabSize : Nat) : Invariant fun _ l =>
    ReadsText (ofSource source tabSize) l ∧ (l.finished = true → l.unread = []) where
  move := by
    rintro _ l l' ⟨reads, _⟩ _ hworks moves
    refine ⟨reads.trans moves.readsText, fun hfinished => ?_⟩
    obtain hsame | ⟨rfl, _, hunread, _⟩ := (moves.progress hworks).ends
    · rw [hsame, hworks] at hfinished
      cases hfinished
    · simpa using hunread
  handOut h _ := h
  sourceEnd h _ _ := h

variable {source : Source} {tabSize : Nat} {tokens : List Token}

theorem Reaches.readable (reached : Reaches source tabSize tokens l) (hfinished : l.finished = true) :
    ∃ lines : List (List Char), source = lines.map .text := by
  obtain ⟨⟨lines, hlines⟩, hend⟩ := (readsSource source tabSize).reaches
    ⟨.of_eq rfl, nofun⟩ reached
  refine ⟨lines, ?_⟩
  rwa [hend hfinished, List.append_nil] at hlines

end ShellSyntax.Lexer

namespace ShellSyntax.Lexer

open Relation (ReflTransGen)
open Source (Cut)

/-- The cursor stands in a line of a text or a file, or between two. -/
def Physical (l : Lexer) : Prop :=
  l.rest = [] ∧ Cut l.unread ∨ Cut (.text l.rest :: l.unread)

theorem Physical.unread {l : Lexer} (physical : l.Physical) : Cut l.unread :=
  physical.elim And.right Cut.tail

theorem Physical.advance {l : Lexer} (physical : l.Physical) (count : Nat) :
    (l.advance count).Physical := by
  obtain ⟨hrest, cut⟩ | cut := physical
  · exact .inl ⟨by simp [Lexer.advance, hrest], cut⟩
  · exact cut.drop count

theorem Stroke.physical {l m : Lexer} {raw raw' : RawText} (stroke : Stroke (l, raw) (m, raw'))
    (physical : l.Physical) : m.Physical := by
  cases stroke with
  | read count => exact physical.advance count
  | capture => exact physical.advance 1
  | line hunread => exact .inr (hunread ▸ physical.unread)
  | broken hunread =>
    obtain ⟨hrest, cut⟩ | cut := physical <;> rw [hunread] at cut
    · exact .inl ⟨hrest, cut.tail⟩
    · exact .inr cut.skip
  | drop => exact .inl ⟨rfl, physical.unread⟩
  | note hsame => rwa [Physical, hsame.rest, hsame.unread]
  | fresh | measure | modes | token | piece | string | captured => exact physical

theorem physical_of_strokes {state state' : Lexer × RawText}
    (strokes : ReflTransGen Stroke state state') (physical : state.1.Physical) :
    state'.1.Physical := by
  induction strokes with
  | refl => exact physical
  | tail _ last induction => exact last.physical induction

theorem Physical.step {l : Lexer} (physical : l.Physical) :
    (Outcome.final (Lexer.step l)).Physical := by
  obtain ⟨hstep, _⟩ | strikes := step_strikes l (.empty l.here)
  · rw [hstep]
    simpa [Physical, Outcome.final] using physical
  · obtain ⟨_, strokes⟩ := strikes.final
    exact physical_of_strokes strokes physical

variable {source : Source} {tabSize : Nat} {found : List Token} {l : Lexer}

theorem Visits.physical (visited : Visits source tabSize found l) (cut : Cut source) :
    l.Physical := by
  induction visited with
  | start => exact .inl ⟨rfl, cut⟩
  | step _ _ _ induction => exact induction.step
  | handOut _ _ induction => exact induction
  | endMarker _ _ induction => exact induction

end ShellSyntax.Lexer
