import ShellSyntax.Proofs.Lexer.Frame
import ShellSyntax.Proofs.Lexer.Moves
import ShellSyntax.Proofs.Outcome

/-!
The loops that capture raw text, as sequences of moves. Each loop is given more steps than there
are characters and lines to come, so none stops before its text ends.
-/

namespace ShellSyntax.Lexer

open Outcome

/-- `l'` is further on in the source than `l`; apart from that, only its brackets may differ. -/
structure ReadsOn (l l' : Lexer) : Prop where
  indents : l'.indents = l.indents
  modes : l'.modes = l.modes
  continued : l'.continued = l.continued
  pending : l'.pending = l.pending
  lastSignificant : l'.lastSignificant = l.lastSignificant
  tabSize : l'.tabSize = l.tabSize
  finished : l'.finished = l.finished
  recent : l'.recent = l.recent
  lineTokens : l'.lineTokens = l.lineTokens
  withHeader : l'.withHeader = l.withHeader
  bound : l'.bound = l.bound
  toCome : l'.toCome ≤ l.toCome

namespace ReadsOn

variable {l m n : Lexer}

theorem refl (l : Lexer) : ReadsOn l l :=
  ⟨rfl, rfl, rfl, rfl, rfl, rfl, rfl, rfl, rfl, rfl, rfl, Nat.le_refl _⟩

theorem trans (first : ReadsOn l m) (second : ReadsOn m n) : ReadsOn l n where
  indents := second.indents.trans first.indents
  modes := second.modes.trans first.modes
  continued := second.continued.trans first.continued
  pending := second.pending.trans first.pending
  lastSignificant := second.lastSignificant.trans first.lastSignificant
  tabSize := second.tabSize.trans first.tabSize
  finished := second.finished.trans first.finished
  recent := second.recent.trans first.recent
  lineTokens := second.lineTokens.trans first.lineTokens
  withHeader := second.withHeader.trans first.withHeader
  bound := second.bound.trans first.bound
  toCome := Nat.le_trans second.toCome first.toCome

end ReadsOn

/-! ### Moves of the cursor -/

theorem advance_advance (l : Lexer) (first second : Nat) :
    (l.advance first).advance second = l.advance (second + first) := by
  simp only [advance, List.drop_drop, Nat.add_comm second, Nat.add_assoc]

theorem toCome_advance {l : Lexer} {count : Nat} (hcount : count ≤ l.rest.length) :
    (l.advance count).toCome + count = l.toCome := by
  simp only [toCome, advance, List.length_drop]
  omega

theorem toCome_nextLine {l : Lexer} {text : List Char} {unread : Source} (hrest : l.rest = [])
    (hunread : l.unread = .text text :: unread) :
    (l.nextLine text unread).toCome + 1 = l.toCome := by
  simp [toCome, nextLine, enterLine, hrest, hunread, SourceLine.size]
  omega

theorem toCome_nextLine_lt {l : Lexer} {text : List Char} {unread : Source}
    (hunread : l.unread = .text text :: unread) :
    (l.nextLine text unread).toCome < l.toCome := by
  simp [toCome, nextLine, enterLine, hunread, SourceLine.size]
  omega

theorem readsOn_advance (l : Lexer) (count : Nat) : ReadsOn l (l.advance count) := by
  constructor <;> first | rfl | simp [toCome, advance]

theorem readsOn_measure (l : Lexer) (text : List Char) : ReadsOn l (l.measure text) :=
  ⟨rfl, rfl, rfl, rfl, rfl, rfl, rfl, rfl, rfl, rfl, rfl, Nat.le_refl _⟩

theorem readsOn_pastMargin (l : Lexer) : ReadsOn l l.pastMargin :=
  (readsOn_measure l l.rest).trans (readsOn_advance _ _)

theorem readsOn_nextLine {l : Lexer} {text : List Char} {unread : Source}
    (hunread : l.unread = .text text :: unread) : ReadsOn l (l.nextLine text unread) := by
  constructor <;> first | rfl | exact Nat.le_of_lt (toCome_nextLine_lt hunread)

theorem takeLine_ok {l l' : Lexer} {found : Option (List Char)} :
    takeLine l = .ok found l' ↔
      found = none ∧ l.unread = [] ∧ l = l' ∨
      ∃ text unread, found = some text ∧ l.unread = .text text :: unread ∧
        { l with unread } = l' := by
  unfold takeLine
  rw [get_bind_ok]
  cases hunread : l.unread with
  | nil =>
    simp only [pure_ok, true_and, reduceCtorEq, false_and, and_false, exists_const, or_false]
    exact and_congr_left' eq_comm
  | cons line unread =>
    cases line with
    | undecodable => simp [SourceLine.read]
    | text chars =>
      simp only [SourceLine.read, set_bind_ok, pure_ok, List.cons.injEq, SourceLine.text.injEq,
        reduceCtorEq, false_and, and_false, false_or]
      constructor
      · rintro ⟨rfl, rfl⟩
        exact ⟨chars, unread, rfl, ⟨rfl, rfl⟩, rfl⟩
      · rintro ⟨_, _, rfl, ⟨rfl, rfl⟩, rfl⟩
        exact ⟨rfl, rfl⟩

theorem enterNextLine_ok {l l' : Lexer} {found : Bool} :
    enterNextLine l = .ok found l' ↔
      found = false ∧ l.unread = [] ∧ l = l' ∨
      found = true ∧ ∃ text unread, l.unread = .text text :: unread ∧
        l.nextLine text unread = l' := by
  unfold enterNextLine
  simp only [bind_ok, takeLine_ok]
  constructor
  · rintro ⟨_, _, ⟨rfl, hunread, rfl⟩ | ⟨text, unread, rfl, hunread, rfl⟩, result⟩
    · simp only [pure_ok] at result
      exact .inl ⟨result.1.symm, hunread, result.2⟩
    · simp only [modify_bind_ok, pure_ok] at result
      exact .inr ⟨result.1.symm, text, unread, hunread, result.2⟩
  · rintro (⟨rfl, hunread, rfl⟩ | ⟨rfl, text, unread, hunread, rfl⟩)
    · exact ⟨none, l, .inl ⟨rfl, hunread, rfl⟩, by simp⟩
    · exact ⟨some text, _, .inr ⟨text, unread, rfl, hunread, rfl⟩, by simp [nextLine]⟩

/-! ### Characters -/

theorem captureChars_eq (count : Nat) (raw : RawText) (l : Lexer) :
    captureChars count raw l =
      .ok (raw.pushAll l.here l.lineText (l.rest.take count))
        (l.advance (min count l.rest.length)) := by
  induction count generalizing raw l with
  | zero => simp [captureChars, RawText.pushAll, advance, pure, EStateM.pure]
  | succ count induction =>
    cases hrest : l.rest with
    | nil =>
      have unchanged : captureChar raw l = .ok raw l := by
        simp [captureChar, hrest, run_bind, run_get, run_pure]
      have stays := induction raw l
      rw [hrest] at stays
      simp [captureChars, bind, EStateM.bind, unchanged, stays, RawText.pushAll]
    | cons c rest =>
      have step : captureChar raw l = .ok (raw.push c l.here l.lineText) (l.advance 1) := by
        simp [captureChar, hrest, run_bind, run_get, run_set]
      have tail := induction (raw.push c l.here l.lineText) (l.advance 1)
      simp only [captureChars, bind, EStateM.bind, step, tail]
      simp [advance, hrest, RawText.pushAll, here, Nat.add_comm, Nat.add_left_comm]

theorem captureChar_eq {raw : RawText} {l : Lexer} {c : Char} {rest : List Char}
    (hrest : l.rest = c :: rest) :
    captureChar raw l = .ok (raw.push c l.here l.lineText) (l.advance 1) := by
  simp [captureChar, hrest, run_bind, run_get, run_set]

/-! ### String literals -/

theorem size_le_of_closes {quote : Quote} {text : List Char} (hcloses : quote.closes text = true) :
    quote.size ≤ text.length := by
  have hleads := List.isPrefixOf_iff_prefix.mp hcloses
  simpa using hleads.length_le

theorem closes_of_opening {quote : Quote} {text : List Char}
    (hopening : Quote.opening? text = some quote) : quote.closes text = true := by
  cases text with
  | nil => simp [Quote.opening?] at hopening
  | cons c rest =>
    simp only [Quote.opening?, Option.ite_none_right_eq_some, Option.some.injEq] at hopening
    obtain ⟨_, rfl⟩ := hopening
    cases htriple : [c, c].isPrefixOf rest with
    | false => simp [Quote.closes, Quote.size, List.isPrefixOf]
    | true =>
      simp only [Quote.closes, Quote.size, if_true, List.replicate_succ, List.replicate_zero,
        List.isPrefixOf, beq_self_eq_true, Bool.true_and]
      exact htriple

theorem captureQuoted_moves {quote : Quote} {start : Position} {fuel : Nat} {l l' : Lexer}
    {raw raw' : RawText} (hfuel : l.toCome < fuel)
    (hcapture : captureQuoted quote start fuel raw l = .ok raw' l') :
    Quoting quote l raw l' raw' := by
  induction fuel generalizing l raw with
  | zero => omega
  | succ fuel induction =>
    unfold captureQuoted at hcapture
    rw [get_bind_ok] at hcapture
    cases hrest : l.rest with
    | nil =>
      simp only [hrest, Bool.not_eq_true', ite_ok] at hcapture
      split at hcapture
      · simp at hcapture
      case isFalse htriple =>
        simp only [bind_ok, enterNextLine_ok] at hcapture
        obtain ⟨_, _, ⟨rfl, _⟩ | ⟨rfl, text, unread, hunread, rfl⟩, hcapture⟩ := hcapture
        · simp at hcapture
        · have shorter := toCome_nextLine hrest hunread
          exact .line hrest (by simpa using htriple) hunread (induction (by omega) hcapture)
    | cons c rest =>
      simp only [hrest, captureChars_eq, beq_iff_eq, ite_ok, bind_ok] at hcapture
      split at hcapture
      case isTrue hescape =>
        obtain ⟨_, _, hchars, hcapture⟩ := hcapture
        cases hchars
        have shorter := toCome_advance (l := l) (Nat.min_le_right 2 l.rest.length)
        rw [← hrest] at hcapture
        refine .escape (hescape ▸ hrest) (induction ?_ hcapture)
        simp only [hrest, List.length_cons] at shorter ⊢
        omega
      case isFalse hescape =>
        split at hcapture
        case isTrue hcloses =>
          rw [← hrest] at hcloses
          cases hcapture
          rw [← hrest, Nat.min_eq_left (size_le_of_closes hcloses)]
          exact .close hcloses
        case isFalse hcloses =>
          split at hcapture
          · simp at hcapture
          case isFalse hline =>
            obtain ⟨_, _, hchar, hcapture⟩ := hcapture
            rw [captureChar_eq hrest] at hchar
            cases hchar
            have shorter := toCome_advance (show 1 ≤ l.rest.length by simp [hrest])
            refine .char hrest hescape ?_ ?_ (induction (by omega) hcapture)
            · simpa [hrest] using hcloses
            · cases htriple : quote.triple <;> simp_all

theorem Quoting.readsOn {quote : Quote} {l l' : Lexer} {raw raw' : RawText}
    (moves : Quoting quote l raw l' raw') : ReadsOn l l' := by
  induction moves with
  | close => exact readsOn_advance _ _
  | escape _ _ induction => exact (readsOn_advance _ _).trans induction
  | char _ _ _ _ _ induction => exact (readsOn_advance _ _).trans induction
  | line _ _ hunread _ induction => exact (readsOn_nextLine hunread).trans induction

theorem Quoting.brackets {quote : Quote} {l l' : Lexer} {raw raw' : RawText}
    (moves : Quoting quote l raw l' raw') : l'.brackets = l.brackets := by
  induction moves with
  | close => rfl
  | escape _ _ induction => exact induction
  | char _ _ _ _ _ induction => exact induction
  | line _ _ _ _ induction => exact induction

theorem captureString_moves {quote : Quote} {l l' : Lexer} {raw raw' : RawText}
    (hfuel : l.toCome < l.bound) (hopening : Quote.opening? l.rest = some quote)
    (hcapture : captureString quote raw l = .ok raw' l') :
    Quoting quote (l.advance quote.size)
      (raw.pushAll l.here l.lineText (l.rest.take quote.size)) l' raw' := by
  have hsize := size_le_of_closes (closes_of_opening hopening)
  rw [captureString, get_bind_ok] at hcapture
  simp only [bind_ok, captureChars_eq] at hcapture
  obtain ⟨_, _, hchars, hcapture⟩ := hcapture
  cases hchars
  rw [Nat.min_eq_left hsize] at hcapture
  refine captureQuoted_moves ?_ hcapture
  exact Nat.lt_of_le_of_lt (readsOn_advance l quote.size).toCome hfuel

/-! ### Brackets -/

namespace Capture

variable {floor : BracketStack} {commas : Bool} {l m n : Lexer} {raw raw₁ raw₂ : RawText}

theorem trans (first : Capture floor commas l raw m raw₁)
    (second : Capture floor commas m raw₁ n raw₂) : Capture floor commas l raw n raw₂ := by
  induction first with
  | refl => exact second
  | quoted hopening hquoting _ induction => exact .quoted hopening hquoting (induction second)
  | opener hopening hrest hopener _ induction =>
    exact .opener hopening hrest hopener (induction second)
  | closer hopening hrest hcloser hbrackets htop hfloor _ induction =>
    exact .closer hopening hrest hcloser hbrackets htop hfloor (induction second)
  | char hopening hrest hopener hcloser hcomma _ induction =>
    exact .char hopening hrest hopener hcloser hcomma (induction second)
  | line hrest hunread _ induction => exact .line hrest hunread (induction second)

theorem readsOn (moves : Capture floor commas l raw m raw₁) : ReadsOn l m := by
  induction moves with
  | refl => exact .refl _
  | quoted _ hquoting _ induction =>
    exact ((readsOn_advance _ _).trans hquoting.readsOn).trans induction
  | @opener l _ _ _ c _ opener _ _ _ _ induction =>
    have opened : ReadsOn l (l.pushBracket ⟨opener, .raw, l.here⟩) :=
      ⟨rfl, rfl, rfl, rfl, rfl, rfl, rfl, rfl, rfl, rfl, rfl, Nat.le_refl _⟩
    exact (opened.trans (readsOn_advance _ 1)).trans induction
  | @closer l _ _ _ _ _ _ brackets _ _ _ _ _ _ _ induction =>
    have closed : ReadsOn l { l with brackets } :=
      ⟨rfl, rfl, rfl, rfl, rfl, rfl, rfl, rfl, rfl, rfl, rfl, Nat.le_refl _⟩
    exact (closed.trans (readsOn_advance _ 1)).trans induction
  | char _ _ _ _ _ _ induction => exact (readsOn_advance _ 1).trans induction
  | line _ hunread _ induction => exact (readsOn_nextLine hunread).trans induction

theorem floor_suffix (moves : Capture floor commas l raw m raw₁) (hfloor : floor <:+ l.brackets) :
    floor <:+ m.brackets := by
  induction moves with
  | refl => exact hfloor
  | quoted _ hquoting _ induction =>
    exact induction (by rw [hquoting.brackets]; exact hfloor)
  | opener _ _ _ _ induction => exact induction (hfloor.trans (List.suffix_cons _ _))
  | closer _ _ _ hbrackets _ hother _ induction =>
    refine induction ?_
    rw [hbrackets, List.suffix_cons_iff] at hfloor
    exact hfloor.resolve_left (fun heq => hother (hbrackets.trans heq.symm))
  | char _ _ _ _ _ _ induction => exact induction hfloor
  | line _ _ _ induction => exact induction hfloor

end Capture

theorem closeBracket_ok {closer : Char} {l l' : Lexer} :
    closeBracket closer l = .ok () l' ↔
      ∃ top brackets, l.brackets = top :: brackets ∧ top.closer = closer ∧
        { l with brackets } = l' := by
  unfold closeBracket
  rw [get_bind_ok]
  cases hbrackets : l.brackets with
  | nil => simp [BracketStack.close]
  | cons top brackets =>
    by_cases htop : top.closer = closer
    · simp only [BracketStack.close, htop, if_true, set_ok]
      constructor
      · exact fun result => ⟨top, brackets, rfl, htop, result⟩
      · rintro ⟨_, _, heq, _, rfl⟩
        cases heq
        rfl
    · simp [BracketStack.close, htop]

/-- The next character or literal of raw text, as the start of a sequence of moves. A closer that
would close a bracket of `floor` is no part of the text. -/
theorem captureNext_moves {floor : BracketStack} {commas : Bool} {l l' : Lexer}
    {raw raw' : RawText} {c : Char} {rest : List Char} (hfuel : l.toCome < l.bound)
    (hrest : l.rest = c :: rest)
    (hfloor : l.brackets = floor → ∀ top ∈ floor.head?, top.closer ≠ c)
    (hcomma : commas = true ∨ l.brackets ≠ floor ∨ c ≠ ',')
    (hcapture : captureNext raw l = .ok raw' l') :
    Capture floor commas l raw l' raw' ∧ l'.toCome < l.toCome := by
  rw [captureNext, get_bind_ok] at hcapture
  cases hopening : Quote.opening? l.rest with
  | some quote =>
    simp only [hopening] at hcapture
    have hquoting := captureString_moves hfuel hopening hcapture
    have hsize := size_le_of_closes (closes_of_opening hopening)
    have shorter := toCome_advance hsize
    have reads := hquoting.readsOn.toCome
    have positive : 0 < quote.size := by
      unfold Quote.size
      split <;> decide
    exact ⟨.quoted hopening hquoting .refl, by omega⟩
  | none =>
    simp only [hopening] at hcapture
    simp only [hrest, bind_ok] at hcapture
    obtain ⟨_, m, hfollow, hcapture⟩ := hcapture
    rw [followBracket, get_bind_ok] at hfollow
    have shorter := toCome_advance (show 1 ≤ l.rest.length by simp [hrest])
    cases hopener : Opener.plain? c with
    | some opener =>
      simp only [hopener, set_ok] at hfollow
      subst hfollow
      rw [captureChar_eq (show (l.pushBracket _).rest = c :: rest from hrest)] at hcapture
      cases hcapture
      exact ⟨.opener hopening hrest hopener .refl, by
        simp only [toCome, advance, pushBracket] at shorter ⊢
        omega⟩
    | none =>
      simp only [hopener, ite_ok, pure_ok, true_and] at hfollow
      split at hfollow
      case isTrue hcloser =>
        obtain ⟨top, brackets, hbrackets, htop, rfl⟩ := closeBracket_ok.mp hfollow
        rw [captureChar_eq (show { l with brackets }.rest = c :: rest from hrest)] at hcapture
        cases hcapture
        have hother : l.brackets ≠ floor := by
          intro heq
          exact hfloor heq top (by rw [← heq, hbrackets]; rfl) htop
        exact ⟨.closer hopening hrest hcloser hbrackets htop hother .refl, by
          simp only [toCome, advance] at shorter ⊢
          omega⟩
      case isFalse hcloser =>
        subst hfollow
        rw [captureChar_eq hrest] at hcapture
        cases hcapture
        exact ⟨.char hopening hrest hopener (by simpa [isCloser] using hcloser) hcomma .refl, by
          omega⟩

/-! ### Macros -/

theorem eq_of_suffix_of_depth {floor brackets : BracketStack} (hsuffix : floor <:+ brackets)
    (hdepth : brackets.depth = floor.depth) : brackets = floor :=
  (hsuffix.eq_of_length hdepth.symm).symm

theorem Arguments.prepend {floor : BracketStack} {l m l' : Lexer} {raw raw₁ : RawText}
    (first : Capture floor false l raw m raw₁) (moves : Arguments floor m raw₁ l') :
    Arguments floor l raw l' := by
  cases moves with
  | last hcapture hfloor hrest => exact .last (first.trans hcapture) hfloor hrest
  | more hcapture hfloor hrest next => exact .more (first.trans hcapture) hfloor hrest next

@[simp] theorem pushCaptured_frame (l : Lexer) (raw : RawText) :
    (l.pushCaptured raw).unread = l.unread ∧
    (l.pushCaptured raw).rest = l.rest ∧
    (l.pushCaptured raw).lineText = l.lineText ∧
    (l.pushCaptured raw).lineNumber = l.lineNumber ∧
    (l.pushCaptured raw).column = l.column ∧
    (l.pushCaptured raw).indents = l.indents ∧
    (l.pushCaptured raw).brackets = l.brackets ∧
    (l.pushCaptured raw).modes = l.modes ∧
    (l.pushCaptured raw).continued = l.continued ∧
    (l.pushCaptured raw).pending =
      l.pending ++ (if raw.isBlank then [] else [raw.toToken l.lineText]) ∧
    (l.pushCaptured raw).tabSize = l.tabSize ∧
    (l.pushCaptured raw).finished = l.finished ∧
    (l.pushCaptured raw).bound = l.bound := by
  unfold pushCaptured
  split <;> simp [push]

theorem pushCaptured_pending (l : Lexer) (raw : RawText) :
    (l.pushCaptured raw).pending =
      l.pending ++ (if raw.isBlank then [] else [raw.toToken l.lineText]) := by
  simp only [pushCaptured_frame]

theorem pushCaptured_here (l : Lexer) (raw : RawText) : (l.pushCaptured raw).here = l.here := by
  simp [here]

theorem pushCaptured_toCome (l : Lexer) (raw : RawText) :
    (l.pushCaptured raw).toCome = l.toCome := by
  simp [toCome]

theorem captureArguments_moves {floor : BracketStack} {fuel : Nat} {l l' : Lexer} {raw : RawText}
    (hfuel : l.toCome < fuel) (hbound : l.toCome < l.bound) (hfloor : floor <:+ l.brackets)
    (hcloser : ∀ top ∈ floor.head?, top.closer = ')')
    (hcapture : captureArguments floor.depth fuel raw l = .ok () l') :
    Arguments floor l raw l' := by
  induction fuel generalizing l raw with
  | zero => omega
  | succ fuel induction =>
    unfold captureArguments at hcapture
    rw [get_bind_ok] at hcapture
    cases hrest : l.rest with
    | nil =>
      simp only [hrest, bind_ok, enterNextLine_ok] at hcapture
      obtain ⟨_, _, ⟨rfl, _⟩ | ⟨rfl, text, unread, hunread, rfl⟩, hcapture⟩ := hcapture
      · simp at hcapture
      · have shorter := toCome_nextLine hrest hunread
        exact .prepend (.line hrest hunread .refl)
          (induction (by omega) (by simp only [nextLine, enterLine] at shorter ⊢; omega) hfloor
            hcapture)
    | cons c rest =>
      simp only [hrest, ite_ok] at hcapture
      split at hcapture
      case isTrue hend =>
        simp only [Bool.and_eq_true, beq_iff_eq, Bool.or_eq_true] at hend
        have hbrackets := eq_of_suffix_of_depth hfloor hend.1
        split at hcapture
        case isTrue hclose =>
          rw [beq_iff_eq] at hclose
          subst hclose
          cases hcapture
          exact .last .refl hbrackets hrest
        case isFalse hclose =>
          rw [beq_iff_eq] at hclose
          obtain rfl : c = ',' := hend.2.resolve_right hclose
          rw [set_bind_ok] at hcapture
          change captureArguments _ fuel (.empty (l.pushCaptured raw).here)
            ((l.pushCaptured raw).advance 1) = _ at hcapture
          rw [pushCaptured_here] at hcapture
          have shorter := toCome_advance
            (show 1 ≤ (l.pushCaptured raw).rest.length by simp [hrest])
          refine .more .refl hbrackets hrest (induction ?_ ?_ ?_ hcapture)
          · simp only [pushCaptured_toCome] at shorter
            omega
          · simp only [pushCaptured_toCome] at shorter
            change _ < (l.pushCaptured raw).bound
            simp only [pushCaptured_frame]
            omega
          · change floor <:+ (l.pushCaptured raw).brackets
            simpa only [pushCaptured_frame] using hfloor
      case isFalse hgoes =>
        obtain ⟨raw₁, m, hnext, hcapture⟩ := bind_ok.mp hcapture
        have hnotClosed : l.brackets = floor → ∀ top ∈ floor.head?, top.closer ≠ c := by
          intro heq top htop hc
          refine hgoes ?_
          simp [heq, ← hc, hcloser top htop]
        have hnotCut : false = true ∨ l.brackets ≠ floor ∨ c ≠ ',' := by
          refine .inr (Decidable.not_and_iff_not_or_not.mp fun hcut => hgoes ?_)
          simp [hcut.1, hcut.2]
        obtain ⟨first, shorter⟩ := captureNext_moves hbound hrest hnotClosed hnotCut hnext
        refine .prepend first (induction (by omega) ?_ (first.floor_suffix hfloor) hcapture)
        rw [first.readsOn.bound]
        omega

theorem captureCommandRest_moves {floor : BracketStack} {closer : Char} {fuel : Nat}
    {l l' : Lexer} {raw : RawText} (hfuel : l.toCome < fuel) (hbound : l.toCome < l.bound)
    (hfloor : floor <:+ l.brackets) (hcloser : ∀ top ∈ floor.head?, top.closer = closer)
    (hcapture : captureCommandRest closer floor.depth fuel raw l = .ok () l') :
    ∃ m captured rest, Capture floor true l raw m captured ∧ m.brackets = floor ∧
      m.rest = closer :: rest ∧
      l' = { m.push (captured.toToken m.lineText) with lastSignificant := some .macroParam } := by
  induction fuel generalizing l raw with
  | zero => omega
  | succ fuel induction =>
    unfold captureCommandRest at hcapture
    rw [get_bind_ok] at hcapture
    cases hrest : l.rest with
    | nil =>
      simp only [hrest, bind_ok, enterNextLine_ok] at hcapture
      obtain ⟨_, _, ⟨rfl, _⟩ | ⟨rfl, text, unread, hunread, rfl⟩, hcapture⟩ := hcapture
      · simp at hcapture
      · have shorter := toCome_nextLine hrest hunread
        have hbound' : (l.nextLine text unread).toCome < (l.nextLine text unread).bound := by
          simp only [nextLine, enterLine] at shorter ⊢
          omega
        obtain ⟨m, captured, rest, moves, rest⟩ := induction (by omega) hbound' hfloor hcapture
        exact ⟨m, captured, _, .line hrest hunread moves, rest⟩
    | cons c rest =>
      simp only [hrest, ite_ok] at hcapture
      split at hcapture
      case isTrue hend =>
        simp only [Bool.and_eq_true, beq_iff_eq] at hend
        obtain ⟨hdepth, rfl⟩ := hend
        exact ⟨l, raw, rest, .refl, eq_of_suffix_of_depth hfloor hdepth, hrest,
          (set_ok.mp hcapture).symm⟩
      case isFalse hgoes =>
        obtain ⟨raw₁, m, hnext, hcapture⟩ := bind_ok.mp hcapture
        have hnotClosed : l.brackets = floor → ∀ top ∈ floor.head?, top.closer ≠ c := by
          intro heq top htop hc
          refine hgoes ?_
          simp [heq, ← hc, hcloser top htop]
        obtain ⟨first, shorter⟩ := captureNext_moves hbound hrest hnotClosed (.inl rfl) hnext
        have hbound' : m.toCome < m.bound := by
          rw [first.readsOn.bound]
          omega
        obtain ⟨n, captured, rest, moves, rest⟩ :=
          induction (by omega) hbound' (first.floor_suffix hfloor) hcapture
        exact ⟨n, captured, _, first.trans moves, rest⟩

/-! ### Statement bodies -/

theorem gatherLine_moves {fuel : Nat} {l l' : Lexer} {text text' : List Char}
    (hfuel : l.toCome < fuel) (hgather : gatherLine fuel text l = .ok text' l') :
    Gathers l text l' text' := by
  induction fuel generalizing l text with
  | zero => omega
  | succ fuel induction =>
    unfold gatherLine at hgather
    cases hgoes : goesOn text with
    | false =>
      simp only [hgoes, Bool.false_eq_true, if_false, pure_ok] at hgather
      obtain ⟨rfl, rfl⟩ := hgather
      exact .stop hgoes
    | true =>
      simp only [hgoes, if_true, bind_ok, enterNextLine_ok] at hgather
      obtain ⟨_, _, ⟨rfl, _⟩ | ⟨rfl, line, unread, hunread, rfl⟩, hgather⟩ := hgather
      · simp at hgather
      · simp only [Bool.not_true, Bool.false_eq_true, if_false, bind_ok, get_ok] at hgather
        obtain ⟨_, _, ⟨rfl, rfl⟩, hgather⟩ := hgather
        have shorter := toCome_nextLine_lt hunread
        exact .line hgoes hunread (induction (by omega) hgather)

theorem gatherBlock_moves {indent fuel : Nat} {l l' : Lexer} {text text' : List Char}
    {first first' : Option Nat} (hfuel : l.toCome < fuel)
    (hgather : gatherBlock indent fuel text first l = .ok (text', first') l') :
    GathersBlock indent l text first l' text' first' := by
  induction fuel generalizing l text first with
  | zero => omega
  | succ fuel induction =>
    simp only [gatherBlock, bind_ok, takeLine_ok] at hgather
    obtain ⟨_, _, ⟨rfl, hunread, rfl⟩ | ⟨line, unread, rfl, hunread, rfl⟩, hgather⟩ := hgather
    · simp only [pure_ok, Prod.mk.injEq] at hgather
      obtain ⟨⟨rfl, rfl⟩, rfl⟩ := hgather
      exact .sourceEnd hunread
    · have shorter := toCome_nextLine_lt hunread
      simp only [bind_ok, get_ok] at hgather
      obtain ⟨_, _, ⟨rfl, rfl⟩, hgather⟩ := hgather
      cases hidle : Lexeme.isIdleLine line with
      | true =>
        simp only [hidle, if_true, bind_ok, set_ok] at hgather
        obtain ⟨_, _, rfl, hgather⟩ := hgather
        exact .idle hunread hidle (induction (by omega) hgather)
      | false =>
        simp only [hidle, Bool.false_eq_true, if_false, ite_ok] at hgather
        split at hgather
        case isTrue hindent =>
          simp only [bind_ok, set_ok, pure_ok, Prod.mk.injEq] at hgather
          obtain ⟨_, _, rfl, ⟨rfl, rfl⟩, rfl⟩ := hgather
          have same : { l with unread := .text line :: unread } = l := by
            rw [← hunread]
          rw [same]
          exact .outdented hunread hidle hindent
        case isFalse hindent =>
          simp only [bind_ok, set_ok] at hgather
          obtain ⟨_, _, rfl, hgather⟩ := hgather
          have shorter : ((l.measure line).nextLine line unread).toCome < l.toCome :=
            toCome_nextLine_lt (l := l.measure line) hunread
          exact .deeper hunread hidle (Nat.lt_of_not_le hindent) (induction (by omega) hgather)

end ShellSyntax.Lexer
