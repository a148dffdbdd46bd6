import ShellSyntax.Proofs.Lexer.Bounds
import ShellSyntax.Proofs.Lexer.Twins

/-!
What a lexer finds on lines that end in line feeds it finds on the same lines with returns: where a
step succeeds on the first, it does so on the second, and leads to the same place.
-/

namespace ShellSyntax

open Text

variable {lines : List (List Char)}

/-! ### Captured text -/

namespace RawText

/-- The captured text with returns. -/
def returned (lines : List (List Char)) (raw : RawText) : RawText where
  text := Text.returned raw.text
  gap := Text.returned raw.gap
  origin := raw.origin.map fun (place, line) => (place.moved lines, Text.returned line)
  stop := raw.stop.moved lines

@[simp] theorem returned_isBlank (raw : RawText) : (raw.returned lines).isBlank = raw.isBlank :=
  Option.isNone_map

theorem push_blank {c : Char} (hblank : Text.isBlank c = true) (raw : RawText) (place : Position)
    (line : String) :
    raw.push c place line = if raw.isBlank then raw else { raw with gap := raw.gap.push c } := by
  unfold push
  rw [if_pos hblank]

/-- A character within a line. -/
theorem returned_push {c : Char} {place place' : Position} (hc : c ≠ '\n')
    (hplace : place' = place.moved lines)
    (hbehind : (⟨place'.line, place'.column + 1⟩ : Position) =
      (⟨place.line, place.column + 1⟩ : Position).moved lines)
    (raw : RawText) (line : String) :
    (raw.push c place line).returned lines =
      (raw.returned lines).push c place' (Text.returned line) := by
  cases hblank : Text.isBlank c with
  | true =>
    rw [push_blank hblank, push_blank hblank, returned_isBlank]
    split
    · rfl
    · simp only [returned, returned_push_of_ne hc]
  | false =>
    obtain ⟨text, gap, origin, stop⟩ := raw
    unfold push
    rw [hblank, if_neg Bool.false_ne_true, if_neg Bool.false_ne_true]
    simp only [returned, returned_push_of_ne hc, Text.returned_append, Text.returned_empty, hbehind]
    cases origin with
    | none => rw [hplace]; rfl
    | some _ => rfl

/-- A line end. -/
theorem returned_push_feed (raw : RawText) (place place' place'' : Position)
    (line line' line'' : String) :
    (raw.push '\n' place line).returned lines =
      ((raw.returned lines).push '\r' place' line').push '\n' place'' line'' := by
  have hfeed : Text.isBlank '\n' = true := by decide
  have hreturn : Text.isBlank '\r' = true := by decide
  rw [push_blank hfeed, push_blank hreturn, push_blank hfeed, returned_isBlank]
  cases hblank : raw.isBlank with
  | true =>
    rw [if_pos rfl, if_pos rfl, returned_isBlank, hblank, if_pos rfl]
  | false =>
    have hblank' : ({ raw.returned lines with gap := (raw.returned lines).gap.push '\r' } :
        RawText).isBlank = false := (returned_isBlank raw).trans hblank
    rw [if_neg Bool.false_ne_true, if_neg Bool.false_ne_true, hblank', if_neg Bool.false_ne_true]
    simp only [returned, Text.returned_push_feed]

theorem twin_toToken (raw : RawText) (line : String) :
    (raw.toToken line).Twin lines ((raw.returned lines).toToken (Text.returned line)) := by
  obtain ⟨text, gap, origin, stop⟩ := raw
  cases origin with
  | none =>
    exact .of_feeds rfl rfl rfl (fun _ => rfl) rfl (by simpa [toToken, returned] using .withReturns _)
      (by simp [toToken])
  | some origin =>
    exact .of_feeds rfl rfl rfl (fun _ => rfl) rfl (by simpa [toToken, returned] using .withReturns _)
      (by simp [toToken])

end RawText

theorem Quote.feed_not_mem_of_closes {q : Quote} {text : List Char} (hq : q.Printed)
    (hcloses : q.closes text = true) : '\n' ∉ text.take q.size := by
  obtain ⟨rest, rfl⟩ := List.isPrefixOf_iff_prefix.mp hcloses
  rw [List.take_left' List.length_replicate]
  exact fun hmem => hq.1 (List.eq_of_mem_replicate hmem).symm

theorem StringLetters.feed_not_mem_opening {text letters : List Char} {quote : Quote}
    (hopening : opening? text = some (letters, quote)) :
    '\n' ∉ text.take (letters.length + quote.size) := by
  obtain ⟨hletters, hquote⟩ := quote_of_opening? hopening
  obtain ⟨_, hcloses, htake⟩ := opening?_bounds hopening
  rw [List.take_add, ← htake, List.mem_append, not_or]
  refine ⟨?_, Quote.feed_not_mem_of_closes (Quote.printed_of_opening? hquote) hcloses⟩
  rw [hletters]
  exact Lexeme.not_mem_takeWhile (by decide) text

namespace Lexer

open Outcome

variable {l l' : Lexer}

/-! ### Lines and brackets -/

theorem enterNextLine_follows (hlines : ∀ line ∈ lines, OneLine line) (h : Twins lines l l') :
    Follows (Twins lines) Eq l l' enterNextLine enterNextLine := by
  intro found m hrun
  obtain ⟨hdrop, hunread, hunread'⟩ | ⟨line, more, hdrop, hunread, hunread'⟩ := h.ahead
  · obtain ⟨rfl, _, rfl⟩ | ⟨_, text, unread, hnext, _⟩ := enterNextLine_ok.mp hrun
    · exact ⟨false, l', enterNextLine_ok.mpr (.inl ⟨rfl, hunread', rfl⟩), rfl, h⟩
    · exact absurd (hunread.symm.trans hnext) (by simp)
  · obtain ⟨_, hnext, _⟩ | ⟨rfl, text, unread, hnext, rfl⟩ := enterNextLine_ok.mp hrun
    · exact absurd (hunread.symm.trans hnext) (by simp)
    · cases hunread.symm.trans hnext
      have hmem : line ∈ lines := List.drop_subset _ _ (by rw [hdrop]; exact List.mem_cons_self)
      exact ⟨true, _, enterNextLine_ok.mpr (.inr ⟨rfl, _, _, hunread', rfl⟩), rfl,
        h.nextLine (hlines line hmem) hdrop⟩

theorem closeBracket_follows (h : Twins lines l l') (closer : Char) :
    Follows (Twins lines) Eq l l' (closeBracket closer) (closeBracket closer) := by
  rintro ⟨⟩ m hrun
  obtain ⟨top, brackets, hbrackets, hcloser, rfl⟩ := closeBracket_ok.mp hrun
  have hbrackets' : l'.brackets = top.moved lines :: BracketStack.moved lines brackets := by
    rw [h.brackets, hbrackets]
    rfl
  exact ⟨(), _, closeBracket_ok.mpr ⟨_, _, hbrackets', hcloser, rfl⟩, rfl, { h with brackets := rfl }⟩

/-! ### Raw text -/

/-- The same captured text, with returns. -/
abbrev Recaptured (lines : List (List Char)) (raw raw' : RawText) : Prop :=
  raw' = raw.returned lines

theorem captureChar_follows (h : Twins lines l l') (hhead : l.rest.head? ≠ some '\n')
    (raw : RawText) :
    Follows (Twins lines) (Recaptured lines) l l' (captureChar raw)
      (captureChar (raw.returned lines)) := by
  cases hrest : l.rest with
  | nil =>
    have hrest' : l'.rest = [] := by rw [h.rest, hrest, withReturns_nil]
    apply Follows.getBind
    simp only [hrest, hrest']
    exact .pure rfl h
  | cons c rest =>
    have hc : c ≠ '\n' := by
      rintro rfl
      exact hhead (by rw [hrest]; rfl)
    have hrest' : l'.rest = c :: withReturns rest := by rw [h.rest, hrest, withReturns_cons hc]
    have hfeed : '\n' ∉ l.rest.take 1 := by simpa [hrest] using hc.symm
    have hbehind := h.advance_of_no_feed (by simp [hrest]) hfeed
    intro _ _ hrun
    rw [captureChar_eq hrest] at hrun
    cases hrun
    refine ⟨_, _, captureChar_eq hrest', ?_, hbehind⟩
    rw [h.lineText]
    exact (RawText.returned_push hc h.here hbehind.here raw l.lineText).symm

theorem captureChars_follows (h : Twins lines l l') {count : Nat} (hfeed : '\n' ∉ l.rest.take count)
    (raw : RawText) :
    Follows (Twins lines) (Recaptured lines) l l' (captureChars count raw)
      (captureChars count (raw.returned lines)) := by
  induction count generalizing l l' raw with
  | zero => exact .pure rfl h
  | succ count induction =>
    have hhead : l.rest.head? ≠ some '\n' := by
      intro hhead
      obtain ⟨rest, hrest⟩ := List.head?_eq_some_iff.mp hhead
      exact hfeed (by rw [hrest]; exact List.mem_cons_self)
    refine .bind (captureChar_follows h hhead raw) ?_
    rintro raw _ m m' hrun _ rfl hm
    refine induction hm ?_ raw
    cases hrest : l.rest with
    | nil =>
      rw [captureChar, get_bind_ok, hrest] at hrun
      obtain ⟨_, rfl⟩ := pure_ok.mp hrun
      simp [hrest]
    | cons c rest =>
      rw [captureChar_eq hrest] at hrun
      cases hrun
      rw [hrest, List.take_succ_cons, List.mem_cons, not_or] at hfeed
      simpa [advance, hrest] using hfeed.2

/-- At a line end both go past it, the one in one step and the other in two. -/
theorem Twins.pastLineEnd (h : Twins lines l l') (hrest : l.rest = ['\n']) :
    l'.rest = ['\r', '\n'] ∧ Twins lines (l.advance 1) ((l'.advance 1).advance 1) := by
  have hahead := h.advance (by simp [hrest]) 1
  rw [hrest] at hahead
  refine ⟨by rw [h.rest, hrest]; rfl, ?_⟩
  rw [advance_advance]
  exact hahead

/-- What two loops that capture text do with more rounds than there is to come. -/
def LoopsFollow (lines : List (List Char)) {α β : Type} (R : α → β → Prop)
    (loop : Nat → RawText → Lex α) (loop' : Nat → RawText → Lex β) (l l' : Lexer) : Prop :=
  ∀ fuel fuel' raw, l.toCome < fuel → l'.toCome < fuel' →
    Follows (Twins lines) R l l' (loop fuel raw) (loop' fuel' (raw.returned lines))

/-- The loop captures the next character and goes on. -/
def CapturesChar {α : Type} (loop : Nat → RawText → Lex α) (l : Lexer) : Prop :=
  ∃ c rest, l.rest = c :: rest ∧ ∀ fuel raw,
    loop (fuel + 1) raw l = loop fuel (raw.push c l.here l.lineText) (l.advance 1)

section Loops

variable {α β : Type} {R : α → β → Prop} {loop : Nat → RawText → Lex α}
  {loop' : Nat → RawText → Lex β}

/-- A line end is passed in one round by the one loop, in two by the other. -/
theorem LoopsFollow.lineEnd (h : Twins lines l l') (hrest : l.rest = ['\n'])
    (captures : CapturesChar loop l) (captures' : CapturesChar loop' l')
    (captures'' : CapturesChar loop' (l'.advance 1))
    (next : LoopsFollow lines R loop loop' (l.advance 1) ((l'.advance 1).advance 1)) :
    LoopsFollow lines R loop loop' l l' := by
  obtain ⟨hrest', hbehind⟩ := h.pastLineEnd hrest
  have hlast : (l'.advance 1).rest = ['\n'] := by simp [advance, hrest']
  intro fuel fuel' raw hfuel hfuel'
  have hlength := toCome_advance (show 1 ≤ l.rest.length by simp [hrest])
  have hlength₁ := toCome_advance (show 1 ≤ l'.rest.length by simp [hrest'])
  have hlength₂ := toCome_advance (show 1 ≤ (l'.advance 1).rest.length by simp [hlast])
  obtain ⟨fuel, rfl⟩ : ∃ rounds, fuel = rounds + 1 := ⟨fuel - 1, by omega⟩
  obtain ⟨fuel', rfl⟩ : ∃ rounds, fuel' = rounds + 1 + 1 := ⟨fuel' - 2, by omega⟩
  obtain ⟨_, _, hhead, hround⟩ := captures
  obtain ⟨_, _, hhead', hround'⟩ := captures'
  obtain ⟨_, _, hhead'', hround''⟩ := captures''
  cases hrest.symm.trans hhead
  cases hrest'.symm.trans hhead'
  cases hlast.symm.trans hhead''
  intro a m hrun
  rw [hround] at hrun
  rw [hround', hround'', ← RawText.returned_push_feed raw l.here l'.here _ l.lineText]
  exact next fuel fuel' _ (by omega) (by omega) a m hrun

end Loops

theorem capturesChar_quoted {c : Char} {rest : List Char} {quote : Quote} (hrest : l.rest = c :: rest)
    (hc : c ≠ '\\') (hcloses : quote.closes l.rest = false)
    (hline : quote.triple = true ∨ Lexeme.isLineBreak c = false) (start : Position) :
    CapturesChar (captureQuoted quote start) l := by
  refine ⟨c, rest, hrest, fun fuel raw => ?_⟩
  have hbreak : (!quote.triple && Lexeme.isLineBreak c) = false := by
    rcases hline with htriple | hbreak
    · rw [htriple]
      rfl
    · rw [hbreak, Bool.and_false]
  rw [hrest] at hcloses
  simp only [captureQuoted, run_bind, run_get, hrest, beq_false_of_ne hc, hcloses, hbreak,
    Bool.false_eq_true, if_false, captureChar_eq hrest]

theorem captureQuoted_lineEnd (h : Twins lines l l') (hrest : l.rest = ['\n']) {quote : Quote}
    (hquote : quote.Printed) {start start' : Position}
    (next : LoopsFollow lines (Recaptured lines) (captureQuoted quote start)
      (captureQuoted quote start') (l.advance 1) ((l'.advance 1).advance 1)) :
    LoopsFollow lines (Recaptured lines) (captureQuoted quote start) (captureQuoted quote start')
      l l' := by
  obtain ⟨hrest', _⟩ := h.pastLineEnd hrest
  have hlast : (l'.advance 1).rest = ['\n'] := by simp [advance, hrest']
  have hnot := Quote.not_closes_of_ne hquote.1.symm []
  have hnot' := Quote.not_closes_of_ne hquote.2.symm ['\n']
  cases htriple : quote.triple with
  | false =>
    intro fuel fuel' raw hfuel _ a m hrun
    obtain ⟨fuel, rfl⟩ : ∃ rounds, fuel = rounds + 1 := ⟨fuel - 1, by omega⟩
    rw [captureQuoted, get_bind_ok] at hrun
    simp [hrest, hnot, htriple, Lexeme.isLineBreak] at hrun
  | true =>
    exact .lineEnd h hrest (capturesChar_quoted hrest (by decide) (hrest ▸ hnot) (.inl htriple) _)
      (capturesChar_quoted hrest' (by decide) (hrest' ▸ hnot') (.inl htriple) _)
      (capturesChar_quoted hlast (by decide) (hlast ▸ hnot) (.inl htriple) _) next

theorem captureChars_two {c d : Char} {rest : List Char} (hrest : l.rest = c :: d :: rest)
    (raw : RawText) :
    captureChars 2 raw l =
      .ok ((raw.push c l.here l.lineText).push d (l.advance 1).here l.lineText)
        ((l.advance 1).advance 1) := by
  have hnext : (l.advance 1).rest = d :: rest := by simp [advance, hrest]
  simp only [captureChars, run_bind, captureChar_eq hrest, captureChar_eq hnext, run_pure]
  rfl

/-- A backslash takes the line feed with it, but only the first half of a longer line end. -/
theorem captureQuoted_joint (h : Twins lines l l') (hrest : l.rest = ['\\', '\n']) {quote : Quote}
    (hquote : quote.Printed) {start start' : Position}
    (next : Twins lines ((l.advance 1).advance 1) (((l'.advance 1).advance 1).advance 1) →
      LoopsFollow lines (Recaptured lines) (captureQuoted quote start) (captureQuoted quote start')
        ((l.advance 1).advance 1) (((l'.advance 1).advance 1).advance 1)) :
    LoopsFollow lines (Recaptured lines) (captureQuoted quote start) (captureQuoted quote start')
      l l' := by
  have hchar : Twins lines (l.advance 1) (l'.advance 1) :=
    h.advance_of_no_feed (by simp [hrest]) (by simp [hrest])
  have hfeed : (l.advance 1).rest = ['\n'] := by simp [advance, hrest]
  have hrest' : l'.rest = ['\\', '\r', '\n'] := by
    rw [h.rest, hrest]
    rfl
  have hlast : ((l'.advance 1).advance 1).rest = ['\n'] := by simp [advance, hrest']
  have hbehind := (hchar.pastLineEnd hfeed).2
  have hlength : ((l.advance 1).advance 1).toCome + 2 = l.toCome := by
    rw [advance_advance]
    exact toCome_advance (by simp [hrest])
  have hlength' : (((l'.advance 1).advance 1).advance 1).toCome + 3 = l'.toCome := by
    rw [advance_advance, advance_advance]
    exact toCome_advance (by simp [hrest'])
  have hround {l : Lexer} {c : Char} {more : List Char} (hrest : l.rest = '\\' :: c :: more)
      (start : Position) (fuel : Nat) (raw : RawText) :
      captureQuoted quote start (fuel + 1) raw l =
        captureQuoted quote start fuel
          ((raw.push '\\' l.here l.lineText).push c (l.advance 1).here l.lineText)
          ((l.advance 1).advance 1) := by
    simp only [captureQuoted, run_bind, run_get, hrest, beq_self_eq_true, if_true,
      captureChars_two hrest]
  intro fuel fuel' raw hfuel hfuel' a m hrun
  obtain ⟨fuel, rfl⟩ : ∃ rounds, fuel = rounds + 1 + 1 := ⟨fuel - 2, by omega⟩
  obtain ⟨fuel', rfl⟩ : ∃ rounds, fuel' = rounds + 1 + 1 := ⟨fuel' - 2, by omega⟩
  rw [hround hrest] at hrun
  cases htriple : quote.triple with
  | false =>
    rw [captureQuoted, get_bind_ok] at hrun
    simp [advance, hrest, htriple] at hrun
  | true =>
    obtain ⟨_, _, hhead, hfurther⟩ := capturesChar_quoted hlast (by decide)
      (hlast ▸ Quote.not_closes_of_ne hquote.1.symm []) (.inl htriple) start'
    cases hlast.symm.trans hhead
    have hahead := next hbehind _ fuel' _ (by omega) (by omega) a m hrun
    rw [RawText.returned_push_feed _ _ _ _ l.lineText,
      RawText.returned_push (by decide) h.here hchar.here raw l.lineText, ← h.lineText] at hahead
    rw [hround hrest', hfurther]
    exact hahead

theorem captureQuoted_follows (hlines : ∀ line ∈ lines, OneLine line) (h : Twins lines l l')
    {quote : Quote} (hquote : quote.Printed) (start start' : Position) :
    LoopsFollow lines (Recaptured lines) (captureQuoted quote start) (captureQuoted quote start')
      l l' := by
  induction hcome : l.toCome using Nat.strong_induction_on generalizing l l' with
  | h come induction =>
  subst hcome
  have hone := h.oneLine
  cases hrest : l.rest with
  | nil =>
    have hrest' : l'.rest = [] := by rw [h.rest, hrest, withReturns_nil]
    intro fuel fuel' raw hfuel hfuel'
    obtain ⟨fuel, rfl⟩ : ∃ rounds, fuel = rounds + 1 := ⟨fuel - 1, by omega⟩
    obtain ⟨fuel', rfl⟩ : ∃ rounds, fuel' = rounds + 1 := ⟨fuel' - 1, by omega⟩
    unfold captureQuoted
    apply Follows.getBind
    simp only [hrest, hrest']
    refine .ite Iff.rfl (fun _ => .throw _ _) fun _ => ?_
    refine .bind (enterNextLine_follows hlines h) ?_
    rintro entered _ m m' hrun hrun' rfl hm
    refine .ite Iff.rfl (fun _ => .throw _ _) fun hentered => ?_
    have hshorter := toCome_of_enterNextLine hrun hentered
    have hshorter' := toCome_of_enterNextLine hrun' hentered
    exact induction _ hshorter hm rfl _ _ raw (by omega) (by omega)
  | cons c rest =>
    have hlength := toCome_advance (show 1 ≤ l.rest.length by simp [hrest])
    by_cases hc : c = '\n'
    · subst hc
      rw [hrest] at hone
      rw [hone.eq_nil_of_feed] at hrest
      exact captureQuoted_lineEnd h hrest hquote
        (induction _ (by omega) (h.pastLineEnd hrest).2 rfl)
    · have hrest' : l'.rest = c :: withReturns rest := by rw [h.rest, hrest, withReturns_cons hc]
      by_cases hjoint : c = '\\' ∧ rest.head? = some '\n'
      · obtain ⟨rfl, hfeed⟩ := hjoint
        obtain ⟨more, rfl⟩ := List.head?_eq_some_iff.mp hfeed
        rw [hrest] at hone
        rw [hone.tail.eq_nil_of_feed] at hrest
        refine captureQuoted_joint h hrest hquote fun hbehind => induction _ ?_ hbehind rfl
        rw [advance_advance]
        have hshorter := toCome_advance (show 1 + 1 ≤ l.rest.length by simp [hrest])
        omega
      · have hcloses := Quote.closes_withReturns hquote (c :: rest)
        rw [withReturns_cons hc] at hcloses
        intro fuel fuel' raw hfuel hfuel'
        obtain ⟨fuel, rfl⟩ : ∃ rounds, fuel = rounds + 1 := ⟨fuel - 1, by omega⟩
        obtain ⟨fuel', rfl⟩ : ∃ rounds, fuel' = rounds + 1 := ⟨fuel' - 1, by omega⟩
        unfold captureQuoted
        apply Follows.getBind
        simp only [hrest, hrest', hcloses]
        have hahead (count : Nat) (hfeed : '\n' ∉ l.rest.take (count + 1)) :
            Follows (Twins lines) (Recaptured lines) l l'
              (captureChars (count + 1) raw >>= captureQuoted quote start fuel)
              (captureChars (count + 1) (raw.returned lines) >>=
                captureQuoted quote start' fuel') := by
          refine .bind (captureChars_follows h hfeed raw) ?_
          rintro raw _ m m' hrun hrun' rfl hm
          rw [captureChars_eq, EStateM.Result.ok.injEq] at hrun hrun'
          obtain ⟨-, rfl⟩ := hrun
          obtain ⟨-, rfl⟩ := hrun'
          have hcome := toCome_advance (Nat.min_le_right (count + 1) l.rest.length)
          have hcome' := toCome_advance (Nat.min_le_right (count + 1) l'.rest.length)
          have hone : 1 ≤ min (count + 1) l.rest.length := by
            rw [hrest, List.length_cons]
            omega
          have hone' : 1 ≤ min (count + 1) l'.rest.length := by
            rw [hrest', List.length_cons]
            omega
          exact induction _ (by omega) hm rfl _ _ raw (by omega) (by omega)
        refine .ite Iff.rfl (fun hescape => hahead 1 ?_) fun hescape => .ite Iff.rfl (fun hends => ?_)
          fun _ => .ite Iff.rfl (fun _ => .throw _ _) fun _ => ?_
        · rw [hrest]
          cases rest with
          | nil => simpa using Ne.symm hc
          | cons d rest =>
            have hd : d ≠ '\n' := by
              rintro rfl
              exact hjoint ⟨by simpa using hescape, rfl⟩
            simp [Ne.symm hc, hd.symm]
        · refine captureChars_follows h ?_ raw
          rw [hrest]
          exact Quote.feed_not_mem_of_closes hquote hends
        · have hone (raw : RawText) : captureChars (0 + 1) raw = captureChar raw := bind_pure _
          have hchar := hahead 0 (by simpa [hrest] using Ne.symm hc)
          rwa [hone, hone] at hchar

/-- More steps than there are characters and lines to come. -/
def HasRoom (l : Lexer) : Prop :=
  l.toCome < l.bound

theorem HasRoom.leadsOn {m : Lexer} (room : HasRoom l) (ahead : LeadsOn l m) : HasRoom m := by
  have hcome := ahead.toCome
  have hbound := ahead.bound
  rw [HasRoom] at room ⊢
  omega

theorem HasRoom.advance (room : HasRoom l) (count : Nat) : HasRoom (l.advance count) :=
  Nat.lt_of_le_of_lt (readsOn_advance l count).toCome room

theorem captureString_follows (hlines : ∀ line ∈ lines, OneLine line) (h : Twins lines l l')
    (room : HasRoom l) (room' : HasRoom l') {quote : Quote}
    (hopening : Quote.opening? l.rest = some quote) (raw : RawText) :
    Follows (Twins lines) (Recaptured lines) l l' (captureString quote raw)
      (captureString quote (raw.returned lines)) := by
  have hquote := Quote.printed_of_opening? hopening
  have hfeed := Quote.feed_not_mem_of_closes hquote (closes_of_opening hopening)
  apply Follows.getBind
  refine .bind (captureChars_follows h hfeed raw) ?_
  rintro raw' _ m m' hrun hrun' rfl hm
  have hcome := ((captureChars_strikes l raw quote.size).leadsOn hrun).toCome
  have hcome' := ((captureChars_strikes l' _ quote.size).leadsOn hrun').toCome
  rw [HasRoom] at room room'
  exact captureQuoted_follows hlines hm hquote _ _ _ _ raw' (by omega) (by omega)

theorem followBracket_follows (h : Twins lines l l') (c : Char) :
    Follows (Twins lines) Eq l l' (followBracket c) (followBracket c) := by
  apply Follows.getBind
  cases Opener.plain? c with
  | some opener =>
    have hopened := h.pushBracket ⟨opener, .raw, l.here⟩
    rw [Bracket.moved, ← h.here] at hopened
    exact .set hopened
  | none => exact .ite Iff.rfl (fun _ => closeBracket_follows h c) fun _ => .pure rfl h

theorem captureNext_follows (hlines : ∀ line ∈ lines, OneLine line) (h : Twins lines l l')
    (room : HasRoom l) (room' : HasRoom l') (hhead : l.rest.head? ≠ some '\n') (raw : RawText) :
    Follows (Twins lines) (Recaptured lines) l l' (captureNext raw)
      (captureNext (raw.returned lines)) := by
  have hopening : Quote.opening? l'.rest = Quote.opening? l.rest := by
    rw [h.rest, Quote.opening?_withReturns]
  apply Follows.getBind
  rw [hopening]
  cases hquote : Quote.opening? l.rest with
  | some quote => exact captureString_follows hlines h room room' hquote raw
  | none =>
    cases hrest : l.rest with
    | nil =>
      have hrest' : l'.rest = [] := by rw [h.rest, hrest, withReturns_nil]
      rw [hrest']
      exact captureChar_follows h hhead raw
    | cons c rest =>
      have hc : c ≠ '\n' := by
        rintro rfl
        exact hhead (by rw [hrest]; rfl)
      have hrest' : l'.rest = c :: withReturns rest := by rw [h.rest, hrest, withReturns_cons hc]
      rw [hrest']
      refine .bind (followBracket_follows h c) ?_
      rintro ⟨⟩ ⟨⟩ m m' hrun _ _ hm
      refine captureChar_follows hm ?_ raw
      rwa [(rest_of_followBracket hrun).1]

/-- A line break is captured like any character. -/
theorem captureNext_lineBreak {c : Char} {rest : List Char} (hrest : l.rest = c :: rest)
    (hc : Lexeme.isLineBreak c = true) (raw : RawText) :
    captureNext raw l = .ok (raw.push c l.here l.lineText) (l.advance 1) := by
  have hbreak : c = '\n' ∨ c = '\r' := by simpa [Lexeme.isLineBreak] using hc
  have hopening : Quote.opening? (c :: rest) = none := by
    rcases hbreak with rfl | rfl
    · rfl
    · rfl
  have hfollow : followBracket c l = .ok ⟨⟩ l := by
    rcases hbreak with rfl | rfl
    · rfl
    · rfl
  simp only [captureNext, run_bind, run_get, hrest, hopening, hfollow, captureChar_eq hrest]

theorem captureArguments_lineBreak {c : Char} {rest : List Char} (hrest : l.rest = c :: rest)
    (hc : Lexeme.isLineBreak c = true) (base : Nat) : CapturesChar (captureArguments base) l := by
  refine ⟨c, rest, hrest, fun fuel raw => ?_⟩
  have hends : (c == ',' || c == ')') = false := by
    have hbreak : c = '\n' ∨ c = '\r' := by simpa [Lexeme.isLineBreak] using hc
    rcases hbreak with rfl | rfl
    · rfl
    · rfl
  simp only [captureArguments, run_bind, run_get, hrest, hends, Bool.and_false, Bool.false_eq_true,
    if_false, captureNext_lineBreak hrest hc]

theorem captureCommandRest_lineBreak {c closer : Char} {rest : List Char} (hrest : l.rest = c :: rest)
    (hc : Lexeme.isLineBreak c = true) (hcloser : Lexeme.isLineBreak closer = false) (base : Nat) :
    CapturesChar (captureCommandRest closer base) l := by
  refine ⟨c, rest, hrest, fun fuel raw => ?_⟩
  have hends : (c == closer) = false := by
    rw [beq_eq_false_iff_ne]
    rintro rfl
    exact absurd (hc.symm.trans hcloser) (by decide)
  simp only [captureCommandRest, run_bind, run_get, hrest, hends, Bool.and_false, Bool.false_eq_true,
    if_false, captureNext_lineBreak hrest hc]

theorem Twins.pushCaptured (h : Twins lines l l') (raw : RawText) :
    Twins lines (l.pushCaptured raw) (l'.pushCaptured (raw.returned lines)) := by
  unfold Lexer.pushCaptured
  rw [RawText.returned_isBlank, h.lineText]
  split
  · exact h
  · exact h.push (raw.twin_toToken l.lineText)

theorem captureArguments_follows (hlines : ∀ line ∈ lines, OneLine line) (h : Twins lines l l')
    (room : HasRoom l) (room' : HasRoom l') (base : Nat) :
    LoopsFollow lines Eq (captureArguments base) (captureArguments base) l l' := by
  induction hcome : l.toCome using Nat.strong_induction_on generalizing l l' with
  | h come induction =>
  subst hcome
  cases hrest : l.rest with
  | nil =>
    have hrest' : l'.rest = [] := by rw [h.rest, hrest, withReturns_nil]
    intro fuel fuel' raw hfuel hfuel'
    obtain ⟨fuel, rfl⟩ : ∃ rounds, fuel = rounds + 1 := ⟨fuel - 1, by omega⟩
    obtain ⟨fuel', rfl⟩ : ∃ rounds, fuel' = rounds + 1 := ⟨fuel' - 1, by omega⟩
    unfold captureArguments
    apply Follows.getBind
    simp only [hrest, hrest']
    refine .bind (enterNextLine_follows hlines h) ?_
    rintro entered _ m m' hrun hrun' rfl hm
    refine .ite Iff.rfl (fun hentered => ?_) fun _ => .throw _ _
    have hshorter := toCome_of_enterNextLine hrun (by simp [hentered])
    have hshorter' := toCome_of_enterNextLine hrun' (by simp [hentered])
    exact induction _ hshorter hm (room.leadsOn ((enterNextLine_strikes l raw).leadsOn hrun))
      (room'.leadsOn ((enterNextLine_strikes l' raw).leadsOn hrun')) rfl _ _ raw (by omega) (by omega)
  | cons c rest =>
    have hlength := toCome_advance (show 1 ≤ l.rest.length by simp [hrest])
    by_cases hc : c = '\n'
    · subst hc
      have hone := h.oneLine
      rw [hrest] at hone
      rw [hone.eq_nil_of_feed] at hrest
      obtain ⟨hrest', hbehind⟩ := h.pastLineEnd hrest
      have hlast : (l'.advance 1).rest = ['\n'] := by simp [advance, hrest']
      exact .lineEnd h hrest (captureArguments_lineBreak hrest rfl base)
        (captureArguments_lineBreak hrest' rfl base) (captureArguments_lineBreak hlast rfl base)
        (induction _ (by omega) hbehind (room.advance 1) ((room'.advance 1).advance 1) rfl)
    · have hrest' : l'.rest = c :: withReturns rest := by rw [h.rest, hrest, withReturns_cons hc]
      have hlength' := toCome_advance (show 1 ≤ l'.rest.length by simp [hrest'])
      intro fuel fuel' raw hfuel hfuel'
      obtain ⟨fuel, rfl⟩ : ∃ rounds, fuel = rounds + 1 := ⟨fuel - 1, by omega⟩
      obtain ⟨fuel', rfl⟩ : ∃ rounds, fuel' = rounds + 1 := ⟨fuel' - 1, by omega⟩
      unfold captureArguments
      apply Follows.getBind
      simp only [hrest, hrest', h.brackets, BracketStack.moved_depth]
      refine .ite Iff.rfl (fun _ => ?_) fun _ => ?_
      · have hpushed := h.pushCaptured raw
        have hroom : HasRoom (l.pushCaptured raw) := by
          simpa [HasRoom, pushCaptured_toCome] using room
        have hroom' : HasRoom (l'.pushCaptured (raw.returned lines)) := by
          simpa [HasRoom, pushCaptured_toCome] using room'
        have hne : (l.pushCaptured raw).rest ≠ [] := by simp [hrest]
        have hbehind : Twins lines ((l.pushCaptured raw).advance 1)
            ((l'.pushCaptured (raw.returned lines)).advance 1) :=
          hpushed.advance_of_no_feed hne (by simpa [hrest] using Ne.symm hc)
        have hcome : ((l.pushCaptured raw).advance 1).toCome + 1 = l.toCome := by
          rw [← pushCaptured_toCome l raw]
          exact toCome_advance (by simp [hrest])
        have hcome' : ((l'.pushCaptured (raw.returned lines)).advance 1).toCome + 1 = l'.toCome := by
          rw [← pushCaptured_toCome l' (raw.returned lines)]
          exact toCome_advance (by simp [hrest'])
        rw [← Lexer.pushCaptured, ← Lexer.pushCaptured]
        refine .ite Iff.rfl (fun _ => .set { hpushed with lastSignificant := rfl }) fun _ =>
          .setBind ?_
        rw [hpushed.here]
        exact induction _ (by omega) hbehind (hroom.advance 1) (hroom'.advance 1) rfl _ _ _ (by omega)
          (by omega)
      · refine .bind (captureNext_follows hlines h room room' (by simpa [hrest] using hc) raw) ?_
        rintro raw' _ m m' hrun hrun' rfl hm
        have hshorter := toCome_of_captureNext (by simp [hrest]) hrun
        have hshorter' := toCome_of_captureNext (by simp [hrest']) hrun'
        exact induction _ hshorter hm (room.leadsOn ((captureNext_strikes l raw).leadsOn hrun))
          (room'.leadsOn ((captureNext_strikes l' _).leadsOn hrun')) rfl _ _ raw' (by omega)
            (by omega)

theorem captureCommandRest_follows (hlines : ∀ line ∈ lines, OneLine line) (h : Twins lines l l')
    (room : HasRoom l) (room' : HasRoom l') {closer : Char}
    (hcloser : Lexeme.isLineBreak closer = false) (base : Nat) :
    LoopsFollow lines Eq (captureCommandRest closer base) (captureCommandRest closer base) l l' := by
  induction hcome : l.toCome using Nat.strong_induction_on generalizing l l' with
  | h come induction =>
  subst hcome
  cases hrest : l.rest with
  | nil =>
    have hrest' : l'.rest = [] := by rw [h.rest, hrest, withReturns_nil]
    intro fuel fuel' raw hfuel hfuel'
    obtain ⟨fuel, rfl⟩ : ∃ rounds, fuel = rounds + 1 := ⟨fuel - 1, by omega⟩
    obtain ⟨fuel', rfl⟩ : ∃ rounds, fuel' = rounds + 1 := ⟨fuel' - 1, by omega⟩
    unfold captureCommandRest
    apply Follows.getBind
    simp only [hrest, hrest']
    refine .bind (enterNextLine_follows hlines h) ?_
    rintro entered _ m m' hrun hrun' rfl hm
    refine .ite Iff.rfl (fun hentered => ?_) fun _ => .throw _ _
    have hshorter := toCome_of_enterNextLine hrun (by simp [hentered])
    have hshorter' := toCome_of_enterNextLine hrun' (by simp [hentered])
    exact induction _ hshorter hm (room.leadsOn ((enterNextLine_strikes l raw).leadsOn hrun))
      (room'.leadsOn ((enterNextLine_strikes l' raw).leadsOn hrun')) rfl _ _ raw (by omega) (by omega)
  | cons c rest =>
    have hlength := toCome_advance (show 1 ≤ l.rest.length by simp [hrest])
    by_cases hc : c = '\n'
    · subst hc
      have hone := h.oneLine
      rw [hrest] at hone
      rw [hone.eq_nil_of_feed] at hrest
      obtain ⟨hrest', hbehind⟩ := h.pastLineEnd hrest
      have hlast : (l'.advance 1).rest = ['\n'] := by simp [advance, hrest']
      exact .lineEnd h hrest (captureCommandRest_lineBreak hrest rfl hcloser base)
        (captureCommandRest_lineBreak hrest' rfl hcloser base)
        (captureCommandRest_lineBreak hlast rfl hcloser base)
        (induction _ (by omega) hbehind (room.advance 1) ((room'.advance 1).advance 1) rfl)
    · have hrest' : l'.rest = c :: withReturns rest := by rw [h.rest, hrest, withReturns_cons hc]
      have hlength' := toCome_advance (show 1 ≤ l'.rest.length by simp [hrest'])
      intro fuel fuel' raw hfuel hfuel'
      obtain ⟨fuel, rfl⟩ : ∃ rounds, fuel = rounds + 1 := ⟨fuel - 1, by omega⟩
      obtain ⟨fuel', rfl⟩ : ∃ rounds, fuel' = rounds + 1 := ⟨fuel' - 1, by omega⟩
      unfold captureCommandRest
      apply Follows.getBind
      simp only [hrest, hrest', h.brackets, BracketStack.moved_depth]
      refine .ite Iff.rfl (fun _ => ?_) fun _ => ?_
      · have hpushed := h.push (raw.twin_toToken l.lineText)
        rw [← h.lineText] at hpushed
        exact .set { hpushed with lastSignificant := rfl }
      · refine .bind (captureNext_follows hlines h room room' (by simpa [hrest] using hc) raw) ?_
        rintro raw' _ m m' hrun hrun' rfl hm
        have hshorter := toCome_of_captureNext (by simp [hrest]) hrun
        have hshorter' := toCome_of_captureNext (by simp [hrest']) hrun'
        exact induction _ hshorter hm (room.leadsOn ((captureNext_strikes l raw).leadsOn hrun))
          (room'.leadsOn ((captureNext_strikes l' _).leadsOn hrun')) rfl _ _ raw' (by omega)
            (by omega)

theorem captureCall_follows (hlines : ∀ line ∈ lines, OneLine line) (h : Twins lines l l')
    (room : HasRoom l) (room' : HasRoom l') :
    Follows (Twins lines) Eq l l' captureCall captureCall := by
  apply Follows.getBind
  rw [h.brackets, BracketStack.moved_depth, h.here]
  exact captureArguments_follows hlines h room room' _ _ _ (.empty l.here) room room'

theorem captureCommand_follows (hlines : ∀ line ∈ lines, OneLine line) (h : Twins lines l l')
    (room : HasRoom l) (room' : HasRoom l') :
    Follows (Twins lines) Eq l l' captureCommand captureCommand := by
  apply Follows.getBind
  cases hbrackets : l.brackets with
  | nil => exact .throw _ _
  | cons top brackets =>
    have hbrackets' : l'.brackets = top.moved lines :: BracketStack.moved lines brackets := by
      rw [h.brackets, hbrackets]
      rfl
    have hcloser : Lexeme.isLineBreak top.closer = false := by
      rw [Bracket.closer]
      cases top.opener <;> rfl
    have hdepth : BracketStack.depth (top.moved lines :: BracketStack.moved lines brackets) =
        BracketStack.depth (top :: brackets) := BracketStack.moved_depth (top :: brackets)
    rw [hbrackets']
    dsimp only
    rw [hdepth, h.here]
    exact captureCommandRest_follows hlines h room room' hcloser _ _ _ (.empty l.here) room room'

/-! ### Statement bodies -/

theorem Twins.endCapturedLine (h : Twins lines l l') :
    Twins lines l.endCapturedLine l'.endCapturedLine where
  __ := h
  lastSignificant := rfl
  lineTokens := rfl

/-- A raw body as a token. -/
theorem Twins.addBody (h : Twins lines l l') {text text' : List Char} {start start' : Position}
    (hstart : start' = start.moved lines) (htext : Reended false text text') :
    Twins lines (l.addToken .macroParam (String.ofList text) start l.lineEnd)
      (l'.addToken .macroParam (String.ofList text') start' l'.lineEnd) := by
  refine h.addToken (.of_feeds rfl rfl hstart (fun _ => h.lineEnd) h.lineText ?_ (by simp))
  rwa [String.toList_ofList, String.toList_ofList]

theorem gatherLine_follows (hlines : ∀ line ∈ lines, OneLine line) (h : Twins lines l l')
    {fuel fuel' : Nat} (text : List Char) (hfuel : l.toCome < fuel) (hfuel' : l'.toCome < fuel') :
    Follows (Twins lines) (fun text text' => text' = withReturns text) l l' (gatherLine fuel text)
      (gatherLine fuel' (withReturns text)) := by
  induction fuel generalizing fuel' l l' text with
  | zero => omega
  | succ fuel induction =>
    obtain ⟨fuel', rfl⟩ : ∃ rounds, fuel' = rounds + 1 := ⟨fuel' - 1, by omega⟩
    unfold gatherLine
    rw [goesOn_withReturns]
    refine .ite Iff.rfl (fun _ => ?_) fun _ => .pure rfl h
    refine .bind (enterNextLine_follows hlines h) ?_
    rintro entered _ m m' hrun hrun' rfl hm
    refine .ite Iff.rfl (fun _ => .getBind (.throw _ _)) fun hentered => .getBind ?_
    have hshorter := toCome_of_enterNextLine hrun hentered
    have hshorter' := toCome_of_enterNextLine hrun' hentered
    rw [hm.rest, ← withReturns_append]
    exact induction hm _ (by omega) (by omega)

theorem captureLine_follows (hlines : ∀ line ∈ lines, OneLine line) (h : Twins lines l l')
    (room : HasRoom l) (room' : HasRoom l') :
    Follows (Twins lines) Eq l l' captureLine captureLine := by
  apply Follows.getBind
  rw [h.rest]
  refine .bind (gatherLine_follows hlines h l.rest room room') ?_
  rintro text _ m m' _ _ rfl hm
  exact .modify (hm.addBody h.here (.withReturns text)).skipLine.endCapturedLine

theorem gatherBlock_sourceEnd (hunread : l.unread = []) (indent fuel : Nat) (text : List Char)
    (first : Option Nat) : gatherBlock indent (fuel + 1) text first l = .ok (text, first) l := by
  simp only [gatherBlock, takeLine, run_bind, run_get, hunread]
  rfl

theorem gatherBlock_line {line : List Char} {unread : Source}
    (hunread : l.unread = .text line :: unread) (indent fuel : Nat) (text : List Char)
    (first : Option Nat) :
    gatherBlock indent (fuel + 1) text first l =
      if Lexeme.isIdleLine line then
        gatherBlock indent fuel (if first.isSome then text ++ line else text) first
          (l.nextLine line unread)
      else if Lexeme.indentWidth l.tabSize line ≤ indent then .ok (text, first) (l.measure line)
      else
        gatherBlock indent fuel (text ++ line) (some (first.getD (l.lineNumber + 1)))
          ((l.measure line).nextLine line unread) := by
  have htake : takeLine l = .ok (some line) { l with unread } := by
    simp only [takeLine, run_bind, run_get, hunread]
    rfl
  have hleft : ({ l with unread := .text line :: unread } : Lexer).measure line = l.measure line := by
    rw [← hunread]
  simp only [gatherBlock, run_bind, htake, run_get]
  split
  · rfl
  · split
    · exact congrArg _ hleft
    · rfl

theorem gatherBlock_follows (hlines : ∀ line ∈ lines, OneLine line) (h : Twins lines l l')
    {indent fuel fuel' : Nat} (text : List Char) (first : Option Nat) (hfuel : l.toCome < fuel)
    (hfuel' : l'.toCome < fuel') :
    Follows (Twins lines) (fun found found' => found' = (withReturns found.1, found.2)) l l'
      (gatherBlock indent fuel text first) (gatherBlock indent fuel' (withReturns text) first) := by
  induction fuel generalizing fuel' l l' text first with
  | zero => omega
  | succ fuel induction =>
    obtain ⟨fuel', rfl⟩ : ∃ rounds, fuel' = rounds + 1 := ⟨fuel' - 1, by omega⟩
    intro found m hrun
    obtain ⟨_, hunread, hunread'⟩ | ⟨line, more, hdrop, hunread, hunread'⟩ := h.ahead
    · rw [gatherBlock_sourceEnd hunread] at hrun
      cases hrun
      exact ⟨_, _, gatherBlock_sourceEnd hunread' _ _ _ _, rfl, h⟩
    · have hmem : line ∈ lines := List.drop_subset _ _ (by rw [hdrop]; exact List.mem_cons_self)
      have hone := hlines line hmem
      have hshorter := toCome_nextLine_lt hunread
      have hshorter' := toCome_nextLine_lt hunread'
      rw [gatherBlock_line hunread] at hrun
      rw [gatherBlock_line hunread', Lexeme.isIdleLine_withReturns, Lexeme.indentWidth_withReturns,
        h.tabSize, h.lineNumber]
      split
      case isTrue hidle =>
        rw [if_pos hidle] at hrun
        have hbehind := h.nextLine hone hdrop
        have htext :
            (if first.isSome then withReturns text ++ withReturns line else withReturns text) =
            withReturns (if first.isSome then text ++ line else text) := by
          rw [← withReturns_append, ← apply_ite]
        rw [htext]
        exact induction hbehind _ first (by omega) (by omega) found m hrun
      case isFalse hidle =>
        rw [if_neg hidle] at hrun
        split
        case isTrue hshallow =>
          rw [if_pos hshallow] at hrun
          cases hrun
          exact ⟨_, _, rfl, rfl, h.measure _ _⟩
        case isFalse hshallow =>
          rw [if_neg hshallow] at hrun
          have hbehind := (h.measure line (withReturns line)).nextLine hone hdrop
          rw [← withReturns_append]
          exact induction hbehind _ _ (Nat.lt_of_lt_of_le hshorter (by omega))
            (Nat.lt_of_lt_of_le hshorter' (by omega)) found m hrun

theorem captureBlock_follows (hlines : ∀ line ∈ lines, OneLine line) (h : Twins lines l l')
    (room : HasRoom l) (room' : HasRoom l') :
    Follows (Twins lines) Eq l l' captureBlock captureBlock := by
  refine .bind (.modify h.skipLine) ?_
  rintro ⟨⟩ ⟨⟩ m m' hskip hskip' _ hm
  rw [modify_ok] at hskip hskip'
  subst hskip hskip'
  apply Follows.getBind
  have hindent : l'.skipLine.indent = l.skipLine.indent := by
    rw [indent, hm.indents, indent]
  rw [hindent]
  refine .bind (gatherBlock_follows hlines hm [] none (room.advance _) (room'.advance _)) ?_
  rintro ⟨text, first⟩ _ n n' _ _ rfl hn
  cases first with
  | none => exact .getBind (.throw _ _)
  | some first =>
    have hplace : (⟨first, 0⟩ : Position) = (⟨first, 0⟩ : Position).moved lines := rfl
    have hbody := hn.addBody hplace (dedent_reended text)
    exact .modify (Twins.endCapturedLine
      { hbody with
        rest := rfl
        stands := fun hne => absurd rfl hne
        here := congrArg (Position.mk · 0) hbody.lineNumber })

theorem captureBody_follows (hlines : ∀ line ∈ lines, OneLine line) (h : Twins lines l l')
    (room : HasRoom l) (room' : HasRoom l') :
    Follows (Twins lines) Eq l l' captureBody captureBody := by
  apply Follows.getBind
  rw [h.rest, Lexeme.isIdleLine_withReturns]
  exact .ite Iff.rfl (fun _ => captureBlock_follows hlines h room room') fun _ =>
    captureLine_follows hlines h room room'

/-! ### Literals -/

theorem startString_follows (h : Twins lines l l') (hrest : l.rest ≠ []) {letters : List Char}
    {quote : Quote} (hopening : StringLetters.opening? l.rest = some (letters, quote)) :
    Follows (Twins lines) Eq l l' (startString letters quote) (startString letters quote) := by
  have hquote := Quote.printed_of_opening? (StringLetters.quote_of_opening? hopening).2
  have hfeed := StringLetters.feed_not_mem_opening hopening
  have hshort := stopsShort_of_take hfeed
  apply Follows.getBind
  dsimp only
  refine .ite Iff.rfl (fun _ => ?_) fun hplain => ?_
  · have htaken := h.take hrest .fstringStart hshort
    have hpushed := htaken.pushMode
      (.fstringText quote "" (l.take .fstringStart (letters.length + quote.size)).here) hquote
    rw [LexMode.returned, ← htaken.here] at hpushed
    exact .set hpushed
  · rw [h.rest, (take_withReturns hfeed).2,
      Quote.closingEnd?_withReturns hquote (h.oneLine.drop _),
      Lexeme.isContinued_withReturns h.oneLine]
    cases hend : quote.closingEnd? (l.rest.drop (letters.length + quote.size)) with
    | some length =>
      have plain : Plain l .string (letters.length + quote.size + length) :=
        .string hopening (by simpa using hplain) hend
      exact .set (h.take hrest .string (plain.stopsShort (by decide) (by decide)))
    | none =>
      refine .ite Iff.rfl (fun _ => ?_) fun _ => .throw _ _
      have hpushed := h.skipLine.pushMode
        (.string quote (String.ofList l.rest) l.here l.lineText) hquote
      rw [LexMode.returned, ← h.here, ← h.lineText, returned_ofList] at hpushed
      exact .set hpushed

theorem resumeString_follows (h : Twins lines l l') (hrest : l.rest ≠ []) {quote : Quote}
    (hquote : quote.Printed) (text : String) (start : Position) (line : String) {outer : List LexMode}
    (houter : ∀ mode ∈ outer, mode.Printed) :
    Follows (Twins lines) Eq l l' (resumeString quote text start line outer)
      (resumeString quote (returned text) (start.moved lines) (returned line)
        (outer.map (.returned lines))) := by
  apply Follows.getBind
  dsimp only
  rw [h.rest, Quote.closingEnd?_withReturns hquote h.oneLine,
    Lexeme.isContinued_withReturns h.oneLine]
  cases hend : quote.closingEnd? l.rest with
  | some length =>
    have hshort : l.StopsShort length :=
      stopsShort_of_getElem? (Quote.closingEnd?_last hend) hquote.1
    have hfeed := h.oneLine.feed_not_mem_of_short hshort
    have hbehind := h.advance_of_no_feed hrest hfeed
    have hleft : Twins lines
        { l.advance length with modes := outer, lastSignificant := some .string }
        { l'.advance length with
          modes := outer.map (.returned lines), lastSignificant := some .string } :=
      { hbehind with modes := rfl, printed := houter, lastSignificant := rfl }
    have htext : returned text ++ String.ofList ((withReturns l.rest).take length) =
        returned (text ++ String.ofList (l.rest.take length)) := by
      rw [(take_withReturns hfeed).1, returned_append, returned_ofList, withReturns_of_no_feed hfeed]
    dsimp only
    rw [htext]
    refine .set (hleft.push (.of_feeds rfl rfl rfl (fun _ => hbehind.here) rfl ?_ fun _ => rfl))
    rw [toList_returned]
    exact .withReturns _
  | none =>
    refine .ite Iff.rfl (fun _ => ?_) fun _ => .throw _ _
    rw [← returned_ofList, ← returned_append]
    exact .set { h.skipLine with modes := rfl, printed := List.forall_mem_cons.mpr ⟨hquote, houter⟩ }

theorem size_le_of_scanText {quote : Quote} {text : List Char} {count : Nat}
    (hscan : scanText quote 0 text = .quote count) : count < text.length := by
  have hsize := size_le_of_closes (scanText_quote hscan).2
  have hpositive := quote.size_pos
  rw [List.length_drop] at hsize
  omega

theorem resumeText_follows (h : Twins lines l l') (hrest : l.rest ≠ []) {quote : Quote}
    (hquote : quote.Printed) (text : String) (start : Position) {outer : List LexMode}
    (houter : ∀ mode ∈ outer, mode.Printed) :
    Follows (Twins lines) Eq l l' (resumeText quote text start outer)
      (resumeText quote (returned text) (start.moved lines) (outer.map (.returned lines))) := by
  apply Follows.getBind
  dsimp only
  rw [returned_isEmpty, h.here, ← apply_ite (Position.moved lines)]
  generalize (if text.isEmpty then l.here else start) = start
  have hprinted : ∀ mode ∈ LexMode.fstringText quote text start :: outer, mode.Printed :=
    List.forall_mem_cons.mpr ⟨hquote, houter⟩
  have hleft : Twins lines { l with modes := .fstringText quote text start :: outer }
      { l' with
        modes := .fstringText quote (returned text) (start.moved lines) ::
          outer.map (.returned lines) } :=
    { h with modes := rfl, printed := hprinted }
  generalize hm : ({ l with modes := .fstringText quote text start :: outer } : Lexer) = m
    at hleft ⊢
  have hmodes : m.modes = .fstringText quote text start :: outer := by rw [← hm]
  have hne : m.rest ≠ [] := by rwa [← hm]
  refine .setBind (.getBind ?_)
  generalize ({ l' with modes := _ } : Lexer) = m' at hleft ⊢
  rw [hleft.rest, scanText_withReturns hquote hleft.oneLine]
  cases hscan : scanText quote 0 m.rest with
  | lineEnd =>
    refine .set { hleft.skipLine with modes := ?_, printed := ?_ }
    · rw [hleft.modes, hmodes]
      simp only [addText, List.map_cons, LexMode.returned, returned_append, returned_ofList]
    · rw [hmodes]
      exact List.forall_mem_cons.mpr ⟨hquote, houter⟩
  | quote count =>
    have hfeed := hleft.oneLine.feed_not_mem_take (size_le_of_scanText hscan)
    have hflushed := hleft.flushText hne hfeed
    have hcloses : quote.closes (m.flushText count).rest = true := by
      rw [flushText_rest]
      exact (scanText_quote hscan).2
    have hnext : (m.flushText count).rest ≠ [] :=
      List.ne_nil_of_length_pos (Nat.lt_of_lt_of_le quote.size_pos (size_le_of_closes hcloses))
    have hends := hflushed.take hnext .fstringEnd
      (stopsShort_of_take (Quote.feed_not_mem_of_closes hquote hcloses))
    exact .set { hends with modes := rfl, printed := houter }
  | field count => exact .set (hleft.openField (scanText_field hscan).2)
  | lineBreak count => exact .throw _ _

theorem resumeSpec_follows (h : Twins lines l l') (hrest : l.rest ≠ []) (text : String)
    (start : Position) {outer : List LexMode} (houter : ∀ mode ∈ outer, mode.Printed) :
    Follows (Twins lines) Eq l l' (resumeSpec text start outer)
      (resumeSpec (returned text) (start.moved lines) (outer.map (.returned lines))) := by
  apply Follows.getBind
  dsimp only
  rw [returned_isEmpty, h.here, ← apply_ite (Position.moved lines)]
  generalize (if text.isEmpty then l.here else start) = start
  have hleft : Twins lines { l with modes := .fstringSpec text start :: outer }
      { l' with
        modes := .fstringSpec (returned text) (start.moved lines) :: outer.map (.returned lines) } :=
    { h with modes := rfl, printed := List.forall_mem_cons.mpr ⟨trivial, houter⟩ }
  generalize hm : ({ l with modes := .fstringSpec text start :: outer } : Lexer) = m at hleft ⊢
  have hne : m.rest ≠ [] := by rwa [← hm]
  refine .setBind (.getBind ?_)
  generalize ({ l' with modes := _ } : Lexer) = m' at hleft ⊢
  rw [hleft.rest, scanSpec_withReturns hleft.oneLine]
  cases hscan : scanSpec 0 m.rest with
  | field count => exact .set (hleft.openField (scanSpec_field hscan).2)
  | close count =>
    have hbrace : (m.flushText count).rest.head? = some '\x7d' := by
      rw [flushText_rest]
      exact (scanSpec_close hscan).2
    have hlength : count < m.rest.length := by
      rw [flushText_rest] at hbrace
      by_contra hle
      rw [List.drop_of_length_le (Nat.le_of_not_lt hle)] at hbrace
      cases hbrace
    refine .setBind (.bind (closeBracket_follows (hleft.flushText hne
      (hleft.oneLine.feed_not_mem_take hlength)) _) ?_)
    rintro ⟨⟩ ⟨⟩ n n' hclose _ _ hn
    obtain ⟨_, _, _, _, rfl⟩ := closeBracket_ok.mp hclose
    refine .modify ?_
    have hrest : (m.flushText count).rest ≠ [] := by
      intro hnil
      rw [hnil] at hbrace
      cases hbrace
    have hshort : (m.flushText count).StopsShort 1 := by
      rw [List.head?_eq_getElem?] at hbrace
      exact stopsShort_of_getElem? hbrace (by decide)
    have hends := hn.take hrest .op hshort
    exact { hends with
      modes := by rw [hn.modes, List.map_drop]
      printed := fun mode hmode => hn.printed mode (List.drop_subset _ _ hmode) }
  | broken count => exact .throw _ _

theorem scanSearch_follows (h : Twins lines l l') (hrest : l.rest ≠ []) {opening : Nat}
    (hopening : Lexeme.searchOpening? l.rest = some opening) :
    Follows (Twins lines) Eq l l' (scanSearch opening) (scanSearch opening) := by
  have hshort : l.StopsShort opening :=
    stopsShort_of_getElem? (Lexeme.searchOpening?_last hopening) (by decide)
  have hfeed := h.oneLine.feed_not_mem_of_short hshort
  apply Follows.getBind
  rw [h.rest, (take_withReturns hfeed).2, Lexeme.searchEnd?_withReturns (h.oneLine.drop _)]
  cases hend : Lexeme.searchEnd? (l.rest.drop opening) with
  | some length =>
    have plain : Plain l .pathSearch (opening + length) := .pathSearch hopening hend
    exact .set (h.take hrest .pathSearch (plain.stopsShort (by decide) (by decide)))
  | none => exact .throw _ _

end Lexer

end ShellSyntax
