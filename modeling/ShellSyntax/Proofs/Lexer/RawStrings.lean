import ShellSyntax.Proofs.Lexer.Quotations

/-!
String literals in raw text. The capture of one, character by character, is the reading of a
quotation that goes on over the end of a line in triple quotes only.
-/

namespace ShellSyntax

namespace Lexer

open Outcome

variable {l m : Lexer} {quote : Quote} {start : Position} {e : LexError} {fuel : Nat}
  {raw : RawText}

theorem captureQuoted_escape {rest : List Char} {count : Nat} (hrest : l.rest = '\\' :: rest)
    (hcount : min 2 l.rest.length = count) :
    captureQuoted quote start (fuel + 1) raw l =
      captureQuoted quote start fuel (raw.pushAll l.here l.lineText (l.rest.take 2))
        (l.advance count) := by
  subst hcount
  rw [captureQuoted, run_bind, run_get]
  simp only [hrest, beq_self_eq_true, if_true, run_bind, captureChars_eq]

theorem captureQuoted_close {c : Char} {rest : List Char} (hrest : l.rest = c :: rest)
    (hescape : c ≠ '\\') (hcloses : quote.closes l.rest = true) :
    ∃ raw', captureQuoted quote start (fuel + 1) raw l = .ok raw' (l.advance quote.size) := by
  rw [captureQuoted, run_bind, run_get]
  simp only [hrest, beq_iff_eq, hescape, if_false]
  rw [← hrest, hcloses, if_pos rfl, captureChars_eq, Nat.min_eq_left (size_le_of_closes hcloses)]
  exact ⟨_, rfl⟩

theorem captureQuoted_char {c : Char} {rest : List Char} (hrest : l.rest = c :: rest)
    (hescape : c ≠ '\\') (hcloses : quote.closes l.rest = false)
    (hline : (!quote.triple && Lexeme.isLineBreak c) = false) :
    captureQuoted quote start (fuel + 1) raw l =
      captureQuoted quote start fuel (raw.push c l.here l.lineText) (l.advance 1) := by
  rw [captureQuoted, run_bind, run_get]
  rw [hrest] at hcloses
  simp only [hrest, beq_iff_eq, hescape, if_false, hcloses, Bool.false_eq_true, hline, run_bind,
    captureChar_eq hrest]

theorem captureQuoted_break {c : Char} {rest : List Char} (hrest : l.rest = c :: rest)
    (hescape : c ≠ '\\') (hcloses : quote.closes l.rest = false)
    (hline : (!quote.triple && Lexeme.isLineBreak c) = true) :
    captureQuoted quote start (fuel + 1) raw l = .error (.unterminatedString start) l := by
  rw [captureQuoted, run_bind, run_get]
  rw [hrest] at hcloses
  simp only [hrest, beq_iff_eq, hescape, if_false, hcloses, Bool.false_eq_true, hline, if_true,
    run_throw]

theorem captureQuoted_end (hrest : l.rest = []) :
    captureQuoted quote start (fuel + 1) raw l =
      if quote.triple then
        match l.unread with
        | [] => .error (.unterminatedString start) l
        | .undecodable :: unread => .error .undecodable { l with unread }
        | .text line :: unread => captureQuoted quote start fuel raw (l.nextLine line unread)
      else .error (.unterminatedString start) l := by
  rw [captureQuoted, run_bind, run_get]
  cases htriple : quote.triple with
  | false => simp [hrest, run_bind, run_throw]
  | true =>
    obtain ⟨hunread, htake⟩ | ⟨line, unread, hunread, htake⟩ | ⟨unread, hunread, htake⟩ :=
      takeLine_cases l
    · simp [hrest, hunread, run_bind, enterNextLine, htake, run_pure, run_throw]
    · have hnext : enterNextLine l = .ok true (l.nextLine line unread) := by
        rw [enterNextLine, run_bind, htake]
        rfl
      simp [hrest, hunread, run_bind, hnext]
    · simp [hrest, hunread, run_bind, enterNextLine, htake]

theorem skipLine_rest (l : Lexer) : l.skipLine.rest = [] :=
  List.drop_length

theorem skipLine_advance (l : Lexer) {count : Nat} (hcount : count ≤ l.rest.length) :
    (l.advance count).skipLine = l.skipLine := by
  rw [skipLine, advance_advance]
  have hrest : (l.advance count).rest.length = l.rest.length - count := List.length_drop
  rw [hrest, Nat.sub_add_cancel hcount]
  rfl

def CapturesLine (quote : Quote) (start : Position) (fuel : Nat) (raw : RawText) (l : Lexer) :
    Prop :=
  match quote.closingEnd? l.rest with
  | some length => ∃ raw', captureQuoted quote start fuel raw l = .ok raw' (l.advance length)
  | none =>
    if quote.triple then
      ∃ raw' more, fuel ≤ more + l.rest.length ∧
        captureQuoted quote start fuel raw l = captureQuoted quote start more raw' l.skipLine
    else ∃ m, captureQuoted quote start fuel raw l = .error (.unterminatedString start) m

theorem CapturesLine.step {raw' : RawText} {count : Nat} (hpositive : 0 < count)
    (hcount : count ≤ l.rest.length)
    (hend : quote.closingEnd? l.rest = (quote.closingEnd? (l.advance count).rest).map (· + count))
    (hrun : captureQuoted quote start (fuel + 1) raw l =
      captureQuoted quote start fuel raw' (l.advance count))
    (captures : CapturesLine quote start fuel raw' (l.advance count)) :
    CapturesLine quote start (fuel + 1) raw l := by
  rw [CapturesLine] at captures ⊢
  rw [hend, hrun]
  cases hfurther : quote.closingEnd? (l.advance count).rest with
  | some length =>
    simp only [hfurther] at captures
    rwa [advance_advance] at captures
  | none =>
    simp only [hfurther, skipLine_advance l hcount] at captures
    simp only [Option.map_none]
    have hlength : (l.advance count).rest.length = l.rest.length - count := List.length_drop
    split at captures
    case isTrue htriple =>
      obtain ⟨raw', more, hfuel, hsame⟩ := captures
      rw [if_pos htriple]
      exact ⟨raw', more, by omega, hsame⟩
    case isFalse htriple => rwa [if_neg htriple]

theorem capturesLine_nil (hrest : l.rest = []) : CapturesLine quote start (fuel + 1) raw l := by
  rw [CapturesLine, hrest, Quote.closingEnd?]
  dsimp only
  split
  case isTrue =>
    refine ⟨raw, fuel + 1, by simp, ?_⟩
    rw [skipLine, hrest]
    rfl
  case isFalse htriple =>
    rw [captureQuoted_end hrest, if_neg htriple]
    exact ⟨l, rfl⟩

theorem capturesLine (hfuel : l.rest.length < fuel) : CapturesLine quote start fuel raw l := by
  generalize hline : l.rest = line at hfuel
  obtain ⟨fuel, rfl⟩ := Nat.exists_eq_succ_of_ne_zero (Nat.ne_zero_of_lt hfuel)
  -- the capture looks at the same characters as the search for the closing quote
  induction line using Quote.closingEnd?.induct (q := quote) generalizing l raw fuel with
  | case1 => exact capturesLine_nil hline
  | case2 =>
    obtain ⟨fuel, rfl⟩ : ∃ more, fuel = more + 1 := Nat.exists_eq_succ_of_ne_zero (by
      simp only [List.length_singleton] at hfuel
      omega)
    have hrest : (l.advance 1).rest = [] := by simp [advance, hline]
    refine .step Nat.one_pos (by simp [hline]) ?_ (captureQuoted_escape hline (by simp [hline]))
      (capturesLine_nil hrest)
    rw [hrest, hline, Quote.closingEnd?, Quote.closingEnd?]
    rfl
  | case3 c rest induction =>
    obtain ⟨fuel, rfl⟩ : ∃ more, fuel = more + 1 := Nat.exists_eq_succ_of_ne_zero (by
      simp only [List.length_cons] at hfuel
      omega)
    have hrest : (l.advance 2).rest = rest := by simp [advance, hline]
    refine .step Nat.two_pos (by simp [hline]) ?_ (captureQuoted_escape hline (by simp [hline]))
      (induction hrest fuel ?_)
    · rw [hrest, hline, Quote.closingEnd?]
    · simp only [List.length_cons] at hfuel
      omega
  | case4 c rest hone htwo hcloses =>
    have hescape := Quote.ne_backslash hone htwo
    rw [CapturesLine, hline, Quote.closingEnd?, if_pos hcloses]
    · exact captureQuoted_close hline hescape (hline ▸ hcloses)
    · exact hone
    · exact htwo
  | case5 c rest hone htwo hcloses hbreak =>
    have hescape := Quote.ne_backslash hone htwo
    rw [Bool.not_eq_true] at hcloses
    have hplain : ¬ quote.triple = true := by
      intro htriple
      simp [htriple] at hbreak
    rw [CapturesLine, hline, Quote.closingEnd?, hcloses, if_pos hbreak]
    · simp only [Bool.false_eq_true, if_false, if_neg hplain]
      exact ⟨l, captureQuoted_break hline hescape (hline ▸ hcloses) hbreak⟩
    · exact hone
    · exact htwo
  | case6 c rest hone htwo hcloses hbreak induction =>
    have hescape := Quote.ne_backslash hone htwo
    obtain ⟨fuel, rfl⟩ : ∃ more, fuel = more + 1 := Nat.exists_eq_succ_of_ne_zero (by
      simp only [List.length_cons] at hfuel
      omega)
    rw [Bool.not_eq_true] at hcloses hbreak
    have hrest : (l.advance 1).rest = rest := by simp [advance, hline]
    refine .step Nat.one_pos (by simp [hline]) ?_
      (captureQuoted_char hline hescape (hline ▸ hcloses) hbreak) (induction hrest fuel ?_)
    · rw [hrest, hline, Quote.closingEnd?, hcloses, hbreak]
      · rfl
      · exact hone
      · exact htwo
    · simp only [List.length_cons] at hfuel
      omega

/-- A run of a capture that ends where a quotation that starts at `place` does, or fails with it. -/
def EndsLike (run : EStateM.Result LexError Lexer RawText) (place : Position) :
    Except LexError Quotation → Prop
  | .ok q => ∃ raw m, run = .ok raw m ∧ m.rest = q.rest ∧ m.unread = q.unread ∧
      m.here = q.stop place
  | .error e => ∃ m, run = .error e m

theorem captureQuoted_line {below : Except LexError Quotation} {place : Position}
    (hfuel : l.toCome < fuel) (hplace : l.here = place)
    (hbelow : quote.triple = true → ∀ raw' more, l.skipLine.toCome < more →
      EndsLike (captureQuoted quote start more raw' l.skipLine) ⟨l.lineNumber + 1, 0⟩ below) :
    EndsLike (captureQuoted quote start fuel raw l) place
      (readLine quote (fun _ => quote.triple) start l.rest l.unread below) := by
  have hrest : l.rest.length ≤ l.toCome := Nat.le_add_right _ _
  have captures : CapturesLine quote start fuel raw l :=
    capturesLine (Nat.lt_of_le_of_lt hrest hfuel)
  rw [CapturesLine] at captures
  rw [readLine]
  cases hend : quote.closingEnd? l.rest with
  | some length =>
    simp only [hend] at captures
    obtain ⟨raw', hrun⟩ := captures
    refine ⟨raw', _, hrun, rfl, rfl, ?_⟩
    rw [← hplace]
    rfl
  | none =>
    simp only [hend] at captures
    split at captures
    case isFalse htriple =>
      simp only [if_neg htriple]
      exact captures
    case isTrue htriple =>
      obtain ⟨raw', more, hmore, hrun⟩ := captures
      have hcome : l.skipLine.toCome + l.rest.length = l.toCome := by
        simp only [toCome, skipLine, advance, List.drop_length, List.length_nil]
        omega
      have further := hbelow htriple raw' more (by omega)
      simp only [if_pos htriple]
      rw [hrun]
      cases below with
      | error e => exact further
      | ok q =>
        obtain ⟨raw'', m, hrun', hrest', hunread', hhere⟩ := further
        refine ⟨raw'', m, hrun', hrest', hunread', ?_⟩
        rw [hhere, Quotation.stop_behind, ← hplace]
        rfl

theorem captureQuoted_below (hrest : l.rest = []) (htriple : quote.triple = true)
    (hfuel : l.toCome < fuel) :
    EndsLike (captureQuoted quote start fuel raw l) ⟨l.lineNumber + 1, 0⟩
      (readBelow quote (fun _ => quote.triple) start l.unread) := by
  generalize hunread : l.unread = unread
  induction unread generalizing l raw fuel with
  | nil =>
    obtain ⟨fuel, rfl⟩ := Nat.exists_eq_succ_of_ne_zero (Nat.ne_zero_of_lt hfuel)
    refine ⟨l, ?_⟩
    rw [captureQuoted_end hrest, if_pos htriple, hunread]
  | cons next unread induction =>
    obtain ⟨fuel, rfl⟩ := Nat.exists_eq_succ_of_ne_zero (Nat.ne_zero_of_lt hfuel)
    rw [captureQuoted_end hrest, if_pos htriple, hunread]
    cases next with
    | undecodable => exact ⟨_, rfl⟩
    | text line =>
      have hshorter := toCome_nextLine hrest hunread
      refine captureQuoted_line (l := l.nextLine line unread) (by omega) rfl ?_
      intro _ raw' more hmore
      exact induction (skipLine_rest (l.nextLine line unread)) hmore rfl

theorem captureString_reads (raw : RawText) {first body : List Char} (hroom : l.toCome < l.bound)
    (hopening : Quote.opening? l.rest = some quote) (hsplit : l.rest = first ++ body)
    (hfirst : first.length = quote.size) :
    EndsLike (captureString quote raw l) ⟨l.lineNumber, l.column + first.length⟩
      (readQuotation quote (fun _ => quote.triple) l.here body l.unread) := by
  have hsize := size_le_of_closes (closes_of_opening hopening)
  have hbody : (l.advance quote.size).rest = body := by
    rw [← hfirst, advance, hsplit, List.drop_left]
  rw [captureString, run_bind, run_get]
  simp only [run_bind, captureChars_eq, Nat.min_eq_left hsize]
  rw [readQuotation, ← hbody]
  refine captureQuoted_line (l := l.advance quote.size) ?_ ?_ ?_
  · exact Nat.lt_of_le_of_lt (readsOn_advance l quote.size).toCome hroom
  · rw [hfirst]
    rfl
  · intro htriple raw' more hmore
    exact captureQuoted_below (skipLine_rest _) htriple hmore

/-! ### Both readings -/

theorem plainGoesOn_of_triple (htriple : quote.triple = true) :
    plainGoesOn quote = fun _ => quote.triple := by
  funext line
  rw [plainGoesOn, htriple, Bool.true_or]

/-- Without triple quotes a quotation that may not go on over lines ends on its line or nowhere. -/
theorem readQuotation_of_plain {line : List Char} {unread : Source}
    (htriple : quote.triple = false) :
    readQuotation quote (fun _ => quote.triple) start line unread =
      match quote.closingEnd? line with
      | some length => .ok ⟨line.take length, 0, length, line.drop length, unread⟩
      | none => .error (.unterminatedString start) := by
  cases hend : quote.closingEnd? line with
  | some length => simp only [readQuotation, readLine, hend]
  | none => simp only [readQuotation, readLine, hend, htriple, Bool.false_eq_true, if_false]

/-- The capture of a quotation ends where its token does, unless the token goes on over lines
without triple quotes. -/
theorem readings_agree {line : List Char} {unread : Source} {q : Quotation}
    (hread : readQuotation quote (plainGoesOn quote) start line unread = .ok q) :
    readQuotation quote (fun _ => quote.triple) start line unread =
      if quote.triple = true ∨ q.lines = 0 then .ok q else .error (.unterminatedString start) := by
  cases htriple : quote.triple with
  | true => rw [← htriple, ← plainGoesOn_of_triple htriple, hread, htriple, if_pos (.inl rfl)]
  | false =>
    rw [← htriple, readQuotation_of_plain htriple]
    obtain ⟨length, hend, rfl⟩ | ⟨hend, _, further, _, rfl⟩ := readLine_ok hread
    · rw [hend, if_pos (.inr rfl)]
    · rw [hend, if_neg (by simp [htriple, Quotation.behind])]

theorem readings_fail {line : List Char} {unread : Source}
    (hread : readQuotation quote (plainGoesOn quote) start line unread = .error e) :
    readQuotation quote (fun _ => quote.triple) start line unread =
      .error (if quote.triple then e else .unterminatedString start) := by
  cases htriple : quote.triple with
  | true => rw [← htriple, ← plainGoesOn_of_triple htriple, hread, htriple, if_pos rfl]
  | false => rw [← htriple, readQuotation_of_plain htriple, (readLine_error hread).1, htriple]; rfl

/-- Two lexers stand at the same place of the same source. -/
structure SameCursor (l m : Lexer) : Prop where
  rest : m.rest = l.rest
  unread : m.unread = l.unread
  here : m.here = l.here

/-- Where the lexer `l` hands out a string literal without letters, a lexer `m` that captures raw
text there ends the literal at the same place if its quotes are triple or it is on one line, and
otherwise finds no end. Where `l` finds no end, neither does `m`. -/
theorem raw_strings_end_alike (raw : RawText) (hopening : Quote.opening? l.rest = some quote)
    (houtside : l.Outside) (hpending : l.pending = []) (hworks : l.finished = false)
    (hroom : l.toCome < l.bound) (hroom' : m.toCome < m.bound) (hlines : .text [] ∉ l.unread)
    (hsame : SameCursor l m) :
    (∀ token l', pull l = .ok token l' →
      token.kind = .string ∧ token.start = l.here ∧ token.stop = l'.here ∧
        if quote.triple = true ∨ token.stop.line = token.start.line then
          ∃ raw' m', captureString quote raw m = .ok raw' m' ∧ SameCursor l' m'
        else ∃ m', captureString quote raw m = .error (.unterminatedString token.start) m') ∧
    ∀ e l', pull l = .error e l' →
      (e = .unterminatedString l.here ∨ e = .undecodable) ∧
        ∃ m', captureString quote raw m =
          .error (if quote.triple then e else .unterminatedString l.here) m' := by
  have hsize := size_le_of_closes (closes_of_opening hopening)
  have hsplit := (List.take_append_drop quote.size l.rest).symm
  have hfirst : (l.rest.take quote.size).length = quote.size := List.length_take_of_le hsize
  have hplace : (⟨m.lineNumber, m.column + (l.rest.take quote.size).length⟩ : Position) =
      ⟨l.lineNumber, l.column + (l.rest.take quote.size).length⟩ := by
    obtain ⟨hline, hcolumn⟩ := Position.mk.inj hsame.here
    rw [hline, hcolumn]
  have pulls := pull_string houtside hpending hworks hroom hlines
    (StringLetters.opening?_of_quote hopening) (by decide) hsplit (by simpa using hfirst)
  have captures := captureString_reads raw hroom' (hsame.rest ▸ hopening)
    (hsame.rest.trans hsplit) hfirst
  rw [hsame.here, hsame.unread, hplace] at captures
  cases hread :
      readQuotation quote (plainGoesOn quote) l.here (l.rest.drop quote.size) l.unread with
  | ok q =>
    rw [hread] at pulls
    rw [readings_agree hread] at captures
    obtain ⟨l₁, hrest, hunread, hhere, hpull⟩ := pulls
    rw [hpull]
    refine ⟨fun token l' hok => ?_, fun e l' herror => (by cases herror)⟩
    cases hok
    refine ⟨rfl, rfl, rfl, ?_⟩
    have hlast : l₁.here.line = l.here.line ↔ q.lines = 0 := by
      rw [hhere]
      exact Nat.add_eq_left
    split
    case isTrue hone =>
      rw [if_pos (hone.imp_right hlast.mp)] at captures
      obtain ⟨raw', m', hcapture, hrest', hunread', hhere'⟩ := captures
      exact ⟨raw', m', hcapture, hrest'.trans hrest.symm, hunread'.trans hunread.symm,
        hhere'.trans hhere.symm⟩
    case isFalse hmore =>
      rw [if_neg fun hone => hmore (hone.imp_right hlast.mpr)] at captures
      exact captures
  | error e =>
    rw [hread] at pulls
    rw [readings_fail hread] at captures
    obtain ⟨l₁, hpull⟩ := pulls
    rw [hpull]
    refine ⟨fun token l' hok => (by cases hok), fun e' l' herror => ?_⟩
    cases herror
    exact ⟨readQuotation_error hread, captures⟩

/-- A string in triple quotes on two lines, in ordinary text and in the arguments of a macro call.
-/
theorem raw_strings_end_alike_triple :
    ∃ l m token l' raw' m', l = final (goToNextLine (.ofSource (.ofString "'''a\nb'''\n") 8)) ∧
      m = l.pushBracket ⟨.bangParen, .raw, l.here⟩ ∧ pull l = .ok token l' ∧ token.stop = ⟨2, 4⟩ ∧
      captureString ⟨'\'', true⟩ (.empty m.here) m = .ok raw' m' ∧ SameCursor l' m' := by
  generalize hl : final (goToNextLine (.ofSource (.ofString "'''a\nb'''\n") 8)) = l
  have hpull := eq_ok_of_value? (pull l)
    (a := ⟨.string, "'''a\nb'''", ⟨1, 0⟩, ⟨2, 4⟩, "'''a\n"⟩) (by rw [← hl]; decide +kernel)
  have alike := raw_strings_end_alike (l := l) (m := l.pushBracket ⟨.bangParen, .raw, l.here⟩)
    (.empty l.here) (show Quote.opening? l.rest = some ⟨'\'', true⟩ by rw [← hl]; decide +kernel)
    (by rw [← hl]; exact .inl rfl) (by rw [← hl]; rfl) (by rw [← hl]; rfl)
    (by rw [← hl]; decide +kernel) (by rw [← hl]; decide +kernel) (by rw [← hl]; decide +kernel)
    ⟨rfl, rfl, rfl⟩
  obtain ⟨_, _, _, raw', m', hcapture, hcursor⟩ := alike.1 _ _ hpull
  exact ⟨l, _, _, _, raw', m', rfl, rfl, hpull, rfl, hcapture, hcursor⟩

/-- A string in plain quotes that goes on behind a backslash is a token of two lines; captured as
raw text at the same place it has no end. -/
theorem continued_string_without_raw_end :
    ∃ l, l = final (goToNextLine (.ofSource (.ofString "'a\\\nb'\n") 8)) ∧
      value? (pull l) = some ⟨.string, "'a\\\nb'", ⟨1, 0⟩, ⟨2, 2⟩, "'a\\\n"⟩ ∧
      failure? (captureString ⟨'\'', false⟩ (.empty l.here) l) = some (.unterminatedString ⟨1, 0⟩) ∧
      (ofSource (.ofString "m!('a\\\nb')\n") 8).tokens.2 = some (.unterminatedString ⟨1, 3⟩) :=
  ⟨_, rfl, by decide +kernel, by decide +kernel, by decide +kernel⟩

end Lexer

end ShellSyntax
