import ShellSyntax.Proofs.Lexer.Extents
import ShellSyntax.Proofs.Lexer.Failures

/-!
String literals as tokens. What the lexer reads of one, from line to line, is one reading of the
lines behind its opening quote.
-/

namespace ShellSyntax

namespace Lexeme

theorem withoutTerminator_append {first text : List Char} {c : Char}
    (hlast : first.getLast? = some c) (hc : isLineBreak c = false) :
    Text.withoutTerminator (first ++ text) = first ++ Text.withoutTerminator text := by
  obtain ⟨before, rfl⟩ := List.getLast?_eq_some_iff.mp hlast
  have hstops : (c == '\n' || c == '\r') = false := hc
  simp only [Text.withoutTerminator, List.reverse_append, List.dropWhile_append]
  split
  case isTrue hnone =>
    rw [List.isEmpty_iff] at hnone
    simp [hnone, hstops]
  case isFalse => simp

theorem isContinued_append {first text : List Char} {c : Char} (hlast : first.getLast? = some c)
    (hc : isLineBreak c = false) (hescape : c ≠ '\\') :
    isContinued (first ++ text) = isContinued text := by
  simp only [isContinued, withoutTerminator_append hlast hc, List.length_append,
    Nat.add_lt_add_iff_left, List.getLast?_append, hlast]
  congr 1
  cases (Text.withoutTerminator text).getLast? with
  | none => simpa using hescape
  | some d => rfl

end Lexeme

namespace StringLetters

theorem head_of_opening? {c : Char} {rest letters : List Char} {quote : Quote}
    (hopening : opening? (c :: rest) = some (letters, quote)) :
    Lexeme.continuesName c = true ∨ c = '\'' ∨ c = '"' := by
  by_cases hname : Lexeme.continuesName c = true
  · exact .inl hname
  · right
    rw [Bool.not_eq_true] at hname
    obtain ⟨rfl, hquote⟩ := quote_of_opening? hopening
    simp only [List.takeWhile_cons, hname, Bool.false_eq_true, if_false, List.length_nil,
      List.drop_zero, Quote.opening?, Option.ite_none_right_eq_some] at hquote
    simpa using hquote.1

theorem getLast?_opening {text letters : List Char} {quote : Quote}
    (hopening : opening? text = some (letters, quote)) :
    (text.take (letters.length + quote.size)).getLast? = some quote.mark := by
  obtain ⟨_, hcloses, _⟩ := opening?_bounds hopening
  obtain ⟨more, hmore⟩ := List.isPrefixOf_iff_prefix.mp hcloses
  have hsize := quote.size_pos
  rw [List.take_add, ← hmore, List.take_left' List.length_replicate, List.getLast?_append,
    List.getLast?_replicate, if_neg (by omega)]
  rfl

theorem opening?_of_quote {text : List Char} {quote : Quote}
    (hopening : Quote.opening? text = some quote) : opening? text = some ([], quote) := by
  cases text with
  | nil => cases hopening
  | cons c rest =>
    have hquote := hopening
    rw [Quote.opening?, Option.ite_none_right_eq_some] at hquote
    have hname : Lexeme.continuesName c = false := by
      obtain hc | hc := Bool.or_eq_true _ _ ▸ hquote.1 <;>
      · rw [beq_iff_eq] at hc
        rw [hc]
        decide
    have hvalid : isValid [] = true := by decide
    simp only [opening?, List.takeWhile_cons, hname, Bool.false_eq_true, if_false,
      List.length_nil, List.drop_zero, hopening, hvalid, if_true]

end StringLetters

namespace Lexer

open Outcome

/-! ### Reading a quotation -/

/-- What stands between an opening quote and the end of its closing quote. -/
structure Quotation where
  text : List Char
  /-- How many line ends it holds. -/
  lines : Nat
  /-- How many of its characters stand on its last line. -/
  width : Nat
  /-- What follows on the line. -/
  rest : List Char
  unread : Source
deriving DecidableEq, Repr

namespace Quotation

/-- With a line in front of it. -/
def behind (q : Quotation) (line : List Char) : Quotation :=
  { q with text := line ++ q.text, lines := q.lines + 1 }

/-- Where it ends if it starts at `place`. -/
def stop (q : Quotation) (place : Position) : Position :=
  ⟨place.line + q.lines, if q.lines = 0 then place.column + q.width else q.width⟩

theorem stop_behind (q : Quotation) (line : List Char) (place : Position) :
    (q.behind line).stop place = q.stop ⟨place.line + 1, 0⟩ := by
  simp only [stop, behind, Nat.add_eq_zero_iff, Nat.one_ne_zero, and_false, if_false, Nat.zero_add,
    ite_self]
  congr 1
  omega

end Quotation

section Reading

variable (quote : Quote) (goesOn : List Char → Bool) (start : Position)

/-- Reads a quotation on `line`, or on over its end to what is read `below`. -/
def readLine (line : List Char) (unread : Source) (below : Except LexError Quotation) :
    Except LexError Quotation :=
  match quote.closingEnd? line with
  | some length => .ok ⟨line.take length, 0, length, line.drop length, unread⟩
  | none => if goesOn line then below.map (·.behind line) else .error (.unterminatedString start)

/-- Reads on with a quotation from the next line on. -/
def readBelow : Source → Except LexError Quotation
  | [] => .error (.unterminatedString start)
  | .undecodable :: _ => .error .undecodable
  | .text line :: unread => readLine quote goesOn start line unread (readBelow unread)

def readQuotation (line : List Char) (unread : Source) : Except LexError Quotation :=
  readLine quote goesOn start line unread (readBelow quote goesOn start unread)

end Reading

section Readings

variable {quote : Quote} {goesOn : List Char → Bool} {start : Position} {line : List Char}
  {unread : Source} {below : Except LexError Quotation} {q : Quotation} {e : LexError}

theorem readLine_ok (hread : readLine quote goesOn start line unread below = .ok q) :
    (∃ length, quote.closingEnd? line = some length ∧
      q = ⟨line.take length, 0, length, line.drop length, unread⟩) ∨
    quote.closingEnd? line = none ∧ goesOn line = true ∧ ∃ further, below = .ok further ∧
      q = further.behind line := by
  rw [readLine] at hread
  cases hend : quote.closingEnd? line with
  | some length =>
    simp only [hend] at hread
    exact .inl ⟨length, rfl, (Except.ok.inj hread).symm⟩
  | none =>
    simp only [hend] at hread
    split at hread
    case isFalse => cases hread
    case isTrue hgoes =>
      cases below with
      | error e => cases hread
      | ok further => exact .inr ⟨rfl, hgoes, further, rfl, (Except.ok.inj hread).symm⟩

theorem readLine_error (hread : readLine quote goesOn start line unread below = .error e) :
    quote.closingEnd? line = none ∧ (e = .unterminatedString start ∨ below = .error e) := by
  rw [readLine] at hread
  cases hend : quote.closingEnd? line with
  | some length =>
    simp only [hend] at hread
    cases hread
  | none =>
    simp only [hend] at hread
    refine ⟨rfl, ?_⟩
    split at hread
    case isFalse => exact .inl (Except.error.inj hread).symm
    case isTrue =>
      cases below with
      | error e' => exact .inr hread
      | ok further => cases hread

theorem readBelow_error (hread : readBelow quote goesOn start unread = .error e) :
    e = .unterminatedString start ∨ e = .undecodable := by
  induction unread with
  | nil => exact .inl (Except.error.inj hread).symm
  | cons next unread induction =>
    cases next with
    | undecodable => exact .inr (Except.error.inj hread).symm
    | text line => exact (readLine_error hread).2.elim .inl induction

theorem readQuotation_error (hread : readQuotation quote goesOn start line unread = .error e) :
    e = .unterminatedString start ∨ e = .undecodable :=
  (readLine_error hread).2.elim .inl readBelow_error

end Readings

/-! ### Tokens -/

/-- A literal goes on over the end of a line in triple quotes or behind a backslash. -/
def plainGoesOn (quote : Quote) (line : List Char) : Bool :=
  quote.triple || Lexeme.isContinued line

variable {l m : Lexer} {quote : Quote} {start : Position} {e : LexError} {fuel : Nat}

theorem work_of_step (hpending : l.pending = []) (hworks : l.finished = false)
    (hstep : step l = .ok () m) : work (fuel + 1) l = work fuel m := by
  simp [work, run_bind, run_get, hpending, hworks, hstep]

theorem work_of_step_error (hpending : l.pending = []) (hworks : l.finished = false)
    (hstep : step l = .error e m) : work (fuel + 1) l = .error e m := by
  simp [work, run_bind, run_get, hpending, hworks, hstep]

/-- At the end of a line, in a string that goes on. -/
structure InString (l : Lexer) (quote : Quote) (text : List Char) (start : Position)
    (line : String) : Prop where
  rest : l.rest = []
  modes : ∃ outer, l.modes = .string quote (String.ofList text) start line :: outer
  pending : l.pending = []
  working : l.finished = false

/-- The lexer has just found `token` and stands behind the quotation `q`. -/
structure Found (token : Token) (q : Quotation) (l : Lexer) : Prop where
  pending : l.pending = [token]
  rest : l.rest = q.rest
  unread : l.unread = q.unread
  here : l.here = token.stop

theorem Found.behind {text line : List Char} {shown : String} {q : Quotation} (place : Position)
    (found : Found ⟨.string, String.ofList ((text ++ line) ++ q.text), start,
      q.stop ⟨place.line + 1, 0⟩, shown⟩ q l) :
    Found ⟨.string, String.ofList (text ++ (q.behind line).text), start, (q.behind line).stop place,
      shown⟩ (q.behind line) l := by
  rw [Quotation.stop_behind]
  rw [List.append_assoc] at found
  exact ⟨found.pending, found.rest, found.unread, found.here⟩

theorem step_resumes {text : List Char} {line : String} {outer : List LexMode} (hrest : l.rest ≠ [])
    (hmodes : l.modes = .string quote (String.ofList text) start line :: outer)
    (hpending : l.pending = []) (hworks : l.finished = false) :
    match quote.closingEnd? l.rest with
    | some length => ∃ m, step l = .ok () m ∧
        Found ⟨.string, String.ofList (text ++ l.rest.take length), start, (l.advance length).here,
          line⟩ ⟨l.rest.take length, 0, length, l.rest.drop length, l.unread⟩ m
    | none =>
      if plainGoesOn quote l.rest then
        ∃ m, step l = .ok () m ∧ InString m quote (text ++ l.rest) start line ∧
          m.unread = l.unread ∧ m.lineNumber = l.lineNumber
      else step l = .error (.unterminatedString start) l := by
  have hstep : step l = resumeString quote (String.ofList text) start line outer l := by
    simp only [step, run_bind, run_get, List.isEmpty_eq_false_iff.mpr hrest, hmodes]
    rfl
  rw [hstep]
  simp only [resumeString, run_bind, run_get]
  cases hend : quote.closingEnd? l.rest with
  | some length =>
    refine ⟨_, rfl, ⟨?_, rfl, rfl, rfl⟩⟩
    simp only [push, advance, hpending, String.ofList_append, List.nil_append]
  | none =>
    cases hgoes : plainGoesOn quote l.rest with
    | true =>
      have hover : (quote.triple || Lexeme.isContinued l.rest) = true := hgoes
      simp only [hover, if_true, run_set]
      refine ⟨_, rfl, ⟨?_, ⟨outer, ?_⟩, hpending, hworks⟩, rfl, rfl⟩
      · simp [skipLine, advance]
      · rw [String.ofList_append]
    | false =>
      have hover : (quote.triple || Lexeme.isContinued l.rest) = false := hgoes
      simp only [hover, Bool.false_eq_true, if_false, run_throw]

theorem work_inString {text : List Char} {line : String}
    (inString : InString l quote text start line) (hlines : .text [] ∉ l.unread)
    (hfuel : l.toCome < fuel) :
    match readBelow quote (plainGoesOn quote) start l.unread with
    | .ok q => ∃ m, work fuel l = .ok () m ∧
        Found ⟨.string, String.ofList (text ++ q.text), start, q.stop ⟨l.lineNumber + 1, 0⟩, line⟩ q
          m
    | .error e => ∃ m, work fuel l = .error e m := by
  generalize hunread : l.unread = unread at hlines
  -- each line takes two steps: one enters it, the other reads on with the string
  induction unread generalizing l text fuel with
  | nil =>
    obtain ⟨fuel, rfl⟩ := Nat.exists_eq_succ_of_ne_zero (Nat.ne_zero_of_lt hfuel)
    obtain ⟨hrest, ⟨outer, hmodes⟩, hpending, hworks⟩ := inString
    have hfails : step l = .error (.unterminatedString start) l := by
      rw [step_of_rest_nil hrest]
      simp only [goToNextLine, takeLine, finish, run_bind, run_get, hunread, run_pure, hmodes,
        run_throw]
    exact ⟨l, work_of_step_error hpending hworks hfails⟩
  | cons next unread induction =>
    obtain ⟨fuel, rfl⟩ := Nat.exists_eq_succ_of_ne_zero (Nat.ne_zero_of_lt hfuel)
    obtain ⟨hrest, ⟨outer, hmodes⟩, hpending, hworks⟩ := inString
    cases next with
    | undecodable =>
      have hfails : step l = .error .undecodable { l with unread } := by
        rw [step_of_rest_nil hrest]
        simp only [goToNextLine, takeLine, SourceLine.read, run_bind, run_get, hunread, run_set,
          run_throw]
      exact ⟨_, work_of_step_error hpending hworks hfails⟩
    | text next =>
      rw [List.mem_cons, not_or] at hlines
      have hnext : next ≠ [] := fun hnil => hlines.1 (by rw [hnil])
      have hentered : step l = .ok () (l.freshLine next unread) := by
        rw [step_of_rest_nil hrest, goToNextLine_line hunread]
        simp [hmodes]
      have hcome : (l.freshLine next unread).toCome + 1 = l.toCome := toCome_nextLine hrest hunread
      have hsize : (l.freshLine next unread).toCome =
          next.length + (unread.map fun line => line.size + 1).sum := rfl
      have hpositive := List.length_pos_iff.mpr hnext
      obtain ⟨fuel, rfl⟩ := Nat.exists_eq_succ_of_ne_zero (show fuel ≠ 0 by omega)
      rw [work_of_step hpending hworks hentered]
      have resumes := step_resumes (l := l.freshLine next unread) hnext hmodes hpending hworks
      rw [readBelow, readLine]
      change match quote.closingEnd? next with | some _ => _ | none => _ at resumes
      cases hend : quote.closingEnd? next with
      | some length =>
        simp only [hend] at resumes
        obtain ⟨m, hstep, found⟩ := resumes
        rw [work_of_step (l := l.freshLine next unread) hpending hworks hstep]
        exact ⟨m, work_ready (by simp [found.pending]), found⟩
      | none =>
        simp only [hend] at resumes ⊢
        change if plainGoesOn quote next = true then _ else _ at resumes
        cases hgoes : plainGoesOn quote next with
        | false =>
          simp only [hgoes, Bool.false_eq_true, if_false] at resumes ⊢
          exact ⟨_, work_of_step_error (l := l.freshLine next unread) hpending hworks resumes⟩
        | true =>
          simp only [hgoes, if_true] at resumes ⊢
          obtain ⟨m, hstep, inString, hsame, hnumber⟩ := resumes
          rw [work_of_step (l := l.freshLine next unread) hpending hworks hstep]
          have hmcome : m.toCome = (unread.map fun line => line.size + 1).sum := by
            rw [toCome, inString.rest, hsame, List.length_nil, Nat.zero_add]
            rfl
          have further := induction inString (show m.toCome < fuel by omega) hsame hlines.2
          cases hbelow : readBelow quote (plainGoesOn quote) start unread with
          | error e =>
            rw [hbelow] at further
            exact further
          | ok q =>
            rw [hbelow] at further
            obtain ⟨m', hwork, found⟩ := further
            rw [hnumber] at found
            exact ⟨m', hwork, found.behind⟩

theorem scanToken_of_opening {letters : List Char}
    (hopening : StringLetters.opening? l.rest = some (letters, quote)) :
    scanToken l = startString letters quote l := by
  simp only [scanToken, run_bind, run_get]
  cases hrest : l.rest with
  | nil => simp [hrest, StringLetters.opening?, Quote.opening?] at hopening
  | cons c after =>
    rw [hrest] at hopening
    have hhead := StringLetters.head_of_opening? hopening
    have hspace : Lexeme.isSpace c = false := by
      rw [← Bool.not_eq_true]
      intro hspace
      simp only [Lexeme.isSpace, Bool.or_eq_true, beq_iff_eq] at hspace
      rcases hspace with (rfl | rfl) | rfl <;> exact absurd hhead (by decide)
    have hbreak : Lexeme.isLineBreak c = false := by
      rw [← Bool.not_eq_true]
      intro hbreak
      simp only [Lexeme.isLineBreak, Bool.or_eq_true, beq_iff_eq] at hbreak
      rcases hbreak with rfl | rfl <;> exact absurd hhead (by decide)
    have hescape : (c == '\\') = false := by
      rw [beq_eq_false_iff_ne]
      rintro rfl
      exact absurd hhead (by decide)
    have hcomment : (c == '#') = false := by
      rw [beq_eq_false_iff_ne]
      rintro rfl
      exact absurd hhead (by decide)
    simp only [hspace, hbreak, hescape, hcomment, Bool.false_and, Bool.false_eq_true, if_false,
      hopening]

theorem step_starts {letters first body : List Char} (houtside : l.Outside)
    (hpending : l.pending = []) (hworks : l.finished = false)
    (hopening : StringLetters.opening? l.rest = some (letters, quote))
    (hplain : StringLetters.isFormatted letters = false) (hsplit : l.rest = first ++ body)
    (hfirst : first.length = letters.length + quote.size) :
    match quote.closingEnd? body with
    | some length => ∃ m, step l = .ok () m ∧
        Found ⟨.string, String.ofList (first ++ body.take length), l.here,
          (l.advance (first.length + length)).here, l.lineText⟩
          ⟨body.take length, 0, length, body.drop length, l.unread⟩ m
    | none =>
      if plainGoesOn quote body then
        ∃ m, step l = .ok () m ∧ InString m quote (first ++ body) l.here l.lineText ∧
          m.unread = l.unread ∧ m.lineNumber = l.lineNumber
      else step l = .error (.unterminatedString l.here) l := by
  have hrest : l.rest ≠ [] := by
    intro hnil
    simp [hnil, StringLetters.opening?, Quote.opening?] at hopening
  have hmark := StringLetters.mark_of_opening? hopening
  have hlast := StringLetters.getLast?_opening hopening
  have hdrop : l.rest.drop (letters.length + quote.size) = body := by
    rw [hsplit, ← hfirst, List.drop_left]
  rw [hsplit, ← hfirst, List.take_left] at hlast
  -- the rest of the line ends in a backslash if the line does
  have hsame : (quote.triple || Lexeme.isContinued l.rest) = plainGoesOn quote body := by
    rw [plainGoesOn, hsplit, Lexeme.isContinued_append hlast (Quote.mark_no_lineBreak hmark)
      (Quote.mark_ne_backslash hmark)]
  rw [(step_of_outside hrest houtside).trans (scanToken_of_opening hopening)]
  simp only [startString, run_bind, run_get, hplain, Bool.false_eq_true, if_false, hdrop, hsame]
  cases hend : quote.closingEnd? body with
  | some length =>
    refine ⟨_, rfl, ?_, ?_, ?_, ?_⟩
    · simp only [take_frame, hpending, List.nil_append, List.take_add, ← hfirst]
      rw [hsplit, List.take_left, List.drop_left]
      rfl
    · simp only [take_frame, ← hdrop, List.drop_drop]
    · simp only [take_frame]
    · simp only [here, take_frame, ← hfirst]
      rfl
  | none =>
    cases hgoes : plainGoesOn quote body with
    | true =>
      simp only [if_true, run_set]
      refine ⟨_, rfl, ⟨?_, ⟨l.modes, ?_⟩, hpending, hworks⟩, rfl, rfl⟩
      · simp [pushMode, skipLine, advance]
      · rw [← hsplit]
        rfl
    | false => simp only [Bool.false_eq_true, if_false, run_throw]

theorem pull_of_work {token : Token} {later : List Token} (hwork : work l.bound l = .ok () m)
    (hpending : m.pending = token :: later) : pull l = .ok token { m with pending := later } := by
  simp only [pull, run_bind, run_get, hwork, hpending, run_set, run_pure]

theorem pull_of_work_error (hwork : work l.bound l = .error e m) : pull l = .error e m := by
  simp only [pull, run_bind, run_get, hwork]

theorem work_string {letters first body : List Char} (houtside : l.Outside)
    (hpending : l.pending = []) (hworks : l.finished = false) (hfuel : l.toCome < fuel)
    (hlines : .text [] ∉ l.unread)
    (hopening : StringLetters.opening? l.rest = some (letters, quote))
    (hplain : StringLetters.isFormatted letters = false) (hsplit : l.rest = first ++ body)
    (hfirst : first.length = letters.length + quote.size) :
    match readQuotation quote (plainGoesOn quote) l.here body l.unread with
    | .ok q => ∃ m, work fuel l = .ok () m ∧
        Found ⟨.string, String.ofList (first ++ q.text), l.here,
          q.stop ⟨l.lineNumber, l.column + first.length⟩, l.lineText⟩ q m
    | .error e => ∃ m, work fuel l = .error e m := by
  have starts := step_starts houtside hpending hworks hopening hplain hsplit hfirst
  obtain ⟨fuel, rfl⟩ := Nat.exists_eq_succ_of_ne_zero (Nat.ne_zero_of_lt hfuel)
  rw [readQuotation, readLine]
  cases hend : quote.closingEnd? body with
  | some length =>
    simp only [hend] at starts ⊢
    obtain ⟨m, hstep, found⟩ := starts
    rw [work_of_step hpending hworks hstep]
    refine ⟨m, work_ready (by simp [found.pending]), ?_⟩
    have hplace : (l.advance (first.length + length)).here =
        ⟨l.lineNumber, l.column + first.length + length⟩ := by
      simp only [here, advance, Nat.add_assoc]
    rw [hplace] at found
    exact found
  | none =>
    simp only [hend] at starts ⊢
    cases hgoes : plainGoesOn quote body with
    | false =>
      simp only [hgoes, Bool.false_eq_true, if_false] at starts ⊢
      exact ⟨l, work_of_step_error hpending hworks starts⟩
    | true =>
      simp only [hgoes, if_true] at starts ⊢
      obtain ⟨m, hstep, inString, hsame, hnumber⟩ := starts
      rw [work_of_step hpending hworks hstep]
      have hcome : m.toCome < l.toCome := by
        rw [toCome, toCome, inString.rest, hsame, hsplit, List.length_append, hfirst]
        have hsize := quote.size_pos
        simp only [List.length_nil]
        omega
      have below := work_inString inString (hsame ▸ hlines) (show m.toCome < fuel by omega)
      rw [hsame] at below
      cases hbelow : readBelow quote (plainGoesOn quote) l.here l.unread with
      | error e =>
        rw [hbelow] at below
        exact below
      | ok q =>
        rw [hbelow] at below
        obtain ⟨m', hwork, found⟩ := below
        rw [hnumber] at found
        exact ⟨m', hwork, found.behind ⟨l.lineNumber, l.column + first.length⟩⟩

theorem pull_string {letters first body : List Char} (houtside : l.Outside)
    (hpending : l.pending = []) (hworks : l.finished = false) (hroom : l.toCome < l.bound)
    (hlines : .text [] ∉ l.unread)
    (hopening : StringLetters.opening? l.rest = some (letters, quote))
    (hplain : StringLetters.isFormatted letters = false) (hsplit : l.rest = first ++ body)
    (hfirst : first.length = letters.length + quote.size) :
    match readQuotation quote (plainGoesOn quote) l.here body l.unread with
    | .ok q => ∃ m, m.rest = q.rest ∧ m.unread = q.unread ∧
        m.here = q.stop ⟨l.lineNumber, l.column + first.length⟩ ∧
        pull l = .ok ⟨.string, String.ofList (first ++ q.text), l.here, m.here, l.lineText⟩ m
    | .error e => ∃ m, pull l = .error e m := by
  have works := work_string houtside hpending hworks hroom hlines hopening hplain hsplit hfirst
  cases hread : readQuotation quote (plainGoesOn quote) l.here body l.unread with
  | error e =>
    rw [hread] at works
    obtain ⟨m, hwork⟩ := works
    exact ⟨m, pull_of_work_error hwork⟩
  | ok q =>
    rw [hread] at works
    obtain ⟨m, hwork, found⟩ := works
    have hpull := pull_of_work hwork found.pending
    have hhere : ({ m with pending := [] } : Lexer).here =
        q.stop ⟨l.lineNumber, l.column + first.length⟩ := found.here
    refine ⟨{ m with pending := [] }, found.rest, found.unread, hhere, ?_⟩
    rw [hhere]
    exact hpull

end Lexer

end ShellSyntax
