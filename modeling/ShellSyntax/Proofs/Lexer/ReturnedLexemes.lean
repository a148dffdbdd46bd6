import ShellSyntax.Lexer.Step
import ShellSyntax.Proofs.Lexer.LineFeeds
import ShellSyntax.Proofs.Text.Returns

/-!
Lexemes of lines that end in a carriage return and a line feed. Each is as long as where a line feed
alone ends the line: no lexeme but a line end reaches into the line end.
-/

namespace ShellSyntax

open Text

namespace Text

/-- A line, or what is left of one: it may end in a line feed, and no other line end stands in
it. -/
inductive OneLine : List Char → Prop
  | nil : OneLine []
  | feed : OneLine ['\n']
  | cons {c : Char} {rest : List Char} (hfeed : c ≠ '\n') (hreturn : c ≠ '\r')
      (hrest : OneLine rest) : OneLine (c :: rest)

namespace OneLine

variable {text rest : List Char} {c : Char}

theorem tail (h : OneLine (c :: rest)) : OneLine rest := by
  cases h with
  | feed => exact .nil
  | cons _ _ hrest => exact hrest

theorem drop (h : OneLine text) (count : Nat) : OneLine (text.drop count) := by
  induction count generalizing text with
  | zero => exact h
  | succ count induction =>
    cases text with
    | nil => exact .nil
    | cons c rest => exact induction h.tail

theorem eq_nil_of_feed (h : OneLine ('\n' :: rest)) : rest = [] := by
  cases h with
  | feed => rfl
  | cons hfeed => exact absurd rfl hfeed

theorem not_return (h : OneLine (c :: rest)) : c ≠ '\r' := by
  cases h with
  | feed => decide
  | cons _ hreturn _ => exact hreturn

theorem isLineBreak_eq_false (hfeed : c ≠ '\n') (hreturn : c ≠ '\r') :
    Lexeme.isLineBreak c = false := by
  simp [Lexeme.isLineBreak, hfeed, hreturn]

theorem feed_not_mem_content (h : OneLine text) : '\n' ∉ withoutTerminator text := by
  induction h with
  | nil => decide
  | feed => decide
  | cons hfeed hreturn _ induction =>
    rw [Lexeme.withoutTerminator_cons (isLineBreak_eq_false hfeed hreturn), List.mem_cons, not_or]
    exact ⟨hfeed.symm, induction⟩

end OneLine

end Text

namespace Lexeme

variable {text rest : List Char} {c : Char}

theorem contentLength_withReturns (h : OneLine text) :
    contentLength (withReturns text) = contentLength text := by
  rw [contentLength, withoutTerminator_withReturns, withReturns_of_no_feed h.feed_not_mem_content,
    contentLength]

/-- Behind the content of a line stands its line end, if it has one. -/
theorem drop_contentLength (h : OneLine text) :
    text.drop (contentLength text) = [] ∨ text.drop (contentLength text) = ['\n'] := by
  induction h with
  | nil => exact .inl rfl
  | feed => exact .inr rfl
  | cons hfeed hreturn _ induction =>
    rw [contentLength, withoutTerminator_cons (OneLine.isLineBreak_eq_false hfeed hreturn),
      List.length_cons, List.drop_succ_cons]
    exact induction

theorem isContinued_withReturns (h : OneLine text) :
    isContinued (withReturns text) = isContinued text := by
  have hlonger : (withoutTerminator text).length < (withReturns text).length ↔
      (withoutTerminator text).length < text.length := by
    induction h with
    | nil => rfl
    | feed => decide
    | cons hfeed hreturn _ induction =>
      rw [withoutTerminator_cons (OneLine.isLineBreak_eq_false hfeed hreturn), withReturns_cons hfeed]
      simpa using induction
  unfold isContinued
  rw [withoutTerminator_withReturns, withReturns_of_no_feed h.feed_not_mem_content]
  simp only [hlonger]

theorem atLineEnd_withReturns (h : OneLine text) : atLineEnd (withReturns text) = atLineEnd text := by
  cases h with
  | nil => rfl
  | feed => rfl
  | @cons c rest hfeed hreturn _ =>
    have hnot (rest : List Char) : atLineEnd (c :: rest) = false := by
      unfold atLineEnd
      split <;> simp_all
    rw [withReturns_cons hfeed, hnot, hnot]

theorem isIdleLine_withReturns (text : List Char) :
    isIdleLine (withReturns text) = isIdleLine text := by
  unfold isIdleLine
  rw [trim_withReturns]
  cases trim text with
  | nil => rfl
  | cons c rest =>
    by_cases hc : c = '\n'
    · subst hc
      rfl
    · rw [withReturns_cons hc]

theorem takeWhile_isSpace_withReturns (text : List Char) :
    (withReturns text).takeWhile isSpace = text.takeWhile isSpace :=
  takeWhile_withReturns (by decide) (by decide)

theorem indentWidth_withReturns (tabSize : Nat) (text : List Char) :
    indentWidth tabSize (withReturns text) = indentWidth tabSize text := by
  rw [indentWidth, takeWhile_isSpace_withReturns, indentWidth]

/-! ### Numbers -/

/-- Behind a run of characters none of which is a line feed. -/
theorem drop_takeWhile_withReturns {p : Char → Bool} (hp : p '\n' = false) :
    (withReturns text).drop (text.takeWhile p).length =
      withReturns (text.drop (text.takeWhile p).length) :=
  (take_withReturns (not_feed_takeWhile hp)).2

theorem digitRun_withReturns (text : List Char) : digitRun (withReturns text) = digitRun text := by
  rw [digitRun, takeWhile_withReturns (by decide) (by decide), digitRun]

theorem drop_digitRun_withReturns (text : List Char) :
    (withReturns text).drop (digitRun text) = withReturns (text.drop (digitRun text)) :=
  drop_takeWhile_withReturns (by decide)

theorem fractionRun_withReturns (text : List Char) :
    fractionRun (withReturns text) = fractionRun text ∧
      (withReturns text).drop (fractionRun text) = withReturns (text.drop (fractionRun text)) := by
  cases text with
  | nil => exact ⟨rfl, rfl⟩
  | cons c rest =>
    by_cases hpoint : c = '.'
    · subst hpoint
      rw [withReturns_cons (by decide), fractionRun, fractionRun, digitRun_withReturns]
      exact ⟨rfl, drop_digitRun_withReturns rest⟩
    · have hnone (rest : List Char) : fractionRun (c :: rest) = 0 := by
        unfold fractionRun
        split <;> simp_all
      rw [hnone]
      refine ⟨?_, rfl⟩
      by_cases hc : c = '\n'
      · subst hc
        rfl
      · rw [withReturns_cons hc, hnone]

theorem signRun_withReturns (text : List Char) :
    signRun (withReturns text) = signRun text ∧
      (withReturns text).drop (signRun text) = withReturns (text.drop (signRun text)) := by
  cases text with
  | nil => exact ⟨rfl, rfl⟩
  | cons c rest =>
    by_cases hc : c = '\n'
    · subst hc
      exact ⟨rfl, rfl⟩
    · rw [withReturns_cons hc]
      refine ⟨rfl, ?_⟩
      unfold signRun
      dsimp only
      split
      · rfl
      · exact (withReturns_cons hc rest).symm

theorem exponentRun_withReturns (text : List Char) :
    exponentRun (withReturns text) = exponentRun text ∧
      (withReturns text).drop (exponentRun text) = withReturns (text.drop (exponentRun text)) := by
  cases text with
  | nil => exact ⟨rfl, rfl⟩
  | cons c rest =>
    by_cases hc : c = '\n'
    · subst hc
      exact ⟨rfl, rfl⟩
    · obtain ⟨hsign, hbehind⟩ := signRun_withReturns rest
      rw [withReturns_cons hc]
      unfold exponentRun
      dsimp only
      rw [hsign, hbehind, takeWhile_withReturns (by decide) (by decide), digitRun_withReturns]
      refine ⟨rfl, ?_⟩
      split
      · split
        · exact (withReturns_cons hc rest).symm
        · rw [Nat.add_assoc, Nat.add_comm 1, List.drop_succ_cons, List.drop_succ_cons,
            ← List.drop_drop, ← List.drop_drop, hbehind, drop_digitRun_withReturns]
      · exact (withReturns_cons hc rest).symm

theorem imaginaryRun_withReturns (text : List Char) :
    imaginaryRun (withReturns text) = imaginaryRun text := by
  cases text with
  | nil => rfl
  | cons c rest =>
    by_cases hc : c = '\n'
    · subst hc
      rfl
    · rw [withReturns_cons hc]
      rfl

/-- What is asked of the first two characters alone. -/
theorem startsRadix_withReturns (text : List Char) :
    startsRadix (withReturns text) = startsRadix text := by
  match text with
  | [] => rfl
  | [c] =>
    by_cases hc : c = '\n'
    · subst hc
      rfl
    · rw [withReturns_cons hc, withReturns_nil]
  | c :: d :: rest =>
    by_cases hzero : c = '0'
    · subst hzero
      by_cases hd : d = '\n'
      · subst hd
        rfl
      · rw [withReturns_cons (by decide), withReturns_cons hd]
        rfl
    · have hnone (rest : List Char) : startsRadix (c :: rest) = false := by
        unfold startsRadix
        split <;> simp_all
      by_cases hc : c = '\n'
      · subst hc
        rfl
      · rw [withReturns_cons hc, hnone, hnone]

theorem numberLength_withReturns (text : List Char) :
    numberLength (withReturns text) = numberLength text := by
  unfold numberLength
  rw [startsRadix_withReturns]
  split
  case isTrue hradix =>
    have hfeed : '\n' ∉ text.take 2 := by
      unfold startsRadix at hradix
      split at hradix
      · rename_i c rest
        rw [List.take_succ_cons, List.take_succ_cons, List.take_zero]
        simp only [List.mem_cons, List.not_mem_nil, or_false, not_or]
        refine ⟨by decide, ?_⟩
        rintro rfl
        exact absurd hradix (by decide)
      · cases hradix
    rw [(take_withReturns hfeed).2, takeWhile_withReturns (by decide) (by decide)]
  case isFalse =>
    have hwhole := drop_digitRun_withReturns text
    obtain ⟨hfraction, hbehind⟩ := fractionRun_withReturns (text.drop (digitRun text))
    rw [← hwhole, List.drop_drop, List.drop_drop] at hbehind
    obtain ⟨hexponent, hend⟩ := exponentRun_withReturns
      (text.drop (digitRun text + fractionRun (text.drop (digitRun text))))
    rw [← hbehind, List.drop_drop, List.drop_drop] at hend
    dsimp only
    rw [digitRun_withReturns, hwhole, hfraction, hbehind, hexponent, hend, imaginaryRun_withReturns]

theorem startsNumber_withReturns (text : List Char) :
    startsNumber (withReturns text) = startsNumber text := by
  have hfirst {c : Char} (hc : c ≠ '.') (rest : List Char) :
      startsNumber (c :: rest) = c.isDigit := by
    unfold startsNumber
    split <;> simp_all
  match text with
  | [] => rfl
  | [c] =>
    by_cases hc : c = '\n'
    · subst hc
      rfl
    · rw [withReturns_cons hc, withReturns_nil]
  | c :: d :: rest =>
    by_cases hpoint : c = '.'
    · subst hpoint
      by_cases hd : d = '\n'
      · subst hd
        rfl
      · rw [withReturns_cons (by decide), withReturns_cons hd]
        rfl
    · by_cases hc : c = '\n'
      · subst hc
        rfl
      · rw [withReturns_cons hc, hfirst hpoint, hfirst hpoint]

/-! ### Words -/

theorem endsWord_at_eq (rest : List Char) :
    endsWord '@' rest = (['('].isPrefixOf rest || ['$', '('].isPrefixOf rest) := by
  cases rest with
  | nil => rfl
  | cons c rest =>
    by_cases hparen : c = '('
    · subst hparen
      rfl
    · by_cases hdollar : c = '$'
      · subst hdollar
        cases rest with
        | nil => rfl
        | cons d rest =>
          by_cases hd : d = '('
          · subst hd
            rfl
          · simp [endsWord, List.isPrefixOf, hd, Ne.symm hd]
      · simp [endsWord, List.isPrefixOf, hparen, hdollar, Ne.symm hparen, Ne.symm hdollar]

theorem endsWord_withReturns {c : Char} (rest : List Char) :
    endsWord c (withReturns rest) = endsWord c rest := by
  have hdollar : endsWord '$' (withReturns rest) = endsWord '$' rest := by
    cases rest with
    | nil => rfl
    | cons next rest =>
      by_cases hnext : next = '\n'
      · subst hnext
        rw [withReturns_lineFeed]
        have hnone (next : Char) (rest : List Char) : endsWord '$' (next :: rest) =
            (startsName next || ['(', '[', '\x7b'].contains next) := rfl
        rw [hnone, hnone]
        decide
      · rw [withReturns_cons hnext]
        rfl
  have hat : endsWord '@' (withReturns rest) = endsWord '@' rest := by
    rw [endsWord_at_eq, endsWord_at_eq, isPrefixOf_withReturns (by decide) (by decide),
      isPrefixOf_withReturns (by decide) (by decide)]
  by_cases hc : c = '$'
  · rw [hc, hdollar]
  · by_cases hc' : c = '@'
    · rw [hc', hat]
    · unfold endsWord
      split <;> simp_all

theorem wordLength_withReturns (h : OneLine text) :
    wordLength (withReturns text) = wordLength text := by
  induction h with
  | nil => rfl
  | feed => rfl
  | cons hfeed _ _ induction =>
    rw [withReturns_cons hfeed, wordLength, wordLength, endsWord_withReturns, induction]

theorem namesVariable_withReturns (text : List Char) :
    namesVariable (withReturns text) = namesVariable text := by
  match text with
  | [] => rfl
  | [c] =>
    by_cases hc : c = '\n'
    · subst hc
      rfl
    · rw [withReturns_cons hc, withReturns_nil]
  | c :: d :: rest =>
    by_cases hdollar : c = '$'
    · subst hdollar
      by_cases hd : d = '\n'
      · subst hd
        have hnot : startsName '\r' = startsName '\n' := by decide
        exact hnot
      · rw [withReturns_cons (by decide), withReturns_cons hd]
        rfl
    · have hnone (rest : List Char) : namesVariable (c :: rest) = false := by
        unfold namesVariable
        split <;> simp_all
      by_cases hc : c = '\n'
      · subst hc
        rfl
      · rw [withReturns_cons hc, hnone, hnone]

/-! ### Path searches -/

theorem head?_eq_withReturns {mark : Char} (hfeed : mark ≠ '\n') (hreturn : mark ≠ '\r')
    (text : List Char) : (withReturns text).head? = some mark ↔ text.head? = some mark := by
  cases text with
  | nil => rfl
  | cons c rest =>
    by_cases hc : c = '\n'
    · subst hc
      simp [withReturns_lineFeed, hfeed.symm, hreturn.symm]
    · rw [withReturns_cons hc]
      simp

theorem searchOpening?_withReturns (text : List Char) :
    searchOpening? (withReturns text) = searchOpening? text := by
  have hplain {rest : List Char} (hat : rest.head? ≠ some '@') : searchOpening? rest =
      let letters := (rest.takeWhile fun c => ['r', 'g', 'p', 'f'].contains c).length
      if (rest.drop letters).head? = some '\x60' then some (letters + 1) else none := by
    unfold searchOpening?
    split
    · exact absurd rfl hat
    · rfl
  have hmark (text : List Char) := @head?_eq_withReturns '\x60' (by decide) (by decide) text
  by_cases hat : text.head? = some '@'
  · obtain ⟨rest, rfl⟩ := List.head?_eq_some_iff.mp hat
    have hsign (rest : List Char) : searchOpening? ('@' :: rest) =
        let letters := 1 + (rest.takeWhile continuesName).length
        if (('@' :: rest).drop letters).head? = some '\x60' then some (letters + 1) else none :=
      rfl
    rw [withReturns_cons (by decide), hsign, hsign]
    dsimp only
    rw [takeWhile_withReturns (by decide) (by decide), Nat.add_comm 1, List.drop_succ_cons,
      List.drop_succ_cons, drop_takeWhile_withReturns (by decide)]
    simp only [hmark]
  · have hat' := mt (head?_eq_withReturns (by decide) (by decide) text).mp hat
    rw [hplain hat, hplain hat']
    dsimp only
    rw [takeWhile_withReturns (by decide) (by decide), drop_takeWhile_withReturns (by decide)]
    simp only [hmark]

theorem searchEnd?_withReturns (h : OneLine text) :
    searchEnd? (withReturns text) = searchEnd? text := by
  induction text using searchEnd?.induct with
  | case1 => rfl
  | case2 => rfl
  | case3 c rest induction =>
    rw [withReturns_cons (by decide)]
    by_cases hc : c = '\n'
    · subst hc
      rw [h.tail.eq_nil_of_feed]
      rfl
    · rw [withReturns_cons hc, searchEnd?, searchEnd?, induction h.tail.tail]
  | case4 c rest _ _ hclose =>
    obtain rfl : c = '\x60' := beq_iff_eq.mp hclose
    rfl
  | case5 c rest hone htwo hclose hbreak =>
    have hfeed : c = '\n' := by
      simpa [isLineBreak, h.not_return] using hbreak
    subst hfeed
    rw [h.eq_nil_of_feed]
    rfl
  | case6 c rest hone htwo hclose hbreak induction =>
    have hc := Quote.ne_backslash hone htwo
    have hfeed : c ≠ '\n' := by
      rintro rfl
      exact absurd rfl hbreak
    rw [withReturns_cons hfeed, searchEnd?_cons hc, searchEnd?_cons hc, induction h.tail]

/-! ### Brackets in raw text -/

/-- How one character outside quotes counts. -/
theorem bracketBalance_none (c : Char) (rest : List Char) :
    bracketBalance none (c :: rest) =
      if c == '\'' || c == '"' then bracketBalance (some c) rest
      else if ['(', '[', '\x7b'].contains c then bracketBalance none rest + 1
      else if [')', ']', '\x7d'].contains c then bracketBalance none rest - 1
      else if c == '#' then 0
      else bracketBalance none rest := by
  rw [bracketBalance]

theorem bracketBalance_some {q : Char} (hc : c ≠ '\\') (rest : List Char) :
    bracketBalance (some q) (c :: rest) = bracketBalance (if c = q then none else some q) rest := by
  rw [bracketBalance] <;> simp [hc]

variable {quote : Option Char}

/-- A line end counts as little in quotes as outside. -/
theorem bracketBalance_lineEnd (hquote : ∀ q ∈ quote, q ≠ '\n' ∧ q ≠ '\r')
    (hrest : bracketBalance quote (withReturns rest) = bracketBalance quote rest) :
    bracketBalance quote (withReturns ('\n' :: rest)) = bracketBalance quote ('\n' :: rest) := by
  cases quote with
  | none => exact hrest
  | some q =>
    obtain ⟨hfeed, hreturn⟩ := hquote q rfl
    rw [withReturns_lineFeed, bracketBalance_some (by decide), bracketBalance_some (by decide),
      if_neg hreturn.symm, bracketBalance_some (by decide), if_neg hfeed.symm, hrest]

theorem bracketBalance_withReturns (text : List Char)
    (hquote : ∀ q ∈ quote, q ≠ '\n' ∧ q ≠ '\r') :
    bracketBalance quote (withReturns text) = bracketBalance quote text := by
  induction quote, text using bracketBalance.induct with
  | case1 quote => rfl
  | case2 q => rfl
  | case3 q next rest induction =>
    rw [withReturns_cons (by decide), bracketBalance]
    by_cases hnext : next = '\n'
    · subst hnext
      rw [withReturns_lineFeed, bracketBalance, bracketBalance_some (by decide),
        if_neg (hquote q rfl).1.symm, induction hquote]
    · rw [withReturns_cons hnext, bracketBalance, induction hquote]
  | case4 q c rest hone htwo induction =>
    have hbackslash := Quote.ne_backslash hone htwo
    have hleft : ∀ q' ∈ if c = q then none else some q, q' ≠ '\n' ∧ q' ≠ '\r' := by
      split
      · exact nofun
      · exact hquote
    by_cases hc : c = '\n'
    · subst hc
      refine bracketBalance_lineEnd hquote ?_
      rw [if_neg (hquote q rfl).1.symm] at induction
      exact induction hquote
    · rw [withReturns_cons hc, bracketBalance_some hbackslash, bracketBalance_some hbackslash,
        induction hleft]
  | case5 c rest hmark induction =>
    have hne : ∀ q ∈ some c, q ≠ '\n' ∧ q ≠ '\r' := by
      rintro _ ⟨⟩
      constructor <;> (rintro rfl; exact absurd hmark (by decide))
    rw [withReturns_cons (hne c rfl).1, bracketBalance_none, bracketBalance_none, if_pos hmark,
      if_pos hmark, induction hne]
  | case6 c rest hmark hopens induction | case7 c rest hmark hopens hcloses induction
  | case9 c rest hmark hopens hcloses hhash induction =>
    by_cases hc : c = '\n'
    · subst hc
      exact bracketBalance_lineEnd hquote (induction hquote)
    · rw [withReturns_cons hc, bracketBalance_none, bracketBalance_none, induction hquote]
      simp only [hmark]
      rfl
  | case8 c rest hmark hopens hcloses hhash =>
    obtain rfl : c = '#' := beq_iff_eq.mp hhash
    rfl

end Lexeme

/-! ### Quotes -/

/-- The mark of the quote ends no line. -/
def Quote.Printed (q : Quote) : Prop :=
  q.mark ≠ '\n' ∧ q.mark ≠ '\r'

namespace Quote

variable {q : Quote} {text rest : List Char} {c : Char}

theorem printed_of_opening? (h : opening? text = some q) : q.Printed := by
  obtain hmark | hmark := mark_of_opening? h
  all_goals
    rw [Printed, hmark]
    decide

theorem closes_withReturns (hq : q.Printed) (text : List Char) :
    q.closes (withReturns text) = q.closes text :=
  isPrefixOf_withReturns (fun hmem => hq.1 (List.eq_of_mem_replicate hmem).symm)
    (fun hmem => hq.2 (List.eq_of_mem_replicate hmem).symm) text

theorem not_closes_of_ne (hc : c ≠ q.mark) (rest : List Char) : q.closes (c :: rest) = false := by
  obtain ⟨size, hsize⟩ : ∃ size, q.size = size + 1 := ⟨q.size - 1, by have := q.size_pos; omega⟩
  rw [closes, hsize, List.replicate_succ, List.isPrefixOf_cons_cons, beq_false_of_ne hc.symm]
  rfl

theorem opening?_withReturns (text : List Char) : opening? (withReturns text) = opening? text := by
  cases text with
  | nil => rfl
  | cons c rest =>
    by_cases hc : c = '\n'
    · subst hc
      rfl
    · rw [withReturns_cons hc, opening?, opening?]
      split
      case isTrue hmark =>
        have hpair : [c, c].isPrefixOf (withReturns rest) = [c, c].isPrefixOf rest := by
          have hc' : c ≠ '\r' := by
            rintro rfl
            exact absurd hmark (by decide)
          exact isPrefixOf_withReturns (by simp [Ne.symm hc]) (by simp [hc'.symm]) rest
        rw [hpair]
      case isFalse => rfl

/-- At a line end no quote closes on the line. -/
theorem closingEnd?_lineEnd (hq : q.Printed) :
    q.closingEnd? ['\n'] = none ∧ q.closingEnd? ['\r', '\n'] = none := by
  have hnil : q.closingEnd? [] = none := rfl
  have hfeed : q.closingEnd? ['\n'] = none := by
    rw [closingEnd?_cons (by decide), not_closes_of_ne hq.1.symm, hnil]
    simp
  refine ⟨hfeed, ?_⟩
  rw [closingEnd?_cons (by decide), not_closes_of_ne hq.2.symm, hfeed]
  simp

theorem closingEnd?_withReturns (hq : q.Printed) (h : OneLine text) :
    q.closingEnd? (withReturns text) = q.closingEnd? text := by
  induction text using closingEnd?.induct (q := q) with
  | case1 => rfl
  | case2 => rfl
  | case3 c rest induction =>
    rw [withReturns_cons (by decide)]
    by_cases hc : c = '\n'
    · subst hc
      rw [h.tail.eq_nil_of_feed, withReturns_lineFeed, closingEnd?, closingEnd?, withReturns_nil,
        (closingEnd?_lineEnd hq).1]
      rfl
    · rw [withReturns_cons hc, closingEnd?, closingEnd?, induction h.tail.tail]
  | case4 c rest hone htwo hcloses =>
    have hbackslash := Quote.ne_backslash hone htwo
    have hc : c ≠ '\n' := by
      rintro rfl
      rw [not_closes_of_ne hq.1.symm] at hcloses
      cases hcloses
    rw [closingEnd?_cons hbackslash, if_pos hcloses, withReturns_cons hc, closingEnd?_cons hbackslash,
      ← withReturns_cons hc, closes_withReturns hq, if_pos hcloses]
  | case5 c rest hone htwo hcloses hbreak =>
    have hc : c = '\n' := by
      simpa [Lexeme.isLineBreak, h.not_return] using (Bool.and_eq_true_iff.mp hbreak).2
    subst hc
    rw [h.eq_nil_of_feed, withReturns_lineFeed, withReturns_nil, (closingEnd?_lineEnd hq).1,
      (closingEnd?_lineEnd hq).2]
  | case6 c rest hone htwo hcloses hbreak induction =>
    have hbackslash := Quote.ne_backslash hone htwo
    by_cases hc : c = '\n'
    · subst hc
      rw [h.eq_nil_of_feed, withReturns_lineFeed, withReturns_nil, (closingEnd?_lineEnd hq).1,
        (closingEnd?_lineEnd hq).2]
    · rw [closingEnd?_cons hbackslash, if_neg hcloses, if_neg hbreak, withReturns_cons hc,
        closingEnd?_cons hbackslash, ← withReturns_cons hc, closes_withReturns hq, if_neg hcloses,
        if_neg hbreak, induction h.tail]

end Quote

theorem StringLetters.opening?_withReturns (text : List Char) :
    opening? (withReturns text) = opening? text := by
  unfold opening?
  dsimp only
  rw [takeWhile_withReturns (by decide) (by decide),
    Lexeme.drop_takeWhile_withReturns (by decide), Quote.opening?_withReturns]

namespace Lexer

variable {q : Quote} {text rest : List Char} {c : Char}

/-- A doubled brace at the start of the text. -/
def doubled (text : List Char) : Bool :=
  ['\x7b', '\x7b'].isPrefixOf text || ['\x7d', '\x7d'].isPrefixOf text

theorem doubled_withReturns (text : List Char) : doubled (withReturns text) = doubled text := by
  rw [doubled, isPrefixOf_withReturns (by decide) (by decide),
    isPrefixOf_withReturns (by decide) (by decide), doubled]

theorem doubled_iff : doubled (c :: rest) = true ↔
    ∃ more, rest = c :: more ∧ (c = '\x7b' ∨ c = '\x7d') := by
  rw [doubled, Bool.or_eq_true, List.isPrefixOf_iff_prefix, List.isPrefixOf_iff_prefix,
    List.cons_prefix_cons, List.cons_prefix_cons]
  constructor
  · rintro (⟨rfl, more, rfl⟩ | ⟨rfl, more, rfl⟩)
    · exact ⟨more, rfl, .inl rfl⟩
    · exact ⟨more, rfl, .inr rfl⟩
  · rintro ⟨more, rfl, rfl | rfl⟩
    · exact .inl ⟨rfl, more, rfl⟩
    · exact .inr ⟨rfl, more, rfl⟩

theorem scanText_of_ne_backslash (hbackslash : c ≠ '\\') (count : Nat) (rest : List Char) :
    scanText q count (c :: rest) =
      if doubled (c :: rest) then scanText q (count + 2) rest.tail
      else if q.closes (c :: rest) then .quote count
      else if c == '\x7b' then .field count
      else if !q.triple && Lexeme.isLineBreak c then .lineBreak count
      else scanText q (count + 1) rest := by
  rw [scanText.eq_def]
  split
  · simp_all
  · simp_all
  · simp_all
  · simp_all [doubled]
  · simp_all [doubled]
  · rename_i c rest hone htwo hopen hclose heq
    cases heq
    have hnone : ¬ doubled (c :: rest) = true := by
      rw [doubled_iff]
      rintro ⟨more, rfl, rfl | rfl⟩
      · exact hopen more rfl rfl
      · exact hclose more rfl rfl
    rw [if_neg hnone]

theorem scanText_withReturns (hq : q.Printed) (h : OneLine text) (count : Nat) :
    scanText q count (withReturns text) = scanText q count text := by
  -- The text is induced over by its length, since doubled characters are passed at once.
  induction hlength : text.length using Nat.strong_induction_on generalizing text count with
  | h length induction =>
    cases text with
    | nil => rfl
    | cons c rest =>
      have hshorter : rest.length < length := by
        rw [← hlength]
        exact Nat.lt_succ_self _
      by_cases hbackslash : c = '\\'
      · subst hbackslash
        cases rest with
        | nil => rfl
        | cons d rest =>
          have hend := Lexeme.atLineEnd_withReturns h.tail
          by_cases hd : d = '\n'
          · subst hd
            rw [h.tail.eq_nil_of_feed]
            rfl
          · rw [withReturns_cons hd] at hend
            rw [withReturns_cons (by decide), withReturns_cons hd, scanText, scanText, hend]
            rw [induction _ (Nat.lt_of_succ_lt hshorter) h.tail.tail _ rfl]
      · by_cases hc : c = '\n'
        · subst hc
          rw [h.eq_nil_of_feed, withReturns_lineFeed, withReturns_nil,
            scanText_of_ne_backslash (by decide),
            scanText_of_ne_backslash (by decide), scanText_of_ne_backslash (by decide)]
          simp only [Quote.not_closes_of_ne hq.1.symm, Quote.not_closes_of_ne hq.2.symm]
          cases q.triple <;> rfl
        · have hdoubled := doubled_withReturns (c :: rest)
          have hcloses := Quote.closes_withReturns hq (c :: rest)
          rw [withReturns_cons hc] at hdoubled hcloses ⊢
          rw [scanText_of_ne_backslash hbackslash, scanText_of_ne_backslash hbackslash,
            hdoubled, hcloses,
            induction _ hshorter h.tail _ rfl]
          split
          case isTrue hpair =>
            obtain ⟨more, rfl, _⟩ := doubled_iff.mp hpair
            rw [withReturns_cons hc]
            exact induction _ (Nat.lt_of_succ_lt hshorter) h.tail.tail _ rfl
          case isFalse => rfl

theorem scanSpec_withReturns (h : OneLine text) (count : Nat) :
    scanSpec count (withReturns text) = scanSpec count text := by
  induction count, text using scanSpec.induct with
  | case1 => rfl
  | case2 => rfl
  | case3 count c rest induction =>
    rw [withReturns_cons (by decide)]
    by_cases hc : c = '\n'
    · subst hc
      rw [h.tail.eq_nil_of_feed]
      rfl
    · rw [withReturns_cons hc, scanSpec, scanSpec, induction h.tail.tail]
  | case4 count c rest hone htwo hopen =>
    obtain rfl : c = '\x7b' := beq_iff_eq.mp hopen
    rfl
  | case5 count c rest hone htwo hopen hclose =>
    obtain rfl : c = '\x7d' := beq_iff_eq.mp hclose
    rfl
  | case6 count c rest hone htwo hopen hclose hbreak =>
    have hfeed : c = '\n' := by
      simpa [Lexeme.isLineBreak, h.not_return] using hbreak
    subst hfeed
    rw [h.eq_nil_of_feed]
    rfl
  | case7 count c rest hone htwo hopen hclose hbreak induction =>
    have hbackslash := Quote.ne_backslash hone htwo
    have hfeed : c ≠ '\n' := by
      rintro rfl
      exact absurd rfl hbreak
    rw [withReturns_cons hfeed, scanSpec_cons hbackslash, scanSpec_cons hbackslash,
      induction h.tail]

theorem goesOn_withReturns (text : List Char) : goesOn (withReturns text) = goesOn text := by
  unfold goesOn
  rw [Lexeme.bracketBalance_withReturns text (by simp), withoutTerminator_withReturns,
    getLast?_withReturns]

end Lexer

theorem Spelling.firstMatch_withReturns {table : List String}
    (htable : ∀ word ∈ table, '\n' ∉ word.toList ∧ '\r' ∉ word.toList) (text : List Char) :
    firstMatch table (withReturns text) = firstMatch table text := by
  unfold firstMatch
  induction table with
  | nil => rfl
  | cons word table induction =>
    obtain ⟨hfeed, hreturn⟩ := htable word List.mem_cons_self
    rw [List.find?_cons, List.find?_cons, isPrefixOf_withReturns hfeed hreturn,
      induction fun other hother => htable other (List.mem_cons_of_mem _ hother)]

theorem Spelling.operators_printed :
    ∀ word ∈ operators, '\n' ∉ word.toList ∧ '\r' ∉ word.toList := by
  decide

theorem Spelling.commandOperators_printed :
    ∀ word ∈ commandOperators, '\n' ∉ word.toList ∧ '\r' ∉ word.toList := by
  decide

end ShellSyntax
