import ShellSyntax.Proofs.Lexer.Cursor

/-!
Tokens and line feeds. Between statements only a line end takes the line feed off its line: every
other token there stops before it.
-/

namespace ShellSyntax

namespace Lexeme

variable {text : List Char}

theorem not_feed_takeWhile {p : Char → Bool} (hp : p '\n' = false) :
    '\n' ∉ text.take (text.takeWhile p).length := by
  rw [← List.prefix_iff_eq_take.mp (List.takeWhile_prefix p)]
  intro hmem
  have hfeed := List.all_eq_true.mp List.all_takeWhile '\n' hmem
  rw [hp] at hfeed
  cases hfeed

def isNumberChar (c : Char) : Bool :=
  isHexDigit c || ['_', '.', '+', '-', 'x', 'X', 'o', 'O', 'j', 'J'].contains c

/-- The first `count` characters may stand in a number. -/
def NumberChars (text : List Char) (count : Nat) : Prop :=
  ∀ c ∈ text.take count, isNumberChar c = true

namespace NumberChars

theorem none : NumberChars text 0 := by
  simp [NumberChars]

theorem add {m n : Nat} (hfirst : NumberChars text m) (hsecond : NumberChars (text.drop m) n) :
    NumberChars text (m + n) := by
  rw [NumberChars, List.take_add]
  exact List.forall_mem_append.mpr ⟨hfirst, hsecond⟩

theorem cons {c : Char} {n : Nat} (hc : isNumberChar c = true) (hrest : NumberChars text n) :
    NumberChars (c :: text) (n + 1) := by
  rw [NumberChars, List.take_succ_cons]
  exact List.forall_mem_cons.mpr ⟨hc, hrest⟩

theorem takeWhile {p : Char → Bool} (hp : ∀ c, p c = true → isNumberChar c = true) :
    NumberChars text (text.takeWhile p).length := by
  rw [NumberChars, ← List.prefix_iff_eq_take.mp (List.takeWhile_prefix p)]
  exact fun c hc => hp c (List.all_eq_true.mp List.all_takeWhile c hc)

theorem digitRun : NumberChars text (digitRun text) :=
  takeWhile fun c hc => by
    rw [Bool.or_eq_true, beq_iff_eq] at hc
    obtain hdigit | rfl := hc
    · simp [isNumberChar, isHexDigit, hdigit]
    · rfl

theorem fractionRun : NumberChars text (fractionRun text) := by
  unfold Lexeme.fractionRun
  split
  · exact cons rfl digitRun
  · exact none

theorem signRun : NumberChars text (signRun text) := by
  unfold Lexeme.signRun
  split
  case h_1 c rest =>
    split
    case isTrue hsign =>
      rw [Bool.or_eq_true, beq_iff_eq, beq_iff_eq] at hsign
      exact cons (n := 0) (by obtain rfl | rfl := hsign <;> rfl) none
    case isFalse => exact none
  case h_2 => exact none

theorem exponentRun : NumberChars text (exponentRun text) := by
  unfold Lexeme.exponentRun
  split
  case h_1 c rest =>
    split
    case isTrue hmark =>
      rw [Bool.or_eq_true, beq_iff_eq, beq_iff_eq] at hmark
      dsimp only
      split
      · exact none
      · rw [Nat.add_assoc, Nat.add_comm]
        exact cons (by obtain rfl | rfl := hmark <;> decide) (add signRun digitRun)
    case isFalse => exact none
  case h_2 => exact none

theorem imaginaryRun : NumberChars text (imaginaryRun text) := by
  unfold Lexeme.imaginaryRun
  split
  case h_1 c rest =>
    split
    case isTrue hmark =>
      rw [Bool.or_eq_true, beq_iff_eq, beq_iff_eq] at hmark
      exact cons (n := 0) (by obtain rfl | rfl := hmark <;> rfl) none
    case isFalse => exact none
  case h_2 => exact none

theorem numberLength : NumberChars text (numberLength text) := by
  unfold Lexeme.numberLength
  split
  case isTrue hradix =>
    refine add ?_ (takeWhile fun c hc => ?_)
    · unfold startsRadix at hradix
      split at hradix
      case h_1 c rest =>
        refine cons (n := 1) rfl (cons (n := 0) ?_ none)
        simp only [List.contains_iff_mem, List.mem_cons, List.not_mem_nil, or_false] at hradix
        obtain rfl | rfl | rfl | rfl | rfl | rfl := hradix <;> decide
      case h_2 => cases hradix
    · rw [Bool.or_eq_true, beq_iff_eq] at hc
      obtain hdigit | rfl := hc
      · simp [isNumberChar, hdigit]
      · rfl
  case isFalse => exact add (add (add digitRun fractionRun) exponentRun) imaginaryRun

end NumberChars

theorem not_mem_number {c : Char} (hc : isNumberChar c = false) :
    c ∉ text.take (numberLength text) := by
  intro hmem
  cases hc.symm.trans (NumberChars.numberLength c hmem)

theorem not_feed_word : '\n' ∉ text.take (wordLength text) := by
  intro hmem
  obtain ⟨_, hgoes⟩ := endsWord_of_mem_word hmem
  cases hgoes

theorem getLast?_of_content (h : text.length ≤ contentLength text) : text.getLast? ≠ some '\n' := by
  have hall : (text.reverse.dropWhile fun c => c == '\n' || c == '\r') = text.reverse := by
    refine (List.dropWhile_suffix _).eq_of_length_le ?_
    simpa [contentLength, Text.withoutTerminator] using h
  rw [← List.head?_reverse]
  cases hreverse : text.reverse with
  | nil => simp
  | cons c rest =>
    rw [hreverse] at hall
    intro hlast
    obtain rfl := Option.some.inj hlast
    have hshorter := congrArg List.length hall
    have hle := (List.dropWhile_sublist (fun c => c == '\n' || c == '\r') (l := rest)).length_le
    simp only [List.dropWhile_cons, beq_self_eq_true, Bool.true_or, if_true,
      List.length_cons] at hshorter
    omega

theorem searchOpening?_last {opening : Nat} (hopening : searchOpening? text = some opening) :
    text[opening - 1]? = some '\x60' := by
  unfold searchOpening? at hopening
  dsimp only at hopening
  rw [Option.ite_none_right_eq_some, Option.some.injEq] at hopening
  obtain ⟨hmark, rfl⟩ := hopening
  rwa [Nat.add_sub_cancel, ← List.head?_drop]

theorem searchEnd?_last {length : Nat} (hend : searchEnd? text = some length) :
    text[length - 1]? = some '\x60' := by
  induction text using searchEnd?.induct generalizing length with
  | case1 => simp [searchEnd?] at hend
  | case2 => simp [searchEnd?] at hend
  | case3 c rest induction =>
    simp only [searchEnd?, Option.map_eq_some_iff] at hend
    obtain ⟨inner, hinner, rfl⟩ := hend
    have hlast := induction hinner
    obtain ⟨more, rfl⟩ := Nat.exists_eq_add_of_le' (searchEnd?_bounds hinner).1
    exact hlast
  | case4 c rest hone htwo hclose =>
    rw [searchEnd?, if_pos hclose] at hend
    · cases hend
      rw [beq_iff_eq] at hclose
      rw [hclose]
      rfl
    · exact hone
    · exact htwo
  | case5 c rest hone htwo hclose hbreak =>
    rw [searchEnd?, if_neg hclose, if_pos hbreak] at hend
    · cases hend
    · exact hone
    · exact htwo
  | case6 c rest hone htwo hclose hbreak induction =>
    rw [searchEnd?, if_neg hclose, if_neg hbreak, Option.map_eq_some_iff] at hend
    · obtain ⟨inner, hinner, rfl⟩ := hend
      have hlast := induction hinner
      obtain ⟨more, rfl⟩ := Nat.exists_eq_add_of_le' (searchEnd?_bounds hinner).1
      exact hlast
    · exact hone
    · exact htwo

end Lexeme

namespace Quote

variable {quote : Quote} {text : List Char}

theorem closes_last (hcloses : quote.closes text = true) :
    text[quote.size - 1]? = some quote.mark := by
  obtain ⟨rest, rfl⟩ := List.isPrefixOf_iff_prefix.mp hcloses
  have hsize := quote.size_pos
  have hlast : quote.size - 1 < quote.size := Nat.sub_lt hsize Nat.one_pos
  rw [List.getElem?_append_left (by rwa [List.length_replicate])]
  exact List.getElem?_replicate_of_lt hlast

theorem closingEnd?_last {length : Nat} (hend : quote.closingEnd? text = some length) :
    text[length - 1]? = some quote.mark := by
  induction text using closingEnd?.induct (q := quote) generalizing length with
  | case1 => simp [closingEnd?] at hend
  | case2 => simp [closingEnd?] at hend
  | case3 c rest induction =>
    simp only [closingEnd?, Option.map_eq_some_iff] at hend
    obtain ⟨inner, hinner, rfl⟩ := hend
    have hlast := induction hinner
    obtain ⟨more, rfl⟩ := Nat.exists_eq_add_of_le' (closingEnd?_bounds hinner).1
    exact hlast
  | case4 c rest hone htwo hcloses =>
    rw [closingEnd?, if_pos hcloses] at hend
    · cases hend
      exact closes_last hcloses
    · exact hone
    · exact htwo
  | case5 c rest hone htwo hcloses hbreak =>
    rw [closingEnd?, if_neg hcloses, if_pos hbreak] at hend
    · cases hend
    · exact hone
    · exact htwo
  | case6 c rest hone htwo hcloses hbreak induction =>
    rw [closingEnd?, if_neg hcloses, if_neg hbreak, Option.map_eq_some_iff] at hend
    · obtain ⟨inner, hinner, rfl⟩ := hend
      have hlast := induction hinner
      obtain ⟨more, rfl⟩ := Nat.exists_eq_add_of_le' (closingEnd?_bounds hinner).1
      exact hlast
    · exact hone
    · exact htwo

end Quote

theorem Spelling.operators_mark : ∀ op ∈ operators, '\n' ∉ op.toList := by
  decide

namespace Lexer

/-- The next `count` characters of the line are not all of it, or it ends without a line feed. -/
def StopsShort (l : Lexer) (count : Nat) : Prop :=
  l.rest.length ≤ count → l.rest.getLast? ≠ some '\n'

theorem stopsShort_of_take {l : Lexer} {count : Nat} (h : '\n' ∉ l.rest.take count) :
    l.StopsShort count := by
  intro hall hlast
  rw [List.take_of_length_le hall] at h
  exact h (List.mem_of_getLast? hlast)

theorem stopsShort_of_getElem? {l : Lexer} {count : Nat} {c : Char}
    (hlast : l.rest[count - 1]? = some c) (hc : c ≠ '\n') : l.StopsShort count := by
  intro hall hfeed
  have hlength := (List.getElem?_eq_some_iff.mp hlast).1
  have hindex : l.rest.length - 1 = count - 1 := by omega
  rw [List.getLast?_eq_getElem?, hindex, hlast] at hfeed
  exact hc (Option.some.inj hfeed)

theorem Plain.stopsShort {l : Lexer} {kind : TokenKind} {count : Nat} (plain : Plain l kind count)
    (hnewline : kind ≠ .newline) (hnl : kind ≠ .nl) : l.StopsShort count := by
  cases plain with
  | space => exact stopsShort_of_take (Lexeme.not_feed_takeWhile (by decide))
  | newline => exact absurd rfl hnewline
  | nl => exact absurd rfl hnl
  | comment => exact Lexeme.getLast?_of_content
  | @string letters quote length hopening hplain hend =>
    refine stopsShort_of_getElem? (c := quote.mark) ?_
      (Quote.mark_ne_lineFeed (StringLetters.mark_of_opening? hopening))
    have hlast := Quote.closingEnd?_last hend
    have hpositive := (Quote.closingEnd?_bounds hend).1
    rw [List.getElem?_drop] at hlast
    rwa [Nat.add_sub_assoc hpositive]
  | @pathSearch opening length hopening hend =>
    refine stopsShort_of_getElem? (c := '\x60') ?_ (by decide)
    have hlast := Lexeme.searchEnd?_last hend
    have hpositive := (Lexeme.searchEnd?_bounds hend).1
    rw [List.getElem?_drop] at hlast
    rwa [Nat.add_sub_assoc hpositive]
  | word _ hlength => exact stopsShort_of_take (hlength ▸ Lexeme.not_feed_word)
  | number => exact stopsShort_of_take (Lexeme.not_mem_number (by decide))
  | name => exact stopsShort_of_take (Lexeme.not_feed_takeWhile (by decide))
  | op hmatch _ _ hknown =>
    refine stopsShort_of_take ?_
    rw [Spelling.firstMatch_take hmatch]
    exact Spelling.operators_mark _ hknown
  | odd hrest _ hbreak =>
    refine stopsShort_of_getElem? (by rw [hrest]; rfl) ?_
    rintro rfl
    exact absurd hbreak (by decide)

end Lexer

end ShellSyntax
