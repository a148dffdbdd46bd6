import ShellSyntax.Proofs.Lexer.ClosingQuotes
import ShellSyntax.Proofs.Lexer.LineEndTokens

/-!
Two lines that start alike and fork at a backslash. What the lexer cuts off before the fork it cuts
off from both: it looks at most one character further, and no lexeme but a word takes a backslash
in that does not start it.
-/

namespace ShellSyntax

open Text (isBlank)

/-- A line and the lines below it, and what stands there instead if the line goes on with a
backslash behind its `head`, which ends in `last`. -/
structure Fork where
  stem : List Char
  last : Char
  left : List Char
  leftBelow : Source
  behind : List Char
  rightBelow : Source
  blank : isBlank last = false
  bare : last ≠ '$' ∧ last ≠ '@'

namespace Fork

def head (f : Fork) : List Char :=
  f.stem ++ [f.last]

def right (f : Fork) : List Char :=
  '\\' :: f.behind

/-- What is left of the two lines where at least `count` characters stand before the fork, or of
one line that both sources have. -/
def Shares (f : Fork) (count : Nat) (x y : List Char) : Prop :=
  x = y ∨ ∃ q, q <:+ f.head ∧ count ≤ q.length ∧ x = q ++ f.left ∧ y = q ++ f.right

variable {f : Fork} {count more : Nat} {x y : List Char} {c : Char}

theorem getLast?_suffix {q : List Char} (hq : q <:+ f.head) (hsome : q ≠ []) :
    q.getLast? = some f.last := by
  obtain ⟨before, hbefore⟩ := hq
  have hlast : (before ++ q).getLast? = some f.last := by rw [hbefore, head, List.getLast?_concat]
  obtain ⟨last, hq⟩ := Option.ne_none_iff_exists'.mp (mt List.getLast?_eq_none_iff.mp hsome)
  rwa [List.getLast?_append, hq, Option.some_or, ← hq] at hlast

theorem prefix_before {word q behind : List Char} (hword : '\\' ∉ word)
    (hleads : word <+: q ++ '\\' :: behind) : word <+: q := by
  obtain hshort | hlong := Nat.le_total word.length q.length
  · exact List.prefix_of_prefix_length_le hleads (List.prefix_append _ _) hshort
  · obtain ⟨beyond, rfl⟩ := List.prefix_of_prefix_length_le (List.prefix_append q _) hleads hlong
    have hbehind := (List.prefix_append_right_inj q).mp hleads
    cases beyond with
    | nil => simp
    | cons d more =>
      obtain ⟨rfl, _⟩ := List.cons_prefix_cons.mp hbehind
      exact absurd (List.mem_append_right q List.mem_cons_self) hword

namespace Shares

theorem refl (f : Fork) (count : Nat) (x : List Char) : f.Shares count x x :=
  .inl rfl

theorem mono (shares : f.Shares count x y) (hle : more ≤ count) : f.Shares more x y := by
  obtain rfl | ⟨q, hq, hcount, hx, hy⟩ := shares
  · exact .refl f _ _
  · exact .inr ⟨q, hq, Nat.le_trans hle hcount, hx, hy⟩

theorem drop (shares : f.Shares (count + more) x y) :
    f.Shares more (x.drop count) (y.drop count) := by
  obtain rfl | ⟨q, hq, hcount, rfl, rfl⟩ := shares
  · exact .refl f _ _
  · have hle : count ≤ q.length := by omega
    refine .inr ⟨q.drop count, (List.drop_suffix _ _).trans hq, ?_, ?_, ?_⟩
    · rw [List.length_drop]
      omega
    · exact List.drop_append_of_le_length hle
    · exact List.drop_append_of_le_length hle

theorem take (shares : f.Shares count x y) : x.take count = y.take count := by
  obtain rfl | ⟨q, _, hcount, rfl, rfl⟩ := shares
  · rfl
  · rw [List.take_append_of_le_length hcount, List.take_append_of_le_length hcount]

theorem take_min (shares : f.Shares (min count x.length + 1) x y) :
    y.take count = x.take count ∧ min count y.length = min count x.length := by
  obtain rfl | ⟨q, _, hcount, rfl, rfl⟩ := shares
  · exact ⟨rfl, rfl⟩
  · rw [List.length_append] at hcount
    have hinside : count ≤ q.length := by omega
    rw [List.take_append_of_le_length hinside, List.take_append_of_le_length hinside,
      List.length_append, List.length_append]
    exact ⟨rfl, by omega⟩

theorem cons (shares : f.Shares (count + 1) (c :: x) y) :
    ∃ y', y = c :: y' ∧ f.Shares count x y' := by
  obtain rfl | ⟨q, hq, hcount, hx, rfl⟩ := shares
  · exact ⟨x, rfl, .refl f _ _⟩
  · cases q with
    | nil => cases hcount
    | cons d q =>
      obtain ⟨rfl, rfl⟩ := List.cons.inj hx
      exact ⟨q ++ f.right, rfl, .inr ⟨q, (List.suffix_cons _ _).trans hq,
        Nat.le_of_succ_le_succ hcount, rfl, rfl⟩⟩

theorem split (shares : f.Shares count x y) :
    x = y ∨ (count = 0 ∧ y = f.right) ∨
      ∃ c x' y', x = c :: x' ∧ y = c :: y' ∧ f.Shares (count - 1) x' y' := by
  obtain rfl | ⟨q, hq, hcount, rfl, rfl⟩ := shares
  · exact .inl rfl
  · cases q with
    | nil => exact .inr (.inl ⟨Nat.le_zero.mp hcount, rfl⟩)
    | cons c q =>
      refine .inr (.inr ⟨c, _, _, rfl, rfl, .inr
        ⟨q, (List.suffix_cons _ _).trans hq, ?_, rfl, rfl⟩⟩)
      rw [List.length_cons] at hcount
      omega

/-- A character that does not follow on the first line does not follow on the second. -/
theorem head?_ne {d : Char} (shares : f.Shares count x y) (hd : d ≠ '\\')
    (hother : x.head? ≠ some d) : y.head? ≠ some d := by
  obtain rfl | ⟨_, rfl⟩ | ⟨c, x, y, rfl, rfl, _⟩ := shares.split
  · exact hother
  · exact fun hright => hd (Option.some.inj hright).symm
  · exact hother

/-- A word without a backslash leads the second line only where it leads the first. -/
theorem leads {word : List Char} (shares : f.Shares count x y) (hword : '\\' ∉ word)
    (hleads : word <+: y) : word <+: x := by
  obtain rfl | ⟨q, _, _, rfl, rfl⟩ := shares
  · exact hleads
  · exact (prefix_before hword hleads).trans (List.prefix_append _ _)

theorem leads_of_le {word : List Char} (shares : f.Shares count x y) (hcount : word.length ≤ count)
    (hleads : word <+: x) : word <+: y := by
  rw [List.prefix_iff_eq_take] at hleads ⊢
  rw [← (shares.mono hcount).take]
  exact hleads

theorem takeWhile {p : Char → Bool} (shares : f.Shares (x.takeWhile p).length x y)
    (hp : p '\\' = false) : y.takeWhile p = x.takeWhile p := by
  obtain rfl | ⟨q, _, hcount, rfl, rfl⟩ := shares
  · rfl
  · have hright : f.right.takeWhile p = [] := List.takeWhile_cons_of_neg (by simp [hp])
    rw [List.takeWhile_append] at hcount ⊢
    rw [List.takeWhile_append]
    split
    case isTrue hall =>
      rw [if_pos hall, List.length_append] at hcount
      have hnone : f.left.takeWhile p = [] := List.eq_nil_of_length_eq_zero (by omega)
      rw [hright, hnone]
    case isFalse => rfl

theorem takeWhile_inside {q behind : List Char} {p : Char → Bool} (other : List Char)
    (hinside : ((q ++ behind).takeWhile p).length < q.length) :
    (q ++ other).takeWhile p = (q ++ behind).takeWhile p := by
  rw [List.takeWhile_append] at hinside ⊢
  have hpart : (q.takeWhile p).length ≠ q.length := by
    intro hall
    rw [if_pos hall, List.length_append] at hinside
    omega
  rw [if_neg hpart, List.takeWhile_append, if_neg hpart]

/-- What the second line starts with stands before the fork, if nothing of it is a backslash. -/
theorem takeWhile_le {q : List Char} {p : Char → Bool} (hp : p '\\' = false) :
    ((q ++ f.right).takeWhile p).length ≤ q.length := by
  have hright : f.right.takeWhile p = [] := List.takeWhile_cons_of_neg (by simp [hp])
  rw [List.takeWhile_append]
  split
  · simp [hright]
  · exact (List.takeWhile_prefix p).length_le

end Shares

end Fork

variable {f : Fork} {count : Nat} {x y : List Char}

/-! ### Operators -/

namespace Spelling

theorem backslash_operators : ∀ op ∈ operators, '\\' ∉ op.toList := by
  decide

theorem backslash_commandOperators : ∀ op ∈ commandOperators, '\\' ∉ op.toList := by
  decide

variable {table : List String} {op : String}

theorem firstMatch_forked (htable : ∀ op ∈ table, '\\' ∉ op.toList)
    (shares : f.Shares op.length x y) (hmatch : firstMatch table x = some op) :
    firstMatch table y = some op := by
  rw [firstMatch, List.find?_eq_some_iff_append] at hmatch ⊢
  obtain ⟨hop, before, after, rfl, hbefore⟩ := hmatch
  refine ⟨?_, before, after, rfl, fun other hother => ?_⟩
  · rw [Bool.and_eq_true, List.isPrefixOf_iff_prefix] at hop ⊢
    exact ⟨hop.1, shares.leads_of_le (by rw [String.length_toList]) hop.2⟩
  · have hnot := hbefore other hother
    rw [Bool.not_eq_true', Bool.and_eq_false_imp] at hnot ⊢
    intro hsome
    have hmissing := hnot hsome
    rw [← Bool.not_eq_true, List.isPrefixOf_iff_prefix] at hmissing ⊢
    exact fun hleads => hmissing
      (shares.leads (htable other (List.mem_append_left _ hother)) hleads)

theorem firstMatch_forked_none (htable : ∀ op ∈ table, '\\' ∉ op.toList)
    (shares : f.Shares count x y) (hmatch : firstMatch table x = none) :
    firstMatch table y = none := by
  rw [firstMatch, List.find?_eq_none] at hmatch ⊢
  intro other hother hmatches
  rw [Bool.and_eq_true, List.isPrefixOf_iff_prefix] at hmatches
  refine hmatch other hother ?_
  rw [Bool.and_eq_true, List.isPrefixOf_iff_prefix]
  exact ⟨hmatches.1, shares.leads (htable other hother) hmatches.2⟩

end Spelling

/-! ### Quotes -/

namespace Quote

variable {quote : Quote} {c : Char}

theorem closes_forked (shares : f.Shares quote.size x y) (hcloses : quote.closes x = true) :
    quote.closes y = true := by
  rw [closes, List.isPrefixOf_iff_prefix] at hcloses ⊢
  exact shares.leads_of_le (by rw [List.length_replicate]) hcloses

/-- A quote closes the second line only where it closes the first, unless it is a backslash. -/
theorem not_closes_forked (shares : f.Shares count (c :: x) (c :: y)) (hc : c ≠ '\\')
    (hcloses : quote.closes (c :: x) = false) : quote.closes (c :: y) = false := by
  rw [← Bool.not_eq_true] at hcloses ⊢
  intro hright
  have hmark := head_of_closes hright
  rw [closes, List.isPrefixOf_iff_prefix] at hcloses hright
  refine hcloses (shares.leads (fun hmem => ?_) hright)
  exact hc (hmark.trans (List.eq_of_mem_replicate hmem).symm)

theorem closingEnd?_forked {length : Nat} (shares : f.Shares length x y)
    (hend : quote.closingEnd? x = some length) : quote.closingEnd? y = some length := by
  induction x using closingEnd?.induct (q := quote) generalizing y length with
  | case1 => cases hend
  | case2 => cases hend
  | case3 c rest induction =>
    rw [closingEnd?, Option.map_eq_some_iff] at hend
    obtain ⟨inner, hinner, rfl⟩ := hend
    obtain ⟨_, rfl, behind⟩ := shares.cons
    obtain ⟨_, rfl, further⟩ := behind.cons
    rw [closingEnd?, induction further hinner]
    rfl
  | case4 c rest hone htwo hcloses =>
    have hc := ne_backslash hone htwo
    rw [closingEnd?_cons hc, if_pos hcloses] at hend
    obtain rfl := Option.some.inj hend
    have hright := closes_forked shares hcloses
    obtain ⟨_, rfl, _⟩ := (shares.mono quote.size_pos).cons
    rw [closingEnd?_cons hc, if_pos hright]
  | case5 c rest hone htwo hcloses hbreak =>
    rw [closingEnd?_cons (ne_backslash hone htwo), if_neg hcloses, if_pos hbreak] at hend
    cases hend
  | case6 c rest hone htwo hcloses hbreak induction =>
    have hc := ne_backslash hone htwo
    rw [closingEnd?_cons hc, if_neg hcloses, if_neg hbreak, Option.map_eq_some_iff] at hend
    obtain ⟨inner, hinner, rfl⟩ := hend
    obtain ⟨y, rfl, inside⟩ := shares.cons
    have hright := not_closes_forked shares hc (Bool.eq_false_iff.mpr hcloses)
    rw [closingEnd?_cons hc, hright, if_neg Bool.false_ne_true, if_neg hbreak,
      induction inside hinner]
    rfl

theorem opening?_forked (shares : f.Shares quote.size x y) (hopening : opening? x = some quote) :
    opening? y = some quote := by
  cases x with
  | nil => cases hopening
  | cons c rest =>
    obtain ⟨y, rfl, _⟩ := (shares.mono quote.size_pos).cons
    rw [opening?, Option.ite_none_right_eq_some, Option.some.injEq] at hopening
    obtain ⟨hmark, rfl⟩ := hopening
    have hc : c ≠ '\\' := by
      rintro rfl
      exact absurd hmark (by decide)
    rw [opening?, if_pos hmark]
    cases htriple : [c, c].isPrefixOf rest with
    | true =>
      have hcloses : Quote.closes ⟨c, true⟩ (c :: y) = true :=
        closes_forked (htriple ▸ shares) (by simpa [closes, size, List.isPrefixOf] using htriple)
      rw [show [c, c].isPrefixOf y = true by
        simpa [closes, size, List.isPrefixOf] using hcloses]
    | false =>
      have hcloses : Quote.closes ⟨c, true⟩ (c :: y) = false :=
        not_closes_forked shares hc (by simpa [closes, size, List.isPrefixOf] using htriple)
      rw [show [c, c].isPrefixOf y = false by
        simpa [closes, size, List.isPrefixOf] using hcloses]

theorem opening?_forked_none (shares : f.Shares count x y) (hopening : opening? x = none) :
    opening? y = none := by
  obtain rfl | ⟨q, _, _, rfl, rfl⟩ := shares
  · exact hopening
  · cases q with
    | nil => rfl
    | cons c q =>
      rw [List.cons_append, opening?, ite_eq_right_iff] at hopening ⊢
      exact fun hmark => absurd (hopening hmark) (by simp)

end Quote

namespace StringLetters

variable {letters : List Char} {quote : Quote}

theorem opening?_forked (shares : f.Shares (letters.length + quote.size) x y)
    (hopening : opening? x = some (letters, quote)) : opening? y = some (letters, quote) := by
  obtain ⟨hletters, hquote⟩ := quote_of_opening? hopening
  have hvalid : isValid letters = true := by
    rw [opening?, ← hletters] at hopening
    simp only [hquote, Option.ite_none_right_eq_some] at hopening
    exact hopening.1
  have hsame : y.takeWhile Lexeme.continuesName = letters := by
    rw [hletters]
    exact (shares.mono (by rw [← hletters]; omega)).takeWhile (by decide)
  have hright := Quote.opening?_forked shares.drop hquote
  simp only [opening?, hsame, hright, if_pos hvalid]

theorem opening?_forked_none (shares : f.Shares count x y) (hopening : opening? x = none) :
    opening? y = none := by
  obtain rfl | ⟨q, hq, _, rfl, rfl⟩ := shares
  · exact hopening
  · cases hright : opening? (q ++ f.right) with
    | none => rfl
    | some literal =>
      exfalso
      obtain ⟨letters, quote⟩ := literal
      obtain ⟨hletters, hquote⟩ := quote_of_opening? hright
      have hvalid : isValid letters = true := by
        rw [opening?, ← hletters] at hright
        simp only [hquote, Option.ite_none_right_eq_some] at hright
        exact hright.1
      -- the letters end before the fork, since a quote stands behind them
      have hinside : letters.length < q.length := by
        refine Nat.lt_of_le_of_ne ?_ fun hall => ?_
        · rw [hletters]
          exact Fork.Shares.takeWhile_le (by decide)
        · rw [List.drop_left' hall.symm] at hquote
          cases hquote
      have hback : (q ++ f.left).takeWhile Lexeme.continuesName = letters := by
        rw [hletters] at hinside ⊢
        exact Fork.Shares.takeWhile_inside _ hinside
      have hstill : Quote.opening? ((q ++ f.left).drop letters.length) ≠ none := by
        have shares : f.Shares 0 ((q ++ f.left).drop letters.length)
            ((q ++ f.right).drop letters.length) :=
          Fork.Shares.drop (.inr ⟨q, hq, Nat.le_of_lt hinside, rfl, rfl⟩)
        intro hnone
        rw [Quote.opening?_forked_none shares hnone] at hquote
        cases hquote
      obtain ⟨other, hother⟩ := Option.ne_none_iff_exists'.mp hstill
      simp [opening?, hback, hother, hvalid] at hopening

end StringLetters

/-! ### Numbers and words -/

namespace Lexeme

theorem digitRun_forked (shares : f.Shares (digitRun x) x y) : digitRun y = digitRun x :=
  congrArg List.length (shares.takeWhile (by decide))

theorem fractionRun_cons {c : Char} (hc : c ≠ '.') : fractionRun (c :: x) = 0 := by
  unfold fractionRun
  split
  case h_1 heq => exact absurd (List.cons.inj heq).1 hc
  case h_2 => rfl

theorem fractionRun_forked (shares : f.Shares (fractionRun x) x y) :
    fractionRun y = fractionRun x := by
  obtain rfl | ⟨hnone, rfl⟩ | ⟨c, x, y, rfl, rfl, behind⟩ := shares.split
  · rfl
  · rw [hnone]
    exact fractionRun_cons (by decide)
  · by_cases hc : c = '.'
    · subst hc
      exact congrArg (· + 1) (digitRun_forked behind)
    · rw [fractionRun_cons hc, fractionRun_cons hc]

theorem signRun_forked (shares : f.Shares (signRun x) x y) : signRun y = signRun x := by
  obtain rfl | ⟨hnone, rfl⟩ | ⟨c, x, y, rfl, rfl, _⟩ := shares.split
  · rfl
  · rw [hnone]
    rfl
  · rfl

theorem imaginaryRun_forked (shares : f.Shares (imaginaryRun x) x y) :
    imaginaryRun y = imaginaryRun x := by
  obtain rfl | ⟨hnone, rfl⟩ | ⟨c, x, y, rfl, rfl, _⟩ := shares.split
  · rfl
  · rw [hnone]
    rfl
  · rfl

theorem digits_forked_none (shares : f.Shares 0 x y)
    (hnone : (x.drop (signRun x)).takeWhile Char.isDigit = []) :
    (y.drop (signRun y)).takeWhile Char.isDigit = [] := by
  obtain rfl | ⟨_, rfl⟩ | ⟨c, x, y, rfl, rfl, behind⟩ := shares.split
  · exact hnone
  · rfl
  · have hsame : signRun (c :: y) = signRun (c :: x) := rfl
    have after : f.Shares 0 ((c :: x).drop (signRun (c :: x)))
        ((c :: y).drop (signRun (c :: y))) := by
      rw [hsame]
      unfold signRun
      dsimp only
      split
      · exact behind
      · exact shares
    rw [Fork.Shares.takeWhile (p := Char.isDigit) (by rwa [hnone]) (by decide), hnone]

theorem digits_forked_some {p q : Char → Bool} (shares : f.Shares (x.takeWhile q).length x y)
    (hpq : ∀ c, p c = true → q c = true) (hsome : (x.takeWhile p).isEmpty = false) :
    (y.takeWhile p).isEmpty = false := by
  cases x with
  | nil => cases hsome
  | cons d x =>
    have hd : p d = true := by
      by_contra hother
      rw [List.takeWhile_cons_of_neg hother] at hsome
      cases hsome
    rw [List.takeWhile_cons_of_pos (hpq d hd)] at shares
    obtain ⟨y, rfl, _⟩ := shares.cons
    rw [List.takeWhile_cons_of_pos hd]
    rfl

theorem exponentRun_forked (shares : f.Shares (exponentRun x) x y) :
    exponentRun y = exponentRun x := by
  obtain rfl | ⟨hnone, rfl⟩ | ⟨c, x, y, rfl, rfl, behind⟩ := shares.split
  · rfl
  · rw [hnone]
    rfl
  · simp only [exponentRun] at behind ⊢
    by_cases hletter : (c == 'e' || c == 'E') = true
    case neg => rw [if_neg hletter, if_neg hletter]
    rw [if_pos hletter] at behind ⊢
    rw [if_pos hletter]
    cases hdigits : ((x.drop (signRun x)).takeWhile Char.isDigit).isEmpty with
    | true =>
      rw [List.isEmpty_iff] at hdigits
      have hnone := digits_forked_none (behind.mono (Nat.zero_le _)) hdigits
      rw [if_pos rfl, if_pos (List.isEmpty_iff.mpr hnone)]
    | false =>
      rw [hdigits, if_neg Bool.false_ne_true, Nat.add_assoc, Nat.add_sub_cancel_left] at behind
      have hsign : signRun y = signRun x := signRun_forked (behind.mono (Nat.le_add_right _ _))
      have after : f.Shares (digitRun (x.drop (signRun x))) (x.drop (signRun x))
          (y.drop (signRun x)) := behind.drop
      have hsome : ((y.drop (signRun x)).takeWhile Char.isDigit).isEmpty = false :=
        digits_forked_some after (fun c hc => by rw [hc, Bool.true_or]) hdigits
      rw [hsign, hsome, digitRun_forked after]

theorem startsRadix_forked (shares : f.Shares count x y) (hradix : startsRadix x = false) :
    startsRadix y = false := by
  obtain rfl | ⟨_, rfl⟩ | ⟨c, x, y, rfl, rfl, behind⟩ := shares.split
  · exact hradix
  · rfl
  · obtain rfl | ⟨_, rfl⟩ | ⟨d, x, y, rfl, rfl, _⟩ := behind.split
    · exact hradix
    · unfold startsRadix
      split
      case h_1 d rest heq =>
        obtain ⟨_, hright⟩ := List.cons.inj heq
        rw [← (List.cons.inj hright).1]
        decide
      case h_2 => rfl
    · unfold startsRadix at hradix ⊢
      split at hradix
      case h_1 heq =>
        obtain ⟨rfl, hrest⟩ := List.cons.inj heq
        obtain ⟨rfl, rfl⟩ := List.cons.inj hrest
        exact hradix
      case h_2 hother =>
        split
        case h_1 heq =>
          obtain ⟨rfl, hrest⟩ := List.cons.inj heq
          exact absurd rfl (hother d x)
        case h_2 => rfl

theorem numberLength_forked (shares : f.Shares (numberLength x) x y) :
    numberLength y = numberLength x := by
  unfold numberLength at shares ⊢
  cases hradix : startsRadix x with
  | true =>
    rw [hradix, if_pos rfl] at shares
    have hsame : startsRadix y = true := by
      unfold startsRadix at hradix
      split at hradix
      case h_1 c rest =>
        obtain ⟨_, rfl, behind⟩ := (shares.mono (show 2 ≤ _ from Nat.le_add_right _ _)).cons
        obtain ⟨_, rfl, _⟩ := behind.cons
        exact hradix
      case h_2 => cases hradix
    rw [if_pos hsame, if_pos rfl, (Fork.Shares.drop shares).takeWhile (by decide)]
  | false =>
    rw [hradix, if_neg Bool.false_ne_true] at shares
    rw [if_neg (by simp [startsRadix_forked shares hradix]), if_neg Bool.false_ne_true]
    dsimp only at shares ⊢
    have whole : digitRun y = digitRun x := digitRun_forked (shares.mono (by omega))
    have fraction := fractionRun_forked
      (@Fork.Shares.drop f (digitRun x) _ x y (shares.mono (by omega)))
    rw [whole, fraction]
    generalize hfraction : digitRun x + fractionRun (x.drop (digitRun x)) = done at shares ⊢
    have exponent := exponentRun_forked
      (@Fork.Shares.drop f done _ x y (shares.mono (Nat.le_add_right _ _)))
    rw [exponent, imaginaryRun_forked shares.drop]

theorem startsNumber_forked (shares : f.Shares (numberLength x) x y)
    (hstart : startsNumber x = true) : startsNumber y = true := by
  have hpositive := numberLength_pos hstart
  unfold startsNumber at hstart
  split at hstart
  case h_1 c rest =>
    -- a point and a digit are both of the number
    have htwo : 2 ≤ numberLength ('.' :: c :: rest) := by
      have hradix : startsRadix ('.' :: c :: rest) = false := rfl
      have hwhole : digitRun ('.' :: c :: rest) = 0 := rfl
      have hdigits : 1 ≤ digitRun (c :: rest) := by
        rw [digitRun, List.takeWhile_cons_of_pos (by rw [hstart, Bool.true_or])]
        exact Nat.succ_pos _
      simp only [numberLength, hradix, Bool.false_eq_true, if_false, hwhole, List.drop_zero,
        fractionRun]
      omega
    obtain ⟨_, rfl, behind⟩ := (shares.mono htwo).cons
    obtain ⟨_, rfl, _⟩ := behind.cons
    exact hstart
  case h_2 c rest hother =>
    obtain ⟨y, rfl, _⟩ := (shares.mono hpositive).cons
    unfold startsNumber
    split
    case h_1 heq =>
      obtain ⟨rfl, _⟩ := List.cons.inj heq
      exact absurd hstart (by decide)
    case h_2 heq =>
      obtain ⟨rfl, _⟩ := List.cons.inj heq
      exact hstart
    case h_3 heq => cases heq
  case h_3 => cases hstart

theorem startsNumber_forked_none (shares : f.Shares count x y) (hstart : startsNumber x = false) :
    startsNumber y = false := by
  obtain rfl | ⟨_, rfl⟩ | ⟨c, x, y, rfl, rfl, behind⟩ := shares.split
  · exact hstart
  · rfl
  · unfold startsNumber
    split
    case h_1 d rest heq =>
      obtain ⟨rfl, rfl⟩ := List.cons.inj heq
      obtain rfl | ⟨_, hright⟩ | ⟨e, x, _, rfl, hrest, _⟩ := behind.split
      · exact hstart
      · obtain ⟨rfl, _⟩ := List.cons.inj hright
        decide
      · obtain ⟨rfl, _⟩ := List.cons.inj hrest
        exact hstart
    case h_2 d rest hother heq =>
      obtain ⟨rfl, rfl⟩ := List.cons.inj heq
      unfold startsNumber at hstart
      split at hstart
      case h_1 heq =>
        obtain ⟨rfl, _⟩ := List.cons.inj heq
        decide
      case h_2 heq =>
        obtain ⟨rfl, _⟩ := List.cons.inj heq
        exact hstart
      case h_3 heq => cases heq
    case h_3 heq => cases heq

theorem endsWord_bare {c : Char} (hbare : c ≠ '$' ∧ c ≠ '@') (x y : List Char) :
    endsWord c x = endsWord c y := by
  unfold endsWord
  split
  · exact absurd rfl hbare.1
  · exact absurd rfl hbare.2
  · rfl

theorem endsWord_at {d : Char} (hd : d ≠ '$') (x y : List Char) :
    endsWord '@' (d :: x) = endsWord '@' (d :: y) := by
  by_cases hparen : d = '('
  · subst hparen
    rfl
  · simp [endsWord, hd, hparen]

theorem endsWord_dollar (e : Char) (x y : List Char) :
    endsWord '@' ('$' :: e :: x) = endsWord '@' ('$' :: e :: y) := by
  by_cases hparen : e = '('
  · subst hparen
    rfl
  · simp [endsWord, hparen]

/-- What ends a word ends it on both lines: neither a dollar sign nor an at sign stands right before
the fork. -/
theorem endsWord_forked {c : Char} (shares : f.Shares 1 (c :: x) (c :: y)) :
    endsWord c y = endsWord c x := by
  obtain hsame | ⟨q, hq, hcount, hx, hy⟩ := shares
  · rw [(List.cons.inj hsame).2]
  · have hlast {d : Char} (hd : [d] <:+ f.head) : d ≠ '$' ∧ d ≠ '@' := by
      obtain rfl : d = f.last := by simpa using Fork.getLast?_suffix hd (by simp)
      exact f.bare
    cases q with
    | nil => cases hcount
    | cons _ q =>
      obtain ⟨rfl, rfl⟩ := List.cons.inj hx
      obtain ⟨_, rfl⟩ := List.cons.inj hy
      by_cases hdollar : c = '$'
      · subst hdollar
        cases q with
        | nil => exact absurd rfl (hlast hq).1
        | cons d q => rfl
      · by_cases hat : c = '@'
        · subst hat
          have hinner := (List.suffix_cons _ _).trans hq
          match q with
          | [] => exact absurd rfl (hlast hq).2
          | [d] => exact endsWord_at (hlast hinner).1 _ _
          | d :: e :: q =>
            by_cases hd : d = '$'
            · subst hd
              exact endsWord_dollar e _ _
            · exact endsWord_at hd _ _
        · exact endsWord_bare ⟨hdollar, hat⟩ _ _

theorem wordLength_forked (shares : f.Shares (wordLength x + 1) x y) :
    wordLength y = wordLength x := by
  induction x generalizing y with
  | nil =>
    obtain rfl | ⟨q, _, hcount, hx, _⟩ := shares
    · rfl
    · rw [(List.append_eq_nil_iff.mp hx.symm).1] at hcount
      cases hcount
  | cons c x induction =>
    have first := shares.mono (Nat.le_add_left 1 _)
    obtain ⟨y, rfl, behind⟩ := shares.cons
    rw [wordLength] at behind ⊢
    rw [endsWord_forked first, wordLength]
    split
    case isTrue => rfl
    case isFalse hgoes =>
      rw [if_neg hgoes] at behind
      rw [induction behind]

/-! ### Searches -/

theorem searchEnd?_forked {length : Nat} (shares : f.Shares length x y)
    (hend : searchEnd? x = some length) : searchEnd? y = some length := by
  induction x using searchEnd?.induct generalizing y length with
  | case1 => cases hend
  | case2 => cases hend
  | case3 c rest induction =>
    rw [searchEnd?, Option.map_eq_some_iff] at hend
    obtain ⟨inner, hinner, rfl⟩ := hend
    obtain ⟨_, rfl, behind⟩ := shares.cons
    obtain ⟨_, rfl, further⟩ := behind.cons
    rw [searchEnd?, induction further hinner]
    rfl
  | case4 c rest hone htwo hclose =>
    have hc := Quote.ne_backslash hone htwo
    rw [searchEnd?_cons hc, if_pos hclose] at hend
    obtain rfl := Option.some.inj hend
    obtain ⟨_, rfl, _⟩ := shares.cons
    rw [searchEnd?_cons hc, if_pos hclose]
  | case5 c rest hone htwo hclose hbreak =>
    rw [searchEnd?_cons (Quote.ne_backslash hone htwo), if_neg hclose, if_pos hbreak] at hend
    cases hend
  | case6 c rest hone htwo hclose hbreak induction =>
    have hc := Quote.ne_backslash hone htwo
    rw [searchEnd?_cons hc, if_neg hclose, if_neg hbreak, Option.map_eq_some_iff] at hend
    obtain ⟨inner, hinner, rfl⟩ := hend
    obtain ⟨_, rfl, inside⟩ := shares.cons
    rw [searchEnd?_cons hc, if_neg hclose, if_neg hbreak, induction inside hinner]
    rfl

/-- How many letters may stand before the mark of a search. -/
def searchLetters : List Char → Nat
  | '@' :: rest => 1 + (rest.takeWhile continuesName).length
  | text => (text.takeWhile fun c => ['r', 'g', 'p', 'f'].contains c).length

theorem searchLetters_cons {c : Char} (hc : c ≠ '@') (text : List Char) :
    searchLetters (c :: text) =
      ((c :: text).takeWhile fun c => ['r', 'g', 'p', 'f'].contains c).length := by
  unfold searchLetters
  split
  case h_1 heq => exact absurd (List.cons.inj heq).1 hc
  case h_2 => rfl

theorem searchOpening?_eq (text : List Char) :
    searchOpening? text =
      if (text.drop (searchLetters text)).head? = some '\x60' then some (searchLetters text + 1)
      else none := by
  cases text with
  | nil => rfl
  | cons c rest =>
    by_cases hc : c = '@'
    · subst hc
      rfl
    · rw [searchLetters_cons hc]
      unfold searchOpening?
      split
      case h_1 heq => exact absurd (List.cons.inj heq).1 hc
      case h_2 => rfl

theorem searchLetters_forked (shares : f.Shares (searchLetters x) x y) :
    searchLetters y = searchLetters x := by
  obtain rfl | ⟨hnone, rfl⟩ | ⟨c, x, y, rfl, rfl, behind⟩ := shares.split
  · rfl
  · rw [hnone]
    rfl
  · by_cases hc : c = '@'
    · subst hc
      have after : f.Shares (x.takeWhile continuesName).length x y :=
        behind.mono (by rw [searchLetters]; omega)
      rw [searchLetters, searchLetters, after.takeWhile (by decide)]
    · rw [searchLetters_cons hc] at shares
      rw [searchLetters_cons hc, searchLetters_cons hc, shares.takeWhile (by decide)]

theorem searchOpening?_forked {opening : Nat} (shares : f.Shares opening x y)
    (hopening : searchOpening? x = some opening) : searchOpening? y = some opening := by
  rw [searchOpening?_eq, Option.ite_none_right_eq_some, Option.some.injEq] at hopening ⊢
  obtain ⟨hmark, rfl⟩ := hopening
  have hletters := searchLetters_forked (shares.mono (Nat.le_succ _))
  obtain ⟨rest, hrest⟩ := List.head?_eq_some_iff.mp hmark
  have behind := shares.drop
  rw [hrest] at behind
  obtain ⟨_, hright, _⟩ := behind.cons
  rw [hletters, hright]
  exact ⟨rfl, rfl⟩

theorem searchLetters_inside {q behind : List Char} (other : List Char)
    (hinside : searchLetters (q ++ behind) < q.length) :
    searchLetters (q ++ other) = searchLetters (q ++ behind) := by
  cases q with
  | nil => cases hinside
  | cons c q =>
    by_cases hc : c = '@'
    · subst hc
      have hletters : ((q ++ behind).takeWhile continuesName).length < q.length := by
        simp only [List.cons_append, searchLetters, List.length_cons] at hinside
        omega
      rw [List.cons_append, List.cons_append, searchLetters, searchLetters,
        Fork.Shares.takeWhile_inside other hletters]
    · rw [List.cons_append, searchLetters_cons hc] at hinside
      rw [List.cons_append, List.cons_append, searchLetters_cons hc, searchLetters_cons hc,
        ← List.cons_append, Fork.Shares.takeWhile_inside other hinside, List.cons_append]

theorem searchLetters_le (q : List Char) : searchLetters (q ++ f.right) ≤ q.length := by
  cases q with
  | nil => exact Nat.le_refl _
  | cons c q =>
    by_cases hc : c = '@'
    · subst hc
      have hletters := Fork.Shares.takeWhile_le (f := f) (q := q) (p := continuesName) (by decide)
      rw [List.cons_append, searchLetters, List.length_cons]
      omega
    · rw [List.cons_append, searchLetters_cons hc]
      exact Fork.Shares.takeWhile_le (q := c :: q) (by decide)

theorem searchOpening?_forked_none (shares : f.Shares count x y)
    (hopening : searchOpening? x = none) : searchOpening? y = none := by
  obtain rfl | ⟨q, _, _, rfl, rfl⟩ := shares
  · exact hopening
  · rw [searchOpening?_eq, if_neg]
    intro hmark
    rw [searchOpening?_eq, ite_eq_right_iff] at hopening
    have hinside : searchLetters (q ++ f.right) < q.length := by
      refine Nat.lt_of_le_of_ne (searchLetters_le q) fun hall => ?_
      rw [List.drop_left' hall.symm] at hmark
      exact absurd (Option.some.inj hmark) (by decide)
    refine absurd (hopening ?_) (by simp)
    rw [searchLetters_inside f.left hinside]
    rw [List.drop_append_of_le_length (Nat.le_of_lt hinside),
      List.head?_append_of_ne_nil] at hmark ⊢
    · exact hmark
    all_goals
      rw [ne_eq, List.drop_eq_nil_iff]
      omega

/-! ### Ends of lines -/

theorem atLineEnd_two (c d : Char) (x y : List Char) :
    atLineEnd (c :: d :: x) = atLineEnd (c :: d :: y) := by
  by_cases hfeed : c = '\n'
  · subst hfeed
    rfl
  · by_cases hreturn : c = '\r'
    · subst hreturn
      by_cases hboth : d = '\n'
      · subst hboth
        rfl
      · simp [atLineEnd, hboth]
    · simp [atLineEnd, hfeed, hreturn]

theorem atLineEnd_forked (shares : f.Shares 2 x y) : atLineEnd y = atLineEnd x := by
  obtain rfl | ⟨q, _, hcount, rfl, rfl⟩ := shares
  · rfl
  · match q, hcount with
    | c :: d :: q, _ => exact atLineEnd_two c d _ _

theorem atLineEnd_forked_none (shares : f.Shares count x y) (hend : atLineEnd x = false) :
    atLineEnd y = false := by
  obtain rfl | ⟨q, _, _, rfl, rfl⟩ := shares
  · exact hend
  · match q with
    | [] => rfl
    | [c] =>
      by_cases hfeed : c = '\n'
      · subst hfeed
        cases hend
      · by_cases hreturn : c = '\r'
        · subst hreturn
          rfl
        · simp [atLineEnd, hfeed, hreturn]
    | c :: d :: q => exact (atLineEnd_two c d _ _).trans hend

/-- The content of a line reaches at least as far as a character that ends no line. -/
theorem le_contentLength {q : List Char} {c : Char} (hlast : q.getLast? = some c)
    (hc : isLineBreak c = false) (behind : List Char) :
    q.length ≤ contentLength (q ++ behind) := by
  obtain ⟨before, rfl⟩ := List.getLast?_eq_some_iff.mp hlast
  have hstops : (c == '\n' || c == '\r') = false := hc
  rw [contentLength, Text.withoutTerminator, List.length_reverse, List.reverse_append,
    List.dropWhile_append]
  split
  · rw [List.reverse_concat, List.dropWhile_cons_of_neg (by simp [hstops])]
    simp
  · simp

/-! ### Whole lines -/

theorem isIdleLine_eq (text : List Char) :
    isIdleLine text =
      match Text.trimStart text with
      | [] => true
      | c :: _ => c == '#' := by
  rw [isIdleLine, Text.trim]
  cases hstart : Text.trimStart text with
  | nil => rfl
  | cons c rest =>
    have hsolid : isBlank c = false := by
      have hhead := List.head?_dropWhile_not isBlank text
      rw [← Text.trimStart, hstart] at hhead
      simpa using hhead
    have hend : ∃ more, Text.trimEnd (c :: rest) = c :: more := by
      rw [Text.trimEnd, List.reverse_cons, List.dropWhile_append]
      split
      · exact ⟨[], by rw [List.dropWhile_cons_of_neg (by simp [hsolid])]; rfl⟩
      · exact ⟨_, List.reverse_concat⟩
    obtain ⟨more, hmore⟩ := hend
    rw [hmore]

end Lexeme

namespace Fork

theorem trimStart_head (f : Fork) (behind : List Char) :
    ∃ c rest, Text.trimStart f.head = c :: rest ∧
      Text.trimStart (f.head ++ behind) = c :: rest ++ behind := by
  have hsome : Text.trimStart f.head ≠ [] := by
    intro hnone
    have hlast := List.dropWhile_eq_nil_iff.mp hnone f.last (by simp [head])
    rw [f.blank] at hlast
    cases hlast
  obtain ⟨c, rest, hstart⟩ := List.exists_cons_of_ne_nil hsome
  refine ⟨c, rest, hstart, ?_⟩
  rw [Text.trimStart, List.dropWhile_append, ← Text.trimStart, hstart]
  rfl

theorem isIdleLine_head (f : Fork) :
    Lexeme.isIdleLine (f.head ++ f.right) = Lexeme.isIdleLine (f.head ++ f.left) := by
  obtain ⟨c, rest, hstart, hleft⟩ := f.trimStart_head f.left
  obtain ⟨d, more, hagain, hright⟩ := f.trimStart_head f.right
  obtain ⟨rfl, rfl⟩ := List.cons.inj (hstart.symm.trans hagain)
  rw [Lexeme.isIdleLine_eq, Lexeme.isIdleLine_eq, hleft, hright]
  rfl

theorem margin_head (f : Fork) :
    (f.head ++ f.right).takeWhile Lexeme.isSpace =
      (f.head ++ f.left).takeWhile Lexeme.isSpace := by
  have hblank := f.blank
  have hinside : ((f.head ++ f.left).takeWhile Lexeme.isSpace).length < f.head.length := by
    have hlast : (f.last :: f.left).takeWhile Lexeme.isSpace = [] := by
      refine List.takeWhile_cons_of_neg fun hspace => ?_
      rw [Lexer.isBlank_of_isSpace hspace] at hblank
      cases hblank
    have hle := (List.takeWhile_prefix Lexeme.isSpace (l := f.stem)).length_le
    rw [head, List.append_assoc, List.singleton_append, List.takeWhile_append, hlast]
    split
    · simp
    · rw [List.length_append, List.length_singleton]
      exact Nat.lt_succ_of_le hle
  exact Shares.takeWhile_inside f.right hinside

theorem indentWidth_head (f : Fork) (tabSize : Nat) :
    Lexeme.indentWidth tabSize (f.head ++ f.right) =
      Lexeme.indentWidth tabSize (f.head ++ f.left) := by
  rw [Lexeme.indentWidth, Lexeme.indentWidth, f.margin_head]

end Fork

namespace Lexer

variable {done : Nat} {quote : Quote} {c : Char}

/-! ### Literal text -/

/-- How far the scan of literal text has looked that stops within the line. -/
def TextStop.reach (quote : Quote) : TextStop → Nat
  | .quote count => count + quote.size
  | .field count => count + 1
  | .lineEnd | .lineBreak _ => 0

theorem scanText_lt {stop : TextStop} (hscan : scanText quote done x = stop)
    (hreach : 0 < stop.reach quote) : done < stop.reach quote := by
  have hsize := quote.size_pos
  cases stop with
  | quote count =>
    have hle := (scanText_quote hscan).1
    exact Nat.lt_of_lt_of_le (Nat.lt_add_of_pos_right hsize) (Nat.add_le_add_right hle _)
  | field count => exact Nat.lt_succ_of_le (scanText_field hscan).1
  | lineEnd => cases hreach
  | lineBreak => cases hreach

/-- Neither an escape nor a doubled brace. -/
structure PlainAt (c : Char) (behind : List Char) : Prop where
  escape : c ≠ '\\'
  openBrace : c = '\x7b' → behind.head? ≠ some '\x7b'
  closeBrace : c = '\x7d' → behind.head? ≠ some '\x7d'

theorem PlainAt.intro {rest : List Char} (hone : c = '\\' → rest = [] → False)
    (htwo : ∀ d more, c = '\\' → rest = d :: more → False)
    (hopen : ∀ more, c = '\x7b' → rest = '\x7b' :: more → False)
    (hclose : ∀ more, c = '\x7d' → rest = '\x7d' :: more → False) : PlainAt c rest where
  escape := Quote.ne_backslash hone htwo
  openBrace hc hhead :=
    have ⟨more, hmore⟩ := List.head?_eq_some_iff.mp hhead
    hopen more hc hmore
  closeBrace hc hhead :=
    have ⟨more, hmore⟩ := List.head?_eq_some_iff.mp hhead
    hclose more hc hmore

theorem PlainAt.forked (plain : PlainAt c x) (shares : f.Shares count x y) : PlainAt c y where
  escape := plain.escape
  openBrace hc := shares.head?_ne (by decide) (plain.openBrace hc)
  closeBrace hc := shares.head?_ne (by decide) (plain.closeBrace hc)

theorem scanText_cons (plain : PlainAt c x) :
    scanText quote done (c :: x) =
      if quote.closes (c :: x) then .quote done
      else if c == '\x7b' then .field done
      else if !quote.triple && Lexeme.isLineBreak c then .lineBreak done
      else scanText quote (done + 1) x := by
  rw [scanText]
  · exact fun hc => absurd hc plain.escape
  · exact fun _ _ hc => absurd hc plain.escape
  · rintro rest hc rfl
    exact plain.openBrace hc rfl
  · rintro rest hc rfl
    exact plain.closeBrace hc rfl

theorem scanText_forked {stop : TextStop} (hscan : scanText quote done x = stop)
    (hreach : 0 < stop.reach quote) (shares : f.Shares (stop.reach quote - done) x y) :
    scanText quote done y = stop := by
  induction done, x using scanText.induct (q := quote) generalizing y with
  | case1 =>
    rw [scanText] at hscan
    subst hscan
    cases hreach
  | case2 =>
    rw [scanText] at hscan
    subst hscan
    cases hreach
  | case3 done c rest hend =>
    rw [scanText, if_pos hend] at hscan
    subst hscan
    cases hreach
  | case4 done c rest hend induction =>
    rw [scanText, if_neg hend] at hscan
    have hfar := scanText_lt hscan hreach
    obtain ⟨_, rfl, behind⟩ :=
      (shares.mono (show stop.reach quote - (done + 2) + 1 + 1 ≤ _ by omega)).cons
    have hsame := Lexeme.atLineEnd_forked (behind.mono (show 2 ≤ _ by omega))
    obtain ⟨_, rfl, further⟩ := behind.cons
    rw [scanText, hsame, if_neg hend]
    exact induction hscan further
  | case5 done rest induction =>
    rw [scanText] at hscan
    have hfar := scanText_lt hscan hreach
    obtain ⟨_, rfl, behind⟩ :=
      (shares.mono (show stop.reach quote - (done + 2) + 1 + 1 ≤ _ by omega)).cons
    obtain ⟨_, rfl, further⟩ := behind.cons
    rw [scanText]
    exact induction hscan further
  | case6 done rest induction =>
    rw [scanText] at hscan
    have hfar := scanText_lt hscan hreach
    obtain ⟨_, rfl, behind⟩ :=
      (shares.mono (show stop.reach quote - (done + 2) + 1 + 1 ≤ _ by omega)).cons
    obtain ⟨_, rfl, further⟩ := behind.cons
    rw [scanText]
    exact induction hscan further
  | case7 done c rest hone htwo hopen hclose hcloses =>
    have plain := PlainAt.intro hone htwo hopen hclose
    rw [scanText_cons plain, if_pos hcloses] at hscan
    subst hscan
    rw [TextStop.reach, Nat.add_sub_cancel_left] at shares
    have hright := Quote.closes_forked shares hcloses
    obtain ⟨_, rfl, behind⟩ := (shares.mono quote.size_pos).cons
    rw [scanText_cons (plain.forked behind), if_pos hright]
  | case8 done c rest hone htwo hopen hclose hcloses hbrace =>
    have plain := PlainAt.intro hone htwo hopen hclose
    rw [scanText_cons plain, if_neg hcloses, if_pos hbrace] at hscan
    subst hscan
    rw [TextStop.reach, Nat.add_sub_cancel_left] at shares
    obtain ⟨_, rfl, behind⟩ := shares.cons
    have hright := Quote.not_closes_forked shares plain.escape (Bool.eq_false_iff.mpr hcloses)
    rw [scanText_cons (plain.forked behind), hright, if_neg Bool.false_ne_true, if_pos hbrace]
  | case9 done c rest hone htwo hopen hclose hcloses hbrace hbreak =>
    rw [scanText_cons (PlainAt.intro hone htwo hopen hclose), if_neg hcloses, if_neg hbrace,
      if_pos hbreak] at hscan
    subst hscan
    cases hreach
  | case10 done c rest hone htwo hopen hclose hcloses hbrace hbreak induction =>
    have plain := PlainAt.intro hone htwo hopen hclose
    rw [scanText_cons plain, if_neg hcloses, if_neg hbrace, if_neg hbreak] at hscan
    have hfar := scanText_lt hscan hreach
    obtain ⟨_, rfl, behind⟩ :=
      (shares.mono (show stop.reach quote - (done + 1) + 1 ≤ _ by omega)).cons
    have hright := Quote.not_closes_forked shares plain.escape (Bool.eq_false_iff.mpr hcloses)
    rw [scanText_cons (plain.forked behind), hright, if_neg Bool.false_ne_true, if_neg hbrace,
      if_neg hbreak]
    exact induction hscan behind

/-- How far the scan of a format specification has looked that stops within the line. -/
def SpecStop.reach : SpecStop → Nat
  | .field count | .close count => count + 1
  | .broken _ => 0

theorem scanSpec_lt {stop : SpecStop} (hscan : scanSpec done x = stop) (hreach : 0 < stop.reach) :
    done < stop.reach := by
  cases stop with
  | field count => exact Nat.lt_succ_of_le (scanSpec_field hscan).1
  | close count => exact Nat.lt_succ_of_le (scanSpec_close hscan).1
  | broken => cases hreach

theorem scanSpec_forked {stop : SpecStop} (hscan : scanSpec done x = stop)
    (hreach : 0 < stop.reach) (shares : f.Shares (stop.reach - done) x y) :
    scanSpec done y = stop := by
  induction done, x using scanSpec.induct generalizing y with
  | case1 done =>
    rw [scanSpec] at hscan
    subst hscan
    cases hreach
  | case2 done =>
    rw [scanSpec] at hscan
    subst hscan
    cases hreach
  | case3 done c rest induction =>
    rw [scanSpec] at hscan
    have hfar := scanSpec_lt hscan hreach
    obtain ⟨_, rfl, behind⟩ :=
      (shares.mono (show stop.reach - (done + 2) + 1 + 1 ≤ _ by omega)).cons
    obtain ⟨_, rfl, further⟩ := behind.cons
    rw [scanSpec]
    exact induction hscan further
  | case4 done c rest hone htwo hopen =>
    have hc := Quote.ne_backslash hone htwo
    rw [scanSpec_cons hc, if_pos hopen] at hscan
    subst hscan
    rw [SpecStop.reach, Nat.add_sub_cancel_left] at shares
    obtain ⟨_, rfl, _⟩ := shares.cons
    rw [scanSpec_cons hc, if_pos hopen]
  | case5 done c rest hone htwo hopen hclose =>
    have hc := Quote.ne_backslash hone htwo
    rw [scanSpec_cons hc, if_neg hopen, if_pos hclose] at hscan
    subst hscan
    rw [SpecStop.reach, Nat.add_sub_cancel_left] at shares
    obtain ⟨_, rfl, _⟩ := shares.cons
    rw [scanSpec_cons hc, if_neg hopen, if_pos hclose]
  | case6 done c rest hone htwo hopen hclose hbreak =>
    rw [scanSpec_cons (Quote.ne_backslash hone htwo), if_neg hopen, if_neg hclose,
      if_pos hbreak] at hscan
    subst hscan
    cases hreach
  | case7 done c rest hone htwo hopen hclose hbreak induction =>
    have hc := Quote.ne_backslash hone htwo
    rw [scanSpec_cons hc, if_neg hopen, if_neg hclose, if_neg hbreak] at hscan
    have hfar := scanSpec_lt hscan hreach
    obtain ⟨_, rfl, behind⟩ := (shares.mono (show stop.reach - (done + 1) + 1 ≤ _ by omega)).cons
    rw [scanSpec_cons hc, if_neg hopen, if_neg hclose, if_neg hbreak]
    exact induction hscan behind

end Lexer

end ShellSyntax
