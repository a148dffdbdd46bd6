import ShellSyntax.Proofs.Lexer.RawText

/-!
Lexemes are not empty and end within their line. A word of a command is as long as it can be, and
where no word begins something else does.
-/

namespace ShellSyntax

namespace Lexeme

theorem takeWhile_length_le {p : Char → Bool} {text : List Char} :
    (text.takeWhile p).length ≤ text.length :=
  (List.takeWhile_sublist p).length_le

theorem not_mem_takeWhile {p : Char → Bool} {c : Char} (hc : p c = false) (text : List Char) :
    c ∉ text.takeWhile p := by
  intro hmem
  have hp := List.all_eq_true.mp List.all_takeWhile c hmem
  rw [hc] at hp
  cases hp

theorem continuesName_of_startsName {c : Char} (hstart : startsName c = true) :
    continuesName c = true := by
  simp only [startsName, continuesName, Text.isAlphanumeric, Bool.or_eq_true] at hstart ⊢
  exact hstart.imp_right .inl

theorem digitRun_le (text : List Char) : digitRun text ≤ text.length :=
  takeWhile_length_le

theorem fractionRun_le (text : List Char) : fractionRun text ≤ text.length := by
  unfold fractionRun
  split
  case h_1 rest =>
    have hdigits := digitRun_le rest
    rw [List.length_cons]
    omega
  case h_2 => exact Nat.zero_le _

theorem signRun_le (text : List Char) : signRun text ≤ text.length := by
  unfold signRun
  split
  · split <;> simp
  · exact Nat.le_refl _

theorem exponentRun_le (text : List Char) : exponentRun text ≤ text.length := by
  cases text with
  | nil => exact Nat.le_refl _
  | cons c rest =>
    simp only [exponentRun]
    split
    · split
      · exact Nat.zero_le _
      · have hsign := signRun_le rest
        have hdigits := digitRun_le (rest.drop (signRun rest))
        rw [List.length_drop] at hdigits
        rw [List.length_cons]
        omega
    · exact Nat.zero_le _

theorem imaginaryRun_le (text : List Char) : imaginaryRun text ≤ text.length := by
  unfold imaginaryRun
  split
  · split <;> simp
  · exact Nat.le_refl _

theorem two_le_of_startsRadix {text : List Char} (hradix : startsRadix text = true) :
    2 ≤ text.length := by
  unfold startsRadix at hradix
  split at hradix
  · simp
  · cases hradix

theorem numberLength_le (text : List Char) : numberLength text ≤ text.length := by
  unfold numberLength
  split
  case isTrue hradix =>
    have hletters := two_le_of_startsRadix hradix
    have hdigits : ((text.drop 2).takeWhile fun c => isHexDigit c || c == '_').length ≤
        (text.drop 2).length := takeWhile_length_le
    rw [List.length_drop] at hdigits
    omega
  case isFalse =>
    dsimp only
    generalize hwhole : digitRun text = whole
    generalize hfraction : whole + fractionRun (text.drop whole) = fraction
    generalize hexponent : fraction + exponentRun (text.drop fraction) = exponent
    have wholeLe := digitRun_le text
    have fractionLe := fractionRun_le (text.drop whole)
    have exponentLe := exponentRun_le (text.drop fraction)
    have imaginaryLe := imaginaryRun_le (text.drop exponent)
    rw [List.length_drop] at fractionLe exponentLe imaginaryLe
    omega

theorem numberLength_pos {text : List Char} (hstart : startsNumber text = true) :
    0 < numberLength text := by
  unfold numberLength
  split
  · omega
  · dsimp only
    unfold startsNumber at hstart
    split at hstart
    case h_1 c rest _ =>
      have hfraction : fractionRun (('.' :: c :: rest).drop (digitRun ('.' :: c :: rest))) ≠ 0 := by
        simp [digitRun, fractionRun, List.takeWhile]
      omega
    case h_2 c rest _ _ =>
      have hdigit : digitRun (c :: rest) ≠ 0 := by
        simp [digitRun, List.takeWhile, hstart]
      omega
    case h_3 => cases hstart

theorem endsWord_of_mem_word {text : List Char} {c : Char} (hc : c ∈ text.take (wordLength text)) :
    ∃ behind, endsWord c behind = false := by
  induction text with
  | nil => simp at hc
  | cons first rest induction =>
    rw [wordLength] at hc
    split at hc
    case isTrue => simp at hc
    case isFalse hgoes =>
      obtain rfl | hc := List.mem_cons.mp hc
      · exact ⟨rest, Bool.not_eq_true _ ▸ hgoes⟩
      · exact induction hc

theorem wordLength_le (text : List Char) : wordLength text ≤ text.length := by
  induction text with
  | nil => exact Nat.le_refl _
  | cons c rest induction =>
    simp only [wordLength, List.length_cons]
    split <;> omega

theorem contentLength_le (text : List Char) : contentLength text ≤ text.length := by
  have hle : (text.reverse.dropWhile fun c => c == '\n' || c == '\r').length ≤
      text.reverse.length := (List.dropWhile_sublist _).length_le
  simpa [contentLength, Text.withoutTerminator] using hle

theorem withoutTerminator_cons {c : Char} {rest : List Char} (hc : isLineBreak c = false) :
    Text.withoutTerminator (c :: rest) = c :: Text.withoutTerminator rest := by
  simp only [Text.withoutTerminator, List.reverse_cons]
  rw [List.dropWhile_append]
  split
  case isTrue hempty =>
    have hstops : (c == '\n' || c == '\r') = false := hc
    rw [List.isEmpty_iff] at hempty
    simp [List.dropWhile, hstops, hempty]
  case isFalse => simp

theorem contentLength_pos {c : Char} {rest : List Char} (hc : isLineBreak c = false) :
    0 < contentLength (c :: rest) := by
  simp [contentLength, withoutTerminator_cons hc]

theorem searchEnd?_cons {c : Char} {rest : List Char} (hc : c ≠ '\\') :
    searchEnd? (c :: rest) =
      if c == '\x60' then some 1
      else if isLineBreak c then none
      else (searchEnd? rest).map (· + 1) := by
  rw [searchEnd?]
  · exact fun h => absurd h hc
  · exact fun _ _ h => absurd h hc

theorem searchEnd?_bounds {text : List Char} {length : Nat} (hend : searchEnd? text = some length) :
    0 < length ∧ length ≤ text.length := by
  induction text using searchEnd?.induct generalizing length with
  | case1 => simp [searchEnd?] at hend
  | case2 => simp [searchEnd?] at hend
  | case3 c rest induction =>
    simp only [searchEnd?, Option.map_eq_some_iff] at hend
    obtain ⟨inner, hinner, rfl⟩ := hend
    have bounds := induction hinner
    simp only [List.length_cons]
    omega
  | case4 c rest hone htwo hclose =>
    rw [searchEnd?, if_pos hclose] at hend
    · cases hend
      simp
    · exact hone
    · exact htwo
  | case5 c rest hone htwo hclose hbreak =>
    rw [searchEnd?, if_neg hclose, if_pos hbreak] at hend
    · cases hend
    · exact hone
    · exact htwo
  | case6 c rest hone htwo hclose hbreak induction =>
    rw [searchEnd?, if_neg hclose, if_neg hbreak, Option.map_eq_some_iff] at hend
    · obtain ⟨inner, hinner, rfl⟩ := hend
      have bounds := induction hinner
      simp only [List.length_cons]
      omega
    · exact hone
    · exact htwo

theorem searchOpening?_bounds {text : List Char} {opening : Nat}
    (hopening : searchOpening? text = some opening) : 0 < opening ∧ opening ≤ text.length := by
  unfold searchOpening? at hopening
  dsimp only at hopening
  rw [Option.ite_none_right_eq_some, Option.some.injEq] at hopening
  obtain ⟨hmark, rfl⟩ := hopening
  obtain ⟨rest, hdrop⟩ := List.head?_eq_some_iff.mp hmark
  have hlength := congrArg List.length hdrop
  rw [List.length_drop, List.length_cons] at hlength
  omega

end Lexeme

theorem Spelling.firstMatch_leads {table : List String} {text : List Char} {op : String}
    (hmatch : firstMatch table text = some op) : 0 < op.length ∧ op.toList <+: text := by
  have hfound := List.find?_some hmatch
  rw [Bool.and_eq_true, Bool.not_eq_true', List.isPrefixOf_iff_prefix] at hfound
  refine ⟨?_, hfound.2⟩
  rw [Nat.pos_iff_ne_zero]
  intro hzero
  have hempty : op = "" := String.length_eq_zero_iff.mp hzero
  simp [hempty] at hfound

theorem Spelling.firstMatch_take {table : List String} {text : List Char} {op : String}
    (hmatch : firstMatch table text = some op) : text.take op.length = op.toList := by
  have htext := List.prefix_iff_eq_take.mp (firstMatch_leads hmatch).2
  rw [String.length_toList] at htext
  exact htext.symm

theorem Spelling.firstMatch_le {table : List String} {text : List Char} {op : String}
    (hmatch : firstMatch table text = some op) : op.length ≤ text.length := by
  have hle := (firstMatch_leads hmatch).2.length_le
  rwa [String.length_toList] at hle

theorem Spelling.isSome_firstMatch {table : List String} {text : List Char} {op : String}
    (hop : op ∈ table) (hsome : op.isEmpty = false) (hleads : op.toList <+: text) :
    (firstMatch table text).isSome = true := by
  rw [firstMatch, List.find?_isSome]
  exact ⟨op, hop, by simp [hsome, List.isPrefixOf_iff_prefix.mpr hleads]⟩

namespace Lexeme

/-! ### Words of a command -/

/-- The name of a variable of the environment starts behind the sign at the start of the text. -/
def namesVariable : List Char → Bool
  | '$' :: c :: _ => startsName c
  | _ => false

theorem rest_of_namesVariable {text : List Char} (hnames : namesVariable text = true) :
    ∃ c rest, text = '$' :: c :: rest ∧ startsName c = true := by
  unfold namesVariable at hnames
  split at hnames
  · exact ⟨_, _, rfl, hnames⟩
  · cases hnames

/-- What begins here is no word of a command. -/
inductive StartsOther (text : List Char) : Prop
  | space (hspace : text.head?.any isSpace = true)
  | lineBreak (hbreak : text.head?.any isLineBreak = true)
  | string (hopening : (StringLetters.opening? text).isSome = true)
  | search (hopening : (searchOpening? text).isSome = true)
  | envVariable (hname : namesVariable text = true)
  | operator (hmatch : (Spelling.firstMatch Spelling.commandOperators text).isSome = true)

theorem startsOther_operator (spelling rest : List Char)
    (hop : String.ofList spelling ∈ Spelling.commandOperators) :
    StartsOther (spelling ++ rest) := by
  have hsome : ∀ op ∈ Spelling.commandOperators, op.isEmpty = false := by decide
  refine .operator (Spelling.isSome_firstMatch hop (hsome _ hop) ?_)
  rw [String.toList_ofList]
  exact List.prefix_append spelling rest

theorem startsOther_quote {c : Char} (rest : List Char) (hquote : c = '\'' ∨ c = '"') :
    StartsOther (c :: rest) := by
  refine .string ?_
  have hletters : continuesName c = false := by
    obtain rfl | rfl := hquote <;> decide
  have hmark : (c == '\'' || c == '"') = true := by simpa using hquote
  have hvalid : StringLetters.isValid [] = true := by decide
  simp [StringLetters.opening?, hletters, Quote.opening?, hmark, hvalid]

theorem startsOther_backtick (rest : List Char) : StartsOther ('\x60' :: rest) := by
  refine .search ?_
  simp [searchOpening?]

theorem startsOther_dollar {c : Char} (rest : List Char) (hopener : c ∈ ['(', '[', '\x7b']) :
    StartsOther ('$' :: c :: rest) := by
  simp only [List.mem_cons, List.not_mem_nil, or_false] at hopener
  obtain rfl | rfl | rfl := hopener
  · exact startsOther_operator ['$', '('] rest (by decide)
  · exact startsOther_operator ['$', '['] rest (by decide)
  · exact startsOther_operator ['$', '\x7b'] rest (by decide)

theorem startsOther_sign {c : Char} (rest : List Char)
    (hsign : c ∈ ['\'', '"', '\x60', '(', ')', '[', ']', '\x7b', '\x7d', '|', '&', '<', '>', '!']) :
    StartsOther (c :: rest) := by
  rw [List.mem_cons, List.mem_cons, List.mem_cons] at hsign
  obtain hquote | hquote | rfl | hop := hsign
  · exact startsOther_quote rest (.inl hquote)
  · exact startsOther_quote rest (.inr hquote)
  · exact startsOther_backtick rest
  · have hops : ['(', ')', '[', ']', '\x7b', '\x7d', '|', '&', '<', '>', '!'].all
        (fun c => Spelling.commandOperators.contains (String.ofList [c])) = true := by decide
    exact startsOther_operator [c] rest
      (List.contains_iff_mem.mp (List.all_eq_true.mp hops c hop))

/-- Where a word ends, a space, a line break, a literal, a variable or an operator begins. -/
theorem startsOther_of_endsWord {c : Char} {rest : List Char} (hends : endsWord c rest = true) :
    StartsOther (c :: rest) := by
  unfold endsWord at hends
  split at hends
  case h_1 =>
    split at hends
    case h_1 next rest =>
      rw [Bool.or_eq_true, List.contains_iff_mem] at hends
      obtain hname | hopener := hends
      · exact .envVariable hname
      · exact startsOther_dollar rest hopener
    case h_2 => cases hends
  case h_2 =>
    split at hends
    case h_1 rest => exact startsOther_operator ['@', '('] rest (by decide)
    case h_2 rest => exact startsOther_operator ['@', '$', '('] rest (by decide)
    case h_3 => cases hends
  case h_3 =>
    rw [Bool.or_eq_true, Bool.or_eq_true, List.contains_iff_mem] at hends
    obtain (hspace | hbreak) | hsign := hends
    · exact .space hspace
    · exact .lineBreak hbreak
    · exact startsOther_sign rest hsign

theorem startsOther_of_wordLength {text : List Char} (hrest : text ≠ [])
    (hlength : wordLength text = 0) : StartsOther text := by
  cases text with
  | nil => exact absurd rfl hrest
  | cons c rest =>
    rw [wordLength] at hlength
    split at hlength
    case isTrue hends => exact startsOther_of_endsWord hends
    case isFalse => cases hlength

theorem wordLength_drop (text : List Char) : wordLength (text.drop (wordLength text)) = 0 := by
  induction text with
  | nil => rfl
  | cons c rest induction =>
    rw [wordLength]
    split
    case isTrue hends => rw [List.drop_zero, wordLength, if_pos hends]
    case isFalse => rwa [List.drop_succ_cons]

end Lexeme

namespace Quote

theorem size_pos (quote : Quote) : 0 < quote.size := by
  unfold size
  split <;> decide

variable {quote : Quote}

theorem mark_of_opening? {text : List Char} (hopening : opening? text = some quote) :
    quote.mark = '\'' ∨ quote.mark = '"' := by
  cases text with
  | nil => cases hopening
  | cons c rest =>
    simp only [opening?, Option.ite_none_right_eq_some, Option.some.injEq] at hopening
    obtain ⟨hmark, rfl⟩ := hopening
    simpa using hmark

theorem mark_ne_backslash (hmark : quote.mark = '\'' ∨ quote.mark = '"') :
    quote.mark ≠ '\\' := by
  obtain hmark | hmark := hmark <;> rw [hmark] <;> decide

theorem mark_no_lineBreak (hmark : quote.mark = '\'' ∨ quote.mark = '"') :
    Lexeme.isLineBreak quote.mark = false := by
  obtain hmark | hmark := hmark <;> rw [hmark] <;> decide

theorem mark_ne_lineFeed (hmark : quote.mark = '\'' ∨ quote.mark = '"') : quote.mark ≠ '\n' := by
  obtain hmark | hmark := hmark <;> rw [hmark] <;> decide

theorem head_of_closes {c : Char} {rest : List Char} (hcloses : quote.closes (c :: rest) = true) :
    c = quote.mark := by
  obtain ⟨more, hmore⟩ := List.isPrefixOf_iff_prefix.mp hcloses
  obtain ⟨size, hsize⟩ := Nat.exists_eq_succ_of_ne_zero (Nat.ne_of_gt quote.size_pos)
  rw [hsize, List.replicate_succ, List.cons_append] at hmore
  exact (List.cons.inj hmore).1.symm

theorem take_of_closes {text : List Char} (hcloses : quote.closes text = true) :
    text.take quote.size = List.replicate quote.size quote.mark := by
  have hleads := List.prefix_iff_eq_take.mp (List.isPrefixOf_iff_prefix.mp hcloses)
  rw [List.length_replicate] at hleads
  exact hleads.symm

theorem backslash_closes {text : List Char} (hcloses : quote.closes text = true)
    (hmark : quote.mark ≠ '\\') : '\\' ∉ text.take quote.size := by
  rw [take_of_closes hcloses]
  exact fun hmem => hmark (List.eq_of_mem_replicate hmem).symm

theorem ne_backslash {c : Char} {rest : List Char} (hone : c = '\\' → rest = [] → False)
    (htwo : ∀ d more, c = '\\' → rest = d :: more → False) : c ≠ '\\' := by
  intro hc
  cases rest with
  | nil => exact hone hc rfl
  | cons d more => exact htwo d more hc rfl

theorem closingEnd?_cons {c : Char} {rest : List Char} (hc : c ≠ '\\') :
    quote.closingEnd? (c :: rest) =
      if quote.closes (c :: rest) then some quote.size
      else if !quote.triple && Lexeme.isLineBreak c then none
      else (quote.closingEnd? rest).map (· + 1) := by
  rw [closingEnd?]
  · exact fun h => absurd h hc
  · exact fun _ _ h => absurd h hc

theorem closingEnd?_bounds {text : List Char} {length : Nat}
    (hend : quote.closingEnd? text = some length) : 0 < length ∧ length ≤ text.length := by
  induction text using closingEnd?.induct (q := quote) generalizing length with
  | case1 => simp [closingEnd?] at hend
  | case2 => simp [closingEnd?] at hend
  | case3 c rest induction =>
    simp only [closingEnd?, Option.map_eq_some_iff] at hend
    obtain ⟨inner, hinner, rfl⟩ := hend
    have bounds := induction hinner
    simp only [List.length_cons]
    omega
  | case4 c rest hone htwo hcloses =>
    rw [closingEnd?, if_pos hcloses] at hend
    · cases hend
      refine ⟨size_pos quote, ?_⟩
      simpa using (List.isPrefixOf_iff_prefix.mp hcloses).length_le
    · exact hone
    · exact htwo
  | case5 c rest hone htwo hcloses hbreak =>
    rw [closingEnd?, if_neg hcloses, if_pos hbreak] at hend
    · cases hend
    · exact hone
    · exact htwo
  | case6 c rest hone htwo hcloses hbreak induction =>
    rw [closingEnd?, if_neg hcloses, if_neg hbreak, Option.map_eq_some_iff] at hend
    · obtain ⟨inner, hinner, rfl⟩ := hend
      have bounds := induction hinner
      simp only [List.length_cons]
      omega
    · exact hone
    · exact htwo

end Quote

namespace StringLetters

variable {text letters : List Char} {quote : Quote}

theorem quote_of_opening? (hopening : opening? text = some (letters, quote)) :
    letters = text.takeWhile Lexeme.continuesName ∧
      Quote.opening? (text.drop letters.length) = some quote := by
  unfold opening? at hopening
  dsimp only at hopening
  split at hopening
  case h_2 => cases hopening
  case h_1 found hquote =>
    rw [Option.ite_none_right_eq_some, Option.some.injEq, Prod.mk.injEq] at hopening
    obtain ⟨_, rfl, rfl⟩ := hopening
    exact ⟨rfl, hquote⟩

theorem mark_of_opening? (hopening : opening? text = some (letters, quote)) :
    quote.mark = '\'' ∨ quote.mark = '"' :=
  Quote.mark_of_opening? (quote_of_opening? hopening).2

theorem opening?_bounds (hopening : opening? text = some (letters, quote)) :
    letters.length + quote.size ≤ text.length ∧ quote.closes (text.drop letters.length) = true ∧
      letters = text.take letters.length := by
  obtain ⟨hletters, hquote⟩ := quote_of_opening? hopening
  have hcloses := Lexer.closes_of_opening hquote
  have hsize := Lexer.size_le_of_closes hcloses
  rw [List.length_drop] at hsize
  have hpositive := Quote.size_pos quote
  refine ⟨by omega, hcloses, ?_⟩
  exact List.prefix_iff_eq_take.mp (hletters ▸ List.takeWhile_prefix _)

theorem backslash_opening (hopening : opening? text = some (letters, quote)) :
    '\\' ∉ text.take (letters.length + quote.size) := by
  obtain ⟨_, hcloses, htake⟩ := opening?_bounds hopening
  rw [List.take_add, ← htake, List.mem_append, not_or]
  refine ⟨?_, Quote.backslash_closes hcloses (Quote.mark_ne_backslash (mark_of_opening? hopening))⟩
  rw [(quote_of_opening? hopening).1]
  exact Lexeme.not_mem_takeWhile (by decide) text

theorem quote_mem_opening (hopening : opening? text = some (letters, quote)) :
    '\'' ∈ text.take (letters.length + quote.size) ∨
      '"' ∈ text.take (letters.length + quote.size) := by
  obtain ⟨_, hcloses, _⟩ := opening?_bounds hopening
  have hquote : quote.mark ∈ text.take (letters.length + quote.size) := by
    rw [List.take_add, Quote.take_of_closes hcloses]
    exact List.mem_append_right _ (List.mem_replicate.mpr ⟨Nat.ne_of_gt quote.size_pos, rfl⟩)
  rcases mark_of_opening? hopening with hmark | hmark
  · exact .inl (hmark ▸ hquote)
  · exact .inr (hmark ▸ hquote)

end StringLetters

namespace Lexer

theorem scanText_quote {quote : Quote} {text : List Char} {done count : Nat}
    (hscan : scanText quote done text = .quote count) :
    done ≤ count ∧ quote.closes (text.drop (count - done)) = true := by
  induction done, text using scanText.induct (q := quote) generalizing count with
  | case1 => simp [scanText] at hscan
  | case2 => simp [scanText] at hscan
  | case3 done c rest hend => simp [scanText, hend] at hscan
  | case4 done c rest hend induction =>
    rw [scanText, if_neg hend] at hscan
    obtain ⟨hle, hcloses⟩ := induction hscan
    refine ⟨by omega, ?_⟩
    rwa [show count - done = count - (done + 2) + 2 by omega]
  | case5 done rest induction =>
    rw [scanText] at hscan
    obtain ⟨hle, hcloses⟩ := induction hscan
    refine ⟨by omega, ?_⟩
    rwa [show count - done = count - (done + 2) + 2 by omega]
  | case6 done rest induction =>
    rw [scanText] at hscan
    obtain ⟨hle, hcloses⟩ := induction hscan
    refine ⟨by omega, ?_⟩
    rwa [show count - done = count - (done + 2) + 2 by omega]
  | case7 done c rest h1 h2 h3 h4 hcloses =>
    rw [scanText, if_pos hcloses] at hscan <;> try assumption
    cases hscan
    simpa using hcloses
  | case8 done c rest h1 h2 h3 h4 hcloses hbrace =>
    rw [scanText, if_neg hcloses, if_pos hbrace] at hscan <;> try assumption
    cases hscan
  | case9 done c rest h1 h2 h3 h4 hcloses hbrace hbreak =>
    rw [scanText, if_neg hcloses, if_neg hbrace, if_pos hbreak] at hscan <;> try assumption
    cases hscan
  | case10 done c rest h1 h2 h3 h4 hcloses hbrace hbreak induction =>
    rw [scanText, if_neg hcloses, if_neg hbrace, if_neg hbreak] at hscan <;> try assumption
    obtain ⟨hle, hcloses⟩ := induction hscan
    refine ⟨by omega, ?_⟩
    rwa [show count - done = count - (done + 1) + 1 by omega]

theorem scanText_field {quote : Quote} {text : List Char} {done count : Nat}
    (hscan : scanText quote done text = .field count) :
    done ≤ count ∧ (text.drop (count - done)).head? = some '\x7b' := by
  induction done, text using scanText.induct (q := quote) generalizing count with
  | case1 => simp [scanText] at hscan
  | case2 => simp [scanText] at hscan
  | case3 done c rest hend => simp [scanText, hend] at hscan
  | case4 done c rest hend induction =>
    rw [scanText, if_neg hend] at hscan
    obtain ⟨hle, hbrace⟩ := induction hscan
    refine ⟨by omega, ?_⟩
    rwa [show count - done = count - (done + 2) + 2 by omega]
  | case5 done rest induction =>
    rw [scanText] at hscan
    obtain ⟨hle, hbrace⟩ := induction hscan
    refine ⟨by omega, ?_⟩
    rwa [show count - done = count - (done + 2) + 2 by omega]
  | case6 done rest induction =>
    rw [scanText] at hscan
    obtain ⟨hle, hbrace⟩ := induction hscan
    refine ⟨by omega, ?_⟩
    rwa [show count - done = count - (done + 2) + 2 by omega]
  | case7 done c rest h1 h2 h3 h4 hcloses =>
    rw [scanText, if_pos hcloses] at hscan <;> try assumption
    cases hscan
  | case8 done c rest h1 h2 h3 h4 hcloses hbrace =>
    rw [scanText, if_neg hcloses, if_pos hbrace] at hscan <;> try assumption
    cases hscan
    simpa using hbrace
  | case9 done c rest h1 h2 h3 h4 hcloses hbrace hbreak =>
    rw [scanText, if_neg hcloses, if_neg hbrace, if_pos hbreak] at hscan <;> try assumption
    cases hscan
  | case10 done c rest h1 h2 h3 h4 hcloses hbrace hbreak induction =>
    rw [scanText, if_neg hcloses, if_neg hbrace, if_neg hbreak] at hscan <;> try assumption
    obtain ⟨hle, hbrace⟩ := induction hscan
    refine ⟨by omega, ?_⟩
    rwa [show count - done = count - (done + 1) + 1 by omega]

theorem scanSpec_cons {c : Char} {rest : List Char} {done : Nat} (hc : c ≠ '\\') :
    scanSpec done (c :: rest) =
      if c == '\x7b' then .field done
      else if c == '\x7d' then .close done
      else if Lexeme.isLineBreak c then .broken done
      else scanSpec (done + 1) rest := by
  rw [scanSpec]
  · exact fun h => absurd h hc
  · exact fun _ _ h => absurd h hc

theorem scanSpec_field {text : List Char} {done count : Nat}
    (hscan : scanSpec done text = .field count) :
    done ≤ count ∧ (text.drop (count - done)).head? = some '\x7b' := by
  induction done, text using scanSpec.induct generalizing count with
  | case1 => simp [scanSpec] at hscan
  | case2 => simp [scanSpec] at hscan
  | case3 done c rest induction =>
    rw [scanSpec] at hscan
    obtain ⟨hle, hbrace⟩ := induction hscan
    refine ⟨by omega, ?_⟩
    rwa [show count - done = count - (done + 2) + 2 by omega]
  | case4 done c rest h1 h2 hbrace =>
    rw [scanSpec, if_pos hbrace] at hscan <;> try assumption
    cases hscan
    simpa using hbrace
  | case5 done c rest h1 h2 hopen hbrace =>
    rw [scanSpec, if_neg hopen, if_pos hbrace] at hscan <;> try assumption
    cases hscan
  | case6 done c rest h1 h2 hopen hclose hbreak =>
    rw [scanSpec, if_neg hopen, if_neg hclose, if_pos hbreak] at hscan <;> try assumption
    cases hscan
  | case7 done c rest h1 h2 hopen hclose hbreak induction =>
    rw [scanSpec, if_neg hopen, if_neg hclose, if_neg hbreak] at hscan <;> try assumption
    obtain ⟨hle, hbrace⟩ := induction hscan
    refine ⟨by omega, ?_⟩
    rwa [show count - done = count - (done + 1) + 1 by omega]

theorem scanSpec_close {text : List Char} {done count : Nat}
    (hscan : scanSpec done text = .close count) :
    done ≤ count ∧ (text.drop (count - done)).head? = some '\x7d' := by
  induction done, text using scanSpec.induct generalizing count with
  | case1 => simp [scanSpec] at hscan
  | case2 => simp [scanSpec] at hscan
  | case3 done c rest induction =>
    rw [scanSpec] at hscan
    obtain ⟨hle, hbrace⟩ := induction hscan
    refine ⟨by omega, ?_⟩
    rwa [show count - done = count - (done + 2) + 2 by omega]
  | case4 done c rest h1 h2 hbrace =>
    rw [scanSpec, if_pos hbrace] at hscan <;> try assumption
    cases hscan
  | case5 done c rest h1 h2 hopen hbrace =>
    rw [scanSpec, if_neg hopen, if_pos hbrace] at hscan <;> try assumption
    cases hscan
    simpa using hbrace
  | case6 done c rest h1 h2 hopen hclose hbreak =>
    rw [scanSpec, if_neg hopen, if_neg hclose, if_pos hbreak] at hscan <;> try assumption
    cases hscan
  | case7 done c rest h1 h2 hopen hclose hbreak induction =>
    rw [scanSpec, if_neg hopen, if_neg hclose, if_neg hbreak] at hscan <;> try assumption
    obtain ⟨hle, hbrace⟩ := induction hscan
    refine ⟨by omega, ?_⟩
    rwa [show count - done = count - (done + 1) + 1 by omega]

end Lexer

end ShellSyntax
