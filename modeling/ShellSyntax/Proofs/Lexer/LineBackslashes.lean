import ShellSyntax.Proofs.Lexer.ForkedRuns
import ShellSyntax.Proofs.Lexer.LineEndTokens

/-!
Backslashes that end a line. The lexer looks for one where a token starts, and no token but a word
takes one in that stands behind its first character, if it is outside comments, literals and raw
text.
-/

namespace ShellSyntax

open Text
open Lexeme (isLineBreak)

/-! ### Tokens that hold backslashes -/

/-- The text of such tokens is taken as it is: comments, literals, searches and raw text. -/
def TokenKind.IsRaw (kind : TokenKind) : Prop :=
  kind ∈ [TokenKind.comment, .string, .fstringMiddle, .pathSearch, .macroParam]

instance (kind : TokenKind) : Decidable kind.IsRaw :=
  inferInstanceAs (Decidable (_ ∈ _))

namespace Lexeme

theorem not_break_word {text : List Char} {c : Char} (hc : c ∈ text.take (wordLength text)) :
    isLineBreak c = false := by
  obtain ⟨_, hgoes⟩ := endsWord_of_mem_word hc
  rw [← Bool.not_eq_true]
  intro hbreak
  simp only [isLineBreak, Bool.or_eq_true, beq_iff_eq] at hbreak
  obtain rfl | rfl := hbreak <;> cases hgoes

theorem atLineEnd_of_append {text behind : List Char} (hend : atLineEnd (text ++ behind) = true) :
    atLineEnd text = true := by
  cases text with
  | nil => rfl
  | cons c rest =>
    unfold atLineEnd at hend
    cases rest <;> split at hend <;> simp_all [atLineEnd]

end Lexeme

theorem Lexeme.isLineBreak_of_atLineEnd {text : List Char} {c : Char} (hend : atLineEnd text = true)
    (hc : text.head? = some c) : isLineBreak c = true := by
  obtain ⟨rest, rfl⟩ := List.head?_eq_some_iff.mp hc
  unfold atLineEnd at hend
  split at hend <;> simp_all [isLineBreak]

/-- A token that spans a character of the text holds it, unless its text was changed. -/
theorem Tiled.char_of_contains {text : List Char} {found : List Token} {p : Position} {i : Nat}
    {c : Char} (tiled : Tiled text found p) (hchar : text[i]? = some c) :
    ∀ token ∈ found, Contains text token i →
      token.kind = .macroParam ∨ token.text.toList[i - offset text token.start]? = some c := by
  induction tiled with
  | start => simp
  | @token found token _ _ hverbatim induction =>
    refine List.forall_mem_append.mpr ⟨induction, List.forall_mem_singleton.mpr fun hcontains => ?_⟩
    obtain ⟨k, rfl⟩ := Nat.exists_eq_add_of_le hcontains.1
    have hstop := hcontains.2
    right
    rw [hverbatim.1, slice, Nat.add_sub_cancel_left, List.getElem?_take_of_lt (by omega),
      List.getElem?_drop]
    exact hchar
  | skip _ _ _ induction => exact induction
  | @layout found token _ _ _ hstop induction =>
    refine List.forall_mem_append.mpr ⟨induction, List.forall_mem_singleton.mpr fun hcontains => ?_⟩
    rw [Contains, hstop] at hcontains
    omega
  | @newline found token _ _ _ _ hend _ induction =>
    refine List.forall_mem_append.mpr ⟨induction, List.forall_mem_singleton.mpr fun hcontains => ?_⟩
    obtain ⟨hi, _⟩ := List.getElem?_eq_some_iff.mp hchar
    exact absurd (Nat.le_trans hend hcontains.1) (Nat.not_le_of_lt hi)
  | body _ hbody _ _ _ induction =>
    exact List.forall_mem_append.mpr
      ⟨induction, List.forall_mem_singleton.mpr fun _ => .inl hbody.1⟩

inductive Token.Backslashes (token : Token) : Prop
  | raw (hraw : token.kind.IsRaw)
  | none (hnone : '\\' ∉ token.text.toList)
  | word (hkind : token.kind = .word) (hbreaks : ∀ c ∈ token.text.toList, isLineBreak c = false)
  | error (hkind : token.kind = .error) (hlength : token.text.toList.length ≤ 1)
  | lineEnd (hkind : token.kind = .newline ∨ token.kind = .nl)

namespace Lexer

open Outcome

variable {l l' : Lexer} {token : Token}

theorem Plain.backslashes {kind : TokenKind} {count : Nat} (plain : Plain l kind count) :
    (l.cutToken kind count).Backslashes := by
  have cut {chars : List Char} (htake : l.rest.take count = chars) (hnone : '\\' ∉ chars) :
      (l.cutToken kind count).Backslashes :=
    .none (by rwa [cutToken, String.toList_ofList, htake])
  cases plain with
  | space =>
    exact cut (List.prefix_iff_eq_take.mp (List.takeWhile_prefix _)).symm
      (Lexeme.not_mem_takeWhile (by decide) _)
  | newline => exact .lineEnd (.inl rfl)
  | nl => exact .lineEnd (.inr rfl)
  | comment | string | pathSearch => exact .raw (by simp [TokenKind.IsRaw])
  | word hcommand hlength =>
    refine .word rfl fun c hc => ?_
    rw [cutToken, String.toList_ofList, ← hlength] at hc
    exact Lexeme.not_break_word hc
  | number => exact cut rfl (Lexeme.not_mem_number (by decide))
  | name =>
    exact cut (List.prefix_iff_eq_take.mp (List.takeWhile_prefix _)).symm
      (Lexeme.not_mem_takeWhile (by decide +kernel) _)
  | op hmatch _ _ hknown =>
    exact cut (Spelling.firstMatch_take hmatch) (Spelling.backslash_operators _ hknown)
  | odd =>
    refine .error rfl ?_
    rw [cutToken, String.toList_ofList]
    exact List.length_take_le _ _

theorem Adds.backslashes (adds : Adds l l' token) : token.Backslashes := by
  have hliterals (kind : TokenKind) (hliteral : IsLiteral kind) : kind.IsRaw := by
    cases kind <;> revert hliteral <;> decide
  cases adds with
  | closing _ _ _ htoken =>
    refine .none ?_
    simp only [closingTokens, missingNewline, List.mem_append, List.mem_singleton] at htoken
    obtain hnewline | hdedent | rfl := htoken
    · split at hnewline
      · simp [List.mem_singleton.mp hnewline]
      · cases hnewline
    · simp [List.eq_of_mem_replicate hdedent]
    · simp
  | comment => exact .raw (by simp [TokenKind.IsRaw])
  | behindComment | emptyLine => exact .lineEnd (.inr rfl)
  | plain hplain => exact hplain.backslashes
  | envName m =>
    refine .none ?_
    rw [cutToken, String.toList_ofList, ← List.prefix_iff_eq_take.mp (List.takeWhile_prefix _)]
    exact Lexeme.not_mem_takeWhile (by decide +kernel) _
  | fstringStart hopening =>
    refine .none ?_
    rw [cutToken, String.toList_ofList]
    exact StringLetters.backslash_opening hopening
  | fstringEnd hcloses hmark =>
    refine .none ?_
    rw [cutToken, String.toList_ofList]
    exact Quote.backslash_closes hcloses hmark
  | other _ hplain =>
    obtain hliteral | ⟨hnone, _⟩ := hplain
    · exact .raw (hliterals token.kind hliteral)
    · exact .none hnone

theorem Reaches.backslashes {source : Source} {tabSize : Nat} {found : List Token}
    (reached : Reaches source tabSize found l) : ∀ token ∈ found, token.Backslashes := by
  have hall := (Adds.invariant Adds.backslashes fun _ => .none (by simp [Token.endMarker])).reaches
    (by simp) reached
  exact fun token htoken => hall token (List.mem_append_left _ htoken)

/-! ### Where words start -/

/-- Outside literals the rest of a line behind a backslash that ends it is skipped. -/
theorem step_continuation {rest : List Char} (houtside : l.Outside) (hrest : l.rest = '\\' :: rest)
    (hend : Lexeme.atLineEnd rest = true) :
    step l = .ok () { l.skipLine with continued := true } := by
  rw [step_of_outside (by simp [hrest]) houtside]
  simp [scanToken, run_bind, run_get, run_set, hrest, hend, Lexeme.isSpace, Lexeme.isLineBreak]

variable {text : List Char} {source : Source} {tabSize : Nat} {before found after : List Token}

theorem rest_of_continuesLine (cursor : Cursor text l) (placed : Placed text l)
    (hrest : l.rest ≠ []) (continues : ContinuesLine text (offset text l.here)) :
    ∃ rest, l.rest = '\\' :: rest ∧ Lexeme.atLineEnd rest = true := by
  obtain ⟨hchar, hend⟩ := continues
  obtain ⟨c, rest, hcons⟩ := List.exists_cons_of_ne_nil hrest
  obtain rfl := Option.some.inj ((getElem?_here cursor placed hcons).symm.trans hchar)
  rw [← List.drop_drop, drop_here cursor placed, hcons] at hend
  exact ⟨rest, hcons, Lexeme.atLineEnd_of_append hend⟩

/-- Neither a word nor a character that starts no token is a backslash that continues its line. -/
theorem Passes.not_continuesLine (passed : Passes (.ofText text) tabSize found l) :
    ∀ token ∈ found, token.kind = .word ∨ token.kind = .error →
      ¬ ContinuesLine text (offset text token.start) := by
  induction passed with
  | start => simp
  | @step found l l' passed hpending hworks hstep induction =>
    refine List.forall_mem_append.mpr ⟨induction, fun token htoken hkind => ?_⟩
    have loose (hloose : token.IsLoose) : ¬ ContinuesLine text (offset text token.start) :=
      absurd hkind (not_or.mpr hloose.2)
    cases finds_of_moves (passed.moves hstep) hpending with
    | loose hloose => exact loose (hloose token htoken)
    | @plain kind count houtside hplain hl' =>
      have hsingle : token = l.cutToken kind count := by
        rw [hl', take_pending, hpending] at htoken
        exact List.mem_singleton.mp htoken
      rw [hsingle]
      intro continues
      have covers := ((keepsCover_invariant text).passes (keepsCover_start text tabSize) passed).1
      rw [hworks, if_neg Bool.false_ne_true] at covers
      obtain ⟨p, _, cursor, frontier⟩ := covers
      have hsome : l.rest ≠ [] :=
        List.length_pos_iff.mp (Nat.lt_of_lt_of_le hplain.extent.1 hplain.extent.2)
      have placed := (frontier.outside houtside hsome).2.1
      obtain ⟨rest, hrest, hend⟩ := rest_of_continuesLine cursor placed hsome continues
      -- a continuation adds no token, and so it is not the token that was added
      have hsilent : l'.pending = l.pending := by
        rw [step_continuation houtside hrest hend] at hstep
        rw [← (EStateM.Result.ok.inj hstep).2]
        rfl
      rw [hsilent, hpending] at htoken
      cases htoken
    | last hloose hother _ hsame =>
      rw [hsame, take_pending] at htoken
      obtain hold | hnew := List.mem_append.mp htoken
      · exact loose (hloose token hold)
      · rw [List.mem_singleton.mp hnew] at hkind
        obtain rfl | rfl := hother <;> simp at hkind
  | handOut _ _ induction => exact induction
  | endMarker _ _ _ induction =>
    exact List.forall_mem_append.mpr ⟨induction, by simp [Token.endMarker]⟩

/-- A backslash that continues its line is in no token but raw text, a word that ends with it, and a
line end that a carriage return starts within its line. -/
theorem Reaches.of_continuesLine {i : Nat} (reached : Reaches (.ofText text) tabSize found l)
    (htoken : token ∈ found) (hraw : ¬ token.kind.IsRaw) (hcontains : Contains text token i)
    (continues : ContinuesLine text i) :
    token.kind = .word ∧ offset text token.start < i ∧ offset text token.stop = i + 1 ∨
      (token.kind = .newline ∨ token.kind = .nl) ∧ ReturnsWithin token.text := by
  obtain ⟨p, tiled⟩ := reached.tiled
  have hmem := List.mem_append_left l.pending htoken
  have inner {j : Nat} {c : Char} (hchar : text[j]? = some c) (hinside : Contains text token j) :
      token.text.toList[j - offset text token.start]? = some c := by
    refine (tiled.char_of_contains hchar token hmem hinside).resolve_left fun hkind => hraw ?_
    simp [hkind, TokenKind.IsRaw]
  have hbackslash := inner continues.1 hcontains
  have hbehind (hkind : token.kind = .word ∨ token.kind = .error) :
      offset text token.start < i := by
    refine Nat.lt_of_le_of_ne hcontains.1 fun hfirst => ?_
    exact (Passes.of_reaches reached).not_continuesLine token hmem hkind (hfirst ▸ continues)
  cases reached.backslashes token htoken with
  | raw h => exact absurd h hraw
  | none hnone => exact absurd (List.mem_of_getElem? hbackslash) hnone
  | word hkind hbreaks =>
    refine .inl ⟨hkind, hbehind (.inl hkind), ?_⟩
    have hstop := hcontains.2
    refine Nat.le_antisymm (Nat.le_of_not_lt fun hmore => ?_) hstop
    -- what stands behind the backslash would be in the word, and it ends the line
    have verbatim := reached.verbatim htoken (by rw [hkind]; decide)
    have hlast : i + 1 < text.length :=
      Nat.lt_of_lt_of_le hmore (Nat.le_trans verbatim.2.2 (upTo_le text _))
    have hnext : text[i + 1]? = some text[i + 1] := List.getElem?_eq_getElem hlast
    have hend := Lexeme.isLineBreak_of_atLineEnd continues.2 (by rw [List.head?_drop]; exact hnext)
    have hmemNext := List.mem_of_getElem? (inner hnext ⟨by have := hcontains.1; omega, hmore⟩)
    rw [hbreaks _ hmemNext] at hend
    cases hend
  | error hkind hlength =>
    have hfirst := hbehind (.inr hkind)
    obtain ⟨hshort, _⟩ := List.getElem?_eq_some_iff.mp hbackslash
    omega
  | lineEnd hkind =>
    refine .inr ⟨hkind, ?_⟩
    obtain hbreaks | hreturns := (reached.candid (Source.cut_ofText text) token hmem).breaks hkind
    · exact absurd (hbreaks _ (List.mem_of_getElem? hbackslash)) (by decide)
    · exact hreturns

end Lexer

/-- A backslash that ends a line is read as a continuation of the line, as far as `found` goes. -/
structure LinesContinue (text : List Char) (tabSize : Nat) (found : List Token) : Prop where
  /-- Outside comments, literals, searches and raw text no token holds it but the word that it
  stands right behind, and a line end that a carriage return starts within its line. -/
  skipped : ∀ token ∈ found, ¬ token.kind.IsRaw → ∀ i, Contains text token i →
    ContinuesLine text i →
      token.kind = .word ∧ offset text token.start < i ∧ offset text token.stop = i + 1 ∨
        (token.kind = .newline ∨ token.kind = .nl) ∧ ReturnsWithin token.text
  /-- Right behind a name, a number or a closing bracket a backslash may be put in, with a line end
  and the rest of the text behind it or any other text: up to there the same tokens are found. -/
  inserted : ∀ before token after, found = before ++ token :: after → token.IsFirm →
    ∀ behind, ∃ tokens m,
      Lexer.Reaches (.ofText (text.take (offset text token.stop) ++ '\\' :: behind)) tabSize
        tokens m ∧ tokens.map Token.unlined = (before ++ [token]).map Token.unlined

namespace Lexer

/-- Wherever the lexer has come in a text, backslashes that end its lines continue them. -/
theorem backslashes_continue_lines {text : List Char} {tabSize : Nat} {found : List Token}
    {l : Lexer} (reached : Reaches (.ofText text) tabSize found l) :
    LinesContinue text tabSize found where
  skipped _ htoken hraw _ hcontains continues :=
    reached.of_continuesLine htoken hraw hcontains continues
  inserted before token after hsplit hfirm behind := by
    subst hsplit
    exact reached.unbroken hfirm behind

/-- A line of a command and a line of a call that are continued. -/
theorem backslashes_continue_lines_of_command :
    ∃ found l, Reaches (.ofString "$(echo $x \\\n)[f(1) \\\n]\n") 8 found l ∧
      found.map (·.text) =
        ["$(", "echo", " ", "$", "x", " ", ")", "[", "f", "(", "1", ")", " ", "]", "\n", ""] ∧
      LinesContinue "$(echo $x \\\n)[f(1) \\\n]\n".toList 8 found := by
  have htexts : ((ofSource (.ofString "$(echo $x \\\n)[f(1) \\\n]\n") 8).allTokens.toOption.map
      fun tokens => tokens.map (·.text)) = some
        ["$(", "echo", " ", "$", "x", " ", ")", "[", "f", "(", "1", ")", " ", "]", "\n", ""] := by
    decide +kernel
  cases htokens : (ofSource (.ofString "$(echo $x \\\n)[f(1) \\\n]\n") 8).allTokens with
  | error e => simp [htokens, Except.toOption] at htexts
  | ok found =>
    obtain ⟨l, reached, _⟩ := reaches_of_allTokens htokens
    refine ⟨found, l, reached, ?_, backslashes_continue_lines reached⟩
    simpa [htokens, Except.toOption] using htexts

/-- A word takes in a backslash that ends its line and stands right behind it. -/
theorem word_takes_backslash :
    ((ofSource (.ofString "$(echo foo)\n") 8).allTokens.toOption.map fun tokens =>
      tokens.map fun token => (token.kind, token.text)) = some
        [(.op, "$("), (.word, "echo"), (.space, " "), (.word, "foo"), (.op, ")"),
          (.newline, "\n"), (.endMarker, "")] ∧
    ((ofSource (.ofString "$(echo foo\\\n)\n") 8).allTokens.toOption.map fun tokens =>
      tokens.map fun token => (token.kind, token.text)) = some
        [(.op, "$("), (.word, "echo"), (.space, " "), (.word, "foo\\"), (.nl, "\n"), (.op, ")"),
          (.newline, "\n"), (.endMarker, "")] := by
  decide +kernel

end Lexer

end ShellSyntax
