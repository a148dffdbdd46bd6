import ShellSyntax.Language.Literal
import ShellSyntax.Proofs.Lexer.Sequence
import ShellSyntax.Proofs.Lexer.Shown

/-!
String tokens taken apart. The lexer decides at the opening quote whether it is triple, the decoder
decides it again from the text of the finished token, and both find the same letters, quotes and
body.
-/

namespace ShellSyntax

namespace Quote

/-- The quote as it is written. -/
def marks (q : Quote) : List Char :=
  List.replicate q.size q.mark

variable {quote : Quote}

theorem marks_prefix {text : List Char} (hcloses : quote.closes text = true) :
    quote.marks <+: text :=
  List.isPrefixOf_iff_prefix.mp hcloses

theorem take_closingEnd? {text : List Char} {length : Nat}
    (hend : quote.closingEnd? text = some length) :
    ∃ count, length = count + quote.size ∧ text.take length = text.take count ++ quote.marks := by
  induction text using closingEnd?.induct (q := quote) generalizing length with
  | case1 => simp [closingEnd?] at hend
  | case2 => simp [closingEnd?] at hend
  | case3 c rest induction =>
    simp only [closingEnd?, Option.map_eq_some_iff] at hend
    obtain ⟨inner, hinner, rfl⟩ := hend
    obtain ⟨count, rfl, htake⟩ := induction hinner
    refine ⟨count + 2, by omega, ?_⟩
    rw [List.take_succ_cons, List.take_succ_cons, htake]
    rfl
  | case4 c rest hone htwo hcloses =>
    rw [closingEnd?, if_pos hcloses] at hend
    · cases hend
      refine ⟨0, (Nat.zero_add _).symm, ?_⟩
      obtain ⟨more, hmore⟩ := marks_prefix hcloses
      rw [← hmore, List.take_left' (by rw [marks, List.length_replicate])]
      rfl
    · exact hone
    · exact htwo
  | case5 c rest hone htwo hcloses hbreak =>
    rw [closingEnd?, if_neg hcloses, if_pos hbreak] at hend
    · cases hend
    · exact hone
    · exact htwo
  | case6 c rest hone htwo hcloses hbreak induction =>
    rw [closingEnd?, if_neg hcloses, if_neg hbreak, Option.map_eq_some_iff] at hend
    · obtain ⟨inner, hinner, rfl⟩ := hend
      obtain ⟨count, rfl, htake⟩ := induction hinner
      refine ⟨count + 1, by omega, ?_⟩
      rw [List.take_succ_cons, htake]
      rfl
    · exact hone
    · exact htwo

theorem not_prefix_of_opening? {text : List Char} (hopening : opening? text = some quote)
    (htriple : quote.triple = false) :
    ¬ [quote.mark, quote.mark] <+: text.drop quote.size := by
  cases text with
  | nil => cases hopening
  | cons c rest =>
    simp only [opening?, Option.ite_none_right_eq_some, Option.some.injEq] at hopening
    obtain ⟨_, rfl⟩ := hopening
    dsimp only at htriple
    rw [size, htriple, ← List.isPrefixOf_iff_prefix, Bool.not_eq_true]
    exact htriple

end Quote

/-! ### The decoder -/

namespace StringLiteral

variable {quote : Quote} {letters body : List Char}

theorem dropBytes_replicate {mark : Char} (hmark : mark.utf8Size = 1) (count : Nat)
    (rest : List Char) : dropBytes count (List.replicate count mark ++ rest) = some rest := by
  induction count with
  | zero => rw [List.replicate_zero, List.nil_append, dropBytes]
  | succ count induction =>
    rw [List.replicate_succ, List.cons_append, dropBytes, hmark, if_pos (by omega),
      Nat.add_sub_cancel, induction]

/-- Quotes are one byte long, so that the decoder takes them off as the lexer wrote them. -/
theorem unquoted_marks (hmark : quote.mark = '\'' ∨ quote.mark = '"') :
    unquoted quote.size (quote.marks ++ body ++ quote.marks) = body := by
  have hsize : quote.mark.utf8Size = 1 := by
    obtain hmark | hmark := hmark <;> rw [hmark] <;> rfl
  rw [unquoted, List.append_assoc, Quote.marks, dropBytes_replicate hsize, Option.bind_some,
    List.reverse_append, List.reverse_replicate, dropBytes_replicate hsize, Option.getD_some,
    List.reverse_reverse]

theorem isQuote_mark (hmark : quote.mark = '\'' ∨ quote.mark = '"') :
    isQuote quote.mark = true := by
  obtain hmark | hmark := hmark <;> rw [hmark] <;> rfl

theorem triple_iff (hmark : quote.mark = '\'' ∨ quote.mark = '"')
    (hplain : quote.triple = false → ¬ [quote.mark, quote.mark] <+: body) :
    (["'''", "\"\"\""].any fun text => text.toList.isPrefixOf (quote.marks ++ body)) =
      quote.triple := by
  obtain ⟨mark, triple⟩ := quote
  cases triple with
  | true => obtain rfl | rfl := hmark <;> simp [Quote.marks, Quote.size]
  | false =>
    replace hplain := hplain rfl
    rw [← List.isPrefixOf_iff_prefix, Bool.not_eq_true] at hplain
    obtain rfl | rfl := hmark <;> simpa [Quote.marks, Quote.size, List.isPrefixOf] using hplain

/-- Of letters, a quote, a body and the quote again the decoder finds the letters and the body. -/
theorem split_quoted (hmark : quote.mark = '\'' ∨ quote.mark = '"')
    (hletters : ∀ c ∈ letters, isQuote c = false)
    (hplain : quote.triple = false → ¬ [quote.mark, quote.mark] <+: body ++ quote.marks) :
    split (letters ++ (quote.marks ++ body ++ quote.marks)) = (.ofLetters letters, body) := by
  have hquote := isQuote_mark hmark
  have hany : (letters ++ (quote.marks ++ body ++ quote.marks)).any isQuote = true := by
    refine List.any_eq_true.mpr ⟨quote.mark, ?_, hquote⟩
    have hmem : quote.mark ∈ quote.marks := List.mem_replicate.mpr ⟨quote.size_pos.ne', rfl⟩
    simp [hmem]
  have hfirst : (letters ++ (quote.marks ++ body ++ quote.marks)).takeWhile
      (fun c => !isQuote c) = letters := by
    rw [List.takeWhile_append_of_pos (by simpa using hletters), List.append_assoc, Quote.marks,
      ← Nat.succ_pred_eq_of_pos quote.size_pos, List.replicate_succ, List.cons_append,
      List.takeWhile_cons_of_neg (by simp [hquote]), List.append_nil]
  rw [split, if_pos hany, hfirst]
  simp only [List.drop_left, List.append_assoc, triple_iff hmark hplain]
  have hsize : (if quote.triple = true then 3 else 1) = quote.size := rfl
  rw [hsize, ← List.append_assoc, unquoted_marks hmark]

/-- Letters, a quote, a body, and the quote again. -/
def IsQuoted (text : List Char) : Prop :=
  ∃ (letters : List Char) (quote : Quote) (body : List Char), (quote.mark = '\'' ∨ quote.mark = '"') ∧
    (∀ c ∈ letters, isQuote c = false) ∧ '\n' ∉ letters ∧
    (quote.triple = false → ¬ [quote.mark, quote.mark] <+: body ++ quote.marks) ∧
    text = letters ++ (quote.marks ++ body ++ quote.marks)

end StringLiteral

/-! ### The lexer -/

namespace StringLetters

variable {text letters : List Char} {quote : Quote}

theorem isValid_of_opening? (hopening : opening? text = some (letters, quote)) :
    isValid letters = true := by
  unfold opening? at hopening
  dsimp only at hopening
  split at hopening
  case h_2 => cases hopening
  case h_1 =>
    obtain ⟨hvalid, hpair⟩ := Option.ite_none_right_eq_some.mp hopening
    cases hpair
    exact hvalid

theorem no_quote_of_opening? (hopening : opening? text = some (letters, quote)) :
    ∀ c ∈ letters, StringLiteral.isQuote c = false := by
  intro c hc
  rw [(quote_of_opening? hopening).1] at hc
  have hname := List.mem_takeWhile_imp hc
  cases hquote : StringLiteral.isQuote c with
  | false => rfl
  | true =>
    have hmark : c = '\'' ∨ c = '"' := by simpa [StringLiteral.isQuote] using hquote
    obtain rfl | rfl := hmark <;> exact absurd hname (by decide)

theorem no_feed_of_opening? (hopening : opening? text = some (letters, quote)) : '\n' ∉ letters := by
  intro hmem
  rw [(quote_of_opening? hopening).1] at hmem
  exact absurd (List.mem_takeWhile_imp hmem) (by decide)

/-- A text with a literal at its start is the letters, the quote and what stands behind it. -/
theorem eq_append_of_opening? (hopening : opening? text = some (letters, quote)) :
    text = letters ++ (quote.marks ++ text.drop (letters.length + quote.size)) := by
  obtain ⟨_, hcloses, hletters⟩ := opening?_bounds hopening
  obtain ⟨more, hmore⟩ := Quote.marks_prefix hcloses
  have hbehind : text.drop (letters.length + quote.size) = more := by
    rw [← List.drop_drop, ← hmore, List.drop_left' (by rw [Quote.marks, List.length_replicate])]
  have hsplit := List.take_append_drop letters.length text
  rw [← hletters] at hsplit
  rw [hbehind, hmore, hsplit]

theorem not_prefix_of_opening? (hopening : opening? text = some (letters, quote))
    (htriple : quote.triple = false) :
    ¬ [quote.mark, quote.mark] <+: text.drop (letters.length + quote.size) := by
  rw [← List.drop_drop]
  exact Quote.not_prefix_of_opening? (quote_of_opening? hopening).2 htriple

end StringLetters

namespace Lexer

open Outcome

structure StartsString (o : Lexer) (letters : List Char) (quote : Quote) : Prop where
  outside : o.Outside
  opening : StringLetters.opening? o.rest = some (letters, quote)
  plain : StringLetters.isFormatted letters = false

/-- The string that starts at `o` ends at `c` with the first quote that closes there, `body` being
what stands between the two quotes. -/
inductive EndsString (o : Lexer) (letters : List Char) (quote : Quote) :
    Lexer → List Char → Prop
  | sameLine {count : Nat}
      (hend : quote.closingEnd? (o.rest.drop (letters.length + quote.size)) =
        some (count + quote.size)) :
      EndsString o letters quote o ((o.rest.drop (letters.length + quote.size)).take count)
  | laterLine {c : Lexer} {above : List Char} {text line : String} {outer : List LexMode}
      {count : Nat} (hmodes : c.modes = .string quote text o.here line :: outer)
      (htext : text.toList = letters ++ (quote.marks ++ above))
      (hend : quote.closingEnd? c.rest = some (count + quote.size)) :
      EndsString o letters quote c (above ++ c.rest.take count)

/-- Whatever follows on `above`, no triple quote is read into it. -/
def Settled (quote : Quote) (above : List Char) : Prop :=
  quote.triple = false → ∀ more, ¬ [quote.mark, quote.mark] <+: above ++ more

/-- `text` is what has been read of a string that starts at `start`. -/
def Begins (Seen : Lexer → Prop) (quote : Quote) (text : String) (start : Position) : Prop :=
  ∃ o letters above, Seen o ∧ o.StartsString letters quote ∧ o.here = start ∧
    text.toList = letters ++ (quote.marks ++ above) ∧ Settled quote above

/-- The token is what was read between two states that were seen. -/
def IsReadString (Seen : Lexer → Prop) (token : Token) : Prop :=
  ∃ o c letters quote body, Seen o ∧ Seen c ∧ token ∈ (final (step c)).pending ∧
    o.StartsString letters quote ∧ o.here = token.start ∧ EndsString o letters quote c body ∧
    token.text.toList = letters ++ (quote.marks ++ body ++ quote.marks) ∧
    (quote.triple = false → ¬ [quote.mark, quote.mark] <+: body ++ quote.marks)

/-- All plain strings, finished or not, were read from states that were seen. -/
structure StringsRead (Seen : Lexer → Prop) (l : Lexer) : Prop where
  found : ∀ token ∈ l.pending, token.kind = .string → IsReadString Seen token
  begun : ∀ quote text start line, .string quote text start line ∈ l.modes →
    Begins Seen quote text start

variable {Seen : Lexer → Prop} {l m : Lexer} {letters : List Char} {quote : Quote}

theorem StringsRead.noNewBare (read : StringsRead Seen l) (noNew : NoNewBare l m) :
    StringsRead Seen m :=
  ⟨fun token hmem hkind => read.found token (noNew.found token hmem (by rw [hkind]; rfl)) hkind,
    fun quote text start line hmem =>
      read.begun quote text start line (noNew.begun _ hmem rfl)⟩

theorem StringsRead.take (read : StringsRead Seen l) {kind : TokenKind} (hkind : kind ≠ .string)
    (count : Nat) : StringsRead Seen (l.take kind count) := by
  refine ⟨fun token hmem hstring => ?_, fun quote text start line hmem => ?_⟩
  · rw [take_pending, List.mem_append, List.mem_singleton] at hmem
    obtain hmem | rfl := hmem
    · exact read.found token hmem hstring
    · exact absurd hstring hkind
  · exact read.begun quote text start line (by simpa using hmem)

/-! ### Strings -/

theorem backslash_of_isContinued {text : List Char} (hgoes : Lexeme.isContinued text = true) :
    '\\' ∈ text := by
  simp only [Lexeme.isContinued, Bool.and_eq_true, beq_iff_eq] at hgoes
  have hmem := List.mem_of_getLast? hgoes.2
  rw [Text.withoutTerminator, List.mem_reverse] at hmem
  exact List.mem_reverse.mp ((List.dropWhile_sublist _).mem hmem)

/-- Where the string goes on over the line end, a quote that is not triple has a backslash behind
it before any further quote. -/
theorem StartsString.settled (starts : StartsString l letters quote)
    (hgoes : quote.triple = true ∨ Lexeme.isContinued l.rest = true) :
    Settled quote (l.rest.drop (letters.length + quote.size)) := by
  intro htriple more hleads
  have hnone := StringLetters.not_prefix_of_opening? starts.opening htriple
  have hmem := backslash_of_isContinued (hgoes.resolve_left (by simp [htriple]))
  rw [← List.take_append_drop (letters.length + quote.size) l.rest, List.mem_append] at hmem
  replace hmem := hmem.resolve_left (StringLetters.backslash_opening starts.opening)
  have hmark := Quote.mark_ne_backslash (StringLetters.mark_of_opening? starts.opening)
  generalize l.rest.drop (letters.length + quote.size) = behind at hnone hmem hleads
  match behind with
  | [] => cases hmem
  | [c] =>
    obtain rfl := List.mem_singleton.mp hmem
    exact hmark (List.cons_prefix_cons.mp hleads).1
  | a :: b :: rest =>
    obtain ⟨ha, hleads⟩ := List.cons_prefix_cons.mp hleads
    obtain ⟨hb, _⟩ := List.cons_prefix_cons.mp hleads
    rw [← ha, ← hb] at hnone
    exact hnone ⟨rest, rfl⟩

theorem StringsRead.startString (read : StringsRead Seen l) (hseen : Seen l)
    (hpending : l.pending = []) (starts : StartsString l letters quote)
    (hstep : step l = startString letters quote l) : StringsRead Seen (final (step l)) := by
  have hrest := StringLetters.eq_append_of_opening? starts.opening
  generalize hbehind : l.rest.drop (letters.length + quote.size) = behind at hrest
  generalize hresult : final (step l) = m
  have hfinal := hresult
  rw [hstep] at hfinal
  simp only [Lexer.startString, final_get_bind, starts.plain, Bool.false_eq_true, if_false, hbehind]
    at hfinal
  cases hend : quote.closingEnd? behind with
  | some length =>
    simp only [hend, final_set] at hfinal
    obtain ⟨count, rfl, htake⟩ := Quote.take_closingEnd? hend
    have hopening : letters.length + quote.size = (letters ++ quote.marks).length := by
      rw [List.length_append, Quote.marks, List.length_replicate]
    have htext : l.rest.take (letters.length + quote.size + (count + quote.size)) =
        letters ++ (quote.marks ++ behind.take count ++ quote.marks) := by
      rw [hrest, ← List.append_assoc, hopening, List.take_length_add_append, htake]
      simp only [List.append_assoc]
    refine ⟨fun token hmem _ => ?_, fun quote text start line hmem => ?_⟩
    · have hmem' := hmem
      rw [← hfinal, take_pending, hpending, List.nil_append, List.mem_singleton] at hmem'
      subst hmem'
      refine ⟨l, l, letters, quote, behind.take count, hseen, hseen, hresult ▸ hmem, starts, rfl,
        ?_, by rw [String.toList_ofList, htext], fun htriple hleads => ?_⟩
      · rw [← hbehind] at hend ⊢
        exact .sameLine hend
      · rw [← htake] at hleads
        refine StringLetters.not_prefix_of_opening? starts.opening htriple ?_
        rw [hbehind]
        exact hleads.trans (List.take_prefix _ _)
    · rw [← hfinal] at hmem
      exact read.begun quote text start line (by simpa using hmem)
  | none =>
    simp only [hend] at hfinal
    split at hfinal
    case isTrue hgoes =>
      rw [final_set] at hfinal
      refine ⟨fun token hmem hkind => ?_, fun quote' text start line hmem => ?_⟩
      · rw [← hfinal] at hmem
        exact read.found token hmem hkind
      · rw [← hfinal] at hmem
        obtain hnew | hold := List.mem_cons.mp hmem
        · cases hnew
          refine ⟨l, letters, behind, hseen, starts, rfl, by rw [String.toList_ofList, hrest], ?_⟩
          exact hbehind ▸ starts.settled (by simpa using hgoes)
        · exact read.begun quote' text start line hold
    case isFalse => exact hfinal ▸ read

theorem StringsRead.resumeString (read : StringsRead Seen l) (hseen : Seen l)
    (hpending : l.pending = []) {text line : String} {start : Position} {outer : List LexMode}
    (hmodes : l.modes = .string quote text start line :: outer)
    (hstep : step l = resumeString quote text start line outer l) :
    StringsRead Seen (final (step l)) := by
  have houter (other : LexMode) (hmem : other ∈ outer) : other ∈ l.modes :=
    hmodes ▸ List.mem_cons_of_mem _ hmem
  obtain ⟨o, letters, above, hopened, starts, rfl, htext, settled⟩ :=
    read.begun quote text start line (hmodes ▸ List.mem_cons_self)
  generalize hresult : final (step l) = m
  have hfinal := hresult
  rw [hstep] at hfinal
  simp only [Lexer.resumeString, final_get_bind] at hfinal
  cases hend : quote.closingEnd? l.rest with
  | some length =>
    simp only [hend, final_set] at hfinal
    obtain ⟨count, rfl, htake⟩ := Quote.take_closingEnd? hend
    refine ⟨fun token hmem _ => ?_, fun quote text start line hmem => ?_⟩
    · have hmem' := hmem
      rw [← hfinal] at hmem'
      simp only [push, advance, hpending, List.nil_append, List.mem_singleton] at hmem'
      subst hmem'
      refine ⟨o, l, letters, quote, above ++ l.rest.take count, hopened, hseen, hresult ▸ hmem,
        starts, rfl, .laterLine hmodes htext hend, ?_, fun htriple hleads => ?_⟩
      · rw [String.toList_append, String.toList_ofList, htext, htake]
        simp only [List.append_assoc]
      · rw [List.append_assoc] at hleads
        exact settled htriple _ hleads
    · rw [← hfinal] at hmem
      exact read.begun quote text start line (houter _ hmem)
  | none =>
    simp only [hend] at hfinal
    split at hfinal
    case isTrue =>
      rw [final_set] at hfinal
      refine ⟨fun token hmem hkind => ?_, fun quote' text' start line' hmem => ?_⟩
      · rw [← hfinal] at hmem
        exact read.found token hmem hkind
      · rw [← hfinal] at hmem
        obtain hnew | hold := List.mem_cons.mp hmem
        · cases hnew
          refine ⟨o, letters, above ++ l.rest, hopened, starts, rfl, ?_,
            fun htriple more hleads => ?_⟩
          · rw [String.toList_append, String.toList_ofList, htext]
            simp only [List.append_assoc]
          · rw [List.append_assoc] at hleads
            exact settled htriple _ hleads
        · exact read.begun quote' text' start line' (houter _ hold)
    case isFalse => exact hfinal ▸ read

theorem StringsRead.step (read : StringsRead Seen l) (hseen : Seen l) (hpending : l.pending = []) :
    StringsRead Seen (final (step l)) := by
  by_cases hrest : l.rest = []
  · rw [step_of_rest_nil hrest]
    exact read.noNewBare (goToNextLine_noNewBare l)
  · cases withinLine_of_rest hrest with
    | aside haside => exact read.noNewBare haside.toNoNewBare
    | starts letters quote houtside hopening hplain hstep =>
      exact read.startString hseen hpending ⟨houtside, hopening, hplain⟩ hstep
    | resumes quote text line start outer hmodes hstep =>
      exact read.resumeString hseen hpending hmodes hstep
    | word length _ _ hstep => exact hstep ▸ read.take (by decide) (length + 1)
    | stray _ hstep => exact hstep ▸ read.take (by decide) 1

variable {source : Source} {tabSize : Nat} {found tokens : List Token} {token : Token}

theorem Visits.stringsRead (visited : Visits source tabSize found l) :
    StringsRead (fun o => ∃ found, Visits source tabSize found o) l := by
  induction visited with
  | start => exact ⟨fun _ hmem => (List.not_mem_nil hmem).elim,
      fun _ _ _ _ hmem => (List.not_mem_nil hmem).elim⟩
  | step visited hpending _ induction => exact induction.step ⟨_, visited⟩ hpending
  | handOut _ hpending induction =>
    exact ⟨fun token hmem => induction.found token (hpending ▸ List.mem_cons_of_mem _ hmem),
      induction.begun⟩
  | endMarker _ _ induction => exact induction

/-- String tokens consist of letters, a quote, a body and the quote again. -/
theorem Reaches.quoted (reached : Reaches source tabSize tokens l) (hmem : token ∈ tokens)
    (hkind : token.kind = .string) : StringLiteral.IsQuoted token.text.toList := by
  obtain ⟨before, after, rfl⟩ := List.append_of_mem hmem
  rw [List.append_cons] at reached
  obtain ⟨_, within⟩ := reached.within
  obtain ⟨_, before, hpull⟩ := within.last
  obtain ⟨_, _, visited, _, hready | ⟨_, rfl⟩⟩ := (Visits.of_reaches before).pulled hpull
  · obtain ⟨o, _, letters, quote, body, _, _, _, starts, _, _, htext, hplain⟩ :=
      visited.stringsRead.found token hready hkind
    exact ⟨letters, quote, body, StringLetters.mark_of_opening? starts.opening,
      StringLetters.no_quote_of_opening? starts.opening,
      StringLetters.no_feed_of_opening? starts.opening, hplain, htext⟩
  · cases hkind

/-- Of every string token that the lexer hands out, behind failures too, the decoder finds the
letters before the first quote, which may stand there, and as the body what stands between the two
quotes that the lexer has read. -/
theorem string_split_as_read (visited : Visits source tabSize found l)
    (hpull : pull l = .ok token m) (hkind : token.kind = .string) :
    ∃ o c letters quote body,
      (∃ found, Visits source tabSize found o) ∧ (∃ found, Visits source tabSize found c) ∧
      token ∈ (final (Lexer.step c)).pending ∧ o.StartsString letters quote ∧
      o.here = token.start ∧ EndsString o letters quote c body ∧
      token.text.toList = letters ++ (quote.marks ++ body ++ quote.marks) ∧
      (∀ c ∈ letters, StringLiteral.isQuote c = false) ∧ StringLetters.isValid letters = true ∧
      StringLiteral.split token.text.toList = (.ofLetters letters, body) := by
  obtain ⟨_, n, reached, _, hready | ⟨_, rfl⟩⟩ := visited.pulled hpull
  · obtain ⟨o, c, letters, quote, body, hopened, hclosed, hmem, starts, hstart, ends, htext,
      hplain⟩ := reached.stringsRead.found token hready hkind
    have hletters := StringLetters.no_quote_of_opening? starts.opening
    have hmark := StringLetters.mark_of_opening? starts.opening
    refine ⟨o, c, letters, quote, body, hopened, hclosed, hmem, starts, hstart, ends, htext,
      hletters, StringLetters.isValid_of_opening? starts.opening, ?_⟩
    rw [htext, StringLiteral.split_quoted hmark hletters hplain]
  · cases hkind

/-- A literal on two lines, with a quote as the last character of its body. -/
theorem string_split_as_read_continued :
    ∃ l token m letters quote body, Visits (.ofString "rB'''a\n\\''''\n") 8 [] l ∧
      pull l = .ok token m ∧ token.text = "rB'''a\n\\''''" ∧
      token.text.toList = letters ++ (Quote.marks quote ++ body ++ quote.marks) ∧
      StringLiteral.split token.text.toList = (.ofLetters letters, body) := by
  have hpull := eq_ok_of_value? (pull (ofSource (.ofString "rB'''a\n\\''''\n") 8))
    (a := ⟨.string, "rB'''a\n\\''''", ⟨1, 0⟩, ⟨2, 5⟩, "rB'''a\n"⟩) (by decide +kernel)
  obtain ⟨_, _, letters, quote, body, _, _, _, _, _, _, htext, _, _, hsplit⟩ :=
    string_split_as_read .start hpull rfl
  exact ⟨_, _, _, letters, quote, body, .start, hpull, rfl, htext, hsplit⟩

end Lexer

end ShellSyntax
