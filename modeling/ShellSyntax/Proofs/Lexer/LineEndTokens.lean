import ShellSyntax.Proofs.Lexer.Additions
import ShellSyntax.Proofs.Lexer.Cover
import ShellSyntax.Proofs.Lexer.LineFeeds
import ShellSyntax.Proofs.Lexer.Readable

/-!
What stands in the tokens of line ends. They hold nothing but carriage returns and line feeds,
unless a carriage return starts them within a line, and so whatever is to be seen of a text is in
other tokens.
-/

namespace ShellSyntax

open Lexeme (isLineBreak)
open Source (Cut)

/-- A carriage return, and something that ends no line behind it. -/
def ReturnsWithin (text : String) : Prop :=
  ∃ rest, text.toList = '\r' :: rest ∧ ∃ c ∈ rest, isLineBreak c = false

/-- What the token of a comment or of a line end holds, if so much is left to read behind it. -/
structure Token.Candid (left : Nat) (token : Token) : Prop where
  comment : token.kind = .comment → ∃ rest, token.text.toList = '#' :: rest
  breaks : token.kind = .newline ∨ token.kind = .nl →
    (∀ c ∈ token.text.toList, isLineBreak c = true) ∨ ReturnsWithin token.text
  empty : token.kind = .newline ∨ token.kind = .nl → token.text = "" → left = 0

namespace Token.Candid

variable {left more : Nat} {token : Token}

theorem of_kind (hkind : token.kind ∉ [TokenKind.comment, .newline, .nl]) :
    token.Candid left := by
  simp only [List.mem_cons, List.not_mem_nil, or_false, not_or] at hkind
  obtain ⟨hcomment, hends⟩ := hkind
  exact ⟨fun h => absurd h hcomment, fun h => absurd h (not_or.mpr hends),
    fun h => absurd h (not_or.mpr hends)⟩

theorem of_breaks (hkind : token.kind = .newline ∨ token.kind = .nl)
    (hbreaks : (∀ c ∈ token.text.toList, isLineBreak c = true) ∨ ReturnsWithin token.text)
    (hempty : token.text = "" → left = 0) : token.Candid left where
  comment hcomment := by obtain hkind | hkind := hkind <;> · rw [hcomment] at hkind; cases hkind
  breaks _ := hbreaks
  empty _ := hempty

theorem mono (candid : token.Candid left) (hle : more ≤ left) : token.Candid more :=
  ⟨candid.comment, candid.breaks, fun hkind htext =>
    Nat.le_zero.mp (candid.empty hkind htext ▸ hle)⟩

end Token.Candid

namespace Lexeme

theorem isLineBreak_behind_content (text : List Char) :
    ∀ c ∈ text.drop (contentLength text), isLineBreak c = true := by
  have hsplit : text = Text.withoutTerminator text ++
      (text.reverse.takeWhile fun c => c == '\n' || c == '\r').reverse := by
    rw [Text.withoutTerminator, ← List.reverse_append, List.takeWhile_append_dropWhile,
      List.reverse_reverse]
  have hdrop : text.drop (contentLength text) =
      (text.reverse.takeWhile fun c => c == '\n' || c == '\r').reverse :=
    (congrArg (List.drop (contentLength text)) hsplit).trans List.drop_left
  intro c hc
  rw [hdrop, List.mem_reverse] at hc
  exact List.all_eq_true.mp List.all_takeWhile c hc

end Lexeme

/-- A line that starts with a line end is one, unless it starts with a carriage return. -/
theorem Source.Cut.breaks {c : Char} {rest : List Char} {unread : Source}
    (cut : Cut (.text (c :: rest) :: unread)) (hc : isLineBreak c = true) :
    (∀ d ∈ c :: rest, isLineBreak d = true) ∨ ReturnsWithin (String.ofList (c :: rest)) := by
  by_cases hfeed : c = '\n'
  · left
    subst hfeed
    rw [cut.eq_nil_of_feed]
    exact List.forall_mem_singleton.mpr hc
  · have hreturn : c = '\r' := by simpa [isLineBreak, hfeed] using hc
    subst hreturn
    by_cases hall : ∀ d ∈ rest, isLineBreak d = true
    · exact .inl (List.forall_mem_cons.mpr ⟨hc, hall⟩)
    · right
      simp only [not_forall, Bool.not_eq_true] at hall
      obtain ⟨d, hd, hother⟩ := hall
      exact ⟨rest, String.toList_ofList, d, hd, hother⟩

theorem Source.Cut.breaks_of_atLineEnd {c : Char} {rest : List Char} {unread : Source}
    (cut : Cut (.text (c :: rest) :: unread)) (hend : Lexeme.atLineEnd rest = true) :
    ∀ d ∈ rest, isLineBreak d = true := by
  unfold Lexeme.atLineEnd at hend
  split at hend
  · exact fun d hd => absurd hd List.not_mem_nil
  · obtain ⟨hnone, _⟩ | cut := cut.drop 1
    · cases hnone
    · rw [List.drop_succ_cons, List.drop_zero] at cut
      simp [cut.eq_nil_of_feed, isLineBreak]
  · simp [isLineBreak]
  · obtain ⟨hnone, _⟩ | cut := cut.drop 2
    · cases hnone
    · rw [List.drop_succ_cons, List.drop_succ_cons, List.drop_zero] at cut
      simp [cut.eq_nil_of_feed, isLineBreak]
  · cases hend

namespace Lexer

open Outcome

variable {l l' m : Lexer} {token : Token}

theorem candid_comment {rest : List Char} (hrest : m.rest = '#' :: rest) (left : Nat) :
    (m.cutToken .comment (Lexeme.contentLength m.rest)).Candid left := by
  refine ⟨fun _ => ?_, nofun, nofun⟩
  have hpositive : 0 < Lexeme.contentLength ('#' :: rest) := Lexeme.contentLength_pos rfl
  rw [← hrest] at hpositive
  obtain ⟨count, hcount⟩ := Nat.exists_eq_succ_of_ne_zero (Nat.ne_of_gt hpositive)
  exact ⟨rest.take count, by rw [cutToken, String.toList_ofList, hcount, hrest]; rfl⟩

theorem candid_lineEnd {kind : TokenKind} {c : Char} {rest : List Char} {unread : Source}
    (hkind : kind = .newline ∨ kind = .nl) (hrest : m.rest = c :: rest) (hc : isLineBreak c = true)
    (cut : Cut (.text m.rest :: unread)) (left : Nat) :
    (m.cutToken kind m.rest.length).Candid left := by
  refine .of_breaks hkind ?_ fun hempty => ?_
  · rw [cutToken, List.take_length, String.toList_ofList, hrest]
    exact Cut.breaks (hrest ▸ cut) hc
  · rw [cutToken, List.take_length, hrest] at hempty
    exact absurd (congrArg String.toList hempty) (by simp)

theorem cut_pastMargin {line : List Char} {unread : Source} (physical : l.Physical)
    (hunread : l.unread = .text line :: unread) (hm : m = (l.freshLine line unread).pastMargin)
    (hrest : m.rest ≠ []) : Cut (.text m.rest :: unread) := by
  have cut := physical.unread
  rw [hunread] at cut
  have hdrop : m.rest = line.drop (line.takeWhile Lexeme.isSpace).length := by rw [hm]; rfl
  rw [hdrop] at hrest ⊢
  exact (cut.drop _).resolve_left fun hnil => hrest hnil.1

theorem Adds.candid (physical : l.Physical) (adds : Adds l l' token) : token.Candid l'.toCome := by
  cases adds with
  | closing hrest hunread hl' htoken =>
    have hleft : l'.toCome = 0 := by simp [hl', toCome, hrest, hunread]
    simp only [closingTokens, missingNewline, List.mem_append, List.mem_singleton] at htoken
    obtain hnewline | hdedent | rfl := htoken
    · split at hnewline
      · rw [List.mem_singleton.mp hnewline]
        exact .of_breaks (.inl rfl) (.inl (by simp)) fun _ => hleft
      · cases hnewline
    · rw [List.eq_of_mem_replicate hdedent]
      exact .of_kind (by simp)
    · exact .of_kind (by simp)
  | comment _ _ hcomment => exact candid_comment hcomment _
  | @behindComment m n line rest unread hunread hm hcomment hn hl' =>
    have hrest : n.rest = m.rest.drop (Lexeme.contentLength m.rest) := by simp [hn]
    refine .of_breaks (.inr rfl) (.inl ?_) fun hempty => ?_
    · rw [cutToken, List.take_length, String.toList_ofList, hrest]
      exact Lexeme.isLineBreak_behind_content m.rest
    · rw [cutToken, List.take_length] at hempty
      have hnone : n.rest = [] := by simpa using congrArg String.toList hempty
      -- nothing ends the line of the comment, so it is the last
      have hlast := Lexeme.getLast?_of_content (List.drop_eq_nil_iff.mp (hrest ▸ hnone))
      have hend := (cut_pastMargin physical hunread hm (by simp [hcomment])).unread_eq_nil hlast
      have hunread' : n.unread = [] := by simp [hn, pastMargin_frame hm, hend]
      simp [hl', toCome, takeRest, hnone, hunread']
  | emptyLine hunread hm hbreak hc =>
    exact candid_lineEnd (.inr rfl) hbreak hc
      (cut_pastMargin physical hunread hm (by simp [hbreak])) _
  | plain hplain =>
    have cut (hsome : l.rest ≠ []) : Cut (.text l.rest :: l.unread) :=
      physical.resolve_left fun hnil => hsome hnil.1
    cases hplain with
    | newline hrest hbreak => exact candid_lineEnd (.inl rfl) hrest hbreak (cut (by simp [hrest])) _
    | nl hrest hbreak => exact candid_lineEnd (.inr rfl) hrest hbreak (cut (by simp [hrest])) _
    | comment hrest => exact candid_comment hrest _
    | _ => exact .of_kind (by simp)
  | envName | fstringStart | fstringEnd => exact .of_kind (by simp)
  | other hkind =>
    refine .of_kind fun hmem => hkind ?_
    simp only [List.mem_cons, List.not_mem_nil, or_false] at hmem ⊢
    grind

/-! ### Runs -/

variable {source : Source} {tabSize : Nat} {before found tokens : List Token} {fuel : Nat}

theorem candid_of_step (visited : Visits source tabSize found l) (cut : Cut source)
    (hpending : l.pending = []) (hstep : step l = .ok () m) :
    ∀ token ∈ m.pending, token.Candid m.toCome := by
  have waiting : Waiting (Token.Candid m.toCome) l := by simp [Waiting, hpending]
  exact waiting.move (moves_of_step visited.inLine.2 hstep)
    fun _ adds => adds.candid (visited.physical cut)

theorem candid_of_work (visited : Visits source tabSize (before ++ l.pending) l)
    (cut : Cut source) (candid : ∀ token ∈ before ++ l.pending, token.Candid l.toCome)
    (hwork : work fuel l = .ok () m) : ∀ token ∈ before ++ m.pending, token.Candid m.toCome := by
  induction fuel generalizing l with
  | zero =>
    obtain ⟨_, rfl⟩ := pure_ok.mp hwork
    exact candid
  | succ fuel induction =>
    rw [work, get_bind_ok, ite_ok] at hwork
    split at hwork
    case isTrue hidle =>
      rw [Bool.and_eq_true, List.isEmpty_iff, Bool.not_eq_true'] at hidle
      obtain ⟨_, n, hstep, hwork⟩ := bind_ok.mp hwork
      rw [hidle.1, List.append_nil] at visited candid
      have next := visited.step hidle.1 hidle.2
      rw [hstep] at next
      have hfewer := ((moves_of_step visited.inLine.2 hstep).progress hidle.2).toCome
      refine induction next (fun token htoken => ?_) hwork
      obtain hold | hnew := List.mem_append.mp htoken
      · exact (candid token hold).mono hfewer
      · exact candid_of_step visited cut hidle.1 hstep token hnew
    case isFalse =>
      obtain ⟨_, rfl⟩ := pure_ok.mp hwork
      exact candid

theorem Reaches.candid (reached : Reaches source tabSize tokens l) (cut : Cut source) :
    ∀ token ∈ tokens ++ l.pending, token.Candid l.toCome := by
  induction reached with
  | start => simp [ofSource]
  | @pull tokens l l' token reached hpull induction =>
    have visited := Visits.of_reaches reached
    rw [Lexer.pull, get_bind_ok] at hpull
    obtain ⟨_, m, hwork, hpull⟩ := bind_ok.mp hpull
    have candid := candid_of_work visited cut induction hwork
    rw [get_bind_ok] at hpull
    cases hpending : m.pending with
    | cons first pending =>
      simp only [hpending, set_bind_ok, pure_ok] at hpull
      obtain ⟨rfl, rfl⟩ := hpull
      rw [hpending] at candid
      rw [List.append_assoc]
      exact candid
    | nil =>
      simp only [hpending, pure_ok] at hpull
      obtain ⟨rfl, rfl⟩ := hpull
      rw [hpending, List.append_nil] at candid ⊢
      exact List.forall_mem_append.mpr ⟨candid,
        List.forall_mem_singleton.mpr (.of_kind (by simp [Token.endMarker]))⟩

theorem tiles_readable (cut : Cut source)
    (htokens : (ofSource source tabSize).allTokens = .ok tokens) :
    Tiles source.readable tokens := by
  obtain ⟨l, reached, program, marker, hsplit, hmarker, _⟩ := reaches_of_allTokens htokens
  obtain ⟨hfinished, hpending⟩ := reached.ended hsplit hmarker
  obtain ⟨lines, hlines⟩ := reached.readable hfinished
  have hsource := cut.eq_ofText (by simp [hlines])
  rw [hsource] at reached
  have keeps := (keepsCover_invariant source.readable).reaches (keepsCover_start _ tabSize) reached
  obtain ⟨tiled, hend⟩ : CoversAll source.readable (tokens ++ l.pending) l := by
    simpa [hfinished] using keeps.1
  rw [hpending, List.append_nil] at tiled
  exact tiled.tiles hend

end Lexer

/-! ### What is to be seen of a text -/

/-- The character is in a token that is no line end, or it is white space, continues a line,
separates the arguments of a macro call, or is in a comment above the body of a block. What stands
behind a carriage return within a line may be in the token of a line end. -/
def Shows (text : List Char) (tokens : List Token) (i : Nat) : Prop :=
  (∃ token ∈ tokens, Contains text token i ∧ token.kind ≠ .newline ∧ token.kind ≠ .nl) ∨
    IsBlankAt text i ∨ ContinuesLine text i ∨
    (∃ found later, tokens = found ++ later ∧ ArgumentComma text found i) ∨
    (∃ before colon body after, tokens = before ++ colon :: body :: after ∧
      IsBlockBody (before ++ [colon]) body ∧ Text.offset text colon.stop ≤ i ∧
      i < Text.offset text body.start ∧ InComment text i) ∨
    ∃ token ∈ tokens, Contains text token i ∧ (token.kind = .newline ∨ token.kind = .nl) ∧
      ReturnsWithin token.text

variable {text : List Char} {tokens : List Token}

theorem isBlank_of_isLineBreak {c : Char} (hc : isLineBreak c = true) : Text.isBlank c = true := by
  simp only [isLineBreak, Bool.or_eq_true, beq_iff_eq] at hc
  obtain rfl | rfl := hc <;> decide

theorem Tiles.blank {token : Token} {i : Nat} (tiles : Tiles text tokens) (htoken : token ∈ tokens)
    (hkind : token.kind = .newline ∨ token.kind = .nl)
    (hbreaks : ∀ c ∈ token.text.toList, isLineBreak c = true) (hi : i < text.length)
    (hcontains : Contains text token i) : IsBlankAt text i := by
  obtain ⟨before, after, hsplit⟩ := List.append_of_mem htoken
  -- a token of no text of its own starts behind all of it
  obtain hvirtual | ⟨hverbatim, _⟩ := tiles.verbatim before token after hsplit
  · have hlineEnd {kind : TokenKind} (hother : token.kind = kind) :
        kind = .newline ∨ kind = .nl := hother ▸ hkind
    obtain hother | hother | hother | ⟨_, _, hend⟩ | ⟨hother, _⟩ := hvirtual
    · exact absurd (hlineEnd hother) (by decide)
    · exact absurd (hlineEnd hother) (by decide)
    · exact absurd (hlineEnd hother) (by decide)
    · exact absurd (Nat.le_trans hend hcontains.1) (Nat.not_le_of_lt hi)
    · exact absurd (hlineEnd hother) (by decide)
  · obtain ⟨k, rfl⟩ := Nat.exists_eq_add_of_le hcontains.1
    have hstop := hcontains.2
    have hchar : token.text.toList[k]? = text[Text.offset text token.start + k]? := by
      rw [hverbatim, Text.slice, List.getElem?_take_of_lt (by omega), List.getElem?_drop]
    rw [List.getElem?_eq_getElem hi] at hchar
    exact ⟨_, List.getElem?_eq_getElem hi,
      isBlank_of_isLineBreak (hbreaks _ (List.mem_of_getElem? hchar))⟩

theorem Tiles.shows {left : Nat} {i : Nat} (tiles : Tiles text tokens)
    (candid : ∀ token ∈ tokens, token.Candid left) (hi : i < text.length) :
    Shows text tokens i := by
  obtain ⟨token, htoken, hcontains⟩ | hblank | hcontinues | hcomma | hcomment := tiles.covers i hi
  · by_cases hkind : token.kind = .newline ∨ token.kind = .nl
    · obtain hbreaks | hreturns := (candid token htoken).breaks hkind
      · exact .inr (.inl (tiles.blank htoken hkind hbreaks hi hcontains))
      · exact .inr (.inr (.inr (.inr (.inr ⟨token, htoken, hcontains, hkind, hreturns⟩))))
    · exact .inl ⟨token, htoken, hcontains, not_or.mp hkind⟩
  · exact .inr (.inl hblank)
  · exact .inr (.inr (.inl hcontinues))
  · exact .inr (.inr (.inr (.inl hcomma)))
  · exact .inr (.inr (.inr (.inr (.inl hcomment))))

namespace Lexer

/-- On every text and every file the tokens of comments start with a number sign, and those of line
ends are empty only where nothing is left to read and hold only carriage returns and line feeds
unless they start with a carriage return within a line. So every character of what is tokenized to
its end is in another token, unless it is white space, continues a line, separates the arguments of
a macro call, is in a comment, or stands behind such a carriage return. -/
theorem line_ends_hide_nothing {source : Source} (cut : Cut source) (tabSize : Nat) :
    (∀ found l, Reaches source tabSize found l → ∀ token ∈ found, token.Candid l.toCome) ∧
    ∀ tokens, (ofSource source tabSize).allTokens = .ok tokens →
      ∀ i < source.readable.length, Shows source.readable tokens i := by
  refine ⟨fun found l reached token htoken => ?_, fun tokens htokens i hi => ?_⟩
  · exact reached.candid cut token (List.mem_append_left _ htoken)
  · obtain ⟨l, reached, _⟩ := reaches_of_allTokens htokens
    exact (tiles_readable cut htokens).shows
      (fun token htoken => reached.candid cut token (List.mem_append_left _ htoken)) hi

/-- The bytes of a file with comments before a line and behind it, and a last line that nothing
ends. -/
def commentBytes : List UInt8 :=
  "# a\nb # c".toUTF8.data.toList

theorem line_ends_hide_nothing_of_comments :
    ∃ tokens, (ofSource (.ofBytes commentBytes) 8).allTokens = .ok tokens ∧
      tokens.map (·.text) = ["# a", "\n", "b", " ", "# c", "", ""] ∧
      ∀ i < 9, Shows "# a\nb # c".toList tokens i := by
  have htexts : ((ofSource (.ofBytes commentBytes) 8).allTokens.toOption.map fun tokens =>
      tokens.map (·.text)) = some ["# a", "\n", "b", " ", "# c", "", ""] := by decide +kernel
  have hreadable : (Source.ofBytes commentBytes).readable = "# a\nb # c".toList := by
    decide +kernel
  have hide := (line_ends_hide_nothing (Source.cut_ofBytes commentBytes) 8).2
  cases htokens : (ofSource (.ofBytes commentBytes) 8).allTokens with
  | error e => simp [htokens, Except.toOption] at htexts
  | ok tokens =>
    refine ⟨tokens, rfl, by simpa [htokens, Except.toOption] using htexts, fun i hi => ?_⟩
    exact hreadable ▸ hide tokens htokens i (by rw [hreadable]; exact hi)

/-- Behind a carriage return a name is in the token of the line end, and the comma between the
arguments of a macro call is in no token. -/
theorem hidden_name_and_comma :
    ((ofSource (.ofString "a\rb\n") 8).allTokens.toOption.map fun tokens =>
      tokens.map fun token => (token.kind, token.text)) =
        some [(.name, "a"), (.newline, "\rb\n"), (.endMarker, "")] ∧
    ((ofSource (.ofString "m!(a,b)\n") 8).allTokens.toOption.map fun tokens =>
      tokens.map (·.text)) = some ["m", "!(", "a", "b", ")", "\n", ""] := by
  decide +kernel

end Lexer

end ShellSyntax
