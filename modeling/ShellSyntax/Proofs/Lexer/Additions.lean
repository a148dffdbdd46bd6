import ShellSyntax.Proofs.Lexer.Progress
import ShellSyntax.Proofs.Lexer.Reaches

/-!
The tokens that a move adds: those whose text depends on how they are spelled (names, words,
comments, line ends) with the place from which they are cut, and the others by their kind. So names
consist of the characters that a name may have, and words have no brackets in them.
-/

namespace ShellSyntax.Lexer

/-- The next `count` characters as a token. -/
def cutToken (l : Lexer) (kind : TokenKind) (count : Nat) : Token :=
  ⟨kind, String.ofList (l.rest.take count), l.here, ⟨l.lineNumber, l.column + count⟩, l.lineText⟩

@[simp] theorem cutToken_kind (l : Lexer) (kind : TokenKind) (count : Nat) :
    (l.cutToken kind count).kind = kind :=
  rfl

/-- Kinds of tokens that hold no name, no word, no comment, no line end and no quote of an f-string.
-/
def IsOther (kind : TokenKind) : Prop :=
  kind ∉ [TokenKind.name, .word, .comment, .newline, .nl, .fstringStart, .fstringEnd]

instance {kind : TokenKind} : Decidable (IsOther kind) :=
  inferInstanceAs (Decidable (_ ∉ _))

/-- Kinds of tokens that hold the text of a literal or raw text. -/
def IsLiteral (kind : TokenKind) : Prop :=
  kind ∈ [TokenKind.string, .fstringMiddle, .macroParam]

instance {kind : TokenKind} : Decidable (IsLiteral kind) :=
  inferInstanceAs (Decidable (_ ∈ _))

/-- A move from `l` to `l'` adds this token. -/
inductive Adds (l l' : Lexer) : Token → Prop
  /-- The source ends. -/
  | closing {token : Token} (hrest : l.rest = []) (hunread : l.unread = []) (hl' : l' = l.close)
      (htoken : token ∈ l.closingTokens) : Adds l l' token
  /-- A line holds nothing but a comment. -/
  | comment {m : Lexer} {line rest : List Char} {unread : Source}
      (hunread : l.unread = .text line :: unread) (hm : m = (l.freshLine line unread).pastMargin)
      (hcomment : m.rest = '#' :: rest) :
      Adds l l' (m.cutToken .comment (Lexeme.contentLength m.rest))
  | behindComment {m n : Lexer} {line rest : List Char} {unread : Source}
      (hunread : l.unread = .text line :: unread) (hm : m = (l.freshLine line unread).pastMargin)
      (hcomment : m.rest = '#' :: rest) (hn : n = m.take .comment (Lexeme.contentLength m.rest))
      (hl' : l' = n.takeRest .nl) : Adds l l' (n.cutToken .nl n.rest.length)
  | emptyLine {m : Lexer} {line rest : List Char} {unread : Source} {c : Char}
      (hunread : l.unread = .text line :: unread) (hm : m = (l.freshLine line unread).pastMargin)
      (hbreak : m.rest = c :: rest) (hc : Lexeme.isLineBreak c = true) :
      Adds l l' (m.cutToken .nl m.rest.length)
  | plain {kind : TokenKind} {count : Nat} (hplain : Plain l kind count) :
      Adds l l' (l.cutToken kind count)
  /-- The name of a variable of the environment. -/
  | envName (m : Lexer) :
      Adds l l' (m.cutToken .name (m.rest.takeWhile Lexeme.continuesName).length)
  | fstringStart {letters : List Char} {quote : Quote}
      (hopening : StringLetters.opening? l.rest = some (letters, quote)) :
      Adds l l' (l.cutToken .fstringStart (letters.length + quote.size))
  | fstringEnd {m : Lexer} {quote : Quote} (hcloses : quote.closes m.rest = true)
      (hmark : quote.mark ≠ '\\') : Adds l l' (m.cutToken .fstringEnd quote.size)
  | other {token : Token} (hkind : IsOther token.kind)
      (hplain : IsLiteral token.kind ∨
        '\\' ∉ token.text.toList ∧ token.stop.line = token.start.line) : Adds l l' token

/-! ### Tokens that wait -/

/-- All tokens that wait to be handed out are such. -/
def Waiting (holds : Token → Prop) (l : Lexer) : Prop :=
  ∀ token ∈ l.pending, holds token

namespace Waiting

variable {holds : Token → Prop} {l l' : Lexer} {kind : TokenKind}

theorem congr (waiting : Waiting holds l) (hpending : l'.pending = l.pending) :
    Waiting holds l' := by
  rwa [Waiting, hpending]

theorem push (waiting : Waiting holds l) {token : Token} (htoken : holds token) :
    Waiting holds (l.push token) := by
  intro other hother
  obtain hold | hnew := List.mem_append.mp hother
  · exact waiting other hold
  · exact List.mem_singleton.mp hnew ▸ htoken

theorem cut (waiting : Waiting holds l) {count : Nat} (htoken : holds (l.cutToken kind count)) :
    Waiting holds (l.take kind count) :=
  (waiting.push htoken).congr (take_pending l kind count)

theorem addToken (waiting : Waiting holds l) {text : String} {start stop : Position}
    (htoken : holds ⟨kind, text, start, stop, l.lineText⟩) :
    Waiting holds (l.addToken kind text start stop) :=
  (waiting.push htoken).congr (addToken_pending l kind text start stop)

theorem dedents {α : Type} (waiting : Waiting holds l)
    (hdedent : ∀ token, token.kind = .dedent → token.text = "" → token.stop = token.start →
      holds token)
    (place : Lexer → Position) (left : List α) :
    Waiting holds (left.foldl (fun l _ => l.addToken .dedent "" (place l) (place l)) l) := by
  induction left generalizing l with
  | nil => exact waiting
  | cons _ left induction => exact induction (waiting.addToken (hdedent _ rfl rfl rfl))

theorem flushed (waiting : Waiting holds l)
    (hmiddle : ∀ token, token.kind = .fstringMiddle → holds token) (count : Nat) (text : String)
    (start : Position) (modes : List LexMode) :
    Waiting holds (l.flushed count text start modes) := by
  unfold Lexer.flushed
  split
  · exact waiting.congr rfl
  · have passed : Waiting holds { l.advance count with modes } := waiting.congr rfl
    exact passed.addToken (hmiddle _ rfl)

theorem openField {count : Nat} {text : String} {start : Position} {modes : List LexMode}
    (waiting : Waiting holds l) (hmiddle : ∀ token, token.kind = .fstringMiddle → holds token)
    (hopener : ∀ token, token.kind = .op → token.text = "\x7b" →
      token.stop.line = token.start.line → holds token)
    (hbrace : (l.rest.drop count).head? = some '\x7b')
    (hflush : l.flushText count = l.flushed count text start modes) :
    Waiting holds (l.openField count) := by
  obtain ⟨rest, hrest⟩ := List.head?_eq_some_iff.mp hbrace
  rw [Lexer.openField, hflush]
  have hsign : holds ((l.flushed count text start modes).cutToken .op 1) :=
    hopener _ rfl (by simp [cutToken, hrest]) rfl
  exact ((waiting.flushed hmiddle _ _ _ _).cut hsign).congr rfl

theorem pushCaptured (waiting : Waiting holds l)
    (hcaptured : ∀ token, token.kind = .macroParam → holds token) (raw : RawText) :
    Waiting holds (l.pushCaptured raw) := by
  unfold Lexer.pushCaptured
  split
  · exact waiting
  · exact waiting.push (hcaptured _ rfl)

theorem readsOn (waiting : Waiting holds l) (reads : ReadsOn l l') : Waiting holds l' :=
  waiting.congr reads.pending

theorem arguments {floor : BracketStack} {raw : RawText} (waiting : Waiting holds l)
    (hcaptured : ∀ token, token.kind = .macroParam → holds token)
    (moves : Arguments floor l raw l') : Waiting holds l' := by
  induction moves with
  | last hcapture =>
    exact ((waiting.readsOn hcapture.readsOn).pushCaptured hcaptured _).congr rfl
  | more hcapture _ _ _ induction =>
    exact induction (((waiting.readsOn hcapture.readsOn).pushCaptured hcaptured _).congr rfl)

end Waiting

/-! ### Signs and quotes -/

/-- A quote that ends the text of an f-string is no backslash: that would escape what follows it. -/
theorem mark_of_scanText {quote : Quote} {text : List Char} {done count : Nat}
    (hscan : scanText quote done text = .quote count) : quote.mark ≠ '\\' := by
  induction done, text using scanText.induct (q := quote) generalizing count with
  | case1 => cases hscan
  | case2 => cases hscan
  | case3 done c rest hend =>
    rw [scanText, if_pos hend] at hscan
    cases hscan
  | case4 done c rest hend induction =>
    rw [scanText, if_neg hend] at hscan
    exact induction hscan
  | case5 done rest induction => exact induction hscan
  | case6 done rest induction => exact induction hscan
  | case7 done c rest hlast hescape _ _ hcloses =>
    intro hmark
    obtain rfl := (Quote.head_of_closes hcloses).trans hmark
    cases rest with
    | nil => exact hlast rfl rfl
    | cons d rest => exact hescape d rest rfl rfl
  | case8 done c rest h1 h2 h3 h4 hcloses hbrace =>
    rw [scanText, if_neg hcloses, if_pos hbrace] at hscan <;> try assumption
    cases hscan
  | case9 done c rest h1 h2 h3 h4 hcloses hbrace hbreak =>
    rw [scanText, if_neg hcloses, if_neg hbrace, if_pos hbreak] at hscan <;> try assumption
    cases hscan
  | case10 done c rest h1 h2 h3 h4 hcloses hbrace hbreak induction =>
    rw [scanText, if_neg hcloses, if_neg hbrace, if_neg hbreak] at hscan <;> try assumption
    exact induction hscan

variable {l l' : Lexer}

/-- What holds of the tokens that wait and of those that a move adds holds of those that wait then.
-/
theorem Waiting.move {holds : Token → Prop} (start : Waiting holds l) (moves : Moves l l')
    (hadds : ∀ token, Adds l l' token → holds token) : Waiting holds l' := by
  have same {m : Lexer} (hpending : m.pending = l.pending) : Waiting holds m := start.congr hpending
  have hmiddle (token : Token) (hkind : token.kind = .fstringMiddle) : holds token :=
    hadds _ (.other (hkind ▸ by decide) (.inl (hkind ▸ by decide)))
  have hcaptured (token : Token) (hkind : token.kind = .macroParam) : holds token :=
    hadds _ (.other (hkind ▸ by decide) (.inl (hkind ▸ by decide)))
  have hlayout (token : Token) (hkind : token.kind = .indent ∨ token.kind = .dedent)
      (htext : token.text = "") (hstop : token.stop = token.start) : holds token :=
    hadds _ (.other (by obtain hkind | hkind := hkind <;> rw [hkind] <;> decide)
      (.inr ⟨by simp [htext], congrArg Position.line hstop⟩))
  have hbrace (token : Token) (hkind : token.kind = .op) (htext : token.text = "\x7b")
      (hline : token.stop.line = token.start.line) : holds token :=
    hadds _ (.other (hkind ▸ by decide) (.inr ⟨htext ▸ by decide, hline⟩))
  have hsign (m : Lexer) {sign : List Char} {count : Nat} (htake : m.rest.take count = sign)
      (hplain : '\\' ∉ sign) : holds (m.cutToken .op count) := by
    refine hadds _ (.other (show IsOther .op by decide) (.inr ⟨?_, rfl⟩))
    rwa [cutToken, String.toList_ofList, htake]
  cases moves with
  | finish hrest hunread =>
    intro token htoken
    rw [close_pending] at htoken
    exact (List.mem_append.mp htoken).elim (start token)
      fun hnew => hadds _ (.closing hrest hunread rfl hnew)
  | resumeLine => exact same rfl
  | blankLine _ _ _ hm => exact same (by rw [hm]; rfl)
  | commentLine _ hunread _ hm hcomment =>
    refine Waiting.cut (Waiting.cut (same (by rw [hm]; rfl)) ?_) ?_
    · exact hadds _ (.comment hunread hm hcomment)
    · exact hadds _ (.behindComment hunread hm hcomment rfl rfl)
  | emptyLine _ hunread _ hm hbreak hc =>
    exact Waiting.cut (same (by rw [hm]; rfl)) (hadds _ (.emptyLine hunread hm hbreak hc))
  | indented _ _ _ hm =>
    exact Waiting.addToken (same (by rw [hm]; rfl)) (hlayout _ (.inl rfl) rfl rfl)
  | level _ _ _ hm => exact same (by rw [hm]; rfl)
  | outdented _ _ _ hm =>
    exact Waiting.dedents (same (by rw [hm]; rfl)) (fun _ h => hlayout _ (.inr h)) (fun _ => _) _
  | stringEnd => exact Waiting.push (same rfl) (hadds _ (.other (show IsOther .string by decide)
      (.inl (show IsLiteral .string by decide))))
  | stringLine => exact same rfl
  | textLine => exact same rfl
  | @textEnd m quote text begins outer count hmodes hrest hm hscan =>
    have before : Waiting holds m := same (by rw [hm])
    have hcloses := (scanText_quote hscan).2
    have hflush := flushText_of_text (l := m) (by rw [hm]) count
    have hleft : (m.flushText count).rest = l.rest.drop count := by
      rw [hflush]
      simp [hm]
    rw [hflush] at hleft ⊢
    have hend := hadds _ (.fstringEnd (hleft ▸ hcloses) (mark_of_scanText hscan))
    exact ((before.flushed hmiddle _ _ _ _).cut hend).congr rfl
  | @textField m quote text begins outer count hmodes hrest hm hscan =>
    have before : Waiting holds m := same (by rw [hm])
    exact before.openField hmiddle hbrace (by rw [hm]; exact (scanText_field hscan).2)
      (flushText_of_text (l := m) (by rw [hm]) count)
  | @specField m text begins outer count hmodes hrest hm hscan =>
    have before : Waiting holds m := same (by rw [hm])
    exact before.openField hmiddle hbrace (by rw [hm]; exact (scanSpec_field hscan).2)
      (flushText_of_spec (l := m) (by rw [hm]) count)
  | @specEnd m n text begins outer count top brackets hmodes hrest hm hscan hn =>
    have before : Waiting holds m := same (by rw [hm])
    have hflush := flushText_of_spec (l := m) (by rw [hm]) count
    have flush : Waiting holds n := by
      rw [hn, hflush]
      exact before.flushed hmiddle _ _ _ _
    have unbracketed : Waiting holds { n with brackets } := flush.congr rfl
    obtain ⟨rest, hclose⟩ := List.head?_eq_some_iff.mp (scanSpec_close hscan).2
    have hleft : n.rest = '\x7d' :: rest := by
      rw [hn, hflush]
      simpa [hm] using hclose
    exact (unbracketed.cut (hsign _ (congrArg (List.take 1) hleft) (by simp))).congr rfl
  | plain _ hplain => exact start.cut (hadds _ (.plain hplain))
  | continuation => exact same rfl
  | stringStart => exact same rfl
  | fstringStart _ hopening _ hm =>
    rw [hm]
    exact (start.cut (hadds _ (.fstringStart hopening))).congr rfl
  | envVariable _ _ hrest =>
    exact (start.cut (hsign _ (congrArg (List.take 1) hrest) (by simp))).cut (hadds _ (.envName _))
  | @closer table text top brackets houtside hmatch hcloser =>
    have htake := Spelling.firstMatch_take hmatch
    have unbracketed : Waiting holds { l with
      brackets, modes := if l.atFieldLevel then l.modes.drop 1 else l.modes } := same rfl
    obtain ⟨hone, hplain⟩ : text.length = 1 ∧ '\\' ∉ text.toList := by
      unfold closer? at hcloser
      split at hcloser
      · exact ⟨rfl, by decide⟩
      · exact ⟨rfl, by decide⟩
      · exact ⟨rfl, by decide⟩
      · cases hcloser
    exact unbracketed.cut (hsign _ (hone ▸ htake) hplain)
  | @opener table opener houtside hmatch =>
    have opened : Waiting holds (l.pushBracket (.opened opener l.brackets.realm l.here)) := same rfl
    exact opened.cut (hsign _ (Spelling.firstMatch_take hmatch) (by cases opener <;> decide))
  | @call m _ table houtside hmatch hcallable hm harguments =>
    have opened : Waiting holds (l.pushBracket ⟨.bangParen, .raw, l.here⟩) := same rfl
    have signed : Waiting holds m := by
      rw [hm]
      exact opened.cut (hsign _ (Spelling.firstMatch_take hmatch) (by decide))
    exact signed.arguments hcaptured harguments
  | @rawCommand m n table top brackets raw rest houtside hcommand hmatch hm hbrackets hcapture =>
    have signed : Waiting holds m := by
      rw [hm]
      exact start.cut (hsign _ (Spelling.firstMatch_take hmatch) (by decide))
    exact ((signed.readsOn hcapture.readsOn).push (hcaptured _ rfl)).congr rfl
  | @announce table announced houtside hhost hmatch =>
    have announcing : Waiting holds { l with withHeader := announced } := same rfl
    exact announcing.cut (hsign _ (Spelling.firstMatch_take hmatch) (by decide))
  | spec _ hmatch _ hm =>
    rw [hm]
    exact (start.cut (hsign _ (Spelling.firstMatch_take hmatch) (by decide))).congr rfl
  | @bodyLine m n table text houtside hmatch hfield hheader hbrackets hm hidle hgathers =>
    have headed : Waiting holds { l with withHeader := false } := same rfl
    have signed : Waiting holds m := by
      rw [hm]
      exact headed.cut (hsign _ (Spelling.firstMatch_take hmatch) (by decide))
    exact ((signed.readsOn hgathers.readsOn).addToken (hcaptured _ rfl)).congr rfl
  | @bodyBlock m n table text first houtside hmatch hfield hheader hbrackets hm hidle hgathers =>
    have headed : Waiting holds { l with withHeader := false } := same rfl
    have signed : Waiting holds m := by
      rw [hm]
      exact headed.cut (hsign _ (Spelling.firstMatch_take hmatch) (by decide))
    have reads := (readsOn_advance m m.rest.length).trans hgathers.readsOn
    exact ((signed.readsOn reads).addToken (hcaptured _ rfl)).congr rfl

end ShellSyntax.Lexer

namespace ShellSyntax

/-- All characters of a name may stand in one, and a word has no bracket in it. What opens an
f-string has a quote in it, and what closes one is the same character all through. -/
structure Token.Lettered (t : Token) : Prop where
  name : t.kind = .name → ∀ c ∈ t.text.toList, Lexeme.continuesName c = true
  word : t.kind = .word → ∀ c ∈ t.text.toList, c ∉ ['(', ')', '[', ']', '\x7b', '\x7d']
  opening : t.kind = .fstringStart → '\'' ∈ t.text.toList ∨ '"' ∈ t.text.toList
  closing : t.kind = .fstringEnd → ∃ count mark, t.text.toList = List.replicate count mark

theorem Token.lettered_of_kind {t : Token}
    (hkind : t.kind ∉ [TokenKind.name, .word, .fstringStart, .fstringEnd]) : t.Lettered where
  name hname := absurd hname (by simp_all)
  word hword := absurd hword (by simp_all)
  opening hopening := absurd hopening (by simp_all)
  closing hclosing := absurd hclosing (by simp_all)

theorem Token.lettered_endMarker (lines : Nat) : (Token.endMarker lines).Lettered :=
  Token.lettered_of_kind (by simp [Token.endMarker])

def hasBracket (text : String) : Bool :=
  text.toList.any fun c =>
    ['(', ')', '[', ']', '\x7b', '\x7d'].contains c && !Lexeme.continuesName c

theorem Token.Lettered.not_hasBracket {t : Token} (h : t.Lettered)
    (hkind : t.kind = .name ∨ t.kind = .word) : hasBracket t.text = false := by
  refine List.any_eq_false.mpr fun c hc hsign => ?_
  rw [Bool.and_eq_true, Bool.not_eq_true', List.contains_iff_mem] at hsign
  obtain ⟨hbracket, hother⟩ := hsign
  rcases hkind with hname | hword
  · cases hother.symm.trans (h.name hname c hc)
  · exact h.word hword c hc hbracket

theorem Token.Lettered.not_opener {t : Token} (h : t.Lettered)
    (hkind : t.kind = .name ∨ t.kind = .word) : Opener.ofSpelling? t.text = none := by
  refine Option.eq_none_iff_forall_ne_some.mpr fun opener hopener => ?_
  have hspelled : opener.spelling = t.text := by
    simpa using List.find?_some hopener
  have hfound : hasBracket opener.spelling = true := by
    cases opener <;> decide
  cases (hspelled ▸ hfound).symm.trans (h.not_hasBracket hkind)

theorem Token.Lettered.not_closer {t : Token} (h : t.Lettered)
    (hkind : t.kind = .name ∨ t.kind = .word) : Lexer.closer? t.text = none := by
  refine Option.eq_none_iff_forall_ne_some.mpr fun closer hcloser => ?_
  have hfound : hasBracket t.text = true := by
    unfold Lexer.closer? at hcloser
    split at hcloser
    case h_4 => cases hcloser
    all_goals
      rename_i htext
      rw [htext]
      decide
  cases hfound.symm.trans (h.not_hasBracket hkind)

theorem Lexeme.not_bracket_of_mem_take {text : List Char} {c : Char}
    (hc : c ∈ text.take (wordLength text)) : c ∉ ['(', ')', '[', ']', '\x7b', '\x7d'] := by
  obtain ⟨_, hgoes⟩ := endsWord_of_mem_word hc
  intro hbracket
  simp only [List.mem_cons, List.not_mem_nil, or_false] at hbracket
  rcases hbracket with rfl | rfl | rfl | rfl | rfl | rfl <;> cases hgoes

namespace Lexer

/-- All tokens that wait to be handed out are such. -/
def Lettered (l : Lexer) : Prop :=
  ∀ t ∈ l.pending, t.Lettered

variable {l l' : Lexer}

theorem lettered_name (l : Lexer) :
    (l.cutToken .name (l.rest.takeWhile Lexeme.continuesName).length).Lettered := by
  refine ⟨fun _ c hc => ?_, nofun, nofun, nofun⟩
  rw [cutToken, String.toList_ofList,
    ← List.prefix_iff_eq_take.mp (l.rest.takeWhile_prefix Lexeme.continuesName)] at hc
  exact List.all_eq_true.mp List.all_takeWhile c hc

theorem Adds.lettered {token : Token} (adds : Adds l l' token) : token.Lettered := by
  cases adds with
  | closing _ _ _ htoken =>
    simp only [closingTokens, missingNewline, List.mem_append, List.mem_singleton] at htoken
    obtain hnewline | hdedent | rfl := htoken
    · split at hnewline
      · exact List.mem_singleton.mp hnewline ▸ Token.lettered_of_kind (by simp)
      · cases hnewline
    · exact List.eq_of_mem_replicate hdedent ▸ Token.lettered_of_kind (by simp)
    · exact Token.lettered_of_kind (by simp)
  | plain hplain =>
    cases hplain with
    | name => exact l.lettered_name
    | word _ hlength =>
      refine ⟨by simp, fun _ c hc => ?_, by simp, by simp⟩
      rw [cutToken, String.toList_ofList, ← hlength] at hc
      exact Lexeme.not_bracket_of_mem_take hc
    | _ => exact Token.lettered_of_kind (by simp)
  | envName m => exact m.lettered_name
  | fstringStart hopening =>
    refine ⟨by simp, by simp, fun _ => ?_, by simp⟩
    rw [cutToken, String.toList_ofList]
    exact StringLetters.quote_mem_opening hopening
  | @fstringEnd _ quote hcloses =>
    refine ⟨by simp, by simp, by simp, fun _ => ⟨quote.size, quote.mark, ?_⟩⟩
    rw [cutToken, String.toList_ofList]
    exact Quote.take_of_closes hcloses
  | other hkind =>
    refine Token.lettered_of_kind fun hmem => hkind ?_
    simp only [List.mem_cons, List.not_mem_nil, or_false] at hmem ⊢
    grind
  | comment | behindComment | emptyLine => exact Token.lettered_of_kind (by simp)

namespace Lettered

theorem move (lettered : Lettered l) (moves : Moves l l') : Lettered l' :=
  Waiting.move lettered moves fun _ adds => adds.lettered

theorem works (lettered : Lettered l) (works : Works l l') : Lettered l' := by
  induction works with
  | ready => exact lettered
  | move _ _ first _ induction => exact induction (lettered.move first)

end Lettered

theorem Lettered.pull {l l' : Lexer} {token : Token} (lettered : Lettered l)
    (hbound : l.toCome < l.bound) (hpull : pull l = .ok token l') :
    token.Lettered ∧ Lettered l' := by
  obtain ⟨m, works, ⟨pending, hpending, rfl⟩ | ⟨_, _, rfl, rfl⟩⟩ := works_of_pull hbound hpull
  · have ready := lettered.works works
    rw [Lettered, hpending] at ready
    exact ⟨ready _ List.mem_cons_self, fun t ht => ready t (List.mem_cons_of_mem _ ht)⟩
  · exact ⟨Token.lettered_endMarker _, lettered.works works⟩

end Lexer

end ShellSyntax
