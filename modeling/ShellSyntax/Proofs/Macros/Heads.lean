import ShellSyntax.Proofs.Lexer.Passing
import ShellSyntax.Proofs.Lexer.Signs
import ShellSyntax.Proofs.Parser.LogicalLines

/-!
Heads of statements with raw bodies. As long as a logical line is not over, the tokens found of it
tell whether a raw body lies ahead, and the first of them stands on the line that gave the statement
its indentation.
-/

namespace ShellSyntax

/-! ### The line that is not over -/

/-- The tokens of a logical line with one more, unless that ends the line. A raw body behind a colon
ends its line as a line end does. -/
def lineAfter (line : List Token) (token : Token) : List Token :=
  if token.kind = .newline then []
  else if token.kind = .macroParam ∧ line.getLast?.any (·.isOp ":") then []
  else if token.kind.isFiller || token.kind.boundsBlock then line
  else line ++ [token]

/-- The tokens of the logical line that is not over yet. -/
def openLine (tokens : List Token) : List Token :=
  tokens.foldl lineAfter []

/-- The name `with`, and an exclamation mark right behind it. -/
structure Marks (name bang : Token) : Prop where
  kind : name.kind = .name
  text : name.text = "with"
  isBang : bang.isOp "!" = true
  glued : bang.start = name.stop

section OpenLine

variable {found new : List Token} {token : Token}

theorem openLine_concat (found : List Token) (token : Token) :
    openLine (found ++ [token]) = lineAfter (openLine found) token := by
  simp [openLine]

theorem openLine_quiet
    (hnew : ∀ token ∈ new, token.kind.isFiller = true ∨ token.kind.boundsBlock = true) :
    openLine (found ++ new) = openLine found := by
  induction new using List.reverseRecOn with
  | nil => rw [List.append_nil]
  | append_singleton new token induction =>
    have hearlier : openLine (found ++ new) = openLine found :=
      induction fun other hother => hnew other (List.mem_append_left _ hother)
    have hkind := hnew token (List.mem_append_right _ List.mem_cons_self)
    have hnewline : token.kind ≠ .newline := by
      intro heq
      simp [heq, TokenKind.isFiller, TokenKind.boundsBlock] at hkind
    have hparam : token.kind ≠ .macroParam := by
      intro heq
      simp [heq, TokenKind.isFiller, TokenKind.boundsBlock] at hkind
    rw [← List.append_assoc, openLine_concat, hearlier, lineAfter, if_neg hnewline,
      if_neg (fun h => hparam h.1), if_pos (Bool.or_eq_true_iff.mpr hkind)]

theorem lineAfter_word {line : List Token} (hnewline : token.kind ≠ .newline)
    (hparam : token.kind = .macroParam → line.getLast?.any (·.isOp ":") = false)
    (hword : token.kind.isFiller = false ∧ token.kind.boundsBlock = false) :
    lineAfter line token = line ++ [token] := by
  rw [lineAfter, if_neg hnewline, if_neg, if_neg]
  · simp [hword.1, hword.2]
  · rintro ⟨hkind, hcolon⟩
    rw [hparam hkind] at hcolon
    cases hcolon

/-- Kinds of tokens that go on with a line wherever they stand. -/
def TokenKind.isWord (kind : TokenKind) : Bool :=
  !(kind == .newline || kind == .macroParam || kind.isFiller || kind.boundsBlock)

theorem openLine_words (hnew : ∀ token ∈ new, token.kind.isWord = true) :
    openLine (found ++ new) = openLine found ++ new := by
  induction new using List.reverseRecOn with
  | nil => simp
  | append_singleton new token induction =>
    have hearlier := induction fun other hother => hnew other (List.mem_append_left _ hother)
    have hword := hnew token (List.mem_append_right _ List.mem_cons_self)
    simp only [TokenKind.isWord, Bool.not_eq_true', Bool.or_eq_false_iff, beq_eq_false_iff_ne]
      at hword
    obtain ⟨⟨⟨hnewline, hparam⟩, hfiller⟩, hbound⟩ := hword
    rw [← List.append_assoc, openLine_concat, hearlier,
      lineAfter_word hnewline (fun heq => absurd heq hparam) ⟨hfiller, hbound⟩, List.append_assoc]

theorem openLine_params {sign : Token} {params : List Token} (hsign : sign.kind.isWord = true)
    (hcolon : sign.isOp ":" = false) (hparams : ∀ param ∈ params, param.kind = .macroParam) :
    openLine (found ++ sign :: params) = openLine found ++ sign :: params := by
  induction params using List.reverseRecOn with
  | nil => exact openLine_words (by simpa using hsign)
  | append_singleton params param induction =>
    have hearlier := induction fun other hother => hparams other (List.mem_append_left _ hother)
    have hkind := hparams param (List.mem_append_right _ List.mem_cons_self)
    have hlast : (openLine found ++ sign :: params).getLast?.any (·.isOp ":") = false := by
      cases hall : params.getLast? with
      | none =>
        rw [List.getLast?_eq_none_iff.mp hall, List.getLast?_concat]
        exact hcolon
      | some last =>
        have hmem := hparams last (List.mem_append_left _ (List.mem_of_getLast? hall))
        rw [List.getLast?_append, List.getLast?_cons, hall]
        simp [Token.isOp, hmem]
    rw [← List.cons_append, ← List.append_assoc, openLine_concat, hearlier,
      lineAfter_word (by simp [hkind]) (fun _ => hlast)
        (by simp [hkind, TokenKind.isFiller, TokenKind.boundsBlock]), List.append_assoc]

theorem openLine_body {colon param : Token} (hcolon : colon.isOp ":" = true)
    (hparam : param.kind = .macroParam) : openLine (found ++ [colon, param]) = [] := by
  have hkind : colon.kind = .op := by
    simp only [Token.isOp, Bool.and_eq_true, beq_iff_eq] at hcolon
    exact hcolon.1
  have hbehind : openLine (found ++ [colon]) = openLine found ++ [colon] :=
    openLine_words (by simp [hkind, TokenKind.isWord, TokenKind.isFiller, TokenKind.boundsBlock])
  rw [List.append_cons, openLine_concat, hbehind, lineAfter, if_neg (by simp [hparam]),
    if_pos ⟨hparam, by simp [hcolon]⟩]

end OpenLine

namespace Lexer

variable {text : List Char} {found found' : List Token} {l l' m : Lexer}

/-- The innermost block is indented like this line, unless the line goes on from the one before. -/
def IndentedAs (text : List Char) (l : Lexer) (line : List Char) (number : Nat) : Prop :=
  l.indent = Lexeme.indentWidth l.tabSize line ∨
    ∃ before, number = before + 1 ∧ JoinsNext text before

/-- What the tokens of the line that is not over say about the lexer. -/
structure Heads (text : List Char) (found : List Token) (l : Lexer) : Prop where
  start : openLine found = [] → l.lineTokens = 0 ∧ l.brackets = [] ∧
    (l.modes = [] → l.rest ≠ [] → IndentedAs text l l.lineText.toList l.lineNumber)
  loud : openLine found ≠ [] → l.needsNewline = true
  leads : ∀ name, openLine found = [name] → name.kind = .name → name.text = "with" →
    l.brackets = [] ∧
      ∃ recent ∈ l.recent, recent.isLeadingWith = true ∧ recent.stop = name.stop
  announced : ∀ name bang header, openLine found = name :: bang :: header → Marks name bang →
    l.withHeader = true
  level : ∀ name header, openLine found = name :: header → name.kind = .name →
    name.text = "with" → IndentedAs text l name.line.toList name.start.line

theorem IndentedAs.congr {line : List Char} {number : Nat} (level : IndentedAs text l line number)
    (hindents : l'.indents = l.indents) (htabs : l'.tabSize = l.tabSize) :
    IndentedAs text l' line number := by
  rwa [IndentedAs, indent, hindents, htabs]

namespace Heads

theorem stay (heads : Heads text found l) (hline : openLine found' = openLine found)
    (htokens : l'.lineTokens = l.lineTokens) (hbrackets : l'.brackets = l.brackets)
    (hheader : l'.withHeader = l.withHeader) (hloud : l'.lastSignificant = l.lastSignificant)
    (hrecent : l'.recent = l.recent) (hindents : l'.indents = l.indents)
    (htabs : l'.tabSize = l.tabSize)
    (hstart : openLine found = [] → l'.modes = [] → l'.rest ≠ [] →
      IndentedAs text l' l'.lineText.toList l'.lineNumber) : Heads text found' l' where
  start hnil := by
    rw [hline] at hnil
    obtain ⟨hzero, hnone, _⟩ := heads.start hnil
    exact ⟨htokens.trans hzero, hbrackets.trans hnone, hstart hnil⟩
  loud hsome := by
    rw [hline] at hsome
    have hneeds := heads.loud hsome
    rwa [needsNewline, ← hloud] at hneeds
  leads name hname := by
    rw [hbrackets, hrecent]
    exact heads.leads name (hline ▸ hname)
  announced name bang header hname marks := by
    rw [hheader]
    exact heads.announced name bang header (hline ▸ hname) marks
  level name header hname hkind htext :=
    (heads.level name header (hline ▸ hname) hkind htext).congr hindents htabs

theorem blocks (heads : Heads text found l) (hnone : openLine found = [])
    (hline : openLine found' = []) (htokens : l'.lineTokens = l.lineTokens)
    (hbrackets : l'.brackets = l.brackets)
    (hlevel : IndentedAs text l' l'.lineText.toList l'.lineNumber) : Heads text found' l' where
  start _ := by
    obtain ⟨hzero, hclosed, _⟩ := heads.start hnone
    exact ⟨htokens.trans hzero, hbrackets.trans hclosed, fun _ _ => hlevel⟩
  loud hsome := absurd hline hsome
  leads name hname := by
    rw [hline] at hname
    cases hname
  announced name bang header hname := by
    rw [hline] at hname
    cases hname
  level name header hname := by
    rw [hline] at hname
    cases hname

theorem grow {words : List Token} (heads : Heads text found l)
    (hline : openLine found' = openLine found ++ words) (hsome : words ≠ [])
    (hfirst : openLine found = [] → ∀ first ∈ words.head?, first.kind = .name →
      first.text ≠ "with")
    (hbang : ∀ name, openLine found = [name] → ∀ bang ∈ words.head?, Marks name bang →
      l'.withHeader = true)
    (hheader : l.withHeader = true → l'.withHeader = true) (hloud : l'.needsNewline = true)
    (hindents : l'.indents = l.indents) (htabs : l'.tabSize = l.tabSize) :
    Heads text found' l' := by
  obtain ⟨first, rest, rfl⟩ := List.exists_cons_of_ne_nil hsome
  have hnonempty : openLine found' ≠ [] := by simp [hline]
  refine ⟨fun hnil => absurd hnil hnonempty, fun _ => hloud, ?_, ?_, ?_⟩
  · intro name hname hkind htext
    rw [hline] at hname
    cases hbefore : openLine found with
    | nil =>
      rw [hbefore] at hname
      obtain ⟨rfl, _⟩ := List.cons.inj hname
      exact absurd htext (hfirst hbefore _ rfl hkind)
    | cons head more =>
      rw [hbefore] at hname
      simp at hname
  · intro name bang header hname marks
    rw [hline] at hname
    cases hbefore : openLine found with
    | nil =>
      rw [hbefore] at hname
      obtain ⟨rfl, _⟩ := List.cons.inj hname
      exact absurd marks.text (hfirst hbefore _ rfl marks.kind)
    | cons head more =>
      rw [hbefore] at hname
      obtain ⟨rfl, hmore⟩ := List.cons.inj hname
      cases more with
      | nil =>
        obtain ⟨rfl, _⟩ := List.cons.inj hmore
        exact hbang _ hbefore _ rfl marks
      | cons second more =>
        obtain ⟨rfl, _⟩ := List.cons.inj hmore
        exact hheader (heads.announced _ _ _ hbefore marks)
  · intro name header hname hkind htext
    rw [hline] at hname
    cases hbefore : openLine found with
    | nil =>
      rw [hbefore] at hname
      obtain ⟨rfl, _⟩ := List.cons.inj hname
      exact absurd htext (hfirst hbefore _ rfl hkind)
    | cons head more =>
      rw [hbefore] at hname
      obtain ⟨rfl, _⟩ := List.cons.inj hname
      exact (heads.level _ _ hbefore hkind htext).congr hindents htabs

theorem ended (hline : openLine found' = []) (hzero : l'.lineTokens = 0)
    (hbrackets : l'.brackets = []) (hrest : l'.rest = []) : Heads text found' l' where
  start _ := ⟨hzero, hbrackets, fun _ hsome => absurd hrest hsome⟩
  loud hsome := absurd hline hsome
  leads name hname := by
    rw [hline] at hname
    cases hname
  announced name bang header hname := by
    rw [hline] at hname
    cases hname
  level name header hname := by
    rw [hline] at hname
    cases hname

end Heads

/-! ### Single tokens -/

theorem take_filler (l : Lexer) {kind : TokenKind} (hfiller : kind.isFiller = true) (count : Nat) :
    l.take kind count = (l.advance count).push (l.cutToken kind count) := by
  simp [take, addToken, remember, hfiller, push, advance, cutToken, here]

theorem addToken_withHeader (l : Lexer) {kind : TokenKind} (hkind : kind ≠ .newline)
    (text : String) (start stop : Position) :
    (l.addToken kind text start stop).withHeader = l.withHeader := by
  cases kind with
  | newline => exact absurd rfl hkind
  | _ => rfl

theorem take_withHeader (l : Lexer) {kind : TokenKind} (hkind : kind ≠ .newline) (count : Nat) :
    (l.take kind count).withHeader = l.withHeader :=
  addToken_withHeader l hkind _ l.here (l.advance count).here

theorem addToken_lineTokens (l : Lexer) {kind : TokenKind}
    (hkind : kind.isFiller = true ∨ kind.boundsBlock = true) (text : String)
    (start stop : Position) :
    (l.addToken kind text start stop).lineTokens = l.lineTokens := by
  cases kind <;> simp [TokenKind.isFiller, TokenKind.boundsBlock] at hkind <;> rfl

theorem leaveBlocks_lineTokens (l : Lexer) (width : Nat) :
    (l.leaveBlocks width).lineTokens = l.lineTokens := by
  have dedents (left : List Nat) (place : Position) (m : Lexer) :
      (left.foldl (fun l _ => l.addToken .dedent "" place place) m).lineTokens = m.lineTokens := by
    induction left generalizing m with
    | nil => rfl
    | cons _ left induction =>
      exact (induction _).trans (addToken_lineTokens m (.inr rfl) "" place place)
  exact dedents _ _ _

/-- A block that is left open by a line of its own indentation is then the innermost. -/
theorem Nested.head_dropWhile {indents : List Nat} {width : Nat} (nested : Nested indents)
    (hopen : width ∈ indents) : (indents.dropWhile (width < ·)).head?.getD 0 = width := by
  have hleft : width ∈ indents.dropWhile (width < ·) := by
    rw [nested.takeWhile_eq.2]
    exact List.mem_filter.mpr ⟨hopen, by simp⟩
  have hsplit := List.takeWhile_append_dropWhile (p := (decide <| width < ·)) (l := indents)
  have hinner : Nested (indents.dropWhile (width < ·)) :=
    (hsplit.symm ▸ nested : Nested (_ ++ _)).of_suffix (List.ne_nil_of_mem hleft)
  refine Nat.le_antisymm ?_ (hinner.le_top hleft)
  have hstops := List.head?_dropWhile_not (width < ·) indents
  cases hhead : (indents.dropWhile (width < ·)).head? with
  | none => exact Nat.zero_le _
  | some top =>
    rw [hhead] at hstops
    simpa using hstops

/-- Neither a name nor an exclamation mark. -/
def Token.isOrdinary (token : Token) : Prop :=
  token.kind ≠ .name ∧ token.isOp "!" = false

namespace Heads

/-- The line gets longer by words, the first of which neither starts a head nor marks it. -/
theorem words (heads : Heads text found l)
    (hwords : ∀ token ∈ l'.pending, token.kind.isWord = true) (hsome : l'.pending ≠ [])
    (hfirst : ∀ first ∈ l'.pending.head?, Token.isOrdinary first)
    (hheader : l'.withHeader = l.withHeader) (hloud : l'.needsNewline = true)
    (hindents : l'.indents = l.indents) (htabs : l'.tabSize = l.tabSize) :
    Heads text (found ++ l'.pending) l' := by
  refine heads.grow (openLine_words hwords) hsome ?_ ?_ (fun hset => hheader.trans hset) hloud
    hindents htabs
  · exact fun _ first hhead hname => absurd hname (hfirst first hhead).1
  · intro name _ bang hhead marks
    exact absurd ((hfirst bang hhead).2.symm.trans marks.isBang) Bool.false_ne_true

theorem literalText_isWord {count : Nat} {chars : String} {start : Position} :
    ∀ token ∈ l.literalText count chars start, token.kind = .fstringMiddle := by
  unfold literalText
  split <;> simp

theorem literal {count : Nat} {chars : String} {start : Position}
    (heads : Heads text found l)
    {sign : Token} (hpending : l'.pending = m.literalText count chars start ++ [sign])
    (hsign : sign.kind.isWord = true) (hordinary : Token.isOrdinary sign)
    (hheader : l'.withHeader = l.withHeader) (hloud : l'.needsNewline = true)
    (hindents : l'.indents = l.indents) (htabs : l'.tabSize = l.tabSize) :
    Heads text (found ++ l'.pending) l' := by
  refine heads.words ?_ (by simp [hpending]) ?_ hheader hloud hindents htabs
  · rw [hpending]
    intro token htoken
    obtain hliteral | hlast := List.mem_append.mp htoken
    · rw [literalText_isWord token hliteral]
      rfl
    · rw [List.mem_singleton.mp hlast]
      exact hsign
  · rw [hpending]
    intro first hfirst
    cases hliteral : m.literalText count chars start with
    | nil =>
      rw [hliteral] at hfirst
      rw [← Option.some.inj hfirst]
      exact hordinary
    | cons middle more =>
      rw [hliteral] at hfirst
      have hkind : middle.kind = .fstringMiddle :=
        literalText_isWord middle (by rw [hliteral]; exact List.mem_cons_self)
      rw [← Option.some.inj hfirst]
      simp [Token.isOrdinary, Token.isOp, hkind]

theorem flushed_withHeader (m : Lexer) (count : Nat) (chars : String) (start : Position)
    (modes : List LexMode) : (m.flushed count chars start modes).withHeader = m.withHeader := by
  unfold flushed
  split <;> rfl

theorem arguments_withHeader {floor : BracketStack} {raw : RawText}
    (moves : Arguments floor m raw l') : l'.withHeader = m.withHeader := by
  have pushed (n : Lexer) (captured : RawText) :
      (n.pushCaptured captured).withHeader = n.withHeader := by
    unfold pushCaptured
    split <;> rfl
  induction moves with
  | last hcapture => exact (pushed _ _).trans hcapture.readsOn.withHeader
  | more hcapture _ _ _ induction =>
    exact (induction.trans (pushed _ _)).trans hcapture.readsOn.withHeader

theorem openField {count : Nat} {chars : String} {start : Position} {modes : List LexMode}
    (heads : Heads text found l) (hm : m.pending = [])
    (hflush : m.flushText count = m.flushed count chars start modes)
    (hbrace : (m.rest.drop count).head? = some '\x7b')
    (hheader : m.withHeader = l.withHeader) (hindents : m.indents = l.indents)
    (htabs : m.tabSize = l.tabSize) :
    Heads text (found ++ (m.openField count).pending) (m.openField count) := by
  obtain ⟨rest, hdrop⟩ := List.head?_eq_some_iff.mp hbrace
  have hfound : (m.openField count).pending = m.literalText count chars start ++
      [⟨.op, "\x7b", ⟨m.lineNumber, m.column + count⟩, ⟨m.lineNumber, m.column + count + 1⟩,
        m.lineText⟩] := by
    simp [Lexer.openField, hflush, pushMode, pushBracket, hm, here, hdrop]
  refine heads.literal hfound rfl (by simp [Token.isOrdinary, Token.isOp]) ?_ ?_ ?_ ?_
  · rw [Lexer.openField, hflush]
    exact ((take_withHeader _ (by decide) 1).trans (flushed_withHeader _ _ _ _ _)).trans hheader
  · exact needsNewline_word (m.flushText count) .op 1 rfl rfl
  · simp [Lexer.openField, hflush, pushMode, pushBracket, hindents]
  · simp [Lexer.openField, hflush, pushMode, pushBracket, htabs]

/-! ### Moves -/

theorem between (heads : Heads text found l) (between : Between l) (hpending : l.pending = [])
    (nested : Nested l.indents) (moves : Moves l l') (hlive : l'.finished = false) :
    Heads text (found ++ l'.pending) l' := by
  have hnone : openLine found = [] := by
    by_contra hsome
    have hneeds := heads.loud hsome
    rw [between.quiet] at hneeds
    cases hneeds
  cases moves with
  | finish => simp at hlive
  | resumeLine _ _ hplace => exact absurd between.place hplace
  | blankLine _ _ _ hm hend =>
    have hquiet : openLine (found ++ l'.pending) = openLine found :=
      openLine_quiet (by simp [hm, pastMargin, freshLine, nextLine, enterLine, advance, hpending])
    refine heads.stay hquiet ?_ ?_ ?_ ?_ ?_ ?_ ?_ (fun _ _ hrest => absurd hend hrest) <;>
      rw [hm] <;> rfl
  | @commentLine m line rest unread hrest hunread hplace hm =>
    rw [takeRest, take_filler _ rfl, take_filler _ rfl]
    refine heads.stay (openLine_quiet ?_) ?_ ?_ ?_ ?_ ?_ ?_ ?_ ?_
    · simp [push, advance, cutToken, hm, pastMargin, freshLine, nextLine, enterLine, hpending,
        TokenKind.isFiller]
    all_goals first | (rw [hm]; rfl) | skip
    intro _ _ hsome
    exact absurd List.drop_length hsome
  | @emptyLine m line rest unread c hrest hunread hplace hm =>
    rw [takeRest, take_filler _ rfl]
    refine heads.stay (openLine_quiet ?_) ?_ ?_ ?_ ?_ ?_ ?_ ?_ ?_
    · simp [push, advance, cutToken, hm, pastMargin, freshLine, nextLine, enterLine, hpending,
        TokenKind.isFiller]
    all_goals first | (rw [hm]; rfl) | skip
    intro _ _ hsome
    exact absurd List.drop_length hsome
  | @indented m line rest unread width c hrest hunread hplace hm hbreak hwidth =>
    have frame := pastMargin_frame hm
    refine heads.blocks hnone ((openLine_quiet ?_).trans hnone) ?_ ?_ (.inl ?_)
    · simp [frame, hpending, TokenKind.boundsBlock]
    · rw [addToken_lineTokens _ (.inr rfl), hm]
      rfl
    · simp [frame]
    · simp [indent, frame, hwidth, indentWidth_takeWhile]
  | @level m line rest unread width c hrest hunread hplace hm hbreak hwidth hlevel =>
    have frame := pastMargin_frame hm
    refine heads.blocks hnone ((openLine_quiet ?_).trans hnone) ?_ ?_ (.inl ?_)
    · simp [frame, hpending]
    · rw [hm]
      rfl
    · simp [frame]
    · simp [hlevel, frame, hwidth, indentWidth_takeWhile]
  | @outdented m line rest unread width c hrest hunread hplace hm hbreak hwidth hshallower hopen =>
    have frame := pastMargin_frame hm
    have hleft : (m.leaveBlocks width).indent = width := by
      rw [indent, (leaveBlocks_frame m width).2.2.2.2.2.1]
      exact Nested.head_dropWhile (frame.2.2.2.2.2.1 ▸ nested) hopen
    refine heads.blocks hnone ((openLine_quiet ?_).trans hnone) ?_ ?_ (.inl ?_)
    · intro token htoken
      rw [leaveBlocks_pending, frame.2.2.2.2.2.2.2.2.2.1, hpending, List.nil_append] at htoken
      rw [List.eq_of_mem_replicate htoken]
      exact .inr rfl
    · rw [leaveBlocks_lineTokens, hm]
      rfl
    · simp [frame]
    · rw [hleft, hwidth]
      simp [frame, indentWidth_takeWhile]
  | stringEnd _ hrest | stringLine _ hrest | textLine _ hrest | textEnd _ hrest | textField _ hrest
  | specField _ hrest | specEnd _ hrest => exact absurd between.rest hrest
  | plain _ hplain => exact absurd between.rest hplain.rest_ne_nil
  | continuation _ hrest | envVariable _ _ hrest =>
    rw [between.rest] at hrest
    cases hrest
  | stringStart _ hopening | fstringStart _ hopening =>
    exact absurd between.rest (rest_ne_nil_of_opening hopening)
  | closer _ hmatch | opener _ hmatch | call _ hmatch | announce _ _ hmatch | spec _ hmatch
  | bodyLine _ hmatch | bodyBlock _ hmatch | rawCommand _ _ hmatch =>
    exact absurd between.rest (rest_ne_nil_of_firstMatch hmatch)

theorem first {open_ : List Opening} {count : Nat} (heads : Heads text found l)
    (hnone : openLine found = []) (inStep : InStep l.modes l.brackets open_)
    (houtside : l.Outside) (hrest : l.rest ≠ [])
    (hline : openLine found' = openLine found ++ [l.cutToken .name count])
    (hloud : (l.take .name count).needsNewline = true) :
    Heads text found' (l.take .name count) := by
  obtain ⟨hzero, hclosed, hlevel⟩ := heads.start hnone
  rw [hclosed] at inStep
  rw [hnone, List.nil_append] at hline
  refine ⟨by simp [hline], fun _ => hloud, ?_, ?_, ?_⟩
  · intro name hname _ htext
    obtain rfl : l.cutToken .name count = name := by
      rw [hline] at hname
      exact (List.cons.inj hname).1
    refine ⟨by simpa using hclosed, ⟨(l.advance count).here,
      TokenKind.name == .name && !Spelling.isKeyword (String.ofList (l.rest.take count)),
      TokenKind.name == .name && String.ofList (l.rest.take count) == "with" &&
        l.lineTokens == 0⟩, rfl, ?_, rfl⟩
    have htext : String.ofList (l.rest.take count) = "with" := htext
    simp [htext, hzero]
  · intro name bang header hname
    rw [hline] at hname
    simp at hname
  · intro name header hname _ _
    obtain rfl : l.cutToken .name count = name := by
      rw [hline] at hname
      exact (List.cons.inj hname).1
    exact (hlevel (inStep.nil_of_brackets_nil houtside).1 hrest).congr (by simp) (by simp)

theorem withHeader_of_bang {after : List Char} (houtside : l.Outside)
    (hrest : l.rest = '!' :: after) (hhost : l.brackets = [])
    (hrecent : ∃ recent ∈ l.recent, recent.isLeadingWith = true ∧ recent.stop = l.here)
    (hstep : step l = .ok () l') (hcome : l.toCome ≤ l'.toCome + 1) : l'.withHeader = true := by
  have hshort : Spelling.bangOperator after = "!" := by
    by_contra hlong
    have hfar := toCome_of_long_bang hrest hlong (step_bang houtside hrest ▸ hstep)
    omega
  rw [step_announce houtside hrest hshort (by rw [hhost]; rfl), EStateM.Result.ok.injEq] at hstep
  have hannounced : (l.recent.any fun r => r.isLeadingWith && r.stop == l.here) = true := by
    obtain ⟨recent, hrecent, hleading, hstop⟩ := hrecent
    exact (Option.any_eq_true _ _).mpr ⟨recent, hrecent, by simp [hleading, hstop]⟩
  rw [← hstep.2, take_withHeader _ (by decide)]
  simp [hannounced]

theorem plain {open_ : List Opening} {count : Nat} {kind : TokenKind}
    (heads : Heads text found l) (hpending : l.pending = [])
    (inStep : InStep l.modes l.brackets open_) (houtside : l.Outside)
    (hstep : step l = .ok () (l.take kind count)) (hplain : Plain l kind count) :
    Heads text (found ++ (l.take kind count).pending) (l.take kind count) := by
  have hfound : (l.take kind count).pending = [l.cutToken kind count] := by
    simp [hpending, cutToken]
  -- Fillers keep the line as it is, a line end ends it, and all else is a word of it.
  have quiet (hfiller : kind.isFiller = true) (hrest : l.rest ≠ []) :
      Heads text (found ++ (l.take kind count).pending) (l.take kind count) := by
    rw [take_filler l hfiller]
    refine heads.stay (openLine_quiet ?_) rfl rfl rfl rfl rfl rfl rfl ?_
    · simp [push, advance, hpending, cutToken, hfiller]
    · intro hnone hmodes _
      exact (heads.start hnone).2.2 hmodes hrest
  have word (hkind : kind.isWord = true) (hname : kind ≠ .name) (hfiller : kind.isFiller = false)
      (hlayout : kind.isLayout = false) (hbang : (l.cutToken kind count).isOp "!" = false) :
      Heads text (found ++ (l.take kind count).pending) (l.take kind count) := by
    refine heads.words ?_ (by simp) ?_ ?_ ?_ (by simp) (by simp)
    · rw [hfound]
      rintro token htoken
      rw [List.mem_singleton.mp htoken]
      exact hkind
    · rw [hfound]
      intro first hfirst
      rw [← Option.some.inj hfirst]
      exact ⟨hname, hbang⟩
    · refine take_withHeader l ?_ count
      rintro rfl
      cases hkind
    · exact needsNewline_word l kind count hlayout hfiller
  cases hplain with
  | space hrest | nl hrest | comment hrest => exact quiet rfl (by rw [hrest]; exact List.cons_ne_nil _ _)
  | newline hrest hbreak hbrackets =>
    refine Heads.ended ?_ rfl (by simpa using hbrackets) (by simp)
    rw [hfound, openLine_concat]
    rfl
  | string | pathSearch | word | number | odd => exact word rfl (by decide) rfl rfl rfl
  | @op table op hmatch hcloser hopener hknown =>
    have htake := Spelling.firstMatch_take hmatch
    refine heads.grow (openLine_words ?_) (by simp) ?_ ?_ ?_ ?_ (by simp) (by simp)
    · simp [hpending, TokenKind.isWord, TokenKind.isFiller, TokenKind.boundsBlock]
    · simp [hpending]
    · -- the line is `with` so far, and an exclamation mark comes right behind it
      rw [hfound]
      intro name hline bang hbang marks
      obtain rfl := Option.some.inj hbang
      have htext : l.rest.take op.length = ['!'] := by
        have hisBang := marks.isBang
        simp only [Token.isOp, Bool.and_eq_true, beq_iff_eq, cutToken] at hisBang
        rw [← String.toList_ofList (l := l.rest.take op.length), hisBang.2]
        rfl
      obtain ⟨hhost, hrecent⟩ := heads.leads name hline marks.kind marks.text
      obtain ⟨c, after, hrest⟩ := List.exists_cons_of_ne_nil (rest_ne_nil_of_firstMatch hmatch)
      have hlength : op.length = 1 := by
        rw [← String.length_toList, ← htake, htext]
        rfl
      obtain rfl : c = '!' := by simpa [hrest, hlength] using htext
      refine withHeader_of_bang houtside hrest hhost ?_ hstep ?_
      · obtain ⟨recent, hmem, hleading, hstop⟩ := hrecent
        exact ⟨recent, hmem, hleading, hstop.trans marks.glued.symm⟩
      · rw [hlength]
        exact Nat.le_of_eq (toCome_take .op (by simp [hrest])).symm
    · exact fun hset => (take_withHeader l (by decide) _).trans hset
    · exact needsNewline_word l .op _ rfl rfl
  | @name c rest hrest hstart =>
    generalize (l.rest.takeWhile Lexeme.continuesName).length = count at hfound ⊢
    have hline : openLine (found ++ (l.take .name count).pending) =
        openLine found ++ [l.cutToken .name count] := by
      rw [hfound]
      exact openLine_words (by simp [cutToken, TokenKind.isWord, TokenKind.isFiller,
        TokenKind.boundsBlock])
    have hloud : (l.take .name count).needsNewline = true := needsNewline_word l .name _ rfl rfl
    by_cases hnone : openLine found = []
    · exact heads.first hnone inStep houtside (by rw [hrest]; exact List.cons_ne_nil _ _) hline hloud
    · refine heads.grow hline (by simp) (fun hnil => absurd hnil hnone) ?_ ?_ hloud (by simp)
        (by simp)
      · intro name _ bang hbang marks
        have hisBang := marks.isBang
        rw [← Option.some.inj hbang] at hisBang
        cases hisBang
      · exact fun hset => (take_withHeader l (by decide) _).trans hset

theorem skipped (heads : Heads text found l) (hfound : l'.pending = [])
    (htokens : l'.lineTokens = l.lineTokens) (hbrackets : l'.brackets = l.brackets)
    (hheader : l'.withHeader = l.withHeader) (hloud : l'.lastSignificant = l.lastSignificant)
    (hrecent : l'.recent = l.recent) (hindents : l'.indents = l.indents)
    (htabs : l'.tabSize = l.tabSize) (hrest : l'.rest = []) :
    Heads text (found ++ l'.pending) l' :=
  heads.stay (by rw [hfound, List.append_nil]) htokens hbrackets hheader hloud hrecent hindents
    htabs fun _ _ hsome => absurd hrest hsome

theorem inside {open_ : List Opening} {run : List Token} (heads : Heads text found l)
    (inside : Inside text found l run) (inStep : InStep l.modes l.brackets open_)
    (hpending : l.pending = []) (hstep : step l = .ok () l') (moves : Moves l l')
    (hlive : l'.finished = false) : Heads text (found ++ l'.pending) l' := by
  have none_after {line : List Char} {unread : Source} {P : Prop} (hrest : l.rest = [])
      (hunread : l.unread = .text line :: unread) (hplace : l.AtStatement) : P := by
    have hnone := inside.ends hrest hplace
    rw [hunread] at hnone
    cases hnone
  cases moves with
  | finish => simp at hlive
  | blankLine hrest hunread hplace | commentLine hrest hunread hplace
  | emptyLine hrest hunread hplace | indented hrest hunread hplace | level hrest hunread hplace
  | outdented hrest hunread hplace => exact none_after hrest hunread hplace
  | @resumeLine line unread hrest hunread hplace =>
    refine heads.stay ?_ rfl rfl rfl rfl rfl rfl rfl ?_
    · rw [show (l.freshLine line unread).pending = [] from hpending, List.append_nil]
    · -- only a backslash goes on with a line that holds no token yet
      intro hnone hmodes _
      have hset : l.continued = true := by
        rw [← Bool.not_eq_false]
        exact fun hunset => hplace ⟨hmodes, (heads.start hnone).2.1, hunset⟩
      exact .inr ⟨_, rfl, (inside.continued hset).2⟩
  | stringLine | textLine | continuation =>
    exact heads.skipped hpending rfl rfl rfl rfl rfl rfl rfl List.drop_length
  | stringStart => exact heads.skipped hpending rfl rfl rfl rfl rfl rfl rfl List.drop_length
  | stringEnd hmodes hrest hend =>
    refine heads.words ?_ ?_ ?_ rfl rfl rfl rfl
    · simp [push, advance, hpending, TokenKind.isWord, TokenKind.isFiller, TokenKind.boundsBlock]
    · simp [push]
    · simp [push, advance, hpending, Token.isOrdinary, Token.isOp]
  | @textEnd m quote chars start outer count hmodes hrest hm hscan =>
    have hflush := flushText_of_text (l := m) (by rw [hm]) count
    have hfound : ((m.flushText count).take .fstringEnd quote.size).pending =
        m.literalText count (chars ++ String.ofList (m.rest.take count))
            (if chars.isEmpty then l.here else start) ++
          [(m.flushText count).cutToken .fstringEnd quote.size] := by
      simp only [take_frame, hflush, flushed_frame]
      rw [show m.pending = [] by rw [hm]; exact hpending, List.nil_append]
      simp [cutToken, here]
    refine heads.literal hfound rfl ⟨by simp, rfl⟩ ?_ ?_ ?_ ?_
    · refine (take_withHeader _ (by decide) _).trans ?_
      rw [hflush, flushed_withHeader, hm]
    · exact needsNewline_word (m.flushText count) .fstringEnd quote.size rfl rfl
    · simp only [take_frame, hflush, flushed_frame]
      rw [hm]
    · simp only [take_frame, hflush, flushed_frame]
      rw [hm]
  | @textField m quote chars start outer count hmodes hrest hm hscan =>
    obtain ⟨_, hbrace⟩ := scanText_field hscan
    have hopened := heads.openField (m := m) (by rw [hm]; exact hpending)
      (flushText_of_text (l := m) (by rw [hm]) count) (by rw [hm]; exact hbrace) (by rw [hm])
      (by rw [hm]) (by rw [hm])
    exact hopened
  | @specField m chars start outer count hmodes hrest hm hscan =>
    obtain ⟨_, hbrace⟩ := scanSpec_field hscan
    exact heads.openField (m := m) (by rw [hm]; exact hpending)
      (flushText_of_spec (l := m) (by rw [hm]) count) (by rw [hm]; exact hbrace) (by rw [hm])
      (by rw [hm]) (by rw [hm])
  | @specEnd m n chars start outer count top brackets hmodes hrest hm hscan hn =>
    have hflush := flushText_of_spec (l := m) (by rw [hm]) count
    rw [hflush] at hn
    obtain ⟨_, hbrace⟩ := scanSpec_close hscan
    obtain ⟨rest, hdrop⟩ := List.head?_eq_some_iff.mp hbrace
    have hrest : n.rest = '\x7d' :: rest := by
      rw [hn, (flushed_frame _ _ _ _ _).2.1, hm]
      exact hdrop
    have hfound : ({ n with brackets }.take .op 1).pending =
        m.literalText count (chars ++ String.ofList (m.rest.take count))
            (if chars.isEmpty then l.here else start) ++ [n.cutToken .op 1] := by
      simp only [take_frame, hn, flushed_frame]
      rw [show m.pending = [] by rw [hm]; exact hpending, List.nil_append]
      simp [cutToken, here]
    refine heads.literal hfound rfl ⟨by simp, ?_⟩ ?_ ?_ ?_ ?_
    · rw [Token.isOp, cutToken, hrest]
      rfl
    · refine (take_withHeader _ (by decide) _).trans ?_
      rw [hn]
      exact (flushed_withHeader _ _ _ _ _).trans (by rw [hm])
    · exact needsNewline_word { n with brackets } .op 1 rfl rfl
    · simp only [take_frame, hn, flushed_frame]
      rw [hm]
    · simp only [take_frame, hn, flushed_frame]
      rw [hm]
  | plain houtside hplain => exact heads.plain hpending inStep houtside hstep hplain
  | @fstringStart m letters quote houtside hopening hformatted hm =>
    refine heads.words ?_ ?_ ?_ ?_ ?_ ?_ ?_
    · simp [pushMode, hm, hpending, TokenKind.isWord, TokenKind.isFiller, TokenKind.boundsBlock]
    · simp [pushMode, hm]
    · simp [pushMode, hm, hpending, Token.isOrdinary, Token.isOp]
    · rw [hm]
      exact take_withHeader l (by decide) _
    · rw [hm]
      exact needsNewline_word l .fstringStart (letters.length + quote.size) rfl rfl
    · simp [pushMode, hm]
    · simp [pushMode, hm]
  | envVariable houtside hcommand hrest hstart =>
    refine heads.words ?_ ?_ ?_ ?_ ?_ ?_ ?_
    · simp [takeWhile, hpending, TokenKind.isWord, TokenKind.isFiller, TokenKind.boundsBlock]
    · simp [takeWhile]
    · simp [takeWhile, hpending, Token.isOrdinary, Token.isOp, hrest]
    · exact (take_withHeader _ (by decide) _).trans (take_withHeader l (by decide) 1)
    · exact needsNewline_word (l.take .op 1) .name _ rfl rfl
    · simp [takeWhile]
    · simp [takeWhile]
  | @closer table op top brackets houtside hmatch hcloser hbrackets =>
    obtain ⟨rest, hrest, _⟩ := Inside.closer_leads hmatch hcloser
    refine heads.words ?_ (by simp) ?_ ?_ ?_ (by simp) (by simp)
    · simp [hpending, TokenKind.isWord, TokenKind.isFiller, TokenKind.boundsBlock]
    · have hcloser' : top.closer ≠ '!' := by
        cases hopener : top.opener <;> simp [Bracket.closer, Opener.closer, hopener]
      simp [hpending, Token.isOrdinary, Token.isOp, hrest, String.ext_iff, hcloser']
    · exact take_withHeader _ (by decide) 1
    · exact needsNewline_word _ .op 1 rfl rfl
  | @opener table opener houtside hmatch =>
    have hspelling : String.ofList (l.rest.take opener.spelling.length) = opener.spelling := by
      rw [Spelling.firstMatch_take hmatch, String.ofList_toList]
    refine heads.words ?_ (by simp) ?_ ?_ ?_ (by simp [pushBracket]) (by simp [pushBracket])
    · simp [pushBracket, hpending, TokenKind.isWord, TokenKind.isFiller, TokenKind.boundsBlock]
    · rw [take_pending, show (l.pushBracket _).pending = [] from hpending]
      intro first hfirst
      rw [← Option.some.inj hfirst]
      refine ⟨by simp, ?_⟩
      rw [Token.isOp, show (l.pushBracket _).rest = l.rest from rfl, hspelling]
      cases opener <;> rfl
    · exact take_withHeader _ (by decide) _
    · exact needsNewline_word _ .op _ rfl rfl
  | @call m _ table houtside hmatch hcallable hm harguments =>
    obtain ⟨captured, htokens, hkinds⟩ := harguments.pending
    obtain ⟨hindents, _, _, htabs, _⟩ := harguments.progress
    have hsign : String.ofList (l.rest.take Opener.bangParen.spelling.length) = "!(" := by
      rw [Spelling.firstMatch_take hmatch]
      rfl
    have hfound : l'.pending =
        (l.pushBracket ⟨.bangParen, .raw, l.here⟩).cutToken .op Opener.bangParen.spelling.length ::
          captured := by
      rw [htokens, hm, take_pending, show (l.pushBracket _).pending = [] from hpending]
      rfl
    have hisOther (text : String) (htext : text ≠ "!(") :
        ((l.pushBracket ⟨.bangParen, .raw, l.here⟩).cutToken .op
          Opener.bangParen.spelling.length).isOp text = false := by
      rw [Token.isOp, cutToken, show (l.pushBracket _).rest = l.rest from rfl, hsign]
      simpa using htext.symm
    have hline : openLine (found ++ l'.pending) = openLine found ++ l'.pending := by
      rw [hfound]
      exact openLine_params rfl (hisOther ":" (by decide)) hkinds
    refine heads.grow hline (by simp [hfound]) ?_ ?_ ?_ ?_ ?_ ?_
    · rw [hfound]
      intro _ first hfirst hname
      rw [← Option.some.inj hfirst] at hname
      cases hname
    · rw [hfound]
      intro name _ bang hbang marks
      have hisBang := marks.isBang
      rw [← Option.some.inj hbang, hisOther "!" (by decide)] at hisBang
      cases hisBang
    · intro hset
      rw [arguments_withHeader harguments, hm]
      exact (take_withHeader _ (by decide) _).trans hset
    · rw [needsNewline, harguments.lastSignificant]
    · rw [hindents, hm]
      simp [pushBracket]
    · rw [htabs, hm]
      simp [pushBracket]
  | @rawCommand m n table top brackets raw rest houtside hcommand hmatch hm hbrackets hcapture
      hfloor hrest =>
    have reads := hcapture.readsOn
    have hfound : n.pending ++ [raw.toToken n.lineText] =
        l.cutToken .op 1 :: [raw.toToken n.lineText] := by
      rw [reads.pending, hm, take_pending, hpending]
      rfl
    have hsign : String.ofList (l.rest.take 1) = "!" :=
      congrArg String.ofList (Spelling.firstMatch_take hmatch)
    have hline : openLine (found ++ (n.pending ++ [raw.toToken n.lineText])) =
        openLine found ++ (n.pending ++ [raw.toToken n.lineText]) := by
      rw [hfound]
      refine openLine_params rfl ?_ (by simp [RawText.toToken])
      rw [Token.isOp, cutToken, hsign]
      rfl
    refine heads.grow hline (by simp) ?_ ?_ ?_ ?_ ?_ ?_
    · rw [hfound]
      intro _ first hfirst hname
      rw [← Option.some.inj hfirst] at hname
      cases hname
    · intro name hline _ _ marks
      rw [(heads.leads name hline marks.kind marks.text).1] at hcommand
      cases hcommand
    · intro hset
      change n.withHeader = true
      rw [reads.withHeader, hm]
      exact (take_withHeader l (by decide) _).trans hset
    · rfl
    · change n.indents = l.indents
      rw [reads.indents, hm]
      simp
    · change n.tabSize = l.tabSize
      rw [reads.tabSize, hm]
      simp
  | @announce table announced houtside hhost hmatch hannounced =>
    have hheader (hset : l.withHeader = true ∨ ∃ recent ∈ l.recent,
        recent.isLeadingWith = true ∧ recent.stop = l.here) :
        ({ l with withHeader := announced }.take .op 1).withHeader = true := by
      rw [take_withHeader _ (by decide)]
      change announced = true
      rw [hannounced, Bool.or_eq_true]
      refine hset.imp_right ?_
      rintro ⟨recent, hmem, hleading, hstop⟩
      exact (Option.any_eq_true _ _).mpr ⟨recent, hmem, by simp [hleading, hstop]⟩
    refine heads.grow (openLine_words ?_) (by simp) ?_ ?_ (fun hset => hheader (.inl hset)) ?_
      (by simp) (by simp)
    · simp [hpending, TokenKind.isWord, TokenKind.isFiller, TokenKind.boundsBlock]
    · simp [hpending]
    · intro name hline bang hbang marks
      obtain ⟨_, recent, hmem, hleading, hstop⟩ :=
        heads.leads name hline marks.kind marks.text
      rw [take_pending, hpending] at hbang
      have hglued := marks.glued
      rw [← Option.some.inj hbang] at hglued
      exact hheader (.inr ⟨recent, hmem, hleading, hstop.trans hglued.symm⟩)
    · exact needsNewline_word { l with withHeader := announced } .op 1 rfl rfl
  | @spec m table houtside hmatch hfield hm =>
    have hsign : String.ofList (l.rest.take 1) = ":" :=
      congrArg String.ofList (Spelling.firstMatch_take hmatch)
    refine heads.words ?_ ?_ ?_ ?_ ?_ ?_ ?_
    · simp [pushMode, hm, hpending, TokenKind.isWord, TokenKind.isFiller, TokenKind.boundsBlock]
    · simp [pushMode, hm]
    · simp [pushMode, hm, hpending, Token.isOrdinary, Token.isOp, hsign]
    · rw [hm]
      exact take_withHeader l (by decide) _
    · rw [hm]
      exact needsNewline_word l .op 1 rfl rfl
    · simp [pushMode, hm]
    · simp [pushMode, hm]
  | @bodyLine m n table content houtside hmatch hfield hheader hbrackets hm hidle hgathers =>
    obtain ⟨colon, hcolon, hop, htext⟩ := Inside.colon_found hmatch hpending hm
    refine Heads.ended ?_ rfl ?_ List.drop_length
    · have hfound : (n.addToken .macroParam (String.ofList content) m.here
          n.lineEnd).skipLine.endCapturedLine.pending = [colon, ⟨.macroParam,
            String.ofList content, m.here, n.lineEnd, n.lineText⟩] := by
        simp [endCapturedLine, skipLine, advance, hgathers.readsOn.pending, hcolon]
      rw [hfound]
      exact openLine_body (by simp [Token.isOp, hop, htext]) rfl
    · simp [endCapturedLine, skipLine, advance, hgathers.brackets, hm, hbrackets]
  | @bodyBlock m n table content first houtside hmatch hfield hheader hbrackets hm hidle hgathers =>
    obtain ⟨colon, hcolon, hop, htext⟩ := Inside.colon_found hmatch hpending hm
    have reads := (readsOn_advance m m.rest.length).trans hgathers.readsOn
    refine Heads.ended ?_ rfl ?_ rfl
    · have hfound : (({ n.addToken .macroParam (String.ofList (Text.dedent content)) ⟨first, 0⟩
          n.lineEnd with rest := [], column := 0 } : Lexer).endCapturedLine).pending =
            [colon, ⟨.macroParam, String.ofList (Text.dedent content), ⟨first, 0⟩, n.lineEnd,
              n.lineText⟩] := by
        simp [endCapturedLine, reads.pending, hcolon]
      rw [hfound]
      exact openLine_body (by simp [Token.isOp, hop, htext]) rfl
    · simp [endCapturedLine, hgathers.brackets, skipLine, advance, hm, hbrackets]

end Heads

/-! ### Runs -/

variable {tabSize : Nat}

/-- Until the source has ended, the tokens found so far tell which line is not over. -/
theorem Passes.heads (passed : Passes (.ofText text) tabSize found l)
    (hlive : l.finished = false) : Heads text found l := by
  induction passed with
  | start =>
    refine .ended rfl rfl rfl rfl
  | @step found l l' passed hpending hworks hstep induction =>
    obtain ⟨_, ⟨open_, _, inStep, _⟩, hlines⟩ :=
      (keepsLines_invariant text).passes (keepsLines_start text tabSize) passed
    rw [hworks] at hlines
    obtain ⟨laid, run, _, _, ⟨between, _⟩ | inside⟩ := hlines
    · exact (induction hworks).between between hpending passed.visits.nested.1 (passed.moves hstep)
        hlive
    · exact (induction hworks).inside inside inStep hpending hstep (passed.moves hstep) hlive
  | handOut _ _ induction =>
    obtain ⟨start, loud, leads, announced, level⟩ := induction hlive
    exact ⟨start, loud, leads, announced, level⟩
  | endMarker _ _ hfinished =>
    rw [hfinished] at hlive
    cases hlive

end Lexer

end ShellSyntax
