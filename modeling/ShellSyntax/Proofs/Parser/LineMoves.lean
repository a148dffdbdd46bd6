import ShellSyntax.Proofs.Lexer.Cover
import ShellSyntax.Proofs.Lexer.LineFeeds
import ShellSyntax.Proofs.Parser.LineShape

/-!
The lexer and logical lines: it stands between two of them or within one, and what one move makes of
that. A line that holds nothing for the grammar leaves no tokens, unless a backslash or a character
that the lexer does not know stands on it.
-/

namespace ShellSyntax

open Text

/-- The quote that ends a literal. -/
def LexMode.quote? : LexMode → Option Quote
  | .string quote .. | .fstringText quote .. => some quote
  | .fstringField _ | .fstringSpec .. => none

namespace Lexer

variable {text : List Char} {found run : List Token} {l l' m : Lexer} {p : Position}

/-! ### At the ends of lines -/

theorem Frontier.placed (frontier : Frontier text l p) (hrest : l.rest ≠ []) : Placed text l := by
  cases frontier with
  | here placed => exact placed
  | literal placed => exact placed
  | body _ hnone => exact absurd hnone hrest

theorem unread_of_stopsShort (cursor : Cursor text l) (placed : Placed text l)
    (hrest : l.rest ≠ []) {count : Nat} (hshort : l.StopsShort count)
    (hall : l.rest.drop count = []) : l.unread = [] := by
  have hnofeed := hshort (List.drop_eq_nil_iff.mp hall)
  obtain ⟨body, _, hshape | ⟨_, _, hunread⟩⟩ := rest_shape cursor placed hrest
  · rw [hshape] at hnofeed
    simp at hnofeed
  · exact hunread

theorem joinsNext (cursor : Cursor text l) (placed : Placed text l) {ending : List Char}
    (hrest : l.rest = '\\' :: ending) (hend : Lexeme.atLineEnd ending = true) :
    JoinsNext text l.lineNumber := by
  obtain ⟨number, line, after, hnumber, hdrop, content, hline⟩ :=
    rest_on_line cursor placed (by rw [hrest]; exact List.cons_ne_nil _ _)
  refine ⟨number, content, ending, hnumber, ?_, hend⟩
  rw [hrest] at hline
  have hfirst : (splitLines text)[number]? = ((splitLines text).drop number)[0]? := by
    rw [List.getElem?_drop, Nat.add_zero]
  rw [hfirst, hdrop, hline]
  rfl

theorem Cursor.line_ne_nil (cursor : Cursor text l) {line : List Char} {unread : Source}
    (hunread : l.unread = .text line :: unread) : line ≠ [] := by
  obtain ⟨after, hdrop, _⟩ := cursor.lines hunread
  have hsplit : splitLines text = (splitLines text).take l.lineNumber ++ line :: after := by
    rw [← hdrop, List.take_append_drop]
  obtain ⟨body, _, rfl | ⟨rfl, hbody, _⟩⟩ := splitLines_shape hsplit
  · simp
  · exact hbody

theorem takeRest_rest (l : Lexer) (kind : TokenKind) : (l.takeRest kind).rest = [] := by
  rw [takeRest, (take_frame l kind _).2.1, List.drop_length]

/-! ### Heads of statements with raw bodies -/

/-- The tokens of the line tell what is remembered of a `with` and of its exclamation mark. -/
structure Header (run : List Token) (l : Lexer) : Prop where
  leading : ∀ recent ∈ l.recent, recent.isLeadingWith = true →
    ∃ name ∈ run, name.kind = .name ∧ name.text = "with" ∧ name.stop = recent.stop
  announced : l.withHeader = true → HoldsMark run

theorem Header.move {run' : List Token} (header : Header run l) (moves : Moves l l')
    (hrun : run ⊆ run')
    (hnew : ∀ token ∈ l'.pending, token.kind = .name ∨ token.kind = .op → token ∈ run') :
    Header run' l' := by
  obtain ⟨announced, remembers, hannounced⟩ := moves.remembers
  constructor
  · intro recent hmem hleading
    obtain hbefore | ⟨token, htoken, leaves⟩ := remembers.recent recent hmem
    · obtain ⟨name, hname, hwith⟩ := header.leading recent hbefore hleading
      exact ⟨name, hrun hname, hwith⟩
    · obtain ⟨hkind, htext⟩ := leaves.leadingWith hleading
      exact ⟨token, hnew token htoken (.inl hkind), hkind, htext, leaves.stop⟩
  · intro hset
    obtain hbefore | ⟨bang, hbang, hop, htext, recent, hrecent, hleading, hstop⟩ :=
      hannounced (remembers.withHeader hset)
    · exact (header.announced hbefore).mono hrun
    · obtain ⟨name, hname, hkind, hwith, hbehind⟩ := header.leading recent hrecent hleading
      refine ⟨name, hrun hname, hkind, hwith, bang, hnew bang hbang (.inr hop), ?_, ?_⟩
      · simp [Token.isOp, hop, htext]
      · rw [← hstop, hbehind]

theorem Header.grow (header : Header run l) (moves : Moves l l') :
    Header (run ++ l'.pending.filter Token.isVisible) l' := by
  refine header.move moves (List.subset_append_left _ _) fun token htoken hkind => ?_
  refine List.mem_append_right _ (List.mem_filter.mpr ⟨htoken, ?_⟩)
  obtain hkind | hkind := hkind
  · simp [Token.isVisible, hkind]
  · simp [Token.isVisible, hkind]

theorem Header.of_recent {recent : PrecedingToken} (hrecent : l.recent = some recent)
    (hleading : recent.isLeadingWith = false) (hheader : l.withHeader = false) :
    Header run l where
  leading other hother hset := by
    rw [hrecent] at hother
    rw [← Option.some.inj hother, hleading] at hset
    cases hset
  announced hset := by
    rw [hheader] at hset
    cases hset

/-! ### Within lines -/

/-- No line feed ends a literal around the cursor. -/
def Marked (l : Lexer) : Prop :=
  ∀ mode ∈ l.modes, ∀ quote ∈ mode.quote?, quote.mark ≠ '\n'

/-- A token starts at the cursor. -/
def Fresh (l : Lexer) : Prop :=
  ∃ c rest, l.rest = c :: rest ∧ Lexeme.isSpace c = false ∧ c ≠ '#' ∧
    Lexeme.isLineBreak c = false

/-- The cursor stands between two logical lines. -/
structure Between (l : Lexer) : Prop where
  rest : l.rest = []
  place : l.AtStatement
  quiet : l.needsNewline = false
  header : Header [] l

/-- The logical line has come to nothing yet: its first token lies ahead or goes on over lines, or
it may be empty. -/
def Unbegun (text : List Char) (found : List Token) (l : Lexer) : Prop :=
  l.brackets = [] ∧
    (l.modes = [] ∧ (l.Fresh ∨ MayBeEmpty text found l.lineNumber ∨ l.continued = true) ∨
      ∃ quote chars start line, l.modes = [.string quote chars start line])

/-- The cursor stands in a logical line that has the tokens `run` so far. -/
structure Inside (text : List Char) (found : List Token) (l : Lexer) (run : List Token) :
    Prop where
  words : ∀ token ∈ run, token.kind.isLayout = false
  header : Header run l
  marked : Marked l
  ends : l.rest = [] → l.AtStatement → l.unread = []
  continued : l.continued = true → l.rest = [] ∧ JoinsNext text l.lineNumber
  loud : run ≠ [] → l.needsNewline = true
  unbegun : run = [] → Unbegun text found l

namespace Inside

theorem continued_of_rest (inside : Inside text found l run) (hrest : l.rest ≠ []) :
    l.continued = false :=
  Bool.eq_false_iff.mpr fun hset => hrest (inside.continued hset).1

theorem grown (inside : Inside text found l run) (moves : Moves l l')
    (hwords : ∀ token ∈ l'.pending, token.kind.isLayout = false)
    (hsome : ∃ token ∈ l'.pending, token.isVisible = true) (hmarked : Marked l')
    (hends : l'.rest = [] → l'.AtStatement → l'.unread = []) (hcontinued : l'.continued = false)
    (hloud : l'.needsNewline = true) :
    Inside text (found ++ l'.pending) l' (run ++ l'.pending.filter Token.isVisible) where
  words token htoken := by
    obtain hold | hnew := List.mem_append.mp htoken
    · exact inside.words token hold
    · exact hwords token (List.mem_of_mem_filter hnew)
  header := inside.header.grow moves
  marked := hmarked
  ends := hends
  continued hset := by
    rw [hcontinued] at hset
    cases hset
  loud _ := hloud
  unbegun hnone := by
    obtain ⟨token, htoken, hvisible⟩ := hsome
    have hmem := List.mem_filter.mpr ⟨htoken, hvisible⟩
    rw [(List.append_eq_nil_iff.mp hnone).2] at hmem
    cases hmem

theorem kept (inside : Inside text found l run) (moves : Moves l l')
    (hnone : l'.pending.filter Token.isVisible = []) (hmarked : Marked l')
    (hends : l'.rest = [] → l'.AtStatement → l'.unread = [])
    (hcontinued : l'.continued = true → l'.rest = [] ∧ JoinsNext text l'.lineNumber)
    (hloud : l.needsNewline = true → l'.needsNewline = true)
    (hunbegun : Unbegun text found l → Unbegun text (found ++ l'.pending) l') :
    Inside text (found ++ l'.pending) l' (run ++ l'.pending.filter Token.isVisible) where
  words := by
    rw [hnone, List.append_nil]
    exact inside.words
  header := inside.header.grow moves
  marked := hmarked
  ends := hends
  continued := hcontinued
  loud hsome := by
    rw [hnone, List.append_nil] at hsome
    exact hloud (inside.loud hsome)
  unbegun hrun := by
    rw [hnone, List.append_nil] at hrun
    exact hunbegun (inside.unbegun hrun)

/-- Behind a token that stops before the line feed, no line follows between statements. -/
theorem ends_of_stopsShort (count : Nat) (cursor : Cursor text l) (placed : Placed text l)
    (hshort : l.StopsShort count) (hrest : l.rest ≠ []) (hrest' : l'.rest = l.rest.drop count)
    (hunread : l'.unread = l.unread) : l'.rest = [] → l'.AtStatement → l'.unread = [] := by
  intro hend _
  rw [hunread]
  exact unread_of_stopsShort cursor placed hrest hshort (hrest' ▸ hend)

end Inside

/-! ### Moves between statements -/

/-- The tokens make whole lines behind whole lines. -/
def LaysOut (mayBeEmpty : Nat → Prop) (tokens : List Token) : Prop :=
  ∀ laid, Laid mayBeEmpty laid → Laid mayBeEmpty (laid ++ tokens)

theorem LaysOut.nil {mayBeEmpty : Nat → Prop} : LaysOut mayBeEmpty [] := by
  intro laid hlaid
  rwa [List.append_nil]

theorem rest_ne_nil_of_firstMatch {table : List String} {op : String}
    (hmatch : Spelling.firstMatch table l.rest = some op) : l.rest ≠ [] := by
  have hpositive := (Spelling.firstMatch_leads hmatch).1
  have hle := Spelling.firstMatch_le hmatch
  rw [← List.length_pos_iff]
  omega

theorem rest_ne_nil_of_opening {letters : List Char} {quote : Quote}
    (hopening : StringLetters.opening? l.rest = some (letters, quote)) : l.rest ≠ [] := by
  have hle := (StringLetters.opening?_bounds hopening).1
  have hpositive := quote.size_pos
  rw [← List.length_pos_iff]
  omega

theorem Plain.rest_ne_nil {kind : TokenKind} {count : Nat} (plain : Plain l kind count) :
    l.rest ≠ [] := by
  obtain ⟨hpositive, hle⟩ := plain.extent
  rw [← List.length_pos_iff]
  omega

theorem fresh_of_pastMargin {line rest : List Char} {unread : Source} {c : Char}
    (hm : m = (l.freshLine line unread).pastMargin) (hrest : m.rest = c :: rest)
    (hcomment : c ≠ '#') (hbreak : Lexeme.isLineBreak c = false) (hsame : l'.rest = m.rest) :
    Fresh l' := by
  refine ⟨c, rest, hsame.trans hrest, ?_, hcomment, hbreak⟩
  have hdrop : line.dropWhile Lexeme.isSpace = c :: rest := by
    calc line.dropWhile Lexeme.isSpace
      _ = (line.takeWhile Lexeme.isSpace ++ line.dropWhile Lexeme.isSpace).drop
            (line.takeWhile Lexeme.isSpace).length := List.drop_left.symm
      _ = c :: rest := by
        rw [List.takeWhile_append_dropWhile, ← (pastMargin_frame hm).2.1, hrest]
  have hfirst := List.head?_dropWhile_not Lexeme.isSpace line
  rw [hdrop] at hfirst
  simpa using hfirst

theorem Inside.of_fresh (hfresh : Fresh l) (hmodes : l.modes = []) (hbrackets : l.brackets = [])
    (hcontinued : l.continued = false) (header : Header [] l) : Inside text found l [] where
  words := by simp
  header := header
  marked := by simp [Marked, hmodes]
  ends hrest := by
    obtain ⟨c, rest, hline, _⟩ := hfresh
    rw [hline] at hrest
    cases hrest
  continued hset := by
    rw [hcontinued] at hset
    cases hset
  loud hsome := absurd rfl hsome
  unbegun _ := ⟨hbrackets, .inl ⟨hmodes, .inl hfresh⟩⟩

theorem needsNewline_pastMargin {line : List Char} {unread : Source}
    (hm : m = (l.freshLine line unread).pastMargin) : m.needsNewline = l.needsNewline := by
  rw [hm]
  rfl

theorem Between.skip (between : Between l) (moves : Moves l l') (hrest : l'.rest = [])
    (hmodes : l'.modes = l.modes) (hbrackets : l'.brackets = l.brackets)
    (hcontinued : l'.continued = false) (hquiet : l'.needsNewline = l.needsNewline)
    (hfillers : ∀ token ∈ l'.pending, token.kind = .comment ∨ token.kind = .nl) :
    l'.pending.filter Token.isVisible = [] ∧ Between l' := by
  have hhidden : ∀ token ∈ l'.pending, token.isVisible = false := by
    intro token htoken
    obtain hkind | hkind := hfillers token htoken
    · simp [Token.isVisible, hkind]
    · simp [Token.isVisible, hkind]
  refine ⟨List.filter_eq_nil_iff.mpr fun token htoken => by simp [hhidden token htoken],
    hrest, ⟨?_, ?_, hcontinued⟩, ?_, ?_⟩
  · rw [hmodes, between.place.1]
  · rw [hbrackets, between.place.2.1]
  · rw [hquiet, between.quiet]
  · refine between.header.move moves (List.Subset.refl _) fun token htoken hkind => ?_
    obtain hfiller | hfiller := hfillers token htoken
    · simp [hfiller] at hkind
    · simp [hfiller] at hkind

theorem Between.start {mayBeEmpty : Nat → Prop} (between : Between l) (moves : Moves l l')
    (hfresh : Fresh l') (hmodes : l'.modes = l.modes) (hbrackets : l'.brackets = l.brackets)
    (hcontinued : l'.continued = false)
    (hblocks : ∀ token ∈ l'.pending, token.kind = .indent ∨ token.kind = .dedent) :
    LaysOut mayBeEmpty (l'.pending.filter Token.isVisible) ∧
      Inside text (found ++ l'.pending) l' [] := by
  constructor
  · intro laid hlaid
    have hblock : ∀ token ∈ l'.pending.filter Token.isVisible,
        token.kind = .indent ∨ token.kind = .dedent :=
      fun token htoken => hblocks token (List.mem_of_mem_filter htoken)
    exact hlaid.blocks hblock
  · refine .of_fresh hfresh (by rw [hmodes, between.place.1]) (by rw [hbrackets, between.place.2.1])
      hcontinued (between.header.move moves (List.Subset.refl _) fun token htoken hkind => ?_)
    obtain hblock | hblock := hblocks token htoken
    · simp [hblock] at hkind
    · simp [hblock] at hkind

theorem Between.move {mayBeEmpty : Nat → Prop} (found : List Token) (between : Between l)
    (hpending : l.pending = []) (moves : Moves l l') (hlive : l'.finished = false) :
    LaysOut mayBeEmpty (l'.pending.filter Token.isVisible) ∧
      (Between l' ∨ Inside text (found ++ l'.pending) l' []) := by
  have skipped (h : l'.pending.filter Token.isVisible = [] ∧ Between l') :
      LaysOut mayBeEmpty (l'.pending.filter Token.isVisible) ∧
        (Between l' ∨ Inside text (found ++ l'.pending) l' []) :=
    ⟨h.1 ▸ .nil, .inl h.2⟩
  have started (h : LaysOut mayBeEmpty (l'.pending.filter Token.isVisible) ∧
      Inside text (found ++ l'.pending) l' []) :
      LaysOut mayBeEmpty (l'.pending.filter Token.isVisible) ∧
        (Between l' ∨ Inside text (found ++ l'.pending) l' []) :=
    ⟨h.1, .inr h.2⟩
  have hmoves := moves
  cases moves with
  | finish => simp at hlive
  | resumeLine _ _ hplace => exact absurd between.place hplace
  | blankLine _ _ _ hm hend =>
    have frame := pastMargin_frame hm
    exact skipped (between.skip hmoves hend (by simp [frame]) (by simp [frame]) (by simp [frame])
      (needsNewline_pastMargin hm) (by simp [frame, hpending]))
  | commentLine _ _ _ hm hcomment =>
    have frame := pastMargin_frame hm
    refine skipped (between.skip hmoves ?_ ?_ ?_ ?_ ?_ ?_)
    · exact takeRest_rest _ _
    · simp [takeRest, frame]
    · simp [takeRest, frame]
    · simp [takeRest, frame]
    · rw [takeRest, needsNewline_filler _ rfl, needsNewline_filler _ rfl,
        needsNewline_pastMargin hm]
    · simp [takeRest, frame, hpending]
  | emptyLine _ _ _ hm =>
    have frame := pastMargin_frame hm
    refine skipped (between.skip hmoves ?_ ?_ ?_ ?_ ?_ ?_)
    · exact takeRest_rest _ _
    · simp [takeRest, frame]
    · simp [takeRest, frame]
    · simp [takeRest, frame]
    · rw [takeRest, needsNewline_filler _ rfl, needsNewline_pastMargin hm]
    · simp [takeRest, frame, hpending]
  | indented _ _ _ hm hbreak _ _ hcomment hline =>
    have frame := pastMargin_frame hm
    refine started (between.start hmoves (fresh_of_pastMargin hm hbreak hcomment hline ?_) ?_ ?_ ?_
      ?_)
    · simp
    · simp [frame]
    · simp [frame]
    · simp [frame]
    · simp [frame, hpending]
  | level _ _ _ hm hbreak _ _ hcomment hline =>
    have frame := pastMargin_frame hm
    exact started (between.start hmoves (fresh_of_pastMargin hm hbreak hcomment hline rfl)
      (by simp [frame]) (by simp [frame]) (by simp [frame]) (by simp [frame, hpending]))
  | outdented _ _ _ hm hbreak _ _ _ hcomment hline =>
    have frame := pastMargin_frame hm
    refine started (between.start hmoves (fresh_of_pastMargin hm hbreak hcomment hline ?_) ?_ ?_ ?_
      ?_)
    · simp
    · simp [frame]
    · simp [frame]
    · simp [frame]
    · intro token htoken
      rw [leaveBlocks_pending, frame.2.2.2.2.2.2.2.2.2.1, hpending,
        List.nil_append] at htoken
      exact .inr (by rw [List.eq_of_mem_replicate htoken])
  | stringEnd _ hrest | stringLine _ hrest | textLine _ hrest | textEnd _ hrest | textField _ hrest
  | specField _ hrest | specEnd _ hrest => exact absurd between.rest hrest
  | plain _ hplain => exact absurd between.rest hplain.rest_ne_nil
  | continuation _ hrest | envVariable _ _ hrest =>
    rw [between.rest] at hrest
    cases hrest
  | stringStart _ hopening | fstringStart _ hopening =>
    exact absurd between.rest (rest_ne_nil_of_opening hopening)
  | closer _ hmatch | opener _ hmatch | call _ hmatch | announce _ _ hmatch | spec _ hmatch
  | bodyLine _ hmatch | bodyBlock _ hmatch | rawCommand _ _ hmatch =>
    exact absurd between.rest (rest_ne_nil_of_firstMatch hmatch)

/-! ### Moves within lines -/

theorem Marked.of_subset (marked : Marked l) (hmodes : l'.modes ⊆ l.modes) : Marked l' :=
  fun mode hmode => marked mode (hmodes hmode)

theorem Marked.of_cons {mode : LexMode} {outer : List LexMode} (marked : Marked l)
    (hmodes : l'.modes = mode :: outer) (houter : outer ⊆ l.modes)
    (hmode : ∀ quote ∈ mode.quote?, quote.mark ≠ '\n') : Marked l' := by
  intro inner hinner
  rw [hmodes] at hinner
  obtain rfl | hinner := List.mem_cons.mp hinner
  · exact hmode
  · exact marked inner (houter hinner)

theorem ends_of_modes (hmodes : l.modes ≠ []) :
    l.rest = [] → l.AtStatement → l.unread = [] :=
  fun _ hplace => absurd hplace.1 hmodes

theorem ends_of_brackets (hbrackets : l.brackets ≠ []) :
    l.rest = [] → l.AtStatement → l.unread = [] :=
  fun _ hplace => absurd hplace.2.1 hbrackets

theorem brackets_of_inCommand {brackets : BracketStack} (hcommand : brackets.inCommand = true) :
    brackets ≠ [] := by
  rintro rfl
  cases hcommand

theorem not_unbegun_of_modes {mode : LexMode} {outer : List LexMode}
    (hmodes : l.modes = mode :: outer)
    (hmode : ∀ quote chars start line, mode ≠ .string quote chars start line) :
    ¬ Unbegun text found l := by
  rintro ⟨_, ⟨hnone, _⟩ | ⟨quote, chars, start, line, hstring⟩⟩
  · rw [hmodes] at hnone
    cases hnone
  · rw [hmodes] at hstring
    exact hmode _ _ _ _ (List.cons.inj hstring).1

theorem Unbegun.outside (unbegun : Unbegun text found l) (houtside : l.Outside) :
    l.brackets = [] ∧ l.modes = [] ∧
      (l.Fresh ∨ MayBeEmpty text found l.lineNumber ∨ l.continued = true) := by
  obtain ⟨hbrackets, ⟨hmodes, hwhy⟩ | ⟨quote, chars, start, line, hstring⟩⟩ := unbegun
  · exact ⟨hbrackets, hmodes, hwhy⟩
  · obtain hnone | ⟨depth, below, hfield⟩ := houtside
    · rw [hnone] at hstring
      cases hstring
    · rw [hfield] at hstring
      cases hstring

theorem Arguments.lastSignificant {floor : BracketStack} {raw : RawText}
    (moves : Arguments floor l raw l') : l'.lastSignificant = some .macroParam := by
  induction moves with
  | last => rfl
  | more _ _ _ _ induction => exact induction

namespace Inside

theorem closes {mayBeEmpty : Nat → Prop} (inside : Inside text found l run) {closer : Token}
    (hcloser : closer.kind = .newline) (hempty : run = [] → mayBeEmpty closer.start.line) :
    LaysOut mayBeEmpty (run ++ [closer]) := by
  intro laid hlaid
  by_cases hrun : run = []
  · rw [hrun]
    exact .empty hlaid hcloser (hempty hrun)
  · exact .line hlaid hrun inside.words hcloser

theorem closes_body {mayBeEmpty : Nat → Prop} (inside : Inside text found l run)
    {colon : Token} (param : Token) {tokens : List Token} (hheader : l.withHeader = true)
    (htokens : tokens = [colon, param]) (hcolon : colon.kind = .op) (htext : colon.text = ":")
    (hparam : param.kind = .macroParam) :
    LaysOut mayBeEmpty (run ++ tokens.filter Token.isVisible) := by
  have hvisible : tokens.filter Token.isVisible = [colon, param] := by
    simp [htokens, Token.isVisible, hcolon, hparam]
  intro laid hlaid
  rw [hvisible, List.append_cons]
  refine .body hlaid ⟨(inside.header.announced hheader).mono (List.subset_append_left _ _), colon,
    by simp, by simp [Token.isOp, hcolon, htext]⟩ ?_ hparam
  intro token htoken
  obtain hold | hnew := List.mem_append.mp htoken
  · exact inside.words token hold
  · rw [List.mem_singleton.mp hnew, hcolon]
    rfl

theorem mayBeEmpty_of_closed (inside : Inside text found l run) (houtside : l.Outside)
    (hfresh : ¬ l.Fresh) (hcontinued : l.continued = false) (hrun : run = []) :
    MayBeEmpty text found l.lineNumber := by
  obtain ⟨_, _, hstarts | hempty | hset⟩ := (inside.unbegun hrun).outside houtside
  · exact absurd hstarts hfresh
  · exact hempty
  · rw [hcontinued] at hset
    cases hset

theorem not_fresh_of_hidden {kind : TokenKind} {count : Nat} {token : Token}
    (plain : Plain l kind count) (hkind : token.kind = kind) (hhidden : token.isVisible = false)
    (hodd : kind ≠ .error) : ¬ l.Fresh := by
  rintro ⟨c, rest, hfresh, hspace, hcomment, hbreak⟩
  cases plain with
  | space hrest hfirst | newline hrest hfirst | nl hrest hfirst =>
    rw [hfresh] at hrest
    obtain ⟨rfl, _⟩ := List.cons.inj hrest
    simp [*] at hfirst
  | comment hrest =>
    rw [hfresh] at hrest
    exact hcomment (List.cons.inj hrest).1
  | odd => exact hodd rfl
  | _ => simp [Token.isVisible, hkind] at hhidden

theorem plain {kind : TokenKind} {count : Nat} {open_ : List Opening}
    (inside : Inside text found l run) (cursor : Cursor text l) (placed : Placed text l)
    (inStep : InStep l.modes l.brackets open_) (hpending : l.pending = []) (houtside : l.Outside)
    (plain : Plain l kind count) :
    Inside text (found ++ (l.take kind count).pending) (l.take kind count)
        (run ++ (l.take kind count).pending.filter Token.isVisible) ∨
      Between (l.take kind count) ∧
        LaysOut (MayBeEmpty text (found ++ (l.take kind count).pending))
          (run ++ (l.take kind count).pending.filter Token.isVisible) := by
  have moves : Moves l (l.take kind count) := .plain houtside plain
  have hcontinued := inside.continued_of_rest plain.rest_ne_nil
  obtain ⟨token, htokens, hkind, hline⟩ : ∃ token, (l.take kind count).pending = [token] ∧
      token.kind = kind ∧ token.start.line = l.lineNumber :=
    ⟨⟨kind, String.ofList (l.rest.take count), l.here, ⟨l.lineNumber, l.column + count⟩,
      l.lineText⟩, by simp [hpending], rfl, rfl⟩
  have hmarked : Marked (l.take kind count) := inside.marked.of_subset (by simp)
  by_cases hnewline : kind = .newline
  · subst hnewline
    have hvisible : token.isVisible = true := by simp [Token.isVisible, hkind]
    have hnotFresh : ¬ l.Fresh := by
      rintro ⟨c, rest, hfresh, _, _, hbreak⟩
      cases plain with
      | newline hrest hfirst =>
        rw [hfresh] at hrest
        obtain ⟨rfl, _⟩ := List.cons.inj hrest
        simp [hbreak] at hfirst
    have hbrackets : l.brackets = [] := by
      cases plain with
      | newline _ _ hbrackets => exact hbrackets
    have hrest : (l.take .newline count).rest = [] := by
      cases plain with
      | newline => simp
    rw [hbrackets] at inStep
    have hmodes := (inStep.nil_of_brackets_nil houtside).1
    refine .inr ⟨⟨hrest, ⟨by simpa using hmodes, by simpa using hbrackets, by simpa using hcontinued⟩,
      rfl, .of_recent rfl rfl rfl⟩, ?_⟩
    · rw [htokens, List.filter_cons_of_pos hvisible]
      refine inside.closes hkind fun hrun => ?_
      rw [hline]
      exact (inside.mayBeEmpty_of_closed houtside hnotFresh hcontinued hrun).mono _
  · have hlayout : kind.isLayout = false := by
      cases plain <;> first | rfl | exact absurd rfl hnewline
    have hends : (l.take kind count).rest = [] → (l.take kind count).AtStatement →
        (l.take kind count).unread = [] := by
      by_cases hnl : kind = .nl
      · subst hnl
        cases plain with
        | nl _ _ hbrackets => exact ends_of_brackets (by simpa using hbrackets)
      · exact ends_of_stopsShort _ cursor placed (plain.stopsShort hnewline hnl) plain.rest_ne_nil
          (by simp) (by simp)
    left
    by_cases hvisible : token.isVisible = true
    · have hfiller : kind.isFiller = false := by
        revert hvisible
        rw [← hkind, Token.isVisible]
        cases token.kind <;> simp [TokenKind.isFiller]
      refine inside.grown moves ?_ ⟨token, ?_, hvisible⟩ hmarked hends (by simpa using hcontinued) ?_
      · rw [htokens]
        simpa [hkind] using hlayout
      · rw [htokens]
        exact List.mem_cons_self
      · exact needsNewline_word l kind count hlayout hfiller
    · rw [Bool.not_eq_true] at hvisible
      refine inside.kept moves ?_ hmarked hends ?_ ?_ ?_
      · rw [htokens, List.filter_cons_of_neg (by simp [hvisible]), List.filter_nil]
      · simp [hcontinued]
      · rw [needsNewline_take l hlayout]
        exact fun hloud => by rw [hloud, Bool.true_or]
      · intro unbegun
        obtain ⟨hbrackets, hmodes, hwhy⟩ := unbegun.outside houtside
        refine ⟨by simpa using hbrackets, .inl ⟨by simpa using hmodes, .inr (.inl ?_)⟩⟩
        rw [(take_frame l kind count).2.2.2.1]
        by_cases hodd : kind = .error
        · exact .inl ⟨token, by rw [htokens]; simp, hkind.trans hodd, hvisible, hline⟩
        · obtain hfresh | hempty | hset := hwhy
          · exact absurd hfresh (not_fresh_of_hidden plain hkind hvisible hodd)
          · exact hempty.mono _
          · rw [hcontinued] at hset
            cases hset

theorem literalText_words (l : Lexer) (count : Nat) (chars : String) (start : Position) :
    ∀ token ∈ l.literalText count chars start, token.kind.isLayout = false := by
  unfold literalText
  split
  · simp
  · simp [TokenKind.isLayout]

theorem closer_leads {table : List String} {op : String} {closer : Char}
    (hmatch : Spelling.firstMatch table l.rest = some op) (hcloser : closer? op = some closer) :
    ∃ rest, l.rest = closer :: rest ∧ closer ≠ '\n' := by
  obtain ⟨rest, hrest⟩ := (Spelling.firstMatch_leads hmatch).2
  rw [← hrest]
  unfold closer? at hcloser
  split at hcloser <;> cases hcloser <;> exact ⟨rest, rfl, by decide⟩

theorem colon_found {table : List String} (hmatch : Spelling.firstMatch table l.rest = some ":")
    (hpending : l.pending = []) (hm : m = { l with withHeader := false }.take .op 1) :
    ∃ colon, m.pending = [colon] ∧ colon.kind = .op ∧ colon.text = ":" := by
  refine ⟨⟨.op, String.ofList (l.rest.take 1), l.here, ⟨l.lineNumber, l.column + 1⟩, l.lineText⟩,
    ?_, rfl, congrArg String.ofList (Spelling.firstMatch_take hmatch)⟩
  rw [hm, take_pending]
  exact congrArg (· ++ _) hpending

theorem openField {mode : LexMode} {outer : List LexMode} {count : Nat} {chars : String}
    {start : Position} (inside : Inside text found l run) (moves : Moves l (m.openField count))
    (hflush : m.flushText count = m.flushed count chars start (mode :: outer))
    (hpending : m.pending = []) (hcontinued : m.continued = false)
    (hmode : ∀ quote ∈ mode.quote?, quote.mark ≠ '\n') (houter : outer ⊆ l.modes) :
    Inside text (found ++ (m.openField count).pending) (m.openField count)
      (run ++ (m.openField count).pending.filter Token.isVisible) := by
  have htokens : (m.openField count).pending = m.literalText count chars start ++
      [⟨.op, String.ofList ((m.rest.drop count).take 1), ⟨m.lineNumber, m.column + count⟩,
        ⟨m.lineNumber, m.column + count + 1⟩, m.lineText⟩] := by
    simp [Lexer.openField, hflush, pushMode, pushBracket, hpending, here]
  have hmodes : (m.openField count).modes =
      .fstringField (m.brackets.depth + 1) :: mode :: outer := by
    simp [Lexer.openField, hflush, pushMode, pushBracket, BracketStack.depth]
  refine inside.grown moves ?_ ?_ ?_ (ends_of_modes (by simp [hmodes])) ?_ ?_
  · rw [htokens]
    simpa [or_imp, forall_and, TokenKind.isLayout] using literalText_words m count chars start
  · exact ⟨_, by rw [htokens]; exact List.mem_append_right _ List.mem_cons_self,
      by simp [Token.isVisible]⟩
  · intro inner hinner
    rw [hmodes] at hinner
    obtain rfl | hinner := List.mem_cons.mp hinner
    · simp [LexMode.quote?]
    · obtain rfl | hinner := List.mem_cons.mp hinner
      · exact hmode
      · exact inside.marked inner (houter hinner)
  · simp [Lexer.openField, hflush, pushMode, pushBracket, hcontinued]
  · exact needsNewline_word (m.flushText count) .op 1 rfl rfl

theorem move {open_ : List Opening} (inside : Inside text found l run) (cursor : Cursor text l)
    (hplaced : l.rest ≠ [] → Placed text l) (inStep : InStep l.modes l.brackets open_)
    (hpending : l.pending = []) (moves : Moves l l') (hlive : l'.finished = false) :
    Inside text (found ++ l'.pending) l' (run ++ l'.pending.filter Token.isVisible) ∨
      Between l' ∧ LaysOut (MayBeEmpty text (found ++ l'.pending))
        (run ++ l'.pending.filter Token.isVisible) := by
  have hmoves := moves
  have none_after {line : List Char} {unread : Source} {P : Prop} (hrest : l.rest = [])
      (hunread : l.unread = .text line :: unread) (hplace : l.AtStatement) : P := by
    have hnone := inside.ends hrest hplace
    rw [hunread] at hnone
    cases hnone
  cases moves with
  | finish => simp at hlive
  | blankLine hrest hunread hplace | commentLine hrest hunread hplace
  | emptyLine hrest hunread hplace | indented hrest hunread hplace | level hrest hunread hplace
  | outdented hrest hunread hplace => exact none_after hrest hunread hplace
  | @resumeLine line unread hrest hunread hplace =>
    refine .inl (inside.kept hmoves ?_ (inside.marked.of_subset (List.Subset.refl _)) ?_ ?_ id ?_)
    · simp [freshLine, nextLine, enterLine, hpending]
    · exact fun hend => absurd hend (cursor.line_ne_nil hunread)
    · simp [freshLine]
    · rintro ⟨hbrackets, ⟨hmodes, _⟩ | hstring⟩
      · have hset : l.continued = true := by
          rw [← Bool.not_eq_false]
          exact fun hunset => hplace ⟨hmodes, hbrackets, hunset⟩
        exact ⟨hbrackets, .inl ⟨hmodes, .inr (.inl (.inr ⟨_, rfl, (inside.continued hset).2⟩))⟩⟩
      · exact ⟨hbrackets, .inr hstring⟩
  | @stringEnd quote chars line start outer length hmodes hrest hend =>
    have hmark : quote.mark ≠ '\n' := inside.marked _ (by rw [hmodes]; exact List.mem_cons_self)
      quote rfl
    refine .inl (inside.grown hmoves ?_ ?_ ?_ ?_ (inside.continued_of_rest hrest) rfl)
    · simp [push, advance, hpending, TokenKind.isLayout]
    · simp [push, advance, hpending, Token.isVisible]
    · exact inside.marked.of_subset (by rw [hmodes]; exact List.subset_cons_self _ _)
    · exact ends_of_stopsShort _ cursor (hplaced hrest)
        (stopsShort_of_getElem? (Quote.closingEnd?_last hend) hmark) hrest rfl rfl
  | @stringLine quote chars line start outer hmodes hrest hend hgoes =>
    have hcontinued := inside.continued_of_rest hrest
    have hmark := inside.marked _ (by rw [hmodes]; exact List.mem_cons_self)
    refine .inl (inside.kept hmoves ?_ (inside.marked.of_cons rfl ?_ hmark) (ends_of_modes ?_) ?_ id
      ?_)
    · simp [skipLine, advance, hpending]
    · rw [hmodes]
      exact List.subset_cons_self _ _
    · exact List.cons_ne_nil _ _
    · simp [skipLine, advance, hcontinued]
    · rintro ⟨hbrackets, ⟨hnone, _⟩ | ⟨_, _, _, _, hstring⟩⟩
      · rw [hmodes] at hnone
        cases hnone
      · rw [hmodes] at hstring
        obtain ⟨_, rfl⟩ := List.cons.inj hstring
        exact ⟨hbrackets, .inr ⟨_, _, _, _, rfl⟩⟩
  | textLine hmodes hrest =>
    have hcontinued := inside.continued_of_rest hrest
    have hmark := inside.marked _ (by rw [hmodes]; exact List.mem_cons_self)
    refine .inl (inside.kept hmoves ?_ (inside.marked.of_cons rfl ?_ hmark) (ends_of_modes ?_) ?_ id
      ?_)
    · simp [skipLine, advance, hpending]
    · rw [hmodes]
      exact List.subset_cons_self _ _
    · exact List.cons_ne_nil _ _
    · simp [skipLine, advance, hcontinued]
    · exact fun unbegun => absurd unbegun (not_unbegun_of_modes hmodes (by simp))
  | @textEnd m quote chars start outer count hmodes hrest hm hscan =>
    have hcontinued := inside.continued_of_rest hrest
    have hmark : quote.mark ≠ '\n' := inside.marked _ (by rw [hmodes]; exact List.mem_cons_self)
      quote rfl
    have hflush := flushText_of_text (l := m) (by rw [hm]) count
    obtain ⟨_, hcloses⟩ := scanText_quote hscan
    rw [Nat.sub_zero] at hcloses
    have hlast := Quote.closes_last hcloses
    rw [List.getElem?_drop, ← Nat.add_sub_assoc quote.size_pos] at hlast
    refine .inl (inside.grown hmoves ?_ ?_ ?_ ?_ ?_ ?_)
    · have hwords := literalText_words m count (chars ++ String.ofList (m.rest.take count))
        (if chars.isEmpty then l.here else start)
      simp only [hflush, take_frame, flushed_frame]
      rw [show m.pending = [] by rw [hm]; exact hpending]
      simpa [or_imp, forall_and, TokenKind.isLayout] using hwords
    · exact ⟨_, by simp only [take_frame]; exact List.mem_append_right _ List.mem_cons_self,
        by simp [Token.isVisible]⟩
    · exact inside.marked.of_subset (by rw [hmodes]; exact List.subset_cons_self _ _)
    · refine ends_of_stopsShort _ cursor (hplaced hrest) (stopsShort_of_getElem? hlast hmark) hrest
        ?_ ?_
      · simp only [hflush, take_frame, flushed_frame, List.drop_drop]
        rw [hm]
      · simp only [hflush, take_frame, flushed_frame]
        rw [hm]
    · simp only [hflush, take_frame, flushed_frame]
      rw [hm]
      exact hcontinued
    · exact needsNewline_word (m.flushText count) .fstringEnd quote.size rfl rfl
  | @textField m quote chars start outer count hmodes hrest hm hscan =>
    have hmark := inside.marked _ (by rw [hmodes]; exact List.mem_cons_self)
    refine .inl (inside.openField hmoves (flushText_of_text (l := m) (by rw [hm]) count) ?_ ?_ hmark
      (by rw [hmodes]; exact List.subset_cons_self _ _))
    · rw [hm]
      exact hpending
    · rw [hm]
      exact inside.continued_of_rest hrest
  | @specField m chars start outer count hmodes hrest hm hscan =>
    refine .inl (inside.openField hmoves (flushText_of_spec (l := m) (by rw [hm]) count) ?_ ?_
      (by simp [LexMode.quote?]) (by rw [hmodes]; exact List.subset_cons_self _ _))
    · rw [hm]
      exact hpending
    · rw [hm]
      exact inside.continued_of_rest hrest
  | @specEnd m n chars start outer count top brackets hmodes hrest hm hscan hn =>
    have hcontinued := inside.continued_of_rest hrest
    have hflush := flushText_of_spec (l := m) (by rw [hm]) count
    rw [hflush] at hn
    obtain ⟨_, hbrace⟩ := scanSpec_close hscan
    rw [Nat.sub_zero, List.head?_eq_getElem?, List.getElem?_drop] at hbrace
    refine .inl (inside.grown hmoves ?_ ?_ ?_ ?_ ?_ ?_)
    · have hwords := literalText_words m count (chars ++ String.ofList (m.rest.take count))
        (if chars.isEmpty then l.here else start)
      simp only [hn, take_frame, flushed_frame]
      rw [show m.pending = [] by rw [hm]; exact hpending]
      simpa [or_imp, forall_and, TokenKind.isLayout] using hwords
    · exact ⟨_, by simp only [take_frame]; exact List.mem_append_right _ List.mem_cons_self,
        by simp [Token.isVisible]⟩
    · refine inside.marked.of_subset ?_
      simp only [hn, flushed_frame, List.drop_succ_cons]
      rw [hmodes]
      exact List.Subset.trans (List.drop_subset _ _) (List.subset_cons_self _ _)
    · refine ends_of_stopsShort (count + 1) cursor (hplaced hrest)
        (stopsShort_of_getElem? hbrace (by decide)) hrest ?_ ?_
      · simp only [hn, take_frame, flushed_frame, List.drop_drop]
        rw [hm]
      · simp only [hn, take_frame, flushed_frame]
        rw [hm]
    · simp only [hn, take_frame, flushed_frame]
      rw [hm]
      exact hcontinued
    · exact needsNewline_word { n with brackets } .op 1 rfl rfl
  | plain houtside hplain =>
    exact inside.plain cursor (hplaced hplain.rest_ne_nil) inStep hpending houtside hplain
  | continuation houtside hrest hend =>
    have hsome : l.rest ≠ [] := by
      rw [hrest]
      exact List.cons_ne_nil _ _
    have joins := joinsNext cursor (hplaced hsome) hrest hend
    refine .inl (inside.kept hmoves ?_ (inside.marked.of_subset (List.Subset.refl _)) ?_ ?_ id ?_)
    · simp [skipLine, advance, hpending]
    · exact fun _ hplace => absurd hplace.2.2 (by simp)
    · exact fun _ => ⟨List.drop_length, joins⟩
    · intro unbegun
      obtain ⟨hbrackets, hmodes, _⟩ := unbegun.outside houtside
      exact ⟨hbrackets, .inl ⟨hmodes, .inr (.inr rfl)⟩⟩
  | @stringStart letters quote houtside hopening hplain hend hgoes =>
    have hcontinued := inside.continued_of_rest (rest_ne_nil_of_opening hopening)
    have hmark : ∀ quote' ∈ (LexMode.string quote (String.ofList l.rest) l.here l.lineText).quote?,
        quote'.mark ≠ '\n' := by
      rintro quote' hquote
      rw [← Option.some.inj hquote]
      exact Quote.mark_ne_lineFeed (StringLetters.mark_of_opening? hopening)
    refine .inl (inside.kept hmoves ?_ (inside.marked.of_cons rfl (List.Subset.refl _) hmark)
      (ends_of_modes ?_) ?_ id ?_)
    · simp [skipLine, advance, pushMode, hpending]
    · exact List.cons_ne_nil _ _
    · simp [skipLine, advance, pushMode, hcontinued]
    · intro unbegun
      obtain ⟨hbrackets, hmodes, _⟩ := unbegun.outside houtside
      exact ⟨hbrackets, .inr ⟨_, _, _, _, congrArg (List.cons _) hmodes⟩⟩
  | @fstringStart m letters quote houtside hopening hformatted hm =>
    have hcontinued := inside.continued_of_rest (rest_ne_nil_of_opening hopening)
    have hmark : ∀ quote' ∈ (LexMode.fstringText quote "" m.here).quote?, quote'.mark ≠ '\n' := by
      rintro quote' hquote
      rw [← Option.some.inj hquote]
      exact Quote.mark_ne_lineFeed (StringLetters.mark_of_opening? hopening)
    refine .inl (inside.grown hmoves ?_ ?_ (inside.marked.of_cons rfl ?_ hmark) (ends_of_modes ?_)
      ?_ ?_)
    · simp [pushMode, hm, hpending, TokenKind.isLayout]
    · simp [pushMode, hm, hpending, Token.isVisible]
    · simp [hm]
    · exact List.cons_ne_nil _ _
    · simp [pushMode, hm, hcontinued]
    · rw [hm]
      exact needsNewline_word l .fstringStart (letters.length + quote.size) rfl rfl
  | envVariable houtside hcommand hrest hstart =>
    have hsome : l.rest ≠ [] := by
      rw [hrest]
      exact List.cons_ne_nil _ _
    refine .inl (inside.grown hmoves ?_ ?_ (inside.marked.of_subset ?_) (ends_of_brackets ?_) ?_ ?_)
    · simp [takeWhile, hpending, TokenKind.isLayout]
    · simp [takeWhile, hpending, Token.isVisible]
    · simp [takeWhile]
    · simpa [takeWhile] using brackets_of_inCommand hcommand
    · simpa [takeWhile] using inside.continued_of_rest hsome
    · exact needsNewline_word (l.take .op 1) .name _ rfl rfl
  | @closer table op top brackets houtside hmatch hcloser hbrackets =>
    have hsome := rest_ne_nil_of_firstMatch hmatch
    obtain ⟨rest, hrest, hmark⟩ := closer_leads hmatch hcloser
    refine .inl (inside.grown hmoves ?_ ?_ (inside.marked.of_subset ?_) ?_ ?_ ?_)
    · simp [hpending, TokenKind.isLayout]
    · simp [hpending, Token.isVisible]
    · simp only [take_frame]
      split
      · exact List.drop_subset _ _
      · exact List.Subset.refl _
    · exact ends_of_stopsShort 1 cursor (hplaced hsome)
        (stopsShort_of_getElem? (by rw [hrest]; rfl) hmark) hsome (by simp) (by simp)
    · simpa using inside.continued_of_rest hsome
    · exact needsNewline_word _ .op 1 rfl rfl
  | opener houtside hmatch =>
    have hsome := rest_ne_nil_of_firstMatch hmatch
    refine .inl (inside.grown hmoves ?_ ?_ (inside.marked.of_subset ?_) (ends_of_brackets ?_) ?_ ?_)
    · simp [pushBracket, hpending, TokenKind.isLayout]
    · simp [pushBracket, hpending, Token.isVisible]
    · simp [pushBracket]
    · simp [pushBracket]
    · simpa [pushBracket] using inside.continued_of_rest hsome
    · exact needsNewline_word _ .op _ rfl rfl
  | @call m _ table houtside hmatch hcallable hm harguments =>
    have hsome := rest_ne_nil_of_firstMatch hmatch
    obtain ⟨captured, htokens, hkinds⟩ := harguments.pending
    obtain ⟨_, hmodes, hcontinued, _, _, _, hbrackets, _⟩ := harguments.progress
    refine .inl (inside.grown hmoves ?_ ?_ (inside.marked.of_subset ?_) (ends_of_brackets ?_) ?_ ?_)
    · rw [htokens, hm]
      intro token htoken
      simp only [take_frame, pushBracket, hpending, List.nil_append, List.singleton_append,
        List.mem_cons] at htoken
      obtain rfl | htoken := htoken
      · rfl
      · rw [hkinds token htoken]
        rfl
    · rw [htokens, hm]
      simp [pushBracket, hpending, Token.isVisible]
    · rw [hmodes, hm]
      simp [pushBracket]
    · rw [hbrackets, hm]
      simp [pushBracket]
    · rw [hcontinued, hm]
      simpa [pushBracket] using inside.continued_of_rest hsome
    · rw [needsNewline, harguments.lastSignificant]
  | @rawCommand m n table top brackets raw rest houtside hcommand hmatch hm hbrackets hcapture
      hfloor hrest =>
    have hsome := rest_ne_nil_of_firstMatch hmatch
    have reads := hcapture.readsOn
    refine .inl (inside.grown hmoves ?_ ?_ (inside.marked.of_subset ?_) (ends_of_brackets ?_) ?_
      rfl)
    · simp [push, reads.pending, hm, hpending, RawText.toToken, TokenKind.isLayout]
    · simp [push, reads.pending, hm, hpending, RawText.toToken, Token.isVisible]
    · simp [push, reads.modes, hm]
    · change n.brackets ≠ []
      rw [hfloor, hbrackets]
      exact List.cons_ne_nil _ _
    · simpa [push, reads.continued, hm] using inside.continued_of_rest hsome
  | @announce table announced houtside hhost hmatch =>
    have hsome := rest_ne_nil_of_firstMatch hmatch
    refine .inl (inside.grown hmoves ?_ ?_ (inside.marked.of_subset ?_) ?_ ?_ ?_)
    · simp [hpending, TokenKind.isLayout]
    · simp [hpending, Token.isVisible]
    · simp
    · refine ends_of_stopsShort 1 cursor (hplaced hsome) (stopsShort_of_take ?_) hsome
        (by simp) (by simp)
      rw [show l.rest.take 1 = ['!'] from Spelling.firstMatch_take hmatch]
      decide
    · simpa using inside.continued_of_rest hsome
    · exact needsNewline_word _ .op 1 rfl rfl
  | @spec m table houtside hmatch hfield hm =>
    have hsome := rest_ne_nil_of_firstMatch hmatch
    refine .inl (inside.grown hmoves ?_ ?_
      (inside.marked.of_cons rfl ?_ (by simp [LexMode.quote?])) (ends_of_modes ?_) ?_ ?_)
    · simp [pushMode, hm, hpending, TokenKind.isLayout]
    · simp [pushMode, hm, hpending, Token.isVisible]
    · simp [hm]
    · exact List.cons_ne_nil _ _
    · simpa [pushMode, hm] using inside.continued_of_rest hsome
    · rw [hm]
      exact needsNewline_word l .op 1 rfl rfl
  | @bodyLine m n table content houtside hmatch hfield hheader hbrackets hm hidle hgathers =>
    have hsome := rest_ne_nil_of_firstMatch hmatch
    obtain ⟨colon, hcolon, hop, htext⟩ := colon_found hmatch hpending hm
    have reads := hgathers.readsOn
    rw [hbrackets] at inStep
    have hmodes := (inStep.nil_of_brackets_nil houtside).1
    refine .inr ⟨⟨List.drop_length, ⟨?_, ?_, ?_⟩, rfl, ?_⟩, ?_⟩
    · simp [endCapturedLine, skipLine, advance, reads.modes, hm, hmodes]
    · simp [endCapturedLine, skipLine, advance, hgathers.brackets, hm, hbrackets]
    · simp [endCapturedLine, skipLine, advance, reads.continued, hm,
        inside.continued_of_rest hsome]
    · have hannounced : n.withHeader = false := by
        rw [reads.withHeader, hm]
        rfl
      exact .of_recent rfl rfl hannounced
    · exact inside.closes_body ⟨.macroParam, String.ofList content, m.here, n.lineEnd,
        n.lineText⟩ hheader (by simp [endCapturedLine, skipLine, advance, reads.pending, hcolon])
        hop htext rfl
  | @bodyBlock m n table content first houtside hmatch hfield hheader hbrackets hm hidle hgathers =>
    have hsome := rest_ne_nil_of_firstMatch hmatch
    obtain ⟨colon, hcolon, hop, htext⟩ := colon_found hmatch hpending hm
    have reads := (readsOn_advance m m.rest.length).trans hgathers.readsOn
    rw [hbrackets] at inStep
    have hmodes := (inStep.nil_of_brackets_nil houtside).1
    refine .inr ⟨⟨rfl, ⟨?_, ?_, ?_⟩, rfl, ?_⟩, ?_⟩
    · simp [endCapturedLine, reads.modes, hm, hmodes]
    · simp [endCapturedLine, hgathers.brackets, skipLine, advance, hm, hbrackets]
    · simp [endCapturedLine, reads.continued, hm, inside.continued_of_rest hsome]
    · have hannounced : n.withHeader = false := by
        rw [reads.withHeader, hm]
        rfl
      exact .of_recent rfl rfl hannounced
    · exact inside.closes_body ⟨.macroParam, String.ofList (dedent content), ⟨first, 0⟩,
        n.lineEnd, n.lineText⟩ hheader (by simp [endCapturedLine, reads.pending, hcolon]) hop htext rfl

end Inside

end Lexer

end ShellSyntax
