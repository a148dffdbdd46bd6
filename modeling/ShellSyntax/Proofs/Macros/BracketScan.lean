import ShellSyntax.Proofs.Lexer.LineEndTokens
import ShellSyntax.Proofs.Lexer.Passing
import ShellSyntax.Proofs.Lexer.Quotations
import ShellSyntax.Proofs.Lexer.Stacks
import ShellSyntax.Proofs.Parser.LineMoves

/-!
Raw bodies on the line of their colon end where a scan for open brackets ends, and not where the lexer
ends the line. The scan sees characters where the lexer sees tokens. Where each token says to the scan
what it says to the lexer, both end at the same line.
-/

namespace ShellSyntax

namespace Lexeme

/-! ### Scanned text -/

/-- The text leaves no quote open and has no comment. `quote` is the quote that is open at its
start. -/
def isClosed : (quote : Option Char) → List Char → Bool
  | quote, [] => quote.isNone
  | some _, ['\\'] => false
  | some q, '\\' :: _ :: rest => isClosed (some q) rest
  | some q, c :: rest => isClosed (if c = q then none else some q) rest
  | none, c :: rest =>
    if c == '\'' || c == '"' then isClosed (some c) rest else c != '#' && isClosed none rest

variable {quote : Option Char} {text : List Char}

/-- In quotes every character counts alike, except for the backslash and the quote. -/
theorem scan_quoted {q c : Char} (hplain : c ≠ '\\') (rest : List Char) :
    isClosed (some q) (c :: rest) = isClosed (if c = q then none else some q) rest ∧
      bracketBalance (some q) (c :: rest) =
        bracketBalance (if c = q then none else some q) rest := by
  cases rest <;> simp [isClosed, bracketBalance, hplain]

theorem scan_append (hclosed : isClosed quote text = true) (more : List Char) :
    isClosed quote (text ++ more) = isClosed none more ∧
      bracketBalance quote (text ++ more) =
        bracketBalance quote text + bracketBalance none more := by
  induction quote, text using isClosed.induct with
  | case1 quote =>
    rw [isClosed, Option.isNone_iff_eq_none] at hclosed
    subst hclosed
    simp [bracketBalance]
  | case2 => simp [isClosed] at hclosed
  | case3 q c rest induction =>
    rw [isClosed] at hclosed
    simpa [isClosed, bracketBalance] using induction hclosed
  | case4 q c rest hone htwo induction =>
    have hplain : c ≠ '\\' := by
      rintro rfl
      cases rest with
      | nil => exact hone rfl rfl
      | cons d rest => exact htwo _ _ rfl rfl
    rw [(scan_quoted hplain rest).1] at hclosed
    rw [List.cons_append, (scan_quoted hplain _).1, (scan_quoted hplain _).2,
      (scan_quoted hplain rest).2]
    exact induction hclosed
  | case5 c rest hquote induction =>
    rw [isClosed, if_pos hquote] at hclosed
    simpa [isClosed, bracketBalance, hquote] using induction hclosed
  | case6 c rest hother induction =>
    rw [isClosed, if_neg hother, Bool.and_eq_true] at hclosed
    obtain ⟨hcomment, hclosed⟩ := hclosed
    obtain ⟨hsame, hsum⟩ := induction hclosed
    have hcontent : ¬ (c == '#') = true := by simpa using hcomment
    rw [List.cons_append, isClosed, bracketBalance, bracketBalance, hsame, hsum, hcomment]
    simp only [if_neg hother, if_neg hcontent, Bool.true_and]
    refine ⟨trivial, ?_⟩
    split
    · omega
    · split <;> omega

theorem scan_breaks (hbreaks : ∀ c ∈ text, isLineBreak c = true) :
    isClosed none text = true ∧ bracketBalance none text = 0 := by
  induction text with
  | nil => exact ⟨rfl, rfl⟩
  | cons c rest induction =>
    have hc := hbreaks c List.mem_cons_self
    obtain ⟨hclosed, hnone⟩ := induction fun d hd => hbreaks d (List.mem_cons_of_mem _ hd)
    rw [isLineBreak, Bool.or_eq_true, beq_iff_eq, beq_iff_eq] at hc
    obtain rfl | rfl := hc <;> simp [isClosed, bracketBalance, hclosed, hnone]

end Lexeme

/-! ### Transparent tokens -/

/-- How many brackets the token opens. -/
def Token.opens (t : Token) : Int :=
  if t.kind ≠ .op then 0
  else if (Opener.ofSpelling? t.text).isSome then 1
  else if (Lexer.closer? t.text).isSome then -1
  else 0

/-- The token stands on one line and says to the scan what it says to the lexer. Parts of f-strings
and raw text do not. -/
structure Token.IsTransparent (t : Token) : Prop where
  kind : t.kind ∉ [TokenKind.fstringStart, .macroParam]
  layout : t.kind.isLayout = false
  call : t.isOp Opener.bangParen.spelling = false
  line : t.stop.line = t.start.line
  closed : Lexeme.isClosed none t.text.toList = true
  balance : Lexeme.bracketBalance none t.text.toList = t.opens

instance (t : Token) : Decidable t.IsTransparent :=
  decidable_of_iff
    (t.kind ∉ [TokenKind.fstringStart, .macroParam] ∧ t.kind.isLayout = false ∧
      t.isOp Opener.bangParen.spelling = false ∧ t.stop.line = t.start.line ∧
      Lexeme.isClosed none t.text.toList = true ∧
      Lexeme.bracketBalance none t.text.toList = t.opens)
    ⟨fun ⟨kind, layout, call, line, closed, balance⟩ =>
        ⟨kind, layout, call, line, closed, balance⟩,
      fun ht => ⟨ht.kind, ht.layout, ht.call, ht.line, ht.closed, ht.balance⟩⟩

/-- Transparent tokens, and maybe a comment behind them. -/
def Transparent (tokens : List Token) : Prop :=
  ∀ before t after, tokens = before ++ t :: after →
    t.IsTransparent ∨ t.kind = .comment ∧ after = []

/-- The tokens of a line and the line end behind them say to the scan what they say to the lexer. -/
structure TransparentLine (tokens : List Token) (lineEnd : Token) : Prop where
  transparent : Transparent tokens
  /-- The last of them is on the line of the line end, and no backslash stands between the two. -/
  last : ∃ t ∈ tokens.getLast?, t.stop.line = lineEnd.start.line ∧
    ∃ c ∈ t.text.toList.getLast?, c ≠ '\\' ∧ Lexeme.isLineBreak c = false
  lineEnd : ∀ c ∈ lineEnd.text.toList, Lexeme.isLineBreak c = true

namespace Transparent

variable {tokens more : List Token} {t : Token}

theorem left (transparent : Transparent (tokens ++ more)) : Transparent tokens := by
  intro before t after hsplit
  refine (transparent before t (after ++ more) (by simp [hsplit])).imp_right ?_
  rintro ⟨hkind, hafter⟩
  exact ⟨hkind, (List.append_eq_nil_iff.mp hafter).1⟩

theorem right (transparent : Transparent (tokens ++ more)) : Transparent more := by
  intro before t after hsplit
  exact transparent (tokens ++ before) t after (by simp [hsplit])

theorem of_followed (transparent : Transparent (tokens ++ more)) (hmore : more ≠ [])
    (ht : t ∈ tokens) : t.IsTransparent := by
  obtain ⟨before, after, rfl⟩ := List.append_of_mem ht
  refine (transparent before t (after ++ more) (by simp)).resolve_right ?_
  rintro ⟨_, hafter⟩
  exact hmore (List.append_eq_nil_iff.mp hafter).2

theorem of_mem (transparent : Transparent tokens) (ht : t ∈ tokens) (hkind : t.kind ≠ .comment) :
    t.IsTransparent := by
  obtain ⟨before, after, rfl⟩ := List.append_of_mem ht
  exact (transparent before t after rfl).resolve_right fun h => hkind h.1

end Transparent

namespace Lexer

open Lexeme (isClosed bracketBalance isLineBreak)
open Relation (ReflTransGen)

variable {text : List Char}

theorem goesOn_of_open (hopen : 0 < bracketBalance none text) : goesOn text = true := by
  simp [goesOn, hopen]

/-- Text with no more openers than closers goes on if a backslash stands before the line end. -/
theorem goesOn_of_line {body breaks : List Char} {c : Char} (hc : isLineBreak c = false)
    (hbreaks : ∀ d ∈ breaks, isLineBreak d = true) (hlast : body.getLast? = some c) :
    goesOn (body ++ breaks) =
      (decide (0 < bracketBalance none (body ++ breaks)) || c == '\\') := by
  have hbare : Text.withoutTerminator breaks = [] := by
    rw [Text.withoutTerminator, List.reverse_eq_nil_iff, List.dropWhile_eq_nil_iff]
    exact fun d hd => hbreaks d (List.mem_reverse.mp hd)
  rw [goesOn, Lexeme.withoutTerminator_append hlast hc, hbare, List.append_nil, hlast]
  simp

theorem Physical.unread_eq_nil {l : Lexer} (physical : l.Physical) (hrest : l.rest ≠ [])
    {count : Nat} (hshort : l.StopsShort count) (hall : l.rest.drop count = []) :
    l.unread = [] := by
  obtain ⟨hnone, _⟩ | cut := physical
  · exact absurd hnone hrest
  · exact cut.unread_eq_nil (hshort (List.drop_eq_nil_iff.mp hall))

/-! ### Bodies on the line of their colon -/

/-- The text `first` goes on over `lines`. -/
def GoesOnOver (first : List Char) (lines : List (List Char)) : Prop :=
  ∀ before after, lines = before ++ after → after ≠ [] → goesOn (first ++ before.flatten) = true

/-- Behind `m` the lexer has come to `l`, in the same logical line, and has found these tokens: the
text over `lines` is `done`, which is closed, and maybe the comment `note`, and the rest of the line. -/
structure InBody (m : Lexer) (found : List Token) (l : Lexer) (lines : List (List Char))
    (done note : List Char) : Prop where
  modes : l.modes = []
  unread : m.unread = lines.map .text ++ l.unread
  number : l.lineNumber = m.lineNumber + lines.length
  goesOn : GoesOnOver m.rest lines
  text : m.rest ++ lines.flatten = done ++ (note ++ l.rest)
  isClosed : isClosed none done = true
  balance : bracketBalance none done = l.brackets.length
  comment : note ≠ [] → note.head? = some '#' ∧ (∀ c ∈ l.rest, isLineBreak c = true) ∧
    (l.rest = [] → l.unread = []) ∧ ∃ t ∈ found.getLast?, t.text.toList = note
  ends : l.rest = [] → l.AtStatement → l.unread = []
  continued : l.continued = true → l.rest = [] ∧ Lexer.goesOn (m.rest ++ lines.flatten) = true
  last : ∀ t ∈ found.getLast?, t.stop.line ≤ l.lineNumber ∧
    (l.continued = false → t.stop.line = l.lineNumber → t.text.toList <:+ done ++ note)

namespace InBody

variable {m l l' : Lexer} {found : List Token} {lines : List (List Char)}
  {done note : List Char} {t : Token}

theorem note_eq_nil (inBody : InBody m found l lines done note)
    (transparent : Transparent (found ++ [t])) : note = [] := by
  by_contra hsome
  obtain ⟨hhead, _, _, last, hlast, rfl⟩ := inBody.comment hsome
  have hclosed :=
    (transparent.of_followed (List.cons_ne_nil _ _) (List.mem_of_getLast? hlast)).closed
  obtain ⟨rest, hrest⟩ := List.head?_eq_some_iff.mp hhead
  rw [hrest] at hclosed
  cases hclosed

theorem token (inBody : InBody m found l lines done note)
    (transparent : Transparent (found ++ [t])) (ht : t.IsTransparent)
    (hrest : l.rest = t.text.toList ++ l'.rest) (hunread : l'.unread = l.unread)
    (hnumber : l'.lineNumber = l.lineNumber) (hmodes : l'.modes = l.modes)
    (hcontinued : l'.continued = false) (hstop : t.stop.line = l.lineNumber)
    (hbrackets : (l'.brackets.length : Int) = l.brackets.length + t.opens)
    (hends : l'.rest = [] → l'.AtStatement → l'.unread = []) :
    InBody m (found ++ [t]) l' lines (done ++ t.text.toList) [] where
  modes := hmodes.trans inBody.modes
  unread := hunread ▸ inBody.unread
  number := hnumber.trans inBody.number
  goesOn := inBody.goesOn
  text := by
    rw [inBody.text, inBody.note_eq_nil transparent, hrest]
    simp
  isClosed := (Lexeme.scan_append inBody.isClosed _).1.trans ht.closed
  balance := by
    rw [(Lexeme.scan_append inBody.isClosed _).2, inBody.balance, ht.balance, hbrackets]
  comment := fun h => absurd rfl h
  ends := hends
  continued h := by
    rw [hcontinued] at h
    cases h
  last last hlast := by
    rw [List.getLast?_concat, Option.mem_some] at hlast
    subst hlast
    refine ⟨Nat.le_of_eq (hstop.trans hnumber.symm), fun _ _ => ?_⟩
    rw [List.append_nil]
    exact List.suffix_append _ _

theorem withComment (inBody : InBody m found l lines done note) (physical : l.Physical)
    (hnote : note = []) {rest : List Char} (hrest : l.rest = '#' :: rest)
    (hcontinued : l.continued = false) :
    let count := Lexeme.contentLength l.rest
    InBody m (found ++ [l.cutToken .comment count]) (l.take .comment count) lines done
      (l.rest.take count) := by
  have hcount : 0 < Lexeme.contentLength l.rest := hrest ▸ Lexeme.contentLength_pos rfl
  have hshort : l.StopsShort (Lexeme.contentLength l.rest) := Lexeme.getLast?_of_content
  have hbreaks := Lexeme.isLineBreak_behind_content l.rest
  generalize Lexeme.contentLength l.rest = count at hcount hshort hbreaks
  exact {
    modes := by simpa using inBody.modes
    unread := by simpa using inBody.unread
    number := by simpa using inBody.number
    goesOn := inBody.goesOn
    text := by simp [inBody.text, hnote]
    isClosed := inBody.isClosed
    balance := by simpa using inBody.balance
    comment _ := by
      refine ⟨?_, by simpa using hbreaks, ?_, l.cutToken .comment count, by simp,
        by simp [cutToken]⟩
      · rw [hrest, List.head?_take, if_neg (Nat.ne_of_gt hcount)]
        rfl
      · simpa using physical.unread_eq_nil (by simp [hrest]) hshort
    ends hend _ := by
      simpa using physical.unread_eq_nil (by simp [hrest]) hshort (by simpa using hend)
    continued h := by simp [hcontinued] at h
    last last hlast := by
      rw [List.getLast?_concat, Option.mem_some] at hlast
      subst hlast
      refine ⟨by simp [cutToken], fun _ _ => ?_⟩
      simp only [cutToken, String.toList_ofList]
      exact List.suffix_append _ _ }

theorem goesOn_of_unread (inBody : InBody m found l lines done note) (hrest : l.rest = [])
    (hunread : l.unread ≠ []) : Lexer.goesOn (m.rest ++ lines.flatten) = true := by
  have hnote : note = [] := by
    by_contra hsome
    exact hunread ((inBody.comment hsome).2.2.1 hrest)
  by_cases hcontinued : l.continued = true
  · exact (inBody.continued hcontinued).2
  · have hopen : l.brackets ≠ [] := fun hnone =>
      hunread (inBody.ends hrest ⟨inBody.modes, hnone, Bool.eq_false_iff.mpr hcontinued⟩)
    refine goesOn_of_open ?_
    rw [inBody.text, hnote, hrest, List.append_nil, List.append_nil, inBody.balance]
    exact_mod_cast List.length_pos_iff.mpr hopen

theorem nextLine (inBody : InBody m found l lines done note) {line : List Char} {unread : Source}
    (hrest : l.rest = []) (hunread : l.unread = .text line :: unread) (hline : line ≠ []) :
    InBody m found (l.freshLine line unread) (lines ++ [line]) done note where
  modes := inBody.modes
  unread := by
    rw [inBody.unread, hunread]
    simp [freshLine, Lexer.nextLine, enterLine]
  number := by
    simp only [freshLine, Lexer.nextLine, enterLine, inBody.number, List.length_append,
      List.length_singleton]
    omega
  goesOn before after hsplit hafter := by
    obtain rfl | ⟨after, last, rfl⟩ := List.eq_nil_or_concat after
    · exact absurd rfl hafter
    · rw [List.concat_eq_append, ← List.append_assoc] at hsplit
      obtain ⟨hlines, _⟩ := List.append_inj' hsplit rfl
      by_cases hnone : after = []
      · rw [hnone, List.append_nil] at hlines
        rw [← hlines]
        exact inBody.goesOn_of_unread hrest (by simp [hunread])
      · exact inBody.goesOn before after hlines hnone
  text := by
    rw [List.flatten_append, ← List.append_assoc, inBody.text, hrest]
    simp [freshLine, Lexer.nextLine, enterLine]
  isClosed := inBody.isClosed
  balance := inBody.balance
  comment hsome := by
    obtain ⟨_, _, hnone, _⟩ := inBody.comment hsome
    rw [hnone hrest] at hunread
    cases hunread
  ends hend := absurd hend hline
  continued := nofun
  last t ht := by
    have hbefore := (inBody.last t ht).1
    simp only [freshLine, Lexer.nextLine, enterLine]
    exact ⟨by omega, fun _ hstop => by omega⟩

theorem continuation (inBody : InBody m found l lines done note) (physical : l.Physical)
    (hnote : note = []) {rest : List Char} (hrest : l.rest = '\\' :: rest)
    (hend : Lexeme.atLineEnd rest = true) :
    InBody m found { l.skipLine with continued := true } lines (done ++ l.rest) [] := by
  have hbreaks : ∀ c ∈ rest, isLineBreak c = true := by
    obtain ⟨hnone, _⟩ | cut := physical
    · rw [hnone] at hrest
      cases hrest
    · rw [hrest] at cut
      exact cut.breaks_of_atLineEnd hend
  have hclosed : Lexeme.isClosed none ('\\' :: rest) = true ∧ bracketBalance none ('\\' :: rest) = 0 := by
    simpa [Lexeme.isClosed, Lexeme.bracketBalance] using Lexeme.scan_breaks hbreaks
  have htext : m.rest ++ lines.flatten = done ++ ['\\'] ++ rest := by
    rw [inBody.text, hnote, hrest]
    simp
  have hskip : ({ l.skipLine with continued := true } : Lexer).rest = [] := by
    simp [skipLine, advance]
  exact {
    modes := inBody.modes
    unread := inBody.unread
    number := inBody.number
    goesOn := inBody.goesOn
    text := by
      rw [inBody.text, hnote, hskip]
      simp
    isClosed := by
      rw [(Lexeme.scan_append inBody.isClosed _).1, hrest, hclosed.1]
    balance := by
      rw [(Lexeme.scan_append inBody.isClosed _).2, inBody.balance, hrest, hclosed.2, Int.add_zero]
      rfl
    comment := fun h => absurd rfl h
    ends := by
      rintro _ ⟨_, _, hcontinued⟩
      cases hcontinued
    continued := by
      refine fun _ => ⟨hskip, ?_⟩
      rw [htext, goesOn_of_line (by decide) hbreaks List.getLast?_concat]
      simp
    last := fun t ht => ⟨(inBody.last t ht).1, by simp⟩ }

end InBody

/-- The cursor stands in a string that began on an earlier line. -/
def InLongString (l : Lexer) : Prop :=
  ∃ quote text start line, l.modes = [.string quote text start line] ∧
    start.line ≤ l.lineNumber ∧ (l.rest ≠ [] → start.line < l.lineNumber)

/-- Behind `m` the lexer has come to `l` and has found these tokens, and the logical line goes on. -/
def StaysInBody (m : Lexer) (found : List Token) (l : Lexer) : Prop :=
  (∃ lines done note, InBody m found l lines done note) ∨ InLongString l

variable {m l l' : Lexer} {found : List Token}

theorem InLongString.move (inLongString : InLongString l) (moves : Moves l l')
    (hpending : l.pending = []) :
    l'.pending = [] ∧ InLongString l' ∨
      ∃ t, l'.pending = [t] ∧ t.kind = .string ∧ t.start.line < t.stop.line := by
  obtain ⟨quote, text, start, line, hmodes, hstart, hlater⟩ := inLongString
  have hinside (houtside : l.Outside) : False := by
    obtain h | ⟨_, _, h⟩ := houtside <;> simp [hmodes] at h
  cases moves with
  | finish _ _ hplace | blankLine _ _ hplace | commentLine _ _ hplace | emptyLine _ _ hplace
  | indented _ _ hplace | level _ _ hplace | outdented _ _ hplace =>
    rw [hplace.1] at hmodes
    cases hmodes
  | resumeLine hrest hunread =>
    refine .inl ⟨hpending, quote, text, start, line, hmodes, ?_, fun _ => ?_⟩
    · exact Nat.le_succ_of_le hstart
    · exact Nat.lt_succ_of_le hstart
  | @stringEnd _ _ _ _ _ length hmodes' hrest hend =>
    rw [hmodes] at hmodes'
    cases hmodes'
    refine .inr ⟨⟨.string, text ++ String.ofList (l.rest.take length), start,
      (l.advance length).here, line⟩, ?_, rfl, hlater hrest⟩
    simp [push, advance, hpending]
  | stringLine hmodes' hrest hend hgoes =>
    rw [hmodes] at hmodes'
    cases hmodes'
    refine .inl ⟨hpending, _, _, _, _, rfl, hstart, ?_⟩
    simp [skipLine, advance]
  | textLine hmodes' | textEnd hmodes' | textField hmodes' | specField hmodes'
  | specEnd hmodes' =>
    rw [hmodes] at hmodes'
    cases hmodes'
  | plain houtside | continuation houtside | stringStart houtside | fstringStart houtside
  | envVariable houtside | closer houtside | opener houtside | call houtside
  | rawCommand houtside | announce houtside | spec houtside | bodyLine houtside
  | bodyBlock houtside => exact (hinside houtside).elim

theorem opens_of_neutral {t : Token} (neutral : Neutral t) : t.opens = 0 := by
  have hfollow := neutral.2 []
  unfold Token.opens
  split
  · rfl
  case isFalse hop =>
    rw [not_not] at hop
    simp only [Opening.follow, hop] at hfollow
    cases hopener : Opener.ofSpelling? t.text with
    | some opener => simp [hopener] at hfollow
    | none =>
      cases hcloser : closer? t.text with
      | some closer => simp [hopener, hcloser] at hfollow
      | none => rfl

theorem InBody.take {lines : List (List Char)} {done note : List Char} {kind : TokenKind}
    {count : Nat} (inBody : InBody m found l lines done note)
    (transparent : Transparent (found ++ [l.cutToken kind count])) (hkind : kind ≠ .comment)
    (hcontinued : l.continued = false) (brackets : BracketStack)
    (hbrackets : (brackets.length : Int) = l.brackets.length + (l.cutToken kind count).opens)
    (hends : l.rest.drop count = [] → brackets = [] → l.unread = [])
    (hl' : l'.rest = l.rest.drop count ∧ l'.unread = l.unread ∧ l'.lineNumber = l.lineNumber ∧
      l'.modes = l.modes ∧ l'.continued = l.continued ∧ l'.brackets = brackets) :
    ∃ done, InBody m (found ++ [l.cutToken kind count]) l' lines done [] := by
  obtain ⟨hrest, hunread, hnumber, hmodes, hsame, rfl⟩ := hl'
  have ht := transparent.of_mem (List.mem_append_right _ (List.mem_singleton_self _)) hkind
  refine ⟨_, inBody.token transparent ht ?_ hunread hnumber hmodes
    (hsame.trans hcontinued) rfl hbrackets fun hend hplace => ?_⟩
  · rw [hrest, cutToken, String.toList_ofList, List.take_append_drop]
  · rw [hunread]
    exact hends (hrest ▸ hend) hplace.2.1

theorem InBody.move {lines : List (List Char)} {done note : List Char}
    (inBody : InBody m found l lines done note) (physical : l.Physical) (hpending : l.pending = [])
    (moves : Moves l l') (transparent : Transparent (found ++ l'.pending)) :
    StaysInBody m (found ++ l'.pending) l' := by
  have none_after {line : List Char} {unread : Source} {P : Prop} (hrest : l.rest = [])
      (hunread : l.unread = .text line :: unread) (hplace : l.AtStatement) : P := by
    have hnone := inBody.ends hrest hplace
    rw [hunread] at hnone
    cases hnone
  have other_mode {mode : LexMode} {outer : List LexMode} {P : Prop}
      (hmodes : l.modes = mode :: outer) : P := by
    rw [inBody.modes] at hmodes
    cases hmodes
  have hcontinued (hrest : l.rest ≠ []) : l.continued = false :=
    Bool.eq_false_iff.mpr fun h => hrest (inBody.continued h).1
  have opaque_ {t : Token} {P : Prop} (ht : t ∈ l'.pending)
      (hkind : t.kind ∈ [TokenKind.fstringStart, .macroParam]) : P := by
    have hcomment : t.kind ≠ .comment := fun h => by simp [h] at hkind
    exact absurd hkind (transparent.right.of_mem ht hcomment).kind
  have stays {found : List Token} {l' : Lexer} {lines : List (List Char)}
      (next : ∃ done, InBody m found l' lines done []) : StaysInBody m found l' := by
    obtain ⟨done, next⟩ := next
    exact .inl ⟨lines, done, [], next⟩
  cases moves with
  | finish _ _ hplace =>
    have hmarker : (⟨.endMarker, "", l.sourceEnd, l.sourceEnd, ""⟩ : Token) ∈ l.close.pending := by
      simp [closingTokens]
    cases (transparent.right.of_mem hmarker (by simp)).layout
  | blankLine hrest hunread hplace | commentLine hrest hunread hplace
  | emptyLine hrest hunread hplace | indented hrest hunread hplace | level hrest hunread hplace
  | outdented hrest hunread hplace => exact none_after hrest hunread hplace
  | @resumeLine line unread hrest hunread hplace =>
    have hline : line ≠ [] := by
      rintro rfl
      exact physical.unread.empty_notMem (by simp [hunread])
    have hnone : (l.freshLine line unread).pending = [] := hpending
    rw [hnone, List.append_nil]
    exact .inl ⟨_, _, _, inBody.nextLine hrest hunread hline⟩
  | stringEnd hmodes | stringLine hmodes | textLine hmodes | textEnd hmodes | textField hmodes
  | specField hmodes | specEnd hmodes => exact other_mode hmodes
  | @plain kind count houtside hplain =>
    rw [take_pending, hpending, List.nil_append] at transparent ⊢
    have hnote := inBody.note_eq_nil transparent
    have hcontinued := hcontinued hplain.rest_ne_nil
    by_cases hkind : kind = .comment
    · subst hkind
      cases hplain with
      | comment hrest => exact .inl ⟨_, _, _, inBody.withComment physical hnote hrest hcontinued⟩
    · have ht := transparent.of_mem (List.mem_append_right _ (List.mem_singleton_self _)) hkind
      have hline : kind ≠ .newline := by
        rintro rfl
        cases ht.layout
      refine stays (inBody.take transparent hkind hcontinued l.brackets ?_ ?_ (by simp))
      · rw [opens_of_neutral (t := l.cutToken kind count) (hplain.neutral hline), Int.add_zero]
      · intro hend hnone
        by_cases hnl : kind = .nl
        · subst hnl
          cases hplain with
          | nl _ _ hbrackets => exact absurd hnone hbrackets
        · exact physical.unread_eq_nil hplain.rest_ne_nil (hplain.stopsShort hline hnl) hend
  | continuation houtside hrest hend =>
    have hnone : ({ l.skipLine with continued := true } : Lexer).pending = [] := hpending
    rw [hnone, List.append_nil]
    have hnote : note = [] := by
      by_contra hsome
      have hbreak := (inBody.comment hsome).2.1 '\\' (by simp [hrest])
      exact absurd hbreak (by decide)
    exact .inl ⟨_, _, _, inBody.continuation physical hnote hrest hend⟩
  | @stringStart letters quote houtside hopening hplain hend hgoes =>
    refine .inr ⟨quote, String.ofList l.rest, l.here, l.lineText, ?_, Nat.le_refl _,
      fun h => absurd ?_ h⟩
    · simp [skipLine, advance, pushMode, inBody.modes]
    · simp [skipLine, advance, pushMode]
  | @fstringStart _ letters quote houtside hopening hformatted hm =>
    exact opaque_ (t := l.cutToken .fstringStart (letters.length + quote.size))
      (by simp [hm, pushMode, hpending, cutToken]) (by simp [cutToken])
  | @envVariable c rest houtside hcommand hrest hstart =>
    have hopen := brackets_of_inCommand hcommand
    have hcontinued := hcontinued (by simp [hrest])
    let m' := l.take .op 1
    have hpending' : ((l.take .op 1).takeWhile .name Lexeme.continuesName).pending =
        [l.cutToken .op 1] ++
          [m'.cutToken .name (m'.rest.takeWhile Lexeme.continuesName).length] := by
      rw [takeWhile, take_pending, take_pending, hpending]
      rfl
    rw [hpending', ← List.append_assoc] at transparent ⊢
    have hsign : (l.cutToken .op 1).opens = 0 := by
      rw [cutToken, hrest]
      rfl
    obtain ⟨done, inBody⟩ : ∃ done, InBody m (found ++ [l.cutToken .op 1]) m' lines done [] :=
      inBody.take transparent.left (by simp) hcontinued l.brackets (by rw [hsign, Int.add_zero])
        (fun _ h => absurd h hopen) (by simp [m'])
    refine stays (inBody.take transparent (by simp) (by simpa [m'] using hcontinued)
      l.brackets ?_ (fun _ h => absurd h hopen) (by simp [takeWhile, m']))
    simp [Token.opens, cutToken, m']
  | @closer table text top brackets houtside hmatch hcloser hbrackets =>
    obtain ⟨rest, hrest, hfeed⟩ := Inside.closer_leads hmatch hcloser
    have hlevel : l.atFieldLevel = false := by rw [atFieldLevel, inBody.modes]
    obtain ⟨hlength, hopener⟩ := closer?_eq_some hcloser
    have htext := Spelling.firstMatch_take hmatch
    rw [hlength] at htext
    have hopens : (l.cutToken .op 1).opens = -1 := by
      simp [Token.opens, cutToken, htext, hopener, hcloser]
    rw [take_pending, show ({ l with brackets, modes := _ } : Lexer).pending = [] from hpending,
      List.nil_append] at transparent ⊢
    refine stays (inBody.take transparent (by simp) (hcontinued (by simp [hrest]))
      brackets ?_ ?_ (by simp [hlevel]))
    · rw [hopens, hbrackets, List.length_cons]
      omega
    · intro hend _
      have hshort : l.StopsShort 1 := stopsShort_of_take (by simpa [hrest] using hfeed.symm)
      exact physical.unread_eq_nil (by simp [hrest]) hshort hend
  | @opener table opener houtside hmatch =>
    have htext := Spelling.firstMatch_take hmatch
    have hopens : (l.cutToken .op opener.spelling.length).opens = 1 := by
      simp [Token.opens, cutToken, htext, Opener.ofSpelling?_spelling]
    rw [take_pending, show (l.pushBracket _).pending = [] from hpending,
      List.nil_append] at transparent ⊢
    refine stays (inBody.take transparent (by simp) (hcontinued (rest_ne_nil_of_firstMatch hmatch))
      (.opened opener l.brackets.realm l.here :: l.brackets) ?_
      (fun _ h => absurd h (List.cons_ne_nil _ _)) (by simp [pushBracket]))
    rw [hopens, List.length_cons]
    omega
  | @call n _ table houtside hmatch hcallable hm harguments =>
    obtain ⟨captured, hcaptured, _⟩ := harguments.pending
    have hopening : l.cutToken .op 2 ∈ l'.pending := by
      rw [hcaptured, hm, take_pending, show (l.pushBracket _).pending = [] from hpending]
      exact List.mem_append_left _ (List.mem_singleton_self _)
    have htext : String.ofList (l.rest.take 2) = Opener.bangParen.spelling :=
      (congrArg String.ofList (Spelling.firstMatch_take hmatch)).trans String.ofList_toList
    have hcall := (transparent.right.of_mem hopening (by simp)).call
    rw [cutToken, htext] at hcall
    cases hcall
  | @rawCommand _ n table top brackets raw rest houtside hcommand hmatch hm hbrackets hcapture
      hfloor hrest =>
    exact opaque_ (t := raw.toToken n.lineText) (by simp [push]) (by simp [RawText.toToken])
  | announce houtside hhost hmatch =>
    have htext : l.rest.take 1 = ['!'] := Spelling.firstMatch_take hmatch
    rw [take_pending, show ({ l with withHeader := _ } : Lexer).pending = [] from hpending,
      List.nil_append] at transparent ⊢
    have hrest := rest_ne_nil_of_firstMatch hmatch
    refine stays (inBody.take transparent (by simp) (hcontinued hrest) l.brackets ?_ ?_
      (by simp))
    · rw [opens_of_neutral (t := l.cutToken .op 1) (neutral_sign hmatch rfl (by decide)),
        Int.add_zero]
    · intro hend _
      have hshort : l.StopsShort 1 := stopsShort_of_take (by simp [htext])
      exact physical.unread_eq_nil hrest hshort hend
  | spec houtside hmatch hfield =>
    rw [atFieldLevel, inBody.modes] at hfield
    cases hfield
  | @bodyLine m' n table text houtside hmatch hfield hheader hbrackets hm hidle hgathers =>
    exact opaque_ (t := ⟨.macroParam, String.ofList text, m'.here, n.lineEnd, n.lineText⟩)
      (by simp [endCapturedLine, skipLine, advance]) (by simp)
  | @bodyBlock _ n table text first houtside hmatch hfield hheader hbrackets hm hidle hgathers =>
    exact opaque_ (t := ⟨.macroParam, String.ofList (Text.dedent text), ⟨first, 0⟩, n.lineEnd,
      n.lineText⟩) (by simp [endCapturedLine]) (by simp)

/-! ### The end of the line -/

/-- A raw body on the line of its colon: the text `first` behind the colon and `lines`. It ends with
the first line at which its text does not go on. -/
structure LineBody (first : List Char) (lines : List (List Char)) : Prop where
  goesOn : GoesOnOver first lines
  ends : Lexer.goesOn (first ++ lines.flatten) = false

theorem step_lineBreak (houtside : l.Outside) {c : Char} {rest : List Char}
    (hrest : l.rest = c :: rest) (hc : isLineBreak c = true) :
    step l = .ok () (l.takeRest (if l.brackets.isEmpty then .newline else .nl)) := by
  have hspace : Lexeme.isSpace c = false := by
    rw [isLineBreak, Bool.or_eq_true, beq_iff_eq, beq_iff_eq] at hc
    obtain rfl | rfl := hc <;> decide
  rw [step_of_outside (by simp [hrest]) houtside]
  simp only [scanToken, Outcome.run_bind, Outcome.run_get, hrest, hspace, hc]
  rfl

namespace InBody

variable {lines : List (List Char)} {done note : List Char}

theorem not_goesOn (inBody : InBody m found l lines done note) (hbrackets : l.brackets = [])
    (hcontinued : l.continued = false) (hbreaks : ∀ c ∈ l.rest, isLineBreak c = true)
    {place : Nat} (hplace : place = l.lineNumber)
    (hlast : ∃ t ∈ found.getLast?, t.stop.line = place ∧
      ∃ c ∈ t.text.toList.getLast?, c ≠ '\\' ∧ isLineBreak c = false) :
    Lexer.goesOn (m.rest ++ lines.flatten) = false := by
  obtain ⟨t, ht, hstop, c, hc, hescape, hbreak⟩ := hlast
  obtain ⟨before, hbefore⟩ := (inBody.last t ht).2 hcontinued (hstop.trans hplace)
  have hend : (done ++ note).getLast? = some c := by
    rw [← hbefore, List.getLast?_append, Option.mem_def.mp hc]
    rfl
  have hbalance : bracketBalance none (done ++ (note ++ l.rest)) = 0 := by
    rw [(Lexeme.scan_append inBody.isClosed _).2, inBody.balance, hbrackets]
    by_cases hnote : note = []
    · rw [hnote, List.nil_append, (Lexeme.scan_breaks hbreaks).2]
      rfl
    · obtain ⟨rest, hcomment⟩ := List.head?_eq_some_iff.mp (inBody.comment hnote).1
      rw [hcomment]
      rfl
  rw [← List.append_assoc] at hbalance
  rw [inBody.text, ← List.append_assoc, goesOn_of_line hbreak hbreaks hend, hbalance]
  simpa using hescape

theorem lineEnd (inBody : InBody m found l lines done note) (hpending : l.pending = [])
    (hworks : l.finished = false) (hstep : step l = .ok () l') (moves : Moves l l')
    {new after : List Token} {lineEnd : Token} (hsplit : l'.pending = new ++ lineEnd :: after)
    (hkind : lineEnd.kind = .newline) (hline : TransparentLine (found ++ new) lineEnd) :
    LineBody m.rest lines ∧ lineEnd.start.line = m.lineNumber + lines.length := by
  have waiting : Waiting (Adds l l') l := by
    intro t ht
    rw [hpending] at ht
    cases ht
  have adds := waiting.move moves (fun _ => id) lineEnd (by simp [hsplit])
  have hlayout {t : Token} (ht : t ∈ new) : t.kind.isLayout = false := by
    by_cases hcomment : t.kind = .comment
    · rw [hcomment]
      rfl
    · exact (hline.transparent.right.of_mem ht hcomment).layout
  have hends (hplace : lineEnd.start.line = l.lineNumber) (hnew : new = [])
      (hbrackets : l.brackets = []) (hcontinued : l.continued = false)
      (hbreaks : ∀ c ∈ l.rest, isLineBreak c = true) :
      LineBody m.rest lines ∧ lineEnd.start.line = m.lineNumber + lines.length := by
    have hlast := hline.last
    rw [hnew, List.append_nil] at hlast
    exact ⟨⟨inBody.goesOn, inBody.not_goesOn hbrackets hcontinued hbreaks hplace hlast⟩,
      hplace.trans inBody.number⟩
  cases adds with
  | closing hrest hunread hl' htoken =>
    have hplace : l.AtStatement := by
      obtain hsame | ⟨_, _, _, hplace⟩ := (moves.progress hworks).ends
      · rw [hl', hworks] at hsame
        simp at hsame
      · exact hplace
    rw [hl', close_pending, hpending, List.nil_append] at hsplit
    have hnew : new = [] := by
      refine List.eq_nil_iff_forall_not_mem.mpr fun t ht => ?_
      have hclosing := layout_of_closing t (by rw [hsplit]; exact List.mem_append_left _ ht)
      rw [hlayout ht] at hclosing
      cases hclosing
    refine hends ?_ hnew hplace.2.1 hplace.2.2 (by simp [hrest])
    rw [hnew, List.nil_append] at hsplit
    unfold closingTokens missingNewline at hsplit
    split at hsplit
    · rw [← (List.cons.inj hsplit).1]
      rfl
    · have hmem : lineEnd ∈ lineEnd :: after := List.mem_cons_self
      rw [← hsplit] at hmem
      simp only [List.nil_append, List.mem_append, List.mem_replicate, List.mem_singleton] at hmem
      obtain ⟨_, rfl⟩ | rfl := hmem <;> cases hkind
  | @plain kind count hplain =>
    obtain rfl : kind = .newline := hkind
    cases hplain with
    | newline hrest hbreak hbrackets =>
      have hnext := step_lineBreak (.inl inBody.modes) hrest hbreak
      rw [hbrackets] at hnext
      obtain rfl : l.takeRest .newline = l' := by
        rw [hnext] at hstep
        cases hstep
        rfl
      rw [takeRest, take_pending, hpending, List.nil_append] at hsplit
      have hnew : new = [] := by
        cases new with
        | nil => rfl
        | cons t new => simp at hsplit
      exact hends rfl hnew hbrackets
        (Bool.eq_false_iff.mpr fun h => by simp [(inBody.continued h).1] at hrest)
        (by simpa [cutToken] using hline.lineEnd)
  | comment | behindComment | emptyLine | envName | fstringStart | fstringEnd => cases hkind
  | other hother =>
    rw [hkind] at hother
    exact absurd hother (by decide)

end InBody

/-! ### Runs -/

/-- From `l` on the lexer finds these tokens and comes to `l'`. -/
def RunsTo (l : Lexer) (found : List Token) (l' : Lexer) : Prop :=
  ReflTransGen (fun state next => following state.1 state.2 = some next) ([], l) (found, l')

/-- The state `count` steps further on, handing out tokens included. -/
def followed : (count : Nat) → List Token × Lexer → Option (List Token × Lexer)
  | 0, state => some state
  | count + 1, state => (following state.1 state.2).bind (followed count)

theorem RunsTo.of_run {count : Nat} (holds : List Token → Lexer → Bool)
    (hrun : (followed count ([], l)).any (fun run => holds run.1 run.2) = true) :
    ∃ found l', RunsTo l found l' ∧ holds found l' = true := by
  obtain ⟨⟨found, l'⟩, hfollowed, hholds⟩ := (Option.any_eq_true _ _).mp hrun
  refine ⟨found, l', ?_, hholds⟩
  clear hrun hholds
  unfold RunsTo
  generalize ([], l) = state at hfollowed ⊢
  induction count generalizing state with
  | zero =>
    obtain rfl := Option.some.inj hfollowed
    exact .refl
  | succ count induction =>
    obtain ⟨next, hnext, hfollowed⟩ := Option.bind_eq_some_iff.mp hfollowed
    exact .head hnext (induction next hfollowed)

/-- A raw body behind `m` ends on the line of this token. -/
def BodyEndsAt (m : Lexer) (lineEnd : Token) : Prop :=
  ∃ lines unread, m.unread = lines.map .text ++ unread ∧ LineBody m.rest lines ∧
    lineEnd.start.line = m.lineNumber + lines.length

/-- Behind `m` the lexer has found these tokens and has come to `l`, and as long as the tokens are
transparent it is in step with the scan. -/
structure AlongScan (m : Lexer) (tokens : List Token) (l : Lexer) : Prop where
  room : l.toCome < l.bound
  physical : l.Physical
  stays : Transparent tokens → StaysInBody m tokens l
  ended : ∀ before lineEnd after, tokens = before ++ lineEnd :: after →
    lineEnd.kind = .newline → TransparentLine before lineEnd → BodyEndsAt m lineEnd

namespace AlongScan

variable {tokens : List Token}

theorem layout_not_transparent {before after : List Token} {t : Token}
    (transparent : Transparent (before ++ t :: after)) (hlayout : t.kind.isLayout = true) :
    False := by
  have hmem : t ∈ before ++ t :: after := by simp
  have ht := transparent.of_mem hmem fun h => by simp [h, TokenKind.isLayout] at hlayout
  rw [ht.layout] at hlayout
  cases hlayout

theorem step (along : AlongScan m tokens l) (hpending : l.pending = [])
    (hworks : l.finished = false) (hstep : Lexer.step l = .ok () l') :
    AlongScan m (tokens ++ l'.pending) l' := by
  have moves := moves_of_step along.room hstep
  have progress := moves.progress hworks
  refine ⟨?_, ?_, fun transparent => ?_, ?_⟩
  · rw [progress.bound]
    exact Nat.lt_of_le_of_lt progress.toCome along.room
  · have physical := along.physical.step
    rwa [hstep] at physical
  · obtain ⟨lines, done, note, inBody⟩ | inLongString := along.stays transparent.left
    · exact inBody.move along.physical hpending moves transparent
    · obtain ⟨hnone, inLongString⟩ | ⟨t, ht, hkind, hlines⟩ := inLongString.move moves hpending
      · exact .inr inLongString
      · rw [ht] at transparent
        have hline := (transparent.of_mem (t := t) (by simp) (by simp [hkind])).line
        exact absurd hline (Nat.ne_of_gt hlines)
  · intro before lineEnd after hsplit hkind hline
    obtain ⟨middle, hfound, _⟩ | ⟨new, rfl, hnew⟩ := append_eq_split hsplit
    · exact along.ended before lineEnd middle hfound hkind hline
    · obtain ⟨lines, done, note, inBody⟩ | inLongString := along.stays hline.transparent.left
      · exact ⟨lines, _, inBody.unread,
          inBody.lineEnd hpending hworks hstep moves hnew hkind hline⟩
      · have hmem : lineEnd ∈ l'.pending := by simp [hnew]
        obtain ⟨hnone, _⟩ | ⟨t, ht, hstring, _⟩ := inLongString.move moves hpending
        · simp [hnone] at hmem
        · rw [ht, List.mem_singleton] at hmem
          rw [hmem, hstring] at hkind
          cases hkind

theorem handOut (along : AlongScan m tokens l) (pending : List Token) :
    AlongScan m tokens { l with pending } where
  room := along.room
  physical := along.physical
  stays transparent := by
    obtain ⟨lines, done, note, inBody⟩ | inLongString := along.stays transparent
    · exact .inl ⟨lines, done, note, inBody.modes, inBody.unread, inBody.number, inBody.goesOn,
        inBody.text, inBody.isClosed, inBody.balance, inBody.comment, inBody.ends,
        inBody.continued, inBody.last⟩
    · exact .inr inLongString
  ended := along.ended

theorem endMarker (along : AlongScan m tokens l) (number : Nat) :
    AlongScan m (tokens ++ [.endMarker number]) l where
  room := along.room
  physical := along.physical
  stays transparent := (layout_not_transparent transparent rfl).elim
  ended before lineEnd after hsplit hkind := by
    obtain ⟨_, _, rfl⟩ | ⟨middle, rfl, hfound⟩ := append_singleton_eq_split hsplit
    · cases hkind
    · exact along.ended before lineEnd middle hfound hkind

theorem run {colon : Token} {found : List Token} (start : AlongScan m [] l)
    (run : ReflTransGen (fun state next : List Token × Lexer =>
      following state.1 state.2 = some next) ([colon], l) (found, l')) :
    ∃ tokens, found = colon :: tokens ∧ AlongScan m tokens l' := by
  generalize hlast : (found, l') = last at run
  induction run generalizing found l' with
  | refl =>
    cases hlast
    exact ⟨[], rfl, start⟩
  | @tail before _ _ hnext induction =>
    subst hlast
    obtain ⟨tokens, htokens, along⟩ := induction rfl
    obtain ⟨earlier, l₁⟩ := before
    dsimp only at htokens along hnext
    subst htokens
    unfold following at hnext
    split at hnext
    case h_1 hpending =>
      cases hnext
      exact ⟨tokens, rfl, along.handOut _⟩
    case h_2 hpending =>
      split at hnext
      case isTrue hfinished =>
        cases hnext
        exact ⟨_, rfl, along.endMarker _⟩
      case isFalse hworks =>
        split at hnext
        case h_1 hstep =>
          cases hnext
          exact ⟨_, rfl, along.step hpending (Bool.eq_false_iff.mpr hworks) hstep⟩
        case h_2 => cases hnext

end AlongScan

end Lexer

end ShellSyntax
