import ShellSyntax.Proofs.Lexer.Frame
import ShellSyntax.Proofs.Lexer.Moves
import ShellSyntax.Proofs.Text.Slice

/-! What it means that tokens tile a text: each is cut out of it, and little is left between them. -/

namespace ShellSyntax

open Text

/-! ### Commas between macro arguments -/

namespace RawText

/-- The rest of a string literal reaches from one place in the text to another. -/
inductive Literal (text : List Char) (quote : Quote) : Nat → Nat → Prop
  | close {a : Nat} (hcloses : quote.closes (text.drop a) = true) :
      Literal text quote a (a + quote.size)
  | escape {a b : Nat} (hescape : text[a]? = some '\\') (next : Literal text quote (a + 2) b) :
      Literal text quote a b
  | char {a b : Nat} {c : Char} (hchar : text[a]? = some c) (hescape : c ≠ '\\')
      (hcloses : quote.closes (text.drop a) = false) (next : Literal text quote (a + 1) b) :
      Literal text quote a b

/-- The text from `a` on, read as raw text, leaves these brackets open. -/
inductive Leaves (text : List Char) (a : Nat) : Nat → List Opener → Prop
  | start : Leaves text a a []
  | literal {b c : Nat} {open_ : List Opener} {quote : Quote} (before : Leaves text a b open_)
      (hopening : Quote.opening? (text.drop b) = some quote)
      (hliteral : Literal text quote (b + quote.size) c) : Leaves text a c open_
  | opener {b : Nat} {c : Char} {open_ : List Opener} {opener : Opener}
      (before : Leaves text a b open_) (hchar : text[b]? = some c)
      (hopener : Opener.plain? c = some opener) : Leaves text a (b + 1) (opener :: open_)
  | closer {b : Nat} {open_ : List Opener} {opener : Opener}
      (before : Leaves text a b (opener :: open_)) (hchar : text[b]? = some opener.closer) :
      Leaves text a (b + 1) open_
  | char {b : Nat} {c : Char} {open_ : List Opener} (before : Leaves text a b open_)
      (hchar : text[b]? = some c) (hquote : Quote.opening? (text.drop b) = none)
      (hopener : Opener.plain? c = none) (hcloser : Lexer.isCloser c = false) :
      Leaves text a (b + 1) open_

end RawText

/-- A comma between the arguments of a macro call: behind a name and its opener there are only
arguments, and between the opener and the comma every bracket and literal that opens is closed. -/
def ArgumentComma (text : List Char) (found : List Token) (i : Nat) : Prop :=
  text[i]? = some ',' ∧ ∃ before opener arguments, found = before ++ opener :: arguments ∧
    opener.isOp Opener.bangParen.spelling = true ∧
    (∃ name ∈ before, name.kind = .name ∧ Spelling.isKeyword name.text = false ∧
      name.stop = opener.start) ∧
    (∀ argument ∈ arguments, argument.kind = .macroParam) ∧
    RawText.Leaves text (offset text opener.stop) i []

/-- In a comment: behind a number sign on the same line. -/
def InComment (text : List Char) (i : Nat) : Prop :=
  ∃ start ≤ i, text[start]? = some '#' ∧ ∀ k, start ≤ k → k < i → text[k]? ≠ some '\n'

def IsBlankAt (text : List Char) (i : Nat) : Prop :=
  ∃ c, text[i]? = some c ∧ isBlank c = true

def ContinuesLine (text : List Char) (i : Nat) : Prop :=
  text[i]? = some '\\' ∧ Lexeme.atLineEnd (text.drop (i + 1)) = true

/-- The tokens `found` account for this character though none of them contains it. -/
def Skipped (text : List Char) (found : List Token) (i : Nat) : Prop :=
  IsBlankAt text i ∨ ContinuesLine text i ∨ ArgumentComma text found i

/-- The token is the raw body of a statement on the lines below its colon. -/
def IsBlockBody (before : List Token) (token : Token) : Prop :=
  token.kind = .macroParam ∧
    ∃ earlier colon, before = earlier ++ [colon] ∧ colon.isOp ":" = true ∧
      colon.stop.line < token.start.line

/-- Tokens that are no stretch of the text: those of the layout that no character stands for, and
a body whose indentation was removed. -/
def IsVirtual (text : List Char) (before : List Token) (token : Token) : Prop :=
  token.kind = .indent ∨ token.kind = .dedent ∨ token.kind = .endMarker ∨
  (token.kind = .newline ∧ token.text = "" ∧ text.length ≤ offset text token.start) ∨
  IsBlockBody before token

def OnLine (text : List Char) (place : Position) : Prop :=
  offset text place ≤ upTo text place.line

theorem onLine_lineStart (text : List Char) (line : Nat) : OnLine text ⟨line, 0⟩ :=
  upTo_mono text (Nat.sub_le line 1)

theorem offset_mono {text : List Char} {p q : Position} (hp : OnLine text p) (hpq : p ≤ q) :
    offset text p ≤ offset text q := by
  rcases Position.le_iff.mp hpq with hline | ⟨hline, hcolumn⟩
  · have hlines := upTo_mono text (Nat.le_sub_one_of_lt hline)
    rw [OnLine] at hp
    rw [offset] at hp ⊢
    rw [offset]
    omega
  · simp only [offset, hline]
    omega

/-- The token is the text from its start to its end. -/
def IsVerbatim (text : List Char) (token : Token) : Prop :=
  token.text.toList = slice text token.start token.stop ∧
    OnLine text token.start ∧ OnLine text token.stop

def Contains (text : List Char) (token : Token) (i : Nat) : Prop :=
  offset text token.start ≤ i ∧ i < offset text token.stop

/-- The tokens tile the text. -/
structure Tiles (text : List Char) (tokens : List Token) : Prop where
  ordered : ∀ before token next after, tokens = before ++ token :: next :: after →
    token.stop ≤ next.start
  forward : ∀ token ∈ tokens, token.start ≤ token.stop
  verbatim : ∀ before token after, tokens = before ++ token :: after →
    IsVirtual text before token ∨ IsVerbatim text token
  covers : ∀ i < text.length, (∃ token ∈ tokens, Contains text token i) ∨
    IsBlankAt text i ∨ ContinuesLine text i ∨
    (∃ found later, tokens = found ++ later ∧ ArgumentComma text found i) ∨
    ∃ before colon body after, tokens = before ++ colon :: body :: after ∧
      IsBlockBody (before ++ [colon]) body ∧ offset text colon.stop ≤ i ∧
      i < offset text body.start ∧ InComment text i

/-! ### Tiling up to a place -/

/-- The tokens `found` tile the text up to a place. -/
inductive Tiled (text : List Char) : List Token → Position → Prop
  | start : Tiled text [] ⟨0, 0⟩
  | token {found : List Token} {token : Token} (tiled : Tiled text found token.start)
      (hforward : token.start ≤ token.stop) (hverbatim : IsVerbatim text token) :
      Tiled text (found ++ [token]) token.stop
  | skip {found : List Token} {p q : Position} (tiled : Tiled text found p) (hforward : p ≤ q)
      (hskipped : ∀ i, offset text p ≤ i → i < offset text q → Skipped text found i) :
      Tiled text found q
  | layout {found : List Token} {token : Token} (tiled : Tiled text found token.start)
      (hkind : token.kind = .indent ∨ token.kind = .dedent ∨ token.kind = .endMarker)
      (hline : OnLine text token.start) (hstop : token.stop = token.start) :
      Tiled text (found ++ [token]) token.stop
  | newline {found : List Token} {token : Token} (tiled : Tiled text found token.start)
      (hkind : token.kind = .newline) (htext : token.text = "") (hline : OnLine text token.start)
      (hend : text.length ≤ offset text token.start) (hforward : token.start ≤ token.stop) :
      Tiled text (found ++ [token]) token.stop
  | body {found : List Token} {colon token : Token} (tiled : Tiled text (found ++ [colon]) colon.stop)
      (hbody : IsBlockBody (found ++ [colon]) token) (hline : OnLine text token.start)
      (hforward : token.start ≤ token.stop)
      (hskipped : ∀ i, offset text colon.stop ≤ i → i < offset text token.start →
        IsBlankAt text i ∨ InComment text i) :
      Tiled text (found ++ [colon] ++ [token]) token.stop

namespace Tiled

variable {text : List Char} {found : List Token} {p : Position}

theorem body_start {colon body : Token} {before : List Token}
    (hbody : IsBlockBody (before ++ [colon]) body) : colon.stop ≤ body.start := by
  obtain ⟨_, earlier, last, hlast, _, hline⟩ := hbody
  obtain ⟨_, hcolon⟩ := List.append_inj' hlast rfl
  obtain ⟨rfl, _⟩ := List.cons.inj hcolon
  exact .inl hline

theorem stop_le (tiled : Tiled text found p) : ∀ token ∈ found, token.stop ≤ p := by
  have happend {found : List Token} {last : Token} {p : Position}
      (hfound : ∀ token ∈ found, token.stop ≤ p) (hp : p ≤ last.stop) :
      ∀ token ∈ found ++ [last], token.stop ≤ last.stop := by
    intro token htoken
    rcases List.mem_append.mp htoken with htoken | htoken
    · exact Position.le_trans (hfound token htoken) hp
    · rw [List.mem_singleton.mp htoken]
      exact Position.le_refl _
  induction tiled with
  | start => simp
  | token _ hforward _ induction => exact happend induction hforward
  | skip _ hforward _ induction =>
    exact fun token htoken => Position.le_trans (induction token htoken) hforward
  | layout _ _ _ hstop induction => exact happend induction (hstop ▸ Position.le_refl _)
  | newline _ _ _ _ _ hforward induction => exact happend induction hforward
  | body _ hbody _ hforward _ induction =>
    exact happend induction (Position.le_trans (body_start hbody) hforward)

theorem forward (tiled : Tiled text found p) : ∀ token ∈ found, token.start ≤ token.stop := by
  induction tiled with
  | start => simp
  | token _ hforward _ induction =>
    intro token htoken
    rcases List.mem_append.mp htoken with htoken | htoken
    · exact induction token htoken
    · rwa [List.mem_singleton.mp htoken]
  | skip _ _ _ induction => exact induction
  | layout _ _ _ hstop induction =>
    intro token htoken
    rcases List.mem_append.mp htoken with htoken | htoken
    · exact induction token htoken
    · rw [List.mem_singleton.mp htoken, hstop]
      exact Position.le_refl _
  | newline _ _ _ _ _ hforward induction =>
    intro token htoken
    rcases List.mem_append.mp htoken with htoken | htoken
    · exact induction token htoken
    · rwa [List.mem_singleton.mp htoken]
  | body _ _ _ hforward _ induction =>
    intro token htoken
    rcases List.mem_append.mp htoken with htoken | htoken
    · exact induction token htoken
    · rwa [List.mem_singleton.mp htoken]

theorem onLine (tiled : Tiled text found p) : ∀ token ∈ found, OnLine text token.start := by
  induction tiled with
  | start => simp
  | skip _ _ _ induction => exact induction
  | token _ _ hverbatim induction =>
    exact List.forall_mem_append.mpr ⟨induction, List.forall_mem_singleton.mpr hverbatim.2.1⟩
  | layout _ _ hline _ induction | newline _ _ _ hline _ _ induction
  | body _ _ hline _ _ induction =>
    exact List.forall_mem_append.mpr ⟨induction, List.forall_mem_singleton.mpr hline⟩

theorem sorted (tiled : Tiled text found p) :
    found.Pairwise fun before after => before.stop ≤ after.start := by
  have happend {found : List Token} {last : Token}
      (hfound : found.Pairwise fun before after => before.stop ≤ after.start)
      (hlast : ∀ token ∈ found, token.stop ≤ last.start) :
      (found ++ [last]).Pairwise fun before after => before.stop ≤ after.start :=
    List.pairwise_append.mpr ⟨hfound, List.pairwise_singleton _ _, fun token htoken next hnext => by
      rw [List.mem_singleton.mp hnext]
      exact hlast token htoken⟩
  induction tiled with
  | start => exact .nil
  | token tiled _ _ induction => exact happend induction tiled.stop_le
  | skip _ _ _ induction => exact induction
  | layout tiled _ _ _ induction => exact happend induction tiled.stop_le
  | newline tiled _ _ _ _ _ induction => exact happend induction tiled.stop_le
  | body tiled hbody _ _ _ induction =>
    exact happend induction fun token htoken =>
      Position.le_trans (tiled.stop_le token htoken) (body_start hbody)

theorem ordered (tiled : Tiled text found p) :
    ∀ before token next after, found = before ++ token :: next :: after →
      token.stop ≤ next.start := by
  rintro before token next after rfl
  have hsorted := (List.pairwise_append.mp tiled.sorted).2.1
  exact List.rel_of_pairwise_cons hsorted List.mem_cons_self

theorem verbatim_append {last : Token}
    (hverbatim : ∀ before token after, found = before ++ token :: after →
      IsVirtual text before token ∨ IsVerbatim text token)
    (hlast : IsVirtual text found last ∨ IsVerbatim text last) :
    ∀ before token after, found ++ [last] = before ++ token :: after →
      IsVirtual text before token ∨ IsVerbatim text token := by
  intro before token after hsplit
  obtain ⟨_, rfl, rfl⟩ | ⟨middle, _, hfound⟩ := Lexer.append_singleton_eq_split hsplit
  · exact hlast
  · exact hverbatim before token middle hfound

theorem verbatim (tiled : Tiled text found p) :
    ∀ before token after, found = before ++ token :: after →
      IsVirtual text before token ∨ IsVerbatim text token := by
  induction tiled with
  | start => simp
  | token _ _ hverbatim induction => exact verbatim_append induction (.inr hverbatim)
  | skip _ _ _ induction => exact induction
  | layout _ hkind _ _ induction =>
    refine verbatim_append induction (.inl ?_)
    rcases hkind with hkind | hkind | hkind
    · exact .inl hkind
    · exact .inr (.inl hkind)
    · exact .inr (.inr (.inl hkind))
  | newline _ hkind htext _ hend _ induction =>
    exact verbatim_append induction (.inl (.inr (.inr (.inr (.inl ⟨hkind, htext, hend⟩)))))
  | body _ hbody _ _ _ induction =>
    exact verbatim_append induction (.inl (.inr (.inr (.inr (.inr hbody)))))

/-- What accounts for a character that the tokens reach. -/
def Accounted (text : List Char) (tokens : List Token) (i : Nat) : Prop :=
  (∃ token ∈ tokens, Contains text token i) ∨
    IsBlankAt text i ∨ ContinuesLine text i ∨
    (∃ found later, tokens = found ++ later ∧ ArgumentComma text found i) ∨
    ∃ before colon body after, tokens = before ++ colon :: body :: after ∧
      IsBlockBody (before ++ [colon]) body ∧ offset text colon.stop ≤ i ∧
      i < offset text body.start ∧ InComment text i

theorem Accounted.append {i : Nat} (accounted : Accounted text found i) (last : Token) :
    Accounted text (found ++ [last]) i := by
  obtain ⟨token, htoken, hcontains⟩ | hblank | hcontinues | ⟨before, later, rfl, hcomma⟩ |
    ⟨before, colon, body, after, rfl, hcomment⟩ := accounted
  · exact .inl ⟨token, List.mem_append_left _ htoken, hcontains⟩
  · exact .inr (.inl hblank)
  · exact .inr (.inr (.inl hcontinues))
  · exact .inr (.inr (.inr (.inl ⟨before, later ++ [last], by simp, hcomma⟩)))
  · exact .inr (.inr (.inr (.inr ⟨before, colon, body, after ++ [last], by simp, hcomment⟩)))

theorem accounted_append_of {last : Token} {i : Nat}
    (haccounted : i < offset text last.start → Accounted text (found ++ [last]) i)
    (hi : i < offset text last.stop) : Accounted text (found ++ [last]) i := by
  by_cases hbefore : i < offset text last.start
  · exact haccounted hbefore
  · exact .inl ⟨last, by simp, Nat.le_of_not_lt hbefore, hi⟩

theorem accounted_append {last : Token} {i : Nat}
    (haccounted : i < offset text last.start → Accounted text found i)
    (hi : i < offset text last.stop) : Accounted text (found ++ [last]) i :=
  accounted_append_of (fun hbefore => (haccounted hbefore).append last) hi

theorem covers (tiled : Tiled text found p) {i : Nat} (hi : i < offset text p) :
    Accounted text found i := by
  induction tiled with
  | start => simp [offset, upTo] at hi
  | token _ _ _ induction => exact accounted_append induction hi
  | @skip found p q _ _ hskipped induction =>
    by_cases hbefore : i < offset text p
    · exact induction hbefore
    · obtain hblank | hcontinues | hcomma := hskipped i (Nat.le_of_not_lt hbefore) hi
      · exact .inr (.inl hblank)
      · exact .inr (.inr (.inl hcontinues))
      · exact .inr (.inr (.inr (.inl ⟨found, [], by simp, hcomma⟩)))
  | layout _ _ _ _ induction => exact accounted_append induction hi
  | newline _ _ _ _ _ _ induction => exact accounted_append induction hi
  | @body found colon token _ hbody _ _ hskipped induction =>
    by_cases hcolon : i < offset text colon.stop
    · exact (induction hcolon).append token
    · refine accounted_append_of (fun hbefore => ?_) hi
      obtain hblank | hcomment := hskipped i (Nat.le_of_not_lt hcolon) hbefore
      · exact .inr (.inl hblank)
      · exact .inr (.inr (.inr (.inr ⟨found, colon, token, [], by simp, hbody,
          Nat.le_of_not_lt hcolon, hbefore, hcomment⟩)))

theorem tiles (tiled : Tiled text found p) (hend : text.length ≤ offset text p) :
    Tiles text found where
  ordered := tiled.ordered
  forward := tiled.forward
  verbatim := tiled.verbatim
  covers _ hi := tiled.covers (Nat.lt_of_lt_of_le hi hend)

end Tiled

end ShellSyntax
