import ShellSyntax.Proofs.Lexer.Bounds
import ShellSyntax.Proofs.Lexer.Forks

/-!
Two sources that are the same up to a fork in one of their lines. Before the fork the lexer does on
both of them the same, and it finds the same tokens.
-/

namespace ShellSyntax

/-! ### What is remembered apart from the lines -/

/-- The token without the line on which it starts. -/
def Token.unlined (t : Token) : Token :=
  { t with line := "" }

def LexMode.unlined : LexMode → LexMode
  | .string quote text start _ => .string quote text start ""
  | mode => mode

namespace RawText

def unlined (raw : RawText) : RawText :=
  { raw with origin := raw.origin.map fun origin => (origin.1, "") }

theorem isBlank_unlined (raw : RawText) : raw.unlined.isBlank = raw.isBlank :=
  Option.isNone_map

theorem unlined_push (raw : RawText) (c : Char) (place : Position) (line : String) :
    (raw.push c place line).unlined = raw.unlined.push c place "" := by
  unfold push
  rw [isBlank_unlined]
  split
  · split <;> rfl
  · cases horigin : raw.origin <;> simp [unlined, horigin]

theorem unlined_pushAll (raw : RawText) (place : Position) (line : String) (chars : List Char) :
    (raw.pushAll place line chars).unlined = raw.unlined.pushAll place "" chars := by
  induction chars generalizing raw place with
  | nil => rfl
  | cons c chars induction => rw [pushAll, pushAll, induction, unlined_push]

theorem unlined_toToken (raw : RawText) (line : String) :
    (raw.toToken line).unlined = (raw.unlined.toToken "").unlined := by
  cases horigin : raw.origin <;> simp [toToken, unlined, Token.unlined, horigin]

end RawText

namespace Lexer

/-- What the lexer knows apart from the text it reads and the lines it has read. -/
def memory (l : Lexer) : Lexer :=
  { l with
    unread := []
    rest := []
    lineText := ""
    pending := l.pending.map Token.unlined
    modes := l.modes.map LexMode.unlined }

theorem memory_remember (l : Lexer) (kind : TokenKind) (text : String) (stop : Position) :
    (l.remember kind text stop).memory = l.memory.remember kind text stop := by
  unfold remember
  split
  · rfl
  · cases kind <;> rfl

theorem memory_push (l : Lexer) (token : Token) :
    (l.push token).memory = l.memory.push token.unlined := by
  simp [memory, push]

theorem memory_addToken (l : Lexer) (kind : TokenKind) (text : String) (start stop : Position) :
    (l.addToken kind text start stop).memory =
      (l.memory.remember kind text stop).push ⟨kind, text, start, stop, ""⟩ := by
  rw [addToken, memory_push, memory_remember]
  rfl

theorem memory_take (l : Lexer) (kind : TokenKind) (count : Nat) :
    (l.take kind count).memory =
      { (l.memory.remember kind (String.ofList (l.rest.take count))
            ⟨l.memory.lineNumber, l.memory.column + count⟩).push
          ⟨kind, String.ofList (l.rest.take count), l.memory.here,
            ⟨l.memory.lineNumber, l.memory.column + count⟩, ""⟩ with
        column := l.memory.column + count } := by
  have hadded := memory_addToken l kind (String.ofList (l.rest.take count)) l.here
    ⟨l.lineNumber, l.column + count⟩
  exact congrArg (fun m => { m with column := l.column + count }) hadded

end Lexer

/-! ### Before the fork -/

namespace Fork

/-- How much is to come from the fork on. -/
def toCome (f : Fork) : Nat :=
  f.left.length + (f.leftBelow.map fun line => line.size + 1).sum

/-- Two lexers have the same to read up to the fork. -/
inductive Place (f : Fork) (l m : Lexer) : Prop
  /-- The fork is in a line to come. -/
  | above (lines : Source) (hrest : m.rest = l.rest)
      (hleft : l.unread = lines ++ .text (f.head ++ f.left) :: f.leftBelow)
      (hright : m.unread = lines ++ .text (f.head ++ f.right) :: f.rightBelow)
  | within (q : List Char) (hq : q <:+ f.head) (hleft : l.rest = q ++ f.left)
      (hright : m.rest = q ++ f.right) (hleftBelow : l.unread = f.leftBelow)
      (hrightBelow : m.unread = f.rightBelow)

/-- Two lexers know the same, and before the fork they have the same to read. -/
structure Ahead (f : Fork) (l m : Lexer) : Prop where
  place : f.Place l m
  memory : m.memory = l.memory

/-- The lexer has not come to the fork. -/
def Before (f : Fork) (l : Lexer) : Prop :=
  f.toCome < l.toCome

/-- The line with the fork is to come. -/
def Above (f : Fork) (l : Lexer) : Prop :=
  f.leftBelow.length < l.unread.length

variable {f : Fork} {l m l' m' : Lexer} {count : Nat}

theorem Above.back (above : f.Above l') (onward : Lexer.LeadsOn l l') : f.Above l := by
  rw [Above] at above ⊢
  cases onward.reads with
  | lines lines _ hunread =>
    rw [hunread, List.length_append]
    omega
  | chars hunread => rwa [hunread]

theorem Before.back (before : f.Before l') (onward : l'.toCome ≤ l.toCome) : f.Before l :=
  Nat.lt_of_lt_of_le before onward

theorem Before.far_of_captureChars {raw raw' : RawText} (before : f.Before l')
    (hcount : count ≤ l.rest.length) (hrun : Lexer.captureChars count raw l = .ok raw' l') :
    f.toCome + count < l.toCome := by
  have hcome := Lexer.toCome_advance hcount
  rw [Lexer.captureChars_eq, Nat.min_eq_left hcount] at hrun
  cases hrun
  rw [Before] at before
  omega

namespace Place

theorem congr (place : f.Place l m) (hl : l'.unread = l.unread) (hlrest : l'.rest = l.rest)
    (hm : m'.unread = m.unread) (hmrest : m'.rest = m.rest) : f.Place l' m' := by
  cases place with
  | above lines hrest hleft hright =>
    exact .above lines (by rw [hlrest, hmrest, hrest]) (hl.trans hleft) (hm.trans hright)
  | within q hq hleft hright hleftBelow hrightBelow =>
    exact .within q hq (hlrest.trans hleft) (hmrest.trans hright) (hl.trans hleftBelow)
      (hm.trans hrightBelow)

theorem shares (place : f.Place l m) (hfar : f.toCome + count ≤ l.toCome) :
    f.Shares count l.rest m.rest := by
  cases place with
  | above _ hrest => exact .inl hrest.symm
  | within q hq hleft hright hleftBelow =>
    refine .inr ⟨q, hq, ?_, hleft, hright⟩
    rw [toCome, Lexer.toCome, hleft, hleftBelow, List.length_append] at hfar
    omega

theorem advance (place : f.Place l m) (hfar : f.toCome + count ≤ l.toCome)
    (hl : l'.unread = l.unread) (hlrest : l'.rest = l.rest.drop count) (hm : m'.unread = m.unread)
    (hmrest : m'.rest = m.rest.drop count) : f.Place l' m' := by
  cases place with
  | above lines hrest hleft hright =>
    exact .above lines (by rw [hlrest, hmrest, hrest]) (hl.trans hleft) (hm.trans hright)
  | within q hq hleft hright hleftBelow hrightBelow =>
    have hinside : count ≤ q.length := by
      rw [toCome, Lexer.toCome, hleft, hleftBelow, List.length_append] at hfar
      omega
    refine .within (q.drop count) ((List.drop_suffix _ _).trans hq) ?_ ?_ (hl.trans hleftBelow)
      (hm.trans hrightBelow)
    · rw [hlrest, hleft, List.drop_append_of_le_length hinside]
    · rw [hmrest, hright, List.drop_append_of_le_length hinside]

theorem above_of (place : f.Place l m) (above : f.Above l) :
    ∃ lines, m.rest = l.rest ∧ l.unread = lines ++ .text (f.head ++ f.left) :: f.leftBelow ∧
      m.unread = lines ++ .text (f.head ++ f.right) :: f.rightBelow := by
  cases place with
  | above lines hsame hleft hright => exact ⟨lines, hsame, hleft, hright⟩
  | within _ _ _ _ hbelow =>
    rw [Above, hbelow] at above
    exact absurd above (Nat.lt_irrefl _)

theorem above_of_end (place : f.Place l m) (hunread : l'.unread <:+ l.unread)
    (before : f.Before l') (hrest : l'.rest = []) : f.Above l' := by
  have hbelow : f.leftBelow <:+ l.unread := by
    cases place with
    | above lines _ hleft =>
      exact hleft ▸ (List.suffix_cons _ _).trans (List.suffix_append _ _)
    | within _ _ _ _ hleft => exact hleft ▸ List.suffix_refl _
  rw [Above]
  refine Nat.lt_of_not_le fun hshort => ?_
  obtain ⟨lines, hlines⟩ := List.suffix_of_suffix_length_le hunread hbelow hshort
  rw [Before, toCome, Lexer.toCome, hrest, ← hlines, List.map_append, List.sum_append,
    List.length_nil] at before
  omega

/-- Where nothing is left of the line before the fork, the fork is in a line to come. -/
theorem above_of_rest (place : f.Place l m) (before : f.Before l) (hrest : l.rest = []) :
    ∃ lines, m.rest = l.rest ∧ l.unread = lines ++ .text (f.head ++ f.left) :: f.leftBelow ∧
      m.unread = lines ++ .text (f.head ++ f.right) :: f.rightBelow := by
  cases place with
  | above lines hsame hleft hright => exact ⟨lines, hsame, hleft, hright⟩
  | within q hq hleft hright hleftBelow =>
    rw [Before, toCome, Lexer.toCome, hrest, hleftBelow] at before
    exact absurd before (by simp)

end Place

namespace Ahead

theorem view {α : Type} (ahead : f.Ahead l m) (view : Lexer → α) :
    view m.memory = view l.memory :=
  congrArg view ahead.memory

theorem here (ahead : f.Ahead l m) : m.here = l.here :=
  ahead.view Lexer.here

theorem brackets (ahead : f.Ahead l m) : m.brackets = l.brackets :=
  ahead.view Lexer.brackets

theorem bound (ahead : f.Ahead l m) : m.bound = l.bound :=
  ahead.view Lexer.bound

theorem modes (ahead : f.Ahead l m) : m.modes.map LexMode.unlined = l.modes.map LexMode.unlined :=
  ahead.view Lexer.modes

theorem congr (ahead : f.Ahead l m) (hl : l'.unread = l.unread) (hlrest : l'.rest = l.rest)
    (hm : m'.unread = m.unread) (hmrest : m'.rest = m.rest) (hmemory : m'.memory = l'.memory) :
    f.Ahead l' m' :=
  ⟨ahead.place.congr hl hlrest hm hmrest, hmemory⟩

theorem addToken (ahead : f.Ahead l m) (kind : TokenKind) (text : String) (start stop : Position) :
    f.Ahead (l.addToken kind text start stop) (m.addToken kind text start stop) := by
  refine ahead.congr (by simp) (by simp) (by simp) (by simp) ?_
  rw [Lexer.memory_addToken, Lexer.memory_addToken, ahead.memory]

theorem push (ahead : f.Ahead l m) {token token' : Token}
    (htoken : token'.unlined = token.unlined) :
    f.Ahead (l.push token) (m.push token') := by
  refine ahead.congr rfl rfl rfl rfl ?_
  rw [Lexer.memory_push, Lexer.memory_push, ahead.memory, htoken]

theorem advance (ahead : f.Ahead l m) (hfar : f.toCome + count ≤ l.toCome) :
    f.Ahead (l.advance count) (m.advance count) :=
  ⟨ahead.place.advance hfar rfl rfl rfl rfl,
    (congrArg (fun l => { l with column := l.column + count }) ahead.memory :)⟩

theorem take (ahead : f.Ahead l m) (kind : TokenKind) (hfar : f.toCome + count ≤ l.toCome) :
    f.Ahead (l.take kind count) (m.take kind count) := by
  refine ⟨ahead.place.advance hfar (by simp) (by simp) (by simp) (by simp), ?_⟩
  have htext := (ahead.place.shares hfar).take
  rw [Lexer.memory_take, Lexer.memory_take, ahead.memory, htext]

theorem setModes (ahead : f.Ahead l m) {modes modes' : List LexMode}
    (hmodes : modes'.map LexMode.unlined = modes.map LexMode.unlined) :
    f.Ahead { l with modes } { m with modes := modes' } := by
  refine ahead.congr rfl rfl rfl rfl ?_
  change ({ m.memory with modes := modes'.map LexMode.unlined } : Lexer) =
    { l.memory with modes := modes.map LexMode.unlined }
  rw [hmodes, ahead.memory]

theorem setBrackets (ahead : f.Ahead l m) (brackets : BracketStack) :
    f.Ahead { l with brackets } { m with brackets } :=
  ahead.congr rfl rfl rfl rfl (congrArg (fun l => { l with brackets }) ahead.memory :)

theorem setSignificant (ahead : f.Ahead l m) (lastSignificant : Option TokenKind) :
    f.Ahead { l with lastSignificant } { m with lastSignificant } :=
  ahead.congr rfl rfl rfl rfl (congrArg (fun l => { l with lastSignificant }) ahead.memory :)

theorem flushed (ahead : f.Ahead l m) (hfar : f.toCome + count ≤ l.toCome) (text : String)
    (start : Position) {modes modes' : List LexMode}
    (hmodes : modes'.map LexMode.unlined = modes.map LexMode.unlined) :
    f.Ahead (l.flushed count text start modes) (m.flushed count text start modes') := by
  have next := (ahead.advance hfar).setModes hmodes
  unfold Lexer.flushed
  split
  · exact next
  · have hhere := (ahead.advance hfar).here
    rw [hhere]
    exact next.addToken _ _ _ _

theorem nextLine (ahead : f.Ahead l m) (before : f.Before l) (hrest : l.rest = [])
    {line : List Char} {unread : Source} (hunread : l.unread = .text line :: unread) :
    ∃ line' unread', m.unread = .text line' :: unread' ∧
      f.Ahead (l.nextLine line unread) (m.nextLine line' unread') ∧
      (line' = line ∨ line = f.head ++ f.left ∧ line' = f.head ++ f.right) := by
  have hmemory : ∀ (line' : List Char) (unread' : Source),
      (m.nextLine line' unread').memory = (l.nextLine line unread).memory := fun _ _ =>
    (congrArg (fun l => { l with lineNumber := l.lineNumber + 1, column := 0 }) ahead.memory :)
  obtain ⟨lines, _, hleft, hright⟩ := ahead.place.above_of_rest before hrest
  rw [hunread] at hleft
  cases lines with
  | nil =>
    obtain ⟨hline, rfl⟩ := List.cons.inj hleft
    obtain rfl := SourceLine.text.inj hline
    exact ⟨_, _, hright, ⟨.within f.head (List.suffix_refl _) rfl rfl rfl rfl, hmemory _ _⟩,
      .inr ⟨rfl, rfl⟩⟩
  | cons first lines =>
    obtain ⟨rfl, rfl⟩ := List.cons.inj hleft
    exact ⟨line, _, hright, ⟨.above lines rfl rfl rfl, hmemory _ _⟩, .inl rfl⟩

end Ahead

end Fork

namespace Lexer

open Outcome

/-! ### Steps -/

variable {α β : Type} {f : Fork} {l m : Lexer}

/-- What `first` does from `l` on, if it ends so that `ends` holds there, `second` does from `m` on
as well: they yield the same, as `same` says, and the fork is still ahead. -/
def Keeps (f : Fork) (ends : Lexer → Prop) (same : α → α → Prop) (l m : Lexer)
    (first second : Lex α) : Prop :=
  ∀ a l', first l = .ok a l' → ends l' →
    ∃ b m', second m = .ok b m' ∧ same a b ∧ f.Ahead l' m'

/-- What a step yields that is done only for what it does. -/
def Nothing (_ _ : Unit) : Prop :=
  True

namespace Keeps

variable {ends : Lexer → Prop} {same : α → α → Prop}

theorem pure {a b : α} (ahead : f.Ahead l m) (hsame : same a b) :
    Keeps f ends same l m (pure a) (pure b) := by
  rintro _ _ hrun _
  obtain ⟨rfl, rfl⟩ := pure_ok.mp hrun
  exact ⟨b, m, rfl, hsame, ahead⟩

theorem throw (e : LexError) (second : Lex α) : Keeps f ends same l m (throw e) second := by
  rintro _ _ hrun _
  cases hrun

theorem set {n n' : Lexer} (hnext : ends n → f.Ahead n n') :
    Keeps f ends Nothing l m (set n) (set n') := by
  rintro _ _ hrun hends
  obtain rfl := set_ok.mp hrun
  exact ⟨⟨⟩, n', rfl, trivial, hnext hends⟩

theorem modify {g g' : Lexer → Lexer} (hnext : ends (g l) → f.Ahead (g l) (g' m)) :
    Keeps f ends Nothing l m (modify g) (modify g') := by
  rintro _ _ hrun hends
  obtain rfl := modify_ok.mp hrun
  exact ⟨⟨⟩, g' m, rfl, trivial, hnext hends⟩

theorem getBind {g g' : Lexer → Lex α} (next : Keeps f ends same l m (g l) (g' m)) :
    Keeps f ends same l m (get >>= g) (get >>= g') :=
  next

theorem setBind {n n' : Lexer} {g g' : PUnit → Lex α}
    (next : Keeps f ends same n n' (g ⟨⟩) (g' ⟨⟩)) :
    Keeps f ends same l m (MonadStateOf.set n >>= g) (MonadStateOf.set n' >>= g') :=
  next

theorem ite {p p' : Prop} [Decidable p] [Decidable p'] {yes yes' no no' : Lex α} (hp : p ↔ p')
    (hyes : p → Keeps f ends same l m yes yes') (hno : ¬ p → Keeps f ends same l m no no') :
    Keeps f ends same l m (if p then yes else no) (if p' then yes' else no') := by
  by_cases h : p
  · rw [if_pos h, if_pos (hp.mp h)]
    exact hyes h
  · rw [if_neg h, if_neg (mt hp.mpr h)]
    exact hno h

theorem bind {first second : Lex α} {g g' : α → Lex β} {mid : Lexer → Prop} {same' : β → β → Prop}
    (hfirst : Keeps f mid same l m first second)
    (back : ∀ a n b l', first l = .ok a n → g a n = .ok b l' → ends l' → mid n)
    (next : ∀ a n b n', first l = .ok a n → mid n → same a b → f.Ahead n n' →
      Keeps f ends same' n n' (g a) (g' b)) :
    Keeps f ends same' l m (first >>= g) (second >>= g') := by
  intro c l' hrun hends
  obtain ⟨a, n, hone, htwo⟩ := bind_ok.mp hrun
  have hmid := back a n c l' hone htwo hends
  obtain ⟨b, n', hsecond, hsame, ahead⟩ := hfirst a n hone hmid
  obtain ⟨d, m', hlast, hresult⟩ := next a n b n' hone hmid hsame ahead c l' htwo hends
  exact ⟨d, m', bind_ok.mpr ⟨b, n', hsecond, hlast⟩, hresult⟩

end Keeps

/-! ### Lines and brackets -/

theorem enterNextLine_keeps (ahead : f.Ahead l m) (before : f.Before l) (hrest : l.rest = []) :
    Keeps f f.Before Eq l m enterNextLine enterNextLine := by
  intro entered l' hrun _
  obtain ⟨rfl, hunread, rfl⟩ | ⟨rfl, text, unread, hunread, rfl⟩ := enterNextLine_ok.mp hrun
  · obtain ⟨lines, _, hleft, _⟩ := ahead.place.above_of_rest before hrest
    rw [hunread] at hleft
    simp at hleft
  · obtain ⟨line', unread', hright, next, _⟩ := ahead.nextLine before hrest hunread
    exact ⟨true, _, enterNextLine_ok.mpr (.inr ⟨rfl, line', unread', hright, rfl⟩), rfl, next⟩

theorem closeBracket_keeps {ends : Lexer → Prop} (ahead : f.Ahead l m) (closer : Char) :
    Keeps f ends Nothing l m (closeBracket closer) (closeBracket closer) := by
  intro _ l' hrun _
  obtain ⟨top, brackets, hbrackets, htop, rfl⟩ := closeBracket_ok.mp hrun
  exact ⟨⟨⟩, { m with brackets },
    closeBracket_ok.mpr ⟨top, brackets, ahead.brackets.trans hbrackets, htop, rfl⟩, trivial,
    ahead.setBrackets brackets⟩

/-! ### Raw text -/

/-- The same text is captured, perhaps from lines that go on differently. -/
def SameRaw (raw raw' : RawText) : Prop :=
  raw'.unlined = raw.unlined

theorem SameRaw.toToken {raw raw' : RawText} (hraw : SameRaw raw raw') (line line' : String) :
    (raw'.toToken line').unlined = (raw.toToken line).unlined := by
  rw [raw'.unlined_toToken, hraw, ← raw.unlined_toToken]

theorem captureChars_keeps {raw raw' : RawText} (ahead : f.Ahead l m) (hraw : SameRaw raw raw')
    (count : Nat) :
    Keeps f f.Before SameRaw l m (captureChars count raw) (captureChars count raw') := by
  intro _ l' hrun before
  rw [captureChars_eq] at hrun
  cases hrun
  have hcome := toCome_advance (Nat.min_le_right count l.rest.length)
  have hfar : f.toCome + (min count l.rest.length + 1) ≤ l.toCome := by
    rw [Fork.Before] at before
    omega
  obtain ⟨htext, hmin⟩ := (ahead.place.shares hfar).take_min
  have next := ahead.advance (show f.toCome + min count l.rest.length ≤ l.toCome by omega)
  refine ⟨_, _, captureChars_eq _ _ _, ?_, hmin ▸ next⟩
  rw [SameRaw, RawText.unlined_pushAll, RawText.unlined_pushAll, hraw, ahead.here, htext]

theorem captureChar_keeps {raw raw' : RawText} (ahead : f.Ahead l m) (hraw : SameRaw raw raw') :
    Keeps f f.Before SameRaw l m (captureChar raw) (captureChar raw') := by
  simpa [captureChars] using captureChars_keeps ahead hraw 1

theorem rest_forked (ahead : f.Ahead l m) (before : f.Before l) {c : Char} {rest : List Char}
    (hrest : l.rest = c :: rest) : ∃ rest', m.rest = c :: rest' := by
  have shares := ahead.place.shares (show f.toCome + 1 ≤ l.toCome from before)
  rw [hrest] at shares
  obtain ⟨rest', hright, _⟩ := shares.cons
  exact ⟨rest', hright⟩

theorem captureQuoted_keeps {raw raw' : RawText} {quote : Quote} {start : Position} {fuel : Nat}
    (ahead : f.Ahead l m) (before : f.Before l) (hraw : SameRaw raw raw') :
    Keeps f f.Before SameRaw l m (captureQuoted quote start fuel raw)
      (captureQuoted quote start fuel raw') := by
  induction fuel generalizing l m raw raw' with
  | zero => exact .pure ahead hraw
  | succ fuel induction =>
    have onward (raw : RawText) (n : Lexer) (raw₁ : RawText) (l' : Lexer)
        (hrun : captureQuoted quote start fuel raw n = .ok raw₁ l') : l'.toCome ≤ n.toCome :=
      ((captureQuoted_strikes n raw quote start fuel).leadsOn hrun).toCome
    unfold captureQuoted
    apply Keeps.getBind
    cases hrest : l.rest with
    | nil =>
      obtain ⟨_, hsame, _⟩ := ahead.place.above_of_rest before hrest
      rw [hsame, hrest]
      refine .ite Iff.rfl (fun _ => .throw _ _) fun _ => ?_
      refine .bind (enterNextLine_keeps ahead before hrest) ?_ ?_
      · intro entered n _ l' _ hrun hends
        rw [ite_ok] at hrun
        split at hrun
        · cases hrun
        · exact hends.back (onward _ _ _ _ hrun)
      · rintro entered n _ n' _ before rfl ahead
        exact .ite Iff.rfl (fun _ => .throw _ _) fun _ => induction ahead before hraw
    | cons c rest =>
      obtain ⟨rest', hright⟩ := rest_forked ahead before hrest
      rw [hright]
      refine .ite Iff.rfl (fun _ => ?_) fun hescape => ?_
      · exact .bind (captureChars_keeps ahead hraw 2)
          (fun _ _ _ _ _ hrun hends => hends.back (onward _ _ _ _ hrun))
          fun _ _ _ _ _ before hraw ahead => induction ahead before hraw
      cases hcloses : quote.closes (c :: rest) with
      | true =>
        intro _ l' hrun hends
        rw [if_pos rfl] at hrun
        have hsize := size_le_of_closes hcloses
        rw [← hrest] at hsize hcloses
        have hfar := hends.far_of_captureChars hsize hrun
        have hclosed := Quote.closes_forked (ahead.place.shares (Nat.le_of_lt hfar)) hcloses
        rw [← hright, if_pos hclosed]
        exact captureChars_keeps ahead hraw quote.size _ l' hrun hends
      | false =>
        have hopen : quote.closes (c :: rest') = false := by
          have shares := ahead.place.shares (show f.toCome + 0 ≤ l.toCome from Nat.le_of_lt before)
          rw [hrest, hright] at shares
          exact Quote.not_closes_forked shares (by simpa using hescape) hcloses
        rw [hopen]
        refine .ite Iff.rfl (fun h => absurd h (by simp)) fun _ =>
          .ite Iff.rfl (fun _ => .throw _ _) fun _ => ?_
        exact .bind (captureChar_keeps ahead hraw)
          (fun _ _ _ _ _ hrun hends => hends.back (onward _ _ _ _ hrun))
          fun _ _ _ _ _ before hraw ahead => induction ahead before hraw

theorem captureString_keeps {raw raw' : RawText} {quote : Quote} (ahead : f.Ahead l m)
    (hraw : SameRaw raw raw') :
    Keeps f f.Before SameRaw l m (captureString quote raw) (captureString quote raw') := by
  apply Keeps.getBind
  rw [ahead.here, ahead.bound]
  refine .bind (captureChars_keeps ahead hraw quote.size) ?_ ?_
  · exact fun raw n _ _ _ hrun hends =>
      hends.back ((captureQuoted_strikes n raw quote _ _).leadsOn hrun).toCome
  · exact fun _ _ _ _ _ before hraw ahead => captureQuoted_keeps ahead before hraw

theorem followBracket_keeps (ahead : f.Ahead l m) (c : Char) :
    Keeps f f.Before Nothing l m (followBracket c) (followBracket c) := by
  apply Keeps.getBind
  rw [ahead.here]
  cases Opener.plain? c with
  | some opener =>
    refine .set fun _ => ?_
    rw [pushBracket, pushBracket, ahead.brackets]
    exact ahead.setBrackets _
  | none => exact .ite Iff.rfl (fun _ => closeBracket_keeps ahead c) fun _ => .pure ahead trivial

theorem toCome_of_captureString {raw raw' : RawText} {quote : Quote} {l' : Lexer}
    (hopening : Quote.opening? l.rest = some quote)
    (hrun : captureString quote raw l = .ok raw' l') : l'.toCome + quote.size ≤ l.toCome := by
  have hsize := size_le_of_closes (closes_of_opening hopening)
  have hcome := toCome_advance hsize
  rw [captureString, get_bind_ok] at hrun
  simp only [bind_ok, captureChars_eq] at hrun
  obtain ⟨_, _, hchars, hquoted⟩ := hrun
  cases hchars
  have onward := ((captureQuoted_strikes _ _ quote _ _).leadsOn hquoted).toCome
  rw [Nat.min_eq_left hsize] at onward
  omega

theorem captureNext_keeps {raw raw' : RawText} (ahead : f.Ahead l m) (before : f.Before l)
    (hrest : l.rest ≠ []) (hraw : SameRaw raw raw') :
    Keeps f f.Before SameRaw l m (captureNext raw) (captureNext raw') := by
  apply Keeps.getBind
  cases hopening : Quote.opening? l.rest with
  | some quote =>
    intro _ l' hrun hends
    have hcome := toCome_of_captureString hopening hrun
    have hfar : f.toCome + quote.size ≤ l.toCome := by
      rw [Fork.Before] at hends
      omega
    rw [Quote.opening?_forked (ahead.place.shares hfar) hopening]
    exact captureString_keeps ahead hraw _ l' hrun hends
  | none =>
    have shares := ahead.place.shares (show f.toCome + 0 ≤ l.toCome from Nat.le_of_lt before)
    rw [Quote.opening?_forked_none shares hopening]
    obtain ⟨c, rest, hcons⟩ := List.exists_cons_of_ne_nil hrest
    obtain ⟨rest', hright⟩ := rest_forked ahead before hcons
    rw [hcons, hright]
    refine .bind (followBracket_keeps ahead c) ?_ ?_
    · exact fun _ n _ _ _ hrun hends =>
        hends.back ((captureChar_strikes n raw).leadsOn hrun).toCome
    · exact fun _ _ _ _ _ _ _ ahead => captureChar_keeps ahead hraw

/-! ### Arguments and commands -/

theorem nextLine_keeps {loop loop' : Lex Unit} (ahead : f.Ahead l m) (before : f.Before l)
    (hrest : l.rest = []) (onward : ∀ n l', loop n = .ok () l' → l'.toCome ≤ n.toCome)
    (next : ∀ n n', f.Before n → f.Ahead n n' → Keeps f f.Before Nothing n n' loop loop')
    (e e' : LexError) :
    Keeps f f.Before Nothing l m (do if ← enterNextLine then loop else throw e)
      (do if ← enterNextLine then loop' else throw e') := by
  refine .bind (enterNextLine_keeps ahead before hrest) ?_ ?_
  · intro entered n _ l' _ hrun hends
    rw [ite_ok] at hrun
    split at hrun
    · exact hends.back (onward _ _ hrun)
    · cases hrun
  · rintro entered n _ n' _ before rfl ahead
    exact .ite Iff.rfl (fun _ => next n n' before ahead) fun _ => .throw _ _

theorem SameRaw.pushCaptured {raw raw' : RawText} (hraw : SameRaw raw raw') (ahead : f.Ahead l m) :
    f.Ahead (l.pushCaptured raw) (m.pushCaptured raw') := by
  have hblank : raw'.isBlank = raw.isBlank := by
    rw [← raw'.isBlank_unlined, hraw, raw.isBlank_unlined]
  unfold Lexer.pushCaptured
  rw [hblank]
  split
  · exact ahead
  · exact ahead.push (hraw.toToken _ _)

theorem captureArguments_keeps {base fuel : Nat} {raw raw' : RawText} (ahead : f.Ahead l m)
    (before : f.Before l) (hraw : SameRaw raw raw') :
    Keeps f f.Before Nothing l m (captureArguments base fuel raw)
      (captureArguments base fuel raw') := by
  induction fuel generalizing l m raw raw' with
  | zero => exact .pure ahead trivial
  | succ fuel induction =>
    have onward (raw : RawText) (n l' : Lexer)
        (hrun : captureArguments base fuel raw n = .ok () l') :
        l'.toCome ≤ n.toCome :=
      ((captureArguments_strikes n raw base fuel).leadsOn hrun).toCome
    unfold captureArguments
    apply Keeps.getBind
    cases hrest : l.rest with
    | nil =>
      obtain ⟨_, hsame, _⟩ := ahead.place.above_of_rest before hrest
      rw [hsame, hrest]
      exact nextLine_keeps ahead before hrest (onward raw)
        (fun _ _ before ahead => induction ahead before hraw) _ _
    | cons c rest =>
      obtain ⟨rest', hright⟩ := rest_forked ahead before hrest
      rw [hright, ahead.brackets]
      refine .ite Iff.rfl (fun _ => ?_) fun _ => ?_
      · rw [← pushCaptured, ← pushCaptured]
        have pushed := hraw.pushCaptured ahead
        have hcome := pushCaptured_toCome l raw
        have hshorter := toCome_advance
          (show 1 ≤ (l.pushCaptured raw).rest.length by simp [hrest])
        refine .ite Iff.rfl (fun _ => .set fun _ => pushed.setSignificant _) fun _ => .setBind ?_
        intro _ l' hrun hends
        have next := hends.back (onward _ _ _ hrun)
        rw [Fork.Before] at next
        rw [pushed.here]
        exact induction (pushed.advance (by omega)) next rfl _ l' hrun hends
      · refine .bind (captureNext_keeps ahead before (by simp [hrest]) hraw) ?_ ?_
        · exact fun _ _ _ _ _ hrun hends => hends.back (onward _ _ _ hrun)
        · exact fun _ _ _ _ _ before hraw ahead => induction ahead before hraw

theorem captureCommandRest_keeps {closer : Char} {base fuel : Nat} {raw raw' : RawText}
    (ahead : f.Ahead l m) (before : f.Before l) (hraw : SameRaw raw raw') :
    Keeps f f.Before Nothing l m (captureCommandRest closer base fuel raw)
      (captureCommandRest closer base fuel raw') := by
  induction fuel generalizing l m raw raw' with
  | zero => exact .pure ahead trivial
  | succ fuel induction =>
    have onward (raw : RawText) (n l' : Lexer)
        (hrun : captureCommandRest closer base fuel raw n = .ok () l') : l'.toCome ≤ n.toCome :=
      ((captureCommandRest_strikes n raw closer base fuel).leadsOn hrun).toCome
    unfold captureCommandRest
    apply Keeps.getBind
    cases hrest : l.rest with
    | nil =>
      obtain ⟨_, hsame, _⟩ := ahead.place.above_of_rest before hrest
      rw [hsame, hrest]
      exact nextLine_keeps ahead before hrest (onward raw)
        (fun _ _ before ahead => induction ahead before hraw) _ _
    | cons c rest =>
      obtain ⟨rest', hright⟩ := rest_forked ahead before hrest
      rw [hright, ahead.brackets]
      refine .ite Iff.rfl (fun _ => .set fun _ => ?_) fun _ => ?_
      · exact Fork.Ahead.setSignificant (ahead.push (hraw.toToken _ _)) _
      · refine .bind (captureNext_keeps ahead before (by simp [hrest]) hraw) ?_ ?_
        · exact fun _ _ _ _ _ hrun hends => hends.back (onward _ _ _ hrun)
        · exact fun _ _ _ _ _ before hraw ahead => induction ahead before hraw

theorem captureCall_keeps (ahead : f.Ahead l m) (before : f.Before l) :
    Keeps f f.Before Nothing l m captureCall captureCall := by
  apply Keeps.getBind
  rw [ahead.brackets, ahead.here, ahead.bound]
  exact captureArguments_keeps ahead before rfl

theorem captureCommand_keeps (ahead : f.Ahead l m) (before : f.Before l) :
    Keeps f f.Before Nothing l m captureCommand captureCommand := by
  apply Keeps.getBind
  rw [ahead.brackets, ahead.here, ahead.bound]
  cases l.brackets with
  | nil => exact .throw _ _
  | cons top brackets => exact captureCommandRest_keeps ahead before rfl

/-! ### Statement bodies -/

theorem LeadsOn.suffix {n : Lexer} (onward : LeadsOn l n) : n.unread <:+ l.unread := by
  cases onward.reads with
  | lines lines _ hunread => exact hunread ▸ List.suffix_append _ _
  | chars hunread => exact hunread ▸ List.suffix_refl _

theorem nextLine_above (ahead : f.Ahead l m) {line : List Char} {unread : Source}
    (hunread : l.unread = .text line :: unread) (above : f.Above (l.nextLine line unread)) :
    ∃ unread', m.unread = .text line :: unread' ∧
      f.Ahead (l.nextLine line unread) (m.nextLine line unread') := by
  have hmemory (unread' : Source) :
      (m.nextLine line unread').memory = (l.nextLine line unread).memory :=
    ahead.view fun l => { l with lineNumber := l.lineNumber + 1, column := 0 }
  have here : f.Above l := by
    rw [Fork.Above] at above ⊢
    rw [hunread]
    exact Nat.lt_succ_of_lt above
  obtain ⟨lines, _, hleft, hright⟩ := ahead.place.above_of here
  rw [hunread] at hleft
  cases lines with
  | nil =>
    obtain ⟨_, rfl⟩ := List.cons.inj hleft
    exact absurd above (Nat.lt_irrefl _)
  | cons first lines =>
    obtain ⟨rfl, rfl⟩ := List.cons.inj hleft
    exact ⟨_, hright, .above lines rfl rfl rfl, hmemory _⟩

theorem enterNextLine_above (ahead : f.Ahead l m) :
    Keeps f f.Above Eq l m enterNextLine enterNextLine := by
  intro entered l' hrun above
  obtain ⟨rfl, hunread, rfl⟩ | ⟨rfl, line, unread, hunread, rfl⟩ := enterNextLine_ok.mp hrun
  · rw [Fork.Above, hunread] at above
    cases above
  · obtain ⟨unread', hright, next⟩ := nextLine_above ahead hunread above
    exact ⟨true, _, enterNextLine_ok.mpr (.inr ⟨rfl, line, unread', hright, rfl⟩), rfl, next⟩

theorem gatherLine_keeps {fuel : Nat} {text : List Char} (ahead : f.Ahead l m) :
    Keeps f f.Above Eq l m (gatherLine fuel text) (gatherLine fuel text) := by
  induction fuel generalizing l m text with
  | zero => exact .pure ahead rfl
  | succ fuel induction =>
    unfold gatherLine
    refine .ite Iff.rfl (fun _ => ?_) fun _ => .pure ahead rfl
    refine .bind (enterNextLine_above ahead) ?_ ?_
    · intro entered n _ l' _ hrun hends
      rw [ite_ok] at hrun
      split at hrun
      · cases hrun
      · exact hends.back ((gatherLine_strikes n (.empty n.here) fuel _).leadsOn hrun)
    · rintro entered n _ n' _ above rfl ahead
      refine .ite Iff.rfl (fun _ => .getBind (.throw _ _)) fun _ => .getBind ?_
      obtain ⟨_, hsame, _⟩ := ahead.place.above_of above
      rw [hsame]
      exact induction ahead

theorem skipLine_above (ahead : f.Ahead l m) (above : f.Above l) :
    f.Ahead l.skipLine m.skipLine := by
  obtain ⟨lines, hsame, hleft, hright⟩ := ahead.place.above_of above
  refine ⟨.above lines ?_ hleft hright, ?_⟩
  · simp [skipLine, advance]
  · rw [skipLine, skipLine, hsame]
    exact ahead.view fun n => { n with column := n.column + l.rest.length }

theorem lineEnd_above (ahead : f.Ahead l m) (above : f.Above l) : m.lineEnd = l.lineEnd := by
  obtain ⟨_, hsame, _⟩ := ahead.place.above_of above
  have hhere := ahead.here
  simp only [Lexer.here, Position.mk.injEq] at hhere
  rw [lineEnd, lineEnd, hsame, hhere.1, hhere.2]

theorem endCapturedLine_ahead (ahead : f.Ahead l m) :
    f.Ahead l.endCapturedLine m.endCapturedLine :=
  ahead.congr rfl rfl rfl rfl (ahead.view endCapturedLine)

theorem captureLine_keeps (ahead : f.Ahead l m) :
    Keeps f f.Before Nothing l m captureLine captureLine := by
  intro _ l' hrun hends
  rw [captureLine, get_bind_ok] at hrun
  obtain ⟨text, n, hgather, hlast⟩ := bind_ok.mp hrun
  obtain rfl := modify_ok.mp hlast
  have onward := (gatherLine_strikes l (.empty l.here) l.bound l.rest).leadsOn hgather
  have above : f.Above n := by
    have hend := ahead.place.above_of_end ?_ hends ?_
    · simpa [Fork.Above, endCapturedLine, skipLine, advance] using hend
    · simpa [endCapturedLine, skipLine, advance] using onward.suffix
    · simp [endCapturedLine, skipLine, advance]
  obtain ⟨_, hsame, _⟩ := ahead.place.above_of (above.back onward)
  obtain ⟨_, n', hright, rfl, next⟩ := gatherLine_keeps ahead text n hgather above
  refine ⟨⟨⟩, _, ?_, trivial, endCapturedLine_ahead (skipLine_above
    (next.addToken .macroParam (String.ofList text) l.here n.lineEnd)
      (by simpa [Fork.Above] using above))⟩
  rw [captureLine, get_bind_ok, bind_ok, ahead.bound, hsame]
  refine ⟨text, n', hright, modify_ok.mpr ?_⟩
  rw [ahead.here, lineEnd_above next above]

theorem measure_ahead (ahead : f.Ahead l m) (line : List Char) :
    f.Ahead (l.measure line) (m.measure line) :=
  ahead.congr rfl rfl rfl rfl (ahead.view fun l => l.measure line)

theorem gatherBlock_keeps {indent fuel : Nat} {text : List Char} {first : Option Nat}
    (ahead : f.Ahead l m) :
    Keeps f f.Above Eq l m (gatherBlock indent fuel text first)
      (gatherBlock indent fuel text first) := by
  induction fuel generalizing l m text first with
  | zero => exact .pure ahead rfl
  | succ fuel induction =>
    intro gathered l' hrun above
    have here := above.back ((gatherBlock_strikes l (.empty l.here) _ _ _ _).leadsOn hrun)
    obtain ⟨lines, _, hleft, hright⟩ := ahead.place.above_of here
    have htab : m.tabSize = l.tabSize := ahead.view Lexer.tabSize
    have hnumber : m.lineNumber = l.lineNumber := ahead.view Lexer.lineNumber
    cases lines with
    | nil =>
      -- the line with the fork is looked at, and it is behind the block
      have behind (n : Lexer) (text : List Char) (first : Option Nat)
          (hrun : gatherBlock indent fuel text first (n.nextLine (f.head ++ f.left) f.leftBelow) =
            .ok gathered l') : False :=
        absurd (above.back ((gatherBlock_strikes _ (.empty l.here) _ _ _ _).leadsOn hrun))
          (Nat.lt_irrefl _)
      rw [gatherBlock_of_line hleft] at hrun
      rw [gatherBlock_of_line hright, f.isIdleLine_head, f.indentWidth_head, htab,
        measure_congr m f.margin_head]
      split at hrun
      case isTrue => exact (behind _ _ _ hrun).elim
      case isFalse hidle =>
        rw [if_neg hidle]
        split at hrun
        case isTrue hindent =>
          cases hrun
          exact ⟨_, _, if_pos hindent, rfl, measure_ahead ahead _⟩
        case isFalse => exact (behind _ _ _ hrun).elim
    | cons line lines =>
      cases line with
      | undecodable =>
        obtain ⟨_, _, htake, _⟩ := bind_ok.mp hrun
        obtain ⟨_, hnone, _⟩ | ⟨_, _, _, hsome, _⟩ := takeLine_ok.mp htake
        · rw [hleft] at hnone
          cases hnone
        · rw [hleft] at hsome
          cases hsome
      | text line =>
        obtain ⟨unread', hbelow, next⟩ := nextLine_above ahead hleft
          (by simp [Fork.Above, Lexer.nextLine, enterLine]; omega)
        rw [gatherBlock_of_line hleft] at hrun
        rw [gatherBlock_of_line hbelow, htab, hnumber]
        split at hrun
        case isTrue hidle =>
          rw [if_pos hidle]
          exact induction next _ l' hrun above
        case isFalse hidle =>
          rw [if_neg hidle]
          split at hrun
          case isTrue hindent =>
            cases hrun
            exact ⟨_, _, if_pos hindent, rfl, measure_ahead ahead line⟩
          case isFalse hindent =>
            rw [if_neg hindent]
            exact induction (measure_ahead next line) _ l' hrun above

theorem captureBlock_keeps (ahead : f.Ahead l m) :
    Keeps f f.Before Nothing l m captureBlock captureBlock := by
  intro _ l' hrun hends
  rw [captureBlock, modify_bind_ok, get_bind_ok] at hrun
  obtain ⟨⟨text, first⟩, n, hgather, hlast⟩ := bind_ok.mp hrun
  cases first with
  | none => cases hlast
  | some first =>
    obtain rfl := modify_ok.mp hlast
    have onward : LeadsOn l.skipLine n :=
      (gatherBlock_strikes l.skipLine (.empty l.here) _ _ _ _).leadsOn hgather
    have above : f.Above n := by
      have hend := ahead.place.above_of_end ?_ hends ?_
      · simpa [Fork.Above, endCapturedLine] using hend
      · simpa [endCapturedLine, skipLine, advance] using onward.suffix
      · simp [endCapturedLine]
    have below : f.Above l.skipLine := above.back onward
    have start := skipLine_above ahead below
    obtain ⟨_, n', hright, rfl, next⟩ := gatherBlock_keeps start _ n hgather above
    have hindent : m.skipLine.indent = l.skipLine.indent := start.view Lexer.indent
    have added := next.addToken .macroParam (String.ofList (Text.dedent text)) ⟨first, 0⟩ n.lineEnd
    have dropped : f.Ahead
        { n.addToken .macroParam (String.ofList (Text.dedent text)) ⟨first, 0⟩ n.lineEnd with
          rest := [], column := 0 }
        { n'.addToken .macroParam (String.ofList (Text.dedent text)) ⟨first, 0⟩ n.lineEnd with
          rest := [], column := 0 } := by
      obtain ⟨lines, _, hleft, hbelow⟩ := next.place.above_of above
      exact ⟨.above lines rfl (by simpa using hleft) (by simpa using hbelow),
        added.view fun n => { n with rest := [], column := 0 }⟩
    refine ⟨⟨⟩, _, ?_, trivial, endCapturedLine_ahead dropped⟩
    rw [captureBlock, modify_bind_ok, get_bind_ok, bind_ok, hindent, start.bound]
    refine ⟨_, n', hright, modify_ok.mpr ?_⟩
    rw [lineEnd_above next above]

theorem rest_of_captureBody {l' : Lexer} (hrun : captureBody l = .ok () l') : l'.rest = [] := by
  rw [captureBody, get_bind_ok, ite_ok] at hrun
  split at hrun
  · rw [captureBlock, modify_bind_ok, get_bind_ok] at hrun
    obtain ⟨⟨text, first⟩, n, _, hlast⟩ := bind_ok.mp hrun
    cases first with
    | none => cases hlast
    | some first => exact modify_ok.mp hlast ▸ rfl
  · rw [captureLine, get_bind_ok] at hrun
    obtain ⟨text, n, _, hlast⟩ := bind_ok.mp hrun
    rw [← modify_ok.mp hlast]
    simp [endCapturedLine, skipLine, advance]

theorem captureBody_keeps (ahead : f.Ahead l m) (hpending : l.pending ≠ []) :
    Keeps f f.Before Nothing l m captureBody captureBody := by
  intro _ l' hrun hends
  have onward := (captureBody_strikes (.empty l.here) hpending).leadsOn hrun
  have above : f.Above l := Fork.Above.back
    (ahead.place.above_of_end onward.suffix hends (rest_of_captureBody hrun)) onward
  obtain ⟨_, hsame, _⟩ := ahead.place.above_of above
  revert hrun hends
  refine Keeps.getBind ?_ _ l'
  rw [hsame]
  exact .ite Iff.rfl (fun _ => captureBlock_keeps ahead) fun _ => captureLine_keeps ahead

end Lexer

end ShellSyntax
