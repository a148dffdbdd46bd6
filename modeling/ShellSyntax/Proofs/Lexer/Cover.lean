import ShellSyntax.Proofs.Lexer.Captured
import ShellSyntax.Proofs.Lexer.Named
import ShellSyntax.Proofs.Lexer.Stacks

/-!
The tokens that the lexer has found tile the text up to its cursor, but for the literal text that
it keeps in its modes.
-/

namespace ShellSyntax.Lexer

open Text

/-- The text that a mode keeps of a literal, and where it starts. -/
def literal? : LexMode → Option (String × Position)
  | .string _ text start _ => some (text, start)
  | .fstringText _ text start | .fstringSpec text start =>
    if text.isEmpty then none else some (text, start)
  | .fstringField _ => none

/-- Where the tokens found so far have to end: at the cursor, or at the start of the literal text
around it. Behind a captured body they end with the line, though its column is forgotten. -/
inductive Frontier (text : List Char) (l : Lexer) : Position → Prop
  | here (placed : Placed text l) (hmodes : ∀ mode ∈ l.modes, literal? mode = none) :
      Frontier text l l.here
  | literal {mode : LexMode} {outer : List LexMode} {chars : String} {start : Position}
      (placed : Placed text l) (hmodes : l.modes = mode :: outer)
      (houter : ∀ mode ∈ outer, literal? mode = none) (hliteral : literal? mode = some (chars, start))
      (hforward : start ≤ l.here) (hstart : OnLine text start)
      (hchars : chars.toList = slice text start l.here) : Frontier text l start
  | body {p : Position} (hmodes : ∀ mode ∈ l.modes, literal? mode = none) (hrest : l.rest = [])
      (hline : l.lastSignificant = some .newline) (hnumber : p.line = l.lineNumber)
      (hp : offset text p = upTo text l.lineNumber) : Frontier text l p

/-- The tokens found so far tile the text as far as the lexer has read it. -/
def Covers (text : List Char) (found : List Token) (l : Lexer) : Prop :=
  ∃ p, Tiled text found p ∧ Cursor text l ∧ Frontier text l p

variable {text : List Char} {l l' m : Lexer} {found : List Token} {p : Position}

theorem Covers.intro (tiled : Tiled text found p) (cursor : Cursor text l)
    (frontier : Frontier text l p) : Covers text found l :=
  ⟨p, tiled, cursor, frontier⟩

/-! ### Frontiers -/

theorem Frontier.outside (frontier : Frontier text l p) (houtside : l.Outside)
    (hrest : l.rest ≠ []) :
    p = l.here ∧ Placed text l ∧ ∀ mode ∈ l.modes, literal? mode = none := by
  cases frontier with
  | here placed hmodes => exact ⟨rfl, placed, hmodes⟩
  | literal placed hmodes houter hliteral =>
    obtain hnone | ⟨depth, outer, hfield⟩ := houtside
    · rw [hnone] at hmodes
      cases hmodes
    · rw [hfield] at hmodes
      obtain ⟨rfl, _⟩ := List.cons.inj hmodes
      cases hliteral
  | body _ hnone => exact absurd hnone hrest

theorem Frontier.lineEnd (frontier : Frontier text l p) (hmodes : l.modes = [])
    (hrest : l.rest = []) :
    p.line = l.lineNumber ∧ offset text p = upTo text l.lineNumber ∧
      (p = l.here ∨ l.lastSignificant = some .newline) := by
  cases frontier with
  | here placed =>
    refine ⟨rfl, ?_, .inl rfl⟩
    rw [← placed, hrest]
    rfl
  | literal placed hsome => simp [hmodes] at hsome
  | body _ _ hline hnumber hp => exact ⟨hnumber, hp, .inr hline⟩

/-- The literal text that the innermost mode keeps goes from the frontier to the cursor. -/
theorem Frontier.literalText (frontier : Frontier text l p) {mode : LexMode}
    {outer : List LexMode} {chars : String} {start : Position} (hmodes : l.modes = mode :: outer)
    (hrest : l.rest ≠ [])
    (hmode : literal? mode = if chars.isEmpty then none else some (chars, start)) :
    p = (if chars.isEmpty then l.here else start) ∧ Placed text l ∧
      (∀ mode ∈ outer, literal? mode = none) ∧ p ≤ l.here ∧ OnLine text p ∧
      chars.toList = slice text p l.here := by
  cases frontier with
  | here placed hnone =>
    have hempty : chars.isEmpty = true := by
      have hmodeNone := hnone mode (by simp [hmodes])
      rw [hmode] at hmodeNone
      split at hmodeNone
      · assumption
      · cases hmodeNone
    refine ⟨by simp [hempty], placed, ?_, Position.le_refl _, onLine_here placed, ?_⟩
    · exact fun mode hmem => hnone mode (by simp [hmodes, hmem])
    · rw [slice_self, String.isEmpty_iff.mp hempty]
      rfl
  | literal placed hsome houter hliteral hforward hstart hchars =>
    rw [hmodes] at hsome
    obtain ⟨rfl, rfl⟩ := List.cons.inj hsome
    rw [hmode] at hliteral
    split at hliteral
    case isTrue => cases hliteral
    case isFalse hempty =>
      obtain ⟨rfl, rfl⟩ := Prod.mk.inj (Option.some.inj hliteral)
      exact ⟨by simp [hempty], placed, houter, hforward, hstart, hchars⟩
  | body _ hnone => exact absurd hnone hrest

theorem Frontier.stringText (frontier : Frontier text l p) {quote : Quote} {chars line : String}
    {start : Position} {outer : List LexMode}
    (hmodes : l.modes = .string quote chars start line :: outer) (hrest : l.rest ≠ []) :
    p = start ∧ Placed text l ∧ (∀ mode ∈ outer, literal? mode = none) ∧ p ≤ l.here ∧
      OnLine text p ∧ chars.toList = slice text p l.here := by
  cases frontier with
  | here placed hnone =>
    have hmodeNone := hnone _ (by rw [hmodes]; exact List.mem_cons_self)
    cases hmodeNone
  | literal placed hsome houter hliteral hforward hstart hchars =>
    rw [hmodes] at hsome
    obtain ⟨rfl, rfl⟩ := List.cons.inj hsome
    obtain ⟨rfl, rfl⟩ := Prod.mk.inj (Option.some.inj hliteral)
    exact ⟨rfl, placed, houter, hforward, hstart, hchars⟩
  | body _ hnone => exact absurd hnone hrest

/-! ### Lines -/

theorem isBlank_of_isSpace {c : Char} (hspace : Lexeme.isSpace c = true) : isBlank c = true := by
  simp only [Lexeme.isSpace, Bool.or_eq_true, beq_iff_eq] at hspace
  obtain (rfl | rfl) | rfl := hspace
  · decide
  · decide
  · decide

theorem tiled_lineStart (tiled : Tiled text found p) (hnumber : p.line = l.lineNumber)
    (hp : offset text p = upTo text l.lineNumber) : Tiled text found ⟨l.lineNumber + 1, 0⟩ := by
  refine tiled.skip (.inl (by rw [hnumber]; exact Nat.lt_succ_self _)) ?_
  intro i hle hlt
  rw [offset_lineStart] at hlt
  omega

theorem tiled_space (tiled : Tiled text found l.here) (cursor : Cursor text l)
    (placed : Placed text l) : Tiled text found l.pastMargin.here := by
  refine tiled.skip (here_le_forward l (l.rest.takeWhile Lexeme.isSpace).length) ?_
  intro i hle hlt
  rw [pastMargin, offset_advance, here_measure] at hlt
  obtain ⟨k, rfl⟩ := Nat.exists_eq_add_of_le hle
  have hk : k < (l.rest.takeWhile Lexeme.isSpace).length := by omega
  have hleads := List.takeWhile_prefix Lexeme.isSpace (l := l.rest)
  have hwithin := Nat.lt_of_lt_of_le hk hleads.length_le
  have hchar := getElem?_forward cursor placed hwithin
  rw [List.getElem?_eq_getElem hwithin, ← hleads.getElem hk] at hchar
  have hspace := List.all_eq_true.mp List.all_takeWhile _ (List.getElem_mem hk)
  exact .inl ⟨_, hchar, isBlank_of_isSpace hspace⟩

theorem tiled_pastMargin {line : List Char} {unread : Source} (tiled : Tiled text found p)
    (cursor : Cursor text l) (hnumber : p.line = l.lineNumber)
    (hp : offset text p = upTo text l.lineNumber) (hunread : l.unread = .text line :: unread)
    (hm : m = (l.freshLine line unread).pastMargin) :
    Tiled text found m.here ∧ Cursor text m ∧ Placed text m := by
  obtain ⟨cursor', placed', _⟩ := cursor.nextLine hunread
  have lineStart : Tiled text found (l.nextLine line unread).here :=
    tiled_lineStart tiled hnumber hp
  have hmargin : ((l.nextLine line unread).rest.takeWhile Lexeme.isSpace).length ≤
      (l.nextLine line unread).rest.length := Lexeme.takeWhile_length_le
  have cursorMargin := cursor'.advance
    ((l.nextLine line unread).rest.takeWhile Lexeme.isSpace).length
  subst hm
  refine ⟨?_, ⟨cursorMargin.unread, cursorMargin.rest⟩, placed'.advance hmargin⟩
  exact tiled_space (l := l.nextLine line unread) lineStart cursor' placed'

/-! ### Tokens cut out of a line -/

theorem Cursor.take (cursor : Cursor text l) (kind : TokenKind) (count : Nat) :
    Cursor text (l.take kind count) :=
  cursor.congr (by simp) (by simp) (by simpa using List.drop_suffix count l.rest)

theorem Placed.take (placed : Placed text l) {count : Nat} (kind : TokenKind)
    (hcount : count ≤ l.rest.length) : Placed text (l.take kind count) :=
  placed.congr _ (by simp) (by simp) (by simp) hcount

theorem tiled_take (tiled : Tiled text found l.here) (cursor : Cursor text l)
    (placed : Placed text l) {kind : TokenKind} {count : Nat} (hcount : count ≤ l.rest.length)
    (line : String) :
    Tiled text (found ++ [⟨kind, String.ofList (l.rest.take count), l.here,
      ⟨l.lineNumber, l.column + count⟩, line⟩]) ⟨l.lineNumber, l.column + count⟩ := by
  refine @Tiled.token text found ⟨kind, String.ofList (l.rest.take count), l.here,
    ⟨l.lineNumber, l.column + count⟩, line⟩ tiled (here_le_forward l count) ⟨?_, ?_, ?_⟩
  · rw [slice_here cursor placed hcount, String.toList_ofList]
  · exact onLine_here placed
  · exact onLine_forward placed hcount

theorem tiled_literalText (tiled : Tiled text found p) (cursor : Cursor text l)
    (placed : Placed text l) (hp : OnLine text p) (hforward : p ≤ l.here) {chars : String}
    (hchars : chars.toList = slice text p l.here) (hempty : chars.isEmpty = true → p = l.here)
    {count : Nat} (hcount : count ≤ l.rest.length) :
    Tiled text (found ++ l.literalText count (chars ++ String.ofList (l.rest.take count)) p)
      ⟨l.lineNumber, l.column + count⟩ := by
  unfold Lexer.literalText
  split
  case isTrue hnone =>
    rw [String.isEmpty_iff, String.append_eq_empty_iff] at hnone
    have hhere := hempty (String.isEmpty_iff.mpr hnone.1)
    have hzero : count = 0 := by
      have hlist := congrArg String.toList hnone.2
      rw [String.toList_ofList] at hlist
      have hlength := congrArg List.length hlist
      simpa [Nat.min_eq_left hcount] using hlength
    subst hzero
    simpa [hhere, here] using tiled
  case isFalse =>
    have hlater := Position.le_trans hforward (here_le_forward l count)
    refine @Tiled.token text found
      ⟨.fstringMiddle, _, p, ⟨l.lineNumber, l.column + count⟩, l.lineText⟩ tiled hlater
      ⟨?_, hp, onLine_forward placed hcount⟩
    rw [String.toList_append, hchars, String.toList_ofList, ← slice_here cursor placed hcount]
    exact slice_append (offset_mono hp hforward)
      (offset_mono (onLine_here placed) (here_le_forward l count))

/-! ### Layout -/

theorem tiled_layout (tiled : Tiled text found p) (hp : OnLine text p) {tokens : List Token}
    (htokens : ∀ token ∈ tokens, (token.kind = .indent ∨ token.kind = .dedent ∨
      token.kind = .endMarker) ∧ token.start = p ∧ token.stop = p) :
    Tiled text (found ++ tokens) p := by
  induction tokens generalizing found with
  | nil => simpa using tiled
  | cons token tokens induction =>
    obtain ⟨hkind, hstart, hstop⟩ := htokens token List.mem_cons_self
    have first := @Tiled.layout text found token (hstart ▸ tiled) hkind (hstart ▸ hp)
      (hstop.trans hstart.symm)
    rw [hstop] at first
    have all := induction first fun token htoken => htokens token (List.mem_cons_of_mem _ htoken)
    simpa using all

theorem tiled_close (tiled : Tiled text found p) (cursor : Cursor text l)
    (frontier : Frontier text l p) (hrest : l.rest = []) (hunread : l.unread = [])
    (hmodes : l.modes = []) : Tiled text (found ++ l.closingTokens) l.sourceEnd := by
  obtain ⟨hnumber, hp, hhere⟩ := frontier.lineEnd hmodes hrest
  have hlast := upTo_of_unread_nil cursor hunread
  have hend : offset text l.sourceEnd = text.length := by
    rw [sourceEnd, offset_lineStart, hlast]
  have hempty {q : Position} (hq : text.length ≤ offset text q) :
      ∀ i, offset text q ≤ i → i < offset text l.sourceEnd →
        Skipped text (found ++ l.missingNewline) i := by
    intro i hle hlt
    omega
  have newline : Tiled text (found ++ l.missingNewline) l.sourceEnd := by
    unfold missingNewline at hempty ⊢
    split at hempty
    case isTrue hneeds =>
      have hsame : p = l.here := by
        refine hhere.resolve_right fun hline => ?_
        simp [needsNewline, hline] at hneeds
      have hlineEnd : l.lineEnd = l.here := by simp [lineEnd, here, hrest]
      rw [if_pos hneeds]
      have token := @Tiled.newline text found
        ⟨.newline, "", l.lineEnd, ⟨l.lineEnd.line, l.lineEnd.column + 1⟩, l.lineText⟩
        (by rw [hlineEnd, ← hsame]; exact tiled) rfl rfl (by
          change OnLine text l.lineEnd
          rw [hlineEnd, ← hsame, OnLine, hp, hnumber]) (by
          change text.length ≤ offset text l.lineEnd
          exact Nat.le_of_eq (by rw [hlineEnd, ← hsame, hp, hlast])) (.inr ⟨rfl, Nat.le_succ _⟩)
      refine token.skip (.inl (Nat.lt_succ_self _)) (hempty ?_)
      rw [offset_forward]
      change text.length ≤ offset text l.lineEnd + 1
      rw [hlineEnd, ← hsame, hp, hlast]
      exact Nat.le_succ _
    case isFalse hneeds =>
      rw [if_neg hneeds]
      simp only [List.append_nil] at hempty ⊢
      refine tiled.skip (.inl (by rw [hnumber]; exact Nat.lt_succ_self _)) (hempty ?_)
      exact Nat.le_of_eq (by rw [hp, hlast])
  rw [closingTokens, ← List.append_assoc]
  refine tiled_layout newline (onLine_lineStart text _) ?_
  intro token htoken
  simp only [List.mem_append, List.mem_replicate, List.mem_singleton] at htoken
  rcases htoken with ⟨_, rfl⟩ | rfl
  · exact ⟨.inr (.inl rfl), rfl, rfl⟩
  · exact ⟨.inr (.inr rfl), rfl, rfl⟩

/-! ### At the cursor -/

/-- The tokens found so far tile the text up to the cursor. -/
structure Stands (text : List Char) (found : List Token) (l : Lexer) : Prop where
  tiled : Tiled text (found ++ l.pending) l.here
  cursor : Cursor text l
  placed : Placed text l
  modes : ∀ mode ∈ l.modes, literal? mode = none

namespace Stands

theorem covers (stands : Stands text found l) : Covers text (found ++ l.pending) l :=
  .intro stands.tiled stands.cursor (.here stands.placed stands.modes)

theorem congr (stands : Stands text found l) (hunread : l'.unread = l.unread)
    (hrest : l'.rest = l.rest) (hnumber : l'.lineNumber = l.lineNumber)
    (hcolumn : l'.column = l.column) (hpending : l'.pending = l.pending)
    (hmodes : ∀ mode ∈ l'.modes, literal? mode = none) : Stands text found l' where
  tiled := by
    rw [hpending, here, hnumber, hcolumn]
    exact stands.tiled
  cursor := stands.cursor.congr hunread hnumber (hrest ▸ List.suffix_refl _)
  placed := stands.placed.congr 0 hnumber hcolumn hrest (Nat.zero_le _)
  modes := hmodes

theorem take (stands : Stands text found l) (kind : TokenKind) {count : Nat}
    (hcount : count ≤ l.rest.length) : Stands text found (l.take kind count) where
  tiled := by
    have token : Tiled text (found ++ l.pending ++
        [⟨kind, String.ofList (l.rest.take count), l.here, ⟨l.lineNumber, l.column + count⟩,
          l.lineText⟩]) ⟨l.lineNumber, l.column + count⟩ :=
      tiled_take stands.tiled stands.cursor stands.placed hcount l.lineText
    simpa [here] using token
  cursor := stands.cursor.take kind count
  placed := stands.placed.take kind hcount
  modes := by simpa using stands.modes

end Stands

theorem Frontier.stands (frontier : Frontier text l p) (tiled : Tiled text found p)
    (cursor : Cursor text l) (hpending : l.pending = []) (houtside : l.Outside)
    (hrest : l.rest ≠ []) : Stands text found l := by
  obtain ⟨rfl, placed, hmodes⟩ := frontier.outside houtside hrest
  exact ⟨by simpa [hpending] using tiled, cursor, placed, hmodes⟩

theorem skipped_continuation (cursor : Cursor text l) (placed : Placed text l) {rest : List Char}
    (hrest : l.rest = '\\' :: rest) (hend : Lexeme.atLineEnd rest = true) :
    ∀ i, offset text l.here ≤ i → i < offset text ⟨l.lineNumber, l.column + l.rest.length⟩ →
      Skipped text found i := by
  intro i hle hlt
  rw [here_forward] at hlt
  obtain ⟨k, rfl⟩ := Nat.exists_eq_add_of_le hle
  have hk : k < l.rest.length := by omega
  have hchar := getElem?_forward cursor placed hk
  have hfeed (n : Nat) (hn : l.rest[n]? = some '\n') : l.rest.length ≤ n + 1 :=
    Nat.le_of_not_lt fun hinside => not_lineFeed cursor placed hinside hn
  cases k with
  | zero =>
    refine .inr (.inl ⟨getElem?_here cursor placed hrest, ?_⟩)
    have hdrop : text.drop (offset text l.here + 1) =
        rest ++ text.drop (upTo text l.lineNumber) := by
      rw [← List.drop_drop, drop_here cursor placed, hrest]
      rfl
    rw [Nat.add_zero, hdrop]
    obtain ⟨body, _, hshape | ⟨_, hnothing, _⟩⟩ := rest_shape cursor placed (by simp [hrest])
    · have hlast := congrArg List.getLast? hshape
      rw [hrest] at hlast
      unfold Lexeme.atLineEnd at hend
      split at hend
      · simp at hlast
      · rfl
      · simp at hlast
      · rfl
      · cases hend
    · rwa [hnothing, List.append_nil]
  | succ k =>
    refine .inl ?_
    rw [hrest, List.getElem?_cons_succ] at hchar
    simp only [hrest, List.length_cons] at hk hfeed
    unfold Lexeme.atLineEnd at hend
    split at hend
    case h_1 => simp at hk
    case h_2 after =>
      have hshort := hfeed 1 rfl
      simp only [List.length_cons] at hshort
      obtain rfl : k = 0 := by
        simp only [List.length_cons] at hk
        omega
      exact ⟨'\n', hchar, by decide⟩
    case h_3 =>
      obtain rfl : k = 0 := by
        simp only [List.length_cons, List.length_nil] at hk
        omega
      exact ⟨'\r', hchar, by decide⟩
    case h_4 after =>
      have hshort := hfeed 2 rfl
      simp only [List.length_cons] at hshort hk
      obtain rfl | rfl : k = 0 ∨ k = 1 := by omega
      · exact ⟨'\r', hchar, by decide⟩
      · exact ⟨'\n', hchar, by decide⟩
    case h_5 => cases hend

theorem stands_pastMargin {line : List Char} {unread : Source} (hpending : l.pending = [])
    (tiled : Tiled text found p) (cursor : Cursor text l) (frontier : Frontier text l p)
    (hrest : l.rest = []) (hplace : l.AtStatement) (hunread : l.unread = .text line :: unread)
    (hm : m = (l.freshLine line unread).pastMargin) : Stands text found m := by
  obtain ⟨hnumber, hp, _⟩ := frontier.lineEnd hplace.1 hrest
  obtain ⟨tiled', cursor', placed'⟩ := tiled_pastMargin tiled cursor hnumber hp hunread hm
  have frame := pastMargin_frame hm
  exact ⟨by simpa [frame, hpending] using tiled', cursor', placed', by simp [frame, hplace.1]⟩

theorem Stands.layout (stands : Stands text found l) {tokens : List Token}
    (hunread : l'.unread = l.unread) (hrest : l'.rest = l.rest)
    (hnumber : l'.lineNumber = l.lineNumber) (hcolumn : l'.column = l.column)
    (hmodes : l'.modes = l.modes) (hpending : l'.pending = l.pending ++ tokens)
    (htokens : ∀ token ∈ tokens, (token.kind = .indent ∨ token.kind = .dedent ∨
      token.kind = .endMarker) ∧ token.start = l.here ∧ token.stop = l.here) :
    Stands text found l' where
  tiled := by
    rw [hpending, here, hnumber, hcolumn, ← List.append_assoc]
    exact tiled_layout stands.tiled (onLine_here stands.placed) htokens
  cursor := stands.cursor.congr hunread hnumber (hrest ▸ List.suffix_refl _)
  placed := stands.placed.congr 0 hnumber hcolumn hrest (Nat.zero_le _)
  modes := by
    rw [hmodes]
    exact stands.modes

/-! ### Moves -/

theorem Frontier.resumeLine {line : List Char} {unread : Source} (frontier : Frontier text l p)
    (hpending : l.pending = []) (tiled : Tiled text found p) (cursor : Cursor text l)
    (hrest : l.rest = []) (hunread : l.unread = .text line :: unread) :
    Covers text (found ++ (l.freshLine line unread).pending) (l.freshLine line unread) := by
  obtain ⟨cursor', placed', hplace⟩ := cursor.nextLine hunread
  have hfound : found ++ (l.freshLine line unread).pending = found := by
    change found ++ l.pending = found
    rw [hpending, List.append_nil]
  have cursorLine : Cursor text (l.freshLine line unread) := ⟨cursor'.unread, cursor'.rest⟩
  rw [hfound]
  cases frontier with
  | here placed hmodes =>
    have hp : offset text l.here = upTo text l.lineNumber := by
      rw [← placed, hrest]
      rfl
    exact .intro (tiled_lineStart tiled rfl hp) cursorLine (.here placed' hmodes)
  | @literal mode outer chars start placed hmodes houter hliteral hforward hstart hchars =>
    have hsame := offset_nextLine cursor placed hrest hunread
    refine .intro tiled cursorLine (.literal placed' hmodes houter hliteral ?_ hstart ?_)
    · exact Position.le_trans hforward (.inl (Nat.lt_succ_self _))
    · rw [hchars]
      exact slice_congr rfl hsame.symm
  | body hmodes _ _ hnumber hp =>
    exact .intro (tiled_lineStart tiled hnumber hp) cursorLine (.here placed' hmodes)

theorem stands_flushed (hpending : l.pending = []) (tiled : Tiled text found p)
    (cursor : Cursor text l) (placed : Placed text l) (hp : OnLine text p) (hforward : p ≤ l.here)
    {chars : String} (hchars : chars.toList = slice text p l.here)
    (hempty : chars.isEmpty = true → p = l.here) {count : Nat} (hcount : count ≤ l.rest.length)
    {modes : List LexMode} (hmodes : ∀ mode ∈ modes, literal? mode = none) :
    Stands text found
      (l.flushed count (chars ++ String.ofList (l.rest.take count)) p modes) where
  tiled := by
    have flush := tiled_literalText tiled cursor placed hp hforward hchars hempty hcount
    simpa [hpending, here] using flush
  cursor := cursor.congr (by simp) (by simp) (by simpa using List.drop_suffix count l.rest)
  placed := placed.congr _ (by simp) (by simp) (by simp) hcount
  modes := by simpa using hmodes

theorem count_le_of_head? {chars : List Char} {count : Nat} {c : Char}
    (hhead : (chars.drop count).head? = some c) : count ≤ chars.length := by
  obtain ⟨rest, hdrop⟩ := List.head?_eq_some_iff.mp hhead
  have hlength := congrArg List.length hdrop
  rw [List.length_drop, List.length_cons] at hlength
  omega

theorem Stands.openField {count : Nat} {chars : String} {modes : List LexMode}
    (stands : Stands text found (l.flushed count chars p modes))
    (hflush : l.flushText count = l.flushed count chars p modes)
    (hbrace : (l.rest.drop count).head? = some '\x7b') :
    Stands text found (l.openField count) := by
  obtain ⟨rest, hdrop⟩ := List.head?_eq_some_iff.mp hbrace
  have hone : 1 ≤ (l.flushed count chars p modes).rest.length := by simp [hdrop]
  rw [Lexer.openField, hflush]
  refine (stands.take .op hone).congr rfl rfl rfl rfl rfl ?_
  intro mode hmode
  rcases List.mem_cons.mp hmode with rfl | hmode
  · rfl
  · exact (stands.take .op hone).modes mode hmode

theorem Moves.covers (moves : Moves l l') (hlive : l'.finished = false)
    (hpending : l.pending = []) (named : Named found l)
    (tiled : Tiled text found p) (cursor : Cursor text l) (frontier : Frontier text l p) :
    Covers text (found ++ l'.pending) l' := by
  cases moves with
  | finish => simp at hlive
  | resumeLine hrest hunread => exact frontier.resumeLine hpending tiled cursor hrest hunread
  | blankLine hrest hunread hplace hm =>
    exact (stands_pastMargin hpending tiled cursor frontier hrest hplace hunread hm).covers
  | commentLine hrest hunread hplace hm hcomment =>
    have stands := stands_pastMargin hpending tiled cursor frontier hrest hplace hunread hm
    exact ((stands.take .comment (Lexeme.contentLength_le _)).take .nl (Nat.le_refl _)).covers
  | emptyLine hrest hunread hplace hm hbreak hc =>
    have stands := stands_pastMargin hpending tiled cursor frontier hrest hplace hunread hm
    exact (stands.take .nl (Nat.le_refl _)).covers
  | @indented m line rest unread width c hrest hunread hplace hm hbreak hwidth hdeeper =>
    have stands := stands_pastMargin hpending tiled cursor frontier hrest hplace hunread hm
    have hfound := addToken_pending { m with indents := width :: m.indents } .indent "" m.here m.here
    refine (stands.layout (by simp) (by simp) (by simp) (by simp) (by simp) hfound ?_).covers
    simp
  | level hrest hunread hplace hm =>
    exact (stands_pastMargin hpending tiled cursor frontier hrest hplace hunread hm).covers
  | @outdented m line rest unread width c hrest hunread hplace hm hbreak hwidth hsh hopen =>
    have stands := stands_pastMargin hpending tiled cursor frontier hrest hplace hunread hm
    refine (stands.layout (by simp) (by simp) (by simp) (by simp) (by simp)
      (leaveBlocks_pending m width) ?_).covers
    intro token htoken
    obtain rfl := List.eq_of_mem_replicate htoken
    exact ⟨.inr (.inl rfl), rfl, rfl⟩
  | @stringEnd quote chars line start outer length hmodes hrest hend =>
    obtain ⟨rfl, placed, houter, hforward, hp, hchars⟩ := frontier.stringText hmodes hrest
    have hlength := (Quote.closingEnd?_bounds hend).2
    have hlater := here_le_forward l length
    refine .intro (p := (l.advance length).here) ?_ ?_ (.here (placed.advance hlength) houter)
    · simp only [push, advance, hpending, List.nil_append]
      refine @Tiled.token text found ⟨.string, chars ++ String.ofList (l.rest.take length), p,
        (l.advance length).here, line⟩ tiled (Position.le_trans hforward hlater) ⟨?_, hp, ?_⟩
      · rw [String.toList_append, hchars, String.toList_ofList, ← slice_here cursor placed hlength]
        exact slice_append (offset_mono hp hforward) (offset_mono (onLine_here placed) hlater)
      · exact onLine_forward placed hlength
    · exact cursor.congr rfl rfl (List.drop_suffix _ _)
  | @stringLine quote chars line start outer hmodes hrest hend hgoes =>
    obtain ⟨rfl, placed, houter, hforward, hp, hchars⟩ := frontier.stringText hmodes hrest
    have hlater := here_le_forward l l.rest.length
    refine .intro (p := p) ?_ ?_ (.literal (placed.advance (Nat.le_refl _)) rfl houter rfl
      (Position.le_trans hforward hlater) hp ?_)
    · simpa [skipLine, advance, hpending] using tiled
    · exact cursor.congr rfl rfl (List.drop_suffix _ _)
    · rw [String.toList_append, hchars, String.toList_ofList, ← slice_lineEnd cursor placed]
      exact slice_append (offset_mono hp hforward) (offset_mono (onLine_here placed) hlater)
  | @textLine quote chars start outer hmodes hrest hscan =>
    obtain ⟨hstart, placed, houter, hforward, hp, hchars⟩ := frontier.literalText hmodes hrest rfl
    have hlater := here_le_forward l l.rest.length
    rw [← hstart]
    have hliteral : literal? (.fstringText quote (chars ++ String.ofList l.rest) p) =
        some (chars ++ String.ofList l.rest, p) := by
      have hnonempty : (chars ++ String.ofList l.rest).isEmpty = false := by
        rw [Bool.eq_false_iff, ne_eq, String.isEmpty_iff, String.append_eq_empty_iff]
        rintro ⟨_, hnone⟩
        have hlist := congrArg String.toList hnone
        rw [String.toList_ofList] at hlist
        exact hrest hlist
      simp [literal?, hnonempty]
    refine .intro (p := p) ?_ ?_ (.literal (placed.advance (Nat.le_refl _)) rfl houter hliteral
      (Position.le_trans hforward hlater) hp ?_)
    · simpa [skipLine, advance, hpending] using tiled
    · exact cursor.congr rfl rfl (List.drop_suffix _ _)
    · rw [String.toList_append, hchars, String.toList_ofList, ← slice_lineEnd cursor placed]
      exact slice_append (offset_mono hp hforward) (offset_mono (onLine_here placed) hlater)
  | @textEnd m quote chars start outer count hmodes hrest hm hscan =>
    obtain ⟨hstart, placed, houter, hforward, hp, hchars⟩ := frontier.literalText hmodes hrest rfl
    rw [← hstart] at hm
    have hsize := size_le_of_closes (scanText_quote hscan).2
    rw [Nat.sub_zero, List.length_drop] at hsize
    have hpositive := quote.size_pos
    have flush : Stands text found (m.flushText count) := by
      rw [flushText_of_text (l := m) (by rw [hm]) count]
      subst hm
      refine stands_flushed hpending tiled ⟨cursor.unread, cursor.rest⟩ placed hp hforward hchars
        ?_ ?_ (List.forall_mem_cons.mpr ⟨rfl, houter⟩)
      · intro hempty
        rw [hstart, if_pos hempty]
      · omega
    have hrestEnd : (m.flushText count).rest = l.rest.drop count := by
      rw [flushText_of_text (l := m) (by rw [hm]) count]
      simp [hm]
    have hclose : quote.size ≤ (m.flushText count).rest.length := by
      rw [hrestEnd, List.length_drop]
      exact hsize
    have closed : Stands text _ { (m.flushText count).take .fstringEnd quote.size with
        modes := outer } := (flush.take .fstringEnd hclose).congr rfl rfl rfl rfl rfl houter
    exact closed.covers
  | @textField m quote chars start outer count hmodes hrest hm hscan =>
    obtain ⟨hstart, placed, houter, hforward, hp, hchars⟩ := frontier.literalText hmodes hrest rfl
    rw [← hstart] at hm
    subst hm
    have hbrace := (scanText_field hscan).2
    have hcount := count_le_of_head? hbrace
    refine Stands.covers (Stands.openField (stands_flushed hpending tiled
      ⟨cursor.unread, cursor.rest⟩ placed hp hforward hchars ?_ hcount ?_)
      (flushText_of_text rfl count) hbrace)
    · intro hempty
      rw [hstart, if_pos hempty]
    · exact List.forall_mem_cons.mpr ⟨rfl, houter⟩
  | @specField m chars start outer count hmodes hrest hm hscan =>
    obtain ⟨hstart, placed, houter, hforward, hp, hchars⟩ := frontier.literalText hmodes hrest rfl
    rw [← hstart] at hm
    subst hm
    have hbrace := (scanSpec_field hscan).2
    have hcount := count_le_of_head? hbrace
    refine Stands.covers (Stands.openField (stands_flushed hpending tiled
      ⟨cursor.unread, cursor.rest⟩ placed hp hforward hchars ?_ hcount ?_)
      (flushText_of_spec rfl count) hbrace)
    · intro hempty
      rw [hstart, if_pos hempty]
    · exact List.forall_mem_cons.mpr ⟨rfl, houter⟩
  | @specEnd m n chars start outer count top brackets hmodes hrest hm hscan hn hbrackets htop =>
    obtain ⟨hstart, placed, houter, hforward, hp, hchars⟩ := frontier.literalText hmodes hrest rfl
    rw [← hstart] at hm
    have hbrace := (scanSpec_close hscan).2
    have hcount := count_le_of_head? hbrace
    have flush : Stands text found n := by
      rw [hn, flushText_of_spec (l := m) (by rw [hm]) count]
      subst hm
      refine stands_flushed hpending tiled ⟨cursor.unread, cursor.rest⟩ placed hp hforward hchars
        ?_ hcount (List.forall_mem_cons.mpr ⟨rfl, houter⟩)
      intro hempty
      rw [hstart, if_pos hempty]
    obtain ⟨rest, hdrop⟩ := List.head?_eq_some_iff.mp hbrace
    have hone : 1 ≤ n.rest.length := by
      rw [hn, flushText_of_spec (l := m) (by rw [hm]) count]
      simp only [flushed_frame, hm]
      rw [show l.rest.drop count = _ from hdrop]
      simp
    have closed : Stands text found { n with brackets } :=
      flush.congr rfl rfl rfl rfl rfl flush.modes
    refine Stands.covers ((closed.take .op hone).congr rfl rfl rfl rfl rfl ?_)
    exact fun mode hmode => flush.modes mode (List.mem_of_mem_drop hmode)
  | @plain kind count houtside hplain =>
    have hextent := hplain.extent
    have hsome : l.rest ≠ [] := by
      rintro hnil
      simp only [hnil, List.length_nil] at hextent
      omega
    exact ((frontier.stands tiled cursor hpending houtside hsome).take kind hextent.2).covers
  | @continuation rest houtside hrest hend =>
    have stands := frontier.stands tiled cursor hpending houtside (by simp [hrest])
    refine .intro (p := (l.advance l.rest.length).here) ?_
      (cursor.congr rfl rfl (List.drop_suffix _ _))
      (.here (stands.placed.advance (Nat.le_refl _)) stands.modes)
    change Tiled text (found ++ l.pending) _
    exact stands.tiled.skip (here_le_forward l l.rest.length)
      (skipped_continuation stands.cursor stands.placed hrest hend)
  | @stringStart letters quote houtside hopening hplain hend hgoes =>
    have hletters := (StringLetters.opening?_bounds hopening).1
    have hpositive := quote.size_pos
    have hsome : l.rest ≠ [] := List.length_pos_iff.mp (by omega)
    have stands := frontier.stands tiled cursor hpending houtside hsome
    refine .intro (p := l.here) stands.tiled
      (cursor.congr rfl rfl (List.drop_suffix _ _))
      (.literal (stands.placed.advance (Nat.le_refl _)) rfl stands.modes rfl
        (here_le_forward l l.rest.length) (onLine_here stands.placed) ?_)
    rw [String.toList_ofList]
    exact (slice_lineEnd cursor stands.placed).symm
  | @fstringStart m letters quote houtside hopening hformatted hm =>
    have hletters := (StringLetters.opening?_bounds hopening).1
    have hpositive := quote.size_pos
    have hsome : l.rest ≠ [] := List.length_pos_iff.mp (by omega)
    have stands := frontier.stands tiled cursor hpending houtside hsome
    have opened := stands.take .fstringStart hletters
    rw [← hm] at opened
    have inside : Stands text _ (m.pushMode (.fstringText quote "" m.here)) :=
      opened.congr rfl rfl rfl rfl rfl (List.forall_mem_cons.mpr ⟨rfl, opened.modes⟩)
    exact inside.covers
  | envVariable houtside hcommand hrest hstart =>
    have stands := frontier.stands tiled cursor hpending houtside (by simp [hrest])
    exact ((stands.take .op (by simp [hrest])).take .name Lexeme.takeWhile_length_le).covers
  | @closer table sign top brackets houtside hmatch hcloser hbrackets =>
    have hsign := (Spelling.firstMatch_leads hmatch).1
    have hlength := Spelling.firstMatch_le hmatch
    have stands := frontier.stands tiled cursor hpending houtside
      (List.length_pos_iff.mp (by omega))
    have closed : Stands text found { l with
        brackets, modes := if l.atFieldLevel then l.modes.drop 1 else l.modes } := by
      refine stands.congr rfl rfl rfl rfl rfl ?_
      intro mode hmode
      change mode ∈ (if l.atFieldLevel then l.modes.drop 1 else l.modes) at hmode
      split at hmode
      · exact stands.modes mode (List.mem_of_mem_drop hmode)
      · exact stands.modes mode hmode
    exact (closed.take .op (by change 1 ≤ l.rest.length; omega)).covers
  | @opener table opener houtside hmatch =>
    have hsign := (Spelling.firstMatch_leads hmatch).1
    have hlength := Spelling.firstMatch_le hmatch
    have stands := frontier.stands tiled cursor hpending houtside
      (List.length_pos_iff.mp (by omega))
    have opened : Stands text found (l.pushBracket (.opened opener l.brackets.realm l.here)) :=
      stands.congr rfl rfl rfl rfl rfl stands.modes
    exact (opened.take .op hlength).covers
  | @call m _ table houtside hmatch hcallable hm harguments =>
    have hlength := Spelling.firstMatch_le hmatch
    have htext := (Spelling.firstMatch_take hmatch).symm
    have hsome : l.rest ≠ [] :=
      List.length_pos_iff.mp (Nat.lt_of_lt_of_le (Spelling.firstMatch_leads hmatch).1 hlength)
    have stands := frontier.stands tiled cursor hpending houtside hsome
    have opened : Stands text found (l.pushBracket ⟨.bangParen, .raw, l.here⟩) :=
      stands.congr rfl rfl rfl rfl rfl stands.modes
    have called := opened.take .op hlength
    rw [← hm] at called
    obtain ⟨recent, hrecent, hname⟩ : ∃ recent ∈ l.recent,
        recent.isCallable = true ∧ recent.stop = l.here := by
      simpa [followsCallable, Option.any_eq_true] using hcallable
    obtain ⟨name, hmem, hkind, hkeyword, hstop⟩ := named recent hrecent hname.1
    rw [hpending, List.append_nil] at hmem
    have hfound : m.pending = [⟨.op, Opener.bangParen.spelling, l.here, m.here, l.lineText⟩] := by
      have htake : String.ofList (l.rest.take Opener.bangParen.spelling.length) =
          Opener.bangParen.spelling := by
        rw [← htext, String.ofList_toList]
      simp [hm, pushBracket, hpending, htake, here]
    have tiledOpener := called.tiled
    rw [hfound] at tiledOpener
    have scans : Scans text m.here m.here (.empty m.here) m :=
      ⟨called.cursor, called.placed, .blank (Position.le_refl _) (.self _)⟩
    have hcallee := hstop.trans hname.2
    obtain ⟨more, hmore, cursor', placed', all⟩ := harguments.tiled tiledOpener scans
      (List.nil_append _).symm .start rfl ⟨name, hmem, hkind, hkeyword, hcallee⟩ (by simp)
    refine .intro (p := l'.here) ?_ cursor' (.here placed' ?_)
    · rw [hmore, hfound]
      simpa using all
    · rw [harguments.progress.2.1]
      exact called.modes
  | @rawCommand m n table top brackets raw rest houtside hcommand hmatch hm hbrackets hcapture
      hfloor hrest =>
    have hlength : 1 ≤ l.rest.length := Spelling.firstMatch_le hmatch
    have stands := frontier.stands tiled cursor hpending houtside (List.length_pos_iff.mp hlength)
    have signed := stands.take .op hlength
    rw [← hm] at signed
    have scans : Scans text m.here m.here (.empty m.here) m :=
      ⟨signed.cursor, signed.placed, .blank (Position.le_refl _) (.self _)⟩
    obtain ⟨scans', _⟩ := hcapture.scans scans (List.nil_append _).symm .start
    have token := signed.tiled.captured scans'.captured n.lineText (onLine_here signed.placed)
    refine .intro (p := n.here) ?_ ⟨scans'.cursor.unread, scans'.cursor.rest⟩
      (.here scans'.placed ?_)
    · simpa [push, hcapture.readsOn.pending] using token
    · change ∀ mode ∈ n.modes, _
      rw [hcapture.readsOn.modes]
      exact signed.modes
  | @announce table announced houtside hhost hmatch =>
    have hlength : 1 ≤ l.rest.length := Spelling.firstMatch_le hmatch
    have stands := frontier.stands tiled cursor hpending houtside (List.length_pos_iff.mp hlength)
    have announcing : Stands text found { l with withHeader := announced } :=
      stands.congr rfl rfl rfl rfl rfl stands.modes
    exact (announcing.take .op hlength).covers
  | @spec m table houtside hmatch hfield hm =>
    have hlength : 1 ≤ l.rest.length := Spelling.firstMatch_le hmatch
    have stands := frontier.stands tiled cursor hpending houtside (List.length_pos_iff.mp hlength)
    have signed := stands.take .op hlength
    rw [← hm] at signed
    have inside : Stands text _ (m.pushMode (.fstringSpec "" m.here)) :=
      signed.congr rfl rfl rfl rfl rfl (List.forall_mem_cons.mpr ⟨rfl, signed.modes⟩)
    exact inside.covers
  | @bodyLine m n table chars houtside hmatch hfield hheader hbrackets hm hidle hgathers =>
    have hlength : 1 ≤ l.rest.length := Spelling.firstMatch_le hmatch
    have stands := frontier.stands tiled cursor hpending houtside (List.length_pos_iff.mp hlength)
    have started : Stands text found { l with withHeader := false } :=
      stands.congr rfl rfl rfl rfl rfl stands.modes
    have signed := started.take .op hlength
    rw [← hm] at signed
    obtain ⟨cursor', placed', hforward, hchars⟩ := hgathers.verbatim signed.cursor signed.placed
      (onLine_here signed.placed) (here_le_forward m _)
      (slice_lineEnd signed.cursor signed.placed).symm
    have token := @Tiled.token text _
      ⟨.macroParam, String.ofList chars, m.here, n.lineEnd, n.lineText⟩ signed.tiled hforward
      ⟨by rw [String.toList_ofList, hchars], onLine_here signed.placed, onLine_lineEnd placed'⟩
    have body : Stands text found
        (n.addToken .macroParam (String.ofList chars) m.here n.lineEnd).skipLine.endCapturedLine := by
      refine ⟨?_, ?_, ?_, ?_⟩
      · simpa [endCapturedLine, skipLine, advance, hgathers.readsOn.pending, here, lineEnd]
          using token
      · exact cursor'.congr (by simp [endCapturedLine, skipLine, advance])
          (by simp [endCapturedLine, skipLine, advance])
          (by simp [endCapturedLine, skipLine, advance])
      · exact placed'.congr n.rest.length (by simp [endCapturedLine, skipLine, advance])
          (by simp [endCapturedLine, skipLine, advance])
          (by simp [endCapturedLine, skipLine, advance]) (Nat.le_refl _)
      · simpa [endCapturedLine, skipLine, advance, hgathers.readsOn.modes] using signed.modes
    exact body.covers
  | @bodyBlock m n table chars first houtside hmatch hfield hheader hbrackets hm hidle hgathers =>
    have hlength : 1 ≤ l.rest.length := Spelling.firstMatch_le hmatch
    have hsign : String.ofList (l.rest.take 1) = ":" :=
      congrArg String.ofList (Spelling.firstMatch_take hmatch)
    have stands := frontier.stands tiled cursor hpending houtside (List.length_pos_iff.mp hlength)
    have started : Stands text found { l with withHeader := false } :=
      stands.congr rfl rfl rfl rfl rfl stands.modes
    have signed := started.take .op hlength
    rw [← hm] at signed
    have hfound : m.pending = [⟨.op, ":", l.here, m.here, l.lineText⟩] := by
      simp [hm, hpending, hsign, here]
    have hskip : m.skipLine.lineEnd = m.lineEnd := by
      simp [lineEnd, skipLine, advance]
    have quiet := quiet_of_idle signed.cursor signed.placed hidle
    rw [← hskip] at quiet
    obtain ⟨cursor', placed', _, _, hquiet⟩ := hgathers.quiet (signed.cursor.advance _)
      (signed.placed.advance (Nat.le_refl _)) (p := m.here)
    obtain ⟨hbelow, hwithin, quietAll⟩ := hquiet rfl (onLine_here signed.placed)
      (hskip ▸ here_le_forward m m.rest.length) quiet first rfl
    have hforward : (⟨first, 0⟩ : Position) ≤ n.lineEnd := by
      rcases Nat.lt_or_eq_of_le hwithin with hless | hsame
      · exact .inl hless
      · exact .inr ⟨hsame, Nat.zero_le _⟩
    have tiledColon := signed.tiled
    rw [hfound] at tiledColon
    have token := @Tiled.body text found _
      ⟨.macroParam, String.ofList (Text.dedent chars), ⟨first, 0⟩, n.lineEnd, n.lineText⟩
      tiledColon ⟨rfl, found, _, rfl, rfl, hbelow⟩ (onLine_lineStart text first) hforward quietAll
    have reads := (readsOn_advance m m.rest.length).trans hgathers.readsOn
    refine .intro (p := n.lineEnd) ?_ ?_ (.body ?_ rfl rfl ?_ (offset_lineEnd placed'))
    · simpa [endCapturedLine, reads.pending, hfound] using token
    · exact cursor'.congr (by simp [endCapturedLine]) (by simp [endCapturedLine])
        (by simp [endCapturedLine])
    · simpa [endCapturedLine, reads.modes] using signed.modes
    · simp [endCapturedLine, lineEnd]

/-! ### Runs -/

/-- All tokens are found, and they tile the text. -/
def CoversAll (text : List Char) (found : List Token) (l : Lexer) : Prop :=
  Tiled text found l.sourceEnd ∧ text.length ≤ offset text l.sourceEnd

/-- The tokens handed out and those pending tile the text as far as the lexer has got. -/
def KeepsCover (text : List Char) (found : List Token) (l : Lexer) : Prop :=
  (if l.finished then CoversAll text found l else Covers text found l) ∧
    ∃ handedOut, found = handedOut ++ l.pending ∧ Named handedOut l

theorem keepsCover_invariant (text : List Char) : Invariant (KeepsCover text) where
  move := by
    rintro found l l' ⟨hcovers, handedOut, hfound, named⟩ hpending hworks moves
    rw [hpending, List.append_nil] at hfound
    subst hfound
    refine ⟨?_, found, rfl, named.move moves⟩
    simp only [hworks, Bool.false_eq_true, if_false] at hcovers
    obtain ⟨p, tiled, cursor, frontier⟩ := hcovers
    split
    case isTrue hfinished =>
      obtain hsame | ⟨rfl, hrest, hunread, hplace⟩ := (moves.progress hworks).ends
      · rw [hsame, hworks] at hfinished
        cases hfinished
      · have hsame : l.close.sourceEnd = l.sourceEnd := by simp [sourceEnd]
        have all := tiled_close tiled cursor frontier hrest hunread hplace.1
        refine ⟨?_, ?_⟩
        · rw [hsame]
          simpa [hpending] using all
        · rw [hsame, sourceEnd, offset_lineStart]
          exact Nat.le_of_eq (upTo_of_unread_nil cursor hunread).symm
    case isFalse hlive =>
      exact moves.covers (Bool.eq_false_iff.mpr hlive) hpending named tiled cursor frontier
  handOut := by
    rintro found l token pending ⟨hcovers, handedOut, hfound, named⟩ hpending
    refine ⟨?_, handedOut ++ [token], by simp [hfound, hpending], ?_⟩
    · change if l.finished then CoversAll text found l else
        Covers text found { l with pending }
      split at hcovers
      case isTrue hfinished =>
        rw [if_pos hfinished]
        exact hcovers
      case isFalse hlive =>
        rw [if_neg hlive]
        obtain ⟨p, tiled, cursor, frontier⟩ := hcovers
        refine .intro tiled ⟨cursor.unread, cursor.rest⟩ ?_
        cases frontier with
        | here placed hmodes => exact .here (l := { l with pending }) placed hmodes
        | literal placed hmodes houter hliteral hforward hstart hchars =>
          exact .literal placed hmodes houter hliteral hforward hstart hchars
        | body hmodes hrest hline hnumber hp => exact .body hmodes hrest hline hnumber hp
    · intro recent hmem hcallable
      have hname := named recent hmem hcallable
      simpa [hpending] using hname
  sourceEnd := by
    rintro found l ⟨hcovers, handedOut, hfound, named⟩ hpending hfinished
    rw [if_pos hfinished] at hcovers
    refine ⟨?_, handedOut ++ [.endMarker l.lineNumber], by simp [hfound, hpending], ?_⟩
    · rw [if_pos hfinished]
      exact ⟨@Tiled.layout text found (.endMarker l.lineNumber) hcovers.1 (.inr (.inr rfl))
        (onLine_lineStart text _) rfl, hcovers.2⟩
    · intro recent hmem hcallable
      obtain ⟨name, hname, hkind⟩ := named recent hmem hcallable
      rw [hpending, List.append_nil] at hname
      exact ⟨name, by simp [hname], hkind⟩

variable {tabSize : Nat} {tokens : List Token}

theorem keepsCover_start (text : List Char) (tabSize : Nat) :
    KeepsCover text [] (ofSource (.ofText text) tabSize) := by
  refine ⟨?_, [], rfl, ?_⟩
  · refine .intro .start ⟨?_, ?_⟩ (.here ?_ ?_)
    · simp [ofSource, Source.ofText]
    · simp [ofSource]
    · simp [Placed, ofSource, here, offset, upTo]
    · simp [ofSource]
  · intro recent hmem
    cases hmem

theorem Reaches.tiled {text : List Char} {l : Lexer}
    (reached : Reaches (.ofText text) tabSize tokens l) :
    ∃ p, Tiled text (tokens ++ l.pending) p := by
  obtain ⟨hcovers, _⟩ := (keepsCover_invariant text).reaches (keepsCover_start text tabSize) reached
  split at hcovers
  · exact ⟨_, hcovers.1⟩
  · obtain ⟨p, tiled, _⟩ := hcovers
    exact ⟨p, tiled⟩

/-- The raw tokens of a text tile it. Tokens are ordered; each but those of the layout and the body
of a block is the text from its start to its end, and a character in none of them is white space,
continues a line, separates arguments, or is in a comment above the body of a block. -/
theorem tokens_tile_text (text : String) (tabSize : Nat) (tokens : List Token)
    (htokens : (ofSource (.ofString text) tabSize).allTokens = .ok tokens) :
    Tiles text.toList tokens := by
  obtain ⟨l, reached, program, marker, hsplit, hmarker, _⟩ := reaches_of_allTokens htokens
  obtain ⟨hfinished, hpending⟩ := reached.ended hsplit hmarker
  have keeps := (keepsCover_invariant text.toList).reaches (keepsCover_start text.toList tabSize)
    reached
  obtain ⟨tiled, hend⟩ : CoversAll text.toList (tokens ++ l.pending) l := by
    simpa [hfinished] using keeps.1
  rw [hpending, List.append_nil] at tiled
  exact tiled.tiles hend

theorem tokens_tile_text_of_macros :
    ∃ tokens, (ofSource (.ofString "g!(a, [b, c]) \\\n\nwith! x:\n # d\n y\n") 8).allTokens =
        .ok tokens ∧
      tokens.map (·.text) = ["g", "!(", "a", "[b, c]", ")", " ", "\n", "with", "!", " ", "x", ":",
        "y\n", ""] ∧
      Tiles "g!(a, [b, c]) \\\n\nwith! x:\n # d\n y\n".toList tokens := by
  have htexts : ((ofSource (.ofString "g!(a, [b, c]) \\\n\nwith! x:\n # d\n y\n")
      8).allTokens.toOption.map fun tokens => tokens.map (·.text)) = some ["g", "!(", "a", "[b, c]",
        ")", " ", "\n", "with", "!", " ", "x", ":", "y\n", ""] := by decide +kernel
  cases htokens :
      (ofSource (.ofString "g!(a, [b, c]) \\\n\nwith! x:\n # d\n y\n") 8).allTokens with
  | error e => simp [htokens, Except.toOption] at htexts
  | ok tokens =>
    refine ⟨tokens, rfl, ?_, tokens_tile_text _ _ tokens htokens⟩
    simpa [htokens, Except.toOption] using htexts

end ShellSyntax.Lexer
