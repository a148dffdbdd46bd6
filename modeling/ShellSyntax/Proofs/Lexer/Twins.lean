import ShellSyntax.Proofs.Lexer.ReturnedLexemes
import ShellSyntax.Proofs.Lexer.Steps

/-!
Two lexers side by side, one on lines that end in line feeds and one on the same lines with returns.
At the same place both have found the same tokens, but for the line ends in their texts, and a place
behind a line end is one column further on.
-/

namespace ShellSyntax

open Text

variable {lines : List (List Char)}

/-! ### Texts and places -/

namespace Text

/-- The text with a carriage return in front of every line feed. -/
def returned (text : String) : String :=
  String.ofList (withReturns text.toList)

@[simp] theorem returned_empty : returned "" = "" :=
  rfl

@[simp] theorem returned_ofList (text : List Char) :
    returned (String.ofList text) = String.ofList (withReturns text) := by
  rw [returned, String.toList_ofList]

@[simp] theorem toList_returned (text : String) :
    (returned text).toList = withReturns text.toList := by
  rw [returned, String.toList_ofList]

@[simp] theorem returned_append (first second : String) :
    returned (first ++ second) = returned first ++ returned second := by
  apply String.toList_inj.mp
  rw [String.toList_append, toList_returned, toList_returned, toList_returned, String.toList_append,
    withReturns_append]

@[simp] theorem returned_isEmpty (text : String) : (returned text).isEmpty = text.isEmpty := by
  rw [Bool.eq_iff_iff, String.isEmpty_iff, String.isEmpty_iff, ← String.toList_inj,
    toList_returned, String.toList_empty, withReturns_eq_nil, ← String.toList_inj,
    String.toList_empty]

theorem returned_push_of_ne {c : Char} (hc : c ≠ '\n') (text : String) :
    returned (text.push c) = (returned text).push c := by
  apply String.toList_inj.mp
  rw [toList_returned, String.toList_push, String.toList_push, toList_returned, withReturns_append,
    withReturns_cons hc, withReturns_nil]

theorem returned_push_feed (text : String) :
    returned (text.push '\n') = ((returned text).push '\r').push '\n' := by
  apply String.toList_inj.mp
  rw [toList_returned, String.toList_push, String.toList_push, String.toList_push, toList_returned,
    withReturns_append, List.append_assoc]
  rfl

namespace OneLine

variable {text : List Char}

/-- In front of the last character of a line stands no line feed. -/
theorem feed_not_mem_take (h : OneLine text) {count : Nat} (hcount : count < text.length) :
    '\n' ∉ text.take count := by
  induction h generalizing count with
  | nil => exact absurd hcount (Nat.not_lt_zero _)
  | feed =>
    obtain rfl : count = 0 := Nat.lt_one_iff.mp hcount
    exact List.not_mem_nil
  | cons hfeed _ _ induction =>
    cases count with
    | zero => exact List.not_mem_nil
    | succ count =>
      rw [List.take_succ_cons, List.mem_cons, not_or]
      exact ⟨hfeed.symm, induction (Nat.lt_of_succ_lt_succ hcount)⟩

theorem feed_not_mem_of_short (h : OneLine text) {count : Nat}
    (hshort : text.length ≤ count → text.getLast? ≠ some '\n') : '\n' ∉ text.take count := by
  rcases Nat.lt_or_ge count text.length with hlt | hge
  · exact h.feed_not_mem_take hlt
  · intro hmem
    rw [List.take_of_length_le hge] at hmem
    obtain ⟨before, after, rfl⟩ := List.append_of_mem hmem
    have hafter : after = [] := by
      have hdrop := h.drop before.length
      rw [List.drop_left] at hdrop
      exact hdrop.eq_nil_of_feed
    refine hshort hge ?_
    rw [hafter, List.getLast?_concat]

end OneLine

end Text

namespace Position

/-- Where the place is when the lines end in a carriage return and a line feed. -/
def moved (lines : List (List Char)) (p : Position) : Position :=
  ⟨p.line, p.column + (((lines[p.line - 1]?).getD []).take p.column).count '\n'⟩

@[simp] theorem moved_start (line : Nat) : moved lines ⟨line, 0⟩ = ⟨line, 0⟩ :=
  rfl

theorem moved_le_iff {p q : Position} : p.moved lines ≤ q.moved lines ↔ p ≤ q := by
  have hcolumns (text : List Char) (m n : Nat) :
      m + (text.take m).count '\n' ≤ n + (text.take n).count '\n' ↔ m ≤ n := by
    rcases Nat.lt_trichotomy m n with hlt | rfl | hlt
    · have hcount := (List.take_sublist_take_left (l := text) (Nat.le_of_lt hlt)).count_le '\n'
      omega
    · exact iff_of_true (Nat.le_refl _) (Nat.le_refl _)
    · have hcount := (List.take_sublist_take_left (l := text) (Nat.le_of_lt hlt)).count_le '\n'
      omega
  obtain ⟨line, column⟩ := p
  obtain ⟨line', column'⟩ := q
  rw [le_iff, le_iff, moved, moved]
  refine or_congr Iff.rfl (and_congr_right fun hline => ?_)
  obtain rfl : line = line' := hline
  exact hcolumns _ _ _

theorem moved_injective : Function.Injective (moved lines) := by
  intro p q heq
  have hle : p ≤ q := moved_le_iff.mp (by rw [heq]; exact le_refl _)
  have hge : q ≤ p := moved_le_iff.mp (by rw [heq]; exact le_refl _)
  rw [le_iff] at hle hge
  obtain ⟨line, column⟩ := p
  obtain ⟨line', column'⟩ := q
  simp only [mk.injEq]
  simp only at hle hge
  omega

theorem moved_later (p q : Position) :
    (p.later q).moved lines = (p.moved lines).later (q.moved lines) := by
  unfold later
  by_cases h : p ≤ q
  · rw [if_pos h, if_pos (moved_le_iff.mpr h)]
  · rw [if_neg h, if_neg (mt moved_le_iff.mp h)]

end Position

/-! ### What a lexer holds -/

namespace Bracket

def moved (lines : List (List Char)) (b : Bracket) : Bracket :=
  { b with position := b.position.moved lines }

end Bracket

namespace BracketStack

def moved (lines : List (List Char)) (stack : BracketStack) : BracketStack :=
  stack.map (Bracket.moved lines)

variable (stack : BracketStack)

@[simp] theorem moved_isEmpty : (stack.moved lines).isEmpty = stack.isEmpty := by
  cases stack <;> rfl

@[simp] theorem moved_inCommand : (stack.moved lines).inCommand = stack.inCommand := by
  cases stack <;> rfl

@[simp] theorem moved_realm : (stack.moved lines).realm = stack.realm := by
  cases stack <;> rfl

@[simp] theorem moved_depth : (stack.moved lines).depth = stack.depth :=
  List.length_map _

end BracketStack

namespace LexMode

/-- The literal where lines end in a carriage return and a line feed. -/
def returned (lines : List (List Char)) : LexMode → LexMode
  | .string quote text start line =>
    .string quote (Text.returned text) (start.moved lines) (Text.returned line)
  | .fstringText quote text start => .fstringText quote (Text.returned text) (start.moved lines)
  | .fstringField depth => .fstringField depth
  | .fstringSpec text start => .fstringSpec (Text.returned text) (start.moved lines)

/-- The quote of the literal is a visible character. -/
def Printed : LexMode → Prop
  | .string quote _ _ _ | .fstringText quote _ _ => quote.Printed
  | .fstringField _ | .fstringSpec _ _ => True

end LexMode

namespace Token

/-- The kinds of tokens in whose text a line end may stand. -/
def MayHoldFeed (kind : TokenKind) : Bool :=
  [.string, .fstringMiddle, .newline, .nl, .macroParam].contains kind

/-- The same token of a line that ends in a line feed, and of one that has a return in front of
it. -/
structure Twin (lines : List (List Char)) (t t' : Token) : Prop where
  kind : t'.kind = t.kind
  start : t'.start = t.start.moved lines
  /-- A line end that is missing ends nowhere. -/
  stop : t.kind.isLayout = false → t'.stop = t.stop.moved lines
  line : t'.line = returned t.line
  /-- Line ends differ, except those of blank lines in a raw block. -/
  text : Reended false t.text.toList t'.text.toList
  plain : MayHoldFeed t.kind = false → '\n' ∉ t.text.toList
  literal : t.kind = .string ∨ t.kind = .fstringMiddle → t'.text = returned t.text
  /-- What may be spelled as a sign stands in front of the line end. -/
  sign : t.kind = .op ∨ t.kind = .name ∨ t.kind = .word →
    OneLine t.line.toList ∧ t.stop.line = t.start.line ∧ '\n' ∉ t.line.toList.take t.stop.column ∧
      t'.stop.column = t.stop.column

theorem Twin.text_eq {t t' : Token} (h : Twin lines t t') (hkind : MayHoldFeed t.kind = false) :
    t'.text = t.text :=
  String.toList_inj.mp (h.text.eq_of_no_feed (h.plain hkind))

theorem Twin.touches_eq {t t' before before' : Token} (h : Twin lines t t')
    (hbefore : Twin lines before before') (hlayout : before.kind.isLayout = false) :
    t'.touches before' = t.touches before := by
  unfold touches
  rw [hbefore.stop hlayout, h.start, Bool.eq_iff_iff, beq_iff_eq, beq_iff_eq,
    Position.moved_injective.eq_iff]

/-- Twins in whose texts line ends may stand. -/
theorem Twin.of_feeds {t t' : Token} (hfeeds : MayHoldFeed t.kind = true) (kind : t'.kind = t.kind)
    (start : t'.start = t.start.moved lines)
    (stop : t.kind.isLayout = false → t'.stop = t.stop.moved lines) (line : t'.line = returned t.line)
    (text : Reended false t.text.toList t'.text.toList)
    (literal : t.kind = .string ∨ t.kind = .fstringMiddle → t'.text = returned t.text) :
    Twin lines t t' where
  kind := kind
  start := start
  stop := stop
  line := line
  text := text
  plain hplain := absurd (hfeeds.symm.trans hplain) (by decide)
  literal := literal
  sign hsign := by
    rcases hsign with hkind | hkind | hkind <;> rw [hkind] at hfeeds <;>
      exact absurd hfeeds (by decide)

/-- Twins that only shape the program, and have no text. -/
theorem Twin.of_layout {kind : TokenKind} (hlayout : kind.isLayout = true)
    {start start' stop stop' : Position}
    {line line' : String} (hstart : start' = start.moved lines) (hline : line' = returned line) :
    Twin lines ⟨kind, "", start, stop, line⟩ ⟨kind, "", start', stop', line'⟩ where
  kind := rfl
  start := hstart
  stop hother := absurd (hlayout.symm.trans hother) (by decide)
  line := hline
  text := .refl _
  plain _ := List.not_mem_nil
  literal _ := rfl
  sign hsign := by
    rcases hsign with rfl | rfl | rfl <;> exact absurd hlayout (by decide)

end Token

/-- What is remembered of a token, by the place behind it only where that matters. -/
structure PrecedingToken.Twin (lines : List (List Char)) (r r' : PrecedingToken) : Prop where
  isCallable : r'.isCallable = r.isCallable
  isLeadingWith : r'.isLeadingWith = r.isLeadingWith
  stop : r.isCallable = true ∨ r.isLeadingWith = true → r'.stop = r.stop.moved lines

namespace Lexer

/-- A lexer on `lines`, and one on the same lines with returns, at the same place. -/
structure Twins (lines : List (List Char)) (l l' : Lexer) : Prop where
  unread : l.unread = (lines.drop l.lineNumber).map .text
  unread' : l'.unread = (lines.drop l.lineNumber).map fun line => .text (withReturns line)
  rest : l'.rest = withReturns l.rest
  stands : l.rest ≠ [] → OneLine l.lineText.toList ∧ l.rest = l.lineText.toList.drop l.column ∧
    lines[l.lineNumber - 1]? = some l.lineText.toList
  lineText : l'.lineText = returned l.lineText
  here : l'.here = l.here.moved lines
  indents : l'.indents = l.indents
  brackets : l'.brackets = l.brackets.moved lines
  modes : l'.modes = l.modes.map (LexMode.returned lines)
  printed : ∀ mode ∈ l.modes, mode.Printed
  continued : l'.continued = l.continued
  pending : List.Forall₂ (Token.Twin lines) l.pending l'.pending
  lastSignificant : l'.lastSignificant = l.lastSignificant
  tabSize : l'.tabSize = l.tabSize
  finished : l'.finished = l.finished
  recent : Option.Rel (PrecedingToken.Twin lines) l.recent l'.recent
  lineTokens : l'.lineTokens = l.lineTokens
  withHeader : l'.withHeader = l.withHeader

theorem flushText_rest (l : Lexer) (count : Nat) : (l.flushText count).rest = l.rest.drop count := by
  unfold Lexer.flushText
  dsimp only
  split
  · split
    · rfl
    · simp [Lexer.advance]
  · split
    · rfl
    · simp [Lexer.advance]
  · rfl

namespace Twins

variable {l l' : Lexer} {kind : TokenKind} {text text' : String} {start start' stop stop' : Position}
  {count : Nat}

theorem lineNumber (h : Twins lines l l') : l'.lineNumber = l.lineNumber :=
  congrArg Position.line h.here

theorem oneLine (h : Twins lines l l') : OneLine l.rest := by
  by_cases hrest : l.rest = []
  · rw [hrest]
    exact .nil
  · obtain ⟨hline, hstands, _⟩ := h.stands hrest
    rw [hstands]
    exact hline.drop _

theorem sourceEnd (h : Twins lines l l') : l'.sourceEnd = l.sourceEnd.moved lines := by
  rw [Lexer.sourceEnd, h.lineNumber, Lexer.sourceEnd, Position.moved_start]

/-- Where the cursor is behind some more characters. -/
theorem moved_ahead (h : Twins lines l l') (hrest : l.rest ≠ [] ∨ count = 0) :
    (⟨l.lineNumber, l.column + count⟩ : Position).moved lines =
      ⟨l'.lineNumber, l'.column + (count + (l.rest.take count).count '\n')⟩ := by
  have hcolumn : l'.column = (l.here.moved lines).column := congrArg Position.column h.here
  rw [h.lineNumber, hcolumn]
  rcases hrest with hrest | rfl
  · obtain ⟨_, hstands, hline⟩ := h.stands hrest
    simp only [Position.moved, Lexer.here, hline, Option.getD_some, List.take_add, List.count_append,
      ← hstands, Position.mk.injEq, true_and]
    omega
  · simp [Position.moved, Lexer.here]

theorem lineEnd (h : Twins lines l l') : l'.lineEnd = l.lineEnd.moved lines := by
  have hrest : l.rest ≠ [] ∨ l.rest.length = 0 :=
    (em (l.rest = [])).symm.imp_right List.length_eq_zero_iff.mpr
  rw [Lexer.lineEnd, Lexer.lineEnd, h.moved_ahead hrest, List.take_length, h.rest, length_withReturns]

/-! ### Operations -/

theorem advance (h : Twins lines l l') (hrest : l.rest ≠ []) (count : Nat) :
    Twins lines (l.advance count) (l'.advance (count + (l.rest.take count).count '\n')) where
  __ := h
  rest := by
    simp only [Lexer.advance]
    rw [h.rest, (cut_withReturns l.rest count).2]
  stands := fun _ => by
    obtain ⟨hone, hstands, hline⟩ := h.stands hrest
    refine ⟨hone, ?_, hline⟩
    simp only [Lexer.advance]
    rw [← List.drop_drop, ← hstands]
  here := (h.moved_ahead (.inl hrest)).symm

theorem advance_of_no_feed (h : Twins lines l l') (hrest : l.rest ≠ [])
    (hfeed : '\n' ∉ l.rest.take count) : Twins lines (l.advance count) (l'.advance count) := by
  have hahead := h.advance hrest count
  rwa [List.count_eq_zero_of_not_mem hfeed] at hahead

theorem skipLine (h : Twins lines l l') : Twins lines l.skipLine l'.skipLine := by
  by_cases hrest : l.rest = []
  · have hrest' : l'.rest = [] := by rw [h.rest, hrest, withReturns_nil]
    have hstill (l : Lexer) (hrest : l.rest = []) : l.skipLine = l := by
      rw [Lexer.skipLine, hrest]
      rfl
    rw [hstill l hrest, hstill l' hrest']
    exact h
  · have hahead := h.advance hrest l.rest.length
    rwa [List.take_length, ← length_withReturns, ← h.rest] at hahead

theorem push (h : Twins lines l l') {token token' : Token} (htoken : token.Twin lines token') :
    Twins lines (l.push token) (l'.push token') where
  __ := h
  pending := List.rel_append h.pending (.cons htoken .nil)

theorem remember (h : Twins lines l l') (htext : kind = .name → text' = text)
    (hstop : kind = .name → stop' = stop.moved lines) :
    Twins lines (l.remember kind text stop) (l'.remember kind text' stop') := by
  have hcallable : (kind == .name && !Spelling.isKeyword text') =
      (kind == .name && !Spelling.isKeyword text) := by
    by_cases hname : kind = .name
    · rw [htext hname]
    · simp only [beq_false_of_ne hname, Bool.false_and]
  have hleading : (kind == .name && text' == "with" && l'.lineTokens == 0) =
      (kind == .name && text == "with" && l.lineTokens == 0) := by
    by_cases hname : kind = .name
    · rw [htext hname, h.lineTokens]
    · simp only [beq_false_of_ne hname, Bool.false_and]
  unfold Lexer.remember
  rw [hcallable, hleading]
  generalize hr : (⟨stop, _, _⟩ : PrecedingToken) = r
  generalize hr' : (⟨stop', _, _⟩ : PrecedingToken) = r'
  have hrecent : PrecedingToken.Twin lines r r' := by
    subst hr hr'
    refine ⟨rfl, rfl, fun hnamed => hstop ?_⟩
    by_contra hname
    simp [beq_false_of_ne hname] at hnamed
  split
  · exact h
  · cases kind
    all_goals exact { h with
      lastSignificant := rfl
      recent := .some hrecent
      lineTokens := by first | rfl | exact congrArg (· + 1) h.lineTokens | exact h.lineTokens
      withHeader := by first | rfl | exact h.withHeader }

theorem addToken (h : Twins lines l l')
    (htoken : Token.Twin lines ⟨kind, text, start, stop, l.lineText⟩
      ⟨kind, text', start', stop', l'.lineText⟩) :
    Twins lines (l.addToken kind text start stop) (l'.addToken kind text' start' stop') := by
  have hname (hname : kind = .name) : text' = text := htoken.text_eq (by rw [hname]; rfl)
  have hstop (hname : kind = .name) : stop' = stop.moved lines := htoken.stop (by rw [hname]; rfl)
  exact (h.remember hname hstop).push htoken

/-- A token in front of the line end. -/
theorem taken (h : Twins lines l l') (hrest : l.rest ≠ []) (kind : TokenKind)
    (hfeed : '\n' ∉ l.rest.take count) :
    Token.Twin lines
      ⟨kind, String.ofList (l.rest.take count), l.here, (l.advance count).here, l.lineText⟩
      ⟨kind, String.ofList (l'.rest.take count), l'.here, (l'.advance count).here, l'.lineText⟩ := by
  have htext : l'.rest.take count = l.rest.take count := by
    rw [h.rest, (take_withReturns hfeed).1]
  have hbehind := h.advance_of_no_feed hrest hfeed
  rw [htext]
  refine ⟨rfl, h.here, fun _ => hbehind.here, h.lineText, .refl _, ?_, ?_, fun _ => ?_⟩
  · exact fun _ => by rwa [String.toList_ofList]
  · exact fun _ => by rw [returned_ofList, withReturns_of_no_feed hfeed]
  · obtain ⟨hone, hstands, hline⟩ := h.stands hrest
    have hbefore : '\n' ∉ l.lineText.toList.take l.column := by
      refine hone.feed_not_mem_take (Nat.lt_of_not_le fun hle => hrest ?_)
      rw [hstands, List.drop_of_length_le hle]
    have htaken : '\n' ∉ l.lineText.toList.take (l.column + count) := by
      rw [List.take_add, ← hstands, List.mem_append, not_or]
      exact ⟨hbefore, hfeed⟩
    refine ⟨hone, rfl, htaken, ?_⟩
    have hcolumn : (l'.advance count).here.column =
        ((l.advance count).here.moved lines).column := congrArg Position.column hbehind.here
    have hmoved : ((l.advance count).here.moved lines).column = l.column + count := by
      simp only [Position.moved, Lexer.here, Lexer.advance, hline, Option.getD_some,
        List.count_eq_zero_of_not_mem htaken, Nat.add_zero]
    exact hcolumn.trans hmoved

/-- Characters as a token, given that the tokens are twins. -/
theorem take_of_twin (h : Twins lines l l') (hrest : l.rest ≠ []) {count' : Nat}
    (hcount : count' = count + (l.rest.take count).count '\n')
    (htwin : Token.Twin lines
      ⟨kind, String.ofList (l.rest.take count), l.here, (l.advance count).here, l.lineText⟩
      ⟨kind, String.ofList (l'.rest.take count'), l'.here, (l'.advance count').here, l'.lineText⟩) :
    Twins lines (l.take kind count) (l'.take kind count') := by
  have hbehind := h.advance hrest count
  rw [← hcount] at hbehind
  refine { h.addToken htwin with rest := hbehind.rest, stands := fun hleft => ?_, here := ?_ }
  · have hstands := hbehind.stands hleft
    simpa [Lexer.advance] using hstands
  · have hhere := hbehind.here
    simpa [Lexer.here, Lexer.advance] using hhere

theorem take (h : Twins lines l l') (hrest : l.rest ≠ []) (kind : TokenKind)
    (hshort : l.StopsShort count) : Twins lines (l.take kind count) (l'.take kind count) := by
  have hfeed := h.oneLine.feed_not_mem_of_short hshort
  refine h.take_of_twin hrest ?_ (h.taken hrest kind hfeed)
  rw [List.count_eq_zero_of_not_mem hfeed, Nat.add_zero]

theorem takeWhile (h : Twins lines l l') (hrest : l.rest ≠ []) (kind : TokenKind) {p : Char → Bool}
    (hfeed : p '\n' = false) (hreturn : p '\r' = false) :
    Twins lines (l.takeWhile kind p) (l'.takeWhile kind p) := by
  rw [Lexer.takeWhile, Lexer.takeWhile, h.rest, takeWhile_withReturns hfeed hreturn]
  exact h.take hrest kind (stopsShort_of_take (Lexeme.not_feed_takeWhile hfeed))

/-- The line end as a token. -/
theorem takeLineEnd (h : Twins lines l l') (hrest : l.rest = ['\n'])
    (hkind : kind = .newline ∨ kind = .nl) : Twins lines (l.takeRest kind) (l'.takeRest kind) := by
  have hne : l.rest ≠ [] := by
    rw [hrest]
    exact List.cons_ne_nil _ _
  have hrest' : l'.rest = ['\r', '\n'] := by
    rw [h.rest, hrest]
    rfl
  have hbehind := h.advance hne 1
  rw [hrest] at hbehind
  rw [Lexer.takeRest, Lexer.takeRest, hrest, hrest']
  refine h.take_of_twin hne (by rw [hrest]; rfl) ?_
  rw [hrest, hrest']
  have hfeeds : Token.MayHoldFeed kind = true := by
    rcases hkind with rfl | rfl
    · rfl
    · rfl
  refine .of_feeds hfeeds rfl h.here (fun _ => hbehind.here) h.lineText ?_ fun hliteral => ?_
  · rw [String.toList_ofList, String.toList_ofList]
    exact .lineEnd .nil
  · rcases hkind with rfl | rfl
    · simp at hliteral
    · simp at hliteral

/-- The line end of the last line, which may be missing. -/
theorem takeNothing (h : Twins lines l l') (hrest : l.rest = []) :
    Twins lines (l.takeRest .nl) (l'.takeRest .nl) := by
  have hrest' : l'.rest = [] := by rw [h.rest, hrest, withReturns_nil]
  have hempty : Token.Twin lines ⟨.nl, "", l.here, l.here, l.lineText⟩
      ⟨.nl, "", l'.here, l'.here, l'.lineText⟩ :=
    .of_feeds rfl rfl h.here (fun _ => h.here) h.lineText (.refl _) (by simp)
  have hadded := h.addToken hempty
  rw [Lexer.takeRest, Lexer.takeRest, hrest, hrest', Lexer.take, Lexer.take, hrest, hrest']
  exact { hadded with
    rest := by simp [Lexer.advance, hrest, hrest']
    stands := fun hne => absurd hrest hne
    here := h.here }

theorem pushMode (h : Twins lines l l') (mode : LexMode) (hprinted : mode.Printed) :
    Twins lines (l.pushMode mode) (l'.pushMode (mode.returned lines)) where
  __ := h
  modes := congrArg (mode.returned lines :: ·) h.modes
  printed := List.forall_mem_cons.mpr ⟨hprinted, h.printed⟩

theorem pushBracket (h : Twins lines l l') (bracket : Bracket) :
    Twins lines (l.pushBracket bracket) (l'.pushBracket (bracket.moved lines)) where
  __ := h
  brackets := congrArg (bracket.moved lines :: ·) h.brackets

/-- The literal text up to the cursor as a token, unless it is empty. -/
theorem flushed (h : Twins lines l l') (hrest : l.rest ≠ []) (hfeed : '\n' ∉ l.rest.take count)
    (modes : List LexMode) (hprinted : ∀ mode ∈ modes, mode.Printed) :
    Twins lines (l.flushed count text start modes)
      (l'.flushed count (returned text) (start.moved lines) (modes.map (.returned lines))) := by
  have hbehind := h.advance_of_no_feed hrest hfeed
  have hahead : Twins lines { l.advance count with modes }
      { l'.advance count with modes := modes.map (.returned lines) } :=
    { hbehind with modes := rfl, printed := hprinted }
  unfold Lexer.flushed
  rw [returned_isEmpty]
  split
  · exact hahead
  · refine hahead.addToken (.of_feeds rfl rfl rfl (fun _ => hbehind.here) h.lineText ?_ fun _ => rfl)
    rw [toList_returned]
    exact .withReturns _

theorem flushText (h : Twins lines l l') (hrest : l.rest ≠ []) (hfeed : '\n' ∉ l.rest.take count) :
    Twins lines (l.flushText count) (l'.flushText count) := by
  have htaken : String.ofList (l'.rest.take count) =
      returned (String.ofList (l.rest.take count)) := by
    rw [h.rest, (take_withReturns hfeed).1, returned_ofList, withReturns_of_no_feed hfeed]
  have hmodes' := h.modes
  have hprinted := h.printed
  cases hmodes : l.modes with
  | nil =>
    rw [hmodes] at hmodes'
    simp only [Lexer.flushText, hmodes, hmodes', List.map_nil, Lexer.addText]
    exact h.advance_of_no_feed hrest hfeed
  | cons mode outer =>
    rw [hmodes] at hmodes' hprinted
    obtain ⟨hmode, houter⟩ := List.forall_mem_cons.mp hprinted
    cases mode with
    | string | fstringField =>
      simp only [Lexer.flushText, hmodes, hmodes', List.map_cons, LexMode.returned, Lexer.addText]
      exact h.advance_of_no_feed hrest hfeed
    | fstringText quote text start =>
      rw [flushText_of_text hmodes, flushText_of_text hmodes', htaken, ← returned_append]
      exact h.flushed hrest hfeed (.fstringText quote "" start :: outer)
        (List.forall_mem_cons.mpr ⟨hmode, houter⟩)
    | fstringSpec text start =>
      rw [flushText_of_spec hmodes, flushText_of_spec hmodes', htaken, ← returned_append]
      exact h.flushed hrest hfeed (.fstringSpec "" start :: outer)
        (List.forall_mem_cons.mpr ⟨hmode, houter⟩)

theorem openField (h : Twins lines l l') (hbrace : (l.rest.drop count).head? = some '\x7b') :
    Twins lines (l.openField count) (l'.openField count) := by
  have hlength : count < l.rest.length := by
    by_contra hle
    rw [List.drop_of_length_le (Nat.le_of_not_lt hle)] at hbrace
    cases hbrace
  have hrest : l.rest ≠ [] := List.ne_nil_of_length_pos (Nat.zero_lt_of_lt hlength)
  have hflushed := h.flushText hrest (h.oneLine.feed_not_mem_take hlength)
  have hhead : (l.flushText count).rest.head? = some '\x7b' := by
    rw [flushText_rest, hbrace]
  have hne : (l.flushText count).rest ≠ [] := by
    intro hnil
    rw [hnil] at hhead
    cases hhead
  have hshort : (l.flushText count).StopsShort 1 := by
    refine stopsShort_of_getElem? (c := '\x7b') ?_ (by decide)
    rwa [List.head?_eq_getElem?] at hhead
  have hopened := (hflushed.take hne .op hshort).pushBracket
    ⟨.brace, .host, (l.flushText count).here⟩
  rw [Bracket.moved, ← hflushed.here] at hopened
  have hdepth := congrArg BracketStack.depth hopened.brackets
  rw [BracketStack.moved_depth] at hdepth
  rw [Lexer.openField, Lexer.openField, hdepth]
  exact hopened.pushMode (.fstringField _) trivial

theorem dedents {α : Type} (h : Twins lines l l') (place place' : Lexer → Position)
    (hplace : ∀ l l', Twins lines l l' → place' l' = (place l).moved lines) (left : List α) :
    Twins lines (left.foldl (fun l _ => l.addToken .dedent "" (place l) (place l)) l)
      (left.foldl (fun l _ => l.addToken .dedent "" (place' l) (place' l)) l') := by
  induction left generalizing l l' with
  | nil => exact h
  | cons _ left induction =>
    exact induction (h.addToken (.of_layout rfl (hplace l l' h) h.lineText))

theorem leaveBlocks (h : Twins lines l l') (width : Nat) :
    Twins lines (l.leaveBlocks width) (l'.leaveBlocks width) := by
  have hleft : Twins lines { l with indents := l.indents.dropWhile (width < ·) }
      { l' with indents := l'.indents.dropWhile (width < ·) } :=
    { h with indents := congrArg (List.dropWhile (width < ·)) h.indents }
  have hdone := hleft.dedents (fun _ => l.here) (fun _ => l'.here)
    (fun _ _ _ => h.here) (l.indents.takeWhile (width < ·))
  rw [Lexer.leaveBlocks, Lexer.leaveBlocks, h.indents]
  rw [h.indents] at hdone
  exact hdone

theorem close (h : Twins lines l l') (hrest : l.rest = []) : Twins lines l.close l'.close := by
  have hneeds : l'.needsNewline = l.needsNewline := by
    rw [Lexer.needsNewline, Lexer.needsNewline, h.lastSignificant]
  have hended : Twins lines
      (if l.needsNewline then
        l.addToken .newline "" l.lineEnd ⟨l.lineEnd.line, l.lineEnd.column + 1⟩
      else l)
      (if l'.needsNewline then
        l'.addToken .newline "" l'.lineEnd ⟨l'.lineEnd.line, l'.lineEnd.column + 1⟩
      else l') := by
    rw [hneeds]
    split
    · exact h.addToken (.of_layout rfl h.lineEnd h.lineText)
    · exact h
  have hrest : (if l.needsNewline then
        l.addToken .newline "" l.lineEnd ⟨l.lineEnd.line, l.lineEnd.column + 1⟩
      else l).rest = [] := by
    split
    · rw [(addToken_frame ..).2.1, hrest]
    · exact hrest
  simp only [Lexer.close]
  generalize (if l.needsNewline then _ else l) = m at hended hrest ⊢
  generalize (if l'.needsNewline then _ else l') = m' at hended ⊢
  have hleft := hended.dedents Lexer.sourceEnd Lexer.sourceEnd
    (fun _ _ h => h.sourceEnd) m.indents.dropLast
  have hrest' := (dedents_frame m Lexer.sourceEnd (by simp [Lexer.sourceEnd]) m.indents.dropLast).2.1
  rw [hended.indents]
  generalize m.indents.dropLast.foldl _ m = n at hleft hrest' ⊢
  generalize m.indents.dropLast.foldl _ m' = n' at hleft ⊢
  have hbare : Twins lines
      { n with indents := n.indents.drop (n.indents.length - 1), lineText := "" }
      { n' with indents := n'.indents.drop (n'.indents.length - 1), lineText := "" } :=
    { hleft with
      stands := fun hne => absurd (hrest'.trans hrest) hne
      lineText := rfl
      indents := by simp only [hleft.indents] }
  have hend : Token.Twin lines ⟨.endMarker, "", n.sourceEnd, n.sourceEnd, ""⟩
      ⟨.endMarker, "", n'.sourceEnd, n'.sourceEnd, ""⟩ := .of_layout rfl hleft.sourceEnd rfl
  have hmarked := hbare.addToken hend
  exact { hmarked with finished := rfl }

theorem measure (h : Twins lines l l') (text text' : List Char) :
    Twins lines (l.measure text) (l'.measure text') where
  __ := h

theorem nextLine (h : Twins lines l l') {line : List Char} {more : List (List Char)}
    (hone : OneLine line) (hahead : lines.drop l.lineNumber = line :: more) :
    Twins lines (l.nextLine line (more.map .text))
      (l'.nextLine (withReturns line) (more.map fun line => .text (withReturns line))) := by
  have hmore : lines.drop (l.lineNumber + 1) = more := by
    rw [← List.drop_drop, hahead]
    rfl
  have hline : lines[l.lineNumber]? = some line := by
    rw [← List.head?_drop, hahead]
    rfl
  refine { h with
    unread := congrArg (List.map SourceLine.text) hmore.symm
    unread' := congrArg (List.map fun line => SourceLine.text (withReturns line)) hmore.symm
    rest := rfl
    stands := fun _ => ⟨?_, ?_, ?_⟩
    lineText := (returned_ofList line).symm
    here := congrArg (Position.mk · 0) (congrArg (· + 1) h.lineNumber) }
  · change OneLine (String.ofList line).toList
    rwa [String.toList_ofList]
  · change line = (String.ofList line).toList.drop 0
    rw [String.toList_ofList, List.drop_zero]
  · change lines[l.lineNumber]? = some (String.ofList line).toList
    rw [String.toList_ofList, hline]

/-- Both sources have ended, or both go on with the same line. -/
theorem ahead (h : Twins lines l l') :
    lines.drop l.lineNumber = [] ∧ l.unread = [] ∧ l'.unread = [] ∨
      ∃ line more, lines.drop l.lineNumber = line :: more ∧
        l.unread = .text line :: more.map .text ∧
        l'.unread = .text (withReturns line) :: more.map fun line => .text (withReturns line) := by
  rw [h.unread, h.unread']
  cases hdrop : lines.drop l.lineNumber with
  | nil => exact .inl ⟨rfl, rfl, rfl⟩
  | cons line more => exact .inr ⟨line, more, rfl, rfl, rfl⟩

end Twins

end Lexer

end ShellSyntax
