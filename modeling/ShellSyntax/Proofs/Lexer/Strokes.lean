import Mathlib.Logic.Relation
import ShellSyntax.Proofs.Lexer.Blocks

/-!
What the lexer does inside a step, stroke by stroke, whether the step succeeds or fails. What every
stroke keeps holds of every state that the lexer leaves, the states behind failures among them.
-/

namespace ShellSyntax.Lexer

open Outcome
open Relation (ReflTransGen)

/-! ### Strokes -/

/-- `m` stands where `l` stands, in the same literals and with the same tokens found. -/
structure SamePlace (l m : Lexer) : Prop where
  unread : m.unread = l.unread
  rest : m.rest = l.rest
  lineText : m.lineText = l.lineText
  lineNumber : m.lineNumber = l.lineNumber
  column : m.column = l.column
  modes : m.modes = l.modes
  pending : m.pending = l.pending
  tabSize : m.tabSize = l.tabSize
  finished : m.finished = l.finished
  bound : m.bound = l.bound
  overflowed : m.overflowed = l.overflowed

/-- A line has been entered: it is not over, or there are tokens of it. -/
def Begun (l : Lexer) : Prop :=
  l.rest ≠ [] ∨ l.pending ≠ []

/-- A plain string in `modes` is one of `l`, or starts at the cursor of `l`. -/
def StringsFrom (l : Lexer) (modes : List LexMode) : Prop :=
  ∀ quote text start line, LexMode.string quote text start line ∈ modes →
    (∃ quote text, LexMode.string quote text start line ∈ l.modes) ∨
      start = l.here ∧ line = l.lineText ∧ l.rest ≠ []

/-- The smallest pieces of the work on a lexer and on the raw text that it captures. -/
inductive Stroke : Lexer × RawText → Lexer × RawText → Prop
  | read {l : Lexer} {raw : RawText} (count : Nat) (hcount : count ≤ l.rest.length) :
      Stroke (l, raw) (l.advance count, raw)
  /-- The next character is captured. -/
  | capture {l : Lexer} {raw : RawText} {c : Char} {rest : List Char} (hrest : l.rest = c :: rest) :
      Stroke (l, raw) (l.advance 1, raw.push c l.here l.lineText)
  /-- Raw text starts at the cursor. -/
  | fresh {l : Lexer} {raw : RawText} : Stroke (l, raw) (l, .empty l.here)
  | line {l : Lexer} {raw : RawText} {text : List Char} {unread : Source}
      (hunread : l.unread = .text text :: unread) : Stroke (l, raw) (l.nextLine text unread, raw)
  /-- A line that is no text is given up. -/
  | broken {l : Lexer} {raw : RawText} {unread : Source}
      (hunread : l.unread = .undecodable :: unread) : Stroke (l, raw) ({ l with unread }, raw)
  /-- The indentation of the current line is measured, or that of a line to come. -/
  | measure {l : Lexer} {raw : RawText} {text : List Char}
      (htext : .text text ∈ l.unread ∨ l.lineText = String.ofList text) :
      Stroke (l, raw) (l.measure text, raw)
  /-- The rest of a captured line is dropped. -/
  | drop {l : Lexer} {raw : RawText} : Stroke (l, raw) ({ l with rest := [], column := 0 }, raw)
  | note {l m : Lexer} {raw : RawText} (hsame : SamePlace l m)
      (hlast : m.lastSignificant = l.lastSignificant ∨ l.Begun) : Stroke (l, raw) (m, raw)
  | modes {l : Lexer} {raw : RawText} {modes : List LexMode} (hstrings : l.StringsFrom modes) :
      Stroke (l, raw) ({ l with modes }, raw)
  /-- A token is found that starts on the current line. -/
  | token {l : Lexer} {raw : RawText} {kind : TokenKind} {text : String} {start stop : Position}
      (hbegun : l.Begun) (hstart : start.line = l.lineNumber) :
      Stroke (l, raw) (l.push ⟨kind, text, start, stop, l.lineText⟩, raw)
  /-- A piece of text is found that ends on the current line. -/
  | piece {l : Lexer} {raw : RawText} {kind : TokenKind} {text : String} {start stop : Position}
      (hkind : kind = .fstringMiddle ∨ kind = .macroParam) (hbegun : l.Begun)
      (hstop : stop.line = l.lineNumber) :
      Stroke (l, raw) (l.push ⟨kind, text, start, stop, l.lineText⟩, raw)
  /-- The end of a string is found that started on an earlier line. -/
  | string {l : Lexer} {raw : RawText} {quote : Quote} {text more line : String}
      {start stop : Position} (hmode : .string quote text start line ∈ l.modes)
      (hrest : l.rest ≠ []) :
      Stroke (l, raw) (l.push ⟨.string, more, start, stop, line⟩, raw)
  | captured {l : Lexer} {raw : RawText} (hrest : l.rest ≠ []) :
      Stroke (l, raw) (l.push (raw.toToken l.lineText), raw)

/-- From `l` on, with `raw` captured, `step` makes strokes up to where it ends or fails; where it
ends, `keeps` holds of what it yields and of what is captured then. -/
def Strikes {α : Type} (l : Lexer) (raw : RawText) (step : Lex α) (keeps : α → RawText → Prop) :
    Prop :=
  match step l with
  | .ok a m => ∃ raw', keeps a raw' ∧ ReflTransGen Stroke (l, raw) (m, raw')
  | .error _ m => ∃ raw', ReflTransGen Stroke (l, raw) (m, raw')

/-- What a capture yields is what is captured. -/
def Yields (found captured : RawText) : Prop :=
  found = captured

/-- Nothing is said of what is captured in the end. -/
def Anything {α : Type} (_ : α) (_ : RawText) : Prop :=
  True

namespace Strikes

variable {α β : Type} {l : Lexer} {raw : RawText} {keeps : α → RawText → Prop}
  {after : β → RawText → Prop}

theorem pure {a : α} (hkeeps : keeps a raw) : Strikes l raw (pure a) keeps :=
  ⟨raw, hkeeps, .refl⟩

theorem throw (e : LexError) : Strikes l raw (throw e : Lex α) keeps :=
  ⟨raw, .refl⟩

theorem set {next : Lexer} {keeps : PUnit → RawText → Prop}
    (hnext : ReflTransGen Stroke (l, raw) (next, raw)) (hkeeps : keeps ⟨⟩ raw) :
    Strikes l raw (set next) keeps :=
  ⟨raw, hkeeps, hnext⟩

theorem modify {f : Lexer → Lexer} {keeps : PUnit → RawText → Prop}
    (hf : ReflTransGen Stroke (l, raw) (f l, raw)) (hkeeps : keeps ⟨⟩ raw) :
    Strikes l raw (modify f) keeps :=
  ⟨raw, hkeeps, hf⟩

theorem getBind {f : Lexer → Lex β} (next : Strikes l raw (f l) after) :
    Strikes l raw (get >>= f) after :=
  next

theorem prepend {m : Lexer} {raw₁ : RawText} {step : Lex α} {step' : Lex α}
    (first : ReflTransGen Stroke (l, raw) (m, raw₁)) (next : Strikes m raw₁ step keeps)
    (hsame : step' l = step m) : Strikes l raw step' keeps := by
  rw [Strikes, hsame]
  rw [Strikes] at next
  cases hstep : step m with
  | ok a n =>
    rw [hstep] at next
    obtain ⟨raw', hkeeps, strokes⟩ := next
    exact ⟨raw', hkeeps, first.trans strokes⟩
  | error e n =>
    rw [hstep] at next
    obtain ⟨raw', strokes⟩ := next
    exact ⟨raw', first.trans strokes⟩

theorem setBind {m : Lexer} {raw₁ : RawText} {f : PUnit → Lex β}
    (hm : ReflTransGen Stroke (l, raw) (m, raw₁)) (next : Strikes m raw₁ (f ⟨⟩) after) :
    Strikes l raw (MonadStateOf.set m >>= f) after :=
  prepend hm next rfl

theorem modifyBind {g : Lexer → Lexer} {f : PUnit → Lex β}
    (hg : ReflTransGen Stroke (l, raw) (g l, raw)) (next : Strikes (g l) raw (f ⟨⟩) after) :
    Strikes l raw (MonadState.modifyGet (fun l => (PUnit.unit, g l)) >>= f) after :=
  prepend hg next rfl

theorem ite {p : Prop} [Decidable p] {yes no : Lex α} (hyes : Strikes l raw yes keeps)
    (hno : Strikes l raw no keeps) : Strikes l raw (if p then yes else no) keeps := by
  split
  · exact hyes
  · exact hno

theorem bindFrom {first : Lex α} {f : α → Lex β} (hfirst : Strikes l raw first keeps)
    (next : ∀ a m raw', keeps a raw' → ReflTransGen Stroke (l, raw) (m, raw') →
      Strikes m raw' (f a) after) :
    Strikes l raw (first >>= f) after := by
  rw [Strikes] at hfirst
  cases hrun : first l with
  | ok a m =>
    rw [hrun] at hfirst
    obtain ⟨raw', hkeeps, strokes⟩ := hfirst
    refine prepend strokes (next a m raw' hkeeps strokes) ?_
    rw [run_bind, hrun]
  | error e m =>
    rw [hrun] at hfirst
    rw [Strikes, run_bind, hrun]
    exact hfirst

theorem bind {first : Lex α} {f : α → Lex β} (hfirst : Strikes l raw first keeps)
    (next : ∀ a m raw', keeps a raw' → Strikes m raw' (f a) after) :
    Strikes l raw (first >>= f) after :=
  bindFrom hfirst fun a m raw' hkeeps _ => next a m raw' hkeeps

theorem final {step : Lex α} (strikes : Strikes l raw step keeps) :
    ∃ raw', ReflTransGen Stroke (l, raw) (Outcome.final (step l), raw') := by
  rw [Strikes] at strikes
  cases hstep : step l with
  | ok a m =>
    rw [hstep] at strikes
    obtain ⟨raw', _, strokes⟩ := strikes
    exact ⟨raw', strokes⟩
  | error e m =>
    rw [hstep] at strikes
    exact strikes

end Strikes

/-! ### Small operations -/

section Operations

variable {l : Lexer} {raw : RawText}

theorem strokes_addToken {kind : TokenKind} {text : String} {start : Position} (stop : Position)
    (hbegun : l.Begun) (hstart : start.line = l.lineNumber) :
    ReflTransGen Stroke (l, raw) (l.addToken kind text start stop, raw) := by
  have found : Stroke (l, raw) (l.push ⟨kind, text, start, stop, l.lineText⟩, raw) :=
    .token hbegun hstart
  refine (ReflTransGen.single found).tail (.note ?_ (.inr (.inr (by simp [push]))))
  constructor <;> simp [push]

theorem strokes_addPiece {kind : TokenKind} {text : String} {stop : Position} (start : Position)
    (hkind : kind = .fstringMiddle ∨ kind = .macroParam) (hbegun : l.Begun)
    (hstop : stop.line = l.lineNumber) :
    ReflTransGen Stroke (l, raw) (l.addToken kind text start stop, raw) := by
  have found : Stroke (l, raw) (l.push ⟨kind, text, start, stop, l.lineText⟩, raw) :=
    .piece hkind hbegun hstop
  refine (ReflTransGen.single found).tail (.note ?_ (.inr (.inr (by simp [push]))))
  constructor <;> simp [push]

theorem strokes_take {kind : TokenKind} {count : Nat} (hbegun : l.Begun)
    (hcount : count ≤ l.rest.length) :
    ReflTransGen Stroke (l, raw) (l.take kind count, raw) := by
  have found : ReflTransGen Stroke (l, raw) (l.addToken kind (String.ofList (l.rest.take count))
      l.here ⟨l.lineNumber, l.column + count⟩, raw) := strokes_addToken _ hbegun rfl
  refine (found.tail (.read count (by simpa using hcount))).tail (.note ?_ (.inl ?_))
  · constructor <;> simp [advance]
  · rfl

theorem begun_of_rest {c : Char} {rest : List Char} (hrest : l.rest = c :: rest) : l.Begun :=
  .inl (by simp [hrest])

theorem begun_take (l : Lexer) (kind : TokenKind) (count : Nat) : (l.take kind count).Begun :=
  .inr (by simp)

theorem strokes_skipLine : ReflTransGen Stroke (l, raw) (l.skipLine, raw) :=
  .single (.read _ (Nat.le_refl _))

theorem strokes_brackets (brackets : BracketStack) :
    ReflTransGen Stroke (l, raw) ({ l with brackets }, raw) :=
  .single (.note ⟨rfl, rfl, rfl, rfl, rfl, rfl, rfl, rfl, rfl, rfl, rfl⟩ (.inl rfl))

theorem stringsFrom_cons {mode : LexMode} {outer : List LexMode}
    (hmode : ∀ quote text start line, mode ≠ .string quote text start line)
    (houter : l.StringsFrom outer) : l.StringsFrom (mode :: outer) := by
  intro quote text start line hmem
  obtain heq | hmem := List.mem_cons.mp hmem
  · exact absurd heq.symm (hmode quote text start line)
  · exact houter quote text start line hmem

theorem stringsFrom_of_subset {modes : List LexMode} (hsubset : modes ⊆ l.modes) :
    l.StringsFrom modes :=
  fun quote text _ _ hmem => .inl ⟨quote, text, hsubset hmem⟩

end Operations

/-! ### Lines and brackets -/

theorem enterNextLine_strikes (l : Lexer) (raw : RawText) :
    Strikes l raw enterNextLine fun _ captured => captured = raw := by
  obtain ⟨_, htake⟩ | ⟨text, unread, hunread, htake⟩ | ⟨unread, hunread, htake⟩ :=
    takeLine_cases l
  · rw [Strikes, enterNextLine, run_bind, htake]
    exact ⟨raw, rfl, .refl⟩
  · rw [Strikes, enterNextLine, run_bind, htake]
    exact ⟨raw, rfl, .single (.line hunread)⟩
  · rw [Strikes, enterNextLine, run_bind, htake]
    exact ⟨raw, .single (.broken hunread)⟩

theorem closeBracket_strikes (l : Lexer) (raw : RawText) (closer : Char) :
    Strikes l raw (closeBracket closer) fun _ captured => captured = raw := by
  apply Strikes.getBind
  split
  · exact .set (strokes_brackets _) rfl
  · exact .throw _

/-- A closer either closes the innermost bracket and changes nothing else, or fails. -/
theorem Strikes.closeBracketBind {β : Type} {l : Lexer} {raw : RawText} {closer : Char}
    {f : PUnit → Lex β} {after : β → RawText → Prop}
    (next : ∀ brackets, Strikes { l with brackets } raw (f ⟨⟩) after) :
    Strikes l raw (closeBracket closer >>= f) after := by
  cases hclose : closeBracket closer l with
  | ok _ m =>
    obtain ⟨_, brackets, _, _, rfl⟩ := closeBracket_ok.mp hclose
    refine .prepend (strokes_brackets brackets) (next brackets) ?_
    rw [run_bind, hclose]
  | error e m =>
    have strikes := closeBracket_strikes l raw closer
    rw [Strikes, hclose] at strikes
    rw [Strikes, run_bind, hclose]
    exact strikes

/-! ### Raw text -/

theorem captureChar_strikes (l : Lexer) (raw : RawText) :
    Strikes l raw (captureChar raw) Yields := by
  apply Strikes.getBind
  split
  case h_1 => exact .pure rfl
  case h_2 c rest hrest => exact .setBind (.single (.capture hrest)) (.pure rfl)

theorem captureChars_strikes (l : Lexer) (raw : RawText) (count : Nat) :
    Strikes l raw (captureChars count raw) Yields := by
  induction count generalizing l raw with
  | zero => exact .pure rfl
  | succ count induction =>
    apply Strikes.bind (captureChar_strikes l raw)
    rintro _ m raw₁ rfl
    exact induction m _

theorem captureQuoted_strikes (l : Lexer) (raw : RawText) (quote : Quote) (start : Position)
    (fuel : Nat) : Strikes l raw (captureQuoted quote start fuel raw) Yields := by
  induction fuel generalizing l raw with
  | zero => exact .pure rfl
  | succ fuel induction =>
    apply Strikes.getBind
    split
    case h_1 =>
      split
      · exact .throw _
      · apply Strikes.bind (enterNextLine_strikes l raw)
        rintro entered m _ rfl
        split
        · exact .throw _
        · exact induction m _
    case h_2 =>
      split
      · apply Strikes.bind (captureChars_strikes l raw 2)
        rintro _ m raw₁ rfl
        exact induction m _
      · split
        · exact captureChars_strikes l raw quote.size
        · split
          · exact .throw _
          · apply Strikes.bind (captureChar_strikes l raw)
            rintro _ m raw₁ rfl
            exact induction m _

theorem captureString_strikes (l : Lexer) (raw : RawText) (quote : Quote) :
    Strikes l raw (captureString quote raw) Yields := by
  apply Strikes.getBind
  apply Strikes.bind (captureChars_strikes l raw quote.size)
  rintro _ m raw₁ rfl
  exact captureQuoted_strikes m _ quote _ _

theorem followBracket_strikes (l : Lexer) (raw : RawText) (c : Char) :
    Strikes l raw (followBracket c) fun _ captured => captured = raw := by
  apply Strikes.getBind
  split
  · exact .set (strokes_brackets _) rfl
  · split
    · exact closeBracket_strikes l raw c
    · exact .pure rfl

theorem captureNext_strikes (l : Lexer) (raw : RawText) :
    Strikes l raw (captureNext raw) Yields := by
  apply Strikes.getBind
  split
  · exact captureString_strikes l raw _
  · split
    · apply Strikes.bind (followBracket_strikes l raw _)
      rintro _ m _ rfl
      exact captureChar_strikes m _
    · exact captureChar_strikes l raw

theorem strokes_pushCaptured (hrest : l.rest ≠ []) :
    ReflTransGen Stroke (l, raw) (l.pushCaptured raw, raw) := by
  unfold pushCaptured
  split
  · exact .refl
  · exact .single (.captured hrest)

theorem captureArguments_strikes (l : Lexer) (raw : RawText) (base fuel : Nat) :
    Strikes l raw (captureArguments base fuel raw) Anything := by
  induction fuel generalizing l raw with
  | zero => exact .pure trivial
  | succ fuel induction =>
    apply Strikes.getBind
    split
    case h_1 =>
      apply Strikes.bind (enterNextLine_strikes l raw)
      rintro entered m _ rfl
      split
      · exact induction m _
      · exact .throw _
    case h_2 c rest hrest =>
      split
      · have found : ReflTransGen Stroke (l, raw) (l.pushCaptured raw, raw) :=
          strokes_pushCaptured (by simp [hrest])
        have hpushed : (l.pushCaptured raw).rest = c :: rest := by simp [hrest]
        rw [← pushCaptured]
        generalize l.pushCaptured raw = pushed at found hpushed ⊢
        dsimp only
        split
        · refine .set (found.tail (.note ?_ (.inr (begun_of_rest hpushed)))) trivial
          constructor <;> rfl
        · refine .setBind ((found.tail .fresh).tail (.read _ (by simp [hpushed]))) ?_
          exact induction _ _
      · apply Strikes.bind (captureNext_strikes l raw)
        rintro _ m raw₁ rfl
        exact induction m _

theorem captureCommandRest_strikes (l : Lexer) (raw : RawText) (closer : Char)
    (base fuel : Nat) : Strikes l raw (captureCommandRest closer base fuel raw) Anything := by
  induction fuel generalizing l raw with
  | zero => exact .pure trivial
  | succ fuel induction =>
    apply Strikes.getBind
    split
    case h_1 =>
      apply Strikes.bind (enterNextLine_strikes l raw)
      rintro entered m _ rfl
      split
      · exact induction m _
      · exact .throw _
    case h_2 c rest hrest =>
      split
      · have found : Stroke (l, raw) (l.push (raw.toToken l.lineText), raw) :=
          .captured (by simp [hrest])
        refine .set ((ReflTransGen.single found).tail (.note ?_ ?_)) trivial
        · constructor <;> rfl
        · exact .inr (begun_of_rest hrest)
      · apply Strikes.bind (captureNext_strikes l raw)
        rintro _ m raw₁ rfl
        exact induction m _

theorem captureCall_strikes (l : Lexer) (raw : RawText) : Strikes l raw captureCall Anything := by
  apply Strikes.getBind
  exact .prepend (.single .fresh) (captureArguments_strikes l _ _ _) rfl

theorem captureCommand_strikes (l : Lexer) (raw : RawText) :
    Strikes l raw captureCommand Anything := by
  apply Strikes.getBind
  split
  · exact .prepend (.single .fresh) (captureCommandRest_strikes l _ _ _ _) rfl
  · exact .throw _

/-! ### Statement bodies -/

theorem Stroke.pending {l m : Lexer} {raw raw' : RawText} (stroke : Stroke (l, raw) (m, raw')) :
    l.pending <+: m.pending := by
  cases stroke with
  | note hsame => exact hsame.pending ▸ List.prefix_refl _
  | token | piece | string | captured => exact List.prefix_append _ _
  | _ => exact List.prefix_refl _

theorem pending_of_strokes {state state' : Lexer × RawText}
    (strokes : ReflTransGen Stroke state state') : state.1.pending <+: state'.1.pending := by
  induction strokes with
  | refl => exact List.prefix_refl _
  | tail _ last induction => exact induction.trans last.pending

theorem begun_of_strokes {l m : Lexer} {raw raw' : RawText}
    (strokes : ReflTransGen Stroke (l, raw) (m, raw')) (hpending : l.pending ≠ []) : m.Begun :=
  .inr fun hnil => hpending (List.prefix_nil.mp (hnil ▸ pending_of_strokes strokes))

theorem gatherLine_strikes (l : Lexer) (raw : RawText) (fuel : Nat) (text : List Char) :
    Strikes l raw (gatherLine fuel text) Anything := by
  induction fuel generalizing l raw text with
  | zero => exact .pure trivial
  | succ fuel induction =>
    unfold gatherLine
    split
    · apply Strikes.bind (enterNextLine_strikes l raw)
      rintro entered m _ rfl
      split
      · exact .getBind (.throw _)
      · exact induction m _ _
    · exact .pure trivial

theorem captureLine_strikes {l : Lexer} (raw : RawText) (hpending : l.pending ≠ []) :
    Strikes l raw captureLine Anything := by
  apply Strikes.getBind
  apply Strikes.bindFrom (gatherLine_strikes l raw _ _)
  intro text m raw' _ strokes
  have found : ReflTransGen Stroke (m, raw') (m.addToken .macroParam (String.ofList text) l.here
      m.lineEnd, raw') := strokes_addPiece l.here (.inr rfl) (begun_of_strokes strokes hpending) rfl
  refine .modify ((found.trans strokes_skipLine).tail (.note ?_ (.inr ?_))) trivial
  · constructor <;> rfl
  · exact .inr (by simp [skipLine, advance])

theorem gatherBlock_of_line {l : Lexer} {indent fuel : Nat} {text line : List Char}
    {first : Option Nat} {unread : Source} (hunread : l.unread = .text line :: unread) :
    gatherBlock indent (fuel + 1) text first l =
      if Lexeme.isIdleLine line then
        gatherBlock indent fuel (if first.isSome then text ++ line else text) first
          (l.nextLine line unread)
      else if Lexeme.indentWidth l.tabSize line ≤ indent then .ok (text, first) (l.measure line)
      else
        gatherBlock indent fuel (text ++ line) (some (first.getD (l.lineNumber + 1)))
          ((l.measure line).nextLine line unread) := by
  have hback : ({ l with unread := .text line :: unread } : Lexer) = l := by rw [← hunread]
  have htake : takeLine l = .ok (some line) { l with unread } := by
    simp only [takeLine, run_bind, run_get, hunread]
    rfl
  rw [gatherBlock, run_bind, htake]
  simp only [run_bind, run_get]
  split
  · rfl
  · split
    · rw [run_bind, run_set]
      exact congrArg (fun m : Lexer => EStateM.Result.ok (text, first) (m.measure line)) hback
    · rfl

theorem gatherBlock_strikes (l : Lexer) (raw : RawText) (indent fuel : Nat) (text : List Char)
    (first : Option Nat) : Strikes l raw (gatherBlock indent fuel text first) Anything := by
  induction fuel generalizing l text first with
  | zero => exact .pure trivial
  | succ fuel induction =>
    -- A line that ends the block is taken and put back. No strokes lead there and back again, so
    -- the run is computed instead of followed.
    obtain ⟨_, htake⟩ | ⟨line, unread, hunread, htake⟩ | ⟨unread, hunread, htake⟩ :=
      takeLine_cases l
    · rw [Strikes, gatherBlock, run_bind, htake]
      exact ⟨raw, trivial, .refl⟩
    · have measured : Stroke (l, raw) (l.measure line, raw) := .measure (.inl (by simp [hunread]))
      have hrun : gatherBlock indent (fuel + 1) text first l = _ := gatherBlock_of_line hunread
      split at hrun
      · exact .prepend (.single (.line hunread)) (induction _ _ _) hrun
      · split at hrun
        · rw [Strikes, hrun]
          exact ⟨raw, trivial, .single measured⟩
        · exact .prepend ((ReflTransGen.single measured).tail (.line hunread)) (induction _ _ _)
            hrun
    · rw [Strikes, gatherBlock, run_bind, htake]
      exact ⟨raw, .single (.broken hunread)⟩

theorem captureBlock_strikes {l : Lexer} (raw : RawText) (hpending : l.pending ≠ []) :
    Strikes l raw captureBlock Anything := by
  refine .modifyBind strokes_skipLine (.getBind ?_)
  apply Strikes.bindFrom (gatherBlock_strikes _ raw _ _ _ _)
  intro gathered m raw' _ strokes
  split
  case h_1 => exact .getBind (.throw _)
  case h_2 text first _ =>
    have found : ReflTransGen Stroke (m, raw') (m.addToken .macroParam
        (String.ofList (Text.dedent text)) ⟨first, 0⟩ m.lineEnd, raw') :=
      strokes_addPiece ⟨first, 0⟩ (.inr rfl) (begun_of_strokes strokes hpending) rfl
    refine .modify ((found.tail .drop).tail (.note ?_ (.inr ?_))) trivial
    · constructor <;> rfl
    · exact .inr (by simp)

theorem captureBody_strikes {l : Lexer} (raw : RawText) (hpending : l.pending ≠ []) :
    Strikes l raw captureBody Anything := by
  apply Strikes.getBind
  split
  · exact captureBlock_strikes raw hpending
  · exact captureLine_strikes raw hpending

/-! ### Literals -/

section Literals

variable {l : Lexer} {raw : RawText}

theorem startString_strikes (raw : RawText) {letters : List Char} {quote : Quote}
    (hopening : StringLetters.opening? l.rest = some (letters, quote)) :
    Strikes l raw (startString letters quote) Anything := by
  have hletters := (StringLetters.opening?_bounds hopening).1
  have hpositive := quote.size_pos
  have hrest : l.rest ≠ [] := List.ne_nil_of_length_pos (by omega)
  apply Strikes.getBind
  dsimp only
  split
  · refine .set ((strokes_take (.inl hrest) hletters).tail (.modes ?_)) trivial
    exact stringsFrom_cons (by simp) (stringsFrom_of_subset (List.Subset.refl _))
  · split
    case h_1 length hend =>
      have hlength := (Quote.closingEnd?_bounds hend).2
      rw [List.length_drop] at hlength
      exact .set (strokes_take (.inl hrest) (by omega)) trivial
    case h_2 =>
      split
      · have entered : Stroke (l, raw)
            (l.pushMode (.string quote (String.ofList l.rest) l.here l.lineText), raw) := by
          refine .modes ?_
          intro _ _ start line hmem
          obtain heq | hmem := List.mem_cons.mp hmem
          · obtain ⟨_, _, rfl, rfl⟩ := LexMode.string.inj heq
            exact .inr ⟨rfl, rfl, hrest⟩
          · exact .inl ⟨_, _, hmem⟩
        exact .set ((ReflTransGen.single entered).tail (.read _ (Nat.le_refl _))) trivial
      · exact .throw _

theorem resumeString_strikes (raw : RawText) {quote : Quote} {text line : String}
    {start : Position} {outer : List LexMode}
    (hmodes : l.modes = .string quote text start line :: outer) (hrest : l.rest ≠ []) :
    Strikes l raw (resumeString quote text start line outer) Anything := by
  have hmode : .string quote text start line ∈ l.modes := hmodes ▸ List.mem_cons_self
  apply Strikes.getBind
  split
  case h_1 length hend =>
    have found : Stroke (l, raw) (l.push ⟨.string, text ++ String.ofList (l.rest.take length),
        start, (l.advance length).here, line⟩, raw) := .string hmode hrest
    have hlength := (Quote.closingEnd?_bounds hend).2
    have left : (l.push ⟨.string, text ++ String.ofList (l.rest.take length), start,
        (l.advance length).here, line⟩).StringsFrom outer :=
      stringsFrom_of_subset (by simp [push, hmodes])
    refine .set ((((ReflTransGen.single found).tail (.modes left)).tail
      (.read length hlength)).tail (.note ?_ (.inr ?_))) trivial
    · constructor <;> rfl
    · exact .inr (by simp [push, advance])
  case h_2 =>
    split
    · have longer : l.StringsFrom
          (.string quote (text ++ String.ofList l.rest) start line :: outer) := by
        intro _ _ _ _ hmem
        obtain heq | hmem := List.mem_cons.mp hmem
        · obtain ⟨_, _, rfl, rfl⟩ := LexMode.string.inj heq
          exact .inl ⟨_, _, hmode⟩
        · exact .inl ⟨_, _, hmodes ▸ List.mem_cons_of_mem _ hmem⟩
      exact .set ((ReflTransGen.single (.modes longer)).tail (.read _ (Nat.le_refl _))) trivial
    · exact .throw _

theorem stringsFrom_literal {mode mode' : LexMode} {outer : List LexMode}
    (hmodes : l.modes = mode :: outer)
    (hmode : ∀ quote text start line, mode' ≠ .string quote text start line) :
    l.StringsFrom (mode' :: outer) :=
  stringsFrom_cons hmode (stringsFrom_of_subset (by simp [hmodes]))

theorem strokes_flushed {count : Nat} {text : String} {start : Position} {modes : List LexMode}
    (hbegun : l.Begun) (hcount : count ≤ l.rest.length) (hstrings : l.StringsFrom modes) :
    ReflTransGen Stroke (l, raw) (l.flushed count text start modes, raw) := by
  have moved : ReflTransGen Stroke (l, raw) ({ l with modes }, raw) := .single (.modes hstrings)
  unfold flushed
  split
  · exact moved.tail (.read _ hcount)
  · have found : ReflTransGen Stroke ({ l with modes }, raw)
        ({ l with modes }.addToken .fstringMiddle text start ⟨l.lineNumber, l.column + count⟩,
          raw) :=
      strokes_addPiece start (.inl rfl) hbegun rfl
    refine ((moved.trans found).tail (.read count ?_)).tail (.note ?_ (.inl rfl))
    · simpa using hcount
    · constructor <;> simp [advance, here]

theorem strokes_openField {count : Nat} {text : String} {start : Position} {modes : List LexMode}
    (hbegun : l.Begun) (hbrace : (l.rest.drop count).head? = some '\x7b')
    (hstrings : l.StringsFrom modes)
    (hflush : l.flushText count = l.flushed count text start modes) :
    ReflTransGen Stroke (l, raw) (l.openField count, raw) := by
  obtain ⟨rest, hdrop⟩ := List.head?_eq_some_iff.mp hbrace
  have hlength := congrArg List.length hdrop
  rw [List.length_drop, List.length_cons] at hlength
  have flushes : ReflTransGen Stroke (l, raw) (l.flushText count, raw) := by
    rw [hflush]
    exact strokes_flushed hbegun (by omega) hstrings
  have hrest : (l.flushText count).rest = '\x7b' :: rest := by
    rw [hflush]
    simpa using hdrop
  have opened : ReflTransGen Stroke (l, raw) ((l.flushText count).take .op 1, raw) :=
    flushes.trans (strokes_take (begun_of_rest hrest) (by simp [hrest]))
  refine (opened.trans (strokes_brackets _)).tail (.modes ?_)
  exact stringsFrom_cons (by simp) (stringsFrom_of_subset (List.Subset.refl _))

theorem resumeText_strikes (raw : RawText) {quote : Quote} {text : String} {start : Position}
    {outer : List LexMode} (hmodes : l.modes = .fstringText quote text start :: outer)
    (hrest : l.rest ≠ []) : Strikes l raw (resumeText quote text start outer) Anything := by
  apply Strikes.getBind
  generalize (if text.isEmpty then l.here else start) = start
  dsimp only
  refine .setBind (.single (.modes (stringsFrom_literal hmodes (by simp)))) (.getBind ?_)
  generalize hm : ({ l with modes := .fstringText quote text start :: outer } : Lexer) = m
  have hmodes : m.modes = .fstringText quote text start :: outer := by rw [← hm]
  have hrest : m.rest ≠ [] := by rw [← hm]; exact hrest
  clear hm
  split
  case h_1 =>
    have grown : m.StringsFrom (addText m.modes (String.ofList m.rest)) := by
      rw [hmodes]
      exact stringsFrom_literal hmodes (by simp)
    exact .set ((ReflTransGen.single (.modes grown)).tail (.read _ (Nat.le_refl _))) trivial
  case h_2 count hscan =>
    obtain ⟨_, hcloses⟩ := scanText_quote hscan
    have hsize := size_le_of_closes hcloses
    have hpositive := quote.size_pos
    rw [List.length_drop, Nat.sub_zero] at hsize
    have flushes : ReflTransGen Stroke (m, raw) (m.flushText count, raw) := by
      rw [flushText_of_text hmodes]
      exact strokes_flushed (.inl hrest) (by omega) (stringsFrom_literal hmodes (by simp))
    have hleft : (m.flushText count).rest = m.rest.drop count := by
      rw [flushText_of_text hmodes]
      simp
    have hlength : quote.size ≤ (m.flushText count).rest.length := by
      rw [hleft, List.length_drop]
      omega
    refine .set ((flushes.trans (strokes_take ?_ hlength)).tail (.modes ?_)) trivial
    · exact .inl (List.ne_nil_of_length_pos (by omega))
    · refine stringsFrom_of_subset ?_
      rw [flushText_of_text hmodes]
      simp
  case h_3 count hscan =>
    obtain ⟨_, hbrace⟩ := scanText_field hscan
    exact .set (strokes_openField (.inl hrest) hbrace (stringsFrom_literal hmodes (by simp))
      (flushText_of_text hmodes count)) trivial
  case h_4 => exact .throw _

theorem resumeSpec_strikes (raw : RawText) {text : String} {start : Position}
    {outer : List LexMode} (hmodes : l.modes = .fstringSpec text start :: outer)
    (hrest : l.rest ≠ []) : Strikes l raw (resumeSpec text start outer) Anything := by
  apply Strikes.getBind
  generalize (if text.isEmpty then l.here else start) = start
  dsimp only
  refine .setBind (.single (.modes (stringsFrom_literal hmodes (by simp)))) (.getBind ?_)
  generalize hm : ({ l with modes := .fstringSpec text start :: outer } : Lexer) = m
  have hmodes : m.modes = .fstringSpec text start :: outer := by rw [← hm]
  have hrest : m.rest ≠ [] := by rw [← hm]; exact hrest
  clear hm
  split
  case h_1 count hscan =>
    obtain ⟨_, hbrace⟩ := scanSpec_field hscan
    exact .set (strokes_openField (.inl hrest) hbrace (stringsFrom_literal hmodes (by simp))
      (flushText_of_spec hmodes count)) trivial
  case h_2 count hscan =>
    obtain ⟨_, hbrace⟩ := scanSpec_close hscan
    obtain ⟨rest, hdrop⟩ := List.head?_eq_some_iff.mp hbrace
    have hlength := congrArg List.length hdrop
    rw [List.length_drop, List.length_cons] at hlength
    have flushes : ReflTransGen Stroke (m, raw) (m.flushText count, raw) := by
      rw [flushText_of_spec hmodes]
      exact strokes_flushed (.inl hrest) (by omega) (stringsFrom_literal hmodes (by simp))
    have hleft : (m.flushText count).rest = '\x7d' :: rest := by
      rw [flushText_of_spec hmodes]
      simpa using hdrop
    refine .setBind flushes (.closeBracketBind fun brackets => ?_)
    have taken : ReflTransGen Stroke ({ m.flushText count with brackets }, raw)
        (({ m.flushText count with brackets } : Lexer).take .op 1, raw) :=
      strokes_take (begun_of_rest hleft) (by simp [hleft])
    refine .modify (taken.tail (.modes ?_)) trivial
    exact stringsFrom_of_subset (by simpa using List.drop_subset _ _)
  case h_3 => exact .throw _

theorem scanSearch_strikes (raw : RawText) {opening : Nat}
    (hopening : Lexeme.searchOpening? l.rest = some opening) :
    Strikes l raw (scanSearch opening) Anything := by
  have hletters := Lexeme.searchOpening?_bounds hopening
  have hrest : l.rest ≠ [] := List.ne_nil_of_length_pos (by omega)
  apply Strikes.getBind
  split
  case h_1 length hend =>
    have hlength := (Lexeme.searchEnd?_bounds hend).2
    rw [List.length_drop] at hlength
    exact .set (strokes_take (.inl hrest) (by omega)) trivial
  case h_2 => exact .throw _

end Literals

/-! ### Tokens -/

section Tokens

variable {l : Lexer}

theorem one_le_length {c : Char} {rest : List Char} (hrest : l.rest = c :: rest) :
    1 ≤ l.rest.length := by
  simp [hrest]

theorem scanCloser_strikes (raw : RawText) {c : Char} {rest : List Char}
    (hrest : l.rest = c :: rest) (closer : Char) :
    Strikes l raw (scanCloser closer) Anything := by
  refine .getBind (.closeBracketBind fun brackets => ?_)
  generalize l.atFieldLevel = atField
  have left : ({ l with brackets } : Lexer).StringsFrom
      (if atField then l.modes.drop 1 else l.modes) := by
    refine stringsFrom_of_subset ?_
    split
    · exact List.drop_subset _ _
    · exact List.Subset.refl _
  have popped : ReflTransGen Stroke ({ l with brackets }, raw)
      ({ l with brackets, modes := if atField then l.modes.drop 1 else l.modes }, raw) :=
    .single (.modes left)
  exact .modify (popped.trans (strokes_take (begun_of_rest hrest) (one_le_length hrest))) trivial

theorem scanColon_strikes (raw : RawText) {c : Char} {rest : List Char}
    (hrest : l.rest = c :: rest) : Strikes l raw scanColon Anything := by
  have taken : ReflTransGen Stroke (l, raw) (l.take .op 1, raw) :=
    strokes_take (begun_of_rest hrest) (one_le_length hrest)
  apply Strikes.getBind
  split
  · refine .set (taken.tail (.modes ?_)) trivial
    exact stringsFrom_cons (by simp) (stringsFrom_of_subset (List.Subset.refl _))
  · split
    · have passed : Stroke (l, raw) ({ l with withHeader := false }, raw) :=
        .note ⟨rfl, rfl, rfl, rfl, rfl, rfl, rfl, rfl, rfl, rfl, rfl⟩ (.inl rfl)
      have taken : ReflTransGen Stroke (l, raw)
          ({ l with withHeader := false }.take .op 1, raw) :=
        (ReflTransGen.single passed).trans
          (strokes_take (begun_of_rest hrest) (one_le_length hrest))
      exact .setBind taken (captureBody_strikes raw (by simp))
    · exact .set taken trivial

theorem scanExclamation_strikes (raw : RawText) {c : Char} {rest : List Char}
    (hrest : l.rest = c :: rest) : Strikes l raw scanExclamation Anything := by
  apply Strikes.getBind
  split
  · exact .setBind (strokes_take (begun_of_rest hrest) (one_le_length hrest))
      (captureCommand_strikes _ raw)
  · have announced (withHeader : Bool) : Stroke (l, raw) ({ l with withHeader }, raw) :=
      .note ⟨rfl, rfl, rfl, rfl, rfl, rfl, rfl, rfl, rfl, rfl, rfl⟩ (.inl rfl)
    exact .set ((ReflTransGen.single (announced _)).trans
      (strokes_take (begun_of_rest hrest) (one_le_length hrest))) trivial

theorem scanOpener_strikes (raw : RawText) {op : String} (hrest : l.rest ≠ [])
    (hop : op.length ≤ l.rest.length) (opener : Opener) :
    Strikes l raw (scanOpener op opener) Anything := by
  have taken (bracket : Bracket) :
      ReflTransGen Stroke (l, raw) ((l.pushBracket bracket).take .op op.length, raw) :=
    (strokes_brackets _).trans (strokes_take (.inl hrest) hop)
  apply Strikes.getBind
  split
  · exact .setBind (taken _) (captureCall_strikes _ raw)
  · exact .set (taken _) trivial

theorem scanOperator_strikes (raw : RawText) {table : List String} {op : String}
    (hmatch : Spelling.firstMatch table l.rest = some op) :
    Strikes l raw (scanOperator op) Anything := by
  have hpositive := (Spelling.firstMatch_leads hmatch).1
  have hop := Spelling.firstMatch_le hmatch
  have hnonempty : l.rest ≠ [] := List.ne_nil_of_length_pos (by omega)
  obtain ⟨c, rest, hrest⟩ := List.exists_cons_of_ne_nil hnonempty
  unfold scanOperator
  split
  · exact scanCloser_strikes raw hrest _
  · split
    · exact scanColon_strikes raw hrest
    · split
      · exact scanExclamation_strikes raw hrest
      · split
        · exact scanOpener_strikes raw hnonempty hop _
        · exact .modify (strokes_take (.inl hnonempty) hop) trivial

theorem scanCommandToken_strikes (raw : RawText) {c : Char} {rest : List Char}
    (hrest : l.rest = c :: rest) : Strikes l raw scanCommandToken Anything := by
  refine .getBind (.ite ?_ ?_)
  · have taken : ReflTransGen Stroke (l, raw) (l.take .op 1, raw) :=
      strokes_take (begun_of_rest hrest) (one_le_length hrest)
    exact .set (taken.trans (strokes_take (begun_take l .op 1) Lexeme.takeWhile_length_le)) trivial
  · split
    case h_1 op hmatch => exact scanOperator_strikes raw hmatch
    case h_2 =>
      split
      · exact .set (strokes_take (begun_of_rest hrest) (one_le_length hrest)) trivial
      · exact .set (strokes_take (begun_of_rest hrest) (Lexeme.wordLength_le _)) trivial

theorem scanHostToken_strikes (raw : RawText) {c : Char} {rest : List Char}
    (hrest : l.rest = c :: rest) : Strikes l raw scanHostToken Anything := by
  apply Strikes.getBind
  split
  · exact .set (strokes_take (begun_of_rest hrest) (Lexeme.numberLength_le _)) trivial
  · split
    · exact .set (strokes_take (begun_of_rest hrest) Lexeme.takeWhile_length_le) trivial
    · split
      case h_1 op hmatch => exact scanOperator_strikes raw hmatch
      case h_2 => exact .set (strokes_take (begun_of_rest hrest) (one_le_length hrest)) trivial

theorem scanToken_strikes (raw : RawText) : Strikes l raw scanToken Anything := by
  apply Strikes.getBind
  split
  case h_1 => exact .pure trivial
  case h_2 c rest hrest =>
    have hbegun := begun_of_rest hrest
    split
    · exact .set (strokes_take hbegun Lexeme.takeWhile_length_le) trivial
    · split
      · exact .set (strokes_take hbegun (Nat.le_refl _)) trivial
      · split
        · refine .set (strokes_skipLine.tail (.note ?_ (.inl rfl))) trivial
          constructor <;> rfl
        · split
          · exact .set (strokes_take hbegun (Lexeme.contentLength_le _)) trivial
          · split
            case h_1 letters quote hopening => exact startString_strikes raw hopening
            case h_2 =>
              split
              case h_1 opening hopening => exact scanSearch_strikes raw hopening
              case h_2 =>
                split
                · exact scanCommandToken_strikes raw hrest
                · exact scanHostToken_strikes raw hrest

end Tokens

/-! ### Layout -/

section Layout

variable {l : Lexer}

theorem strokes_dedents {α : Type} (raw : RawText) (place : Position) (left : List α)
    (hbegun : l.Begun) (hplace : place.line = l.lineNumber) :
    ReflTransGen Stroke (l, raw)
      (left.foldl (fun l _ => l.addToken .dedent "" place place) l, raw) := by
  induction left generalizing l with
  | nil => exact .refl
  | cons _ left induction =>
    refine (strokes_addToken place hbegun hplace).trans (induction (.inr (by simp)) ?_)
    simpa using hplace

theorem indentTo_strikes (raw : RawText) {c : Char} {rest : List Char}
    (hrest : l.rest = c :: rest) (width : Nat) : Strikes l raw (indentTo width) Anything := by
  have indented (indents : List Nat) : Stroke (l, raw) ({ l with indents }, raw) :=
    .note ⟨rfl, rfl, rfl, rfl, rfl, rfl, rfl, rfl, rfl, rfl, rfl⟩ (.inl rfl)
  apply Strikes.getBind
  split
  · exact .set ((ReflTransGen.single (indented _)).trans
      (strokes_addToken l.here (begun_of_rest hrest) rfl)) trivial
  · split
    · split
      · exact .set ((ReflTransGen.single (indented _)).trans
          (strokes_dedents raw l.here _ (begun_of_rest hrest) rfl)) trivial
      · exact .throw _
    · exact .pure trivial

theorem startLine_strikes (raw : RawText) (hline : l.lineText = String.ofList l.rest) :
    Strikes l raw startLine Anything := by
  have measured : Stroke (l, raw) (l.measure l.rest, raw) := .measure (.inr hline)
  apply Strikes.getBind
  dsimp only
  refine .setBind ((ReflTransGen.single measured).tail (.read _ Lexeme.takeWhile_length_le))
    (.getBind ?_)
  split
  case h_1 => exact .pure trivial
  case h_2 c rest hrest =>
    have hbegun := begun_of_rest hrest
    split
    · exact .set ((strokes_take hbegun (Lexeme.contentLength_le _)).trans
        (strokes_take (begun_take _ .comment _) (Nat.le_refl _))) trivial
    · split
      · exact .set (strokes_take hbegun (Nat.le_refl _)) trivial
      · exact indentTo_strikes raw hrest _

theorem finish_cases (l : Lexer) : finish l = .ok () l.close ∨ ∃ e, finish l = .error e l := by
  simp only [finish, run_bind, run_get]
  cases l.modes with
  | cons mode outer => cases mode <;> exact .inr ⟨_, rfl⟩
  | nil =>
    cases l.brackets with
    | cons top brackets => exact .inr ⟨_, rfl⟩
    | nil =>
      cases l.continued with
      | true => exact .inr ⟨_, rfl⟩
      | false => exact .inl rfl

theorem goToNextLine_strikes (raw : RawText) :
    goToNextLine l = .ok () l.close ∧ l.unread = [] ∨ Strikes l raw goToNextLine Anything := by
  obtain ⟨hunread, htake⟩ | ⟨text, unread, hunread, htake⟩ | ⟨unread, hunread, htake⟩ :=
    takeLine_cases l
  · have hgo : goToNextLine l = finish l := by rw [goToNextLine, run_bind, htake]
    obtain hfinish | ⟨e, hfinish⟩ := finish_cases l
    · exact .inl ⟨hgo.trans hfinish, hunread⟩
    · rw [Strikes, hgo, hfinish]
      exact .inr ⟨raw, .refl⟩
  · have entered : ReflTransGen Stroke (l, raw) (l.freshLine text unread, raw) := by
      have next : Stroke (l, raw) (l.nextLine text unread, raw) := .line hunread
      refine (ReflTransGen.single next).tail (.note ?_ (.inl rfl))
      constructor <;> rfl
    have hgo := goToNextLine_line hunread
    split at hgo
    · exact .inr (.prepend entered (startLine_strikes raw rfl) hgo)
    · rw [Strikes, hgo]
      exact .inr ⟨raw, trivial, entered⟩
  · rw [Strikes, goToNextLine, run_bind, htake]
    exact .inr ⟨raw, .single (.broken hunread)⟩

end Layout

theorem step_strikes (l : Lexer) (raw : RawText) :
    step l = .ok () l.close ∧ l.rest = [] ∧ l.unread = [] ∨ Strikes l raw step Anything := by
  by_cases hrest : l.rest = []
  · have hstep := step_of_rest_nil hrest
    obtain ⟨hgo, hunread⟩ | strikes := goToNextLine_strikes (l := l) raw
    · exact .inl ⟨hstep.trans hgo, hrest, hunread⟩
    · exact .inr (.prepend .refl strikes hstep)
  · right
    apply Strikes.getBind
    rw [if_neg (by simpa using hrest)]
    split
    case h_1 hmodes => exact resumeString_strikes raw hmodes hrest
    case h_2 hmodes => exact resumeText_strikes raw hmodes hrest
    case h_3 hmodes => exact resumeSpec_strikes raw hmodes hrest
    · exact scanToken_strikes raw
    · exact scanToken_strikes raw

end ShellSyntax.Lexer
