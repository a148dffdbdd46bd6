import ShellSyntax.Proofs.Lexer.Progress
import ShellSyntax.Proofs.Outcome

/-!
Inside a line no block opens or ends: whatever the lexer does there, and also where it fails there,
the open blocks stay and no token marks the start or the end of one. Plain strings are found only
where one is started or gone on with, words only where a word of a command begins, and stray
characters only outside commands.
-/

namespace ShellSyntax

/-- A token that marks the start or the end of a block. -/
def TokenKind.boundsBlock : TokenKind → Bool
  | .indent | .dedent => true
  | _ => false

/-- A plain string, a word of a command, or a character that starts no token. -/
def TokenKind.isBare : TokenKind → Bool
  | .string | .word | .error => true
  | _ => false

namespace LexMode

/-- The middle of a plain string. -/
def isString : LexMode → Bool
  | .string _ _ _ _ => true
  | _ => false

end LexMode

namespace Lexer

open Outcome

/-- The starts and the ends of blocks among the tokens that are ready. -/
def marks (l : Lexer) : List TokenKind :=
  (l.pending.map (·.kind)).filter TokenKind.boundsBlock

/-- What the lexer leaves alone inside a line. -/
def blocks (l : Lexer) : List Nat × List TokenKind × Bool × Nat :=
  (l.indents, l.marks, l.finished, l.tabSize)

/-- Every plain string, word and stray character that `m` has found is one of `l`, and so is every
plain string that it is in the middle of. -/
structure NoNewBare (l m : Lexer) : Prop where
  found : ∀ token ∈ m.pending, token.kind.isBare = true → token ∈ l.pending
  begun : ∀ mode ∈ m.modes, mode.isString = true → mode ∈ l.modes

/-- What was done inside a line between `l` and `m` opened and ended no block, found no plain
string, word or stray character and began no plain string. -/
structure Aside (l m : Lexer) : Prop extends NoNewBare l m where
  blocks : m.blocks = l.blocks

section Frame

variable (l : Lexer)

@[simp] theorem blocks_addToken (kind : TokenKind) (text : String) (start stop : Position)
    (hkind : kind.boundsBlock = false) : (l.addToken kind text start stop).blocks = l.blocks := by
  simp [blocks, marks, hkind]

@[simp] theorem blocks_take (kind : TokenKind) (count : Nat) (hkind : kind.boundsBlock = false) :
    (l.take kind count).blocks = l.blocks := by
  simp [blocks, marks, hkind]

end Frame

section NoNewBare

variable {l m n : Lexer}

theorem mem_cons_of_isString {mode mode' last : LexMode} {outer : List LexMode}
    (hmem : mode ∈ mode' :: outer) (hstring : mode.isString = true)
    (hother : mode'.isString = false) : mode ∈ last :: outer := by
  obtain rfl | hmem := List.mem_cons.mp hmem
  · exact absurd (hother.symm.trans hstring) Bool.false_ne_true
  · exact List.mem_cons_of_mem last hmem

theorem mem_of_addText {mode : LexMode} {modes : List LexMode} {more : String}
    (hmem : mode ∈ addText modes more) (hstring : mode.isString = true) : mode ∈ modes := by
  unfold addText at hmem
  split at hmem
  · exact mem_cons_of_isString hmem hstring rfl
  · exact mem_cons_of_isString hmem hstring rfl
  · exact hmem

theorem NoNewBare.refl (l : Lexer) : NoNewBare l l :=
  ⟨fun _ hmem _ => hmem, fun _ hmem _ => hmem⟩

theorem NoNewBare.trans (first : NoNewBare l m) (second : NoNewBare m n) :
    NoNewBare l n :=
  ⟨fun token hmem hkind => first.found token (second.found token hmem hkind) hkind,
    fun mode hmem hstring => first.begun mode (second.begun mode hmem hstring) hstring⟩

theorem noNewBare_of_append {more : List Token} (hpending : m.pending = l.pending ++ more)
    (hkind : ∀ token ∈ more, token.kind.isBare = false) (hmodes : m.modes = l.modes) :
    NoNewBare l m := by
  refine ⟨fun token hmem hbare => ?_, fun _ hmem _ => hmodes ▸ hmem⟩
  rw [hpending, List.mem_append] at hmem
  exact hmem.resolve_right fun hmore => Bool.false_ne_true ((hkind token hmore).symm.trans hbare)

theorem noNewBare_addToken (l : Lexer) {kind : TokenKind} (hkind : kind.isBare = false)
    (text : String) (start stop : Position) : NoNewBare l (l.addToken kind text start stop) :=
  noNewBare_of_append (l.addToken_pending kind text start stop) (by simpa using hkind)
    (by simp)

theorem noNewBare_take (l : Lexer) {kind : TokenKind} (hkind : kind.isBare = false) (count : Nat) :
    NoNewBare l (l.take kind count) :=
  noNewBare_of_append (l.take_pending kind count) (by simpa using hkind) (by simp)

end NoNewBare

namespace Aside

variable {l m n : Lexer}

theorem refl (l : Lexer) : Aside l l :=
  ⟨.refl l, rfl⟩

theorem trans (first : Aside l m) (second : Aside m n) : Aside l n :=
  ⟨first.toNoNewBare.trans second.toNoNewBare, second.blocks.trans first.blocks⟩

theorem same (hblocks : m.blocks = l.blocks) (hpending : m.pending = l.pending)
    (hmodes : m.modes = l.modes) : Aside l m :=
  ⟨noNewBare_of_append (hpending.trans (List.append_nil _).symm) (by simp) hmodes, hblocks⟩

theorem header (l : Lexer) (withHeader : Bool) : Aside l { l with withHeader } :=
  .same rfl rfl rfl

theorem skipLine (l : Lexer) : Aside l l.skipLine :=
  .same rfl rfl rfl

theorem take (l : Lexer) (kind : TokenKind) (count : Nat)
    (hkind : kind.boundsBlock = false ∧ kind.isBare = false) : Aside l (l.take kind count) :=
  ⟨noNewBare_take l hkind.2 count, blocks_take l kind count hkind.1⟩

theorem addToken (l : Lexer) {kind : TokenKind}
    (hkind : kind.boundsBlock = false ∧ kind.isBare = false) (text : String) (start stop : Position) :
    Aside l (l.addToken kind text start stop) :=
  ⟨noNewBare_addToken l hkind.2 text start stop, blocks_addToken l kind text start stop hkind.1⟩

/-- Of the literals some may have ended, and others than plain strings begun or gone on. -/
theorem withModes (aside : Aside l m) {modes : List LexMode}
    (hmodes : ∀ mode ∈ modes, mode.isString = true → mode ∈ l.modes) :
    Aside l { m with modes } :=
  ⟨⟨aside.found, hmodes⟩, aside.blocks⟩

theorem pushRaw (l : Lexer) (raw : RawText) (line : String) :
    Aside l (l.push (raw.toToken line)) where
  toNoNewBare := noNewBare_of_append rfl (by simp [RawText.toToken, TokenKind.isBare]) rfl
  blocks := by simp [Lexer.blocks, marks, push, RawText.toToken, TokenKind.boundsBlock]

theorem flushText (l : Lexer) (count : Nat) : Aside l (l.flushText count) := by
  have reset (mode : LexMode) {outer : List LexMode} (hmode : mode.isString = false)
      (houter : outer ⊆ addText l.modes (String.ofList (l.rest.take count))) :
      Aside l { l.advance count with modes := mode :: outer } := by
    have advanced : Aside l (l.advance count) := .same rfl rfl rfl
    refine advanced.withModes fun other hmem hstring => ?_
    obtain rfl | hmem := List.mem_cons.mp hmem
    · exact absurd (hmode.symm.trans hstring) Bool.false_ne_true
    · exact mem_of_addText (houter hmem) hstring
  simp only [Lexer.flushText]
  split
  case h_1 quote text start outer hmodes =>
    have reset := reset (.fstringText quote "" start) rfl (hmodes ▸ List.subset_cons_self _ outer)
    split
    · exact reset
    · exact reset.trans (.addToken _ (by decide) _ _ _)
  case h_2 text start outer hmodes =>
    have reset := reset (.fstringSpec "" start) rfl (hmodes ▸ List.subset_cons_self _ outer)
    split
    · exact reset
    · exact reset.trans (.addToken _ (by decide) _ _ _)
  case h_3 => exact .same rfl rfl rfl

theorem pushMode (aside : Aside l m) {mode : LexMode} (hmode : mode.isString = false) :
    Aside l (m.pushMode mode) :=
  aside.withModes fun other hmem hstring =>
    (List.mem_cons.mp hmem).elim (fun heq => absurd (heq ▸ hstring) (by simp [hmode]))
      fun hmem => aside.begun other hmem hstring

theorem openField (l : Lexer) (count : Nat) : Aside l (l.openField count) := by
  have opened : Aside l (((l.flushText count).take .op 1).pushBracket
      ⟨.brace, .host, (l.flushText count).here⟩) :=
    ((flushText l count).trans (.take _ _ 1 (by decide))).trans (.same rfl rfl rfl)
  exact opened.pushMode rfl

end Aside

/-! ### Steps -/

/-- Whether `step` ends or fails from `l` on, what it does is done aside. -/
def KeepsAside {α : Type} (l : Lexer) (step : Lex α) : Prop :=
  Aside l (final (step l))

namespace KeepsAside

variable {α β : Type} {l : Lexer}

theorem pure (a : α) : KeepsAside l (pure a) :=
  .refl l

theorem throw (e : LexError) : KeepsAside l (throw e : Lex α) :=
  .refl l

theorem set {next : Lexer} (hnext : Aside l next) : KeepsAside l (set next) :=
  hnext

theorem modify {f : Lexer → Lexer} (hf : Aside l (f l)) : KeepsAside l (modify f) :=
  hf

theorem getBind {f : Lexer → Lex β} (next : KeepsAside l (f l)) : KeepsAside l (get >>= f) :=
  next

theorem setBind {m : Lexer} {f : PUnit → Lex β} (hm : Aside l m)
    (next : KeepsAside m (f ⟨⟩)) : KeepsAside l (MonadStateOf.set m >>= f) :=
  Aside.trans (m := m) hm next

theorem modifyBind {g : Lexer → Lexer} {f : PUnit → Lex β} (hg : Aside l (g l))
    (next : KeepsAside (g l) (f ⟨⟩)) :
    KeepsAside l (MonadState.modifyGet (fun l => (PUnit.unit, g l)) >>= f) :=
  Aside.trans (m := g l) hg next

theorem bind {first : Lex α} {f : α → Lex β} (hfirst : KeepsAside l first)
    (next : ∀ a m, KeepsAside m (f a)) : KeepsAside l (first >>= f) := by
  rw [KeepsAside] at hfirst ⊢
  rw [run_bind]
  cases hrun : first l with
  | ok a m =>
    rw [hrun] at hfirst
    exact hfirst.trans (next a m)
  | error e m =>
    rw [hrun] at hfirst
    exact hfirst

end KeepsAside

variable (l : Lexer)

/-! ### Lines and brackets -/

theorem takeLine_keepsAside : KeepsAside l takeLine := by
  apply KeepsAside.getBind
  split
  · exact .pure none
  · refine .setBind (.same rfl rfl rfl) ?_
    split
    · exact .pure _
    · exact .throw _

theorem enterNextLine_keepsAside : KeepsAside l enterNextLine := by
  apply KeepsAside.bind (takeLine_keepsAside l)
  intro text m
  cases text with
  | none => exact .pure false
  | some text => exact .modifyBind (.same rfl rfl rfl) (.pure true)

theorem closeBracket_keepsAside (closer : Char) : KeepsAside l (closeBracket closer) := by
  apply KeepsAside.getBind
  split
  · exact .set (.same rfl rfl rfl)
  · exact .throw _

/-! ### Raw text -/

theorem captureChar_keepsAside (raw : RawText) : KeepsAside l (captureChar raw) := by
  apply KeepsAside.getBind
  split
  · exact .pure raw
  · exact .setBind (.same rfl rfl rfl) (.pure _)

theorem captureChars_keepsAside (count : Nat) (raw : RawText) :
    KeepsAside l (captureChars count raw) := by
  induction count generalizing l raw with
  | zero => exact .pure raw
  | succ count induction =>
    apply KeepsAside.bind (captureChar_keepsAside l raw)
    intro raw m
    exact induction m raw

theorem captureQuoted_keepsAside (quote : Quote) (start : Position) (fuel : Nat)
    (raw : RawText) : KeepsAside l (captureQuoted quote start fuel raw) := by
  induction fuel generalizing l raw with
  | zero => exact .pure raw
  | succ fuel induction =>
    apply KeepsAside.getBind
    split
    case h_1 =>
      split
      · exact .throw _
      · apply KeepsAside.bind (enterNextLine_keepsAside l)
        intro entered m
        split
        · exact .throw _
        · exact induction m raw
    case h_2 =>
      split
      · apply KeepsAside.bind (captureChars_keepsAside l 2 raw)
        intro raw m
        exact induction m raw
      · split
        · exact captureChars_keepsAside l quote.size raw
        · split
          · exact .throw _
          · apply KeepsAside.bind (captureChar_keepsAside l raw)
            intro raw m
            exact induction m raw

theorem captureString_keepsAside (quote : Quote) (raw : RawText) :
    KeepsAside l (captureString quote raw) := by
  apply KeepsAside.getBind
  apply KeepsAside.bind (captureChars_keepsAside l quote.size raw)
  intro raw m
  exact captureQuoted_keepsAside m quote _ _ raw

theorem followBracket_keepsAside (c : Char) : KeepsAside l (followBracket c) := by
  apply KeepsAside.getBind
  split
  · exact .set (.same rfl rfl rfl)
  · split
    · exact closeBracket_keepsAside l c
    · exact .pure _

theorem captureNext_keepsAside (raw : RawText) : KeepsAside l (captureNext raw) := by
  apply KeepsAside.getBind
  split
  · exact captureString_keepsAside l _ raw
  · split
    · apply KeepsAside.bind (followBracket_keepsAside l _)
      intro _ m
      exact captureChar_keepsAside m raw
    · exact captureChar_keepsAside l raw

theorem captureArguments_keepsAside (base fuel : Nat) (raw : RawText) :
    KeepsAside l (captureArguments base fuel raw) := by
  induction fuel generalizing l raw with
  | zero => exact .pure _
  | succ fuel induction =>
    apply KeepsAside.getBind
    split
    case h_1 =>
      apply KeepsAside.bind (enterNextLine_keepsAside l)
      intro entered m
      split
      · exact induction m raw
      · exact .throw _
    case h_2 =>
      split
      · have hpushed : Aside l (if raw.isBlank then l else l.push (raw.toToken l.lineText)) := by
          split
          · exact .refl l
          · exact .pushRaw l raw l.lineText
        generalize (if raw.isBlank then l else l.push (raw.toToken l.lineText)) = pushed at hpushed ⊢
        dsimp only
        split
        · exact .set (hpushed.trans (.same rfl rfl rfl))
        · exact .setBind (hpushed.trans (.same rfl rfl rfl)) (induction _ _)
      · apply KeepsAside.bind (captureNext_keepsAside l raw)
        intro raw m
        exact induction m raw

theorem captureCommandRest_keepsAside (closer : Char) (base fuel : Nat) (raw : RawText) :
    KeepsAside l (captureCommandRest closer base fuel raw) := by
  induction fuel generalizing l raw with
  | zero => exact .pure _
  | succ fuel induction =>
    apply KeepsAside.getBind
    split
    case h_1 =>
      apply KeepsAside.bind (enterNextLine_keepsAside l)
      intro entered m
      split
      · exact induction m raw
      · exact .throw _
    case h_2 =>
      split
      · exact .set (.trans (.pushRaw l raw l.lineText) (.same rfl rfl rfl))
      · apply KeepsAside.bind (captureNext_keepsAside l raw)
        intro raw m
        exact induction m raw

theorem captureCommand_keepsAside : KeepsAside l captureCommand := by
  apply KeepsAside.getBind
  split
  · exact captureCommandRest_keepsAside l _ _ _ _
  · exact .throw _

/-! ### Statement bodies -/

theorem gatherLine_keepsAside (fuel : Nat) (text : List Char) :
    KeepsAside l (gatherLine fuel text) := by
  induction fuel generalizing l text with
  | zero => exact .pure text
  | succ fuel induction =>
    unfold gatherLine
    split
    · apply KeepsAside.bind (enterNextLine_keepsAside l)
      intro entered m
      split
      · exact .throw _
      · exact induction m _
    · exact .pure text

theorem captureLine_keepsAside : KeepsAside l captureLine := by
  apply KeepsAside.getBind
  apply KeepsAside.bind (gatherLine_keepsAside l _ _)
  intro text m
  exact .modify (.trans (.addToken m (by decide) _ _ _) (.same rfl rfl rfl))

theorem gatherBlock_keepsAside (indent fuel : Nat) (text : List Char) (first : Option Nat) :
    KeepsAside l (gatherBlock indent fuel text first) := by
  induction fuel generalizing l text first with
  | zero => exact .pure _
  | succ fuel induction =>
    apply KeepsAside.bind (takeLine_keepsAside l)
    intro line m
    cases line with
    | none => exact .pure _
    | some line =>
      apply KeepsAside.getBind
      split
      · exact .setBind (.same rfl rfl rfl) (induction _ _ _)
      · split
        · exact .setBind (.same rfl rfl rfl) (.pure _)
        · exact .setBind (.same rfl rfl rfl) (induction _ _ _)

theorem captureBlock_keepsAside : KeepsAside l captureBlock := by
  refine .modifyBind (.same rfl rfl rfl) (.getBind ?_)
  apply KeepsAside.bind (gatherBlock_keepsAside _ _ _ _ _)
  intro gathered m
  split
  · exact .throw _
  · exact .modify (.trans (.addToken m (by decide) _ _ _) (.same rfl rfl rfl))

theorem captureBody_keepsAside : KeepsAside l captureBody := by
  apply KeepsAside.getBind
  split
  · exact captureBlock_keepsAside l
  · exact captureLine_keepsAside l

/-! ### Literals -/

theorem startString_keepsAside {letters : List Char}
    (hformatted : StringLetters.isFormatted letters = true) (quote : Quote) :
    KeepsAside l (startString letters quote) := by
  apply KeepsAside.getBind
  dsimp only
  rw [if_pos hformatted]
  exact .set ((Aside.take l _ _ (by decide)).pushMode rfl)

theorem blocks_startString (letters : List Char) (quote : Quote) :
    (final (startString letters quote l)).blocks = l.blocks := by
  rw [startString, final_get_bind]
  dsimp only
  split
  case isTrue => exact blocks_take l .fstringStart _ rfl
  case isFalse =>
    cases quote.closingEnd? (l.rest.drop (letters.length + quote.size)) with
    | some length => exact blocks_take l .string _ rfl
    | none =>
      dsimp only
      split
      case isTrue => rfl
      case isFalse => rfl

theorem blocks_resumeString (quote : Quote) (text : String) (start : Position) (line : String)
    (outer : List LexMode) :
    (final (resumeString quote text start line outer l)).blocks = l.blocks := by
  rw [resumeString, final_get_bind]
  cases quote.closingEnd? l.rest with
  | some length => simp [blocks, marks, push, advance, TokenKind.boundsBlock]
  | none =>
    dsimp only
    split
    case isTrue => rfl
    case isFalse => rfl

variable {l} in
theorem aside_of_cons {mode mode' : LexMode} {outer : List LexMode}
    (hmodes : l.modes = mode :: outer) (hmode : mode'.isString = false) :
    Aside l { l with modes := mode' :: outer } :=
  (Aside.refl l).withModes fun _ hmem hstring =>
    hmodes ▸ mem_cons_of_isString hmem hstring hmode

theorem resumeText_keepsAside {quote : Quote} {text : String} {start : Position}
    {outer : List LexMode} (hmodes : l.modes = .fstringText quote text start :: outer) :
    KeepsAside l (resumeText quote text start outer) := by
  refine .getBind (.setBind (aside_of_cons hmodes rfl) (.getBind ?_))
  generalize (if text.isEmpty then l.here else start) = start
  split
  · apply KeepsAside.set
    exact (Aside.skipLine _).withModes fun _ hmem hstring => mem_of_addText hmem hstring
  · apply KeepsAside.set
    refine .withModes (.trans (.flushText _ _) (.take _ _ quote.size (by decide))) ?_
    exact fun _ hmem _ => .tail _ hmem
  · exact .set (.openField _ _)
  · exact .throw _

theorem resumeSpec_keepsAside {text : String} {start : Position} {outer : List LexMode}
    (hmodes : l.modes = .fstringSpec text start :: outer) :
    KeepsAside l (resumeSpec text start outer) := by
  refine .getBind (.setBind (aside_of_cons hmodes rfl) (.getBind ?_))
  generalize (if text.isEmpty then l.here else start) = start
  split
  · exact .set (.openField _ _)
  · apply KeepsAside.setBind (.flushText _ _)
    apply KeepsAside.bind (closeBracket_keepsAside _ _)
    intro _ m
    refine .modify (.withModes (.take m .op 1 (by decide)) ?_)
    exact fun _ hmem _ => List.mem_of_mem_drop hmem
  · exact .throw _

theorem scanSearch_keepsAside (opening : Nat) : KeepsAside l (scanSearch opening) := by
  apply KeepsAside.getBind
  split
  · exact .set (.take l _ _ (by decide))
  · exact .throw _

/-! ### Tokens -/

theorem scanCloser_keepsAside (closer : Char) : KeepsAside l (scanCloser closer) := by
  apply KeepsAside.getBind
  apply KeepsAside.bind (closeBracket_keepsAside l closer)
  intro _ m
  refine .modify (.trans (.withModes (.refl m) ?_) (.take _ _ 1 (by decide)))
  intro mode hmem _
  split at hmem
  · exact List.mem_of_mem_drop hmem
  · exact hmem

theorem scanColon_keepsAside : KeepsAside l scanColon := by
  apply KeepsAside.getBind
  split
  · exact .set ((Aside.take l _ 1 (by decide)).pushMode rfl)
  · split
    · refine .setBind ((Aside.header l false).trans (.take _ _ _ (by decide))) ?_
      exact captureBody_keepsAside _
    · exact .set (.take l _ 1 (by decide))

theorem scanExclamation_keepsAside : KeepsAside l scanExclamation := by
  apply KeepsAside.getBind
  split
  · exact .setBind (.take l _ 1 (by decide)) (captureCommand_keepsAside _)
  · exact .set ((Aside.header l _).trans (.take _ _ _ (by decide)))

theorem scanOpener_keepsAside (op : String) (opener : Opener) :
    KeepsAside l (scanOpener op opener) := by
  apply KeepsAside.getBind
  split
  · refine .setBind (.trans (m := l.pushBracket _) (.same rfl rfl rfl) (.take _ _ _ (by decide)))
      (.getBind ?_)
    exact captureArguments_keepsAside _ _ _ _
  · exact .set (.trans (m := l.pushBracket _) (.same rfl rfl rfl) (.take _ _ _ (by decide)))

theorem scanOperator_keepsAside (op : String) : KeepsAside l (scanOperator op) := by
  unfold scanOperator
  split
  · exact scanCloser_keepsAside l _
  · split
    · exact scanColon_keepsAside l
    · split
      · exact scanExclamation_keepsAside l
      · split
        · exact scanOpener_keepsAside l op _
        · exact .modify (.take l _ _ (by decide))

theorem scanCommandToken_eq :
    scanCommandToken l =
      (if Lexeme.namesVariable l.rest then
        set ((l.take .op 1).takeWhile .name Lexeme.continuesName)
      else
        match Spelling.firstMatch Spelling.commandOperators l.rest with
        | some op => scanOperator op
        | _ =>
          match Lexeme.wordLength l.rest with
          | 0 => set (l.take .error 1)
          | length => set (l.take .word length) : Lex Unit) l :=
  rfl

/-- Between the words of a command the work is done aside, or a word is found, provided that
something else begins where no word does. -/
theorem scanCommandToken_keepsAside
    (hother : Lexeme.wordLength l.rest = 0 → Lexeme.namesVariable l.rest = true ∨
      (Spelling.firstMatch Spelling.commandOperators l.rest).isSome = true) :
    KeepsAside l scanCommandToken ∨ ∃ length, Lexeme.wordLength l.rest = length + 1 ∧
      scanCommandToken l = .ok () (l.take .word (length + 1)) := by
  rw [KeepsAside, scanCommandToken_eq]
  cases hnames : Lexeme.namesVariable l.rest with
  | true => exact .inl (.trans (.take l .op 1 (by decide)) (.take _ .name _ (by decide)))
  | false =>
    cases hmatch : Spelling.firstMatch Spelling.commandOperators l.rest with
    | some op => exact .inl (scanOperator_keepsAside l op)
    | none =>
      cases hlength : Lexeme.wordLength l.rest with
      | zero => simpa [hnames, hmatch] using hother hlength
      | succ length => exact .inr ⟨length, rfl, rfl⟩

theorem scanHostToken_keepsAside :
    KeepsAside l scanHostToken ∨ scanHostToken l = .ok () (l.take .error 1) := by
  rw [KeepsAside]
  generalize hresult : scanHostToken l = result
  simp only [scanHostToken, run_bind, run_get] at hresult
  split at hresult
  case isTrue => exact .inl (hresult ▸ .take l .number _ (by decide))
  case isFalse =>
    split at hresult
    case isTrue => exact .inl (hresult ▸ .take l .name _ (by decide))
    case isFalse =>
      cases hmatch : Spelling.firstMatch Spelling.operators l.rest with
      | some op =>
        rw [hmatch] at hresult
        exact .inl (hresult ▸ scanOperator_keepsAside l op)
      | none =>
        rw [hmatch] at hresult
        exact .inr hresult.symm

inductive WithinLine (l : Lexer) : Prop
  | aside (haside : Aside l (final (step l)))
  | starts (letters : List Char) (quote : Quote) (houtside : l.Outside)
      (hopening : StringLetters.opening? l.rest = some (letters, quote))
      (hplain : StringLetters.isFormatted letters = false)
      (hstep : step l = startString letters quote l)
  | resumes (quote : Quote) (text line : String) (start : Position) (outer : List LexMode)
      (hmodes : l.modes = .string quote text start line :: outer)
      (hstep : step l = resumeString quote text start line outer l)
  | word (length : Nat) (hcommand : l.brackets.inCommand = true)
      (hlength : Lexeme.wordLength l.rest = length + 1)
      (hstep : step l = .ok () (l.take .word (length + 1)))
  | stray (hhost : l.brackets.inCommand = false) (hstep : step l = .ok () (l.take .error 1))

theorem withinLine_of_scanToken {l : Lexer} (houtside : l.Outside) (hstep : step l = scanToken l) :
    WithinLine l := by
  have hresult := hstep
  simp only [scanToken, run_bind, run_get] at hresult
  cases hrest : l.rest with
  | nil =>
    rw [hrest] at hresult
    exact .aside (hresult ▸ .refl l)
  | cons c after =>
    rw [hrest] at hresult
    dsimp only at hresult
    split at hresult
    case isTrue => exact .aside (hresult ▸ .take l _ _ (by decide))
    case isFalse hspace =>
    split at hresult
    case isTrue => exact .aside (hresult ▸ .take l _ _ (by split <;> decide))
    case isFalse hbreak =>
    split at hresult
    case isTrue => exact .aside (hresult ▸ .same rfl rfl rfl)
    case isFalse =>
    split at hresult
    case isTrue => exact .aside (hresult ▸ .take l _ _ (by decide))
    case isFalse =>
    rw [← hrest] at hresult
    cases hopening : StringLetters.opening? l.rest with
    | some opening =>
      obtain ⟨letters, quote⟩ := opening
      rw [hopening] at hresult
      cases hformatted : StringLetters.isFormatted letters with
      | true => exact .aside (hresult ▸ startString_keepsAside l hformatted quote)
      | false => exact .starts letters quote houtside hopening hformatted hresult
    | none =>
      cases hsearch : Lexeme.searchOpening? l.rest with
      | some opening =>
        rw [hopening, hsearch] at hresult
        exact .aside (hresult ▸ scanSearch_keepsAside l opening)
      | none =>
        rw [hopening, hsearch] at hresult
        dsimp only at hresult
        split at hresult
        case isTrue hcommand =>
          have hother (hlength : Lexeme.wordLength l.rest = 0) :
              Lexeme.namesVariable l.rest = true ∨
                (Spelling.firstMatch Spelling.commandOperators l.rest).isSome = true := by
            cases Lexeme.startsOther_of_wordLength (by simp [hrest]) hlength with
            | space hother => exact absurd (by simpa [hrest] using hother) hspace
            | lineBreak hother => exact absurd (by simpa [hrest] using hother) hbreak
            | string hother => rw [hopening] at hother; cases hother
            | search hother => rw [hsearch] at hother; cases hother
            | envVariable hname => exact .inl hname
            | operator hmatch => exact .inr hmatch
          obtain aside | ⟨length, hlength, hword⟩ := scanCommandToken_keepsAside l hother
          · exact .aside (hresult ▸ aside)
          · exact .word length hcommand hlength (hresult.trans hword)
        case isFalse hhost =>
          obtain aside | hstray := scanHostToken_keepsAside l
          · exact .aside (hresult ▸ aside)
          · exact .stray (Bool.not_eq_true _ ▸ hhost) (hresult.trans hstray)

theorem withinLine_of_rest {l : Lexer} (hrest : l.rest ≠ []) : WithinLine l := by
  generalize hresult : step l = result
  have hstep := hresult
  simp only [step, run_bind, run_get, List.isEmpty_eq_false_iff.mpr hrest] at hstep
  cases hmodes : l.modes with
  | nil =>
    rw [hmodes] at hstep
    exact withinLine_of_scanToken (.inl hmodes) (hresult.trans hstep.symm)
  | cons mode outer =>
    rw [hmodes] at hstep
    replace hstep := hresult.trans hstep.symm
    cases mode with
    | string quote text start line => exact .resumes quote text line start outer hmodes hstep
    | fstringText => exact .aside (hstep ▸ resumeText_keepsAside l hmodes)
    | fstringSpec => exact .aside (hstep ▸ resumeSpec_keepsAside l hmodes)
    | fstringField depth => exact withinLine_of_scanToken (.inr ⟨depth, outer, hmodes⟩) hstep

theorem step_keepsBlocks {l : Lexer} (hrest : l.rest ≠ []) :
    (final (step l)).blocks = l.blocks := by
  cases withinLine_of_rest hrest with
  | aside haside => exact haside.blocks
  | starts letters quote _ _ _ hstep => rw [hstep, blocks_startString]
  | resumes quote text line start outer _ hstep => rw [hstep, blocks_resumeString]
  | word length _ _ hstep =>
    rw [hstep]
    exact blocks_take l .word _ rfl
  | stray _ hstep =>
    rw [hstep]
    exact blocks_take l .error 1 rfl

/-! ### Between lines -/

theorem finish_noNewBare (l : Lexer) : NoNewBare l (final (finish l)) := by
  simp only [finish, final_get_bind]
  cases hmodes : l.modes with
  | cons mode outer => cases mode <;> exact .refl l
  | nil =>
    cases hbrackets : l.brackets with
    | cons top brackets => exact .refl l
    | nil =>
      dsimp only
      split
      case isTrue => exact .refl l
      case isFalse =>
        refine noNewBare_of_append (show _ = l.pending ++ l.closingTokens by simp) ?_ (by simp)
        intro token htoken
        simp only [closingTokens, missingNewline, List.mem_append, List.mem_singleton] at htoken
        obtain hnewline | hdedent | rfl := htoken
        · split at hnewline
          · rw [List.mem_singleton.mp hnewline]
            rfl
          · cases hnewline
        · rw [List.eq_of_mem_replicate hdedent]
          rfl
        · rfl

theorem indentTo_noNewBare (l : Lexer) (width : Nat) :
    NoNewBare l (final (indentTo width l)) := by
  simp only [indentTo, final_get_bind]
  split
  case isTrue =>
    have deeper : NoNewBare l { l with indents := width :: l.indents } :=
      ⟨fun _ hmem _ => hmem, fun _ hmem _ => hmem⟩
    exact deeper.trans (noNewBare_addToken _ rfl _ _ _)
  case isFalse =>
    split
    case isTrue =>
      split
      case isTrue =>
        refine noNewBare_of_append (show _ = l.pending ++ l.dedentsTo width by simp) ?_ (by simp)
        intro token htoken
        rw [List.eq_of_mem_replicate htoken]
        rfl
      case isFalse => exact .refl l
    case isFalse => exact .refl l

theorem startLine_noNewBare (l : Lexer) (line : List Char) (unread : Source) :
    NoNewBare l (final (startLine (l.freshLine line unread))) := by
  rw [startLine_freshLine]
  have entered : NoNewBare l (l.freshLine line unread).pastMargin :=
    ⟨fun _ hmem _ => hmem, fun _ hmem _ => hmem⟩
  refine entered.trans ?_
  generalize (l.freshLine line unread).pastMargin = m
  cases m.rest with
  | nil => exact .refl m
  | cons c rest =>
    dsimp only
    split
    · exact (noNewBare_take m (by decide) _).trans (noNewBare_take _ (by decide) _)
    · split
      · exact noNewBare_take m (by decide) _
      · exact indentTo_noNewBare m _

theorem goToNextLine_noNewBare (l : Lexer) : NoNewBare l (final (goToNextLine l)) := by
  obtain ⟨_, htake⟩ | ⟨line, unread, hunread, _⟩ | ⟨unread, _, htake⟩ := takeLine_cases l
  · rw [goToNextLine, run_bind, htake]
    exact finish_noNewBare l
  · rw [goToNextLine_line hunread]
    split
    · exact startLine_noNewBare l line unread
    · exact ⟨fun _ hmem _ => hmem, fun _ hmem _ => hmem⟩
  · rw [goToNextLine, run_bind, htake]
    exact ⟨fun _ hmem _ => hmem, fun _ hmem _ => hmem⟩

end Lexer

end ShellSyntax
