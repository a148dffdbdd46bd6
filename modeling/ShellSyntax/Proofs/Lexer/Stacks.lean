import ShellSyntax.Proofs.Lexer.Reaches

/-!
The brackets and the modes of the lexer. Both stacks are pushed and popped in step: merged, they
are the openers among the tokens found so far that no closer has closed yet.
-/

namespace ShellSyntax

/-! ### Nesting of tokens -/

/-- What a token may open and a later one closes. -/
inductive Opening where
  | bracket (opener : Opener)
  /-- An f-string. -/
  | literal
deriving DecidableEq, Repr

namespace Opening

/-- The openings that stay open behind `token`, the innermost first. A closer has to close the
innermost, and a layout token stands outside all of them. -/
def follow (open_ : List Opening) (token : Token) : Option (List Opening) :=
  match token.kind with
  | .newline | .indent | .dedent | .endMarker => if open_.isEmpty then some [] else none
  | .fstringStart => some (.literal :: open_)
  | .fstringEnd =>
    match open_ with
    | .literal :: outer => some outer
    | _ => none
  | .op =>
    match Opener.ofSpelling? token.text, Lexer.closer? token.text with
    | some opener, _ => some (.bracket opener :: open_)
    | none, some closer =>
      match open_ with
      | .bracket opener :: outer => if opener.closer = closer then some outer else none
      | _ => none
    | none, none => some open_
  | _ => some open_

/-- The openings that stay open behind `tokens`. -/
def followAll (open_ : List Opening) (tokens : List Token) : Option (List Opening) :=
  tokens.foldlM follow open_

end Opening

/-- Every opener among the tokens is closed by its own closer, and layout tokens stand outside all
brackets and f-strings. -/
def WellNested (tokens : List Token) : Prop :=
  Opening.followAll [] tokens = some []

namespace Lexer

/-! ### The two stacks -/

/-- The openers and the literals around the cursor: `open_` is `brackets` with the f-strings of
`modes` at their places. -/
inductive InStep : List LexMode → BracketStack → List Opening → Prop
  | start : InStep [] [] []
  | bracket {modes : List LexMode} {bracket : Bracket} {brackets : BracketStack}
      {open_ : List Opening} (outer : InStep modes brackets open_)
      (houtside : modes = [] ∨ ∃ depth below, modes = .fstringField depth :: below) :
      InStep modes (bracket :: brackets) (.bracket bracket.opener :: open_)
  | string {modes : List LexMode} {brackets : BracketStack} {open_ : List Opening} {quote : Quote}
      {text line : String} {start : Position} (outer : InStep modes brackets open_)
      (houtside : modes = [] ∨ ∃ depth below, modes = .fstringField depth :: below) :
      InStep (.string quote text start line :: modes) brackets open_
  | text {modes : List LexMode} {brackets : BracketStack} {open_ : List Opening} {quote : Quote}
      {text : String} {start : Position} (outer : InStep modes brackets open_)
      (houtside : modes = [] ∨ ∃ depth below, modes = .fstringField depth :: below) :
      InStep (.fstringText quote text start :: modes) brackets (.literal :: open_)
  | field {mode : LexMode} {modes : List LexMode} {brackets : BracketStack}
      {open_ : List Opening} {position : Position} (outer : InStep (mode :: modes) brackets open_)
      (hliteral : (∃ quote text start, mode = .fstringText quote text start) ∨
        ∃ text start, mode = .fstringSpec text start) :
      InStep (.fstringField (brackets.length + 1) :: mode :: modes)
        (⟨.brace, .host, position⟩ :: brackets) (.bracket .brace :: open_)
  | spec {modes : List LexMode} {brackets : BracketStack} {open_ : List Opening} {text : String}
      {start : Position} (outer : InStep (.fstringField brackets.length :: modes) brackets open_) :
      InStep (.fstringSpec text start :: .fstringField brackets.length :: modes) brackets open_

namespace InStep

variable {modes : List LexMode} {brackets : BracketStack} {open_ : List Opening} {depth : Nat}

theorem depth_le (inStep : InStep (.fstringField depth :: modes) brackets open_) :
    depth ≤ brackets.length := by
  generalize hmodes : LexMode.fstringField depth :: modes = all at inStep
  induction inStep with
  | start => cases hmodes
  | bracket _ _ induction => exact Nat.le_succ_of_le (induction hmodes)
  | string => cases hmodes
  | text => cases hmodes
  | field =>
    cases hmodes
    exact Nat.le_refl _
  | spec => cases hmodes

theorem nil_of_brackets_nil (inStep : InStep modes [] open_)
    (houtside : modes = [] ∨ ∃ depth below, modes = .fstringField depth :: below) :
    modes = [] ∧ open_ = [] := by
  cases inStep with
  | start => exact ⟨rfl, rfl⟩
  | string => simp at houtside
  | text => simp at houtside
  | spec => simp at houtside

theorem below_string {quote : Quote} {text line : String} {start : Position}
    (inStep : InStep (.string quote text start line :: modes) brackets open_) :
    InStep modes brackets open_ ∧
      (modes = [] ∨ ∃ depth below, modes = .fstringField depth :: below) := by
  cases inStep with
  | bracket _ houtside => simp at houtside
  | string outer houtside => exact ⟨outer, houtside⟩

theorem below_text {quote : Quote} {text : String} {start : Position}
    (inStep : InStep (.fstringText quote text start :: modes) brackets open_) :
    ∃ outer, open_ = .literal :: outer ∧ InStep modes brackets outer ∧
      (modes = [] ∨ ∃ depth below, modes = .fstringField depth :: below) := by
  cases inStep with
  | bracket _ houtside => simp at houtside
  | text outer houtside => exact ⟨_, rfl, outer, houtside⟩

theorem below_spec {text : String} {start : Position}
    (inStep : InStep (.fstringSpec text start :: modes) brackets open_) :
    ∃ below, modes = .fstringField brackets.length :: below ∧ InStep modes brackets open_ := by
  cases inStep with
  | bracket _ houtside => simp at houtside
  | spec outer => exact ⟨_, rfl, outer⟩

theorem close {bracket : Bracket} (inStep : InStep modes (bracket :: brackets) open_)
    (houtside : modes = [] ∨ ∃ depth below, modes = .fstringField depth :: below) :
    ∃ outer, open_ = .bracket bracket.opener :: outer ∧
      ((∃ below, modes = .fstringField (brackets.length + 1) :: below ∧
          InStep below brackets outer) ∨
        (∀ below, modes ≠ .fstringField (brackets.length + 1) :: below) ∧
          InStep modes brackets outer) := by
  cases inStep with
  | @bracket _ _ _ outer inStep _ =>
    refine ⟨outer, rfl, .inr ⟨?_, inStep⟩⟩
    rintro below rfl
    have hdepth := inStep.depth_le
    omega
  | string => simp at houtside
  | text => simp at houtside
  | @field mode below _ outer position inStep _ =>
    exact ⟨outer, rfl, .inl ⟨_, rfl, inStep⟩⟩
  | spec => simp at houtside

end InStep

/-! ### Tokens of a move -/

/-- The stacks behind tokens that `l'` has found since the openings were `open_`. -/
def StepsTo (open_ : List Opening) (l' : Lexer) : Prop :=
  ∃ rest, Opening.followAll open_ l'.pending = some rest ∧ InStep l'.modes l'.brackets rest ∧
    ((∃ token ∈ l'.pending, token.kind.isLayout = true) → l'.modes = [] ∧ l'.brackets = []) ∧
    ∀ token ∈ l'.pending, token.kind = .endMarker → l'.finished = true

theorem followAll_replicate {token : Token} (count : Nat) (hlayout : token.kind.isLayout = true) :
    Opening.followAll [] (List.replicate count token) = some [] := by
  have hfollow : Opening.follow [] token = some [] := by
    cases hkind : token.kind <;> simp_all [Opening.follow, TokenKind.isLayout]
  induction count with
  | zero => rfl
  | succ count induction =>
    rw [List.replicate_succ, Opening.followAll, List.foldlM_cons, hfollow]
    exact induction

theorem followAll_append (open_ : List Opening) (first second : List Token) :
    Opening.followAll open_ (first ++ second) =
      (Opening.followAll open_ first).bind fun rest => Opening.followAll rest second := by
  simp only [Opening.followAll, List.foldlM_append]
  rfl

theorem closer?_eq_some {text : String} {closer : Char} (hcloser : closer? text = some closer) :
    text.length = 1 ∧ Opener.ofSpelling? text = none := by
  unfold closer? at hcloser
  split at hcloser
  · exact ⟨rfl, by decide⟩
  · exact ⟨rfl, by decide⟩
  · exact ⟨rfl, by decide⟩
  · cases hcloser

theorem follow_closer {token : Token} {opener : Opener} {outer : List Opening}
    (hop : token.kind = .op) (hcloser : closer? token.text = some opener.closer) :
    Opening.follow (.bracket opener :: outer) token = some outer := by
  have hopener := (closer?_eq_some hcloser).2
  simp [Opening.follow, hop, hcloser, hopener]

theorem StepsTo.of_layout {l' : Lexer} (hmodes : l'.modes = []) (hbrackets : l'.brackets = [])
    (hlayout : ∀ token ∈ l'.pending, token.kind.isLayout = true)
    (hmarker : ∀ token ∈ l'.pending, token.kind = .endMarker → l'.finished = true) :
    StepsTo [] l' := by
  refine ⟨[], ?_, ?_, fun _ => ⟨hmodes, hbrackets⟩, hmarker⟩
  · generalize l'.pending = pending at hlayout
    induction pending with
    | nil => rfl
    | cons token pending induction =>
      have htoken := followAll_replicate 1 (hlayout token List.mem_cons_self)
      rw [show token :: pending = List.replicate 1 token ++ pending from rfl, followAll_append,
        htoken]
      exact induction fun token htoken => hlayout token (List.mem_cons_of_mem _ htoken)
  · rw [hmodes, hbrackets]
    exact .start

/-- A token that opens and closes nothing. -/
def Neutral (token : Token) : Prop :=
  token.kind.isLayout = false ∧ ∀ open_, Opening.follow open_ token = some open_

theorem neutral_op {token : Token} (hop : token.kind = .op) (hcloser : closer? token.text = none)
    (hopener : Opener.ofSpelling? token.text = none) : Neutral token :=
  ⟨by rw [hop]; rfl, fun _ => by simp [Opening.follow, hop, hcloser, hopener]⟩

theorem neutral_macroParam {token : Token} (hkind : token.kind = .macroParam) : Neutral token :=
  ⟨by rw [hkind]; rfl, fun _ => by simp [Opening.follow, hkind]⟩

theorem followAll_neutral {open_ : List Opening} {tokens : List Token}
    (hneutral : ∀ token ∈ tokens, Neutral token) :
    Opening.followAll open_ tokens = some open_ := by
  induction tokens with
  | nil => rfl
  | cons token tokens induction =>
    rw [Opening.followAll, List.foldlM_cons, (hneutral token List.mem_cons_self).2]
    exact induction fun token htoken => hneutral token (List.mem_cons_of_mem _ htoken)

theorem StepsTo.of_visible {open_ : List Opening} {l' : Lexer} (rest : List Opening)
    (hfollow : Opening.followAll open_ l'.pending = some rest)
    (inStep : InStep l'.modes l'.brackets rest)
    (hkinds : ∀ token ∈ l'.pending, token.kind.isLayout = false) : StepsTo open_ l' := by
  refine ⟨rest, hfollow, inStep, ?_, ?_⟩
  · rintro ⟨token, htoken, hlayout⟩
    rw [hkinds token htoken] at hlayout
    cases hlayout
  · intro token htoken hmarker
    have hvisible := hkinds token htoken
    rw [hmarker] at hvisible
    cases hvisible

theorem StepsTo.of_neutral {open_ : List Opening} {l' : Lexer}
    (inStep : InStep l'.modes l'.brackets open_)
    (hneutral : ∀ token ∈ l'.pending, Neutral token) : StepsTo open_ l' :=
  .of_visible _ (followAll_neutral hneutral) inStep fun token htoken => (hneutral token htoken).1

theorem neutral_sign {table : List String} {text : List Char} {sign line : String}
    {start stop : Position} (hmatch : Spelling.firstMatch table text = some sign)
    (hcloser : closer? sign = none)
    (hsign : Opener.ofSpelling? sign = none ∧ sign.length = 1) :
    Neutral ⟨.op, String.ofList (text.take 1), start, stop, line⟩ := by
  rw [← hsign.2, Spelling.firstMatch_take hmatch, String.ofList_toList]
  exact neutral_op rfl hcloser hsign.1

/-- Only a line end is layout among these tokens, and none of them opens or closes anything. -/
theorem Plain.neutral {l : Lexer} {kind : TokenKind} {count : Nat} (plain : Plain l kind count)
    (hkind : kind ≠ .newline) {start stop : Position} {line : String} :
    Neutral ⟨kind, String.ofList (l.rest.take count), start, stop, line⟩ := by
  cases plain with
  | newline => exact absurd rfl hkind
  | op hmatch hcloser hopener =>
    rw [Spelling.firstMatch_take hmatch, String.ofList_toList]
    exact neutral_op rfl hcloser hopener
  | _ => exact ⟨rfl, fun _ => rfl⟩

theorem Plain.stepsTo {l : Lexer} {kind : TokenKind} {count : Nat} {open_ : List Opening}
    (plain : Plain l kind count) (houtside : l.Outside) (hpending : l.pending = [])
    (inStep : InStep l.modes l.brackets open_) : StepsTo open_ (l.take kind count) := by
  by_cases hkind : kind = .newline
  · subst hkind
    cases plain with
    | newline hrest hbreak hbrackets =>
      rw [hbrackets] at inStep
      obtain ⟨hmodes, rfl⟩ := inStep.nil_of_brackets_nil houtside
      refine .of_layout (by simpa using hmodes) (by simpa using hbrackets) ?_ ?_
      · simp [hpending, TokenKind.isLayout]
      · simp [hpending]
  · refine .of_neutral (by simpa using inStep) ?_
    simp only [take_frame, hpending, List.nil_append, List.mem_singleton, forall_eq]
    exact plain.neutral hkind

theorem follow_literalText (l : Lexer) (count : Nat) (text : String) (start : Position)
    (open_ : List Opening) :
    Opening.followAll open_ (l.literalText count text start) = some open_ ∧
      ∀ token ∈ l.literalText count text start, token.kind.isLayout = false := by
  unfold literalText
  split
  · simp [Opening.followAll]
  · simp [Opening.followAll, Opening.follow, TokenKind.isLayout]

theorem Arguments.pending {floor : BracketStack} {l l' : Lexer} {raw : RawText}
    (moves : Arguments floor l raw l') :
    ∃ captured, l'.pending = l.pending ++ captured ∧
      ∀ token ∈ captured, token.kind = .macroParam := by
  have hpushed (m : Lexer) (captured : RawText) :
      ∀ token ∈ (if captured.isBlank then [] else [captured.toToken m.lineText]),
        token.kind = .macroParam := by
    split
    · simp
    · simp [RawText.toToken]
  induction moves with
  | @last l m raw captured rest hcapture hfloor hrest =>
    refine ⟨_, ?_, hpushed m captured⟩
    simp [hcapture.readsOn.pending]
  | @more l m l' raw captured rest hcapture hfloor hrest next induction =>
    obtain ⟨others, hothers, hkinds⟩ := induction
    refine ⟨(if captured.isBlank then [] else [captured.toToken m.lineText]) ++ others, ?_, ?_⟩
    · rw [hothers]
      simp only [advance, pushCaptured_frame, hcapture.readsOn.pending, List.append_assoc]
    · intro token htoken
      rcases List.mem_append.mp htoken with hfirst | hlater
      · exact hpushed m captured token hfirst
      · exact hkinds token hlater

theorem openField_stepsTo {l : Lexer} {count : Nat} {mode : LexMode} {outer : List LexMode}
    {text : String} {start : Position} {open_ : List Opening}
    (hflush : l.flushText count = l.flushed count text start (mode :: outer))
    (hliteral : (∃ quote text start, mode = .fstringText quote text start) ∨
      ∃ text start, mode = .fstringSpec text start)
    (hbrace : (l.rest.drop count).head? = some '\x7b') (hpending : l.pending = [])
    (inStep : InStep (mode :: outer) l.brackets open_) : StepsTo open_ (l.openField count) := by
  obtain ⟨rest, hdrop⟩ := List.head?_eq_some_iff.mp hbrace
  obtain ⟨hfollow, hkinds⟩ := follow_literalText l count text start open_
  refine .of_visible (.bracket .brace :: open_) ?_ ?_ ?_
  · simp only [openField, hflush, pushMode, pushBracket, take_frame, flushed_frame, hpending,
      List.nil_append]
    rw [followAll_append, hfollow, hdrop]
    rfl
  · simp only [openField, hflush, pushMode, pushBracket, take_frame, flushed_frame]
    exact .field inStep hliteral
  · simp only [openField, hflush, pushMode, pushBracket, take_frame, flushed_frame, hpending,
      List.nil_append, List.mem_append, List.mem_singleton]
    rintro token (htoken | rfl)
    · exact hkinds token htoken
    · rfl

theorem layout_of_closing {l : Lexer} : ∀ token ∈ l.closingTokens, token.kind.isLayout = true := by
  intro token htoken
  simp only [closingTokens, missingNewline, List.mem_append, List.mem_replicate,
    List.mem_singleton] at htoken
  obtain htoken | ⟨_, rfl⟩ | rfl := htoken
  · split at htoken
    · rw [List.mem_singleton.mp htoken]
      rfl
    · cases htoken
  · rfl
  · rfl

theorem Moves.stepsTo {l l' : Lexer} {open_ : List Opening} (moves : Moves l l')
    (hpending : l.pending = []) (inStep : InStep l.modes l.brackets open_) :
    StepsTo open_ l' := by
  have hstatement (hplace : l.AtStatement) : open_ = [] := by
    obtain ⟨hmodes, hbrackets, _⟩ := hplace
    rw [hmodes, hbrackets] at inStep
    exact (inStep.nil_of_brackets_nil (.inl rfl)).2
  cases moves with
  | finish hrest hunread hplace =>
    obtain rfl := hstatement hplace
    refine .of_layout (by simp [hplace.1]) (by simp [hplace.2.1]) ?_ (by simp)
    rw [close_pending, hpending]
    exact layout_of_closing
  | resumeLine =>
    refine .of_neutral inStep ?_
    simp [freshLine, nextLine, enterLine, hpending]
  | blankLine hrest hunread hplace hm hend =>
    have frame := pastMargin_frame hm
    refine .of_neutral (by simpa [frame] using inStep) ?_
    simp [frame, hpending]
  | commentLine hrest hunread hplace hm hcomment =>
    have frame := pastMargin_frame hm
    refine .of_neutral (by simpa [takeRest, frame] using inStep) ?_
    simp [takeRest, frame, hpending, Neutral, TokenKind.isLayout, Opening.follow]
  | emptyLine hrest hunread hplace hm hbreak hc =>
    have frame := pastMargin_frame hm
    refine .of_neutral (by simpa [takeRest, frame] using inStep) ?_
    simp [takeRest, frame, hpending, Neutral, TokenKind.isLayout, Opening.follow]
  | indented hrest hunread hplace hm hbreak hwidth hdeeper =>
    obtain rfl := hstatement hplace
    have frame := pastMargin_frame hm
    refine .of_layout (by simp [frame, hplace.1]) (by simp [frame, hplace.2.1]) ?_ ?_
    · simp [frame, hpending, TokenKind.isLayout]
    · simp [frame, hpending]
  | level hrest hunread hplace hm hbreak hwidth hlevel =>
    have frame := pastMargin_frame hm
    refine .of_neutral (by simpa [frame] using inStep) ?_
    simp [frame, hpending]
  | outdented hrest hunread hplace hm hbreak hwidth hshallower hopen =>
    obtain rfl := hstatement hplace
    have frame := pastMargin_frame hm
    refine .of_layout (by simp [frame, hplace.1]) (by simp [frame, hplace.2.1]) ?_ ?_
    · simp only [leaveBlocks_frame, dedentsTo, frame, hpending, List.nil_append,
        List.mem_replicate]
      rintro _ ⟨_, rfl⟩
      rfl
    · simp only [leaveBlocks_frame, dedentsTo, frame, hpending, List.nil_append,
        List.mem_replicate]
      rintro _ ⟨_, rfl⟩ hmarker
      cases hmarker
  | stringEnd hmodes hrest hend =>
    rw [hmodes] at inStep
    refine .of_neutral inStep.below_string.1 ?_
    simp [push, advance, hpending, Neutral, TokenKind.isLayout, Opening.follow]
  | stringLine hmodes hrest hend hgoes =>
    rw [hmodes] at inStep
    obtain ⟨outer, houtside⟩ := inStep.below_string
    refine .of_neutral (.string outer houtside) ?_
    simp [skipLine, advance, hpending]
  | textLine hmodes hrest hscan =>
    rw [hmodes] at inStep
    obtain ⟨_, rfl, outer, houtside⟩ := inStep.below_text
    refine .of_neutral (.text outer houtside) ?_
    simp [skipLine, advance, hpending]
  | @textEnd m quote text start outer count hmodes hrest hm hscan =>
    rw [hmodes] at inStep
    obtain ⟨rest, rfl, below, houtside⟩ := inStep.below_text
    have hflush := flushText_of_text (l := m) (by rw [hm]) count
    obtain ⟨hfollow, hkinds⟩ := follow_literalText m count
      (text ++ String.ofList (m.rest.take count)) (if text.isEmpty then l.here else start)
      (.literal :: rest)
    have hnone : m.pending = [] := by rw [hm, hpending]
    refine .of_visible rest ?_ ?_ ?_
    · simp only [hflush, take_frame, flushed_frame, hnone, List.nil_append]
      rw [followAll_append, hfollow]
      rfl
    · simp only [hflush, take_frame, flushed_frame]
      rw [hm]
      exact below
    · simp only [hflush, take_frame, flushed_frame, hnone, List.nil_append, List.mem_append,
        List.mem_singleton]
      rintro token (htoken | rfl)
      · exact hkinds token htoken
      · rfl
  | @textField m quote text start outer count hmodes hrest hm hscan =>
    rw [hmodes] at inStep
    obtain ⟨_, rfl, below, houtside⟩ := inStep.below_text
    refine openField_stepsTo (flushText_of_text (l := m) (by rw [hm]) count)
      (.inl ⟨_, _, _, rfl⟩) ?_ (by rw [hm, hpending]) ?_
    · rw [hm]
      exact (scanText_field hscan).2
    · rw [hm]
      exact .text below houtside
  | @specField m text start outer count hmodes hrest hm hscan =>
    rw [hmodes] at inStep
    obtain ⟨_, rfl, below⟩ := inStep.below_spec
    refine openField_stepsTo (flushText_of_spec (l := m) (by rw [hm]) count)
      (.inr ⟨_, _, rfl⟩) ?_ (by rw [hm, hpending]) ?_
    · rw [hm]
      exact (scanSpec_field hscan).2
    · rw [hm]
      exact .spec below
  | @specEnd m n text start outer count top brackets hmodes hrest hm hscan hn hbrackets htop =>
    have hflush := flushText_of_spec (l := m) (by rw [hm]) count
    rw [hflush] at hn
    have hbelow : l.brackets = top :: brackets := by
      rw [hn] at hbrackets
      simp only [flushed_frame] at hbrackets
      rwa [hm] at hbrackets
    rw [hmodes, hbelow] at inStep
    obtain ⟨_, rfl, below⟩ := inStep.below_spec
    obtain ⟨rest, rfl, ⟨_, hfield, above⟩ | ⟨hother, _⟩⟩ := below.close (.inr ⟨_, _, rfl⟩)
    case inr => exact absurd rfl (hother _)
    case inl =>
      cases hfield
      obtain ⟨hfollow, hkinds⟩ := follow_literalText m count
        (text ++ String.ofList (m.rest.take count)) (if text.isEmpty then l.here else start)
        (.bracket top.opener :: rest)
      have hnone : m.pending = [] := by rw [hm, hpending]
      obtain ⟨after, hdrop⟩ := List.head?_eq_some_iff.mp (scanSpec_close hscan).2
      have hbrace : m.rest.drop count = '\x7d' :: after := by
        rw [hm]
        exact hdrop
      refine .of_visible rest ?_ ?_ ?_
      · simp only [take_frame, hn, flushed_frame, hnone, List.nil_append]
        rw [followAll_append, hfollow, hbrace, Option.bind_some, Opening.followAll,
          List.foldlM_cons, follow_closer rfl (by rw [show top.opener.closer = _ from htop]; rfl)]
        rfl
      · simp only [hn, take_frame, flushed_frame, List.drop_succ_cons, List.drop_zero]
        exact above
      · simp only [hn, take_frame, flushed_frame, hnone, List.nil_append, List.mem_append,
          List.mem_singleton]
        rintro token (htoken | rfl)
        · exact hkinds token htoken
        · rfl
  | plain houtside hplain => exact hplain.stepsTo houtside hpending inStep
  | continuation houtside hrest hend =>
    refine .of_neutral inStep ?_
    simp [skipLine, advance, hpending]
  | stringStart houtside hopening hplain hend hgoes =>
    refine .of_neutral (.string inStep houtside) ?_
    simp [skipLine, advance, pushMode, hpending]
  | fstringStart houtside hopening hformatted hm =>
    refine .of_visible (.literal :: open_) ?_ ?_ ?_
    · simp [hm, pushMode, hpending, Opening.followAll, Opening.follow]
    · simp only [hm, pushMode, take_frame]
      exact .text inStep houtside
    · simp [hm, pushMode, hpending, TokenKind.isLayout]
  | envVariable houtside hcommand hrest hstart =>
    have hdollar : Opener.ofSpelling? (String.ofList ['$']) = none ∧
        closer? (String.ofList ['$']) = none := by decide
    refine .of_neutral (by simpa [takeWhile] using inStep) ?_
    simp [takeWhile, hpending, hrest, Neutral, TokenKind.isLayout, Opening.follow, hdollar]
  | @closer table text top brackets houtside hmatch hcloser hbrackets =>
    rw [hbrackets] at inStep
    obtain ⟨rest, rfl, habove⟩ := inStep.close houtside
    have hlength := (closer?_eq_some hcloser).1
    have htext := Spelling.firstMatch_take hmatch
    rw [hlength] at htext
    refine .of_visible rest ?_ ?_ ?_
    · simp only [take_frame, hpending, List.nil_append, htext, String.ofList_toList]
      rw [Opening.followAll, List.foldlM_cons, follow_closer rfl hcloser]
      rfl
    · simp only [take_frame]
      obtain ⟨below, hmodes, above⟩ | ⟨hother, above⟩ := habove
      · simpa [atFieldLevel, hmodes, hbrackets, BracketStack.depth] using above
      · have hlevel : l.atFieldLevel = false := by
          obtain hmodes | ⟨depth, below, hmodes⟩ := houtside
          · simp [atFieldLevel, hmodes]
          · simp only [atFieldLevel, hmodes, hbrackets, BracketStack.depth, List.length_cons,
              beq_eq_false_iff_ne]
            rintro rfl
            exact hother below hmodes
        simpa [hlevel] using above
    · simp [hpending, TokenKind.isLayout]
  | @opener table opener houtside hmatch =>
    have htext := Spelling.firstMatch_take hmatch
    refine .of_visible (.bracket opener :: open_) ?_ ?_ ?_
    · simp [pushBracket, hpending, htext, Opening.followAll, Opening.follow,
        Opener.ofSpelling?_spelling]
    · simp only [take_frame, pushBracket]
      exact @InStep.bracket _ (.opened opener _ _) _ _ inStep houtside
    · simp [pushBracket, hpending, TokenKind.isLayout]
  | @call m _ table houtside hmatch hcallable hm harguments =>
    obtain ⟨captured, hcaptured, hkinds⟩ := harguments.pending
    obtain ⟨_, hmodes, _, _, _, _, hfloor, _⟩ := harguments.progress
    have htext := Spelling.firstMatch_take hmatch
    have hopening : Opening.followAll open_ m.pending = some (.bracket .bangParen :: open_) := by
      simp [hm, pushBracket, hpending, htext, Opening.followAll, Opening.follow,
        Opener.ofSpelling?_spelling]
    have hparams : Opening.followAll (.bracket .bangParen :: open_) captured =
        some (.bracket .bangParen :: open_) :=
      followAll_neutral fun token htoken => neutral_macroParam (hkinds token htoken)
    refine .of_visible (.bracket .bangParen :: open_) ?_ ?_ ?_
    · rw [hcaptured, followAll_append, hopening, Option.bind_some, hparams]
    · rw [hmodes, hfloor]
      simp only [hm, take_frame, pushBracket]
      exact .bracket inStep houtside
    · intro token htoken
      rw [hcaptured] at htoken
      rcases List.mem_append.mp htoken with htoken | htoken
      · simp only [hm, take_frame, pushBracket, hpending, List.nil_append,
          List.mem_singleton] at htoken
        rw [htoken]
        rfl
      · rw [hkinds token htoken]
        rfl
  | @rawCommand m n table top brackets raw rest houtside hcommand hmatch hm hbrackets hcapture
      hfloor hrest =>
    have reads := hcapture.readsOn
    refine .of_neutral ?_ ?_
    · simpa [push, reads.modes, hfloor, hm] using inStep
    · simp only [push, reads.pending, hm, take_frame, hpending, List.nil_append, List.mem_append,
        List.mem_singleton, forall_eq_or_imp, forall_eq]
      exact ⟨neutral_sign hmatch rfl (by decide), neutral_macroParam rfl⟩
  | announce houtside hhost hmatch =>
    refine .of_neutral (by simpa using inStep) ?_
    simp only [take_frame, hpending, List.nil_append, List.mem_singleton, forall_eq]
    exact neutral_sign hmatch rfl (by decide)
  | @spec m table houtside hmatch hfield hm =>
    obtain hmodes | ⟨depth, below, hmodes⟩ := houtside
    · simp [atFieldLevel, hmodes] at hfield
    · simp only [atFieldLevel, hmodes, BracketStack.depth, beq_iff_eq] at hfield
      subst hfield
      rw [hmodes] at inStep
      refine .of_neutral ?_ ?_
      · simp only [pushMode, hm, take_frame, hmodes]
        exact .spec inStep
      · simp only [pushMode, hm, take_frame, hpending, List.nil_append, List.mem_singleton,
          forall_eq]
        exact neutral_sign hmatch rfl (by decide)
  | @bodyLine m n table text houtside hmatch hfield hheader hbrackets hm hidle hgathers =>
    have reads := hgathers.readsOn
    refine .of_neutral ?_ ?_
    · simpa [endCapturedLine, skipLine, advance, reads.modes, hgathers.brackets, hm] using inStep
    · simp only [endCapturedLine, skipLine, advance, addToken_frame, reads.pending, hm, take_frame,
        hpending, List.nil_append, List.mem_append, List.mem_singleton, forall_eq_or_imp, forall_eq]
      exact ⟨neutral_sign hmatch rfl (by decide), neutral_macroParam rfl⟩
  | @bodyBlock m n table text first houtside hmatch hfield hheader hbrackets hm hidle hgathers =>
    have reads := (readsOn_advance m m.rest.length).trans hgathers.readsOn
    have hsame : n.brackets = m.brackets := hgathers.brackets
    refine .of_neutral ?_ ?_
    · simpa [endCapturedLine, reads.modes, hsame, hm] using inStep
    · simp only [endCapturedLine, addToken_frame, reads.pending, hm, take_frame,
        hpending, List.nil_append, List.mem_append, List.mem_singleton, forall_eq_or_imp, forall_eq]
      exact ⟨neutral_sign hmatch rfl (by decide), neutral_macroParam rfl⟩

/-! ### What the merged stack says about the two -/

/-- The depth of the brace that opened a replacement field. -/
def fieldDepth? : LexMode → Option Nat
  | .fstringField depth => some depth
  | _ => none

/-- The modes fit the brackets. -/
structure Fits (modes : List LexMode) (brackets : BracketStack) : Prop where
  /-- A field points at the brace that opened it. -/
  field : ∀ depth, .fstringField depth ∈ modes → ∃ inner bracket outer,
    brackets = inner ++ bracket :: outer ∧ BracketStack.depth (bracket :: outer) = depth ∧
    bracket.opener = .brace ∧ bracket.holds = .host ∧ bracket.closer = '\x7d'
  /-- Inner fields are deeper. -/
  increasing : (modes.filterMap fieldDepth?).Pairwise (· > ·)
  /-- A specification stands on its field, in none of its brackets. -/
  spec : ∀ inner text start outer, modes = inner ++ .fstringSpec text start :: outer →
    ∃ depth below, outer = .fstringField depth :: below ∧ (inner = [] → brackets.depth = depth)
  /-- Nothing opens inside a plain string. -/
  string : ∀ inner quote text start line outer,
    modes = inner ++ .string quote text start line :: outer → inner = []

namespace Fits

variable {modes : List LexMode} {brackets : BracketStack}

theorem depth_le (fits : Fits modes brackets) {depth : Nat}
    (hdepth : depth ∈ modes.filterMap fieldDepth?) : depth ≤ brackets.depth := by
  obtain ⟨mode, hmode, hfield⟩ := List.mem_filterMap.mp hdepth
  cases mode with
  | fstringField depth' =>
    obtain rfl := Option.some.inj hfield
    obtain ⟨inner, bracket, outer, hbrackets, rfl, _⟩ := fits.field _ hmode
    simp [hbrackets, BracketStack.depth]
  | _ => cases hfield

theorem push_bracket (fits : Fits modes brackets) (bracket : Bracket)
    (hspec : ∀ text start outer, modes ≠ .fstringSpec text start :: outer) :
    Fits modes (bracket :: brackets) where
  field depth hdepth := by
    obtain ⟨inner, brace, outer, rfl, hbrace⟩ := fits.field depth hdepth
    exact ⟨bracket :: inner, brace, outer, rfl, hbrace⟩
  increasing := fits.increasing
  spec inner text start outer hmodes := by
    obtain ⟨depth, below, houter, _⟩ := fits.spec inner text start outer hmodes
    refine ⟨depth, below, houter, ?_⟩
    rintro rfl
    exact absurd hmodes (hspec text start outer)
  string := fits.string

theorem push_literal (fits : Fits modes brackets) {mode : LexMode}
    (houtside : modes = [] ∨ ∃ depth below, modes = .fstringField depth :: below)
    (hfield : fieldDepth? mode = none)
    (hspec : ∀ text start, mode = .fstringSpec text start →
      ∃ below, modes = .fstringField brackets.depth :: below) :
    Fits (mode :: modes) brackets where
  field depth hdepth := by
    rcases List.mem_cons.mp hdepth with rfl | hdepth
    · cases hfield
    · exact fits.field depth hdepth
  increasing := by
    rw [List.filterMap_cons_none hfield]
    exact fits.increasing
  spec inner text start outer hmodes := by
    cases inner with
    | nil =>
      obtain ⟨rfl, rfl⟩ := List.cons.inj hmodes
      obtain ⟨below, hbelow⟩ := hspec text start rfl
      exact ⟨_, below, hbelow, fun _ => rfl⟩
    | cons first inner =>
      obtain ⟨rfl, hinner⟩ := List.cons.inj hmodes
      obtain ⟨depth, below, houter, _⟩ := fits.spec inner text start outer hinner
      exact ⟨depth, below, houter, fun hnil => by cases hnil⟩
  string inner quote text start line outer hmodes := by
    cases inner with
    | nil => rfl
    | cons first inner =>
      obtain ⟨rfl, hinner⟩ := List.cons.inj hmodes
      obtain rfl := fits.string inner quote text start line outer hinner
      rcases houtside with hnone | ⟨depth, below, hfields⟩
      · rw [hnone] at hinner
        cases hinner
      · rw [hfields] at hinner
        cases hinner

theorem push_field {mode : LexMode} (fits : Fits (mode :: modes) brackets) (position : Position)
    (hstring : ∀ quote text start line, mode ≠ .string quote text start line) :
    Fits (.fstringField (brackets.length + 1) :: mode :: modes)
      (⟨.brace, .host, position⟩ :: brackets) where
  field depth hdepth := by
    rcases List.mem_cons.mp hdepth with heq | hdepth
    · obtain rfl := LexMode.fstringField.inj heq
      exact ⟨[], _, brackets, rfl, rfl, rfl, rfl, rfl⟩
    · obtain ⟨inner, brace, outer, rfl, hbrace⟩ := fits.field depth hdepth
      exact ⟨_ :: inner, brace, outer, rfl, hbrace⟩
  increasing := by
    rw [List.filterMap_cons_some (f := fieldDepth?) (b := brackets.length + 1) rfl,
      List.pairwise_cons]
    exact ⟨fun depth hdepth => Nat.lt_succ_of_le (fits.depth_le hdepth), fits.increasing⟩
  spec inner text start outer hmodes := by
    cases inner with
    | nil => cases hmodes
    | cons first inner =>
      obtain ⟨rfl, hinner⟩ := List.cons.inj hmodes
      obtain ⟨depth, below, houter, _⟩ := fits.spec inner text start outer hinner
      exact ⟨depth, below, houter, fun hnil => by cases hnil⟩
  string inner quote text start line outer hmodes := by
    cases inner with
    | nil => rfl
    | cons first inner =>
      obtain ⟨rfl, hinner⟩ := List.cons.inj hmodes
      obtain rfl := fits.string inner quote text start line outer hinner
      obtain ⟨rfl, _⟩ := List.cons.inj hinner
      exact absurd rfl (hstring quote text start line)

end Fits

theorem InStep.fits {modes : List LexMode} {brackets : BracketStack} {open_ : List Opening}
    (inStep : InStep modes brackets open_) : Fits modes brackets := by
  induction inStep with
  | start =>
    refine ⟨?_, List.Pairwise.nil, ?_, ?_⟩
    · simp
    · simp
    · simp
  | bracket _ houtside induction =>
    refine induction.push_bracket _ ?_
    rintro text start outer rfl
    simp at houtside
  | string _ houtside induction =>
    exact induction.push_literal houtside rfl fun _ _ hspec => by cases hspec
  | text _ houtside induction =>
    exact induction.push_literal houtside rfl fun _ _ hspec => by cases hspec
  | field _ hliteral induction =>
    refine induction.push_field _ ?_
    rintro quote text start line rfl
    simp at hliteral
  | spec _ induction =>
    exact induction.push_literal (.inr ⟨_, _, rfl⟩) rfl fun _ _ _ => ⟨_, rfl⟩

/-! ### Runs -/

/-- Nothing follows the end marker. -/
def MarkerLast (l : Lexer) : Prop :=
  ∀ before marker after, l.pending = before ++ marker :: after → marker.kind = .endMarker →
    l.finished = true ∧ after = []

def FoundInStep (found : List Token) (l : Lexer) : Prop :=
  ∃ open_, Opening.followAll [] found = some open_ ∧ InStep l.modes l.brackets open_ ∧
    ((l.finished = true ∨ ∃ token ∈ l.pending, token.kind.isLayout = true) →
      l.modes = [] ∧ l.brackets = []) ∧
    MarkerLast l

theorem markerLast_close (l : Lexer) (hpending : l.pending = []) : MarkerLast l.close := by
  have hkinds : ∀ token ∈ l.missingNewline ++ List.replicate (l.indents.length - 1)
      ⟨.dedent, "", l.sourceEnd, l.sourceEnd, l.lineText⟩, token.kind ≠ .endMarker := by
    intro token htoken
    rcases List.mem_append.mp htoken with htoken | htoken
    · unfold missingNewline at htoken
      split at htoken
      · simp [List.mem_singleton.mp htoken]
      · simp at htoken
    · simp [List.eq_of_mem_replicate htoken]
  intro before marker after hsplit hmarker
  refine ⟨by simp, ?_⟩
  rw [close_pending, hpending, List.nil_append, closingTokens,
    ← List.append_assoc] at hsplit
  obtain ⟨hafter, _⟩ | ⟨middle, _, hfound⟩ := Lexer.append_singleton_eq_split hsplit
  · exact hafter
  · exact absurd hmarker (hkinds marker (by rw [hfound]; simp))

theorem Moves.endMarker_of_finished {l l' : Lexer} (moves : Moves l l')
    (hworks : l.finished = false) (hfinished : l'.finished = true) :
    ∃ token ∈ l'.pending, token.kind.isLayout = true := by
  rcases (moves.progress hworks).ends with hsame | ⟨rfl, _⟩
  · rw [hsame, hworks] at hfinished
    cases hfinished
  · exact ⟨⟨.endMarker, "", l.sourceEnd, l.sourceEnd, ""⟩, by simp [closingTokens], rfl⟩

theorem foundInStep : Invariant FoundInStep where
  move := by
    rintro found l l' ⟨open_, hfollow, inStep, _⟩ hpending hworks moves
    obtain ⟨rest, hrest, inStep', hlayout, hmarkers⟩ := moves.stepsTo hpending inStep
    refine ⟨rest, ?_, inStep', ?_, ?_⟩
    · rw [followAll_append, hfollow]
      exact hrest
    · rintro (hfinished | htoken)
      · exact hlayout (moves.endMarker_of_finished hworks hfinished)
      · exact hlayout htoken
    · intro before marker after hsplit hmarker
      have hfinished := hmarkers marker (by rw [hsplit]; simp) hmarker
      obtain hsame | ⟨rfl, _⟩ := (moves.progress hworks).ends
      · rw [hsame, hworks] at hfinished
        cases hfinished
      · exact markerLast_close l hpending before marker after hsplit hmarker
  handOut := by
    rintro found l token pending ⟨open_, hfollow, inStep, hlayout, hlast⟩ hpending
    refine ⟨open_, hfollow, inStep, ?_, ?_⟩
    · rintro (hfinished | ⟨later, hlater, hkind⟩)
      · exact hlayout (.inl hfinished)
      · exact hlayout (.inr ⟨later, hpending ▸ List.mem_cons_of_mem _ hlater, hkind⟩)
    · intro before marker after hsplit
      exact hlast (token :: before) marker after (by rw [hpending, List.cons_append, ← hsplit])
  sourceEnd := by
    rintro found l ⟨open_, hfollow, inStep, hlayout, hlast⟩ hpending hfinished
    obtain ⟨hmodes, hbrackets⟩ := hlayout (.inl hfinished)
    have hnone := inStep
    rw [hmodes, hbrackets] at hnone
    obtain rfl := (hnone.nil_of_brackets_nil (.inl rfl)).2
    refine ⟨[], ?_, inStep, hlayout, hlast⟩
    rw [followAll_append, hfollow]
    rfl

variable {source : Source} {tabSize : Nat} {tokens : List Token} {l : Lexer}

theorem Reaches.foundInStep (reached : Reaches source tabSize tokens l) :
    FoundInStep (tokens ++ l.pending) l :=
  Lexer.foundInStep.reaches ⟨[], rfl, .start, by simp [ofSource], by simp [MarkerLast, ofSource]⟩
    reached

theorem Reaches.nothing_open_of_layout (reached : Reaches source tabSize tokens l) {l' : Lexer}
    {token : Token} (hpull : Lexer.pull l = .ok token l') (hlayout : token.kind.isLayout = true) :
    l'.modes = [] ∧ l'.brackets = [] := by
  obtain ⟨m, works, hfound⟩ := works_of_pull reached.toCome_lt hpull
  obtain ⟨open_, _, _, hempty, _⟩ := Lexer.foundInStep.works works reached.foundInStep
  obtain ⟨pending, hpending, rfl⟩ | ⟨_, hfinished, _, rfl⟩ := hfound
  · exact hempty (.inr ⟨token, by simp [hpending], hlayout⟩)
  · exact hempty (.inl hfinished)

theorem Reaches.ended (reached : Reaches source tabSize tokens l) {program : List Token}
    {marker : Token} (htokens : tokens = program ++ [marker]) (hmarker : marker.kind = .endMarker) :
    l.finished = true ∧ l.pending = [] := by
  cases reached with
  | start => simp at htokens
  | pull reached hpull =>
    obtain ⟨_, hlast⟩ := List.append_inj' htokens rfl
    obtain rfl := (List.cons.inj hlast).1
    obtain ⟨m, works, hfound⟩ := works_of_pull reached.toCome_lt hpull
    obtain ⟨_, _, _, _, markerLast⟩ := Lexer.foundInStep.works works reached.foundInStep
    obtain ⟨pending, hpending, rfl⟩ | ⟨hpending, hfinished, _, rfl⟩ := hfound
    · exact markerLast [] _ pending (by rw [hpending]; rfl) hmarker
    · exact ⟨hfinished, hpending⟩

/-- The last token of a source that can be read to its end is the end marker, and it stands
outside all brackets and literals, as every layout token does. -/
theorem wellNested_of_reaches (reached : Reaches source tabSize tokens l)
    {program : List Token} {marker : Token} (htokens : tokens = program ++ [marker])
    (hmarker : marker.kind = .endMarker) : WellNested tokens := by
  obtain ⟨open_, hfollow, _, _⟩ := reached.foundInStep
  rw [followAll_append, Option.bind_eq_some_iff] at hfollow
  obtain ⟨rest, hrest, _⟩ := hfollow
  rw [htokens, followAll_append, Option.bind_eq_some_iff] at hrest
  obtain ⟨before, hbefore, hlast⟩ := hrest
  rw [WellNested, htokens, followAll_append, hbefore]
  cases before with
  | nil => simp [Opening.followAll, Opening.follow, hmarker]
  | cons opening before => simp [Opening.followAll, Opening.follow, hmarker] at hlast

theorem wellNested_of_allTokens {program : List Token}
    (hprogram : (ofSource source tabSize).allTokens = .ok program) : WellNested program := by
  obtain ⟨l, reached, before, marker, htokens, hmarker, _⟩ := reaches_of_allTokens hprogram
  exact wellNested_of_reaches reached htokens hmarker

/-- In every state that the lexer reaches, its modes fit its brackets. So the brackets and the
f-strings among the tokens of a source form one well-nested sequence, and every layout token is
handed out outside all of them. -/
theorem stacks_in_step (source : Source) (tabSize : Nat) :
    (∀ tokens l, Reaches source tabSize tokens l → Fits l.modes l.brackets) ∧
    (∀ tokens l token l', Reaches source tabSize tokens l → pull l = .ok token l' →
      token.kind.isLayout = true → l'.modes = [] ∧ l'.brackets = []) ∧
    ∀ tokens, (ofSource source tabSize).allTokens = .ok tokens → WellNested tokens := by
  refine ⟨?_, ?_, ?_⟩
  · intro tokens l reached
    obtain ⟨_, _, inStep, _⟩ := reached.foundInStep
    exact inStep.fits
  · intro tokens l token l' reached hpull hlayout
    exact reached.nothing_open_of_layout hpull hlayout
  · exact fun tokens => wellNested_of_allTokens

theorem stacks_in_step_field_in_literal :
    ∃ tokens, (ofSource (.ofString "f\"\x7ba[1]:\x7bb\x7d\x7d\"") 8).allTokens = .ok tokens ∧
      tokens.map (·.text) = ["f\"", "\x7b", "a", "[", "1", "]", ":", "\x7b", "b", "\x7d",
        "\x7d", "\"", "", ""] ∧
      WellNested tokens := by
  have htexts : ((ofSource (.ofString "f\"\x7ba[1]:\x7bb\x7d\x7d\"") 8).allTokens.toOption.map
      fun tokens => tokens.map (·.text)) = some ["f\"", "\x7b", "a", "[", "1", "]", ":", "\x7b",
        "b", "\x7d", "\x7d", "\"", "", ""] := by decide +kernel
  cases htokens : (ofSource (.ofString "f\"\x7ba[1]:\x7bb\x7d\x7d\"") 8).allTokens with
  | error e => simp [htokens, Except.toOption] at htexts
  | ok tokens =>
    refine ⟨tokens, rfl, ?_, (stacks_in_step _ _).2.2 tokens htokens⟩
    simpa [htokens, Except.toOption] using htexts

end Lexer

end ShellSyntax
