import ShellSyntax.Proofs.Lexer.RawText

/-! Every step that succeeds is a move. -/

namespace ShellSyntax.Lexer

open Outcome

/-! ### Lines -/

theorem startLine_freshLine (l : Lexer) (text : List Char) (unread : Source) :
    startLine (l.freshLine text unread) =
      (match (l.freshLine text unread).pastMargin.rest with
      | [] => pure ()
      | c :: _ =>
        if c == '#' then
          set (((l.freshLine text unread).pastMargin.take .comment
            (Lexeme.contentLength (l.freshLine text unread).pastMargin.rest)).takeRest .nl)
        else if Lexeme.isLineBreak c then set ((l.freshLine text unread).pastMargin.takeRest .nl)
        else indentTo (Lexeme.indentWidth l.tabSize (text.takeWhile Lexeme.isSpace)) : Lex Unit)
      (l.freshLine text unread).pastMargin :=
  rfl

theorem startLine_moves {l l' : Lexer} {text : List Char} {unread : Source} (hrest : l.rest = [])
    (hunread : l.unread = .text text :: unread) (hplace : l.AtStatement)
    (hstart : startLine (l.freshLine text unread) = .ok () l') : Moves l l' := by
  rw [startLine_freshLine] at hstart
  generalize hm : (l.freshLine text unread).pastMargin = m at hstart
  cases hend : m.rest with
  | nil =>
    simp only [hend, pure_ok, true_and] at hstart
    subst hstart
    exact .blankLine hrest hunread hplace hm.symm hend
  | cons c rest =>
    simp only [hend, beq_iff_eq, ite_ok, set_ok] at hstart
    split at hstart
    case isTrue hcomment =>
      subst hcomment hstart
      rw [← hend]
      exact .commentLine hrest hunread hplace hm.symm hend
    case isFalse hcomment =>
      split at hstart
      case isTrue hbreak =>
        subst hstart
        exact .emptyLine hrest hunread hplace hm.symm hend hbreak
      case isFalse hbreak =>
        rw [Bool.not_eq_true] at hbreak
        rw [indentTo, get_bind_ok] at hstart
        simp only [ite_ok, set_ok, List.contains_iff_mem, throw_ok] at hstart
        split at hstart
        case isTrue hdeeper =>
          subst hstart
          exact .indented hrest hunread hplace hm.symm hend rfl hdeeper hcomment hbreak
        case isFalse hnotDeeper =>
          split at hstart
          case isTrue hshallower =>
            split at hstart
            case isTrue hopen =>
              subst hstart
              exact .outdented hrest hunread hplace hm.symm hend rfl hshallower hopen hcomment
                hbreak
            case isFalse => exact hstart.elim
          case isFalse hnotShallower =>
            obtain ⟨_, rfl⟩ := pure_ok.mp hstart
            exact .level hrest hunread hplace hm.symm hend rfl (by omega) hcomment hbreak

theorem finish_moves {l l' : Lexer} (hrest : l.rest = []) (hunread : l.unread = [])
    (hfinish : finish l = .ok () l') : Moves l l' := by
  rw [finish, get_bind_ok] at hfinish
  cases hmodes : l.modes with
  | cons mode outer => cases mode <;> simp [hmodes] at hfinish
  | nil =>
    cases hbrackets : l.brackets with
    | cons top brackets => simp [hmodes, hbrackets] at hfinish
    | nil =>
      cases hcontinued : l.continued with
      | true => simp [hmodes, hbrackets, hcontinued] at hfinish
      | false =>
        simp only [hmodes, hbrackets, hcontinued, Bool.false_eq_true, if_false, set_ok] at hfinish
        subst hfinish
        exact .finish hrest hunread ⟨hmodes, hbrackets, hcontinued⟩

theorem takeLine_cases (l : Lexer) :
    (l.unread = [] ∧ takeLine l = .ok none l) ∨
      (∃ text unread, l.unread = .text text :: unread ∧
        takeLine l = .ok (some text) { l with unread }) ∨
      ∃ unread, l.unread = .undecodable :: unread ∧
        takeLine l = .error .undecodable { l with unread } := by
  cases hunread : l.unread with
  | nil => exact .inl ⟨rfl, by simp only [takeLine, run_bind, run_get, hunread]; rfl⟩
  | cons next unread =>
    cases next with
    | text text =>
      refine .inr (.inl ⟨text, unread, rfl, ?_⟩)
      simp only [takeLine, run_bind, run_get, hunread]
      rfl
    | undecodable =>
      refine .inr (.inr ⟨unread, rfl, ?_⟩)
      simp only [takeLine, run_bind, run_get, hunread]
      rfl

theorem goToNextLine_line {l : Lexer} {line : List Char} {unread : Source}
    (hunread : l.unread = .text line :: unread) :
    goToNextLine l =
      if l.modes.isEmpty && l.brackets.isEmpty && !l.continued then
        startLine (l.freshLine line unread)
      else .ok () (l.freshLine line unread) := by
  have htake : takeLine l = .ok (some line) { l with unread } := by
    simp only [takeLine, run_bind, run_get, hunread]
    rfl
  rw [goToNextLine, run_bind, htake]
  by_cases hplace : (l.modes.isEmpty && l.brackets.isEmpty && !l.continued) = true
  · rw [if_pos hplace]
    exact congrFun (if_pos hplace) _
  · rw [if_neg hplace]
    exact congrFun (if_neg hplace) _

theorem step_of_rest_nil {l : Lexer} (hrest : l.rest = []) : step l = goToNextLine l := by
  simp only [step, run_bind, run_get, hrest]
  rfl

theorem goToNextLine_moves {l l' : Lexer} (hrest : l.rest = [])
    (hstep : goToNextLine l = .ok () l') : Moves l l' := by
  unfold goToNextLine at hstep
  simp only [bind_ok, takeLine_ok] at hstep
  obtain ⟨_, _, ⟨rfl, hunread, rfl⟩ | ⟨text, unread, rfl, hunread, rfl⟩, hstep⟩ := hstep
  · exact finish_moves hrest hunread hstep
  · rw [get_bind_ok, set_bind_ok] at hstep
    change (if (l.modes.isEmpty && l.brackets.isEmpty && !l.continued) = true
      then startLine else pure ()) (l.freshLine text unread) = _ at hstep
    rw [ite_ok] at hstep
    split at hstep
    case isTrue hplace =>
      refine startLine_moves hrest hunread ?_ hstep
      simpa [AtStatement, and_assoc] using hplace
    case isFalse hplace =>
      obtain ⟨_, rfl⟩ := pure_ok.mp hstep
      refine .resumeLine hrest hunread ?_
      simpa [AtStatement, and_assoc] using hplace

/-! ### Literals -/

theorem resumeString_moves {l l' : Lexer} {quote : Quote} {text line : String} {start : Position}
    {outer : List LexMode} (hmodes : l.modes = .string quote text start line :: outer)
    (hrest : l.rest ≠ []) (hstep : resumeString quote text start line outer l = .ok () l') :
    Moves l l' := by
  rw [resumeString, get_bind_ok] at hstep
  cases hend : quote.closingEnd? l.rest with
  | some length =>
    simp only [hend, set_ok] at hstep
    subst hstep
    exact .stringEnd hmodes hrest hend
  | none =>
    simp only [hend, ite_ok, set_ok, throw_ok] at hstep
    split at hstep
    case isTrue hgoes =>
      subst hstep
      exact .stringLine hmodes hrest hend (by simpa using hgoes)
    case isFalse => exact hstep.elim

theorem resumeText_moves {l l' : Lexer} {quote : Quote} {text : String} {start : Position}
    {outer : List LexMode} (hmodes : l.modes = .fstringText quote text start :: outer)
    (hrest : l.rest ≠ []) (hstep : resumeText quote text start outer l = .ok () l') :
    Moves l l' := by
  rw [resumeText, get_bind_ok, set_bind_ok, get_bind_ok] at hstep
  dsimp only at hstep
  cases hscan : scanText quote 0 l.rest with
  | lineEnd =>
    simp only [hscan, set_ok] at hstep
    subst hstep
    exact .textLine hmodes hrest hscan
  | quote count =>
    simp only [hscan, set_ok] at hstep
    subst hstep
    exact .textEnd hmodes hrest rfl hscan
  | field count =>
    simp only [hscan, set_ok] at hstep
    subst hstep
    exact .textField hmodes hrest rfl hscan
  | lineBreak count => simp [hscan] at hstep

theorem resumeSpec_moves {l l' : Lexer} {text : String} {start : Position}
    {outer : List LexMode} (hmodes : l.modes = .fstringSpec text start :: outer)
    (hrest : l.rest ≠ []) (hstep : resumeSpec text start outer l = .ok () l') :
    Moves l l' := by
  rw [resumeSpec, get_bind_ok, set_bind_ok, get_bind_ok] at hstep
  dsimp only at hstep
  cases hscan : scanSpec 0 l.rest with
  | field count =>
    simp only [hscan, set_ok] at hstep
    subst hstep
    exact .specField hmodes hrest rfl hscan
  | close count =>
    simp only [hscan] at hstep
    rw [set_bind_ok, bind_ok] at hstep
    obtain ⟨_, _, hclose, hstep⟩ := hstep
    obtain ⟨top, brackets, hbrackets, htop, rfl⟩ := closeBracket_ok.mp hclose
    rw [modify_ok] at hstep
    subst hstep
    exact .specEnd hmodes hrest rfl hscan rfl hbrackets htop
  | broken count => simp [hscan] at hstep

theorem startString_moves {l l' : Lexer} {letters : List Char} {quote : Quote}
    (houtside : l.Outside) (hopening : StringLetters.opening? l.rest = some (letters, quote))
    (hstep : startString letters quote l = .ok () l') : Moves l l' := by
  rw [startString, get_bind_ok] at hstep
  cases hformatted : StringLetters.isFormatted letters with
  | true =>
    simp only [hformatted, if_true, set_ok] at hstep
    subst hstep
    exact .fstringStart houtside hopening hformatted rfl
  | false =>
    simp only [hformatted, Bool.false_eq_true, if_false] at hstep
    cases hend : quote.closingEnd? (l.rest.drop (letters.length + quote.size)) with
    | some length =>
      simp only [hend, set_ok] at hstep
      subst hstep
      exact .plain houtside (.string hopening hformatted hend)
    | none =>
      simp only [hend, ite_ok, set_ok, throw_ok] at hstep
      split at hstep
      case isTrue hgoes =>
        subst hstep
        exact .stringStart houtside hopening hformatted hend (by simpa using hgoes)
      case isFalse => exact hstep.elim

theorem scanSearch_moves {l l' : Lexer} {opening : Nat} (houtside : l.Outside)
    (hopening : Lexeme.searchOpening? l.rest = some opening)
    (hstep : scanSearch opening l = .ok () l') : Moves l l' := by
  rw [scanSearch, get_bind_ok] at hstep
  cases hend : Lexeme.searchEnd? (l.rest.drop opening) with
  | some length =>
    simp only [hend, set_ok] at hstep
    subst hstep
    exact .plain houtside (.pathSearch hopening hend)
  | none => simp [hend] at hstep

/-! ### Operators -/

theorem toCome_take_le (l : Lexer) (kind : TokenKind) (count : Nat) :
    (l.take kind count).toCome ≤ l.toCome := by
  simp [toCome]

theorem scanCloser_moves {l l' : Lexer} {table : List String} {text : String} {closer : Char}
    (houtside : l.Outside) (hmatch : Spelling.firstMatch table l.rest = some text)
    (hcloser : closer? text = some closer) (hstep : scanCloser closer l = .ok () l') :
    Moves l l' := by
  rw [scanCloser, get_bind_ok] at hstep
  simp only [bind_ok, modify_ok] at hstep
  obtain ⟨_, _, hclose, hstep⟩ := hstep
  obtain ⟨top, brackets, hbrackets, rfl, rfl⟩ := closeBracket_ok.mp hclose
  subst hstep
  exact .closer houtside hmatch hcloser hbrackets

theorem captureLine_moves {l l' : Lexer} (hbound : l.toCome < l.bound)
    (hstep : captureLine l = .ok () l') :
    ∃ n text, Gathers l l.rest n text ∧
      l' = (n.addToken .macroParam (String.ofList text) l.here n.lineEnd).skipLine.endCapturedLine := by
  rw [captureLine, get_bind_ok] at hstep
  simp only [bind_ok, modify_ok] at hstep
  obtain ⟨text, n, hgather, hstep⟩ := hstep
  exact ⟨n, text, gatherLine_moves hbound hgather, hstep.symm⟩

theorem captureBlock_moves {l l' : Lexer} (hbound : l.toCome < l.bound)
    (hstep : captureBlock l = .ok () l') :
    ∃ n text first, GathersBlock l.indent l.skipLine [] none n text (some first) ∧
      l' = { n.addToken .macroParam (String.ofList (Text.dedent text)) ⟨first, 0⟩ n.lineEnd with
        rest := [], column := 0 }.endCapturedLine := by
  rw [captureBlock, modify_bind_ok, get_bind_ok] at hstep
  have hskip : l.skipLine.toCome < l.skipLine.bound :=
    Nat.lt_of_le_of_lt (readsOn_advance l l.rest.length).toCome hbound
  simp only [bind_ok] at hstep
  obtain ⟨⟨text, first⟩, n, hgather, hstep⟩ := hstep
  have hmoves := gatherBlock_moves hskip hgather
  cases first with
  | none => simp at hstep
  | some first =>
    rw [modify_ok] at hstep
    exact ⟨n, text, first, hmoves, hstep.symm⟩

theorem scanColon_moves {l l' : Lexer} {table : List String} (hbound : l.toCome < l.bound)
    (houtside : l.Outside) (hmatch : Spelling.firstMatch table l.rest = some ":")
    (hstep : scanColon l = .ok () l') : Moves l l' := by
  rw [scanColon, get_bind_ok] at hstep
  simp only [ite_ok, set_ok] at hstep
  split at hstep
  case isTrue hfield =>
    subst hstep
    exact .spec houtside hmatch hfield rfl
  case isFalse hfield =>
    rw [Bool.not_eq_true] at hfield
    split at hstep
    case isTrue hbody =>
      obtain ⟨hheader, hbrackets⟩ := Bool.and_eq_true_iff.mp hbody
      rw [List.isEmpty_iff] at hbrackets
      rw [set_bind_ok, captureBody, get_bind_ok] at hstep
      generalize hm : ({ l with withHeader := false }.take .op 1) = m at hstep
      have hshorter : m.toCome < m.bound := by
        have hle := toCome_take_le { l with withHeader := false } .op 1
        have hsame : m.bound = l.bound := by simp [← hm]
        rw [hm] at hle
        rw [hsame]
        exact Nat.lt_of_le_of_lt hle hbound
      rw [ite_ok] at hstep
      split at hstep
      case isTrue hidle =>
        obtain ⟨n, text, first, hgathers, rfl⟩ := captureBlock_moves hshorter hstep
        exact .bodyBlock houtside hmatch hfield hheader hbrackets hm.symm hidle hgathers
      case isFalse hidle =>
        rw [Bool.not_eq_true] at hidle
        obtain ⟨n, text, hgathers, rfl⟩ := captureLine_moves hshorter hstep
        exact .bodyLine houtside hmatch hfield hheader hbrackets hm.symm hidle hgathers
    case isFalse =>
      subst hstep
      exact .plain houtside (.op hmatch rfl (by decide) (by decide))

theorem scanExclamation_moves {l l' : Lexer} {table : List String} (hbound : l.toCome < l.bound)
    (houtside : l.Outside) (hmatch : Spelling.firstMatch table l.rest = some "!")
    (hstep : scanExclamation l = .ok () l') : Moves l l' := by
  rw [scanExclamation, get_bind_ok] at hstep
  simp only [ite_ok, set_ok] at hstep
  split at hstep
  case isTrue hcommand =>
    rw [set_bind_ok, captureCommand, get_bind_ok] at hstep
    generalize hm : l.take .op 1 = m at hstep
    have hshorter : m.toCome < m.bound := by
      have hle := toCome_take_le l .op 1
      have hsame : m.bound = l.bound := by simp [← hm]
      rw [hm] at hle
      rw [hsame]
      exact Nat.lt_of_le_of_lt hle hbound
    cases hbrackets : m.brackets with
    | nil => simp [hbrackets] at hstep
    | cons top brackets =>
      simp only [hbrackets] at hstep
      obtain ⟨n, raw, rest, hcapture, hfloor, hrest, rfl⟩ :=
        captureCommandRest_moves hshorter hshorter (hbrackets ▸ List.suffix_refl _)
          (by rintro _ ⟨⟩; rfl) hstep
      refine .rawCommand houtside hcommand hmatch hm.symm hbrackets ?_ ?_ hrest
      · rw [hbrackets]
        exact hcapture
      · rw [hbrackets]
        exact hfloor
  case isFalse hhost =>
    subst hstep
    exact .announce houtside (by simpa using hhost) hmatch rfl

theorem captureCall_moves {l l' : Lexer} (hbound : l.toCome < l.bound)
    (hcloser : ∀ top ∈ l.brackets.head?, top.closer = ')')
    (hcapture : captureCall l = .ok () l') : Arguments l.brackets l (.empty l.here) l' := by
  rw [captureCall, get_bind_ok] at hcapture
  exact captureArguments_moves hbound hbound (List.suffix_refl _) hcloser hcapture

theorem scanOpener_moves {l l' : Lexer} {table : List String} {opener : Opener}
    (hbound : l.toCome < l.bound) (houtside : l.Outside)
    (hmatch : Spelling.firstMatch table l.rest = some opener.spelling)
    (hstep : scanOpener opener.spelling opener l = .ok () l') : Moves l l' := by
  rw [scanOpener, get_bind_ok] at hstep
  simp only [ite_ok, set_ok] at hstep
  split at hstep
  case isTrue hmacro =>
    obtain ⟨rfl, hcallable⟩ := hmacro
    rw [set_bind_ok] at hstep
    have htake := toCome_take_le (l.pushBracket ⟨.bangParen, .raw, l.here⟩) .op
      Opener.bangParen.spelling.length
    refine .call houtside hmatch hcallable rfl
      (captureCall_moves (Nat.lt_of_le_of_lt htake hbound) ?_ hstep)
    rintro _ ⟨⟩
    rfl
  case isFalse =>
    subst hstep
    exact .opener houtside hmatch

theorem spelling_of_ofSpelling? {text : String} {opener : Opener}
    (hopener : Opener.ofSpelling? text = some opener) : opener.spelling = text := by
  simpa using List.find?_some hopener

theorem scanOperator_moves {l l' : Lexer} {table : List String} {text : String}
    (hbound : l.toCome < l.bound) (houtside : l.Outside) (htable : table ⊆ Spelling.operators)
    (hmatch : Spelling.firstMatch table l.rest = some text)
    (hstep : scanOperator text l = .ok () l') : Moves l l' := by
  unfold scanOperator at hstep
  cases hcloser : closer? text with
  | some closer =>
    simp only [hcloser] at hstep
    exact scanCloser_moves houtside hmatch hcloser hstep
  | none =>
    simp only [hcloser, ite_ok] at hstep
    split at hstep
    case isTrue hcolon =>
      subst hcolon
      exact scanColon_moves hbound houtside hmatch hstep
    case isFalse =>
      split at hstep
      case isTrue hexclamation =>
        subst hexclamation
        exact scanExclamation_moves hbound houtside hmatch hstep
      case isFalse =>
        cases hopener : Opener.ofSpelling? text with
        | some opener =>
          simp only [hopener] at hstep
          obtain rfl := spelling_of_ofSpelling? hopener
          exact scanOpener_moves hbound houtside hmatch hstep
        | none =>
          simp only [hopener, modify_ok] at hstep
          subst hstep
          exact .plain houtside
            (.op hmatch hcloser hopener (htable (List.mem_of_find?_eq_some hmatch)))

/-! ### Tokens -/

theorem scanWord_moves {l l' : Lexer} {c : Char} {after : List Char}
    (hbound : l.toCome < l.bound) (houtside : l.Outside) (hcommand : l.brackets.inCommand = true)
    (hrest : l.rest = c :: after) (hspace : Lexeme.isSpace c = false)
    (hbreak : Lexeme.isLineBreak c = false)
    (hstep : (match Spelling.firstMatch Spelling.commandOperators l.rest with
      | some op => scanOperator op
      | _ =>
        match Lexeme.wordLength l.rest with
        | 0 => set (l.take .error 1)
        | length => set (l.take .word length) : Lex Unit) l = .ok () l') : Moves l l' := by
  cases hmatch : Spelling.firstMatch Spelling.commandOperators l.rest with
  | some text =>
    simp only [hmatch] at hstep
    exact scanOperator_moves hbound houtside (by decide) hmatch hstep
  | none =>
    simp only [hmatch] at hstep
    cases hlength : Lexeme.wordLength l.rest with
    | zero =>
      simp only [hlength, set_ok] at hstep
      subst hstep
      exact .plain houtside (.odd hrest hspace hbreak)
    | succ length =>
      simp only [hlength, set_ok] at hstep
      subst hstep
      exact .plain houtside (.word hcommand hlength)

theorem scanCommandToken_moves {l l' : Lexer} {c : Char} {after : List Char}
    (hbound : l.toCome < l.bound) (houtside : l.Outside) (hcommand : l.brackets.inCommand = true)
    (hrest : l.rest = c :: after) (hspace : Lexeme.isSpace c = false)
    (hbreak : Lexeme.isLineBreak c = false) (hstep : scanCommandToken l = .ok () l') :
    Moves l l' := by
  have words := @scanWord_moves l l' c after hbound houtside hcommand hrest hspace hbreak
  rw [scanCommandToken, get_bind_ok, ite_ok] at hstep
  split at hstep
  case h_1 c rest hvariable =>
    split at hstep
    case isTrue hnames =>
      rw [set_ok] at hstep
      subst hstep
      exact .envVariable houtside hcommand hvariable hnames
    case isFalse => exact words hstep
  case h_2 => exact words hstep

theorem scanHostToken_moves {l l' : Lexer} {c : Char} {after : List Char}
    (hbound : l.toCome < l.bound) (houtside : l.Outside) (hhost : l.brackets.inCommand = false)
    (hrest : l.rest = c :: after) (hspace : Lexeme.isSpace c = false)
    (hbreak : Lexeme.isLineBreak c = false) (hstep : scanHostToken l = .ok () l') :
    Moves l l' := by
  rw [scanHostToken, get_bind_ok, ite_ok] at hstep
  split at hstep
  case isTrue hnumber =>
    rw [set_ok] at hstep
    subst hstep
    exact .plain houtside (.number hnumber)
  case isFalse =>
    rw [ite_ok] at hstep
    split at hstep
    case isTrue hname =>
      rw [set_ok] at hstep
      subst hstep
      rw [hrest] at hname
      exact .plain houtside (.name hrest hname hhost)
    case isFalse =>
      cases hmatch : Spelling.firstMatch Spelling.operators l.rest with
      | some text =>
        simp only [hmatch] at hstep
        exact scanOperator_moves hbound houtside (List.Subset.refl _) hmatch hstep
      | none =>
        simp only [hmatch, set_ok] at hstep
        subst hstep
        exact .plain houtside (.odd hrest hspace hbreak)

theorem scanToken_moves {l l' : Lexer} (hbound : l.toCome < l.bound) (houtside : l.Outside)
    (hnonempty : l.rest ≠ []) (hstep : scanToken l = .ok () l') : Moves l l' := by
  rw [scanToken, get_bind_ok] at hstep
  cases hrest : l.rest with
  | nil => exact absurd hrest hnonempty
  | cons c after =>
    simp only [hrest, ite_ok, set_ok] at hstep
    rw [← hrest] at hstep
    split at hstep
    case isTrue hspace =>
      subst hstep
      exact .plain houtside (.space hrest hspace)
    case isFalse hspace =>
      rw [Bool.not_eq_true] at hspace
      split at hstep
      case isTrue hbreak =>
        subst hstep
        cases hbrackets : l.brackets with
        | nil => exact .plain houtside (.newline hrest hbreak hbrackets)
        | cons top brackets =>
          exact .plain houtside (.nl hrest hbreak (by simp [hbrackets]))
      case isFalse hbreak =>
        rw [Bool.not_eq_true] at hbreak
        split at hstep
        case isTrue hcontinues =>
          subst hstep
          rw [Bool.and_eq_true, beq_iff_eq] at hcontinues
          obtain ⟨rfl, hend⟩ := hcontinues
          exact .continuation houtside hrest hend
        case isFalse =>
          split at hstep
          case isTrue hcomment =>
            subst hstep
            simp only [Bool.and_eq_true, beq_iff_eq, Bool.not_eq_true'] at hcomment
            obtain ⟨rfl, hhost⟩ := hcomment
            exact .plain houtside (.comment hrest hhost)
          case isFalse =>
            cases hopening : StringLetters.opening? l.rest with
            | some literal =>
              simp only [hopening] at hstep
              exact startString_moves houtside hopening hstep
            | none =>
              cases hsearch : Lexeme.searchOpening? l.rest with
              | some opening =>
                simp only [hopening, hsearch] at hstep
                exact scanSearch_moves houtside hsearch hstep
              | none =>
                simp only [hopening, hsearch, ite_ok] at hstep
                split at hstep
                case isTrue hcommand =>
                  exact scanCommandToken_moves hbound houtside hcommand hrest hspace hbreak hstep
                case isFalse hhost =>
                  rw [Bool.not_eq_true] at hhost
                  exact scanHostToken_moves hbound houtside hhost hrest hspace hbreak hstep

theorem moves_of_step {l l' : Lexer} (hbound : l.toCome < l.bound) (hstep : step l = .ok () l') :
    Moves l l' := by
  rw [step, get_bind_ok, ite_ok] at hstep
  split at hstep
  case isTrue hrest => exact goToNextLine_moves (List.isEmpty_iff.mp hrest) hstep
  case isFalse hrest =>
    rw [List.isEmpty_iff] at hrest
    cases hmodes : l.modes with
    | nil =>
      simp only [hmodes] at hstep
      exact scanToken_moves hbound (.inl hmodes) hrest hstep
    | cons mode outer =>
      cases mode with
      | string quote text start line =>
        simp only [hmodes] at hstep
        exact resumeString_moves hmodes hrest hstep
      | fstringText quote text start =>
        simp only [hmodes] at hstep
        exact resumeText_moves hmodes hrest hstep
      | fstringSpec text start =>
        simp only [hmodes] at hstep
        exact resumeSpec_moves hmodes hrest hstep
      | fstringField depth =>
        simp only [hmodes] at hstep
        exact scanToken_moves hbound (.inr ⟨depth, outer, hmodes⟩) hrest hstep

end ShellSyntax.Lexer
