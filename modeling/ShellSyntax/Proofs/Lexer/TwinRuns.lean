import ShellSyntax.Proofs.Lexer.TwinSteps

/-!
Runs of a lexer on lines that end in line feeds, and on the same lines with returns: as far as the
first finds tokens, the second finds their twins.
-/

namespace ShellSyntax

open Text

variable {lines : List (List Char)}

namespace Lexer

open Outcome

variable {l l' : Lexer}

/-! ### Operators -/

theorem Twins.atFieldLevel (h : Twins lines l l') : l'.atFieldLevel = l.atFieldLevel := by
  unfold Lexer.atFieldLevel
  rw [h.modes, h.brackets, BracketStack.moved_depth]
  cases l.modes with
  | nil => rfl
  | cons mode outer => cases mode <;> rfl

/-- Whether something stands right behind the token before the cursor. -/
theorem Twins.recent_any (h : Twins lines l l') {p : PrecedingToken → Bool}
    (hp : ∀ r r', PrecedingToken.Twin lines r r' → p r' = p r)
    (hnamed : ∀ r, p r = true → r.isCallable = true ∨ r.isLeadingWith = true) :
    (l'.recent.any fun r => p r && r.stop == l'.here) =
      l.recent.any fun r => p r && r.stop == l.here := by
  have hrecent := h.recent
  cases hr : l.recent with
  | none =>
    rw [hr] at hrecent
    cases hr' : l'.recent with
    | none => rfl
    | some r' =>
      rw [hr'] at hrecent
      cases hrecent
  | some r =>
    rw [hr] at hrecent
    cases hr' : l'.recent with
    | none =>
      rw [hr'] at hrecent
      cases hrecent
    | some r' =>
      rw [hr'] at hrecent
      cases hrecent with
      | some twin =>
        rw [Option.any_some, Option.any_some, hp r r' twin]
        cases hsame : p r with
        | false => rfl
        | true =>
          rw [twin.stop (hnamed r hsame), h.here, Bool.true_and, Bool.true_and, Bool.eq_iff_iff,
            beq_iff_eq, beq_iff_eq]
          exact Position.moved_injective.eq_iff

theorem Twins.followsCallable (h : Twins lines l l') : l'.followsCallable = l.followsCallable :=
  h.recent_any (fun _ _ twin => twin.isCallable) fun _ => .inl

theorem scanCloser_follows (h : Twins lines l l') (hrest : l.rest ≠ []) (hshort : l.StopsShort 1)
    (closer : Char) : Follows (Twins lines) Eq l l' (scanCloser closer) (scanCloser closer) := by
  apply Follows.getBind
  dsimp only
  rw [h.atFieldLevel]
  refine .bind (closeBracket_follows h closer) ?_
  rintro ⟨⟩ ⟨⟩ m m' hclose _ _ hm
  obtain ⟨_, brackets, _, _, rfl⟩ := closeBracket_ok.mp hclose
  refine .modify (Twins.take (l := { l with brackets, modes := _ }) ?_ hrest .op hshort)
  refine { hm with modes := ?_, printed := ?_ }
  · rw [hm.modes]
    split
    · exact List.map_drop.symm
    · rfl
  · intro mode hmode
    refine hm.printed mode ?_
    dsimp only at hmode
    split at hmode
    · exact List.drop_subset _ _ hmode
    · exact hmode

theorem HasRoom.take (room : HasRoom l) (kind : TokenKind) (count : Nat) :
    HasRoom (l.take kind count) := by
  have hcome := toCome_take_le l kind count
  rw [HasRoom] at room ⊢
  simpa using by omega

theorem scanColon_follows (hlines : ∀ line ∈ lines, OneLine line) (h : Twins lines l l')
    (room : HasRoom l) (room' : HasRoom l') (hrest : l.rest ≠ []) (hshort : l.StopsShort 1) :
    Follows (Twins lines) Eq l l' scanColon scanColon := by
  have htaken := h.take hrest .op hshort
  have hheader : Twins lines { l with withHeader := false } { l' with withHeader := false } :=
    { h with withHeader := rfl }
  apply Follows.getBind
  refine .ite (by rw [h.atFieldLevel]) (fun _ => ?_) fun _ => .ite ?_ (fun _ => .setBind ?_) fun _ =>
    .set htaken
  · have hspec := htaken.pushMode (.fstringSpec "" (l.take .op 1).here) trivial
    rw [LexMode.returned, ← htaken.here] at hspec
    exact .set hspec
  · rw [h.withHeader, h.brackets, BracketStack.moved_isEmpty]
  · exact captureBody_follows hlines (hheader.take hrest .op hshort)
      (HasRoom.take (l := { l with withHeader := false }) room .op 1)
      (HasRoom.take (l := { l' with withHeader := false }) room' .op 1)

theorem scanExclamation_follows (hlines : ∀ line ∈ lines, OneLine line) (h : Twins lines l l')
    (room : HasRoom l) (room' : HasRoom l') (hrest : l.rest ≠ []) (hshort : l.StopsShort 1) :
    Follows (Twins lines) Eq l l' scanExclamation scanExclamation := by
  have hannounced : (l'.recent.any fun r => r.isLeadingWith && r.stop == l'.here) =
      l.recent.any fun r => r.isLeadingWith && r.stop == l.here :=
    h.recent_any (fun _ _ twin => twin.isLeadingWith) fun _ => .inr
  apply Follows.getBind
  refine .ite (by rw [h.brackets, BracketStack.moved_inCommand]) (fun _ => .setBind ?_) fun _ => ?_
  · exact captureCommand_follows hlines (h.take hrest .op hshort) (room.take .op 1) (room'.take .op 1)
  · have hheader (withHeader : Bool) : Twins lines { l with withHeader } { l' with withHeader } :=
      { h with withHeader := rfl }
    dsimp only
    rw [hannounced, h.withHeader]
    generalize (l.withHeader || _) = withHeader
    exact .set ((hheader withHeader).take hrest .op hshort)

theorem scanOpener_follows (hlines : ∀ line ∈ lines, OneLine line) (h : Twins lines l l')
    (room : HasRoom l) (room' : HasRoom l') (hrest : l.rest ≠ []) {op : String}
    (hshort : l.StopsShort op.length) (opener : Opener) :
    Follows (Twins lines) Eq l l' (scanOpener op opener) (scanOpener op opener) := by
  have hopened (bracket : Bracket) : Twins lines ((l.pushBracket bracket).take .op op.length)
      ((l'.pushBracket (bracket.moved lines)).take .op op.length) :=
    Twins.take (h.pushBracket bracket) hrest .op hshort
  apply Follows.getBind
  refine .ite (by rw [h.followsCallable]) (fun _ => .setBind ?_) fun _ => .set ?_
  · have hraw := hopened ⟨opener, .raw, l.here⟩
    rw [Bracket.moved, ← h.here] at hraw
    exact captureCall_follows hlines hraw
      (HasRoom.take (l := l.pushBracket ⟨opener, .raw, l.here⟩) room .op _)
      (HasRoom.take (l := l'.pushBracket ⟨opener, .raw, l'.here⟩) room' .op _)
  · have hplain := hopened (.opened opener l.brackets.realm l.here)
    rw [Bracket.moved, Bracket.opened, ← h.here] at hplain
    have hrealm : l'.brackets.realm = l.brackets.realm := by
      rw [h.brackets, BracketStack.moved_realm]
    rw [hrealm]
    exact hplain

theorem scanOperator_follows (hlines : ∀ line ∈ lines, OneLine line) (h : Twins lines l l')
    (room : HasRoom l) (room' : HasRoom l') (hrest : l.rest ≠ []) {table : List String} {op : String}
    (htable : table ⊆ Spelling.operators) (hmatch : Spelling.firstMatch table l.rest = some op) :
    Follows (Twins lines) Eq l l' (scanOperator op) (scanOperator op) := by
  have hfeed : '\n' ∉ l.rest.take op.length := by
    rw [Spelling.firstMatch_take hmatch]
    exact Spelling.operators_mark op (htable (List.mem_of_find?_eq_some hmatch))
  have hshort := stopsShort_of_take hfeed
  have hone : l.StopsShort 1 := stopsShort_of_take fun hmem => hfeed
    ((List.take_sublist_take_left (Spelling.firstMatch_leads hmatch).1).subset hmem)
  unfold scanOperator
  cases closer? op with
  | some closer => exact scanCloser_follows h hrest hone closer
  | none =>
    refine .ite Iff.rfl (fun _ => scanColon_follows hlines h room room' hrest hone) fun _ =>
      .ite Iff.rfl (fun _ => scanExclamation_follows hlines h room room' hrest hone) fun _ => ?_
    cases Opener.ofSpelling? op with
    | some opener => exact scanOpener_follows hlines h room room' hrest hshort opener
    | none => exact .modify (h.take hrest .op hshort)

/-! ### Tokens -/

theorem Twins.odd (h : Twins lines l l') {c : Char} {rest : List Char} (hrest : l.rest = c :: rest)
    (hbreak : Lexeme.isLineBreak c = false) : Twins lines (l.take .error 1) (l'.take .error 1) := by
  refine h.take (by simp [hrest]) .error (stopsShort_of_take ?_)
  have hc : c ≠ '\n' := by
    rintro rfl
    exact absurd hbreak (by decide)
  simpa [hrest] using hc.symm

theorem scanCommandToken_follows (hlines : ∀ line ∈ lines, OneLine line) (h : Twins lines l l')
    (room : HasRoom l) (room' : HasRoom l') {c : Char} {rest : List Char} (hrest : l.rest = c :: rest)
    (hbreak : Lexeme.isLineBreak c = false) :
    Follows (Twins lines) Eq l l' scanCommandToken scanCommandToken := by
  have hne : l.rest ≠ [] := by simp [hrest]
  have hnames : Lexeme.namesVariable l'.rest = Lexeme.namesVariable l.rest := by
    rw [h.rest, Lexeme.namesVariable_withReturns]
  have hmatches : Spelling.firstMatch Spelling.commandOperators l'.rest =
      Spelling.firstMatch Spelling.commandOperators l.rest := by
    rw [h.rest, Spelling.firstMatch_withReturns Spelling.commandOperators_printed]
  have hword : Lexeme.wordLength l'.rest = Lexeme.wordLength l.rest := by
    rw [h.rest, Lexeme.wordLength_withReturns h.oneLine]
  apply Follows.getBind
  rw [hmatches, hword]
  change Follows (Twins lines) Eq l l'
    (if Lexeme.namesVariable l.rest then
      set ((l.take .op 1).takeWhile .name Lexeme.continuesName) else _)
    (if Lexeme.namesVariable l'.rest then
      set ((l'.take .op 1).takeWhile .name Lexeme.continuesName) else _)
  refine .ite (by rw [hnames]) (fun hnamed => .set ?_) fun _ => ?_
  · obtain ⟨d, more, hvariable, _⟩ := Lexeme.rest_of_namesVariable hnamed
    have htaken := h.take hne .op (stopsShort_of_take (by simp [hvariable] : '\n' ∉ l.rest.take 1))
    exact htaken.takeWhile (by simp [hvariable]) .name (by decide) (by decide)
  · cases hmatch : Spelling.firstMatch Spelling.commandOperators l.rest with
    | some op => exact scanOperator_follows hlines h room room' hne (by decide) hmatch
    | none =>
      cases hlength : Lexeme.wordLength l.rest with
      | zero => exact .set (h.odd hrest hbreak)
      | succ length =>
        refine .set (h.take hne .word (stopsShort_of_take ?_))
        rw [← hlength]
        exact Lexeme.not_feed_word

theorem scanHostToken_follows (hlines : ∀ line ∈ lines, OneLine line) (h : Twins lines l l')
    (room : HasRoom l) (room' : HasRoom l') {c : Char} {rest : List Char} (hrest : l.rest = c :: rest)
    (hbreak : Lexeme.isLineBreak c = false) :
    Follows (Twins lines) Eq l l' scanHostToken scanHostToken := by
  have hne : l.rest ≠ [] := by simp [hrest]
  have hc : c ≠ '\n' := by
    rintro rfl
    exact absurd hbreak (by decide)
  have hrest' : l'.rest = c :: withReturns rest := by rw [h.rest, hrest, withReturns_cons hc]
  have hnumber : Lexeme.startsNumber l'.rest = Lexeme.startsNumber l.rest := by
    rw [h.rest, Lexeme.startsNumber_withReturns]
  have hlength : Lexeme.numberLength l'.rest = Lexeme.numberLength l.rest := by
    rw [h.rest, Lexeme.numberLength_withReturns]
  have hmatches : Spelling.firstMatch Spelling.operators l'.rest =
      Spelling.firstMatch Spelling.operators l.rest := by
    rw [h.rest, Spelling.firstMatch_withReturns Spelling.operators_printed]
  apply Follows.getBind
  rw [hnumber, hlength, hmatches]
  refine .ite Iff.rfl (fun _ => .set ?_) fun _ => .ite ?_ (fun _ => .set ?_) fun _ => ?_
  · exact h.take hne .number (stopsShort_of_take (Lexeme.not_mem_number (by decide)))
  · rw [hrest, hrest']
    rfl
  · exact h.takeWhile hne .name (by decide) (by decide)
  · cases hmatch : Spelling.firstMatch Spelling.operators l.rest with
    | some op => exact scanOperator_follows hlines h room room' hne (by decide) hmatch
    | none => exact .set (h.odd hrest hbreak)

theorem scanToken_follows (hlines : ∀ line ∈ lines, OneLine line) (h : Twins lines l l')
    (room : HasRoom l) (room' : HasRoom l') :
    Follows (Twins lines) Eq l l' scanToken scanToken := by
  apply Follows.getBind
  cases hrest : l.rest with
  | nil =>
    have hrest' : l'.rest = [] := by rw [h.rest, hrest, withReturns_nil]
    rw [hrest']
    exact .pure rfl h
  | cons c rest =>
    have hne : l.rest ≠ [] := by simp [hrest]
    have hempty : l'.brackets.isEmpty = l.brackets.isEmpty := by
      rw [h.brackets, BracketStack.moved_isEmpty]
    have hcommand : l'.brackets.inCommand = l.brackets.inCommand := by
      rw [h.brackets, BracketStack.moved_inCommand]
    by_cases hc : c = '\n'
    · subst hc
      have hone := h.oneLine
      rw [hrest] at hone
      rw [hone.eq_nil_of_feed] at hrest ⊢
      rw [(h.pastLineEnd hrest).1]
      refine .set ?_
      rw [hempty]
      refine h.takeLineEnd hrest ?_
      split
      · exact .inl rfl
      · exact .inr rfl
    · have hrest' : l'.rest = c :: withReturns rest := by rw [h.rest, hrest, withReturns_cons hc]
      have hone := h.oneLine
      rw [hrest] at hone
      have hend := Lexeme.atLineEnd_withReturns hone.tail
      have hopening : StringLetters.opening? (c :: withReturns rest) =
          StringLetters.opening? (c :: rest) := by
        rw [← withReturns_cons hc, StringLetters.opening?_withReturns]
      have hsearch : Lexeme.searchOpening? (c :: withReturns rest) =
          Lexeme.searchOpening? (c :: rest) := by
        rw [← withReturns_cons hc, Lexeme.searchOpening?_withReturns]
      have hcontent : Lexeme.contentLength (c :: withReturns rest) =
          Lexeme.contentLength (c :: rest) := by
        rw [← withReturns_cons hc, Lexeme.contentLength_withReturns hone]
      rw [hrest']
      refine .ite Iff.rfl (fun _ => .set (h.takeWhile hne .space (by decide) (by decide))) fun _ =>
        .ite Iff.rfl (fun hbreak => ?_) fun hbreak => .ite (by rw [hend]) (fun _ => .set ?_) fun _ =>
        .ite (by rw [hcommand]) (fun _ => .set ?_) fun _ => ?_
      · exact absurd hbreak (by simp [Lexeme.isLineBreak, hc, hone.not_return])
      · exact { h.skipLine with continued := rfl }
      · rw [hcontent, ← hrest]
        exact h.take hne .comment (Lexeme.getLast?_of_content)
      · rw [hopening, hsearch]
        cases hliteral : StringLetters.opening? (c :: rest) with
        | some literal => exact startString_follows h hne (hrest ▸ hliteral)
        | none =>
          cases hsearches : Lexeme.searchOpening? (c :: rest) with
          | some opening => exact scanSearch_follows h hne (hrest ▸ hsearches)
          | none =>
            exact .ite (by rw [hcommand])
              (fun _ => scanCommandToken_follows hlines h room room' hrest (by simpa using hbreak))
              fun _ => scanHostToken_follows hlines h room room' hrest (by simpa using hbreak)

/-! ### Layout -/

theorem indentTo_follows (h : Twins lines l l') (width : Nat) :
    Follows (Twins lines) Eq l l' (indentTo width) (indentTo width) := by
  have hindent : l'.indent = l.indent := by rw [indent, h.indents, indent]
  have hdeeper : Twins lines { l with indents := width :: l.indents }
      { l' with indents := width :: l'.indents } :=
    { h with indents := congrArg (width :: ·) h.indents }
  apply Follows.getBind
  rw [hindent]
  refine .ite Iff.rfl (fun _ => .set ?_) fun _ => .ite Iff.rfl (fun _ => .ite (by rw [h.indents])
    (fun _ => .set (h.leaveBlocks width)) fun _ => .throw _ _) fun _ => .pure rfl h
  exact hdeeper.addToken (.of_layout rfl h.here h.lineText)

theorem startLine_follows (h : Twins lines l l') :
    Follows (Twins lines) Eq l l' startLine startLine := by
  have hmargin : l'.rest.takeWhile Lexeme.isSpace = l.rest.takeWhile Lexeme.isSpace := by
    rw [h.rest, Lexeme.takeWhile_isSpace_withReturns]
  have hbehind : Twins lines
      ((l.measure l.rest).advance (l.rest.takeWhile Lexeme.isSpace).length)
      ((l'.measure l'.rest).advance (l.rest.takeWhile Lexeme.isSpace).length) := by
    by_cases hrest : l.rest = []
    · have hnone : (l.rest.takeWhile Lexeme.isSpace).length = 0 := by
        rw [hrest]
        rfl
      rw [hnone]
      exact h.measure _ _
    · exact (h.measure _ _).advance_of_no_feed hrest (Lexeme.not_feed_takeWhile (by decide))
  apply Follows.getBind
  dsimp only
  rw [hmargin]
  refine .setBind (.getBind ?_)
  generalize (l.measure l.rest).advance _ = m at hbehind ⊢
  generalize (l'.measure l'.rest).advance _ = m' at hbehind ⊢
  have hone := hbehind.oneLine
  cases hrest : m.rest with
  | nil =>
    have hrest' : m'.rest = [] := by rw [hbehind.rest, hrest, withReturns_nil]
    rw [hrest']
    exact .pure rfl hbehind
  | cons c rest =>
    rw [hrest] at hone
    by_cases hc : c = '\n'
    · subst hc
      rw [hone.eq_nil_of_feed] at hrest ⊢
      rw [(hbehind.pastLineEnd hrest).1]
      exact .set (hbehind.takeLineEnd hrest (.inr rfl))
    · have hrest' : m'.rest = c :: withReturns rest := by
        rw [hbehind.rest, hrest, withReturns_cons hc]
      have hcontent : Lexeme.contentLength (c :: withReturns rest) =
          Lexeme.contentLength (c :: rest) := by
        rw [← withReturns_cons hc, Lexeme.contentLength_withReturns hone]
      rw [hrest']
      refine .ite Iff.rfl (fun _ => .set ?_) fun _ => .ite Iff.rfl (fun hbreak => ?_) fun _ => ?_
      · rw [hcontent]
        have htaken : Twins lines (m.take .comment (Lexeme.contentLength (c :: rest)))
            (m'.take .comment (Lexeme.contentLength (c :: rest))) := by
          rw [← hrest]
          exact hbehind.take (by simp [hrest]) .comment Lexeme.getLast?_of_content
        have hleft : (m.take .comment (Lexeme.contentLength (c :: rest))).rest =
            (c :: rest).drop (Lexeme.contentLength (c :: rest)) := by simp [hrest]
        obtain hend | hend := Lexeme.drop_contentLength hone
        · exact htaken.takeNothing (hleft.trans hend)
        · exact htaken.takeLineEnd (hleft.trans hend) (.inr rfl)
      · exact absurd hbreak (by simp [Lexeme.isLineBreak, hc, hone.not_return])
      · rw [hbehind.tabSize]
        exact indentTo_follows hbehind _

theorem finish_follows (h : Twins lines l l') (hrest : l.rest = []) :
    Follows (Twins lines) Eq l l' finish finish := by
  have hmodes := h.modes
  apply Follows.getBind
  cases hmode : l.modes with
  | cons mode outer => cases mode <;> exact .throw _ _
  | nil =>
    rw [hmode] at hmodes
    rw [hmodes]
    cases hbrackets : l.brackets with
    | cons top brackets => exact .throw _ _
    | nil =>
      have hbrackets' : l'.brackets = [] := by
        rw [h.brackets, hbrackets]
        rfl
      rw [hbrackets']
      exact .ite (by rw [h.continued]) (fun _ => .throw _ _) fun _ => .set (h.close hrest)

theorem goToNextLine_sourceEnd (hunread : l.unread = []) : goToNextLine l = finish l := by
  have htake : takeLine l = .ok none l := by
    simp only [takeLine, run_bind, run_get, hunread]
    rfl
  rw [goToNextLine, run_bind, htake]

theorem goToNextLine_follows (hlines : ∀ line ∈ lines, OneLine line) (h : Twins lines l l')
    (hrest : l.rest = []) : Follows (Twins lines) Eq l l' goToNextLine goToNextLine := by
  intro done m hrun
  obtain ⟨_, hunread, hunread'⟩ | ⟨line, more, hdrop, hunread, hunread'⟩ := h.ahead
  · rw [goToNextLine_sourceEnd hunread] at hrun
    rw [goToNextLine_sourceEnd hunread']
    exact finish_follows h hrest done m hrun
  · have hmem : line ∈ lines := List.drop_subset _ _ (by rw [hdrop]; exact List.mem_cons_self)
    have hfresh : Twins lines (l.freshLine line (more.map .text))
        (l'.freshLine (withReturns line) (more.map fun line => .text (withReturns line))) :=
      { h.nextLine (hlines line hmem) hdrop with continued := rfl }
    have hplace : (l'.modes.isEmpty && l'.brackets.isEmpty && !l'.continued) =
        (l.modes.isEmpty && l.brackets.isEmpty && !l.continued) := by
      rw [h.modes, h.brackets, BracketStack.moved_isEmpty, h.continued, List.isEmpty_map]
    rw [goToNextLine_line hunread] at hrun
    rw [goToNextLine_line hunread', hplace]
    split
    case isTrue hstarts =>
      rw [if_pos hstarts] at hrun
      exact startLine_follows hfresh done m hrun
    case isFalse hgoes =>
      rw [if_neg hgoes] at hrun
      cases hrun
      exact ⟨_, _, rfl, rfl, hfresh⟩

theorem step_follows (hlines : ∀ line ∈ lines, OneLine line) (h : Twins lines l l')
    (room : HasRoom l) (room' : HasRoom l') : Follows (Twins lines) Eq l l' step step := by
  have hempty : l'.rest.isEmpty = l.rest.isEmpty := by
    rw [Bool.eq_iff_iff, h.rest, List.isEmpty_iff, List.isEmpty_iff, withReturns_eq_nil]
  have hmodes := h.modes
  have hprinted := h.printed
  apply Follows.getBind
  refine .ite (by rw [hempty]) (fun hrest => ?_) fun hrest => ?_
  · exact goToNextLine_follows hlines h (List.isEmpty_iff.mp hrest)
  · have hne : l.rest ≠ [] := mt List.isEmpty_iff.mpr hrest
    cases hmode : l.modes with
    | nil =>
      rw [hmode] at hmodes
      rw [hmodes]
      exact scanToken_follows hlines h room room'
    | cons mode outer =>
      rw [hmode] at hmodes hprinted
      obtain ⟨hquote, houter⟩ := List.forall_mem_cons.mp hprinted
      rw [hmodes]
      cases mode with
      | string quote text start line => exact resumeString_follows h hne hquote text start line houter
      | fstringText quote text start => exact resumeText_follows h hne hquote text start houter
      | fstringField depth => exact scanToken_follows hlines h room room'
      | fstringSpec text start => exact resumeSpec_follows h hne text start houter

/-! ### Runs -/

theorem work_follows (hlines : ∀ line ∈ lines, OneLine line) (h : Twins lines l l')
    (room : HasRoom l) (room' : HasRoom l') {fuel fuel' : Nat}
    (hfuel : l.toCome < fuel ∨ l.finished = true) (hfuel' : l'.toCome < fuel' ∨ l.finished = true) :
    Follows (Twins lines) Eq l l' (work fuel) (work fuel') := by
  induction fuel generalizing fuel' l l' with
  | zero =>
    have hfinished := hfuel.resolve_left (Nat.not_lt_zero _)
    intro done m hrun
    rw [work_finished hfinished] at hrun
    cases hrun
    exact ⟨_, _, work_finished (h.finished.trans hfinished) fuel', rfl, h⟩
  | succ fuel induction =>
    by_cases hfinished : l.finished = true
    · intro done m hrun
      rw [work_finished hfinished] at hrun
      cases hrun
      exact ⟨_, _, work_finished (h.finished.trans hfinished) fuel', rfl, h⟩
    · replace hfuel := hfuel.resolve_right hfinished
      replace hfuel' := hfuel'.resolve_right hfinished
      obtain ⟨fuel', rfl⟩ : ∃ rounds, fuel' = rounds + 1 := ⟨fuel' - 1, by omega⟩
      have hpending : l'.pending.isEmpty = l.pending.isEmpty := by
        have hlength := h.pending.length_eq
        rw [Bool.eq_iff_iff, List.isEmpty_iff_length_eq_zero, List.isEmpty_iff_length_eq_zero,
          hlength]
      unfold work
      apply Follows.getBind
      refine .ite (by rw [hpending, h.finished]) (fun _ => ?_) fun _ => .pure rfl h
      refine .bind (step_follows hlines h room room') ?_
      rintro ⟨⟩ ⟨⟩ m m' hstep hstep' _ hm
      have progress := (moves_of_step room hstep).progress (by simpa using hfinished)
      have progress' := (moves_of_step room' hstep').progress (by
        rw [h.finished]
        simpa using hfinished)
      have hcome := progress.toCome
      have hcome' := progress'.toCome
      have hbound := progress.bound
      have hbound' := progress'.bound
      have hreads := progress.reads
      have hreads' := progress'.reads
      rw [hm.finished] at hreads'
      rw [HasRoom] at room room'
      refine induction hm (Nat.lt_of_le_of_lt hcome (hbound ▸ room))
        (Nat.lt_of_le_of_lt hcome' (hbound' ▸ room')) ?_ ?_
      · exact hreads.imp_left (by omega)
      · exact hreads'.imp_left (by omega)

theorem twin_endMarker (n : Nat) : (Token.endMarker n).Twin lines (.endMarker n) :=
  .of_layout rfl rfl rfl

/-- As long as the first lexer finds tokens, the second finds their twins. -/
theorem pull_follows (hlines : ∀ line ∈ lines, OneLine line) (h : Twins lines l l')
    (room : HasRoom l) (room' : HasRoom l') :
    Follows (Twins lines) (Token.Twin lines) l l' pull pull := by
  refine .getBind (.bind (work_follows hlines h room room' (.inl room) (.inl room')) ?_)
  rintro ⟨⟩ ⟨⟩ m m' _ _ _ hm
  have hpending := hm.pending
  apply Follows.getBind
  cases hp : m.pending with
  | nil =>
    rw [hp, List.forall₂_nil_left_iff] at hpending
    rw [hpending, hm.lineNumber]
    exact .pure (twin_endMarker _) hm
  | cons token pending =>
    rw [hp, List.forall₂_cons_left_iff] at hpending
    obtain ⟨token', pending', htoken, hrest, hp'⟩ := hpending
    rw [hp']
    exact .setBind (.pure htoken { hm with pending := hrest })

end Lexer

end ShellSyntax
