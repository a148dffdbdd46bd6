import ShellSyntax.Proofs.Parser.LineMoves

/-!
What the grammar sees of a source is laid out in logical lines.
-/

namespace ShellSyntax

namespace Lexer

variable {text : List Char} {found run : List Token} {l l' : Lexer}

/-! ### Runs -/

/-- What the grammar sees of the tokens found so far are lines and the beginning of one. -/
def Working (text : List Char) (found : List Token) (l : Lexer) : Prop :=
  ∃ laid run, found.filter Token.isVisible = laid ++ run ∧ Laid (MayBeEmpty text found) laid ∧
    (Between l ∧ run = [] ∨ Inside text found l run)

/-- What the grammar sees of all tokens are lines and end markers. -/
def Ended (text : List Char) (found : List Token) : Prop :=
  ∃ lines markers, found.filter Token.isVisible = lines ++ markers ∧
    Laid (MayBeEmpty text found) lines ∧ ∀ marker ∈ markers, marker.kind = .endMarker

theorem Working.move {open_ : List Opening} (working : Working text found l)
    (cursor : Cursor text l) (hplaced : l.rest ≠ [] → Placed text l)
    (inStep : InStep l.modes l.brackets open_) (hpending : l.pending = []) (moves : Moves l l')
    (hlive : l'.finished = false) : Working text (found ++ l'.pending) l' := by
  obtain ⟨laid, run, hfound, hlaid, hplace⟩ := working
  have hmore : Laid (MayBeEmpty text (found ++ l'.pending)) laid :=
    hlaid.mono fun _ hempty => hempty.mono _
  obtain ⟨between, rfl⟩ | inside := hplace
  · obtain ⟨laysOut, hnext⟩ := between.move found hpending moves hlive
    refine ⟨laid ++ l'.pending.filter Token.isVisible, [], ?_, laysOut laid hmore,
      hnext.imp_left fun between => ⟨between, rfl⟩⟩
    rw [List.filter_append, hfound]
    simp
  · obtain inside | ⟨between, laysOut⟩ := inside.move cursor hplaced inStep hpending moves hlive
    · refine ⟨laid, _, ?_, hmore, .inr inside⟩
      rw [List.filter_append, hfound, List.append_assoc]
    · refine ⟨_, [], ?_, laysOut laid hmore, .inl ⟨between, rfl⟩⟩
      rw [List.filter_append, hfound]
      simp

theorem Working.finish (working : Working text found l) (hrest : l.rest = [])
    (hplace : l.AtStatement) : Ended text (found ++ l.closingTokens) := by
  obtain ⟨laid, run, hfound, hlaid, hwhere⟩ := working
  have hmore : Laid (MayBeEmpty text (found ++ l.closingTokens)) laid :=
    hlaid.mono fun _ hempty => hempty.mono _
  have hvisible : l.closingTokens.filter Token.isVisible = l.closingTokens := by
    refine List.filter_eq_self.mpr fun token htoken => ?_
    have hkind : token.kind = .newline ∨ token.kind = .dedent ∨ token.kind = .endMarker := by
      simp only [closingTokens, missingNewline, List.mem_append, List.mem_replicate,
        List.mem_singleton] at htoken
      obtain htoken | ⟨_, rfl⟩ | rfl := htoken
      · split at htoken
        · exact .inl (by rw [List.mem_singleton.mp htoken])
        · cases htoken
      · exact .inr (.inl rfl)
      · exact .inr (.inr rfl)
    obtain hkind | hkind | hkind := hkind <;> simp [Token.isVisible, hkind]
  have hclosed : Laid (MayBeEmpty text (found ++ l.closingTokens))
      (laid ++ (run ++ l.missingNewline)) := by
    obtain ⟨between, rfl⟩ | inside := hwhere
    · simpa [missingNewline, between.quiet] using hmore
    · unfold missingNewline
      by_cases hneeds : l.needsNewline = true
      · rw [if_pos hneeds]
        refine inside.closes rfl (fun hrun => ?_) laid hmore
        have hnotFresh : ¬ l.Fresh := by
          rintro ⟨c, rest, hfresh, _⟩
          rw [hrest] at hfresh
          cases hfresh
        exact (inside.mayBeEmpty_of_closed (.inl hplace.1) hnotFresh hplace.2.2 hrun).mono _
      · have hrun : run = [] := by
          by_contra hsome
          exact hneeds (inside.loud hsome)
        simpa [hneeds, hrun] using hmore
  have hdedents : ∀ token ∈ List.replicate (l.indents.length - 1)
      (⟨.dedent, "", l.sourceEnd, l.sourceEnd, l.lineText⟩ : Token),
      token.kind = .indent ∨ token.kind = .dedent :=
    fun token htoken => .inr (by rw [List.eq_of_mem_replicate htoken])
  refine ⟨_, [⟨.endMarker, "", l.sourceEnd, l.sourceEnd, ""⟩], ?_, hclosed.blocks hdedents, by simp⟩
  rw [List.filter_append, hvisible, hfound, closingTokens]
  simp

/-- The tokens found so far are laid out in lines. -/
def KeepsLines (text : List Char) (found : List Token) (l : Lexer) : Prop :=
  KeepsCover text found l ∧ FoundInStep found l ∧
    if l.finished then Ended text found else Working text found l

theorem keepsLines_invariant (text : List Char) : Invariant (KeepsLines text) where
  move := by
    rintro found l l' ⟨keepsCover, inStep, hlines⟩ hpending hworks moves
    refine ⟨(keepsCover_invariant text).move keepsCover hpending hworks moves,
      foundInStep.move inStep hpending hworks moves, ?_⟩
    simp only [hworks, Bool.false_eq_true, if_false] at hlines
    split
    case isTrue hfinished =>
      obtain hsame | ⟨rfl, hrest, _, hplace⟩ := (moves.progress hworks).ends
      · rw [hsame, hworks] at hfinished
        cases hfinished
      · rw [close_pending, hpending, List.nil_append]
        exact hlines.finish hrest hplace
    case isFalse hlive =>
      obtain ⟨hcovers, _⟩ := keepsCover
      simp only [hworks, Bool.false_eq_true, if_false] at hcovers
      obtain ⟨p, _, cursor, frontier⟩ := hcovers
      obtain ⟨open_, _, nested, _⟩ := inStep
      exact hlines.move cursor frontier.placed nested hpending moves (Bool.eq_false_iff.mpr hlive)
  handOut := by
    rintro found l token pending ⟨keepsCover, inStep, hlines⟩ hpending
    refine ⟨(keepsCover_invariant text).handOut keepsCover hpending,
      foundInStep.handOut inStep hpending, ?_⟩
    change if l.finished then Ended text found else Working text found { l with pending }
    split at hlines
    case isTrue hfinished =>
      rw [if_pos hfinished]
      exact hlines
    case isFalse hlive =>
      rw [if_neg hlive]
      obtain ⟨laid, run, hfound, hlaid, ⟨between, hrun⟩ | inside⟩ := hlines
      · exact ⟨laid, run, hfound, hlaid, .inl ⟨⟨between.rest, between.place, between.quiet,
          between.header.leading, between.header.announced⟩, hrun⟩⟩
      · exact ⟨laid, run, hfound, hlaid, .inr ⟨inside.words,
          ⟨inside.header.leading, inside.header.announced⟩, inside.marked, inside.ends,
          inside.continued, inside.loud, inside.unbegun⟩⟩
  sourceEnd := by
    rintro found l ⟨keepsCover, inStep, hlines⟩ hpending hfinished
    refine ⟨(keepsCover_invariant text).sourceEnd keepsCover hpending hfinished,
      foundInStep.sourceEnd inStep hpending hfinished, ?_⟩
    rw [if_pos hfinished] at hlines ⊢
    obtain ⟨lines, markers, hfound, hlaid, hmarkers⟩ := hlines
    refine ⟨lines, markers ++ [.endMarker l.lineNumber], ?_, hlaid.mono fun _ h => h.mono _, ?_⟩
    · rw [List.filter_append, hfound, List.append_assoc]
      rfl
    · simpa [or_imp, forall_and] using ⟨hmarkers, rfl⟩

theorem keepsLines_start (text : List Char) (tabSize : Nat) :
    KeepsLines text [] (ofSource (.ofText text) tabSize) := by
  refine ⟨keepsCover_start text tabSize,
    ⟨[], rfl, .start, by simp [ofSource], by simp [MarkerLast, ofSource]⟩,
    [], [], rfl, .start, .inl ⟨⟨rfl, ⟨rfl, rfl, rfl⟩, rfl, ?_⟩, rfl⟩⟩
  exact ⟨by simp [ofSource], by simp [ofSource]⟩

end Lexer

/-! ### The lines of a source -/

theorem significant_lines {text : String} {tabSize : Nat} {raw : List Token}
    (hraw : (Lexer.ofSource (.ofString text) tabSize).allTokens = .ok raw) :
    ∃ lines marker, significant raw = lines ++ [marker] ∧ marker.kind = .endMarker ∧
      Laid (MayBeEmpty text.toList raw) lines := by
  obtain ⟨l, reached, program, marker, hsplit, hmarker, hprogram⟩ :=
    Lexer.reaches_of_allTokens hraw
  obtain ⟨hfinished, hpending⟩ := reached.ended hsplit hmarker
  obtain ⟨_, _, hlines⟩ := (Lexer.keepsLines_invariant text.toList).reaches
    (Lexer.keepsLines_start text.toList tabSize) reached
  rw [if_pos hfinished, hpending, List.append_nil] at hlines
  obtain ⟨lines, markers, hfound, hlaid, hmarkers⟩ := hlines
  have hvisible : marker.isVisible = true := by simp [Token.isVisible, hmarker]
  have hlast : raw.filter Token.isVisible = program.filter Token.isVisible ++ [marker] := by
    rw [hsplit, List.filter_append]
    simp [hvisible]
  -- no end marker stands among the lines, so the last token is the only one
  obtain rfl : lines = program.filter Token.isVisible := by
    rw [hlast] at hfound
    obtain rfl | ⟨others, final, rfl⟩ := List.eq_nil_or_concat markers
    · rw [List.append_nil] at hfound
      exact absurd hmarker (hlaid.ne_endMarker marker (by rw [← hfound]; simp))
    · rw [List.concat_eq_append, ← List.append_assoc] at hfound
      obtain ⟨hbefore, _⟩ := List.append_inj' hfound rfl
      cases others with
      | nil => rw [hbefore, List.append_nil]
      | cons first others =>
        have hfirst : first ∈ program.filter Token.isVisible := by rw [hbefore]; simp
        exact absurd (hmarkers first (by simp)) (hprogram first (List.mem_of_mem_filter hfirst))
  refine ⟨significant (program.filter Token.isVisible), marker, ?_, hmarker,
    hlaid.significant fun token htoken => List.of_mem_filter htoken⟩
  rw [← significant_filter, hlast]
  exact significant_kept hvisible (by simp [hmarker])

namespace TokenStream

open Outcome

theorem reads_of_next {source : Source} {tabSize : Nat} {handedOut : List Token} {token : Token}
    {s t : TokenStream} (reached : Lexer.Reaches source tabSize handedOut s.lexer)
    (htokens : s.tokens.toList = significant handedOut) (hindex : s.index = s.tokens.size)
    (hnext : next s = .ok token t) :
    ∃ dropped, Lexer.Reaches source tabSize (handedOut ++ (dropped ++ [token])) t.lexer ∧
      t.tokens.toList = significant (handedOut ++ (dropped ++ [token])) ∧
      t.index = t.tokens.size ∧ (∀ other ∈ dropped, other.kind ≠ .endMarker) ∧
      (t.lexer.weight < s.lexer.weight ∨ token.kind = .endMarker) := by
  simp only [TokenStream.next, TokenStream.peek, run_bind, run_get, if_pos hindex] at hnext
  cases hfill : fill s.lexer.bound s with
  | error e u => simp [hfill] at hnext
  | ok _ u =>
    obtain ⟨dropped, last, further, hconcat, hothers, hweight, hsame, _, hplace⟩ :=
      reads_of_fill reached htokens (reaches_weight_lt reached) hfill
    have hlast : u.tokens[u.index]? = some last := by
      rw [hsame, hplace, hindex, keep, Array.getElem?_push_size]
    simp only [hfill, run_pure, hlast, Option.getD_some, run_modify, EStateM.Result.ok.injEq]
      at hnext
    obtain ⟨rfl, rfl⟩ := hnext
    refine ⟨dropped, further, ?_, ?_, hothers, hweight⟩
    · rw [hconcat, ← htokens, hsame]
      simp [keep]
    · simp [hplace, hindex, hsame, keep]

theorem reads_of_drain {source : Source} {tabSize fuel : Nat} {handedOut : List Token}
    {s t : TokenStream} (reached : Lexer.Reaches source tabSize handedOut s.lexer)
    (htokens : s.tokens.toList = significant handedOut) (hindex : s.index = s.tokens.size)
    (hothers : ∀ token ∈ handedOut, token.kind ≠ .endMarker) (hfuel : s.lexer.weight < fuel)
    (hdrain : drain fuel s = .ok () t) :
    ∃ program marker, Lexer.Reaches source tabSize (program ++ [marker]) t.lexer ∧
      marker.kind = .endMarker ∧ (∀ token ∈ program, token.kind ≠ .endMarker) ∧
      t.tokens.toList = significant (program ++ [marker]) := by
  induction fuel generalizing s handedOut with
  | zero => exact absurd hfuel (Nat.not_lt_zero _)
  | succ fuel induction =>
    rw [drain, run_bind] at hdrain
    cases hnext : next s with
    | error e u => simp [hnext] at hdrain
    | ok token u =>
      obtain ⟨dropped, further, hsame, hplace, hdropped, hweight⟩ :=
        reads_of_next reached htokens hindex hnext
      have hbefore : ∀ other ∈ handedOut ++ dropped, other.kind ≠ .endMarker := by
        simpa [or_imp, forall_and] using ⟨hothers, hdropped⟩
      rw [← List.append_assoc] at further hsame
      simp only [hnext] at hdrain
      by_cases hmarker : token.kind = .endMarker
      · simp only [hmarker, bne_self_eq_false, Bool.false_eq_true, if_false, run_pure,
          EStateM.Result.ok.injEq, true_and] at hdrain
        subst hdrain
        exact ⟨_, token, further, hmarker, hbefore, hsame⟩
      · have hgoes : (token.kind != .endMarker) = true := by simpa using hmarker
        rw [if_pos hgoes] at hdrain
        refine induction further hsame hplace ?_ ?_ hdrain
        · simpa [or_imp, forall_and, hmarker] using hbefore
        · exact Nat.lt_of_lt_of_le (hweight.resolve_right hmarker) (Nat.le_of_lt_succ hfuel)

/-- The tokens that the grammar sees of a source are what is kept of its raw tokens. -/
theorem significantTokens_eq {source : String} {tokens : List Token}
    (htokens : significantTokens source = .ok tokens) :
    ∃ raw, (Lexer.ofSource (.ofString source) Lexer.defaultTabSize).allTokens = .ok raw ∧
      tokens = significant raw := by
  have fresh : Lexer.Reaches (.ofString source) Lexer.defaultTabSize []
      (ofString source Lexer.defaultTabSize).lexer := .start
  unfold significantTokens at htokens
  dsimp only at htokens
  split at htokens
  case h_2 => cases htokens
  case h_1 t hdrain =>
    obtain rfl := Except.ok.inj htokens
    obtain ⟨program, marker, reached, hmarker, hprogram, hsame⟩ :=
      reads_of_drain fresh rfl rfl (by simp) (reaches_weight_lt fresh) hdrain
    exact ⟨_, Lexer.allTokens_of_reaches reached hmarker hprogram, hsame⟩

/-- What the grammar sees of a source is laid out in logical lines: indents, dedents, and lines of
at least one token that end in a line end or, behind the head of a statement with a raw body, in
that body; then one end marker. Only on a physical line to which a backslash joins the one before,
or which holds white space that the lexer does not know, may a line end close nothing. No line end
directly follows another. -/
theorem lines_of_significantTokens (source : String) (tokens : List Token)
    (htokens : significantTokens source = .ok tokens) :
    ∃ raw, (Lexer.ofSource (.ofString source) Lexer.defaultTabSize).allTokens = .ok raw ∧
      ∃ lines marker, tokens = lines ++ [marker] ∧ marker.kind = .endMarker ∧
        Laid (MayBeEmpty source.toList raw) lines ∧
        (tokens.IsChain fun before token => ¬(before.kind = .newline ∧ token.kind = .newline)) ∧
        ∀ before closer after, tokens = before ++ closer :: after → closer.kind = .newline →
          (∃ token, before.getLast? = some token ∧ token.kind.isLayout = false) ∨
            MayBeEmpty source.toList raw closer.start.line := by
  obtain ⟨raw, hraw, rfl⟩ := significantTokens_eq htokens
  obtain ⟨lines, marker, hlines, hmarker, hlaid⟩ := significant_lines hraw
  refine ⟨raw, hraw, lines, marker, hlines, hmarker, hlaid, significant_newlines raw, ?_⟩
  intro before closer after hsplit hcloser
  rw [hlines] at hsplit
  obtain ⟨_, _, rfl⟩ | ⟨middle, _, hfound⟩ := Lexer.append_singleton_eq_split hsplit
  · rw [hmarker] at hcloser
    cases hcloser
  · exact hlaid.newline hfound hcloser

theorem lines_of_significantTokens_with_body :
    ∃ tokens raw lines marker,
      significantTokens "if a:\n  \\\n\n  with! b: c\n" = .ok tokens ∧
      tokens.map (·.text) = ["if", "a", ":", "\n", "", "\n", "with", "!", "b", ":", " c\n", "", ""] ∧
      tokens = lines ++ [marker] ∧
      Laid (MayBeEmpty "if a:\n  \\\n\n  with! b: c\n".toList raw) lines := by
  have htexts : (significantTokens "if a:\n  \\\n\n  with! b: c\n").toOption.map
      (·.map (·.text)) =
      some ["if", "a", ":", "\n", "", "\n", "with", "!", "b", ":", " c\n", "", ""] := by
    decide +kernel
  cases htokens : significantTokens "if a:\n  \\\n\n  with! b: c\n" with
  | error e => simp [htokens, Except.toOption] at htexts
  | ok tokens =>
    obtain ⟨raw, _, lines, marker, hlines, _, hlaid, _⟩ :=
      lines_of_significantTokens _ tokens htokens
    refine ⟨tokens, raw, lines, marker, rfl, ?_, hlines, hlaid⟩
    simpa [htokens, Except.toOption] using htexts

/-- A backslash alone on the first line makes the empty line below it a logical line. -/
theorem line_end_first_behind_backslash :
    (significantTokens "\\\n\nx\n").toOption.map (·.map (·.kind)) =
      some [.newline, .name, .newline, .endMarker] := by
  decide +kernel

end TokenStream

end ShellSyntax
