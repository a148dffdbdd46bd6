import ShellSyntax.Proofs.Lexer.Additions
import ShellSyntax.Proofs.Lexer.Passing
import ShellSyntax.Proofs.Lexer.Shown

/-!
The words of a command. Where no word begins something else does, so no character of a command is
left over; and a word is as long as it can be, so no two words touch.
-/

namespace ShellSyntax.Lexer

open Lexeme Outcome

variable {l m : Lexer}

/-! ### Steps -/

theorem startString_kinds (l : Lexer) (letters : List Char) (quote : Quote) {token : Token}
    (hmem : token ∈ (final (startString letters quote l)).pending) :
    token ∈ l.pending ∨ token.kind = .fstringStart ∨ token.kind = .string := by
  simp only [startString, final_get_bind] at hmem
  split at hmem
  case isTrue =>
    rw [final_set] at hmem
    simp only [pushMode, take_pending, List.mem_append, List.mem_singleton] at hmem
    obtain hold | rfl := hmem
    · exact .inl hold
    · exact .inr (.inl rfl)
  case isFalse =>
    cases hend : quote.closingEnd? (l.rest.drop (letters.length + quote.size)) with
    | some length =>
      simp only [hend, final_set, take_pending, List.mem_append, List.mem_singleton] at hmem
      obtain hold | rfl := hmem
      · exact .inl hold
      · exact .inr (.inr rfl)
    | none =>
      simp only [hend] at hmem
      split at hmem
      · exact .inl hmem
      · exact .inl hmem

theorem resumeString_kinds (l : Lexer) (quote : Quote) (text : String) (start : Position)
    (line : String) (outer : List LexMode) {token : Token}
    (hmem : token ∈ (final (resumeString quote text start line outer l)).pending) :
    token ∈ l.pending ∨ token.kind = .string := by
  simp only [resumeString, final_get_bind] at hmem
  cases hend : quote.closingEnd? l.rest with
  | some length =>
    simp only [hend, final_set, push, List.mem_append, List.mem_singleton] at hmem
    obtain hold | rfl := hmem
    · exact .inl hold
    · exact .inr rfl
  | none =>
    simp only [hend] at hmem
    split at hmem
    · exact .inl hmem
    · exact .inl hmem

/-- What a step from `l` to `m` finds that is a word or a stray character. -/
inductive FindsWord (l m : Lexer) : Prop
  | none (hkinds : ∀ token ∈ m.pending, token.kind ≠ .word ∧ token.kind ≠ .error)
  | word (length : Nat) (hlength : wordLength l.rest = length + 1)
      (hm : m = l.take .word (length + 1))
  | stray (hhost : l.brackets.inCommand = false) (hm : m = l.take .error 1)

theorem NoNewBare.findsWord (noNew : NoNewBare l m) (hpending : l.pending = []) :
    FindsWord l m := by
  refine .none fun token hmem => ?_
  have hbare : token.kind.isBare ≠ true := fun hbare => by
    have hnone := noNew.found token hmem hbare
    rw [hpending] at hnone
    cases hnone
  constructor
  · rintro hkind
    exact hbare (hkind ▸ rfl)
  · rintro hkind
    exact hbare (hkind ▸ rfl)

theorem findsWord_of_step (hpending : l.pending = []) : FindsWord l (final (step l)) := by
  by_cases hrest : l.rest = []
  · rw [step_of_rest_nil hrest]
    exact (goToNextLine_noNewBare l).findsWord hpending
  · cases withinLine_of_rest hrest with
    | aside haside => exact haside.toNoNewBare.findsWord hpending
    | starts letters quote _ _ _ hstep =>
      refine .none fun token hmem => ?_
      rw [hstep] at hmem
      have hkinds := startString_kinds l letters quote hmem
      rw [hpending] at hkinds
      obtain hnone | hkind | hkind := hkinds
      · cases hnone
      · simp [hkind]
      · simp [hkind]
    | resumes quote text line start outer _ hstep =>
      refine .none fun token hmem => ?_
      rw [hstep] at hmem
      have hkinds := resumeString_kinds l quote text start line outer hmem
      rw [hpending] at hkinds
      obtain hnone | hkind := hkinds
      · cases hnone
      · simp [hkind]
    | word length _ hlength hstep => exact .word length hlength (hstep ▸ rfl)
    | stray hhost hstep => exact .stray hhost (hstep ▸ rfl)

theorem take_ready (hpending : l.pending = []) (kind : TokenKind) (count : Nat) :
    (l.take kind count).pending = [l.cutToken kind count] := by
  rw [take_pending, hpending]
  rfl

namespace FindsWord

variable {token : Token}

theorem not_word (finds : FindsWord l m) (hpending : l.pending = [])
    (hlength : wordLength l.rest = 0) (hmem : token ∈ m.pending) : token.kind ≠ .word := by
  cases finds with
  | none hkinds => exact (hkinds token hmem).1
  | word length hword =>
    rw [hlength] at hword
    cases hword
  | stray _ hm =>
    rw [hm, take_ready hpending, List.mem_singleton] at hmem
    simp [hmem]

theorem host_of_error (finds : FindsWord l m) (hpending : l.pending = [])
    (hmem : token ∈ m.pending) (hkind : token.kind = .error) :
    l.brackets.inCommand = false ∧ m.brackets = l.brackets := by
  cases finds with
  | none hkinds => exact absurd hkind (hkinds token hmem).2
  | word length _ hm =>
    rw [hm, take_ready hpending, List.mem_singleton] at hmem
    rw [hmem] at hkind
    cases hkind
  | stray hhost hm => exact ⟨hhost, by simp [hm]⟩

end FindsWord

/-! ### Stray characters -/

variable {source : Source} {tabSize : Nat} {found : List Token}

theorem Visits.hostOfStray (visited : Visits source tabSize found l) :
    ∀ token ∈ l.pending, token.kind = .error → l.brackets.inCommand = false := by
  induction visited with
  | start => exact fun _ hmem => (List.not_mem_nil hmem).elim
  | step _ hpending =>
    intro token hmem hkind
    obtain ⟨hhost, hsame⟩ := (findsWord_of_step hpending).host_of_error hpending hmem hkind
    exact hsame ▸ hhost
  | handOut _ hpending induction =>
    exact fun token hmem => induction token (hpending ▸ List.mem_cons_of_mem _ hmem)
  | endMarker _ _ induction => exact induction

/-! ### Ends of words -/

/-- The cursor has passed the word, which ends where it can go on no further. -/
structure EndsBefore (l : Lexer) (word : Token) : Prop where
  whole : wordLength (word.line.toList.drop word.stop.column) = 0
  passed : word.stop.line ≤ l.lineNumber
  line : l.finished = false → word.stop.line = l.lineNumber → word.line = l.lineText

theorem EndsBefore.leadsOn {word : Token} (ends : EndsBefore l word) (leads : LeadsOn l m) :
    EndsBefore m word := by
  refine ⟨ends.whole, ?_, fun hworks hline => ?_⟩
  · cases leads.line with
    | same hnumber _ => exact hnumber ▸ ends.passed
    | later hnumber => exact Nat.le_of_lt (Nat.lt_of_le_of_lt ends.passed hnumber)
  · cases leads.line with
    | same hnumber htext =>
      rw [htext]
      exact ends.line (leads.finished ▸ hworks) (hline.trans hnumber)
    | later hnumber =>
      have hpassed := ends.passed
      omega

theorem EndsBefore.step {word : Token} (ends : EndsBefore l word) :
    EndsBefore (final (step l)) word := by
  obtain ⟨hstep, _, _⟩ | strikes := step_strikes l (.empty l.here)
  · rw [hstep, final]
    exact ⟨ends.whole, by simpa using ends.passed, fun hworks => by simp at hworks⟩
  · obtain ⟨_, strokes⟩ := strikes.final
    exact ends.leadsOn (leadsOn_of_strokes strokes)

/-- All words that were found end before the cursor, and no two of them touch. -/
structure WordsApart (found : List Token) (l : Lexer) : Prop where
  ends : ∀ word ∈ found, word.kind = .word → EndsBefore l word
  apart : found.Pairwise fun first second =>
    first.kind = .word → second.kind = .word → second.touches first = false

namespace WordsApart

theorem append (words : WordsApart found l) {more : List Token}
    (hmore : ∀ token ∈ more, token.kind ≠ .word) : WordsApart (found ++ more) l where
  ends word hmem hword :=
    (List.mem_append.mp hmem).elim (fun hold => words.ends word hold hword)
      fun hnew => absurd hword (hmore word hnew)
  apart := List.pairwise_append.mpr ⟨words.apart,
    List.pairwise_of_forall_mem_list fun _ hfirst _ _ hword => absurd hword (hmore _ hfirst),
    fun _ _ _ hsecond _ hword => absurd hword (hmore _ hsecond)⟩

theorem take (words : WordsApart found l) (inLine : l.InLine) (hworks : l.finished = false)
    {length : Nat} (hlength : wordLength l.rest = length + 1)
    (hends : ∀ word ∈ found, word.kind = .word → EndsBefore (l.take .word (length + 1)) word) :
    WordsApart (found ++ [l.cutToken .word (length + 1)]) (l.take .word (length + 1)) := by
  have hrest : l.rest = l.lineText.toList.drop l.column :=
    inLine.rest.resolve_left fun hnil => by simp [hnil, wordLength] at hlength
  refine ⟨fun word hmem hword => ?_, List.pairwise_append.mpr
    ⟨words.apart, List.pairwise_singleton _ _, fun first hfirst second hsecond hword _ => ?_⟩⟩
  · obtain hold | hnew := List.mem_append.mp hmem
    · exact hends word hold hword
    · obtain rfl := List.mem_singleton.mp hnew
      refine ⟨?_, by simp [cutToken], fun _ _ => by simp [cutToken]⟩
      have hwhole := wordLength_drop l.rest
      rwa [hlength, hrest, List.drop_drop] at hwhole
  · obtain rfl := List.mem_singleton.mp hsecond
    have ends := words.ends first hfirst hword
    rw [Token.touches, beq_eq_false_iff_ne]
    intro hstop
    have hwhole := ends.whole
    rw [ends.line hworks (congrArg Position.line hstop), congrArg Position.column hstop] at hwhole
    change wordLength (l.lineText.toList.drop l.column) = 0 at hwhole
    rw [← hrest, hlength] at hwhole
    cases hwhole

end WordsApart

theorem Visits.wordsApart (visited : Visits source tabSize found l) : WordsApart found l := by
  induction visited with
  | start => exact ⟨fun _ hmem => (List.not_mem_nil hmem).elim, .nil⟩
  | @step found l visited hpending hworks words =>
    have hends (word : Token) (hmem : word ∈ found) (hword : word.kind = .word) :
        EndsBefore (final (Lexer.step l)) word := (words.ends word hmem hword).step
    cases findsWord_of_step hpending with
    | none hkinds =>
      exact WordsApart.append ⟨hends, words.apart⟩ fun token hmem => (hkinds token hmem).1
    | word length hlength hm =>
      have inLine := visited.inLine.1.resolve_left (by simp [hworks])
      rw [hm] at hends ⊢
      rw [take_ready hpending]
      exact words.take inLine hworks hlength hends
    | stray _ hm =>
      refine WordsApart.append ⟨hends, words.apart⟩ fun token hmem => ?_
      rw [hm, take_ready hpending, List.mem_singleton] at hmem
      simp [hmem]
  | handOut _ _ words =>
    exact ⟨fun word hmem hword =>
      have ends := words.ends word hmem hword
      ⟨ends.whole, ends.passed, ends.line⟩, words.apart⟩
  | endMarker _ _ words => exact words.append (by simp [Token.endMarker])

/-! ### Completeness -/

theorem toCome_of_step {n : Lexer} (hworks : l.finished = false) (hroom : l.toCome < l.bound)
    (hrest : l.rest ≠ []) (hstep : step l = .ok () n) : n.toCome < l.toCome := by
  have progress := (moves_of_step hroom hstep).progress hworks
  refine progress.reads.resolve_right fun hfinished => ?_
  obtain hsame | ⟨_, hnil, _⟩ := progress.ends
  · rw [hworks, hfinished] at hsame
    cases hsame
  · exact hrest hnil

/-- Between the words of a command no character is left over: where no word begins, a space, a line
break, a literal, a search, a variable or an operator does, and the lexer reads it or fails. So a
character that starts no token is handed out only outside commands. Every word is as long as it can
be, and no word touches another. -/
theorem command_words_complete (source : Source) (tabSize : Nat) :
    (∀ found l, Visits source tabSize found l → l.pending = [] → l.finished = false →
      l.brackets.inCommand = true →
        (∀ token ∈ (final (step l)).pending, token.kind ≠ .error) ∧
        (l.Outside → l.rest ≠ [] → wordLength l.rest = 0 → StartsOther l.rest ∧
          (∀ token ∈ (final (step l)).pending, token.kind ≠ .word) ∧
          ((∃ e m, step l = .error e m) ∨ ∃ m, step l = .ok () m ∧ m.toCome < l.toCome))) ∧
    (∀ found l token m, Visits source tabSize found l → pull l = .ok token m →
      token.kind = .error → m.brackets.inCommand = false) ∧
    ∀ found l, Visits source tabSize found l →
      (∀ word ∈ found, word.kind = .word →
        wordLength (word.line.toList.drop word.stop.column) = 0) ∧
      found.Pairwise fun first second =>
        first.kind = .word → second.kind = .word → second.touches first = false := by
  refine ⟨fun found l visited hpending hworks hcommand => ⟨?_, fun _ hrest hlength => ⟨?_, ?_, ?_⟩⟩,
    fun found l token m visited hpull hkind => ?_, fun found l visited => ⟨?_, ?_⟩⟩
  · intro token hmem hkind
    have hhost := ((findsWord_of_step hpending).host_of_error hpending hmem hkind).1
    rw [hcommand] at hhost
    cases hhost
  · exact startsOther_of_wordLength hrest hlength
  · exact fun token => (findsWord_of_step hpending).not_word hpending hlength
  · cases hstep : step l with
    | error e m => exact .inl ⟨e, m, rfl⟩
    | ok _ m => exact .inr ⟨m, rfl, toCome_of_step hworks visited.inLine.2 hrest hstep⟩
  · obtain ⟨_, n, reached, hm, hready | ⟨_, rfl⟩⟩ := visited.pulled hpull
    · rw [hm]
      exact reached.hostOfStray token hready hkind
    · cases hkind
  · exact fun word hmem hword => (visited.wordsApart.ends word hmem hword).whole
  · exact visited.wordsApart.apart

/-- A string ends the word before it. A character that starts no token stands in a value among the
words only. -/
theorem command_words_complete_beside_string :
    let source := Source.ofString "$(echo a\"b\" @(€) c)"
    (∃ found l, Visits source 8 found l ∧ l.brackets.inCommand = true ∧
      l.rest = "\"b\" @(€) c)".toList ∧ StartsOther l.rest ∧
      ∀ token ∈ (final (step l)).pending, token.kind ≠ .word ∧ token.kind ≠ .error) ∧
    (∃ found l token m, Visits source 8 found l ∧ pull l = .ok token m ∧ token.kind = .error ∧
      m.brackets.inCommand = false) ∧
    ∃ found l, Visits source 8 found l ∧
      (found.filter (·.kind == .word)).map (·.text) = ["echo", "a", "c"] ∧
      found.Pairwise fun first second =>
        first.kind = .word → second.kind = .word → second.touches first = false := by
  intro source
  obtain ⟨complete, strays, apart⟩ := command_words_complete source 8
  refine ⟨?_, ?_, ?_⟩
  · obtain ⟨found, l, passed, hl⟩ := Passes.of_run source 8 4
      (fun _ l => l.pending = [] ∧ l.finished = false ∧ l.brackets.inCommand = true ∧
        l.modes = [] ∧ l.rest = "\"b\" @(€) c)".toList ∧ wordLength l.rest = 0)
      (by decide +kernel)
    obtain ⟨hpending, hworks, hcommand, hmodes, hrest, hlength⟩ := of_decide_eq_true hl
    obtain ⟨noStray, other⟩ := complete _ l passed.visits hpending hworks hcommand
    obtain ⟨starts, noWord, _⟩ := other (.inl hmodes) (by simp [hrest]) hlength
    exact ⟨_, l, passed.visits, hcommand, hrest, starts,
      fun token hmem => ⟨noWord token hmem, noStray token hmem⟩⟩
  · obtain ⟨found, l, passed, hl⟩ := Passes.of_run source 8 7
      (fun _ l => ((value? (pull l)).map (·.kind)) = some .error) (by decide +kernel)
    obtain ⟨token, hvalue, hkind⟩ := Option.map_eq_some_iff.mp (of_decide_eq_true hl)
    have hpull := eq_ok_of_value? _ hvalue
    exact ⟨_, l, token, _, passed.visits, hpull, hkind,
      strays _ l token _ passed.visits hpull hkind⟩
  · obtain ⟨found, l, passed, hl⟩ := Passes.of_run source 8 11
      (fun found l => ((found ++ l.pending).filter (·.kind == .word)).map (·.text) =
        ["echo", "a", "c"]) (by decide +kernel)
    exact ⟨_, l, passed.visits, of_decide_eq_true hl, (apart _ l passed.visits).2⟩

end ShellSyntax.Lexer
