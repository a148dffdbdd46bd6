import ShellSyntax.Proofs.Lexer.Bounds

/-!
The lexer is total: on every source it comes to an end marker or to a failure, and no number of
steps that it is given cuts its work short. No scan leaves its line, every step that succeeds gets
on, and behind the end marker there is nothing but end markers. A build that checks for overflow is
as total on the sources whose indentation fits its words.
-/

namespace ShellSyntax.Lexer

open Outcome
open Relation (ReflTransGen)

def nextTokens : (count : Nat) → Lex (List Token)
  | 0 => return []
  | count + 1 => do
    let token ← pull
    return token :: (← nextTokens count)

variable {source : Source} {tabSize : Nat} {tokens found : List Token} {l : Lexer}

/-! ### Ends -/

theorem endless_succ (token : Token) (tokens : List Token) (marker : Token) (i : Nat) :
    endless (token :: tokens) marker (i + 1) = endless tokens marker i := by
  simp [endless]

theorem endless_nil (marker : Token) : endless [] marker = fun _ => marker := by
  funext i
  simp [endless]

theorem nextTokens_finished (hfinished : l.finished = true) (count : Nat) :
    nextTokens count l =
      .ok ((List.range count).map (endless l.pending (.endMarker l.lineNumber)))
        { l with pending := l.pending.drop count } := by
  induction count generalizing l with
  | zero => rfl
  | succ count induction =>
    rw [nextTokens, run_bind, List.range_succ_eq_map, List.map_cons, List.map_map]
    cases hpending : l.pending with
    | nil =>
      rw [pull_finished hpending hfinished]
      dsimp only
      rw [run_bind, induction hfinished, hpending]
      simp only [run_pure, Function.comp_def, endless_nil, List.drop_nil]
    | cons token pending =>
      have hpull : pull l = .ok token { l with pending } := by
        simp [pull, run_bind, run_get, work_finished hfinished, hpending, run_set]
      rw [hpull]
      dsimp only
      rw [run_bind, induction (l := { l with pending }) hfinished]
      simp only [run_pure, Function.comp_def, endless_succ, List.drop_succ_cons]
      rfl

theorem reaches_of_failure {fuel : Nat} {before : List Token} {l' : Lexer} {e : LexError}
    (reached : Reaches source tabSize before l)
    (htokens : tokensWithin fuel l = (tokens, some e, l')) :
    ∃ m, Reaches source tabSize (before ++ tokens) m ∧ pull m = .error e l' := by
  induction fuel generalizing l before tokens with
  | zero => cases htokens
  | succ fuel induction =>
    rw [tokensWithin] at htokens
    cases hpull : Lexer.pull l with
    | error e m =>
      simp only [hpull, Prod.mk.injEq, Option.some.injEq] at htokens
      obtain ⟨rfl, rfl, rfl⟩ := htokens
      exact ⟨l, by simpa using reached, hpull⟩
    | ok token m =>
      simp only [hpull] at htokens
      split at htokens
      case isTrue => simp at htokens
      case isFalse =>
        obtain ⟨rest, failure, last, hrest⟩ : ∃ rest failure last,
            tokensWithin fuel m = (rest, failure, last) := ⟨_, _, _, rfl⟩
        simp only [hrest, Prod.mk.injEq] at htokens
        obtain ⟨rfl, rfl, rfl⟩ := htokens
        obtain ⟨n, further, hfails⟩ := induction (reached.pull hpull) hrest
        exact ⟨n, by simpa using further, hfails⟩

/-- How the reading of a source ends. -/
inductive Ends (source : Source) (tabSize : Nat) : Prop
  /-- It is read to its end marker. -/
  | all {program : List Token} {marker : Token}
      (htokens : (ofSource source tabSize).allTokens = .ok (program ++ [marker]))
      (hmarker : marker.kind = .endMarker) (hprogram : ∀ token ∈ program, token.kind ≠ .endMarker)
  /-- It fails after some tokens. -/
  | failure {tokens : List Token} {l m : Lexer} {e : LexError}
      (htokens : (ofSource source tabSize).allTokens = .error e)
      (reached : Reaches source tabSize tokens l) (hpull : pull l = .error e m)

theorem ends (source : Source) (tabSize : Nat) : Ends source tabSize := by
  cases htokens : (ofSource source tabSize).allTokens with
  | ok tokens =>
    obtain ⟨_, _, program, marker, rfl, hmarker, hprogram⟩ := reaches_of_allTokens htokens
    exact .all htokens hmarker hprogram
  | error e =>
    obtain ⟨found, failure, last, hfound⟩ : ∃ found failure last,
        tokensWithin (ofSource source tabSize).bound (ofSource source tabSize) =
          (found, failure, last) := ⟨_, _, _, rfl⟩
    have hfailure : failure = some e := by
      cases failure with
      | none => simp [allTokens, Lexer.tokens, hfound] at htokens
      | some other => simpa [allTokens, Lexer.tokens, hfound] using htokens
    rw [hfailure] at hfound
    obtain ⟨m, reached, hpull⟩ := reaches_of_failure .start hfound
    exact .failure htokens reached hpull

/-! ### Steps -/

/-- A step that gets on: it enters lines, or reads at least one character of the line. -/
inductive GetsOn (l m : Lexer) : Prop
  | lines (lines : Source) (hsome : lines ≠ []) (hunread : l.unread = lines ++ m.unread)
  | chars (read : List Char) (hsome : read ≠ []) (hunread : l.unread = m.unread)
      (hrest : l.rest = read ++ m.rest)

theorem getsOn_of_reads {m : Lexer} (reads : Reads l m) (hshorter : m.toCome < l.toCome) :
    GetsOn l m := by
  cases reads with
  | lines lines hsome hunread => exact .lines lines hsome hunread
  | chars hunread hrest =>
    obtain ⟨read, hread⟩ := hrest
    refine .chars read ?_ hunread hread.symm
    rintro rfl
    rw [toCome, toCome, hunread, ← hread] at hshorter
    exact Nat.lt_irrefl _ hshorter

/-- The work of a lexer in a state that it can come to. -/
structure Sound (l : Lexer) : Prop where
  /-- The cursor is in its line until the source has ended. -/
  place : l.finished = true ∧ l.rest = [] ∨ l.InLine
  tabs : 0 < l.tabSize
  /-- The next step ends the source or is a sequence of strokes, none of which reads more characters
  than there are in the line; so it is if it fails. -/
  strokes : step l = .ok () l.close ∧ l.rest = [] ∧ l.unread = [] ∨
    ∃ raw, ReflTransGen Stroke (l, .empty l.here) (final (step l), raw)
  /-- If it succeeds it gets on or ends the source. -/
  getsOn : l.finished = false → ∀ m, step l = .ok () m → GetsOn l m ∨ m.finished = true
  /-- A lexer that has finished hands out what is ready and then end markers for ever. -/
  ended : l.finished = true → ∀ count, nextTokens count l =
    .ok ((List.range count).map (endless l.pending (.endMarker l.lineNumber)))
      { l with pending := l.pending.drop count }

theorem Visits.sound (visited : Visits source tabSize found l) : Sound l := by
  obtain ⟨place, hroom⟩ := visited.inLine
  have htabs := visited.nested.2
  refine ⟨place, by omega, ?_, ?_, fun hfinished => nextTokens_finished hfinished⟩
  · exact (step_strikes l _).imp_right fun strikes => strikes.final
  · intro hworks m hstep
    have progress := (moves_of_step hroom hstep).progress hworks
    refine progress.reads.imp_left fun hshorter => ?_
    obtain ⟨hclose, _⟩ | strikes := step_strikes l (.empty l.here)
    · rw [hclose] at hstep
      obtain rfl := (EStateM.Result.ok.inj hstep).2
      simp [toCome] at hshorter
    · exact getsOn_of_reads (strikes.leadsOn hstep).reads hshorter

/-! ### Overflow -/

/-- Every line fits that is to come, so does the current one, and all that were measured did. -/
structure WithinWords (l : Lexer) : Prop where
  unread : ∀ line, .text line ∈ l.unread → Lexeme.indentOverruns l.tabSize line = false
  line : Lexeme.indentOverruns l.tabSize l.lineText.toList = false
  sound : l.overflowed = false

theorem Stroke.withinWords {l m : Lexer} {raw raw' : RawText} (stroke : Stroke (l, raw) (m, raw'))
    (within : WithinWords l) : WithinWords m := by
  cases stroke with
  | @line _ _ text unread hunread =>
    refine ⟨fun line hline => within.unread line ?_, ?_, within.sound⟩
    · rw [hunread]
      exact List.mem_cons_of_mem _ hline
    · rw [nextLine, enterLine, String.toList_ofList]
      exact within.unread text (by simp [hunread])
  | broken hunread =>
    refine ⟨fun line hline => within.unread line ?_, within.line, within.sound⟩
    rw [hunread]
    exact List.mem_cons_of_mem _ hline
  | @measure _ _ text htext =>
    refine ⟨within.unread, within.line, ?_⟩
    rw [Lexer.measure, within.sound, Bool.false_or]
    obtain hcome | hcurrent := htext
    · exact within.unread text hcome
    · simpa [hcurrent] using within.line
  | note hsame =>
    refine ⟨?_, ?_, hsame.overflowed.trans within.sound⟩
    · rw [hsame.unread, hsame.tabSize]
      exact within.unread
    · rw [hsame.lineText, hsame.tabSize]
      exact within.line
  | read | capture | fresh | drop | modes | token | piece | string | captured =>
    exact ⟨within.unread, within.line, within.sound⟩

theorem withinWords_of_strokes {state state' : Lexer × RawText}
    (strokes : ReflTransGen Stroke state state') (within : WithinWords state.1) :
    WithinWords state'.1 := by
  induction strokes with
  | refl => exact within
  | tail _ last induction => exact last.withinWords induction

theorem WithinWords.close (within : WithinWords l) : WithinWords l.close where
  unread := by simpa using within.unread
  line := by simp [Lexer.close, Lexeme.indentOverruns_nil]
  sound := by simpa using within.sound

theorem Visits.withinWords (visited : Visits source tabSize found l)
    (hfits : ∀ line, .text line ∈ source → Lexeme.indentOverruns (max tabSize 1) line = false) :
    WithinWords l := by
  induction visited with
  | start => exact ⟨hfits, Lexeme.indentOverruns_nil, rfl⟩
  | @step found l _ _ _ induction =>
    obtain ⟨hstep, _⟩ | strikes := step_strikes l (.empty l.here)
    · rw [hstep]
      exact induction.close
    · obtain ⟨_, strokes⟩ := strikes.final
      exact withinWords_of_strokes strokes induction
  | handOut _ _ induction => exact ⟨induction.unread, induction.line, induction.sound⟩
  | endMarker _ _ induction => exact induction

theorem Visits.last {before : List Token} {fuel : Nat} {failure : Option LexError} {last : Lexer}
    (visited : Visits source tabSize (before ++ l.pending) l)
    (htokens : tokensWithin fuel l = (tokens, failure, last)) :
    ∃ found, Visits source tabSize found last := by
  induction fuel generalizing l before tokens failure with
  | zero =>
    cases htokens
    exact ⟨_, visited⟩
  | succ fuel induction =>
    obtain ⟨before', next⟩ := visited.final_pull
    rw [tokensWithin] at htokens
    cases hpull : Lexer.pull l with
    | error e m =>
      rw [hpull] at next
      simp only [hpull, Prod.mk.injEq] at htokens
      exact ⟨_, htokens.2.2 ▸ next⟩
    | ok token m =>
      rw [hpull] at next
      simp only [hpull] at htokens
      split at htokens
      case isTrue =>
        simp only [Prod.mk.injEq] at htokens
        exact ⟨_, htokens.2.2 ▸ next⟩
      case isFalse =>
        simp only [Prod.mk.injEq] at htokens
        obtain ⟨_, _, rfl⟩ := htokens
        exact induction next rfl

end ShellSyntax.Lexer
