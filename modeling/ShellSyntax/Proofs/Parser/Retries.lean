import ShellSyntax.Proofs.Lexer.Failures
import ShellSyntax.Proofs.Parser.Buffer

/-!
Reading again behind a failure. A stream whose lexer fails keeps every token that it holds and its
place, and where the failure of the lexer is final so is that of the stream.
-/

namespace ShellSyntax

open Outcome

namespace TokenStream

variable {source : Source} {tabSize : Nat} {handedOut : List Token} {s t : TokenStream}
  {e : LexError}

theorem readRaw_error (hread : readRaw s = .error e t) :
    Lexer.pull s.lexer = .error e t.lexer ∧ t = { s with lexer := t.lexer } := by
  rw [readRaw] at hread
  cases hpull : Lexer.pull s.lexer with
  | ok token l =>
    rw [hpull] at hread
    cases hread
  | error e' l =>
    rw [hpull] at hread
    obtain ⟨rfl, rfl⟩ := EStateM.Result.error.inj hread
    exact ⟨rfl, rfl⟩

/-- Reading on fails with the lexer; the tokens that were dropped on the way leave no trace but in
the lines that are known. -/
theorem fill_error {fuel : Nat} (reached : Lexer.Reaches source tabSize handedOut s.lexer)
    (hfill : fill fuel s = .error e t) :
    t = { s with lexer := t.lexer, lineCache := t.lineCache } ∧
      ∃ before l, Lexer.Reaches source tabSize before l ∧ Lexer.pull l = .error e t.lexer := by
  induction fuel generalizing s handedOut with
  | zero => exact (pure_error.mp hfill).elim
  | succ fuel induction =>
    rw [fill, bind_error] at hfill
    obtain hread | ⟨token, u, hread, hfill⟩ := hfill
    · obtain ⟨hpull, ht⟩ := readRaw_error hread
      exact ⟨by rw [ht], _, _, reached, hpull⟩
    · rw [readRaw] at hread
      cases hpull : Lexer.pull s.lexer with
      | error e' l =>
        rw [hpull] at hread
        cases hread
      | ok token' l =>
        rw [hpull] at hread
        obtain ⟨rfl, rfl⟩ := EStateM.Result.ok.inj hread
        simp only [run_bind, run_get, ite_error, set_error, if_false_right] at hfill
        obtain ⟨ht, hfails⟩ := induction (reached.pull hpull) hfill.2
        exact ⟨ht, hfails⟩

theorem peek_error (reached : Lexer.Reaches source tabSize handedOut s.lexer)
    (hpeek : peek s = .error e t) :
    s.index = s.tokens.size ∧ t = { s with lexer := t.lexer, lineCache := t.lineCache } ∧
      ∃ before l, Lexer.Reaches source tabSize before l ∧ Lexer.pull l = .error e t.lexer := by
  by_cases hread : s.index = s.tokens.size
  · simp only [peek, run_bind, run_get, if_pos hread] at hpeek
    cases hfill : fill s.lexer.bound s with
    | ok _ u =>
      rw [hfill] at hpeek
      cases hpeek
    | error e' u =>
      rw [hfill] at hpeek
      obtain ⟨rfl, rfl⟩ := EStateM.Result.error.inj hpeek
      exact ⟨hread, fill_error reached hfill⟩
  · simp only [peek, run_bind, run_get, if_neg hread, run_pure, reduceCtorEq] at hpeek

theorem next_of_peek_error (hpeek : peek s = .error e t) : next s = .error e t := by
  rw [next, run_bind, hpeek]

theorem peek_again (hindex : t.index = t.tokens.size) (hbound : 0 < t.lexer.bound)
    (hagain : Lexer.pull t.lexer = .error e t.lexer) : peek t = .error e t := by
  obtain ⟨fuel, hfuel⟩ := Nat.exists_eq_succ_of_ne_zero (Nat.ne_of_gt hbound)
  have hread : readRaw t = .error e t := by rw [readRaw, hagain]
  have hfill : fill t.lexer.bound t = .error e t := by rw [hfuel, fill, run_bind, hread]
  simp only [peek, run_bind, run_get, if_pos hindex, hfill]

/-- A call that fails means what `LeftBehind` says for the calls that follow: it fails for ever in
the same way unless the sign of a macro is found already, a line of no block has been entered, or a
line that is no text has been given up. A stream on the lexer loses no token and keeps its place
when it fails, and where the failure is final it fails in the same way for ever. -/
theorem failures_left_behind (source : Source) (tabSize : Nat) :
    (∀ tokens l e m, Lexer.Reaches source tabSize tokens l → Lexer.pull l = .error e m →
      Lexer.LeftBehind l e m) ∧
    ∀ handedOut s e t, Lexer.Reaches source tabSize handedOut s.lexer → peek s = .error e t →
      t = { s with lexer := t.lexer, lineCache := t.lineCache } ∧ next s = .error e t ∧
      (t.lexer.pending = [] → e.isIndentation = false → e ≠ .undecodable →
        peek t = .error e t ∧ next t = .error e t) := by
  refine ⟨fun tokens l e m reached hpull => reached.leftBehind hpull, ?_⟩
  intro handedOut s e t reached hpeek
  obtain ⟨hindex, ht, before, l, reached', hpull⟩ := peek_error reached hpeek
  refine ⟨ht, next_of_peek_error hpeek, fun hpending hkind hreadable => ?_⟩
  have hagain := (reached'.leftBehind hpull).final.mpr ⟨hpending, hkind, hreadable⟩
  have hplace : t.index = t.tokens.size := by
    rw [ht]
    exact hindex
  have hbound : 0 < t.lexer.bound :=
    Nat.zero_lt_of_lt (Lexer.room_of_pull_error reached'.toCome_lt hpull)
  have hpeek' := peek_again hplace hbound hagain
  exact ⟨hpeek', next_of_peek_error hpeek'⟩

/-- A string without an end fails again, and so does a stream that starts with it. -/
theorem failures_left_behind_literal :
    ∃ m t, Lexer.LeftBehind (.ofSource (.ofString "'a\n") 8) (.unterminatedString ⟨1, 0⟩) m ∧
      Lexer.pull m = .error (.unterminatedString ⟨1, 0⟩) m ∧
      peek (ofString "'a\n" 8) = .error (.unterminatedString ⟨1, 0⟩) t ∧ t.tokens = #[] ∧
      next t = .error (.unterminatedString ⟨1, 0⟩) t := by
  obtain ⟨lexers, streams⟩ := failures_left_behind (.ofString "'a\n") 8
  have hpull := eq_error_of_failure? (Lexer.pull (.ofSource (.ofString "'a\n") 8))
    (e := .unterminatedString ⟨1, 0⟩) (by decide +kernel)
  have hpeek := eq_error_of_failure? (peek (ofString "'a\n" 8))
    (e := .unterminatedString ⟨1, 0⟩) (by decide +kernel)
  have left := lexers [] _ _ _ .start hpull
  obtain ⟨hsame, _, hagain⟩ := streams [] _ _ _ .start hpeek
  refine ⟨_, _, left, left.final.mpr ⟨by decide +kernel, rfl, nofun⟩, hpeek, ?_, ?_⟩
  · rw [hsame]
    rfl
  · exact (hagain (by decide +kernel) rfl nofun).2

/-- A line that belongs to no block fails once; then its tokens are handed out. -/
theorem badDedent_not_final :
    ¬ ∀ source tabSize tokens l e m, Lexer.Reaches source tabSize tokens l →
      Lexer.pull l = .error e m → Lexer.pull m = .error e m := by
  intro holds
  have opened := Lexer.Reaches.start.pull (eq_ok_of_value?
    (Lexer.pull (.ofSource (.ofString "        a\n    b\n") 8))
    (a := ⟨.indent, "", ⟨1, 8⟩, ⟨1, 8⟩, "        a\n"⟩) (by decide +kernel))
  have named := opened.pull (eq_ok_of_value? _
    (a := ⟨.name, "a", ⟨1, 8⟩, ⟨1, 9⟩, "        a\n"⟩) (by decide +kernel))
  have ended := named.pull (eq_ok_of_value? _
    (a := ⟨.newline, "\n", ⟨1, 9⟩, ⟨1, 10⟩, "        a\n"⟩) (by decide +kernel))
  have hagain := holds _ _ _ _ _ _ ended
    (eq_error_of_failure? _ (e := .badDedent ⟨2, 4⟩) (by decide +kernel))
  have hnext : value? (Lexer.pull (final (Lexer.pull (final (Lexer.pull (final (Lexer.pull (final
      (Lexer.pull (.ofSource (.ofString "        a\n    b\n") 8)))))))))) =
      some ⟨.name, "b", ⟨2, 4⟩, ⟨2, 5⟩, "    b\n"⟩ := by decide +kernel
  rw [hagain] at hnext
  cases hnext

end TokenStream

end ShellSyntax
