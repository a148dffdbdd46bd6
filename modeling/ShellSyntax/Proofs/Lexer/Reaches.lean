import ShellSyntax.Proofs.Lexer.Progress

/-!
Runs of the lexer. A lexer never runs out of steps, so what its moves preserve holds of every state
in which it hands out a token.
-/

namespace ShellSyntax.Lexer

open Outcome

/-- Moves until a token is ready or the source has ended. -/
inductive Works : Lexer → Lexer → Prop
  | ready {l : Lexer} (hready : l.pending ≠ [] ∨ l.finished = true) : Works l l
  | move {l m l' : Lexer} (hpending : l.pending = []) (hworks : l.finished = false)
      (first : Moves l m) (next : Works m l') : Works l l'

theorem works_of_work {fuel : Nat} {l l' : Lexer}
    (hfuel : l.toCome < fuel ∨ l.finished = true) (hbound : l.toCome < l.bound)
    (hwork : work fuel l = .ok () l') : Works l l' := by
  induction fuel generalizing l with
  | zero =>
    obtain ⟨_, rfl⟩ := pure_ok.mp hwork
    exact .ready (.inr (hfuel.resolve_left (Nat.not_lt_zero _)))
  | succ fuel induction =>
    rw [work, get_bind_ok, ite_ok] at hwork
    split at hwork
    case isTrue hidle =>
      rw [Bool.and_eq_true, List.isEmpty_iff, Bool.not_eq_true'] at hidle
      obtain ⟨_, m, hstep, hwork⟩ := bind_ok.mp hwork
      have first := moves_of_step hbound hstep
      have progress := first.progress hidle.2
      have hshorter := progress.toCome
      refine .move hidle.1 hidle.2 first (induction ?_ ?_ hwork)
      · refine progress.reads.imp_left fun hreads => ?_
        have hleft := hfuel.resolve_right (by simp [hidle.2])
        omega
      · rw [progress.bound]
        omega
    case isFalse hready =>
      obtain ⟨_, rfl⟩ := pure_ok.mp hwork
      refine .ready ?_
      by_cases hpending : l.pending = []
      · exact .inr (by simpa [hpending] using hready)
      · exact .inl hpending

namespace Works

variable {l l' : Lexer}

theorem isReady (works : Works l l') : l'.pending ≠ [] ∨ l'.finished = true := by
  induction works with
  | ready hready => exact hready
  | move _ _ _ _ induction => exact induction

theorem toCome_le (works : Works l l') : l'.toCome ≤ l.toCome := by
  induction works with
  | ready => exact Nat.le_refl _
  | move _ hworks first _ induction => exact Nat.le_trans induction (first.progress hworks).toCome

theorem bound (works : Works l l') : l'.bound = l.bound := by
  induction works with
  | ready => rfl
  | move _ hworks first _ induction => exact induction.trans (first.progress hworks).bound

theorem weight_le (works : Works l l') : l'.weight ≤ l.weight := by
  induction works with
  | ready => exact Nat.le_refl _
  | move _ hworks first _ induction => exact Nat.le_trans induction (first.progress hworks).weight

end Works

/-- A token that is handed out was ready, or the source had ended and all its tokens were handed
out before. -/
theorem works_of_pull {l l' : Lexer} {token : Token} (hbound : l.toCome < l.bound)
    (hpull : pull l = .ok token l') :
    ∃ m, Works l m ∧
      ((∃ pending, m.pending = token :: pending ∧ l' = { m with pending }) ∨
        m.pending = [] ∧ m.finished = true ∧ token = .endMarker m.lineNumber ∧ l' = m) := by
  rw [pull, get_bind_ok] at hpull
  obtain ⟨_, m, hwork, hpull⟩ := bind_ok.mp hpull
  have works := works_of_work (.inl hbound) hbound hwork
  refine ⟨m, works, ?_⟩
  rw [get_bind_ok] at hpull
  cases hpending : m.pending with
  | cons first pending =>
    simp only [hpending, set_bind_ok, pure_ok] at hpull
    obtain ⟨rfl, rfl⟩ := hpull
    exact .inl ⟨pending, rfl, rfl⟩
  | nil =>
    simp only [hpending, pure_ok] at hpull
    obtain ⟨rfl, rfl⟩ := hpull
    exact .inr ⟨rfl, works.isReady.resolve_left (not_not_intro hpending), rfl, rfl⟩

/-! ### Reachable states -/

/-- The lexer on `source` after it has handed out `tokens`. -/
inductive Reaches (source : Source) (tabSize : Nat) : List Token → Lexer → Prop
  | start : Reaches source tabSize [] (ofSource source tabSize)
  | pull {tokens : List Token} {l l' : Lexer} {token : Token}
      (reached : Reaches source tabSize tokens l) (hpull : pull l = .ok token l') :
      Reaches source tabSize (tokens ++ [token]) l'

variable {source : Source} {tabSize : Nat} {tokens : List Token} {l : Lexer}

theorem bound_ofSource (source : Source) (tabSize : Nat) :
    (ofSource source tabSize).bound = 4 * (ofSource source tabSize).toCome + 8 := by
  have hsum (total : Nat) : source.foldl (fun total line => total + line.size + 1) total =
      total + (source.map fun line => line.size + 1).sum := by
    induction source generalizing total with
    | nil => simp
    | cons line source induction =>
      simp only [List.foldl_cons, induction, List.map_cons, List.sum_cons]
      omega
  simp only [ofSource, tokenBound, toCome, hsum, List.length_nil]

theorem Reaches.toCome_lt (reached : Reaches source tabSize tokens l) : l.toCome < l.bound := by
  induction reached with
  | start =>
    rw [bound_ofSource]
    omega
  | pull _ hpull induction =>
    obtain ⟨m, works, ⟨pending, _, rfl⟩ | ⟨_, _, _, rfl⟩⟩ := works_of_pull induction hpull
    · have hcome := works.toCome_le
      have hbound := works.bound
      change m.toCome < m.bound
      omega
    · have hcome := works.toCome_le
      have hbound := works.bound
      omega

/-- What holds of all tokens found so far, handed out or not, together with the lexer. -/
structure Invariant (holds : List Token → Lexer → Prop) : Prop where
  move : ∀ {found l l'}, holds found l → l.pending = [] → l.finished = false → Moves l l' →
    holds (found ++ l'.pending) l'
  handOut : ∀ {found l token pending}, holds found l → l.pending = token :: pending →
    holds found { l with pending }
  sourceEnd : ∀ {found l}, holds found l → l.pending = [] → l.finished = true →
    holds (found ++ [.endMarker l.lineNumber]) l

theorem Invariant.works {holds : List Token → Lexer → Prop} (invariant : Invariant holds)
    {l' : Lexer} (works : Works l l') (start : holds (tokens ++ l.pending) l) :
    holds (tokens ++ l'.pending) l' := by
  induction works with
  | ready => exact start
  | move hpending hworks first _ induction =>
    refine induction (invariant.move ?_ hpending hworks first)
    simpa [hpending] using start

theorem Invariant.reaches {holds : List Token → Lexer → Prop} (invariant : Invariant holds)
    (start : holds [] (ofSource source tabSize)) (reached : Reaches source tabSize tokens l) :
    holds (tokens ++ l.pending) l := by
  induction reached with
  | start => exact start
  | pull reached hpull induction =>
    obtain ⟨m, works, ⟨pending, hpending, rfl⟩ | ⟨hpending, hfinished, rfl, rfl⟩⟩ :=
      works_of_pull reached.toCome_lt hpull
    · have ready := invariant.works works induction
      rw [hpending] at ready
      simpa using invariant.handOut ready hpending
    · have ready := invariant.works works induction
      rw [hpending, List.append_nil] at ready ⊢
      exact invariant.sourceEnd ready hpending hfinished

/-! ### All tokens -/

theorem pull_lighter {l' : Lexer} {token : Token} (hbound : l.toCome < l.bound)
    (hpull : Lexer.pull l = .ok token l') :
    l'.bound = l.bound ∧ l'.toCome ≤ l.toCome ∧ l'.weight ≤ l.weight ∧
      (l'.weight < l.weight ∨ token = .endMarker l'.lineNumber) := by
  obtain ⟨m, works, ⟨pending, hpending, rfl⟩ | ⟨_, _, htoken, rfl⟩⟩ := works_of_pull hbound hpull
  · have hweight := works.weight_le
    have hless : ({ m with pending } : Lexer).weight < m.weight := by
      have hsame : ({ m with pending } : Lexer).toCome = m.toCome := rfl
      simp only [weight, hpending, List.length_cons, hsame]
      omega
    exact ⟨works.bound, works.toCome_le, by omega, .inl (by omega)⟩
  · exact ⟨works.bound, works.toCome_le, works.weight_le, .inr htoken⟩

theorem reaches_of_tokensWithin {fuel : Nat} {before : List Token} {l' : Lexer}
    (reached : Reaches source tabSize before l) (hfuel : l.weight < fuel)
    (htokens : tokensWithin fuel l = (tokens, none, l')) :
    Reaches source tabSize (before ++ tokens) l' ∧ ∃ program marker,
      tokens = program ++ [marker] ∧ marker.kind = .endMarker ∧
      ∀ token ∈ program, token.kind ≠ .endMarker := by
  induction fuel generalizing l before tokens with
  | zero => omega
  | succ fuel induction =>
    rw [tokensWithin] at htokens
    cases hpull : Lexer.pull l with
    | error e m => simp [hpull] at htokens
    | ok token m =>
      have next := reached.pull hpull
      simp only [hpull, beq_iff_eq] at htokens
      split at htokens
      case isTrue hmarker =>
        simp only [Prod.mk.injEq, true_and] at htokens
        obtain ⟨rfl, rfl⟩ := htokens
        exact ⟨next, [], token, rfl, hmarker, by simp⟩
      case isFalse hother =>
        have hlighter : m.weight < fuel := by
          obtain ⟨_, _, _, hlighter | rfl⟩ := pull_lighter reached.toCome_lt hpull
          · omega
          · exact absurd rfl hother
        obtain ⟨rest, failure, last, hrest⟩ : ∃ rest failure last,
            tokensWithin fuel m = (rest, failure, last) := ⟨_, _, _, rfl⟩
        simp only [hrest, Prod.mk.injEq] at htokens
        obtain ⟨rfl, rfl, rfl⟩ := htokens
        obtain ⟨reached', program, marker, rfl, hmarker, hprogram⟩ := induction next hlighter hrest
        refine ⟨by simpa using reached', token :: program, marker, rfl, hmarker, ?_⟩
        simpa [hother] using hprogram

/-- A lexer that reads its source to the end hands out all its tokens and then the end marker. -/
theorem reaches_of_allTokens (htokens : (ofSource source tabSize).allTokens = .ok tokens) :
    ∃ l, Reaches source tabSize tokens l ∧ ∃ program marker,
      tokens = program ++ [marker] ∧ marker.kind = .endMarker ∧
      ∀ token ∈ program, token.kind ≠ .endMarker := by
  obtain ⟨found, failure, last, hfound⟩ : ∃ found failure last,
      tokensWithin (ofSource source tabSize).bound (ofSource source tabSize) =
        (found, failure, last) := ⟨_, _, _, rfl⟩
  have hfuel : (ofSource source tabSize).weight < (ofSource source tabSize).bound := by
    rw [bound_ofSource]
    simp [weight, ofSource]
  simp only [allTokens, Lexer.tokens, hfound] at htokens
  cases failure with
  | some e => simp at htokens
  | none =>
    simp only [Except.ok.injEq] at htokens
    subst htokens
    exact ⟨last, reaches_of_tokensWithin .start hfuel hfound⟩

end ShellSyntax.Lexer
