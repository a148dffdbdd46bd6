import ShellSyntax.Proofs.Lexer.Stacks

/-!
The tokens of a source are one sequence. Where a source can be read to its end, the lexer hands out
its tokens one by one and then the end marker for ever.
-/

namespace ShellSyntax.Lexer

variable {source : Source} {tabSize : Nat} {tokens : List Token} {l : Lexer}

/-! ### Runs are determined -/

theorem Reaches.last {before : List Token} {token : Token}
    (reached : Reaches source tabSize (before ++ [token]) l) :
    ∃ m, Reaches source tabSize before m ∧ Lexer.pull m = .ok token l := by
  generalize htokens : before ++ [token] = tokens at reached
  cases reached with
  | start => simp at htokens
  | pull reached hpull =>
    obtain ⟨rfl, hlast⟩ := List.append_inj' htokens rfl
    obtain rfl := (List.cons.inj hlast).1
    exact ⟨_, reached, hpull⟩

theorem Reaches.within {before after : List Token}
    (reached : Reaches source tabSize (before ++ after) l) :
    ∃ m, Reaches source tabSize before m := by
  induction after generalizing before with
  | nil => exact ⟨l, by simpa using reached⟩
  | cons token after induction =>
    rw [List.append_cons] at reached
    obtain ⟨m, reached⟩ := induction reached
    obtain ⟨m, reached, _⟩ := reached.last
    exact ⟨m, reached⟩

theorem Reaches.unique {m : Lexer} (reached : Reaches source tabSize tokens l)
    (also : Reaches source tabSize tokens m) : l = m := by
  induction reached generalizing m with
  | start =>
    generalize hnone : ([] : List Token) = tokens at also
    cases also with
    | start => rfl
    | pull => simp at hnone
  | pull _ hpull induction =>
    obtain ⟨before, reached, hpull'⟩ := also.last
    obtain rfl := induction reached
    rw [hpull] at hpull'
    exact (EStateM.Result.ok.inj hpull').2

/-! ### End markers -/

theorem endMarkersAlike : Invariant fun found l => FoundInStep found l ∧
    ∀ token ∈ found, token.kind = .endMarker →
      l.finished = true ∧ token = .endMarker l.lineNumber where
  move := by
    rintro found l l' ⟨inStep, hmarkers⟩ hpending hworks moves
    refine ⟨foundInStep.move inStep hpending hworks moves, ?_⟩
    intro token htoken hmarker
    rcases List.mem_append.mp htoken with hold | hnew
    · have hended := (hmarkers token hold hmarker).1
      rw [hworks] at hended
      cases hended
    · obtain ⟨open_, _, inStep, _⟩ := inStep
      obtain ⟨_, _, _, _, hfinish⟩ := moves.stepsTo hpending inStep
      have hfinished := hfinish token hnew hmarker
      obtain hsame | ⟨rfl, _⟩ := (moves.progress hworks).ends
      · rw [hsame, hworks] at hfinished
        cases hfinished
      · refine ⟨hfinished, ?_⟩
        simp only [close_frame, hpending, List.nil_append, closingTokens, missingNewline,
          List.mem_append, List.mem_singleton] at hnew
        rcases hnew with hnewline | hdedent | rfl
        · split at hnewline
          · rw [List.mem_singleton.mp hnewline] at hmarker
            cases hmarker
          · cases hnewline
        · rw [List.eq_of_mem_replicate hdedent] at hmarker
          cases hmarker
        · simp [Token.endMarker, sourceEnd]
  handOut := by
    rintro found l token pending ⟨inStep, hmarkers⟩ hpending
    exact ⟨foundInStep.handOut inStep hpending, hmarkers⟩
  sourceEnd := by
    rintro found l ⟨inStep, hmarkers⟩ hpending hfinished
    refine ⟨foundInStep.sourceEnd inStep hpending hfinished, ?_⟩
    intro token htoken hmarker
    rcases List.mem_append.mp htoken with hold | hnew
    · exact hmarkers token hold hmarker
    · exact ⟨hfinished, List.mem_singleton.mp hnew⟩

theorem Reaches.endMarker (reached : Reaches source tabSize tokens l) {token : Token}
    (htoken : token ∈ tokens) (hmarker : token.kind = .endMarker) :
    l.finished = true ∧ token = .endMarker l.lineNumber := by
  have holds := endMarkersAlike.reaches
    ⟨⟨[], rfl, .start, by simp [ofSource], by simp [MarkerLast, ofSource]⟩, nofun⟩ reached
  exact holds.2 token (List.mem_append_left _ htoken) hmarker

theorem work_finished (hfinished : l.finished = true) (fuel : Nat) : work fuel l = .ok () l := by
  cases fuel with
  | zero => rfl
  | succ fuel => simp [work, Outcome.run_bind, Outcome.run_get, Outcome.run_pure, hfinished]

theorem pull_finished (hpending : l.pending = []) (hfinished : l.finished = true) :
    pull l = .ok (.endMarker l.lineNumber) l := by
  simp [pull, Outcome.run_bind, Outcome.run_get, work_finished hfinished, hpending,
    Outcome.run_pure]

theorem exists_pull_finished (hfinished : l.finished = true) :
    ∃ token l', pull l = .ok token l' ∧ l'.finished = true := by
  cases hpending : l.pending with
  | nil => exact ⟨_, l, pull_finished hpending hfinished, hfinished⟩
  | cons token pending =>
    refine ⟨token, { l with pending }, ?_, hfinished⟩
    simp [pull, Outcome.run_bind, Outcome.run_get, work_finished hfinished, hpending,
      Outcome.run_set]

theorem Reaches.only_markers {program after : List Token} {marker : Token}
    (reached : Reaches source tabSize (program ++ marker :: after) l)
    (hmarker : marker.kind = .endMarker) : ∀ token ∈ after, token.kind = .endMarker := by
  induction after generalizing program marker with
  | nil => exact nofun
  | cons token after induction =>
    rw [List.append_cons] at reached
    obtain ⟨m, before⟩ := (List.append_cons _ token after ▸ reached).within
    obtain ⟨m', finished, hpull⟩ := before.last
    obtain ⟨hfinished, hpending⟩ := finished.ended rfl hmarker
    rw [pull_finished hpending hfinished] at hpull
    obtain ⟨rfl, rfl⟩ := EStateM.Result.ok.inj hpull
    exact List.forall_mem_cons.mpr ⟨rfl, induction reached rfl⟩

/-! ### The sequence -/

/-- The tokens one by one, and then `marker` for ever. -/
def endless (tokens : List Token) (marker : Token) (i : Nat) : Token :=
  tokens[i]?.getD marker

theorem eq_endless {found tokens : List Token} {marker : Token} {count : Nat}
    (hfound : found <+: tokens ++ List.replicate count marker) :
    found = (List.range found.length).map (endless tokens marker) := by
  apply List.ext_getElem
  · simp
  · intro i hi _
    have hall := hfound.getElem hi
    rw [hall, List.getElem_map, List.getElem_range]
    by_cases htokens : i < tokens.length
    · simp [endless, htokens]
    · simp [endless, List.getElem_append_right (Nat.not_lt.mp htokens), Nat.not_lt.mp htokens]

theorem take_endless (tokens : List Token) (marker : Token) (count : Nat) :
    (List.range count).map (endless tokens marker) =
      (tokens ++ List.replicate count marker).take count := by
  have hlength : ((tokens ++ List.replicate count marker).take count).length = count := by simp
  have hfirst := eq_endless (List.take_prefix count (tokens ++ List.replicate count marker))
  rw [hfirst, hlength]

theorem range_succ_endless (tokens : List Token) (marker : Token) (count : Nat) :
    (List.range (count + 1)).map (endless tokens marker) =
      (List.range count).map (endless tokens marker) ++ [endless tokens marker count] := by
  rw [List.range_succ, List.map_append, List.map_singleton]

/-- A lexer whose source can be read to its end hands out the same tokens in every run, and after
the end marker that marker again and again. -/
theorem pulls_endless (htokens : (ofSource source tabSize).allTokens = .ok tokens) :
    ∃ program marker, tokens = program ++ [marker] ∧ marker.kind = .endMarker ∧
      ∀ handedOut l, Reaches source tabSize handedOut l →
        handedOut = (List.range handedOut.length).map (endless tokens marker) ∧
        ∃ l', pull l = .ok (endless tokens marker handedOut.length) l' := by
  obtain ⟨last, reached, program, marker, hprogram, hmarker, _⟩ := reaches_of_allTokens htokens
  obtain ⟨hfinished, hpending⟩ := reached.ended hprogram hmarker
  have hsame : marker = .endMarker last.lineNumber :=
    (reached.endMarker (by rw [hprogram]; simp) hmarker).2
  have hafter (count : Nat) :
      Reaches source tabSize (tokens ++ List.replicate count marker) last := by
    induction count with
    | zero => simpa using reached
    | succ count induction =>
      rw [List.replicate_succ', ← List.append_assoc]
      apply induction.pull
      rw [hsame]
      exact pull_finished hpending hfinished
  have hall (count : Nat) :
      ∃ l, Reaches source tabSize ((List.range count).map (endless tokens marker)) l := by
    rw [take_endless]
    have hlong := hafter count
    rw [← List.take_append_drop count (tokens ++ List.replicate count marker)] at hlong
    exact hlong.within
  have hnext {handedOut : List Token} {l : Lexer} (reached : Reaches source tabSize handedOut l)
      (hsofar : handedOut = (List.range handedOut.length).map (endless tokens marker)) :
      ∃ l', pull l = .ok (endless tokens marker handedOut.length) l' := by
    obtain ⟨m, further⟩ := hall (handedOut.length + 1)
    rw [range_succ_endless, ← hsofar] at further
    obtain ⟨l₀, reached', hpull⟩ := further.last
    obtain rfl := reached.unique reached'
    exact ⟨m, hpull⟩
  have hsequence {handedOut : List Token} {l : Lexer} (reached : Reaches source tabSize handedOut l) :
      handedOut = (List.range handedOut.length).map (endless tokens marker) := by
    induction reached with
    | start => rfl
    | @pull handedOut _ _ token reached hpull induction =>
      obtain ⟨m, hpull'⟩ := hnext reached induction
      rw [hpull] at hpull'
      obtain rfl := (EStateM.Result.ok.inj hpull').1
      rw [List.length_append, List.length_singleton, range_succ_endless, ← induction]
  exact ⟨program, marker, hprogram, hmarker, fun handedOut l reached =>
    ⟨hsequence reached, hnext reached (hsequence reached)⟩⟩

theorem tokensWithin_of_reaches {fuel : Nat} {before after : List Token} {marker : Token}
    {last : Lexer} (reached : Reaches source tabSize before l)
    (all : Reaches source tabSize (before ++ (after ++ [marker])) last)
    (hmarker : marker.kind = .endMarker) (hafter : ∀ token ∈ after, token.kind ≠ .endMarker)
    (hfuel : l.weight < fuel) : tokensWithin fuel l = (after ++ [marker], none, last) := by
  induction after generalizing before l fuel with
  | nil =>
    obtain ⟨m, reached', hpull⟩ := all.last
    obtain rfl := reached.unique reached'
    obtain ⟨fuel, rfl⟩ := Nat.exists_eq_succ_of_ne_zero (Nat.ne_zero_of_lt hfuel)
    simp [tokensWithin, hpull, hmarker]
  | cons token after induction =>
    rw [List.cons_append, List.append_cons] at all
    obtain ⟨m, next⟩ := all.within
    obtain ⟨l', reached', hpull⟩ := next.last
    obtain rfl := reached.unique reached'
    obtain ⟨fuel, rfl⟩ := Nat.exists_eq_succ_of_ne_zero (Nat.ne_zero_of_lt hfuel)
    have hother := hafter token List.mem_cons_self
    have hlighter : m.weight < fuel := by
      obtain ⟨_, _, _, hlighter | rfl⟩ := pull_lighter reached.toCome_lt hpull
      · omega
      · exact absurd rfl hother
    have hrest := induction next all
      (fun token htoken => hafter token (List.mem_cons_of_mem _ htoken)) hlighter
    simp [tokensWithin, hpull, hother, hrest]

theorem tokens_of_reaches {program : List Token} {marker : Token}
    (reached : Reaches source tabSize (program ++ [marker]) l) (hmarker : marker.kind = .endMarker)
    (hprogram : ∀ token ∈ program, token.kind ≠ .endMarker) :
    (ofSource source tabSize).tokens = (program ++ [marker], none) := by
  have hfuel : (ofSource source tabSize).weight < (ofSource source tabSize).bound := by
    rw [bound_ofSource]
    simp [weight, ofSource]
  have hall := tokensWithin_of_reaches .start reached hmarker hprogram hfuel
  simp [Lexer.tokens, hall]

theorem allTokens_of_reaches {program : List Token} {marker : Token}
    (reached : Reaches source tabSize (program ++ [marker]) l) (hmarker : marker.kind = .endMarker)
    (hprogram : ∀ token ∈ program, token.kind ≠ .endMarker) :
    (ofSource source tabSize).allTokens = .ok (program ++ [marker]) := by
  rw [allTokens, tokens_of_reaches reached hmarker hprogram]

/-- Whatever the lexer hands out, it is among the tokens of the source, or an end marker behind
them. -/
theorem Reaches.found_within {fuel : Nat} {found before : List Token} {m : Lexer}
    (hl : Reaches source tabSize before l) (hfuel : l.weight < fuel)
    (reached : Reaches source tabSize (before ++ found) m) :
    found <+: (tokensWithin fuel l).1 ∨ ∃ after, found = (tokensWithin fuel l).1 ++ after ∧
      ∀ t ∈ after, t.kind = .endMarker := by
  induction fuel generalizing before l found with
  | zero => omega
  | succ fuel induction =>
    cases found with
    | nil => exact .inl (List.nil_prefix)
    | cons token rest =>
      have hsplit := reached
      rw [List.append_cons] at hsplit
      obtain ⟨l', reached'⟩ := hsplit.within
      obtain ⟨k, hk, hpull⟩ := reached'.last
      obtain rfl := hk.unique hl
      simp only [tokensWithin, hpull, beq_iff_eq]
      split
      case isTrue hmarker =>
        exact .inr ⟨rest, rfl, reached.only_markers hmarker⟩
      case isFalse hother =>
        have hlighter : l'.weight < fuel := by
          obtain ⟨_, _, _, hlighter | rfl⟩ := pull_lighter hl.toCome_lt hpull
          · omega
          · exact absurd rfl hother
        obtain hfirst | ⟨after, hafter, hmarkers⟩ := induction reached' hlighter hsplit
        · exact .inl ((List.prefix_cons_inj token).mpr hfirst)
        · exact .inr ⟨after, congrArg (token :: ·) hafter, hmarkers⟩

theorem Reaches.found_tokens {found : List Token} (reached : Reaches source tabSize found l) :
    found <+: (ofSource source tabSize).tokens.1 ∨
      ∃ after, found = (ofSource source tabSize).tokens.1 ++ after ∧
        ∀ t ∈ after, t.kind = .endMarker := by
  have hbound : (ofSource source tabSize).weight < (ofSource source tabSize).bound := by
    rw [bound_ofSource]
    simp [weight, ofSource]
  exact found_within .start hbound reached

theorem Reaches.mem_tokens {found : List Token} (reached : Reaches source tabSize found l)
    {t : Token} (ht : t ∈ found) :
    t ∈ (ofSource source tabSize).tokens.1 ∨ t.kind = .endMarker := by
  obtain hfirst | ⟨after, rfl, hmarkers⟩ := reached.found_tokens
  · exact .inl (hfirst.subset ht)
  · exact (List.mem_append.mp ht).imp_right (hmarkers t)

/-- A lexer that has come to the end has handed out all tokens of its source. -/
theorem Reaches.tokens_prefix {found : List Token} (reached : Reaches source tabSize found l)
    {t : Token} (ht : t ∈ found) (hmarker : t.kind = .endMarker) :
    (ofSource source tabSize).tokens.1 <+: found := by
  have hsame {token : Token} (htoken : token ∈ found) (hkind : token.kind = .endMarker) :
      token = t :=
    (reached.endMarker htoken hkind).2.trans (reached.endMarker ht hmarker).2.symm
  obtain ⟨program, rest, rfl, hfirst⟩ := List.eq_append_cons_of_mem ht
  have hprogram : ∀ token ∈ program, token.kind ≠ .endMarker := by
    intro token htoken hkind
    obtain rfl := hsame (List.mem_append_left _ htoken) hkind
    exact hfirst htoken
  rw [List.append_cons] at reached ⊢
  obtain ⟨m, reached'⟩ := reached.within
  rw [tokens_of_reaches reached' hmarker hprogram]
  exact List.prefix_append _ _

end ShellSyntax.Lexer
