import ShellSyntax.Proofs.Lexer.Cover
import ShellSyntax.Proofs.Lexer.Readable
import ShellSyntax.Proofs.Parser.Buffer

/-!
What the tokens of a stream say about its source. An end marker says that the source was read to its
end, so tokens come for ever; and tokens come in the order of the text.
-/

namespace ShellSyntax.TokenStream

variable {source : Source} {tabSize : Nat} {origin : Option Origin} {i j n : Nat}
  {token other : Token} {t : TokenStream}

theorem holds_filled
    (hfilled : (ofLexer (.ofSource source tabSize) origin).filled n = .ok () t) :
    Holds source tabSize t := by
  induction n generalizing t with
  | zero =>
    obtain ⟨_, rfl⟩ := EStateM.Result.ok.inj hfilled
    exact (driven_ofLexer source tabSize origin).holds
  | succ n induction =>
    obtain ⟨t', hbefore, hfill⟩ := filled_succ hfilled
    obtain ⟨_, reached, _⟩ := (induction hbefore).read
    exact ((induction hbefore).of_fill (reaches_weight_lt reached) hfill).1

theorem supplied (h : (ofLexer (.ofSource source tabSize) origin).supply i = .ok token) :
    ∃ t, (ofLexer (.ofSource source tabSize) origin).filled (i + 1) = .ok () t ∧
      t.tokens[i]? = some token := by
  have hsupply := h
  unfold supply at hsupply
  cases hfilled : (ofLexer (.ofSource source tabSize) origin).filled (i + 1) with
  | error e t => simp [hfilled] at hsupply
  | ok u t =>
    obtain ⟨found, hfound, hsame⟩ :=
      ((fresh_ofLexer source tabSize origin).filled hfilled).supply (Nat.lt_succ_self i)
    cases h.symm.trans hsame
    exact ⟨t, rfl, hfound⟩

theorem Holds.handedOut (holds : Holds source tabSize t) :
    ∃ handedOut, Lexer.Reaches source tabSize handedOut t.lexer ∧
      t.tokens.toList.Sublist handedOut := by
  obtain ⟨handedOut, reached, htokens⟩ := holds.read
  refine ⟨handedOut, reached, ?_⟩
  rw [htokens]
  exact significant_sublist handedOut

theorem supply_found (h : (ofLexer (.ofSource source tabSize) origin).supply i = .ok token) :
    ∃ found l, Lexer.Reaches source tabSize found l ∧ token ∈ found := by
  obtain ⟨t, hfilled, htoken⟩ := supplied h
  obtain ⟨found, reached, hsub⟩ := (holds_filled hfilled).handedOut
  exact ⟨found, t.lexer, reached, hsub.mem (Array.mem_of_getElem? htoken).val⟩

/-! ### The end of the source -/

theorem finished_of_endMarker
    (h : (ofLexer (.ofSource source tabSize) origin).supply i = .ok token)
    (hmarker : token.kind = .endMarker) :
    ∃ t, (ofLexer (.ofSource source tabSize) origin).filled (i + 1) = .ok () t ∧
      t.lexer.finished = true := by
  obtain ⟨t, hfilled, htoken⟩ := supplied h
  obtain ⟨handedOut, reached, hsub⟩ := (holds_filled hfilled).handedOut
  have hmem : token ∈ t.tokens.toList := (Array.mem_of_getElem? htoken).val
  exact ⟨t, hfilled, (reached.endMarker (hsub.mem hmem) hmarker).1⟩

theorem filled_finished
    (hfilled : (ofLexer (.ofSource source tabSize) origin).filled n = .ok () t)
    (hfinished : t.lexer.finished = true) (more : Nat) :
    ∃ t', (ofLexer (.ofSource source tabSize) origin).filled (n + more) = .ok () t' ∧
      t'.lexer.finished = true := by
  induction more with
  | zero => exact ⟨t, hfilled, hfinished⟩
  | succ more induction =>
    obtain ⟨t', hbefore, hended⟩ := induction
    obtain ⟨_, reached, _⟩ := (holds_filled hbefore).read
    obtain ⟨t'', hfill, hstill⟩ := exists_fill (fun l => l.finished = true)
      reached.toCome_lt hended (fun l hl => Lexer.exists_pull_finished hl)
      (reaches_weight_lt reached)
    refine ⟨t'', ?_, hstill⟩
    rw [← Nat.add_assoc, filled, hbefore]
    exact hfill

theorem filled_before (hle : i ≤ n)
    (hfilled : (ofLexer (.ofSource source tabSize) origin).filled n = .ok () t) :
    ∃ t', (ofLexer (.ofSource source tabSize) origin).filled i = .ok () t' := by
  induction hle using Nat.decreasingInduction generalizing t with
  | self => exact ⟨t, hfilled⟩
  | of_succ i _ induction =>
    obtain ⟨t', hnext⟩ := induction hfilled
    obtain ⟨t'', hbefore, _⟩ := filled_succ hnext
    exact ⟨t'', hbefore⟩

theorem supply_endless
    (h : (ofLexer (.ofSource source tabSize) origin).supply i = .ok token)
    (hmarker : token.kind = .endMarker) (j : Nat) :
    ∃ token, (ofLexer (.ofSource source tabSize) origin).supply j = .ok token := by
  obtain ⟨t, hfilled, hfinished⟩ := finished_of_endMarker h hmarker
  obtain ⟨t', hlong, _⟩ := filled_finished hfilled hfinished j
  obtain ⟨t'', hshort⟩ := filled_before (show j + 1 ≤ i + 1 + j by omega) hlong
  simp only [supply, hshort]
  exact ⟨_, rfl⟩

theorem supply_ended
    (h : (ofLexer (.ofSource source tabSize) origin).supply i = .ok token)
    (hmarker : token.kind = .endMarker) (hlt : i < j)
    (hj : (ofLexer (.ofSource source tabSize) origin).supply j = .ok other) :
    other.kind = .endMarker := by
  obtain ⟨t, hfilled, hother⟩ := supplied hj
  obtain ⟨found, htoken, hsame⟩ :=
    ((fresh_ofLexer source tabSize origin).filled hfilled).supply (Nat.lt_succ_of_lt hlt)
  cases h.symm.trans hsame
  rw [← Array.getElem?_toList] at htoken hother
  have hlater : other ∈ t.tokens.toList.drop (i + 1) := by
    refine List.mem_of_getElem? (i := j - (i + 1)) ?_
    rw [List.getElem?_drop, Nat.add_sub_cancel' hlt, hother]
  obtain ⟨hi, hget⟩ := List.getElem?_eq_some_iff.mp htoken
  obtain ⟨handedOut, reached, hsub⟩ := (holds_filled hfilled).handedOut
  have hbehind := (List.drop_sublist i _).trans hsub
  rw [List.drop_eq_getElem_cons hi, hget, List.cons_sublist_iff] at hbehind
  obtain ⟨before, after, rfl, hmem, hafter⟩ := hbehind
  obtain ⟨program, between, rfl⟩ := List.append_of_mem hmem
  rw [List.append_assoc, List.cons_append] at reached
  exact reached.only_markers hmarker other (List.mem_append_right _ (hafter.mem hlater))

theorem lt_limit {fresh : (ofLexer (.ofSource source tabSize) origin).Fresh} {diagnosing : Bool}
    (h : (ofLexer (.ofSource source tabSize) origin).supply i = .ok token)
    (hshown : token.kind ≠ .endMarker) :
    i < ((ofLexer (.ofSource source tabSize) origin).world fresh diagnosing).limit := by
  let W := (ofLexer (.ofSource source tabSize) origin).world fresh diagnosing
  change i < W.limit
  refine Nat.lt_of_not_le fun hle => hshown ?_
  obtain ⟨t, hfilled, _⟩ := supplied h
  obtain ⟨t', hbefore⟩ := filled_before (Nat.succ_le_succ hle) hfilled
  obtain ⟨last, _, hlast⟩ := (fresh.filled hbefore).supply (Nat.lt_succ_self W.limit)
  have hend : last.kind = .endMarker := (W.ends last hlast).1
  rcases Nat.lt_or_eq_of_le hle with hlt | heq
  · exact supply_ended hlast hend hlt h
  · rw [heq] at hlast
    cases h.symm.trans hlast
    exact hend

theorem readable_of_endMarker
    (h : (ofLexer (.ofSource source tabSize) origin).supply i = .ok token)
    (hmarker : token.kind = .endMarker) : ∃ lines : List (List Char), source = lines.map .text := by
  obtain ⟨t, hfilled, hfinished⟩ := finished_of_endMarker h hmarker
  obtain ⟨_, reached, _⟩ := (holds_filled hfilled).read
  exact reached.readable hfinished

/-! ### The order of the tokens -/

variable {text : List Char}

theorem supply_forward
    (h : (ofLexer (.ofSource (.ofText text) tabSize) origin).supply i = .ok token) :
    token.start ≤ token.stop := by
  obtain ⟨found, l, reached, hmem⟩ := supply_found h
  obtain ⟨p, tiled⟩ := reached.tiled
  exact tiled.forward token (List.mem_append_left _ hmem)

theorem supply_sorted (hlt : i < j)
    (hi : (ofLexer (.ofSource (.ofText text) tabSize) origin).supply i = .ok token)
    (hj : (ofLexer (.ofSource (.ofText text) tabSize) origin).supply j = .ok other) :
    token.stop ≤ other.start := by
  obtain ⟨t, hfilled, hother⟩ := supplied hj
  have htoken : t.tokens[i]? = some token := by
    obtain ⟨found, hfound, hsame⟩ :=
      ((fresh_ofLexer (.ofText text) tabSize origin).filled hfilled).supply
        (Nat.lt_succ_of_lt hlt)
    cases hi.symm.trans hsame
    exact hfound
  obtain ⟨handedOut, reached, hsub⟩ := (holds_filled hfilled).handedOut
  obtain ⟨p, tiled⟩ := reached.tiled
  have hsorted := tiled.sorted.sublist (hsub.trans (List.sublist_append_left _ _))
  rw [← Array.getElem?_toList] at htoken hother
  obtain ⟨hilt, rfl⟩ := List.getElem?_eq_some_iff.mp htoken
  obtain ⟨hjlt, rfl⟩ := List.getElem?_eq_some_iff.mp hother
  exact List.pairwise_iff_getElem.mp hsorted i j hilt hjlt hlt

end ShellSyntax.TokenStream
