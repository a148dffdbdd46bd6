import ShellSyntax.Proofs.Parser.Passes

/-!
What a parse says when it fails. The messages of the lexer and those of a grammar are particular;
the two that are the parser's own are given where both passes end without a cause and where brackets
are nested too deep.
-/

namespace ShellSyntax

variable {R : RuleSet}

theorem LexError.not_own_message (e : LexError) : e.message ∉ Parser.ownMessages := by
  cases e with
  | unterminatedSearchPath place =>
    exact (by decide : "unterminated search path literal" ∉ Parser.ownMessages)
  | endInStatement place =>
    exact (by decide : "unexpected EOF in multi-line statement" ∉ Parser.ownMessages)
  | badDedent place =>
    exact (by decide :
      "unindent does not match any outer indentation level" ∉ Parser.ownMessages)
  | expectedBlock place =>
    exact (by decide :
      "expected an indented block after 'with!' statement" ∉ Parser.ownMessages)
  | unterminatedString place | unterminatedFString place | unmatchedCloser found place =>
    exact Parser.not_own_of_head (Parser.head_append (Parser.head_append rfl _) _) (by decide)
  | unclosedBracket opener place =>
    exact Parser.not_own_of_head (Parser.head_append (Parser.head_append rfl _) _) (by decide)
  | mismatchedBracket found opener place =>
    exact Parser.not_own_of_head (Parser.head_append (Parser.head_append (Parser.head_append
      (Parser.head_append rfl _) _) _) _) (by decide)
  | undecodable | missingFile =>
    exact Parser.not_own_of_head (Parser.head_append rfl _) (by decide)

def Aborts (keep : Keeper R) (G : Grammar R) (entry : R.Rule) (s : Session R) : Prop :=
  (∃ abort t, Parser.runRuleWith keep G entry s = .error abort t) ∨
    ∃ t, Parser.runRuleWith keep G entry s = .ok none t ∧
      ∃ abort u, Parser.runRuleWith keep G entry (Parser.secondPass t) = .error abort u

variable {keep keep' : Keeper R} {K : Ranking R} {G : Grammar R} {entry : R.Rule} {s : Session R}

theorem parseWith_of_not_aborts (h : ¬Aborts keep G entry s) :
    (∃ tree, (Parser.parseWith keep G entry s).1 = .ok tree) ∨
      ∃ error, (Parser.parseWith keep G entry s).1 = .error error ∧
        error.message = "invalid syntax" := by
  unfold Parser.parseWith
  cases hrun : Parser.runRuleWith keep G entry s with
  | error abort t => exact absurd (.inl ⟨abort, t, hrun⟩) h
  | ok found t =>
    cases found with
    | some tree => exact .inl ⟨tree, rfl⟩
    | none =>
      dsimp only
      cases hsecond : Parser.runRuleWith keep G entry (Parser.secondPass t) with
      | error abort u => exact absurd (.inr ⟨t, hrun, abort, u, hsecond⟩) h
      | ok found u => exact .inr ⟨_, rfl, rfl⟩

/-- The message is particular, or it says that a reading of this depth is too deep. -/
def Explains (depth : Nat) (error : SyntaxError) : Prop :=
  error.message ∉ Parser.ownMessages ∨
    error.message = tooDeepMessage ∧ Session.nestingLimit < depth

theorem Explains.ne_invalid {depth : Nat} {error : SyntaxError} (h : Explains depth error) :
    error.message ≠ "invalid syntax" := by
  rcases h with hparticular | ⟨hmessage, _⟩
  · exact fun hinvalid => hparticular (hinvalid ▸ List.mem_cons_self)
  · rw [hmessage]
    decide

theorem Explains.depth {depth : Nat} {error : SyntaxError} (h : Explains depth error)
    (hmessage : error.message = tooDeepMessage) : Session.nestingLimit < depth := by
  rcases h with hparticular | ⟨_, hdeep⟩
  · exact absurd (hmessage ▸ List.mem_cons_of_mem _ List.mem_cons_self) hparticular
  · exact hdeep

theorem Agrees.explains {p : Pass} {answers : Callee R} {o : Tried R} {depth n : Nat} {α : Type}
    {reading : Reading α} {run : EStateM.Result Abort (Session R) α} {abort : Abort}
    (h : Agrees p answers o depth n reading run (.error abort s))
    (hproper : ∀ halt, reading.result = .error halt → halt.Proper) :
    Explains (depth + reading.depth) (Parser.report abort s).1 := by
  cases h with
  | lexical hresult hstuck => exact .inl (LexError.not_own_message _)
  | fault hresult hfilled => exact .inl (hproper _ hresult)
  | tooDeep hmessage hdepth => exact .inr ⟨hmessage, hdepth⟩
  | endless hresult => exact (hproper _ hresult).elim

theorem Aborts.explains {stream : TokenStream} {filename : String} {traceLimit : Option Nat}
    (hG : K.Governs G) (hnames : R.Distinguishes) (hkeep : Faithful K G keep keep')
    (hentry : K.isEntry entry = true) (fresh : stream.Fresh)
    (h : Aborts keep' G entry (.ofStream stream filename traceLimit)) :
    let p := Pass.first stream fresh filename
    ∃ error, (Parser.parseWith keep' G entry (.ofStream stream filename traceLimit)).1 =
        .error error ∧
      (Explains (p.reading G K entry).depth error ∨
        Explains (p.second.reading G K entry).depth error) := by
  intro p
  obtain ⟨hagrees, hends⟩ := firstPass_agrees filename traceLimit hG hnames hkeep hentry fresh
  unfold Parser.parseWith
  rcases h with ⟨abort, t, hrun⟩ | ⟨t, hrun, abort, u, hsecond⟩
  · rw [hrun] at hagrees ⊢
    have hexplains := hagrees.explains fun halt => Pass.reading_proper hG hentry
    rw [Nat.zero_add] at hexplains
    exact ⟨_, rfl, .inl hexplains⟩
  · have hfirst := (hagrees.eq hends).trans hrun
    obtain ⟨⟨n, hagrees'⟩, _⟩ := secondPass_agrees hG hnames hkeep hentry fresh hfirst
    rw [hsecond] at hagrees'
    have hexplains := hagrees'.explains fun halt => Pass.reading_proper hG hentry
    rw [Nat.zero_add] at hexplains
    rw [hrun]
    dsimp only
    rw [hsecond]
    exact ⟨_, rfl, .inr hexplains⟩

theorem TooDeep.reading {stream : TokenStream} {filename : String} {traceLimit : Option Nat}
    (h : TooDeep (Parser.parseWith keep' G entry (.ofStream stream filename traceLimit)).1)
    (hG : K.Governs G) (hnames : R.Distinguishes) (hkeep : Faithful K G keep keep')
    (hentry : K.isEntry entry = true) (fresh : stream.Fresh) :
    let p := Pass.first stream fresh filename
    Session.nestingLimit < (p.reading G K entry).depth ∨
      Session.nestingLimit < (p.second.reading G K entry).depth := by
  obtain ⟨error, herror, hmessage⟩ := h
  have haborts : Aborts keep' G entry (.ofStream stream filename traceLimit) := by
    refine Classical.byContradiction fun hruns => ?_
    rcases parseWith_of_not_aborts hruns with ⟨tree, htree⟩ | ⟨other, hother, hinvalid⟩
    · cases htree.symm.trans herror
    · cases hother.symm.trans herror
      rw [hmessage] at hinvalid
      exact absurd hinvalid (by decide)
  obtain ⟨other, hother, hexplains⟩ := haborts.explains hG hnames hkeep hentry fresh
  cases hother.symm.trans herror
  exact hexplains.imp (fun h => h.depth hmessage) (fun h => h.depth hmessage)

end ShellSyntax
