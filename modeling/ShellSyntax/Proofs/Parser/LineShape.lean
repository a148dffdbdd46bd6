import ShellSyntax.Proofs.Parser.Buffer

/-!
The shape of logical lines: what it means that tokens are laid out in them, and that dropping what
the grammar does not see keeps the layout.
-/

namespace ShellSyntax

/-! ### Lines -/

/-- The physical line with this number ends in a backslash, which joins the next line to it. -/
def JoinsNext (text : List Char) (number : Nat) : Prop :=
  ∃ before content ending, number = before + 1 ∧
    (Text.splitLines text)[before]? = some (content ++ '\\' :: ending) ∧
    Lexeme.atLineEnd ending = true

/-- On the physical line with this number a logical line may come to nothing: a character that the
lexer does not know and the grammar takes for white space stands on it, or it is joined to the line
before. -/
def MayBeEmpty (text : List Char) (raw : List Token) (number : Nat) : Prop :=
  (∃ odd ∈ raw, odd.kind = .error ∧ odd.isVisible = false ∧ odd.start.line = number) ∨
    ∃ before, number = before + 1 ∧ JoinsNext text before

theorem MayBeEmpty.mono {text : List Char} {raw : List Token} {number : Nat}
    (h : MayBeEmpty text raw number) (more : List Token) : MayBeEmpty text (raw ++ more) number :=
  h.imp_left fun ⟨odd, hmem, hodd⟩ => ⟨odd, List.mem_append_left _ hmem, hodd⟩

/-- Among the tokens are the name `with` and an exclamation mark right behind it. -/
def HoldsMark (run : List Token) : Prop :=
  ∃ name ∈ run, name.kind = .name ∧ name.text = "with" ∧
    ∃ bang ∈ run, bang.isOp "!" = true ∧ bang.start = name.stop

/-- The head of a statement whose body is raw text: a marked `with`, and a colon at the end. -/
def AnnouncesBody (run : List Token) : Prop :=
  HoldsMark run ∧ ∃ colon, run.getLast? = some colon ∧ colon.isOp ":" = true

theorem HoldsMark.mono {run run' : List Token} (h : HoldsMark run) (hsubset : run ⊆ run') :
    HoldsMark run' := by
  obtain ⟨name, hname, hkind, htext, bang, hbang, hmark⟩ := h
  exact ⟨name, hsubset hname, hkind, htext, bang, hsubset hbang, hmark⟩

/-- Indents, dedents and logical lines. Those that are empty are closed on lines where they may
be. -/
inductive Laid (mayBeEmpty : Nat → Prop) : List Token → Prop
  | start : Laid mayBeEmpty []
  | indent {tokens : List Token} {token : Token} (before : Laid mayBeEmpty tokens)
      (hkind : token.kind = .indent) : Laid mayBeEmpty (tokens ++ [token])
  | dedent {tokens : List Token} {token : Token} (before : Laid mayBeEmpty tokens)
      (hkind : token.kind = .dedent) : Laid mayBeEmpty (tokens ++ [token])
  | line {tokens run : List Token} {closer : Token} (before : Laid mayBeEmpty tokens)
      (hsome : run ≠ []) (hwords : ∀ token ∈ run, token.kind.isLayout = false)
      (hcloser : closer.kind = .newline) : Laid mayBeEmpty (tokens ++ (run ++ [closer]))
  | body {tokens run : List Token} {closer : Token} (before : Laid mayBeEmpty tokens)
      (hhead : AnnouncesBody run) (hwords : ∀ token ∈ run, token.kind.isLayout = false)
      (hcloser : closer.kind = .macroParam) : Laid mayBeEmpty (tokens ++ (run ++ [closer]))
  | empty {tokens : List Token} {closer : Token} (before : Laid mayBeEmpty tokens)
      (hcloser : closer.kind = .newline) (hempty : mayBeEmpty closer.start.line) :
      Laid mayBeEmpty (tokens ++ [closer])

namespace Laid

variable {mayBeEmpty : Nat → Prop} {tokens : List Token}

theorem mono {mayBeEmpty' : Nat → Prop} (laid : Laid mayBeEmpty tokens)
    (h : ∀ number, mayBeEmpty number → mayBeEmpty' number) : Laid mayBeEmpty' tokens := by
  induction laid with
  | start => exact .start
  | indent _ hkind induction => exact .indent induction hkind
  | dedent _ hkind induction => exact .dedent induction hkind
  | line _ hsome hwords hcloser induction => exact .line induction hsome hwords hcloser
  | body _ hhead hwords hcloser induction => exact .body induction hhead hwords hcloser
  | empty _ hcloser hempty induction => exact .empty induction hcloser (h _ hempty)

theorem ne_endMarker (laid : Laid mayBeEmpty tokens) :
    ∀ token ∈ tokens, token.kind ≠ .endMarker := by
  have hwords {run : List Token} (hrun : ∀ token ∈ run, token.kind.isLayout = false) :
      ∀ token ∈ run, token.kind ≠ .endMarker := by
    intro token htoken hkind
    have hlayout := hrun token htoken
    rw [hkind] at hlayout
    cases hlayout
  induction laid with
  | start => simp
  | indent _ hkind induction | dedent _ hkind induction | empty _ hkind _ induction =>
    simpa [or_imp, forall_and, hkind] using induction
  | line _ _ hrun hkind induction | body _ _ hrun hkind induction =>
    simpa [or_imp, forall_and, hkind] using ⟨induction, hwords hrun⟩

theorem blocks (laid : Laid mayBeEmpty tokens) {bounds : List Token}
    (hbounds : ∀ token ∈ bounds, token.kind = .indent ∨ token.kind = .dedent) :
    Laid mayBeEmpty (tokens ++ bounds) := by
  induction bounds generalizing tokens with
  | nil => simpa using laid
  | cons token bounds induction =>
    have hlater : ∀ token ∈ bounds, token.kind = .indent ∨ token.kind = .dedent :=
      fun token htoken => hbounds token (List.mem_cons_of_mem _ htoken)
    rw [List.append_cons]
    obtain hkind | hkind := hbounds token List.mem_cons_self
    · exact induction (.indent laid hkind) hlater
    · exact induction (.dedent laid hkind) hlater

theorem split_run {run before after : List Token} {closer : Token}
    (hwords : ∀ token ∈ run, token.kind.isLayout = false)
    (hsplit : tokens ++ run = before ++ closer :: after) (hcloser : closer.kind = .newline) :
    ∃ middle, tokens = before ++ closer :: middle := by
  have houtside : closer ∉ run := by
    intro hmem
    have hlayout := hwords closer hmem
    rw [hcloser] at hlayout
    cases hlayout
  obtain ⟨rest, _, hrun⟩ | ⟨rest, htokens, hrest⟩ := List.append_eq_append_iff.mp hsplit
  · rw [hrun] at houtside
    simp at houtside
  · cases rest with
    | nil =>
      rw [List.nil_append] at hrest
      exact absurd (hrest ▸ List.mem_cons_self) houtside
    | cons first rest =>
      obtain ⟨rfl, _⟩ := List.cons.inj hrest
      exact ⟨rest, htokens⟩

theorem newline (laid : Laid mayBeEmpty tokens) {before after : List Token} {closer : Token}
    (hsplit : tokens = before ++ closer :: after) (hcloser : closer.kind = .newline) :
    (∃ token, before.getLast? = some token ∧ token.kind.isLayout = false) ∨
      mayBeEmpty closer.start.line := by
  induction laid generalizing after with
  | start => simp at hsplit
  | indent _ hkind induction | dedent _ hkind induction =>
    obtain ⟨_, _, rfl⟩ | ⟨middle, _, hfound⟩ := Lexer.append_singleton_eq_split hsplit
    · rw [hkind] at hcloser
      cases hcloser
    · exact induction hfound
  | @line tokens run _ _ hsome hwords _ induction =>
    rw [← List.append_assoc] at hsplit
    obtain ⟨_, rfl, rfl⟩ | ⟨middle, _, hfound⟩ := Lexer.append_singleton_eq_split hsplit
    · refine .inl ⟨run.getLast hsome, ?_, hwords _ (List.getLast_mem hsome)⟩
      rw [List.getLast?_append_of_ne_nil _ hsome, List.getLast?_eq_some_getLast hsome]
    · obtain ⟨further, hfurther⟩ := split_run hwords hfound hcloser
      exact induction hfurther
  | body _ _ hwords hkind induction =>
    rw [← List.append_assoc] at hsplit
    obtain ⟨_, _, rfl⟩ | ⟨middle, _, hfound⟩ := Lexer.append_singleton_eq_split hsplit
    · rw [hkind] at hcloser
      cases hcloser
    · obtain ⟨further, hfurther⟩ := split_run hwords hfound hcloser
      exact induction hfurther
  | empty _ _ hempty induction =>
    obtain ⟨_, _, rfl⟩ | ⟨middle, _, hfound⟩ := Lexer.append_singleton_eq_split hsplit
    · exact .inr hempty
    · exact induction hfound

end Laid

/-! ### The grammar's view -/

theorem significant_filter (raw : List Token) :
    significant (raw.filter Token.isVisible) = significant raw := by
  simp [significant, List.filter_filter]

theorem significant_kept {raw : List Token} {token : Token} (hvisible : token.isVisible = true)
    (hline : ∀ last, (significant raw).getLast? = some last →
      ¬(last.kind = .newline ∧ token.kind = .newline)) :
    significant (raw ++ [token]) = significant raw ++ [token] := by
  rw [significant_concat, if_neg]
  rw [isDropped_eq]
  rintro (hhidden | ⟨last, hlast, hboth⟩)
  · rw [hvisible] at hhidden
    cases hhidden
  · exact hline last hlast hboth

theorem significant_run (raw : List Token) {run : List Token}
    (hvisible : ∀ token ∈ run, token.isVisible = true)
    (hwords : ∀ token ∈ run, token.kind ≠ .newline) :
    significant (raw ++ run) = significant raw ++ run := by
  induction run generalizing raw with
  | nil => simp
  | cons token run induction =>
    have hkept : significant (raw ++ [token]) = significant raw ++ [token] :=
      significant_kept (hvisible token List.mem_cons_self)
        fun _ _ hboth => hwords token List.mem_cons_self hboth.2
    rw [List.append_cons, induction (raw ++ [token])
      (fun token htoken => hvisible token (List.mem_cons_of_mem _ htoken))
      (fun token htoken => hwords token (List.mem_cons_of_mem _ htoken)), hkept, ← List.append_cons]

theorem Laid.significant {mayBeEmpty : Nat → Prop} {tokens : List Token}
    (laid : Laid mayBeEmpty tokens) (hvisible : ∀ token ∈ tokens, token.isVisible = true) :
    Laid mayBeEmpty (significant tokens) := by
  have hnewline {run : List Token} (hwords : ∀ token ∈ run, token.kind.isLayout = false) :
      ∀ token ∈ run, token.kind ≠ .newline := by
    intro token htoken hkind
    have hlayout := hwords token htoken
    rw [hkind] at hlayout
    cases hlayout
  induction laid with
  | start => exact .start
  | @indent tokens token _ hkind induction =>
    rw [significant_kept (hvisible token (by simp)) (by simp [hkind])]
    exact .indent (induction fun token htoken => hvisible token (List.mem_append_left _ htoken)) hkind
  | @dedent tokens token _ hkind induction =>
    rw [significant_kept (hvisible token (by simp)) (by simp [hkind])]
    exact .dedent (induction fun token htoken => hvisible token (List.mem_append_left _ htoken)) hkind
  | @line tokens run closer _ hsome hwords hcloser induction =>
    have hrun := significant_run tokens (fun token htoken => hvisible token (by simp [htoken]))
      (hnewline hwords)
    rw [← List.append_assoc, significant_kept (hvisible closer (by simp)), hrun, List.append_assoc]
    · exact .line (induction fun token htoken => hvisible token (List.mem_append_left _ htoken))
        hsome hwords hcloser
    · intro last hlast hboth
      rw [hrun, List.getLast?_append_of_ne_nil _ hsome] at hlast
      exact hnewline hwords last (List.mem_of_getLast? hlast) hboth.1
  | @body tokens run closer _ hhead hwords hcloser induction =>
    have hrun := significant_run tokens (fun token htoken => hvisible token (by simp [htoken]))
      (hnewline hwords)
    rw [← List.append_assoc, significant_kept (hvisible closer (by simp)) (by simp [hcloser]), hrun,
      List.append_assoc]
    exact .body (induction fun token htoken => hvisible token (List.mem_append_left _ htoken))
      hhead hwords hcloser
  | @empty tokens closer _ hcloser hempty induction =>
    have before := induction fun token htoken => hvisible token (List.mem_append_left _ htoken)
    rw [significant_concat]
    split
    · exact before
    · exact .empty before hcloser hempty

theorem significant_newlines (raw : List Token) :
    (significant raw).IsChain fun before token =>
      ¬(before.kind = .newline ∧ token.kind = .newline) :=
  List.isChain_destutter _ _

end ShellSyntax
