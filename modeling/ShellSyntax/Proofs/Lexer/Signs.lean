import ShellSyntax.Proofs.Lexer.Quotations

/-!
Signs. Where the cursor stands at a colon or an exclamation mark outside the text of any literal, a
step reads the operator that starts there.
-/

namespace ShellSyntax

namespace Spelling

/-- The operator that starts with an exclamation mark before `after`. -/
def bangOperator (after : List Char) : String :=
  match after with
  | '=' :: _ => "!="
  | '(' :: _ => "!("
  | '[' :: _ => "!["
  | _ => "!"

theorem bangOperator_cases (after : List Char) :
    bangOperator after = "!" ∨ ∃ c more, after = c :: more ∧
      (c = '=' ∧ bangOperator after = "!=" ∨ c = '(' ∧ bangOperator after = "!(" ∨
        c = '[' ∧ bangOperator after = "![") := by
  unfold bangOperator
  split
  · exact .inr ⟨_, _, rfl, .inl ⟨rfl, rfl⟩⟩
  · exact .inr ⟨_, _, rfl, .inr (.inl ⟨rfl, rfl⟩)⟩
  · exact .inr ⟨_, _, rfl, .inr (.inr ⟨rfl, rfl⟩)⟩
  · exact .inl rfl

theorem firstMatch_bang (after : List Char) :
    firstMatch operators ('!' :: after) = some (bangOperator after) ∧
      firstMatch commandOperators ('!' :: after) = some (bangOperator after) := by
  cases after with
  | nil => decide
  | cons c after =>
    by_cases heq : c = '='
    · subst heq
      simp [firstMatch, operators, commandOperators, List.isPrefixOf, bangOperator]
    by_cases hparen : c = '('
    · subst hparen
      simp [firstMatch, operators, commandOperators, List.isPrefixOf, bangOperator]
    by_cases hsquare : c = '['
    · subst hsquare
      simp [firstMatch, operators, commandOperators, List.isPrefixOf, bangOperator]
    simp [firstMatch, operators, commandOperators, List.isPrefixOf, bangOperator, Ne.symm heq,
      Ne.symm hparen, Ne.symm hsquare, heq, hparen, hsquare]

theorem firstMatch_colon {after : List Char} (hafter : after.head? ≠ some '=') :
    firstMatch operators (':' :: after) = some ":" := by
  cases after with
  | nil => decide
  | cons c after =>
    have heq : c ≠ '=' := fun h => hafter (congrArg some h)
    simp [firstMatch, operators, List.isPrefixOf, Ne.symm heq]

theorem firstMatch_closer (after : List Char) : firstMatch operators (')' :: after) = some ")" := by
  simp [firstMatch, operators, List.isPrefixOf]

end Spelling

namespace Lexer

open Outcome

variable {l : Lexer} {c : Char} {after : List Char}

theorem step_of_sign (houtside : l.Outside) (hrest : l.rest = c :: after)
    (hsign : c = '!' ∨ c = ':' ∨ c = ')') :
    step l = if l.brackets.inCommand then scanCommandToken l else scanHostToken l := by
  have hopening : StringLetters.opening? l.rest = none := by
    cases hopening : StringLetters.opening? l.rest with
    | none => rfl
    | some opening =>
      rw [hrest] at hopening
      obtain hname | rfl | rfl := StringLetters.head_of_opening? hopening
      · obtain rfl | rfl | rfl := hsign
        · exact absurd hname (by decide +kernel)
        · exact absurd hname (by decide +kernel)
        · exact absurd hname (by decide +kernel)
      · simp at hsign
      · simp at hsign
  have hsearch : Lexeme.searchOpening? l.rest = none := by
    rw [hrest]
    obtain rfl | rfl | rfl := hsign <;> simp [Lexeme.searchOpening?]
  have hspace : Lexeme.isSpace c = false := by obtain rfl | rfl | rfl := hsign <;> decide
  have hbreak : Lexeme.isLineBreak c = false := by obtain rfl | rfl | rfl := hsign <;> decide
  have hother : c ≠ '\\' ∧ c ≠ '#' := by obtain rfl | rfl | rfl := hsign <;> decide
  rw [step_of_outside (by simp [hrest]) houtside]
  simp only [scanToken, run_bind, run_get, hopening, hsearch]
  rw [hrest]
  simp only [hspace, hbreak, beq_eq_false_iff_ne.mpr hother.1, beq_eq_false_iff_ne.mpr hother.2,
    Bool.false_and, Bool.false_eq_true, if_false]
  split <;> rfl

theorem scanHostToken_of_sign (hrest : l.rest = c :: after) (hsign : c = '!' ∨ c = ':' ∨ c = ')')
    {op : String} (hmatch : Spelling.firstMatch Spelling.operators l.rest = some op) :
    scanHostToken l = scanOperator op l := by
  have hnumber : Lexeme.startsNumber l.rest = false := by
    rw [hrest]
    obtain rfl | rfl | rfl := hsign <;> cases after <;> rfl
  have hname : Lexeme.startsName c = false := by
    obtain rfl | rfl | rfl := hsign <;> decide +kernel
  simp only [scanHostToken, run_bind, run_get, hnumber, hmatch]
  simp only [hrest, List.head?_cons, Option.map_some, Option.getD_some, hname,
    Bool.false_eq_true, if_false]

/-- An exclamation mark is read alike in expressions and among the words of a command. -/
theorem step_bang (houtside : l.Outside) (hrest : l.rest = '!' :: after) :
    step l = scanOperator (Spelling.bangOperator after) l := by
  obtain ⟨hhost, hcommand⟩ := Spelling.firstMatch_bang after
  rw [← hrest] at hhost hcommand
  rw [step_of_sign houtside hrest (.inl rfl), scanHostToken_of_sign hrest (.inl rfl) hhost]
  split
  · simp only [scanCommandToken, run_bind, run_get, hcommand]
    simp only [hrest]
    rfl
  · rfl

theorem step_colon (houtside : l.Outside) (hhost : l.brackets.inCommand = false)
    (hrest : l.rest = ':' :: after) (hafter : after.head? ≠ some '=') :
    step l = scanColon l := by
  have hmatch : Spelling.firstMatch Spelling.operators l.rest = some ":" :=
    hrest ▸ Spelling.firstMatch_colon hafter
  rw [step_of_sign houtside hrest (.inr (.inl rfl)),
    scanHostToken_of_sign hrest (.inr (.inl rfl)) hmatch,
    if_neg (by simp [hhost])]
  rfl

theorem step_closer (houtside : l.Outside) (hhost : l.brackets.inCommand = false)
    (hrest : l.rest = ')' :: after) : step l = scanCloser ')' l := by
  have hmatch : Spelling.firstMatch Spelling.operators l.rest = some ")" :=
    hrest ▸ Spelling.firstMatch_closer after
  rw [step_of_sign houtside hrest (.inr (.inr rfl)),
    scanHostToken_of_sign hrest (.inr (.inr rfl)) hmatch, if_neg (by simp [hhost])]
  rfl

theorem toCome_of_long_bang {l' : Lexer} (hrest : l.rest = '!' :: after)
    (hlong : Spelling.bangOperator after ≠ "!")
    (hscan : scanOperator (Spelling.bangOperator after) l = .ok () l') :
    l'.toCome + 2 ≤ l.toCome := by
  obtain hbang | ⟨c, more, rfl, hop⟩ := Spelling.bangOperator_cases after
  · exact absurd hbang hlong
  have hlength : 2 ≤ l.rest.length := by simp [hrest]
  have taken : (l.take .op 2).toCome + 2 = l.toCome := toCome_take .op hlength
  have opened (bracket : Bracket) :
      ((l.pushBracket bracket).take .op 2).toCome + 2 = l.toCome :=
    toCome_take (l := l.pushBracket bracket) .op hlength
  obtain ⟨rfl, hop⟩ | ⟨rfl, hop⟩ | ⟨rfl, hop⟩ := hop
  · rw [hop] at hscan
    obtain rfl : l.take .op 2 = l' := modify_ok.mp hscan
    exact Nat.le_of_eq taken
  · rw [hop] at hscan
    change scanOpener "!(" .bangParen l = .ok () l' at hscan
    rw [scanOpener, get_bind_ok, ite_ok] at hscan
    split at hscan
    · rw [set_bind_ok] at hscan
      have hcome := ((captureCall_strikes _ (.empty l.here)).leadsOn hscan).toCome
      have hopened := opened ⟨.bangParen, .raw, l.here⟩
      exact Nat.le_trans (Nat.add_le_add_right hcome 2) (Nat.le_of_eq hopened)
    · obtain rfl := set_ok.mp hscan
      exact Nat.le_of_eq (opened _)
  · rw [hop] at hscan
    change scanOpener "![" .bangSquare l = .ok () l' at hscan
    rw [scanOpener, get_bind_ok, ite_ok, if_neg (by simp)] at hscan
    obtain rfl := set_ok.mp hscan
    exact Nat.le_of_eq (opened _)

/-- Outside commands an exclamation mark by itself is a token, and announces a raw body right behind
a leading `with`. -/
theorem step_announce (houtside : l.Outside) (hrest : l.rest = '!' :: after)
    (hshort : Spelling.bangOperator after = "!") (hhost : l.brackets.inCommand = false) :
    step l = .ok () ({ l with withHeader :=
      l.withHeader || l.recent.any fun r : PrecedingToken => r.isLeadingWith && r.stop == l.here
      }.take .op 1) := by
  rw [step_bang houtside hrest, hshort]
  change scanExclamation l = _
  simp only [scanExclamation, run_bind, run_get, hhost]
  rfl

end Lexer

end ShellSyntax
