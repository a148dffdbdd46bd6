import ShellSyntax.Proofs.Language.Accepted
import ShellSyntax.Proofs.Language.StatementBalance

/-!
A command in brackets ends at the closer that the lexer has matched with its opener, unless a sign
between commands stands in plain brackets among its words.
-/

namespace ShellSyntax

open ShellSyntax.Language

/-! ### Commands in brackets -/

/-- Wherever a command in brackets is read, it is closed where it was opened, unless a sign strays
in it. -/
theorem NestedWorld.call_encloses {W : NestedWorld} {i j : Nat} (fuel : Nat) {e : Expr}
    (hresult : (W.call grammar fuel .commandExpr i).result = .ok (some e, j)) :
    ∃ last, j = last + 1 ∧ (W.Pairs i last ∨ ∃ k, i < k ∧ k < last ∧ W.Strays k) := by
  have hcall := call_uncounted (W.call grammar fuel .commandExpr i).depth i fuel (Fin.last _)
    .commandExpr i False.elim (TalliedWorld.affords (Nat.le_refl _)) _ _ hresult
  refine TalliedWorld.Encloses.pairs hcall ?_ (uncounted_captureRoom _ _)
  exact fun ⟨k, hsince, hki, _⟩ => absurd hsince (Nat.not_le_of_lt hki)

namespace Program

/-- Wherever the parser matches a command in brackets, it has consumed the closer that belongs to
the opener, unless on the way it took a sign in plain brackets for the end of a command. -/
theorem command_ends_at_own_closer (source : Source) (origin : Option Origin)
    (options : ParseOptions) (diagnosing : Bool) {i : Nat} {s s' : ProgramSession} {e : Expr}
    (calls : (pass source origin options diagnosing).Calls ranking grammar .commandExpr i s)
    (hrun : Parser.runRule grammar .commandExpr s = .ok (some e) s') :
    let world := (pass source origin options diagnosing).world
    ∃ last, s'.mark = last + 1 ∧
      (world.Pairs i last ∨ ∃ k, i < k ∧ k < last ∧ world.Strays k) := by
  intro world
  have hanswer := calls.answer governs rules_distinguished rfl hrun
  have fresh := TokenStream.fresh_ofLexer source options.tabSize origin
  exact NestedWorld.call_encloses (W := TokenStream.nestedWorld source options.tabSize origin fresh
    diagnosing) _ hanswer

theorem command_ends_at_own_closer_nested :
    ∃ e s, Parser.runRule grammar .commandExpr (start (.ofString "$(a (b) $[c])") none .default) =
        .ok (some e) s ∧ s.mark = 9 ∧
      let world := (pass (.ofString "$(a (b) $[c])") none .default false).world
      ∃ last, s.mark = last + 1 ∧
        (world.Pairs 0 last ∨ ∃ k, 0 < k ∧ k < last ∧ world.Strays k) := by
  obtain ⟨e, s, calls, hrun, hmark⟩ := match_of_read (.ofString "$(a (b) $[c])") none .default
    .commandExpr (fun _ j => j == 9) 2000 rfl (by decide +kernel) (by decide +kernel)
  exact ⟨e, s, hrun, beq_iff_eq.mp hmark, command_ends_at_own_closer _ _ _ _ calls hrun⟩

/-- A pipe in parentheses lets the command end at the closer of the parentheses. -/
theorem command_ends_at_inner_closer :
    ∃ e s, (pass (.ofString "$((a | b))") none .default false).Calls ranking grammar .commandExpr 0
        (start (.ofString "$((a | b))") none .default) ∧
      Parser.runRule grammar .commandExpr (start (.ofString "$((a | b))") none .default) =
        .ok (some e) s ∧
      ¬∃ last, s.mark = last + 1 ∧
        (pass (.ofString "$((a | b))") none .default false).world.Pairs 0 last := by
  obtain ⟨e, s, calls, hrun, hmark⟩ := match_of_read (.ofString "$((a | b))") none .default
    .commandExpr (fun _ j => j == 6) 2000 rfl (by decide +kernel) (by decide +kernel)
  refine ⟨e, s, calls, hrun, ?_⟩
  rintro ⟨last, hlast, pairs⟩
  obtain rfl : last = 5 := Nat.succ.inj (hlast.symm.trans (beq_iff_eq.mp hmark))
  have hopen : (pass (.ofString "$((a | b))") none .default false).world.openAt 6 ≠ [] := by
    decide +kernel
  exact hopen pairs.outside

end Program

end ShellSyntax
