import ShellSyntax.Language.Expression
import ShellSyntax.Language.Primary
import ShellSyntax.Proofs.Language.Ranking

/-! Expressions go forward, and each rule for them calls only lower ones where it starts. -/

namespace ShellSyntax.Language

open Matcher

variable {α : Type} {W : World} {b : Base} {i j k : Nat}

/-! ### Named and conditional expressions -/

theorem unbound_ensures (h : ranking.Allows b .expr i) :
    Ensures W ranking b (do
      if ← isDiagnosing then rejectBinding
      let some value ← expr | return none
      if ← lookahead (spelled ":=") then giveUp i else return some value) i (Beyond i) := by
  have hstart := h.start_le
  refine .diagnosis (rejectBinding_ensures (h.lower rfl (by decide))) ?_
  refine Advances.need (.rule h rfl) (Nat.le_refl i) rfl fun value j hj => ?_
  refine .lookahead (by omega) .spelled fun found => ?_
  split
  · exact giveUp_ensures hstart (Nat.le_of_lt hj) (Nat.le_refl i)
  · exact .some hj

theorem bindingExprRule_advances (h : ranking.Allows b .expr i) :
    Advances W ranking b bindingExprRule i := by
  have hstart := h.start_le
  refine .mark (.name (fun target => ?_) (unbound_ensures h))
  refine .ifAccepts ?_ (.reset hstart (by omega) (unbound_ensures h))
  refine .spanSince (by omega) fun span => ?_
  refine Advances.andThen (.rule (.later (by omega) rfl) rfl) ?_ ?_
  · intro value j hj
    exact node_ensures (by omega) (by omega)
  · intro j hj
    exact giveUp_ensures hstart (by omega) (Nat.le_refl i)

theorem ifElseTail_advances (hstart : b.start ≤ i) :
    Advances W ranking b ifElseTail i := by
  refine attempt_advances hstart (.expect (Nat.le_refl i) ?_)
  refine Advances.need (.rule (.later (by omega) rfl) rfl) (by omega) rfl fun test j hj => ?_
  refine .expect (by omega) ?_
  refine Advances.need (.rule (.later (by omega) rfl) rfl) (by omega) rfl fun orelse k hk => ?_
  exact .some (by omega)

theorem defaulted_ensures {id : Token} { annotation : Option Expr} {j : Nat}
    (hstart : b.start ≤ i) (hj : i < j) :
    Ensures W ranking b (do
      let mut default := none
      if ← accepts "=" then
        let some value ← expr | return none
        default := some value
      return some ⟨id.text, annotation, default⟩ : Match (Option Parameter)) j (Beyond i) := by
  refine .ifAccepts ?_ (.some hj)
  refine Advances.need (.rule (.later (by omega) rfl) rfl) (by omega) rfl fun value k hk => ?_
  exact .some (by omega)

theorem namedParameter_advances {annotated : Bool} (hstart : b.start ≤ i) :
    Advances W ranking b (namedParameter annotated) i := by
  refine attempt_advances hstart (.name (fun id => ?_) (.none (Nat.le_refl i)))
  cases annotated with
  | false => exact defaulted_ensures hstart (by omega)
  | true =>
    refine .ifAccepts ?_ (defaulted_ensures hstart (by omega))
    refine Advances.need (.rule (.later (by omega) rfl) rfl) (by omega) rfl fun value j hj => ?_
    exact defaulted_ensures hstart (by omega)

theorem parameterItem_advances {annotated : Bool} {state : ParameterState} (hstart : b.start ≤ i) :
    Advances W ranking b (parameterItem annotated state) i := by
  obtain ⟨args, afterStar⟩ := state
  refine .ifAccepts (.some (by omega)) (.ifAccepts ?_ (.ifAccepts ?_ ?_))
  · refine (namedParameter_advances (by omega)).need (by omega) rfl fun p j hj => ?_
    exact .some (by omega)
  · refine .bind ((namedParameter_advances (by omega)).mono fun p j hj => ?_)
    exact .some (Nat.lt_of_lt_of_le (Nat.lt_succ_self i) hj.1)
  · refine (namedParameter_advances hstart).need (Nat.le_refl i) rfl fun p j hj => ?_
    cases afterStar with
    | false => exact .some hj
    | true => exact .some hj

theorem parameterList_ensures {annotated : Bool} {close : String} (hstart : b.start ≤ i) :
    Ensures W ranking b (parameterList annotated close) i fun _ j => i ≤ j := by
  refine attempt_ensures hstart (.loop (fun _ j => i ≤ j) (Nat.le_refl i) ?_)
  intro state j hj
  refine .lookahead (by omega) .spelled fun found => ?_
  split
  · exact hj
  · refine (parameterItem_advances (by omega)).andThen ?_ ?_
    · intro state k hk
      exact .ifAccepts ⟨by omega, by omega⟩ (Nat.le_trans hj (Nat.le_of_lt hk))
    · intro k hk
      exact Nat.le_trans hj hk

theorem lambdaExpr_advances (hstart : b.start ≤ i) : Advances W ranking b lambdaExpr i := by
  refine attempt_advances hstart (.expect (Nat.le_refl i) ?_)
  refine .bind ((parameterList_ensures (by omega)).mono ?_)
  rintro (_ | args) j hj
  · exact .none (by omega)
  · refine .expect (by omega) ?_
    refine Advances.need (.rule (.later (by omega) rfl) rfl) (by omega) rfl fun body k hk => ?_
    exact node_ensures (by omega) (by omega)

theorem exprRule_advances (h : ranking.Allows b .orExpr i) :
    Advances W ranking b exprRule i := by
  have hstart := h.start_le
  refine .diagnosis (rejectMissingElse_ensures h) (.mark ?_)
  refine Advances.andThen (.rule h rfl) ?_ ?_
  · intro body j hj
    refine (ifElseTail_advances (by omega)).andThen ?_ ?_
    · rintro ⟨test, orelse⟩ k hk
      exact node_ensures (by omega) (by omega)
    · intro k hk
      exact .some (by omega)
  · intro j hj
    exact (lambdaExpr_advances (by omega)).after hj

/-! ### Boolean operators and comparisons -/

theorem boolOperands_advances {op : BoolOp} {keyword : String} {operand : Match (Option Expr)}
    (hstart : b.start ≤ i) (hoperand : ∀ j, i ≤ j → Advances W ranking b operand j) :
    Advances W ranking b (boolOperands op keyword operand) i := by
  refine .mark ((Advances.separated hstart hoperand).need (Nat.le_refl i) rfl fun values j hj => ?_)
  rcases values with _ | ⟨value, _ | _⟩
  · exact node_ensures hj hj
  · exact .some hj
  · exact node_ensures hj hj

theorem notIn_advances (hstart : b.start ≤ i) : Advances W ranking b notIn i :=
  attempt_advances hstart
    (.expect (Nat.le_refl i) (.expect (by omega) (.some (by omega))))

theorem comparisonOperator_advances (hstart : b.start ≤ i) :
    Advances W ranking b comparisonOperator i := by
  refine (oneOf_advances _).andThen (fun op j hj => .some hj) fun j hj => ?_
  refine (notIn_advances (by omega)).andThen (fun op k hk => .some (by omega)) fun k hk => ?_
  refine .ifAccepts ?_ (.none (by omega))
  exact .ifAccepts (.some (by omega)) (.some (by omega))

theorem comparisonTail_advances (hstart : b.start ≤ i) :
    Advances W ranking b comparisonTail i := by
  refine attempt_advances hstart ?_
  refine (comparisonOperator_advances hstart).need (Nat.le_refl i) rfl fun op j hj => ?_
  refine Advances.need (.rule (.later (by omega) rfl) rfl) (by omega) rfl fun right k hk => ?_
  exact .some (by omega)

theorem comparison_advances (h : ranking.Allows b .bitOrExpr i) :
    Advances W ranking b comparison i := by
  have hstart := h.start_le
  refine .mark (Advances.need (.rule h rfl) (Nat.le_refl i) rfl fun left j hj => ?_)
  refine .many (by omega) (fun k hk => comparisonTail_advances (by omega)) ?_
  intro tails k hk _
  split
  · exact .some (by omega)
  · exact node_ensures (by omega) (by omega)

theorem notExprRule_advances (h : ranking.Allows b .bitOrExpr i) :
    Advances W ranking b notExprRule i := by
  have hstart := h.start_le
  refine .mark (.ifAccepts ?_ (comparison_advances h))
  refine Advances.andThen (.rule (.later (by omega) rfl) rfl) ?_ ?_
  · intro operand j hj
    exact node_ensures (by omega) (by omega)
  · intro j hj
    exact giveUp_ensures hstart (by omega) (Nat.le_refl i)

/-! ### Binary and prefix operators -/

theorem binaryTail_ensures {start here : Nat} {left : Expr} {operand : Match (Option Expr)}
    {ops : List BinOp} (hstart : b.start ≤ start) (hhere : start < here) (hle : here ≤ i)
    (hoperand : ∀ j, start < j → Advances W ranking b operand j) :
    Ensures W ranking b (binaryTail start here left operand ops) i (Beyond start) := by
  induction ops generalizing i with
  | nil => exact .none (by omega)
  | cons op ops ih =>
    have hothers : ∀ j, here ≤ j → Ensures W ranking b
        (reset here >>= fun _ => binaryTail start here left operand ops) j (Beyond start) :=
      fun j hj => .reset (by omega) hj (ih (Nat.le_refl here))
    refine .ifAccepts ?_ (hothers i hle)
    refine (hoperand (i + 1) (by omega)).andThen ?_ ?_
    · intro right j hj
      exact node_ensures (by omega) (by omega)
    · intro j hj
      exact hothers j (by omega)

theorem leftAssoc_advances {ops : List BinOp} {this operand : Match (Option Expr)}
    (hstart : b.start ≤ i) (hthis : Advances W ranking b this i)
    (hoperand : ∀ j, i ≤ j → Advances W ranking b operand j) :
    Advances W ranking b (leftAssoc ops this operand) i := by
  have hrestart : ∀ j, i ≤ j →
      Ensures W ranking b (reset i >>= fun _ => operand) j (Beyond i) :=
    fun j hj => .reset hstart hj (hoperand i (Nat.le_refl i))
  refine .mark (hthis.andThen (fun left j hj => .mark ?_) hrestart)
  refine .bind ((binaryTail_ensures hstart hj (Nat.le_refl j)
    fun k hk => hoperand k (Nat.le_of_lt hk)).mono ?_)
  rintro (_ | longer) k hk
  · exact hrestart k hk.1
  · exact hk

theorem powerExpr_advances (h : ranking.Allows b .awaitExpr i) :
    Advances W ranking b powerExpr i := by
  have hstart := h.start_le
  refine .mark (Advances.need (.rule h rfl) (Nat.le_refl i) rfl fun base j hj => .mark ?_)
  refine .ifAccepts ?_ (.some hj)
  refine Advances.andThen (.rule (.later (by omega) rfl) rfl) ?_ ?_
  · intro exponent k hk
    exact node_ensures (by omega) (by omega)
  · intro k hk
    exact .reset (by omega) (by omega) (.some hj)

theorem signedExprRule_advances (h : ranking.Allows b .awaitExpr i) :
    Advances W ranking b signedExprRule i := by
  have hstart := h.start_le
  refine .mark ((oneOf_advances _).andThen ?_ ?_)
  · intro op j hj
    refine Advances.andThen (.rule (.later (by omega) rfl) rfl) ?_ ?_
    · intro operand k hk
      exact node_ensures (by omega) (by omega)
    · intro k hk
      exact giveUp_ensures hstart (by omega) (Nat.le_refl i)
  · intro j hj
    exact (powerExpr_advances (h.at hj)).after hj

theorem awaitExprRule_advances (h : ranking.Allows b .postfixExpr i) :
    Advances W ranking b awaitExprRule i := by
  have hstart := h.start_le
  refine .mark (.ifAccepts ?_ (Advances.rule h rfl))
  refine Advances.andThen (.rule (.later (by omega) rfl) rfl) ?_ ?_
  · intro value j hj
    exact node_ensures (by omega) (by omega)
  · intro j hj
    exact giveUp_ensures hstart (by omega) (Nat.le_refl i)

/-! ### Literals -/

theorem fstringInside_ensures {raw : Bool} (hlt : b.start < i) :
    Ensures W ranking b (fstringInside raw) i fun _ j => i ≤ j :=
  ⟨.later hlt rfl, fun _ _ hyields => hyields.1⟩

theorem fstringLiteral_advances (hstart : b.start ≤ i) :
    Advances W ranking b fstringLiteral i := by
  refine attempt_advances hstart (.ofKind nofun (fun opening => ?_) (.none (Nat.le_refl i)))
  refine .bind ((fstringInside_ensures (by omega)).mono ?_)
  rintro (_ | parts) j hj
  · exact .none (by omega)
  · exact .expectKind nofun (by omega) (.some (by omega))

theorem stringRunRule_advances (hstart : b.start ≤ i) : Advances W ranking b stringRunRule i := by
  refine .mark (.bind ?_)
  refine .loop (fun g j => i ≤ j ∧ (g.count ≠ 0 → i < j)) ⟨Nat.le_refl i, nofun⟩ ?_
  rintro g j ⟨hj, hcount⟩
  refine .ofKind nofun (fun token => ⟨by omega, by omega, fun _ => by omega⟩) ?_
  refine (fstringLiteral_advances (by omega)).andThen ?_ ?_
  · rintro ⟨flags, parts⟩ k hk
    exact ⟨by omega, by omega, fun _ => by omega⟩
  · intro k hk
    change Ensures W ranking b (if g.count = 0 then _ else _) k (Beyond i)
    split
    · exact .none (by omega)
    · exact .spanSince (by omega) fun _ => .some (by omega)

theorem conversion_advances (hstart : b.start ≤ i) : Advances W ranking b conversion i := by
  refine attempt_advances hstart (.spelled (fun mark => ?_) (.none (Nat.le_refl i)))
  refine .name (fun letter => ?_) (.none (by omega))
  dsimp only
  split
  · exact .some (by omega)
  · exact .none (by omega)

theorem formatField_advances {raw : Bool} (hstart : b.start ≤ i) :
    Advances W ranking b (formatField raw) i := by
  refine attempt_advances hstart (.spelled (fun opening => ?_) (.none (Nat.le_refl i)))
  refine (yieldOrTuple_advances (.later (by omega) rfl)).need (by omega) rfl fun value j hj => ?_
  refine .bind (Advances.spelled.mono fun equals k hk => ?_)
  have hequals := hk.1
  refine .bind ((conversion_advances (by omega)).mono fun letter l hl => ?_)
  have hletter := hl.1
  refine .ifAccepts ?_ (.expect (by omega) (.some (by omega)))
  refine .bind ((fstringInside_ensures (by omega)).mono ?_)
  rintro (_ | parts) m hm
  · exact .none (by omega)
  · exact .expect (by omega) (.some (by omega))

theorem fstringInsideRule_ensures {raw : Bool} (hstart : b.start ≤ i) :
    Ensures W ranking b (fstringInsideRule raw) i fun _ j => i ≤ j := by
  refine .loop (fun _ j => i ≤ j) (Nat.le_refl i) ?_
  intro parts j hj
  refine .ofKind nofun (fun token => ⟨by omega, by omega⟩) ?_
  refine (formatField_advances (by omega)).andThen ?_ ?_
  · intro field k hk
    exact ⟨by omega, by omega⟩
  · intro k hk
    exact Nat.le_trans hj hk

theorem pathSearch_advances : Advances W ranking b pathSearch i :=
  .mark (.ofKind nofun (fun _ => node_ensures (by omega) (by omega)) (.none (Nat.le_refl i)))

/-! ### Commands -/

theorem variableExpr_advances (hstart : b.start ≤ i) : Advances W ranking b variableExpr i := by
  refine attempt_advances hstart (.spelled (fun dollar => ?_) ?_)
  · refine .ofKind nofun (fun id => ?_) (.none (by omega))
    dsimp only
    split
    · exact .none (by omega)
    · exact node_ensures (by omega) (by omega)
  · refine .expect (Nat.le_refl i) ?_
    refine Advances.need (.rule (.later (by omega) rfl) rfl) (by omega) rfl fun value j hj => ?_
    exact .expect (by omega) (node_ensures (by omega) (by omega))

theorem wordArg_advances {t : Token} (ht : W.token i = .ok t) (hend : ¬t.IsEnd) :
    Advances W ranking b (wordArg t) i := by
  refine .next fun t' ht' => ?_
  cases ht.symm.trans ht'
  exact ⟨hend, .some (Nat.lt_succ_self i)⟩

theorem hostArg_advances {t : Token} (hstart : b.start ≤ i) (ht : W.token i = .ok t)
    (hend : ¬t.IsEnd) : Advances W ranking b hostArg i := by
  refine attempt_advances hstart (.next fun t' ht' => ?_)
  cases ht.symm.trans ht'
  refine ⟨hend, ?_⟩
  refine (spreadTuple_advances (.later (by omega) rfl)).need (by omega) rfl fun value j hj => ?_
  exact .expect (by omega) (.some (by omega))

theorem rawArg_advances {t : Token} (hstart : b.start ≤ i) (ht : W.token i = .ok t)
    (hend : ¬t.IsEnd) : Advances W ranking b rawArg i := by
  refine attempt_advances hstart (.next fun t' ht' => ?_)
  cases ht.symm.trans ht'
  exact ⟨hend, .ofKind nofun (fun _ => .some (by omega)) (.none (by omega))⟩

theorem envArg_advances (hstart : b.start ≤ i) : Advances W ranking b envArg i := by
  refine (variableExpr_advances hstart).map rfl fun value => ?_
  rw [Option.map_some]
  split <;> exact ⟨_, rfl⟩

theorem commandArg_advances (hlt : b.start < i) : Advances W ranking b commandArg i := by
  refine Advances.map (.rule (.later hlt rfl) rfl) rfl fun value => ?_
  rw [Option.map_some]
  split <;> exact ⟨_, rfl⟩

theorem searchArg_advances : Advances W ranking b searchArg i := by
  refine pathSearch_advances.map rfl fun value => ?_
  rw [Option.map_some]
  split <;> exact ⟨_, rfl⟩

theorem operatorPiece_advances {t : Token} {depth : Nat} (hlt : b.start < i)
    (ht : W.token i = .ok t) (hend : ¬t.IsEnd) :
    Advances W ranking b (operatorPiece t depth) i := by
  have hstart := Nat.le_of_lt hlt
  unfold operatorPiece
  dsimp only
  split
  · exact (envArg_advances hstart).map rfl fun _ => ⟨_, rfl⟩
  split
  · exact (hostArg_advances hstart ht hend).map rfl fun _ => ⟨_, rfl⟩
  split
  · exact (commandArg_advances hlt).map rfl fun _ => ⟨_, rfl⟩
  split
  · exact (rawArg_advances hstart ht hend).map rfl fun _ => ⟨_, rfl⟩
  split
  · exact (wordArg_advances ht hend).map rfl fun _ => ⟨_, rfl⟩
  split
  · exact (wordArg_advances ht hend).map rfl fun _ => ⟨_, rfl⟩
  split
  · exact (wordArg_advances ht hend).map rfl fun _ => ⟨_, rfl⟩
  split
  · exact (wordArg_advances ht hend).map rfl fun _ => ⟨_, rfl⟩
  · exact .none (Nat.le_refl i)

theorem piece_advances {t : Token} {depth : Nat} (hlt : b.start < i) (ht : W.token i = .ok t) :
    Advances W ranking b (piece t depth) i := by
  have hother : t.kind ≠ .endMarker → ¬t.IsEnd := fun hkind hend => hkind hend.1
  unfold piece
  dsimp only
  split
  case h_1 hkind => exact (wordArg_advances ht (hother (by simp [hkind]))).map rfl fun _ => ⟨_, rfl⟩
  case h_2 hkind => exact (wordArg_advances ht (hother (by simp [hkind]))).map rfl fun _ => ⟨_, rfl⟩
  case h_3 hkind => exact (wordArg_advances ht (hother (by simp [hkind]))).map rfl fun _ => ⟨_, rfl⟩
  case h_4 hkind => exact (wordArg_advances ht (hother (by simp [hkind]))).map rfl fun _ => ⟨_, rfl⟩
  case h_5 => exact Advances.map (.rule (.later hlt rfl) rfl) rfl fun _ => ⟨_, rfl⟩
  case h_6 => exact searchArg_advances.map rfl fun _ => ⟨_, rfl⟩
  case h_7 hkind => exact operatorPiece_advances hlt ht (hother (by simp [hkind]))
  case h_8 => exact .none (Nat.le_refl i)

theorem commandWords_advances {closer : String} (hlt : b.start < i) :
    Advances W ranking b (commandWords closer) i := by
  refine .loop (fun state j => i ≤ j ∧ (state.1.isEmpty = false → i < j))
    ⟨Nat.le_refl i, nofun⟩ ?_
  rintro ⟨argv, depth, stopped⟩ j ⟨hj, hargv⟩
  have hresult : ∀ k, j ≤ k → Beyond i (if argv.isEmpty = true then none else some argv) k := by
    intro k hk
    split
    case isTrue => exact .none (Nat.le_trans hj hk)
    case isFalse hfull => exact .some (Nat.lt_of_lt_of_le (hargv (Bool.not_eq_true _ ▸ hfull)) hk)
  refine .peek fun t ht => ?_
  dsimp only
  split
  · exact hresult j (Nat.le_refl j)
  · have hpiece : Advances W ranking b (attempt fun _ => piece t depth) j :=
      attempt_advances (by omega) (piece_advances (Nat.lt_of_lt_of_le hlt hj) ht)
    refine hpiece.andThen ?_ hresult
    rintro ⟨arg, depth⟩ k hk
    exact .lastToken? fun _ => ⟨by omega, by omega, fun _ => by omega⟩

theorem furtherStage_advances {closer : String} (hstart : b.start ≤ i) :
    Advances W ranking b (furtherStage closer) i := by
  refine attempt_advances hstart ?_
  refine (oneOf_advances _).need (Nat.le_refl i) rfl fun connector j hj => ?_
  refine (commandWords_advances (by omega)).need (by omega) rfl fun argv k hk => ?_
  exact .some (by omega)

theorem stages_advances {closer : String} (hlt : b.start < i) :
    Advances W ranking b (stages closer) i := by
  refine (commandWords_advances hlt).need (Nat.le_refl i) rfl fun argv j hj => ?_
  refine .many (by omega) (fun k hk => furtherStage_advances (by omega)) ?_
  exact fun further k hk _ => .some (by omega)

theorem captured_ensures {capture : CaptureMode} (hstart : b.start ≤ i) :
    Ensures W ranking b (captured capture) i fun found j =>
      i ≤ j ∧ ∀ value, found = .matched value → i < j := by
  refine .mark (.spelled (fun opening => ?_) ⟨Nat.le_refl i, nofun⟩)
  refine .diagnosis rejectEmptyCommand_ensures ?_
  refine (stages_advances (by omega)).andThen ?_ fun j hj => ⟨by omega, nofun⟩
  intro stages j hj
  refine .acceptsOrNot fun background k hk => .unlessAccepts ⟨by omega, nofun⟩ ?_
  exact .spanSince (by omega) fun _ => ⟨by omega, fun _ _ => by omega⟩

theorem commandExprRule_advances (hstart : b.start ≤ i) :
    Advances W ranking b commandExprRule i := by
  refine Advances.firstOf hstart fun m hm => ?_
  obtain ⟨capture, _, rfl⟩ := List.mem_map.mp hm
  exact captured_ensures hstart

/-! ### Brackets -/

theorem filterClause_advances (hstart : b.start ≤ i) : Advances W ranking b filterClause i := by
  refine .expect (Nat.le_refl i) ?_
  exact Advances.after (.rule (.later (by omega) rfl) rfl) (Nat.le_succ i)

theorem forClause_advances (hstart : b.start ≤ i) : Advances W ranking b forClause i := by
  refine attempt_advances hstart (.acceptsOrNot fun isAsync j hj => .expect hj ?_)
  refine (targetTuple_advances (.later (by omega) rfl)).need (by omega) rfl fun target k hk => ?_
  refine .expect (by omega) ?_
  refine Advances.need (.rule (.later (by omega) rfl) rfl) (by omega) rfl fun iter l hl => ?_
  refine .many (by omega) (fun m hm => filterClause_advances (by omega)) ?_
  exact fun filters m hm _ => .some (by omega)

theorem forClauses_advances (hstart : b.start ≤ i) : Advances W ranking b forClauses i :=
  .many1 hstart fun _ hj => forClause_advances (Nat.le_trans hstart hj)

theorem comprehension_advances {closer : String} (h : ranking.Allows b .bindingExpr i) :
    Advances W ranking b (comprehension closer) i := by
  have hstart := h.start_le
  refine Advances.need (.rule h rfl) (Nat.le_refl i) rfl fun elt j hj => ?_
  refine (forClauses_advances (by omega)).need (by omega) rfl fun generators k hk => ?_
  exact .expect (by omega) (.some (by omega))

theorem generator_advances (hstart : b.start ≤ i) : Advances W ranking b generator i := by
  refine attempt_advances hstart (.expect (Nat.le_refl i) ?_)
  refine (comprehension_advances (.later (by omega) rfl)).need (by omega) rfl fun parts j hj => ?_
  exact node_ensures (by omega) (by omega)

/-- Behind a parenthesis at `i`; the body has been there before it tries a comprehension from the
parenthesis on. -/
theorem parenthesized_inside (hstart : b.start ≤ i) (hreached : i + 1 ≤ b.reached) :
    Ensures W ranking b (do
      if ← accepts ")" then return ← node i (.tuple [])
      let inside ← mark
      if let some value ← yielded then
        if ← accepts ")" then return some value
      reset i
      if let some value ← generator then return some value
      reset inside
      let some inner ← bindingTuple | return none
      if !(← accepts ")") then return none
      match inner.form with
      | .tuple items => node i (.tuple items)
      | _ => return some inner) (i + 1) (Beyond i) := by
  refine .ifAccepts (node_ensures (by omega) (by omega)) (.mark ?_)
  have hgroup : ∀ j, i < j → Ensures W ranking b (do
      reset i
      if let some value ← generator then return some value
      reset (i + 1)
      let some inner ← bindingTuple | return none
      if !(← accepts ")") then return none
      match inner.form with
      | .tuple items => node i (.tuple items)
      | _ => return some inner) j (Beyond i) := by
    intro j hj
    refine .reset hstart (Nat.le_of_lt hj) ?_
    refine (generator_advances hstart).andThen (fun value k hk => .some hk) fun k hk => ?_
    refine .reset_within (Nat.le_succ_of_le hstart) hreached ?_
    refine (bindingTuple_advances (.later (by omega) rfl)).need (by omega) rfl fun inner l hl => ?_
    refine .expect (by omega) ?_
    split
    · exact node_ensures (by omega) (by omega)
    · exact .some (by omega)
  refine (yielded_advances (by omega)).andThen ?_ fun j hj => hgroup j (by omega)
  intro value j hj
  exact .ifAccepts (.some (by omega)) (hgroup j (by omega))

theorem parenthesized_advances (hstart : b.start ≤ i) :
    Advances W ranking b parenthesized i :=
  attempt_advances hstart
    (.expect_reach (Nat.le_refl i) (parenthesized_inside hstart (Nat.le_max_right _ _)))

theorem bracketItems_ensures (h : ranking.Allows b .bindingExpr i) :
    Ensures W ranking b bracketItems i fun items j => i ≤ j ∧ (items ≠ [] → i < j) := by
  have hitems : Advances W ranking b (separated "," bindingOrSpread) i :=
    .separated h.start_le fun _ hj => bindingOrSpread_advances (h.at hj)
  refine hitems.andThen ?_ fun j hj => ⟨hj, nofun⟩
  intro items j hj
  exact .acceptsOrNot fun _ k hk => ⟨by omega, fun _ => by omega⟩

theorem squareBracketed_advances (hstart : b.start ≤ i) :
    Advances W ranking b squareBracketed i := by
  refine attempt_advances hstart (.expect (Nat.le_refl i) (.mark ?_))
  refine (comprehension_advances (.later (by omega) rfl)).andThen ?_ ?_
  · intro parts j hj
    exact node_ensures (by omega) (by omega)
  · intro j hj
    refine .reset (by omega) hj ?_
    refine .bind ((bracketItems_ensures (.later (by omega) rfl)).mono fun items k hk => ?_)
    have hle := hk.1
    exact .expect (by omega) (node_ensures (by omega) (by omega))

theorem dictComprehension_advances (h : ranking.Allows b .expr i) :
    Advances W ranking b dictComprehension i := by
  have hstart := h.start_le
  refine (entry_advances h).need (Nat.le_refl i) rfl fun pair j hj => ?_
  refine (forClauses_advances (by omega)).need (by omega) rfl fun generators k hk => ?_
  exact .expect (by omega) (.some (by omega))

theorem dictEntries_advances (h : ranking.Allows b .expr i) :
    Advances W ranking b dictEntries i := by
  have hentries : Advances W ranking b (separated "," entryOrSpread) i :=
    .separated h.start_le fun _ hj => entryOrSpread_advances (h.at hj)
  refine hentries.need (Nat.le_refl i) rfl fun pairs j hj => ?_
  exact .acceptsOrNot fun _ k hk => .expect (by omega) (.some (by omega))

theorem braced_advances (hstart : b.start ≤ i) : Advances W ranking b braced i := by
  refine attempt_advances hstart (.expect (Nat.le_refl i) ?_)
  refine .ifAccepts (node_ensures (by omega) (by omega)) (.mark ?_)
  refine (dictComprehension_advances (.later (by omega) rfl)).andThen ?_ ?_
  · intro parts j hj
    exact node_ensures (by omega) (by omega)
  intro j hj
  refine .reset (by omega) hj ?_
  refine (comprehension_advances (.later (by omega) rfl)).andThen ?_ ?_
  · intro parts j hj
    exact node_ensures (by omega) (by omega)
  intro j hj
  refine .reset (by omega) hj ?_
  refine (dictEntries_advances (.later (by omega) rfl)).andThen ?_ ?_
  · intro pairs j hj
    exact node_ensures (by omega) (by omega)
  intro j hj
  refine .reset (by omega) hj ?_
  refine .diagnosis (rejectMissingValue_ensures (.later (by omega) rfl)) ?_
  refine .bind ((bracketItems_ensures (.later (by omega) rfl)).mono fun items k hk => ?_)
  have hle := hk.1
  split
  · exact .none (by omega)
  · exact .expect (by omega) (node_ensures (by omega) (by omega))

/-! ### Atoms -/

theorem nameExpr_advances {start : Nat} {t : Token} (hle : start ≤ i) (ht : W.token i = .ok t)
    (hend : ¬t.IsEnd) : Advances W ranking b (nameExpr start t) i := by
  unfold nameExpr
  split
  · refine .next fun t' ht' => ?_
    cases ht.symm.trans ht'
    exact ⟨hend, node_ensures (by omega) (by omega)⟩
  · split
    · exact .none (Nat.le_refl i)
    · refine .next fun t' ht' => ?_
      cases ht.symm.trans ht'
      exact ⟨hend, node_ensures (by omega) (by omega)⟩

theorem bracketExpr_advances {t : Token} (h : ranking.Allows b .commandExpr i)
    (ht : W.token i = .ok t) (hend : ¬t.IsEnd) :
    Advances W ranking b (bracketExpr i t.text) i := by
  have hstart := h.start_le
  have hknown : ∃ t, W.token i = .ok t := ⟨t, ht⟩
  unfold bracketExpr
  split
  · exact ⟨.inr hknown, parenthesized_advances hstart⟩
  split
  · exact ⟨.inr hknown, squareBracketed_advances hstart⟩
  split
  · exact ⟨.inr hknown, braced_advances hstart⟩
  split
  · refine .next fun t' ht' => ?_
    cases ht.symm.trans ht'
    exact ⟨hend, node_ensures (by omega) (by omega)⟩
  split
  · exact ⟨.inr hknown, variableExpr_advances hstart⟩
  split
  · exact ⟨.inr hknown, Advances.rule h rfl⟩
  · exact .none (Nat.le_refl i)

theorem atomicExprRule_advances (h : ranking.Allows b .stringRun i) :
    Advances W ranking b atomicExprRule i := by
  refine .mark (.peek fun t ht => ?_)
  have hother : t.kind ≠ .endMarker → ¬t.IsEnd := fun hkind hend => hkind hend.1
  split
  case h_1 hkind => exact nameExpr_advances (Nat.le_refl i) ht (hother (by simp [hkind]))
  case h_2 hkind =>
    refine .next fun t' ht' => ?_
    cases ht.symm.trans ht'
    exact ⟨hother (by simp [hkind]), node_ensures (by omega) (by omega)⟩
  case h_3 => exact Advances.rule h rfl
  case h_4 => exact Advances.rule h rfl
  case h_5 => exact pathSearch_advances
  case h_6 hkind =>
    exact bracketExpr_advances (h.lower rfl (by decide)) ht (hother (by simp [hkind]))
  case h_7 => exact .none (Nat.le_refl i)

/-! ### Calls and subscripts -/

theorem namedArgument_advances (hstart : b.start ≤ i) : Advances W ranking b namedArgument i := by
  refine attempt_advances hstart (.name (fun id => ?_) (.none (Nat.le_refl i)))
  refine .expect (by omega) ?_
  refine Advances.need (.rule (.later (by omega) rfl) rfl) (by omega) rfl fun value j hj => ?_
  exact .some (by omega)

theorem argument_advances {state : ArgumentState} (h : ranking.Allows b .bindingExpr i) :
    Advances W ranking b (argument state) i := by
  have hstart := h.start_le
  obtain ⟨args, keywords⟩ := state
  refine .mark (.ifAccepts ?_ (.ifAccepts ?_ ?_))
  · refine Advances.need (.rule (.later (by omega) rfl) rfl) (by omega) rfl fun value j hj => ?_
    exact .spanSince (by omega) fun _ => .some (by omega)
  · refine Advances.need (.rule (.later (by omega) rfl) rfl) (by omega) rfl fun value j hj => ?_
    exact .some (by omega)
  · refine (namedArgument_advances hstart).andThen (fun keyword j hj => .some hj) fun j hj => ?_
    refine Advances.need (.rule (h.at hj) rfl) hj rfl fun value k hk => ?_
    exact .some (by omega)

theorem argumentList_ensures (hlt : b.start < i) :
    Ensures W ranking b argumentList i fun _ j => i ≤ j := by
  refine .loop (fun _ j => i ≤ j) (Nat.le_refl i) ?_
  intro state j hj
  refine .lookahead (by omega) .spelled fun found => ?_
  split
  · exact hj
  · refine (argument_advances (.later (by omega) rfl)).andThen ?_ ?_
    · intro state k hk
      exact .ifAccepts ⟨by omega, by omega⟩ (Nat.le_trans hj (Nat.le_of_lt hk))
    · intro k hk
      exact Nat.le_trans hj hk

theorem subscriptItem_advances (h : ranking.Allows b .bindingExpr i) :
    Advances W ranking b subscriptItem i := by
  have hstart := h.start_le
  refine .mark (.bind (Ensures.mono (Advances.rule (h.lower rfl (by decide)) rfl) ?_))
  intro lower j hlower
  have hj := hlower.1
  refine .ifAccepts ?_ (.reset hstart hj (bindingOrSpread_advances h))
  refine .bind (Ensures.mono (Advances.rule (.later (by omega) rfl) rfl) fun upper k hupper => ?_)
  have hk := hupper.1
  refine .ifAccepts ?_ (node_ensures (by omega) (by omega))
  refine .bind (Ensures.mono (Advances.rule (.later (by omega) rfl) rfl) fun step l hstep => ?_)
  have hl := hstep.1
  exact node_ensures (by omega) (by omega)

theorem subscripts_advances (h : ranking.Allows b .bindingExpr i) :
    Advances W ranking b subscripts i :=
  tupleOrSingle_advances fun _ hj => subscriptItem_advances (h.at hj)

/-! ### Primaries -/

theorem trailer_advances {start : Nat} {value : Expr} (hstart : b.start ≤ start) (hlt : start < i) :
    Advances W ranking b (trailer start value) i := by
  have hbase : b.start ≤ i := Nat.le_trans hstart (Nat.le_of_lt hlt)
  refine attempt_advances hbase (.ifAccepts ?_ ?_)
  · exact .name (fun attr => node_ensures (by omega) (by omega)) (.none (by omega))
  refine (generator_advances hbase).andThen ?_ fun j hj => .ifAccepts ?_ ?_
  · intro argument j hj
    exact node_ensures (by omega) (by omega)
  · refine .bind ((argumentList_ensures (by omega)).mono ?_)
    rintro (_ | ⟨args, keywords⟩) k hk
    · exact .none (by omega)
    · exact .expect (by omega) (node_ensures (by omega) (by omega))
  refine .ifAccepts ?_ (.spelled (fun opening => ?_) ?_)
  · refine (subscripts_advances (.later (by omega) rfl)).need (by omega) rfl fun index k hk => ?_
    exact .expect (by omega) (node_ensures (by omega) (by omega))
  · dsimp only
    split
    · exact .none (by omega)
    · refine .many (by omega) (fun k hk => .ofKind nofun) fun args k hk _ => ?_
      exact .expect (by omega) (node_ensures (by omega) (by omega))
  · refine (oneOf_advances _).andThen ?_ fun k hk => .none (by omega)
    intro detailed k hk
    exact node_ensures (by omega) (by omega)

theorem postfixExprRule_advances (h : ranking.Allows b .postfixExpr i) :
    Advances W ranking b postfixExprRule i := by
  have hstart := h.start_le
  have hatomic : ∀ j, i ≤ j →
      Ensures W ranking b (reset i >>= fun _ => atomicExpr) j (Beyond i) :=
    fun j hj => .reset hstart hj (Advances.rule (h.lower rfl (by decide)) rfl)
  refine .mark (Advances.andThen (.rule h rfl) ?_ hatomic)
  intro value j hj
  refine .inBrackets (.inl trivial) ((trailer_advances hstart hj).mono ?_)
  rintro (_ | longer) k hlonger
  · exact hatomic k (Nat.le_trans (Nat.le_of_lt hj) hlonger.1)
  · exact .some (Nat.lt_of_lt_of_le hj hlonger.1)

end ShellSyntax.Language
