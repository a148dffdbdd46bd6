import ShellSyntax.Language.Display
import ShellSyntax.Proofs.Parser.Nesting

/-!
How deep lists of expressions and displays go. They count on the brackets around them; what is read
one level deeper opens a bracket before it calls any rule.
-/

namespace ShellSyntax.Language

open Matcher

variable {α β : Type} {W : World} {top base depth : Nat}

/-- Rules that read an opener before they call any rule. -/
def opensFirst : Rule → Bool
  | .commandExpr => true
  | _ => false

/-! ### Ways of matching -/

theorem giveUp_nests {start : Nat} {bound : Option α → Nat}
    (hstart : bound none ≤ W.depthAt start) :
    Nests W top opensFirst base depth (giveUp start) bound :=
  .reset hstart (.done (Nat.le_refl _))

theorem attempt_stays {inner : Nat → Match (Option α)}
    (h : ∀ start, depth ≤ W.depthAt start → Stays W top opensFirst base depth (inner start)) :
    Stays W top opensFirst base depth (attempt inner) := by
  refine .mark fun start hstart => (h start hstart).bind ?_
  rintro (_ | a)
  · exact giveUp_nests hstart
  · exact .stay

theorem mapped_stays {m : Match (Option α)} {g : α → β} (hm : Stays W top opensFirst base depth m) :
    Stays W top opensFirst base depth (do return (← m).map g) :=
  hm.bind fun _ => .stay

theorem node_stays {start : Nat} {form : ExprForm} :
    Stays W top opensFirst base depth (node start form) :=
  .spanSince fun _ => .stay

theorem oneOf_stays {options : List (String × α)}
    (h : ∀ option ∈ options, isNoBracket option.1 = true) :
    Stays W top opensFirst base depth (oneOf options) := by
  induction options with
  | nil => exact .stay
  | cons option options induction =>
    refine .ifThen (.acceptsSign (h option List.mem_cons_self)) .stay ?_
    exact induction fun option hoption => h option (List.mem_cons_of_mem _ hoption)

theorem rule_stays {r : Rule} (hbase : base ≤ depth) :
    Stays W top opensFirst base depth (@Matcher.rule rules r) :=
  .rule (Nat.le_trans hbase (Nat.le_add_right _ _))

theorem inspect_stays {inner : Match Unit} (h : Stays W top opensFirst base depth inner) :
    Stays W top opensFirst base depth (inspect inner) :=
  .mark fun _ hstart => h.bind fun _ => .reset hstart .stay

theorem augmentedOperator_stays : Stays W top opensFirst base depth augmentedOperator := by
  refine .peek fun t => ?_
  split
  · exact .ahead .stay
  split
  case h_1 => exact .ahead .stay
  case h_2 op hop =>
    refine .nextSign (fun _ => ?_) .stay
    obtain ⟨before, after, hsplit, -⟩ := List.lookup_eq_some_iff.mp hop
    have htext : ∀ pair ∈ augmentedOperators, isNoBracket pair.1 = true := by decide
    exact htext (t.text, op) (hsplit ▸ List.mem_append_right _ List.mem_cons_self)

theorem rejectMissingIndent_stays : Stays W top opensFirst base depth rejectMissingIndent := by
  refine inspect_stays ((Nests.acceptsKind (by decide)).bind fun found => ?_)
  split
  · exact .stay
  refine .peek fun t => .ahead ?_
  split
  · exact .raise
  · exact .stay

theorem rejectEmptyCommand_stays {opening : Token} {closer : String} :
    Stays W top opensFirst base depth (rejectEmptyCommand opening closer) := by
  refine .peek fun t => .ahead ?_
  split
  · exact .raise
  · exact .stay

/-! ### Lists of expressions -/

section

variable (hbase : base ≤ depth)

include hbase

omit hbase in
theorem tupleOrSingle_stays {item : Match (Option Expr)}
    (hitem : Stays W top opensFirst base depth item) :
    Stays W top opensFirst base depth (tupleOrSingle item) := by
  refine .mark fun start _ => .need hitem rfl fun first => Nests.bind (.iterate ?_) ?_
  · rintro ⟨items, isTuple⟩
    refine (Nests.acceptsSign (by decide)).bind fun found => ?_
    split
    · exact .stay
    · exact .option hitem (fun value => .stay) .stay
  · rintro ⟨items, isTuple⟩
    dsimp only
    split
    · exact node_stays
    · exact .stay

theorem spreadOr_stays {plain : Match (Option Expr)}
    (hplain : Stays W top opensFirst base depth plain) :
    Stays W top opensFirst base depth (spreadOr plain) :=
  .mark fun _ hstart => .ifThen (.acceptsSign (by decide))
    (.option (rule_stays hbase) (fun _ => node_stays) (giveUp_nests hstart)) hplain

theorem bindingOrSpread_stays :
    Stays W top opensFirst base depth bindingOrSpread :=
  spreadOr_stays hbase (rule_stays hbase)

theorem spreadTuple_stays :
    Stays W top opensFirst base depth spreadTuple :=
  tupleOrSingle_stays (rule_stays hbase)

theorem bindingTuple_stays :
    Stays W top opensFirst base depth bindingTuple :=
  tupleOrSingle_stays (bindingOrSpread_stays hbase)

theorem exprTuple_stays :
    Stays W top opensFirst base depth exprTuple :=
  tupleOrSingle_stays (rule_stays hbase)

theorem yielded_stays :
    Stays W top opensFirst base depth yielded := by
  refine .mark fun _ hstart => .expect (.acceptsSign (by decide)) ?_
  refine .ifThen (.acceptsSign (by decide)) ?_
    (Nests.bind (spreadTuple_stays hbase) fun _ => node_stays)
  exact .option (rule_stays hbase) (fun _ => node_stays) (giveUp_nests hstart)

theorem yieldOrTuple_stays :
    Stays W top opensFirst base depth yieldOrTuple :=
  .option (yielded_stays hbase) (fun _ => .stay) (spreadTuple_stays hbase)

/-! ### Targets -/

theorem restricted_stays {admits : ExprForm → Bool} :
    Stays W top opensFirst base depth (restricted admits) := by
  refine attempt_stays fun _ _ => .need (rule_stays hbase) rfl fun target => ?_
  dsimp only
  split
  · exact .stay
  · exact .stay

theorem targetItemRule_stays :
    Stays W top opensFirst base depth targetItemRule :=
  .mark fun _ hstart => .ifThen (.acceptsSign (by decide))
    (.option (rule_stays hbase) (fun _ => node_stays) (giveUp_nests hstart))
    (restricted_stays hbase)

theorem targetTuple_stays :
    Stays W top opensFirst base depth targetTuple :=
  tupleOrSingle_stays (rule_stays hbase)

/-! ### Mistakes -/

theorem rejectTarget_stays :
    Stays W top opensFirst base depth rejectTarget := by
  refine inspect_stays (.iterate fun _ => .option (spreadTuple_stays hbase) (fun target => ?_) ?_)
  case refine_2 => exact .stay
  refine .ifThen (.acceptsSign (by decide)) ?_ ?_
  · split
    · exact .raise
    · exact .stay
  · refine augmentedOperator_stays.bind fun op => ?_
    dsimp only
    split
    · exact Nests.raise.bind fun _ => .stay
    · exact .stay

theorem rejectBinding_stays :
    Stays W top opensFirst base depth rejectBinding := by
  refine inspect_stays (.option (rule_stays hbase) (fun target => ?_) .stay)
  refine .ifThen (.acceptsSign (by decide)) ?_ .stay
  split
  · exact .stay
  · exact .raise

theorem rejectMissingElse_stays :
    Stays W top opensFirst base depth rejectMissingElse := by
  refine inspect_stays (.mark fun start _ => .option (rule_stays hbase) (fun body => ?_)
    .stay)
  refine (Nests.acceptsSign (by decide)).bind fun found => ?_
  split
  · exact .stay
  refine .option (rule_stays hbase) (fun test => .peek fun t => .ahead ?_) .stay
  split
  · exact .spanSince fun _ => .raise
  · exact .stay

theorem entry_stays :
    Stays W top opensFirst base depth entry :=
  attempt_stays fun _ _ => .need (rule_stays hbase) rfl fun _ => .expect (.acceptsSign (by decide))
    (.need (rule_stays hbase) rfl fun _ => .stay)

theorem entryOrSpread_stays :
    Stays W top opensFirst base depth entryOrSpread :=
  .mark fun _ hstart => .ifThen (.acceptsSign (by decide))
    (.option (rule_stays hbase) (fun _ => .stay) (giveUp_nests hstart))
    (mapped_stays (entry_stays hbase))

theorem keyWithoutValue_stays :
    Stays W top opensFirst base depth keyWithoutValue := by
  refine .option (rule_stays hbase) (fun key => ?_) .stay
  refine .option (.sign (by decide)) (fun colon => .peek fun t => .ahead ?_) .stay
  split
  · exact .raise
  · exact .stay

theorem rejectMissingValue_stays :
    Stays W top opensFirst base depth rejectMissingValue := by
  refine inspect_stays (.iterate fun _ => .mark fun start hstart => ?_)
  refine .option (entryOrSpread_stays hbase) (fun pair => ?_) (.reset hstart ?_)
  · exact .ifThen (.acceptsSign (by decide)) .stay .stay
  · exact Nests.bind (keyWithoutValue_stays hbase) fun _ => .stay

/-! ### Comprehensions -/

theorem filterClause_stays :
    Stays W top opensFirst base depth filterClause :=
  .expect (.acceptsSign (by decide)) (rule_stays hbase)

theorem forClause_stays :
    Stays W top opensFirst base depth forClause := by
  refine attempt_stays fun _ _ => (Nests.acceptsSign (by decide)).bind fun isAsync => ?_
  refine .expect (.acceptsSign (by decide)) (.need (targetTuple_stays hbase) rfl fun target => ?_)
  refine .expect (.acceptsSign (by decide)) (.need (rule_stays hbase) rfl fun iter => ?_)
  exact Nests.bind (.many (filterClause_stays hbase)) fun ifs => .stay

theorem forClauses_stays :
    Stays W top opensFirst base depth forClauses :=
  .many1 (forClause_stays hbase)

end

/-! ### Displays -/

section

variable (hbase : base ≤ depth + 1)

include hbase

theorem comprehension_nests {closer : String} (hcloser : (Lexer.closer? closer).isSome = true) :
    Nests W top opensFirst base (depth + 1) (comprehension closer) fun _ => depth :=
  .needInside (rule_stays hbase) rfl fun _ => .needInside (forClauses_stays hbase) rfl fun _ =>
    .expectCloser hcloser .stay

theorem generator_stays : Stays W top opensFirst base depth generator := by
  refine attempt_stays fun _ _ => .expectOpener (by decide) ?_
  refine (comprehension_nests hbase (by decide)).bind ?_
  rintro (_ | ⟨elt, generators⟩)
  · exact .stay
  · exact node_stays

theorem group_nests {start inside : Nat} (hstart : depth ≤ W.depthAt start)
    (hinside : depth + 1 ≤ W.depthAt inside) : Nests W top opensFirst base (depth + 1) (do
      reset start
      if let some value ← generator then return some value
      reset inside
      let some inner ← bindingTuple | return none
      if !(← accepts ")") then return none
      match inner.form with
      | .tuple items => node start (.tuple items)
      | _ => return some inner) fun _ => depth := by
  refine .reset hstart (.option (generator_stays hbase) (fun _ => .stay) (.reset hinside ?_))
  refine .needInside (bindingTuple_stays hbase) rfl fun inner => .expectCloser (by decide) ?_
  split
  · exact node_stays
  · exact .stay

theorem parenthesized_stays : Stays W top opensFirst base depth parenthesized := by
  refine attempt_stays fun start hstart => .expectOpener (by decide) ?_
  refine .ifCloser (by decide) node_stays (.mark fun inside hinside => ?_)
  refine .option (yielded_stays hbase) (fun value => ?_) (group_nests hbase hstart hinside)
  exact .ifCloser (by decide) .stay (group_nests hbase hstart hinside)

omit hbase in
theorem bracketItems_stays (hbase : base ≤ depth) :
    Stays W top opensFirst base depth bracketItems := by
  refine .option (.separated (by decide) (bindingOrSpread_stays hbase)) (fun items => ?_) .stay
  exact (Nests.acceptsSign (by decide)).bind fun _ => .stay

theorem squareBracketed_stays : Stays W top opensFirst base depth squareBracketed := by
  refine attempt_stays fun start _ => .expectOpener (by decide) (.mark fun inside hinside => ?_)
  refine (comprehension_nests hbase (by decide)).bind ?_
  rintro (_ | ⟨elt, generators⟩)
  · refine .reset hinside ((bracketItems_stays hbase).bind fun items => ?_)
    exact .expectCloser (by decide) node_stays
  · exact node_stays

theorem dictComprehension_nests :
    Nests W top opensFirst base (depth + 1) dictComprehension fun _ => depth :=
  .needInside (entry_stays hbase) rfl fun _ => .needInside (forClauses_stays hbase) rfl fun _ =>
    .expectCloser (by decide) .stay

theorem dictEntries_nests : Nests W top opensFirst base (depth + 1) dictEntries fun _ => depth := by
  refine .needInside (.separated (by decide) (entryOrSpread_stays hbase)) rfl fun pairs => ?_
  exact (Nests.acceptsSign (by decide)).bind fun _ => .expectCloser (by decide) .stay

theorem braced_stays : Stays W top opensFirst base depth braced := by
  refine attempt_stays fun start _ => .expectOpener (by decide) ?_
  refine .ifCloser (by decide) node_stays (.mark fun inside hinside => ?_)
  refine (dictComprehension_nests hbase).bind ?_
  rintro (_ | ⟨⟨key, value⟩, generators⟩)
  case some => exact node_stays
  refine .reset hinside ((comprehension_nests hbase (by decide)).bind ?_)
  rintro (_ | ⟨elt, generators⟩)
  case some => exact node_stays
  refine .reset hinside ((dictEntries_nests hbase).bind ?_)
  rintro (_ | pairs)
  case some => exact node_stays
  refine .reset hinside (.diagnosis (rejectMissingValue_stays hbase) ?_)
  refine (bracketItems_stays hbase).bind fun items => ?_
  split
  · exact .done (Nat.le_succ _)
  · exact .expectCloser (by decide) node_stays

end

end ShellSyntax.Language
