import ShellSyntax.Language.Expression
import ShellSyntax.Language.Primary
import ShellSyntax.Proofs.Language.Merging
import ShellSyntax.Proofs.Language.Places

/-! Expressions, their literals and the commands in them span the tokens they were read from. -/

namespace ShellSyntax.Language

open Matcher

variable {α : Type} {W : ClearWorld} {i j k : Nat}

/-! ### Named and conditional expressions -/

theorem unbound_places :
    Places W (do
      if ← isDiagnosing then rejectBinding
      let some value ← expr | return none
      if ← lookahead (spelled ":=") then giveUp i else return some value) i := by
  refine .diagnosis W.quiet (LeadsIn.need .rule (Nat.le_refl i) rfl fun value j hj hvalue => ?_)
  refine .lookahead fun found => ?_
  split
  · exact giveUp_places (Nat.le_refl i)
  · exact Lays.some hj hvalue

theorem bindingExprRule_places : Places W bindingExprRule i := by
  refine .mark (.name (fun name ht hkind => ?_) unbound_places)
  refine .ifAccepts (fun hshows => .spanSince ?_) (.reset unbound_places)
  have hshown {k : Nat} (hk : i + 2 ≤ k) : W.Shows i k := hshows.mono (Nat.le_succ i) hk
  refine LeadsIn.andThen .rule ?_ fun j hj => giveUp_places (Nat.le_refl i)
  intro value j hj hvalue
  have htarget : (Node.expr ⟨.name name.text, W.spanSince i (i + 2)⟩).Between W.toFeed i (i + 2) :=
    .spanned W.whole (hshown (Nat.le_refl _)) rfl .nil
  refine node_places (Nat.le_refl i) (hshown hj) (AllBetween.append ?_ ?_)
  · exact .single (htarget.mono (Nat.le_refl i) hj)
  · exact hvalue.mono (by omega) (Nat.le_refl j)

theorem ifElseTail_places : Places W ifElseTail i := by
  refine attempt_places (.expect (Nat.le_refl i) fun _ => ?_)
  refine LeadsIn.need .rule (by omega) rfl fun test j hj htest => .expect (by omega) fun _ => ?_
  refine LeadsIn.need .rule (by omega) rfl fun orelse k hk horelse => Lays.some (by omega) ?_
  exact (htest.mono (by omega) (by omega)).append (horelse.mono (by omega) (Nat.le_refl k))

theorem defaulted_places {id : Token} { annotation : Option Expr} (hj : i ≤ j)
    (hannotated : AllBetween W.toFeed i j (nodes annotation)) :
    Leads W.toWorld (matched W) (do
      let mut default := none
      if ← accepts "=" then
        let some value ← expr | return none
        default := some value
      return some ⟨id.text, annotation, default⟩ : Match (Option Parameter)) j
      (Lays W.toFeed i) := by
  refine .ifAccepts (fun _ => ?_) (Lays.some hj (hannotated.append .nil))
  refine LeadsIn.need .rule (by omega) rfl fun value k hk hvalue => Lays.some (by omega) ?_
  refine (hannotated.mono (Nat.le_refl i) (by omega)).append ?_
  rw [nodes_some]
  exact hvalue.mono (by omega) (Nat.le_refl k)

theorem namedParameter_places {annotated : Bool} : Places W (namedParameter annotated) i := by
  refine attempt_places (.name (fun id _ _ => ?_) (Lays.none (Nat.le_refl i)))
  cases annotated with
  | false => exact defaulted_places (Nat.le_succ i) .nil
  | true =>
    refine .ifAccepts (fun _ => ?_) (defaulted_places (Nat.le_succ i) .nil)
    refine LeadsIn.need .rule (by omega) rfl fun value j hj hvalue => ?_
    refine defaulted_places (by omega) ?_
    rw [nodes_some]
    exact hvalue.mono (by omega) (Nat.le_refl j)

theorem parameterItem_places {annotated : Bool} {state : ParameterState} (hk : k ≤ i)
    (hstate : AllBetween W.toFeed k i (nodes state)) :
    Leads W.toWorld (matched W) (parameterItem annotated state) i (Lays W.toFeed k) := by
  obtain ⟨⟨args, vararg, kwonly, kwarg⟩, afterStar⟩ := state
  have hparts {j : Nat} (hj : i ≤ j) : AllBetween W.toFeed k j
      ((nodes args ++ (nodes vararg ++ (nodes kwonly ++ nodes kwarg))) ++ []) :=
    hstate.mono (Nat.le_refl k) hj
  simp only [AllBetween.append_iff] at hparts
  refine .ifAccepts (fun _ => ?_) (.ifAccepts (fun _ => ?_) (.ifAccepts (fun _ => ?_) ?_))
  · exact Lays.some (by omega) (hstate.mono (Nat.le_refl k) (by omega))
  · refine LeadsIn.need namedParameter_places (by omega) rfl fun p j hj hp => ?_
    refine Lays.some (by omega) ?_
    obtain ⟨⟨hargs, hvararg, hkwonly, _⟩, _⟩ := hparts (j := j) (by omega)
    refine AllBetween.append (hargs.append (hvararg.append (hkwonly.append ?_))) .nil
    rw [nodes_some]
    exact hp.mono (by omega) (Nat.le_refl j)
  · refine .value namedParameter_places fun p j hj hp => Lays.some (by omega) ?_
    obtain ⟨⟨hargs, _, hkwonly, hkwarg⟩, _⟩ := hparts (j := j) (by omega)
    refine AllBetween.append (hargs.append (.append ?_ (hkwonly.append hkwarg))) .nil
    exact hp.mono (by omega) (Nat.le_refl j)
  · refine LeadsIn.need namedParameter_places hk rfl fun p j hj hp => ?_
    obtain ⟨⟨hargs, hvararg, hkwonly, hkwarg⟩, _⟩ := hparts (Nat.le_refl i)
    have hrest {ns : List Node} (hns : AllBetween W.toFeed k i ns) : AllBetween W.toFeed k j ns :=
      hns.mono (Nat.le_refl k) hj
    cases afterStar with
    | false =>
      refine Lays.some (by omega) (AllBetween.append (.append ?_ ?_) .nil)
      · exact hargs.concat hp hk hj
      · exact hrest (hvararg.append (hkwonly.append hkwarg))
    | true =>
      refine Lays.some (by omega) (AllBetween.append (.append (hrest hargs) ?_) .nil)
      exact (hrest hvararg).append ((hkwonly.concat hp hk hj).append (hrest hkwarg))

theorem parameterList_places {annotated : Bool} {close : String} :
    Places W (parameterList annotated close) i := by
  refine attempt_places (.loop (Lays W.toFeed i) ⟨Nat.le_refl i, .nil⟩ ?_)
  rintro state j ⟨hj, hstate⟩
  have hargs {state : ParameterState} {k : Nat} (h : AllBetween W.toFeed i k (nodes state)) :
      AllBetween W.toFeed i k (nodes state.1) :=
    (AllBetween.append_iff.mp h).1
  refine .lookahead fun found => ?_
  split
  · exact Lays.some hj (hargs hstate)
  · refine .bind ((parameterItem_places hj hstate).mono ?_)
    rintro (_ | state) k hlays
    · exact Lays.none hlays.1
    · refine .ifAccepts (fun _ => ?_) (Lays.some hlays.1 (hargs hlays.of_some))
      exact ⟨Nat.le_succ_of_le hlays.1, hlays.of_some.mono (Nat.le_refl i) (Nat.le_succ k)⟩

theorem lambdaExpr_places : Places W lambdaExpr i := by
  refine attempt_places (.expect (Nat.le_refl i) fun hshows => ?_)
  refine LeadsIn.need parameterList_places (by omega) rfl fun args j hj hargs => ?_
  refine .expect (by omega) fun _ => ?_
  refine LeadsIn.need .rule (by omega) rfl fun body k hk hbody => ?_
  refine node_places (Nat.le_refl i) (hshows.mono (Nat.le_refl i) (by omega)) (.append ?_ ?_)
  · exact hargs.mono (by omega) (by omega)
  · exact hbody.mono (by omega) (Nat.le_refl k)

theorem exprRule_places : Places W exprRule i := by
  refine .diagnosis W.quiet (.mark ?_)
  refine LeadsIn.andThen .rule ?_ fun j hj => lambdaExpr_places.after hj
  intro body j hj hbody
  refine .andThen ifElseTail_places ?_ fun k hk => ?_
  · rintro ⟨test, orelse⟩ k hk htail
    have hparts : AllBetween W.toFeed j k (nodes test ++ nodes orelse) := htail
    simp only [AllBetween.append_iff] at hparts
    refine node_places (Nat.le_refl i) (hbody.shows.mono (Nat.le_refl i) hk) ?_
    exact (hparts.1.mono hj (Nat.le_refl k)).append
      ((hbody.mono (Nat.le_refl i) hk).append (hparts.2.mono hj (Nat.le_refl k)))
  · exact Lays.some (Nat.le_trans hj hk) (hbody.mono (Nat.le_refl i) hk)

/-! ### Boolean operators and comparisons -/

theorem boolOperands_places {op : BoolOp} {keyword : String} {operand : Match (Option Expr)}
    (hoperand : ∀ j, i ≤ j → Places W operand j) :
    Places W (boolOperands op keyword operand) i := by
  refine .mark (.bind ((LeadsIn.separated_items hoperand).mono ?_))
  rintro (_ | _ | ⟨value, others⟩) j ⟨hlays, hne⟩
  · exact Lays.none hlays.1
  · exact absurd rfl hne
  · have hvalues : AllBetween W.toFeed i j (nodes value ++ nodes others) := hlays.of_some
    have hvalue : AllBetween W.toFeed i j (nodes value) := (AllBetween.append_iff.mp hvalues).1
    cases others with
    | nil => exact Lays.some hlays.1 hvalue
    | cons => exact node_places (Nat.le_refl i) hvalue.shows hvalues

theorem notIn_places : Places W notIn i :=
  attempt_places (.expect (Nat.le_refl i) fun _ =>
    .expect (by omega) fun _ => Lays.some (by omega) .nil)

theorem comparisonOperator_places : Places W comparisonOperator i := by
  refine .bind ((oneOf_leads _).mono ?_)
  rintro (_ | op) j ⟨hj, _⟩
  case some => exact Lays.some hj .nil
  refine .andThen notIn_places (fun op k hk hop => Lays.some (by omega) .nil) fun k hk => ?_
  refine .ifAccepts (fun _ => ?_) (Lays.none (by omega))
  exact .ifAccepts (fun _ => Lays.some (by omega) .nil) (Lays.some (by omega) .nil)

theorem comparisonTail_places : Places W comparisonTail i := by
  refine attempt_places ?_
  refine LeadsIn.need comparisonOperator_places (Nat.le_refl i) rfl fun op j hj hop => ?_
  refine LeadsIn.need .rule hj rfl fun right k hk hright => Lays.some (by omega) ?_
  exact .append .nil (hright.mono hj (Nat.le_refl k))

theorem comparison_places : Places W comparison i := by
  refine .mark (LeadsIn.need .rule (Nat.le_refl i) rfl fun left j hj hleft => ?_)
  refine .value (.many fun _ _ => comparisonTail_places) fun tails k hk htails => ?_
  have hleft' : AllBetween W.toFeed i k (nodes left) := hleft.mono (Nat.le_refl i) hk
  split
  · exact Lays.some (Nat.le_trans hj hk) hleft'
  · refine node_places (Nat.le_refl i) hleft'.shows (hleft'.append ?_)
    exact fun n hn => (htails n (mem_nodes_seconds hn)).mono hj (Nat.le_refl k)

theorem notExprRule_places : Places W notExprRule i := by
  refine .mark (.ifAccepts (fun hshows => ?_) comparison_places)
  refine LeadsIn.andThen .rule ?_ fun j hj => giveUp_places (Nat.le_refl i)
  intro operand j hj hoperand
  exact node_places (Nat.le_refl i) (hshows.mono (Nat.le_refl i) hj)
    (hoperand.mono (Nat.le_succ i) (Nat.le_refl j))

/-! ### Binary and prefix operators -/

theorem binaryTail_places {start here : Nat} {left : Expr} {operand : Match (Option Expr)}
    {ops : List BinOp} (hhere : start ≤ here) (hle : here ≤ i)
    (hleft : AllBetween W.toFeed start here (nodes left))
    (hoperand : ∀ j, start ≤ j → Places W operand j) :
    Leads W.toWorld (matched W) (binaryTail start here left operand ops) i
      (Lays W.toFeed start) := by
  induction ops generalizing i with
  | nil => exact Lays.none (by omega)
  | cons op ops induction =>
    refine .ifAccepts (fun _ => ?_) (.reset (induction (Nat.le_refl here)))
    refine .andThen (hoperand (i + 1) (by omega)) ?_ fun j hj =>
      .reset (induction (Nat.le_refl here))
    intro right j hj hright
    have hleft' : AllBetween W.toFeed start j (nodes left) :=
      hleft.mono (Nat.le_refl start) (by omega)
    exact node_places (Nat.le_refl start) hleft'.shows
      (hleft'.append (hright.mono (by omega) (Nat.le_refl j)))

theorem leftAssoc_places {ops : List BinOp} {this operand : Match (Option Expr)}
    (hthis : Places W this i) (hoperand : ∀ j, i ≤ j → Places W operand j) :
    Places W (leftAssoc ops this operand) i := by
  have hrestart (j : Nat) : Leads W.toWorld (matched W) (reset i >>= fun _ => operand) j
      (Lays W.toFeed i) :=
    .reset (hoperand i (Nat.le_refl i))
  refine .mark (.andThen hthis (fun left j hj hleft => .mark ?_) fun j _ => hrestart j)
  refine .bind ((binaryTail_places hj (Nat.le_refl j) hleft hoperand).mono ?_)
  rintro (_ | longer) k hlays
  · exact hrestart k
  · exact hlays

theorem powerExpr_places : Places W powerExpr i := by
  refine .mark (LeadsIn.need .rule (Nat.le_refl i) rfl fun base j hj hbase => .mark ?_)
  refine .ifAccepts (fun _ => ?_) (Lays.some hj hbase)
  refine LeadsIn.andThen .rule ?_ fun k _ => .reset (Lays.some hj hbase)
  intro exponent k hk hexponent
  have hbase' : AllBetween W.toFeed i k (nodes base) := hbase.mono (Nat.le_refl i) (by omega)
  exact node_places (Nat.le_refl i) hbase'.shows
    (hbase'.append (hexponent.mono (by omega) (Nat.le_refl k)))

theorem signedExprRule_places : Places W signedExprRule i := by
  refine .mark (.bind ((oneOf_leads _).mono ?_))
  rintro (_ | op) j ⟨hj, hshown⟩
  · exact powerExpr_places.after hj
  · refine LeadsIn.andThen .rule ?_ fun k hk => giveUp_places (Nat.le_refl i)
    intro operand k hk hoperand
    exact node_places (Nat.le_refl i) ((hshown rfl).mono (Nat.le_refl i) hk)
      (hoperand.mono hj (Nat.le_refl k))

theorem awaitExprRule_places : Places W awaitExprRule i := by
  refine .mark (.ifAccepts (fun hshows => ?_) .rule)
  refine LeadsIn.andThen .rule ?_ fun j hj => giveUp_places (Nat.le_refl i)
  intro value j hj hvalue
  exact node_places (Nat.le_refl i) (hshows.mono (Nat.le_refl i) hj)
    (hvalue.mono (Nat.le_succ i) (Nat.le_refl j))

/-! ### Literals -/

instance : HasNodes StringFlags where
  nodes _ := []

theorem fstringLiteral_leads :
    Leads W.toWorld (matched W) fstringLiteral i fun found j =>
      Lays W.toFeed i found j ∧ (found.isSome → W.Shows i j) := by
  have hnone {j : Nat} (hj : i ≤ j) {P : Prop} :
      Lays W.toFeed i (none : Option (StringFlags × List FormatPart)) j ∧
        ((none : Option (StringFlags × List FormatPart)).isSome → P) :=
    ⟨Lays.none hj, nofun⟩
  refine attempt_leads (.ofKind (fun opening ht hkind => ?_) (hnone (Nat.le_refl i)))
    (hnone (Nat.le_refl i))
  have hshows : W.Shows i (i + 1) := Feed.shows_token ht (by rw [hkind]; rfl)
  refine LeadsIn.andThen .rule ?_ fun j hj => hnone (by omega)
  intro parts j hj hparts
  refine .acceptsKind (fun _ _ _ => ⟨Lays.some (by omega) (.append .nil ?_), fun _ => ?_⟩)
    (hnone (by omega))
  · exact hparts.mono (by omega) (by omega)
  · exact hshows.mono (Nat.le_refl i) (by omega)

theorem stringRunRule_places : Places W stringRunRule i := by
  refine .mark (.bind ?_)
  refine .loop (fun g j => Lays W.toFeed i g j ∧ (g.count ≠ 0 → W.Shows i j))
    ⟨⟨Nat.le_refl i, .nil⟩, nofun⟩ ?_
  rintro g j ⟨⟨hj, hg⟩, hcount⟩
  refine .ofKind (fun token ht hkind => ?_) (.bind (fstringLiteral_leads.mono ?_))
  · have hg' : AllBetween W.toFeed i (j + 1) (nodes g) := hg.mono (Nat.le_refl i) (Nat.le_succ j)
    refine ⟨⟨by omega, fun n hn => hg' n (Gathered.mem_nodes_addString hn)⟩, fun _ => ?_⟩
    have hshows : W.Shows j (j + 1) := Feed.shows_token ht (by rw [hkind]; rfl)
    exact hshows.mono hj (Nat.le_refl _)
  rintro (_ | ⟨flags, parts⟩) k ⟨hlays, hshown⟩
  · have hk : j ≤ k := hlays.1
    have hliteral : AllBetween W.toFeed i k (nodes g.literal) :=
      fun n hn => (hg.mono (Nat.le_refl i) hk) n (Gathered.mem_nodes_literal hn)
    change Leads W.toWorld (matched W) (if g.count = 0 then _ else _ : Match (Option Expr)) k
      (Lays W.toFeed i)
    split
    · exact Lays.none (by omega)
    case isFalse hsome =>
      have hshows : W.Shows i k := (hcount hsome).mono (Nat.le_refl i) hk
      have hplaced : (Node.expr ⟨g.literal, W.spanSince i k⟩).Between W.toFeed i k :=
        .spanned W.whole hshows rfl hliteral
      refine .spanSince (Lays.some (by omega) (.single ?_))
      split
      · exact .spanned W.whole hshows rfl (.single hplaced)
      · exact hplaced
  · have hk : j ≤ k := hlays.1
    refine ⟨⟨by omega, .either ?_ ?_ fun _ => mem_nodes_foldl_add⟩, fun _ => ?_⟩
    · exact hg.mono (Nat.le_refl i) hk
    · exact (AllBetween.append_iff.mp hlays.of_some).2.mono hj (Nat.le_refl k)
    · exact (hshown rfl).mono hj (Nat.le_refl k)

theorem conversion_places : Places W conversion i := by
  refine attempt_places (.spelled (fun mark _ _ => ?_) (Lays.none (Nat.le_refl i)))
  refine .name (fun letter _ _ => ?_) (Lays.none (by omega))
  dsimp only
  split
  · exact Lays.some (by omega) .nil
  · exact Lays.none (by omega)

theorem formatField_places {raw : Bool} : Places W (formatField raw) i := by
  refine attempt_places (.spelled (fun opening _ _ => ?_) (Lays.none (Nat.le_refl i)))
  refine LeadsIn.need yieldOrTuple_places (by omega) rfl fun value j hj hvalue => ?_
  refine .spelledOrNot fun equals k hk => ?_
  refine .bind (conversion_places.mono fun letter l hletter => ?_)
  have hl := hletter.1
  have hvalue' {m : Nat} (hm : l ≤ m) : AllBetween W.toFeed i m (nodes value) :=
    hvalue.mono (by omega) (by omega)
  refine .ifAccepts (fun _ => ?_) (.expect (by omega) fun _ => Lays.some (by omega) ?_)
  · refine LeadsIn.need .rule (by omega) rfl fun parts m hm hparts => ?_
    refine .expect (by omega) fun _ => Lays.some (by omega) ?_
    rw [FormatPart.nodes_field]
    exact (hvalue' (by omega)).append (hparts.mono (by omega) (by omega))
  · rw [FormatPart.nodes_field]
    exact (hvalue' (by omega)).append .nil

theorem fstringInsideRule_places {raw : Bool} : Places W (fstringInsideRule raw) i := by
  refine .loop (Lays W.toFeed i) ⟨Nat.le_refl i, .nil⟩ ?_
  rintro parts j ⟨hj, hparts⟩
  refine .ofKind (fun token _ _ => ⟨by omega, ?_⟩) (.andThen formatField_places ?_ ?_)
  · exact .either (hparts.mono (Nat.le_refl i) (Nat.le_succ j)) .nil fun _ => mem_nodes_add
  · exact fun field k hk hfield => ⟨by omega, hparts.concat hfield hj hk⟩
  · exact fun k hk => Lays.some (by omega) (hparts.mono (Nat.le_refl i) hk)

theorem pathSearch_places : Places W pathSearch i := by
  refine .mark (.ofKind (fun token ht hkind => ?_) (Lays.none (Nat.le_refl i)))
  exact node_places (Nat.le_refl i) (Feed.shows_token ht (by rw [hkind]; rfl)) .nil

/-! ### Commands -/

theorem variableExpr_places : Places W variableExpr i := by
  refine attempt_places (.spelled (fun dollar ht hkind => ?_) ?_)
  · have hshows : W.Shows i (i + 1) := LeadsIn.shows_spelled ht hkind
    refine .ofKind (fun id _ _ => ?_) (Lays.none (by omega))
    dsimp only
    split
    · exact Lays.none (by omega)
    · exact node_places (Nat.le_refl i) (hshows.mono (Nat.le_refl i) (Nat.le_succ _)) .nil
  · refine .expect (Nat.le_refl i) fun hshows => ?_
    refine LeadsIn.need .rule (by omega) rfl fun value j hj hvalue => .expect (by omega) fun _ => ?_
    exact node_places (Nat.le_refl i) (hshows.mono (Nat.le_refl i) (by omega))
      (hvalue.mono (Nat.le_succ i) (Nat.le_succ j))

theorem wordArg_places {token : Token} : Places W (wordArg token) i :=
  .next fun _ _ => Lays.some (Nat.le_succ i) .nil

theorem hostArg_places : Places W hostArg i := by
  refine attempt_places (.next fun _ _ => ?_)
  refine LeadsIn.need spreadTuple_places (by omega) rfl fun value j hj hvalue => ?_
  refine .expect (by omega) fun _ => Lays.some (by omega) ?_
  exact hvalue.mono (Nat.le_succ i) (Nat.le_succ j)

theorem rawArg_places : Places W rawArg i := by
  refine attempt_places (.next fun _ _ => ?_)
  exact .ofKind (fun _ _ _ => Lays.some (by omega) .nil) (Lays.none (by omega))

theorem envArg_places : Places W envArg i := by
  refine .andThen variableExpr_places ?_ fun j hj => Lays.none hj
  intro value j hj hvalue
  have hbelow : AllBetween W.toFeed i j (nodes value.form) := hvalue.head.children
  rw [Option.map_some]
  generalize value.form = form at hbelow
  split
  case h_1 heq => exact Lays.some hj .nil
  case h_2 heq =>
    cases heq
    exact Lays.some hj hbelow
  case h_3 => exact Lays.none hj

theorem commandArg_places : Places W commandArg i := by
  refine LeadsIn.andThen .rule ?_ fun j hj => Lays.none hj
  intro value j hj hvalue
  have hbelow : AllBetween W.toFeed i j (nodes value.form) := hvalue.head.children
  rw [Option.map_some]
  generalize value.form = form at hbelow
  split
  case h_1 heq =>
    cases heq
    exact Lays.some hj hbelow
  case h_2 => exact Lays.none hj

theorem searchArg_places : Places W searchArg i := by
  refine .andThen pathSearch_places ?_ fun j hj => Lays.none hj
  intro value j hj hvalue
  rw [Option.map_some]
  split
  · exact Lays.some hj .nil
  · exact Lays.none hj

theorem operatorPiece_places {token : Token} {depth : Nat} :
    Places W (operatorPiece token depth) i := by
  have hpaired {depth : Nat} (arg : CommandArg) (j : Nat)
      (h : AllBetween W.toFeed i j (nodes arg)) :
      AllBetween W.toFeed i j (nodes (arg, depth)) :=
    h.append .nil
  unfold operatorPiece
  dsimp only
  split
  · exact mapped_places envArg_places hpaired
  split
  · exact mapped_places hostArg_places hpaired
  split
  · exact mapped_places commandArg_places hpaired
  split
  · exact mapped_places rawArg_places hpaired
  split
  · exact mapped_places wordArg_places hpaired
  split
  · exact .next fun _ _ => Lays.some (Nat.le_succ i) .nil
  split
  · exact mapped_places wordArg_places hpaired
  split
  · exact mapped_places wordArg_places hpaired
  · exact Lays.none (Nat.le_refl i)

theorem piece_places {token : Token} {depth : Nat} : Places W (piece token depth) i := by
  have hpaired (arg : CommandArg) (j : Nat) (h : AllBetween W.toFeed i j (nodes arg)) :
      AllBetween W.toFeed i j (nodes (arg, depth)) :=
    h.append .nil
  unfold piece
  dsimp only
  split
  case h_1 => exact mapped_places wordArg_places hpaired
  case h_2 => exact mapped_places wordArg_places hpaired
  case h_3 => exact mapped_places wordArg_places hpaired
  case h_4 => exact .next fun _ _ => Lays.some (Nat.le_succ i) .nil
  case h_5 =>
    refine LeadsIn.andThen .rule (fun value j hj hvalue => ?_) fun j hj => Lays.none hj
    exact Lays.some hj (hpaired (.hostExpr value) j hvalue)
  case h_6 => exact mapped_places searchArg_places hpaired
  case h_7 => exact operatorPiece_places
  case h_8 => exact Lays.none (Nat.le_refl i)

theorem commandWords_places {closer : String} : Places W (commandWords closer) i := by
  refine .loop (fun state j => i ≤ j ∧ AllBetween W.toFeed i j (nodes state.1))
    ⟨Nat.le_refl i, .nil⟩ ?_
  rintro ⟨argv, depth, stopped⟩ j ⟨hj, hargv⟩
  have hresult {k : Nat} (hk : j ≤ k) :
      Lays W.toFeed i (if argv.isEmpty = true then none else some argv) k := by
    split
    · exact Lays.none (by omega)
    · exact Lays.some (by omega) (hargv.mono (Nat.le_refl i) hk)
  refine .peek fun token _ => ?_
  dsimp only
  split
  · exact hresult (Nat.le_refl j)
  · refine .andThen (attempt_places piece_places) ?_ fun k hk => hresult hk
    rintro ⟨arg, depth⟩ k hk harg
    have hpiece : AllBetween W.toFeed j k (nodes arg) := (AllBetween.append_iff.mp harg).1
    refine .lastToken? fun _ => ⟨by omega, .either ?_ ?_ fun _ => mem_nodes_addPiece⟩
    · exact hargv.mono (Nat.le_refl i) hk
    · exact hpiece.mono hj (Nat.le_refl k)

theorem furtherStage_places {closer : String} : Places W (furtherStage closer) i := by
  refine attempt_places (.bind ((oneOf_leads _).mono ?_))
  rintro (_ | connector) j ⟨hj, _⟩
  · exact Lays.none hj
  · refine LeadsIn.need commandWords_places hj rfl fun argv k hk hargv => Lays.some (by omega) ?_
    rw [PipelineStage.nodes_mk]
    exact hargv.mono hj (Nat.le_refl k)

theorem stages_places {closer : String} : Places W (stages closer) i := by
  refine LeadsIn.need commandWords_places (Nat.le_refl i) rfl fun argv j hj hargv => ?_
  refine .value (.many fun _ _ => furtherStage_places) fun further k hk hfurther => ?_
  refine Lays.some (by omega) ?_
  rw [nodes_cons, PipelineStage.nodes_mk]
  exact (hargv.mono (Nat.le_refl i) hk).append (hfurther.mono hj (Nat.le_refl k))

theorem captured_leads {capture : CaptureMode} :
    Leads W.toWorld (matched W) (captured capture) i fun found j =>
      ∀ value, found = .matched value → Lays W.toFeed i (some value) j := by
  refine .mark (.spelled (fun opening ht hkind => ?_) nofun)
  have hshows : W.Shows i (i + 1) := LeadsIn.shows_spelled ht hkind
  refine .diagnosis W.quiet (.andThen stages_places (fun stages j hj hstages => ?_) ?_)
  · refine .acceptsOrNot fun background k hk => .unlessAccepts nofun fun _ => .spanSince ?_
    intro value hvalue
    cases hvalue
    refine Lays.some (by omega) (.single (.spanned W.whole ?_ rfl ?_))
    · exact hshows.mono (Nat.le_refl i) (by omega)
    · have hcommand : AllBetween W.toFeed i (k + 1)
          (nodes (Pipeline.mk capture stages background)) := by
        rw [Pipeline.nodes_mk]
        exact hstages.mono (Nat.le_succ i) (by omega)
      exact hcommand
  · exact fun _ _ => nofun

theorem commandExprRule_places : Places W commandExprRule i := by
  refine .firstOf fun m hm => ?_
  obtain ⟨capture, _, rfl⟩ := List.mem_map.mp hm
  exact captured_leads

/-! ### Atoms -/

theorem nameExpr_places {token : Token} (ht : W.token i = .ok token)
    (hkind : token.kind.isLayout = false) : Places W (nameExpr i token) i := by
  have hshows : W.Shows i (i + 1) := Feed.shows_token ht hkind
  unfold nameExpr
  split
  · exact .next fun _ _ => node_places (Nat.le_refl i) hshows .nil
  · split
    · exact Lays.none (Nat.le_refl i)
    · exact .next fun _ _ => node_places (Nat.le_refl i) hshows .nil

theorem bracketExpr_places {token : Token} (ht : W.token i = .ok token)
    (hkind : token.kind.isLayout = false) : Places W (bracketExpr i token.text) i := by
  unfold bracketExpr
  split
  · exact parenthesized_places
  split
  · exact squareBracketed_places
  split
  · exact braced_places
  split
  · exact .next fun _ _ => node_places (Nat.le_refl i) (Feed.shows_token ht hkind) .nil
  split
  · exact variableExpr_places
  split
  · have hcommand : Places W commandExpr i := .rule
    exact hcommand
  · exact Lays.none (Nat.le_refl i)

theorem atomicExprRule_places : Places W atomicExprRule i := by
  refine .mark (.peek fun token ht => ?_)
  split
  case h_1 hkind => exact nameExpr_places ht (by rw [hkind]; rfl)
  case h_2 hkind =>
    refine .next fun _ _ => node_places (Nat.le_refl i) (Feed.shows_token ht ?_) .nil
    rw [hkind]
    rfl
  case h_3 => exact .rule
  case h_4 => exact .rule
  case h_5 => exact pathSearch_places
  case h_6 hkind => exact bracketExpr_places ht (by rw [hkind]; rfl)
  case h_7 => exact Lays.none (Nat.le_refl i)

/-! ### Calls and subscripts -/

theorem namedArgument_places : Places W namedArgument i := by
  refine attempt_places (.name (fun id _ _ => ?_) (Lays.none (Nat.le_refl i)))
  refine .expect (by omega) fun _ => ?_
  refine LeadsIn.need .rule (by omega) rfl fun value j hj hvalue => Lays.some (by omega) ?_
  exact hvalue.mono (by omega) (Nat.le_refl j)

theorem argument_places {state : ArgumentState} (hk : k ≤ i)
    (hstate : AllBetween W.toFeed k i (nodes state)) :
    Leads W.toWorld (matched W) (argument state) i (Lays W.toFeed k) := by
  obtain ⟨args, keywords⟩ := state
  have hparts : AllBetween W.toFeed k i (nodes args) ∧ AllBetween W.toFeed k i (nodes keywords) :=
    AllBetween.append_iff.mp hstate
  have hargs {j : Nat} (hj : i ≤ j) : AllBetween W.toFeed k j (nodes args) :=
    hparts.1.mono (Nat.le_refl k) hj
  have hkeywords {j : Nat} (hj : i ≤ j) : AllBetween W.toFeed k j (nodes keywords) :=
    hparts.2.mono (Nat.le_refl k) hj
  refine .mark (.ifAccepts (fun hshows => ?_) (.ifAccepts (fun _ => ?_) ?_))
  · refine LeadsIn.need .rule (by omega) rfl fun value j hj hvalue => .spanSince ?_
    have hstarred : (Node.expr ⟨.starred value, W.spanSince i j⟩).Between W.toFeed i j :=
      .spanned W.whole (hshows.mono (Nat.le_refl i) hj) rfl
        (hvalue.mono (Nat.le_succ i) (Nat.le_refl j))
    have hplaced : AllBetween W.toFeed i j (nodes (⟨.starred value, W.spanSince i j⟩ : Expr)) :=
      .single hstarred
    have hi : i ≤ j := Nat.le_of_succ_le hj
    exact Lays.some (by omega) ((hparts.1.concat hplaced hk hi).append (hkeywords hi))
  · refine LeadsIn.need .rule (by omega) rfl fun value j hj hvalue => Lays.some (by omega) ?_
    have hkeyword : AllBetween W.toFeed (i + 1) j (nodes (NamedArgument.mk none value)) := hvalue
    exact (hargs (by omega)).append (hparts.2.concat hkeyword (by omega) (by omega))
  · refine .andThen namedArgument_places ?_ fun j hj => ?_
    · intro keyword j hj hkeyword
      exact Lays.some (by omega) ((hargs hj).append (hparts.2.concat hkeyword hk hj))
    · refine LeadsIn.need .rule (by omega) rfl fun value l hl hvalue => Lays.some (by omega) ?_
      exact (hparts.1.concat hvalue (by omega) (by omega)).append (hkeywords (by omega))

theorem argumentList_places : Places W argumentList i := by
  refine .loop (Lays W.toFeed i) ⟨Nat.le_refl i, .nil⟩ ?_
  rintro state j ⟨hj, hstate⟩
  refine .lookahead fun found => ?_
  split
  · exact Lays.some hj hstate
  · refine .bind ((argument_places hj hstate).mono ?_)
    rintro (_ | state) k hlays
    · exact Lays.none hlays.1
    · refine .ifAccepts (fun _ => ?_) hlays
      exact ⟨Nat.le_succ_of_le hlays.1, hlays.of_some.mono (Nat.le_refl i) (Nat.le_succ k)⟩

theorem subscriptItem_places : Places W subscriptItem i := by
  refine .mark (LeadsIn.value .rule fun lower j hj hlower => ?_)
  refine .ifAccepts (fun hshows => ?_) (.reset bindingOrSpread_places)
  have hlower' {m : Nat} (hm : j ≤ m) : AllBetween W.toFeed i m (nodes lower) :=
    hlower.mono (Nat.le_refl i) hm
  have hshown {m : Nat} (hm : j + 1 ≤ m) : W.Shows i m := hshows.mono hj hm
  refine LeadsIn.value .rule fun upper k hk hupper => .ifAccepts (fun _ => ?_) ?_
  · refine LeadsIn.value .rule fun step l hl hstep => ?_
    refine node_places (Nat.le_refl i) (hshown (by omega)) ((hlower' (by omega)).append ?_)
    exact (hupper.mono (by omega) (by omega)).append (hstep.mono (by omega) (Nat.le_refl l))
  · refine node_places (Nat.le_refl i) (hshown hk) ((hlower' (by omega)).append ?_)
    exact (hupper.mono (by omega) (Nat.le_refl k)).append .nil

theorem subscripts_places : Places W subscripts i :=
  tupleOrSingle_places fun _ _ => subscriptItem_places

/-! ### Primaries -/

theorem trailer_places {start : Nat} {value : Expr} (hle : start ≤ i)
    (hvalue : AllBetween W.toFeed start i (nodes value)) :
    Leads W.toWorld (matched W) (trailer start value) i (Lays W.toFeed start) := by
  have hvalue' {m : Nat} (hm : i ≤ m) : AllBetween W.toFeed start m (nodes value) :=
    hvalue.mono (Nat.le_refl start) hm
  have hshown {m : Nat} (hm : i ≤ m) : W.Shows start m := (hvalue' hm).shows
  refine attempt_leads (.ifAccepts (fun _ => ?_) ?_) (Lays.none hle)
  · refine .name (fun attr _ _ => ?_) (Lays.none (by omega))
    exact node_places (Nat.le_refl start) (hshown (by omega)) (hvalue' (by omega))
  refine .andThen generator_places ?_ fun j hj => .ifAccepts (fun _ => ?_) ?_
  · intro argument j hj hargument
    refine node_places (Nat.le_refl start) (hshown hj) ((hvalue' hj).append (.append ?_ .nil))
    rw [nodes_cons, nodes_nil, List.append_nil]
    exact hargument.mono hle (Nat.le_refl j)
  · refine LeadsIn.need argumentList_places (by omega) rfl ?_
    rintro ⟨args, keywords⟩ k hk harguments
    refine .expect (by omega) fun _ => ?_
    refine node_places (Nat.le_refl start) (hshown (by omega)) ((hvalue' (by omega)).append ?_)
    exact harguments.mono (by omega) (Nat.le_succ k)
  refine .ifAccepts (fun _ => ?_) (.spelled (fun opening _ _ => ?_) ?_)
  · refine LeadsIn.need subscripts_places (by omega) rfl fun index k hk hindex => ?_
    refine .expect (by omega) fun _ => ?_
    refine node_places (Nat.le_refl start) (hshown (by omega)) ((hvalue' (by omega)).append ?_)
    exact hindex.mono (by omega) (Nat.le_succ k)
  · dsimp only
    split
    · exact Lays.none (by omega)
    · refine .value (.many fun _ _ => ofKind_places) fun args k hk _ => ?_
      refine .expect (by omega) fun _ => ?_
      exact node_places (Nat.le_refl start) (hshown (by omega)) (hvalue' (by omega))
  · refine .bind ((oneOf_leads _).mono ?_)
    rintro (_ | detailed) k ⟨hk, _⟩
    · exact Lays.none (by omega)
    · exact node_places (Nat.le_refl start) (hshown (by omega)) (hvalue' (by omega))

theorem postfixExprRule_places : Places W postfixExprRule i := by
  have hatomic (j : Nat) : Leads W.toWorld (matched W) (reset i >>= fun _ => atomicExpr) j
      (Lays W.toFeed i) :=
    .reset .rule
  refine .mark (LeadsIn.andThen .rule (fun value j hj hvalue => ?_) fun j _ => hatomic j)
  refine .inBrackets fun _ _ => ((trailer_places hj hvalue).mono ?_)
  rintro (_ | longer) k hlays
  · exact hatomic k
  · exact hlays

end ShellSyntax.Language
