import ShellSyntax.Language.Display
import ShellSyntax.Proofs.Parser.Placing

/-!
The ways of writing matchers, lists of expressions, targets and what stands in brackets yield nodes
that span the tokens they were read from.
-/

namespace ShellSyntax

/-- What a parser meets that looks for no mistakes in a source that can be read to its end. -/
structure ClearWorld extends World where
  whole : toFeed.Whole
  quiet : diagnosing = false

namespace Language

open Matcher

variable {α : Type} {W : ClearWorld} {i j k : Nat}

/-- A statement's form that was read between `k` and `j`, where something shows. -/
def LaysForm (f : Feed) (k : Nat) (found : Option StmtForm) (j : Nat) : Prop :=
  Lays f k found j ∧ ∀ form, found = some form → f.Shows k j

/-- Rules match nodes that span the tokens that were read. -/
def matched (W : ClearWorld) : (r : Rule) → Nat → Option r.Node → Nat → Prop
  | .program, i, found, j => Lays W.toFeed i (α := Option Module) found j
  | .stmtList, i, found, j | .suite, i, found, j =>
    Lays W.toFeed i (α := Option (List Stmt)) found j
  | .smallStmt, i, found, j => Lays W.toFeed i (α := Option Stmt) found j
  | .elifBranch, i, found, j => LaysForm W.toFeed i found j
  | .fstringInside _, i, found, j => Lays W.toFeed i (α := Option (List FormatPart)) found j
  | .soleExpr, i, found, j | .exprOrSpread, i, found, j | .bindingExpr, i, found, j
  | .expr, i, found, j | .orExpr, i, found, j | .andExpr, i, found, j | .notExpr, i, found, j
  | .bitOrExpr, i, found, j | .bitXorExpr, i, found, j | .bitAndExpr, i, found, j
  | .shiftedExpr, i, found, j | .addExpr, i, found, j | .mulExpr, i, found, j
  | .signedExpr, i, found, j | .awaitExpr, i, found, j | .postfixExpr, i, found, j
  | .atomicExpr, i, found, j | .stringRun, i, found, j | .commandExpr, i, found, j
  | .targetItem, i, found, j => Lays W.toFeed i (α := Option Expr) found j

/-- What the matcher yields where it is run at `i` spans the tokens that it read. -/
abbrev Places (W : ClearWorld) [HasNodes α] (m : Match α) (i : Nat) : Prop :=
  Leads W.toWorld (matched W) m i (Lays W.toFeed i)

/-! ### Ways of matching -/

theorem attempt_leads {inner : Nat → Match (Option α)} {Q : Option α → Nat → Prop}
    (h : Leads W.toWorld (matched W) (inner i) i Q) (hnone : Q none i) :
    Leads W.toWorld (matched W) (attempt inner) i Q := by
  refine .mark (.bind (h.mono ?_))
  rintro (_ | a) j hfound
  · exact .reset hnone
  · exact hfound

variable [HasNodes α]

theorem giveUp_places {start : Nat} (hle : k ≤ start) :
    Leads W.toWorld (matched W) (giveUp start : Match (Option α)) i (Lays W.toFeed k) :=
  .reset (Lays.none hle)

theorem attempt_places {inner : Nat → Match (Option α)} (h : Places W (inner i) i) :
    Places W (attempt inner) i :=
  attempt_leads h (Lays.none (Nat.le_refl i))

theorem mapped_places {β : Type} [HasNodes β] {m : Match (Option α)} {g : α → β}
    (hm : Places W m i)
    (hg : ∀ a j, AllBetween W.toFeed i j (nodes a) → AllBetween W.toFeed i j (nodes (g a))) :
    Places W (do return (← m).map g) i := by
  refine .bind (hm.mono ?_)
  rintro (_ | a) j hlays
  · exact Lays.none hlays.1
  · exact Lays.some hlays.1 (hg a j hlays.of_some)

theorem node_places {start : Nat} {form : ExprForm} (hle : k ≤ start) (hshows : W.Shows start i)
    (h : AllBetween W.toFeed start i (nodes form)) :
    Leads W.toWorld (matched W) (node start form) i (Lays W.toFeed k) := by
  have hnode : (Node.expr ⟨form, W.spanSince start i⟩).Between W.toFeed start i :=
    .spanned W.whole hshows rfl h
  exact .spanSince (Lays.some (Nat.le_trans hle hshows.le)
    (.single (hnode.mono hle (Nat.le_refl i))))

theorem stmtNode_places {start : Nat} {form : StmtForm} (hle : k ≤ start)
    (hshows : W.Shows start i) (h : AllBetween W.toFeed start i (nodes form)) :
    Leads W.toWorld (matched W) (stmtNode start form) i (Lays W.toFeed k) := by
  have hnode : (Node.stmt ⟨form, W.spanSince start i⟩).Between W.toFeed start i :=
    .spanned W.whole hshows rfl h
  exact .spanSince (Lays.some (Nat.le_trans hle hshows.le)
    (.single (hnode.mono hle (Nat.le_refl i))))

instance : HasNodes Token where
  nodes _ := []

theorem ofKind_places {kind : TokenKind} : Places W (ofKind kind) i := by
  refine .peek fun t _ => ?_
  split
  · exact .next fun _ _ => Lays.some (Nat.le_succ i) .nil
  · exact Lays.none (Nat.le_refl i)

theorem oneOf_leads {β : Type} (table : List (String × β)) :
    Leads W.toWorld (matched W) (oneOf table) i fun found j =>
      i ≤ j ∧ (found.isSome → W.Shows i j) := by
  induction table with
  | nil => exact ⟨Nat.le_refl i, nofun⟩
  | cons entry others induction =>
    exact .accepts (fun hshows => ⟨Nat.le_succ i, fun _ => hshows⟩) induction

/-! ### Lists of expressions -/

theorem tupleOrSingle_places {item : Match (Option Expr)}
    (hitem : ∀ j, i ≤ j → Places W item j) : Places W (tupleOrSingle item) i := by
  refine .mark (LeadsIn.need (hitem i (Nat.le_refl i)) (Nat.le_refl i) rfl
    fun first j hj hfirst => ?_)
  have hshown {k : Nat} (hk : j ≤ k) : W.Shows i k := hfirst.shows.mono (Nat.le_refl i) hk
  refine .bind (.loop (fun state l => j ≤ l ∧ AllBetween W.toFeed i l (nodes state.1)) ?_ ?_)
  · exact ⟨Nat.le_refl j, by simpa using hfirst⟩
  · rintro ⟨items, isTuple⟩ l ⟨hl, hitems⟩
    refine .unlessAccepts ?_ fun _ => ?_
    · cases isTuple with
      | false => exact Lays.some (by omega) (hfirst.mono (Nat.le_refl i) hl)
      | true => exact node_places (Nat.le_refl i) (hshown hl) hitems
    · refine LeadsIn.andThen (hitem (l + 1) (by omega)) ?_ ?_
      · intro value m hm hvalue
        exact ⟨by omega, hitems.concat hvalue (by omega) (by omega)⟩
      · intro m hm
        exact node_places (Nat.le_refl i) (hshown (by omega))
          (hitems.mono (Nat.le_refl i) (by omega))

theorem spreadOr_places {plain : Match (Option Expr)} (hplain : Places W plain i) :
    Places W (spreadOr plain) i := by
  refine .mark (.ifAccepts (fun hshows => ?_) hplain)
  refine LeadsIn.andThen .rule ?_ fun j hj => giveUp_places (Nat.le_refl i)
  intro value j hj hvalue
  exact node_places (Nat.le_refl i) (hshows.mono (Nat.le_refl i) hj)
    (hvalue.mono (Nat.le_succ i) (Nat.le_refl j))

theorem bindingOrSpread_places : Places W bindingOrSpread i :=
  spreadOr_places .rule

theorem spreadTuple_places : Places W spreadTuple i :=
  tupleOrSingle_places fun _ _ => .rule

theorem bindingTuple_places : Places W bindingTuple i :=
  tupleOrSingle_places fun _ _ => bindingOrSpread_places

theorem exprTuple_places : Places W exprTuple i :=
  tupleOrSingle_places fun _ _ => .rule

theorem yielded_places : Places W yielded i := by
  refine .mark (.expect (Nat.le_refl i) fun hshows => .ifAccepts (fun _ => ?_) ?_)
  · refine LeadsIn.andThen .rule ?_ fun j hj => giveUp_places (Nat.le_refl i)
    intro value j hj hvalue
    exact node_places (Nat.le_refl i) (hshows.mono (Nat.le_refl i) (by omega))
      (hvalue.mono (by omega) (Nat.le_refl j))
  · refine .value spreadTuple_places fun value j hj hvalue => ?_
    exact node_places (Nat.le_refl i) (hshows.mono (Nat.le_refl i) hj)
      (hvalue.mono (Nat.le_succ i) (Nat.le_refl j))

theorem yieldOrTuple_places : Places W yieldOrTuple i := by
  exact LeadsIn.andThen yielded_places (fun value j hj hvalue => Lays.some hj hvalue)
    fun j hj => spreadTuple_places.after hj

/-! ### Targets -/

theorem restricted_places {admits : ExprForm → Bool} : Places W (restricted admits) i := by
  refine attempt_places (LeadsIn.need .rule (Nat.le_refl i) rfl fun target j hj htarget => ?_)
  dsimp only
  split
  case isTrue => exact Lays.some hj htarget
  case isFalse => exact Lays.none hj

theorem soleTarget_places : Places W soleTarget i :=
  restricted_places

theorem deletableTarget_places : Places W deletableTarget i :=
  restricted_places

theorem targetItemRule_places : Places W targetItemRule i := by
  refine .mark (.ifAccepts (fun hshows => ?_) restricted_places)
  refine LeadsIn.andThen .rule ?_ fun j hj => giveUp_places (Nat.le_refl i)
  intro inner j hj hinner
  exact node_places (Nat.le_refl i) (hshows.mono (Nat.le_refl i) hj)
    (hinner.mono (Nat.le_succ i) (Nat.le_refl j))

theorem targetTuple_places : Places W targetTuple i :=
  tupleOrSingle_places fun _ _ => .rule

/-! ### Comprehensions -/

theorem filterClause_places : Places W filterClause i := by
  refine .expect (Nat.le_refl i) fun _ => ?_
  have horExpr : Places W orExpr (i + 1) := .rule
  exact horExpr.after (Nat.le_succ i)

theorem forClause_places : Places W forClause i := by
  refine attempt_places (.acceptsOrNot fun isAsync j hj => .expect hj fun _ => ?_)
  refine LeadsIn.need targetTuple_places (by omega) rfl fun target k hk htarget => ?_
  refine .expect (by omega) fun _ => ?_
  refine LeadsIn.need .rule (by omega) rfl fun iter l hl hiter => ?_
  refine .value (.many fun _ _ => filterClause_places) fun ifs m hm hifs => ?_
  refine Lays.some (by omega) ?_
  exact (htarget.mono (by omega) (by omega)).append
    ((hiter.mono (by omega) hm).append (hifs.mono (by omega) (Nat.le_refl m)))

theorem forClauses_places : Places W forClauses i :=
  .many1 fun _ _ => forClause_places

theorem comprehension_places {closer : String} : Places W (comprehension closer) i := by
  refine LeadsIn.need .rule (Nat.le_refl i) rfl fun elt j hj helt => ?_
  refine LeadsIn.need forClauses_places hj rfl fun generators k hk hgenerators => ?_
  refine .expect (by omega) fun _ => Lays.some (by omega) ?_
  exact (helt.mono (Nat.le_refl i) (by omega)).append (hgenerators.mono hj (Nat.le_succ k))

theorem generator_places : Places W generator i := by
  refine attempt_places (.expect (Nat.le_refl i) fun hshows => ?_)
  refine LeadsIn.need comprehension_places (Nat.le_succ i) rfl fun found j hj hfound => ?_
  exact node_places (Nat.le_refl i) (hshows.mono (Nat.le_refl i) hj)
    (hfound.mono (Nat.le_succ i) (Nat.le_refl j))

/-! ### Groups and tuples -/

theorem group_places (hshows : W.Shows i (i + 1)) :
    Leads W.toWorld (matched W) (do
      reset i
      if let some value ← generator then return some value
      reset (i + 1)
      let some inner ← bindingTuple | return none
      if !(← accepts ")") then return none
      match inner.form with
      | .tuple items => node i (.tuple items)
      | _ => return some inner) j (Lays W.toFeed i) := by
  refine .reset (.andThen generator_places (fun value j hj hvalue => Lays.some hj hvalue) ?_)
  refine fun j hj => .reset (LeadsIn.need bindingTuple_places (Nat.le_succ i) rfl ?_)
  intro inner k hk hinner
  refine .expect (by omega) fun _ => ?_
  have hbelow : AllBetween W.toFeed (i + 1) k (nodes inner.form) := hinner.head.children
  split
  case h_1 items hform =>
    rw [hform] at hbelow
    exact node_places (Nat.le_refl i) (hshows.mono (Nat.le_refl i) (by omega))
      (hbelow.mono (Nat.le_succ i) (Nat.le_succ k))
  case h_2 => exact Lays.some (by omega) (hinner.mono (Nat.le_succ i) (Nat.le_succ k))

theorem parenthesized_places : Places W parenthesized i := by
  refine attempt_places (.expect (Nat.le_refl i) fun hshows => ?_)
  refine .ifAccepts (fun _ => ?_) (.mark ?_)
  · exact node_places (Nat.le_refl i) (hshows.mono (Nat.le_refl i) (Nat.le_succ _)) .nil
  · refine .andThen yielded_places ?_ fun j hj => group_places hshows
    intro value j hj hvalue
    refine .ifAccepts (fun _ => ?_) (group_places hshows)
    exact Lays.some (by omega) (hvalue.mono (by omega) (by omega))

/-! ### Lists, sets and dictionaries -/

theorem bracketItems_places : Places W bracketItems i := by
  refine .andThen (.separated fun _ _ => bindingOrSpread_places) ?_ fun j hj => ⟨hj, .nil⟩
  intro items j hj hitems
  exact .acceptsOrNot fun _ k hk => ⟨Nat.le_trans hj hk, hitems.mono (Nat.le_refl i) hk⟩

theorem squareBracketed_places : Places W squareBracketed i := by
  refine attempt_places (.expect (Nat.le_refl i) fun hshows => .mark ?_)
  refine .andThen comprehension_places ?_ fun j hj => .reset ?_
  · intro found j hj hfound
    exact node_places (Nat.le_refl i) (hshows.mono (Nat.le_refl i) hj)
      (hfound.mono (Nat.le_succ i) (Nat.le_refl j))
  · refine .value bracketItems_places fun items j hj hitems => ?_
    refine .expect (by omega) fun _ => ?_
    exact node_places (Nat.le_refl i) (hshows.mono (Nat.le_refl i) (by omega))
      (hitems.mono (Nat.le_succ i) (Nat.le_succ j))

theorem entry_places : Places W entry i := by
  refine attempt_places (LeadsIn.need .rule (Nat.le_refl i) rfl fun key j hj hkey => ?_)
  refine .expect hj fun _ => ?_
  refine LeadsIn.need .rule (by omega) rfl fun value k hk hvalue => Lays.some (by omega) ?_
  exact (hkey.mono (Nat.le_refl i) (by omega)).append (hvalue.mono (by omega) (Nat.le_refl k))

theorem entryOrSpread_places : Places W entryOrSpread i := by
  refine .mark (.ifAccepts (fun _ => ?_) ?_)
  · refine LeadsIn.andThen .rule ?_ fun j hj => giveUp_places (Nat.le_refl i)
    intro mapping j hj hmapping
    exact Lays.some (by omega) (hmapping.mono (Nat.le_succ i) (Nat.le_refl j))
  · refine .andThen entry_places ?_ fun j hj => Lays.none hj
    rintro ⟨key, value⟩ j hj hentry
    have hpair : AllBetween W.toFeed i j (nodes key ++ nodes value) := hentry
    refine Lays.some hj (AllBetween.append ?_ (AllBetween.append_iff.mp hpair).2)
    rw [nodes_some]
    exact (AllBetween.append_iff.mp hpair).1

theorem dictComprehension_places : Places W dictComprehension i := by
  refine LeadsIn.need entry_places (Nat.le_refl i) rfl fun pair j hj hpair => ?_
  refine LeadsIn.need forClauses_places hj rfl fun generators k hk hgenerators => ?_
  refine .expect (by omega) fun _ => Lays.some (by omega) ?_
  exact (hpair.mono (Nat.le_refl i) (by omega)).append (hgenerators.mono hj (Nat.le_succ k))

theorem dictEntries_places : Places W dictEntries i := by
  refine LeadsIn.need (.separated fun _ _ => entryOrSpread_places) (Nat.le_refl i) rfl ?_
  intro pairs j hj hpairs
  refine .acceptsOrNot fun _ k hk => .expect (by omega) fun _ => Lays.some (by omega) ?_
  exact hpairs.mono (Nat.le_refl i) (by omega)

theorem braced_places : Places W braced i := by
  refine attempt_places (.expect (Nat.le_refl i) fun hshows => ?_)
  have hshown {k : Nat} (hk : i + 1 ≤ k) : W.Shows i k := hshows.mono (Nat.le_refl i) hk
  refine .ifAccepts (fun _ => ?_) (.mark ?_)
  · exact node_places (Nat.le_refl i) (hshown (by omega)) .nil
  refine .andThen dictComprehension_places ?_ fun _ _ => .reset ?_
  · rintro ⟨⟨key, value⟩, generators⟩ j hj hfound
    have hparts : AllBetween W.toFeed (i + 1) j ((nodes key ++ nodes value) ++ nodes generators) :=
      hfound
    rw [List.append_assoc] at hparts
    exact node_places (Nat.le_refl i) (hshown hj) (hparts.mono (Nat.le_succ i) (Nat.le_refl j))
  refine .andThen comprehension_places ?_ fun _ _ => .reset ?_
  · intro found j hj hfound
    exact node_places (Nat.le_refl i) (hshown hj) (hfound.mono (Nat.le_succ i) (Nat.le_refl j))
  refine .andThen dictEntries_places ?_ fun _ _ => .reset ?_
  · intro pairs j hj hpairs
    refine node_places (Nat.le_refl i) (hshown hj) (AllBetween.append ?_ ?_)
    · intro n hn
      exact (hpairs n (mem_nodes_firsts hn)).mono (Nat.le_succ i) (Nat.le_refl j)
    · intro n hn
      exact (hpairs n (mem_nodes_seconds hn)).mono (Nat.le_succ i) (Nat.le_refl j)
  refine .diagnosis W.quiet (.value bracketItems_places fun items j hj hitems => ?_)
  split
  · exact Lays.none (by omega)
  · refine .expect (by omega) fun _ => ?_
    exact node_places (Nat.le_refl i) (hshown (by omega))
      (hitems.mono (Nat.le_succ i) (Nat.le_succ j))

end Language

end ShellSyntax
