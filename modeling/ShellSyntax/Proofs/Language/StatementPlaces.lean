import ShellSyntax.Language.Grammar
import ShellSyntax.Proofs.Language.ExpressionPlaces

/-! Statements, and so whole programs, span the tokens they were read from. -/

namespace ShellSyntax.Language

open Matcher

variable {α : Type} {W : ClearWorld} {i j k : Nat}

/-- The matcher yields forms of statements that show. -/
abbrev PlacesForm (W : ClearWorld) (m : Match (Option StmtForm)) (i : Nat) : Prop :=
  Leads W.toWorld (matched W) m i (LaysForm W.toFeed i)

namespace LaysForm

variable {f : Feed}

theorem none (h : k ≤ j) : LaysForm f k .none j :=
  ⟨Lays.none h, nofun⟩

theorem some {form : StmtForm} (hshows : f.Shows k j) (h : AllBetween f k j (nodes form)) :
    LaysForm f k (.some form) j :=
  ⟨Lays.some hshows.le h, fun _ _ => hshows⟩

theorem after {found : Option StmtForm} (h : LaysForm f i found j) (hle : k ≤ i) :
    LaysForm f k found j :=
  ⟨h.1.after hle, fun form hform => (h.2 form hform).mono hle (Nat.le_refl j)⟩

theorem behind {found : Option StmtForm} (hshows : f.Shows i (i + 1))
    (h : Lays f (i + 1) found j) : LaysForm f i found j :=
  ⟨h.after (Nat.le_succ i), fun _ _ => hshows.mono (Nat.le_refl i) h.1⟩

end LaysForm

theorem expect_form {keyword : String} {rest : Match (Option StmtForm)}
    (h : Places W rest (i + 1)) :
    PlacesForm W (do
      if !(← accepts keyword) then return none
      rest) i :=
  .unlessAccepts (.none (Nat.le_refl i)) fun hshows => h.mono fun _ _ => .behind hshows

theorem keyword_form {t : Token} {keyword : String} {rest : Match (Option StmtForm)}
    (ht : W.token i = .ok t) (hkind : t.kind = .name) (htext : t.text = keyword)
    (h : Places W rest (i + 1)) :
    PlacesForm W (do
      let _ ← accepts keyword
      rest) i :=
  .acceptsKnown ht hkind htext fun hshows => h.mono fun _ _ => .behind hshows

/-! ### Assignments -/

theorem annotatedAssignment_places : Places W annotatedAssignment i := by
  refine attempt_places (LeadsIn.need soleTarget_places (Nat.le_refl i) rfl ?_)
  intro target j hj htarget
  refine .expect hj fun _ => ?_
  refine LeadsIn.need .rule (by omega) rfl fun annotation k hk hannotated => ?_
  have hvalue : Places W (attempt fun _ => do
      if !(← accepts "=") then return none
      yieldOrTuple) k :=
    attempt_places (.expect (Nat.le_refl k) fun _ => yieldOrTuple_places.after (Nat.le_succ k))
  refine .value hvalue fun value l hl hvalue => ?_
  have htarget' : AllBetween W.toFeed i l (nodes target) :=
    htarget.mono (Nat.le_refl i) (by omega)
  refine stmtNode_places (Nat.le_refl i) htarget'.shows (htarget'.append ?_)
  exact (hannotated.mono (by omega) hl).append (hvalue.mono (by omega) (Nat.le_refl l))

theorem assignmentTarget_places : Places W assignmentTarget i := by
  refine attempt_places (LeadsIn.need targetTuple_places (Nat.le_refl i) rfl ?_)
  intro target j hj htarget
  exact .expect hj fun _ => Lays.some (by omega) (htarget.mono (Nat.le_refl i) (Nat.le_succ j))

theorem plainAssignment_places : Places W plainAssignment i := by
  refine attempt_places ?_
  refine LeadsIn.need (.many1 fun _ _ => assignmentTarget_places) (Nat.le_refl i) rfl ?_
  intro targets j hj htargets
  refine LeadsIn.need yieldOrTuple_places hj rfl fun value k hk hvalue => .lookahead fun found => ?_
  have hvalue' : AllBetween W.toFeed i k (nodes value) := hvalue.mono hj (Nat.le_refl k)
  split
  · exact Lays.none (by omega)
  · exact stmtNode_places (Nat.le_refl i) hvalue'.shows
      ((htargets.mono (Nat.le_refl i) hk).append hvalue')

theorem augmentedOperator_leads :
    Leads W.toWorld (matched W) augmentedOperator i fun _ j => i ≤ j := by
  refine .peek fun t _ => ?_
  split
  · exact Nat.le_refl i
  · split
    · exact Nat.le_refl i
    · exact .next fun _ _ => Nat.le_succ i

theorem augmentedAssignment_places : Places W augmentedAssignment i := by
  refine attempt_places (LeadsIn.need soleTarget_places (Nat.le_refl i) rfl ?_)
  intro target j hj htarget
  refine .bind (augmentedOperator_leads.mono ?_)
  rintro (_ | op) k hk
  · exact Lays.none (by omega)
  · refine LeadsIn.need yieldOrTuple_places (by omega) rfl fun value l hl hvalue => ?_
    have htarget' : AllBetween W.toFeed i l (nodes target) :=
      htarget.mono (Nat.le_refl i) (by omega)
    exact stmtNode_places (Nat.le_refl i) htarget'.shows
      (htarget'.append (hvalue.mono (by omega) (Nat.le_refl l)))

theorem assignment_places : Places W assignment i := by
  refine .andThen annotatedAssignment_places (fun stmt j hj hstmt => Lays.some hj hstmt) ?_
  refine fun j hj => .andThen plainAssignment_places (fun stmt k hk hstmt => ?_) ?_
  · exact Lays.some (by omega) (hstmt.mono hj (Nat.le_refl k))
  · exact fun k hk => augmentedAssignment_places.after (by omega)

/-! ### Imports -/

theorem identifier_places : Places W identifier i :=
  .name (fun _ _ _ => Lays.some (Nat.le_succ i) .nil) (Lays.none (Nat.le_refl i))

theorem modulePath_places : Places W modulePath i :=
  mapped_places (.separated fun _ _ => identifier_places) fun _ _ _ => .nil

theorem aliased_places {id : Match (Option String)} (hid : Places W id i) :
    Places W (aliased id) i := by
  refine attempt_places (LeadsIn.need hid (Nat.le_refl i) rfl fun imported j hj _ => ?_)
  refine .unlessAccepts (Lays.some hj .nil) fun _ => ?_
  exact LeadsIn.need identifier_places (by omega) rfl fun asname k hk _ => Lays.some (by omega) .nil

theorem leadingDots_leads : Leads W.toWorld (matched W) leadingDots i fun _ j => i ≤ j := by
  refine .value (.many fun j _ => ?_) fun dots j hj _ => hj
  refine (oneOf_leads _).mono ?_
  rintro (_ | count) k ⟨hk, _⟩
  · exact Lays.none hk
  · exact Lays.some hk .nil

theorem importTargets_places : Places W importTargets i := by
  refine attempt_places (.ifAccepts (fun _ => Lays.some (by omega) .nil) ?_)
  refine .acceptsOrNot fun parenthesized j hj => ?_
  refine LeadsIn.need (.separated fun _ _ => aliased_places identifier_places) hj rfl ?_
  intro names k hk hnames
  have hdone {l : Nat} (hl : k ≤ l) : Lays W.toFeed i (some names) l :=
    Lays.some (by omega) (hnames.mono hj hl)
  cases parenthesized with
  | true =>
    refine .acceptsOrNot fun _ l hl => .expect (by omega) fun _ => ?_
    exact hdone (by omega)
  | false =>
    refine .lookahead fun found => ?_
    split
    · exact Lays.none (by omega)
    · exact hdone (Nat.le_refl k)

variable {t : Token}

theorem plainImport_places (ht : W.token i = .ok t) (hkind : t.kind = .name)
    (htext : t.text = "import") : PlacesForm W plainImport i := by
  refine keyword_form ht hkind htext (mapped_places (.separated fun _ _ => ?_) fun _ _ _ => .nil)
  exact aliased_places modulePath_places

theorem fromImport_places (ht : W.token i = .ok t) (hkind : t.kind = .name)
    (htext : t.text = "from") : PlacesForm W fromImport i := by
  refine keyword_form ht hkind htext (.bind (leadingDots_leads.mono fun level j hj => ?_))
  refine .value modulePath_places fun path k hk _ => ?_
  split
  · exact Lays.none (by omega)
  · refine .expect (by omega) fun _ => ?_
    exact LeadsIn.need importTargets_places (by omega) rfl fun _ l hl _ => Lays.some (by omega) .nil

/-! ### Statements of one keyword -/

theorem optionalExpression_places {separator : String} :
    Places W (optionalExpression separator) i := by
  refine attempt_places (.expect (Nat.le_refl i) fun _ => ?_)
  have hexpr : Places W expr (i + 1) := .rule
  exact hexpr.after (Nat.le_succ i)

theorem raising_places (ht : W.token i = .ok t) (hkind : t.kind = .name)
    (htext : t.text = "raise") : PlacesForm W raising i := by
  refine keyword_form ht hkind htext (LeadsIn.andThen .rule ?_ fun j hj => Lays.some hj .nil)
  intro exc j hj hexc
  refine .value optionalExpression_places fun cause k hk hcause => Lays.some (by omega) ?_
  refine AllBetween.append ?_ (hcause.mono hj (Nat.le_refl k))
  rw [nodes_some]
  exact hexc.mono (Nat.le_refl _) hk

theorem deletion_places (ht : W.token i = .ok t) (hkind : t.kind = .name)
    (htext : t.text = "del") : PlacesForm W deletion i := by
  refine keyword_form ht hkind htext ?_
  refine LeadsIn.need (.separated fun _ _ => deletableTarget_places) (Nat.le_refl _) rfl ?_
  intro targets j hj htargets
  refine .acceptsOrNot fun _ k hk => .peek fun _ _ => ?_
  split
  · exact Lays.some (by omega) (htargets.mono (Nat.le_refl _) hk)
  · exact Lays.none (by omega)

theorem assertion_places (ht : W.token i = .ok t) (hkind : t.kind = .name)
    (htext : t.text = "assert") : PlacesForm W assertion i := by
  refine keyword_form ht hkind htext (LeadsIn.need .rule (Nat.le_refl _) rfl ?_)
  intro test j hj htest
  refine .value optionalExpression_places fun msg k hk hmsg => Lays.some (by omega) ?_
  exact (htest.mono (Nat.le_refl _) hk).append (hmsg.mono hj (Nat.le_refl k))

theorem keywordStatement_places (ht : W.token i = .ok t) (hkind : t.kind = .name) :
    PlacesForm W (keywordStatement t.text) i := by
  have hshows : W.Shows i (i + 1) := Feed.shows_token ht (by rw [hkind]; rfl)
  have hscope : PlacesForm W scopeDeclaration i := by
    refine .next fun _ _ => LeadsIn.mono ?_ fun _ _ => LaysForm.behind hshows
    refine LeadsIn.need (.separated fun _ _ => identifier_places) (Nat.le_refl _) rfl ?_
    refine fun names j hj _ => Lays.some hj ?_
    split
    · exact .nil
    · exact .nil
  unfold keywordStatement
  split
  case h_1 => exact .next fun _ _ => .some hshows .nil
  case h_2 => exact .next fun _ _ => .some hshows .nil
  case h_3 => exact .next fun _ _ => .some hshows .nil
  case h_4 =>
    refine .next fun _ _ => .value spreadTuple_places fun value j hj hvalue => ?_
    exact .some (hshows.mono (Nat.le_refl i) hj) (hvalue.mono (Nat.le_succ i) (Nat.le_refl j))
  case h_5 =>
    refine .andThen yielded_places (fun value j hj hvalue => ?_) fun j hj => .none hj
    exact .some hvalue.shows hvalue
  case h_6 htext => exact plainImport_places ht hkind htext
  case h_7 htext => exact fromImport_places ht hkind htext
  case h_8 htext => exact raising_places ht hkind htext
  case h_9 htext => exact deletion_places ht hkind htext
  case h_10 htext => exact assertion_places ht hkind htext
  case h_11 => exact hscope
  case h_12 => exact hscope
  case h_13 => exact .none (Nat.le_refl i)

theorem stmtOfForm_places {m : Match (Option StmtForm)}
    {next : Option StmtForm → Match (Option Stmt)} (hle : k ≤ i) (hm : PlacesForm W m i)
    (hnone : next none = pure none) (hsome : ∀ form, next (some form) = stmtNode k form) :
    Leads W.toWorld (matched W) (m >>= next) i (Lays W.toFeed k) := by
  refine .bind (hm.mono ?_)
  rintro (_ | form) j hform
  · rw [hnone]
    exact (Lays.none hform.1.1).after hle
  · rw [hsome]
    exact stmtNode_places (Nat.le_refl k) ((hform.2 form rfl).mono hle (Nat.le_refl j))
      (hform.1.of_some.mono hle (Nat.le_refl j))

theorem smallStmtRule_places : Places W smallStmtRule i := by
  refine attempt_places (.diagnosis W.quiet ?_)
  refine .andThen assignment_places (fun stmt j hj hstmt => Lays.some hj hstmt) fun j hj => ?_
  refine .andThen spreadTuple_places ?_ fun k hk => .peek fun t ht => ?_
  · intro value k hk hvalue
    have hvalue' : AllBetween W.toFeed i k (nodes value) := hvalue.mono hj (Nat.le_refl k)
    exact stmtNode_places (Nat.le_refl i) hvalue'.shows hvalue'
  · split
    case isTrue => exact Lays.none (by omega)
    case isFalse hkind =>
      rw [Bool.not_eq_true, bne_eq_false_iff_eq] at hkind
      exact stmtOfForm_places (by omega) (keywordStatement_places ht hkind) rfl fun _ => rfl

theorem stmtLine_places : Places W stmtLine i := by
  refine attempt_places (LeadsIn.need (.separated fun _ _ => .rule) (Nat.le_refl i) rfl ?_)
  intro stmts j hj hstmts
  refine .acceptsOrNot fun _ k hk => .expectKind (by omega) (Lays.some (by omega) ?_)
  exact hstmts.mono (Nat.le_refl i) (by omega)

/-! ### Blocks -/

theorem indentedSuite_places : Places W indentedSuite i := by
  refine attempt_places (.expectKind (Nat.le_refl i) (.expectKind (by omega) ?_))
  refine LeadsIn.need .rule (by omega) rfl fun body j hj hbody => .expectKind (by omega) ?_
  exact Lays.some (by omega) (hbody.mono (by omega) (Nat.le_succ j))

theorem suiteRule_places : Places W suiteRule i := by
  refine .andThen indentedSuite_places (fun body j hj hbody => Lays.some hj hbody) fun j hj => ?_
  refine .andThen stmtLine_places ?_ fun k hk => .diagnosis W.quiet (Lays.none (by omega))
  exact fun body k hk hbody => Lays.some (by omega) (hbody.mono hj (Nat.le_refl k))

theorem colonSuite_places : Places W colonSuite i := by
  refine attempt_places (.expect (Nat.le_refl i) fun _ => ?_)
  have hsuite : Places W suite (i + 1) := .rule
  exact hsuite.after (Nat.le_succ i)

theorem elseSuite_places : Places W elseSuite i := by
  have hbody : Places W (attempt fun _ => do
      if !(← accepts "else") then return none
      colonSuite) i :=
    attempt_places (.expect (Nat.le_refl i) fun _ => colonSuite_places.after (Nat.le_succ i))
  refine .andThen hbody (fun body j hj hbody => ⟨hj, hbody⟩) fun j hj => ⟨hj, .nil⟩

/-! ### Branches and loops -/

theorem branch_places {keyword : String} : PlacesForm W (branch keyword) i := by
  refine expect_form (LeadsIn.need .rule (Nat.le_refl _) rfl fun test j hj htest => ?_)
  refine LeadsIn.need colonSuite_places hj rfl fun body k hk hbody => .peek fun _ _ => ?_
  have hbefore {l : Nat} (hl : k ≤ l) {rest : List Node} (hrest : AllBetween W.toFeed k l rest) :
      AllBetween W.toFeed (i + 1) l (nodes test ++ (nodes body ++ rest)) :=
    (htest.mono (Nat.le_refl _) (by omega)).append
      ((hbody.mono hj hl).append (hrest.mono (by omega) (Nat.le_refl l)))
  split
  · have helif : Leads W.toWorld (matched W) elifBranch k (LaysForm W.toFeed k) := LeadsIn.rule
    refine .mark (.bind (helif.mono ?_))
    rintro (_ | form) l ⟨hlays, hshown⟩
    · exact (Lays.none hlays.1).after (by omega)
    · have hnested : (Node.stmt ⟨form, W.spanSince k l⟩).Between W.toFeed k l :=
        .spanned W.whole (hshown form rfl) rfl hlays.of_some
      have hl : k ≤ l := hlays.1
      exact .spanSince (Lays.some (by omega) (hbefore hl (.single hnested)))
  · refine .value elseSuite_places fun orelse l hl horelse => Lays.some (by omega) ?_
    exact hbefore hl horelse

theorem whileLoop_places (ht : W.token i = .ok t) (hkind : t.kind = .name)
    (htext : t.text = "while") : PlacesForm W whileLoop i := by
  refine keyword_form ht hkind htext (LeadsIn.need .rule (Nat.le_refl _) rfl ?_)
  intro test j hj htest
  refine LeadsIn.need colonSuite_places hj rfl fun body k hk hbody => ?_
  refine .value elseSuite_places fun orelse l hl horelse => Lays.some (by omega) ?_
  exact (htest.mono (Nat.le_refl _) (by omega)).append
    ((hbody.mono hj hl).append (horelse.mono (by omega) (Nat.le_refl l)))

theorem forLoop_places {isAsync : Bool} : PlacesForm W (forLoop isAsync) i := by
  refine expect_form (LeadsIn.need targetTuple_places (Nat.le_refl _) rfl ?_)
  intro target j hj htarget
  refine .expect hj fun _ => ?_
  refine LeadsIn.need spreadTuple_places (by omega) rfl fun iter k hk hiter => ?_
  refine LeadsIn.need colonSuite_places (by omega) rfl fun body l hl hbody => ?_
  refine .value elseSuite_places fun orelse m hm horelse => Lays.some (by omega) ?_
  exact (htarget.mono (Nat.le_refl _) (by omega)).append
    ((hiter.mono (by omega) (by omega)).append
      ((hbody.mono (by omega) hm).append (horelse.mono (by omega) (Nat.le_refl m))))

/-! ### Contexts -/

theorem contextTarget_places : Places W contextTarget i := by
  refine attempt_places (.expect (Nat.le_refl i) fun _ => ?_)
  refine LeadsIn.need .rule (by omega) rfl fun target j hj htarget => .peek fun _ _ => ?_
  split
  · exact Lays.some (by omega) (htarget.mono (Nat.le_succ i) (Nat.le_refl j))
  · exact Lays.none (by omega)

theorem contextItem_places : Places W contextItem i := by
  refine LeadsIn.need .rule (Nat.le_refl i) rfl fun context j hj hcontext => ?_
  refine .value contextTarget_places fun target k hk htarget => Lays.some (by omega) ?_
  exact (hcontext.mono (Nat.le_refl i) hk).append (htarget.mono hj (Nat.le_refl k))

theorem contextItems_places : Places W (separated "," contextItem) i :=
  .separated fun _ _ => contextItem_places

theorem rawWith_places : Places W rawWith i := by
  refine .diagnosis W.quiet (LeadsIn.need contextItems_places (Nat.le_refl i) rfl ?_)
  intro items j hj hitems
  refine .expect hj fun _ => .ofKind (fun _ _ _ => Lays.some (by omega) ?_) (Lays.none (by omega))
  exact hitems.mono (Nat.le_refl i) (by omega)

theorem parenthesizedContexts_places : Places W parenthesizedContexts i := by
  refine attempt_places (.expect (Nat.le_refl i) fun _ => ?_)
  refine LeadsIn.need contextItems_places (by omega) rfl fun items j hj hitems => ?_
  refine .acceptsOrNot fun _ k hk => .expect (by omega) fun _ => ?_
  refine LeadsIn.need colonSuite_places (by omega) rfl fun body l hl hbody => ?_
  refine Lays.some (by omega) ?_
  exact (hitems.mono (by omega) (by omega)).append (hbody.mono (by omega) (Nat.le_refl l))

theorem contexts_places {isAsync : Bool} : Places W (do
    if let some (items, body) ← parenthesizedContexts then
      return some (StmtForm.with items body isAsync)
    let some items ← separated "," contextItem | return none
    let some body ← colonSuite | return none
    return some (.with items body isAsync)) i := by
  refine .andThen parenthesizedContexts_places (fun found j hj hfound => ?_) fun j hj => ?_
  · exact Lays.some hj hfound
  · refine LeadsIn.need contextItems_places hj rfl fun items k hk hitems => ?_
    refine LeadsIn.need colonSuite_places (by omega) rfl fun body l hl hbody => ?_
    exact Lays.some (by omega) ((hitems.mono hj hl).append (hbody.mono (by omega) (Nat.le_refl l)))

theorem contextStmt_places {isAsync : Bool} : PlacesForm W (contextStmt isAsync) i := by
  refine expect_form ?_
  cases isAsync with
  | true => exact contexts_places
  | false => exact .ifAccepts (fun _ => rawWith_places.after (by omega)) contexts_places

/-! ### Exceptions -/

theorem handlerBody_places {exception : Option Expr} {id : Option String} (hj : i ≤ j)
    (hshows : W.Shows i j) (hexception : AllBetween W.toFeed i j (nodes exception)) :
    Leads W.toWorld (matched W) (do
      let some body ← colonSuite | return none
      return some ⟨exception, id, body, ← spanSince i⟩ : Match (Option Handler)) j
      (Lays W.toFeed i) := by
  refine LeadsIn.need colonSuite_places hj rfl fun body k hk hbody => .spanSince ?_
  refine Lays.some (by omega) (.single (.spanned W.whole ?_ rfl ?_))
  · exact hshows.mono (Nat.le_refl i) hk
  · exact (hexception.mono (Nat.le_refl i) hk).append (hbody.mono hj (Nat.le_refl k))

theorem exceptHandler_places : Places W exceptHandler i := by
  refine attempt_places (.expect (Nat.le_refl i) fun hshows => ?_)
  refine LeadsIn.value .rule fun exception j hj hexception => ?_
  have hbody {id : Option String} {k : Nat} (hk : j ≤ k) :
      Leads W.toWorld (matched W) (do
        let some body ← colonSuite | return none
        return some ⟨exception, id, body, ← spanSince i⟩ : Match (Option Handler)) k
        (Lays W.toFeed i) :=
    handlerBody_places (by omega) (hshows.mono (Nat.le_refl i) (by omega))
      (hexception.mono (Nat.le_succ i) hk)
  cases exception with
  | none => exact hbody (Nat.le_refl j)
  | some value =>
    refine .ifAccepts (fun _ => ?_) (hbody (Nat.le_refl j))
    exact LeadsIn.need identifier_places (by omega) rfl fun text k hk _ => hbody (by omega)

theorem tryEnd_places {body orelse finalbody : List Stmt} {handlers : List Handler} (hj : i ≤ j)
    (hform : AllBetween W.toFeed i j (nodes (StmtForm.try body handlers orelse finalbody))) :
    Leads W.toWorld (matched W) (do
      if handlers.isEmpty && finalbody.isEmpty then return none
      return some (.try body handlers orelse finalbody) : Match (Option StmtForm)) j
      (Lays W.toFeed i) := by
  split
  · exact Lays.none hj
  · exact Lays.some hj hform

theorem finally_places {body orelse : List Stmt} {handlers : List Handler} (hj : i ≤ j)
    (hbody : AllBetween W.toFeed i j (nodes body))
    (hhandlers : AllBetween W.toFeed i j (nodes handlers))
    (horelse : AllBetween W.toFeed i j (nodes orelse)) :
    Leads W.toWorld (matched W) (do
      let mut finalbody := []
      if ← accepts "finally" then
        let some stmts ← colonSuite | return none
        finalbody := stmts
      if handlers.isEmpty && finalbody.isEmpty then return none
      return some (StmtForm.try body handlers orelse finalbody)) j (Lays W.toFeed i) := by
  refine .ifAccepts (fun _ => ?_) (tryEnd_places hj ?_)
  · refine LeadsIn.need colonSuite_places (by omega) rfl fun stmts k hk hstmts => ?_
    refine tryEnd_places (by omega) ((hbody.mono (Nat.le_refl i) (by omega)).append ?_)
    exact (hhandlers.mono (Nat.le_refl i) (by omega)).append
      ((horelse.mono (Nat.le_refl i) (by omega)).append (hstmts.mono (by omega) (Nat.le_refl k)))
  · exact hbody.append (hhandlers.append (horelse.append .nil))

theorem tryForm_places (ht : W.token i = .ok t) (hkind : t.kind = .name)
    (htext : t.text = "try") : PlacesForm W tryForm i := by
  refine keyword_form ht hkind htext (LeadsIn.need colonSuite_places (Nat.le_refl _) rfl ?_)
  intro body j hj hbody
  refine .value (.many fun _ _ => exceptHandler_places) fun handlers k hk hhandlers => ?_
  have hbody' {l : Nat} (hl : k ≤ l) : AllBetween W.toFeed (i + 1) l (nodes body) :=
    hbody.mono (Nat.le_refl _) (by omega)
  have hhandlers' {l : Nat} (hl : k ≤ l) : AllBetween W.toFeed (i + 1) l (nodes handlers) :=
    hhandlers.mono hj hl
  split
  · exact finally_places (by omega) (hbody' (Nat.le_refl k)) (hhandlers' (Nat.le_refl k)) .nil
  · refine .value elseSuite_places fun orelse l hl horelse => ?_
    exact finally_places (by omega) (hbody' hl) (hhandlers' hl)
      (horelse.mono (by omega) (Nat.le_refl l))

/-! ### Definitions -/

theorem returnAnnotation_places : Places W returnAnnotation i := by
  refine .unlessAccepts (Lays.some (Nat.le_refl i) .nil) fun _ => ?_
  refine LeadsIn.need .rule (Nat.le_succ i) rfl fun value j hj hvalue => Lays.some (by omega) ?_
  rw [nodes_some]
  exact hvalue.mono (Nat.le_succ i) (Nat.le_refl j)

theorem functionDefinition_places {decorators : List Expr} {isAsync : Bool} (hk : k ≤ i)
    (hdecorators : AllBetween W.toFeed k i (nodes decorators)) :
    Leads W.toWorld (matched W) (functionDefinition decorators isAsync) i
      (LaysForm W.toFeed k) := by
  refine .unlessAccepts (.none hk) fun hshows => ?_
  refine .andThen identifier_places (fun id j hj _ => ?_) fun j hj => .none (by omega)
  refine .unlessAccepts (.none (by omega)) fun _ => ?_
  refine .andThen parameterList_places (fun args l hl hargs => ?_) fun l hl => .none (by omega)
  refine .unlessAccepts (.none (by omega)) fun _ => ?_
  refine .andThen returnAnnotation_places (fun returns m hm hreturns => ?_)
    fun m hm => .none (by omega)
  refine .andThen colonSuite_places (fun body n hn hbody => ?_) fun n hn => .none (by omega)
  refine .some (hshows.mono hk (by omega)) ((hargs.mono (by omega) (by omega)).append ?_)
  exact (hbody.mono (by omega) (Nat.le_refl n)).append
    ((hdecorators.mono (Nat.le_refl k) (by omega)).append (hreturns.mono (by omega) hn))

theorem classArguments_places : Places W classArguments i := by
  refine .unlessAccepts (Lays.some (Nat.le_refl i) .nil) fun _ => ?_
  refine LeadsIn.need argumentList_places (Nat.le_succ i) rfl fun arguments j hj harguments => ?_
  refine .expect (by omega) fun _ => Lays.some (by omega) ?_
  exact harguments.mono (Nat.le_succ i) (Nat.le_succ j)

theorem classDefinition_places {decorators : List Expr} (hk : k ≤ i)
    (hdecorators : AllBetween W.toFeed k i (nodes decorators)) :
    Leads W.toWorld (matched W) (classDefinition decorators) i (LaysForm W.toFeed k) := by
  refine .unlessAccepts (.none hk) fun hshows => ?_
  refine .andThen identifier_places (fun id j hj _ => ?_) fun j hj => .none (by omega)
  refine .andThen classArguments_places ?_ fun l hl => .none (by omega)
  rintro ⟨bases, keywords⟩ l hl harguments
  refine .andThen colonSuite_places (fun body m hm hbody => ?_) fun m hm => .none (by omega)
  have hparts : AllBetween W.toFeed j l (nodes bases ++ nodes keywords) := harguments
  rw [AllBetween.append_iff] at hparts
  refine .some (hshows.mono hk (by omega)) ((hparts.1.mono (by omega) hm).append ?_)
  exact (hparts.2.mono (by omega) hm).append
    ((hbody.mono (by omega) (Nat.le_refl m)).append (hdecorators.mono (Nat.le_refl k) (by omega)))

theorem decorator_places : Places W decorator i := by
  refine attempt_places (.expect (Nat.le_refl i) fun _ => ?_)
  refine LeadsIn.need .rule (by omega) rfl fun value j hj hvalue => .expectKind (by omega) ?_
  exact Lays.some (by omega) (hvalue.mono (Nat.le_succ i) (Nat.le_succ j))

theorem decoratedDefinition_places : PlacesForm W decoratedDefinition i := by
  refine .andThen (.many1 fun _ _ => decorator_places) ?_ fun j hj => .none hj
  intro decorators j hj hdecorators
  refine .peek fun _ _ => ?_
  split
  · exact functionDefinition_places hj hdecorators
  · exact classDefinition_places hj hdecorators
  · refine .next fun _ _ => functionDefinition_places (by omega) ?_
    exact hdecorators.mono (Nat.le_refl i) (Nat.le_succ j)
  · exact .none hj

theorem asyncForm_places : PlacesForm W asyncForm i := by
  refine .acceptsOrNot fun _ j hj => .peek fun _ _ => ?_
  split
  · exact functionDefinition_places hj .nil
  · exact forLoop_places.mono fun _ _ hform => hform.after hj
  · exact contextStmt_places.mono fun _ _ hform => hform.after hj
  · exact .none hj

/-! ### Statements -/

theorem blockStmt_places : Places W blockStmt i := by
  have hplaced {m : Match (Option StmtForm)} {next : Option StmtForm → Match (Option Stmt)}
      (hm : PlacesForm W m i) (hnone : next none = pure none)
      (hsome : ∀ form, next (some form) = stmtNode i form) : Places W (m >>= next) i :=
    stmtOfForm_places (Nat.le_refl i) hm hnone hsome
  refine attempt_places (.peek fun t ht => ?_)
  dsimp only
  split
  case h_1 => exact hplaced decoratedDefinition_places rfl fun _ => rfl
  case h_2 => exact hplaced (functionDefinition_places (Nat.le_refl i) .nil) rfl fun _ => rfl
  case h_3 => exact hplaced (classDefinition_places (Nat.le_refl i) .nil) rfl fun _ => rfl
  case h_4 => exact hplaced branch_places rfl fun _ => rfl
  case h_5 hkind htext => exact hplaced (whileLoop_places ht hkind htext) rfl fun _ => rfl
  case h_6 => exact hplaced forLoop_places rfl fun _ => rfl
  case h_7 => exact hplaced contextStmt_places rfl fun _ => rfl
  case h_8 hkind htext => exact hplaced (tryForm_places ht hkind htext) rfl fun _ => rfl
  case h_9 => exact hplaced asyncForm_places rfl fun _ => rfl
  case h_10 => exact Lays.none (Nat.le_refl i)

theorem stmtOrLine_places : Places W stmtOrLine i := by
  refine .andThen blockStmt_places (fun stmt j hj hstmt => Lays.some hj ?_) fun j hj => ?_
  · rwa [nodes_cons, nodes_nil, List.append_nil]
  · exact stmtLine_places.after hj

theorem stmtListRule_places : Places W stmtListRule i := by
  refine mapped_places (.many1 fun _ _ => stmtOrLine_places) fun lines j hlines => ?_
  rwa [nodes_flatten]

theorem programRule_places : Places W programRule i := by
  refine LeadsIn.value .rule fun body j hj hbody => .expectKind hj (Lays.some (by omega) ?_)
  cases body with
  | none => exact .nil
  | some body =>
    rw [nodes_some] at hbody
    exact hbody.mono (Nat.le_refl i) (Nat.le_succ j)

theorem soleExprRule_places : Places W soleExprRule i := by
  refine LeadsIn.need exprTuple_places (Nat.le_refl i) rfl fun value j hj hvalue => ?_
  refine .value (.many fun _ _ => ofKind_places) fun _ k hk _ => .expectKind (by omega) ?_
  exact Lays.some (by omega) (hvalue.mono (Nat.le_refl i) (by omega))

/-! ### The grammar -/

theorem body_places (W : ClearWorld) (r : Rule) (i : Nat) :
    Leads W.toWorld (matched W) (body r) i (matched W r i) := by
  cases r with
  | program => exact programRule_places
  | soleExpr => exact soleExprRule_places
  | stmtList => exact stmtListRule_places
  | smallStmt => exact smallStmtRule_places
  | suite => exact suiteRule_places
  | elifBranch => exact branch_places
  | exprOrSpread => exact spreadOr_places .rule
  | bindingExpr => exact bindingExprRule_places
  | expr => exact exprRule_places
  | orExpr => exact boolOperands_places fun _ _ => .rule
  | andExpr => exact boolOperands_places fun _ _ => .rule
  | notExpr => exact notExprRule_places
  | bitOrExpr | bitXorExpr | bitAndExpr | shiftedExpr | addExpr | mulExpr =>
    exact leftAssoc_places .rule fun _ _ => .rule
  | signedExpr => exact signedExprRule_places
  | awaitExpr => exact awaitExprRule_places
  | postfixExpr => exact postfixExprRule_places
  | atomicExpr => exact atomicExprRule_places
  | stringRun => exact stringRunRule_places
  | commandExpr => exact commandExprRule_places
  | targetItem => exact targetItemRule_places
  | fstringInside raw => exact fstringInsideRule_places

theorem grammar_leads (W : ClearWorld) : grammar.Leads W.toWorld (matched W) where
  none := by
    intro r i
    cases r with
    | elifBranch => exact .none (Nat.le_refl i)
    | _ => exact Lays.none (Nat.le_refl i)
  body := body_places W

end ShellSyntax.Language
