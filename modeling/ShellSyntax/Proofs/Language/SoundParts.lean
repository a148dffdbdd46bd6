import ShellSyntax.Language.Display
import ShellSyntax.Proofs.Parser.Yields
import ShellSyntax.Proofs.Tree.Sound

/-!
The ways of writing matchers, lists of expressions and what stands in brackets yield sound nodes.
Targets are read as plain expressions and then checked; tuples of such stay targets. Loops of
comprehensions and items between commas are one or more.
-/

namespace ShellSyntax.Language

open Matcher

variable {α β : Type}

structure SoundForm (form : StmtForm) : Prop where
  binds : form.BindsTargets
  shaped : form.WellShaped
  below : AllSound (nodes form)

/-- Sound statements, at least one. -/
def SoundBody (body : List Stmt) : Prop :=
  body ≠ [] ∧ AllSound (nodes body)

def SoundTarget (e : Expr) : Prop :=
  AllSound (nodes e) ∧ e.isTarget

/-- What rules match is sound, the rule for targets matches a target, and the inside of an f-string
is tidy. -/
def harvest : Harvest rules
  | .program, tree => AllSound (nodes (α := Module) tree)
  | .stmtList, body | .suite, body => SoundBody body
  | .smallStmt, stmt => AllSound (nodes (α := Stmt) stmt)
  | .elifBranch, form => SoundForm form
  | .fstringInside _, parts => Tidy parts ∧ AllSound (nodes (α := List FormatPart) parts)
  | .targetItem, target => SoundTarget target
  | .soleExpr, e | .exprOrSpread, e | .bindingExpr, e | .expr, e | .orExpr, e | .andExpr, e
  | .notExpr, e | .bitOrExpr, e | .bitXorExpr, e | .bitAndExpr, e | .shiftedExpr, e | .addExpr, e
  | .mulExpr, e | .signedExpr, e | .awaitExpr, e | .postfixExpr, e | .atomicExpr, e
  | .stringRun, e | .commandExpr, e => AllSound (nodes (α := Expr) e)

/-- The matcher yields a value whose nodes are sound. -/
def Sound [HasNodes α] (m : Match (Option α)) : Prop :=
  Offers harvest m fun a => AllSound (nodes a)

/-! ### Ways of matching -/

theorem giveUp_offers {start : Nat} {P : α → Prop} : Offers harvest (giveUp start) P :=
  .skip fun _ => .none

theorem attempt_offers {inner : Nat → Match (Option α)} {P : α → Prop}
    (h : ∀ start, Offers harvest (inner start) P) : Offers harvest (attempt inner) P :=
  .skip fun start => .option (h start) (fun _ ha => .some ha) giveUp_offers

theorem mapped_offers {m : Match (Option α)} {g : α → β} {P : α → Prop} {Q : β → Prop}
    (hm : Offers harvest m P) (hg : ∀ a, P a → Q (g a)) :
    Offers harvest (do return (← m).map g) Q :=
  .option hm (fun a ha => .some (hg a ha)) .none

theorem node_sound {start : Nat} {form : ExprForm} (hform : form.Sound)
    (h : AllSound (nodes form)) : Sound (node start form) :=
  .skip fun _ => .some (.single hform h)

theorem stmtNode_sound {start : Nat} {form : StmtForm} (h : SoundForm form) :
    Sound (stmtNode start form) :=
  .skip fun _ => .some (.single ⟨h.binds, h.shaped⟩ h.below)

/-! ### Lists of expressions -/

theorem tupleOrSingle_offers {item : Match (Option Expr)} {P : Expr → Prop}
    (hitem : Offers harvest item P) : Offers harvest (tupleOrSingle item) fun e =>
      P e ∨ ∃ items, e.form = .tuple items ∧ ∀ item ∈ items, P item := by
  refine .skip fun start => .need hitem rfl fun first hfirst => ?_
  refine Yields.bind (P := fun state : List Expr × Bool => ∀ item ∈ state.1, P item)
    (.loop (fun state => ∀ item ∈ state.1, P item) (by simpa using hfirst) ?_) ?_
  · rintro ⟨items, isTuple⟩ hitems
    refine .unlessThen (.done hitems) (.option hitem (fun value hvalue => .done ?_) (.done hitems))
    simpa [or_imp, forall_and] using ⟨hitems, hvalue⟩
  · rintro ⟨items, isTuple⟩ hitems
    cases isTuple with
    | false => exact .some (.inl hfirst)
    | true => exact .skip fun _ => .some (.inr ⟨items, rfl, hitems⟩)

theorem tupleOrSingle_sound {item : Match (Option Expr)} (hitem : Sound item) :
    Sound (tupleOrSingle item) := by
  refine (tupleOrSingle_offers hitem).each ?_
  rintro ⟨form, span⟩ (hsingle | ⟨items, rfl, hitems⟩)
  · exact hsingle
  · exact .single ⟨trivial, trivial⟩ (.list hitems)

theorem spreadOr_sound {plain : Match (Option Expr)} (hplain : Sound plain) :
    Sound (spreadOr plain) :=
  .skip fun _ => .ifThen
    (.option .rule (fun _ hvalue => node_sound ⟨trivial, trivial⟩ hvalue) giveUp_offers) hplain

theorem bindingOrSpread_sound : Sound bindingOrSpread :=
  spreadOr_sound .rule

theorem spreadTuple_sound : Sound spreadTuple :=
  tupleOrSingle_sound .rule

theorem bindingTuple_sound : Sound bindingTuple :=
  tupleOrSingle_sound bindingOrSpread_sound

theorem exprTuple_sound : Sound exprTuple :=
  tupleOrSingle_sound .rule

theorem yielded_sound : Sound yielded := by
  refine .skip fun start => .expect (.ifThen ?_ ?_)
  · exact .option .rule (fun value hvalue => node_sound ⟨trivial, trivial⟩ hvalue) giveUp_offers
  · exact spreadTuple_sound.bind fun value hvalue => node_sound ⟨trivial, trivial⟩ (.option hvalue)

theorem yieldOrTuple_sound : Sound yieldOrTuple :=
  .option yielded_sound (fun _ hvalue => .some hvalue) spreadTuple_sound

/-! ### Targets -/

theorem restricted_offers {admits : ExprForm → Bool} :
    Offers harvest (restricted admits) fun e => AllSound (nodes e) ∧ admits e.form := by
  refine attempt_offers fun _ => .need .rule rfl fun target htarget => ?_
  dsimp only
  split
  case isTrue hadmitted => exact .some ⟨htarget, hadmitted⟩
  case isFalse => exact .none

theorem isTarget_eq (e : Expr) : e.isTarget = e.form.isTarget := by
  cases e
  rw [Expr.isTarget]

theorem areTargets_iff {items : List Expr} : areTargets items ↔ ∀ item ∈ items, item.isTarget := by
  induction items with
  | nil => simp [areTargets]
  | cons item items induction => simp [areTargets, induction]

theorem SoundTarget.tuple {items : List Expr} {e : Expr} (hform : e.form = .tuple items)
    (hitems : ∀ item ∈ items, SoundTarget item) : SoundTarget e := by
  obtain ⟨form, span⟩ := e
  cases hform
  refine ⟨.single ⟨trivial, trivial⟩ (.list fun item hitem => (hitems item hitem).1), ?_⟩
  exact areTargets_iff.mpr fun item hitem => (hitems item hitem).2

theorem soleTarget_offers :
    Offers harvest soleTarget fun e => AllSound (nodes e) ∧ e.form.isSoleTarget :=
  restricted_offers

theorem deletableTarget_offers : Offers harvest deletableTarget SoundTarget := by
  refine restricted_offers.each fun target htarget => ⟨htarget.1, ?_⟩
  rw [isTarget_eq]
  exact (Bool.and_eq_true _ _ ▸ htarget.2).1

theorem targetItemRule_offers : Offers harvest targetItemRule SoundTarget := by
  refine .skip fun _ => .ifThen (.option .rule (fun inner hinner => ?_) giveUp_offers) ?_
  · exact .skip fun _ => .some ⟨.single ⟨trivial, trivial⟩ hinner.1, hinner.2⟩
  · exact restricted_offers.each fun target htarget => ⟨htarget.1, isTarget_eq target ▸ htarget.2⟩

theorem targetTuple_offers : Offers harvest targetTuple SoundTarget := by
  refine (tupleOrSingle_offers (P := SoundTarget) .rule).each ?_
  rintro target (hsingle | ⟨items, hform, hitems⟩)
  · exact hsingle
  · exact .tuple hform hitems

/-! ### Comprehensions -/

/-- Loops over targets with sound parts, at least one. -/
structure SoundLoops (generators : List Comprehension) : Prop where
  nonempty : generators ≠ []
  targets : ∀ g ∈ generators, g.target.isTarget
  below : AllSound (nodes generators)

theorem filterClause_sound : Sound filterClause :=
  .expect .rule

theorem forClause_offers :
    Offers harvest forClause fun g => AllSound (nodes g) ∧ g.target.isTarget := by
  refine attempt_offers fun _ => .skip fun _ => .expect ?_
  refine .need targetTuple_offers rfl fun target htarget => .expect ?_
  refine .need .rule rfl fun iter hiter => ?_
  refine (Yields.many filterClause_sound).bind fun ifs hifs => .some ⟨?_, htarget.2⟩
  exact htarget.1.append (hiter.append (.list hifs))

theorem forClauses_offers : Offers harvest forClauses SoundLoops :=
  (Yields.many1 forClause_offers).each fun _ hloops =>
    ⟨hloops.1, fun g hg => (hloops.2 g hg).2, .list fun g hg => (hloops.2 g hg).1⟩

theorem comprehension_offers {closer : String} : Offers harvest (comprehension closer)
    fun found => AllSound (nodes found.1) ∧ SoundLoops found.2 := by
  refine .need .rule rfl fun elt helt => .need forClauses_offers rfl fun generators hloops => ?_
  exact .expect (.some ⟨helt, hloops⟩)

theorem generator_sound : Sound generator := by
  refine attempt_offers fun _ => .expect (.need comprehension_offers rfl ?_)
  rintro ⟨elt, generators⟩ ⟨helt, hloops⟩
  exact node_sound ⟨hloops.targets, hloops.nonempty⟩ (helt.append hloops.below)

/-! ### Groups and tuples -/

theorem group_sound {start inside : Nat} : Sound (do
    reset start
    if let some value ← generator then return some value
    reset inside
    let some inner ← bindingTuple | return none
    if !(← accepts ")") then return none
    match inner.form with
    | .tuple items => node start (.tuple items)
    | _ => return some inner) := by
  refine .skip fun _ => .option generator_sound (fun _ hvalue => .some hvalue) (.skip fun _ => ?_)
  refine .need bindingTuple_sound rfl fun inner hinner => .expect ?_
  have hbelow : AllSound (nodes inner.form) := hinner.form
  split
  case h_1 items hform =>
    rw [hform] at hbelow
    exact node_sound ⟨trivial, trivial⟩ hbelow
  case h_2 => exact .some hinner

theorem parenthesized_sound : Sound parenthesized :=
  attempt_offers fun _ => .expect (.ifThen (node_sound ⟨trivial, trivial⟩ .nil) (.skip fun _ =>
    .option yielded_sound (fun _ hvalue => .ifThen (.some hvalue) group_sound) group_sound))

/-! ### Lists, sets and dictionaries -/

theorem bracketItems_yields : Yields harvest bracketItems fun items => AllSound (nodes items) :=
  .option (.separated bindingOrSpread_sound) (fun _ hitems => .skip fun _ => .done (.list hitems.2))
    (.done .nil)

theorem squareBracketed_sound : Sound squareBracketed := by
  refine attempt_offers fun _ => .expect (.skip fun _ => .option comprehension_offers ?_ ?_)
  · rintro ⟨elt, generators⟩ ⟨helt, hloops⟩
    exact node_sound ⟨hloops.targets, hloops.nonempty⟩ (helt.append hloops.below)
  · refine .skip fun _ => bracketItems_yields.bind fun items hitems => .expect ?_
    exact node_sound ⟨trivial, trivial⟩ hitems

theorem entry_offers :
    Offers harvest entry fun pair => AllSound (nodes pair.1) ∧ AllSound (nodes pair.2) := by
  refine attempt_offers fun _ => .need .rule rfl fun key hkey => .expect ?_
  exact .need .rule rfl fun value hvalue => .some ⟨hkey, hvalue⟩

theorem entryOrSpread_sound : Sound entryOrSpread := by
  refine .skip fun _ => .ifThen (.option .rule (fun _ hmapping => .some ?_) giveUp_offers) ?_
  · exact .append .nil hmapping
  · refine mapped_offers entry_offers ?_
    rintro ⟨key, value⟩ ⟨hkey, hvalue⟩
    refine AllSound.append ?_ hvalue
    rwa [nodes_some]

theorem dictComprehension_offers : Offers harvest dictComprehension fun found =>
    (AllSound (nodes found.1.1) ∧ AllSound (nodes found.1.2)) ∧ SoundLoops found.2 := by
  refine .need entry_offers rfl fun pair hpair => ?_
  exact .need forClauses_offers rfl fun generators hloops => .expect (.some ⟨hpair, hloops⟩)

theorem dictEntries_sound : Sound dictEntries := by
  refine .need (.separated entryOrSpread_sound) rfl fun pairs hpairs => ?_
  exact .skip fun _ => .expect (.some (.list hpairs.2))

theorem braced_sound : Sound braced := by
  refine attempt_offers fun start => .expect (.ifThen ?_ (.skip fun _ => ?_))
  · exact node_sound ⟨trivial, rfl⟩ .nil
  refine .option dictComprehension_offers ?_ (.skip fun _ => .option comprehension_offers ?_
    (.skip fun _ => .option dictEntries_sound ?_ (.skip fun _ => ?_)))
  · rintro ⟨⟨key, value⟩, generators⟩ ⟨⟨hkey, hvalue⟩, hloops⟩
    exact node_sound ⟨hloops.targets, hloops.nonempty⟩ (hkey.append (hvalue.append hloops.below))
  · rintro ⟨elt, generators⟩ ⟨helt, hloops⟩
    exact node_sound ⟨hloops.targets, hloops.nonempty⟩ (helt.append hloops.below)
  · intro pairs hpairs
    have hlengths : (pairs.map Prod.fst).length = (pairs.map Prod.snd).length := by
      rw [List.length_map, List.length_map]
    refine node_sound ⟨trivial, hlengths⟩ (.append ?_ ?_)
    · exact hpairs.sub fun _ => mem_nodes_firsts
    · exact hpairs.sub fun _ => mem_nodes_seconds
  · refine .perhaps (bracketItems_yields.bind fun items hitems => ?_)
    split
    case isTrue => exact .none
    case isFalse hempty =>
      have hnonempty : items ≠ [] := fun heq => hempty (heq ▸ rfl)
      exact .expect (node_sound ⟨trivial, hnonempty⟩ hitems)

end ShellSyntax.Language
