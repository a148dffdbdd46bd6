import ShellSyntax.Proofs.Language.ArgumentPieces
import ShellSyntax.Proofs.Language.Merging
import ShellSyntax.Proofs.Language.Places
import ShellSyntax.Proofs.Parser.Brings
import ShellSyntax.Proofs.Tree.Sound

/-!
Functions, with or without a name, and replacement fields are made by one matcher each, and leaves
from one token or two. In a tree that has been read each of them can be traced back to a place where
that matcher has read it, or where these tokens stand.
-/

namespace ShellSyntax

open ShellSyntax.Language

variable {α β : Type}

namespace Language

/-- Somewhere in this world the matcher reads `a`, where rules match as they answer. -/
def ReadBy (W : World) (m : Match (Option α)) (a : α) : Prop :=
  ∃ callee i j, Callee.Answers W grammar ranking callee ∧ W.Reads callee m i (some a) j

end Language

/-- The field has been read, and so have the fields of its specification. -/
inductive FormatPart.Made (W : World) : FormatPart → Prop
  | literal (text : String) : Made W (.literal text)
  | field {raw : Bool} {value : Expr} {debugText : Option String} {letter : Option Char}
      {spec : List FormatPart}
      (hread : ReadBy W (formatField raw) (.field value debugText letter spec))
      (hspec : ∀ part ∈ spec, Made W part) : Made W (.field value debugText letter spec)

/-! ### Leaves -/

/-- One token of this kind and this text has been spanned. -/
def Feed.SpansOne (f : Feed) (kind : TokenKind) (text : String) (span : Span) : Prop :=
  ∃ i t, f.token i = .ok t ∧ t.kind = kind ∧ t.text = text ∧ span = f.spanSince i (i + 1)

/-- A dollar sign and the name right behind it have been spanned. -/
def Feed.SpansVariable (f : Feed) (id : String) (span : Span) : Prop :=
  ∃ i dollar t, f.token i = .ok dollar ∧
    (dollar.kind = .op ∨ dollar.kind = .name ∨ dollar.kind = .word) ∧ dollar.text = "$" ∧
    f.token (i + 1) = .ok t ∧ t.kind = .name ∧ t.text = id ∧ dollar.stop = t.start ∧
    span = f.spanSince i (i + 2)

/-- The name that a value is bound to. When its span was taken, the sign behind it had been read. -/
def Feed.BindsName (f : Feed) (target : Expr) : Prop :=
  ∃ i t, f.token i = .ok t ∧ t.kind = .name ∧ f.Spells (i + 1) ":=" ∧
    target = ⟨.name t.text, f.spanSince i (i + 2)⟩

/-- The span ends with the name of an attribute, and starts no later if it can be read in order. -/
def World.EndsWithName (W : World) (attr : String) (span : Span) : Prop :=
  ∃ i k t, (W.Whole → W.diagnosing = false → i ≤ k) ∧ W.token k = .ok t ∧ t.kind = .name ∧
    t.text = attr ∧ span = W.spanSince i (k + 1)

/-! ### Nodes -/

/-- A function without a name has been read, and so have the fields of an f-string; leaves are made
from their tokens, a star stands in front of what is unpacked, and only a name is bound. -/
def Expr.Made (W : World) (e : Expr) : Prop :=
  match e.form with
  | .lambda _ _ => ReadBy W lambdaExpr e
  | .fstring parts => ∀ part ∈ parts, part.Made W
  | .name id => W.SpansOne .name id e.span
  | .constant (.number digits) => W.SpansOne .number digits e.span
  | .namedVariable id => W.SpansVariable id e.span
  | .attribute _ attr => W.EndsWithName attr e.span
  | .starred _ => ∃ i j, W.Spells i "*" ∧ e.span = W.spanSince i j
  | .binding target _ => W.BindsName target
  | _ => True

/-- A function has been read, and what is deleted is not starred. -/
def StmtForm.Made (W : World) (form : StmtForm) : Prop :=
  match form with
  | .function _ _ _ decorators _ isAsync => ReadBy W (functionDefinition decorators isAsync) form
  | .delete targets => ∀ target ∈ targets, target.form.isStarred = false
  | _ => True

def Node.Made (W : World) : Node → Prop
  | .expr e => e.Made W
  | .stmt s => s.form.Made W
  | .handler _ => True

/-- What holds of all nodes, of names that are bound as well. -/
def Node.MadeUnlessName (W : World) : Node → Prop
  | .expr ⟨.name _, _⟩ => True
  | n => n.Made W

def Node.Binds (W : World) (n child : Node) : Prop :=
  ∃ target value span, n = .expr ⟨.binding target value, span⟩ ∧ child = .expr target ∧
    W.BindsName target

/-- These nodes and all nodes below them are made as they should be, but for names that are bound. -/
def AllMade (W : World) (ns : List Node) : Prop :=
  ∀ root ∈ ns, root.Made W ∧
    ∀ n, root.Contains n → ∀ child ∈ n.children, child.Made W ∨ n.Binds W child

namespace AllMade

variable [HasNodes α] {W : World} {ns ms : List Node} {n : Node}

theorem nil : AllMade W [] :=
  fun _ => nofun

@[simp] theorem append_iff : AllMade W (ns ++ ms) ↔ AllMade W ns ∧ AllMade W ms :=
  List.forall_mem_append

theorem append (hns : AllMade W ns) (hms : AllMade W ms) : AllMade W (ns ++ ms) :=
  append_iff.mpr ⟨hns, hms⟩

theorem sub (h : AllMade W ns) (hsub : ∀ n ∈ ms, n ∈ ns) : AllMade W ms :=
  fun n hn => h n (hsub n hn)

theorem either {ls : List Node} (hns : AllMade W ns) (hms : AllMade W ms)
    (h : ∀ n ∈ ls, n ∈ ns ∨ n ∈ ms) : AllMade W ls :=
  fun n hn => (h n hn).elim (hns n) (hms n)

theorem head (h : AllMade W [n]) : n.Made W :=
  (h n (List.mem_singleton_self n)).1

theorem node (hmade : n.Made W)
    (hchildren : ∀ child ∈ n.children, AllMade W [child] ∨ n.Binds W child ∧ child.children = []) :
    AllMade W [n] := by
  refine List.forall_mem_singleton.mpr ⟨hmade, fun m contains => ?_⟩
  obtain rfl | ⟨child, hchild, contains⟩ := contains.head
  · exact fun child hchild => (hchildren child hchild).imp head And.left
  · rcases hchildren child hchild with hmade | ⟨_, hnone⟩
    · exact (hmade child (List.mem_singleton_self child)).2 m contains
    · obtain rfl | ⟨below, hbelow, _⟩ := contains.head
      · rw [hnone]
        exact fun _ => nofun
      · rw [hnone] at hbelow
        cases hbelow

theorem single (h : n.Made W) (hchildren : AllMade W n.children) : AllMade W [n] :=
  node h fun child hchild => .inl (List.forall_mem_singleton.mpr (hchildren child hchild))

theorem unlessName {root : Node} (h : AllMade W ns) (hroot : root ∈ ns)
    (contains : root.Contains n) : n.MadeUnlessName W := by
  have hmade {m : Node} (hm : m.Made W) : m.MadeUnlessName W := by
    unfold Node.MadeUnlessName
    split
    · trivial
    · exact hm
  cases contains with
  | self => exact hmade (h n hroot).1
  | child contains hchild =>
    rcases (h root hroot).2 _ contains n hchild with hn | ⟨_, _, _, _, rfl, _, _, _, _, _, rfl⟩
    · exact hmade hn
    · trivial

theorem children (h : AllMade W [n]) (hplain : ∀ child, ¬ n.Binds W child) :
    AllMade W n.children := by
  intro child hchild
  obtain ⟨-, hbelow⟩ := h n (List.mem_singleton_self n)
  exact ⟨(hbelow n .self child hchild).resolve_right (hplain child),
    fun m contains => hbelow m (contains.under hchild)⟩

theorem form {e : Expr} (h : AllMade W (nodes e))
    (hplain : ∀ target value, e.form ≠ .binding target value) : AllMade W (nodes e.form) := by
  refine children h ?_
  rintro _ ⟨target, value, span, heq, -⟩
  cases heq
  exact hplain target value rfl

theorem binding {target value : Expr} {span : Span} (htarget : W.BindsName target)
    (hvalue : AllMade W (nodes value)) : AllMade W (nodes (⟨.binding target value, span⟩ : Expr)) := by
  refine node htarget fun child hchild => ?_
  rcases List.mem_append.mp hchild with hname | hchild
  · cases List.mem_singleton.mp hname
    have hbinds := htarget
    obtain ⟨_, _, _, _, _, rfl⟩ := htarget
    exact .inr ⟨⟨_, value, span, rfl, rfl, hbinds⟩, rfl⟩
  · exact .inl (List.forall_mem_singleton.mpr (hvalue child hchild))

theorem list {items : List α} (h : ∀ a ∈ items, AllMade W (nodes a)) : AllMade W (nodes items) := by
  intro n hn
  obtain ⟨a, ha, hna⟩ := mem_nodes.mp hn
  exact h a ha n hna

theorem sole {a : α} (ha : AllMade W (nodes a)) : AllMade W (nodes [a]) := by
  rwa [nodes_cons, nodes_nil, List.append_nil]

theorem concat {items : List α} {a : α} (hitems : AllMade W (nodes items))
    (ha : AllMade W (nodes a)) : AllMade W (nodes (items ++ [a])) := by
  rw [nodes_append]
  exact hitems.append ha.sole

theorem some {a : α} (ha : AllMade W (nodes a)) : AllMade W (nodes (Option.some a)) := by
  rwa [nodes_some]

end AllMade

/-! ### Matchers that make nodes -/

namespace Language

open Matcher

/-- What rules match is made as it should be. -/
def made (W : World) : Harvest rules
  | .program, tree => AllMade W (nodes (α := Module) tree)
  | .stmtList, body | .suite, body => AllMade W (nodes (α := List Stmt) body)
  | .smallStmt, stmt => AllMade W (nodes (α := Stmt) stmt)
  | .elifBranch, form => StmtForm.Made W form ∧ AllMade W (nodes (α := StmtForm) form)
  | .fstringInside _, parts =>
    (∀ part ∈ parts, FormatPart.Made W part) ∧ AllMade W (nodes (α := List FormatPart) parts)
  | .soleExpr, e | .exprOrSpread, e | .bindingExpr, e | .expr, e | .orExpr, e | .andExpr, e
  | .notExpr, e | .bitOrExpr, e | .bitXorExpr, e | .bitAndExpr, e | .shiftedExpr, e | .addExpr, e
  | .mulExpr, e | .signedExpr, e | .awaitExpr, e | .postfixExpr, e | .atomicExpr, e
  | .stringRun, e | .commandExpr, e | .targetItem, e => AllMade W (nodes (α := Expr) e)

/-- Where no token is missing and no mistakes are looked for, rules match nodes that span the tokens
that were read. -/
def placed (W : World) : Matches rules := fun r i found j =>
  ∀ (whole : W.Whole) (quiet : W.diagnosing = false),
    matched { W with whole := whole, quiet := quiet } r i found j

/-- Rules answer as they should, and match only what is made as it should be and stands where it
should. -/
abbrev Honest (W : World) : Callee rules → Prop :=
  Callee.Honest W grammar ranking (made W) (placed W)

/-- All nodes of what the matcher brings are made as they should be. -/
def Makes [HasNodes α] (W : World) (m : Match α) : Prop :=
  Brings W (Honest W) m fun a => AllMade W (nodes a)

/-- And so is the form of a statement that it brings. -/
def MakesForm (W : World) (m : Match (Option StmtForm)) : Prop :=
  Brings W (Honest W) m fun found => ∀ form ∈ found, form.Made W ∧ AllMade W (nodes form)

end Language

/-! ### Ways of matching -/

namespace Brings

open Matcher

variable {W : World}

theorem mark {f : Nat → Match β} {Q : β → Prop}
    (h : ∀ i callee, Honest W callee → ∀ b j, W.Reads callee (f i) i b j → Q b) :
    Brings W (Honest W) (Matcher.mark >>= f) Q :=
  fun callee hhonest i b j reads => h i callee hhonest b j reads.mark

theorem call {r : Rule} [HasNodes r.Node] (hmade : ∀ node, made W r node → AllMade W (nodes node)) :
    Makes W (@Matcher.rule rules r) := by
  intro callee hhonest i found j reads
  cases found with
  | none => exact .nil
  | some node => exact .some (hmade node (hhonest.good r i node j reads.rule))

theorem separated_all {m : Match (Option α)} {separator : String} {P : α → Prop}
    (hm : Brings W (Honest W) m fun found => ∀ a ∈ found, P a) :
    Brings W (Honest W) (Matcher.separated separator m) fun found =>
      ∀ items ∈ found, ∀ a ∈ items, P a := by
  refine .bind hm ?_
  rintro (_ | first) hfirst
  · exact .done fun _ => nofun
  refine .loop (fun items => ∀ a ∈ items, P a) (List.forall_mem_singleton.mpr (hfirst first rfl)) ?_
  intro items hitems
  have hstop : ∀ found ∈ Option.some items, ∀ a ∈ found, P a := by
    rintro _ ⟨⟩
    exact hitems
  refine .skip fun _ => .unlessThen (.done hstop) (.bind hm ?_)
  rintro (_ | item) hitem
  · exact .skip fun _ => .done hstop
  · refine .done (List.forall_mem_append.mpr ⟨hitems, ?_⟩)
    exact List.forall_mem_singleton.mpr (hitem item rfl)

variable [HasNodes α] {m : Match (Option α)}

theorem none : Makes W (.done (Option.none : Option α)) :=
  .done .nil

theorem some {a : α} (h : AllMade W (nodes a)) : Makes W (.done (Option.some a)) :=
  .done h.some

theorem option {f : Option α → Match β} {Q : β → Prop} (hm : Makes W m)
    (hsome : ∀ a, AllMade W (nodes a) → Brings W (Honest W) (f (Option.some a)) Q)
    (hnone : Brings W (Honest W) (f Option.none) Q) : Brings W (Honest W) (m >>= f) Q := by
  refine bind hm ?_
  rintro (_ | a) hfound
  · exact hnone
  · exact hsome a (nodes_some a ▸ hfound)

theorem expect {test : Match Bool} {rest : Match (Option α)} (h : Makes W rest) :
    Makes W (test >>= fun found => if (!found) = true then pure Option.none else rest) :=
  unlessThen none h

theorem pass {γ : Type} {first : Match (Option γ)} {f : Option γ → Match (Option α)}
    (hnone : f Option.none = .done Option.none) (hsome : ∀ a, Makes W (f (Option.some a))) :
    Makes W (first >>= f) := by
  refine skip ?_
  rintro (_ | a)
  · exact hnone ▸ none
  · exact hsome a

theorem giveUp {start : Nat} : Makes W (Language.giveUp start : Match (Option α)) :=
  skip fun _ => none

theorem attempt {inner : Nat → Match (Option α)} (h : ∀ start, Makes W (inner start)) :
    Makes W (Language.attempt inner) :=
  skip fun start => option (h start) (fun _ ha => some ha) giveUp

theorem many (hm : Makes W m) : Makes W (Matcher.many m) := by
  refine loop (fun items => AllMade W (nodes items)) .nil fun items hitems => skip fun _ => ?_
  refine option hm (fun item hitem => skip fun _ => ?_) (skip fun _ => .done hitems)
  split
  · exact .done (hitems.concat hitem)
  · exact .done (hitems.concat hitem)

theorem many1 (hm : Makes W m) : Makes W (Matcher.many1 m) := by
  refine bind (many hm) ?_
  rintro (_ | ⟨item, items⟩) hitems
  · exact none
  · exact some hitems

theorem separated {separator : String} (hm : Makes W m) :
    Makes W (Matcher.separated separator m) := by
  have hall : Brings W (Honest W) m fun found => ∀ a ∈ found, AllMade W (nodes a) :=
    hm.mono fun found hfound a ha => nodes_some a ▸ Option.mem_def.mp ha ▸ hfound
  refine (separated_all hall).mono ?_
  rintro (_ | items) hitems
  · exact .nil
  · exact AllMade.some (.list (hitems items rfl))

theorem firstOf {alternatives : List (Match (Attempt α))}
    (h : ∀ m ∈ alternatives, Brings W (Honest W) m fun found =>
      ∀ a, found = .matched a → AllMade W (nodes a)) :
    Makes W (Matcher.firstOf alternatives) := by
  induction alternatives with
  | nil => exact none
  | cons m others induction =>
    refine skip fun _ => bind (h m List.mem_cons_self) ?_
    rintro (a | _ | _) hmatched
    · exact some (hmatched a rfl)
    · exact skip fun _ => induction fun m hm => h m (List.mem_cons_of_mem _ hm)
    · exact skip fun _ => none

variable [HasNodes β]

theorem need {f : Option α → Match (Option β)} (hm : Makes W m)
    (hnone : f Option.none = .done Option.none)
    (hsome : ∀ a, AllMade W (nodes a) → Makes W (f (Option.some a))) : Makes W (m >>= f) :=
  option hm hsome (hnone ▸ none)

theorem mapped {g : α → β} (hm : Makes W m)
    (hg : ∀ a, AllMade W (nodes a) → AllMade W (nodes (g a))) :
    Makes W (do return (← m).map g) :=
  option hm (fun a ha => some (hg a ha)) none

theorem node {start : Nat} {form : ExprForm}
    (hform : ∀ j, Expr.Made W ⟨form, W.spanSince start j⟩) (h : AllMade W (nodes form)) :
    Makes W (Language.node start form) := by
  intro callee _ i found j reads
  cases reads.spanSince
  exact AllMade.some (.single (hform i) h)

theorem stmtNode {start : Nat} {form : StmtForm} (hform : form.Made W)
    (h : AllMade W (nodes form)) : Makes W (Language.stmtNode start form) :=
  skip fun _ => some (.single hform h)

end Brings

namespace Language

open Matcher

variable {W : World}

/-! ### Lists of expressions -/

theorem tupleOrSingle_makes {item : Match (Option Expr)} (hitem : Makes W item) :
    Makes W (tupleOrSingle item) := by
  refine .skip fun start => .need hitem rfl fun first hfirst => ?_
  have hstart : AllMade W (nodes [first]) := AllMade.sole hfirst
  refine Brings.bind (P := fun state : List Expr × Bool => AllMade W (nodes state.1))
    (.loop (fun state => AllMade W (nodes state.1)) hstart ?_) ?_
  · rintro ⟨items, isTuple⟩ hitems
    refine .unlessThen (.done hitems) (.option hitem (fun value hvalue => ?_) (.done hitems))
    exact .done (hitems.concat hvalue)
  · rintro ⟨items, isTuple⟩ hitems
    cases isTuple with
    | false => exact .some hfirst
    | true => exact .node (fun _ => trivial) hitems

theorem starred_makes {operand plain : Match (Option Expr)} (hoperand : Makes W operand)
    (hplain : Makes W plain) : Makes W (do
      let start ← mark
      if ← accepts "*" then
        let some value ← operand | giveUp start
        node start (.starred value)
      else plain) := by
  refine .mark fun i callee hhonest found j reads => ?_
  rcases reads.accepts with ⟨hstar, hrest⟩ | hrest
  · have hspread : Makes W (do
        let some value ← operand | giveUp i
        node i (.starred value)) :=
      .option hoperand (fun _ hvalue => .node (fun k => ⟨i, k, hstar, rfl⟩) hvalue) .giveUp
    exact hspread callee hhonest _ _ _ hrest
  · exact hplain callee hhonest _ _ _ hrest

theorem spreadOr_makes {plain : Match (Option Expr)} (hplain : Makes W plain) :
    Makes W (spreadOr plain) :=
  starred_makes (.call fun _ => id) hplain

theorem bindingOrSpread_makes : Makes W bindingOrSpread :=
  spreadOr_makes (.call fun _ => id)

theorem spreadTuple_makes : Makes W spreadTuple :=
  tupleOrSingle_makes (.call fun _ => id)

theorem bindingTuple_makes : Makes W bindingTuple :=
  tupleOrSingle_makes bindingOrSpread_makes

theorem exprTuple_makes : Makes W exprTuple :=
  tupleOrSingle_makes (.call fun _ => id)

theorem yielded_makes : Makes W yielded := by
  refine .skip fun start => .expect (.ifThen ?_ ?_)
  · exact .option (.call fun _ => id) (fun _ hvalue => .node (fun _ => trivial) hvalue) .giveUp
  · exact Brings.bind spreadTuple_makes fun _ hvalue => .node (fun _ => trivial) hvalue

theorem yieldOrTuple_makes : Makes W yieldOrTuple :=
  .option yielded_makes (fun _ hvalue => .some hvalue) spreadTuple_makes

/-! ### Targets -/

theorem restricted_makes {admits : ExprForm → Bool} : Makes W (restricted admits) := by
  refine .attempt fun _ => .need (.call fun _ => id) rfl fun target htarget => ?_
  dsimp only
  split
  · exact .some htarget
  · exact .none

theorem restricted_admits {admits : ExprForm → Bool} :
    Brings W (Honest W) (restricted admits) fun found => ∀ target ∈ found, admits target.form := by
  rintro callee _ i found j reads target rfl
  obtain ⟨other, k, _, hrest⟩ := (attempt_some reads).needs rfl
  dsimp only at hrest
  split at hrest
  case isTrue hadmits =>
    cases hrest
    exact hadmits
  case isFalse => cases hrest

theorem targetItemRule_makes : Makes W targetItemRule :=
  starred_makes (.call fun _ => id) restricted_makes

theorem targetTuple_makes : Makes W targetTuple :=
  tupleOrSingle_makes (.call fun _ => id)

/-! ### Comprehensions -/

theorem filterClause_makes : Makes W filterClause :=
  .expect (.call fun _ => id)

theorem forClause_makes : Makes W forClause := by
  refine .attempt fun _ => .skip fun _ => .expect ?_
  refine .need targetTuple_makes rfl fun target htarget => .expect ?_
  refine .need (.call fun _ => id) rfl fun iter hiter => ?_
  refine Brings.bind (.many filterClause_makes) fun ifs hifs => .some ?_
  exact AllMade.append htarget (AllMade.append hiter hifs)

theorem comprehension_makes {closer : String} : Makes W (comprehension closer) := by
  refine .need (.call fun _ => id) rfl fun elt helt => ?_
  refine .need (.many1 forClause_makes) rfl fun generators hgenerators => ?_
  exact .expect (.some (AllMade.append helt hgenerators))

theorem generator_makes : Makes W generator :=
  .attempt fun _ => .expect (.need comprehension_makes rfl fun _ hfound =>
    .node (fun _ => trivial) hfound)

/-! ### Groups, lists, sets and dictionaries -/

theorem group_makes {start inside : Nat} : Makes W (do
    reset start
    if let some value ← generator then return some value
    reset inside
    let some inner ← bindingTuple | return none
    if !(← accepts ")") then return none
    match inner.form with
    | .tuple items => node start (.tuple items)
    | _ => return some inner) := by
  refine .skip fun _ => .option generator_makes (fun _ hvalue => .some hvalue) (.skip fun _ => ?_)
  refine .need bindingTuple_makes rfl fun inner hinner => .expect ?_
  split
  case h_1 items hform =>
    have hbelow : AllMade W (nodes inner.form) := hinner.form (by simp [hform])
    rw [hform] at hbelow
    exact .node (fun _ => trivial) hbelow
  case h_2 => exact .some hinner

theorem parenthesized_makes : Makes W parenthesized :=
  .attempt fun _ => .expect (.ifThen (.node (fun _ => trivial) .nil) (.skip fun _ =>
    .option yielded_makes (fun _ hvalue => .ifThen (.some hvalue) group_makes) group_makes))

theorem bracketItems_makes : Makes W bracketItems :=
  .option (.separated bindingOrSpread_makes) (fun _ hitems => .skip fun _ => .done hitems)
    (.done .nil)

theorem squareBracketed_makes : Makes W squareBracketed := by
  refine .attempt fun _ => .expect (.skip fun _ => .option comprehension_makes ?_ ?_)
  · exact fun _ hfound => .node (fun _ => trivial) hfound
  · refine .skip fun _ => Brings.bind bracketItems_makes fun items hitems => .expect ?_
    exact .node (fun _ => trivial) hitems

theorem entry_makes : Makes W entry :=
  .attempt fun _ => .need (.call fun _ => id) rfl fun _ hkey => .expect
    (.need (.call fun _ => id) rfl fun _ hvalue => .some (AllMade.append hkey hvalue))

theorem entryOrSpread_makes : Makes W entryOrSpread := by
  refine .skip fun _ => .ifThen (.option (.call fun _ => id) (fun _ hmapping => .some ?_) .giveUp) ?_
  · exact .append .nil hmapping
  · refine .mapped entry_makes ?_
    rintro ⟨key, value⟩ hpair
    obtain ⟨hkey, hvalue⟩ := AllMade.append_iff.mp hpair
    exact AllMade.append hkey.some hvalue

theorem dictComprehension_makes : Makes W dictComprehension :=
  .need entry_makes rfl fun _ hpair => .need (.many1 forClause_makes) rfl fun _ hgenerators =>
    .expect (.some (AllMade.append hpair hgenerators))

theorem dictEntries_makes : Makes W dictEntries :=
  .need (.separated entryOrSpread_makes) rfl fun _ hpairs => .skip fun _ => .expect (.some hpairs)

theorem braced_makes : Makes W braced := by
  refine .attempt fun start => .expect (.ifThen ?_ (.skip fun _ => ?_))
  · exact .node (fun _ => trivial) .nil
  refine .option dictComprehension_makes ?_ (.skip fun _ => .option comprehension_makes ?_
    (.skip fun _ => .option dictEntries_makes ?_ (.skip fun _ => ?_)))
  · rintro ⟨⟨key, value⟩, generators⟩ hfound
    obtain ⟨hpair, hgenerators⟩ := AllMade.append_iff.mp hfound
    obtain ⟨hkey, hvalue⟩ := AllMade.append_iff.mp hpair
    exact .node (fun _ => trivial) (hkey.append (hvalue.append hgenerators))
  · exact fun _ hfound => .node (fun _ => trivial) hfound
  · intro pairs hpairs
    refine .node (fun _ => trivial) (.append ?_ ?_)
    · exact hpairs.sub fun _ => mem_nodes_firsts
    · exact hpairs.sub fun _ => mem_nodes_seconds
  · refine .perhaps (Brings.bind bracketItems_makes fun items hitems => ?_)
    split
    · exact .none
    · exact .expect (.node (fun _ => trivial) hitems)

end Language

end ShellSyntax
