import ShellSyntax.Language.Grammar
import ShellSyntax.Proofs.Language.LeafTexts

/-!
Where starred expressions may stand. Lists of expressions yield their only item as it is, so a star
in parentheses without a comma leaves them. No other expression in parentheses is starred, and no
target of a deletion is.
-/

namespace ShellSyntax

open ShellSyntax.Language

/-- From `i` to `j` stand a star with its operand in this many parentheses, without commas, and this
is the starred expression. -/
inductive Feed.Stars (f : Feed) : (depth i : Nat) → Expr → (j : Nat) → Prop
  | star {i j : Nat} {value : Expr} (hstar : f.Spells i "*") :
      Stars f 0 i ⟨.starred value, f.spanSince i j⟩ j
  | parenthesized {depth i j : Nat} {e : Expr} (hopen : f.Spells i "(")
      (hinside : Stars f depth (i + 1) e j) (hclose : f.Spells j ")") :
      Stars f (depth + 1) i e (j + 1)

namespace Language

open Matcher

variable {α β : Type} {W : World} {i j k : Nat}

/-- If a starred expression was read, it stands in parentheses. -/
def Grouped (W : World) (i : Nat) (found : Option Expr) (j : Nat) : Prop :=
  ∀ e ∈ found, e.form.isStarred = true → ∃ depth, W.Stars (depth + 1) i e j

/-- If a starred expression was read, it stands in parentheses or behind its star. -/
def Starry (W : World) (i : Nat) (found : Option Expr) (j : Nat) : Prop :=
  ∀ e ∈ found, e.form.isStarred = true → ∃ depth, W.Stars depth i e j

/-- Rules that match no lists match starred expressions only in parentheses. -/
def grouped (W : World) : Matches rules
  | .bindingExpr, i, found, j | .expr, i, found, j | .orExpr, i, found, j | .andExpr, i, found, j
  | .notExpr, i, found, j | .bitOrExpr, i, found, j | .bitXorExpr, i, found, j
  | .bitAndExpr, i, found, j | .shiftedExpr, i, found, j | .addExpr, i, found, j
  | .mulExpr, i, found, j | .signedExpr, i, found, j | .awaitExpr, i, found, j
  | .postfixExpr, i, found, j | .atomicExpr, i, found, j | .stringRun, i, found, j
  | .commandExpr, i, found, j => Grouped W i found j
  | .program, _, _, _ | .soleExpr, _, _, _ | .stmtList, _, _, _ | .smallStmt, _, _, _
  | .suite, _, _, _ | .elifBranch, _, _, _ | .exprOrSpread, _, _, _ | .targetItem, _, _, _
  | .fstringInside _, _, _, _ => True

/-- If the matcher comes to an end, `Q` holds of what it yields and of where it ends. -/
abbrev Turns (W : World) (m : Match α) (i : Nat) (Q : α → Nat → Prop) : Prop :=
  Leads W (grouped W) m i Q

/-- Starred expressions that the matcher yields stand in parentheses. -/
abbrev Groups (W : World) (m : Match (Option Expr)) (i : Nat) : Prop :=
  Turns W m i (Grouped W i)

theorem Grouped.none : Grouped W i none j :=
  nofun

theorem Grouped.plain {e : Expr} (h : e.form.isStarred = false) : Grouped W i (some e) j := by
  rintro _ ⟨⟩ hstarred
  rw [h] at hstarred
  cases hstarred

theorem Grouped.starry {found : Option Expr} (h : Grouped W i found j) : Starry W i found j :=
  fun e he hstarred => (h e he hstarred).imp' _ fun _ => id

/-! ### Ways of matching -/

variable {Q : β → Nat → Prop}

theorem skip_turns {m : Match α} {f : α → Match β} (h : ∀ v j, Turns W (f v) j Q) :
    Turns W (m >>= f) i Q :=
  .bind ((LeadsIn.any m).mono fun v j _ => h v j)

theorem giveUp_turns {start : Nat} {P : Option α → Nat → Prop} (h : P none start) :
    Turns W (giveUp start) i P :=
  .reset h

theorem attempt_turns {inner : Nat → Match (Option α)} {P : Option α → Nat → Prop}
    (h : Turns W (inner i) i fun found j => found.isSome → P found j) (hnone : P none i) :
    Turns W (attempt inner) i P := by
  refine .mark (.bind (h.mono ?_))
  rintro (_ | a) j hfound
  · exact .reset hnone
  · exact hfound rfl

theorem attempt_groups {inner : Nat → Match (Option Expr)} (h : Groups W (inner i) i) :
    Groups W (attempt inner) i :=
  attempt_turns (h.mono fun _ _ hgrouped _ => hgrouped) .none

theorem accepts_turns {text : String} {f : Bool → Match β}
    (hyes : W.Spells i text → Turns W (f true) (i + 1) Q) (hno : Turns W (f false) i Q) :
    Turns W (accepts text >>= f) i Q :=
  .bind (.spelledAs (fun t ht hkind htext => hyes ⟨t, ht, hkind, htext⟩) hno)

theorem expect_turns {text : String} {rest : Match (Option α)} {P : Option α → Nat → Prop}
    (hyes : W.Spells i text → Turns W rest (i + 1) P) (hno : P none i) :
    Turns W (accepts text >>= fun found => if (!found) = true then Pure.pure none else rest) i P :=
  accepts_turns hyes hno

theorem node_groups {form : ExprForm} (h : form.isStarred = false) :
    Turns W (node k form) j (Grouped W i) :=
  .spanSince (.plain h)

theorem need_groups {m : Match (Option α)} {f : Option α → Match (Option Expr)}
    (hnone : f none = Pure.pure none) (hsome : ∀ a j, Turns W (f (some a)) j (Grouped W i)) :
    Turns W (m >>= f) k (Grouped W i) := by
  refine skip_turns ?_
  rintro (_ | a) j
  · rw [hnone]
    exact .none
  · exact hsome a j

theorem oneOf_turns {table : List (String × α)} :
    Turns W (oneOf table) i fun found j => found = none → j = i := by
  induction table with
  | nil => exact fun _ => rfl
  | cons entry others induction => exact accepts_turns (fun _ => nofun) induction

theorem many_turns {m : Match (Option α)} :
    Turns W (many m) i fun items j => items = [] → j = i := by
  refine .loop (fun items j => items = [] → j = i) (fun _ => rfl) ?_
  intro items j hitems
  refine .mark (skip_turns ?_)
  rintro (_ | item) k
  · exact .reset hitems
  · refine .mark ?_
    have hconcat : items ++ [item] = [] → k = i := fun h => absurd h (List.concat_ne_nil item items)
    split
    · exact hconcat
    · exact hconcat

theorem separated_turns {separator : String} {m : Match (Option α)} {P : Option α → Nat → Prop}
    (hm : Turns W m i P) :
    Turns W (separated separator m) i fun items j => ∀ a, items = some [a] → P (some a) j := by
  refine .bind (hm.mono ?_)
  rintro (_ | first) j hfirst
  · exact fun _ => nofun
  refine .loop (fun items k => items ≠ [] ∧ ∀ a, items = [a] → P (some a) k) ⟨nofun, ?_⟩ ?_
  · rintro a ⟨⟩
    exact hfirst
  · rintro items k ⟨hne, hitems⟩
    have hstop : ∀ a, some items = some [a] → P (some a) k :=
      fun a ha => hitems a (Option.some.inj ha)
    refine .mark (accepts_turns (fun _ => skip_turns ?_) hstop)
    rintro (_ | item) l
    · exact .reset hstop
    · refine ⟨List.concat_ne_nil item items, fun a ha => absurd ha ?_⟩
      cases items with
      | nil => exact absurd rfl hne
      | cons head rest => simp

/-! ### Expressions without brackets -/

theorem unbound_groups (hquiet : W.diagnosing = false) :
    Groups W (do
      if ← isDiagnosing then rejectBinding
      let some value ← expr | return none
      if ← lookahead (spelled ":=") then giveUp i else return some value) i := by
  refine .diagnosis hquiet (.bind (LeadsIn.rule.mono ?_))
  rintro (_ | value) j hvalue
  · exact .none
  refine .lookahead fun found => ?_
  split
  · exact giveUp_turns .none
  · exact hvalue

theorem bindingExprRule_groups (hquiet : W.diagnosing = false) : Groups W bindingExprRule i := by
  have hunbound := unbound_groups (i := i) hquiet
  refine .mark (.name (fun target _ _ => accepts_turns (fun _ => .spanSince ?_) ?_) hunbound)
  · refine skip_turns ?_
    rintro (_ | value) j
    · exact giveUp_turns .none
    · exact node_groups rfl
  · exact .reset hunbound

theorem lambdaExpr_groups : Turns W lambdaExpr j (Grouped W i) := by
  refine attempt_turns (.mono (P := Grouped W i) ?_ fun _ _ hfound _ => hfound) .none
  refine expect_turns (fun _ => need_groups rfl fun args k => ?_) .none
  exact expect_turns (fun _ => need_groups rfl fun value l => node_groups rfl) .none

theorem ifElseTail_turns : Turns W ifElseTail i fun found j => found = none → j = i :=
  attempt_turns ((LeadsIn.any _).mono (by rintro (_ | tail) j _ <;> simp)) fun _ => rfl

theorem exprRule_groups (hquiet : W.diagnosing = false) : Groups W exprRule i := by
  refine .diagnosis hquiet (.mark (.bind (LeadsIn.rule.mono ?_)))
  rintro (_ | value) j hvalue
  · exact lambdaExpr_groups
  refine .bind (ifElseTail_turns.mono ?_)
  rintro (_ | ⟨test, orelse⟩) k hk
  · cases hk rfl
    exact hvalue
  · exact node_groups rfl

theorem boolOperands_groups {op : BoolOp} {keyword : String} {operand : Match (Option Expr)}
    (h : Groups W operand i) : Groups W (boolOperands op keyword operand) i := by
  refine .mark (.bind ((separated_turns h).mono ?_))
  rintro (_ | _ | ⟨value, _ | ⟨other, others⟩⟩) j hsole
  · exact .none
  · exact node_groups rfl
  · exact hsole value rfl
  · exact node_groups rfl

theorem comparison_groups : Groups W comparison i := by
  refine .mark (.bind (LeadsIn.rule.mono ?_))
  rintro (_ | left) j hleft
  · exact .none
  refine .bind (many_turns.mono ?_)
  rintro (_ | ⟨tail, tails⟩) k hk
  · cases hk rfl
    exact hleft
  · exact node_groups rfl

theorem notExprRule_groups : Groups W notExprRule i := by
  refine .mark (accepts_turns (fun _ => skip_turns ?_) comparison_groups)
  rintro (_ | operand) j
  · exact giveUp_turns .none
  · exact node_groups rfl

theorem binaryTail_groups {start here : Nat} {left : Expr} {operand : Match (Option Expr)}
    {ops : List BinOp} : Turns W (binaryTail start here left operand ops) j (Grouped W i) := by
  induction ops generalizing j with
  | nil => exact .none
  | cons op ops induction =>
    refine accepts_turns (fun _ => skip_turns ?_) (.reset induction)
    rintro (_ | right) k
    · exact .reset induction
    · exact node_groups rfl

theorem leftAssoc_groups {ops : List BinOp} {this operand : Match (Option Expr)}
    (h : Groups W operand i) : Groups W (leftAssoc ops this operand) i := by
  refine .mark (skip_turns ?_)
  rintro (_ | left) j
  · exact .reset h
  refine .mark (.bind ((binaryTail_groups (i := i)).mono ?_))
  rintro (_ | longer) k hlonger
  · exact .reset h
  · exact hlonger

theorem powerExpr_groups : Groups W powerExpr i := by
  refine .mark (.bind (LeadsIn.rule.mono ?_))
  rintro (_ | base) j hbase
  · exact .none
  refine .mark (accepts_turns (fun _ => skip_turns ?_) hbase)
  rintro (_ | exponent) k
  · exact .reset hbase
  · exact node_groups rfl

theorem signedExprRule_groups : Groups W signedExprRule i := by
  refine .mark (.bind (oneOf_turns.mono ?_))
  rintro (_ | op) j hj
  · cases hj rfl
    exact powerExpr_groups
  refine skip_turns ?_
  rintro (_ | operand) k
  · exact giveUp_turns .none
  · exact node_groups rfl

theorem awaitExprRule_groups : Groups W awaitExprRule i := by
  refine .mark (accepts_turns (fun _ => skip_turns ?_) .rule)
  rintro (_ | value) j
  · exact giveUp_turns .none
  · exact node_groups rfl

/-! ### Atoms -/

theorem stringRunRule_groups : Groups W stringRunRule i := by
  refine .mark (skip_turns fun g j => ?_)
  have hliteral : g.literal.isStarred = false := by
    unfold Gathered.literal
    split <;> rfl
  split
  · exact .none
  refine .spanSince (.plain ?_)
  split
  · rfl
  · exact hliteral

theorem nameExpr_groups {start : Nat} {token : Token} :
    Turns W (nameExpr start token) j (Grouped W i) := by
  unfold nameExpr
  split
  · exact .next fun _ _ => node_groups rfl
  split
  · exact .none
  · exact .next fun _ _ => node_groups rfl

theorem pathSearch_groups : Groups W pathSearch i := by
  refine .mark (.ofKind (fun _ _ _ => node_groups rfl) .none)

theorem variableExpr_groups : Groups W variableExpr i := by
  refine attempt_groups (.spelled (fun dollar _ _ => .ofKind (fun id _ _ => ?_) .none) ?_)
  · dsimp only
    split
    · exact .none
    · exact node_groups rfl
  · refine expect_turns (fun _ => need_groups rfl fun value j => ?_) .none
    exact expect_turns (fun _ => node_groups rfl) .none

theorem captured_turns (hquiet : W.diagnosing = false) {capture : CaptureMode} :
    Turns W (captured capture) i fun attempt _ =>
      ∀ e, attempt = .matched e → e.form.isStarred = false := by
  refine .mark (.spelled (fun opening _ _ => .diagnosis hquiet (skip_turns ?_)) nofun)
  rintro (_ | stages) j
  · exact nofun
  refine skip_turns fun background k => accepts_turns (fun _ => .spanSince ?_) nofun
  rintro e ⟨⟩
  rfl

theorem firstOf_groups {alternatives : List (Match (Attempt Expr))}
    (h : ∀ alternative ∈ alternatives, ∀ j, Turns W alternative j fun attempt _ =>
      ∀ e, attempt = .matched e → e.form.isStarred = false) :
    Turns W (firstOf alternatives) j (Grouped W i) := by
  induction alternatives generalizing j with
  | nil => exact .none
  | cons alternative others induction =>
    rw [List.forall_mem_cons] at h
    refine .mark (.bind ((h.1 j).mono ?_))
    rintro (value | _ | _) k hplain
    · exact .plain (hplain value rfl)
    · exact .reset (induction h.2)
    · exact .reset .none

theorem commandExprRule_groups (hquiet : W.diagnosing = false) : Groups W commandExprRule i := by
  refine firstOf_groups fun alternative halternative j => ?_
  obtain ⟨capture, _, rfl⟩ := List.mem_map.mp halternative
  exact captured_turns hquiet

/-! ### Brackets -/

theorem generator_groups : Turns W generator j (Grouped W i) := by
  refine attempt_turns (.mono (P := Grouped W i) ?_ fun _ _ hfound _ => hfound) .none
  refine expect_turns (fun _ => need_groups rfl ?_) .none
  rintro ⟨elt, generators⟩ k
  exact node_groups rfl

theorem squareBracketed_groups : Groups W squareBracketed i := by
  refine attempt_groups (expect_turns (fun _ => .mark (skip_turns ?_)) .none)
  rintro (_ | ⟨elt, generators⟩) j
  · refine .reset (skip_turns fun items k => ?_)
    exact expect_turns (fun _ => node_groups rfl) .none
  · exact node_groups rfl

theorem braced_groups (hquiet : W.diagnosing = false) : Groups W braced i := by
  refine attempt_groups (expect_turns (fun _ => accepts_turns (fun _ => node_groups rfl) ?_) .none)
  refine .mark (skip_turns ?_)
  rintro (_ | ⟨⟨key, value⟩, generators⟩) j
  case some => exact node_groups rfl
  refine .reset (skip_turns ?_)
  rintro (_ | ⟨elt, generators⟩) k
  case some => exact node_groups rfl
  refine .reset (skip_turns ?_)
  rintro (_ | pairs) l
  case some => exact node_groups rfl
  refine .reset (.diagnosis hquiet (skip_turns fun items m => ?_))
  split
  · exact .none
  · exact expect_turns (fun _ => node_groups rfl) .none

theorem spreadOr_turns {plain : Match (Option Expr)} (h : Groups W plain i) :
    Turns W (spreadOr plain) i (Starry W i) := by
  refine .mark (accepts_turns (fun hstar => ?_) (h.mono fun _ _ => Grouped.starry))
  refine skip_turns ?_
  rintro (_ | value) j
  · exact giveUp_turns nofun
  · refine .spanSince ?_
    rintro _ ⟨⟩ _
    exact ⟨0, .star hstar⟩

theorem tupleOrSingle_turns {item : Match (Option Expr)} (h : Turns W item i (Starry W i)) :
    Turns W (tupleOrSingle item) i (Starry W i) := by
  have htuple {items : List Expr} (k : Nat) :
      Turns W (node i (.tuple items)) k (Starry W i) :=
    (node_groups (i := i) rfl).mono fun _ _ => Grouped.starry
  refine .mark (.bind (h.mono ?_))
  rintro (_ | first) j hfirst
  · exact nofun
  refine .bind (.loop (fun state k => state.2 = false → k = j) (fun _ => rfl) ?_)
  rintro ⟨items, isTuple⟩ k hk
  refine accepts_turns (fun _ => skip_turns ?_) ?_
  · rintro (_ | value) l
    · exact htuple l
    · exact nofun
  · cases isTuple with
    | true => exact htuple k
    | false =>
      cases hk rfl
      exact hfirst

theorem yielded_plain : Turns W yielded i fun found _ => ∀ e ∈ found, e.form.isStarred = false := by
  have hnode {start j : Nat} {form : ExprForm} (hplain : form.isStarred = false) :
      Turns W (node start form) j fun found _ => ∀ e ∈ found, e.form.isStarred = false :=
    .spanSince (by rintro e ⟨⟩; exact hplain)
  refine .mark (expect_turns (fun _ => accepts_turns (fun _ => skip_turns ?_) ?_) nofun)
  · rintro (_ | value) j
    · exact giveUp_turns nofun
    · exact hnode rfl
  · exact skip_turns fun value j => hnode rfl

theorem group_groups (hopen : W.Spells i "(") :
    Turns W (do
      reset i
      if let some value ← generator then return some value
      reset (i + 1)
      let some inner ← bindingTuple | return none
      if !(← accepts ")") then return none
      match inner.form with
      | .tuple items => node i (.tuple items)
      | _ => return some inner) j (Grouped W i) := by
  have hitem : Turns W bindingOrSpread (i + 1) (Starry W (i + 1)) := spreadOr_turns .rule
  refine .reset (.bind ((generator_groups (i := i)).mono ?_))
  rintro (_ | value) k hvalue
  case some => exact hvalue
  refine .reset (.bind ((tupleOrSingle_turns hitem).mono ?_))
  rintro (_ | inner) k hinner
  · exact .none
  refine expect_turns (fun hclose => ?_) .none
  split
  · exact node_groups rfl
  · rintro _ ⟨⟩ hstarred
    obtain ⟨depth, hstars⟩ := hinner inner rfl hstarred
    exact ⟨depth, .parenthesized hopen hstars hclose⟩

theorem parenthesized_groups : Groups W parenthesized i := by
  refine attempt_groups (expect_turns (fun hopen => accepts_turns (fun _ => node_groups rfl) ?_)
    .none)
  refine .mark (.bind (yielded_plain.mono ?_))
  rintro (_ | value) j hvalue
  · exact group_groups hopen
  · exact accepts_turns (fun _ => .plain (hvalue value rfl)) (group_groups hopen)

theorem bracketExpr_groups (hquiet : W.diagnosing = false) {text : String} :
    Groups W (bracketExpr i text) i := by
  unfold bracketExpr
  split
  · exact parenthesized_groups
  split
  · exact squareBracketed_groups
  split
  · exact braced_groups hquiet
  split
  · exact .next fun _ _ => node_groups rfl
  split
  · exact variableExpr_groups
  split
  · exact LeadsIn.rule
  · exact .none

/-! ### Primaries -/

theorem atomicExprRule_groups (hquiet : W.diagnosing = false) : Groups W atomicExprRule i := by
  refine .mark (.peek fun token _ => ?_)
  split
  · exact nameExpr_groups
  · exact .next fun _ _ => node_groups rfl
  · exact .rule
  · exact .rule
  · exact pathSearch_groups
  · exact bracketExpr_groups hquiet
  · exact .none

theorem trailer_groups {start : Nat} {value : Expr} :
    Turns W (trailer start value) j (Grouped W i) := by
  refine attempt_turns (.mono (P := Grouped W i) ?_ fun _ _ hfound _ => hfound) .none
  refine accepts_turns (fun _ => need_groups rfl fun attr k => node_groups rfl) (skip_turns ?_)
  rintro (_ | argument) k
  case some => exact node_groups rfl
  refine accepts_turns (fun _ => need_groups rfl ?_) (accepts_turns (fun _ => ?_) ?_)
  · rintro ⟨args, keywords⟩ l
    exact expect_turns (fun _ => node_groups rfl) .none
  · refine need_groups rfl fun index l => ?_
    exact expect_turns (fun _ => node_groups rfl) .none
  refine .spelled (fun opening _ _ => ?_) (skip_turns ?_)
  · dsimp only
    split
    · exact .none
    · exact skip_turns fun args l => expect_turns (fun _ => node_groups rfl) .none
  · rintro (_ | detailed) l
    · exact .none
    · exact node_groups rfl

theorem postfixExprRule_groups : Groups W postfixExprRule i := by
  refine .mark (skip_turns ?_)
  rintro (_ | value) j
  · exact .reset .rule
  refine .inBrackets fun _ _ => ((trailer_groups (i := i)).mono ?_)
  rintro (_ | longer) k hlonger
  · exact .reset .rule
  · exact hlonger

/-! ### The grammar -/

theorem grammar_groups (hquiet : W.diagnosing = false) : grammar.Leads W (grouped W) where
  none := by
    intro r i
    cases r with
    | program | soleExpr | stmtList | smallStmt | suite | elifBranch | exprOrSpread | targetItem
    | fstringInside => trivial
    | _ => exact .none
  body := by
    intro r i
    cases r with
    | program | soleExpr | stmtList | smallStmt | suite | elifBranch | exprOrSpread | targetItem
    | fstringInside => exact .any _
    | bindingExpr => exact bindingExprRule_groups hquiet
    | expr => exact exprRule_groups hquiet
    | orExpr | andExpr => exact boolOperands_groups .rule
    | notExpr => exact notExprRule_groups
    | bitOrExpr | bitXorExpr | bitAndExpr | shiftedExpr | addExpr | mulExpr =>
      exact leftAssoc_groups .rule
    | signedExpr => exact signedExprRule_groups
    | awaitExpr => exact awaitExprRule_groups
    | postfixExpr => exact postfixExprRule_groups
    | atomicExpr => exact atomicExprRule_groups hquiet
    | stringRun => exact stringRunRule_groups
    | commandExpr => exact commandExprRule_groups hquiet

end Language

namespace Program

variable {source : Source} {origin : Option Origin} {options : ParseOptions} {tree : Ast}
  {s : ProgramSession}

theorem accepted_within (cut : Source.Cut source)
    (hparse : parse options.mode (start source origin options) = (.ok tree, s)) {root n m : Node}
    (hroot : root ∈ nodes tree) (hcontains : root.Contains n) (hbelow : n.Contains m) :
    n.span.start ≤ m.span.start ∧ m.span.stop ≤ n.span.stop := by
  obtain ⟨-, -, inOrder, j, htokens, hbetween⟩ := accepted_between cut hparse
  induction hbelow with
  | self => exact ⟨Position.le_refl _, Position.le_refl _⟩
  | child hbefore hchild induction =>
    have hspans := ((hbetween root hroot).contained (hcontains.trans hbefore)).spans inOrder htokens
    obtain ⟨hstart, hstop⟩ := hspans.nested _ hchild
    exact ⟨Position.le_trans induction.1 hstart, Position.le_trans hstop induction.2⟩

/-- Wherever an accepted text or file is read, an atom is starred only if it is a star with its
operand in parentheses, which hold nothing else and no comma. What is deleted is not starred itself,
and where it has a starred part, there stands a star in the text that it spans. -/
theorem stars_stay_in_lists_or_groups (cut : Source.Cut source)
    (hparse : parse options.mode (start source origin options) = (.ok tree, s)) :
    let p := pass source origin options false
    (∀ i s₁ s₂ e, p.Calls ranking grammar .atomicExpr i s₁ →
      Parser.runRule grammar .atomicExpr s₁ = .ok (some e) s₂ → e.form.isStarred = true →
      ∃ depth, p.world.Stars (depth + 1) i e s₂.mark) ∧
    ∀ root ∈ nodes tree, ∀ targets span, root.Contains (.stmt ⟨.delete targets, span⟩) →
      ∀ target ∈ targets, target.form.isStarred = false ∧
        ∀ value place, (Node.expr target).Contains (.expr ⟨.starred value, place⟩) →
          ∃ i t, p.world.token i = .ok t ∧ t.text = "*" ∧ t.start = place.start ∧
            target.span.start ≤ place.start ∧ place.stop ≤ target.span.stop := by
  intro p
  refine ⟨fun i s₁ s₂ e calls hrun => ?_, ?_⟩
  · have hanswer := calls.answer governs rules_distinguished rfl hrun
    have hmatches : Callee.Leads (grouped p.world) (p.world.answer grammar ranking) := fun r j =>
      (grammar_groups rfl).call _ r j
    exact hmatches .atomicExpr i _ _ hanswer e rfl
  · intro root hroot targets span hdelete target htarget
    have hplain : ∀ target ∈ targets, target.form.isStarred = false :=
      accepted_made hparse root hroot _ hdelete
    refine ⟨hplain target htarget, fun value place hstarred => ?_⟩
    have hchild : Node.expr target ∈ (Node.stmt ⟨.delete targets, span⟩).children :=
      mem_nodes.mpr ⟨target, htarget, List.mem_singleton_self _⟩
    have hbelow : root.Contains (.expr target) := .child hdelete hchild
    obtain ⟨i, j, ⟨t, ht, -, htext⟩, rfl⟩ : ∃ i j, (firstWorld source origin options).Spells i "*" ∧
        place = (firstWorld source origin options).spanSince i j :=
      accepted_made hparse root hroot _ (hbelow.trans hstarred)
    refine ⟨i, t, ht, htext, ?_, accepted_within cut hparse hroot hbelow hstarred⟩
    simp [Feed.spanSince, Feed.startOf, ht]

/-- The star that is the first of two targets in parentheses, if the program deletes these. -/
def deletedStar? (tree : Module) : Option Span :=
  match tree.body with
  | [⟨.delete [⟨.tuple [⟨.starred _, place⟩, _], _⟩], _⟩] => some place
  | _ => none

theorem stars_stay_in_lists_or_groups_of_deletion :
    ∃ target value other place stop span s,
      parse .exec (start (.ofString "del (*a, b)\n") none .default) =
        (.ok (.module ⟨[⟨.delete [target], span⟩]⟩), s) ∧
      target = ⟨.tuple [⟨.starred value, place⟩, other], stop⟩ ∧
      target.form.isStarred = false ∧
      ∃ i t, (pass (.ofString "del (*a, b)\n") none .default false).world.token i = .ok t ∧
        t.text = "*" ∧ t.start = place.start ∧ target.span.start ≤ place.start ∧
        place.stop ≤ target.span.stop := by
  obtain ⟨⟨stmts⟩, s, hparse, hstar⟩ := accepted_of_read (.ofString "del (*a, b)\n") none .default
    (fun tree => (deletedStar? tree).isSome) 5000 (by decide +kernel) (by decide +kernel)
  unfold deletedStar? at hstar
  split at hstar
  case h_1 value place other stop span heq =>
    cases heq
    have haccepted : parse ParseOptions.default.mode
        (start (.ofString "del (*a, b)\n") none .default) = (.ok _, s) := hparse
    obtain ⟨hplain, hbelow⟩ := (stars_stay_in_lists_or_groups (Source.cut_ofText _) haccepted).2 _
      List.mem_cons_self _ _ .self _ List.mem_cons_self
    exact ⟨_, value, other, place, stop, span, s, hparse, rfl, hplain,
      hbelow value place (.child .self List.mem_cons_self)⟩
  case h_2 => cases hstar

/-- A star in parentheses is starred behind them. -/
theorem starred_group_accepted :
    ¬ ∀ (text : String) (tree : Ast) (s : ProgramSession),
      parse .exec (start (.ofString text) none .default) = (.ok tree, s) →
      let p := pass (.ofString text) none .default false
      ∀ i s₁ s₂ e, p.Calls ranking grammar .atomicExpr i s₁ → p.world.Spells i "(" →
        Parser.runRule grammar .atomicExpr s₁ = .ok (some e) s₂ → e.form.isStarred = false := by
  intro claimed
  obtain ⟨tree, s, hparse, -⟩ := accepted_of_read (.ofString "(*a)\n") none .default
    (fun _ => true) 5000 (by decide +kernel) (by decide +kernel)
  obtain ⟨e, s', calls, hrun, hstarred⟩ := match_of_read (.ofString "(*a)\n") none .default
    .atomicExpr (fun e _ => e.form.isStarred) 5000 rfl (by decide +kernel) (by decide +kernel)
  have hfirst : ((pass (.ofString "(*a)\n") none .default false).world.token 0).toOption.any
      (fun t => t.kind == .op && t.text == "(") = true := by
    decide +kernel
  have hopen : (pass (.ofString "(*a)\n") none .default false).world.Spells 0 "(" := by
    cases htoken : (pass (.ofString "(*a)\n") none .default false).world.token 0 with
    | error e => simp [htoken, Except.toOption] at hfirst
    | ok t =>
      simp only [htoken, Except.toOption, Option.any_some, Bool.and_eq_true, beq_iff_eq] at hfirst
      exact ⟨t, htoken, .inl hfirst.1, hfirst.2⟩
  rw [claimed _ _ s hparse 0 _ s' e calls hopen hrun] at hstarred
  cases hstarred

end Program

end ShellSyntax
