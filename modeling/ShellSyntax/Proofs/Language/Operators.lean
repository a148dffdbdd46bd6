import ShellSyntax.Proofs.Language.Accepted
import ShellSyntax.Proofs.Language.Precedence
import ShellSyntax.Proofs.Parser.Gives

/-!
Binary operators. The rules for them group operands as the table of precedences says.
-/

namespace ShellSyntax

open ShellSyntax.Language Matcher

/-! ### Tokens -/

theorem symbol_injective {op op' : BinOp} (h : op.symbol = op'.symbol) : op = op' := by
  have hsame := congrArg BinOp.ofSymbol? h
  rw [BinOp.ofSymbol?_symbol, BinOp.ofSymbol?_symbol] at hsame
  exact Option.some.inj hsame

theorem spells_op {t : Token} (hkind : t.kind = .op) (text : String) :
    t.spells text = (t.text == text) := by
  simp only [Token.spells, hkind, BEq.rfl, Bool.true_or, Bool.true_and]

/-- A token that no operator of this level or a tighter one can continue. -/
def Closes (level : Nat) (t : Token) : Prop :=
  t.kind = .newline ∨ t.kind = .op ∧ ∃ op : BinOp, t.text = op.symbol ∧ op.precedence < level

namespace Closes

variable {level : Nat} {t : Token}

theorem not_spells (h : Closes level t) {text : String}
    (htext : ∀ op : BinOp, op.precedence < level → op.symbol ≠ text) : t.spells text = false := by
  rcases h with hkind | ⟨hkind, op, hsymbol, hlevel⟩
  · simp only [Token.spells, hkind]
    rfl
  · rw [spells_op hkind, hsymbol]
    exact beq_false_of_ne (htext op hlevel)

theorem not_tighter (h : Closes level t) {op : BinOp} (hlevel : level ≤ op.precedence) :
    t.spells op.symbol = false := by
  refine h.not_spells fun op' hless hsymbol => ?_
  cases symbol_injective hsymbol
  omega

theorem link {link : LinkToken} (hlevel : link.op.precedence < level) :
    Closes level link.token :=
  .inr ⟨link.kind, link.op, link.text, hlevel⟩

theorem mono {level' : Nat} (h : Closes level t) (hle : level ≤ level') : Closes level' t := by
  rcases h with hkind | ⟨hkind, op, hsymbol, hlevel⟩
  · exact .inl hkind
  · exact .inr ⟨hkind, op, hsymbol, Nat.lt_of_lt_of_le hlevel hle⟩

theorem not_trailer (h : Closes level t) {text : String}
    (htext : text ∈ [".", "(", "[", "!(", "??", "?"]) : t.spells text = false := by
  refine h.not_spells fun op _ hsymbol => ?_
  subst hsymbol
  revert htext
  cases op <;> decide

end Closes

theorem AtomToken.not_spells (a : AtomToken) {text : String}
    (htext : Spelling.isKeyword text = true) : a.token.spells text = false := by
  rcases a.kind with hkind | ⟨hkind, hkeyword⟩
  · simp only [Token.spells, hkind]
    rfl
  · have hne : a.token.text ≠ text := by
      rintro rfl
      cases hkeyword.symm.trans htext
    simp only [Token.spells, beq_false_of_ne hne, Bool.and_false]

theorem AtomToken.not_spells_sign (a : AtomToken) (hlettered : a.token.Lettered) {text : String}
    (htext : ∃ c ∈ text.toList, Lexeme.continuesName c = false) : a.token.spells text = false := by
  rcases a.kind with hkind | ⟨hkind, _⟩
  · simp only [Token.spells, hkind]
    rfl
  · have hne : a.token.text ≠ text := by
      rintro rfl
      obtain ⟨c, hc, hother⟩ := htext
      cases (hlettered.name hkind c hc).symm.trans hother
    simp only [Token.spells, beq_false_of_ne hne, Bool.and_false]

/-! ### Spans -/

namespace Feed

variable {f : Feed} {i : Nat}

theorem lastToken?_of_stands {ts : List Token} {t : Token} (h : f.Stands i (ts ++ [t]))
    (hlayout : t.kind.isLayout = false) : f.lastToken? (i + (ts ++ [t]).length) = some t := by
  have ht := (stands_append.mp h).2.1
  rw [List.length_append, List.length_singleton, ← Nat.add_assoc, lastToken?]
  simp only [ht, hlayout, Bool.false_eq_true, if_false]

theorem spanSince_of_stands {ts : List Token} (h : f.Stands i ts) (hne : ts ≠ [])
    (hlayout : ∀ t ∈ ts, t.kind.isLayout = false) :
    f.spanSince i (i + ts.length) = Token.spanOf ts := by
  obtain ⟨before, last, rfl⟩ : ∃ before last, ts = before ++ [last] :=
    ⟨_, _, (List.dropLast_concat_getLast hne).symm⟩
  have hlast := lastToken?_of_stands h (hlayout last (by simp))
  cases hbefore : before ++ [last] with
  | nil => simp at hbefore
  | cons first later =>
    have hfirst : f.token i = .ok first := (hbefore ▸ h).1
    rw [hbefore] at hlast
    rw [spanSince, hlast, startOf, hfirst, Token.spanOf, ← hbefore]
    simp

end Feed

theorem Operand.visible (x : Operand) : ∀ t ∈ x.tokens, t.kind.isLayout = false := by
  intro t ht
  rcases List.mem_append.mp ht with hsign | hatom
  · obtain ⟨sign, _, rfl⟩ := List.mem_map.mp hsign
    rw [sign.kind]
    rfl
  · cases List.mem_singleton.mp hatom
    rcases x.atom.kind with hkind | ⟨hkind, _⟩
    all_goals
      rw [hkind]
      rfl

theorem Chain.visible (c : Chain) : ∀ t ∈ c.tokens, t.kind.isLayout = false := by
  intro t ht
  rcases List.mem_append.mp ht with hfirst | hrest
  · exact c.first.visible t hfirst
  · obtain ⟨⟨link, x⟩, _, hlink⟩ := List.mem_flatMap.mp hrest
    rcases List.mem_cons.mp hlink with rfl | hoperand
    · rw [link.kind]
      rfl
    · exact x.visible t hoperand

theorem Chain.tokens_ne_nil (c : Chain) : c.tokens ≠ [] := by
  simp [tokens, Operand.tokens]

theorem Chain.spanSince_eq {f : Feed} {i : Nat} (c : Chain) (h : f.Stands i c.tokens) :
    f.spanSince i (i + c.tokens.length) = c.span :=
  Feed.spanSince_of_stands h c.tokens_ne_nil c.visible

/-! ### Rules -/

variable {W : World} {i : Nat}

/-- What the rules of the language read. -/
noncomputable abbrev World.answers (W : World) : Callee rules :=
  W.answer grammar ranking

theorem packrat_gives {r : Rule} {deep j : Nat} {node : r.Node} (hpolicy : r.policy = .packrat)
    (hentry : r.isEntry = false) (hlimit : i ≤ W.limit)
    (h : Gives W W.answers deep (body r) i (some node) j) :
    (W.answers r i).Gives deep (some node) j := by
  have hanswer := World.answer_eq (W := W) governs hentry hlimit
  unfold World.step at hanswer
  simp only [hpolicy] at hanswer
  rw [World.answers, hanswer]
  exact h.settle_some

/-! ### Operands -/

theorem node_gives {callee : Callee rules} {deep : Nat} {start j : Nat} {form : ExprForm}
    {span : Span} (hspan : W.spanSince start j = span) :
    Gives W callee deep (node start form) j (some ⟨form, span⟩) j := by
  subst hspan
  exact .spanSince .done

theorem AtomToken.constant_lookup (a : AtomToken) (hkind : a.token.kind = .name) :
    constantNames.lookup a.token.text = none ∧ Spelling.isKeyword a.token.text = false := by
  obtain ⟨_, hkeyword⟩ := a.kind.resolve_left (by simp [hkind])
  refine ⟨List.lookup_eq_none_iff.mpr fun constant hconstant => ?_, hkeyword⟩
  have htext : Spelling.isKeyword constant.1 = true := by
    revert constant
    decide
  simp only [bne_iff_ne, ne_eq]
  intro hsame
  cases hkeyword.symm.trans (hsame ▸ htext)

theorem atomicExpr_gives (a : AtomToken) (ht : W.token i = .ok a.token) (hlimit : i ≤ W.limit) :
    (W.answers Rule.atomicExpr i).Gives 0 (some a.expr) (i + 1) := by
  have hstands : W.Stands i [a.token] := ⟨ht, trivial⟩
  have hspan : W.spanSince i (i + 1) = Token.spanOf [a.token] :=
    Feed.spanSince_of_stands hstands (by simp) (Operand.visible ⟨[], a⟩)
  refine packrat_gives rfl rfl hlimit (.mark (.peek ht ?_))
  rcases a.kind with hkind | ⟨hkind, _⟩
  · simp only [hkind, AtomToken.expr, AtomToken.form, if_true]
    exact .next ht (node_gives hspan)
  · obtain ⟨hconstant, hkeyword⟩ := a.constant_lookup hkind
    simp only [hkind, nameExpr, hconstant, hkeyword, Bool.false_eq_true, if_false, AtomToken.expr,
      AtomToken.form, reduceCtorEq]
    exact .next ht (node_gives hspan)

variable {callee : Callee rules} {deep j : Nat} {t : Token} {α : Type}

theorem attempt_gives_none {inner : Mark → Match (Option α)}
    (h : Gives W callee deep (inner i) i none j) : Gives W callee deep (attempt inner) i none i :=
  .mark (.bind h (.reset .done))

theorem oneOf_gives_none {options : List (String × α)} (ht : W.token i = .ok t)
    (hmiss : ∀ option ∈ options, t.spells option.1 = false) :
    Gives W callee deep (oneOf options) i none i := by
  induction options with
  | nil => exact .done
  | cons option options ih =>
    obtain ⟨hoption, hmiss⟩ := List.forall_mem_cons.mp hmiss
    exact .not_accepts ht hoption (ih hmiss)

theorem generator_gives_none (ht : W.token i = .ok t) (hmiss : t.spells "(" = false) :
    Gives W callee deep generator i none i :=
  attempt_gives_none (.not_accepts ht hmiss .done)

theorem trailer_gives_none {start : Mark} {value : Expr} (ht : W.token i = .ok t)
    (hmiss : ∀ text ∈ [".", "(", "[", "!(", "??", "?"], t.spells text = false) :
    Gives W callee deep (trailer start value) i none i := by
  refine attempt_gives_none (j := i) (.not_accepts ht (hmiss _ (by decide)) ?_)
  refine .bind (generator_gives_none ht (hmiss _ (by decide))) ?_
  refine .not_accepts ht (hmiss _ (by decide)) (.not_accepts ht (hmiss _ (by decide)) ?_)
  refine .bind (.not_spelled ht (hmiss _ (by decide))) ?_
  refine .bind (oneOf_gives_none ht ?_) .done
  intro option hoption
  exact hmiss option.1 (by revert hoption; revert option; decide)

theorem answers_leftRecursive {r : Rule} (hpolicy : r.policy = .leftRecursive)
    (hentry : r.isEntry = false) (hlimit : i ≤ W.limit) :
    W.answers r i = World.growth
      (fun best => W.read (World.knowing W.answers i ⟨r, best.1, best.2⟩) (body r) i)
      (W.bound + 1) (none, i) := by
  have hanswer := World.answer_eq (W := W) governs hentry hlimit
  unfold World.step at hanswer
  simp only [hpolicy] at hanswer
  exact hanswer

theorem knowing_self_gives {r : Rule} {node : Option r.Node} {stop : Nat} :
    (World.knowing callee i ⟨r, node, stop⟩ r i).Gives deep node stop := by
  rw [World.knowing_self]
  exact ⟨rfl, Nat.zero_le _⟩

theorem rule_gives {r : Rule} {node : Option r.Node} (h : (callee r i).Gives deep node j) :
    Gives W callee deep (Matcher.rule (R := rules) r) i node j :=
  Reading.Gives.andThen h .pure

theorem postfixExpr_gives_atomicExpr {e : Expr} (hdeep : 1 ≤ deep)
    (h : (W.answers Rule.atomicExpr i).Gives deep (some e) j) (hlt : i < j)
    (hnext : W.token j = .ok t)
    (hmiss : ∀ text ∈ [".", "(", "[", "!(", "??", "?"], t.spells text = false)
    (hlimit : i ≤ W.limit) : (W.answers Rule.postfixExpr i).Gives deep (some e) j := by
  have hatom : ∀ best : Option Expr × Nat,
      Gives W (World.knowing W.answers i ⟨Rule.postfixExpr, best.1, best.2⟩) deep
      atomicExpr i (some e) j := by
    intro best
    refine rule_gives ?_
    rw [World.knowing_other (by rintro ⟨⟩)]
    exact h
  obtain ⟨fuel, hfuel⟩ : ∃ fuel, W.bound + 1 = fuel + 1 + 1 :=
    ⟨W.bound - 1, by have := W.limit_lt; omega⟩
  have hfirst : Gives W (World.knowing W.answers i ⟨Rule.postfixExpr, none, i⟩) deep
      postfixExprRule i (some e) j :=
    .mark (.rule knowing_self_gives (.reset (hatom (none, i))))
  have hagain : Gives W (World.knowing W.answers i ⟨Rule.postfixExpr, some e, j⟩) deep
      postfixExprRule i (some e) j := by
    obtain ⟨less, rfl⟩ := Nat.exists_eq_add_of_le' hdeep
    refine .mark (.rule knowing_self_gives ?_)
    exact .inBrackets (trailer_gives_none hnext hmiss) (.reset (hatom (some e, j)))
  rw [answers_leftRecursive rfl rfl hlimit, hfuel]
  exact World.growth_grows hfirst hlt (World.growth_stops hagain (Nat.le_refl j))

theorem postfixExpr_gives (a : AtomToken) (ht : W.token i = .ok a.token)
    (hnext : W.token (i + 1) = .ok t)
    (hmiss : ∀ text ∈ [".", "(", "[", "!(", "??", "?"], t.spells text = false)
    (hlimit : i ≤ W.limit) : (W.answers Rule.postfixExpr i).Gives 1 (some a.expr) (i + 1) :=
  postfixExpr_gives_atomicExpr (Nat.le_refl 1)
    ((atomicExpr_gives a ht hlimit).mono (Nat.zero_le 1)) (Nat.lt_succ_self i) hnext hmiss hlimit

/-! ### Powers and signs -/

theorem awaitExpr_gives (a : AtomToken) (ht : W.token i = .ok a.token)
    (hnext : W.token (i + 1) = .ok t)
    (hmiss : ∀ text ∈ [".", "(", "[", "!(", "??", "?"], t.spells text = false)
    (hlimit : i ≤ W.limit) : (W.answers Rule.awaitExpr i).Gives 1 (some a.expr) (i + 1) := by
  refine packrat_gives rfl rfl hlimit (.mark (.not_accepts ht (a.not_spells (by decide)) ?_))
  exact rule_gives (postfixExpr_gives a ht hnext hmiss hlimit)

theorem oneOf_gives {value : α} {options : List (String × α)} (ht : W.token i = .ok t)
    (hkind : t.kind = .op) (hdistinct : (options.map Prod.fst).Nodup)
    (hmem : (t.text, value) ∈ options) :
    Gives W callee deep (oneOf options) i (some value) (i + 1) := by
  induction options with
  | nil => simp at hmem
  | cons option options ih =>
    obtain ⟨hother, hdistinct⟩ := List.nodup_cons.mp hdistinct
    rcases List.mem_cons.mp hmem with rfl | hlater
    · exact .accepts ht (by rw [spells_op hkind]; exact BEq.rfl) .done
    · refine .not_accepts ht ?_ (ih hdistinct hlater)
      rw [spells_op hkind]
      refine beq_false_of_ne fun hsame => hother ?_
      exact hsame ▸ List.mem_map_of_mem hlater

section Signed

variable {e : Expr} {span : Span} {k : Nat}

theorem signedExpr_gives_sign {op : UnaryOp} (ht : W.token i = .ok t) (hkind : t.kind = .op)
    (hmem : (t.text, op) ∈ prefixOperators)
    (hoperand : (W.answers Rule.signedExpr (i + 1)).Gives deep (some e) j)
    (hspan : W.spanSince i j = span) (hlimit : i ≤ W.limit) :
    (W.answers Rule.signedExpr i).Gives deep (some ⟨.unaryOp op e, span⟩) j := by
  refine packrat_gives rfl rfl hlimit (.mark ?_)
  exact .bind (oneOf_gives ht hkind (by decide) hmem) (.rule hoperand (node_gives hspan))

theorem signedExpr_gives_base (hsign : Gives W W.answers deep (oneOf prefixOperators) i none i)
    (hbase : (W.answers Rule.awaitExpr i).Gives deep (some e) j) (hnext : W.token j = .ok t)
    (hpow : t.spells "**" = false) (hlimit : i ≤ W.limit) :
    (W.answers Rule.signedExpr i).Gives deep (some e) j := by
  refine packrat_gives rfl rfl hlimit (.mark (.bind hsign (.mark ?_)))
  exact .rule hbase (.mark (.not_accepts hnext hpow .done))

theorem signedExpr_gives_power {exponent : Expr}
    (hsign : Gives W W.answers deep (oneOf prefixOperators) i none i)
    (hbase : (W.answers Rule.awaitExpr i).Gives deep (some e) j) (hnext : W.token j = .ok t)
    (hpow : t.spells "**" = true)
    (hexponent : (W.answers Rule.signedExpr (j + 1)).Gives deep (some exponent) k)
    (hspan : W.spanSince i k = span) (hlimit : i ≤ W.limit) :
    (W.answers Rule.signedExpr i).Gives deep (some ⟨.binOp e .pow exponent, span⟩) k := by
  refine packrat_gives rfl rfl hlimit (.mark (.bind hsign (.mark ?_)))
  exact .rule hbase (.mark (.accepts hnext hpow (.rule hexponent (node_gives hspan))))

end Signed

theorem oneOf_prefixOperators_none (a : AtomToken) (hlettered : a.token.Lettered)
    (ht : W.token i = .ok a.token) :
    Gives W callee deep (oneOf prefixOperators) i none i := by
  refine oneOf_gives_none ht fun option hoption => a.not_spells_sign hlettered ?_
  simp only [prefixOperators, List.mem_cons, List.not_mem_nil, or_false] at hoption
  rcases hoption with rfl | rfl | rfl
  · exact ⟨'+', by decide, by decide⟩
  · exact ⟨'-', by decide, by decide⟩
  · exact ⟨'~', by decide, by decide⟩

theorem signedExpr_gives (hlettered : ∀ i t, W.token i = .ok t → t.Lettered) (c : Chain)
    (hpowers : ∀ p ∈ c.rest, p.1.op = .pow)
    (hstands : W.Stands i c.tokens) (hnext : W.token (i + c.tokens.length) = .ok t)
    (hcloses : Closes 6 t) (hlimit : i + c.tokens.length ≤ W.limit) :
    ∃ e, c.Groups e ∧
      (W.answers Rule.signedExpr i).Gives 1 (some e) (i + c.tokens.length) := by
  induction hsize : c.tokens.length using Nat.strongRecOn generalizing c i with
  | ind size ih =>
    subst hsize
    have hspan := c.spanSince_eq hstands
    have hstart : i ≤ W.limit := Nat.le_trans (Nat.le_add_right _ _) hlimit
    obtain ⟨⟨signs, a⟩, rest⟩ := c
    cases signs with
    | cons sign signs =>
      have htokens : Chain.tokens ⟨⟨sign :: signs, a⟩, rest⟩ =
          sign.token :: Chain.tokens ⟨⟨signs, a⟩, rest⟩ := rfl
      have hlength : i + (Chain.tokens ⟨⟨sign :: signs, a⟩, rest⟩).length =
          i + 1 + (Chain.tokens ⟨⟨signs, a⟩, rest⟩).length := by
        rw [htokens, List.length_cons]
        omega
      rw [hlength] at hnext hlimit hspan ⊢
      obtain ⟨e, hgroups, hgives⟩ := ih _ (by rw [htokens]; simp) ⟨⟨signs, a⟩, rest⟩ hpowers
        hstands.2 hnext hlimit rfl
      refine ⟨_, .signed hpowers hgroups, ?_⟩
      exact signedExpr_gives_sign hstands.1 sign.kind sign.text hgives hspan hstart
    | nil =>
      have ht : W.token i = .ok a.token := hstands.1
      have hsign : Gives W W.answers 1 (oneOf prefixOperators) i none i :=
        oneOf_prefixOperators_none a (hlettered i _ ht) ht
      cases rest with
      | nil =>
        have hbase := awaitExpr_gives a ht hnext (fun _ => hcloses.not_trailer) hstart
        have hpow : t.spells BinOp.pow.symbol = false := hcloses.not_tighter (Nat.le_refl 6)
        exact ⟨_, .atom, signedExpr_gives_base hsign hbase hnext hpow hstart⟩
      | cons p rest =>
        obtain ⟨link, x⟩ := p
        have htokens : Chain.tokens ⟨⟨[], a⟩, (link, x) :: rest⟩ =
            a.token :: link.token :: Chain.tokens ⟨x, rest⟩ := by
          simp [Chain.tokens, Operand.tokens]
        have hlength : i + (Chain.tokens ⟨⟨[], a⟩, (link, x) :: rest⟩).length =
            i + 2 + (Chain.tokens ⟨x, rest⟩).length := by
          rw [htokens, List.length_cons, List.length_cons]
          omega
        rw [hlength] at hnext hlimit hspan ⊢
        rw [htokens] at hstands
        obtain ⟨e, hgroups, hgives⟩ :=
          ih _ (by simp only [htokens, List.length_cons]; omega) ⟨x, rest⟩
          (fun p hp => hpowers p (List.mem_cons_of_mem _ hp)) hstands.2.2 hnext hlimit rfl
        have hop : link.op = .pow := hpowers _ List.mem_cons_self
        have hcloses : Closes 7 link.token := .link (by rw [hop]; decide)
        have hbase := awaitExpr_gives a ht hstands.2.1 (fun _ => hcloses.not_trailer) hstart
        have hpow : link.token.spells "**" = true := by
          rw [spells_op link.kind, link.text, hop]
          rfl
        exact ⟨_, .power hpowers hgroups,
          signedExpr_gives_power hsign hbase hstands.2.1 hpow hgives hspan hstart⟩

/-! ### Levels -/

section Levels

variable {ops : List BinOp} {this operand : Match (Option Expr)} {left right : Expr}
  {start here k : Nat}

theorem binaryTail_gives_none (ht : W.token here = .ok t)
    (hmiss : ∀ op ∈ ops, t.spells op.symbol = false) :
    Gives W callee deep (binaryTail start here left operand ops) here none here := by
  induction ops with
  | nil => exact .done
  | cons op ops ih =>
    obtain ⟨hop, hmiss⟩ := List.forall_mem_cons.mp hmiss
    exact .not_accepts ht hop (.reset (ih hmiss))

theorem binaryTail_gives {link : LinkToken} {span : Span} (ht : W.token here = .ok link.token)
    (hmem : link.op ∈ ops) (hright : Gives W callee deep operand (here + 1) (some right) k)
    (hspan : W.spanSince start k = span) :
    Gives W callee deep (binaryTail start here left operand ops) here
      (some ⟨.binOp left link.op right, span⟩) k := by
  induction ops with
  | nil => simp at hmem
  | cons op ops ih =>
    by_cases hop : link.op = op
    · subst hop
      have hspells : link.token.spells link.op.symbol = true := by
        rw [spells_op link.kind, link.text]
        exact BEq.rfl
      exact .accepts ht hspells (.bind hright (node_gives hspan))
    · have hspells : link.token.spells op.symbol = false := by
        rw [spells_op link.kind, link.text]
        exact beq_false_of_ne fun hsame => hop (symbol_injective hsame)
      refine .not_accepts ht hspells (.reset (ih ?_))
      exact (List.mem_cons.mp hmem).resolve_left hop

theorem leftAssoc_gives_operand (ops : List BinOp) (hthis : Gives W callee deep this i none j)
    (hoperand : Gives W callee deep operand i (some left) k) :
    Gives W callee deep (leftAssoc ops this operand) i (some left) k :=
  .mark (.bind hthis (.reset hoperand))

theorem leftAssoc_gives_longer (link : LinkToken) {span : Span}
    (hthis : Gives W callee deep this i (some left) here) (ht : W.token here = .ok link.token)
    (hmem : link.op ∈ ops) (hright : Gives W callee deep operand (here + 1) (some right) k)
    (hspan : W.spanSince i k = span) :
    Gives W callee deep (leftAssoc ops this operand) i
      (some ⟨.binOp left link.op right, span⟩) k :=
  .mark (.bind hthis (.mark (.bind (binaryTail_gives ht hmem hright hspan) .done)))

theorem leftAssoc_gives_again (ops : List BinOp) {e : Expr}
    (hthis : Gives W callee deep this i (some left) here)
    (ht : W.token here = .ok t) (hmiss : ∀ op ∈ ops, t.spells op.symbol = false)
    (hoperand : Gives W callee deep operand i (some e) k) :
    Gives W callee deep (leftAssoc ops this operand) i (some e) k :=
  .mark (.bind hthis (.mark (.bind (binaryTail_gives_none ht hmiss) (.reset hoperand))))

end Levels

theorem knowing_other_gives {r r' : Rule} {best : Option r.Node × Nat} {node : Option r'.Node}
    (hne : r' ≠ r) (h : (W.answers r' j).Gives deep node k) :
    (World.knowing W.answers i ⟨r, best.1, best.2⟩ r' j).Gives deep node k := by
  rwa [World.knowing_other fun hsame => absurd hsame hne]

/-- What reads the expressions of this level: after those of the binary operators come the signed
ones, and then all that is tighter. -/
noncomputable def World.reads (W : World) : (level : Nat) → Nat → Reading (Option Expr)
  | 0 => W.answers Rule.bitOrExpr
  | 1 => W.answers Rule.bitXorExpr
  | 2 => W.answers Rule.bitAndExpr
  | 3 => W.answers Rule.shiftedExpr
  | 4 => W.answers Rule.addExpr
  | 5 => W.answers Rule.mulExpr
  | 6 => W.answers Rule.signedExpr
  | _ => W.answers Rule.awaitExpr

/-- How a rule for the operators of one level reads: it grows, over one that reads the tighter
levels. -/
structure BinaryLevel (W : World) (level : Nat) where
  ops : List BinOp
  this : Match (Option Expr)
  operand : Match (Option Expr)
  /-- How the rules read that it calls, with this as its longest match so far. -/
  callee : Nat → Option Expr × Nat → Callee rules
  mem_ops : ∀ op : BinOp, op ∈ ops ↔ op.precedence = level
  reads_eq : ∀ i ≤ W.limit, W.reads level i = World.growth
    (fun best => W.read (callee i best) (leftAssoc ops this operand) i) (W.bound + 1) (none, i)
  this_gives : ∀ i best deep, Gives W (callee i best) deep this i best.1 best.2
  operand_gives : ∀ i best deep j e k, (W.reads (level + 1) j).Gives deep (some e) k →
    Gives W (callee i best) deep operand j (some e) k

namespace BinaryLevel

variable {level : Nat} (L : BinaryLevel W level)

/-- How the match at `i` grows from `best` on. -/
def growth (i fuel : Nat) (best : Option Expr × Nat) : Reading (Option Expr) :=
  World.growth (fun best => W.read (L.callee i best) (leftAssoc L.ops L.this L.operand) i) fuel best

theorem of_lt (W : World) (hlevel : level < 6) : Nonempty (BinaryLevel W level) := by
  have hbitOr : BinaryLevel W 0 :=
    ⟨[.bitOr], bitOrExpr, bitXorExpr, _, by intro op; cases op <;> decide,
      fun i hi => answers_leftRecursive rfl rfl hi,
      fun i best deep => rule_gives knowing_self_gives,
      fun i best deep j e k h => rule_gives (knowing_other_gives nofun h)⟩
  have hbitXor : BinaryLevel W 1 :=
    ⟨[.bitXor], bitXorExpr, bitAndExpr, _, by intro op; cases op <;> decide,
      fun i hi => answers_leftRecursive rfl rfl hi,
      fun i best deep => rule_gives knowing_self_gives,
      fun i best deep j e k h => rule_gives (knowing_other_gives nofun h)⟩
  have hbitAnd : BinaryLevel W 2 :=
    ⟨[.bitAnd], bitAndExpr, shiftedExpr, _, by intro op; cases op <;> decide,
      fun i hi => answers_leftRecursive rfl rfl hi,
      fun i best deep => rule_gives knowing_self_gives,
      fun i best deep j e k h => rule_gives (knowing_other_gives nofun h)⟩
  have hshifted : BinaryLevel W 3 :=
    ⟨[.leftShift, .rightShift], shiftedExpr, addExpr, _, by intro op; cases op <;> decide,
      fun i hi => answers_leftRecursive rfl rfl hi,
      fun i best deep => rule_gives knowing_self_gives,
      fun i best deep j e k h => rule_gives (knowing_other_gives nofun h)⟩
  have hadd : BinaryLevel W 4 :=
    ⟨[.add, .sub], addExpr, mulExpr, _, by intro op; cases op <;> decide,
      fun i hi => answers_leftRecursive rfl rfl hi,
      fun i best deep => rule_gives knowing_self_gives,
      fun i best deep j e k h => rule_gives (knowing_other_gives nofun h)⟩
  have hmul : BinaryLevel W 5 :=
    ⟨[.mult, .div, .floorDiv, .mod, .matMult], mulExpr, signedExpr, _,
      by intro op; cases op <;> decide,
      fun i hi => answers_leftRecursive rfl rfl hi,
      fun i best deep => rule_gives knowing_self_gives,
      fun i best deep j e k h => rule_gives (knowing_other_gives nofun h)⟩
  match level, hlevel with
  | 0, _ => exact ⟨hbitOr⟩
  | 1, _ => exact ⟨hbitXor⟩
  | 2, _ => exact ⟨hbitAnd⟩
  | 3, _ => exact ⟨hshifted⟩
  | 4, _ => exact ⟨hadd⟩
  | 5, _ => exact ⟨hmul⟩

variable {L} {fuel here k stop : Nat} {longest : Option Expr}

theorem growth_operand (hoperand : (W.reads (level + 1) i).Gives deep (some left) k) (hlt : i < k)
    (hrest : (L.growth i fuel (some left, k)).Gives deep longest stop) :
    (L.growth i (fuel + 1) (none, i)).Gives deep longest stop := by
  refine World.growth_grows ?_ hlt hrest
  apply leftAssoc_gives_operand L.ops (L.this_gives i (none, i) deep)
  exact L.operand_gives _ _ _ _ _ _ hoperand

theorem growth_longer (link : LinkToken) {span : Span} (hlink : W.token here = .ok link.token)
    (hop : link.op.precedence = level)
    (hright : (W.reads (level + 1) (here + 1)).Gives deep (some right) k)
    (hspan : W.spanSince i k = span) (hlt : here < k)
    (hrest : (L.growth i fuel (some ⟨.binOp left link.op right, span⟩, k)).Gives deep longest
      stop) : (L.growth i (fuel + 1) (some left, here)).Gives deep longest stop := by
  refine World.growth_grows ?_ hlt hrest
  apply leftAssoc_gives_longer link (L.this_gives i (some left, here) deep) hlink
    ((L.mem_ops link.op).mpr hop)
  · exact L.operand_gives _ _ _ _ _ _ hright
  · exact hspan

theorem growth_over {first : Expr} (hnext : W.token here = .ok t)
    (hmiss : ∀ op : BinOp, level ≤ op.precedence → t.spells op.symbol = false)
    (hoperand : (W.reads (level + 1) i).Gives deep (some first) k) (hk : k ≤ here) :
    (L.growth i (fuel + 1) (some left, here)).Gives deep (some left) here := by
  have hagain := leftAssoc_gives_again L.ops (L.this_gives i (some left, here) deep) hnext
    (fun op hop => hmiss op (Nat.le_of_eq ((L.mem_ops op).mp hop).symm))
    (L.operand_gives _ _ _ _ _ _ hoperand)
  exact World.growth_stops hagain hk

end BinaryLevel

/-- Chains of operators of this level and tighter ones are read as the table says. -/
def ParsesLevel (W : World) (level : Nat) : Prop :=
  ∀ (c : Chain) i t, (∀ p ∈ c.rest, level ≤ p.1.op.precedence) → W.Stands i (c.tokens ++ [t]) →
    Closes level t → i + c.tokens.length ≤ W.limit →
    ∃ e, c.Groups e ∧ (W.reads level i).Gives 1 (some e) (i + c.tokens.length)

theorem ParsesLevel.signedExpr (hlettered : ∀ i t, W.token i = .ok t → t.Lettered) :
    ParsesLevel W 6 := by
  intro c i t hlevel hstands hcloses hlimit
  obtain ⟨hstands, hnext, _⟩ := Feed.stands_append.mp hstands
  refine signedExpr_gives hlettered c (fun p hp => ?_) hstands hnext hcloses hlimit
  have hpow := hlevel p hp
  revert hpow
  cases p.1.op <;> decide

section Growth

variable {level : Nat}

theorem part_closed {more : List (LinkToken × Chain)}
    (hmore : ∀ link ∈ more, link.1.op.precedence = level)
    (hstands : W.Stands i ((more.flatMap fun link => link.1.token :: link.2.tokens) ++ [t]))
    (hcloses : Closes level t) : ∃ t', W.token i = .ok t' ∧ Closes (level + 1) t' := by
  cases more with
  | nil => exact ⟨t, hstands.1, hcloses.mono (Nat.le_succ level)⟩
  | cons link more =>
    refine ⟨link.1.token, hstands.1, .link ?_⟩
    rw [hmore link List.mem_cons_self]
    exact Nat.lt_succ_self level

/-- While operators of this level follow, the match grows by one part after the other. -/
theorem growth_gives (L : BinaryLevel W level) (hpow : level < 6)
    (hparse : ParsesLevel W (level + 1)) {first : Expr} {k fuel : Nat}
    (hfirst : (W.reads (level + 1) i).Gives 1 (some first) k)
    {c : Chain} {more : List (LinkToken × Chain)} {e : Expr} (hgroups : c.Groups e)
    (hlevel : ∀ p ∈ c.rest, level ≤ p.1.op.precedence)
    (hmore : ∀ link ∈ more, link.1.op.precedence = level ∧
      ∀ p ∈ link.2.rest, level < p.1.op.precedence)
    (hstands : W.Stands i ((c.joinAll more).tokens ++ [t])) (hcloses : Closes level t)
    (hlimit : i + (c.joinAll more).tokens.length ≤ W.limit) (hk : k ≤ i + c.tokens.length)
    (hfuel : more.length < fuel) :
    ∃ longest, (c.joinAll more).Groups longest ∧
      (L.growth i fuel (some e, i + c.tokens.length)).Gives 1 (some longest)
        (i + (c.joinAll more).tokens.length) := by
  induction more generalizing c e fuel with
  | nil =>
    obtain ⟨fuel, rfl⟩ : ∃ less, fuel = less + 1 := ⟨fuel - 1, by simp at hfuel; omega⟩
    have hnext := (Feed.stands_append.mp hstands).2.1
    exact ⟨e, hgroups, BinaryLevel.growth_over hnext (fun _ => hcloses.not_tighter) hfirst hk⟩
  | cons link more ih =>
    obtain ⟨fuel, rfl⟩ : ∃ less, fuel = less + 1 := ⟨fuel - 1, by simp at hfuel; omega⟩
    obtain ⟨⟨hop, htighter⟩, hmore⟩ := List.forall_mem_cons.mp hmore
    change W.Stands i (((c.join link.1 link.2).joinAll more).tokens ++ [t]) at hstands
    change i + ((c.join link.1 link.2).joinAll more).tokens.length ≤ W.limit at hlimit
    have hlength : i + (c.join link.1 link.2).tokens.length =
        i + c.tokens.length + 1 + link.2.tokens.length := by
      simp only [Chain.tokens_join, List.length_append, List.length_cons]
      omega
    have hjoined : W.Stands i (c.join link.1 link.2).tokens ∧
        W.Stands (i + (c.join link.1 link.2).tokens.length)
          ((more.flatMap fun link => link.1.token :: link.2.tokens) ++ [t]) := by
      rwa [Chain.tokens_joinAll, List.append_assoc, Feed.stands_append] at hstands
    have hparts := hjoined.1
    rw [Chain.tokens_join, Feed.stands_append] at hparts
    obtain ⟨_, hlink, hpart⟩ := hparts
    have hspan := (c.join link.1 link.2).spanSince_eq hjoined.1
    obtain ⟨t', ht', hcloses'⟩ := part_closed (fun link h => (hmore link h).1) hjoined.2 hcloses
    rw [hlength] at ht' hspan
    have hjoin : i + (c.join link.1 link.2).tokens.length ≤ W.limit := by
      rw [Chain.tokens_joinAll, List.length_append] at hlimit
      omega
    obtain ⟨e', hgroups', hgives⟩ := hparse link.2 (i + c.tokens.length + 1) t' htighter
      (Feed.stands_append.mpr ⟨hpart, ht', trivial⟩) hcloses' (by omega)
    have hgrown : (c.join link.1 link.2).Groups
        ⟨.binOp e link.1.op e', (c.join link.1 link.2).span⟩ := by
      refine .binary ?_ (fun p hp => hop ▸ hlevel p hp) (fun p hp => hop ▸ htighter p hp) hgroups
        hgroups'
      intro hpower
      rw [hpower] at hop
      exact absurd hpow (by rw [← hop]; decide)
    have hlevel' : ∀ p ∈ (c.join link.1 link.2).rest, level ≤ p.1.op.precedence := by
      intro p hp
      rcases List.mem_append.mp hp with hbefore | hafter
      · exact hlevel p hbefore
      · rcases List.mem_cons.mp hafter with rfl | hafter
        · exact Nat.le_of_eq hop.symm
        · exact Nat.le_of_lt (htighter p hafter)
    have hless : more.length < fuel := by
      rw [List.length_cons] at hfuel
      omega
    obtain ⟨longest, hlongest, hgrowth⟩ :=
      ih hgrown hlevel' hmore hstands hlimit (by omega) hless
    rw [hlength] at hgrowth
    exact ⟨longest, hlongest,
      BinaryLevel.growth_longer link.1 hlink hop hgives hspan (by omega) hgrowth⟩

theorem ParsesLevel.lower (hpow : level < 6) (hparse : ParsesLevel W (level + 1)) :
    ParsesLevel W level := by
  obtain ⟨L⟩ := BinaryLevel.of_lt W hpow
  intro c i t hlevel hstands hcloses hlimit
  obtain ⟨first, more, rfl, hfirst, hmore⟩ := c.exists_parts hlevel
  have htokens := Chain.tokens_joinAll first more
  have hparts := hstands
  rw [htokens, List.append_assoc, Feed.stands_append] at hparts
  obtain ⟨t', ht', hcloses'⟩ := part_closed (fun link h => (hmore link h).1) hparts.2 hcloses
  have hcount := Chain.length_le_tokens more
  rw [htokens, List.length_append] at hlimit
  obtain ⟨e, hgroups, hgives⟩ := hparse first i t' hfirst
    (Feed.stands_append.mpr ⟨hparts.1, ht', trivial⟩) hcloses' (by omega)
  have hne := List.length_pos_iff.mpr first.tokens_ne_nil
  have hbound := W.limit_lt
  obtain ⟨longest, hlongest, hgrowth⟩ := growth_gives L hpow hparse hgives hgroups
    (fun p hp => Nat.le_of_lt (hfirst p hp)) hmore hstands hcloses
    (by rw [htokens, List.length_append]; omega) (Nat.le_refl _)
    (show more.length < W.bound by omega)
  refine ⟨longest, hlongest, ?_⟩
  rw [L.reads_eq i (by omega)]
  exact BinaryLevel.growth_operand hgives (by omega) hgrowth

end Growth

theorem ParsesLevel.bitOrExpr (hlettered : ∀ i t, W.token i = .ok t → t.Lettered) :
    ParsesLevel W 0 := by
  have hlevels : ∀ tighter ≤ 6, ParsesLevel W (6 - tighter) := by
    intro tighter htighter
    induction tighter with
    | zero => exact .signedExpr hlettered
    | succ tighter ih =>
      refine .lower (by omega) ?_
      rw [show 6 - (tighter + 1) + 1 = 6 - tighter by omega]
      exact ih (by omega)
  exact hlevels 6 (Nat.le_refl 6)

/-! ### Chains in a source -/

theorem Chain.not_end (c : Chain) {newline : Token} (hnewline : newline.kind = .newline) :
    ∀ t ∈ c.tokens ++ [newline], ¬t.IsEnd := by
  intro t ht hend
  rcases List.mem_append.mp ht with hchain | hlast
  · have hvisible := c.visible t hchain
    rw [hend.1] at hvisible
    cases hvisible
  · cases List.mem_singleton.mp hlast
    cases hnewline.symm.trans hend.1

theorem World.length_le_limit {ts : List Token} (hstands : W.Stands 0 ts)
    (hends : ∀ t ∈ ts, ¬t.IsEnd) : ts.length ≤ W.limit := by
  refine Nat.le_of_not_lt fun hlt => ?_
  have htoken := hstands.token (List.getElem?_eq_getElem hlt)
  rw [Nat.zero_add] at htoken
  exact hends _ (List.getElem_mem hlt) (W.ends _ htoken)

theorem TokenStream.stands {stream : TokenStream} {ts : List Token} {fresh : stream.Fresh}
    {diagnosing : Bool} (h : ∀ k t, ts[k]? = some t → stream.supply k = .ok t) :
    (stream.world fresh diagnosing).Stands 0 ts := by
  have hfrom : ∀ i us, (∀ k t, us[k]? = some t → stream.supply (i + k) = .ok t) →
      (stream.world fresh diagnosing).Stands i us := by
    intro i us hus
    induction us generalizing i with
    | nil => trivial
    | cons u us ih =>
      refine ⟨hus 0 u rfl, ih (i + 1) fun k t ht => ?_⟩
      rw [Nat.add_assoc, Nat.add_comm 1]
      exact hus (k + 1) t ht
  exact hfrom 0 ts (by simpa only [Nat.zero_add] using h)

/-- Operands between binary operators, up to the end of a line, become the one tree that the table
of precedences gives them. -/
theorem Chain.parsed_by_precedence (c : Chain) (newline : Token) (hnewline : newline.kind = .newline)
    (source : Source) (origin : Option Origin) (options : ParseOptions)
    (hsupply : ∀ k t, (c.tokens ++ [newline])[k]? = some t →
      (Program.start source origin options).stream.supply k = .ok t) :
    ∃ tree s, c.Groups tree ∧ (∀ other, c.Groups other → other = tree) ∧
      Parser.runRule grammar Rule.bitOrExpr (Program.start source origin options) =
        .ok (some tree) s ∧
      s.mark = c.tokens.length := by
  have fresh := TokenStream.fresh_ofLexer source options.tabSize origin
  let p := Pass.first _ fresh options.filename
  have hstands : p.world.Stands 0 (c.tokens ++ [newline]) := TokenStream.stands hsupply
  have hlimit := World.length_le_limit hstands (c.not_end hnewline)
  rw [List.length_append] at hlimit
  obtain ⟨tree, hgroups, hgives⟩ := ParsesLevel.bitOrExpr
    (fresh.lettered (List.forall_mem_nil _)) c 0 newline (fun _ _ => Nat.zero_le _)
    hstands (.inl hnewline) (by omega)
  rw [Nat.zero_add] at hgives
  have hat : p.At 0 0 0 (Program.start source origin options) := Pass.first_at
  have hagrees := Pass.rule_agrees (r := Rule.bitOrExpr) governs rules_distinguished
    (memoizedOr_keeps rules_distinguished Parser.failing Parser.failing) rfl hat rfl rfl
  have hrun : Parser.runRule grammar Rule.bitOrExpr =
      Parser.runRuleWith (Parser.memoizedOr Parser.failing) grammar Rule.bitOrExpr := by
    simp only [Parser.runRule, Parser.runRuleWith, Parser.call_eq, Parser.memoized_eq]
  rw [hrun]
  generalize Parser.runRuleWith (Parser.memoizedOr Parser.failing) grammar Rule.bitOrExpr
    (Program.start source origin options) = run at hagrees ⊢
  refine ⟨tree, ?_⟩
  cases hagrees with
  | @ok found stop s hresult hat =>
    cases hresult.symm.trans hgives.result
    exact ⟨s, hgroups, fun other hother => hother.unique hgroups, rfl, hat.mark⟩
  | lexical hresult | fault hresult | endless hresult =>
    cases hresult.symm.trans hgives.result
  | tooDeep _ hdepth =>
    have hshallow : (p.world.answer grammar ranking Rule.bitOrExpr 0).depth ≤ 1 := hgives.depth
    unfold Session.nestingLimit at hdepth
    omega

def signedPowerToken (kind : TokenKind) (text : String) (column : Nat) : Token :=
  ⟨kind, text, ⟨1, column⟩, ⟨1, column + text.length⟩, "-a ** b + c | 1\n"⟩

/-- The operands and operators of `-a ** b + c | 1`. -/
def signedPowerChain : Chain :=
  let token := signedPowerToken
  let a : AtomToken := ⟨token .name "a" 1, .inr ⟨rfl, by decide⟩⟩
  let b : AtomToken := ⟨token .name "b" 6, .inr ⟨rfl, by decide⟩⟩
  let c : AtomToken := ⟨token .name "c" 10, .inr ⟨rfl, by decide⟩⟩
  let one : AtomToken := ⟨token .number "1" 14, .inl rfl⟩
  ⟨⟨[⟨token .op "-" 0, .minus, rfl, by decide⟩], a⟩,
    [(⟨token .op "**" 3, .pow, rfl, rfl⟩, ⟨[], b⟩), (⟨token .op "+" 8, .add, rfl, rfl⟩, ⟨[], c⟩),
      (⟨token .op "|" 12, .bitOr, rfl, rfl⟩, ⟨[], one⟩)]⟩

theorem Chain.parsed_by_precedence_signed_power :
    ∃ tree s, signedPowerChain.Groups tree ∧
      (∀ other, signedPowerChain.Groups other → other = tree) ∧
      Parser.runRule grammar Rule.bitOrExpr
        (Program.start (.ofString "-a ** b + c | 1\n") none .default) = .ok (some tree) s ∧
      s.mark = 8 := by
  have hsupply : ∀ k < 9, ((Program.start (.ofString "-a ** b + c | 1\n") none
        .default).stream.supply k).toOption =
      (signedPowerChain.tokens ++ [signedPowerToken .newline "\n" 15])[k]? := by
    decide +kernel
  refine Chain.parsed_by_precedence signedPowerChain (signedPowerToken .newline "\n" 15) rfl
    (.ofString "-a ** b + c | 1\n") none .default fun k t ht => ?_
  have hsame := (hsupply k (List.getElem?_eq_some_iff.mp ht).1).trans ht
  cases hfound : (Program.start (.ofString "-a ** b + c | 1\n") none .default).stream.supply k with
  | error e => simp [hfound, Except.toOption] at hsame
  | ok found => simpa [hfound, Except.toOption] using hsame

end ShellSyntax
