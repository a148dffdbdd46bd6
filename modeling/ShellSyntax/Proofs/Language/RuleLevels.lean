import ShellSyntax.Proofs.Language.ChainedStatements
import ShellSyntax.Proofs.Language.Spacing
import ShellSyntax.Proofs.Language.Traces
import ShellSyntax.Proofs.Parser.OpenBrackets
import ShellSyntax.Proofs.Parser.Order
import ShellSyntax.Proofs.Trace.Dives

/-!
How deep rules call each other. The limit on brackets alone does not bound it: each link of a chain
adds to it too. With the links of one logical line it is bounded, if no statement holds indented
ones.
-/

namespace ShellSyntax

open ShellSyntax.Language

/-! ### Links in a source -/

/-- How many links there are on a logical line behind all the tokens `before`. -/
def linksBehind (before : List Token) : Nat :=
  before.foldl (fun count t => if t.kind = .newline then 0 else count + t.isLink.toNat) 0

/-- The most links that one logical line holds. -/
def mostLinks (tokens : List Token) : Nat :=
  (tokens.inits.map linksBehind).foldr max 0

theorem linksBehind_concat (before : List Token) (t : Token) :
    linksBehind (before ++ [t]) =
      if t.kind = .newline then 0 else linksBehind before + t.isLink.toNat := by
  simp [linksBehind]

theorem linksBehind_le {before tokens : List Token} (h : before <+: tokens) :
    linksBehind before ≤ mostLinks tokens :=
  List.le_max_of_le' 0 (List.mem_map_of_mem ((List.mem_inits _ _).mpr h)) (Nat.le_refl _)

theorem linksBehind_markers {before after : List Token}
    (hmarkers : ∀ t ∈ after, t.kind = .endMarker) :
    linksBehind (before ++ after) = linksBehind before := by
  induction after using List.reverseRecOn with
  | nil => rw [List.append_nil]
  | append_singleton after t induction =>
    have hkind : t.kind = .endMarker := hmarkers t (by simp)
    rw [← List.append_assoc, linksBehind_concat, if_neg (by simp [hkind]),
      induction fun t ht => hmarkers t (List.mem_append_left _ ht)]
    simp [Token.isLink, hkind]

/-- The tokens that the grammar does not see are no links, and end no line that has not ended. -/
theorem linksBehind_significant (raw : List Token) :
    linksBehind (significant raw) = linksBehind raw := by
  induction raw using List.reverseRecOn with
  | nil => rfl
  | append_singleton raw t induction =>
    rw [significant_concat]
    split
    case isFalse => rw [linksBehind_concat, linksBehind_concat, induction]
    case isTrue hdropped =>
      rw [induction, linksBehind_concat]
      obtain hhidden | ⟨before, hlast, hbefore, hkind⟩ := (isDropped_eq _ _).mp hdropped
      · have hkinds : t.kind ≠ .newline ∧ t.isLink = false := by
          cases hkind : t.kind <;> simp_all [Token.isVisible, Token.isLink]
        rw [if_neg hkinds.1, hkinds.2]
        rfl
      · obtain ⟨first, hfirst⟩ := List.getLast?_eq_some_iff.mp hlast
        rw [if_pos hkind, ← induction, hfirst, linksBehind_concat, if_pos hbefore]

namespace Lexer

variable {source : Source} {tabSize : Nat} {found : List Token} {l : Lexer}

theorem Reaches.linksBehind_le (reached : Reaches source tabSize found l) :
    linksBehind found ≤ mostLinks (ofSource source tabSize).tokens.1 := by
  obtain hfirst | ⟨after, rfl, hmarkers⟩ := reached.found_tokens
  · exact ShellSyntax.linksBehind_le hfirst
  · rw [linksBehind_markers hmarkers]
    exact ShellSyntax.linksBehind_le (List.prefix_refl _)

end Lexer

/-- How many links there are on a logical line in front of a token. -/
def Feed.linksAt (f : Feed) : Nat → Nat
  | 0 => 0
  | i + 1 =>
    match f.token i with
    | .ok t => if t.kind = .newline then 0 else f.linksAt i + t.isLink.toNat
    | .error _ => 0

namespace TokenStream

/-- No statement holds indented ones. -/
def Flat (s : TokenStream) : Prop :=
  ∀ i t, s.supply i = .ok t → t.kind ≠ .indent

variable {source : Source} {tabSize i n : Nat} {origin : Option Origin} {s t : TokenStream}
  {diagnosing : Bool}

theorem Filled.linksAt (filled : Filled s n t) (fresh : s.Fresh) (hi : i ≤ n) :
    (s.world fresh diagnosing).linksAt i = linksBehind (t.tokens.toList.take i) := by
  induction i with
  | zero => rfl
  | succ i induction =>
    obtain ⟨token, htoken, hsupply⟩ := filled.supply hi
    have hworld : (s.world fresh diagnosing).token i = .ok token := hsupply
    have hfound : t.tokens.toList[i]? = some token := by
      rw [Array.getElem?_toList, htoken]
    rw [Feed.linksAt, hworld, List.take_add_one, hfound, Option.toList_some, linksBehind_concat,
      induction (Nat.le_of_succ_le hi)]

theorem linksAt_le (fresh : (ofLexer (.ofSource source tabSize) origin).Fresh) (i : Nat) :
    ((ofLexer (.ofSource source tabSize) origin).world fresh diagnosing).linksAt i ≤
      mostLinks (Lexer.ofSource source tabSize).tokens.1 := by
  cases i with
  | zero => exact Nat.zero_le _
  | succ i =>
    cases htoken : ((ofLexer (.ofSource source tabSize) origin).world fresh diagnosing).token i with
    | error e =>
      rw [Feed.linksAt, htoken]
      exact Nat.zero_le _
    | ok token =>
      obtain ⟨t, hfilled, _⟩ := supplied htoken
      have filled := fresh.filled hfilled
      obtain ⟨handedOut, reached, htokens⟩ := (holds_filled hfilled).read
      have hlength : t.tokens.toList.length ≤ i + 1 := by
        rw [Array.length_toList, filled.size]
      rw [filled.linksAt fresh (Nat.le_refl _), List.take_of_length_le hlength, htokens,
        linksBehind_significant]
      exact reached.linksBehind_le

theorem flat_of_tokens (h : ∀ t ∈ (Lexer.ofSource source tabSize).tokens.1, t.kind ≠ .indent) :
    (ofLexer (.ofSource source tabSize) origin).Flat := by
  intro i t ht hkind
  obtain ⟨found, l, reached, hmem⟩ := supply_found ht
  obtain htokens | hmarker := reached.mem_tokens hmem
  · exact h t htokens hkind
  · cases hkind.symm.trans hmarker

/-- The chains of a source without indented blocks. -/
noncomputable def chains (fresh : (ofLexer (.ofSource source tabSize) origin).Fresh)
    (diagnosing : Bool) (hflat : (ofLexer (.ofSource source tabSize) origin).Flat) :
    Chains ((ofLexer (.ofSource source tabSize) origin).world fresh diagnosing) where
  ahead i := mostLinks (Lexer.ofSource source tabSize).tokens.1 -
    ((ofLexer (.ofSource source tabSize) origin).world fresh diagnosing).linksAt i
  most := mostLinks (Lexer.ofSource source tabSize).tokens.1
  ahead_le i := Nat.sub_le _ _
  ahead_next i t ht hkind := by
    have hnext : Feed.linksAt (world _ fresh diagnosing).toFeed (i + 1) ≤ _ :=
      linksAt_le fresh (i + 1)
    rw [Feed.linksAt, ht] at hnext ⊢
    simp only [hkind, if_false] at hnext ⊢
    omega
  flat := hflat

end TokenStream

/-! ### The grammar -/

namespace Language

section Bodies

variable {W : World} (C : Chains W) (r : Rule) (i : Nat)

/-- What the body of a rule may spend: less than the rule itself, if the rule is recorded. -/
def bodyBudget : Budget where
  free s j := r.policy = .leftRecursive ∧ s = r ∧ j = i
  here := C.cost r i + 1 - @Survey.fall rules r
  deeper := C.cost r i + storey

variable {C r i}

theorem fall_le_one : @Survey.fall rules r ≤ 1 := by
  unfold Survey.fall
  split <;> omega

theorem ample_body : (bodyBudget C r i).Ample (C.left r i) where
  here := by
    have hfall := @fall_le_one r
    simp only [bodyBudget, Chains.cost]
    omega
  deeper := by
    simp only [bodyBudget, Chains.cost, Nat.mul_succ]
    omega

theorem affords_body {s : Rule} (hlines : spansLines s = true → spansLines r = true)
    (hheight : height s + @Survey.fall rules r ≤ height r) :
    Affords C (bodyBudget C r i) (C.left r i) s where
  most hs := by
    unfold Chains.left
    rw [if_pos (hlines hs)]
  here := by
    simp only [bodyBudget, Chains.cost]
    omega
  deeper := ample_body.deeper

theorem ahead_le_left : C.ahead i ≤ C.left r i := by
  unfold Chains.left
  split
  · exact C.ahead_le i
  · exact Nat.le_refl _

theorem descends_self (hpolicy : r.policy = .leftRecursive) :
    Descends W C.Ends ((bodyBudget C r i).allowance C) (@Matcher.rule rules r) i fun _ j =>
      C.ahead j ≤ C.left r i := by
  refine ⟨.inl ⟨hpolicy, rfl, rfl⟩, fun found j hends => ?_⟩
  have hline : spansLines r = false := by
    cases r <;> first | rfl | cases hpolicy
  exact Nat.le_trans (hends hline) ahead_le_left

theorem body_descends (r : Rule) :
    Descends W C.Ends ((bodyBudget C r i).allowance C) (body r) i fun _ j =>
      C.ahead j ≤ C.left r i := by
  have affords {s : Rule} (hlines : spansLines s = true → spansLines r = true)
      (hheight : height s + @Survey.fall rules r ≤ height r) :
      Affords C (bodyBudget C r i) (C.left r i) s := affords_body hlines hheight
  have hi : C.ahead i ≤ C.left r i := ahead_le_left
  cases r with
  | program => exact programRule_moves (affords (by decide) (by decide)) i hi
  | soleExpr =>
    exact soleExprRule_moves (affords (by decide) (by decide)) (Nat.le_refl _) i hi
  | stmtList => exact stmtListRule_moves (affords (by decide) (by decide)) i hi
  | smallStmt => exact smallStmtRule_moves (affords (by decide) (by decide)) i hi
  | suite => exact suiteRule_moves (affords (by decide) (by decide)) i hi
  | elifBranch => exact branch_moves (affords (by decide) (by decide)) i hi
  | exprOrSpread =>
    exact spreadOr_moves (affords (by decide) (by decide))
      (.rule (affords (by decide) (by decide))) i hi
  | bindingExpr => exact bindingExprRule_moves (affords (by decide) (by decide)) i hi
  | expr => exact exprRule_moves (affords (by decide) (by decide)) i hi
  | orExpr | andExpr =>
    exact boolOperands_moves (.rule (affords (by decide) (by decide))) i hi
  | notExpr => exact notExprRule_moves (affords (by decide) (by decide)) i hi
  | bitOrExpr | bitXorExpr | bitAndExpr | shiftedExpr | addExpr | mulExpr =>
    exact leftAssoc_descends hi (descends_self rfl) (.rule (affords (by decide) (by decide)))
  | signedExpr => exact signedExprRule_moves (affords (by decide) (by decide)) i hi
  | awaitExpr => exact awaitExprRule_moves (affords (by decide) (by decide)) i hi
  | postfixExpr =>
    exact postfixExprRule_descends hi (descends_self rfl) (affords (by decide) (by decide))
  | atomicExpr => exact atomicExprRule_moves (affords (by decide) (by decide)) i hi
  | stringRun => exact stringRunRule_moves ample_body i hi
  | commandExpr => exact commandExprRule_moves ample_body i hi
  | targetItem => exact targetItemRule_moves (affords (by decide) (by decide)) i hi
  | fstringInside raw =>
    cases raw <;> exact fstringInsideRule_moves (affords (by decide) (by decide)) i hi

end Bodies

/-- Each rule has the room that its cost and the brackets still allowed give it. -/
noncomputable def survey (p : Pass) (C : Chains p.world) (limit : Nat) : Survey rules where
  pass := p
  ranking := ranking
  ends := C.Ends
  room r depth i := C.cost r i + storey * (Session.nestingLimit - depth)
  limit := limit

theorem survey_charts (p : Pass) (C : Chains p.world) (limit : Nat) :
    (survey p C limit).Charts grammar where
  governs := governs
  distinguishes := rules_distinguished
  reflexive r i _ := Nat.le_refl _
  bodies r depth i hdepth := by
    refine (body_descends (i := i) r).widen ⟨fun s j hallowed => ?_, fun s j hallowed => ?_⟩
      fun _ j hj hline => ?_
    · refine hallowed.imp_right fun hless => ?_
      have hfall := @fall_le_one r
      have hcost : C.cost s j < C.cost r i + 1 - @Survey.fall rules r := hless
      show C.cost s j + storey * (Session.nestingLimit - depth) + @Survey.fall rules r ≤
        C.cost r i + storey * (Session.nestingLimit - depth)
      omega
    · intro depth' hdeeper hlimit
      have hfall := @fall_le_one r
      have hcost : C.cost s j < C.cost r i + storey := hallowed
      have hroom := Nat.mul_le_mul_left storey
        (show Session.nestingLimit - depth' + 1 ≤ Session.nestingLimit - depth by omega)
      rw [Nat.mul_succ] at hroom
      show C.cost s j + storey * (Session.nestingLimit - depth') + @Survey.fall rules r ≤
        C.cost r i + storey * (Session.nestingLimit - depth)
      omega
    · unfold Chains.left at hj
      rwa [if_neg (by simp [hline])] at hj

end Language

namespace Program

variable {source : Source} {origin : Option Origin} {options : ParseOptions}

/-- Where no statement holds indented ones, no rule is entered deeper than the limit on brackets and
the links of the logical line with most of them account for. -/
theorem levels_bounded (source : Source) (origin : Option Origin) (options : ParseOptions)
    (hflat : (TokenStream.ofLexer (.ofSource source options.tabSize) origin).Flat)
    (limit : Option Nat) :
    (traced source origin options limit).2.Confined (storey * (Session.nestingLimit +
      mostLinks (Lexer.ofSource source options.tabSize).tokens.1) + 24) := by
  have fresh := TokenStream.fresh_ofLexer source options.tabSize origin
  let p := Pass.first _ fresh options.filename
  let C := TokenStream.chains fresh false hflat
  let V := survey p C (storey * (Session.nestingLimit +
    mostLinks (Lexer.ofSource source options.tabSize).tokens.1) + 24)
  have hsecond : V.second.Charts grammar :=
    survey_charts p.second (TokenStream.chains fresh true hflat) _
  have hroom (mode : ParseMode) : V.room mode.entry 0 0 ≤ V.limit := by
    have hcost : C.cost mode.entry 0 = 24 + storey * C.most := by cases mode <;> rfl
    show C.cost mode.entry 0 + storey * (Session.nestingLimit - 0) ≤ storey * (_ + C.most) + 24
    rw [hcost, Nat.mul_add, Nat.sub_zero]
    omega
  have hparsed := V.parse_confined limit (survey_charts p C _) hsecond rfl
    options.mode.isEntry_entry (hroom options.mode)
  unfold traced parse
  cases hmode : options.mode with
  | exec =>
    rw [hmode] at hparsed
    exact hparsed
  | eval =>
    rw [hmode] at hparsed
    exact hparsed

/-- A prefix operator and a negated operand are two links. -/
theorem levels_bounded_of_chain :
    mostLinks (Lexer.ofSource (.ofString "x = -f(not y)\n") 8).tokens.1 = 2 ∧
      (traced (.ofString "x = -f(not y)\n") none .default (some 100)).2.Confined 4064 := by
  have hlinks : mostLinks (Lexer.ofSource (.ofString "x = -f(not y)\n") 8).tokens.1 = 2 := by
    decide +kernel
  have hconfined := levels_bounded (.ofString "x = -f(not y)\n") none .default
    (TokenStream.flat_of_tokens (by decide +kernel)) (some 100)
  rw [show ParseOptions.default.tabSize = 8 from rfl, hlinks] at hconfined
  exact ⟨hlinks, hconfined⟩

end Program

/-! ### Chains without end -/

namespace Language

open Arithmetic Matcher

variable {W : World} {i n deep : Nat} {t : Token}

theorem spells_of_minus (h : t.word = Sign.minus.word) (text : String) :
    t.spells text = ("-" == text) := by
  obtain ⟨hkind, htext⟩ := Word.mk.inj h
  rw [Token.spells, hkind, htext]
  rfl

theorem oneOf_first {α β : Type} {failed : Rule → Nat → Prop} {r : Rule} {j : Nat} {text : String}
    {value : α} {others : List (String × α)} {f : Option α → Match β} (ht : W.token i = .ok t)
    (h : if t.spells text then CallsFirst W failed r j (f (some value)) (i + 1)
      else CallsFirst W failed r j ((oneOf others).bind f) i) :
    CallsFirst W failed r j ((oneOf ((text, value) :: others)).bind f) i := by
  unfold oneOf
  change CallsFirst W failed r j (((accepts text).bind _).bind f) i
  rw [bind_assoc]
  split at h
  case isTrue hspells => exact .accepts ht hspells h
  case isFalse hspells => exact .not_accepts ht (Bool.not_eq_true _ ▸ hspells) h

theorem signedExprRule_first {failed : Rule → Nat → Prop} (ht : W.token i = .ok t)
    (hminus : t.word = Sign.minus.word) :
    CallsFirst W failed Rule.signedExpr (i + 1) signedExprRule i := by
  refine .mark (oneOf_first ht ?_)
  rw [spells_of_minus hminus]
  refine oneOf_first ht ?_
  rw [spells_of_minus hminus]
  exact .bind .rule _

theorem grows_first {α : Type} {r r' : Rule} {j : Nat} {f : Option r.Node → Match α}
    (hpolicy : r.policy = .leftRecursive)
    (h : CallsFirst W (@GrowsAt rules r i) r' j (f none) i) :
    CallsFirst W (@GrowsAt rules r i) r' j ((@Matcher.rule rules r).bind f) i :=
  .rule_fails ⟨hpolicy, rfl, rfl⟩ h

theorem leftAssoc_first {failed : Rule → Nat → Prop} {this operand : Match (Option Expr)} {r : Rule}
    (hthis : ∀ f : Option Expr → Match (Option Expr), CallsFirst W failed r i (f none) i →
      CallsFirst W failed r i (this.bind f) i)
    (hoperand : CallsFirst W failed r i operand i) (ops : List BinOp) :
    CallsFirst W failed r i (leftAssoc ops this operand) i :=
  .mark (hthis _ (.reset (Nat.le_refl i) hoperand))

theorem boolOperands_first {failed : Rule → Nat → Prop} {operand : Match (Option Expr)} {r : Rule}
    (hoperand : CallsFirst W failed r i operand i) (op : BoolOp) (keyword : String) :
    CallsFirst W failed r i (boolOperands op keyword operand) i :=
  .mark (.bind (.bind hoperand _) _)

theorem notExprRule_first {failed : Rule → Nat → Prop} (ht : W.token i = .ok t)
    (hminus : t.word = Sign.minus.word) :
    CallsFirst W failed Rule.bitOrExpr i notExprRule i :=
  .mark (.not_accepts ht (spells_of_minus hminus "not") (.mark (.bind .rule _)))

theorem exprRule_first {failed : Rule → Nat → Prop} (hquiet : W.diagnosing = false) :
    CallsFirst W failed Rule.orExpr i exprRule i := by
  refine .isDiagnosing ?_
  rw [hquiet]
  exact .mark (.bind .rule _)

theorem soleExprRule_first {failed : Rule → Nat → Prop} :
    CallsFirst W failed Rule.expr i soleExprRule i :=
  .bind (.mark (.bind .rule _)) _

theorem signs_descent
    (hsigns : ∀ k < n, ∃ t, W.token (i + k) = .ok t ∧ t.word = Sign.minus.word)
    (hlimit : i + n ≤ W.limit) : Descent W ranking grammar Rule.signedExpr i n := by
  induction n generalizing i with
  | zero => exact .here (by decide)
  | succ n induction =>
    obtain ⟨t, ht, hminus⟩ := hsigns 0 (Nat.succ_pos n)
    have hbelow : Descent W ranking grammar Rule.signedExpr (i + 1) n :=
      induction (fun k hk => by
        rw [Nat.add_assoc, Nat.add_comm 1]
        exact hsigns (k + 1) (Nat.succ_lt_succ hk)) (by omega)
    exact .step ⟨rfl, by omega, .inl (Nat.lt_succ_self i)⟩ (signedExprRule_first ht hminus) hbelow

theorem sole_descent (hquiet : W.diagnosing = false)
    (hsigns : ∀ k < n + 1, ∃ t, W.token k = .ok t ∧ t.word = Sign.minus.word)
    (hlimit : n + 1 ≤ W.limit) : Descent W ranking grammar Rule.soleExpr 0 (n + 11) := by
  have step {r r' : Rule} {deep : Nat} (hentry : r'.isEntry = false) (hrank : r'.rank < r.rank)
      (hfirst : CallsFirst W (@GrowsAt rules r 0) r' 0 (body r) 0)
      (hbelow : Descent W ranking grammar r' 0 deep) :
      Descent W ranking grammar r 0 (deep + @Survey.fall rules r) :=
    .step ⟨hentry, Nat.zero_le _, .inr ⟨rfl, hrank⟩⟩ hfirst hbelow
  obtain ⟨t, ht, hminus⟩ := hsigns 0 (Nat.succ_pos n)
  have hsigned : Descent W ranking grammar Rule.signedExpr 0 (n + 1) :=
    signs_descent (by simpa using hsigns) (by omega)
  have hmul := step (r := .mulExpr) rfl (by decide)
    (leftAssoc_first (fun _ => grows_first rfl) .rule _) hsigned
  have hadd := step (r := .addExpr) rfl (by decide)
    (leftAssoc_first (fun _ => grows_first rfl) .rule _) hmul
  have hshifted := step (r := .shiftedExpr) rfl (by decide)
    (leftAssoc_first (fun _ => grows_first rfl) .rule _) hadd
  have hbitAnd := step (r := .bitAndExpr) rfl (by decide)
    (leftAssoc_first (fun _ => grows_first rfl) .rule _) hshifted
  have hbitXor := step (r := .bitXorExpr) rfl (by decide)
    (leftAssoc_first (fun _ => grows_first rfl) .rule _) hbitAnd
  have hbitOr := step (r := .bitOrExpr) rfl (by decide)
    (leftAssoc_first (fun _ => grows_first rfl) .rule _) hbitXor
  have hnot := step (r := .notExpr) rfl (by decide) (notExprRule_first ht hminus) hbitOr
  have hand := step (r := .andExpr) rfl (by decide) (boolOperands_first .rule _ _) hnot
  have hor := step (r := .orExpr) rfl (by decide) (boolOperands_first .rule _ _) hand
  have hexpr := step (r := .expr) rfl (by decide) (exprRule_first hquiet) hor
  exact step (r := .soleExpr) rfl (by decide) soleExprRule_first hexpr

end Language

namespace Arithmetic

/-- A name behind so many signs. -/
def negated : Nat → Formula
  | 0 => .name ⟨"x", ⟨'x', [], by decide, by decide +kernel, by simp⟩, by decide⟩
  | n + 1 => .signed .minus (negated n)

theorem negated_words (n : Nat) :
    (negated n).words = List.replicate n Sign.minus.word ++ [⟨.name, "x"⟩] := by
  induction n with
  | zero => rfl
  | succ n induction => rw [negated, Formula.words, induction, List.replicate_succ]; rfl

end Arithmetic

theorem TokenStream.Spells.flat {source : Source} {tabSize : Nat} {origin : Option Origin}
    {ws : List Word}
    (h : (TokenStream.ofLexer (.ofSource source tabSize) origin).Spells ws)
    (hwords : ∀ w ∈ ws, w.kind ≠ .indent) :
    (TokenStream.ofLexer (.ofSource source tabSize) origin).Flat := by
  intro i t ht hkind
  obtain ⟨newline, hnewline, hline⟩ := h.newline
  obtain ⟨marker, hmarker, hend⟩ := h.endMarker
  obtain hlt | rfl | rfl | hlater : i < ws.length ∨ i = ws.length ∨ i = ws.length + 1 ∨
      ws.length + 1 < i := by omega
  · obtain ⟨t', ht', hword⟩ := h.word i ws[i] (List.getElem?_eq_getElem hlt)
    cases ht.symm.trans ht'
    exact hwords _ (List.getElem_mem hlt) (hword ▸ hkind)
  · cases ht.symm.trans hnewline
    cases hkind.symm.trans hline
  · cases ht.symm.trans hmarker
    cases hkind.symm.trans hend
  · cases hkind.symm.trans (TokenStream.supply_ended hmarker hend hlater ht)

namespace Program

open Arithmetic

variable {source : Source} {origin : Option Origin} {options : ParseOptions} {deep : Nat}

theorem traced_deep
    (h : Dives deep (Parser.runRuleWith Parser.memoizedOnward grammar options.mode.entry)
      (start source origin { options with traceLimit := none })) :
    ∃ limit log rule mark depth, (traced source origin options (some limit)).2.trace = some log ∧
      .enter rule mark depth ∈ log.events ∧ deep ≤ depth := by
  obtain ⟨events, hrecords, rule, mark, depth, hmem, hdepth⟩ := h
  obtain ⟨later, hrecorded⟩ := parseWith_recorded hrecords
  let all := events ++ later
  have hrun := parse_onward source origin { options with traceLimit := some all.length }
  have htrace := hrecorded (some (.empty all.length))
  refine ⟨all.length, (TraceLog.empty all.length).pushAll all, rule, mark, depth, ?_, ?_, hdepth⟩
  · unfold traced
    rw [hrun]
    exact congrArg (fun outcome => outcome.2.trace) htrace
  · rw [TraceLog.pushAll_empty, List.take_length]
    simp [all, hmem]

/-- The limit on brackets bounds no levels: behind each sign there is one more. -/
theorem levels_unbounded :
    ¬∃ bound, ∀ (source : Source) (origin : Option Origin) (options : ParseOptions),
      (TokenStream.ofLexer (.ofSource source options.tabSize) origin).Flat →
        ∀ limit, (traced source origin options limit).2.Confined bound := by
  rintro ⟨bound, hbound⟩
  let f := negated (bound + 1)
  let options : ParseOptions := { ParseOptions.default with mode := .eval }
  let source : Source := .ofText (spread [' '] f.words)
  have hspells : (TokenStream.ofLexer (.ofSource source options.tabSize) none).Spells f.words :=
    f.spells (.inl rfl) options.tabSize none
  have hwords : f.words = _ := negated_words (bound + 1)
  have hflat := hspells.flat (by simp [hwords, Sign.word])
  have fresh := TokenStream.fresh_ofLexer source options.tabSize none
  let p := Pass.first _ fresh options.filename
  have hsigns : ∀ k < bound + 1, ∃ t, p.world.token k = .ok t ∧ t.word = Sign.minus.word := by
    intro k hk
    exact hspells.word k _ (by simp [hwords, List.getElem?_append_left, hk])
  have hlimit : bound + 1 ≤ p.world.limit := by
    obtain ⟨t, ht, hminus⟩ := hsigns bound (Nat.lt_succ_self bound)
    exact TokenStream.lt_limit ht (by rw [show t.kind = _ from congrArg Word.kind hminus]; decide)
  have hat : p.At 0 0 0 (start source none { options with traceLimit := none }) := Pass.first_at
  have hdives : Dives (bound + 11)
      (Parser.runRuleWith Parser.memoizedOnward grammar options.mode.entry)
      (start source none { options with traceLimit := none }) :=
    runRuleWith_dives rules_distinguished (sole_descent rfl hsigns hlimit) hat rfl rfl rfl
  obtain ⟨limit, log, rule, mark, depth, hlog, hmem, hdepth⟩ := traced_deep hdives
  have hconfined := hbound source none options hflat (some limit) log hlog rule mark depth hmem
  omega

end Program

end ShellSyntax
