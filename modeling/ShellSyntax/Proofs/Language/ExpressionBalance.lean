import ShellSyntax.Language.Primary
import ShellSyntax.Proofs.Language.Balance

/-! Expressions and their literals close what they open. -/

namespace ShellSyntax.Language

open Matcher

variable {W : TalliedWorld} {n : W.Level} {S S' : W.Scope} {i j k : Nat}

/-! ### Named and conditional expressions -/

theorem unbound_settles : Settles W n (do
    if ← isDiagnosing then rejectBinding
    let some value ← expr | return none
    if ← lookahead (spelled ":=") then giveUp i else return some value) i := by
  refine fun safe => diagnosed inspect_back (tries (.called safe) (fun value j hj => ?_) rfl)
  refine .lookahead fun found => ?_
  split
  · exact giveUp_settles
  · exact hj

theorem bindingExprRule_settles : Settles W n bindingExprRule i := by
  refine fun safe => .mark (.name (fun name ht hkind => ?_) (unbound_settles safe))
  have hname : W.Closes (W.hostRoom n) i (i + 1) := closes_ofKind ht (by simp [hkind])
  refine ifReads (fun spells => .spanSince ?_) (.reset (unbound_settles safe))
  have hbinds := hname.trans (spells.closes (by decide))
  exact tries (.called (hbinds.safe safe)) (fun _ _ hj => node_settles (hbinds.trans hj))
    giveUp_settles

theorem ifElseTail_settles : Settles W n ifElseTail i := by
  refine attempt_settles fun safe => expects fun spells => ?_
  have hif : W.Closes (W.hostRoom n) i (i + 1) := spells.closes (by decide)
  refine needs (Returns.since (.called ·) hif safe) rfl fun test j hj => ?_
  refine expects fun spells => ?_
  have helse := hj.trans (spells.closes (by decide))
  exact needs (Returns.since (.called ·) helse safe) rfl fun _ _ hk => hk

theorem defaulted_ends {id : Token} { annotation : Option Expr} (h : W.Closes (W.hostRoom n) k i)
    (safe : (W.hostRoom n).Safe k) :
    Comes W n (do
      let mut default := none
      if ← accepts "=" then
        let some value ← expr | return none
        default := some value
      return some ⟨id.text, annotation, default⟩ : Match (Option Parameter)) i
      (W.Ends (W.hostRoom n) k) := by
  refine ifReads (fun spells => ?_) h
  have hequals := h.trans (spells.closes (by decide))
  exact needs (Returns.since (.called ·) hequals safe) rfl fun _ _ hj => hj

theorem namedParameter_settles {annotated : Bool} : Settles W n (namedParameter annotated) i := by
  refine attempt_settles fun safe => .name (fun id ht hkind => ?_) trivial
  have hname : W.Closes (W.hostRoom n) i (i + 1) := closes_ofKind ht (by simp [hkind])
  cases annotated with
  | false => exact defaulted_ends hname safe
  | true =>
    refine ifReads (fun spells => ?_) (defaulted_ends hname safe)
    have hcolon := hname.trans (spells.closes (by decide))
    exact needs (Returns.since (.called ·) hcolon safe) rfl fun _ _ hj => defaulted_ends hj safe

theorem parameterItem_ends {annotated : Bool} {state : ParameterState} :
    Finishes W n (W.hostRoom n) (parameterItem annotated state) i := by
  obtain ⟨args, afterStar⟩ := state
  refine fun safe => ifReads (fun spells => spells.closes (by decide)) ?_
  refine ifReads (fun spells => ?_) (ifReads (fun spells => ?_) ?_)
  · exact needs (namedParameter_settles.since (spells.closes (by decide)) safe) rfl fun _ _ hj => hj
  · have hstar : W.Closes (W.hostRoom n) i (i + 1) := spells.closes (by decide)
    refine .bind ((closes_of_settles (namedParameter_settles (hstar.safe safe))).mono ?_)
    exact fun p j hj => hstar.trans hj
  · refine needs (finishes namedParameter_settles safe) rfl fun p j hj => ?_
    cases afterStar with
    | true => exact hj
    | false => exact hj

theorem parameterList_settles {annotated : Bool} {close : String} :
    Settles W n (parameterList annotated close) i := by
  refine attempt_settles fun safe => .loop (fun _ j => W.Closes (W.hostRoom n) i j) (.refl i) ?_
  refine fun state j hj => .lookahead fun found => ?_
  split
  · exact hj
  · refine .bind ((parameterItem_ends (hj.safe safe)).mono ?_)
    rintro (_ | state) k hk
    · trivial
    · refine ifReads (fun spells => ?_) (hj.trans hk)
      exact (hj.trans hk).trans (spells.closes (by decide))

theorem lambdaExpr_settles : Settles W n lambdaExpr i := by
  refine attempt_settles fun safe => expects fun spells => ?_
  refine needs (parameterList_settles.since (spells.closes (by decide)) safe) rfl ?_
  intro args j hj
  refine expects fun spells => ?_
  have hcolon := hj.trans (spells.closes (by decide))
  exact needs (Returns.since (.called ·) hcolon safe) rfl fun _ _ hk => node_ends hk

theorem exprRule_settles : Settles W n exprRule i := by
  refine fun safe => diagnosed inspect_back (.mark (tries (.called safe) (fun body j hj => ?_)
    (lambdaExpr_settles safe)))
  exact tries (ifElseTail_settles (hj.safe safe)) (fun _ _ hk => node_settles (hj.trans hk)) hj

/-! ### Boolean operators and comparisons -/

theorem boolOperands_settles {op : BoolOp} {keyword : String} {operand : Match (Option Expr)}
    (hkeyword : isNoBracket keyword = true) (hoperand : ∀ j, Settles W n operand j) :
    Settles W n (boolOperands op keyword operand) i := by
  have hoperands : Settles W n (separated keyword operand) i :=
    separated_settles (·.closes_hosted hkeyword) hoperand
  refine fun safe => .mark (tries (hoperands safe) (fun values j hj => ?_) rfl)
  rcases values with _ | ⟨value, _ | ⟨other, others⟩⟩
  · exact node_settles hj
  · exact hj
  · exact node_settles hj

theorem notIn_settles : Settles W n notIn i :=
  attempt_settles fun _ => expects fun first => expects fun second =>
    (first.closes (by decide)).trans (second.closes (by decide))

theorem comparisonOperator_settles : Settles W n comparisonOperator i := by
  refine fun safe => tries (oneOf_settles (by decide)) (fun _ _ hj => hj) ?_
  refine tries (notIn_settles safe) (fun _ _ hj => hj) (ifReads (fun first => ?_) rfl)
  exact ifReads (fun second => (first.closes (by decide)).trans (second.closes (by decide)))
    (first.closes (by decide))

theorem comparisonTail_settles : Settles W n comparisonTail i :=
  attempt_settles fun safe => needs (finishes comparisonOperator_settles safe) rfl fun _ _ hj =>
    needs (Returns.since (.called ·) hj safe) rfl fun _ _ hk => hk

theorem comparison_settles : Settles W n comparison i := by
  refine fun safe => .mark (tries (.called safe) (fun left j hj => .bind ?_) rfl)
  have htails := many_closes (fun _ => finishes comparisonTail_settles) (hj.safe safe)
  refine htails.mono fun tails k hk => ?_
  have hchain := hj.trans hk
  cases tails with
  | nil => exact hchain
  | cons tail tails => exact node_settles hchain

theorem notExprRule_settles : Settles W n notExprRule i := by
  refine fun safe => .mark (ifReads (fun spells => ?_) (comparison_settles safe))
  have hnot : W.Closes (W.hostRoom n) i (i + 1) := spells.closes (by decide)
  exact tries (.called (hnot.safe safe)) (fun _ _ hj => node_settles (hnot.trans hj)) giveUp_settles

/-! ### Binary and prefix operators -/

theorem isNoBracket_symbol (op : BinOp) : isNoBracket op.symbol = true := by
  cases op <;> decide

theorem binaryTail_ends {start : Nat} {left : Expr} {operand : Match (Option Expr)}
    {ops : List BinOp} (h : W.Closes (W.hostRoom n) start i) (safe : (W.hostRoom n).Safe start)
    (hoperand : ∀ j, Settles W n operand j) :
    Comes W n (binaryTail start i left operand ops) i (W.Ends (W.hostRoom n) start) := by
  induction ops with
  | nil => trivial
  | cons op ops induction =>
    refine ifReads (fun spells => ?_) (.reset induction)
    have hsymbol := h.trans (spells.closes_hosted (isNoBracket_symbol op))
    exact tries (hoperand (i + 1) (hsymbol.safe safe))
      (fun _ _ hj => node_ends (hsymbol.trans hj)) (.reset induction)

theorem leftAssoc_settles {ops : List BinOp} {this operand : Match (Option Expr)}
    (hthis : Settles W n this i) (hoperand : ∀ j, Settles W n operand j) :
    Settles W n (leftAssoc ops this operand) i := by
  intro safe
  have hrestart (j : Nat) :
      Comes W n (reset i >>= fun _ => operand) j (W.Rests (W.hostRoom n) i) :=
    .reset (hoperand i safe)
  refine .mark (tries (hthis safe) (fun left j hj => .mark (.bind ?_)) (hrestart i))
  refine (binaryTail_ends hj safe hoperand).mono ?_
  rintro (_ | longer) k hk
  · exact hrestart k
  · exact hk

theorem powerExpr_settles : Settles W n powerExpr i := by
  refine fun safe => .mark (tries (.called safe) (fun base j hj => .mark ?_) rfl)
  refine ifReads (fun spells => ?_) hj
  have hsymbol := hj.trans (spells.closes (by decide))
  exact tries (.called (hsymbol.safe safe)) (fun _ _ hk => node_settles (hsymbol.trans hk))
    (.reset hj)

theorem signedExprRule_settles : Settles W n signedExprRule i := by
  intro safe
  have hsign : Comes W n (oneOf prefixOperators) i (W.Rests (W.hostRoom n) i) :=
    oneOf_settles (by decide)
  refine .mark (tries hsign (fun op j hj => ?_) (powerExpr_settles safe))
  exact tries (.called (hj.safe safe)) (fun _ _ hk => node_settles (hj.trans hk)) giveUp_settles

theorem awaitExprRule_settles : Settles W n awaitExprRule i := by
  refine fun safe => .mark (ifReads (fun spells => ?_) (.called safe))
  have hawait : W.Closes (W.hostRoom n) i (i + 1) := spells.closes (by decide)
  exact tries (.called (hawait.safe safe)) (fun _ _ hj => node_settles (hawait.trans hj))
    giveUp_settles

/-! ### Literals -/

theorem ofKind_settles {kind : TokenKind}
    (hkind : kind ≠ .op ∧ kind ≠ .fstringStart ∧ kind ≠ .fstringEnd) :
    Returns W n S (ofKind kind) i := by
  refine fun _ => .peek fun t ht => ?_
  split
  case isTrue hmatch => exact .next fun _ _ => closes_ofKind ht (beq_iff_eq.mp hmatch ▸ hkind)
  case isFalse => exact rfl

theorem fstringLiteral_settles : Returns W n (W.room n) fstringLiteral i := by
  refine attempt_settles fun safe => .ofKind (fun opening ht hkind => ?_) trivial
  have hopen := NestedWorld.openAt_fstring ht hkind
  have enters : W.Enters (W.room n) (W.stringRoom n) i :=
    ⟨⟨_, hopen⟩, fun hroom => hopen ▸ ⟨hroom, rfl⟩⟩
  have hinside (raw : Bool) : Returns W n (W.stringRoom n) (fstringInside raw) (i + 1) :=
    (.called ·)
  refine needs (finishes (hinside _) (enters.safe safe)) rfl fun parts j hj => ?_
  refine .acceptsKind (fun ending ht' hkind' => ?_) trivial
  exact .enclosed enters hj (NestedWorld.shuts_fstring ht' hkind')

theorem stringRunRule_settles : Returns W n (W.room n) stringRunRule i := by
  refine fun safe => .mark (.bind ?_)
  refine .loop (fun g j => W.Closes (W.room n) i j ∧ (g.count = 0 → j = i))
    ⟨.refl i, fun _ => rfl⟩ ?_
  rintro g j ⟨hj, hcount⟩
  refine .ofKind (fun token ht hkind => ?_) (tries (fstringLiteral_settles (hj.safe safe)) ?_ ?_)
  · exact ⟨hj.trans (closes_ofKind ht (by simp [hkind])), nofun⟩
  · exact fun _ k hk => ⟨hj.trans hk, nofun⟩
  · change Comes W n (if g.count = 0 then _ else _ : Match (Option Expr)) j (W.Rests (W.room n) i)
    split
    case isTrue hnone => exact hcount hnone
    case isFalse => exact .spanSince hj

theorem conversion_settles : Returns W n S conversion i := by
  refine attempt_settles fun _ => .spelledAs (fun mark ht hkind htext => ?_) trivial
  refine .name (fun letter ht' hkind' => ?_) trivial
  have spells : W.Spells i "!" := ⟨mark, ht, hkind, htext⟩
  dsimp only
  split
  · exact (spells.closes (by decide)).trans (closes_ofKind ht' (by simp [hkind']))
  · trivial

theorem formatField_settles {raw : Bool} : Returns W n (W.stringRoom n) (formatField raw) i := by
  refine attempt_settles fun safe => .spelledAs (fun opening ht hkind htext => ?_) trivial
  have spells : W.Spells i "\x7b" := ⟨opening, ht, hkind, htext⟩
  have enters : W.Enters (W.stringRoom n) (W.stringRoom n) i := spells.entersField
  have hinside := enters.safe safe
  have hvalue : Returns W n (W.stringRoom n) yieldOrTuple (i + 1) :=
    Returns.within yieldOrTuple_settles TalliedWorld.hostRoom_of_string
  refine needs (finishes hvalue hinside) rfl fun value j hj => ?_
  refine skips (by decide) fun equals k (hk : W.Closes (W.stringRoom n) j k) => .bind ?_
  have hconverted := hj.trans hk
  have hsettles := conversion_settles (n := n) (hconverted.safe hinside)
  refine (closes_of_settles hsettles).mono fun letter l hl => ?_
  have hwhole := hconverted.trans hl
  refine ifReads (fun colon => ?_) (expects fun closer => ?_)
  · have hcolon := hwhole.trans (colon.closes (by decide))
    have hspec : Returns W n (W.stringRoom n) (fstringInside raw) (l + 1) := (.called ·)
    refine needs (hspec.since hcolon hinside) rfl fun parts m hm => expects fun closer => ?_
    exact .enclosed enters hm (closer.shuts (by decide))
  · exact .enclosed enters hwhole (closer.shuts (by decide))

theorem fstringInsideRule_settles {raw : Bool} :
    Returns W n (W.stringRoom n) (fstringInsideRule raw) i := by
  refine fun safe => .loop (fun _ j => W.Closes (W.stringRoom n) i j) (.refl i) ?_
  refine fun parts j hj => .ofKind (fun token ht hkind => ?_)
    (tries (formatField_settles (hj.safe safe)) ?_ hj)
  · exact hj.trans (closes_ofKind ht (by simp [hkind]))
  · exact fun _ k hk => hj.trans hk

theorem pathSearch_settles : Returns W n S pathSearch i :=
  fun _ => .mark (.ofKind (fun _ ht hkind => node_settles (closes_ofKind ht (by simp [hkind]))) rfl)

/-- What a variable is in does not matter, as long as there is room inside the braces around the
expression for its name. -/
theorem variableExpr_rests (henters : W.Spells i "$\x7b" → W.Enters S (W.hostRoom n) i) :
    Returns W n S variableExpr i := by
  refine attempt_settles fun safe => .spelledAs (fun dollar ht hkind htext => ?_)
    (expects fun spells => ?_)
  · have spells : W.Spells i "$" := ⟨dollar, ht, hkind, htext⟩
    have hdollar : W.Closes S i (i + 1) := spells.closes (by decide)
    refine .ofKind (fun id ht' hkind' => ?_) trivial
    dsimp only
    split
    · trivial
    · exact node_ends (hdollar.trans (closes_ofKind ht' (by simp [hkind'])))
  · have enters := henters spells
    refine needs (finishes (.called ·) (enters.safe safe)) rfl fun value j hj => ?_
    exact expects fun spells => node_ends (.enclosed enters hj (spells.shuts (by decide)))

/-! ### Atoms -/

theorem nameExpr_settles {token : Token} (ht : W.token i = .ok token) (hkind : token.kind = .name) :
    Comes W n (nameExpr i token) i (W.Rests S i) := by
  have hname : W.Closes S i (i + 1) := closes_ofKind ht (by simp [hkind])
  unfold nameExpr
  split
  · exact .next fun _ _ => node_settles hname
  · split
    · exact rfl
    · exact .next fun _ _ => node_settles hname

theorem bracketExpr_settles {token : Token} (ht : W.token i = .ok token)
    (hkind : token.kind = .op) : Settles W n (bracketExpr i token.text) i := by
  intro safe
  unfold bracketExpr
  split
  · exact bracketed (fun _ => parenthesized_settles) safe
  split
  · exact bracketed (fun _ => squareBracketed_settles) safe
  split
  · exact bracketed (fun _ => braced_settles) safe
  split
  case isTrue htext =>
    have spells : W.Spells i "..." := ⟨token, ht, .inl hkind, beq_iff_eq.mp htext⟩
    exact .next fun _ _ => node_settles (spells.closes (by decide))
  split
  · exact bracketed (fun _ => variableExpr_rests fun spells => spells.enters (by decide)) safe
  split
  · refine bracketed (fun _ => Returns.within commandExpr_settles ?_) safe
    exact fun hhost => TalliedWorld.captureRoom_of_room hhost.1
  · exact rfl

theorem atomicExprRule_settles : Settles W n atomicExprRule i := by
  intro safe
  have hstring : Settles W n stringRun i := Returns.within (S := W.room n) (.called ·) And.left
  refine .mark (.peek fun token ht => ?_)
  split
  case h_1 hkind => exact nameExpr_settles ht hkind
  case h_2 hkind => exact .next fun _ _ => node_settles (closes_ofKind ht (by simp [hkind]))
  case h_3 => exact hstring safe
  case h_4 => exact hstring safe
  case h_5 => exact pathSearch_settles safe
  case h_6 hkind => exact bracketExpr_settles ht hkind safe
  case h_7 => exact rfl

/-! ### Calls and subscripts -/

theorem namedArgument_settles : Settles W n namedArgument i := by
  refine attempt_settles fun safe => .name (fun id ht hkind => expects fun spells => ?_) trivial
  have hname : W.Closes (W.hostRoom n) i (i + 1) := closes_ofKind ht (by simp [hkind])
  have hequals := hname.trans (spells.closes (by decide))
  exact needs (Returns.since (.called ·) hequals safe) rfl fun _ _ hj => hj

theorem argument_ends {state : ArgumentState} : Finishes W n (W.hostRoom n) (argument state) i := by
  refine fun safe => .mark (ifReads (fun spells => ?_) (ifReads (fun spells => ?_) ?_))
  · have hstars : W.Closes (W.hostRoom n) i (i + 1) := spells.closes (by decide)
    exact needs (Returns.since (.called ·) hstars safe) rfl fun _ _ hj => .spanSince hj
  · have hstar : W.Closes (W.hostRoom n) i (i + 1) := spells.closes (by decide)
    exact needs (Returns.since (.called ·) hstar safe) rfl fun _ _ hj => hj
  · refine tries (namedArgument_settles safe) (fun _ _ hj => hj) ?_
    exact needs (finishes (.called ·) safe) rfl fun _ _ hj => hj

theorem argumentList_ends : Finishes W n (W.hostRoom n) argumentList i := by
  refine fun safe => .loop (fun _ j => W.Closes (W.hostRoom n) i j) (.refl i) ?_
  refine fun state j hj => .lookahead fun found => ?_
  split
  · exact hj
  · refine .bind ((argument_ends (hj.safe safe)).mono ?_)
    rintro (_ | state) k hk
    · trivial
    · refine ifReads (fun spells => ?_) (hj.trans hk)
      exact (hj.trans hk).trans (spells.closes (by decide))

theorem subscriptItem_settles : Settles W n subscriptItem i := by
  have hexpr (j : Nat) : Settles W n expr j := (.called ·)
  refine fun safe => .mark (.bind ((closes_of_settles (hexpr i safe)).mono fun lower j hj => ?_))
  refine ifReads (fun spells => ?_) (.reset (bindingOrSpread_settles safe))
  have hcolon := hj.trans (spells.closes (by decide))
  refine .bind ((closes_of_settles (hexpr _ (hcolon.safe safe))).mono fun upper k hk => ?_)
  have hupper := hcolon.trans hk
  refine ifReads (fun spells => ?_) (node_settles hupper)
  have hsecond := hupper.trans (spells.closes (by decide))
  refine .bind ((closes_of_settles (hexpr _ (hsecond.safe safe))).mono fun step l hl => ?_)
  exact node_settles (hsecond.trans hl)

theorem subscripts_settles : Settles W n subscripts i :=
  tupleOrSingle_settles fun _ => subscriptItem_settles

/-! ### Primaries -/

theorem trailer_settles {start : Nat} {value : Expr} :
    Returns W n (W.hostRoom (n + 1)) (trailer start value) i := by
  refine attempt_settles fun safe => ifReads (fun spells => ?_) ?_
  · refine .name (fun attr ht hkind => node_ends ?_) trivial
    exact (spells.closes (by decide)).trans (closes_ofKind ht (by simp [hkind]))
  refine tries (generator_settles safe) (fun _ _ hj => node_ends hj) (ifReads (fun spells => ?_) ?_)
  · have enters : W.Enters (W.hostRoom (n + 1)) (W.hostRoom n) i := spells.enters (by decide)
    refine needs (argumentList_ends (enters.safe safe)) rfl fun arguments j hj => ?_
    exact expects fun spells => node_ends (.enclosed enters hj (spells.shuts (by decide)))
  refine ifReads (fun spells => ?_) (.spelledAs (fun opening ht hkind htext => ?_) ?_)
  · have enters : W.Enters (W.hostRoom (n + 1)) (W.hostRoom n) i := spells.enters (by decide)
    refine needs (finishes subscripts_settles (enters.safe safe)) rfl fun index j hj => ?_
    exact expects fun spells => node_ends (.enclosed enters hj (spells.shuts (by decide)))
  · have spells : W.Spells i "!(" := ⟨opening, ht, hkind, htext⟩
    have hopens := spells.opens (by decide)
    have enters : W.Enters (W.hostRoom (n + 1)) (W.room n) i :=
      ⟨hopens, fun hhost => TalliedWorld.room_inside hopens hhost.1⟩
    dsimp only
    split
    · trivial
    · refine .bind ((many_closes (fun _ => finishes (ofKind_settles (by decide)))
        (enters.safe safe)).mono fun arguments k hk => expects fun spells => ?_)
      exact node_ends (.enclosed enters hk (spells.shuts (by decide)))
  · exact tries (oneOf_settles (by decide)) (fun _ _ hj => node_ends hj) trivial

theorem postfixExprRule_settles : Settles W n postfixExprRule i := by
  intro safe
  have hatomic (j : Nat) :
      Comes W n (reset i >>= fun _ => atomicExpr) j (W.Rests (W.hostRoom n) i) :=
    .reset (.called safe)
  refine .mark (tries (.called safe) (fun value j hj => ?_) (hatomic i))
  refine .inBrackets fun inner hinner => ?_
  have houter := TalliedWorld.inward_eq_some hinner
  refine (trailer_settles (houter ▸ hj.safe safe)).mono ?_
  rintro (_ | longer) k hk
  · exact hatomic k
  · rw [← houter] at hk
    exact hj.trans hk

end ShellSyntax.Language
