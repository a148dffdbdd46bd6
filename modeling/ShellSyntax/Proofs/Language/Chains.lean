import ShellSyntax.Language.Grammar
import ShellSyntax.Proofs.Trace.Levels

/-!
Chains of expressions. Most expressions that hold another of their kind put brackets around it, and
these are counted. Behind some tokens none are needed: prefix operators, exponents, the last part of
a conditional expression, functions without a name. F-strings and commands have brackets of their
own, which are not counted. How deep the rules for expressions call each other is therefore bounded
by the brackets that are counted and by these tokens.
-/

namespace ShellSyntax

/-- The spellings behind which an expression may hold another one of its kind. -/
def chainSpellings : List String :=
  ["not", "else", "lambda", "+", "-", "~", "**"] ++ CaptureMode.all.map CaptureMode.opener

/-- A token behind which an expression may hold another one of its kind, with no bracket around it
that is counted. -/
def Token.isLink (t : Token) : Bool :=
  t.kind == .fstringStart ||
    (t.kind == .op || t.kind == .name || t.kind == .word) && chainSpellings.contains t.text

/-- How many links lie ahead of each token on its logical line. No token starts an indented block. -/
structure Chains (W : World) where
  ahead : Nat → Nat
  most : Nat
  ahead_le : ∀ i, ahead i ≤ most
  ahead_next : ∀ i t, W.token i = .ok t → t.kind ≠ .newline →
    ahead (i + 1) + t.isLink.toNat ≤ ahead i
  flat : ∀ i t, W.token i = .ok t → t.kind ≠ .indent

namespace Language

open Matcher

/-! ### Heights -/

/-- A rule calls only lower ones, if no brackets, no links and no indented blocks are between. -/
def height : Rule → Nat
  | .commandExpr => 0
  | .stringRun => 1
  | .atomicExpr => 2
  | .postfixExpr => 3
  | .awaitExpr => 4
  | .signedExpr => 5
  | .mulExpr => 6
  | .addExpr => 7
  | .shiftedExpr => 8
  | .bitAndExpr => 9
  | .bitXorExpr => 10
  | .bitOrExpr => 11
  | .targetItem => 12
  | .notExpr => 13
  | .andExpr => 14
  | .orExpr => 15
  | .expr => 16
  | .bindingExpr => 17
  | .exprOrSpread => 18
  | .fstringInside _ => 19
  | .smallStmt => 20
  | .suite => 21
  | .elifBranch => 22
  | .stmtList => 23
  | .program | .soleExpr => 24

/-- More than the height of any expression. -/
def storey : Nat := 20

/-- Rules that may read more than one logical line. -/
def spansLines : Rule → Bool
  | .program | .soleExpr | .stmtList | .smallStmt | .suite | .elifBranch => true
  | _ => false

theorem height_lt {r : Rule} (hr : spansLines r = false) : height r < storey := by
  cases r with
  | program | soleExpr | stmtList | smallStmt | suite | elifBranch => cases hr
  | _ => simp [height, storey]

/-- The one rule is no higher than the other, and reads no more. -/
def isBelow (r s : Rule) : Bool :=
  (!spansLines r || spansLines s) && height r ≤ height s

variable {W : World} {α β σ : Type}

end Language

namespace Chains

open ShellSyntax.Language

variable {W : World} (C : Chains W)

/-- What is left of a chain for a rule: that of its logical line, or the longest one. -/
def left (r : Rule) (i : Nat) : Nat :=
  if spansLines r then C.most else C.ahead i

/-- How many levels a rule may need, the brackets aside. -/
def cost (r : Rule) (i : Nat) : Nat :=
  height r + storey * C.left r i

/-- Rules that read no more than a logical line do not leave it. -/
def Ends (r : Rule) (i j : Nat) : Prop :=
  spansLines r = false → C.ahead j ≤ C.ahead i

end Chains

namespace Language

/-! ### Budgets -/

/-- What a matcher may spend on each of its calls, itself and inside further brackets. Some calls
are free. -/
structure Budget where
  free : Rule → Nat → Prop
  here : Nat
  deeper : Nat

namespace Budget

def inside (B : Budget) : Budget :=
  ⟨fun _ _ => False, B.deeper, B.deeper⟩

def allowance (B : Budget) {W : World} (C : Chains W) : Allowance rules where
  here r i := B.free r i ∨ C.cost r i < B.here
  deeper r i := C.cost r i < B.deeper

/-- Enough for all expressions that have a shorter chain left, and inside brackets one as long. -/
structure Ample (B : Budget) (left : Nat) : Prop where
  here : storey * left ≤ B.here
  deeper : storey * (left + 1) ≤ B.deeper

end Budget

/-- Enough to call a rule. -/
structure Affords {W : World} (C : Chains W) (B : Budget) (left : Nat) (r : Rule) : Prop where
  most : spansLines r = true → C.most ≤ left
  here : height r + storey * left < B.here
  deeper : storey * (left + 1) ≤ B.deeper

section Budgets

variable {W : World} {C : Chains W} {B : Budget} {u v : Nat} {r s : Rule}

theorem Affords.ample (h : Affords C B u r) : B.Ample u where
  here := by
    have := h.here
    omega
  deeper := h.deeper

theorem Affords.lower (h : Affords C B u r) (hbelow : isBelow s r = true) : Affords C B u s := by
  simp only [isBelow, Bool.and_eq_true, Bool.or_eq_true, Bool.not_eq_true', decide_eq_true_eq]
    at hbelow
  refine ⟨fun hs => h.most ?_, Nat.lt_of_le_of_lt (Nat.add_le_add_right hbelow.2 _) h.here, h.deeper⟩
  exact hbelow.1.resolve_left (by simp [hs])

theorem Budget.Ample.behind (h : B.Ample u) (hlink : v + 1 ≤ u) (hr : spansLines r = false) :
    Affords C B v r where
  most hs := by simp [hr] at hs
  here := by
    have hless := Nat.mul_le_mul_left storey hlink
    have hheight := height_lt hr
    have hhere := h.here
    rw [Nat.mul_succ] at hless
    omega
  deeper := Nat.le_trans (Nat.mul_le_mul_left storey (by omega)) h.deeper

theorem Budget.Ample.within (h : B.Ample u) (hr : spansLines r = false) :
    Affords C B.inside u r where
  most hs := by simp [hr] at hs
  here := by
    have hheight := height_lt hr
    have hdeeper := h.deeper
    rw [Nat.mul_succ] at hdeeper
    show _ < B.deeper
    omega
  deeper := h.deeper

end Budgets

/-! ### Matchers -/

open Matcher

variable {W : World} {α β σ : Type}

/-- Where the chain ahead is no longer than `u`, the matcher calls only what the budget affords, and
the chain ahead of where it ends is no longer than `v`. -/
def Moves (C : Chains W) (B : Budget) (u : Nat) (m : Match α) (v : Nat) : Prop :=
  ∀ i, C.ahead i ≤ u → Descends W C.Ends (B.allowance C) m i fun _ j => C.ahead j ≤ v

/-- The same where the next token is known. -/
def MovesAt (t : Token) (C : Chains W) (B : Budget) (u : Nat) (m : Match α) (v : Nat) : Prop :=
  ∀ i, C.ahead i ≤ u → W.token i = .ok t →
    Descends W C.Ends (B.allowance C) m i fun _ j => C.ahead j ≤ v

/-- The matcher does not leave its logical line. -/
abbrev Remains (C : Chains W) (B : Budget) (u : Nat) (m : Match α) : Prop :=
  Moves C B u m u

/-- The matcher calls no rule, and where its result is `paid` for it has passed a link. -/
def Pays (C : Chains W) (B : Budget) (u : Nat) (m : Match α) (paid : α → Bool) : Prop :=
  ∀ i, C.ahead i ≤ u → Descends W C.Ends (B.allowance C) m i fun a j =>
    C.ahead j + (paid a).toNat ≤ u

variable {C : Chains W} {B : Budget} {u v w : Nat} {t : Token}

namespace Moves

variable {m : Match α} {f : α → Match β}

theorem done {a : α} (h : u ≤ v) : Moves C B u (.done a) v :=
  fun _ hi => Nat.le_trans hi h

theorem stay {a : α} : Remains C B u (.done a) :=
  done (Nat.le_refl u)

theorem bind (hm : Moves C B u m v) (h : ∀ a, Moves C B v (f a) w) : Moves C B u (m >>= f) w :=
  fun i hi => Descends.bind ((hm i hi).mono fun a j hj => h a j hj)

/-! ### Steps -/

theorem mark {f : Nat → Match β} (h : ∀ start, C.ahead start ≤ u → Moves C B u (f start) v) :
    Moves C B u (Matcher.mark >>= f) v :=
  fun i hi => h i hi i hi

theorem reset {f : Unit → Match β} {start : Nat} (hstart : C.ahead start ≤ w)
    (h : Moves C B w (f ()) v) : Moves C B u (Matcher.reset start >>= f) v :=
  fun _ _ => h start hstart

theorem peek {f : Token → Match β} (h : ∀ t, MovesAt t C B u (f t) v) :
    Moves C B u (Matcher.peek >>= f) v :=
  fun i hi t ht => h t i hi ht

theorem rule {r : Rule} (h : Affords C B u r) : Remains C B u (@Matcher.rule rules r) := by
  intro i hi
  have hleft : C.left r i ≤ u := by
    unfold Chains.left
    split
    case isTrue hr => exact h.most hr
    case isFalse => exact hi
  have hcost : C.cost r i < B.here :=
    Nat.lt_of_le_of_lt (Nat.add_le_add_left (Nat.mul_le_mul_left storey hleft) _) h.here
  refine ⟨.inr hcost, fun found j hends => ?_⟩
  cases hr : spansLines r with
  | false => exact Nat.le_trans (hends hr) hi
  | true => exact Nat.le_trans (C.ahead_le j) (h.most hr)

theorem inBrackets (h : Moves C B.inside u m v) : Moves C B u (Matcher.inBrackets m) v := by
  refine fun i hi => (h i hi).widen ⟨fun r j hallowed => ?_, fun _ _ => id⟩ fun _ _ => id
  exact hallowed.resolve_left id

theorem raise {kind : ErrorKind} {message : String} {place : FaultPlace} :
    Moves C B u (Matcher.raise kind message place : Match α) v :=
  fun _ _ => trivial

theorem iterate {body : σ → Match (σ ⊕ β)} (hbody : ∀ state, Remains C B u (body state)) {state : σ} :
    Remains C B u (Matcher.loop body state) := by
  refine fun i hi => ⟨fun _ j => C.ahead j ≤ u, hi, fun state j hj => (hbody state j hj).mono ?_⟩
  rintro (state | result) k hk
  · exact hk
  · exact hk

theorem spanSince {start : Nat} {f : Span → Match β} (h : ∀ span, Moves C B u (f span) v) :
    Moves C B u (Matcher.spanSince start >>= f) v :=
  fun i hi => h _ i hi

theorem lastToken? {f : Option Token → Match β} (h : ∀ t, Moves C B u (f t) v) :
    Moves C B u (Matcher.lastToken? >>= f) v :=
  fun i hi => h _ i hi

theorem diagnosis {reject : Match Unit} {rest : Unit → Match β} (hreject : Remains C B u reject)
    (h : Moves C B u (rest ()) v) :
    Moves C B u (Matcher.isDiagnosing >>= fun diagnosing =>
      if diagnosing = true then reject >>= rest else rest ()) v := by
  intro i hi
  show Descends W _ _ (if W.diagnosing = true then reject >>= rest else rest ()) i _
  split
  · exact hreject.bind (fun _ => h) i hi
  · exact h i hi

end Moves

namespace MovesAt

theorem ahead {m : Match α} (h : Moves C B u m v) : MovesAt t C B u m v :=
  fun i hi _ => h i hi

theorem bind {m : Match α} {f : α → Match β} (hm : MovesAt t C B u m v)
    (h : ∀ a, Moves C B v (f a) w) : MovesAt t C B u (m >>= f) w :=
  fun i hi ht => Descends.bind ((hm i hi ht).mono fun a j hj => h a j hj)

theorem mark {f : Nat → Match β} (h : ∀ start, C.ahead start ≤ u → MovesAt t C B u (f start) v) :
    MovesAt t C B u (Matcher.mark >>= f) v :=
  fun i hi ht => h i hi i hi ht

theorem next {f : Token → Match β} (hkind : t.kind ≠ .newline) (h : Moves C B u (f t) v) :
    MovesAt t C B u (Matcher.next >>= f) v := by
  intro i hi ht t' ht'
  cases ht.symm.trans ht'
  have hnext := C.ahead_next i t ht hkind
  exact h (i + 1) (by omega)

end MovesAt

/-! ### Tokens -/

theorem MovesAt.nextAny {f : Token → Match β} (hmost : C.most ≤ u) (h : Moves C B u (f t) v) :
    MovesAt t C B u (Matcher.next >>= f) v := by
  intro i hi ht t' ht'
  cases ht.symm.trans ht'
  exact h (i + 1) (Nat.le_trans (C.ahead_le _) hmost)

namespace Pays

variable {m : Match α}

theorem bind {f : α → Match β} {paid : α → Bool} (h : Pays C B u m paid)
    (hlink : ∀ a, paid a = true → ∀ v, v + 1 ≤ u → Moves C B v (f a) w)
    (hplain : ∀ a, paid a = false → Moves C B u (f a) w) : Moves C B u (m >>= f) w := by
  refine fun i hi => Descends.bind ((h i hi).mono fun a j hj => ?_)
  cases hpaid : paid a with
  | true =>
    rw [hpaid] at hj
    exact hlink a hpaid (C.ahead j) hj j (Nat.le_refl _)
  | false =>
    rw [hpaid] at hj
    exact hplain a hpaid j hj

theorem map {f : α → β} {paid : α → Bool} {paid' : β → Bool} (h : Pays C B u m paid)
    (hpaid : ∀ a, paid' (f a) = paid a) : Pays C B u (m >>= fun a => pure (f a)) paid' := by
  refine fun i hi => Descends.bind ((h i hi).mono fun a j hj => ?_)
  show C.ahead j + (paid' (f a)).toNat ≤ u
  rwa [hpaid]

theorem spelled {text : String} (htext : chainSpellings.contains text = true) :
    Pays C B u (Matcher.spelled text) Option.isSome := by
  intro i hi t ht
  show Descends W _ _ (if _ then _ else _) i _
  split
  case isFalse => exact hi
  case isTrue hmatch =>
    intro t' ht'
    cases ht.symm.trans ht'
    obtain ⟨hkind, rfl⟩ : ((t.kind = .op ∨ t.kind = .name) ∨ t.kind = .word) ∧ t.text = text := by
      simpa using hmatch
    have hlink : t.isLink = true := by
      simp only [Token.isLink, Bool.or_eq_true, Bool.and_eq_true, beq_iff_eq]
      exact .inr ⟨hkind, htext⟩
    have hnext := C.ahead_next i t ht (by obtain (h | h) | h := hkind <;> simp [h])
    rw [hlink] at hnext
    exact Nat.le_trans hnext hi

theorem accepts {text : String} (htext : chainSpellings.contains text = true) :
    Pays C B u (Matcher.accepts text) id :=
  (spelled htext).map fun _ => rfl

theorem fstringStart : Pays C B u (Matcher.ofKind .fstringStart) Option.isSome := by
  intro i hi t ht
  show Descends W _ _ (if _ then _ else _) i _
  split
  case isFalse => exact hi
  case isTrue hmatch =>
    intro t' ht'
    cases ht.symm.trans ht'
    have hkind : t.kind = .fstringStart := beq_iff_eq.mp hmatch
    have hlink : t.isLink = true := by simp [Token.isLink, hkind]
    have hnext := C.ahead_next i t ht (by simp [hkind])
    rw [hlink] at hnext
    exact Nat.le_trans hnext hi

theorem ifThen {test : Match Bool} {yes no : Match β} (h : Pays C B u test id)
    (hyes : ∀ v, v + 1 ≤ u → Moves C B v yes w) (hno : Moves C B u no w) :
    Moves C B u (test >>= fun found => if found = true then yes else no) w := by
  refine h.bind (fun found hfound v hv => ?_) fun found hfound => ?_
  · rw [id] at hfound
    rw [hfound, if_pos rfl]
    exact hyes v hv
  · rw [id] at hfound
    rw [hfound, if_neg Bool.false_ne_true]
    exact hno

theorem expect {test : Match Bool} {rest : Match (Option β)} (h : Pays C B u test id)
    (hrest : ∀ v, v + 1 ≤ u → Moves C B v rest u) :
    Remains C B u (test >>= fun found => if (!found) = true then pure none else rest) := by
  refine h.bind (fun found hfound v hv => ?_) fun found hfound => ?_
  · rw [id] at hfound
    rw [hfound]
    exact hrest v hv
  · rw [id] at hfound
    rw [hfound]
    exact .stay

theorem option {m : Match (Option α)} {f : Option α → Match β} (h : Pays C B u m Option.isSome)
    (hsome : ∀ a v, v + 1 ≤ u → Moves C B v (f (some a)) w) (hnone : Moves C B u (f none) w) :
    Moves C B u (m >>= f) w := by
  refine h.bind ?_ ?_
  · rintro (_ | a) hpaid v hv
    · cases hpaid
    · exact hsome a v hv
  · rintro (_ | a) hpaid
    · exact hnone
    · cases hpaid

end Pays

namespace Moves

theorem spelled {text : String} : Remains C B u (Matcher.spelled text : Match (Option Token)) := by
  refine .peek fun t => ?_
  split
  case isTrue hmatch =>
    refine .next (fun hkind => ?_) .stay
    simp [hkind] at hmatch
  case isFalse => exact .ahead .stay

theorem accepts {text : String} : Remains C B u (Matcher.accepts text : Match Bool) :=
  spelled.bind fun _ => .stay

theorem ofKind {kind : TokenKind} (hkind : kind ≠ .newline) :
    Remains C B u (Matcher.ofKind kind : Match (Option Token)) := by
  refine .peek fun t => ?_
  split
  case isTrue hmatch => exact .next (fun hline => hkind (beq_iff_eq.mp hmatch ▸ hline)) .stay
  case isFalse => exact .ahead .stay

theorem acceptsKind {kind : TokenKind} (hkind : kind ≠ .newline) :
    Remains C B u (Matcher.acceptsKind kind : Match Bool) :=
  (ofKind hkind).bind fun _ => .stay

theorem ofAnyKind {kind : TokenKind} (hmost : C.most ≤ u) :
    Remains C B u (Matcher.ofKind kind : Match (Option Token)) := by
  intro i hi t ht
  show Descends W _ _ (if _ then _ else _) i _
  split
  · exact fun t' ht' => Nat.le_trans (C.ahead_le _) hmost
  · exact hi

theorem acceptsAnyKind {kind : TokenKind} (hmost : C.most ≤ u) :
    Remains C B u (Matcher.acceptsKind kind : Match Bool) :=
  (ofAnyKind hmost).bind fun _ => .stay

theorem unlessIndented {rest : Match (Option β)} : Remains C B u
    (Matcher.acceptsKind .indent >>= fun found => if (!found) = true then pure none else rest) := by
  intro i hi t ht
  have hkind : (t.kind == .indent) = false := beq_false_of_ne (C.flat i t ht)
  show Descends W _ _ (Matcher.bind (Matcher.bind (if (t.kind == .indent) = true then _ else _) _) _)
    i _
  rw [if_neg (by simp [hkind])]
  exact hi

theorem name : Remains C B u (Matcher.name : Match (Option Token)) := by
  refine .peek fun t => ?_
  split
  case isTrue hmatch =>
    refine .next (fun hkind => ?_) .stay
    simp [hkind] at hmatch
  case isFalse => exact .ahead .stay

/-! ### Sequences -/

theorem ifThen {test : Match Bool} {yes no : Match β} (htest : Remains C B u test)
    (hyes : Moves C B u yes v) (hno : Moves C B u no v) :
    Moves C B u (test >>= fun found => if found = true then yes else no) v := by
  refine htest.bind fun found => ?_
  split
  · exact hyes
  · exact hno

theorem expect {test : Match Bool} {rest : Match (Option β)} (htest : Remains C B u test)
    (hfail : u ≤ v) (h : Moves C B u rest v) :
    Moves C B u (test >>= fun found => if (!found) = true then pure none else rest) v := by
  refine htest.bind fun found => ?_
  split
  · exact .done hfail
  · exact h

theorem option {m : Match (Option α)} {f : Option α → Match β} (hm : Remains C B u m)
    (hsome : ∀ a, Moves C B u (f (some a)) v) (hnone : Moves C B u (f none) v) :
    Moves C B u (m >>= f) v := by
  refine hm.bind ?_
  rintro (_ | a)
  · exact hnone
  · exact hsome a

theorem need {m : Match (Option α)} {f : Option α → Match (Option β)} (hm : Remains C B u m)
    (hfail : f none = .done none) (hsome : ∀ a, Remains C B u (f (some a))) :
    Remains C B u (m >>= f) :=
  .option hm hsome (hfail ▸ .stay)

/-! ### Combinations -/

variable {m : Match (Option α)}

theorem lookahead (hm : Moves C B u m v) : Remains C B u (Matcher.lookahead m) :=
  .mark fun _ hstart => hm.bind fun _ => .reset hstart .stay

theorem many (hm : Remains C B u m) : Remains C B u (Matcher.many m) := by
  refine iterate fun items => .mark fun start hstart => .option hm (fun item => ?_) ?_
  · refine .mark fun stop _ => ?_
    split
    · exact .stay
    · exact .stay
  · exact .reset hstart .stay

theorem many1 (hm : Remains C B u m) : Remains C B u (Matcher.many1 m) := by
  refine (many hm).bind ?_
  rintro (_ | ⟨item, items⟩)
  · exact .stay
  · exact .stay

theorem separated {separator : String} (hm : Remains C B u m) :
    Remains C B u (Matcher.separated separator m) := by
  refine .need hm rfl fun first => iterate fun items => .mark fun start hstart => ?_
  refine accepts.bind fun found => ?_
  split
  · exact .stay
  · exact .option hm (fun item => .stay) (.reset hstart .stay)

theorem firstOf {alternatives : List (Match (Matcher.Attempt α))}
    (h : ∀ m ∈ alternatives, Remains C B u m) : Remains C B u (Matcher.firstOf alternatives) := by
  induction alternatives with
  | nil => exact .stay
  | cons m others induction =>
    refine .mark fun start hstart => (h m List.mem_cons_self).bind ?_
    rintro (a | _ | _)
    · exact .stay
    · exact .reset hstart (induction fun m hm => h m (List.mem_cons_of_mem _ hm))
    · exact .reset hstart .stay

end Moves

/-! ### Ways of matching -/

theorem giveUp_moves {start : Nat} (hstart : C.ahead start ≤ v) :
    Moves C B u (giveUp start : Match (Option α)) v :=
  .reset hstart .stay

theorem attempt_moves {inner : Nat → Match (Option α)}
    (h : ∀ start, C.ahead start ≤ u → Remains C B u (inner start)) : Remains C B u (attempt inner) := by
  refine .mark fun start hstart => (h start hstart).bind ?_
  rintro (_ | a)
  · exact giveUp_moves hstart
  · exact .stay

theorem mapped_moves {m : Match (Option α)} {g : α → β} (hm : Remains C B u m) :
    Remains C B u (do return (← m).map g) :=
  hm.bind fun _ => .stay

theorem node_moves {start : Nat} {form : ExprForm} (h : u ≤ v) :
    Moves C B u (node start form) v :=
  .spanSince fun _ => .done h

theorem oneOf_moves {options : List (String × α)} : Remains C B u (oneOf options) := by
  induction options with
  | nil => exact .stay
  | cons option options induction => exact .ifThen .accepts .stay induction

theorem oneOf_pays {options : List (String × α)}
    (h : ∀ option ∈ options, chainSpellings.contains option.1 = true) :
    Pays C B u (oneOf options) Option.isSome := by
  induction options with
  | nil => exact fun i hi => hi
  | cons option options induction =>
    refine fun i hi => Descends.bind ((Pays.accepts (h option List.mem_cons_self) i hi).mono ?_)
    rintro (_ | _) j hj
    · exact induction (fun option hoption => h option (List.mem_cons_of_mem _ hoption)) j hj
    · exact hj

theorem descends_first {this : Match (Option α)} {f : Nat → Option α → Match β} {i : Nat}
    (hi : C.ahead i ≤ u)
    (hthis : Descends W C.Ends (B.allowance C) this i fun _ j => C.ahead j ≤ u)
    (h : ∀ start, C.ahead start ≤ u → ∀ found, Moves C B u (f start found) v) :
    Descends W C.Ends (B.allowance C) (mark >>= fun start => this >>= f start) i fun _ j =>
      C.ahead j ≤ v :=
  Descends.bind (m := mark) (Descends.bind (hthis.mono fun found j hj => h i hi found j hj))

theorem inspect_moves {inner : Match Unit} (h : Remains C B u inner) : Remains C B u (inspect inner) :=
  .mark fun _ hstart => h.bind fun _ => .reset hstart .stay

end Language

end ShellSyntax
