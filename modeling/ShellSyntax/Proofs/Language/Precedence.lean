import ShellSyntax.Language.Expression

/-!
Operands between binary operators, and the tree that the table of precedences gives them. The
operator that binds loosest is the root; of several that bind alike it is the last. An operator
before an operand binds tighter than all of them but the power, which is the other way round and
takes a whole operand, with what stands before it, on its right.
-/

namespace ShellSyntax

/-- How tightly a binary operator binds. -/
def BinOp.precedence : BinOp → Nat
  | .bitOr => 0
  | .bitXor => 1
  | .bitAnd => 2
  | .leftShift | .rightShift => 3
  | .add | .sub => 4
  | .mult | .div | .floorDiv | .mod | .matMult => 5
  | .pow => 6

/-- From the first of these tokens to the end of the last. -/
def Token.spanOf : List Token → Span
  | [] => default
  | t :: ts => ⟨t.start, (((t :: ts).getLast?.map Token.stop).getD t.start).later t.start⟩

/-- A token that stands for an operator before an operand. -/
structure SignToken where
  token : Token
  op : UnaryOp
  kind : token.kind = .op
  text : (token.text, op) ∈ Language.prefixOperators

/-- A token that stands for an operator between operands. -/
structure LinkToken where
  token : Token
  op : BinOp
  kind : token.kind = .op
  text : token.text = op.symbol

/-- A number, or a name that is no keyword. -/
structure AtomToken where
  token : Token
  kind : token.kind = .number ∨ token.kind = .name ∧ Spelling.isKeyword token.text = false

namespace AtomToken

def form (a : AtomToken) : ExprForm :=
  if a.token.kind = .number then .constant (.number a.token.text) else .name a.token.text

def expr (a : AtomToken) : Expr :=
  ⟨a.form, Token.spanOf [a.token]⟩

end AtomToken

structure Operand where
  signs : List SignToken
  atom : AtomToken

def Operand.tokens (x : Operand) : List Token :=
  x.signs.map SignToken.token ++ [x.atom.token]

/-- Operands with an operator between each and the next. -/
@[ext] structure Chain where
  first : Operand
  rest : List (LinkToken × Operand)

namespace Chain

def tokens (c : Chain) : List Token :=
  c.first.tokens ++ c.rest.flatMap fun link => link.1.token :: link.2.tokens

def span (c : Chain) : Span :=
  Token.spanOf c.tokens

def join (left : Chain) (link : LinkToken) (right : Chain) : Chain :=
  ⟨left.first, left.rest ++ (link, right.first) :: right.rest⟩

theorem tokens_join (left : Chain) (link : LinkToken) (right : Chain) :
    (left.join link right).tokens = left.tokens ++ link.token :: right.tokens := by
  simp [tokens, join]

/-- The chain, and further ones behind it. -/
def joinAll (c : Chain) (more : List (LinkToken × Chain)) : Chain :=
  more.foldl (fun c link => c.join link.1 link.2) c

theorem tokens_joinAll (c : Chain) (more : List (LinkToken × Chain)) :
    (c.joinAll more).tokens =
      c.tokens ++ more.flatMap fun link => link.1.token :: link.2.tokens := by
  induction more generalizing c with
  | nil => simp [joinAll]
  | cons link more ih =>
    have hjoin := ih (c.join link.1 link.2)
    rw [tokens_join] at hjoin
    simpa [joinAll] using hjoin

theorem length_le_tokens (more : List (LinkToken × Chain)) :
    more.length ≤ (more.flatMap fun link => link.1.token :: link.2.tokens).length := by
  induction more with
  | nil => exact Nat.le_refl 0
  | cons link more ih =>
    simp only [List.flatMap_cons, List.length_append, List.length_cons]
    omega

theorem joinAll_cons (x : Operand) (p : LinkToken × Operand) (c : Chain)
    (more : List (LinkToken × Chain)) :
    joinAll ⟨x, p :: c.rest⟩ more = ⟨x, p :: (c.joinAll more).rest⟩ := by
  induction more generalizing c with
  | nil => rfl
  | cons link more ih => exact ih (c.join link.1 link.2)

theorem first_joinAll (c : Chain) (more : List (LinkToken × Chain)) :
    (c.joinAll more).first = c.first := by
  induction more generalizing c with
  | nil => rfl
  | cons link more ih => exact ih (c.join link.1 link.2)

/-- A chain without looser operators falls into parts between the operators of one precedence. -/
theorem exists_parts {level : Nat} (c : Chain)
    (hlevel : ∀ p ∈ c.rest, level ≤ p.1.op.precedence) :
    ∃ first more, c = joinAll first more ∧ (∀ p ∈ first.rest, level < p.1.op.precedence) ∧
      ∀ link ∈ more, link.1.op.precedence = level ∧
        ∀ p ∈ link.2.rest, level < p.1.op.precedence := by
  obtain ⟨x, rest⟩ := c
  induction rest generalizing x with
  | nil => exact ⟨⟨x, []⟩, [], rfl, List.forall_mem_nil _, List.forall_mem_nil _⟩
  | cons p rest ih =>
    obtain ⟨hp, hlevel⟩ := List.forall_mem_cons.mp hlevel
    obtain ⟨first, more, hc, hfirst, hmore⟩ := ih p.2 hlevel
    have hwhole : (⟨x, p :: rest⟩ : Chain) =
        joinAll ⟨x, (p.1, first.first) :: first.rest⟩ more := by
      rw [joinAll_cons, ← hc, ← first_joinAll first more, ← hc]
    rcases Nat.lt_or_eq_of_le hp with hlt | heq
    · exact ⟨⟨x, (p.1, first.first) :: first.rest⟩, more, hwhole,
        List.forall_mem_cons.mpr ⟨hlt, hfirst⟩, hmore⟩
    · exact ⟨⟨x, []⟩, (p.1, first) :: more, hwhole, List.forall_mem_nil _,
        List.forall_mem_cons.mpr ⟨⟨heq.symm, hfirst⟩, hmore⟩⟩

/-- The tree that the table of precedences gives a chain. -/
inductive Groups : Chain → Expr → Prop
  | atom {a : AtomToken} : Groups ⟨⟨[], a⟩, []⟩ a.expr
  | power {a : AtomToken} {link : LinkToken} {x : Operand} {rest : List (LinkToken × Operand)}
      {exponent : Expr} (hop : ∀ p ∈ (link, x) :: rest, p.1.op = .pow)
      (hexponent : Groups ⟨x, rest⟩ exponent) :
      Groups ⟨⟨[], a⟩, (link, x) :: rest⟩
        ⟨.binOp a.expr .pow exponent, span ⟨⟨[], a⟩, (link, x) :: rest⟩⟩
  | signed {sign : SignToken} {signs : List SignToken} {a : AtomToken}
      {rest : List (LinkToken × Operand)} {operand : Expr} (hop : ∀ p ∈ rest, p.1.op = .pow)
      (hoperand : Groups ⟨⟨signs, a⟩, rest⟩ operand) :
      Groups ⟨⟨sign :: signs, a⟩, rest⟩
        ⟨.unaryOp sign.op operand, span ⟨⟨sign :: signs, a⟩, rest⟩⟩
  | binary {left right : Chain} {link : LinkToken} {e e' : Expr} (hop : link.op ≠ .pow)
      (hloosest : ∀ p ∈ left.rest, link.op.precedence ≤ p.1.op.precedence)
      (hlast : ∀ p ∈ right.rest, link.op.precedence < p.1.op.precedence)
      (hleft : Groups left e) (hright : Groups right e') :
      Groups (left.join link right) ⟨.binOp e link.op e', (left.join link right).span⟩

theorem mem_join (left : Chain) (link : LinkToken) (right : Chain) :
    (link, right.first) ∈ (left.join link right).rest := by
  simp [join]

theorem length_le_of_split {before before' after after' : List (LinkToken × Operand)}
    {p p' : LinkToken × Operand} (h : before ++ p :: after = before' ++ p' :: after')
    (hlast : ∀ q ∈ after, p.1.op.precedence < q.1.op.precedence)
    (hloosest' : ∀ q ∈ before', p'.1.op.precedence ≤ q.1.op.precedence) :
    before'.length ≤ before.length := by
  rcases List.append_eq_append_iff.mp h with ⟨between, rfl, htail⟩ | ⟨between, rfl, _⟩
  · cases between with
    | nil => simp
    | cons q between =>
      obtain ⟨rfl, rfl⟩ := List.cons.inj htail
      have hle := hloosest' p (by simp)
      have hlt := hlast p' (by simp)
      exact absurd hlt (Nat.not_lt_of_le hle)
  · simp

/-- Where a chain splits at the last of the loosest operators, it splits there only. -/
theorem join_inj {left left' right right' : Chain} {link link' : LinkToken}
    (h : left.join link right = left'.join link' right')
    (hloosest : ∀ p ∈ left.rest, link.op.precedence ≤ p.1.op.precedence)
    (hlast : ∀ p ∈ right.rest, link.op.precedence < p.1.op.precedence)
    (hloosest' : ∀ p ∈ left'.rest, link'.op.precedence ≤ p.1.op.precedence)
    (hlast' : ∀ p ∈ right'.rest, link'.op.precedence < p.1.op.precedence) :
    left = left' ∧ link = link' ∧ right = right' := by
  obtain ⟨hfirst, hrest⟩ := Chain.mk.inj h
  have hlength : left.rest.length = left'.rest.length :=
    Nat.le_antisymm (length_le_of_split hrest.symm hlast' hloosest)
      (length_le_of_split hrest hlast hloosest')
  obtain ⟨hbefore, htail⟩ := List.append_inj hrest hlength
  obtain ⟨hlink, hafter⟩ := List.cons.inj htail
  obtain ⟨hlink, hoperand⟩ := Prod.mk.inj hlink
  exact ⟨Chain.ext hfirst hbefore, hlink, Chain.ext hoperand hafter⟩

theorem Groups.unique {c : Chain} {e e' : Expr} (h : c.Groups e) (h' : c.Groups e') : e = e' := by
  induction h generalizing e' with
  | @atom a =>
    generalize hc : (⟨⟨[], a⟩, []⟩ : Chain) = c at h'
    cases h' with
    | atom => cases hc; rfl
    | power => cases hc
    | signed => cases hc
    | binary => simp [join] at hc
  | @power a link x rest exponent hop _ ih =>
    generalize hc : (⟨⟨[], a⟩, (link, x) :: rest⟩ : Chain) = c at h'
    cases h' with
    | atom => cases hc
    | power _ hexponent' =>
      cases hc
      rw [ih hexponent']
    | signed => cases hc
    | @binary left right link' _ _ hop' =>
      have hmem := mem_join left link' right
      rw [← hc] at hmem
      exact absurd (hop _ hmem) hop'
  | @signed sign signs a rest operand hop _ ih =>
    generalize hc : (⟨⟨sign :: signs, a⟩, rest⟩ : Chain) = c at h'
    cases h' with
    | atom => cases hc
    | power => cases hc
    | signed _ hoperand' =>
      cases hc
      rw [ih hoperand']
    | @binary left right link' _ _ hop' =>
      have hmem := mem_join left link' right
      rw [← hc] at hmem
      exact absurd (hop _ hmem) hop'
  | @binary left right link _ _ hop hloosest hlast _ _ ihLeft ihRight =>
    have hmem := mem_join left link right
    generalize hc : left.join link right = c at h' hmem
    cases h' with
    | atom => cases hmem
    | power hop' => exact absurd (hop' _ hmem) hop
    | signed hop' => exact absurd (hop' _ hmem) hop
    | @binary left' right' link' _ _ _ hloosest' hlast' hleft' hright' =>
      obtain ⟨rfl, rfl, rfl⟩ := join_inj hc hloosest hlast hloosest' hlast'
      rw [ihLeft hleft', ihRight hright']

end Chain

end ShellSyntax
