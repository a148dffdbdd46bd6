import ShellSyntax.Lexer.Classes
import ShellSyntax.Proofs.Language.Precedence

/-!
Arithmetic: names, numbers, parentheses and the operators on them. What is written is a formula; its
words are derived level by level, as the table of precedences says, and the derivation tells which
expression they stand for.
-/

namespace ShellSyntax

/-- What a token is, wherever it stands. -/
structure Word where
  kind : TokenKind
  text : String
deriving DecidableEq

def Token.word (t : Token) : Word :=
  ⟨t.kind, t.text⟩

theorem BinOp.precedence_le (op : BinOp) : op.precedence ≤ 6 := by
  cases op <;> decide

theorem BinOp.eq_pow {op : BinOp} (h : 6 ≤ op.precedence) : op = .pow := by
  revert h
  cases op <;> decide

/-- The expressions are alike but for where they stand. -/
inductive Expr.SameButSpans : Expr → Expr → Prop
  | name (id : String) (span span' : Span) : SameButSpans ⟨.name id, span⟩ ⟨.name id, span'⟩
  | constant (value : Constant) (span span' : Span) :
      SameButSpans ⟨.constant value, span⟩ ⟨.constant value, span'⟩
  | unaryOp {operand operand' : Expr} (op : UnaryOp) (span span' : Span)
      (hoperand : SameButSpans operand operand') :
      SameButSpans ⟨.unaryOp op operand, span⟩ ⟨.unaryOp op operand', span'⟩
  | binOp {left left' right right' : Expr} (op : BinOp) (span span' : Span)
      (hleft : SameButSpans left left') (hright : SameButSpans right right') :
      SameButSpans ⟨.binOp left op right, span⟩ ⟨.binOp left' op right', span'⟩

namespace Expr.SameButSpans

variable {e e' e'' : Expr}

theorem symm (h : e.SameButSpans e') : e'.SameButSpans e := by
  induction h with
  | name id span span' => exact .name id span' span
  | constant value span span' => exact .constant value span' span
  | unaryOp op span span' _ ih => exact .unaryOp op span' span ih
  | binOp op span span' _ _ ihLeft ihRight => exact .binOp op span' span ihLeft ihRight

theorem trans (h : e.SameButSpans e') (h' : e'.SameButSpans e'') : e.SameButSpans e'' := by
  induction h generalizing e'' with
  | name id span =>
    cases h' with
    | name _ _ span' => exact .name id span span'
  | constant value span =>
    cases h' with
    | constant _ _ span' => exact .constant value span span'
  | unaryOp op span _ _ ih =>
    cases h' with
    | unaryOp _ _ span' hoperand => exact .unaryOp op span span' (ih hoperand)
  | binOp op span _ _ _ ihLeft ihRight =>
    cases h' with
    | binOp _ _ span' hleft hright =>
      exact .binOp op span span' (ihLeft hleft) (ihRight hright)

theorem not_tuple (h : e.SameButSpans e') (items : List Expr) : e.form ≠ .tuple items := by
  cases h <;> nofun

end Expr.SameButSpans

namespace Arithmetic

/-! ### Words -/

/-- A name that is no keyword. -/
structure Identifier where
  text : String
  spelled : ∃ c cs, text.toList = c :: cs ∧ Lexeme.startsName c = true ∧
    ∀ d ∈ cs, Lexeme.continuesName d = true
  plain : Spelling.isKeyword text = false

/-- Decimal digits, with underscores between them. -/
structure Numeral where
  text : String
  spelled : ∃ c cs, text.toList = c :: cs ∧ c.isDigit = true ∧
    ∀ d ∈ cs, (d.isDigit || d == '_') = true

inductive Sign where
  | plus
  | minus
  | tilde
deriving DecidableEq, Repr

namespace Sign

def symbol : Sign → String
  | plus => "+"
  | minus => "-"
  | tilde => "~"

def op : Sign → UnaryOp
  | plus => .plus
  | minus => .minus
  | tilde => .invert

theorem mem_prefixOperators (s : Sign) : (s.symbol, s.op) ∈ Language.prefixOperators := by
  cases s <;> decide

def word (s : Sign) : Word :=
  ⟨.op, s.symbol⟩

end Sign

def Identifier.word (id : Identifier) : Word :=
  ⟨.name, id.text⟩

def Numeral.word (n : Numeral) : Word :=
  ⟨.number, n.text⟩

def link (op : BinOp) : Word :=
  ⟨.op, op.symbol⟩

def opening : Word :=
  ⟨.op, "("⟩

def closing : Word :=
  ⟨.op, ")"⟩

inductive IsWord : Word → Prop
  | name (id : Identifier) : IsWord id.word
  | number (n : Numeral) : IsWord n.word
  | sign (sign : Sign) : IsWord sign.word
  | link (op : BinOp) : IsWord (link op)
  | opening : IsWord opening
  | closing : IsWord closing

/-- The first word of an operand behind its signs. -/
inductive StartsAtom : Word → Prop
  | name (id : Identifier) : StartsAtom id.word
  | number (n : Numeral) : StartsAtom n.word
  | opening : StartsAtom opening

/-! ### Formulas -/

inductive Formula where
  | name (id : Identifier)
  | number (n : Numeral)
  | group (inner : Formula)
  | signed (sign : Sign) (operand : Formula)
  | binary (left : Formula) (op : BinOp) (right : Formula)

namespace Formula

def words : Formula → List Word
  | name id => [id.word]
  | number n => [n.word]
  | group inner => opening :: (inner.words ++ [closing])
  | signed sign operand => sign.word :: operand.words
  | binary left op right => left.words ++ link op :: right.words

def nesting : Formula → Nat
  | name _ | number _ => 0
  | group inner => inner.nesting + 1
  | signed _ operand => operand.nesting
  | binary left _ right => max left.nesting right.nesting

/-- The words with a space between each and the next. -/
def spaced (f : Formula) : String :=
  String.ofList ([' '].intercalate (f.words.map fun w => w.text.toList))

/-- The words one right after the other. -/
def dense (f : Formula) : String :=
  String.ofList (f.words.map fun w => w.text.toList).flatten

end Formula

/-! ### Derivations -/

/-- The words stand for the expression, on this level of precedence: on the last are single words
and groups, on the one before powers and signed operands. Groups stand in each other no deeper than
`deep`. -/
inductive Derives : (deep level : Nat) → List Word → Expr → Prop
  | name {deep : Nat} (id : Identifier) : Derives deep 7 [id.word] ⟨.name id.text, default⟩
  | number {deep : Nat} (n : Numeral) :
      Derives deep 7 [n.word] ⟨.constant (.number n.text), default⟩
  | group {deep : Nat} {ws : List Word} {e : Expr} (hinner : Derives deep 0 ws e) :
      Derives (deep + 1) 7 (opening :: (ws ++ [closing])) e
  | power {deep : Nat} {ws ws' : List Word} {base exponent : Expr} (hbase : Derives deep 7 ws base)
      (hexponent : Derives deep 6 ws' exponent) :
      Derives deep 6 (ws ++ link .pow :: ws') ⟨.binOp base .pow exponent, default⟩
  | signed {deep : Nat} {ws : List Word} {e : Expr} (sign : Sign) (hoperand : Derives deep 6 ws e) :
      Derives deep 6 (sign.word :: ws) ⟨.unaryOp sign.op e, default⟩
  | binary {deep level : Nat} {ws ws' : List Word} {left right : Expr} {op : BinOp}
      (hop : op.precedence = level) (hlevel : level < 6) (hleft : Derives deep level ws left)
      (hright : Derives deep (level + 1) ws' right) :
      Derives deep level (ws ++ link op :: ws') ⟨.binOp left op right, default⟩
  | tighter {deep level : Nat} {ws : List Word} {e : Expr} (hlevel : level < 7)
      (h : Derives deep (level + 1) ws e) : Derives deep level ws e

/-- An operand with any signs before it. -/
inductive IsOperand (deep : Nat) : List Word → Prop
  | atom {ws : List Word} {e : Expr} (h : Derives deep 7 ws e) : IsOperand deep ws
  | signed {ws : List Word} (sign : Sign) (h : IsOperand deep ws) : IsOperand deep (sign.word :: ws)

/-- Operands between operators. -/
inductive IsRow (deep : Nat) : List Word → Prop
  | operand {ws : List Word} (h : IsOperand deep ws) : IsRow deep ws
  | cons {ws ws' : List Word} (h : IsOperand deep ws) (op : BinOp) (hrest : IsRow deep ws') :
      IsRow deep (ws ++ link op :: ws')

variable {deep level : Nat} {ws ws' : List Word} {e : Expr}

theorem Derives.isWord (h : Derives deep level ws e) : ∀ w ∈ ws, IsWord w := by
  induction h with
  | name id => simpa using .name id
  | number n => simpa using .number n
  | group _ ih => simpa [or_imp, forall_and, IsWord.opening, IsWord.closing] using ih
  | power _ _ ihBase ihExponent =>
    simp only [List.mem_append, List.mem_cons]
    rintro w (hw | rfl | hw)
    · exact ihBase w hw
    · exact .link .pow
    · exact ihExponent w hw
  | signed sign _ ih => simpa [IsWord.sign] using ih
  | @binary _ _ _ _ _ _ op _ _ _ _ ihLeft ihRight =>
    simp only [List.mem_append, List.mem_cons]
    rintro w (hw | rfl | hw)
    · exact ihLeft w hw
    · exact .link op
    · exact ihRight w hw
  | tighter _ _ ih => exact ih

theorem Derives.starts (h : Derives deep level ws e) :
    ∃ w ws', ws = w :: ws' ∧ (StartsAtom w ∨ level < 7 ∧ ∃ sign : Sign, w = sign.word) := by
  induction h with
  | name id => exact ⟨_, [], rfl, .inl (.name id)⟩
  | number n => exact ⟨_, [], rfl, .inl (.number n)⟩
  | group => exact ⟨_, _, rfl, .inl .opening⟩
  | power _ _ ih =>
    obtain ⟨w, ws', rfl, hstarts⟩ := ih
    exact ⟨w, _, rfl, .inl (hstarts.resolve_right (by simp))⟩
  | signed sign => exact ⟨_, _, rfl, .inr ⟨by decide, sign, rfl⟩⟩
  | binary _ hlevel _ _ ih =>
    obtain ⟨w, ws', rfl, hstarts⟩ := ih
    exact ⟨w, _, rfl, hstarts.imp_right (And.imp_left fun _ => by omega)⟩
  | tighter hlevel _ ih =>
    obtain ⟨w, ws', rfl, hstarts⟩ := ih
    exact ⟨w, ws', rfl, hstarts.imp_right (And.imp_left fun _ => hlevel)⟩

theorem Derives.lower {k : Nat} (h : Derives deep level ws e) (hle : k ≤ level)
    (hlevel : level ≤ 7) : Derives deep k ws e := by
  obtain ⟨more, rfl⟩ := Nat.exists_eq_add_of_le hle
  clear hle
  induction more with
  | zero => exact h
  | succ more ih => exact ih (.tighter (by omega) h) (by omega)

namespace IsOperand

theorem derives (h : IsOperand deep ws) : ∃ e, Derives deep 6 ws e := by
  induction h with
  | atom h => exact ⟨_, .tighter (by decide) h⟩
  | signed sign _ ih =>
    obtain ⟨e, he⟩ := ih
    exact ⟨_, .signed sign he⟩

theorem power (h : IsOperand deep ws) (hexponent : Derives deep 6 ws' e) :
    ∃ e', Derives deep 6 (ws ++ link .pow :: ws') e' := by
  induction h with
  | atom h => exact ⟨_, .power h hexponent⟩
  | signed sign _ ih =>
    obtain ⟨e', he'⟩ := ih
    exact ⟨_, .signed sign he'⟩

/-- One more operand in front of all others, with an operator that binds no looser than they do. -/
theorem prepend (hx : IsOperand deep ws) {op : BinOp} (hop : level ≤ op.precedence)
    (hlevel : level ≤ 6) (h : Derives deep level ws' e) :
    ∃ e', Derives deep level (ws ++ link op :: ws') e' := by
  induction h with
  | name | number | group => omega
  | power hbase hexponent =>
    cases BinOp.eq_pow hop
    exact hx.power (.power hbase hexponent)
  | signed sign hoperand =>
    cases BinOp.eq_pow hop
    exact hx.power (.signed sign hoperand)
  | binary hsame hloose _ hright ihLeft =>
    obtain ⟨e', he'⟩ := ihLeft hx hop hlevel
    have hjoined := Derives.binary hsame hloose he' hright
    rw [List.append_assoc, List.cons_append] at hjoined
    exact ⟨_, hjoined⟩
  | @tighter deep level ws' e hlt h ih =>
    obtain heq | hless := Nat.eq_or_lt_of_le hop
    -- The operator is of this level itself, so here its two sides come together.
    · obtain heq6 | hless6 := Nat.eq_or_lt_of_le hlevel
      · cases BinOp.eq_pow (heq6 ▸ hop)
        subst heq6
        exact hx.power (.tighter hlt h)
      · obtain ⟨left, hleft⟩ := hx.derives
        exact ⟨_, .binary heq.symm hless6 (hleft.lower hlevel (by decide)) h⟩
    · have hprecedence := BinOp.precedence_le op
      obtain ⟨e', he'⟩ := ih hx hless (by omega)
      exact ⟨e', .tighter hlt he'⟩

end IsOperand

namespace IsRow

theorem append (h : IsRow deep ws) (op : BinOp) (h' : IsRow deep ws') :
    IsRow deep (ws ++ link op :: ws') := by
  induction h with
  | operand h => exact .cons h op h'
  | cons h op' _ ih =>
    rw [List.append_assoc, List.cons_append]
    exact .cons h op' ih

theorem signed (sign : Sign) (h : IsRow deep ws) : IsRow deep (sign.word :: ws) := by
  cases h with
  | operand h => exact .operand (.signed sign h)
  | cons h op hrest =>
    rw [← List.cons_append]
    exact .cons (.signed sign h) op hrest

theorem derives (h : IsRow deep ws) : ∃ e, Derives deep 0 ws e := by
  induction h with
  | operand h =>
    obtain ⟨e, he⟩ := h.derives
    exact ⟨e, he.lower (Nat.zero_le 6) (by decide)⟩
  | cons h op _ ih =>
    obtain ⟨e, he⟩ := ih
    exact h.prepend (Nat.zero_le _) (Nat.zero_le 6) he

end IsRow

theorem Formula.isRow (f : Formula) (h : f.nesting ≤ deep) : IsRow deep f.words := by
  induction f generalizing deep with
  | name id => exact .operand (.atom (.name id))
  | number n => exact .operand (.atom (.number n))
  | group inner ih =>
    obtain ⟨less, rfl⟩ := Nat.exists_eq_add_of_le' (Nat.le_of_add_left_le h)
    obtain ⟨e, he⟩ := (ih (Nat.le_of_add_le_add_right h)).derives
    exact .operand (.atom (.group he))
  | signed sign operand ih => exact (ih h).signed sign
  | binary left op right ihLeft ihRight =>
    obtain ⟨hleft, hright⟩ := Nat.max_le.mp h
    exact (ihLeft hleft).append op (ihRight hright)

/-- Every formula stands for an expression, whatever its operators do to each other. -/
theorem Formula.derives (f : Formula) (h : f.nesting ≤ deep) : ∃ e, Derives deep 0 f.words e :=
  (f.isRow h).derives

end Arithmetic

end ShellSyntax
