import ShellSyntax.Proofs.Language.MadeStatements
import ShellSyntax.Proofs.Language.Spans
import ShellSyntax.Proofs.Lexer.TokenLines
import ShellSyntax.Proofs.Text.PhysicalLines

/-!
What leaves span of the text. A name, a number and a variable span just what they are in the source,
and an attribute ends with its name. Only the name that a value is bound to spans the sign behind it
too.
-/

namespace ShellSyntax

open Text ShellSyntax.Language

def Expr.spanned (text : List Char) (e : Expr) : List Char :=
  slice text e.span.start e.span.stop

/-- A leaf spans what it is in the text, and an attribute ends with its name. -/
def Expr.IsSpelled (text : List Char) (e : Expr) : Prop :=
  match e.form with
  | .name id => e.spanned text = id.toList
  | .constant (.number digits) => e.spanned text = digits.toList
  | .namedVariable id => e.spanned text = '$' :: id.toList
  | .attribute _ attr => attr.toList <:+ e.spanned text
  | _ => True

def Node.IsSpelled (text : List Char) : Node → Prop
  | .expr e => e.IsSpelled text
  | _ => True

/-- A name that spans itself and, further on, the sign of a binding. -/
def Expr.IsSpelledWithSign (text : List Char) (e : Expr) : Prop :=
  ∃ id between, e.form = .name id ∧ e.spanned text = id.toList ++ between ++ [':', '=']

/-! ### Tokens one after the other -/

section Feed

variable {f : Feed} {i k : Nat} {first last : Token}

theorem Feed.InOrder.spanSince_eq (inOrder : f.InOrder) (hle : i ≤ k) (hfirst : f.token i = .ok first)
    (hlast : f.token k = .ok last) (hlayout : last.kind.isLayout = false) :
    f.spanSince i (k + 1) = ⟨first.start, last.stop⟩ := by
  have hforward : first.start ≤ last.stop :=
    Position.le_trans (inOrder.start_mono hle hfirst hlast) (inOrder.forward hlast)
  have hlastToken : f.lastToken? (k + 1) = some last := by
    simp [Feed.lastToken?, hlast, hlayout]
  simp [Feed.spanSince, Feed.startOf, hfirst, hlastToken, Position.later_of_le hforward]

end Feed

namespace Program

variable {source : Source} {origin : Option Origin} {options : ParseOptions} {tree : Ast}
  {s : ProgramSession} {text : List Char} {i k : Nat} {token first last : Token} {e : Expr}

theorem firstWorld_inOrder : (firstWorld (.ofText text) origin options).InOrder :=
  ⟨TokenStream.supply_forward, TokenStream.supply_sorted⟩

theorem token_onLine (htoken : (firstWorld (.ofText text) origin options).token i = .ok token) :
    OnLine text token.start := by
  obtain ⟨found, l, reached, hmem⟩ := TokenStream.supply_found htoken
  obtain ⟨p, tiled⟩ := reached.tiled
  exact tiled.onLine token (List.mem_append_left _ hmem)

def leafKinds : List TokenKind :=
  [.op, .name, .word, .number]

theorem isLayout_of_leaf (hkind : token.kind ∈ leafKinds) : token.kind.isLayout = false := by
  have hall : ∀ kind ∈ leafKinds, kind.isLayout = false := by
    decide
  exact hall _ hkind

theorem token_verbatim (htoken : (firstWorld (.ofText text) origin options).token i = .ok token)
    (hkind : token.kind ∈ leafKinds) : IsVerbatim text token := by
  have hall : ∀ kind ∈ leafKinds, ¬ Lexer.IsLiteral kind := by
    decide
  obtain ⟨found, l, reached, hmem⟩ := TokenStream.supply_found htoken
  exact reached.verbatim hmem ⟨hall _ hkind, isLayout_of_leaf hkind⟩

theorem slice_to_end (hle : i ≤ k)
    (hfirst : (firstWorld (.ofText text) origin options).token i = .ok first)
    (hlast : (firstWorld (.ofText text) origin options).token k = .ok last)
    (hkind : last.kind ∈ leafKinds) :
    slice text first.start last.stop = slice text first.start last.start ++ last.text.toList := by
  have verbatim := token_verbatim hlast hkind
  have hstarts := offset_mono (token_onLine hfirst) (firstWorld_inOrder.start_mono hle hfirst hlast)
  have hlastForward := offset_mono (token_onLine hlast) (firstWorld_inOrder.forward hlast)
  rw [verbatim.1, slice_append hstarts hlastForward]

theorem slice_from_start (hlt : i < k)
    (hfirst : (firstWorld (.ofText text) origin options).token i = .ok first)
    (hlast : (firstWorld (.ofText text) origin options).token k = .ok last)
    (hkind : first.kind ∈ leafKinds) :
    slice text first.start last.start = first.text.toList ++ slice text first.stop last.start := by
  have verbatim := token_verbatim hfirst hkind
  have hforward := offset_mono verbatim.2.1 (firstWorld_inOrder.forward hfirst)
  have hbetween := offset_mono verbatim.2.2 (firstWorld_inOrder.sorted hlt hfirst hlast)
  rw [verbatim.1, slice_append hforward hbetween]

/-! ### Leaves -/

theorem spansOne_spelled {kind : TokenKind} {content : String} {span : Span}
    (h : (firstWorld (.ofText text) origin options).SpansOne kind content span)
    (hkind : kind ∈ leafKinds) : slice text span.start span.stop = content.toList := by
  obtain ⟨i, token, htoken, rfl, rfl, rfl⟩ := h
  rw [firstWorld_inOrder.spanSince_eq (Nat.le_refl i) htoken htoken (isLayout_of_leaf hkind)]
  exact (token_verbatim htoken hkind).1.symm

theorem spansVariable_spelled {id : String} {span : Span}
    (h : (firstWorld (.ofText text) origin options).SpansVariable id span) :
    slice text span.start span.stop = '$' :: id.toList := by
  obtain ⟨i, dollar, token, hdollar, hkind, htext, htoken, hname, rfl, htouches, rfl⟩ := h
  have hleaf : token.kind ∈ leafKinds := hname ▸ by decide
  have hdollarLeaf : dollar.kind ∈ leafKinds := by
    rcases hkind with hkind | hkind | hkind <;> rw [hkind] <;> decide
  rw [firstWorld_inOrder.spanSince_eq (Nat.le_succ i) hdollar htoken (isLayout_of_leaf hleaf)]
  dsimp only
  rw [slice_to_end (Nat.le_succ i) hdollar htoken hleaf, ← htouches,
    ← (token_verbatim hdollar hdollarLeaf).1, htext]
  rfl

theorem endsWithName_spelled (hwhole : (firstWorld (.ofText text) origin options).Whole)
    {attr : String} {span : Span}
    (h : (firstWorld (.ofText text) origin options).EndsWithName attr span) :
    attr.toList <:+ slice text span.start span.stop := by
  obtain ⟨i, k, token, hle, htoken, hname, rfl, rfl⟩ := h
  have hle : i ≤ k := hle hwhole rfl
  have hleaf : token.kind ∈ leafKinds := hname ▸ by decide
  obtain ⟨first, hfirst⟩ := hwhole i
  rw [firstWorld_inOrder.spanSince_eq hle hfirst htoken (isLayout_of_leaf hleaf)]
  dsimp only
  rw [slice_to_end hle hfirst htoken hleaf]
  exact List.suffix_append _ _

theorem bindsName_spelled (h : (firstWorld (.ofText text) origin options).BindsName e) :
    e.IsSpelledWithSign text := by
  obtain ⟨i, token, htoken, hname, ⟨sign, hsign, hkind, htext⟩, rfl⟩ := h
  have hleaf : token.kind ∈ leafKinds := hname ▸ by decide
  have hsignLeaf : sign.kind ∈ leafKinds := by
    rcases hkind with hkind | hkind | hkind <;> rw [hkind] <;> decide
  refine ⟨token.text, slice text token.stop sign.start, rfl, ?_⟩
  rw [Expr.spanned,
    firstWorld_inOrder.spanSince_eq (Nat.le_succ i) htoken hsign (isLayout_of_leaf hsignLeaf)]
  dsimp only
  rw [slice_to_end (Nat.le_succ i) htoken hsign hsignLeaf,
    slice_from_start (Nat.lt_succ_self i) htoken hsign hleaf, htext]
  rfl

theorem made_spelled (hwhole : (firstWorld (.ofText text) origin options).Whole) {n : Node}
    (hmade : n.Made (firstWorld (.ofText text) origin options)) : n.IsSpelled text := by
  cases n with
  | stmt | handler => trivial
  | expr e =>
    obtain ⟨form, span⟩ := e
    cases form with
    | name id => exact spansOne_spelled hmade (by decide)
    | constant value =>
      cases value with
      | number digits => exact spansOne_spelled hmade (by decide)
      | _ => trivial
    | namedVariable id => exact spansVariable_spelled hmade
    | «attribute» value attr => exact endsWithName_spelled hwhole hmade
    | _ => trivial

/-- An accepted text or file has been read to its end, and the nodes of its tree span tokens, which
come in order. -/
theorem accepted_between (cut : Source.Cut source)
    (hparse : parse options.mode (start source origin options) = (.ok tree, s)) :
    source = .ofText (Source.readable source) ∧ (firstWorld source origin options).Whole ∧
      (firstWorld source origin options).InOrder ∧ ∃ j,
        (∀ k < j, ∀ t, (firstWorld source origin options).token k = .ok t → t ∈ s.stream.tokens) ∧
        AllBetween (firstWorld source origin options).toFeed 0 j (nodes tree) := by
  obtain ⟨k, marker, hmarker, hkind, _, htokens, hplaced⟩ := accepted_at hparse
  obtain ⟨lines, hlines⟩ := TokenStream.readable_of_endMarker hmarker hkind
  have hwhole : (firstWorld source origin options).Whole :=
    TokenStream.supply_endless hmarker hkind
  have htext : source = .ofText (Source.readable source) := cut.eq_ofText (by simp [hlines])
  have inOrder : (firstWorld source origin options).InOrder := htext ▸ firstWorld_inOrder
  exact ⟨htext, hwhole, inOrder, k + 1, htokens, hplaced hwhole⟩

/-- In the tree of an accepted text or file, each name, number and variable spans just itself in the
source and each attribute ends with its name, but for names that a value is bound to: these span the
sign behind them too. All nodes span the source from the start of a token to the end of one. -/
theorem leaves_spell_themselves (cut : Source.Cut source)
    (hparse : parse options.mode (start source origin options) = (.ok tree, s)) :
    let text := Source.readable source
    ∀ root ∈ nodes tree, root.IsSpelled text ∧ ∀ n, root.Contains n →
      n.Spans s.stream.tokens ∧
      (∀ child ∈ n.children, child.IsSpelled text ∨
        ∃ target value span, n = .expr ⟨.binding target value, span⟩ ∧ child = .expr target) ∧
      ∀ target value span, n = .expr ⟨.binding target value, span⟩ →
        target.IsSpelledWithSign text := by
  intro text root hroot
  obtain ⟨htext, hwhole, inOrder, j, htokens, hbetween⟩ := accepted_between cut hparse
  obtain ⟨hmade, hbelow⟩ := accepted_all_made hparse root hroot
  have hspans : ∀ n, root.Contains n → n.Spans s.stream.tokens := fun n hcontains =>
    ((hbetween root hroot).contained hcontains).spans inOrder htokens
  rw [htext] at hwhole hmade hbelow
  refine ⟨made_spelled hwhole hmade, fun n hcontains => ⟨hspans n hcontains, ?_, ?_⟩⟩
  · intro child hchild
    refine (hbelow n hcontains child hchild).imp (made_spelled hwhole) ?_
    rintro ⟨target, value, span, hn, hsame, -⟩
    exact ⟨target, value, span, hn, hsame⟩
  · rintro target value span rfl
    have hbinds : (firstWorld source origin options).BindsName target :=
      accepted_made hparse root hroot _ hcontains
    rw [htext] at hbinds
    exact bindsName_spelled hbinds

/-- The spans of the name and the number, if the program assigns the one to the other. -/
def assignedSpans? (tree : Module) : Option (Span × Span) :=
  match tree.body with
  | [⟨.assign [⟨.name "a", left⟩] ⟨.constant (.number "12"), right⟩, _⟩] => some (left, right)
  | _ => none

theorem leaves_spell_themselves_of_assignment :
    ∃ left right span s,
      parse .exec (start (.ofString "a = 12\n") none .default) = (.ok (.module ⟨[⟨.assign
        [⟨.name "a", left⟩] ⟨.constant (.number "12"), right⟩, span⟩]⟩), s) ∧
      slice (Source.readable (.ofString "a = 12\n")) left.start left.stop = "a".toList ∧
      slice (Source.readable (.ofString "a = 12\n")) right.start right.stop = "12".toList := by
  obtain ⟨⟨stmts⟩, s, hparse, hspans⟩ := accepted_of_read (.ofString "a = 12\n") none .default
    (fun tree => (assignedSpans? tree).isSome) 5000 (by decide +kernel) (by decide +kernel)
  unfold assignedSpans? at hspans
  split at hspans
  case h_1 left right span heq =>
    cases heq
    have haccepted : parse ParseOptions.default.mode (start (.ofString "a = 12\n") none .default) =
      (.ok _, s) := hparse
    have hall := (leaves_spell_themselves (Source.cut_ofText _) haccepted _ List.mem_cons_self).2 _
      .self
    have hleaf (e : Expr) (he : Node.expr e ∈ Node.children (.stmt ⟨.assign [⟨.name "a", left⟩]
        ⟨.constant (.number "12"), right⟩, span⟩)) :
        e.IsSpelled (Source.readable (.ofString "a = 12\n")) :=
      (hall.2.1 (.expr e) he).resolve_right (by rintro ⟨_, _, _, h, -⟩; cases h)
    exact ⟨left, right, span, s, hparse, hleaf ⟨.name "a", left⟩ (by simp [Node.children, nodes]),
      hleaf ⟨.constant (.number "12"), right⟩ (by simp [Node.children, nodes])⟩
  case h_2 => cases hspans

/-- What the name spans that the only expression of the program binds. -/
def boundSpan? (tree : Module) : Option Span :=
  match tree.body with
  | [⟨.expr ⟨.binding ⟨.name "x", span⟩ _, _⟩, _⟩] => some span
  | _ => none

/-- A name that is bound spans more than itself. -/
theorem bound_name_spans_sign :
    ¬ ∀ (text : String) (options : ParseOptions) (tree : Ast) (s : ProgramSession),
      parse options.mode (start (.ofString text) none options) = (.ok tree, s) →
      ∀ root ∈ nodes tree, ∀ id span, root.Contains (.expr ⟨.name id, span⟩) →
        slice text.toList span.start span.stop = id.toList := by
  intro claimed
  obtain ⟨⟨stmts⟩, s, hparse, hbound⟩ := accepted_of_read (.ofString "(x := 1)\n") none .default
    (fun tree => boundSpan? tree == some ⟨⟨1, 1⟩, ⟨1, 5⟩⟩) 5000 (by decide +kernel)
    (by decide +kernel)
  replace hbound := beq_iff_eq.mp hbound
  unfold boundSpan? at hbound
  split at hbound
  case h_1 span value binding stmt heq =>
    cases heq
    cases hbound
    have hname := claimed "(x := 1)\n" .default _ s hparse _ List.mem_cons_self "x" ⟨⟨1, 1⟩, ⟨1, 5⟩⟩
      (.child (.child .self List.mem_cons_self) List.mem_cons_self)
    exact absurd hname (by decide +kernel)
  case h_2 => cases hbound

end Program

end ShellSyntax
