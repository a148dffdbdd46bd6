import ShellSyntax.Proofs.Language.Accepted
import ShellSyntax.Proofs.Language.StatementPlaces
import ShellSyntax.Proofs.Parser.Order
import ShellSyntax.Proofs.Text.Bytes

/-!
Spans nest. A program that is accepted was read to its end, so no token is missing, and each node of
its tree spans tokens; these come in the order of the text.
-/

namespace ShellSyntax

/-! ### Spans in a text -/

theorem Position.later_of_le {p q : Position} (h : q ≤ p) : p.later q = p := by
  unfold later
  split
  case isTrue hback =>
    obtain ⟨line, column⟩ := p
    obtain ⟨line', column'⟩ := q
    rw [le_iff] at h hback
    dsimp only at h hback
    have hline : line' = line := by omega
    have hcolumn : column' = column := by omega
    rw [hline, hcolumn]
  case isFalse => rfl

/-- Tokens come in the order of the text. -/
structure Feed.InOrder (f : Feed) : Prop where
  forward : ∀ {i t}, f.token i = .ok t → t.start ≤ t.stop
  sorted : ∀ {i j t u}, i < j → f.token i = .ok t → f.token j = .ok u → t.stop ≤ u.start

/-- The node spans the source from the start of a token to the end of one that is no layout, and
the nodes right below it span parts of that. -/
structure Node.Spans (tokens : Array Token) (n : Node) : Prop where
  forward : n.span.start ≤ n.span.stop
  first : ∃ t ∈ tokens, n.span.start = t.start
  last : ∃ t ∈ tokens, t.kind.isLayout = false ∧ n.span.stop = t.stop
  nested : ∀ child ∈ n.children,
    n.span.start ≤ child.span.start ∧ child.span.stop ≤ n.span.stop

section Feed

variable {f : Feed} {i j a b : Nat} {t u : Token} {n m : Node}

theorem Feed.InOrder.start_mono (inOrder : f.InOrder) (hle : i ≤ j) (ht : f.token i = .ok t)
    (hu : f.token j = .ok u) : t.start ≤ u.start := by
  rcases Nat.lt_or_eq_of_le hle with hlt | rfl
  · exact Position.le_trans (inOrder.forward ht) (inOrder.sorted hlt ht hu)
  · cases ht.symm.trans hu
    exact Position.le_refl _

theorem Feed.InOrder.stop_mono (inOrder : f.InOrder) (hle : i ≤ j) (ht : f.token i = .ok t)
    (hu : f.token j = .ok u) : t.stop ≤ u.stop := by
  rcases Nat.lt_or_eq_of_le hle with hlt | rfl
  · exact Position.le_trans (inOrder.sorted hlt ht hu) (inOrder.forward hu)
  · cases ht.symm.trans hu
    exact Position.le_refl _

namespace Node.Between

theorem contained (h : n.Between f i j) (hcontains : n.Contains m) : m.Between f i j := by
  induction hcontains with
  | self => exact h
  | child _ hchild induction => exact induction.children _ hchild

theorem ends (inOrder : f.InOrder) (h : n.Between f i j) :
    ∃ a b first last, i ≤ a ∧ a ≤ b ∧ b < j ∧ f.token a = .ok first ∧ f.token b = .ok last ∧
      last.kind.isLayout = false ∧ n.span = ⟨first.start, last.stop⟩ ∧
      AllBetween f a (b + 1) n.children := by
  cases h with
  | intro hstart hle hstop hfirst hlast hlayout hspan hchildren =>
    refine ⟨_, _, _, _, hstart, hle, hstop, hfirst, hlast, hlayout, ?_, hchildren⟩
    have hforward := Position.le_trans (inOrder.start_mono hle hfirst hlast) (inOrder.forward hlast)
    rw [hspan, Position.later_of_le hforward]

theorem spans (inOrder : f.InOrder) (h : n.Between f i j) {tokens : Array Token}
    (htokens : ∀ k < j, ∀ t, f.token k = .ok t → t ∈ tokens) : n.Spans tokens := by
  obtain ⟨a, b, first, last, hstart, hle, hstop, hfirst, hlast, hlayout, hspan, hchildren⟩ :=
    h.ends inOrder
  refine ⟨?_, ⟨first, htokens a (by omega) first hfirst, ?_⟩,
    ⟨last, htokens b hstop last hlast, hlayout, ?_⟩, fun child hchild => ?_⟩
  · rw [hspan]
    exact Position.le_trans (inOrder.start_mono hle hfirst hlast) (inOrder.forward hlast)
  · rw [hspan]
  · rw [hspan]
  · obtain ⟨c, d, first', last', hc, _, hd, hfirst', hlast', _, hspan', _⟩ :=
      (hchildren child hchild).ends inOrder
    rw [hspan, hspan']
    exact ⟨inOrder.start_mono hc hfirst hfirst', inOrder.stop_mono (by omega) hlast' hlast⟩

end Node.Between

end Feed

/-! ### Accepted programs -/

namespace Language

open Matcher

variable {W : World} {post : Matches rules} {i : Nat}

theorem entry_leads (mode : ParseMode) :
    Leads W post (body mode.entry) i fun found j =>
      found.isSome → ∃ k t, j = k + 1 ∧ W.token k = .ok t ∧ t.kind = .endMarker := by
  cases mode with
  | exec =>
    refine .bind ((LeadsIn.any stmtList).mono fun body j _ => ?_)
    exact .acceptsKind (fun t ht hkind _ => ⟨j, t, rfl, ht, hkind⟩) nofun
  | eval =>
    refine .bind ((LeadsIn.any exprTuple).mono ?_)
    rintro (_ | value) j _
    · exact nofun
    refine .bind ((LeadsIn.any (many (ofKind .newline))).mono fun _ k _ => ?_)
    exact .acceptsKind (fun t ht hkind _ => ⟨k, t, rfl, ht, hkind⟩) nofun

end Language

namespace Program

open ShellSyntax.Language

variable {source : Source} {origin : Option Origin} {options : ParseOptions} {tree : Ast}
  {s : ProgramSession}

theorem matched_tree {W : ClearWorld} {mode : ParseMode} {found : mode.entry.Node} {i j : Nat}
    (hmatched : matched W mode.entry i (some found) j) :
    AllBetween W.toFeed i j (nodes (mode.tree found)) := by
  cases mode with
  | exec => exact Lays.of_some hmatched
  | eval => exact Lays.of_some hmatched

theorem accepted_at (hparse : parse options.mode (start source origin options) = (.ok tree, s)) :
    let W := firstWorld source origin options
    ∃ k marker, W.token k = .ok marker ∧ marker.kind = .endMarker ∧ s.mark = k + 1 ∧
      (∀ i < k + 1, ∀ t, W.token i = .ok t → t ∈ s.stream.tokens) ∧
        ((∀ i, ∃ t, W.token i = .ok t) → AllBetween W.toFeed 0 (k + 1) (nodes tree)) := by
  intro W
  have fresh := TokenStream.fresh_ofLexer source options.tabSize origin
  obtain ⟨found, hrun, rfl⟩ := parse_entry hparse
  obtain ⟨n, j, hresult, hat⟩ := parse_ok (K := ranking) governs rules_distinguished
    options.mode.isEntry_entry fresh hrun
  have hleads : Leads W (fun _ _ _ _ => True) (body options.mode.entry) 0 _ :=
    entry_leads options.mode
  obtain ⟨k, marker, rfl, hmarker, hkind⟩ :=
    hleads.read (fun _ _ _ _ _ => trivial) _ _ hresult rfl
  refine ⟨k, marker, hmarker, hkind, hat.mark, ?_, fun hwhole => ?_⟩
  · intro i hi t ht
    obtain ⟨t', reads, hfilled, hstream⟩ := hat.stream
    obtain ⟨token, htoken, hsupply⟩ :=
      (fresh.filled hfilled).supply (Nat.lt_of_lt_of_le hi hat.le)
    cases ht.symm.trans hsupply
    rw [hstream]
    exact Array.mem_of_getElem? htoken
  · let clear : ClearWorld := { W with whole := hwhole, quiet := rfl }
    have hleads : Leads clear.toWorld (matched clear) (body options.mode.entry) 0
        (matched clear options.mode.entry 0) :=
      (grammar_leads clear).body _ _
    have hcallee : Callee.Leads (matched clear) (W.answer grammar ranking) :=
      fun r i => (grammar_leads clear).call _ r i
    exact matched_tree (hleads.read hcallee _ _ hresult)

/-- In the tree of an accepted text or file, every statement, expression and handler spans the
source from the start of a token to the end of one that is no layout, not backwards, and those right
below it span parts of that. -/
theorem spans_nest
    (hsource : (∃ text, source = .ofString text) ∨ ∃ bytes, source = .ofBytes bytes)
    (hparse : parse options.mode (start source origin options) = (.ok tree, s)) :
    ∀ root ∈ nodes tree, ∀ n, root.Contains n → n.Spans s.stream.tokens := by
  intro root hroot n hcontains
  obtain ⟨k, marker, hmarker, hkind, _, htokens, hplaced⟩ := accepted_at hparse
  obtain ⟨text, rfl⟩ : ∃ text, source = .ofText text := by
    rcases hsource with ⟨text, rfl⟩ | ⟨bytes, rfl⟩
    · exact ⟨text.toList, rfl⟩
    · obtain ⟨lines, hlines⟩ := TokenStream.readable_of_endMarker hmarker hkind
      exact ⟨lines.flatten, Source.ofBytes_eq_ofText hlines⟩
  have inOrder : (firstWorld (.ofText text) origin options).InOrder :=
    ⟨TokenStream.supply_forward, TokenStream.supply_sorted⟩
  have hroot := hplaced (TokenStream.supply_endless hmarker hkind) root hroot
  exact (hroot.contained hcontains).spans inOrder htokens

theorem spans_nest_of_call :
    ∃ tree s root, parse .exec (start (.ofString "f(x)\n") none .default) = (.ok tree, s) ∧
      root ∈ nodes tree ∧ ∀ n, root.Contains n → n.Spans s.stream.tokens := by
  obtain ⟨tree, s, hparse, hnodes⟩ := accepted_of_read (.ofString "f(x)\n") none .default
    (fun tree => !(nodes (Ast.module tree)).isEmpty) 1000 (by decide +kernel) (by decide +kernel)
  have hsome : nodes (Ast.module tree) ≠ [] := by simpa using hnodes
  obtain ⟨root, hroot⟩ := List.exists_mem_of_ne_nil _ hsome
  have haccepted : parse ParseOptions.default.mode (start (.ofString "f(x)\n") none .default) =
      (.ok (.module tree), s) := hparse
  exact ⟨_, s, root, hparse, hroot, spans_nest (.inl ⟨"f(x)\n", rfl⟩) haccepted root hroot⟩

end Program

end ShellSyntax
