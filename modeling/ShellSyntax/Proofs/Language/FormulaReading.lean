import ShellSyntax.Proofs.Language.ArithmeticParsing

/-!
A formula is a whole expression, on its own and in parentheses. No rule that is tried on the way to
its operators finds anything of its own there.
-/

namespace ShellSyntax

open ShellSyntax.Language Matcher Arithmetic

theorem Token.not_spells_start {t : Token} {w : Word} {text : String} (h : t.word = w)
    (hstarts : StartsAtom w ∨ ∃ sign : Sign, w = sign.word)
    (htext : Spelling.isKeyword text = true ∨ ∃ c ∈ text.toList, Lexeme.continuesName c = false)
    (hopening : "(" ≠ text) (hsign : ∀ sign : Sign, sign.symbol ≠ text) :
    t.spells text = false := by
  rcases hstarts with hatom | ⟨sign, rfl⟩
  · exact not_spells_atom h hatom htext hopening
  · rw [spells_of_word h, beq_false_of_ne (hsign sign)]

/-- What the rule for binary operators reads from `i` to `j` starts and ends as a formula does. -/
structure FormulaAt (W : World) (deep : Nat) (e : Expr) (i j : Nat) : Prop where
  first : ∃ t w, W.token i = .ok t ∧ t.word = w ∧ (StartsAtom w ∨ ∃ sign : Sign, w = sign.word)
  second : ∃ t, W.token (i + 1) = .ok t ∧ t.spells ":=" = false
  next : ∃ t, W.token j = .ok t ∧ t.Stops 0
  limit : i ≤ W.limit
  plain : ∀ items, e.form ≠ .tuple items
  gives : (W.answers Rule.bitOrExpr i).Gives deep (some e) j

variable {W : World} {deep i j : Nat} {ws : List Word} {e : Expr} {t : Token}

theorem Arithmetic.Derives.second (h : Derives deep 0 ws e) (hbears : W.Bears i ws)
    (hnext : W.token (i + ws.length) = .ok t) (hstops : t.Stops 0) :
    ∃ t', W.token (i + 1) = .ok t' ∧ t'.spells ":=" = false := by
  obtain ⟨w, ws', rfl, -⟩ := h.starts
  cases ws' with
  | nil => exact ⟨t, hnext, hstops.not_spells_end (by decide)⟩
  | cons w' ws' =>
    obtain ⟨t', ht', hword⟩ := hbears.2.1
    exact ⟨t', ht', Token.not_spells_assignment hword (h.isWord w' (by simp))⟩

theorem FormulaAt.of_reads (h : Derives deep 0 ws e) (hreads : W.ReadsWords deep 0 ws e)
    (hbears : W.Bears i ws) (hnext : W.token (i + ws.length) = .ok t) (hstops : t.Stops 0)
    (hlimit : i + ws.length ≤ W.limit) :
    ∃ e', e'.SameButSpans e ∧ FormulaAt W (deep + 1) e' i (i + ws.length) := by
  obtain ⟨e', hsame, hgives⟩ := hreads i t hbears hnext hstops hlimit
  refine ⟨e', hsame, ?_, h.second hbears hnext hstops, ⟨t, hnext, hstops⟩, by omega,
    hsame.not_tuple, hgives⟩
  obtain ⟨w, ws', rfl, hstarts⟩ := h.starts
  obtain ⟨t', ht', hword⟩ := hbears.1
  exact ⟨t', w, ht', hword, hstarts.imp_right And.right⟩

namespace FormulaAt

variable (h : FormulaAt W deep e i j)
include h

/-! ### Up to conditionals -/

theorem comparison : Gives W W.answers deep comparison i (some e) j := by
  obtain ⟨t, ht, hstops⟩ := h.next
  have hmiss : ∀ text, ")" ≠ text → t.spells text = false := fun _ => hstops.not_spells_end
  refine .mark (.rule h.gives (.bind (.many_none (attempt_gives_none (j := j) ?_)) .done))
  refine .bind (a := none) (.bind (oneOf_gives_none ht ?_)
    (.bind (attempt_gives_none (j := j) ?_) ?_)) .done
  · intro option hoption
    exact hmiss _ (by revert hoption; revert option; decide)
  · exact .not_accepts ht (hmiss _ (by decide)) .done
  · exact .not_accepts ht (hmiss _ (by decide)) .done

theorem notExpr : (W.answers Rule.notExpr i).Gives deep (some e) j := by
  obtain ⟨first, w, hfirst, hword, hstarts⟩ := h.first
  have hnot : first.spells "not" = false :=
    Token.not_spells_start hword hstarts (.inl (by decide)) (by decide) fun s => by
      cases s <;> decide
  exact packrat_gives rfl rfl h.limit (.mark (.not_accepts hfirst hnot h.comparison))

theorem orExpr : (W.answers Rule.orExpr i).Gives deep (some e) j := by
  obtain ⟨t, ht, hstops⟩ := h.next
  have hand : (W.answers Rule.andExpr i).Gives deep (some e) j :=
    packrat_gives rfl rfl h.limit (.mark (.bind
      (.separated_one (rule_gives h.notExpr) ht (hstops.not_spells_end (by decide))) .done))
  exact packrat_gives rfl rfl h.limit (.mark (.bind
    (.separated_one (rule_gives hand) ht (hstops.not_spells_end (by decide))) .done))

theorem expr (hquiet : W.diagnosing = false) : (W.answers Rule.expr i).Gives deep (some e) j := by
  obtain ⟨t, ht, hstops⟩ := h.next
  refine packrat_gives rfl rfl h.limit
    (.quiet hquiet (.mark (.rule h.orExpr (.bind (a := none) ?_ .done))))
  exact attempt_gives_none (j := j) (.not_accepts ht (hstops.not_spells_end (by decide)) .done)

/-! ### In parentheses -/

theorem bindingExpr (hquiet : W.diagnosing = false) :
    (W.answers Rule.bindingExpr i).Gives deep (some e) j := by
  obtain ⟨first, w, hfirst, hword, hstarts⟩ := h.first
  obtain ⟨t, ht, hstops⟩ := h.next
  have hbinding : t.spells ":=" = false := hstops.not_spells_end (by decide)
  refine packrat_gives rfl rfl h.limit (.mark ?_)
  cases hname : first.kind == .name && !Spelling.isKeyword first.text with
  | true =>
    obtain ⟨second, hsecond, hother⟩ := h.second
    refine .bind (a := some first) (j := i + 1) (.peek hfirst ?_) ?_
    · simp only [hname, if_true]
      exact .next hfirst .done
    · refine .not_accepts hsecond hother (.reset (.quiet hquiet ?_))
      exact .rule (h.expr hquiet) (.not_lookahead ht hbinding .done)
  | false =>
    refine .bind (a := none) (j := i) (.peek hfirst ?_) (.quiet hquiet ?_)
    · simp only [hname, Bool.false_eq_true, if_false]
      exact .done
    · exact .rule (h.expr hquiet) (.not_lookahead ht hbinding .done)

omit h in
theorem tupleOrSingle {item : Match (Option Expr)}
    (hitem : Gives W W.answers deep item i (some e) j) (ht : W.token j = .ok t) (hcomma : t.spells "," = false) :
    Gives W W.answers deep (tupleOrSingle item) i (some e) j :=
  .mark (.bind hitem (.bind (.loop_stops (.not_accepts ht hcomma .done)) .done))

theorem bindingTuple (hquiet : W.diagnosing = false) :
    Gives W W.answers deep bindingTuple i (some e) j := by
  obtain ⟨first, w, hfirst, hword, hstarts⟩ := h.first
  obtain ⟨t, ht, hstops⟩ := h.next
  have hstar : first.spells "*" = false :=
    Token.not_spells_start hword hstarts (.inr ⟨'*', by decide, by decide⟩) (by decide) fun s => by
      cases s <;> decide
  refine tupleOrSingle (.mark ?_) ht (hstops.not_spells_end (by decide))
  exact .not_accepts hfirst hstar (rule_gives (h.bindingExpr hquiet))

theorem exprTuple (hquiet : W.diagnosing = false) :
    Gives W W.answers deep exprTuple i (some e) j := by
  obtain ⟨t, ht, hstops⟩ := h.next
  exact tupleOrSingle (rule_gives (h.expr hquiet)) ht (hstops.not_spells_end (by decide))

theorem yielded : Gives W W.answers deep yielded i none i := by
  obtain ⟨first, w, hfirst, hword, hstarts⟩ := h.first
  have hyield : first.spells "yield" = false :=
    Token.not_spells_start hword hstarts (.inl (by decide)) (by decide) fun s => by
      cases s <;> decide
  exact .mark (.not_accepts hfirst hyield .done)

theorem forClauses : Gives W W.answers deep forClauses j none j := by
  obtain ⟨t, ht, hstops⟩ := h.next
  refine .bind (.many_none (attempt_gives_none (j := j) ?_)) .done
  refine .not_accepts ht (hstops.not_spells_end (by decide)) ?_
  exact .not_accepts ht (hstops.not_spells_end (by decide)) .done

omit h in
theorem parenthesized {i : Nat} (h : FormulaAt W deep e (i + 1) j) (hquiet : W.diagnosing = false)
    (hopening : W.token i = .ok t) (hopens : t.word = opening) {t' : Token}
    (hclosing : W.token j = .ok t') (hcloses : t'.word = closing) :
    Gives W W.answers deep parenthesized i (some e) (j + 1) := by
  obtain ⟨first, w, hfirst, hword, hstarts⟩ := h.first
  have hempty : first.spells ")" = false :=
    Token.not_spells_start hword hstarts (.inr ⟨')', by decide, by decide⟩) (by decide) fun s => by
      cases s <;> decide
  have hopen : t.spells "(" = true := by
    rw [Token.spells_of_word hopens]
    decide
  have hclose : t'.spells ")" = true := by
    rw [Token.spells_of_word hcloses]
    decide
  have hgenerator : Gives W W.answers deep generator i none i := by
    refine attempt_gives_none (j := j) (.accepts hopening hopen (.bind (a := none) ?_ .done))
    exact .rule (h.bindingExpr hquiet) (.bind (a := none) h.forClauses .done)
  refine .mark (.bind (a := some e) ?_ .done)
  refine .accepts hopening hopen (.not_accepts hfirst hempty (.mark (.bind h.yielded (.reset ?_))))
  refine .bind hgenerator (.reset (.bind (h.bindingTuple hquiet) (.accepts hclosing hclose ?_)))
  cases hform : e.form with
  | tuple items => exact absurd hform (h.plain items)
  | _ => exact .done

end FormulaAt

theorem readsWords_group (hquiet : W.diagnosing = false) (h : Derives deep 0 ws e)
    (hreads : W.ReadsWords deep 0 ws e) :
    W.ReadsWords (deep + 1) 7 (opening :: (ws ++ [closing])) e := by
  rintro i t ⟨⟨opener, hopener, hopens⟩, hinside⟩ hnext hstops hlimit
  obtain ⟨hbears, ⟨closer, hcloser, hcloses⟩, -⟩ := Feed.bears_append.mp hinside
  have hlength : i + (opening :: (ws ++ [closing])).length = i + 1 + ws.length + 1 := by
    simp only [List.length_cons, List.length_append, List.length_nil]
    omega
  rw [hlength] at hnext hlimit ⊢
  obtain ⟨e', hsame, hformula⟩ :=
    FormulaAt.of_reads h hreads hbears hcloser (.inr (.inl hcloses)) (by omega)
  have hstart : i ≤ W.limit := by omega
  obtain ⟨hkind, htext⟩ : opener.kind = .op ∧ opener.text = "(" := Word.mk.inj hopens
  have hawait : opener.spells "await" = false := by
    rw [Token.spells_of_word hopens]
    decide
  have hatom :
      (W.answers Rule.atomicExpr i).Gives (deep + 2) (some e') (i + 1 + ws.length + 1) := by
    refine packrat_gives rfl rfl hstart (.mark (.peek hopener ?_))
    simp only [hkind, htext, bracketExpr, BEq.rfl, if_true]
    have hinner := hformula.parenthesized hquiet hopener hopens hcloser hcloses
    exact hinner.deepen.andThen .pure
  refine ⟨e', hsame, packrat_gives rfl rfl hstart (.mark (.not_accepts hopener hawait ?_))⟩
  apply rule_gives
  exact postfixExpr_gives_atomicExpr (by omega) hatom (by omega) hnext
    (fun _ => hstops.not_trailer) hstart

/-! ### Whole formulas -/

/-- Where words stand that are derived, the expression is read that they stand for. -/
theorem Arithmetic.Derives.reads {level : Nat} (hquiet : W.diagnosing = false)
    (h : Derives deep level ws e) : W.ReadsWords deep level ws e := by
  -- A match is grown from its left operand, so that must be known as something that grows too.
  have hboth : W.ReadsWords deep level ws e ∧
      (level < 6 → ∀ L : BinaryLevel W level, L.GrowsTo deep ws e) := by
    induction h with
    | name id => exact ⟨readsWords_name id, by omega⟩
    | number n => exact ⟨readsWords_number n, by omega⟩
    | group hinner ih => exact ⟨readsWords_group hquiet hinner ih.1, by omega⟩
    | power hbase _ ihBase ihExponent =>
      obtain ⟨w, ws', hws, hstarts⟩ := hbase.starts
      have hatom := hstarts.resolve_right (by simp)
      exact ⟨readsWords_power ⟨w, ws', hws, hatom⟩ ihBase.1 ihExponent.1, by omega⟩
    | signed sign _ ih => exact ⟨readsWords_signed sign ih.1, by omega⟩
    | binary hop hlevel _ _ ihLeft ihRight =>
      have hgrows := fun L => BinaryLevel.growsTo_binary hop (ihLeft.2 hlevel L) ihRight.1
      obtain ⟨L⟩ := BinaryLevel.of_lt W hlevel
      exact ⟨(hgrows L).reads, fun _ => hgrows⟩
    | @tighter deep level ws e hlevel h ih =>
      obtain ⟨w, ws', rfl, hstarts⟩ := h.starts
      rcases Nat.lt_succ_iff_lt_or_eq.mp hlevel with hbinary | rfl
      · have hgrows := fun L : BinaryLevel W level => L.growsTo_operand (by simp) ih.1
        obtain ⟨L⟩ := BinaryLevel.of_lt W hbinary
        exact ⟨(hgrows L).reads, fun _ => hgrows⟩
      · exact ⟨readsWords_base ⟨w, ws', rfl, hstarts.resolve_right (by simp)⟩ ih.1, by omega⟩
  exact hboth.1

/-! ### Sources -/

theorem Arithmetic.IsWord.kind_ne {w : Word} (h : IsWord w) : w.kind ≠ .endMarker := by
  cases h <;> nofun

theorem Feed.Bears.token {f : Feed} {k : Nat} {w : Word} (h : f.Bears i ws) (hw : ws[k]? = some w) :
    ∃ t, f.token (i + k) = .ok t ∧ t.word = w := by
  induction ws generalizing i k with
  | nil => simp at hw
  | cons w' ws ih =>
    cases k with
    | zero =>
      cases hw
      exact h.1
    | succ k =>
      rw [← Nat.add_assoc, Nat.add_right_comm]
      exact ih h.2 hw

theorem World.length_le_limit_of_bears (hbears : W.Bears 0 ws) (hwords : ∀ w ∈ ws, IsWord w) :
    ws.length ≤ W.limit := by
  refine Nat.le_of_not_lt fun hlt => ?_
  obtain ⟨t, ht, hword⟩ := hbears.token (List.getElem?_eq_getElem hlt)
  rw [Nat.zero_add] at ht
  apply (hwords _ (List.getElem_mem hlt)).kind_ne
  rw [← hword]
  exact (W.ends t ht).1

theorem ofKind_gives {callee : Callee rules} {kind : TokenKind} (ht : W.token i = .ok t)
    (hkind : t.kind = kind) : Gives W callee deep (ofKind kind) i (some t) (i + 1) := by
  subst hkind
  refine .peek ht ?_
  simp only [BEq.rfl, if_true]
  exact .next ht .done

theorem ofKind_gives_none {callee : Callee rules} {kind : TokenKind} (ht : W.token i = .ok t)
    (hkind : t.kind ≠ kind) : Gives W callee deep (ofKind kind) i none i := by
  refine .peek ht ?_
  simp only [beq_false_of_ne hkind, Bool.false_eq_true, if_false]
  exact .done

/-- A formula, the end of a line and the end of the source are what an expression on its own is. -/
theorem soleExprRule_gives (hquiet : W.diagnosing = false) (h : Derives deep 0 ws e)
    (hbears : W.Bears 0 ws) {newline marker : Token} (hnewline : W.token ws.length = .ok newline)
    (hline : newline.kind = .newline) (hmarker : W.token (ws.length + 1) = .ok marker)
    (hend : marker.kind = .endMarker) :
    ∃ e', e'.SameButSpans e ∧
      Gives W W.answers (deep + 1) soleExprRule 0 (some e') (ws.length + 1 + 1) := by
  have hlimit := World.length_le_limit_of_bears hbears h.isWord
  have hbehind : W.token (0 + ws.length) = .ok newline := by rwa [Nat.zero_add]
  obtain ⟨e', hsame, hformula⟩ := FormulaAt.of_reads h (h.reads hquiet) hbears hbehind
    (.inl hline) (by omega)
  rw [Nat.zero_add] at hformula
  refine ⟨e', hsame, .bind (hformula.exprTuple hquiet)
    (.bind (a := [newline]) (j := ws.length + 1) ?_ ?_)⟩
  · obtain ⟨w, ws', rfl, -⟩ := h.starts
    refine .many_one (ofKind_gives hnewline hline) (Nat.lt_succ_self _)
      (ofKind_gives_none hmarker ?_) (Nat.lt_of_lt_of_le (Nat.succ_pos _) hlimit)
    rw [hend]
    nofun
  · exact .bind (.bind (ofKind_gives hmarker hend) .done) .done

/-- The tokens of the stream are these words, and after them come the end of a line and the end of
the source. -/
structure TokenStream.Spells (s : TokenStream) (ws : List Word) : Prop where
  word : ∀ k w, ws[k]? = some w → ∃ t, s.supply k = .ok t ∧ t.word = w
  newline : ∃ t, s.supply ws.length = .ok t ∧ t.kind = .newline
  endMarker : ∃ t, s.supply (ws.length + 1) = .ok t ∧ t.kind = .endMarker

theorem TokenStream.Spells.bears {s : TokenStream} {fresh : s.Fresh} {diagnosing : Bool}
    (h : s.Spells ws) : (s.world fresh diagnosing).Bears 0 ws := by
  have hfrom : ∀ i vs, (∀ k w, vs[k]? = some w → ∃ t, s.supply (i + k) = .ok t ∧ t.word = w) →
      (s.world fresh diagnosing).Bears i vs := by
    intro i vs hvs
    induction vs generalizing i with
    | nil => trivial
    | cons v vs ih =>
      refine ⟨hvs 0 v rfl, ih (i + 1) fun k w hw => ?_⟩
      rw [Nat.add_assoc, Nat.add_comm 1]
      exact hvs (k + 1) w hw
  exact hfrom 0 ws (by simpa only [Nat.zero_add] using h.word)

/-- A formula is parsed as the expression that it stands for, unless its parentheses are nested too
deep. -/
theorem Arithmetic.Derives.parsed (h : Derives deep 0 ws e) (source : Source)
    (origin : Option Origin) (options : ParseOptions)
    (hspells : (Program.start source origin options).stream.Spells ws) :
    ∃ e', e'.SameButSpans e ∧
      ((Program.parse .eval (Program.start source origin options)).1 = .ok (.expression e') ∨
        Session.nestingLimit ≤ deep ∧
          TooDeep (Program.parse .eval (Program.start source origin options)).1) := by
  have fresh := TokenStream.fresh_ofLexer source options.tabSize origin
  obtain ⟨newline, hnewline, hline⟩ := hspells.newline
  obtain ⟨marker, hmarker, hend⟩ := hspells.endMarker
  let W := (Pass.first _ fresh options.filename).world
  obtain ⟨e', hsame, hgives⟩ :=
    soleExprRule_gives (W := W) rfl h hspells.bears hnewline hline hmarker hend
  refine ⟨e', hsame, ?_⟩
  simp only [Program.parse]
  have hparsed := parse_of_reading options.filename options.traceLimit governs rules_distinguished
    (show ranking.isEntry Rule.soleExpr = true from rfl) fresh hgives.result
  rcases hparsed with ⟨s, hparse⟩ | ⟨hdeep, htoo⟩
  · left
    simp only [Program.start_eq, hparse, Except.map]
  · right
    refine ⟨Nat.le_of_lt_succ (Nat.lt_of_lt_of_le hdeep hgives.depth), ?_⟩
    simp only [Program.start_eq]
    exact htoo.map

end ShellSyntax
