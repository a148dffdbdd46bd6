import ShellSyntax.Proofs.Language.Arithmetic
import ShellSyntax.Proofs.Language.Operators

/-!
Formulas are read as they are derived. Where the words of one stand and a line end or a closing
parenthesis follows, the rules read an expression that differs only in its spans from the one that
the words stand for.
-/

namespace ShellSyntax

open ShellSyntax.Language Matcher Arithmetic

/-! ### Words -/

/-- These words come from `i` on. -/
def Feed.Bears (f : Feed) : Nat → List Word → Prop
  | _, [] => True
  | i, w :: ws => (∃ t, f.token i = .ok t ∧ t.word = w) ∧ Feed.Bears f (i + 1) ws

theorem Feed.bears_append {f : Feed} {i : Nat} {ws ws' : List Word} :
    f.Bears i (ws ++ ws') ↔ f.Bears i ws ∧ f.Bears (i + ws.length) ws' := by
  induction ws generalizing i with
  | nil => simp [Bears]
  | cons w ws ih =>
    rw [List.cons_append, Bears, Bears, ih, and_assoc]
    simp only [List.length_cons, Nat.add_assoc, Nat.add_comm 1]

namespace Token

variable {t : Token} {text : String}

theorem spells_of_word {text' : String} (h : t.word = ⟨.op, text'⟩) :
    t.spells text = (text' == text) := by
  obtain ⟨hkind, rfl⟩ : t.kind = .op ∧ t.text = text' := Word.mk.inj h
  exact spells_op hkind text

theorem not_spells_number {n : Numeral} (h : t.word = n.word) : t.spells text = false := by
  obtain ⟨hkind, -⟩ : t.kind = .number ∧ _ := Word.mk.inj h
  simp [spells, hkind]

theorem not_spells_name {id : Identifier} (h : t.word = id.word)
    (htext : Spelling.isKeyword text = true ∨ ∃ c ∈ text.toList, Lexeme.continuesName c = false) :
    t.spells text = false := by
  obtain ⟨-, hsame⟩ : _ ∧ t.text = id.text := Word.mk.inj h
  have hne : t.text ≠ text := by
    rintro rfl
    rcases htext with hkeyword | ⟨c, hc, hother⟩
    · rw [hsame, id.plain] at hkeyword
      cases hkeyword
    · obtain ⟨first, others, hspelled, hfirst, hothers⟩ := id.spelled
      rw [hsame, hspelled] at hc
      rcases List.mem_cons.mp hc with rfl | hc
      · cases (Lexeme.continuesName_of_startsName hfirst).symm.trans hother
      · cases (hothers c hc).symm.trans hother
  simp [spells, hne]

theorem not_spells_atom {w : Word} (h : t.word = w) (hstarts : StartsAtom w)
    (htext : Spelling.isKeyword text = true ∨ ∃ c ∈ text.toList, Lexeme.continuesName c = false)
    (hopening : "(" ≠ text) : t.spells text = false := by
  cases hstarts with
  | name id => exact not_spells_name h htext
  | number n => exact not_spells_number h
  | opening => rw [spells_of_word h, beq_false_of_ne hopening]

theorem not_spells_assignment {w : Word} (h : t.word = w) (hword : IsWord w) :
    t.spells ":=" = false := by
  cases hword with
  | name id => exact not_spells_name h (.inr ⟨':', by decide, by decide⟩)
  | number n => exact not_spells_number h
  | sign sign =>
    rw [spells_of_word h]
    cases sign <;> decide
  | link op =>
    rw [spells_of_word h]
    cases op <;> decide
  | opening | closing =>
    rw [spells_of_word h]
    decide

/-- The token ends an operand of this level: no operator of this level or a tighter one follows. -/
def Stops (level : Nat) (t : Token) : Prop :=
  t.kind = .newline ∨ t.word = closing ∨ ∃ op : BinOp, t.word = link op ∧ op.precedence < level

namespace Stops

variable {level level' : Nat}

theorem mono (h : t.Stops level) (hle : level ≤ level') : t.Stops level' :=
  h.imp_right (.imp_right fun ⟨op, hword, hlevel⟩ => ⟨op, hword, Nat.lt_of_lt_of_le hlevel hle⟩)

theorem not_spells (h : t.Stops level) (hclosing : ")" ≠ text)
    (hop : ∀ op : BinOp, op.precedence < level → op.symbol ≠ text) : t.spells text = false := by
  rcases h with hkind | hword | ⟨op, hword, hlevel⟩
  · simp [spells, hkind]
  · rw [spells_of_word hword, beq_false_of_ne hclosing]
  · rw [spells_of_word hword, beq_false_of_ne (hop op hlevel)]

theorem not_tighter (h : t.Stops level) {op : BinOp} (hlevel : level ≤ op.precedence) :
    t.spells op.symbol = false := by
  refine h.not_spells (by cases op <;> decide) fun op' hless hsymbol => ?_
  cases symbol_injective hsymbol
  omega

theorem not_trailer (h : t.Stops level) (htext : text ∈ [".", "(", "[", "!(", "??", "?"]) :
    t.spells text = false := by
  refine h.not_spells ?_ fun op _ => ?_
  · rintro rfl
    exact absurd htext (by decide)
  · rintro rfl
    revert htext
    cases op <;> decide

theorem not_spells_end (h : t.Stops 0) (hclosing : ")" ≠ text) : t.spells text = false :=
  h.not_spells hclosing fun _ hless => absurd hless (Nat.not_lt_zero _)

end Stops

end Token

/-! ### Operands -/

variable {W : World} {deep level i j : Nat} {ws : List Word} {e : Expr} {t : Token}

/-- Where the words stand and nothing of this level goes on, the expression is read that they stand
for. -/
def World.ReadsWords (W : World) (deep level : Nat) (ws : List Word) (e : Expr) : Prop :=
  ∀ i t, W.Bears i ws → W.token (i + ws.length) = .ok t → t.Stops level →
    i + ws.length ≤ W.limit →
    ∃ e', e'.SameButSpans e ∧ (W.reads level i).Gives (deep + 1) (some e') (i + ws.length)

theorem readsWords_atom {w : Word}
    (hatom : ∀ t : Token, t.word = w → ∃ a : AtomToken, a.token = t ∧ a.expr.SameButSpans e) :
    W.ReadsWords deep 7 [w] e := by
  rintro i t ⟨⟨t', ht', hword⟩, -⟩ hnext hstops hlimit
  obtain ⟨a, rfl, hsame⟩ := hatom t' hword
  refine ⟨a.expr, hsame, ?_⟩
  have hgives := awaitExpr_gives a ht' hnext (fun _ => hstops.not_trailer)
    (Nat.le_trans (Nat.le_add_right i 1) hlimit)
  exact hgives.mono (Nat.le_add_left 1 deep)

theorem readsWords_name (id : Identifier) :
    W.ReadsWords deep 7 [id.word] ⟨.name id.text, default⟩ := by
  refine readsWords_atom fun t hword => ?_
  obtain ⟨hkind, htext⟩ : t.kind = .name ∧ t.text = id.text := Word.mk.inj hword
  refine ⟨⟨t, .inr ⟨hkind, htext ▸ id.plain⟩⟩, rfl, ?_⟩
  simp only [AtomToken.expr, AtomToken.form, hkind, htext, reduceCtorEq, if_false]
  exact .name id.text _ _

theorem readsWords_number (n : Numeral) :
    W.ReadsWords deep 7 [n.word] ⟨.constant (.number n.text), default⟩ := by
  refine readsWords_atom fun t hword => ?_
  obtain ⟨hkind, htext⟩ : t.kind = .number ∧ t.text = n.text := Word.mk.inj hword
  refine ⟨⟨t, .inl hkind⟩, rfl, ?_⟩
  simp only [AtomToken.expr, AtomToken.form, hkind, htext, if_true]
  exact .constant _ _ _

/-! ### Powers and signs -/

theorem oneOf_prefixOperators_gives_none (deep : Nat) {w : Word} (ht : W.token i = .ok t)
    (hword : t.word = w) (hstarts : StartsAtom w) :
    Gives W W.answers deep (oneOf prefixOperators) i none i := by
  refine oneOf_gives_none ht fun option hoption => ?_
  simp only [prefixOperators, List.mem_cons, List.not_mem_nil, or_false] at hoption
  refine Token.not_spells_atom hword hstarts ?_ ?_
  · rcases hoption with rfl | rfl | rfl
    · exact .inr ⟨'+', by decide, by decide⟩
    · exact .inr ⟨'-', by decide, by decide⟩
    · exact .inr ⟨'~', by decide, by decide⟩
  · rcases hoption with rfl | rfl | rfl <;> decide

theorem readsWords_signed (sign : Sign) (h : W.ReadsWords deep 6 ws e) :
    W.ReadsWords deep 6 (sign.word :: ws) ⟨.unaryOp sign.op e, default⟩ := by
  rintro i t ⟨⟨t', ht', hword⟩, hbears⟩ hnext hstops hlimit
  have hlength : i + (sign.word :: ws).length = i + 1 + ws.length := by
    rw [List.length_cons]
    omega
  rw [hlength] at hnext hlimit ⊢
  obtain ⟨hkind, htext⟩ : t'.kind = .op ∧ t'.text = sign.symbol := Word.mk.inj hword
  obtain ⟨e', hsame, hgives⟩ := h (i + 1) t hbears hnext hstops hlimit
  have hmem : (t'.text, sign.op) ∈ prefixOperators := htext ▸ sign.mem_prefixOperators
  exact ⟨_, .unaryOp sign.op _ _ hsame,
    signedExpr_gives_sign ht' hkind hmem hgives rfl (by omega)⟩

theorem readsWords_base (hstarts : ∃ w ws', ws = w :: ws' ∧ StartsAtom w)
    (h : W.ReadsWords deep 7 ws e) : W.ReadsWords deep 6 ws e := by
  intro i t hbears hnext hstops hlimit
  obtain ⟨e', hsame, hgives⟩ := h i t hbears hnext (hstops.mono (by decide)) hlimit
  obtain ⟨w, ws', rfl, hatom⟩ := hstarts
  obtain ⟨t', ht', hword⟩ := hbears.1
  have hsign := oneOf_prefixOperators_gives_none (deep + 1) ht' hword hatom
  have hpow : t.spells BinOp.pow.symbol = false := hstops.not_tighter (Nat.le_refl 6)
  exact ⟨e', hsame, signedExpr_gives_base hsign hgives hnext hpow (Nat.le_of_add_right_le hlimit)⟩

theorem readsWords_power {ws' : List Word} {exponent : Expr}
    (hstarts : ∃ w ws', ws = w :: ws' ∧ StartsAtom w) (hbase : W.ReadsWords deep 7 ws e)
    (hexponent : W.ReadsWords deep 6 ws' exponent) :
    W.ReadsWords deep 6 (ws ++ link .pow :: ws') ⟨.binOp e .pow exponent, default⟩ := by
  intro i t hbears hnext hstops hlimit
  obtain ⟨hbefore, ⟨t', ht', hword⟩, hbehind⟩ := Feed.bears_append.mp hbears
  have hlength : i + (ws ++ link .pow :: ws').length = i + ws.length + 1 + ws'.length := by
    simp only [List.length_append, List.length_cons]
    omega
  rw [hlength] at hnext hlimit ⊢
  obtain ⟨e', hsame, hgives⟩ := hbase i t' hbefore ht' (.inr (.inr ⟨.pow, hword, by decide⟩))
    (by omega)
  obtain ⟨exponent', hsame', hgives'⟩ := hexponent _ t hbehind hnext hstops hlimit
  obtain ⟨w, ws'', rfl, hatom⟩ := hstarts
  obtain ⟨first, hfirst, hfirstWord⟩ := hbefore.1
  have hsign := oneOf_prefixOperators_gives_none (deep + 1) hfirst hfirstWord hatom
  have hpow : t'.spells "**" = true := by
    rw [Token.spells_of_word hword]
    decide
  exact ⟨_, .binOp .pow _ _ hsame hsame',
    signedExpr_gives_power hsign hgives ht' hpow hgives' rfl (by omega)⟩

/-! ### Binary operators -/

/-- Where the words stand, the match grows until it is the expression that they stand for: what it
becomes from there it becomes from the start. Nothing tighter goes on behind the words. -/
def BinaryLevel.GrowsTo (L : BinaryLevel W level) (deep : Nat) (ws : List Word) (e : Expr) : Prop :=
  ∀ i t, W.Bears i ws → W.token (i + ws.length) = .ok t → t.Stops (level + 1) →
    i + ws.length ≤ W.limit →
    ∃ e', e'.SameButSpans e ∧
      (∃ first k, k ≤ i + ws.length ∧ (W.reads (level + 1) i).Gives (deep + 1) (some first) k) ∧
      ∃ rounds ≤ ws.length, ∀ fuel longest stop,
        (L.growth i fuel (some e', i + ws.length)).Gives (deep + 1) longest stop →
        (L.growth i (fuel + rounds) (none, i)).Gives (deep + 1) longest stop

namespace BinaryLevel

variable {L : BinaryLevel W level}

theorem growsTo_operand (hne : ws ≠ []) (h : W.ReadsWords deep (level + 1) ws e) :
    L.GrowsTo deep ws e := by
  intro i t hbears hnext hstops hlimit
  obtain ⟨e', hsame, hgives⟩ := h i t hbears hnext hstops hlimit
  have hpos := List.length_pos_iff.mpr hne
  refine ⟨e', hsame, ⟨e', _, Nat.le_refl _, hgives⟩, 1, hpos, fun fuel longest stop hrest => ?_⟩
  exact growth_operand hgives (by omega) hrest

theorem growsTo_binary {ws' : List Word} {e' : Expr} {op : BinOp} (hop : op.precedence = level)
    (hleft : L.GrowsTo deep ws e) (hright : W.ReadsWords deep (level + 1) ws' e') :
    L.GrowsTo deep (ws ++ link op :: ws') ⟨.binOp e op e', default⟩ := by
  intro i t hbears hnext hstops hlimit
  obtain ⟨hbefore, ⟨t', ht', hword⟩, hbehind⟩ := Feed.bears_append.mp hbears
  have hlength : i + (ws ++ link op :: ws').length = i + ws.length + 1 + ws'.length := by
    simp only [List.length_append, List.length_cons]
    omega
  rw [hlength] at hnext hlimit ⊢
  obtain ⟨left, hsame, ⟨first, k, hk, hfirst⟩, rounds, hrounds, hgrows⟩ :=
    hleft i t' hbefore ht' (.inr (.inr ⟨op, hword, by omega⟩)) (by omega)
  obtain ⟨right, hsame', hgives⟩ := hright _ t hbehind hnext hstops hlimit
  refine ⟨⟨.binOp left op right, W.spanSince i (i + ws.length + 1 + ws'.length)⟩,
    .binOp op _ _ hsame hsame', ⟨first, k, by omega, hfirst⟩, rounds + 1,
    by simp only [List.length_append, List.length_cons]; omega, fun fuel longest stop hrest => ?_⟩
  obtain ⟨hkind, htext⟩ : t'.kind = .op ∧ t'.text = op.symbol := Word.mk.inj hword
  rw [Nat.add_comm rounds, ← Nat.add_assoc]
  apply hgrows
  exact growth_longer ⟨t', op, hkind, htext⟩ ht' hop hgives rfl (by omega) hrest

theorem GrowsTo.reads (h : L.GrowsTo deep ws e) : W.ReadsWords deep level ws e := by
  intro i t hbears hnext hstops hlimit
  obtain ⟨e', hsame, ⟨first, k, hk, hfirst⟩, rounds, hrounds, hgrows⟩ :=
    h i t hbears hnext (hstops.mono (Nat.le_succ level)) hlimit
  have hbound := W.limit_lt
  obtain ⟨fuel, hfuel⟩ : ∃ fuel, W.bound + 1 = fuel + 1 + rounds :=
    ⟨W.bound - rounds, by omega⟩
  refine ⟨e', hsame, ?_⟩
  rw [L.reads_eq i (by omega), hfuel]
  apply hgrows
  exact growth_over hnext (fun _ => hstops.not_tighter) hfirst hk

end BinaryLevel

end ShellSyntax
