import ShellSyntax.Proofs.Language.Accepted
import ShellSyntax.Proofs.Language.FormulaReading
import ShellSyntax.Proofs.Lexer.FormulaTokens

/-!
White space between the words of a formula makes no difference, but for the one operator that starts
a longer one where a parenthesis follows.
-/

namespace ShellSyntax

open Arithmetic Outcome

/-! ### Streams -/

namespace TokenStream

variable {s t : TokenStream} {fuel depth n : Nat} {token : Token} {l : Lexer} {w : Word}
  {ws : List Word} {text : List Char} {apart : Bool}

theorem fill_keeps (fuel : Nat) (hpull : Lexer.pull s.lexer = .ok token l)
    (hkept : isDropped s.tokens.back? token = false) :
    ∃ t, fill (fuel + 1) s = .ok () t ∧ t.lexer = l ∧ t.tokens = s.tokens.push token := by
  simp only [fill, run_bind, readRaw, hpull, run_get, hkept, Bool.false_eq_true, if_false, run_set]
  exact ⟨_, rfl, rfl, rfl⟩

theorem fill_drops (fuel : Nat) (hpull : Lexer.pull s.lexer = .ok token l)
    (hdropped : isDropped s.tokens.back? token = true) :
    ∃ t, fill (fuel + 1) s = fill fuel t ∧ t.lexer = l ∧ t.tokens = s.tokens := by
  simp only [fill, run_bind, readRaw, hpull, run_get, hdropped, if_true]
  exact ⟨_, rfl, rfl, rfl⟩

theorem not_isDropped (last : Option Token)
    (hkind : token.kind ∈ [.name, .number, .op, .endMarker]) :
    isDropped last token = false := by
  simp only [List.mem_cons, List.not_mem_nil, or_false] at hkind
  rcases hkind with hkind | hkind | hkind | hkind <;> simp only [isDropped, hkind]

theorem fill_word (h : Written apart depth (w :: ws) text) (hl : s.lexer.Expects depth text)
    (hfuel : 2 ≤ fuel) :
    ∃ t token apart' depth' text', fill fuel s = .ok () t ∧ t.tokens = s.tokens.push token ∧
      token.word = w ∧ token.kind ≠ .newline ∧ Written apart' depth' ws text' ∧
      t.lexer.Expects depth' text' ∧ t.lexer.needsNewline = true := by
  have hdirect : ∀ {s : TokenStream} {fuel : Nat} {text : List Char},
      Written false depth (w :: ws) text → s.lexer.Expects depth text →
      ∃ t token apart' depth' text', fill (fuel + 1) s = .ok () t ∧
        t.tokens = s.tokens.push token ∧ token.word = w ∧ token.kind ≠ .newline ∧
        Written apart' depth' ws text' ∧ t.lexer.Expects depth' text' ∧
        t.lexer.needsNewline = true := by
    intro s fuel text h hl
    obtain ⟨token, l', apart', depth', text', hcuts, hword, hrest, hl', -, hneeds⟩ := h.cuts_word hl
    have hsame : token.kind = w.kind := congrArg Word.kind hword
    have hkind := h.kind_mem
    rw [← hsame] at hkind
    have hkept : token.kind ∈ [TokenKind.name, .number, .op, .endMarker] := by
      simp only [List.mem_cons] at hkind ⊢
      tauto
    obtain ⟨t, hfill, rfl, htokens⟩ :=
      fill_keeps fuel (hl.pull_of_cuts hcuts) (not_isDropped _ hkept)
    refine ⟨t, token, apart', depth', text', hfill, htokens, hword, ?_, hrest, hl', hneeds⟩
    intro hnewline
    rw [hnewline] at hkind
    exact absurd hkind (by decide)
  obtain ⟨less, rfl⟩ := Nat.exists_eq_add_of_le' hfuel
  cases apart with
  | false => exact hdirect h hl
  | true =>
    -- The space is dropped before the word is kept, within one call.
    obtain ⟨token, l', text', hcuts, hkind, hrest, hl', -⟩ := h.cuts_space hl
    obtain ⟨t, hfill, rfl, htokens⟩ := fill_drops (less + 1) (hl.pull_of_cuts hcuts)
      (by simp [isDropped, hkind])
    rw [hfill, ← htokens]
    exact hdirect hrest hl'

theorem supply_of_fill (hnext : s.filled (n + 1) = fill t.lexer.bound t) (hsize : t.tokens.size = n)
    {t' : TokenStream} (hfill : fill t.lexer.bound t = .ok () t')
    (htokens : t'.tokens = t.tokens.push token) :
    s.supply n = .ok token ∧ s.filled (n + 1 + 1) = fill t'.lexer.bound t' ∧
      t'.tokens.size = n + 1 := by
  have hfilled := hnext.trans hfill
  have htoken : t'.tokens[n]? = some token := by
    rw [htokens, ← hsize]
    exact Array.getElem?_push_size
  refine ⟨by simp [supply, hfilled, htoken], ?_, by rw [htokens, Array.size_push, hsize]⟩
  rw [filled, hfilled]

theorem supply_end (hl : t.lexer.Expects 0 []) (hneeds : t.lexer.needsNewline = true)
    (hlast : ∀ last, t.tokens.back? = some last → last.kind ≠ .newline)
    (hnext : s.filled (n + 1) = fill t.lexer.bound t) (hsize : t.tokens.size = n) :
    (∃ token, s.supply n = .ok token ∧ token.kind = .newline) ∧
      ∃ token, s.supply (n + 1) = .ok token ∧ token.kind = .endMarker := by
  obtain ⟨newline, l', marker, l'', hpull, hnewline, hbound, hpull', hmarker⟩ := hl.pull_end hneeds
  obtain ⟨fuel, hfuel⟩ : ∃ fuel, t.lexer.bound = fuel + 1 :=
    ⟨t.lexer.bound - 1, by have := hl.bound; omega⟩
  have hkept : isDropped t.tokens.back? newline = false := by
    simp only [isDropped, hnewline]
    cases hback : t.tokens.back? with
    | none => rfl
    | some last => simp [hlast last hback]
  obtain ⟨t', hfill, rfl, htokens⟩ := fill_keeps fuel hpull hkept
  rw [← hfuel] at hfill
  obtain ⟨hsupply, hnext', hsize'⟩ := supply_of_fill hnext hsize hfill htokens
  obtain ⟨t'', hfill', -, htokens'⟩ := fill_keeps fuel hpull'
    (not_isDropped t'.tokens.back? (by simp [hmarker]))
  rw [← hfuel, ← hbound] at hfill'
  obtain ⟨hsupply', -, -⟩ := supply_of_fill hnext' hsize' hfill' htokens'
  exact ⟨⟨newline, hsupply, hnewline⟩, marker, hsupply', hmarker⟩

theorem supply_words (h : Written apart depth ws text) (hl : t.lexer.Expects depth text)
    (hnext : s.filled (n + 1) = fill t.lexer.bound t) (hsize : t.tokens.size = n)
    (hend : ws = [] → t.lexer.needsNewline = true ∧
      ∀ last, t.tokens.back? = some last → last.kind ≠ .newline) :
    (∀ k w, ws[k]? = some w → ∃ token, s.supply (n + k) = .ok token ∧ token.word = w) ∧
      (∃ token, s.supply (n + ws.length) = .ok token ∧ token.kind = .newline) ∧
      ∃ token, s.supply (n + ws.length + 1) = .ok token ∧ token.kind = .endMarker := by
  induction ws generalizing t n depth text apart with
  | nil =>
    cases h
    obtain ⟨hneeds, hlast⟩ := hend rfl
    exact ⟨by simp, supply_end hl hneeds hlast hnext hsize⟩
  | cons w ws ih =>
    obtain ⟨t', token, apart', depth', text', hfill, htokens, hword, hkind, hrest, hl', hneeds⟩ :=
      fill_word h hl hl.bound
    obtain ⟨hsupply, hnext', hsize'⟩ := supply_of_fill hnext hsize hfill htokens
    have hend' : ∀ last, t'.tokens.back? = some last → last.kind ≠ .newline := by
      intro last hback
      rw [htokens, Array.back?_push] at hback
      cases hback
      exact hkind
    obtain ⟨hwords, hnewline, hmarker⟩ := ih hrest hl' hnext' hsize' fun _ => ⟨hneeds, hend'⟩
    rw [List.length_cons, Nat.add_succ, ← Nat.succ_add]
    refine ⟨fun k w' hw' => ?_, hnewline, hmarker⟩
    cases k with
    | zero =>
      cases hw'
      exact ⟨token, hsupply, hword⟩
    | succ k =>
      rw [Nat.add_succ, ← Nat.succ_add]
      exact hwords k w' hw'

theorem spells_of_written (h : Written false 0 (w :: ws) text) (tabSize : Nat)
    (origin : Option Origin) :
    (ofLexer (.ofSource (.ofText text) tabSize) origin).Spells (w :: ws) := by
  obtain ⟨c, after, htext, hspace⟩ := h.head_not_space
  obtain ⟨m, hstep, hm, hbound⟩ := Lexer.step_start tabSize htext h.plain hspace
  obtain ⟨token, l', -, -, -, hcuts, -⟩ := h.cuts_word hm
  let s := ofLexer (.ofSource (.ofText text) tabSize) origin
  have hpull : Lexer.pull s.lexer = .ok token l' :=
    Lexer.pull_start rfl rfl hstep hm hbound hcuts
  have hpull' := hm.pull_of_cuts hcuts
  obtain ⟨fuel, hfuel⟩ : ∃ fuel, m.bound = fuel + 1 :=
    ⟨m.bound - 1, by have := hm.bound; omega⟩
  let t := { s with lexer := m }
  have hnext : s.filled (0 + 1) = fill t.lexer.bound t := by
    change fill s.lexer.bound s = fill m.bound t
    rw [show s.lexer.bound = m.bound from hbound.symm, hfuel]
    simp only [t, fill, run_bind, readRaw, hpull, hpull']
  obtain ⟨hwords, hnewline, hmarker⟩ := supply_words (t := t) h hm hnext rfl (by simp)
  simp only [Nat.zero_add] at hwords hnewline hmarker
  exact ⟨hwords, hnewline, hmarker⟩

end TokenStream

/-! ### Texts of formulas -/

namespace Arithmetic

variable {gap : List Char} {ws : List Word} {w : Word} {depth : Nat} {apart : Bool}

def behind (gap : List Char) : List Word → List Char
  | [] => []
  | w :: ws => gap ++ (w.text.toList ++ behind gap ws)

/-- The words with the gap between them. -/
def spread (gap : List Char) : List Word → List Char
  | [] => []
  | w :: ws => w.text.toList ++ behind gap ws

theorem intercalate_eq_spread (gap : List Char) (ws : List Word) :
    gap.intercalate (ws.map fun w => w.text.toList) = spread gap ws := by
  induction ws with
  | nil => rfl
  | cons w ws ih =>
    cases ws with
    | nil => simp [List.intercalate, spread, behind]
    | cons w' ws =>
      rw [List.map_cons] at ih
      rw [List.map_cons, List.map_cons, List.intercalate_cons_cons, ih, List.append_assoc]
      rfl

theorem flatten_eq_spread (ws : List Word) :
    (ws.map fun w => w.text.toList).flatten = spread [] ws := by
  have hbehind : ∀ ws : List Word, (ws.map fun w => w.text.toList).flatten = behind [] ws := by
    intro ws
    induction ws with
    | nil => rfl
    | cons w ws ih => rw [List.map_cons, List.flatten_cons, ih, behind, List.nil_append]
  cases ws with
  | nil => rfl
  | cons w ws => rw [List.map_cons, List.flatten_cons, hbehind, spread]

theorem Written.behind (h : Written false depth ws (spread gap ws))
    (hgap : gap = [] ∨ gap = [' ']) : ∃ apart, Written apart depth ws (behind gap ws) := by
  cases ws with
  | nil => exact ⟨false, h⟩
  | cons w ws =>
    rcases hgap with rfl | rfl
    · exact ⟨false, h⟩
    · exact ⟨true, .apart h⟩

theorem Formula.starts (f : Formula) :
    ∃ w ws, f.words = w :: ws ∧ (StartsAtom w ∨ ∃ sign : Sign, w = sign.word) := by
  induction f with
  | name id => exact ⟨_, _, rfl, .inl (.name id)⟩
  | number n => exact ⟨_, _, rfl, .inl (.number n)⟩
  | group => exact ⟨_, _, rfl, .inl .opening⟩
  | signed sign => exact ⟨_, _, rfl, .inr ⟨sign, rfl⟩⟩
  | binary left op right ih =>
    obtain ⟨w, ws, hws, hstarts⟩ := ih
    exact ⟨w, ws ++ link op :: right.words, by rw [words, hws, List.cons_append], hstarts⟩

theorem head_of_starts (h : StartsAtom w ∨ ∃ sign : Sign, w = sign.word) :
    ∃ c cs, w.text.toList = c :: cs ∧ c ∉ Spelling.continuations ∧ (c = '(' → w = opening) := by
  have hletter : ∀ c, Lexeme.continuesName c = true → c ∉ Spelling.continuations ∧ c ≠ '(' := by
    intro c hc
    rw [← not_or, or_comm]
    intro hmem
    simp only [Spelling.continuations, List.mem_cons, List.not_mem_nil, or_false] at hmem
    rcases hmem with rfl | rfl | rfl | rfl | rfl | rfl | rfl | rfl
    all_goals exact absurd hc (by decide +kernel)
  rcases h with hatom | ⟨sign, rfl⟩
  · cases hatom with
    | name id =>
      obtain ⟨c, cs, hspelled, hstarts, -⟩ := id.spelled
      have hc := hletter c (Lexeme.continuesName_of_startsName hstarts)
      exact ⟨c, cs, hspelled, hc.1, fun hsame => absurd hsame hc.2⟩
    | number n =>
      obtain ⟨c, cs, hspelled, hdigit, -⟩ := n.spelled
      have hc := hletter c (Lexeme.continuesName_of_digit (Bool.or_eq_true_iff.mpr (.inl hdigit)))
      exact ⟨c, cs, hspelled, hc.1, fun hsame => absurd hsame hc.2⟩
    | opening => exact ⟨'(', [], rfl, by decide, fun _ => rfl⟩
  · cases sign <;> exact ⟨_, _, rfl, by decide, by decide⟩

theorem ends_behind (hgap : gap = [] ∨ gap = [' '])
    (hws : ∀ w, ws.head? = some w → w = closing ∨ ∃ op, w = link op) :
    Lexeme.Ends (behind gap ws) := by
  intro c hc
  cases ws with
  | nil => cases hc
  | cons w ws =>
    have hsign : ∃ c cs, w.text.toList = c :: cs ∧ Lexeme.continuesName c = false ∧ c ≠ '.' := by
      rcases hws w rfl with rfl | ⟨op, rfl⟩
      · exact ⟨_, _, rfl, by decide +kernel, by decide⟩
      · cases op <;> exact ⟨_, _, rfl, by decide +kernel, by decide⟩
    obtain ⟨d, ds, hspelled, hd⟩ := hsign
    rcases hgap with rfl | rfl
    · rw [Arithmetic.behind, hspelled] at hc
      cases hc
      exact hd
    · cases hc
      exact ⟨by decide +kernel, by decide⟩

/-- An operator before an operand is read alone, but for a matrix product right before a
parenthesis. -/
theorem firstMatch_behind {operand : List Word} (hw : IsOperator w)
    (hgap : gap = [' '] ∨ gap = [] ∧ (w = link .matMult → operand.head? ≠ some opening))
    (hoperand : ∃ w' ws', operand = w' :: ws' ∧ (StartsAtom w' ∨ ∃ sign : Sign, w' = sign.word)) :
    Spelling.firstMatch Spelling.operators (w.text.toList ++ behind gap operand) = some w.text := by
  obtain ⟨w', ws', rfl, hstarts⟩ := hoperand
  obtain ⟨c, cs, hspelled, hc, hopens⟩ := head_of_starts hstarts
  rcases hgap with rfl | ⟨rfl, hclear⟩
  · refine Spelling.firstMatch_operator hw (fun d hd => ?_) fun _ hd => ?_
    · cases hd
      decide
    · cases hd
  · refine Spelling.firstMatch_operator hw (fun d hd => ?_) fun hproduct hd => ?_
    · rw [Arithmetic.behind, hspelled] at hd
      cases hd
      exact hc
    · rw [Arithmetic.behind, hspelled] at hd
      cases hd
      exact hclear hproduct (congrArg some (hopens rfl))

/-- No matrix product stands before a parenthesis, with which it would be one operator. -/
def Formula.Splits (f : Formula) : Prop :=
  ¬[link .matMult, opening] <:+: f.words

theorem Formula.splits_part {f g : Formula} (h : gap = [' '] ∨ gap = [] ∧ f.Splits)
    (hpart : g.words <:+: f.words) : gap = [' '] ∨ gap = [] ∧ g.Splits :=
  h.imp_right (.imp_right fun hsplits hproduct => hsplits (hproduct.trans hpart))

theorem Formula.written (f : Formula) (hgap : gap = [' '] ∨ gap = [] ∧ f.Splits)
    (h : Written apart depth ws (behind gap ws))
    (hws : ∀ w, ws.head? = some w → w = closing ∨ ∃ op, w = link op) :
    Written false depth (f.words ++ ws) (spread gap (f.words ++ ws)) := by
  have hsmall : gap = [] ∨ gap = [' '] := hgap.elim .inr fun hgap => .inl hgap.1
  have hstarts (g : Formula) (ws : List Word) : ∃ w ws', g.words ++ ws = w :: ws' ∧
      (StartsAtom w ∨ ∃ sign : Sign, w = sign.word) := by
    obtain ⟨w, ws', hwords, hstarts⟩ := g.starts
    exact ⟨w, ws' ++ ws, by rw [hwords, List.cons_append], hstarts⟩
  induction f generalizing apart depth ws with
  | name id => exact .name id (ends_behind hsmall hws) h
  | number n => exact .number n (ends_behind hsmall hws) h
  | group inner ih =>
    have hinner := splits_part (g := inner) hgap ⟨[opening], [closing], rfl⟩
    obtain ⟨_, hclosing⟩ := (Written.closing h).behind hsmall
    obtain ⟨_, hinside⟩ :=
      (ih hinner hclosing fun w hw => by cases hw; exact .inl rfl).behind hsmall
    rw [words, List.cons_append, List.append_assoc, List.singleton_append]
    exact .opening hinside
  | signed sign operand ih =>
    have hoperand := splits_part (g := operand) hgap (List.suffix_cons _ _).isInfix
    obtain ⟨_, hbehind⟩ := (ih hoperand h hws).behind hsmall
    have hclear : sign.word = link .matMult → (operand.words ++ ws).head? ≠ some opening := by
      intro hsame
      exact absurd hsame (by cases sign <;> decide)
    have hmatch := firstMatch_behind (.inl ⟨sign, rfl⟩)
      (hgap.imp_right (.imp_right fun _ => hclear)) (hstarts operand ws)
    exact .operator (.inl ⟨sign, rfl⟩) hmatch hbehind
  | binary left op right ihLeft ihRight =>
    have hleft := splits_part (g := left) hgap (List.prefix_append _ _).isInfix
    have hright := splits_part (g := right) hgap ⟨left.words ++ [link op], [], by simp [words]⟩
    obtain ⟨_, hbehind⟩ := (ihRight hright h hws).behind hsmall
    -- What follows the operator is the start of its right operand, a parenthesis at worst.
    have hclear : (binary left op right).Splits → link op = link .matMult →
        (right.words ++ ws).head? ≠ some opening := by
      intro hsplits hsame hhead
      obtain ⟨w, ws', hwords, -⟩ := right.starts
      rw [hwords] at hhead
      cases hhead
      exact hsplits ⟨left.words, ws', by rw [words, hwords, ← hsame]; simp⟩
    have hmatch := firstMatch_behind (.inr ⟨op, rfl⟩) (hgap.imp_right (.imp_right hclear))
      (hstarts right ws)
    obtain ⟨_, hlink⟩ := (Written.operator (.inr ⟨op, rfl⟩) hmatch hbehind).behind hsmall
    rw [words, List.append_assoc, List.cons_append]
    exact ihLeft hleft hlink fun w hw => by cases hw; exact .inr ⟨op, rfl⟩

theorem Formula.spells (f : Formula) (hgap : gap = [' '] ∨ gap = [] ∧ f.Splits) (tabSize : Nat)
    (origin : Option Origin) :
    (TokenStream.ofLexer (.ofSource (.ofText (spread gap f.words)) tabSize) origin).Spells
      f.words := by
  have hwritten : Written false 0 (f.words ++ []) (spread gap (f.words ++ [])) :=
    f.written hgap .done (by simp)
  obtain ⟨w, ws, hwords, -⟩ := f.starts
  rw [List.append_nil, hwords] at hwritten
  rw [hwords]
  exact TokenStream.spells_of_written hwritten tabSize origin

end Arithmetic

/-! ### Formulas in a program -/

namespace Program

theorem parsed_formula {gap : List Char} {deep : Nat} {e : Expr} (options : ParseOptions)
    (f : Formula) (hgap : gap = [' '] ∨ gap = [] ∧ f.Splits) (h : Derives deep 0 f.words e)
    {text : String} (htext : text.toList = spread gap f.words) :
    ∃ e', e'.SameButSpans e ∧
      (parseText text { options with mode := .eval } = .ok (.expression e') ∨
        Session.nestingLimit ≤ deep ∧ TooDeep (parseText text { options with mode := .eval })) := by
  have hspells := f.spells hgap options.tabSize none
  rw [← htext] at hspells
  exact h.parsed (.ofString text) none { options with mode := .eval } hspells

/-- Whether there are spaces between the words of a formula or not, it is the same expression,
unless its parentheses are nested too deep. -/
theorem spacing_makes_no_difference (f : Formula) (hsplits : f.Splits) (options : ParseOptions) :
    let result text := parseText text { options with mode := .eval }
    ∃ e e', e.SameButSpans e' ∧
      (result f.spaced = .ok (.expression e) ∨
        Session.nestingLimit ≤ f.nesting ∧ TooDeep (result f.spaced)) ∧
      (result f.dense = .ok (.expression e') ∨
        Session.nestingLimit ≤ f.nesting ∧ TooDeep (result f.dense)) := by
  intro result
  obtain ⟨meant, hderives⟩ := f.derives (Nat.le_refl f.nesting)
  have hspaced : f.spaced.toList = spread [' '] f.words := by
    rw [Formula.spaced, String.toList_ofList, intercalate_eq_spread]
  have hdense : f.dense.toList = spread [] f.words := by
    rw [Formula.dense, String.toList_ofList, flatten_eq_spread]
  obtain ⟨e, hsame, hparsed⟩ := parsed_formula options f (.inl rfl) hderives hspaced
  obtain ⟨e', hsame', hparsed'⟩ :=
    parsed_formula options f (.inr ⟨rfl, hsplits⟩) hderives hdense
  exact ⟨e, e', hsame.trans hsame'.symm, hparsed, hparsed'⟩

/-- Two operators without a space between them are still two. -/
theorem spacing_makes_no_difference_of_product :
    let result text := parseText text { ParseOptions.default with mode := .eval }
    ∃ e e', e.SameButSpans e' ∧ result "a * - ( b + 1 )" = .ok (.expression e) ∧
      result "a*-(b+1)" = .ok (.expression e') := by
  let a : Identifier := ⟨"a", ⟨'a', [], by decide, by decide +kernel, by simp⟩, by decide⟩
  let b : Identifier := ⟨"b", ⟨'b', [], by decide, by decide +kernel, by simp⟩, by decide⟩
  let one : Numeral := ⟨"1", ⟨'1', [], by decide, by decide, by simp⟩⟩
  let f : Formula :=
    .binary (.name a) .mult (.signed .minus (.group (.binary (.name b) .add (.number one))))
  have hspaced : f.spaced = "a * - ( b + 1 )" := by decide
  have hdense : f.dense = "a*-(b+1)" := by decide
  have hshallow : ¬Session.nestingLimit ≤ f.nesting := by decide
  obtain ⟨e, e', hsame, hparsed, hparsed'⟩ :=
    spacing_makes_no_difference f (by unfold Formula.Splits; decide) .default
  rw [hspaced] at hparsed
  rw [hdense] at hparsed'
  exact ⟨e, e', hsame, hparsed.resolve_right fun h => hshallow h.1,
    hparsed'.resolve_right fun h => hshallow h.1⟩

/-- Without a space, a matrix product and the parenthesis behind it open a substitution. -/
theorem product_of_group_needs_space :
    ¬∀ (f : Formula) (options : ParseOptions),
      let result text := parseText text { options with mode := .eval }
      ∃ e e', e.SameButSpans e' ∧ result f.spaced = .ok (.expression e) ∧
        result f.dense = .ok (.expression e') := by
  intro h
  let a : Identifier := ⟨"a", ⟨'a', [], by decide, by decide +kernel, by simp⟩, by decide⟩
  let b : Identifier := ⟨"b", ⟨'b', [], by decide, by decide +kernel, by simp⟩, by decide⟩
  obtain ⟨e, e', -, -, hparsed⟩ := h (.binary (.name a) .matMult (.group (.name b))) .default
  have hdense : (Formula.binary (.name a) .matMult (.group (.name b))).dense = "a@(b)" := by decide
  rw [hdense] at hparsed
  let options := { ParseOptions.default with mode := .eval }
  let start := start (.ofString "a@(b)") none options
  have hrejected (s : ProgramSession) : parse options.mode start ≠ (.ok (.expression e'), s) :=
    rejected_of_read _ _ options 5000 (by decide +kernel) (by decide +kernel) _ _
  exact hrejected _ (Prod.ext hparsed rfl)

end Program

end ShellSyntax
