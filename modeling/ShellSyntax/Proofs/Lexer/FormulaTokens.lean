import ShellSyntax.Proofs.Language.Arithmetic
import ShellSyntax.Proofs.Lexer.Signs
import ShellSyntax.Proofs.Text.PhysicalLines

/-!
Formulas as the lexer meets them. Where each word goes no further than it should, with spaces
between the words or without, the tokens are the words.
-/

namespace ShellSyntax

open Arithmetic

/-! ### Lexemes -/

namespace Lexeme

/-- The characters with which strings, searches, comments, continuations and new lines start. -/
def special : List Char :=
  ['\'', '"', '\x60', '\\', '#', '\n', '\r']

variable {c : Char} {text rest : List Char}

theorem not_special_of_continuesName (hc : continuesName c = true) : c ∉ special := by
  intro hmem
  simp only [special, List.mem_cons, List.not_mem_nil, or_false] at hmem
  rcases hmem with rfl | rfl | rfl | rfl | rfl | rfl | rfl <;> exact absurd hc (by decide +kernel)

theorem not_isSpace_of_continuesName (hc : continuesName c = true) : isSpace c = false := by
  rw [← Bool.not_eq_true]
  intro hspace
  simp only [isSpace, Bool.or_eq_true, beq_iff_eq] at hspace
  rcases hspace with (rfl | rfl) | rfl <;> exact absurd hc (by decide +kernel)

theorem continuesName_of_digit (hc : (c.isDigit || c == '_') = true) : continuesName c = true := by
  rcases Bool.or_eq_true_iff.mp hc with hdigit | hline
  · have hascii : c.toNat < 0x80 := by
      have hbounds : 48 ≤ c.toNat ∧ c.toNat ≤ 57 := Char.isDigit_iff_toNat.mp hdigit
      omega
    simp [continuesName, Text.isAlphanumeric, Text.isNumeric, hascii, hdigit]
  · simp [continuesName, hline]

theorem not_isDigit_of_startsName (hc : startsName c = true) : c.isDigit = false := by
  rw [← Bool.not_eq_true]
  intro hdigit
  obtain ⟨hlow, hhigh⟩ : 48 ≤ c.toNat ∧ c.toNat ≤ 57 := Char.isDigit_iff_toNat.mp hdigit
  rcases Bool.or_eq_true_iff.mp hc with hline | hletter
  · rw [beq_iff_eq] at hline
    subst hline
    cases hdigit
  · rw [Text.isAlphabetic, if_pos (by omega)] at hletter
    rcases Bool.or_eq_true_iff.mp hletter with hupper | hlower
    · have hbounds : 65 ≤ c.val ∧ c.val ≤ 90 := of_decide_eq_true hupper
      have hlow : 65 ≤ c.toNat := hbounds.1
      omega
    · have hbounds : (decide (97 ≤ c.val) && decide (c.val ≤ 122)) = true := hlower
      have hlow : 97 ≤ c.toNat := of_decide_eq_true (Bool.and_eq_true_iff.mp hbounds).1
      omega

theorem opening?_of_not_special (h : ∀ c ∈ text, c ∉ special) :
    StringLetters.opening? text = none := by
  cases hopening : StringLetters.opening? text with
  | none => rfl
  | some opening =>
    obtain ⟨-, hquote⟩ := StringLetters.quote_of_opening? hopening
    cases hdrop : text.drop opening.1.length with
    | nil => simp [hdrop, Quote.opening?] at hquote
    | cons c rest =>
      have hc := h c (List.mem_of_mem_drop (hdrop ▸ List.mem_cons_self))
      simp only [hdrop, Quote.opening?, Option.ite_none_right_eq_some, Bool.or_eq_true,
        beq_iff_eq] at hquote
      rcases hquote.1 with rfl | rfl <;> exact absurd (by decide) hc

theorem searchOpening?_of_not_special (h : ∀ c ∈ text, c ∉ special) :
    searchOpening? text = none := by
  have hno : ∀ letters, (text.drop letters).head? ≠ some '\x60' := by
    intro letters hhead
    exact absurd (by decide) (h _ (List.mem_of_mem_drop (List.mem_of_head? hhead)))
  unfold searchOpening?
  split <;> exact if_neg (hno _)

def Ends (rest : List Char) : Prop :=
  ∀ c, rest.head? = some c → continuesName c = false ∧ c ≠ '.'

theorem takeWhile_eq {p : Char → Bool} (htext : ∀ c ∈ text, p c = true)
    (hrest : ∀ c, rest.head? = some c → p c = false) : (text ++ rest).takeWhile p = text := by
  rw [List.takeWhile_append_of_pos htext]
  cases rest with
  | nil => simp
  | cons c rest => simp [hrest c rfl]

theorem not_startsRadix (htext : ∀ c ∈ text, (c.isDigit || c == '_') = true) (hends : Ends rest) :
    startsRadix (text ++ rest) = false := by
  unfold startsRadix
  split
  case h_1 d after heq =>
    have hletter : continuesName d = false ∨ (d.isDigit || d == '_') = true := by
      cases text with
      | nil => exact absurd (hends '0' (congrArg List.head? heq)).1 (by decide +kernel)
      | cons c text =>
        obtain ⟨-, hafter⟩ := List.cons.inj heq
        cases text with
        | nil => exact .inl (hends d (congrArg List.head? hafter)).1
        | cons c' text =>
          obtain ⟨rfl, -⟩ := List.cons.inj hafter
          exact .inr (htext c' (by simp))
    rw [← Bool.not_eq_true]
    intro hmem
    simp only [List.contains_iff_mem, List.mem_cons, List.not_mem_nil, or_false] at hmem
    rcases hmem with rfl | rfl | rfl | rfl | rfl | rfl <;> exact absurd hletter (by decide +kernel)
  case h_2 => rfl

theorem numberLength_eq (htext : ∀ c ∈ text, (c.isDigit || c == '_') = true) (hends : Ends rest) :
    numberLength (text ++ rest) = text.length := by
  have hdigits : digitRun (text ++ rest) = text.length := by
    rw [digitRun, takeWhile_eq htext]
    intro c hc
    rw [← Bool.not_eq_true]
    intro hdigit
    exact Bool.false_ne_true ((hends c hc).1.symm.trans (continuesName_of_digit hdigit))
  have hfraction : fractionRun rest = 0 := by
    unfold fractionRun
    split
    · exact absurd rfl (hends '.' rfl).2
    · rfl
  have hexponent : exponentRun rest = 0 := by
    cases rest with
    | nil => rfl
    | cons c rest =>
      have hc := (hends c rfl).1
      rw [exponentRun, if_neg]
      simp only [Bool.or_eq_true, beq_iff_eq]
      rintro (rfl | rfl) <;> exact absurd hc (by decide +kernel)
  have himaginary : imaginaryRun rest = 0 := by
    cases rest with
    | nil => rfl
    | cons c rest =>
      have hc := (hends c rfl).1
      rw [imaginaryRun, if_neg]
      simp only [Bool.or_eq_true, beq_iff_eq]
      rintro (rfl | rfl) <;> exact absurd hc (by decide +kernel)
  simp only [numberLength, not_startsRadix htext hends, Bool.false_eq_true, if_false, hdigits,
    List.drop_left, hfraction, hexponent, himaginary, Nat.add_zero]

end Lexeme

/-! ### Operators -/

/-- A sign, or an operator between operands. -/
def Arithmetic.IsOperator (w : Word) : Prop :=
  (∃ sign : Sign, w = sign.word) ∨ ∃ op : BinOp, w = link op

namespace Spelling

variable {s : String} {w : Word} {rest : List Char}

theorem firstMatch_eq (hs : s ∈ operators) (hlongest : ∀ longer ∈ operators,
    s.toList <+: longer.toList → longer.toList <+: s.toList ++ rest → longer = s) :
    firstMatch operators (s.toList ++ rest) = some s := by
  have hsorted : operators.Pairwise (fun before after => after.length ≤ before.length) := by
    decide +kernel
  have hnonempty : ∀ s ∈ operators, s.isEmpty = false := by decide +kernel
  have hmatches : (!s.isEmpty && s.toList.isPrefixOf (s.toList ++ rest)) = true := by
    simp [hnonempty s hs]
  unfold firstMatch
  cases hfound : operators.find? fun spelling =>
      !spelling.isEmpty && spelling.toList.isPrefixOf (s.toList ++ rest) with
  | none => exact absurd hmatches (List.find?_eq_none.mp hfound s hs)
  | some found =>
    obtain ⟨hfits, before, after, hsplit, hbefore⟩ := List.find?_eq_some_iff_append.mp hfound
    rw [Bool.and_eq_true, List.isPrefixOf_iff_prefix] at hfits
    rw [hsplit] at hs hsorted
    rcases List.mem_append.mp hs with hearlier | hlater
    · have hmiss := hbefore s hearlier
      rw [hmatches] at hmiss
      cases hmiss
    · rcases List.mem_cons.mp hlater with rfl | hlater
      · rfl
      · have hle : s.length ≤ found.length :=
          List.rel_of_pairwise_cons (List.pairwise_append.mp hsorted).2.1 hlater
        rw [← String.length_toList, ← String.length_toList] at hle
        have hprefix := List.prefix_of_prefix_length_le (List.prefix_append s.toList rest) hfits.2
          hle
        rw [hlongest found (hsplit ▸ by simp) hprefix hfits.2]

/-- What makes longer operators of those of arithmetic. -/
def continuations : List Char :=
  ['=', '*', '/', '&', '|', '>', '$']

/-- Every longer operator goes on with one of these, but for the opener that a matrix product is the
start of. -/
theorem operator_continued (hw : IsOperator w) :
    w.text ∈ operators ∧ ∀ longer ∈ operators, w.text.toList.isPrefixOf longer.toList = true →
      longer ≠ w.text → ∃ c, (longer.toList.drop w.text.toList.length).head? = some c ∧
        (c ∈ continuations ∨ w = link .matMult ∧ c = '(') := by
  have hsign : ∀ sign : Sign, sign.symbol ∈ operators ∧ ∀ longer ∈ operators,
      sign.symbol.toList.isPrefixOf longer.toList = true → longer ≠ sign.symbol →
      (longer.toList.drop sign.symbol.toList.length).head?.any
        fun c => c ∈ continuations := by
    intro sign
    cases sign <;> decide +kernel
  have hlink : ∀ op : BinOp, op.symbol ∈ operators ∧ ∀ longer ∈ operators,
      op.symbol.toList.isPrefixOf longer.toList = true → longer ≠ op.symbol →
      (longer.toList.drop op.symbol.toList.length).head?.any
        fun c => c ∈ continuations ∨ op = .matMult ∧ c = '(' := by
    intro op
    cases op <;> decide +kernel
  rcases hw with ⟨sign, rfl⟩ | ⟨op, rfl⟩
  · refine ⟨(hsign sign).1, fun longer hlonger hprefix hne => ?_⟩
    obtain ⟨c, hc, hcontinues⟩ :=
      (Option.any_eq_true _ _).mp ((hsign sign).2 longer hlonger hprefix hne)
    exact ⟨c, hc, .inl (of_decide_eq_true hcontinues)⟩
  · refine ⟨(hlink op).1, fun longer hlonger hprefix hne => ?_⟩
    obtain ⟨c, hc, hcontinues⟩ :=
      (Option.any_eq_true _ _).mp ((hlink op).2 longer hlonger hprefix hne)
    exact ⟨c, hc, (of_decide_eq_true hcontinues).imp_right (And.imp_left (congrArg link))⟩

theorem firstMatch_operator (hw : IsOperator w)
    (hrest : ∀ c, rest.head? = some c → c ∉ continuations)
    (hgroup : w = link .matMult → rest.head? ≠ some '(') :
    firstMatch operators (w.text.toList ++ rest) = some w.text := by
  obtain ⟨hmem, hcontinued⟩ := operator_continued hw
  refine firstMatch_eq hmem fun longer hlonger hprefix hstands =>
    Classical.byContradiction fun hne => ?_
  obtain ⟨c, hc, hcontinues⟩ :=
    hcontinued longer hlonger (List.isPrefixOf_iff_prefix.mpr hprefix) hne
  obtain ⟨more, hmore⟩ := hprefix
  rw [← hmore, List.drop_left] at hc
  rw [← hmore, List.prefix_append_right_inj] at hstands
  have hhead : rest.head? = some c := by
    obtain ⟨after, rfl⟩ := hstands
    rw [List.head?_append, hc]
    rfl
  rcases hcontinues with hc | ⟨rfl, rfl⟩
  · exact hrest c hhead hc
  · exact hgroup rfl hhead

end Spelling

/-! ### Steps -/

namespace Lexer

open Outcome

/-- The lexer is on the last line of a source, between its tokens, and only parentheses are open. -/
structure Expects (l : Lexer) (depth : Nat) (text : List Char) : Prop where
  rest : l.rest = text
  unread : l.unread = []
  indents : l.indents = [0]
  depth : l.brackets.length = depth
  parens : ∀ b ∈ l.brackets, b.opener = .paren ∧ b.holds = .host
  modes : l.modes = []
  continued : l.continued = false
  pending : l.pending = []
  finished : l.finished = false
  bound : 2 ≤ l.bound

def handOut (l : Lexer) : Lexer :=
  { l with pending := [] }

theorem pull_of_step {l m : Lexer} {token : Token} {later : List Token} (hpending : l.pending = [])
    (hfinished : l.finished = false) (hbound : 0 < l.bound) (hstep : step l = .ok () m)
    (htoken : m.pending = token :: later) : pull l = .ok token { m with pending := later } := by
  obtain ⟨fuel, hfuel⟩ := Nat.exists_eq_succ_of_ne_zero (Nat.ne_of_gt hbound)
  refine pull_of_work ?_ htoken
  rw [hfuel, work_of_step hpending hfinished hstep]
  exact work_ready (by simp [htoken])

/-- One step makes this one token, and leaves this lexer when it is handed out. -/
def Cuts (l : Lexer) (token : Token) (l' : Lexer) : Prop :=
  ∃ m, step l = .ok () m ∧ m.pending = [token] ∧ l' = m.handOut

theorem needsNewline_cut (l : Lexer) (kind : TokenKind) (count : Nat)
    (hkind : kind.isLayout = false) (hfiller : kind.isFiller = false) :
    (l.take kind count).handOut.needsNewline = true :=
  l.needsNewline_word kind count hkind hfiller

namespace Expects

variable {l m : Lexer} {depth : Nat} {text after : List Char} {c : Char}

theorem realm (h : l.Expects depth text) : l.brackets.realm = .host := by
  have hparens := h.parens
  cases hbrackets : l.brackets with
  | nil => rfl
  | cons top outer => exact (hparens top (hbrackets ▸ List.mem_cons_self)).2

theorem inCommand (h : l.Expects depth text) : l.brackets.inCommand = false := by
  rw [BracketStack.inCommand, h.realm]
  rfl

theorem handOut_take (h : l.Expects depth text) (kind : TokenKind) (count : Nat) :
    (l.take kind count).handOut.Expects depth (text.drop count) := by
  obtain ⟨hrest, hunread, hindents, hdepth, hparens, hmodes, hcontinued, hpending, hfinished,
    hbound⟩ := h
  constructor <;> simp only [handOut, take_frame, *]
  exact hparens

theorem cuts_take (chars : List Char) {kind : TokenKind} (h : m.Expects depth (chars ++ after))
    (hbound : m.bound = l.bound) (hstep : step l = .ok () (m.take kind chars.length)) :
    ∃ token, l.Cuts token (m.take kind chars.length).handOut ∧
      token.word = ⟨kind, String.ofList chars⟩ ∧
      (m.take kind chars.length).handOut.Expects depth after ∧
      (m.take kind chars.length).handOut.bound = l.bound := by
  have hpending : (m.take kind chars.length).pending = [⟨kind, String.ofList chars, m.here,
      ⟨m.lineNumber, m.column + chars.length⟩, m.lineText⟩] := by
    rw [take_pending, h.pending, h.rest, List.nil_append, List.take_left]
  have hafter := h.handOut_take kind chars.length
  rw [List.drop_left] at hafter
  refine ⟨_, ⟨_, hstep, hpending, rfl⟩, rfl, hafter, ?_⟩
  simp only [handOut, take_frame, hbound]

theorem pull_of_cuts {token : Token} {l' : Lexer} (h : l.Expects depth text)
    (hcuts : l.Cuts token l') : pull l = .ok token l' := by
  obtain ⟨m, hstep, hpending, rfl⟩ := hcuts
  have hpositive : 0 < l.bound := Nat.lt_of_lt_of_le Nat.zero_lt_two h.bound
  exact pull_of_step h.pending h.finished hpositive hstep hpending

/-! ### What each word does -/

theorem step_space (h : l.Expects depth (' ' :: after))
    (hafter : ∀ c, after.head? = some c → Lexeme.isSpace c = false) :
    step l = .ok () (l.take .space 1) := by
  have htakes : l.rest.takeWhile Lexeme.isSpace = [' '] := by
    have hspaces : ∀ c ∈ [' '], Lexeme.isSpace c = true := by simp [Lexeme.isSpace]
    rw [h.rest]
    exact Lexeme.takeWhile_eq hspaces hafter
  rw [step_of_outside (by simp [h.rest]) (.inl h.modes)]
  simp only [scanToken, run_bind, run_get, Lexer.takeWhile, htakes]
  rw [h.rest]
  rfl

theorem step_host (h : l.Expects depth (c :: after))
    (hplain : ∀ d ∈ c :: after, d ∉ Lexeme.special) (hspace : Lexeme.isSpace c = false) :
    step l = scanHostToken l := by
  have hopening := Lexeme.opening?_of_not_special hplain
  have hsearch := Lexeme.searchOpening?_of_not_special hplain
  have hc := hplain c List.mem_cons_self
  simp only [Lexeme.special, List.mem_cons, List.not_mem_nil, or_false, not_or] at hc
  obtain ⟨-, -, -, hescape, hcomment, hfeed, hreturn⟩ := hc
  rw [← h.rest] at hopening hsearch
  rw [step_of_outside (by simp [h.rest]) (.inl h.modes)]
  simp only [scanToken, run_bind, run_get, hopening, hsearch, h.inCommand]
  rw [h.rest]
  simp only [hspace, Lexeme.isLineBreak, beq_false_of_ne hescape, beq_false_of_ne hcomment,
    beq_false_of_ne hfeed, beq_false_of_ne hreturn, Bool.or_self, Bool.false_and,
    Bool.false_eq_true, if_false]

theorem step_name {id : Identifier} (h : l.Expects depth (id.text.toList ++ after))
    (hplain : ∀ d ∈ id.text.toList ++ after, d ∉ Lexeme.special) (hends : Lexeme.Ends after) :
    step l = .ok () (l.take .name id.text.toList.length) := by
  obtain ⟨c, cs, hspelled, hstarts, hcontinues⟩ := id.spelled
  have hletter := Lexeme.continuesName_of_startsName hstarts
  have htakes : l.rest.takeWhile Lexeme.continuesName = id.text.toList := by
    rw [h.rest]
    refine Lexeme.takeWhile_eq ?_ fun d hd => (hends d hd).1
    rw [hspelled]
    exact List.forall_mem_cons.mpr ⟨hletter, hcontinues⟩
  have hnumber : Lexeme.startsNumber (c :: (cs ++ after)) = false := by
    unfold Lexeme.startsNumber
    split
    · rename_i heq
      obtain ⟨rfl, -⟩ := List.cons.inj heq
      exact absurd hstarts (by decide +kernel)
    · rename_i heq
      obtain ⟨rfl, -⟩ := List.cons.inj heq
      exact Lexeme.not_isDigit_of_startsName hstarts
    · rfl
  rw [← htakes]
  rw [hspelled, List.cons_append] at h hplain
  rw [h.step_host hplain (Lexeme.not_isSpace_of_continuesName hletter)]
  simp only [scanHostToken, run_bind, run_get, h.rest, hnumber, List.head?_cons, Option.map_some,
    Option.getD_some, hstarts, Bool.false_eq_true, if_false, if_true]
  rw [← h.rest]
  rfl

theorem step_number {n : Numeral} (h : l.Expects depth (n.text.toList ++ after))
    (hplain : ∀ d ∈ n.text.toList ++ after, d ∉ Lexeme.special) (hends : Lexeme.Ends after) :
    step l = .ok () (l.take .number n.text.toList.length) := by
  obtain ⟨c, cs, hspelled, hdigit, hdigits⟩ := n.spelled
  have hletter := Lexeme.continuesName_of_digit (Bool.or_eq_true_iff.mpr (.inl hdigit))
  have htakes : Lexeme.numberLength l.rest = n.text.toList.length := by
    rw [h.rest]
    refine Lexeme.numberLength_eq ?_ hends
    rw [hspelled]
    exact List.forall_mem_cons.mpr ⟨Bool.or_eq_true_iff.mpr (.inl hdigit), hdigits⟩
  have hnumber : Lexeme.startsNumber l.rest = true := by
    rw [h.rest, hspelled, List.cons_append]
    unfold Lexeme.startsNumber
    split
    · rename_i heq
      obtain ⟨rfl, -⟩ := List.cons.inj heq
      cases hdigit
    · rename_i heq
      obtain ⟨rfl, -⟩ := List.cons.inj heq
      exact hdigit
    · rename_i heq
      cases heq
  rw [← htakes]
  rw [hspelled, List.cons_append] at h hplain
  rw [h.step_host hplain (Lexeme.not_isSpace_of_continuesName hletter)]
  simp only [scanHostToken, run_bind, run_get, hnumber, if_true]
  rfl

/-- What an operator of arithmetic starts with is neither white space, a letter nor a digit. -/
theorem step_sign {op : String} (h : l.Expects depth (c :: after))
    (hplain : ∀ d ∈ c :: after, d ∉ Lexeme.special)
    (hc : c ∈ ['+', '-', '~', '*', '/', '%', '@', '|', '^', '&', '<', '>', '(', ')'])
    (hmatch : Spelling.firstMatch Spelling.operators (c :: after) = some op) :
    step l = scanOperator op l := by
  have hother : Lexeme.isSpace c = false ∧ Lexeme.startsName c = false ∧
      Lexeme.startsNumber (c :: after) = false := by
    simp only [List.mem_cons, List.not_mem_nil, or_false] at hc
    rcases hc with rfl | rfl | rfl | rfl | rfl | rfl | rfl | rfl | rfl | rfl | rfl | rfl | rfl | rfl
    all_goals exact ⟨by decide, by decide +kernel, by cases after <;> rfl⟩
  obtain ⟨hspace, hname, hnumber⟩ := hother
  rw [h.step_host hplain hspace]
  simp only [scanHostToken, run_bind, run_get, h.rest, hnumber, hmatch, List.head?_cons,
    Option.map_some, Option.getD_some, hname, Bool.false_eq_true, if_false]

theorem step_operator {w : Word} (hw : IsOperator w) (h : l.Expects depth (w.text.toList ++ after))
    (hplain : ∀ d ∈ w.text.toList ++ after, d ∉ Lexeme.special)
    (hmatch : Spelling.firstMatch Spelling.operators (w.text.toList ++ after) = some w.text) :
    step l = .ok () (l.take .op w.text.toList.length) := by
  obtain ⟨c, cs, hspelled, hc, hcloser, hcolon, hbang, hopener⟩ : ∃ c cs, w.text.toList = c :: cs ∧
      c ∈ ['+', '-', '~', '*', '/', '%', '@', '|', '^', '&', '<', '>', '(', ')'] ∧
      closer? w.text = none ∧ w.text ≠ ":" ∧ w.text ≠ "!" ∧ Opener.ofSpelling? w.text = none := by
    rcases hw with ⟨sign, rfl⟩ | ⟨op, rfl⟩
    · cases sign <;> exact ⟨_, _, rfl, by decide, by decide, by decide, by decide, by decide⟩
    · cases op <;> exact ⟨_, _, rfl, by decide, by decide, by decide, by decide, by decide⟩
  rw [String.length_toList]
  rw [hspelled, List.cons_append] at h hplain hmatch
  rw [h.step_sign hplain hc hmatch]
  simp only [scanOperator, hcloser, hcolon, hbang, hopener, if_false]
  rfl

theorem step_opening (h : l.Expects depth ('(' :: after))
    (hplain : ∀ d ∈ '(' :: after, d ∉ Lexeme.special) :
    ∃ m : Lexer, m.Expects (depth + 1) ('(' :: after) ∧ m.bound = l.bound ∧
      step l = .ok () (m.take .op 1) := by
  have hmatch : Spelling.firstMatch Spelling.operators ('(' :: after) = some "(" := by
    simp [Spelling.firstMatch, Spelling.operators, List.isPrefixOf]
  refine ⟨l.pushBracket ⟨.paren, .host, l.here⟩, ⟨h.rest, h.unread, h.indents, ?_, ?_, h.modes,
    h.continued, h.pending, h.finished, h.bound⟩, rfl, ?_⟩
  · exact congrArg Nat.succ h.depth
  · exact List.forall_mem_cons.mpr ⟨⟨rfl, rfl⟩, h.parens⟩
  · rw [h.step_sign hplain (by decide) hmatch]
    change scanOpener "(" .paren l = _
    simp only [scanOpener, run_bind, run_get, reduceCtorEq, false_and, if_false, h.realm]
    rfl

theorem step_closing (h : l.Expects (depth + 1) (')' :: after))
    (hplain : ∀ d ∈ ')' :: after, d ∉ Lexeme.special) :
    ∃ m : Lexer, m.Expects depth (')' :: after) ∧ m.bound = l.bound ∧
      step l = .ok () (m.take .op 1) := by
  have hmatch := Spelling.firstMatch_closer after
  obtain ⟨top, outer, hbrackets⟩ := List.exists_cons_of_length_eq_add_one h.depth
  have hparens := h.parens
  have hdepth := h.depth
  rw [hbrackets] at hparens hdepth
  refine ⟨{ l with brackets := outer }, ⟨h.rest, h.unread, h.indents, Nat.succ.inj hdepth,
    fun b hb => hparens b (List.mem_cons_of_mem _ hb), h.modes, h.continued, h.pending, h.finished,
    h.bound⟩, rfl, ?_⟩
  have hcloses : top.closer = ')' := by
    rw [Bracket.closer, (hparens top List.mem_cons_self).1]
    rfl
  rw [h.step_sign hplain (by decide) hmatch]
  change scanCloser ')' l = _
  simp only [scanCloser, closeBracket, run_bind, run_get, run_set, run_modify, hbrackets,
    BracketStack.close, hcloses, if_true, atFieldLevel, h.modes]
  rfl

end Expects

end Lexer

/-! ### Words -/

namespace Arithmetic

/-- The text is these words, each of which goes no further than it should. So many parentheses are
open before it, and a space comes first if the text stands apart. -/
inductive Written : (apart : Bool) → (depth : Nat) → List Word → List Char → Prop
  | done : Written false 0 [] []
  | apart {depth : Nat} {w : Word} {ws : List Word} {text : List Char}
      (h : Written false depth (w :: ws) text) : Written true depth (w :: ws) (' ' :: text)
  | name {apart : Bool} {depth : Nat} {ws : List Word} {text : List Char} (id : Identifier)
      (hends : Lexeme.Ends text) (h : Written apart depth ws text) :
      Written false depth (id.word :: ws) (id.text.toList ++ text)
  | number {apart : Bool} {depth : Nat} {ws : List Word} {text : List Char} (n : Numeral)
      (hends : Lexeme.Ends text) (h : Written apart depth ws text) :
      Written false depth (n.word :: ws) (n.text.toList ++ text)
  | operator {apart : Bool} {depth : Nat} {w : Word} {ws : List Word} {text : List Char}
      (hw : IsOperator w)
      (hmatch : Spelling.firstMatch Spelling.operators (w.text.toList ++ text) = some w.text)
      (h : Written apart depth ws text) : Written false depth (w :: ws) (w.text.toList ++ text)
  | opening {apart : Bool} {depth : Nat} {ws : List Word} {text : List Char}
      (h : Written apart (depth + 1) ws text) :
      Written false depth (opening :: ws) (opening.text.toList ++ text)
  | closing {apart : Bool} {depth : Nat} {ws : List Word} {text : List Char}
      (h : Written apart depth ws text) :
      Written false (depth + 1) (closing :: ws) (closing.text.toList ++ text)

theorem IsOperator.plain {w : Word} (hw : IsOperator w) :
    w.kind = .op ∧ ∀ c ∈ w.text.toList, c ∉ Lexeme.special := by
  rcases hw with ⟨sign, rfl⟩ | ⟨op, rfl⟩
  · refine ⟨rfl, ?_⟩
    cases sign <;> simp [Sign.word, Sign.symbol, Lexeme.special]
  · refine ⟨rfl, ?_⟩
    cases op <;> simp [link, BinOp.symbol, Lexeme.special]

namespace Written

variable {apart : Bool} {depth : Nat} {w : Word} {ws : List Word} {text : List Char} {l : Lexer}

theorem plain (h : Written apart depth ws text) : ∀ c ∈ text, c ∉ Lexeme.special := by
  have happend {first rest : List Char} (hfirst : ∀ c ∈ first, c ∉ Lexeme.special)
      (hrest : ∀ c ∈ rest, c ∉ Lexeme.special) : ∀ c ∈ first ++ rest, c ∉ Lexeme.special :=
    fun c hc => (List.mem_append.mp hc).elim (hfirst c) (hrest c)
  induction h with
  | done => exact List.forall_mem_nil _
  | apart _ ih => exact List.forall_mem_cons.mpr ⟨by decide, ih⟩
  | name id _ _ ih =>
    obtain ⟨c, cs, hspelled, hstarts, hcontinues⟩ := id.spelled
    refine happend ?_ ih
    rw [hspelled]
    exact List.forall_mem_cons.mpr
      ⟨Lexeme.not_special_of_continuesName (Lexeme.continuesName_of_startsName hstarts),
        fun d hd => Lexeme.not_special_of_continuesName (hcontinues d hd)⟩
  | number n _ _ ih =>
    obtain ⟨c, cs, hspelled, hdigit, hdigits⟩ := n.spelled
    have hletter := fun d hd => Lexeme.not_special_of_continuesName
      (Lexeme.continuesName_of_digit (c := d) hd)
    refine happend ?_ ih
    rw [hspelled]
    exact List.forall_mem_cons.mpr
      ⟨hletter c (Bool.or_eq_true_iff.mpr (.inl hdigit)), fun d hd => hletter d (hdigits d hd)⟩
  | operator hw _ _ ih => exact happend hw.plain.2 ih
  | opening _ ih | closing _ ih =>
    exact happend (by simp [Arithmetic.opening, Arithmetic.closing, Lexeme.special]) ih

theorem cuts_word (h : Written false depth (w :: ws) text) (hl : l.Expects depth text) :
    ∃ token l' apart' depth' text', l.Cuts token l' ∧ token.word = w ∧
      Written apart' depth' ws text' ∧ l'.Expects depth' text' ∧ l'.bound = l.bound ∧
      l'.needsNewline = true := by
  have hplain := h.plain
  cases h with
  | name id hends h =>
    obtain ⟨token, hcuts, hword, hafter, hbound⟩ :=
      hl.cuts_take id.text.toList rfl (hl.step_name hplain hends)
    rw [String.ofList_toList] at hword
    exact ⟨token, _, _, _, _, hcuts, hword, h, hafter, hbound,
      l.needsNewline_cut _ _ rfl rfl⟩
  | number n hends h =>
    obtain ⟨token, hcuts, hword, hafter, hbound⟩ :=
      hl.cuts_take n.text.toList rfl (hl.step_number hplain hends)
    rw [String.ofList_toList] at hword
    exact ⟨token, _, _, _, _, hcuts, hword, h, hafter, hbound,
      l.needsNewline_cut _ _ rfl rfl⟩
  | operator hw hmatch h =>
    obtain ⟨token, hcuts, hword, hafter, hbound⟩ :=
      hl.cuts_take w.text.toList rfl (hl.step_operator hw hplain hmatch)
    rw [String.ofList_toList, ← hw.plain.1] at hword
    exact ⟨token, _, _, _, _, hcuts, hword, h, hafter, hbound,
      l.needsNewline_cut _ _ rfl rfl⟩
  | opening h =>
    obtain ⟨m, hm, hbound, hstep⟩ := hl.step_opening hplain
    obtain ⟨token, hcuts, hword, hafter, hbound⟩ :=
      hm.cuts_take Arithmetic.opening.text.toList hbound hstep
    exact ⟨token, _, _, _, _, hcuts, hword, h, hafter, hbound,
      m.needsNewline_cut _ _ rfl rfl⟩
  | closing h =>
    obtain ⟨m, hm, hbound, hstep⟩ := hl.step_closing hplain
    obtain ⟨token, hcuts, hword, hafter, hbound⟩ :=
      hm.cuts_take Arithmetic.closing.text.toList hbound hstep
    exact ⟨token, _, _, _, _, hcuts, hword, h, hafter, hbound,
      m.needsNewline_cut _ _ rfl rfl⟩

theorem kind_mem (h : Written false depth (w :: ws) text) :
    w.kind ∈ [TokenKind.name, .number, .op] := by
  cases h with
  | name | number | opening | closing => simp [Identifier.word, Numeral.word, Arithmetic.opening,
      Arithmetic.closing]
  | operator hw => simp [hw.plain.1]

theorem head_not_space (h : Written false depth (w :: ws) text) :
    ∃ c after, text = c :: after ∧ Lexeme.isSpace c = false := by
  cases h with
  | name id =>
    obtain ⟨c, cs, hspelled, hstarts, -⟩ := id.spelled
    exact ⟨c, _, by rw [hspelled]; rfl,
      Lexeme.not_isSpace_of_continuesName (Lexeme.continuesName_of_startsName hstarts)⟩
  | number n =>
    obtain ⟨c, cs, hspelled, hdigit, -⟩ := n.spelled
    exact ⟨c, _, by rw [hspelled]; rfl, Lexeme.not_isSpace_of_continuesName
      (Lexeme.continuesName_of_digit (Bool.or_eq_true_iff.mpr (.inl hdigit)))⟩
  | operator hw =>
    rcases hw with ⟨sign, rfl⟩ | ⟨op, rfl⟩
    · cases sign <;> exact ⟨_, _, rfl, by decide⟩
    · cases op <;> exact ⟨_, _, rfl, by decide⟩
  | opening | closing => exact ⟨_, _, rfl, by decide⟩

theorem cuts_space (h : Written true depth (w :: ws) text) (hl : l.Expects depth text) :
    ∃ token l' text', l.Cuts token l' ∧ token.kind = .space ∧
      Written false depth (w :: ws) text' ∧ l'.Expects depth text' ∧ l'.bound = l.bound := by
  cases h with
  | @apart _ _ _ text h =>
    obtain ⟨c, after, rfl, hc⟩ := h.head_not_space
    have hstep := hl.step_space fun d hd => Option.some.inj hd ▸ hc
    obtain ⟨token, hcuts, hword, hafter, hbound⟩ := hl.cuts_take [' '] rfl hstep
    exact ⟨token, _, _, hcuts, congrArg Word.kind hword, h, hafter, hbound⟩

end Written

end Arithmetic

/-! ### The line and its end -/

namespace Lexer

open Outcome

/-- At the end of the source the lexer still hands out the end of the line and the end marker. -/
theorem Expects.pull_end {l : Lexer} (h : l.Expects 0 []) (hneeds : l.needsNewline = true) :
    ∃ newline l' marker l'', pull l = .ok newline l' ∧ newline.kind = .newline ∧
      l'.bound = l.bound ∧ pull l' = .ok marker l'' ∧ marker.kind = .endMarker := by
  have hbrackets := List.length_eq_zero_iff.mp h.depth
  have hline : takeLine l = .ok none l := by
    simp only [takeLine, run_bind, run_get, h.unread]
    rfl
  have hfinish : finish l = .ok () l.close := by
    simp only [finish, run_bind, run_get, h.modes, hbrackets, h.continued]
    rfl
  have hstep : step l = .ok () l.close := by
    simp only [step, run_bind, run_get, h.rest, List.isEmpty_nil, if_true, goToNextLine, hline,
      hfinish]
  have hpending : l.close.pending = [⟨.newline, "", l.lineEnd, ⟨l.lineEnd.line,
      l.lineEnd.column + 1⟩, l.lineText⟩, ⟨.endMarker, "", l.sourceEnd, l.sourceEnd, ""⟩] := by
    rw [close_pending, h.pending, closingTokens, missingNewline, if_pos hneeds, h.indents]
    rfl
  have hpositive : 0 < l.bound := Nat.lt_of_lt_of_le Nat.zero_lt_two h.bound
  refine ⟨_, _, _, _, pull_of_step h.pending h.finished hpositive hstep hpending, rfl, ?_,
    pull_pending rfl, rfl⟩
  simp only [close_frame]

theorem step_nextLine {l : Lexer} {text : List Char} {unread : Source} (hrest : l.rest = [])
    (hunread : l.unread = .text text :: unread) (hplace : l.AtStatement) :
    step l = startLine (l.freshLine text unread) := by
  obtain ⟨hmodes, hbrackets, hcontinued⟩ := hplace
  rw [step_of_rest_nil hrest, goToNextLine_line hunread, hmodes, hbrackets, hcontinued]
  rfl

theorem step_start {text after : List Char} {c : Char} (tabSize : Nat) (htext : text = c :: after)
    (hplain : ∀ d ∈ text, d ∉ Lexeme.special) (hspace : Lexeme.isSpace c = false) :
    ∃ l, step (ofSource (.ofText text) tabSize) = .ok () l ∧ l.Expects 0 text ∧
      l.bound = (ofSource (.ofText text) tabSize).bound := by
  subst htext
  have hc := hplain c List.mem_cons_self
  have hfeed : '\n' ∉ c :: after := fun hmem => hplain _ hmem (by decide)
  simp only [Lexeme.special, List.mem_cons, List.not_mem_nil, or_false, not_or] at hc
  obtain ⟨-, -, -, -, hcomment, hnew, hreturn⟩ := hc
  have hlines : Source.ofText (c :: after) = [.text (c :: after)] := by
    rw [Source.ofText, Text.splitLines_last (by simp) hfeed]
    rfl
  have hbound := bound_ofSource (.ofText (c :: after)) tabSize
  let l := ofSource (.ofText (c :: after)) tabSize
  have hmargin : (c :: after).takeWhile Lexeme.isSpace = [] := by
    rw [List.takeWhile_cons, hspace]
    rfl
  have hpast : (l.freshLine (c :: after) []).pastMargin.rest = c :: after := by
    rw [pastMargin, show (l.freshLine (c :: after) []).rest = c :: after from rfl, hmargin]
    rfl
  have hstart : startLine (l.freshLine (c :: after) []) =
      .ok () (l.freshLine (c :: after) []).pastMargin := by
    rw [startLine_freshLine, hpast, hmargin]
    simp only [beq_false_of_ne hcomment, Lexeme.isLineBreak, beq_false_of_ne hnew,
      beq_false_of_ne hreturn, Bool.or_self, Bool.false_eq_true, if_false]
    rfl
  refine ⟨_, (step_nextLine rfl hlines ⟨rfl, rfl, rfl⟩).trans hstart, ⟨hpast, rfl, rfl, rfl,
    List.forall_mem_nil _, rfl, rfl, rfl, rfl, ?_⟩, rfl⟩
  change 2 ≤ (ofSource (.ofText (c :: after)) tabSize).bound
  omega

theorem pull_start {l l' m : Lexer} {token : Token} {text : List Char} (hpending : l.pending = [])
    (hfinished : l.finished = false) (hstep : step l = .ok () m) (hm : m.Expects 0 text)
    (hbound : m.bound = l.bound) (hcuts : m.Cuts token l') : pull l = .ok token l' := by
  obtain ⟨n, hnext, htoken, rfl⟩ := hcuts
  obtain ⟨fuel, hfuel⟩ : ∃ fuel, l.bound = fuel + 1 + 1 :=
    ⟨l.bound - 2, by have := hm.bound; omega⟩
  refine pull_of_work ?_ htoken
  rw [hfuel, work_of_step hpending hfinished hstep, work_of_step hm.pending hm.finished hnext]
  exact work_ready (by simp [htoken])

end Lexer

end ShellSyntax
