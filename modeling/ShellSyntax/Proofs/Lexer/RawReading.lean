import Mathlib.Logic.Relation
import ShellSyntax.Proofs.Lexer.Extents
import ShellSyntax.Proofs.Lexer.Tiling

/-!
Reading raw text. From each place there is one way on: past a literal, a bracket or another
character, so that the places at which raw text stops do not depend on how they were reached.
-/

namespace ShellSyntax.RawText

open Relation (ReflTransGen)

/-- One step through raw text, from a place and the brackets open there. -/
inductive Follows (text : List Char) : Nat × List Opener → Nat × List Opener → Prop
  | literal {b c : Nat} {open_ : List Opener} {quote : Quote}
      (hopening : Quote.opening? (text.drop b) = some quote)
      (hliteral : Literal text quote (b + quote.size) c) : Follows text (b, open_) (c, open_)
  | opener {b : Nat} {c : Char} {open_ : List Opener} {opener : Opener}
      (hchar : text[b]? = some c) (hopener : Opener.plain? c = some opener) :
      Follows text (b, open_) (b + 1, opener :: open_)
  | closer {b : Nat} {open_ : List Opener} {opener : Opener}
      (hchar : text[b]? = some opener.closer) :
      Follows text (b, opener :: open_) (b + 1, open_)
  | char {b : Nat} {c : Char} {open_ : List Opener} (hchar : text[b]? = some c)
      (hquote : Quote.opening? (text.drop b) = none) (hopener : Opener.plain? c = none)
      (hcloser : Lexer.isCloser c = false) : Follows text (b, open_) (b + 1, open_)

variable {text : List Char} {a b c i : Nat} {open_ open' : List Opener}
  {p q r : Nat × List Opener}

theorem leaves_iff : Leaves text a b open_ ↔ ReflTransGen (Follows text) (a, []) (b, open_) := by
  constructor
  · intro leaves
    induction leaves with
    | start => exact .refl
    | literal _ hopening hliteral induction => exact induction.tail (.literal hopening hliteral)
    | opener _ hchar hopener induction => exact induction.tail (.opener hchar hopener)
    | closer _ hchar induction => exact induction.tail (.closer hchar)
    | char _ hchar hquote hopener hcloser induction =>
      exact induction.tail (.char hchar hquote hopener hcloser)
  · intro steps
    generalize hlast : (b, open_) = last at steps
    induction steps generalizing b open_ with
    | refl =>
      obtain ⟨rfl, rfl⟩ := Prod.mk.inj hlast
      exact .start
    | tail _ step induction =>
      subst hlast
      cases step with
      | literal hopening hliteral => exact .literal (induction rfl) hopening hliteral
      | opener hchar hopener => exact .opener (induction rfl) hchar hopener
      | closer hchar => exact .closer (induction rfl) hchar
      | char hchar hquote hopener hcloser =>
        exact .char (induction rfl) hchar hquote hopener hcloser

theorem Literal.le {quote : Quote} (literal : Literal text quote a b) : a + quote.size ≤ b := by
  induction literal with
  | close => exact Nat.le_refl _
  | escape _ _ induction => omega
  | char _ _ _ _ induction => omega

theorem head_of_closes {quote : Quote} (hcloses : quote.closes (text.drop a) = true) :
    text[a]? = some quote.mark := by
  obtain ⟨size, hsize⟩ := Nat.exists_eq_add_of_lt quote.size_pos
  rw [Nat.zero_add] at hsize
  rw [Quote.closes, hsize, List.replicate_succ, List.isPrefixOf_iff_prefix] at hcloses
  obtain ⟨rest, hrest⟩ := hcloses
  rw [← List.head?_drop, ← hrest]
  rfl

theorem Literal.unique {quote : Quote} (hmark : quote.mark ≠ '\\')
    (first : Literal text quote a b) (second : Literal text quote a c) : b = c := by
  induction first with
  | close hcloses =>
    cases second with
    | close => rfl
    | escape hescape =>
      rw [head_of_closes hcloses, Option.some.injEq] at hescape
      exact absurd hescape hmark
    | char _ _ hopen => exact absurd (hcloses.symm.trans hopen) (by decide)
  | escape hescape _ induction =>
    cases second with
    | close hcloses =>
      rw [head_of_closes hcloses, Option.some.injEq] at hescape
      exact absurd hescape hmark
    | escape _ next => exact induction next
    | char hchar hother =>
      rw [hescape, Option.some.injEq] at hchar
      exact absurd hchar.symm hother
  | char hchar hother hopen _ induction =>
    cases second with
    | close hcloses => exact absurd (hcloses.symm.trans hopen) (by decide)
    | escape hescape =>
      rw [hescape, Option.some.injEq] at hchar
      exact absurd hchar.symm hother
    | char _ _ _ next => exact induction next

theorem Follows.forward (follows : Follows text p q) : p.1 < q.1 := by
  cases follows with
  | @literal _ _ _ quote _ hliteral =>
    have hle := hliteral.le
    have hsize := quote.size_pos
    dsimp only
    omega
  | opener | closer | char => exact Nat.lt_succ_self _

theorem closer_of_isCloser (opener : Opener) : Lexer.isCloser opener.closer = true := by
  cases opener <;> rfl

theorem isCloser_of_plain? {opener : Opener} {d : Char} (hopener : Opener.plain? d = some opener) :
    Lexer.isCloser d = false := by
  unfold Opener.plain? at hopener
  split at hopener
  · rfl
  · rfl
  · rfl
  · cases hopener

theorem not_bracket_of_opening? {quote : Quote} {d : Char}
    (hopening : Quote.opening? (text.drop b) = some quote) (hchar : text[b]? = some d) :
    Opener.plain? d = none ∧ Lexer.isCloser d = false := by
  have hhead := head_of_closes (Lexer.closes_of_opening hopening)
  obtain rfl : d = quote.mark := Option.some.inj (hchar.symm.trans hhead)
  obtain hmark | hmark := Quote.mark_of_opening? hopening
  · rw [hmark]
    exact ⟨rfl, rfl⟩
  · rw [hmark]
    exact ⟨rfl, rfl⟩

/-- There is one way on, since no character is a bracket and a quotation mark or two brackets. -/
theorem Follows.unique : Relator.RightUnique (Follows text) := by
  intro p q r first second
  cases first with
  | literal hopening hliteral =>
    cases second with
    | literal hopening' hliteral' =>
      obtain rfl := Option.some.inj (hopening.symm.trans hopening')
      have hmark := Quote.mark_ne_backslash (Quote.mark_of_opening? hopening)
      rw [hliteral.unique hmark hliteral']
    | opener hchar hopener =>
      cases hopener.symm.trans (not_bracket_of_opening? hopening hchar).1
    | closer hchar =>
      cases (closer_of_isCloser _).symm.trans (not_bracket_of_opening? hopening hchar).2
    | char _ hquote => cases hopening.symm.trans hquote
  | opener hchar hopener =>
    cases second with
    | literal hopening =>
      cases hopener.symm.trans (not_bracket_of_opening? hopening hchar).1
    | opener hchar' hopener' =>
      obtain rfl := Option.some.inj (hchar.symm.trans hchar')
      rw [Option.some.inj (hopener.symm.trans hopener')]
    | closer hchar' =>
      obtain rfl := Option.some.inj (hchar.symm.trans hchar')
      cases (closer_of_isCloser _).symm.trans (isCloser_of_plain? hopener)
    | char hchar' _ hnone =>
      obtain rfl := Option.some.inj (hchar.symm.trans hchar')
      cases hopener.symm.trans hnone
  | closer hchar =>
    cases second with
    | literal hopening =>
      cases (closer_of_isCloser _).symm.trans (not_bracket_of_opening? hopening hchar).2
    | opener hchar' hopener =>
      obtain rfl := Option.some.inj (hchar.symm.trans hchar')
      cases (closer_of_isCloser _).symm.trans (isCloser_of_plain? hopener)
    | closer => rfl
    | char hchar' _ _ hcloser =>
      obtain rfl := Option.some.inj (hchar.symm.trans hchar')
      cases (closer_of_isCloser _).symm.trans hcloser
  | char hchar hquote hnone hcloser =>
    cases second with
    | literal hopening => cases hopening.symm.trans hquote
    | opener hchar' hopener =>
      obtain rfl := Option.some.inj (hchar.symm.trans hchar')
      cases hopener.symm.trans hnone
    | closer hchar' =>
      obtain rfl := Option.some.inj (hchar.symm.trans hchar')
      cases (closer_of_isCloser _).symm.trans hcloser
    | char => rfl

theorem le_of_steps (steps : ReflTransGen (Follows text) p q) : p.1 ≤ q.1 := by
  induction steps with
  | refl => exact Nat.le_refl _
  | tail _ step induction => exact Nat.le_trans induction (Nat.le_of_lt step.forward)

theorem Leaves.le (leaves : Leaves text a b open_) : a ≤ b :=
  le_of_steps (leaves_iff.mp leaves)

/-- Raw text that stops before the end of a step from `b` stops at `b` or before it. -/
theorem Leaves.stops (leaves : Leaves text a b open_)
    (step : Follows text (b, open_) (c, open')) {other : List Opener}
    (stop : Leaves text a i other) (hlate : b ≤ i) (hearly : i < c) : i = b ∧ other = open_ := by
  obtain behind | ahead := ReflTransGen.total_of_right_unique Follows.unique
    (leaves_iff.mp leaves) (leaves_iff.mp stop)
  · cases behind.cases_head with
    | inl hsame =>
      obtain ⟨rfl, rfl⟩ := Prod.mk.inj hsame
      exact ⟨rfl, rfl⟩
    | inr hfirst =>
      -- the first step to `i` is the one to `c`, which is behind `i`
      obtain ⟨next, first, rest⟩ := hfirst
      obtain rfl := Follows.unique first step
      exact absurd (le_of_steps rest) (Nat.not_le.mpr hearly)
  · cases ahead.cases_tail with
    | inl hsame =>
      obtain ⟨rfl, rfl⟩ := Prod.mk.inj hsame
      exact ⟨rfl, rfl⟩
    | inr hlast =>
      obtain ⟨before, rest, last⟩ := hlast
      have hle := le_of_steps rest
      have hlt := last.forward
      dsimp only at hle hlt
      omega

theorem Leaves.follow (leaves : Leaves text a b open_)
    (step : Follows text (b, open_) (c, open')) : Leaves text a c open' :=
  leaves_iff.mpr ((leaves_iff.mp leaves).tail step)

/-! ### Cuts -/

/-- A comma that stands outside the brackets and literals of the raw text from `a` on. -/
def IsCut (text : List Char) (a i : Nat) : Prop :=
  text[i]? = some ',' ∧ Leaves text a i []

/-- No such comma stands from `b` up to `c`. -/
def Uncut (text : List Char) (a b c : Nat) : Prop :=
  ∀ i, b ≤ i → i < c → ¬IsCut text a i

theorem Uncut.self : Uncut text a b b :=
  fun _ hle hlt => absurd hlt (Nat.not_lt.mpr hle)

theorem Uncut.trans {d : Nat} (first : Uncut text a b c) (second : Uncut text a c d) :
    Uncut text a b d := by
  intro i hle hlt
  by_cases hbefore : i < c
  · exact first i hle hbefore
  · exact second i (Nat.le_of_not_lt hbefore) hlt

theorem Follows.uncut (step : Follows text (b, open_) (c, open')) (leaves : Leaves text a b open_)
    (hcut : open_ = [] → text[b]? ≠ some ',') : Uncut text a b c := by
  rintro i hle hlt ⟨hcomma, stop⟩
  obtain ⟨rfl, hopen⟩ := leaves.stops step stop hle hlt
  exact hcut hopen.symm hcomma

end ShellSyntax.RawText
