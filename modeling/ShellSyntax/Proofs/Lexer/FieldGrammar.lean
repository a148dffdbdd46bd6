import ShellSyntax.Proofs.Lexer.LineEndTokens
import ShellSyntax.Proofs.Lexer.Stacks

/-!
How tokens make code, the literal text of f-strings, and replacement fields. A field is a value, or a
value and a specification with a colon between them. Code that has been read so far is open on some
levels, and each token continues, opens or closes the innermost of them.
-/

namespace ShellSyntax

/-! ### Code, literal text and fields -/

/-- What code stands in. -/
inductive Surrounding where
  | top
  | bracket
  /-- A replacement field, in none of its brackets. -/
  | value
deriving DecidableEq

/-- The token may have a colon in its text that ends no value: in a string, a search or a comment, in
an operator that goes on behind its colon, or behind a carriage return within a line. -/
def Token.HidesColon (t : Token) : Prop :=
  t.kind = .string ∨ t.kind = .pathSearch ∨ t.kind = .comment ∨ t.isOp ":=" = true ∨
    t.kind = .nl ∧ ReturnsWithin t.text

/-- The token opens and closes nothing. In the value of a field no colon is seen in it. -/
structure Token.Ordinary (s : Surrounding) (t : Token) : Prop where
  kind : t.kind ∉ [TokenKind.fstringStart, .fstringMiddle, .fstringEnd]
  bracket : t.kind = .op → Opener.ofSpelling? t.text = none ∧ Lexer.closer? t.text = none
  layout : t.kind.isLayout = true → s = .top
  colon : s = .value → ':' ∈ t.text.toList → t.HidesColon

def Token.Closes (t : Token) (opener : Opener) : Prop :=
  t.kind = .op ∧ Lexer.closer? t.text = some opener.closer

mutual

/-- Tokens, brackets and f-strings. -/
inductive Code : Surrounding → List Token → Prop
  | nil {s : Surrounding} : Code s []
  | token {s : Surrounding} {tokens : List Token} {t : Token} (before : Code s tokens)
      (ht : t.Ordinary s) : Code s (tokens ++ [t])
  | bracket {s : Surrounding} {tokens inner : List Token} {opening closing : Token}
      {opener : Opener} (before : Code s tokens) (hopening : opening.isOp opener.spelling = true)
      (hinner : Code .bracket inner) (hclosing : closing.Closes opener) :
      Code s (tokens ++ (opening :: inner ++ [closing]))
  | literal {s : Surrounding} {tokens text : List Token} {opening closing : Token}
      (before : Code s tokens) (hopening : opening.kind = .fstringStart) (htext : Formatted text)
      (hclosing : closing.kind = .fstringEnd) :
      Code s (tokens ++ (opening :: text ++ [closing]))

/-- Literal text and replacement fields. -/
inductive Formatted : List Token → Prop
  | nil : Formatted []
  | text {tokens : List Token} {t : Token} (before : Formatted tokens)
      (ht : t.kind = .fstringMiddle) : Formatted (tokens ++ [t])
  | field {tokens field : List Token} (before : Formatted tokens) (hfield : Field field) :
      Formatted (tokens ++ field)

/-- A value in braces, and behind a colon the specification. No equals sign follows the colon. -/
inductive Field : List Token → Prop
  | plain {value : List Token} {opening closing : Token} (hopening : opening.isOp "\x7b" = true)
      (hvalue : Code .value value) (hclosing : closing.isOp "\x7d" = true) :
      Field (opening :: value ++ [closing])
  | specified {value spec : List Token} {opening colon closing : Token}
      (hopening : opening.isOp "\x7b" = true) (hvalue : Code .value value)
      (hcolon : colon.isOp ":" = true) (hspec : Formatted spec)
      (hnext : ∀ next ∈ spec.head?, next.text.toList.head? ≠ some '=')
      (hclosing : closing.isOp "\x7d" = true) :
      Field (opening :: value ++ (colon :: spec ++ [closing]))

end

/-! ### What is open -/

/-- What tokens may leave open. -/
inductive Level where
  | bracket (opener : Opener)
  | text
  | value
  /-- A field, right behind its colon. -/
  | colon
  | spec

namespace Level

/-- What code stands in on the innermost of these levels, if it is no literal text. -/
def surrounding? : List Level → Option Surrounding
  | [] => some .top
  | .bracket _ :: _ => some .bracket
  | .value :: _ => some .value
  | .text :: _ | .colon :: _ | .spec :: _ => none

/-- What follows now is literal text. -/
def InText (levels : List Level) : Prop :=
  surrounding? levels = none

/-- The levels behind more literal text. -/
def onward : List Level → List Level
  | .colon :: outer => .spec :: outer
  | levels => levels

end Level

/-- Code that leaves these levels open, the innermost first. -/
inductive Unfinished : List Token → List Level → Prop
  | top {code : List Token} (hcode : Code .top code) : Unfinished code []
  | bracket {outer inner : List Token} {levels : List Level} {opening : Token} {opener : Opener}
      (before : Unfinished outer levels) (hlevels : ¬ Level.InText levels)
      (hopening : opening.isOp opener.spelling = true) (hinner : Code .bracket inner) :
      Unfinished (outer ++ opening :: inner) (.bracket opener :: levels)
  | text {outer text : List Token} {levels : List Level} {opening : Token}
      (before : Unfinished outer levels) (hlevels : ¬ Level.InText levels)
      (hopening : opening.kind = .fstringStart) (htext : Formatted text) :
      Unfinished (outer ++ opening :: text) (.text :: levels)
  | value {outer value : List Token} {levels : List Level} {opening : Token}
      (before : Unfinished outer levels) (hlevels : Level.InText levels)
      (hopening : opening.isOp "\x7b" = true) (hvalue : Code .value value) :
      Unfinished (outer ++ opening :: value) (.value :: levels)
  | colon {outer value : List Token} {levels : List Level} {opening colon : Token}
      (before : Unfinished outer levels) (hlevels : Level.InText levels)
      (hopening : opening.isOp "\x7b" = true) (hvalue : Code .value value)
      (hcolon : colon.isOp ":" = true) :
      Unfinished (outer ++ (opening :: value ++ [colon])) (.colon :: levels)
  | spec {outer value spec : List Token} {levels : List Level} {opening colon : Token}
      (before : Unfinished outer levels) (hlevels : Level.InText levels)
      (hopening : opening.isOp "\x7b" = true) (hvalue : Code .value value)
      (hcolon : colon.isOp ":" = true) (hspec : Formatted spec) (hsome : spec ≠ [])
      (hnext : ∀ next ∈ spec.head?, next.text.toList.head? ≠ some '=') :
      Unfinished (outer ++ (opening :: value ++ colon :: spec)) (.spec :: levels)

namespace Unfinished

variable {found more : List Token} {levels : List Level} {s : Surrounding} {t : Token}

theorem extend (unfinished : Unfinished found levels) (hs : Level.surrounding? levels = some s)
    (hmore : ∀ code, Code s code → Code s (code ++ more)) : Unfinished (found ++ more) levels := by
  cases unfinished with
  | top hcode =>
    cases hs
    exact .top (hmore _ hcode)
  | bracket before hlevels hopening hinner =>
    cases hs
    rw [List.append_assoc, List.cons_append]
    exact .bracket before hlevels hopening (hmore _ hinner)
  | value before hlevels hopening hvalue =>
    cases hs
    rw [List.append_assoc, List.cons_append]
    exact .value before hlevels hopening (hmore _ hvalue)
  | text | colon | spec => cases hs

/-- What may follow literal text may follow all that was found. Right behind the colon of a field it
must not start with an equals sign. -/
theorem extendText (unfinished : Unfinished found levels) (hlevels : Level.InText levels)
    (hsome : more ≠ []) (hmore : ∀ text, Formatted text → Formatted (text ++ more))
    (hnext : ∀ outer, levels = .colon :: outer →
      ∀ next ∈ more.head?, next.text.toList.head? ≠ some '=') :
    Unfinished (found ++ more) (Level.onward levels) := by
  cases unfinished with
  | top | bracket | value => cases hlevels
  | text before hlevels' hopening htext =>
    rw [List.append_assoc, List.cons_append]
    exact .text before hlevels' hopening (hmore _ htext)
  | colon before hlevels' hopening hvalue hcolon =>
    rw [List.append_assoc, List.append_assoc, List.singleton_append]
    exact .spec before hlevels' hopening hvalue hcolon (hmore _ .nil) hsome (hnext _ rfl)
  | @spec outer value spec _ opening colon before hlevels' hopening hvalue hcolon hspec hsome'
      hfirst =>
    rw [List.append_assoc, List.append_assoc, List.cons_append]
    refine .spec before hlevels' hopening hvalue hcolon (hmore _ hspec) (by simp [hsome']) ?_
    obtain ⟨first, others, rfl⟩ := List.exists_cons_of_ne_nil hsome'
    exact hfirst

/-! ### One more token -/

theorem token (unfinished : Unfinished found levels) (hs : Level.surrounding? levels = some s)
    (ht : t.Ordinary s) : Unfinished (found ++ [t]) levels :=
  unfinished.extend hs fun _ hcode => .token hcode ht

theorem tokens (unfinished : Unfinished found levels) (hs : Level.surrounding? levels = some s)
    (hmore : ∀ t ∈ more, t.Ordinary s) : Unfinished (found ++ more) levels := by
  induction more generalizing found with
  | nil => rwa [List.append_nil]
  | cons first more induction =>
    rw [← List.singleton_append, ← List.append_assoc]
    exact induction (unfinished.token hs (hmore first List.mem_cons_self))
      fun t ht => hmore t (List.mem_cons_of_mem _ ht)

theorem openBracket {opener : Opener} (unfinished : Unfinished found levels)
    (hs : Level.surrounding? levels = some s) (ht : t.isOp opener.spelling = true) :
    Unfinished (found ++ [t]) (.bracket opener :: levels) :=
  .bracket unfinished (by simp [Level.InText, hs]) ht .nil

theorem openLiteral (unfinished : Unfinished found levels)
    (hs : Level.surrounding? levels = some s) (ht : t.kind = .fstringStart) :
    Unfinished (found ++ [t]) (.text :: levels) :=
  .text unfinished (by simp [Level.InText, hs]) ht .nil

theorem closeBracket {opener : Opener} (unfinished : Unfinished found (.bracket opener :: levels))
    (ht : t.Closes opener) : Unfinished (found ++ [t]) levels := by
  cases unfinished with
  | bracket before hlevels hopening hinner =>
    obtain ⟨s, hs⟩ := Option.ne_none_iff_exists'.mp hlevels
    rw [List.append_assoc]
    exact before.extend hs fun _ hcode => .bracket hcode hopening hinner ht

theorem closeLiteral (unfinished : Unfinished found (.text :: levels)) (ht : t.kind = .fstringEnd) :
    Unfinished (found ++ [t]) levels := by
  cases unfinished with
  | text before hlevels hopening htext =>
    obtain ⟨s, hs⟩ := Option.ne_none_iff_exists'.mp hlevels
    rw [List.append_assoc]
    exact before.extend hs fun _ hcode => .literal hcode hopening htext ht

theorem addText (unfinished : Unfinished found levels) (hlevels : Level.InText levels)
    (ht : t.kind = .fstringMiddle)
    (hnext : ∀ outer, levels = .colon :: outer → t.text.toList.head? ≠ some '=') :
    Unfinished (found ++ [t]) (Level.onward levels) :=
  unfinished.extendText hlevels (List.cons_ne_nil _ _) (fun _ htext => .text htext ht)
    (by simpa using hnext)

theorem openField (unfinished : Unfinished found levels) (hlevels : Level.InText levels)
    (ht : t.isOp "\x7b" = true) : Unfinished (found ++ [t]) (.value :: levels) :=
  .value unfinished hlevels ht .nil

theorem addColon (unfinished : Unfinished found (.value :: levels)) (ht : t.isOp ":" = true) :
    Unfinished (found ++ [t]) (.colon :: levels) := by
  cases unfinished with
  | value before hlevels hopening hvalue =>
    rw [List.append_assoc]
    exact .colon before hlevels hopening hvalue ht

theorem addField {field : List Token} (unfinished : Unfinished found levels)
    (hlevels : Level.InText levels) (hopening : ∀ t ∈ field.head?, t.isOp "\x7b" = true)
    (hfield : Field field) (hsome : field ≠ []) :
    Unfinished (found ++ field) (Level.onward levels) := by
  refine unfinished.extendText hlevels hsome (fun _ htext => .field htext hfield) ?_
  rintro outer _ next hnext
  have hop := hopening next hnext
  rw [Token.isOp, Bool.and_eq_true, beq_iff_eq, beq_iff_eq] at hop
  rw [hop.2]
  decide

theorem closeField {level : Level} (unfinished : Unfinished found (level :: levels))
    (hlevel : level = .value ∨ level = .colon ∨ level = .spec) (ht : t.isOp "\x7d" = true) :
    Unfinished (found ++ [t]) (Level.onward levels) := by
  cases unfinished with
  | bracket | text => simp at hlevel
  | value before hlevels hopening hvalue =>
    rw [List.append_assoc]
    exact before.addField hlevels (by simpa using hopening) (.plain hopening hvalue ht) (by simp)
  | @colon outer value _ opening colon before hlevels hopening hvalue hcolon =>
    rw [List.append_assoc, List.append_assoc]
    refine before.addField hlevels (by simpa using hopening)
      (.specified hopening hvalue hcolon .nil nofun ht) (by simp)
  | @spec outer value spec _ opening colon before hlevels hopening hvalue hcolon hspec _ hnext =>
    rw [List.append_assoc, List.append_assoc, List.cons_append]
    exact before.addField hlevels (by simpa using hopening)
      (.specified hopening hvalue hcolon hspec hnext ht) (by simp)

end Unfinished

end ShellSyntax
