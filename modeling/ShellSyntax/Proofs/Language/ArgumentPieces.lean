import ShellSyntax.Language.Grammar
import ShellSyntax.Proofs.Language.Arguments
import ShellSyntax.Proofs.Language.Ranking
import ShellSyntax.Proofs.Parser.Answer
import ShellSyntax.Proofs.Parser.Inversion

/-!
The pieces of a command. A command in brackets is cut into pieces that cover its tokens one after
the other, and its arguments are those that these pieces make.
-/

namespace ShellSyntax.Language

open Matcher

/-- Where rules match as they do, the matcher yields `a` from `i` on and ends at `j`. -/
abbrev Finds {α : Type} (W : World) (m : Match α) (i : Nat) (a : α) (j : Nat) : Prop :=
  W.Reads (W.answer grammar ranking) m i a j

/-! ### Steps -/

section Steps

variable {α : Type} {W : World} {callee : Callee rules} {i j : Nat}

theorem attempt_some {inner : Nat → Match (Option α)} {a : α}
    (h : W.Reads callee (attempt inner) i (some a) j) : W.Reads callee (inner i) i (some a) j := by
  obtain ⟨found, k, hfound, hrest⟩ := h.mark.bind
  cases found with
  | none => cases hrest.reset
  | some found =>
    cases hrest
    exact hfound

theorem attempt_none {inner : Nat → Match (Option α)}
    (h : W.Reads callee (attempt inner) i none j) : j = i := by
  obtain ⟨found, k, hfound, hrest⟩ := h.mark.bind
  cases found with
  | none => exact hrest.reset.pure.2
  | some found => cases hrest

theorem node_form {start : Nat} {form : ExprForm} {e : Expr}
    (h : W.Reads callee (node start form) i (some e) j) : e.form = form ∧ j = i := by
  cases h.spanSince
  exact ⟨rfl, rfl⟩

end Steps

/-! ### Pieces -/

inductive StringCut (W : World) : Nat → Nat → Prop
  | plain {i : Nat} {t : Token} (ht : W.token i = .ok t) (hkind : t.kind = .string) :
      StringCut W i (i + 1)
  | formatted {i j : Nat} {opening closing : Token} {raw : Bool} {parts : List FormatPart}
      (hopening : W.token i = .ok opening) (hstart : opening.kind = .fstringStart)
      (hinside : Finds W (fstringInside raw) (i + 1) (some parts) j)
      (hclosing : W.token j = .ok closing) (hend : closing.kind = .fstringEnd) :
      StringCut W i (j + 1)

/-- String literals one after the other, whatever is between them in the source. -/
inductive StringCuts (W : World) : Nat → Nat → Prop
  | one {i j : Nat} (cut : StringCut W i j) : StringCuts W i j
  | more {i j k : Nat} (cuts : StringCuts W i j) (cut : StringCut W j k) : StringCuts W i k

/-- The operators that are words in a command. -/
def textSigns : List String :=
  ["!=", "(", "[", "\x7b", ")", "]", "\x7d"]

/-- A token that is a word as it is written. -/
def IsText (t : Token) : Prop :=
  t.kind = .word ∨ t.kind = .name ∨ t.kind = .number ∨ t.kind = .op ∧ t.text ∈ textSigns

mutual

/-- What the tokens from one place to another say as a piece of an argument. A string literal is a
piece of its own, but an f-string takes with it all string literals that follow. -/
inductive Cut (W : World) : CommandArg → Nat → Nat → Prop
  | word {i : Nat} {t : Token} (ht : W.token i = .ok t) (htext : IsText t) :
      Cut W (.word t.text) i (i + 1)
  | quoted {i : Nat} {t : Token} (ht : W.token i = .ok t) (hkind : t.kind = .string) :
      Cut W (.quoted t.text) i (i + 1)
  | strings {i j : Nat} {t : Token} {value : Expr} (ht : W.token i = .ok t)
      (hkind : t.kind = .fstringStart) (cuts : StringCuts W i j)
      (hend : ∀ t, W.token j = .ok t → t.kind ≠ .string)
      (hvalue : Finds W stringRun i (some value) j) : Cut W (.hostExpr value) i j
  | pathSearch {i : Nat} {t : Token} (ht : W.token i = .ok t) (hkind : t.kind = .pathSearch) :
      Cut W (.pathSearch (.ofText t.text.toList)) i (i + 1)
  | namedVariable {i : Nat} {dollar id : Token} (hdollar : W.token i = .ok dollar)
      (htext : dollar.text = "$") (hid : W.token (i + 1) = .ok id) (hkind : id.kind = .name)
      (htouches : dollar.stop = id.start) : Cut W (.namedVariable id.text) i (i + 2)
  | computedVariable {i j : Nat} {value : Expr} (hopen : W.Spells i "$\x7b")
      (hvalue : Finds W expr (i + 1) (some value) j) (hclose : W.Spells j "\x7d") :
      Cut W (.computedVariable value) i (j + 1)
  | hostExpr {i j : Nat} {value : Expr} (hopen : W.Spells i "@(")
      (hvalue : Finds W spreadTuple (i + 1) (some value) j) (hclose : W.Spells j ")") :
      Cut W (.hostExpr value) i (j + 1)
  | pipeline {i j : Nat} {command : Pipeline} (literal : CommandLiteral W command i j) :
      Cut W (.pipeline command) i j
  | redirect {i : Nat} {t : Token} (ht : W.token i = .ok t) (hop : t.kind = .op)
      (htext : t.text ∈ redirections) : Cut W (.redirect t.text) i (i + 1)
  | raw {i : Nat} {t : Token} (hsign : W.Spells i "!") (ht : W.token (i + 1) = .ok t)
      (hkind : t.kind = .macroParam) : Cut W (.raw t.text) i (i + 2)

/-- Pieces that follow each other, none left out. -/
inductive Pieces (W : World) : List Piece → Nat → Nat → Prop
  | nil (i : Nat) : Pieces W [] i i
  | concat {i j k : Nat} {pieces : List Piece} {arg : CommandArg} (before : Pieces W pieces i j)
      (cut : Cut W arg j k) : Pieces W (pieces ++ [⟨arg, j, k⟩]) i k

/-- Commands with the signs between them, and the arguments that their pieces make. -/
inductive Stages (W : World) : List PipelineStage → Nat → Nat → Prop
  | first {i j : Nat} {pieces : List Piece} (hpieces : Pieces W pieces i j)
      (hsome : pieces ≠ []) : Stages W [⟨none, arguments W.toFeed pieces⟩] i j
  | further {i j k : Nat} {stages : List PipelineStage} {text : String} {link : StageLink}
      {pieces : List Piece} (before : Stages W stages i j) (hlink : (text, link) ∈ links)
      (hsign : W.Spells j text) (hpieces : Pieces W pieces (j + 1) k) (hsome : pieces ≠ []) :
      Stages W (stages ++ [⟨some link, arguments W.toFeed pieces⟩]) i k

/-- The tokens from one place to another are this command in its brackets. -/
inductive CommandLiteral (W : World) : Pipeline → Nat → Nat → Prop
  | waited {i j : Nat} {capture : CaptureMode} {stages : List PipelineStage}
      (hopen : W.Spells i capture.opener) (hstages : Stages W stages (i + 1) j)
      (hclose : W.Spells j capture.closer) : CommandLiteral W ⟨capture, stages, false⟩ i (j + 1)
  | background {i j : Nat} {capture : CaptureMode} {stages : List PipelineStage}
      (hopen : W.Spells i capture.opener) (hstages : Stages W stages (i + 1) j)
      (hsign : W.Spells j "&") (hclose : W.Spells (j + 1) capture.closer) :
      CommandLiteral W ⟨capture, stages, true⟩ i (j + 2)

end

variable {W : World} {i j k : Nat} {arg : CommandArg} {pieces : List Piece} {token : Token}

/-! ### The ends of pieces -/

/-- The token before `j` is no layout. -/
def ShownBefore (f : Feed) (j : Nat) : Prop :=
  ∃ k t, j = k + 1 ∧ f.token k = .ok t ∧ t.kind.isLayout = false

theorem ShownBefore.stop_lastToken? {f : Feed} (h : ShownBefore f j) :
    (f.lastToken? j).map Token.stop = some (f.stopBefore j) := by
  obtain ⟨k, t, rfl, ht, hlayout⟩ := h
  simp [Feed.lastToken?, Feed.stopBefore, ht, hlayout]

theorem shown_of_spells {f : Feed} {text : String} (h : f.Spells i text) :
    ShownBefore f (i + 1) := by
  obtain ⟨t, ht, hkind, _⟩ := h
  refine ⟨i, t, rfl, ht, ?_⟩
  rcases hkind with hkind | hkind | hkind <;> simp [hkind, TokenKind.isLayout]

theorem StringCut.shown (cut : StringCut W i j) : ShownBefore W.toFeed j := by
  cases cut with
  | plain ht hkind => exact ⟨_, _, rfl, ht, by simp [hkind, TokenKind.isLayout]⟩
  | formatted _ _ _ hclosing hend =>
    exact ⟨_, _, rfl, hclosing, by simp [hend, TokenKind.isLayout]⟩

theorem Cut.shown (cut : Cut W arg i j) : ShownBefore W.toFeed j := by
  cases cut with
  | word ht htext =>
    refine ⟨_, _, rfl, ht, ?_⟩
    rcases htext with hkind | hkind | hkind | ⟨hkind, _⟩ <;> simp [hkind, TokenKind.isLayout]
  | quoted ht hkind | pathSearch ht hkind | redirect ht hkind | raw _ ht hkind
  | namedVariable _ _ ht hkind =>
    exact ⟨_, _, rfl, ht, by simp [hkind, TokenKind.isLayout]⟩
  | strings _ _ cuts =>
    cases cuts with
    | one cut | more _ cut => exact cut.shown
  | computedVariable _ _ hclose | hostExpr _ _ hclose => exact shown_of_spells hclose
  | pipeline literal =>
    cases literal with
    | waited _ _ hclose | background _ _ _ hclose => exact shown_of_spells hclose

theorem Cut.plain (cut : Cut W arg i j) : arg.isConcat = false := by
  cases cut <;> rfl

namespace Pieces

theorem plain : {pieces : List Piece} → {j : Nat} → Pieces W pieces i j →
    ∀ p ∈ pieces, p.arg.isConcat = false
  | _, _, .nil _ => nofun
  | _, _, .concat before cut =>
    List.forall_mem_append.mpr ⟨plain before, List.forall_mem_singleton.mpr cut.plain⟩

theorem last (h : Pieces W pieces i j) {p : Piece} (hlast : pieces.getLast? = some p) :
    p.next = j ∧ ShownBefore W.toFeed j := by
  cases h with
  | nil => cases hlast
  | concat before cut =>
    rw [List.getLast?_concat] at hlast
    cases hlast
    exact ⟨rfl, cut.shown⟩

end Pieces

end ShellSyntax.Language
