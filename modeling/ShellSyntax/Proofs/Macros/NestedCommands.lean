import ShellSyntax.Proofs.Language.ArgumentSplitting
import ShellSyntax.Proofs.Lexer.Signs
import ShellSyntax.Proofs.Macros.Callables

/-!
Captured commands among the words of a command. The lexer opens a command at `!(`, unless it stands
right behind the name of a variable, and the parser takes a command there as an argument.
-/

namespace ShellSyntax

namespace Lexer

open Outcome

theorem step_bangParen {l : Lexer} {after : List Char} (houtside : l.Outside)
    (hrest : l.rest = '!' :: '(' :: after) (hfollows : l.followsCallable = false) :
    step l = .ok () ((l.pushBracket ⟨.bangParen, .command, l.here⟩).take .op 2) := by
  rw [step_bang houtside hrest]
  change scanOpener "!(" .bangParen l = _
  simp only [scanOpener, run_bind, run_get, hfollows]
  rfl

end Lexer

namespace Language

open Matcher

variable {W : World} {i j depth : Nat} {token : Token}

theorem piece_eq_commandArg (hop : token.isOp "!(" = true) :
    piece token depth = do return (← commandArg).map fun arg => (arg, depth) := by
  obtain ⟨kind, text, start, stop, line⟩ := token
  simp only [Token.isOp, Bool.and_eq_true, beq_iff_eq] at hop
  obtain ⟨rfl, rfl⟩ := hop
  rfl

theorem CommandLiteral.capture_object {command : Pipeline} (literal : CommandLiteral W command i j)
    (ht : W.token i = .ok token) (hop : token.isOp "!(" = true) : command.capture = .object := by
  simp only [Token.isOp, Bool.and_eq_true, beq_iff_eq] at hop
  have opened {capture : CaptureMode} (hopen : W.Spells i capture.opener) : capture = .object := by
    obtain ⟨opening, hopening, _, htext⟩ := hopen
    obtain rfl : token = opening := Except.ok.inj (ht.symm.trans hopening)
    rw [hop.2] at htext
    cases capture with
    | object => rfl
    | stdout | uncaptured | hiddenObject | inject => exact absurd htext (by decide)
  cases literal with
  | waited hopen | background hopen => exact opened hopen

theorem piece_iff_command (hcommands : IsCommand W i) (ht : W.token i = .ok token)
    (hop : token.isOp "!(" = true) {found : CommandArg × Nat} :
    Finds W (piece token depth) i (some found) j ↔
      ∃ e command, Finds W commandExpr i (some e) j ∧ e.form = .pipeline command ∧
        command.capture = .object ∧ found = (.pipeline command, depth) := by
  rw [piece_eq_commandArg hop]
  constructor
  · intro h
    obtain ⟨matched, k, hmatched, hrest⟩ := h.bind
    obtain ⟨e?, l, hcommand, hform⟩ := hmatched.bind
    cases e? with
    | none =>
      cases hform
      cases hrest
    | some e =>
      obtain ⟨command, hpipeline, literal⟩ := hcommands e l hcommand
      simp only [Option.map_some, hpipeline] at hform
      cases hform
      cases hrest
      exact ⟨e, command, hcommand, hpipeline, literal.capture_object ht hop, rfl⟩
  · rintro ⟨e, command, hcommand, hform, _, rfl⟩
    have harg : Finds W commandArg i (some (.pipeline command)) j := by
      refine .follow hcommand ?_
      simp only [Option.map_some, hform]
      rfl
    exact .follow harg rfl

end Language

namespace Program

open ShellSyntax.Language

theorem le_limit_of_isOp {source : Source} {origin : Option Origin} {options : ParseOptions}
    {diagnosing : Bool} {i : Nat} {token : Token} {text : String}
    (ht : (pass source origin options diagnosing).world.token i = .ok token)
    (hop : token.isOp text = true) : i ≤ (pass source origin options diagnosing).world.limit := by
  have fresh := TokenStream.fresh_ofLexer source options.tabSize origin
  let W := TokenStream.nestedWorld source options.tabSize origin fresh diagnosing
  have hkind : token.kind ≠ .endMarker := by
    intro hend
    simp [Token.isOp, hend] at hop
  exact Nat.le_of_lt (W.ended i token ht hkind)

/-- In a command the lexer reads `!(` as the opener of a further command, unless it stands right
behind the name of a variable. Where the rule for commands matches at such an opener, its command,
with its object captured, is the piece of an argument that the parser reads there, and no other
piece is. -/
theorem bang_paren_opens_command (source : Source) (origin : Option Origin)
    (options : ParseOptions) (diagnosing : Bool) :
    (∀ found l after, Lexer.Passes source options.tabSize found l → l.Outside →
      l.brackets.inCommand = true → l.rest = '!' :: '(' :: after →
        EndsInVariable found l.here ∨
          Lexer.step l = .ok () ((l.pushBracket ⟨.bangParen, .command, l.here⟩).take .op 2)) ∧
    ∀ i j token depth found, let W := (pass source origin options diagnosing).world
      W.token i = .ok token → token.isOp "!(" = true →
        (Finds W (piece token depth) i (some found) j ↔
          ∃ e command, Finds W commandExpr i (some e) j ∧ e.form = .pipeline command ∧
            command.capture = .object ∧ found = (.pipeline command, depth)) := by
  constructor
  · intro found l after passed houtside hcommand hrest
    by_cases hfollows : l.followsCallable = true
    · exact .inl ((passed.followsCallable (passed.working (by simp [hrest])) hfollows).2 hcommand)
    · exact .inr (Lexer.step_bangParen houtside hrest (Bool.not_eq_true _ ▸ hfollows))
  · intro i j token depth found W ht hop
    have fresh := TokenStream.fresh_ofLexer source options.tabSize origin
    let nested := TokenStream.nestedWorld source options.tabSize origin fresh diagnosing
    exact piece_iff_command (isCommand nested i (le_limit_of_isOp ht hop)) ht hop

def capturesObject : ExprForm → Bool
  | .pipeline command => command.capture == .object
  | _ => false

theorem pipeline_of_capturesObject {form : ExprForm} (h : capturesObject form = true) :
    ∃ command, form = .pipeline command ∧ command.capture = .object := by
  unfold capturesObject at h
  split at h
  case h_1 command => exact ⟨command, rfl, beq_iff_eq.mp h⟩
  case h_2 => cases h

/-- The command `!(ls)` among the words of another. -/
theorem bang_paren_opens_command_nested :
    let source : Source := .ofString "$(echo !(ls))"
    let W := (pass source none .default false).world
    (∃ found l, Lexer.Passes source ParseOptions.default.tabSize found l ∧
      found.map (·.text) = ["$(", "echo", " "] ∧
      Lexer.step l = .ok () ((l.pushBracket ⟨.bangParen, .command, l.here⟩).take .op 2)) ∧
    ∃ token command, W.token 2 = .ok token ∧ token.isOp "!(" = true ∧
      command.capture = .object ∧ Finds W (piece token 0) 2 (some (.pipeline command, 0)) 5 := by
  intro source W
  obtain ⟨lexes, parses⟩ := bang_paren_opens_command source none .default false
  constructor
  · obtain ⟨found, l, passed, hl⟩ := Lexer.Passes.of_run source ParseOptions.default.tabSize 3
      (fun tokens l => l.pending = [] ∧ tokens.map (·.text) = ["$(", "echo", " "] ∧
        l.modes = [] ∧ l.brackets.inCommand = true ∧ l.rest = "!(ls))".toList ∧
        tokens.all (·.kind != .name) = true)
      (by decide +kernel)
    obtain ⟨hpending, htexts, hmodes, hcommand, hrest, hkinds⟩ := of_decide_eq_true hl
    rw [hpending, List.append_nil] at passed
    have opened := lexes found l _ passed (.inl hmodes) hcommand hrest
    refine ⟨found, l, passed, htexts, opened.resolve_left ?_⟩
    rintro ⟨before, dollar, name, rfl, _, _, hname, _⟩
    simp [hname] at hkinds
  · have hopener : (W.token 2).toOption.any (·.isOp "!(") = true := by decide +kernel
    obtain ⟨token, htoken, hop⟩ := (Option.any_eq_true _ _).mp hopener
    have ht : W.token 2 = .ok token := by
      cases hread : W.token 2 with
      | error e => simp [hread, Except.toOption] at htoken
      | ok read => simpa [hread, Except.toOption] using htoken
    obtain ⟨e, j, hresult, _, hgood⟩ := answer_of_read source none .default .commandExpr 2
      (fun e j => capturesObject e.form && j == 5) 2000 rfl (le_limit_of_isOp ht hop)
      (by decide +kernel) (by decide +kernel)
    rw [Bool.and_eq_true, beq_iff_eq] at hgood
    obtain ⟨hcaptures, rfl⟩ := hgood
    obtain ⟨command, hform, hcapture⟩ := pipeline_of_capturesObject hcaptures
    exact ⟨token, command, ht, hop, hcapture,
      (parses 2 5 token 0 _ ht hop).mpr ⟨e, command, .of_answer hresult, hform, hcapture, rfl⟩⟩

/-- Right behind the name of a variable `!(` starts a macro call, and what follows is raw text. -/
theorem bang_paren_behind_variable :
    ¬ ∀ (source : Source) (tabSize : Nat) (found : List Token) (l : Lexer) (after : List Char),
      Lexer.Passes source tabSize found l → l.Outside → l.brackets.inCommand = true →
      l.rest = '!' :: '(' :: after →
      Lexer.step l = .ok () ((l.pushBracket ⟨.bangParen, .command, l.here⟩).take .op 2) := by
  intro claimed
  obtain ⟨found, l, passed, hl⟩ := Lexer.Passes.of_run (.ofString "$(echo $x!(ls))\n") 8 5
    (fun _ l => l.pending = [] ∧ l.modes = [] ∧ l.brackets.inCommand = true ∧
      l.rest = "!(ls))\n".toList ∧
      (Outcome.final (Lexer.step l)).pending.map (·.kind) = [.op, .macroParam])
    (by decide +kernel)
  obtain ⟨hpending, hmodes, hcommand, hrest, hkinds⟩ := of_decide_eq_true hl
  rw [claimed _ 8 _ l _ passed (.inl hmodes) hcommand hrest, Outcome.final, Lexer.take_pending,
    show (l.pushBracket _).pending = [] from hpending] at hkinds
  simp at hkinds

end Program

end ShellSyntax
