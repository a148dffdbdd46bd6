import ShellSyntax.Proofs.Lexer.Onward
import ShellSyntax.Proofs.Lexer.Sequence

/-!
What a failure leaves behind. A step that fails either stays where it failed, so that it fails
again, or it has read something: a line that is no text, the indentation of a line, or the sign of a
macro whose raw text cannot be captured.
-/

namespace ShellSyntax

namespace Lexer

open Outcome
open Relation (ReflTransGen)

variable {l m : Lexer} {e : LexError}

/-! ### Failing steps -/

/-- How a step fails with `e`, and the state `m` that it leaves. -/
inductive Fails (l : Lexer) (e : LexError) (m : Lexer) : Prop
  /-- The same step fails again. -/
  | again (hkind : e.isIndentation = false) (hreadable : e ≠ .undecodable)
      (hpending : m.pending = []) (hagain : step m = .error e m)
  /-- A line that is no text is given up, and nothing else changes. -/
  | line (unread : Source) (he : e = .undecodable) (hrest : l.rest = [])
      (hunread : l.unread = .undecodable :: unread) (hm : m = { l with unread })
  /-- A line that belongs to no open block has been entered, as if it belonged to the innermost. -/
  | indentation (line : List Char) (unread : Source) (he : e = .badDedent m.here)
      (hrest : l.rest = []) (hunread : l.unread = .text line :: unread) (hplace : l.AtStatement)
      (hcontent : m.rest ≠ []) (hm : m = (l.freshLine line unread).pastMargin)
  /-- The sign of a macro has been found, but its raw text cannot be captured. -/
  | sign (sign : Token) (more : List Token) (hop : sign.kind = .op)
      (htext : sign.text ∈ ["!(", "!", ":"]) (hpending : m.pending = sign :: more)

theorem fails_in_place (hpending : l.pending = []) (hstep : step l = .error e m) (hstays : m = l)
    (hkind : e.isIndentation = false) (hreadable : e ≠ .undecodable) : Fails l e m := by
  subst hstays
  exact .again hkind hreadable hpending hstep

theorem fails_of_strikes {α : Type} {n : Lexer} {raw : RawText} {capture : Lex α}
    {keeps : α → RawText → Prop} {sign : Token} (strikes : Strikes n raw capture keeps)
    (hpending : n.pending = [sign]) (hop : sign.kind = .op) (htext : sign.text ∈ ["!(", "!", ":"])
    (hcapture : capture n = .error e m) : Fails l e m := by
  rw [Strikes, hcapture] at strikes
  obtain ⟨_, strokes⟩ := strikes
  have found : n.pending <+: m.pending := pending_of_strokes strokes
  rw [hpending] at found
  obtain ⟨more, hmore⟩ := found
  exact .sign sign more hop htext hmore.symm

/-! ### Lines -/

theorem finish_error (hfinish : finish l = .error e m) :
    m = l ∧ e.isIndentation = false ∧ e ≠ .undecodable := by
  simp only [finish, run_bind, run_get] at hfinish
  cases hmodes : l.modes with
  | cons mode outer =>
    rw [hmodes] at hfinish
    cases mode <;>
    · obtain ⟨rfl, rfl⟩ := throw_error.mp hfinish
      exact ⟨rfl, rfl, by simp⟩
  | nil =>
    cases hbrackets : l.brackets with
    | cons top brackets =>
      simp only [hmodes, hbrackets, unclosedError] at hfinish
      obtain ⟨rfl, rfl⟩ := throw_error.mp hfinish
      exact ⟨rfl, rfl, by simp⟩
    | nil =>
      simp only [hmodes, hbrackets, ite_error, set_error, throw_error, if_false_right] at hfinish
      obtain ⟨_, rfl, rfl⟩ := hfinish
      exact ⟨rfl, rfl, by simp⟩

theorem indentTo_error {width : Nat} (hindent : indentTo width l = .error e m) :
    e = .badDedent m.here ∧ m = l := by
  simp only [indentTo, run_bind, run_get, ite_error, set_error, throw_error, pure_error,
    if_false_left, if_false_right] at hindent
  obtain ⟨_, _, _, rfl, rfl⟩ := hindent
  exact ⟨rfl, rfl⟩

theorem startLine_error {line : List Char} {unread : Source}
    (hstart : startLine (l.freshLine line unread) = .error e m) :
    m = (l.freshLine line unread).pastMargin ∧ m.rest ≠ [] ∧ e = .badDedent m.here := by
  rw [startLine_freshLine] at hstart
  cases hcontent : (l.freshLine line unread).pastMargin.rest with
  | nil =>
    rw [hcontent] at hstart
    exact (pure_error.mp hstart).elim
  | cons c rest =>
    simp only [hcontent, ite_error, set_error, if_false_left] at hstart
    obtain ⟨_, _, hindent⟩ := hstart
    obtain ⟨he, hm⟩ := indentTo_error hindent
    refine ⟨hm, ?_, he⟩
    rw [hm, hcontent]
    exact List.cons_ne_nil _ _

theorem goToNextLine_fails (hpending : l.pending = []) (hrest : l.rest = [])
    (hstep : goToNextLine l = .error e m) : Fails l e m := by
  obtain ⟨_, htake⟩ | ⟨line, unread, hunread, htake⟩ | ⟨unread, hunread, htake⟩ :=
    takeLine_cases l
  · have hfinish : finish l = .error e m := by
      rwa [goToNextLine, run_bind, htake] at hstep
    obtain ⟨hstays, hkind, hreadable⟩ := finish_error hfinish
    exact fails_in_place hpending ((step_of_rest_nil hrest).trans hstep) hstays hkind hreadable
  · rw [goToNextLine_line hunread] at hstep
    split at hstep
    case isTrue hplace =>
      obtain ⟨hm, hcontent, he⟩ := startLine_error hstep
      exact .indentation line unread he hrest hunread
        (by simpa [AtStatement, and_assoc] using hplace) hcontent hm
    case isFalse => cases hstep
  · rw [goToNextLine, run_bind, htake] at hstep
    obtain ⟨rfl, rfl⟩ := EStateM.Result.error.inj hstep
    exact .line unread rfl hrest hunread rfl

/-! ### Literals -/

theorem resumeString_error {quote : Quote} {text line : String} {start : Position}
    {outer : List LexMode} (hresume : resumeString quote text start line outer l = .error e m) :
    m = l ∧ e = .unterminatedString start := by
  simp only [resumeString, run_bind, run_get] at hresume
  cases hend : quote.closingEnd? l.rest with
  | some length =>
    rw [hend] at hresume
    exact (set_error.mp hresume).elim
  | none =>
    simp only [hend, ite_error, set_error, throw_error, if_false_left] at hresume
    obtain ⟨_, rfl, rfl⟩ := hresume
    exact ⟨rfl, rfl⟩

theorem startString_error {letters : List Char} {quote : Quote}
    (hstart : startString letters quote l = .error e m) :
    m = l ∧ e = .unterminatedString l.here := by
  simp only [startString, run_bind, run_get, ite_error, set_error, if_false_left] at hstart
  obtain ⟨_, hstart⟩ := hstart
  cases hend : quote.closingEnd? (l.rest.drop (letters.length + quote.size)) with
  | some length =>
    rw [hend] at hstart
    exact (set_error.mp hstart).elim
  | none =>
    simp only [hend, ite_error, set_error, throw_error, if_false_left] at hstart
    obtain ⟨_, rfl, rfl⟩ := hstart
    exact ⟨rfl, rfl⟩

theorem scanSearch_error {opening : Nat} (hscan : scanSearch opening l = .error e m) :
    m = l ∧ e = .unterminatedSearchPath l.here := by
  simp only [scanSearch, run_bind, run_get] at hscan
  cases hend : Lexeme.searchEnd? (l.rest.drop opening) with
  | some length =>
    rw [hend] at hscan
    exact (set_error.mp hscan).elim
  | none =>
    rw [hend] at hscan
    obtain ⟨rfl, rfl⟩ := throw_error.mp hscan
    exact ⟨rfl, rfl⟩

theorem step_of_text {quote : Quote} {text : String} {start begins : Position}
    {outer : List LexMode} (hrest : l.rest ≠ [])
    (hbegins : (if text.isEmpty then l.here else start) = begins) :
    step { l with modes := .fstringText quote text begins :: outer } =
      resumeText quote text start outer l := by
  subst hbegins
  simp only [step, run_bind, run_get, List.isEmpty_eq_false_iff.mpr hrest, resumeText, run_set]
  cases text.isEmpty <;> rfl

theorem step_of_spec {text : String} {start begins : Position} {outer : List LexMode}
    (hrest : l.rest ≠ []) (hbegins : (if text.isEmpty then l.here else start) = begins) :
    step { l with modes := .fstringSpec text begins :: outer } =
      resumeSpec text start outer l := by
  subst hbegins
  simp only [step, run_bind, run_get, List.isEmpty_eq_false_iff.mpr hrest, resumeSpec, run_set]
  cases text.isEmpty <;> rfl

theorem resumeText_fails {quote : Quote} {text : String} {start : Position} {outer : List LexMode}
    (hpending : l.pending = []) (hrest : l.rest ≠ [])
    (hresume : resumeText quote text start outer l = .error e m) : Fails l e m := by
  have hfails := hresume
  simp only [resumeText, run_bind, run_get, run_set] at hfails
  generalize hbegins : (if text.isEmpty then l.here else start) = begins at hfails
  cases hscan : scanText quote 0 l.rest with
  | lineEnd | quote | field =>
    rw [hscan] at hfails
    exact (set_error.mp hfails).elim
  | lineBreak count =>
    rw [hscan] at hfails
    obtain ⟨rfl, rfl⟩ := throw_error.mp hfails
    exact .again rfl (by simp) hpending ((step_of_text hrest hbegins).trans hresume)

theorem resumeSpec_fails {text : String} {start : Position} {outer : List LexMode}
    (hpending : l.pending = []) (hrest : l.rest ≠ [])
    (hbrace : ∃ top brackets, l.brackets = top :: brackets ∧ top.closer = '\x7d')
    (hresume : resumeSpec text start outer l = .error e m) : Fails l e m := by
  have hfails := hresume
  simp only [resumeSpec, run_bind, run_get, run_set] at hfails
  generalize hbegins : (if text.isEmpty then l.here else start) = begins at hfails
  cases hscan : scanSpec 0 l.rest with
  | field count =>
    rw [hscan] at hfails
    exact (set_error.mp hfails).elim
  | close count =>
    obtain ⟨top, brackets, hbrackets, hcloser⟩ := hbrace
    rw [hscan] at hfails
    simp only [run_set, run_bind, run_modify] at hfails
    generalize hn : ({ l with modes := .fstringSpec text begins :: outer } : Lexer).flushText count
      = n at hfails
    have hopen : n.brackets = top :: brackets := by
      rw [← hn, flushText_of_spec rfl]
      simpa using hbrackets
    have hclose : closeBracket '\x7d' n = .ok () { n with brackets } :=
      closeBracket_ok.mpr ⟨top, brackets, hopen, hcloser, rfl⟩
    rw [hclose] at hfails
    cases hfails
  | broken count =>
    rw [hscan] at hfails
    obtain ⟨rfl, rfl⟩ := throw_error.mp hfails
    exact .again rfl (by simp) hpending ((step_of_spec hrest hbegins).trans hresume)

/-! ### Operators -/

theorem closeBracket_error {closer : Char} (hclose : closeBracket closer l = .error e m) :
    m = l ∧ e.isIndentation = false ∧ e ≠ .undecodable := by
  simp only [closeBracket, run_bind, run_get] at hclose
  cases hbrackets : l.brackets with
  | nil =>
    rw [hbrackets] at hclose
    obtain ⟨rfl, rfl⟩ := throw_error.mp hclose
    exact ⟨rfl, rfl, by simp⟩
  | cons top brackets =>
    by_cases htop : top.closer = closer
    · simp only [hbrackets, BracketStack.close, htop, if_true, set_error] at hclose
    · simp only [hbrackets, BracketStack.close, htop, if_false] at hclose
      obtain ⟨rfl, rfl⟩ := throw_error.mp hclose
      exact ⟨rfl, rfl, by simp⟩

theorem scanCloser_error {closer : Char} (hscan : scanCloser closer l = .error e m) :
    m = l ∧ e.isIndentation = false ∧ e ≠ .undecodable := by
  simp only [scanCloser, run_bind, run_get] at hscan
  cases hclose : closeBracket closer l with
  | ok _ n => simp only [hclose, run_modify, reduceCtorEq] at hscan
  | error e' n =>
    rw [hclose] at hscan
    obtain ⟨rfl, rfl⟩ := EStateM.Result.error.inj hscan
    exact closeBracket_error hclose

theorem found_sign {table : List String} {op : String} (hpending : l.pending = [])
    (hmatch : Spelling.firstMatch table l.rest = some op) :
    ∃ sign : Token, (l.take .op op.length).pending = [sign] ∧ sign.kind = .op ∧ sign.text = op := by
  refine ⟨_, by rw [take_pending, hpending]; rfl, rfl, ?_⟩
  rw [Spelling.firstMatch_take hmatch, String.ofList_toList]

theorem scanColon_fails {table : List String} (hpending : l.pending = [])
    (hmatch : Spelling.firstMatch table l.rest = some ":")
    (hscan : scanColon l = .error e m) : Fails l e m := by
  simp only [scanColon, run_bind, run_get, ite_error, set_error, if_false_left, if_false_right]
    at hscan
  obtain ⟨_, _, hcapture⟩ := hscan
  obtain ⟨sign, hsign, hop, htext⟩ :=
    found_sign (l := { l with withHeader := false }) hpending hmatch
  refine fails_of_strikes (captureBody_strikes (.empty l.here) ?_) hsign hop (by simp [htext])
    hcapture
  exact ne_of_eq_of_ne hsign (List.cons_ne_nil _ _)

theorem scanExclamation_fails {table : List String} (hpending : l.pending = [])
    (hmatch : Spelling.firstMatch table l.rest = some "!")
    (hscan : scanExclamation l = .error e m) : Fails l e m := by
  simp only [scanExclamation, run_bind, run_get, ite_error, run_set, reduceCtorEq, if_false_right]
    at hscan
  obtain ⟨_, hcapture⟩ := hscan
  obtain ⟨sign, hsign, hop, htext⟩ := found_sign hpending hmatch
  exact fails_of_strikes (captureCommand_strikes _ (.empty l.here)) hsign hop (by simp [htext])
    hcapture

theorem scanOpener_fails {table : List String} {op : String} {opener : Opener}
    (hpending : l.pending = []) (hmatch : Spelling.firstMatch table l.rest = some op)
    (hopener : Opener.ofSpelling? op = some opener)
    (hscan : scanOpener op opener l = .error e m) : Fails l e m := by
  simp only [scanOpener, run_bind, run_get, ite_error, run_set, reduceCtorEq, if_false_right]
    at hscan
  obtain ⟨⟨rfl, _⟩, hcapture⟩ := hscan
  obtain ⟨sign, hsign, hop, htext⟩ :=
    found_sign (l := l.pushBracket ⟨.bangParen, .raw, l.here⟩) hpending hmatch
  have hspelling : op = "!(" := (spelling_of_ofSpelling? hopener).symm
  exact fails_of_strikes (captureCall_strikes _ (.empty l.here)) hsign hop
    (by simp [htext, hspelling]) hcapture

theorem scanOperator_fails {table : List String} {op : String} (hpending : l.pending = [])
    (hmatch : Spelling.firstMatch table l.rest = some op) (hstep : step l = scanOperator op l)
    (hscan : scanOperator op l = .error e m) : Fails l e m := by
  have hfails := hstep.trans hscan
  unfold scanOperator at hscan
  cases hcloser : closer? op with
  | some closer =>
    simp only [hcloser] at hscan
    obtain ⟨hstays, hkind, hreadable⟩ := scanCloser_error hscan
    exact fails_in_place hpending hfails hstays hkind hreadable
  | none =>
    simp only [hcloser, ite_error] at hscan
    split at hscan
    case isTrue hcolon => exact scanColon_fails hpending (hcolon ▸ hmatch) hscan
    case isFalse =>
      split at hscan
      case isTrue hsign => exact scanExclamation_fails hpending (hsign ▸ hmatch) hscan
      case isFalse =>
        cases hopener : Opener.ofSpelling? op with
        | some opener =>
          simp only [hopener] at hscan
          exact scanOpener_fails hpending hmatch hopener hscan
        | none =>
          simp only [hopener, modify_error] at hscan

/-! ### Tokens -/

theorem scanCommandToken_fails (hpending : l.pending = []) (hstep : step l = scanCommandToken l)
    (hscan : scanCommandToken l = .error e m) : Fails l e m := by
  have hfails := hstep.trans hscan
  simp only [scanCommandToken, run_bind, run_get, ite_error, set_error, if_false_left] at hscan
  obtain ⟨hnames, hscan⟩ := hscan
  cases hmatch : Spelling.firstMatch Spelling.commandOperators l.rest with
  | some op =>
    simp only [hmatch] at hscan
    exact scanOperator_fails hpending hmatch (hfails.trans hscan.symm) hscan
  | none =>
    simp only [hmatch] at hscan
    cases hlength : Lexeme.wordLength l.rest <;> simp only [hlength, set_error] at hscan

theorem scanHostToken_fails (hpending : l.pending = []) (hstep : step l = scanHostToken l)
    (hscan : scanHostToken l = .error e m) : Fails l e m := by
  have hfails := hstep.trans hscan
  simp only [scanHostToken, run_bind, run_get, ite_error, set_error, if_false_left] at hscan
  obtain ⟨_, _, hscan⟩ := hscan
  cases hmatch : Spelling.firstMatch Spelling.operators l.rest with
  | some op =>
    simp only [hmatch] at hscan
    exact scanOperator_fails hpending hmatch (hfails.trans hscan.symm) hscan
  | none => simp only [hmatch, set_error] at hscan

theorem scanToken_fails (hpending : l.pending = []) (hstep : step l = scanToken l)
    (hscan : scanToken l = .error e m) : Fails l e m := by
  have hfails := hstep.trans hscan
  simp only [scanToken, run_bind, run_get] at hscan
  cases hrest : l.rest with
  | nil => simp only [hrest, pure_error] at hscan
  | cons c after =>
    simp only [hrest, ite_error, set_error, if_false_left] at hscan
    obtain ⟨_, _, _, _, hscan⟩ := hscan
    cases hopening : StringLetters.opening? (c :: after) with
    | some opening =>
      simp only [hopening] at hscan
      obtain ⟨hstays, he⟩ := startString_error hscan
      exact fails_in_place hpending hfails hstays (by rw [he]; rfl) (by simp [he])
    | none =>
      cases hsearch : Lexeme.searchOpening? (c :: after) with
      | some opening =>
        simp only [hopening, hsearch] at hscan
        obtain ⟨hstays, he⟩ := scanSearch_error hscan
        exact fails_in_place hpending hfails hstays (by rw [he]; rfl) (by simp [he])
      | none =>
        simp only [hopening, hsearch, ite_error] at hscan
        split at hscan
        · exact scanCommandToken_fails hpending (hfails.trans hscan.symm) hscan
        · exact scanHostToken_fails hpending (hfails.trans hscan.symm) hscan

theorem step_of_outside (hrest : l.rest ≠ []) (houtside : l.Outside) : step l = scanToken l := by
  have hsome := List.isEmpty_eq_false_iff.mpr hrest
  obtain hmodes | ⟨depth, outer, hmodes⟩ := houtside <;>
  · simp only [step, run_bind, run_get, hsome, hmodes]
    rfl

theorem InStep.brace_of_field {modes : List LexMode} {brackets : BracketStack}
    {open_ : List Opening}
    (inStep : InStep (.fstringField brackets.length :: modes) brackets open_) :
    ∃ top outer, brackets = top :: outer ∧ top.closer = '\x7d' := by
  generalize hdepth : brackets.length = depth at inStep
  cases inStep with
  | @bracket _ bracket brackets _ inStep _ =>
    have hbelow := inStep.depth_le
    rw [List.length_cons] at hdepth
    omega
  | field => exact ⟨_, _, rfl, rfl⟩

theorem fails_of_step {open_ : List Opening} (hpending : l.pending = [])
    (inStep : InStep l.modes l.brackets open_) (hstep : step l = .error e m) : Fails l e m := by
  by_cases hrest : l.rest = []
  · exact goToNextLine_fails hpending hrest (step_of_rest_nil hrest ▸ hstep)
  · have hfails := hstep
    simp only [step, run_bind, run_get, List.isEmpty_eq_false_iff.mpr hrest] at hfails
    cases hmodes : l.modes with
    | nil =>
      have hscan := step_of_outside hrest (.inl hmodes)
      exact scanToken_fails hpending hscan (hscan ▸ hstep)
    | cons mode outer =>
      rw [hmodes] at hfails
      cases mode with
      | string quote text start line =>
        obtain ⟨hstays, he⟩ := resumeString_error hfails
        exact fails_in_place hpending hstep hstays (by rw [he]; rfl) (by simp [he])
      | fstringText quote text start => exact resumeText_fails hpending hrest hfails
      | fstringField depth =>
        have hscan := step_of_outside hrest (.inr ⟨depth, outer, hmodes⟩)
        exact scanToken_fails hpending hscan (hscan ▸ hstep)
      | fstringSpec text start =>
        rw [hmodes] at inStep
        obtain ⟨below, rfl, inStep⟩ := inStep.below_spec
        exact resumeSpec_fails hpending hrest inStep.brace_of_field hfails

/-! ### Failing calls -/

/-- A move of a lexer that has no token ready. -/
def Idles (l m : Lexer) : Prop :=
  l.pending = [] ∧ l.finished = false ∧ Moves l m

theorem step_of_work_error {fuel : Nat} (hbound : l.toCome < l.bound)
    (hwork : work fuel l = .error e m) :
    ∃ n, ReflTransGen Idles l n ∧ n.pending = [] ∧ n.finished = false ∧ n.toCome < n.bound ∧
      step n = .error e m := by
  -- every round but the last one is a move of a lexer that has no token ready
  induction fuel generalizing l with
  | zero => exact (pure_error.mp hwork).elim
  | succ fuel induction =>
    simp only [work, run_bind, run_get, ite_error, pure_error, if_false_right] at hwork
    obtain ⟨hidle, hwork⟩ := hwork
    rw [Bool.and_eq_true, List.isEmpty_iff, Bool.not_eq_true'] at hidle
    cases hstep : step l with
    | error e' n =>
      rw [hstep] at hwork
      obtain ⟨rfl, rfl⟩ := EStateM.Result.error.inj hwork
      exact ⟨l, .refl, hidle.1, hidle.2, hbound, hstep⟩
    | ok _ n =>
      rw [hstep] at hwork
      have first := moves_of_step hbound hstep
      have progress := first.progress hidle.2
      have hcome := progress.toCome
      have hsame := progress.bound
      obtain ⟨last, moves, hlast⟩ := induction (by omega) hwork
      exact ⟨last, .head ⟨hidle.1, hidle.2, first⟩ moves, hlast⟩

theorem step_of_pull_error (hbound : l.toCome < l.bound) (hpull : pull l = .error e m) :
    ∃ n, ReflTransGen Idles l n ∧ n.pending = [] ∧ n.finished = false ∧ n.toCome < n.bound ∧
      step n = .error e m := by
  refine step_of_work_error hbound (?_ : work l.bound l = .error e m)
  simp only [pull, run_bind, run_get] at hpull
  cases hwork : work l.bound l with
  | error e' n =>
    rw [hwork] at hpull
    obtain ⟨rfl, rfl⟩ := EStateM.Result.error.inj hpull
    rfl
  | ok _ n =>
    simp only [hwork] at hpull
    cases hpending : n.pending <;> simp [hpending, run_bind, run_set, run_pure] at hpull

theorem work_ready {fuel : Nat} (hpending : l.pending ≠ []) : work fuel l = .ok () l := by
  cases fuel with
  | zero => rfl
  | succ fuel => simp [work, run_bind, run_get, run_pure, hpending]

theorem pull_pending {token : Token} {pending : List Token}
    (hpending : l.pending = token :: pending) : pull l = .ok token { l with pending } := by
  have hwork : work l.bound l = .ok () l := work_ready (by simp [hpending])
  simp [pull, run_bind, run_get, hwork, hpending, run_set]

theorem pull_of_step_error (hpending : l.pending = []) (hworks : l.finished = false)
    (hbound : 0 < l.bound) (hstep : step l = .error e m) : pull l = .error e m := by
  obtain ⟨fuel, hfuel⟩ := Nat.exists_eq_succ_of_ne_zero (Nat.ne_of_gt hbound)
  have hwork : work l.bound l = .error e m := by
    rw [hfuel]
    simp [work, run_bind, run_get, hpending, hworks, hstep]
  simp [pull, run_bind, run_get, hwork]

theorem Idles.progress (idles : Idles l m) : Progress l m :=
  idles.2.2.progress idles.2.1

theorem toCome_of_idles (moves : ReflTransGen Idles l m) (hworks : m.finished = false) :
    l = m ∨ m.toCome < l.toCome := by
  induction moves using ReflTransGen.head_induction_on with
  | refl => exact .inl rfl
  | @head l n first _ induction =>
    have progress := first.progress
    have hcome := progress.toCome
    right
    obtain rfl | hless := induction
    · exact progress.reads.resolve_right (by simp [hworks])
    · omega

theorem leadsOn_of_step_error (hstep : step l = .error e m) : LeadsOn l m := by
  obtain ⟨hclose, _⟩ | strikes := step_strikes l (.empty l.here)
  · rw [hclose] at hstep
    cases hstep
  · rw [Strikes, hstep] at strikes
    obtain ⟨_, strokes⟩ := strikes
    exact leadsOn_of_strokes strokes

theorem step_of_pull_again (hbound : m.toCome < m.bound) (hagain : pull m = .error e m) :
    step m = .error e m := by
  obtain ⟨n, moves, _, hworks, _, hstep⟩ := step_of_pull_error hbound hagain
  have hcome := (leadsOn_of_step_error hstep).toCome
  obtain rfl | hless := toCome_of_idles moves hworks
  · exact hstep
  · omega

theorem room_of_pull_error (hbound : l.toCome < l.bound) (hpull : pull l = .error e m) :
    m.toCome < m.bound := by
  obtain ⟨n, _, _, _, hroom, hstep⟩ := step_of_pull_error hbound hpull
  have on := leadsOn_of_step_error hstep
  have hcome := on.toCome
  have hsame := on.bound
  omega

theorem Fails.kind_of_again (fails : Fails l e m) (hpending : m.pending = [])
    (hagain : step m = .error e m) : e.isIndentation = false ∧ e ≠ .undecodable := by
  cases fails with
  | again hkind hreadable => exact ⟨hkind, hreadable⟩
  | line unread he hrest hunread hm =>
    have hrest : m.rest = [] := by
      rw [hm]
      exact hrest
    cases goToNextLine_fails hpending hrest (step_of_rest_nil hrest ▸ hagain) with
    | again hkind hreadable => exact ⟨hkind, hreadable⟩
    | line more _ _ hmore hsame =>
      have hshorter := congrArg Lexer.unread hsame
      simp [hmore] at hshorter
    | indentation _ _ he' => cases he.symm.trans he'
    | sign _ _ _ _ hsome => cases hpending.symm.trans hsome
  | indentation line unread he hrest hunread hplace hcontent hm =>
    have hmodes : m.modes = [] := by
      rw [hm]
      exact hplace.1
    have hscan := step_of_outside hcontent (.inl hmodes)
    cases scanToken_fails hpending hscan (hscan ▸ hagain) with
    | again hkind hreadable => exact ⟨hkind, hreadable⟩
    | line _ _ hnone => exact absurd hnone hcontent
    | indentation _ _ _ hnone => exact absurd hnone hcontent
    | sign _ _ _ _ hsome => cases hpending.symm.trans hsome
  | sign _ _ _ _ hsome => cases hpending.symm.trans hsome

/-- What a call that fails in the state `l` with `e` means for the calls that follow; `m` is the
state that it leaves. -/
structure LeftBehind (l : Lexer) (e : LexError) (m : Lexer) : Prop where
  /-- Some moves lead from `l` to the step that fails. -/
  failing : ∃ n, ReflTransGen Idles l n ∧ Fails n e m
  /-- The next call, and so every one that follows, fails in the same way, unless a token has been
  found already or a line has been read. -/
  final : pull m = .error e m ↔
    m.pending = [] ∧ e.isIndentation = false ∧ e ≠ .undecodable
  /-- A token that has been found already is handed out. -/
  found : ∀ token pending, m.pending = token :: pending → pull m = .ok token { m with pending }

variable {source : Source} {tabSize : Nat} {tokens : List Token}

theorem foundInStep_of_idles {n : Lexer} {before : List Token} (moves : ReflTransGen Idles l n)
    (found : FoundInStep (before ++ l.pending) l) :
    ∃ before, FoundInStep (before ++ n.pending) n := by
  induction moves with
  | refl => exact ⟨before, found⟩
  | @tail k n _ last induction =>
    obtain ⟨before, found⟩ := induction
    obtain ⟨hpending, hworks, move⟩ := last
    exact ⟨_, foundInStep.move found hpending hworks move⟩

theorem Reaches.leftBehind (reached : Reaches source tabSize tokens l)
    (hpull : Lexer.pull l = .error e m) : LeftBehind l e m := by
  have hroom := room_of_pull_error reached.toCome_lt hpull
  obtain ⟨n, moves, hpending, hworks, _, hstep⟩ := step_of_pull_error reached.toCome_lt hpull
  obtain ⟨_, _, _, inStep, _⟩ := foundInStep_of_idles moves reached.foundInStep
  have fails := fails_of_step hpending inStep hstep
  refine ⟨⟨n, moves, fails⟩, ⟨fun hagain => ?_, ?_⟩, fun token pending => pull_pending⟩
  · have hnone : m.pending = [] := by
      cases hsome : m.pending with
      | nil => rfl
      | cons token pending =>
        rw [pull_pending hsome] at hagain
        cases hagain
    exact ⟨hnone, fails.kind_of_again hnone (step_of_pull_again hroom hagain)⟩
  · rintro ⟨hnone, hkind, hreadable⟩
    cases fails with
    | again _ _ _ hagain =>
      have hfinished := (leadsOn_of_step_error hstep).finished.trans hworks
      exact pull_of_step_error hnone hfinished (Nat.zero_lt_of_lt hroom) hagain
    | line _ he => exact absurd he hreadable
    | indentation _ _ he =>
      rw [he] at hkind
      cases hkind
    | sign _ _ _ _ hsome => cases hnone.symm.trans hsome

end Lexer

end ShellSyntax
