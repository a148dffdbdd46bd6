import Mathlib.Data.List.Sort
import ShellSyntax.Proofs.Language.ArgumentSplitting
import ShellSyntax.Proofs.Lexer.Signs
import ShellSyntax.Proofs.Macros.BlockBodies

/-!
The arguments of a macro call. The raw text in its parentheses is cut at the commas outside the
brackets and literals in it, and every piece that is not blank is an argument.
-/

namespace ShellSyntax

open Text
open Outcome

/-! ### Pieces of raw text -/

namespace RawText

/-- The text from `a` to `b`, cut at some places. The characters there are in no piece. -/
def piecesBetween (text : List Char) (a : Nat) : (cuts : List Nat) → (b : Nat) → List (List Char)
  | [], b => [(text.drop a).take (b - a)]
  | cut :: cuts, b => (text.drop a).take (cut - a) :: piecesBetween text (cut + 1) cuts b

/-- The raw text from `a` to the parenthesis at `b` that closes it. It is cut at all its commas. -/
structure CutsCall (text : List Char) (a : Nat) (cuts : List Nat) (b : Nat) : Prop where
  leaves : Leaves text a b []
  closer : text[b]? = some ')'
  increasing : cuts.Pairwise (· < ·)
  all : ∀ i, i ∈ cuts ↔ i < b ∧ IsCut text a i

/-- What is left of the pieces without the white space around them. -/
def solid (pieces : List (List Char)) : List (List Char) :=
  (pieces.map trim).filter fun piece => !piece.isEmpty

/-- The parenthesis that closes raw text and the commas in it are fixed by where it starts. -/
theorem CutsCall.unique {text : List Char} {a b b' : Nat} {cuts cuts' : List Nat}
    (call : CutsCall text a cuts b) (other : CutsCall text a cuts' b') : b = b' ∧ cuts = cuts' := by
  have ends {b : Nat} {next : Nat × List Opener} (hcloser : text[b]? = some ')') :
      ¬Follows text (b, []) next := by
    intro step
    cases step with
    | literal hopening => exact absurd (not_bracket_of_opening? hopening hcloser).2 (by decide)
    | opener hchar hopener =>
      cases Option.some.inj (hcloser.symm.trans hchar)
      cases hopener
    | char hchar _ _ hother =>
      cases Option.some.inj (hcloser.symm.trans hchar)
      cases hother
  obtain rfl : b = b' := by
    obtain steps | steps := Relation.ReflTransGen.total_of_right_unique Follows.unique
      (leaves_iff.mp call.leaves) (leaves_iff.mp other.leaves)
    · obtain hsame | ⟨_, step, _⟩ := steps.cases_head
      · exact (Prod.mk.inj hsame).1
      · exact absurd step (ends call.closer)
    · obtain hsame | ⟨_, step, _⟩ := steps.cases_head
      · exact (Prod.mk.inj hsame).1.symm
      · exact absurd step (ends other.closer)
  exact ⟨rfl, call.increasing.eq_of_mem_iff other.increasing fun i =>
    (call.all i).trans (other.all i).symm⟩

theorem solid_cons (piece : List Char) (pieces : List (List Char)) :
    solid (piece :: pieces) = solid [piece] ++ solid pieces :=
  List.filter_append (p := fun piece : List Char => !piece.isEmpty) [trim piece] (pieces.map trim)

end RawText

/-! ### Captured pieces -/

variable {text : List Char}

theorem BlankBetween.all_slice {p q : Position} (blank : BlankBetween text p q) :
    ∀ c ∈ slice text p q, isBlank c = true := by
  intro c hc
  obtain ⟨k, hk⟩ := List.mem_iff_getElem?.mp hc
  rw [slice, List.getElem?_take, List.getElem?_drop] at hk
  split at hk
  case isTrue hlt =>
    obtain ⟨d, hd, hblank⟩ := blank (offset text p + k) (Nat.le_add_right _ _) (by omega)
    rw [Option.some.inj (hk.symm.trans hd)]
    exact hblank
  case isFalse => cases hk

/-- What is captured from `p` to `q` is the text between them without the white space around it. -/
theorem Captured.solid {place p q : Position} {raw : RawText}
    (captured : Captured text place p q raw) (hp : OnLine text p) (line : String) :
    (if raw.isBlank then [] else [raw.toToken line]).map (·.text.toList) =
      RawText.solid [slice text p q] := by
  cases captured with
  | blank hforward blank =>
    simp [RawText.solid, trim_of_blank blank.all_slice, RawText.isBlank, RawText.empty]
  | @text _ start _ horigin hstart hstop hforward hstartLine hstopLine htext hgap hbefore hafter
      htight =>
    have hsplit : slice text p q =
        slice text p start ++ (raw.text.toList ++ slice text raw.stop q) := by
      rw [htext, slice_append (offset_mono hstartLine hstop) (offset_mono hstopLine hforward),
        slice_append (offset_mono hp hstart)
          (offset_mono hstartLine (Position.le_trans hstop hforward))]
    have htrim : trim (slice text p q) = raw.text.toList :=
      hsplit ▸ trim_eq htight hbefore.all_slice hafter.all_slice
    simp [RawText.solid, htrim, RawText.isBlank, horigin, RawText.toToken, htight.ne_nil]

namespace Lexer

variable {l l' : Lexer} {place p : Position} {raw : RawText} {a : Nat}

/-- The arguments that are captured from `l` to `l'`, the first of which starts at `p`. -/
structure CutsOn (text : List Char) (a : Nat) (p : Position) (l l' : Lexer) (cuts : List Nat)
    (params : List Token) : Prop where
  leaves : RawText.Leaves text a (offset text l'.here) []
  closer : text[offset text l'.here]? = some ')'
  rest : ∃ after, l'.rest = ')' :: after
  forward : offset text p ≤ offset text l'.here
  increasing : cuts.Pairwise (· < ·)
  all : ∀ i, i ∈ cuts ↔ offset text p ≤ i ∧ i < offset text l'.here ∧ RawText.IsCut text a i
  pending : l'.pending = l.pending ++ params
  kinds : ∀ param ∈ params, param.kind = .macroParam
  texts : params.map (·.text.toList) =
    RawText.solid (RawText.piecesBetween text (offset text p) cuts (offset text l'.here))

theorem Arguments.cutsOn {floor : BracketStack} (moves : Arguments floor l raw l')
    (scans : Scans text place p raw l) (hp : OnLine text p) {inner : BracketStack}
    (hbrackets : l.brackets = inner ++ floor)
    (leaves : RawText.Leaves text a (offset text l.here) (inner.map Bracket.opener))
    (uncut : RawText.Uncut text a (offset text p) (offset text l.here)) :
    ∃ cuts params, CutsOn text a p l l' cuts params := by
  induction moves generalizing place p inner with
  | @last l m raw captured rest hcapture hfloor hrest =>
    obtain ⟨scans', ⟨inner', hinner, leaves'⟩, huncut⟩ := hcapture.scans scans hbrackets leaves
    obtain rfl : inner' = [] := by
      rw [hfloor] at hinner
      exact List.self_eq_append_left.mp hinner
    have hhere : ({ m.pushCaptured captured with lastSignificant := some .macroParam } : Lexer).here
        = m.here := pushCaptured_here m captured
    have hnone := uncut.trans (huncut rfl)
    refine ⟨[], if captured.isBlank then [] else [captured.toToken m.lineText], ?_⟩
    constructor
    · rwa [hhere]
    · rw [hhere]
      exact getElem?_here scans'.cursor scans'.placed hrest
    · exact ⟨rest, by simpa using hrest⟩
    · rw [hhere]
      exact offset_mono hp scans'.captured.forward
    · exact .nil
    · rw [hhere]
      intro i
      simp only [List.not_mem_nil, false_iff]
      rintro ⟨hle, hlt, hcut⟩
      exact hnone i hle hlt hcut
    · simp [hcapture.readsOn.pending]
    · intro param hparam
      split at hparam
      · cases hparam
      · rw [List.mem_singleton.mp hparam]
        rfl
    · rw [hhere]
      exact scans'.captured.solid hp m.lineText
  | @more l m l' raw captured rest hcapture hfloor hrest next induction =>
    obtain ⟨scans', ⟨inner', hinner, leaves'⟩, huncut⟩ := hcapture.scans scans hbrackets leaves
    obtain rfl : inner' = [] := by
      rw [hfloor] at hinner
      exact List.self_eq_append_left.mp hinner
    have hnone := uncut.trans (huncut rfl)
    have hcut : RawText.IsCut text a (offset text m.here) :=
      ⟨getElem?_here scans'.cursor scans'.placed hrest, leaves'⟩
    obtain ⟨scansNext, leavesNext⟩ := scans'.nextArgument hrest leaves'
    have hplace : offset text (m.advance 1).here = offset text m.here + 1 := offset_advance text m 1
    have hnext : offset text ((m.pushCaptured captured).advance 1).here = offset text m.here + 1 := by
      rw [offset_advance, pushCaptured_here]
    have hfresh : RawText.Uncut text a (offset text (m.advance 1).here)
        (offset text ((m.pushCaptured captured).advance 1).here) := by
      rw [hplace, hnext]
      exact .self
    obtain ⟨cuts, params, cutsOn⟩ := induction scansNext
      (onLine_forward scans'.placed (by simp [hrest])) (by simp [advance, hfloor]) leavesNext hfresh
    have hbehind := offset_mono hp scans'.captured.forward
    have hlater := cutsOn.forward
    rw [hplace] at hlater
    refine ⟨offset text m.here :: cuts,
      (if captured.isBlank then [] else [captured.toToken m.lineText]) ++ params, cutsOn.leaves,
      cutsOn.closer, cutsOn.rest, by omega, ?_, ?_, ?_, ?_, ?_⟩
    · refine .cons (fun i hi => ?_) cutsOn.increasing
      have hle := ((cutsOn.all i).mp hi).1
      omega
    · intro i
      rw [List.mem_cons, cutsOn.all, hplace]
      constructor
      · rintro (rfl | ⟨hle, hlt, hother⟩)
        · exact ⟨hbehind, hlater, hcut⟩
        · exact ⟨by omega, hlt, hother⟩
      · rintro ⟨hle, hlt, hother⟩
        by_cases hbefore : i < offset text m.here
        · exact absurd hother (hnone i hle hbefore)
        · by_cases hsame : i = offset text m.here
          · exact .inl hsame
          · exact .inr ⟨by omega, hlt, hother⟩
    · rw [cutsOn.pending]
      simp [advance, hcapture.readsOn.pending]
    · intro param hparam
      obtain hparam | hparam := List.mem_append.mp hparam
      · split at hparam
        · cases hparam
        · rw [List.mem_singleton.mp hparam]
          rfl
      · exact cutsOn.kinds param hparam
    · rw [List.map_append, scans'.captured.solid hp m.lineText, cutsOn.texts, hplace]
      exact (RawText.solid_cons _ _).symm

end Lexer

/-! ### Arguments as the parser meets them -/

namespace TokenStream

variable {source : Source} {tabSize i : Nat} {origin : Option Origin} {found kept : List Token}
  {token other : Token} {l : Lexer}

theorem significant_append (hkept : ∀ token ∈ kept, ∀ last, isDropped last token = false) :
    significant (found ++ kept) = significant found ++ kept := by
  induction kept generalizing found with
  | nil => simp
  | cons first kept induction =>
    obtain ⟨hfirst, hrest⟩ := List.forall_mem_cons.mp hkept
    rw [List.append_cons, induction hrest, significant_concat, hfirst, if_neg Bool.false_ne_true,
      List.append_assoc, List.singleton_append]

theorem supply_of_passes (hsupply : (ofLexer (.ofSource source tabSize) origin).supply i = .ok token)
    (passed : Lexer.Passes source tabSize found l) (hfound : (significant found)[i]? = some other) :
    token = other := by
  obtain ⟨t, hfilled, htoken⟩ := supplied hsupply
  obtain ⟨handedOut, reached, htokens⟩ := (holds_filled hfilled).read
  rw [← Array.getElem?_toList, htokens] at htoken
  have grows {first all : List Token} (hfirst : first <+: all) {shown : Token}
      (hshown : (significant first)[i]? = some shown) : (significant all)[i]? = some shown := by
    obtain ⟨rest, hrest⟩ := significant_mono hfirst
    rw [← hrest]
    exact List.getElem?_append_left (List.getElem?_eq_some_iff.mp hshown).1 |>.trans hshown
  have hlonger := grows (List.prefix_append _ t.lexer.pending) htoken
  obtain hless | hmore := (Lexer.Passes.of_reaches reached).comparable passed
  · exact Option.some.inj ((grows hless hlonger).symm.trans hfound)
  · exact Option.some.inj (hlonger.symm.trans (grows hmore hfound))

end TokenStream

namespace Language

open Matcher

variable {W : World} {i j : Nat}

theorem many_params {params : List Token}
    (h : Finds W (many (ofKind .macroParam)) i params j) :
    j = i + params.length ∧
      (∀ k param, params[k]? = some param →
        W.token (i + k) = .ok param ∧ param.kind = .macroParam) ∧
      ∀ t, W.token j = .ok t → t.kind ≠ .macroParam := by
  let holds (params : List Token) (j : Nat) : Prop :=
    j = i + params.length ∧ ∀ k param, params[k]? = some param →
      W.token (i + k) = .ok param ∧ param.kind = .macroParam
  have hloop := World.Reads.loop
    (Q := fun params j => holds params j ∧ ∀ t, W.token j = .ok t → t.kind ≠ .macroParam) h holds
    ⟨rfl, nofun⟩ fun params j hparams outcome l hbody => ?_
  · exact ⟨hloop.1.1, hloop.1.2, hloop.2⟩
  obtain ⟨hj, hall⟩ := hparams
  rcases hbody.mark.ofKind with ⟨t, ht, hkind, hbody⟩ | ⟨hother, hbody⟩
  · have hnext : holds (params ++ [t]) (j + 1) := by
      refine ⟨by rw [List.length_append, List.length_singleton, hj]; rfl, fun k param hk => ?_⟩
      rw [List.getElem?_append, List.getElem?_singleton] at hk
      split at hk
      case isTrue => exact hall k param hk
      case isFalse hbehind =>
        split at hk
        case isTrue hlast =>
          obtain rfl := Option.some.inj hk
          obtain rfl : i + k = j := by omega
          exact ⟨ht, hkind⟩
        case isFalse => cases hk
    have hread := hbody.mark
    rw [if_pos (Nat.lt_succ_self j)] at hread
    cases hread
    exact hnext
  · cases hbody.reset
    exact ⟨⟨hj, hall⟩, hother⟩

theorem params_unique {params others : List Token} {closer : Token}
    (hparams : ∀ param ∈ params, param.kind = .macroParam) (hcloser : closer.kind = .op)
    (hsame : ∀ k t expected, W.token (i + k) = .ok t →
      (params ++ [closer])[k]? = some expected → t = expected)
    (hothers : ∀ k param, others[k]? = some param →
      W.token (i + k) = .ok param ∧ param.kind = .macroParam)
    (hclose : W.Spells (i + others.length) ")") : others = params := by
  have agree {k : Nat} (hk : k < params.length) (hk' : k < others.length) :
      others[k] = params[k] := by
    refine hsame k _ _ (hothers k _ (List.getElem?_eq_getElem hk')).1 ?_
    rw [List.getElem?_append_left hk, List.getElem?_eq_getElem hk]
  have hlength : others.length = params.length := by
    obtain hless | hsame' | hmore := Nat.lt_trichotomy others.length params.length
    · obtain ⟨t, ht, hkind, _⟩ := hclose
      obtain rfl : t = params[others.length] := hsame _ _ _ ht (by
        rw [List.getElem?_append_left hless, List.getElem?_eq_getElem hless])
      rw [hparams _ (List.getElem_mem hless)] at hkind
      simp at hkind
    · exact hsame'
    · obtain ⟨ht, hkind⟩ := hothers _ _ (List.getElem?_eq_getElem hmore)
      rw [hsame _ _ closer ht (by simp), hcloser] at hkind
      cases hkind
  exact List.ext_getElem hlength fun k hk hk' => agree hk' hk

theorem token_of_accepts {α : Type} {sign : String} {f : Bool → Match α} {a : α}
    (h : Finds W (accepts sign >>= f) i a j) : ∃ t, W.token i = .ok t := by
  obtain ⟨_, _, haccepts, _⟩ := h.bind
  obtain ⟨_, _, hspelled, _⟩ := haccepts.bind
  unfold spelled at hspelled
  obtain ⟨t, ht, _⟩ := hspelled.peek
  exact ⟨t, ht⟩

theorem trailer_call {start : Nat} {value e : Expr} {opening : Token}
    (ht : W.token i = .ok opening) (hop : opening.isOp "!(" = true)
    (h : Finds W (trailer start value) i (some e) j) :
    ∃ params : List Token, opening.start = value.span.stop ∧
      (∀ k param, params[k]? = some param →
        W.token (i + 1 + k) = .ok param ∧ param.kind = .macroParam) ∧
      W.Spells (i + 1 + params.length) ")" ∧ j = i + params.length + 2 ∧
      e.form = .macroCall value (params.map (·.text)) := by
  have hspelled {text : String} (hspells : W.Spells i text) : text = "!(" := by
    obtain ⟨t, ht', _, rfl⟩ := hspells
    obtain rfl : opening = t := Except.ok.inj (ht.symm.trans ht')
    simp only [Token.isOp, Bool.and_eq_true, beq_iff_eq] at hop
    exact hop.2
  rcases (attempt_some h).accepts with ⟨hdot, _⟩ | hother
  · exact absurd (hspelled hdot) (by decide)
  rw [if_neg Bool.false_ne_true] at hother
  obtain ⟨argument, k, hargument, hrest⟩ := hother.bind
  cases argument with
  | some argument => exact absurd (hspelled (attempt_some hargument).expects.1) (by decide)
  | none =>
  obtain rfl := attempt_none hargument
  rcases hrest.accepts with ⟨hparen, _⟩ | hrest
  · exact absurd (hspelled hparen) (by decide)
  rw [if_neg Bool.false_ne_true] at hrest
  rcases hrest.accepts with ⟨hsquare, _⟩ | hrest
  · exact absurd (hspelled hsquare) (by decide)
  rw [if_neg Bool.false_ne_true] at hrest
  rcases hrest.spelled with ⟨t, ht', _, _, hrest⟩ | hrest
  · obtain rfl : opening = t := Except.ok.inj (ht.symm.trans ht')
    dsimp only at hrest
    split at hrest
    case isTrue => cases hrest
    case isFalse hplace =>
      obtain ⟨params, l, hparams, hrest⟩ := hrest.bind
      obtain ⟨rfl, hall, _⟩ := many_params hparams
      obtain ⟨hclose, hrest⟩ := hrest.expects
      obtain ⟨hform, rfl⟩ := node_form hrest
      exact ⟨params, by simpa using hplace, hall, hclose, by omega, hform⟩
  · obtain ⟨detailed, l, hdetailed, hrest⟩ := hrest.bind
    rcases hdetailed.accepts with ⟨hmark, _⟩ | hdetailed
    · exact absurd (hspelled hmark) (by decide)
    rcases hdetailed.accepts with ⟨hmark, _⟩ | hdetailed
    · exact absurd (hspelled hmark) (by decide)
    cases hdetailed
    cases hrest

end Language

namespace Lexer

variable {text : List Char} {l l' : Lexer} {after : List Char}

theorem step_call (houtside : l.Outside) (hrest : l.rest = '!' :: '(' :: after)
    (hcall : l.followsCallable = true) :
    step l = captureCall ((l.pushBracket ⟨.bangParen, .raw, l.here⟩).take .op 2) := by
  rw [step_bang houtside hrest]
  change scanOpener "!(" .bangParen l = _
  rw [scanOpener, run_bind, run_get]
  dsimp only
  rw [if_pos ⟨rfl, hcall⟩, run_bind, run_set]
  rfl

theorem step_closes {top : Bracket} {brackets : BracketStack} (houtside : l.Outside)
    (hhost : l.brackets.inCommand = false) (htop : l.brackets = top :: brackets)
    (hcloser : top.closer = ')') (hrest : l.rest = ')' :: after) :
    ∃ m, step l = .ok () m ∧ m.pending =
      l.pending ++ [⟨.op, ")", l.here, ⟨l.lineNumber, l.column + 1⟩, l.lineText⟩] := by
  rw [step_closer houtside hhost hrest, scanCloser, run_bind, run_get]
  dsimp only
  rw [run_bind, closeBracket, run_bind, run_get]
  dsimp only
  rw [htop, BracketStack.close, if_pos hcloser]
  refine ⟨_, rfl, ?_⟩
  simp [hrest, here]

/-- A call captures its arguments, up to the parenthesis that closes it, which is a token too. -/
theorem Passes.call {tabSize : Nat} {found : List Token}
    (passed : Passes (.ofText text) tabSize found l) (hpending : l.pending = [])
    (houtside : l.Outside) (hcall : l.followsCallable = true)
    (hrest : l.rest = '!' :: '(' :: after) (hstep : Lexer.step l = .ok () l') :
    ∃ cuts params closer m, l'.pending =
        ⟨.op, "!(", l.here, ⟨l.lineNumber, l.column + 2⟩, l.lineText⟩ :: params ∧
      (∀ param ∈ params, param.kind = .macroParam) ∧
      RawText.CutsCall text (offset text l.here + 2) cuts (offset text l'.here) ∧
      params.map (·.text.toList) = RawText.solid
        (RawText.piecesBetween text (offset text l.here + 2) cuts (offset text l'.here)) ∧
      Passes (.ofText text) tabSize (found ++ (l'.pending ++ [closer])) m ∧ closer.kind = .op := by
  have called := (passed.step hpending (passed.working (by simp [hrest])) hstep).emptied
  have hsome : l.rest ≠ [] := by simp [hrest]
  have htwo : 2 ≤ l.rest.length := by simp [hrest]
  have placed := passed.placed houtside hsome
  have cursor := passed.cursor (passed.working hsome)
  rw [step_call houtside hrest hcall] at hstep
  generalize hm : (l.pushBracket ⟨.bangParen, .raw, l.here⟩).take .op 2 = m at hstep
  have hbound : m.toCome < m.bound := by
    have htake := toCome_take_le (l.pushBracket ⟨.bangParen, .raw, l.here⟩) .op 2
    have hsame : m.bound = l.bound := by simp [← hm, pushBracket]
    rw [hm] at htake
    exact hsame ▸ Nat.lt_of_le_of_lt htake passed.toCome_lt
  have hbrackets : m.brackets = ⟨.bangParen, .raw, l.here⟩ :: l.brackets := by
    simp [← hm, pushBracket]
  have hcloser : ∀ top ∈ m.brackets.head?, top.closer = ')' := by
    rw [hbrackets]
    rintro _ ⟨⟩
    rfl
  have hhere : m.here = ⟨l.lineNumber, l.column + 2⟩ := by simp [← hm, here, pushBracket]
  have hbehind : offset text m.here = offset text l.here + 2 := hhere ▸ here_forward text l 2
  have scans : Scans text m.here m.here (.empty m.here) m := by
    refine ⟨?_, ?_, .blank (Position.le_refl _) (.self _)⟩
    · exact cursor.congr (by simp [← hm, pushBracket]) (by simp [← hm, pushBracket])
        (by simpa [← hm, pushBracket] using List.drop_suffix 2 l.rest)
    · exact placed.congr 2 (by simp [← hm, pushBracket]) (by simp [← hm, pushBracket])
        (by simp [← hm, pushBracket]) htwo
  have moves := captureCall_moves hbound hcloser hstep
  obtain ⟨cuts, params, cutsOn⟩ := moves.cutsOn scans (onLine_here scans.placed)
    (List.nil_append _).symm .start .self
  obtain ⟨_, hmodes, _, _, hfinished, _, hfloor, _⟩ := moves.progress
  -- the call is left as it was entered, but for its bracket
  have hsame : m.modes = l.modes ∧ m.finished = l.finished := by simp [← hm, pushBracket]
  have hbrackets' : l'.brackets = ⟨.bangParen, .raw, l.here⟩ :: l.brackets :=
    hfloor.trans hbrackets
  have hhost : l'.brackets.inCommand = false := by
    rw [hbrackets']
    rfl
  obtain ⟨rest, hclose⟩ := cutsOn.rest
  obtain ⟨n, hstep', hn⟩ := step_closes (l := { l' with pending := [] })
    (by simpa [Outside, hmodes, hsame.1] using houtside) hhost hbrackets' rfl hclose
  have closed := called.step rfl (hfinished.trans (hsame.2.trans (passed.working hsome))) hstep'
  rw [hn, List.nil_append, List.append_assoc] at closed
  refine ⟨cuts, params, _, n, ?_, cutsOn.kinds, ?_, ?_, closed, rfl⟩
  · rw [cutsOn.pending]
    simp [← hm, pushBracket, hrest, here, hpending]
  · rw [← hbehind]
    refine ⟨cutsOn.leaves, cutsOn.closer, cutsOn.increasing, fun i => (cutsOn.all i).trans ?_⟩
    exact ⟨fun h => h.2, fun h => ⟨h.2.2.le, h⟩⟩
  · rw [← hbehind]
    exact cutsOn.texts

end Lexer

namespace Program

open ShellSyntax.Language RawText

/-- A macro call is cut at the commas outside the brackets and literals in it, and what is not blank
between them is captured, without the white space around it. The parser hands just that to the
call. -/
theorem call_takes_solid_pieces (text : List Char) (origin : Option Origin)
    (options : ParseOptions) (diagnosing : Bool) {found : List Token} {l l' : Lexer}
    {after : List Char} (passed : Lexer.Passes (.ofText text) options.tabSize found l)
    (hpending : l.pending = []) (houtside : l.Outside) (hcall : l.followsCallable = true)
    (hrest : l.rest = '!' :: '(' :: after) (hstep : Lexer.step l = .ok () l') :
    (∃ cuts b, CutsCall text (offset text l.here + 2) cuts b) ∧
    ∃ params, l'.pending =
        ⟨.op, "!(", l.here, ⟨l.lineNumber, l.column + 2⟩, l.lineText⟩ :: params ∧
      (∀ param ∈ params, param.kind = .macroParam) ∧
      (∀ cuts b, CutsCall text (offset text l.here + 2) cuts b →
        offset text l'.here = b ∧ params.map (·.text.toList) =
          solid (piecesBetween text (offset text l.here + 2) cuts b)) ∧
      ∀ start value e j, let W := (pass (.ofText text) origin options diagnosing).world
        Finds W (trailer start value) (significant found).length (some e) j →
          e.form = .macroCall value (params.map (·.text)) := by
  obtain ⟨cuts, params, closer, m, hnew, hkinds, hcuts, htexts, closed, hcloser⟩ :=
    passed.call hpending houtside hcall hrest hstep
  refine ⟨⟨cuts, _, hcuts⟩, params, hnew, hkinds, ?_, ?_⟩
  · rintro others b hother
    obtain ⟨rfl, rfl⟩ := hcuts.unique hother
    exact ⟨rfl, htexts⟩
  intro start value e j W h
  have hkept : ∀ token ∈ l'.pending ++ [closer], ∀ last,
      TokenStream.isDropped last token = false := by
    rw [hnew]
    intro token htoken last
    have hkind : token.kind = .op ∨ token.kind = .macroParam := by
      obtain hcall | hlast := List.mem_append.mp htoken
      · obtain rfl | hparam := List.mem_cons.mp hcall
        · exact .inl rfl
        · exact .inr (hkinds token hparam)
      · exact .inl (List.mem_singleton.mp hlast ▸ hcloser)
    obtain hkind | hkind := hkind <;> simp [TokenStream.isDropped, hkind]
  -- what the parser meets from the opener on is what the lexer finds there
  have meets {k : Nat} {t expected : Token} (ht : W.token ((significant found).length + k) = .ok t)
      (hk : (l'.pending ++ [closer])[k]? = some expected) : t = expected := by
    have hsupply : (TokenStream.ofLexer (.ofSource (.ofText text) options.tabSize) origin).supply
        ((significant found).length + k) = .ok t := ht
    refine TokenStream.supply_of_passes hsupply closed ?_
    rw [TokenStream.significant_append hkept, List.getElem?_append_right (Nat.le_add_right _ _),
      Nat.add_sub_cancel_left]
    exact hk
  obtain ⟨opening, ht⟩ := token_of_accepts (attempt_some h)
  have hopening := meets (k := 0) ht (by rw [hnew]; rfl)
  have hop : opening.isOp "!(" = true := by
    rw [hopening]
    rfl
  obtain ⟨others, _, hothers, hclose, _, hform⟩ := trailer_call ht hop h
  obtain rfl := params_unique hkinds hcloser (fun k t expected ht' hk => by
    rw [Nat.add_assoc] at ht'
    refine meets ht' ?_
    rwa [hnew, List.cons_append, Nat.add_comm 1 k, List.getElem?_cons_succ]) hothers hclose
  exact hform

/-- Neither brackets nor literals are cut, and the blank last piece is no argument. -/
theorem call_takes_solid_pieces_nested :
    let text := "m!( (a, b) , \",)\", )".toList
    ∃ found l l', Lexer.Passes (.ofText text) 8 found l ∧ Lexer.step l = .ok () l' ∧
      (l'.pending.drop 1).map (·.text) = ["(a, b)", "\",)\""] ∧
      ∀ start value e j, let W := (pass (.ofText text) none .default false).world
        Finds W (trailer start value) (significant found).length (some e) j →
          e.form = .macroCall value ["(a, b)", "\",)\""] := by
  intro text
  obtain ⟨found, l, passed, hl⟩ := Lexer.Passes.of_run (.ofText text) 8 1
    (fun _ l => l.pending = [] ∧ l.modes = [] ∧ l.followsCallable = true ∧
      l.rest = "!( (a, b) , \",)\", )".toList ∧
      value? (Lexer.step l) = some () ∧
      ((final (Lexer.step l)).pending.drop 1).map (·.text) = ["(a, b)", "\",)\""])
    (by decide +kernel)
  obtain ⟨hpending, hmodes, hcall, hrest, hvalue, hnew⟩ := of_decide_eq_true hl
  rw [hpending, List.append_nil] at passed
  have hstep := eq_ok_of_value? _ hvalue
  obtain ⟨_, params, hparams, _, _, parses⟩ := call_takes_solid_pieces text none .default false
    passed hpending (.inl hmodes) hcall hrest hstep
  refine ⟨found, l, _, passed, hstep, hnew, ?_⟩
  rw [hparams, List.drop_succ_cons, List.drop_zero] at hnew
  exact hnew ▸ parses

/-- A blank piece is no argument wherever it stands, not only behind the last comma. -/
theorem blank_piece_between_arguments :
    ¬ ∀ (text : List Char) (tabSize : Nat) (found : List Token) (l l' : Lexer) (after : List Char)
      (cuts : List Nat) (b : Nat),
      Lexer.Passes (.ofText text) tabSize found l → l.pending = [] → l.Outside →
      l.followsCallable = true → l.rest = '!' :: '(' :: after → Lexer.step l = .ok () l' →
      CutsCall text (offset text l.here + 2) cuts b →
      let pieces := (piecesBetween text (offset text l.here + 2) cuts b).map trim
      (l'.pending.drop 1).map (·.text.toList) =
        if pieces.getLast? = some [] then pieces.dropLast else pieces := by
  intro claimed
  let text := "m!(a,,b)\n".toList
  obtain ⟨found, l, passed, hl⟩ := Lexer.Passes.of_run (.ofText text) 8 1
    (fun _ l => l.pending = [] ∧ l.modes = [] ∧ l.followsCallable = true ∧
      l.rest = "!(a,,b)\n".toList ∧ offset text l.here = 1 ∧
      value? (Lexer.step l) = some () ∧
      ((final (Lexer.step l)).pending.drop 1).map (·.text.toList) = [['a'], ['b']])
    (by decide +kernel)
  obtain ⟨hpending, hmodes, hcall, hrest, hplace, hvalue, hnew⟩ := of_decide_eq_true hl
  rw [hpending, List.append_nil] at passed
  have leaves₄ : Leaves text 3 4 [] := .char .start (c := 'a') rfl rfl rfl rfl
  have leaves₅ : Leaves text 3 5 [] := .char leaves₄ (c := ',') rfl rfl rfl rfl
  have leaves₇ : Leaves text 3 7 [] :=
    .char (.char leaves₅ (c := ',') rfl rfl rfl rfl) (c := 'b') rfl rfl rfl rfl
  have cuts : CutsCall text (offset text l.here + 2) [4, 5] 7 := by
    rw [hplace]
    refine ⟨leaves₇, rfl, by decide, fun i => ⟨?_, ?_⟩⟩
    · intro hi
      obtain rfl | rfl : i = 4 ∨ i = 5 := by simpa using hi
      · exact ⟨by decide, rfl, leaves₄⟩
      · exact ⟨by decide, rfl, leaves₅⟩
    · rintro ⟨hi, hcomma, _⟩
      have hall : ∀ i < 7, text[i]? = some ',' → i ∈ [4, 5] := by decide
      exact hall i hi hcomma
  have hclaimed := claimed text 8 found l _ _ [4, 5] 7 passed hpending (.inl hmodes) hcall hrest
    (eq_ok_of_value? _ hvalue) cuts
  rw [hnew, hplace] at hclaimed
  exact absurd hclaimed (by decide)

end Program

end ShellSyntax
