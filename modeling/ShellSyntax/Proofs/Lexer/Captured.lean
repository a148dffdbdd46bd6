import ShellSyntax.Proofs.Lexer.Cursor
import ShellSyntax.Proofs.Lexer.RawReading
import ShellSyntax.Proofs.Text.Slice

/-! Captured raw text is the text it was captured from, without the white space around it. -/

namespace ShellSyntax

open Text Lexer

variable {text : List Char}

/-- Nothing but white space from `p` to `q`. -/
def BlankBetween (text : List Char) (p q : Position) : Prop :=
  ∀ i, offset text p ≤ i → i < offset text q → IsBlankAt text i

theorem BlankBetween.self (p : Position) : BlankBetween text p p := by
  intro i hle hlt
  omega

theorem BlankBetween.trans {p q r : Position} (first : BlankBetween text p q)
    (second : BlankBetween text q r) : BlankBetween text p r := by
  intro i hle hlt
  by_cases hbefore : i < offset text q
  · exact first i hle hbefore
  · exact second i (Nat.le_of_not_lt hbefore) hlt

/-- The raw text captured between two places; `place` is where it stands as long as it is empty. -/
inductive Captured (text : List Char) (place p q : Position) : RawText → Prop
  | blank (hforward : p ≤ q) (hblank : BlankBetween text p q) :
      Captured text place p q (.empty place)
  | text {raw : RawText} {start : Position} {line : String}
      (horigin : raw.origin = some (start, line)) (hstart : p ≤ start) (hstop : start ≤ raw.stop)
      (hforward : raw.stop ≤ q) (hstartLine : OnLine text start) (hstopLine : OnLine text raw.stop)
      (htext : raw.text.toList = slice text start raw.stop)
      (hgap : raw.gap.toList = slice text raw.stop q) (hbefore : BlankBetween text p start)
      (hafter : BlankBetween text raw.stop q) (htight : Tight raw.text.toList) :
      Captured text place p q raw

namespace Captured

variable {place p q r : Position} {raw : RawText}

theorem forward (captured : Captured text place p q raw) : p ≤ q := by
  cases captured with
  | blank hforward => exact hforward
  | text _ hstart hstop hforward =>
    exact Position.le_trans hstart (Position.le_trans hstop hforward)

theorem move (captured : Captured text place p q raw) (hforward : q ≤ r)
    (hsame : offset text r = offset text q) : Captured text place p r raw := by
  have hblank {s : Position} (blank : BlankBetween text s q) : BlankBetween text s r := by
    intro i hle hlt
    exact blank i hle (hsame ▸ hlt)
  cases captured with
  | blank hpq blank => exact .blank (Position.le_trans hpq hforward) (hblank blank)
  | text horigin hstart hstop hstopq hstartLine hstopLine htext hgap hbefore hafter htight =>
    refine .text horigin hstart hstop (Position.le_trans hstopq hforward) hstartLine hstopLine
      htext ?_ hbefore (hblank hafter) htight
    rw [hgap]
    exact slice_congr rfl hsame.symm

theorem getElem?_of_slice {c : Char} {column line : Nat}
    (hchar : slice text ⟨line, column⟩ ⟨line, column + 1⟩ = [c]) :
    text[offset text ⟨line, column⟩]? = some c := by
  rw [slice, offset_forward, Nat.add_sub_cancel_left] at hchar
  have hhead := congrArg List.head? hchar
  simpa [List.head?_take, List.head?_drop] using hhead

theorem push {c : Char} {line column : Nat} {lineText : String}
    (captured : Captured text place p ⟨line, column⟩ raw) (hhere : OnLine text ⟨line, column⟩)
    (hnext : OnLine text ⟨line, column + 1⟩)
    (hchar : slice text ⟨line, column⟩ ⟨line, column + 1⟩ = [c]) :
    Captured text place p ⟨line, column + 1⟩ (raw.push c ⟨line, column⟩ lineText) := by
  have hstep : (⟨line, column⟩ : Position) ≤ ⟨line, column + 1⟩ :=
    .inr ⟨rfl, Nat.le_succ column⟩
  have hone (hblank : isBlank c = true) : BlankBetween text ⟨line, column⟩ ⟨line, column + 1⟩ := by
    intro i hle hlt
    rw [offset_forward] at hlt
    obtain rfl : i = offset text ⟨line, column⟩ := by omega
    exact ⟨c, getElem?_of_slice hchar, hblank⟩
  cases hblank : isBlank c with
  | true =>
    cases captured with
    | blank hforward blank =>
      simp only [RawText.push, hblank, RawText.isBlank, RawText.empty, Option.isNone_none, if_true]
      exact .blank (Position.le_trans hforward hstep) (blank.trans (hone hblank))
    | text horigin hstart hstop hforward hstartLine hstopLine htext hgap hbefore hafter htight =>
      simp only [RawText.push, hblank, RawText.isBlank, horigin, Option.isNone_some, if_true,
        Bool.false_eq_true, if_false]
      refine .text rfl hstart hstop (Position.le_trans hforward hstep) hstartLine hstopLine htext
        ?_ hbefore (hafter.trans (hone hblank)) htight
      simp only [String.toList_push, hgap, ← hchar]
      exact slice_append (offset_mono hstopLine hforward) (offset_mono hhere hstep)
  | false =>
    cases captured with
    | blank hforward blank =>
      simp only [RawText.push, hblank, RawText.empty, Bool.false_eq_true, if_false]
      refine .text rfl hforward hstep (Position.le_refl _) hhere hnext ?_ ?_ blank (.self _) ?_
      · simpa using hchar.symm
      · simp [slice_self]
      · simpa using Tight.singleton hblank
    | @text _ start _ horigin hstart hstop hforward hstartLine hstopLine htext hgap hbefore hafter
        htight =>
      simp only [RawText.push, hblank, horigin, Bool.false_eq_true, if_false, Option.getD_some]
      refine .text rfl hstart (Position.le_trans hstop (Position.le_trans hforward hstep))
        (Position.le_refl _) hstartLine hnext ?_ ?_ hbefore (.self _) ?_
      · simp only [String.toList_push, String.toList_append, htext, hgap]
        rw [slice_append (offset_mono hstartLine hstop) (offset_mono hstopLine hforward), ← hchar]
        exact slice_append (offset_mono hstartLine (Position.le_trans hstop hforward))
          (offset_mono hhere hstep)
      · simp [slice_self]
      · simpa using htight.append_singleton raw.gap.toList hblank

end Captured

/-! ### Tokens of raw text -/

theorem BlankBetween.skipped {p q : Position} (blank : BlankBetween text p q)
    (found : List Token) (i : Nat) (hle : offset text p ≤ i) (hlt : i < offset text q) :
    Skipped text found i :=
  .inl (blank i hle hlt)

theorem Tiled.skipCaptured {found : List Token} {place p q : Position} {raw : RawText}
    (tiled : Tiled text found p) (captured : Captured text place p q raw) (line : String) :
    Tiled text (found ++ if raw.isBlank then [] else [raw.toToken line]) q := by
  cases captured with
  | blank hforward blank =>
    simpa [RawText.empty, RawText.isBlank] using tiled.skip hforward (blank.skipped _)
  | text horigin hstart hstop hforward hstartLine hstopLine htext hgap hbefore hafter =>
    have toStart := tiled.skip hstart (hbefore.skipped _)
    have token : Tiled text (found ++ [raw.toToken line]) raw.stop := by
      refine @Tiled.token text found (raw.toToken line) ?_ ?_ ?_
      · simpa [RawText.toToken, horigin] using toStart
      · simpa [RawText.toToken, horigin] using hstop
      · simpa [RawText.toToken, horigin, IsVerbatim] using ⟨htext, hstartLine, hstopLine⟩
    simpa [RawText.isBlank, horigin] using token.skip hforward (hafter.skipped _)

theorem Tiled.captured {found : List Token} {p q : Position} {raw : RawText}
    (tiled : Tiled text found p) (captured : Captured text p p q raw) (line : String)
    (hp : OnLine text p) : Tiled text (found ++ [raw.toToken line]) q := by
  have nonblank := tiled.skipCaptured captured line
  cases captured with
  | blank hforward blank =>
    have token : Tiled text (found ++ [(RawText.empty p).toToken line]) p :=
      @Tiled.token text found ((RawText.empty p).toToken line) tiled (Position.le_refl _)
        ⟨by simp [RawText.toToken, RawText.empty, slice_self], hp, hp⟩
    exact .skip token hforward (blank.skipped _)
  | text horigin => simpa [RawText.isBlank, horigin] using nonblank

namespace Lexer

variable {l : Lexer} {place p : Position} {raw : RawText}

theorem getElem?_here (cursor : Cursor text l) (placed : Placed text l) {c : Char}
    {rest : List Char} (hrest : l.rest = c :: rest) : text[offset text l.here]? = some c := by
  have hdrop := congrArg List.head? (drop_here cursor placed)
  simpa [hrest, List.head?_drop] using hdrop

theorem captured_advance (cursor : Cursor text l) (placed : Placed text l)
    (captured : Captured text place p l.here raw) {c : Char} {rest : List Char}
    (hrest : l.rest = c :: rest) :
    Captured text place p (l.advance 1).here (raw.push c l.here l.lineText) := by
  have hcount : 1 ≤ l.rest.length := by simp [hrest]
  refine captured.push (onLine_here placed) (onLine_forward placed hcount) ?_
  have hslice := slice_here cursor placed hcount
  rw [hrest] at hslice
  exact hslice

theorem captured_advanceAll (cursor : Cursor text l) (placed : Placed text l)
    (captured : Captured text place p l.here raw) {count : Nat} (hcount : count ≤ l.rest.length) :
    Captured text place p (l.advance count).here
      (raw.pushAll l.here l.lineText (l.rest.take count)) := by
  induction count generalizing l raw with
  | zero => exact captured
  | succ count induction =>
    cases hrest : l.rest with
    | nil => simp [hrest] at hcount
    | cons c rest =>
      have hone : 1 ≤ l.rest.length := by simp [hrest]
      have next := captured_advance cursor placed captured hrest
      have hshorter : count ≤ (l.advance 1).rest.length := by
        simp only [advance, List.length_drop]
        omega
      have all := induction (cursor.advance 1) (placed.advance hone) next hshorter
      have hsame : ((l.advance 1).advance count).here = (l.advance (count + 1)).here := by
        simp only [advance, here, Position.mk.injEq, true_and]
        omega
      rw [hsame] at all
      simpa [advance, hrest, RawText.pushAll, here] using all

theorem captured_nextLine (cursor : Cursor text l) (placed : Placed text l)
    (captured : Captured text place p l.here raw) {line : List Char} {unread : Source}
    (hrest : l.rest = []) (hunread : l.unread = .text line :: unread) :
    Captured text place p (l.nextLine line unread).here raw :=
  captured.move (.inl (Nat.lt_succ_self _)) (offset_nextLine cursor placed hrest hunread)

/-! ### String literals -/

theorem closes_drop_here (cursor : Cursor text l) (placed : Placed text l) (hrest : l.rest ≠ [])
    {quote : Quote} (hmark : quote.mark ≠ '\n') :
    quote.closes (text.drop (offset text l.here)) = quote.closes l.rest :=
  isPrefixOf_drop_here cursor placed hrest fun hmem =>
    hmark (List.eq_of_mem_replicate hmem).symm

theorem opening?_drop_here (cursor : Cursor text l) (placed : Placed text l) {c : Char}
    {rest : List Char} (hrest : l.rest = c :: rest) :
    Quote.opening? (text.drop (offset text l.here)) = Quote.opening? l.rest := by
  have hdrop := drop_here cursor placed
  rw [hrest, List.cons_append] at hdrop
  rw [hdrop, hrest, Quote.opening?, Quote.opening?]
  by_cases hquote : (c == '\'' || c == '"') = true
  · have hword : '\n' ∉ [c, c, c] := by
      rcases Bool.or_eq_true_iff.mp hquote with hc | hc
      · simp [beq_iff_eq.mp hc]
      · simp [beq_iff_eq.mp hc]
    have hthree := isPrefixOf_drop_here cursor placed (by simp [hrest]) hword
    rw [hdrop, hrest] at hthree
    simp only [List.isPrefixOf, beq_self_eq_true, Bool.true_and] at hthree
    simp only [hthree]
  · simp [hquote]

/-- What a scan of raw text keeps: it stands in the text, behind what it has captured. -/
structure Scans (text : List Char) (place p : Position) (raw : RawText) (l : Lexer) : Prop where
  cursor : Cursor text l
  placed : Placed text l
  captured : Captured text place p l.here raw

namespace Scans

theorem advance (scans : Scans text place p raw l) {c : Char} {rest : List Char}
    (hrest : l.rest = c :: rest) :
    Scans text place p (raw.push c l.here l.lineText) (l.advance 1) where
  cursor := scans.cursor.advance 1
  placed := scans.placed.advance (by simp [hrest])
  captured := captured_advance scans.cursor scans.placed scans.captured hrest

theorem advanceAll (scans : Scans text place p raw l) {count : Nat}
    (hcount : count ≤ l.rest.length) :
    Scans text place p (raw.pushAll l.here l.lineText (l.rest.take count)) (l.advance count) where
  cursor := scans.cursor.advance count
  placed := scans.placed.advance hcount
  captured := captured_advanceAll scans.cursor scans.placed scans.captured hcount

theorem nextLine (scans : Scans text place p raw l) {line : List Char} {unread : Source}
    (hrest : l.rest = []) (hunread : l.unread = .text line :: unread) :
    Scans text place p raw (l.nextLine line unread) where
  cursor := (scans.cursor.nextLine hunread).1
  placed := (scans.cursor.nextLine hunread).2.1
  captured := captured_nextLine scans.cursor scans.placed scans.captured hrest hunread

end Scans

theorem offset_advance (text : List Char) (l : Lexer) (count : Nat) :
    offset text (l.advance count).here = offset text l.here + count :=
  here_forward text l count

theorem Quoting.not_of_nothing_left {quote : Quote} {l l' : Lexer} {raw raw' : RawText}
    (moves : Quoting quote l raw l' raw') (hrest : l.rest = []) (hunread : l.unread = []) :
    False := by
  cases moves with
  | close hcloses =>
    have hsize := size_le_of_closes hcloses
    have hpositive := quote.size_pos
    rw [hrest, List.length_nil] at hsize
    omega
  | escape hnext => simp [hrest] at hnext
  | char hnext => simp [hrest] at hnext
  | line _ _ hnext => simp [hunread] at hnext

theorem Quoting.scans {quote : Quote} {l l' : Lexer} {raw raw' : RawText}
    (moves : Quoting quote l raw l' raw') (hmark : quote.mark ≠ '\n')
    (scans : Scans text place p raw l) :
    Scans text place p raw' l' ∧
      RawText.Literal text quote (offset text l.here) (offset text l'.here) := by
  induction moves with
  | @close l raw hcloses =>
    refine ⟨scans.advanceAll (size_le_of_closes hcloses), ?_⟩
    rw [offset_advance]
    refine .close ?_
    rwa [closes_drop_here scans.cursor scans.placed ?_ hmark]
    intro hnil
    have hsize := size_le_of_closes hcloses
    have hpositive := quote.size_pos
    rw [hnil, List.length_nil] at hsize
    omega
  | @escape l l' raw raw' rest hrest next induction =>
    have htwo : 2 ≤ l.rest.length := by
      cases rest with
      | cons c rest => simp [hrest]
      | nil =>
        -- A backslash at the end of a line without a line feed: nothing follows it.
        obtain ⟨body, hbody, hshape | ⟨_, _, hunread⟩⟩ :=
          rest_shape scans.cursor scans.placed (by simp [hrest])
        · rw [hrest] at hshape
          cases body with
          | nil => simp at hshape
          | cons c body => simp at hshape
        · exact (next.not_of_nothing_left (by simp [advance, hrest]) hunread).elim
    rw [Nat.min_eq_left htwo] at induction
    obtain ⟨scans', hliteral⟩ := induction (scans.advanceAll htwo)
    refine ⟨scans', .escape (getElem?_here scans.cursor scans.placed hrest) ?_⟩
    rwa [offset_advance] at hliteral
  | @char l l' raw raw' c rest hrest hescape hcloses hline next induction =>
    obtain ⟨scans', hliteral⟩ := induction (scans.advance hrest)
    refine ⟨scans', .char (getElem?_here scans.cursor scans.placed hrest) hescape ?_ ?_⟩
    · rwa [closes_drop_here scans.cursor scans.placed (by simp [hrest]) hmark]
    · rwa [offset_advance] at hliteral
  | @line l l' raw raw' line unread hrest htriple hunread next induction =>
    obtain ⟨scans', hliteral⟩ := induction (scans.nextLine hrest hunread)
    refine ⟨scans', ?_⟩
    rwa [offset_nextLine scans.cursor scans.placed hrest hunread] at hliteral

/-! ### Brackets -/

theorem Capture.scans {floor : BracketStack} {commas : Bool} {l l' : Lexer} {raw raw' : RawText}
    (moves : Capture floor commas l raw l' raw') (scans : Scans text place p raw l) {a : Nat}
    {inner : BracketStack} (hbrackets : l.brackets = inner ++ floor)
    (leaves : RawText.Leaves text a (offset text l.here) (inner.map Bracket.opener)) :
    Scans text place p raw' l' ∧
      (∃ inner', l'.brackets = inner' ++ floor ∧
        RawText.Leaves text a (offset text l'.here) (inner'.map Bracket.opener)) ∧
      (commas = false → RawText.Uncut text a (offset text l.here) (offset text l'.here)) := by
  induction moves generalizing inner with
  | refl => exact ⟨scans, ⟨inner, hbrackets, leaves⟩, fun _ => .self⟩
  | @quoted l m l' raw raw₁ raw' quote hopening hquoting next induction =>
    have hmark := Quote.mark_of_opening? hopening
    have hsize := size_le_of_closes (closes_of_opening hopening)
    obtain ⟨scans', hliteral⟩ :=
      hquoting.scans (Quote.mark_ne_lineFeed hmark) (scans.advanceAll hsize)
    rw [offset_advance] at hliteral
    have hopening' : Quote.opening? (text.drop (offset text l.here)) = some quote := by
      cases hrest : l.rest with
      | nil => simp [hrest, Quote.opening?] at hopening
      | cons c rest => rwa [opening?_drop_here scans.cursor scans.placed hrest]
    have step : RawText.Follows text (_, inner.map Bracket.opener) _ :=
      .literal hopening' hliteral
    obtain ⟨scansEnd, hend, uncut⟩ := induction scans' (hquoting.brackets.trans hbrackets)
      (leaves.follow step)
    refine ⟨scansEnd, hend, fun hcommas => (step.uncut leaves ?_).trans (uncut hcommas)⟩
    intro _ hcomma
    have hquote := RawText.head_of_closes (closes_of_opening hopening')
    rw [hcomma, Option.some.injEq] at hquote
    rw [← hquote] at hmark
    exact absurd hmark (by decide)
  | @opener l l' raw raw' c rest opener hopening hrest hopener next induction =>
    have hchar := getElem?_here scans.cursor scans.placed hrest
    have scans' : Scans text place p raw (l.pushBracket ⟨opener, .raw, l.here⟩) :=
      ⟨scans.cursor.congr rfl rfl (List.suffix_refl _), scans.placed, scans.captured⟩
    have step : RawText.Follows text (_, inner.map Bracket.opener) _ := .opener hchar hopener
    obtain ⟨scansEnd, hend, uncut⟩ := @induction (scans'.advance hrest)
      (⟨opener, .raw, l.here⟩ :: inner) (by simp [advance, pushBracket, hbrackets])
      (by rw [offset_advance]; exact leaves.follow step)
    rw [offset_advance] at uncut
    refine ⟨scansEnd, hend, fun hcommas => (step.uncut leaves ?_).trans (uncut hcommas)⟩
    intro _ hcomma
    obtain rfl : c = ',' := Option.some.inj (hchar.symm.trans hcomma)
    cases hopener
  | @closer l l' raw raw' c rest top brackets hopening hrest hcloser htops htop hfloor next
      induction =>
    have hchar := getElem?_here scans.cursor scans.placed hrest
    have scans' : Scans text place p raw { l with brackets } :=
      ⟨scans.cursor.congr rfl rfl (List.suffix_refl _), scans.placed, scans.captured⟩
    cases inner with
    | nil => exact absurd hbrackets hfloor
    | cons first inner =>
      rw [htops, List.cons_append] at hbrackets
      obtain ⟨rfl, rfl⟩ := List.cons.inj hbrackets
      subst htop
      have step : RawText.Follows text (_, _ :: inner.map Bracket.opener) _ := .closer hchar
      obtain ⟨scansEnd, hend, uncut⟩ := @induction (scans'.advance hrest) inner rfl
        (by rw [offset_advance]; exact leaves.follow step)
      rw [offset_advance] at uncut
      exact ⟨scansEnd, hend, fun hcommas => (step.uncut leaves (by simp)).trans (uncut hcommas)⟩
  | @char l l' raw raw' c rest hopening hrest hopener hcloser hcomma next induction =>
    have hchar := getElem?_here scans.cursor scans.placed hrest
    have hquote : Quote.opening? (text.drop (offset text l.here)) = none := by
      rwa [opening?_drop_here scans.cursor scans.placed hrest]
    have step : RawText.Follows text (_, inner.map Bracket.opener) _ :=
      .char hchar hquote hopener hcloser
    obtain ⟨scansEnd, hend, uncut⟩ := induction (scans.advance hrest) hbrackets
      (by rw [offset_advance]; exact leaves.follow step)
    rw [offset_advance] at uncut
    refine ⟨scansEnd, hend, fun hcommas => (step.uncut leaves ?_).trans (uncut hcommas)⟩
    intro hnone hcut
    obtain hcaptured | hinner | hother := hcomma
    · exact absurd (hcaptured.symm.trans hcommas) (by decide)
    · rw [List.map_eq_nil_iff.mp hnone] at hbrackets
      exact hinner hbrackets
    · exact hother (Option.some.inj (hchar.symm.trans hcut))
  | @line l l' raw raw' line unread hrest hunread next induction =>
    have hsame := offset_nextLine scans.cursor scans.placed hrest hunread
    obtain ⟨scansEnd, hend, uncut⟩ := induction (scans.nextLine hrest hunread) hbrackets
      (by rwa [hsame])
    rw [hsame] at uncut
    exact ⟨scansEnd, hend, uncut⟩

/-! ### Arguments -/

theorem Scans.nextArgument (scans : Scans text place p raw l) {rest : List Char}
    (hrest : l.rest = ',' :: rest) {a : Nat}
    (leaves : RawText.Leaves text a (offset text l.here) []) :
    Scans text l.here (l.advance 1).here (.empty l.here) ((l.pushCaptured raw).advance 1) ∧
      RawText.Leaves text a (offset text ((l.pushCaptured raw).advance 1).here)
        (([] : BracketStack).map Bracket.opener) := by
  have hplace : ((l.pushCaptured raw).advance 1).here = (l.advance 1).here := by
    simp [Lexer.advance, here]
  refine ⟨⟨?_, ?_, ?_⟩, ?_⟩
  · exact scans.cursor.congr (by simp [Lexer.advance]) (by simp [Lexer.advance])
      (by simpa [Lexer.advance] using List.drop_suffix 1 l.rest)
  · exact scans.placed.congr 1 (by simp [Lexer.advance]) (by simp [Lexer.advance]) (by simp [Lexer.advance])
      (by simp [hrest])
  · rw [hplace]
    exact .blank (Position.le_refl _) (.self _)
  · rw [hplace, offset_advance]
    refine .char leaves (getElem?_here scans.cursor scans.placed hrest) ?_ rfl rfl
    rw [opening?_drop_here scans.cursor scans.placed hrest, hrest]
    rfl

theorem Arguments.tiled {floor : BracketStack} {l l' : Lexer} {raw : RawText}
    (moves : Arguments floor l raw l') {before arguments : List Token} {opener : Token}
    (tiled : Tiled text (before ++ opener :: arguments) p) (scans : Scans text place p raw l)
    {inner : BracketStack} (hbrackets : l.brackets = inner ++ floor)
    (leaves : RawText.Leaves text (offset text opener.stop) (offset text l.here)
      (inner.map Bracket.opener))
    (hopener : opener.isOp Opener.bangParen.spelling = true)
    (hname : ∃ name ∈ before, name.kind = .name ∧ Spelling.isKeyword name.text = false ∧
      name.stop = opener.start)
    (harguments : ∀ argument ∈ arguments, argument.kind = .macroParam) :
    ∃ more, l'.pending = l.pending ++ more ∧ Cursor text l' ∧ Placed text l' ∧
      Tiled text (before ++ opener :: (arguments ++ more)) l'.here := by
  induction moves generalizing place p arguments inner with
  | @last l m raw captured rest hcapture hfloor hrest =>
    obtain ⟨scans', _⟩ := hcapture.scans scans hbrackets leaves
    have next := tiled.skipCaptured scans'.captured m.lineText
    refine ⟨if captured.isBlank then [] else [captured.toToken m.lineText], ?_, ?_, ?_, ?_⟩
    · simp [hcapture.readsOn.pending]
    · exact scans'.cursor.congr (by simp) (by simp) (by simp)
    · exact scans'.placed.congr 0 (by simp) (by simp) (by simp) (Nat.zero_le _)
    · have hsame : (m.pushCaptured captured).here = m.here := pushCaptured_here m captured
      change Tiled text _ (m.pushCaptured captured).here
      rw [hsame]
      simpa using next
  | @more l m l' raw captured rest hcapture hfloor hrest next induction =>
    obtain ⟨scans', ⟨inner', hinner, leaves'⟩, _⟩ := hcapture.scans scans hbrackets leaves
    obtain rfl : inner' = [] := by
      rw [hfloor] at hinner
      exact List.self_eq_append_left.mp hinner
    have hchar := getElem?_here scans'.cursor scans'.placed hrest
    have argument := tiled.skipCaptured scans'.captured m.lineText
    have hmore : ∀ argument ∈ arguments ++
        (if captured.isBlank then [] else [captured.toToken m.lineText]),
        argument.kind = .macroParam := by
      intro token htoken
      rcases List.mem_append.mp htoken with htoken | htoken
      · exact harguments token htoken
      · split at htoken
        · simp at htoken
        · rw [List.mem_singleton.mp htoken]
          rfl
    have comma : Tiled text (before ++ opener :: (arguments ++
        (if captured.isBlank then [] else [captured.toToken m.lineText]))) (m.advance 1).here := by
      refine .skip (by simpa using argument) (here_le_forward m 1) ?_
      intro i hle hlt
      rw [offset_advance] at hlt
      obtain rfl : i = offset text m.here := by omega
      exact .inr (.inr ⟨hchar, before, opener, _, rfl, hopener, hname, hmore, leaves'⟩)
    obtain ⟨scansNext, leavesNext⟩ := scans'.nextArgument hrest leaves'
    obtain ⟨later, hlater, cursor, placed, all⟩ :=
      induction comma scansNext (by simp [advance, hfloor]) leavesNext hmore
    refine ⟨(if captured.isBlank then [] else [captured.toToken m.lineText]) ++ later, ?_, cursor,
      placed, by simpa using all⟩
    rw [hlater]
    simp [advance, hcapture.readsOn.pending]

/-! ### Statement bodies -/

theorem offset_lineEnd (placed : Placed text l) :
    offset text l.lineEnd = upTo text l.lineNumber := by
  rw [← placed]
  exact here_forward text l l.rest.length

theorem onLine_lineEnd (placed : Placed text l) : OnLine text l.lineEnd :=
  onLine_forward placed (Nat.le_refl _)

theorem slice_lineEnd (cursor : Cursor text l) (placed : Placed text l) :
    slice text l.here l.lineEnd = l.rest := by
  have hslice := slice_here cursor placed (Nat.le_refl l.rest.length)
  rwa [List.take_length] at hslice

theorem Gathers.verbatim {l l' : Lexer} {chars chars' : List Char}
    (moves : Gathers l chars l' chars') (cursor : Cursor text l) (placed : Placed text l)
    (hp : OnLine text p) (hforward : p ≤ l.lineEnd) (hchars : chars = slice text p l.lineEnd) :
    Cursor text l' ∧ Placed text l' ∧ p ≤ l'.lineEnd ∧ chars' = slice text p l'.lineEnd := by
  induction moves with
  | stop => exact ⟨cursor, placed, hforward, hchars⟩
  | @line l l' chars line chars' unread hgoes hunread next induction =>
    obtain ⟨cursor', placed', hplace⟩ := cursor.nextLine hunread
    have hlater : l.lineEnd ≤ (l.nextLine line unread).lineEnd := .inl (Nat.lt_succ_self _)
    have hsame : offset text (l.nextLine line unread).here = offset text l.lineEnd := by
      rw [hplace, offset_lineEnd placed]
    have hline : slice text l.lineEnd (l.nextLine line unread).lineEnd = line :=
      (slice_congr hsame.symm rfl).trans (slice_lineEnd cursor' placed')
    refine induction cursor' placed' (Position.le_trans hforward hlater) ?_
    calc chars ++ line
      _ = slice text p l.lineEnd ++ slice text l.lineEnd (l.nextLine line unread).lineEnd := by
          rw [hchars, hline]
      _ = slice text p (l.nextLine line unread).lineEnd :=
          slice_append (offset_mono hp hforward) (offset_mono (onLine_lineEnd placed) hlater)

/-- Nothing but white space and comments from `p` to `q`. -/
def Quiet (text : List Char) (p q : Position) : Prop :=
  ∀ i, offset text p ≤ i → i < offset text q → IsBlankAt text i ∨ InComment text i

theorem trimEnd_prefix (chars : List Char) : trimEnd chars <+: chars := by
  rw [trimEnd, ← List.reverse_suffix, List.reverse_reverse]
  exact List.dropWhile_suffix _

theorem idle_cases {chars : List Char} (hidle : Lexeme.isIdleLine chars = true) :
    (∀ c ∈ chars, isBlank c = true) ∨
      ∃ margin rest, chars = margin ++ '#' :: rest ∧ ∀ c ∈ margin, isBlank c = true := by
  have hsplit := List.takeWhile_append_dropWhile (p := isBlank) (l := chars)
  have hmargin : ∀ c ∈ chars.takeWhile isBlank, isBlank c = true :=
    fun c hc => List.all_eq_true.mp List.all_takeWhile c hc
  unfold Lexeme.isIdleLine trim at hidle
  cases hrest : trimStart chars with
  | nil =>
    rw [trimStart] at hrest
    rw [hrest, List.append_nil] at hsplit
    rw [hsplit] at hmargin
    exact .inl hmargin
  | cons c rest =>
    rw [hrest] at hidle
    have hhead : isBlank c = false := by
      have hnot := List.head?_dropWhile_not isBlank chars
      rw [trimStart] at hrest
      rw [hrest] at hnot
      simpa using hnot
    cases htrim : trimEnd (c :: rest) with
    | nil =>
      rw [trimEnd, List.reverse_eq_nil_iff] at htrim
      have hall := List.takeWhile_append_dropWhile (p := isBlank) (l := (c :: rest).reverse)
      rw [htrim, List.append_nil] at hall
      have hmem : c ∈ (c :: rest).reverse.takeWhile isBlank := by
        rw [hall]
        simp
      have hblank := List.all_eq_true.mp List.all_takeWhile c hmem
      rw [hhead] at hblank
      cases hblank
    | cons first last =>
      rw [htrim] at hidle
      have hleads := trimEnd_prefix (c :: rest)
      rw [htrim, List.cons_prefix_cons] at hleads
      obtain rfl : c = '#' := by simpa [hleads.1] using hidle
      rw [trimStart] at hrest
      exact .inr ⟨_, rest, by rw [← hrest, hsplit], hmargin⟩

theorem getElem?_forward (cursor : Cursor text l) (placed : Placed text l) {k : Nat}
    (hk : k < l.rest.length) : text[offset text l.here + k]? = l.rest[k]? := by
  rw [← List.getElem?_drop, drop_here cursor placed, List.getElem?_append_left hk]

theorem not_lineFeed (cursor : Cursor text l) (placed : Placed text l) {k : Nat}
    (hk : k + 1 < l.rest.length) : l.rest[k]? ≠ some '\n' := by
  have hrest : l.rest ≠ [] := by
    rintro hnil
    simp [hnil] at hk
  obtain ⟨body, hbody, hshape | ⟨hshape, _⟩⟩ := rest_shape cursor placed hrest
  · rw [hshape, List.length_append, List.length_singleton] at hk
    rw [hshape, List.getElem?_append_left (by omega)]
    exact fun hfeed => hbody (List.mem_of_getElem? hfeed)
  · rw [hshape]
    exact fun hfeed => hbody (List.mem_of_getElem? hfeed)

theorem quiet_of_idle (cursor : Cursor text l) (placed : Placed text l)
    (hidle : Lexeme.isIdleLine l.rest = true) : Quiet text l.here l.lineEnd := by
  intro i hle hlt
  obtain ⟨k, rfl⟩ := Nat.exists_eq_add_of_le hle
  have hend : offset text l.lineEnd = offset text l.here + l.rest.length :=
    here_forward text l l.rest.length
  have hk : k < l.rest.length := by omega
  have hchar := getElem?_forward cursor placed hk
  rw [List.getElem?_eq_getElem hk] at hchar
  obtain hblank | ⟨margin, rest, hrest, hblank⟩ := idle_cases hidle
  · exact .inl ⟨_, hchar, hblank _ (List.getElem_mem hk)⟩
  · by_cases hmargin : k < margin.length
    · refine .inl ⟨_, hchar, ?_⟩
      have hsame : l.rest[k] = margin[k] := by simp [hrest, hmargin]
      rw [hsame]
      exact hblank _ (List.getElem_mem hmargin)
    · refine .inr ⟨offset text l.here + margin.length, by omega, ?_, ?_⟩
      · have hshorter : margin.length < l.rest.length := by omega
        rw [getElem?_forward cursor placed hshorter, hrest]
        simp
      · intro j hstart hstop
        obtain ⟨before, rfl⟩ := Nat.exists_eq_add_of_le
          (Nat.le_trans (Nat.le_add_right _ margin.length) hstart)
        rw [getElem?_forward cursor placed (by omega)]
        exact not_lineFeed cursor placed (by omega)

/-- The lines above a block are quiet, and the block starts below the place where the lexer was. -/
theorem GathersBlock.quiet {indent : Nat} {l l' : Lexer} {chars chars' : List Char}
    {first first' : Option Nat} (moves : GathersBlock indent l chars first l' chars' first')
    (cursor : Cursor text l) (placed : Placed text l) :
    Cursor text l' ∧ Placed text l' ∧ l.lineNumber ≤ l'.lineNumber ∧
      (∀ number, first = some number → first' = some number) ∧
      (first = none → OnLine text p → p ≤ l.lineEnd → Quiet text p l.lineEnd →
        ∀ number, first' = some number → l.lineNumber < number ∧ number ≤ l'.lineNumber ∧
          Quiet text p ⟨number, 0⟩) := by
  induction moves with
  | sourceEnd =>
    refine ⟨cursor, placed, Nat.le_refl _, fun _ hfirst => hfirst, ?_⟩
    rintro rfl _ _ _ number hnone
    cases hnone
  | outdented =>
    refine ⟨cursor.measure _, placed, Nat.le_refl _, fun _ hfirst => hfirst, ?_⟩
    rintro rfl _ _ _ number hnone
    cases hnone
  | @idle l l' chars line chars' first first' unread hunread hidle next induction =>
    obtain ⟨cursor', placed', hplace⟩ := cursor.nextLine hunread
    obtain ⟨cursorEnd, placedEnd, hnumber, hsome, hquiet⟩ := induction cursor' placed'
    have hlower : l.lineNumber + 1 ≤ l'.lineNumber := hnumber
    refine ⟨cursorEnd, placedEnd, by omega, hsome, ?_⟩
    intro hnone hp hforward quiet number hfirst
    have hlater : l.lineEnd ≤ (l.nextLine line unread).lineEnd := .inl (Nat.lt_succ_self _)
    have hsame : offset text (l.nextLine line unread).here = offset text l.lineEnd := by
      rw [hplace, offset_lineEnd placed]
    have quietLine := quiet_of_idle cursor' placed' hidle
    have quietBoth : Quiet text p (l.nextLine line unread).lineEnd := by
      intro i hle hlt
      by_cases hbefore : i < offset text l.lineEnd
      · exact quiet i hle hbefore
      · exact quietLine i (by omega) hlt
    obtain ⟨hbelow, hwithin, hall⟩ :=
      hquiet hnone hp (Position.le_trans hforward hlater) quietBoth number hfirst
    exact ⟨Nat.lt_of_succ_lt hbelow, hwithin, hall⟩
  | @deeper l l' chars line chars' first first' unread hunread hidle hindent next induction =>
    obtain ⟨cursor', placed', hplace⟩ := cursor.nextLine hunread
    obtain ⟨cursorEnd, placedEnd, hnumber, hsome, _⟩ := induction (cursor'.measure line) placed'
    have hlower : l.lineNumber + 1 ≤ l'.lineNumber := hnumber
    refine ⟨cursorEnd, placedEnd, by omega, ?_, ?_⟩
    · rintro number rfl
      exact hsome number rfl
    · rintro rfl _ _ quiet number hfirst
      rw [hsome (l.lineNumber + 1) rfl] at hfirst
      obtain rfl := Option.some.inj hfirst
      refine ⟨Nat.lt_succ_self _, hlower, ?_⟩
      intro i hle hlt
      rw [offset_lineStart] at hlt
      exact quiet i hle (by rwa [offset_lineEnd placed])

end Lexer

end ShellSyntax
