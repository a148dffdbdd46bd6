import ShellSyntax.Proofs.Lexer.Failures
import ShellSyntax.Proofs.Lexer.ForkedSteps
import ShellSyntax.Proofs.Lexer.TokenLines

/-!
What a lexer finds before a fork, it finds on both sources. A fork may stand right behind any name,
number or closing bracket of a text.
-/

namespace ShellSyntax

open Text

/-! ### Characters before a fork -/

namespace Text

/-- The code points of white space. -/
def blankPoints : List Nat :=
  blankRanges.flatMap fun range => List.range' range.1 (range.2 + 1 - range.1)

theorem toNat_mem_blankPoints {c : Char} (hc : isBlank c = true) : c.toNat ∈ blankPoints := by
  simp only [isBlank, inRanges, List.any_eq_true, Bool.and_eq_true, decide_eq_true_eq] at hc
  obtain ⟨range, hrange, hfirst, hlast⟩ := hc
  exact List.mem_flatMap.mpr ⟨range, hrange, List.mem_range'_1.mpr ⟨hfirst, by omega⟩⟩

/-- A class of characters without white space. -/
def Visible (p : Char → Bool) : Prop :=
  (blankPoints.all fun point => !p (.ofNat point)) = true

instance (p : Char → Bool) : Decidable (Visible p) :=
  inferInstanceAs (Decidable (_ = true))

theorem Visible.isBlank {p : Char → Bool} (visible : Visible p) {c : Char} (hc : p c = true) :
    isBlank c = false := by
  rw [← Bool.not_eq_true]
  intro hblank
  have hnot := List.all_eq_true.mp visible c.toNat (toNat_mem_blankPoints hblank)
  rw [Char.ofNat_toNat, hc] at hnot
  cases hnot

/-- The text ends in a character that is no white space and that no backslash can make part of a
sign. -/
def EndsSolid (text : List Char) : Prop :=
  ∃ c, text.getLast? = some c ∧ isBlank c = false ∧ c ≠ '$' ∧ c ≠ '@'

theorem endsSolid_of_all {text : List Char} {p : Char → Bool} (visible : Visible p)
    (hdollar : p '$' = false) (hat : p '@' = false) (hall : ∀ c ∈ text, p c = true)
    (hsome : text ≠ []) : EndsSolid text := by
  obtain ⟨c, hc⟩ := Option.ne_none_iff_exists'.mp (mt List.getLast?_eq_none_iff.mp hsome)
  have hp := hall c (List.mem_of_getLast? hc)
  refine ⟨c, hc, visible.isBlank hp, ?_, ?_⟩
  · rintro rfl
    exact absurd hp (by simp [hdollar])
  · rintro rfl
    exact absurd hp (by simp [hat])

end Text

/-- Neither a firm token nor a word nor an error. -/
def Token.IsLoose (t : Token) : Prop :=
  ¬ t.IsFirm ∧ t.kind ≠ .word ∧ t.kind ≠ .error

namespace Lexer

open Outcome

/-! ### What a move finds -/

/-- No token that waits is firm, a word or an error. -/
abbrev Loose (l : Lexer) : Prop :=
  Waiting Token.IsLoose l

variable {l l' : Lexer}

theorem loose_of_kind {token : Token}
    (hkind : token.kind ≠ .name ∧ token.kind ≠ .number ∧ token.kind ≠ .op ∧ token.kind ≠ .word ∧
      token.kind ≠ .error) : token.IsLoose :=
  ⟨Token.not_isFirm ⟨hkind.1, hkind.2.1, hkind.2.2.1⟩, hkind.2.2.2⟩

theorem loose_op {token : Token} (hkind : token.kind = .op)
    (hcloser : closer? token.text = none) : token.IsLoose := by
  refine ⟨?_, hkind ▸ by decide⟩
  rintro (hname | hnumber | ⟨_, hsome⟩)
  · exact absurd (hkind.symm.trans hname) (by decide)
  · exact absurd (hkind.symm.trans hnumber) (by decide)
  · rw [hcloser] at hsome
    cases hsome

/-- What a move finds: one plain token; or no word and no error, and at most one firm token, which
is the last. -/
inductive Finds (l l' : Lexer) : Prop
  | loose (hloose : l'.Loose)
  | plain {kind : TokenKind} {count : Nat} (houtside : l.Outside) (hplain : Plain l kind count)
      (hl' : l' = l.take kind count)
  | last {m : Lexer} {kind : TokenKind} {count : Nat} (hloose : m.Loose)
      (hkind : kind = .name ∨ kind = .op) (hsolid : EndsSolid (m.rest.take count))
      (hpending : l'.pending = (m.take kind count).pending)
      (hhere : l'.here = (m.take kind count).here)
      (hsignificant : l'.lastSignificant = (m.take kind count).lastSignificant)

theorem loose_close (hpending : l.pending = []) : l.close.Loose := by
  intro token htoken
  rw [close_pending, hpending, List.nil_append] at htoken
  have hlayout := layout_of_closing token htoken
  refine loose_of_kind ⟨?_, ?_, ?_, ?_, ?_⟩ <;> · intro hkind; rw [hkind] at hlayout; cases hlayout

theorem endsSolid_name {text : List Char}
    (hstart : (text.head?.map Lexeme.startsName).getD false = true) :
    EndsSolid (text.take (text.takeWhile Lexeme.continuesName).length) := by
  rw [← List.prefix_iff_eq_take.mp (List.takeWhile_prefix _)]
  refine endsSolid_of_all (show Visible Lexeme.continuesName by decide +kernel) (by decide)
    (by decide) (fun c hc => List.all_eq_true.mp List.all_takeWhile c hc) fun hnone => ?_
  cases text with
  | nil => cases hstart
  | cons c rest =>
    have hstarts : Lexeme.startsName c = true := hstart
    have hcontinues := Lexeme.continuesName_of_startsName hstarts
    rw [List.takeWhile_cons_of_pos hcontinues] at hnone
    cases hnone

theorem endsSolid_number {text : List Char} (hstart : Lexeme.startsNumber text = true) :
    EndsSolid (text.take (Lexeme.numberLength text)) := by
  refine endsSolid_of_all (show Visible Lexeme.isNumberChar by decide +kernel) (by decide)
    (by decide) Lexeme.NumberChars.numberLength fun hnone => ?_
  have hpositive := Lexeme.numberLength_pos hstart
  have hle := Lexeme.numberLength_le text
  obtain hzero | rfl := List.take_eq_nil_iff.mp hnone
  · omega
  · cases hstart

theorem endsSolid_closer {op : String} (hcloser : (closer? op).isSome = true) :
    EndsSolid op.toList := by
  unfold closer? at hcloser
  split at hcloser
  · exact ⟨')', rfl, by decide⟩
  · exact ⟨']', rfl, by decide⟩
  · exact ⟨'\x7d', rfl, by decide⟩
  · cases hcloser

theorem finds_of_moves (moves : Moves l l') (hpending : l.pending = []) : Finds l l' := by
  have start : l.Loose := by simp [Waiting, hpending]
  have same {m : Lexer} (hsame : m.pending = l.pending) : m.Loose := start.congr hsame
  have hmiddle (token : Token) (hkind : token.kind = .fstringMiddle) : token.IsLoose :=
    loose_of_kind (by simp [hkind])
  have hcaptured (token : Token) (hkind : token.kind = .macroParam) : token.IsLoose :=
    loose_of_kind (by simp [hkind])
  have hopener (token : Token) (hkind : token.kind = .op) (htext : token.text = "\x7b")
      (_ : token.stop.line = token.start.line) : token.IsLoose :=
    loose_op hkind (htext ▸ rfl)
  have sign {m : Lexer} {text : List Char} {count : Nat} (loose : m.Loose)
      (htake : m.rest.take count = text) (hsign : closer? (String.ofList text) = none) :
      (m.take .op count).Loose :=
    loose.cut (loose_op rfl (by rw [cutToken, htake]; exact hsign))
  cases moves with
  | finish => exact .loose (loose_close hpending)
  | resumeLine => exact .loose (same rfl)
  | blankLine _ _ _ hm => exact .loose (same (by rw [hm]; rfl))
  | @commentLine m _ _ _ _ _ _ hm =>
    have margin : m.Loose := same (by rw [hm]; rfl)
    have comment : (m.take .comment (Lexeme.contentLength m.rest)).Loose :=
      margin.cut (loose_of_kind (by simp))
    exact .loose (comment.cut (loose_of_kind (by simp)))
  | @emptyLine m _ _ _ _ _ _ _ hm =>
    have margin : m.Loose := same (by rw [hm]; rfl)
    exact .loose (margin.cut (loose_of_kind (by simp)))
  | @indented m _ _ _ _ _ _ _ _ hm =>
    have deeper {indents : List Nat} : Loose { m with indents } := same (by rw [hm]; rfl)
    exact .loose (deeper.addToken (loose_of_kind (by simp)))
  | level _ _ _ hm => exact .loose (same (by rw [hm]; rfl))
  | @outdented m _ _ _ _ _ _ _ _ hm =>
    have shallower {indents : List Nat} : Loose { m with indents } := same (by rw [hm]; rfl)
    exact .loose (shallower.dedents (fun token hkind _ _ => loose_of_kind (by simp [hkind]))
      (fun _ => m.here) _)
  | stringEnd =>
    have ended {modes : List LexMode} {count : Nat} {last : Option TokenKind} :
        Loose { l.advance count with modes, lastSignificant := last } := same rfl
    exact .loose (ended.push (loose_of_kind (by simp)))
  | stringLine => exact .loose (same rfl)
  | textLine => exact .loose (same rfl)
  | @textEnd m quote text begins outer count hmodes hrest hm hscan =>
    have before : m.Loose := same (by rw [hm])
    have flush : (m.flushText count).Loose := by
      rw [flushText_of_text (l := m) (by rw [hm]) count]
      exact before.flushed hmiddle _ _ _ _
    have ended : ((m.flushText count).take .fstringEnd quote.size).Loose :=
      flush.cut (loose_of_kind (by simp))
    exact .loose (ended.congr rfl)
  | @textField m quote text begins outer count hmodes hrest hm hscan =>
    have before : m.Loose := same (by rw [hm])
    exact .loose (before.openField hmiddle hopener (by rw [hm]; exact (scanText_field hscan).2)
      (flushText_of_text (l := m) (by rw [hm]) count))
  | @specField m text begins outer count hmodes hrest hm hscan =>
    have before : m.Loose := same (by rw [hm])
    exact .loose (before.openField hmiddle hopener (by rw [hm]; exact (scanSpec_field hscan).2)
      (flushText_of_spec (l := m) (by rw [hm]) count))
  | @specEnd m n text begins outer count top brackets hmodes hrest hm hscan hn =>
    have before : m.Loose := same (by rw [hm])
    have hflush := flushText_of_spec (l := m) (by rw [hm]) count
    have flush : n.Loose := by
      rw [hn, hflush]
      exact before.flushed hmiddle _ _ _ _
    have unbracketed : Loose { n with brackets } := flush.congr rfl
    obtain ⟨rest, hclose⟩ := List.head?_eq_some_iff.mp (scanSpec_close hscan).2
    have hleft : n.rest = '\x7d' :: rest := by
      rw [hn, hflush]
      simpa [hm] using hclose
    exact .last unbracketed (.inr rfl) ⟨'\x7d', by simp [hleft], by decide⟩ rfl rfl rfl
  | plain houtside hplain => exact .plain houtside hplain rfl
  | continuation => exact .loose (same rfl)
  | stringStart => exact .loose (same rfl)
  | @fstringStart _ letters quote _ _ _ hm =>
    rw [hm]
    have opened : (l.take .fstringStart (letters.length + quote.size)).Loose :=
      start.cut (loose_of_kind (by simp))
    exact .loose (opened.congr rfl)
  | @envVariable c rest houtside hcommand hrest hstart =>
    have hdollar : l.rest.take 1 = ['$'] := by
      rw [hrest]
      rfl
    have signed : (l.take .op 1).Loose := sign start hdollar (by decide)
    have hname : (l.take .op 1).rest = c :: rest := by simp [hrest]
    exact .last signed (.inl rfl) (endsSolid_name (by rw [hname]; exact hstart)) rfl rfl rfl
  | @closer table text top brackets houtside hmatch hcloser =>
    have unbracketed : Loose { l with
      brackets, modes := if l.atFieldLevel then l.modes.drop 1 else l.modes } := same rfl
    have htake := Spelling.firstMatch_take hmatch
    rw [(closer?_eq_some hcloser).1] at htake
    refine .last unbracketed (.inr rfl) ?_ rfl rfl rfl
    change EndsSolid (l.rest.take 1)
    rw [htake]
    exact endsSolid_closer (by simp [hcloser])
  | @opener table opener houtside hmatch =>
    have opened : (l.pushBracket (.opened opener l.brackets.realm l.here)).Loose := same rfl
    exact .loose (sign opened (Spelling.firstMatch_take hmatch) (by cases opener <;> decide))
  | @call m _ table houtside hmatch hcallable hm harguments =>
    have opened : (l.pushBracket ⟨.bangParen, .raw, l.here⟩).Loose := same rfl
    have signed : m.Loose := by
      rw [hm]
      exact sign opened (Spelling.firstMatch_take hmatch) (by decide)
    exact .loose (signed.arguments hcaptured harguments)
  | @rawCommand m n table top brackets raw rest houtside hcommand hmatch hm hbrackets hcapture =>
    have signed : m.Loose := by
      rw [hm]
      exact sign start (Spelling.firstMatch_take hmatch) (by decide)
    have captured := (signed.readsOn hcapture.readsOn).push (hcaptured (raw.toToken n.lineText) rfl)
    exact .loose (captured.congr rfl)
  | @announce table announced houtside hhost hmatch =>
    have announcing : Loose { l with withHeader := announced } := same rfl
    exact .loose (sign announcing (Spelling.firstMatch_take hmatch) (by decide))
  | spec _ hmatch _ hm =>
    rw [hm]
    exact .loose ((sign start (Spelling.firstMatch_take hmatch) (by decide)).congr rfl)
  | @bodyLine m n table text houtside hmatch hfield hheader hbrackets hm hidle hgathers =>
    have headed : Loose { l with withHeader := false } := same rfl
    have signed : m.Loose := by
      rw [hm]
      exact sign headed (Spelling.firstMatch_take hmatch) (by decide)
    have body : (n.addToken .macroParam (String.ofList text) m.here n.lineEnd).Loose :=
      (signed.readsOn hgathers.readsOn).addToken (hcaptured _ rfl)
    exact .loose (body.congr rfl)
  | @bodyBlock m n table text first houtside hmatch hfield hheader hbrackets hm hidle hgathers =>
    have headed : Loose { l with withHeader := false } := same rfl
    have signed : m.Loose := by
      rw [hm]
      exact sign headed (Spelling.firstMatch_take hmatch) (by decide)
    have reads := (readsOn_advance m m.rest.length).trans hgathers.readsOn
    have body : (n.addToken .macroParam (String.ofList (dedent text)) ⟨first, 0⟩ n.lineEnd).Loose :=
      (signed.readsOn reads).addToken (hcaptured _ rfl)
    exact .loose (body.congr rfl)

/-! ### Firm tokens -/

/-- The lexer stands right behind the token. -/
structure JustFound (l : Lexer) (token : Token) : Prop where
  stop : token.stop = l.here
  kind : l.lastSignificant = some token.kind
  solid : EndsSolid token.text.toList

/-- A firm token that waits is the last one, and the lexer stands right behind it. -/
def FirmLast (l : Lexer) : Prop :=
  ∀ new token behind, l.pending = new ++ token :: behind → token.IsFirm →
    behind = [] ∧ JustFound l token

theorem Loose.firmLast (loose : l.Loose) : l.FirmLast := by
  intro new token behind hpending hfirm
  refine absurd hfirm (loose token ?_).1
  rw [hpending]
  simp

theorem lastSignificant_take {kind : TokenKind} (count : Nat)
    (hfirm : (l.cutToken kind count).IsFirm) :
    (l.take kind count).lastSignificant = some kind := by
  have hkind : kind = .name ∨ kind = .number ∨ kind = .op := hfirm.imp_right (·.imp_right And.left)
  obtain rfl | rfl | rfl := hkind <;> rfl

theorem Loose.firmLast_take (loose : l.Loose) {kind : TokenKind} {count : Nat}
    (hsolid : (l.cutToken kind count).IsFirm → EndsSolid (l.rest.take count)) :
    (l.take kind count).FirmLast := by
  intro new token behind hpending hfirm
  rw [take_pending] at hpending
  obtain ⟨hbehind, _, hlast⟩ | ⟨middle, _, hmiddle⟩ := append_singleton_eq_split hpending
  · subst hlast
    refine ⟨hbehind, by simp [here], lastSignificant_take count hfirm, ?_⟩
    rw [String.toList_ofList]
    exact hsolid hfirm
  · refine absurd hfirm (loose token ?_).1
    rw [hmiddle]
    simp

theorem Plain.endsSolid {kind : TokenKind} {count : Nat} (plain : Plain l kind count)
    (hfirm : (l.cutToken kind count).IsFirm) : EndsSolid (l.rest.take count) := by
  cases plain with
  | number hstart => exact endsSolid_number hstart
  | name hrest hstart => exact endsSolid_name (by rw [hrest]; exact hstart)
  | op hmatch hcloser =>
    refine absurd hfirm (loose_op rfl ?_).1
    rw [cutToken, Spelling.firstMatch_take hmatch, String.ofList_toList]
    exact hcloser
  | _ => exact absurd hfirm (Token.not_isFirm (by simp))

theorem firmLast_of_moves (moves : Moves l l') (hpending : l.pending = []) : l'.FirmLast := by
  cases finds_of_moves moves hpending with
  | loose hloose => exact Loose.firmLast hloose
  | plain _ hplain hl' =>
    have start : l.Loose := by simp [Waiting, hpending]
    exact hl' ▸ start.firmLast_take hplain.endsSolid
  | last hloose _ hsolid hsame hhere hsignificant =>
    intro new token behind hsplit hfirm
    obtain ⟨hbehind, just⟩ :=
      hloose.firmLast_take (fun _ => hsolid) new token behind (hsame ▸ hsplit) hfirm
    exact ⟨hbehind, hhere ▸ just.stop, hsignificant ▸ just.kind, just.solid⟩

/-! ### Runs -/

theorem pending_ahead {f : Fork} {m : Lexer} (ahead : f.Ahead l m) :
    m.pending.map Token.unlined = l.pending.map Token.unlined :=
  ahead.view Lexer.pending

theorem pending_ahead_nil {f : Fork} {m : Lexer} (ahead : f.Ahead l m) (hpending : l.pending = []) :
    m.pending = [] := by
  simpa [hpending] using pending_ahead ahead

theorem before_of_moves {f : Fork} (moves : Moves l l') (hpending : l.pending = [])
    (hworks : l.finished = false) (meets : f.Meets l') : f.Before l := by
  have progress := moves.progress hworks
  obtain hshorter | hfinished := progress.reads
  · exact Nat.lt_of_le_of_lt meets.far hshorter
  · obtain hsame | ⟨rfl, _⟩ := progress.ends
    · rw [hsame, hworks] at hfinished
      cases hfinished
    · have before : f.Before l.close := meets.before fun _ token hlast =>
        (loose_close hpending token (hlast ▸ List.mem_append_right _ (List.mem_singleton_self _))).1
      simpa [Fork.Before, toCome] using before

variable {source : Source} {tabSize : Nat} {before found after : List Token} {token : Token}

namespace Passes

theorem exists_justFound (passed : Passes source tabSize found l)
    (hsplit : found = before ++ token :: after) (hfirm : token.IsFirm) :
    ∃ new m, Passes source tabSize (before ++ [token]) m ∧ m.pending = new ++ [token] ∧
      m.finished = false ∧ m.JustFound token := by
  induction passed generalizing after with
  | start => simp at hsplit
  | @step found l l' passed hpending hworks hstep induction =>
    have moves := passed.moves hstep
    have next := passed.step hpending hworks hstep
    have new (new : List Token) (hbefore : before = found ++ new)
        (hnew : l'.pending = new ++ token :: after) : ∃ new m,
          Passes source tabSize (before ++ [token]) m ∧ m.pending = new ++ [token] ∧
            m.finished = false ∧ m.JustFound token := by
      obtain ⟨rfl, just⟩ := firmLast_of_moves moves hpending new token after hnew hfirm
      refine ⟨new, l', ?_, hnew, ?_, just⟩
      · rw [hbefore, List.append_assoc, ← hnew]
        exact next
      · obtain hsame | ⟨rfl, _⟩ := (moves.progress hworks).ends
        · rw [hsame, hworks]
        · exact absurd hfirm (loose_close hpending token (hnew ▸ by simp)).1
    obtain ⟨more, hfound, hmore⟩ | ⟨more, hbefore, hnew⟩ := List.append_eq_append_iff.mp hsplit.symm
    · cases more with
      | nil => exact new [] (by simpa using hfound.symm) hmore.symm
      | cons first more =>
        obtain ⟨rfl, _⟩ := List.cons.inj hmore
        exact induction hfound
    · exact new more hbefore hnew
  | handOut _ _ induction => exact induction hsplit
  | endMarker _ _ _ induction =>
    obtain ⟨_, _, hlast⟩ | ⟨middle, _, hmiddle⟩ := append_singleton_eq_split hsplit
    · exact absurd hfirm (hlast ▸ Token.not_isFirm (by simp [Token.endMarker]))
    · exact induction hmiddle

theorem bound_eq (passed : Passes source tabSize found l) : l.bound = tokenBound source := by
  induction passed with
  | start => rfl
  | step passed _ hworks hstep induction =>
    exact ((passed.moves hstep).progress hworks).bound.trans induction
  | handOut _ _ induction | endMarker _ _ _ induction => exact induction

theorem keeps {f : Fork} {left right lines : Source} {bound : Nat}
    (hleft : left = lines ++ .text (f.head ++ f.left) :: f.leftBelow)
    (hright : right = lines ++ .text (f.head ++ f.right) :: f.rightBelow)
    (hleftBound : tokenBound left ≤ bound) (hrightBound : tokenBound right ≤ bound)
    (passed : Passes left tabSize found l) (meets : f.Meets l) :
    ∃ tokens m, Passes right tabSize tokens m ∧ f.Ahead (l.withBound bound) (m.withBound bound) ∧
      tokens.map Token.unlined = found.map Token.unlined := by
  induction passed with
  | start => exact ⟨[], _, .start, ⟨.above lines rfl hleft hright, rfl⟩, rfl⟩
  | @step found l l' passed hpending hworks hstep induction =>
    have before := before_of_moves (passed.moves hstep) hpending hworks meets
    obtain ⟨tokens, m, also, ahead, htokens⟩ := induction (.inl before)
    have hroom := passed.toCome_lt
    have hroom' := also.toCome_lt
    have hcome : m.toCome < bound := by
      rw [also.bound_eq] at hroom'
      exact Nat.lt_of_lt_of_le hroom' hrightBound
    have roomy : Roomy bound l := ⟨hroom, by rw [passed.bound_eq] at hroom; omega⟩
    have hrun : Lexer.step (l.withBound bound) = .ok () (l'.withBound bound) := by
      rw [step_alike roomy, hstep]
      rfl
    obtain ⟨_, m', hkept, _, next⟩ :=
      step_keeps ahead before roomy.2 hpending () (l'.withBound bound) hrun meets
    rw [step_alike ⟨hroom', hcome⟩] at hkept
    have hidle : m.pending = [] := (pending_ahead_nil ahead hpending :)
    have hlive : m.finished = false := (ahead.view Lexer.finished).trans hworks
    cases hstep' : Lexer.step m with
    | error e n =>
      rw [hstep'] at hkept
      cases hkept
    | ok _ n =>
      rw [hstep'] at hkept
      obtain rfl : n.withBound bound = m' := (EStateM.Result.ok.inj hkept).2
      have hpending' : n.pending.map Token.unlined = l'.pending.map Token.unlined :=
        (pending_ahead next :)
      refine ⟨_, n, also.step hidle hlive hstep', next, ?_⟩
      rw [List.map_append, List.map_append, htokens, hpending']
  | @handOut found pending l token passed hpending induction =>
    have here : f.Meets l := by
      refine meets.imp_right fun ⟨hcome, before, last, hlast, hfirm⟩ => ?_
      exact ⟨hcome, token :: before, last, by rw [hpending, List.cons_append, ← hlast], hfirm⟩
    obtain ⟨tokens, m, also, ahead, htokens⟩ := induction here
    have hwaiting : m.pending.map Token.unlined = l.pending.map Token.unlined :=
      (pending_ahead ahead :)
    rw [hpending, List.map_cons, List.map_eq_cons_iff] at hwaiting
    obtain ⟨token', pending', hpending', _, hsame⟩ := hwaiting
    refine ⟨tokens, { m with pending := pending' }, also.handOut hpending', ?_, htokens⟩
    refine ahead.congr rfl rfl rfl rfl ?_
    change ({ (m.withBound bound).memory with pending := pending'.map Token.unlined } : Lexer) =
      { (l.withBound bound).memory with pending := pending.map Token.unlined }
    rw [hsame, ahead.memory]
  | @endMarker found l passed hpending hfinished induction =>
    obtain ⟨tokens, m, also, ahead, htokens⟩ := induction meets
    have hidle : m.pending = [] := (pending_ahead_nil ahead hpending :)
    have hnumber : m.lineNumber = l.lineNumber := ahead.view Lexer.lineNumber
    have hends := also.endMarker hidle ((ahead.view Lexer.finished).trans hfinished)
    exact ⟨_, m, hends, ahead, by rw [List.map_append, List.map_append, htokens, hnumber]⟩

/-- What the calls of the lexer up to a state have handed out, and how the call goes on that leads
to it. -/
theorem handedOut (passed : Passes source tabSize found l) :
    ∃ tokens m count, found = tokens ++ l.pending ∧ Reaches source tabSize tokens m ∧
      (∀ fuel, Lexer.work (count + fuel) m = Lexer.work fuel l) ∧ count ≤ m.toCome + 1 ∧
      (l.finished = false → count + l.toCome ≤ m.toCome) := by
  have call {tokens : List Token} {m n : Lexer} {count : Nat}
      (reached : Reaches source tabSize tokens m)
      (hwork : ∀ fuel, Lexer.work (count + fuel) m = Lexer.work fuel n)
      (hcount : count ≤ m.toCome + 1)
      (hready : ∀ fuel, Lexer.work fuel n = .ok () n) : Lexer.work m.bound m = .ok () n := by
    have hroom := reached.toCome_lt
    rw [← hready (m.bound - count), ← hwork, Nat.add_sub_cancel' (by omega)]
  induction passed with
  | start =>
    exact ⟨[], _, 0, rfl, .start, fun fuel => by rw [Nat.zero_add], Nat.zero_le _,
      fun _ => by omega⟩
  | @step found l l' passed hpending hworks hstep induction =>
    obtain ⟨tokens, m, count, hfound, reached, hwork, hcount, hcome⟩ := induction
    have progress := (passed.moves hstep).progress hworks
    have hleft := hcome hworks
    refine ⟨tokens, m, count + 1, by rw [hfound, hpending, List.append_nil], reached,
      fun fuel => ?_, by omega, fun hlive => ?_⟩
    · have hidle : (l.pending.isEmpty && !l.finished) = true := by simp [hpending, hworks]
      rw [Nat.add_assoc, hwork, Nat.add_comm, Lexer.work, run_bind, run_get]
      simp only [hidle, if_true, run_bind, hstep]
    · have hshorter := progress.reads.resolve_right (by simp [hlive])
      omega
  | @handOut found pending l token passed hpending induction =>
    obtain ⟨tokens, m, count, hfound, reached, hwork, hcount, _⟩ := induction
    have hcall := call reached hwork hcount fun _ => work_ready (by simp [hpending])
    have hpull : Lexer.pull m = .ok token { l with pending } := by
      simp [Lexer.pull, run_bind, run_get, hcall, hpending, run_set]
    exact ⟨tokens ++ [token], _, 0, by simp [hfound, hpending], reached.pull hpull,
      fun fuel => by rw [Nat.zero_add], Nat.zero_le _, fun _ => by omega⟩
  | @endMarker found l passed hpending hfinished induction =>
    obtain ⟨tokens, m, count, hfound, reached, hwork, hcount, _⟩ := induction
    have hcall := call reached hwork hcount fun fuel => work_finished hfinished fuel
    have hpull : Lexer.pull m = .ok (.endMarker l.lineNumber) l := by
      simp [Lexer.pull, run_bind, run_get, hcall, hpending, run_pure]
    exact ⟨tokens ++ [.endMarker l.lineNumber], l, 0, by simp [hfound, hpending],
      reached.pull hpull, fun fuel => by rw [Nat.zero_add], Nat.zero_le _, fun _ => by omega⟩

theorem reaches (passed : Passes source tabSize found l) : ∃ m, Reaches source tabSize found m := by
  obtain ⟨tokens, m, _, hfound, reached, _⟩ := passed.emptied.handedOut
  rw [List.append_nil] at hfound
  exact ⟨m, hfound ▸ reached⟩

end Passes

/-! ### Texts -/

end Lexer

namespace Text

theorem splitLines_flatten_append {lines : List (List Char)} (rest : List Char)
    (hlines : ∀ line ∈ lines, ∃ body, '\n' ∉ body ∧ line = body ++ ['\n']) :
    splitLines (lines.flatten ++ rest) = lines ++ splitLines rest := by
  induction lines with
  | nil => rfl
  | cons line lines induction =>
    obtain ⟨⟨body, hbody, rfl⟩, hmore⟩ := List.forall_mem_cons.mp hlines
    rw [List.flatten_cons, List.append_assoc, List.append_assoc, List.singleton_append,
      splitLines_line _ hbody, induction hmore]
    rfl

theorem ended_of_splitLines {text line : List Char} {before after : List (List Char)}
    (hlines : splitLines text = before ++ line :: after) :
    ∀ line ∈ before, ∃ body, '\n' ∉ body ∧ line = body ++ ['\n'] := by
  intro other hother
  obtain ⟨first, second, rfl⟩ := List.append_of_mem hother
  rw [List.append_assoc, List.cons_append] at hlines
  obtain ⟨body, hbody, hended | ⟨_, _, hnone⟩⟩ := splitLines_shape hlines
  · exact ⟨body, hbody, hended⟩
  · simp at hnone

theorem splitLines_append {head first : List Char} {c : Char} {rest : List Char}
    {lines : List (List Char)} (hhead : '\n' ∉ head)
    (hrest : splitLines (c :: rest) = first :: lines) :
    splitLines (head ++ c :: rest) = (head ++ first) :: lines := by
  induction head with
  | nil => exact hrest
  | cons d head induction =>
    rw [List.mem_cons, not_or] at hhead
    rw [List.cons_append, splitLines, if_neg (Ne.symm hhead.1), induction hhead.2]
    rfl

theorem splitLines_backslash (behind : List Char) :
    ∃ first lines, splitLines ('\\' :: behind) = ('\\' :: first) :: lines := by
  rw [splitLines, if_neg (by decide)]
  cases splitLines behind with
  | nil => exact ⟨[], [], rfl⟩
  | cons line lines => exact ⟨line, lines, rfl⟩

end Text

namespace Lexer

variable {text : List Char} {tabSize : Nat} {before after : List Token} {token : Token} {l : Lexer}

theorem take_of_inside {line : List Char} {number : Nat} {after : List (List Char)}
    (hdrop : (splitLines text).drop number = line :: after)
    (hnumber : token.start.line = number + 1)
    (inside : token.Inside text) :
    token.stop.column ≤ line.length ∧
      line.take token.stop.column = line.take token.start.column ++ token.text.toList := by
  have hlast : token.stop.line = number + 1 := inside.stop.trans hnumber
  have hstart : offset text token.start = upTo text number + token.start.column := by
    rw [offset, hnumber, Nat.add_sub_cancel]
  have hstop : offset text token.stop = upTo text number + token.stop.column := by
    rw [offset, hlast, Nat.add_sub_cancel]
  have hforward := inside.nonempty
  have hwithin : token.stop.column ≤ line.length := by
    have honLine := inside.verbatim.2.2
    rw [OnLine, hstop, hlast, upTo_succ hdrop] at honLine
    omega
  refine ⟨hwithin, ?_⟩
  have hlength : upTo text number + token.stop.column - (upTo text number + token.start.column) =
      token.stop.column - token.start.column := by omega
  rw [inside.verbatim.1, slice, hstart, hstop, hlength, ← List.drop_drop, drop_upTo, hdrop,
    List.flatten_cons, List.drop_append_of_le_length (by omega),
    List.take_append_of_le_length (by rw [List.length_drop]; omega), ← List.take_add,
    Nat.add_sub_cancel' (Nat.le_of_lt hforward)]

theorem not_feed_before {line : List Char} {lines after : List (List Char)} {column : Nat}
    (hlines : splitLines text = lines ++ line :: after) {last : Char}
    (hlast : (line.take column).getLast? = some last) (hblank : isBlank last = false) :
    '\n' ∉ line.take column := by
  obtain ⟨body, hbody, rfl | ⟨rfl, _⟩⟩ := splitLines_shape hlines
  · obtain hlong | hshort := Nat.lt_or_ge body.length column
    · have hwhole : (body ++ ['\n']).length ≤ column := by
        rw [List.length_append, List.length_singleton]
        exact hlong
      rw [List.take_of_length_le hwhole, List.getLast?_concat] at hlast
      obtain rfl := Option.some.inj hlast
      exact absurd hblank (by decide)
    · rw [List.take_append_of_le_length hshort]
      exact fun hmem => hbody (List.mem_of_mem_take hmem)
  · exact fun hmem => hbody (List.mem_of_mem_take hmem)

/-- Behind a token of one line that has just been found, the text may go on with a backslash. -/
theorem exists_fork (cursor : Cursor text l) (placed : Placed text l) (just : l.JustFound token)
    (inside : token.Inside text) (behind : List Char) :
    ∃ (f : Fork) (lines : Source), f.toCome = l.toCome ∧
      Source.ofText text = lines ++ .text (f.head ++ f.left) :: f.leftBelow ∧
      Source.ofText (text.take (offset text token.stop) ++ '\\' :: behind) =
        lines ++ .text (f.head ++ f.right) :: f.rightBelow := by
  obtain ⟨number, after, hnumber, hdrop⟩ := exists_of_physicalLine? inside.line
  generalize token.line.toList = line at hdrop
  obtain ⟨hwithin, htake⟩ := take_of_inside hdrop hnumber inside
  have hsplit : splitLines text = (splitLines text).take number ++ line :: after := by
    rw [← hdrop, List.take_append_drop]
  have hoffset : offset text token.stop = upTo text number + token.stop.column := by
    rw [offset, inside.stop, hnumber, Nat.add_sub_cancel]
  obtain ⟨last, hlast, hblank, hbare⟩ := just.solid
  have hhead : (line.take token.stop.column).getLast? = some last := by
    rw [htake, List.getLast?_append, hlast, Option.some_or]
  have hfeed := not_feed_before hsplit hhead hblank
  obtain ⟨stem, hstem⟩ := List.getLast?_eq_some_iff.mp hhead
  obtain ⟨first, lines, hbehind⟩ := splitLines_backslash behind
  refine ⟨⟨stem, last, line.drop token.stop.column, after.map .text, first, lines.map .text, hblank,
    hbare⟩, ((splitLines text).take number).map .text, ?_, ?_, ?_⟩
  · have hline : l.lineNumber = number + 1 := by
      rw [← hnumber, ← inside.stop, just.stop]
      rfl
    have hunread : l.unread = after.map .text := by
      rw [cursor.unread, hline, ← List.drop_drop, hdrop]
      rfl
    have hrest : l.rest.length = line.length - token.stop.column := by
      rw [Placed, ← just.stop, hoffset, hline, upTo_succ hdrop] at placed
      omega
    rw [Fork.toCome, toCome, hunread, hrest, List.length_drop]
  · rw [Fork.head]
    dsimp only
    rw [← hstem, List.take_append_drop, ← List.map_cons, ← List.map_append, ← hsplit, Source.ofText]
  · have hbefore : text.take (offset text token.stop) =
        ((splitLines text).take number).flatten ++ line.take token.stop.column := by
      rw [hoffset, List.take_add, take_upTo, drop_upTo, hdrop, List.flatten_cons,
        List.take_append_of_le_length hwithin]
    rw [Source.ofText, hbefore, List.append_assoc,
      splitLines_flatten_append _ (ended_of_splitLines hsplit), splitLines_append hfeed hbehind,
      List.map_append, List.map_cons, Fork.head, ← hstem]
    rfl

theorem placed_of_just {p : Position} (frontier : Frontier text l p) (just : l.JustFound token)
    (hfirm : token.IsFirm) : Placed text l := by
  cases frontier with
  | here placed => exact placed
  | literal placed => exact placed
  | body _ _ hlast =>
    have hkind : token.kind = .newline := Option.some.inj (just.kind.symm.trans hlast)
    exact absurd hfirm (Token.not_isFirm (by simp [hkind]))

/-- Whatever a text goes on with behind a backslash, what is found before the backslash stays. -/
theorem Reaches.unbroken
    (reached : Reaches (.ofText text) tabSize (before ++ token :: after) l) (hfirm : token.IsFirm)
    (behind : List Char) :
    ∃ tokens m,
      Reaches (.ofText (text.take (offset text token.stop) ++ '\\' :: behind)) tabSize tokens m ∧
        tokens.map Token.unlined = (before ++ [token]).map Token.unlined := by
  obtain ⟨new, n, passed, hpending, hlive, just⟩ :=
    (Passes.of_reaches reached).exists_justFound (List.append_assoc _ _ _) hfirm
  have covers := ((keepsCover_invariant text).passes (keepsCover_start text tabSize) passed).1
  rw [hlive, if_neg Bool.false_ne_true] at covers
  obtain ⟨p, _, cursor, frontier⟩ := covers
  have placed := placed_of_just frontier just hfirm
  have hkind : token.kind = .name ∨ token.kind = .number ∨ token.kind = .op :=
    hfirm.imp_right (·.imp_right And.left)
  have inside : token.Inside text := by
    refine reached.inside (List.mem_append_right _ List.mem_cons_self) ?_ ?_
    · obtain hkind | hkind | hkind := hkind <;> rw [hkind] <;> decide
    · rintro htext
      obtain ⟨_, hlast, _⟩ := just.solid
      rw [htext] at hlast
      cases hlast
  obtain ⟨f, lines, hcome, hleft, hright⟩ := exists_fork cursor placed just inside behind
  obtain ⟨tokens, m, also, _, htokens⟩ := passed.keeps hleft hright (Nat.le_max_left _ _)
    (Nat.le_max_right _ _) (.inr ⟨hcome, new, token, hpending, hfirm⟩)
  obtain ⟨m, reached⟩ := also.reaches
  exact ⟨tokens, m, reached, htokens⟩

end Lexer

end ShellSyntax
