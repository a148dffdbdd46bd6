import ShellSyntax.Proofs.Lexer.Onward
import ShellSyntax.Proofs.Lexer.Sequence

/-!
How many steps a lexer may take does not matter as long as they are more than there are characters
and lines to come: with any such bound it does the same.
-/

namespace ShellSyntax.Lexer

open Outcome

def withBound (l : Lexer) (bound : Nat) : Lexer :=
  { l with bound }

/-- The same outcome with another bound. -/
def rebound {α : Type} (bound : Nat) :
    EStateM.Result LexError Lexer α → EStateM.Result LexError Lexer α
  | .ok a l => .ok a (l.withBound bound)
  | .error e l => .error e (l.withBound bound)

/-- More steps than there is work, by the lexer's own bound and by another. -/
def Roomy (bound : Nat) (l : Lexer) : Prop :=
  l.toCome < l.bound ∧ l.toCome < bound

/-! ### Operations -/

section Operations

variable (l : Lexer) (bound : Nat)

@[simp] theorem withBound_frame :
    (l.withBound bound).unread = l.unread ∧
    (l.withBound bound).rest = l.rest ∧
    (l.withBound bound).lineText = l.lineText ∧
    (l.withBound bound).lineNumber = l.lineNumber ∧
    (l.withBound bound).column = l.column ∧
    (l.withBound bound).indents = l.indents ∧
    (l.withBound bound).brackets = l.brackets ∧
    (l.withBound bound).modes = l.modes ∧
    (l.withBound bound).continued = l.continued ∧
    (l.withBound bound).pending = l.pending ∧
    (l.withBound bound).lastSignificant = l.lastSignificant ∧
    (l.withBound bound).tabSize = l.tabSize ∧
    (l.withBound bound).finished = l.finished ∧
    (l.withBound bound).recent = l.recent ∧
    (l.withBound bound).lineTokens = l.lineTokens ∧
    (l.withBound bound).withHeader = l.withHeader ∧
    (l.withBound bound).bound = bound :=
  ⟨rfl, rfl, rfl, rfl, rfl, rfl, rfl, rfl, rfl, rfl, rfl, rfl, rfl, rfl, rfl, rfl, rfl⟩

@[simp] theorem withBound_views :
    (l.withBound bound).here = l.here ∧
    (l.withBound bound).sourceEnd = l.sourceEnd ∧
    (l.withBound bound).lineEnd = l.lineEnd ∧
    (l.withBound bound).indent = l.indent ∧
    (l.withBound bound).atFieldLevel = l.atFieldLevel ∧
    (l.withBound bound).unclosedError = l.unclosedError ∧
    (l.withBound bound).followsCallable = l.followsCallable ∧
    (l.withBound bound).needsNewline = l.needsNewline :=
  ⟨rfl, rfl, rfl, rfl, rfl, rfl, rfl, rfl⟩

theorem remember_withBound (kind : TokenKind) (text : String) (stop : Position) :
    (l.withBound bound).remember kind text stop = (l.remember kind text stop).withBound bound := by
  unfold remember
  split
  · rfl
  · cases kind <;> rfl

theorem addToken_withBound (kind : TokenKind) (text : String) (start stop : Position) :
    (l.withBound bound).addToken kind text start stop =
      (l.addToken kind text start stop).withBound bound := by
  rw [addToken, remember_withBound]
  rfl

theorem take_withBound (kind : TokenKind) (count : Nat) :
    (l.withBound bound).take kind count = (l.take kind count).withBound bound := by
  simp only [take]
  rw [addToken_withBound]
  rfl

theorem flushText_withBound (count : Nat) :
    (l.withBound bound).flushText count = (l.flushText count).withBound bound := by
  simp only [flushText, withBound_frame]
  split
  · split
    · rfl
    · exact addToken_withBound { l.advance count with modes := .fstringText _ "" _ :: _ } bound
        _ _ _ _
  · split
    · rfl
    · exact addToken_withBound { l.advance count with modes := .fstringSpec "" _ :: _ } bound
        _ _ _ _
  · rfl

theorem openField_withBound (count : Nat) :
    (l.withBound bound).openField count = (l.openField count).withBound bound := by
  simp only [openField]
  rw [flushText_withBound, take_withBound]
  rfl

theorem dedents_withBound {α : Type} (place : Lexer → Position)
    (hplace : ∀ l : Lexer, place (l.withBound bound) = place l) (left : List α) :
    left.foldl (fun l _ => l.addToken .dedent "" (place l) (place l)) (l.withBound bound) =
      (left.foldl (fun l _ => l.addToken .dedent "" (place l) (place l)) l).withBound bound := by
  induction left generalizing l with
  | nil => rfl
  | cons _ left induction =>
    rw [List.foldl_cons, List.foldl_cons, hplace, addToken_withBound]
    exact induction _

theorem leaveBlocks_withBound (width : Nat) :
    (l.withBound bound).leaveBlocks width = (l.leaveBlocks width).withBound bound :=
  dedents_withBound { l with indents := l.indents.dropWhile (width < ·) } bound
    (fun _ => l.here) (fun _ => rfl) _

theorem close_withBound : (l.withBound bound).close = l.close.withBound bound := by
  have first (start stop : Position) :
      (if l.needsNewline then (l.withBound bound).addToken .newline "" start stop
        else l.withBound bound) =
        (if l.needsNewline then l.addToken .newline "" start stop else l).withBound bound := by
    split
    · exact addToken_withBound l bound _ _ _ _
    · rfl
  simp only [close, withBound_views, first, withBound_frame]
  generalize (if l.needsNewline then l.addToken .newline "" _ _ else l) = m
  rw [dedents_withBound m bound sourceEnd (fun _ => rfl)]
  generalize m.indents.dropLast.foldl _ m = n
  exact congrArg (fun l => { l with finished := true })
    (addToken_withBound { n with indents := _, lineText := "" } bound _ _ _ _)

theorem pushCaptured_withBound (raw : RawText) :
    (if raw.isBlank then l.withBound bound
      else (l.withBound bound).push (raw.toToken l.lineText)) =
      (l.pushCaptured raw).withBound bound := by
  unfold pushCaptured
  split <;> rfl

end Operations

/-! ### Steps -/

/-- From `l` on the two steps do the same, whichever of the two bounds holds. -/
def Alike {α : Type} (bound : Nat) (l : Lexer) (step also : Lex α) : Prop :=
  step (l.withBound bound) = rebound bound (also l)

namespace Alike

variable {α β : Type} {bound : Nat} {l m n : Lexer}

theorem pure (a : α) : Alike bound l (pure a) (pure a) :=
  rfl

theorem throw (e : LexError) : Alike bound l (throw e : Lex α) (throw e) :=
  rfl

theorem set (hn : n = m.withBound bound) : Alike bound l (set n) (set m) := by
  rw [hn]
  rfl

theorem modify {f g : Lexer → Lexer} (hf : f (l.withBound bound) = (g l).withBound bound) :
    Alike bound l (modify f) (modify g) := by
  rw [Alike, run_modify, run_modify, hf]
  rfl

theorem getBind {f g : Lexer → Lex β} (next : Alike bound l (f (l.withBound bound)) (g l)) :
    Alike bound l (get >>= f) (get >>= g) :=
  next

theorem setBind {f g : PUnit → Lex β} (hn : n = m.withBound bound)
    (next : Alike bound m (f ⟨⟩) (g ⟨⟩)) :
    Alike bound l (MonadStateOf.set n >>= f) (MonadStateOf.set m >>= g) := by
  rw [hn]
  exact next

theorem ite {p : Prop} [Decidable p] {yes yes' no no' : Lex α}
    (hyes : p → Alike bound l yes yes') (hno : ¬ p → Alike bound l no no') :
    Alike bound l (if p then yes else no) (if p then yes' else no') := by
  by_cases hp : p
  · rw [if_pos hp, if_pos hp]
    exact hyes hp
  · rw [if_neg hp, if_neg hp]
    exact hno hp

theorem bind {first first' : Lex α} {f g : α → Lex β} (hfirst : Alike bound l first first')
    (next : ∀ a m, first' l = .ok a m → Alike bound m (f a) (g a)) :
    Alike bound l (first >>= f) (first' >>= g) := by
  rw [Alike] at hfirst
  rw [Alike, run_bind, run_bind, hfirst]
  cases hrun : first' l with
  | ok a m => exact next a m hrun
  | error e m => rfl

end Alike

variable {bound : Nat} {l : Lexer}

theorem Roomy.leadsOn {m : Lexer} (roomy : Roomy bound l) (ahead : LeadsOn l m) :
    Roomy bound m := by
  obtain ⟨own, other⟩ := roomy
  have hcome := ahead.toCome
  have hbound := ahead.bound
  exact ⟨by omega, by omega⟩

/-! ### Lines and brackets -/

theorem takeLine_alike : Alike bound l takeLine takeLine := by
  apply Alike.getBind
  simp only [withBound_frame]
  cases l.unread with
  | nil => exact .pure none
  | cons line unread =>
    refine .setBind rfl ?_
    cases line with
    | text text => exact .pure (some text)
    | undecodable => exact .throw .undecodable

theorem enterNextLine_alike : Alike bound l enterNextLine enterNextLine := by
  apply Alike.bind takeLine_alike
  intro text m _
  cases text with
  | none => exact .pure false
  | some text => exact .bind (.modify rfl) fun _ _ _ => .pure true

theorem closeBracket_alike (closer : Char) :
    Alike bound l (closeBracket closer) (closeBracket closer) := by
  apply Alike.getBind
  simp only [withBound_frame, withBound_views]
  cases BracketStack.close l.brackets closer l.here with
  | ok closed => exact .set rfl
  | error e => exact .throw e

/-! ### Raw text -/

theorem captureChars_alike (count : Nat) (raw : RawText) :
    Alike bound l (captureChars count raw) (captureChars count raw) := by
  rw [Alike, captureChars_eq, captureChars_eq]
  rfl

theorem captureChar_alike (raw : RawText) :
    Alike bound l (captureChar raw) (captureChar raw) := by
  apply Alike.getBind
  simp only [withBound_frame]
  cases l.rest with
  | nil => exact .pure raw
  | cons c rest => exact .setBind rfl (.pure _)

theorem toCome_of_enterNextLine {m : Lexer} {entered : Bool}
    (hrun : enterNextLine l = .ok entered m) (hentered : ¬ (!entered) = true) :
    m.toCome < l.toCome := by
  obtain ⟨rfl, _⟩ | ⟨_, text, unread, hunread, rfl⟩ := enterNextLine_ok.mp hrun
  · simp at hentered
  · exact toCome_nextLine_lt hunread

theorem captureQuoted_alike {quote : Quote} {start : Position} {fuel fuel' : Nat} {raw : RawText}
    (hfuel : l.toCome < fuel) (hfuel' : l.toCome < fuel') :
    Alike bound l (captureQuoted quote start fuel raw) (captureQuoted quote start fuel' raw) := by
  induction fuel generalizing fuel' l raw with
  | zero => omega
  | succ fuel induction =>
    cases fuel' with
    | zero => omega
    | succ fuel' =>
      unfold captureQuoted
      apply Alike.getBind
      simp only [withBound_frame]
      cases hrest : l.rest with
      | nil =>
        refine .ite (fun _ => .throw _) fun _ => ?_
        refine .bind enterNextLine_alike fun entered m hrun => ?_
        refine .ite (fun _ => .throw _) fun hentered => ?_
        have hshorter := toCome_of_enterNextLine hrun hentered
        exact induction (by omega) (by omega)
      | cons c rest =>
        have hcome := toCome_advance (Nat.min_le_right 2 l.rest.length)
        have hchar := toCome_advance (show 1 ≤ l.rest.length by simp [hrest])
        have htwo : 1 ≤ min 2 l.rest.length := by
          rw [hrest, List.length_cons]
          omega
        refine .ite (fun _ => ?_) fun _ => .ite (fun _ => captureChars_alike _ _) fun _ =>
          .ite (fun _ => .throw _) fun _ => ?_
        · refine .bind (captureChars_alike 2 raw) fun _ m hrun => ?_
          rw [captureChars_eq] at hrun
          cases hrun
          exact induction (by omega) (by omega)
        · refine .bind (captureChar_alike raw) fun _ m hrun => ?_
          rw [captureChar_eq hrest] at hrun
          cases hrun
          exact induction (by omega) (by omega)

theorem captureString_alike (roomy : Roomy bound l) (quote : Quote) (raw : RawText) :
    Alike bound l (captureString quote raw) (captureString quote raw) := by
  apply Alike.getBind
  refine .bind (captureChars_alike quote.size raw) fun _ m hrun => ?_
  obtain ⟨own, other⟩ := roomy
  have hcome := ((captureChars_strikes l raw quote.size).leadsOn hrun).toCome
  exact captureQuoted_alike (by simpa using by omega) (by omega)

theorem followBracket_alike (c : Char) :
    Alike bound l (followBracket c) (followBracket c) := by
  apply Alike.getBind
  simp only [withBound_views]
  cases Opener.plain? c with
  | some opener => exact .set rfl
  | none => exact .ite (fun _ => closeBracket_alike c) fun _ => .pure _

theorem captureNext_alike (roomy : Roomy bound l) (raw : RawText) :
    Alike bound l (captureNext raw) (captureNext raw) := by
  apply Alike.getBind
  simp only [withBound_frame]
  cases Quote.opening? l.rest with
  | some quote => exact captureString_alike roomy quote raw
  | none =>
    cases l.rest with
    | nil => exact captureChar_alike raw
    | cons c rest =>
      exact .bind (followBracket_alike c) fun _ _ _ => captureChar_alike raw

theorem rest_of_followBracket {m : Lexer} {c : Char} (hrun : followBracket c l = .ok () m) :
    m.rest = l.rest ∧ m.toCome = l.toCome := by
  rw [followBracket, get_bind_ok] at hrun
  cases hopener : Opener.plain? c with
  | some opener =>
    simp only [hopener, set_ok] at hrun
    subst hrun
    exact ⟨rfl, rfl⟩
  | none =>
    simp only [hopener, ite_ok] at hrun
    split at hrun
    · obtain ⟨_, _, _, _, rfl⟩ := closeBracket_ok.mp hrun
      exact ⟨rfl, rfl⟩
    · obtain ⟨_, rfl⟩ := pure_ok.mp hrun
      exact ⟨rfl, rfl⟩

theorem toCome_of_captureNext {m : Lexer} {raw raw' : RawText} (hrest : l.rest ≠ [])
    (hrun : captureNext raw l = .ok raw' m) : m.toCome < l.toCome := by
  obtain ⟨c, rest, hcons⟩ := List.exists_cons_of_ne_nil hrest
  rw [captureNext, get_bind_ok] at hrun
  cases hopening : Quote.opening? l.rest with
  | some quote =>
    have hsize := size_le_of_closes (closes_of_opening hopening)
    have hpositive := quote.size_pos
    have hcome := toCome_advance hsize
    simp only [hopening] at hrun
    rw [captureString, get_bind_ok] at hrun
    simp only [bind_ok, captureChars_eq] at hrun
    obtain ⟨_, _, hchars, hquoted⟩ := hrun
    cases hchars
    have hahead := ((captureQuoted_strikes _ _ quote _ _).leadsOn hquoted).toCome
    rw [Nat.min_eq_left hsize] at hahead
    omega
  | none =>
    simp only [hopening] at hrun
    simp only [hcons, bind_ok] at hrun
    obtain ⟨_, n, hfollow, hchar⟩ := hrun
    obtain ⟨hsame, hcome⟩ := rest_of_followBracket hfollow
    have hleft : n.rest = c :: rest := hsame.trans hcons
    have hshorter := toCome_advance (show 1 ≤ n.rest.length by simp [hleft])
    rw [captureChar_eq hleft] at hchar
    cases hchar
    omega

theorem captureArguments_alike {base fuel fuel' : Nat} {raw : RawText} (roomy : Roomy bound l)
    (hfuel : l.toCome < fuel) (hfuel' : l.toCome < fuel') :
    Alike bound l (captureArguments base fuel raw) (captureArguments base fuel' raw) := by
  -- Every round reads something, so both runs come to their end before their fuel does.
  induction fuel generalizing fuel' l raw with
  | zero => omega
  | succ fuel induction =>
    cases fuel' with
    | zero => omega
    | succ fuel' =>
      unfold captureArguments
      apply Alike.getBind
      simp only [withBound_frame, withBound_views]
      cases hrest : l.rest with
      | nil =>
        refine .bind enterNextLine_alike fun entered m hrun => ?_
        have ahead := (enterNextLine_strikes l raw).leadsOn hrun
        cases entered with
        | false => exact .throw _
        | true =>
          have hshorter := toCome_of_enterNextLine hrun (by simp)
          exact induction (roomy.leadsOn ahead) (by omega) (by omega)
      | cons c rest =>
        refine .ite (fun _ => ?_) fun _ => ?_
        · have hcome := pushCaptured_toCome l raw
          have hbound : (l.pushCaptured raw).bound = l.bound := by simp
          have hshorter := toCome_advance
            (show 1 ≤ (l.pushCaptured raw).rest.length by simp [hrest])
          rw [pushCaptured_withBound, ← pushCaptured]
          obtain ⟨own, other⟩ := roomy
          refine .ite (fun _ => .set rfl) fun _ => .setBind rfl (induction ⟨?_, ?_⟩ ?_ ?_)
          · change _ < (l.pushCaptured raw).bound
            omega
          · omega
          · omega
          · omega
        · refine .bind (captureNext_alike roomy raw) fun raw' m hrun => ?_
          have ahead := (captureNext_strikes l raw).leadsOn hrun
          have hshorter := toCome_of_captureNext (by simp [hrest]) hrun
          exact induction (roomy.leadsOn ahead) (by omega) (by omega)

theorem captureCommandRest_alike {closer : Char} {base fuel fuel' : Nat} {raw : RawText}
    (roomy : Roomy bound l) (hfuel : l.toCome < fuel) (hfuel' : l.toCome < fuel') :
    Alike bound l (captureCommandRest closer base fuel raw)
      (captureCommandRest closer base fuel' raw) := by
  induction fuel generalizing fuel' l raw with
  | zero => omega
  | succ fuel induction =>
    cases fuel' with
    | zero => omega
    | succ fuel' =>
      unfold captureCommandRest
      apply Alike.getBind
      simp only [withBound_frame, withBound_views]
      cases hrest : l.rest with
      | nil =>
        refine .bind enterNextLine_alike fun entered m hrun => ?_
        have ahead := (enterNextLine_strikes l raw).leadsOn hrun
        cases entered with
        | false => exact .throw _
        | true =>
          have hshorter := toCome_of_enterNextLine hrun (by simp)
          exact induction (roomy.leadsOn ahead) (by omega) (by omega)
      | cons c rest =>
        refine .ite (fun _ => .set rfl) fun _ => ?_
        refine .bind (captureNext_alike roomy raw) fun raw' m hrun => ?_
        have ahead := (captureNext_strikes l raw).leadsOn hrun
        have hshorter := toCome_of_captureNext (by simp [hrest]) hrun
        exact induction (roomy.leadsOn ahead) (by omega) (by omega)

theorem captureCall_alike (roomy : Roomy bound l) : Alike bound l captureCall captureCall :=
  .getBind (captureArguments_alike roomy roomy.2 roomy.1)

theorem captureCommand_alike (roomy : Roomy bound l) :
    Alike bound l captureCommand captureCommand := by
  apply Alike.getBind
  simp only [withBound_frame, withBound_views]
  cases l.brackets with
  | nil => exact .throw _
  | cons top brackets => exact captureCommandRest_alike roomy roomy.2 roomy.1

/-! ### Statement bodies -/

theorem gatherLine_alike {fuel fuel' : Nat} {text : List Char} (hfuel : l.toCome < fuel)
    (hfuel' : l.toCome < fuel') :
    Alike bound l (gatherLine fuel text) (gatherLine fuel' text) := by
  induction fuel generalizing fuel' l text with
  | zero => omega
  | succ fuel induction =>
    cases fuel' with
    | zero => omega
    | succ fuel' =>
      unfold gatherLine
      refine .ite (fun _ => ?_) fun _ => .pure text
      refine .bind enterNextLine_alike fun entered m hrun => ?_
      refine .ite (fun _ => .getBind (.throw _)) fun hentered => ?_
      have hshorter := toCome_of_enterNextLine hrun hentered
      exact .getBind (induction (by omega) (by omega))

theorem captureLine_alike (roomy : Roomy bound l) : Alike bound l captureLine captureLine := by
  apply Alike.getBind
  refine .bind (gatherLine_alike roomy.2 roomy.1) fun text m _ => .modify ?_
  simp only [withBound_views]
  rw [addToken_withBound]
  rfl

theorem gatherBlock_alike {indent fuel fuel' : Nat} {text : List Char} {first : Option Nat}
    (hfuel : l.toCome < fuel) (hfuel' : l.toCome < fuel') :
    Alike bound l (gatherBlock indent fuel text first) (gatherBlock indent fuel' text first) := by
  induction fuel generalizing fuel' l text first with
  | zero => omega
  | succ fuel induction =>
    cases fuel' with
    | zero => omega
    | succ fuel' =>
      unfold gatherBlock
      refine .bind takeLine_alike fun line m hrun => ?_
      obtain ⟨rfl, _⟩ | ⟨line, unread, rfl, hunread, rfl⟩ := takeLine_ok.mp hrun
      · exact .pure _
      · have hshorter := toCome_nextLine_lt hunread
        apply Alike.getBind
        simp only [withBound_frame]
        refine .ite (fun _ => .setBind rfl ?_) fun _ => .ite (fun _ => .setBind rfl (.pure _))
          fun _ => .setBind rfl ?_
        · exact induction (show (l.nextLine line unread).toCome < _ by omega)
            (show (l.nextLine line unread).toCome < _ by omega)
        · exact induction (show (l.nextLine line unread).toCome < _ by omega)
            (show (l.nextLine line unread).toCome < _ by omega)

theorem captureBlock_alike (roomy : Roomy bound l) : Alike bound l captureBlock captureBlock := by
  refine .bind (.modify rfl) fun _ m hskip => ?_
  have hcome := (readsOn_advance l l.rest.length).toCome
  obtain ⟨own, other⟩ := roomy
  rw [modify_ok] at hskip
  subst hskip
  apply Alike.getBind
  refine .bind (gatherBlock_alike (Nat.lt_of_le_of_lt hcome other)
    (Nat.lt_of_le_of_lt hcome own)) fun gathered m _ => ?_
  obtain ⟨text, first⟩ := gathered
  cases first with
  | none => exact .getBind (.throw _)
  | some first =>
    refine .modify ?_
    simp only [withBound_views]
    rw [addToken_withBound]
    rfl

theorem captureBody_alike (roomy : Roomy bound l) : Alike bound l captureBody captureBody :=
  .getBind (.ite (fun _ => captureBlock_alike roomy) fun _ => captureLine_alike roomy)

/-! ### Literals -/

theorem startString_alike (letters : List Char) (quote : Quote) :
    Alike bound l (startString letters quote) (startString letters quote) := by
  apply Alike.getBind
  simp only [withBound_frame, withBound_views, take_withBound]
  refine .ite (fun _ => .set rfl) fun _ => ?_
  cases quote.closingEnd? (l.rest.drop (letters.length + quote.size)) with
  | some length => exact .set rfl
  | none => exact .ite (fun _ => .set rfl) fun _ => .throw _

theorem resumeString_alike (quote : Quote) (text : String) (start : Position) (line : String)
    (outer : List LexMode) :
    Alike bound l (resumeString quote text start line outer)
      (resumeString quote text start line outer) := by
  apply Alike.getBind
  simp only [withBound_frame]
  cases quote.closingEnd? l.rest with
  | some length => exact .set rfl
  | none => exact .ite (fun _ => .set rfl) fun _ => .throw _

theorem resumeText_alike (quote : Quote) (text : String) (start : Position)
    (outer : List LexMode) :
    Alike bound l (resumeText quote text start outer) (resumeText quote text start outer) := by
  apply Alike.getBind
  simp only [withBound_views]
  generalize (if text.isEmpty then l.here else start) = start
  generalize hm : ({ l with modes := .fstringText quote text start :: outer } : Lexer) = m
  refine .setBind (m := m) (by rw [← hm]; rfl) (.getBind ?_)
  simp only [withBound_frame]
  cases scanText quote 0 m.rest with
  | lineEnd => exact .set rfl
  | quote count =>
    refine .set ?_
    rw [flushText_withBound, take_withBound]
    rfl
  | field count => exact .set (openField_withBound m bound count)
  | lineBreak count => exact .throw _

theorem resumeSpec_alike (text : String) (start : Position) (outer : List LexMode) :
    Alike bound l (resumeSpec text start outer) (resumeSpec text start outer) := by
  apply Alike.getBind
  simp only [withBound_views]
  generalize (if text.isEmpty then l.here else start) = start
  generalize hm : ({ l with modes := .fstringSpec text start :: outer } : Lexer) = m
  refine .setBind (m := m) (by rw [← hm]; rfl) (.getBind ?_)
  simp only [withBound_frame]
  cases scanSpec 0 m.rest with
  | field count => exact .set (openField_withBound m bound count)
  | close count =>
    refine .setBind (flushText_withBound m bound count) (.bind (closeBracket_alike _) ?_)
    intro _ n _
    refine .modify ?_
    rw [take_withBound]
    rfl
  | broken count => exact .throw _

theorem scanSearch_alike (opening : Nat) :
    Alike bound l (scanSearch opening) (scanSearch opening) := by
  apply Alike.getBind
  simp only [withBound_frame, withBound_views, take_withBound]
  cases Lexeme.searchEnd? (l.rest.drop opening) with
  | some length => exact .set rfl
  | none => exact .throw _

/-! ### Tokens -/

theorem Roomy.take (roomy : Roomy bound l) (kind : TokenKind) (count : Nat) :
    Roomy bound (l.take kind count) := by
  have hcome := toCome_take_le l kind count
  obtain ⟨own, other⟩ := roomy
  exact ⟨by simpa using by omega, by omega⟩

theorem scanCloser_alike (closer : Char) :
    Alike bound l (scanCloser closer) (scanCloser closer) := by
  refine .getBind (.bind (closeBracket_alike closer) fun _ m _ => .modify ?_)
  exact take_withBound
    { m with modes := if l.atFieldLevel then m.modes.drop 1 else m.modes } bound .op 1

theorem scanColon_alike (roomy : Roomy bound l) : Alike bound l scanColon scanColon := by
  apply Alike.getBind
  simp only [withBound_frame, withBound_views, take_withBound]
  refine .ite (fun _ => .set rfl) fun _ => .ite (fun _ => ?_) fun _ => .set rfl
  have room : Roomy bound ({ l with withHeader := false }.take .op 1) :=
    Roomy.take (l := { l with withHeader := false }) roomy .op 1
  exact .setBind (take_withBound { l with withHeader := false } bound .op 1)
    (captureBody_alike room)

theorem scanExclamation_alike (roomy : Roomy bound l) :
    Alike bound l scanExclamation scanExclamation := by
  apply Alike.getBind
  simp only [withBound_frame, withBound_views]
  generalize (l.withHeader || l.recent.any fun r => r.isLeadingWith && r.stop == l.here) =
    withHeader
  refine .ite (fun _ => ?_) fun _ => .set ?_
  · exact .setBind (take_withBound l bound .op 1) (captureCommand_alike (roomy.take .op 1))
  · exact take_withBound { l with withHeader } bound .op 1

theorem scanOpener_alike (roomy : Roomy bound l) (op : String) (opener : Opener) :
    Alike bound l (scanOpener op opener) (scanOpener op opener) := by
  apply Alike.getBind
  simp only [withBound_frame, withBound_views]
  refine .ite (fun _ => ?_) fun _ => .set ?_
  · have room : Roomy bound ((l.pushBracket ⟨opener, .raw, l.here⟩).take .op op.length) :=
      Roomy.take (l := l.pushBracket ⟨opener, .raw, l.here⟩) roomy .op op.length
    exact .setBind (take_withBound (l.pushBracket ⟨opener, .raw, l.here⟩) bound .op op.length)
      (captureCall_alike room)
  · exact take_withBound (l.pushBracket _) bound .op op.length

theorem scanOperator_alike (roomy : Roomy bound l) (op : String) :
    Alike bound l (scanOperator op) (scanOperator op) := by
  unfold scanOperator
  cases closer? op with
  | some closer => exact scanCloser_alike closer
  | none =>
    refine .ite (fun _ => scanColon_alike roomy) fun _ =>
      .ite (fun _ => scanExclamation_alike roomy) fun _ => ?_
    cases Opener.ofSpelling? op with
    | some opener => exact scanOpener_alike roomy op opener
    | none => exact .modify (take_withBound l bound .op op.length)

theorem scanCommandToken_alike (roomy : Roomy bound l) :
    Alike bound l scanCommandToken scanCommandToken := by
  apply Alike.getBind
  simp only [withBound_frame, take_withBound]
  refine .ite (fun _ => .set ?_) fun _ => ?_
  · exact take_withBound (l.take .op 1) bound .name _
  · cases Spelling.firstMatch Spelling.commandOperators l.rest with
    | some op => exact scanOperator_alike roomy op
    | none =>
      cases Lexeme.wordLength l.rest with
      | zero => exact .set rfl
      | succ length => exact .set rfl

theorem scanHostToken_alike (roomy : Roomy bound l) :
    Alike bound l scanHostToken scanHostToken := by
  apply Alike.getBind
  simp only [withBound_frame, take_withBound]
  refine .ite (fun _ => .set rfl) fun _ => .ite (fun _ => .set ?_) fun _ => ?_
  · exact take_withBound l bound .name _
  · cases Spelling.firstMatch Spelling.operators l.rest with
    | some op => exact scanOperator_alike roomy op
    | none => exact .set rfl

theorem scanToken_alike (roomy : Roomy bound l) : Alike bound l scanToken scanToken := by
  apply Alike.getBind
  simp only [withBound_frame, take_withBound]
  cases hrest : l.rest with
  | nil => exact .pure ()
  | cons c after =>
    refine .ite (fun _ => .set (take_withBound l bound .space _)) fun _ =>
      .ite (fun _ => .set (take_withBound l bound _ _)) fun _ =>
      .ite (fun _ => .set rfl) fun _ =>
      .ite (fun _ => .set rfl) fun _ => ?_
    cases StringLetters.opening? (c :: after) with
    | some literal => exact startString_alike literal.1 literal.2
    | none =>
      cases Lexeme.searchOpening? (c :: after) with
      | some opening => exact scanSearch_alike opening
      | none =>
        exact .ite (fun _ => scanCommandToken_alike roomy) fun _ => scanHostToken_alike roomy

/-! ### Layout -/

theorem indentTo_alike (width : Nat) : Alike bound l (indentTo width) (indentTo width) := by
  apply Alike.getBind
  simp only [withBound_frame, withBound_views]
  refine .ite (fun _ => .set ?_) fun _ => .ite (fun _ => ?_) fun _ => .pure ()
  · exact addToken_withBound { l with indents := width :: l.indents } bound .indent "" _ _
  · exact .ite (fun _ => .set (leaveBlocks_withBound l bound width)) fun _ => .throw _

theorem startLine_alike : Alike bound l startLine startLine := by
  apply Alike.getBind
  simp only [withBound_frame]
  refine .setBind rfl (.getBind ?_)
  simp only [withBound_frame, take_withBound]
  generalize (l.measure l.rest).advance _ = m
  cases m.rest with
  | nil => exact .pure ()
  | cons c rest =>
    refine .ite (fun _ => .set ?_) fun _ => .ite (fun _ => .set ?_) fun _ => indentTo_alike _
    · exact take_withBound (m.take .comment _) bound .nl _
    · exact take_withBound m bound .nl _

theorem finish_alike : Alike bound l finish finish := by
  apply Alike.getBind
  simp only [withBound_frame, withBound_views]
  cases l.modes with
  | cons mode outer => cases mode <;> exact .throw _
  | nil =>
    cases l.brackets with
    | cons top brackets => exact .throw _
    | nil => exact .ite (fun _ => .throw _) fun _ => .set (close_withBound l bound)

theorem goToNextLine_alike : Alike bound l goToNextLine goToNextLine := by
  refine .bind takeLine_alike fun text m _ => ?_
  cases text with
  | none => exact finish_alike
  | some text =>
    apply Alike.getBind
    simp only [withBound_frame]
    exact .setBind rfl (.ite (fun _ => startLine_alike) fun _ => .pure ())

theorem step_alike (roomy : Roomy bound l) : Alike bound l step step := by
  apply Alike.getBind
  simp only [withBound_frame]
  refine .ite (fun _ => goToNextLine_alike) fun _ => ?_
  cases l.modes with
  | nil => exact scanToken_alike roomy
  | cons mode outer =>
    cases mode with
    | string quote text start line => exact resumeString_alike quote text start line outer
    | fstringText quote text start => exact resumeText_alike quote text start outer
    | fstringField depth => exact scanToken_alike roomy
    | fstringSpec text start => exact resumeSpec_alike text start outer

/-! ### Runs -/

end ShellSyntax.Lexer
