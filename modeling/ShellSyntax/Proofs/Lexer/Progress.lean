import ShellSyntax.Proofs.Lexer.Extents
import ShellSyntax.Proofs.Lexer.Steps

/-!
Every move reads on in the source or ends it, and what a lexer has still to read bounds the tokens
that it has still to hand out.
-/

namespace ShellSyntax.Lexer

/-! ### Dedents -/

theorem dedents_frame {α : Type} (l : Lexer) (place : Lexer → Position)
    (hplace : ∀ l start stop, place (l.addToken .dedent "" start stop) = place l) (left : List α) :
    let l' := left.foldl (fun l _ => l.addToken .dedent "" (place l) (place l)) l
    l'.unread = l.unread ∧ l'.rest = l.rest ∧ l'.lineText = l.lineText ∧
    l'.lineNumber = l.lineNumber ∧ l'.column = l.column ∧ l'.indents = l.indents ∧
    l'.brackets = l.brackets ∧ l'.modes = l.modes ∧ l'.continued = l.continued ∧
    l'.pending = l.pending ++
      List.replicate left.length ⟨.dedent, "", place l, place l, l.lineText⟩ ∧
    l'.tabSize = l.tabSize ∧ l'.finished = l.finished ∧ l'.bound = l.bound ∧
    l'.overflowed = l.overflowed := by
  induction left generalizing l with
  | nil => simp
  | cons _ left induction =>
    have frame := induction (l.addToken .dedent "" (place l) (place l))
    simp only [addToken_frame, hplace] at frame
    simp only [List.foldl_cons, frame, and_true, true_and]
    simp [List.replicate_succ]

/-- The tokens that end the blocks deeper than `width`. -/
def dedentsTo (l : Lexer) (width : Nat) : List Token :=
  List.replicate (l.indents.takeWhile (width < ·)).length ⟨.dedent, "", l.here, l.here, l.lineText⟩

@[simp] theorem leaveBlocks_frame (l : Lexer) (width : Nat) :
    (l.leaveBlocks width).unread = l.unread ∧
    (l.leaveBlocks width).rest = l.rest ∧
    (l.leaveBlocks width).lineText = l.lineText ∧
    (l.leaveBlocks width).lineNumber = l.lineNumber ∧
    (l.leaveBlocks width).column = l.column ∧
    (l.leaveBlocks width).indents = l.indents.dropWhile (width < ·) ∧
    (l.leaveBlocks width).brackets = l.brackets ∧
    (l.leaveBlocks width).modes = l.modes ∧
    (l.leaveBlocks width).continued = l.continued ∧
    (l.leaveBlocks width).pending = l.pending ++ l.dedentsTo width ∧
    (l.leaveBlocks width).tabSize = l.tabSize ∧
    (l.leaveBlocks width).finished = l.finished ∧
    (l.leaveBlocks width).bound = l.bound ∧
    (l.leaveBlocks width).overflowed = l.overflowed :=
  dedents_frame { l with indents := l.indents.dropWhile (width < ·) } (fun _ => l.here)
    (fun _ _ _ => rfl) _

theorem leaveBlocks_pending (l : Lexer) (width : Nat) :
    (l.leaveBlocks width).pending = l.pending ++ l.dedentsTo width := by
  simp only [leaveBlocks_frame]

/-- The line end that the source lacks. -/
def missingNewline (l : Lexer) : List Token :=
  if l.needsNewline then
    [⟨.newline, "", l.lineEnd, ⟨l.lineEnd.line, l.lineEnd.column + 1⟩, l.lineText⟩]
  else []

/-- The tokens after the last line. -/
def closingTokens (l : Lexer) : List Token :=
  l.missingNewline ++
    (List.replicate (l.indents.length - 1) ⟨.dedent, "", l.sourceEnd, l.sourceEnd, l.lineText⟩ ++
      [⟨.endMarker, "", l.sourceEnd, l.sourceEnd, ""⟩])

@[simp] theorem close_frame (l : Lexer) :
    l.close.unread = l.unread ∧
    l.close.rest = l.rest ∧
    l.close.lineNumber = l.lineNumber ∧
    l.close.column = l.column ∧
    l.close.indents = l.indents.drop (l.indents.length - 1) ∧
    l.close.brackets = l.brackets ∧
    l.close.modes = l.modes ∧
    l.close.continued = l.continued ∧
    l.close.pending = l.pending ++ l.closingTokens ∧
    l.close.tabSize = l.tabSize ∧
    l.close.finished = true ∧
    l.close.bound = l.bound ∧
    l.close.overflowed = l.overflowed := by
  have hplace : ∀ (l : Lexer) start stop, (l.addToken .dedent "" start stop).sourceEnd =
      l.sourceEnd := fun l start stop => by simp [sourceEnd]
  unfold close
  cases hneeds : l.needsNewline with
  | false =>
    have frame := dedents_frame l sourceEnd hplace l.indents.dropLast
    simp only [closingTokens, missingNewline, hneeds, Bool.false_eq_true, if_false]
    generalize List.foldl _ l _ = m at frame ⊢
    simp [frame, sourceEnd]
  | true =>
    have frame := dedents_frame (l.addToken .newline "" l.lineEnd
      ⟨l.lineEnd.line, l.lineEnd.column + 1⟩) sourceEnd hplace l.indents.dropLast
    simp only [addToken_frame] at frame
    simp only [closingTokens, missingNewline, hneeds, if_true, addToken_frame]
    have hplace' : (l.addToken .newline "" l.lineEnd
      ⟨l.lineEnd.line, l.lineEnd.column + 1⟩).sourceEnd = l.sourceEnd := by simp [sourceEnd]
    rw [hplace'] at frame
    generalize List.foldl _ (l.addToken .newline "" l.lineEnd _) _ = m at frame ⊢
    simp [frame, sourceEnd]

theorem close_pending (l : Lexer) : l.close.pending = l.pending ++ l.closingTokens := by
  simp only [close_frame]

/-! ### Literal text -/

/-- Past `count` characters, with `text` handed out. -/
def flushed (l : Lexer) (count : Nat) (text : String) (start : Position) (modes : List LexMode) :
    Lexer :=
  if text.isEmpty then { l.advance count with modes }
  else { l.advance count with modes }.addToken .fstringMiddle text start (l.advance count).here

theorem flushText_of_text {l : Lexer} {quote : Quote} {text : String} {start : Position}
    {outer : List LexMode} (hmodes : l.modes = .fstringText quote text start :: outer)
    (count : Nat) :
    l.flushText count = l.flushed count (text ++ String.ofList (l.rest.take count)) start
      (.fstringText quote "" start :: outer) := by
  simp only [flushText, addText, hmodes, flushed]
  rfl

theorem flushText_of_spec {l : Lexer} {text : String} {start : Position} {outer : List LexMode}
    (hmodes : l.modes = .fstringSpec text start :: outer) (count : Nat) :
    l.flushText count = l.flushed count (text ++ String.ofList (l.rest.take count)) start
      (.fstringSpec "" start :: outer) := by
  simp only [flushText, addText, hmodes, flushed]
  rfl

/-- The token of literal text, unless it is empty. -/
def literalText (l : Lexer) (count : Nat) (text : String) (start : Position) : List Token :=
  if text.isEmpty then []
  else [⟨.fstringMiddle, text, start, ⟨l.lineNumber, l.column + count⟩, l.lineText⟩]

@[simp] theorem flushed_frame (l : Lexer) (count : Nat) (text : String) (start : Position)
    (modes : List LexMode) :
    (l.flushed count text start modes).unread = l.unread ∧
    (l.flushed count text start modes).rest = l.rest.drop count ∧
    (l.flushed count text start modes).lineText = l.lineText ∧
    (l.flushed count text start modes).lineNumber = l.lineNumber ∧
    (l.flushed count text start modes).column = l.column + count ∧
    (l.flushed count text start modes).indents = l.indents ∧
    (l.flushed count text start modes).brackets = l.brackets ∧
    (l.flushed count text start modes).modes = modes ∧
    (l.flushed count text start modes).continued = l.continued ∧
    (l.flushed count text start modes).pending =
      l.pending ++ l.literalText count text start ∧
    (l.flushed count text start modes).tabSize = l.tabSize ∧
    (l.flushed count text start modes).finished = l.finished ∧
    (l.flushed count text start modes).bound = l.bound := by
  unfold flushed literalText
  split <;> simp [advance, here]

/-! ### Captured text -/

namespace Gathers

variable {l l' : Lexer} {text text' : List Char}

theorem readsOn (moves : Gathers l text l' text') : ReadsOn l l' := by
  induction moves with
  | stop => exact .refl _
  | line _ hunread _ induction => exact (readsOn_nextLine hunread).trans induction

theorem brackets (moves : Gathers l text l' text') : l'.brackets = l.brackets := by
  induction moves with
  | stop => rfl
  | line _ _ _ induction => exact induction

end Gathers

namespace GathersBlock

variable {l l' : Lexer} {text text' : List Char} {first first' : Option Nat} {indent : Nat}

theorem readsOn (moves : GathersBlock indent l text first l' text' first') : ReadsOn l l' := by
  induction moves with
  | sourceEnd => exact .refl _
  | outdented => exact readsOn_measure _ _
  | idle hunread _ _ induction => exact (readsOn_nextLine hunread).trans induction
  | @deeper l _ _ line _ _ _ _ hunread _ _ _ induction =>
    exact (readsOn_measure l line).trans ((readsOn_nextLine (by simpa using hunread)).trans induction)

theorem brackets (moves : GathersBlock indent l text first l' text' first') :
    l'.brackets = l.brackets := by
  induction moves with
  | sourceEnd => rfl
  | outdented => rfl
  | idle _ _ _ induction => exact induction
  | deeper _ _ _ _ induction => exact induction

end GathersBlock

theorem Arguments.progress {floor : BracketStack} {l l' : Lexer} {raw : RawText}
    (moves : Arguments floor l raw l') :
    l'.indents = l.indents ∧ l'.modes = l.modes ∧ l'.continued = l.continued ∧
    l'.tabSize = l.tabSize ∧ l'.finished = l.finished ∧ l'.bound = l.bound ∧
    l'.brackets = floor ∧ l'.toCome ≤ l.toCome ∧
    4 * l'.toCome + l'.pending.length ≤ 4 * l.toCome + l.pending.length + 1 := by
  induction moves with
  | @last l m raw captured rest hcapture hfloor hrest =>
    have reads := hcapture.readsOn
    have hcount : (m.pushCaptured captured).pending.length ≤ m.pending.length + 1 := by
      rw [pushCaptured_pending]
      split <;> simp
    have hsame := pushCaptured_toCome m captured
    have hcome := reads.toCome
    refine ⟨?_, ?_, ?_, ?_, ?_, ?_, ?_, ?_, ?_⟩
    · simp [reads.indents]
    · simp [reads.modes]
    · simp [reads.continued]
    · simp [reads.tabSize]
    · simp [reads.finished]
    · simp [reads.bound]
    · simp [hfloor]
    · change (m.pushCaptured captured).toCome ≤ _
      omega
    · change 4 * (m.pushCaptured captured).toCome + (m.pushCaptured captured).pending.length ≤ _
      rw [← reads.pending]
      omega
  | @more l m l' raw captured rest hcapture hfloor hrest next induction =>
    have reads := hcapture.readsOn
    have hcount : (m.pushCaptured captured).pending.length ≤ m.pending.length + 1 := by
      rw [pushCaptured_pending]
      split <;> simp
    have hsame := pushCaptured_toCome m captured
    have hshorter := toCome_advance
      (show 1 ≤ (m.pushCaptured captured).rest.length by simp [hrest])
    have hcome := reads.toCome
    obtain ⟨hindents, hmodes, hcontinued, htab, hfinished, hbound, hbrackets, hle, hweight⟩ :=
      induction
    have hpending : ((m.pushCaptured captured).advance 1).pending =
      (m.pushCaptured captured).pending := rfl
    rw [hpending] at hweight
    refine ⟨?_, ?_, ?_, ?_, ?_, ?_, hbrackets, by omega, ?_⟩
    · simp [hindents, advance, reads.indents]
    · simp [hmodes, advance, reads.modes]
    · simp [hcontinued, advance, reads.continued]
    · simp [htab, advance, reads.tabSize]
    · simp [hfinished, advance, reads.finished]
    · simp [hbound, advance, reads.bound]
    · rw [← reads.pending]
      omega

/-! ### Moves -/

/-- An upper bound of the number of tokens still to be handed out. -/
def weight (l : Lexer) : Nat :=
  4 * l.toCome + l.pending.length + l.indents.length + if l.finished then 0 else 2

/-- How far a move gets. -/
structure Progress (l l' : Lexer) : Prop where
  tabSize : l'.tabSize = l.tabSize
  bound : l'.bound = l.bound
  toCome : l'.toCome ≤ l.toCome
  weight : l'.weight ≤ l.weight
  reads : l'.toCome < l.toCome ∨ l'.finished = true
  ends : l'.finished = l.finished ∨
    l' = l.close ∧ l.rest = [] ∧ l.unread = [] ∧ l.AtStatement

theorem Plain.extent {l : Lexer} {kind : TokenKind} {count : Nat} (plain : Plain l kind count) :
    0 < count ∧ count ≤ l.rest.length := by
  cases plain with
  | space hrest hspace =>
    rw [hrest]
    exact ⟨by simp [hspace], Lexeme.takeWhile_length_le⟩
  | newline hrest => simp [hrest]
  | nl hrest => simp [hrest]
  | comment hrest =>
    rw [hrest]
    exact ⟨Lexeme.contentLength_pos rfl, Lexeme.contentLength_le _⟩
  | string hopening _ hend =>
    have hletters := (StringLetters.opening?_bounds hopening).1
    have hbounds := Quote.closingEnd?_bounds hend
    rw [List.length_drop] at hbounds
    omega
  | pathSearch hopening hend =>
    have hletters := Lexeme.searchOpening?_bounds hopening
    have hbounds := Lexeme.searchEnd?_bounds hend
    rw [List.length_drop] at hbounds
    omega
  | word _ hlength =>
    have hle := Lexeme.wordLength_le l.rest
    omega
  | number hstart => exact ⟨Lexeme.numberLength_pos hstart, Lexeme.numberLength_le _⟩
  | @name c _ hrest hstart =>
    have hcontinues := Lexeme.continuesName_of_startsName hstart
    rw [hrest]
    exact ⟨by simp [hcontinues], Lexeme.takeWhile_length_le⟩
  | op hmatch =>
    exact ⟨(Spelling.firstMatch_leads hmatch).1, Spelling.firstMatch_le hmatch⟩
  | odd hrest => simp [hrest]

theorem Progress.of_reads {l l' : Lexer} (count : Nat) (htab : l'.tabSize = l.tabSize)
    (hbound : l'.bound = l.bound) (hfinished : l'.finished = l.finished)
    (hcome : l'.toCome + count ≤ l.toCome) (hpositive : 0 < count)
    (htokens : l'.pending.length + l'.indents.length ≤
      l.pending.length + l.indents.length + 4 * count) : Progress l l' where
  tabSize := htab
  bound := hbound
  toCome := by omega
  weight := by
    simp only [Lexer.weight, hfinished]
    omega
  reads := .inl (by omega)
  ends := .inl hfinished

theorem pastMargin_frame {l m : Lexer} {text : List Char} {unread : Source}
    (hm : m = (l.freshLine text unread).pastMargin) :
    m.unread = unread ∧ m.rest = text.drop (text.takeWhile Lexeme.isSpace).length ∧
    m.lineText = String.ofList text ∧ m.lineNumber = l.lineNumber + 1 ∧
    m.column = (text.takeWhile Lexeme.isSpace).length ∧ m.indents = l.indents ∧
    m.brackets = l.brackets ∧ m.modes = l.modes ∧ m.continued = false ∧ m.pending = l.pending ∧
    m.tabSize = l.tabSize ∧ m.finished = l.finished ∧ m.bound = l.bound := by
  simp [hm, pastMargin, freshLine, nextLine, enterLine, advance]

theorem pastMargin_toCome {l m : Lexer} {text : List Char} {unread : Source}
    (hrest : l.rest = []) (hunread : l.unread = .text text :: unread)
    (hm : m = (l.freshLine text unread).pastMargin) : m.toCome + 1 ≤ l.toCome := by
  have hmargin := (readsOn_pastMargin (l.freshLine text unread)).toCome
  have hline := toCome_nextLine hrest hunread
  have hsame : (l.freshLine text unread).toCome = (l.nextLine text unread).toCome := rfl
  rw [hm]
  omega

theorem toCome_take {l : Lexer} {count : Nat} (kind : TokenKind) (hcount : count ≤ l.rest.length) :
    (l.take kind count).toCome + count = l.toCome := by
  have hshorter := toCome_advance hcount
  rw [← hshorter]
  simp [toCome, advance]

theorem openField_finished {l : Lexer} {count : Nat} {modes : List LexMode} {text : String}
    {start : Position} (hflush : l.flushText count = l.flushed count text start modes) :
    (l.openField count).finished = l.finished := by
  simp [openField, hflush, pushMode, pushBracket]

theorem openField_progress {l : Lexer} {count : Nat} {modes : List LexMode} {text : String}
    {start : Position} (hflush : l.flushText count = l.flushed count text start modes)
    (hbrace : (l.rest.drop count).head? = some '\x7b') :
    Progress l (l.openField count) := by
  obtain ⟨rest, hdrop⟩ := List.head?_eq_some_iff.mp hbrace
  have hlength := congrArg List.length hdrop
  rw [List.length_drop, List.length_cons] at hlength
  have hcome := toCome_advance (show count + 1 ≤ l.rest.length by omega)
  have htext : (l.literalText count text start).length ≤ 1 := by
    unfold literalText
    split <;> simp
  refine .of_reads (count + 1) ?_ ?_ ?_ ?_ (Nat.succ_pos _) ?_
  · simp [openField, hflush, pushMode, pushBracket]
  · simp [openField, hflush, pushMode, pushBracket]
  · simp [openField, hflush, pushMode, pushBracket]
  · rw [← hcome]
    simp [openField, hflush, pushMode, pushBracket, toCome, advance]
  · simp [openField, hflush, pushMode, pushBracket]
    omega

theorem Moves.progress {l l' : Lexer} (moves : Moves l l') (hworks : l.finished = false) :
    Progress l l' := by
  cases moves with
  | finish hrest hunread hplace =>
    refine ⟨by simp, by simp, by simp [toCome], ?_, .inr (by simp),
      .inr ⟨rfl, hrest, hunread, hplace⟩⟩
    have hmissing : l.missingNewline.length ≤ 1 := by
      unfold missingNewline
      split <;> simp
    simp [weight, toCome, closingTokens, hworks]
    omega
  | @resumeLine text unread hrest hunread hplace =>
    have hcome := toCome_nextLine hrest hunread
    exact .of_reads _ rfl rfl rfl (Nat.le_of_eq hcome) Nat.one_pos (Nat.le_add_right _ _)
  | blankLine hrest hunread hplace hm hend =>
    have hcome := pastMargin_toCome hrest hunread hm
    have frame := pastMargin_frame hm
    exact .of_reads _ (by simp [frame]) (by simp [frame]) (by simp [frame]) hcome Nat.one_pos
      (by simp [frame])
  | @commentLine m text rest unread hrest hunread hplace hm hcomment =>
    have hcome := pastMargin_toCome hrest hunread hm
    have frame := pastMargin_frame hm
    have htake := toCome_take_le m .comment (Lexeme.contentLength m.rest)
    have htakeRest := toCome_take_le (m.take .comment (Lexeme.contentLength m.rest)) .nl
      (m.take .comment (Lexeme.contentLength m.rest)).rest.length
    refine .of_reads 1 ?_ ?_ ?_ ?_ Nat.one_pos ?_
    · simp [takeRest, frame]
    · simp [takeRest, frame]
    · simp [takeRest, frame]
    · rw [takeRest]
      omega
    · simp [takeRest, frame]
      omega
  | @emptyLine m text rest unread c hrest hunread hplace hm hbreak hc =>
    have hcome := pastMargin_toCome hrest hunread hm
    have frame := pastMargin_frame hm
    have htakeRest := toCome_take_le m .nl m.rest.length
    refine .of_reads 1 ?_ ?_ ?_ ?_ Nat.one_pos ?_
    · simp [takeRest, frame]
    · simp [takeRest, frame]
    · simp [takeRest, frame]
    · rw [takeRest]
      omega
    · simp [takeRest, frame]
      omega
  | indented hrest hunread hplace hm hbreak hwidth hdeeper =>
    have hcome := pastMargin_toCome hrest hunread hm
    have frame := pastMargin_frame hm
    refine .of_reads 1 ?_ ?_ ?_ ?_ Nat.one_pos ?_
    · simp [frame]
    · simp [frame]
    · simp [frame]
    · simpa [toCome] using hcome
    · simp [frame]
      omega
  | level hrest hunread hplace hm hbreak hwidth hlevel =>
    have hcome := pastMargin_toCome hrest hunread hm
    have frame := pastMargin_frame hm
    exact .of_reads _ (by simp [frame]) (by simp [frame]) (by simp [frame]) hcome Nat.one_pos
      (by simp [frame])
  | @outdented m text rest unread width c hrest hunread hplace hm hbreak hwidth hsh hopen =>
    have hcome := pastMargin_toCome hrest hunread hm
    have frame := pastMargin_frame hm
    refine .of_reads 1 ?_ ?_ ?_ ?_ Nat.one_pos ?_
    · simp [frame]
    · simp [frame]
    · simp [frame]
    · simpa [toCome] using hcome
    · have hsplit := congrArg List.length
        (List.takeWhile_append_dropWhile (p := fun indent => decide (width < indent))
          (l := m.indents))
      rw [List.length_append] at hsplit
      simp only [leaveBlocks_frame, dedentsTo, List.length_append, List.length_replicate]
      rw [frame.2.2.2.2.2.1] at hsplit ⊢
      simp only [frame]
      omega
  | @stringEnd quote text line start outer length hmodes hrest hend =>
    have hbounds := Quote.closingEnd?_bounds hend
    have hcome := toCome_advance hbounds.2
    exact .of_reads _ rfl rfl rfl (Nat.le_of_eq hcome) hbounds.1 (by
      simp [push, advance]
      omega)
  | stringLine hmodes hrest hend hgoes =>
    have hcome := toCome_advance (Nat.le_refl l.rest.length)
    exact .of_reads _ rfl rfl rfl (Nat.le_of_eq hcome) (List.length_pos_iff.mpr hrest)
      (Nat.le_add_right _ _)
  | textLine hmodes hrest hscan =>
    have hcome := toCome_advance (Nat.le_refl l.rest.length)
    exact .of_reads _ rfl rfl rfl (Nat.le_of_eq hcome) (List.length_pos_iff.mpr hrest)
      (Nat.le_add_right _ _)
  | @textEnd m quote text start outer count hmodes hrest hm hscan =>
    obtain ⟨_, hcloses⟩ := scanText_quote hscan
    rw [Nat.sub_zero] at hcloses
    have hsize := size_le_of_closes hcloses
    have hpositive := quote.size_pos
    rw [List.length_drop] at hsize
    have hcome := toCome_advance (show count + quote.size ≤ l.rest.length by omega)
    have hflush := flushText_of_text (l := m) (by rw [hm]) count
    have htext : (m.literalText count (text ++ String.ofList (m.rest.take count))
        (if text.isEmpty then l.here else start)).length ≤ 1 := by
      unfold literalText
      split <;> simp
    refine .of_reads (count + quote.size) ?_ ?_ ?_ ?_ (by omega) ?_
    · simp only [hflush, take_frame, flushed_frame]
      rw [hm]
    · simp only [hflush, take_frame, flushed_frame]
      rw [hm]
    · simp only [hflush, take_frame, flushed_frame]
      rw [hm]
    · rw [← hcome]
      simp only [hflush, toCome, take_frame, flushed_frame, advance, List.drop_drop]
      exact Nat.le_of_eq (by rw [hm])
    · simp only [hflush, take_frame, flushed_frame, List.length_append]
      simp only [hm] at htext ⊢
      simp only [List.length_singleton]
      omega
  | @textField m quote text start outer count hmodes hrest hm hscan =>
    obtain ⟨_, hbrace⟩ := scanText_field hscan
    have hflush := flushText_of_text (l := m) (by rw [hm]) count
    have hprogress := openField_progress hflush (by rwa [hm])
    have hfinished := openField_finished hflush
    subst hm
    exact ⟨hprogress.tabSize, hprogress.bound, hprogress.toCome, hprogress.weight,
      hprogress.reads, .inl hfinished⟩
  | @specField m text start outer count hmodes hrest hm hscan =>
    obtain ⟨_, hbrace⟩ := scanSpec_field hscan
    have hflush := flushText_of_spec (l := m) (by rw [hm]) count
    have hprogress := openField_progress hflush (by rwa [hm])
    have hfinished := openField_finished hflush
    subst hm
    exact ⟨hprogress.tabSize, hprogress.bound, hprogress.toCome, hprogress.weight,
      hprogress.reads, .inl hfinished⟩
  | @specEnd m n text start outer count top brackets hmodes hrest hm hscan hn hbrackets htop =>
    obtain ⟨_, hbrace⟩ := scanSpec_close hscan
    rw [Nat.sub_zero] at hbrace
    obtain ⟨rest, hdrop⟩ := List.head?_eq_some_iff.mp hbrace
    have hlength := congrArg List.length hdrop
    rw [List.length_drop, List.length_cons] at hlength
    have hcome := toCome_advance (show count + 1 ≤ l.rest.length by omega)
    have hflush := flushText_of_spec (l := m) (by rw [hm]) count
    rw [hflush] at hn
    have htext : (m.literalText count (text ++ String.ofList (m.rest.take count))
        (if text.isEmpty then l.here else start)).length ≤ 1 := by
      unfold literalText
      split <;> simp
    refine .of_reads (count + 1) ?_ ?_ ?_ ?_ (by omega) ?_
    · simp [hn, hm]
    · simp [hn, hm]
    · simp [hn, hm]
    · rw [← hcome]
      simp [hn, hm, toCome, advance]
    · simp only [hn, take_frame, flushed_frame, List.length_append]
      simp only [hm] at htext ⊢
      simp only [List.length_singleton]
      omega
  | @plain kind count houtside hplain =>
    have hextent := hplain.extent
    have hcome := toCome_take kind hextent.2
    exact .of_reads _ (by simp) (by simp) (by simp) (Nat.le_of_eq hcome) hextent.1 (by
      simp
      omega)
  | continuation houtside hrest hend =>
    have hcome := toCome_advance (Nat.le_refl l.rest.length)
    exact .of_reads _ rfl rfl rfl (Nat.le_of_eq hcome) (by simp [hrest]) (Nat.le_add_right _ _)
  | @stringStart letters quote houtside hopening hplain hend hgoes =>
    have hletters := (StringLetters.opening?_bounds hopening).1
    have hpositive := quote.size_pos
    have hcome := toCome_advance (Nat.le_refl l.rest.length)
    exact .of_reads _ rfl rfl rfl (Nat.le_of_eq hcome) (by omega) (Nat.le_add_right _ _)
  | @fstringStart m letters quote houtside hopening hformatted hm =>
    have hletters := (StringLetters.opening?_bounds hopening).1
    have hpositive := quote.size_pos
    have hcome := toCome_take .fstringStart hletters
    rw [← hm] at hcome
    refine @Progress.of_reads l (m.pushMode _) _ ?_ ?_ ?_ (Nat.le_of_eq hcome) (by omega) ?_
    · simp [pushMode, hm]
    · simp [pushMode, hm]
    · simp [pushMode, hm]
    · simp [pushMode, hm]
      omega
  | envVariable houtside hcommand hrest hstart =>
    have hcome := toCome_take .op (show 1 ≤ l.rest.length by simp [hrest])
    have hname := toCome_take_le (l.take .op 1) .name
      ((l.take .op 1).rest.takeWhile Lexeme.continuesName).length
    refine .of_reads 1 ?_ ?_ ?_ ?_ Nat.one_pos ?_
    · simp [takeWhile]
    · simp [takeWhile]
    · simp [takeWhile]
    · rw [takeWhile]
      omega
    · simp [takeWhile]
      omega
  | @closer table text top brackets houtside hmatch hcloser hbrackets =>
    have hcome : ({ l with
        brackets, modes := if l.atFieldLevel then l.modes.drop 1 else l.modes }.take
          .op 1).toCome + 1 = l.toCome := by
      have hpositive := (Spelling.firstMatch_leads hmatch).1
      have hle := Spelling.firstMatch_le hmatch
      exact toCome_take _ (by
        change 1 ≤ l.rest.length
        omega)
    exact .of_reads _ (by simp) (by simp) (by simp) (Nat.le_of_eq hcome) Nat.one_pos (by
      simp
      omega)
  | @opener table opener houtside hmatch =>
    have hpositive := (Spelling.firstMatch_leads hmatch).1
    have hcome := toCome_take (l := l.pushBracket (.opened opener l.brackets.realm l.here)) .op
      (Spelling.firstMatch_le hmatch)
    exact .of_reads _ (by simp [pushBracket]) (by simp [pushBracket]) (by simp [pushBracket])
      (Nat.le_of_eq hcome) hpositive (by
        simp [pushBracket]
        omega)
  | @call m _ table houtside hmatch hcallable hm harguments =>
    have hcome := toCome_take (l := l.pushBracket ⟨.bangParen, .raw, l.here⟩) .op
      (Spelling.firstMatch_le hmatch)
    rw [← hm] at hcome
    have hlength : Opener.bangParen.spelling.length = 2 := by decide
    rw [hlength] at hcome
    change m.toCome + 2 = l.toCome at hcome
    have hpending : m.pending.length = l.pending.length + 1 := by simp [hm, pushBracket]
    obtain ⟨hindents, hmodes, hcontinued, htab, hfinished, hbound, hbrackets, hle, hcount⟩ :=
      harguments.progress
    refine ⟨?_, ?_, by omega, ?_, .inl (by omega), .inl ?_⟩
    · rw [htab, hm]
      simp [pushBracket]
    · rw [hbound, hm]
      simp [pushBracket]
    · simp only [weight, hindents, hfinished]
      have hsame : m.finished = l.finished := by simp [hm, pushBracket]
      have hindent : m.indents = l.indents := by simp [hm, pushBracket]
      rw [hsame, hindent]
      omega
    · rw [hfinished, hm]
      simp [pushBracket]
  | @rawCommand m n table top brackets raw rest houtside hcommand hmatch hm hbrackets hcapture
      hfloor hrest =>
    have hcome : m.toCome + 1 = l.toCome := by
      have hle := Spelling.firstMatch_le hmatch
      rw [hm]
      exact toCome_take _ hle
    have reads := hcapture.readsOn
    have hreads := reads.toCome
    refine .of_reads 1 ?_ ?_ ?_ ?_ Nat.one_pos ?_
    · simp [push, reads.tabSize, hm]
    · simp [push, reads.bound, hm]
    · simp [push, reads.finished, hm]
    · change n.toCome + 1 ≤ l.toCome
      omega
    · simp [push, reads.pending, reads.indents, hm]
      omega
  | @announce table announced houtside hhost hmatch =>
    have hcome : ({ l with withHeader := announced }.take .op 1).toCome + 1 = l.toCome :=
      toCome_take .op (Spelling.firstMatch_le hmatch)
    exact .of_reads _ (by simp) (by simp) (by simp) (Nat.le_of_eq hcome) Nat.one_pos (by
      simp
      omega)
  | @spec m table houtside hmatch hfield hm =>
    have hcome : (l.take .op 1).toCome + 1 = l.toCome :=
      toCome_take .op (Spelling.firstMatch_le hmatch)
    rw [← hm] at hcome
    refine @Progress.of_reads l (m.pushMode _) _ ?_ ?_ ?_ (Nat.le_of_eq hcome) Nat.one_pos ?_
    · simp [pushMode, hm]
    · simp [pushMode, hm]
    · simp [pushMode, hm]
    · simp [pushMode, hm]
      omega
  | @bodyLine m n table text houtside hmatch hfield hheader hbrackets hm hidle hgathers =>
    have hcome : m.toCome + 1 = l.toCome := by
      rw [hm]
      exact toCome_take (l := { l with withHeader := false }) .op (Spelling.firstMatch_le hmatch)
    have reads := hgathers.readsOn
    have hreads := reads.toCome
    refine .of_reads 1 ?_ ?_ ?_ ?_ Nat.one_pos ?_
    · simp [endCapturedLine, skipLine, advance, reads.tabSize, hm]
    · simp [endCapturedLine, skipLine, advance, reads.bound, hm]
    · simp [endCapturedLine, skipLine, advance, reads.finished, hm]
    · simp only [toCome] at hreads hcome ⊢
      simp only [endCapturedLine, skipLine, advance, addToken_frame, List.drop_length,
        List.length_nil]
      omega
    · simp [endCapturedLine, skipLine, advance, reads.pending, reads.indents, hm]
      omega
  | @bodyBlock m n table text first houtside hmatch hfield hheader hbrackets hm hidle hgathers =>
    have hcome : m.toCome + 1 = l.toCome := by
      rw [hm]
      exact toCome_take (l := { l with withHeader := false }) .op (Spelling.firstMatch_le hmatch)
    have reads := (readsOn_advance m m.rest.length).trans hgathers.readsOn
    have hreads := reads.toCome
    refine .of_reads 1 ?_ ?_ ?_ ?_ Nat.one_pos ?_
    · simp [endCapturedLine, reads.tabSize, hm]
    · simp [endCapturedLine, reads.bound, hm]
    · simp [endCapturedLine, reads.finished, hm]
    · simp only [toCome] at hreads hcome ⊢
      simp only [endCapturedLine, addToken_frame, List.length_nil]
      omega
    · simp [endCapturedLine, reads.pending, reads.indents, hm]
      omega

end ShellSyntax.Lexer
