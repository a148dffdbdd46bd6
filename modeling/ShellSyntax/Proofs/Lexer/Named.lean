import ShellSyntax.Proofs.Lexer.Reaches

/-!
What the lexer remembers of the token before the cursor comes from a token that it has found, and so
does the name that a macro call starts with.
-/

namespace ShellSyntax.Lexer

/-- What is remembered behind `token`. -/
structure Leaves (token : Token) (recent : PrecedingToken) : Prop where
  stop : token.stop = recent.stop
  callable : recent.isCallable = true →
    token.kind = .name ∧ Spelling.isKeyword token.text = false
  leadingWith : recent.isLeadingWith = true → token.kind = .name ∧ token.text = "with"

/-- From `l` to `l'` tokens were found; what is remembered comes from one of them or is what it
was, and no statement with a raw body was announced. -/
structure Remembers (l l' : Lexer) : Prop where
  pending : l.pending <+: l'.pending
  recent : ∀ recent ∈ l'.recent,
    recent ∈ l.recent ∨ ∃ token ∈ l'.pending, Leaves token recent
  withHeader : l'.withHeader = true → l.withHeader = true

namespace Remembers

variable {l m l' : Lexer}

theorem of_same (hrecent : l'.recent = l.recent) (hpending : l'.pending = l.pending)
    (hheader : l'.withHeader = l.withHeader) : Remembers l l' where
  pending := hpending ▸ List.prefix_refl _
  recent _ hmem := .inl (hrecent ▸ hmem)
  withHeader hset := hheader ▸ hset

theorem trans (first : Remembers l m) (second : Remembers m l') : Remembers l l' where
  pending := first.pending.trans second.pending
  recent recent hmem := by
    obtain hbefore | hfound := second.recent recent hmem
    · obtain hbefore | ⟨token, htoken, leaves⟩ := first.recent recent hbefore
      · exact .inl hbefore
      · exact .inr ⟨token, second.pending.subset htoken, leaves⟩
    · exact .inr hfound
  withHeader hset := first.withHeader (second.withHeader hset)

theorem congr (remembers : Remembers l m) (hrecent : l'.recent = m.recent)
    (hpending : l'.pending = m.pending) (hheader : l'.withHeader = m.withHeader) :
    Remembers l l' :=
  remembers.trans (of_same hrecent hpending hheader)

theorem addToken (remembers : Remembers l m) (kind : TokenKind) (text : String)
    (start stop : Position) : Remembers l (m.addToken kind text start stop) := by
  refine remembers.trans ⟨by simp, ?_, ?_⟩
  · intro recent hmem
    by_cases hfiller : kind.isFiller = true
    · refine .inl ?_
      simpa [Lexer.addToken, Lexer.push, remember, hfiller] using hmem
    · have hrecent : recent = ⟨stop, kind == .name && !Spelling.isKeyword text,
          kind == .name && text == "with" && m.lineTokens == 0⟩ := by
        cases kind with
        | space => exact absurd rfl hfiller
        | nl => exact absurd rfl hfiller
        | comment => exact absurd rfl hfiller
        | _ => exact (Option.mem_some.mp hmem).symm
      refine .inr ⟨⟨kind, text, start, stop, m.lineText⟩, by simp, ?_⟩
      subst hrecent
      refine ⟨rfl, fun hcallable => ?_, fun hleading => ?_⟩
      · simpa using hcallable
      · simp only [Bool.and_eq_true, beq_iff_eq] at hleading
        exact hleading.1
  · intro hset
    unfold Lexer.addToken remember at hset
    split at hset
    · exact hset
    · cases kind with
      | newline => exact absurd hset Bool.false_ne_true
      | _ => exact hset

theorem pastMargin {text : List Char} {unread : Source}
    (hm : m = (l.freshLine text unread).pastMargin) : Remembers l m := by
  rw [hm]
  exact .of_same rfl rfl rfl

theorem take (remembers : Remembers l m) (kind : TokenKind) (count : Nat) :
    Remembers l (m.take kind count) :=
  (remembers.addToken kind _ m.here (m.advance count).here).congr rfl rfl rfl

theorem push (remembers : Remembers l m) (token : Token) : Remembers l (m.push token) :=
  remembers.trans ⟨List.prefix_append _ _, fun _ => .inl, id⟩

theorem dedents {α : Type} (remembers : Remembers l m) (place : Lexer → Position)
    (left : List α) :
    Remembers l (left.foldl (fun l _ => l.addToken .dedent "" (place l) (place l)) m) := by
  induction left generalizing m with
  | nil => exact remembers
  | cons _ left induction => exact induction (remembers.addToken _ _ _ _)

theorem leaveBlocks (remembers : Remembers l m) (width : Nat) :
    Remembers l (m.leaveBlocks width) :=
  have left : Remembers l { m with indents := m.indents.dropWhile (width < ·) } :=
    remembers.congr rfl rfl rfl
  left.dedents (fun _ => m.here) _

theorem close (remembers : Remembers l m) : Remembers l m.close := by
  have whole : Remembers l (if m.needsNewline then
      m.addToken .newline "" m.lineEnd ⟨m.lineEnd.line, m.lineEnd.column + 1⟩ else m) := by
    split
    · exact remembers.addToken _ _ _ _
    · exact remembers
  have outer := whole.dedents sourceEnd (if m.needsNewline then
      m.addToken .newline "" m.lineEnd ⟨m.lineEnd.line, m.lineEnd.column + 1⟩
      else m).indents.dropLast
  unfold Lexer.close
  dsimp only
  generalize List.foldl _ _ _ = n at outer ⊢
  have reset : Remembers l { n with
      indents := n.indents.drop (n.indents.length - 1), lineText := "" } :=
    outer.congr rfl rfl rfl
  exact (reset.addToken _ _ _ _).congr rfl rfl rfl

theorem flushText {count : Nat} {text : String} {start : Position} {modes : List LexMode}
    (remembers : Remembers l m)
    (hflush : m.flushText count = m.flushed count text start modes) :
    Remembers l (m.flushText count) := by
  rw [hflush]
  unfold Lexer.flushed
  split
  · exact remembers.congr rfl rfl rfl
  · have passed : Remembers l { m.advance count with modes } := remembers.congr rfl rfl rfl
    exact passed.addToken _ _ _ _

theorem readsOn (remembers : Remembers l m) (reads : ReadsOn m l') : Remembers l l' :=
  remembers.congr reads.recent reads.pending reads.withHeader

theorem pushCaptured (remembers : Remembers l m) (raw : RawText) :
    Remembers l (m.pushCaptured raw) := by
  unfold Lexer.pushCaptured
  split
  · exact remembers
  · exact remembers.push _

theorem arguments {floor : BracketStack} {raw : RawText} (remembers : Remembers l m)
    (moves : Arguments floor m raw l') : Remembers l l' := by
  induction moves with
  | last hcapture =>
    exact ((remembers.readsOn hcapture.readsOn).pushCaptured _).congr rfl rfl rfl
  | more hcapture _ _ _ induction =>
    exact induction (((remembers.readsOn hcapture.readsOn).pushCaptured _).congr rfl rfl rfl)

theorem openField {count : Nat} {text : String} {start : Position} {modes : List LexMode}
    (remembers : Remembers l m)
    (hflush : m.flushText count = m.flushed count text start modes) :
    Remembers l (m.openField count) :=
  ((remembers.flushText hflush).take .op 1).congr rfl rfl rfl

end Remembers

/-- The exclamation mark behind a leading `with`. -/
def Announces (l : Lexer) (bang : Token) : Prop :=
  bang.kind = .op ∧ bang.text = "!" ∧
    ∃ recent ∈ l.recent, recent.isLeadingWith = true ∧ recent.stop = bang.start

/-- A raw body lies ahead behind a move if it did before, unless the move announces it. -/
theorem Moves.remembers {l l' : Lexer} (moves : Moves l l') :
    ∃ announced, Remembers { l with withHeader := announced } l' ∧
      (announced = true → l.withHeader = true ∨ ∃ bang ∈ l'.pending, Announces l bang) := by
  have keeps (remembers : Remembers l l') :
      ∃ announced, Remembers { l with withHeader := announced } l' ∧
        (announced = true → l.withHeader = true ∨ ∃ bang ∈ l'.pending, Announces l bang) :=
    ⟨l.withHeader, remembers, .inl⟩
  have same {m : Lexer} (hrecent : m.recent = l.recent) (hpending : m.pending = l.pending)
      (hheader : m.withHeader = l.withHeader) : Remembers l m := .of_same hrecent hpending hheader
  cases moves with
  | finish => exact keeps (Remembers.close (same rfl rfl rfl))
  | resumeLine => exact keeps (same rfl rfl rfl)
  | blankLine _ _ _ hm => exact keeps (.pastMargin hm)
  | commentLine _ _ _ hm => exact keeps (((Remembers.pastMargin hm).take _ _).take _ _)
  | emptyLine _ _ _ hm => exact keeps ((Remembers.pastMargin hm).take _ _)
  | indented _ _ _ hm =>
    have margin := Remembers.pastMargin hm
    refine keeps (Remembers.addToken ?_ _ _ _ _)
    exact margin.congr rfl rfl rfl
  | level _ _ _ hm => exact keeps (.pastMargin hm)
  | outdented _ _ _ hm => exact keeps ((Remembers.pastMargin hm).leaveBlocks _)
  | stringEnd =>
    refine keeps (Remembers.push ?_ _)
    exact same rfl rfl rfl
  | stringLine => exact keeps (same rfl rfl rfl)
  | textLine => exact keeps (same rfl rfl rfl)
  | @textEnd m quote text start outer count hmodes hrest hm hscan =>
    have hflush := flushText_of_text (l := m) (by rw [hm]) count
    have before : Remembers l m := same (by rw [hm]) (by rw [hm]) (by rw [hm])
    exact keeps (((before.flushText hflush).take _ _).congr rfl rfl rfl)
  | @textField m quote text start outer count hmodes hrest hm hscan =>
    have before : Remembers l m := same (by rw [hm]) (by rw [hm]) (by rw [hm])
    exact keeps (before.openField (flushText_of_text (l := m) (by rw [hm]) count))
  | @specField m text start outer count hmodes hrest hm hscan =>
    have before : Remembers l m := same (by rw [hm]) (by rw [hm]) (by rw [hm])
    exact keeps (before.openField (flushText_of_spec (l := m) (by rw [hm]) count))
  | @specEnd m n text start outer count top brackets hmodes hrest hm hscan hn =>
    have hflush := flushText_of_spec (l := m) (by rw [hm]) count
    have before : Remembers l m := same (by rw [hm]) (by rw [hm]) (by rw [hm])
    have flush := before.flushText hflush
    rw [← hn] at flush
    have unbracketed : Remembers l { n with brackets } := flush.congr rfl rfl rfl
    exact keeps ((unbracketed.take _ _).congr rfl rfl rfl)
  | plain => exact keeps (Remembers.take (same rfl rfl rfl) _ _)
  | continuation => exact keeps (same rfl rfl rfl)
  | stringStart => exact keeps (same rfl rfl rfl)
  | @fstringStart m _ _ _ _ _ hm =>
    have taken : Remembers l m := by
      rw [hm]
      exact Remembers.take (same rfl rfl rfl) _ _
    exact keeps (taken.congr rfl rfl rfl)
  | envVariable => exact keeps ((Remembers.take (same rfl rfl rfl) _ _).take _ _)
  | closer =>
    refine keeps (Remembers.take ?_ _ _)
    exact same rfl rfl rfl
  | opener =>
    refine keeps (Remembers.take ?_ _ _)
    exact same rfl rfl rfl
  | @call m _ table houtside hmatch hcallable hm harguments =>
    have opened : Remembers l m := by
      rw [hm]
      refine Remembers.take ?_ _ _
      exact same rfl rfl rfl
    exact keeps (opened.arguments harguments)
  | @rawCommand m n table top brackets raw rest houtside hcommand hmatch hm hbrackets hcapture =>
    have signed : Remembers l m := by
      rw [hm]
      exact Remembers.take (same rfl rfl rfl) _ _
    exact keeps (((signed.readsOn hcapture.readsOn).push _).congr rfl rfl rfl)
  | @announce table announced houtside hhost hmatch hannounced =>
    refine ⟨announced, Remembers.take (.of_same rfl rfl rfl) _ _, fun hset => ?_⟩
    rw [hset, eq_comm, Bool.or_eq_true] at hannounced
    refine hannounced.imp_right fun hany => ?_
    obtain ⟨recent, hrecent, hleading⟩ := (Option.any_eq_true _ _).mp hany
    rw [Bool.and_eq_true, beq_iff_eq] at hleading
    refine ⟨⟨.op, String.ofList (l.rest.take 1), l.here, ⟨l.lineNumber, l.column + 1⟩, l.lineText⟩,
      ?_, rfl, ?_, recent, hrecent, hleading⟩
    · rw [take_pending]
      exact List.mem_append_right _ List.mem_cons_self
    · exact (congrArg String.ofList (Spelling.firstMatch_take hmatch)).trans String.ofList_toList
  | @spec m _ _ _ _ hm =>
    have taken : Remembers l m := by
      rw [hm]
      exact Remembers.take (same rfl rfl rfl) _ _
    exact keeps (taken.congr rfl rfl rfl)
  | @bodyLine m n table text houtside hmatch hfield hheader hbrackets hm hidle hgathers =>
    have signed : Remembers { l with withHeader := false } m := by
      rw [hm]
      exact Remembers.take (.of_same rfl rfl rfl) _ _
    exact ⟨false, (((signed.readsOn hgathers.readsOn).addToken _ _ _ _).congr rfl rfl rfl),
      fun hset => absurd hset Bool.false_ne_true⟩
  | @bodyBlock m n table text first houtside hmatch hfield hheader hbrackets hm hidle hgathers =>
    have signed : Remembers { l with withHeader := false } m := by
      rw [hm]
      exact Remembers.take (.of_same rfl rfl rfl) _ _
    have reads := (readsOn_advance m m.rest.length).trans hgathers.readsOn
    exact ⟨false, (((signed.readsOn reads).addToken _ _ _ _).congr rfl rfl rfl),
      fun hset => absurd hset Bool.false_ne_true⟩

/-- A name that may be called and precedes the cursor is among the tokens handed out and those
still pending. -/
def Named (found : List Token) (l : Lexer) : Prop :=
  ∀ recent ∈ l.recent, recent.isCallable = true → ∃ name ∈ found ++ l.pending,
    name.kind = .name ∧ Spelling.isKeyword name.text = false ∧ name.stop = recent.stop

theorem Named.move {found : List Token} {l l' : Lexer} (named : Named found l)
    (moves : Moves l l') : Named found l' := by
  obtain ⟨_, remembers, _⟩ := moves.remembers
  intro recent hmem hcallable
  obtain hbefore | ⟨token, htoken, leaves⟩ := remembers.recent recent hmem
  · obtain ⟨name, hname, hkind⟩ := named recent hbefore hcallable
    exact ⟨name, ((List.prefix_append_right_inj found).mpr remembers.pending).subset hname, hkind⟩
  · obtain ⟨hkind, hkeyword⟩ := leaves.callable hcallable
    exact ⟨token, List.mem_append_right _ htoken, hkind, hkeyword, leaves.stop⟩

end ShellSyntax.Lexer
