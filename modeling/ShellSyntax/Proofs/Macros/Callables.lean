import ShellSyntax.Proofs.Lexer.Additions
import ShellSyntax.Proofs.Lexer.Passing

/-!
Names that a macro call can start with. What a lexer remembers of a name is that the last token is
one, and among the words of a command such a name has a dollar sign right before it.
-/

namespace ShellSyntax

/-- `p` comes before `q` in reading order. -/
def Position.Precedes (p q : Position) : Prop :=
  p.line < q.line ∨ p.line = q.line ∧ p.column < q.column

namespace Position

variable {p q r : Position}

theorem Precedes.trans (first : p.Precedes q) (second : q.Precedes r) : p.Precedes r := by
  unfold Precedes at *
  omega

theorem Precedes.ne (precedes : p.Precedes q) : p ≠ q := by
  rintro rfl
  unfold Precedes at precedes
  omega

end Position

/-- The last token is a name that can be called, and it ends at `place`. -/
def EndsInName (tokens : List Token) (place : Position) : Prop :=
  ∃ before name, tokens = before ++ [name] ∧ name.kind = .name ∧
    Spelling.isKeyword name.text = false ∧ name.stop = place

/-- The last tokens are a dollar sign and, right behind it, a name that can be called and ends at
`place`. -/
def EndsInVariable (tokens : List Token) (place : Position) : Prop :=
  ∃ before dollar name, tokens = before ++ [dollar, name] ∧ dollar.isOp "$" = true ∧
    dollar.stop = name.start ∧ name.kind = .name ∧ Spelling.isKeyword name.text = false ∧
    name.stop = place

theorem EndsInName.append {tokens : List Token} {place : Position}
    (ends : EndsInName tokens place) (found : List Token) : EndsInName (found ++ tokens) place := by
  obtain ⟨before, name, rfl, rest⟩ := ends
  exact ⟨found ++ before, name, by simp, rest⟩

theorem EndsInVariable.append {tokens : List Token} {place : Position}
    (ends : EndsInVariable tokens place) (found : List Token) :
    EndsInVariable (found ++ tokens) place := by
  obtain ⟨before, dollar, name, rfl, rest⟩ := ends
  exact ⟨found ++ before, dollar, name, by simp, rest⟩

namespace Lexer

variable {l l' m : Lexer} {kind : TokenKind}

/-! ### What is remembered -/

/-- What is remembered is no name that can be called. -/
def RecallsNoName (l : Lexer) : Prop :=
  ∀ recent ∈ l.recent, recent.isCallable = false

theorem RecallsNoName.of_recent {stop : Position} {leading : Bool}
    (hrecent : l.recent = some ⟨stop, false, leading⟩) : RecallsNoName l := by
  intro recent hmem
  rw [hrecent] at hmem
  rw [← Option.some.inj hmem]

theorem take_filler_recent (l : Lexer) (hfiller : kind.isFiller = true) (count : Nat) :
    (l.take kind count).recent = l.recent := by
  simp [take, addToken, push, remember, hfiller]

theorem arguments_recent {floor : BracketStack} {raw : RawText}
    (moves : Arguments floor m raw l') : l'.recent = m.recent := by
  have pushed (n : Lexer) (captured : RawText) : (n.pushCaptured captured).recent = n.recent := by
    unfold pushCaptured
    split <;> rfl
  induction moves with
  | last hcapture => exact (pushed _ _).trans hcapture.readsOn.recent
  | more hcapture _ _ _ induction =>
    exact (induction.trans (pushed _ _)).trans hcapture.readsOn.recent

theorem leaveBlocks_recent (m : Lexer) (width : Nat) :
    (m.leaveBlocks width).recent = m.recent ∨ RecallsNoName (m.leaveBlocks width) := by
  unfold leaveBlocks
  have dedented {α : Type} (left : List α) (n : Lexer)
      (hn : n.recent = m.recent ∨ RecallsNoName n) :
      (left.foldl (fun n _ => n.addToken .dedent "" m.here m.here) n).recent = m.recent ∨
        RecallsNoName (left.foldl (fun n _ => n.addToken .dedent "" m.here m.here) n) := by
    induction left generalizing n with
    | nil => exact hn
    | cons _ left induction => exact induction _ (.inr (.of_recent rfl))
  exact dedented _ _ (.inl rfl)

/-! ### Moves -/

/-- From `l` to `l'` the cursor moves on and what is remembered stays, or no name that can be called
is remembered, or the last token found is one. -/
inductive Recalls (l l' : Lexer) : Prop
  | same (hrecent : l'.recent = l.recent) (hahead : l.here.Precedes l'.here)
  | none (recalls : RecallsNoName l')
  | name (hstop : ∀ recent ∈ l'.recent, recent.stop = l'.here)
      (hends : ∀ recent ∈ l'.recent, recent.isCallable = true → EndsInName l'.pending l'.here)
      (hcommand : ∀ recent ∈ l'.recent, recent.isCallable = true →
        l'.brackets.inCommand = true → EndsInVariable l'.pending l'.here)

theorem recalls_line (hrecent : l'.recent = l.recent) (hline : l'.lineNumber = l.lineNumber + 1) :
    Recalls l l' :=
  .same hrecent (.inl (by simp [here, hline]))

theorem recalls_column (hrecent : l'.recent = l.recent) (hline : l'.lineNumber = l.lineNumber)
    {count : Nat} (hcolumn : l'.column = l.column + count) (hcount : 0 < count) :
    Recalls l l' :=
  .same hrecent (.inr ⟨by simp [here, hline], by simp only [here, hcolumn]; omega⟩)

theorem recent_take_name (m : Lexer) (count : Nat) {recent : PrecedingToken}
    (hrecent : recent ∈ (m.take .name count).recent) :
    recent.stop = (m.take .name count).here ∧
      recent.isCallable = !Spelling.isKeyword (String.ofList (m.rest.take count)) := by
  rw [← Option.some.inj hrecent]
  exact ⟨rfl, rfl⟩

theorem Plain.recalls {count : Nat} (plain : Plain l kind count) :
    Recalls l (l.take kind count) := by
  have filler (hfiller : kind.isFiller = true) : Recalls l (l.take kind count) :=
    recalls_column (take_filler_recent l hfiller count) (take_frame l kind count).2.2.2.1
      (take_frame l kind count).2.2.2.2.1 plain.extent.1
  cases plain with
  | space | nl | comment => exact filler rfl
  | newline | string | pathSearch | word | number | op | odd => exact .none (.of_recent rfl)
  | @name c rest hrest hstart hhost =>
    generalize hcount : (l.rest.takeWhile Lexeme.continuesName).length = count
    refine .name (fun recent hmem => (recent_take_name l count hmem).1) ?_ ?_
    · intro recent hmem hcallable
      rw [(recent_take_name l count hmem).2, Bool.not_eq_true'] at hcallable
      exact ⟨l.pending, l.cutToken .name count, take_pending l .name count, rfl, hcallable, rfl⟩
    · intro _ _ _ hcommand
      rw [(take_frame l .name count).2.2.2.2.2.2.1, hhost] at hcommand
      cases hcommand

theorem recalls_variable {rest : List Char} (hrest : l.rest = '$' :: rest) (count : Nat) :
    Recalls l ((l.take .op 1).take .name count) := by
  have variable_ {recent : PrecedingToken}
      (hmem : recent ∈ ((l.take .op 1).take .name count).recent)
      (hcallable : recent.isCallable = true) :
      EndsInVariable ((l.take .op 1).take .name count).pending
        ((l.take .op 1).take .name count).here := by
    rw [(recent_take_name _ count hmem).2, Bool.not_eq_true'] at hcallable
    refine ⟨l.pending, l.cutToken .op 1, (l.take .op 1).cutToken .name count, ?_, ?_, rfl, rfl,
      hcallable, rfl⟩
    · rw [take_pending, take_pending, List.append_assoc]
      rfl
    · simp [cutToken, Token.isOp, hrest]
  refine .name (fun recent hmem => (recent_take_name _ count hmem).1) ?_ ?_
  · intro recent hmem hcallable
    obtain ⟨before, dollar, name, hpending, _, _, rest⟩ := variable_ hmem hcallable
    exact ⟨before ++ [dollar], name, by simpa using hpending, rest⟩
  · exact fun recent hmem hcallable _ => variable_ hmem hcallable

theorem Moves.recalls (moves : Moves l l') : Recalls l l' := by
  cases moves with
  | finish => exact .none (.of_recent rfl)
  | resumeLine => exact recalls_line rfl rfl
  | blankLine _ _ _ hm | level _ _ _ hm =>
    rw [hm]
    exact recalls_line rfl rfl
  | commentLine _ _ _ hm =>
    refine recalls_line ?_ ?_
    · rw [takeRest, take_filler_recent _ rfl, take_filler_recent _ rfl, hm]
      rfl
    · simp [takeRest, hm, pastMargin, advance, freshLine, nextLine, enterLine]
  | emptyLine _ _ _ hm =>
    refine recalls_line ?_ ?_
    · rw [takeRest, take_filler_recent _ rfl, hm]
      rfl
    · simp [takeRest, hm, pastMargin, advance, freshLine, nextLine, enterLine]
  | indented => exact .none (.of_recent rfl)
  | @outdented m text rest unread width c _ _ _ hm =>
    obtain hsame | hnone := leaveBlocks_recent m width
    · refine recalls_line (hsame.trans (by rw [hm]; rfl)) ?_
      rw [(leaveBlocks_frame m width).2.2.2.1, hm]
      rfl
    · exact .none hnone
  | stringEnd _ hrest hend =>
    exact recalls_column rfl rfl rfl (Quote.closingEnd?_bounds hend).1
  | stringLine _ hrest | textLine _ hrest =>
    exact recalls_column rfl rfl rfl (List.length_pos_iff.mpr hrest)
  | continuation _ hrest => exact recalls_column rfl rfl rfl (by simp [hrest])
  | @stringStart letters quote houtside hopening =>
    refine recalls_column rfl rfl rfl ?_
    have hbounds := (StringLetters.opening?_bounds hopening).1
    have hsize := Quote.size_pos quote
    omega
  | textEnd => exact .none (.of_recent rfl)
  | textField => exact .none (.of_recent rfl)
  | specField => exact .none (.of_recent rfl)
  | specEnd => exact .none (.of_recent rfl)
  | plain _ hplain => exact hplain.recalls
  | fstringStart _ _ _ hm =>
    rw [hm]
    exact .none (.of_recent rfl)
  | envVariable _ _ hrest => exact recalls_variable hrest _
  | closer => exact .none (.of_recent rfl)
  | opener => exact .none (.of_recent rfl)
  | call _ _ _ hm harguments =>
    rw [hm] at harguments
    exact .none (.of_recent (arguments_recent harguments))
  | rawCommand _ _ _ hm _ hcapture =>
    rw [hm] at hcapture
    exact .none (.of_recent hcapture.readsOn.recent)
  | announce => exact .none (.of_recent rfl)
  | spec _ _ _ hm =>
    rw [hm]
    exact .none (.of_recent rfl)
  | bodyLine => exact .none (.of_recent rfl)
  | bodyBlock => exact .none (.of_recent rfl)

/-! ### Runs -/

/-- A name that can be called and that is remembered ends before the cursor, or is the last token
found. -/
def KnowsName (found : List Token) (l : Lexer) : Prop :=
  ∀ recent ∈ l.recent, recent.isCallable = true → recent.stop.Precedes l.here ∨
    recent.stop = l.here ∧ EndsInName found l.here ∧
      (l.brackets.inCommand = true → EndsInVariable found l.here)

theorem KnowsName.move {found : List Token} (knows : KnowsName found l) (moves : Moves l l') :
    KnowsName (found ++ l'.pending) l' := by
  intro recent hmem hcallable
  cases moves.recalls with
  | same hrecent hahead =>
    rw [hrecent] at hmem
    obtain hbefore | ⟨hstop, _⟩ := knows recent hmem hcallable
    · exact .inl (hbefore.trans hahead)
    · exact .inl (hstop ▸ hahead)
  | none recalls =>
    rw [recalls recent hmem] at hcallable
    cases hcallable
  | name hstop hends hcommand =>
    exact .inr ⟨hstop recent hmem, (hends recent hmem hcallable).append found,
      fun hset => (hcommand recent hmem hcallable hset).append found⟩

theorem knowsName_invariant :
    Invariant fun found l => l.finished = false → KnowsName found l where
  move knows _ hworks moves _ := (knows hworks).move moves
  handOut knows _ hlive := knows hlive
  sourceEnd _ _ hfinished hlive := absurd (hlive.symm.trans hfinished) Bool.false_ne_true

/-- A macro call starts right behind a name that can be called, the last token found. -/
theorem Passes.followsCallable {source : Source} {tabSize : Nat} {found : List Token}
    (passed : Passes source tabSize found l) (hlive : l.finished = false)
    (hfollows : l.followsCallable = true) :
    EndsInName found l.here ∧ (l.brackets.inCommand = true → EndsInVariable found l.here) := by
  obtain ⟨recent, hmem, hcallable⟩ := (Option.any_eq_true _ _).mp hfollows
  rw [Bool.and_eq_true, beq_iff_eq] at hcallable
  have knows := knowsName_invariant.passes (fun _ _ => nofun) passed hlive
  obtain hbefore | ⟨_, hends⟩ := knows recent hmem hcallable.1
  · exact absurd hcallable.2 hbefore.ne
  · exact hends

end Lexer

end ShellSyntax
