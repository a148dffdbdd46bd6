import ShellSyntax.Proofs.Language.Accepted
import ShellSyntax.Proofs.Language.ArgumentPieces
import ShellSyntax.Proofs.Language.StatementBalance

/-!
What the parser makes of a command in brackets: it cuts it into pieces that cover its tokens, and
splits it into arguments where pieces do not touch.
-/

namespace ShellSyntax

namespace Language

open Matcher

variable {α : Type} {W : World} {i j k depth depth' : Nat} {arg : CommandArg} {e : Expr}
  {token : Token}

/-! ### Steps -/

theorem rule_body {r : Rule} {found : r.Node} (hpolicy : rules.policy r = .packrat)
    (hentry : ranking.isEntry r = false) (hlimit : i ≤ W.limit)
    (h : Finds W (@Matcher.rule rules r) i (some found) j) :
    Finds W (body r) i (some found) j := by
  have hanswer := h.rule
  rw [World.answer_eq governs hentry hlimit] at hanswer
  exact .of_step hpolicy hanswer

/-! ### String literals -/

theorem fstringLiteral_cut {found : StringFlags × List FormatPart}
    (h : Finds W fstringLiteral i (some found) j) : StringCut W i j := by
  rcases (attempt_some h).ofKind with ⟨opening, hopening, hstart, hrest⟩ | ⟨_, hnone⟩
  · obtain ⟨parts, k, hinside, hrest⟩ := hrest.needs rfl
    obtain ⟨closed, l, hclosed, hrest⟩ := hrest.bind
    rcases hclosed.ofKind with ⟨closing, hclosing, hend, hclosed⟩ | ⟨_, hclosed⟩
    · cases hclosed
      cases hrest
      exact .formatted hopening hstart hinside hclosing hend
    · cases hclosed
      cases hrest
  · cases hnone

/-- No string literal was read, or some that end here. -/
def Ran (W : World) (i : Nat) (g : Gathered) (j : Nat) : Prop :=
  g.count = 0 ∧ j = i ∨ StringCuts W i j

theorem Ran.cut {g : Gathered} (h : Ran W i g j) (cut : StringCut W j k) : StringCuts W i k := by
  rcases h with ⟨_, rfl⟩ | cuts
  · exact .one cut
  · exact .more cuts cut

theorem stringRunRule_cuts {value : Expr} (h : Finds W stringRunRule i (some value) j) :
    StringCuts W i j ∧ ∀ t, W.token j = .ok t → t.kind ≠ .string := by
  obtain ⟨g, k, hloop, hrest⟩ := h.mark.bind
  have hran : Ran W i g k ∧ ∀ t, W.token k = .ok t → t.kind ≠ .string := by
    refine World.Reads.loop
      (Q := fun g k => Ran W i g k ∧ ∀ t, W.token k = .ok t → t.kind ≠ .string) hloop (Ran W i)
      (.inl ⟨rfl, rfl⟩) fun g k hran outcome l hbody => ?_
    rcases hbody.ofKind with ⟨t, ht, hkind, hbody⟩ | ⟨hother, hbody⟩
    · cases hbody
      exact .inr (hran.cut (.plain ht hkind))
    · obtain ⟨found, m, hfound, hbody⟩ := hbody.bind
      cases found with
      | some found =>
        cases hbody
        exact .inr (hran.cut (fstringLiteral_cut hfound))
      | none =>
        cases hbody
        cases attempt_none hfound
        exact ⟨hran, hother⟩
  split at hrest
  case isTrue => cases hrest
  case isFalse hcount =>
    cases hrest.spanSince
    exact ⟨hran.1.resolve_left fun hnone => hcount hnone.1, hran.2⟩

/-! ### Pieces -/

theorem variableExpr_cut (h : Finds W variableExpr i (some e) j) :
    (∃ name, e.form = .namedVariable name ∧ Cut W (.namedVariable name) i j) ∨
      ∃ value, e.form = .computedVariable value ∧ Cut W (.computedVariable value) i j := by
  rcases (attempt_some h).spelled with ⟨dollar, hdollar, _, htext, hrest⟩ | hrest
  · rcases hrest.ofKind with ⟨id, hid, hkind, hrest⟩ | ⟨_, hnone⟩
    · dsimp only at hrest
      split at hrest
      case isTrue => cases hrest
      case isFalse htouches =>
        obtain ⟨hform, rfl⟩ := node_form hrest
        have hadjacent : dollar.stop = id.start := by simpa [Token.touches] using htouches
        exact .inl ⟨id.text, hform, .namedVariable hdollar htext hid hkind hadjacent⟩
    · cases hnone
  · obtain ⟨hopen, hrest⟩ := hrest.expects
    obtain ⟨value, k, hvalue, hrest⟩ := hrest.needs rfl
    obtain ⟨hclose, hrest⟩ := hrest.expects
    obtain ⟨hform, rfl⟩ := node_form hrest
    exact .inr ⟨value, hform, .computedVariable hopen hvalue hclose⟩

theorem envArg_cut (h : Finds W envArg i (some arg) j) : Cut W arg i j := by
  obtain ⟨found, k, hfound, hrest⟩ := h.bind
  cases found with
  | none => cases hrest
  | some e =>
    rcases variableExpr_cut hfound with ⟨name, hform, cut⟩ | ⟨value, hform, cut⟩
    · simp only [Option.map_some, hform] at hrest
      cases hrest
      exact cut
    · simp only [Option.map_some, hform] at hrest
      cases hrest
      exact cut

theorem hostArg_cut (ht : W.token i = .ok token) (hop : token.kind = .op)
    (htext : token.text = "@(") (h : Finds W hostArg i (some arg) j) : Cut W arg i j := by
  obtain ⟨_, _, hrest⟩ := (attempt_some h).next
  obtain ⟨value, k, hvalue, hrest⟩ := hrest.needs rfl
  obtain ⟨hclose, hrest⟩ := hrest.expects
  cases hrest
  exact .hostExpr ⟨token, ht, .inl hop, htext⟩ hvalue hclose

theorem rawArg_cut (ht : W.token i = .ok token) (hop : token.kind = .op)
    (htext : token.text = "!") (h : Finds W rawArg i (some arg) j) : Cut W arg i j := by
  obtain ⟨_, _, hrest⟩ := (attempt_some h).next
  rcases hrest.ofKind with ⟨raw, hraw, hkind, hrest⟩ | ⟨_, hnone⟩
  · cases hrest
    exact .raw ⟨token, ht, .inl hop, htext⟩ hraw hkind
  · cases hnone

theorem searchArg_cut (h : Finds W searchArg i (some arg) j) : Cut W arg i j := by
  obtain ⟨found, k, hfound, hrest⟩ := h.bind
  rcases hfound.mark.ofKind with ⟨t, ht, hkind, hfound⟩ | ⟨_, hnone⟩
  · cases found with
    | none => cases hfound.spanSince
    | some e =>
      obtain ⟨hform, rfl⟩ := node_form hfound
      simp only [Option.map_some, hform] at hrest
      cases hrest
      exact .pathSearch ht hkind
  · cases hnone
    cases hrest

/-- What the rule for commands matches at `i` is a command in brackets. -/
def IsCommand (W : World) (i : Nat) : Prop :=
  ∀ e j, Finds W commandExpr i (some e) j →
    ∃ command, e.form = .pipeline command ∧ CommandLiteral W command i j

/-- And so it is at all operators from `i` on. -/
def AreCommands (W : World) (i : Nat) : Prop :=
  ∀ a t, i ≤ a → W.token a = .ok t → t.kind = .op → IsCommand W a

theorem AreCommands.mono (h : AreCommands W i) (hle : i ≤ j) : AreCommands W j :=
  fun a t ha => h a t (Nat.le_trans hle ha)

theorem commandArg_cut (hcommands : IsCommand W i) (h : Finds W commandArg i (some arg) j) :
    Cut W arg i j := by
  obtain ⟨found, k, hfound, hrest⟩ := h.bind
  cases found with
  | none => cases hrest
  | some e =>
    obtain ⟨command, hform, literal⟩ := hcommands e k hfound
    simp only [Option.map_some, hform] at hrest
    cases hrest
    exact .pipeline literal

theorem same_cut {m : Match (Option CommandArg)}
    (hm : ∀ arg j, Finds W m i (some arg) j → Cut W arg i j)
    (h : Finds W (do return (← m).map fun arg => (arg, depth)) i (some (arg, depth')) j) :
    Cut W arg i j := by
  obtain ⟨found, k, hfound, hrest⟩ := h.bind
  cases found with
  | none => cases hrest
  | some found =>
    cases hrest
    exact hm _ _ hfound

theorem wordArg_cut (ht : W.token i = .ok token) (htext : IsText token)
    (h : Finds W (wordArg token) i (some arg) j) : Cut W arg i j := by
  obtain ⟨_, _, hrest⟩ := h.next
  cases hrest
  exact .word ht htext

theorem operatorPiece_cut (hcommands : IsCommand W i) (ht : W.token i = .ok token)
    (hop : token.kind = .op) (h : Finds W (operatorPiece token depth) i (some (arg, depth')) j) :
    Cut W arg i j := by
  have sign {table : List String} (hsigns : table ⊆ textSigns) (htext : token.text ∈ table) :
      IsText token :=
    .inr (.inr (.inr ⟨hop, hsigns htext⟩))
  unfold operatorPiece at h
  dsimp only at h
  split at h
  case isTrue => exact same_cut (fun _ _ => envArg_cut) h
  split at h
  case isTrue htext => exact same_cut (fun _ _ => hostArg_cut ht hop (beq_iff_eq.mp htext)) h
  split at h
  case isTrue => exact same_cut (fun _ _ => commandArg_cut hcommands) h
  split at h
  case isTrue htext => exact same_cut (fun _ _ => rawArg_cut ht hop (beq_iff_eq.mp htext)) h
  split at h
  case isTrue htext =>
    have htext := sign (by decide) (List.mem_singleton.mpr (beq_iff_eq.mp htext))
    exact same_cut (fun _ _ => wordArg_cut ht htext) h
  split at h
  case isTrue htext =>
    obtain ⟨_, _, hrest⟩ := h.next
    cases hrest
    exact .redirect ht hop (List.contains_iff_mem.mp htext)
  split at h
  case isTrue htext =>
    have htext := sign (by decide) (List.contains_iff_mem.mp htext)
    exact same_cut (fun _ _ => wordArg_cut ht htext) h
  split at h
  case isTrue htext =>
    rw [Bool.and_eq_true] at htext
    have htext := sign (by decide) (List.contains_iff_mem.mp htext.1)
    exact same_cut (fun _ _ => wordArg_cut ht htext) h
  case isFalse => cases h

theorem piece_cut (hcommands : token.kind = .op → IsCommand W i) (ht : W.token i = .ok token)
    (hlimit : token.kind = .fstringStart → i ≤ W.limit)
    (h : Finds W (piece token depth) i (some (arg, depth')) j) : Cut W arg i j := by
  unfold piece at h
  split at h
  case h_1 hkind => exact same_cut (fun _ _ => wordArg_cut ht (.inl hkind)) h
  case h_2 hkind => exact same_cut (fun _ _ => wordArg_cut ht (.inr (.inl hkind))) h
  case h_3 hkind => exact same_cut (fun _ _ => wordArg_cut ht (.inr (.inr (.inl hkind)))) h
  case h_4 hkind =>
    obtain ⟨_, _, hrest⟩ := h.next
    cases hrest
    exact .quoted ht hkind
  case h_5 hkind =>
    obtain ⟨found, k, hfound, hrest⟩ := h.bind
    cases found with
    | none => cases hrest
    | some value =>
      cases hrest
      obtain ⟨cuts, hend⟩ := stringRunRule_cuts (rule_body rfl rfl (hlimit hkind) hfound)
      exact .strings ht hkind cuts hend hfound
  case h_6 hkind => exact same_cut (fun _ _ => searchArg_cut) h
  case h_7 hkind => exact operatorPiece_cut (hcommands hkind) ht hkind h
  case h_8 => cases h

/-! ### Commands -/

section

variable {W : NestedWorld} {closer : String}

theorem piece_le (ht : W.token i = .ok token)
    (h : Finds W.toWorld (piece token depth) i (some (arg, depth')) j) : i ≤ j := by
  let deepest := (W.read (W.answer grammar ranking) (piece token depth) i).depth
  let W' := W.uncounted deepest 0
  have hcounted : Comes W' (Fin.last deepest) (piece token depth) i
      (Counted W' (Fin.last deepest) token depth i) := piece_counted ht False.elim
  have hcallee : Callee.LeadsIn (safe W') (closed W') W'.inward (W.answer grammar ranking) :=
    fun n r j => NestedWorld.call_uncounted deepest 0 _ n r j
  exact (hcounted.read hcallee (TalliedWorld.affords (Nat.le_refl deepest)) _ _ h).le

/-- The pieces from `i` to `j` make these arguments, and there is one. -/
def Splits (W : World) (i : Nat) (argv : List CommandArg) (j : Nat) : Prop :=
  i ≤ j ∧ ∃ pieces, Pieces W pieces i j ∧ pieces ≠ [] ∧ argv = arguments W.toFeed pieces

/-- The state of a command that has read these pieces. -/
structure Collects (W : World) (i : Nat) (pieces : List Piece) (state : CommandState) (j : Nat) :
    Prop where
  le : i ≤ j
  covers : Pieces W pieces i j
  argv : state.1 = arguments W.toFeed pieces
  stopped : pieces ≠ [] → state.2.2 = some (W.stopBefore j)

namespace Collects

variable {pieces : List Piece} {state : CommandState}

theorem splits (collects : Collects W.toWorld i pieces state j) {argv : List CommandArg}
    (h : (if state.1.isEmpty = true then none else some state.1) = some argv) :
    Splits W.toWorld i argv j := by
  split at h
  case isTrue => cases h
  case isFalse hsome =>
    cases h
    refine ⟨collects.le, pieces, collects.covers, ?_, collects.argv⟩
    rintro rfl
    rw [collects.argv] at hsome
    exact hsome rfl

theorem piece (collects : Collects W.toWorld i pieces state j) (ht : W.token j = .ok token)
    (hle : j ≤ k) (cut : Cut W.toWorld arg j k) (depth : Nat) :
    Collects W.toWorld i (pieces ++ [⟨arg, j, k⟩])
      (addPiece state.1 arg (state.2.2 == some token.start), depth,
        (W.lastToken? k).map Token.stop) k where
  le := Nat.le_trans collects.le hle
  covers := .concat collects.covers cut
  argv := by
    rw [collects.argv]
    refine addPiece_arguments (p := ⟨arg, j, k⟩) (fun last hlast => ?_) collects.covers.plain
    have hsome : pieces ≠ [] := by
      rintro rfl
      cases hlast
    have hstart : W.startOf j = token.start := by simp only [Feed.startOf, ht]
    rw [collects.stopped hsome, Piece.touches, (collects.covers.last hlast).1, hstart]
    rfl
  stopped := fun _ => cut.shown.stop_lastToken?

end Collects

theorem commandWords_cut {argv : List CommandArg} (hcommands : AreCommands W.toWorld i)
    (h : Finds W.toWorld (commandWords closer) i (some argv) j) : Splits W.toWorld i argv j := by
  -- between two rounds the arguments are those that the pieces read so far make
  refine World.Reads.loop (Q := fun found j => ∀ argv, found = some argv →
      Splits W.toWorld i argv j) h (fun state j => ∃ pieces, Collects W.toWorld i pieces state j)
    ⟨[], Nat.le_refl i, .nil i, rfl, by simp⟩ ?_ argv rfl
  rintro ⟨argv, depth, stopped⟩ k ⟨pieces, collects⟩ outcome l hbody
  obtain ⟨token, ht, hbody⟩ := hbody.peek
  split at hbody
  case isTrue =>
    cases hbody
    exact fun argv => collects.splits
  case isFalse =>
    obtain ⟨found, m, hfound, hbody⟩ := hbody.bind
    cases found with
    | none =>
      cases attempt_none hfound
      cases hbody
      exact fun argv => collects.splits
    | some found =>
      obtain ⟨arg, depth'⟩ := found
      have hpiece := attempt_some hfound
      have hlimit (hkind : token.kind = .fstringStart) : k ≤ W.limit :=
        Nat.le_of_lt (W.ended k token ht (by simp [hkind]))
      have cut := piece_cut (hcommands k token collects.le ht) ht hlimit hpiece
      have hgathers := collects.piece ht (piece_le ht hpiece) cut depth'
      cases hbody.lastToken?
      exact ⟨_, hgathers⟩

theorem oneOf_link {table : List (String × α)} {a : α}
    (h : Finds W.toWorld (oneOf table) i (some a) j) :
    ∃ text, (text, a) ∈ table ∧ W.Spells i text ∧ j = i + 1 := by
  induction table with
  | nil => cases h
  | cons entry others induction =>
    rcases h.accepts with ⟨hspells, h⟩ | h
    · cases h
      exact ⟨entry.1, List.mem_cons_self, hspells, rfl⟩
    · obtain ⟨text, hmem, hspells, hj⟩ := induction h
      exact ⟨text, List.mem_cons_of_mem _ hmem, hspells, hj⟩

theorem many_adds {m : Match (Option α)} {items : List α} (holds : List α → Nat → Prop)
    (h : Finds W.toWorld (many m) i items j) (hstart : holds [] i)
    (hround : ∀ items j item k, holds items j → Finds W.toWorld m j (some item) k →
      holds (items ++ [item]) k) : holds items j := by
  refine World.Reads.loop h holds hstart fun items j hitems outcome l hbody => ?_
  obtain ⟨found, k, hfound, hbody⟩ := hbody.mark.bind
  cases found with
  | none =>
    cases hbody.reset
    exact hitems
  | some item =>
    have hadded := hround items j item k hitems hfound
    have hbody := hbody.mark
    split at hbody <;> cases hbody <;> exact hadded

variable {stages : List PipelineStage} {stage : PipelineStage}

theorem furtherStage_cut (hcommands : AreCommands W.toWorld i)
    (before : i ≤ j ∧ Stages W.toWorld stages i j)
    (h : Finds W.toWorld (furtherStage closer) j (some stage) k) :
    i ≤ k ∧ Stages W.toWorld (stages ++ [stage]) i k := by
  obtain ⟨hle, before⟩ := before
  obtain ⟨link, m, hlink, hrest⟩ := (attempt_some h).needs rfl
  obtain ⟨text, hmem, hspells, rfl⟩ := oneOf_link hlink
  obtain ⟨argv, m, hargv, hrest⟩ := hrest.needs rfl
  obtain ⟨hle', pieces, hpieces, hsome, rfl⟩ :=
    commandWords_cut (hcommands.mono (Nat.le_succ_of_le hle)) hargv
  cases hrest
  exact ⟨by omega, .further before hmem hspells hpieces hsome⟩

theorem stages_cut (hcommands : AreCommands W.toWorld i)
    (h : Finds W.toWorld (Language.stages closer) i (some stages) j) :
    Stages W.toWorld stages i j := by
  obtain ⟨argv, k, hargv, hrest⟩ := h.needs rfl
  obtain ⟨hle, pieces, hpieces, hsome, rfl⟩ := commandWords_cut hcommands hargv
  obtain ⟨others, l, hothers, hrest⟩ := hrest.bind
  have hall := many_adds (fun others j => i ≤ j ∧
      Stages W.toWorld (⟨none, arguments W.toFeed pieces⟩ :: others) i j)
    hothers ⟨hle, .first hpieces hsome⟩ fun others j stage k hbefore hstage =>
      furtherStage_cut hcommands hbefore hstage
  cases hrest
  exact hall.2

/-! ### Literals -/

theorem rejectEmptyCommand_reads {opening : Token} {w : World}
    (h : Finds w (rejectEmptyCommand opening closer) i () j) : j = i := by
  obtain ⟨t, ht, hrest⟩ := h.peek
  split at hrest
  · cases hrest
  · exact hrest.pure.2

theorem captured_literal {capture : CaptureMode} {e : Expr}
    (hcommands : AreCommands W.toWorld (i + 1))
    (h : Finds W.toWorld (captured capture) i (.matched e) j) :
    ∃ command, e.form = .pipeline command ∧ CommandLiteral W.toWorld command i j := by
  rcases h.mark.spelled with ⟨opening, hopening, hkind, htext, hrest⟩ | hnone
  · have hopen : W.Spells i capture.opener := ⟨opening, hopening, hkind, htext⟩
    obtain ⟨found, k, hfound, hrest⟩ :=
      (World.Reads.diagnosed (fun _ => rejectEmptyCommand_reads) hrest).bind
    cases found with
    | none => cases hrest
    | some stages =>
      have hstages := stages_cut hcommands hfound
      rcases hrest.accepts with ⟨hsign, hrest⟩ | hrest
      · rcases hrest.accepts with ⟨hclose, hrest⟩ | hrest
        · cases hrest.spanSince
          exact ⟨_, rfl, .background hopen hstages hsign hclose⟩
        · cases hrest
      · rcases hrest.accepts with ⟨hclose, hrest⟩ | hrest
        · cases hrest.spanSince
          exact ⟨_, rfl, .waited hopen hstages hclose⟩
        · cases hrest
  · cases hnone

theorem firstOf_literal {captures : List CaptureMode} {e : Expr}
    (hcommands : AreCommands W.toWorld (i + 1))
    (h : Finds W.toWorld (firstOf (captures.map captured)) i (some e) j) :
    ∃ command, e.form = .pipeline command ∧ CommandLiteral W.toWorld command i j := by
  induction captures with
  | nil => cases h
  | cons capture others induction =>
    obtain ⟨found, k, hfound, hrest⟩ := h.mark.bind
    cases found with
    | matched value =>
      cases hrest
      exact captured_literal hcommands hfound
    | failed => exact induction hrest.reset
    | refused => cases hrest.reset

/-- Whatever the rule for commands matches is a command in brackets, and so are those in it. -/
theorem isCommand (W : NestedWorld) (i : Nat) (hlimit : i ≤ W.limit) : IsCommand W.toWorld i := by
  induction hleft : W.limit - i using Nat.strongRecOn generalizing i with
  | ind left induction =>
    subst hleft
    intro e j h
    have hbody := rule_body (r := .commandExpr) rfl rfl hlimit h
    -- a command in this one begins behind its opener, so less of the stream is left there
    refine firstOf_literal (fun a t ha ht hop => ?_) hbody
    have hbefore : a < W.limit := W.ended a t ht (by simp [hop])
    exact induction _ (by omega) a (Nat.le_of_lt hbefore) rfl

end

end Language

namespace Program

open ShellSyntax.Language

/-- Wherever the parser matches a command in brackets, it has cut it into pieces that cover its
tokens, and pieces that follow each other are in one argument exactly if they touch and neither is a
redirection or raw text. But the string literals behind an f-string are no pieces of their own. -/
theorem arguments_of_touching_pieces (source : Source) (origin : Option Origin)
    (options : ParseOptions) (diagnosing : Bool) {i : Nat} {s s' : Session rules} {e : Expr}
    (calls : (pass source origin options diagnosing).Calls ranking grammar .commandExpr i s)
    (hrun : Parser.runRule grammar .commandExpr s = .ok (some e) s') :
    ∃ command, e.form = .pipeline command ∧
      CommandLiteral (pass source origin options diagnosing).world command i s'.mark := by
  have hanswer := calls.answer governs rules_distinguished rfl hrun
  have fresh := TokenStream.fresh_ofLexer source options.tabSize origin
  let W := TokenStream.nestedWorld source options.tabSize origin fresh diagnosing
  exact isCommand W i calls.limit e s'.mark (.of_answer hanswer)

/-- How many arguments the commands have. -/
def argumentCounts (e : Expr) : List Nat :=
  match e.form with
  | .pipeline command => command.stages.map fun stage => stage.argv.length
  | _ => []

theorem arguments_of_touching_pieces_path :
    ∃ e s, Parser.runRule grammar .commandExpr
        (start (.ofString "$(echo $HOME/bin \"a\"b >c | wc)") none .default) = .ok (some e) s ∧
      argumentCounts e = [5, 1] ∧
      let world := (pass (.ofString "$(echo $HOME/bin \"a\"b >c | wc)") none .default false).world
      ∃ command, e.form = .pipeline command ∧ CommandLiteral world command 0 s.mark := by
  obtain ⟨e, s, calls, hrun, hcounts⟩ := match_of_read
    (.ofString "$(echo $HOME/bin \"a\"b >c | wc)") none .default .commandExpr
    (fun e _ => argumentCounts e == [5, 1]) 9000 rfl (by decide +kernel) (by decide +kernel)
  exact ⟨e, s, hrun, beq_iff_eq.mp hcounts, arguments_of_touching_pieces _ _ _ _ calls hrun⟩

/-- An f-string and a string literal are one argument although there is a space between them. -/
theorem fstring_takes_string_behind_space :
    let world := (pass (.ofString "$(echo f\"a\" \"b\")") none .default false).world
    ∃ e s, (pass (.ofString "$(echo f\"a\" \"b\")") none .default false).Calls ranking grammar
        .commandExpr 0 (start (.ofString "$(echo f\"a\" \"b\")") none .default) ∧
      Parser.runRule grammar .commandExpr
        (start (.ofString "$(echo f\"a\" \"b\")") none .default) = .ok (some e) s ∧
      ([1, 2, 4, 5, 6].map fun i => (world.token i).toOption.map Token.kind) =
        [some .word, some .fstringStart, some .fstringEnd, some .string, some .op] ∧
      world.stopBefore 2 ≠ world.startOf 2 ∧ world.stopBefore 5 ≠ world.startOf 5 ∧
      argumentCounts e = [2] := by
  obtain ⟨e, s, calls, hrun, hcounts⟩ := match_of_read (.ofString "$(echo f\"a\" \"b\")") none
    .default .commandExpr (fun e _ => argumentCounts e == [2]) 3000 rfl (by decide +kernel)
    (by decide +kernel)
  exact ⟨e, s, calls, hrun, by decide +kernel, by decide +kernel, by decide +kernel,
    beq_iff_eq.mp hcounts⟩

end Program

end ShellSyntax
