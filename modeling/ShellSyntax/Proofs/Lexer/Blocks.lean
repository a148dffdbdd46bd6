import Mathlib.Data.List.TakeWhile
import ShellSyntax.Proofs.Lexer.Columns
import ShellSyntax.Proofs.Lexer.InsideLine
import ShellSyntax.Proofs.Lexer.Stacks

/-!
Blocks. The indentation of the open blocks is a strictly rising sequence from the margin on, in
every state of the lexer, the states that failures leave included; so the starts and the ends of
blocks among the tokens of a source match. A line that starts a statement decides by its
indentation alone which blocks are open.
-/

namespace ShellSyntax

/-- The starts of blocks among `tokens`. -/
def indentCount (tokens : List Token) : Nat :=
  (tokens.map (·.kind)).count .indent

/-- The ends of blocks among `tokens`. -/
def dedentCount (tokens : List Token) : Nat :=
  (tokens.map (·.kind)).count .dedent

/-- No block ends that has not started, and all end. -/
structure Balanced (tokens : List Token) : Prop where
  within : ∀ before, before <+: tokens → dedentCount before ≤ indentCount before
  total : dedentCount tokens = indentCount tokens

namespace Lexer

open Outcome

/-! ### Nested blocks -/

/-- Each block is indented deeper than the one around it, and the outermost not at all. -/
structure Nested (indents : List Nat) : Prop where
  margin : indents.getLast? = some 0
  deeper : indents.Pairwise (· > ·)

namespace Nested

variable {indents : List Nat} {width : Nat}

theorem ne_nil (nested : Nested indents) : indents ≠ [] := by
  rintro rfl
  cases nested.margin

theorem start : Nested [0] :=
  ⟨rfl, List.pairwise_singleton _ _⟩

theorem cons (nested : Nested indents) (hdeeper : indents.head?.getD 0 < width) :
    Nested (width :: indents) := by
  cases indents with
  | nil => exact absurd rfl nested.ne_nil
  | cons top outer =>
    refine ⟨nested.margin, List.pairwise_cons.mpr ⟨?_, nested.deeper⟩⟩
    intro other hother
    have htop : top < width := hdeeper
    rcases List.mem_cons.mp hother with rfl | houter
    · exact htop
    · have hbelow : top > other := (List.pairwise_cons.mp nested.deeper).1 other houter
      omega

theorem le_top (nested : Nested indents) (hopen : width ∈ indents) :
    width ≤ indents.head?.getD 0 := by
  cases indents with
  | nil => cases hopen
  | cons top outer =>
    rcases List.mem_cons.mp hopen with rfl | houter
    · exact Nat.le_refl _
    · exact Nat.le_of_lt ((List.pairwise_cons.mp nested.deeper).1 width houter)

theorem of_suffix {left outer : List Nat} (nested : Nested (left ++ outer))
    (houter : outer ≠ []) : Nested outer := by
  refine ⟨?_, (List.pairwise_append.mp nested.deeper).2.1⟩
  have hlast := nested.margin
  rw [List.getLast?_append] at hlast
  cases hmargin : outer.getLast? with
  | none => exact absurd (List.getLast?_eq_none_iff.mp hmargin) houter
  | some last => simpa [hmargin] using hlast

theorem takeWhile_eq (nested : Nested indents) :
    indents.takeWhile (width < ·) = indents.filter (width < ·) ∧
      indents.dropWhile (width < ·) = indents.filter (· ≤ width) := by
  have hdeeper := nested.deeper
  clear nested
  induction indents with
  | nil => exact ⟨rfl, rfl⟩
  | cons top outer induction =>
    obtain ⟨htop, houter⟩ := List.pairwise_cons.mp hdeeper
    obtain ⟨htake, hdrop⟩ := induction houter
    by_cases hwidth : width < top
    · simp [hwidth, htake, hdrop, Nat.not_le.mpr hwidth]
    · have hall : ∀ other ∈ outer, other ≤ width := by
        intro other hother
        have hbelow := htop other hother
        omega
      have hnone : outer.filter (width < ·) = [] :=
        List.filter_eq_nil_iff.mpr fun other hother => by
          simpa using hall other hother
      have hsame : outer.filter (· ≤ width) = outer :=
        List.filter_eq_self.mpr fun other hother => by
          simpa using hall other hother
      simp [hwidth, hnone, hsame, Nat.not_lt.mp hwidth]

end Nested

/-! ### Steps -/

/-- The next piece of work starts `line`, which goes on with nothing before it. -/
structure StartsLine (l : Lexer) (line : List Char) (unread : Source) : Prop where
  pending : l.pending = []
  working : l.finished = false
  rest : l.rest = []
  next : l.unread = .text line :: unread
  place : l.AtStatement

/-- What a step does to the open blocks, and the tokens that tell of it. -/
inductive Shift (l m : Lexer) : Prop
  | stays (hblocks : m.blocks = l.blocks)
  | opens (width : Nat) (hdeeper : l.indent < width) (hindents : m.indents = width :: l.indents)
      (hmarks : m.marks = [.indent]) (hfinished : m.finished = l.finished)
      (htabs : m.tabSize = l.tabSize)
  | ends (left : List Nat) (hindents : l.indents = left ++ m.indents) (hopen : m.indents ≠ [])
      (hmarks : m.marks = List.replicate left.length .dedent)
      (hfinished : m.finished = l.finished ∨ m.indents.length = 1) (htabs : m.tabSize = l.tabSize)

theorem Shift.congr {l m n : Lexer} (hsame : l.blocks = m.blocks) (shift : Shift m n) :
    Shift l n := by
  obtain ⟨hindents, hmarks, hfinished, htabs⟩ : l.indents = m.indents ∧ l.marks = m.marks ∧
      l.finished = m.finished ∧ l.tabSize = m.tabSize := by
    simpa [blocks] using hsame
  cases shift with
  | stays hblocks => exact .stays (hblocks.trans hsame.symm)
  | opens width hdeeper hopened hkinds hends hwidth =>
    refine .opens width ?_ (hindents ▸ hopened) hkinds (hends.trans hfinished.symm)
      (hwidth.trans htabs.symm)
    rw [indent, hindents]
    exact hdeeper
  | ends left hleft hopen hkinds hends hwidth =>
    exact .ends left (hindents.trans hleft) hopen hkinds
      (hends.imp_left fun hends => hends.trans hfinished.symm) (hwidth.trans htabs.symm)

theorem indentTo_shift {l : Lexer} (hpending : l.pending = []) (nested : Nested l.indents)
    (width : Nat) : Shift l (final (indentTo width l)) := by
  simp only [indentTo, final_get_bind]
  split
  case isTrue hdeeper =>
    exact .opens width hdeeper (by simp) (by simp [marks, hpending, TokenKind.boundsBlock])
      (by simp) (by simp)
  case isFalse =>
    split
    case isTrue hshallower =>
      split
      case isTrue hopen =>
        have hopen : width ∈ l.indents := by simpa using hopen
        refine .ends (l.indents.takeWhile (width < ·)) ?_ ?_ ?_ (.inl ?_) ?_
        · simp
        · simp only [final_set, leaveBlocks_frame, nested.takeWhile_eq.2]
          exact List.ne_nil_of_mem (List.mem_filter.mpr ⟨hopen, by simp⟩)
        · simp only [final_set, marks, leaveBlocks_frame, hpending, dedentsTo, List.nil_append,
            List.map_replicate]
          exact List.filter_replicate_of_pos rfl
        · simp
        · simp
      case isFalse => exact .stays rfl
    case isFalse => exact .stays rfl

theorem finish_shift {l : Lexer} (hpending : l.pending = []) (nested : Nested l.indents) :
    Shift l (final (finish l)) := by
  simp only [finish, final_get_bind]
  cases hmodes : l.modes with
  | cons mode outer => cases mode <;> exact .stays rfl
  | nil =>
    cases hbrackets : l.brackets with
    | cons top brackets => exact .stays rfl
    | nil =>
      dsimp only
      split
      case isTrue => exact .stays rfl
      case isFalse =>
        have hlength : 0 < l.indents.length := List.length_pos_iff.mpr nested.ne_nil
        have hnewline : (l.missingNewline.map (·.kind)).filter TokenKind.boundsBlock = [] := by
          unfold missingNewline
          split <;> rfl
        refine .ends (l.indents.take (l.indents.length - 1)) ?_ ?_ ?_ (.inr ?_) ?_
        · simp
        · intro hnil
          have hempty := congrArg List.length hnil
          simp at hempty
          omega
        · simp [marks, hpending, closingTokens, hnewline, TokenKind.boundsBlock]
        · simp
          omega
        · simp

theorem leaveBlocks_self {l : Lexer} {width : Nat} (hlevel : ¬ width < l.indent) :
    l.leaveBlocks width = l := by
  cases hindents : l.indents with
  | nil =>
    rw [leaveBlocks, hindents]
    exact congrArg (fun indents => { l with indents }) hindents.symm
  | cons top outer =>
    have htop : decide (width < top) = false := by simpa [indent, hindents] using hlevel
    rw [leaveBlocks, hindents]
    simp only [List.takeWhile_cons, List.dropWhile_cons, htop]
    exact congrArg (fun indents => { l with indents }) hindents.symm

theorem startLine_shift {l : Lexer} (hpending : l.pending = []) (nested : Nested l.indents)
    (line : List Char) (unread : Source) :
    Shift l (final (startLine (l.freshLine line unread))) := by
  rw [startLine_freshLine]
  have hsame : l.blocks = (l.freshLine line unread).pastMargin.blocks := rfl
  have hpending : (l.freshLine line unread).pastMargin.pending = [] := hpending
  have nested : Nested (l.freshLine line unread).pastMargin.indents := nested
  refine .congr hsame ?_
  generalize (l.freshLine line unread).pastMargin = m at hpending nested
  cases m.rest with
  | nil => exact .stays rfl
  | cons c rest =>
    dsimp only
    split
    · refine .stays ?_
      apply (blocks_take (m.take .comment _) .nl _ rfl).trans
      exact blocks_take m .comment _ rfl
    · split
      · exact .stays (blocks_take m .nl _ rfl)
      · exact indentTo_shift hpending nested _

theorem goToNextLine_shift {l : Lexer} (hpending : l.pending = []) (nested : Nested l.indents) :
    Shift l (final (goToNextLine l)) := by
  obtain ⟨_, htake⟩ | ⟨line, unread, hunread, _⟩ | ⟨unread, _, htake⟩ := takeLine_cases l
  · rw [goToNextLine, run_bind, htake]
    exact finish_shift hpending nested
  · rw [goToNextLine_line hunread]
    split
    · exact startLine_shift hpending nested line unread
    · exact .stays rfl
  · rw [goToNextLine, run_bind, htake]
    exact .stays rfl

theorem step_shift {l : Lexer} (hpending : l.pending = []) (nested : Nested l.indents) :
    Shift l (final (step l)) := by
  by_cases hrest : l.rest = []
  · rw [step_of_rest_nil hrest]
    exact goToNextLine_shift hpending nested
  · exact .stays (step_keepsBlocks hrest)

/-! ### Visited states -/

/-- The states in which the lexer works on `source`, those behind failures among them, with all
the tokens found so far. -/
inductive Visits (source : Source) (tabSize : Nat) : List Token → Lexer → Prop
  | start : Visits source tabSize [] (ofSource source tabSize)
  | step {found : List Token} {l : Lexer} (visited : Visits source tabSize found l)
      (hpending : l.pending = []) (hworks : l.finished = false) :
      Visits source tabSize (found ++ (final (step l)).pending) (final (step l))
  | handOut {found pending : List Token} {l : Lexer} {token : Token}
      (visited : Visits source tabSize found l) (hpending : l.pending = token :: pending) :
      Visits source tabSize found { l with pending }
  | endMarker {found : List Token} {l : Lexer} (visited : Visits source tabSize found l)
      (hpending : l.pending = []) : Visits source tabSize (found ++ [.endMarker l.lineNumber]) l

variable {source : Source} {tabSize : Nat} {before found : List Token} {l : Lexer}

theorem Visits.work (visited : Visits source tabSize (before ++ l.pending) l) (fuel : Nat) :
    Visits source tabSize (before ++ (final (work fuel l)).pending) (final (work fuel l)) := by
  induction fuel generalizing l with
  | zero => exact visited
  | succ fuel induction =>
    rw [Lexer.work, final_get_bind]
    split
    case isTrue hidle =>
      rw [Bool.and_eq_true, List.isEmpty_iff, Bool.not_eq_true'] at hidle
      rw [hidle.1, List.append_nil] at visited
      have next := visited.step hidle.1 hidle.2
      rw [run_bind]
      cases hstep : Lexer.step l with
      | ok _ m =>
        rw [hstep] at next
        exact induction next
      | error e m =>
        rw [hstep] at next
        exact next
    case isFalse => exact visited

/-- Handing out tokens leads from visited states to visited states, also where it fails. -/
theorem Visits.pull (visited : Visits source tabSize (before ++ l.pending) l) :
    match pull l with
    | .ok token m => Visits source tabSize (before ++ [token] ++ m.pending) m
    | .error _ m => Visits source tabSize (before ++ m.pending) m := by
  have next := visited.work l.bound
  rw [Lexer.pull, run_bind, run_get]
  dsimp only
  rw [run_bind]
  cases hwork : Lexer.work l.bound l with
  | error e m =>
    rw [hwork] at next
    exact next
  | ok _ m =>
    rw [hwork] at next
    change Visits source tabSize (before ++ m.pending) m at next
    simp only [run_bind, run_get]
    cases hpending : m.pending with
    | cons token pending =>
      rw [hpending] at next
      have handed := next.handOut hpending
      simpa [run_bind, run_set, run_pure] using handed
    | nil =>
      rw [hpending, List.append_nil] at next
      simpa [run_pure, hpending] using next.endMarker hpending

theorem Visits.final_pull (visited : Visits source tabSize (before ++ l.pending) l) :
    ∃ before, Visits source tabSize (before ++ (final (Lexer.pull l)).pending)
      (final (Lexer.pull l)) := by
  have next := visited.pull
  cases hpull : Lexer.pull l with
  | ok token m =>
    rw [hpull] at next
    exact ⟨_, next⟩
  | error e m =>
    rw [hpull] at next
    exact ⟨_, next⟩

theorem Visits.of_reaches (reached : Reaches source tabSize found l) :
    Visits source tabSize (found ++ l.pending) l := by
  induction reached with
  | start => exact .start
  | pull _ hpull induction =>
    have next := induction.pull
    rw [hpull] at next
    exact next

theorem Visits.nested (visited : Visits source tabSize found l) :
    Nested l.indents ∧ l.tabSize = max tabSize 1 := by
  induction visited with
  | start => exact ⟨.start, rfl⟩
  | @step found l _ hpending _ induction =>
    obtain ⟨nested, htabs⟩ := induction
    cases step_shift hpending nested with
    | stays hblocks =>
      obtain ⟨hindents, _, _, hsame⟩ : _ ∧ _ ∧ _ ∧ _ := by simpa [blocks] using hblocks
      exact ⟨hindents ▸ nested, hsame.trans htabs⟩
    | opens width hdeeper hindents _ _ hsame =>
      exact ⟨hindents ▸ nested.cons hdeeper, hsame.trans htabs⟩
    | ends left hindents hopen _ _ hsame =>
      exact ⟨(hindents ▸ nested : Nested (left ++ _)).of_suffix hopen, hsame.trans htabs⟩
  | handOut _ _ induction => exact induction
  | endMarker _ _ induction => exact induction

/-! ### Balance -/

theorem counts_eq (l : Lexer) :
    indentCount l.pending = l.marks.count .indent ∧
      dedentCount l.pending = l.marks.count .dedent :=
  ⟨(List.count_filter rfl).symm, (List.count_filter rfl).symm⟩

/-- The starts and ends that a step finds account for the change of the open blocks, and the
outermost stays open. -/
theorem Shift.counts {l m : Lexer} (shift : Shift l m) (hpending : l.pending = [])
    (hworks : l.finished = false) (nested : Nested l.indents) :
    indentCount m.pending + l.indents.length = dedentCount m.pending + m.indents.length ∧
      dedentCount m.pending + 1 ≤ l.indents.length ∧
      (m.finished = true → m.indents.length = 1) := by
  have hnonempty := List.length_pos_iff.mpr nested.ne_nil
  rw [(counts_eq m).1, (counts_eq m).2]
  cases shift with
  | stays hblocks =>
    obtain ⟨hindents, hmarks, hfinished, _⟩ : m.indents = l.indents ∧ m.marks = [] ∧
        m.finished = false ∧ m.tabSize = l.tabSize := by
      simpa [blocks, marks, hpending, hworks] using hblocks
    rw [hindents, hmarks, hfinished]
    exact ⟨rfl, hnonempty, fun hends => absurd hends Bool.false_ne_true⟩
  | opens width _ hindents hmarks hfinished _ =>
    rw [hindents, hmarks, hfinished, hworks]
    refine ⟨?_, hnonempty, fun hends => absurd hends Bool.false_ne_true⟩
    simp
    omega
  | ends left hindents hopen hmarks hfinished _ =>
    have houter := List.length_pos_iff.mpr hopen
    rw [hindents, hmarks]
    simp only [List.count_replicate, List.length_append]
    refine ⟨by simp, by simp; omega, fun hends => hfinished.resolve_left ?_⟩
    rw [hends, hworks]
    decide

/-- What the tokens found tell of the open blocks. -/
structure Depth (found : List Token) (l : Lexer) : Prop where
  within : ∀ before, before <+: found → dedentCount before ≤ indentCount before
  depth : indentCount found + 1 = dedentCount found + l.indents.length
  closed : l.finished = true → l.indents.length = 1

theorem within_append {new : List Token}
    (hwithin : ∀ before, before <+: found → dedentCount before ≤ indentCount before)
    (hnew : dedentCount found + dedentCount new ≤ indentCount found) :
    ∀ before, before <+: found ++ new → dedentCount before ≤ indentCount before := by
  intro before hbefore
  rcases List.prefix_or_prefix_of_prefix hbefore (List.prefix_append found new) with hold | hlater
  · exact hwithin before hold
  · obtain ⟨more, rfl⟩ := hlater
    have hmore : more <+: new := (List.prefix_append_right_inj found).mp hbefore
    have hcount := (hmore.sublist.map (·.kind)).count_le .dedent
    simp only [indentCount, dedentCount, List.map_append, List.count_append] at hnew hcount ⊢
    omega

theorem Visits.counts (visited : Visits source tabSize found l) : Depth found l := by
  induction visited with
  | start =>
    refine ⟨?_, rfl, nofun⟩
    intro before hbefore
    rw [List.prefix_nil.mp hbefore]
    exact Nat.le_refl _
  | step visited hpending hworks induction =>
    have nested := visited.nested.1
    have shift := step_shift hpending nested
    obtain ⟨hchange, houtermost, hclosed⟩ := shift.counts hpending hworks nested
    have hdepth := induction.depth
    refine ⟨within_append induction.within (by omega), ?_, hclosed⟩
    simp only [indentCount, dedentCount, List.map_append, List.count_append] at hchange hdepth ⊢
    omega
  | handOut _ _ induction => exact ⟨induction.within, induction.depth, induction.closed⟩
  | endMarker _ _ induction =>
    have hbalance := induction.within _ (List.prefix_refl _)
    have hdepth := induction.depth
    refine ⟨within_append induction.within hbalance, ?_, induction.closed⟩
    simpa [indentCount, dedentCount, Token.endMarker] using hdepth

/-- The starts and the ends of blocks match in a source that can be read to its end. -/
theorem balanced_of_allTokens {tokens : List Token}
    (htokens : (ofSource source tabSize).allTokens = .ok tokens) : Balanced tokens := by
  obtain ⟨last, reached, program, marker, rfl, hmarker, _⟩ := reaches_of_allTokens htokens
  obtain ⟨hfinished, hpending⟩ := reached.ended rfl hmarker
  have visited := Visits.of_reaches reached
  rw [hpending, List.append_nil] at visited
  obtain ⟨hwithin, hdepth, hclosed⟩ := visited.counts
  have houtermost := hclosed hfinished
  exact ⟨hwithin, by omega⟩

/-! ### Lines -/

theorem indentWidth_takeWhile (tabSize : Nat) (line : List Char) :
    Lexeme.indentWidth tabSize (line.takeWhile Lexeme.isSpace) =
      Lexeme.indentWidth tabSize line := by
  rw [Lexeme.indentWidth, List.takeWhile_idem]
  rfl

theorem step_of_startsLine {line rest : List Char} {unread : Source} {c : Char}
    (starts : StartsLine l line unread) (hcontent : line.dropWhile Lexeme.isSpace = c :: rest)
    (hcomment : c ≠ '#') (hbreak : Lexeme.isLineBreak c = false) :
    step l = indentTo (Lexeme.indentWidth l.tabSize line) (l.freshLine line unread).pastMargin := by
  have hplace : (l.modes.isEmpty && l.brackets.isEmpty && !l.continued) = true := by
    obtain ⟨hmodes, hbrackets, hcontinued⟩ := starts.place
    simp [hmodes, hbrackets, hcontinued]
  have hrest : (l.freshLine line unread).pastMargin.rest = c :: rest := by
    have hsplit := List.takeWhile_append_dropWhile (p := Lexeme.isSpace) (l := line)
    calc (l.freshLine line unread).pastMargin.rest
        = line.drop (line.takeWhile Lexeme.isSpace).length := (pastMargin_frame rfl).2.1
      _ = (line.takeWhile Lexeme.isSpace ++ line.dropWhile Lexeme.isSpace).drop
            (line.takeWhile Lexeme.isSpace).length := by rw [hsplit]
      _ = c :: rest := by rw [List.drop_left' rfl, hcontent]
  rw [step_of_rest_nil starts.rest, goToNextLine_line starts.next, if_pos hplace, startLine_freshLine, hrest]
  simp only [beq_iff_eq, hcomment, hbreak, if_false, Bool.false_eq_true, indentWidth_takeWhile]

/-- What a line at `place`, indented by `width`, means for the blocks open in `l`. -/
structure DecidesBlocks (l : Lexer) (line : List Char) (place : Position) (width : Nat) :
    Prop where
  /-- It starts a block. -/
  deeper : l.indent < width → ∃ l', step l = .ok () l' ∧ l'.indents = width :: l.indents ∧
    l'.pending = [⟨.indent, "", place, place, String.ofList line⟩]
  /-- It belongs to an open block and ends all deeper ones. -/
  open_ : width ∈ l.indents → ∃ l', step l = .ok () l' ∧
    l'.indents = l.indents.filter (· ≤ width) ∧
    l'.pending = List.replicate (l.indents.countP (width < ·))
      ⟨.dedent, "", place, place, String.ofList line⟩
  /-- It belongs to no block. -/
  foreign : width < l.indent → width ∉ l.indents → ∃ l', step l = .error (.badDedent place) l' ∧
    l'.indents = l.indents ∧ l'.pending = []

theorem decidesBlocks {line rest : List Char} {unread : Source} {c : Char}
    (nested : Nested l.indents)
    (starts : StartsLine l line unread) (hcontent : line.dropWhile Lexeme.isSpace = c :: rest)
    (hcomment : c ≠ '#') (hbreak : Lexeme.isLineBreak c = false) :
    DecidesBlocks l line ⟨l.lineNumber + 1, (line.takeWhile Lexeme.isSpace).length⟩
      (Lexeme.indentWidth l.tabSize line) := by
  have hstep := step_of_startsLine starts hcontent hcomment hbreak
  obtain ⟨_, _, htext, hnumber, hcolumn, hindents, _, _, _, hpending, _⟩ :=
    @pastMargin_frame l _ line unread rfl
  generalize (l.freshLine line unread).pastMargin = m at *
  generalize Lexeme.indentWidth l.tabSize line = width at *
  have hplace : m.here = ⟨l.lineNumber + 1, (line.takeWhile Lexeme.isSpace).length⟩ := by
    rw [here, hnumber, hcolumn]
  rw [starts.pending] at hpending
  rw [indentTo, run_bind, run_get] at hstep
  have hindent : m.indent = l.indent := by rw [indent, indent, hindents]
  dsimp only at hstep
  rw [hindent] at hstep
  refine ⟨?_, ?_, ?_⟩
  · intro hdeeper
    rw [if_pos hdeeper, run_set] at hstep
    refine ⟨_, hstep, ?_, ?_⟩
    · simp [hindents]
    · simp [hpending, htext, hplace]
  · intro hopen
    have hhighest : width ≤ l.indent := nested.le_top hopen
    have hleft : step l = .ok () (m.leaveBlocks width) := by
      rw [hstep, if_neg (Nat.not_lt.mpr hhighest)]
      split
      case isTrue =>
        rw [if_pos (by simpa [hindents] using hopen), run_set]
      case isFalse hlevel =>
        rw [run_pure, leaveBlocks_self (by rw [hindent]; exact hlevel)]
    have hcount : (l.indents.takeWhile (width < ·)).length = l.indents.countP (width < ·) := by
      rw [nested.takeWhile_eq.1, List.countP_eq_length_filter]
    refine ⟨_, hleft, ?_, ?_⟩
    · simp [hindents, nested.takeWhile_eq.2]
    · simp [hpending, dedentsTo, hindents, hcount, htext, hplace]
  · intro hshallower hforeign
    rw [if_neg (by omega), if_pos hshallower, if_neg (by simpa [hindents] using hforeign), run_throw,
      hplace] at hstep
    exact ⟨m, hstep, hindents, hpending⟩

/-- In every state of the lexer the indentation of the open blocks rises strictly from the margin
on. The starts and the ends of blocks match in a source that can be read to its end. A line that
starts a statement, with content that is no comment, starts one block if it is indented deeper than
the innermost, ends the deeper blocks if an open block has its indentation, and is refused with
all blocks still open if none has; its indentation is the exact column of its content unless one of
the columns before it does not fit its word. -/
theorem blocks_balanced_and_exact (source : Source) (tabSize : Nat) :
    (∀ found l, Visits source tabSize found l → Nested l.indents) ∧
    (∀ tokens, (ofSource source tabSize).allTokens = .ok tokens → Balanced tokens) ∧
    ∀ found l line unread c rest, Visits source tabSize found l → StartsLine l line unread →
      line.dropWhile Lexeme.isSpace = c :: rest → c ≠ '#' → Lexeme.isLineBreak c = false →
      DecidesBlocks l line ⟨l.lineNumber + 1, (line.takeWhile Lexeme.isSpace).length⟩
        (Lexeme.indentWidth (max tabSize 1) line) ∧
      (Lexeme.indentOverruns (max tabSize 1) line = false →
        Lexeme.indentWidth (max tabSize 1) line = Lexeme.exactWidth (max tabSize 1) line) := by
  refine ⟨?_, ?_, ?_⟩
  · intro found l visited
    exact visited.nested.1
  · intro tokens htokens
    exact balanced_of_allTokens htokens
  · intro found l line unread c rest visited starts hcontent hcomment hbreak
    obtain ⟨nested, htabs⟩ := visited.nested
    refine ⟨?_, Lexeme.indentWidth_eq_exactWidth⟩
    rw [← htabs]
    exact decidesBlocks nested starts hcontent hcomment hbreak

/-- A line whose indentation lies between those of two open blocks is refused with both open. -/
theorem blocks_exact_between_levels :
    ∃ found l, Visits (.ofString "        a\n    b\n") 8 found l ∧
      StartsLine l "    b\n".toList [] ∧ l.indents = [8, 0] ∧
      ∃ l', step l = .error (.badDedent ⟨2, 4⟩) l' ∧ l'.indents = [8, 0] := by
  have first : Visits (.ofString "        a\n    b\n") 8
      ([] ++ (ofSource (.ofString "        a\n    b\n") 8).pending) _ := .start
  obtain ⟨_, opened⟩ := first.final_pull
  obtain ⟨_, named⟩ := opened.final_pull
  obtain ⟨_, ended⟩ := named.final_pull
  have starts : StartsLine (final (pull (final (pull (final (pull
      (ofSource (.ofString "        a\n    b\n") 8))))))) "    b\n".toList [] :=
    ⟨by decide +kernel, by decide +kernel, by decide +kernel, by decide +kernel,
      by decide +kernel, by decide +kernel, by decide +kernel⟩
  obtain ⟨decides, _⟩ := (blocks_balanced_and_exact _ 8).2.2 _ _ _ _ 'b' ['\n'] ended starts
    (by decide) (by decide) (by decide)
  obtain ⟨l', hstep, hindents, _⟩ := decides.foreign (by decide +kernel) (by decide +kernel)
  have hplace : (final (pull (final (pull (final (pull
      (ofSource (.ofString "        a\n    b\n") 8))))))).lineNumber = 1 := by decide +kernel
  have hopen : (final (pull (final (pull (final (pull
      (ofSource (.ofString "        a\n    b\n") 8))))))).indents = [8, 0] := by decide +kernel
  rw [hplace] at hstep
  exact ⟨_, _, ended, starts, hopen, l', hstep, hindents.trans hopen⟩

/-- What follows a carriage return behind the indentation is not looked at: the line `"    \rb\n"`
holds a name and has an indentation that no open block has, but it is not refused. -/
theorem carriage_return_hides_content :
    ¬ ∀ source tabSize found l line unread c rest, Visits source tabSize found l →
      StartsLine l line unread →
      (Text.withoutTerminator line).dropWhile Lexeme.isSpace = c :: rest → c ≠ '#' →
      DecidesBlocks l line ⟨l.lineNumber + 1, (line.takeWhile Lexeme.isSpace).length⟩
        (Lexeme.exactWidth (max tabSize 1) line) := by
  intro holds
  have first : Visits (.ofString "        a\n    \rb\n") 8
      ([] ++ (ofSource (.ofString "        a\n    \rb\n") 8).pending) _ := .start
  obtain ⟨_, opened⟩ := first.final_pull
  obtain ⟨_, named⟩ := opened.final_pull
  obtain ⟨_, ended⟩ := named.final_pull
  have starts : StartsLine (final (pull (final (pull (final (pull
      (ofSource (.ofString "        a\n    \rb\n") 8))))))) "    \rb\n".toList [] :=
    ⟨by decide +kernel, by decide +kernel, by decide +kernel, by decide +kernel,
      by decide +kernel, by decide +kernel, by decide +kernel⟩
  have decides := holds _ 8 _ _ _ _ '\r' ['b'] ended starts (by decide) (by decide)
  obtain ⟨m, hstep, _, hpending⟩ := decides.foreign (by decide +kernel) (by decide +kernel)
  have hread : (final (step (final (pull (final (pull (final (pull
      (ofSource (.ofString "        a\n    \rb\n") 8))))))))).pending.map (·.kind) = [.nl] := by
    decide +kernel
  rw [hstep] at hread
  change m.pending.map (·.kind) = [.nl] at hread
  rw [hpending] at hread
  cases hread

end Lexer

end ShellSyntax
