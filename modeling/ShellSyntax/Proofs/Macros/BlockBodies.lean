import ShellSyntax.Proofs.Macros.Heads
import ShellSyntax.Proofs.Text.Dedent

/-!
Raw bodies on the lines below their colon. The body is the block of lines that are indented deeper
than the statement, without the margin of these lines, and the line behind it is read as any other.
-/

namespace ShellSyntax

open Text

/-- The lines `block` between `above` and `below`: it starts with the first line that is indented
deeper than `indent`, and ends before the next one that is not. Lines that `skips` may stand above
it, and in it whatever their indentation. -/
structure Block (skips : List Char → Bool) (tabSize indent : Nat)
    (above block below : List (List Char)) : Prop where
  above : ∀ line ∈ above, skips line = true
  first : ∃ line ∈ block.head?, skips line = false ∧ indent < Lexeme.indentWidth tabSize line
  inside : ∀ line ∈ block, skips line = true ∨ indent < Lexeme.indentWidth tabSize line
  below : ∀ line ∈ below.head?, skips line = false ∧ Lexeme.indentWidth tabSize line ≤ indent

namespace Block

variable {skips : List Char → Bool} {tabSize indent : Nat}
  {above block below above' block' below' lines : List (List Char)}

/-- Lines either hold such a block, or the first that counts is not indented deep enough. -/
theorem exists_or_none (skips : List Char → Bool) (tabSize indent : Nat)
    (lines : List (List Char)) :
    (∃ above block below, lines = above ++ block ++ below ∧
        Block skips tabSize indent above block below) ∨
      ∃ above below, lines = above ++ below ∧ (∀ line ∈ above, skips line = true) ∧
        ∀ line ∈ below.head?, skips line = false ∧ Lexeme.indentWidth tabSize line ≤ indent := by
  have hsplit := List.takeWhile_append_dropWhile (p := skips) (l := lines)
  have habove : ∀ line ∈ lines.takeWhile skips, skips line = true :=
    fun line hline => List.all_eq_true.mp List.all_takeWhile line hline
  have hcounts := List.head?_dropWhile_not skips lines
  cases hrest : lines.dropWhile skips with
  | nil => exact .inr ⟨_, [], by rw [← hrest, hsplit], habove, by simp⟩
  | cons first rest =>
    rw [hrest] at hcounts hsplit
    have hfirst : skips first = false := by simpa using hcounts
    by_cases hdeeper : indent < Lexeme.indentWidth tabSize first
    · left
      -- the block goes on as long as lines are skipped or indented deeper
      let stays := fun line => skips line || decide (indent < Lexeme.indentWidth tabSize line)
      have hblock := List.takeWhile_append_dropWhile (p := stays) (l := first :: rest)
      have hstays : stays first = true := by simp [stays, hdeeper]
      refine ⟨lines.takeWhile skips, (first :: rest).takeWhile stays,
        (first :: rest).dropWhile stays, by rw [List.append_assoc, hblock, hsplit], habove,
        ⟨first, by simp [hstays], hfirst, hdeeper⟩, ?_, ?_⟩
      · intro line hline
        have hstay : stays line = true := List.all_eq_true.mp List.all_takeWhile line hline
        simpa [stays] using hstay
      · intro line hline
        have hends := List.head?_dropWhile_not stays (first :: rest)
        rw [Option.mem_def.mp hline] at hends
        simpa [stays] using hends
    · right
      refine ⟨_, first :: rest, hsplit.symm, habove, ?_⟩
      intro line hline
      obtain rfl := Option.some.inj hline
      exact ⟨hfirst, Nat.le_of_not_lt hdeeper⟩

end Block

namespace Lexer

open Outcome

variable {l l' : Lexer} {lines above block below : List (List Char)}

/-! ### Reading lines -/

/-- Past the next lines of the source, which are `lines`. -/
def enterLines (l : Lexer) : List (List Char) → Lexer
  | [] => l
  | line :: lines => (l.nextLine line l.unread.tail).enterLines lines

theorem enterLines_append (l : Lexer) (lines more : List (List Char)) :
    l.enterLines (lines ++ more) = (l.enterLines lines).enterLines more := by
  induction lines generalizing l with
  | nil => rfl
  | cons line lines induction => exact induction _

@[simp] theorem enterLines_frame (l : Lexer) (lines : List (List Char)) :
    (l.enterLines lines).unread = l.unread.drop lines.length ∧
    (l.enterLines lines).lineNumber = l.lineNumber + lines.length ∧
    (l.enterLines lines).indents = l.indents ∧
    (l.enterLines lines).brackets = l.brackets ∧
    (l.enterLines lines).modes = l.modes ∧
    (l.enterLines lines).continued = l.continued ∧
    (l.enterLines lines).pending = l.pending ∧
    (l.enterLines lines).tabSize = l.tabSize ∧
    (l.enterLines lines).finished = l.finished ∧
    (l.enterLines lines).bound = l.bound := by
  induction lines generalizing l with
  | nil => simp [enterLines]
  | cons line lines induction =>
    obtain ⟨hunread, hnumber, rest⟩ := induction (l.nextLine line l.unread.tail)
    refine ⟨hunread.trans ?_, hnumber.trans ?_, rest⟩
    · simp [nextLine, enterLine, List.drop_tail]
    · simp [nextLine, enterLine]
      omega

def measureLines (l : Lexer) (lines : List (List Char)) : Lexer :=
  lines.foldl (fun l line => if Lexeme.isIdleLine line then l else l.measure line) l

@[simp] theorem measureLines_frame (l : Lexer) (lines : List (List Char)) :
    (l.measureLines lines).unread = l.unread ∧
    (l.measureLines lines).rest = l.rest ∧
    (l.measureLines lines).lineText = l.lineText ∧
    (l.measureLines lines).lineNumber = l.lineNumber ∧
    (l.measureLines lines).column = l.column ∧
    (l.measureLines lines).indents = l.indents ∧
    (l.measureLines lines).brackets = l.brackets ∧
    (l.measureLines lines).modes = l.modes ∧
    (l.measureLines lines).continued = l.continued ∧
    (l.measureLines lines).pending = l.pending ∧
    (l.measureLines lines).tabSize = l.tabSize ∧
    (l.measureLines lines).finished = l.finished ∧
    (l.measureLines lines).bound = l.bound := by
  induction lines generalizing l with
  | nil => simp [measureLines]
  | cons line lines induction =>
    rw [measureLines, List.foldl_cons, ← measureLines]
    split
    · exact induction l
    · exact induction (l.measure line)

@[simp] theorem lineEnd_measureLines (l : Lexer) (lines : List (List Char)) :
    (l.measureLines lines).lineEnd = l.lineEnd := by
  simp [lineEnd]

theorem measure_enterLines (l : Lexer) (text : List Char) (lines : List (List Char)) :
    (l.measure text).enterLines lines = (l.enterLines lines).measure text := by
  induction lines generalizing l with
  | nil => rfl
  | cons line lines induction => exact induction (l.nextLine line l.unread.tail)

theorem enterLines_last (l : Lexer) (lines : List (List Char)) (last : List Char) :
    (l.enterLines (lines ++ [last])).lineText = String.ofList last ∧
    (l.enterLines (lines ++ [last])).lineEnd = ⟨l.lineNumber + lines.length + 1, last.length⟩ := by
  rw [enterLines_append]
  exact ⟨rfl, by simp [enterLines, lineEnd, nextLine, enterLine]⟩

/-! ### Gathering a block -/

variable {indent fuel : Nat} {text : List Char} {first : Option Nat} {unread : Source}

theorem gatherBlock_skips (habove : ∀ line ∈ above, Lexeme.isIdleLine line = true)
    (hunread : l.unread = above.map .text ++ unread) :
    gatherBlock indent (fuel + above.length) text none l =
      gatherBlock indent fuel text none (l.enterLines above) := by
  induction above generalizing l with
  | nil => rfl
  | cons line above induction =>
    have hline := habove line List.mem_cons_self
    have hmore : l.unread.tail = above.map .text ++ unread := by rw [hunread]; rfl
    rw [List.length_cons, ← Nat.add_assoc, gatherBlock_of_line hunread, if_pos hline, enterLines,
      hmore]
    exact induction (fun line hline => habove line (List.mem_cons_of_mem _ hline)) rfl

theorem gatherBlock_takes {number : Nat}
    (hinside : ∀ line ∈ block,
      Lexeme.isIdleLine line = true ∨ indent < Lexeme.indentWidth l.tabSize line)
    (hunread : l.unread = block.map .text ++ unread) :
    gatherBlock indent (fuel + block.length) text (some number) l =
      gatherBlock indent fuel (text ++ block.flatten) (some number)
        ((l.enterLines block).measureLines block) := by
  induction block generalizing l text with
  | nil => simp [enterLines, measureLines]
  | cons line block induction =>
    have hmore : l.unread.tail = block.map .text ++ unread := by rw [hunread]; rfl
    rw [List.length_cons, ← Nat.add_assoc, gatherBlock_of_line hunread, List.flatten_cons,
      ← List.append_assoc, measureLines, List.foldl_cons, ← measureLines, enterLines, hmore]
    split
    case isTrue =>
      exact induction (fun line hline => hinside line (List.mem_cons_of_mem _ hline)) rfl
    case isFalse hcounts =>
      have hdeeper := (hinside line List.mem_cons_self).resolve_left hcounts
      rw [if_neg (Nat.not_le.mpr hdeeper), ← measure_enterLines]
      exact induction (fun line hline => hinside line (List.mem_cons_of_mem _ hline)) rfl

theorem gatherBlock_ends
    (hbelow : ∀ line ∈ below.head?,
      Lexeme.isIdleLine line = false ∧ Lexeme.indentWidth l.tabSize line ≤ indent)
    (hunread : l.unread = below.map .text) :
    gatherBlock indent (fuel + 1) text first l =
      .ok (text, first) (l.measureLines (below.take 1)) := by
  cases below with
  | nil =>
    have htake : takeLine l = .ok none l := by
      simp only [takeLine, run_bind, run_get, hunread]
      rfl
    rw [gatherBlock, run_bind, htake]
    rfl
  | cons line below =>
    obtain ⟨hcounts, houtside⟩ := hbelow line rfl
    rw [gatherBlock_of_line hunread, if_neg (by simp [hcounts]), if_pos houtside]
    simp [measureLines, hcounts]

/-- The first line of a block is taken as the others are, once its number is known. -/
theorem gatherBlock_starts {line : List Char} (hunread : l.unread = .text line :: unread)
    (hcounts : Lexeme.isIdleLine line = false)
    (hdeeper : indent < Lexeme.indentWidth l.tabSize line) :
    gatherBlock indent (fuel + 1) text none l =
      gatherBlock indent (fuel + 1) text (some (l.lineNumber + 1)) l := by
  rw [gatherBlock_of_line hunread, gatherBlock_of_line hunread]
  simp only [hcounts, Nat.not_le.mpr hdeeper]
  rfl

theorem gatherBlock_block (hblock : Block Lexeme.isIdleLine l.tabSize indent above block below)
    (hunread : l.unread = (above ++ block ++ below).map .text)
    (hfuel : above.length + block.length < fuel) :
    gatherBlock indent fuel [] none l =
      .ok (block.flatten, some (l.lineNumber + above.length + 1))
        ((l.enterLines (above ++ block)).measureLines (block ++ below.take 1)) := by
  obtain ⟨line, hline, hcounts, hdeeper⟩ := hblock.first
  obtain ⟨more, hmore⟩ := List.head?_eq_some_iff.mp hline
  obtain ⟨left, rfl⟩ := Nat.exists_eq_add_of_lt hfuel
  have hrest : l.unread = above.map .text ++ (block ++ below).map .text := by
    rw [hunread, List.append_assoc, List.map_append]
  have hbehind : (l.enterLines above).unread = (block ++ below).map .text := by
    rw [(enterLines_frame l above).1, hrest, List.drop_left' (List.length_map _)]
  have hfirst : (l.enterLines above).unread = .text line :: (more ++ below).map .text := by
    rw [hbehind, hmore]
    rfl
  obtain ⟨_, hnumber, _, _, _, _, _, htabs, _, _⟩ := enterLines_frame l above
  calc gatherBlock indent (above.length + block.length + left + 1) [] none l
    _ = gatherBlock indent (left + 1 + block.length) [] none (l.enterLines above) := by
      rw [← gatherBlock_skips hblock.above hrest]
      congr 1
      omega
    _ = gatherBlock indent (left + 1 + block.length) [] (some (l.lineNumber + above.length + 1))
          (l.enterLines above) := by
      rw [hmore, List.length_cons, ← Nat.add_assoc, ← hnumber]
      exact gatherBlock_starts hfirst hcounts (htabs ▸ hdeeper)
    _ = gatherBlock indent (left + 1) block.flatten (some (l.lineNumber + above.length + 1))
          ((l.enterLines (above ++ block)).measureLines block) := by
      rw [gatherBlock_takes (htabs.symm ▸ hblock.inside) (hbehind.trans List.map_append),
        List.nil_append, enterLines_append]
    _ = _ := by
      have hends : ((l.enterLines (above ++ block)).measureLines block).unread =
          below.map .text := by
        rw [(measureLines_frame _ _).1, (enterLines_frame _ _).1, hunread, ← List.map_drop,
          List.drop_left' rfl]
      rw [gatherBlock_ends (by simpa using hblock.below) hends]
      simp only [measureLines, List.foldl_append]

theorem gatherBlock_none (habove : ∀ line ∈ above, Lexeme.isIdleLine line = true)
    (hbelow : ∀ line ∈ below.head?,
      Lexeme.isIdleLine line = false ∧ Lexeme.indentWidth l.tabSize line ≤ indent)
    (hunread : l.unread = (above ++ below).map .text) (hfuel : above.length < fuel) :
    gatherBlock indent fuel [] none l =
      .ok ([], none) ((l.enterLines above).measureLines (below.take 1)) := by
  obtain ⟨left, rfl⟩ := Nat.exists_eq_add_of_lt hfuel
  rw [List.map_append] at hunread
  rw [show above.length + left + 1 = (left + 1) + above.length by omega,
    gatherBlock_skips habove hunread, gatherBlock_ends]
  · simpa using hbelow
  · rw [(enterLines_frame l above).1, hunread, List.drop_left' (List.length_map _)]

/-! ### Capturing a block -/

/-- Behind the block `block` and the lines `above` it, which are a raw body, and before the lines
`below`. -/
def behindBlock (l : Lexer) (above block below : List (List Char)) : Lexer :=
  let last := (l.skipLine.enterLines (above ++ block)).measureLines (block ++ below.take 1)
  { last.addToken .macroParam (String.ofList (dedent block.flatten))
      ⟨l.lineNumber + above.length + 1, 0⟩ last.lineEnd with rest := [], column := 0 }.endCapturedLine

theorem length_lt_of_unread {m : Lexer} (hunread : m.unread = lines.map .text)
    (hroom : m.toCome < m.bound) : lines.length < m.bound := by
  refine Nat.lt_of_le_of_lt ?_ hroom
  rw [toCome, hunread]
  clear hroom hunread
  induction lines with
  | nil => exact Nat.zero_le _
  | cons line lines induction =>
    simp only [List.map_cons, List.sum_cons, List.length_cons]
    omega

theorem captureBlock_block
    (hblock : Block Lexeme.isIdleLine l.tabSize l.indent above block below)
    (hunread : l.unread = (above ++ block ++ below).map .text) (hroom : l.toCome < l.bound) :
    captureBlock l = .ok () (l.behindBlock above block below) := by
  have hlength := length_lt_of_unread hunread hroom
  simp only [List.length_append] at hlength
  have hgather : gatherBlock l.indent l.bound [] none l.skipLine = _ :=
    gatherBlock_block hblock hunread (Nat.lt_of_le_of_lt (Nat.le_add_right _ _) hlength)
  rw [captureBlock, run_bind, run_modify]
  dsimp only
  rw [run_bind, run_get]
  dsimp only
  rw [run_bind, show l.skipLine.indent = l.indent from rfl, show l.skipLine.bound = l.bound from rfl,
    hgather]
  rfl

theorem captureBlock_none (habove : ∀ line ∈ above, Lexeme.isIdleLine line = true)
    (hbelow : ∀ line ∈ below.head?,
      Lexeme.isIdleLine line = false ∧ Lexeme.indentWidth l.tabSize line ≤ l.indent)
    (hunread : l.unread = (above ++ below).map .text) (hroom : l.toCome < l.bound) :
    ∃ m, captureBlock l = .error (.expectedBlock m.sourceEnd) m := by
  have hlength := length_lt_of_unread hunread hroom
  simp only [List.length_append] at hlength
  have hgather : gatherBlock l.indent l.bound [] none l.skipLine = _ :=
    gatherBlock_none habove hbelow hunread (by omega)
  refine ⟨(l.skipLine.enterLines above).measureLines (below.take 1), ?_⟩
  rw [captureBlock, run_bind, run_modify]
  dsimp only
  rw [run_bind, run_get]
  dsimp only
  rw [run_bind, show l.skipLine.indent = l.indent from rfl, show l.skipLine.bound = l.bound from rfl,
    hgather]
  rfl

theorem step_headColon {after : List Char} (hmodes : l.modes = []) (hbrackets : l.brackets = [])
    (hheader : l.withHeader = true) (hrest : l.rest = ':' :: after)
    (hafter : after.head? ≠ some '=') :
    step l = captureBody ({ l with withHeader := false }.take .op 1) := by
  have hfield : l.atFieldLevel = false := by
    rw [atFieldLevel, hmodes]
  rw [step_colon (.inl hmodes) (by rw [hbrackets]; rfl) hrest hafter, scanColon, run_bind, run_get]
  dsimp only
  rw [if_neg (by simp [hfield]), if_pos (by simp [hheader, hbrackets]), run_bind, run_set]

theorem step_bodyColon {after : List Char} (hmodes : l.modes = []) (hbrackets : l.brackets = [])
    (hheader : l.withHeader = true) (hrest : l.rest = ':' :: after)
    (hidle : Lexeme.isIdleLine after = true) :
    step l = captureBlock ({ l with withHeader := false }.take .op 1) := by
  have hafter : after.head? ≠ some '=' := by
    intro hhead
    obtain ⟨more, rfl⟩ := List.head?_eq_some_iff.mp hhead
    obtain hblank | ⟨margin, rest, hcomment, hblank⟩ := idle_cases hidle
    · exact absurd (hblank '=' List.mem_cons_self) (by decide)
    · cases margin with
      | nil => cases hcomment
      | cons c margin =>
        obtain ⟨rfl, _⟩ := List.cons.inj hcomment
        exact absurd (hblank '=' List.mem_cons_self) (by decide)
  have hleft : ({ l with withHeader := false }.take .op 1).rest = after := by
    simp [hrest]
  rw [step_headColon hmodes hbrackets hheader hrest hafter, captureBody, run_bind, run_get]
  dsimp only
  rw [if_pos (hleft ▸ hidle)]

/-! ### Bodies -/

/-- From `l`, where a colon stands, to `l'` the lines `block` of the text have been captured as a raw
body. The lines `above` them are skipped, and the first of those `below` is read next. -/
structure CapturesBlock (skips : List Char → Bool) (text : List Char) (l l' : Lexer)
    (above block below : List (List Char)) : Prop where
  lines : (splitLines text).drop l.lineNumber = above ++ block ++ below
  isBlock : Block skips l.tabSize l.indent above block below
  tokens : ∃ margin last, Margin (block.filter fun line => !allBlank line) margin ∧
    block.getLast? = some last ∧
    l'.pending = [⟨.op, ":", l.here, ⟨l.lineNumber, l.column + 1⟩, l.lineText⟩,
      ⟨.macroParam, String.ofList (block.flatMap (withoutMargin margin)),
        ⟨l.lineNumber + above.length + 1, 0⟩,
        ⟨l.lineNumber + above.length + block.length, last.length⟩, String.ofList last⟩]
  number : l'.lineNumber = l.lineNumber + above.length + block.length
  indents : l'.indents = l.indents
  rest : l'.rest = []
  unread : l'.unread = below.map .text
  resumes : ∀ line more, below = line :: more →
    StartsLine { l' with pending := [] } line (more.map .text) ∧
    ∀ c content, line.dropWhile Lexeme.isSpace = c :: content → Lexeme.isLineBreak c = false →
      DecidesBlocks { l' with pending := [] } line
        ⟨l'.lineNumber + 1, (line.takeWhile Lexeme.isSpace).length⟩
        (Lexeme.indentWidth l.tabSize line)

theorem isIdleLine_of_comment {line content : List Char}
    (hcomment : line.dropWhile Lexeme.isSpace = '#' :: content) :
    Lexeme.isIdleLine line = true := by
  have hsplit := List.takeWhile_append_dropWhile (p := Lexeme.isSpace) (l := line)
  have hblank : ∀ c ∈ line.takeWhile Lexeme.isSpace, isBlank c = true :=
    fun c hc => isBlank_of_isSpace (List.all_eq_true.mp List.all_takeWhile c hc)
  have htrim : trim line = trimEnd ('#' :: content) := by
    rw [trim, trimStart, ← hsplit, hcomment, List.dropWhile_append_of_pos hblank,
      List.dropWhile_cons_of_neg (by decide)]
  have hleads := trimEnd_prefix ('#' :: content)
  unfold Lexeme.isIdleLine
  rw [htrim]
  cases hend : trimEnd ('#' :: content) with
  | nil => rfl
  | cons first last =>
    rw [hend, List.cons_prefix_cons] at hleads
    simp [hleads.1]

theorem behindBlock_frame (l : Lexer) (above block below : List (List Char)) :
    (l.behindBlock above block below).unread = l.unread.drop (above ++ block).length ∧
    (l.behindBlock above block below).rest = [] ∧
    (l.behindBlock above block below).lineNumber = l.lineNumber + (above ++ block).length ∧
    (l.behindBlock above block below).indents = l.indents ∧
    (l.behindBlock above block below).brackets = l.brackets ∧
    (l.behindBlock above block below).modes = l.modes ∧
    (l.behindBlock above block below).continued = l.continued ∧
    (l.behindBlock above block below).tabSize = l.tabSize ∧
    (l.behindBlock above block below).finished = l.finished := by
  simp [behindBlock, endCapturedLine, skipLine, advance]

theorem Passes.cursor {text : List Char} {tabSize : Nat} {found : List Token}
    (passed : Passes (.ofText text) tabSize found l) (hlive : l.finished = false) :
    Cursor text l := by
  have keeps := (keepsCover_invariant text).passes (keepsCover_start text tabSize) passed
  simp only [KeepsCover, hlive, Bool.false_eq_true, if_false] at keeps
  obtain ⟨⟨_, _, cursor, _⟩, _⟩ := keeps
  exact cursor

theorem Passes.placed {text : List Char} {tabSize : Nat} {found : List Token}
    (passed : Passes (.ofText text) tabSize found l) (houtside : l.Outside) (hrest : l.rest ≠ []) :
    Placed text l := by
  have keeps := (keepsCover_invariant text).passes (keepsCover_start text tabSize) passed
  simp only [KeepsCover, passed.working hrest, Bool.false_eq_true, if_false] at keeps
  obtain ⟨⟨_, _, _, frontier⟩, _⟩ := keeps
  exact (frontier.outside houtside hrest).2.1

theorem Passes.continued_of_rest {text : List Char} {tabSize : Nat} {found : List Token}
    (passed : Passes (.ofText text) tabSize found l) (hrest : l.rest ≠ []) :
    l.continued = false := by
  obtain ⟨_, _, hlines⟩ := (keepsLines_invariant text).passes (keepsLines_start text tabSize) passed
  rw [passed.working hrest] at hlines
  obtain ⟨_, _, _, _, ⟨between, _⟩ | inside⟩ := hlines
  · exact between.place.2.2
  · exact inside.continued_of_rest hrest

theorem Passes.room_behind_colon {source : Source} {tabSize : Nat} {found : List Token}
    (passed : Passes source tabSize found l) (hrest : l.rest ≠ []) :
    (({ l with withHeader := false } : Lexer).take .op 1).toCome <
      (({ l with withHeader := false } : Lexer).take .op 1).bound := by
  have hcome := toCome_take (l := { l with withHeader := false }) .op
    (show 1 ≤ l.rest.length from List.length_pos_iff.mpr hrest)
  have hroom := passed.toCome_lt
  have hfresh : ({ l with withHeader := false } : Lexer).toCome = l.toCome := rfl
  have hbound : (({ l with withHeader := false } : Lexer).take .op 1).bound = l.bound := by simp
  omega

/-- The line behind the block is read next, and its indentation counts as that of any other line. -/
theorem behindBlock_resumes {line : List Char} {more : List (List Char)} (hmodes : l.modes = [])
    (hbrackets : l.brackets = []) (hcontinued : l.continued = false) (hlive : l.finished = false)
    (nested : Nested l.indents) (hcounts : Lexeme.isIdleLine line = false)
    (hunread : (l.behindBlock above block below).unread = (line :: more).map .text) :
    StartsLine { l.behindBlock above block below with pending := [] } line (more.map .text) ∧
    ∀ c content, line.dropWhile Lexeme.isSpace = c :: content → Lexeme.isLineBreak c = false →
      DecidesBlocks { l.behindBlock above block below with pending := [] } line
        ⟨(l.behindBlock above block below).lineNumber + 1, (line.takeWhile Lexeme.isSpace).length⟩
        (Lexeme.indentWidth l.tabSize line) := by
  obtain ⟨_, hrest, _, hindents, hclosed, hnone, hfresh, htabs, hworks⟩ :=
    behindBlock_frame l above block below
  have starts : StartsLine { l.behindBlock above block below with pending := [] } line
      (more.map .text) :=
    ⟨rfl, hworks.trans hlive, hrest, hunread,
      hnone.trans hmodes, hclosed.trans hbrackets, hfresh.trans hcontinued⟩
  refine ⟨starts, fun c content hcontent hbreak => ?_⟩
  rw [← htabs]
  refine decidesBlocks (by rw [hindents]; exact nested) starts hcontent ?_ hbreak
  rintro rfl
  rw [isIdleLine_of_comment hcontent] at hcounts
  cases hcounts

theorem behindBlock_captures {text : List Char} {m : Lexer}
    (hm : m = { l with withHeader := false }.take .op 1) (hpending : l.pending = [])
    (hmodes : l.modes = []) (hbrackets : l.brackets = []) (hcontinued : l.continued = false)
    (hlive : l.finished = false) (nested : Nested l.indents) {after : List Char}
    (hrest : l.rest = ':' :: after) (cursor : Cursor text l)
    (hlines : (splitLines text).drop l.lineNumber = above ++ block ++ below)
    (hblock : Block Lexeme.isIdleLine l.tabSize l.indent above block below) :
    CapturesBlock Lexeme.isIdleLine text l (m.behindBlock above block below) above block below := by
  obtain ⟨hunread, hempty, hnumber, hindents, _⟩ := behindBlock_frame m above block below
  have hsame : m.unread = l.unread ∧ m.lineNumber = l.lineNumber ∧ m.indents = l.indents ∧
      m.modes = l.modes ∧ m.brackets = l.brackets ∧ m.continued = l.continued ∧
      m.finished = l.finished ∧ m.tabSize = l.tabSize := by
    rw [hm]
    simp
  obtain ⟨hunread', hnumber', hindents', hmodes', hbrackets', hcontinued', hlive', htabs'⟩ := hsame
  have hbehind : (m.behindBlock above block below).unread = below.map .text := by
    rw [hunread, hunread', cursor.unread, hlines, ← List.map_drop, List.drop_left' rfl]
  have hsplit : splitLines block.flatten = block := by
    have rows := splitLines_rows text
    rw [← List.take_append_drop l.lineNumber (splitLines text), hlines, List.append_assoc] at rows
    exact splitLines_flatten_of_rows (rows_of_append (rows_of_append rows))
  obtain ⟨margin, hmargin, hdedent⟩ := dedent_flatten hsplit
  obtain ⟨line, hline, _⟩ := hblock.first
  obtain ⟨init, last, hlast⟩ : ∃ init last, block = init ++ [last] := by
    obtain hnil | ⟨init, last, hconcat⟩ := List.eq_nil_or_concat block
    · rw [hnil] at hline
      cases hline
    · exact ⟨init, last, by rw [hconcat, List.concat_eq_append]⟩
  have hend := enterLines_last m.skipLine (above ++ init) last
  rw [List.append_assoc, ← hlast] at hend
  have hcolon : m.pending = [⟨.op, ":", l.here, ⟨l.lineNumber, l.column + 1⟩, l.lineText⟩] := by
    rw [hm, take_pending, show ({ l with withHeader := false } : Lexer).pending = [] from hpending]
    simp [hrest, here]
  refine ⟨hlines, hblock, ⟨margin, last, hmargin, by simp [hlast], ?_⟩, ?_, ?_, hempty, hbehind, ?_⟩
  · have hplace : m.skipLine.lineNumber = l.lineNumber := hnumber'
    simp only [behindBlock, endCapturedLine, addToken_frame, measureLines_frame,
      lineEnd_measureLines, hend, enterLines_frame, hdedent]
    rw [show m.skipLine.pending = m.pending from rfl, hcolon, hplace, hnumber', hlast]
    simp [Nat.add_assoc]
  · rw [hnumber, hnumber', List.length_append, Nat.add_assoc]
  · rw [hindents, hindents']
  · rintro line more rfl
    have resumes := behindBlock_resumes (hmodes'.trans hmodes)
      (hbrackets'.trans hbrackets) (hcontinued'.trans hcontinued) (hlive'.trans hlive)
      (hindents'.symm ▸ nested) (hblock.below line rfl).1 hbehind
    rwa [htabs'] at resumes

/-- In every run over a text, at a colon outside brackets and literals, on a line that starts with a
marked `with` and holds nothing behind the colon: the raw body is the block of lines that are indented
deeper than the statement, and it is captured if there is one. -/
theorem raw_body_is_indented_block (text : String) (tabSize : Nat) (found : List Token) (l : Lexer)
    (name bang : Token) (header : List Token) (after : List Char)
    (passed : Passes (.ofString text) tabSize found l) (hpending : l.pending = [])
    (hline : openLine found = name :: bang :: header) (marks : Marks name bang)
    (hbrackets : l.brackets = []) (hmodes : l.modes = []) (hrest : l.rest = ':' :: after)
    (hidle : Lexeme.isIdleLine after = true) :
    IndentedAs text.toList l name.line.toList name.start.line ∧
    (∀ l', step l = .ok () l' →
      ∃ above block below, CapturesBlock Lexeme.isIdleLine text.toList l l' above block below) ∧
    ∀ above block below, (splitLines text.toList).drop l.lineNumber = above ++ block ++ below →
      Block Lexeme.isIdleLine l.tabSize l.indent above block below → ∃ l', step l = .ok () l' := by
  have hlive : l.finished = false := passed.working (by simp [hrest])
  have heads := passed.heads hlive
  have cursor := passed.cursor hlive
  have hheader := heads.announced name bang header hline marks
  generalize hm : ({ l with withHeader := false } : Lexer).take .op 1 = m
  have hstep : step l = captureBlock m := by
    rw [← hm]
    exact step_bodyColon hmodes hbrackets hheader hrest hidle
  have hroom : m.toCome < m.bound := hm ▸ passed.room_behind_colon (by simp [hrest])
  have hsame : m.unread = l.unread ∧ m.tabSize = l.tabSize ∧ m.indent = l.indent := by
    simp [← hm, indent]
  obtain ⟨hunread, htabs, hindent⟩ := hsame
  have captured {above block below : List (List Char)}
      (hlines : (splitLines text.toList).drop l.lineNumber = above ++ block ++ below)
      (hblock : Block Lexeme.isIdleLine l.tabSize l.indent above block below) :
      step l = .ok () (m.behindBlock above block below) := by
    rw [← htabs, ← hindent] at hblock
    rw [hstep]
    exact captureBlock_block hblock (by rw [hunread, cursor.unread, hlines]) hroom
  refine ⟨heads.level name _ hline marks.kind marks.text, ?_, ?_⟩
  · intro l' hdone
    obtain ⟨above, block, below, hlines, hblock⟩ | ⟨above, below, hlines, habove, hbelow⟩ :=
      Block.exists_or_none Lexeme.isIdleLine l.tabSize l.indent
        ((splitLines text.toList).drop l.lineNumber)
    · rw [captured hlines hblock] at hdone
      obtain rfl : m.behindBlock above block below = l' := (EStateM.Result.ok.inj hdone).2
      exact ⟨above, block, below, behindBlock_captures hm.symm hpending hmodes hbrackets
        (passed.continued_of_rest (by simp [hrest])) hlive passed.visits.nested.1 hrest cursor
        hlines hblock⟩
    · obtain ⟨_, hfails⟩ := captureBlock_none (l := m) habove (by rw [htabs, hindent]; exact hbelow)
        (by rw [hunread, cursor.unread, hlines]) hroom
      rw [hstep, hfails] at hdone
      cases hdone
  · exact fun above block below hlines hblock => ⟨_, captured hlines hblock⟩

/-- The body `  a`, an empty line and `   b`, with the line `c` behind it. -/
theorem raw_body_is_indented_block_with_empty_line :
    ∃ found l l', Passes (.ofString "with!x:\n  a\n\n   b\nc\n") 8 found l ∧
      step l = .ok () l' ∧
      (∃ above block below, CapturesBlock Lexeme.isIdleLine
        "with!x:\n  a\n\n   b\nc\n".toList l l' above block below) ∧
      l'.pending.map (·.text) = [":", "a\n\n b\n"] := by
  obtain ⟨found, l, passed, hl⟩ := Passes.of_run (.ofString "with!x:\n  a\n\n   b\nc\n") 8 3
    (fun tokens l => l.pending = [] ∧ openLine tokens =
      [⟨.name, "with", ⟨1, 0⟩, ⟨1, 4⟩, "with!x:\n"⟩, ⟨.op, "!", ⟨1, 4⟩, ⟨1, 5⟩, "with!x:\n"⟩,
        ⟨.name, "x", ⟨1, 5⟩, ⟨1, 6⟩, "with!x:\n"⟩] ∧
      l.brackets = [] ∧ l.modes = [] ∧ l.rest = [':', '\n'] ∧ value? (step l) = some () ∧
      (final (step l)).pending.map (·.text) = [":", "a\n\n b\n"])
    (by decide +kernel)
  obtain ⟨hpending, hline, hbrackets, hmodes, hrest, hruns, htexts⟩ := of_decide_eq_true hl
  have hstep := eq_ok_of_value? (step l) hruns
  rw [hpending, List.append_nil] at passed
  have captures := (raw_body_is_indented_block "with!x:\n  a\n\n   b\nc\n" 8 found l _ _ _ ['\n']
    passed hpending hline ⟨rfl, rfl, rfl, rfl⟩ hbrackets hmodes hrest (by decide)).2.1
  exact ⟨found, l, _, passed, hstep, captures _ hstep, htexts⟩

/-- Were only blank lines skipped, the comment between `a` and `b` would end the body. -/
theorem comment_does_not_end_block :
    ¬ ∀ (text : String) (tabSize : Nat) (found : List Token) (l : Lexer) (name bang : Token)
        (header : List Token) (after : List Char),
      Passes (.ofString text) tabSize found l → l.pending = [] →
      openLine found = name :: bang :: header → Marks name bang → l.brackets = [] →
      l.modes = [] → l.rest = ':' :: after → Lexeme.isIdleLine after = true →
      ∀ l', step l = .ok () l' →
        ∃ above block below, CapturesBlock allBlank text.toList l l' above block below := by
  intro claimed
  obtain ⟨found, l, passed, hl⟩ := Passes.of_run
    (.ofString "with!x:\n    a\n# c\n    b\n") 8 3
    (fun tokens l => l.pending = [] ∧ openLine tokens =
      [⟨.name, "with", ⟨1, 0⟩, ⟨1, 4⟩, "with!x:\n"⟩, ⟨.op, "!", ⟨1, 4⟩, ⟨1, 5⟩, "with!x:\n"⟩,
        ⟨.name, "x", ⟨1, 5⟩, ⟨1, 6⟩, "with!x:\n"⟩] ∧
      l.brackets = [] ∧ l.modes = [] ∧ l.rest = [':', '\n'] ∧ value? (step l) = some () ∧
      l.lineNumber = 1 ∧ l.tabSize = 8 ∧ l.indent = 0 ∧ (final (step l)).lineNumber = 4)
    (by decide +kernel)
  obtain ⟨hpending, hline, hbrackets, hmodes, hrest, hruns, hplace, htabs, hindent, hend⟩ :=
    of_decide_eq_true hl
  rw [hpending, List.append_nil] at passed
  obtain ⟨above, block, below, captures⟩ := claimed _ 8 found l _ _ _ ['\n'] passed hpending hline
    ⟨rfl, rfl, rfl, rfl⟩ hbrackets hmodes hrest (by decide) _ (eq_ok_of_value? (step l) hruns)
  have hlines : ["    a\n".toList, "# c\n".toList, "    b\n".toList] = above ++ block ++ below := by
    rw [← captures.lines, hplace]
    decide
  have isBlock := captures.isBlock
  rw [htabs, hindent] at isBlock
  have habove : above = [] := by
    cases above with
    | nil => rfl
    | cons line above =>
      have hfirst := isBlock.above line List.mem_cons_self
      rw [← (List.cons.inj hlines).1] at hfirst
      exact absurd hfirst (by decide)
  -- the comment is no blank line and not indented, so that it is not in the block
  have hblock : block.length ≤ 1 := by
    subst habove
    match block, hlines with
    | [], _ => simp
    | [_], _ => simp
    | _ :: line :: _, hlines =>
      have hsecond := isBlock.inside line (by simp)
      rw [← (List.cons.inj (List.cons.inj hlines).2).1] at hsecond
      exact absurd hsecond (by decide)
  have hnumber := captures.number
  rw [hend, hplace, habove, List.length_nil] at hnumber
  omega

end Lexer

end ShellSyntax
