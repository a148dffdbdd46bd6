import Mathlib.Data.List.SplitBy
import ShellSyntax.Proofs.Viewer.Place

/-!
Highlighting keeps the text. A line is painted in layers, each over some of its columns, and cut into
pieces of one style. Whatever the tokens, the current token and the error are, the pieces are the
line, and the two upper layers are seen exactly where the error and the current token are.
-/

namespace ShellSyntax

/-! ### Ranges -/

/-- The character at `place` is one of the token's. -/
def Token.Covers (token : Token) (place : Position) : Prop :=
  token.start ≤ place ∧ ¬ token.stop ≤ place

instance (token : Token) (place : Position) : Decidable (token.Covers place) :=
  inferInstanceAs (Decidable (_ ∧ _))

/-- The character at `place` is in the range of the error on its line. Where the range is empty or
ends on another line, this is one character. -/
def SyntaxError.Marks (error : SyntaxError) (place : Position) : Prop :=
  error.start.line = place.line ∧ error.start.column ≤ place.column ∧
    place.column <
      if error.stop.line = place.line ∧ error.start.column < error.stop.column
      then error.stop.column else error.start.column + 1

instance (error : SyntaxError) (place : Position) : Decidable (error.Marks place) :=
  inferInstanceAs (Decidable (_ ∧ _ ∧ _))

namespace Viewer

/-- The column is one of these. -/
def Within (columns : Option (Nat × Nat)) (column : Nat) : Prop :=
  ∃ start stop, columns = some (start, stop) ∧ start ≤ column ∧ column < stop

variable {number width column : Nat}

theorem within_extentOnLine (token : Token) (hcolumn : column < width) :
    Within (extentOnLine token number width) column ↔ token.Covers ⟨number, column⟩ := by
  simp only [Within, extentOnLine, Token.Covers, Position.le_iff]
  grind

theorem within_errorColumns (error : SyntaxError) (hcolumn : column < width) :
    Within (errorColumns error number width) column ↔ error.Marks ⟨number, column⟩ := by
  simp only [Within, errorColumns, SyntaxError.Marks]
  grind

/-! ### Layers -/

variable {columns : Option (Nat × Nat)} {change : Painted → Painted} {painted : List Painted}

theorem split_columns (painted : List Painted) (start stop : Nat) :
    painted.take start ++
        ((painted.drop start).take (stop - start) ++ painted.drop (max start stop)) = painted := by
  have hbehind : painted.drop (max start stop) = (painted.drop start).drop (stop - start) := by
    rw [List.drop_drop]
    congr 1
    omega
  rw [hbehind, List.take_append_drop, List.take_append_drop]

theorem getElem?_paint_within (hwithin : Within columns column) :
    (paint columns change painted)[column]? = painted[column]?.map change := by
  obtain ⟨start, stop, rfl, hstart, hstop⟩ := hwithin
  conv_rhs => rw [← split_columns painted start stop]
  simp only [paint, List.append_assoc, List.getElem?_append, List.length_map, List.getElem?_map,
    List.length_take, List.length_drop]
  split
  case isTrue => omega
  case isFalse =>
    split
    case isTrue => rfl
    case isFalse hbehind =>
      rw [List.getElem?_eq_none (by rw [List.length_drop]; omega), Option.map_none]

theorem getElem?_paint_aside (haside : ¬ Within columns column) :
    (paint columns change painted)[column]? = painted[column]? := by
  obtain _ | ⟨start, stop⟩ := columns
  · rfl
  · have hcolumn : ¬ (start ≤ column ∧ column < stop) := fun h => haside ⟨start, stop, rfl, h⟩
    conv_rhs => rw [← split_columns painted start stop]
    simp only [paint, List.append_assoc, List.getElem?_append, List.length_map, List.length_take,
      List.length_drop]
    split
    case isTrue => rfl
    case isFalse =>
      split
      case isTrue => omega
      case isFalse => rfl

theorem map_char_paint (hchange : ∀ p, (change p).char = p.char) :
    (paint columns change painted).map Painted.char = painted.map Painted.char := by
  obtain _ | ⟨start, stop⟩ := columns
  · rfl
  · have hsame : Painted.char ∘ change = Painted.char := funext hchange
    conv_rhs => rw [← split_columns painted start stop]
    simp only [paint, List.map_append, List.map_map, hsame, List.append_assoc]

theorem forall_paint {holds : Painted → Prop} (hline : ∀ p ∈ painted, holds p)
    (hchange : ∀ p, holds p → holds (change p)) : ∀ p ∈ paint columns change painted, holds p := by
  obtain _ | ⟨start, stop⟩ := columns
  · exact hline
  · intro p hp
    simp only [paint, List.mem_append, List.mem_map] at hp
    obtain (hbefore | ⟨q, hq, rfl⟩) | hbehind := hp
    · exact hline p (List.mem_of_mem_take hbefore)
    · exact hchange q (hline q (List.mem_of_mem_drop (List.mem_of_mem_take hq)))
    · exact hline p (List.mem_of_mem_drop hbehind)

/-! ### Tokens and comments -/

theorem styleOfToken_bg (token : Token) : (styleOfToken token).bg = none := by
  unfold styleOfToken
  split <;> (try split) <;> rfl

/-- The characters of `text` on no background. -/
structure Plainly (text : List Char) (painted : List Painted) : Prop where
  chars : painted.map Painted.char = text
  bg : ∀ p ∈ painted, p.style.bg = none

namespace Plainly

variable {text : List Char}

theorem paint (plainly : Plainly text painted) (hchar : ∀ p, (change p).char = p.char)
    (hbg : ∀ p, (change p).style.bg = none) : Plainly text (paint columns change painted) where
  chars := (map_char_paint hchar).trans plainly.chars
  bg := forall_paint plainly.bg fun p _ => hbg p

theorem paintTokens (plainly : Plainly text painted) (tokens : List Token) (number width : Nat) :
    Plainly text (tokens.foldl (fun painted token =>
      Viewer.paint (extentOnLine token number width)
        (fun p => { p with style := styleOfToken token, covered := true }) painted) painted) := by
  induction tokens generalizing painted with
  | nil => exact plainly
  | cons token tokens induction =>
    exact induction (plainly.paint (fun _ => rfl) fun _ => styleOfToken_bg token)

theorem paintComment (plainly : Plainly text painted) : Plainly text (paintComment painted) := by
  have hsplit := List.prefix_iff_eq_append.mp
    (List.takeWhile_prefix (l := painted) fun p => p.covered || p.char != '#')
  simp only [Viewer.paintComment]
  generalize painted.takeWhile _ = before at hsplit ⊢
  obtain ⟨rfl, hbg⟩ := plainly
  constructor
  · conv_rhs => rw [← hsplit]
    rw [List.map_append, List.map_append, List.map_map]
    congr 2
    funext p
    simp only [Function.comp_apply]
    split <;> rfl
  · rw [← hsplit] at hbg
    simp only [List.forall_mem_append, List.forall_mem_map] at hbg ⊢
    refine ⟨hbg.1, fun p hp => ?_⟩
    split
    · exact hbg.2 p hp
    · rfl

end Plainly

variable {view : SourceView} {text : List Char}

/-- Under the layers of the current token and of the error, a line is its characters on no
background. -/
theorem exists_painted (view : SourceView) (number : Nat) (text : List Char) :
    ∃ base, Plainly text base ∧
      view.painted number text =
        (paint (view.error.bind fun error => errorColumns error number text.length)
          (fun p => { p with style := errorStyle })
          (paint (view.current.bind fun token => extentOnLine token number text.length)
            (fun p => { p with style := currentStyle p.style }) base)).map
          fun p => ⟨String.singleton p.char, p.style⟩ := by
  have start : Plainly text
      (text.map fun c => Painted.mk c (Style.plain.withFg Palette.fg) false) := by
    refine ⟨by simp [Function.comp_def], ?_⟩
    rw [List.forall_mem_map]
    exact fun _ _ => rfl
  refine ⟨_, (start.paintTokens view.tokens.toList number text.length).paintComment, ?_⟩
  simp only [SourceView.painted, ← Array.foldl_toList]

theorem flatMap_symbol_painted (view : SourceView) (number : Nat) (text : List Char) :
    (view.painted number text).flatMap (fun cell => cell.symbol.toList) = text := by
  obtain ⟨base, plainly, hpainted⟩ := exists_painted view number text
  rw [hpainted, List.flatMap_map]
  simp only [String.toList_singleton]
  rw [← List.map_eq_flatMap]
  refine (map_char_paint ?_).trans ((map_char_paint ?_).trans plainly.chars)
  · exact fun _ => rfl
  · exact fun _ => rfl

theorem within_bind {α : Type} (item : Option α) (columnsOf : α → Option (Nat × Nat))
    (column : Nat) :
    Within (item.bind columnsOf) column ↔ ∃ a ∈ item, Within (columnsOf a) column := by
  cases item with
  | none => simp [Within]
  | some a => simp

/-- The error is seen where it marks a character, and the current token elsewhere where it covers
one. -/
theorem style_painted (hcolumn : column < text.length) :
    ∃ style, ((view.painted number text).map Cell.style)[column]? = some style ∧
      (style = errorStyle ↔ ∃ error ∈ view.error, error.Marks ⟨number, column⟩) ∧
      ((¬ ∃ error ∈ view.error, error.Marks ⟨number, column⟩) →
        ((∃ base, style = currentStyle base) ↔
          ∃ token ∈ view.current, token.Covers ⟨number, column⟩)) := by
  obtain ⟨base, plainly, hpainted⟩ := exists_painted view number text
  have hlength : base.length = text.length := by rw [← plainly.chars, List.length_map]
  obtain ⟨p, hp⟩ : ∃ p, base[column]? = some p :=
    ⟨_, List.getElem?_eq_getElem (hlength ▸ hcolumn)⟩
  have hplain : p.style.bg = none := plainly.bg p (List.mem_of_getElem? hp)
  have hmarks :=
    within_bind view.error (fun error => errorColumns error number text.length) column
  have hcovers :=
    within_bind view.current (fun token => extentOnLine token number text.length) column
  simp only [within_errorColumns _ hcolumn] at hmarks
  simp only [within_extentOnLine _ hcolumn] at hcovers
  rw [hpainted, List.map_map, List.getElem?_map, ← hmarks, ← hcovers]
  by_cases hmarked :
      Within (view.error.bind fun error => errorColumns error number text.length) column
  · rw [getElem?_paint_within hmarked]
    by_cases hcovered :
        Within (view.current.bind fun token => extentOnLine token number text.length) column
    · rw [getElem?_paint_within hcovered, hp]
      exact ⟨_, rfl, iff_of_true rfl hmarked, absurd hmarked⟩
    · rw [getElem?_paint_aside hcovered, hp]
      exact ⟨_, rfl, iff_of_true rfl hmarked, absurd hmarked⟩
  · rw [getElem?_paint_aside hmarked]
    by_cases hcovered :
        Within (view.current.bind fun token => extentOnLine token number text.length) column
    · rw [getElem?_paint_within hcovered, hp]
      refine ⟨_, rfl, iff_of_false (fun hsame => ?_) hmarked, fun _ => iff_of_true ⟨_, rfl⟩ hcovered⟩
      exact absurd (congrArg Style.bg hsame) (show some Palette.tokenBack ≠ some Palette.red by decide)
    · rw [getElem?_paint_aside hcovered, hp]
      refine ⟨_, rfl, iff_of_false (fun hsame => ?_) hmarked, fun _ => iff_of_false ?_ hcovered⟩
      · cases hplain.symm.trans (congrArg Style.bg hsame)
      · rintro ⟨under, hsame⟩
        cases hplain.symm.trans (congrArg Style.bg hsame)

/-! ### Pieces -/

def stylesOf (runs : List Run) : List Style :=
  runs.flatMap fun run => List.replicate run.text.length run.style

namespace Row

variable {row stretch : Row}

theorem style_of_mem_stretch (hstretch : stretch ∈ row.stretches) :
    ∀ cell ∈ stretch, cell.style = stretch.firstStyle := by
  have hchain : stretch.IsChain fun a b => a.style = b.style :=
    (List.isChain_of_mem_splitBy hstretch).imp fun _ _ => beq_iff_eq.mp
  cases stretch with
  | nil => simp
  | cons first others =>
    have : IsTrans Cell fun a b => a.style = b.style := ⟨fun _ _ _ => Eq.trans⟩
    intro cell hcell
    obtain rfl | hcell := List.mem_cons.mp hcell
    · rfl
    · exact ((List.pairwise_cons.mp hchain.pairwise).1 cell hcell).symm

theorem flatMap_stretches {α : Type} (row : Row) (f : Cell → List α) :
    row.stretches.flatMap (fun stretch => stretch.flatMap f) = row.flatMap f := by
  conv_rhs => rw [← List.flatten_splitBy (fun a b : Cell => a.style == b.style) row]
  rw [← List.flatMap_id, List.flatMap_assoc]
  rfl

theorem toList_text (row : Row) : row.text.toList = row.flatMap fun cell => cell.symbol.toList := by
  rw [text, String.toList_join, List.flatMap_map]

theorem flatMap_text_runs (row : Row) :
    row.runs.flatMap (fun run => run.text.toList) = row.flatMap fun cell => cell.symbol.toList := by
  rw [runs, List.flatMap_map, ← flatMap_stretches]
  simp only [toList_text]

theorem isChain_runs (row : Row) : row.runs.IsChain fun a b => a.style ≠ b.style := by
  rw [runs, List.isChain_map]
  refine (List.isChain_getLast_head_splitBy _ row).imp_of_mem_imp ?_
  rintro a b ha hb ⟨hleft, hright, hdiffer⟩ hsame
  have hlast := style_of_mem_stretch ha _ (List.getLast_mem hleft)
  have hfirst := style_of_mem_stretch hb _ (List.head_mem hright)
  rw [beq_eq_false_iff_ne, hlast, hfirst] at hdiffer
  exact hdiffer hsame

/-- Each cell shows one character. -/
def Single (row : Row) : Prop :=
  ∀ cell ∈ row, cell.symbol.length = 1

theorem single_painted (view : SourceView) (number : Nat) (text : List Char) :
    Single (view.painted number text) := by
  obtain ⟨base, _, hpainted⟩ := exists_painted view number text
  rw [hpainted, Single, List.forall_mem_map]
  exact fun p _ => String.length_singleton

theorem Single.of_mem_stretches (single : Single row) (hstretch : stretch ∈ row.stretches) :
    Single stretch := by
  intro cell hcell
  refine single cell ?_
  rw [← List.flatten_splitBy (fun a b : Cell => a.style == b.style) row]
  exact List.mem_flatten_of_mem hstretch hcell

theorem Single.length_text (single : Single row) : row.text.length = row.length := by
  induction row with
  | nil => rfl
  | cons cell row induction =>
    have hrest := induction fun other hother => single other (List.mem_cons_of_mem _ hother)
    have hfirst := single cell List.mem_cons_self
    rw [← String.length_toList, toList_text] at hrest ⊢
    rw [List.flatMap_cons, List.length_append, hrest, String.length_toList, hfirst,
      List.length_cons, Nat.add_comm]

theorem Single.text_ne_empty (single : Single row) : ∀ run ∈ row.runs, run.text ≠ "" := by
  intro run hrun hempty
  obtain ⟨stretch, hstretch, rfl⟩ := List.mem_map.mp hrun
  have hlength := (single.of_mem_stretches hstretch).length_text
  replace hempty : Row.text stretch = "" := hempty
  rw [hempty] at hlength
  exact List.ne_nil_of_mem_splitBy hstretch (List.length_eq_zero_iff.mp hlength.symm)

theorem Single.stylesOf_runs (single : Single row) : stylesOf row.runs = row.map Cell.style := by
  rw [stylesOf, runs, List.flatMap_map, List.map_eq_flatMap, ← flatMap_stretches]
  refine List.flatMap_congr fun stretch hstretch => ?_
  rw [← List.map_eq_flatMap, (single.of_mem_stretches hstretch).length_text, eq_comm,
    List.eq_replicate_iff, List.length_map, List.forall_mem_map]
  exact ⟨rfl, style_of_mem_stretch hstretch⟩

end Row

/-- Highlighting changes nothing but styles. It paints within the line, its pieces are the line, none
is empty and neighbours differ. A character has the style of the error exactly where that marks it,
and otherwise the style of the current token exactly where that covers it. -/
theorem highlight_keeps_text (view : SourceView) (number : Nat) (line : List Char) :
    (∀ token start stop, extentOnLine token number line.length = some (start, stop) →
      start < stop ∧ stop ≤ line.length) ∧
    (∀ error start stop, errorColumns error number line.length = some (start, stop) →
      start ≤ stop ∧ stop ≤ line.length) ∧
    (view.highlight number line).flatMap (fun run => run.text.toList) = line ∧
    (∀ run ∈ view.highlight number line, run.text ≠ "") ∧
    (view.highlight number line).IsChain (fun a b => a.style ≠ b.style) ∧
    ∀ column < line.length, ∃ style,
      (stylesOf (view.highlight number line))[column]? = some style ∧
      (style = errorStyle ↔ ∃ error ∈ view.error, error.Marks ⟨number, column⟩) ∧
      ((¬ ∃ error ∈ view.error, error.Marks ⟨number, column⟩) →
        ((∃ base, style = currentStyle base) ↔
          ∃ token ∈ view.current, token.Covers ⟨number, column⟩)) := by
  have single : Row.Single (view.painted number line) := Row.single_painted view number line
  refine ⟨fun _ _ _ => extentOnLine_bounds, fun _ _ _ => errorColumns_bounds, ?_, ?_, ?_, ?_⟩
  · exact (Row.flatMap_text_runs _).trans (flatMap_symbol_painted view number line)
  · exact single.text_ne_empty
  · exact Row.isChain_runs _
  · intro column hcolumn
    rw [SourceView.highlight, single.stylesOf_runs]
    exact style_painted hcolumn

/-- The second half of a line is in a token that goes on below it, and one character of it is in an
error that ends below it. -/
theorem highlight_keeps_text_across_lines :
    let token : Token := ⟨.string, "'ab\ncd'", ⟨1, 4⟩, ⟨2, 3⟩, "s = 'ab\n"⟩
    let error : SyntaxError := ⟨.syntactic, "invalid syntax", "", ⟨1, 5⟩, ⟨2, 3⟩, "s = 'ab\n"⟩
    let line := ['s', ' ', '=', ' ', '\'', 'a', 'b']
    let view : SourceView := ⟨"", #[token], some token, some error⟩
    5 < line.length ∧ 6 < line.length ∧
      (stylesOf (view.highlight 1 line))[5]? = some errorStyle ∧
      ∃ base, (stylesOf (view.highlight 1 line))[6]? = some (currentStyle base) := by
  intro token error line view
  obtain ⟨_, _, _, _, _, hstyles⟩ := highlight_keeps_text view 1 line
  obtain ⟨style, hstyle, hmarked, _⟩ := hstyles 5 (by decide)
  obtain ⟨style', hstyle', _, hcovered⟩ := hstyles 6 (by decide)
  obtain ⟨base, rfl⟩ := (hcovered (by simp [view, error, SyntaxError.Marks])).mpr
    ⟨token, rfl, by decide⟩
  obtain rfl := hmarked.mpr ⟨error, rfl, by decide⟩
  exact ⟨by decide, by decide, hstyle, base, hstyle'⟩

end Viewer

end ShellSyntax
