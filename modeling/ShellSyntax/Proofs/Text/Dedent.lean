import Mathlib.Data.List.TakeWhile
import ShellSyntax.Proofs.Text.PhysicalLines

/-!
Common indentation. The margin that a text loses is the longest white space with which all its lines
start that are not blank, and the text keeps its lines apart from that.
-/

namespace ShellSyntax

namespace Text

/-! ### Common prefixes -/

theorem commonPrefix_leads (as bs : List Char) :
    commonPrefix as bs <+: as ∧ commonPrefix as bs <+: bs := by
  induction as generalizing bs with
  | nil => exact ⟨List.prefix_refl _, List.nil_prefix⟩
  | cons a as induction =>
    cases bs with
    | nil => exact ⟨List.nil_prefix, List.prefix_refl _⟩
    | cons b bs =>
      rw [commonPrefix]
      split
      case isTrue hab =>
        subst hab
        exact ⟨List.cons_prefix_cons.mpr ⟨rfl, (induction bs).1⟩,
          List.cons_prefix_cons.mpr ⟨rfl, (induction bs).2⟩⟩
      case isFalse => exact ⟨List.nil_prefix, List.nil_prefix⟩

theorem prefix_commonPrefix {first as bs : List Char} (has : first <+: as) (hbs : first <+: bs) :
    first <+: commonPrefix as bs := by
  induction first generalizing as bs with
  | nil => exact List.nil_prefix
  | cons c first induction =>
    obtain ⟨_, rfl⟩ := has
    obtain ⟨_, rfl⟩ := hbs
    rw [List.cons_append, List.cons_append, commonPrefix, if_pos rfl]
    exact List.cons_prefix_cons.mpr
      ⟨rfl, induction (List.prefix_append _ _) (List.prefix_append _ _)⟩

/-! ### Margins -/

/-- `margin` is the longest white space with which all of `lines` start. -/
structure Margin (lines : List (List Char)) (margin : List Char) : Prop where
  blank : allBlank margin = true
  leads : ∀ line ∈ lines, margin <+: line
  longest : lines ≠ [] → ∀ other, allBlank other = true → (∀ line ∈ lines, other <+: line) →
    other <+: margin

theorem prefix_takeWhile {margin line : List Char} (hblank : allBlank margin = true)
    (hleads : margin <+: line) : margin <+: line.takeWhile isBlank := by
  obtain ⟨rest, rfl⟩ := hleads
  rw [List.takeWhile_append_of_pos (List.all_eq_true.mp hblank)]
  exact List.prefix_append _ _

theorem margin_commonMargin (lines : List (List Char)) : Margin lines (commonMargin lines) := by
  induction lines with
  | nil => exact ⟨rfl, by simp, by simp⟩
  | cons line lines induction =>
    cases lines with
    | nil =>
      refine ⟨List.all_takeWhile, ?_, fun _ other hblank hleads => ?_⟩
      · simpa [commonMargin] using List.takeWhile_prefix isBlank
      · exact prefix_takeWhile hblank (hleads line List.mem_cons_self)
    | cons next lines =>
      obtain ⟨hfirst, hrest⟩ :=
        commonPrefix_leads (line.takeWhile isBlank) (commonMargin (next :: lines))
      refine ⟨?_, ?_, ?_⟩
      · obtain ⟨more, hmore⟩ := hrest
        have hblank := induction.blank
        rw [← hmore, allBlank, List.all_append, Bool.and_eq_true] at hblank
        exact hblank.1
      · intro other hother
        obtain rfl | hother := List.mem_cons.mp hother
        · exact hfirst.trans (List.takeWhile_prefix _)
        · exact hrest.trans (induction.leads other hother)
      · intro _ other hblank hleads
        refine prefix_commonPrefix ?_ ?_
        · exact prefix_takeWhile hblank (hleads line List.mem_cons_self)
        · exact induction.longest (List.cons_ne_nil _ _) other hblank fun line hline =>
            hleads line (List.mem_cons_of_mem _ hline)

/-- A line without its margin; of a blank line only the line feed is left. -/
def withoutMargin (margin line : List Char) : List Char :=
  if allBlank line then (if line.getLast? = some '\n' then ['\n'] else [])
  else line.drop margin.length

theorem dedent_flatten {lines : List (List Char)} (hlines : splitLines lines.flatten = lines) :
    ∃ margin, Margin (lines.filter fun line => !allBlank line) margin ∧
      dedent lines.flatten = lines.flatMap (withoutMargin margin) :=
  ⟨_, margin_commonMargin _, by rw [dedent, hlines]; rfl⟩

theorem splitLines_flatten_of_rows {lines below : List (List Char)}
    (rows : Rows '\n' (lines ++ below)) : splitLines lines.flatten = lines := by
  induction lines with
  | nil => rfl
  | cons line lines induction =>
    generalize hall : line :: lines ++ below = all at rows
    cases rows with
    | nil => cases hall
    | @last row hrow hmark =>
      obtain ⟨rfl, hnil⟩ := List.cons.inj hall
      obtain ⟨rfl, _⟩ := List.append_eq_nil_iff.mp hnil
      rw [List.flatten_cons, List.flatten_nil, List.append_nil]
      exact splitLines_last hrow hmark
    | @row body rows hbody more =>
      obtain ⟨rfl, rfl⟩ := List.cons.inj hall
      rw [List.flatten_cons, List.append_assoc, List.singleton_append, splitLines_line _ hbody,
        induction more]

theorem rows_of_append {above below : List (List Char)} (rows : Rows '\n' (above ++ below)) :
    Rows '\n' below := by
  induction above with
  | nil => exact rows
  | cons line above induction =>
    generalize hall : line :: above ++ below = all at rows
    cases rows with
    | nil => cases hall
    | last =>
      obtain ⟨_, hnil⟩ := List.cons.inj hall
      exact (List.append_eq_nil_iff.mp hnil).2 ▸ .nil
    | row _ more =>
      obtain ⟨_, rfl⟩ := List.cons.inj hall
      exact induction more

/-! ### Lines that lose their margin -/

/-- The lines of a text beside those that are left of them when every line that is not blank loses
`margin`: of a blank line the line feed is left, and nothing if it has none. -/
inductive LosesMargin (margin : List Char) : List (List Char) → List (List Char) → Prop
  | nil : LosesMargin margin [] []
  | blankEnd {line : List Char} (hblank : allBlank line = true) (hfeed : '\n' ∉ line) :
      LosesMargin margin [line] []
  | blank {body : List Char} {lines kept : List (List Char)}
      (hblank : allBlank (body ++ ['\n']) = true) (more : LosesMargin margin lines kept) :
      LosesMargin margin ((body ++ ['\n']) :: lines) (['\n'] :: kept)
  | line {rest : List Char} {lines kept : List (List Char)}
      (hrest : allBlank (margin ++ rest) = false) (more : LosesMargin margin lines kept) :
      LosesMargin margin ((margin ++ rest) :: lines) (rest :: kept)

section

variable {margin line rest : List Char} {lines kept : List (List Char)}

theorem allBlank_append (as bs : List Char) :
    allBlank (as ++ bs) = (allBlank as && allBlank bs) :=
  List.all_append

theorem allBlank_rest (hmargin : allBlank margin = true)
    (hrest : allBlank (margin ++ rest) = false) : allBlank rest = false := by
  rwa [allBlank_append, hmargin, Bool.true_and] at hrest

theorem withoutMargin_line (hrest : allBlank (margin ++ rest) = false) :
    withoutMargin margin (margin ++ rest) = rest := by
  rw [withoutMargin, hrest, if_neg Bool.false_ne_true, List.drop_left]

theorem withoutMargin_blank (hblank : allBlank (line ++ ['\n']) = true) :
    withoutMargin margin (line ++ ['\n']) = ['\n'] := by
  rw [withoutMargin, if_pos hblank, List.getLast?_concat, if_pos rfl]

theorem withoutMargin_blankEnd (hblank : allBlank line = true) (hfeed : '\n' ∉ line) :
    withoutMargin margin line = [] := by
  rw [withoutMargin, if_pos hblank, if_neg fun hlast => hfeed (List.mem_of_getLast? hlast)]

theorem margin_prefix_body {body : List Char} (hmargin : allBlank margin = true)
    (hleads : margin <+: body ++ ['\n']) (hline : allBlank (body ++ ['\n']) = false) :
    margin <+: body := by
  obtain hwhole | hbody := List.prefix_concat_iff.mp hleads
  · rw [← hwhole, hmargin] at hline
    cases hline
  · exact hbody

/-- Where the margin stands before every line that is not blank, what is left are rows again. -/
theorem losesMargin_of_rows (rows : Rows '\n' lines) (hmargin : allBlank margin = true)
    (hleads : ∀ line ∈ lines, allBlank line = false → margin <+: line) :
    ∃ kept, LosesMargin margin lines kept ∧ Rows '\n' kept ∧
      kept.flatten = lines.flatMap (withoutMargin margin) := by
  induction rows with
  | nil => exact ⟨[], .nil, .nil, rfl⟩
  | @last line hline hfeed =>
    cases hblank : allBlank line with
    | true =>
      refine ⟨[], .blankEnd hblank hfeed, .nil, ?_⟩
      rw [List.flatMap_singleton, withoutMargin_blankEnd hblank hfeed]
      rfl
    | false =>
      obtain ⟨rest, rfl⟩ := hleads line (List.mem_singleton_self line) hblank
      have hrest : rest ≠ [] := by
        rintro rfl
        simpa [allBlank] using allBlank_rest hmargin hblank
      refine ⟨[rest], .line hblank .nil,
        .last hrest fun hmem => hfeed (List.mem_append_right margin hmem), ?_⟩
      rw [List.flatMap_singleton, withoutMargin_line hblank, List.flatten_singleton]
  | @row body lines hbody more induction =>
    obtain ⟨kept, loses, rowsKept, hkept⟩ :=
      induction fun line hline => hleads line (List.mem_cons_of_mem _ hline)
    cases hblank : allBlank (body ++ ['\n']) with
    | true =>
      refine ⟨['\n'] :: kept, .blank hblank loses, .row List.not_mem_nil rowsKept, ?_⟩
      rw [List.flatten_cons, List.flatMap_cons, withoutMargin_blank hblank, hkept]
    | false =>
      obtain ⟨rest, rfl⟩ :=
        margin_prefix_body hmargin (hleads _ List.mem_cons_self hblank) hblank
      rw [List.append_assoc] at hblank ⊢
      refine ⟨(rest ++ ['\n']) :: kept, .line hblank loses,
        .row (fun hmem => hbody (List.mem_append_right margin hmem)) rowsKept, ?_⟩
      rw [List.flatten_cons, List.flatMap_cons, withoutMargin_line hblank, hkept]

theorem LosesMargin.lines_eq (loses : LosesMargin margin lines kept)
    (hmargin : allBlank margin = true) :
    lines.filter (fun line => !allBlank line) =
      (kept.filter fun line => !allBlank line).map (margin ++ ·) := by
  induction loses with
  | nil => rfl
  | blankEnd hblank => simp [hblank]
  | blank hblank _ induction =>
    have hfeed : allBlank ['\n'] = true := by decide
    simp [hblank, hfeed, induction]
  | line hrest _ induction => simp [hrest, allBlank_rest hmargin hrest, induction]

theorem LosesMargin.eq_feed (loses : LosesMargin margin lines kept)
    (hmargin : allBlank margin = true) (hline : line ∈ kept) (hblank : allBlank line = true) :
    line = ['\n'] := by
  induction loses with
  | nil => cases hline
  | blankEnd => cases hline
  | blank _ _ induction =>
    obtain rfl | hline := List.mem_cons.mp hline
    · rfl
    · exact induction hline
  | line hrest _ induction =>
    obtain rfl | hline := List.mem_cons.mp hline
    · rw [allBlank_rest hmargin hrest] at hblank
      cases hblank
    · exact induction hline

theorem LosesMargin.margin_eq_nil {again : List Char} (loses : LosesMargin margin lines kept)
    (hmargin : Margin (lines.filter fun line => !allBlank line) margin)
    (hagain : Margin (kept.filter fun line => !allBlank line) again)
    (hkept : (kept.filter fun line => !allBlank line) ≠ []) : again = [] := by
  rw [loses.lines_eq hmargin.blank] at hmargin
  have hlonger : margin ++ again <+: margin := by
    refine hmargin.longest (by simpa using hkept) _ ?_ ?_
    · rw [allBlank_append, hmargin.blank, hagain.blank]
      rfl
    · intro line hline
      obtain ⟨rest, hrest, rfl⟩ := List.mem_map.mp hline
      exact (List.prefix_append_right_inj margin).mpr (hagain.leads rest hrest)
  have hlength := hlonger.length_le
  rw [List.length_append] at hlength
  exact List.length_eq_zero_iff.mp (by omega)

theorem LosesMargin.flatMap_eq {again : List Char} (loses : LosesMargin margin lines kept)
    (hmargin : Margin (lines.filter fun line => !allBlank line) margin)
    (hagain : Margin (kept.filter fun line => !allBlank line) again) :
    kept.flatMap (withoutMargin again) = kept.flatten := by
  rw [List.flatMap_def]
  congr 1
  refine (List.map_congr_left fun line hline => ?_).trans (List.map_id kept)
  cases hblank : allBlank line with
  | true =>
    rw [loses.eq_feed hmargin.blank hline hblank]
    rfl
  | false =>
    have hmem : line ∈ kept.filter fun line => !allBlank line :=
      List.mem_filter.mpr ⟨hline, by rw [hblank]; rfl⟩
    rw [loses.margin_eq_nil hmargin hagain (List.ne_nil_of_mem hmem), withoutMargin, hblank]
    rfl

end

/-- Of every text the lines that are not blank lose the longest white space with which they all
start, the blank ones all but their line feed, and nothing is lost the second time. -/
theorem dedent_exact (text : List Char) :
    ∃ margin, Margin ((splitLines text).filter fun line => !allBlank line) margin ∧
      LosesMargin margin (splitLines text) (splitLines (dedent text)) ∧
      dedent (dedent text) = dedent text := by
  have hmargin := margin_commonMargin ((splitLines text).filter fun line => !allBlank line)
  obtain ⟨kept, loses, rows, hkept⟩ := losesMargin_of_rows (splitLines_rows text) hmargin.blank
    fun line hline hblank =>
      hmargin.leads line (List.mem_filter.mpr ⟨hline, by rw [hblank]; rfl⟩)
  have htext : dedent text = kept.flatten := hkept.symm
  have rows : Rows '\n' (kept ++ []) := by rwa [List.append_nil]
  have hlines := splitLines_flatten_of_rows rows
  refine ⟨_, hmargin, ?_, ?_⟩
  · rwa [htext, hlines]
  · obtain ⟨again, hagain, hdedent⟩ := dedent_flatten hlines
    rw [htext, hdedent, loses.flatMap_eq hmargin hagain]

end Text

end ShellSyntax
