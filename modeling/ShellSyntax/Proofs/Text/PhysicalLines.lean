import Mathlib.Data.List.Basic
import ShellSyntax.Proofs.Text.Bytes

/-!
Physical lines. However a text or a file is cut, each of its lines that can be read ends in its only
line feed, and only the last line of the source may have none.
-/

namespace ShellSyntax

/-- Rows that end in their only `mark`; the last one may have none. -/
inductive Rows {α : Type} (mark : α) : List (List α) → Prop
  | nil : Rows mark []
  | last {row : List α} (hrow : row ≠ []) (hmark : mark ∉ row) : Rows mark [row]
  | row {body : List α} {rows : List (List α)} (hbody : mark ∉ body) (more : Rows mark rows) :
      Rows mark ((body ++ [mark]) :: rows)

theorem Rows.cons {α : Type} {mark item : α} {row : List α} {rows : List (List α)}
    (lines : Rows mark (row :: rows)) (hitem : item ≠ mark) :
    Rows mark ((item :: row) :: rows) := by
  generalize hall : row :: rows = all at lines
  cases lines with
  | nil => cases hall
  | last hrow hmark =>
    obtain ⟨rfl, rfl⟩ := List.cons.inj hall
    exact .last (List.cons_ne_nil _ _) (by simp [hitem.symm, hmark])
  | @row body rows hbody more =>
    obtain ⟨rfl, rfl⟩ := List.cons.inj hall
    exact .row (show mark ∉ item :: body by simp [hitem.symm, hbody]) more

theorem Text.splitLines_rows (text : List Char) : Rows '\n' (splitLines text) := by
  induction text with
  | nil => exact .nil
  | cons c rest induction =>
    rw [splitLines]
    split
    case isTrue hc =>
      subst hc
      exact .row List.not_mem_nil induction
    case isFalse hc =>
      cases hlines : splitLines rest with
      | nil => exact .last (List.cons_ne_nil _ _) (by simpa using Ne.symm hc)
      | cons line lines =>
        rw [hlines] at induction
        exact induction.cons hc

/-! ### Lines of a text -/

namespace Text

theorem splitLines_line {body : List Char} (rest : List Char) (hbody : '\n' ∉ body) :
    splitLines (body ++ '\n' :: rest) = (body ++ ['\n']) :: splitLines rest := by
  induction body with
  | nil => simp [splitLines]
  | cons c body induction =>
    rw [List.mem_cons, not_or] at hbody
    rw [List.cons_append, splitLines, if_neg (Ne.symm hbody.1), induction hbody.2]
    rfl

theorem splitLines_last {line : List Char} (hline : line ≠ []) (hfeed : '\n' ∉ line) :
    splitLines line = [line] := by
  induction line with
  | nil => exact absurd rfl hline
  | cons c line induction =>
    rw [List.mem_cons, not_or] at hfeed
    rw [splitLines, if_neg (Ne.symm hfeed.1)]
    cases line with
    | nil => rfl
    | cons d line => rw [induction (List.cons_ne_nil _ _) hfeed.2]

/-- The line on which the character at `place` stands. -/
def physicalLine (text : List Char) (place : Nat) : List Char :=
  ((splitLines text)[(text.take place).count '\n']?).getD []

variable {body rest : List Char} {place : Nat}

theorem physicalLine_first (hbody : '\n' ∉ body) (hplace : place ≤ body.length) :
    physicalLine (body ++ '\n' :: rest) place = body ++ ['\n'] := by
  have hnone : '\n' ∉ body.take place := fun hfeed => hbody (List.mem_of_mem_take hfeed)
  rw [physicalLine, List.take_append_of_le_length hplace, List.count_eq_zero_of_not_mem hnone,
    splitLines_line rest hbody]
  rfl

theorem physicalLine_later (hbody : '\n' ∉ body) :
    physicalLine (body ++ '\n' :: rest) (body.length + 1 + place) = physicalLine rest place := by
  have htake : (body ++ '\n' :: rest).take (body.length + 1 + place) =
      body ++ '\n' :: rest.take place := by
    rw [List.take_append, List.take_of_length_le (by omega),
      show body.length + 1 + place - body.length = place + 1 by omega, List.take_succ_cons]
  rw [physicalLine, htake, splitLines_line rest hbody, List.count_append, List.count_cons_self,
    List.count_eq_zero_of_not_mem hbody, Nat.zero_add, List.getElem?_cons_succ]
  rfl

theorem physicalLine_last {line : List Char} (hfeed : '\n' ∉ line) :
    physicalLine line place = line := by
  have hnone : '\n' ∉ line.take place := fun hmem => hfeed (List.mem_of_mem_take hmem)
  rw [physicalLine, List.count_eq_zero_of_not_mem hnone]
  by_cases hline : line = []
  · rw [hline]
    rfl
  · rw [splitLines_last hline hfeed]
    rfl

end Text

/-! ### Lines of a source -/

namespace Source

theorem splitBytes_rows (bytes : List UInt8) : Rows 10 (splitBytes bytes) := by
  induction bytes with
  | nil => exact .nil
  | cons b rest induction =>
    rw [splitBytes]
    split
    case isTrue hb =>
      subst hb
      exact .row List.not_mem_nil induction
    case isFalse hb =>
      cases hlines : splitBytes rest with
      | nil => exact .last (List.cons_ne_nil _ _) (by simpa using Ne.symm hb)
      | cons line lines =>
        rw [hlines] at induction
        exact induction.cons hb

/-- Lines as they stand in a text or a file. -/
inductive Cut : Source → Prop
  | nil : Cut []
  | last {line : List Char} (hline : line ≠ []) (hfeed : '\n' ∉ line) : Cut [.text line]
  | line {body : List Char} {unread : Source} (hbody : '\n' ∉ body) (more : Cut unread) :
      Cut (.text (body ++ ['\n']) :: unread)
  | undecodable {unread : Source} (more : Cut unread) : Cut (.undecodable :: unread)

theorem cut_ofText (text : List Char) : Cut (ofText text) := by
  have lines := Text.splitLines_rows text
  rw [ofText]
  generalize Text.splitLines text = rows at lines
  induction lines with
  | nil => exact .nil
  | last hrow hmark => exact .last hrow hmark
  | row hbody _ induction => exact .line hbody induction

theorem feed_mem_encoded {line : List Char} :
    10 ∈ line.flatMap String.utf8EncodeChar ↔ '\n' ∈ line := by
  rw [List.mem_flatMap]
  constructor
  · rintro ⟨c, hc, hbyte⟩
    by_contra hnone
    exact not_mem_utf8EncodeChar (fun hfeed => hnone (hfeed ▸ hc)) hbyte
  · intro hfeed
    exact ⟨'\n', hfeed, by rw [utf8EncodeChar_lineFeed]; exact List.mem_singleton_self 10⟩

theorem cut_ofBytes (bytes : List UInt8) : Cut (ofBytes bytes) := by
  have lines := splitBytes_rows bytes
  rw [ofBytes]
  generalize splitBytes bytes = rows at lines
  induction lines with
  | nil => exact .nil
  | @last row hrow hmark =>
    cases hline : decodeLine row with
    | undecodable =>
      rw [List.map_singleton, hline]
      exact .undecodable .nil
    | text line =>
      rw [List.map_singleton, hline]
      have hencoded := encoded_of_decodeLine hline
      refine .last ?_ ?_
      · rintro rfl
        exact hrow hencoded
      · intro hfeed
        exact hmark (hencoded ▸ feed_mem_encoded.mpr hfeed)
  | @row body rows hbody _ induction =>
    rw [List.map_cons]
    cases hline : decodeLine (body ++ [10]) with
    | undecodable => exact .undecodable induction
    | text line =>
      have hencoded := encoded_of_decodeLine hline
      have hfeed : '\n' ∈ line :=
        feed_mem_encoded.mp (hencoded ▸ List.mem_append_right _ (List.mem_singleton_self 10))
      obtain ⟨first, more, rfl, hfirst⟩ := List.eq_append_cons_of_mem hfeed
      rw [List.flatMap_append, List.flatMap_cons, utf8EncodeChar_lineFeed] at hencoded
      have hends := (List.append_cons_inj_of_notMem hbody List.not_mem_nil).mp hencoded
      have hmore : more = [] := by
        have hnone := List.flatMap_eq_nil_iff.mp hends.2.2.symm
        exact List.eq_nil_iff_forall_not_mem.mpr fun c hc => utf8EncodeChar_ne_nil c (hnone c hc)
      rw [hmore]
      exact .line hfirst induction

theorem Cut.tail {line : SourceLine} {unread : Source} (cut : Cut (line :: unread)) :
    Cut unread := by
  cases cut with
  | last => exact .nil
  | line _ more => exact more
  | undecodable more => exact more

theorem Cut.unread_eq_nil {line : List Char} {unread : Source} (cut : Cut (.text line :: unread))
    (hlast : line.getLast? ≠ some '\n') : unread = [] := by
  cases cut with
  | last => rfl
  | line => exact absurd List.getLast?_concat hlast

theorem Cut.eq_nil_of_feed {rest : List Char} {unread : Source}
    (cut : Cut (.text ('\n' :: rest) :: unread)) : rest = [] := by
  generalize hline : '\n' :: rest = line at cut
  cases cut with
  | last _ hfeed => exact absurd (hline ▸ List.mem_cons_self) hfeed
  | @line body _ hbody =>
    cases body with
    | nil => exact (List.cons.inj hline).2
    | cons c body =>
      obtain ⟨rfl, _⟩ := List.cons.inj hline
      exact absurd List.mem_cons_self hbody

theorem Cut.empty_notMem {source : Source} (cut : Cut source) : .text [] ∉ source := by
  induction cut with
  | nil => exact List.not_mem_nil
  | last hline => simpa using Ne.symm hline
  | line _ _ induction => simpa using induction
  | undecodable _ induction => simpa using induction

theorem Cut.drop {line : List Char} {unread : Source} (cut : Cut (.text line :: unread))
    (count : Nat) :
    line.drop count = [] ∧ Cut unread ∨ Cut (.text (line.drop count) :: unread) := by
  by_cases hrest : line.drop count = []
  · exact .inl ⟨hrest, cut.tail⟩
  · right
    cases cut with
    | last _ hfeed => exact .last hrest fun hmem => hfeed (List.mem_of_mem_drop hmem)
    | @line body _ hbody more =>
      have hcount : count ≤ body.length := by
        rw [List.drop_eq_nil_iff, List.length_append, List.length_singleton] at hrest
        omega
      rw [List.drop_append_of_le_length hcount]
      exact .line (fun hmem => hbody (List.mem_of_mem_drop hmem)) more

/-- `line` is what is left of a line that is not over, and `unread` are the lines behind it. -/
def Remains (line : List Char) (unread : Source) : Prop :=
  line = [] ∧ unread = [] ∨ Cut (.text line :: unread)

theorem Cut.behind {first line : List Char} {unread : Source} {c : Char}
    (cut : Cut (.text (first ++ line) :: unread)) (hlast : first.getLast? = some c)
    (hc : c ≠ '\n') : Remains line unread := by
  by_cases hline : line = []
  · subst hline
    rw [List.append_nil] at cut
    cases cut with
    | last => exact .inl ⟨rfl, rfl⟩
    | line =>
      rw [List.getLast?_concat, Option.some.injEq] at hlast
      exact absurd hlast.symm hc
  · obtain hnil | hrest := cut.drop first.length
    · rw [List.drop_left] at hnil
      exact absurd hnil.1 hline
    · rw [List.drop_left] at hrest
      exact .inr hrest

theorem Cut.skip {line next : SourceLine} {unread : Source} (cut : Cut (line :: next :: unread)) :
    Cut (line :: unread) := by
  cases cut with
  | line hbody more => exact .line hbody more.tail
  | undecodable more => exact .undecodable more.tail

/-- The text of a source as far as it can be read. -/
def readable (source : Source) : List Char :=
  source.readAll.1.flatten

@[simp] theorem readable_nil : readable [] = [] :=
  rfl

@[simp] theorem readable_undecodable (unread : Source) : readable (.undecodable :: unread) = [] :=
  rfl

@[simp] theorem readable_text (line : List Char) (unread : Source) :
    readable (.text line :: unread) = line ++ readable unread :=
  rfl

theorem Cut.eq_ofText {source : Source} (cut : Cut source) (hall : .undecodable ∉ source) :
    source = ofText source.readable := by
  induction cut with
  | nil => rfl
  | last hline hfeed =>
    rw [readable_text, readable_nil, List.append_nil, ofText, Text.splitLines_last hline hfeed]
    rfl
  | @line body unread hbody _ induction =>
    rw [List.mem_cons, not_or] at hall
    rw [readable_text, List.append_assoc, List.singleton_append, ofText,
      Text.splitLines_line _ hbody, List.map_cons]
    exact congrArg _ (induction hall.2)
  | undecodable => exact absurd List.mem_cons_self hall

end Source

end ShellSyntax
