import Mathlib.Data.Nat.Find
import ShellSyntax.Proofs.Lexer.Quotations
import ShellSyntax.Proofs.Lexer.Readable

/-!
Where string literals end. The closing quote is the first quote that no odd run of backslashes
stands before, on whatever line it is; without triple quotes no line end may stand before it that is
not behind such a run itself.
-/

namespace ShellSyntax

/-! ### Runs of backslashes -/

namespace Text

/-- How many backslashes stand right before `place`. -/
def escapesBefore (text : List Char) (place : Nat) : Nat :=
  ((text.take place).reverse.takeWhile (· == '\\')).length

/-- No odd run of backslashes stands right before `place`. -/
def Bare (text : List Char) (place : Nat) : Prop :=
  escapesBefore text place % 2 = 0

instance {text : List Char} {place : Nat} : Decidable (Bare text place) :=
  inferInstanceAs (Decidable (_ = _))

variable {text : List Char} {c : Char} {place : Nat}

theorem bare_zero : Bare text 0 :=
  rfl

theorem bare_cons (hc : c ≠ '\\') : Bare (c :: text) (place + 1) ↔ Bare text place := by
  simp only [Bare, escapesBefore, List.take_succ_cons, List.reverse_cons, List.takeWhile_append]
  split <;> simp [*]

theorem not_bare_one : ¬ Bare ('\\' :: text) 1 := by
  simp [Bare, escapesBefore]

theorem bare_escape : Bare ('\\' :: c :: text) (place + 2) ↔ Bare text place := by
  simp only [Bare, escapesBefore, List.take_succ_cons, List.reverse_cons, List.append_assoc,
    List.takeWhile_append]
  split
  case isTrue hall =>
    rw [hall]
    by_cases hc : c = '\\'
    · simp [hc]
    · simp [hc]
  case isFalse => rfl

theorem bare_append {line : List Char} (hplace : place ≤ line.length) :
    Bare (line ++ text) place ↔ Bare line place := by
  rw [Bare, Bare, escapesBefore, escapesBefore, List.take_append_of_le_length hplace]

theorem bare_behind {line : List Char} (hlast : line.getLast? = some c) (hc : c ≠ '\\') :
    Bare (line ++ text) (line.length + place) ↔ Bare text place := by
  obtain ⟨before, rfl⟩ := List.getLast?_eq_some_iff.mp hlast
  rw [Bare, Bare, escapesBefore, escapesBefore, List.take_length_add_append]
  simp only [List.reverse_append, List.takeWhile_append]
  split <;> simp [*]

theorem getLast?_of_not_bare (hbare : ¬ Bare text text.length) : text.getLast? = some '\\' := by
  rw [Bare, escapesBefore, List.take_length] at hbare
  rw [← List.head?_reverse]
  cases hreverse : text.reverse with
  | nil => simp [hreverse] at hbare
  | cons d rest =>
    by_cases hd : d = '\\'
    · rw [hd]
      rfl
    · simp [hreverse, hd] at hbare

/-- A line end stands at `place` that is not escaped. The line feed behind a carriage return belongs
to the line end that starts there. -/
def Breaks (text : List Char) (place : Nat) : Prop :=
  Bare text place ∧ (text[place]? = some '\r' ∨
    text[place]? = some '\n' ∧ (text.take place).getLast? ≠ some '\r')

instance {text : List Char} {place : Nat} : Decidable (Breaks text place) :=
  inferInstanceAs (Decidable (_ ∧ _))

theorem Breaks.lt (breaks : Breaks text place) : place < text.length := by
  obtain hfeed | ⟨hfeed, _⟩ := breaks.2 <;> exact (List.getElem?_eq_some_iff.mp hfeed).1

theorem breaks_line {body rest : List Char} (hplace : place ≤ body.length) :
    Breaks (body ++ '\n' :: rest) place ↔ Breaks (body ++ ['\n']) place := by
  rw [Breaks, Breaks, List.append_cons body '\n' rest, bare_append (by simp; omega),
    List.getElem?_append_left (by simp; omega), List.take_append_of_le_length (by simp; omega)]

theorem breaks_behind {body rest : List Char} :
    Breaks (body ++ '\n' :: rest) (body.length + 1 + place) ↔ Breaks rest place := by
  have hlength : body.length + 1 = (body ++ ['\n']).length := by simp
  have hlast : ((body ++ ['\n']) ++ rest.take place).getLast? = some '\r' ↔
      (rest.take place).getLast? = some '\r' := by
    rw [List.getLast?_append]
    cases (rest.take place).getLast? <;> simp
  rw [Breaks, Breaks, List.append_cons, hlength, bare_behind (c := '\n') (by simp) (by decide),
    List.getElem?_append_right (Nat.le_add_right _ _), Nat.add_sub_cancel_left,
    List.take_length_add_append, ne_eq, ne_eq, hlast]

theorem isContinued_of_escaped {before after : List Char} (hbefore : before.getLast? = some '\\')
    (hafter : ∀ c ∈ after, Lexeme.isLineBreak c = true) (hsome : after ≠ []) :
    Lexeme.isContinued (before ++ after) = true := by
  have hbare : withoutTerminator after = [] := by
    rw [withoutTerminator, List.reverse_eq_nil_iff, List.dropWhile_eq_nil_iff]
    intro c hc
    exact hafter c (List.mem_reverse.mp hc)
  have hlength := List.length_pos_iff.mpr hsome
  rw [Lexeme.isContinued, Lexeme.withoutTerminator_append hbefore (by decide), hbare,
    List.append_nil, hbefore, List.length_append]
  simp only [beq_self_eq_true, Bool.and_true, decide_eq_true_eq]
  omega

theorem isContinued_of_unbroken {body : List Char}
    (hnone : ∀ j ≤ body.length, ¬ Breaks (body ++ ['\n']) j) :
    Lexeme.isContinued (body ++ ['\n']) = true := by
  have hescape {first after : List Char} (hall : body ++ ['\n'] = first ++ after)
      (hbare : ¬ Bare (body ++ ['\n']) first.length) : first.getLast? = some '\\' := by
    rw [hall, bare_append (Nat.le_refl _)] at hbare
    exact getLast?_of_not_bare hbare
  by_cases hreturn : body.getLast? = some '\r'
  · obtain ⟨first, rfl⟩ := List.getLast?_eq_some_iff.mp hreturn
    rw [List.append_assoc]
    refine isContinued_of_escaped (hescape (List.append_assoc ..) fun hbare => ?_) ?_ (by simp)
    · exact hnone first.length (by simp) ⟨hbare, .inl (by simp)⟩
    · simp [Lexeme.isLineBreak]
  · refine isContinued_of_escaped (hescape rfl fun hbare => ?_) ?_ (by simp)
    · exact hnone body.length (Nat.le_refl _) ⟨hbare, .inr ⟨by simp, by simpa using hreturn⟩⟩
    · simp [Lexeme.isLineBreak]

end Text

/-! ### Closing quotes -/

namespace Quote

open Text (Bare Breaks)

variable (quote : Quote)

/-- At `place` stands a quote that closes, with no odd run of backslashes before it. -/
def ClosesAt (text : List Char) (place : Nat) : Prop :=
  quote.closes (text.drop place) = true ∧ Bare text place

instance {text : List Char} {place : Nat} : Decidable (quote.ClosesAt text place) :=
  inferInstanceAs (Decidable (_ ∧ _))

/-- A literal whose opening quote stands before `text` ends with the quote at `place`. -/
structure EndsAt (text : List Char) (place : Nat) : Prop where
  closes : quote.ClosesAt text place
  first : ∀ j < place, ¬ quote.ClosesAt text j
  unbroken : quote.triple = true ∨ ∀ j < place, ¬ Breaks text j

variable {quote} {text : List Char} {c : Char} {place : Nat}

theorem not_closes_nil : quote.closes [] = false := by
  rw [← Bool.not_eq_true]
  intro hcloses
  have hsize := Lexer.size_le_of_closes hcloses
  exact absurd quote.size_pos (by simpa using hsize)

theorem closesAt_zero : quote.ClosesAt text 0 ↔ quote.closes text = true :=
  ⟨And.left, fun hcloses => ⟨hcloses, Text.bare_zero⟩⟩

theorem closesAt_cons (hc : c ≠ '\\') :
    quote.ClosesAt (c :: text) (place + 1) ↔ quote.ClosesAt text place :=
  and_congr_right fun _ => Text.bare_cons hc

theorem closesAt_escape :
    quote.ClosesAt ('\\' :: c :: text) (place + 2) ↔ quote.ClosesAt text place :=
  and_congr_right fun _ => Text.bare_escape

theorem not_closesAt_nil : ¬ quote.ClosesAt [] place := by
  intro closes
  have hclosed := closes.1
  rw [List.drop_nil, not_closes_nil] at hclosed
  cases hclosed

theorem closesAt_lt (closes : quote.ClosesAt text place) :
    place + quote.size ≤ text.length ∧ text[place]? = some quote.mark := by
  have hsize := Lexer.size_le_of_closes closes.1
  have hpositive := quote.size_pos
  rw [List.length_drop] at hsize
  refine ⟨by omega, ?_⟩
  cases hdrop : text.drop place with
  | nil =>
    rw [List.drop_eq_nil_iff] at hdrop
    omega
  | cons d rest =>
    have hcloses := closes.1
    rw [hdrop] at hcloses
    rw [← List.head?_drop, hdrop, head_of_closes hcloses]
    rfl

theorem closes_line (hmark : quote.mark ≠ '\n') (body rest : List Char) :
    quote.closes (body ++ '\n' :: rest) = quote.closes body := by
  rw [Bool.eq_iff_iff, closes, closes, List.isPrefixOf_iff_prefix, List.isPrefixOf_iff_prefix]
  generalize quote.size = size
  induction size generalizing body with
  | zero => simp
  | succ size induction =>
    cases body with
    | nil => simp [List.replicate_succ, hmark]
    | cons d body => simp [List.replicate_succ, List.cons_prefix_cons, induction]

theorem closesAt_line (hmark : quote.mark ≠ '\n') {body rest : List Char}
    (hplace : place ≤ body.length) :
    quote.ClosesAt (body ++ '\n' :: rest) place ↔ quote.ClosesAt (body ++ ['\n']) place := by
  rw [ClosesAt, ClosesAt, List.drop_append_of_le_length hplace,
    List.drop_append_of_le_length hplace, closes_line hmark, closes_line hmark,
    Text.bare_append hplace, Text.bare_append hplace]

theorem closesAt_behind {body rest : List Char} :
    quote.ClosesAt (body ++ '\n' :: rest) (body.length + 1 + place) ↔
      quote.ClosesAt rest place := by
  have hlength : body.length + 1 = (body ++ ['\n']).length := by simp
  rw [ClosesAt, ClosesAt, List.append_cons, hlength, List.drop_length_add_append,
    Text.bare_behind (c := '\n') (by simp) (by decide)]

/-- Neither a carriage return nor a line feed stands before `place` that is not escaped. -/
def Unbroken (text : List Char) (place : Nat) : Prop :=
  ∀ j < place, ∀ c, text[j]? = some c → Bare text j → Lexeme.isLineBreak c = false

/-- A line is read up to its first closing quote, if the quote is triple or no line end stands
before it. -/
theorem closingEnd?_of_first (hmark : quote.mark ≠ '\\') (closes : quote.ClosesAt text place)
    (hfirst : ∀ j < place, ¬ quote.ClosesAt text j)
    (hbroken : quote.triple = true ∨ Unbroken text place) :
    quote.closingEnd? text = some (place + quote.size) := by
  -- behind an escape or a plain character the same runs of backslashes are odd
  induction text using closingEnd?.induct (q := quote) generalizing place with
  | case1 =>
    have hsize := (closesAt_lt closes).1
    have hpositive := quote.size_pos
    rw [List.length_nil] at hsize
    omega
  | case2 =>
    have hplace := (closesAt_lt closes).2
    rw [List.getElem?_singleton] at hplace
    split at hplace
    · exact absurd (Option.some.inj hplace).symm hmark
    · cases hplace
  | case3 c rest induction =>
    obtain _ | _ | place := place
    · exact absurd (head_of_closes closes.1).symm hmark
    · exact absurd closes.2 Text.not_bare_one
    · rw [closingEnd?, induction (closesAt_escape.mp closes)
        (fun j hj hcloses => hfirst (j + 2) (by omega) (closesAt_escape.mpr hcloses))
        (hbroken.imp_right fun unbroken j hj d hd hbare =>
          unbroken (j + 2) (by omega) d hd (Text.bare_escape.mpr hbare))]
      simp only [Option.map_some, Option.some.injEq]
      omega
  | case4 c rest hone htwo hcloses =>
    cases place with
    | zero =>
      rw [closingEnd?, if_pos hcloses, Nat.zero_add]
      · exact hone
      · exact htwo
    | succ place => exact absurd (closesAt_zero.mpr hcloses) (hfirst 0 (Nat.succ_pos _))
  | case5 c rest hone htwo hcloses hbreak =>
    cases place with
    | zero => exact absurd (closesAt_zero.mp closes) hcloses
    | succ place =>
      rw [Bool.and_eq_true, Bool.not_eq_true'] at hbreak
      have unbroken := hbroken.resolve_left (by simp [hbreak.1])
      have hnone := unbroken 0 (Nat.succ_pos _) c rfl Text.bare_zero
      rw [hbreak.2] at hnone
      cases hnone
  | case6 c rest hone htwo hcloses hbreak induction =>
    have hc := ne_backslash hone htwo
    cases place with
    | zero => exact absurd (closesAt_zero.mp closes) hcloses
    | succ place =>
      rw [closingEnd?, if_neg hcloses, if_neg hbreak, induction ((closesAt_cons hc).mp closes)
        (fun j hj hcloses => hfirst (j + 1) (by omega) ((closesAt_cons hc).mpr hcloses))
        (hbroken.imp_right fun unbroken j hj d hd hbare =>
          unbroken (j + 1) (by omega) d hd ((Text.bare_cons hc).mpr hbare))]
      · simp only [Option.map_some, Option.some.injEq]
        omega
      · exact hone
      · exact htwo

/-- What is read of a line ends with a closing quote that no line end stands before, unless the
quote is triple. -/
theorem closesAt_of_closingEnd? {length : Nat} (hend : quote.closingEnd? text = some length) :
    ∃ place, length = place + quote.size ∧ quote.ClosesAt text place ∧
      (quote.triple = true ∨ Unbroken text place) := by
  induction text using closingEnd?.induct (q := quote) generalizing length with
  | case1 => simp [closingEnd?] at hend
  | case2 => simp [closingEnd?] at hend
  | case3 c rest induction =>
    simp only [closingEnd?, Option.map_eq_some_iff] at hend
    obtain ⟨inner, hinner, rfl⟩ := hend
    obtain ⟨place, rfl, closes, hbroken⟩ := induction hinner
    refine ⟨place + 2, by omega, closesAt_escape.mpr closes, hbroken.imp_right fun unbroken => ?_⟩
    intro j hj d hd hbare
    obtain _ | _ | j := j
    · obtain rfl := Option.some.inj hd
      rfl
    · exact absurd hbare Text.not_bare_one
    · exact unbroken j (by omega) d hd (Text.bare_escape.mp hbare)
  | case4 c rest hone htwo hcloses =>
    rw [closingEnd?, if_pos hcloses] at hend
    · obtain rfl := Option.some.inj hend
      exact ⟨0, (Nat.zero_add _).symm, closesAt_zero.mpr hcloses, .inr (by simp [Unbroken])⟩
    · exact hone
    · exact htwo
  | case5 c rest hone htwo hcloses hbreak =>
    rw [closingEnd?, if_neg hcloses, if_pos hbreak] at hend
    · cases hend
    · exact hone
    · exact htwo
  | case6 c rest hone htwo hcloses hbreak induction =>
    have hc := ne_backslash hone htwo
    rw [closingEnd?, if_neg hcloses, if_neg hbreak, Option.map_eq_some_iff] at hend
    · obtain ⟨inner, hinner, rfl⟩ := hend
      obtain ⟨place, rfl, closes, hbroken⟩ := induction hinner
      refine ⟨place + 1, by omega, (closesAt_cons hc).mpr closes, ?_⟩
      rw [Bool.and_eq_true, Bool.not_eq_true', not_and_or, Bool.not_eq_false,
        Bool.not_eq_true] at hbreak
      obtain htriple | hplain := hbreak
      · exact .inl htriple
      · refine hbroken.imp_right fun unbroken j hj d hd hbare => ?_
        cases j with
        | zero =>
          obtain rfl := Option.some.inj hd
          exact hplain
        | succ j => exact unbroken j (by omega) d hd ((Text.bare_cons hc).mp hbare)
    · exact hone
    · exact htwo

theorem closingEnd?_eq_none (hcloses : ∀ j, ¬ quote.ClosesAt text j) :
    quote.closingEnd? text = none := by
  cases hend : quote.closingEnd? text with
  | none => rfl
  | some length =>
    obtain ⟨place, _, closes, _⟩ := closesAt_of_closingEnd? hend
    exact absurd closes (hcloses place)

theorem closingEnd?_of_breaks (hmark : Lexeme.isLineBreak quote.mark = false)
    (htriple : quote.triple = false) (breaks : Breaks text place)
    (hcloses : ∀ j < place, ¬ quote.ClosesAt text j) : quote.closingEnd? text = none := by
  cases hend : quote.closingEnd? text with
  | none => rfl
  | some length =>
    obtain ⟨other, _, closes, hbroken⟩ := closesAt_of_closingEnd? hend
    have unbroken := hbroken.resolve_left (by simp [htriple])
    have hbreak : ∃ c, text[place]? = some c ∧ Lexeme.isLineBreak c = true := by
      obtain hreturn | ⟨hfeed, _⟩ := breaks.2
      · exact ⟨_, hreturn, rfl⟩
      · exact ⟨_, hfeed, rfl⟩
    obtain ⟨c, hc, hbreak⟩ := hbreak
    obtain hbefore | rfl | hbehind := Nat.lt_trichotomy other place
    · exact absurd closes (hcloses other hbefore)
    · rw [(closesAt_lt closes).2, Option.some.injEq] at hc
      rw [hc, hbreak] at hmark
      cases hmark
    · rw [unbroken place hbehind c hc breaks.1] at hbreak
      cases hbreak

theorem unbroken_of_not_breaks {body rest : List Char} (hbody : '\n' ∉ body)
    (hplace : place ≤ body.length) (hnone : ∀ j < place, ¬ Breaks (body ++ rest) j) :
    Unbroken (body ++ rest) place := by
  intro j hj c hc hbare
  have hfeed : c ≠ '\n' := by
    rintro rfl
    rw [List.getElem?_append_left (by omega)] at hc
    exact hbody (List.mem_of_getElem? hc)
  have hreturn : c ≠ '\r' := by
    rintro rfl
    exact hnone j hj ⟨hbare, .inl hc⟩
  simp [Lexeme.isLineBreak, hfeed, hreturn]

theorem endsAt_line (hmark : quote.mark ≠ '\n') {body rest : List Char}
    (hplace : place ≤ body.length) :
    quote.EndsAt (body ++ '\n' :: rest) place ↔ quote.EndsAt (body ++ ['\n']) place := by
  have hcloses (j : Nat) (hj : j ≤ place) :
      quote.ClosesAt (body ++ '\n' :: rest) j ↔ quote.ClosesAt (body ++ ['\n']) j :=
    closesAt_line hmark (Nat.le_trans hj hplace)
  have hbreaks (j : Nat) (hj : j < place) :
      Breaks (body ++ '\n' :: rest) j ↔ Breaks (body ++ ['\n']) j :=
    Text.breaks_line (by omega)
  constructor
  · intro ends
    exact ⟨(hcloses place (Nat.le_refl _)).mp ends.closes,
      fun j hj closes => ends.first j hj ((hcloses j (Nat.le_of_lt hj)).mpr closes),
      ends.unbroken.imp_right fun hnone j hj breaks => hnone j hj ((hbreaks j hj).mpr breaks)⟩
  · intro ends
    exact ⟨(hcloses place (Nat.le_refl _)).mpr ends.closes,
      fun j hj closes => ends.first j hj ((hcloses j (Nat.le_of_lt hj)).mp closes),
      ends.unbroken.imp_right fun hnone j hj breaks => hnone j hj ((hbreaks j hj).mp breaks)⟩

theorem endsAt_behind {body rest : List Char}
    (ends : quote.EndsAt (body ++ '\n' :: rest) (body.length + 1 + place)) :
    quote.EndsAt rest place :=
  ⟨closesAt_behind.mp ends.closes,
    fun j hj closes => ends.first _ (by omega) (closesAt_behind.mpr closes),
    ends.unbroken.imp_right fun hnone j hj breaks =>
      hnone _ (by omega) (Text.breaks_behind.mpr breaks)⟩

theorem closingEnd?_of_endsAt (hmark : quote.mark ≠ '\\') {body rest : List Char}
    (hbody : '\n' ∉ body) (hplace : place ≤ body.length)
    (ends : quote.EndsAt (body ++ rest) place) :
    quote.closingEnd? (body ++ rest) = some (place + quote.size) :=
  closingEnd?_of_first hmark ends.closes ends.first
    (ends.unbroken.imp_right fun hnone => unbroken_of_not_breaks hbody hplace hnone)

end Quote

/-! ### Readings -/

namespace Lexer

open Text (Breaks physicalLine)
open Source (Cut Remains)

section Reading

variable {quote : Quote} {start : Position} {line body : List Char} {unread : Source} {place : Nat}

/-- A reading yields the first `count` characters of `text` and stops behind them. -/
def ReadsTo (reading : Except LexError Quotation) (text : List Char) (count : Nat) : Prop :=
  ∃ q, reading = .ok q ∧ q.text = text.take count ∧
    q.rest ++ q.unread.readable = text.drop count

theorem ReadsTo.behind {below : Except LexError Quotation} {text : List Char} {count : Nat}
    (line : List Char) (reads : ReadsTo below text count) :
    ReadsTo (below.map (·.behind line)) (line ++ text) (line.length + count) := by
  obtain ⟨q, rfl, htext, hrest⟩ := reads
  refine ⟨q.behind line, rfl, ?_, ?_⟩
  · rw [List.take_length_add_append, ← htext]
    rfl
  · rw [List.drop_length_add_append, ← hrest]
    rfl

theorem readQuotation_of_closingEnd? (hend : quote.closingEnd? line = some place) :
    ReadsTo (readQuotation quote (plainGoesOn quote) start line unread)
      (line ++ unread.readable) place := by
  have hle := (Quote.closingEnd?_bounds hend).2
  refine ⟨⟨line.take place, 0, place, line.drop place, unread⟩, ?_, ?_, ?_⟩
  · rw [readQuotation, readLine, hend]
  · rw [List.take_append_of_le_length hle]
  · rw [List.drop_append_of_le_length hle]

theorem readLine_passes {rest : List Char} {below : Except LexError Quotation}
    (hmark : quote.mark ≠ '\n')
    (hcloses : ∀ j ≤ body.length, ¬ quote.ClosesAt (body ++ '\n' :: rest) j)
    (hbreaks : quote.triple = true ∨ ∀ j ≤ body.length, ¬ Breaks (body ++ '\n' :: rest) j) :
    readLine quote (plainGoesOn quote) start (body ++ ['\n']) unread below =
      below.map (·.behind (body ++ ['\n'])) := by
  have hend : quote.closingEnd? (body ++ ['\n']) = none := by
    refine Quote.closingEnd?_eq_none fun j closes => ?_
    have hj := (Quote.closesAt_lt closes).1
    have hsize := quote.size_pos
    rw [List.length_append, List.length_singleton] at hj
    have hle : j ≤ body.length := by omega
    exact hcloses j hle ((Quote.closesAt_line hmark hle).mpr closes)
  have hgoes : plainGoesOn quote (body ++ ['\n']) = true := by
    rw [plainGoesOn, Bool.or_eq_true]
    refine hbreaks.imp_right fun hnone => Text.isContinued_of_unbroken fun j hj breaks => ?_
    exact hnone j hj ((Text.breaks_line hj).mpr breaks)
  rw [readLine, hend, hgoes, if_pos rfl]

/-! A quotation with a quote that ends it is read up to there. -/

theorem readQuotation_ends_last (hmark : quote.mark ≠ '\\') (hfeed : '\n' ∉ line)
    (ends : quote.EndsAt line place) :
    ReadsTo (readQuotation quote (plainGoesOn quote) start line []) line (place + quote.size) := by
  have hplace := (Quote.closesAt_lt ends.closes).1
  have hend : quote.closingEnd? (line ++ []) = some (place + quote.size) :=
    Quote.closingEnd?_of_endsAt hmark hfeed (by omega) (by rwa [List.append_nil])
  rw [List.append_nil] at hend
  have reads : ReadsTo (readQuotation quote (plainGoesOn quote) start line [])
      (line ++ Source.readable []) (place + quote.size) := readQuotation_of_closingEnd? hend
  rwa [Source.readable_nil, List.append_nil] at reads

theorem readQuotation_ends_line (hmark : quote.mark = '\'' ∨ quote.mark = '"') (hbody : '\n' ∉ body)
    (hbelow : ∀ place, quote.EndsAt unread.readable place →
      ReadsTo (readBelow quote (plainGoesOn quote) start unread) unread.readable
        (place + quote.size))
    (ends : quote.EndsAt (body ++ '\n' :: unread.readable) place) :
    ReadsTo (readQuotation quote (plainGoesOn quote) start (body ++ ['\n']) unread)
      (body ++ '\n' :: unread.readable) (place + quote.size) := by
  have hfeed := Quote.mark_ne_lineFeed hmark
  by_cases hplace : place ≤ body.length
  · have hend := Quote.closingEnd?_of_endsAt (Quote.mark_ne_backslash hmark) hbody hplace
      ((Quote.endsAt_line hfeed hplace).mp ends)
    rw [List.append_cons body _ unread.readable]
    exact readQuotation_of_closingEnd? hend
  · obtain ⟨further, rfl⟩ : ∃ further, place = body.length + 1 + further :=
      Nat.exists_eq_add_of_le (by omega)
    have reads := (hbelow further (Quote.endsAt_behind ends)).behind (body ++ ['\n'])
    rw [readQuotation, readLine_passes hfeed (fun j hj => ends.first j (by omega))
      (ends.unbroken.imp_right fun hnone j hj => hnone j (by omega))]
    rw [← List.append_cons, List.length_append, List.length_singleton, ← Nat.add_assoc] at reads
    exact reads

theorem readBelow_ends (hmark : quote.mark = '\'' ∨ quote.mark = '"') (cut : Cut unread)
    (ends : quote.EndsAt unread.readable place) :
    ReadsTo (readBelow quote (plainGoesOn quote) start unread) unread.readable
      (place + quote.size) := by
  induction cut generalizing place with
  | nil => exact absurd ends.closes Quote.not_closesAt_nil
  | undecodable => exact absurd ends.closes Quote.not_closesAt_nil
  | last _ hfeed =>
    rw [Source.readable_text, Source.readable_nil, List.append_nil] at ends ⊢
    exact readQuotation_ends_last (Quote.mark_ne_backslash hmark) hfeed ends
  | line hbody _ induction =>
    rw [Source.readable_text, ← List.append_cons] at ends ⊢
    exact readQuotation_ends_line hmark hbody (fun _ => induction) ends

theorem readQuotation_ends (start : Position) (hmark : quote.mark = '\'' ∨ quote.mark = '"')
    (remains : Remains line unread) (ends : quote.EndsAt (line ++ unread.readable) place) :
    ReadsTo (readQuotation quote (plainGoesOn quote) start line unread) (line ++ unread.readable)
      (place + quote.size) := by
  obtain ⟨rfl, rfl⟩ | cut := remains
  · exact absurd ends.closes Quote.not_closesAt_nil
  · exact readBelow_ends hmark cut ends

/-! A quotation in plain quotes has no end if a line end comes first that is not escaped, unless a
backslash ends its line. -/

/-- The first line end that is not escaped stands at `place`, before any quote that closes. -/
structure BreaksOff (quote : Quote) (text : List Char) (place : Nat) : Prop where
  breaks : Breaks text place
  first : ∀ j < place, ¬ Breaks text j
  closes : ∀ j < place, ¬ quote.ClosesAt text j

theorem BreaksOff.later {text : List Char}
    (off : BreaksOff quote (body ++ '\n' :: text) (body.length + 1 + place)) :
    BreaksOff quote text place :=
  ⟨Text.breaks_behind.mp off.breaks,
    fun j hj breaks => off.first _ (by omega) (Text.breaks_behind.mpr breaks),
    fun j hj closes => off.closes _ (by omega) (Quote.closesAt_behind.mpr closes)⟩

theorem readQuotation_breaks_here (hmark : Lexeme.isLineBreak quote.mark = false)
    (htriple : quote.triple = false) (breaks : Breaks line place)
    (hcloses : ∀ j < place, ¬ quote.ClosesAt line j) (hover : Lexeme.isContinued line = false) :
    readQuotation quote (plainGoesOn quote) start line unread =
      .error (.unterminatedString start) := by
  have hgoes : plainGoesOn quote line = false := by rw [plainGoesOn, htriple, hover]; rfl
  simp only [readQuotation, readLine, Quote.closingEnd?_of_breaks hmark htriple breaks hcloses,
    hgoes, Bool.false_eq_true, if_false]

theorem readQuotation_breaks_line (hmark : quote.mark = '\'' ∨ quote.mark = '"')
    (htriple : quote.triple = false) (hbody : '\n' ∉ body)
    (hbelow : ∀ place, BreaksOff quote unread.readable place →
      Lexeme.isContinued (physicalLine unread.readable place) = false →
      readBelow quote (plainGoesOn quote) start unread = .error (.unterminatedString start))
    (off : BreaksOff quote (body ++ '\n' :: unread.readable) place)
    (hover : Lexeme.isContinued (physicalLine (body ++ '\n' :: unread.readable) place) = false) :
    readQuotation quote (plainGoesOn quote) start (body ++ ['\n']) unread =
      .error (.unterminatedString start) := by
  have hfeed := Quote.mark_ne_lineFeed hmark
  by_cases hplace : place ≤ body.length
  · rw [Text.physicalLine_first hbody hplace] at hover
    exact readQuotation_breaks_here (Quote.mark_no_lineBreak hmark) htriple
      ((Text.breaks_line hplace).mp off.breaks)
      (fun j hj closes => off.closes j hj ((Quote.closesAt_line hfeed (by omega)).mpr closes)) hover
  · obtain ⟨further, rfl⟩ : ∃ further, place = body.length + 1 + further :=
      Nat.exists_eq_add_of_le (by omega)
    rw [Text.physicalLine_later hbody] at hover
    rw [readQuotation, readLine_passes hfeed (fun j hj => off.closes j (by omega))
      (.inr fun j hj => off.first j (by omega)), hbelow further off.later hover]
    rfl

theorem readBelow_breaks (hmark : quote.mark = '\'' ∨ quote.mark = '"')
    (htriple : quote.triple = false) (cut : Cut unread)
    (off : BreaksOff quote unread.readable place)
    (hover : Lexeme.isContinued (physicalLine unread.readable place) = false) :
    readBelow quote (plainGoesOn quote) start unread = .error (.unterminatedString start) := by
  induction cut generalizing place with
  | nil => exact absurd off.breaks.lt (Nat.not_lt_zero _)
  | undecodable => exact absurd off.breaks.lt (Nat.not_lt_zero _)
  | last _ hfeed =>
    rw [Source.readable_text, Source.readable_nil, List.append_nil] at off hover
    rw [Text.physicalLine_last hfeed] at hover
    exact readQuotation_breaks_here (Quote.mark_no_lineBreak hmark) htriple off.breaks off.closes
      hover
  | line hbody _ induction =>
    rw [Source.readable_text, ← List.append_cons] at off hover
    exact readQuotation_breaks_line hmark htriple hbody (fun _ => induction) off hover

theorem readQuotation_breaks (start : Position) (hmark : quote.mark = '\'' ∨ quote.mark = '"')
    (htriple : quote.triple = false) (remains : Remains line unread)
    (off : BreaksOff quote (line ++ unread.readable) place)
    (hover : Lexeme.isContinued (physicalLine (line ++ unread.readable) place) = false) :
    readQuotation quote (plainGoesOn quote) start line unread =
      .error (.unterminatedString start) := by
  obtain ⟨rfl, rfl⟩ | cut := remains
  · exact absurd off.breaks.lt (Nat.not_lt_zero _)
  · exact readBelow_breaks hmark htriple cut off hover

/-! A quotation with no quote that closes fails where the source ends or cannot be read. -/

/-- Nothing closes, and no line end stands in the way of reading on. -/
structure StaysOpen (quote : Quote) (text : List Char) : Prop where
  closes : ∀ j, ¬ quote.ClosesAt text j
  unbroken : quote.triple = true ∨ ∀ j, ¬ Breaks text j

theorem StaysOpen.later {text : List Char} (stays : StaysOpen quote (body ++ '\n' :: text)) :
    StaysOpen quote text :=
  ⟨fun _ closes => stays.closes _ (Quote.closesAt_behind.mpr closes),
    stays.unbroken.imp_right fun hnone _ breaks => hnone _ (Text.breaks_behind.mpr breaks)⟩

theorem readQuotation_open_last (stays : StaysOpen quote line) :
    readQuotation quote (plainGoesOn quote) start line [] = .error (.unterminatedString start) := by
  simp only [readQuotation, readLine, Quote.closingEnd?_eq_none stays.closes, readBelow]
  split <;> rfl

theorem readQuotation_open_line (hmark : quote.mark ≠ '\n')
    (stays : StaysOpen quote (body ++ '\n' :: unread.readable)) {e : LexError}
    (hbelow : readBelow quote (plainGoesOn quote) start unread = .error e) :
    readQuotation quote (plainGoesOn quote) start (body ++ ['\n']) unread = .error e := by
  rw [readQuotation, readLine_passes hmark (fun j _ => stays.closes j)
    (stays.unbroken.imp_right fun hnone j _ => hnone j), hbelow]
  rfl

theorem readBelow_open (hmark : quote.mark ≠ '\n') (cut : Cut unread)
    (stays : StaysOpen quote unread.readable) :
    readBelow quote (plainGoesOn quote) start unread =
      .error (unread.readAll.2.getD (.unterminatedString start)) := by
  induction cut with
  | nil => rfl
  | undecodable => rfl
  | last =>
    rw [Source.readable_text, Source.readable_nil, List.append_nil] at stays
    exact readQuotation_open_last stays
  | line _ _ induction =>
    rw [Source.readable_text, ← List.append_cons] at stays
    exact readQuotation_open_line hmark stays (induction stays.later)

theorem readQuotation_open (start : Position) (hmark : quote.mark ≠ '\n')
    (remains : Remains line unread) (stays : StaysOpen quote (line ++ unread.readable)) :
    readQuotation quote (plainGoesOn quote) start line unread =
      .error (unread.readAll.2.getD (.unterminatedString start)) := by
  obtain ⟨rfl, rfl⟩ | cut := remains
  · exact readQuotation_open_last stays
  · exact readBelow_open hmark cut stays

theorem breaksOff_or_staysOpen {text : List Char} (hnone : ∀ i, ¬ quote.EndsAt text i) :
    quote.triple = false ∧ (∃ t, BreaksOff quote text t) ∨ StaysOpen quote text := by
  -- of the line ends that are not escaped the first one decides
  have hoff {j : Nat} (breaks : Breaks text j) (hcloses : ∀ i < j, ¬ quote.ClosesAt text i) :
      ∃ t, BreaksOff quote text t := by
    have hsome : ∃ j, Breaks text j := ⟨j, breaks⟩
    have hle := Nat.find_min' hsome breaks
    exact ⟨Nat.find hsome, Nat.find_spec hsome, fun _ => Nat.find_min hsome,
      fun i hi => hcloses i (Nat.lt_of_lt_of_le hi hle)⟩
  have hopen (hkept : quote.triple = true ∨ ¬ ∃ t, BreaksOff quote text t) :
      StaysOpen quote text := by
    have hcloses : ∀ i, ¬ quote.ClosesAt text i := by
      intro i closes
      have hsome : ∃ i, quote.ClosesAt text i := ⟨i, closes⟩
      have hfirst (j : Nat) (hj : j < Nat.find hsome) := Nat.find_min hsome hj
      refine hnone _ ⟨Nat.find_spec hsome, hfirst, hkept.imp_right fun hwhole j hj breaks => ?_⟩
      exact hwhole (hoff breaks fun i hi => hfirst i (hi.trans hj))
    refine ⟨hcloses, hkept.imp_right fun hwhole j breaks => ?_⟩
    exact hwhole (hoff breaks fun i _ => hcloses i)
  by_cases htriple : quote.triple = true
  · exact .inr (hopen (.inl htriple))
  · by_cases hbroken : ∃ t, BreaksOff quote text t
    · exact .inl ⟨by simpa using htriple, hbroken⟩
    · exact .inr (hopen (.inr hbroken))

end Reading

/-! ### Strings -/

/-- The text from the cursor on, as far as it can be read. -/
def ahead (l : Lexer) : List Char :=
  l.rest ++ l.unread.readable

variable {source : Source} {tabSize : Nat} {found : List Token} {l : Lexer}

/-- Where the lexer starts a plain string, its token ends with the first quote that closes and has
no odd run of backslashes before it, on whatever line; without triple quotes no line end stands
before that quote that is not behind such a run. Where there is no such quote, and no line that
holds the line end in its way ends in a backslash, the string is unterminated from its start on, or
the source cannot be read to its end. -/
theorem strings_end_at_closing_quote {letters : List Char} {quote : Quote} (cut : Cut source)
    (visited : Visits source tabSize found l) (hpending : l.pending = [])
    (hworks : l.finished = false) (houtside : l.Outside)
    (hopening : StringLetters.opening? l.rest = some (letters, quote))
    (hplain : StringLetters.isFormatted letters = false) :
    let opening := letters.length + quote.size
    let body := l.ahead.drop opening
    (∀ i, quote.EndsAt body i →
      ∃ l', pull l = .ok ⟨.string, String.ofList (l.ahead.take (opening + (i + quote.size))),
          l.here, l'.here, l.lineText⟩ l' ∧
        l'.ahead = l.ahead.drop (opening + (i + quote.size))) ∧
    ((∀ i, ¬ quote.EndsAt body i) →
      (quote.triple = false → ∀ t, BreaksOff quote body t →
        Lexeme.isContinued (physicalLine body t) = false) →
      ∃ e l', pull l = .error e l' ∧ (e = .unterminatedString l.here ∨
        l.unread.readAll.2 = some e ∧ ∀ i, ¬ quote.ClosesAt body i)) := by
  intro opening body
  have hmark := StringLetters.mark_of_opening? hopening
  have hfeed := Quote.mark_ne_lineFeed hmark
  have hbounds := (StringLetters.opening?_bounds hopening).1
  have hsplit := (List.take_append_drop opening l.rest).symm
  have hfirst : (l.rest.take opening).length = opening := List.length_take_of_le hbounds
  have physical := visited.physical cut
  have hrest : l.rest ≠ [] := by
    intro hnil
    rw [hnil, List.length_nil] at hbounds
    have hsize := quote.size_pos
    omega
  -- the opening ends in its quote, so it does not end its line
  have remains : Remains (l.rest.drop opening) l.unread := by
    have cut := physical.resolve_left fun hnil => hrest hnil.1
    rw [hsplit] at cut
    exact cut.behind (StringLetters.getLast?_opening hopening) hfeed
  have hbody : body = l.rest.drop opening ++ l.unread.readable :=
    List.drop_append_of_le_length hbounds
  have hahead : l.ahead = l.rest.take opening ++ body := by
    rw [hbody, ← List.append_assoc, List.take_append_drop]
    rfl
  have pulls := pull_string houtside hpending hworks visited.inLine.2 physical.unread.empty_notMem
    hopening hplain hsplit hfirst
  refine ⟨fun i ends => ?_, fun hnone hover => ?_⟩
  · rw [hbody] at ends
    obtain ⟨q, hread, htext, hbehind⟩ := readQuotation_ends l.here hmark remains ends
    rw [hread] at pulls
    obtain ⟨l', hrest', hunread', _, hpull⟩ := pulls
    refine ⟨l', ?_, ?_⟩
    · rw [hpull, htext, ← hbody, hahead, List.take_append, hfirst, Nat.add_sub_cancel_left,
        List.take_take, Nat.min_eq_right (Nat.le_add_right _ _)]
    · rw [ahead, hrest', hunread', hbehind, ← hbody]
      exact List.drop_drop
  · obtain ⟨htriple, t, off⟩ | stays := breaksOff_or_staysOpen hnone
    · have hread := readQuotation_breaks l.here hmark htriple remains (hbody ▸ off)
        (hbody ▸ hover htriple t off)
      rw [hread] at pulls
      obtain ⟨l', hpull⟩ := pulls
      exact ⟨_, l', hpull, .inl rfl⟩
    · have hread := readQuotation_open l.here hfeed remains (hbody ▸ stays)
      rw [hread] at pulls
      obtain ⟨l', hpull⟩ := pulls
      refine ⟨_, l', hpull, ?_⟩
      cases hfailure : l.unread.readAll.2 with
      | none => exact .inl rfl
      | some e => exact .inr ⟨rfl, stays.closes⟩

/-- A string that ends on its second line, behind a quote and a line end that are escaped. -/
theorem strings_end_at_closing_quote_continued :
    ∃ found l l', Visits (.ofString "'a\\'\\\nb' c\n") 8 found l ∧
      pull l = .ok ⟨.string, "'a\\'\\\nb'", l.here, l'.here, l.lineText⟩ l' ∧
      l'.ahead = " c\n".toList := by
  have visited : Visits (.ofString "'a\\'\\\nb' c\n") 8 _ _ := Visits.start.step rfl rfl
  generalize hl : Outcome.final (step (ofSource (.ofString "'a\\'\\\nb' c\n") 8)) = l at visited
  have hahead : l.ahead = "'a\\'\\\nb' c\n".toList := by
    rw [← hl]
    decide +kernel
  have hopening : StringLetters.opening? l.rest = some ([], ⟨'\'', false⟩) := by
    rw [← hl]
    decide +kernel
  have ends := strings_end_at_closing_quote (Source.cut_ofText _) visited
    (by rw [← hl]; decide +kernel) (by rw [← hl]; rfl) (by rw [← hl]; exact .inl rfl) hopening
    (by decide)
  rw [hahead] at ends
  obtain ⟨l', hpull, hbehind⟩ := ends.1 6 ⟨by decide, by decide, .inr (by decide)⟩
  exact ⟨_, l, l', visited, hpull, hbehind⟩

/-- The token of a string in plain quotes may hold a line end that is not escaped: of two
backslashes at the end of a line the first escapes the second, and yet the string goes on. -/
theorem continued_behind_escaped_backslash :
    ∃ found l, Visits (.ofString "'a\\\\\nb'\n") 8 found l ∧
      Outcome.value? (pull l) =
        some ⟨.string, "'a\\\\\nb'", ⟨1, 0⟩, ⟨2, 2⟩, "'a\\\\\n"⟩ ∧
      Breaks ("'a\\\\\nb'".toList.drop 1) 3 ∧
      ∀ i, ¬ Quote.EndsAt ⟨'\'', false⟩ (l.ahead.drop 1) i := by
  have visited : Visits (.ofString "'a\\\\\nb'\n") 8 _ _ := Visits.start.step rfl rfl
  refine ⟨_, _, visited, by decide +kernel, by decide, fun i ends => ?_⟩
  have hahead : (Outcome.final (step (ofSource (.ofString "'a\\\\\nb'\n") 8))).ahead =
      "'a\\\\\nb'\n".toList := by decide +kernel
  rw [hahead] at ends
  have hbefore : i ≤ 3 := by
    by_contra hbehind
    exact ends.unbroken.elim nofun fun hnone => hnone 3 (by omega) (by decide)
  have hnone : ∀ i ≤ 3, ¬ Quote.ClosesAt ⟨'\'', false⟩ ("'a\\\\\nb'\n".toList.drop 1) i := by decide
  exact hnone i hbefore ends.closes

end Lexer

end ShellSyntax
