import Mathlib.Data.List.DropRight
import Mathlib.Data.List.Induction
import ShellSyntax.Proofs.Text.Dedent
import ShellSyntax.Proofs.Text.Escapes

/-!
Texts whose lines end in a carriage return and a line feed. They have the same lines, margins and
escapes as with line feeds alone. Only a backslash in front of a line end tells the two apart: in
front of a line feed it joins the lines of a literal, and otherwise it stays.
-/

namespace ShellSyntax

namespace Text

/-- Every line feed gets a carriage return in front of it. -/
def withReturns (text : List Char) : List Char :=
  text.flatMap fun c => if c = '\n' then ['\r', '\n'] else [c]

/-- What the text of a literal is made of. -/
inductive Segment where
  /-- A character as it stands there. -/
  | plain (c : Char)
  /-- An escape, by what it stands for. -/
  | escape (decoded : List Char)
  /-- A line end behind a backslash. -/
  | joint
deriving DecidableEq, Repr

namespace Segment

def text : Segment → List Char
  | plain c => [c]
  | escape decoded => decoded
  | joint => []

/-- The text where lines end in a carriage return and a line feed. -/
def textWithReturns : Segment → List Char
  | plain c => withReturns [c]
  | escape decoded => decoded
  | joint => ['\\', '\r', '\n']

end Segment

/-- The segments of a literal's text whose lines end in line feeds. -/
def segments : List Char → List Segment
  | [] => []
  | '\\' :: next :: rest =>
    if next = '\n' then .joint :: segments rest
    else .escape (escape next rest).1 :: segments (rest.drop (escape next rest).2)
  | c :: rest => .plain c :: segments rest
termination_by text => text.length
decreasing_by all_goals simp +arith

variable {text rest a b : List Char} {c next : Char} {p : Char → Bool} {joints : Bool}

/-! ### Returns -/

@[simp] theorem withReturns_nil : withReturns [] = [] :=
  rfl

theorem withReturns_lineFeed (rest : List Char) :
    withReturns ('\n' :: rest) = '\r' :: '\n' :: withReturns rest :=
  rfl

theorem withReturns_cons (hc : c ≠ '\n') (rest : List Char) :
    withReturns (c :: rest) = c :: withReturns rest := by
  rw [withReturns, List.flatMap_cons, if_neg hc]
  rfl

theorem take_withReturns {count : Nat} (h : '\n' ∉ text.take count) :
    (withReturns text).take count = text.take count ∧
      (withReturns text).drop count = withReturns (text.drop count) := by
  induction count generalizing text with
  | zero => exact ⟨rfl, rfl⟩
  | succ count induction =>
    cases text with
    | nil => exact ⟨rfl, rfl⟩
    | cons c rest =>
      rw [List.take_succ_cons, List.mem_cons, not_or] at h
      obtain ⟨htake, hdrop⟩ := induction h.2
      rw [withReturns_cons (Ne.symm h.1)]
      exact ⟨congrArg (c :: ·) htake, hdrop⟩

/-- Where a line feed stood among the first characters, a carriage return stands now. -/
theorem return_mem_take {count : Nat} (h : '\n' ∈ text.take count) :
    '\r' ∈ (withReturns text).take count := by
  induction count generalizing text with
  | zero => cases h
  | succ count induction =>
    cases text with
    | nil => cases h
    | cons c rest =>
      by_cases hc : c = '\n'
      · subst hc
        exact List.mem_cons_self
      · rw [List.take_succ_cons, List.mem_cons] at h
        rw [withReturns_cons hc]
        exact List.mem_cons_of_mem _ (induction (h.resolve_left (Ne.symm hc)))

theorem takeWhile_take_withReturns {count : Nat} (hfeed : p '\n' = false) (hreturn : p '\r' = false) :
    ((withReturns text).take count).takeWhile p = (text.take count).takeWhile p := by
  induction count generalizing text with
  | zero => rfl
  | succ count induction =>
    cases text with
    | nil => rfl
    | cons c rest =>
      by_cases hc : c = '\n'
      · subst hc
        rw [withReturns_lineFeed, List.take_succ_cons, List.take_succ_cons]
        simp [hfeed, hreturn]
      · rw [withReturns_cons hc, List.take_succ_cons, List.take_succ_cons, List.takeWhile_cons,
          List.takeWhile_cons, induction]

@[simp] theorem withReturns_append (first second : List Char) :
    withReturns (first ++ second) = withReturns first ++ withReturns second :=
  List.flatMap_append

theorem withReturns_of_no_feed (h : '\n' ∉ text) : withReturns text = text := by
  induction text with
  | nil => rfl
  | cons c rest induction =>
    rw [List.mem_cons, not_or] at h
    rw [withReturns_cons (Ne.symm h.1), induction h.2]

@[simp] theorem withReturns_eq_nil : withReturns text = [] ↔ text = [] := by
  cases text with
  | nil => simp
  | cons c rest =>
    by_cases hc : c = '\n'
    · simp [hc, withReturns_lineFeed]
    · simp [withReturns_cons hc]

theorem length_withReturns (text : List Char) :
    (withReturns text).length = text.length + text.count '\n' := by
  induction text with
  | nil => rfl
  | cons c rest induction =>
    by_cases hc : c = '\n'
    · subst hc
      rw [withReturns_lineFeed, List.length_cons, List.length_cons, List.length_cons, induction,
        List.count_cons_self]
      omega
    · rw [withReturns_cons hc, List.length_cons, List.length_cons, induction,
        List.count_cons_of_ne hc]
      omega

theorem cut_withReturns (text : List Char) (count : Nat) :
    (withReturns text).take (count + (text.take count).count '\n') =
        withReturns (text.take count) ∧
      (withReturns text).drop (count + (text.take count).count '\n') =
        withReturns (text.drop count) := by
  obtain hle | hlt := Nat.le_total count text.length
  · have hlength : count + (text.take count).count '\n' = (withReturns (text.take count)).length := by
      rw [length_withReturns, List.length_take_of_le hle]
    have hsplit : withReturns text =
      withReturns (text.take count) ++ withReturns (text.drop count) := by
      rw [← withReturns_append, List.take_append_drop]
    rw [hsplit, hlength]
    exact ⟨List.take_left, List.drop_left⟩
  · have hall : (withReturns text).length ≤ count + (text.take count).count '\n' := by
      rw [length_withReturns, List.take_of_length_le hlt]
      omega
    rw [List.take_of_length_le hall, List.drop_of_length_le hall, List.take_of_length_le hlt,
      List.drop_of_length_le hlt]
    exact ⟨rfl, rfl⟩

theorem takeWhile_withReturns (hfeed : p '\n' = false) (hreturn : p '\r' = false) :
    (withReturns text).takeWhile p = text.takeWhile p := by
  induction text with
  | nil => rfl
  | cons c rest induction =>
    by_cases hc : c = '\n'
    · subst hc
      simp [withReturns_lineFeed, hfeed, hreturn]
    · rw [withReturns_cons hc, List.takeWhile_cons, List.takeWhile_cons, induction]

theorem isPrefixOf_withReturns {word : List Char} (hfeed : '\n' ∉ word) (hreturn : '\r' ∉ word)
    (text : List Char) : word.isPrefixOf (withReturns text) = word.isPrefixOf text := by
  induction word generalizing text with
  | nil => rfl
  | cons d word induction =>
    rw [List.mem_cons, not_or] at hfeed hreturn
    cases text with
    | nil => rfl
    | cons c rest =>
      by_cases hc : c = '\n'
      · subst hc
        have hne : ∀ e : Char, e ≠ d → (d == e) = false := fun e he => beq_false_of_ne he.symm
        rw [withReturns_lineFeed, List.isPrefixOf_cons_cons, List.isPrefixOf_cons_cons, hne _ hfeed.1,
          hne _ hreturn.1]
        rfl
      · rw [withReturns_cons hc, List.isPrefixOf_cons_cons, List.isPrefixOf_cons_cons,
          induction hfeed.2 hreturn.2]

theorem all_withReturns (hsame : p '\n' = p '\r') :
    (withReturns text).all p = text.all p := by
  induction text with
  | nil => rfl
  | cons c rest induction =>
    by_cases hc : c = '\n'
    · subst hc
      rw [withReturns_lineFeed]
      simp [induction, ← hsame]
    · rw [withReturns_cons hc, List.all_cons, List.all_cons, induction]

theorem dropWhile_withReturns (hfeed : p '\n' = true) (hreturn : p '\r' = true) :
    (withReturns text).dropWhile p = withReturns (text.dropWhile p) := by
  induction text with
  | nil => rfl
  | cons c rest induction =>
    by_cases hc : c = '\n'
    · subst hc
      simp [withReturns_lineFeed, hfeed, hreturn, induction]
    · rw [withReturns_cons hc, List.dropWhile_cons, List.dropWhile_cons, induction]
      split
      · rfl
      · rw [withReturns_cons hc]

theorem rdropWhile_withReturns (hfeed : p '\n' = true) (hreturn : p '\r' = true) :
    (withReturns text).rdropWhile p = withReturns (text.rdropWhile p) := by
  induction text using List.reverseRecOn with
  | nil => rfl
  | append_singleton text c induction =>
    rw [withReturns_append]
    by_cases hc : c = '\n'
    · subst hc
      have hpair : withReturns ['\n'] = ['\r'] ++ ['\n'] := rfl
      rw [hpair, ← List.append_assoc, List.rdropWhile_concat_pos _ _ _ hfeed,
        List.rdropWhile_concat_pos _ _ _ hreturn, List.rdropWhile_concat_pos _ _ _ hfeed, induction]
    · have hone : withReturns [c] = [c] := withReturns_cons hc []
      rw [hone, List.rdropWhile_concat, List.rdropWhile_concat, induction]
      split
      · rfl
      · rw [withReturns_append, hone]

theorem splitLines_withReturns (text : List Char) :
    splitLines (withReturns text) = (splitLines text).map withReturns := by
  induction text with
  | nil => rfl
  | cons c rest induction =>
    by_cases hc : c = '\n'
    · subst hc
      have hfeed (rest : List Char) : splitLines ('\n' :: rest) = ['\n'] :: splitLines rest := by
        rw [splitLines, if_pos rfl]
      rw [withReturns_lineFeed, splitLines, if_neg (by decide), hfeed, hfeed, List.map_cons,
        induction]
      rfl
    · rw [withReturns_cons hc, splitLines, splitLines, if_neg hc, if_neg hc, induction]
      cases splitLines rest with
      | nil => simp [withReturns_cons hc]
      | cons line lines => simp [withReturns_cons hc]

theorem withoutTerminator_withReturns (text : List Char) :
    withoutTerminator (withReturns text) = withReturns (withoutTerminator text) :=
  rdropWhile_withReturns (p := fun c => c == '\n' || c == '\r') rfl rfl

theorem trim_withReturns (text : List Char) : trim (withReturns text) = withReturns (trim text) := by
  rw [trim, trim, trimStart, trimStart, dropWhile_withReturns (by decide) (by decide)]
  exact rdropWhile_withReturns (by decide) (by decide)

theorem allBlank_withReturns (text : List Char) : allBlank (withReturns text) = allBlank text :=
  all_withReturns (by decide)

/-! ### Escapes -/

theorem hexNumber?_eq_none (hmem : c ∈ text) (hsign : c ≠ '+') (hdigit : hexDigit? c = none) :
    hexNumber? text = none := by
  have hfold (digits : List Char) (value : Nat) (hmem : c ∈ digits) :
      digits.foldlM (fun value c => (hexDigit? c).map (value * 16 + ·)) value = none := by
    induction digits generalizing value with
    | nil => cases hmem
    | cons d digits induction =>
      rw [List.foldlM_cons]
      rcases List.mem_cons.mp hmem with rfl | hmem
      · rw [hdigit]
        rfl
      · cases hd : hexDigit? d with
        | none => rfl
        | some more => exact induction _ hmem
  have hkept : c ∈ if text.head? = some '+' then text.tail else text := by
    split
    case isTrue hplus =>
      cases text with
      | nil => cases hmem
      | cons d rest =>
        cases Option.some.inj hplus
        exact (List.mem_cons.mp hmem).resolve_left hsign
    case isFalse => exact hmem
  unfold hexNumber?
  dsimp only
  rw [hfold _ 0 hkept, ite_self]

theorem codePoint?_eq_none {width : Nat} (hmem : c ∈ text.take width) (hsign : c ≠ '+')
    (hdigit : hexDigit? c = none) : codePoint? width text = none := by
  unfold codePoint?
  dsimp only
  rw [hexNumber?_eq_none hmem hsign hdigit, Option.bind_none, ite_self]

theorem codePoint?_withReturns (width : Nat) :
    codePoint? width (withReturns text) = codePoint? width text := by
  by_cases hfeed : '\n' ∈ text.take width
  · rw [codePoint?_eq_none hfeed (by decide) (by decide),
      codePoint?_eq_none (return_mem_take hfeed) (by decide) (by decide)]
  · unfold codePoint?
    rw [(take_withReturns hfeed).1]

theorem escape_withReturns (hnext : next ≠ '\n') :
    escape next (withReturns rest) = escape next rest ∧
      (withReturns rest).drop (escape next rest).2 =
        withReturns (rest.drop (escape next rest).2) := by
  unfold escape
  rw [if_neg hnext, if_neg hnext]
  cases letterEscape? next with
  | some c => exact ⟨rfl, rfl⟩
  | none =>
    cases octalDigit? next with
    | some first =>
      dsimp only
      rw [takeWhile_take_withReturns (by decide) (by decide)]
      refine ⟨rfl, (take_withReturns fun hfeed => ?_).2⟩
      have hrun := (List.takeWhile_prefix fun c => (octalDigit? c).isSome).trans
        (List.take_prefix 2 rest)
      rw [← List.prefix_iff_eq_take.mp hrun] at hfeed
      exact absurd (List.all_eq_true.mp List.all_takeWhile _ hfeed) (by decide)
    | none =>
      cases codeWidth? next with
      | none => exact ⟨rfl, rfl⟩
      | some width =>
        dsimp only
        rw [codePoint?_withReturns]
        cases hpoint : codePoint? width rest with
        | none => exact ⟨rfl, rfl⟩
        | some c =>
          refine ⟨rfl, (take_withReturns fun hfeed => ?_).2⟩
          rw [codePoint?_eq_none hfeed (by decide) (by decide)] at hpoint
          cases hpoint

/-- Decoding drops a joint between lines that end in line feeds, and keeps it as it is written
between lines that end in a carriage return and a line feed. All else is decoded alike. -/
theorem decoded_by_segments (text : List Char) :
    decodeEscapes text = (segments text).flatMap Segment.text ∧
      decodeEscapes (withReturns text) = (segments text).flatMap Segment.textWithReturns := by
  induction text using segments.induct with
  | case1 => simp [segments]
  | case2 rest induction =>
    -- With returns the backslash stands in front of a carriage return, which no escape starts with.
    have hfeed : escape '\n' rest = ([], 0) := rfl
    have hreturn : escape '\r' ('\n' :: withReturns rest) = (['\\', '\r'], 0) := by
      simp [escape, letterEscape?, octalDigit?, codeWidth?]
    rw [withReturns_cons (by decide), withReturns_lineFeed]
    simp [decodeEscapes, segments, Segment.text, Segment.textWithReturns, hfeed, hreturn, induction]
  | case3 next rest hnext induction =>
    obtain ⟨hescape, hdrop⟩ := @escape_withReturns rest next hnext
    rw [withReturns_cons (by decide), withReturns_cons hnext]
    simp [decodeEscapes, segments, hnext, hescape, hdrop, Segment.text, Segment.textWithReturns,
      induction]
  | case4 c rest hc induction =>
    have hlast (h : c = '\\') : rest = [] := by
      cases rest with
      | nil => rfl
      | cons next others => exact (hc next others h rfl).elim
    have hsegments : segments (c :: rest) = .plain c :: segments rest := by
      rw [segments]
      exact hc
    rw [decodeEscapes_cons hlast, hsegments, List.flatMap_cons, List.flatMap_cons, ← induction.1,
      ← induction.2]
    refine ⟨rfl, ?_⟩
    by_cases hfeed : c = '\n'
    · subst hfeed
      rw [withReturns_lineFeed, decodeEscapes_cons fun h => absurd h (by decide),
        decodeEscapes_cons fun h => absurd h (by decide)]
      rfl
    · rw [withReturns_cons hfeed, decodeEscapes_cons fun h => by rw [hlast h, withReturns_nil],
        Segment.textWithReturns, withReturns_cons hfeed, withReturns_nil]
      rfl

/-! ### Margins -/

theorem getLast?_withReturns (text : List Char) : (withReturns text).getLast? = text.getLast? := by
  induction text using List.reverseRecOn with
  | nil => rfl
  | append_singleton text c =>
    rw [withReturns_append, List.getLast?_concat]
    by_cases hc : c = '\n'
    · subst hc
      exact List.getLast?_append_cons _ _ _
    · have hone : withReturns [c] = [c] := withReturns_cons hc []
      rw [hone, List.getLast?_concat]

theorem feed_last_of_line {line : List Char} (hline : line ∈ splitLines text) :
    '\n' ∉ line ∨ ∃ body, '\n' ∉ body ∧ line = body ++ ['\n'] := by
  have rows := splitLines_rows text
  generalize splitLines text = lines at hline rows
  induction rows with
  | nil => cases hline
  | last _ hfeed =>
    rw [List.mem_singleton.mp hline]
    exact .inl hfeed
  | row hbody _ induction =>
    obtain rfl | hline := List.mem_cons.mp hline
    · exact .inr ⟨_, hbody, rfl⟩
    · exact induction hline

theorem feed_not_mem_margin {line : List Char} (hline : line ∈ splitLines text)
    (hblank : allBlank line = false) : '\n' ∉ line.takeWhile isBlank := by
  obtain hfeed | ⟨body, hfeed, rfl⟩ := feed_last_of_line hline
  · exact fun hmem => hfeed ((List.takeWhile_prefix _).subset hmem)
  · have hsolid : ¬ ∀ c ∈ body, isBlank c = true := by
      intro hall
      rw [allBlank, List.all_append, List.all_eq_true.mpr hall] at hblank
      exact absurd hblank (by decide)
    rw [List.takeWhile_append, if_neg]
    · exact fun hmem => hfeed ((List.takeWhile_prefix _).subset hmem)
    · exact fun hlength => hsolid fun c hc => by
        have hprefix : body.takeWhile isBlank = body :=
          (List.takeWhile_prefix isBlank).eq_of_length hlength
        rw [← hprefix] at hc
        exact List.all_eq_true.mp List.all_takeWhile c hc

theorem takeWhile_blank_withReturns (h : '\n' ∉ text.takeWhile isBlank) :
    (withReturns text).takeWhile isBlank = text.takeWhile isBlank := by
  induction text with
  | nil => rfl
  | cons c rest induction =>
    cases hblank : isBlank c with
    | true =>
      rw [List.takeWhile_cons_of_pos hblank, List.mem_cons, not_or] at h
      rw [withReturns_cons (Ne.symm h.1), List.takeWhile_cons_of_pos hblank,
        List.takeWhile_cons_of_pos hblank, induction h.2]
    | false =>
      have hc : c ≠ '\n' := by
        rintro rfl
        exact absurd hblank (by decide)
      rw [withReturns_cons hc]
      simp [hblank]

theorem commonMargin_withReturns {lines : List (List Char)}
    (h : ∀ line ∈ lines, '\n' ∉ line.takeWhile isBlank) :
    commonMargin (lines.map withReturns) = commonMargin lines := by
  induction lines with
  | nil => rfl
  | cons line lines induction =>
    have hfirst := takeWhile_blank_withReturns (h line List.mem_cons_self)
    have hothers := induction fun other hother => h other (List.mem_cons_of_mem _ hother)
    cases lines with
    | nil => exact hfirst
    | cons next lines =>
      rw [List.map_cons] at hothers ⊢
      simp only [List.map_cons, commonMargin, hfirst] at hothers ⊢
      rw [hothers]

/-! ### Other line ends -/

/-- The second text is the first with a carriage return in front of some of its line feeds. Where
joints may be left, a backslash and a line end may stand in it that the first does not have. -/
inductive Reended (joints : Bool) : List Char → List Char → Prop
  | nil : Reended joints [] []
  | keep (c : Char) {a b : List Char} (h : Reended joints a b) : Reended joints (c :: a) (c :: b)
  | lineEnd {a b : List Char} (h : Reended joints a b) :
      Reended joints ('\n' :: a) ('\r' :: '\n' :: b)
  | joint {a b : List Char} (hjoints : joints = true) (h : Reended joints a b) :
      Reended joints a ('\\' :: '\r' :: '\n' :: b)

namespace Reended

theorem refl (text : List Char) : Reended joints text text := by
  induction text with
  | nil => exact .nil
  | cons c rest induction => exact .keep c induction

theorem append {a' b' : List Char} (h : Reended joints a b) (h' : Reended joints a' b') :
    Reended joints (a ++ a') (b ++ b') := by
  induction h with
  | nil => exact h'
  | keep c _ induction => exact .keep c induction
  | lineEnd _ induction => exact .lineEnd induction
  | joint hjoints _ induction => exact .joint hjoints induction

theorem withReturns (text : List Char) : Reended joints text (Text.withReturns text) := by
  induction text with
  | nil => exact .nil
  | cons c rest induction =>
    by_cases hc : c = '\n'
    · subst hc
      exact .lineEnd induction
    · rw [withReturns_cons hc]
      exact .keep c induction

theorem feed_mem_iff (h : Reended false a b) : '\n' ∈ b ↔ '\n' ∈ a := by
  induction h with
  | nil => rfl
  | keep c _ induction => simp [induction]
  | lineEnd _ induction => simp
  | joint hjoints => cases hjoints

theorem eq_of_no_feed (h : Reended false a b) (hfeed : '\n' ∉ a) : b = a := by
  induction h with
  | nil => rfl
  | keep c _ induction => rw [induction fun hmem => hfeed (List.mem_cons_of_mem _ hmem)]
  | lineEnd => exact absurd List.mem_cons_self hfeed
  | joint hjoints => cases hjoints

end Reended

/-- A backslash in front of a line end. -/
def HasJoint (text : List Char) : Prop :=
  ['\\', '\n'] <:+: text

theorem joint_not_mem_segments (h : ¬ HasJoint text) : .joint ∉ segments text := by
  induction text using segments.induct with
  | case1 => simp [segments]
  | case2 rest => exact absurd ⟨[], rest, rfl⟩ h
  | case3 next rest hnext induction =>
    have hrest : ¬ HasJoint (rest.drop (escape next rest).2) := fun hjoint =>
      h (hjoint.trans ((List.drop_suffix _ rest).isInfix.trans ⟨['\\', next], [], by simp⟩))
    rw [segments, if_neg hnext, List.mem_cons, not_or]
    exact ⟨nofun, induction hrest⟩
  | case4 c rest hc induction =>
    have hsegments : segments (c :: rest) = .plain c :: segments rest := by
      rw [segments]
      exact hc
    rw [hsegments, List.mem_cons, not_or]
    exact ⟨nofun, induction fun hjoint => h (hjoint.trans (List.suffix_cons c rest).isInfix)⟩

/-- Decoded texts differ in their line ends, and in the joints if there are any. -/
theorem decodeEscapes_reended (hjoints : joints = false → ¬ HasJoint text) :
    Reended joints (decodeEscapes text) (decodeEscapes (withReturns text)) := by
  have hnone : joints = true ∨ .joint ∉ segments text := by
    cases joints with
    | true => exact .inl rfl
    | false => exact .inr (joint_not_mem_segments (hjoints rfl))
  rw [(decoded_by_segments text).1, (decoded_by_segments text).2]
  generalize segments text = all at hnone
  induction all with
  | nil => exact .nil
  | cons segment more induction =>
    have hmore := induction (hnone.imp_right fun hnone hmem => hnone (List.mem_cons_of_mem _ hmem))
    rw [List.flatMap_cons, List.flatMap_cons]
    cases segment with
    | plain c => exact (Reended.withReturns [c]).append hmore
    | escape decoded => exact (Reended.refl decoded).append hmore
    | joint => exact .joint (hnone.resolve_right fun hnone => hnone List.mem_cons_self) hmore

theorem withoutMargin_reended {margin line : List Char}
    (h : allBlank line = false → margin <+: line ∧ '\n' ∉ margin) :
    Reended false (withoutMargin margin line) (withoutMargin margin (withReturns line)) := by
  unfold withoutMargin
  rw [allBlank_withReturns, getLast?_withReturns]
  cases hblank : allBlank line with
  | true => exact .refl _
  | false =>
    obtain ⟨hleads, hfeed⟩ := h hblank
    rw [List.prefix_iff_eq_take.mp hleads] at hfeed
    rw [if_neg (by decide), if_neg (by decide), (take_withReturns hfeed).2]
    exact .withReturns _

theorem dedent_reended (text : List Char) :
    Reended false (dedent text) (dedent (withReturns text)) := by
  let solid (line : List Char) : Bool := !allBlank line
  have hfilter : ((splitLines text).map withReturns).filter solid =
      ((splitLines text).filter solid).map withReturns := by
    rw [List.filter_map]
    refine congrArg _ (List.filter_congr fun line _ => ?_)
    exact congrArg (!·) (allBlank_withReturns line)
  have hsolid : ∀ line ∈ (splitLines text).filter solid, '\n' ∉ line.takeWhile isBlank := by
    intro line hline
    obtain ⟨hline, hblank⟩ := List.mem_filter.mp hline
    exact feed_not_mem_margin hline (by simpa [solid] using hblank)
  have margin := margin_commonMargin ((splitLines text).filter solid)
  have hdedent (other : List Char) : dedent other =
      (splitLines other).flatMap (withoutMargin (commonMargin ((splitLines other).filter solid))) :=
    rfl
  rw [hdedent, hdedent, splitLines_withReturns, hfilter, commonMargin_withReturns hsolid]
  generalize commonMargin ((splitLines text).filter solid) = common at margin
  have hline : ∀ line ∈ splitLines text, Reended false (withoutMargin common line)
      (withoutMargin common (withReturns line)) := by
    intro line hline
    refine withoutMargin_reended fun hblank => ?_
    have hkept : line ∈ (splitLines text).filter solid :=
      List.mem_filter.mpr ⟨hline, by simp [solid, hblank]⟩
    refine ⟨margin.leads line hkept, fun hmem => hsolid line hkept ?_⟩
    exact (prefix_takeWhile margin.blank (margin.leads line hkept)).subset hmem
  generalize splitLines text = lines at hline
  clear hfilter hsolid margin hdedent
  induction lines with
  | nil => exact .nil
  | cons line lines induction =>
    rw [List.map_cons, List.flatMap_cons, List.flatMap_cons]
    exact (hline line List.mem_cons_self).append
      (induction fun other hother => hline other (List.mem_cons_of_mem _ hother))

end Text

end ShellSyntax
