import ShellSyntax.Proofs.Language.MadeStatements
import ShellSyntax.Proofs.Language.Spans
import ShellSyntax.Proofs.Lexer.TokenLines
import ShellSyntax.Proofs.Text.PhysicalLines

/-!
Fields that show their own text. The text is cut out of the line on which the brace of the field
stands, so it is that of the source as long as the equals sign stands on that line, and not if it
stands further down.
-/

namespace ShellSyntax

open Text ShellSyntax.Language

/-! ### Columns of a line -/

section Columns

variable {text : List Char} {line : String} {number start stop : Nat}

theorem columnsOf_eq_slice (hline : physicalLine? text number = some line)
    (hstop : OnLine text ⟨number, stop⟩) :
    (columnsOf line start stop).toList = slice text ⟨number, start⟩ ⟨number, stop⟩ := by
  obtain ⟨before, after, rfl, hdrop⟩ := exists_of_physicalLine? hline
  rw [OnLine, offset, Nat.add_sub_cancel, upTo_succ hdrop] at hstop
  dsimp only at hstop
  rw [columnsOf, String.toList_ofList, slice, offset, offset, Nat.add_sub_cancel, ← List.drop_drop,
    drop_upTo, hdrop, List.flatten_cons, Nat.add_sub_add_left]
  dsimp only
  by_cases hle : start ≤ stop
  · rw [List.drop_append_of_le_length (by omega), List.take_append_of_le_length]
    rw [List.length_drop]
    omega
  · simp [Nat.sub_eq_zero_of_le (Nat.le_of_not_le hle)]

theorem length_columnsOf_le (hline : physicalLine? text number = some line)
    (hstart : OnLine text ⟨number, start⟩) :
    offset text ⟨number, start⟩ + (columnsOf line start stop).toList.length ≤ upTo text number := by
  obtain ⟨before, after, rfl, hdrop⟩ := exists_of_physicalLine? hline
  rw [OnLine, offset, Nat.add_sub_cancel, upTo_succ hdrop] at hstart
  dsimp only at hstart
  rw [upTo_succ hdrop, offset, Nat.add_sub_cancel, columnsOf, String.toList_ofList, List.length_take,
    List.length_drop]
  dsimp only
  omega

end Columns

/-- What a field shows that starts with this brace, up to its equals sign: what stands between them
in the columns of the line of the brace. It is the text between them exactly if the equals sign
stands on that line too. -/
structure ShowsColumns (text : List Char) (brace equals : Token) (shown : String) : Prop where
  columns : ∃ line, physicalLine? text brace.stop.line = some line ∧
    shown = columnsOf line brace.stop.column equals.stop.column
  exact_iff : shown.toList = slice text brace.stop equals.stop ↔ equals.stop.line = brace.stop.line

theorem Token.Inside.showsColumns {text : List Char} {brace equals : Token}
    (hbrace : brace.Inside text) (hequals : equals.Inside text) (hle : brace.stop ≤ equals.start) :
    ShowsColumns text brace equals
      (columnsOf brace.line brace.stop.column equals.stop.column) := by
  have hline : physicalLine? text brace.stop.line = some brace.line := hbrace.stop ▸ hbrace.line
  have hon : OnLine text ⟨brace.stop.line, brace.stop.column⟩ := hbrace.verbatim.2.2
  refine ⟨⟨_, hline, rfl⟩, fun hexact => ?_, fun hsame => ?_⟩
  · refine Classical.byContradiction fun hother => ?_
    have hbelow : brace.stop.line ≤ equals.stop.line - 1 := by
      obtain hlater | ⟨hsame, _⟩ := Position.le_iff.mp hle
      · rw [← hequals.stop] at hlater
        omega
      · exact absurd (hequals.stop.trans hsame.symm) hother
    -- the text goes on behind the end of the line, and what is shown does not
    have hlength := congrArg List.length hexact
    have hshort : offset text ⟨brace.stop.line, brace.stop.column⟩ +
        (columnsOf brace.line brace.stop.column equals.stop.column).toList.length ≤
          upTo text brace.stop.line := length_columnsOf_le hline hon
    have hlines := upTo_mono text hbelow
    have hend := Nat.le_trans hequals.verbatim.2.2 (upTo_le text equals.stop.line)
    have hsign := hequals.nonempty
    rw [slice, List.length_take, List.length_drop] at hlength
    simp only [offset] at hlength hshort hend
    omega
  · have hstop : (⟨brace.stop.line, equals.stop.column⟩ : Position) = equals.stop := by rw [← hsame]
    rw [columnsOf_eq_slice hline (hstop ▸ hequals.verbatim.2.2), hstop]

theorem Token.Inside.slice_to_token {text : List Char} {brace equals : Token}
    (hbrace : brace.Inside text) (hequals : equals.Inside text) (hle : brace.stop ≤ equals.start) :
    slice text brace.stop equals.stop =
      slice text brace.stop equals.start ++ equals.text.toList := by
  have hforward : offset text equals.start ≤ offset text equals.stop := by
    have hsign := hequals.nonempty
    rw [offset, offset, hequals.stop]
    omega
  rw [hequals.verbatim.1, slice_append (offset_mono hbrace.verbatim.2.2 hle) hforward]

namespace Language

open Matcher

/-! ### Rules that go forward -/

/-- Rules that do not grow end no earlier than they start. -/
def Forward (r : Rule) (i : Nat) (_ : Option r.Node) (j : Nat) : Prop :=
  rules.policy r ≠ .leftRecursive → i ≤ j

variable {W : World} {callee : Callee rules} {i j : Nat}

theorem matched_le {W : ClearWorld} {r : Rule} {found : Option r.Node}
    (h : matched W r i found j) : i ≤ j := by
  cases r with
  | elifBranch => exact h.1.1
  | _ => exact h.1

theorem forward_of_answers {W : ClearWorld}
    (hanswers : callee.Answers W.toWorld grammar ranking) :
    Callee.Leads (R := rules) Forward callee := by
  intro r i found j hresult hpolicy
  have hanswer := hanswers r i found j hpolicy hresult
  exact matched_le ((grammar_leads W).call _ r i found j hanswer)

theorem tupleOrSingle_forward {item : Match (Option Expr)}
    (hitem : ∀ j, Leads W Forward item j fun _ k => j ≤ k) :
    Leads W Forward (tupleOrSingle item) i fun _ j => i ≤ j := by
  refine .mark (.bind ((hitem i).mono ?_))
  rintro (_ | first) j hj
  · exact hj
  refine .bind (.loop (fun (_ : List Expr × Bool) k => i ≤ k) hj ?_)
  rintro ⟨items, isTuple⟩ k hk
  refine .unlessAccepts ?_ fun _ => .bind ((hitem (k + 1)).mono ?_)
  · cases isTuple with
    | false => exact hk
    | true => exact .spanSince hk
  · intro found l hl
    have hil : i ≤ l := Nat.le_trans (Nat.le_succ_of_le hk) hl
    cases found with
    | none => exact .spanSince hil
    | some value => exact hil

theorem yieldOrTuple_forward : Leads W Forward yieldOrTuple i fun _ j => i ≤ j := by
  have hrule {r : Rule} {j k : Nat} (hpolicy : rules.policy r ≠ .leftRecursive) (hle : k ≤ j) :
      Leads W Forward (Matcher.rule (R := rules) r) j fun _ l => k ≤ l :=
    LeadsIn.rule.mono fun _ _ hforward => Nat.le_trans hle (hforward hpolicy)
  have htuple (j : Nat) : Leads W Forward spreadTuple j fun _ k => j ≤ k :=
    tupleOrSingle_forward fun k => hrule nofun (Nat.le_refl k)
  refine .bind (LeadsIn.mono (P := fun _ j => i ≤ j) ?_ ?_)
  · refine .mark (.unlessAccepts (Nat.le_refl i) fun _ => .ifAccepts (fun _ => ?_) ?_)
    · refine .bind ((hrule (r := .expr) (k := i) nofun (by omega)).mono fun found k hk => ?_)
      cases found with
      | none => exact .reset (Nat.le_refl i)
      | some value => exact .spanSince hk
    · exact .bind ((htuple (i + 1)).mono fun _ k hk => .spanSince (Nat.le_of_succ_le hk))
  · rintro (_ | value) j hj
    · exact (htuple j).mono fun _ k hk => Nat.le_trans hj hk
    · exact hj

/-- Behind its value and its own text a field has a letter and a specification at most. -/
theorem field_keeps {raw : Bool} {value value' : Expr} {shown shown' : Option String}
    {letter' : Option Char} {spec' : List FormatPart}
    (h : W.Reads callee (do
      let letter ← conversion
      let mut spec := []
      if ← accepts ":" then
        let some parts ← fstringInside raw | return none
        spec := parts
      if !(← accepts "\x7d") then return none
      return some (.field value shown letter spec) : Match (Option FormatPart)) i
      (some (.field value' shown' letter' spec')) j) : value = value' ∧ shown = shown' := by
  obtain ⟨letter, k, _, hrest⟩ := h.bind
  obtain ⟨_, hrest⟩ | hrest := hrest.accepts
  · obtain ⟨spec, l, _, hrest⟩ := hrest.needs rfl
    obtain ⟨_, hrest⟩ := hrest.expects
    cases hrest
    exact ⟨rfl, rfl⟩
  · obtain ⟨_, hrest⟩ := hrest.expects
    cases hrest
    exact ⟨rfl, rfl⟩

end Language

/-! ### Fields -/

/-- Somewhere in this world the matcher reads `a` from `i` on and ends at `j`, where rules match as
they answer. -/
def ReadAt {α : Type} (W : World) (m : Match (Option α)) (i : Nat) (a : α) (j : Nat) : Prop :=
  ∃ callee, Callee.Answers W grammar ranking callee ∧ W.Reads callee m i (some a) j

/-- What each field shows of the text, on all levels: a field that shows itself stands behind a
brace, its value behind that, and its equals sign behind the value. -/
inductive FormatPart.Documents (W : World) (text : List Char) : FormatPart → Prop
  | literal (chars : String) : Documents W text (.literal chars)
  | silent {value : Expr} {letter : Option Char} {spec : List FormatPart}
      (hspec : ∀ part ∈ spec, Documents W text part) :
      Documents W text (.field value none letter spec)
  | shows {i j : Nat} {brace equals : Token} {value : Expr} {shown : String} {letter : Option Char}
      {spec : List FormatPart} (hbrace : W.token i = .ok brace ∧ brace.text = "\x7b")
      (hvalue : ReadAt W Language.yieldOrTuple (i + 1) value j) (hafter : i < j)
      (hequals : W.token j = .ok equals ∧ equals.text = "=")
      (hshown : ShowsColumns text brace equals shown)
      (hspec : ∀ part ∈ spec, Documents W text part) :
      Documents W text (.field value (some shown) letter spec)

namespace Program

variable {source : Source} {origin : Option Origin} {options : ParseOptions} {tree : Ast}
  {s : ProgramSession} {text : List Char}

theorem token_inside {i : Nat} {token : Token}
    (htoken : (firstWorld (.ofText text) origin options).token i = .ok token)
    (hkind : token.kind = .op ∨ token.kind = .name ∨ token.kind = .word) (htext : token.text ≠ "") :
    token.Inside text := by
  obtain ⟨found, l, reached, hmem⟩ := TokenStream.supply_found htoken
  refine reached.inside hmem ?_ htext
  obtain hkind | hkind | hkind := hkind <;> rw [hkind] <;> decide

theorem documents_of_made (hwhole : (firstWorld (.ofText text) origin options).Whole)
    {part : FormatPart} (made : part.Made (firstWorld (.ofText text) origin options)) :
    part.Documents (firstWorld (.ofText text) origin options) text := by
  induction made with
  | literal chars => exact .literal chars
  | @field raw value debugText letter spec hread hspec induction =>
    obtain ⟨callee, i, k, hanswers, reads⟩ := hread
    obtain ⟨brace, hbrace, hbraceKind, hopen, hrest⟩ | hnone := (attempt_some reads).spelled
    swap
    · cases hnone
    obtain ⟨value', j, hvalue, hrest⟩ := hrest.needs rfl
    have hafter : i + 1 ≤ j :=
      let clear : ClearWorld :=
        { firstWorld (.ofText text) origin options with whole := hwhole, quiet := rfl }
      yieldOrTuple_forward.read (forward_of_answers (W := clear) hanswers) _ _ hvalue
    obtain ⟨equals, hequals, hequalsKind, hsign, hrest⟩ | hrest := hrest.spelled
    · obtain ⟨rfl, rfl⟩ := field_keeps hrest
      have hbraceInside := token_inside hbrace hbraceKind (hopen ▸ by decide)
      have hequalsInside := token_inside hequals hequalsKind (hsign ▸ by decide)
      exact .shows ⟨hbrace, hopen⟩ ⟨callee, hanswers, hvalue⟩ hafter ⟨hequals, hsign⟩
        (hbraceInside.showsColumns hequalsInside (TokenStream.supply_sorted hafter hbrace hequals))
        induction
    · obtain ⟨rfl, rfl⟩ := field_keeps hrest
      exact .silent induction

/-- In the tree of an accepted text or file, each field of an f-string that shows its own text shows
what stands in the line of its brace between the brace and the column behind its equals sign. That is
the text between them if the equals sign stands on the same line, and else it is not. -/
theorem fields_show_columns (cut : Source.Cut source)
    (hparse : parse options.mode (start source origin options) = (.ok tree, s)) :
    ∀ root ∈ nodes tree, ∀ parts span, root.Contains (.expr ⟨.fstring parts, span⟩) →
      ∀ part ∈ parts, part.Documents (firstWorld source origin options) (Source.readable source) := by
  intro root hroot parts span hcontains part hpart
  obtain ⟨k, marker, hmarker, hkind, _⟩ := accepted_at hparse
  obtain ⟨lines, hlines⟩ := TokenStream.readable_of_endMarker hmarker hkind
  have hmade : ∀ part ∈ parts, part.Made (firstWorld source origin options) :=
    accepted_made hparse root hroot _ hcontains
  have hwhole : (firstWorld source origin options).Whole :=
    TokenStream.supply_endless hmarker hkind
  have htext : source = .ofText (Source.readable source) := cut.eq_ofText (by simp [hlines])
  rw [htext] at hmade hwhole
  have hdocuments := documents_of_made hwhole (hmade part hpart)
  rwa [← htext] at hdocuments

/-- What the only field of a program shows that is one f-string. -/
def shownText? (tree : Module) : Option String :=
  match tree.body with
  | [⟨.expr ⟨.fstring [.field _ shown _ _], _⟩, _⟩] => shown
  | _ => none

theorem fields_show_columns_of_name :
    ∃ value letter spec span span' s,
      let source : Source := .ofString "f\"\x7b a = \x7d\"\n"
      let part : FormatPart := .field value (some " a =") letter spec
      parse .exec (start source none .default) =
        (.ok (.module ⟨[⟨.expr ⟨.fstring [part], span⟩, span'⟩]⟩), s) ∧
      part.Documents (firstWorld source none .default) (Source.readable source) := by
  let source : Source := .ofString "f\"\x7b a = \x7d\"\n"
  obtain ⟨⟨stmts⟩, s, hparse, hshown⟩ := accepted_of_read source none .default
    (fun tree => shownText? tree == some " a =") 5000 (by decide +kernel) (by decide +kernel)
  replace hshown := beq_iff_eq.mp hshown
  unfold shownText? at hshown
  split at hshown
  case h_1 value shown letter spec span span' heq =>
    cases heq
    subst hshown
    have haccepted : parse ParseOptions.default.mode (start source none .default) = (.ok _, s) :=
      hparse
    have hall := fields_show_columns (Source.cut_ofText _) haccepted _ List.mem_cons_self _ span
      (.child .self List.mem_cons_self)
    exact ⟨value, letter, spec, span, span', s, hparse, hall _ List.mem_cons_self⟩
  case h_2 => cases hshown

/-- A field over two lines does not show all of its text. -/
theorem field_over_lines_cut_short :
    ¬ ∀ (text : String) (options : ParseOptions) (tree : Ast) (s : ProgramSession),
      parse options.mode (start (.ofString text) none options) = (.ok tree, s) →
      let W := firstWorld (.ofString text) none options
      ∀ root ∈ nodes tree, ∀ parts span, root.Contains (.expr ⟨.fstring parts, span⟩) →
        ∀ value shown letter spec, .field value (some shown) letter spec ∈ parts →
          ∃ i j brace equals, W.token i = .ok brace ∧ brace.isOp "\x7b" = true ∧ i < j ∧
            W.token j = .ok equals ∧ equals.isOp "=" = true ∧
            shown.toList = slice text.toList brace.stop equals.stop := by
  intro claimed
  let text := "f\"\"\"\x7ba\n      =\x7d\"\"\"\n"
  obtain ⟨⟨stmts⟩, s, hparse, hshown⟩ := accepted_of_read (.ofString text) none .default
    (fun tree => shownText? tree == some "a\n") 5000 (by decide +kernel) (by decide +kernel)
  replace hshown := beq_iff_eq.mp hshown
  unfold shownText? at hshown
  split at hshown
  case h_1 value shown letter spec span span' heq =>
    cases heq
    subst hshown
    have haccepted : parse ParseOptions.default.mode (start (.ofString text) none .default) =
        (.ok _, s) := hparse
    obtain ⟨i, j, brace, equals, hbrace, hopen, hlt, hequals, hsign, hslice⟩ :=
      claimed text .default _ s haccepted _ List.mem_cons_self _ span
        (.child .self List.mem_cons_self) value "a\n" letter spec List.mem_cons_self
    obtain ⟨hbraceKind, hopen⟩ : brace.kind = .op ∧ brace.text = "\x7b" := by
      simpa [Token.isOp] using hopen
    obtain ⟨hequalsKind, hsign⟩ : equals.kind = .op ∧ equals.text = "=" := by
      simpa [Token.isOp] using hsign
    have hbraceInside := token_inside hbrace (.inl hbraceKind) (hopen ▸ by decide)
    have hequalsInside := token_inside hequals (.inl hequalsKind) (hsign ▸ by decide)
    rw [hbraceInside.slice_to_token hequalsInside (TokenStream.supply_sorted hlt hbrace hequals),
      hsign] at hslice
    exact absurd (congrArg List.getLast? hslice) (by simp)
  case h_2 => cases hshown

end Program

end ShellSyntax
