import ShellSyntax.Proofs.Lexer.Additions
import ShellSyntax.Proofs.Lexer.Cover
import ShellSyntax.Proofs.Lexer.Shown

/-!
Tokens within a line. Only the text of literals and raw text reach over the end of a line; any other
token that is cut out of a text ends on the line on which it starts, and that is the line it shows.
-/

namespace ShellSyntax

/-- The token ends on the line on which it starts, unless it holds literal text or raw text. -/
def Token.WithinLine (t : Token) : Prop :=
  Lexer.IsLiteral t.kind ∨ t.stop.line = t.start.line

namespace Lexer

variable {l l' : Lexer} {token : Token}

theorem Adds.withinLine (adds : Adds l l' token) : token.WithinLine := by
  cases adds with
  | closing _ _ _ htoken =>
    simp only [closingTokens, missingNewline, List.mem_append, List.mem_singleton] at htoken
    obtain hnewline | hdedent | rfl := htoken
    · split at hnewline
      · exact List.mem_singleton.mp hnewline ▸ .inr rfl
      · cases hnewline
    · exact List.eq_of_mem_replicate hdedent ▸ .inr rfl
    · exact .inr rfl
  | other _ hplain => exact hplain.imp_right And.right
  | _ => exact .inr rfl

/-- What holds of all tokens that moves add and of end markers holds of all tokens found. -/
theorem Adds.invariant {holds : Token → Prop}
    (hadds : ∀ {l l' : Lexer} {token : Token}, Adds l l' token → holds token)
    (hend : ∀ lines, holds (.endMarker lines)) :
    Invariant fun found _ => ∀ token ∈ found, holds token where
  move {found l l'} hfound hpending _ moves := by
    have waiting : Waiting holds l := by simp [Waiting, hpending]
    exact List.forall_mem_append.mpr ⟨hfound, waiting.move moves fun _ adds => hadds adds⟩
  handOut hfound _ := hfound
  sourceEnd hfound _ _ := List.forall_mem_append.mpr ⟨hfound, by simpa using hend _⟩

theorem Reaches.withinLine {source : Source} {tabSize : Nat} {found : List Token}
    (reached : Reaches source tabSize found l) : ∀ token ∈ found, token.WithinLine := by
  have hall := (Adds.invariant Adds.withinLine fun _ => .inr rfl).reaches (by simp) reached
  exact fun token htoken => hall token (List.mem_append_left _ htoken)

theorem Reaches.showsLine {text : List Char} {tabSize : Nat} {found : List Token}
    (reached : Reaches (.ofText text) tabSize found l) : ∀ token ∈ found, token.ShowsLine text := by
  induction reached with
  | start => simp
  | pull reached hpull induction =>
    refine List.forall_mem_append.mpr ⟨induction, List.forall_mem_singleton.mpr ?_⟩
    exact (Visits.of_reaches reached).showsLine hpull

end Lexer

/-! ### Single tokens in a text -/

open Text

variable {text : List Char}

theorem exists_of_physicalLine? {number : Nat} {line : String}
    (hline : physicalLine? text number = some line) :
    ∃ before after, number = before + 1 ∧ (splitLines text).drop before = line.toList :: after := by
  cases number with
  | zero => cases hline
  | succ before =>
    obtain ⟨chars, hchars, rfl⟩ := Option.map_eq_some_iff.mp hline
    obtain ⟨hbefore, rfl⟩ := List.getElem?_eq_some_iff.mp hchars
    exact ⟨before, _, rfl, by rw [String.toList_ofList, List.drop_eq_getElem_cons hbefore]⟩

/-- The token is cut out of one line of the text, which it shows. -/
structure Token.Inside (text : List Char) (t : Token) : Prop where
  line : physicalLine? text t.start.line = some t.line
  stop : t.stop.line = t.start.line
  nonempty : t.start.column < t.stop.column
  verbatim : IsVerbatim text t

/-- A token of some text that is neither literal text nor layout is the text that it spans. -/
theorem Lexer.Reaches.verbatim {tabSize : Nat} {found : List Token} {l : Lexer} {token : Token}
    (reached : Reaches (.ofText text) tabSize found l) (htoken : token ∈ found)
    (hkind : ¬ IsLiteral token.kind ∧ token.kind.isLayout = false) : IsVerbatim text token := by
  obtain ⟨hliteral, hlayout⟩ := hkind
  obtain ⟨p, tiled⟩ := reached.tiled
  obtain ⟨before, after, hsplit⟩ := List.append_of_mem (List.mem_append_left l.pending htoken)
  refine (tiled.verbatim before token after hsplit).resolve_left ?_
  rintro (hkind | hkind | hkind | ⟨hkind, _⟩ | ⟨hkind, _⟩) <;> rw [hkind] at hliteral hlayout
  · cases hlayout
  · cases hlayout
  · cases hlayout
  · cases hlayout
  · exact hliteral (by decide)

theorem Lexer.Reaches.inside {tabSize : Nat} {found : List Token} {l : Lexer} {token : Token}
    (reached : Reaches (.ofText text) tabSize found l) (htoken : token ∈ found)
    (hkind : ¬ IsLiteral token.kind ∧ token.kind.isLayout = false) (htext : token.text ≠ "") :
    token.Inside text := by
  have verbatim := reached.verbatim htoken hkind
  obtain ⟨hliteral, hlayout⟩ := hkind
  have hstop := (reached.withinLine token htoken).resolve_left hliteral
  have hlength : 0 < (slice text token.start token.stop).length := by
    rw [← verbatim.1, List.length_pos_iff]
    exact fun hnil => htext (String.toList_eq_nil_iff.mp hnil)
  rw [slice, List.length_take, List.length_drop, offset, offset, hstop] at hlength
  refine ⟨?_, hstop, by omega, verbatim⟩
  obtain hline | ⟨hkind, _⟩ | ⟨hkind, _⟩ | ⟨hstart, _⟩ := reached.showsLine token htoken
  · exact hline
  · refine absurd ?_ hliteral
    obtain hkind | hkind := hkind <;> rw [hkind] <;> decide
  · exact absurd (hkind ▸ by decide) hliteral
  · -- nothing stands behind the last line
    have hend : upTo text (token.start.line - 1) = text.length := by
      rw [hstart, Nat.add_sub_cancel, upTo, List.take_length, flatten_splitLines]
    omega

end ShellSyntax
