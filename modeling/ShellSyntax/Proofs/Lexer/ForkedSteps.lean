import ShellSyntax.Proofs.Lexer.Additions
import ShellSyntax.Proofs.Lexer.Departures
import ShellSyntax.Proofs.Lexer.Passing
import ShellSyntax.Proofs.Lexer.Stacks

/-!
Every step of the lexer before a fork: two sources that are the same up to there take the same
steps. A step may end at the fork itself if its last token is a name, a number or a closing bracket:
none of them takes in a backslash that stands right behind it.
-/

namespace ShellSyntax

/-- A backslash behind the token does not become part of it: it is a name, a number or a closing
bracket. -/
def Token.IsFirm (t : Token) : Prop :=
  t.kind = .name ∨ t.kind = .number ∨ t.kind = .op ∧ (Lexer.closer? t.text).isSome = true

instance (t : Token) : Decidable t.IsFirm :=
  inferInstanceAs (Decidable (_ ∨ _))

theorem Token.not_isFirm {t : Token} (hkind : t.kind ≠ .name ∧ t.kind ≠ .number ∧ t.kind ≠ .op) :
    ¬ t.IsFirm :=
  fun hfirm => hfirm.elim hkind.1 fun h => h.elim hkind.2.1 fun h => hkind.2.2 h.1

namespace Fork

/-- The lexer has not come to the fork, or it has just come there and the last token that it found
is firm. -/
def Meets (f : Fork) (l : Lexer) : Prop :=
  f.Before l ∨ f.toCome = l.toCome ∧ ∃ before token, l.pending = before ++ [token] ∧ token.IsFirm

variable {f : Fork} {l m l' m' : Lexer} {count : Nat}

namespace Meets

theorem far (meets : f.Meets l) : f.toCome ≤ l.toCome := by
  obtain before | ⟨hsame, _⟩ := meets
  · exact Nat.le_of_lt before
  · exact Nat.le_of_eq hsame

theorem before (meets : f.Meets l)
    (hlast : ∀ before token, l.pending = before ++ [token] → ¬ token.IsFirm) : f.Before l := by
  obtain before | ⟨_, before, token, hpending, hfirm⟩ := meets
  · exact before
  · exact absurd hfirm (hlast before token hpending)

theorem before_of_nil (meets : f.Meets l) (hpending : l.pending = []) : f.Before l :=
  meets.before fun before token h => by simp [hpending] at h

theorem before_of_last (meets : f.Meets l) {tokens : List Token} {token : Token}
    (hpending : l.pending = tokens ++ [token]) (hloose : ¬ token.IsFirm) : f.Before l :=
  meets.before fun _ last hlast => by
    obtain ⟨_, hsame⟩ := List.append_inj' (hpending.symm.trans hlast) rfl
    rwa [← (List.cons.inj hsame).1]

theorem before_of_take {kind : TokenKind} (meets : f.Meets (l.take kind count))
    (hkind : kind ≠ .name ∧ kind ≠ .number ∧ kind ≠ .op) : f.Before (l.take kind count) :=
  meets.before_of_last (Lexer.take_pending l kind count) (Token.not_isFirm hkind)

end Meets

theorem Place.above_same (place : f.Place l m) (above : f.Above l)
    (hcount : count ≤ l.rest.length) :
    m.rest = l.rest ∧ f.toCome + count < l.toCome := by
  obtain ⟨lines, hsame, hleft, _⟩ := place.above_of above
  refine ⟨hsame, ?_⟩
  rw [toCome, Lexer.toCome, hleft, List.map_append, List.sum_append, List.map_cons, List.sum_cons,
    SourceLine.size, List.length_append]
  omega

theorem Ahead.above_of_lineEnd (ahead : f.Ahead l m) (before : f.Before l')
    (hunread : l'.unread = l.unread) (hrest : l'.rest = []) : f.Above l ∧ m.rest = l.rest := by
  have hend := ahead.place.above_of_end (hunread ▸ List.suffix_refl _) before hrest
  have above : f.Above l := by
    rw [Above, ← hunread]
    exact hend
  exact ⟨above, (ahead.place.above_same above (Nat.le_refl _)).1⟩

end Fork

namespace Lexer

open Outcome

variable {f : Fork} {l m : Lexer}

/-! ### Tokens cut off -/

theorem take_keeps {kind : TokenKind} {count count' : Nat} (ahead : f.Ahead l m)
    (hcount : count ≤ l.rest.length) (hsame : count' = count) :
    Keeps f f.Meets Nothing l m (set (l.take kind count)) (set (m.take kind count')) := by
  refine .set fun meets => ?_
  have hcome := toCome_take kind hcount
  have hfar := meets.far
  rw [hsame]
  exact ahead.take kind (by omega)

theorem takeWhile_keeps {kind : TokenKind} {p : Char → Bool} (hp : p '\\' = false)
    (ahead : f.Ahead l m) :
    Keeps f f.Meets Nothing l m (set (l.takeWhile kind p)) (set (m.takeWhile kind p)) := by
  intro _ l' hrun meets
  obtain rfl := set_ok.mp hrun
  have hle : (l.rest.takeWhile p).length ≤ l.rest.length := Lexeme.takeWhile_length_le
  have hcome := toCome_take kind hle
  have hfar : f.toCome + (l.rest.takeWhile p).length ≤ l.toCome := by
    have hfar := meets.far
    rw [takeWhile] at hfar
    omega
  have hsame := congrArg List.length ((ahead.place.shares hfar).takeWhile hp)
  exact take_keeps ahead hle hsame _ _ rfl meets

theorem takeRest_keeps {kind : TokenKind} (hkind : kind ≠ .name ∧ kind ≠ .number ∧ kind ≠ .op)
    (ahead : f.Ahead l m) :
    Keeps f f.Meets Nothing l m (set (l.takeRest kind)) (set (m.takeRest kind)) := by
  intro _ l' hrun meets
  obtain rfl := set_ok.mp hrun
  have before : f.Before (l.take kind l.rest.length) := meets.before_of_take hkind
  obtain ⟨_, hsame⟩ := ahead.above_of_lineEnd before (by simp) (by simp)
  exact take_keeps ahead (Nat.le_refl _) (congrArg List.length hsame) _ _ rfl meets

/-! ### Literals -/

theorem pushMode_ahead (ahead : f.Ahead l m) {mode mode' : LexMode}
    (hmode : mode'.unlined = mode.unlined) : f.Ahead (l.pushMode mode) (m.pushMode mode') :=
  ahead.setModes (by rw [List.map_cons, List.map_cons, hmode, ahead.modes])

theorem toCome_of_startString {letters : List Char} {quote : Quote} {l' : Lexer}
    (hopening : StringLetters.opening? l.rest = some (letters, quote))
    (hrun : startString letters quote l = .ok () l') :
    l'.toCome + (letters.length + quote.size) ≤ l.toCome := by
  have hletters := (StringLetters.opening?_bounds hopening).1
  rw [startString, get_bind_ok] at hrun
  dsimp only at hrun
  rw [ite_ok] at hrun
  split at hrun
  · obtain rfl := set_ok.mp hrun
    exact Nat.le_of_eq (toCome_take .fstringStart hletters)
  · cases hend : quote.closingEnd? (l.rest.drop (letters.length + quote.size)) with
    | some length =>
      have hbounds := (Quote.closingEnd?_bounds hend).2
      rw [List.length_drop] at hbounds
      have hwithin : letters.length + quote.size + length ≤ l.rest.length := by omega
      have hcome := toCome_take .string hwithin
      simp only [hend, set_ok] at hrun
      subst hrun
      omega
    | none =>
      simp only [hend, ite_ok] at hrun
      split at hrun
      · obtain rfl := set_ok.mp hrun
        have hcome := toCome_advance (Nat.le_refl l.rest.length)
        change l.skipLine.toCome + _ ≤ _
        rw [skipLine]
        omega
      · cases hrun

theorem startString_keeps {letters : List Char} {quote : Quote} (ahead : f.Ahead l m)
    (hpending : l.pending = [])
    (hopening : StringLetters.opening? l.rest = some (letters, quote)) :
    Keeps f f.Meets Nothing l m (startString letters quote) (startString letters quote) := by
  have hletters := (StringLetters.opening?_bounds hopening).1
  apply Keeps.getBind
  dsimp only
  refine .ite Iff.rfl (fun _ => .set fun meets => ?_) fun _ => ?_
  · have hcome := toCome_take .fstringStart hletters
    have taken := ahead.take .fstringStart (hcome ▸ Nat.add_le_add_right meets.far _)
    rw [taken.here]
    exact pushMode_ahead taken rfl
  · cases hend : quote.closingEnd? (l.rest.drop (letters.length + quote.size)) with
    | some length =>
      intro _ l' hrun meets
      obtain rfl := set_ok.mp hrun
      have hbounds := (Quote.closingEnd?_bounds hend).2
      rw [List.length_drop] at hbounds
      have hcount : letters.length + quote.size + length ≤ l.rest.length := by omega
      have hcome := toCome_take .string hcount
      have hfar := meets.far
      have shares := ahead.place.shares
        (show f.toCome + (letters.length + quote.size + length) ≤ l.toCome by omega)
      rw [Quote.closingEnd?_forked shares.drop hend]
      exact take_keeps ahead hcount rfl _ _ rfl meets
    | none =>
      intro _ l' hrun meets
      rw [ite_ok] at hrun
      split at hrun
      case isFalse => cases hrun
      case isTrue hgoes =>
        obtain rfl := set_ok.mp hrun
        obtain ⟨above, hsame⟩ := ahead.above_of_lineEnd (meets.before_of_nil hpending) rfl
          (by simp [pushMode, skipLine, advance])
        simp only [hsame, hend, if_pos hgoes]
        rw [ahead.here]
        exact ⟨⟨⟩, _, rfl, trivial, pushMode_ahead (skipLine_above ahead above) rfl⟩

theorem resumeString_keeps {quote : Quote} {text line line' : String} {start : Position}
    {outer outer' : List LexMode} (ahead : f.Ahead l m) (hpending : l.pending = [])
    (houter : outer'.map LexMode.unlined = outer.map LexMode.unlined) :
    Keeps f f.Meets Nothing l m (resumeString quote text start line outer)
      (resumeString quote text start line' outer') := by
  apply Keeps.getBind
  cases hend : quote.closingEnd? l.rest with
  | some length =>
    intro _ l' hrun meets
    obtain rfl := set_ok.mp hrun
    have hlength := (Quote.closingEnd?_bounds hend).2
    have hcome := toCome_advance hlength
    have hfar : f.toCome + length ≤ l.toCome := by
      have hmeets := meets.far
      change _ ≤ (l.advance length).toCome at hmeets
      omega
    have shares := ahead.place.shares hfar
    have next := ahead.advance hfar
    rw [Quote.closingEnd?_forked shares hend]
    refine ⟨⟨⟩, _, rfl, trivial,
      Fork.Ahead.push ((next.setModes houter).setSignificant (some .string)) ?_⟩
    simp only [Token.unlined, shares.take, next.here]
  | none =>
    intro _ l' hrun meets
    rw [ite_ok] at hrun
    split at hrun
    case isFalse => cases hrun
    case isTrue hgoes =>
      obtain rfl := set_ok.mp hrun
      obtain ⟨above, hsame⟩ := ahead.above_of_lineEnd (meets.before_of_nil hpending) rfl
        (by simp [skipLine, advance])
      simp only [hsame, hend, if_pos hgoes]
      refine ⟨⟨⟩, _, rfl, trivial, (skipLine_above ahead above).setModes ?_⟩
      rw [List.map_cons, List.map_cons, houter]
      rfl

theorem scanSearch_keeps {opening : Nat} (ahead : f.Ahead l m)
    (hopening : Lexeme.searchOpening? l.rest = some opening) :
    Keeps f f.Meets Nothing l m (scanSearch opening) (scanSearch opening) := by
  have hletters := (Lexeme.searchOpening?_bounds hopening).2
  apply Keeps.getBind
  cases hend : Lexeme.searchEnd? (l.rest.drop opening) with
  | none => exact .throw _ _
  | some length =>
    intro _ l' hrun meets
    obtain rfl := set_ok.mp hrun
    have hbounds := (Lexeme.searchEnd?_bounds hend).2
    rw [List.length_drop] at hbounds
    have hcount : opening + length ≤ l.rest.length := by omega
    have hcome := toCome_take .pathSearch hcount
    have hfar := meets.far
    have shares := ahead.place.shares (show f.toCome + (opening + length) ≤ l.toCome by omega)
    rw [Lexeme.searchEnd?_forked shares.drop hend]
    exact take_keeps ahead hcount rfl _ _ rfl meets

/-! ### Literal text of f-strings -/

theorem toCome_flushed {count : Nat} (hcount : count ≤ l.rest.length) (text : String)
    (start : Position) (modes : List LexMode) :
    (l.flushed count text start modes).toCome + count = l.toCome := by
  have hadvance := toCome_advance hcount
  simpa [toCome, advance] using hadvance

theorem toCome_openField {count : Nat} {text : String} {start : Position} {modes : List LexMode}
    (hbrace : (l.rest.drop count).head? = some '\x7b')
    (hflush : l.flushText count = l.flushed count text start modes) :
    (l.openField count).toCome + (count + 1) = l.toCome := by
  obtain ⟨rest, hrest⟩ := List.head?_eq_some_iff.mp hbrace
  have hcome := toCome_flushed (count_le_of_head? hbrace) text start modes
  have hone : 1 ≤ (l.flushed count text start modes).rest.length := by simp [hrest]
  have htake := toCome_take .op hone
  have hsame : (l.openField count).toCome =
      ((l.flushed count text start modes).take .op 1).toCome := by
    rw [openField, hflush]
    rfl
  omega

theorem openField_ahead {count : Nat} {text : String} {start : Position}
    {modes modes' : List LexMode} (ahead : f.Ahead l m)
    (hfar : f.toCome ≤ (l.openField count).toCome)
    (hmodes : modes'.map LexMode.unlined = modes.map LexMode.unlined)
    (hbrace : (l.rest.drop count).head? = some '\x7b')
    (hleft : l.flushText count = l.flushed count text start modes)
    (hright : m.flushText count = m.flushed count text start modes') :
    f.Ahead (l.openField count) (m.openField count) := by
  have hcome := toCome_flushed (count_le_of_head? hbrace) text start modes
  have hfield := toCome_openField hbrace hleft
  have flushed := ahead.flushed (show f.toCome + count ≤ l.toCome by omega) text start hmodes
  have taken := flushed.take .op (show f.toCome + 1 ≤ _ by omega)
  rw [openField, openField, hleft, hright, pushBracket, pushBracket, taken.brackets, flushed.here]
  exact pushMode_ahead (taken.setBrackets _) rfl

theorem resumeText_keeps {quote : Quote} {text : String} {start : Position}
    {outer outer' : List LexMode} (ahead : f.Ahead l m) (hpending : l.pending = [])
    (houter : outer'.map LexMode.unlined = outer.map LexMode.unlined) :
    Keeps f f.Meets Nothing l m (resumeText quote text start outer)
      (resumeText quote text start outer') := by
  apply Keeps.getBind
  rw [ahead.here]
  generalize (if text.isEmpty then l.here else start) = start
  have hmodes (text : String) :
      (LexMode.fstringText quote text start :: outer').map LexMode.unlined =
        (LexMode.fstringText quote text start :: outer).map LexMode.unlined := by
    rw [List.map_cons, List.map_cons, houter]
  replace ahead := ahead.setModes (hmodes text)
  refine .setBind (.getBind ?_)
  generalize hl : ({ l with modes := .fstringText quote text start :: outer } : Lexer) = left
    at ahead ⊢
  generalize hm : ({ m with modes := .fstringText quote text start :: outer' } : Lexer) = right
    at ahead ⊢
  have hleft : left.modes = .fstringText quote text start :: outer := by rw [← hl]
  have hright : right.modes = .fstringText quote text start :: outer' := by rw [← hm]
  have hnone : left.pending = [] := by
    rw [← hl]
    exact hpending
  cases hscan : scanText quote 0 left.rest with
  | lineEnd =>
    intro _ l' hrun meets
    obtain rfl := set_ok.mp hrun
    obtain ⟨above, hsame⟩ := ahead.above_of_lineEnd (meets.before_of_nil hnone) rfl
      (by simp [skipLine, advance])
    simp only [hsame, hscan, hleft, hright, addText]
    exact ⟨⟨⟩, _, rfl, trivial, (skipLine_above ahead above).setModes (hmodes _)⟩
  | quote count =>
    intro _ l' hrun meets
    obtain rfl := set_ok.mp hrun
    have hcloses := (scanText_quote hscan).2
    have hsize := size_le_of_closes hcloses
    rw [Nat.sub_zero, List.length_drop] at hsize
    have hpositive := quote.size_pos
    have hflush := flushText_of_text hleft count
    have hcome := toCome_flushed (l := left) (show count ≤ left.rest.length by omega)
      (text ++ String.ofList (left.rest.take count)) start (.fstringText quote "" start :: outer)
    rw [← hflush] at hcome
    have hrest : quote.size ≤ (left.flushText count).rest.length := by
      rw [hflush]
      simpa using hsize
    have htake := toCome_take .fstringEnd hrest
    have hfar : f.toCome ≤ ((left.flushText count).take .fstringEnd quote.size).toCome := meets.far
    have shares := ahead.place.shares
      (show f.toCome + (count + quote.size) ≤ left.toCome by omega)
    have flushed := ahead.flushed (show f.toCome + count ≤ left.toCome by omega)
      (text ++ String.ofList (left.rest.take count)) start (hmodes "")
    have hsame : left.rest.take count = right.rest.take count :=
      (shares.mono (Nat.le_add_right _ _)).take
    have hright' := flushText_of_text hright count
    rw [← hsame] at hright'
    rw [← hflush, ← hright'] at flushed
    rw [scanText_forked hscan (Nat.add_pos_right _ hpositive) shares]
    exact ⟨⟨⟩, _, rfl, trivial, (flushed.take .fstringEnd (by omega)).setModes houter⟩
  | field count =>
    intro _ l' hrun meets
    obtain rfl := set_ok.mp hrun
    have hbrace := (scanText_field hscan).2
    rw [Nat.sub_zero] at hbrace
    have hflush := flushText_of_text hleft count
    have hcome := toCome_openField hbrace hflush
    have hfar := meets.far
    have shares := ahead.place.shares (show f.toCome + (count + 1) ≤ left.toCome by omega)
    have hsame : left.rest.take count = right.rest.take count :=
      (shares.mono (Nat.le_succ _)).take
    have hright' := flushText_of_text hright count
    rw [← hsame] at hright'
    rw [scanText_forked hscan (Nat.succ_pos _) shares]
    exact ⟨⟨⟩, _, rfl, trivial, openField_ahead ahead hfar (hmodes "") hbrace hflush hright'⟩
  | lineBreak count => exact .throw _ _

theorem rest_of_closeBracket {closer : Char} {n : Lexer}
    (hclose : closeBracket closer l = .ok () n) :
    n.rest = l.rest := by
  obtain ⟨_, _, _, _, rfl⟩ := closeBracket_ok.mp hclose
  rfl

theorem toCome_of_closeBracket {closer : Char} {n : Lexer}
    (hclose : closeBracket closer l = .ok () n) : n.toCome = l.toCome := by
  obtain ⟨_, _, _, _, rfl⟩ := closeBracket_ok.mp hclose
  rfl

theorem resumeSpec_keeps {text : String} {start : Position} {outer outer' : List LexMode}
    (ahead : f.Ahead l m) (houter : outer'.map LexMode.unlined = outer.map LexMode.unlined) :
    Keeps f f.Meets Nothing l m (resumeSpec text start outer) (resumeSpec text start outer') := by
  apply Keeps.getBind
  rw [ahead.here]
  generalize (if text.isEmpty then l.here else start) = start
  have hmodes (text : String) :
      (LexMode.fstringSpec text start :: outer').map LexMode.unlined =
        (LexMode.fstringSpec text start :: outer).map LexMode.unlined := by
    rw [List.map_cons, List.map_cons, houter]
  replace ahead := ahead.setModes (hmodes text)
  refine .setBind (.getBind ?_)
  generalize hl : ({ l with modes := .fstringSpec text start :: outer } : Lexer) = left at ahead ⊢
  generalize hm : ({ m with modes := .fstringSpec text start :: outer' } : Lexer) = right at ahead ⊢
  have hleft : left.modes = .fstringSpec text start :: outer := by rw [← hl]
  have hright : right.modes = .fstringSpec text start :: outer' := by rw [← hm]
  have flush (count : Nat) := flushText_of_spec hleft count
  cases hscan : scanSpec 0 left.rest with
  | field count =>
    intro _ l' hrun meets
    obtain rfl := set_ok.mp hrun
    have hbrace := (scanSpec_field hscan).2
    rw [Nat.sub_zero] at hbrace
    have hcome := toCome_openField hbrace (flush count)
    have hfar := meets.far
    have shares := ahead.place.shares (show f.toCome + (count + 1) ≤ left.toCome by omega)
    have hright' := flushText_of_spec hright count
    rw [← (shares.mono (Nat.le_succ _)).take] at hright'
    rw [scanSpec_forked hscan (Nat.succ_pos _) shares]
    exact ⟨⟨⟩, _, rfl, trivial, openField_ahead ahead hfar (hmodes "") hbrace (flush count) hright'⟩
  | close count =>
    intro _ l' hrun meets
    have hbrace := (scanSpec_close hscan).2
    rw [Nat.sub_zero] at hbrace
    obtain ⟨rest, hrest⟩ := List.head?_eq_some_iff.mp hbrace
    rw [set_bind_ok] at hrun
    obtain ⟨_, n, hclose, hlast⟩ := bind_ok.mp hrun
    rw [modify_ok] at hlast
    have hcome := toCome_flushed (count_le_of_head? hbrace)
      (text ++ String.ofList (left.rest.take count)) start (.fstringSpec "" start :: outer)
    rw [← flush count] at hcome
    have hone : 1 ≤ n.rest.length := by
      rw [rest_of_closeBracket hclose, flush count]
      simp [hrest]
    have htake := toCome_take .op hone
    rw [toCome_of_closeBracket hclose] at htake
    have hfar : f.toCome ≤ (n.take .op 1).toCome := by
      rw [← hlast] at meets
      exact meets.far
    have shares := ahead.place.shares (show f.toCome + (count + 1) ≤ left.toCome by omega)
    have flushed := ahead.flushed (show f.toCome + count ≤ left.toCome by omega)
      (text ++ String.ofList (left.rest.take count)) start (hmodes "")
    have hright' := flushText_of_spec hright count
    rw [← (shares.mono (Nat.le_succ _)).take] at hright'
    rw [← flush count, ← hright'] at flushed
    rw [scanSpec_forked hscan (Nat.succ_pos _) shares]
    have closes : Keeps f (fun _ => True) Nothing _ _ _ _ := closeBracket_keeps flushed '\x7d'
    obtain ⟨_, n', hclose', _, closed⟩ := closes _ n hclose trivial
    have hcome' := toCome_of_closeBracket hclose
    refine ⟨⟨⟩, { n'.take .op 1 with modes := n'.modes.drop 2 }, ?_, trivial, ?_⟩
    · rw [set_bind_ok, bind_ok]
      exact ⟨⟨⟩, n', hclose', rfl⟩
    · rw [← hlast]
      refine (closed.take .op (by omega)).setModes ?_
      rw [List.map_drop, List.map_drop, closed.modes]
  | broken count => exact .throw _ _

end Lexer

end ShellSyntax

namespace ShellSyntax.Lexer

open Outcome

variable {f : Fork} {l m : Lexer}

/-! ### Operators -/

theorem atFieldLevel_ahead (ahead : f.Ahead l m) : m.atFieldLevel = l.atFieldLevel := by
  have same (n : Lexer) : n.memory.atFieldLevel = n.atFieldLevel := by
    unfold atFieldLevel memory
    cases n.modes with
    | nil => rfl
    | cons mode modes => cases mode <;> rfl
  rw [← same m, ahead.memory, same]

/-- A sign that starts a capture, and the captured text behind it, are no place where the fork may
be. -/
theorem before_of_captured (meets : f.Meets l) {tokens captured : List Token} {sign : Token}
    (hpending : l.pending = tokens ++ sign :: captured) (hsign : ¬ sign.IsFirm)
    (hcaptured : ∀ token ∈ captured, token.kind = .macroParam) : f.Before l := by
  refine meets.before fun before last hlast hfirm => ?_
  cases hcons : captured.reverse with
  | nil =>
    rw [List.reverse_eq_nil_iff.mp hcons] at hpending
    obtain ⟨_, hsame⟩ := List.append_inj' (hpending.symm.trans hlast) rfl
    exact hsign ((List.cons.inj hsame).1 ▸ hfirm)
  | cons token rest =>
    have hsplit : captured = rest.reverse ++ [token] := by
      rw [← List.reverse_cons, ← hcons, List.reverse_reverse]
    rw [hsplit, ← List.cons_append, ← List.append_assoc] at hpending
    obtain ⟨_, hsame⟩ := List.append_inj' (hpending.symm.trans hlast) rfl
    have hkind := hcaptured token (hsplit ▸ List.mem_append_right _ (List.mem_singleton_self _))
    rw [(List.cons.inj hsame).1] at hkind
    exact Token.not_isFirm (by simp [hkind]) hfirm

theorem scanCloser_keeps (ahead : f.Ahead l m) (hrest : l.rest ≠ []) (closer : Char) :
    Keeps f f.Meets Nothing l m (scanCloser closer) (scanCloser closer) := by
  apply Keeps.getBind
  dsimp only
  rw [atFieldLevel_ahead ahead]
  have closes : Keeps f (fun _ => True) Nothing l m (closeBracket closer) (closeBracket closer) :=
    closeBracket_keeps ahead closer
  refine .bind closes (fun _ _ _ _ _ _ _ => trivial) fun _ n _ n' hclose _ _ closed => ?_
  refine .modify fun meets => ?_
  have hone : 1 ≤ n.rest.length := by
    rw [rest_of_closeBracket hclose]
    exact List.length_pos_iff.mpr hrest
  have hmodes : (if l.atFieldLevel then n'.modes.drop 1 else n'.modes).map LexMode.unlined =
      (if l.atFieldLevel then n.modes.drop 1 else n.modes).map LexMode.unlined := by
    split
    · rw [List.map_drop, List.map_drop, closed.modes]
    · exact closed.modes
  have next := closed.setModes hmodes
  refine next.take .op ?_
  have hcome := toCome_take (l := { n with
    modes := if l.atFieldLevel then n.modes.drop 1 else n.modes }) .op hone
  exact hcome ▸ Nat.add_le_add_right meets.far 1

/-- All that has been found from `l` on to `l'` is captured text. -/
def OnlyCaptures (l l' : Lexer) : Prop :=
  ∃ captured, l'.pending = l.pending ++ captured ∧ ∀ token ∈ captured, token.kind = .macroParam

theorem onlyCaptures_of_body {l' : Lexer} (hbound : l.toCome < l.bound)
    (hrun : captureBody l = .ok () l') : l.OnlyCaptures l' := by
  rw [captureBody, get_bind_ok, ite_ok] at hrun
  split at hrun
  · obtain ⟨n, text, first, hgathers, rfl⟩ := captureBlock_moves hbound hrun
    have hpending := ((readsOn_advance l l.rest.length).trans hgathers.readsOn).pending
    refine ⟨[⟨.macroParam, String.ofList (Text.dedent text), ⟨first, 0⟩, n.lineEnd, n.lineText⟩],
      ?_, by simp⟩
    simp [endCapturedLine, hpending]
  · obtain ⟨n, text, hgathers, rfl⟩ := captureLine_moves hbound hrun
    refine ⟨[⟨.macroParam, String.ofList text, l.here, n.lineEnd, n.lineText⟩], ?_, by simp⟩
    simp [endCapturedLine, skipLine, advance, hgathers.readsOn.pending]

theorem onlyCaptures_of_command {l' : Lexer} (hbound : l.toCome < l.bound)
    (hrun : captureCommand l = .ok () l') : l.OnlyCaptures l' := by
  rw [captureCommand, get_bind_ok] at hrun
  cases hbrackets : l.brackets with
  | nil => simp [hbrackets] at hrun
  | cons top brackets =>
    simp only [hbrackets] at hrun
    obtain ⟨n, raw, _, hcapture, _, _, rfl⟩ := captureCommandRest_moves hbound hbound
      (hbrackets ▸ List.suffix_refl _) (by rintro _ ⟨⟩; rfl) hrun
    exact ⟨[raw.toToken n.lineText], by simp [push, hcapture.readsOn.pending],
      by simp [RawText.toToken]⟩

/-- The sign that a capture stands behind is taken by both lexers, where only the capture itself
comes to the fork. -/
theorem capture_keeps {capture : Lex Unit} {count : Nat} (ahead : f.Ahead l m)
    (hcount : count ≤ l.rest.length) (hsign : closer? (String.ofList (l.rest.take count)) = none)
    (captures : ∀ l', capture (l.take .op count) = .ok () l' → (l.take .op count).OnlyCaptures l')
    (strikes : Strikes (l.take .op count) (.empty l.here) capture Anything)
    (next : f.Before (l.take .op count) → f.Ahead (l.take .op count) (m.take .op count) →
      Keeps f f.Before Nothing (l.take .op count) (m.take .op count) capture capture) :
    Keeps f f.Meets Nothing l m (set (l.take .op count) >>= fun _ => capture)
      (set (m.take .op count) >>= fun _ => capture) := by
  refine .setBind fun _ l' hrun meets => ?_
  obtain ⟨captured, hcaptured, hkinds⟩ := captures l' hrun
  have hloose : ¬ (l.cutToken .op count).IsFirm := by
    rintro (hname | hnumber | hcloser)
    · cases hname
    · cases hnumber
    · rw [cutToken, hsign] at hcloser
      cases hcloser.2
  rw [take_pending, List.append_assoc] at hcaptured
  have before := before_of_captured meets hcaptured hloose hkinds
  have taken := before.back (strikes.leadsOn hrun).toCome
  have hcome := toCome_take .op hcount
  exact next taken (ahead.take .op (hcome ▸ Nat.add_le_add_right (Nat.le_of_lt taken) _)) _ l' hrun
    before

theorem take_bounded (hbound : l.toCome < l.bound) (kind : TokenKind) (count : Nat) :
    (l.take kind count).toCome < (l.take kind count).bound := by
  have hle := toCome_take_le l kind count
  have hsame : (l.take kind count).bound = l.bound := by simp
  omega

theorem pushBracket_ahead (ahead : f.Ahead l m) (bracket : Bracket) :
    f.Ahead (l.pushBracket bracket) (m.pushBracket bracket) := by
  rw [pushBracket, pushBracket, ahead.brackets]
  exact ahead.setBrackets _

theorem headed_ahead (ahead : f.Ahead l m) (withHeader : Bool) :
    f.Ahead { l with withHeader } { m with withHeader } :=
  ahead.congr rfl rfl rfl rfl (congrArg (fun l => { l with withHeader }) ahead.memory :)

theorem scanColon_keeps (ahead : f.Ahead l m) (hbound : l.toCome < l.bound)
    (hmatch : l.rest.take 1 = [':']) :
    Keeps f f.Meets Nothing l m scanColon scanColon := by
  have hone : 1 ≤ l.rest.length := by
    have hlength := congrArg List.length hmatch
    rw [List.length_take, List.length_singleton] at hlength
    omega
  have hheader : m.withHeader = l.withHeader := ahead.view Lexer.withHeader
  apply Keeps.getBind
  refine .ite (by rw [atFieldLevel_ahead ahead]) (fun _ => .set fun meets => ?_) fun _ =>
    .ite (by rw [hheader, ahead.brackets]) (fun _ => ?_) fun _ => take_keeps ahead hone rfl
  · have hcome := toCome_take .op hone
    have taken := ahead.take .op (hcome ▸ Nat.add_le_add_right meets.far 1)
    rw [taken.here]
    exact pushMode_ahead taken rfl
  · have bounded : ({ l with withHeader := false } : Lexer).toCome < l.bound := hbound
    refine capture_keeps (headed_ahead ahead false) hone ?_
      (fun _ => onlyCaptures_of_body (take_bounded bounded _ _))
      (captureBody_strikes _ (by simp)) fun _ next => captureBody_keeps next (by simp)
    simp only [hmatch]
    decide

theorem scanExclamation_keeps (ahead : f.Ahead l m) (hbound : l.toCome < l.bound)
    (hmatch : l.rest.take 1 = ['!']) :
    Keeps f f.Meets Nothing l m scanExclamation scanExclamation := by
  have hone : 1 ≤ l.rest.length := by
    have hlength := congrArg List.length hmatch
    rw [List.length_take, List.length_singleton] at hlength
    omega
  have hannounced :
      (m.withHeader || m.recent.any fun r => r.isLeadingWith && r.stop == m.here) =
        (l.withHeader || l.recent.any fun r => r.isLeadingWith && r.stop == l.here) :=
    ahead.view fun n =>
      n.withHeader || n.recent.any fun r : PrecedingToken => r.isLeadingWith && r.stop == n.here
  apply Keeps.getBind
  refine .ite (by rw [ahead.brackets]) (fun _ => ?_) fun _ => ?_
  rotate_left
  · dsimp only
    rw [hannounced]
    exact take_keeps (headed_ahead ahead _) hone rfl
  refine capture_keeps ahead hone ?_ (fun _ => onlyCaptures_of_command (take_bounded hbound _ _))
    (captureCommand_strikes _ _) fun before next => captureCommand_keeps next before
  rw [hmatch]
  decide

theorem scanOpener_keeps {opener : Opener} (ahead : f.Ahead l m) (hbound : l.toCome < l.bound)
    (hmatch : l.rest.take opener.spelling.length = opener.spelling.toList) :
    Keeps f f.Meets Nothing l m (scanOpener opener.spelling opener)
      (scanOpener opener.spelling opener) := by
  have hcount : opener.spelling.length ≤ l.rest.length := by
    have hlength := congrArg List.length hmatch
    rw [List.length_take, String.length_toList] at hlength
    omega
  have hrecent : m.recent = l.recent := ahead.view Lexer.recent
  apply Keeps.getBind
  refine .ite (by rw [followsCallable, followsCallable, hrecent, ahead.here]) (fun hmacro => ?_)
    fun _ => ?_
  · obtain ⟨rfl, -⟩ := hmacro
    rw [ahead.here]
    refine capture_keeps (pushBracket_ahead ahead _) hcount ?_ (fun l' hrun => ?_)
      (captureCall_strikes _ _) fun before next => captureCall_keeps next before
    · change closer? (String.ofList (l.rest.take _)) = none
      rw [hmatch]
      decide
    · have bounded : (l.pushBracket ⟨.bangParen, .raw, l.here⟩).toCome < l.bound := hbound
      exact (captureCall_moves (take_bounded bounded _ _) (by rintro _ ⟨⟩; rfl) hrun).pending
  · rw [ahead.here, ahead.brackets]
    exact take_keeps (pushBracket_ahead ahead _) hcount rfl

theorem toCome_of_scanColon {l' : Lexer} (hone : 1 ≤ l.rest.length)
    (hrun : scanColon l = .ok () l') : l'.toCome + 1 ≤ l.toCome := by
  have hcome := toCome_take .op hone
  rw [scanColon, get_bind_ok] at hrun
  simp only [ite_ok, set_ok, set_bind_ok] at hrun
  split at hrun
  · subst hrun
    exact Nat.le_of_eq hcome
  · split at hrun
    · have hheaded := toCome_take (l := { l with withHeader := false }) .op hone
      have onward := (captureBody_strikes (.empty l.here) (by simp)).leadsOn hrun
      exact hheaded ▸ Nat.add_le_add_right onward.toCome 1
    · subst hrun
      exact Nat.le_of_eq hcome

theorem toCome_of_scanExclamation {l' : Lexer} (hone : 1 ≤ l.rest.length)
    (hrun : scanExclamation l = .ok () l') : l'.toCome + 1 ≤ l.toCome := by
  have hcome := toCome_take .op hone
  rw [scanExclamation, get_bind_ok] at hrun
  simp only [ite_ok, set_ok, set_bind_ok] at hrun
  split at hrun
  · exact hcome ▸ Nat.add_le_add_right
      ((captureCommand_strikes _ (.empty l.here)).leadsOn hrun).toCome 1
  · subst hrun
    exact Nat.le_of_eq (toCome_take (l := { l with
      withHeader := l.withHeader || l.recent.any fun r => r.isLeadingWith && r.stop == l.here })
      .op hone)

theorem toCome_of_scanOpener {op : String} {opener : Opener} {l' : Lexer}
    (hcount : op.length ≤ l.rest.length) (hrun : scanOpener op opener l = .ok () l') :
    l'.toCome + op.length ≤ l.toCome := by
  have hcome (bracket : Bracket) := toCome_take (l := l.pushBracket bracket) .op hcount
  rw [scanOpener, get_bind_ok] at hrun
  simp only [ite_ok, set_ok, set_bind_ok] at hrun
  split at hrun
  · exact hcome _ ▸ Nat.add_le_add_right
      ((captureCall_strikes _ (.empty l.here)).leadsOn hrun).toCome _
  · subst hrun
    exact Nat.le_of_eq (hcome _)

theorem toCome_of_scanOperator {op : String} {l' : Lexer} (hcount : op.length ≤ l.rest.length)
    (hrun : scanOperator op l = .ok () l') : l'.toCome + op.length ≤ l.toCome := by
  rw [scanOperator] at hrun
  cases hcloser : closer? op with
  | some closer =>
    simp only [hcloser] at hrun
    have hone := (closer?_eq_some hcloser).1
    rw [hone] at hcount ⊢
    rw [scanCloser, get_bind_ok] at hrun
    obtain ⟨_, n, hclose, hlast⟩ := bind_ok.mp hrun
    rw [← toCome_of_closeBracket hclose]
    rw [← rest_of_closeBracket hclose] at hcount
    rw [← modify_ok.mp hlast]
    exact Nat.le_of_eq (toCome_take (l := { n with
      modes := if l.atFieldLevel then n.modes.drop 1 else n.modes }) .op hcount)
  | none =>
    simp only [hcloser, ite_ok] at hrun
    split at hrun
    case isTrue hcolon =>
      subst hcolon
      exact toCome_of_scanColon hcount hrun
    case isFalse =>
      split at hrun
      case isTrue hexclamation =>
        subst hexclamation
        exact toCome_of_scanExclamation hcount hrun
      case isFalse =>
        cases hopener : Opener.ofSpelling? op with
        | some opener =>
          simp only [hopener] at hrun
          exact toCome_of_scanOpener hcount hrun
        | none =>
          simp only [hopener, modify_ok] at hrun
          subst hrun
          exact Nat.le_of_eq (toCome_take .op hcount)

theorem scanOperator_keeps {table : List String} {op : String} (ahead : f.Ahead l m)
    (hbound : l.toCome < l.bound) (hmatch : Spelling.firstMatch table l.rest = some op) :
    Keeps f f.Meets Nothing l m (scanOperator op) (scanOperator op) := by
  have htake := Spelling.firstMatch_take hmatch
  have hcount := Spelling.firstMatch_le hmatch
  unfold scanOperator
  cases hcloser : closer? op with
  | some closer =>
    have hrest : l.rest ≠ [] := by
      have hone := (closer?_eq_some hcloser).1
      exact List.ne_nil_of_length_pos (by omega)
    exact scanCloser_keeps ahead hrest closer
  | none =>
    refine .ite Iff.rfl (fun hcolon => ?_) fun _ =>
      .ite Iff.rfl (fun hexclamation => ?_) fun _ => ?_
    · subst hcolon
      exact scanColon_keeps ahead hbound htake
    · subst hexclamation
      exact scanExclamation_keeps ahead hbound htake
    · cases hopener : Opener.ofSpelling? op with
      | some opener =>
        obtain rfl := spelling_of_ofSpelling? hopener
        exact scanOpener_keeps ahead hbound htake
      | none =>
        refine .modify fun meets => ahead.take .op ?_
        have hcome := toCome_take .op hcount
        exact hcome ▸ Nat.add_le_add_right meets.far _

/-! ### Tokens -/

theorem namesVariable_cons {c : Char} (hc : c ≠ '$') (rest : List Char) :
    Lexeme.namesVariable (c :: rest) = false := by
  unfold Lexeme.namesVariable
  split
  case h_1 heq => exact absurd (List.cons.inj heq).1 hc
  case h_2 => rfl

theorem namesVariable_forked {x y : List Char} {count : Nat} (shares : f.Shares count x y)
    (hnames : Lexeme.namesVariable x = false) : Lexeme.namesVariable y = false := by
  obtain rfl | ⟨_, rfl⟩ | ⟨c, x, y, rfl, rfl, behind⟩ := shares.split
  · exact hnames
  · rfl
  · by_cases hc : c = '$'
    · subst hc
      obtain rfl | ⟨_, rfl⟩ | ⟨d, x, y, rfl, rfl, _⟩ := behind.split
      · exact hnames
      · exact show Lexeme.startsName '\\' = false by decide
      · exact hnames
    · exact namesVariable_cons hc y

theorem scanWord_keeps (ahead : f.Ahead l m) (before : f.Before l) (hbound : l.toCome < l.bound)
    (hrest : l.rest ≠ []) :
    Keeps f f.Meets Nothing l m
      (match Spelling.firstMatch Spelling.commandOperators l.rest with
      | some op => scanOperator op
      | _ =>
        match Lexeme.wordLength l.rest with
        | 0 => set (l.take .error 1)
        | length => set (l.take .word length) : Lex Unit)
      (match Spelling.firstMatch Spelling.commandOperators m.rest with
      | some op => scanOperator op
      | _ =>
        match Lexeme.wordLength m.rest with
        | 0 => set (m.take .error 1)
        | length => set (m.take .word length) : Lex Unit) := by
  cases hmatch : Spelling.firstMatch Spelling.commandOperators l.rest with
  | some op =>
    intro _ l' hrun meets
    have hcome := toCome_of_scanOperator (Spelling.firstMatch_le hmatch) hrun
    have hfar := Nat.le_trans (Nat.add_le_add_right meets.far _) hcome
    rw [Spelling.firstMatch_forked Spelling.backslash_commandOperators
      (ahead.place.shares hfar) hmatch]
    exact scanOperator_keeps ahead hbound hmatch _ l' hrun meets
  | none =>
    have shares := ahead.place.shares (show f.toCome + 1 ≤ l.toCome from before)
    rw [Spelling.firstMatch_forked_none Spelling.backslash_commandOperators shares hmatch]
    cases hlength : Lexeme.wordLength l.rest with
    | zero =>
      have inside : f.Shares (Lexeme.wordLength l.rest + 1) l.rest m.rest := by rwa [hlength]
      rw [Lexeme.wordLength_forked inside, hlength]
      exact take_keeps ahead (List.length_pos_iff.mpr hrest) rfl
    | succ length =>
      intro _ l' hrun meets
      obtain rfl := set_ok.mp hrun
      have taken : f.Before (l.take .word (length + 1)) := meets.before_of_take (by decide)
      have hcount : length + 1 ≤ l.rest.length := hlength ▸ Lexeme.wordLength_le l.rest
      have hcome := toCome_take .word hcount
      rw [Fork.Before] at taken
      have inside := ahead.place.shares
        (show f.toCome + (Lexeme.wordLength l.rest + 1) ≤ l.toCome by omega)
      rw [Lexeme.wordLength_forked inside, hlength]
      exact take_keeps ahead hcount rfl _ _ rfl meets

theorem scanCommandToken_keeps (ahead : f.Ahead l m) (before : f.Before l)
    (hbound : l.toCome < l.bound) (hrest : l.rest ≠ []) :
    Keeps f f.Meets Nothing l m scanCommandToken scanCommandToken := by
  apply Keeps.getBind
  change Keeps f f.Meets Nothing l m
    (if Lexeme.namesVariable l.rest then
      set ((l.take .op 1).takeWhile .name Lexeme.continuesName) else _)
    (if Lexeme.namesVariable m.rest then
      set ((m.take .op 1).takeWhile .name Lexeme.continuesName) else _)
  cases hnames : Lexeme.namesVariable l.rest with
  | true =>
    intro _ l' hrun meets
    obtain ⟨c, rest, hvariable, hstart⟩ := Lexeme.rest_of_namesVariable hnames
    rw [if_pos rfl] at hrun
    have hlength : ((l.take .op 1).rest.takeWhile Lexeme.continuesName).length =
        (rest.takeWhile Lexeme.continuesName).length + 1 := by
      simp [hvariable, Lexeme.continuesName_of_startsName hstart]
    have hsign := toCome_take (l := l) .op (show 1 ≤ l.rest.length by simp [hvariable])
    have hname := toCome_take (l := l.take .op 1) .name
      (Lexeme.takeWhile_length_le (p := Lexeme.continuesName))
    rw [hlength] at hname
    have hfar : f.toCome ≤ ((l.take .op 1).takeWhile .name Lexeme.continuesName).toCome :=
      set_ok.mp hrun ▸ meets.far
    rw [takeWhile, hlength] at hfar
    have shares := ahead.place.shares (show f.toCome + 2 ≤ l.toCome by omega)
    have hright : Lexeme.namesVariable m.rest = true := by
      rw [hvariable] at shares
      obtain ⟨_, hm, behind⟩ := shares.cons
      obtain ⟨_, rfl, _⟩ := behind.cons
      rw [hm]
      exact hstart
    rw [hright]
    have taken : f.Ahead (l.take .op 1) (m.take .op 1) := ahead.take .op (by omega)
    exact takeWhile_keeps (by decide) taken _ l' hrun meets
  | false =>
    have shares := ahead.place.shares (show f.toCome + 0 ≤ l.toCome from Nat.le_of_lt before)
    rw [namesVariable_forked shares hnames]
    exact scanWord_keeps ahead before hbound hrest

theorem scanHostToken_keeps (ahead : f.Ahead l m) (before : f.Before l)
    (hbound : l.toCome < l.bound)
    (hrest : l.rest ≠ []) :
    Keeps f f.Meets Nothing l m scanHostToken scanHostToken := by
  have shares := ahead.place.shares (show f.toCome + 0 ≤ l.toCome from Nat.le_of_lt before)
  obtain ⟨c, rest, hcons⟩ := List.exists_cons_of_ne_nil hrest
  obtain ⟨rest', hright⟩ := rest_forked ahead before hcons
  apply Keeps.getBind
  cases hnumber : Lexeme.startsNumber l.rest with
  | true =>
    intro _ l' hrun meets
    rw [if_pos rfl] at hrun
    have hcount := Lexeme.numberLength_le l.rest
    obtain rfl := set_ok.mp hrun
    have hcome := toCome_take .number hcount
    have hfar := hcome ▸ Nat.add_le_add_right meets.far (Lexeme.numberLength l.rest)
    have inside := ahead.place.shares hfar
    rw [Lexeme.startsNumber_forked inside hnumber]
    exact take_keeps ahead hcount (Lexeme.numberLength_forked inside) _ _ rfl meets
  | false =>
    have hsame : m.rest.head? = l.rest.head? := by
      rw [hcons, hright, List.head?_cons, List.head?_cons]
    rw [Lexeme.startsNumber_forked_none shares hnumber]
    refine .ite Iff.rfl (fun h => absurd h (by simp)) fun _ =>
      .ite (by rw [hsame]) (fun _ => takeWhile_keeps (by decide) ahead) fun _ => ?_
    cases hmatch : Spelling.firstMatch Spelling.operators l.rest with
    | some op =>
      intro _ l' hrun meets
      have hcome := toCome_of_scanOperator (Spelling.firstMatch_le hmatch) hrun
      have hfar := Nat.le_trans (Nat.add_le_add_right meets.far _) hcome
      rw [Spelling.firstMatch_forked Spelling.backslash_operators (ahead.place.shares hfar) hmatch]
      exact scanOperator_keeps ahead hbound hmatch _ l' hrun meets
    | none =>
      rw [Spelling.firstMatch_forked_none Spelling.backslash_operators shares hmatch]
      exact take_keeps ahead (List.length_pos_iff.mpr hrest) rfl

theorem takeComment_keeps (ahead : f.Ahead l m) :
    Keeps f f.Meets Nothing l m (set (l.take .comment (Lexeme.contentLength l.rest)))
      (set (m.take .comment (Lexeme.contentLength m.rest))) := by
  intro _ l' hrun meets
  obtain rfl := set_ok.mp hrun
  have hcount := Lexeme.contentLength_le l.rest
  have before := meets.before_of_take (by decide)
  have hcome := toCome_take .comment hcount
  have hsame : m.rest = l.rest := by
    cases ahead.place with
    | above _ hsame => exact hsame
    | within q hq hleft _ hleftBelow =>
      rw [Fork.Before] at before
      have hsize : l.toCome = q.length + f.toCome := by
        rw [toCome, hleft, hleftBelow, Fork.toCome, List.length_append, Nat.add_assoc]
      have hsome : q ≠ [] := by
        rintro rfl
        rw [List.length_nil] at hsize
        omega
      have hcontent := Lexeme.le_contentLength (Fork.getLast?_suffix hq hsome)
        (Bool.eq_false_iff.mpr fun hbreak =>
          Bool.eq_false_iff.mp f.blank (isBlank_of_isLineBreak hbreak)) f.left
      rw [← hleft] at hcontent
      omega
  exact take_keeps ahead hcount (by rw [hsame]) _ _ rfl meets

theorem toCome_of_scanSearch {opening : Nat} {l' : Lexer}
    (hopening : Lexeme.searchOpening? l.rest = some opening)
    (hrun : scanSearch opening l = .ok () l') : l'.toCome + opening ≤ l.toCome := by
  have hletters := (Lexeme.searchOpening?_bounds hopening).2
  rw [scanSearch, get_bind_ok] at hrun
  cases hend : Lexeme.searchEnd? (l.rest.drop opening) with
  | none => simp [hend] at hrun
  | some length =>
    simp only [hend, set_ok] at hrun
    subst hrun
    have hbounds := (Lexeme.searchEnd?_bounds hend).2
    rw [List.length_drop] at hbounds
    have hcome := toCome_take (l := l) .pathSearch (show opening + length ≤ l.rest.length by omega)
    omega

theorem scanToken_keeps (ahead : f.Ahead l m) (before : f.Before l) (hbound : l.toCome < l.bound)
    (hpending : l.pending = []) (hrest : l.rest ≠ []) :
    Keeps f f.Meets Nothing l m scanToken scanToken := by
  obtain ⟨c, rest, hcons⟩ := List.exists_cons_of_ne_nil hrest
  have shares := ahead.place.shares (show f.toCome + 1 ≤ l.toCome from before)
  rw [hcons] at shares
  obtain ⟨rest', hright, behind⟩ := shares.cons
  rw [← hcons] at shares
  apply Keeps.getBind
  rw [hcons, hright]
  dsimp only
  rw [← hcons, ← hright]
  refine .ite Iff.rfl (fun _ => takeWhile_keeps (by decide) ahead) fun _ => ?_
  refine .ite Iff.rfl (fun _ => ?_) fun _ => ?_
  · rw [ahead.brackets]
    exact takeRest_keeps (by split <;> decide) ahead
  by_cases hcontinues : (c == '\\' && Lexeme.atLineEnd rest) = true
  · intro _ l' hrun meets
    rw [if_pos hcontinues] at hrun
    obtain rfl := set_ok.mp hrun
    obtain ⟨above, hsame⟩ := ahead.above_of_lineEnd (meets.before_of_nil hpending) rfl
      (by simp [skipLine, advance])
    rw [hcons, hright] at hsame
    rw [(List.cons.inj hsame).2, if_pos hcontinues]
    have next := skipLine_above ahead above
    exact ⟨⟨⟩, _, rfl, trivial, next.congr rfl rfl rfl rfl
      (next.view fun n => { n with continued := true })⟩
  have hother : ¬ (c == '\\' && Lexeme.atLineEnd rest') = true := by
    rw [Bool.and_eq_true, not_and, Bool.not_eq_true] at hcontinues ⊢
    exact fun hc => Lexeme.atLineEnd_forked_none behind (hcontinues hc)
  rw [if_neg hcontinues, if_neg hother]
  refine .ite (by rw [ahead.brackets]) (fun _ => takeComment_keeps ahead) fun _ => ?_
  cases hopening : StringLetters.opening? l.rest with
  | some literal =>
    intro _ l' hrun meets
    have hcome := toCome_of_startString hopening hrun
    have hfar := Nat.le_trans (Nat.add_le_add_right meets.far _) hcome
    rw [StringLetters.opening?_forked (ahead.place.shares hfar) hopening]
    exact startString_keeps ahead hpending hopening _ l' hrun meets
  | none =>
    rw [StringLetters.opening?_forked_none shares hopening]
    cases hsearch : Lexeme.searchOpening? l.rest with
    | some opening =>
      intro _ l' hrun meets
      have hcome := toCome_of_scanSearch hsearch hrun
      have hfar := Nat.le_trans (Nat.add_le_add_right meets.far _) hcome
      rw [Lexeme.searchOpening?_forked (ahead.place.shares hfar) hsearch]
      exact scanSearch_keeps ahead hsearch _ l' hrun meets
    | none =>
      rw [Lexeme.searchOpening?_forked_none shares hsearch]
      exact .ite (by rw [ahead.brackets])
        (fun _ => scanCommandToken_keeps ahead before hbound hrest)
        fun _ => scanHostToken_keeps ahead before hbound hrest

/-! ### Lines -/

theorem dedents_ahead {α : Type} (left : List α) (place : Position) (ahead : f.Ahead l m) :
    f.Ahead (left.foldl (fun l _ => l.addToken .dedent "" place place) l)
      (left.foldl (fun m _ => m.addToken .dedent "" place place) m) := by
  induction left generalizing l m with
  | nil => exact ahead
  | cons _ left induction => exact induction (ahead.addToken _ _ _ _)

theorem setIndents_ahead (ahead : f.Ahead l m) (indents : List Nat) :
    f.Ahead { l with indents } { m with indents } :=
  ahead.congr rfl rfl rfl rfl (congrArg (fun l => { l with indents }) ahead.memory :)

theorem indentTo_keeps {ends : Lexer → Prop} (ahead : f.Ahead l m) (width : Nat) :
    Keeps f ends Nothing l m (indentTo width) (indentTo width) := by
  have hindents : m.indents = l.indents := ahead.view Lexer.indents
  apply Keeps.getBind
  rw [indent, indent, leaveBlocks, leaveBlocks, hindents, ahead.here]
  refine .ite Iff.rfl (fun _ => .set fun _ => (setIndents_ahead ahead _).addToken _ _ _ _)
    fun _ => ?_
  refine .ite Iff.rfl (fun _ => ?_) fun _ => .pure ahead trivial
  refine .ite Iff.rfl (fun _ => .set fun _ => ?_) fun _ => .throw _ _
  exact dedents_ahead _ _ (setIndents_ahead ahead _)

theorem indentTo_place {width : Nat} {l' : Lexer} (hpending : l.pending = [])
    (hrun : indentTo width l = .ok () l') (meets : f.Meets l') :
    f.Before l' ∧ l'.toCome = l.toCome := by
  rw [indentTo, get_bind_ok] at hrun
  simp only [ite_ok, set_ok, throw_ok] at hrun
  split at hrun
  · subst hrun
    exact ⟨meets.before_of_last (addToken_pending _ _ _ _ _) (Token.not_isFirm (by simp)),
      by simp [toCome]⟩
  · split at hrun
    · split at hrun
      · subst hrun
        refine ⟨meets.before fun before token hlast => Token.not_isFirm ?_, by simp [toCome]⟩
        rw [leaveBlocks_pending, hpending, List.nil_append] at hlast
        have hmem : token ∈ l.dedentsTo width := hlast ▸ List.mem_append_right _ (by simp)
        simp [List.eq_of_mem_replicate hmem]
      · exact hrun.elim
    · obtain ⟨_, rfl⟩ := pure_ok.mp hrun
      exact ⟨meets.before_of_nil hpending, rfl⟩

/-- The start of a statement, behind the margin. -/
def startInside (l : Lexer) (width : Nat) : Lex Unit :=
  match l.rest with
  | [] => pure ()
  | c :: _ =>
    if c == '#' then set ((l.take .comment (Lexeme.contentLength l.rest)).takeRest .nl)
    else if Lexeme.isLineBreak c then set (l.takeRest .nl)
    else indentTo width

theorem startInside_place {width : Nat} {l' : Lexer} (hpending : l.pending = [])
    (hrun : l.startInside width l = .ok () l') (meets : f.Meets l') :
    f.Before l' ∧ l'.toCome ≤ l.toCome := by
  unfold startInside at hrun
  cases hrest : l.rest with
  | nil =>
    simp only [hrest] at hrun
    obtain ⟨_, rfl⟩ := pure_ok.mp hrun
    exact ⟨meets.before_of_nil hpending, Nat.le_refl _⟩
  | cons c rest =>
    simp only [hrest, ite_ok, set_ok] at hrun
    split at hrun
    · subst hrun
      exact ⟨meets.before_of_take (by decide),
        Nat.le_trans (toCome_take_le _ _ _) (toCome_take_le _ _ _)⟩
    · split at hrun
      · subst hrun
        exact ⟨meets.before_of_take (by decide), toCome_take_le _ _ _⟩
      · obtain ⟨before, hcome⟩ := indentTo_place hpending hrun meets
        exact ⟨before, Nat.le_of_eq hcome⟩

theorem takeCommentLine_keeps (ahead : f.Ahead l m) :
    Keeps f f.Meets Nothing l m
      (set ((l.take .comment (Lexeme.contentLength l.rest)).takeRest .nl))
      (set ((m.take .comment (Lexeme.contentLength m.rest)).takeRest .nl)) := by
  refine .set fun meets => ?_
  have before : f.Before ((l.take .comment (Lexeme.contentLength l.rest)).takeRest .nl) :=
    meets.before_of_take (by decide)
  obtain ⟨above, hsame⟩ := ahead.above_of_lineEnd before (by simp [takeRest])
    ((take_frame _ _ _).2.1.trans List.drop_length)
  have hfar := (ahead.place.above_same above (Lexeme.contentLength_le l.rest)).2
  have next := ahead.take .comment (Nat.le_of_lt hfar)
  have hcome := toCome_take (l := l.take .comment (Lexeme.contentLength l.rest)) .nl (Nat.le_refl _)
  have hrest : (m.take .comment (Lexeme.contentLength l.rest)).rest =
      (l.take .comment (Lexeme.contentLength l.rest)).rest := by simp [hsame]
  rw [hsame, takeRest, takeRest, hrest]
  exact next.take .nl (hcome ▸ Nat.add_le_add_right meets.far _)

theorem startInside_keeps {width : Nat} (ahead : f.Ahead l m) (hpending : l.pending = []) :
    Keeps f f.Meets Nothing l m (l.startInside width) (m.startInside width) := by
  intro _ l' hrun meets
  obtain ⟨before, hcome⟩ := startInside_place hpending hrun meets
  have here := before.back hcome
  unfold startInside at hrun ⊢
  cases hrest : l.rest with
  | nil =>
    obtain ⟨_, hsame, _⟩ := ahead.place.above_of_rest here hrest
    rw [hsame]
    simp only [hrest] at hrun ⊢
    exact Keeps.pure ahead trivial _ l' hrun meets
  | cons c rest =>
    obtain ⟨rest', hright⟩ := rest_forked ahead here hrest
    simp only [hrest, hright] at hrun ⊢
    rw [← hrest] at hrun
    rw [← hright]
    refine Keeps.ite Iff.rfl (fun _ => takeCommentLine_keeps ahead) (fun _ => ?_) _ l' hrun meets
    exact .ite Iff.rfl (fun _ => takeRest_keeps (by decide) ahead)
      fun _ => indentTo_keeps ahead width

theorem startLine_eq (l : Lexer) :
    startLine l =
      l.pastMargin.startInside (Lexeme.indentWidth l.tabSize (l.rest.takeWhile Lexeme.isSpace))
        l.pastMargin :=
  rfl

theorem startLine_keeps (ahead : f.Ahead l m) (hpending : l.pending = []) :
    Keeps f f.Meets Nothing l m startLine startLine := by
  intro _ l' hrun meets
  have htab : m.tabSize = l.tabSize := ahead.view Lexer.tabSize
  rw [startLine_eq] at hrun ⊢
  obtain ⟨_, honward⟩ := startInside_place (l := l.pastMargin) hpending hrun meets
  have hle : (l.rest.takeWhile Lexeme.isSpace).length ≤ l.rest.length :=
    Lexeme.takeWhile_length_le
  have hcome := toCome_advance hle
  have hfar : f.toCome + (l.rest.takeWhile Lexeme.isSpace).length ≤ l.toCome := by
    have hmeets := meets.far
    have hmeasured : l.pastMargin.toCome =
        (l.advance (l.rest.takeWhile Lexeme.isSpace).length).toCome := rfl
    omega
  have hmargin := (ahead.place.shares hfar).takeWhile (p := Lexeme.isSpace) (by decide)
  have next : f.Ahead l.pastMargin m.pastMargin := by
    rw [pastMargin, pastMargin, hmargin, measure_congr m hmargin]
    exact (measure_ahead ahead l.rest).advance hfar
  rw [htab, hmargin]
  exact startInside_keeps next hpending _ l' hrun meets

theorem goToNextLine_text {text : List Char} {unread : Source}
    (hunread : l.unread = .text text :: unread) :
    goToNextLine l =
      (if l.modes.isEmpty && l.brackets.isEmpty && !l.continued then startLine else pure () :
        Lex Unit) (l.freshLine text unread) := by
  have htake : takeLine l = .ok (some text) { l with unread } :=
    takeLine_ok.mpr (.inr ⟨text, unread, rfl, hunread, rfl⟩)
  rw [goToNextLine, run_bind, htake]
  rfl

theorem goToNextLine_keeps (ahead : f.Ahead l m) (before : f.Before l) (hpending : l.pending = [])
    (hrest : l.rest = []) : Keeps f f.Meets Nothing l m goToNextLine goToNextLine := by
  intro _ l' hrun meets
  have hmodes : m.modes.isEmpty = l.modes.isEmpty := by
    rw [← List.isEmpty_map (f := LexMode.unlined), ahead.modes, List.isEmpty_map]
  have hcontinued : m.continued = l.continued := ahead.view Lexer.continued
  obtain ⟨text, unread, hunread⟩ : ∃ text unread, l.unread = .text text :: unread := by
    obtain ⟨_, _, htake, _⟩ := bind_ok.mp hrun
    obtain ⟨_, hunread, _⟩ | ⟨text, unread, _, hunread, _⟩ := takeLine_ok.mp htake
    · obtain ⟨lines, _, hleft, _⟩ := ahead.place.above_of_rest before hrest
      rw [hunread] at hleft
      simp at hleft
    · exact ⟨text, unread, hunread⟩
  obtain ⟨text', unread', hright, next, _⟩ := ahead.nextLine before hrest hunread
  have fresh : f.Ahead (l.freshLine text unread) (m.freshLine text' unread') :=
    next.congr rfl rfl rfl rfl (next.view fun n => { n with continued := false })
  rw [goToNextLine_text hunread] at hrun
  rw [goToNextLine_text hright, hmodes, hcontinued, ahead.brackets]
  exact Keeps.ite Iff.rfl (fun _ => startLine_keeps fresh hpending)
    (fun _ => .pure fresh trivial) _ l' hrun meets

/-! ### Steps -/

theorem isEmpty_ahead (ahead : f.Ahead l m) (before : f.Before l) :
    m.rest.isEmpty = l.rest.isEmpty := by
  cases hrest : l.rest with
  | nil =>
    obtain ⟨_, hsame, _⟩ := ahead.place.above_of_rest before hrest
    rw [hsame, hrest]
  | cons c rest =>
    obtain ⟨rest', hright⟩ := rest_forked ahead before hrest
    rw [hright]
    rfl

theorem step_keeps (ahead : f.Ahead l m) (before : f.Before l) (hbound : l.toCome < l.bound)
    (hpending : l.pending = []) : Keeps f f.Meets Nothing l m step step := by
  apply Keeps.getBind
  rw [isEmpty_ahead ahead before]
  refine .ite Iff.rfl (fun hrest => ?_) fun hrest => ?_
  · exact goToNextLine_keeps ahead before hpending (List.isEmpty_iff.mp hrest)
  rw [List.isEmpty_iff] at hrest
  have hmodes := ahead.modes
  cases hleft : l.modes with
  | nil =>
    rw [hleft, List.map_nil, List.map_eq_nil_iff] at hmodes
    rw [hmodes]
    exact scanToken_keeps ahead before hbound hpending hrest
  | cons mode outer =>
    rw [hleft, List.map_cons, List.map_eq_cons_iff] at hmodes
    obtain ⟨mode', outer', hright, hmode, houter⟩ := hmodes
    rw [hright]
    cases mode with
    | string quote text start line =>
      cases mode' <;> cases hmode
      exact resumeString_keeps ahead hpending houter
    | fstringText quote text start =>
      cases mode' <;> cases hmode
      exact resumeText_keeps ahead hpending houter
    | fstringSpec text start =>
      cases mode' <;> cases hmode
      exact resumeSpec_keeps ahead houter
    | fstringField depth =>
      cases mode' <;> cases hmode
      exact scanToken_keeps ahead before hbound hpending hrest

end ShellSyntax.Lexer
