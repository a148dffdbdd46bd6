import ShellSyntax.Proofs.Parser.OpenBrackets
import ShellSyntax.Proofs.Parser.Order

/-!
What is open between the tokens that a parser meets. The lexer has matched every closer with its
opener, so a parser that follows the tokens of a stream knows at each of them what is still open.
-/

namespace ShellSyntax

namespace Feed

variable (f : Feed)

/-- What is open in front of a token, the innermost first. -/
def openAt : Nat → List Opening
  | 0 => []
  | i + 1 =>
    match f.token i with
    | .ok t => (Opening.follow (openAt i) t).getD []
    | .error _ => []

/-- The token at `i` opens something. -/
def Opens (i : Nat) : Prop :=
  ∃ opening, f.openAt (i + 1) = opening :: f.openAt i

/-- The token at `i` closes something. -/
def Shuts (i : Nat) : Prop :=
  ∃ opening, f.openAt i = opening :: f.openAt (i + 1)

end Feed

/-- A parser meets tokens that close only what is open, no name or word is a bracket, and nothing
comes behind the end of the source but the marker of it. -/
structure NestedWorld extends World where
  nested : ∀ i t, token i = .ok t → (Opening.follow (toFeed.openAt i) t).isSome = true
  lettered : ∀ i t, token i = .ok t → t.Lettered
  ended : ∀ i t, token i = .ok t → t.kind ≠ .endMarker → i < limit

namespace NestedWorld

variable {W : NestedWorld} {i : Nat} {t : Token} {text : String}

theorem openAt_succ (ht : W.token i = .ok t) :
    Opening.follow (W.openAt i) t = some (W.openAt (i + 1)) := by
  obtain ⟨open_, hopen⟩ := Option.isSome_iff_exists.mp (W.nested i t ht)
  simp only [Feed.openAt, ht, hopen, Option.getD_some]

theorem openAt_opener {opener : Opener} (ht : W.token i = .ok t) (hop : t.kind = .op)
    (hopener : Opener.ofSpelling? t.text = some opener) :
    W.openAt (i + 1) = .bracket opener :: W.openAt i := by
  have hfollow := openAt_succ ht
  simp only [Opening.follow, hop, hopener, Option.some.injEq] at hfollow
  exact hfollow.symm

theorem openAt_same (ht : W.token i = .ok t)
    (hkind : t.kind ≠ .fstringStart ∧ t.kind ≠ .fstringEnd)
    (hop : t.kind = .op → isNoBracket t.text = true) : W.openAt (i + 1) = W.openAt i := by
  have hfollow := openAt_succ ht
  unfold Opening.follow at hfollow
  split at hfollow
  case h_1 | h_2 | h_3 | h_4 =>
    split at hfollow
    case isTrue hempty => rw [List.isEmpty_iff.mp hempty, Option.some.inj hfollow]
    case isFalse => cases hfollow
  case h_5 hstart => exact absurd hstart hkind.1
  case h_6 hend => exact absurd hend hkind.2
  case h_7 hkind =>
    have hno := hop hkind
    rw [isNoBracket, Bool.and_eq_true, Option.isNone_iff_eq_none, Option.isNone_iff_eq_none] at hno
    simp only [hno, Option.some.injEq] at hfollow
    exact hfollow.symm
  case h_8 => exact (Option.some.inj hfollow).symm

theorem shuts_closer (ht : W.token i = .ok t) (hop : t.kind = .op)
    (hcloser : (Lexer.closer? t.text).isSome = true) : W.Shuts i := by
  obtain ⟨closer, hcloser⟩ := Option.isSome_iff_exists.mp hcloser
  have hfollow := openAt_succ ht
  simp only [Opening.follow, hop, hcloser, (Lexer.closer?_eq_some hcloser).2] at hfollow
  split at hfollow
  case h_1 opener outer hopen =>
    split at hfollow
    case isTrue =>
      rw [Option.some.inj hfollow] at hopen
      exact ⟨_, hopen⟩
    case isFalse => cases hfollow
  case h_2 => cases hfollow

theorem openAt_marker (ht : W.token i = .ok t) (hkind : t.kind = .endMarker) :
    W.openAt (i + 1) = [] := by
  have hfollow := openAt_succ ht
  simp only [Opening.follow, hkind] at hfollow
  split at hfollow
  · exact (Option.some.inj hfollow).symm
  · cases hfollow

theorem openAt_fstring (ht : W.token i = .ok t) (hkind : t.kind = .fstringStart) :
    W.openAt (i + 1) = .literal :: W.openAt i := by
  have hfollow := openAt_succ ht
  simp only [Opening.follow, hkind, Option.some.injEq] at hfollow
  exact hfollow.symm

theorem shuts_fstring (ht : W.token i = .ok t) (hkind : t.kind = .fstringEnd) : W.Shuts i := by
  have hfollow := openAt_succ ht
  simp only [Opening.follow, hkind] at hfollow
  split at hfollow
  case h_1 outer hopen =>
    rw [Option.some.inj hfollow] at hopen
    exact ⟨_, hopen⟩
  case h_2 => cases hfollow

theorem op_of_bracket (ht : W.token i = .ok t)
    (hkind : t.kind = .op ∨ t.kind = .name ∨ t.kind = .word) (htext : isNoBracket t.text = false) :
    t.kind = .op := by
  refine hkind.resolve_right fun hother => ?_
  have lettered := W.lettered i t ht
  rw [isNoBracket, lettered.not_opener hother, lettered.not_closer hother] at htext
  cases htext

end NestedWorld

/-! ### Streams -/

theorem Opening.follow_dropped {last : Option Token} {token : Token} {open_ rest : List Opening}
    (hdropped : TokenStream.isDropped last token = true) (h : follow open_ token = some rest) :
    rest = open_ := by
  cases hkind : token.kind with
  | newline =>
    simp only [follow, hkind] at h
    split at h
    case isTrue hempty => rw [List.isEmpty_iff.mp hempty, Option.some.inj h]
    case isFalse => cases h
  | space | nl | comment | error =>
    simp only [follow, hkind] at h
    exact (Option.some.inj h).symm
  | _ => simp [TokenStream.isDropped, hkind] at hdropped

theorem Opening.followAll_significant {raw : List Token} {open_ : List Opening}
    (h : followAll [] raw = some open_) : followAll [] (significant raw) = some open_ := by
  induction raw using List.reverseRecOn generalizing open_ with
  | nil => exact h
  | append_singleton raw token induction =>
    rw [Lexer.followAll_append, Option.bind_eq_some_iff] at h
    obtain ⟨before, hbefore, htoken⟩ := h
    rw [significant_concat]
    split
    case isTrue hdropped =>
      have hrest : Opening.follow before token = some open_ := by
        simpa [followAll] using htoken
      rw [induction hbefore, follow_dropped hdropped hrest]
    case isFalse =>
      rw [Lexer.followAll_append, induction hbefore]
      exact htoken

namespace TokenStream

variable {source : Source} {tabSize i n : Nat} {origin : Option Origin} {s t : TokenStream}
  {open_ : List Opening}

theorem Filled.follow_take (filled : Filled s n t) {token : Token}
    (hsupply : s.supply i = .ok token) (hi : i < n) (open_ : List Opening) :
    Opening.followAll open_ (t.tokens.toList.take (i + 1)) =
      (Opening.followAll open_ (t.tokens.toList.take i)).bind (Opening.follow · token) := by
  obtain ⟨found, hfound, hsame⟩ := filled.supply hi
  cases hsupply.symm.trans hsame
  have htoken : t.tokens.toList[i]? = some token := by rw [Array.getElem?_toList, hfound]
  rw [List.take_add_one, htoken, Option.toList_some, Lexer.followAll_append]
  simp [Opening.followAll]

theorem Filled.openAt (filled : Filled s n t) (fresh : s.Fresh) (diagnosing : Bool)
    (hfollow : Opening.followAll [] t.tokens.toList = some open_) (hi : i ≤ n) :
    Opening.followAll [] (t.tokens.toList.take i) =
      some ((s.world fresh diagnosing).openAt i) := by
  induction i with
  | zero => rfl
  | succ i induction =>
    obtain ⟨token, _, hsupply⟩ := filled.supply hi
    have hworld : (s.world fresh diagnosing).token i = .ok token := hsupply
    rw [← List.take_append_drop (i + 1) t.tokens.toList, Lexer.followAll_append,
      Option.bind_eq_some_iff] at hfollow
    obtain ⟨next, hnext, _⟩ := hfollow
    have hstep := filled.follow_take hsupply hi []
    rw [hnext, induction (Nat.le_of_succ_le hi), Option.bind_some] at hstep
    rw [hnext, Feed.openAt, hworld]
    simp only [← hstep, Option.getD_some]

/-- The brackets in a stream are those that the lexer has matched. -/
noncomputable def nestedWorld (source : Source) (tabSize : Nat) (origin : Option Origin)
    (fresh : (ofLexer (.ofSource source tabSize) origin).Fresh) (diagnosing : Bool) :
    NestedWorld where
  toWorld := (ofLexer (.ofSource source tabSize) origin).world fresh diagnosing
  nested := by
    intro i token htoken
    -- the lexer has matched the brackets among all its tokens, those that are dropped included
    obtain ⟨t, hfilled, hfound⟩ := supplied htoken
    obtain ⟨handedOut, reached, htokens⟩ := (holds_filled hfilled).read
    obtain ⟨open_, hfollow, _⟩ := reached.foundInStep
    rw [Lexer.followAll_append, Option.bind_eq_some_iff] at hfollow
    obtain ⟨before, hbefore, _⟩ := hfollow
    have hkept : Opening.followAll [] t.tokens.toList = some before :=
      htokens ▸ Opening.followAll_significant hbefore
    have filled := fresh.filled hfilled
    have hstep := filled.follow_take htoken (Nat.lt_succ_self i) []
    have hopen {k : Nat} (hk : k ≤ i + 1) := filled.openAt fresh diagnosing hkept hk
    rw [hopen (Nat.le_refl _), hopen (Nat.le_succ i), Option.bind_some] at hstep
    exact Option.isSome_iff_exists.mpr ⟨_, hstep.symm⟩
  lettered := fresh.lettered (List.forall_mem_nil _)
  ended _ _ := lt_limit

end TokenStream

end ShellSyntax
