import Mathlib.Data.List.Destutter
import ShellSyntax.Proofs.Lexer.Sequence
import ShellSyntax.Proofs.Parser.Supply

/-!
A token stream is one fixed sequence, however it is driven: going back, looking ahead and asking
for lines change neither what was read nor what is read next.
-/

namespace ShellSyntax

open Outcome

/-! ### The tokens that the grammar sees -/

/-- No white space, comment or empty line, and no odd character that is white space. -/
def Token.isVisible (token : Token) : Bool :=
  token.kind != .space && token.kind != .nl && token.kind != .comment &&
    !(token.kind == .error && Text.allBlank token.text.toList)

/-- What the grammar sees of the tokens of a source: one line end does for several in a row. -/
def significant (raw : List Token) : List Token :=
  (raw.filter Token.isVisible).destutter fun before token =>
    ¬(before.kind = .newline ∧ token.kind = .newline)

theorem destutter'_concat {α : Type} (R : α → α → Prop) [DecidableRel R] (first last : α)
    (items : List α) :
    ∃ before, (items.destutter' R first).getLast? = some before ∧
      (items ++ [last]).destutter' R first =
        if R before last then items.destutter' R first ++ [last]
        else items.destutter' R first := by
  induction items generalizing first with
  | nil => exact ⟨first, rfl, List.destutter'_singleton R⟩
  | cons item items induction =>
    by_cases hkept : R first item
    · obtain ⟨before, hbefore, hlast⟩ := induction item
      refine ⟨before, ?_, ?_⟩
      · rw [List.destutter'_cons_pos _ hkept, List.getLast?_cons, hbefore]
        rfl
      · rw [List.cons_append, List.destutter'_cons_pos _ hkept, List.destutter'_cons_pos _ hkept,
          hlast]
        split <;> rfl
    · obtain ⟨before, hbefore, hlast⟩ := induction first
      refine ⟨before, ?_, ?_⟩
      · rw [List.destutter'_cons_neg _ hkept, hbefore]
      · rw [List.cons_append, List.destutter'_cons_neg _ hkept, List.destutter'_cons_neg _ hkept,
          hlast]

theorem isDropped_eq (last : Option Token) (token : Token) :
    TokenStream.isDropped last token = true ↔
      token.isVisible = false ∨
        ∃ before, last = some before ∧ before.kind = .newline ∧ token.kind = .newline := by
  cases hkind : token.kind <;>
    simp [TokenStream.isDropped, Token.isVisible, hkind, Option.any_eq_true]

theorem significant_concat (raw : List Token) (token : Token) :
    significant (raw ++ [token]) =
      if TokenStream.isDropped (significant raw).getLast? token then significant raw
      else significant raw ++ [token] := by
  by_cases hvisible : token.isVisible = true
  · have hfilter : (raw ++ [token]).filter Token.isVisible =
        raw.filter Token.isVisible ++ [token] := by
      simp [hvisible]
    rw [significant, hfilter, significant]
    cases raw.filter Token.isVisible with
    | nil =>
      have hkept : ¬TokenStream.isDropped none token = true := by
        simp [isDropped_eq, hvisible]
      simp [hkept]
    | cons first items =>
      rw [List.cons_append, List.destutter_cons', List.destutter_cons']
      obtain ⟨before, hbefore, hlast⟩ := destutter'_concat (fun before token : Token =>
        ¬(before.kind = .newline ∧ token.kind = .newline)) first token items
      rw [hbefore, hlast]
      by_cases hlines : before.kind = .newline ∧ token.kind = .newline
      · rw [if_neg (not_not_intro hlines),
          if_pos ((isDropped_eq _ _).mpr (.inr ⟨before, rfl, hlines⟩))]
      · rw [if_pos hlines, if_neg]
        rw [isDropped_eq]
        rintro (hhidden | ⟨_, hsame, hboth⟩)
        · rw [hvisible] at hhidden
          cases hhidden
        · rw [← Option.some.inj hsame] at hboth
          exact hlines hboth
  · rw [Bool.not_eq_true] at hvisible
    rw [if_pos ((isDropped_eq _ _).mpr (.inl hvisible)), significant, List.filter_append]
    simp [hvisible, significant]

theorem significant_sublist (raw : List Token) : (significant raw).Sublist raw :=
  (List.destutter_sublist _ _).trans List.filter_sublist

theorem significant_mono {first all : List Token} (hfirst : first <+: all) :
    significant first <+: significant all := by
  obtain ⟨rest, rfl⟩ := hfirst
  induction rest generalizing first with
  | nil => simp
  | cons token rest induction =>
    rw [List.append_cons]
    refine List.IsPrefix.trans ?_ induction
    rw [significant_concat]
    split
    · exact List.prefix_refl _
    · exact List.prefix_append _ _

theorem significant_markers (raw : List Token) {marker : Token}
    (hmarker : marker.kind = .endMarker) (count : Nat) :
    significant (raw ++ List.replicate count marker) =
      significant raw ++ List.replicate count marker := by
  induction count with
  | zero => simp
  | succ count induction =>
    rw [List.replicate_succ', ← List.append_assoc, significant_concat, if_neg, induction,
      List.append_assoc]
    simp [TokenStream.isDropped, hmarker]

/-- What the grammar sees of the first tokens are the first of the tokens that it sees. -/
theorem significant_endless (raw : List Token) {marker : Token}
    (hmarker : marker.kind = .endMarker) (count : Nat) :
    let seen := significant ((List.range count).map (Lexer.endless raw marker))
    seen = (List.range seen.length).map (Lexer.endless (significant raw) marker) := by
  have hfirst : significant ((List.range count).map (Lexer.endless raw marker)) <+:
      significant raw ++ List.replicate count marker := by
    rw [← significant_markers raw hmarker, Lexer.take_endless]
    exact significant_mono (List.take_prefix _ _)
  exact Lexer.eq_endless hfirst

/-! ### The last visible token -/

/-- The last token that is no layout, by a scan from the end. -/
def lastVisible (tokens : List Token) : Option Token :=
  tokens.reverse.find? fun token => !token.kind.isLayout

theorem lastVisible_concat (tokens : List Token) (token : Token) :
    lastVisible (tokens ++ [token]) =
      if token.kind.isLayout then lastVisible tokens else some token := by
  simp only [lastVisible, List.reverse_append, List.reverse_singleton, List.singleton_append,
    List.find?_cons]
  cases token.kind.isLayout <;> rfl

namespace TokenStream

/-- What is noted at each token leads to the last visible one up to there. -/
structure Noted (s : TokenStream) : Prop where
  size : s.lastReal.size = s.tokens.size
  note : ∀ i < s.tokens.size, ∃ real, s.lastReal[i]? = some real ∧
    (∀ k, real = some k → k < s.tokens.size) ∧
    (real.bind fun k => s.tokens[k]?) = lastVisible (s.tokens.toList.take (i + 1))

theorem Noted.last {s : TokenStream} (noted : s.Noted) :
    ∃ real, s.lastReal.back?.join = real ∧ (∀ k, real = some k → k < s.tokens.size) ∧
      (real.bind fun k => s.tokens[k]?) = lastVisible s.tokens.toList := by
  cases hsize : s.tokens.size with
  | zero =>
    have hnotes : s.lastReal = #[] := Array.size_eq_zero_iff.mp (noted.size.trans hsize)
    have htokens : s.tokens = #[] := Array.size_eq_zero_iff.mp hsize
    exact ⟨none, by simp [hnotes], nofun, by simp [htokens, lastVisible]⟩
  | succ m =>
    obtain ⟨real, hreal, hbelow, hsame⟩ := noted.note m (by omega)
    have hback : s.lastReal.back? = some real := by
      rw [Array.back?, noted.size, hsize]
      exact hreal
    refine ⟨real, by rw [hback]; rfl, hsize ▸ hbelow, ?_⟩
    rw [hsame, List.take_of_length_le]
    simp [hsize]

theorem Noted.keep {s : TokenStream} (noted : s.Noted) (token : Token) : (s.keep token).Noted := by
  have hold (i : Nat) (hi : i < s.tokens.size) : (s.tokens.push token)[i]? = s.tokens[i]? := by
    rw [Array.getElem?_push_lt hi, ← Array.getElem?_eq_getElem]
  refine ⟨by simp [TokenStream.keep, noted.size], fun i hi => ?_⟩
  simp only [TokenStream.keep, Array.size_push] at hi ⊢
  rcases Nat.lt_succ_iff_lt_or_eq.mp hi with hlt | rfl
  · obtain ⟨real, hreal, hbelow, hsame⟩ := noted.note i hlt
    refine ⟨real, ?_, fun k hk => Nat.lt_succ_of_lt (hbelow k hk), ?_⟩
    · have hnotes := noted.size
      rw [Array.getElem?_push_lt (by omega), ← Array.getElem?_eq_getElem]
      exact hreal
    · rw [Array.toList_push, List.take_append_of_le_length (by simp; omega), ← hsame]
      cases real with
      | none => rfl
      | some k => exact hold k (hbelow k rfl)
  · obtain ⟨real, hreal, hbelow, hsame⟩ := noted.last
    rw [Array.toList_push, List.take_of_length_le (by simp), lastVisible_concat, ← noted.size,
      Array.getElem?_push_size, hreal]
    cases token.kind.isLayout with
    | true =>
      refine ⟨real, rfl, fun k hk => ?_, ?_⟩
      · rw [noted.size]
        exact Nat.lt_succ_of_lt (hbelow k hk)
      · rw [if_pos rfl, ← hsame]
        cases real with
        | none => rfl
        | some k => exact hold k (hbelow k rfl)
    | false =>
      refine ⟨some s.tokens.size, by simp [noted.size], fun k hk => ?_, ?_⟩
      · rw [noted.size, ← Option.some.inj hk]
        exact Nat.lt_succ_self _
      · simp

theorem Noted.lastToken? {s : TokenStream} (noted : s.Noted) (hindex : s.index ≤ s.tokens.size) :
    s.lastToken? = lastVisible (s.tokens.toList.take s.index) := by
  unfold TokenStream.lastToken?
  split
  case isTrue hstart => simp [hstart, lastVisible]
  case isFalse hstart =>
    have hbefore : s.index - 1 < s.tokens.size :=
      Nat.lt_of_lt_of_le (Nat.sub_one_lt hstart) hindex
    obtain ⟨real, hreal, _, hsame⟩ := noted.note (s.index - 1) hbefore
    rw [hreal, Option.join_some, hsame, Nat.sub_add_cancel (Nat.one_le_iff_ne_zero.mpr hstart)]

/-! ### Filling -/

/-- What a stream holds after the lexer has handed out some tokens. -/
structure Holds (source : Source) (tabSize : Nat) (s : TokenStream) : Prop where
  read : ∃ handedOut, Lexer.Reaches source tabSize handedOut s.lexer ∧
    s.tokens.toList = significant handedOut
  noted : s.Noted

variable {source : Source} {tabSize : Nat} {s : TokenStream}

theorem reaches_weight_lt {handedOut : List Token} {l : Lexer}
    (reached : Lexer.Reaches source tabSize handedOut l) : l.weight < l.bound := by
  induction reached with
  | start => exact (fresh_ofLexer source tabSize none).weight
  | pull reached hpull induction =>
    obtain ⟨hbound, _, hweight, _⟩ := Lexer.weight_of_pull reached.toCome_lt hpull
    omega

theorem reads_of_fill {fuel : Nat} {handedOut : List Token} {t : TokenStream}
    (reached : Lexer.Reaches source tabSize handedOut s.lexer)
    (htokens : s.tokens.toList = significant handedOut) (hfuel : s.lexer.weight < fuel)
    (hfill : fill fuel s = .ok () t) :
    ∃ dropped token, Lexer.Reaches source tabSize (handedOut ++ (dropped ++ [token])) t.lexer ∧
      significant (handedOut ++ (dropped ++ [token])) = significant handedOut ++ [token] ∧
      (∀ other ∈ dropped, other.kind ≠ .endMarker) ∧
      (t.lexer.weight < s.lexer.weight ∨ token.kind = .endMarker) ∧
      t.tokens = (s.keep token).tokens ∧ t.lastReal = (s.keep token).lastReal ∧
      t.index = s.index := by
  induction fuel generalizing s handedOut with
  | zero => exact absurd hfuel (Nat.not_lt_zero _)
  | succ fuel induction =>
    simp only [TokenStream.fill, run_bind, readRaw] at hfill
    cases hpull : Lexer.pull s.lexer with
    | error e l => simp [hpull] at hfill
    | ok token l =>
      obtain ⟨_, _, _, hlighter⟩ := Lexer.weight_of_pull reached.toCome_lt hpull
      have next := reached.pull hpull
      have hback : s.tokens.back? = (significant handedOut).getLast? := by
        rw [← htokens, Array.getLast?_toList]
      have hconcat := significant_concat handedOut token
      rw [← hback] at hconcat
      simp only [hpull, run_get] at hfill
      split at hfill
      case isTrue hdropped =>
        rw [if_pos hdropped] at hconcat
        have hother : token.kind ≠ .endMarker := by
          intro hend
          simp [isDropped, hend] at hdropped
        have hless : l.weight < s.lexer.weight :=
          hlighter.resolve_right fun hend => hother hend.1
        obtain ⟨dropped, last, further, hlast, hothers, hweight, hsame⟩ :=
          induction (s := { s with lexer := l, lineCache := _ }) next
            (htokens.trans hconcat.symm)
            (Nat.lt_of_lt_of_le hless (Nat.le_of_lt_succ hfuel)) hfill
        refine ⟨token :: dropped, last, ?_, ?_, ?_, ?_, hsame⟩
        · rwa [List.append_assoc] at further
        · rw [hconcat, List.append_assoc] at hlast
          exact hlast
        · simpa [hother] using hothers
        · exact hweight.imp_left fun hmore => Nat.lt_trans hmore hless
      case isFalse hkept =>
        rw [if_neg hkept] at hconcat
        simp only [run_set, EStateM.Result.ok.injEq, true_and] at hfill
        subst hfill
        exact ⟨[], token, next, hconcat, by simp, hlighter.imp_right fun hend => hend.1, rfl, rfl, rfl⟩

theorem Holds.of_fill {t : TokenStream} (holds : Holds source tabSize s) {fuel : Nat}
    (hfuel : s.lexer.weight < fuel) (hfill : fill fuel s = .ok () t) :
    Holds source tabSize t ∧ t.tokens.size = s.tokens.size + 1 ∧ t.index = s.index := by
  obtain ⟨⟨handedOut, reached, htokens⟩, noted⟩ := holds
  obtain ⟨dropped, token, reached', hconcat, _, _, hsame, hnotes, hindex⟩ :=
    reads_of_fill reached htokens hfuel hfill
  have kept := noted.keep token
  refine ⟨⟨⟨_, reached', ?_⟩, ?_, ?_⟩, ?_, hindex⟩
  · rw [hsame, hconcat, ← htokens]
    simp [TokenStream.keep]
  · rw [hsame, hnotes]
    exact kept.size
  · rw [hsame, hnotes]
    exact kept.note
  · rw [hsame]
    simp [TokenStream.keep]

theorem exists_fill (good : Lexer → Prop) (hbound : s.lexer.toCome < s.lexer.bound)
    (hs : good s.lexer)
    (hpulls : ∀ l, good l → ∃ token l', Lexer.pull l = .ok token l' ∧ good l')
    {fuel : Nat} (hfuel : s.lexer.weight < fuel) :
    ∃ t, fill fuel s = .ok () t ∧ good t.lexer := by
  induction fuel generalizing s with
  | zero => exact absurd hfuel (Nat.not_lt_zero _)
  | succ fuel induction =>
    obtain ⟨token, l, hpull, hl⟩ := hpulls s.lexer hs
    obtain ⟨hsame, hcome, _, hlighter⟩ := Lexer.weight_of_pull hbound hpull
    simp only [TokenStream.fill, run_bind, readRaw, hpull, run_get]
    split
    case isTrue hdropped =>
      have hless : l.weight < s.lexer.weight := by
        refine hlighter.resolve_right fun hend => ?_
        simp [isDropped, hend.1] at hdropped
      refine induction (s := { s with lexer := l, lineCache := _ }) ?_ hl
        (Nat.lt_of_lt_of_le hless (Nat.le_of_lt_succ hfuel))
      rw [hsame]
      exact Nat.lt_of_le_of_lt hcome hbound
    case isFalse => exact ⟨_, rfl, hl⟩

theorem Holds.fill (holds : Holds source tabSize s) {fuel : Nat} (hfuel : s.lexer.weight < fuel)
    (hpulls : ∀ handedOut l, Lexer.Reaches source tabSize handedOut l →
      ∃ token l', Lexer.pull l = .ok token l') :
    ∃ t, fill fuel s = .ok () t ∧ Holds source tabSize t ∧
      t.tokens.size = s.tokens.size + 1 ∧ t.index = s.index := by
  obtain ⟨handedOut, reached, _⟩ := holds.read
  obtain ⟨t, hfill, _⟩ := exists_fill (fun l => ∃ before, Lexer.Reaches source tabSize before l)
    reached.toCome_lt ⟨handedOut, reached⟩ (fun l ⟨before, reached⟩ => by
      obtain ⟨token, l', hpull⟩ := hpulls before l reached
      exact ⟨token, l', hpull, _, reached.pull hpull⟩) hfuel
  exact ⟨t, hfill, holds.of_fill hfuel hfill⟩

/-! ### Driving a stream -/

/-- What may be done with a stream, one after another and as often as one likes. Marking a place and
asking for the furthest one change nothing. -/
inductive Drives (s : TokenStream) : TokenStream → Prop
  | refl : Drives s s
  | peek {t : TokenStream} (drives : Drives s t) : Drives s (final (peek t))
  | next {t : TokenStream} (drives : Drives s t) : Drives s (final (next t))
  | reset {t : TokenStream} {mark : Mark} (drives : Drives s t) (hmark : mark ≤ t.tokens.size) :
      Drives s (t.reset mark)
  | lines {t : TokenStream} (drives : Drives s t) (numbers : List Nat) :
      Drives s (t.lines numbers).2

/-- The stream stands in `sequence`, of which it holds the first tokens. -/
structure StandsIn (sequence : Nat → Token) (s : TokenStream) : Prop where
  buffer : s.tokens.toList = (List.range s.tokens.size).map sequence
  index : s.index ≤ s.tokens.size
  /-- Looking ends with the token in the buffer. -/
  peek : ∃ t, peek s = .ok (sequence s.index) t ∧ t.index = s.index ∧
    t.tokens[s.index]? = some (sequence s.index)
  /-- So does going on. -/
  next : ∃ t, next s = .ok (sequence s.index) t ∧ t.index = s.index + 1 ∧
    t.tokens[s.index]? = some (sequence s.index)
  lastToken? : s.lastToken? = lastVisible ((List.range s.index).map sequence)

/-- A stream whose place is among its tokens or right behind them. -/
structure Driven (source : Source) (tabSize : Nat) (s : TokenStream) : Prop where
  holds : Holds source tabSize s
  index : s.index ≤ s.tokens.size

variable {raw : List Token} {marker : Token}

theorem Holds.buffer (holds : Holds source tabSize s) (hmarker : marker.kind = .endMarker)
    (hread : ∀ handedOut l, Lexer.Reaches source tabSize handedOut l →
      handedOut = (List.range handedOut.length).map (Lexer.endless raw marker)) :
    s.tokens.toList = (List.range s.tokens.size).map (Lexer.endless (significant raw) marker) := by
  obtain ⟨handedOut, reached, htokens⟩ := holds.read
  have hseen := significant_endless raw hmarker handedOut.length
  rw [← hread handedOut s.lexer reached, ← htokens] at hseen
  exact hseen

theorem peek_driven (driven : Driven source tabSize s)
    (hpulls : ∀ handedOut l, Lexer.Reaches source tabSize handedOut l →
      ∃ token l', Lexer.pull l = .ok token l') :
    ∃ token t, peek s = .ok token t ∧ Driven source tabSize t ∧ t.index = s.index ∧
      t.tokens[s.index]? = some token ∧ s.tokens.size ≤ t.tokens.size := by
  obtain ⟨holds, hindex⟩ := driven
  by_cases hread : s.index = s.tokens.size
  · obtain ⟨_, reached, _⟩ := holds.read
    obtain ⟨t, hfill, holds', hsize, hplace⟩ := holds.fill (reaches_weight_lt reached) hpulls
    have hlt : s.index < t.tokens.size := by
      rw [hsize, hread]
      exact Nat.lt_succ_self _
    refine ⟨t.tokens[s.index], t, ?_, ⟨holds', ?_⟩, hplace, Array.getElem?_eq_getElem hlt, ?_⟩
    · simp only [TokenStream.peek, run_bind, run_get, if_pos hread, hfill, run_pure, hplace]
      rw [Array.getElem?_eq_getElem hlt, Option.getD_some]
    · rw [hplace]
      exact Nat.le_of_lt hlt
    · rw [hsize]
      exact Nat.le_succ _
  · have hlt : s.index < s.tokens.size := Nat.lt_of_le_of_ne hindex hread
    refine ⟨s.tokens[s.index], s, ?_, ⟨holds, hindex⟩, rfl, Array.getElem?_eq_getElem hlt,
      Nat.le_refl _⟩
    simp only [TokenStream.peek, run_bind, run_get, if_neg hread, run_pure]
    rw [Array.getElem?_eq_getElem hlt, Option.getD_some]

theorem next_driven (driven : Driven source tabSize s)
    (hpulls : ∀ handedOut l, Lexer.Reaches source tabSize handedOut l →
      ∃ token l', Lexer.pull l = .ok token l') :
    ∃ token t, next s = .ok token t ∧ Driven source tabSize t ∧ t.index = s.index + 1 ∧
      t.tokens[s.index]? = some token ∧ s.tokens.size ≤ t.tokens.size := by
  obtain ⟨token, t, hpeek, ⟨holds, _⟩, hplace, htoken, hsize⟩ := peek_driven driven hpulls
  have hlt : s.index < t.tokens.size := (Array.getElem?_eq_some_iff.mp htoken).1
  refine ⟨token, { t with index := t.index + 1, reads := t.reads + 1 }, ?_, ⟨?_, ?_⟩, ?_, htoken,
    hsize⟩
  · simp only [TokenStream.next, run_bind, hpeek, run_modify, run_pure]
  · exact ⟨holds.read, holds.noted.size, holds.noted.note⟩
  · rw [hplace]
    exact hlt
  · rw [hplace]

theorem Drives.driven {t : TokenStream} (drives : Drives s t) (driven : Driven source tabSize s)
    (hpulls : ∀ handedOut l, Lexer.Reaches source tabSize handedOut l →
      ∃ token l', Lexer.pull l = .ok token l') :
    Driven source tabSize t ∧ s.tokens.size ≤ t.tokens.size := by
  induction drives with
  | refl => exact ⟨driven, Nat.le_refl _⟩
  | peek _ induction =>
    obtain ⟨driven, hsize⟩ := induction
    obtain ⟨token, t', hpeek, driven', _, _, hmore⟩ := peek_driven driven hpulls
    rw [hpeek]
    exact ⟨driven', Nat.le_trans hsize hmore⟩
  | next _ induction =>
    obtain ⟨driven, hsize⟩ := induction
    obtain ⟨token, t', hnext, driven', _, _, hmore⟩ := next_driven driven hpulls
    rw [hnext]
    exact ⟨driven', Nat.le_trans hsize hmore⟩
  | reset _ hmark induction =>
    obtain ⟨⟨⟨read, noted⟩, _⟩, hsize⟩ := induction
    exact ⟨⟨⟨read, noted.size, noted.note⟩, hmark⟩, hsize⟩
  | lines _ numbers induction =>
    obtain ⟨⟨⟨read, noted⟩, hindex⟩, hsize⟩ := induction
    exact ⟨⟨⟨read, noted.size, noted.note⟩, hindex⟩, hsize⟩

theorem driven_ofLexer (source : Source) (tabSize : Nat) (origin : Option Origin) :
    Driven source tabSize (ofLexer (.ofSource source tabSize) origin) :=
  ⟨⟨⟨[], .start, rfl⟩, rfl, nofun⟩, Nat.le_refl _⟩

theorem Driven.standsIn (driven : Driven source tabSize s) (hmarker : marker.kind = .endMarker)
    (hread : ∀ handedOut l, Lexer.Reaches source tabSize handedOut l →
      handedOut = (List.range handedOut.length).map (Lexer.endless raw marker) ∧
      ∃ l', Lexer.pull l = .ok (Lexer.endless raw marker handedOut.length) l') :
    StandsIn (Lexer.endless (significant raw) marker) s := by
  have hpulls : ∀ handedOut l, Lexer.Reaches source tabSize handedOut l →
      ∃ token l', Lexer.pull l = .ok token l' := by
    intro handedOut l reached
    exact ⟨_, (hread handedOut l reached).2⟩
  have hbuffer {t : TokenStream} (driven : Driven source tabSize t) :=
    driven.holds.buffer hmarker fun handedOut l reached => (hread handedOut l reached).1
  have htoken {t : TokenStream} (driven : Driven source tabSize t) {i : Nat} {token : Token}
      (hfound : t.tokens[i]? = some token) :
      token = Lexer.endless (significant raw) marker i := by
    have hlt := (Array.getElem?_eq_some_iff.mp hfound).1
    rw [← Array.getElem?_toList, hbuffer driven] at hfound
    simpa [hlt] using hfound.symm
  refine ⟨hbuffer driven, driven.index, ?_, ?_, ?_⟩
  · obtain ⟨token, t, hpeek, driven', hplace, hfound, _⟩ := peek_driven driven hpulls
    obtain rfl := htoken driven' hfound
    exact ⟨t, hpeek, hplace, hfound⟩
  · obtain ⟨token, t, hnext, driven', hplace, hfound, _⟩ := next_driven driven hpulls
    obtain rfl := htoken driven' hfound
    exact ⟨t, hnext, hplace, hfound⟩
  · rw [driven.holds.noted.lastToken? driven.index, hbuffer driven, ← List.map_take,
      List.take_range, Nat.min_eq_left driven.index]

/-- However a stream on a source that can be read to its end is driven, it stands in one endless
sequence: the tokens that the grammar sees, and then the end marker for ever. What it holds are the
first tokens of that sequence and stays as it is; looking and going on never leave it, and the last
visible token is the one that a scan back from the place would find. -/
theorem stream_is_sequence {raw : List Token} (source : Source) (tabSize : Nat)
    (origin : Option Origin) (hraw : (Lexer.ofSource source tabSize).allTokens = .ok raw) :
    ∃ program marker, raw = program ++ [marker] ∧ marker.kind = .endMarker ∧
      ∀ s, Drives (ofLexer (.ofSource source tabSize) origin) s →
        StandsIn (Lexer.endless (significant raw) marker) s ∧
        ∀ t, Drives s t → s.tokens.toList <+: t.tokens.toList := by
  obtain ⟨program, marker, hprogram, hmarker, hread⟩ := Lexer.pulls_endless hraw
  refine ⟨program, marker, hprogram, hmarker, fun s drives => ?_⟩
  have hpulls : ∀ handedOut l, Lexer.Reaches source tabSize handedOut l →
      ∃ token l', Lexer.pull l = .ok token l' := by
    intro handedOut l reached
    exact ⟨_, (hread handedOut l reached).2⟩
  have driven := (drives.driven (driven_ofLexer source tabSize origin) hpulls).1
  refine ⟨driven.standsIn hmarker hread, fun t further => ?_⟩
  obtain ⟨driven', hsize⟩ := further.driven driven hpulls
  rw [(driven.standsIn hmarker hread).buffer, (driven'.standsIn hmarker hread).buffer]
  have hfirst := List.take_prefix s.tokens.size
    ((List.range t.tokens.size).map (Lexer.endless (significant raw) marker))
  rw [← List.map_take, List.take_range, Nat.min_eq_left hsize] at hfirst
  exact hfirst

/-- A comment, an empty line and white space are left out, and going back to the first line end does
not bring them in. -/
theorem stream_is_sequence_past_empty_line :
    ∃ raw marker s, (Lexer.ofSource (.ofString "a # b\n\n(\n c)\n") 8).allTokens = .ok raw ∧
      (significant raw).map (·.text) = ["a", "\n", "(", "c", ")", "\n", ""] ∧
      Drives (ofString "a # b\n\n(\n c)\n" 8) s ∧ s.index = 1 ∧ s.tokens.size = 3 ∧
      StandsIn (Lexer.endless (significant raw) marker) s := by
  have htexts : ((Lexer.ofSource (.ofString "a # b\n\n(\n c)\n") 8).allTokens.toOption.map
      fun raw => (significant raw).map (·.text)) =
      some ["a", "\n", "(", "c", ")", "\n", ""] := by decide +kernel
  cases hraw : (Lexer.ofSource (.ofString "a # b\n\n(\n c)\n") 8).allTokens with
  | error e => simp [hraw, Except.toOption] at htexts
  | ok raw =>
    obtain ⟨_, marker, _, _, hstands⟩ := stream_is_sequence _ 8 none hraw
    have read : Drives (ofString "a # b\n\n(\n c)\n" 8) _ := .peek (.next (.next .refl))
    have back := (@Drives.reset _ _ 1 read (by decide +kernel)).lines [1, 4]
    refine ⟨raw, marker, _, rfl, ?_, back, rfl, by decide +kernel, (hstands _ back).1⟩
    simpa [hraw, Except.toOption] using htexts

end TokenStream

end ShellSyntax
