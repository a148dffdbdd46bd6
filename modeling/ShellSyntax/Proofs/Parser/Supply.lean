import ShellSyntax.Proofs.Lexer.Additions
import ShellSyntax.Proofs.Parser.Reading

/-!
The tokens that a stream supplies. However a parser goes back and forth, the stream is always the
one that has kept so many tokens from its start on, with its place in it. So the tokens are a fixed
sequence, and it ends before the bound of the lexer.
-/

namespace ShellSyntax

open Outcome

/-! ### Single tokens -/

theorem Lexer.weight_of_pull {l l' : Lexer} {token : Token} (hbound : l.toCome < l.bound)
    (hpull : pull l = .ok token l') :
    l'.bound = l.bound ∧ l'.toCome ≤ l.toCome ∧ l'.weight ≤ l.weight ∧
      (l'.weight < l.weight ∨ token.IsEnd) := by
  obtain ⟨hsame, hcome, hweight, hlighter⟩ := pull_lighter hbound hpull
  refine ⟨hsame, hcome, hweight, hlighter.imp_right ?_⟩
  rintro rfl
  exact ⟨rfl, rfl⟩

namespace TokenStream

/-- The same stream, but at `index` and with so many tokens consumed. -/
def placed (s : TokenStream) (index reads : Nat) : TokenStream :=
  { s with index, reads }

theorem fill_placed (s : TokenStream) (fuel i r : Nat) :
    fill fuel (s.placed i r) =
      match fill fuel s with
      | .ok u t => .ok u (t.placed i r)
      | .error e t => .error e (t.placed i r) := by
  induction fuel generalizing s with
  | zero => rfl
  | succ fuel ih =>
    simp only [fill, run_bind, readRaw, placed]
    cases hpull : Lexer.pull s.lexer with
    | error e l => rfl
    | ok token l =>
      simp only [run_get]
      split
      · exact ih
          { s with lexer := l, lineCache := s.lineCache.insertIfNew token.start.line token.line }
      · rfl

theorem fill_ok {fuel : Nat} {s t : TokenStream} (hbound : s.lexer.toCome < s.lexer.bound)
    (hfuel : s.lexer.weight < fuel) (hfill : fill fuel s = .ok () t) :
    ∃ token lexer lineCache, t = keep { s with lexer, lineCache } token ∧
      lexer.bound = s.lexer.bound ∧ lexer.toCome ≤ s.lexer.toCome ∧
      lexer.weight ≤ s.lexer.weight ∧ (lexer.weight < s.lexer.weight ∨ token.IsEnd) := by
  induction fuel generalizing s with
  | zero => exact absurd hfuel (Nat.not_lt_zero _)
  | succ fuel ih =>
    simp only [fill, run_bind, readRaw] at hfill
    cases hpull : Lexer.pull s.lexer with
    | error e l => simp [hpull] at hfill
    | ok token l =>
      obtain ⟨hsame, hcome, hweight, hless⟩ := Lexer.weight_of_pull hbound hpull
      simp only [hpull, run_get] at hfill
      split at hfill
      case isTrue hdropped =>
        have hlighter : l.weight < s.lexer.weight := by
          refine hless.resolve_right fun hend => ?_
          simp [isDropped, hend.1] at hdropped
        obtain ⟨token', lexer, cache, rfl, hsame', hcome', hweight', hless'⟩ :=
          ih (s := { s with lexer := l, lineCache := _ }) (by simp only; omega)
            (by simp only; omega) hfill
        refine ⟨token', lexer, cache, rfl, hsame'.trans hsame, ?_, ?_, ?_⟩
        · exact Nat.le_trans hcome' hcome
        · exact Nat.le_trans hweight' hweight
        · exact hless'.imp_left fun h => Nat.lt_of_lt_of_le h hweight
      case isFalse =>
        simp only [run_set, EStateM.Result.ok.injEq, true_and] at hfill
        exact ⟨token, l, _, hfill.symm, hsame, hcome, hweight, hless⟩

/-! ### Filled streams -/

/-- The stream when it has kept `n` tokens, or where it failed before. -/
def filled (s : TokenStream) : Nat → EStateM.Result LexError TokenStream Unit
  | 0 => .ok () s
  | n + 1 =>
    match s.filled n with
    | .ok _ t => fill t.lexer.bound t
    | .error e t => .error e t

/-- A stream that has kept nothing, whose lexer is within its bound. -/
structure Fresh (s : TokenStream) : Prop where
  index : s.index = 0
  tokens : s.tokens = #[]
  lastReal : s.lastReal = #[]
  toCome : s.lexer.toCome < s.lexer.bound
  weight : s.lexer.weight < s.lexer.bound

theorem fresh_ofLexer (source : Source) (tabSize : Nat) (origin : Option Origin) :
    (ofLexer (.ofSource source tabSize) origin).Fresh where
  index := rfl
  tokens := rfl
  lastReal := rfl
  toCome := by
    have hbound := Lexer.bound_ofSource source tabSize
    simp only [ofLexer]
    omega
  weight := by
    have hbound := Lexer.bound_ofSource source tabSize
    simp only [ofLexer, Lexer.weight, Lexer.ofSource, List.length_nil, List.length_cons] at hbound ⊢
    simp
    omega

/-- The token that a stream supplies at `i`. -/
def supply (s : TokenStream) (i : Nat) : Except LexError Token :=
  match s.filled (i + 1) with
  | .ok _ t => .ok (t.tokens[i]?.getD (.endMarker t.lexer.lineNumber))
  | .error e _ => .error e

/-- What holds of a stream that has kept `n` tokens. -/
structure Filled (s : TokenStream) (n : Nat) (t : TokenStream) : Prop where
  bound : t.lexer.bound = s.lexer.bound
  toCome : t.lexer.toCome ≤ s.lexer.toCome
  weight : t.lexer.weight ≤ s.lexer.weight
  size : t.tokens.size = n
  token : ∀ i < n, (t.tokens[i]?).map Except.ok = some (s.supply i)

theorem filled_succ {s t : TokenStream} {n : Nat} (hfilled : s.filled (n + 1) = .ok () t) :
    ∃ t', s.filled n = .ok () t' ∧ fill t'.lexer.bound t' = .ok () t := by
  rw [filled] at hfilled
  cases h : s.filled n with
  | error e t' => simp [h] at hfilled
  | ok u t' =>
    simp only [h] at hfilled
    exact ⟨t', rfl, hfilled⟩

theorem Fresh.filled {s t : TokenStream} {n : Nat} (fresh : s.Fresh)
    (hfilled : s.filled n = .ok () t) : Filled s n t := by
  induction n generalizing t with
  | zero =>
    simp only [TokenStream.filled, EStateM.Result.ok.injEq, true_and] at hfilled
    subst hfilled
    exact ⟨rfl, Nat.le_refl _, Nat.le_refl _, by simp [fresh.tokens], nofun⟩
  | succ n ih =>
    have hall := hfilled
    obtain ⟨t', hbefore, hfill⟩ := filled_succ hfilled
    have before := ih hbefore
    have hcome := fresh.toCome
    have hweight := fresh.weight
    have hbound := before.bound
    have hcome' := before.toCome
    have hweight' := before.weight
    obtain ⟨token, lexer, cache, rfl, hsame, hcome'', hweight'', _⟩ :=
      fill_ok (by omega) (by omega) hfill
    refine ⟨hsame.trans hbound, Nat.le_trans hcome'' hcome', Nat.le_trans hweight'' hweight', ?_, ?_⟩
    · simp [keep, before.size]
    · intro i hi
      rcases Nat.lt_succ_iff_lt_or_eq.mp hi with hlt | rfl
      · have hold := before.token i hlt
        have hsize := before.size
        simp only [keep]
        rw [Array.getElem?_push_lt (by omega), ← Array.getElem?_eq_getElem]
        exact hold
      · have hpush : (t'.tokens.push token)[i]? = some token := by
          rw [← before.size]
          exact Array.getElem?_push_size
        simp [supply, hall, keep, hpush]

theorem Filled.supply {s t : TokenStream} {n i : Nat} (filled : Filled s n t) (hi : i < n) :
    ∃ token, t.tokens[i]? = some token ∧ s.supply i = .ok token := by
  have h := filled.token i hi
  obtain ⟨token, htoken, heq⟩ := Option.map_eq_some_iff.mp h
  exact ⟨token, htoken, heq.symm⟩

/-- The sequence ends: at some place below the bound no token comes, or only end markers. -/
theorem Fresh.ends {s : TokenStream} (fresh : s.Fresh) :
    ∃ limit < s.lexer.bound, ∀ t, s.supply limit = .ok t → t.IsEnd := by
  refine Classical.byContradiction fun hnone => ?_
  have hprogram : ∀ i < s.lexer.bound, ∃ t, s.supply i = .ok t ∧ ¬t.IsEnd := by
    simpa only [not_exists, not_and, Classical.not_forall, exists_prop] using hnone
  have hfull : ∀ n ≤ s.lexer.bound,
      ∃ t, s.filled n = .ok () t ∧ t.lexer.weight + n ≤ s.lexer.weight := by
    intro n hn
    induction n with
    | zero => exact ⟨s, rfl, Nat.le_refl _⟩
    | succ n ih =>
      obtain ⟨t, hfilled, hweight⟩ := ih (by omega)
      obtain ⟨token, hsupply, hend⟩ := hprogram n (by omega)
      have before := fresh.filled hfilled
      have hcome := fresh.toCome
      have hless := fresh.weight
      have hbound := before.bound
      have hcome' := before.toCome
      cases hfill : fill t.lexer.bound t with
      | error e t' => simp [supply, TokenStream.filled, hfilled, hfill] at hsupply
      | ok u t' =>
        have hnext : s.filled (n + 1) = .ok () t' := by
          rw [TokenStream.filled, hfilled]
          exact hfill
        obtain ⟨token', lexer, cache, rfl, _, _, _, hlighter⟩ := fill_ok (by omega) (by omega) hfill
        refine ⟨_, hnext, ?_⟩
        have hlast := before.size
        have hsame : token' = token := by
          subst hlast
          simpa [supply, hnext, keep] using hsupply
        subst hsame
        have hdrop := hlighter.resolve_right hend
        simp only [keep]
        omega
  obtain ⟨t, _, hweight⟩ := hfull s.lexer.bound (Nat.le_refl _)
  have hless := fresh.weight
  omega

/-! ### Names -/

theorem fill_lettered {fuel : Nat} {s t : TokenStream} (hbound : s.lexer.toCome < s.lexer.bound)
    (hlexer : s.lexer.Lettered) (htokens : ∀ token ∈ s.tokens, token.Lettered)
    (hfill : fill fuel s = .ok () t) :
    t.lexer.Lettered ∧ ∀ token ∈ t.tokens, token.Lettered := by
  induction fuel generalizing s with
  | zero =>
    obtain ⟨_, rfl⟩ := pure_ok.mp hfill
    exact ⟨hlexer, htokens⟩
  | succ fuel ih =>
    simp only [fill, run_bind, readRaw] at hfill
    cases hpull : Lexer.pull s.lexer with
    | error e l => simp [hpull] at hfill
    | ok token l =>
      obtain ⟨hsame, hcome, _⟩ := Lexer.weight_of_pull hbound hpull
      obtain ⟨htoken, hlexer⟩ := hlexer.pull hbound hpull
      simp only [hpull, run_get] at hfill
      split at hfill
      case isTrue =>
        refine ih (s := { s with lexer := l, lineCache := _ }) ?_ hlexer htokens hfill
        rw [hsame]
        exact Nat.lt_of_le_of_lt hcome hbound
      case isFalse =>
        simp only [run_set, EStateM.Result.ok.injEq, true_and] at hfill
        subst hfill
        refine ⟨hlexer, fun other hother => ?_⟩
        rcases Array.mem_push.mp hother with hold | rfl
        · exact htokens other hold
        · exact htoken

theorem Fresh.lettered {s : TokenStream} (fresh : s.Fresh) (hlexer : s.lexer.Lettered) (i : Nat)
    (token : Token) (hsupply : s.supply i = .ok token) : token.Lettered := by
  have hall : ∀ n t, s.filled n = .ok () t →
      t.lexer.Lettered ∧ ∀ token ∈ t.tokens, token.Lettered := by
    intro n
    induction n with
    | zero =>
      intro t hfilled
      obtain ⟨_, rfl⟩ := EStateM.Result.ok.inj hfilled
      exact ⟨hlexer, by simp [fresh.tokens]⟩
    | succ n ih =>
      intro t hfilled
      obtain ⟨t', hbefore, hfill⟩ := filled_succ hfilled
      have before := fresh.filled hbefore
      have hcome := fresh.toCome
      have hcome' := before.toCome
      have hbound := before.bound
      exact fill_lettered (by omega) (ih t' hbefore).1 (ih t' hbefore).2 hfill
  rw [supply] at hsupply
  cases hfilled : s.filled (i + 1) with
  | error e t => simp [hfilled] at hsupply
  | ok u t =>
    obtain ⟨found, hfound, hsame⟩ := (fresh.filled hfilled).supply (Nat.lt_succ_self i)
    simp only [hfilled, hfound, Option.getD_some, Except.ok.injEq] at hsupply
    subst hsupply
    exact (hall _ t hfilled).2 found (Array.mem_of_getElem? hfound)

/-! ### Reading a filled stream -/

section Reading

variable {s t : TokenStream} {n i r : Nat}

theorem peek_known {token : Token} (hsize : t.tokens.size = n) (hi : i < n)
    (htoken : t.tokens[i]? = some token) : peek (t.placed i r) = .ok token (t.placed i r) := by
  have hne : ¬i = t.tokens.size := by omega
  simp [peek, run_bind, run_get, placed, hne, htoken]

theorem peek_fill (hsize : t.tokens.size = n) :
    peek (t.placed n r) =
      match fill t.lexer.bound t with
      | .ok _ t' => .ok (t'.tokens[n]?.getD (.endMarker t'.lexer.lineNumber)) (t'.placed n r)
      | .error e t' => .error e (t'.placed n r) := by
  have hfill := fill_placed t t.lexer.bound n r
  simp only [placed] at hfill
  simp only [peek, run_bind, run_get, placed, hsize,
    if_true, hfill]
  cases fill t.lexer.bound t with
  | ok u t' => rfl
  | error e t' => rfl

theorem Fresh.peek_ok (fresh : s.Fresh) (hfilled : s.filled n = .ok () t) (hle : i ≤ n)
    {token : Token} (hsupply : s.supply i = .ok token) :
    ∃ t', s.filled (max n (i + 1)) = .ok () t' ∧
      peek (t.placed i r) = .ok token (t'.placed i r) := by
  have filled := fresh.filled hfilled
  rcases Nat.lt_or_eq_of_le hle with hlt | rfl
  · obtain ⟨token', htoken, hsame⟩ := filled.supply hlt
    cases hsupply.symm.trans hsame
    rw [Nat.max_eq_left hlt]
    exact ⟨t, hfilled, peek_known filled.size hlt htoken⟩
  · rw [Nat.max_eq_right (Nat.le_succ i)]
    rw [peek_fill filled.size]
    simp only [supply, TokenStream.filled, hfilled] at hsupply ⊢
    cases hfill : fill t.lexer.bound t with
    | error e t' => simp [hfill] at hsupply
    | ok u t' =>
      simp only [hfill, Except.ok.injEq] at hsupply
      exact ⟨t', rfl, by simp only [hsupply]⟩

theorem Fresh.peek_error (fresh : s.Fresh) (hfilled : s.filled n = .ok () t) (hle : i ≤ n)
    {e : LexError} (hsupply : s.supply i = .error e) :
    n = i ∧ ∃ t', s.filled (i + 1) = .error e t' ∧
      peek (t.placed i r) = .error e (t'.placed i r) := by
  have filled := fresh.filled hfilled
  rcases Nat.lt_or_eq_of_le hle with hlt | rfl
  · obtain ⟨token', _, hsame⟩ := filled.supply hlt
    cases hsupply.symm.trans hsame
  · rw [peek_fill filled.size]
    simp only [supply, TokenStream.filled, hfilled] at hsupply ⊢
    cases hfill : fill t.lexer.bound t with
    | ok u t' => simp [hfill] at hsupply
    | error e' t' =>
      simp only [hfill, Except.error.injEq] at hsupply
      subst hsupply
      exact ⟨trivial, t', rfl, rfl⟩

end Reading

/-! ### The world of a stream -/

variable {s t : TokenStream} {n i r : Nat}

/-- What a parser on the stream `s` can learn. -/
noncomputable def world (s : TokenStream) (fresh : s.Fresh) (diagnosing : Bool) : World where
  token := s.supply
  limit := fresh.ends.choose
  bound := s.lexer.bound
  ends := fresh.ends.choose_spec.2
  limit_lt := fresh.ends.choose_spec.1
  diagnosing := diagnosing

/-- Which tokens are no layout. -/
structure Marked (f : Feed) (n : Nat) (t : TokenStream) : Prop where
  size : t.lastReal.size = n
  last : ∀ i < n, ∃ last, t.lastReal[i]? = some last ∧ (∀ k, last = some k → k < n) ∧
    (last.bind fun k => t.tokens[k]?) = f.lastToken? (i + 1)

theorem Fresh.marked (fresh : s.Fresh) (diagnosing : Bool) (hfilled : s.filled n = .ok () t) :
    Marked (s.world fresh diagnosing).toFeed n t := by
  induction n generalizing t with
  | zero =>
    simp only [TokenStream.filled, EStateM.Result.ok.injEq, true_and] at hfilled
    subst hfilled
    exact ⟨by simp [fresh.lastReal], nofun⟩
  | succ n ih =>
    have hall := hfilled
    obtain ⟨t', hbefore, hfill⟩ := filled_succ hfilled
    have before := fresh.filled hbefore
    have marked := ih hbefore
    have hcome := fresh.toCome
    have hweight := fresh.weight
    have hbound := before.bound
    have hcome' := before.toCome
    have hweight' := before.weight
    obtain ⟨token, lexer, cache, rfl, _, _, _, _⟩ := fill_ok (by omega) (by omega) hfill
    have hsupply : s.supply n = .ok token := by
      have hpush : (t'.tokens.push token)[n]? = some token := by
        rw [← before.size]
        exact Array.getElem?_push_size
      simp [supply, hall, keep, hpush]
    have hsize := before.size
    have hmark := marked.size
    have hkept : ∀ last : Option Nat, (∀ k, last = some k → k < n) →
        (last.bind fun k => t'.tokens[k]?) =
          last.bind fun k => (t'.tokens.push token)[k]? := by
      intro last hbefore
      cases last with
      | none => rfl
      | some k =>
        have hk := hbefore k rfl
        simp only [Option.bind_some]
        rw [Array.getElem?_push_lt (by omega), ← Array.getElem?_eq_getElem]
    let real := if token.kind.isLayout then t'.lastReal.back?.join else some t'.tokens.size
    have hreal : (∀ k, real = some k → k < n + 1) ∧
        (real.bind fun k => (t'.tokens.push token)[k]?) =
          (s.world fresh diagnosing).lastToken? (n + 1) := by
      have htoken : (s.world fresh diagnosing).token n = .ok token := hsupply
      simp only [real, Feed.lastToken?, htoken]
      cases hlayout : token.kind.isLayout with
      | false =>
        refine ⟨fun k hk => ?_, ?_⟩
        · simp only [hsize, Bool.false_eq_true, if_false, Option.some.injEq] at hk
          omega
        · simp
      | true =>
        simp only [if_true]
        cases n with
        | zero =>
          have hnone : t'.lastReal = #[] := Array.size_eq_zero_iff.mp hmark
          simp [hnone, Feed.lastToken?]
        | succ m =>
          obtain ⟨last, hlast, hbefore, hsame⟩ := marked.last m (Nat.lt_succ_self m)
          have hback : t'.lastReal.back? = some last := by
            rw [Array.back?, hmark]
            exact hlast
          simp only [hback, Option.join_some]
          exact ⟨fun k hk => Nat.lt_succ_of_lt (hbefore k hk), hkept last hbefore ▸ hsame⟩
    refine ⟨by simp [keep, hmark], fun i hi => ?_⟩
    rcases Nat.lt_succ_iff_lt_or_eq.mp hi with hlt | rfl
    · obtain ⟨last, hlast, hbefore, hsame⟩ := marked.last i hlt
      refine ⟨last, ?_, fun k hk => Nat.lt_succ_of_lt (hbefore k hk), ?_⟩
      · simp only [keep]
        rw [Array.getElem?_push_lt (by omega), ← Array.getElem?_eq_getElem]
        exact hlast
      · exact (hkept last hbefore).symm.trans hsame
    · refine ⟨real, ?_, hreal.1, hreal.2⟩
      simp only [keep]
      rw [← hmark]
      exact Array.getElem?_push_size

theorem Fresh.lastToken? (fresh : s.Fresh) {diagnosing : Bool} (hfilled : s.filled n = .ok () t)
    (hle : i ≤ n) : (t.placed i r).lastToken? = (s.world fresh diagnosing).lastToken? i := by
  cases i with
  | zero => rfl
  | succ i =>
    obtain ⟨last, hlast, _, hsame⟩ := (fresh.marked diagnosing hfilled).last i hle
    have hindex : ¬i + 1 = 0 := Nat.succ_ne_zero i
    simp only [TokenStream.lastToken?, placed, hindex, if_false, Nat.add_sub_cancel, hlast,
      Option.join_some]
    exact hsame

theorem Fresh.startOf (fresh : s.Fresh) {diagnosing : Bool} (hfilled : s.filled n = .ok () t)
    (hlt : i < n) :
    ∃ token, t.tokens[i]? = some token ∧ (s.world fresh diagnosing).startOf i = token.start := by
  obtain ⟨token, htoken, hsupply⟩ := (fresh.filled hfilled).supply hlt
  have hworld : (s.world fresh diagnosing).token i = .ok token := hsupply
  exact ⟨token, htoken, by simp only [Feed.startOf, hworld]⟩

end TokenStream

end ShellSyntax
