import ShellSyntax.Proofs.Parser.Keeping

/-!
Whole parses. Both passes end, no rule is tried again where it is already being tried, and what is
remembered does not show in the result.
-/

namespace ShellSyntax

open Outcome

variable {R : RuleSet}

namespace Pass

def first (stream : TokenStream) (fresh : stream.Fresh) (filename : String) : Pass :=
  ⟨stream, fresh, filename, false⟩

def second (p : Pass) : Pass :=
  { p with diagnosing := true }

/-- What the whole source is read as. -/
noncomputable def reading (p : Pass) (G : Grammar R) (K : Ranking R) (entry : R.Rule) :
    Reading (Option (R.Node entry)) :=
  p.world.read (p.world.answer G K) (G.body entry) 0

variable {p : Pass} {K : Ranking R} {G : Grammar R} {keep keep' : Keeper R} {entry : R.Rule}

theorem first_at {stream : TokenStream} {fresh : stream.Fresh} {filename : String}
    {traceLimit : Option Nat} :
    (first stream fresh filename).At 0 0 0
      (Session.ofStream stream filename traceLimit : Session R) := by
  refine ⟨⟨stream, stream.reads, rfl, ?_⟩, Nat.le_refl 0, rfl, rfl, rfl⟩
  have hindex := fresh.index
  cases stream
  cases hindex
  rfl

theorem At.second {depth n i : Nat} {s : Session R} (hat : p.At depth n i s) :
    p.second.At 0 n 0 (Parser.secondPass s) := by
  obtain ⟨t, reads, hfilled, hstream⟩ := hat.stream
  refine ⟨⟨t, reads, hfilled, ?_⟩, Nat.zero_le n, hat.filename, rfl, rfl⟩
  simp only [Parser.secondPass, Session.note, Session.reset, hstream]
  rfl

theorem remembers_nothing {answers : Callee R} {n : Nat} {s : Session R} (hmemo : s.memo = ∅)
    (hactive : s.active = ∅) : Remembers answers .none n s.memo s.active where
  seed := nofun
  memo r i entry hentry := by simp [hmemo] at hentry
  active r i hkey := by simp [hactive] at hkey

theorem At.need_lt {depth n i : Nat} {s : Session R} (hat : p.At depth n i s) (r : R.Rule)
    (j : Nat) : K.need p.world.limit r j < Parser.callDepth s := by
  have hlimit := p.world.limit_lt
  have hrank := K.rank_le r
  have hfirst := Nat.mul_le_mul_right (R.count + 1) (Nat.sub_le p.world.limit j)
  have hmul := Nat.mul_le_mul_right (R.count + 1)
    (show p.world.limit + 2 ≤ s.bound + 1 by rw [hat.bound]; omega)
  rw [Nat.add_mul] at hmul
  simp only [Ranking.need, Parser.callDepth]
  omega

theorem need_le (p : Pass) (r : R.Rule) (i : Nat) :
    K.need p.world.limit r i ≤ p.world.bound * (R.count + 1) := by
  have hrank := K.rank_le r
  have hlimit := p.world.limit_lt
  have hmul := Nat.mul_le_mul_right (R.count + 1)
    (show p.world.limit - i + 1 ≤ p.world.bound by omega)
  rw [Nat.add_mul, Nat.one_mul] at hmul
  unfold Ranking.need
  omega

theorem none_clear (r : R.Rule) (i : Nat) : Tried.none.Clear K r i := by
  rintro r' j (hseed | hbusy)
  · exact absurd rfl hseed
  · exact hbusy.elim

theorem rule_agrees (hG : K.Governs G) (hnames : R.Distinguishes)
    (hkeep : Keeps p K (p.world.answer G K) keep keep') {r : R.Rule} (hentry : K.isEntry r = false)
    {n : Nat} {s : Session R} (hat : p.At 0 n 0 s) (hmemo : s.memo = ∅) (hactive : s.active = ∅) :
    Agrees p (p.world.answer G K) .none 0 n (p.world.answer G K r 0)
      (Parser.runRuleWith keep G r s) (Parser.runRuleWith keep' G r s) := by
  simp only [Parser.runRuleWith, run_bind, run_get]
  exact callWith_agrees hG hnames hkeep hentry (Nat.zero_le _) (hat.need_lt r 0) (none_clear r 0)
    hat (remembers_nothing hmemo hactive)

theorem runRule_agrees (hG : K.Governs G) (hnames : R.Distinguishes) {r : R.Rule}
    (hentry : K.isEntry r = false) {o : Tried R} {depth n i : Nat} {s : Session R}
    (hlimit : i ≤ p.world.limit) (hclear : o.Clear K r i) (hat : p.At depth n i s)
    (hremembers : Remembers (p.world.answer G K) o n s.memo s.active) :
    Agrees p (p.world.answer G K) o depth n (p.world.answer G K r i) (Parser.runRule G r s)
      (Parser.runRule G r s) := by
  have hsame : Parser.callWith (Parser.memoizedOr Parser.failing) G (Parser.callDepth s) r s =
      Parser.runRule G r s := by
    simp only [Parser.runRule, run_bind, run_get, Parser.call_eq, Parser.memoized_eq]
  rw [← hsame]
  exact callWith_agrees hG hnames (memoizedOr_keeps hnames Parser.failing Parser.failing) hentry
    hlimit (hat.need_lt r i) hclear hat hremembers

/-- In a pass the parser calls a rule at this place: what it remembers are answers, and it is not
inside a rule that this one may call. -/
structure Calls (p : Pass) (K : Ranking R) (G : Grammar R) (r : R.Rule) (i : Nat) (s : Session R) :
    Prop where
  limit : i ≤ p.world.limit
  stands : ∃ depth n o, p.At depth n i s ∧ o.Clear K r i ∧
    Remembers (p.world.answer G K) o n s.memo s.active

namespace Calls

variable {r : R.Rule} {i : Nat} {s s' : Session R}

theorem fresh {depth n : Nat} (hat : p.At depth n i s) (hlimit : i ≤ p.world.limit)
    (hmemo : s.memo = ∅) (hactive : s.active = ∅) : p.Calls K G r i s :=
  ⟨hlimit, depth, n, .none, hat, none_clear r i, remembers_nothing hmemo hactive⟩

theorem answer {found : Option (R.Node r)} (calls : p.Calls K G r i s) (hG : K.Governs G)
    (hnames : R.Distinguishes) (hentry : K.isEntry r = false)
    (hrun : Parser.runRule G r s = .ok found s') :
    (p.world.answer G K r i).result = .ok (found, s'.mark) := by
  obtain ⟨hlimit, depth, n, o, hat, hclear, hremembers⟩ := calls
  have hagrees := runRule_agrees hG hnames hentry hlimit hclear hat hremembers
  have hmeets := World.answer_meets hG hentry hlimit
  rw [hrun] at hagrees
  cases hagrees with
  | ok hresult hat => rwa [hat.mark]
  | endless hresult =>
    rw [Reading.Meets, hresult] at hmeets
    exact hmeets.elim

theorem yields {n j : Nat} {found : Option (R.Node r)} (hG : K.Governs G)
    (hnames : R.Distinguishes) (hentry : K.isEntry r = false) (hat : p.At 0 n i s)
    (hlimit : i ≤ p.world.limit) (hmemo : s.memo = ∅) (hactive : s.active = ∅)
    (hresult : (p.world.answer G K r i).result = .ok (found, j))
    (hdepth : (p.world.answer G K r i).depth ≤ Session.nestingLimit) :
    ∃ s', Parser.runRule G r s = .ok found s' ∧ s'.mark = j := by
  have hagrees := runRule_agrees hG hnames hentry hlimit (none_clear r i) hat
    (remembers_nothing hmemo hactive)
  generalize Parser.runRule G r s = run at hagrees
  cases hagrees with
  | ok hresult' hat =>
    cases hresult.symm.trans hresult'
    exact ⟨_, rfl, hat.mark⟩
  | tooDeep _ hdeep => omega
  | lexical hresult' | fault hresult' | endless hresult' => cases hresult.symm.trans hresult'

end Calls

theorem reading_proper (hG : K.Governs G) (hentry : K.isEntry entry = true) {h : Halt}
    (hresult : (p.reading G K entry).result = .error h) : h.Proper := by
  obtain ⟨_, α, first, last, hbody, hstraight, hfirst⟩ := hG.entry entry hentry
  have hcallee : CalleesAgree p.world K ⟨0, K.rank entry, 0⟩ (p.world.answer G K)
      (p.world.answer G K) :=
    fun r i hallows hi => ⟨rfl, World.answer_meets hG hallows.2.1 hi⟩
  have hmeets := ((hfirst p.world 0).meets hcallee (Nat.zero_le _) (Nat.zero_le _)).2
  rw [reading, hbody, World.read_bind, Reading.andThen] at hresult
  unfold Reading.Meets at hmeets
  cases hread : (p.world.read (p.world.answer G K) first 0).result with
  | error halt =>
    simp only [hread] at hmeets hresult
    cases hresult
    exact hmeets
  | ok found =>
    simp only [hread] at hresult
    exact (hstraight found.1).proper hresult

theorem reading_ends (hG : K.Governs G) (hentry : K.isEntry entry = true) :
    (p.reading G K entry).result ≠ .error .endless :=
  fun hresult => (reading_proper hG hentry hresult).ends rfl

theorem agrees (hG : K.Governs G) (hnames : R.Distinguishes)
    (hkeep : Keeps p K (p.world.answer G K) keep keep') (hentry : K.isEntry entry = true) {n : Nat}
    {s : Session R} (hat : p.At 0 n 0 s) (hmemo : s.memo = ∅) (hactive : s.active = ∅) :
    Agrees p (p.world.answer G K) .none 0 n (p.reading G K entry)
        (Parser.runRuleWith keep G entry s) (Parser.runRuleWith keep' G entry s) ∧
      (p.reading G K entry).result ≠ .error .endless := by
  obtain ⟨hpolicy, α, first, last, hbody, hstraight, hfirst⟩ := hG.entry entry hentry
  have hneed := hat.need_lt (K := K) entry 0
  obtain ⟨fuel, hdepth⟩ : ∃ fuel, Parser.callDepth s = fuel + 1 :=
    ⟨Parser.callDepth s - 1, by omega⟩
  have hfuel : K.need p.world.limit entry 0 ≤ fuel := by omega
  have hrun : ∀ keep : Keeper R, Parser.runRuleWith keep G entry s =
      follow (Parser.exec (Parser.callWith keep G fuel) first s)
        fun a => Parser.exec (Parser.callWith keep G fuel) (last a) := by
    intro keep
    rw [← exec_bind, ← hbody]
    simp only [Parser.runRuleWith, run_bind, run_get,
      hdepth, Parser.callWith, hpolicy]
  have hserves : Serves p K (p.world.answer G K) .none ⟨0, K.rank entry, 0⟩ (p.world.answer G K)
      (Parser.callWith keep G fuel) (Parser.callWith keep' G fuel) := by
    intro r j hallows hj
    have hinside := hallows.inside hj
    have hless := hinside.need_lt
    refine ⟨World.answer_meets hG hinside.1 hj, fun depth n s hat hremembers => ?_⟩
    exact callWith_agrees hG hnames hkeep hinside.1 hj (by omega) (none_clear r j) hat hremembers
  have hreading : p.reading G K entry = (p.world.read (p.world.answer G K) first 0).andThen
      fun a j => p.world.read (p.world.answer G K) (last a) j := by
    rw [reading, hbody, World.read_bind]
  refine ⟨?_, reading_ends hG hentry⟩
  rw [hrun, hrun, hreading]
  refine (exec_agrees hserves (hfirst p.world 0) (Nat.zero_le _) (Nat.zero_le _) (Nat.zero_le _)
    hat (remembers_nothing hmemo hactive)).andThen ?_
  intro a j s' _ hat' hremembers'
  exact (hstraight a).agrees hat' hremembers'

/-- The source can be read without the ranking, by rules that call each other deep enough. -/
theorem reading_eq (hG : K.Governs G) (hentry : K.isEntry entry = true) {fuel : Nat}
    (hfuel : p.world.bound * (R.count + 1) ≤ fuel) :
    p.reading G K entry = p.world.read (p.world.call G fuel) (G.body entry) 0 := by
  obtain ⟨_, α, first, last, hbody, hstraight, hfirst⟩ := hG.entry entry hentry
  have hcallee : CalleesAgree p.world K ⟨0, K.rank entry, 0⟩ (p.world.answer G K)
      (p.world.call G fuel) := by
    intro r i hallows hi
    have hneed : K.need p.world.limit r i ≤ fuel := Nat.le_trans (p.need_le r i) hfuel
    exact ⟨(World.call_meets hG hallows.2.1 hi hneed).1.symm,
      World.answer_meets hG hallows.2.1 hi⟩
  obtain ⟨heq, hmeets⟩ := (hfirst p.world 0).meets hcallee (Nat.zero_le _) (Nat.zero_le _)
  rw [reading, hbody, World.read_bind, World.read_bind]
  exact Reading.andThen_congr heq hmeets fun a j _ _ => (hstraight a).read_eq _ _ _

end Pass

/-! ### Two parsers that do the same -/

section Same

variable {p : Pass} {answers : Callee R} {o : Tried R} {depth n : Nat} {α : Type}
  {reading : Reading α} {run run' : EStateM.Result Abort (Session R) α}

theorem Agrees.eq (h : Agrees p answers o depth n reading run run')
    (hends : reading.result ≠ .error .endless) : run = run' := by
  cases h with
  | endless hresult => exact absurd hresult hends
  | _ => rfl

theorem Agrees.ends (h : Agrees p answers o depth n reading run run')
    (hends : reading.result ≠ .error .endless) (s : Session R) : run ≠ .error .endless s := by
  cases h with
  | endless hresult => exact absurd hresult hends
  | _ => exact nofun

theorem Agrees.at_of_ok {a : α} {s : Session R}
    (h : Agrees p answers o depth n reading (.ok a s) run')
    (hends : reading.result ≠ .error .endless) :
    ∃ n j, p.At depth n j s := by
  cases h with
  | endless hresult => exact absurd hresult hends
  | ok _ hat => exact ⟨_, _, hat⟩

end Same

/-- A rule has matched, no brackets were nested too deep, and the match and its end are `good`. -/
def Reading.hits {N : Type} (o : Reading (Option N)) (good : N → Nat → Bool) : Bool :=
  match o.result with
  | .ok (some node, j) => decide (o.depth ≤ Session.nestingLimit) && good node j
  | _ => false

theorem Reading.of_hits {N : Type} {o : Reading (Option N)} {good : N → Nat → Bool}
    (h : o.hits good = true) :
    ∃ node j, o.result = .ok (some node, j) ∧ o.depth ≤ Session.nestingLimit ∧
      good node j = true := by
  unfold hits at h
  split at h
  case h_1 node j hresult =>
    rw [Bool.and_eq_true, decide_eq_true_eq] at h
    exact ⟨node, j, hresult, h⟩
  case h_2 => cases h

/-- A tree was read, no brackets were nested too deep, and the tree is `good`. -/
def Reading.accepts {N : Type} (o : Reading (Option N)) (good : N → Bool) : Bool :=
  match o.result with
  | .ok (some tree, _) => decide (o.depth ≤ Session.nestingLimit) && good tree
  | _ => false

theorem Reading.of_accepts {N : Type} {o : Reading (Option N)} {good : N → Bool}
    (h : o.accepts good = true) :
    ∃ tree j, o.result = .ok (some tree, j) ∧ o.depth ≤ Session.nestingLimit ∧
      good tree = true := by
  have hhits : o.hits (fun tree _ => good tree) = true := h
  exact of_hits hhits

/-- The parser gave up where brackets are nested too deep. -/
def TooDeep {α : Type} (result : Except SyntaxError α) : Prop :=
  ∃ error, result = .error error ∧ error.message = tooDeepMessage

theorem tooDeep_error {α : Type} {error : SyntaxError} (h : error.message = tooDeepMessage) :
    TooDeep (.error error : Except SyntaxError α) :=
  ⟨error, rfl, h⟩

/-- Both ways to keep the results of rules answer what the rules read, and do the same. -/
def Faithful (K : Ranking R) (G : Grammar R) (keep keep' : Keeper R) : Prop :=
  ∀ p : Pass, Keeps p K (p.world.answer G K) keep keep'

variable {K : Ranking R} {G : Grammar R} {keep keep' : Keeper R} {entry : R.Rule}

theorem memoizedOr_faithful (hnames : R.Distinguishes)
    (reentered reentered' : (r : R.Rule) → Parse R (Option (R.Node r))) :
    Faithful K G (Parser.memoizedOr reentered) (Parser.memoizedOr reentered') :=
  fun _ => memoizedOr_keeps hnames reentered reentered'

theorem unmemoized_faithful : Faithful K G Parser.unmemoized Parser.unmemoized :=
  fun _ => unmemoized_keeps

section Start

variable {stream : TokenStream} {filename : String} {traceLimit : Option Nat}
  {found : Option (R.Node entry)} {s : Session R}

theorem firstPass_agrees (filename : String) (traceLimit : Option Nat) (hG : K.Governs G)
    (hnames : R.Distinguishes)
    (hkeep : Faithful K G keep keep') (hentry : K.isEntry entry = true) (fresh : stream.Fresh) :
    let p := Pass.first stream fresh filename
    let start : Session R := .ofStream stream filename traceLimit
    Agrees p (p.world.answer G K) .none 0 0 (p.reading G K entry)
        (Parser.runRuleWith keep G entry start) (Parser.runRuleWith keep' G entry start) ∧
      (p.reading G K entry).result ≠ .error .endless :=
  Pass.agrees hG hnames (hkeep _) hentry Pass.first_at rfl rfl

theorem secondPass_agrees (hG : K.Governs G) (hnames : R.Distinguishes)
    (hkeep : Faithful K G keep keep') (hentry : K.isEntry entry = true) (fresh : stream.Fresh)
    (hfirst :
      Parser.runRuleWith keep G entry (.ofStream stream filename traceLimit) = .ok found s) :
    let p := (Pass.first stream fresh filename).second
    (∃ n, Agrees p (p.world.answer G K) .none 0 n (p.reading G K entry)
        (Parser.runRuleWith keep G entry (Parser.secondPass s))
        (Parser.runRuleWith keep' G entry (Parser.secondPass s))) ∧
      (p.reading G K entry).result ≠ .error .endless := by
  obtain ⟨hagrees, hends⟩ :=
    firstPass_agrees filename traceLimit hG hnames hkeep hentry fresh
  rw [hfirst] at hagrees
  obtain ⟨n, j, hat⟩ := hagrees.at_of_ok hends
  obtain ⟨hsecond, hends'⟩ := Pass.agrees hG hnames (hkeep _) hentry hat.second rfl rfl
  exact ⟨⟨n, hsecond⟩, hends'⟩

theorem runRuleWith_ends (hG : K.Governs G) (hnames : R.Distinguishes)
    (hkeep : Faithful K G keep keep) (hentry : K.isEntry entry = true) (fresh : stream.Fresh)
    (s : Session R) :
    Parser.runRuleWith keep G entry (.ofStream stream filename traceLimit) ≠
      .error .endless s := by
  obtain ⟨hagrees, hends⟩ := firstPass_agrees filename traceLimit hG hnames hkeep hentry fresh
  exact hagrees.ends hends s

theorem runRuleWith_secondPass_ends (hG : K.Governs G) (hnames : R.Distinguishes)
    (hkeep : Faithful K G keep keep) (hentry : K.isEntry entry = true) (fresh : stream.Fresh)
    (hfirst :
      Parser.runRuleWith keep G entry (.ofStream stream filename traceLimit) = .ok found s)
    (s' : Session R) :
    Parser.runRuleWith keep G entry (Parser.secondPass s) ≠ .error .endless s' := by
  obtain ⟨⟨n, hagrees⟩, hends⟩ := secondPass_agrees hG hnames hkeep hentry fresh hfirst
  exact hagrees.ends hends s'

theorem parseWith_eq (filename : String) (traceLimit : Option Nat) (hG : K.Governs G)
    (hnames : R.Distinguishes) (hkeep : Faithful K G keep keep') (hentry : K.isEntry entry = true)
    (fresh : stream.Fresh) :
    Parser.parseWith keep G entry (.ofStream stream filename traceLimit) =
      Parser.parseWith keep' G entry (.ofStream stream filename traceLimit) := by
  obtain ⟨hagrees, hends⟩ :=
    firstPass_agrees filename traceLimit hG hnames hkeep hentry fresh
  have hfirst := hagrees.eq hends
  unfold Parser.parseWith
  rw [← hfirst]
  cases hrun : Parser.runRuleWith keep G entry (.ofStream stream filename traceLimit) with
  | error abort s => rfl
  | ok found s =>
    cases found with
    | some tree => rfl
    | none =>
      obtain ⟨⟨n, hagrees'⟩, hends'⟩ := secondPass_agrees hG hnames hkeep hentry fresh hrun
      have hsecond := hagrees'.eq hends'
      dsimp only
      rw [hsecond]

theorem parse_ok {node : R.Node entry} (hG : K.Governs G) (hnames : R.Distinguishes)
    (hentry : K.isEntry entry = true) (fresh : stream.Fresh)
    (hparse : Parser.parse G entry (.ofStream stream filename traceLimit) = (.ok node, s)) :
    ∃ n j, ((Pass.first stream fresh filename).reading G K entry).result = .ok (some node, j) ∧
      (Pass.first stream fresh filename).At 0 n j s := by
  obtain ⟨hagrees, hends⟩ := firstPass_agrees filename traceLimit hG hnames
    (memoizedOr_faithful hnames Parser.failing Parser.failing) hentry fresh
  rw [Parser.parse_eq, Parser.memoized_eq] at hparse
  unfold Parser.parseWith at hparse
  generalize Parser.runRuleWith (Parser.memoizedOr Parser.failing) G entry
    (.ofStream stream filename traceLimit) = run at hagrees hparse
  cases hagrees with
  | endless hresult => exact absurd hresult hends
  | lexical | fault | tooDeep => simp at hparse
  | @ok found j s' hresult hat =>
    cases found with
    | none =>
      dsimp only at hparse
      split at hparse <;> simp at hparse
    | some found =>
      simp only [Prod.mk.injEq, Except.ok.injEq] at hparse
      obtain ⟨rfl, rfl⟩ := hparse
      exact ⟨_, j, hresult, hat⟩

theorem runRule_of_parse {node : R.Node entry} {start : Session R}
    (h : Parser.parse G entry start = (.ok node, s)) :
    Parser.runRule G entry start = .ok (some node) s := by
  unfold Parser.parse at h
  split at h
  case h_1 hrun =>
    cases h
    exact hrun
  case h_2 => simp at h
  case h_3 =>
    dsimp only at h
    split at h
    · simp at h
    · simp at h

theorem parse_of_reading {node : R.Node entry} {j : Nat} (filename : String)
    (traceLimit : Option Nat) (hG : K.Governs G) (hnames : R.Distinguishes)
    (hentry : K.isEntry entry = true) (fresh : stream.Fresh)
    (hresult : ((Pass.first stream fresh filename).reading G K entry).result =
      .ok (some node, j)) :
    (∃ s, Parser.parse G entry (.ofStream stream filename traceLimit) = (.ok node, s)) ∨
      Session.nestingLimit < ((Pass.first stream fresh filename).reading G K entry).depth ∧
        TooDeep (Parser.parse G entry (.ofStream stream filename traceLimit)).1 := by
  obtain ⟨hagrees, _⟩ := firstPass_agrees filename traceLimit hG hnames
    (memoizedOr_faithful hnames Parser.failing Parser.failing) hentry fresh
  rw [Parser.parse_eq, Parser.memoized_eq]
  unfold Parser.parseWith
  generalize Parser.runRuleWith (Parser.memoizedOr Parser.failing) G entry
    (.ofStream stream filename traceLimit) = run at hagrees
  cases hagrees with
  | ok hresult' =>
    cases hresult.symm.trans hresult'
    exact .inl ⟨_, rfl⟩
  | tooDeep hmessage hdeep =>
    rw [Nat.zero_add] at hdeep
    exact .inr ⟨hdeep, tooDeep_error hmessage⟩
  | lexical hresult' | fault hresult' | endless hresult' => cases hresult.symm.trans hresult'

theorem parse_of_accepts {good : R.Node entry → Bool} (filename : String)
    (traceLimit : Option Nat) (hG : K.Governs G) (hnames : R.Distinguishes)
    (hentry : K.isEntry entry = true) (fresh : stream.Fresh)
    (haccepts : ((Pass.first stream fresh filename).reading G K entry).accepts good = true) :
    ∃ node s, Parser.parse G entry (.ofStream stream filename traceLimit) = (.ok node, s) ∧
      good node = true := by
  obtain ⟨node, j, hresult, hdepth, hgood⟩ := Reading.of_accepts haccepts
  rcases parse_of_reading filename traceLimit hG hnames hentry fresh hresult with
    ⟨s, hparse⟩ | ⟨hdeep, _⟩
  · exact ⟨node, s, hparse, hgood⟩
  · exact absurd hdepth (Nat.not_le_of_lt hdeep)

end Start

/-! ### Two parsers with the same result -/

/-- Two parsers that have kept the same tokens, wherever they are. -/
structure KeptAlike (s s' : Session R) : Prop where
  filename : s'.filename = s.filename
  stream : ∃ t i reads i' reads', s.stream = TokenStream.placed t i reads ∧
    s'.stream = TokenStream.placed t i' reads'

namespace KeptAlike

variable {p : Pass} {depth n i i' : Nat} {s s' : Session R}

theorem of_at (hat : p.At depth n i s) (hat' : p.At depth n i' s') : KeptAlike s s' := by
  obtain ⟨t, reads, hfilled, hstream⟩ := hat.stream
  obtain ⟨t', reads', hfilled', hstream'⟩ := hat'.stream
  obtain ⟨rfl⟩ : t = t' := by simpa using hfilled.symm.trans hfilled'
  exact ⟨hat'.filename.trans hat.filename.symm, t, i, reads, i', reads', hstream, hstream'⟩

theorem of_stuck {e : LexError} (hstuck : p.StuckAt e n s) (hstuck' : p.StuckAt e n s') :
    KeptAlike s s' := by
  obtain ⟨hfilename, t, i, reads, hfilled, hstream⟩ := hstuck
  obtain ⟨hfilename', t', i', reads', hfilled', hstream'⟩ := hstuck'
  obtain ⟨rfl⟩ : t = t' := by simpa using hfilled.symm.trans hfilled'
  exact ⟨hfilename'.trans hfilename.symm, t, i, reads, i', reads', hstream, hstream'⟩

theorem furthest (h : KeptAlike s s') : s'.stream.furthest = s.stream.furthest := by
  obtain ⟨t, i, reads, i', reads', hstream, hstream'⟩ := h.stream
  rw [hstream, hstream']
  rfl

theorem report (h : KeptAlike s s') (abort : Abort) :
    (Parser.report abort s').1 = (Parser.report abort s).1 := by
  have hfurthest := h.furthest
  obtain ⟨t, i, reads, i', reads', hstream, hstream'⟩ := h.stream
  have hline : ∀ number, (s'.line number).1 = (s.line number).1 := by
    intro number
    simp only [Session.line, hstream, hstream']
    rfl
  have hname : ∀ (s : Session R) number, (s.line number).2.filename = s.filename := fun _ _ => rfl
  cases abort with
  | lexical e => simp only [Parser.report, hfurthest, hline, hname, h.filename]
  | syntactic error => rfl
  | memoClash rule => simp only [Parser.report, h.filename]
  | endless => simp only [Parser.report, h.filename]

end KeptAlike

/-- Two runs that yield the same, or one of them gave up too deep in brackets. -/
inductive YieldAlike (p : Pass) (depth : Nat) {α : Type} :
    EStateM.Result Abort (Session R) α → EStateM.Result Abort (Session R) α → Prop
  | ok {a : α} {s s' : Session R} {n i : Nat} (hat : p.At depth n i s)
      (hat' : p.At depth n i s') : YieldAlike p depth (.ok a s) (.ok a s')
  | error {abort : Abort} {s s' : Session R}
      (hreport : (Parser.report abort s').1 = (Parser.report abort s).1) :
      YieldAlike p depth (.error abort s) (.error abort s')
  | tooDeep {error : SyntaxError} {s : Session R} {run' : EStateM.Result Abort (Session R) α}
      (hmessage : error.message = tooDeepMessage) :
      YieldAlike p depth (.error (.syntactic error) s) run'
  | otherTooDeep {error : SyntaxError} {s : Session R}
      {run : EStateM.Result Abort (Session R) α} (hmessage : error.message = tooDeepMessage) :
      YieldAlike p depth run (.error (.syntactic error) s)

theorem Agrees.yieldAlike {p : Pass} {answers : Callee R} {o : Tried R} {depth n : Nat} {α : Type}
    {reading : Reading α} {run run' : EStateM.Result Abort (Session R) α}
    (h : Agrees p answers o depth n reading run run)
    (h' : Agrees p answers o depth n reading run' run')
    (hends : reading.result ≠ .error .endless) : YieldAlike p depth run run' := by
  cases h with
  | endless hresult => exact absurd hresult hends
  | tooDeep hmessage => exact .tooDeep hmessage
  | ok hresult hat =>
    cases h' with
    | ok hresult' hat' =>
      cases hresult.symm.trans hresult'
      exact .ok hat hat'
    | tooDeep hmessage => exact .otherTooDeep hmessage
    | endless hresult' => exact absurd hresult' hends
    | lexical hresult' | fault hresult' => cases hresult.symm.trans hresult'
  | lexical hresult hstuck =>
    cases h' with
    | lexical hresult' hstuck' =>
      cases hresult.symm.trans hresult'
      exact .error ((KeptAlike.of_stuck hstuck hstuck').report _)
    | tooDeep hmessage => exact .otherTooDeep hmessage
    | endless hresult' => exact absurd hresult' hends
    | ok hresult' | fault hresult' => cases hresult.symm.trans hresult'
  | fault hresult hfilled =>
    cases h' with
    | fault hresult' hfilled' =>
      cases hresult.symm.trans hresult'
      obtain ⟨_, rfl⟩ := EStateM.Result.ok.inj (hfilled.symm.trans hfilled')
      exact .error rfl
    | tooDeep hmessage => exact .otherTooDeep hmessage
    | endless hresult' => exact absurd hresult' hends
    | ok hresult' | lexical hresult' => cases hresult.symm.trans hresult'

theorem TooDeep.map {α β : Type} {result : Except SyntaxError α} {f : α → β} (h : TooDeep result) :
    TooDeep (result.map f) := by
  obtain ⟨error, rfl, hmessage⟩ := h
  exact tooDeep_error hmessage

theorem TooDeep.of_map {α β : Type} {result : Except SyntaxError α} {f : α → β}
    (h : TooDeep (result.map f)) : TooDeep result := by
  obtain ⟨error, herror, hmessage⟩ := h
  cases result with
  | error other =>
    cases herror
    exact tooDeep_error hmessage
  | ok a => cases herror

/-- However the results of rules are kept, the parser yields the same, as long as brackets are not
nested too deep. -/
theorem parseWith_alike (hG : K.Governs G) (hnames : R.Distinguishes)
    (hkeep : Faithful K G keep keep) (hkeep' : Faithful K G keep' keep')
    (hentry : K.isEntry entry = true) {stream : TokenStream} (fresh : stream.Fresh)
    (filename : String) (traceLimit : Option Nat) :
    let start : Session R := .ofStream stream filename traceLimit
    (Parser.parseWith keep G entry start).1 = (Parser.parseWith keep' G entry start).1 ∨
      TooDeep (Parser.parseWith keep G entry start).1 ∨
      TooDeep (Parser.parseWith keep' G entry start).1 := by
  intro start
  obtain ⟨hagrees, hends⟩ := firstPass_agrees filename traceLimit hG hnames hkeep hentry fresh
  obtain ⟨hagrees', _⟩ := firstPass_agrees filename traceLimit hG hnames hkeep' hentry fresh
  have hfirst := hagrees.yieldAlike hagrees' hends
  unfold Parser.parseWith
  generalize Parser.runRuleWith keep G entry start = run at hfirst
  generalize Parser.runRuleWith keep' G entry start = run' at hfirst
  cases hfirst with
  | error hreport => exact .inl (congrArg Except.error hreport.symm)
  | tooDeep hmessage => exact .inr (.inl (tooDeep_error hmessage))
  | otherTooDeep hmessage => exact .inr (.inr (tooDeep_error hmessage))
  | @ok found s s' n i hat hat' =>
    cases found with
    | some tree => exact .inl rfl
    | none =>
      obtain ⟨hagrees, hends⟩ := Pass.agrees hG hnames (hkeep _) hentry hat.second rfl rfl
      obtain ⟨hagrees', _⟩ := Pass.agrees hG hnames (hkeep' _) hentry hat'.second rfl rfl
      have hsecond := hagrees.yieldAlike hagrees' hends
      dsimp only
      rw [(KeptAlike.of_at hat hat').furthest]
      generalize Parser.runRuleWith keep G entry (Parser.secondPass s) = run at hsecond
      generalize Parser.runRuleWith keep' G entry (Parser.secondPass s') = run' at hsecond
      cases hsecond with
      | error hreport => exact .inl (congrArg Except.error hreport.symm)
      | tooDeep hmessage => exact .inr (.inl (tooDeep_error hmessage))
      | otherTooDeep hmessage => exact .inr (.inr (tooDeep_error hmessage))
      | ok hat hat' => exact .inl (by simp only [(KeptAlike.of_at hat hat').filename])

end ShellSyntax
