import ShellSyntax.Proofs.Parser.Leads
import ShellSyntax.Proofs.Trace.Rules

/-!
How deep rules call each other. Every rule has some room below it, depending on where it is called
and how many brackets deep. If the body of a rule calls only rules that need less, no rule is ever
entered deeper than the first one has room for.
-/

namespace ShellSyntax

open Outcome

variable {R : RuleSet} {α β σ : Type}

/-! ### Matchers -/

/-- Which rules may be called at which places, by a matcher itself and inside further brackets. -/
structure Allowance (R : RuleSet) where
  here : R.Rule → Nat → Prop
  deeper : R.Rule → Nat → Prop

def Allowance.inside (A : Allowance R) : Allowance R :=
  ⟨A.deeper, A.deeper⟩

structure Allowance.Covers (A' A : Allowance R) : Prop where
  here : ∀ r i, A.here r i → A'.here r i
  deeper : ∀ r i, A.deeper r i → A'.deeper r i

/-- If rules end only where `ends` says, the matcher calls only rules that it may call, and `Q`
holds of what it yields and of where it ends. -/
def Descends (W : World) (ends : R.Rule → Nat → Nat → Prop) :
    Allowance R → {α : Type} → Matcher R α → Nat → (α → Nat → Prop) → Prop
  | _, _, .done value, i, Q => Q value i
  | A, _, .act action next, i, Q => W.Acts action i fun v j => Descends W ends A (next v) j Q
  | A, _, .call r next, i, Q =>
    A.here r i ∧ ∀ found j, ends r i j → Descends W ends A (next found) j Q
  | A, _, .deeper inner next, i, Q =>
    Descends W ends A.inside inner i fun v j => Descends W ends A (next v) j Q
  | A, _, .iterate body state next, i, Q =>
    ∃ holds : _ → Nat → Prop, holds state i ∧ ∀ state j, holds state j →
      Descends W ends A (body state) j fun outcome k =>
        match outcome with
        | .inl state => holds state k
        | .inr result => Descends W ends A (next result) k Q

namespace Descends

variable {W : World} {ends : R.Rule → Nat → Nat → Prop} {A A' : Allowance R} {i : Nat}

theorem widen {m : Matcher R α} {P Q : α → Nat → Prop} (h : Descends W ends A m i P)
    (hcovers : A'.Covers A) (himp : ∀ v j, P v j → Q v j) : Descends W ends A' m i Q := by
  induction m generalizing i A A' with
  | done value => exact himp _ _ h
  | act action next induction =>
    exact World.Acts.mono h fun v j hnext => induction v hnext hcovers himp
  | call r next induction =>
    exact ⟨hcovers.here r i h.1, fun found j hends =>
      induction found (h.2 found j hends) hcovers himp⟩
  | deeper inner next hinner induction =>
    exact hinner h ⟨hcovers.deeper, hcovers.deeper⟩ fun v j hnext => induction v hnext hcovers himp
  | iterate body state next hbody induction =>
    obtain ⟨holds, hstart, hround⟩ := h
    refine ⟨holds, hstart, fun state j hstate => hbody state (hround state j hstate) hcovers ?_⟩
    rintro (state | result) k hafter
    · exact hafter
    · exact induction result hafter hcovers himp

theorem mono {m : Matcher R α} {P Q : α → Nat → Prop} (h : Descends W ends A m i P)
    (himp : ∀ v j, P v j → Q v j) : Descends W ends A m i Q :=
  h.widen ⟨fun _ _ => id, fun _ _ => id⟩ himp

theorem bind {m : Matcher R α} {f : α → Matcher R β} {Q : β → Nat → Prop}
    (h : Descends W ends A m i fun v j => Descends W ends A (f v) j Q) :
    Descends W ends A (m.bind f) i Q := by
  induction m generalizing i with
  | done value => exact h
  | act action next induction => exact World.Acts.mono h fun v j hnext => induction v hnext
  | call r next induction => exact ⟨h.1, fun found j hends => induction found (h.2 found j hends)⟩
  | deeper inner next _ induction =>
    have hinner : Descends W ends A.inside inner i _ := h
    exact hinner.mono fun v j hnext => induction v hnext
  | iterate body state next _ induction =>
    obtain ⟨holds, hstart, hround⟩ := h
    refine ⟨holds, hstart, fun state j hstate => (hround state j hstate).mono ?_⟩
    rintro (state | result) k hafter
    · exact hafter
    · exact induction result hafter

theorem of_bind {m : Matcher R α} {f : α → Matcher R β} {Q : β → Nat → Prop}
    (h : Descends W ends A (m.bind f) i Q) : Descends W ends A m i fun _ _ => True := by
  induction m generalizing i with
  | done value => trivial
  | act action next induction => exact World.Acts.mono h fun v j hnext => induction v hnext
  | call r next induction => exact ⟨h.1, fun found j hends => induction found (h.2 found j hends)⟩
  | deeper inner next _ induction =>
    have hinner : Descends W ends A.inside inner i _ := h
    exact hinner.mono fun v j hnext => induction v hnext
  | iterate body state next _ induction =>
    obtain ⟨holds, hstart, hround⟩ := h
    refine ⟨holds, hstart, fun state j hstate => (hround state j hstate).mono ?_⟩
    rintro (state | result) k hafter
    · exact hafter
    · exact induction result hafter

end Descends

/-! ### Records -/

/-- No rule was entered deeper than `limit`. -/
def Session.Confined (limit : Nat) (s : Session R) : Prop :=
  ∀ log, s.trace = some log → ∀ rule mark depth, .enter rule mark depth ∈ log.events → depth ≤ limit

namespace Session.Confined

variable {limit : Nat} {s t : Session R}

theorem of_trace (h : s.Confined limit) (htrace : t.trace = s.trace) : t.Confined limit :=
  fun log hlog => h log (htrace ▸ hlog)

theorem note {event : TraceEvent} (h : s.Confined limit)
    (hevent : ∀ rule mark depth, event = .enter rule mark depth → depth ≤ limit) :
    (s.note event).Confined limit := by
  intro log hlog rule mark depth hmem
  obtain ⟨before, hbefore, rfl⟩ := Option.map_eq_some_iff.mp hlog
  unfold TraceLog.push at hmem
  split at hmem
  · exact h before hbefore rule mark depth hmem
  · obtain hold | hnew := Array.mem_push.mp hmem
    · exact h before hbefore rule mark depth hold
    · exact hevent rule mark depth hnew.symm

end Session.Confined

/-! ### Sessions -/

/-- Nothing has an answer. -/
def unanswered : Callee R :=
  fun _ _ => .halt .endless

/-- What is remembered can be told without answers, as if all rules were still growing. -/
theorem remembers_seeds {memo : Std.HashMap (String × Mark) (Remembered R)}
    {active : Std.HashSet (String × Mark)} {n : Nat}
    (h : ∀ r (i : Nat) (entry : Remembered R), memo[(R.name r, i)]? = some entry →
      ∃ found stop, entry = ⟨r, found, stop⟩ ∧ stop ≤ n) :
    ∃ o : Tried R, Remembers unanswered o n memo active := by
  refine ⟨⟨fun r i => (memo[(R.name r, i)]?).bind fun entry =>
    if h : entry.rule = r then some (h ▸ entry.node, entry.stop) else none,
    fun _ _ => True⟩, ?_, ?_, fun _ _ _ => trivial⟩
  · intro r i best hbest
    obtain ⟨entry, hentry, hseed⟩ := Option.bind_eq_some_iff.mp hbest
    obtain ⟨found, stop, rfl, hstop⟩ := h r i entry hentry
    simp only [dif_pos, Option.some.injEq] at hseed
    subst hseed
    exact ⟨hentry, hstop⟩
  · intro r i entry hentry hnone
    obtain ⟨found, stop, rfl, _⟩ := h r i entry hentry
    simp [hentry] at hnone

section Steps

variable {s : Session R} {b : Base} {depth n i : Nat}

theorem perform_keeps (action : Action β) :
    match Session.perform action s with
    | .ok _ t => t.memo = s.memo ∧ t.trace = s.trace ∧ t.level = s.level
    | .error _ t => t.trace = s.trace := by
  cases action with
  | peek =>
    simp only [Session.perform, Session.read]
    cases TokenStream.peek s.stream with
    | ok token stream => exact ⟨rfl, rfl, rfl⟩
    | error e stream => exact rfl
  | next =>
    simp only [Session.perform, Session.read]
    cases TokenStream.next s.stream with
    | ok token stream => exact ⟨rfl, rfl, rfl⟩
    | error e stream => exact rfl
  | fail fault => exact rfl
  | mark | reset | spanSince | lastToken? | isDiagnosing => exact ⟨rfl, rfl, rfl⟩

theorem acts_of_performs {W : World} {action : Action β} {Q : β → Nat → Prop}
    (h : W.Performs b action i Q) : W.Acts action i Q := by
  cases action with
  | reset mark => exact h.2.2
  | next => exact fun t ht => (h t ht).2
  | spanSince mark => exact h.2
  | fail fault => trivial
  | mark | peek | lastToken? | isDiagnosing => exact h

theorem perform_ends (W : World) (action : Action β) (i : Nat) :
    (W.perform action i).result ≠ .error .endless := by
  cases action with
  | peek | next =>
    simp only [World.perform, World.look]
    cases W.token i <;> simp [Reading.andThen, Reading.pure]
  | _ => simp [World.perform, Reading.pure, Reading.halt]

/-- A step that succeeds ends where it should. -/
theorem Agrees.acts {p : Pass} {o : Tried R} {action : Action β} {v : β}
    (h : Agrees p unanswered o depth n (p.world.perform action i) (.ok v s) (.ok v s)) :
    ∃ n' j, n ≤ n' ∧ p.At depth n' j s ∧
      ∀ Q : β → Nat → Prop, p.world.Acts action i Q → Q v j := by
  cases h with
  | endless hresult => exact absurd hresult (perform_ends _ action i)
  | ok hresult hat _ =>
    exact ⟨_, _, Nat.le_max_left _ _, hat, fun Q hacts => hacts.perform _ _ hresult⟩

end Steps

/-- A pass whose rules end only where `ends` says, with the levels that each rule needs below it,
and a limit to them. -/
structure Survey (R : RuleSet) where
  pass : Pass
  ranking : Ranking R
  ends : R.Rule → Nat → Nat → Prop
  /-- By rule, depth of brackets and place. -/
  room : R.Rule → Nat → Nat → Nat
  limit : Nat

namespace Survey

variable (V : Survey R)

/-- Where a rule that was called at `i` ends. -/
def Ended (r : R.Rule) (i : Nat) (found : Option (R.Node r)) (j : Nat) : Prop :=
  V.ranking.Yields r i found j ∧ V.ends r i j

/-- What is remembered ended where rules end, the rules in `own` are remembered, and none was
entered too deep. -/
structure Sound (own : R.Rule → Nat → Prop) (n : Nat) (s : Session R) : Prop where
  memo : ∀ r i entry, s.memo[(R.name r, i)]? = some entry →
    ∃ found stop, entry = ⟨r, found, stop⟩ ∧ V.Ended r i found stop ∧ stop ≤ n
  own : ∀ r i, own r i → R.policy r ≠ .direct ∧ ∃ entry, s.memo[(R.name r, i)]? = some entry
  confined : s.Confined V.limit

/-- The run ends as sound as it started, at this depth of brackets and as many levels deep; a run
that fails has entered no rule too deep. -/
def Lands (own : R.Rule → Nat → Prop) (depth n level : Nat) (Q : α → Nat → Prop) :
    EStateM.Result Abort (Session R) α → Prop
  | .ok a t => ∃ n' j, n ≤ n' ∧ V.pass.At depth n' j t ∧ V.Sound own n' t ∧ t.level = level ∧ Q a j
  | .error _ t => t.Confined V.limit

/-- A rule that is remembered may always be called, any other only where it has room. -/
def Fits (own : R.Rule → Nat → Prop) (depth level : Nat) (r : R.Rule) (i : Nat) : Prop :=
  own r i ∨ level + V.room r depth i ≤ V.limit

/-- The rules run well where they may be called. -/
def Serves (own : R.Rule → Nat → Prop) (callee : (r : R.Rule) → Parse R (Option (R.Node r))) :
    Prop :=
  ∀ r i depth n s, V.ranking.isEntry r = false → depth ≤ Session.nestingLimit →
    V.pass.At depth n i s → V.Sound own n s → V.Fits own depth s.level r i →
    V.Lands own depth n s.level (V.Ended r i) (callee r s)

/-- All rules that the allowance names have room. -/
structure Grants (own : R.Rule → Nat → Prop) (depth level : Nat) (A : Allowance R) : Prop where
  here : ∀ r i, A.here r i → V.Fits own depth level r i
  deeper : ∀ depth', depth < depth' → depth' ≤ Session.nestingLimit → ∀ r i, A.deeper r i →
    V.Fits own depth' level r i

/-- How many levels the body of a rule is below the rule. -/
def fall (r : R.Rule) : Nat :=
  if R.policy r = .direct then 0 else 1

/-- What the body of a rule may call: rules that need less room, and itself where it grows. -/
def allowance (r : R.Rule) (depth i : Nat) : Allowance R where
  here r' j := (R.policy r = .leftRecursive ∧ r' = r ∧ j = i) ∨
    V.room r' depth j + fall r ≤ V.room r depth i
  deeper r' j := ∀ depth', depth < depth' → depth' ≤ Session.nestingLimit →
    V.room r' depth' j + fall r ≤ V.room r depth i

/-- The bodies of the rules call only what they may. -/
structure Charts (G : Grammar R) : Prop where
  governs : V.ranking.Governs G
  distinguishes : R.Distinguishes
  reflexive : ∀ r i, V.ends r i i
  bodies : ∀ r depth i, depth ≤ Session.nestingLimit →
    Descends V.pass.world V.ends (V.allowance r depth i) (G.body r) i fun _ j => V.ends r i j

/-- The same, looking for the cause of a failure. -/
def second : Survey R :=
  { V with pass := V.pass.second }

variable {V} {own own' : R.Rule → Nat → Prop} {depth n n' level i : Nat} {s t : Session R}

theorem Sound.mono (sound : V.Sound own n s) (hle : n ≤ n') : V.Sound own n' s where
  memo r i entry hentry := by
    obtain ⟨found, stop, hsame, hended, hstop⟩ := sound.memo r i entry hentry
    exact ⟨found, stop, hsame, hended, Nat.le_trans hstop hle⟩
  own := sound.own
  confined := sound.confined

theorem Sound.congr (sound : V.Sound own n s) (hmemo : t.memo = s.memo)
    (hconfined : t.Confined V.limit) : V.Sound own n t :=
  ⟨hmemo ▸ sound.memo, hmemo ▸ sound.own, hconfined⟩

theorem Sound.alike (sound : V.Sound own n s) (hmemo : t.memo = s.memo)
    (htrace : t.trace = s.trace) : V.Sound own n t :=
  sound.congr hmemo (sound.confined.of_trace htrace)

theorem Sound.less (sound : V.Sound own' n s) (hown : ∀ r i, own r i → own' r i) :
    V.Sound own n s :=
  ⟨sound.memo, fun r i h => sound.own r i (hown r i h), sound.confined⟩

theorem Sound.remembers (sound : V.Sound own n s) :
    ∃ o : Tried R, Remembers unanswered o n s.memo s.active := by
  refine remembers_seeds fun r i entry hentry => ?_
  obtain ⟨found, stop, hsame, _, hstop⟩ := sound.memo r i entry hentry
  exact ⟨found, stop, hsame, hstop⟩

namespace Lands

variable {P : α → Nat → Prop} {Q : β → Nat → Prop}

theorem of_at {a : α} (hat : V.pass.At depth n i s) (sound : V.Sound own n s) (h : P a i) :
    V.Lands own depth n s.level P (.ok a s) :=
  ⟨n, i, Nat.le_refl n, hat, sound, rfl, h⟩

theorem widen {run : EStateM.Result Abort (Session R) α} {P' : α → Nat → Prop}
    (h : V.Lands own' depth n' level P run) (hle : n ≤ n') (hown : ∀ r i, own r i → own' r i)
    (himp : ∀ a j, P a j → P' a j) : V.Lands own depth n level P' run := by
  cases run with
  | error e t => exact h
  | ok a t =>
    obtain ⟨m, j, hm, hat, sound, hlevel, ha⟩ := h
    exact ⟨m, j, Nat.le_trans hle hm, hat, sound.less hown, hlevel, himp a j ha⟩

theorem follow {run : EStateM.Result Abort (Session R) α} {k : α → Parse R β}
    (h : V.Lands own depth n level P run)
    (hk : ∀ a t m j, n ≤ m → V.pass.At depth m j t → V.Sound own m t → t.level = level → P a j →
      V.Lands own depth m t.level Q (k a t)) :
    V.Lands own depth n level Q (follow run k) := by
  cases run with
  | error e t => exact h
  | ok a t =>
    obtain ⟨m, j, hm, hat, sound, rfl, ha⟩ := h
    exact (hk a t m j hm hat sound rfl ha).widen hm (fun _ _ => id) fun _ _ => id

end Lands

/-! ### Steps -/

section Steps

variable {b : Base} {A : Allowance R}

theorem perform_lands {action : Action β} {P Q : β → Nat → Prop}
    (h : V.pass.world.Performs b action i P) (h' : V.pass.world.Acts action i Q)
    (hreached : b.reached ≤ n) (hat : V.pass.At depth n i s) (sound : V.Sound own n s) :
    V.Lands own depth n s.level (fun v j => P v j ∧ Q v j) (Session.perform action s) := by
  obtain ⟨o, hremembers⟩ := sound.remembers
  have hagrees := perform_agrees h hreached hat hremembers
  have hkeeps := perform_keeps (s := s) action
  cases hrun : Session.perform action s with
  | error e t =>
    rw [hrun] at hkeeps
    exact sound.confined.of_trace hkeeps
  | ok v t =>
    rw [hrun] at hkeeps hagrees
    obtain ⟨hmemo, htrace, hlevel⟩ := hkeeps
    obtain ⟨n', j, hle, hat', hv⟩ := hagrees.acts
    exact ⟨n', j, hle, hat', (sound.mono hle).alike hmemo htrace, hlevel, hv P (acts_of_performs h),
      hv Q h'⟩

theorem tooDeep_confined {limit : Nat} (h : s.Confined limit) :
    match (Parser.tooDeep s : EStateM.Result Abort (Session R) α) with
    | .ok _ _ => False
    | .error _ t => t.Confined limit := by
  have hpeek := perform_keeps (s := s) .peek
  simp only [Session.perform] at hpeek
  simp only [tooDeep_eq, follow]
  cases hrun : Session.read TokenStream.peek s with
  | error e t =>
    rw [hrun] at hpeek
    exact h.of_trace hpeek
  | ok token t =>
    rw [hrun] at hpeek
    exact h.of_trace hpeek.2.1

theorem nest_lands {inner : Parse R β} {Q : β → Nat → Prop}
    (h : ∀ s, depth + 1 ≤ Session.nestingLimit → V.pass.At (depth + 1) n i s → V.Sound own n s →
      s.level = level → V.Lands own (depth + 1) n level Q (inner s))
    (hat : V.pass.At depth n i s) (sound : V.Sound own n s) (hlevel : s.level = level) :
    V.Lands own depth n level Q (Parser.nest inner s) := by
  by_cases hdeep : Session.nestingLimit ≤ s.nesting
  · rw [nest_deep hdeep]
    have hconfined := tooDeep_confined (α := β) sound.confined
    cases hrun : (Parser.tooDeep s : EStateM.Result Abort (Session R) β) with
    | ok a t => simp [hrun] at hconfined
    | error e t =>
      rw [hrun] at hconfined
      exact hconfined
  · rw [nest_within hdeep]
    have hnesting := hat.nesting
    have hinner := h { s with nesting := s.nesting + 1 } (by omega)
      ⟨hat.stream, hat.le, hat.filename, hat.diagnosing, congrArg (· + 1) hnesting⟩
      (sound.alike rfl rfl) hlevel
    cases hrun : inner { s with nesting := s.nesting + 1 } with
    | error e t =>
      rw [hrun] at hinner
      exact Session.Confined.of_trace (s := t) hinner rfl
    | ok a t =>
      rw [hrun] at hinner
      obtain ⟨m, j, hm, hat', sound', hlevel', ha⟩ := hinner
      refine ⟨m, j, hm, ⟨hat'.stream, hat'.le, hat'.filename, hat'.diagnosing, ?_⟩,
        sound'.alike rfl rfl, hlevel', ha⟩
      simp only [hat'.nesting, Nat.add_sub_cancel]

theorem rounds_lands {body : σ → Parse R (σ ⊕ β)} (holds : σ → Nat → Prop)
    {Q : β → Nat → Prop}
    (hround : ∀ state j m s, n ≤ m → holds state j → V.pass.At depth m j s → V.Sound own m s →
      s.level = level → V.Lands own depth m level (fun outcome k =>
        match outcome with
        | .inl state => holds state k
        | .inr result => Q result k) (body state s))
    {fuel : Nat} {state : σ} (hstate : holds state i) (hle : n ≤ n') (hat : V.pass.At depth n' i s)
    (sound : V.Sound own n' s) (hlevel : s.level = level) :
    V.Lands own depth n' level Q (Parser.rounds body fuel state s) := by
  induction fuel generalizing state i n' s with
  | zero => exact sound.confined
  | succ fuel induction =>
    rw [rounds_succ]
    refine (hround state i n' s hle hstate hat sound hlevel).follow ?_
    rintro (state | result) t m j hm hat' sound' rfl hafter
    · exact induction hafter (Nat.le_trans hle hm) hat' sound' rfl
    · exact .of_at hat' sound' hafter

theorem exec_lands {callee : (r : R.Rule) → Parse R (Option (R.Node r))} {m : Matcher R α}
    {P Q : α → Nat → Prop} (hserves : V.Serves own callee)
    (hensures : Ensures V.pass.world V.ranking b m i P)
    (hdescends : Descends V.pass.world V.ends A m i Q) (grants : V.Grants own depth level A)
    (hdepth : depth ≤ Session.nestingLimit) (hreached : b.reached ≤ n)
    (hat : V.pass.At depth n i s) (sound : V.Sound own n s) (hlevel : s.level = level) :
    V.Lands own depth n level (fun a j => P a j ∧ Q a j) (Parser.exec callee m s) := by
  subst hlevel
  induction m generalizing i b n depth s A with
  | done value => exact .of_at hat sound ⟨hensures, hdescends⟩
  | act action next induction =>
    have hcome : (b.reach i).reached ≤ n := Nat.max_le.mpr ⟨hreached, hat.le⟩
    rw [exec_act]
    refine (perform_lands hensures hdescends hcome hat sound).follow ?_
    intro v t m j hm hat' sound' hsame hv
    exact induction v hv.1 hv.2 hdepth (Nat.le_trans hcome hm) hat' sound' (hsame ▸ grants)
  | call r next induction =>
    have hcome : (b.reach i).reached ≤ n := Nat.max_le.mpr ⟨hreached, hat.le⟩
    rw [exec_call]
    refine (hserves r i depth n s hensures.1.2.1 hdepth hat sound
      (grants.here r i hdescends.1)).follow ?_
    intro found t m j hm hat' sound' hsame hended
    exact induction found (hensures.2 found j hended.1) (hdescends.2 found j hended.2) hdepth
      (Nat.le_trans hcome hm) hat' sound' (hsame ▸ grants)
  | deeper inner next hinner induction =>
    have hcome : (b.reach i).reached ≤ n := Nat.max_le.mpr ⟨hreached, hat.le⟩
    have hinside (hroom : depth + 1 ≤ Session.nestingLimit) :
        V.Grants own (depth + 1) s.level A.inside :=
      ⟨grants.deeper _ (Nat.lt_succ_self _) hroom, fun depth' hless =>
        grants.deeper depth' (by omega)⟩
    rw [exec_deeper]
    refine (nest_lands (fun s' hroom hat sound hlevel => hlevel ▸ hinner hensures.2 hdescends hroom
      hreached hat sound (hlevel ▸ hinside hroom)) hat sound rfl).follow ?_
    intro v t m j hm hat' sound' hsame hv
    exact induction v hv.1 hv.2 hdepth (Nat.le_trans hcome hm) hat' sound' (hsame ▸ grants)
  | iterate body state next hbody induction =>
    have hcome : (b.reach i).reached ≤ n := Nat.max_le.mpr ⟨hreached, hat.le⟩
    obtain ⟨holds, hstart, hround⟩ := hensures
    obtain ⟨holds', hstart', hround'⟩ := hdescends
    rw [exec_iterate]
    refine (rounds_lands (fun state j => holds state j ∧ holds' state j)
      (Q := fun result k => Ensures V.pass.world V.ranking (b.reach i) (next result) k P ∧
        Descends V.pass.world V.ends A (next result) k Q)
      (fun state j m s' hm hstate hat sound hlevel => ?_) ⟨hstart, hstart'⟩ (Nat.le_refl n) hat sound
      rfl).follow ?_
    · rw [← hlevel] at grants ⊢
      refine (hbody state (hround state j hstate.1) (hround' state j hstate.2) hdepth
        (Nat.le_trans hcome hm) hat sound grants).widen (Nat.le_refl m) (fun _ _ => id) ?_
      rintro (state | result) k ⟨hafter, hafter'⟩
      · exact ⟨hafter.2, hafter'⟩
      · exact ⟨hafter, hafter'⟩
    · intro v t m j hm hat' sound' hsame hv
      exact induction v hv.1 hv.2 hdepth (Nat.le_trans hcome hm) hat' sound' (hsame ▸ grants)

end Steps

/-! ### Rules -/

section Rules

variable {r : R.Rule} {body : Parse R (Option (R.Node r))}

theorem ended_none (hreflexive : V.ends r i i) : V.Ended r i none i :=
  ⟨⟨Nat.le_refl i, by simp⟩, hreflexive⟩

theorem Sound.noted {event : TraceEvent} (sound : V.Sound own n s) (htrace : t.trace = s.trace)
    (hmemo : t.memo = s.memo)
    (hevent : ∀ rule mark depth, event = .enter rule mark depth → depth ≤ V.limit) :
    V.Sound own n (t.note event) :=
  sound.congr hmemo ((sound.confined.of_trace htrace).note hevent)

theorem Sound.remember {node : Option (R.Node r)} {stop : Nat} (sound : V.Sound own n s)
    (hnames : R.Distinguishes) (hended : V.Ended r i node stop) (hstop : stop ≤ n)
    (hpolicy : R.policy r ≠ .direct) :
    V.Sound (fun r' j => own r' j ∨ r' = r ∧ j = i) n (Parser.remember r i node stop s) where
  memo r' j entry hentry := by
    obtain ⟨rfl, rfl, rfl⟩ | ⟨_, hentry⟩ := getElem_remembered hnames hentry
    · exact ⟨node, stop, rfl, hended, hstop⟩
    · exact sound.memo r' j entry hentry
  own r' j hown := by
    simp only [Parser.remember, Std.HashMap.getElem?_insert]
    obtain hown | ⟨rfl, rfl⟩ := hown
    · obtain ⟨hkept, entry, hentry⟩ := sound.own r' j hown
      refine ⟨hkept, ?_⟩
      split
      · exact ⟨_, rfl⟩
      · exact ⟨entry, hentry⟩
    · exact ⟨hpolicy, by simp⟩
  confined := sound.confined.of_trace rfl

theorem Sound.recalls (sound : V.Sound own n s) (hat : V.pass.At depth n i s) :
    (Parser.lookup? r i s = .ok none s ∧ ¬own r i) ∨
      ∃ found t, Parser.lookup? r i s = .ok (some found) t ∧
        V.Lands own depth n s.level (V.Ended r i) (.ok found t) := by
  cases hentry : s.memo[(R.name r, i)]? with
  | none =>
    refine .inl ⟨lookup_missed hentry, fun hown => ?_⟩
    obtain ⟨_, entry, hsome⟩ := sound.own r i hown
    cases hentry.symm.trans hsome
  | some entry =>
    obtain ⟨found, stop, rfl, hended, hstop⟩ := sound.memo r i entry hentry
    let counted : Session R := { s with stats := { s.stats with hits := s.stats.hits + 1 } }
    let noted := counted.note (.memo (R.name r) i stop found.isSome s.level)
    have hnoted : V.pass.At depth n i noted := hat
    refine .inr ⟨found, noted.reset stop, ?_, n, stop, Nat.le_refl n, hnoted.reset hstop, ?_, rfl,
      hended⟩
    · simp only [Parser.lookup?, hentry, dif_pos]
      rfl
    · have hsound : V.Sound own n noted := sound.noted (t := counted) rfl rfl (by simp)
      exact hsound.alike rfl rfl

theorem entered_lands {inner : Parse R (Option (R.Node r))}
    (h : ∀ s, V.pass.At depth n i s → V.Sound own n s → s.level = level + 1 →
      V.Lands own depth n (level + 1) (V.Ended r i) (inner s))
    (hat : V.pass.At depth n i s) (sound : V.Sound own n s) (hlevel : s.level = level)
    (hroom : level ≤ V.limit) : V.Lands own depth n level (V.Ended r i) (entered r i inner s) := by
  subst hlevel
  let counted : Session R := { s with stats := { s.stats with misses := s.stats.misses + 1 } }
  let noted := counted.note (.enter (R.name r) i s.level)
  have hnoted : V.Sound own n noted := by
    refine sound.noted (t := counted) rfl rfl ?_
    rintro _ _ _ ⟨⟩
    exact hroom
  have hinner := h (Parser.enterRule r i s) hat
    (hnoted.alike rfl rfl) rfl
  unfold entered
  cases hrun : inner (Parser.enterRule r i s) with
  | error e t =>
    rw [hrun] at hinner
    exact hinner
  | ok found t =>
    rw [hrun] at hinner
    obtain ⟨m, j, hm, hat', sound', hlevel, hended⟩ := hinner
    refine ⟨m, j, hm, hat', sound'.noted (t := { t with level := t.level - 1 }) rfl rfl (by simp),
      ?_, hended⟩
    show t.level - 1 = s.level
    omega

theorem tryOnce_lands (hnames : R.Distinguishes) (hpolicy : R.policy r ≠ .direct)
    (hreflexive : V.ends r i i)
    (h : ∀ s, V.pass.At depth n i s → V.Sound own n s → s.level = level →
      V.Lands own depth n level (V.Ended r i) (body s))
    (hat : V.pass.At depth n i s) (sound : V.Sound own n s) (hlevel : s.level = level) :
    V.Lands own depth n level (V.Ended r i) (tryOnce r i body s) := by
  have hbody := h (s.trying r i) hat (sound.alike rfl rfl) hlevel
  unfold tryOnce around
  cases hrun : body (s.trying r i) with
  | error e t =>
    rw [hrun] at hbody
    exact Session.Confined.of_trace (s := t) hbody rfl
  | ok found t =>
    rw [hrun] at hbody
    obtain ⟨m, j, hm, hat', sound', hlevel', hended⟩ := hbody
    have hcleaned : V.pass.At depth m j (t.tried r i) := hat'
    have hsound : V.Sound own m (t.tried r i) := sound'.alike rfl rfl
    cases found with
    | none =>
      have hback : V.pass.At depth m i ((t.tried r i).reset i) :=
        hcleaned.reset (Nat.le_trans hat.le hm)
      have hfailed : V.Ended r i none i := ended_none hreflexive
      refine ⟨m, i, hm, hback, ?_, hlevel', hfailed⟩
      exact (Sound.remember (i := i) (hsound.alike (t := (t.tried r i).reset i) rfl rfl) hnames
        (hback.mark.symm ▸ hfailed) (hback.mark.symm ▸ hback.le) hpolicy).less fun _ _ => .inl
    | some node =>
      refine ⟨m, j, hm, hcleaned, ?_, hlevel', hended⟩
      exact (Sound.remember (i := i) hsound hnames (hcleaned.mark.symm ▸ hended)
        (hcleaned.mark.symm ▸ hcleaned.le) hpolicy).less fun _ _ => .inl

theorem memoized_lands (hnames : R.Distinguishes) (hpolicy : R.policy r ≠ .direct)
    (hreflexive : V.ends r i i)
    (h : level + V.room r depth i ≤ V.limit → ∀ s, V.pass.At depth n i s → V.Sound own n s →
      s.level = level + 1 → V.Lands own depth n (level + 1) (V.Ended r i) (body s))
    (hat : V.pass.At depth n i s) (sound : V.Sound own n s) (hlevel : s.level = level)
    (fits : V.Fits own depth level r i) :
    V.Lands own depth n level (V.Ended r i) (Parser.memoized r body s) := by
  subst hlevel
  rw [memoized_unfold hat.mark]
  obtain ⟨hmissed, hother⟩ | ⟨found, t, hfound, lands⟩ := sound.recalls (r := r) hat
  · have hroom : s.level + V.room r depth i ≤ V.limit := fits.resolve_left hother
    simp only [hmissed, follow, Option.elim_none, tryUnlessActive]
    split
    · exact .of_at hat sound (ended_none hreflexive)
    · refine entered_lands (fun t hat sound hlevel => ?_) hat sound rfl
        (Nat.le_trans (Nat.le_add_right _ _) hroom)
      exact tryOnce_lands hnames hpolicy hreflexive (h hroom) hat sound hlevel
  · simp only [hfound, follow, Option.elim_some]
    exact lands

/-- The match of a rule grows, and its longest one ends among the tokens that are known. -/
theorem grow_lands (hnames : R.Distinguishes) (hpolicy : R.policy r ≠ .direct) (hle : i ≤ n)
    (h : ∀ n s, V.pass.At depth n i s → V.Sound own n s → s.level = level →
      V.Lands own depth n level (V.Ended r i) (body s))
    (fuel : Nat) (best : Option (R.Node r) × Mark) (hbest : V.Ended r i best.1 best.2)
    (hstop : best.2 ≤ n) (hat : V.pass.At depth n j s) (sound : V.Sound own n s)
    (hlevel : s.level = level) :
    match Parser.grow r i body fuel best s with
    | .ok best t => ∃ n' k, n ≤ n' ∧ V.pass.At depth n' k t ∧ V.Sound own n' t ∧
      t.level = level ∧ V.Ended r i best.1 best.2 ∧ best.2 ≤ n'
    | .error _ t => t.Confined V.limit := by
  induction fuel generalizing best j n s with
  | zero => exact sound.confined
  | succ fuel induction =>
    have hbody := h n (s.reset i) (hat.reset hle) (sound.alike rfl rfl)
      hlevel
    rw [grow_succ]
    cases hrun : body (s.reset i) with
    | error e t =>
      rw [hrun] at hbody
      exact hbody
    | ok found t =>
      rw [hrun] at hbody
      obtain ⟨m, k, hm, hat', sound', hlevel', hended⟩ := hbody
      dsimp only [follow]
      by_cases hstops : (found.isNone || decide (t.mark ≤ best.2)) = true
      · rw [if_pos hstops]
        exact ⟨m, k, hm, hat', sound', hlevel', hbest, Nat.le_trans hstop hm⟩
      · rw [if_neg hstops]
        have hmark := hat'.mark
        let counted : Session R := { t with stats := { t.stats with
          growSteps := t.stats.growSteps + 1 } }
        have hnoted : V.Sound own m (counted.note (.grow (R.name r) i t.mark t.level)) :=
          sound'.noted (t := counted) rfl rfl (by simp)
        have hgrew : V.Sound own m (grew r i found t) :=
          (Sound.remember (i := i) hnoted hnames (hmark.symm ▸ hended) (hmark.symm ▸ hat'.le)
            hpolicy).less fun _ _ => .inl
        have hat'' : V.pass.At depth m k (grew r i found t) := hat'
        have hgrown := induction (Nat.le_trans hle hm) (found, t.mark)
          (hmark.symm ▸ hended) (Nat.le_trans (Nat.le_of_eq hmark) hat'.le) hat'' hgrew hlevel'
        cases hrest : Parser.grow r i body fuel (found, t.mark) (grew r i found t) with
        | error e u =>
          rw [hrest] at hgrown
          exact hgrown
        | ok best u =>
          rw [hrest] at hgrown
          obtain ⟨n', k, hn', hgrown⟩ := hgrown
          exact ⟨n', k, Nat.le_trans hm hn', hgrown⟩

theorem grown_lands (hnames : R.Distinguishes) (hpolicy : R.policy r ≠ .direct)
    (hreflexive : V.ends r i i)
    (h : level + V.room r depth i ≤ V.limit → ∀ n s, V.pass.At depth n i s →
      V.Sound (fun r' j => own r' j ∨ r' = r ∧ j = i) n s → s.level = level + 1 →
      V.Lands (fun r' j => own r' j ∨ r' = r ∧ j = i) depth n (level + 1) (V.Ended r i) (body s))
    (hat : V.pass.At depth n i s) (sound : V.Sound own n s) (hlevel : s.level = level)
    (fits : V.Fits own depth level r i) :
    V.Lands own depth n level (V.Ended r i) (Parser.grown r body s) := by
  subst hlevel
  rw [grown_eq hat.mark]
  obtain ⟨hmissed, hother⟩ | ⟨found, t, hfound, lands⟩ := sound.recalls (r := r) hat
  case inr =>
    simp only [hfound, follow, Option.elim_some]
    exact lands
  have hroom : s.level + V.room r depth i ≤ V.limit := fits.resolve_left hother
  simp only [hmissed, follow, Option.elim_none]
  refine entered_lands (fun t hat sound hlevel => ?_) hat sound rfl
    (Nat.le_trans (Nat.le_add_right _ _) hroom)
  have hfailed : V.Ended r i none i := ended_none hreflexive
  have hstarted : V.Sound (fun r' j => own r' j ∨ r' = r ∧ j = i) n (t.startGrowing r i) :=
    Sound.alike (sound.remember hnames hfailed hat.le hpolicy) rfl rfl
  have hat' : V.pass.At depth n i (t.startGrowing r i) := hat
  unfold tryGrowing around
  have hgrown := grow_lands hnames hpolicy hat.le (h hroom) (s.bound + 1) (none, i) hfailed hat.le
    hat' hstarted hlevel
  cases hrun : Parser.grow r i body (s.bound + 1) (none, i) (t.startGrowing r i) with
  | error e u =>
    rw [hrun] at hgrown
    exact Session.Confined.of_trace (s := u) hgrown rfl
  | ok best u =>
    rw [hrun] at hgrown
    obtain ⟨m, k, hm, hat', sound', hlevel', hended, hstop⟩ := hgrown
    have hback : V.pass.At depth m best.2 (u.stopGrowing.reset best.2) :=
      Pass.At.reset (i := k) hat' hstop
    have hsound := sound'.alike (t := u.stopGrowing.reset best.2) rfl rfl
    exact ⟨m, best.2, hm, hback, hsound.less fun _ _ => .inl, hlevel', hended⟩

/-! ### Calls -/

variable {G : Grammar R}

theorem grants (hroom : level + V.room r depth i ≤ V.limit)
    (hown : R.policy r = .leftRecursive → own r i) :
    V.Grants own depth (level + fall r) (V.allowance r depth i) where
  here r' j hallowed := by
    obtain ⟨hgrows, rfl, rfl⟩ | hless := hallowed
    · exact .inl (hown hgrows)
    · exact .inr (by omega)
  deeper depth' hdeeper hdepth r' j hallowed := by
    have hless := hallowed depth' hdeeper hdepth
    exact .inr (by omega)

theorem body_lands {callee : (r : R.Rule) → Parse R (Option (R.Node r))} (charts : V.Charts G)
    (hserves : V.Serves own callee) (hentry : V.ranking.isEntry r = false)
    (hdepth : depth ≤ Session.nestingLimit) (hroom : level + V.room r depth i ≤ V.limit)
    (hown : R.policy r = .leftRecursive → own r i) (hat : V.pass.At depth n i s)
    (sound : V.Sound own n s) (hlevel : s.level = level + fall r) :
    V.Lands own depth n (level + fall r) (V.Ended r i) (Parser.exec callee (G.body r) s) :=
  exec_lands hserves (charts.governs.body _ r i hentry) (charts.bodies r depth i hdepth)
    (grants hroom hown) hdepth hat.le hat sound hlevel

theorem call_serves (charts : V.Charts G) (fuel : Nat) : V.Serves own (Parser.call G fuel) := by
  induction fuel generalizing own with
  | zero => exact fun r i depth n s _ _ _ sound _ => sound.confined
  | succ fuel induction =>
    intro r i depth n s hentry hdepth hat sound fits
    unfold Parser.call
    cases hpolicy : R.policy r with
    | direct =>
      have hfall : fall r = 0 := if_pos hpolicy
      have hother : ¬own r i := fun hown => (sound.own r i hown).1 hpolicy
      have hlevel : s.level = s.level + fall r := by rw [hfall, Nat.add_zero]
      have hbody := body_lands charts induction hentry hdepth (fits.resolve_left hother)
        (by simp [hpolicy]) hat sound hlevel
      rwa [hfall] at hbody
    | packrat =>
      have hfall : fall r = 1 := if_neg (by simp [hpolicy])
      refine memoized_lands charts.distinguishes (by simp [hpolicy]) (charts.reflexive r i)
        (fun hroom t hat sound hlevel => ?_) hat sound rfl fits
      rw [← hfall] at hlevel ⊢
      exact body_lands charts induction hentry hdepth hroom (by simp [hpolicy]) hat sound hlevel
    | leftRecursive =>
      have hfall : fall r = 1 := if_neg (by simp [hpolicy])
      refine grown_lands charts.distinguishes (by simp [hpolicy]) (charts.reflexive r i)
        (fun hroom n t hat sound hlevel => ?_) hat sound rfl fits
      rw [← hfall] at hlevel ⊢
      exact body_lands charts induction hentry hdepth hroom (fun _ => .inr ⟨rfl, rfl⟩) hat sound
        hlevel

end Rules

/-! ### Parses -/

section Parses

variable {G : Grammar R} {entry : R.Rule}

theorem straight_confined {callee : (r : R.Rule) → Parse R (Option (R.Node r))} {m : Matcher R α}
    (straight : m.Straight) {limit : Nat} (h : s.Confined limit) :
    (final (Parser.exec callee m s)).Confined limit := by
  induction m generalizing s with
  | done value => exact h
  | act action next induction =>
    have hkeeps := perform_keeps (s := s) action
    rw [exec_act]
    cases hrun : Session.perform action s with
    | error e t =>
      rw [hrun] at hkeeps
      exact h.of_trace hkeeps
    | ok v t =>
      rw [hrun] at hkeeps
      refine induction v ?_ (h.of_trace hkeeps.2.1)
      cases action with
      | peek | next => exact straight v
      | _ => exact straight.elim
  | call => exact straight.elim
  | deeper => exact straight.elim
  | iterate => exact straight.elim

theorem pass_confined (charts : V.Charts G) (hentry : V.ranking.isEntry entry = true)
    (hroom : V.room entry 0 0 ≤ V.limit) (hat : V.pass.At 0 n 0 s) (sound : V.Sound own n s)
    (hlevel : s.level = 0) : (final (Parser.runRule G entry s)).Confined V.limit := by
  obtain ⟨hpolicy, _, first, last, hbody, hlast, hfirst⟩ := charts.governs.entry entry hentry
  have hneed := hat.need_lt (K := V.ranking) entry 0
  obtain ⟨fuel, hdepth⟩ : ∃ fuel, Parser.callDepth s = fuel + 1 :=
    ⟨Parser.callDepth s - 1, by omega⟩
  have hstart : Parser.runRule G entry s = follow (Parser.exec (Parser.call G fuel) first s)
      fun a => Parser.exec (Parser.call G fuel) (last a) := by
    rw [← exec_bind, ← hbody]
    simp only [Parser.runRule, run_bind, run_get, hdepth, Parser.call, hpolicy]
  have hfall : fall entry = 0 := if_pos hpolicy
  have hdescends := charts.bodies entry 0 0 (Nat.zero_le _)
  rw [hbody] at hdescends
  have hlands := exec_lands (call_serves charts fuel) (hfirst V.pass.world 0)
    hdescends.of_bind (grants (by rwa [Nat.zero_add]) (by simp [hpolicy])) (Nat.zero_le _)
    (Nat.zero_le n) hat sound (by rw [hlevel, hfall])
  rw [hstart]
  cases hrun : Parser.exec (Parser.call G fuel) first s with
  | error e t =>
    rw [hrun] at hlands
    exact hlands
  | ok a t =>
    rw [hrun] at hlands
    obtain ⟨_, _, _, _, sound', _⟩ := hlands
    exact straight_confined (hlast a) sound'.confined

theorem sound_fresh (hmemo : s.memo = ∅) (hconfined : s.Confined V.limit) :
    V.Sound (fun _ _ => False) n s where
  memo r i entry hentry := by simp [hmemo] at hentry
  own _ _ := False.elim
  confined := hconfined

theorem report_confined {limit : Nat} (abort : Abort) (h : s.Confined limit) :
    (Parser.report abort s).2.Confined limit := by
  cases abort <;> exact h.of_trace rfl

theorem parse_confined {stream : TokenStream} {fresh : stream.Fresh} {filename : String}
    (traceLimit : Option Nat) (charts : V.Charts G) (charts' : V.second.Charts G)
    (hpass : V.pass = .first stream fresh filename) (hentry : V.ranking.isEntry entry = true)
    (hroom : V.room entry 0 0 ≤ V.limit) :
    (Parser.parse G entry (.ofStream stream filename traceLimit)).2.Confined V.limit := by
  have hstart : (Session.ofStream stream filename traceLimit : Session R).Confined V.limit := by
    intro log hlog rule mark depth hmem
    obtain ⟨limit, _, rfl⟩ := Option.map_eq_some_iff.mp hlog
    cases Array.not_mem_empty _ hmem
  have hat : V.pass.At 0 0 0 (Session.ofStream stream filename traceLimit : Session R) :=
    hpass ▸ Pass.first_at
  have hfirst := pass_confined charts hentry hroom hat (sound_fresh rfl hstart) rfl
  obtain ⟨hagrees, hends⟩ := firstPass_agrees filename traceLimit charts.governs
    charts.distinguishes (memoizedOr_faithful charts.distinguishes Parser.failing Parser.failing)
    hentry fresh
  have hsame : Parser.runRuleWith (Parser.memoizedOr Parser.failing) G entry
      (.ofStream stream filename traceLimit) =
        Parser.runRule G entry (.ofStream stream filename traceLimit) := by
    simp only [Parser.runRuleWith, Parser.runRule, ← Parser.memoized_eq, Parser.call_eq]
  rw [hsame] at hagrees
  unfold Parser.parse
  cases hrun : Parser.runRule G entry (.ofStream stream filename traceLimit) with
  | error abort t =>
    rw [hrun] at hfirst
    exact report_confined abort hfirst
  | ok found t =>
    rw [hrun] at hfirst hagrees
    cases found with
    | some tree => exact hfirst
    | none =>
      obtain ⟨n, j, hat'⟩ := hagrees.at_of_ok hends
      have hnoted : (Parser.secondPass t).Confined V.limit :=
        (Session.Confined.note hfirst (by simp) : (t.note .secondPass).Confined _).of_trace
          rfl
      have hsecond := pass_confined (V := V.second) charts' hentry hroom (hpass ▸ hat').second
        (sound_fresh rfl hnoted) rfl
      dsimp only
      cases hrun' : Parser.runRule G entry (Parser.secondPass t) with
      | error abort u =>
        rw [hrun'] at hsecond
        exact report_confined abort hsecond
      | ok found u =>
        rw [hrun'] at hsecond
        exact hsecond

end Parses

end Survey

end ShellSyntax
