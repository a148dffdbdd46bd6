import ShellSyntax.Proofs.Parser.Gives
import ShellSyntax.Proofs.Trace.Levels

/-!
How deep rules do call each other. Where the body of a rule calls one before any other rule has been
tried there, nothing is remembered of it, so it is entered a level deeper; and so on down.
-/

namespace ShellSyntax

open Outcome

variable {R : RuleSet} {α β σ : Type}

/-! ### Records -/

/-- The run enters a rule on this level or a deeper one. -/
def Dives (level : Nat) (m : Parse R α) (s : Session R) : Prop :=
  ∃ events, Records m s events ∧ ∃ rule mark depth, .enter rule mark depth ∈ events ∧ level ≤ depth

theorem Spells.recorded {m : Parse R α} {s : Session R} (h : Spells m s) :
    ∃ events, Records m s events :=
  h.imp fun _ h => h.1

namespace Dives

variable {level : Nat} {m : Parse R α} {k : α → Parse R β} {s t : Session R}

theorem congr {m' : Parse R α} (hm : Dives level m' s)
    (h : ∀ trace, m (s.withTrace trace) = m' (s.withTrace trace)) : Dives level m s :=
  hm.imp fun _ hm => ⟨hm.1.congr h, hm.2⟩

theorem follow (hm : Dives level m s)
    (hk : ∀ a t, m s = .ok a t → ∃ events, Records (k a) t events) :
    Dives level (fun s => ShellSyntax.follow (m s) k) s := by
  obtain ⟨events, hrecords, rule, mark, depth, hmem, hdepth⟩ := hm
  cases hrun : m s with
  | error e t => exact ⟨events, hrecords.follow_error hrun, rule, mark, depth, hmem, hdepth⟩
  | ok a t =>
    obtain ⟨later, hlater⟩ := hk a t hrun
    exact ⟨events ++ later, hrecords.follow hrun hlater, rule, mark, depth,
      List.mem_append_left _ hmem, hdepth⟩

theorem behind {a : α} (hm : Spells m s) (hrun : m s = .ok a t) (hk : Dives level (k a) t) :
    Dives level (fun s => ShellSyntax.follow (m s) k) s := by
  obtain ⟨events, hrecords, _⟩ := hm
  obtain ⟨later, hlater, rule, mark, depth, hmem, hdepth⟩ := hk
  exact ⟨events ++ later, hrecords.follow hrun hlater, rule, mark, depth,
    List.mem_append_right _ hmem, hdepth⟩

theorem before {f : Session R → Session R} (hf : Apart f) (hm : Dives level m (f s)) :
    Dives level (fun s => m (f s)) s := by
  obtain ⟨events, hrecords, hdeep⟩ := hm
  refine ⟨events, fun trace => ?_, hdeep⟩
  dsimp only
  rw [hf.trace]
  exact hrecords trace

theorem around {before cleanup : Session R → Session R} {value : α → β}
    {after : α → Session R → Session R} (hbefore : Apart before) (hcleanup : Apart cleanup)
    (hafter : ∀ a, Apart (after a)) (hm : Dives level m (before s)) :
    Dives level (around before cleanup value after m) s :=
  hm.imp fun _ hm => ⟨hm.1.around hbefore hcleanup hafter, hm.2⟩

end Dives

/-! ### Entering a rule -/

section Entering

variable {r : R.Rule} {i level : Nat} {inner body : Parse R (Option (R.Node r))} {s : Session R}
  {events : List TraceEvent}

theorem entered_records (h : Records inner (Parser.enterRule r i s) events) :
    ∃ later, Records (entered r i inner) s (.enter (R.name r) i s.level :: events ++ later) := by
  have henter : Records (fun s => inner (Parser.enterRule r i s)) s
      (.enter (R.name r) i s.level :: events) :=
    .after (fun trace => by cases trace <;> rfl) h
  cases hrun : inner (Parser.enterRule r i s) with
  | error e t =>
    refine ⟨[], ?_⟩
    rw [List.append_nil]
    exact henter.follow_error hrun
  | ok node t =>
    have hleave : Records (fun t => .ok node (Parser.leaveRule r i node.isSome t)) t
        [.exit (R.name r) i t.mark node.isSome (t.level - 1)] := by
      intro trace
      cases trace <;> rfl
    exact ⟨_, henter.follow hrun hleave⟩

theorem Dives.enters (h : ∃ events, Records inner (Parser.enterRule r i s) events) :
    Dives s.level (entered r i inner) s := by
  obtain ⟨events, hrecords⟩ := h
  obtain ⟨later, hrecords⟩ := entered_records hrecords
  exact ⟨_, hrecords, R.name r, i, s.level, by simp, Nat.le_refl _⟩

theorem Dives.entered (h : Dives level inner (Parser.enterRule r i s)) :
    Dives level (entered r i inner) s := by
  obtain ⟨events, hrecords, rule, mark, depth, hmem, hdepth⟩ := h
  obtain ⟨later, hrecords⟩ := entered_records hrecords
  exact ⟨_, hrecords, rule, mark, depth, by simp [hmem], hdepth⟩

theorem onward_dives (h : Dives level body s) : Dives level (Parser.onward body) s := by
  let settle (node : Option (R.Node r)) : Parse R (Option (R.Node r)) := fun t =>
    if node.isSome && decide (t.mark < s.mark) then .error .endless t else .ok node t
  have hsettle (node : Option (R.Node r)) (t : Session R) :
      ∃ events, Records (settle node) t events := by
    by_cases hback : (node.isSome && decide (t.mark < s.mark)) = true
    · exact ((Spells.error .endless).congr fun trace => if_pos hback).recorded
    · exact ((Spells.pure node).congr fun trace => if_neg hback).recorded
  exact (h.follow fun node t _ => hsettle node t).congr fun trace => rfl

theorem tryOnce_dives (h : Dives level body (s.trying r i)) :
    Dives level (tryOnce r i (Parser.onward body)) s := by
  refine .around ⟨fun _ _ => rfl, fun _ => rfl⟩ ⟨fun _ _ => rfl, fun _ => rfl⟩ (fun node => ?_)
    (onward_dives h)
  cases node <;> exact ⟨fun _ _ => rfl, fun _ => rfl⟩

theorem tryGrowing_dives (hbody : ∀ s, Spells body s) (fuel : Nat)
    (h : Dives level body (((Parser.enterRule r i s).startGrowing r i).reset i)) :
    Dives level (tryGrowing r i body (fuel + 1)) (Parser.enterRule r i s) := by
  refine .around ⟨fun _ _ => rfl, fun _ => rfl⟩ ⟨fun _ _ => rfl, fun _ => rfl⟩
    (fun _ => ⟨fun _ _ => rfl, fun _ => rfl⟩) ?_
  have hback : Apart fun s : Session R => s.reset i := ⟨fun _ _ => rfl, fun _ => rfl⟩
  rw [funext (grow_succ fuel)]
  refine .follow (.before hback h) fun node t hrun => ?_
  obtain ⟨_, _, hbracketed⟩ :=
    hbody (((Parser.enterRule r i s).startGrowing r i).reset i)
  have hlevel : t.level = s.level + 1 := hbracketed.level node t hrun
  obtain ⟨events, hrecords, _⟩ := lap_notes (none, i) hlevel (grow_notes hbody fuel hlevel)
  exact ⟨events, hrecords⟩

end Entering

/-! ### First calls -/

/-- The matcher calls `r` at `j` before any other rule, but for some that fail there. -/
def CallsFirst (W : World) (failed : R.Rule → Nat → Prop) (r : R.Rule) (j : Nat) :
    {α : Type} → Matcher R α → Nat → Prop
  | _, .done _, _ => False
  | _, .act action next, i => ∃ v k, (W.perform action i).result = .ok (v, k) ∧
    W.Performs ⟨0, 0, i⟩ action i (fun _ _ => True) ∧ CallsFirst W failed r j (next v) k
  | _, .call r' next, i => r' = r ∧ i = j ∨ failed r' i ∧ CallsFirst W failed r j (next none) i
  | _, .deeper _ _, _ => False
  | _, .iterate body state _, i => CallsFirst W failed r j (body state) i

namespace CallsFirst

variable {W : World} {failed : R.Rule → Nat → Prop} {r r' : R.Rule} {i j k : Nat} {t : Token}
  {text : String}

theorem bind {m : Matcher R α} (h : CallsFirst W failed r j m i) (f : α → Matcher R β) :
    CallsFirst W failed r j (m.bind f) i := by
  induction m generalizing i with
  | done value => exact h.elim
  | act action next induction =>
    obtain ⟨v, k, hresult, hperforms, hnext⟩ := h
    exact ⟨v, k, hresult, hperforms, induction v hnext f⟩
  | call r' next induction => exact h.imp_right fun hnext => ⟨hnext.1, induction none hnext.2 f⟩
  | deeper inner next _ _ => exact h
  | iterate body state next _ _ => exact h

theorem rule : CallsFirst W failed r i (Matcher.rule r) i :=
  .inl ⟨rfl, rfl⟩

theorem rule_fails {f : Option (R.Node r') → Matcher R α} (hfails : failed r' i)
    (h : CallsFirst W failed r j (f none) i) :
    CallsFirst W failed r j ((Matcher.rule r').bind f) i :=
  .inr ⟨hfails, h⟩

theorem mark {f : Nat → Matcher R α} (h : CallsFirst W failed r j (f i) i) :
    CallsFirst W failed r j (Matcher.mark.bind f) i :=
  ⟨i, i, rfl, trivial, h⟩

theorem reset {f : Unit → Matcher R α} (hle : k ≤ i) (h : CallsFirst W failed r j (f ()) k) :
    CallsFirst W failed r j ((Matcher.reset k).bind f) i :=
  ⟨(), k, rfl, ⟨Nat.zero_le k, hle, trivial⟩, h⟩

theorem isDiagnosing {f : Bool → Matcher R α} (h : CallsFirst W failed r j (f W.diagnosing) i) :
    CallsFirst W failed r j (Matcher.isDiagnosing.bind f) i :=
  ⟨W.diagnosing, i, rfl, trivial, h⟩

theorem peek {f : Token → Matcher R α} (ht : W.token i = .ok t)
    (h : CallsFirst W failed r j (f t) i) : CallsFirst W failed r j (Matcher.peek.bind f) i :=
  ⟨t, i, by simp [World.perform, World.look, ht], fun _ _ => trivial, h⟩

theorem next {f : Token → Matcher R α} (ht : W.token i = .ok t) (hend : t.kind ≠ .endMarker)
    (h : CallsFirst W failed r j (f t) (i + 1)) :
    CallsFirst W failed r j (Matcher.next.bind f) i := by
  refine ⟨t, i + 1, by simp [World.perform, World.look, ht, Reading.andThen, Reading.pure],
    fun t' ht' => ?_, h⟩
  cases ht.symm.trans ht'
  exact ⟨fun hmarker => hend hmarker.1, trivial⟩

theorem accepts {f : Bool → Matcher R α} (ht : W.token i = .ok t) (hspells : t.spells text = true)
    (h : CallsFirst W failed r j (f true) (i + 1)) :
    CallsFirst W failed r j ((Matcher.accepts text).bind f) i := by
  have hend : t.kind ≠ .endMarker := by
    intro hkind
    simp [Token.spells, hkind] at hspells
  refine peek ht ?_
  change CallsFirst W failed r j (((if t.spells text then _ else _ : Matcher R _).bind _).bind f) i
  rw [if_pos hspells]
  exact next ht hend h

theorem not_accepts {f : Bool → Matcher R α} (ht : W.token i = .ok t)
    (hspells : t.spells text = false) (h : CallsFirst W failed r j (f false) i) :
    CallsFirst W failed r j ((Matcher.accepts text).bind f) i := by
  refine peek ht ?_
  change CallsFirst W failed r j (((if t.spells text then _ else _ : Matcher R _).bind _).bind f) i
  rw [if_neg (by simp [hspells])]
  exact h

end CallsFirst

section Steps

variable {p : Pass} {o : Tried R} {deep n i j level : Nat} {r : R.Rule} {s : Session R}
  {failed : R.Rule → Nat → Prop} {callee : (r : R.Rule) → Parse R (Option (R.Node r))}

theorem perform_depth {W : World} (action : Action β) (i : Nat) :
    (W.perform action i).depth = 0 := by
  cases action with
  | peek | next =>
    simp only [World.perform, World.look]
    cases W.token i <;> rfl
  | _ => rfl

theorem perform_reaches {action : Action β} {v : β} {k : Nat}
    (hresult : (p.world.perform action i).result = .ok (v, k))
    (hperforms : p.world.Performs ⟨0, 0, i⟩ action i fun _ _ => True) (hat : p.At 0 n i s)
    (hremembers : Remembers unanswered o n s.memo s.active) :
    ∃ t m, Session.perform action s = .ok v t ∧ p.At 0 m k t ∧
      Remembers unanswered o m t.memo t.active := by
  have hagrees := perform_agrees hperforms hat.le hat hremembers
  generalize Session.perform action s = run at hagrees
  cases hagrees with
  | @ok a k' t hresult' hat' hremembers' =>
    cases hresult.symm.trans hresult'
    exact ⟨t, _, rfl, hat', hremembers'⟩
  | lexical hresult' | fault hresult' | endless hresult' => cases hresult.symm.trans hresult'
  | tooDeep _ hdeep =>
    have hflat : (p.world.perform action i).depth = 0 := perform_depth action i
    simp [hflat] at hdeep

theorem exec_dives {m : Matcher R α} (hspells : ∀ r s, Spells (callee r) s)
    (hfailed : ∀ r k n s, failed r k → p.At 0 n k s →
      Remembers unanswered o n s.memo s.active →
      ∃ t, callee r s = .ok none t ∧ p.At 0 n k t ∧ Remembers unanswered o n t.memo t.active)
    (hdives : ∀ n s, p.At 0 n j s → Remembers unanswered o n s.memo s.active →
      s.level = level → Dives deep (callee r) s)
    (h : CallsFirst p.world failed r j m i) (hat : p.At 0 n i s)
    (hremembers : Remembers unanswered o n s.memo s.active) (hlevel : s.level = level) :
    Dives deep (Parser.exec callee m) s := by
  induction m generalizing i n s with
  | done value => exact h.elim
  | act action next induction =>
    obtain ⟨v, k, hresult, hperforms, hnext⟩ := h
    obtain ⟨t, m, hrun, hat', hremembers'⟩ := perform_reaches hresult hperforms hat hremembers
    obtain ⟨_, _, hbracketed⟩ := perform_spells (s := s) action
    rw [funext (exec_act callee · action next)]
    exact .behind (perform_spells action) hrun (induction v hnext hat' hremembers'
      ((hbracketed.level v t hrun).trans hlevel))
  | call r' next induction =>
    rw [funext (exec_call callee · r' next)]
    obtain ⟨rfl, rfl⟩ | ⟨hfails, hnext⟩ := h
    · exact (hdives n s hat hremembers hlevel).follow fun node t _ =>
        (exec_spells hspells (next node)).recorded
    · obtain ⟨t, hrun, hat', hremembers'⟩ := hfailed r' i n s hfails hat hremembers
      obtain ⟨_, _, hbracketed⟩ := hspells r' s
      exact .behind (hspells r' s) hrun (induction none hnext hat' hremembers'
        ((hbracketed.level none t hrun).trans hlevel))
  | deeper inner next _ _ => exact h.elim
  | iterate body state next hbody _ =>
    rw [funext (exec_iterate callee · body state next)]
    have hround : Dives deep (Parser.exec callee (body state)) s :=
      hbody state h hat hremembers hlevel
    obtain ⟨fuel, hfuel⟩ : ∃ fuel, s.bound = fuel + 1 :=
      ⟨s.bound - 1, by have := p.world.limit_lt; rw [hat.bound]; omega⟩
    have hrounds : Dives deep (fun s => Parser.rounds
        (fun state => Parser.exec callee (body state)) s.bound state s) s := by
      have hsucc : Dives deep (Parser.rounds (fun state => Parser.exec callee (body state))
          (fuel + 1) state) s := by
        rw [rounds_succ]
        refine hround.follow ?_
        rintro (state | result) t _
        · exact (rounds_spells (fun state s => exec_spells hspells (body state)) fuel
            state).recorded
        · exact (Spells.pure result).recorded
      exact hsucc.congr fun trace => by rw [show (s.withTrace trace).bound = _ from hfuel]
    exact hrounds.follow fun v t _ => (exec_spells hspells (next v)).recorded

end Steps

/-! ### Descents -/

/-- Where the match of `r` at `i` grows, `r` fails there at first. -/
def GrowsAt (r : R.Rule) (i : Nat) (r' : R.Rule) (j : Nat) : Prop :=
  R.policy r = .leftRecursive ∧ r' = r ∧ j = i

/-- Each body calls the next rule first, with so many levels from `r` at `i` to the last. -/
inductive Descent (W : World) (K : Ranking R) (G : Grammar R) : R.Rule → Nat → Nat → Prop
  | here {r : R.Rule} {i : Nat} (hpolicy : R.policy r ≠ .direct) : Descent W K G r i 0
  | step {r r' : R.Rule} {i j deep : Nat} (hinside : K.Inside W r i r' j)
      (hfirst : CallsFirst W (GrowsAt r i) r' j (G.body r) i) (hbelow : Descent W K G r' j deep) :
      Descent W K G r i (deep + Survey.fall r)

section Rules

variable {p : Pass} {K : Ranking R} {G : Grammar R} {o : Tried R} {deep n i level fuel : Nat}
  {r : R.Rule} {s : Session R}

/-- Where all that is remembered still grows, nothing is remembered of another rule. -/
theorem Remembers.untried (h : Remembers unanswered o n s.memo s.active) (hclear : o.Clear K r i) :
    s.memo[(R.name r, i)]? = none ∧ s.active.contains (R.name r, i) = false := by
  constructor
  · cases hentry : s.memo[(R.name r, i)]? with
    | none => rfl
    | some entry =>
      obtain ⟨_, _, _, hresult, _⟩ := h.memo r i entry hentry hclear.seed_none
      cases hresult
  · rw [← Bool.not_eq_true, ← Std.HashSet.mem_iff_contains]
    exact fun hactive => hclear.not_busy (h.active r i hactive)

theorem memoizedOnward_enters {body : Parse R (Option (R.Node r))} (hclear : o.Clear K r i)
    (hat : p.At 0 n i s) (hremembers : Remembers unanswered o n s.memo s.active)
    (trace : Option TraceLog) : Parser.memoizedOnward r body (s.withTrace trace) =
      entered r i (tryOnce r i (Parser.onward body)) (s.withTrace trace) := by
  obtain ⟨hmemo, hactive⟩ := hremembers.untried hclear
  have hmark : (s.withTrace trace).mark = i := hat.mark
  have hmissed : Parser.lookup? r i (s.withTrace trace) = .ok none (s.withTrace trace) :=
    lookup_missed hmemo
  rw [memoizedOnward_eq hmark, hmissed]
  exact if_neg (by simp [Session.withTrace, hactive])

theorem grown_enters {body : Parse R (Option (R.Node r))} (hclear : o.Clear K r i)
    (hat : p.At 0 n i s) (hremembers : Remembers unanswered o n s.memo s.active)
    (trace : Option TraceLog) : Parser.grown r body (s.withTrace trace) =
      entered r i (tryGrowing r i body (s.bound + 1)) (s.withTrace trace) := by
  have hmark : (s.withTrace trace).mark = i := hat.mark
  have hmissed : Parser.lookup? r i (s.withTrace trace) = .ok none (s.withTrace trace) :=
    lookup_missed (hremembers.untried hclear).1
  rw [grown_eq hmark, hmissed]
  rfl

theorem callWith_seed (hpolicy : R.policy r = .leftRecursive) (hat : p.At 0 n i s)
    (hremembers : Remembers unanswered o n s.memo s.active) (hseed : o.seed r i = some (none, i)) :
    ∃ t, Parser.callWith Parser.memoizedOnward G (fuel + 1) r s = .ok none t ∧ p.At 0 n i t ∧
      Remembers unanswered o n t.memo t.active := by
  obtain ⟨hentry, hstop⟩ := hremembers.seed r i _ hseed
  obtain ⟨t, hfound, hat', hmemo, hactive⟩ := lookup_found hentry hstop hat
  refine ⟨t, ?_, hat', by rwa [hmemo, hactive]⟩
  simp only [Parser.callWith, hpolicy]
  rw [grown_eq hat.mark, hfound]
  rfl

theorem callWith_dives (hnames : R.Distinguishes) (descent : Descent p.world K G r i deep)
    (hfuel : K.need p.world.limit r i < fuel) (hclear : o.Clear K r i) (hat : p.At 0 n i s)
    (hremembers : Remembers unanswered o n s.memo s.active) (hlevel : s.level = level) :
    Dives (level + deep) (Parser.callWith Parser.memoizedOnward G fuel r) s := by
  induction descent generalizing o n s fuel level with
  | @here r i hpolicy =>
    subst hlevel
    obtain ⟨fuel, rfl⟩ : ∃ less, fuel = less + 1 := ⟨fuel - 1, by omega⟩
    have hbody := fun s => exec_spells (s := s) (callWith_spells (G := G) fuel) (G.body r)
    cases hkept : R.policy r with
    | direct => exact absurd hkept hpolicy
    | packrat =>
      simp only [Parser.callWith, hkept]
      refine (Dives.enters ?_).congr fun trace => memoizedOnward_enters hclear hat hremembers trace
      exact (tryOnce_spells (onward_spells (hbody _))).recorded
    | leftRecursive =>
      simp only [Parser.callWith, hkept]
      refine (Dives.enters ?_).congr fun trace => grown_enters hclear hat hremembers trace
      obtain ⟨events, hrecords, _⟩ := tryGrowing_notes hbody (s.bound + 1)
      exact ⟨events, hrecords⟩
  | @step r r' i j deep hinside hfirst _ induction =>
    obtain ⟨fuel, rfl⟩ : ∃ less, fuel = less + 1 := ⟨fuel - 1, by omega⟩
    have hless := hinside.need_lt
    have hspells := fun r s => callWith_spells (G := G) fuel r s
    have hbody := fun s => exec_spells (s := s) hspells (G.body r)
    -- The body runs where only `r` itself is tried in addition.
    have hexec {o' : Tried R} {n : Nat} {s : Session R} {level : Nat} (hclear : o'.Clear K r' j)
        (hseed : R.policy r = .leftRecursive → o'.seed r i = some (none, i))
        (hat : p.At 0 n i s) (hremembers : Remembers unanswered o' n s.memo s.active)
        (hlevel : s.level = level) : Dives (level + deep)
          (Parser.exec (Parser.callWith Parser.memoizedOnward G fuel) (G.body r)) s := by
      refine exec_dives hspells ?_ (fun n s hat hremembers hlevel => induction (by omega) hclear hat
        hremembers hlevel) hfirst hat hremembers hlevel
      rintro _ _ n s ⟨hpolicy, rfl, rfl⟩ hat hremembers
      obtain ⟨fuel, rfl⟩ : ∃ less, fuel = less + 1 := ⟨fuel - 1, by omega⟩
      exact callWith_seed hpolicy hat hremembers (hseed hpolicy)
    cases hkept : R.policy r with
    | direct =>
      have hfall : Survey.fall r = 0 := if_pos hkept
      simp only [Parser.callWith, hkept, hfall]
      exact hexec (hclear.inside hinside) (by simp [hkept]) hat hremembers hlevel
    | packrat =>
      have hfall : Survey.fall r = 1 := if_neg (by simp [hkept])
      simp only [Parser.callWith, hkept, hfall]
      refine (Dives.entered (tryOnce_dives ?_)).congr fun trace =>
        memoizedOnward_enters hclear hat hremembers trace
      rw [show level + (deep + 1) = level + 1 + deep by omega]
      exact hexec (hclear.enter_inside hinside) (by simp [hkept]) hat
        (hremembers.enter hnames r i) (congrArg (· + 1) hlevel)
    | leftRecursive =>
      have hfall : Survey.fall r = 1 := if_neg (by simp [hkept])
      simp only [Parser.callWith, hkept, hfall]
      refine (Dives.entered (tryGrowing_dives hbody s.bound ?_)).congr fun trace =>
        grown_enters hclear hat hremembers trace
      rw [show level + (deep + 1) = level + 1 + deep by omega]
      have hstarted : p.At 0 n i ((Parser.enterRule r i s).startGrowing r i) := hat
      exact hexec (hclear.grow_inside hinside) (fun _ => Tried.grow_self) (hstarted.reset hat.le)
        (hremembers.grow i (none, i) hnames hat.le) (congrArg (· + 1) hlevel)

theorem runRuleWith_dives (hnames : R.Distinguishes) (descent : Descent p.world K G r 0 deep)
    (hat : p.At 0 n 0 s) (hmemo : s.memo = ∅) (hactive : s.active = ∅) (hlevel : s.level = 0) :
    Dives deep (Parser.runRuleWith Parser.memoizedOnward G r) s := by
  have hdives := callWith_dives hnames descent (hat.need_lt r 0) (Pass.none_clear r 0) hat
    (Pass.remembers_nothing hmemo hactive) hlevel
  rw [Nat.zero_add] at hdives
  exact hdives.congr fun _ => rfl

theorem parseWith_recorded {events : List TraceEvent}
    (hrecords : Records (Parser.runRuleWith Parser.memoizedOnward G r) s events) :
    ∃ later, ∀ trace, Parser.parseWith Parser.memoizedOnward G r (s.withTrace trace) =
      withRecord (trace.map (·.pushAll (events ++ later)))
        (Parser.parseWith Parser.memoizedOnward G r s) := by
  by_cases hagain : ∃ t, Parser.runRuleWith Parser.memoizedOnward G r s = .ok none t
  · obtain ⟨t, hrun⟩ := hagain
    obtain ⟨later, hlater, _⟩ := runRuleWith_spells (G := G) r (Parser.secondPass t)
    exact ⟨_, parseWith_records_again hrecords hrun hlater⟩
  · refine ⟨[], ?_⟩
    rw [List.append_nil]
    exact parseWith_records hrecords (not_exists.mp hagain)

end Rules

end ShellSyntax
