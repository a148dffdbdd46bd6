import ShellSyntax.Proofs.Parser.Course
import ShellSyntax.Proofs.Trace.Levels

/-!
Where runs arrive. A parser that remembers goes less deep into brackets than a reading does: what a
rule has matched it takes from memory also where brackets are nested too deep to match it anew. So
where it matters how many brackets are open, the run itself is followed. What it remembers has
matched as it should at one level, and so it has at all of them.
-/

namespace ShellSyntax

open Outcome

variable {R : RuleSet} {ι α β σ : Type}

/-- A pass, and what holds of the matches of rules in it at each level of brackets. -/
structure Guide (R : RuleSet) (ι : Type) where
  pass : Pass
  ranking : Ranking R
  pre : ι → R.Rule → Nat → Prop
  post : ι → Matches R
  inside : ι → Option ι
  /-- How many brackets deep each level is. -/
  depth : ι → Nat
  deeper : ∀ x, depth x < Session.nestingLimit → ∃ y, inside x = some y ∧ depth y = depth x + 1
  levelFree : LevelFree pre post

namespace Guide

variable (T : Guide R ι)

/-- From `i` on the rule came to what it should come to at any level. -/
def Came (r : R.Rule) (i : Nat) (found : Option (R.Node r)) (j : Nat) : Prop :=
  T.ranking.Yields r i found j ∧ ∀ x, T.post x r i found j

/-- What is remembered is what the rules came to. -/
def Recalls (n : Nat) (s : Session R) : Prop :=
  ∀ r i entry, s.memo[(R.name r, i)]? = some entry →
    ∃ found stop, entry = ⟨r, found, stop⟩ ∧ T.Came r i found stop ∧ stop ≤ n

/-- A run at this level that succeeds ends at the same level, and `Q` holds of what it yields and of
where it ends. -/
def Arrives (x : ι) (n : Nat) (Q : α → Nat → Prop)
    (run : EStateM.Result Abort (Session R) α) : Prop :=
  ∀ a t, run = .ok a t →
    ∃ n' j, n ≤ n' ∧ T.pass.At (T.depth x) n' j t ∧ T.Recalls n' t ∧ Q a j

/-- Rules that are called where they may be come to what they should. -/
def Serves (callee : (r : R.Rule) → Parse R (Option (R.Node r))) : Prop :=
  ∀ x r i n s, T.ranking.isEntry r = false → T.pre x r i → T.pass.At (T.depth x) n i s →
    T.Recalls n s → T.Arrives x n (T.Came r i) (callee r s)

variable {T} {x : ι} {n n' i j : Nat} {s t : Session R}

theorem Recalls.mono (recalls : T.Recalls n s) (hle : n ≤ n') : T.Recalls n' s := by
  intro r i entry hentry
  obtain ⟨found, stop, hsame, came, hstop⟩ := recalls r i entry hentry
  exact ⟨found, stop, hsame, came, Nat.le_trans hstop hle⟩

theorem Recalls.congr (recalls : T.Recalls n s) (hmemo : t.memo = s.memo) : T.Recalls n t :=
  fun r i entry hentry => recalls r i entry (hmemo ▸ hentry)

theorem Recalls.remember {r : R.Rule} {found : Option (R.Node r)} {stop : Nat}
    (recalls : T.Recalls n s) (hnames : R.Distinguishes) (came : T.Came r i found stop)
    (hstop : stop ≤ n) : T.Recalls n (Parser.remember r i found stop s) := by
  intro r' j entry hentry
  obtain ⟨rfl, rfl, rfl⟩ | ⟨_, hentry⟩ := getElem_remembered hnames hentry
  · exact ⟨found, stop, rfl, came, hstop⟩
  · exact recalls r' j entry hentry

theorem Recalls.remembers (recalls : T.Recalls n s) :
    ∃ o : Tried R, Remembers unanswered o n s.memo s.active := by
  refine remembers_seeds fun r i entry hentry => ?_
  obtain ⟨found, stop, hsame, _, hstop⟩ := recalls r i entry hentry
  exact ⟨found, stop, hsame, hstop⟩

namespace Arrives

variable {P P' : α → Nat → Prop} {Q : β → Nat → Prop} {run : EStateM.Result Abort (Session R) α}

theorem of_at {a : α} (hat : T.pass.At (T.depth x) n i s) (recalls : T.Recalls n s) (h : P a i) :
    T.Arrives x n P (.ok a s) := by
  rintro _ _ ⟨⟩
  exact ⟨n, i, Nat.le_refl n, hat, recalls, h⟩

theorem of_error {e : Abort} : T.Arrives x n P (.error e s) := by
  intro a t hrun
  cases hrun

theorem widen (h : T.Arrives x n' P run) (hle : n ≤ n') (himp : ∀ a j, P a j → P' a j) :
    T.Arrives x n P' run := by
  intro a t hrun
  obtain ⟨m, j, hm, hat, recalls, ha⟩ := h a t hrun
  exact ⟨m, j, Nat.le_trans hle hm, hat, recalls, himp a j ha⟩

theorem follow {k : α → Parse R β} (h : T.Arrives x n P run)
    (hk : ∀ a t m j, n ≤ m → T.pass.At (T.depth x) m j t → T.Recalls m t → P a j →
      T.Arrives x m Q (k a t)) : T.Arrives x n Q (follow run k) := by
  cases run with
  | error e t => exact of_error
  | ok a t =>
    obtain ⟨m, j, hm, hat, recalls, ha⟩ := h a t rfl
    exact (hk a t m j hm hat recalls ha).widen hm fun _ _ => id

end Arrives

/-! ### Steps -/

section Steps

variable {b : Base}

theorem perform_arrives {action : Action β} (recalls : T.Recalls n s)
    (h : ∀ o : Tried R, Remembers unanswered o n s.memo s.active →
      Agrees T.pass unanswered o (T.depth x) n (T.pass.world.perform action i)
        (Session.perform action s) (Session.perform action s)) :
    T.Arrives x n (fun v j => ∀ Q : β → Nat → Prop, T.pass.world.Acts action i Q → Q v j)
      (Session.perform action s) := by
  intro v t hrun
  obtain ⟨o, hremembers⟩ := recalls.remembers
  have hagrees := h o hremembers
  have hkeeps := perform_keeps (s := s) action
  rw [hrun] at hkeeps hagrees
  obtain ⟨m, j, hm, hat, hv⟩ := hagrees.acts
  exact ⟨m, j, hm, hat, (recalls.mono hm).congr hkeeps.1, hv⟩

theorem nest_arrives {inner : Parse R β} {Q : β → Nat → Prop}
    (h : ∀ y s, T.inside x = some y → T.pass.At (T.depth y) n i s → T.Recalls n s →
      T.Arrives y n Q (inner s))
    (hat : T.pass.At (T.depth x) n i s) (recalls : T.Recalls n s) :
    T.Arrives x n Q (Parser.nest inner s) := by
  intro v t hrun
  have hnesting := hat.nesting
  by_cases hdeep : Session.nestingLimit ≤ s.nesting
  · rw [nest_deep hdeep, tooDeep_eq] at hrun
    obtain ⟨_, _, _, hfail⟩ := follow_ok.mp hrun
    cases hfail
  · obtain ⟨y, hy, hdepth⟩ := T.deeper x (hnesting ▸ Nat.lt_of_not_le hdeep)
    have hinner := h y { s with nesting := s.nesting + 1 } hy
      ⟨hat.stream, hat.le, hat.filename, hat.diagnosing, by rw [hdepth, ← hnesting]⟩
      (recalls.congr rfl)
    rw [nest_within hdeep] at hrun
    cases hrun' : inner { s with nesting := s.nesting + 1 } with
    | error e u =>
      rw [hrun'] at hrun
      cases hrun
    | ok a u =>
      rw [hrun'] at hrun
      cases hrun
      obtain ⟨m, j, hm, hat', recalls', ha⟩ := hinner v u hrun'
      have hback := hat'.nesting
      refine ⟨m, j, hm, ⟨hat'.stream, hat'.le, hat'.filename, hat'.diagnosing, ?_⟩,
        recalls'.congr rfl, ha⟩
      dsimp only
      omega

theorem rounds_arrives {body : σ → Parse R (σ ⊕ β)} (holds : σ → Nat → Prop)
    {Q : β → Nat → Prop}
    (hround : ∀ state j m s, n ≤ m → holds state j → T.pass.At (T.depth x) m j s →
      T.Recalls m s → T.Arrives x m (fun outcome k =>
        match outcome with
        | .inl state => holds state k
        | .inr result => Q result k) (body state s))
    {fuel : Nat} {state : σ} (hstate : holds state i) (hle : n ≤ n')
    (hat : T.pass.At (T.depth x) n' i s) (recalls : T.Recalls n' s) :
    T.Arrives x n' Q (Parser.rounds body fuel state s) := by
  induction fuel generalizing state i n' s with
  | zero => exact .of_error
  | succ fuel induction =>
    rw [rounds_succ]
    refine (hround state i n' s hle hstate hat recalls).follow ?_
    rintro (state | result) t m j hm hat' recalls' hafter
    · exact induction hafter (Nat.le_trans hle hm) hat' recalls'
    · exact .of_at hat' recalls' hafter

theorem exec_arrives {callee : (r : R.Rule) → Parse R (Option (R.Node r))} {m : Matcher R α}
    {P Q : α → Nat → Prop} (hserves : T.Serves callee)
    (hensures : Ensures T.pass.world T.ranking b m i P)
    (hleads : LeadsIn T.pass.world T.pre T.post T.inside x m i Q) (hreached : b.reached ≤ n)
    (hat : T.pass.At (T.depth x) n i s) (recalls : T.Recalls n s) :
    T.Arrives x n (fun a j => P a j ∧ Q a j) (Parser.exec callee m s) := by
  induction m generalizing x i b n s with
  | done value => exact .of_at hat recalls ⟨hensures, hleads⟩
  | act action next induction =>
    have hcome : (b.reach i).reached ≤ n := Nat.max_le.mpr ⟨hreached, hat.le⟩
    rw [exec_act]
    refine (perform_arrives recalls fun o => perform_agrees hensures hcome hat).follow ?_
    intro v t m j hm hat' recalls' hv
    exact induction v (hv _ (acts_of_performs hensures)) (hv _ hleads) (Nat.le_trans hcome hm) hat'
      recalls'
  | call r next induction =>
    have hcome : (b.reach i).reached ≤ n := Nat.max_le.mpr ⟨hreached, hat.le⟩
    rw [exec_call]
    refine (hserves x r i n s hensures.1.2.1 hleads.1 hat recalls).follow ?_
    intro found t m j hm hat' recalls' came
    exact induction found (hensures.2 found j came.1) (hleads.2 found j (came.2 x))
      (Nat.le_trans hcome hm) hat' recalls'
  | deeper inner next hinner induction =>
    have hcome : (b.reach i).reached ≤ n := Nat.max_le.mpr ⟨hreached, hat.le⟩
    unfold LeadsIn at hleads
    rw [exec_deeper]
    refine (nest_arrives (Q := fun v j =>
      Ensures T.pass.world T.ranking (b.reach i) (next v) j P ∧
        LeadsIn T.pass.world T.pre T.post T.inside x (next v) j Q)
      (fun y s hy hat recalls => ?_) hat recalls).follow ?_
    · rw [hy] at hleads
      exact hinner hensures.2 hleads hreached hat recalls
    · intro v t m j hm hat' recalls' hv
      exact induction v hv.1 hv.2 (Nat.le_trans hcome hm) hat' recalls'
  | iterate body state next hbody induction =>
    have hcome : (b.reach i).reached ≤ n := Nat.max_le.mpr ⟨hreached, hat.le⟩
    obtain ⟨holds, hstart, hround⟩ := hensures
    obtain ⟨holds', hstart', hround'⟩ := hleads
    rw [exec_iterate]
    refine (rounds_arrives (fun state j => holds state j ∧ holds' state j)
      (Q := fun result k => Ensures T.pass.world T.ranking (b.reach i) (next result) k P ∧
        LeadsIn T.pass.world T.pre T.post T.inside x (next result) k Q)
      (fun state j m s hm hstate hat recalls => ?_) ⟨hstart, hstart'⟩ (Nat.le_refl n) hat
      recalls).follow ?_
    · refine (hbody state (hround state j hstate.1) (hround' state j hstate.2)
        (Nat.le_trans hcome hm) hat recalls).widen (Nat.le_refl m) ?_
      rintro (state | result) k ⟨hafter, hafter'⟩
      · exact ⟨hafter.2, hafter'⟩
      · exact ⟨hafter, hafter'⟩
    · intro v t m j hm hat' recalls' hv
      exact induction v hv.1 hv.2 (Nat.le_trans hcome hm) hat' recalls'

end Steps

/-! ### Rules -/

section Rules

variable {r : R.Rule} {body : Parse R (Option (R.Node r))}

theorem lookup_arrives (hat : T.pass.At (T.depth x) n i s) (recalls : T.Recalls n s) :
    Parser.lookup? r i s = .ok none s ∨
      ∃ found t, Parser.lookup? r i s = .ok (some found) t ∧
        T.Arrives x n (T.Came r i) (.ok found t) := by
  cases hentry : s.memo[(R.name r, i)]? with
  | none => exact .inl (lookup_missed hentry)
  | some entry =>
    obtain ⟨found, stop, rfl, came, hstop⟩ := recalls r i entry hentry
    obtain ⟨t, hfound, hat', hmemo, _⟩ := lookup_found hentry hstop hat
    exact .inr ⟨found, t, hfound, .of_at hat' (recalls.congr hmemo) came⟩

theorem memoized_arrives (hnames : R.Distinguishes) (hnone : T.Came r i none i)
    (h : ∀ s, T.pass.At (T.depth x) n i s → T.Recalls n s → T.Arrives x n (T.Came r i) (body s))
    (hat : T.pass.At (T.depth x) n i s) (recalls : T.Recalls n s) :
    T.Arrives x n (T.Came r i) (Parser.memoized r body s) := by
  rw [memoized_unfold hat.mark]
  obtain hmissed | ⟨found, t, hfound, arrives⟩ := lookup_arrives (r := r) hat recalls
  case inr =>
    simp only [hfound, follow, Option.elim_some]
    exact arrives
  simp only [hmissed, follow, Option.elim_none, tryUnlessActive]
  split
  · exact .of_at hat recalls hnone
  intro found t hrun
  obtain ⟨_, u, htried, hleft⟩ := follow_ok.mp hrun
  cases hleft
  obtain ⟨_, v, hbody, rfl, rfl⟩ := of_around htried
  obtain ⟨m, j, hm, hat', recalls', came⟩ :=
    h ((Parser.enterRule r i s).trying r i) hat (recalls.congr rfl) found v hbody
  have hcleaned : T.pass.At (T.depth x) m j (v.tried r i) := hat'
  rw [settled_eq]
  cases found with
  | none =>
    have hback := hcleaned.reset (Nat.le_trans hat.le hm)
    have hkept : T.Recalls m ((v.tried r i).reset i) := recalls'.congr rfl
    exact ⟨m, i, hm, hback, (hkept.remember hnames hnone hback.le).congr rfl, hnone⟩
  | some node =>
    rw [Option.isSome_some, if_pos rfl, hat'.mark]
    have hback := hcleaned.reset hat'.le
    have hkept : T.Recalls m ((v.tried r i).reset j) := recalls'.congr rfl
    exact ⟨m, j, hm, hback, (hkept.remember hnames came hback.le).congr rfl, came⟩

theorem grow_arrives (hnames : R.Distinguishes) (hle : i ≤ n)
    (h : ∀ n s, T.pass.At (T.depth x) n i s → T.Recalls n s →
      T.Arrives x n (T.Came r i) (body s))
    (fuel : Nat) {best best' : Option (R.Node r) × Mark}
    (hrun : Parser.grow r i body fuel best s = .ok best' t) (hbest : T.Came r i best.1 best.2)
    (hstop : best.2 ≤ n) (hat : T.pass.At (T.depth x) n j s) (recalls : T.Recalls n s) :
    ∃ n' k, n ≤ n' ∧ T.pass.At (T.depth x) n' k t ∧ T.Recalls n' t ∧
      T.Came r i best'.1 best'.2 ∧ best'.2 ≤ n' := by
  induction fuel generalizing best j n s with
  | zero => cases hrun
  | succ fuel induction =>
    rw [grow_succ] at hrun
    obtain ⟨found, u, hbody, hrest⟩ := follow_ok.mp hrun
    obtain ⟨m, k, hm, hat', recalls', came⟩ :=
      h n (s.reset i) (hat.reset hle) (recalls.congr rfl) found u hbody
    split at hrest
    case isTrue =>
      cases hrest
      exact ⟨m, k, hm, hat', recalls', hbest, Nat.le_trans hstop hm⟩
    case isFalse =>
      rw [hat'.mark] at hrest
      have hgrew : T.Recalls m (grew r i found u) := by
        rw [grew, hat'.mark]
        exact Recalls.remember (recalls'.congr rfl) hnames came hat'.le
      have hat'' : T.pass.At (T.depth x) m k (grew r i found u) := hat'
      obtain ⟨m', k', hm', hgrown⟩ :=
        induction (Nat.le_trans hle hm) hrest came hat'.le hat'' hgrew
      exact ⟨m', k', Nat.le_trans hm hm', hgrown⟩

theorem grown_arrives (hnames : R.Distinguishes) (hnone : T.Came r i none i)
    (h : ∀ n s, T.pass.At (T.depth x) n i s → T.Recalls n s →
      T.Arrives x n (T.Came r i) (body s))
    (hat : T.pass.At (T.depth x) n i s) (recalls : T.Recalls n s) :
    T.Arrives x n (T.Came r i) (Parser.grown r body s) := by
  rw [grown_eq hat.mark]
  obtain hmissed | ⟨found, t, hfound, arrives⟩ := lookup_arrives (r := r) hat recalls
  case inr =>
    simp only [hfound, follow, Option.elim_some]
    exact arrives
  simp only [hmissed, follow, Option.elim_none]
  intro found t hrun
  obtain ⟨_, u, htried, hleft⟩ := follow_ok.mp hrun
  cases hleft
  obtain ⟨best, v, hgrow, rfl, rfl⟩ := of_around htried
  let started := (Parser.enterRule r i s).startGrowing r i
  have hentered : T.pass.At (T.depth x) n i started := hat
  have hstarted : T.Recalls n started := by
    have hentered : T.Recalls n (Parser.enterRule r i s) := recalls.congr rfl
    exact (hentered.remember hnames hnone hat.le).congr rfl
  obtain ⟨m, k, hm, hat', recalls', came, hstop⟩ :=
    grow_arrives hnames hat.le h _ hgrow hnone hat.le hentered hstarted
  have hback : T.pass.At (T.depth x) m best.2 (v.stopGrowing.reset best.2) :=
    Pass.At.reset (i := k) hat' hstop
  exact ⟨m, best.2, hm, hback, recalls'.congr rfl, came⟩

variable {G : Grammar R}

theorem call_serves (hG : T.ranking.Governs G) (hnames : R.Distinguishes)
    (hleads : G.LeadsIn T.pass.world T.pre T.post T.inside) (fuel : Nat) :
    T.Serves (Parser.call G fuel) := by
  induction fuel with
  | zero => exact fun x r i n s _ _ _ _ => .of_error
  | succ fuel induction =>
    intro x r i n s hentry hpre hat recalls
    have hnone : T.Came r i none i := ⟨⟨Nat.le_refl i, by simp⟩, fun y => hleads.none y r i⟩
    have hbody (n : Nat) (s : Session R) (hat : T.pass.At (T.depth x) n i s)
        (recalls : T.Recalls n s) :
        T.Arrives x n (T.Came r i) (Parser.exec (Parser.call G fuel) (G.body r) s) := by
      refine (exec_arrives induction (hG.body _ r i hentry) (hleads.body x r i hpre) hat.le hat
        recalls).widen (Nat.le_refl n) fun found j hfound => ?_
      exact ⟨hfound.1, fun y => T.levelFree x y r i found j hpre hfound.2⟩
    cases hpolicy : R.policy r with
    | direct =>
      simp only [Parser.call, hpolicy]
      exact hbody n s hat recalls
    | packrat =>
      rw [call_packrat fuel hpolicy]
      exact memoized_arrives hnames hnone (hbody n) hat recalls
    | leftRecursive =>
      rw [call_leftRecursive fuel hpolicy]
      exact grown_arrives hnames hnone hbody hat recalls

/-! ### Whole passes -/

theorem straight_arrives {callee : (r : R.Rule) → Parse R (Option (R.Node r))} {m : Matcher R α}
    {Q : α → Nat → Prop} (straight : m.Straight)
    (hleads : LeadsIn T.pass.world T.pre T.post T.inside x m i Q)
    (hat : T.pass.At (T.depth x) n i s) (recalls : T.Recalls n s) :
    T.Arrives x n Q (Parser.exec callee m s) := by
  induction m generalizing i n s with
  | done value => exact .of_at hat recalls hleads
  | act action next induction =>
    rw [exec_act]
    cases action with
    | peek =>
      refine (perform_arrives recalls fun o => look_agrees hat).follow ?_
      exact fun t _ m j _ hat recalls ht => induction t (straight t) (ht _ hleads) hat recalls
    | next =>
      refine (perform_arrives recalls fun o => next_agrees hat).follow ?_
      exact fun t _ m j _ hat recalls ht => induction t (straight t) (ht _ hleads) hat recalls
    | _ => exact straight.elim
  | call => exact straight.elim
  | deeper => exact straight.elim
  | iterate => exact straight.elim

theorem runRule_arrives {entry : R.Rule} (hG : T.ranking.Governs G) (hnames : R.Distinguishes)
    (hleads : G.LeadsIn T.pass.world T.pre T.post T.inside)
    (hentry : T.ranking.isEntry entry = true) (hpre : T.pre x entry 0)
    (hat : T.pass.At (T.depth x) n 0 s) (hmemo : s.memo = ∅) :
    T.Arrives x n (T.post x entry 0) (Parser.runRule G entry s) := by
  obtain ⟨hpolicy, _, first, last, hbody, hlast, hfirst⟩ := hG.entry entry hentry
  obtain ⟨fuel, hfuel⟩ := callDepth_eq_succ s
  have hstart : Parser.runRule G entry s = follow (Parser.exec (Parser.call G fuel) first s)
      fun a => Parser.exec (Parser.call G fuel) (last a) := by
    rw [← exec_bind, ← hbody]
    simp only [Parser.runRule, run_bind, run_get, hfuel, Parser.call, hpolicy]
  have hnothing : T.Recalls n s := fun r i entry hentry => by simp [hmemo] at hentry
  have hleads' := hleads.body x entry 0 hpre
  rw [hbody] at hleads'
  rw [hstart]
  refine (exec_arrives (call_serves hG hnames hleads fuel) (hfirst T.pass.world 0) hleads'.of_bind
    (Nat.zero_le n) hat hnothing).follow ?_
  exact fun a t m j _ hat recalls ha => straight_arrives (hlast a) ha.2 hat recalls

end Rules

end Guide

end ShellSyntax
