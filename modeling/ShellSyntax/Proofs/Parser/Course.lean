import ShellSyntax.Proofs.Trace.Rules

/-!
The course of a run: what it does to the session, step by step. A run reads, goes a bracket deeper,
is answered from memory, tries rules and lets them grow. Whatever the rules are, and whether it
succeeds or is aborted, nothing else happens to the session. So what a run does to the books that
the parser keeps is proved once, by induction on its course.
-/

namespace ShellSyntax

open Outcome

namespace Outcome

variable {ε σ α : Type}

def succeeded : EStateM.Result ε σ α → Bool
  | .ok _ _ => true
  | .error _ _ => false

@[simp] theorem succeeded_ok (a : α) (s : σ) :
    succeeded (.ok a s : EStateM.Result ε σ α) = true :=
  rfl

@[simp] theorem succeeded_error (e : ε) (s : σ) :
    succeeded (.error e s : EStateM.Result ε σ α) = false :=
  rfl

@[simp] theorem final_ok (a : α) (s : σ) : final (.ok a s : EStateM.Result ε σ α) = s :=
  rfl

@[simp] theorem final_error (e : ε) (s : σ) : final (.error e s : EStateM.Result ε σ α) = s :=
  rfl

theorem of_succeeded {run : EStateM.Result ε σ α} (h : succeeded run = true) :
    ∃ a, run = .ok a (final run) := by
  cases run with
  | ok a s => exact ⟨a, rfl⟩
  | error e s => cases h

theorem of_aborted {run : EStateM.Result ε σ α} (h : succeeded run = false) :
    ∃ e, run = .error e (final run) := by
  cases run with
  | ok a s => cases h
  | error e s => exact ⟨e, rfl⟩

end Outcome

variable {R : RuleSet} {α β σ : Type}

namespace Session

def deeper (s : Session R) : Session R :=
  { s with nesting := s.nesting + 1 }

def back (s : Session R) : Session R :=
  { s with nesting := s.nesting - 1 }

@[simp] theorem tried_memo (r : R.Rule) (i : Mark) (s : Session R) :
    (s.tried r i).memo = s.memo :=
  rfl

@[simp] theorem stopGrowing_memo (s : Session R) : s.stopGrowing.memo = s.memo :=
  rfl

/-- The session behind an answer from memory. -/
def recalled (r : R.Rule) (i : Mark) (entry : Remembered R) (s : Session R) : Session R :=
  (Session.note { s with stats := { s.stats with hits := s.stats.hits + 1 } }
    (.memo (R.name r) i entry.stop entry.node.isSome s.level)).reset entry.stop

end Session

/-- From `s` a run comes to `t`, recording the events; it is aborted there if it does not succeed.
It may be part of the growth of a rule, its own, whose match it then makes longer. -/
inductive Course :
    Option (R.Rule × Mark) → Session R → Bool → List TraceEvent → Session R → Prop
  | reads (s : Session R) (stream : TokenStream) (success : Bool) :
    Course none s success [] { s with stream }
  | andThen {own : Option (R.Rule × Mark)} {s t u : Session R} {first later : List TraceEvent}
      {success : Bool} (hfirst : Course own s true first t)
      (hlater : Course own t success later u) : Course own s success (first ++ later) u
  | deeper {s t : Session R} {events : List TraceEvent} {success : Bool}
      (hinner : Course none s.deeper success events t) : Course none s success events t.back
  | recalls {s : Session R} {r : R.Rule} {i : Mark} {entry : Remembered R}
      (hentry : s.memo[(R.name r, i)]? = some entry) :
    Course none s true [.memo (R.name r) i entry.stop entry.node.isSome s.level]
      (s.recalled r i entry)
  /-- The body of a rule that remembers has been run. -/
  | completes {s t : Session R} {r : R.Rule} {events : List TraceEvent}
      (node : Option (R.Node r)) (stop : Mark) (hpolicy : R.policy r = .packrat)
      (hfresh : s.memo[(R.name r, s.mark)]? = none) (hidle : (R.name r, s.mark) ∉ s.active)
      (hbody : Course none ((Parser.enterRule r s.mark s).trying r s.mark) true events t)
      (hstop : stop = if node.isSome then t.mark else s.mark) :
    Course none s true
      (.enter (R.name r) s.mark s.level :: events ++
        [.exit (R.name r) s.mark stop node.isSome (t.level - 1)])
      (Parser.leaveRule r s.mark node.isSome
        (Parser.remember r s.mark node stop ((t.tried r s.mark).reset stop)))
  | abandons {s t : Session R} {r : R.Rule} {events : List TraceEvent}
      (hpolicy : R.policy r = .packrat) (hfresh : s.memo[(R.name r, s.mark)]? = none)
      (hidle : (R.name r, s.mark) ∉ s.active)
      (hbody : Course none ((Parser.enterRule r s.mark s).trying r s.mark) false events t) :
    Course none s false (.enter (R.name r) s.mark s.level :: events) (t.tried r s.mark)
  /-- The growth of a left-recursive rule has come to an end. -/
  | ripens {s t : Session R} {r : R.Rule} {events : List TraceEvent}
      (best : Option (R.Node r) × Mark) (hpolicy : R.policy r = .leftRecursive)
      (hfresh : s.memo[(R.name r, s.mark)]? = none)
      (hgrowth : Course (some (r, s.mark))
        ((Parser.enterRule r s.mark s).startGrowing r s.mark) true events t) :
    Course none s true
      (.enter (R.name r) s.mark s.level :: events ++
        [.exit (R.name r) s.mark best.2 best.1.isSome (t.level - 1)])
      (Parser.leaveRule r s.mark best.1.isSome (t.stopGrowing.reset best.2))
  | withers {s t : Session R} {r : R.Rule} {events : List TraceEvent}
      (hpolicy : R.policy r = .leftRecursive) (hfresh : s.memo[(R.name r, s.mark)]? = none)
      (hgrowth : Course (some (r, s.mark))
        ((Parser.enterRule r s.mark s).startGrowing r s.mark) false events t) :
    Course none s false (.enter (R.name r) s.mark s.level :: events) t.stopGrowing
  /-- The body of the rule that grows is run. -/
  | inside {own : R.Rule × Mark} {s t : Session R} {events : List TraceEvent} {success : Bool}
      (hbody : Course none s success events t) : Course (some own) s success events t
  | grows {s : Session R} {r : R.Rule} {i : Mark} (node : R.Node r) :
    Course (some (r, i)) s true [.grow (R.name r) i s.mark s.level] (grew r i (some node) s)

/-- The step takes a course from `s`. Any record gets the events of it, and nothing else depends on
the record. -/
def Charts (own : Option (R.Rule × Mark)) (m : Parse R α) (s : Session R) : Prop :=
  ∃ events, Records m s events ∧ Course own s (succeeded (m s)) events (final (m s))

def Proceeds (m : Parse R α) : Prop :=
  ∀ s, Charts none m s

theorem follow_ok {run : EStateM.Result Abort (Session R) α} {k : α → Parse R β} {b : β}
    {u : Session R} : follow run k = .ok b u ↔ ∃ a t, run = .ok a t ∧ k a t = .ok b u := by
  cases run with
  | ok a t => simp [follow]
  | error e t => simp [follow]

/-! ### Matchers -/

section Matchers

variable {m : Parse R α} {s : Session R}

theorem Charts.silent (hrun : ∀ trace, m (s.withTrace trace) = recorded trace (m s))
    (hfinal : ∃ stream, final (m s) = { s with stream }) : Charts none m s := by
  obtain ⟨stream, hfinal⟩ := hfinal
  refine ⟨[], fun trace => ?_, hfinal ▸ .reads s stream _⟩
  rw [hrun]
  cases trace <;> rfl

theorem Charts.pure (a : α) : Charts none (fun s => .ok a s) s :=
  .silent (fun _ => rfl) ⟨s.stream, rfl⟩

theorem Charts.error (e : Abort) : Charts none (fun s => .error e s : Parse R α) s :=
  .silent (fun _ => rfl) ⟨s.stream, rfl⟩

theorem Charts.inside {own : R.Rule × Mark} (hm : Charts none m s) : Charts (some own) m s := by
  obtain ⟨events, hrecords, hcourse⟩ := hm
  exact ⟨events, hrecords, hcourse.inside⟩

theorem Charts.congr {own : Option (R.Rule × Mark)} {m' : Parse R α} (hm : Charts own m' s)
    (h : ∀ trace, m (s.withTrace trace) = m' (s.withTrace trace)) : Charts own m s := by
  have hsame : m s = m' s := h s.trace
  obtain ⟨events, hrecords, hcourse⟩ := hm
  exact ⟨events, hrecords.congr h, hsame ▸ hcourse⟩

theorem Charts.follow {own : Option (R.Rule × Mark)} {k : α → Parse R β} (hm : Charts own m s)
    (hk : ∀ a t, m s = .ok a t → Charts own (k a) t) :
    Charts own (fun s => follow (m s) k) s := by
  obtain ⟨first, hrecords, hfirst⟩ := hm
  cases hrun : m s with
  | error e t =>
    rw [hrun] at hfirst
    refine ⟨first, hrecords.follow_error hrun, ?_⟩
    simpa only [hrun, ShellSyntax.follow, succeeded_error, final_error] using hfirst
  | ok a t =>
    obtain ⟨later, hlater, hcourse⟩ := hk a t hrun
    rw [hrun, succeeded_ok, final_ok] at hfirst
    refine ⟨first ++ later, hrecords.follow hrun hlater, ?_⟩
    simpa only [hrun, ShellSyntax.follow] using hfirst.andThen hcourse

theorem Proceeds.follow {k : α → Parse R β} (hm : Proceeds m) (hk : ∀ a, Proceeds (k a)) :
    Proceeds fun s => follow (m s) k :=
  fun s => (hm s).follow fun a t _ => hk a t

theorem read_proceeds (step : Stream α) : Proceeds (Session.read step : Parse R α) := by
  intro s
  have hsame (trace : Option TraceLog) : (s.withTrace trace).stream = s.stream := rfl
  refine .silent (fun trace => ?_) ?_
  · unfold Session.read
    rw [hsame]
    cases step s.stream <;> rfl
  · unfold Session.read
    cases step s.stream with
    | ok value stream => exact ⟨stream, rfl⟩
    | error e stream => exact ⟨stream, rfl⟩

theorem fail_proceeds (fault : Fault) : Proceeds (Session.fail fault : Parse R α) :=
  fun s => .silent (fun _ => rfl) ⟨(s.syntaxError fault).2.stream, rfl⟩

theorem perform_proceeds (action : Action β) :
    Proceeds (Session.perform action : Parse R β) := by
  cases action with
  | peek => exact read_proceeds _
  | next => exact read_proceeds _
  | fail fault => exact fail_proceeds fault
  | reset mark => exact fun s => .silent (fun _ => rfl) ⟨s.stream.reset mark, rfl⟩
  | mark | spanSince | lastToken? | isDiagnosing =>
    exact fun s => .silent (fun _ => rfl) ⟨s.stream, rfl⟩

theorem tooDeep_proceeds : Proceeds (Parser.tooDeep : Parse R α) := by
  rw [tooDeep_eq]
  exact (read_proceeds _).follow fun token => fail_proceeds _

theorem nest_proceeds {inner : Parse R β} (hinner : Proceeds inner) :
    Proceeds (Parser.nest inner) := by
  intro s
  by_cases hdeep : Session.nestingLimit ≤ s.nesting
  · exact (tooDeep_proceeds s).congr fun trace => nest_deep (s := s.withTrace trace) hdeep
  · have hdeeper : Apart (R := R) Session.deeper := ⟨fun _ _ => rfl, fun _ => rfl⟩
    have hback : Apart (R := R) Session.back := ⟨fun _ _ => rfl, fun _ => rfl⟩
    have haround : Charts none (around Session.deeper Session.back id (fun _ => Session.back) inner)
        s := by
      obtain ⟨events, hrecords, hcourse⟩ := hinner s.deeper
      refine ⟨events, hrecords.around hdeeper hback fun _ => hback, ?_⟩
      unfold around
      generalize inner s.deeper = run at hcourse ⊢
      cases run with
      | ok b t => exact hcourse.deeper
      | error e t => exact hcourse.deeper
    exact haround.congr fun trace => nest_within (s := s.withTrace trace) hdeep

theorem rounds_proceeds {body : σ → Parse R (σ ⊕ β)} (hbody : ∀ state, Proceeds (body state))
    (fuel : Nat) (state : σ) : Proceeds (Parser.rounds body fuel state) := by
  induction fuel generalizing state with
  | zero => exact fun s => .error .endless
  | succ fuel induction =>
    rw [rounds_succ]
    refine (hbody state).follow ?_
    rintro (state | result)
    · exact induction state
    · exact fun s => .pure result

theorem exec_proceeds {callee : (r : R.Rule) → Parse R (Option (R.Node r))}
    (hcallee : ∀ r, Proceeds (callee r)) (m : Matcher R α) : Proceeds (Parser.exec callee m) := by
  induction m with
  | done value => exact fun s => .pure value
  | act action next induction =>
    rw [funext (exec_act callee · action next)]
    exact (perform_proceeds action).follow induction
  | call r next induction =>
    rw [funext (exec_call callee · r next)]
    exact (hcallee r).follow induction
  | deeper inner next hinner induction =>
    rw [funext (exec_deeper callee · inner next)]
    exact (nest_proceeds hinner).follow induction
  | iterate body state next hbody induction =>
    rw [funext (exec_iterate callee · body state next)]
    have hrounds : Proceeds fun s => Parser.rounds
        (fun state => Parser.exec callee (body state)) s.bound state s :=
      fun s => rounds_proceeds hbody s.bound state s
    exact hrounds.follow induction

end Matchers

/-! ### Rules -/

section Rules

variable {r : R.Rule} {i : Mark} {s t : Session R} {body : Parse R (Option (R.Node r))}

theorem lookup_recalled {node : Option (R.Node r)} {stop : Mark}
    (h : s.memo[(R.name r, i)]? = some ⟨r, node, stop⟩) :
    Parser.lookup? r i s = .ok (some node) (s.recalled r i ⟨r, node, stop⟩) := by
  simp only [Parser.lookup?, h, dif_pos]
  rfl

theorem lookup_charts (r : R.Rule) (i : Mark) (s : Session R) :
    Charts none (Parser.lookup? r i) s := by
  cases hentry : s.memo[(R.name r, i)]? with
  | none =>
    exact (Charts.pure none).congr fun trace => lookup_missed (s := s.withTrace trace) hentry
  | some entry =>
    have hentry' (trace : Option TraceLog) :
        (s.withTrace trace).memo[(R.name r, i)]? = some entry := hentry
    by_cases hrule : entry.rule = r
    · refine ⟨[.memo (R.name r) i entry.stop entry.node.isSome s.level], fun trace => ?_, ?_⟩
      · simp only [Parser.lookup?, hentry, hentry', dif_pos hrule]
        cases trace <;> rfl
      · simp only [Parser.lookup?, hentry, dif_pos hrule]
        exact .recalls hentry
    · refine (Charts.error (.memoClash (R.name r))).congr fun trace => ?_
      simp only [Parser.lookup?, hentry', dif_neg hrule]

theorem fresh_of_lookup (h : Parser.lookup? r i s = .ok none t) :
    s.memo[(R.name r, i)]? = none := by
  unfold Parser.lookup? at h
  split at h
  case h_1 hfresh => exact hfresh
  case h_2 => split at h <;> cases h

theorem Charts.of_lookup {m k : Parse R (Option (R.Node r))}
    (hrun : ∀ trace, m (s.withTrace trace) =
      ShellSyntax.follow (Parser.lookup? r i (s.withTrace trace)) fun found t =>
        found.elim (k t) fun node => .ok node t)
    (hk : s.memo[(R.name r, i)]? = none → Charts none k s) : Charts none m s := by
  refine ((lookup_charts r i s).follow fun found t hfound => ?_).congr hrun
  cases found with
  | some node => exact .pure node
  | none =>
    have hfresh := fresh_of_lookup hfound
    obtain rfl := lookup_missed_eq hfound
    exact hk hfresh

theorem of_around_error {before cleanup : Session R → Session R} {value : α → β}
    {after : α → Session R → Session R} {m : Parse R α} {e : Abort}
    (h : around before cleanup value after m s = .error e t) :
    ∃ u, m (before s) = .error e u ∧ t = cleanup u := by
  unfold around at h
  cases hrun : m (before s) with
  | ok a u =>
    rw [hrun] at h
    cases h
  | error e' u =>
    rw [hrun] at h
    cases h
    exact ⟨u, rfl, rfl⟩

section Entered

variable {inner : Parse R (Option (R.Node r))} {events : List TraceEvent}

theorem of_entered_error {e : Abort} (h : entered r i inner s = .error e t) :
    inner (Parser.enterRule r i s) = .error e t := by
  unfold entered at h
  cases hrun : inner (Parser.enterRule r i s) with
  | ok node u =>
    rw [hrun] at h
    cases h
  | error e' u =>
    rw [hrun] at h
    exact h

theorem entered_error {e : Abort} (hrun : inner (Parser.enterRule r i s) = .error e t) :
    entered r i inner s = .error e t := by
  simp only [entered, hrun, follow]

theorem entered_ok {node : Option (R.Node r)}
    (hrun : inner (Parser.enterRule r i s) = .ok node t) :
    entered r i inner s = .ok node (Parser.leaveRule r i node.isSome t) := by
  simp only [entered, hrun, follow]

theorem Records.enter (h : Records inner (Parser.enterRule r i s) events) :
    Records (fun s => inner (Parser.enterRule r i s)) s (.enter (R.name r) i s.level :: events) :=
  .after (fun trace => by cases trace <;> rfl) h

theorem Records.entered_error {e : Abort} (h : Records inner (Parser.enterRule r i s) events)
    (hrun : inner (Parser.enterRule r i s) = .error e t) :
    Records (entered r i inner) s (.enter (R.name r) i s.level :: events) :=
  h.enter.follow_error hrun

theorem Records.entered {node : Option (R.Node r)}
    (h : Records inner (Parser.enterRule r i s) events)
    (hrun : inner (Parser.enterRule r i s) = .ok node t) :
    Records (entered r i inner) s (.enter (R.name r) i s.level :: events ++
      [.exit (R.name r) i t.mark node.isSome (t.level - 1)]) :=
  h.enter.follow hrun fun trace => by cases trace <;> rfl

theorem Records.exists_entered (h : Records inner (Parser.enterRule r i s) events) :
    ∃ later, Records (ShellSyntax.entered r i inner) s
      (.enter (R.name r) i s.level :: later) := by
  cases hrun : inner (Parser.enterRule r i s) with
  | ok node t => exact ⟨_, h.entered hrun⟩
  | error e t => exact ⟨_, h.entered_error hrun⟩

end Entered

/-! ### Remembering -/

/-- A rule that has not been run at its mark, and is not being run there, runs its body. -/
theorem memoized_fresh (hfresh : s.memo[(R.name r, s.mark)]? = none)
    (hidle : (R.name r, s.mark) ∉ s.active) :
    Parser.memoized r body s = entered r s.mark (tryOnce r s.mark body) s := by
  have hactive : ¬s.active.contains (R.name r, s.mark) = true := fun h =>
    hidle (Std.HashSet.contains_iff_mem.mp h)
  rw [memoized_unfold rfl, lookup_missed hfresh]
  exact if_neg hactive

theorem tryOnce_error {e : Abort} (hrun : body (s.trying r i) = .error e t) :
    tryOnce r i body s = .error e (t.tried r i) := by
  rw [tryOnce, around, hrun]

theorem tryOnce_ok {node : Option (R.Node r)} (hrun : body (s.trying r i) = .ok node t) :
    tryOnce r i body s = .ok node (t.settled r i node) := by
  rw [tryOnce, around, hrun]
  rfl

theorem memoized_error {e : Abort} (hfresh : s.memo[(R.name r, s.mark)]? = none)
    (hidle : (R.name r, s.mark) ∉ s.active)
    (hbody : body ((Parser.enterRule r s.mark s).trying r s.mark) = .error e t) :
    Parser.memoized r body s = .error e (t.tried r s.mark) :=
  (memoized_fresh hfresh hidle).trans (entered_error (tryOnce_error hbody))

theorem settled_eq (node : Option (R.Node r)) : t.settled r i node =
    Parser.remember r i node (if node.isSome then t.mark else i)
      ((t.tried r i).reset (if node.isSome then t.mark else i)) := by
  cases node <;> rfl

theorem tryOnce_records {events : List TraceEvent}
    (h : Records body (s.trying r i) events) : Records (tryOnce r i body) s events := by
  refine h.around ⟨fun _ _ => rfl, fun _ => rfl⟩ ⟨fun _ _ => rfl, fun _ => rfl⟩ fun node => ?_
  cases node <;> exact ⟨fun _ _ => rfl, fun _ => rfl⟩

theorem memoized_proceeds (hpolicy : R.policy r = .packrat) (hbody : Proceeds body) :
    Proceeds (Parser.memoized r body) := by
  intro s
  refine .of_lookup (k := tryUnlessActive r s.mark body) (fun trace => memoized_unfold rfl)
    fun hfresh => ?_
  by_cases hactive : s.active.contains (R.name r, s.mark) = true
  · exact (Charts.pure none).congr fun trace => if_pos hactive
  · have hidle : (R.name r, s.mark) ∉ s.active := fun hmem =>
      hactive (Std.HashSet.contains_iff_mem.mpr hmem)
    obtain ⟨events, hrecords, hcourse⟩ := hbody ((Parser.enterRule r s.mark s).trying r s.mark)
    suffices hruns : Charts none (entered r s.mark (tryOnce r s.mark body)) s from
      hruns.congr fun trace => if_neg hactive
    have hkept := tryOnce_records hrecords
    cases hrun : body ((Parser.enterRule r s.mark s).trying r s.mark) with
    | error e t =>
      rw [hrun] at hcourse
      refine ⟨_, hkept.entered_error (tryOnce_error hrun), ?_⟩
      rw [entered_error (tryOnce_error hrun)]
      exact hcourse.abandons hpolicy hfresh hidle
    | ok node t =>
      have hkeeps := tryOnce_ok hrun
      rw [hrun] at hcourse
      rw [settled_eq] at hkeeps
      refine ⟨_, hkept.entered hkeeps, ?_⟩
      rw [entered_ok hkeeps]
      exact hcourse.completes node _ hpolicy hfresh hidle rfl

/-! ### Growing -/

theorem grown_fresh (hfresh : s.memo[(R.name r, s.mark)]? = none) : Parser.grown r body s =
    entered r s.mark (tryGrowing r s.mark body (s.bound + 1)) s := by
  rw [grown_eq rfl, lookup_missed hfresh]
  rfl

theorem grown_error {e : Abort} (hfresh : s.memo[(R.name r, s.mark)]? = none)
    (hbody : body (((Parser.enterRule r s.mark s).startGrowing r s.mark).reset s.mark) =
      .error e t) : Parser.grown r body s = .error e t.stopGrowing := by
  rw [grown_fresh hfresh]
  refine entered_error ?_
  rw [tryGrowing, around, grow_succ, hbody]
  rfl

theorem grow_charts (hbody : Proceeds body) (fuel : Nat) (best : Option (R.Node r) × Mark)
    (s : Session R) : Charts (some (r, i)) (Parser.grow r i body fuel best) s := by
  induction fuel generalizing best s with
  | zero => exact .inside (.error .endless)
  | succ fuel induction =>
    have hagain : Charts (some (r, i)) (fun s => body (s.reset i)) s := by
      obtain ⟨events, hrecords, hrun⟩ := hbody (s.reset i)
      have hback : Course none s true [] (s.reset i) := .reads s (s.stream.reset i) true
      exact ⟨events, fun trace => hrecords trace, .inside (hback.andThen hrun)⟩
    rw [funext (grow_succ fuel)]
    refine hagain.follow fun node t _ => ?_
    by_cases hstops : (node.isNone || decide (t.mark ≤ best.2)) = true
    · exact (Charts.inside (.pure best)).congr fun trace => if_pos hstops
    · cases node with
      | none => exact absurd rfl hstops
      | some node =>
        obtain ⟨later, hrecords, hlater⟩ := induction (some node, t.mark) (grew r i (some node) t)
        have hgrows : Charts (some (r, i))
            (fun t => Parser.grow r i body fuel (some node, t.mark) (grew r i (some node) t)) t :=
          ⟨_, .after (fun trace => by cases trace <;> rfl) hrecords,
            (Course.grows node).andThen hlater⟩
        exact hgrows.congr fun trace => if_neg hstops

theorem grown_proceeds (hpolicy : R.policy r = .leftRecursive) (hbody : Proceeds body) :
    Proceeds (Parser.grown r body) := by
  intro s
  refine .of_lookup (i := s.mark) (k := fun t =>
      entered r s.mark (tryGrowing r s.mark body (t.bound + 1)) t)
    (fun trace => grown_eq rfl) fun hfresh => ?_
  suffices hruns : Charts none (entered r s.mark (tryGrowing r s.mark body (s.bound + 1))) s from
    hruns.congr fun trace => rfl
  obtain ⟨events, hrecords, hcourse⟩ := grow_charts (i := s.mark) hbody (s.bound + 1) (none, s.mark)
    ((Parser.enterRule r s.mark s).startGrowing r s.mark)
  have hkept : Records (tryGrowing r s.mark body (s.bound + 1)) (Parser.enterRule r s.mark s)
      events :=
    hrecords.around ⟨fun _ _ => rfl, fun _ => rfl⟩ ⟨fun _ _ => rfl, fun _ => rfl⟩
      fun _ => ⟨fun _ _ => rfl, fun _ => rfl⟩
  cases hrun : Parser.grow r s.mark body (s.bound + 1) (none, s.mark)
      ((Parser.enterRule r s.mark s).startGrowing r s.mark) with
  | error e t =>
    have haborts : tryGrowing r s.mark body (s.bound + 1) (Parser.enterRule r s.mark s) =
        .error e t.stopGrowing := by
      rw [tryGrowing, around, hrun]
    rw [hrun] at hcourse
    refine ⟨_, hkept.entered_error haborts, ?_⟩
    rw [entered_error haborts]
    exact hcourse.withers hpolicy hfresh
  | ok best t =>
    have hgrows : tryGrowing r s.mark body (s.bound + 1) (Parser.enterRule r s.mark s) =
        .ok best.1 (t.stopGrowing.reset best.2) := by
      rw [tryGrowing, around, hrun]
    rw [hrun] at hcourse
    refine ⟨_, hkept.entered hgrows, ?_⟩
    rw [entered_ok hgrows]
    exact hcourse.ripens best hpolicy hfresh

theorem call_packrat {G : Grammar R} (fuel : Nat) (hpolicy : R.policy r = .packrat) :
    Parser.call G (fuel + 1) r =
      Parser.memoized r (Parser.exec (Parser.call G fuel) (G.body r)) := by
  simp only [Parser.call, hpolicy]

theorem call_leftRecursive {G : Grammar R} (fuel : Nat) (hpolicy : R.policy r = .leftRecursive) :
    Parser.call G (fuel + 1) r =
      Parser.grown r (Parser.exec (Parser.call G fuel) (G.body r)) := by
  simp only [Parser.call, hpolicy]

theorem call_proceeds (G : Grammar R) (fuel : Nat) (r : R.Rule) :
    Proceeds (Parser.call G fuel r) := by
  induction fuel generalizing r with
  | zero => exact fun s => .error .endless
  | succ fuel induction =>
    have hbody := exec_proceeds induction (G.body r)
    cases hpolicy : R.policy r with
    | direct =>
      simp only [Parser.call, hpolicy]
      exact hbody
    | packrat =>
      rw [call_packrat fuel hpolicy]
      exact memoized_proceeds hpolicy hbody
    | leftRecursive =>
      rw [call_leftRecursive fuel hpolicy]
      exact grown_proceeds hpolicy hbody

theorem call_recalled {G : Grammar R} {node : Option (R.Node r)} {stop : Mark} (fuel : Nat)
    (hpolicy : R.policy r ≠ .direct) (h : s.memo[(R.name r, s.mark)]? = some ⟨r, node, stop⟩) :
    Parser.call G (fuel + 1) r s = .ok node (s.recalled r s.mark ⟨r, node, stop⟩) := by
  cases hpolicy' : R.policy r with
  | direct => exact absurd hpolicy' hpolicy
  | packrat =>
    rw [call_packrat fuel hpolicy', memoized_unfold rfl, lookup_recalled h]
    rfl
  | leftRecursive =>
    rw [call_leftRecursive fuel hpolicy', grown_eq rfl, lookup_recalled h]
    rfl

theorem callDepth_eq_succ (s : Session R) : ∃ fuel, Parser.callDepth s = fuel + 1 := by
  have hpos : 0 < Parser.callDepth s := Nat.mul_pos (Nat.succ_pos _) (Nat.succ_pos _)
  exact ⟨Parser.callDepth s - 1, (Nat.succ_pred_eq_of_pos hpos).symm⟩

theorem runRule_proceeds (G : Grammar R) (r : R.Rule) : Proceeds (Parser.runRule G r) :=
  fun s => (call_proceeds G (Parser.callDepth s) r s).congr fun _ => rfl

theorem runRule_recalled {G : Grammar R} {node : Option (R.Node r)} {stop : Mark}
    (hpolicy : R.policy r ≠ .direct) (h : s.memo[(R.name r, s.mark)]? = some ⟨r, node, stop⟩) :
    Parser.runRule G r s = .ok node (s.recalled r s.mark ⟨r, node, stop⟩) := by
  obtain ⟨fuel, hfuel⟩ := callDepth_eq_succ s
  rw [Parser.runRule, run_bind, run_get]
  dsimp only
  rw [hfuel]
  exact call_recalled fuel hpolicy h

end Rules

end ShellSyntax
