import ShellSyntax.Proofs.Parser.Fates

/-!
What an abort leaves in the memo. A rule that remembers keeps its result once it is left, so an
abort keeps nothing of it. A rule that grows is remembered from the start, with a failure and then
with the longest match so far, and an abort leaves that behind: run again at its mark, the rule is
answered with it.
-/

namespace ShellSyntax

open Outcome TraceEvent

variable {R : RuleSet} {own : Option (R.Rule × Mark)} {r : R.Rule} {i : Mark} {s t : Session R}
  {success : Bool} {events : List TraceEvent} {e : Abort} {body : Parse R (Option (R.Node r))}

theorem Course.own_entry (h : Course own s success events t) (hown : own = some (r, i))
    (hentry : ∃ node stop, s.memo[(R.name r, i)]? = some ⟨r, node, stop⟩) :
    ∃ node stop, t.memo[(R.name r, i)]? = some ⟨r, node, stop⟩ := by
  induction h with
  | reads | recalls | deeper | completes | abandons | ripens | withers => cases hown
  | andThen hfirst hlater ih ih' => exact ih' hown (ih hown hentry)
  | inside hbody ih =>
    obtain ⟨node, stop, hentry⟩ := hentry
    exact ⟨node, stop, hbody.entry hentry nofun⟩
  | grows node =>
    cases hown
    exact ⟨_, _, remember_self⟩

theorem of_memoized_error (hfresh : s.memo[(R.name r, s.mark)]? = none)
    (hidle : (R.name r, s.mark) ∉ s.active) (h : Parser.memoized r body s = .error e t) :
    ∃ u, body ((Parser.enterRule r s.mark s).trying r s.mark) = .error e u ∧
      t = u.tried r s.mark := by
  rw [memoized_fresh hfresh hidle] at h
  exact of_around_error (of_entered_error h)

theorem of_grown_error (hfresh : s.memo[(R.name r, s.mark)]? = none)
    (h : Parser.grown r body s = .error e t) :
    ∃ u, Parser.grow r s.mark body (s.bound + 1) (none, s.mark)
      ((Parser.enterRule r s.mark s).startGrowing r s.mark) = .error e u ∧ t = u.stopGrowing := by
  rw [grown_fresh hfresh] at h
  exact of_around_error (of_entered_error h)

theorem memoized_abort_forgets (hnames : R.Uniform) (hready : s.Ready none)
    (hpolicy : R.policy r = .packrat) (hbody : Proceeds body)
    (hfresh : s.memo[(R.name r, s.mark)]? = none) (hidle : (R.name r, s.mark) ∉ s.active)
    (h : Parser.memoized r body s = .error e t) : t.memo[(R.name r, s.mark)]? = none := by
  obtain ⟨u, hrun, rfl⟩ := of_memoized_error hfresh hidle h
  obtain ⟨events, -, hcourse⟩ := hbody ((Parser.enterRule r s.mark s).trying r s.mark)
  have hfate := hcourse.fate hnames (hready.trying hnames hpolicy) (R.name r, s.mark)
  rw [hrun] at hfate
  have habsent := mt (hfate.of_active Std.HashSet.mem_insert_self).2.2.mp (not_mem_of_fresh hfresh)
  exact Std.HashMap.getElem?_eq_none habsent

/-- An abort leaves the longest match so far of a rule that grows, or the failure that it started
with. -/
theorem grown_abort_remembers (hbody : Proceeds body)
    (hfresh : s.memo[(R.name r, s.mark)]? = none) (h : Parser.grown r body s = .error e t) :
    ∃ node stop, t.memo[(R.name r, s.mark)]? = some ⟨r, node, stop⟩ := by
  obtain ⟨u, hrun, rfl⟩ := of_grown_error hfresh h
  obtain ⟨events, -, hcourse⟩ := grow_charts (i := s.mark) hbody (s.bound + 1) (none, s.mark)
    ((Parser.enterRule r s.mark s).startGrowing r s.mark)
  rw [hrun] at hcourse
  exact hcourse.own_entry rfl ⟨none, s.mark, remember_self⟩

/-- A rule of which nothing is remembered, and that is not being tried, starts anew. -/
theorem memoized_starts (hbody : Proceeds body) (hfresh : s.memo[(R.name r, s.mark)]? = none)
    (hidle : (R.name r, s.mark) ∉ s.active) :
    ∃ later, Records (Parser.memoized r body) s (.enter (R.name r) s.mark s.level :: later) := by
  obtain ⟨events, hrecords, -⟩ := hbody ((Parser.enterRule r s.mark s).trying r s.mark)
  obtain ⟨later, hentered⟩ := (tryOnce_records hrecords).exists_entered
  refine ⟨later, hentered.congr fun trace => ?_⟩
  exact memoized_fresh (s := s.withTrace trace) hfresh hidle

/-- What an abort leaves of the rule `r`, which was started at `i`. -/
structure LeftOpen (G : Grammar R) (r : R.Rule) (i : Mark) (t : Session R) : Prop where
  /-- Run again, a rule that remembers its results is started once more. -/
  packrat : R.policy r = .packrat → (R.name r, i) ∉ t.memo ∧ ∀ fuel, ∃ later,
    Records (Parser.call G (fuel + 1) r) (t.reset i) (.enter (R.name r) i t.level :: later)
  /-- Run again, a rule that grows is answered with what it has found so far. -/
  leftRecursive : R.policy r = .leftRecursive → ∃ node stop,
    t.memo[(R.name r, i)]? = some ⟨r, node, stop⟩ ∧ ∀ fuel, ∃ u,
      Parser.call G (fuel + 1) r (t.reset i) = .ok node u ∧ u.mark = stop

theorem leftOpen_of_abort {G : Grammar R} {fuel : Nat} (hnames : R.Uniform)
    (hidle : ∀ key, key ∉ s.active) (hfresh : s.memo[(R.name r, s.mark)]? = none)
    (h : Parser.call G (fuel + 1) r s = .error e t) : LeftOpen G r s.mark t where
  packrat hpolicy := by
    have hbody (fuel : Nat) := exec_proceeds (call_proceeds G fuel) (G.body r)
    obtain ⟨events, -, hcourse⟩ := call_proceeds G (fuel + 1) r s
    rw [h] at hcourse
    rw [call_packrat fuel hpolicy] at h
    have hforgot : t.memo[(R.name r, s.mark)]? = none := memoized_abort_forgets hnames
      (.of_idle hidle) hpolicy (hbody fuel) hfresh (hidle _) h
    refine ⟨not_mem_of_fresh hforgot, fun more => ?_⟩
    rw [call_packrat more hpolicy]
    exact memoized_starts (s := t.reset s.mark) (hbody more) hforgot
      (mt (hcourse.resumes.active _).mp (hidle _))
  leftRecursive hpolicy := by
    have hbody := exec_proceeds (call_proceeds G fuel) (G.body r)
    rw [call_leftRecursive fuel hpolicy] at h
    obtain ⟨node, stop, hentry⟩ := grown_abort_remembers hbody hfresh h
    refine ⟨node, stop, hentry, fun more => ⟨_, call_recalled more ?_ hentry, rfl⟩⟩
    exact fun hdirect => by cases hdirect.symm.trans hpolicy

/-- Where no rule is being tried, a rule that is aborted leaves all that was remembered as it was.
Of what was started meanwhile it leaves the results of the rules that were left, and a result for
each rule that grows, left or not. So a rule that remembers its results is not answered from memory
when it is run once more, but one that grows is. -/
theorem abort_keeps_growing {G : Grammar R} {fuel : Nat} (hnames : R.Uniform)
    (hidle : ∀ key, key ∉ s.active) (h : Parser.call G (fuel + 1) r s = .error e t) :
    (∃ events, Records (Parser.call G (fuel + 1) r) s events ∧
      (∀ (key : String × Mark) (entry : Remembered R),
        s.memo[key]? = some entry → t.memo[key]? = some entry) ∧
      ∀ key, key ∉ s.memo → events.countP (enters key) ≤ 1 ∧
        (key ∈ t.memo ↔ events.countP (enters key) = 1 ∧
          (events.countP (exits key) = 1 ∨ R.Grows key.1))) ∧
      ((R.name r, s.mark) ∉ s.memo → LeftOpen G r s.mark t) := by
  refine ⟨?_, fun habsent =>
    leftOpen_of_abort hnames hidle (Std.HashMap.getElem?_eq_none habsent) h⟩
  obtain ⟨events, hrecords, hcourse⟩ := call_proceeds G (fuel + 1) r s
  rw [h] at hcourse
  exact ⟨events, hrecords, fun key entry hentry => hcourse.entry hentry nofun,
    fun key => (hcourse.fate hnames (.of_idle hidle) key).of_not_mem⟩

theorem Sample.rules_uniform : Sample.rules.Uniform := by
  intro r r' h
  revert h
  cases r <;> cases r' <;> decide

theorem Sample.body_diff : ∃ tail : Mark → Option String → Sample.Match (Option String),
    Sample.grammar.body Sample.Rule.diff =
      .act .mark (fun start => .call Sample.Rule.diff (tail start)) ∧
    ∀ start, tail start none = .act (.reset start) fun _ => .call Sample.Rule.item .done :=
  ⟨_, rfl, fun _ => rfl⟩

/-- The rule meets its own failure first, and then the string that does not end. The failure is
left behind. -/
theorem Sample.diff_aborts :
    let s := Sample.session "'a\n" "" none
    ∃ fuel e t, Parser.callDepth s = fuel + 1 ∧
      Parser.call Sample.grammar (fuel + 1) Sample.Rule.diff s = .error e t ∧
      t.memo[(Sample.rules.name Sample.Rule.diff, s.mark)]? =
        some ⟨Sample.Rule.diff, none, s.mark⟩ := by
  intro s
  let fuel := Parser.callDepth s - 3
  let callee := Parser.call Sample.grammar (fuel + 2)
  let seeded := (Parser.enterRule Sample.Rule.diff s.mark s).startGrowing Sample.Rule.diff s.mark
  let recalled := (seeded.reset s.mark).recalled Sample.Rule.diff s.mark
    ⟨Sample.Rule.diff, none, s.mark⟩
  have hleft : callee Sample.Rule.diff (seeded.reset s.mark) = .ok none recalled :=
    call_recalled (s := seeded.reset s.mark) (fuel + 1) (by decide) remember_self
  let later := recalled.reset s.mark
  let inside := (Parser.enterRule Sample.Rule.item s.mark later).trying Sample.Rule.item s.mark
  let item : Parse Sample.rules (Option (Sample.rules.Node Sample.Rule.item)) :=
    Parser.exec (Parser.call Sample.grammar (fuel + 1)) Sample.itemBody
  have haborted : succeeded (item inside) = false := by
    decide +kernel
  obtain ⟨e, hitem⟩ := of_aborted haborted
  have hfresh : later.memo[(Sample.rules.name Sample.Rule.item, s.mark)]? = none :=
    (remember_other (by decide)).trans Std.HashMap.getElem?_empty
  let left := (final (item inside)).tried Sample.Rule.item s.mark
  have hcall : callee Sample.Rule.item later = .error e left :=
    (congrFun (call_packrat (G := Sample.grammar) (r := Sample.Rule.item) (fuel + 1) rfl)
      later).trans (memoized_error hfresh Std.HashSet.not_mem_empty hitem)
  obtain ⟨tail, hsplit, htail⟩ := Sample.body_diff
  have hbody : Parser.exec callee (Sample.grammar.body Sample.Rule.diff) (seeded.reset s.mark) =
      .error e left := by
    rw [hsplit]
    refine (exec_call callee (seeded.reset s.mark) Sample.Rule.diff _).trans ?_
    rw [hleft]
    refine (congrArg (Parser.exec callee · recalled) (htail s.mark)).trans ?_
    refine (exec_call callee later Sample.Rule.item _).trans ?_
    rw [hcall]
    rfl
  have hproceeds : Proceeds item :=
    exec_proceeds (call_proceeds Sample.grammar (fuel + 1)) Sample.itemBody
  obtain ⟨events, -, hcourse⟩ := hproceeds inside
  have hseed : inside.memo[(Sample.rules.name Sample.Rule.diff, s.mark)]? =
      some ⟨Sample.Rule.diff, none, s.mark⟩ := remember_self
  have hkept : left.stopGrowing.memo[(Sample.rules.name Sample.Rule.diff, s.mark)]? =
      some ⟨Sample.Rule.diff, none, s.mark⟩ := by
    rw [Session.stopGrowing_memo, Session.tried_memo]
    exact hcourse.entry hseed nofun
  have hdepth : Parser.callDepth s = fuel + 2 + 1 := by decide +kernel
  refine ⟨fuel + 2, e, left.stopGrowing, hdepth, ?_, hkept⟩
  rw [call_leftRecursive (fuel + 2) rfl]
  exact grown_error Std.HashMap.getElem?_empty hbody

theorem abort_keeps_growing_diff :
    let s := Sample.session "'a\n" "" none
    Sample.rules.Uniform ∧ (∀ key, key ∉ s.active) ∧
      (Sample.rules.name Sample.Rule.diff, s.mark) ∉ s.memo ∧
      ∃ fuel e t, Parser.call Sample.grammar (fuel + 1) Sample.Rule.diff s = .error e t ∧
        LeftOpen Sample.grammar Sample.Rule.diff s.mark t := by
  intro s
  obtain ⟨fuel, e, t, -, h, -⟩ := Sample.diff_aborts
  have hidle (key : String × Mark) : key ∉ s.active := Std.HashSet.not_mem_empty
  have habsent : (Sample.rules.name Sample.Rule.diff, s.mark) ∉ s.memo := Std.HashMap.not_mem_empty
  exact ⟨Sample.rules_uniform, hidle, habsent, fuel, e, t, h,
    (abort_keeps_growing Sample.rules_uniform hidle h).2 habsent⟩

/-- Run once more behind an abort, the rule fails with the failure that its growth started with. -/
theorem second_call_answered :
    let s := Sample.session "'a\n" "" none
    ∃ e t u, Parser.runRule Sample.grammar Sample.Rule.diff s = .error e t ∧
      Parser.runRule Sample.grammar Sample.Rule.diff (t.reset s.mark) = .ok none u := by
  intro s
  obtain ⟨fuel, e, t, hdepth, h, hentry⟩ := Sample.diff_aborts
  have hrun : Parser.runRule Sample.grammar Sample.Rule.diff s = .error e t := by
    rw [← hdepth] at h
    exact h
  exact ⟨e, t, _, hrun, runRule_recalled (s := t.reset s.mark) (by decide) hentry⟩

end ShellSyntax
