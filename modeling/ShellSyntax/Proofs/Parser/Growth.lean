import ShellSyntax.Proofs.Parser.Fates

/-!
How the match of a left-recursive rule grows. Its body may read the shorter match back, run other
growing rules, and end anywhere; all that is asked of it is that results that are remembered stay,
and that is so of every matcher. The growth is then a sequence of runs, each of which gets further
than the one before, and one more run that does not. That last run leaves nothing behind.
-/

namespace ShellSyntax

open Outcome

variable {R : RuleSet} {α β σ : Type}

/-! ### What is remembered stays -/

/-- `t` remembers all that `s` does, and has counted on from there. -/
structure Session.Extends (s t : Session R) : Prop where
  memo : ∀ (key : String × Mark) (entry : Remembered R),
    s.memo[key]? = some entry → t.memo[key]? = some entry
  growSteps : s.stats.growSteps ≤ t.stats.growSteps

namespace Session.Extends

variable {s t u : Session R}

theorem trans (h : s.Extends t) (h' : t.Extends u) : s.Extends u :=
  ⟨fun key entry hs => h'.memo key entry (h.memo key entry hs),
    Nat.le_trans h.growSteps h'.growSteps⟩

theorem of_eq (hmemo : t.memo = s.memo) (hsteps : t.stats.growSteps = s.stats.growSteps) :
    s.Extends t :=
  ⟨fun _ _ h => hmemo ▸ h, Nat.le_of_eq hsteps.symm⟩

end Session.Extends

/-- A step that leaves in place what is remembered. -/
def Retains (m : Parse R α) : Prop :=
  ∀ s a t, m s = .ok a t → s.Extends t

theorem Course.growSteps_le {own : Option (R.Rule × Mark)} {s t : Session R} {success : Bool}
    {events : List TraceEvent} (h : Course own s success events t) :
    s.stats.growSteps ≤ t.stats.growSteps := by
  induction h with
  | reads | recalls => exact Nat.le_refl _
  | andThen hfirst hlater ih ih' => exact Nat.le_trans ih ih'
  | deeper hinner ih | inside hinner ih => exact ih
  | completes _ _ _ _ _ hbody _ ih | abandons _ _ _ hbody ih => exact ih
  | ripens _ _ _ hgrowth ih | withers _ _ hgrowth ih => exact ih
  | grows node => exact Nat.le_succ _

theorem Proceeds.retains {m : Parse R α} (hm : Proceeds m) : Retains m := by
  intro s a t h
  obtain ⟨events, -, hcourse⟩ := hm s
  rw [h] at hcourse
  exact ⟨fun key entry hentry => hcourse.entry hentry nofun, hcourse.growSteps_le⟩

/-! ### Laps -/

/-- A run of the body of a growing rule whose match got further than all before it. -/
structure Lap (r : R.Rule) where
  node : R.Node r
  before : Session R
  after : Session R

namespace Lap

variable {r : R.Rule}

def stop (lap : Lap r) : Mark :=
  lap.after.mark

/-- How often other matches grew during the run. -/
def inner (lap : Lap r) : Nat :=
  lap.after.stats.growSteps - lap.before.stats.growSteps

end Lap

section Laps

variable {r : R.Rule} {i : Mark}

/-- The longest match and its end, the latest lap coming first. -/
def longest (i : Mark) : List (Lap r) → Option (R.Node r) × Mark
  | [] => (none, i)
  | lap :: _ => (some lap.node, lap.stop)

/-- The rule grows at `i` from `start`: lap by lap a longer match is found and remembered. -/
inductive Grows (r : R.Rule) (i : Mark) (body : Parse R (Option (R.Node r))) (start : Session R) :
    List (Lap r) → Session R → Prop
  | start : Grows r i body start [] start
  | lap {laps : List (Lap r)} {t u : Session R} {node : R.Node r}
      (earlier : Grows r i body start laps t) (hrun : body (t.reset i) = .ok (some node) u)
      (further : (longest i laps).2 < u.mark) :
      Grows r i body start (⟨node, t, u⟩ :: laps) (grew r i (some node) u)

/-- The next run of the body does not get further. -/
def Exhausted (i : Mark) (body : Parse R (Option (R.Node r))) (laps : List (Lap r))
    (t : Session R) : Prop :=
  ∀ node u, body (t.reset i) = .ok (some node) u → u.mark ≤ (longest i laps).2

/-- A left-recursive rule that is run at most `limit` times. -/
def Parser.grownWithin (limit : Nat) (r : R.Rule) (body : Parse R (Option (R.Node r))) :
    Parse R (Option (R.Node r)) := fun s =>
  follow (Parser.lookup? r s.mark s) fun found t =>
    found.elim
      (follow (tryGrowing r s.mark body limit (Parser.enterRule r s.mark t)) fun node u =>
        .ok node (Parser.leaveRule r s.mark node.isSome u))
      fun node => .ok node t

/-- Where the growth of a rule starts: with a failure in place of its match. -/
def Session.seeded (r : R.Rule) (s : Session R) : Session R :=
  (Parser.enterRule r s.mark s).startGrowing r s.mark

variable {body : Parse R (Option (R.Node r))} {start t : Session R} {laps : List (Lap r)}

namespace Grows

theorem entry (h : Grows r i body start laps t)
    (hseed : start.memo[(R.name r, i)]? = some ⟨r, none, i⟩) :
    t.memo[(R.name r, i)]? = some ⟨r, (longest i laps).1, (longest i laps).2⟩ := by
  cases h with
  | start => exact hseed
  | lap earlier hrun further =>
    exact Std.HashMap.getElem?_insert_self

theorem ends_pairwise (h : Grows r i body start laps t) :
    (laps.map Lap.stop ++ [i]).Pairwise (· > ·) := by
  induction h with
  | start => exact List.pairwise_singleton _ _
  | @lap laps t u node earlier hrun further induction =>
    refine List.pairwise_cons.mpr ⟨fun stop hstop => ?_, induction⟩
    cases laps with
    | nil =>
      cases List.mem_singleton.mp hstop
      exact further
    | cons latest laps =>
      rcases List.mem_cons.mp hstop with rfl | hearlier
      · exact further
      · exact Nat.lt_trans ((List.pairwise_cons.mp induction).1 stop hearlier) further

theorem length_le (h : Grows r i body start laps t) :
    i + laps.length ≤ (longest i laps).2 := by
  induction h with
  | start => exact Nat.le_refl i
  | lap earlier hrun further induction =>
    exact Nat.lt_of_le_of_lt induction further

theorem growSteps (h : Grows r i body start laps t) (hbody : Retains body) :
    t.stats.growSteps =
      start.stats.growSteps + laps.length + (laps.map Lap.inner).sum := by
  induction h with
  | start => rfl
  | @lap laps t u node earlier hrun further induction =>
    have hcounted : t.stats.growSteps ≤ u.stats.growSteps := (hbody _ _ _ hrun).growSteps
    have hgrew : (grew r i (some node) u).stats.growSteps = u.stats.growSteps + 1 := rfl
    have hinner : (Lap.mk node t u).inner = u.stats.growSteps - t.stats.growSteps := rfl
    rw [hgrew, List.map_cons, List.sum_cons, hinner, List.length_cons]
    omega

theorem run_eq (h : Grows r i body start laps t) (fuel : Nat) :
    Parser.grow r i body (laps.length + fuel) (none, i) start =
      Parser.grow r i body fuel (longest i laps) t := by
  induction h generalizing fuel with
  | start => rw [List.length_nil, Nat.zero_add]; rfl
  | @lap laps t u node earlier hrun further induction =>
    have hgrows : ¬((some node).isNone || decide (u.mark ≤ (longest i laps).2)) = true := by
      simpa using further
    rw [List.length_cons, Nat.add_assoc, Nat.add_comm 1 fuel, induction, grow_succ, hrun]
    exact if_neg hgrows

theorem exhausts {bound : Mark} {laps : List (Lap r)} {t : Session R}
    (hends : ∀ laps t node u, Grows r i body start laps t →
      body (t.reset i) = .ok (some node) u → u.mark ≤ bound)
    (h : Grows r i body start laps t) :
    ∃ laps t, Grows r i body start laps t ∧ Exhausted i body laps t := by
  by_cases hdone : Exhausted i body laps t
  · exact ⟨laps, t, h, hdone⟩
  · simp only [Exhausted, not_forall, Nat.not_le] at hdone
    obtain ⟨node, u, hrun, further⟩ := hdone
    have hbound := hends laps t node u h hrun
    exact exhausts hends (.lap h hrun further)
termination_by bound - (longest i laps).2
decreasing_by exact Nat.sub_lt_sub_left (Nat.lt_of_lt_of_le further hbound) further

theorem length_le_sub {bound : Mark}
    (hends : ∀ laps t node u, Grows r i body start laps t →
      body (t.reset i) = .ok (some node) u → u.mark ≤ bound)
    (h : Grows r i body start laps t) : laps.length ≤ bound - i := by
  cases h with
  | start => exact Nat.zero_le _
  | lap earlier hrun further =>
    have hreached := length_le (.lap earlier hrun further)
    exact Nat.le_sub_of_add_le' (Nat.le_trans hreached (hends _ _ _ _ earlier hrun))

end Grows

theorem Exhausted.grow_eq (h : Exhausted i body laps t) (fuel : Nat) :
    Parser.grow r i body (fuel + 1) (longest i laps) t =
      follow (body (t.reset i)) fun _ u => .ok (longest i laps) u := by
  rw [grow_succ]
  cases hrun : body (t.reset i) with
  | error e u => rfl
  | ok node u =>
    refine if_pos ?_
    cases node with
    | none => rfl
    | some node => simpa using h node u hrun

theorem grown_eq_within (r : R.Rule) (body : Parse R (Option (R.Node r))) (s : Session R) :
    Parser.grown r body s = Parser.grownWithin (s.bound + 1) r body s := by
  rw [grown_eq rfl, Parser.grownWithin]
  cases hfound : Parser.lookup? r s.mark s with
  | error e t => rfl
  | ok found t =>
    cases found with
    | some node => rfl
    | none =>
      obtain rfl := lookup_missed_eq hfound
      rfl

theorem grownWithin_fresh {s : Session R} (hfresh : s.memo[(R.name r, s.mark)]? = none)
    (limit : Nat) : Parser.grownWithin limit r body s =
      match Parser.grow r s.mark body limit (none, s.mark) (s.seeded r) with
      | .ok best u =>
        .ok best.1 (Parser.leaveRule r s.mark best.1.isSome (u.stopGrowing.reset best.2))
      | .error e u => .error e u.stopGrowing := by
  rw [Parser.grownWithin, lookup_missed hfresh]
  simp only [follow, Option.elim_none, tryGrowing, around, Session.seeded]
  cases Parser.grow r s.mark body limit (none, s.mark)
    ((Parser.enterRule r s.mark s).startGrowing r s.mark) <;> rfl

/-- What the growth of a rule from `s` leaves behind after these laps, `inner` being how often other
matches grew meanwhile. -/
structure Left (r : R.Rule) (s : Session R) (laps : List (Lap r)) (inner : Nat)
    (s' : Session R) : Prop where
  mark : s'.mark = (longest s.mark laps).2
  memo : s'.memo[(R.name r, s.mark)]? =
    some ⟨r, (longest s.mark laps).1, (longest s.mark laps).2⟩
  growSteps : s'.stats.growSteps = s.stats.growSteps + laps.length + inner

/-- The run of a rule yields its longest match, unless the last run of the body, from `t`, is
aborted. -/
def Concludes (r : R.Rule) (body : Parse R (Option (R.Node r))) (s : Session R)
    (laps : List (Lap r)) (t : Session R)
    (run : EStateM.Result Abort (Session R) (Option (R.Node r))) : Prop :=
  match body (t.reset s.mark) with
  | .error e u => run = .error e u.stopGrowing
  | .ok _ u => ∃ s', run = .ok (longest s.mark laps).1 s' ∧
      Left r s laps ((laps.map Lap.inner).sum + (u.stats.growSteps - t.stats.growSteps)) s'

theorem Grows.concludes {s : Session R} (h : Grows r s.mark body (s.seeded r) laps t)
    (hexhausted : Exhausted s.mark body laps t) (hbody : Retains body)
    (hfresh : s.memo[(R.name r, s.mark)]? = none) {limit : Nat} (hlimit : laps.length < limit) :
    Concludes r body s laps t (Parser.grownWithin limit r body s) := by
  obtain ⟨more, rfl⟩ : ∃ more, limit = laps.length + (more + 1) :=
    ⟨limit - laps.length - 1, by omega⟩
  rw [grownWithin_fresh hfresh, h.run_eq, hexhausted.grow_eq, Concludes]
  cases hlast : body (t.reset s.mark) with
  | error e u => rfl
  | ok node u =>
    have hback : t.Extends (t.reset s.mark) := .of_eq rfl rfl
    have hextends : t.Extends u := hback.trans (hbody _ _ _ hlast)
    have hseed : (s.seeded r).memo[(R.name r, s.mark)]? = some ⟨r, none, s.mark⟩ :=
      Std.HashMap.getElem?_insert_self
    refine ⟨_, rfl, rfl, hextends.memo _ _ (h.entry hseed), ?_⟩
    have hsteps := h.growSteps hbody
    have hcounted := hextends.growSteps
    have hstart : (s.seeded r).stats.growSteps = s.stats.growSteps := rfl
    change u.stats.growSteps = _
    omega

/-- The match of a left-recursive rule grows in laps, each of which gets further and meets what the
laps before it have found. There are no more of them than there are marks up to the last end, and
one more run of the body finds that it is the last. -/
theorem grown_longest {s : Session R} {last : Mark} (hbody : Retains body)
    (hfresh : s.memo[(R.name r, s.mark)]? = none)
    (hends : ∀ laps t node u, Grows r s.mark body (s.seeded r) laps t →
      body (t.reset s.mark) = .ok (some node) u → u.mark ≤ last) :
    ∃ laps t, Grows r s.mark body (s.seeded r) laps t ∧ Exhausted s.mark body laps t ∧
      laps.length + 1 ≤ last - s.mark + 1 ∧
      (laps.map Lap.stop ++ [s.mark]).Pairwise (· > ·) ∧
      (∀ earlier v, Grows r s.mark body (s.seeded r) earlier v →
        v.memo[(R.name r, s.mark)]? =
          some ⟨r, (longest s.mark earlier).1, (longest s.mark earlier).2⟩) ∧
      (∀ limit, laps.length < limit →
        Concludes r body s laps t (Parser.grownWithin limit r body s)) ∧
      (last ≤ s.mark + s.bound → Concludes r body s laps t (Parser.grown r body s)) := by
  have hseed : (s.seeded r).memo[(R.name r, s.mark)]? = some ⟨r, none, s.mark⟩ :=
    Std.HashMap.getElem?_insert_self
  obtain ⟨laps, t, hgrows, hexhausted⟩ := Grows.exhausts hends .start
  have hlength := hgrows.length_le_sub hends
  have hwithin (limit : Nat) (hlimit : laps.length < limit) :=
    hgrows.concludes hexhausted hbody hfresh hlimit
  refine ⟨laps, t, hgrows, hexhausted, Nat.succ_le_succ hlength, hgrows.ends_pairwise,
    fun earlier v h => h.entry hseed, hwithin, fun hfits => ?_⟩
  rw [grown_eq_within]
  exact hwithin _ (Nat.lt_succ_of_le (Nat.le_trans hlength (Nat.sub_le_iff_le_add'.mpr hfits)))

end Laps

/-! ### A rule that counts -/

/-- A single rule, whose matches are numbers. -/
def countingRules : RuleSet where
  Rule := Unit
  Node _ := Nat
  decEq := inferInstance
  name _ := "count"
  policy _ := .leftRecursive
  count := 1

/-- Matches one mark further than before, but not further than the third. -/
def countOn : Matcher countingRules (Option Nat) := do
  let _ ← Matcher.rule ()
  let reached ← Matcher.mark
  Matcher.reset (if reached < 3 then reached + 1 else 0)
  return some reached

def counting : Parse countingRules (Option Nat) :=
  Parser.exec (Parser.call ⟨fun _ => countOn⟩ 1) countOn

theorem counting_retains : Retains counting :=
  (exec_proceeds (call_proceeds _ 1) countOn).retains

theorem counting_eq {s : Session countingRules} {node : Option Nat} {stop : Mark}
    (h : s.memo[(countingRules.name (), s.mark)]? = some ⟨(), node, stop⟩) :
    ∃ u, counting s = .ok (some stop) u ∧ u.mark = if stop < 3 then stop + 1 else 0 := by
  obtain ⟨t, hrule, hmark⟩ : ∃ t, Parser.call ⟨fun _ => countOn⟩ 1 () s = .ok node t ∧
      t.mark = stop :=
    ⟨_, call_recalled 0 nofun h, rfl⟩
  have hrun : counting s =
      .ok (some t.mark) (t.reset (if t.mark < 3 then t.mark + 1 else 0)) := by
    refine (exec_call _ s () _).trans ?_
    rw [hrule]
    rfl
  rw [hmark] at hrun
  exact ⟨_, hrun, rfl⟩

/-- The rule that counts ends nowhere behind the third mark, and the growth of its match is as
described. -/
theorem counting_longest :
    let s : Session countingRules := .ofStream (.ofString "" Lexer.defaultTabSize) "" none
    Retains counting ∧ s.memo[(countingRules.name (), s.mark)]? = none ∧
      (∀ laps t node u, Grows () s.mark counting (s.seeded ()) laps t →
        counting (t.reset s.mark) = .ok (some node) u → u.mark ≤ 3) ∧
      ∃ laps t, Grows () s.mark counting (s.seeded ()) laps t ∧
        Exhausted s.mark counting laps t ∧ laps.length + 1 ≤ 3 - s.mark + 1 ∧
        Concludes () counting s laps t (Parser.grownWithin 4 () counting s) := by
  intro s
  have hfresh : s.memo[(countingRules.name (), s.mark)]? = none := Std.HashMap.getElem?_empty
  have hseed : (s.seeded ()).memo[(countingRules.name (), s.mark)]? = some ⟨(), none, s.mark⟩ :=
    Std.HashMap.getElem?_insert_self
  have hends : ∀ laps t node u, Grows () s.mark counting (s.seeded ()) laps t →
      counting (t.reset s.mark) = .ok (some node) u → u.mark ≤ 3 := by
    intro laps t node u hgrows hrun
    obtain ⟨u', hrun', hmark⟩ := counting_eq (s := t.reset s.mark) (hgrows.entry hseed)
    cases hrun'.symm.trans hrun
    rw [hmark]
    split
    case isTrue hfurther => exact hfurther
    case isFalse => exact Nat.zero_le 3
  obtain ⟨laps, t, hgrows, hexhausted, hlength, -, -, hconcludes, -⟩ :=
    grown_longest counting_retains hfresh hends
  exact ⟨counting_retains, hfresh, hends, laps, t, hgrows, hexhausted, hlength,
    hconcludes 4 (Nat.lt_of_succ_le hlength)⟩

end ShellSyntax
