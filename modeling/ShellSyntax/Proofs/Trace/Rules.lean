import ShellSyntax.Proofs.Parser.Messages
import ShellSyntax.Proofs.Trace.Recording

/-!
What rules and passes record. A rule that remembers is entered and left around its body, one that
grows notes each longer match in between, and the diagnosing pass starts with no rule being tried.
-/

namespace ShellSyntax

open Outcome TraceEvent

variable {R : RuleSet} {α : Type}

namespace Parser

/-- Aborts where a match ends before it starts. -/
def onward {r : R.Rule} (body : Parse R (Option (R.Node r))) : Parse R (Option (R.Node r)) :=
  fun s => follow (body s) fun node t =>
    if node.isSome && decide (t.mark < s.mark) then .error .endless t else .ok node t

/-- Remembers matches like the parser, as long as they go on. -/
def memoizedOnward : Keeper R := fun r body =>
  memoizedOr failing r (onward body)

end Parser

/-! ### Going on -/

section Onward

variable {p : Pass} {K : Ranking R} {G : Grammar R}

theorem memoizedOnward_keeps (hG : K.Governs G) (hnames : R.Distinguishes) :
    Keeps p K (p.world.answer G K) (Parser.memoizedOr Parser.failing) Parser.memoizedOnward := by
  intro r i reading body body' o depth n s hentry hlimit hclear hanswer hat hremembers hbody
  refine memoizedOr_keeps hnames Parser.failing Parser.failing r i reading body
    (Parser.onward body') o depth n s hentry hlimit hclear hanswer hat hremembers ?_
  intro o s hclear hat hremembers
  have hgoes (node : R.Node r) (j : Nat) (hread : reading.result = .ok (some node, j)) :
      i ≤ j := by
    have hmeets := World.answer_meets hG hentry hlimit
    refine (hmeets.of_ok (a := some node) (j := j) ?_).1.1
    rw [hanswer, Reading.settle, Reading.andThen, hread]
    rfl
  have hmark := hat.mark
  have hagrees := hbody o s hclear hat hremembers
  unfold Parser.onward
  generalize body s = run at hagrees ⊢
  generalize body' s = run' at hagrees ⊢
  cases hagrees with
  | @ok node j t hresult hat hremembers =>
    have hgoes : (node.isSome && decide (t.mark < s.mark)) = false := by
      cases node with
      | none => rfl
      | some node =>
        rw [Option.isSome_some, Bool.true_and, decide_eq_false_iff_not, hat.mark, hmark]
        exact Nat.not_lt.mpr (hgoes node j hresult)
    simp only [follow, hgoes, Bool.false_eq_true, if_false]
    exact .ok hresult hat hremembers
  | lexical hresult hstuck => exact .lexical hresult hstuck
  | fault hresult hfilled => exact .fault hresult hfilled
  | tooDeep hmessage hdepth => exact .tooDeep hmessage hdepth
  | endless hresult => exact .endless hresult

end Onward

/-! ### Rules -/

section Rules

variable {r : R.Rule} {i : Nat} {s : Session R} {body : Parse R (Option (R.Node r))}

theorem onward_spells (hbody : Spells body s) : Spells (Parser.onward body) s := by
  let settle (node : Option (R.Node r)) : Parse R (Option (R.Node r)) := fun t =>
    if node.isSome && decide (t.mark < s.mark) then .error .endless t else .ok node t
  have hsettle (node : Option (R.Node r)) (t : Session R) : Spells (settle node) t := by
    by_cases hback : (node.isSome && decide (t.mark < s.mark)) = true
    · exact (Spells.error .endless).congr fun trace => if_pos hback
    · exact (Spells.pure node).congr fun trace => if_neg hback
  exact (hbody.follow fun node t _ => hsettle node t).congr fun trace => rfl

theorem onward_le {node : Option (R.Node r)} {t : Session R}
    (h : Parser.onward body s = .ok node t) (hnode : node.isSome = true) : s.mark ≤ t.mark := by
  unfold Parser.onward follow at h
  split at h
  case h_1 node' t' _ =>
    dsimp only at h
    split at h
    case isTrue => cases h
    case isFalse hgoes =>
      cases h
      rw [hnode, Bool.true_and, decide_eq_true_eq] at hgoes
      exact Nat.le_of_not_lt hgoes
  case h_2 => cases h

theorem lookup_missed_eq {t : Session R} (h : Parser.lookup? r i s = .ok none t) : t = s := by
  unfold Parser.lookup? at h
  split at h
  case h_1 =>
    cases h
    rfl
  case h_2 =>
    split at h <;> cases h

/-- The rule is being tried at `i`. -/
def Session.trying (r : R.Rule) (i : Mark) (s : Session R) : Session R :=
  { s with active := s.active.insert (R.name r, i) }

def Session.tried (r : R.Rule) (i : Mark) (s : Session R) : Session R :=
  { s with active := s.active.erase (R.name r, i) }

def Session.settled (r : R.Rule) (i : Mark) (node : Option (R.Node r)) (s : Session R) :
    Session R :=
  let s := if node.isSome then s.tried r i else (s.tried r i).reset i
  Parser.remember r i node s.mark s

theorem spells_of_lookup {m k : Parse R (Option (R.Node r))}
    (hrun : ∀ trace, m (s.withTrace trace) =
      follow (Parser.lookup? r i (s.withTrace trace)) fun found s =>
        found.elim (k s) fun node => .ok node s)
    (hk : Spells k s) : Spells m s := by
  refine (lookup_spells.follow fun found t hfound => ?_).congr hrun
  cases found with
  | some node => exact .pure node
  | none =>
    obtain rfl := lookup_missed_eq hfound
    exact hk

/-- A rule is entered and left around what is run inside it. -/
def entered (r : R.Rule) (i : Mark) (inner : Parse R (Option (R.Node r))) :
    Parse R (Option (R.Node r)) := fun s =>
  follow (inner (Parser.enterRule r i s)) fun node t =>
    .ok node (Parser.leaveRule r i node.isSome t)

/-- The body of a rule, run once with the rule marked as being tried. A failure goes back to `i`,
and the result is kept. -/
def tryOnce (r : R.Rule) (i : Mark) (body : Parse R (Option (R.Node r))) :
    Parse R (Option (R.Node r)) :=
  around (Session.trying r i) (Session.tried r i) id (Session.settled r i) body

/-- A rule that is being tried already fails. -/
def tryUnlessActive (r : R.Rule) (i : Mark) (body : Parse R (Option (R.Node r))) :
    Parse R (Option (R.Node r)) := fun s =>
  if s.active.contains (R.name r, i) then .ok none s else entered r i (tryOnce r i body) s

theorem memoized_unfold (hmark : s.mark = i) : Parser.memoized r body s =
    follow (Parser.lookup? r i s) fun found t =>
      found.elim (tryUnlessActive r i body t) fun node => .ok node t := by
  subst hmark
  simp only [Parser.memoized, run_bind, run_get]
  cases Parser.lookup? r s.mark s with
  | error e t => rfl
  | ok found t =>
    cases found with
    | some node => rfl
    | none =>
      have htrying : Parser.enterRule r s.mark
            { t with active := t.active.insert (R.name r, s.mark) } =
          Session.trying r s.mark (Parser.enterRule r s.mark t) := rfl
      simp only [follow, Option.elim_none, tryUnlessActive, entered, tryOnce, around, htrying]
      split
      case isTrue => rfl
      case isFalse => cases body (Session.trying r s.mark (Parser.enterRule r s.mark t)) <;> rfl

theorem memoizedOnward_eq (hmark : s.mark = i) : Parser.memoizedOnward r body s =
    follow (Parser.lookup? r i s) fun found t =>
      found.elim (tryUnlessActive r i (Parser.onward body) t) fun node => .ok node t := by
  rw [Parser.memoizedOnward, ← Parser.memoized_eq]
  exact memoized_unfold hmark

theorem tryOnce_spells (hbody : Spells body (s.trying r i)) : Spells (tryOnce r i body) s := by
  refine .around ⟨fun _ _ => rfl, fun _ => rfl⟩ ⟨fun _ _ => rfl, fun _ => rfl⟩ (fun node => ?_)
    hbody
  cases node <;> exact ⟨fun _ _ => rfl, fun _ => rfl⟩

theorem tryOnce_settled {node : Option (R.Node r)} {t : Session R} (hmark : s.mark = i)
    (h : tryOnce r i (Parser.onward body) (Parser.enterRule r i s) = .ok node t) :
    i ≤ t.mark ∧ (node.isSome = false → t.mark = i) := by
  obtain ⟨node, u, hbody, rfl, rfl⟩ := of_around h
  cases node with
  | none => exact ⟨Nat.le_refl _, fun _ => rfl⟩
  | some node =>
    have hle := onward_le hbody rfl
    exact ⟨Nat.le_trans (Nat.le_of_eq hmark.symm) hle, fun hnone => by cases hnone⟩

theorem memoized_spells (hbody : ∀ s, Spells body s) :
    Spells (Parser.memoizedOnward r body) s := by
  refine spells_of_lookup (i := s.mark) (k := tryUnlessActive r s.mark (Parser.onward body))
    (fun trace => memoizedOnward_eq rfl) ?_
  by_cases hactive : s.active.contains (R.name r, s.mark)
  · exact (Spells.pure none).congr fun trace => if_pos hactive
  · have hentered : Notes r s.mark s.level s.mark (tryOnce r s.mark (Parser.onward body))
        (Parser.enterRule r s.mark s) := .of_spells (tryOnce_spells (onward_spells (hbody _))) rfl
    exact (hentered.spells fun _ _ => tryOnce_settled rfl).congr fun trace => if_neg hactive

/-! ### Growing -/

variable {best : Option (R.Node r) × Mark}

/-- A longest match ends behind its mark, and a failure there. -/
def Settled (i : Nat) (best : Option (R.Node r) × Mark) : Prop :=
  i ≤ best.2 ∧ (best.1.isSome = false → best.2 = i)

def grew (r : R.Rule) (i : Nat) (node : Option (R.Node r)) (s : Session R) : Session R :=
  Parser.remember r i node s.mark
    (Session.note { s with stats := { s.stats with growSteps := s.stats.growSteps + 1 } }
      (.grow (R.name r) i s.mark s.level))

theorem grow_succ (fuel : Nat) (s : Session R) :
    Parser.grow r i body (fuel + 1) best s = follow (body (s.reset i)) fun node t =>
      if node.isNone || decide (t.mark ≤ best.2) then .ok best t
      else Parser.grow r i body fuel (node, t.mark) (grew r i node t) := by
  simp only [Parser.grow, follow]
  cases body (s.reset i) <;> rfl

theorem grow_settled {fuel : Nat} {best' : Option (R.Node r) × Mark} {t : Session R}
    (hbest : Settled i best) (h : Parser.grow r i body fuel best s = .ok best' t) :
    Settled i best' := by
  induction fuel generalizing best s with
  | zero => cases h
  | succ fuel induction =>
    rw [grow_succ] at h
    cases hbody : body (s.reset i) with
    | error e u =>
      rw [hbody] at h
      cases h
    | ok node u =>
      rw [hbody] at h
      simp only [follow] at h
      split at h
      case isTrue =>
        cases h
        exact hbest
      case isFalse hgrows =>
        simp only [Bool.or_eq_true, decide_eq_true_eq, not_or] at hgrows
        refine induction ⟨?_, fun hnone => ?_⟩ h
        · exact Nat.le_trans hbest.1 (Nat.le_of_not_le hgrows.2)
        · exact absurd (Option.isSome_eq_false_iff.mp hnone) hgrows.1

theorem Notes.grew {α : Type} {depth reached : Nat} {node : Option (R.Node r)} {m : Parse R α}
    (hm : Notes r i depth s.mark m (grew r i node s)) (hlevel : s.level = depth + 1)
    (hgrows : reached < s.mark) :
    Notes r i depth reached (fun s => m (grew r i node s)) s := by
  obtain ⟨events, hrecords, hinside⟩ := hm
  have hnoted (index entered : Nat) (outer : List Trial) (houter : outer.length = depth) :
      replayAll index (⟨R.name r, i, reached, entered⟩ :: outer)
          (.grow (R.name r) i s.mark s.level :: events) =
        replayAll (index + 1) (⟨R.name r, i, s.mark, entered⟩ :: outer) events := by
    simp [replayAll, replay, hlevel, houter, hgrows]
  refine ⟨.grow (R.name r) i s.mark s.level :: events, .after (fun trace => ?_) hrecords, ?_,
    hinside.level, ?_, ?_⟩
  · cases trace <;> rfl
  · simp [hinside.within]
  · intro a t hrun index entered outer houter
    rw [hnoted index entered outer houter]
    exact hinside.leaves a t hrun _ _ _ houter
  · intro index entered outer houter
    rw [hnoted index entered outer houter]
    exact hinside.fits _ _ _ houter

theorem lap_notes {depth fuel : Nat} {node : Option (R.Node r)}
    (best : Option (R.Node r) × Mark) (hlevel : s.level = depth + 1)
    (hgrow : Notes r i depth s.mark (Parser.grow r i body fuel (node, s.mark)) (grew r i node s)) :
    Notes r i depth best.2 (fun s =>
      if node.isNone || decide (s.mark ≤ best.2) then .ok best s
      else Parser.grow r i body fuel (node, s.mark) (grew r i node s)) s := by
  by_cases hstops : (node.isNone || decide (s.mark ≤ best.2)) = true
  · exact (Notes.of_spells (Spells.pure best) hlevel).congr fun trace => if_pos hstops
  · have hgrows : best.2 < s.mark := by
      simp only [Bool.or_eq_true, decide_eq_true_eq, not_or] at hstops
      exact Nat.lt_of_not_le hstops.2
    exact (hgrow.grew hlevel hgrows).congr fun trace => if_neg hstops

theorem grow_notes {depth : Nat} (hbody : ∀ s, Spells body s) (fuel : Nat)
    (hlevel : s.level = depth + 1) :
    Notes r i depth best.2 (Parser.grow r i body fuel best) s := by
  induction fuel generalizing best s with
  | zero => exact .of_spells (.error .endless) hlevel
  | succ fuel induction =>
    have hback : Apart fun s : Session R => s.reset i := ⟨fun _ _ => rfl, fun _ => rfl⟩
    have hreset : Spells (fun s => body (s.reset i)) s := .before hback (hbody _)
    rw [funext (grow_succ fuel)]
    exact .follow hreset hlevel fun node t _ ht => lap_notes best ht (induction ht)

def Session.startGrowing (r : R.Rule) (i : Mark) (s : Session R) : Session R :=
  let s := Parser.remember r i none i s
  { s with growing := s.growing + 1 }

def Session.stopGrowing (s : Session R) : Session R :=
  { s with growing := s.growing - 1 }

/-- The longest match of a rule at `i`, with the rule marked as growing. The parse goes on behind
it. -/
def tryGrowing (r : R.Rule) (i : Mark) (body : Parse R (Option (R.Node r))) (fuel : Nat) :
    Parse R (Option (R.Node r)) :=
  around (Session.startGrowing r i) Session.stopGrowing Prod.fst
    (fun best s => s.stopGrowing.reset best.2) (Parser.grow r i body fuel (none, i))

theorem grown_eq (hmark : s.mark = i) : Parser.grown r body s =
    follow (Parser.lookup? r i s) fun found t =>
      found.elim (entered r i (tryGrowing r i body (t.bound + 1)) t) fun node => .ok node t := by
  subst hmark
  simp only [Parser.grown, run_bind, run_get]
  cases Parser.lookup? r s.mark s with
  | error e t => rfl
  | ok found t =>
    cases found with
    | some node => rfl
    | none =>
      have hgrow : Parser.grow r s.mark body
            ((Parser.remember r s.mark none s.mark (Parser.enterRule r s.mark t)).bound + 1)
            (none, s.mark) =
          Parser.grow r s.mark body (t.bound + 1) (none, s.mark) := rfl
      have hstarted : { Parser.remember r s.mark none s.mark (Parser.enterRule r s.mark t) with
            growing := (Parser.remember r s.mark none s.mark
              (Parser.enterRule r s.mark t)).growing + 1 } =
          Session.startGrowing r s.mark (Parser.enterRule r s.mark t) := rfl
      simp only [follow, Option.elim_none, entered, tryGrowing, around, hgrow, hstarted]
      cases Parser.grow r s.mark body (t.bound + 1) (none, s.mark)
        (Session.startGrowing r s.mark (Parser.enterRule r s.mark t)) <;> rfl

theorem tryGrowing_notes (hbody : ∀ s, Spells body s) (fuel : Nat) :
    Notes r i s.level i (tryGrowing r i body fuel) (Parser.enterRule r i s) :=
  .around ⟨fun _ _ => rfl, fun _ => rfl⟩ ⟨fun _ _ => rfl, fun _ => rfl⟩
    (fun _ => ⟨fun _ _ => rfl, fun _ => rfl⟩) (grow_notes hbody fuel rfl)

theorem tryGrowing_settled {fuel : Nat} {node : Option (R.Node r)} {t : Session R}
    (h : tryGrowing r i body fuel s = .ok node t) :
    i ≤ t.mark ∧ (node.isSome = false → t.mark = i) := by
  obtain ⟨best, u, hgrow, rfl, rfl⟩ := of_around h
  exact grow_settled ⟨Nat.le_refl _, fun _ => rfl⟩ hgrow

theorem grown_spells (hbody : ∀ s, Spells body s) : Spells (Parser.grown r body) s := by
  have hgrown : Notes r s.mark s.level s.mark (tryGrowing r s.mark body (s.bound + 1))
      (Parser.enterRule r s.mark s) := tryGrowing_notes hbody _
  refine spells_of_lookup (i := s.mark) (fun trace => grown_eq rfl) ?_
  exact (hgrown.spells fun _ _ => tryGrowing_settled).congr fun trace => rfl

end Rules

/-! ### Passes -/

section Passes

variable {G : Grammar R} {r : R.Rule} {s : Session R}

theorem callWith_spells (fuel : Nat) (r : R.Rule) (s : Session R) :
    Spells (Parser.callWith Parser.memoizedOnward G fuel r) s := by
  induction fuel generalizing r s with
  | zero => exact .error .endless
  | succ fuel induction =>
    have hbody := fun s => exec_spells (s := s) induction (G.body r)
    simp only [Parser.callWith]
    cases R.policy r with
    | direct => exact hbody s
    | packrat => exact memoized_spells hbody
    | leftRecursive => exact grown_spells hbody

theorem runRuleWith_spells (r : R.Rule) (s : Session R) :
    Spells (Parser.runRuleWith Parser.memoizedOnward G r) s :=
  (callWith_spells (Parser.callDepth s) r s).congr fun _ => rfl

/-- The outcome of a parse, but with this record. -/
def withRecord {result : Type} (trace : Option TraceLog) (outcome : result × Session R) :
    result × Session R :=
  (outcome.1, outcome.2.withTrace trace)

theorem report_withTrace (abort : Abort) (s : Session R) (trace : Option TraceLog) :
    Parser.report abort (s.withTrace trace) = withRecord trace (Parser.report abort s) := by
  cases abort <;> rfl

/-- A parse from any record adds the same events to it and does otherwise the same. The events are
bracketed, with one new pass at most, and every rule has been left unless the parse is aborted. -/
structure Transcript (G : Grammar R) (entry : R.Rule) (s : Session R)
    (events : List TraceEvent) : Prop where
  records : ∀ trace, Parser.parseWith Parser.memoizedOnward G entry (s.withTrace trace) =
    withRecord (trace.map (·.pushAll events))
      (Parser.parseWith Parser.memoizedOnward G entry s)
  once : events.count .secondPass ≤ 1
  fits : (replayAll 0 [] events).isSome
  empty : ¬Aborts Parser.memoizedOnward G entry s → replayAll 0 [] events = some []

theorem parseWith_records {entry : R.Rule} {events : List TraceEvent}
    (hrecords : Records (Parser.runRuleWith Parser.memoizedOnward G entry) s events)
    (hlast : ∀ t, Parser.runRuleWith Parser.memoizedOnward G entry s ≠ .ok none t)
    (trace : Option TraceLog) :
    Parser.parseWith Parser.memoizedOnward G entry (s.withTrace trace) =
      withRecord (trace.map (·.pushAll events))
        (Parser.parseWith Parser.memoizedOnward G entry s) := by
  unfold Parser.parseWith
  rw [hrecords trace]
  cases hrun : Parser.runRuleWith Parser.memoizedOnward G entry s with
  | error abort t => simp only [recorded, report_withTrace, withRecord]
  | ok found t =>
    cases found with
    | some tree => simp only [recorded, withRecord]
    | none => exact absurd hrun (hlast t)

theorem parseWith_records_again {entry : R.Rule} {events later : List TraceEvent} {t : Session R}
    (hrecords : Records (Parser.runRuleWith Parser.memoizedOnward G entry) s events)
    (hrun : Parser.runRuleWith Parser.memoizedOnward G entry s = .ok none t)
    (hlater : Records (Parser.runRuleWith Parser.memoizedOnward G entry) (Parser.secondPass t)
      later) (trace : Option TraceLog) :
    Parser.parseWith Parser.memoizedOnward G entry (s.withTrace trace) =
      withRecord (trace.map (·.pushAll (events ++ .secondPass :: later)))
        (Parser.parseWith Parser.memoizedOnward G entry s) := by
  have hnext (trace : Option TraceLog) : Parser.secondPass (t.withTrace trace) =
      (Parser.secondPass t).withTrace (trace.map (·.pushAll [.secondPass])) := by
    cases trace <;> rfl
  have hsecond := hlater ((trace.map (·.pushAll events)).map (·.pushAll [.secondPass]))
  rw [← map_pushAll_append, ← map_pushAll_append, List.append_assoc] at hsecond
  simp only [Parser.parseWith, hrecords trace, hrun, recorded, hnext, ← map_pushAll_append]
  rw [hsecond]
  cases Parser.runRuleWith Parser.memoizedOnward G entry (Parser.secondPass t) with
  | ok found u => rfl
  | error abort u => simp only [recorded, report_withTrace]; rfl

theorem exists_transcript (G : Grammar R) (entry : R.Rule) (hlevel : s.level = 0) :
    ∃ events, Transcript G entry s events := by
  obtain ⟨events, hrecords, hbracketed⟩ := runRuleWith_spells (G := G) entry s
  have honce : events.count .secondPass = 0 := List.count_eq_zero.mpr hbracketed.within
  have hfits := hbracketed.fits 0 [] hlevel.symm
  cases hrun : Parser.runRuleWith Parser.memoizedOnward G entry s with
  | error abort t =>
    refine ⟨events, parseWith_records hrecords (by simp [hrun]), by omega, hfits, fun hends => ?_⟩
    exact absurd (.inl ⟨abort, t, hrun⟩) hends
  | ok found t =>
    have hleaves := hbracketed.leaves found t hrun 0 [] hlevel.symm
    cases found with
    | some tree =>
      exact ⟨events, parseWith_records hrecords (by simp [hrun]), by omega, hfits,
        fun _ => hleaves⟩
    | none =>
      let next := Parser.secondPass t
      obtain ⟨later, hlater, hnested⟩ := runRuleWith_spells (G := G) entry next
      have hreplay (index : Nat) (rest : List TraceEvent) :
          replayAll 0 [] (events ++ .secondPass :: rest) =
            replayAll (0 + events.length + 1) [] rest := by
        rw [replayAll_append, hleaves]
        rfl
      refine ⟨events ++ .secondPass :: later, parseWith_records_again hrecords hrun hlater, ?_, ?_,
        fun hends => ?_⟩
      · simp [List.count_append, honce, List.count_eq_zero.mpr hnested.within]
      · rw [hreplay 0 later]
        exact hnested.fits _ [] rfl
      · rw [hreplay 0 later]
        cases hsecond : Parser.runRuleWith Parser.memoizedOnward G entry next with
        | ok found u => exact hnested.leaves found u hsecond _ [] rfl
        | error abort u => exact absurd (.inr ⟨t, hrun, abort, u, hsecond⟩) hends

end Passes

end ShellSyntax
