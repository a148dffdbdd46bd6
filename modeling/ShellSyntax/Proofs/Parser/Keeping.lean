import ShellSyntax.Proofs.Parser.Agreement

/-!
Keeping the results of rules. However a parser keeps them, it answers what the rules read, as long
as no rule is tried again where it is already being tried.
-/

namespace ShellSyntax

open Outcome

variable {R : RuleSet}

/-- How a rule with this body is run. -/
abbrev Keeper (R : RuleSet) :=
  (r : R.Rule) → Parse R (Option (R.Node r)) → Parse R (Option (R.Node r))

namespace Parser

/-- Runs a rule once at each mark. Where the rule is already being tried `reentered` is done. -/
def memoizedOr (reentered : (r : R.Rule) → Parse R (Option (R.Node r))) : Keeper R :=
  fun rule body => do
    let mark := (← get).mark
    match ← lookup? rule mark with
    | some node => return node
    | none => fun s =>
      let key := (R.name rule, mark)
      if s.active.contains key then reentered rule s
      else
        match body (enterRule rule mark { s with active := s.active.insert key }) with
        | .error e s => .error e { s with active := s.active.erase key }
        | .ok node s =>
          let s := { s with active := s.active.erase key }
          let s := if node.isSome then s else s.reset mark
          .ok node (leaveRule rule mark node.isSome (remember rule mark node s.mark s))

/-- Runs a rule each time anew; the stream goes back where it fails. -/
def unmemoized : Keeper R := fun _ body => do
  let mark := (← get).mark
  let node ← body
  if node.isNone then modify fun s => s.reset mark
  return node

/-- Runs a rule; the results of those that are remembered are kept as `keep` says. -/
def callWith (keep : Keeper R) (G : Grammar R) :
    (fuel : Nat) → (rule : R.Rule) → Parse R (Option (R.Node rule))
  | 0, _ => throw .endless
  | fuel + 1, rule =>
    let body := exec (callWith keep G fuel) (G.body rule)
    match R.policy rule with
    | .direct => body
    | .packrat => keep rule body
    | .leftRecursive => grown rule body

def runRuleWith (keep : Keeper R) (G : Grammar R) (rule : R.Rule) :
    Parse R (Option (R.Node rule)) := do
  callWith keep G (callDepth (← get)) rule

/-- Parses, keeping the results of rules as `keep` says. -/
def parseWith (keep : Keeper R) (G : Grammar R) (entry : R.Rule) (s : Session R) :
    Except SyntaxError (R.Node entry) × Session R :=
  match runRuleWith keep G entry s with
  | .ok (some tree) s => (.ok tree, s)
  | .error abort s =>
    let (error, s) := report abort s
    (.error error, s)
  | .ok none s =>
    let diagnosis := s.stream.furthest
    match runRuleWith keep G entry (secondPass s) with
    | .error abort s =>
      let (error, s) := report abort s
      (.error error, s)
    | .ok _ s => (.error (invalidSyntax s.filename diagnosis), s)

/-- The parser fails where a rule is already being tried. -/
def failing (r : R.Rule) : Parse R (Option (R.Node r)) :=
  fun s => .ok none s

theorem memoized_eq : (memoized : Keeper R) = memoizedOr failing :=
  rfl

theorem call_eq (G : Grammar R) : call G = callWith memoized G := by
  funext fuel
  induction fuel with
  | zero => rfl
  | succ fuel ih =>
    funext rule
    cases hpolicy : R.policy rule <;> simp only [call, callWith, ih, hpolicy]

theorem parse_eq (G : Grammar R) (entry : R.Rule) (s : Session R) :
    parse G entry s = parseWith memoized G entry s := by
  simp only [parse, runRule, call_eq]
  rfl

end Parser

variable {p : Pass} {answers : Callee R} {o : Tried R} {K : Ranking R} {depth n i : Nat}
  {r : R.Rule} {s : Session R}

theorem Pass.At.mark (hat : p.At depth n i s) : s.mark = i := by
  obtain ⟨t, reads, _, hstream⟩ := hat.stream
  rw [Session.mark, hstream]
  rfl

theorem Pass.At.bound (hat : p.At depth n i s) : s.bound = p.world.bound := by
  obtain ⟨t, reads, hfilled, hstream⟩ := hat.stream
  rw [Session.bound, hstream]
  exact (p.fresh.filled hfilled).bound

theorem Pass.At.reset (hat : p.At depth n i s) {j : Nat} (hj : j ≤ n) :
    p.At depth n j (s.reset j) := by
  obtain ⟨t, reads, hfilled, hstream⟩ := hat.stream
  refine ⟨⟨t, reads, hfilled, ?_⟩, hj, hat.filename, hat.diagnosing, hat.nesting⟩
  simp only [Session.reset, hstream]
  rfl

/-! ### Looking up -/

section Lookup

variable {node : Option (R.Node r)} {stop : Nat}

theorem lookup_missed (h : s.memo[(R.name r, i)]? = none) : Parser.lookup? r i s = .ok none s := by
  simp only [Parser.lookup?, h]

theorem lookup_found (h : s.memo[(R.name r, i)]? = some ⟨r, node, stop⟩) (hstop : stop ≤ n)
    (hat : p.At depth n i s) :
    ∃ s', Parser.lookup? r i s = .ok (some node) s' ∧ p.At depth n stop s' ∧
      s'.memo = s.memo ∧ s'.active = s.active := by
  let counted : Session R := { s with stats := { s.stats with hits := s.stats.hits + 1 } }
  let noted := counted.note (.memo (R.name r) i stop node.isSome s.level)
  have hrun : Parser.lookup? r i s = .ok (some node) (noted.reset stop) := by
    simp only [Parser.lookup?, h, dif_pos]
    rfl
  have hnoted : p.At depth n i noted :=
    ⟨hat.stream, hat.le, hat.filename, hat.diagnosing, hat.nesting⟩
  exact ⟨noted.reset stop, hrun, hnoted.reset hstop, rfl, rfl⟩

end Lookup

theorem Remembers.recalls (hremembers : Remembers answers o n s.memo s.active)
    (hclear : o.Clear K r i) (hat : p.At depth n i s) :
    Parser.lookup? r i s = .ok none s ∨
      ∃ node s', Parser.lookup? r i s = .ok (some node) s' ∧
        Agrees p answers o depth n (answers r i) (.ok node s') (.ok node s') := by
  cases hentry : s.memo[(R.name r, i)]? with
  | none => exact .inl (lookup_missed hentry)
  | some entry =>
    right
    obtain ⟨node, stop, rfl, hresult, hreach, hstop⟩ :=
      hremembers.memo r i entry hentry hclear.seed_none
    obtain ⟨s', hfound, hat', hmemo, hactive⟩ := lookup_found hentry hstop hat
    have hmax := Nat.max_eq_left hreach
    refine ⟨node, s', hfound, .ok hresult (hmax.symm ▸ hat') ?_⟩
    rwa [hmax, hmemo, hactive]

/-! ### Trying rules -/

namespace Tried

variable {W : World} {r' : R.Rule} {j : Nat}

theorem Clear.enter_inside (h : o.Clear K r i) (hinside : K.Inside W r i r' j) :
    (o.enter r i).Clear K r' j := by
  rintro r₀ j₀ (hseed | hbusy | ⟨rfl, rfl⟩)
  · exact h.inside hinside r₀ j₀ (.inl hseed)
  · exact h.inside hinside r₀ j₀ (.inr hbusy)
  · exact hinside.2.2

theorem grow_self {best : Option (R.Node r) × Nat} : (o.grow r i best).seed r i = some best := by
  simp [grow]

theorem grow_other {best : Option (R.Node r) × Nat} (h : r' = r → j ≠ i) :
    (o.grow r i best).seed r' j = o.seed r' j := by
  simp only [grow]
  split
  case isTrue heq =>
    subst heq
    rw [if_neg (h rfl)]
  case isFalse => rfl

theorem grow_grow {best best' : Option (R.Node r) × Nat} :
    (o.grow r i best).grow r i best' = o.grow r i best' := by
  simp only [grow]
  congr 1
  funext r' j
  by_cases hr : r = r'
  · by_cases hj : j = i
    · simp only [hr, hj, dif_pos, if_pos]
    · simp only [hr, hj, dif_pos, if_false]
  · simp only [hr, dif_neg, not_false_eq_true]

theorem Clear.grow_inside {best : Option (R.Node r) × Nat} (h : o.Clear K r i)
    (hinside : K.Inside W r i r' j) : (o.grow r i best).Clear K r' j := by
  rintro r₀ j₀ htried
  by_cases hsame : r₀ = r ∧ j₀ = i
  · obtain ⟨rfl, rfl⟩ := hsame
    exact hinside.2.2
  · rw [grow_other fun hr hj => hsame ⟨hr, hj⟩] at htried
    exact h.inside hinside r₀ j₀ htried

end Tried

/-- Rules are remembered under different names. -/
def RuleSet.Distinguishes (R : RuleSet) : Prop :=
  ∀ r r', R.name r = R.name r' → r = r'

theorem getElem_remembered {memo : Std.HashMap (String × Mark) (Remembered R)}
    (hnames : R.Distinguishes) {entry entry' : Remembered R} {r' : R.Rule} {j : Nat}
    (h : (memo.insert (R.name r, i) entry)[(R.name r', j)]? = some entry') :
    (r' = r ∧ j = i ∧ entry' = entry) ∨
      ((r' = r → j ≠ i) ∧ memo[(R.name r', j)]? = some entry') := by
  rw [Std.HashMap.getElem?_insert] at h
  split at h
  case isTrue hkey =>
    obtain ⟨hname, rfl⟩ := Prod.mk.inj (beq_iff_eq.mp hkey)
    exact .inl ⟨(hnames _ _ hname).symm, rfl, (Option.some.inj h).symm⟩
  case isFalse hkey =>
    refine .inr ⟨?_, h⟩
    rintro rfl rfl
    exact hkey (beq_self_eq_true _)

theorem Remembers.enter {memo : Std.HashMap (String × Mark) (Remembered R)}
    {active : Std.HashSet (String × Mark)} (h : Remembers answers o n memo active)
    (hnames : R.Distinguishes) (r : R.Rule) (i : Nat) :
    Remembers answers (o.enter r i) n memo (active.insert (R.name r, i)) where
  seed := h.seed
  memo := h.memo
  active r' j hactive := by
    rcases Std.HashSet.mem_insert.mp hactive with hkey | hactive
    · obtain ⟨hname, rfl⟩ := Prod.mk.inj (beq_iff_eq.mp hkey)
      exact .inr ⟨(hnames _ _ hname).symm, rfl⟩
    · exact .inl (h.active r' j hactive)

theorem Remembers.remember {memo : Std.HashMap (String × Mark) (Remembered R)}
    {active : Std.HashSet (String × Mark)} {node : Option (R.Node r)} {stop : Nat}
    (h : Remembers answers (o.enter r i) n memo active) (hnames : R.Distinguishes)
    (hseed : o.seed r i = none) (hresult : (answers r i).result = .ok (node, stop))
    (hreach : (answers r i).reach ≤ n) (hstop : stop ≤ n) :
    Remembers answers o n (memo.insert (R.name r, i) ⟨r, node, stop⟩)
      (active.erase (R.name r, i)) where
  seed r' j best hbest := by
    have hother : ¬((R.name r, i) == (R.name r', j)) := by
      intro hkey
      obtain ⟨hname, rfl⟩ := Prod.mk.inj (beq_iff_eq.mp hkey)
      cases hnames _ _ hname
      cases hseed.symm.trans hbest
    rw [Std.HashMap.getElem?_insert, if_neg hother]
    exact h.seed r' j best hbest
  memo r' j entry hentry hnone := by
    rcases getElem_remembered hnames hentry with ⟨rfl, rfl, rfl⟩ | ⟨_, hentry⟩
    · exact ⟨node, stop, rfl, hresult, hreach, hstop⟩
    · exact h.memo r' j entry hentry hnone
  active r' j hactive := by
    obtain ⟨hkey, hactive⟩ := Std.HashSet.mem_erase.mp hactive
    rcases h.active r' j hactive with hbusy | ⟨rfl, rfl⟩
    · exact hbusy
    · simp at hkey

/-! ### Keepers -/

/-- Two runs of a body agree, whatever is being tried but for the rules that it may call. -/
def BodyAgrees (p : Pass) (K : Ranking R) (answers : Callee R) (depth n : Nat) (r : R.Rule)
    (i : Nat) (reading : Reading (Option (R.Node r)))
    (body body' : Parse R (Option (R.Node r))) : Prop :=
  ∀ (o : Tried R) (s : Session R), (∀ r' j, K.Inside p.world r i r' j → o.Clear K r' j) →
    p.At depth n i s → Remembers answers o n s.memo s.active →
    Agrees p answers o depth n reading (body s) (body' s)

/-- Where a rule is not being tried, both keepers answer what it reads. -/
def Keeps (p : Pass) (K : Ranking R) (answers : Callee R) (keep keep' : Keeper R) : Prop :=
  ∀ r i reading body body' o depth n (s : Session R), K.isEntry r = false →
    i ≤ p.world.limit → o.Clear K r i → answers r i = Reading.settle i reading →
    p.At depth n i s →
    Remembers answers o n s.memo s.active →
    BodyAgrees p K answers depth n r i reading body body' →
    Agrees p answers o depth n (answers r i) (keep r body s) (keep' r body' s)

theorem memoizedOr_keeps (hnames : R.Distinguishes)
    (reentered reentered' : (r : R.Rule) → Parse R (Option (R.Node r))) :
    Keeps p K answers (Parser.memoizedOr reentered) (Parser.memoizedOr reentered') := by
  intro r i reading body body' o depth n s _ _ hclear hanswer hat hremembers hbody
  have hmark := hat.mark
  rcases hremembers.recalls hclear hat with hmissed | ⟨node, s', hfound, hagrees⟩
  · have hfree : ¬s.active.contains (R.name r, i) := fun hactive =>
      hclear.not_busy (hremembers.active r i (Std.HashSet.mem_iff_contains.mpr hactive))
    let entered : Session R :=
      Parser.enterRule r i { s with active := s.active.insert (R.name r, i) }
    let left (s : Session R) : Session R := { s with active := s.active.erase (R.name r, i) }
    have hrun : ∀ reentered body, Parser.memoizedOr reentered r body s =
        follow (onError left (body entered)) fun node s =>
          let s := if node.isSome then left s else (left s).reset i
          .ok node (Parser.leaveRule r i node.isSome (Parser.remember r i node s.mark s)) := by
      intro reentered body
      simp only [Parser.memoizedOr, run_bind, run_get,
        hmark, hmissed]
      rw [if_neg hfree]
      simp only [follow, onError, entered, left]
      cases body _ <;> rfl
    have hentered : Remembers answers (o.enter r i) n entered.memo entered.active :=
      hremembers.enter hnames r i
    have hbodies := hbody (o.enter r i) entered (fun r' j hinside => hclear.enter_inside hinside)
      ⟨hat.stream, hat.le, hat.filename, hat.diagnosing, hat.nesting⟩ hentered
    rw [hrun, hrun, hanswer]
    have hcleaned : Agrees p answers (o.enter r i) depth n reading
        (onError left (body entered)) (onError left (body' entered)) :=
      hbodies.onError (fun _ => rfl) fun _ => rfl
    refine hcleaned.andThen ?_
    intro node j s' hresult hat' hremembers'
    let stop := if node.isSome then j else i
    have hleft : p.At depth (max n reading.reach) j (left s') :=
      ⟨hat'.stream, hat'.le, hat'.filename, hat'.diagnosing, hat'.nesting⟩
    have hsettled : p.At depth (max n reading.reach) stop
        (if node.isSome then left s' else (left s').reset i) := by
      cases node with
      | none => exact hleft.reset (Nat.le_trans hat.le (Nat.le_max_left _ _))
      | some node => exact hleft
    have hanswered : (answers r i).result = .ok (node, stop) ∧
        (answers r i).reach = reading.reach := by
      rw [hanswer, Reading.settle, Reading.andThen, hresult]
      exact ⟨rfl, Nat.max_zero _⟩
    have hkept := hremembers'.remember hnames hclear.seed_none hanswered.1
      (hanswered.2 ▸ Nat.le_max_right _ _) hsettled.le
    generalize hdone : (if node.isSome then left s' else (left s').reset i) = done at hsettled
    have hmemo : done.memo = s'.memo ∧ done.active = s'.active.erase (R.name r, i) := by
      subst hdone
      cases node <;> exact ⟨rfl, rfl⟩
    dsimp only
    rw [hsettled.mark]
    refine .of_pure ⟨hsettled.stream, hsettled.le, hsettled.filename, hsettled.diagnosing,
      hsettled.nesting⟩ ?_
    simpa only [Parser.leaveRule, Parser.remember, Session.note, hmemo] using hkept
  · have hrun : ∀ reentered body, Parser.memoizedOr reentered r body s = .ok node s' := by
      intro reentered body
      simp only [Parser.memoizedOr, run_bind, run_get,
        hmark, hfound]
      rfl
    rwa [hrun, hrun]

theorem unmemoized_keeps : Keeps p K answers Parser.unmemoized Parser.unmemoized := by
  intro r i reading body body' o depth n s _ _ hclear hanswer hat hremembers hbody
  have hrun : ∀ body, Parser.unmemoized r body s =
      follow (body s) fun node s => .ok node (if node.isSome then s else s.reset i) := by
    intro body
    simp only [Parser.unmemoized, run_bind, run_get,
      hat.mark, follow]
    cases body s with
    | ok node s => cases node <;> rfl
    | error e s => rfl
  rw [hrun, hrun, hanswer]
  refine (hbody o s (fun r' j hinside => hclear.inside hinside) hat hremembers).andThen ?_
  intro node j s' _ hat' hremembers'
  cases node with
  | none => exact .of_pure (hat'.reset (Nat.le_trans hat.le (Nat.le_max_left _ _))) hremembers'
  | some node => exact .of_pure hat' hremembers'

/-! ### Growing rules -/

theorem Remembers.grow {memo : Std.HashMap (String × Mark) (Remembered R)}
    {active : Std.HashSet (String × Mark)} (i : Nat) (best : Option (R.Node r) × Nat)
    (h : Remembers answers o n memo active) (hnames : R.Distinguishes) (hstop : best.2 ≤ n) :
    Remembers answers (o.grow r i best) n (memo.insert (R.name r, i) ⟨r, best.1, best.2⟩)
      active where
  seed r' j known hknown := by
    by_cases hsame : r' = r ∧ j = i
    · obtain ⟨rfl, rfl⟩ := hsame
      rw [Tried.grow_self] at hknown
      cases hknown
      exact ⟨Std.HashMap.getElem?_insert_self, hstop⟩
    · have hother : r' = r → j ≠ i := fun hr hj => hsame ⟨hr, hj⟩
      rw [Tried.grow_other hother] at hknown
      rw [Std.HashMap.getElem?_insert, if_neg]
      · exact h.seed r' j known hknown
      · intro hkey
        obtain ⟨hname, rfl⟩ := Prod.mk.inj (beq_iff_eq.mp hkey)
        exact hother (hnames _ _ hname).symm rfl
  memo r' j entry hentry hnone := by
    rcases getElem_remembered hnames hentry with ⟨rfl, rfl, rfl⟩ | ⟨hother, hentry⟩
    · cases Tried.grow_self.symm.trans hnone
    · rw [Tried.grow_other hother] at hnone
      exact h.memo r' j entry hentry hnone
  active := h.active

theorem Remembers.grown {memo : Std.HashMap (String × Mark) (Remembered R)}
    {active : Std.HashSet (String × Mark)} {best : Option (R.Node r) × Nat}
    (h : Remembers answers (o.grow r i best) n memo active) (hseed : o.seed r i = none)
    (hresult : (answers r i).result = .ok best) (hreach : (answers r i).reach ≤ n) :
    Remembers answers o n memo active where
  seed r' j known hknown := by
    refine h.seed r' j known ((Tried.grow_other ?_).trans hknown)
    rintro rfl rfl
    cases hseed.symm.trans hknown
  memo r' j entry hentry hnone := by
    by_cases hsame : r' = r ∧ j = i
    · obtain ⟨rfl, rfl⟩ := hsame
      obtain ⟨hbest, hstop⟩ := h.seed r' j best Tried.grow_self
      cases hbest.symm.trans hentry
      exact ⟨best.1, best.2, rfl, hresult, hreach, hstop⟩
    · refine h.memo r' j entry hentry ((Tried.grow_other ?_).trans hnone)
      exact fun hr hj => hsame ⟨hr, hj⟩
  active := h.active

/-- A body agrees, whichever match of its own rule it meets where it started. -/
def GrowthAgrees (p : Pass) (K : Ranking R) (answers : Callee R) (o : Tried R) (depth : Nat)
    (r : R.Rule) (i : Nat) (reading : Option (R.Node r) × Nat → Reading (Option (R.Node r)))
    (body body' : Parse R (Option (R.Node r))) : Prop :=
  ∀ best, K.Yields r i best.1 best.2 → best.2 ≤ p.world.limit →
    (reading best).Meets p.world i (K.Yields r i) ∧
    ∀ n s, best.2 ≤ n → p.At depth n i s →
      Remembers answers (o.grow r i best) n s.memo s.active →
      Agrees p answers (o.grow r i best) depth n (reading best) (body s) (body' s)

theorem known_agrees {best : Option (R.Node r) × Nat} {body body' : Parse R (Option (R.Node r))}
    (hat : p.At depth n i s)
    (hremembers : Remembers answers (o.grow r i best) n s.memo s.active) :
    Agrees p answers (o.grow r i best) depth n ⟨best.2, 0, .ok (best.1, best.2)⟩
      (Parser.grown r body s) (Parser.grown r body' s) := by
  obtain ⟨hentry, hstop⟩ := hremembers.seed r i best Tried.grow_self
  obtain ⟨s', hfound, hat', hmemo, hactive⟩ := lookup_found hentry hstop hat
  have hrun : ∀ body, Parser.grown r body s = .ok best.1 s' := by
    intro body
    simp only [Parser.grown, run_bind, run_get,
      hat.mark, hfound]
    rfl
  have hmax := Nat.max_eq_left hstop
  rw [hrun, hrun]
  refine .ok rfl (hmax.symm ▸ hat') ?_
  rwa [hmax, hmemo, hactive]

/-- Where the match no longer grows. -/
def settleGrown (r : R.Rule) (i : Nat) (best : Option (R.Node r) × Nat) :
    Parse R (Option (R.Node r)) := fun s =>
  .ok best.1 (Parser.leaveRule r i best.1.isSome ({ s with growing := s.growing - 1 }.reset best.2))

theorem settleGrown_agrees {best : Option (R.Node r) × Nat} {k : Nat} (hbest : best.2 ≤ n)
    (hat : p.At depth n k s) (hremembers : Remembers answers o n s.memo s.active) :
    Agrees p answers o depth n (.pure best.1 best.2) (settleGrown r i best s)
      (settleGrown r i best s) := by
  have hreset := hat.reset hbest
  exact .of_pure ⟨hreset.stream, hreset.le, hreset.filename, hreset.diagnosing, hreset.nesting⟩
    hremembers

theorem grow_agrees {reading : Option (R.Node r) × Nat → Reading (Option (R.Node r))}
    {body body' : Parse R (Option (R.Node r))} (hnames : R.Distinguishes)
    (hseed : o.seed r i = none)
    (hbody : GrowthAgrees p K answers o depth r i reading body body')
    {fuel k : Nat} {best : Option (R.Node r) × Nat} (hyields : K.Yields r i best.1 best.2)
    (hlimit : best.2 ≤ p.world.limit) (hi : i ≤ n) (hbest : best.2 ≤ n)
    (hresult : (answers r i).result = (World.growth reading fuel best).result)
    (hreach : (answers r i).reach ≤ max n (World.growth reading fuel best).reach)
    (hat : p.At depth n k s)
    (hremembers : Remembers answers (o.grow r i best) n s.memo s.active) :
    Agrees p answers o depth n (World.growth reading fuel best)
      (follow (Parser.grow r i body fuel best s) (settleGrown r i))
      (follow (Parser.grow r i body' fuel best s) (settleGrown r i)) := by
  induction fuel generalizing n k best s with
  | zero => exact .endless rfl
  | succ fuel ih =>
    let grew (node : Option (R.Node r)) (s : Session R) : Session R :=
      Parser.remember r i node s.mark
        (Session.note { s with stats := { s.stats with growSteps := s.stats.growSteps + 1 } }
          (.grow (R.name r) i s.mark s.level))
    have hrun : ∀ body, follow (Parser.grow r i body (fuel + 1) best s) (settleGrown r i) =
        follow (body (s.reset i)) fun node s =>
          if node.isNone || s.mark ≤ best.2 then settleGrown r i best s
          else follow (Parser.grow r i body fuel (node, s.mark) (grew node s)) (settleGrown r i) := by
      intro body
      simp only [Parser.grow, follow]
      cases body (s.reset i) with
      | error e s => rfl
      | ok node s =>
        dsimp only
        cases hstop : node.isNone || decide (s.mark ≤ best.2) <;> rfl
    rw [hrun, hrun]
    simp only [World.growth] at hresult hreach ⊢
    obtain ⟨hmeets, hagrees⟩ := hbody best hyields hlimit
    refine (hagrees n (s.reset i) hbest (hat.reset hi) hremembers).andThen ?_
    intro node j s' hfound hat' hremembers'
    simp only [Reading.andThen, hfound] at hresult hreach
    rw [hat'.mark]
    cases hstop : node.isNone || decide (j ≤ best.2) with
    | true =>
      simp only [hstop, if_true] at hresult hreach ⊢
      refine settleGrown_agrees (Nat.le_trans hbest (Nat.le_max_left _ _)) hat'
        (hremembers'.grown hseed hresult ?_)
      rwa [show max (reading best).reach (Reading.pure best.1 best.2).reach = (reading best).reach
        from Nat.max_zero _] at hreach
    | false =>
      simp only [hstop, Bool.false_eq_true, if_false] at hresult hreach ⊢
      obtain ⟨hyields', hj⟩ := hmeets.of_ok hfound
      refine ih hyields' hj (Nat.le_trans hi (Nat.le_max_left _ _)) hat'.le hresult (by omega)
        ⟨hat'.stream, hat'.le, hat'.filename, hat'.diagnosing, hat'.nesting⟩ ?_
      have hgrown := hremembers'.grow i (node, j) hnames hat'.le
      rw [Tried.grow_grow] at hgrown
      simpa only [grew, Parser.remember, Session.note, hat'.mark] using hgrown

theorem onError_settleGrown (cleanup : Session R → Session R)
    (hgrowing : ∀ s, cleanup s = { s with growing := s.growing - 1 })
    (run : EStateM.Result Abort (Session R) (Option (R.Node r) × Mark)) :
    onError cleanup (follow run (settleGrown r i)) =
      match run with
      | .error e s => .error e (cleanup s)
      | .ok (node, stop) s =>
        .ok node (Parser.leaveRule r i node.isSome ((cleanup s).reset stop)) := by
  cases run with
  | ok best s =>
    simp only [follow, onError, settleGrown, hgrowing]
  | error e s => rfl

theorem grown_agrees {reading : Option (R.Node r) × Nat → Reading (Option (R.Node r))}
    {body body' : Parse R (Option (R.Node r))} (hnames : R.Distinguishes) (hclear : o.Clear K r i)
    (hanswer : answers r i = World.growth reading (p.world.bound + 1) (none, i))
    (hbody : GrowthAgrees p K answers o depth r i reading body body')
    (hlimit : i ≤ p.world.limit) (hat : p.At depth n i s)
    (hremembers : Remembers answers o n s.memo s.active) :
    Agrees p answers o depth n (answers r i) (Parser.grown r body s) (Parser.grown r body' s) := by
  have hmark := hat.mark
  rcases hremembers.recalls hclear hat with hmissed | ⟨node, s', hfound, hagrees⟩
  · let entered : Session R := Parser.remember r i none i (Parser.enterRule r i s)
    let growing : Session R := { entered with growing := entered.growing + 1 }
    let settled (s : Session R) : Session R := { s with growing := s.growing - 1 }
    have hgrowing : p.At depth n i growing :=
      ⟨hat.stream, hat.le, hat.filename, hat.diagnosing, hat.nesting⟩
    have hrun : ∀ body, Parser.grown r body s =
        onError settled (follow
          (Parser.grow r i body (p.world.bound + 1) (none, i) growing) (settleGrown r i)) := by
      intro body
      simp only [Parser.grown, run_bind, run_get,
        hmark, hmissed]
      rw [← hgrowing.bound]
      exact (onError_settleGrown settled (fun _ => rfl) _).symm
    rw [hrun, hrun, hanswer]
    refine Agrees.onError (grow_agrees hnames hclear.seed_none hbody ⟨Nat.le_refl i, nofun⟩ hlimit
      hat.le hat.le (congrArg Reading.result hanswer) ?_ hgrowing
      (hremembers.grow i (none, i) hnames hat.le))
      (fun _ => rfl) fun _ => rfl
    rw [hanswer]
    exact Nat.le_max_right _ _
  · have hrun : ∀ body, Parser.grown r body s = .ok node s' := by
      intro body
      simp only [Parser.grown, run_bind, run_get,
        hmark, hfound]
      rfl
    rwa [hrun, hrun]

/-! ### Rules -/

/-- The calls inside a rule answer what they read. -/
def CallsAgree (p : Pass) (K : Ranking R) (answers : Callee R) (r : R.Rule) (i : Nat)
    (callee callee' : (r : R.Rule) → Parse R (Option (R.Node r))) : Prop :=
  ∀ r' j, K.Inside p.world r i r' j →
    (answers r' j).Meets p.world j (K.Yields r' j) ∧
    ∀ (o : Tried R) depth n s, o.Clear K r' j → p.At depth n j s →
      Remembers answers o n s.memo s.active →
      Agrees p answers o depth n (answers r' j) (callee r' s) (callee' r' s)

variable {callee callee' : (r : R.Rule) → Parse R (Option (R.Node r))}
  {m : Matcher R (Option (R.Node r))}

theorem CallsAgree.body (hcalls : CallsAgree p K answers r i callee callee')
    (hbody : Ensures p.world K ⟨i, K.rank r, i⟩ m i (K.Yields r i)) (hlimit : i ≤ p.world.limit) :
    BodyAgrees p K answers depth n r i (p.world.read answers m i) (Parser.exec callee m)
      (Parser.exec callee' m) := by
  intro o s hclear hat hremembers
  refine exec_agrees ?_ hbody hlimit hlimit hat.le hat hremembers
  intro r' j hallows hj
  have hinside := hallows.inside hj
  obtain ⟨hmeets, hagrees⟩ := hcalls r' j hinside
  exact ⟨hmeets, fun depth n s hat hremembers =>
    hagrees o depth n s (hclear r' j hinside) hat hremembers⟩

theorem CallsAgree.growth {body body' : Parse R (Option (R.Node r))}
    (hcalls : CallsAgree p K answers r i callee callee') (hclear : o.Clear K r i)
    (hself : callee r = Parser.grown r body) (hself' : callee' r = Parser.grown r body')
    (hbody : Ensures p.world K ⟨i, K.rank r + 1, i⟩ m i (K.Yields r i))
    (hlimit : i ≤ p.world.limit) :
    GrowthAgrees p K answers o depth r i
      (fun best => p.world.read (World.knowing answers i ⟨r, best.1, best.2⟩) m i)
      (Parser.exec callee m) (Parser.exec callee' m) := by
  intro best hyields hstop
  have hserves : Serves p K answers (o.grow r i best) ⟨i, K.rank r + 1, i⟩
      (World.knowing answers i ⟨r, best.1, best.2⟩) callee callee' := by
    intro r' j hallows hj
    rcases hallows.inside_or_self hj with hinside | ⟨rfl, rfl⟩
    · rw [World.knowing_other (by rintro rfl; exact hinside.ne_start)]
      obtain ⟨hmeets, hagrees⟩ := hcalls r' j hinside
      exact ⟨hmeets, fun depth n s hat hremembers =>
        hagrees _ depth n s (hclear.grow_inside hinside) hat hremembers⟩
    · rw [World.knowing_self, hself, hself']
      exact ⟨⟨hyields, hstop, Nat.le_max_right _ _⟩, fun depth n s hat hremembers =>
        known_agrees hat hremembers⟩
  have hmeets := (hbody.meets hserves.agree hlimit hlimit).2
  rw [Base.reach_start] at hmeets
  exact ⟨hmeets, fun n s hle hat hremembers =>
    exec_agrees hserves hbody hlimit hlimit hat.le hat hremembers⟩

variable {G : Grammar R} {keep keep' : Keeper R}

/-- A rule that is not being tried answers what it reads, whatever keeps the results. -/
theorem callWith_agrees (hG : K.Governs G) (hnames : R.Distinguishes)
    (hkeep : Keeps p K (p.world.answer G K) keep keep') {fuel : Nat}
    (hentry : K.isEntry r = false) (hlimit : i ≤ p.world.limit)
    (hfuel : K.need p.world.limit r i < fuel) (hclear : o.Clear K r i) (hat : p.At depth n i s)
    (hremembers : Remembers (p.world.answer G K) o n s.memo s.active) :
    Agrees p (p.world.answer G K) o depth n (p.world.answer G K r i)
      (Parser.callWith keep G fuel r s) (Parser.callWith keep' G fuel r s) := by
  induction hneed : K.need p.world.limit r i using Nat.strongRecOn
    generalizing r i o depth n s fuel with
  | ind need ih =>
    subst hneed
    obtain ⟨fuel, rfl⟩ : ∃ less, fuel = less + 1 := ⟨fuel - 1, by omega⟩
    have hanswer := World.answer_eq (W := p.world) hG hentry hlimit
    have hbody := hG.body p.world r i hentry
    have hcalls : CallsAgree p K (p.world.answer G K) r i (Parser.callWith keep G fuel)
        (Parser.callWith keep' G fuel) := by
      intro r' j h
      have hless := h.need_lt
      exact ⟨World.answer_meets hG h.1 h.2.1, fun o depth n s hclear hat hremembers =>
        ih _ hless h.1 h.2.1 (by omega) hclear hat hremembers rfl⟩
    unfold World.step at hanswer
    unfold Ranking.ceiling at hbody
    simp only [Parser.callWith]
    cases hpolicy : R.policy r with
    | direct =>
      simp only [hpolicy, reduceCtorEq, if_false] at hanswer hbody ⊢
      rw [hanswer]
      exact hcalls.body hbody hlimit o s (fun r' j hinside => hclear.inside hinside) hat hremembers
    | packrat =>
      simp only [hpolicy, reduceCtorEq, if_false] at hanswer hbody ⊢
      exact hkeep r i _ _ _ o depth n s hentry hlimit hclear hanswer hat hremembers
        (hcalls.body hbody hlimit)
    | leftRecursive =>
      simp only [hpolicy, if_true] at hanswer hbody ⊢
      have hself : ∀ keep : Keeper R, Parser.callWith keep G fuel r =
          Parser.grown r (Parser.exec (Parser.callWith keep G (fuel - 1)) (G.body r)) := by
        intro keep
        obtain ⟨fuel, rfl⟩ : ∃ less, fuel = less + 1 :=
          ⟨fuel - 1, by unfold Ranking.need at hfuel; omega⟩
        simp only [Parser.callWith, hpolicy, Nat.add_sub_cancel]
      exact grown_agrees hnames hclear hanswer
        (hcalls.growth hclear (hself keep) (hself keep') hbody hlimit) hlimit hat hremembers

end ShellSyntax
