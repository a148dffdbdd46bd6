import ShellSyntax.Proofs.Parser.Books

/-!
What a run remembers, rule by rule and mark by mark. Where nothing is remembered yet a rule is
entered once at most: while it is being run it is found among the active rules or, if it grows, in
the memo. A rule that is left is remembered. A rule that an abort leaves open is remembered only if
it grows.
-/

namespace ShellSyntax

open Outcome

namespace TraceEvent

/-- The body of the rule with this name is started at this mark. -/
def enters (key : String × Mark) : TraceEvent → Bool
  | enter rule mark _ => key == (rule, mark)
  | _ => false

def exits (key : String × Mark) : TraceEvent → Bool
  | exit rule mark _ _ _ => key == (rule, mark)
  | _ => false

section Counts

variable {key : String × Mark} {rule : String} {i j depth depth' : Nat} {matched : Bool}
  {events : List TraceEvent}

theorem countP_enters_self :
    (enter rule i depth :: events).countP (enters (rule, i)) =
      events.countP (enters (rule, i)) + 1 :=
  List.countP_cons_of_pos (beq_self_eq_true (rule, i))

theorem countP_enters_other (hother : key ≠ (rule, i)) :
    (enter rule i depth :: events).countP (enters key) = events.countP (enters key) :=
  List.countP_cons_of_neg fun h => hother (eq_of_beq h)

theorem countP_exits_entered :
    (enter rule i depth :: events).countP (exits key) = events.countP (exits key) :=
  List.countP_cons_of_neg Bool.false_ne_true

theorem countP_enters_left :
    (events ++ [exit rule i j matched depth]).countP (enters key) = events.countP (enters key) :=
  List.countP_append

theorem countP_exits_left_self :
    (events ++ [exit rule i j matched depth]).countP (exits (rule, i)) =
      events.countP (exits (rule, i)) + 1 := by
  rw [List.countP_append, List.countP_singleton]
  exact congrArg _ (if_pos (beq_self_eq_true (rule, i)))

theorem countP_exits_left_other (hother : key ≠ (rule, i)) :
    (events ++ [exit rule i j matched depth]).countP (exits key) = events.countP (exits key) := by
  rw [List.countP_append, List.countP_singleton]
  exact congrArg _ (if_neg fun h => hother (eq_of_beq h))

end Counts

end TraceEvent

open TraceEvent

variable {R : RuleSet} {own : Option (R.Rule × Mark)} {s t : Session R} {success : Bool}
  {events : List TraceEvent} {key : String × Mark}

def RuleSet.Grows (R : RuleSet) (name : String) : Prop :=
  ∃ r, R.name r = name ∧ R.policy r = .leftRecursive

/-- Rules of one name are run in one way. -/
def RuleSet.Uniform (R : RuleSet) : Prop :=
  ∀ r r', R.name r = R.name r' → R.policy r = R.policy r'

theorem RuleSet.Distinguishes.uniform (h : R.Distinguishes) : R.Uniform :=
  fun r r' hname => congrArg R.policy (h r r' hname)

theorem RuleSet.Uniform.not_grows (hnames : R.Uniform) {r : R.Rule}
    (hpolicy : R.policy r = .packrat) : ¬R.Grows (R.name r) := by
  rintro ⟨r', hname, hgrows⟩
  cases (hnames r' r hname).symm.trans hgrows |>.symm.trans hpolicy

section Remember

variable {r : R.Rule} {i : Mark} {node : Option (R.Node r)} {stop : Mark}

theorem remember_self :
    (Parser.remember r i node stop s).memo[(R.name r, i)]? = some ⟨r, node, stop⟩ :=
  Std.HashMap.getElem?_insert_self

theorem remember_other (hother : key ≠ (R.name r, i)) :
    (Parser.remember r i node stop s).memo[key]? = s.memo[key]? := by
  rw [Parser.remember, Std.HashMap.getElem?_insert, if_neg]
  exact fun h => hother (eq_of_beq h).symm

theorem mem_remember :
    key ∈ (Parser.remember r i node stop s).memo ↔ key = (R.name r, i) ∨ key ∈ s.memo := by
  rw [Parser.remember, Std.HashMap.mem_insert, beq_iff_eq, eq_comm]

theorem mem_remember_other (hother : key ≠ (R.name r, i)) :
    key ∈ (Parser.remember r i node stop s).memo ↔ key ∈ s.memo :=
  mem_remember.trans (or_iff_right hother)

end Remember

/-- What becomes of the key of a rule and a mark. -/
inductive Fate (R : RuleSet) (key : String × Mark)
    (memo : Std.HashMap (String × Mark) (Remembered R)) (active : Std.HashSet (String × Mark))
    (success : Bool) (events : List TraceEvent)
    (memo' : Std.HashMap (String × Mark) (Remembered R)) : Prop
  | untouched (henters : events.countP (enters key) = 0) (hexits : events.countP (exits key) = 0)
      (hmemo : key ∈ memo' ↔ key ∈ memo)
  | finished (hfresh : key ∉ memo) (hidle : key ∉ active)
      (henters : events.countP (enters key) = 1) (hexits : events.countP (exits key) = 1)
      (hmemo : key ∈ memo')
  | aborted (habort : success = false) (hfresh : key ∉ memo) (hidle : key ∉ active)
      (henters : events.countP (enters key) = 1) (hexits : events.countP (exits key) = 0)
      (hmemo : key ∈ memo' ↔ R.Grows key.1)

namespace Fate

variable {memo memo' memo'' : Std.HashMap (String × Mark) (Remembered R)}
  {active active' : Std.HashSet (String × Mark)} {later : List TraceEvent}

theorem of_mem (h : Fate R key memo active success events memo') (hkey : key ∈ memo) :
    events.countP (enters key) = 0 ∧ events.countP (exits key) = 0 ∧ key ∈ memo' := by
  cases h with
  | untouched henters hexits hmemo => exact ⟨henters, hexits, hmemo.mpr hkey⟩
  | finished hfresh | aborted _ hfresh => exact absurd hkey hfresh

theorem of_active (h : Fate R key memo active success events memo') (hkey : key ∈ active) :
    events.countP (enters key) = 0 ∧ events.countP (exits key) = 0 ∧ (key ∈ memo' ↔ key ∈ memo) := by
  cases h with
  | untouched henters hexits hmemo => exact ⟨henters, hexits, hmemo⟩
  | finished _ hidle | aborted _ _ hidle => exact absurd hkey hidle

/-- What was not remembered is started once at most. It is remembered if it was left, or grows. -/
theorem of_not_mem (h : Fate R key memo active success events memo') (habsent : key ∉ memo) :
    events.countP (enters key) ≤ 1 ∧ (key ∈ memo' ↔ events.countP (enters key) = 1 ∧
      (events.countP (exits key) = 1 ∨ R.Grows key.1)) := by
  cases h with
  | untouched henters hexits hmemo => simp [henters, hmemo, habsent]
  | finished hfresh hidle henters hexits hmemo => simp [henters, hexits, hmemo]
  | aborted habort hfresh hidle henters hexits hmemo => simp [henters, hexits, hmemo]

theorem countP_enters (h : Fate R key memo active true events memo') (habsent : key ∉ memo) :
    events.countP (enters key) = if key ∈ memo' then 1 else 0 := by
  cases h with
  | untouched henters hexits hmemo => rw [henters, if_neg (mt hmemo.mp habsent)]
  | finished hfresh hidle henters hexits hmemo => rw [henters, if_pos hmemo]
  | aborted habort => cases habort

theorem andThen (h : Fate R key memo active true events memo')
    (h' : Fate R key memo' active' success later memo'') (hactive : key ∈ active' ↔ key ∈ active) :
    Fate R key memo active success (events ++ later) memo'' := by
  have henters : (events ++ later).countP (enters key) = _ := List.countP_append
  have hexits : (events ++ later).countP (exits key) = _ := List.countP_append
  cases h with
  | untouched hentered hexited hmemo =>
    rw [hentered, Nat.zero_add] at henters
    rw [hexited, Nat.zero_add] at hexits
    cases h' with
    | untouched hentered' hexited' hmemo' =>
      exact .untouched (henters.trans hentered') (hexits.trans hexited') (hmemo'.trans hmemo)
    | finished hfresh hidle hentered' hexited' hmemo' =>
      exact .finished (mt hmemo.mpr hfresh) (mt hactive.mpr hidle) (henters.trans hentered')
        (hexits.trans hexited') hmemo'
    | aborted habort hfresh hidle hentered' hexited' hmemo' =>
      exact .aborted habort (mt hmemo.mpr hfresh) (mt hactive.mpr hidle) (henters.trans hentered')
        (hexits.trans hexited') hmemo'
  | finished hfresh hidle hentered hexited hmemo =>
    obtain ⟨hentered', hexited', hmemo'⟩ := h'.of_mem hmemo
    exact .finished hfresh hidle (henters.trans (congrArg₂ _ hentered hentered'))
      (hexits.trans (congrArg₂ _ hexited hexited')) hmemo'
  | aborted habort => cases habort

/-- The key of another rule or mark is not concerned by what is done around the run. -/
theorem around {outer : List TraceEvent}
    {memo₀ memo₁ : Std.HashMap (String × Mark) (Remembered R)}
    (h : Fate R key memo active' success events memo') (hactive : key ∈ active → key ∈ active')
    (henters : outer.countP (enters key) = events.countP (enters key))
    (hexits : outer.countP (exits key) = events.countP (exits key))
    (hbefore : key ∈ memo ↔ key ∈ memo₀) (hafter : key ∈ memo₁ ↔ key ∈ memo') :
    Fate R key memo₀ active success outer memo₁ := by
  cases h with
  | untouched hentered hexited hmemo =>
    exact .untouched (henters.trans hentered) (hexits.trans hexited)
      (hafter.trans (hmemo.trans hbefore))
  | finished hfresh hidle hentered hexited hmemo =>
    exact .finished (mt hbefore.mpr hfresh) (mt hactive hidle) (henters.trans hentered)
      (hexits.trans hexited) (hafter.mpr hmemo)
  | aborted habort hfresh hidle hentered hexited hmemo =>
    exact .aborted habort (mt hbefore.mpr hfresh) (mt hactive hidle) (henters.trans hentered)
      (hexits.trans hexited) (hafter.trans hmemo)

end Fate

theorem not_mem_of_fresh (h : s.memo[key]? = none) : key ∉ s.memo :=
  (getElem?_eq_none_iff _ _).mp h

theorem ne_of_fresh {entry : Remembered R} {key' : String × Mark} (hfresh : s.memo[key']? = none)
    (hentry : s.memo[key]? = some entry) : key ≠ key' := by
  rintro rfl
  cases hfresh.symm.trans hentry

namespace Course

theorem entry (h : Course own s success events t) {entry : Remembered R}
    (hentry : s.memo[key]? = some entry)
    (hother : ∀ r i, own = some (r, i) → key ≠ (R.name r, i)) : t.memo[key]? = some entry := by
  induction h with
  | reads | recalls => exact hentry
  | andThen hfirst hlater ih ih' => exact ih' (ih hentry hother) hother
  | deeper hinner ih => exact ih hentry nofun
  | @completes s t r events node stop hpolicy hfresh hidle hbody hstop ih =>
    have hinside : t.memo[key]? = some entry := ih hentry nofun
    exact (remember_other (ne_of_fresh hfresh hentry)).trans hinside
  | abandons hpolicy hfresh hidle hbody ih => exact ih hentry nofun
  | @ripens s t r events best hpolicy hfresh hgrowth ih =>
    have hkey := ne_of_fresh hfresh hentry
    exact ih ((remember_other hkey).trans hentry) fun _ _ hown => by cases hown; exact hkey
  | @withers s t r events hpolicy hfresh hgrowth ih =>
    have hkey := ne_of_fresh hfresh hentry
    exact ih ((remember_other hkey).trans hentry) fun _ _ hown => by cases hown; exact hkey
  | inside hbody ih => exact ih hentry nofun
  | grows node => exact (remember_other (hother _ _ rfl)).trans hentry

theorem mem_of_mem (h : Course own s success events t) (hkey : key ∈ s.memo) : key ∈ t.memo := by
  induction h with
  | reads | recalls => exact hkey
  | andThen hfirst hlater ih ih' => exact ih' (ih hkey)
  | deeper hinner ih | abandons _ _ _ hinner ih | inside hinner ih => exact ih hkey
  | completes node stop hpolicy hfresh hidle hbody hstop ih =>
    exact mem_remember.mpr (.inr (ih hkey))
  | ripens _ _ _ hgrowth ih | withers _ _ hgrowth ih => exact ih (mem_remember.mpr (.inr hkey))
  | grows node => exact mem_remember.mpr (.inr hkey)

end Course

/-- Rules that grow are not among those that are being tried, and the one that is growing is
remembered. -/
structure Session.Ready (own : Option (R.Rule × Mark)) (s : Session R) : Prop where
  active : ∀ key ∈ s.active, ¬R.Grows key.1
  own : ∀ r i, own = some (r, i) → (R.name r, i) ∈ s.memo

namespace Session.Ready

variable {r : R.Rule} {i : Mark}

theorem of_idle (hidle : ∀ key, key ∉ s.active) : s.Ready none where
  active key hkey := absurd hkey (hidle key)
  own := nofun

theorem alone (h : s.Ready own) : s.Ready none where
  active := h.active
  own := nofun

theorem deeper (h : s.Ready own) : s.deeper.Ready none where
  active := h.active
  own := nofun

theorem later (h : s.Ready own) (hcourse : Course own s success events t) : t.Ready own where
  active key hkey := h.active key ((hcourse.resumes.active key).mp hkey)
  own r i hown := hcourse.mem_of_mem (h.own r i hown)

theorem trying (h : s.Ready own) (hnames : R.Uniform) (hpolicy : R.policy r = .packrat) :
    ((Parser.enterRule r i s).trying r i).Ready none where
  active key hkey := by
    rcases Std.HashSet.mem_insert.mp hkey with hself | hkey
    · obtain rfl := eq_of_beq hself
      exact hnames.not_grows hpolicy
    · exact h.active key hkey
  own := nofun

theorem growing (h : s.Ready own) :
    ((Parser.enterRule r i s).startGrowing r i).Ready (some (r, i)) where
  active := h.active
  own r i hown := by
    cases hown
    exact mem_remember.mpr (.inl rfl)

theorem not_active (h : s.Ready own) (hpolicy : R.policy r = .leftRecursive) :
    (R.name r, i) ∉ s.active :=
  fun hactive => h.active _ hactive ⟨r, rfl, hpolicy⟩

end Session.Ready

namespace Course

theorem fate (hnames : R.Uniform) (h : Course own s success events t) (hready : s.Ready own)
    (key : String × Mark) : Fate R key s.memo s.active success events t.memo := by
  induction h with
  | reads | recalls => exact .untouched rfl rfl .rfl
  | andThen hfirst hlater ih ih' =>
    exact (ih hready).andThen (ih' (hready.later hfirst)) (hfirst.resumes.active key)
  | deeper hinner ih => exact ih hready.deeper
  | @completes s t r events node stop hpolicy hfresh hidle hbody hstop ih =>
    have hinner := ih (hready.trying hnames hpolicy)
    by_cases hself : key = (R.name r, s.mark)
    · obtain rfl := hself
      obtain ⟨hentered, hexited, -⟩ := hinner.of_active Std.HashSet.mem_insert_self
      exact .finished (not_mem_of_fresh hfresh) hidle
        (countP_enters_left.trans (countP_enters_self.trans (congrArg (· + 1) hentered)))
        (countP_exits_left_self.trans (congrArg (· + 1) (countP_exits_entered.trans hexited)))
        (mem_remember.mpr (.inl rfl))
    · exact hinner.around (fun hkey => Std.HashSet.mem_insert.mpr (.inr hkey))
        (countP_enters_left.trans (countP_enters_other hself))
        ((countP_exits_left_other hself).trans countP_exits_entered) .rfl
        (mem_remember_other hself)
  | @abandons s t r events hpolicy hfresh hidle hbody ih =>
    have hinner := ih (hready.trying hnames hpolicy)
    by_cases hself : key = (R.name r, s.mark)
    · obtain rfl := hself
      obtain ⟨hentered, hexited, hmemo⟩ := hinner.of_active Std.HashSet.mem_insert_self
      have habsent := not_mem_of_fresh hfresh
      exact .aborted rfl habsent hidle (countP_enters_self.trans (congrArg (· + 1) hentered))
        (countP_exits_entered.trans hexited)
        (iff_of_false (mt hmemo.mp habsent) (hnames.not_grows hpolicy))
    · exact hinner.around (fun hkey => Std.HashSet.mem_insert.mpr (.inr hkey))
        (countP_enters_other hself) countP_exits_entered .rfl .rfl
  | @ripens s t r events best hpolicy hfresh hgrowth ih =>
    have hinner := ih hready.growing
    by_cases hself : key = (R.name r, s.mark)
    · obtain rfl := hself
      obtain ⟨hentered, hexited, hmemo⟩ := hinner.of_mem (mem_remember.mpr (.inl rfl))
      exact .finished (not_mem_of_fresh hfresh) (hready.not_active hpolicy)
        (countP_enters_left.trans (countP_enters_self.trans (congrArg (· + 1) hentered)))
        (countP_exits_left_self.trans (congrArg (· + 1) (countP_exits_entered.trans hexited)))
        hmemo
    · exact hinner.around id (countP_enters_left.trans (countP_enters_other hself))
        ((countP_exits_left_other hself).trans countP_exits_entered) (mem_remember_other hself) .rfl
  | @withers s t r events hpolicy hfresh hgrowth ih =>
    have hinner := ih hready.growing
    by_cases hself : key = (R.name r, s.mark)
    · obtain rfl := hself
      obtain ⟨hentered, hexited, hmemo⟩ := hinner.of_mem (mem_remember.mpr (.inl rfl))
      exact .aborted rfl (not_mem_of_fresh hfresh) (hready.not_active hpolicy)
        (countP_enters_self.trans (congrArg (· + 1) hentered))
        (countP_exits_entered.trans hexited) (iff_of_true hmemo ⟨r, rfl, hpolicy⟩)
    · exact hinner.around id (countP_enters_other hself) countP_exits_entered
        (mem_remember_other hself) .rfl
  | inside hbody ih => exact ih hready.alone
  | @grows s r i node =>
    refine .untouched rfl rfl (mem_remember.trans (or_iff_right_of_imp ?_))
    rintro rfl
    exact hready.own _ _ rfl

theorem memo_size (hnames : R.Uniform) (h : Course own s success events t)
    (hready : s.Ready own) (hsuccess : success = true) :
    t.memo.size = s.memo.size + events.countP isEnter := by
  induction h with
  | reads | recalls => rfl
  | @andThen _ _ t _ _ _ _ hfirst hlater ih ih' =>
    rw [ih' (hready.later hfirst) hsuccess, ih hready rfl, List.countP_append, Nat.add_assoc]
  | deeper hinner ih => exact ih hready.deeper hsuccess
  | @completes s t r events node stop hpolicy hfresh hidle hbody hstop ih =>
    have hinner := ih (hready.trying hnames hpolicy) rfl
    have hfate := hbody.fate hnames (hready.trying hnames hpolicy) (R.name r, s.mark)
    have habsent : (R.name r, s.mark) ∉ t.memo :=
      mt (hfate.of_active Std.HashSet.mem_insert_self).2.2.mp (not_mem_of_fresh hfresh)
    have hsize : (t.memo.insert (R.name r, s.mark) ⟨r, node, stop⟩).size = t.memo.size + 1 := by
      rw [Std.HashMap.size_insert, if_neg habsent]
    rw [countP_isEnter_left]
    exact hsize.trans (congrArg (· + 1) hinner)
  | @ripens s t r events best hpolicy hfresh hgrowth ih =>
    have hinner := ih hready.growing rfl
    have hsize : (s.memo.insert (R.name r, s.mark) ⟨r, none, s.mark⟩).size = s.memo.size + 1 := by
      rw [Std.HashMap.size_insert, if_neg (not_mem_of_fresh hfresh)]
    have hseeded : t.memo.size = s.memo.size + 1 + events.countP isEnter :=
      hinner.trans (congrArg (· + _) hsize)
    rw [countP_isEnter_left]
    change t.memo.size = _
    omega
  | abandons | withers => cases hsuccess
  | inside hbody ih => exact ih hready.alone hsuccess
  | @grows s r i node =>
    exact Std.HashMap.size_insert.trans (if_pos (hready.own r i rfl))

end Course

/-! ### Entries -/

/-- All that is remembered are results of rules that remember, under the names of these rules. A
failure ends where it started. -/
def Session.Tidy (s : Session R) : Prop :=
  ∀ (key : String × Mark) (entry : Remembered R), s.memo[key]? = some entry →
    R.name entry.rule = key.1 ∧ R.policy entry.rule ≠ .direct ∧
      (entry.node.isSome = false → entry.stop = key.2)

namespace Session.Tidy

variable {r : R.Rule} {i stop : Mark} {node : Option (R.Node r)}

theorem of_empty (hempty : ∀ key, key ∉ s.memo) : s.Tidy := by
  intro key entry hentry
  cases (Std.HashMap.getElem?_eq_none (hempty key)).symm.trans hentry

theorem remember (h : s.Tidy) (hpolicy : R.policy r ≠ .direct)
    (hstop : node.isSome = false → stop = i) : (Parser.remember r i node stop s).Tidy := by
  intro key entry hentry
  by_cases hself : key = (R.name r, i)
  · obtain rfl := hself
    cases remember_self.symm.trans hentry
    exact ⟨rfl, hpolicy, hstop⟩
  · exact h key entry ((remember_other hself).symm.trans hentry)

end Session.Tidy

theorem Course.tidy (h : Course own s success events t) (htidy : s.Tidy)
    (hown : ∀ r i, own = some (r, i) → R.policy r ≠ .direct) : t.Tidy := by
  induction h with
  | reads | recalls => exact htidy
  | andThen hfirst hlater ih ih' => exact ih' (ih htidy hown) hown
  | deeper hinner ih | abandons _ _ _ hinner ih | inside hinner ih => exact ih htidy nofun
  | @completes s t r events node stop hpolicy hfresh hidle hbody hstop ih =>
    have hinner : t.Tidy := ih htidy nofun
    refine hinner.remember (hpolicy.trans_ne nofun) fun hfailed => ?_
    rw [hstop, hfailed]
    rfl
  | @ripens s t r events _ hpolicy _ hgrowth ih | @withers s t r events hpolicy _ hgrowth ih =>
    have hremembers : R.policy r ≠ .direct := hpolicy.trans_ne nofun
    refine ih (htidy.remember hremembers fun _ => rfl) fun _ _ hown => ?_
    cases hown
    exact hremembers
  | grows node => exact htidy.remember (hown _ _ rfl) nofun

/-- The sessions of a parser: new ones, those behind a run, and those that start a second pass. -/
inductive Session.Reached : Session R → Prop
  | new (stream : TokenStream) (filename : String) (traceLimit : Option Nat) :
    Reached (.ofStream stream filename traceLimit)
  | behind {α : Type} {m : Parse R α} {s : Session R} (earlier : Reached s) (hm : Proceeds m) :
    Reached (final (m s))
  | again {s : Session R} (earlier : Reached s) : Reached (Parser.secondPass s)

theorem Session.Reached.tidy (h : s.Reached) : s.Tidy := by
  induction h with
  | new | again => exact .of_empty fun _ => Std.HashMap.not_mem_empty
  | @behind α m s earlier hm ih =>
    obtain ⟨events, -, hcourse⟩ := hm s
    exact hcourse.tidy ih nofun

end ShellSyntax
