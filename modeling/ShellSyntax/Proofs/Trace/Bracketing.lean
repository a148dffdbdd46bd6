import ShellSyntax.Viewer.Replay

/-!
The nesting of a record. Its events are replayed against a stack of the rules that are being tried.
The event that pops a rule is the first behind it that leaves a rule of its name, mark and depth, and
so the viewer finds it without a stack.
-/

namespace ShellSyntax

/-- A rule that is being tried. -/
structure Trial where
  rule : String
  mark : Nat
  /-- Where the longest match so far ends; the mark while there is none. -/
  reached : Nat
  /-- The index of the event that entered the rule. -/
  entered : Nat

namespace TraceEvent

/-- The rules that are being tried behind the event with this index, the innermost first. There are
none if the event does not fit those that are tried before it. -/
def replay (index : Nat) (stack : List Trial) : TraceEvent → Option (List Trial)
  | enter rule mark depth =>
    if depth = stack.length then some (⟨rule, mark, mark, index⟩ :: stack) else none
  | exit rule mark stop matched depth =>
    match stack with
    | [] => none
    | trial :: outer =>
      if trial.rule = rule ∧ trial.mark = mark ∧ depth = outer.length ∧ mark ≤ stop ∧
          (matched = false → stop = mark) then some outer else none
  | memo _ _ _ _ depth => if depth = stack.length then some stack else none
  | grow rule mark stop depth =>
    match stack with
    | [] => none
    | trial :: outer =>
      if trial.rule = rule ∧ trial.mark = mark ∧ depth = stack.length ∧ trial.reached < stop then
        some ({ trial with reached := stop } :: outer) else none
  | secondPass => if stack.isEmpty then some [] else none

/-- The event leaves the rule of this name that was entered at this mark and depth. -/
def leaves (rule : String) (mark depth : Nat) : TraceEvent → Bool
  | exit rule' mark' _ _ depth' => rule' == rule && mark' == mark && depth' == depth
  | _ => false

/-- The rules that are being tried behind these events, the first of which has this index. -/
def replayAll (index : Nat) (stack : List Trial) : List TraceEvent → Option (List Trial)
  | [] => some stack
  | event :: events => (event.replay index stack).bind fun stack =>
    replayAll (index + 1) stack events

/-- The event with index `j` pops the rule that the event with index `i` pushed. -/
def Pops (events : List TraceEvent) (i j : Nat) : Prop :=
  ∃ trial outer, trial.entered = i ∧ replayAll 0 [] (events.take j) = some (trial :: outer) ∧
    replayAll 0 [] (events.take (j + 1)) = some outer

/-! ### Replays -/

variable {index i j k : Nat} {stack outer : List Trial} {trial : Trial} {event : TraceEvent}
  {events : List TraceEvent}

@[simp] theorem replayAll_nil : replayAll index stack [] = some stack :=
  rfl

theorem replayAll_append (first second : List TraceEvent) :
    replayAll index stack (first ++ second) =
      (replayAll index stack first).bind fun stack =>
        replayAll (index + first.length) stack second := by
  induction first generalizing index stack with
  | nil => rfl
  | cons event first induction =>
    rw [List.cons_append, replayAll, replayAll]
    cases event.replay index stack with
    | none => rfl
    | some stack =>
      rw [Option.bind_some, Option.bind_some, induction, List.length_cons,
        Nat.add_right_comm, Nat.add_assoc]

theorem replayAll_first {first : List TraceEvent} (hwithin : first <+: events)
    (h : (replayAll index stack events).isSome) : (replayAll index stack first).isSome := by
  obtain ⟨rest, rfl⟩ := hwithin
  rw [replayAll_append] at h
  cases hfirst : replayAll index stack first with
  | none => simp [hfirst] at h
  | some stack => rfl

/-- Every rule that is still tried was tried before, or one of the events entered it. -/
theorem entered_of_replayAll {stack' : List Trial}
    (h : replayAll index stack events = some stack') (htrial : trial ∈ stack') :
    (∃ before ∈ stack, before.entered = trial.entered) ∨
      ∃ k rule mark depth, trial.entered = index + k ∧
        events[k]? = some (.enter rule mark depth) := by
  induction events generalizing index stack with
  | nil =>
    cases h
    exact .inl ⟨trial, htrial, rfl⟩
  | cons event events induction =>
    obtain ⟨next, hevent, hevents⟩ := Option.bind_eq_some_iff.mp h
    rcases induction hevents with ⟨before, hbefore, hsame⟩ | ⟨k, rule, mark, depth, hk, henter⟩
    · -- the trial was there behind the first event
      cases event with
      | enter rule mark depth =>
        simp only [replay, Option.ite_none_right_eq_some, Option.some.injEq] at hevent
        obtain ⟨_, rfl⟩ := hevent
        rcases List.mem_cons.mp hbefore with rfl | hbefore
        · exact .inr ⟨0, rule, mark, depth, hsame.symm, rfl⟩
        · exact .inl ⟨before, hbefore, hsame⟩
      | exit rule mark stop matched depth =>
        cases stack with
        | nil => cases hevent
        | cons top outer =>
          simp only [replay, Option.ite_none_right_eq_some, Option.some.injEq] at hevent
          obtain ⟨_, rfl⟩ := hevent
          exact .inl ⟨before, List.mem_cons_of_mem _ hbefore, hsame⟩
      | memo rule mark stop matched depth =>
        simp only [replay, Option.ite_none_right_eq_some, Option.some.injEq] at hevent
        obtain ⟨_, rfl⟩ := hevent
        exact .inl ⟨before, hbefore, hsame⟩
      | grow rule mark stop depth =>
        cases stack with
        | nil => cases hevent
        | cons top outer =>
          simp only [replay, Option.ite_none_right_eq_some, Option.some.injEq] at hevent
          obtain ⟨_, rfl⟩ := hevent
          rcases List.mem_cons.mp hbefore with rfl | hbefore
          · exact .inl ⟨top, List.mem_cons_self, hsame⟩
          · exact .inl ⟨before, List.mem_cons_of_mem _ hbefore, hsame⟩
      | secondPass =>
        simp only [replay, Option.ite_none_right_eq_some, Option.some.injEq] at hevent
        obtain ⟨_, rfl⟩ := hevent
        cases hbefore
    · refine .inr ⟨k + 1, rule, mark, depth, ?_, henter⟩
      rw [hk, Nat.add_assoc, Nat.add_comm 1 k]

/-! ### Leaving a rule -/

/-- Behind an event a rule on the stack is still there, or the event left it and stood right on the
rules around it. -/
theorem replay_above {inner next : List Trial}
    (h : event.replay index (inner ++ trial :: outer) = some next) :
    (event.leaves trial.rule trial.mark outer.length = true ∧ inner = [] ∧ next = outer) ∨
      event.leaves trial.rule trial.mark outer.length = false ∧ ∃ inner' reached,
        next = inner' ++ { trial with reached } :: outer ∧
        ∀ f ∈ inner', f.entered = index ∨ ∃ before ∈ inner, before.entered = f.entered := by
  have hkept : ∀ f ∈ inner, f.entered = index ∨ ∃ before ∈ inner, before.entered = f.entered :=
    fun f hf => .inr ⟨f, hf, rfl⟩
  cases event with
  | enter rule mark depth =>
    simp only [replay, Option.ite_none_right_eq_some, Option.some.injEq] at h
    obtain ⟨_, rfl⟩ := h
    refine .inr ⟨rfl, ⟨rule, mark, mark, index⟩ :: inner, trial.reached, rfl, ?_⟩
    intro f hf
    rcases List.mem_cons.mp hf with rfl | hf
    · exact .inl rfl
    · exact hkept f hf
  | memo rule mark stop matched depth =>
    simp only [replay, Option.ite_none_right_eq_some, Option.some.injEq] at h
    obtain ⟨_, rfl⟩ := h
    exact .inr ⟨rfl, inner, trial.reached, rfl, hkept⟩
  | secondPass =>
    simp [replay] at h
  | exit rule mark stop matched depth =>
    cases inner with
    | nil =>
      simp only [List.nil_append, replay, Option.ite_none_right_eq_some, Option.some.injEq] at h
      obtain ⟨⟨hrule, hmark, hdepth, _⟩, rfl⟩ := h
      refine .inl ⟨?_, rfl, rfl⟩
      simp [leaves, hrule, hmark, hdepth]
    | cons top inner =>
      -- what is left lies deeper than the rule on the stack
      simp only [List.cons_append, replay, Option.ite_none_right_eq_some, Option.some.injEq] at h
      obtain ⟨⟨_, _, hdepth, _⟩, rfl⟩ := h
      refine .inr ⟨?_, inner, trial.reached, rfl, fun f hf =>
        hkept f (List.mem_cons_of_mem _ hf)⟩
      have hdeeper : depth ≠ outer.length := by
        rw [hdepth, List.length_append, List.length_cons]
        omega
      simp [leaves, hdeeper]
  | grow rule mark stop depth =>
    cases inner with
    | nil =>
      simp only [List.nil_append, replay, Option.ite_none_right_eq_some, Option.some.injEq] at h
      obtain ⟨_, rfl⟩ := h
      exact .inr ⟨rfl, [], stop, rfl, nofun⟩
    | cons top inner =>
      simp only [List.cons_append, replay, Option.ite_none_right_eq_some, Option.some.injEq] at h
      obtain ⟨_, rfl⟩ := h
      refine .inr ⟨rfl, { top with reached := stop } :: inner, trial.reached, rfl, ?_⟩
      intro f hf
      rcases List.mem_cons.mp hf with rfl | hf
      · exact .inr ⟨top, List.mem_cons_self, rfl⟩
      · exact hkept f (List.mem_cons_of_mem _ hf)

/-- Of the events from this index on, the one behind `k` others pops the rule that the event with
index `i` pushed. -/
def PopsFrom (index : Nat) (stack : List Trial) (events : List TraceEvent) (i k : Nat) : Prop :=
  ∃ trial outer, trial.entered = i ∧ replayAll index stack (events.take k) = some (trial :: outer) ∧
    replayAll index stack (events.take (k + 1)) = some outer

theorem PopsFrom.lt (h : PopsFrom index stack events i k) : k < events.length := by
  obtain ⟨trial, outer, _, hbefore, hbehind⟩ := h
  refine Nat.lt_of_not_le fun hle => ?_
  rw [List.take_of_length_le hle] at hbefore
  rw [List.take_of_length_le (Nat.le_succ_of_le hle), hbefore] at hbehind
  exact List.cons_ne_self _ _ (Option.some.inj hbehind)

theorem popsFrom_append {first : List TraceEvent}
    (hfirst : replayAll index stack first = some outer) :
    PopsFrom index stack (first ++ events) i (first.length + k) ↔
      PopsFrom (index + first.length) outer events i k := by
  have htake (n : Nat) : replayAll index stack ((first ++ events).take (first.length + n)) =
      replayAll (index + first.length) outer (events.take n) := by
    rw [List.take_length_add_append, replayAll_append, hfirst, Option.bind_some]
  rw [PopsFrom, Nat.add_assoc, htake, htake]
  rfl

/-- While a rule is on the stack, the first event that leaves a rule of its name, mark and depth is
the one that pops it. -/
theorem findIdx?_leaves_iff {inner : List Trial}
    (h : (replayAll index (inner ++ trial :: outer) events).isSome) (hindex : trial.entered < index)
    (hinner : ∀ f ∈ inner, f.entered ≠ trial.entered)
    (houter : ∀ f ∈ outer, f.entered ≠ trial.entered) :
    events.findIdx? (leaves trial.rule trial.mark outer.length) = some k ↔
      PopsFrom index (inner ++ trial :: outer) events trial.entered k := by
  induction events generalizing index inner trial k with
  | nil =>
    refine iff_of_false nofun fun hpops => ?_
    exact Nat.not_lt_zero _ hpops.lt
  | cons event events induction =>
    obtain ⟨_, hsome⟩ := Option.isSome_iff_exists.mp h
    obtain ⟨next, hevent, hevents⟩ := Option.bind_eq_some_iff.mp hsome
    rw [List.findIdx?_cons]
    rcases replay_above hevent with ⟨hleaves, rfl, rfl⟩ | ⟨hstays, inner', reached, rfl, hinner'⟩
    · rw [hleaves, if_pos rfl]
      cases k with
      | zero =>
        refine iff_of_true rfl ⟨trial, next, rfl, rfl, ?_⟩
        rw [List.take_succ_cons, List.take_zero, replayAll, hevent]
        rfl
      | succ k =>
        -- the popped rule does not come back
        refine iff_of_false nofun ?_
        rintro ⟨top, below, hentered, hbefore, _⟩
        rw [List.take_succ_cons, replayAll, hevent, Option.bind_some] at hbefore
        rcases entered_of_replayAll hbefore List.mem_cons_self with
          ⟨f, hf, hsame⟩ | ⟨n, _, _, _, hn, _⟩
        · exact houter f hf (hsame.trans hentered)
        · omega
    · rw [hstays, if_neg Bool.false_ne_true]
      cases k with
      | zero =>
        refine iff_of_false (by simp) ?_
        rintro ⟨top, below, hentered, hbefore, hbehind⟩
        rw [List.take_zero, replayAll_nil, Option.some.injEq] at hbefore
        rw [List.take_succ_cons, List.take_zero, replayAll, hevent, Option.bind_some,
          replayAll_nil, Option.some.injEq] at hbehind
        cases inner with
        | nil =>
          obtain ⟨rfl, rfl⟩ := List.cons.inj hbefore
          have hlength := congrArg List.length hbehind
          simp at hlength
          omega
        | cons f inner =>
          obtain ⟨rfl, _⟩ := List.cons.inj hbefore
          exact hinner _ List.mem_cons_self hentered
      | succ k =>
        have hinside : (replayAll (index + 1) (inner' ++ { trial with reached } :: outer)
            events).isSome := by
          rw [hevents]
          rfl
        have hrest := induction (k := k) hinside (Nat.lt_succ_of_lt hindex) ?_ houter
        · rw [Option.map_eq_some_iff]
          simp only [Nat.succ.injEq, exists_eq_right]
          rw [hrest]
          simp only [PopsFrom, List.take_succ_cons, replayAll, hevent, Option.bind_some]
        · intro f hf
          rcases hinner' f hf with heq | ⟨before, hbefore, hsame⟩
          · exact heq ▸ Nat.ne_of_gt hindex
          · exact hsame ▸ hinner before hbefore

/-! ### Whole records -/

/-- A rule that is being tried in a record was entered by one of the events so far. -/
theorem entered_before (h : replayAll 0 [] (events.take k) = some stack) (htrial : trial ∈ stack) :
    trial.entered < k ∧ ∃ rule mark depth,
      events[trial.entered]? = some (.enter rule mark depth) := by
  rcases entered_of_replayAll h htrial with ⟨_, hnone, _⟩ | ⟨n, rule, mark, depth, hn, henter⟩
  · cases hnone
  · rw [Nat.zero_add] at hn
    rw [List.getElem?_take, Option.ite_none_right_eq_some] at henter
    exact hn ▸ ⟨henter.1, rule, mark, depth, henter.2⟩

/-- An event that enters a rule fits the rules that are being tried, and pushes its own. -/
theorem pushed_of_enter {rule : String} {mark depth : Nat}
    (h : (replayAll 0 [] events).isSome) (henter : events[i]? = some (.enter rule mark depth)) :
    ∃ stack, replayAll 0 [] (events.take i) = some stack ∧ depth = stack.length ∧
      replayAll 0 [] (events.take (i + 1)) = some (⟨rule, mark, mark, i⟩ :: stack) := by
  obtain ⟨hi, hevent⟩ := List.getElem?_eq_some_iff.mp henter
  obtain ⟨stack, hstack⟩ :=
    Option.isSome_iff_exists.mp (replayAll_first (List.take_prefix i events) h)
  have hsome := replayAll_first (List.take_prefix (i + 1) events) h
  rw [List.take_succ_eq_append_getElem hi, replayAll_append, hstack, hevent] at hsome ⊢
  simp only [Option.bind_some, replayAll, replay] at hsome ⊢
  by_cases hdepth : depth = stack.length
  · exact ⟨stack, rfl, hdepth, by simp [hdepth, Nat.min_eq_left (Nat.le_of_lt hi)]⟩
  · simp [hdepth] at hsome

theorem pops_iff (hpushed : replayAll 0 [] (events.take i) = some stack) (hi : i ≤ events.length) :
    PopsFrom 0 [] events k (i + j) ↔ PopsFrom i stack (events.drop i) k j := by
  have hlength : (events.take i).length = i := by
    rw [List.length_take, Nat.min_eq_left hi]
  have happend : PopsFrom 0 [] (events.take i ++ events.drop i) k ((events.take i).length + j) ↔
      PopsFrom (0 + (events.take i).length) stack (events.drop i) k j := popsFrom_append hpushed
  rw [List.take_append_drop, hlength, Nat.zero_add] at happend
  exact happend

end TraceEvent

/-! ### The exit that the viewer finds -/

namespace Viewer.Replay

open TraceEvent

variable {r : Replay} {i j : Nat}

theorem matchingExit?_enter {rule : String} {mark depth : Nat}
    (henter : r.log.events[i]? = some (.enter rule mark depth)) :
    r.matchingExit? i = ((r.log.events.toList.drop (i + 1)).findIdx? (leaves rule mark depth)).map
      (i + 1 + ·) := by
  simp only [matchingExit?, henter]
  congr 2

/-- In a record that can be replayed the viewer finds, for the event that enters a rule, the event
that pops this rule, and for other events nothing. -/
theorem matchingExit?_eq_some_iff (h : (replayAll 0 [] r.log.events.toList).isSome) :
    r.matchingExit? i = some j ↔ Pops r.log.events.toList i j := by
  generalize hlist : r.log.events.toList = events at h
  have hget : r.log.events[i]? = events[i]? := by
    rw [← hlist, Array.getElem?_toList]
  by_cases henter : ∃ rule mark depth, events[i]? = some (.enter rule mark depth)
  · obtain ⟨rule, mark, depth, henter⟩ := henter
    obtain ⟨hi, _⟩ := List.getElem?_eq_some_iff.mp henter
    obtain ⟨stack, hstack, rfl, hpushed⟩ := pushed_of_enter h henter
    rw [matchingExit?_enter (hget.trans henter), hlist, Option.map_eq_some_iff]
    have hrest : (replayAll (i + 1) ([] ++ (⟨rule, mark, mark, i⟩ : Trial) :: stack)
        (events.drop (i + 1))).isSome := by
      rw [← List.take_append_drop (i + 1) events, replayAll_append, hpushed, List.length_take,
        Nat.min_eq_left hi, Nat.zero_add] at h
      exact h
    have hfirst {k : Nat} := (findIdx?_leaves_iff (k := k) hrest (Nat.lt_succ_self i)
      (List.forall_mem_nil _) fun f hf => Nat.ne_of_lt (entered_before hstack hf).1).trans
        (pops_iff hpushed hi).symm
    constructor
    · rintro ⟨k, hfind, rfl⟩
      exact hfirst.mp hfind
    · intro hpop
      obtain ⟨trial, outer, hentry, hbefore, _⟩ := id hpop
      obtain ⟨k, rfl⟩ : ∃ k, j = i + 1 + k :=
        Nat.exists_eq_add_of_le (hentry ▸ (entered_before hbefore List.mem_cons_self).1)
      exact ⟨k, hfirst.mpr hpop, rfl⟩
  · refine iff_of_false ?_ ?_
    · unfold matchingExit?
      rw [hget]
      split
      · exact absurd ⟨_, _, _, ‹_›⟩ henter
      · exact fun hsome => by cases hsome
    · rintro ⟨trial, outer, rfl, hbefore, _⟩
      exact henter (entered_before hbefore List.mem_cons_self).2

end Viewer.Replay

end ShellSyntax
