import Mathlib.Data.List.Induction
import ShellSyntax.Proofs.Parser.Passes
import ShellSyntax.Proofs.Trace.Bracketing

/-!
What a parser records. No step looks at the record, so a run adds the same events to any record and
does otherwise the same. The events of a rule are bracketed: replayed on the rules that are being
tried, they leave these as they are.
-/

namespace ShellSyntax

open Outcome TraceEvent

namespace TraceLog

def pushAll (log : TraceLog) (events : List TraceEvent) : TraceLog :=
  events.foldl push log

@[simp] theorem pushAll_nil (log : TraceLog) : log.pushAll [] = log :=
  rfl

theorem pushAll_append (log : TraceLog) (first second : List TraceEvent) :
    log.pushAll (first ++ second) = (log.pushAll first).pushAll second :=
  List.foldl_append

theorem pushAll_empty (limit : Nat) (events : List TraceEvent) :
    (empty limit).pushAll events =
      ⟨(events.take limit).toArray, limit, events.length - limit⟩ := by
  induction events using List.reverseRecOn with
  | nil => rw [pushAll_nil, List.take_nil, List.length_nil, Nat.zero_sub, empty]
  | append_singleton events event induction =>
    rw [pushAll_append, induction]
    simp only [pushAll, List.foldl_cons, List.foldl_nil, push, isFull, List.size_toArray,
      List.length_take, List.length_append, List.length_singleton, decide_eq_true_eq]
    by_cases hfull : limit ≤ events.length
    · rw [if_pos (by omega), List.take_append_of_le_length hfull, Nat.succ_sub hfull]
    · rw [if_neg (by omega), List.take_of_length_le (by omega),
        List.take_of_length_le (by simp; omega), List.push_toArray]
      congr 1
      omega

end TraceLog

variable {R : RuleSet} {α β σ : Type}

namespace Session

def withTrace (s : Session R) (trace : Option TraceLog) : Session R :=
  { s with trace }

end Session

open Session

/-- The outcome of a run, but with this record. -/
def recorded (trace : Option TraceLog) :
    EStateM.Result Abort (Session R) α → EStateM.Result Abort (Session R) α
  | .ok a s => .ok a (s.withTrace trace)
  | .error e s => .error e (s.withTrace trace)

/-- Run from `s` with any record, the step adds `events` to it and does otherwise the same. -/
def Records (m : Parse R α) (s : Session R) (events : List TraceEvent) : Prop :=
  ∀ trace, m (s.withTrace trace) = recorded (trace.map (·.pushAll events)) (m s)

theorem map_pushAll_append (trace : Option TraceLog) (first second : List TraceEvent) :
    trace.map (·.pushAll (first ++ second)) =
      (trace.map (·.pushAll first)).map (·.pushAll second) := by
  cases trace with
  | none => rfl
  | some log => simp only [Option.map_some, TraceLog.pushAll_append]

namespace Records

variable {m : Parse R α} {k : α → Parse R β} {s t : Session R} {events later : List TraceEvent}

theorem congr {m' : Parse R α} (hm : Records m' s events)
    (h : ∀ trace, m (s.withTrace trace) = m' (s.withTrace trace)) : Records m s events := by
  intro trace
  rw [h, show m s = m' s from h s.trace]
  exact hm trace

theorem follow {a : α} (hm : Records m s events) (hrun : m s = .ok a t)
    (hk : Records (k a) t later) :
    Records (fun s => ShellSyntax.follow (m s) k) s (events ++ later) := by
  intro trace
  dsimp only
  rw [hm trace, hrun, map_pushAll_append]
  exact hk _

theorem follow_error {e : Abort} (hm : Records m s events) (hrun : m s = .error e t) :
    Records (fun s => ShellSyntax.follow (m s) k) s events := by
  intro trace
  dsimp only
  rw [hm trace, hrun]
  rfl

theorem after {change : Session R → Session R} {event : TraceEvent}
    (hchange : ∀ trace, change (s.withTrace trace) =
      (change s).withTrace (trace.map (·.pushAll [event])))
    (hm : Records m (change s) events) : Records (fun s => m (change s)) s (event :: events) := by
  intro trace
  dsimp only
  rw [hchange, hm, ← map_pushAll_append]
  rfl

end Records

/-- Replayed on rules as deep as the `depth`, the events leave these as they are if the run
succeeds. -/
structure Bracketed (depth : Nat) (run : EStateM.Result Abort (Session R) α)
    (events : List TraceEvent) : Prop where
  /-- No pass starts. -/
  within : .secondPass ∉ events
  level : ∀ a t, run = .ok a t → t.level = depth
  leaves : ∀ a t, run = .ok a t → ∀ index stack, stack.length = depth →
    replayAll index stack events = some stack
  /-- A run that fails stays inside the rules that it tries. -/
  fits : ∀ index stack, stack.length = depth → (replayAll index stack events).isSome

/-- The change of the state has nothing to do with the record. -/
structure Apart (change : Session R → Session R) : Prop where
  trace : ∀ s trace, change (s.withTrace trace) = (change s).withTrace trace
  level : ∀ s, (change s).level = s.level

/-- A run that is prepared for and cleaned up after. -/
def around (before cleanup : Session R → Session R) (value : α → β)
    (after : α → Session R → Session R) (m : Parse R α) : Parse R β := fun s =>
  match m (before s) with
  | .ok a s => .ok (value a) (after a s)
  | .error e s => .error e (cleanup s)

section Around

variable {before cleanup : Session R → Session R} {value : α → β}
  {after : α → Session R → Session R} {m : Parse R α} {s : Session R}

theorem of_around {b : β} {t : Session R} (h : around before cleanup value after m s = .ok b t) :
    ∃ a t', m (before s) = .ok a t' ∧ b = value a ∧ t = after a t' := by
  unfold around at h
  cases hm : m (before s) with
  | ok a t' =>
    rw [hm] at h
    cases h
    exact ⟨a, t', rfl, rfl, rfl⟩
  | error e t' =>
    rw [hm] at h
    cases h

theorem Records.around {events : List TraceEvent} (hbefore : Apart before)
    (hcleanup : Apart cleanup) (hafter : ∀ a, Apart (after a))
    (hm : Records m (before s) events) :
    Records (around before cleanup value after m) s events := by
  intro trace
  unfold ShellSyntax.around
  rw [hbefore.trace, hm trace]
  cases m (before s) with
  | ok a t => simp only [recorded, (hafter a).trace]
  | error e t => simp only [recorded, hcleanup.trace]

end Around

/-- The step adds bracketed events to the record and does not look at it. -/
def Spells (m : Parse R α) (s : Session R) : Prop :=
  ∃ events, Records m s events ∧ Bracketed s.level (m s) events

namespace Spells

variable {m : Parse R α} {k : α → Parse R β} {s : Session R}

theorem silent (hrun : ∀ trace, m (s.withTrace trace) = recorded trace (m s))
    (hlevel : ∀ a t, m s = .ok a t → t.level = s.level) : Spells m s := by
  refine ⟨[], fun trace => ?_, by simp, hlevel, fun _ _ _ _ _ _ => rfl, fun _ _ _ => rfl⟩
  rw [hrun]
  cases trace <;> rfl

theorem change {f : Session R → Session R} (hf : Apart f) (a : α) :
    Spells (fun s => .ok a (f s)) s :=
  silent (fun trace => congrArg (EStateM.Result.ok a) (hf.trace s trace)) fun _ _ h => by
    cases h
    exact hf.level s

theorem pure (a : α) : Spells (fun s => .ok a s) s :=
  change ⟨fun _ _ => rfl, fun _ => rfl⟩ a

theorem error (e : Abort) : Spells (fun s => .error e s : Parse R α) s :=
  silent (fun _ => rfl) fun _ _ h => by cases h

theorem follow (hm : Spells m s) (hk : ∀ a t, m s = .ok a t → Spells (k a) t) :
    Spells (fun s => follow (m s) k) s := by
  obtain ⟨events, hrecords, hbracketed⟩ := hm
  cases hrun : m s with
  | error e t =>
    refine ⟨events, hrecords.follow_error hrun, hbracketed.within, ?_, ?_, hbracketed.fits⟩
    all_goals simp [ShellSyntax.follow, hrun]
  | ok a t =>
    obtain ⟨later, hlater, hnested⟩ := hk a t hrun
    have hlevel := hbracketed.level a t hrun
    have hfirst := hbracketed.leaves a t hrun
    have hsame : ShellSyntax.follow (m s) k = k a t := by
      rw [hrun]
      rfl
    refine ⟨events ++ later, hrecords.follow hrun hlater, ?_, ?_, ?_, ?_⟩
    · simp [hbracketed.within, hnested.within]
    · dsimp only
      rw [hsame, ← hlevel]
      exact hnested.level
    · intro b u hb index stack hstack
      dsimp only at hb
      rw [hsame] at hb
      rw [replayAll_append, hfirst index stack hstack, Option.bind_some]
      exact hnested.leaves b u hb _ _ (hstack.trans hlevel.symm)
    · intro index stack hstack
      rw [replayAll_append, hfirst index stack hstack, Option.bind_some]
      exact hnested.fits _ _ (hstack.trans hlevel.symm)

theorem congr {m' : Parse R α} (hm : Spells m' s)
    (h : ∀ trace, m (s.withTrace trace) = m' (s.withTrace trace)) : Spells m s := by
  have hsame : m s = m' s := h s.trace
  obtain ⟨events, hrecords, hbracketed⟩ := hm
  exact ⟨events, hrecords.congr h, hsame ▸ hbracketed⟩

theorem before {f : Session R → Session R} (hf : Apart f) (hm : Spells m (f s)) :
    Spells (fun s => m (f s)) s := by
  obtain ⟨events, hrecords, hbracketed⟩ := hm
  refine ⟨events, fun trace => ?_, hf.level s ▸ hbracketed⟩
  dsimp only
  rw [hf.trace]
  exact hrecords trace

theorem around {before cleanup : Session R → Session R} {value : α → β}
    {after : α → Session R → Session R} (hbefore : Apart before) (hcleanup : Apart cleanup)
    (hafter : ∀ a, Apart (after a)) (hm : Spells m (before s)) :
    Spells (around before cleanup value after m) s := by
  obtain ⟨events, hrecords, hbracketed⟩ := hm
  have hlevel := hbefore.level s
  refine ⟨events, hrecords.around hbefore hcleanup hafter, hbracketed.within, fun b t h => ?_,
    fun b t h => ?_, hlevel ▸ hbracketed.fits⟩
  all_goals obtain ⟨a, t', hm, _, rfl⟩ := of_around h
  · rw [(hafter a).level, hbracketed.level a t' hm, hlevel]
  · exact hlevel ▸ hbracketed.leaves a t' hm

end Spells

/-! ### Steps -/

section Steps

variable {s : Session R}

theorem read_spells (step : Stream α) : Spells (Session.read step) s := by
  have hsame (trace : Option TraceLog) : (s.withTrace trace).stream = s.stream := rfl
  cases hstep : step s.stream with
  | ok value stream =>
    let found (s : Session R) : Session R := { s with stream }
    have hfound : Apart found := ⟨fun _ _ => rfl, fun _ => rfl⟩
    refine (Spells.change hfound value).congr fun trace => ?_
    rw [Session.read, hsame, hstep]
  | error e stream =>
    have herror : Spells (fun s => .error (.lexical e) { s with stream } : Parse R α) s :=
      .silent (fun _ => rfl) fun _ _ h => by cases h
    refine herror.congr fun trace => ?_
    rw [Session.read, hsame, hstep]

theorem fail_spells (fault : Fault) : Spells (Session.fail fault : Parse R α) s := by
  refine .silent (fun _ => rfl) fun a t h => ?_
  unfold Session.fail at h
  cases h

theorem perform_spells (action : Action β) : Spells (Session.perform action) s := by
  cases action with
  | peek => exact read_spells _
  | next => exact read_spells _
  | fail fault => exact fail_spells fault
  | mark | reset | spanSince | lastToken? | isDiagnosing =>
    refine .silent (fun _ => rfl) fun a t h => ?_
    cases h
    rfl

theorem tooDeep_eq : (Parser.tooDeep : Parse R α) = fun s =>
    follow (Session.read TokenStream.peek s) fun token =>
      Session.fail ⟨.syntactic, tooDeepMessage, .range token.start token.stop⟩ := by
  funext s
  rw [Parser.tooDeep, run_bind]
  cases Session.read TokenStream.peek s <;> rfl

theorem tooDeep_spells : Spells (Parser.tooDeep : Parse R α) s := by
  rw [tooDeep_eq]
  exact (read_spells _).follow fun token t _ => fail_spells _

theorem nest_spells {inner : Parse R β} (h : ∀ s, Spells inner s) :
    Spells (Parser.nest inner) s := by
  by_cases hdeep : Session.nestingLimit ≤ s.nesting
  · exact tooDeep_spells.congr fun trace => nest_deep (s := s.withTrace trace) hdeep
  · let deeper (s : Session R) : Session R := { s with nesting := s.nesting + 1 }
    let back (s : Session R) : Session R := { s with nesting := s.nesting - 1 }
    have hdeeper : Apart deeper := ⟨fun _ _ => rfl, fun _ => rfl⟩
    have hback : Apart back := ⟨fun _ _ => rfl, fun _ => rfl⟩
    have haround : Spells (around deeper back id (fun _ => back) inner) s :=
      .around hdeeper hback (fun _ => hback) (h (deeper s))
    exact haround.congr fun trace => nest_within (s := s.withTrace trace) hdeep

theorem rounds_succ (body : σ → Parse R (σ ⊕ β)) (fuel : Nat) (state : σ) :
    Parser.rounds body (fuel + 1) state = fun s =>
      follow (body state s) (Sum.elim (Parser.rounds body fuel) fun result s => .ok result s) := by
  funext s
  simp only [Parser.rounds, run_bind, follow]
  cases body state s with
  | ok outcome s => cases outcome <;> rfl
  | error e s => rfl

theorem rounds_spells {body : σ → Parse R (σ ⊕ β)} (hbody : ∀ state s, Spells (body state) s)
    (fuel : Nat) (state : σ) : Spells (Parser.rounds body fuel state) s := by
  induction fuel generalizing state s with
  | zero => exact .error .endless
  | succ fuel induction =>
    rw [rounds_succ]
    refine (hbody state s).follow ?_
    rintro (state | result) t _
    · exact induction state
    · exact .pure result

theorem exec_spells {callee : (r : R.Rule) → Parse R (Option (R.Node r))}
    (hcallee : ∀ r s, Spells (callee r) s) (m : Matcher R α) : Spells (Parser.exec callee m) s := by
  induction m generalizing s with
  | done value => exact .pure value
  | act action next induction =>
    rw [funext (exec_act callee · action next)]
    exact (perform_spells action).follow fun v t _ => induction v
  | call r next induction =>
    rw [funext (exec_call callee · r next)]
    exact (hcallee r s).follow fun node t _ => induction node
  | deeper inner next hinner induction =>
    rw [funext (exec_deeper callee · inner next)]
    exact (nest_spells fun s => hinner).follow fun v t _ => induction v
  | iterate body state next hbody induction =>
    rw [funext (exec_iterate callee · body state next)]
    have hrounds : Spells (fun s => Parser.rounds
        (fun state => Parser.exec callee (body state)) s.bound state s) s :=
      rounds_spells (fun state s => hbody state) s.bound state
    exact hrounds.follow fun v t _ => induction v

end Steps

/-! ### Rules -/

section Rules

variable {r : R.Rule} {i : Nat} {s : Session R}

theorem lookup_spells : Spells (Parser.lookup? r i) s := by
  cases hentry : s.memo[(R.name r, i)]? with
  | none =>
    have hrun (trace : Option TraceLog) :
        Parser.lookup? r i (s.withTrace trace) = .ok none (s.withTrace trace) :=
      lookup_missed hentry
    refine .silent (fun trace => ?_) fun a t h => ?_
    · rw [hrun trace, lookup_missed hentry]
      rfl
    · rw [lookup_missed hentry] at h
      cases h
      rfl
  | some entry =>
    have hentry' (trace : Option TraceLog) :
        (s.withTrace trace).memo[(R.name r, i)]? = some entry := hentry
    by_cases hrule : entry.rule = r
    · refine ⟨[.memo (R.name r) i entry.stop entry.node.isSome s.level], fun trace => ?_, ?_⟩
      · simp only [Parser.lookup?, hentry, hentry', dif_pos hrule]
        cases trace <;> rfl
      · simp only [Parser.lookup?, hentry, dif_pos hrule]
        refine ⟨by simp, fun a t h => ?_, fun a t _ index stack hstack => ?_,
          fun index stack hstack => ?_⟩
        · cases h
          rfl
        all_goals simp [replayAll, replay, hstack]
    · refine .silent (fun trace => ?_) fun a t h => ?_
      · simp only [Parser.lookup?, hentry, hentry', dif_neg hrule]
        rfl
      · simp only [Parser.lookup?, hentry, dif_neg hrule] at h
        cases h

/-- A run inside the rule `r`, which was entered at `i` and whose longest match so far ends at
`reached`. It may note that the match has grown. -/
structure Inside (r : R.Rule) (i depth reached : Nat) (run : EStateM.Result Abort (Session R) α)
    (events : List TraceEvent) : Prop where
  within : .secondPass ∉ events
  level : ∀ a t, run = .ok a t → t.level = depth + 1
  leaves : ∀ a t, run = .ok a t → ∀ index entered outer, outer.length = depth →
    ∃ reached', replayAll index (⟨R.name r, i, reached, entered⟩ :: outer) events =
      some (⟨R.name r, i, reached', entered⟩ :: outer)
  fits : ∀ index entered outer, outer.length = depth →
    (replayAll index (⟨R.name r, i, reached, entered⟩ :: outer) events).isSome

/-- Run inside the rule, the step adds events that name it to the record. -/
def Notes (r : R.Rule) (i depth reached : Nat) (m : Parse R α) (s : Session R) : Prop :=
  ∃ events, Records m s events ∧ Inside r i depth reached (m s) events

namespace Notes

variable {depth reached : Nat} {m : Parse R α} {k : α → Parse R β}

theorem of_spells (hm : Spells m s) (hlevel : s.level = depth + 1) :
    Notes r i depth reached m s := by
  obtain ⟨events, hrecords, hbracketed⟩ := hm
  rw [hlevel] at hbracketed
  refine ⟨events, hrecords, hbracketed.within, hbracketed.level, ?_, ?_⟩
  · exact fun a t hrun index entered outer houter =>
      ⟨reached, hbracketed.leaves a t hrun index _ (congrArg (· + 1) houter)⟩
  · exact fun index entered outer houter => hbracketed.fits index _ (congrArg (· + 1) houter)

theorem congr {m' : Parse R α} (hm : Notes r i depth reached m' s)
    (h : ∀ trace, m (s.withTrace trace) = m' (s.withTrace trace)) :
    Notes r i depth reached m s := by
  have hsame : m s = m' s := h s.trace
  obtain ⟨events, hrecords, hinside⟩ := hm
  exact ⟨events, hrecords.congr h, hsame ▸ hinside⟩

theorem follow (hm : Spells m s) (hlevel : s.level = depth + 1)
    (hk : ∀ a t, m s = .ok a t → t.level = depth + 1 → Notes r i depth reached (k a) t) :
    Notes r i depth reached (fun s => follow (m s) k) s := by
  obtain ⟨events, hrecords, hbracketed⟩ := hm
  rw [hlevel] at hbracketed
  cases hrun : m s with
  | error e t =>
    refine ⟨events, hrecords.follow_error hrun, hbracketed.within, ?_, ?_, ?_⟩
    · simp [ShellSyntax.follow, hrun]
    · simp [ShellSyntax.follow, hrun]
    · exact fun index entered outer houter => hbracketed.fits index _ (congrArg (· + 1) houter)
  | ok a t =>
    have htop := hbracketed.level a t hrun
    obtain ⟨later, hlater, hinside⟩ := hk a t hrun htop
    have hfirst (index entered : Nat) (outer : List Trial) (houter : outer.length = depth) :=
      hbracketed.leaves a t hrun index (⟨R.name r, i, reached, entered⟩ :: outer)
        (congrArg (· + 1) houter)
    have hsame : ShellSyntax.follow (m s) k = k a t := by
      rw [hrun]
      rfl
    refine ⟨events ++ later, hrecords.follow hrun hlater, ?_, ?_, ?_, ?_⟩
    · simp [hbracketed.within, hinside.within]
    · dsimp only
      rw [hsame]
      exact hinside.level
    · intro b u hb index entered outer houter
      dsimp only at hb
      rw [hsame] at hb
      rw [replayAll_append, hfirst index entered outer houter, Option.bind_some]
      exact hinside.leaves b u hb _ _ _ houter
    · intro index entered outer houter
      rw [replayAll_append, hfirst index entered outer houter, Option.bind_some]
      exact hinside.fits _ _ _ houter

theorem around {before cleanup : Session R → Session R} {value : α → β}
    {after : α → Session R → Session R} (hbefore : Apart before) (hcleanup : Apart cleanup)
    (hafter : ∀ a, Apart (after a)) (hm : Notes r i depth reached m (before s)) :
    Notes r i depth reached (around before cleanup value after m) s := by
  obtain ⟨events, hrecords, hinside⟩ := hm
  refine ⟨events, hrecords.around hbefore hcleanup hafter, hinside.within, fun b t h => ?_,
    fun b t h => ?_, hinside.fits⟩
  all_goals obtain ⟨a, t', hm, _, rfl⟩ := of_around h
  · exact ((hafter a).level t').trans (hinside.level a t' hm)
  · exact hinside.leaves a t' hm

end Notes

/-- A rule is entered and left around what is run inside it. It ends behind its mark if it matches,
and there if it fails. -/
theorem Notes.spells {inner : Parse R (Option (R.Node r))}
    (h : Notes r i s.level i inner (Parser.enterRule r i s))
    (hstop : ∀ node t, inner (Parser.enterRule r i s) = .ok node t →
      i ≤ t.mark ∧ (node.isSome = false → t.mark = i)) :
    Spells (fun s => ShellSyntax.follow (inner (Parser.enterRule r i s)) fun node t =>
      .ok node (Parser.leaveRule r i node.isSome t)) s := by
  obtain ⟨events, hrecords, h⟩ := h
  have henter : Records (fun s => inner (Parser.enterRule r i s)) s
      (.enter (R.name r) i s.level :: events) :=
    .after (fun trace => by cases trace <;> rfl) hrecords
  have hopened (index : Nat) (stack : List Trial) (hstack : stack.length = s.level)
      (later : List TraceEvent) :
      replayAll index stack (.enter (R.name r) i s.level :: later) =
        replayAll (index + 1) (⟨R.name r, i, i, index⟩ :: stack) later := by
    simp [replayAll, replay, hstack]
  cases hrun : inner (Parser.enterRule r i s) with
  | error e t =>
    refine ⟨_, henter.follow_error hrun, ?_, ?_, ?_, ?_⟩
    · simp [h.within]
    · simp [ShellSyntax.follow, hrun]
    · simp [ShellSyntax.follow, hrun]
    · intro index stack hstack
      rw [hopened index stack hstack]
      exact h.fits _ _ _ hstack
  | ok node t =>
    have hlevel := h.level node t hrun
    obtain ⟨hstop, hfailed⟩ := hstop node t hrun
    let left : TraceEvent := .exit (R.name r) i t.mark node.isSome s.level
    have hdepth : left = .exit (R.name r) i t.mark node.isSome (t.level - 1) := by
      rw [hlevel, Nat.add_sub_cancel]
    have hleave : Records (fun t => .ok node (Parser.leaveRule r i node.isSome t)) t [left] := by
      intro trace
      rw [hdepth]
      cases trace <;> rfl
    have hreplay (index : Nat) (stack : List Trial) (hstack : stack.length = s.level) :
        replayAll index stack ((.enter (R.name r) i s.level :: events) ++ [left]) =
          some stack := by
      obtain ⟨reached, hinner⟩ := h.leaves node t hrun (index + 1) index stack hstack
      rw [List.cons_append, hopened index stack hstack, replayAll_append, hinner,
        Option.bind_some]
      simpa [left, replayAll, replay, hstack, hstop] using hfailed
    refine ⟨_, henter.follow hrun hleave, ?_, ?_, ?_, ?_⟩
    · simp [h.within, left]
    · intro a u hdone
      simp only [hrun, ShellSyntax.follow, EStateM.Result.ok.injEq] at hdone
      obtain ⟨rfl, rfl⟩ := hdone
      exact (congrArg (· - 1) hlevel).trans (Nat.add_sub_cancel _ _)
    · intro a u _ index stack hstack
      exact hreplay index stack hstack
    · intro index stack hstack
      rw [hreplay index stack hstack]
      rfl

end Rules

end ShellSyntax
