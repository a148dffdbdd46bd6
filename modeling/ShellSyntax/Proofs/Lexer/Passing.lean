import ShellSyntax.Proofs.Lexer.Onward

/-!
The states through which a lexer passes as long as it does not fail, each with the tokens found up to
it. What the moves of a lexer keep holds of all of them, and every token is found in one of its steps.
-/

namespace ShellSyntax.Lexer

open Outcome
open Relation (ReflTransGen)

/-- The first `count` tokens and the state behind them, if none of them fails. -/
def pulled : (count : Nat) → Lexer → Option (List Token × Lexer)
  | 0, l => some ([], l)
  | count + 1, l =>
    match pull l with
    | .ok token l => (pulled count l).map fun run => (token :: run.1, run.2)
    | .error _ _ => none

theorem Reaches.pulled {source : Source} {tabSize count : Nat} {before tokens : List Token}
    {l l' : Lexer} (reached : Reaches source tabSize before l)
    (hpulled : l.pulled count = some (tokens, l')) :
    Reaches source tabSize (before ++ tokens) l' := by
  induction count generalizing before tokens l with
  | zero =>
    obtain ⟨rfl, rfl⟩ := Prod.mk.inj (Option.some.inj hpulled)
    rwa [List.append_nil]
  | succ count induction =>
    rw [Lexer.pulled] at hpulled
    cases hpull : Lexer.pull l with
    | ok token next =>
      simp only [hpull, Option.map_eq_some_iff] at hpulled
      obtain ⟨⟨more, last⟩, hmore, hsame⟩ := hpulled
      obtain ⟨rfl, rfl⟩ := Prod.mk.inj hsame
      simpa using induction (reached.pull hpull) hmore
    | error e next => simp [hpull] at hpulled

/-- The states of a lexer on `source` that has not failed, with all the tokens found so far. -/
inductive Passes (source : Source) (tabSize : Nat) : List Token → Lexer → Prop
  | start : Passes source tabSize [] (ofSource source tabSize)
  | step {found : List Token} {l l' : Lexer} (passed : Passes source tabSize found l)
      (hpending : l.pending = []) (hworks : l.finished = false) (hstep : step l = .ok () l') :
      Passes source tabSize (found ++ l'.pending) l'
  | handOut {found pending : List Token} {l : Lexer} {token : Token}
      (passed : Passes source tabSize found l) (hpending : l.pending = token :: pending) :
      Passes source tabSize found { l with pending }
  | endMarker {found : List Token} {l : Lexer} (passed : Passes source tabSize found l)
      (hpending : l.pending = []) (hfinished : l.finished = true) :
      Passes source tabSize (found ++ [.endMarker l.lineNumber]) l

variable {source : Source} {tabSize : Nat} {before found : List Token} {l l' : Lexer}

namespace Passes

theorem visits (passed : Passes source tabSize found l) : Visits source tabSize found l := by
  induction passed with
  | start => exact .start
  | step _ hpending hworks hstep induction =>
    have next := induction.step hpending hworks
    rwa [hstep] at next
  | handOut _ hpending induction => exact induction.handOut hpending
  | endMarker _ hpending _ induction => exact induction.endMarker hpending

theorem toCome_lt (passed : Passes source tabSize found l) : l.toCome < l.bound :=
  passed.visits.inLine.2

theorem moves (passed : Passes source tabSize found l) (hstep : Lexer.step l = .ok () l') :
    Moves l l' :=
  moves_of_step passed.toCome_lt hstep

theorem working (passed : Passes source tabSize found l) (hrest : l.rest ≠ []) :
    l.finished = false := by
  induction passed with
  | start => rfl
  | step passed _ hworks hstep =>
    obtain hsame | ⟨rfl, hnone, _⟩ := ((passed.moves hstep).progress hworks).ends
    · exact hsame.trans hworks
    · exact absurd (by simpa using hnone) hrest
  | handOut _ _ induction => exact induction hrest
  | endMarker _ _ _ induction => exact induction hrest

theorem emptied (passed : Passes source tabSize found l) :
    Passes source tabSize found { l with pending := [] } := by
  generalize hall : l.pending = all
  induction all generalizing l with
  | nil =>
    have same : { l with pending := [] } = l := by rw [← hall]
    rwa [same]
  | cons token pending induction => exact induction (l := { l with pending }) (passed.handOut hall) rfl

theorem work (passed : Passes source tabSize (before ++ l.pending) l) {fuel : Nat}
    (hwork : Lexer.work fuel l = .ok () l') :
    Passes source tabSize (before ++ l'.pending) l' := by
  induction fuel generalizing l with
  | zero =>
    obtain ⟨_, rfl⟩ := pure_ok.mp hwork
    exact passed
  | succ fuel induction =>
    rw [Lexer.work, get_bind_ok, ite_ok] at hwork
    split at hwork
    case isTrue hidle =>
      rw [Bool.and_eq_true, List.isEmpty_iff, Bool.not_eq_true'] at hidle
      obtain ⟨_, m, hstep, hwork⟩ := bind_ok.mp hwork
      rw [hidle.1, List.append_nil] at passed
      exact induction (passed.step hidle.1 hidle.2 hstep) hwork
    case isFalse =>
      obtain ⟨_, rfl⟩ := pure_ok.mp hwork
      exact passed

theorem of_reaches (reached : Reaches source tabSize found l) :
    Passes source tabSize (found ++ l.pending) l := by
  induction reached with
  | start => exact .start
  | @pull tokens l l' token reached hpull induction =>
    rw [Lexer.pull, get_bind_ok] at hpull
    obtain ⟨_, m, hwork, hpull⟩ := bind_ok.mp hpull
    have passed := induction.work hwork
    have ready := (works_of_work (.inl reached.toCome_lt) reached.toCome_lt hwork).isReady
    rw [get_bind_ok] at hpull
    cases hpending : m.pending with
    | cons first pending =>
      simp only [hpending, set_bind_ok, pure_ok] at hpull
      obtain ⟨rfl, rfl⟩ := hpull
      rw [hpending] at passed
      simpa using passed.handOut hpending
    | nil =>
      simp only [hpending, pure_ok] at hpull
      obtain ⟨rfl, rfl⟩ := hpull
      rw [hpending, List.append_nil] at passed ⊢
      exact passed.endMarker hpending (ready.resolve_left (not_not_intro hpending))

/-- A state behind some tokens that have been handed out, found by running the lexer. -/
theorem of_run (source : Source) (tabSize count : Nat) (holds : List Token → Lexer → Bool)
    (hrun : (pulled count (ofSource source tabSize)).any (fun run => holds run.1 run.2) = true) :
    ∃ tokens l, Passes source tabSize (tokens ++ l.pending) l ∧ holds tokens l = true := by
  obtain ⟨⟨tokens, l⟩, hpulled, hholds⟩ := (Option.any_eq_true _ _).mp hrun
  have reached := Reaches.start.pulled hpulled
  rw [List.nil_append] at reached
  exact ⟨tokens, l, of_reaches reached, hholds⟩

end Passes

/-! ### One way on -/

/-- The state that follows, with the tokens found up to it. -/
def following (found : List Token) (l : Lexer) : Option (List Token × Lexer) :=
  match l.pending with
  | _ :: pending => some (found, { l with pending })
  | [] =>
    if l.finished then some (found ++ [.endMarker l.lineNumber], l)
    else
      match step l with
      | .ok _ l' => some (found ++ l'.pending, l')
      | .error _ _ => none

theorem prefix_of_following {next : List Token × Lexer}
    (hnext : following found l = some next) : found <+: next.1 := by
  unfold following at hnext
  split at hnext
  · obtain rfl := Option.some.inj hnext
    exact List.prefix_refl _
  · split at hnext
    · obtain rfl := Option.some.inj hnext
      exact List.prefix_append _ _
    · split at hnext
      · obtain rfl := Option.some.inj hnext
        exact List.prefix_append _ _
      · cases hnext

namespace Passes

theorem follows (passed : Passes source tabSize found l) :
    ReflTransGen (fun state next => following state.1 state.2 = some next) ([], ofSource source tabSize)
      (found, l) := by
  induction passed with
  | start => exact .refl
  | step _ hpending hworks hstep induction =>
    exact induction.tail (by simp [following, hpending, hworks, hstep])
  | handOut _ hpending induction => exact induction.tail (by simp [following, hpending])
  | endMarker _ hpending hfinished induction =>
    exact induction.tail (by simp [following, hpending, hfinished])

theorem comparable (first : Passes source tabSize found l)
    (second : Passes source tabSize before l') : found <+: before ∨ before <+: found := by
  have unique : Relator.RightUnique fun state next : List Token × Lexer =>
      following state.1 state.2 = some next :=
    fun _ _ _ hnext hother => Option.some.inj (hnext.symm.trans hother)
  have grows {state last : List Token × Lexer}
      (steps : ReflTransGen (fun state next => following state.1 state.2 = some next) state last) :
      state.1 <+: last.1 := by
    induction steps with
    | refl => exact List.prefix_refl _
    | tail _ hnext induction => exact induction.trans (prefix_of_following hnext)
  exact (ReflTransGen.total_of_right_unique unique first.follows second.follows).imp grows grows

end Passes

theorem Invariant.passes {holds : List Token → Lexer → Prop} (invariant : Invariant holds)
    (start : holds [] (ofSource source tabSize)) (passed : Passes source tabSize found l) :
    holds found l := by
  induction passed with
  | start => exact start
  | step passed hpending hworks hstep induction =>
    exact invariant.move induction hpending hworks (passed.moves hstep)
  | handOut _ hpending induction => exact invariant.handOut induction hpending
  | endMarker _ hpending hfinished induction =>
    exact invariant.sourceEnd induction hpending hfinished

end ShellSyntax.Lexer
