import ShellSyntax.Proofs.Parser.Course
import ShellSyntax.Sample

/-!
The books of the parser: which rules are being tried, how many of them grow, how many brackets are
open and how deep the rules are. Every run leaves the first three as it found them, however it ends.
The level is taken back where a rule is left. A rule that is aborted is not left, so an abort leaves
the level raised by the rules that were open.
-/

namespace ShellSyntax

open Outcome

namespace TraceEvent

def isEnter : TraceEvent → Bool
  | enter _ _ _ => true
  | _ => false

def isExit : TraceEvent → Bool
  | exit _ _ _ _ _ => true
  | _ => false

section Counts

variable {rule : String} {i j depth depth' : Nat} {matched : Bool} {events : List TraceEvent}

theorem countP_isEnter_entered :
    (enter rule i depth :: events).countP isEnter = events.countP isEnter + 1 :=
  List.countP_cons_of_pos rfl

theorem countP_isExit_entered :
    (enter rule i depth :: events).countP isExit = events.countP isExit :=
  List.countP_cons_of_neg Bool.false_ne_true

theorem countP_isEnter_left :
    (enter rule i depth :: events ++ [exit rule i j matched depth']).countP isEnter =
      events.countP isEnter + 1 := by
  rw [List.countP_append, countP_isEnter_entered]
  rfl

theorem countP_isExit_left :
    (enter rule i depth :: events ++ [exit rule i j matched depth']).countP isExit =
      events.countP isExit + 1 := by
  rw [List.countP_append, countP_isExit_entered]
  rfl

end Counts

end TraceEvent

open TraceEvent

variable {R : RuleSet} {α : Type} {own : Option (R.Rule × Mark)} {s t : Session R}
  {success : Bool} {events : List TraceEvent}

/-- `t` is trying what `s` is, with as many rules growing and as many brackets open. -/
structure Session.Resumes (s t : Session R) : Prop where
  active : ∀ key, key ∈ t.active ↔ key ∈ s.active
  growing : t.growing = s.growing
  nesting : t.nesting = s.nesting

namespace Session.Resumes

variable {u : Session R}

theorem trans (h : s.Resumes t) (h' : t.Resumes u) : s.Resumes u where
  active key := (h'.active key).trans (h.active key)
  growing := h'.growing.trans h.growing
  nesting := h'.nesting.trans h.nesting

theorem of_trying {r : R.Rule} {i : Mark} (hidle : (R.name r, i) ∉ s.active)
    (h : ((Parser.enterRule r i s).trying r i).Resumes t) : s.Resumes (t.tried r i) where
  active key := by
    have hinside : key ∈ t.active ↔ key ∈ s.active.insert (R.name r, i) := h.active key
    have hleft : key ∈ (t.tried r i).active ↔ key ∈ t.active.erase (R.name r, i) := .rfl
    rw [hleft, Std.HashSet.mem_erase, hinside, Std.HashSet.mem_insert, beq_iff_eq,
      beq_eq_false_iff_ne]
    refine ⟨fun ⟨hother, h⟩ => h.resolve_left hother, fun h => ⟨?_, .inr h⟩⟩
    rintro rfl
    exact hidle h
  growing := h.growing
  nesting := h.nesting

theorem of_growing {r : R.Rule} {i : Mark}
    (h : ((Parser.enterRule r i s).startGrowing r i).Resumes t) : s.Resumes t.stopGrowing where
  active := h.active
  growing := by
    have hinside : t.growing = s.growing + 1 := h.growing
    have hleft : t.stopGrowing.growing = t.growing - 1 := rfl
    rw [hleft, hinside, Nat.add_sub_cancel]
  nesting := h.nesting

end Session.Resumes

namespace Course

theorem resumes (h : Course own s success events t) : s.Resumes t := by
  induction h with
  | reads | recalls | grows => exact ⟨fun _ => .rfl, rfl, rfl⟩
  | andThen hfirst hlater ih ih' => exact ih.trans ih'
  | @deeper s t events success hinner ih =>
    have hinside : t.nesting = s.nesting + 1 := ih.nesting
    have hleft : t.back.nesting = t.nesting - 1 := rfl
    exact ⟨ih.active, ih.growing, by rw [hleft, hinside, Nat.add_sub_cancel]⟩
  | completes node stop hpolicy hfresh hidle hbody hstop ih =>
    exact (ih.of_trying hidle).trans ⟨fun _ => .rfl, rfl, rfl⟩
  | abandons hpolicy hfresh hidle hbody ih => exact ih.of_trying hidle
  | ripens best hpolicy hfresh hgrowth ih => exact ih.of_growing.trans ⟨fun _ => .rfl, rfl, rfl⟩
  | withers hpolicy hfresh hgrowth ih => exact ih.of_growing
  | inside hbody ih => exact ih

theorem level_of_success (h : Course own s success events t) (hsuccess : success = true) :
    t.level = s.level := by
  induction h with
  | reads | recalls | grows => rfl
  | andThen hfirst hlater ih ih' => exact (ih' hsuccess).trans (ih rfl)
  | deeper hinner ih | inside hinner ih => exact ih hsuccess
  | completes node stop hpolicy hfresh hidle hbody hstop ih => exact congrArg (· - 1) (ih rfl)
  | ripens best hpolicy hfresh hgrowth ih => exact congrArg (· - 1) (ih rfl)
  | abandons | withers => cases hsuccess

theorem level (h : Course own s success events t) :
    t.level + events.countP isExit = s.level + events.countP isEnter := by
  induction h with
  | reads | recalls | grows => rfl
  | andThen hfirst hlater ih ih' =>
    simp only [List.countP_append]
    omega
  | deeper hinner ih | inside hinner ih => exact ih
  | @completes s t r events _ _ _ _ _ hinner _ ih | @ripens s t r events _ _ _ hinner ih =>
    have hinside : t.level = s.level + 1 := hinner.level_of_success rfl
    have hcounted : t.level + events.countP isExit = s.level + 1 + events.countP isEnter := ih
    rw [countP_isExit_left, countP_isEnter_left]
    change t.level - 1 + _ = _
    omega
  | @abandons s t r events _ _ _ _ ih | @withers s t r events _ _ _ ih =>
    have hcounted : t.level + events.countP isExit = s.level + 1 + events.countP isEnter := ih
    rw [countP_isExit_entered, countP_isEnter_entered]
    change t.level + _ = _
    omega

theorem misses (h : Course own s success events t) :
    t.stats.misses = s.stats.misses + events.countP isEnter := by
  induction h with
  | reads | recalls | grows => rfl
  | andThen hfirst hlater ih ih' =>
    rw [List.countP_append, ih', ih, Nat.add_assoc]
  | deeper hinner ih | inside hinner ih => exact ih
  | @completes s t r events _ _ _ _ _ _ _ ih | @ripens s t r events _ _ _ _ ih =>
    have hcounted : t.stats.misses = s.stats.misses + 1 + events.countP isEnter := ih
    rw [countP_isEnter_left]
    change t.stats.misses = _
    omega
  | @abandons s t r events _ _ _ _ ih | @withers s t r events _ _ _ ih =>
    have hcounted : t.stats.misses = s.stats.misses + 1 + events.countP isEnter := ih
    rw [countP_isEnter_entered]
    change t.stats.misses = _
    omega

end Course

/-- The books behind a run of the step. The level is only changed by an abort: it stays raised by
the rules that were entered and not left, as any record would say. -/
structure KeepsBooks (m : Parse R α) (s : Session R) : Prop where
  resumes : s.Resumes (final (m s))
  level : succeeded (m s) = true → (final (m s)).level = s.level
  raised : ∃ events, Records m s events ∧
    (final (m s)).level + events.countP isExit = s.level + events.countP isEnter

theorem Proceeds.keepsBooks {m : Parse R α} (h : Proceeds m) (s : Session R) : KeepsBooks m s := by
  obtain ⟨events, hrecords, hcourse⟩ := h s
  exact ⟨hcourse.resumes, hcourse.level_of_success, events, hrecords, hcourse.level⟩

/-- However a rule or a part in brackets ends, the same rules are being tried behind it, as many
rules grow and as many brackets are open as before. The level is the same if it does not abort. -/
theorem books_balanced (G : Grammar R) (fuel : Nat) (s : Session R) :
    (∀ r, KeepsBooks (Parser.call G fuel r) s) ∧
      ∀ {α : Type} (m : Matcher R α),
        KeepsBooks (Parser.nest (Parser.exec (Parser.call G fuel) m)) s :=
  ⟨fun r => (call_proceeds G fuel r).keepsBooks s,
    fun m => (nest_proceeds (exec_proceeds (call_proceeds G fuel) m)).keepsBooks s⟩

/-- A string that does not end aborts the rule that reads it, and the level stays raised. -/
theorem level_raised_by_abort :
    let s := Sample.session "'a\n" "" none
    ∃ e t, Parser.runRule Sample.grammar Sample.Rule.item s = .error e t ∧
      s.level = 0 ∧ t.level = 1 := by
  intro s
  let body : Parse Sample.rules (Option (Sample.rules.Node Sample.Rule.item)) :=
    Parser.exec (Parser.call Sample.grammar (Parser.callDepth s - 1)) Sample.itemBody
  let inside := (Parser.enterRule Sample.Rule.item s.mark s).trying Sample.Rule.item s.mark
  have hrun : Parser.runRule Sample.grammar Sample.Rule.item s =
      Parser.memoized Sample.Rule.item body s := rfl
  have haborted : succeeded (body inside) = false ∧ (final (body inside)).level = 1 := by
    decide +kernel
  obtain ⟨e, hbody⟩ := of_aborted haborted.1
  rw [hrun, memoized_error Std.HashMap.getElem?_empty Std.HashSet.not_mem_empty hbody]
  exact ⟨e, _, rfl, rfl, haborted.2⟩

end ShellSyntax
