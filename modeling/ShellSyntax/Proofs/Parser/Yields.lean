import ShellSyntax.Proofs.Parser.Leads

/-!
What all values that a matcher can yield have in common, wherever it is run and whatever it reads
there. Of the rules that it calls only what their nodes have in common is known.
-/

namespace ShellSyntax

variable {R : RuleSet} {α β σ : Type}

/-- What holds of the nodes that each rule matches. -/
abbrev Harvest (R : RuleSet) := (r : R.Rule) → R.Node r → Prop

/-- If the matcher comes to an end, `P` holds of what it yields, provided that rules match only
nodes that are `good`. -/
def Yields (good : Harvest R) (m : Matcher R α) (P : α → Prop) : Prop :=
  ∀ W i, Leads W (fun r _ found _ => ∀ node ∈ found, good r node) m i fun v _ => P v

/-- If the matcher succeeds, `P` holds of what it yields. -/
def Offers (good : Harvest R) (m : Matcher R (Option α)) (P : α → Prop) : Prop :=
  Yields good m fun found => ∀ a ∈ found, P a

variable {good : Harvest R} {P : α → Prop} {Q : β → Prop}

namespace Yields

theorem done {v : α} (h : P v) : Yields good (.done v) P :=
  fun _ _ => h

theorem mono {m : Matcher R α} {P' : α → Prop} (h : Yields good m P) (himp : ∀ v, P v → P' v) :
    Yields good m P' :=
  fun W i => (h W i).mono fun v _ hv => himp v hv

theorem bind {m : Matcher R α} {f : α → Matcher R β} (hm : Yields good m P)
    (h : ∀ v, P v → Yields good (f v) Q) : Yields good (m >>= f) Q :=
  fun W i => .bind ((hm W i).mono fun v j hv => h v hv W j)

theorem skip {m : Matcher R α} {f : α → Matcher R β} (h : ∀ v, Yields good (f v) Q) :
    Yields good (m >>= f) Q :=
  fun W _ => .bind ((LeadsIn.any m).mono fun v j _ => h v W j)

theorem inBrackets {m : Matcher R α} (h : Yields good m P) :
    Yields good (Matcher.inBrackets m) P :=
  h

theorem loop {body : σ → Matcher R (σ ⊕ β)} {state : σ} (holds : σ → Prop) (hstart : holds state)
    (hround : ∀ state, holds state → Yields good (body state) fun outcome =>
      match outcome with
      | .inl state => holds state
      | .inr result => Q result) :
    Yields good (Matcher.loop body state) Q := by
  intro W i
  refine .loop (fun state _ => holds state) hstart fun state j hstate => ?_
  refine (hround state hstate W j).mono ?_
  rintro (state | result) k hafter
  · exact hafter
  · exact hafter

/-! ### Choices -/

theorem ifThen {test : Matcher R Bool} {yes no : Matcher R β} (hyes : Yields good yes Q)
    (hno : Yields good no Q) :
    Yields good (test >>= fun found => if found = true then yes else no) Q := by
  refine .skip fun found => ?_
  split
  · exact hyes
  · exact hno

theorem unlessThen {test : Matcher R Bool} {no yes : Matcher R β} (hno : Yields good no Q)
    (hyes : Yields good yes Q) :
    Yields good (test >>= fun found => if (!found) = true then no else yes) Q := by
  refine .skip fun found => ?_
  split
  · exact hno
  · exact hyes

theorem perhaps {test : Matcher R Bool} {first : Matcher R Unit} {rest : Unit → Matcher R β}
    (h : Yields good (rest ()) Q) :
    Yields good (test >>= fun found => if found = true then first >>= rest else rest ()) Q :=
  .ifThen (.skip fun _ => h) h

theorem option {m : Matcher R (Option α)} {f : Option α → Matcher R β} (hm : Offers good m P)
    (hsome : ∀ a, P a → Yields good (f (some a)) Q) (hnone : Yields good (f none) Q) :
    Yields good (m >>= f) Q := by
  refine hm.bind ?_
  rintro (_ | a) hfound
  · exact hnone
  · exact hsome a (hfound a rfl)

theorem many {m : Matcher R (Option α)} (hm : Offers good m P) :
    Yields good (Matcher.many m) fun items => ∀ a ∈ items, P a := by
  refine .loop (fun items => ∀ a ∈ items, P a) (fun _ => nofun) fun items hitems =>
    .skip fun _ => ?_
  refine .option hm (fun item hitem => .skip fun _ => ?_) (.skip fun _ => .done hitems)
  have hall : ∀ a ∈ items ++ [item], P a := by
    simpa [or_imp, forall_and] using ⟨hitems, hitem⟩
  split
  · exact .done hall
  · exact .done hall

/-! ### Successes and failures -/

theorem none : Offers good (.done none) P :=
  .done fun _ => nofun

theorem some {a : α} (h : P a) : Offers good (.done (some a)) P := by
  refine .done fun b hb => ?_
  cases hb
  exact h

theorem rule {r : R.Rule} : Offers good (Matcher.rule r) (good r) :=
  fun _ _ => .rule

theorem any {m : Matcher R (Option α)} : Offers good m fun _ => True :=
  fun _ _ => (LeadsIn.any m).mono fun _ _ _ _ _ => trivial

theorem expect {test : Matcher R Bool} {rest : Matcher R (Option β)} (h : Offers good rest Q) :
    Offers good (test >>= fun found => if (!found) = true then pure Option.none else rest) Q :=
  .unlessThen .none h

theorem need {m : Matcher R (Option α)} {f : Option α → Matcher R (Option β)}
    (hm : Offers good m P) (hnone : f Option.none = .done Option.none)
    (hsome : ∀ a, P a → Offers good (f (Option.some a)) Q) : Offers good (m >>= f) Q :=
  .option hm hsome (hnone ▸ .none)

theorem pass {m : Matcher R (Option α)} {f : Option α → Matcher R (Option β)}
    (hnone : f Option.none = .done Option.none)
    (hsome : ∀ a, Offers good (f (Option.some a)) Q) : Offers good (m >>= f) Q := by
  refine .skip ?_
  rintro (_ | a)
  · exact hnone ▸ .none
  · exact hsome a

/-! ### Combinations -/

theorem many1 {m : Matcher R (Option α)} (hm : Offers good m P) :
    Offers good (Matcher.many1 m) fun items => items ≠ [] ∧ ∀ a ∈ items, P a := by
  refine (many hm).bind ?_
  rintro (_ | ⟨item, items⟩) hitems
  · exact .none
  · exact .some ⟨List.cons_ne_nil _ _, hitems⟩

theorem separated {separator : String} {m : Matcher R (Option α)} (hm : Offers good m P) :
    Offers good (Matcher.separated separator m) fun items => items ≠ [] ∧ ∀ a ∈ items, P a := by
  refine .need hm rfl fun first hfirst => ?_
  refine .loop (fun items => items ≠ [] ∧ ∀ a ∈ items, P a) (by simpa using hfirst)
    fun items hitems => ?_
  have hstop : ∀ found ∈ Option.some items, found ≠ [] ∧ ∀ a ∈ found, P a := by
    simpa using hitems
  refine .skip fun _ => .unlessThen (.done hstop) (.option hm ?_ (.skip fun _ => .done hstop))
  intro item hitem
  refine .done ⟨List.concat_ne_nil _ _, ?_⟩
  simpa [or_imp, forall_and] using ⟨hitems.2, hitem⟩

theorem items {separator : String} {m : Matcher R (Option α)} :
    Offers good (Matcher.separated separator m) (· ≠ []) :=
  (separated any).mono fun _ hitems items hfound => (hitems items hfound).1

theorem firstOf {alternatives : List (Matcher R (Matcher.Attempt α))}
    (h : ∀ m ∈ alternatives, Yields good m fun found => ∀ a, found = .matched a → P a) :
    Offers good (Matcher.firstOf alternatives) P := by
  induction alternatives with
  | nil => exact .none
  | cons m others induction =>
    refine .skip fun _ => (h m List.mem_cons_self).bind ?_
    rintro (a | _ | _) hmatched
    · exact .some (hmatched a rfl)
    · exact .skip fun _ => induction fun m hm => h m (List.mem_cons_of_mem _ hm)
    · exact .skip fun _ => .none

end Yields

theorem Offers.each {m : Matcher R (Option α)} {P' : α → Prop} (h : Offers good m P)
    (himp : ∀ a, P a → P' a) : Offers good m P' :=
  h.mono fun _ hfound a ha => himp a (hfound a ha)

end ShellSyntax
