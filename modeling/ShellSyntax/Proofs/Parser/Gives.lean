import ShellSyntax.Proofs.Parser.Reading

/-!
Readings that are known. Where the tokens are known, a matcher is followed step by step to what it
yields.
-/

namespace ShellSyntax

variable {R : RuleSet} {α β : Type}

namespace Token

/-- The token is one that may be spelled `text`, and it is. -/
def spells (t : Token) (text : String) : Bool :=
  (t.kind == .op || t.kind == .name || t.kind == .word) && t.text == text

end Token

/-- The reading ends at `j` with `a`, no more than `deep` brackets deep. -/
structure Reading.Gives (o : Reading α) (deep : Nat) (a : α) (j : Nat) : Prop where
  result : o.result = .ok (a, j)
  depth : o.depth ≤ deep

namespace Reading.Gives

variable {o : Reading α} {deep : Nat} {a : α} {b : β} {i j k : Nat}

theorem pure : (Reading.pure a i).Gives deep a i :=
  ⟨rfl, Nat.zero_le _⟩

theorem andThen {f : α → Nat → Reading β} (h : o.Gives deep a j) (hnext : (f a j).Gives deep b k) :
    (o.andThen f).Gives deep b k := by
  refine ⟨?_, ?_⟩
  · simp only [Reading.andThen, h.result, hnext.result]
  · simp only [Reading.andThen, h.result]
    exact Nat.max_le.mpr ⟨h.depth, hnext.depth⟩

theorem deepen (h : o.Gives deep a j) : o.deepen.Gives (deep + 1) a j :=
  ⟨h.result, Nat.succ_le_succ h.depth⟩

theorem mono {deep' : Nat} (h : o.Gives deep a j) (hle : deep ≤ deep') : o.Gives deep' a j :=
  ⟨h.result, Nat.le_trans h.depth hle⟩

theorem settle_some {o : Reading (Option α)} {a : α} (h : o.Gives deep (some a) j) :
    (o.settle i).Gives deep (some a) j :=
  h.andThen .pure

end Reading.Gives

/-- Where the rules that it calls are read as `callee` says, the matcher ends at `j` with `a`. -/
def Gives (W : World) (callee : Callee R) (deep : Nat) (m : Matcher R α) (i : Nat) (a : α)
    (j : Nat) : Prop :=
  (W.read callee m i).Gives deep a j

namespace Gives

open Matcher

variable {W : World} {callee : Callee R} {deep i j k : Nat} {a : α} {b : β} {t : Token}
  {m : Matcher R α} {f : α → Matcher R β}

theorem done : Gives W callee deep (.done a) i a i :=
  .pure

theorem bind (h : Gives W callee deep m i a j) (hnext : Gives W callee deep (f a) j b k) :
    Gives W callee deep (m.bind f) i b k := by
  unfold Gives
  rw [World.read_bind]
  exact h.andThen hnext

/-! ### Steps -/

theorem mark {f : Mark → Matcher R β} (h : Gives W callee deep (f i) i b k) :
    Gives W callee deep (Matcher.mark.bind f) i b k :=
  bind .pure h

theorem reset {mark : Mark} {f : Unit → Matcher R β} (h : Gives W callee deep (f ()) mark b k) :
    Gives W callee deep ((Matcher.reset mark).bind f) i b k :=
  bind .pure h

theorem look (ht : W.token i = .ok t) : (W.look i).Gives deep t i := by
  simp only [World.look, ht]
  exact ⟨rfl, Nat.zero_le _⟩

theorem peek {f : Token → Matcher R β} (ht : W.token i = .ok t)
    (h : Gives W callee deep (f t) i b k) : Gives W callee deep (Matcher.peek.bind f) i b k :=
  Reading.Gives.andThen (look ht) h

theorem next {f : Token → Matcher R β} (ht : W.token i = .ok t)
    (h : Gives W callee deep (f t) (i + 1) b k) : Gives W callee deep (Matcher.next.bind f) i b k :=
  Reading.Gives.andThen ((look ht).andThen .pure) h

theorem spanSince {mark : Mark} {f : Span → Matcher R β}
    (h : Gives W callee deep (f (W.spanSince mark i)) i b k) :
    Gives W callee deep ((Matcher.spanSince mark).bind f) i b k :=
  bind .pure h

theorem rule {r : R.Rule} {node : Option (R.Node r)} {f : Option (R.Node r) → Matcher R β}
    (hcall : (callee r i).Gives deep node j) (h : Gives W callee deep (f node) j b k) :
    Gives W callee deep ((Matcher.rule r).bind f) i b k :=
  hcall.andThen h

theorem inBrackets (h : Gives W callee deep m i a j)
    (hnext : Gives W callee (deep + 1) (f a) j b k) :
    Gives W callee (deep + 1) ((Matcher.inBrackets m).bind f) i b k :=
  h.deepen.andThen hnext

/-! ### Tokens -/

theorem spelled {text : String} (ht : W.token i = .ok t) (hspells : t.spells text = true) :
    Gives W callee deep (Matcher.spelled text) i (some t) (i + 1) := by
  refine peek ht ?_
  simp only [Token.spells] at hspells
  simp only [hspells, if_true]
  exact next ht done

theorem not_spelled {text : String} (ht : W.token i = .ok t) (hspells : t.spells text = false) :
    Gives W callee deep (Matcher.spelled text) i none i := by
  refine peek ht ?_
  simp only [Token.spells] at hspells
  simp only [hspells, Bool.false_eq_true, if_false]
  exact done

theorem accepts {text : String} {f : Bool → Matcher R β} (ht : W.token i = .ok t)
    (hspells : t.spells text = true) (h : Gives W callee deep (f true) (i + 1) b k) :
    Gives W callee deep ((Matcher.accepts text).bind f) i b k :=
  bind (bind (spelled ht hspells) done) h

theorem not_accepts {text : String} {f : Bool → Matcher R β} (ht : W.token i = .ok t)
    (hspells : t.spells text = false) (h : Gives W callee deep (f false) i b k) :
    Gives W callee deep ((Matcher.accepts text).bind f) i b k :=
  bind (bind (not_spelled ht hspells) done) h

theorem not_lookahead {text : String} {f : Bool → Matcher R β} (ht : W.token i = .ok t)
    (hspells : t.spells text = false) (h : Gives W callee deep (f false) i b k) :
    Gives W callee deep ((Matcher.lookahead (Matcher.spelled text)).bind f) i b k :=
  bind (mark (bind (not_spelled ht hspells) (reset done))) h

theorem quiet {reject : Matcher R Unit} {rest : Unit → Matcher R β} (hquiet : W.diagnosing = false)
    (h : Gives W callee deep (rest ()) i b k) :
    Gives W callee deep (Matcher.isDiagnosing.bind fun diagnosing =>
      if diagnosing = true then reject >>= rest else rest ()) i b k := by
  refine bind (a := false) ?_ h
  rw [← hquiet]
  exact .pure

/-! ### Loops -/

section Loops

variable {σ : Type} {body : σ → Matcher R (σ ⊕ β)} {state : σ}

theorem rounds_stop {fuel : Nat} (h : Gives W callee deep (body state) i (.inr b) j)
    (hfuel : fuel ≠ 0) :
    (Reading.rounds (fun state => W.read callee (body state)) fuel state i).Gives deep b j := by
  obtain ⟨less, rfl⟩ := Nat.exists_eq_succ_of_ne_zero hfuel
  exact Reading.Gives.andThen h .pure

theorem rounds_go {fuel : Nat} (next : σ) (h : Gives W callee deep (body state) i (.inl next) j)
    (hnext : (Reading.rounds (fun state => W.read callee (body state)) fuel next j).Gives deep b k) :
    (Reading.rounds (fun state => W.read callee (body state)) (fuel + 1) state i).Gives deep b k :=
  Reading.Gives.andThen h hnext

theorem loop_stops (h : Gives W callee deep (body state) i (.inr b) j) :
    Gives W callee deep (Matcher.loop body state) i b j :=
  Reading.Gives.andThen (rounds_stop h (Nat.ne_of_gt (Nat.zero_lt_of_lt W.limit_lt))) .pure

theorem many_none {inner : Matcher R (Option α)} (h : Gives W callee deep inner i none j) :
    Gives W callee deep (Matcher.many inner) i [] i :=
  loop_stops (mark (bind h (reset done)))

theorem many_one {inner : Matcher R (Option α)} (h : Gives W callee deep inner i (some a) j)
    (hlt : i < j) (hnone : Gives W callee deep inner j none k) (hlimit : 0 < W.limit) :
    Gives W callee deep (Matcher.many inner) i [a] j := by
  obtain ⟨fuel, hfuel⟩ : ∃ fuel, W.bound = fuel + 1 + 1 :=
    ⟨W.bound - 2, by have := W.limit_lt; omega⟩
  refine Reading.Gives.andThen (a := [a]) (j := j) ?_ .pure
  rw [hfuel]
  refine rounds_go [a] (mark (bind h (mark ?_)))
    (rounds_stop (mark (bind hnone (reset done))) (Nat.succ_ne_zero fuel))
  simp only [hlt, if_true]
  exact done

theorem separated_one {separator : String} {inner : Matcher R (Option α)}
    (h : Gives W callee deep inner i (some a) j) (ht : W.token j = .ok t)
    (hspells : t.spells separator = false) :
    Gives W callee deep (Matcher.separated separator inner) i (some [a]) j :=
  bind h (loop_stops (mark (not_accepts ht hspells done)))

end Loops

end Gives

/-! ### Growing -/

section Growth

variable {N : Type} {body : Option N × Nat → Reading (Option N)} {fuel deep stop k : Nat}
  {best : Option N × Nat} {node longest : Option N}

theorem World.growth_grows {node : N} (hbody : (body best).Gives deep (some node) stop)
    (hgrows : best.2 < stop)
    (hnext : (World.growth body fuel (some node, stop)).Gives deep longest k) :
    (World.growth body (fuel + 1) best).Gives deep longest k := by
  refine hbody.andThen ?_
  rwa [if_neg (by simp only [Option.isNone_some, Bool.false_or, decide_eq_true_eq]; omega)]

theorem World.growth_stops (hbody : (body best).Gives deep node stop) (hstop : stop ≤ best.2) :
    (World.growth body (fuel + 1) best).Gives deep best.1 best.2 := by
  refine hbody.andThen ?_
  rw [if_pos (by simp only [hstop, decide_true, Bool.or_true])]
  exact .pure

end Growth

/-! ### Known tokens -/

namespace Feed

/-- These tokens come from `i` on. -/
def Stands (f : Feed) : Nat → List Token → Prop
  | _, [] => True
  | i, t :: ts => f.token i = .ok t ∧ Stands f (i + 1) ts

variable {f : Feed} {i : Nat}

theorem stands_append {ts us : List Token} :
    f.Stands i (ts ++ us) ↔ f.Stands i ts ∧ f.Stands (i + ts.length) us := by
  induction ts generalizing i with
  | nil => simp [Stands]
  | cons t ts ih =>
    rw [List.cons_append, Stands, Stands, ih, and_assoc]
    simp only [List.length_cons, Nat.add_assoc, Nat.add_comm 1]

theorem Stands.token {ts : List Token} (h : f.Stands i ts) {k : Nat} {t : Token}
    (ht : ts[k]? = some t) : f.token (i + k) = .ok t := by
  induction ts generalizing i k with
  | nil => simp at ht
  | cons u ts ih =>
    cases k with
    | zero =>
      cases ht
      exact h.1
    | succ k =>
      have hlater := ih h.2 ht
      rwa [Nat.add_assoc, Nat.add_comm 1] at hlater

end Feed

end ShellSyntax
