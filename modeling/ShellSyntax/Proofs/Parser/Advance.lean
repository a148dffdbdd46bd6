import ShellSyntax.Proofs.Parser.Ensures

/-!
Matchers that go forward. One that yields an optional result ends no earlier than it starts, and
further on if there is a result.
-/

namespace ShellSyntax

variable {R : RuleSet} {W : World} {K : Ranking R} {b : Base} {α β σ : Type} {i j k : Nat}
  {Q : β → Nat → Prop}

/-- Not before `i`, and behind it if something was found. -/
def Beyond (i : Nat) (found : Option α) (j : Nat) : Prop :=
  i ≤ j ∧ (found.isSome → i < j)

/-- The matcher goes forward from `i` wherever the rules that it calls do. -/
def Advances (W : World) (K : Ranking R) (b : Base) (m : Matcher R (Option α)) (i : Nat) : Prop :=
  Ensures W K b m i (Beyond i)

theorem Beyond.none (h : i ≤ j) : Beyond i (none : Option α) j :=
  ⟨h, nofun⟩

theorem Beyond.some {a : α} (h : i < j) : Beyond i (some a) j :=
  ⟨Nat.le_of_lt h, fun _ => h⟩

/-! ### Steps -/

namespace Ensures

theorem mark {f : Nat → Matcher R β} (h : Ensures W K b (f i) i Q) :
    Ensures W K b (Matcher.mark >>= f) i Q :=
  h.reach i

theorem reset_within {f : Unit → Matcher R β} (hstart : b.start ≤ j) (hle : j ≤ b.reached)
    (h : Ensures W K b (f ()) j Q) : Ensures W K b (Matcher.reset j >>= f) i Q :=
  ⟨hstart, Nat.le_trans hle (Nat.le_max_left _ _), h.reach i⟩

theorem reset {f : Unit → Matcher R β} (hstart : b.start ≤ j) (hback : j ≤ i)
    (h : Ensures W K b (f ()) j Q) : Ensures W K b (Matcher.reset j >>= f) i Q :=
  ⟨hstart, Nat.le_trans hback (Nat.le_max_right _ _), h.reach i⟩

theorem peek {f : Token → Matcher R β} (h : ∀ t, W.token i = .ok t → Ensures W K b (f t) i Q) :
    Ensures W K b (Matcher.peek >>= f) i Q :=
  fun t ht => (h t ht).reach i

theorem next {f : Token → Matcher R β}
    (h : ∀ t, W.token i = .ok t → ¬t.IsEnd ∧ Ensures W K b (f t) (i + 1) Q) :
    Ensures W K b (Matcher.next >>= f) i Q :=
  fun t ht => ⟨(h t ht).1, (h t ht).2.reach i⟩

theorem spanSince {f : Span → Matcher R β} (hlt : j < i) (h : ∀ s, Ensures W K b (f s) i Q) :
    Ensures W K b (Matcher.spanSince j >>= f) i Q :=
  ⟨hlt, (h _).reach i⟩

theorem lastToken? {f : Option Token → Matcher R β} (h : ∀ t, Ensures W K b (f t) i Q) :
    Ensures W K b (Matcher.lastToken? >>= f) i Q :=
  (h _).reach i

theorem raiseAt {message : String} {span : Span} {Q : α → Nat → Prop}
    (h : message ∉ Parser.ownMessages) : Ensures W K b (Matcher.raiseAt message span) i Q :=
  h

theorem raise {kind : ErrorKind} {message : String} {place : FaultPlace} {Q : α → Nat → Prop}
    (h : message ∉ Parser.ownMessages) : Ensures W K b (Matcher.raise kind message place) i Q :=
  h

theorem inBrackets {m : Matcher R α} {f : α → Matcher R β}
    (hlooks : m.LooksFirst i ∨ ∃ t, W.token i = .ok t)
    (h : Ensures W K b m i fun v j => Ensures W K b (f v) j Q) :
    Ensures W K b (Matcher.inBrackets m >>= f) i Q :=
  ⟨hlooks, h.mono fun _ _ hnext => hnext.reach i⟩

theorem loop {body : σ → Matcher R (σ ⊕ β)} {state : σ} (holds : σ → Nat → Prop)
    (hstart : holds state i)
    (hround : ∀ state i, holds state i → Ensures W K b (body state) i fun outcome j =>
      match outcome with
      | .inl state => i < j ∧ holds state j
      | .inr result => Q result j) :
    Ensures W K b (Matcher.loop body state) i Q :=
  ⟨holds, hstart, fun state j hstate => (hround state j hstate).reach i⟩

theorem diagnosis {reject : Matcher R Unit} {rest : Unit → Matcher R β}
    (hreject : Ensures W K b reject i fun _ j => j = i) (h : Ensures W K b (rest ()) i Q) :
    Ensures W K b (Matcher.isDiagnosing >>= fun diagnosing =>
      if diagnosing = true then reject >>= rest else rest ()) i Q := by
  refine Ensures.bind (m := Matcher.isDiagnosing) ?_
  change Ensures W K b (if W.diagnosing = true then reject >>= rest else rest ()) i Q
  split
  case isTrue => exact .bind (hreject.mono fun _ j hj => hj ▸ h)
  case isFalse => exact h

/-! ### Tokens -/

theorem ofKind {kind : TokenKind} {f : Option Token → Matcher R β} (hkind : kind ≠ .endMarker)
    (hsome : ∀ t, Ensures W K b (f (some t)) (i + 1) Q) (hnone : Ensures W K b (f none) i Q) :
    Ensures W K b (Matcher.ofKind kind >>= f) i Q := by
  refine .bind (.peek fun t ht => ?_)
  split
  case isTrue hmatch =>
    refine .next fun t' ht' => ?_
    cases ht.symm.trans ht'
    exact ⟨fun hend => hkind ((beq_iff_eq.mp hmatch).symm.trans hend.1), hsome t⟩
  case isFalse => exact hnone

theorem spelled {text : String} {f : Option Token → Matcher R β}
    (hsome : ∀ t, Ensures W K b (f (some t)) (i + 1) Q) (hnone : Ensures W K b (f none) i Q) :
    Ensures W K b (Matcher.spelled text >>= f) i Q := by
  refine .bind (.peek fun t ht => ?_)
  split
  case isTrue hmatch =>
    refine .next fun t' ht' => ?_
    cases ht.symm.trans ht'
    refine ⟨fun hend => ?_, hsome t⟩
    simp [hend.1] at hmatch
  case isFalse => exact hnone

theorem name {f : Option Token → Matcher R β}
    (hsome : ∀ t, Ensures W K b (f (some t)) (i + 1) Q) (hnone : Ensures W K b (f none) i Q) :
    Ensures W K b (Matcher.name >>= f) i Q := by
  refine .bind (.peek fun t ht => ?_)
  split
  case isTrue hmatch =>
    refine .next fun t' ht' => ?_
    cases ht.symm.trans ht'
    refine ⟨fun hend => ?_, hsome t⟩
    simp [hend.1] at hmatch
  case isFalse => exact hnone

theorem accepts {text : String} {f : Bool → Matcher R β}
    (hyes : Ensures W K b (f true) (i + 1) Q) (hno : Ensures W K b (f false) i Q) :
    Ensures W K b (Matcher.accepts text >>= f) i Q :=
  .bind (.spelled (fun _ => hyes) hno)

/-- Behind a token that was accepted the body may go back to where that token ended. -/
theorem expect_reach {text : String} {rest : Matcher R (Option β)} (hle : k ≤ i)
    (h : Ensures W K (b.reach (i + 1)) rest (i + 1) (Beyond k)) :
    Ensures W K b (Matcher.accepts text >>= fun found => if (!found) = true then pure none else rest)
      i (Beyond k) :=
  .bind_reach (Matcher.bind_done (Matcher.accepts (R := R) text) ▸
    .accepts h (Beyond.none hle))

theorem acceptsKind {kind : TokenKind} {f : Bool → Matcher R β} (hkind : kind ≠ .endMarker)
    (hyes : Ensures W K b (f true) (i + 1) Q) (hno : Ensures W K b (f false) i Q) :
    Ensures W K b (Matcher.acceptsKind kind >>= f) i Q :=
  .bind (.ofKind hkind (fun _ => hyes) hno)

theorem acceptsOrNot {text : String} {f : Bool → Matcher R β}
    (h : ∀ found j, i ≤ j → Ensures W K b (f found) j Q) :
    Ensures W K b (Matcher.accepts text >>= f) i Q :=
  .accepts (h true (i + 1) (Nat.le_succ i)) (h false i (Nat.le_refl i))

theorem accepts_known {text : String} {f : Bool → Matcher R β} {t : Token}
    (ht : W.token i = .ok t) (hkind : t.kind = .name) (htext : t.text = text)
    (hyes : Ensures W K b (f true) (i + 1) Q) : Ensures W K b (Matcher.accepts text >>= f) i Q := by
  refine .bind (.bind (.peek fun t' ht' => ?_))
  cases ht.symm.trans ht'
  rw [if_pos (by simp [hkind, htext])]
  refine .next fun t' ht' => ?_
  cases ht.symm.trans ht'
  refine ⟨fun hend => ?_, hyes⟩
  cases hkind.symm.trans hend.1

theorem ifAccepts {text : String} {yes no : Matcher R β} (hyes : Ensures W K b yes (i + 1) Q)
    (hno : Ensures W K b no i Q) :
    Ensures W K b (Matcher.accepts text >>= fun found => if found = true then yes else no) i Q :=
  .accepts hyes hno

theorem unlessAccepts {text : String} {no yes : Matcher R β} (hno : Ensures W K b no i Q)
    (hyes : Ensures W K b yes (i + 1) Q) :
    Ensures W K b (Matcher.accepts text >>= fun found => if (!found) = true then no else yes) i Q :=
  .accepts hyes hno

theorem expect {text : String} {rest : Matcher R (Option β)} (hle : k ≤ i)
    (h : Ensures W K b rest (i + 1) (Beyond k)) :
    Ensures W K b (Matcher.accepts text >>= fun found => if (!found) = true then pure none else rest)
      i (Beyond k) :=
  .accepts h (Beyond.none hle)

theorem expectKind {kind : TokenKind} {rest : Matcher R (Option β)} (hkind : kind ≠ .endMarker)
    (hle : k ≤ i) (h : Ensures W K b rest (i + 1) (Beyond k)) :
    Ensures W K b
      (Matcher.acceptsKind kind >>= fun found => if (!found) = true then pure none else rest)
      i (Beyond k) :=
  .acceptsKind hkind h (Beyond.none hle)

theorem lookahead {m : Matcher R (Option α)} {f : Bool → Matcher R β} (hstart : b.start ≤ i)
    (hm : Advances W K b m i) (h : ∀ found, Ensures W K b (f found) i Q) :
    Ensures W K b (Matcher.lookahead m >>= f) i Q :=
  .bind (.mark (.bind (hm.mono fun found _ hbeyond => .reset hstart hbeyond.1 (h found.isSome))))

end Ensures

/-! ### Matchers with an optional result -/

namespace Advances

theorem rule {r : R.Rule} (h : K.Allows b r i) (hempty : K.mayBeEmpty r = false) :
    Advances W K b (Matcher.rule r) i :=
  ⟨h, fun _ _ hyields => ⟨hyields.1, fun hsome => hyields.2 hsome hempty⟩⟩

theorem andThen {m : Matcher R (Option α)} {f : Option α → Matcher R β} (hm : Advances W K b m i)
    (hsome : ∀ a j, i < j → Ensures W K b (f (some a)) j Q)
    (hnone : ∀ j, i ≤ j → Ensures W K b (f none) j Q) : Ensures W K b (m >>= f) i Q := by
  refine .bind (hm.mono ?_)
  rintro (_ | a) j hbeyond
  · exact hnone j hbeyond.1
  · exact hsome a j (hbeyond.2 rfl)

theorem need {m : Matcher R (Option α)} {f : Option α → Matcher R (Option β)}
    (hm : Advances W K b m i) (hle : k ≤ i) (hnone : f none = .done none)
    (hsome : ∀ a j, i < j → Ensures W K b (f (some a)) j (Beyond k)) :
    Ensures W K b (m >>= f) i (Beyond k) :=
  hm.andThen hsome fun j hj => by
    rw [hnone]
    exact Beyond.none (Nat.le_trans hle hj)

theorem after {m : Matcher R (Option α)} (hm : Advances W K b m i) (hle : k ≤ i) :
    Ensures W K b m i (Beyond k) :=
  hm.mono fun _ _ h => ⟨Nat.le_trans hle h.1, fun hsome => Nat.lt_of_le_of_lt hle (h.2 hsome)⟩

theorem map {m : Matcher R (Option α)} {f : Option α → Matcher R (Option β)}
    (hm : Advances W K b m i) (hnone : f none = .done none)
    (hsome : ∀ a, ∃ found, f (some a) = .done found) : Advances W K b (m >>= f) i :=
  hm.need (Nat.le_refl i) hnone fun a j hj => by
    obtain ⟨found, hfound⟩ := hsome a
    rw [hfound]
    exact ⟨Nat.le_of_lt hj, fun _ => hj⟩

theorem spelled {text : String} : Advances W K b (Matcher.spelled text) i :=
  Matcher.bind_done (Matcher.spelled (R := R) text) ▸
    Ensures.spelled (fun _ => Beyond.some (Nat.lt_succ_self i)) (Beyond.none (Nat.le_refl i))

theorem ofKind {kind : TokenKind} (hkind : kind ≠ .endMarker) :
    Advances W K b (Matcher.ofKind kind) i :=
  Matcher.bind_done (Matcher.ofKind (R := R) kind) ▸
    Ensures.ofKind hkind (fun _ => Beyond.some (Nat.lt_succ_self i)) (Beyond.none (Nat.le_refl i))

theorem name : Advances W K b Matcher.name i :=
  Matcher.bind_done (Matcher.name (R := R)) ▸
    Ensures.name (fun _ => Beyond.some (Nat.lt_succ_self i)) (Beyond.none (Nat.le_refl i))

end Advances

/-! ### Combinations -/

theorem Ensures.many {m : Matcher R (Option α)} {f : List α → Matcher R β} (hstart : b.start ≤ i)
    (hm : ∀ j, i ≤ j → Advances W K b m j)
    (h : ∀ items j, i ≤ j → (items ≠ [] → i < j) → Ensures W K b (f items) j Q) :
    Ensures W K b (Matcher.many m >>= f) i Q := by
  refine .bind (.loop (fun items j => i ≤ j ∧ (items ≠ [] → i < j)) ⟨Nat.le_refl i, nofun⟩ ?_)
  rintro items j ⟨hj, hitems⟩
  refine .mark ((hm j hj).andThen ?_ ?_)
  · intro item k hk
    refine .mark ?_
    rw [if_pos hk]
    exact ⟨hk, by omega, fun _ => by omega⟩
  · intro k hk
    exact .reset (Nat.le_trans hstart hj) hk (h items j hj hitems)

theorem Advances.many1 {m : Matcher R (Option α)} (hstart : b.start ≤ i)
    (hm : ∀ j, i ≤ j → Advances W K b m j) : Advances W K b (Matcher.many1 m) i := by
  refine .many hstart hm ?_
  rintro (_ | ⟨item, items⟩) j hj hitems
  · exact .none hj
  · exact .some (hitems nofun)

theorem Advances.separated {separator : String} {m : Matcher R (Option α)}
    (hstart : b.start ≤ i) (hm : ∀ j, i ≤ j → Advances W K b m j) :
    Advances W K b (Matcher.separated separator m) i := by
  refine (hm i (Nat.le_refl i)).need (Nat.le_refl i) rfl fun first j hj => ?_
  refine .loop (fun _ j => i < j) hj ?_
  intro items j hj
  refine .mark (.accepts ?_ (Beyond.some hj))
  refine (hm (j + 1) (by omega)).andThen ?_ ?_
  · intro item k hk
    exact ⟨by omega, by omega⟩
  · intro k hk
    exact .reset (by omega) (by omega) (Beyond.some hj)

theorem Advances.firstOf {alternatives : List (Matcher R (Matcher.Attempt α))}
    (hstart : b.start ≤ i)
    (h : ∀ m ∈ alternatives, Ensures W K b m i fun found j =>
      i ≤ j ∧ ∀ a, found = .matched a → i < j) :
    Advances W K b (Matcher.firstOf alternatives) i := by
  induction alternatives with
  | nil => exact Beyond.none (Nat.le_refl i)
  | cons m others ih =>
    refine .mark (.bind ((h m List.mem_cons_self).mono ?_))
    rintro (a | _ | _) j ⟨hj, hmatched⟩
    · exact Beyond.some (hmatched a rfl)
    · exact .reset hstart hj (ih fun m hm => h m (List.mem_cons_of_mem _ hm))
    · exact .reset hstart hj (Beyond.none (Nat.le_refl i))

end ShellSyntax
