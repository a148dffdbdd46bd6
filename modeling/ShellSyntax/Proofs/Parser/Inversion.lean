import ShellSyntax.Proofs.Parser.Leads

/-!
What a matcher has done that has come to an end. Its steps are undone one by one: what the whole has
yielded tells what its parts have, and where they stood.
-/

namespace ShellSyntax

variable {R : RuleSet} {α β σ : Type}

/-- Where rules read as `callee` says, the matcher yields `a` from `i` on and ends at `j`. -/
def World.Reads (W : World) (callee : Callee R) (m : Matcher R α) (i : Nat) (a : α) (j : Nat) :
    Prop :=
  (W.read callee m i).result = .ok (a, j)

namespace World.Reads

variable {W : World} {callee : Callee R} {m : Matcher R α} {i j k : Nat} {a : α} {b : β}

theorem bind {f : α → Matcher R β} (h : W.Reads callee (m >>= f) i b k) :
    ∃ a j, W.Reads callee m i a j ∧ W.Reads callee (f a) j b k := by
  have hread : ((W.read callee m i).andThen fun a j => W.read callee (f a) j).result =
      .ok (b, k) := W.read_bind callee m f i ▸ h
  unfold Reading.andThen at hread
  unfold Reads
  cases hm : (W.read callee m i).result with
  | error halt => simp [hm] at hread
  | ok found =>
    simp only [hm] at hread
    exact ⟨found.1, found.2, rfl, hread⟩

theorem follow {f : α → Matcher R β} (h : W.Reads callee m i a j)
    (hnext : W.Reads callee (f a) j b k) : W.Reads callee (m >>= f) i b k := by
  have hread := W.read_bind callee m f i
  unfold Reads at h hnext ⊢
  rw [show m >>= f = m.bind f from rfl, hread, Reading.andThen]
  simp only [h, hnext]

theorem pure {a' : α} (h : W.Reads callee (Pure.pure a) i a' j) : a' = a ∧ j = i := by
  cases h
  exact ⟨rfl, rfl⟩

theorem of_leads {Q : α → Nat → Prop} (h : W.Reads callee m i a j)
    (hleads : Leads W (fun _ _ _ _ => True) (m >>= Pure.pure) i Q) : Q a j := by
  have hsame : m >>= Pure.pure = m := Matcher.bind_done m
  rw [hsame] at hleads
  exact hleads.read (fun _ _ _ _ _ => trivial) a j h

theorem loop {body : σ → Matcher R (σ ⊕ β)} {state : σ} {Q : β → Nat → Prop}
    (h : W.Reads callee (Matcher.loop body state) i b k) (holds : σ → Nat → Prop)
    (hstart : holds state i)
    (hround : ∀ state j, holds state j → ∀ outcome l, W.Reads callee (body state) j outcome l →
      match outcome with
      | .inl state => holds state l
      | .inr result => Q result l) : Q b k := by
  have hrounds := Reading.Leads.rounds W.bound hround hstart
  exact (hrounds.andThen fun result l hresult => .pure hresult) b k h

/-! ### Steps -/

theorem mark {f : Nat → Matcher R β} (h : W.Reads callee (Matcher.mark >>= f) i b k) :
    W.Reads callee (f i) i b k := by
  obtain ⟨_, _, hmark, hrest⟩ := h.bind
  cases hmark
  exact hrest

theorem reset {f : Unit → Matcher R β} (h : W.Reads callee (Matcher.reset j >>= f) i b k) :
    W.Reads callee (f ()) j b k := by
  obtain ⟨_, _, hreset, hrest⟩ := h.bind
  cases hreset
  exact hrest

theorem spanSince {f : Span → Matcher R β}
    (h : W.Reads callee (Matcher.spanSince j >>= f) i b k) :
    W.Reads callee (f (W.spanSince j i)) i b k := by
  obtain ⟨_, _, hspan, hrest⟩ := h.bind
  cases hspan
  exact hrest

theorem lastToken? {f : Option Token → Matcher R β}
    (h : W.Reads callee (Matcher.lastToken? >>= f) i b k) :
    W.Reads callee (f (W.lastToken? i)) i b k := by
  obtain ⟨_, _, hlast, hrest⟩ := h.bind
  cases hlast
  exact hrest

theorem peek {f : Token → Matcher R β} (h : W.Reads callee (Matcher.peek >>= f) i b k) :
    ∃ t, W.token i = .ok t ∧ W.Reads callee (f t) i b k := by
  obtain ⟨t, j, hpeek, hrest⟩ := h.bind
  obtain ⟨ht, rfl⟩ : W.token i = .ok t ∧ j = i :=
    hpeek.of_leads (Q := fun t j => W.token i = .ok t ∧ j = i) (.peek fun t ht => ⟨ht, rfl⟩)
  exact ⟨t, ht, hrest⟩

theorem next {f : Token → Matcher R β} (h : W.Reads callee (Matcher.next >>= f) i b k) :
    ∃ t, W.token i = .ok t ∧ W.Reads callee (f t) (i + 1) b k := by
  obtain ⟨t, j, hnext, hrest⟩ := h.bind
  obtain ⟨ht, rfl⟩ : W.token i = .ok t ∧ j = i + 1 :=
    hnext.of_leads (Q := fun t j => W.token i = .ok t ∧ j = i + 1) (.next fun t ht => ⟨ht, rfl⟩)
  exact ⟨t, ht, hrest⟩

theorem inBrackets (h : W.Reads callee (Matcher.inBrackets m) i a j) : W.Reads callee m i a j := by
  have hread : ((W.read callee m i).deepen.andThen Reading.pure).result = .ok (a, j) := h
  unfold Reading.andThen at hread
  unfold Reads
  cases hresult : (W.read callee m i).result with
  | error halt => simp [Reading.deepen, hresult] at hread
  | ok found =>
    simp only [Reading.deepen, hresult] at hread
    cases hread
    rfl

theorem diagnosed {reject : Matcher R Unit} {rest : Unit → Matcher R β}
    (hreject : ∀ j, W.Reads callee reject i () j → j = i)
    (h : W.Reads callee (Matcher.isDiagnosing >>= fun diagnosing =>
      if diagnosing = true then reject >>= rest else rest ()) i b k) :
    W.Reads callee (rest ()) i b k := by
  obtain ⟨_, _, hdiagnosing, hrest⟩ := h.bind
  cases hdiagnosing
  split at hrest
  · obtain ⟨_, j, hrejected, hrest⟩ := hrest.bind
    cases hreject j hrejected
    exact hrest
  · exact hrest

/-! ### Tokens -/

theorem ofKind {kind : TokenKind} {f : Option Token → Matcher R β}
    (h : W.Reads callee (Matcher.ofKind kind >>= f) i b k) :
    (∃ t, W.token i = .ok t ∧ t.kind = kind ∧ W.Reads callee (f (some t)) (i + 1) b k) ∨
      (∀ t, W.token i = .ok t → t.kind ≠ kind) ∧ W.Reads callee (f none) i b k := by
  obtain ⟨found, j, hfound, hrest⟩ := h.bind
  unfold Matcher.ofKind at hfound
  obtain ⟨t, ht, hfound⟩ := hfound.peek
  split at hfound
  case isTrue hkind =>
    obtain ⟨t', ht', hfound⟩ := hfound.next
    cases ht.symm.trans ht'
    cases hfound
    exact .inl ⟨t, ht, beq_iff_eq.mp hkind, hrest⟩
  case isFalse hkind =>
    cases hfound
    refine .inr ⟨fun t' ht' => ?_, hrest⟩
    cases ht.symm.trans ht'
    exact fun heq => hkind (beq_iff_eq.mpr heq)

theorem spelled {text : String} {f : Option Token → Matcher R β}
    (h : W.Reads callee (Matcher.spelled text >>= f) i b k) :
    (∃ t, W.token i = .ok t ∧ (t.kind = .op ∨ t.kind = .name ∨ t.kind = .word) ∧ t.text = text ∧
        W.Reads callee (f (some t)) (i + 1) b k) ∨
      W.Reads callee (f none) i b k := by
  obtain ⟨found, j, hfound, hrest⟩ := h.bind
  unfold Matcher.spelled at hfound
  obtain ⟨t, ht, hfound⟩ := hfound.peek
  split at hfound
  case isTrue hmatch =>
    obtain ⟨t', ht', hfound⟩ := hfound.next
    cases ht.symm.trans ht'
    cases hfound
    rw [Bool.and_eq_true, Bool.or_eq_true, Bool.or_eq_true] at hmatch
    simp only [beq_iff_eq, or_assoc] at hmatch
    exact .inl ⟨t, ht, hmatch.1, hmatch.2, hrest⟩
  case isFalse =>
    cases hfound
    exact .inr hrest

theorem accepts {text : String} {f : Bool → Matcher R β}
    (h : W.Reads callee (Matcher.accepts text >>= f) i b k) :
    (W.Spells i text ∧ W.Reads callee (f true) (i + 1) b k) ∨
      W.Reads callee (f false) i b k := by
  obtain ⟨found, j, hfound, hrest⟩ := h.bind
  rcases hfound.spelled with ⟨t, ht, hkind, htext, hpure⟩ | hpure
  · cases hpure
    exact .inl ⟨⟨t, ht, hkind, htext⟩, hrest⟩
  · cases hpure
    exact .inr hrest

theorem name {f : Option Token → Matcher R β} (h : W.Reads callee (Matcher.name >>= f) i b k) :
    (∃ t, W.token i = .ok t ∧ t.kind = .name ∧ W.Reads callee (f (some t)) (i + 1) b k) ∨
      W.Reads callee (f none) i b k := by
  obtain ⟨found, j, hfound, hrest⟩ := h.bind
  unfold Matcher.name at hfound
  obtain ⟨t, ht, hfound⟩ := hfound.peek
  split at hfound
  case isTrue hmatch =>
    obtain ⟨t', ht', hfound⟩ := hfound.next
    cases ht.symm.trans ht'
    cases hfound
    exact .inl ⟨t, ht, beq_iff_eq.mp (Bool.and_eq_true _ _ ▸ hmatch).1, hrest⟩
  case isFalse =>
    cases hfound
    exact .inr hrest

theorem accepted {text : String} {f : Bool → Matcher R β}
    (h : W.Reads callee (Matcher.accepts text >>= f) i b k) :
    (W.Spells i text ∧ W.Reads callee (f true) (i + 1) b k) ∨
      ¬ W.Spells i text ∧ W.Reads callee (f false) i b k := by
  obtain ⟨found, j, hfound, hrest⟩ := h.bind
  obtain ⟨taken, l, htaken, hfound⟩ := hfound.bind
  obtain ⟨t, ht, htaken⟩ := htaken.peek
  split at htaken
  case isTrue hmatch =>
    obtain ⟨t', ht', htaken⟩ := htaken.next
    cases ht.symm.trans ht'
    cases htaken
    cases hfound
    rw [Bool.and_eq_true, Bool.or_eq_true, Bool.or_eq_true] at hmatch
    simp only [beq_iff_eq, or_assoc] at hmatch
    exact .inl ⟨⟨t, ht, hmatch⟩, hrest⟩
  case isFalse hmatch =>
    cases htaken
    cases hfound
    refine .inr ⟨?_, hrest⟩
    rintro ⟨t', ht', hkind, htext⟩
    cases ht.symm.trans ht'
    rw [Bool.and_eq_true, Bool.or_eq_true, Bool.or_eq_true] at hmatch
    simp only [beq_iff_eq, or_assoc] at hmatch
    exact hmatch ⟨hkind, htext⟩

theorem expects {text : String} {rest : Matcher R (Option β)} {b : β}
    (h : W.Reads callee (Matcher.accepts text >>= fun found =>
      if (!found) = true then Pure.pure none else rest) i (some b) k) :
    W.Spells i text ∧ W.Reads callee rest (i + 1) (some b) k := by
  rcases h.accepts with hthere | hmissing
  · exact hthere
  · cases hmissing

theorem needs {m : Matcher R (Option α)} {f : Option α → Matcher R (Option β)} {b : β}
    (h : W.Reads callee (m >>= f) i (some b) k) (hfail : f none = Pure.pure none) :
    ∃ a j, W.Reads callee m i (some a) j ∧ W.Reads callee (f (some a)) j (some b) k := by
  obtain ⟨found, j, hfound, hrest⟩ := h.bind
  cases found with
  | none =>
    rw [hfail] at hrest
    cases hrest
  | some a => exact ⟨a, j, hfound, hrest⟩

/-! ### Rules -/

theorem rule {r : R.Rule} {found : Option (R.Node r)}
    (h : W.Reads callee (Matcher.rule r) i found j) : (callee r i).result = .ok (found, j) := by
  have hcall : ((callee r i).andThen Reading.pure).result = .ok (found, j) := h
  unfold Reading.andThen at hcall
  cases hresult : (callee r i).result with
  | error halt => simp [hresult] at hcall
  | ok answer =>
    simp only [hresult] at hcall
    cases hcall
    rfl

theorem of_answer {r : R.Rule} {found : Option (R.Node r)}
    (h : (callee r i).result = .ok (found, j)) : W.Reads callee (Matcher.rule r) i found j := by
  have hcall : ((callee r i).andThen Reading.pure).result = .ok (found, j) := by
    rw [Reading.andThen, h]
    rfl
  exact hcall

theorem of_step {G : Grammar R} {r : R.Rule} {found : R.Node r} (hpolicy : R.policy r = .packrat)
    (h : (W.step G callee r i).result = .ok (some found, j)) :
    W.Reads callee (G.body r) i (some found) j := by
  simp only [World.step, hpolicy, Reading.settle, Reading.andThen] at h
  unfold Reads
  cases hresult : (W.read callee (G.body r) i).result with
  | error halt => simp [hresult] at h
  | ok answer =>
    simp only [hresult] at h
    obtain ⟨node, stop⟩ := answer
    cases h
    rfl

end World.Reads

end ShellSyntax
