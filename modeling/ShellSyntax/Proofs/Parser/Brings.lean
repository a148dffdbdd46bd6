import ShellSyntax.Proofs.Parser.Inversion
import ShellSyntax.Proofs.Parser.Passes
import ShellSyntax.Proofs.Parser.Yields

/-!
What all values have in common that a matcher can yield in one world, if the rules that it calls
answer there as the grammar says. Unlike what is true in every world, this may say where a value was
read and from which tokens.
-/

namespace ShellSyntax

variable {R : RuleSet} {α β σ : Type}

/-- The rules match as they answer, those that grow to the left apart: of these also the shorter
matches are seen. -/
def Callee.Answers (W : World) (G : Grammar R) (K : Ranking R) (callee : Callee R) : Prop :=
  ∀ r i found j, R.policy r ≠ .leftRecursive → (callee r i).result = .ok (found, j) →
    (W.answer G K r i).result = .ok (found, j)

/-- And all that they match is good, and stands where it should. -/
structure Callee.Honest (W : World) (G : Grammar R) (K : Ranking R) (good : Harvest R)
    (post : Matches R) (callee : Callee R) : Prop where
  answers : callee.Answers W G K
  good : ∀ r i node j, (callee r i).result = .ok (some node, j) → good r node
  leads : callee.Leads post

/-- Where such rules are called, `P` holds of all that the matcher yields. -/
def Brings (W : World) (honest : Callee R → Prop) (m : Matcher R α) (P : α → Prop) : Prop :=
  ∀ callee, honest callee → ∀ i a j, W.Reads callee m i a j → P a

namespace Brings

variable {W : World} {honest : Callee R → Prop} {P : α → Prop} {Q : β → Prop}

theorem done {v : α} (h : P v) : Brings W honest (.done v) P := by
  intro callee _ i a j reads
  cases reads
  exact h

theorem mono {m : Matcher R α} {P' : α → Prop} (h : Brings W honest m P) (himp : ∀ v, P v → P' v) :
    Brings W honest m P' :=
  fun callee hcallee i a j reads => himp a (h callee hcallee i a j reads)

theorem and {m : Matcher R α} {P' : α → Prop} (h : Brings W honest m P) (h' : Brings W honest m P') :
    Brings W honest m fun v => P v ∧ P' v :=
  fun callee hcallee i a j reads => ⟨h callee hcallee i a j reads, h' callee hcallee i a j reads⟩

theorem bind {m : Matcher R α} {f : α → Matcher R β} (hm : Brings W honest m P)
    (h : ∀ v, P v → Brings W honest (f v) Q) : Brings W honest (m >>= f) Q := by
  intro callee hcallee i b k reads
  obtain ⟨a, j, hfirst, hrest⟩ := reads.bind
  exact h a (hm callee hcallee i a j hfirst) callee hcallee j b k hrest

theorem skip {m : Matcher R α} {f : α → Matcher R β} (h : ∀ v, Brings W honest (f v) Q) :
    Brings W honest (m >>= f) Q :=
  bind (P := fun _ => True) (fun _ _ _ _ _ _ => trivial) fun v _ => h v

theorem inBrackets {m : Matcher R α} (h : Brings W honest m P) :
    Brings W honest (Matcher.inBrackets m) P :=
  fun callee hcallee i a j reads => h callee hcallee i a j reads.inBrackets

theorem loop {body : σ → Matcher R (σ ⊕ β)} {state : σ} (holds : σ → Prop) (hstart : holds state)
    (hround : ∀ state, holds state → Brings W honest (body state) fun outcome =>
      match outcome with
      | .inl state => holds state
      | .inr result => Q result) :
    Brings W honest (Matcher.loop body state) Q := by
  intro callee hcallee i b k reads
  refine World.Reads.loop (Q := fun b _ => Q b) reads (fun state _ => holds state) hstart ?_
  intro state j hstate outcome l hbody
  exact hround state hstate callee hcallee j outcome l hbody

/-! ### Choices -/

theorem ifThen {test : Matcher R Bool} {yes no : Matcher R β} (hyes : Brings W honest yes Q)
    (hno : Brings W honest no Q) :
    Brings W honest (test >>= fun found => if found = true then yes else no) Q := by
  refine .skip fun found => ?_
  split
  · exact hyes
  · exact hno

theorem unlessThen {test : Matcher R Bool} {no yes : Matcher R β} (hno : Brings W honest no Q)
    (hyes : Brings W honest yes Q) :
    Brings W honest (test >>= fun found => if (!found) = true then no else yes) Q := by
  refine .skip fun found => ?_
  split
  · exact hno
  · exact hyes

theorem perhaps {test : Matcher R Bool} {first : Matcher R Unit} {rest : Unit → Matcher R β}
    (h : Brings W honest (rest ()) Q) :
    Brings W honest (test >>= fun found => if found = true then first >>= rest else rest ()) Q :=
  .ifThen (.skip fun _ => h) h

end Brings

/-! ### Rules -/

section Rules

variable {W : World} {G : Grammar R} {K : Ranking R} {good : Harvest R} {post : Matches R}
  {callee : Callee R} {r : R.Rule} {i j : Nat}

theorem Callee.Honest.knowing (h : callee.Honest W G K good post) {known : Remembered R}
    (hpolicy : R.policy known.rule = .leftRecursive)
    (hknown : ∀ node ∈ known.node, good known.rule node)
    (hpost : post known.rule i known.node known.stop) :
    (World.knowing callee i known).Honest W G K good post := by
  have hleads := h.leads.knowing hpost
  obtain ⟨r, node, stop⟩ := known
  refine ⟨?_, ?_, hleads⟩
  · intro r' j found k hother hresult
    rw [World.knowing_other] at hresult
    · exact h.answers r' j found k hother hresult
    · rintro rfl
      exact absurd hpolicy hother
  · intro r' j found k hresult
    by_cases hself : r' = r ∧ j = i
    · obtain ⟨rfl, rfl⟩ := hself
      rw [World.knowing_self] at hresult
      cases hresult
      exact hknown found rfl
    · rw [World.knowing_other fun hsame hplace => hself ⟨hsame, hplace⟩] at hresult
      exact h.good r' j found k hresult

theorem Callee.Honest.step (hleads : G.Leads W post) (h : callee.Honest W G K good post)
    (hbody : ∀ r, Brings W (Callee.Honest W G K good post) (G.body r) fun found =>
      ∀ node ∈ found, good r node) :
    (W.step G callee r i).Leads fun found _ => ∀ node ∈ found, good r node := by
  have hread {callee : Callee R} (h : callee.Honest W G K good post) :
      (W.read callee (G.body r) i).Leads fun found _ => ∀ node ∈ found, good r node :=
    fun found j reads => hbody r callee h i found j reads
  unfold World.step
  cases hpolicy : R.policy r with
  | direct => exact hread h
  | packrat =>
    refine (hread h).andThen fun found stop hfound => ?_
    exact .pure hfound
  | leftRecursive =>
    have hgrowth : (World.growth
        (fun best => W.read (World.knowing callee i ⟨r, best.1, best.2⟩) (G.body r) i) (W.bound + 1)
        (none, i)).Leads fun found stop =>
          (∀ node ∈ found, good r node) ∧ post r i found stop := by
      refine World.growth_leads (fun best hbest found stop hresult => ?_)
        ⟨fun _ => nofun, hleads.none r i⟩
      have honest : (World.knowing callee i ⟨r, best.1, best.2⟩).Honest W G K good post :=
        h.knowing hpolicy hbest.1 hbest.2
      exact ⟨hread honest found stop hresult, (hleads.body r i).read honest.leads found stop hresult⟩
    exact fun found stop hresult => (hgrowth found stop hresult).1

open Classical in
/-- The answers that a rule at `i` may ask for. -/
noncomputable def World.inside (W : World) (G : Grammar R) (K : Ranking R) (r : R.Rule) (i : Nat) :
    Callee R := fun r' j =>
  if K.Inside W r i r' j then W.answer G K r' j else .halt .endless

/-- If bodies bring nothing but what is good, so do the rules wherever they answer. -/
theorem World.answer_good (hG : K.Governs G) (hleads : G.Leads W post)
    (hbody : ∀ r, Brings W (Callee.Honest W G K good post) (G.body r) fun found =>
      ∀ node ∈ found, good r node)
    (hentry : K.isEntry r = false) (hlimit : i ≤ W.limit) {node : R.Node r}
    (hanswer : (W.answer G K r i).result = .ok (some node, j)) : good r node := by
  induction hneed : K.need W.limit r i using Nat.strongRecOn generalizing r i j with
  | ind need ih =>
    subst hneed
    have hhonest : (W.inside G K r i).Honest W G K good post := by
      refine ⟨?_, ?_, ?_⟩
      · intro r' j' found k _ hresult
        unfold inside at hresult
        split at hresult
        · exact hresult
        · cases hresult
      · intro r' j' found k hresult
        unfold inside at hresult
        split at hresult
        case isTrue hinside => exact ih _ hinside.need_lt hinside.1 hinside.2.1 hresult rfl
        case isFalse => cases hresult
      · intro r' j'
        unfold inside
        split
        · exact hleads.call _ r' j'
        · exact .halt .endless
    have hsame : W.answer G K r i = W.step G (W.inside G K r i) r i := by
      rw [answer_eq hG hentry hlimit]
      refine (step_meets hG hentry hlimit fun r' j' hinside => ?_).1
      exact ⟨by rw [inside, if_pos hinside], answer_meets hG hinside.1 hinside.2.1⟩
    rw [hsame] at hanswer
    exact hhonest.step hleads hbody _ _ hanswer node rfl

open Classical in
/-- The answers as far as the source goes. -/
noncomputable def World.answersTo (W : World) (G : Grammar R) (K : Ranking R) : Callee R :=
  fun r i => if K.isEntry r = false ∧ i ≤ W.limit then W.answer G K r i else .halt .endless

theorem World.answersTo_honest (hG : K.Governs G) (hleads : G.Leads W post)
    (hbody : ∀ r, Brings W (Callee.Honest W G K good post) (G.body r) fun found =>
      ∀ node ∈ found, good r node) :
    (W.answersTo G K).Honest W G K good post := by
  refine ⟨?_, ?_, ?_⟩
  · intro r i found j _ hresult
    unfold answersTo at hresult
    split at hresult
    · exact hresult
    · cases hresult
  · intro r i node j hresult
    unfold answersTo at hresult
    split at hresult
    case isTrue hinside => exact answer_good hG hleads hbody hinside.1 hinside.2 hresult
    case isFalse => cases hresult
  · intro r i
    unfold answersTo
    split
    · exact hleads.call _ r i
    · exact .halt .endless

theorem Pass.reading_answersTo {p : Pass} {entry : R.Rule} (hG : K.Governs G)
    (hentry : K.isEntry entry = true) :
    p.reading G K entry = p.world.read (p.world.answersTo G K) (G.body entry) 0 := by
  obtain ⟨_, α, first, last, hbody, hstraight, hfirst⟩ := hG.entry entry hentry
  have hcallee : CalleesAgree p.world K ⟨0, K.rank entry, 0⟩ (p.world.answer G K)
      (p.world.answersTo G K) := by
    intro r i hallows hi
    exact ⟨by rw [World.answersTo, if_pos ⟨hallows.2.1, hi⟩],
      World.answer_meets hG hallows.2.1 hi⟩
  obtain ⟨heq, hmeets⟩ := (hfirst p.world 0).meets hcallee (Nat.zero_le _) (Nat.zero_le _)
  rw [reading, hbody, World.read_bind, World.read_bind]
  exact Reading.andThen_congr heq hmeets fun a j _ _ => (hstraight a).read_eq _ _ _

end Rules

end ShellSyntax
