import ShellSyntax.Language.Command
import ShellSyntax.Language.Display
import ShellSyntax.Proofs.Parser.Leads
import ShellSyntax.Proofs.Parser.NestedTokens

/-!
Matchers close what they open. Where one has matched, as much is open as where it started, and
nothing of that was closed on the way. Only one thing can go wrong: a sign between commands ends a
command also where a plain bracket among its words is still open, and the closer of that bracket is
then taken for the closer of the command.

Some of the brackets that are open can be counted. Each level of a match is for one bracket that may
be counted, so no more are open at once than the match has levels.
-/

namespace ShellSyntax

open ShellSyntax.Language

/-- Plain brackets leave it to the brackets around them how their text is cut into tokens. -/
def Opener.isPlain : Opener → Bool
  | paren | square | brace => true
  | _ => false

namespace Opening

/-- How the text in these openings is cut into tokens. -/
def realm : List Opening → Realm
  | bracket opener :: outer => opener.inside (realm outer)
  | _ => .host

/-- A brace opens a field here, or may do so. -/
def inString : List Opening → Bool
  | literal :: _ => true
  | bracket .brace :: outer => inString outer
  | _ => false

/-- How many of the open brackets are counted. -/
def weigh (counts : Opener → List Opening → Bool) : List Opening → Nat
  | [] => 0
  | literal :: outer => weigh counts outer
  | bracket opener :: outer => weigh counts outer + (counts opener outer).toNat

theorem realm_inString {open_ : List Opening} (h : inString open_ = true) :
    realm open_ = .host := by
  induction open_ with
  | nil => rfl
  | cons opening outer induction =>
    cases opening with
    | literal => rfl
    | bracket opener =>
      cases opener with
      | brace => exact induction h
      | _ => cases h

theorem weigh_cons_le (counts : Opener → List Opening → Bool) (opening : Opening)
    (outer : List Opening) : weigh counts (opening :: outer) ≤ weigh counts outer + 1 := by
  cases opening with
  | literal => exact Nat.le_succ _
  | bracket opener => exact Nat.add_le_add_left (Bool.toNat_le _) _

theorem weigh_uncounted {counts : Opener → List Opening → Bool} {opener : Opener}
    {outer : List Opening} (h : counts opener outer = false) :
    weigh counts (bracket opener :: outer) = weigh counts outer := by
  rw [weigh, h]
  rfl

end Opening

namespace Feed

variable (f : Feed)

/-- From `i` to `j` nothing is closed that was open before. -/
structure KeepsOpen (i j : Nat) : Prop where
  le : i ≤ j
  above : ∀ k, i ≤ k → k ≤ j → f.openAt i <:+ f.openAt k

/-- Nor is anything left open that opens there. -/
structure Balanced (i j : Nat) : Prop extends f.KeepsOpen i j where
  settled : f.openAt j = f.openAt i

/-- The token at `last` closes what the token at `i` opens. -/
structure Pairs (i last : Nat) : Prop where
  opens : f.Opens i
  stays : ∀ k, i < k → k ≤ last → f.openAt (i + 1) <:+ f.openAt k
  shuts : f.openAt last = f.openAt (i + 1)
  outside : f.openAt (last + 1) = f.openAt i

/-- A sign between commands stands directly in a plain bracket among the words of one. -/
def Strays (k : Nat) : Prop :=
  (∃ t, f.token k = .ok t ∧ t.kind = .op ∧ (t.text = "&" ∨ t.text ∈ links.map Prod.fst)) ∧
    ∃ opener outer, f.openAt k = .bracket opener :: outer ∧ opener.isPlain = true ∧
      Opening.realm outer = .command

variable {f} {i j k : Nat}

namespace KeepsOpen

theorem refl (i : Nat) : f.KeepsOpen i i where
  le := Nat.le_refl i
  above k hik hki := by rw [Nat.le_antisymm hki hik]

theorem succ (h : f.KeepsOpen i j) (hopen : f.openAt i <:+ f.openAt (j + 1)) :
    f.KeepsOpen i (j + 1) where
  le := Nat.le_succ_of_le h.le
  above k hik hkj := by
    obtain rfl | hlt := Nat.eq_or_lt_of_le hkj
    · exact hopen
    · exact h.above k hik (Nat.le_of_lt_succ hlt)

theorem trans (h : f.KeepsOpen i j) (h' : f.KeepsOpen j k) : f.KeepsOpen i k where
  le := Nat.le_trans h.le h'.le
  above l hil hlk := by
    rcases Nat.le_total l j with hlj | hjl
    · exact h.above l hil hlj
    · exact (h.above j h.le (Nat.le_refl j)).trans (h'.above l hjl hlk)

end KeepsOpen

theorem Balanced.refl (i : Nat) : f.Balanced i i :=
  ⟨.refl i, rfl⟩

theorem Balanced.step (h : f.openAt (i + 1) = f.openAt i) : f.Balanced i (i + 1) :=
  ⟨(KeepsOpen.refl i).succ (h ▸ List.suffix_refl _), h⟩

theorem Balanced.trans (h : f.Balanced i j) (h' : f.Balanced j k) : f.Balanced i k :=
  ⟨h.toKeepsOpen.trans h'.toKeepsOpen, h'.settled.trans h.settled⟩

theorem Balanced.enclosed (hopens : f.Opens i) (h : f.Balanced (i + 1) j) (hshuts : f.Shuts j) :
    f.Balanced i (j + 1) := by
  obtain ⟨opening, hopen⟩ := hopens
  obtain ⟨closed, hclose⟩ := hshuts
  have hsettled : f.openAt (j + 1) = f.openAt i :=
    (List.cons.inj (hclose.symm.trans (h.settled.trans hopen))).2
  have hopened : f.KeepsOpen i (i + 1) :=
    (KeepsOpen.refl i).succ (hopen ▸ List.suffix_cons opening _)
  exact ⟨(hopened.trans h.toKeepsOpen).succ (hsettled ▸ List.suffix_refl _), hsettled⟩

/-- Brackets that are balanced between an opener and a closer leave it to them to match. -/
theorem Balanced.pairs (hopens : f.Opens i) (h : f.Balanced (i + 1) j) (hshuts : f.Shuts j) :
    f.Pairs i j :=
  ⟨hopens, h.above, h.settled, (h.enclosed hopens hshuts).settled⟩

end Feed

/-- A sign closes and opens nothing. -/
theorem NestedWorld.openAt_sign {W : NestedWorld} {i : Nat} (h : W.Strays i) :
    W.openAt (i + 1) = W.openAt i := by
  obtain ⟨⟨t, ht, hop, htext⟩, _⟩ := h
  have hsigns : ∀ text ∈ "&" :: links.map Prod.fst, isNoBracket text = true := by decide
  exact openAt_same ht (by simp [hop]) fun _ => hsigns _ (List.mem_cons.mpr htext)

namespace Feed

variable {W : NestedWorld} {i : Nat}

theorem Opens.not_strays (h : W.Opens i) : ¬W.Strays i := by
  intro hstrays
  obtain ⟨opening, hopen⟩ := h
  exact List.cons_ne_self _ _ (hopen.symm.trans (NestedWorld.openAt_sign hstrays))

theorem Shuts.not_strays (h : W.Shuts i) : ¬W.Strays i := by
  intro hstrays
  obtain ⟨opening, hclosed⟩ := h
  exact List.cons_ne_self _ _ (hclosed.symm.trans (NestedWorld.openAt_sign hstrays).symm)

end Feed

/-- Statements that may have parentheses of their own begin with these. -/
def headKeywords : List String :=
  ["def", "class", "with", "import"]

/-- Some brackets are counted, and `most` of them may be open at once. None is counted in the text
of a command, nor are braces around fields and parentheses that belong to a statement. A sign that
strays before `since` does not matter. If the world is watched, rules are to be called only where
there is room for what they open. -/
structure TalliedWorld extends NestedWorld where
  counts : Opener → List Opening → Bool
  most : Nat
  since : Nat
  watched : Prop
  inCommand : ∀ opener outer, Opening.realm outer = .command → counts opener outer = false
  inString : ∀ outer, Opening.inString outer = true → counts .brace outer = false
  atHead : ∀ i text, text ∈ headKeywords → toFeed.Spells i text → counts .paren [] = false
  undiagnosed : watched → diagnosing = false
  whole : watched → since = 0

namespace TalliedWorld

variable (W : TalliedWorld)

def weigh (open_ : List Opening) : Nat :=
  Opening.weigh W.counts open_

/-- A sign has strayed before. -/
def Strayed (i : Nat) : Prop :=
  ∃ k, W.since ≤ k ∧ k < i ∧ W.Strays k

/-- What may be open around a match, so that what it opens is not too much. -/
structure Scope where
  holds : List Opening → Prop
  fits : ∀ open_, holds open_ → W.weigh open_ ≤ W.most

variable {W} in
def Scope.among (S : W.Scope) (known : List Opening → Prop) : W.Scope where
  holds open_ := S.holds open_ ∧ known open_
  fits open_ hopen := S.fits open_ hopen.1

/-- There is room for so many more brackets. -/
def room (levels : Nat) : W.Scope where
  holds open_ := W.weigh open_ + levels ≤ W.most
  fits _ hroom := Nat.le_trans (Nat.le_add_right _ _) hroom

/-- There is room among expressions. -/
def hostRoom (levels : Nat) : W.Scope :=
  (W.room levels).among fun open_ => Opening.realm open_ = .host

/-- There is room in the text of a command. -/
def commandRoom (levels : Nat) : W.Scope :=
  (W.room levels).among fun open_ => Opening.realm open_ = .command

/-- There is room in an f-string. -/
def stringRoom (levels : Nat) : W.Scope :=
  (W.room levels).among fun open_ => Opening.inString open_ = true

/-- There is room between statements, where nothing is open. -/
def statementRoom (levels : Nat) : W.Scope :=
  (W.room levels).among (· = [])

/-- There is room in the brackets of a command that begins here. -/
def captureRoom (levels : Nat) : W.Scope where
  holds open_ := ∀ opener, W.weigh (.bracket opener :: open_) + levels ≤ W.most
  fits open_ hroom := by
    have hinside := hroom .dollarParen
    simp only [weigh, Opening.weigh] at hinside ⊢
    omega

/-- Where the world is watched, what is open here is in scope, unless a sign has strayed. -/
def Scope.Safe {W : TalliedWorld} (S : W.Scope) (i : Nat) : Prop :=
  W.watched → W.Strayed i ∨ S.holds (W.openAt i)

/-- From `i` to `j` never more than `most` counted brackets are open, and no sign strays. -/
structure Calm (i j : Nat) : Prop where
  most : ∀ k, i ≤ k → k ≤ j → W.weigh (W.openAt k) ≤ W.most
  quiet : ∀ k, i ≤ k → k < j → ¬W.Strays k

/-- And the brackets are balanced. -/
structure Clean (i j : Nat) : Prop extends W.Balanced i j, W.Calm i j

/-- If a sign strays, something that was opened stays open. -/
def Settled (i j : Nat) : Prop :=
  W.Clean i j ∨
    (∃ k, i ≤ k ∧ k < j ∧ W.Strays k) ∧ (W.openAt i).length < (W.openAt j).length

/-- From `i` to `j` nothing goes wrong, if what is open at `i` is in scope and nothing has gone
wrong before. -/
structure Closes (S : W.Scope) (i j : Nat) : Prop where
  le : i ≤ j
  grows : (W.openAt i).length ≤ (W.openAt j).length
  settled : ¬W.Strayed i → S.holds (W.openAt i) → W.Settled i j

/-- A bracket opens, and what is open inside is in scope there if what is open around it is. -/
structure Enters (outer inner : W.Scope) (i : Nat) : Prop where
  opens : W.Opens i
  inside : outer.holds (W.openAt i) → inner.holds (W.openAt (i + 1))

variable {W} {S S' : W.Scope} {i j k levels : Nat}

theorem Strayed.later (h : W.Strayed i) (hle : i ≤ j) : W.Strayed j := by
  obtain ⟨k, hsince, hki, hstrays⟩ := h
  exact ⟨k, hsince, Nat.lt_of_lt_of_le hki hle, hstrays⟩

theorem Enters.not_strayed (enters : W.Enters S S' i) (hclean : ¬W.Strayed i) :
    ¬W.Strayed (i + 1) := by
  rintro ⟨k, hsince, hki, hstrays⟩
  obtain rfl | hlt := Nat.eq_or_lt_of_le (Nat.le_of_lt_succ hki)
  · exact enters.opens.not_strays hstrays
  · exact hclean ⟨k, hsince, hlt, hstrays⟩

namespace Calm

theorem single (h : W.weigh (W.openAt i) ≤ W.most) : W.Calm i i where
  most k hik hki := by rwa [Nat.le_antisymm hki hik]
  quiet k hik hki := absurd hik (Nat.not_le_of_lt hki)

theorem succ (h : W.Calm i j) (hmost : W.weigh (W.openAt (j + 1)) ≤ W.most)
    (hquiet : ¬W.Strays j) : W.Calm i (j + 1) where
  most k hik hkj := by
    obtain rfl | hlt := Nat.eq_or_lt_of_le hkj
    · exact hmost
    · exact h.most k hik (Nat.le_of_lt_succ hlt)
  quiet k hik hkj := by
    obtain rfl | hlt := Nat.eq_or_lt_of_le (Nat.le_of_lt_succ hkj)
    · exact hquiet
    · exact h.quiet k hik hlt

theorem trans (h : W.Calm i j) (h' : W.Calm j k) : W.Calm i k where
  most l hil hlk := by
    rcases Nat.le_total l j with hlj | hjl
    · exact h.most l hil hlj
    · exact h'.most l hjl hlk
  quiet l hil hlk := by
    rcases Nat.lt_or_ge l j with hlj | hjl
    · exact h.quiet l hil hlj
    · exact h'.quiet l hjl hlk

theorem not_strayed (h : W.Calm i j) (hclean : ¬W.Strayed i) : ¬W.Strayed j := by
  rintro ⟨k, hsince, hkj, hstrays⟩
  rcases Nat.lt_or_ge k i with hki | hik
  · exact hclean ⟨k, hsince, hki, hstrays⟩
  · exact h.quiet k hik hkj hstrays

end Calm

namespace Clean

theorem refl (h : S.holds (W.openAt i)) : W.Clean i i :=
  ⟨.refl i, .single (S.fits _ h)⟩

theorem step (hopen : W.openAt (i + 1) = W.openAt i) (hquiet : ¬W.Strays i)
    (h : S.holds (W.openAt i)) : W.Clean i (i + 1) :=
  ⟨.step hopen, (Calm.single (S.fits _ h)).succ (hopen ▸ S.fits _ h) hquiet⟩

theorem trans (h : W.Clean i j) (h' : W.Clean j k) : W.Clean i k :=
  ⟨h.toBalanced.trans h'.toBalanced, h.toCalm.trans h'.toCalm⟩

theorem enclosed (hopens : W.Opens i) (h : W.Clean (i + 1) j) (hshuts : W.Shuts j)
    (hmost : W.weigh (W.openAt i) ≤ W.most) : W.Clean i (j + 1) := by
  have hwhole := h.toBalanced.enclosed hopens hshuts
  have hopened : W.Calm i (i + 1) :=
    (Calm.single hmost).succ (h.most (i + 1) (Nat.le_refl _) h.le) hopens.not_strays
  exact ⟨hwhole, (hopened.trans h.toCalm).succ (hwhole.settled ▸ hmost) hshuts.not_strays⟩

end Clean

namespace Closes

theorem refl (i : Nat) : W.Closes S i i :=
  ⟨Nat.le_refl i, Nat.le_refl _, fun _ hopen => .inl (.refl hopen)⟩

theorem narrow (h : W.Closes S i j)
    (himp : ¬W.Strayed i → S'.holds (W.openAt i) → S.holds (W.openAt i)) : W.Closes S' i j :=
  ⟨h.le, h.grows, fun hclean hopen => h.settled hclean (himp hclean hopen)⟩

theorem weaken (h : W.Closes S i j) (himp : S'.holds (W.openAt i) → S.holds (W.openAt i)) :
    W.Closes S' i j :=
  h.narrow fun _ => himp

theorem trans (h : W.Closes S i j) (h' : W.Closes S j k) : W.Closes S i k := by
  refine ⟨Nat.le_trans h.le h'.le, Nat.le_trans h.grows h'.grows, fun hclean hopen => ?_⟩
  rcases h.settled hclean hopen with hfirst | ⟨⟨l, hil, hlj, hstrays⟩, hmore⟩
  · rcases h'.settled (hfirst.not_strayed hclean) (hfirst.settled ▸ hopen) with
      hsecond | ⟨⟨l, hjl, hlk, hstrays⟩, hmore⟩
    · exact .inl (hfirst.trans hsecond)
    · exact .inr ⟨⟨l, Nat.le_trans h.le hjl, hlk, hstrays⟩, hfirst.settled ▸ hmore⟩
  · exact .inr ⟨⟨l, hil, Nat.lt_of_lt_of_le hlj h'.le, hstrays⟩, Nat.lt_of_lt_of_le hmore h'.grows⟩

theorem step (hopen : W.openAt (i + 1) = W.openAt i)
    (hquiet : S.holds (W.openAt i) → ¬W.Strays i) : W.Closes S i (i + 1) := by
  refine ⟨Nat.le_succ i, Nat.le_of_eq (congrArg List.length hopen.symm), fun _ hscope => ?_⟩
  exact .inl (.step hopen (hquiet hscope) hscope)

theorem enclosed (enters : W.Enters S S' i) (h : W.Closes S' (i + 1) j) (hshuts : W.Shuts j) :
    W.Closes S i (j + 1) := by
  obtain ⟨opening, hopen⟩ := enters.opens
  obtain ⟨closed, hclose⟩ := id hshuts
  have hopened : (W.openAt (i + 1)).length = (W.openAt i).length + 1 := congrArg List.length hopen
  have hclosed : (W.openAt j).length = (W.openAt (j + 1)).length + 1 := congrArg List.length hclose
  have hle := h.le
  have hgrows := h.grows
  refine ⟨by omega, by omega, fun hclean hscope => ?_⟩
  rcases h.settled (enters.not_strayed hclean) (enters.inside hscope) with
    hwell | ⟨⟨k, hik, hkj, hstrays⟩, hmore⟩
  · exact .inl (hwell.enclosed enters.opens hshuts (S.fits _ hscope))
  · exact .inr ⟨⟨k, by omega, by omega, hstrays⟩, by omega⟩

/-- What is in scope stays so behind what has been closed. -/
theorem safe (h : W.Closes S i j) (safe : S.Safe i) : S.Safe j := by
  intro hwatched
  rcases safe hwatched with hstrayed | hscope
  · exact .inl (hstrayed.later h.le)
  by_cases hstrayed : W.Strayed i
  · exact .inl (hstrayed.later h.le)
  rcases h.settled hstrayed hscope with hclean | ⟨⟨k, _, hkj, hstrays⟩, _⟩
  · exact .inr (hclean.settled ▸ hscope)
  · exact .inl ⟨k, W.whole hwatched ▸ Nat.zero_le k, hkj, hstrays⟩

end Closes

theorem Scope.Safe.imp (safe : S.Safe i) (himp : S.holds (W.openAt i) → S'.holds (W.openAt i)) :
    S'.Safe i :=
  fun hwatched => (safe hwatched).imp_right himp

theorem Enters.safe (enters : W.Enters S S' i) (safe : S.Safe i) : S'.Safe (i + 1) :=
  fun hwatched => (safe hwatched).imp (·.later (Nat.le_succ i)) enters.inside

/-- A bracket takes the room of one. -/
theorem room_inside (hopens : W.Opens i) (hroom : (W.room (levels + 1)).holds (W.openAt i)) :
    (W.room levels).holds (W.openAt (i + 1)) := by
  obtain ⟨opening, hopen⟩ := hopens
  have hweigh := Opening.weigh_cons_le W.counts opening (W.openAt i)
  rw [hopen]
  simp only [room, weigh] at hroom hweigh ⊢
  omega

/-- A bracket that is not counted takes no room. -/
theorem room_uncounted {opener : Opener} (hcounts : W.counts opener (W.openAt i) = false)
    (hopen : W.openAt (i + 1) = .bracket opener :: W.openAt i)
    (hroom : (W.room levels).holds (W.openAt i)) : (W.room levels).holds (W.openAt (i + 1)) := by
  simp only [room, weigh, hopen, Opening.weigh_uncounted hcounts] at hroom ⊢
  exact hroom

theorem hostRoom_of_string {open_ : List Opening} (h : (W.stringRoom levels).holds open_) :
    (W.hostRoom levels).holds open_ :=
  ⟨h.1, Opening.realm_inString h.2⟩

theorem hostRoom_of_statement {open_ : List Opening} (h : (W.statementRoom levels).holds open_) :
    (W.hostRoom levels).holds open_ :=
  ⟨h.1, h.2 ▸ rfl⟩

theorem captureRoom_of_room {open_ : List Opening} (h : (W.room (levels + 1)).holds open_) :
    (W.captureRoom levels).holds open_ := by
  intro opener
  have hweigh := Opening.weigh_cons_le W.counts (.bracket opener) open_
  simp only [room, weigh] at h hweigh ⊢
  omega

theorem captureRoom_of_command {open_ : List Opening} (h : (W.commandRoom levels).holds open_) :
    (W.captureRoom levels).holds open_ := by
  intro opener
  rw [weigh, Opening.weigh_uncounted (W.inCommand opener _ h.2)]
  exact h.1

/-! ### Levels -/

/-- For how many more brackets there is room. -/
abbrev Level (W : TalliedWorld) := Fin (W.most + 1)

/-- Inside a bracket there is room for one less. -/
def inward : W.Level → Option W.Level
  | ⟨0, _⟩ => none
  | ⟨levels + 1, hlevels⟩ => some ⟨levels, Nat.lt_of_succ_lt hlevels⟩

theorem inward_eq_some {n m : W.Level} (h : W.inward n = some m) : (n : Nat) = m + 1 := by
  obtain ⟨_ | levels, hlevels⟩ := n
  · cases h
  · cases h
    rfl

theorem affords {n : W.Level} {depth : Nat} (h : depth ≤ n) : Affords W.inward n depth := by
  induction depth generalizing n with
  | zero => trivial
  | succ depth induction =>
    obtain ⟨_ | levels, hlevels⟩ := n
    · cases h
    · exact ⟨_, rfl, induction (Nat.le_of_succ_le_succ h)⟩

end TalliedWorld

/-! ### Tokens -/

/-- The text is neither a bracket nor a sign between commands. -/
def isQuiet (text : String) : Bool :=
  isNoBracket text && !("&" :: links.map Prod.fst).contains text

/-- Around expressions the text opens a bracket with expressions in it. -/
def opensHost (text : String) : Bool :=
  (Opener.ofSpelling? text).any fun opener => opener.inside .host == .host

namespace Feed.Spells

variable {W : TalliedWorld} {S : W.Scope} {i levels : Nat} {text : String}

theorem openAt_same (h : W.Spells i text) (htext : isNoBracket text = true) :
    W.openAt (i + 1) = W.openAt i := by
  obtain ⟨t, ht, hkind, rfl⟩ := h
  refine NestedWorld.openAt_same ht ?_ fun _ => htext
  rcases hkind with hkind | hkind | hkind <;> simp [hkind]

theorem closes (h : W.Spells i text) (htext : isQuiet text = true) : W.Closes S i (i + 1) := by
  rw [isQuiet, Bool.and_eq_true, Bool.not_eq_true'] at htext
  refine .step (h.openAt_same htext.1) fun _ hstrays => ?_
  obtain ⟨t, ht, _, rfl⟩ := h
  obtain ⟨⟨t', ht', _, hsign⟩, _⟩ := hstrays
  cases ht.symm.trans ht'
  have hmem := List.contains_iff_mem.mpr (List.mem_cons.mpr hsign)
  exact Bool.false_ne_true (htext.2.symm.trans hmem)

/-- Among expressions no sign strays. -/
theorem closes_hosted (h : W.Spells i text) (htext : isNoBracket text = true) :
    W.Closes (W.hostRoom levels) i (i + 1) := by
  refine .step (h.openAt_same htext) fun hhost hstrays => ?_
  obtain ⟨_, opener, outer, hopen, hplain, hrealm⟩ := hstrays
  have hrealm' := hhost.2
  rw [hopen] at hrealm'
  cases opener with
  | paren | square | brace => cases hrealm'.symm.trans hrealm
  | _ => cases hplain

theorem openAt {opener : Opener} (h : W.Spells i text)
    (hopener : Opener.ofSpelling? text = some opener) :
    W.openAt (i + 1) = .bracket opener :: W.openAt i := by
  obtain ⟨t, ht, hkind, rfl⟩ := h
  have hop := NestedWorld.op_of_bracket ht hkind (by simp [isNoBracket, hopener])
  exact NestedWorld.openAt_opener ht hop hopener

theorem opens (h : W.Spells i text) (htext : (Opener.ofSpelling? text).isSome = true) :
    W.Opens i := by
  obtain ⟨opener, hopener⟩ := Option.isSome_iff_exists.mp htext
  exact ⟨_, h.openAt hopener⟩

theorem shuts (h : W.Spells i text) (htext : (Lexer.closer? text).isSome = true) : W.Shuts i := by
  obtain ⟨t, ht, hkind, rfl⟩ := h
  obtain ⟨closer, hcloser⟩ := Option.isSome_iff_exists.mp htext
  have hop := NestedWorld.op_of_bracket ht hkind (by simp [isNoBracket, hcloser])
  exact NestedWorld.shuts_closer ht hop htext

/-- A bracket among expressions with expressions in it. -/
theorem enters (h : W.Spells i text) (htext : opensHost text = true) :
    W.Enters (W.hostRoom (levels + 1)) (W.hostRoom levels) i := by
  cases hopener : Opener.ofSpelling? text with
  | none => simp [opensHost, hopener] at htext
  | some opener =>
    have hinside : opener.inside .host = .host := by simpa [opensHost, hopener] using htext
    have hopen := h.openAt hopener
    refine ⟨⟨_, hopen⟩, fun hhost => ⟨TalliedWorld.room_inside ⟨_, hopen⟩ hhost.1, ?_⟩⟩
    rw [hopen]
    exact (congrArg opener.inside hhost.2).trans hinside

theorem entersField (h : W.Spells i "\x7b") :
    W.Enters (W.stringRoom levels) (W.stringRoom levels) i := by
  have hopen := h.openAt (show Opener.ofSpelling? "\x7b" = some .brace by decide)
  refine ⟨⟨_, hopen⟩, fun hstring => ⟨?_, ?_⟩⟩
  · exact TalliedWorld.room_uncounted (W.inString _ hstring.2) hopen hstring.1
  · rw [hopen]
    exact hstring.2

end Feed.Spells

/-! ### Matchers -/

namespace TalliedWorld

variable {α : Type} (W : TalliedWorld)

/-- A matcher that has matched here has closed all that it opened since `k`. -/
def Ends (S : W.Scope) (k : Nat) : Option α → Nat → Prop
  | some _, j => W.Closes S k j
  | none, _ => True

/-- The same for one that started at `i` and goes back there if it fails. -/
def Rests (S : W.Scope) (i : Nat) : Option α → Nat → Prop
  | some _, j => W.Closes S i j
  | none, j => j = i

/-- From `i` to `j` stands a command with the brackets around it, unless a sign strays in it. -/
structure Encloses (S : W.Scope) (i j : Nat) : Prop where
  closes : W.Closes S i j
  pairs : ¬W.Strayed i → S.holds (W.openAt i) →
    ∃ last, j = last + 1 ∧ (W.Pairs i last ∨ ∃ k, i < k ∧ k < last ∧ W.Strays k)

variable {W} {S S' : W.Scope} {i j k : Nat}

theorem Encloses.of_closes (enters : W.Enters S S' i) (h : W.Closes S' (i + 1) j)
    (hshuts : W.Shuts j) : W.Encloses S i (j + 1) where
  closes := .enclosed enters h hshuts
  pairs := by
    refine fun hclean hscope => ⟨j, rfl, ?_⟩
    refine (h.settled (enters.not_strayed hclean) (enters.inside hscope)).imp ?_ And.left
    exact fun hwell => hwell.toBalanced.pairs enters.opens hshuts

theorem Rests.closes {found : Option α} (h : W.Rests S i found j) : W.Closes S i j := by
  cases found with
  | some a => exact h
  | none =>
    cases h
    exact .refl i

theorem Rests.narrow {found : Option α} (h : W.Rests S i found j)
    (himp : ¬W.Strayed i → S'.holds (W.openAt i) → S.holds (W.openAt i)) :
    W.Rests S' i found j := by
  cases found with
  | some a => exact Closes.narrow h himp
  | none => exact h

theorem Ends.narrow {found : Option α} (h : W.Ends S i found j)
    (himp : ¬W.Strayed i → S'.holds (W.openAt i) → S.holds (W.openAt i)) :
    W.Ends S' i found j := by
  cases found with
  | some a => exact Closes.narrow h himp
  | none => trivial

theorem Encloses.narrow (h : W.Encloses S i j)
    (himp : ¬W.Strayed i → S'.holds (W.openAt i) → S.holds (W.openAt i)) : W.Encloses S' i j :=
  ⟨h.closes.narrow himp, fun hclean hscope => h.pairs hclean (himp hclean hscope)⟩

end TalliedWorld

namespace Language

open Matcher

variable {α β σ : Type} {W : TalliedWorld} {n : W.Level} {S S' : W.Scope} {i j k : Nat}

/-- Where a rule may be called. Between statements nothing is open, and around the inside of an
f-string is the f-string. -/
def scope (W : TalliedWorld) (n : W.Level) : Rule → W.Scope
  | .program | .stmtList | .suite | .smallStmt | .elifBranch => W.statementRoom n
  | .fstringInside _ => W.stringRoom n
  | .commandExpr => W.captureRoom n
  | .stringRun => W.room n
  | _ => W.hostRoom n

def safe (W : TalliedWorld) (n : W.Level) (r : Rule) (i : Nat) : Prop :=
  (scope W n r).Safe i

/-- Where rules match, all that they open is closed, and a command is enclosed in brackets of its
own. Where they fail, most of them go back. -/
def closed (W : TalliedWorld) (n : W.Level) : Matches rules
  | .program, i, found, j => W.Ends (α := Module) (W.statementRoom n) i found j
  | .soleExpr, i, found, j => W.Ends (α := Expr) (W.hostRoom n) i found j
  | .elifBranch, i, found, j => W.Ends (α := StmtForm) (W.statementRoom n) i found j
  | .stmtList, i, _, j => W.Closes (W.statementRoom n) i j
  | .commandExpr, i, found, j =>
    match found with
    | some _ => W.Encloses (W.captureRoom n) i j
    | none => j = i
  | r, i, found, j => W.Rests (scope W n r) i found j

/-- If the matcher comes to an end, `Q` holds of what it yields and of where it ends; and it calls
rules only where they may be called. -/
abbrev Comes (W : TalliedWorld) (n : W.Level) (m : Match α) (i : Nat) (Q : α → Nat → Prop) : Prop :=
  LeadsIn W.toWorld (safe W) (closed W) W.inward n m i Q

/-- In this scope the matcher closes all that it opens if it matches. -/
abbrev Finishes (W : TalliedWorld) (n : W.Level) (S : W.Scope) (m : Match (Option α)) (i : Nat) :
    Prop :=
  S.Safe i → Comes W n m i (W.Ends S i)

/-- The same, and it goes back if it fails. -/
abbrev Returns (W : TalliedWorld) (n : W.Level) (S : W.Scope) (m : Match (Option α)) (i : Nat) :
    Prop :=
  S.Safe i → Comes W n m i (W.Rests S i)

/-- The same among expressions. -/
abbrev Settles (W : TalliedWorld) (n : W.Level) (m : Match (Option α)) (i : Nat) : Prop :=
  Returns W n (W.hostRoom n) m i

/-- What a rule matches at one level it matches at another, if it is in scope there only where it is
in scope here. -/
theorem closed_at_level {n' : W.Level} {r : Rule} {found : Option r.Node}
    (himp : ¬W.Strayed i → (scope W n' r).holds (W.openAt i) → (scope W n r).holds (W.openAt i))
    (h : closed W n r i found j) : closed W n' r i found j := by
  cases r with
  | stmtList => exact TalliedWorld.Closes.narrow h himp
  | program | soleExpr | elifBranch => exact TalliedWorld.Ends.narrow h himp
  | commandExpr =>
    cases found with
    | none => exact h
    | some e => exact TalliedWorld.Encloses.narrow h himp
  | _ => exact TalliedWorld.Rests.narrow h himp

variable {Q : β → Nat → Prop}

theorem attempt_comes {inner : Nat → Match (Option α)} {P Q : Option α → Nat → Prop}
    (h : Comes W n (inner i) i P) (hsome : ∀ a j, P (some a) j → Q (some a) j)
    (hnone : ∀ j, P none j → Q none i) : Comes W n (attempt inner) i Q := by
  refine .mark (.bind (h.mono ?_))
  rintro (_ | a) j hfound
  · exact .reset (hnone j hfound)
  · exact hsome a j hfound

theorem attempt_settles {inner : Nat → Match (Option α)} (h : Finishes W n S (inner i) i) :
    Returns W n S (attempt inner) i :=
  fun safe => attempt_comes (h safe) (fun _ _ hends => hends) fun _ _ => rfl

theorem giveUp_settles : Comes W n (giveUp i : Match (Option α)) j (W.Rests S i) :=
  .reset rfl

theorem commandExpr_settles : Returns W n (W.captureRoom n) commandExpr i := by
  intro safe
  have hrule : Comes W n commandExpr i (closed W n .commandExpr i) := .called safe
  refine hrule.mono ?_
  rintro (_ | e) j hmatched
  · exact hmatched
  · exact hmatched.closes

/-! ### Steps -/

theorem closes_ofKind {t : Token} (ht : W.token i = .ok t)
    (hkind : t.kind ≠ .op ∧ t.kind ≠ .fstringStart ∧ t.kind ≠ .fstringEnd) :
    W.Closes S i (i + 1) := by
  refine .step (NestedWorld.openAt_same ht hkind.2 fun hop => absurd hop hkind.1) ?_
  rintro _ ⟨⟨t', ht', hop, _⟩, _⟩
  cases ht.symm.trans ht'
  exact hkind.1 hop

theorem reads {text : String} {f : Bool → Match β}
    (hyes : W.Spells i text → Comes W n (f true) (i + 1) Q) (hno : Comes W n (f false) i Q) :
    Comes W n (accepts text >>= f) i Q :=
  .bind (.spelledAs (fun _ ht hkind htext => hyes ⟨_, ht, hkind, htext⟩) hno)

theorem ifReads {text : String} {yes no : Match β}
    (hyes : W.Spells i text → Comes W n yes (i + 1) Q) (hno : Comes W n no i Q) :
    Comes W n (accepts text >>= fun found => if found = true then yes else no) i Q :=
  reads hyes hno

theorem unlessReads {text : String} {no yes : Match β} (hno : Comes W n no i Q)
    (hyes : W.Spells i text → Comes W n yes (i + 1) Q) :
    Comes W n (accepts text >>= fun found => if (!found) = true then no else yes) i Q :=
  reads hyes hno

theorem expects {text : String} {rest : Match (Option β)}
    (h : W.Spells i text → Comes W n rest (i + 1) (W.Ends S k)) :
    Comes W n (accepts text >>= fun found => if (!found) = true then pure none else rest) i
      (W.Ends S k) :=
  reads h trivial

theorem skips {text : String} (htext : isQuiet text = true) {f : Option Token → Match β}
    (h : ∀ found j, W.Closes S i j → Comes W n (f found) j Q) :
    Comes W n (spelled text >>= f) i Q := by
  refine .spelledAs (fun t ht hkind hspelled => ?_) (h none i (.refl i))
  have spells : W.Spells i text := ⟨t, ht, hkind, hspelled⟩
  exact h (some t) (i + 1) (spells.closes htext)

theorem passes {text : String} (htext : isQuiet text = true) {f : Bool → Match β}
    (h : ∀ found j, W.Closes S i j → Comes W n (f found) j Q) :
    Comes W n (accepts text >>= f) i Q :=
  .bind (skips htext fun found j hj => h found.isSome j hj)

theorem tries {m : Match (Option α)} {f : Option α → Match β} (hm : Comes W n m i (W.Rests S i))
    (hsome : ∀ a j, W.Closes S i j → Comes W n (f (some a)) j Q) (hnone : Comes W n (f none) i Q) :
    Comes W n (m >>= f) i Q := by
  refine .bind (hm.mono ?_)
  rintro (_ | a) j hfound
  · cases hfound
    exact hnone
  · exact hsome a j hfound

theorem needs {m : Match (Option α)} {f : Option α → Match (Option β)} {start : Nat}
    (hm : Comes W n m i (W.Ends S k)) (hfail : f none = .done none)
    (hsome : ∀ a j, W.Closes S k j → Comes W n (f (some a)) j (W.Ends S' start)) :
    Comes W n (m >>= f) i (W.Ends S' start) := by
  refine .bind (hm.mono ?_)
  rintro (_ | a) j hfound
  · rw [hfail]
    trivial
  · exact hsome a j hfound

/-- What ends may come behind what was opened and closed before. -/
theorem Finishes.since {m : Match (Option α)} (hm : Finishes W n S m i) (h : W.Closes S k i)
    (safe : S.Safe k) : Comes W n m i (W.Ends S k) := by
  refine (hm (h.safe safe)).mono ?_
  rintro (_ | a) j hfound
  · trivial
  · exact h.trans hfound

theorem finishes {m : Match (Option α)} (hm : Returns W n S m i) : Finishes W n S m i := by
  refine fun safe => (hm safe).mono ?_
  rintro (_ | a) j hfound
  · trivial
  · exact hfound

theorem Returns.since {m : Match (Option α)} (hm : Returns W n S m i) (h : W.Closes S k i)
    (safe : S.Safe k) : Comes W n m i (W.Ends S k) :=
  Finishes.since (finishes hm) h safe

/-- A matcher that returns in a scope does so in a narrower one. -/
theorem Returns.within {m : Match (Option α)} (hm : Returns W n S m i)
    (himp : S'.holds (W.openAt i) → S.holds (W.openAt i)) : Returns W n S' m i :=
  fun safe => (hm (safe.imp himp)).mono fun _ _ hfound => hfound.narrow fun _ => himp

theorem closes_of_settles {m : Match (Option α)} (hm : Comes W n m i (W.Rests S i)) :
    Comes W n m i fun _ j => W.Closes S i j :=
  hm.mono fun _ _ hfound => hfound.closes

theorem bracketed {m : Match (Option α)}
    (h : ∀ inner : W.Level, Returns W inner (W.hostRoom (inner + 1)) m i) :
    Settles W n (inBrackets m) i := by
  intro safe
  change (W.inward n).elim True _
  cases hinner : W.inward n with
  | none => trivial
  | some inner =>
    rw [TalliedWorld.inward_eq_some hinner] at safe ⊢
    exact h inner safe

/-! ### Combinations -/

theorem many_keeps {m : Match (Option α)} {holds : Nat → Prop} (h : holds i)
    (hm : ∀ j, holds j → Comes W n m j fun found k => found.isSome = true → holds k) :
    Comes W n (many m) i fun _ j => holds j := by
  refine .loop (fun _ j => holds j) h fun items j hj => .mark (.bind ?_)
  refine (hm j hj).mono ?_
  rintro (_ | item) k hk
  · exact .reset hj
  · refine .mark ?_
    split
    · exact hk rfl
    · exact hk rfl

theorem many_closes {m : Match (Option α)} (hm : ∀ j, Finishes W n S m j) (safe : S.Safe i) :
    Comes W n (many m) i fun _ j => W.Closes S i j := by
  refine many_keeps (.refl i) fun j hj => (hm j (hj.safe safe)).mono ?_
  rintro (_ | item) k hk
  · exact nofun
  · exact fun _ => hj.trans hk

theorem many1_ends {m : Match (Option α)} (hm : ∀ j, Finishes W n S m j) :
    Finishes W n S (many1 m) i := by
  refine fun safe => .bind ((many_closes hm safe).mono ?_)
  rintro (_ | ⟨item, items⟩) j hj
  · trivial
  · exact hj

theorem separated_settles {separator : String} {m : Match (Option α)}
    (hseparator : ∀ {j}, W.Spells j separator → W.Closes S j (j + 1))
    (hm : ∀ j, Returns W n S m j) : Returns W n S (separated separator m) i := by
  refine fun safe => tries (hm i safe) (fun first j hj => ?_) rfl
  refine .loop (fun _ k => W.Closes S i k) hj fun items k hk => .mark ?_
  refine unlessReads hk fun spells => ?_
  have hnext := hk.trans (hseparator spells)
  exact tries (hm (k + 1) (hnext.safe safe)) (fun item l hl => hnext.trans hl) (.reset hk)

theorem oneOf_spells {table : List (String × α)} :
    Comes W n (oneOf table) i fun found j =>
      found = none ∧ j = i ∨ found.isSome = true ∧ j = i + 1 ∧
        ∃ text ∈ table.map Prod.fst, W.Spells i text := by
  induction table with
  | nil => exact .inl ⟨rfl, rfl⟩
  | cons entry others induction =>
    refine ifReads (fun spells => .inr ⟨rfl, rfl, _, List.mem_cons_self, spells⟩) ?_
    refine induction.mono fun found j => Or.imp_right ?_
    rintro ⟨hfound, hj, text, htext, spells⟩
    exact ⟨hfound, hj, text, List.mem_cons_of_mem _ htext, spells⟩

theorem oneOf_settles {table : List (String × α)}
    (htable : ∀ text ∈ table.map Prod.fst, isQuiet text = true) :
    Comes W n (oneOf table) i (W.Rests S i) := by
  refine oneOf_spells.mono ?_
  rintro (_ | a) j (⟨hfound, rfl⟩ | ⟨hfound, rfl, text, htext, spells⟩)
  · exact rfl
  · cases hfound
  · cases hfound
  · exact spells.closes (htable text htext)

theorem diagnosed {reject : Match Unit} {rest : Unit → Match β}
    (hreject : ¬W.watched → Comes W n reject i fun _ j => j = i) (h : Comes W n (rest ()) i Q) :
    Comes W n (isDiagnosing >>= fun diagnosing =>
      if diagnosing = true then reject >>= rest else rest ()) i Q := by
  change Comes W n (if W.diagnosing = true then reject >>= rest else rest ()) i Q
  split
  case isTrue hdiagnosing =>
    have hunwatched : ¬W.watched := fun hwatched =>
      absurd (W.undiagnosed hwatched) (by simp [hdiagnosing])
    refine .bind ((hreject hunwatched).mono ?_)
    rintro _ _ rfl
    exact h
  case isFalse => exact h

/-- What only looks for the cause of a failure may call rules anywhere. -/
theorem inspect_back {inner : Match Unit} (hunwatched : ¬W.watched) :
    Comes W n (inspect inner) i fun _ j => j = i :=
  .mark (.bind ((LeadsIn.anyhow (fun _ _ _ hwatched => absurd hwatched hunwatched) inner).mono
    fun _ _ _ => rfl))

theorem node_settles {start : Nat} {form : ExprForm} (h : W.Closes S start i) :
    Comes W n (node start form) i (W.Rests S start) :=
  .spanSince h

theorem node_ends {start : Nat} {form : ExprForm} (h : W.Closes S k i) :
    Comes W n (node start form) i (W.Ends S k) :=
  .spanSince h

/-! ### Lists of expressions -/

theorem tupleOrSingle_settles {item : Match (Option Expr)} (hitem : ∀ j, Settles W n item j) :
    Settles W n (tupleOrSingle item) i := by
  refine fun safe => .mark (tries (hitem i safe) (fun first j hj => .bind ?_) rfl)
  refine (LeadsIn.loop (Q := fun _ k => W.Closes (W.hostRoom n) i k)
    (fun _ k => W.Closes (W.hostRoom n) i k) hj ?_).mono ?_
  · rintro ⟨items, isTuple⟩ k hk
    refine unlessReads hk fun spells => ?_
    have hcomma : W.Closes (W.hostRoom n) i (k + 1) := hk.trans (spells.closes (by decide))
    exact tries (hitem (k + 1) (hcomma.safe safe)) (fun value l hl => hcomma.trans hl) hcomma
  · rintro ⟨items, isTuple⟩ k hk
    cases isTuple with
    | true => exact node_settles hk
    | false => exact hk

theorem spreadOr_settles {plain : Match (Option Expr)} (hplain : Settles W n plain i) :
    Settles W n (spreadOr plain) i := by
  refine fun safe => .mark (ifReads (fun spells => ?_) (hplain safe))
  have hstar : W.Closes (W.hostRoom n) i (i + 1) := spells.closes (by decide)
  exact tries (.called (hstar.safe safe)) (fun _ _ hj => node_settles (hstar.trans hj))
    giveUp_settles

theorem bindingOrSpread_settles : Settles W n bindingOrSpread i :=
  spreadOr_settles (.called ·)

theorem spreadTuple_settles : Settles W n spreadTuple i :=
  tupleOrSingle_settles fun _ => (.called ·)

theorem bindingTuple_settles : Settles W n bindingTuple i :=
  tupleOrSingle_settles fun _ => bindingOrSpread_settles

theorem yielded_settles : Settles W n yielded i := by
  refine fun safe => .mark (unlessReads rfl fun spells => ?_)
  have hyield : W.Closes (W.hostRoom n) i (i + 1) := spells.closes (by decide)
  have hvalue := spreadTuple_settles (hyield.safe safe)
  refine ifReads (fun spells => ?_) (.bind ((closes_of_settles hvalue).mono ?_))
  · have hfrom : W.Closes (W.hostRoom n) i (i + 2) := hyield.trans (spells.closes (by decide))
    exact tries (.called (hfrom.safe safe)) (fun _ _ hj => node_settles (hfrom.trans hj))
      giveUp_settles
  · exact fun _ _ hj => node_settles (hyield.trans hj)

theorem yieldOrTuple_settles : Settles W n yieldOrTuple i :=
  fun safe => tries (yielded_settles safe) (fun _ _ hj => hj) (spreadTuple_settles safe)

/-! ### Targets -/

theorem restricted_settles {admits : ExprForm → Bool} : Settles W n (restricted admits) i := by
  refine attempt_settles fun safe => needs (finishes (.called ·) safe) rfl fun target j hj => ?_
  dsimp only
  split
  · exact hj
  · trivial

theorem targetItemRule_settles : Settles W n targetItemRule i := by
  refine fun safe => .mark (ifReads (fun spells => ?_) (restricted_settles safe))
  have hstar : W.Closes (W.hostRoom n) i (i + 1) := spells.closes (by decide)
  exact tries (.called (hstar.safe safe)) (fun _ _ hj => node_settles (hstar.trans hj))
    giveUp_settles

theorem targetTuple_settles : Settles W n targetTuple i :=
  tupleOrSingle_settles fun _ => (.called ·)

/-! ### Comprehensions -/

theorem filterClause_ends : Finishes W n (W.hostRoom n) filterClause i :=
  fun safe => expects fun spells =>
    Returns.since (.called ·) (spells.closes (by decide)) safe

theorem forClause_settles : Settles W n forClause i := by
  refine attempt_settles fun safe => ?_
  refine passes (by decide) fun isAsync j (hj : W.Closes (W.hostRoom n) i j) => ?_
  refine expects fun spells => ?_
  have hfor := hj.trans (spells.closes (by decide))
  refine needs (Returns.since targetTuple_settles hfor safe) rfl fun target k hk => ?_
  refine expects fun spells => ?_
  have hin := hk.trans (spells.closes (by decide))
  refine needs (Returns.since (.called ·) hin safe) rfl fun iter l hl => .bind ?_
  exact (many_closes (fun _ => filterClause_ends) (hl.safe safe)).mono fun ifs m hm => hl.trans hm

theorem forClauses_ends : Finishes W n (W.hostRoom n) forClauses i :=
  many1_ends fun _ => finishes forClause_settles

theorem comprehension_ends {closer : String} (hcloser : (Lexer.closer? closer).isSome = true)
    (enters : W.Enters S (W.hostRoom n) k) (h : W.Closes (W.hostRoom n) (k + 1) i)
    (safe : S.Safe k) : Comes W n (comprehension closer) i (W.Ends S k) := by
  have hinside := enters.safe safe
  refine needs (Returns.since (.called ·) h hinside) rfl fun elt j hj => ?_
  refine needs (forClauses_ends.since hj hinside) rfl fun generators l hl => ?_
  exact expects fun spells => .enclosed enters hl (spells.shuts hcloser)

theorem generator_settles : Returns W n (W.hostRoom (n + 1)) generator i := by
  refine attempt_settles fun safe => expects fun spells => ?_
  refine needs (comprehension_ends (by decide) (spells.enters (by decide)) (.refl _) safe) rfl ?_
  exact fun _ _ hj => node_ends hj

/-! ### Groups and tuples -/

theorem group_ends (enters : W.Enters (W.hostRoom (n + 1)) (W.hostRoom n) i)
    (safe : (W.hostRoom (n + 1)).Safe i) : Comes W n (do
    reset i
    if let some value ← generator then return some value
    reset (i + 1)
    let some inner ← bindingTuple | return none
    if !(← accepts ")") then return none
    match inner.form with
    | .tuple items => node i (.tuple items)
    | _ => return some inner) j (W.Ends (W.hostRoom (n + 1)) i) := by
  refine .reset (tries (generator_settles safe) (fun value k hk => hk) (.reset ?_))
  refine needs (finishes bindingTuple_settles (enters.safe safe)) rfl fun inner k hk => ?_
  refine expects fun spells => ?_
  have hclosed : W.Closes (W.hostRoom (n + 1)) i (k + 1) :=
    .enclosed enters hk (spells.shuts (by decide))
  split
  · exact node_ends hclosed
  · exact hclosed

theorem parenthesized_settles : Returns W n (W.hostRoom (n + 1)) parenthesized i := by
  refine attempt_settles fun safe => expects fun spells => ?_
  have enters : W.Enters (W.hostRoom (n + 1)) (W.hostRoom n) i := spells.enters (by decide)
  have hinside := enters.safe safe
  refine ifReads (fun spells => ?_) (.mark (tries (yielded_settles hinside) ?_
    (group_ends enters safe)))
  · exact node_ends (.enclosed enters (.refl _) (spells.shuts (by decide)))
  · refine fun value j hj => ifReads (fun spells => ?_) (group_ends enters safe)
    exact .enclosed enters hj (spells.shuts (by decide))

/-! ### Lists, sets and dictionaries -/

theorem bracketItems_closes (safe : (W.hostRoom n).Safe i) :
    Comes W n bracketItems i fun _ j => W.Closes (W.hostRoom n) i j := by
  have hitems : Settles W n (separated "," bindingOrSpread) i :=
    separated_settles (·.closes (by decide)) fun _ => bindingOrSpread_settles
  refine tries (hitems safe) (fun items j hj => ?_) (.refl i)
  exact passes (by decide) fun _ k hk => hj.trans hk

theorem squareBracketed_settles : Returns W n (W.hostRoom (n + 1)) squareBracketed i := by
  refine attempt_settles fun safe => expects fun spells => .mark (.bind ?_)
  have enters : W.Enters (W.hostRoom (n + 1)) (W.hostRoom n) i := spells.enters (by decide)
  refine (comprehension_ends (by decide) enters (.refl _) safe).mono ?_
  rintro (_ | ⟨elt, generators⟩) j hj
  · refine .reset (.bind ((bracketItems_closes (enters.safe safe)).mono fun items k hk => ?_))
    exact expects fun spells => node_ends (.enclosed enters hk (spells.shuts (by decide)))
  · exact node_ends hj

theorem entry_settles : Settles W n entry i := by
  refine attempt_settles fun safe => needs (finishes (.called ·) safe) rfl fun key j hj => ?_
  refine expects fun spells => ?_
  have hcolon := hj.trans (spells.closes (by decide))
  exact needs (Returns.since (.called ·) hcolon safe) rfl fun _ _ hk => hk

theorem entryOrSpread_settles : Settles W n entryOrSpread i := by
  refine fun safe => .mark (ifReads (fun spells => ?_)
    (tries (entry_settles safe) (fun _ _ hj => hj) rfl))
  have hstars : W.Closes (W.hostRoom n) i (i + 1) := spells.closes (by decide)
  exact tries (.called (hstars.safe safe)) (fun _ _ hj => hstars.trans hj) giveUp_settles

variable (enters : W.Enters S (W.hostRoom n) k) (h : W.Closes (W.hostRoom n) (k + 1) i)
  (safe : S.Safe k)

include enters h safe in
theorem dictComprehension_ends : Comes W n dictComprehension i (W.Ends S k) := by
  have hinside := enters.safe safe
  refine needs (Returns.since entry_settles h hinside) rfl fun pair j hj => ?_
  refine needs (forClauses_ends.since hj hinside) rfl fun generators l hl => ?_
  exact expects fun spells => .enclosed enters hl (spells.shuts (by decide))

include enters h safe in
theorem dictEntries_ends : Comes W n dictEntries i (W.Ends S k) := by
  have hentries : Settles W n (separated "," entryOrSpread) i :=
    separated_settles (·.closes (by decide)) fun _ => entryOrSpread_settles
  refine needs (hentries.since h (enters.safe safe)) rfl fun pairs j hj => ?_
  refine passes (by decide) fun _ l (hl : W.Closes (W.hostRoom n) j l) => expects fun spells => ?_
  exact .enclosed enters (hj.trans hl) (spells.shuts (by decide))

theorem braced_settles : Returns W n (W.hostRoom (n + 1)) braced i := by
  refine attempt_settles fun safe => expects fun spells => ?_
  have enters : W.Enters (W.hostRoom (n + 1)) (W.hostRoom n) i := spells.enters (by decide)
  refine ifReads (fun spells => ?_) (.mark (.bind ?_))
  · exact node_ends (.enclosed enters (.refl _) (spells.shuts (by decide)))
  -- what does not fit goes back to the token behind the brace, and the next form is tried there
  refine (dictComprehension_ends enters (.refl _) safe).mono ?_
  rintro (_ | ⟨⟨key, value⟩, generators⟩) j hj
  case some => exact node_ends hj
  refine .reset (.bind ((comprehension_ends (by decide) enters (.refl _) safe).mono ?_))
  rintro (_ | ⟨elt, generators⟩) j hj
  case some => exact node_ends hj
  refine .reset (.bind ((dictEntries_ends enters (.refl _) safe).mono ?_))
  rintro (_ | pairs) j hj
  case some => exact node_ends hj
  have hitems := bracketItems_closes (enters.safe safe)
  refine .reset (diagnosed inspect_back (.bind (hitems.mono fun items k hk => ?_)))
  split
  · trivial
  · exact expects fun spells => node_ends (.enclosed enters hk (spells.shuts (by decide)))

end Language

end ShellSyntax
