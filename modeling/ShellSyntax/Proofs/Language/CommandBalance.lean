import ShellSyntax.Language.Grammar
import ShellSyntax.Proofs.Language.ExpressionBalance

/-!
Commands close what they open. The words of one count the plain brackets among them; a command ends
where none of these is open, or at a token that is no piece of an argument. Such a token closes
nothing, so what goes on behind it is a sign between commands.
-/

namespace ShellSyntax

open ShellSyntax.Language

/-! ### Words -/

theorem Opening.realm_plain {openers : List Opener}
    (hplain : ∀ opener ∈ openers, opener.isPlain = true) (outer : List Opening) :
    realm (openers.map bracket ++ outer) = realm outer := by
  induction openers with
  | nil => rfl
  | cons opener openers induction =>
    obtain ⟨hopener, hothers⟩ := List.forall_mem_cons.mp hplain
    rw [← induction hothers]
    cases opener with
    | paren | square | brace => rfl
    | _ => cases hopener

namespace TalliedWorld

variable {W : TalliedWorld} {i j k depth levels : Nat}

/-- There is room directly in the brackets of a command. -/
def wordRoom (W : TalliedWorld) (levels : Nat) : W.Scope :=
  (W.commandRoom levels).among fun open_ =>
    ∃ opener outer, open_ = .bracket opener :: outer ∧ opener.isPlain = false

/-- Brackets in the text of a command take no room. -/
theorem enters_inCommand {opener : Opener} (hhost : opener.inside .command = .host)
    (hopen : W.openAt (i + 1) = .bracket opener :: W.openAt i) :
    W.Enters (W.commandRoom levels) (W.hostRoom levels) i := by
  refine ⟨⟨_, hopen⟩, fun hroom => ?_⟩
  refine ⟨room_uncounted (W.inCommand opener _ hroom.2) hopen hroom.1, ?_⟩
  rw [hopen]
  exact (congrArg opener.inside hroom.2).trans hhost

theorem weigh_plain {openers : List Opener} (hplain : ∀ opener ∈ openers, opener.isPlain = true)
    {outer : List Opening} (hrealm : Opening.realm outer = .command) :
    W.weigh (openers.map Opening.bracket ++ outer) = W.weigh outer := by
  induction openers with
  | nil => rfl
  | cons opener openers induction =>
    obtain ⟨_, hothers⟩ := List.forall_mem_cons.mp hplain
    rw [← induction hothers]
    exact Opening.weigh_uncounted
      (W.inCommand opener _ ((Opening.realm_plain hothers outer).trans hrealm))

/-- From `i` to `j` nothing goes wrong, but `depth` plain brackets are still open. -/
structure Pending (W : TalliedWorld) (i depth j : Nat) : Prop
    extends W.KeepsOpen i j, W.Calm i j where
  plain : ∃ openers : List Opener, openers.length = depth ∧
    (∀ opener ∈ openers, opener.isPlain = true) ∧
    W.openAt j = openers.map Opening.bracket ++ W.openAt i

/-- The same among the words of a command, unless a sign strays. -/
structure Leaves (W : TalliedWorld) (levels i depth j : Nat) : Prop where
  le : i ≤ j
  grows : (W.openAt i).length + depth ≤ (W.openAt j).length
  settled : ¬W.Strayed i → (W.wordRoom levels).holds (W.openAt i) → W.Pending i depth j ∨
    (∃ k, i ≤ k ∧ k < j ∧ W.Strays k) ∧ (W.openAt i).length + depth < (W.openAt j).length

namespace Pending

theorem of_clean (h : W.Clean i j) : W.Pending i 0 j :=
  ⟨h.toKeepsOpen, h.toCalm, [], rfl, nofun, h.settled⟩

theorem clean (h : W.Pending i 0 j) : W.Clean i j := by
  obtain ⟨openers, hlength, _, hopen⟩ := h.plain
  cases List.length_eq_zero_iff.mp hlength
  exact ⟨⟨h.toKeepsOpen, hopen⟩, h.toCalm⟩

theorem length (h : W.Pending i depth j) : (W.openAt j).length = (W.openAt i).length + depth := by
  obtain ⟨openers, hlength, _, hopen⟩ := h.plain
  rw [hopen, List.length_append, List.length_map, hlength, Nat.add_comm]

theorem room (h : W.Pending i depth j) (hroom : (W.commandRoom levels).holds (W.openAt i)) :
    (W.commandRoom levels).holds (W.openAt j) := by
  obtain ⟨openers, _, hall, hopen⟩ := h.plain
  obtain ⟨hweigh, hrealm⟩ := hroom
  rw [hopen]
  refine ⟨?_, (Opening.realm_plain hall _).trans hrealm⟩
  simp only [TalliedWorld.room, weigh_plain hall hrealm] at hweigh ⊢
  exact hweigh

/-- What is balanced behind the brackets that are still open leaves them open. -/
theorem trans (h : W.Pending i depth j) (h' : W.Clean j k) : W.Pending i depth k :=
  ⟨h.toKeepsOpen.trans h'.toKeepsOpen, h.toCalm.trans h'.toCalm, h'.settled ▸ h.plain⟩

/-- What is balanced in front of the brackets may be counted to them. -/
theorem before (h : W.Clean i j) (h' : W.Pending j depth k) : W.Pending i depth k :=
  ⟨h.toKeepsOpen.trans h'.toKeepsOpen, h.toCalm.trans h'.toCalm, h.settled ▸ h'.plain⟩

theorem step {depth' : Nat} (h : W.Pending i depth j)
    (hrealm : Opening.realm (W.openAt i) = .command) {openers : List Opener}
    (hlength : openers.length = depth')
    (hplain : ∀ opener ∈ openers, opener.isPlain = true) (hquiet : ¬W.Strays j)
    (hopen : W.openAt (j + 1) = openers.map Opening.bracket ++ W.openAt i) :
    W.Pending i depth' (j + 1) := by
  have hmost : W.weigh (W.openAt (j + 1)) ≤ W.most := by
    rw [hopen, weigh_plain hplain hrealm]
    exact h.most i (Nat.le_refl i) h.le
  exact ⟨h.toKeepsOpen.succ (hopen ▸ List.suffix_append _ _), h.toCalm.succ hmost hquiet,
    openers, hlength, hplain, hopen⟩

end Pending

/-- How a piece of an argument changes the count of open brackets. -/
inductive Counts (W : TalliedWorld) (levels : Nat) : Nat → Nat → Nat → Nat → Prop
  | whole {depth i j : Nat} (h : W.Closes (W.commandRoom levels) i j) :
      Counts W levels depth depth i j
  | opens {depth i : Nat} {opener : Opener} (hplain : opener.isPlain = true)
      (hopen : W.openAt (i + 1) = .bracket opener :: W.openAt i) :
      Counts W levels depth (depth + 1) i (i + 1)
  | shuts {depth i : Nat} (h : W.Shuts i) : Counts W levels (depth + 1) depth i (i + 1)

theorem Counts.le {depth' : Nat} (h : W.Counts levels depth depth' i j) : i ≤ j := by
  cases h with
  | whole hcloses => exact hcloses.le
  | opens => exact Nat.le_succ i
  | shuts => exact Nat.le_succ i

namespace Leaves

theorem refl (i : Nat) : W.Leaves levels i 0 i :=
  ⟨Nat.le_refl i, Nat.le_refl _, fun _ hroom => .inl (.of_clean (.refl hroom))⟩

theorem closes (h : W.Leaves levels i 0 j) : W.Closes (W.wordRoom levels) i j :=
  ⟨h.le, h.grows, fun hclean hroom => (h.settled hclean hroom).imp_left Pending.clean⟩

theorem safe (h : W.Leaves levels i depth j) (safe : (W.wordRoom levels).Safe i) :
    (W.commandRoom levels).Safe j := by
  intro hwatched
  rcases safe hwatched with hstrayed | hroom
  · exact .inl (hstrayed.later h.le)
  by_cases hstrayed : W.Strayed i
  · exact .inl (hstrayed.later h.le)
  rcases h.settled hstrayed hroom with hpending | ⟨⟨k, _, hkj, hstrays⟩, _⟩
  · exact .inr (hpending.room hroom.1)
  · exact .inl ⟨k, W.whole hwatched ▸ Nat.zero_le k, hkj, hstrays⟩

theorem whole (h : W.Leaves levels i depth j) (hcloses : W.Closes (W.commandRoom levels) j k) :
    W.Leaves levels i depth k := by
  have hle := hcloses.le
  have hgrows := hcloses.grows
  refine ⟨Nat.le_trans h.le hle, Nat.le_trans h.grows hgrows, fun hclean hroom => ?_⟩
  rcases h.settled hclean hroom with hpending | ⟨⟨l, hil, hlj, hstrays⟩, hmore⟩
  · rcases hcloses.settled (hpending.not_strayed hclean) (hpending.room hroom.1) with
      hlater | ⟨⟨l, hjl, hlk, hstrays⟩, hmore⟩
    · exact .inl (hpending.trans hlater)
    · exact .inr ⟨⟨l, Nat.le_trans h.le hjl, hlk, hstrays⟩, hpending.length ▸ hmore⟩
  · exact .inr ⟨⟨l, hil, Nat.lt_of_lt_of_le hlj hle, hstrays⟩, Nat.lt_of_lt_of_le hmore hgrows⟩

theorem opens (h : W.Leaves levels i depth j) {opener : Opener} (hplain : opener.isPlain = true)
    (hopen : W.openAt (j + 1) = .bracket opener :: W.openAt j) :
    W.Leaves levels i (depth + 1) (j + 1) := by
  have hlength : (W.openAt (j + 1)).length = (W.openAt j).length + 1 := congrArg List.length hopen
  have hopens : W.Opens j := ⟨_, hopen⟩
  have hgrows := h.grows
  refine ⟨Nat.le_succ_of_le h.le, by omega, fun hclean hroom => ?_⟩
  rcases h.settled hclean hroom with hpending | ⟨⟨l, hil, hlj, hstrays⟩, hmore⟩
  · obtain ⟨openers, hdepth, hall, hopenAt⟩ := hpending.plain
    have hmore : (opener :: openers).length = depth + 1 := by rw [List.length_cons, hdepth]
    refine .inl (hpending.step hroom.1.2 hmore (List.forall_mem_cons.mpr ⟨hplain, hall⟩)
      hopens.not_strays ?_)
    rw [hopen, hopenAt]
    rfl
  · exact .inr ⟨⟨l, hil, Nat.lt_succ_of_lt hlj, hstrays⟩, by omega⟩

theorem shuts (h : W.Leaves levels i (depth + 1) j) (hshuts : W.Shuts j) :
    W.Leaves levels i depth (j + 1) := by
  obtain ⟨opening, hclosed⟩ := id hshuts
  have hlength : (W.openAt j).length = (W.openAt (j + 1)).length + 1 := congrArg List.length hclosed
  have hgrows := h.grows
  refine ⟨Nat.le_succ_of_le h.le, by omega, fun hclean hroom => ?_⟩
  rcases h.settled hclean hroom with hpending | ⟨⟨l, hil, hlj, hstrays⟩, hmore⟩
  · obtain ⟨openers, hdepth, hall, hopenAt⟩ := hpending.plain
    cases openers with
    | nil => cases hdepth
    | cons opener openers =>
      rw [List.map_cons, List.cons_append] at hopenAt
      refine .inl (hpending.step hroom.1.2 (Nat.succ.inj hdepth) (List.forall_mem_cons.mp hall).2
        hshuts.not_strays ?_)
      exact (List.cons.inj (hclosed.symm.trans hopenAt)).2
  · exact .inr ⟨⟨l, hil, Nat.lt_succ_of_lt hlj, hstrays⟩, by omega⟩

theorem piece {depth' : Nat} (h : W.Leaves levels i depth j)
    (counts : W.Counts levels depth depth' j k) : W.Leaves levels i depth' k := by
  cases counts with
  | whole hcloses => exact h.whole hcloses
  | opens hplain hopen => exact h.opens hplain hopen
  | shuts hshuts => exact h.shuts hshuts

end Leaves

/-- The words stopped in a plain bracket, at a token that neither is a word nor closes anything. -/
structure Stuck (W : TalliedWorld) (levels i j : Nat) : Prop where
  leaves : ∃ depth, W.Leaves levels i (depth + 1) j
  sign : ∀ t, W.token j = .ok t →
    t.kind ≠ .name ∧ t.kind ≠ .word ∧ (t.kind = .op → Lexer.closer? t.text = none)

/-- Where a command that started at `i` ends. -/
def Breaks (W : TalliedWorld) (levels i j : Nat) : Prop :=
  W.Closes (W.wordRoom levels) i j ∨ W.Stuck levels i j

namespace Closes

/-- What came before the words of a command may be counted to them. -/
theorem leaves (h : W.Closes (W.wordRoom levels) i j) (h' : W.Leaves levels j depth k) :
    W.Leaves levels i depth k := by
  have hle := h'.le
  have hgrows := h.grows
  have hgrows' := h'.grows
  refine ⟨Nat.le_trans h.le hle, by omega, fun hclean hroom => ?_⟩
  rcases h.settled hclean hroom with hfirst | ⟨⟨l, hil, hlj, hstrays⟩, hmore⟩
  · rcases h'.settled (hfirst.not_strayed hclean) (hfirst.settled ▸ hroom) with
      hpending | ⟨⟨l, hjl, hlk, hstrays⟩, hmore⟩
    · exact .inl (.before hfirst hpending)
    · exact .inr ⟨⟨l, Nat.le_trans h.le hjl, hlk, hstrays⟩, hfirst.settled ▸ hmore⟩
  · exact .inr ⟨⟨l, hil, Nat.lt_of_lt_of_le hlj hle, hstrays⟩, by omega⟩

theorem breaks (h : W.Closes (W.wordRoom levels) i j) (h' : W.Breaks levels j k) :
    W.Breaks levels i k := by
  rcases h' with hcloses | hstuck
  · exact .inl (h.trans hcloses)
  · obtain ⟨depth, hleaves⟩ := hstuck.leaves
    exact .inr ⟨⟨depth, h.leaves hleaves⟩, hstuck.sign⟩

end Closes

namespace Breaks

variable {text : String}

/-- A sign directly in the brackets of a command does not stray. -/
theorem sign_closes (hopen : W.openAt (j + 1) = W.openAt j) :
    W.Closes (W.wordRoom levels) j (j + 1) := by
  refine .step hopen ?_
  rintro ⟨_, opener, outer, hword, hother⟩ ⟨_, opener', outer', hplain, hopener, _⟩
  cases hword.symm.trans hplain
  cases hother.symm.trans hopener

/-- Behind a sign between commands nothing is wrong that has not been wrong before, unless the sign
strays. -/
theorem sign (h : W.Breaks levels i j) (htext : text = "&" ∨ text ∈ links.map Prod.fst)
    (spells : W.Spells j text) : W.Closes (W.wordRoom levels) i (j + 1) := by
  have hsigns : ∀ text ∈ "&" :: links.map Prod.fst, isNoBracket text = true := by decide
  have hopen := spells.openAt_same (hsigns text (List.mem_cons.mpr htext))
  rcases h with hcloses | hstuck
  · exact hcloses.trans (sign_closes hopen)
  -- the bracket that is still open is one of the command's own, so the sign strays in it
  obtain ⟨t, ht, hkind, rfl⟩ := spells
  obtain ⟨hname, hword, _⟩ := hstuck.sign t ht
  obtain ⟨depth, hleaves⟩ := hstuck.leaves
  have hgrows := hleaves.grows
  have hlength := congrArg List.length hopen
  refine ⟨Nat.le_succ_of_le hleaves.le, by omega, fun hclean hroom => .inr ⟨?_, by omega⟩⟩
  rcases hleaves.settled hclean hroom with hpending | ⟨⟨l, hil, hlj, hstrays⟩, _⟩
  · obtain ⟨openers, hlength, hall, hopenAt⟩ := hpending.plain
    have hop : t.kind = .op := hkind.resolve_right (by simp [hname, hword])
    cases openers with
    | nil => cases hlength
    | cons opener openers =>
      obtain ⟨hopener, hothers⟩ := List.forall_mem_cons.mp hall
      refine ⟨j, hpending.le, Nat.lt_succ_self j, ⟨t, ht, hop, htext⟩, opener, _, hopenAt,
        hopener, ?_⟩
      exact (Opening.realm_plain hothers _).trans hroom.1.2
  · exact ⟨l, hil, Nat.lt_succ_of_lt hlj, hstrays⟩

theorem closer (h : W.Breaks levels i j) (hcloser : (Lexer.closer? text).isSome = true)
    (spells : W.Spells j text) : W.Closes (W.wordRoom levels) i j := by
  rcases h with hcloses | hstuck
  · exact hcloses
  · obtain ⟨t, ht, hkind, rfl⟩ := spells
    obtain ⟨hname, hword, hnone⟩ := hstuck.sign t ht
    have hop : t.kind = .op := hkind.resolve_right (by simp [hname, hword])
    rw [hnone hop] at hcloser
    cases hcloser

end Breaks

end TalliedWorld

/-! ### Pieces -/

namespace Language

open Matcher

variable {W : TalliedWorld} {n : W.Level} {i j k depth : Nat} {token : Token}

/-- A token that is a piece of an argument whatever comes behind it. -/
def IsPiece (token : Token) (depth : Nat) : Prop :=
  token.kind = .name ∨ token.kind = .word ∨
    token.kind = .op ∧ (Lexer.closer? token.text).isSome = true ∧ 0 < depth

/-- A piece that starts with `token` counts brackets as it should, and none is missed. -/
def Counted (W : TalliedWorld) (levels : Nat) (token : Token) (depth i : Nat) :
    Option (CommandArg × Nat) → Nat → Prop
  | some (_, depth'), j => W.Counts levels depth depth' i j
  | none, _ => ¬IsPiece token depth

theorem wordArg_counted {depth' : Nat} (h : W.Counts n depth depth' i (i + 1)) :
    Comes W n (do return (← wordArg token).map fun arg => (arg, depth')) i
      (Counted W n token depth i) :=
  .next fun _ _ => h

theorem whole_counted {m : Match (Option CommandArg)}
    (hm : Comes W n m i (W.Ends (W.commandRoom n) i)) (hother : ¬IsPiece token depth) :
    Comes W n (do return (← m).map fun arg => (arg, depth)) i (Counted W n token depth i) := by
  refine .bind (hm.mono ?_)
  rintro (_ | arg) j hends
  · exact hother
  · exact .whole hends

theorem hostArg_ends (ht : W.token i = .ok token) (hop : token.kind = .op)
    (htext : token.text = "@(") : Finishes W n (W.commandRoom n) hostArg i := by
  have spells : W.Spells i "@(" := ⟨token, ht, .inl hop, htext⟩
  have enters : W.Enters (W.commandRoom n) (W.hostRoom n) i :=
    TalliedWorld.enters_inCommand (show Opener.atParen.inside .command = .host from rfl)
      (spells.openAt (by decide))
  refine finishes (attempt_settles fun safe => .next fun _ _ => ?_)
  refine needs (finishes spreadTuple_settles (enters.safe safe)) rfl fun value j hj => ?_
  exact expects fun closer => .enclosed enters hj (closer.shuts (by decide))

theorem rawArg_ends (ht : W.token i = .ok token) (hop : token.kind = .op)
    (htext : token.text = "!") : Finishes W n (W.commandRoom n) rawArg i := by
  have spells : W.Spells i "!" := ⟨token, ht, .inl hop, htext⟩
  refine finishes (attempt_settles fun _ => .next fun _ _ => ?_)
  refine .ofKind (fun raw hraw hkind => ?_) trivial
  exact (spells.closes (by decide)).trans (closes_ofKind hraw (by simp [hkind]))

theorem envArg_ends : Finishes W n (W.commandRoom n) envArg i := by
  have hvariable : Returns W n (W.commandRoom n) variableExpr i :=
    variableExpr_rests fun spells =>
      TalliedWorld.enters_inCommand (show Opener.dollarBrace.inside .command = .host from rfl)
        (spells.openAt (by decide))
  refine fun safe => .bind ((finishes hvariable safe).mono ?_)
  rintro (_ | value) j hends
  · trivial
  rw [Option.map_some]
  generalize value.form = form
  split
  · exact hends
  · exact hends
  · trivial

theorem commandArg_ends : Finishes W n (W.commandRoom n) commandArg i := by
  have hcommand : Returns W n (W.commandRoom n) commandExpr i :=
    Returns.within commandExpr_settles TalliedWorld.captureRoom_of_command
  refine fun safe => .bind ((finishes hcommand safe).mono ?_)
  rintro (_ | value) j hends
  · trivial
  rw [Option.map_some]
  generalize value.form = form
  split
  · exact hends
  · trivial

theorem searchArg_ends : Finishes W n (W.commandRoom n) searchArg i := by
  refine fun safe => .bind ((finishes pathSearch_settles safe).mono ?_)
  rintro (_ | value) j hends
  · trivial
  rw [Option.map_some]
  generalize value.form = form
  split
  · exact hends
  · trivial

theorem not_isPiece (hop : token.kind = .op) (hcloser : Lexer.closer? token.text = none) :
    ¬IsPiece token depth := by
  simp [IsPiece, hop, hcloser]

theorem plainOpener {text : String} (h : ["(", "[", "\x7b"].contains text = true) :
    ∃ opener, Opener.ofSpelling? text = some opener ∧ opener.isPlain = true := by
  simp only [List.contains_iff_mem, List.mem_cons, List.not_mem_nil, or_false] at h
  rcases h with rfl | rfl | rfl
  · exact ⟨.paren, by decide⟩
  · exact ⟨.square, by decide⟩
  · exact ⟨.brace, by decide⟩

theorem closer?_isSome {text : String} :
    (Lexer.closer? text).isSome = [")", "]", "\x7d"].contains text := by
  unfold Lexer.closer?
  split
  · rfl
  · rfl
  · rfl
  case h_4 h1 h2 h3 => simpa using ⟨h1, h2, h3⟩

theorem opener_of_ofOpener? {text : String} (h : (CaptureMode.ofOpener? text).isSome = true) :
    ∃ capture : CaptureMode, text = capture.opener := by
  obtain ⟨capture, hfound⟩ := Option.isSome_iff_exists.mp h
  unfold CaptureMode.ofOpener? at hfound
  exact ⟨capture, (beq_iff_eq.mp (List.find?_some hfound :)).symm⟩

theorem operatorPiece_counted (ht : W.token i = .ok token) (hop : token.kind = .op)
    (safe : (W.commandRoom n).Safe i) :
    Comes W n (operatorPiece token depth) i (Counted W n token depth i) := by
  have spells : W.Spells i token.text := ⟨token, ht, .inl hop, rfl⟩
  have noPiece (hcloser : Lexer.closer? token.text = none) : ¬IsPiece token depth :=
    not_isPiece hop hcloser
  unfold operatorPiece
  dsimp only
  split
  case isTrue htext =>
    refine whole_counted (envArg_ends safe) (noPiece ?_)
    simp only [Bool.or_eq_true, beq_iff_eq] at htext
    rcases htext with htext | htext <;> rw [htext] <;> decide
  split
  case isTrue htext =>
    refine whole_counted (hostArg_ends ht hop (beq_iff_eq.mp htext) safe) (noPiece ?_)
    rw [beq_iff_eq.mp htext]
    decide
  split
  case isTrue htext =>
    refine whole_counted (commandArg_ends safe) (noPiece ?_)
    obtain ⟨capture, hcapture⟩ := opener_of_ofOpener? htext
    rw [hcapture]
    cases capture <;> decide
  split
  case isTrue htext =>
    refine whole_counted (rawArg_ends ht hop (beq_iff_eq.mp htext) safe) (noPiece ?_)
    rw [beq_iff_eq.mp htext]
    decide
  split
  case isTrue htext =>
    refine wordArg_counted (.whole (spells.closes ?_))
    rw [beq_iff_eq.mp htext]
    decide
  split
  case isTrue htext =>
    have hsigns : ∀ text ∈ redirections, isQuiet text = true := by decide
    exact .next fun _ _ => .whole (spells.closes (hsigns _ (List.contains_iff_mem.mp htext)))
  split
  case isTrue htext =>
    obtain ⟨opener, hopener, hplain⟩ := plainOpener htext
    exact wordArg_counted (.opens hplain (NestedWorld.openAt_opener ht hop hopener))
  split
  case isTrue htext =>
    rw [Bool.and_eq_true, decide_eq_true_eq, ← closer?_isSome] at htext
    obtain ⟨outer, rfl⟩ : ∃ outer, depth = outer + 1 := Nat.exists_eq_add_one.mpr htext.2
    exact wordArg_counted (.shuts (spells.shuts htext.1))
  case isFalse htext =>
    rw [← closer?_isSome] at htext
    refine fun hpiece => htext ?_
    rcases hpiece with hkind | hkind | ⟨_, hcloser, hdepth⟩
    · simp [hop] at hkind
    · simp [hop] at hkind
    · simp [hcloser, hdepth]

theorem piece_counted (ht : W.token i = .ok token) (safe : (W.commandRoom n).Safe i) :
    Comes W n (piece token depth) i (Counted W n token depth i) := by
  have whole (h : token.kind ≠ .op ∧ token.kind ≠ .fstringStart ∧ token.kind ≠ .fstringEnd) :
      W.Counts n depth depth i (i + 1) :=
    .whole (closes_ofKind ht h)
  unfold piece
  split
  case h_1 hkind | h_2 hkind | h_3 hkind => exact wordArg_counted (whole (by simp [hkind]))
  case h_4 hkind => exact .next fun _ _ => whole (by simp [hkind])
  case h_5 hkind =>
    have hrun : Returns W n (W.commandRoom n) stringRun i :=
      Returns.within (S := W.room n) (.called ·) And.left
    refine .bind ((finishes hrun safe).mono ?_)
    rintro (_ | value) j hends
    · exact (by simp [IsPiece, hkind] : ¬IsPiece token depth)
    · exact .whole hends
  case h_6 hkind => exact whole_counted (searchArg_ends safe) (by simp [IsPiece, hkind])
  case h_7 hkind => exact operatorPiece_counted ht hkind safe
  case h_8 hword hname hnumber hstring hstart hsearch hop =>
    exact (by simp_all [IsPiece] : ¬IsPiece token depth)

theorem piece_tried (ht : W.token i = .ok token) (safe : (W.commandRoom n).Safe i) :
    Comes W n (attempt fun _ => piece token depth) i fun found j =>
      Counted W n token depth i found j ∧ (found = none → j = i) :=
  attempt_comes (piece_counted ht safe) (fun _ _ hpiece => ⟨hpiece, nofun⟩)
    fun _ hpiece => ⟨hpiece, fun _ => rfl⟩

/-! ### Commands -/

theorem breaks_of_leaves (h : W.Leaves n i depth j) (ht : W.token j = .ok token)
    (hend : ¬IsPiece token depth) : W.Breaks n i j := by
  cases depth with
  | zero => exact .inl h.closes
  | succ depth =>
    refine .inr ⟨⟨depth, h⟩, fun t ht' => ?_⟩
    cases ht.symm.trans ht'
    simp only [IsPiece, not_or, not_and, Nat.zero_lt_succ, not_true_eq_false] at hend
    exact ⟨hend.1, hend.2.1, fun hop => Option.not_isSome_iff_eq_none.mp (hend.2.2 hop)⟩

theorem commandWords_breaks {closer : String} (safe : (W.wordRoom n).Safe i) :
    Comes W n (commandWords closer) i fun _ j => W.Breaks n i j := by
  -- the count that the loop keeps is that of the brackets open since the command began
  refine .loop (fun state j => W.Leaves n i state.2.1 j) (.refl i) ?_
  rintro ⟨argv, depth, stopped⟩ j hj
  refine .peek fun token ht => ?_
  split
  case isTrue hstop =>
    rw [Bool.and_eq_true, beq_iff_eq] at hstop
    cases hstop.1
    exact .inl hj.closes
  case isFalse =>
    refine .bind ((piece_tried ht (hj.safe safe)).mono ?_)
    rintro (_ | ⟨arg, depth'⟩) k ⟨hpiece, hback⟩
    · cases hback rfl
      exact breaks_of_leaves hj ht hpiece
    · exact .lastToken? fun last => hj.piece hpiece

theorem furtherStage_breaks {closer : String} (safe : (W.wordRoom n).Safe i)
    (h : W.Breaks n i j) :
    Comes W n (furtherStage closer) j fun found k => found.isSome = true → W.Breaks n i k := by
  refine attempt_comes (P := fun found k => found.isSome = true → W.Breaks n i k) ?_
    (fun _ _ hbreaks => hbreaks) fun _ _ => nofun
  refine .bind (oneOf_spells.mono ?_)
  rintro (_ | connector) k (⟨hfound, rfl⟩ | ⟨hfound, rfl, text, htext, spells⟩)
  · exact nofun
  · cases hfound
  · cases hfound
  · have hsign := h.sign (.inr htext) spells
    refine .bind ((commandWords_breaks (hsign.safe safe)).mono ?_)
    rintro (_ | argv) l hwords
    · exact nofun
    · exact fun _ => hsign.breaks hwords

theorem stages_breaks {closer : String} (safe : (W.wordRoom n).Safe i) :
    Comes W n (stages closer) i fun _ j => W.Breaks n i j := by
  refine .bind ((commandWords_breaks safe).mono ?_)
  rintro (_ | argv) j hwords
  · exact hwords
  · exact .bind (many_keeps hwords fun k hk => furtherStage_breaks safe hk)

/-! ### Literals -/

theorem rejectEmptyCommand_back {opening : Token} {closer : String} :
    Comes W n (rejectEmptyCommand opening closer) i fun _ j => j = i := by
  refine .peek fun token ht => ?_
  split
  · trivial
  · rfl

theorem opener_of_capture (capture : CaptureMode) :
    ∃ opener, Opener.ofSpelling? capture.opener = some opener ∧ opener.isPlain = false ∧
      ∀ realm, opener.inside realm = .command := by
  cases capture with
  | stdout => exact ⟨.dollarParen, by decide, rfl, fun _ => rfl⟩
  | uncaptured => exact ⟨.dollarSquare, by decide, rfl, fun _ => rfl⟩
  | hiddenObject => exact ⟨.bangSquare, by decide, rfl, fun _ => rfl⟩
  | object => exact ⟨.bangParen, by decide, rfl, fun _ => rfl⟩
  | inject => exact ⟨.atDollarParen, by decide, rfl, fun _ => rfl⟩

theorem captured_encloses (capture : CaptureMode) (safe : (W.captureRoom n).Safe i) :
    Comes W n (captured capture) i fun found j =>
      match found with
      | .matched _ => W.Encloses (W.captureRoom n) i j
      | _ => True := by
  refine .mark (.spelledAs (fun opening ht hkind htext => ?_) trivial)
  have spells : W.Spells i capture.opener := ⟨opening, ht, hkind, htext⟩
  obtain ⟨opener, hopener, hother, hinside⟩ := opener_of_capture capture
  have hopen := spells.openAt hopener
  have enters : W.Enters (W.captureRoom n) (W.room n) i :=
    ⟨⟨_, hopen⟩, fun hroom => hopen ▸ hroom opener⟩
  have hwords (hroom : (W.room n).holds (W.openAt (i + 1))) :
      (W.wordRoom n).holds (W.openAt (i + 1)) :=
    ⟨⟨hroom, hopen ▸ hinside _⟩, opener, _, hopen, hother⟩
  refine diagnosed (fun _ => rejectEmptyCommand_back) ?_
  refine .bind ((stages_breaks ((enters.safe safe).imp hwords)).mono ?_)
  rintro (_ | stages) j hstages
  · trivial
  have hcloser : (Lexer.closer? capture.closer).isSome = true := by cases capture <;> decide
  refine reads (fun background => unlessReads trivial fun closer => .spanSince ?_)
    (unlessReads trivial fun closer => .spanSince ?_)
  · have hended := hstages.sign (.inl rfl) background
    exact TalliedWorld.Encloses.of_closes enters (hended.weaken hwords) (closer.shuts hcloser)
  · have hended := hstages.closer hcloser closer
    exact TalliedWorld.Encloses.of_closes enters (hended.weaken hwords) (closer.shuts hcloser)

theorem firstOf_captured (captures : List CaptureMode) (safe : (W.captureRoom n).Safe i) :
    Comes W n (firstOf (captures.map captured)) i (closed W n .commandExpr i) := by
  induction captures with
  | nil => exact rfl
  | cons capture others induction =>
    refine .mark (.bind ((captured_encloses capture safe).mono ?_))
    rintro (value | _ | _) j hcaptured
    · exact hcaptured
    · exact .reset induction
    · exact .reset rfl

end Language

end ShellSyntax
