import ShellSyntax.Proofs.Lexer.FieldGrammar
import ShellSyntax.Proofs.Lexer.Passing
import ShellSyntax.Proofs.Lexer.Signs

/-!
Where a replacement field splits. The modes of the lexer and its brackets depict the levels on which
the tokens found so far are open, and each step keeps them in line. So the first colon that stands in
a field itself, and is the start of no longer operator, ends its value, and what follows it is literal
text and further fields.
-/

namespace ShellSyntax

namespace Level

theorem onward_ne_colon {levels outer : List Level} : onward levels ≠ .colon :: outer := by
  unfold onward
  split
  · simp
  case h_2 h =>
    intro hlevels
    exact h _ hlevels

end Level

namespace Lexer

open Outcome
open Source (Cut)

/-! ### Tokens that open and close nothing -/

variable {s : Surrounding} {t : Token}

theorem ordinary_layout (hlayout : t.kind.isLayout = true) : t.Ordinary .top where
  kind h := by
    simp only [List.mem_cons, List.not_mem_nil, or_false] at h
    obtain h | h | h := h <;> rw [h] at hlayout <;> cases hlayout
  bracket h := by
    rw [h] at hlayout
    cases hlayout
  layout _ := rfl
  colon := nofun

theorem Neutral.ordinary (neutral : Neutral t) (hkind : t.kind ≠ .fstringMiddle)
    (hcolon : s = .value → ':' ∈ t.text.toList → t.HidesColon) : t.Ordinary s where
  kind h := by
    have hfollow := neutral.2 []
    simp only [List.mem_cons, List.not_mem_nil, or_false] at h
    obtain h | h | h := h
    · simp [Opening.follow, h] at hfollow
    · exact hkind h
    · simp [Opening.follow, h] at hfollow
  bracket h := by
    have hfollow := neutral.2 []
    simp only [Opening.follow, h] at hfollow
    cases hopener : Opener.ofSpelling? t.text with
    | some opener => simp [hopener] at hfollow
    | none =>
      cases hcloser : closer? t.text with
      | some closer => simp [hopener, hcloser] at hfollow
      | none => exact ⟨rfl, rfl⟩
  layout h := by
    rw [neutral.1] at h
    cases h
  colon := hcolon

theorem Neutral.ordinary_elsewhere (neutral : Neutral t) (hkind : t.kind ≠ .fstringMiddle)
    (hs : s ≠ .value) : t.Ordinary s :=
  neutral.ordinary hkind fun h => absurd h hs

variable {l : Lexer} {kind : TokenKind} {count : Nat}

theorem colon_leads : ∀ op ∈ Spelling.operators, ':' ∈ op.toList → op.toList.head? = some ':' := by
  decide

theorem closer?_brace {text : String} (hcloser : closer? text = some '\x7d') : text = "\x7d" := by
  unfold closer? at hcloser
  split at hcloser <;> simp_all

/-- In the value of a field, where the cursor stands at no colon, only such tokens have one in their
text as may have it there. -/
theorem Plain.hidesColon (plain : Plain l kind count) (cut : Cut (.text l.rest :: l.unread))
    (hopen : l.brackets ≠ []) (hhost : l.brackets.inCommand = false)
    (hhead : l.rest.head? ≠ some ':') (hcolon : ':' ∈ l.rest.take count)
    {start stop : Position} {line : String} :
    Token.HidesColon ⟨kind, String.ofList (l.rest.take count), start, stop, line⟩ := by
  have hwhile {p : Char → Bool} (hp : p ':' = false)
      (hmem : ':' ∈ l.rest.take (l.rest.takeWhile p).length) : False := by
    rw [← List.prefix_iff_eq_take.mp (List.takeWhile_prefix p)] at hmem
    cases hp.symm.trans (List.all_eq_true.mp List.all_takeWhile ':' hmem)
  cases plain with
  | space => exact (hwhile (by decide) hcolon).elim
  | newline _ _ hbrackets => exact absurd hbrackets hopen
  | nl hrest hbreak =>
    rw [List.take_length] at hcolon ⊢
    rw [hrest] at cut hcolon ⊢
    refine .inr (.inr (.inr (.inr ⟨rfl, (cut.breaks hbreak).resolve_left fun hall => ?_⟩)))
    exact absurd (hall ':' hcolon) (by decide)
  | comment => exact .inr (.inr (.inl rfl))
  | string => exact .inl rfl
  | pathSearch => exact .inr (.inl rfl)
  | word hcommand =>
    rw [hhost] at hcommand
    cases hcommand
  | number => exact absurd hcolon (Lexeme.not_mem_number (by decide))
  | name => exact (hwhile (by decide +kernel) hcolon).elim
  | op hmatch _ _ hknown =>
    rw [Spelling.firstMatch_take hmatch] at hcolon
    have hleads := colon_leads _ hknown hcolon
    rw [← Spelling.firstMatch_take hmatch, List.head?_take] at hleads
    split at hleads
    · cases hleads
    · exact absurd hleads hhead
  | @odd c rest hrest =>
    rw [hrest] at hcolon hhead
    obtain rfl := List.mem_singleton.mp hcolon
    exact absurd rfl hhead

theorem Plain.ordinary (plain : Plain l kind count) (physical : l.Physical)
    (htop : l.brackets = [] → s = .top)
    (hvalue : s = .value →
      l.brackets ≠ [] ∧ l.brackets.inCommand = false ∧ l.rest.head? ≠ some ':')
    {start stop : Position} {line : String} :
    Token.Ordinary s ⟨kind, String.ofList (l.rest.take count), start, stop, line⟩ := by
  by_cases hkind : kind = .newline
  · subst hkind
    cases plain with
    | newline _ _ hbrackets => exact htop hbrackets ▸ ordinary_layout rfl
  · refine (plain.neutral hkind).ordinary (by cases plain <;> nofun) fun hs hcolon => ?_
    obtain ⟨hopen, hhost, hhead⟩ := hvalue hs
    rw [String.toList_ofList] at hcolon
    obtain ⟨hnone, _⟩ | cut := physical
    · simp [hnone] at hcolon
    · exact plain.hidesColon cut hopen hhost hhead hcolon

/-! ### The levels around the cursor -/

/-- The modes of the lexer and its brackets are those of these levels. -/
inductive Depicts : List LexMode → BracketStack → List Level → Prop
  | start : Depicts [] [] []
  | bracket {modes : List LexMode} {bracket : Bracket} {brackets : BracketStack}
      {levels : List Level} (outer : Depicts modes brackets levels)
      (houtside : modes = [] ∨ ∃ depth below, modes = .fstringField depth :: below) :
      Depicts modes (bracket :: brackets) (.bracket bracket.opener :: levels)
  | string {modes : List LexMode} {brackets : BracketStack} {levels : List Level} {quote : Quote}
      {text line : String} {start : Position} (outer : Depicts modes brackets levels)
      (houtside : modes = [] ∨ ∃ depth below, modes = .fstringField depth :: below) :
      Depicts (.string quote text start line :: modes) brackets levels
  | text {modes : List LexMode} {brackets : BracketStack} {levels : List Level} {quote : Quote}
      {text : String} {start : Position} (outer : Depicts modes brackets levels)
      (houtside : modes = [] ∨ ∃ depth below, modes = .fstringField depth :: below) :
      Depicts (.fstringText quote text start :: modes) brackets (.text :: levels)
  | field {modes : List LexMode} {brackets : BracketStack} {levels : List Level}
      {position : Position} (outer : Depicts modes brackets levels)
      (hlevels : Level.InText levels) :
      Depicts (.fstringField (brackets.length + 1) :: modes)
        (⟨.brace, .host, position⟩ :: brackets) (.value :: levels)
  | spec {modes : List LexMode} {brackets : BracketStack} {levels : List Level} {level : Level}
      {start : Position}
      (outer : Depicts (.fstringField brackets.length :: modes) brackets (.value :: levels))
      (hlevel : level = .colon ∨ level = .spec) :
      Depicts (.fstringSpec "" start :: .fstringField brackets.length :: modes) brackets
        (level :: levels)

namespace Depicts

variable {modes below : List LexMode} {brackets : BracketStack} {bracket : Bracket}
  {levels : List Level} {depth : Nat}

theorem depth_le (depicts : Depicts (.fstringField depth :: below) brackets levels) :
    depth ≤ brackets.length := by
  generalize hmodes : LexMode.fstringField depth :: below = modes at depicts
  induction depicts with
  | bracket _ _ induction => exact Nat.le_succ_of_le (induction hmodes)
  | field =>
    cases hmodes
    exact Nat.le_refl _
  | start | string | text | spec => cases hmodes

/-- Outside literal text code is read. At the level of a field the innermost bracket is its brace. -/
theorem surrounding (depicts : Depicts modes brackets levels)
    (houtside : modes = [] ∨ ∃ depth below, modes = .fstringField depth :: below) :
    ∃ s, Level.surrounding? levels = some s ∧ (brackets = [] → s = .top) ∧
      (s = .value → brackets ≠ [] ∧ brackets.inCommand = false ∧
        ∃ below, modes = .fstringField brackets.length :: below) := by
  cases depicts with
  | start => exact ⟨.top, rfl, fun _ => rfl, nofun⟩
  | bracket => exact ⟨.bracket, rfl, nofun, nofun⟩
  | field => exact ⟨.value, rfl, nofun, fun _ => ⟨List.cons_ne_nil _ _, rfl, _, rfl⟩⟩
  | string | text | spec => simp at houtside

theorem value (depicts : Depicts (.fstringField brackets.length :: below) brackets levels) :
    Level.surrounding? levels = some .value := by
  generalize hdepth : brackets.length = depth at depicts
  cases depicts with
  | bracket outer => exact absurd (hdepth ▸ outer.depth_le) (Nat.not_succ_le_self _)
  | field => rfl

theorem below_string {quote : Quote} {text line : String} {start : Position}
    (depicts : Depicts (.string quote text start line :: modes) brackets levels) :
    Depicts modes brackets levels ∧
      (modes = [] ∨ ∃ depth below, modes = .fstringField depth :: below) := by
  cases depicts with
  | bracket _ houtside => simp at houtside
  | string outer houtside => exact ⟨outer, houtside⟩

theorem below_text {quote : Quote} {text : String} {start : Position}
    (depicts : Depicts (.fstringText quote text start :: modes) brackets levels) :
    ∃ outer, levels = .text :: outer ∧ Depicts modes brackets outer ∧
      (modes = [] ∨ ∃ depth below, modes = .fstringField depth :: below) := by
  cases depicts with
  | bracket _ houtside => simp at houtside
  | text outer houtside => exact ⟨_, rfl, outer, houtside⟩

theorem below_spec {text : String} {start : Position}
    (depicts : Depicts (.fstringSpec text start :: modes) brackets levels) :
    text = "" ∧ ∃ level outer below, levels = level :: outer ∧ (level = .colon ∨ level = .spec) ∧
      modes = .fstringField brackets.length :: below ∧
      Depicts modes brackets (.value :: outer) := by
  cases depicts with
  | bracket _ houtside => simp at houtside
  | spec outer hlevel => exact ⟨rfl, _, _, _, rfl, hlevel, rfl, outer⟩

theorem onward (depicts : Depicts modes brackets levels) (hlevels : Level.InText levels) :
    Depicts modes brackets (Level.onward levels) := by
  cases depicts with
  | start | bracket | field => cases hlevels
  | string outer houtside =>
    obtain ⟨s, hs, _⟩ := outer.surrounding houtside
    rw [Level.InText, hs] at hlevels
    cases hlevels
  | text outer houtside => exact .text outer houtside
  | spec outer hlevel =>
    obtain rfl | rfl := hlevel
    · exact .spec outer (.inr rfl)
    · exact .spec outer (.inr rfl)

theorem close (depicts : Depicts modes (bracket :: brackets) levels)
    (houtside : modes = [] ∨ ∃ depth below, modes = .fstringField depth :: below) :
    (∃ outer below, levels = .value :: outer ∧ Level.InText outer ∧ bracket.opener = .brace ∧
        modes = .fstringField (brackets.length + 1) :: below ∧ Depicts below brackets outer) ∨
      ∃ outer, levels = .bracket bracket.opener :: outer ∧
        (∀ below, modes ≠ .fstringField (brackets.length + 1) :: below) ∧
        Depicts modes brackets outer := by
  cases depicts with
  | bracket outer =>
    refine .inr ⟨_, rfl, ?_, outer⟩
    rintro below rfl
    exact absurd outer.depth_le (Nat.not_succ_le_self _)
  | field outer hlevels => exact .inl ⟨_, _, rfl, hlevels, rfl, rfl, outer⟩
  | string | text | spec => simp at houtside

end Depicts

/-! ### One step -/

/-- The tokens found so far are open on these levels, and the cursor stands on them. -/
structure OnLevels (found : List Token) (l : Lexer) (levels : List Level) : Prop where
  depicts : Depicts l.modes l.brackets levels
  unfinished : Unfinished found levels
  /-- No equals sign follows the colon of a field, and no further line either. -/
  colon : ∀ outer, levels = .colon :: outer →
    l.rest.head? ≠ some '=' ∧ (l.rest = [] → l.unread = [])

/-- The tokens found before and those that are ready are open on some levels, and the cursor stands
on them. -/
def StaysOnLevels (found : List Token) (l : Lexer) : Prop :=
  ∃ levels, OnLevels (found ++ l.pending) l levels

variable {found : List Token} {l' : Lexer} {levels : List Level}

theorem StaysOnLevels.of_surrounding (hs : Level.surrounding? levels = some s)
    (depicts : Depicts l.modes l.brackets levels)
    (unfinished : Unfinished (found ++ l.pending) levels) : StaysOnLevels found l :=
  ⟨levels, depicts, unfinished, by rintro outer rfl; cases hs⟩

theorem StaysOnLevels.of_ordinary (hs : Level.surrounding? levels = some s)
    (depicts : Depicts l.modes l.brackets levels) (unfinished : Unfinished found levels)
    (hordinary : ∀ t ∈ l.pending, t.Ordinary s) : StaysOnLevels found l :=
  .of_surrounding hs depicts (unfinished.tokens hs hordinary)

theorem unfinished_literalText (l : Lexer) (count : Nat) (text : String) (start : Position)
    (unfinished : Unfinished found levels) (hlevels : Level.InText levels)
    (hnext : ∀ outer, levels = .colon :: outer → text.toList.head? ≠ some '=') :
    Unfinished (found ++ l.literalText count text start) levels ∨
      Unfinished (found ++ l.literalText count text start) (Level.onward levels) := by
  unfold literalText
  split
  · rw [List.append_nil]
    exact .inl unfinished
  · exact .inr (unfinished.addText hlevels rfl hnext)

theorem OnLevels.literalText {level : Level} {outer : List Level} {m : Lexer}
    (on : OnLevels found l (level :: outer)) (hlevel : level = .colon ∨ level = .spec)
    (hrest : m.rest = l.rest) (count : Nat) (start : Position) :
    ∃ level, (level = .colon ∨ level = .spec) ∧ Unfinished
      (found ++ m.literalText count ("" ++ String.ofList (m.rest.take count)) start)
      (level :: outer) := by
  have hlevels : Level.InText (level :: outer) := by obtain rfl | rfl := hlevel <;> rfl
  have hnext : ∀ o, level :: outer = .colon :: o →
      ("" ++ String.ofList (m.rest.take count)).toList.head? ≠ some '=' := by
    intro o ho hequals
    rw [String.empty_append, String.toList_ofList, hrest, List.head?_take] at hequals
    split at hequals
    · cases hequals
    · exact (on.colon o ho).1 hequals
  obtain unfinished | unfinished :=
    unfinished_literalText m count _ start on.unfinished hlevels hnext
  · exact ⟨level, hlevel, unfinished⟩
  · refine ⟨.spec, .inr rfl, ?_⟩
    obtain rfl | rfl := hlevel <;> exact unfinished

theorem openField_onLevels {mode : LexMode} {outer : List LexMode} {text : String}
    {start : Position} (hflush : l.flushText count = l.flushed count text start (mode :: outer))
    (hbrace : (l.rest.drop count).head? = some '\x7b') (hpending : l.pending = [])
    (hlevels : Level.InText levels) (depicts : Depicts (mode :: outer) l.brackets levels)
    (unfinished : Unfinished (found ++ l.literalText count text start) levels) :
    StaysOnLevels found (l.openField count) := by
  obtain ⟨rest, hdrop⟩ := List.head?_eq_some_iff.mp hbrace
  refine .of_surrounding (show Level.surrounding? (.value :: levels) = _ from rfl) ?_ ?_
  · simp only [openField, hflush, pushMode, pushBracket, take_frame, flushed_frame]
    exact .field depicts hlevels
  · simp only [openField, hflush, pushMode, pushBracket, take_frame, flushed_frame, hpending,
      List.nil_append]
    rw [← List.append_assoc, hdrop]
    exact unfinished.openField hlevels rfl

/-- The colon of a field ends its value. Behind a colon that an equals sign follows the value goes
on. -/
theorem OnLevels.step_colon (on : OnLevels found l levels) (physical : l.Physical)
    (hpending : l.pending = []) (houtside : l.Outside)
    (hvalue : Level.surrounding? levels = some .value) {after : List Char}
    (hrest : l.rest = ':' :: after) (hstep : step l = .ok () l') : StaysOnLevels found l' := by
  obtain ⟨s, hs, _, hfield⟩ := on.depicts.surrounding houtside
  obtain ⟨_, hhost, below, hmodes⟩ := hfield (Option.some.inj (hs.symm.trans hvalue))
  have hlevel : l.atFieldLevel = true := by simp [atFieldLevel, hmodes, BracketStack.depth]
  obtain ⟨outer, rfl⟩ : ∃ outer, levels = .value :: outer := by
    unfold Level.surrounding? at hvalue
    split at hvalue <;> simp_all
  by_cases hafter : after.head? = some '='
  · obtain ⟨after, rfl⟩ := List.head?_eq_some_iff.mp hafter
    have hmatch : Spelling.firstMatch Spelling.operators l.rest = some ":=" := by
      rw [hrest]
      simp [Spelling.firstMatch, Spelling.operators, List.isPrefixOf]
    rw [step_of_sign houtside hrest (.inr (.inl rfl)), if_neg (by simp [hhost]),
      scanHostToken_of_sign hrest (.inr (.inl rfl)) hmatch] at hstep
    obtain rfl : l.take .op 2 = l' := modify_ok.mp hstep
    refine .of_ordinary hvalue (by simpa using on.depicts) on.unfinished ?_
    simp only [take_frame, hpending, hrest, List.nil_append, List.mem_singleton, forall_eq]
    exact Neutral.ordinary (neutral_op rfl rfl rfl) (by simp) fun _ _ => .inr (.inr (.inr (.inl rfl)))
  · rw [Lexer.step_colon houtside hhost hrest hafter, scanColon, get_bind_ok, ite_ok,
      if_pos hlevel] at hstep
    obtain rfl := set_ok.mp hstep
    refine ⟨.colon :: outer, ?_, ?_, ?_⟩
    · simp only [pushMode, take_frame, hmodes]
      exact .spec (hmodes ▸ on.depicts) (.inl rfl)
    · simp only [pushMode, take_frame, hpending, List.nil_append, hrest]
      exact on.unfinished.addColon rfl
    · rintro _ _
      simp only [pushMode, take_frame, hrest, List.drop_succ_cons, List.drop_zero]
      refine ⟨hafter, ?_⟩
      rintro rfl
      obtain ⟨hnone, _⟩ | cut := physical
      · simp [hrest] at hnone
      · rw [hrest] at cut
        exact cut.unread_eq_nil (by simp)

theorem OnLevels.of_atStatement (on : OnLevels found l levels) (hplace : l.AtStatement)
    (hmodes : l'.modes = l.modes) (hbrackets : l'.brackets = l.brackets)
    (hpending : ∀ t ∈ l'.pending, t.kind.isLayout = true ∨ Neutral t ∧ t.kind ≠ .fstringMiddle) :
    StaysOnLevels found l' := by
  obtain ⟨s, hs, htop, _⟩ := on.depicts.surrounding (.inl hplace.1)
  obtain rfl := htop hplace.2.1
  refine .of_ordinary hs (hmodes ▸ hbrackets ▸ on.depicts) on.unfinished fun t ht => ?_
  obtain hlayout | ⟨neutral, hkind⟩ := hpending t ht
  · exact ordinary_layout hlayout
  · exact neutral.ordinary hkind (by simp)

theorem OnLevels.specEnd (on : OnLevels found l levels) (hpending : l.pending = []) {m n : Lexer}
    {text : String} {start : Position} {outer : List LexMode} {count : Nat} {top : Bracket}
    {brackets : BracketStack} (hmodes : l.modes = .fstringSpec text start :: outer)
    (hm : m = { l with
      modes := .fstringSpec text (if text.isEmpty then l.here else start) :: outer })
    (hscan : scanSpec 0 l.rest = .close count) (hn : n = m.flushText count)
    (hbrackets : n.brackets = top :: brackets) :
    StaysOnLevels found { ({ n with brackets }).take .op 1 with modes := n.modes.drop 2 } := by
  have hflush := flushText_of_spec (l := m) (by rw [hm]) count
  rw [hflush] at hn
  have hsame : l.brackets = top :: brackets := by
    rw [hn] at hbrackets
    simp only [flushed_frame] at hbrackets
    rwa [hm] at hbrackets
  have depicts := on.depicts
  rw [hmodes, hsame] at depicts
  obtain ⟨rfl, level, outer, below, rfl, hlevel, rfl, field⟩ := depicts.below_spec
  obtain ⟨_, below, hlevels, htext, _, hfield, above⟩ | ⟨_, hlevels, _⟩ :=
    field.close (.inr ⟨_, _, rfl⟩)
  case inr => cases hlevels
  cases hlevels
  cases hfield
  obtain ⟨level, hlevel, unfinished⟩ := on.literalText (m := m) hlevel (by rw [hm]) count l.here
  have hnone : m.pending = [] := by rw [hm, hpending]
  obtain ⟨after, hdrop⟩ := List.head?_eq_some_iff.mp (scanSpec_close hscan).2
  have hbrace : m.rest.drop count = '\x7d' :: after := by
    rw [hm]
    exact hdrop
  refine ⟨Level.onward outer, ?_, ?_, fun _ h => absurd h Level.onward_ne_colon⟩
  · simp only [hn, take_frame, flushed_frame, List.drop_succ_cons, List.drop_zero]
    exact above.onward htext
  · simp only [hn, take_frame, flushed_frame, hnone, List.nil_append]
    rw [← List.append_assoc, hbrace]
    exact unfinished.closeField (.inr hlevel) rfl

theorem OnLevels.closer (on : OnLevels found l levels) (hpending : l.pending = [])
    (houtside : l.Outside) {table : List String} {text : String} {top : Bracket}
    {brackets : BracketStack} (hmatch : Spelling.firstMatch table l.rest = some text)
    (hcloser : closer? text = some top.closer) (hbrackets : l.brackets = top :: brackets) :
    StaysOnLevels found ({ l with
      brackets, modes := if l.atFieldLevel then l.modes.drop 1 else l.modes }.take .op 1) := by
  have depicts := on.depicts
  have htext := Spelling.firstMatch_take hmatch
  rw [(closer?_eq_some hcloser).1] at htext
  rw [hbrackets] at depicts
  obtain ⟨outer, below, rfl, hlevels, hbrace, hmodes, above⟩ | ⟨outer, rfl, hmodes, above⟩ :=
    depicts.close houtside
  · refine ⟨Level.onward outer, ?_, ?_, fun _ h => absurd h Level.onward_ne_colon⟩
    · simpa [atFieldLevel, hmodes, hbrackets, BracketStack.depth] using above.onward hlevels
    · simp only [take_frame, hpending, List.nil_append, htext, String.ofList_toList]
      refine on.unfinished.closeField (.inl rfl) ?_
      rw [Bracket.closer, hbrace] at hcloser
      rw [closer?_brace hcloser]
      rfl
  · have hlevel : l.atFieldLevel = false := by
      obtain hnone | ⟨depth, below, hfield⟩ := houtside
      · simp [atFieldLevel, hnone]
      · simp only [atFieldLevel, hfield, hbrackets, BracketStack.depth, List.length_cons,
          beq_eq_false_iff_ne]
        rintro rfl
        exact hmodes below hfield
    obtain ⟨s, hs, _⟩ := above.surrounding houtside
    refine .of_surrounding hs (by simpa [hlevel] using above) ?_
    simp only [take_frame, hpending, List.nil_append, htext, String.ofList_toList]
    exact on.unfinished.closeBracket ⟨rfl, hcloser⟩

/-- Where the cursor stands at no colon of a field, a step goes on with what is open, opens
something more, or closes the innermost. -/
theorem Moves.onLevels (moves : Moves l l') (on : OnLevels found l levels) (physical : l.Physical)
    (hpending : l.pending = [])
    (hother : l.Outside → Level.surrounding? levels = some .value → l.rest.head? ≠ some ':') :
    StaysOnLevels found l' := by
  cases moves with
  | finish _ _ hplace =>
    refine on.of_atStatement hplace (by simp) (by simp) fun t ht => .inl ?_
    rw [close_pending, hpending] at ht
    exact layout_of_closing t ht
  | resumeLine hrest hunread hplace =>
    refine ⟨levels, on.depicts, ?_, ?_⟩
    · simpa [freshLine, nextLine, enterLine, hpending] using on.unfinished
    · intro outer hlevels
      rw [(on.colon outer hlevels).2 hrest] at hunread
      cases hunread
  | blankLine hrest hunread hplace hm hend =>
    have frame := pastMargin_frame hm
    exact on.of_atStatement hplace (by simp [frame]) (by simp [frame]) (by simp [frame, hpending])
  | commentLine hrest hunread hplace hm hcomment =>
    have frame := pastMargin_frame hm
    refine on.of_atStatement hplace (by simp [takeRest, frame]) (by simp [takeRest, frame]) ?_
    simp [takeRest, frame, hpending, Neutral, TokenKind.isLayout, Opening.follow]
  | emptyLine hrest hunread hplace hm hbreak hc =>
    have frame := pastMargin_frame hm
    refine on.of_atStatement hplace (by simp [takeRest, frame]) (by simp [takeRest, frame]) ?_
    simp [takeRest, frame, hpending, Neutral, TokenKind.isLayout, Opening.follow]
  | indented hrest hunread hplace hm =>
    have frame := pastMargin_frame hm
    refine on.of_atStatement hplace (by simp [frame]) (by simp [frame]) ?_
    simp [frame, hpending, TokenKind.isLayout]
  | level hrest hunread hplace hm =>
    have frame := pastMargin_frame hm
    exact on.of_atStatement hplace (by simp [frame]) (by simp [frame]) (by simp [frame, hpending])
  | outdented hrest hunread hplace hm =>
    have frame := pastMargin_frame hm
    refine on.of_atStatement hplace (by simp [frame]) (by simp [frame]) ?_
    simp only [leaveBlocks_frame, dedentsTo, frame, hpending, List.nil_append, List.mem_replicate]
    rintro _ ⟨_, rfl⟩
    exact .inl rfl
  | stringEnd hmodes hrest hend =>
    have depicts := on.depicts
    rw [hmodes] at depicts
    obtain ⟨outer, houtside⟩ := depicts.below_string
    obtain ⟨s, hs, _⟩ := outer.surrounding houtside
    refine .of_ordinary hs (by simpa [push, advance] using outer) on.unfinished ?_
    simp only [push, advance, hpending, List.nil_append, List.mem_singleton, forall_eq]
    exact Neutral.ordinary ⟨rfl, fun _ => rfl⟩ (by simp) fun _ _ => .inl rfl
  | stringLine hmodes hrest hend hgoes =>
    have depicts := on.depicts
    rw [hmodes] at depicts
    obtain ⟨outer, houtside⟩ := depicts.below_string
    obtain ⟨s, hs, _⟩ := outer.surrounding houtside
    refine .of_ordinary hs (.string outer houtside) on.unfinished ?_
    simp [skipLine, advance, hpending]
  | textLine hmodes hrest hscan =>
    have depicts := on.depicts
    rw [hmodes] at depicts
    obtain ⟨outer, rfl, below, houtside⟩ := depicts.below_text
    refine ⟨.text :: outer, .text below houtside, ?_, by simp⟩
    simpa [skipLine, advance, hpending] using on.unfinished
  | @textEnd m quote text start outer count hmodes hrest hm hscan =>
    have depicts := on.depicts
    rw [hmodes] at depicts
    obtain ⟨outer, rfl, below, houtside⟩ := depicts.below_text
    obtain ⟨s, hs, _⟩ := below.surrounding houtside
    have hflush := flushText_of_text (l := m) (by rw [hm]) count
    have hnone : m.pending = [] := by rw [hm, hpending]
    have unfinished := (unfinished_literalText m count (text ++ String.ofList (m.rest.take count))
      (if text.isEmpty then l.here else start) on.unfinished rfl (by simp)).elim id id
    refine .of_surrounding hs ?_ ?_
    · simp only [hflush, take_frame, flushed_frame]
      rw [hm]
      exact below
    · simp only [hflush, take_frame, flushed_frame, hnone, List.nil_append]
      rw [← List.append_assoc]
      exact unfinished.closeLiteral rfl
  | @textField m quote text start outer count hmodes hrest hm hscan =>
    have depicts := on.depicts
    rw [hmodes] at depicts
    obtain ⟨outer, rfl, below, houtside⟩ := depicts.below_text
    have unfinished := (unfinished_literalText m count (text ++ String.ofList (m.rest.take count))
      (if text.isEmpty then l.here else start) on.unfinished rfl (by simp)).elim id id
    refine openField_onLevels (flushText_of_text (l := m) (by rw [hm]) count) ?_
      (by rw [hm, hpending]) (show Level.InText (.text :: outer) from rfl) ?_ unfinished
    · rw [hm]
      exact (scanText_field hscan).2
    · rw [hm]
      exact .text below houtside
  | @specField m text start outer count hmodes hrest hm hscan =>
    have depicts := on.depicts
    rw [hmodes] at depicts
    obtain ⟨rfl, level, outer, below, rfl, hlevel, rfl, field⟩ := depicts.below_spec
    obtain ⟨level, hlevel, unfinished⟩ := on.literalText (m := m) hlevel (by rw [hm]) count l.here
    have hlevels : Level.InText (level :: outer) := by obtain rfl | rfl := hlevel <;> rfl
    refine openField_onLevels (flushText_of_spec (l := m) (by rw [hm]; rfl) count) ?_
      (by rw [hm, hpending]) hlevels ?_ unfinished
    · rw [hm]
      exact (scanSpec_field hscan).2
    · rw [hm]
      exact .spec field hlevel
  | specEnd hmodes hrest hm hscan hn hbrackets =>
    exact on.specEnd hpending hmodes hm hscan hn hbrackets
  | plain houtside hplain =>
    obtain ⟨s, hs, htop, hvalue⟩ := on.depicts.surrounding houtside
    refine .of_ordinary hs (by simpa using on.depicts) on.unfinished ?_
    simp only [take_frame, hpending, List.nil_append, List.mem_singleton, forall_eq]
    refine hplain.ordinary physical htop fun h => ?_
    obtain ⟨hopen, hhost, _⟩ := hvalue h
    exact ⟨hopen, hhost, hother houtside (h ▸ hs)⟩
  | continuation houtside =>
    obtain ⟨s, hs, _⟩ := on.depicts.surrounding houtside
    refine .of_ordinary hs on.depicts on.unfinished ?_
    simp [skipLine, advance, hpending]
  | stringStart houtside =>
    obtain ⟨s, hs, _⟩ := on.depicts.surrounding houtside
    refine .of_ordinary hs (.string on.depicts houtside) on.unfinished ?_
    simp [skipLine, advance, pushMode, hpending]
  | fstringStart houtside hopening hformatted hm =>
    obtain ⟨s, hs, _⟩ := on.depicts.surrounding houtside
    refine ⟨.text :: levels, ?_, ?_, by simp⟩
    · simp only [hm, pushMode, take_frame]
      exact .text on.depicts houtside
    · simp only [hm, pushMode, take_frame, hpending, List.nil_append]
      exact on.unfinished.openLiteral hs rfl
  | envVariable houtside hcommand hrest =>
    obtain ⟨s, hs, _, hvalue⟩ := on.depicts.surrounding houtside
    have hword : s ≠ .value := fun h => by simp [(hvalue h).2.1] at hcommand
    refine .of_ordinary hs (by simpa [takeWhile] using on.depicts) on.unfinished ?_
    simp only [takeWhile, take_frame, hpending, hrest, List.nil_append, List.mem_append,
      List.mem_singleton, forall_eq_or_imp, forall_eq]
    exact ⟨(neutral_op rfl rfl rfl).ordinary_elsewhere (by simp) hword,
      Neutral.ordinary_elsewhere ⟨rfl, fun _ => rfl⟩ (by simp) hword⟩
  | closer houtside hmatch hcloser hbrackets =>
    exact on.closer hpending houtside hmatch hcloser hbrackets
  | @opener table opener houtside hmatch =>
    obtain ⟨s, hs, _⟩ := on.depicts.surrounding houtside
    have htext := Spelling.firstMatch_take hmatch
    refine .of_surrounding (show Level.surrounding? (.bracket opener :: levels) = _ from rfl) ?_ ?_
    · simp only [take_frame, pushBracket]
      exact @Depicts.bracket _ (.opened opener _ _) _ _ on.depicts houtside
    · simp only [take_frame, pushBracket, hpending, List.nil_append, htext, String.ofList_toList]
      exact on.unfinished.openBracket hs (by simp [Token.isOp])
  | @call m _ table houtside hmatch hcallable hm harguments =>
    obtain ⟨s, hs, _⟩ := on.depicts.surrounding houtside
    obtain ⟨captured, hcaptured, hkinds⟩ := harguments.pending
    obtain ⟨_, hmodes, _, _, _, _, hfloor, _⟩ := harguments.progress
    have htext := Spelling.firstMatch_take hmatch
    refine .of_surrounding (show Level.surrounding? (.bracket .bangParen :: levels) = _ from rfl)
      ?_ ?_
    · rw [hmodes, hfloor]
      simp only [hm, take_frame, pushBracket]
      exact .bracket on.depicts houtside
    · rw [hcaptured, ← List.append_assoc]
      simp only [hm, take_frame, pushBracket, hpending, List.nil_append, htext,
        String.ofList_toList]
      refine (on.unfinished.openBracket hs rfl).tokens rfl fun t ht => ?_
      exact (neutral_macroParam (hkinds t ht)).ordinary_elsewhere (by simp [hkinds t ht]) (by simp)
  | @rawCommand m n table top brackets raw rest houtside hcommand hmatch hm hbrackets hcapture
      hfloor hrest =>
    obtain ⟨s, hs, _, hvalue⟩ := on.depicts.surrounding houtside
    have hword : s ≠ .value := fun h => by simp [(hvalue h).2.1] at hcommand
    have reads := hcapture.readsOn
    refine .of_ordinary hs ?_ on.unfinished ?_
    · simpa [push, reads.modes, hfloor, hm] using on.depicts
    · simp only [push, reads.pending, hm, take_frame, hpending, List.nil_append, List.mem_append,
        List.mem_singleton, forall_eq_or_imp, forall_eq]
      exact ⟨(neutral_sign hmatch rfl (by decide)).ordinary_elsewhere (by simp) hword,
        (neutral_macroParam rfl).ordinary_elsewhere (by simp [RawText.toToken]) hword⟩
  | announce houtside hhost hmatch =>
    obtain ⟨s, hs, _⟩ := on.depicts.surrounding houtside
    refine .of_ordinary hs (by simpa using on.depicts) on.unfinished ?_
    simp only [take_frame, hpending, List.nil_append, List.mem_singleton, forall_eq]
    have htext : l.rest.take 1 = ['!'] := Spelling.firstMatch_take hmatch
    refine (neutral_sign hmatch rfl (by decide)).ordinary (by simp) fun _ hcolon => ?_
    simp [htext] at hcolon
  | @spec m table houtside hmatch hfield hm =>
    have htext : l.rest.take 1 = [':'] := Spelling.firstMatch_take hmatch
    obtain hmodes | ⟨depth, below, hmodes⟩ := houtside
    · simp [atFieldLevel, hmodes] at hfield
    · simp only [atFieldLevel, hmodes, BracketStack.depth, beq_iff_eq] at hfield
      subst hfield
      refine absurd ?_ (hother (.inr ⟨_, _, hmodes⟩) (hmodes ▸ on.depicts).value)
      cases hrest : l.rest <;> simp_all
  | @bodyLine m n table text houtside hmatch hfield hheader hbrackets hm hidle hgathers =>
    obtain ⟨s, hs, htop, _⟩ := on.depicts.surrounding houtside
    obtain rfl := htop hbrackets
    have reads := hgathers.readsOn
    refine .of_ordinary hs ?_ on.unfinished ?_
    · simpa [endCapturedLine, skipLine, advance, reads.modes, hgathers.brackets, hm] using on.depicts
    · simp only [endCapturedLine, skipLine, advance, addToken_frame, reads.pending, hm, take_frame,
        hpending, List.nil_append, List.mem_append, List.mem_singleton, forall_eq_or_imp, forall_eq]
      exact ⟨(neutral_sign hmatch rfl (by decide)).ordinary_elsewhere (by simp) (by simp),
        (neutral_macroParam rfl).ordinary_elsewhere (by simp) (by simp)⟩
  | @bodyBlock m n table text first houtside hmatch hfield hheader hbrackets hm hidle hgathers =>
    obtain ⟨s, hs, htop, _⟩ := on.depicts.surrounding houtside
    obtain rfl := htop hbrackets
    have reads := (readsOn_advance m m.rest.length).trans hgathers.readsOn
    have hsame : n.brackets = m.brackets := hgathers.brackets
    refine .of_ordinary hs ?_ on.unfinished ?_
    · simpa [endCapturedLine, reads.modes, hsame, hm] using on.depicts
    · simp only [endCapturedLine, addToken_frame, reads.pending, hm, take_frame,
        hpending, List.nil_append, List.mem_append, List.mem_singleton, forall_eq_or_imp, forall_eq]
      exact ⟨(neutral_sign hmatch rfl (by decide)).ordinary_elsewhere (by simp) (by simp),
        (neutral_macroParam rfl).ordinary_elsewhere (by simp) (by simp)⟩

/-! ### Runs -/

theorem StaysOnLevels.of_step {source : Source} {tabSize : Nat}
    (passed : Passes source tabSize found l) (cut : Cut source) (on : OnLevels found l levels)
    (hpending : l.pending = []) (hstep : step l = .ok () l') : StaysOnLevels found l' := by
  have physical := passed.visits.physical cut
  by_cases hcolon :
      l.Outside ∧ Level.surrounding? levels = some .value ∧ l.rest.head? = some ':'
  · obtain ⟨houtside, hvalue, hhead⟩ := hcolon
    obtain ⟨after, hrest⟩ := List.head?_eq_some_iff.mp hhead
    exact on.step_colon physical hpending houtside hvalue hrest hstep
  · exact (passed.moves hstep).onLevels on physical hpending fun houtside hvalue hhead =>
      hcolon ⟨houtside, hvalue, hhead⟩

theorem Passes.nothing_open {source : Source} {tabSize : Nat}
    (passed : Passes source tabSize found l) (hfinished : l.finished = true) :
    l.modes = [] ∧ l.brackets = [] := by
  obtain ⟨_, _, _, hempty, _⟩ :=
    foundInStep.passes ⟨[], rfl, .start, by simp [ofSource], by simp [MarkerLast, ofSource]⟩ passed
  exact hempty (.inl hfinished)

theorem Passes.onLevels {source : Source} {tabSize : Nat} (passed : Passes source tabSize found l)
    (cut : Cut source) : ∃ levels, OnLevels found l levels := by
  induction passed with
  | start => exact ⟨[], .start, .top .nil, nofun⟩
  | step passed hpending _ hstep induction =>
    obtain ⟨levels, on⟩ := induction
    exact StaysOnLevels.of_step passed cut on hpending hstep
  | handOut _ _ induction =>
    obtain ⟨levels, on⟩ := induction
    exact ⟨levels, on.depicts, on.unfinished, on.colon⟩
  | @endMarker found l passed _ hfinished induction =>
    obtain ⟨levels, on⟩ := induction
    obtain ⟨hmodes, hbrackets⟩ := passed.nothing_open hfinished
    obtain ⟨s, hs, htop, _⟩ := on.depicts.surrounding (.inl hmodes)
    obtain rfl := htop hbrackets
    exact ⟨levels, on.depicts, on.unfinished.token hs (ordinary_layout rfl), on.colon⟩

/-- The tokens of a source, as far as they go, are code with f-strings in which each field has its
value up to the first colon that stands in the field itself and that no equals sign follows. Between
it and the brace that closes the field stand literal text and further fields. When the source has
been read, no bracket, f-string or field is left open. -/
theorem fields_split_at_colons {source : Source} (cut : Cut source) (tabSize : Nat) :
    (∀ tokens l, Reaches source tabSize tokens l →
      ∃ levels, Unfinished (tokens ++ l.pending) levels) ∧
    ∀ tokens, (ofSource source tabSize).allTokens = .ok tokens → Code .top tokens := by
  refine ⟨fun tokens l reached => ?_, fun tokens htokens => ?_⟩
  · obtain ⟨levels, on⟩ := (Passes.of_reaches reached).onLevels cut
    exact ⟨levels, on.unfinished⟩
  · obtain ⟨l, reached, before, marker, hsplit, hmarker, _⟩ := reaches_of_allTokens htokens
    obtain ⟨hfinished, hpending⟩ := reached.ended hsplit hmarker
    have passed := Passes.of_reaches reached
    obtain ⟨levels, depicts, unfinished, _⟩ := passed.onLevels cut
    obtain ⟨hmodes, hbrackets⟩ := passed.nothing_open hfinished
    rw [hmodes, hbrackets] at depicts
    rw [hpending, List.append_nil] at unfinished
    cases depicts
    cases unfinished with
    | top hcode => exact hcode

/-- Behind a slice in brackets the second colon splits the field. -/
theorem fields_split_at_colons_behind_slice :
    Cut (.ofString "f\"\x7ba[1:2]:\x7bb\x7d\x7d\"") ∧
      ∃ tokens, (ofSource (.ofString "f\"\x7ba[1:2]:\x7bb\x7d\x7d\"") 8).allTokens = .ok tokens ∧
        tokens.map (·.text) = ["f\"", "\x7b", "a", "[", "1", ":", "2", "]", ":", "\x7b", "b",
          "\x7d", "\x7d", "\"", "", ""] ∧
        Code .top tokens := by
  have cut : Cut (.ofString "f\"\x7ba[1:2]:\x7bb\x7d\x7d\"") := Source.cut_ofText _
  have htexts : ((ofSource (.ofString "f\"\x7ba[1:2]:\x7bb\x7d\x7d\"") 8).allTokens.toOption.map
      fun tokens => tokens.map (·.text)) = some ["f\"", "\x7b", "a", "[", "1", ":", "2", "]", ":",
        "\x7b", "b", "\x7d", "\x7d", "\"", "", ""] := by decide +kernel
  cases htokens : (ofSource (.ofString "f\"\x7ba[1:2]:\x7bb\x7d\x7d\"") 8).allTokens with
  | error e => simp [htokens, Except.toOption] at htexts
  | ok tokens =>
    refine ⟨cut, tokens, rfl, ?_, (fields_split_at_colons cut 8).2 tokens htokens⟩
    simpa [htokens, Except.toOption] using htexts

/-- A colon right before an equals sign splits nothing: the two are read as one operator. -/
theorem field_with_equals_unsplit :
    ((ofSource (.ofString "f\"\x7bx:=5\x7d\"\n") 8).allTokens.toOption.map fun tokens =>
      tokens.map fun t : Token => (t.kind, t.text)) =
      some [(.fstringStart, "f\""), (.op, "\x7b"), (.name, "x"), (.op, ":="), (.number, "5"),
        (.op, "\x7d"), (.fstringEnd, "\""), (.newline, "\n"), (.endMarker, "")] := by
  decide +kernel

end Lexer

end ShellSyntax
