import ShellSyntax.Proofs.Language.Spans
import ShellSyntax.Proofs.Language.StatementBalance
import ShellSyntax.Proofs.Language.StatementDepths
import ShellSyntax.Proofs.Parser.Arrival
import ShellSyntax.Proofs.Parser.Messages

/-!
The limit on nested brackets. Inside the innermost brackets the parser may look for one more, and
counts it before it looks; so a source whose brackets stay below the limit is never too deep. Not
all brackets count, but with more of those that do a source is never accepted.
-/

namespace ShellSyntax

open ShellSyntax.Language

namespace TokenStream

variable {source : Source} {tabSize i n : Nat} {origin : Option Origin} {s t : TokenStream}
  {diagnosing : Bool}

/-- The brackets that are open in front of a place are those of the tokens before it. -/
theorem Filled.depthAt (filled : Filled s n t) (fresh : s.Fresh) (hi : i ≤ n) :
    (s.world fresh diagnosing).depthAt i = depthBehindAll 0 (t.tokens.toList.take i) := by
  induction i with
  | zero => rfl
  | succ i induction =>
    obtain ⟨token, htoken, hsupply⟩ := filled.supply hi
    have hworld : (s.world fresh diagnosing).token i = .ok token := hsupply
    have hfound : t.tokens.toList[i]? = some token := by
      rw [Array.getElem?_toList, htoken]
    rw [Feed.depthAt_succ hworld, induction (Nat.le_of_succ_le hi), List.take_add_one, hfound,
      Option.toList_some, depthBehindAll_concat]

/-- Nowhere in a stream are more brackets open than where most are open in its source. -/
theorem depthAt_le_deepest {raw : List Token}
    (hraw : (Lexer.ofSource source tabSize).allTokens = .ok raw)
    (fresh : (ofLexer (.ofSource source tabSize) origin).Fresh) (i : Nat) :
    ((ofLexer (.ofSource source tabSize) origin).world fresh diagnosing).depthAt i ≤
      deepest raw := by
  cases i with
  | zero => exact Nat.zero_le _
  | succ i =>
    cases htoken : ((ofLexer (.ofSource source tabSize) origin).world fresh diagnosing).token i with
    | error e =>
      rw [Feed.depthAt, htoken]
      exact Nat.zero_le _
    | ok token =>
      obtain ⟨t, hfilled, _⟩ := supplied htoken
      have filled := fresh.filled hfilled
      obtain ⟨handedOut, reached, htokens⟩ := (holds_filled hfilled).read
      have hlength : t.tokens.toList.length ≤ i + 1 := by
        rw [Array.length_toList, filled.size]
      rw [filled.depthAt fresh (Nat.le_refl _), List.take_of_length_le hlength, htokens,
        depthBehindAll_significant, ← reached.openBrackets_eq]
      exact reached.openBrackets_le_deepest hraw

end TokenStream

/-! ### Brackets that count -/

/-- Among the tokens is one that begins a statement which may have parentheses of its own. -/
def opensHead (tokens : List Token) : Bool :=
  tokens.any fun t => headKeywords.contains t.text

/-- Whether a bracket counts that opens inside others. It does not in the text of a command, around
a field of an f-string, or outermost where it may belong to a statement. -/
def isCounted (heads : Bool) (opener : Opener) (outer : List Opening) : Bool :=
  Opening.realm outer != .command && !(opener == .brace && Opening.inString outer) &&
    !(heads && opener == .paren && outer.isEmpty)

/-- How many of the brackets count that are open behind the tokens `before`. -/
def countedBrackets (heads : Bool) (before : List Token) : Nat :=
  Opening.weigh (isCounted heads) ((Opening.followAll [] before).getD [])

-- the parentheses around the argument of the command do not count
example :
    let tokens := (Lexer.ofSource (.ofString "f([$(ls (a))])\n") 8).tokens.1
    countedBrackets (opensHead tokens) (tokens.take 7) = 3 := by
  decide +kernel

namespace TokenStream

variable {source : Source} {tabSize k : Nat} {origin : Option Origin} {before : List Token}
  {marker : Token}

/-- In a stream that comes to its end, what is open behind the first tokens of the source is open
somewhere. -/
theorem openAt_of_prefix (fresh : (ofLexer (.ofSource source tabSize) origin).Fresh)
    (hmarker : (ofLexer (.ofSource source tabSize) origin).supply k = .ok marker)
    (hkind : marker.kind = .endMarker)
    (hbefore : before <+: (Lexer.ofSource source tabSize).tokens.1) (diagnosing : Bool) :
    ∃ i ≤ k + 1, Opening.followAll [] before =
      some (((ofLexer (.ofSource source tabSize) origin).world fresh diagnosing).openAt i) := by
  obtain ⟨t, hfilled, hfound⟩ := supplied hmarker
  have filled := fresh.filled hfilled
  obtain ⟨handedOut, reached, htokens⟩ := (holds_filled hfilled).read
  have hlast : marker ∈ handedOut := by
    have hmem : marker ∈ t.tokens.toList := Array.mem_toList_iff.mpr (Array.mem_of_getElem? hfound)
    rw [htokens] at hmem
    exact (significant_sublist handedOut).subset hmem
  have hall : before <+: handedOut := hbefore.trans (reached.tokens_prefix hlast hkind)
  obtain ⟨open_, hfollow, _⟩ := reached.foundInStep
  rw [Lexer.followAll_append, Option.bind_eq_some_iff] at hfollow
  obtain ⟨whole, hwhole, _⟩ := hfollow
  have hkept : Opening.followAll [] t.tokens.toList = some whole :=
    htokens ▸ Opening.followAll_significant hwhole
  have hshown : significant before <+: t.tokens.toList := htokens ▸ significant_mono hall
  have hlength : (significant before).length ≤ k + 1 := by
    rw [← filled.size, ← Array.length_toList]
    exact hshown.length_le
  have hopen := filled.openAt fresh diagnosing hkept hlength
  rw [← List.prefix_iff_eq_take.mp hshown] at hopen
  obtain ⟨rest, rfl⟩ := hall
  rw [Lexer.followAll_append, Option.bind_eq_some_iff] at hwhole
  obtain ⟨open_, hfirst, _⟩ := hwhole
  refine ⟨_, hlength, ?_⟩
  rw [hfirst, ← Opening.followAll_significant hfirst, hopen]

/-- The brackets in a stream, those counted that the limit counts. -/
noncomputable def countedWorld (source : Source) (tabSize : Nat) (origin : Option Origin) :
    TalliedWorld where
  toNestedWorld := nestedWorld source tabSize origin (fresh_ofLexer source tabSize origin) false
  counts := isCounted (opensHead (Lexer.ofSource source tabSize).tokens.1)
  most := Session.nestingLimit
  since := 0
  watched := True
  inCommand opener outer hrealm := by simp [isCounted, hrealm]
  inString outer hstring := by simp [isCounted, hstring]
  atHead i text htext spells := by
    obtain ⟨t, ht, hkind, rfl⟩ := spells
    obtain ⟨found, l, reached, hmem⟩ := supply_found ht
    have htokens := (reached.mem_tokens hmem).resolve_right fun hmarker => by
      simp [hmarker] at hkind
    have hheads : opensHead (Lexer.ofSource source tabSize).tokens.1 = true :=
      List.any_eq_true.mpr ⟨t, htokens, List.contains_iff_mem.mpr htext⟩
    simp [isCounted, hheads]
  undiagnosed _ := rfl
  whole _ := rfl

end TokenStream

theorem closes_of_entry {W : TalliedWorld} {n : W.Level} {mode : ParseMode}
    {found : mode.entry.Node} {i j : Nat} (h : closed W n mode.entry i (some found) j) :
    W.Closes (scope W n mode.entry) i j := by
  cases mode with
  | exec => exact h
  | eval => exact h

/-- A pass over a program, each of its levels leaving room for fewer brackets that count. -/
noncomputable def Program.countedPass (source : Source) (origin : Option Origin)
    (options : ParseOptions) :
    Guide rules (TokenStream.countedWorld source options.tabSize origin).Level where
  pass := pass source origin options false
  ranking := ranking
  pre := safe (TokenStream.countedWorld source options.tabSize origin)
  post := closed (TokenStream.countedWorld source options.tabSize origin)
  inside := (TokenStream.countedWorld source options.tabSize origin).inward
  depth n := Session.nestingLimit - n
  deeper := by
    rintro ⟨_ | n, hn⟩ hdepth
    · exact absurd hdepth (Nat.lt_irrefl _)
    · have hroom : n + 1 < Session.nestingLimit + 1 := hn
      refine ⟨_, rfl, ?_⟩
      dsimp only
      omega
  levelFree n m r i found j hsafe :=
    closed_at_level fun hclean _ => (hsafe trivial).resolve_left hclean

namespace Program

variable {source : Source} {options : ParseOptions} {tokens : List Token}

/-- A pass over a program counts at most one level more than brackets are open at once. -/
theorem reading_depth_le {origin : Option Origin} {diagnosing : Bool}
    (fresh : (TokenStream.ofLexer (.ofSource source options.tabSize) origin).Fresh)
    (htokens : (Lexer.ofSource source options.tabSize).allTokens = .ok tokens) :
    (Pass.reading ⟨_, fresh, options.filename, diagnosing⟩ grammar ranking
      options.mode.entry).depth ≤ deepest tokens + 1 := by
  let W := (TokenStream.ofLexer (.ofSource source options.tabSize) origin).world fresh diagnosing
  have hbelow (i : Nat) : W.depthAt i < deepest tokens + 1 :=
    Nat.lt_succ_of_le (TokenStream.depthAt_le_deepest htokens fresh i)
  have hshallow := grammar_nests.call hbelow (fresh.lettered (List.forall_mem_nil _))
    (W.bound * (rules.count + 1))
  have hbody := grammar_nests options.mode.entry _ _ 0 _ hshallow 0 (Nat.zero_le _)
  rw [Pass.reading_eq governs options.mode.isEntry_entry (Nat.le_refl _)]
  exact Nat.le_trans hbody.depth (Nat.sub_le _ _)

/-- A source that can be read to its end and has fewer brackets open at once than the limit says is
not nested too deep: it is accepted, or there is something else wrong with it. -/
theorem shallow_not_too_deep (source : Source) (origin : Option Origin) (options : ParseOptions)
    (htokens : (Lexer.ofSource source options.tabSize).allTokens = .ok tokens)
    (hshallow : deepest tokens < Session.nestingLimit) :
    ¬TooDeep (parse options.mode (start source origin options)).1 := by
  have fresh := TokenStream.fresh_ofLexer source options.tabSize origin
  rw [parse_result, start_eq, Parser.memoized_eq]
  intro hdeep
  have hfaithful := memoizedOr_faithful (K := ranking) (G := grammar) rules_distinguished
    Parser.failing Parser.failing
  have hreading := hdeep.of_map.reading governs rules_distinguished hfaithful
    options.mode.isEntry_entry fresh
  rcases hreading with hfirst | hsecond
  · have hdepth := Nat.lt_of_lt_of_le hfirst (reading_depth_le fresh htokens)
    omega
  · have hdepth := Nat.lt_of_lt_of_le hsecond (reading_depth_le fresh htokens)
    omega

/-- Brackets of expressions, of a command and in its arguments count alike. -/
theorem shallow_not_too_deep_of_command :
    ∃ tokens, (Lexer.ofSource (.ofString "f([$(ls (a))])\n") 8).allTokens = .ok tokens ∧
      deepest tokens = 4 ∧
      ¬TooDeep (parse .exec (start (.ofString "f([$(ls (a))])\n") none .default)).1 := by
  have hdeepest : (Lexer.ofSource (.ofString "f([$(ls (a))])\n") 8).allTokens.toOption.map deepest =
      some 4 := by decide +kernel
  cases htokens : (Lexer.ofSource (.ofString "f([$(ls (a))])\n") 8).allTokens with
  | error e => simp [htokens, Except.toOption] at hdeepest
  | ok tokens =>
    have hfour : deepest tokens = 4 := by simpa [htokens, Except.toOption] using hdeepest
    exact ⟨tokens, rfl, hfour, shallow_not_too_deep _ none .default htokens (hfour ▸ by decide)⟩

/-- In a source that is accepted no more brackets that count are ever open than the limit says. -/
theorem counted_le_limit {origin : Option Origin} {tree : Ast} {s : ProgramSession}
    (hparse : parse options.mode (start source origin options) = (.ok tree, s))
    {before : List Token}
    (hbefore : before <+: (Lexer.ofSource source options.tabSize).tokens.1) :
    countedBrackets (opensHead (Lexer.ofSource source options.tabSize).tokens.1) before ≤
      Session.nestingLimit := by
  let W := TokenStream.countedWorld source options.tabSize origin
  let outermost : W.Level := ⟨Session.nestingLimit, Nat.lt_succ_self _⟩
  obtain ⟨k, marker, hmarker, hkind, hmark, _⟩ := accepted_at hparse
  obtain ⟨found, hrun, rfl⟩ := parse_entry hparse
  have hscope : (scope W outermost options.mode.entry).holds [] := by
    cases options.mode with
    | exec => exact ⟨Nat.le_of_eq (Nat.zero_add _), rfl⟩
    | eval => exact ⟨Nat.le_of_eq (Nat.zero_add _), rfl⟩
  have hstart : (pass source origin options false).At 0 0 0 (start source origin options) :=
    Pass.first_at
  obtain ⟨n, j, _, hat, _, hclosed⟩ :=
    Guide.runRule_arrives (T := countedPass source origin options) (x := outermost) governs
      rules_distinguished (grammar_closed W) options.mode.isEntry_entry (fun _ => .inr hscope)
      hstart rfl _ _ (runRule_of_parse hrun)
  obtain rfl : j = k + 1 := hat.mark.symm.trans hmark
  have hcloses := closes_of_entry hclosed
  have hunstrayed : ¬W.Strayed 0 := fun ⟨_, _, hbefore, _⟩ => Nat.not_lt_zero _ hbefore
  have fresh := TokenStream.fresh_ofLexer source options.tabSize origin
  obtain ⟨i, hi, hopen⟩ := TokenStream.openAt_of_prefix fresh hmarker hkind hbefore false
  rcases hcloses.settled hunstrayed hscope with hclean | ⟨_, hmore⟩
  · have hmost := hclean.most i (Nat.zero_le i) hi
    rw [countedBrackets, hopen]
    exact hmost
  · have hended : W.openAt (k + 1) = [] := NestedWorld.openAt_marker hmarker hkind
    have hopened : (W.openAt 0).length < (W.openAt (k + 1)).length := hmore
    rw [hended] at hopened
    exact absurd hopened (Nat.not_lt_zero _)

/-- With more brackets open at once that count than the limit says, no source is accepted. -/
theorem too_deep_never_accepted (source : Source) (origin : Option Origin) (options : ParseOptions)
    {before : List Token}
    (hbefore : before <+: (Lexer.ofSource source options.tabSize).tokens.1)
    (hdeep : Session.nestingLimit <
      countedBrackets (opensHead (Lexer.ofSource source options.tabSize).tokens.1) before)
    (tree : Ast) (s : ProgramSession) :
    parse options.mode (start source origin options) ≠ (.ok tree, s) :=
  fun hparse => Nat.not_le_of_lt hdeep (counted_le_limit hparse hbefore)

end Program

end ShellSyntax
