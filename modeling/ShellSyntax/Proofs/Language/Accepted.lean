import ShellSyntax.Program
import ShellSyntax.Proofs.Language.Statements
import ShellSyntax.Proofs.Parser.Passes
import ShellSyntax.Proofs.Parser.Yields

/-!
What comes of programs. Parsing them ends, and remembering the results of rules changes nothing but
the time it takes. The trees of those that are accepted are what the entry rules match, and a
program is accepted if its first pass can be read.
-/

namespace ShellSyntax

open ShellSyntax.Language

theorem rules_distinguished : rules.Distinguishes :=
  fun _ _ => Rule.name_injective

/-- The rule that a whole source of this mode matches. -/
def ParseMode.entry : ParseMode → Rule
  | .exec => .program
  | .eval => .soleExpr

theorem ParseMode.isEntry_entry (mode : ParseMode) : ranking.isEntry mode.entry = true := by
  cases mode <;> rfl

namespace Program

/-- Parses the whole source, keeping the results of rules as `keep` says. -/
def parseWith (keep : Keeper rules) (mode : ParseMode) (s : ProgramSession) :
    Except SyntaxError Ast × ProgramSession :=
  match mode with
  | .exec =>
    let (result, s) := Parser.parseWith keep grammar .program s
    (result.map Ast.module, s)
  | .eval =>
    let (result, s) := Parser.parseWith keep grammar .soleExpr s
    (result.map Ast.expression, s)

theorem parse_eq (mode : ParseMode) (s : ProgramSession) :
    parse mode s = parseWith Parser.memoized mode s := by
  cases mode
  all_goals
    simp only [parse, parseWith, Parser.parse_eq]

/-- A parser at the start of a source, which may be a file. -/
def start (source : Source) (origin : Option Origin) (options : ParseOptions) : ProgramSession :=
  session (.ofLexer (.ofSource source options.tabSize) origin) options

theorem start_eq (source : Source) (origin : Option Origin) (options : ParseOptions) :
    start source origin options = .ofStream (.ofLexer (.ofSource source options.tabSize) origin)
      options.filename options.traceLimit :=
  rfl

/-- The parser that remembers results and the one that runs each rule anew yield the same tree or
the same error, unless one of them gives up because brackets are nested too deep. -/
theorem remembering_is_invisible (source : Source) (origin : Option Origin)
    (options : ParseOptions) :
    let s := start source origin options
    (parse options.mode s).1 = (parseWith Parser.unmemoized options.mode s).1 ∨
      TooDeep (parse options.mode s).1 ∨
      TooDeep (parseWith Parser.unmemoized options.mode s).1 := by
  have halike := fun entry (hentry : ranking.isEntry entry = true) =>
    parseWith_alike governs rules_distinguished
      (memoizedOr_faithful rules_distinguished Parser.failing Parser.failing) unmemoized_faithful
      hentry (TokenStream.fresh_ofLexer source options.tabSize origin) options.filename
      options.traceLimit
  simp only [parse_eq, start_eq, Parser.memoized_eq]
  cases options.mode with
  | exec =>
    rcases halike .program rfl with heq | hdeep | hdeep
    · exact .inl (congrArg (Except.map Ast.module) heq)
    · exact .inr (.inl hdeep.map)
    · exact .inr (.inr hdeep.map)
  | eval =>
    rcases halike .soleExpr rfl with heq | hdeep | hdeep
    · exact .inl (congrArg (Except.map Ast.expression) heq)
    · exact .inr (.inl hdeep.map)
    · exact .inr (.inr hdeep.map)

/-- Every loop over the tokens ends, and so do both passes; and it makes no difference what is done
where a rule is tried that is already being tried at the same mark: no rule ever is. -/
theorem parsing_ends_without_reentry (source : Source) (origin : Option Origin)
    (options : ParseOptions) :
    let s := start source origin options
    let entry := options.mode.entry
    (∀ n t, s.stream.filled n = .ok () t → t.tokens.size = n) ∧
      (∀ s', Parser.runRule grammar entry s ≠ .error .endless s') ∧
      (∀ found s', Parser.runRule grammar entry s = .ok found s' → ∀ s'',
        Parser.runRule grammar entry (Parser.secondPass s') ≠ .error .endless s'') ∧
      ∀ reentered, parseWith (Parser.memoizedOr reentered) options.mode s = parse options.mode s := by
  have fresh := TokenStream.fresh_ofLexer source options.tabSize origin
  have hentry := options.mode.isEntry_entry
  have hfaithful := memoizedOr_faithful (K := ranking) (G := grammar) rules_distinguished
  have hkeep := hfaithful Parser.failing Parser.failing
  have hrun : Parser.runRule grammar = Parser.runRuleWith Parser.memoized grammar := by
    funext entry
    simp only [Parser.runRule, Parser.runRuleWith, Parser.call_eq]
  simp only [hrun, parse_eq, start_eq, Parser.memoized_eq]
  refine ⟨fun n t hfilled => (fresh.filled hfilled).size,
    runRuleWith_ends governs rules_distinguished hkeep hentry fresh,
    fun found s' hfirst => runRuleWith_secondPass_ends governs rules_distinguished hkeep hentry
      fresh hfirst, fun reentered => ?_⟩
  have heq := fun entry (hentry : ranking.isEntry entry = true) =>
    parseWith_eq options.filename options.traceLimit governs rules_distinguished
      (hfaithful reentered Parser.failing) hentry fresh
  cases options.mode with
  | exec => simp only [parseWith, heq .program rfl]
  | eval => simp only [parseWith, heq .soleExpr rfl]

end Program

end ShellSyntax

namespace ShellSyntax

open ShellSyntax.Language

/-- The tree that a match of the entry rule is. -/
def ParseMode.tree : (mode : ParseMode) → mode.entry.Node → Ast
  | .exec, found => .module found
  | .eval, found => .expression found

namespace Program

variable {source : Source} {origin : Option Origin} {options : ParseOptions} {tree : Ast}
  {s : ProgramSession}

theorem parse_result (mode : ParseMode) (t : ProgramSession) : (parse mode t).1 =
    (Parser.parseWith Parser.memoized grammar mode.entry t).1.map mode.tree := by
  rw [parse_eq]
  cases mode <;> rfl

theorem parse_entry {mode : ParseMode} {t : ProgramSession}
    (hparse : parse mode t = (.ok tree, s)) :
    ∃ found, Parser.parse grammar mode.entry t = (.ok found, s) ∧ tree = mode.tree found := by
  cases mode with
  | exec =>
    simp only [parse] at hparse
    cases hrun : Parser.parse grammar Rule.program t with
    | mk result s' =>
      rw [hrun] at hparse
      cases result with
      | error e => simp [Except.map] at hparse
      | ok found =>
        simp only [Except.map, Prod.mk.injEq, Except.ok.injEq] at hparse
        obtain ⟨rfl, rfl⟩ := hparse
        exact ⟨found, hrun, rfl⟩
  | eval =>
    simp only [parse] at hparse
    cases hrun : Parser.parse grammar Rule.soleExpr t with
    | mk result s' =>
      rw [hrun] at hparse
      cases result with
      | error e => simp [Except.map] at hparse
      | ok found =>
        simp only [Except.map, Prod.mk.injEq, Except.ok.injEq] at hparse
        obtain ⟨rfl, rfl⟩ := hparse
        exact ⟨found, hrun, rfl⟩

theorem parse_of_entry {mode : ParseMode} {t : ProgramSession} {found : mode.entry.Node}
    (hrun : Parser.parse grammar mode.entry t = (.ok found, s)) :
    parse mode t = (.ok (mode.tree found), s) := by
  cases mode with
  | exec =>
    have hprogram : Parser.parse grammar Rule.program t = (.ok found, s) := hrun
    rw [parse, hprogram]
    rfl
  | eval =>
    have hsole : Parser.parse grammar Rule.soleExpr t = (.ok found, s) := hrun
    rw [parse, hsole]
    rfl

/-- What a program's first pass meets. -/
noncomputable def firstWorld (source : Source) (origin : Option Origin) (options : ParseOptions) :
    World :=
  (Pass.first _ (TokenStream.fresh_ofLexer source options.tabSize origin) options.filename).world

/-- A program is accepted if it can be read by rules that call each other deep enough. -/
theorem accepted_of_read (source : Source) (origin : Option Origin) (options : ParseOptions)
    (good : Module → Bool) (fuel : Nat)
    (hfuel : (firstWorld source origin options).bound * (rules.count + 1) ≤ fuel)
    (hread :
      let W := firstWorld source origin options
      (W.read (W.call grammar fuel) (grammar.body .program) 0).accepts good = true) :
    ∃ tree s, parse .exec (start source origin options) = (.ok (.module tree), s) ∧
      good tree = true := by
  have fresh := TokenStream.fresh_ofLexer source options.tabSize origin
  have hreading := Pass.reading_eq (p := Pass.first _ fresh options.filename) governs
    (show ranking.isEntry .program = true from rfl) hfuel
  have haccepts := (congrArg (Reading.accepts · good) hreading).trans hread
  obtain ⟨tree, s, hparse, hgood⟩ := parse_of_accepts options.filename options.traceLimit governs
    rules_distinguished rfl fresh haccepts
  refine ⟨tree, s, ?_, hgood⟩
  simp only [parse, start_eq, hparse, Except.map]

/-- A program is rejected if all that can be read of it, by rules that call each other deep enough,
is no match. -/
theorem rejected_of_read (source : Source) (origin : Option Origin) (options : ParseOptions)
    (fuel : Nat) (hfuel : (firstWorld source origin options).bound * (rules.count + 1) ≤ fuel)
    (hread :
      let W := firstWorld source origin options
      ((W.read (W.call grammar fuel) (grammar.body options.mode.entry) 0).result.toOption.bind
        Prod.fst).isNone = true) (tree : Ast) (s : ProgramSession) :
    parse options.mode (start source origin options) ≠ (.ok tree, s) := by
  have fresh := TokenStream.fresh_ofLexer source options.tabSize origin
  intro hparse
  obtain ⟨found, hrun, -⟩ := parse_entry hparse
  obtain ⟨_, j, hresult, _⟩ := parse_ok (K := ranking) governs rules_distinguished
    options.mode.isEntry_entry fresh hrun
  rw [Pass.reading_eq governs options.mode.isEntry_entry hfuel] at hresult
  have hsome := congrArg (fun result => (result.toOption.bind Prod.fst).isNone) hresult
  exact Bool.false_ne_true (hsome.symm.trans hread)

/-- What all rules keep to if the rules that they call do is so for the tree of an accepted
program. -/
theorem accepted_harvest {good : Harvest rules} (hgood : ∀ r, Offers good (body r) (good r))
    (hparse : parse options.mode (start source origin options) = (.ok tree, s)) :
    ∃ found, tree = options.mode.tree found ∧ good options.mode.entry found := by
  have fresh := TokenStream.fresh_ofLexer source options.tabSize origin
  obtain ⟨found, hrun, htree⟩ := parse_entry hparse
  obtain ⟨_, j, hresult, _⟩ := parse_ok (K := ranking) governs rules_distinguished
    options.mode.isEntry_entry fresh hrun
  refine ⟨found, htree, ?_⟩
  have hgrammar (W : World) :
      grammar.Leads W fun r _ found _ => ∀ node ∈ found, good r node :=
    ⟨fun _ _ => nofun, fun r i => hgood r W i⟩
  have hmatched := ((hgrammar _).body _ 0).read (fun r i => (hgrammar _).call _ r i) _ _ hresult
  exact hmatched found rfl

/-! ### Rules -/

/-- A pass over a program. -/
def pass (source : Source) (origin : Option Origin) (options : ParseOptions) (diagnosing : Bool) :
    Pass :=
  ⟨_, TokenStream.fresh_ofLexer source options.tabSize origin, options.filename, diagnosing⟩

/-- A rule matches at a token of a program if it can be read there by rules that call each other
deep enough. -/
theorem answer_of_read (source : Source) (origin : Option Origin) (options : ParseOptions)
    (r : Rule) (i : Nat) (good : r.Node → Nat → Bool) (fuel : Nat)
    (hentry : ranking.isEntry r = false)
    (hlimit : i ≤ (pass source origin options false).world.limit)
    (hfuel : (pass source origin options false).world.bound * (rules.count + 1) ≤ fuel)
    (hread :
      ((pass source origin options false).world.call grammar fuel r i).hits good = true) :
    ∃ found j,
      ((pass source origin options false).world.answer grammar ranking r i).result =
        .ok (some found, j) ∧
      ((pass source origin options false).world.answer grammar ranking r i).depth ≤
        Session.nestingLimit ∧
      good found j = true := by
  let p := pass source origin options false
  have hanswer : p.world.call grammar fuel r i = p.world.answer grammar ranking r i :=
    (World.call_meets governs hentry hlimit (Nat.le_trans (p.need_le (K := ranking) r i) hfuel)).1
  rw [← hanswer]
  exact Reading.of_hits hread

theorem match_of_read (source : Source) (origin : Option Origin) (options : ParseOptions)
    (r : Rule) (good : r.Node → Nat → Bool) (fuel : Nat) (hentry : ranking.isEntry r = false)
    (hfuel : (pass source origin options false).world.bound * (rules.count + 1) ≤ fuel)
    (hread :
      ((pass source origin options false).world.call grammar fuel r 0).hits good = true) :
    ∃ found s, (pass source origin options false).Calls ranking grammar r 0
        (start source origin options) ∧
      Parser.runRule grammar r (start source origin options) = .ok (some found) s ∧
      good found s.mark = true := by
  have hat : (pass source origin options false).At 0 0 0 (start source origin options) :=
    Pass.first_at
  obtain ⟨found, j, hresult, hdepth, hgood⟩ := answer_of_read source origin options r 0 good fuel
    hentry (Nat.zero_le _) hfuel hread
  obtain ⟨s, hrun, hmark⟩ := Pass.Calls.yields governs rules_distinguished hentry hat
    (Nat.zero_le _) rfl rfl hresult hdepth
  exact ⟨found, s, .fresh hat (Nat.zero_le _) rfl rfl, hrun, hmark ▸ hgood⟩

end Program

end ShellSyntax
