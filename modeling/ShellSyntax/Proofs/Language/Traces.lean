import ShellSyntax.Proofs.Language.Accepted
import ShellSyntax.Proofs.Parser.Fates
import ShellSyntax.Proofs.Trace.Rules
import ShellSyntax.Proofs.Viewer.Place

/-!
What the parse of a program records and remembers. Recording changes nothing else, a shorter record
is the start of a longer one, and the events are bracketed. Each rule is run once at each mark where
it is needed, and its result is remembered; asked for it again, the parser answers from memory.
-/

namespace ShellSyntax

open ShellSyntax.Language TraceEvent

namespace Program

/-- Parses the whole source, recording as many events as the limit says. -/
def traced (source : Source) (origin : Option Origin) (options : ParseOptions)
    (limit : Option Nat) : Except SyntaxError Ast × ProgramSession :=
  parse options.mode (start source origin { options with traceLimit := limit })

/-- The parse found a tree, or no cause why there is none. -/
def Concluded (result : Except SyntaxError Ast) : Prop :=
  (∃ tree, result = .ok tree) ∨ ∃ error, result = .error error ∧ error.message = "invalid syntax"

variable {source : Source} {origin : Option Origin} {options : ParseOptions}

theorem onward_faithful :
    Faithful ranking grammar (Parser.memoizedOr Parser.failing) Parser.memoizedOnward :=
  fun _ => memoizedOnward_keeps governs rules_distinguished

theorem parse_onward (source : Source) (origin : Option Origin) (options : ParseOptions) :
    let s := start source origin options
    parse options.mode s =
      let (result, t) := Parser.parseWith Parser.memoizedOnward grammar options.mode.entry s
      (result.map options.mode.tree, t) := by
  have fresh := TokenStream.fresh_ofLexer source options.tabSize origin
  have heq := parseWith_eq options.filename options.traceLimit governs rules_distinguished
    onward_faithful options.mode.isEntry_entry fresh
  simp only [start_eq]
  rw [← heq, ← Parser.memoized_eq, parse_eq]
  cases options.mode <;> rfl

/-- The record of a program's parse: whatever the limit, these events are recorded up to it. -/
structure Record (source : Source) (origin : Option Origin) (options : ParseOptions)
    (events : List TraceEvent) : Prop where
  kept : ∀ limit, traced source origin options limit =
    withRecord (limit.map fun n => ⟨(events.take n).toArray, n, events.length - n⟩)
      (traced source origin options none)
  once : events.count .secondPass ≤ 1
  fits : (replayAll 0 [] events).isSome
  empty : Concluded (traced source origin options none).1 → replayAll 0 [] events = some []

theorem exists_record (source : Source) (origin : Option Origin) (options : ParseOptions) :
    ∃ events, Record source origin options events := by
  let entry := options.mode.entry
  let quiet := start source origin { options with traceLimit := none }
  obtain ⟨events, htranscript⟩ :=
    exists_transcript grammar entry (s := quiet) rfl
  have hrun (limit : Option Nat) : traced source origin options limit =
      let (result, t) := Parser.parseWith Parser.memoizedOnward grammar entry
        (quiet.withTrace (limit.map TraceLog.empty))
      (result.map options.mode.tree, t) :=
    parse_onward source origin { options with traceLimit := limit }
  refine ⟨events, fun limit => ?_, htranscript.once, htranscript.fits, fun hconcluded => ?_⟩
  · rw [hrun, hrun, htranscript.records, htranscript.records, Option.map_map, Option.map_none]
    cases limit with
    | none => rfl
    | some n =>
      simp only [Option.map_some, Function.comp_apply, TraceLog.pushAll_empty]
      rfl
  · refine htranscript.empty fun haborts => ?_
    obtain ⟨error, herror, hexplains⟩ := haborts.explains governs rules_distinguished
      onward_faithful options.mode.isEntry_entry
      (TokenStream.fresh_ofLexer source options.tabSize origin)
    have hinvalid : error.message ≠ "invalid syntax" :=
      hexplains.elim Explains.ne_invalid Explains.ne_invalid
    have hfailed : (traced source origin options none).1 = .error error :=
      (congrArg Prod.fst (hrun none)).trans (congrArg (Except.map options.mode.tree) herror)
    rw [hfailed] at hconcluded
    rcases hconcluded with ⟨tree, htree⟩ | ⟨_, hsame, hmessage⟩
    · cases htree
    · cases hsame
      exact hinvalid hmessage

/-- Recording changes neither the result nor anything in the state but the record itself. A record
with a lower limit holds the first events of one with a higher limit, and as many events are kept or
dropped. -/
theorem tracing_is_silent (source : Source) (origin : Option Origin) (options : ParseOptions) :
    let run := traced source origin options
    (∀ limit, (run limit).1 = (run none).1 ∧ (run limit).2.withTrace none = (run none).2) ∧
      ∀ limit more, ∃ kept longer, (run (some limit)).2.trace = some kept ∧
        (run (some (limit + more))).2.trace = some longer ∧
        kept.events.toList = longer.events.toList.take limit ∧
        kept.events.size + kept.dropped = longer.events.size + longer.dropped := by
  obtain ⟨events, hrecord⟩ := exists_record source origin options
  intro run
  have hquiet : (run none).2.withTrace none = (run none).2 :=
    (congrArg Prod.snd (hrecord.kept none)).symm
  refine ⟨fun limit => ?_, fun limit more => ?_⟩
  · have hkept : run limit = _ := hrecord.kept limit
    rw [hkept]
    exact ⟨rfl, hquiet⟩
  · have hkept (n : Nat) : (run (some n)).2.trace =
        some ⟨(events.take n).toArray, n, events.length - n⟩ :=
      congrArg (fun outcome => outcome.2.trace) (hrecord.kept (some n))
    refine ⟨_, _, hkept limit, hkept (limit + more), ?_, ?_⟩
    · simp only [List.take_take]
      rw [Nat.min_eq_left (Nat.le_add_right _ _)]
    · simp only [List.size_toArray, List.length_take]
      omega

/-- There is a sequence of events that every record holds up to its limit. They can be replayed: a
rule that is left is the one that was entered last, matched onward or failed where it started, and
its longest match got further with each note on it. The diagnosing pass starts once at most, and no
rule is being tried then, nor where the parse ends with a tree or without a cause. In a record of
these events and in each of its prefixes the viewer finds the exit of a rule where it is popped. -/
theorem traces_bracketed (source : Source) (origin : Option Origin) (options : ParseOptions) :
    ∃ events : List TraceEvent,
      (∀ limit, (traced source origin options (some limit)).2.trace =
        some ⟨(events.take limit).toArray, limit, events.length - limit⟩) ∧
      (replayAll 0 [] events).isSome ∧ events.count .secondPass ≤ 1 ∧
      (Concluded (parse options.mode (start source origin options)).1 →
        replayAll 0 [] events = some []) ∧
      ∀ r : Viewer.Replay, r.log.events.toList <+: events → ∀ i j,
        r.matchingExit? i = some j ↔ Pops r.log.events.toList i j := by
  obtain ⟨events, hrecord⟩ := exists_record source origin options
  refine ⟨events, fun limit => ?_, hrecord.fits, hrecord.once, fun hconcluded => ?_,
    fun r hwithin i j => ?_⟩
  · exact congrArg (fun outcome => outcome.2.trace) (hrecord.kept (some limit))
  · have hsame : parse options.mode (start source origin options) = _ :=
      hrecord.kept options.traceLimit
    rw [hsame] at hconcluded
    exact hrecord.empty hconcluded
  · exact Viewer.Replay.matchingExit?_eq_some_iff (replayAll_first hwithin hrecord.fits)

end Program

/-! ### Answers from memory -/

section Answers

variable {R : RuleSet} {G : Grammar R} {s : Session R} {key : String × Mark}
  {entry : Remembered R}

/-- Run again at its mark, the rule of an entry is answered with it. Nothing is read, and nothing
else happens to the session than that the hit is counted and noted. -/
structure Answers (G : Grammar R) (s : Session R) (key : String × Mark) (entry : Remembered R) :
    Prop where
  name : R.name entry.rule = key.1
  run : ∃ t, Parser.runRule G entry.rule (s.reset key.2) = .ok entry.node t ∧
    t.mark = entry.stop ∧ t.stream = s.stream.reset entry.stop ∧ t.memo = s.memo ∧
    t.stats = { s.stats with hits := s.stats.hits + 1 }

theorem Session.Tidy.answers (htidy : s.Tidy) (hentry : s.memo[key]? = some entry) :
    Answers G s key entry := by
  obtain ⟨hname, hpolicy, -⟩ := htidy key entry hentry
  have hremembered : (s.reset key.2).memo[(R.name entry.rule, key.2)]? = some entry := by
    rw [hname]
    exact hentry
  exact ⟨hname, _, runRule_recalled (s := s.reset key.2) hpolicy hremembered, rfl, rfl, rfl, rfl⟩

theorem parse_of_runRule {r : R.Rule} {found : R.Node r} {t : Session R}
    (h : Parser.runRule G r s = .ok (some found) t) : Parser.parse G r s = (.ok found, t) := by
  unfold Parser.parse
  rw [h]

end Answers

namespace Program

variable {source : Source} {origin : Option Origin} {options : ParseOptions} {tree : Ast}
  {s : ProgramSession}

theorem parse_session (mode : ParseMode) (t : ProgramSession) :
    (parse mode t).2 = (Parser.parse grammar mode.entry t).2 := by
  cases mode <;> rfl

theorem start_reached : (start source origin options).Reached :=
  .new _ _ _

theorem start_idle (key : String × Mark) : key ∉ (start source origin options).active :=
  Std.HashSet.not_mem_empty

theorem start_fresh (key : String × Mark) : key ∉ (start source origin options).memo :=
  Std.HashMap.not_mem_empty

/-- Every record of an accepted program holds the events of the run of its entry rule. -/
theorem recorded_events {events : List TraceEvent}
    (hrecords : Records (Parser.runRule grammar options.mode.entry) (start source origin options)
      events)
    {found : options.mode.entry.Node}
    (hrun : Parser.runRule grammar options.mode.entry (start source origin options) =
      .ok (some found) s) (limit : Nat) :
    (traced source origin options (some limit)).2.trace =
      some ⟨(events.take limit).toArray, limit, events.length - limit⟩ := by
  have hlimited := hrecords (some (.empty limit))
  rw [hrun, Option.map_some, TraceLog.pushAll_empty] at hlimited
  have htraced : (traced source origin options (some limit)).2 =
      (Parser.parse grammar options.mode.entry
        ((start source origin options).withTrace (some (.empty limit)))).2 :=
    parse_session options.mode _
  rw [htraced, parse_of_runRule hlimited]
  rfl

/-- Where a program is accepted, the parser has missed a result in its memory once for each result
that is there now: each of these was found by one run of its rule, and no other rule was run. Asked
for it again at its mark, the rule answers with the result, and nothing is read or remembered. -/
theorem memo_accounts (hparse : parse options.mode (start source origin options) = (.ok tree, s)) :
    s.stats.misses = s.memo.size ∧
      (∃ events : List TraceEvent,
        (∀ limit, (traced source origin options (some limit)).2.trace =
          some ⟨(events.take limit).toArray, limit, events.length - limit⟩) ∧
        ∀ key, events.countP (enters key) = if key ∈ s.memo then 1 else 0) ∧
      ∀ key entry, s.memo[key]? = some entry → Answers grammar s key entry := by
  obtain ⟨found, hentry, -⟩ := parse_entry hparse
  have hrun := runRule_of_parse hentry
  obtain ⟨events, hrecords, hcourse⟩ :=
    runRule_proceeds grammar options.mode.entry (start source origin options)
  rw [hrun] at hcourse
  have hnames := rules_distinguished.uniform
  have hready : (start source origin options).Ready none := .of_idle start_idle
  have hsize := hcourse.memo_size hnames hready rfl
  have hmisses := hcourse.misses
  refine ⟨?_, ⟨events, recorded_events hrecords hrun, fun key => ?_⟩, fun key entry hentry => ?_⟩
  · exact hmisses.trans hsize.symm
  · exact (hcourse.fate hnames hready key).countP_enters (start_fresh key)
  · exact (hcourse.tidy start_reached.tidy nofun).answers hentry

/-- The accounts of the program that is a call. -/
theorem memo_accounts_of_call :
    ∃ tree s, parse .exec (start (.ofString "f(x)\n") none .default) = (.ok tree, s) ∧
      s.stats.misses = s.memo.size := by
  obtain ⟨tree, s, hparse, -⟩ := accepted_of_read (.ofString "f(x)\n") none .default
    (fun _ => true) 5000 (by decide +kernel) (by decide +kernel)
  have haccepted : parse ParseOptions.default.mode (start (.ofString "f(x)\n") none .default) =
      (.ok (.module tree), s) := hparse
  exact ⟨.module tree, s, hparse, (memo_accounts haccepted).1⟩

end Program

end ShellSyntax
