import ShellSyntax.Proofs.Parser.Answer
import ShellSyntax.Proofs.Parser.Supply

/-!
Runs of a parser agree with readings. The parser goes where the reading goes, with a stream that
has kept the tokens looked at so far, and what it remembers are answers. It only gives up where
brackets are nested too deep.
-/

namespace ShellSyntax

open Outcome

variable {R : RuleSet}

/-! ### Parsers in a pass -/

/-- One of the two passes over a source. -/
structure Pass where
  base : TokenStream
  fresh : base.Fresh
  filename : String
  diagnosing : Bool

namespace Pass

noncomputable def world (p : Pass) : World :=
  p.base.world p.fresh p.diagnosing

/-- A parser at `i`, whose stream has kept `n` tokens, `depth` brackets deep. -/
structure Locates (p : Pass) (depth n i : Nat) (stream : TokenStream) (filename : String)
    (diagnosing : Bool) (nesting : Nat) : Prop where
  stream : ∃ t reads, p.base.filled n = .ok () t ∧ stream = t.placed i reads
  le : i ≤ n
  filename : filename = p.filename
  diagnosing : diagnosing = p.diagnosing
  nesting : nesting = depth

def At (p : Pass) (depth n i : Nat) (s : Session R) : Prop :=
  p.Locates depth n i s.stream s.filename s.diagnosing s.nesting

/-- The lexer has failed behind the `n`th token. -/
def StuckAt (p : Pass) (e : LexError) (n : Nat) (s : Session R) : Prop :=
  s.filename = p.filename ∧
    ∃ t i reads, p.base.filled (n + 1) = .error e t ∧ s.stream = t.placed i reads

end Pass

/-- The rules that are being tried: those that grow, with their longest matches, and others. -/
structure Tried (R : RuleSet) where
  seed : (r : R.Rule) → Nat → Option (Option (R.Node r) × Nat)
  busy : R.Rule → Nat → Prop

namespace Tried

def none : Tried R :=
  ⟨fun _ _ => .none, fun _ _ => False⟩

def enter (o : Tried R) (r : R.Rule) (i : Nat) : Tried R :=
  { o with busy := fun r' j => o.busy r' j ∨ r' = r ∧ j = i }

def grow (o : Tried R) (r : R.Rule) (i : Nat) (best : Option (R.Node r) × Nat) : Tried R :=
  { o with
    seed := fun r' j => if h : r = r' then if j = i then some (h ▸ best) else o.seed r' j
      else o.seed r' j }

/-- Every rule that is being tried started before, or at the same place with a higher rank. -/
def Clear (K : Ranking R) (o : Tried R) (r : R.Rule) (i : Nat) : Prop :=
  ∀ r' j, (o.seed r' j ≠ .none ∨ o.busy r' j) → j < i ∨ j = i ∧ K.rank r < K.rank r'

variable {K : Ranking R} {o : Tried R} {r r' : R.Rule} {i j : Nat}

theorem Clear.seed_none (h : o.Clear K r i) : o.seed r i = .none := by
  refine Classical.byContradiction fun hseed => ?_
  rcases h r i (.inl hseed) with hlt | ⟨_, hlt⟩
  · exact Nat.lt_irrefl _ hlt
  · exact Nat.lt_irrefl _ hlt

theorem Clear.not_busy (h : o.Clear K r i) : ¬o.busy r i := by
  intro hbusy
  rcases h r i (.inr hbusy) with hlt | ⟨_, hlt⟩
  · exact Nat.lt_irrefl _ hlt
  · exact Nat.lt_irrefl _ hlt

theorem Clear.inside {W : World} (h : o.Clear K r i) (hinside : K.Inside W r i r' j) :
    o.Clear K r' j := by
  intro r₀ j₀ htried
  have hold := h r₀ j₀ htried
  rcases hinside.2.2 with hlt | ⟨rfl, hrank⟩
  · left
    omega
  · rcases hold with hlt | ⟨rfl, hhigher⟩
    · exact .inl hlt
    · exact .inr ⟨rfl, Nat.lt_trans hrank hhigher⟩

end Tried

/-- What a parser remembers are answers, but for the matches that still grow; and it is trying no
other rules than `o` says. -/
structure Remembers (answers : Callee R) (o : Tried R) (n : Nat)
    (memo : Std.HashMap (String × Mark) (Remembered R)) (active : Std.HashSet (String × Mark)) :
    Prop where
  seed : ∀ r i best, o.seed r i = some best →
    memo[(R.name r, i)]? = some ⟨r, best.1, best.2⟩ ∧ best.2 ≤ n
  memo : ∀ r i entry, memo[(R.name r, i)]? = some entry → o.seed r i = none →
    ∃ node stop, entry = ⟨r, node, stop⟩ ∧ (answers r i).result = .ok (node, stop) ∧
      (answers r i).reach ≤ n ∧ stop ≤ n
  active : ∀ r i, (R.name r, i) ∈ active → o.busy r i

theorem Remembers.mono {answers : Callee R} {o : Tried R} {n n' : Nat}
    {memo : Std.HashMap (String × Mark) (Remembered R)} {active : Std.HashSet (String × Mark)}
    (h : Remembers answers o n memo active) (hle : n ≤ n') :
    Remembers answers o n' memo active where
  seed r i best hbest := ⟨(h.seed r i best hbest).1, Nat.le_trans (h.seed r i best hbest).2 hle⟩
  memo r i entry hentry hseed := by
    obtain ⟨node, stop, heq, hresult, hreach, hstop⟩ := h.memo r i entry hentry hseed
    exact ⟨node, stop, heq, hresult, Nat.le_trans hreach hle, Nat.le_trans hstop hle⟩
  active := h.active

namespace Session

def pastToken (s : Session R) : Session R :=
  { s with stream := s.stream.placed (s.stream.index + 1) (s.stream.reads + 1) }

/-! ### Errors -/

/-- The error that a fault is reported as, when this is the stream. -/
def faultAt (R : RuleSet) (stream : TokenStream) (filename : String) (fault : Fault) :
    SyntaxError :=
  ((ofStream stream filename none : Session R).syntaxError fault).1

theorem syntaxError_eq (s : Session R) (fault : Fault) :
    (s.syntaxError fault).1 = faultAt R s.stream s.filename fault :=
  rfl

theorem faultAt_placed (t : TokenStream) (i r : Nat) (filename : String) (fault : Fault) :
    faultAt R (t.placed i r) filename fault = faultAt R t filename fault := by
  cases hplace : fault.place <;> simp [faultAt, syntaxError, faultRange, line, ofStream,
    TokenStream.line, TokenStream.lines, TokenStream.placed, hplace, TokenStream.furthest]

end Session

/-! ### Agreement -/

/-- What the parser says where brackets are nested too deep. -/
def tooDeepMessage : String := "too many nested parentheses"

/-- Two runs from a stream that has kept `n` tokens do the same, namely what the reading says. -/
inductive Agrees (p : Pass) (answers : Callee R) (o : Tried R) (depth n : Nat) {α : Type}
    (reading : Reading α) :
    EStateM.Result Abort (Session R) α → EStateM.Result Abort (Session R) α → Prop
  | ok {a : α} {j : Nat} {s : Session R} (hresult : reading.result = .ok (a, j))
      (hat : p.At depth (max n reading.reach) j s)
      (hremembers : Remembers answers o (max n reading.reach) s.memo s.active) :
      Agrees p answers o depth n reading (.ok a s) (.ok a s)
  | lexical {e : LexError} {s : Session R} (hresult : reading.result = .error (.lexical e))
      (hstuck : p.StuckAt e (max n reading.reach) s) :
      Agrees p answers o depth n reading (.error (.lexical e) s) (.error (.lexical e) s)
  | fault {fault : Fault} {t : TokenStream} {s : Session R}
      (hresult : reading.result = .error (.fault fault))
      (hfilled : p.base.filled (max n reading.reach) = .ok () t) :
      Agrees p answers o depth n reading
        (.error (.syntactic (Session.faultAt R t p.filename fault)) s)
        (.error (.syntactic (Session.faultAt R t p.filename fault)) s)
  | tooDeep {error : SyntaxError} {s : Session R} (hmessage : error.message = tooDeepMessage)
      (hdepth : Session.nestingLimit < depth + reading.depth) :
      Agrees p answers o depth n reading (.error (.syntactic error) s)
        (.error (.syntactic error) s)
  | endless {run run' : EStateM.Result Abort (Session R) α}
      (hresult : reading.result = .error .endless) : Agrees p answers o depth n reading run run'

variable {p : Pass} {answers : Callee R} {o : Tried R} {depth n i : Nat} {α β σ : Type}
  {K : Ranking R} {b : Base}

/-- Goes on from where a run ended. -/
def follow (run : EStateM.Result Abort (Session R) α) (next : α → Parse R β) :
    EStateM.Result Abort (Session R) β :=
  match run with
  | .ok a s => next a s
  | .error e s => .error e s

def onError (cleanup : Session R → Session R) (run : EStateM.Result Abort (Session R) α) :
    EStateM.Result Abort (Session R) α :=
  match run with
  | .ok a s => .ok a s
  | .error e s => .error e (cleanup s)

namespace Agrees

variable {reading reading' : Reading α} {run run' : EStateM.Result Abort (Session R) α}

theorem widen {n' : Nat} (h : Agrees p answers o depth n' reading run run')
    (hresult : reading'.result = reading.result)
    (hreach : max n reading'.reach = max n' reading.reach)
    (hdepth : reading.depth ≤ reading'.depth) :
    Agrees p answers o depth n reading' run run' := by
  cases h with
  | ok hfound hat hremembers =>
    exact .ok (hresult.trans hfound) (hreach ▸ hat) (hreach ▸ hremembers)
  | lexical hfailed hstuck => exact .lexical (hresult.trans hfailed) (hreach ▸ hstuck)
  | fault hfailed hfilled => exact .fault (hresult.trans hfailed) (hreach ▸ hfilled)
  | tooDeep hmessage hlimit =>
    exact .tooDeep hmessage (Nat.lt_of_lt_of_le hlimit (Nat.add_le_add_left hdepth depth))
  | endless hfailed => exact .endless (hresult.trans hfailed)

theorem andThen {o' : Tried R} {f : α → Nat → Reading β} {k k' : α → Parse R β}
    (h : Agrees p answers o' depth n reading run run')
    (hnext : ∀ a j s, reading.result = .ok (a, j) → p.At depth (max n reading.reach) j s →
      Remembers answers o' (max n reading.reach) s.memo s.active →
      Agrees p answers o depth (max n reading.reach) (f a j) (k a s) (k' a s)) :
    Agrees p answers o depth n (reading.andThen f) (follow run k) (follow run' k') := by
  cases h with
  | @ok a j s hresult hat hremembers =>
    refine (hnext a j s hresult hat hremembers).widen ?_ ?_ ?_
    · simp only [Reading.andThen, hresult]
    · simp only [Reading.andThen, hresult, Nat.max_assoc]
    · simp only [Reading.andThen, hresult]
      exact Nat.le_max_right _ _
  | lexical hresult hstuck =>
    refine .lexical ?_ ?_
    · simp only [Reading.andThen, hresult]
    · simpa only [Reading.andThen, hresult] using hstuck
  | @fault fault t s hresult hfilled =>
    refine .fault ?_ ?_
    · simp only [Reading.andThen, hresult]
    · simpa only [Reading.andThen, hresult] using hfilled
  | tooDeep hmessage hlimit =>
    refine .tooDeep hmessage (Nat.lt_of_lt_of_le hlimit (Nat.add_le_add_left ?_ depth))
    unfold Reading.andThen
    split
    · exact Nat.le_refl _
    · exact Nat.le_max_left _ _
  | endless hresult =>
    refine .endless ?_
    simp only [Reading.andThen, hresult]

theorem onError {cleanup : Session R → Session R} (h : Agrees p answers o depth n reading run run')
    (hstream : ∀ s, (cleanup s).stream = s.stream) (hname : ∀ s, (cleanup s).filename = s.filename) :
    Agrees p answers o depth n reading (onError cleanup run) (onError cleanup run') := by
  cases h with
  | ok hresult hat hremembers => exact .ok hresult hat hremembers
  | @lexical e s hresult hstuck =>
    exact .lexical hresult ⟨(hname s).trans hstuck.1, (hstream s).symm ▸ hstuck.2⟩
  | fault hresult hfilled => exact .fault hresult hfilled
  | tooDeep hmessage hlimit => exact .tooDeep hmessage hlimit
  | endless hresult => exact .endless hresult

end Agrees

theorem Agrees.of_pure {a : α} {s : Session R} (hat : p.At depth n i s)
    (hremembers : Remembers answers o n s.memo s.active) :
    Agrees p answers o depth n (.pure a i) (.ok a s) (.ok a s) := by
  refine .ok rfl ?_ ?_
  · rwa [show max n (Reading.pure a i).reach = n from Nat.max_zero n]
  · rwa [show max n (Reading.pure a i).reach = n from Nat.max_zero n]

/-! ### Steps -/

theorem look_agrees {s : Session R} (hat : p.At depth n i s)
    (hremembers : Remembers answers o n s.memo s.active) :
    Agrees p answers o depth n (p.world.look i) (Session.read TokenStream.peek s)
      (Session.read TokenStream.peek s) := by
  obtain ⟨t, reads, hfilled, hstream⟩ := hat.stream
  unfold Session.read World.look
  rw [hstream]
  cases htoken : p.world.token i with
  | ok token =>
    obtain ⟨t', hfilled', hpeek⟩ := p.fresh.peek_ok hfilled hat.le (r := reads) htoken
    rw [hpeek]
    refine .ok rfl ⟨⟨t', reads, hfilled', rfl⟩, ?_, hat.filename, hat.diagnosing, hat.nesting⟩
      (hremembers.mono (Nat.le_max_left _ _))
    exact Nat.le_trans hat.le (Nat.le_max_left _ _)
  | error e =>
    obtain ⟨rfl, t', hfilled', hpeek⟩ := p.fresh.peek_error hfilled hat.le (r := reads) htoken
    rw [hpeek]
    refine .lexical rfl ⟨hat.filename, t', n, reads, ?_, rfl⟩
    rwa [show max n n = n from Nat.max_self n]

theorem next_agrees {s : Session R} (hat : p.At depth n i s)
    (hremembers : Remembers answers o n s.memo s.active) :
    Agrees p answers o depth n (p.world.perform .next i) (Session.perform .next s)
      (Session.perform .next s) := by
  have hrun : Session.perform .next s = follow (Session.read TokenStream.peek s)
      fun token s => .ok token s.pastToken := by
    simp only [Session.perform, Session.read, TokenStream.next, run_bind]
    cases TokenStream.peek s.stream with
    | ok token stream => rfl
    | error e stream => rfl
  rw [hrun]
  refine (look_agrees hat hremembers).andThen fun token j s' hresult hat' hremembers' => ?_
  obtain ⟨t', reads', hfilled', hstream'⟩ := hat'.stream
  have hindex : s'.stream.index = j := by
    rw [hstream']
    rfl
  refine .of_pure ⟨⟨t', s'.stream.reads + 1, hfilled', ?_⟩, ?_, hat'.filename, hat'.diagnosing,
    hat'.nesting⟩ hremembers'
  · rw [Session.pastToken, hindex, hstream']
    rfl
  · unfold World.look at hresult ⊢
    cases htoken : p.world.token i with
    | ok token' =>
      simp only [htoken, Except.ok.injEq, Prod.mk.injEq] at hresult ⊢
      omega
    | error e => simp [htoken] at hresult

theorem perform_agrees {action : Action β} {Q : β → Nat → Prop} {s : Session R}
    (h : p.world.Performs b action i Q) (hreached : b.reached ≤ n) (hat : p.At depth n i s)
    (hremembers : Remembers answers o n s.memo s.active) :
    Agrees p answers o depth n (p.world.perform action i) (Session.perform action s)
      (Session.perform action s) := by
  obtain ⟨t, reads, hfilled, hstream⟩ := hat.stream
  cases action with
  | mark =>
    have hmark : s.mark = i := by
      rw [Session.mark, hstream]
      rfl
    have hrun : Session.perform .mark s = .ok i s := by
      rw [← hmark]
      rfl
    rw [hrun]
    exact .of_pure hat hremembers
  | reset mark =>
    refine .of_pure (s := s.reset mark) ⟨⟨t, reads, hfilled, ?_⟩, Nat.le_trans h.2.1 hreached,
      hat.filename, hat.diagnosing, hat.nesting⟩ hremembers
    simp only [Session.reset, hstream]
    rfl
  | peek => exact look_agrees hat hremembers
  | next => exact next_agrees hat hremembers
  | spanSince mark =>
    have hspan : s.spanSince mark = p.world.spanSince mark i := by
      obtain ⟨token, htoken, hstart⟩ :
          ∃ token, t.tokens[mark]? = some token ∧ p.world.startOf mark = token.start :=
        p.fresh.startOf hfilled (Nat.lt_of_lt_of_le h.1 hat.le)
      have hlast : (t.placed i reads).lastToken? = p.world.lastToken? i :=
        p.fresh.lastToken? hfilled hat.le
      rw [Session.spanSince, hstream, Feed.spanSince, hlast, hstart]
      simp only [TokenStream.placed, htoken]
    have hrun : Session.perform (.spanSince mark) s = .ok (p.world.spanSince mark i) s := by
      rw [← hspan]
      rfl
    rw [hrun]
    exact .of_pure hat hremembers
  | lastToken? =>
    have hlast : s.stream.lastToken? = p.world.lastToken? i := by
      rw [hstream]
      exact p.fresh.lastToken? hfilled hat.le
    have hrun : Session.perform .lastToken? s = .ok (p.world.lastToken? i) s := by
      rw [← hlast]
      rfl
    rw [hrun]
    exact .of_pure hat hremembers
  | isDiagnosing =>
    have hrun : Session.perform .isDiagnosing s = .ok p.diagnosing s := by
      rw [← hat.diagnosing]
      rfl
    rw [hrun]
    exact .of_pure hat hremembers
  | fail fault =>
    have hrun : Session.perform (.fail fault) s =
        .error (.syntactic (Session.faultAt R t p.filename fault)) (s.syntaxError fault).2 := by
      rw [← Session.faultAt_placed t i reads, ← hstream, ← hat.filename, ← Session.syntaxError_eq]
      rfl
    rw [hrun]
    refine .fault rfl ?_
    rwa [show max n (p.world.perform (.fail fault) i).reach = n from Nat.max_zero n]

/-! ### Matchers -/

theorem Reading.Meets.of_ok {W : World} {reading : Reading α} {Q : α → Nat → Prop} {a : α}
    {j : Nat} (h : reading.Meets W i Q) (hresult : reading.result = .ok (a, j)) :
    Q a j ∧ j ≤ W.limit := by
  unfold Meets at h
  simp only [hresult] at h
  exact ⟨h.1, h.2.1⟩

theorem Matcher.LooksFirst.read {W : World} {callee : Callee R} {m : Matcher R α} {e : LexError}
    (h : m.LooksFirst i) (htoken : W.token i = .error e) :
    W.read callee m i = ⟨i, 0, .error (.lexical e)⟩ := by
  induction m with
  | act action next ih =>
    cases action with
    | mark =>
      simp only [World.read, World.perform, Reading.pure_andThen]
      exact ih i h
    | peek => simp only [World.read, World.perform, World.look, htoken, Reading.andThen]
    | _ => exact h.elim
  | _ => exact h.elim

theorem tooDeep_agrees {reading : Reading β} {s : Session R}
    (hdeep : Session.nestingLimit < depth + reading.depth)
    (hknown : (∃ t, p.world.token i = .ok t) ∨
      ∃ e, p.world.token i = .error e ∧ reading.reach = i ∧
        reading.result = .error (.lexical e))
    (hat : p.At depth n i s) :
    Agrees p answers o depth n reading (Parser.tooDeep s) (Parser.tooDeep s) := by
  obtain ⟨t, reads, hfilled, hstream⟩ := hat.stream
  simp only [Parser.tooDeep, run_bind, Session.read, hstream]
  rcases hknown with ⟨token, htoken⟩ | ⟨e, htoken, hreach, hresult⟩
  · obtain ⟨t', _, hpeek⟩ := p.fresh.peek_ok hfilled hat.le (r := reads) htoken
    simp only [hpeek]
    exact .tooDeep rfl hdeep
  · obtain ⟨rfl, t', hfilled', hpeek⟩ := p.fresh.peek_error hfilled hat.le (r := reads) htoken
    simp only [hpeek]
    refine .lexical hresult ⟨hat.filename, t', n, reads, ?_, rfl⟩
    rwa [hreach, Nat.max_self]

theorem nest_deep {inner : Parse R β} {s : Session R} (h : Session.nestingLimit ≤ s.nesting) :
    Parser.nest inner s = Parser.tooDeep s :=
  congrFun (if_pos h) s

theorem nest_within {inner : Parse R β} {s : Session R} (h : ¬Session.nestingLimit ≤ s.nesting) :
    Parser.nest inner s =
      match inner { s with nesting := s.nesting + 1 } with
      | .ok value s => .ok value { s with nesting := s.nesting - 1 }
      | .error e s => .error e { s with nesting := s.nesting - 1 } :=
  congrFun (if_neg h) s

theorem nest_agrees {reading : Reading β} {inner inner' : Parse R β} {s : Session R}
    (hknown : (∃ t, p.world.token i = .ok t) ∨
      ∃ e, p.world.token i = .error e ∧ reading.reach = i ∧
        reading.result = .error (.lexical e))
    (hat : p.At depth n i s) (hremembers : Remembers answers o n s.memo s.active)
    (h : ∀ s, p.At (depth + 1) n i s → Remembers answers o n s.memo s.active →
      Agrees p answers o (depth + 1) n reading (inner s) (inner' s)) :
    Agrees p answers o depth n reading.deepen (Parser.nest inner s) (Parser.nest inner' s) := by
  have hnesting := hat.nesting
  by_cases hdeep : Session.nestingLimit ≤ s.nesting
  · rw [nest_deep hdeep, nest_deep hdeep]
    refine tooDeep_agrees ?_ hknown hat
    simp only [Reading.deepen]
    omega
  · rw [nest_within hdeep, nest_within hdeep]
    have hinner := h { s with nesting := s.nesting + 1 }
      ⟨hat.stream, hat.le, hat.filename, hat.diagnosing, by simp only [hnesting]⟩ hremembers
    revert hinner
    generalize inner { s with nesting := s.nesting + 1 } = run
    generalize inner' { s with nesting := s.nesting + 1 } = run'
    intro hinner
    cases hinner with
    | ok hresult hat' hremembers' =>
      refine .ok hresult ⟨hat'.stream, hat'.le, hat'.filename, hat'.diagnosing, ?_⟩ hremembers'
      simp only [hat'.nesting, Nat.add_sub_cancel]
    | lexical hresult hstuck => exact .lexical hresult hstuck
    | fault hresult hfilled => exact .fault hresult hfilled
    | tooDeep hmessage hlimit =>
      exact .tooDeep hmessage (by simp only [Reading.deepen]; omega)
    | endless hresult => exact .endless hresult

theorem rounds_agrees {body body' : σ → Parse R (σ ⊕ β)} {reading : σ → Nat → Reading (σ ⊕ β)}
    {holds : σ → Nat → Prop} {Q : β → Nat → Prop}
    (hround : ∀ state j, holds state j → j ≤ p.world.limit →
      ((reading state j).Meets p.world (max b.reached j) fun outcome k =>
        match outcome with
        | .inl state => j < k ∧ holds state k
        | .inr result => Q result k) ∧
      ∀ n s, b.reached ≤ n → p.At depth n j s → Remembers answers o n s.memo s.active →
        Agrees p answers o depth n (reading state j) (body state s) (body' state s))
    {fuel : Nat} {state : σ} {s : Session R} (hstate : holds state i) (hlimit : i ≤ p.world.limit)
    (hleast : b.reached ≤ n) (hat : p.At depth n i s)
    (hremembers : Remembers answers o n s.memo s.active) :
    Agrees p answers o depth n (Reading.rounds reading fuel state i)
      (Parser.rounds body fuel state s) (Parser.rounds body' fuel state s) := by
  induction fuel generalizing state i n s with
  | zero => exact .endless rfl
  | succ fuel ih =>
    obtain ⟨hmeets, hagrees⟩ := hround state i hstate hlimit
    have hrun : ∀ body : σ → Parse R (σ ⊕ β), Parser.rounds body (fuel + 1) state s =
        follow (body state s) fun outcome s =>
          match outcome with
          | .inl state => Parser.rounds body fuel state s
          | .inr result => .ok result s := by
      intro body
      simp only [Parser.rounds, run_bind, follow]
      cases body state s with
      | ok outcome s => cases outcome <;> rfl
      | error e s => rfl
    rw [hrun, hrun]
    refine (hagrees n s hleast hat hremembers).andThen ?_
    rintro (state' | result) j s' hresult hat' hremembers'
    · obtain ⟨⟨_, hstate'⟩, hj⟩ := hmeets.of_ok hresult
      exact ih hstate' hj (Nat.le_trans hleast (Nat.le_max_left _ _)) hat' hremembers'
    · exact .of_pure hat' hremembers'

section Exec

variable (callee : (r : R.Rule) → Parse R (Option (R.Node r))) (s : Session R)

theorem exec_act (action : Action β) (next : β → Matcher R α) :
    Parser.exec callee (.act action next) s =
      follow (Session.perform action s) fun v => Parser.exec callee (next v) := by
  cases hrun : Session.perform action s <;> simp only [Parser.exec, follow, hrun]

theorem exec_call (r : R.Rule) (next : Option (R.Node r) → Matcher R α) :
    Parser.exec callee (.call r next) s =
      follow (callee r s) fun node => Parser.exec callee (next node) := by
  cases hrun : callee r s <;> simp only [Parser.exec, follow, hrun]

theorem exec_deeper (inner : Matcher R β) (next : β → Matcher R α) :
    Parser.exec callee (.deeper inner next) s =
      follow (Parser.nest (Parser.exec callee inner) s) fun v => Parser.exec callee (next v) := by
  cases hrun : Parser.nest (Parser.exec callee inner) s <;> simp only [Parser.exec, follow, hrun]

theorem exec_iterate (body : σ → Matcher R (σ ⊕ β)) (state : σ) (next : β → Matcher R α) :
    Parser.exec callee (.iterate body state next) s =
      follow (Parser.rounds (fun state => Parser.exec callee (body state)) s.bound state s)
        fun v => Parser.exec callee (next v) := by
  cases hrun : Parser.rounds (fun state => Parser.exec callee (body state)) s.bound state s <;>
    simp only [Parser.exec, follow, hrun]

theorem exec_loop (body : σ → Matcher R (σ ⊕ β)) (state : σ) :
    Parser.exec callee (Matcher.loop body state) s =
      Parser.rounds (fun state => Parser.exec callee (body state)) s.bound state s := by
  refine (exec_iterate callee s body state _).trans ?_
  cases Parser.rounds (fun state => Parser.exec callee (body state)) s.bound state s <;> rfl

end Exec

/-- The rules that a body calls run as they read. -/
def Serves (p : Pass) (K : Ranking R) (answers : Callee R) (o : Tried R) (b : Base)
    (reads : Callee R) (callee callee' : (r : R.Rule) → Parse R (Option (R.Node r))) : Prop :=
  ∀ r j, K.Allows b r j → j ≤ p.world.limit →
    (reads r j).Meets p.world j (K.Yields r j) ∧
    ∀ depth n s, p.At depth n j s → Remembers answers o n s.memo s.active →
      Agrees p answers o depth n (reads r j) (callee r s) (callee' r s)

variable {reads : Callee R} {callee callee' : (r : R.Rule) → Parse R (Option (R.Node r))}

theorem Serves.reach (h : Serves p K answers o b reads callee callee') (i : Nat) :
    Serves p K answers o (b.reach i) reads callee callee' :=
  h

theorem Serves.agree (h : Serves p K answers o b reads callee callee') :
    CalleesAgree p.world K b reads reads :=
  fun r j hallows hj => ⟨rfl, (h r j hallows hj).1⟩

theorem exec_agrees {m : Matcher R α} {Q : α → Nat → Prop} {s : Session R}
    (hserves : Serves p K answers o b reads callee callee')
    (h : Ensures p.world K b m i Q) (hlimit : i ≤ p.world.limit)
    (hcome : b.reached ≤ p.world.limit) (hreached : b.reached ≤ n) (hat : p.At depth n i s)
    (hremembers : Remembers answers o n s.memo s.active) :
    Agrees p answers o depth n (p.world.read reads m i) (Parser.exec callee m s)
      (Parser.exec callee' m s) := by
  induction m generalizing i b n depth s with
  | done value => exact .of_pure hat hremembers
  | act action next ih =>
    have hcome' : (b.reach i).reached ≤ p.world.limit := Nat.max_le.mpr ⟨hcome, hlimit⟩
    have hreached' : (b.reach i).reached ≤ n := Nat.max_le.mpr ⟨hreached, hat.le⟩
    rw [exec_act, exec_act]
    refine (perform_agrees h hreached' hat hremembers).andThen ?_
    intro v j s' hresult hat' hremembers'
    obtain ⟨hnext, hj⟩ :=
      (World.Performs.meets h hlimit (Nat.le_max_right _ _) hcome').of_ok hresult
    exact ih v (hserves.reach i) hnext hj hcome'
      (Nat.le_trans hreached' (Nat.le_max_left _ _)) hat' hremembers'
  | call r next ih =>
    have hcome' : (b.reach i).reached ≤ p.world.limit := Nat.max_le.mpr ⟨hcome, hlimit⟩
    have hreached' : (b.reach i).reached ≤ n := Nat.max_le.mpr ⟨hreached, hat.le⟩
    obtain ⟨hmeets, hagrees⟩ := hserves r i h.1 hlimit
    rw [exec_call, exec_call]
    refine (hagrees depth n s hat hremembers).andThen ?_
    intro node j s' hresult hat' hremembers'
    obtain ⟨hyields, hj⟩ := hmeets.of_ok hresult
    exact ih node (hserves.reach i) (h.2 node j hyields) hj hcome'
      (Nat.le_trans hreached' (Nat.le_max_left _ _)) hat' hremembers'
  | deeper inner next ihInner ihNext =>
    have hcome' : (b.reach i).reached ≤ p.world.limit := Nat.max_le.mpr ⟨hcome, hlimit⟩
    have hreached' : (b.reach i).reached ≤ n := Nat.max_le.mpr ⟨hreached, hat.le⟩
    have hknown : (∃ t, p.world.token i = .ok t) ∨
        ∃ e, p.world.token i = .error e ∧ (p.world.read reads inner i).reach = i ∧
          (p.world.read reads inner i).result = .error (.lexical e) := by
      cases htoken : p.world.token i with
      | ok t => exact .inl ⟨t, rfl⟩
      | error e =>
        rcases h.1 with hlooks | ⟨t, ht⟩
        · rw [hlooks.read htoken]
          exact .inr ⟨e, rfl, rfl, rfl⟩
        · cases htoken.symm.trans ht
    have hmeets := (Ensures.meets hserves.agree h.2 hlimit hcome).2
    rw [exec_deeper, exec_deeper]
    refine (nest_agrees hknown hat hremembers fun s hat hremembers =>
      ihInner hserves h.2 hlimit hcome hreached hat hremembers).andThen ?_
    intro v j s' hresult hat' hremembers'
    obtain ⟨hnext, hj⟩ := hmeets.of_ok hresult
    exact ihNext v (hserves.reach i) hnext hj hcome'
      (Nat.le_trans hreached' (Nat.le_max_left _ _)) hat' hremembers'
  | iterate body state next ihBody ihNext =>
    have hcome' : (b.reach i).reached ≤ p.world.limit := Nat.max_le.mpr ⟨hcome, hlimit⟩
    have hreached' : (b.reach i).reached ≤ n := Nat.max_le.mpr ⟨hreached, hat.le⟩
    have hbound : s.bound = p.world.bound := by
      obtain ⟨t, reads, hfilled, hstream⟩ := hat.stream
      rw [Session.bound, hstream]
      exact (p.fresh.filled hfilled).bound
    obtain ⟨holds, hstart, hround⟩ := h
    have hrounds := fun state j (hstate : holds state j) (hj : j ≤ p.world.limit) =>
      (Ensures.meets (hserves.reach i).agree (hround state j hstate) hj hcome').2
    obtain ⟨_, hmeets⟩ := Reading.rounds_meets p.world.bound
      (fun state j hstate hj => ⟨rfl, hrounds state j hstate hj⟩) hstart hlimit
      (Nat.lt_of_le_of_lt (Nat.sub_le _ _) p.world.limit_lt)
    rw [exec_iterate, exec_iterate, hbound]
    refine (rounds_agrees (b := b.reach i)
      (fun state j hstate hj => ⟨hrounds state j hstate hj, fun n s hle hat hremembers =>
        ihBody state (hserves.reach i) (hround state j hstate) hj hcome' hle hat hremembers⟩)
      hstart hlimit hreached' hat hremembers).andThen ?_
    intro v j s' hresult hat' hremembers'
    obtain ⟨hnext, hj⟩ := hmeets.of_ok hresult
    exact ihNext v (hserves.reach i) hnext hj hcome'
      (Nat.le_trans hreached' (Nat.le_max_left _ _)) hat' hremembers'

theorem exec_bind (callee : (r : R.Rule) → Parse R (Option (R.Node r))) (m : Matcher R α)
    (f : α → Matcher R β) (s : Session R) :
    Parser.exec callee (m.bind f) s =
      follow (Parser.exec callee m s) fun a => Parser.exec callee (f a) := by
  induction m generalizing s with
  | done value => rfl
  | act action next ih =>
    simp only [Matcher.bind, exec_act, follow]
    cases Session.perform action s with
    | ok v s => exact ih v f s
    | error e s => rfl
  | call r next ih =>
    simp only [Matcher.bind, exec_call, follow]
    cases callee r s with
    | ok node s => exact ih node f s
    | error e s => rfl
  | deeper inner next _ ih =>
    simp only [Matcher.bind, exec_deeper, follow]
    cases Parser.nest (Parser.exec callee inner) s with
    | ok v s => exact ih v f s
    | error e s => rfl
  | iterate body state next _ ih =>
    simp only [Matcher.bind, exec_iterate, follow]
    cases Parser.rounds (fun state => Parser.exec callee (body state)) s.bound state s with
    | ok v s => exact ih v f s
    | error e s => rfl

theorem Matcher.Straight.agrees {m : Matcher R α} (h : m.Straight) {s : Session R}
    (hat : p.At depth n i s) (hremembers : Remembers answers o n s.memo s.active) :
    Agrees p answers o depth n (p.world.read reads m i) (Parser.exec callee m s)
      (Parser.exec callee' m s) := by
  induction m generalizing i n s with
  | done value => exact .of_pure hat hremembers
  | act action next ih =>
    rw [exec_act, exec_act]
    cases action with
    | peek =>
      exact (look_agrees hat hremembers).andThen fun t j s' _ hat' hremembers' =>
        ih t (h t) hat' hremembers'
    | next =>
      exact (next_agrees hat hremembers).andThen fun t j s' _ hat' hremembers' =>
        ih t (h t) hat' hremembers'
    | _ => exact h.elim
  | _ => exact h.elim

theorem Matcher.Straight.read_eq {m : Matcher R α} (h : m.Straight) (W : World)
    (reads reads' : Callee R) : W.read reads m i = W.read reads' m i := by
  induction m generalizing i with
  | done value => rfl
  | act action next ih =>
    simp only [World.read]
    congr 1
    funext v j
    cases action with
    | peek => exact ih v (h v)
    | next => exact ih v (h v)
    | _ => exact h.elim
  | _ => exact h.elim

theorem Matcher.Straight.proper {m : Matcher R α} (hm : m.Straight) {W : World} {h : Halt}
    (hresult : (W.read reads m i).result = .error h) : h.Proper := by
  induction m generalizing i with
  | done value => cases hresult
  | act action next ih =>
    cases action with
    | peek =>
      simp only [World.read, World.perform, World.look] at hresult
      cases htoken : W.token i with
      | ok t =>
        rw [htoken] at hresult
        exact ih t (hm t) hresult
      | error e =>
        rw [htoken] at hresult
        cases hresult
        trivial
    | next =>
      simp only [World.read, World.perform, World.look] at hresult
      cases htoken : W.token i with
      | ok t =>
        rw [htoken] at hresult
        exact ih t (hm t) hresult
      | error e =>
        rw [htoken] at hresult
        cases hresult
        trivial
    | _ => exact hm.elim
  | _ => exact hm.elim

end ShellSyntax
