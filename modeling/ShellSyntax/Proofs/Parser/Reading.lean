import ShellSyntax.Parser.Run

/-!
What a grammar says about a fixed sequence of tokens. A reading remembers no results and has no
limit on the depth of brackets; it does say how far it looked and how deep it went.
-/

namespace ShellSyntax

namespace Token

/-- The token with which every sequence ends. -/
def IsEnd (t : Token) : Prop :=
  t.kind = .endMarker ∧ t.text = ""

end Token

/-- The tokens that a parser meets, up to the end of the source or to where the lexer fails. -/
structure Feed where
  token : Nat → Except LexError Token
  /-- Where the end marker or the failure is. -/
  limit : Nat
  bound : Nat
  ends : ∀ t, token limit = .ok t → t.IsEnd
  limit_lt : limit < bound

namespace Feed

/-- The last token before this place that is no layout. -/
def lastToken? (f : Feed) : Nat → Option Token
  | 0 => none
  | i + 1 =>
    match f.token i with
    | .ok t => if t.kind.isLayout then lastToken? f i else some t
    | .error _ => none

def startOf (f : Feed) (i : Nat) : Position :=
  match f.token i with
  | .ok t => t.start
  | .error _ => .origin

def spanSince (f : Feed) (start i : Nat) : Span :=
  let first := f.startOf start
  let last := ((f.lastToken? i).map Token.stop).getD first
  ⟨first, last.later first⟩

end Feed

/-- All that a matcher can learn of its surroundings. -/
structure World extends Feed where
  diagnosing : Bool

/-- What ends a reading. -/
inductive Halt where
  | lexical (error : LexError)
  | fault (fault : Fault)
  | endless

/-- What came of a reading, and where it ended. -/
structure Reading (α : Type) where
  /-- How many tokens were looked at. -/
  reach : Nat
  /-- How many brackets deep it went. -/
  depth : Nat
  result : Except Halt (α × Nat)

namespace Reading

variable {α β γ σ : Type}

def pure (a : α) (i : Nat) : Reading α :=
  ⟨0, 0, .ok (a, i)⟩

def halt (h : Halt) : Reading α :=
  ⟨0, 0, .error h⟩

def andThen (o : Reading α) (f : α → Nat → Reading β) : Reading β :=
  match o.result with
  | .error h => ⟨o.reach, o.depth, .error h⟩
  | .ok (a, i) =>
    let o' := f a i
    ⟨max o.reach o'.reach, max o.depth o'.depth, o'.result⟩

def deepen (o : Reading α) : Reading α :=
  { o with depth := o.depth + 1 }

/-- A failure goes back to `start`. -/
def settle (start : Nat) (o : Reading (Option α)) : Reading (Option α) :=
  o.andThen fun node stop => pure node (if node.isSome then stop else start)

@[simp] theorem pure_andThen (a : α) (i : Nat) (f : α → Nat → Reading β) :
    (pure a i).andThen f = f a i := by
  simp [andThen, pure]

theorem andThen_assoc (o : Reading α) (f : α → Nat → Reading β) (g : β → Nat → Reading γ) :
    (o.andThen f).andThen g = o.andThen fun a i => (f a i).andThen g := by
  unfold andThen
  cases o.result with
  | error h => rfl
  | ok first =>
    simp only
    cases (f first.1 first.2).result with
    | error h => rfl
    | ok second => simp only [Nat.max_assoc]

/-- Runs `body` until it yields a result, in at most `fuel` rounds. -/
def rounds (body : σ → Nat → Reading (σ ⊕ β)) : (fuel : Nat) → σ → Nat → Reading β
  | 0, _, _ => halt .endless
  | fuel + 1, state, i => (body state i).andThen fun outcome j =>
    match outcome with
    | .inl state => rounds body fuel state j
    | .inr result => pure result j

end Reading

/-- How each rule reads from each place. -/
abbrev Callee (R : RuleSet) := (r : R.Rule) → Nat → Reading (Option (R.Node r))

namespace World

variable {R : RuleSet} {α β : Type} (W : World)

def look (i : Nat) : Reading Token :=
  match W.token i with
  | .ok t => ⟨i + 1, 0, .ok (t, i)⟩
  | .error e => ⟨i, 0, .error (.lexical e)⟩

def perform : {β : Type} → Action β → Nat → Reading β
  | _, .mark, i => .pure i i
  | _, .reset mark, _ => .pure () mark
  | _, .peek, i => W.look i
  | _, .next, i => (W.look i).andThen fun t j => .pure t (j + 1)
  | _, .spanSince mark, i => .pure (W.spanSince mark i) i
  | _, .lastToken?, i => .pure (W.lastToken? i) i
  | _, .isDiagnosing, i => .pure W.diagnosing i
  | _, .fail fault, _ => .halt (.fault fault)

def read (callee : Callee R) : {α : Type} → Matcher R α → Nat → Reading α
  | _, .done value, i => .pure value i
  | _, .act action next, i => (W.perform action i).andThen fun b j => read callee (next b) j
  | _, .call rule next, i => (callee rule i).andThen fun node j => read callee (next node) j
  | _, .deeper inner next, i =>
    (read callee inner i).deepen.andThen fun b j => read callee (next b) j
  | _, .iterate body state next, i =>
    (Reading.rounds (fun state => read callee (body state)) W.bound state i).andThen fun b j =>
      read callee (next b) j

theorem read_bind (callee : Callee R) (m : Matcher R α) (f : α → Matcher R β) (i : Nat) :
    W.read callee (m.bind f) i = (W.read callee m i).andThen fun a j => W.read callee (f a) j := by
  induction m generalizing i with
  | done value => simp only [Matcher.bind, read, Reading.pure_andThen]
  | act action next ih => simp only [Matcher.bind, read, Reading.andThen_assoc, ih]
  | call rule next ih => simp only [Matcher.bind, read, Reading.andThen_assoc, ih]
  | deeper inner next _ ih => simp only [Matcher.bind, read, Reading.andThen_assoc, ih]
  | iterate body state next _ ih => simp only [Matcher.bind, read, Reading.andThen_assoc, ih]

/-! ### Rules -/

/-- `callee`, but with a known answer where one rule is called at one place. -/
def knowing (callee : Callee R) (mark : Nat) (known : Remembered R) : Callee R := fun r i =>
  if h : known.rule = r then
    if i = mark then ⟨known.stop, 0, .ok (h ▸ known.node, known.stop)⟩ else callee r i
  else callee r i

/-- The longest match of a left-recursive rule, `best` being the longest so far. -/
def growth {N : Type} (body : Option N × Nat → Reading (Option N)) :
    (fuel : Nat) → Option N × Nat → Reading (Option N)
  | 0, _ => .halt .endless
  | fuel + 1, best => (body best).andThen fun node stop =>
    if node.isNone || stop ≤ best.2 then .pure best.1 best.2
    else growth body fuel (node, stop)

/-- What a rule makes of what the rules that it calls make of the tokens. -/
def step (G : Grammar R) (callee : Callee R) : Callee R := fun rule i =>
  match R.policy rule with
  | .direct => W.read callee (G.body rule) i
  | .packrat => (W.read callee (G.body rule) i).settle i
  | .leftRecursive =>
    growth (fun best => W.read (knowing callee i ⟨rule, best.1, best.2⟩) (G.body rule) i)
      (W.bound + 1) (none, i)

def call (G : Grammar R) : (fuel : Nat) → Callee R
  | 0, _, _ => .halt .endless
  | fuel + 1, rule, i => W.step G (call G fuel) rule i

end World

end ShellSyntax
